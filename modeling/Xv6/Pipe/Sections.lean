import Xv6.Fs.File
import Xv6.Lib.Monitor

/-!
# `pipe.c` at the granularity of `p->lock`

A section of `pipewrite` stores bytes until none is left or the pipe is full: then it
gives up, when nobody can read any more or the writer was killed, or wakes the
readers and sleeps.  A section of `piperead` copies what there is, or sleeps while
the pipe is empty and can still be written.  `pipeclose` is one section.

`sent` and `got` are history: all bytes stored in the pipe and all bytes copied out of
it, in the order in which that was done.
-/

namespace Xv6

open Bytes Conc

/-- What processes sleep on: `&p->nread` and `&p->nwrite`. -/
inductive PipeChan where
  | nread
  | nwrite
deriving DecidableEq

/-- Where a process is with respect to the pipe. -/
inductive PipeLoc where
  | idle
  /-- in `pipewrite` of `n` bytes, with `rest` left to store -/
  | write (n : Nat) (rest : List Byte)
  /-- in `piperead` of up to `n` bytes -/
  | read (n : Nat)
  /-- in `pipeclose` -/
  | close (writable : Bool)
  /-- returned from a call -/
  | ret (r : Int)
deriving DecidableEq

/-- A pipe and its history. -/
structure Stream where
  pipe : Pipe
  sent : List Byte
  got : List Byte

namespace Pipe

/-- `p->nwrite == p->nread + PIPESIZE` -/
def full (x : Pipe) : Bool := x.nwrite == (x.nread + PIPESIZE) % 2 ^ 32

/-- `p->nread == p->nwrite` -/
def empty (x : Pipe) : Bool := x.nread == x.nwrite

/-- `p->data[p->nwrite++ % PIPESIZE] = c` -/
def store (x : Pipe) (c : Byte) : Pipe :=
  { x with data := x.data.splice (x.nwrite % PIPESIZE) 1 fun _ => c, nwrite := Fs.incr x.nwrite }

/-- What `pipeclose` does to the flags. -/
def closeEnd (x : Pipe) (writable : Bool) : Pipe :=
  if writable then { x with writeopen := false } else { x with readopen := false }

/-- A pipe as `pipealloc` sets it up, in a page that holds `data`. -/
def fresh (data : Blk PIPESIZE) : Pipe := ⟨data, 0, 0, true, true⟩

end Pipe

namespace Stream

def store (x : Stream) (c : Byte) : Stream := { x with pipe := x.pipe.store c, sent := x.sent ++ [c] }

/-- `pipewrite` with `rest` bytes left, from holding the lock to giving it up. -/
def pipewrite (killed : Bool) (n : Nat) : List Byte → Stream → Turn PipeChan PipeLoc × Stream
  | [], x => (⟨[.nread], none, .ret n⟩, x)
  | c :: rest, x =>
    if x.pipe.full then
      if x.pipe.readopen = false ∨ killed = true then (⟨[], none, .ret (-1)⟩, x)
      else (⟨[.nread], some .nwrite, .write n (c :: rest)⟩, x)
    else pipewrite killed n rest (x.store c)

/-- `piperead` from holding the lock to giving it up. -/
def piperead (killed : Bool) (n : Nat) (x : Stream) : Turn PipeChan PipeLoc × Stream :=
  if x.pipe.empty = true ∧ x.pipe.writeopen = true then
    if killed then (⟨[], none, .ret (-1)⟩, x) else (⟨[], some .nread, .read n⟩, x)
  else
    let r := Fs.pipeTake x.pipe n
    (⟨[.nwrite], none, .ret r.1.length⟩, { x with pipe := r.2, got := x.got ++ r.1 })

def pipeclose (writable : Bool) (x : Stream) : Turn PipeChan PipeLoc × Stream :=
  (⟨[if writable then .nread else .nwrite], none, .ret 0⟩, { x with pipe := x.pipe.closeEnd writable })

/-- The section of a process at `l`; a process outside of the calls has none. -/
def code (killed : Bool) (l : PipeLoc) (x : Stream) :
    Res Panic (Turn PipeChan PipeLoc) Stream :=
  let ran (r : Turn PipeChan PipeLoc × Stream) := Res.ok r.1 r.2
  match l with
  | .write n rest => ran (pipewrite killed n rest x)
  | .read n => ran (piperead killed n x)
  | .close writable => ran (pipeclose writable x)
  | .idle => .sleep
  | .ret _ => .sleep

/-- A process outside of the calls may make any of them. -/
def calls : PipeLoc → PipeLoc → Bool
  | .idle, l | .ret _, l =>
    match l with
    | .write n rest => rest.length == n
    | .read _ => true
    | .close _ => true
    | .idle => false
    | .ret _ => false
  | _, _ => false

end Stream

/-- Any number of processes using one pipe. -/
def pipeMonitor : Monitor PipeChan PipeLoc Stream Panic := ⟨Stream.code, Stream.calls⟩

abbrev PipeSys (P : Type) := Procs P PipeChan PipeLoc Stream

/-- The pipe just made, nobody in a call. -/
def pipeInit {P : Type} (data : Blk PIPESIZE) : PipeSys P := .init ⟨.fresh data, [], []⟩ .idle

/-! ## The bytewise code

`Fs.pipewrite` stores each byte in a section of its own.  Run alone, it does what the sections here
do, and waits where they sleep. -/

/-- The answer of a call that returned. -/
def PipeLoc.result : PipeLoc → Int
  | .ret r => r
  | _ => 0

theorem setPipe_self (s : Kernel) (p : Nat) : Fs.setPipe s p (s.pipes p) = s := by
  simp [Fs.setPipe]

theorem run_pipewriteFrom {me : Pid} {p n : Nat} {src : Nat → Byte} {s : Kernel}
    (sent got : List Byte) {rest : Nat} (hrest : rest ≤ n) :
    (Fs.pipewriteFrom me p src n rest).run s =
      let r := Stream.pipewrite (s.proc me).killed n ((List.range' (n - rest) rest).map src)
        ⟨s.pipes p, sent, got⟩
      if r.1.parks = none then .ok r.1.next.result (Fs.setPipe s p r.2.pipe) else .sleep := by
  induction rest generalizing s sent with
  | zero =>
    simp only [Fs.pipewriteFrom, List.range'_zero, List.map_nil, Stream.pipewrite, PipeLoc.result,
      setPipe_self]
    rfl
  | succ rest ih =>
    have hnext : n - (rest + 1) + 1 = n - rest := by omega
    simp only [Fs.pipewriteFrom, List.range'_succ, List.map_cons, Stream.pipewrite, hnext]
    rw [Prog.run_bind, Fs.pipewriteByte, Prog.run_atomic]
    by_cases hfull : (s.pipes p).full = true
    · have hfull' : (s.pipes p).nwrite = ((s.pipes p).nread + PIPESIZE) % 2 ^ 32 := by
        simpa [Pipe.full] using hfull
      simp only [hfull, hfull', if_true]
      split
      · simp [PipeLoc.result, setPipe_self]
      · rfl
    · have hfull' : ¬ (s.pipes p).nwrite = ((s.pipes p).nread + PIPESIZE) % 2 ^ 32 := by
        simpa [Pipe.full] using hfull
      simp only [hfull, hfull', if_false, Res.bind_ok, if_true]
      rw [ih (sent ++ [src (n - (rest + 1))]) (by omega)]
      simp [Stream.store, Pipe.store, Fs.setPipe]

/-- `Fs.piperead` is the section of `piperead`. -/
theorem run_piperead {me : Pid} {p n : Nat} {s : Kernel} (sent got : List Byte) :
    (Fs.piperead me p n).run s =
      let r := Stream.piperead (s.proc me).killed n ⟨s.pipes p, sent, got⟩
      if r.1.parks ≠ none then .sleep
      else if r.1.next.result < 0 then .ok none s
      else .ok (some (r.2.got.drop got.length)) (Fs.setPipe s p r.2.pipe) := by
  rw [Fs.piperead, Prog.run_atomic]
  by_cases h : (s.pipes p).nread = (s.pipes p).nwrite ∧ (s.pipes p).writeopen = true
  · have h' : (s.pipes p).empty = true ∧ (s.pipes p).writeopen = true := by
      simpa [Pipe.empty] using h
    simp only [Stream.piperead, if_pos h, if_pos h']
    cases (s.proc me).killed <;> simp [PipeLoc.result]
  · have h' : ¬ ((s.pipes p).empty = true ∧ (s.pipes p).writeopen = true) := by
      simpa [Pipe.empty] using h
    simp only [Stream.piperead, if_neg h, if_neg h']
    simp [PipeLoc.result]

end Xv6
