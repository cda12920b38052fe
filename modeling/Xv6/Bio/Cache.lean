import Xv6.Params
import Xv6.Lib.Ring
import Xv6.Lib.Runs

/-!
# `bio.c`: the list of buffers

The `NBUF` buffers are linked through `prev` and `next` with `bcache.head` between the most
and the least recently used one.  `bget` looks for the block from the front and, if it is not
there, for a buffer to recycle from the end; `brelse` moves a buffer that nobody uses any more
to the front.

A step is a section under `bcache.lock`, a sleep lock taken or released, or a change of the
flags by the process that holds the buffer.  Between `bget`'s section and the matching one of
`brelse` a process waits for the buffer's lock, has it, or has given it up already.

`now` and `dropped` are history: `dropped b` is the number of the last time that the reference
count of `b` went to zero, 0 if it never did.
-/

namespace Xv6

open Conc

abbrev NBUF : Nat := MAXOPBLOCKS * 3

/-- `bcache.head` or one of `bcache.buf` -/
inductive BufNode where
  | head
  | buf (b : Fin NBUF)
deriving DecidableEq

/-- `struct buf` without its data; `refcnt` counts processes, so that it does not wrap. -/
structure Buffer (P : Type) where
  dev : Nat
  blockno : Nat
  /-- `B_VALID` -/
  valid : Bool
  /-- `B_DIRTY` -/
  dirty : Bool
  refcnt : Nat
  lock : Option P

/-- Where a process is in `bio.c`. -/
inductive BioPos where
  | idle
  /-- in `acquiresleep` of `bget` -/
  | waiting (b : Fin NBUF)
  /-- in `brelse`, after `releasesleep` -/
  | releasing (b : Fin NBUF)
deriving DecidableEq

inductive BioPanic where
  /-- `bget: no buffers` -/
  | noBuffers
  /-- `bwrite` -/
  | bwrite
  /-- `brelse` -/
  | brelse
deriving DecidableEq

structure Bcache (P : Type) where
  buf : Fin NBUF → Buffer P
  links : Links BufNode
  pos : P → BioPos
  now : Nat
  dropped : Fin NBUF → Nat

inductive BioEvent (P : Type) where
  | bget (p : P) (dev blockno : Nat)
  /-- `acquiresleep` gets the lock -/
  | acquire (p : P)
  /-- `iderw` is done with the buffer -/
  | iderw (p : P) (b : Fin NBUF)
  | logWrite (p : P) (b : Fin NBUF)
  /-- `bwrite` up to `iderw` -/
  | bwrite (p : P) (b : Fin NBUF)
  /-- `brelse` up to `releasesleep` -/
  | brelse (p : P) (b : Fin NBUF)
  /-- the rest of `brelse`, under `bcache.lock` -/
  | brelseEnd (p : P)

def Buffer.Is {P : Type} (x : Buffer P) (dev blockno : Nat) : Prop :=
  x.dev = dev ∧ x.blockno = blockno

instance {P : Type} (x : Buffer P) (dev blockno : Nat) : Decidable (x.Is dev blockno) :=
  inferInstanceAs (Decidable (_ ∧ _))

/-- `b->refcnt == 0 && (b->flags & B_DIRTY) == 0` -/
def Buffer.Unused {P : Type} (x : Buffer P) : Prop := x.refcnt = 0 ∧ x.dirty = false

instance {P : Type} (x : Buffer P) : Decidable x.Unused := inferInstanceAs (Decidable (_ ∧ _))

namespace Bcache

variable {P : Type} [DecidableEq P] (s : Bcache P)

def set (b : Fin NBUF) (x : Buffer P) : Bcache P := { s with buf := Function.update s.buf b x }

def setPos (p : P) (x : BioPos) : Bcache P := { s with pos := Function.update s.pos p x }

/-- A test of a loop over the list. -/
def test (f : Buffer P → Bool) : BufNode → Bool
  | .head => false
  | .buf b => f (s.buf b)

/-- `for(b = bcache.head.next; b != &bcache.head; b = b->next)` up to the first buffer with `f` -/
def scanNext (f : Buffer P → Bool) : Option (Option BufNode) :=
  Links.scan s.links.next .head (s.test f) (NBUF + 1) (s.links.next .head)

/-- `for(b = bcache.head.prev; b != &bcache.head; b = b->prev)` up to the first buffer with `f` -/
def scanPrev (f : Buffer P → Bool) : Option (Option BufNode) :=
  Links.scan s.links.prev .head (s.test f) (NBUF + 1) (s.links.prev .head)

/-- `bget` under `bcache.lock`; `sleep` stands for a loop that does not end. -/
def bget (p : P) (dev blockno : Nat) : Res BioPanic Unit (Bcache P) :=
  match s.scanNext fun x => x.Is dev blockno with
  | some (some (.buf b)) =>
    .ok () ((s.set b { s.buf b with refcnt := (s.buf b).refcnt + 1 }).setPos p (.waiting b))
  | some none =>
    match s.scanPrev fun x => x.Unused with
    | some (some (.buf b)) => .ok () ((s.set b { s.buf b with
        dev := dev, blockno := blockno, valid := false, dirty := false, refcnt := 1 }).setPos p
          (.waiting b))
    | some none => .panic .noBuffers
    | _ => .sleep
  | _ => .sleep

def brelseEnd (p : P) (b : Fin NBUF) : Bcache P :=
  let s := (s.set b { s.buf b with refcnt := (s.buf b).refcnt - 1 }).setPos p .idle
  if (s.buf b).refcnt = 0 then
    { s with
      links := (s.links.unlink (.buf b)).pushFront .head (.buf b)
      now := s.now + 1
      dropped := Function.update s.dropped b (s.now + 1) }
  else s

def step : BioEvent P → Res BioPanic Unit (Bcache P)
  | .bget p dev blockno => if s.pos p = .idle then s.bget p dev blockno else .sleep
  | .acquire p =>
    match s.pos p with
    | .waiting b =>
      if (s.buf b).lock = none then
        .ok () ((s.set b { s.buf b with lock := some p }).setPos p .idle)
      else .sleep
    | _ => .sleep
  | .iderw p b =>
    if s.pos p = .idle ∧ (s.buf b).lock = some p then
      .ok () (s.set b { s.buf b with valid := true, dirty := false })
    else .sleep
  | .logWrite p b =>
    if s.pos p = .idle ∧ (s.buf b).lock = some p then
      .ok () (s.set b { s.buf b with dirty := true })
    else .sleep
  | .bwrite p b =>
    if s.pos p = .idle then
      if (s.buf b).lock = some p then .ok () (s.set b { s.buf b with dirty := true })
      else .panic .bwrite
    else .sleep
  | .brelse p b =>
    if s.pos p = .idle then
      if (s.buf b).lock = some p then
        .ok () ((s.set b { s.buf b with lock := none }).setPos p (.releasing b))
      else .panic .brelse
    else .sleep
  | .brelseEnd p =>
    match s.pos p with
    | .releasing b => .ok () (s.brelseEnd p b)
    | _ => .sleep

/-- The state after `binit`. -/
def binit : Bcache P where
  buf := fun _ => ⟨0, 0, false, false, 0, none⟩
  links := (List.finRange NBUF).foldl (fun k b => k.pushFront .head (.buf b)) ⟨id, id⟩
  pos := fun _ => .idle
  now := 0
  dropped := fun _ => 0

end Bcache

end Xv6
