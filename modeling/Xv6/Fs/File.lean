import Xv6.Fs.Code

/-!
# `file.c` and `pipe.c`

Open files and pipes.  A descriptor's `struct file` is recycled by `filealloc`
with the fields its last user left in it: only `ref` is set there, and `type` was
cleared by `fileclose`.

`piperead` holds the pipe's lock from the first byte to the last, so it is one
section; `pipewrite` gives the lock up whenever the pipe is full, and is a section
for each byte.
-/

namespace Xv6.Fs

open Bytes Conc

variable (sb : Superblock) (me : Pid)

/-! ## Transactions -/

def beginOp : K Unit := .atomic .beginOp fun s =>
  s.log.beginOp.bind fun _ l => .ok () { s with log := l }

/-- `end_op()`.  The commit runs without the lock, so others may run before the log is free again. -/
def endOp : K Unit := do
  let doCommit ← .atomic .endOp fun s =>
    s.log.endOpStart.bind fun c l => .ok c { s with log := l }
  if doCommit then .atomic .other fun s => .ok () { s with log := s.log.endOpFinish }

/-! ## Pipes -/

def setPipe (s : Kernel) (p : Nat) (x : Pipe) : Kernel :=
  { s with pipes := Function.update s.pipes p x }

/-- `kalloc()` of one page: whether there was one. -/
def kalloc : K Bool := .atomic .other fun s =>
  .ok (s.memory s.requests) { s with requests := s.requests + 1 }

/-- A page for a pipe, set up as `pipealloc` does; the data of the page is what it was. -/
def newPipe : K Nat := .atomic .other fun s =>
  .ok s.npipes { setPipe s s.npipes ⟨(s.pipes s.npipes).data, 0, 0, true, true⟩ with
    npipes := s.npipes + 1 }

/-- One end is closed. -/
def Pipe.close (x : Pipe) (writable : Bool) : Pipe :=
  if writable then { x with writeopen := false } else { x with readopen := false }

/-- `kfree` of the page of a pipe -/
def freePipe (s : Kernel) (p : Nat) : Kernel :=
  { s with pfrees := Function.update s.pfrees p (s.pfrees p + 1) }

def pipeclose (p : Nat) (writable : Bool) : K Unit := .atomic .other fun s =>
  let x := Pipe.close (s.pipes p) writable
  let s := setPipe s p x
  .ok () (if x.readopen = false ∧ x.writeopen = false then freePipe s p else s)

/-- A `uint` counter one further. -/
def incr (n : Nat) : Nat := (n + 1) % 2 ^ 32

/-- One byte of `pipewrite`: `false` if the reader is gone or the writer was killed. -/
def pipewriteByte (p : Nat) (c : Byte) : K Bool := .atomic .other fun s =>
  let x := s.pipes p
  if x.nwrite = (x.nread + PIPESIZE) % 2 ^ 32 then
    if x.readopen = false ∨ (s.proc me).killed = true then .ok false s else .sleep
  else
    .ok true (setPipe s p { x with
      data := x.data.splice (x.nwrite % PIPESIZE) 1 fun _ => c, nwrite := incr x.nwrite })

def pipewriteFrom (p : Nat) (src : Nat → Byte) (n : Nat) : Nat → K Int
  | 0 => return n
  | rest + 1 => do
    if ← pipewriteByte me p (src (n - (rest + 1))) then pipewriteFrom p src n rest
    else return -1

def pipewrite (p : Nat) (src : Nat → Byte) (n : Nat) : K Int := pipewriteFrom me p src n n

/-- The bytes that `piperead` copies, and the pipe after them. -/
def pipeTake (x : Pipe) : Nat → List Byte × Pipe
  | 0 => ([], x)
  | n + 1 =>
    if x.nread = x.nwrite then ([], x)
    else
      let r := pipeTake { x with nread := incr x.nread } n
      (x.data.get (x.nread % PIPESIZE) :: r.1, r.2)

/-- The bytes read, or `none` for `-1`. -/
def piperead (p n : Nat) : K (Option (List Byte)) := .atomic .other fun s =>
  let x := s.pipes p
  if x.nread = x.nwrite ∧ x.writeopen = true then
    if (s.proc me).killed = true then .ok none s else .sleep
  else
    let r := pipeTake x n
    .ok (some r.1) (setPipe s p r.2)

/-! ## The file table -/

def file (f : FileIdx) : K File := .atomic .other fun s => .ok (s.ftable f) s

def setFile (f : FileIdx) (g : File → File) : K Unit := .atomic .other fun s =>
  .ok () (s.setFile f (g (s.ftable f)))

/-- Allocate a file structure. -/
def filealloc : K (Option FileIdx) := .atomic .other fun s =>
  match (List.finRange NFILE).find? fun f => (s.ftable f).ref == 0 with
  | some f => .ok (some f) (s.setFile f { s.ftable f with ref := 1 })
  | none => .ok none s

/-- Increment ref count for file f. -/
def filedup (f : FileIdx) : K Unit := .atomic .other fun s =>
  if (s.ftable f).ref < 1 then .panic .filedup
  else .ok () (s.setFile f { s.ftable f with ref := (s.ftable f).ref + 1 })

/-- The part of `fileclose` under the lock: the file that was closed, if this was its last
reference. -/
def filecloseRef (f : FileIdx) : K (Option File) := .atomic .other fun s =>
  let ff := s.ftable f
  if ff.ref < 1 then .panic .fileclose
  else if ff.ref - 1 > 0 then .ok none (s.setFile f { ff with ref := ff.ref - 1 })
  else .ok (some ff) (s.setFile f { ff with ref := 0, type := .none })

/-- A pointer that is followed without a test. -/
def deref {α : Type} : Option α → K α
  | some a => pure a
  | none => panic .trap

/-- Close file f.  (Decrement ref count, close when reaches 0.) -/
def fileclose (f : FileIdx) : K Unit := do
  match ← filecloseRef f with
  | none => pure ()
  | some ff =>
    match ff.type with
    | .pipe => do pipeclose (← deref ff.pipe) ff.writable
    | .inode => do
      beginOp
      iput sb me (← deref ff.ip)
      endOp
    | .none => pure ()

/-- Get metadata about file f; `none` for `-1`. -/
def filestat (f : FileIdx) : K (Option Stat) := do
  let ff ← file f
  if ff.type = .inode then
    let i ← ilockPtr sb me ff.ip
    let st ← stati i
    iunlock me i
    return some st
  else return none

/-- Read from file f: the bytes read, or `none` for `-1`. -/
def fileread (f : FileIdx) (n : Nat) : K (Option (List Byte)) := do
  let ff ← file f
  if ff.readable = false then return none
  else match ff.type with
    | .pipe => do piperead me (← deref ff.pipe) n
    | .inode => do
      let i ← ilockPtr sb me ff.ip
      -- the offset is protected by the lock of the inode
      let r ← readi sb me i (← file f).off n
      match r with
      | some bs => setFile f fun ff => { ff with off := (ff.off + bs.length) % 2 ^ 32 }
      | none => pure ()
      iunlock me i
      return r
    | .none => panic .fileread

/-- `((MAXOPBLOCKS-1-1-2) / 2) * 512` -/
abbrev maxWrite : Nat := (MAXOPBLOCKS - 1 - 1 - 2) / 2 * 512

def filewriteChunk (f : FileIdx) (src : Nat → Byte) (i n1 : Nat) : K Int := do
  beginOp
  let ip ← ilockPtr sb me (← file f).ip
  let r ← writei sb me ip (fun k => src (i + k)) (← file f).off n1
  if r > 0 then setFile f fun ff => { ff with off := (ff.off + r.toNat) % 2 ^ 32 }
  iunlock me ip
  endOp
  return r

/-- The loop of `filewrite`; a round that goes on has written a byte at least. -/
def filewriteFrom (f : FileIdx) (src : Nat → Byte) (n : Nat) : Nat → Nat → K Int
  | 0, i => return if i = n then n else -1
  | rounds + 1, i =>
    if i < n then do
      let n1 := min (n - i) maxWrite
      let r ← filewriteChunk sb me f src i n1
      if r < 0 then return -1
      else if r ≠ n1 then panic .shortFilewrite
      else filewriteFrom f src n rounds (i + n1)
    else return if i = n then n else -1

def filewrite (f : FileIdx) (src : Nat → Byte) (n : Nat) : K Int := do
  let ff ← file f
  if ff.writable = false then return -1
  else match ff.type with
    | .pipe => do pipewrite me (← deref ff.pipe) src n
    | .inode => filewriteFrom sb me f src n n 0
    | .none => panic .filewrite

/-- Set up both ends of a pipe, or give back what was allocated; `none` for `-1`. -/
def pipealloc : K (Option (FileIdx × FileIdx)) := do
  match ← filealloc with
  | none => return none
  | some f0 =>
    match ← filealloc with
    | none =>
      fileclose sb me f0
      return none
    | some f1 =>
      if ← kalloc then
        let p ← newPipe
        -- `ip` and `off` keep what the last user of the entry left there
        setFile f0 fun ff =>
          { ff with type := .pipe, readable := true, writable := false, pipe := some p }
        setFile f1 fun ff =>
          { ff with type := .pipe, readable := false, writable := true, pipe := some p }
        return some (f0, f1)
      else
        fileclose sb me f0
        fileclose sb me f1
        return none

end Xv6.Fs
