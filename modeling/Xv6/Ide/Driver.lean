import Xv6.Params
import Xv6.Lib.Monitor

/-!
# The disk drivers: `ide.c` and `memide.c`

`ide.c` keeps the requests in a queue.  The disk works on the first one; its interrupt takes
that request from the queue, wakes the process that waits for it and starts the disk on the
next.  The sections of the monitor are the stretches of code under `idelock`; what the disk
does by itself is a section too.

The disk serves the command it was given and then raises one interrupt, with or without an error.
A write with an error leaves the sector as it was.

`memide.c` does a request at once.  The list `queue` stands for the buffers linked through `qnext`.

`queued` and `ops` are history: all requests, and those that `ideintr` completed with the buffer as
it left it.
-/

namespace Xv6

open Bytes Conc

namespace Ide

abbrev SECTOR_SIZE : Nat := 512

/-- `struct buf`, the part that the drivers use -/
structure Buf where
  /-- `B_VALID` -/
  valid : Bool
  /-- `B_DIRTY` -/
  dirty : Bool
  dev : Nat
  blockno : Nat
  data : Block

/-- `(b->flags & (B_VALID|B_DIRTY)) == B_VALID` -/
def Buf.done (x : Buf) : Bool := x.valid && !x.dirty

/-- The sectors of the two drives. -/
abbrev Disk := Nat → Nat → Block

def Disk.set (d : Disk) (drive sector : Nat) (c : Block) : Disk :=
  Function.update d drive (Function.update (d drive) sector c)

inductive IdePanic where
  /-- `incorrect blockno` -/
  | incorrectBlockno
  /-- `iderw: buf not locked` -/
  | bufNotLocked
  /-- `iderw: nothing to do` -/
  | nothingToDo
  /-- `iderw: ide disk 1 not present` -/
  | disk1NotPresent
  /-- `iderw: request not for disk 1` -/
  | notForDisk1
  /-- `iderw: block out of range` -/
  | blockOutOfRange
deriving DecidableEq

/-! ## `memide.c` -/

/-- Sync buf with disk; `held` is what `holdingsleep(&b->lock)` says. -/
def memIderw (disksize : Nat) (held : Bool) (x : Buf) (memdisk : Nat → Block) :
    Res IdePanic Buf (Nat → Block) :=
  if !held then .panic .bufNotLocked
  else if x.done then .panic .nothingToDo
  else if x.dev ≠ 1 then .panic .notForDisk1
  else if x.blockno ≥ disksize then .panic .blockOutOfRange
  else if x.dirty then
    .ok { x with dirty := false, valid := true } (Function.update memdisk x.blockno x.data)
  else .ok { x with data := memdisk x.blockno, valid := true } memdisk

/-! ## The disk -/

/-- A command; the data of a write goes with it. -/
structure Cmd where
  drive : Nat
  sector : Nat
  write : Option Block

inductive Drive where
  | idle
  | busy (c : Cmd)
  /-- served, and the interrupt was not handled yet; `sector` is what a read delivers -/
  | served (c : Cmd) (err : Bool) (sector : Block)

/-- The sector number as the registers 0x1f3 to 0x1f6 have it. -/
def lba (sector : Nat) : Nat :=
  sector % 2 ^ 8 + 2 ^ 8 * (sector / 2 ^ 8 % 2 ^ 8) + 2 ^ 16 * (sector / 2 ^ 16 % 2 ^ 8) +
    2 ^ 24 * (sector / 2 ^ 24 % 2 ^ 4)

/-- The command for a buffer; a block is one sector. -/
def Buf.cmd (x : Buf) : Cmd where
  drive := x.dev % 2
  sector := lba (x.blockno * (BSIZE / SECTOR_SIZE))
  write := if x.dirty then some x.data else none

/-! ## `ide.c` -/

structure Req (B : Type) where
  b : B
  x : Buf

structure Driver (B : Type) where
  queue : List B
  buf : B → Buf
  havedisk1 : Bool
  drive : Drive
  disk : Disk
  queued : List (Req B)
  ops : List (Req B × Buf)

/-- Where a process is, or what interrupt handler and disk are about to do. -/
inductive IdeLoc (B : Type) where
  | idle
  /-- in `iderw` before `acquire(&idelock)`, with the buffer as the caller left it -/
  | start (b : B) (held : Bool) (x : Buf)
  /-- in the loop of `iderw`; `id` is the number of the request -/
  | wait (b : B) (id : Nat)
  /-- returned from `iderw` with the buffer `y` -/
  | ret (b : B) (id : Nat) (y : Buf)
  /-- in `ideintr` -/
  | intr
  /-- the disk, serving its command -/
  | serve (err : Bool)

namespace Driver

variable {B : Type} [DecidableEq B] (s : Driver B)

/-- Start the request for b; `idewait(0)` waits for a disk that is busy. -/
def idestart (b : B) : Res IdePanic Unit (Driver B) :=
  if (s.buf b).blockno ≥ FSSIZE then .panic .incorrectBlockno
  else
    match s.drive with
    | .busy _ => .sleep
    | _ => .ok () { s with drive := .busy (s.buf b).cmd }

/-- The loop of `iderw`. -/
def waitLoop (b : B) (id : Nat) : Turn B (IdeLoc B) :=
  if (s.buf b).done then ⟨[], none, .ret b id (s.buf b)⟩ else ⟨[], some b, .wait b id⟩

/-- Sync buf with disk, up to the first `sleep`. -/
def iderw (b : B) (held : Bool) (x : Buf) : Res IdePanic (Turn B (IdeLoc B)) (Driver B) :=
  if !held then .panic .bufNotLocked
  else if x.done then .panic .nothingToDo
  else if x.dev ≠ 0 ∧ !s.havedisk1 then .panic .disk1NotPresent
  else
    let s' : Driver B := { s with
      buf := Function.update s.buf b x
      queue := s.queue ++ [b]
      queued := s.queued ++ [⟨b, x⟩] }
    (if s'.queue.head? = some b then s'.idestart b else .ok () s').bind fun _ s'' =>
      .ok (s''.waitLoop b s.queued.length) s''

/-- What the interrupt does to the buffer: a read with an error leaves the data as it is. -/
def finished (err : Bool) (sector : Block) (x : Buf) : Buf :=
  let x := if !x.dirty && !err then { x with data := sector } else x
  { x with valid := true, dirty := false }

/-- Interrupt handler. -/
def ideintr : Res IdePanic (Turn B (IdeLoc B)) (Driver B) :=
  match s.drive with
  | .served _ err sector =>
    match s.queue with
    | [] => .ok ⟨[], none, .idle⟩ { s with drive := .idle }
    | b :: rest =>
      let y := finished err sector (s.buf b)
      let s' : Driver B := { s with
        queue := rest
        buf := Function.update s.buf b y
        drive := .idle
        ops := s.ops ++ [(⟨b, s.buf b⟩, y)] }
      let next : Res IdePanic Unit (Driver B) := match rest with
        | [] => .ok () s'
        | b' :: _ => s'.idestart b'
      next.bind fun _ s'' => .ok ⟨[b], none, .idle⟩ s''
  | _ => .sleep

/-- The disk serves its command. -/
def serve (err : Bool) : Res IdePanic (Turn B (IdeLoc B)) (Driver B) :=
  match s.drive with
  | .busy c => .ok ⟨[], none, .idle⟩ { s with
      drive := .served c err (s.disk c.drive c.sector)
      disk := match c.write with
        | some data => if err then s.disk else s.disk.set c.drive c.sector data
        | none => s.disk }
  | _ => .sleep

def code (_ : Bool) (l : IdeLoc B) (s : Driver B) : Res IdePanic (Turn B (IdeLoc B)) (Driver B) :=
  match l with
  | .start b held x => s.iderw b held x
  | .wait b id => .ok (s.waitLoop b id) s
  | .intr => s.ideintr
  | .serve err => s.serve err
  | .idle => .sleep
  | .ret .. => .sleep

/-- A process outside of `iderw` may call it; interrupts come and the disk works at any time. -/
def calls : IdeLoc B → IdeLoc B → Bool
  | .idle, l | .ret .., l =>
    match l with
    | .start .. => true
    | .intr => true
    | .serve _ => true
    | _ => false
  | _, _ => false

end Driver

/-- Any number of processes using the disk. -/
def monitor (B : Type) [DecidableEq B] : Monitor B (IdeLoc B) (Driver B) IdePanic :=
  ⟨Driver.code, Driver.calls⟩

abbrev Sys (P B : Type) := Procs P B (IdeLoc B) (Driver B)

/-- The buffers at boot, and what is on the disk. -/
def init {P B : Type} (buf : B → Buf) (havedisk1 : Bool) (disk : Disk) : Sys P B :=
  .init ⟨[], buf, havedisk1, .idle, disk, [], []⟩ .idle

end Ide

end Xv6
