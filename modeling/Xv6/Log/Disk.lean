import Xv6.Params
import Xv6.Lib.Writes

/-!
# `bio.c` and the disk side of `log.c`

The machine is a disk and the buffer cache in front of it.  A buffer has its
data and `B_DIRTY`; a cached buffer that is not dirty may be recycled by any
`bget` of another block, and `recycle` says which ones each call takes, so a
statement about every `recycle` is about every replacement order.  `bread` and
`bwrite` are one section each.  There is a buffer for every block here; the
limit of `NBUF` buffers, and the panic when all of them are dirty or in use, are
in `Bio`.  Such a panic leaves the disk as a crash there does, and a crash may
come at any point of a run.

The in-memory log header is the list of logged block numbers (`log.lh.n` is its
length); on disk it is the count followed by the numbers, four bytes each.
-/

namespace Xv6

open Bytes Conc

/-- `struct buf`, as far as its contents go. -/
structure Buf where
  data : Block
  dirty : Bool

structure Machine where
  disk : Nat → Block
  bcache : Nat → Option Buf
  /-- `recycle k b`: the `k`-th call of `bget` takes the buffer of block `b` if it is clean -/
  recycle : Nat → Nat → Bool
  /-- calls of `bget` so far -/
  calls : Nat

/-- Sections of `bio.c`. -/
inductive BioSection where
  | bread (b : Nat)
  | bwrite (b : Nat)
deriving DecidableEq

abbrev Dev := Prog BioSection Empty Machine

namespace Machine

/-- What a reader of block `b` gets: the cached data, or the disk's. -/
def view (m : Machine) (b : Nat) : Block :=
  match m.bcache b with
  | some buf => buf.data
  | none => m.disk b

/-- A buffer that is not dirty holds what the disk holds. -/
def Coherent (m : Machine) : Prop :=
  ∀ b buf, m.bcache b = some buf → buf.dirty = false → buf.data = m.disk b

/-- Finding a buffer for `b`: other clean buffers may be recycled. -/
def bget (m : Machine) (b : Nat) : Machine :=
  { m with
    bcache := fun x =>
      match m.bcache x with
      | some buf => if x ≠ b ∧ buf.dirty = false ∧ m.recycle m.calls x = true then none else some buf
      | none => none
    calls := m.calls + 1 }

/-- `iderw` on a buffer without `B_VALID`: read it from the disk. -/
def load (m : Machine) (b : Nat) : Machine :=
  match m.bcache b with
  | some _ => m
  | none => { m with bcache := Function.update m.bcache b (some ⟨m.disk b, false⟩) }

/-- `iderw` on a dirty buffer: write it, and it is clean. -/
def store (m : Machine) (b : Nat) (data : Block) : Machine :=
  { m with
    disk := Function.update m.disk b data
    bcache := Function.update m.bcache b (some ⟨data, false⟩) }

end Machine

/-- Memory is lost and the kernel starts again on what the disk holds. -/
def boot (d : Nat → Block) (recycle : Nat → Nat → Bool) : Machine where
  disk := d
  bcache := fun _ => none
  recycle := recycle
  calls := 0

def bread (b : Nat) : Dev Block :=
  .atomic (.bread b) fun m => .ok ((m.bget b).view b) ((m.bget b).load b)

def bwrite (b : Nat) (data : Block) : Dev Unit :=
  .atomic (.bwrite b) fun m => .ok () (m.store b data)

/-! ## `log.c` -/

/-- Block `b` lies outside the log area. -/
def Superblock.Home (sb : Superblock) (b : Nat) : Prop :=
  b < sb.logstart ∨ sb.logstart + sb.nlog ≤ b

/-- `struct logheader`: at most `LOGSIZE` block numbers of type `uint`. -/
structure Logheader where
  block : List Nat
  n_le : block.length ≤ LOGSIZE
  lt : ∀ b ∈ block, b < 2 ^ 32

/-- Copy the log blocks from `tail` on to the home blocks listed. -/
def installFrom (start : Nat) : Nat → List Nat → Dev Unit
  | _, [] => pure ()
  | tail, b :: bs => do
    let lbuf ← bread (start + tail + 1)
    let _dbuf ← bread b
    bwrite b lbuf
    installFrom start (tail + 1) bs

/-- Copy committed blocks from log to their home location. -/
def installTrans (start : Nat) (lh : List Nat) : Dev Unit := installFrom start 0 lh

/-- The block numbers in a header block: `n`, then `block[0 .. n-1]`. -/
def headOf (hb : Block) : List Nat :=
  (List.range (hb.word 0).toInt.toNat).map fun i => (hb.word (4 + 4 * i)).toNat

def readHead (start : Nat) : Dev (List Nat) := do
  let buf ← bread start
  return headOf buf

def putBlocks (hb : Block) : Nat → List Nat → Block
  | _, [] => hb
  | i, b :: bs => putBlocks (hb.setWord (4 + 4 * i) (BitVec.ofNat 32 b)) (i + 1) bs

/-- `hb->n = lh.n` and the block numbers; the rest of the block is kept. -/
def putHead (hb : Block) (lh : List Nat) : Block :=
  putBlocks (hb.setWord 0 (BitVec.ofNat 32 lh.length)) 0 lh

def writeHead (start : Nat) (lh : List Nat) : Dev Unit := do
  let buf ← bread start
  bwrite start (putHead buf lh)

def recoverFromLog (start : Nat) : Dev Unit := do
  let lh ← readHead start
  installTrans start lh
  writeHead start []

/-- Copy the cached blocks listed to the log blocks from `tail` on. -/
def writeLogFrom (start : Nat) : Nat → List Nat → Dev Unit
  | _, [] => pure ()
  | tail, b :: bs => do
    let _to ← bread (start + tail + 1)
    let frm ← bread b
    bwrite (start + tail + 1) frm
    writeLogFrom start (tail + 1) bs

/-- Copy modified blocks from cache to log. -/
def writeLog (start : Nat) (lh : List Nat) : Dev Unit := writeLogFrom start 0 lh

def commit (start : Nat) (lh : List Nat) : Dev Unit :=
  if lh.length > 0 then do
    writeLog start lh
    writeHead start lh
    installTrans start lh
    writeHead start []
  else pure ()

end Xv6
