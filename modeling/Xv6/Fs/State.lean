import Xv6.Log.Protocol

/-!
# The kernel state the file-system code works on

Disk blocks are seen as `bread` returns them (the buffer cache over the disk, see
`Xv6.Log.Disk`), so `blk` is the contents of every block.  Inodes on disk are
slots of 128 bytes in the inode blocks; `getDinode` and `putDinode` are the
accesses through `struct dinode *`, which never touch the padding of a slot.

`K` is kernel code: sections on this state, labelled with what they are to the
log and to the inode cache.
-/

namespace Xv6

open Bytes Conc

/-! ## Inodes and directory entries on disk -/

abbrev T_DIR : Short := 1
abbrev T_FILE : Short := 2
abbrev T_DEV : Short := 3

/-- `struct dinode` without its padding; also the copy of it in `struct inode`. -/
structure Dinode where
  type : Short
  major : Short
  minor : Short
  nlink : Short
  size : Word
  addrs : Fin (NDIRECT + 1) → Word
  mode : Word

/-- Field by field, so that it computes whatever the addresses are built from. -/
instance : DecidableEq Dinode := fun a b =>
  decidable_of_iff (a.type = b.type ∧ a.major = b.major ∧ a.minor = b.minor ∧ a.nlink = b.nlink ∧
    a.size = b.size ∧ (∀ k, a.addrs k = b.addrs k) ∧ a.mode = b.mode) (by
    cases a
    cases b
    simp [funext_iff])

namespace Dinode

def addr (d : Dinode) (k : Nat) : Word := if h : k < NDIRECT + 1 then d.addrs ⟨k, h⟩ else 0

def setAddr (d : Dinode) (k : Nat) (w : Word) : Dinode :=
  { d with addrs := fun j => if j.1 = k then w else d.addrs j }

/-- A slot after `memset(dip, 0, sizeof(*dip))`. -/
def zero : Dinode := ⟨0, 0, 0, 0, 0, fun _ => 0, 0⟩

def byte (d : Dinode) (o : Nat) : Byte :=
  if o < 2 then Blk.byteOf d.type o
  else if o < 4 then Blk.byteOf d.major (o - 2)
  else if o < 6 then Blk.byteOf d.minor (o - 4)
  else if o < 8 then Blk.byteOf d.nlink (o - 6)
  else if o < 12 then Blk.byteOf d.size (o - 8)
  else if o < 64 then Blk.byteOf (d.addr ((o - 12) / 4)) ((o - 12) % 4)
  else Blk.byteOf d.mode (o - 64)

end Dinode

def getDinode (b : Block) (k : Nat) : Dinode where
  type := b.short (DINODESZ * k)
  major := b.short (DINODESZ * k + 2)
  minor := b.short (DINODESZ * k + 4)
  nlink := b.short (DINODESZ * k + 6)
  size := b.word (DINODESZ * k + 8)
  addrs := fun j => b.word (DINODESZ * k + 12 + 4 * j.1)
  mode := b.word (DINODESZ * k + 64)

/-- Assign the fields of the dinode in slot `k`. -/
def putDinode (b : Block) (k : Nat) (d : Dinode) : Block :=
  .ofFn fun i => if DINODESZ * k ≤ i ∧ i < DINODESZ * k + 68 then d.byte (i - DINODESZ * k)
    else b.get i

/-- `memset(dip, 0, sizeof(*dip)); dip->type = type;` -/
def clearDinode (b : Block) (k : Nat) (type : Short) : Block :=
  putDinode (b.splice (DINODESZ * k) DINODESZ fun _ => 0) k { Dinode.zero with type := type }

/-- A name of at most `DIRSIZ` bytes, padded with zeros. -/
abbrev Name := Blk DIRSIZ

def strncmp (s t : Name) : Nat → Nat → Bool
  | _, 0 => true
  | i, n + 1 => if s.get i ≠ 0 ∧ s.get i = t.get i then strncmp s t (i + 1) n
    else s.get i = t.get i

def namecmp (s t : Name) : Bool := strncmp s t 0 DIRSIZ

structure Dirent where
  inum : Short
  name : Name

/-- The bytes of a directory entry. -/
def Dirent.bytes (de : Dirent) (i : Nat) : Byte :=
  if i < 2 then Blk.byteOf de.inum i else de.name.get (i - 2)

/-- A directory entry from 16 bytes read. -/
def Dirent.ofBytes (bs : List Byte) : Dirent where
  inum := bs.getD 1 0 ++ bs.getD 0 0
  name := .ofFn fun i => bs.getD (2 + i) 0

/-! ## Tables in memory -/

/-- Index of a process in `ptable`. -/
abbrev Pid := Fin NPROC

/-- Index of an entry of the inode cache. -/
abbrev Slot := Fin NINODE

/-- Index of an entry of the file table. -/
abbrev FileIdx := Fin NFILE

/-- `struct inode`: `lock` is the holder of its sleep lock, `d` the copy of the disk inode. -/
structure Inode where
  dev : Nat
  inum : Nat
  ref : Int
  lock : Option Pid
  valid : Bool
  d : Dinode

inductive FdType where
  | none
  | pipe
  | inode
deriving DecidableEq

/-- `struct file`; pointers that may be null are options. -/
structure File where
  type : FdType
  ref : Int
  readable : Bool
  writable : Bool
  pipe : Option Nat
  ip : Option Slot
  off : Nat
deriving DecidableEq

/-- `PIPESIZE` -/
abbrev PIPESIZE : Nat := 512

/-- `struct pipe`; `nread` and `nwrite` are `uint` counters. -/
structure Pipe where
  data : Blk PIPESIZE
  nread : Nat
  nwrite : Nat
  readopen : Bool
  writeopen : Bool

inductive ProcState where
  | unused
  | embryo
  | sleeping
  | runnable
  | running
  | zombie
deriving DecidableEq

/-- The part of `struct proc` that the file system uses. -/
structure Proc where
  state : ProcState
  parent : Option Pid
  killed : Bool
  ofile : Fin NOFILE → Option FileIdx
  cwd : Option Slot

/-- What the kernel prints. -/
inductive ConsoleMsg where
  /-- `Operation read failed` -/
  | readFailed
  /-- `Operation write failed` -/
  | writeFailed
  /-- `Operation open failed` -/
  | openFailed
  /-- `Operation execute failed` -/
  | executeFailed
  /-- `exec: fail` -/
  | execFail
  /-- bytes written to the console device -/
  | bytes (bs : List Byte)
deriving DecidableEq

structure Kernel where
  blk : Nat → Block
  log : Log
  icache : Slot → Inode
  ftable : FileIdx → File
  proc : Pid → Proc
  /-- pipes by the address `kalloc` returned for them -/
  pipes : Nat → Pipe
  /-- number of pages handed out for pipes so far: the next pipe's address -/
  npipes : Nat
  /-- how often the page of a pipe was freed -/
  pfrees : Nat → Nat
  /-- `kalloc` as seen from here: whether the `k`-th request for memory is served -/
  memory : Nat → Bool
  requests : Nat
  /-- what the `k`-th read of the console gets, `none` when the reader was killed -/
  typed : Nat → Option (List Byte)
  reads : Nat
  lastFailedFd : Int
  console : List ConsoleMsg

/-- What a section is to the log and to the inode cache. -/
inductive Sec where
  | beginOp
  | endOp
  /-- a section that may call `log_write`, and on no other block than `b` -/
  | logWrite (b : Nat)
  /-- `iput` finds out whether it drops the last reference to an inode without links -/
  | iputTest (i : Slot)
  /-- `bmap` looks at `addrs[k]` of an inode -/
  | bmapAddr (i : Slot) (k : Nat)
  /-- `bmap` looks at entry `k` of the indirect block `b` -/
  | bmapEntry (b k : Nat)
  /-- reads or changes the fields of an inode, or its sleep lock -/
  | inode (i : Slot)
  | other
deriving DecidableEq

abbrev K := Prog Sec Panic Kernel

namespace Kernel

variable (s : Kernel)

def setInode (i : Slot) (ip : Inode) : Kernel := { s with icache := Function.update s.icache i ip }

def setBlk (b : Nat) (x : Block) : Kernel := { s with blk := Function.update s.blk b x }

def setFile (f : FileIdx) (x : File) : Kernel := { s with ftable := Function.update s.ftable f x }

def setProc (p : Pid) (x : Proc) : Kernel := { s with proc := Function.update s.proc p x }

def logWrite (b : Nat) (x : Block) : Res Panic Unit Kernel :=
  (s.log.logWrite b).bind fun _ l => .ok () { s.setBlk b x with log := l }

/-- The state after a `log_write` that returns. -/
def logged (b : Nat) (x : Block) : Kernel := { s.setBlk b x with log := s.log.logAppend b }

variable {s}

@[simp] theorem icache_setInode {i : Slot} {a : Inode} : (s.setInode i a).icache i = a := by
  simp [setInode]

theorem icache_setInode_ne {i j : Slot} (a : Inode) (h : j ≠ i) :
    (s.setInode i a).icache j = s.icache j := Function.update_of_ne h _ _

theorem setInode_self {i : Slot} {ip : Inode} (h : s.icache i = ip) : s.setInode i ip = s := by
  unfold setInode
  rw [← h, Function.update_eq_self]

theorem setInode_setInode {i : Slot} {a b : Inode} :
    (s.setInode i a).setInode i b = s.setInode i b := by
  simp [setInode]

theorem blk_logged_self (b : Nat) (x : Block) : (s.logged b x).blk b = x := Function.update_self ..

theorem blk_logged_ne {b c : Nat} (x : Block) (h : c ≠ b) : (s.logged b x).blk c = s.blk c :=
  Function.update_of_ne h _ _

end Kernel

end Xv6
