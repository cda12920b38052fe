import Xv6.Lib.Bytes

/-!
# Constants of `param.h` and `fs.h`, the superblock, and the panics

The disk is laid out as

    [ boot | superblock | log | inode blocks | free bit map | data blocks ]

`Superblock` holds the fields of `struct superblock`; `Superblock.WF` says that
they describe such a layout, and `mkfsSb` is the one `mkfs.c` writes.
-/

namespace Xv6

open Bytes

abbrev NPROC : Nat := 64
abbrev NOFILE : Nat := 16
abbrev NFILE : Nat := 100
abbrev NINODE : Nat := 50
/-- major number of the console, the only device registered in `devsw` -/
abbrev CONSOLE : Nat := 1
abbrev ROOTDEV : Nat := 1
abbrev MAXOPBLOCKS : Nat := 10
abbrev LOGSIZE : Nat := MAXOPBLOCKS * 3
abbrev FSSIZE : Nat := 1000

instance : NeZero NPROC := ⟨by decide⟩
instance : NeZero NOFILE := ⟨by decide⟩
instance : NeZero NFILE := ⟨by decide⟩
instance : NeZero NINODE := ⟨by decide⟩

abbrev ROOTINO : Nat := 1
abbrev BSIZE : Nat := 512
abbrev NDIRECT : Nat := 12
/-- `BSIZE / sizeof(uint)` -/
abbrev NINDIRECT : Nat := BSIZE / 4
abbrev MAXFILE : Nat := NDIRECT + NINDIRECT
/-- `sizeof(struct dinode)` -/
abbrev DINODESZ : Nat := 128
abbrev IPB : Nat := BSIZE / DINODESZ
abbrev BPB : Nat := BSIZE * 8
abbrev DIRSIZ : Nat := 14
/-- `sizeof(struct dirent)` -/
abbrev DIRENTSZ : Nat := 16

abbrev Block := Blk BSIZE

structure Superblock where
  /-- size of the file system image (blocks) -/
  size : Nat
  ninodes : Nat
  nlog : Nat
  logstart : Nat
  inodestart : Nat
  bmapstart : Nat
deriving DecidableEq

namespace Superblock

variable (sb : Superblock)

/-- Block containing inode `i`. -/
def iblock (i : Nat) : Nat := i / IPB + sb.inodestart

/-- Block of the free map containing the bit of block `b`. -/
def bblock (b : Nat) : Nat := b / BPB + sb.bmapstart

/-- Number of bitmap blocks. -/
def nbitmap : Nat := sb.size / BPB + 1

/-- First data block: what `mkfs.c` calls `nmeta`. -/
def datastart : Nat := sb.bmapstart + sb.nbitmap

/-- The areas follow one another, inside an image whose block numbers fit an `int`. -/
structure WF : Prop where
  log_pos : 2 ≤ sb.logstart
  log_inode : sb.logstart + sb.nlog ≤ sb.inodestart
  inode_bmap : sb.inodestart + (sb.ninodes / IPB + 1) ≤ sb.bmapstart
  data_le : sb.datastart ≤ sb.size
  size_lt : sb.size < 2 ^ 31
  /-- directory entries hold inode numbers in an `ushort` -/
  ninodes_le : sb.ninodes ≤ 2 ^ 16

end Superblock

/-- The superblock `mkfs.c` writes: `nlog = LOGSIZE` and `NINODES = 200`. -/
def mkfsSb : Superblock where
  size := FSSIZE
  ninodes := 200
  nlog := LOGSIZE
  logstart := 2
  inodestart := 2 + LOGSIZE
  bmapstart := 2 + LOGSIZE + (200 / IPB + 1)

/-- The calls of `panic` in the modelled code. -/
inductive Panic where
  /-- `too big a transaction` -/
  | tooBigTransaction
  /-- `log_write outside of trans` -/
  | logWriteOutside
  /-- `log.committing` -/
  | logCommitting
  /-- `balloc: out of blocks` -/
  | ballocOutOfBlocks
  /-- `freeing free block` -/
  | freeingFreeBlock
  /-- `ialloc: no inodes` -/
  | iallocNoInodes
  /-- `iget: no inodes` -/
  | igetNoInodes
  /-- `ilock` -/
  | ilock
  /-- `ilock: no type` -/
  | ilockNoType
  /-- `iunlock` -/
  | iunlock
  /-- `bmap: out of range` -/
  | bmapOutOfRange
  /-- `dirlookup not DIR` -/
  | dirlookupNotDir
  /-- `dirlookup read` -/
  | dirlookupRead
  /-- `dirlink read` -/
  | dirlinkRead
  /-- `dirlink` -/
  | dirlink
  /-- `isdirempty: readi` -/
  | isdirempty
  /-- `unlink: nlink < 1` -/
  | unlinkNlink
  /-- `unlink: writei` -/
  | unlinkWritei
  /-- `create dots` -/
  | createDots
  /-- `create: dirlink` -/
  | createDirlink
  /-- `filedup` -/
  | filedup
  /-- `fileclose` -/
  | fileclose
  /-- `fileread` -/
  | fileread
  /-- `filewrite` -/
  | filewrite
  /-- `short filewrite` -/
  | shortFilewrite
  /-- `init exiting` -/
  | initExiting
  /-- `trap`: a null pointer is used in the kernel -/
  | trap
deriving DecidableEq

theorem mkfsSb_wf : mkfsSb.WF := by
  constructor <;> decide

end Xv6
