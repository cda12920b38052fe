import Xv6.Fs.Content

/-!
# `mkfs.c`

The program that writes the first image: it fills the image with zeros, writes the
superblock, makes the root directory, appends an entry and the bytes of a file for each of its
arguments, rounds up the size of the root directory and writes the bitmap.

`xshort` and `xint` put numbers into the byte order of the disk, which is the one that
`Blk.short` and `Blk.word` read.  The unused bytes at the end of `struct dinode` are neither read
nor written: in the inode area they stay zero.
-/

namespace Xv6.Mkfs

open Bytes Conc Fs

structure Image where
  sect : Nat → Block
  /-- number of sectors in the file -/
  len : Nat
  freeinode : Nat
  freeblock : Nat

/-- Why `mkfs` stops. -/
inductive Exit where
  /-- `perror("read")` -/
  | read
  /-- `assert(rootino == ROOTINO)` -/
  | rootino
  /-- `assert(index(argv[i], '/') == 0)` -/
  | slash
  /-- `assert(fbn < MAXFILE)` -/
  | maxfile
  /-- `assert(used < BSIZE*8)` -/
  | used
deriving DecidableEq

abbrev Mk := Prog Unit Exit Image

/-- An argument: its name, and its bytes as `read(fd, buf, sizeof(buf))` returns them. -/
structure HostFile where
  name : List Byte
  chunks : List (List Byte)
  chunk_le : ∀ c ∈ chunks, 0 < c.length ∧ c.length ≤ BSIZE

def HostFile.bytes (f : HostFile) : List Byte := f.chunks.flatten

abbrev sb : Superblock := mkfsSb

/-- Number of meta blocks (boot, sb, nlog, inode, bitmap). -/
def nmeta : Nat := 2 + LOGSIZE + (200 / IPB + 1) + (FSSIZE / (BSIZE * 8) + 1)

/-- `sb` in a block of zeros -/
def superBlock : Block :=
  let b := Blk.zero.setWord 0 (BitVec.ofNat 32 sb.size)
  let b := b.setWord 4 (BitVec.ofNat 32 (FSSIZE - nmeta))
  let b := b.setWord 8 (BitVec.ofNat 32 sb.ninodes)
  let b := b.setWord 12 (BitVec.ofNat 32 sb.nlog)
  let b := b.setWord 16 (BitVec.ofNat 32 sb.logstart)
  let b := b.setWord 20 (BitVec.ofNat 32 sb.inodestart)
  b.setWord 24 (BitVec.ofNat 32 sb.bmapstart)

def throw {α : Type} (e : Exit) : Mk α := Prog.throw () e

def wsect (sec : Nat) (buf : Block) : Mk Unit := .atomic () fun s =>
  .ok () { s with sect := Function.update s.sect sec buf, len := max s.len (sec + 1) }

def rsect (sec : Nat) : Mk Block := .atomic () fun s =>
  if sec < s.len then .ok (s.sect sec) s else .panic .read

def winode (inum : Nat) (d : Dinode) : Mk Unit := do
  let bn := sb.iblock inum
  let buf ← rsect bn
  wsect bn (putDinode buf (inum % IPB) d)

def rinode (inum : Nat) : Mk Dinode := do
  let buf ← rsect (sb.iblock inum)
  return getDinode buf (inum % IPB)

/-- `freeinode++` -/
def nextInode : Mk Nat := .atomic () fun s => .ok s.freeinode { s with freeinode := s.freeinode + 1 }

/-- `freeblock++` -/
def nextBlock : Mk Nat := .atomic () fun s => .ok s.freeblock { s with freeblock := s.freeblock + 1 }

def ialloc (type : Short) : Mk Nat := do
  let inum ← nextInode
  winode inum { Dinode.zero with type := type, nlink := 1, size := 0, mode := 7 }
  return inum

/-- The bitmap with the first `used` bits set. -/
def bitmap (used : Nat) : Block := (List.range used).foldl setBit .zero

def balloc (used : Nat) : Mk Unit := do
  if BSIZE * 8 ≤ used then throw .used
  wsect sb.bmapstart (bitmap used)

def addrOf (din : Dinode) (k : Nat) : Mk (Nat × Dinode) :=
  if din.addr k = 0 then do
    let r ← nextBlock
    return (r, din.setAddr k (BitVec.ofNat 32 r))
  else pure ((din.addr k).toNat, din)

/-- Block `fbn` of the file, a new one if there is none. -/
def blockOf (din : Dinode) (fbn : Nat) : Mk (Nat × Dinode) :=
  if fbn < NDIRECT then addrOf din fbn
  else do
    let (ind, din) ← addrOf din NDIRECT
    let indirect ← rsect ind
    if indirect.word (4 * (fbn - NDIRECT)) = 0 then
      let r ← nextBlock
      wsect ind (indirect.setWord (4 * (fbn - NDIRECT)) (BitVec.ofNat 32 r))
      return (r, din)
    else return ((indirect.word (4 * (fbn - NDIRECT))).toNat, din)

/-- The loop of `iappend`: the bytes `p` go to the file from `off` on. -/
def iappendFrom : Nat → Dinode → Nat → List Byte → Mk (Dinode × Nat)
  | 0, din, off, _ => pure (din, off)
  | rounds + 1, din, off, p =>
    if p = [] then pure (din, off)
    else do
      let fbn := off / BSIZE
      if MAXFILE ≤ fbn then throw .maxfile
      let (x, din) ← blockOf din fbn
      let n1 := min p.length ((fbn + 1) * BSIZE - off)
      let buf ← rsect x
      wsect x (buf.splice (off - fbn * BSIZE) n1 fun k => p.getD k 0)
      iappendFrom rounds din (off + n1) (p.drop n1)

def iappend (inum : Nat) (p : List Byte) : Mk Unit := do
  let din ← rinode inum
  let (din, off) ← iappendFrom p.length din din.size.toNat p
  winode inum { din with size := BitVec.ofNat 32 off }

/-- A directory entry; the name is cut off and padded by `strncpy`. -/
def dirent (inum : Nat) (name : List Byte) : List Byte :=
  (List.range DIRENTSZ).map (Dirent.bytes ⟨BitVec.ofNat 16 inum, .ofFn fun i => name.getD i 0⟩)

/-- Skip leading `_` in name when writing to file system. -/
def skipUnderscore : List Byte → List Byte
  | 0x5f :: name => name
  | name => name

/-- One argument. -/
def addFile (rootino : Nat) (f : HostFile) : Mk Unit := do
  if 0x2f ∈ f.name then throw .slash
  let inum ← ialloc T_FILE
  let din ← rinode inum
  winode inum { din with mode := 7 }
  iappend rootino (dirent inum (skipUnderscore f.name))
  f.chunks.forM fun c => iappend inum c

/-- `main` up to the superblock.  It is irreducible, or tactics that look at a goal would run the loop. -/
@[irreducible] def prepare : Mk Unit := do
  (List.range FSSIZE).forM fun i => wsect i .zero
  wsect 1 superBlock

/-- `main` from the root directory on, all but the bitmap. -/
def inodesAndData (files : List HostFile) : Mk Unit := do
  let rootino ← ialloc T_DIR
  if rootino ≠ ROOTINO then throw .rootino
  iappend rootino (dirent rootino [0x2e])
  iappend rootino (dirent rootino [0x2e, 0x2e])
  files.forM (addFile rootino)
  -- fix size of root inode dir
  let din ← rinode rootino
  winode rootino { din with size := BitVec.ofNat 32 ((din.size.toNat / BSIZE + 1) * BSIZE) }

/-- `main` -/
def mkfs (files : List HostFile) : Mk Unit := do
  prepare
  inodesAndData files
  let used ← .atomic () fun s => .ok s.freeblock s
  balloc used

/-- The empty image file that `mkfs` starts with. -/
def Image.empty (g : Nat → Block) : Image := ⟨g, 0, 1, nmeta⟩

end Xv6.Mkfs
