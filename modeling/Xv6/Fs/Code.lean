import Xv6.Fs.State

/-!
# `fs.c`

The code in the order of the source.  `sb` is the superblock read at boot and
`me` the running process.  A buffer is locked from `bread` to `brelse`, so a
stretch of code that reads, changes and logs one buffer is one section; the sleep
lock of an inode is taken and released by sections of its own.

Loops run over the list of their indices, or on a bound for the number of rounds
that the round's own progress never exceeds.
-/

namespace Xv6.Fs

open Bytes Conc

variable (sb : Superblock) (me : Pid)

/-- Stop the kernel. -/
def panic {α : Type} (e : Panic) : K α := .throw .other e

/-! ## Blocks -/

def bread (b : Nat) : K Block := .atomic .other fun s => .ok (s.blk b) s

/-- Zero a block. -/
def bzero (bno : Nat) : K Unit := .atomic (.logWrite bno) fun s => s.logWrite bno .zero

def mask (bi : Nat) : Byte := 1 <<< (bi % 8)

def bitOf (b : Block) (bi : Nat) : Bool := (b.get (bi / 8) &&& mask bi) != 0

def setBit (b : Block) (bi : Nat) : Block :=
  b.splice (bi / 8) 1 fun _ => b.get (bi / 8) ||| mask bi

def clearBit (b : Block) (bi : Nat) : Block :=
  b.splice (bi / 8) 1 fun _ => b.get (bi / 8) &&& ~~~ mask bi

/-- One round of `balloc`: mark the first free block of those from `b` on. -/
def ballocRound (b : Nat) : K (Option Nat) := .atomic (.logWrite (sb.bblock b)) fun s =>
  let bp := s.blk (sb.bblock b)
  match (List.range (min BPB (sb.size - b))).find? fun bi => !bitOf bp bi with
  | some bi => (s.logWrite (sb.bblock b) (setBit bp bi)).bind fun _ s => .ok (some bi) s
  | none => .ok none s

def ballocFrom : List Nat → K Nat
  | [] => panic .ballocOutOfBlocks
  | b :: bs => do
    match ← ballocRound sb b with
    | some bi =>
      bzero (b + bi)
      return b + bi
    | none => ballocFrom bs

/-- Allocate a zeroed disk block. -/
def balloc : K Nat := ballocFrom sb ((List.range ((sb.size + BPB - 1) / BPB)).map (· * BPB))

/-- Free a disk block. -/
def bfree (b : Nat) : K Unit := .atomic (.logWrite (sb.bblock b)) fun s =>
  let bp := s.blk (sb.bblock b)
  if bitOf bp (b % BPB) = false then .panic .freeingFreeBlock
  else s.logWrite (sb.bblock b) (clearBit bp (b % BPB))

/-! ## Inodes -/

/-- Read the fields of an inode. -/
def inode (i : Slot) : K Inode := .atomic (.inode i) fun s => .ok (s.icache i) s

/-- Change the fields of an inode. -/
def setInode (i : Slot) (f : Inode → Inode) : K Unit :=
  .atomic (.inode i) fun s => .ok () (s.setInode i (f (s.icache i)))

/-- Change the copy of the disk inode. -/
def setDinode (i : Slot) (f : Dinode → Dinode) : K Unit := setInode i fun ip => { ip with d := f ip.d }

/-- Find the inode with number `inum` on device `dev` and return the in-memory copy. -/
def iget (dev inum : Nat) : K Slot := .atomic .other fun s =>
  match (List.finRange NINODE).find? fun i =>
    (s.icache i).ref > 0 && (s.icache i).dev == dev && (s.icache i).inum == inum with
  | some i => .ok i (s.setInode i { s.icache i with ref := (s.icache i).ref + 1 })
  | none =>
    match (List.finRange NINODE).find? fun i => (s.icache i).ref == 0 with
    | some i =>
      .ok i (s.setInode i { s.icache i with dev := dev, inum := inum, ref := 1, valid := false })
    | none => .panic .igetNoInodes

def iallocRound (type : Short) (inum : Nat) : K Bool := .atomic (.logWrite (sb.iblock inum)) fun s =>
  let bp := s.blk (sb.iblock inum)
  if (getDinode bp (inum % IPB)).type = 0 then
    (s.logWrite (sb.iblock inum) (clearDinode bp (inum % IPB) type)).bind fun _ s => .ok true s
  else .ok false s

def iallocFrom (dev : Nat) (type : Short) : List Nat → K Slot
  | [] => panic .iallocNoInodes
  | inum :: inums => do
    if ← iallocRound sb type inum then iget dev inum
    else iallocFrom dev type inums

/-- Allocate an inode on device `dev`, marked as allocated by giving it type `type`. -/
def ialloc (dev : Nat) (type : Short) : K Slot :=
  iallocFrom sb dev type (List.range' 1 (sb.ninodes - 1))

/-- Copy a modified in-memory inode to disk. -/
def iupdate (i : Slot) : K Unit := do
  let ip ← inode i
  .atomic (.logWrite (sb.iblock ip.inum)) fun s =>
    s.logWrite (sb.iblock ip.inum) (putDinode (s.blk (sb.iblock ip.inum)) (ip.inum % IPB) ip.d)

/-- Increment reference count for ip. -/
def idup (i : Slot) : K Slot := .atomic .other fun s =>
  .ok i (s.setInode i { s.icache i with ref := (s.icache i).ref + 1 })

/-- `acquiresleep(&ip->lock)` -/
def acquiresleep (i : Slot) : K Unit := .atomic (.inode i) fun s =>
  match (s.icache i).lock with
  | some _ => .sleep
  | none => .ok () (s.setInode i { s.icache i with lock := some me })

/-- `releasesleep(&ip->lock)` -/
def releasesleep (i : Slot) : K Unit := setInode i fun ip => { ip with lock := none }

/-- Lock the given inode.  Reads the inode from disk if necessary. -/
def ilock (i : Slot) : K Unit := do
  let ip ← inode i
  if ip.ref < 1 then panic .ilock
  acquiresleep me i
  let ip ← inode i
  if ip.valid = false then
    let bp ← bread (sb.iblock ip.inum)
    let d := getDinode bp (ip.inum % IPB)
    setInode i fun ip => { ip with d := d, valid := true }
    if d.type = 0 then panic .ilockNoType

/-- `ilock` of a pointer that may be null; the inode it points to. -/
def ilockPtr : Option Slot → K Slot
  | none => panic .ilock
  | some i => do
    ilock sb me i
    return i

/-- Unlock the given inode. -/
def iunlock (i : Slot) : K Unit := do
  let ip ← inode i
  if ip.lock ≠ some me ∨ ip.ref < 1 then panic .iunlock
  releasesleep i

/-! ## Inode content -/

def bmapAddr (i : Slot) (k : Nat) : K Word := .atomic (.bmapAddr i k) fun s =>
  .ok ((s.icache i).d.addr k) s

def bmapEntry (b k : Nat) : K Word := .atomic (.bmapEntry b k) fun s =>
  .ok ((s.blk b).word (4 * k)) s

/-- `ip->addrs[k]`, allocated if it is `0`. -/
def bmapDirect (i : Slot) (k : Nat) : K Nat := do
  let addr ← bmapAddr i k
  if addr = 0 then
    let r ← balloc sb
    setDinode i fun d => d.setAddr k (BitVec.ofNat 32 r)
    return r
  else return addr.toNat

/-- Return the disk block address of the nth block in inode ip.  If there is no such block,
`bmap` allocates one. -/
def bmap (i : Slot) (bn : Nat) : K Nat :=
  if bn < NDIRECT then bmapDirect sb i bn
  else if bn - NDIRECT < NINDIRECT then do
    -- load indirect block, allocating if necessary
    let ind ← bmapDirect sb i NDIRECT
    let addr ← bmapEntry ind (bn - NDIRECT)
    if addr = 0 then
      let r ← balloc sb
      .atomic (.logWrite ind) fun s =>
        s.logWrite ind ((s.blk ind).setWord (4 * (bn - NDIRECT)) (BitVec.ofNat 32 r))
      return r
    else return addr.toNat
  else panic .bmapOutOfRange

/-- Truncate inode (discard contents). -/
def itrunc (i : Slot) : K Unit := do
  (List.range NDIRECT).forM fun k => do
    let ip ← inode i
    if ip.d.addr k ≠ 0 then
      bfree sb (ip.d.addr k).toNat
      setDinode i fun d => d.setAddr k 0
  let ip ← inode i
  if ip.d.addr NDIRECT ≠ 0 then
    let bp ← bread (ip.d.addr NDIRECT).toNat
    (List.range NINDIRECT).forM fun j => do
      if bp.word (4 * j) ≠ 0 then bfree sb (bp.word (4 * j)).toNat
    bfree sb (ip.d.addr NDIRECT).toNat
    setDinode i fun d => d.setAddr NDIRECT 0
  setDinode i fun d => { d with size := 0 }
  iupdate sb i

/-- `ip->valid && ip->nlink == 0`, and this is the last reference. -/
def iputTest (i : Slot) : K Bool := .atomic (.iputTest i) fun s =>
  .ok ((s.icache i).valid && (s.icache i).d.nlink == 0 && (s.icache i).ref == 1) s

/-- `ip->ref--` -/
def irelse (i : Slot) : K Unit := .atomic .other fun s =>
  .ok () (s.setInode i { s.icache i with ref := (s.icache i).ref - 1 })

/-- Drop a reference to an in-memory inode.  If that was the last reference and the inode has no
links to it, free the inode (and its content) on disk. -/
def iput (i : Slot) : K Unit := do
  acquiresleep me i
  if ← iputTest i then
    itrunc sb i
    setDinode i fun d => { d with type := 0 }
    iupdate sb i
    setInode i fun ip => { ip with valid := false }
  releasesleep i
  irelse i

/-- Common idiom: unlock, then put. -/
def iunlockput (i : Slot) : K Unit := do
  iunlock me i
  iput sb me i

structure Stat where
  dev : Nat
  ino : Nat
  type : Short
  nlink : Short
  size : Word

/-- Copy stat information from inode. -/
def stati (i : Slot) : K Stat := do
  let ip ← inode i
  return ⟨ip.dev, ip.inum, ip.d.type, ip.d.nlink, ip.d.size⟩

/-- A `uint` passed as an `int`. -/
def toInt (n : Nat) : Int := (BitVec.ofNat 32 n).toInt

/-- `devsw[CONSOLE].read`: the console gives up the inode while it waits for input, and waits only
if at least one byte is asked for. -/
def consoleread (i : Slot) (n : Int) : K (Option (List Byte)) := do
  iunlock me i
  let r ← .atomic .other fun s =>
    if n > 0 then .ok ((s.typed s.reads).map (·.take n.toNat)) { s with reads := s.reads + 1 }
    else .ok (some []) s
  ilock sb me i
  return r

/-- `devsw[CONSOLE].write` -/
def consolewrite (i : Slot) (src : Nat → Byte) (n : Int) : K Int := do
  iunlock me i
  .atomic .other fun s =>
    .ok () { s with console := s.console ++ [.bytes ((List.range n.toNat).map src)] }
  ilock sb me i
  return n

/-- The loop of `readi`: `rounds` bounds the rounds left, each of which copies a byte at least. -/
def readiFrom (i : Slot) (n : Nat) : Nat → Nat → Nat → K (List Byte)
  | 0, _, _ => pure []
  | rounds + 1, tot, off =>
    if tot < n then do
      let b ← bmap sb i (off / BSIZE)
      let bp ← bread b
      let m := min (n - tot) (BSIZE - off % BSIZE)
      let rest ← readiFrom i n rounds (tot + m) (off + m)
      return (List.range m).map (fun k => bp.get (off % BSIZE + k)) ++ rest
    else pure []

/-- Read data from inode: the bytes copied to `dst`, or `none` for `-1`. -/
def readi (i : Slot) (off n : Nat) : K (Option (List Byte)) := do
  let ip ← inode i
  if ip.d.type = T_DEV then
    if ip.d.major.toNat = CONSOLE then consoleread sb me i (toInt n)
    else return none
  else if off > ip.d.size.toNat ∨ (off + n) % 2 ^ 32 < off then return none
  else
    let n := if off + n > ip.d.size.toNat then ip.d.size.toNat - off else n
    let bs ← readiFrom sb i n n 0 off
    return some bs

/-- The loop of `writei`. -/
def writeiFrom (i : Slot) (src : Nat → Byte) (n : Nat) : Nat → Nat → Nat → K Unit
  | 0, _, _ => pure ()
  | rounds + 1, tot, off =>
    if tot < n then do
      let b ← bmap sb i (off / BSIZE)
      let m := min (n - tot) (BSIZE - off % BSIZE)
      .atomic (.logWrite b) fun s =>
        s.logWrite b ((s.blk b).splice (off % BSIZE) m fun k => src (tot + k))
      writeiFrom i src n rounds (tot + m) (off + m)
    else pure ()

/-- Write data to inode. -/
def writei (i : Slot) (src : Nat → Byte) (off n : Nat) : K Int := do
  let ip ← inode i
  if ip.d.type = T_DEV then
    if ip.d.major.toNat = CONSOLE then consolewrite sb me i src (toInt n)
    else return -1
  else if off > ip.d.size.toNat ∨ (off + n) % 2 ^ 32 < off then return -1
  else if off + n > MAXFILE * BSIZE then return -1
  else
    writeiFrom sb i src n n 0 off
    let ip ← inode i
    if n > 0 ∧ off + n > ip.d.size.toNat then
      setDinode i fun d => { d with size := BitVec.ofNat 32 (off + n) }
      iupdate sb i
    return n

/-! ## Directories -/

def readDirent (dp : Slot) (off : Nat) (e : Panic) : K Dirent := do
  match ← readi sb me dp off DIRENTSZ with
  | some bs => if bs.length = DIRENTSZ then return Dirent.ofBytes bs else panic e
  | none => panic e

/-- The loop of `dirlookup`, entry `off / 16` on, with `rounds` entries left. -/
def dirlookupFrom (dp : Slot) (dev : Nat) (name : Name) : Nat → Nat → K (Option (Slot × Nat))
  | 0, _ => pure none
  | rounds + 1, off => do
    let de ← readDirent sb me dp off .dirlookupRead
    if de.inum ≠ 0 ∧ namecmp name de.name = true then
      let ip ← iget dev de.inum.toNat
      return some (ip, off)
    else dirlookupFrom dp dev name rounds (off + DIRENTSZ)

/-- Entries in a directory of `size` bytes, a partial one at the end included. -/
def nents (size : Word) : Nat := (size.toNat + DIRENTSZ - 1) / DIRENTSZ

/-- Look for a directory entry in a directory: its inode and the byte offset of the entry. -/
def dirlookup (dp : Slot) (name : Name) : K (Option (Slot × Nat)) := do
  let ip ← inode dp
  if ip.d.type ≠ T_DIR then panic .dirlookupNotDir
  dirlookupFrom sb me dp ip.dev name (nents ip.d.size) 0

/-- The byte offset of the first free entry, or of the end. -/
def dirfreeFrom (dp : Slot) : Nat → Nat → K Nat
  | 0, off => pure off
  | rounds + 1, off => do
    let de ← readDirent sb me dp off .dirlinkRead
    if de.inum = 0 then return off
    else dirfreeFrom dp rounds (off + DIRENTSZ)

def strncpyByte (name : Name) : Nat → Byte
  | 0 => name.get 0
  | i + 1 => if strncpyByte name i = 0 then 0 else name.get (i + 1)

def strncpy (name : Name) : Name := .ofFn (strncpyByte name)

/-- Write a new directory entry (name, inum) into the directory dp. -/
def dirlink (dp : Slot) (name : Name) (inum : Nat) : K Int := do
  match ← dirlookup sb me dp name with
  | some (ip, _) =>
    iput sb me ip
    return -1
  | none =>
    let ip ← inode dp
    let off ← dirfreeFrom sb me dp (nents ip.d.size) 0
    let de : Dirent := ⟨BitVec.ofNat 16 inum, strncpy name⟩
    if (← writei sb me dp de.bytes off DIRENTSZ) ≠ DIRENTSZ then panic .dirlink
    return 0

/-! ## Paths -/

/-- The bytes of a path, up to its terminating zero. -/
abbrev Path := List Byte

/-- `'/'` -/
abbrev slash : Byte := 47

/-- The first `DIRSIZ` bytes of an element. -/
def nameOf (s : List Byte) : Name := .ofFn fun i => s.getD i 0

/-- Copy the next path element from path into name; the element and the rest of the path. -/
def skipelem (path : Path) : Option (Name × Path) :=
  match path.dropWhile (· == slash) with
  | [] => none
  | p => some (nameOf (p.takeWhile (· != slash)),
      (p.dropWhile (· != slash)).dropWhile (· == slash))

theorem skipelem_length {path rest : Path} {name : Name} (h : skipelem path = some (name, rest)) :
    rest.length < path.length := by
  unfold skipelem at h
  have hp := (path.dropWhile_sublist (· == slash)).length_le
  cases hq : path.dropWhile (· == slash) with
  | nil =>
    rw [hq] at h
    exact absurd h (by simp)
  | cons c cs =>
    -- `dropWhile` stops at a byte that is no slash, which the element then takes
    have hc : (c != slash) = true := by
      have := List.head?_dropWhile_not (· == slash) path
      rw [hq] at this
      simpa using this
    rw [hq] at h hp
    have hrest : (cs.dropWhile (· != slash)).dropWhile (· == slash) = rest := by
      have h2 := congrArg Prod.snd (Option.some.inj h)
      rwa [List.dropWhile_cons_of_pos (p := fun x => x != slash) hc] at h2
    calc rest.length
        ≤ (cs.dropWhile (· != slash)).length := by
          rw [← hrest]
          exact (List.dropWhile_sublist _).length_le
      _ ≤ cs.length := (List.dropWhile_sublist _).length_le
      _ < (c :: cs).length := Nat.lt_succ_self _
      _ ≤ path.length := hp

/-- `myproc()->cwd` -/
def cwd : K Slot := .atomic .other fun s =>
  match (s.proc me).cwd with
  | some i => .ok i s
  | none => .panic .trap

/-- The loop of `namex`; an element is at least one byte, so `path.length` rounds are enough. -/
def namexFrom (parent : Bool) : Nat → Slot → Path → K (Option (Slot × Name))
  | 0, ip, _ => namexEnd ip
  | rounds + 1, ip, path =>
    match skipelem path with
    | none => namexEnd ip
    | some (name, path) => do
      ilock sb me ip
      let d := (← inode ip).d
      if d.type ≠ T_DIR then
        iunlockput sb me ip
        return none
      else if parent = true ∧ path = [] then
        -- stop one level early
        iunlock me ip
        return some (ip, name)
      else
        match ← dirlookup sb me ip name with
        | none =>
          iunlockput sb me ip
          return none
        | some (next, _) =>
          iunlockput sb me ip
          namexFrom parent rounds next path
where
  /-- No element is left. -/
  namexEnd (ip : Slot) : K (Option (Slot × Name)) :=
    if parent then do
      iput sb me ip
      return none
    else return some (ip, .zero)

/-- Look up and return the inode for a path name. -/
def namex (path : Path) (parent : Bool) : K (Option (Slot × Name)) := do
  let ip ← if path.head? = some slash then iget ROOTDEV ROOTINO else do idup (← cwd me)
  namexFrom sb me parent path.length ip path

def namei (path : Path) : K (Option Slot) := do
  return (← namex sb me path false).map (·.1)

def nameiparent (path : Path) : K (Option (Slot × Name)) := namex sb me path true

end Xv6.Fs
