import Xv6.Fs.Sys

/-!
# `exec.c` and the process calls of `proc.c`

`exec` is followed through every read of the program's file and every check of
its headers, since each failure has to give back the inode.  What it does to
memory is a request that `kalloc` serves or not.
-/

namespace Xv6.Fs

open Bytes Conc

variable (sb : Superblock) (me : Pid)

/-! ## `exec` -/

abbrev ELF_MAGIC : Word := 0x464C457F
abbrev ELF_PROG_LOAD : Word := 1
abbrev PGSIZE : Nat := 4096
abbrev KERNBASE : Nat := 0x80000000

/-- `sizeof(struct elfhdr)` -/
abbrev ELFHDRSZ : Nat := 52

/-- `sizeof(struct proghdr)` -/
abbrev PROGHDRSZ : Nat := 32

def wordAt (bs : List Byte) (o : Nat) : Word :=
  bs.getD (o + 3) 0 ++ bs.getD (o + 2) 0 ++ bs.getD (o + 1) 0 ++ bs.getD o 0

def shortAt (bs : List Byte) (o : Nat) : Short := bs.getD (o + 1) 0 ++ bs.getD o 0

/-- `allocuvm`: the new size, `0` on error. -/
def allocuvm (oldsz newsz : Nat) : K Nat := do
  if newsz ≥ KERNBASE then return 0
  else if newsz < oldsz then return oldsz
  else if ← kalloc then return newsz
  else return 0

/-- The loop of `loaduvm` from byte `i` of the segment on. -/
def loaduvmFrom (ip : Slot) (offset sz : Nat) : Nat → Nat → K Bool
  | 0, _ => pure true
  | rounds + 1, i =>
    if i < sz then do
      let n := min (sz - i) PGSIZE
      match ← readi sb me ip ((offset + i) % 2 ^ 32) n with
      | some bs => if bs.length = n then loaduvmFrom ip offset sz rounds (i + PGSIZE) else return false
      | none => return false
    else pure true

/-- `loaduvm`; the pages were allocated just before, so they exist. -/
def loaduvm (ip : Slot) (offset sz : Nat) : K Bool := loaduvmFrom sb me ip offset sz sz 0

/-- One segment, with header `ph`: the new size, or `none` for `goto bad`. -/
def loadSegment (ip : Slot) (ph : List Byte) (sz : Nat) : K (Option Nat) := do
  let off := wordAt ph 4
  let vaddr := wordAt ph 8
  let filesz := wordAt ph 16
  let memsz := wordAt ph 20
  if wordAt ph 0 ≠ ELF_PROG_LOAD then return some sz
  else if memsz.toNat < filesz.toNat then return none
  else if (vaddr + memsz).toNat < vaddr.toNat then return none
  else
    let sz ← allocuvm sz (vaddr + memsz).toNat
    if sz = 0 then return none
    else if vaddr.toNat % PGSIZE ≠ 0 then return none
    else if ← loaduvm sb me ip off.toNat filesz.toNat then return some sz
    else return none

/-- The loop over the program headers, with `n` of them left. -/
def loadSegments (ip : Slot) : Nat → Nat → Nat → K (Option Nat)
  | 0, _, sz => pure (some sz)
  | n + 1, off, sz => do
    match ← readi sb me ip (off % 2 ^ 32) PROGHDRSZ with
    | none => return none
    | some ph =>
      if ph.length ≠ PROGHDRSZ then return none
      else match ← loadSegment sb me ip ph sz with
        | none => return none
        | some sz => loadSegments ip n (off + PROGHDRSZ) sz

/-- Read the program of the locked inode into memory: its size, or `none` for `goto bad`. -/
def loadProgram (ip : Slot) : K (Option Nat) := do
  match ← readi sb me ip 0 ELFHDRSZ with
  | none => return none
  | some elf =>
    if elf.length ≠ ELFHDRSZ then return none
    else if wordAt elf 0 ≠ ELF_MAGIC then return none
    else if ← kalloc then
      loadSegments sb me ip (shortAt elf 44).toNat (wordAt elf 28).toNat 0
    else return none

def exec (path : Path) : K Int := do
  beginOp
  match ← namei sb me path with
  | none =>
    endOp
    print .execFail
    return -1
  | some ip =>
    ilock sb me ip
    let r ← loadProgram sb me ip
    iunlockput sb me ip
    endOp
    match r with
    | none => return -1
    -- what is left, the stack and the arguments, is in memory only
    | some _ => if ← kalloc then return 0 else return -1

/-- `argv` says whether all arguments could be fetched. -/
def sysExec (path : Option Path) (argv : Bool) : K Int := do
  match path, argv with
  | some path, true =>
    beginOp
    match ← namei sb me path with
    | none =>
      endOp
      return -1
    | some ip =>
      ilock sb me ip
      if (← inode ip).d.mode &&& 1 = 0 then
        iunlockput sb me ip
        endOp
        print .executeFailed
        return -1
      else
        -- the inode is unlocked, not put
        iunlock me ip
        endOp
        exec sb me path
  | _, _ => return -1

/-! ## Processes -/

/-- The first process, which `userinit` allocates in an empty table. -/
abbrev initproc : Pid := 0

/-- Look in the process table for an UNUSED proc, and give it a kernel stack. -/
def allocproc : K (Option Pid) := do
  match ← .atomic .other fun s =>
    match (List.finRange NPROC).find? fun p => (s.proc p).state = .unused with
    | some p => .ok (some p) (s.setProc p { s.proc p with state := .embryo })
    | none => .ok none s with
  | none => return none
  | some p =>
    if ← kalloc then return some p
    else
      setProc p fun x => { x with state := .unused }
      return none

/-- `np->ofile[i] = filedup(curproc->ofile[i])` for one open descriptor. -/
def forkFile (np : Pid) (fd : Fin NOFILE) : K Unit := do
  match ← .atomic .other fun s => .ok ((s.proc me).ofile fd) s with
  | none => pure ()
  | some f =>
    filedup f
    setProc np fun x => { x with ofile := Function.update x.ofile fd (some f) }

/-- Create a new process copying the running one. -/
def fork : K (Option Pid) := do
  match ← allocproc with
  | none => return none
  | some np =>
    if ← kalloc then
      setProc np fun x => { x with parent := some me }
      (List.finRange NOFILE).forM fun fd => forkFile me np fd
      let i ← idup (← cwd me)
      setProc np fun x => { x with cwd := some i }
      setProc np fun x => { x with state := .runnable }
      return some np
    else
      setProc np fun x => { x with state := .unused }
      return none

/-- Close one descriptor of an exiting process. -/
def exitFile (fd : Fin NOFILE) : K Unit := do
  match ← .atomic .other fun s => .ok ((s.proc me).ofile fd) s with
  | none => pure ()
  | some f =>
    fileclose sb me f
    setOfile me fd none

/-- Process `p` after `me` has exited: its children pass to init, and it is a zombie. -/
def afterExit (p : Pid) (x : Proc) : Proc :=
  let x := if x.parent = some me then { x with parent := some initproc } else x
  if p = me then { x with state := .zombie } else x

/-- The last part of `exit`, under the lock of the process table. -/
def zombie : K Unit := .atomic .other fun s =>
  .ok () { s with proc := fun p => afterExit me p (s.proc p) }

/-- Exit the current process. -/
def exit : K Unit := do
  if me = initproc then panic .initExiting
  (List.finRange NOFILE).forM fun fd => exitFile sb me fd
  beginOp
  iput sb me (← cwd me)
  endOp
  setProc me fun x => { x with cwd := none }
  zombie me

/-- Wait for a child process to exit; `none` if there is none. -/
def wait : K (Option Pid) := .atomic .other fun s =>
  match (List.finRange NPROC).find? fun p =>
    (s.proc p).parent = some me && (s.proc p).state = .zombie with
  | some p => .ok (some p) (s.setProc p
      { s.proc p with parent := none, killed := false, state := .unused })
  | none =>
    if (∀ p, (s.proc p).parent ≠ some me) ∨ (s.proc me).killed = true then .ok none s else .sleep

end Xv6.Fs
