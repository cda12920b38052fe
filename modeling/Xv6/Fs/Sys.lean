import Xv6.Fs.File

/-!
# `sysfile.c`

An argument that the kernel fetches from user memory is an option, `none` when
fetching it fails (`argint`, `argptr`, `argstr` below `0`).  A buffer argument is
its length, or its length and bytes.  `sys_exec` is with `exec` in `Xv6.Fs.Proc`.
-/

namespace Xv6.Fs

open Bytes Conc

variable (sb : Superblock) (me : Pid)

abbrev O_RDONLY : Word := 0x000
abbrev O_WRONLY : Word := 0x001
abbrev O_RDWR : Word := 0x002
abbrev O_CREATE : Word := 0x200

/-- `"."` -/
def dot : Name := nameOf [46]

/-- `".."` -/
def dotdot : Name := nameOf [46, 46]

def print (m : ConsoleMsg) : K Unit := .atomic .other fun s =>
  .ok () { s with console := s.console ++ [m] }

/-- Change a process. -/
def setProc (p : Pid) (g : Proc → Proc) : K Unit := .atomic .other fun s =>
  .ok () (s.setProc p (g (s.proc p)))

/-! ## Descriptors -/

/-- Fetch a system call argument as a file descriptor: the descriptor and its `struct file`. -/
def argfd (fd : Option Int) : K (Option (Fin NOFILE × FileIdx)) := .atomic .other fun s =>
  .ok (do
    let fd ← fd
    if h : 0 ≤ fd ∧ fd.toNat < NOFILE then
      let f ← (s.proc me).ofile ⟨fd.toNat, h.2⟩
      some (⟨fd.toNat, h.2⟩, f)
    else none) s

def setOfile (fd : Fin NOFILE) (f : Option FileIdx) : K Unit := .atomic .other fun s =>
  .ok () (s.setProc me { s.proc me with ofile := Function.update (s.proc me).ofile fd f })

/-- Allocate a file descriptor for the given file. -/
def fdalloc (f : FileIdx) : K (Option (Fin NOFILE)) := .atomic .other fun s =>
  match (List.finRange NOFILE).find? fun fd => (s.proc me).ofile fd == none with
  | some fd => .ok (some fd)
      (s.setProc me { s.proc me with ofile := Function.update (s.proc me).ofile fd (some f) })
  | none => .ok none s

def sysDup (fd : Option Int) : K Int := do
  match ← argfd me fd with
  | none => return -1
  | some (_, f) =>
    match ← fdalloc me f with
    | none => return -1
    | some fd =>
      filedup f
      return fd.1

/-- `buf` is the length of the buffer. -/
def sysRead (fd : Option Int) (buf : Option Nat) : K (Option (List Byte)) := do
  match ← argfd me fd, buf with
  | some (_, f), some n =>
    -- the permission check looks at `f->ip` whatever the type of the file is
    let i ← ilockPtr sb me (← file f).ip
    let ip ← inode i
    if ip.d.mode &&& 4 = 0 then
      iunlock me i
      print .readFailed
      return none
    else
      iunlock me i
      fileread sb me f n
  | _, _ => return none

def setLastFailed (v : Int) : K Unit := .atomic .other fun s => .ok () { s with lastFailedFd := v }

/-- Print once for each file. -/
def writeDenied (inum : Nat) : K Unit := do
  let last ← .atomic .other fun s => .ok s.lastFailedFd s
  if last ≠ inum then
    print .writeFailed
    setLastFailed inum

def sysWrite (fd : Option Int) (buf : Option (Nat × (Nat → Byte))) : K Int := do
  match ← argfd me fd, buf with
  | some (_, f), some (n, src) =>
    let i ← ilockPtr sb me (← file f).ip
    let ip ← inode i
    if ip.d.mode &&& 2 = 0 then
      iunlock me i
      writeDenied ip.inum
      return -1
    else
      iunlock me i
      setLastFailed (-1)
      filewrite sb me f src n
  | _, _ => return -1

def sysClose (fd : Option Int) : K Int := do
  match ← argfd me fd with
  | none => return -1
  | some (fd, f) =>
    setOfile me fd none
    fileclose sb me f
    return 0

/-- `st` says whether the address for the result is valid. -/
def sysFstat (fd : Option Int) (st : Bool) : K (Option Stat) := do
  match ← argfd me fd, st with
  | some (_, f), true => filestat sb me f
  | _, _ => return none

/-! ## Links -/

/-- The end of `sys_link` when the new name cannot be made. -/
def linkBad (ip : Slot) : K Int := do
  ilock sb me ip
  setDinode ip fun d => { d with nlink := d.nlink - 1 }
  iupdate sb ip
  iunlockput sb me ip
  endOp
  return -1

def sysLink (old new : Option Path) : K Int := do
  match old, new with
  | some old, some new =>
    beginOp
    match ← namei sb me old with
    | none =>
      endOp
      return -1
    | some ip =>
      ilock sb me ip
      if (← inode ip).d.type = T_DIR then
        iunlockput sb me ip
        endOp
        return -1
      else
        setDinode ip fun d => { d with nlink := d.nlink + 1 }
        iupdate sb ip
        iunlock me ip
        match ← nameiparent sb me new with
        | none => linkBad sb me ip
        | some (dp, name) =>
          ilock sb me dp
          let inum := (← inode ip).inum
          if (← inode dp).dev ≠ (← inode ip).dev then
            iunlockput sb me dp
            linkBad sb me ip
          else if (← dirlink sb me dp name inum) < 0 then
            iunlockput sb me dp
            linkBad sb me ip
          else
            iunlockput sb me dp
            iput sb me ip
            endOp
            return 0
  | _, _ => return -1

def isdiremptyFrom (dp : Slot) : Nat → Nat → K Bool
  | 0, _ => pure true
  | rounds + 1, off => do
    let de ← readDirent sb me dp off .isdirempty
    if de.inum ≠ 0 then return false
    else isdiremptyFrom dp rounds (off + DIRENTSZ)

/-- Is the directory dp empty except for "." and ".." ? -/
def isdirempty (dp : Slot) : K Bool := do
  isdiremptyFrom sb me dp (nents (← inode dp).d.size - 2) (2 * DIRENTSZ)

/-- The end of `sys_unlink` when nothing is removed. -/
def unlinkBad (dp : Slot) : K Int := do
  iunlockput sb me dp
  endOp
  return -1

def unlinkEntry (dp ip : Slot) (off : Nat) : K Int := do
  if (← writei sb me dp (fun _ => 0) off DIRENTSZ) ≠ DIRENTSZ then panic .unlinkWritei
  if (← inode ip).d.type = T_DIR then
    setDinode dp fun d => { d with nlink := d.nlink - 1 }
    iupdate sb dp
  iunlockput sb me dp
  setDinode ip fun d => { d with nlink := d.nlink - 1 }
  iupdate sb ip
  iunlockput sb me ip
  endOp
  return 0

def sysUnlink (path : Option Path) : K Int := do
  match path with
  | none => return -1
  | some path =>
    beginOp
    match ← nameiparent sb me path with
    | none =>
      endOp
      return -1
    | some (dp, name) =>
      ilock sb me dp
      -- cannot unlink "." or ".."
      if namecmp name dot = true ∨ namecmp name dotdot = true then unlinkBad sb me dp
      else match ← dirlookup sb me dp name with
        | none => unlinkBad sb me dp
        | some (ip, off) =>
          ilock sb me ip
          let d := (← inode ip).d
          if d.nlink.toInt < 1 then panic .unlinkNlink
          else if d.type = T_DIR then
            if ← isdirempty sb me ip then unlinkEntry sb me dp ip off
            else
              iunlockput sb me ip
              unlinkBad sb me dp
          else unlinkEntry sb me dp ip off

/-! ## Creating files -/

/-- `create` from where `name` is known to be missing in the locked directory `dp`. -/
def createNew (dp : Slot) (name : Name) (type major minor : Short) : K Slot := do
  let ip ← ialloc sb (← inode dp).dev type
  ilock sb me ip
  setDinode ip fun d => { d with major := major, minor := minor, nlink := 1, mode := 7 }
  iupdate sb ip
  if type = T_DIR then
    -- no `ip->nlink++` for ".": avoid cyclic ref count
    setDinode dp fun d => { d with nlink := d.nlink + 1 }
    iupdate sb dp
    if (← dirlink sb me ip dot (← inode ip).inum) < 0 then panic .createDots
    if (← dirlink sb me ip dotdot (← inode dp).inum) < 0 then panic .createDots
  if (← dirlink sb me dp name (← inode ip).inum) < 0 then panic .createDirlink
  iunlockput sb me dp
  return ip

/-- The inode for `path`, locked. -/
def create (path : Path) (type major minor : Short) : K (Option Slot) := do
  match ← nameiparent sb me path with
  | none => return none
  | some (dp, name) =>
    ilock sb me dp
    match ← dirlookup sb me dp name with
    | some (ip, _) =>
      iunlockput sb me dp
      ilock sb me ip
      if type = T_FILE ∧ (← inode ip).d.type = T_FILE then return some ip
      else
        iunlockput sb me ip
        return none
    | none => return some (← createNew sb me dp name type major minor)

/-- `sys_open` without `O_CREATE`: the locked inode, if the mode allows it. -/
def openExisting (path : Path) (omode : Word) : K (Option Slot) := do
  match ← namei sb me path with
  | none =>
    endOp
    return none
  | some ip =>
    ilock sb me ip
    let d := (← inode ip).d
    -- `O_RDONLY` is `0`, so the first test never fails an open
    if omode &&& O_RDONLY ≠ 0 ∧ d.mode &&& 4 = 0 then
      iunlockput sb me ip
      endOp
      print .openFailed
      return none
    else if omode &&& O_WRONLY ≠ 0 ∧ d.mode &&& 2 = 0 then
      iunlockput sb me ip
      endOp
      print .openFailed
      return none
    else if d.type = T_DIR ∧ omode ≠ O_RDONLY then
      iunlockput sb me ip
      endOp
      return none
    else return some ip

/-- `sys_open` with O_CREATE: the locked inode. -/
def openCreate (path : Path) : K (Option Slot) := do
  match ← create sb me path T_FILE 0 0 with
  | none =>
    endOp
    return none
  | some ip => return some ip

/-- `sys_open` from where the inode is locked. -/
def openFile (ip : Slot) (omode : Word) : K Int := do
  match ← filealloc with
  | none =>
    iunlockput sb me ip
    endOp
    return -1
  | some f =>
    match ← fdalloc me f with
    | none =>
      fileclose sb me f
      iunlockput sb me ip
      endOp
      return -1
    | some fd =>
      iunlock me ip
      endOp
      setFile f fun ff => { ff with
        type := .inode, ip := some ip, off := 0,
        readable := omode &&& O_WRONLY == 0,
        writable := omode &&& O_WRONLY != 0 || omode &&& O_RDWR != 0 }
      return fd.1

def sysOpen (path : Option Path) (omode : Option Word) : K Int := do
  match path, omode with
  | some path, some omode =>
    beginOp
    match ← if omode &&& O_CREATE ≠ 0 then openCreate sb me path
      else openExisting sb me path omode with
    | none => return -1
    | some ip => openFile sb me ip omode
  | _, _ => return -1

/-- What `sys_mkdir` and `sys_mknod` do with the inode they created. -/
def createDone : Option Slot → K Int
  | none => do
    endOp
    return -1
  | some ip => do
    iunlockput sb me ip
    endOp
    return 0

def sysMkdir (path : Option Path) : K Int := do
  beginOp
  match path with
  | none => createDone sb me none
  | some path => createDone sb me (← create sb me path T_DIR 0 0)

/-- `major` and `minor` are `int` arguments that `create` takes as `short`. -/
def sysMknod (path : Option Path) (major minor : Option Word) : K Int := do
  beginOp
  match path, major, minor with
  | some path, some major, some minor =>
    createDone sb me (← create sb me path T_DEV (major.setWidth 16) (minor.setWidth 16))
  | _, _, _ => createDone sb me none

def sysChdir (path : Option Path) : K Int := do
  beginOp
  match path with
  | none =>
    endOp
    return -1
  | some path =>
    match ← namei sb me path with
    | none =>
      endOp
      return -1
    | some ip =>
      ilock sb me ip
      if (← inode ip).d.type ≠ T_DIR then
        iunlockput sb me ip
        endOp
        return -1
      else
        iunlock me ip
        iput sb me (← cwd me)
        endOp
        setProc me fun x => { x with cwd := some ip }
        return 0

/-- `fd` says whether the address for the two descriptors is valid. -/
def sysPipe (fd : Bool) : K (Option (Fin NOFILE × Fin NOFILE)) := do
  if fd = false then return none
  else match ← pipealloc sb me with
    | none => return none
    | some (rf, wf) =>
      match ← fdalloc me rf with
      | none =>
        fileclose sb me rf
        fileclose sb me wf
        return none
      | some fd0 =>
        match ← fdalloc me wf with
        | none =>
          setOfile me fd0 none
          fileclose sb me rf
          fileclose sb me wf
          return none
        | some fd1 => return some (fd0, fd1)

/-- System call to implement chmod: the walk is made before `begin_op`, and there is no `iput`. -/
def sysChmod (path : Option Path) (mode : Option Word) : K Int := do
  match path, mode with
  | some path, some mode =>
    match ← namei sb me path with
    | none => return -1
    | some ip =>
      beginOp
      ilock sb me ip
      setDinode ip fun d => { d with mode := mode }
      iupdate sb ip
      iunlock me ip
      endOp
      return 0
  | _, _ => return -1

end Xv6.Fs
