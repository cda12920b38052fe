import Xv6.Fs.Proc
import Xv6.Lib.Runs

/-!
# The system, one call after another

An event is a process and the call it makes; the call runs to its end before the
next one starts.  A call that would have to wait for another process, and any call
of a process that does not exist, cannot happen (`sleep`).

`userinit` is the start: the machine comes up with empty tables and the first
process sits in the root directory.
-/

namespace Xv6.Fs

open Bytes Conc

/-- The system calls that use the file system, with their arguments as fetched. -/
inductive Call where
  | open (path : Option Path) (omode : Option Word)
  | close (fd : Option Int)
  | dup (fd : Option Int)
  | pipe (fd : Bool)
  | fork
  | exit
  | wait
  | exec (path : Option Path) (argv : Bool)
  | chdir (path : Option Path)
  | chmod (path : Option Path) (mode : Option Word)
  | mkdir (path : Option Path)
  | mknod (path : Option Path) (major minor : Option Word)
  | link (old new : Option Path)
  | unlink (path : Option Path)
  | read (fd : Option Int) (buf : Option Nat)
  | write (fd : Option Int) (buf : Option (Nat × (Nat → Byte)))
  | fstat (fd : Option Int) (st : Bool)

variable (sb : Superblock)

/-- The code of a call; what it returns goes to the user. -/
def Call.code (me : Pid) : Call → K Unit
  | .open path omode => do let _ ← sysOpen sb me path omode
  | .close fd => do let _ ← sysClose sb me fd
  | .dup fd => do let _ ← sysDup me fd
  | .pipe fd => do let _ ← sysPipe sb me fd
  | .fork => do let _ ← Fs.fork me
  | .exit => Fs.exit sb me
  | .wait => do let _ ← Fs.wait me
  | .exec path argv => do let _ ← sysExec sb me path argv
  | .chdir path => do let _ ← sysChdir sb me path
  | .chmod path mode => do let _ ← sysChmod sb me path mode
  | .mkdir path => do let _ ← sysMkdir sb me path
  | .mknod path major minor => do let _ ← sysMknod sb me path major minor
  | .link old new => do let _ ← sysLink sb me old new
  | .unlink path => do let _ ← sysUnlink sb me path
  | .read fd buf => do let _ ← sysRead sb me fd buf
  | .write fd buf => do let _ ← sysWrite sb me fd buf
  | .fstat fd st => do let _ ← sysFstat sb me fd st

/-- A process that can make calls. -/
def Live (x : Proc) : Prop := x.state ≠ .unused ∧ x.state ≠ .embryo ∧ x.state ≠ .zombie

instance (x : Proc) : Decidable (Live x) := by
  unfold Live
  infer_instance

def sysStep (s : Kernel) (e : Pid × Call) : Res Panic Unit Kernel :=
  if Live (s.proc e.1) then (e.2.code sb e.1).run s else .sleep

/-! ## Boot -/

/-- Memory as the boot loader leaves it, with disk `blk`. -/
def poweron (blk : Nat → Block) (memory : Nat → Bool) (typed : Nat → Option (List Byte)) :
    Kernel where
  blk := blk
  log := Log.init sb.nlog
  icache := fun _ => ⟨0, 0, 0, none, false, Dinode.zero⟩
  ftable := fun _ => ⟨.none, 0, false, false, none, none, 0⟩
  proc := fun _ => ⟨.unused, none, false, fun _ => none, none⟩
  pipes := fun _ => ⟨.zero, 0, 0, false, false⟩
  npipes := 0
  pfrees := fun _ => 0
  memory := memory
  requests := 0
  typed := typed
  reads := 0
  lastFailedFd := -1
  console := []

/-- The first process: `p->cwd = namei("/")` and `p->state = RUNNABLE`. -/
def userinit : K Unit := do
  let ip ← namei sb initproc [slash]
  setProc initproc fun x => { x with cwd := ip, state := .runnable }

/-- The state in which the first process starts. -/
def boot (blk : Nat → Block) (memory : Nat → Bool) (typed : Nat → Option (List Byte)) :
    Res Panic Unit Kernel :=
  (userinit sb).run (poweron sb blk memory typed)

end Xv6.Fs
