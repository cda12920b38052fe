import Xv6.Trap.Calls

/-!
# The dispatcher

`syscall` of `syscall.c` and the two calls that change `blocked_syscalls`.  The array is a
global that no other code names: the other calls run on the rest of the kernel, `kern`.
-/

namespace Xv6.Trap

open Bytes Conc

abbrev MAX_SYSCALLS : Nat := 26

/-- The system calls, in the order of their numbers. -/
inductive Sysno where
  | fork
  | exit
  | wait
  | pipe
  | read
  | kill
  | exec
  | fstat
  | chdir
  | dup
  | getpid
  | sbrk
  | sleep
  | uptime
  | open
  | write
  | mknod
  | unlink
  | link
  | mkdir
  | close
  | gethistory
  | block
  | unblock
  | chmod
deriving DecidableEq

namespace Sysno

/-- The entries of `syscalls[]` from 1 on. -/
def all : List Sysno :=
  [.fork, .exit, .wait, .pipe, .read, .kill, .exec, .fstat, .chdir, .dup, .getpid, .sbrk, .sleep,
    .uptime, .open, .write, .mknod, .unlink, .link, .mkdir, .close, .gethistory, .block, .unblock,
    .chmod]

/-- `SYS_fork` and so on -/
def num : Sysno → Fin MAX_SYSCALLS
  | .fork => 1
  | .exit => 2
  | .wait => 3
  | .pipe => 4
  | .read => 5
  | .kill => 6
  | .exec => 7
  | .fstat => 8
  | .chdir => 9
  | .dup => 10
  | .getpid => 11
  | .sbrk => 12
  | .sleep => 13
  | .uptime => 14
  | .open => 15
  | .write => 16
  | .mknod => 17
  | .unlink => 18
  | .link => 19
  | .mkdir => 20
  | .close => 21
  | .gethistory => 22
  | .block => 23
  | .unblock => 24
  | .chmod => 25

/-- The call with number `n`. -/
def ofNum (n : Nat) : Option Sysno := all.find? fun c => c.num.1 = n

theorem ofNum_eq_some {n : Nat} {c : Sysno} : ofNum n = some c ↔ n = c.num.1 := by
  constructor
  · intro h
    have hnum := List.find?_some h
    simp only [decide_eq_true_eq] at hnum
    exact hnum.symm
  · rintro rfl
    cases c <;> rfl

end Sysno

def sysid (w : Word) : Option (Fin MAX_SYSCALLS) :=
  if h : 0 ≤ w.toInt ∧ w.toInt.toNat < MAX_SYSCALLS then some ⟨w.toInt.toNat, h.2⟩ else none

/-- Prevent blocking critical system calls. -/
def critical (n : Fin MAX_SYSCALLS) : Prop :=
  n = Sysno.fork.num ∨ n = Sysno.exit.num ∨ n = Sysno.unblock.num

instance (n : Fin MAX_SYSCALLS) : Decidable (critical n) := inferInstanceAs (Decidable (_ ∨ _))

/-- What the dispatcher prints. -/
inductive SysMsg where
  /-- `syscall %d is blocked` -/
  | blocked (num : Word)
  /-- `%d %s: unknown sys call %d` -/
  | unknown (pid : Word) (name : Blk CMD_NAME_MAX) (num : Word)

structure Sys where
  kern : Kern
  /-- `blocked_syscalls` -/
  blocked : Fin MAX_SYSCALLS → Bool
  /-- the output of `cprintf` in `syscall` -/
  printed : List SysMsg

/-- Kernel code that may use `blocked_syscalls`. -/
abbrev S := Prog Touch Panic Sys

/-- Code that does not use it. -/
def rest {α : Type} (p : U α) : S α := p.zoom Sys.kern fun s k => { s with kern := k }

variable (sb : Superblock) (me : Pid)

def setBlocked (n : Fin MAX_SYSCALLS) (v : Bool) : S Unit := .atomic .kernel fun s =>
  .ok () { s with blocked := Function.update s.blocked n v }

def print (m : SysMsg) : S Unit := .atomic .kernel fun s =>
  .ok () { s with printed := s.printed ++ [m] }

def sysBlock : S Word := do
  match ← rest (argint me 0) with
  | none => return -1
  | some w =>
    match sysid w with
    | none => return -1
    | some n =>
      if critical n then return -1
      else
        setBlocked n true
        return 0

def sysUnblock : S Word := do
  match ← rest (argint me 0) with
  | none => return -1
  | some w =>
    match sysid w with
    | none => return -1
    | some n =>
      setBlocked n false
      return 0

def Sysno.restCode : Sysno → U (Option Word)
  | .fork => some <$> sysFork me
  | .exit => sysExit sb me
  | .wait => some <$> sysWait me
  | .pipe => some <$> sysPipe sb me
  | .read => some <$> sysRead sb me
  | .kill => some <$> sysKill me
  | .exec => some <$> sysExec sb me
  | .fstat => some <$> sysFstat sb me
  | .chdir => some <$> sysChdir sb me
  | .dup => some <$> sysDup me
  | .getpid => some <$> sysGetpid me
  | .sbrk => some <$> sysSbrk me
  | .sleep => some <$> sysSleep me
  | .uptime => some <$> sysUptime
  | .open => some <$> sysOpen sb me
  | .write => some <$> sysWrite sb me
  | .mknod => some <$> sysMknod sb me
  | .unlink => some <$> sysUnlink sb me
  | .link => some <$> sysLink sb me
  | .mkdir => some <$> sysMkdir sb me
  | .close => some <$> sysClose sb me
  | .gethistory => some <$> sysGethistory me
  | .chmod => some <$> sysChmod sb me
  | .block => pure none
  | .unblock => pure none

/-- `syscalls[num]()` -/
def Sysno.code : Sysno → S (Option Word)
  | .block => some <$> sysBlock me
  | .unblock => some <$> sysUnblock me
  | c => rest (c.restCode sb me)

/-- `curproc->tf->eax = r` -/
def setEax (r : Word) : S Unit := rest (setTask me fun t => { t with eax := r })

/-- Run a call and store what it returns. -/
def dispatch (c : Sysno) : S Unit := do
  match ← c.code sb me with
  | none => pure ()
  | some r => setEax me r

/-- The call that `tf->eax` asks for; it is an `int`, and a negative one is no call. -/
def Task.call (t : Task) : Option Sysno :=
  if 0 < t.eax.toInt then Sysno.ofNum t.eax.toInt.toNat else none

def syscall : S Unit := do
  let t ← rest (task me)
  match t.call with
  | some c =>
    if (← .atomic .kernel fun s => .ok (s.blocked c.num) s) = true ∧ c ≠ .exec then
      print (.blocked t.eax)
      setEax me (-1)
    else dispatch sb me c
  | none =>
    print (.unknown t.pid t.name t.eax)
    setEax me (-1)

/-! ## One trap after another -/

/-- A process makes a system call, with its registers and memory as its own code left them. -/
structure TrapEvent where
  me : Pid
  eax : Word
  esp : Word
  mem : Word → Byte

def Sys.enter (s : Sys) (t : TrapEvent) : Sys :=
  let x := { s.kern.task t.me with eax := t.eax, esp := t.esp, mem := t.mem }
  { s with kern := s.kern.setTask t.me x }

/-- A call runs to its end before the next one starts. -/
def trapStep (s : Sys) (t : TrapEvent) : Res Panic Unit Sys :=
  if Fs.Live (s.kern.fs.proc t.me) then (syscall sb t.me).run (s.enter t) else .sleep

end Xv6.Trap
