import Xv6.Vm.Exec
import Xv6.Lib.Footprint
import Xv6.Lib.Runs
import Xv6.Fs.State

/-!
# The operations that take and give back pages

`fork`, `exec`, `sbrk`, `exit`, `wait`, `pipe` and `close` on the state they share: physical memory,
the process table and the file table, as far as pages depend on them.  Of the files only pipes
are here; a file of another type owns no page.

`memStep` is one operation by one process, from its start to its end.
-/

namespace Xv6.Vm

open Bytes Conc

/-! ## State -/

/-- `struct proc`, the part that follows pages. -/
structure Proc where
  state : ProcState
  pid : Word
  parent : Option Pid
  kstack : Option Nat
  pgdir : Option Nat
  sz : Nat
  ofile : Fin NOFILE → Option FileIdx

/-- `struct file`: `pipe` is `none` unless the type is FD_PIPE. -/
structure File where
  ref : Nat
  pipe : Option Nat
  writable : Bool

/-- `readopen` and `writeopen` of a pipe. -/
structure Ends where
  readopen : Bool
  writeopen : Bool

/-- One end is closed. -/
def Ends.close (e : Ends) (writable : Bool) : Ends :=
  if writable then { e with writeopen := false } else { e with readopen := false }

structure Mach where
  phys : Phys
  proc : Pid → Proc
  nextpid : Word
  initproc : Pid
  ftable : FileIdx → File
  /-- pipes by the page that holds them -/
  ends : Nat → Ends
  kpgdir : Nat
  /-- stacks of the other CPUs, on which they run the scheduler -/
  cpus : List Nat

abbrev M := Prog Unit Panic Mach

/-- Code on physical memory. -/
def phys {α : Type} (p : V α) : M α := p.zoom Mach.phys fun m s => { m with phys := s }

/-- A change of the other fields. -/
def update {α : Type} (f : Mach → α × Mach) : M α := .atomic () fun m => .ok (f m).1 (f m).2

def mach : M Mach := update fun m => (m, m)

def Mach.setProc (m : Mach) (p : Pid) (x : Proc) : Mach :=
  { m with proc := Function.update m.proc p x }

def Mach.setFile (m : Mach) (f : FileIdx) (x : File) : Mach :=
  { m with ftable := Function.update m.ftable f x }

def Mach.setEnds (m : Mach) (p : Nat) (e : Ends) : Mach :=
  { m with ends := Function.update m.ends p e }

def setProc (p : Pid) (g : Proc → Proc) : M Unit := update fun m => ((), m.setProc p (g (m.proc p)))

def setFile (f : FileIdx) (g : File → File) : M Unit :=
  update fun m => ((), m.setFile f (g (m.ftable f)))

/-! ## Files and pipes -/

/-- Allocate a file structure. -/
def filealloc : M (Option FileIdx) := update fun m =>
  match (List.finRange NFILE).find? fun f => (m.ftable f).ref = 0 with
  | none => (none, m)
  | some f => (some f, m.setFile f { m.ftable f with ref := 1 })

/-- Increment ref count for file f. -/
def filedup (f : FileIdx) : M Unit := do
  let ff := (← mach).ftable f
  if ff.ref < 1 then .throw () .filedup else setFile f fun ff => { ff with ref := ff.ref + 1 }

variable (im : KernelImage)

def pipeclose (p : Nat) (writable : Bool) : M Unit := do
  update fun m => ((), m.setEnds p ((m.ends p).close writable))
  let e := (← mach).ends p
  if !e.readopen && !e.writeopen then phys (kfree im p) else pure ()

/-- Close file f.  (Decrement ref count, close when reaches 0.) -/
def fileclose (f : FileIdx) : M Unit := do
  let ff := (← mach).ftable f
  if ff.ref < 1 then .throw () .fileclose
  else if ff.ref - 1 > 0 then setFile f fun ff => { ff with ref := ff.ref - 1 }
  else
    setFile f fun ff => { ff with ref := 0, pipe := none }
    match ff.pipe with
    | none => pure ()
    | some p => pipeclose im p ff.writable

/-- Two files for the ends of a new pipe. -/
def pipealloc : M (Option (FileIdx × FileIdx)) := do
  match ← filealloc with
  | none => return none
  | some f0 =>
    match ← filealloc with
    | none =>
      fileclose im f0
      return none
    | some f1 =>
      match ← phys kalloc with
      | none =>
        fileclose im f0
        fileclose im f1
        return none
      | some p =>
        update fun m => ((), m.setEnds p ⟨true, true⟩)
        setFile f0 fun ff => { ff with pipe := some p, writable := false }
        setFile f1 fun ff => { ff with pipe := some p, writable := true }
        return some (f0, f1)

variable (me : Pid)

/-- Allocate a file descriptor for the given file. -/
def fdalloc (f : FileIdx) : M (Option (Fin NOFILE)) := update fun m =>
  match (List.finRange NOFILE).find? fun fd => (m.proc me).ofile fd = none with
  | none => (none, m)
  | some fd => (some fd, m.setProc me { m.proc me with
      ofile := Function.update (m.proc me).ofile fd (some f) })

def clearFd (fd : Fin NOFILE) : M Unit :=
  setProc me fun p => { p with ofile := Function.update p.ofile fd none }

def sysPipe : M Int := do
  match ← pipealloc im with
  | none => return -1
  | some (rf, wf) =>
    match ← fdalloc me rf with
    | none =>
      fileclose im rf
      fileclose im wf
      return -1
    | some fd0 =>
      match ← fdalloc me wf with
      | none =>
        clearFd me fd0
        fileclose im rf
        fileclose im wf
        return -1
      | some _ => return 0

def sysClose (fd : Fin NOFILE) : M Int := do
  match ((← mach).proc me).ofile fd with
  | none => return -1
  | some f =>
    clearFd me fd
    fileclose im f
    return 0

/-! ## Processes -/

/-- The first UNUSED slot becomes EMBRYO and gets a kernel stack. -/
def allocproc : M (Option Pid) := do
  let m ← mach
  match (List.finRange NPROC).find? fun p => (m.proc p).state = .unused with
  | none => return none
  | some p =>
    update fun m => ((), { m.setProc p { m.proc p with state := .embryo, pid := m.nextpid } with
      nextpid := m.nextpid + 1 })
    match ← phys kalloc with
    | none =>
      setProc p fun x => { x with kstack := none, state := .unused }
      return none
    | some k =>
      setProc p fun x => { x with kstack := some k }
      return some p

/-- `kfree(p->kstack); p->kstack = 0` -/
def freeStack (p : Pid) : M Unit := do
  match ((← mach).proc p).kstack with
  | none => .throw () .kfree
  | some k =>
    phys (kfree im k)
    setProc p fun x => { x with kstack := none }

/-- The loop of `fork` over the open files. -/
def dupFiles (np : Pid) : List (Fin NOFILE) → M Unit
  | [] => pure ()
  | fd :: fds => do
    match ((← mach).proc me).ofile fd with
    | none => dupFiles np fds
    | some f =>
      filedup f
      setProc np fun x => { x with ofile := Function.update x.ofile fd (some f) }
      dupFiles np fds

def pgdirOf (p : Pid) : M Nat := do
  match ((← mach).proc p).pgdir with
  | none => .throw () .trap
  | some d => return d

/-- Create a new process copying me as the parent. -/
def fork : M Int := do
  match ← allocproc with
  | none => return -1
  | some np =>
    let pgdir ← pgdirOf me
    let sz := ((← mach).proc me).sz
    match ← phys (copyuvm im pgdir sz) with
    | none =>
      setProc np fun x => { x with pgdir := none }
      freeStack im np
      setProc np fun x => { x with state := .unused }
      return -1
    | some d =>
      setProc np fun x => { x with pgdir := some d, sz := sz, parent := some me }
      dupFiles me np (List.finRange NOFILE)
      setProc np fun x => { x with state := .runnable }
      return ((← mach).proc np).pid.toInt

/-- `exec`, called by a process whose memory holds the argument strings. -/
def exec (prog : Program) (argv : List (List Byte)) : M Int := do
  match ← phys (execImage im prog argv) with
  | none => return -1
  | some (pgdir, sz, _) =>
    let oldpgdir ← pgdirOf me
    setProc me fun x => { x with pgdir := some pgdir, sz := sz }
    phys (freevm im oldpgdir)
    return 0

/-- Fetching an argument string that does not end below the size of the process fails. -/
def sysExec (prog : Program) (argv : List (List Byte)) : M Int := do
  let sz := ((← mach).proc me).sz
  if ∀ arg ∈ argv, arg.length < sz then exec im me prog argv else return -1

/-- Grow current process's memory by n bytes. -/
def growproc (n : Word) : M Bool := do
  let sz := ((← mach).proc me).sz
  if n.toInt > 0 then
    let sz ← phys (allocuvm im (← pgdirOf me) sz (uint (sz + n.toNat)))
    if sz = 0 then return false
    else
      setProc me fun x => { x with sz := sz }
      return true
  else if n.toInt < 0 then
    let sz ← phys (deallocuvm im (← pgdirOf me) sz (uint (sz + n.toNat)))
    if sz = 0 then return false
    else
      setProc me fun x => { x with sz := sz }
      return true
  else return true

def sysSbrk (n : Word) : M Int := do
  let addr := ((← mach).proc me).sz
  if ← growproc im me n then return addr else return -1

/-- The loop of `exit` over the open files. -/
def closeFiles : List (Fin NOFILE) → M Unit
  | [] => pure ()
  | fd :: fds => do
    match ((← mach).proc me).ofile fd with
    | none => closeFiles fds
    | some f =>
      fileclose im f
      clearFd me fd
      closeFiles fds

/-- Pass abandoned children to init. -/
def Mach.reparent (m : Mach) : Mach :=
  let adopt (x : Proc) : Proc := { x with
    parent := if x.parent = some me then some m.initproc else x.parent }
  { m with proc := fun p => adopt (m.proc p) }

/-- Exit the current process. -/
def exit : M Int := do
  if me = (← mach).initproc then .throw () .initExiting
  else
    closeFiles im me (List.finRange NOFILE)
    update fun m => ((), m.reparent me)
    setProc me fun x => { x with state := .zombie }
    return 0

/-- Wait for a child process to exit: `me` sleeps while it has children but none of them has. -/
def wait : M Int := do
  let m ← mach
  match (List.finRange NPROC).find? fun p => (m.proc p).parent = some me ∧ (m.proc p).state = .zombie with
  | some p =>
    freeStack im p
    match (m.proc p).pgdir with
    | none => .throw () .freevm
    | some d =>
      phys (freevm im d)
      setProc p fun x => { x with pid := 0, parent := none, state := .unused }
      return (m.proc p).pid.toInt
  | none =>
    if ∃ p, (m.proc p).parent = some me then .atomic () fun _ => (.sleep : Res Panic Int Mach)
    else return -1

/-! ## Steps -/

inductive MemCall where
  | fork
  | exec (prog : Program) (argv : List (List Byte))
  | sbrk (n : Word)
  | exit
  | wait
  | pipe
  | close (fd : Fin NOFILE)
  /-- user code stores a word, at index `i` of page `n` -/
  | store (n i : Nat) (w : Word)

/-- User code can store to pages that are present, open to it and writable; a fault is no step. -/
def store (n i : Nat) (w : Word) : M Int := do
  let d ← pgdirOf me
  let pte := (← mach).phys.pteAt d n
  if n < USERPAGES ∧ present pte ∧ user pte ∧ writable pte then
    phys (setWord (frame pte) i w)
    return 0
  else .atomic () fun _ => (.sleep : Res Panic Int Mach)

def MemCall.code : MemCall → M Int
  | .fork => Vm.fork im me
  | .exec prog argv => sysExec im me prog argv
  | .sbrk n => sysSbrk im me n
  | .exit => Vm.exit im me
  | .wait => Vm.wait im me
  | .pipe => sysPipe im me
  | .close fd => sysClose im me fd
  | .store n i w => Vm.store me n i w

def memStep (m : Mach) (e : Pid × MemCall) : Res Panic Unit Mach :=
  if (m.proc e.1).state = .runnable then
    ((e.2.code im e.1).run m).bind fun _ m' => .ok () m'
  else .sleep

/-! ## Boot -/

/-- A page that nothing checks to be there. -/
def mustAlloc : M Nat := do
  match ← phys kalloc with
  | none => .throw () .trap
  | some k => return k

def startothers : Nat → M Unit
  | 0 => pure ()
  | n + 1 => do
    let stack ← mustAlloc
    update fun m => ((), { m with cpus := m.cpus ++ [stack] })
    startothers n

/-- The directory that `kvmalloc` switches to. -/
def kvmalloc : M Unit := do
  match ← phys (setupkvm im) with
  | none => .throw () .trap
  | some d => update fun m => ((), { m with kpgdir := d })

/-- Set up first user process. -/
def userinit (initcode : Nat → Byte) (size : Nat) : M Unit := do
  match ← allocproc with
  | none => .throw () .trap
  | some p =>
    update fun m => ((), { m with initproc := p })
    match ← phys (setupkvm im) with
    | none => .throw () .userinit
    | some d =>
      phys (inituvm d initcode size)
      setProc p fun x => { x with pgdir := some d, sz := PGSIZE, state := .runnable }

/-- `main`, as far as it allocates, with `others` more CPUs. -/
-- irreducible: the elaborator would run it on closed arguments
@[irreducible] def main (others : Nat) (initcode : Nat → Byte) (size : Nat) : M Unit := do
  phys (kinit1 im)
  kvmalloc im
  startothers others
  phys (kinit2 im)
  userinit im initcode size

/-- The machine before `main`; memory holds anything. -/
def Mach.reset (mem : Nat → Nat → Word) : Mach where
  phys := ⟨mem, 0⟩
  proc _ := ⟨.unused, 0, none, none, none, 0, fun _ => none⟩
  nextpid := 1
  initproc := 0
  ftable _ := ⟨0, none, false⟩
  ends _ := ⟨false, false⟩
  kpgdir := 0
  cpus := []

end Xv6.Vm
