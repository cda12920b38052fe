import Xv6.Vm.Machine
import Xv6.Vm.Exec
import Xv6.Proc.Table

/-!
# `fork` and `exec` with all that they change

`Machine` follows pages.  Here `proc.c`'s `fork` and `exec.c` also have the trap frame, the name and
the working directory of a process, the reference counts of inodes, the transactions, and the file
that the program is read from.  `fork_mach` and `exec_mach`: on the state of `Machine` they do what its
`fork` and `exec` do.
-/

namespace Xv6.Vm

open Bytes Conc Prog

/-! ## State -/

/-- `struct trapframe`, without its padding. -/
structure TrapFrame where
  edi : Word
  esi : Word
  ebp : Word
  oesp : Word
  ebx : Word
  edx : Word
  ecx : Word
  eax : Word
  gs : Short
  fs : Short
  es : Short
  ds : Short
  trapno : Word
  err : Word
  eip : Word
  cs : Short
  eflags : Word
  esp : Word
  ss : Short
deriving DecidableEq, Inhabited

/-- `struct proc`, the rest of it. -/
structure Task where
  tf : TrapFrame
  name : Blk CMD_NAME_MAX
  cwd : Option Slot

structure Tasks where
  mach : Mach
  task : Pid → Task
  /-- `ref` of the entries of the inode cache -/
  iref : Slot → Nat

def Tasks.setTask (s : Tasks) (p : Pid) (x : Task) : Tasks :=
  { s with task := Function.update s.task p x }

/-- What a section does about transactions. -/
inductive Op where
  | beginOp
  | endOp
  | other
deriving DecidableEq

abbrev T := Prog Op Panic Tasks

/-- Code of `Machine`. -/
def onMach {α : Type} (p : M α) : T α := .atomic .other fun s =>
  (p.run s.mach).bind fun a m => .ok a { s with mach := m }

def tasks : T Tasks := .atomic .other fun s => .ok s s

def setTask (p : Pid) (g : Task → Task) : T Unit := .atomic .other fun s =>
  .ok () (s.setTask p (g (s.task p)))

def beginOp : T Unit := .atomic .beginOp fun s => .ok () s

def endOp : T Unit := .atomic .endOp fun s => .ok () s

/-- Increment reference count for ip. -/
def idup (ip : Slot) : T Unit := .atomic .other fun s =>
  .ok () { s with iref := Function.update s.iref ip (s.iref ip + 1) }

/-! ## `fork` -/

variable (im : KernelImage) (me : Pid)

namespace Task

def dupCwd (np : Pid) : T Unit := do
  match ((← tasks).task me).cwd with
  | none => .throw .other .trap
  | some ip =>
    idup ip
    setTask np fun x => { x with cwd := some ip }

/-- Create a new process copying me as the parent. -/
def fork : T Int := do
  match ← onMach allocproc with
  | none => return -1
  | some np =>
    let pgdir ← onMach (pgdirOf me)
    let sz := ((← tasks).mach.proc me).sz
    match ← onMach (phys (copyuvm im pgdir sz)) with
    | none =>
      onMach (setProc np fun x => { x with pgdir := none })
      onMach (freeStack im np)
      onMach (setProc np fun x => { x with state := .unused })
      return -1
    | some d =>
      onMach (setProc np fun x => { x with pgdir := some d, sz := sz, parent := some me })
      let tf := ((← tasks).task me).tf
      setTask np fun x => { x with tf := { tf with eax := 0 } }
      onMach (dupFiles me np (List.finRange NOFILE))
      dupCwd me np
      let name := ((← tasks).task me).name
      setTask np fun x => { x with name := safestrcpy x.name name }
      onMach (setProc np fun x => { x with state := .runnable })
      return ((← tasks).mach.proc np).pid.toInt

end Task

/-! ## The program file -/

/-- The bytes of an integer in a file. -/
def shortAt (b : List Byte) (off : Nat) : Short := b.getD (off + 1) 0 ++ b.getD off 0

def wordAt (b : List Byte) (off : Nat) : Word :=
  b.getD (off + 3) 0 ++ b.getD (off + 2) 0 ++ b.getD (off + 1) 0 ++ b.getD off 0

/-- `readi` of a regular file: the bytes, or `none` for -1. -/
def readFile (file : List Byte) (off n : Nat) : Option (List Byte) :=
  if off > file.length ∨ off + n ≥ 2 ^ 32 then none else some ((file.drop off).take n)

abbrev ELF_MAGIC : Word := 0x464C457F
abbrev ELF_PROG_LOAD : Word := 1

/-- `struct elfhdr`, what `exec` uses. -/
structure Elfhdr where
  entry : Word
  phoff : Word
  phnum : Short

/-- `sizeof(struct elfhdr)` -/
abbrev ELFHDR : Nat := 52

/-- `sizeof(struct proghdr)` -/
abbrev PROGHDR : Nat := 32

/-- Check ELF header: `none` if it is too short or has another magic number. -/
def readElf (file : List Byte) : Option Elfhdr :=
  match readFile file 0 ELFHDR with
  | none => none
  | some b =>
    if b.length ≠ ELFHDR then none
    else if wordAt b 0 ≠ ELF_MAGIC then none
    else some ⟨wordAt b 24, wordAt b 28, shortAt b 44⟩

/-- What `loaduvm` gets for the pages of a segment. -/
def segment (file : List Byte) (off filesz : Word) : FileData :=
  let page i := (readFile file (uint (off.toNat + i * PGSIZE))
    (min (filesz.toNat - i * PGSIZE) PGSIZE)).getD []
  { got := fun i => (page i).length
    bytes := fun i k => (page i).getD k 0 }

def readProghdr (file : List Byte) (off : Nat) : Option Proghdr :=
  match readFile file off PROGHDR with
  | none => none
  | some b =>
    if b.length ≠ PROGHDR then none
    else some {
      load := wordAt b 0 = ELF_PROG_LOAD
      vaddr := wordAt b 8
      memsz := wordAt b 20
      filesz := wordAt b 16
      data := segment file (wordAt b 4) (wordAt b 16) }

/-- The headers that the loop of `exec` reads, one after the other. -/
def readProghdrs (file : List Byte) : Nat → Nat → List (Option Proghdr)
  | 0, _ => []
  | k + 1, off => readProghdr file off :: readProghdrs file k (uint (off + PROGHDR))

def Elfhdr.proghdrs (file : List Byte) (elf : Elfhdr) : List (Option Proghdr) :=
  readProghdrs file elf.phnum.toNat elf.phoff.toNat

/-- All that `exec` reads. -/
def programOf (file : List Byte) : Program :=
  match readElf file with
  | none => ⟨false, []⟩
  | some elf => ⟨true, elf.proghdrs file⟩

/-! ## `exec` -/

def slash : Byte := 0x2F

/-- `last` at the end of the loop over the path. -/
def lastElement (path : List Byte) : List Byte := (path.reverse.takeWhile (· ≠ slash)).reverse

namespace Task

/-- Save program name for debugging.  Commit to the user image. -/
def commit (path : List Byte) (elf : Elfhdr) (pgdir sz esp : Nat) : T Int := do
  setTask me fun x => { x with
    name := safestrcpy x.name (.ofFn fun i => (lastElement path).getD i 0) }
  let oldpgdir ← onMach (pgdirOf me)
  onMach (setProc me fun x => { x with pgdir := some pgdir, sz := sz })
  setTask me fun x => { x with tf := { x.tf with eip := elf.entry, esp := .ofNat 32 esp } }
  onMach (phys (freevm im oldpgdir))
  return 0

/-- `exec` of the file that `namei(path)` finds, called by a process whose memory holds the strings. -/
def exec (path : List Byte) (file : Option (List Byte)) (argv : List (List Byte)) : T Int := do
  beginOp
  match file with
  | none =>
    endOp
    return -1
  | some file =>
    match readElf file with
    | none =>
      endOp
      return -1
    | some elf =>
      match ← onMach (phys (setupkvm im)) with
      | none =>
        endOp
        return -1
      | some pgdir =>
        match ← onMach (phys (loadSegments im pgdir (elf.proghdrs file) 0)) with
        | none =>
          onMach (phys (freevm im pgdir))
          endOp
          return -1
        | some sz =>
          endOp
          match ← onMach (phys (makeStack im pgdir sz argv)) with
          | none =>
            onMach (phys (freevm im pgdir))
            return -1
          | some (sz, esp) => commit im me path elf pgdir sz esp

end Task

/-! ## What they do to the machine -/

section Lifts

variable {α β : Type} {s : Tasks}

def Lifts (p : T α) (q : M α) (s : Tasks) : Prop :=
  ((p.run s).bind fun a s' => .ok a s'.mach) = q.run s.mach

theorem Lifts.ret (a : α) : Lifts (pure a) (pure a) s := rfl

theorem Lifts.onMach {p : M α} {f : α → T β} {g : α → M β}
    (h : ∀ a m, Lifts (f a) (g a) { s with mach := m }) : Lifts (onMach p >>= f) (p >>= g) s := by
  unfold Lifts
  rw [run_bind, run_bind, Vm.onMach, run_atomic]
  cases p.run s.mach with
  | ok a m => exact h a m
  | panic e => rfl
  | sleep => rfl

/-- Code that does not concern the machine. -/
theorem Lifts.skip {p : T α} {k : α → T β} {q : M β} {a : α} {s' : Tasks} (hp : p.run s = .ok a s')
    (hm : s'.mach = s.mach) (h : Lifts (k a) q s') : Lifts (p >>= k) q s := by
  unfold Lifts at *
  rw [run_bind, hp, Res.bind_ok, h, hm]

theorem Lifts.read {k : Tasks → T β} {g : Mach → M β} (h : Lifts (k s) (g s.mach) s) :
    Lifts (tasks >>= k) (mach >>= g) s := by
  unfold Lifts at *
  rw [run_bind, tasks, run_atomic, Res.bind_ok, h, run_bind, mach, update, run_atomic, Res.bind_ok]

end Lifts

theorem run_dupCwd {s : Tasks} {np : Pid} {ip : Slot} (h : (s.task me).cwd = some ip) :
    (Task.dupCwd me np).run s = .ok () { s with
      iref := Function.update s.iref ip (s.iref ip + 1)
      task := Function.update s.task np { s.task np with cwd := some ip } } := by
  rw [Task.dupCwd, run_bind, tasks, run_atomic, Res.bind_ok, h]
  rfl

theorem fork_mach {s : Tasks} {ip : Slot} (hcwd : (s.task me).cwd = some ip) :
    Lifts (Task.fork im me) (fork im me) s := by
  unfold Task.fork fork
  refine .onMach fun r m₁ => ?_
  cases r with
  | none => exact .ret _
  | some np =>
    refine .onMach fun pgdir m₂ => .read <| .onMach fun d m₃ => ?_
    cases d with
    | none => exact .onMach fun _ _ => .onMach fun _ _ => .onMach fun _ _ => .ret _
    | some d =>
      refine .onMach fun _ m₄ => .skip rfl rfl <| .skip rfl rfl <| .onMach fun _ m₅ => ?_
      -- the copy of the trap frame keeps the working directory
      have hcwd' : (Function.update s.task np { s.task np with
          tf := { (s.task me).tf with eax := 0 } } me).cwd = some ip := by
        by_cases hnp : me = np
        · subst hnp
          rw [Function.update_self]
          exact hcwd
        · rw [Function.update_of_ne hnp]
          exact hcwd
      exact .skip (run_dupCwd me hcwd') rfl <| .skip rfl rfl <| .skip rfl rfl <|
        .onMach fun _ m₆ => .read (.ret _)

/-! ### `exec` -/

theorem run_onPhys {α β : Type} {q : V α} {k : α → T β} {s : Tasks} :
    (onMach (phys q) >>= k).run s =
      (q.run s.mach.phys).bind fun a u => (k a).run { s with mach := { s.mach with phys := u } } := by
  have hphys : (phys q).run s.mach = (q.run s.mach.phys).bind fun a u => .ok a { s.mach with phys := u } :=
    run_zoom (by intros; rfl) (by intros; rfl) (by intros; rfl) q s.mach
  rw [run_bind, onMach, run_atomic, hphys]
  cases q.run s.mach.phys <;> rfl

/-- Apart from its transaction, `exec` makes the image and commits it. -/
theorem run_exec {s : Tasks} {path file : List Byte} {argv : List (List Byte)} {elf : Elfhdr}
    (helf : readElf file = some elf) : (Task.exec im me path (some file) argv).run s =
      ((execImage im (programOf file) argv).run s.mach.phys).bind fun r u =>
        (match r with
          | none => pure (-1)
          | some (pgdir, sz, esp) => Task.commit im me path elf pgdir sz esp : T Int).run
            { s with mach := { s.mach with phys := u } } := by
  have hprog : programOf file = ⟨true, elf.proghdrs file⟩ := by rw [programOf, helf]
  unfold Task.exec execImage
  rw [run_bind, hprog, show beginOp.run s = .ok () s from rfl, Res.bind_ok]
  simp only [helf, Bool.not_true, Bool.false_eq_true, if_false]
  rw [run_onPhys, run_bind]
  cases (setupkvm im).run s.mach.phys with
  | panic e => rfl
  | sleep => rfl
  | ok r u₁ =>
    cases r with
    | none => rfl
    | some pgdir =>
      simp only [Res.bind_ok]
      rw [run_onPhys, run_bind]
      dsimp only
      cases (loadSegments im pgdir (elf.proghdrs file) 0).run u₁ with
      | panic e => rfl
      | sleep => rfl
      | ok r u₂ =>
        cases r with
        | none =>
          simp only [Res.bind_ok]
          rw [run_onPhys, run_bind]
          dsimp only
          cases (freevm im pgdir).run u₂ <;> rfl
        | some sz =>
          simp only [Res.bind_ok]
          rw [run_bind, show endOp.run _ = .ok () _ from rfl, Res.bind_ok, run_onPhys, run_bind]
          dsimp only
          cases (makeStack im pgdir sz argv).run u₂ with
          | panic e => rfl
          | sleep => rfl
          | ok r u₃ =>
            cases r with
            | none =>
              simp only [Res.bind_ok]
              rw [run_onPhys, run_bind]
              dsimp only
              cases (freevm im pgdir).run u₃ <;> rfl
            | some x => rfl

theorem exec_mach {s : Tasks} {path file : List Byte} {argv : List (List Byte)} :
    Lifts (Task.exec im me path (some file) argv) (exec im me (programOf file) argv) s := by
  cases helf : readElf file with
  | none =>
    have hprog : programOf file = ⟨false, []⟩ := by rw [programOf, helf]
    unfold Task.exec exec
    rw [hprog]
    refine .skip (p := beginOp) rfl rfl ?_
    simp only [helf]
    rfl
  | some elf =>
    have himage : (Task.exec im me path (some file) argv).run s = (do
        match ← onMach (phys (execImage im (programOf file) argv)) with
        | none => pure (-1)
        | some (pgdir, sz, esp) => Task.commit im me path elf pgdir sz esp : T Int).run s := by
      rw [run_exec im me helf, run_onPhys]
    unfold Lifts
    rw [himage]
    refine Lifts.onMach fun r m => ?_
    cases r with
    | none => exact .ret _
    | some x =>
      exact .skip rfl rfl <| .onMach fun _ _ => .onMach fun _ _ => .skip rfl rfl <|
        .onMach fun _ _ => .ret _

end Xv6.Vm
