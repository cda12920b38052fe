import Xv6.Proc.Life
import Xv6.Fs.Proc
import Xv6.Vm.Files

/-!
# The process table of `Fs` and of `Vm`

The models of files and of memory have slots of their own, with no more of the process table than states
and parents, and do not know who sleeps or has a CPU.  `Shown` relates them with the table of `proc.c`:
`allocproc` takes the same slot, and `exit` and `wait` keep the relation.
-/

namespace Xv6.Ptable

open Conc Conc.Prog

/-- The states up to `kind`, and the parents. -/
structure Shown (t : Ptable) (state : Pid → ProcState) (parent : Pid → Option Pid) : Prop where
  kind : ∀ p, (state p).kind = (t.proc p).state.kind
  parent : ∀ p, parent p = (t.proc p).parent

variable {t : Ptable} {state : Pid → ProcState} {parent : Pid → Option Pid} {me init : Pid}

namespace Shown

theorem congr {state' : Pid → ProcState} {parent' : Pid → Option Pid} (h : t.Shown state parent)
    (hs : ∀ p, state' p = state p) (hp : ∀ p, parent' p = parent p) : t.Shown state' parent' :=
  ⟨fun p => by rw [hs, h.kind], fun p => by rw [hp, h.parent]⟩

theorem zombie_iff (h : t.Shown state parent) (p : Pid) : state p = .zombie ↔ (t.proc p).state = .zombie :=
  ProcState.is_of_kind (h.kind p) (by decide)

/-- `allocproc` finds the same slot. -/
theorem find_unused (h : t.Shown state parent) :
    (List.finRange NPROC).find? (fun p => state p = .unused) = t.allocproc.map (·.1) := by
  simp only [allocproc, Option.map_map, ProcState.is_of_kind (h.kind _) (by decide : ¬ ProcState.unused.Alive)]
  exact Option.map_id'.symm

theorem exit (h : t.Shown state parent) (hne : init ≠ me) :
    (t.exit init me).Shown (Function.update state me .zombie)
      fun p => if parent p = some me then some init else parent p := by
  have hl := left_exit hne t
  refine ⟨fun p => ?_, fun p => ?_⟩
  · by_cases hp : p = me
    · rw [hp, Function.update_self, hl.zombie]
    · rw [Function.update_of_ne hp, h.kind p]
      rcases hl.state p hp with he | ⟨hs, hr⟩
      · rw [he]
      · rw [hs, hr]
        rfl
  · rw [h.parent p]
    rcases hl.parent p with he | ⟨hs, hr⟩
    · rw [if_neg (he ▸ hl.passed p), he]
    · rw [if_pos hs, hr]

theorem reap (h : t.Shown state parent) (p : Pid) :
    (t.reap p).Shown (Function.update state p .unused) (Function.update parent p none) := by
  refine ⟨fun q => ?_, fun q => ?_⟩ <;> by_cases hq : q = p
  · rw [hq, Function.update_self, Ptable.reap, proc_set]
  · rw [Function.update_of_ne hq, Ptable.reap, proc_set_ne _ hq, h.kind q]
  · rw [hq, Function.update_self, Ptable.reap, proc_set]
  · rw [Function.update_of_ne hq, Ptable.reap, proc_set_ne _ hq, h.parent q]

end Shown

/-! ## `Fs` -/

abbrev Files (t : Ptable) (s : Kernel) : Prop :=
  t.Shown (fun p => (s.proc p).state) fun p => (s.proc p).parent

variable {s : Kernel}

theorem Files.zombie (h : t.Files s) (hne : Fs.initproc ≠ me) :
    ∃ s', (Fs.zombie me).run s = .ok () s' ∧ (t.exit Fs.initproc me).Files s' := by
  refine ⟨_, rfl, (h.exit hne).congr (fun p => ?_) fun p => ?_⟩
  · simp only [Fs.afterExit, Function.update_apply]
    split_ifs <;> rfl
  · simp only [Fs.afterExit]
    split_ifs <;> rfl

theorem Files.wait (h : t.Files s) (hk : (s.proc me).killed = (t.proc me).killed) :
    match t.waitScan me with
    | .reap p => ∃ s', (Fs.wait me).run s = .ok (some p) s' ∧ (t.reap p).Files s'
    | .fail => (Fs.wait me).run s = .ok none s
    | .sleep => (Fs.wait me).run s = .sleep := by
  have hz : ∀ p, (s.proc p).state = .zombie ↔ (t.proc p).state = .zombie := h.zombie_iff
  have hp : ∀ p, (s.proc p).parent = (t.proc p).parent := h.parent
  unfold waitScan Fs.wait
  simp only [run_atomic, hz, hp, hk]
  cases (List.finRange NPROC).find? fun p => (t.proc p).parent = some me && (t.proc p).state = .zombie with
  | some p =>
    exact ⟨_, rfl, (Shown.reap h p).congr (Function.apply_update (fun _ => Proc.state) _ _ _)
      (Function.apply_update (fun _ => Proc.parent) _ _ _)⟩
  | none =>
    by_cases hfail : (∀ p, (t.proc p).parent ≠ some me) ∨ (t.proc me).killed = true
    · simp only [if_pos hfail]
    · simp only [if_neg hfail]

/-! ## `Vm` -/

abbrev Memory (t : Ptable) (m : Vm.Mach) : Prop :=
  t.Shown (fun p => (m.proc p).state) fun p => (m.proc p).parent

variable {m : Vm.Mach}

theorem Memory.exit (h : t.Memory m) (hne : m.initproc ≠ me) :
    (t.exit m.initproc me).Memory
      ((m.reparent me).setProc me { (m.reparent me).proc me with state := .zombie }) := by
  refine (Shown.exit h hne).congr (fun p => ?_) fun p => ?_
  · simp only [Vm.Mach.setProc, Vm.Mach.reparent, Function.update_apply]
    split_ifs <;> rfl
  · simp only [Vm.Mach.setProc, Vm.Mach.reparent, Function.update_apply]
    split_ifs <;> simp_all

theorem Memory.wait {im : Vm.KernelImage} (h : t.Memory m) : wp (fun _ => True) (Vm.wait im me) (fun r m' =>
    (∃ p, t.waitScan me = .reap p ∧ (t.reap p).Memory m') ∨ t.waitScan me = .fail ∧ r = -1 ∧ m' = m) m := by
  have hz : ∀ p, (m.proc p).state = .zombie ↔ (t.proc p).state = .zombie := h.zombie_iff
  have hp : ∀ p, (m.proc p).parent = (t.proc p).parent := h.parent
  unfold waitScan Vm.wait
  rw [wp_bind, Vm.wp_mach]
  simp only [hz, hp, Bool.decide_and]
  cases (List.finRange NPROC).find? fun p => (t.proc p).parent = some me && (t.proc p).state = .zombie with
  | some p =>
    dsimp only
    rw [Vm.freeStack, wp_bind, wp_bind, Vm.wp_mach]
    cases (m.proc p).kstack with
    | none => trivial
    | some k =>
      dsimp only
      rw [wp_bind, Vm.wp_phys]
      refine wp_top fun _ _ => ?_
      rw [Vm.wp_setProc]
      cases (m.proc p).pgdir with
      | none => trivial
      | some d =>
        dsimp only
        rw [wp_bind, Vm.wp_phys]
        refine wp_top fun _ _ => ?_
        rw [wp_bind, Vm.wp_setProc]
        refine Or.inl ⟨p, rfl, (Shown.reap h p).congr (fun q => ?_) fun q => ?_⟩
        · simp only [Vm.Mach.setProc, Function.update_apply]
          split_ifs <;> rfl
        · simp only [Vm.Mach.setProc, Function.update_apply]
          split_ifs <;> rfl
  | none =>
    refine wp_ite (fun _ => trivial) fun hno => Or.inr ⟨?_, rfl, rfl⟩
    exact if_pos (Or.inl (not_exists.1 hno))

end Xv6.Ptable
