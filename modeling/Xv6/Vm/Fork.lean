import Xv6.Vm.Pages
import Xv6.Vm.Task

/-!
# `fork` copies memory exactly or not at all

The child gets the bytes and the permissions of every page below the size of its parent, in frames of
its own; when memory runs out anywhere on the way, everything that was taken is back
(`fork_copies_or_fails`).  The pages come from `wp_fork_copies`; what is added here is the trap frame,
and who the child is.
-/

namespace Xv6.Vm

open Bytes Conc Prog

variable {im : KernelImage} {strict : Prop} {m m' : Mach} {s s' : Tasks} {p np : Pid} {d : Nat}
  {l : List Nat} {ip : Slot} {E : Option Panic → Prop}

/-! ## Memory as a process sees it -/

/-- The PTE of user page `n` of a process. -/
def Mach.pteOf (m : Mach) (p : Pid) (n : Nat) : Word :=
  match (m.proc p).pgdir with
  | none => 0
  | some d => m.phys.pteAt d n

/-- The byte that a process has at a user address. -/
def Mach.byteAt (m : Mach) (p : Pid) (va : Nat) : Byte :=
  Blk.byteOf (m.phys.mem (frame (m.pteOf p (va / PGSIZE))) (va % PGSIZE / 4)) (va % 4)

def Mach.IsFree (m : Mach) (f : Nat) : Prop := ∃ i, m.role (.free i) = some f

/-- The child `np` of `p` has a copy of its memory in pages of its own, and its trap frame but for
`eax`. -/
structure ForkCopies (s : Tasks) (p np : Pid) (s' : Tasks) : Prop where
  slot : (s.mach.proc np).state = .unused ∧ (s'.mach.proc np).state = .runnable
  sz : (s'.mach.proc np).sz = (s.mach.proc p).sz
  byte : ∀ va < (s.mach.proc p).sz, s'.mach.byteAt np va = s'.mach.byteAt p va
  perm : ∀ n, n * PGSIZE < (s.mach.proc p).sz → present (s'.mach.pteOf np n) = true ∧
    user (s'.mach.pteOf np n) = user (s'.mach.pteOf p n) ∧
    writable (s'.mach.pteOf np n) = writable (s'.mach.pteOf p n)
  apart : ∀ n f r, s'.mach.role (.user (.proc np) n) = some f → s'.mach.role r = some f →
    r = .user (.proc np) n
  parent : (∀ n, s'.mach.pteOf p n = s.mach.pteOf p n) ∧
    ∀ va < (s.mach.proc p).sz, s'.mach.byteAt p va = s.mach.byteAt p va
  tf : (s'.task np).tf = { (s.task p).tf with eax := 0 }

/-- Everything is as it was, but for what an UNUSED slot may hold. -/
structure ForkFails (s : Tasks) (p : Pid) (s' : Tasks) : Prop where
  free : ∀ f, s'.mach.IsFree f ↔ s.mach.IsFree f
  slots : ∀ q, (s'.mach.proc q).state = (s.mach.proc q).state
  parent : s'.mach.proc p = s.mach.proc p ∧ s'.task p = s.task p ∧
    (∀ n, s'.mach.pteOf p n = s.mach.pteOf p n) ∧
    ∀ va < (s.mach.proc p).sz, s'.mach.byteAt p va = s.mach.byteAt p va
  ftable : s'.mach.ftable = s.mach.ftable
  iref : s'.iref = s.iref

/-! ## Who the child is -/

theorem wp_onMach {α : Type} {q : M α} {Q : α → Tasks → Prop} :
    wp E (onMach q) Q s ↔ wp E q (fun a m => Q a { s with mach := m }) s.mach := by
  rw [onMach, wp_atomic]
  unfold wp
  cases q.run s.mach <;> rfl

theorem wp_tasks {Q : Tasks → Tasks → Prop} : wp E tasks Q s ↔ Q s s := wp_atomic

theorem wp_setTask {g : Task → Task} {Q : Unit → Tasks → Prop} :
    wp E (setTask p g) Q s ↔ Q () (s.setTask p (g (s.task p))) := wp_atomic

theorem wp_dupCwd {Q : Unit → Tasks → Prop} (h : (s.task p).cwd = some ip) :
    wp E (Task.dupCwd p np) Q s ↔ Q () { s with
      iref := Function.update s.iref ip (s.iref ip + 1)
      task := Function.update s.task np { s.task np with cwd := some ip } } := by
  unfold wp
  rw [run_dupCwd p h]
  rfl

theorem wp_allocproc_slot : wp (fun _ => True) allocproc (fun r m' =>
    (r = none ∧ ∀ q, (m'.proc q).state = (m.proc q).state) ∨
    ∃ np, r = some np ∧ (m.proc np).state = .unused ∧ ∀ q, q ≠ np → m'.proc q = m.proc q) m := by
  unfold allocproc
  rw [wp_bind, wp_mach]
  cases hfind : (List.finRange NPROC).find? fun p => (m.proc p).state = .unused with
  | none => exact Or.inl ⟨rfl, fun _ => rfl⟩
  | some np =>
    have hun : (m.proc np).state = .unused := by simpa using List.find?_some hfind
    simp only []
    rw [wp_bind, wp_update, wp_bind, wp_phys]
    refine wp_top fun r s => ?_
    cases r with
    | none =>
      simp only []
      rw [wp_bind, wp_setProc]
      refine Or.inl ⟨rfl, fun q => ?_⟩
      by_cases hq : q = np
      · rw [hq, setProc_proc, hun]
      · simp only [Mach.setProc]
        rw [Function.update_of_ne hq, Function.update_of_ne hq]
    | some k =>
      simp only []
      rw [wp_bind, wp_setProc]
      refine Or.inr ⟨np, rfl, hun, fun q hq => ?_⟩
      simp only [Mach.setProc]
      rw [Function.update_of_ne hq, Function.update_of_ne hq]

theorem wp_freeStack_slot : wp (fun _ => True) (freeStack im np) (fun _ m' =>
    ∀ q, q ≠ np → m'.proc q = m.proc q) m := by
  unfold freeStack
  rw [wp_bind, wp_mach]
  cases (m.proc np).kstack with
  | none => trivial
  | some k =>
    simp only []
    rw [wp_bind, wp_phys]
    refine wp_top fun _ s => ?_
    rw [wp_setProc]
    exact fun q hq => Function.update_of_ne hq _ _

theorem fork_tasks {r : Int} (hcwd : (s.task p).cwd = some ip)
    (hrun : (Task.fork im p).run s = .ok r s') :
    (s'.task = s.task ∧ s'.iref = s.iref ∧
      ∀ q, (s'.mach.proc q).state = (s.mach.proc q).state) ∨
    ∃ np, (s.mach.proc np).state = .unused ∧ (s'.mach.proc np).state = .runnable ∧
      (s'.task np).tf = { (s.task p).tf with eax := 0 } := by
  refine wp_ok (E := fun _ => True) (Q := fun _ s' => (s'.task = s.task ∧ s'.iref = s.iref ∧
      ∀ q, (s'.mach.proc q).state = (s.mach.proc q).state) ∨
    ∃ np, (s.mach.proc np).state = .unused ∧ (s'.mach.proc np).state = .runnable ∧
      (s'.task np).tf = { (s.task p).tf with eax := 0 }) ?_ hrun
  unfold Task.fork
  rw [wp_bind, wp_onMach]
  refine wp_mono wp_allocproc_slot ?_
  rintro r m₁ (⟨rfl, hst⟩ | ⟨np, rfl, hun, hq⟩)
  · exact Or.inl ⟨rfl, rfl, hst⟩
  simp only []
  rw [wp_bind, wp_onMach]
  unfold pgdirOf
  rw [wp_bind, wp_mach]
  cases (m₁.proc p).pgdir with
  | none => trivial
  | some d =>
    simp only [wp_pure]
    rw [wp_bind, wp_tasks, wp_bind, wp_onMach, wp_phys]
    refine wp_top fun r s₂ => ?_
    cases r with
    | none =>
      simp only []
      rw [wp_bind, wp_onMach, wp_setProc, wp_bind, wp_onMach]
      refine wp_mono wp_freeStack_slot fun _ m₃ hq₃ => ?_
      rw [wp_bind, wp_onMach, wp_setProc]
      refine Or.inl ⟨rfl, rfl, fun q => ?_⟩
      by_cases hqn : q = np
      · rw [hqn, setProc_proc, hun]
      · simp only [Mach.setProc, Function.update_of_ne hqn] at hq₃ ⊢
        rw [hq₃ q hqn, Function.update_of_ne hqn, hq q hqn]
    | some d =>
      simp only []
      rw [wp_bind, wp_onMach, wp_setProc, wp_bind, wp_tasks, wp_bind, wp_setTask, wp_bind, wp_onMach]
      refine wp_top fun _ m₅ => ?_
      -- the copy of the trap frame keeps the working directory
      have hcwd' : (Function.update s.task np { s.task np with
          tf := { (s.task p).tf with eax := 0 } } p).cwd = some ip := by
        by_cases hnp : p = np
        · subst hnp
          rw [Function.update_self]
          exact hcwd
        · rw [Function.update_of_ne hnp]
          exact hcwd
      rw [wp_bind, wp_dupCwd hcwd', wp_bind, wp_tasks, wp_bind, wp_setTask, wp_bind, wp_onMach, wp_setProc, wp_bind, wp_tasks]
      refine Or.inr ⟨np, hun, ?_, ?_⟩
      · rw [setProc_proc]
      · simp [Tasks.setTask]

/-! ## What it does -/

theorem user_flags {e e' : Word} (h : flags e = flags e') : user e = user e' ∧
    writable e = writable e' ∧ present e = present e' := by
  have hbit : ∀ k < 12, e.getLsbD k = e'.getLsbD k := fun k hk => by
    have hk' := congrArg (fun w : Word => w.getLsbD k) h
    simp only [flags, BitVec.getLsbD_and] at hk'
    rwa [getLsbD_mask (show k < 32 by omega), decide_eq_true hk, Bool.and_true, Bool.and_true] at hk'
  exact ⟨hbit 2 (by decide), hbit 1 (by decide), hbit 0 (by decide)⟩

theorem isFree_iff {R D P : Set Nat} {ι : Type} {oth : ι → Option Nat}
    (h : Frames im R D oth P l m.phys) (f : Nat) : m.IsFree f ↔ f ∈ l := by
  have hl : ∀ i, m.role (.free i) = l[i]? :=
    freeFrom_eq h.chain fun f hf => h.lt_of_mem (h.sub f hf)
  simp only [Mach.IsFree, hl, List.mem_iff_getElem?]

theorem pteOf_eq (hd : (m.proc p).pgdir = some d) (n : Nat) : m.pteOf p n = m.phys.pteAt d n := by
  rw [Mach.pteOf, hd]

theorem sees_same (hd : (m.proc p).pgdir = some d) (hd' : (m'.proc p).pgdir = some d)
    (hdD : d ∈ m.dirs) (hsame : SameDirs m.dirs m.phys m'.phys)
    (hpage : ∀ g, m.phys.IsPage m.dirs g → m'.phys.mem g = m.phys.mem g)
    (hall : ∀ n, n * PGSIZE < (m.proc p).sz → present (m.pteOf p n) = true)
    (hsz : (m.proc p).sz ≤ KERNBASE) :
    (∀ n, m'.pteOf p n = m.pteOf p n) ∧ ∀ va < (m.proc p).sz, m'.byteAt p va = m.byteAt p va := by
  have hpte : ∀ n, m'.pteOf p n = m.pteOf p n := fun n => by
    rw [pteOf_eq hd, pteOf_eq hd', hsame.pte d hdD]
  refine ⟨hpte, fun va hva => ?_⟩
  have hn : va / PGSIZE * PGSIZE < (m.proc p).sz := (Nat.div_mul_le_self _ _).trans_lt hva
  have hpr := hall _ hn
  rw [pteOf_eq hd] at hpr
  rw [Mach.byteAt, Mach.byteAt, hpte, pteOf_eq hd,
    hpage _ ⟨d, hdD, _, lt_userpages hn hsz, hpr, rfl⟩]

theorem fork_cases (h : Inv im False s.mach) (hp : (s.mach.proc p).Alive)
    (hcwd : (s.task p).cwd = some ip)
    (hall : ∀ n, n * PGSIZE < (s.mach.proc p).sz → present (s.mach.pteOf p n) = true) {l : List Nat}
    (hfr : s.mach.Frames im ∅ l s.mach.phys) :
    ∃ r s', (Task.fork im p).run s = .ok r s' ∧
      ((∃ np, r = (s'.mach.proc np).pid.toInt ∧ ForkCopies s p np s') ∨
        r = -1 ∧ ForkFails s p s' ∧ ForkShort l p s.mach) := by
  obtain ⟨d, hd, hdD, -, -, hI⟩ := h.pgdir hp
  have hwp : wp (fun _ => False) (fork im p) _ s.mach := wp_fork_copies h hp hfr fun d' hd' =>
    Or.inr fun n hn => by
      have := hall n hn
      rwa [pteOf_eq hd'] at this
  obtain ⟨r, m', hrun, hinv, hout⟩ := wp_returns hwp
  -- the run with trap frames is the same on the machine
  have hlift := fork_mach im p hcwd
  unfold Lifts at hlift
  rw [hrun] at hlift
  obtain ⟨r', s', hrun', heq⟩ := Res.bind_eq_ok.1 hlift
  injection heq with hr hm
  subst hr hm
  refine ⟨r', s', hrun', ?_⟩
  have htasks := fork_tasks hcwd hrun'
  rcases hout with ⟨np, hf, hr⟩ | ⟨hr, hu, hshort⟩
  · left
    have hne : p ≠ np := fun he => hp.1 (he ▸ hf.unused)
    have hcore := hf.core p hne
    simp only [Proc.core, Proc.mk.injEq] at hcore
    obtain ⟨hkeep, hbytes⟩ := sees_same hd (hcore.2.2.2.2.1.trans hd) hdD hf.same hf.page hall hI.lt.le
    obtain ⟨d₀, d', hd₀, hd', hcopy⟩ := hf.copies
    obtain rfl : d₀ = d := Option.some.inj (hd₀.symm.trans hd)
    -- the task that changed is the child
    have htf : (s'.task np).tf = { (s.task p).tf with eax := 0 } := by
      rcases htasks with ⟨-, -, hst⟩ | ⟨np', hun, hrn, htf⟩
      · have := hst np
        rw [hf.unused, hf.runnable] at this
        exact absurd this (by decide)
      · obtain rfl : np' = np := by
          by_contra hne'
          have := congrArg Proc.state (hf.core np' hne')
          simp only [Proc.core] at this
          rw [hun, hrn] at this
          exact absurd this (by decide)
        exact htf
    refine ⟨np, hr, ⟨hf.unused, hf.runnable⟩, hf.sz, fun va hva => ?_, fun n hn => ?_,
      fun n f r hu hr => hinv.owns.inj _ _ f hr hu, ⟨hkeep, hbytes⟩, htf⟩
    · have hn : va / PGSIZE * PGSIZE < (s.mach.proc p).sz := (Nat.div_mul_le_self _ _).trans_lt hva
      rw [hbytes va hva, Mach.byteAt, Mach.byteAt, pteOf_eq hd', pteOf_eq hd, (hcopy _ hn).2]
    · obtain ⟨hu, hw, hpr⟩ := user_flags (hcopy n hn).1
      rw [hkeep n, pteOf_eq hd', pteOf_eq hd]
      have := hall n hn
      rw [pteOf_eq hd] at this
      exact ⟨hpr.trans this, hu, hw⟩
  · right
    obtain ⟨l', hfr', hfree⟩ := hu.free
    have hproc : s'.mach.proc p = s.mach.proc p := hu.proc p hp.1
    obtain ⟨hkeep, hbytes⟩ := sees_same hd (by rw [hproc, hd]) hdD hu.same hu.page hall hI.lt.le
    have htask : s'.task = s.task ∧ s'.iref = s.iref := by
      rcases htasks with ⟨ht, hi, -⟩ | ⟨np, hun, hrn, -⟩
      · exact ⟨ht, hi⟩
      · have := hu.state np
        rw [hun, hrn] at this
        exact absurd this (by decide)
    refine ⟨hr, ⟨fun f => ?_, hu.state, ⟨hproc, by rw [htask.1], hkeep, hbytes⟩, hu.ftable, htask.2⟩, hshort⟩
    rw [isFree_iff hfr', isFree_iff hfr, hfree]

/-- Every fork of a process whose pages are all there copies its memory, or leaves everything as it
was. -/
theorem fork_copies_or_fails (h : Inv im False s.mach) (hp : (s.mach.proc p).Alive)
    (hcwd : (s.task p).cwd = some ip)
    (hall : ∀ n, n * PGSIZE < (s.mach.proc p).sz → present (s.mach.pteOf p n) = true) :
    ∃ r s', (Task.fork im p).run s = .ok r s' ∧
      ((∃ np, r = (s'.mach.proc np).pid.toInt ∧ ForkCopies s p np s') ∨
        r = -1 ∧ ForkFails s p s') := by
  obtain ⟨l, hfr⟩ := h.point.frames
  obtain ⟨r, s', hrun, hcase⟩ := fork_cases h hp hcwd hall hfr
  exact ⟨r, s', hrun, hcase.imp_right fun hf => ⟨hf.1, hf.2.1⟩⟩

/-- The first process after boot forks, and there is a child. -/
theorem fork_copies_or_fails_boot : ∃ m₀ s np s',
    (main smallKernel 1 (fun _ => 0) 44).run (Mach.reset fun _ _ => 0) = .ok () m₀ ∧
    s = (⟨m₀, fun _ => ⟨default, .ofFn fun _ => 0, some 0⟩, fun _ => 1⟩ : Tasks) ∧
    (Task.fork smallKernel m₀.initproc).run s = .ok (s'.mach.proc np).pid.toInt s' ∧
    ForkCopies s m₀.initproc np s' := by
  obtain ⟨m₀, hboot, h₀⟩ := boots False fun _ _ => 0
  have halive := alive_of_runnable h₀.init
  obtain ⟨d, -, hd, -⟩ := h₀.page
  have hall : ∀ n, n * PGSIZE < (m₀.proc m₀.initproc).sz → present (m₀.pteOf m₀.initproc n) = true := by
    intro n hn
    rw [pteOf_eq hd]
    exact h₀.mapped hd hn
  obtain ⟨s, hs⟩ : ∃ s, s = (⟨m₀, fun _ => ⟨default, .ofFn fun _ => 0, some 0⟩, fun _ => 1⟩ : Tasks) :=
    ⟨_, rfl⟩
  have hmach : s.mach = m₀ := by rw [hs]
  have hcwd : (s.task m₀.initproc).cwd = some 0 := by rw [hs]
  subst hmach
  obtain ⟨l, hfr, hl⟩ := h₀.room
  obtain ⟨r, s', hrun, hcase⟩ := fork_copies_or_fails h₀.inv halive hcwd hall
  obtain ⟨r₂, s₂, hrun₂, hcase₂⟩ := fork_cases h₀.inv halive hcwd hall hfr
  obtain ⟨rfl, rfl⟩ : r = r₂ ∧ s' = s₂ := by
    rw [hrun] at hrun₂
    injection hrun₂ with hr hs
    exact ⟨hr, hs⟩
  rcases hcase with ⟨np, rfl, hc⟩ | ⟨-, hf⟩
  · exact ⟨_, s, np, s', hboot, hs, hrun, hc⟩
  · exfalso
    rcases hcase₂ with ⟨np, -, hc⟩ | ⟨-, -, hfull | hshort⟩
    · have := hf.slots np
      rw [hc.slot.1, hc.slot.2] at this
      exact absurd this (by decide)
    · obtain ⟨q, hq⟩ := exists_ne s.mach.initproc
      exact hfull q (h₀.alone q hq)
    · rw [h₀.size] at hshort
      exact absurd (hl.trans hshort) (by decide)

end Xv6.Vm
