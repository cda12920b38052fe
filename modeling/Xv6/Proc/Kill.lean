import Xv6.Proc.Reap

/-!
# `kill` and slots without a process

`kill` compares the argument with the `pid` of every slot, whatever its state, and
`allocproc` leaves `p->killed` as it is.  A slot that was never used or whose process was
reaped has the `pid` 0, and one that `fork` gave back keeps the `pid` of the failed child.
So `kill(0)` marks an UNUSED slot, returns 0, and the next `fork` makes a killed process.

This does not happen as long as `kill` is not given the `pid` of a slot that has no process
yet: `KillsProcess`.
-/

namespace Xv6

open Bytes Conc

/-- No slot without a process has this process id. -/
def Ptable.PidUsed (t : Ptable) (pid : Word) : Prop :=
  ∀ p, (t.proc p).pid = pid → ¬(t.proc p).state.Vacant

namespace ProcSys

variable {C : Type} {m m' : ProcSys C} {e : ProcEvent C}

/-- `kill` is not called with the process id of a slot without a process. -/
def KillsProcess (m : ProcSys C) (e : ProcEvent C) : Prop :=
  ∀ c pid, e = .proc c (.kill pid) → m.table.PidUsed pid

/-- No slot without a process is marked as killed. -/
def Unmarked (m : ProcSys C) : Prop :=
  ∀ p, (m.table.proc p).state.Vacant → (m.table.proc p).killed = false

theorem Unmarked.step (h : Unmarked m) (hc : Ctl m) (hk : KillsProcess m e) (hst : Step m e m') :
    Unmarked m' := by
  -- a slot without a process had none before, or `wait` freed it
  have hvacant : ∀ q, (m'.table.proc q).state.Vacant →
      (m.table.proc q).state.Vacant ∨ (m'.table.proc q).killed = false := by
    intro q hq
    cases hst.change with
    | calm slots doing exits reaped next =>
      rw [ProcState.vacant_iff] at hq ⊢
      exact Or.inl fun hu => hq ((slots q).used.2 hu)
    | fork c p np x d alive doing vacant only proc new slot self others exits reaped =>
      by_cases hqn : q = np
      · exact Or.inl (hqn ▸ vacant)
      · rw [proc, Function.update_of_ne hqn] at hq
        exact Or.inl hq
    | reap c p z cpu child zombie off slots free doing exits reaped next =>
      by_cases hqz : q = z
      · exact Or.inr (hqz ▸ free.2.2)
      · rw [ProcState.vacant_iff] at hq ⊢
        exact Or.inl fun hu => hq ((slots q hqz).used.2 hu)
    | exit c p event running state doing table left others exits reaped =>
      have hqp : q ≠ p := by
        rintro rfl
        rw [left.zombie] at hq
        exact absurd hq (by decide)
      rcases left.state q hqp with hs | ⟨-, hs⟩ <;> rw [hs] at hq
      · exact Or.inl hq
      · exact absurd hq (by decide)
  intro q hq
  by_contra hkilled
  have hv := (hvacant q hq).resolve_right hkilled
  rcases hst.killed q (by simpa using hkilled) with hold | ⟨c, -, hrun⟩ | ⟨c, pid, he, hpid⟩
  · rw [h q hv] at hold
    cases hold
  · rw [(hc.running q).2 ⟨c, (running_eq hrun).1⟩] at hv
    exact absurd hv (by decide)
  · exact hk c pid he q hpid hv

/-- What `kill` does in a table: it finds a process with this id, or there is none. -/
theorem kill_spec {t : Ptable} {pid : Word} (h : t.PidUsed pid) :
    ((t.kill pid).1 = 0 ↔ ∃ p, (t.proc p).state ≠ .unused ∧ (t.proc p).pid = pid) ∧
    (((t.kill pid).1 = 0 ∧ ∃ p, (t.proc p).state ≠ .unused ∧ (t.proc p).pid = pid ∧
        ((t.kill pid).2.proc p).killed = true ∧
        ∀ q, q ≠ p → (t.kill pid).2.proc q = t.proc q) ∨
      t.kill pid = (-1, t)) := by
  obtain ⟨hkill, hnone⟩ | ⟨p, hpid, hkill⟩ := t.kill_cases pid
  · refine ⟨?_, Or.inr hkill⟩
    rw [hkill]
    refine iff_of_false (by simp) ?_
    rintro ⟨p, -, hp⟩
    exact hnone p hp
  · have hlive : (t.proc p).state ≠ .unused := fun hu => h p hpid (Or.inl hu)
    refine ⟨?_, Or.inl ⟨by rw [hkill], p, hlive, hpid, by rw [hkill, Ptable.proc_set], fun q hq => ?_⟩⟩
    · rw [hkill]
      exact iff_of_true rfl ⟨p, hlive, hpid⟩
    · rw [hkill, Ptable.proc_set_ne _ hq]

variable [DecidableEq C]

/-- In a run in which `kill` is never given the process id of a slot without a process, it returns 0
exactly when some slot in use has the id, it marks such a slot and no other, and no process is
born killed. -/
theorem kill_marks_process (h : Reaches (ProcSys.step (C := C)) KillsProcess boot m) :
    (∀ c pid, KillsProcess m (.proc c (.kill pid)) →
      ((m.table.kill pid).1 = 0 ↔
        ∃ p, (m.table.proc p).state ≠ .unused ∧ (m.table.proc p).pid = pid) ∧
      (((m.table.kill pid).1 = 0 ∧ ∃ p, (m.table.proc p).state ≠ .unused ∧
          (m.table.proc p).pid = pid ∧ ((m.table.kill pid).2.proc p).killed = true ∧
          ∀ q, q ≠ p → (m.table.kill pid).2.proc q = m.table.proc q) ∨
        m.table.kill pid = (-1, m.table))) ∧
    ∀ np t, m.table.allocproc = some (np, t) → (t.proc np).killed = false := by
  have hinv : Ctl m ∧ Fam m ∧ Unmarked m := by
    refine h.inv (I := fun m => Ctl m ∧ Fam m ∧ Unmarked m) ?_ ?_
    · refine ⟨boot_inv.1, boot_inv.2.1, fun p _ => ?_⟩
      have huserinit : ∀ p, (Ptable.userinit.proc p).killed = false := by decide
      exact huserinit p
    · rintro s e s' ⟨hc, hf, hu⟩ hk hst
      obtain ⟨hc', hst⟩ := step_sound hc hf hst
      exact ⟨hc', hf.step hst, hu.step hc hk hst⟩
  refine ⟨fun c pid hk => kill_spec (hk c pid rfl), fun np t halloc => ?_⟩
  obtain ⟨hunused, rfl⟩ := Ptable.allocproc_some halloc
  show ((m.table.set np _).proc np).killed = false
  rw [Ptable.proc_set]
  exact hinv.2.2 np (Or.inl hunused)

/-- The first process may kill itself, and its next child is not killed. -/
theorem kill_marks_process_init : ∃ m : ProcSys Unit, Reaches ProcSys.step KillsProcess boot m ∧
    KillsProcess m (.proc () (.kill 1)) ∧ (m.table.kill 1).1 = 0 ∧
    ∀ np t, m.table.allocproc = some (np, t) → (t.proc np).killed = false := by
  obtain ⟨m, hrun, hused, hpid, hstate⟩ : ∃ m : ProcSys Unit,
      Reaches ProcSys.step KillsProcess boot m ∧
      (∀ p, (m.table.proc p).pid = 1 → ¬(m.table.proc p).state.Vacant) ∧
      (m.table.proc 0).pid = 1 ∧ (m.table.proc 0).state = .running :=
    ⟨_, .tail (.tail (.tail .refl ⟨.acquire (), nofun, rfl⟩) ⟨.scan (), nofun, rfl⟩)
      ⟨.resume (), nofun, rfl⟩, by decide, rfl, rfl⟩
  have hkill : KillsProcess m (.proc () (.kill 1)) := by
    rintro c pid h
    cases h
    exact hused
  obtain ⟨hspec, hborn⟩ := kill_marks_process hrun
  exact ⟨m, hrun, hkill, (hspec () 1 hkill).1.2 ⟨0, by simp [hstate], hpid⟩, hborn⟩

/-- `kill(0)` by the first process returns 0 although only UNUSED slots have the process id 0, and
the slot that `allocproc` hands out next is marked as killed. -/
theorem kill_zero_marks_unused : ∃ m : ProcSys Unit, Reaches ProcSys.step anyEvent boot m ∧
    (m.table.kill 0).1 = 0 ∧
    (∀ p, (m.table.proc p).pid = 0 → (m.table.proc p).state = .unused) ∧
    ∃ m', m.step (.proc () (.kill 0)) = .ok () m' ∧
      ∃ np t, m'.table.allocproc = some (np, t) ∧ (t.proc np).killed = true := by
  have hrun : Reaches ProcSys.step anyEvent (boot : ProcSys Unit) _ :=
    .tail (.tail (.tail .refl ⟨.acquire (), trivial, rfl⟩) ⟨.scan (), trivial, rfl⟩)
      ⟨.resume (), trivial, rfl⟩
  exact ⟨_, hrun, rfl, by decide, _, rfl, 1, _, rfl, rfl⟩

end ProcSys

end Xv6
