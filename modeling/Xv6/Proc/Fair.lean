import Xv6.Proc.Steps

/-!
# The scheduler overlooks nobody

`scheduler()` goes round the process table.  While a process is RUNNABLE and no CPU has switched to it,
a CPU can switch to every other process at most once: its loop comes to the waiting process before it
comes to another one again.  `SchedPos.gone p` counts the slots that a scheduler has passed since it was
at slot `p`; it grows with every slot, and the slots switched to on the way have different counts.
-/

namespace Xv6

open Conc

/-- The slot that the loop of `scheduler` is at, or comes to next. -/
def SchedPos.next : SchedPos → Nat
  | .idle => 0
  | .scan i => i
  | .away p => p.1 + 1
  | .back p => p.1 + 1

/-- The slots passed since slot `p`. -/
def SchedPos.gone (p : Pid) (x : SchedPos) : Nat := (min x.next NPROC + (NPROC - 1 - p.1)) % NPROC

namespace ProcSys

variable {C : Type} [DecidableEq C] {m m' : ProcSys C} {e : ProcEvent C} {p : Pid}

/-- The process that the scheduler of a CPU switches to in a step. -/
def chosen (c : C) (m m' : ProcSys C) : Option Pid :=
  match (m.cpu c).sched, (m'.cpu c).sched with
  | .scan _, .away q => some q
  | _, _ => none

/-- The processes that the scheduler of a CPU switches to in a run, in order. -/
def switches (c : C) : ProcSys C → List (ProcEvent C) → List Pid
  | _, [] => []
  | m, e :: es =>
    match m.step e with
    | .ok _ m' => (chosen c m m').toList ++ switches c m' es
    | _ => []

def staysRunnable (p : Pid) : ProcSys C → List (ProcEvent C) → Bool
  | m, [] => (m.table.proc p).state = .runnable
  | m, e :: es => (m.table.proc p).state = .runnable &&
    match m.step e with
    | .ok _ m' => staysRunnable p m' es
    | _ => true

/-! ### What a step does to the schedulers -/

/-- The step switches at most from process `p` to the scheduler of its CPU. -/
def Leaves (c : C) (p : Pid) (m m' : ProcSys C) : Prop :=
  m'.cpu = m.cpu ∨ m'.cpu = Function.update m.cpu c { m.cpu c with sched := .back p }

theorem leaves_waitLoop (c : C) (p : Pid) (m : ProcSys C) : Leaves c p m (m.waitLoop c p) := by
  unfold waitLoop
  split
  · exact Or.inl rfl
  · exact Or.inl rfl
  · exact Or.inr rfl

theorem leaves_resumeStep {c : C} {pt : Option Parked} (h : m.resumeStep c p pt = .ok () m') :
    Leaves c p m m' := by
  unfold resumeStep at h
  split at h <;> cases h
  · exact Or.inl rfl
  · exact Or.inl rfl
  · exact Or.inl rfl
  · exact leaves_waitLoop c p { m with table := m.table.set p { m.table.proc p with chan := none } }

theorem leaves_procStep {c : C} {a : ProcAct} (h : m.procStep c p a = .ok () m') : Leaves c p m m' := by
  cases a <;> simp only [procStep] at h
  case wait =>
    split at h <;> cases h
    exact leaves_waitLoop c p m
  all_goals
    repeat' split at h
    all_goals first
      | cases h; exact Or.inl rfl
      | cases h; exact Or.inr rfl
      | cases h

theorem sched_cases (h : m.step e = .ok () m') (c : C) :
    ((m'.cpu c).sched.next = (m.cpu c).sched.next ∧ chosen c m m' = none) ∨
    (∃ i, (m.cpu c).sched = .scan i ∧ NPROC ≤ i ∧ (m'.cpu c).sched = .idle) ∨
    ∃ q : Pid, (m.cpu c).sched = .scan q.1 ∧
      (((m.table.proc q).state ≠ .runnable ∧ (m'.cpu c).sched = .scan (q.1 + 1)) ∨
        ((m'.table.proc q).state = .running ∧ (m'.cpu c).sched = .away q)) := by
  have hsame : m'.cpu c = m.cpu c →
      (m'.cpu c).sched.next = (m.cpu c).sched.next ∧ chosen c m m' = none := by
    intro hc
    refine ⟨by rw [hc], ?_⟩
    simp only [chosen, hc]
    split <;> simp_all
  have hleave : ∀ {d : C} {q : Pid}, (m.cpu d).sched = .away q → Leaves d q m m' →
      (m'.cpu c).sched.next = (m.cpu c).sched.next ∧ chosen c m m' = none := by
    intro d q hd hl
    rcases hl with hl | hl
    · exact hsame (by rw [hl])
    · rcases eq_or_ne c d with rfl | hne
      · simp [hl, hd, SchedPos.next, chosen]
      · exact hsame (by rw [hl, Function.update_of_ne hne])
  cases e with
  | acquire d =>
    simp only [step] at h
    split at h <;> cases h
    next hidle =>
      rcases eq_or_ne c d with rfl | hne
      · exact Or.inl (by simp [setCpu, hidle.2, SchedPos.next, chosen])
      · exact Or.inl (hsame (by simp [setCpu, hne]))
  | scan d =>
    simp only [step] at h
    split at h
    · next i hi =>
      rcases eq_or_ne c d with rfl | hne
      · unfold scanStep at h
        split at h
        · next hlt =>
          refine Or.inr (Or.inr ⟨⟨i, hlt⟩, hi, ?_⟩)
          simp only at h
          repeat' split at h
          all_goals cases h
          · next hstate => exact Or.inl ⟨hstate, by simp [setCpu]⟩
          · exact Or.inr (by simp [setCpu, Ptable.set])
        · next hge =>
          cases h
          exact Or.inr (Or.inl ⟨i, hi, by omega, by simp [setCpu]⟩)
      · refine Or.inl (hsame ?_)
        unfold scanStep at h
        simp only at h
        repeat' split at h
        all_goals cases h
        all_goals simp [setCpu, hne]
    · cases h
  | back d =>
    simp only [step] at h
    split at h <;> cases h
    next q hq =>
      rcases eq_or_ne c d with rfl | hne
      · exact Or.inl (by simp [setCpu, hq, SchedPos.next, chosen])
      · exact Or.inl (hsame (by simp [setCpu, hne]))
  | resume d =>
    simp only [step] at h
    split at h
    · next q hq => exact Or.inl (hleave hq (leaves_resumeStep h))
    · cases h
  | wakeup d chan =>
    simp only [step] at h
    split at h <;> cases h
    exact Or.inl (hsame rfl)
  | proc d a =>
    simp only [step] at h
    split at h
    · next q hq => exact Or.inl (hleave (running_eq hq).1 (leaves_procStep h))
    · cases h

/-! ### A waiting process -/

/-- While `p` waits, a scheduler goes on towards it; a process that it switches to is the one that it
has come to. -/
theorem gone_step (h : m.step e = .ok () m') (c : C) (hp : (m.table.proc p).state = .runnable)
    (hp' : (m'.table.proc p).state = .runnable) :
    (chosen c m m' = none ∧ (m.cpu c).sched.gone p ≤ (m'.cpu c).sched.gone p) ∨
    ∃ q, chosen c m m' = some q ∧ (SchedPos.scan q.1).gone p = (m.cpu c).sched.gone p ∧
      (m'.cpu c).sched.gone p = (m.cpu c).sched.gone p + 1 := by
  -- past any slot but that of `p` the count grows by one
  have hnext : ∀ q : Pid, q ≠ p → ∀ x : SchedPos, x.next = q.1 + 1 →
      x.gone p = (SchedPos.scan q.1).gone p + 1 := by
    intro q hne x hx
    have hq := q.2
    have hp := p.2
    have hv : q.1 ≠ p.1 := fun h => hne (Fin.ext h)
    simp only [SchedPos.gone, SchedPos.next, NPROC] at *
    omega
  rcases sched_cases h c with ⟨hsame, hno⟩ | ⟨i, hi, hle, hidle⟩ | ⟨q, hq, ⟨hstate, hs⟩ | ⟨hstate, hs⟩⟩
  · exact Or.inl ⟨hno, by simp [SchedPos.gone, hsame]⟩
  · refine Or.inl ⟨by simp [chosen, hi, hidle], ?_⟩
    simp only [hi, hidle, SchedPos.gone, SchedPos.next, NPROC] at *
    omega
  · have hne : q ≠ p := fun h => hstate (h ▸ hp)
    refine Or.inl ⟨by simp [chosen, hq, hs], ?_⟩
    rw [hs, hq, hnext q hne (.scan (q.1 + 1)) rfl]
    omega
  · have hne : q ≠ p := by
      rintro rfl
      rw [hp'] at hstate
      cases hstate
    refine Or.inr ⟨q, by simp [chosen, hq, hs], by rw [hq], ?_⟩
    rw [hs, hq, hnext q hne (.away q) rfl]

theorem gone_lt (p : Pid) (x : SchedPos) : x.gone p < NPROC := Nat.mod_lt _ (by decide)

theorem runnable_of_stays {es : List (ProcEvent C)} (h : staysRunnable p m es = true) :
    (m.table.proc p).state = .runnable := by
  cases es with
  | nil => exact of_decide_eq_true h
  | cons e es => exact of_decide_eq_true (Bool.and_eq_true_iff.1 h).1

theorem switches_gone (c : C) (es : List (ProcEvent C)) (h : staysRunnable p m es = true) :
    ((switches c m es).map fun q => (SchedPos.scan q.1).gone p).Pairwise (· < ·) ∧
    ∀ q ∈ switches c m es, (m.cpu c).sched.gone p ≤ (SchedPos.scan q.1).gone p ∧ q ≠ p := by
  induction es generalizing m with
  | nil => simp [switches]
  | cons e es ih =>
    have hp := runnable_of_stays h
    have hrest := (Bool.and_eq_true_iff.1 h).2
    unfold switches
    cases hst : m.step e with
    | panic => simp
    | sleep => simp
    | ok _ m' =>
      simp only [hst] at hrest
      obtain ⟨hpair, hall⟩ := ih hrest
      rcases gone_step hst c hp (runnable_of_stays hrest) with ⟨hno, hle⟩ | ⟨q, hq, hgone, hnext⟩
      · simp only [hno, Option.toList_none, List.nil_append]
        exact ⟨hpair, fun q hmem => ⟨hle.trans (hall q hmem).1, (hall q hmem).2⟩⟩
      · simp only [hq, Option.toList_some, List.singleton_append, List.map_cons, List.pairwise_cons,
          List.mem_map, List.mem_cons, forall_exists_index, and_imp, forall_apply_eq_imp_iff₂,
          forall_eq_or_imp]
        refine ⟨⟨fun r hr => ?_, hpair⟩, ⟨hgone.ge, ?_⟩, fun r hr => ⟨?_, (hall r hr).2⟩⟩
        · have := (hall r hr).1
          omega
        · -- slot `p` is the last one on the way
          rintro rfl
          have hlt := gone_lt q (m'.cpu c).sched
          have hq := q.2
          simp only [SchedPos.gone, SchedPos.next, NPROC] at *
          omega
        · have := (hall r hr).1
          omega

/-- While a process is RUNNABLE and waits, the scheduler of a CPU switches to no other process twice, so
to fewer than NPROC of them. -/
theorem scheduler_overlooks_nobody (c : C) (es : List (ProcEvent C)) (h : staysRunnable p m es = true) :
    (switches c m es).Nodup ∧ p ∉ switches c m es ∧ (switches c m es).length < NPROC := by
  obtain ⟨hpair, hall⟩ := switches_gone c es h
  have hnodup : (switches c m es).Nodup := List.Nodup.of_map _ (hpair.imp Nat.ne_of_lt)
  have hp : p ∉ switches c m es := fun hmem => (hall p hmem).2 rfl
  have hlen := (List.nodup_cons.2 ⟨hp, hnodup⟩).length_le_card
  rw [List.length_cons, Fintype.card_fin] at hlen
  exact ⟨hnodup, hp, hlen⟩

/-- The first process forks and gives up its CPU, and its child does so too; then the scheduler goes round
the table.  The first process waits, from its `yield` on. -/
def oneRound : List (ProcEvent Unit) :=
  [.back (), .scan (), .resume (), .proc () .yield, .back ()] ++ List.replicate 63 (.scan ()) ++ [.acquire ()]

theorem scheduler_overlooks_nobody_init : ∃ m : ProcSys Unit,
    exec step boot [.acquire (), .scan (), .resume (), .proc () .forkAlloc, .proc () (.forkStack true),
      .proc () (.forkCopy true), .proc () .forkReady, .proc () .yield] = .ok () m ∧
    staysRunnable initslot m oneRound = true ∧ switches () m oneRound = [1] ∧
    (switches () m oneRound).Nodup := by
  have h : ((exec step (boot : ProcSys Unit) [.acquire (), .scan (), .resume (), .proc () .forkAlloc,
      .proc () (.forkStack true), .proc () (.forkCopy true), .proc () .forkReady, .proc () .yield]).bind
      fun _ m => (.ok (staysRunnable initslot m oneRound && decide (switches () m oneRound = [1])) () :
        Res SchedPanic Bool Unit)) = .ok true () := by
    decide +kernel
  obtain ⟨_, m, hm, ht⟩ := Res.bind_eq_ok.1 h
  simp only [Res.ok.injEq, Bool.and_eq_true, decide_eq_true_eq, and_true] at ht
  exact ⟨m, hm, ht.1, ht.2, (scheduler_overlooks_nobody () oneRound ht.1).1⟩

end ProcSys

end Xv6
