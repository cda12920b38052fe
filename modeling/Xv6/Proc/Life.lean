import Xv6.Proc.Sched

/-!
# The life cycle of a process

Two invariants of the process system: which CPU runs which process and who holds
`ptable.lock` (`Ctl`), and who is the parent of whom (`Fam`).
-/

namespace Xv6

open Bytes Conc

namespace ProcState

/-- SLEEPING, RUNNABLE or RUNNING. -/
def Alive (st : ProcState) : Prop := st = .sleeping ∨ st = .runnable ∨ st = .running

/-- Alive, or ZOMBIE. -/
def Used (st : ProcState) : Prop := st.Alive ∨ st = .zombie

/-- UNUSED or EMBRYO: a slot without a process. -/
def Vacant (st : ProcState) : Prop := st = .unused ∨ st = .embryo

instance (st : ProcState) : Decidable st.Alive := inferInstanceAs (Decidable (_ ∨ _))

instance (st : ProcState) : Decidable st.Used := inferInstanceAs (Decidable (_ ∨ _))

instance (st : ProcState) : Decidable st.Vacant := inferInstanceAs (Decidable (_ ∨ _))

/-- The state, with those in which a process is alive taken together. -/
def kind : ProcState → ProcState
  | .sleeping => .running
  | .runnable => .running
  | st => st

variable {st : ProcState}

theorem alive_iff : st.Alive ↔ st.kind = .running := by cases st <;> decide

theorem used_iff : st.Used ↔ ¬ st.kind.Vacant := by cases st <;> decide

theorem vacant_iff : st.Vacant ↔ ¬ st.Used := by cases st <;> decide

theorem is_of_kind {st' x : ProcState} (h : st'.kind = st.kind) (hx : ¬ x.Alive) : st' = x ↔ st = x := by
  revert h hx
  cases x <;> cases st <;> cases st' <;> decide

end ProcState

namespace ProcSys

variable {C : Type} {m m' : ProcSys C}

/-! ## CPUs and the lock -/

/-- CPU `c` is at a place where it holds the lock. -/
def Holds (m : ProcSys C) (c : C) : Prop :=
  match (m.cpu c).sched with
  | .idle => False
  | .scan _ => True
  | .back _ => True
  | .away p => (m.thread p).parked ≠ none

structure Ctl (m : ProcSys C) : Prop where
  proc : ∀ c p, (m.cpu c).proc = some p ↔ (m.cpu c).sched = .away p ∨ (m.cpu c).sched = .back p
  held : ∀ c, m.Holds c → m.lock = some c
  running : ∀ p, (m.table.proc p).state = .running ↔ ∃ c, (m.cpu c).sched = .away p
  uniq : ∀ c c' p, (m.cpu c).sched = .away p → (m.cpu c').sched = .away p → c = c'

namespace Ctl

theorem quiet (h : Ctl m) (hcpu : m'.cpu = m.cpu) (hlock : m'.lock = m.lock)
    (hparked : ∀ c p, (m.cpu c).sched = .away p → (m'.thread p).parked = (m.thread p).parked)
    (hrun : ∀ p, (m'.table.proc p).state = .running ↔ (m.table.proc p).state = .running) :
    Ctl m' := by
  refine ⟨fun c p => ?_, fun c hc => ?_, fun p => ?_, fun c c' p => ?_⟩
  · rw [hcpu]
    exact h.proc c p
  · rw [hlock]
    refine h.held c ?_
    unfold Holds at hc ⊢
    rw [hcpu] at hc
    cases hs : (m.cpu c).sched with
    | away p =>
      rw [hs] at hc
      dsimp only at hc ⊢
      rwa [hparked c p hs] at hc
    | idle => rwa [hs] at hc
    | scan i => trivial
    | back p => trivial
  · rw [hrun, hcpu]
    exact h.running p
  · rw [hcpu]
    exact h.uniq c c' p

theorem move [DecidableEq C] (h : Ctl m) (c : C) (x : Cpu) (hx : m'.cpu = Function.update m.cpu c x)
    (hproc : ∀ p, x.proc = some p ↔ x.sched = .away p ∨ x.sched = .back p)
    (hself : x.sched = .idle ∨ (∃ p, x.sched = .away p ∧ (m'.thread p).parked = none) ∨
      m'.lock = some c)
    (hparked : ∀ c' p, c' ≠ c → (m.cpu c').sched = .away p →
      (m'.thread p).parked ≠ none → (m.thread p).parked ≠ none)
    (hlock : m.lock = none ∨ m.lock = some c)
    (hrun : ∀ p, (m'.table.proc p).state = .running ↔ x.sched = .away p ∨
      ((m.table.proc p).state = .running ∧ (m.cpu c).sched ≠ .away p))
    (hnew : ∀ p, x.sched = .away p →
      (m.cpu c).sched = .away p ∨ (m.table.proc p).state ≠ .running) :
    Ctl m' := by
  have hc : m'.cpu c = x := by rw [hx, Function.update_self]
  have hcpu : ∀ c', c' ≠ c → m'.cpu c' = m.cpu c' := by
    intro c' hc'
    rw [hx, Function.update_of_ne hc']
  have hne : ∀ c' p, c' ≠ c → x.sched = .away p → (m.cpu c').sched ≠ .away p := by
    intro c' p hc' hp hp'
    rcases hnew p hp with h' | h'
    · exact hc' (h.uniq c' c p hp' h')
    · exact h' ((h.running p).2 ⟨c', hp'⟩)
  refine ⟨fun c' p => ?_, fun c' hold => ?_, fun p => ?_, fun c₁ c₂ p h₁ h₂ => ?_⟩
  · by_cases hc' : c' = c
    · rw [hc', hc]
      exact hproc p
    · rw [hcpu c' hc']
      exact h.proc c' p
  · unfold Holds at hold
    by_cases hc' : c' = c
    · rw [hc', hc] at hold
      rw [hc']
      rcases hself with hs | ⟨p, hs, hp⟩ | hl
      · rw [hs] at hold
        exact hold.elim
      · rw [hs] at hold
        exact absurd hp hold
      · exact hl
    · -- another CPU cannot be at such a place
      rw [hcpu c' hc'] at hold
      have hheld : m.lock = some c' := by
        refine h.held c' ?_
        unfold Holds
        cases hs : (m.cpu c').sched with
        | away p =>
          rw [hs] at hold
          exact hparked c' p hc' hs hold
        | idle => rwa [hs] at hold
        | scan i => trivial
        | back p => trivial
      rcases hlock with hl | hl
      · rw [hl] at hheld
        cases hheld
      · rw [hl, Option.some.injEq] at hheld
        exact absurd hheld.symm hc'
  · rw [hrun]
    constructor
    · rintro (hp | ⟨hp, hnot⟩)
      · exact ⟨c, by rw [hc]; exact hp⟩
      · obtain ⟨c', hc'⟩ := (h.running p).1 hp
        have hcc : c' ≠ c := by
          rintro rfl
          exact hnot hc'
        exact ⟨c', by rw [hcpu c' hcc]; exact hc'⟩
    · rintro ⟨c', hc'⟩
      by_cases hcc : c' = c
      · rw [hcc, hc] at hc'
        exact Or.inl hc'
      · rw [hcpu c' hcc] at hc'
        exact Or.inr ⟨(h.running p).2 ⟨c', hc'⟩, fun hp => hcc (h.uniq c' c p hc' hp)⟩
  · by_cases hc₁ : c₁ = c
    · by_cases hc₂ : c₂ = c
      · rw [hc₁, hc₂]
      · rw [hc₁, hc] at h₁
        rw [hcpu c₂ hc₂] at h₂
        exact absurd h₂ (hne c₂ p hc₂ h₁)
    · rw [hcpu c₁ hc₁] at h₁
      by_cases hc₂ : c₂ = c
      · rw [hc₂, hc] at h₂
        exact absurd h₁ (hne c₁ p hc₁ h₂)
      · rw [hcpu c₂ hc₂] at h₂
        exact h.uniq c₁ c₂ p h₁ h₂

theorem lock_of_hold (h : Ctl m) {c : C} {p : Pid} (away : (m.cpu c).sched = .away p)
    (hold : m.lock = none ∨ (m.thread p).parked ≠ none) : m.lock = none ∨ m.lock = some c := by
  refine hold.imp id fun hp => h.held c ?_
  unfold Holds
  rw [away]
  exact hp

theorem release [DecidableEq C] (h : Ctl m) {c : C} {p : Pid} (away : (m.cpu c).sched = .away p)
    (hold : m.lock = none ∨ (m.thread p).parked ≠ none) (hcpu : m'.cpu = m.cpu)
    (hthread : m'.thread = Function.update m.thread p { m.thread p with parked := none })
    (hrun : ∀ q, (m'.table.proc q).state = .running ↔ (m.table.proc q).state = .running) :
    Ctl m' := by
  refine h.move c (m.cpu c) (by rw [hcpu, Function.update_eq_self]) (h.proc c)
    (Or.inr (Or.inl ⟨p, away, by rw [hthread, Function.update_self]⟩)) (fun c' q hc' hq hp => ?_)
    (h.lock_of_hold away hold) (fun q => ?_) fun q hq => Or.inl hq
  · have hqp : q ≠ p := by
      rintro rfl
      exact hc' (h.uniq c' c q hq away)
    rwa [hthread, Function.update_of_ne hqp] at hp
  · rw [hrun]
    constructor
    · intro hq
      by_cases hc : (m.cpu c).sched = .away q
      · exact Or.inl hc
      · exact Or.inr ⟨hq, hc⟩
    · rintro (hq | hq)
      · exact (h.running q).2 ⟨c, hq⟩
      · exact hq.1

theorem sched [DecidableEq C] (h : Ctl m) {c : C} {p : Pid} (away : (m.cpu c).sched = .away p)
    (hold : m.lock = none ∨ (m.thread p).parked ≠ none) {m₁ : ProcSys C} (hcpu : m₁.cpu = m.cpu)
    (hthread : m₁.thread = m.thread) (hp : (m₁.table.proc p).state ≠ .running)
    (hrun : ∀ q, q ≠ p →
      ((m₁.table.proc q).state = .running ↔ (m.table.proc q).state = .running)) (pt : Parked) :
    Ctl (m₁.sched c p pt) := by
  refine h.move c { m.cpu c with sched := .back p } ?_ (fun q => ?_) (Or.inr (Or.inr rfl))
    (fun c' q hc' hq hpark => ?_) (h.lock_of_hold away hold) (fun q => ?_) fun q hq => by cases hq
  · show Function.update m₁.cpu c _ = _
    rw [hcpu]
  · have := h.proc c q
    rw [away] at this
    simpa using this
  · have hqp : q ≠ p := by
      rintro rfl
      exact hc' (h.uniq c' c q hq away)
    have : ((m₁.sched c p pt).thread q) = m.thread q := by
      show Function.update m₁.thread p _ q = _
      rw [Function.update_of_ne hqp, hthread]
    rwa [this] at hpark
  · show (m₁.table.proc q).state = .running ↔ _
    by_cases hqp : q = p
    · subst hqp
      simp [hp, away]
    · rw [hrun q hqp, away]
      simp [Ne.symm hqp]

/-- The scheduler of a CPU goes on, with no process. -/
theorem scheduler [DecidableEq C] (h : Ctl m) (c : C) (x : Cpu)
    (hx : m'.cpu = Function.update m.cpu c x) (hthread : m'.thread = m.thread)
    (htable : m'.table = m.table) (hlock : m.lock = none ∨ m.lock = some c)
    (hoff : ∀ p, (m.cpu c).sched ≠ .away p) (hproc : x.proc = none)
    (hsched : ∀ p, x.sched ≠ .away p ∧ x.sched ≠ .back p)
    (hheld : x.sched = .idle ∨ m'.lock = some c) : Ctl m' := by
  refine h.move c x hx (fun p => ?_) (hheld.imp id Or.inr) (fun _ p _ _ hp => by rwa [hthread] at hp)
    hlock (fun p => ?_) fun p hp => absurd hp (hsched p).1
  · simp [hproc, hsched p]
  · simp [htable, hoff p, (hsched p).1]

theorem proc_none (h : Ctl m) {c : C} (hs : ∀ p, (m.cpu c).sched ≠ .away p ∧ (m.cpu c).sched ≠ .back p) :
    (m.cpu c).proc = none :=
  Option.eq_none_iff_forall_ne_some.2 fun p hp => ((h.proc c p).1 hp).elim (hs p).1 (hs p).2

end Ctl

/-! ## Families -/

structure Fam (m : ProcSys C) : Prop where
  init : (m.table.proc initslot).state.Alive
  parent : ∀ p, p ≠ initslot → (m.table.proc p).state.Used →
    ∃ q, (m.table.proc p).parent = some q ∧ (m.table.proc q).state.Alive
  fork : ∀ p np pos, (m.thread p).doing = .fork np pos →
    (m.table.proc p).state.Alive ∧ (m.table.proc np).state = .embryo ∧
      (pos = .ready → (m.table.proc np).parent = some p)
  forkUniq : ∀ p q np pos pos', (m.thread p).doing = .fork np pos →
    (m.thread q).doing = .fork np pos' → p = q
  exit : ∀ p, (m.thread p).doing = .exit → p ≠ initslot

end ProcSys

end Xv6
