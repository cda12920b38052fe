import Xv6.Lib.Runs

/-!
# Sleeping and waking up under a lock

Processes share data behind one lock.  Each of them is at a location `l : L` of its
code; the section there runs from taking the lock to giving it up, and ends by
releasing the lock or by going to sleep on a channel, after waking the sleepers of
some channels.  Going to sleep gives the lock up in one step: the sleeper is marked
before anyone else can wake it.

Any process may be killed at any time, which wakes it, and a process that is not in a
section may start what `calls` allows it.

`Waits W` says that whoever sleeps on a channel has reason to: the condition `W` of
the channel holds.  `Waits.run` reduces it to the sections: who parks has a reason, and
who takes a reason away wakes the channel.
-/

namespace Conc

/-- How a section ends. -/
structure Turn (χ L : Type) where
  /-- channels whose sleepers it woke -/
  wakes : List χ
  /-- the channel it sleeps on, `none` if it released the lock -/
  parks : Option χ
  /-- where its process goes on -/
  next : L
deriving DecidableEq

structure Monitor (χ L σ ε : Type) where
  /-- the section at a location, run by a process that was killed or not -/
  code : Bool → L → σ → Res ε (Turn χ L) σ
  /-- what a process may start by itself -/
  calls : L → L → Bool

/-- The shared data and its processes. -/
structure Procs (P χ L σ : Type) where
  data : σ
  loc : P → L
  asleep : P → Option χ
  killed : P → Bool

inductive Act (P L : Type) where
  | run (p : P)
  | call (p : P) (l : L)
  | kill (p : P)

variable {P χ L σ ε : Type}

def wake [DecidableEq χ] (cs : List χ) (asleep : P → Option χ) (p : P) : Option χ :=
  (asleep p).filter fun c => decide (c ∉ cs)

theorem wake_eq_some [DecidableEq χ] {cs : List χ} {asleep : P → Option χ} {p : P} {c : χ} :
    wake cs asleep p = some c ↔ asleep p = some c ∧ c ∉ cs := by
  simp [wake, Option.filter_eq_some_iff]

namespace Monitor

variable [DecidableEq P] [DecidableEq χ] {M : Monitor χ L σ ε}

def step (M : Monitor χ L σ ε) (s : Procs P χ L σ) : Act P L → Res ε Unit (Procs P χ L σ)
  | .run p =>
    if s.asleep p = none then
      (M.code (s.killed p) (s.loc p) s.data).bind fun t d => .ok () { s with
        data := d
        loc := Function.update s.loc p t.next
        asleep := Function.update (wake t.wakes s.asleep) p t.parks }
    else .sleep
  | .call p l =>
    if s.asleep p = none ∧ M.calls (s.loc p) l = true then
      .ok () { s with loc := Function.update s.loc p l }
    else .sleep
  | .kill p => .ok () { s with
      killed := Function.update s.killed p true
      asleep := Function.update s.asleep p none }

theorem step_cases {s s' : Procs P χ L σ} {a : Act P L} (h : M.step s a = .ok () s') :
    (∃ p t d, a = .run p ∧ s.asleep p = none ∧
      M.code (s.killed p) (s.loc p) s.data = .ok t d ∧ s' = { s with
        data := d
        loc := Function.update s.loc p t.next
        asleep := Function.update (wake t.wakes s.asleep) p t.parks }) ∨
    (∃ p l, a = .call p l ∧ s.asleep p = none ∧ M.calls (s.loc p) l = true ∧
      s' = { s with loc := Function.update s.loc p l }) ∨
    (∃ p, a = .kill p ∧ s' = { s with
      killed := Function.update s.killed p true
      asleep := Function.update s.asleep p none }) := by
  cases a with
  | run p =>
    simp only [step] at h
    split at h
    · next hp =>
      obtain ⟨t, d, hc, h⟩ := Res.bind_eq_ok.1 h
      cases h
      exact Or.inl ⟨p, t, d, rfl, hp, hc, rfl⟩
    · cases h
  | call p l =>
    simp only [step] at h
    split at h
    · next hp =>
      cases h
      exact Or.inr (Or.inl ⟨p, l, rfl, hp.1, hp.2, rfl⟩)
    · cases h
  | kill p =>
    cases h
    exact Or.inr (Or.inr ⟨p, rfl, rfl⟩)

end Monitor

/-! ## Reasons to sleep -/

/-- Whoever sleeps on a channel has reason to. -/
def Waits (W : χ → σ → Prop) (s : Procs P χ L σ) : Prop :=
  ∀ p c, s.asleep p = some c → W c s.data

namespace Waits

variable [DecidableEq P] {W : χ → σ → Prop} {s : Procs P χ L σ}

/-- After a section: its process has a reason if it sleeps, and it woke every channel that is slept
on and whose reason it took away. -/
theorem run [DecidableEq χ] (h : Waits W s) (p : P) {t : Turn χ L} {d : σ} (hpark : ∀ c, t.parks = some c → W c d)
    (hkeep : ∀ q c, s.asleep q = some c → W c s.data → W c d ∨ c ∈ t.wakes) :
    Waits W { s with
      data := d
      loc := Function.update s.loc p t.next
      asleep := Function.update (wake t.wakes s.asleep) p t.parks } := by
  intro q c hq
  dsimp only at hq ⊢
  by_cases hqp : q = p
  · rw [hqp, Function.update_self] at hq
    exact hpark c hq
  · rw [Function.update_of_ne hqp] at hq
    obtain ⟨hq, hc⟩ := wake_eq_some.1 hq
    exact (hkeep q c hq (h q c hq)).resolve_right hc

theorem call (h : Waits W s) (p : P) (l : L) :
    Waits W { s with loc := Function.update s.loc p l } := h

theorem kill (h : Waits W s) (p : P) :
    Waits W { s with
      killed := Function.update s.killed p true
      asleep := Function.update s.asleep p none } := by
  intro q c hq
  dsimp only at hq ⊢
  by_cases hqp : q = p
  · rw [hqp, Function.update_self] at hq
    cases hq
  · rw [Function.update_of_ne hqp] at hq
    exact h q c hq

end Waits

/-- A system whose processes are all at `l`, awake. -/
def Procs.init (d : σ) (l : L) : Procs P χ L σ := ⟨d, fun _ => l, fun _ => none, fun _ => false⟩

theorem Waits.init {W : χ → σ → Prop} {d : σ} {l : L} : Waits W (Procs.init d l : Procs P χ L σ) := by
  intro p c h
  cases h

end Conc
