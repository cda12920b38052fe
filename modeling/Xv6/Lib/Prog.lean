import Mathlib.Tactic

/-!
# Programs as sequences of atomic sections

`Prog L ε σ α` is code that runs on a shared state `σ`: it returns, or it does
one atomic section and goes on with that section's answer.  A section is a
function on the state together with a label of `L`, so that properties of the
code can speak of the sections a run goes through.  A section answers, stops the
whole system (`panic`), or cannot go on in this state (`sleep`).

The same program has several readings:

* `run`: alone, from start to end (`trace`: the sections it goes through);
* `Reach`: the states at which a crash can catch it (before, between and after
  its sections);
* `wp E p Q`: the states from which running it alone stops only as `E` allows
  (`some e` is a panic, `none` is sleep), or returns with `Q`.

`run_bind`, `reach_bind` and `wp_bind` reduce each to the parts of a program.
-/

namespace Conc

/-- Outcome of a section or of a program. -/
inductive Res (ε α σ : Type) : Type where
  | ok (a : α) (s : σ)
  | panic (e : ε)
  | sleep
deriving DecidableEq

namespace Res

variable {ε α β σ τ : Type}

def bind (r : Res ε α σ) (f : α → σ → Res ε β τ) : Res ε β τ :=
  match r with
  | ok a s => f a s
  | panic e => panic e
  | sleep => sleep

@[simp] theorem bind_ok (a : α) (s : σ) (f : α → σ → Res ε β τ) : (ok a s).bind f = f a s := rfl

theorem bind_eq_ok {r : Res ε α σ} {f : α → σ → Res ε β τ} {b : β} {t : τ} :
    r.bind f = ok b t ↔ ∃ a s, r = ok a s ∧ f a s = ok b t := by
  cases r <;> simp [bind]

theorem bind_eq_panic {r : Res ε α σ} {f : α → σ → Res ε β τ} {e : ε} :
    r.bind f = panic e ↔ r = panic e ∨ ∃ a s, r = ok a s ∧ f a s = panic e := by
  cases r <;> simp [bind]

/-- The outcome is one that `E` (stops) and `Q` (returns) allow. -/
def Post (E : Option ε → Prop) (Q : α → σ → Prop) : Res ε α σ → Prop
  | ok a s => Q a s
  | panic e => E (some e)
  | sleep => E none

theorem post_bind {E : Option ε → Prop} {r : Res ε α σ} {f : α → σ → Res ε β τ} {Q : β → τ → Prop} :
    (r.bind f).Post E Q ↔ r.Post E fun a s => (f a s).Post E Q := by
  cases r <;> rfl

theorem Post.mono {E : Option ε → Prop} {Q R : α → σ → Prop} {r : Res ε α σ} (h : r.Post E Q)
    (hQR : ∀ a s, Q a s → R a s) : r.Post E R := by
  cases r with
  | ok a s => exact hQR a s h
  | panic e => exact h
  | sleep => exact h

end Res

inductive Prog (L ε σ α : Type) : Type 1 where
  | ret (a : α)
  | atom {β : Type} (l : L) (f : σ → Res ε β σ) (k : β → Prog L ε σ α)

namespace Prog

variable {L ε σ α β γ : Type}

def bind : Prog L ε σ α → (α → Prog L ε σ β) → Prog L ε σ β
  | ret a, g => g a
  | atom l f k, g => atom l f fun b => (k b).bind g

instance : Monad (Prog L ε σ) where
  pure := ret
  bind := bind

/-- The program of a single section. -/
def atomic (l : L) (f : σ → Res ε α σ) : Prog L ε σ α := atom l f ret

/-- Stop the system. -/
def throw (l : L) (e : ε) : Prog L ε σ α := atom l (fun _ => (.panic e : Res ε α σ)) ret

theorem bind_ret (p : Prog L ε σ α) : p.bind ret = p := by
  induction p with
  | ret a => rfl
  | atom l f k ih => simp only [bind, ih]

theorem bind_bind (p : Prog L ε σ α) (g : α → Prog L ε σ β) (h : β → Prog L ε σ γ) :
    (p.bind g).bind h = p.bind fun a => (g a).bind h := by
  induction p with
  | ret a => rfl
  | atom l f k ih => simp only [bind, ih]

instance : LawfulMonad (Prog L ε σ) :=
  LawfulMonad.mk' (Prog L ε σ) (fun p => bind_ret p) (fun _ _ => rfl) fun p g h => bind_bind p g h

/-! ## Running a program alone -/

def run : Prog L ε σ α → σ → Res ε α σ
  | ret a, s => .ok a s
  | atom _ f k, s => (f s).bind fun b s' => (k b).run s'

@[simp] theorem run_pure (a : α) (s : σ) : (pure a : Prog L ε σ α).run s = .ok a s := rfl

@[simp] theorem run_atomic (l : L) (f : σ → Res ε α σ) (s : σ) : (atomic l f).run s = f s := by
  simp only [atomic, run]
  cases f s <;> rfl

@[simp] theorem run_bind (p : Prog L ε σ α) (g : α → Prog L ε σ β) (s : σ) :
    (p >>= g).run s = (p.run s).bind fun a s' => (g a).run s' := by
  show (p.bind g).run s = _
  induction p generalizing s with
  | ret a => rfl
  | atom l f k ih =>
    simp only [bind, run]
    cases f s with
    | ok b s' => simpa using ih b s'
    | panic e => rfl
    | sleep => rfl

theorem run_bind_eq_ok {p : Prog L ε σ α} {g : α → Prog L ε σ β} {s s' : σ} {b : β} :
    (p >>= g).run s = .ok b s' ↔ ∃ a t, p.run s = .ok a t ∧ (g a).run t = .ok b s' := by
  rw [run_bind, Res.bind_eq_ok]

/-- The labels of the sections of the run from `s`, in order. -/
def trace : Prog L ε σ α → σ → List L
  | ret _, _ => []
  | atom l f k, s =>
    l :: match f s with
      | .ok b s' => (k b).trace s'
      | .panic _ => []
      | .sleep => []

theorem trace_bind_of_ok {p : Prog L ε σ α} {g : α → Prog L ε σ β} {s s' : σ} {a : α}
    (h : p.run s = .ok a s') : (p >>= g).trace s = p.trace s ++ (g a).trace s' := by
  show (p.bind g).trace s = _
  induction p generalizing s with
  | ret b =>
    cases h
    rfl
  | atom l f k ih =>
    obtain ⟨b, s₁, hf, hk⟩ := Res.bind_eq_ok.1 h
    simp only [bind, trace, hf, ih b hk, List.cons_append]

theorem mem_trace_bind {p : Prog L ε σ α} {g : α → Prog L ε σ β} {s : σ} {l : L}
    (h : l ∈ p.trace s) : l ∈ (p >>= g).trace s := by
  show l ∈ (p.bind g).trace s
  induction p generalizing s with
  | ret a => exact absurd h List.not_mem_nil
  | atom l' f k ih =>
    simp only [bind, trace, List.mem_cons] at h ⊢
    rcases h with h | h
    · exact Or.inl h
    · right
      cases hf : f s with
      | ok b s' =>
        simp only [hf] at h
        exact ih b h
      | panic e => simp [hf] at h
      | sleep => simp [hf] at h

/-! ## The states a crash can catch -/

/-- `s'` is the state before, between or after the sections of the run from `s`. -/
def Reach : Prog L ε σ α → σ → σ → Prop
  | ret _, s, s' => s' = s
  | atom _ f k, s, s' => s' = s ∨ ∃ b s₁, f s = .ok b s₁ ∧ (k b).Reach s₁ s'

theorem reach_refl (p : Prog L ε σ α) (s : σ) : p.Reach s s := by
  cases p with
  | ret a => rfl
  | atom l f k => exact Or.inl rfl

theorem reach_bind (p : Prog L ε σ α) (g : α → Prog L ε σ β) (s s' : σ) :
    (p >>= g).Reach s s' ↔
      p.Reach s s' ∨ ∃ a s₁, p.run s = .ok a s₁ ∧ (g a).Reach s₁ s' := by
  show (p.bind g).Reach s s' ↔ _
  induction p generalizing s with
  | ret a =>
    constructor
    · intro h
      exact Or.inr ⟨a, s, rfl, h⟩
    · rintro (h | ⟨b, s₁, h, hr⟩)
      · have : s' = s := h
        rw [this]
        exact reach_refl _ _
      · cases h
        exact hr
  | atom l f k ih =>
    simp only [bind, Reach, run, Res.bind_eq_ok]
    constructor
    · rintro (h | ⟨b, s₁, hf, h⟩)
      · exact Or.inl (Or.inl h)
      · rcases (ih b s₁).1 h with h | ⟨a, s₂, hr, h⟩
        · exact Or.inl (Or.inr ⟨b, s₁, hf, h⟩)
        · exact Or.inr ⟨a, s₂, ⟨b, s₁, hf, hr⟩, h⟩
    · rintro ((h | ⟨b, s₁, hf, h⟩) | ⟨a, s₂, ⟨b, s₁, hf, hr⟩, h⟩)
      · exact Or.inl h
      · exact Or.inr ⟨b, s₁, hf, (ih b s₁).2 (Or.inl h)⟩
      · exact Or.inr ⟨b, s₁, hf, (ih b s₁).2 (Or.inr ⟨a, s₂, hr, h⟩)⟩

theorem reach_pure {a : α} {s s' : σ} : (pure a : Prog L ε σ α).Reach s s' ↔ s' = s := Iff.rfl

theorem reach_atomic {l : L} {f : σ → Res ε α σ} {s s' : σ} :
    (atomic l f).Reach s s' ↔ s' = s ∨ ∃ a, f s = .ok a s' := by
  constructor
  · rintro (h | ⟨b, s₁, hf, h⟩)
    · exact Or.inl h
    · have : s' = s₁ := h
      exact Or.inr ⟨b, by rw [hf, this]⟩
  · rintro (h | ⟨a, hf⟩)
    · exact Or.inl h
    · exact Or.inr ⟨a, s', hf, rfl⟩

/-! ## Preconditions -/

/-- Running `p` alone from `s` gives an outcome that `E` and `Q` allow. -/
def wp (E : Option ε → Prop) (p : Prog L ε σ α) (Q : α → σ → Prop) (s : σ) : Prop :=
  (p.run s).Post E Q

variable {E : Option ε → Prop}

theorem wp_pure {a : α} {Q : α → σ → Prop} {s : σ} :
    wp E (pure a : Prog L ε σ α) Q s ↔ Q a s := Iff.rfl

theorem wp_atomic {l : L} {f : σ → Res ε α σ} {Q : α → σ → Prop} {s : σ} :
    wp E (atomic l f) Q s ↔ (f s).Post E Q := by
  unfold wp
  rw [run_atomic]

theorem wp_bind {p : Prog L ε σ α} {g : α → Prog L ε σ β} {Q : β → σ → Prop} {s : σ} :
    wp E (p >>= g) Q s ↔ wp E p (fun a s' => wp E (g a) Q s') s := by
  unfold wp
  rw [run_bind]
  cases p.run s <;> rfl

theorem wp_mono {p : Prog L ε σ α} {Q R : α → σ → Prop} {s : σ} (h : wp E p Q s)
    (hQR : ∀ a s', Q a s' → R a s') : wp E p R s := Res.Post.mono h hQR

theorem wp_throw {l : L} {e : ε} {Q : α → σ → Prop} {s : σ} :
    wp E (throw l e : Prog L ε σ α) Q s ↔ E (some e) := Iff.rfl

theorem wp_ok {p : Prog L ε σ α} {Q : α → σ → Prop} {s s' : σ} {a : α} (h : wp E p Q s)
    (hr : p.run s = .ok a s') : Q a s' := by
  unfold wp at h
  rw [hr] at h
  exact h

theorem wp_panic {p : Prog L ε σ α} {Q : α → σ → Prop} {s : σ} {e : ε} (h : wp E p Q s)
    (hr : p.run s = .panic e) : E (some e) := by
  unfold wp at h
  rw [hr] at h
  exact h

theorem wp_returns {p : Prog L ε σ α} {Q : α → σ → Prop} {s : σ} (h : wp (fun _ => False) p Q s) :
    ∃ a s', p.run s = .ok a s' ∧ Q a s' := by
  unfold wp at h
  cases hr : p.run s with
  | ok a s' =>
    rw [hr] at h
    exact ⟨a, s', rfl, h⟩
  | panic e | sleep =>
    rw [hr] at h
    exact h.elim

/-- A program returns, or stops as it may. -/
theorem wp_cases {p : Prog L ε σ α} {Q : α → σ → Prop} {s : σ} (h : wp E p Q s) :
    (∃ e, E e) ∨ ∃ a s', p.run s = .ok a s' ∧ Q a s' := by
  unfold wp at h
  cases hr : p.run s with
  | ok a s' =>
    rw [hr] at h
    exact Or.inr ⟨a, s', rfl, h⟩
  | panic e | sleep =>
    rw [hr] at h
    exact Or.inl ⟨_, h⟩

theorem wp_and {p : Prog L ε σ α} {Q R : α → σ → Prop} {s : σ} (h : wp E p Q s)
    (hR : ∀ a s', p.run s = .ok a s' → R a s') : wp E p (fun a s' => Q a s' ∧ R a s') s := by
  unfold wp at *
  cases hr : p.run s with
  | ok a s' =>
    rw [hr] at h
    exact ⟨h, hR a s' hr⟩
  | panic e | sleep =>
    rw [hr] at h
    exact h

theorem wp_run {p : Prog L ε σ α} {Q : α → σ → Prop} {s : σ}
    (h : wp E p (fun a s' => p.run s = .ok a s' → Q a s') s) : wp E p Q s :=
  wp_mono (wp_and h fun _ _ hr => hr) fun _ _ ⟨hQ, hr⟩ => hQ hr

/-- Nothing is asked of the stops, and nothing depends on the run. -/
theorem wp_top {p : Prog L ε σ α} {Q : α → σ → Prop} {s : σ} (h : ∀ a s', Q a s') :
    wp (fun _ => True) p Q s := by
  unfold wp
  cases p.run s with
  | ok a s' => exact h a s'
  | panic e => trivial
  | sleep => trivial

theorem wp_ite {c : Prop} [Decidable c] {p q : Prog L ε σ α} {Q : α → σ → Prop} {s : σ}
    (hp : c → wp E p Q s) (hq : ¬ c → wp E q Q s) : wp E (if c then p else q) Q s := by
  by_cases h : c
  · rw [if_pos h]
    exact hp h
  · rw [if_neg h]
    exact hq h

/-- A loop over a list, by an invariant on what is left of it. -/
theorem wp_forM {ι : Type} {f : ι → Prog L ε σ PUnit} {I : List ι → σ → Prop} {l : List ι} {s : σ}
    (h : I l s) (hstep : ∀ x xs s, I (x :: xs) s → wp E (f x) (fun _ s' => I xs s') s) :
    wp E (l.forM f) (fun _ s' => I [] s') s := by
  induction l generalizing s with
  | nil => exact h
  | cons x xs ih =>
    show wp E (f x >>= fun _ => xs.forM f) _ s
    rw [wp_bind]
    exact wp_mono (hstep x xs s h) fun _ _ h' => ih h'

end Prog

end Conc
