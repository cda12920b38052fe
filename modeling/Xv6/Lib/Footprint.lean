import Xv6.Lib.Prog

/-!
# What a program touches and what it returns

Two readings of a program by its parts.  `Returns p Q`: whatever state it runs in, it
returns a value in `Q`.  `Only Q p R s`: its run from `s` goes through sections with labels
in `Q` only, up to where it stops, and returns with `R`; with labels that say what a
section accesses this bounds the footprint of the run.
-/

namespace Conc.Prog

variable {L ε σ α β : Type}

/-! ## Results -/

def Returns (p : Prog L ε σ α) (Q : α → Prop) : Prop := ∀ s a s', p.run s = .ok a s' → Q a

theorem Returns.any (p : Prog L ε σ α) : Returns p fun _ => True := fun _ _ _ _ => trivial

theorem Returns.ret {a : α} {Q : α → Prop} (h : Q a) : Returns (pure a : Prog L ε σ α) Q := by
  intro s b s' hr
  cases hr
  exact h

theorem Returns.bind {p : Prog L ε σ α} {g : α → Prog L ε σ β} {P : α → Prop} {Q : β → Prop}
    (hp : Returns p P) (hg : ∀ a, P a → Returns (g a) Q) : Returns (p >>= g) Q := by
  intro s b s' h
  obtain ⟨a, s₁, ha, hb⟩ := run_bind_eq_ok.1 h
  exact hg a (hp s a s₁ ha) s₁ b s' hb

/-- A part whose result does not matter. -/
theorem Returns.seq {p : Prog L ε σ α} {g : α → Prog L ε σ β} {Q : β → Prop}
    (hg : ∀ a, Returns (g a) Q) : Returns (p >>= g) Q := (Returns.any p).bind fun a _ => hg a

theorem Returns.ite {c : Prop} [Decidable c] {p q : Prog L ε σ α} {Q : α → Prop}
    (hp : c → Returns p Q) (hq : ¬c → Returns q Q) : Returns (if c then p else q) Q := by
  by_cases h : c
  · rw [if_pos h]
    exact hp h
  · rw [if_neg h]
    exact hq h

/-! ## Labels -/

def Only (Q : L → Prop) (p : Prog L ε σ α) (R : α → σ → Prop) (s : σ) : Prop :=
  (∀ l ∈ p.trace s, Q l) ∧ ∀ a s', p.run s = .ok a s' → R a s'

theorem mem_trace_bind_iff {p : Prog L ε σ α} {g : α → Prog L ε σ β} {s : σ} {l : L} :
    l ∈ (p >>= g).trace s ↔
      l ∈ p.trace s ∨ ∃ a s', p.run s = .ok a s' ∧ l ∈ (g a).trace s' := by
  constructor
  · intro h
    change l ∈ (p.bind g).trace s at h
    induction p generalizing s with
    | ret a => exact Or.inr ⟨a, s, rfl, h⟩
    | atom l' f k ih =>
      simp only [Prog.bind, trace, run, List.mem_cons] at h ⊢
      rcases h with h | h
      · exact Or.inl (Or.inl h)
      · cases hf : f s with
        | ok b s₁ =>
          simp only [hf] at h
          rcases ih b h with h | ⟨a, s', hr, h⟩
          · exact Or.inl (Or.inr h)
          · exact Or.inr ⟨a, s', hr, h⟩
        | panic e => simp [hf] at h
        | sleep => simp [hf] at h
  · rintro (h | ⟨a, s', hr, h⟩)
    · exact mem_trace_bind h
    · rw [trace_bind_of_ok hr]
      exact List.mem_append_right _ h

variable {Q : L → Prop}

theorem only_pure {a : α} {R : α → σ → Prop} {s : σ} (h : R a s) :
    Only Q (pure a : Prog L ε σ α) R s := by
  refine ⟨fun l hl => absurd hl List.not_mem_nil, fun b s' hr => ?_⟩
  cases hr
  exact h

theorem only_atomic {l : L} {f : σ → Res ε α σ} {R : α → σ → Prop} {s : σ} (hl : Q l)
    (hR : ∀ a s', f s = .ok a s' → R a s') : Only Q (atomic l f) R s := by
  refine ⟨fun l' hl' => ?_, fun a s' hr => hR a s' (by rwa [run_atomic] at hr)⟩
  simp only [atomic, trace, List.mem_cons] at hl'
  rcases hl' with rfl | hl'
  · exact hl
  · cases hf : f s <;> simp [hf] at hl'

theorem only_bind {p : Prog L ε σ α} {g : α → Prog L ε σ β} {R : β → σ → Prop} {s : σ} :
    Only Q (p >>= g) R s ↔ Only Q p (fun a s' => Only Q (g a) R s') s := by
  constructor
  · intro ⟨hl, hR⟩
    refine ⟨fun l h => hl l (mem_trace_bind h), fun a s' hr => ⟨fun l h => ?_, fun b s'' hb => ?_⟩⟩
    · exact hl l (mem_trace_bind_iff.2 (Or.inr ⟨a, s', hr, h⟩))
    · exact hR b s'' (by rw [run_bind, hr]; exact hb)
  · intro ⟨hl, hg⟩
    refine ⟨fun l h => ?_, fun b s'' hb => ?_⟩
    · rcases mem_trace_bind_iff.1 h with h | ⟨a, s', hr, h⟩
      · exact hl l h
      · exact (hg a s' hr).1 l h
    · obtain ⟨a, s', ha, hb⟩ := run_bind_eq_ok.1 hb
      exact (hg a s' ha).2 b s'' hb

theorem Only.mono {p : Prog L ε σ α} {R R' : α → σ → Prop} {s : σ} (h : Only Q p R s)
    (hR : ∀ a s', R a s' → R' a s') : Only Q p R' s :=
  ⟨h.1, fun a s' hr => hR a s' (h.2 a s' hr)⟩

theorem only_ite {c : Prop} [Decidable c] {p q : Prog L ε σ α} {R : α → σ → Prop} {s : σ}
    (hp : c → Only Q p R s) (hq : ¬c → Only Q q R s) : Only Q (if c then p else q) R s := by
  by_cases h : c
  · rw [if_pos h]
    exact hp h
  · rw [if_neg h]
    exact hq h

/-! ## Sections one by one -/

/-- More stops and more outcomes are allowed. -/
theorem wp_conseq {E E' : Option ε → Prop} {p : Prog L ε σ α} {Q R : α → σ → Prop} {s : σ}
    (h : wp E p Q s) (hE : ∀ e, E e → E' e) (hQ : ∀ a s', Q a s' → R a s') : wp E' p R s := by
  unfold wp at *
  cases hr : p.run s with
  | ok a s' =>
    rw [hr] at h
    exact hQ a s' h
  | panic e | sleep =>
    rw [hr] at h
    exact hE _ h

theorem wp_iff {S : Prop} {p : Prog L ε σ α} {Q : α → σ → Prop} {s : σ}
    (h : wp (fun _ => ¬ S) p (fun a s' => S ∧ Q a s') s) :
    (∃ a s', p.run s = .ok a s' ∧ Q a s') ↔ S := by
  constructor
  · rintro ⟨a, s', hr, _⟩
    exact (wp_ok h hr).1
  · intro hS
    obtain ⟨a, s', hr, _, hQ⟩ := wp_returns (wp_conseq h (fun _ hn => hn hS) fun _ _ hq => hq)
    exact ⟨a, s', hr, hQ⟩

/-- Stops that do not happen need not be allowed. -/
theorem wp_exclude {E : Option ε → Prop} {p : Prog L ε σ α} {Q : α → σ → Prop} {s : σ}
    (h : wp E p Q s) (hpanic : ∀ e, E (some e) → p.run s ≠ .panic e) (hsleep : ¬ E none) :
    wp (fun _ => False) p Q s := by
  unfold wp at *
  cases hr : p.run s with
  | ok a s' =>
    rw [hr] at h
    exact h
  | panic e =>
    rw [hr] at h
    exact hpanic e h hr
  | sleep =>
    rw [hr] at h
    exact hsleep h

/-- Every section of `p`, in whatever state it runs, stops only as `E` allows and takes the state to
one in relation `R` to it. -/
def Each (E : Option ε → Prop) (R : σ → σ → Prop) : Prog L ε σ α → Prop
  | ret _ => True
  | atom _ f k => (∀ s, (f s).Post E fun _ s' => R s s') ∧ ∀ b, Each E R (k b)

section Each

variable {E : Option ε → Prop} {R : σ → σ → Prop}

theorem each_pure (a : α) : Each E R (pure a : Prog L ε σ α) := trivial

theorem each_atomic {l : L} {f : σ → Res ε α σ} (h : ∀ s, (f s).Post E fun _ s' => R s s') :
    Each E R (atomic l f) := ⟨h, fun _ => trivial⟩

theorem each_throw {l : L} {e : ε} (h : E (some e)) : Each E R (throw l e : Prog L ε σ α) :=
  ⟨fun _ => h, fun _ => trivial⟩

theorem Each.bind {p : Prog L ε σ α} {g : α → Prog L ε σ β} (hp : Each E R p)
    (hg : ∀ a, Each E R (g a)) : Each E R (p >>= g) := by
  show Each E R (p.bind g)
  induction p with
  | ret a => exact hg a
  | atom l f k ih => exact ⟨hp.1, fun b => ih b (hp.2 b)⟩

theorem Each.ite {c : Prop} [Decidable c] {p q : Prog L ε σ α} (hp : c → Each E R p)
    (hq : ¬c → Each E R q) : Each E R (if c then p else q) := by
  by_cases h : c
  · rw [if_pos h]
    exact hp h
  · rw [if_neg h]
    exact hq h

theorem Each.forM {ι : Type} {f : ι → Prog L ε σ PUnit} (h : ∀ x, Each E R (f x)) (l : List ι) :
    Each E R (l.forM f) := by
  induction l with
  | nil => exact each_pure _
  | cons x l ih => exact (h x).bind fun _ => ih

/-- What every section keeps, the program keeps. -/
theorem Each.wp {p : Prog L ε σ α} (h : Each E R p) (hrefl : ∀ s, R s s)
    (htrans : ∀ s t u, R s t → R t u → R s u) (s : σ) : wp E p (fun _ s' => R s s') s := by
  induction p generalizing s with
  | ret a => exact hrefl s
  | atom l f k ih =>
    show ((f s).bind fun b s' => (k b).run s').Post E _
    rw [Res.post_bind]
    refine Res.Post.mono (h.1 s) fun b s₁ h₁ => ?_
    exact Res.Post.mono (ih b (h.2 b) s₁) fun _ s₂ h₂ => htrans s s₁ s₂ h₁ h₂

end Each

/-! ## Code on a part of the state -/

/-- The code of `p` on the part of the state that `get` and `put` access. -/
def zoom {τ : Type} (get : τ → σ) (put : τ → σ → τ) : Prog L ε σ α → Prog L ε τ α
  | ret a => ret a
  | atom l f k => atom l (fun t => (f (get t)).bind fun b s => .ok b (put t s))
      fun b => (k b).zoom get put

section Zoom

variable {τ : Type} {get : τ → σ} {put : τ → σ → τ} (hget : ∀ t s, get (put t s) = s)
  (hput : ∀ t s s', put (put t s) s' = put t s') (hself : ∀ t, put t (get t) = t)
include hget hput hself

theorem run_zoom (p : Prog L ε σ α) (t : τ) :
    (p.zoom get put).run t = (p.run (get t)).bind fun a s => .ok a (put t s) := by
  induction p generalizing t with
  | ret a =>
    show Res.ok a t = .ok a (put t (get t))
    rw [hself]
  | atom l f k ih =>
    simp only [zoom, run]
    cases hf : f (get t) with
    | ok b s =>
      simp only [Res.bind_ok]
      rw [ih, hget]
      cases (k b).run s with
      | ok a s' => simp only [Res.bind_ok, hput]
      | panic e => rfl
      | sleep => rfl
    | panic e => rfl
    | sleep => rfl

omit hput hself in
theorem trace_zoom (p : Prog L ε σ α) (t : τ) : (p.zoom get put).trace t = p.trace (get t) := by
  induction p generalizing t with
  | ret a => rfl
  | atom l f k ih =>
    simp only [zoom, trace]
    cases hf : f (get t) with
    | ok b s =>
      simp only [Res.bind_ok]
      rw [ih, hget]
    | panic e => rfl
    | sleep => rfl

end Zoom

end Conc.Prog
