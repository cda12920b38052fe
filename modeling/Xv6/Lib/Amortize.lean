import Xv6.Lib.Prog

/-!
# What a run puts out, and what that costs

`w` says what a section puts out in a state; `out w p s` is what the sections of the run of `p`
from `s` put out together, up to where it stops.

`Cost w Φ X p m s` is amortised accounting for the distinct things put out: those of `X` are
already there and cost nothing, and `Φ` is a potential.  The run from `s` puts out at most
`m + Φ X s` new things, and where it returns, what is left of that pays for the potential
afterwards.  The costs of the parts of a program add up (`Cost.bind`).
-/

namespace Conc.Prog

variable {L ε σ α β γ : Type}

/-- What each section puts out. -/
abbrev Emit (ε σ γ : Type) := (β : Type) → (σ → Res ε β σ) → σ → List γ

def out (w : Emit ε σ γ) : Prog L ε σ α → σ → List γ
  | ret _, _ => []
  | @atom _ _ _ _ β _ f k, s => w β f s ++ match f s with
    | .ok b s' => (k b).out w s'
    | .panic _ => []
    | .sleep => []

variable {w : Emit ε σ γ} {p : Prog L ε σ α} {g : α → Prog L ε σ β} {s s' : σ} {a : α}

@[simp] theorem out_atomic (l : L) (f : σ → Res ε α σ) : (atomic l f).out w s = w α f s := by
  simp only [atomic, out]
  cases f s <;> exact List.append_nil _

theorem out_bind_of_ok (h : p.run s = .ok a s') :
    (p >>= g).out w s = p.out w s ++ (g a).out w s' := by
  show (p.bind g).out w s = _
  induction p generalizing s with
  | ret b =>
    cases h
    rfl
  | atom l f k ih =>
    obtain ⟨b, s₁, hf, hk⟩ := Res.bind_eq_ok.1 h
    simp only [bind, out, hf, ih b hk, List.append_assoc]

theorem out_bind_of_stop (h : ∀ a s', p.run s ≠ .ok a s') : (p >>= g).out w s = p.out w s := by
  show (p.bind g).out w s = _
  induction p generalizing s with
  | ret b => exact absurd rfl (h b s)
  | atom l f k ih =>
    simp only [bind, out]
    cases hf : f s with
    | ok b s₁ =>
      have hk := ih b (s := s₁) fun a s' hr => h a s' (Res.bind_eq_ok.2 ⟨b, s₁, hf, hr⟩)
      simp only [hk]
    | panic e => rfl
    | sleep => rfl

/-! ## Amortised cost -/

variable [DecidableEq γ]

/-- The new things that a run puts out. -/
def fresh (w : Emit ε σ γ) (X : Finset γ) (p : Prog L ε σ α) (s : σ) : Finset γ :=
  (p.out w s).toFinset \ X

/-- What is there after a run. -/
def known (w : Emit ε σ γ) (X : Finset γ) (p : Prog L ε σ α) (s : σ) : Finset γ :=
  X ∪ (p.out w s).toFinset

variable {Φ : Finset γ → σ → Nat} {X : Finset γ} {m n : Nat}

theorem fresh_bind_of_ok (h : p.run s = .ok a s') :
    fresh w X (p >>= g) s = fresh w X p s ∪ fresh w (known w X p s) (g a) s' := by
  unfold fresh known
  rw [out_bind_of_ok h, List.toFinset_append]
  ext x
  simp only [Finset.mem_sdiff, Finset.mem_union]
  tauto

theorem known_bind_of_ok (h : p.run s = .ok a s') :
    known w X (p >>= g) s = known w (known w X p s) (g a) s' := by
  unfold known
  rw [out_bind_of_ok h, List.toFinset_append, Finset.union_assoc]

theorem mem_known {x : γ} (h : x ∈ p.out w s) : x ∈ known w X p s :=
  Finset.mem_union_right _ (List.mem_toFinset.2 h)

theorem subset_known : X ⊆ known w X p s := Finset.subset_union_left

structure Cost (w : Emit ε σ γ) (Φ : Finset γ → σ → Nat) (X : Finset γ) (p : Prog L ε σ α) (m : Nat)
    (s : σ) : Prop where
  spent : (fresh w X p s).card ≤ m + Φ X s
  left : ∀ a s', p.run s = .ok a s' → (fresh w X p s).card + Φ (known w X p s) s' ≤ m + Φ X s

theorem known_quiet (h : p.out w s = []) : known w X p s = X := by
  unfold known
  rw [h]
  exact Finset.union_empty X

/-- Nothing is put out, and the potential does not rise. -/
theorem Cost.quiet (h : p.out w s = []) (hΦ : ∀ a s', p.run s = .ok a s' → Φ X s' ≤ Φ X s) :
    Cost w Φ X p 0 s := by
  have hk : known w X p s = X := known_quiet h
  have hf : fresh w X p s = ∅ := by
    unfold fresh
    rw [h, List.toFinset_nil, Finset.empty_sdiff]
  refine ⟨?_, fun a s' hr => ?_⟩
  · rw [hf]
    exact Nat.zero_le _
  · rw [hf, hk]
    have := hΦ a s' hr
    simpa using this

theorem Cost.mono (h : Cost w Φ X p m s) (hmn : m ≤ n) : Cost w Φ X p n s :=
  ⟨by have := h.spent; omega, fun a s' hr => by have := h.left a s' hr; omega⟩

theorem Cost.ret : Cost w Φ X (pure a : Prog L ε σ α) 0 s :=
  .quiet rfl fun b s' hr => by
    cases hr
    exact le_rfl

/-- Without a potential the cost is the number of new things. -/
theorem Cost.of_subset {A : Finset γ} (h : (p.out w s).toFinset ⊆ A) (hA : (A \ X).card ≤ m) :
    Cost w (fun _ _ => 0) X p m s := by
  have hcard : (fresh w X p s).card ≤ m :=
    (Finset.card_le_card (Finset.sdiff_subset_sdiff h subset_rfl)).trans hA
  exact ⟨hcard, fun _ _ _ => hcard⟩

/-- A number of new things as an amortised cost. -/
theorem Cost.amortise (h : Cost w (fun _ _ => 0) X p m s) (hm : m ≤ n + Φ X s)
    (hΦ : ∀ a s', p.run s = .ok a s' → m + Φ (known w X p s) s' ≤ n + Φ X s) :
    Cost w Φ X p n s := by
  have hcard : (fresh w X p s).card ≤ m := h.spent
  refine ⟨by omega, fun a s' hr => ?_⟩
  have := hΦ a s' hr
  omega

/-- The new things of a sequence whose second part is counted without a potential. -/
theorem Cost.fresh_bind (hp : Cost w Φ X p m s)
    (hg : ∀ a s', p.run s = .ok a s' → (fresh w (known w X p s) (g a) s').card ≤ n +
      Φ (known w X p s) s') :
    (fresh w X (p >>= g) s).card ≤ m + n + Φ X s := by
  by_cases h : ∃ a s', p.run s = .ok a s'
  · obtain ⟨a, s', hr⟩ := h
    rw [fresh_bind_of_ok hr]
    have hu := Finset.card_union_le (fresh w X p s) (fresh w (known w X p s) (g a) s')
    have h1 := hp.left a s' hr
    have h2 := hg a s' hr
    omega
  · have hs : fresh w X (p >>= g) s = fresh w X p s := by
      unfold fresh
      rw [out_bind_of_stop fun a s' hr => h ⟨a, s', hr⟩]
    have := hp.spent
    rw [hs]
    omega

theorem Cost.bind (hp : Cost w Φ X p m s)
    (hg : ∀ a s', p.run s = .ok a s' → Cost w Φ (known w X p s) (g a) n s') :
    Cost w Φ X (p >>= g) (m + n) s := by
  refine ⟨hp.fresh_bind fun a s' hr => (hg a s' hr).spent, fun b s'' hb => ?_⟩
  obtain ⟨a, s', hr, hb⟩ := run_bind_eq_ok.1 hb
  rw [fresh_bind_of_ok hr, known_bind_of_ok hr]
  have hu := Finset.card_union_le (fresh w X p s) (fresh w (known w X p s) (g a) s')
  have h1 := hp.left a s' hr
  have h2 := (hg a s' hr).left b s'' hb
  omega

theorem Cost.quiet_bind (h : p.out w s = [])
    (hg : ∀ a s', p.run s = .ok a s' → Φ X s' ≤ Φ X s ∧ Cost w Φ X (g a) m s') :
    Cost w Φ X (p >>= g) m s := by
  rw [← Nat.zero_add m]
  refine (Cost.quiet h fun a s' hr => (hg a s' hr).1).bind fun a s' hr => ?_
  rw [known_quiet h]
  exact (hg a s' hr).2

end Conc.Prog
