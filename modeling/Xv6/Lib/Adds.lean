import Xv6.Lib.Prog

/-!
# Programs that change a quantity by a known amount

`Adds m v p D`: every run of `p` that returns `a` adds `D a` to the quantity `m`
of the state and leaves the part `v` of it alone.  The amounts of the parts of a
program add up (`Adds.bind`), so that a function is described by its amount alone,
whatever path it takes.
-/

namespace Conc

variable {L ε σ α β ι τ M : Type} [AddCommGroup M] {m : σ → M} {v : σ → τ}

def Adds (m : σ → M) (v : σ → τ) (p : Prog L ε σ α) (D : α → M) : Prop :=
  ∀ s a s', p.run s = .ok a s' → m s' = m s + D a ∧ v s' = v s

namespace Adds

/-- A program that returns at once has to have the amount `0` there. -/
theorem ret {a : α} {D : α → M} (h : D a = 0) : Adds m v (Pure.pure a : Prog L ε σ α) D := by
  intro s b s' hr
  cases hr
  exact ⟨by rw [h, add_zero], rfl⟩

theorem pure (a : α) : Adds m v (Pure.pure a : Prog L ε σ α) fun _ => 0 := ret rfl

theorem throw_bind (l : L) (e : ε) (g : α → Prog L ε σ β) (D : β → M) :
    Adds m v (Prog.throw l e >>= g) D := by
  intro s b s' h
  cases h

theorem atomic {l : L} {f : σ → Res ε α σ} {D : α → M}
    (h : ∀ s a s', f s = .ok a s' → m s' = m s + D a ∧ v s' = v s) :
    Adds m v (Prog.atomic l f) D := by
  intro s a s' hr
  rw [Prog.run_atomic] at hr
  exact h s a s' hr

/-- The rest of a program adds what is missing to the amount of the whole. -/
theorem bind {p : Prog L ε σ α} {g : α → Prog L ε σ β} {D : α → M} {E : β → M}
    (hp : Adds m v p D) (hg : ∀ a, Adds m v (g a) fun b => E b - D a) : Adds m v (p >>= g) E := by
  intro s b s' h
  obtain ⟨a, s₁, h₁, h₂⟩ := Prog.run_bind_eq_ok.1 h
  obtain ⟨hm₁, hv₁⟩ := hp s a s₁ h₁
  obtain ⟨hm₂, hv₂⟩ := hg a s₁ b s' h₂
  refine ⟨?_, hv₂.trans hv₁⟩
  rw [hm₂, hm₁]
  show m s + D a + (E b - D a) = m s + E b
  abel

theorem zero_bind {p : Prog L ε σ α} {g : α → Prog L ε σ β} {E : β → M}
    (hp : Adds m v p fun _ => 0) (hg : ∀ a, Adds m v (g a) E) : Adds m v (p >>= g) E :=
  hp.bind fun a => by simpa only [sub_zero] using hg a

theorem congr {p : Prog L ε σ α} {D E : α → M} (h : Adds m v p D) (hDE : ∀ a, D a = E a) :
    Adds m v p E := by
  have : D = E := funext hDE
  exact this ▸ h

theorem ite {c : Prop} [Decidable c] {p q : Prog L ε σ α} {D : α → M}
    (hp : c → Adds m v p D) (hq : ¬ c → Adds m v q D) : Adds m v (if c then p else q) D := by
  by_cases h : c
  · rw [if_pos h]
    exact hp h
  · rw [if_neg h]
    exact hq h

theorem forM {f : ι → Prog L ε σ PUnit} (h : ∀ x, Adds m v (f x) fun _ => 0) (l : List ι) :
    Adds m v (l.forM f) fun _ => 0 := by
  induction l with
  | nil => exact pure _
  | cons x l ih => exact zero_bind (h x) fun _ => ih

end Adds

end Conc
