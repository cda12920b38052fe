import Xv6.Lib.Prog

/-!
# Programs seen as the writes they send to a device

`apply ws d` is the contents `d` of a device after the writes `ws`, first write
first.  `Emits` says what a program does to a device that is used through a
cache: it returns, the writes it sent are `ws`, and a crash anywhere inside it
leaves the device after the first `k` of them, for some `k`.  `disk` is what the
device holds, `view` what the program reads through its cache, and `I` the
invariant that makes the cache coherent.

`Emits.bind` concatenates the writes of two programs, so the crash states of a
whole protocol are the prefixes of one list.
-/

namespace Conc

namespace Writes

variable {A B : Type} [DecidableEq A]

def apply : List (A × B) → (A → B) → A → B
  | [], d => d
  | (a, b) :: ws, d => apply ws (Function.update d a b)

@[simp] theorem apply_nil (d : A → B) : apply [] d = d := rfl

@[simp] theorem apply_cons (a : A) (b : B) (ws : List (A × B)) (d : A → B) :
    apply ((a, b) :: ws) d = apply ws (Function.update d a b) := rfl

theorem apply_append (ws vs : List (A × B)) (d : A → B) :
    apply (ws ++ vs) d = apply vs (apply ws d) := by
  induction ws generalizing d with
  | nil => rfl
  | cons w ws ih =>
    obtain ⟨a, b⟩ := w
    simp only [List.cons_append, apply_cons, ih]

/-- An address no write goes to keeps its contents. -/
theorem apply_of_notMem {ws : List (A × B)} {a : A} (h : a ∉ ws.map Prod.fst) (d : A → B) :
    apply ws d a = d a := by
  induction ws generalizing d with
  | nil => rfl
  | cons w ws ih =>
    obtain ⟨c, b⟩ := w
    simp only [List.map_cons, List.mem_cons, not_or] at h
    rw [apply_cons, ih h.2, Function.update_of_ne h.1]

theorem apply_of_mem {ws : List (A × B)} {f : A → B} (hf : ∀ w ∈ ws, w.2 = f w.1) {a : A}
    (h : a ∈ ws.map Prod.fst) (d : A → B) : apply ws d a = f a := by
  induction ws generalizing d with
  | nil => cases h
  | cons w ws ih =>
    obtain ⟨c, b⟩ := w
    have hf' : ∀ w ∈ ws, w.2 = f w.1 := fun w hw => hf w (List.mem_cons_of_mem _ hw)
    by_cases hm : a ∈ ws.map Prod.fst
    · exact ih hf' hm _
    · simp only [List.map_cons, List.mem_cons] at h
      have hac : a = c := h.resolve_right hm
      subst hac
      rw [apply_cons, apply_of_notMem hm, Function.update_self]
      exact hf (a, b) List.mem_cons_self

theorem apply_take_inv {P : (A → B) → Prop} {ws : List (A × B)}
    (h : ∀ w ∈ ws, ∀ d, P d → P (Function.update d w.1 w.2)) (k : Nat) {d : A → B} (hd : P d) :
    P (apply (ws.take k) d) := by
  induction ws generalizing k d with
  | nil => simpa using hd
  | cons w ws ih =>
    cases k with
    | zero => simpa using hd
    | succ k =>
      obtain ⟨a, b⟩ := w
      rw [List.take_succ_cons, apply_cons]
      exact ih (fun w hw => h w (List.mem_cons_of_mem _ hw)) k (h (a, b) List.mem_cons_self d hd)

theorem apply_inv {P : (A → B) → Prop} {ws : List (A × B)}
    (h : ∀ w ∈ ws, ∀ d, P d → P (Function.update d w.1 w.2)) {d : A → B} (hd : P d) :
    P (apply ws d) := by
  have := apply_take_inv h ws.length hd
  rwa [List.take_length] at this

/-- A prefix of two lists of writes is a prefix of the first, or all of it and a prefix of the
second. -/
theorem apply_take_append (ws vs : List (A × B)) (k : Nat) (d : A → B) :
    (∃ j, apply ((ws ++ vs).take k) d = apply (ws.take j) d) ∨
      ∃ j, apply ((ws ++ vs).take k) d = apply (vs.take j) (apply ws d) := by
  rcases Nat.le_total k ws.length with h | h
  · exact Or.inl ⟨k, by rw [List.take_append_of_le_length h]⟩
  · refine Or.inr ⟨k - ws.length, ?_⟩
    rw [List.take_append, List.take_of_length_le h, apply_append]

end Writes

open Writes

variable {L ε σ α β A B : Type} [DecidableEq A]

structure Emits (I : σ → Prop) (disk view : σ → A → B) (p : Prog L ε σ α) (d v : A → B) (a : α)
    (ws : List (A × B)) : Prop where
  ret : ∀ s, I s → disk s = d → view s = v →
    ∃ s', p.run s = .ok a s' ∧ I s' ∧ disk s' = apply ws d ∧ view s' = apply ws v
  crash : ∀ s s', I s → disk s = d → view s = v → p.Reach s s' →
    ∃ k, disk s' = apply (ws.take k) d

namespace Emits

variable {I : σ → Prop} {disk view : σ → A → B} {d v : A → B}

theorem pure (a : α) : Emits I disk view (pure a : Prog L ε σ α) d v a [] where
  ret := fun s hI hd hv => ⟨s, rfl, hI, hd, hv⟩
  crash := by
    intro s s' _ hd _ hr
    rw [Prog.reach_pure] at hr
    exact ⟨0, by rw [hr, hd]; rfl⟩

theorem bind {p : Prog L ε σ α} {g : α → Prog L ε σ β} {a : α} {b : β} {ws us : List (A × B)}
    (hp : Emits I disk view p d v a ws)
    (hg : Emits I disk view (g a) (apply ws d) (apply ws v) b us) :
    Emits I disk view (p >>= g) d v b (ws ++ us) where
  ret := by
    intro s hI hd hv
    obtain ⟨s₁, hr, hI₁, hd₁, hv₁⟩ := hp.ret s hI hd hv
    obtain ⟨s₂, hr₂, hI₂, hd₂, hv₂⟩ := hg.ret s₁ hI₁ hd₁ hv₁
    refine ⟨s₂, ?_, hI₂, ?_, ?_⟩
    · rw [Prog.run_bind, hr, Res.bind_ok, hr₂]
    · rw [hd₂, apply_append]
    · rw [hv₂, apply_append]
  crash := by
    intro s s' hI hd hv hr
    rcases (Prog.reach_bind p g s s').1 hr with h | ⟨a', s₁, hr₁, h⟩
    · obtain ⟨k, hk⟩ := hp.crash s s' hI hd hv h
      -- a crash inside the first part: at most all of its writes
      refine ⟨min k ws.length, ?_⟩
      rw [hk, List.take_append_of_le_length (by omega)]
      rcases Nat.le_total k ws.length with h | h
      · rw [Nat.min_eq_left h]
      · rw [Nat.min_eq_right h, List.take_of_length_le h, List.take_length]
    · obtain ⟨s₁', hr₁', hI₁, hd₁, hv₁⟩ := hp.ret s hI hd hv
      rw [hr₁] at hr₁'
      cases hr₁'
      obtain ⟨k, hk⟩ := hg.crash s₁ s' hI₁ hd₁ hv₁ h
      refine ⟨ws.length + k, ?_⟩
      rw [hk, List.take_length_add_append, apply_append]

/-- A section that does all its writes at once. -/
theorem atomic {l : L} {f : σ → Res ε α σ} {a : α} {ws : List (A × B)}
    (h : ∀ s, I s → disk s = d → view s = v →
      ∃ s', f s = .ok a s' ∧ I s' ∧ disk s' = apply ws d ∧ view s' = apply ws v) :
    Emits I disk view (Prog.atomic l f) d v a ws where
  ret := by
    intro s hI hd hv
    obtain ⟨s', hf, h'⟩ := h s hI hd hv
    exact ⟨s', by rw [Prog.run_atomic, hf], h'⟩
  crash := by
    intro s s' hI hd hv hr
    rcases Prog.reach_atomic.1 hr with rfl | ⟨a', hf'⟩
    · exact ⟨0, hd⟩
    · obtain ⟨s₁, hf, _, hd₁, _⟩ := h s hI hd hv
      rw [hf] at hf'
      cases hf'
      refine ⟨ws.length, ?_⟩
      rw [List.take_length]
      exact hd₁

end Emits

end Conc
