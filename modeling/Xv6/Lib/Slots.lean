import Mathlib.Data.List.Basic
import Mathlib.Logic.Function.Basic
import Mathlib.Tactic

/-!
# A finite map kept in slots

A table has `n` slots, each empty or with a key and a value.  `find` goes through the slots in order
and returns the first one with the key.  Where no key stands in two slots (`Distinct`), the table is
a map: `Distinct.find_eq_some` says which pairs it has.  `Put` is a change of one slot, which may be
a new one at the end: a pair is put into it (`Put.find_insert`) or it is emptied (`Put.find_erase`),
and the map changes at that key only (`Put.find_ne`).
-/

namespace Slots

variable {κ ν : Type} [DecidableEq κ]

/-- The first of the `n` slots from `i` on that holds `key`, with its value. -/
def findFrom (t : Nat → Option (κ × ν)) (key : κ) : Nat → Nat → Option (Nat × ν)
  | _, 0 => none
  | i, n + 1 =>
    match t i with
    | some (k, v) => if k = key then some (i, v) else findFrom t key (i + 1) n
    | none => findFrom t key (i + 1) n

def find (t : Nat → Option (κ × ν)) (n : Nat) (key : κ) : Option (Nat × ν) := findFrom t key 0 n

/-- No key stands in two of the `n` slots. -/
def Distinct (t : Nat → Option (κ × ν)) (n : Nat) : Prop :=
  ∀ i j, i < n → j < n → (t i).map Prod.fst = (t j).map Prod.fst → t i ≠ none → i = j

variable {t t' : Nat → Option (κ × ν)} {n i : Nat} {key : κ} {v : ν}

omit [DecidableEq κ] in
/-- A test for it. -/
theorem distinct_of_nodup
    (h : ((List.range n).filterMap fun k => (t k).map Prod.fst).Nodup) : Distinct t n := by
  have hpair := List.pairwise_filterMap.1 h
  rw [List.pairwise_iff_getElem] at hpair
  have hlt : ∀ i j, i < j → j < n → t i ≠ none →
      (t i).map Prod.fst ≠ (t j).map Prod.fst := by
    intro i j hij hj hne he
    obtain ⟨x, hx⟩ := Option.ne_none_iff_exists'.1 hne
    have hi : (t i).map Prod.fst = some x.1 := by rw [hx, Option.map_some]
    have hapart := hpair i j (by simp; omega) (by simp; omega) hij
    simp only [List.getElem_range] at hapart
    exact hapart x.1 hi x.1 (he ▸ hi) rfl
  intro i j hi hj he hne
  rcases Nat.lt_trichotomy i j with hij | hij | hij
  · exact absurd he (hlt i j hij hj hne)
  · exact hij
  · refine absurd he.symm (hlt j i hij hi fun hz => hne ?_)
    rwa [hz, Option.map_none, Option.map_eq_none_iff] at he

theorem findFrom_some {m : Nat} (h : findFrom t key i m = some (n, v)) :
    i ≤ n ∧ n < i + m ∧ t n = some (key, v) := by
  induction m generalizing i with
  | zero => cases h
  | succ m ih =>
    unfold findFrom at h
    split at h
    · next k w ht =>
      split at h
      · next hk =>
        cases h
        exact ⟨le_rfl, by omega, by rw [ht, hk]⟩
      · obtain ⟨h1, h2, h3⟩ := ih h
        exact ⟨by omega, by omega, h3⟩
    · obtain ⟨h1, h2, h3⟩ := ih h
      exact ⟨by omega, by omega, h3⟩

theorem findFrom_none {m : Nat} (h : findFrom t key i m = none) {j : Nat} (hi : i ≤ j)
    (hj : j < i + m) : t j ≠ some (key, v) := by
  induction m generalizing i with
  | zero => omega
  | succ m ih =>
    unfold findFrom at h
    by_cases hij : j = i
    · subst hij
      intro ht
      rw [ht] at h
      simp at h
    · split at h
      · split at h
        · cases h
        · exact ih h (by omega) (by omega)
      · exact ih h (by omega) (by omega)

theorem find_eq_none : find t n key = none ↔ ∀ j v, j < n → t j ≠ some (key, v) := by
  constructor
  · intro h j v hj
    exact findFrom_none h (Nat.zero_le j) (by omega)
  · intro h
    cases hf : find t n key with
    | none => rfl
    | some x =>
      obtain ⟨_, h2, h3⟩ := findFrom_some hf
      exact absurd h3 (h _ _ (by omega))

theorem Distinct.find_eq_some (h : Distinct t n) :
    find t n key = some (i, v) ↔ i < n ∧ t i = some (key, v) := by
  constructor
  · intro hf
    obtain ⟨_, h2, h3⟩ := findFrom_some hf
    exact ⟨by omega, h3⟩
  · rintro ⟨hi, ht⟩
    cases hf : find t n key with
    | none => exact absurd ht (find_eq_none.1 hf i v hi)
    | some x =>
      obtain ⟨_, h2, h3⟩ := findFrom_some hf
      have hij : i = x.1 := h i x.1 hi (by omega) (by rw [ht, h3]; rfl)
        (by rw [ht]; simp)
      rw [← hij, ht] at h3
      have hv : v = x.2 := (Prod.mk.inj (Option.some.inj h3)).2
      rw [hij, hv]

/-- Two tables with the same pairs under a key. -/
theorem find_congr {n' : Nat} {key' : κ} (h : Distinct t n) (h' : Distinct t' n')
    (hp : ∀ j v, (j < n ∧ t j = some (key', v)) ↔ (j < n' ∧ t' j = some (key', v))) :
    find t' n' key' = find t n key' := by
  ext x
  obtain ⟨j, v⟩ := x
  rw [h.find_eq_some, h'.find_eq_some, hp]

/-! ## Changing a slot -/

/-- The first empty slot of the `n` from `i` on, or the one after them. -/
def firstFree (t : Nat → Option (κ × ν)) : Nat → Nat → Nat
  | i, 0 => i
  | i, n + 1 => if (t i).isNone then i else firstFree t (i + 1) n

omit [DecidableEq κ] in
theorem firstFree_spec (t : Nat → Option (κ × ν)) (i n : Nat) :
    i ≤ firstFree t i n ∧ firstFree t i n ≤ i + n ∧
      (firstFree t i n < i + n → t (firstFree t i n) = none) := by
  induction n generalizing i with
  | zero => exact ⟨le_rfl, le_rfl, fun h => absurd h (lt_irrefl _)⟩
  | succ n ih =>
    unfold firstFree
    by_cases h : (t i).isNone
    · rw [if_pos h]
      exact ⟨le_rfl, by omega, fun _ => Option.isNone_iff_eq_none.1 h⟩
    · rw [if_neg h]
      obtain ⟨h1, h2, h3⟩ := ih (i + 1)
      exact ⟨by omega, by omega, fun hlt => h3 (by omega)⟩

structure Put (t t' : Nat → Option (κ × ν)) (n n' i : Nat) (x : Option (κ × ν)) : Prop where
  le : i ≤ n
  size : n' = max n (i + 1)
  self : t' i = x
  ne : ∀ j, j < n → j ≠ i → t' j = t j

namespace Put

variable {n' : Nat} {x : Option (κ × ν)}

omit [DecidableEq κ] in
theorem slot (hp : Put t t' n n' i x) {j : Nat} (hj : j < n') : j = i ∨ j < n ∧ j ≠ i := by
  have hle := hp.le
  have hsize := hp.size
  by_cases hji : j = i
  · exact Or.inl hji
  · exact Or.inr ⟨by omega, hji⟩

theorem find_ne (hp : Put t t' n n' i x) (h : Distinct t n) (h' : Distinct t' n') {key' : κ}
    (hold : i < n → ∀ w, t i ≠ some (key', w)) (hnew : ∀ w, x ≠ some (key', w)) :
    find t' n' key' = find t n key' := by
  have hle := hp.le
  have hsize := hp.size
  refine find_congr h h' fun j w => ?_
  constructor
  · rintro ⟨hj, ht⟩
    have hji : j ≠ i := by
      rintro rfl
      exact hold hj w ht
    exact ⟨by omega, by rw [hp.ne j hj hji, ht]⟩
  · rintro ⟨hj, ht⟩
    rcases hp.slot hj with rfl | ⟨hj, hji⟩
    · rw [hp.self] at ht
      exact absurd ht (hnew w)
    · exact ⟨hj, by rw [← hp.ne j hj hji, ht]⟩

theorem distinct_insert (hp : Put t t' n n' i (some (key, v))) (h : Distinct t n)
    (hnew : find t n key = none) : Distinct t' n' := by
  have hother : ∀ j, j < n → (t j).map Prod.fst ≠ some key := by
    intro j hj he
    obtain ⟨⟨k, w⟩, hw, rfl⟩ := Option.map_eq_some_iff.1 he
    exact find_eq_none.1 hnew j w hj hw
  intro a b ha hb he hne
  rcases hp.slot ha with rfl | ⟨ha, hai⟩
  · rcases hp.slot hb with rfl | ⟨hb, hbi⟩
    · rfl
    · rw [hp.self, hp.ne b hb hbi] at he
      exact absurd he.symm (hother b hb)
  · rcases hp.slot hb with rfl | ⟨hb, hbi⟩
    · rw [hp.self, hp.ne a ha hai] at he
      exact absurd he (hother a ha)
    · rw [hp.ne a ha hai] at he hne
      rw [hp.ne b hb hbi] at he
      exact h a b ha hb he hne

theorem find_insert (hp : Put t t' n n' i (some (key, v))) (h : Distinct t n)
    (hnew : find t n key = none) : find t' n' key = some (i, v) := by
  have hsize := hp.size
  exact (hp.distinct_insert h hnew).find_eq_some.2 ⟨by omega, hp.self⟩

omit [DecidableEq κ] in
/-- A slot is emptied. -/
theorem distinct_erase (hp : Put t t' n n' i none) (h : Distinct t n) : Distinct t' n' := by
  intro a b ha hb he hne
  rcases hp.slot ha with rfl | ⟨ha, hai⟩
  · exact absurd hp.self hne
  · rcases hp.slot hb with rfl | ⟨hb, hbi⟩
    · rw [hp.self, Option.map_none, Option.map_eq_none_iff] at he
      exact absurd he hne
    · rw [hp.ne a ha hai] at he hne
      rw [hp.ne b hb hbi] at he
      exact h a b ha hb he hne

theorem find_erase (hp : Put t t' n n' i none) (h : Distinct t n)
    (hold : find t n key = some (i, v)) : find t' n' key = none := by
  obtain ⟨hi, ht⟩ := h.find_eq_some.1 hold
  rw [find_eq_none]
  intro j w hj hw
  rcases hp.slot hj with rfl | ⟨hj, hji⟩
  · rw [hp.self] at hw
    cases hw
  · rw [hp.ne j hj hji] at hw
    exact hji (h j i hj hi (by rw [hw, ht]; rfl) (by rw [hw]; simp))

end Put

end Slots
