import Mathlib.Data.Set.Insert
import Mathlib.Tactic

/-!
# Resources with one owner each

An allocator marks resources as used, and places refer to them.  `Owns ref used
pending`: a used resource is referred to from one place, or it is *pending*: it has
been allocated and not been attached to a place yet, or it was detached and is not
free yet.  Code keeps `Owns` at every step of its way by moving resources through
`pending`: `alloc`, `attach`, `detach`, `free`.
-/

namespace Conc

variable {ι β : Type}

structure Owns (ref : ι → Option β) (used pending : Set β) : Prop where
  used_iff : ∀ b, b ∈ used ↔ b ∈ pending ∨ ∃ i, ref i = some b
  inj : ∀ i j b, ref i = some b → ref j = some b → i = j
  not_pending : ∀ i b, ref i = some b → b ∉ pending

namespace Owns

variable {ref ref' : ι → Option β} {used pending : Set β}

theorem used_of_ref (h : Owns ref used pending) {i : ι} {b : β} (hi : ref i = some b) : b ∈ used :=
  (h.used_iff b).2 (Or.inr ⟨i, hi⟩)

theorem congr (h : Owns ref used pending) {used' pending' : Set β} (hr : ∀ i, ref' i = ref i)
    (hu : ∀ b, b ∈ used' ↔ b ∈ used) (hp : ∀ b, b ∈ pending' ↔ b ∈ pending) :
    Owns ref' used' pending' := by
  have : ref' = ref := funext hr
  have : used' = used := Set.ext hu
  have : pending' = pending := Set.ext hp
  subst_vars
  exact h

/-- The places under other names. -/
theorem reindex {κ : Type} {ref'' : κ → Option β} (h : Owns ref used pending) (e : κ → ι)
    (hto : ∀ k b, ref'' k = some b → ref (e k) = some b)
    (hfrom : ∀ i b, ref i = some b → ∃ k, ref'' k = some b)
    (hinj : ∀ k k' b, ref'' k = some b → ref'' k' = some b → e k = e k' → k = k') :
    Owns ref'' used pending where
  used_iff b := by
    rw [h.used_iff]
    refine or_congr Iff.rfl ⟨fun ⟨i, hi⟩ => hfrom i b hi, fun ⟨k, hk⟩ => ⟨e k, hto k b hk⟩⟩
  inj k k' b hk hk' := hinj k k' b hk hk' (h.inj _ _ b (hto k b hk) (hto k' b hk'))
  not_pending k b hk := h.not_pending _ b (hto k b hk)

theorem alloc (h : Owns ref used pending) {b : β} (hb : b ∉ used) :
    Owns ref (insert b used) (insert b pending) where
  used_iff x := by
    rw [Set.mem_insert_iff, Set.mem_insert_iff, h.used_iff, or_assoc]
  inj := h.inj
  not_pending i x hi hx := by
    rcases Set.mem_insert_iff.1 hx with rfl | hx
    · exact hb (h.used_of_ref hi)
    · exact h.not_pending i x hi hx

theorem attach (h : Owns ref used pending) {b : β} (hb : b ∈ pending) {i : ι} (hi : ref i = none)
    (hself : ref' i = some b) (hne : ∀ j, j ≠ i → ref' j = ref j) :
    Owns ref' used (pending \ {b}) where
  used_iff x := by
    rw [h.used_iff]
    constructor
    · rintro (hx | ⟨j, hj⟩)
      · by_cases hxb : x = b
        · exact Or.inr ⟨i, hxb ▸ hself⟩
        · exact Or.inl ⟨hx, hxb⟩
      · have hji : j ≠ i := fun he => by simp [he, hi] at hj
        exact Or.inr ⟨j, (hne j hji).trans hj⟩
    · rintro (hx | ⟨j, hj⟩)
      · exact Or.inl hx.1
      · by_cases hji : j = i
        · rw [hji, hself] at hj
          exact Or.inl (Option.some.inj hj ▸ hb)
        · exact Or.inr ⟨j, (hne j hji).symm.trans hj⟩
  inj j k x hj hk := by
    -- only `i` has the new resource, which no other place can have had while it was pending
    by_cases hji : j = i
    · by_cases hki : k = i
      · rw [hji, hki]
      · rw [hji, hself] at hj
        rw [hne k hki] at hk
        exact absurd (Option.some.inj hj ▸ hb) (h.not_pending k x hk)
    · rw [hne j hji] at hj
      by_cases hki : k = i
      · rw [hki, hself] at hk
        exact absurd (Option.some.inj hk ▸ hb) (h.not_pending j x hj)
      · rw [hne k hki] at hk
        exact h.inj j k x hj hk
  not_pending j x hj hx := by
    by_cases hji : j = i
    · rw [hji, hself] at hj
      exact hx.2 (Option.some.inj hj).symm
    · rw [hne j hji] at hj
      exact h.not_pending j x hj hx.1

theorem detach (h : Owns ref used pending) {S : Set ι} (hin : ∀ i ∈ S, ref' i = none)
    (hout : ∀ i, i ∉ S → ref' i = ref i) :
    Owns ref' used (pending ∪ {b | ∃ i ∈ S, ref i = some b}) where
  used_iff x := by
    rw [h.used_iff]
    constructor
    · rintro (hx | ⟨j, hj⟩)
      · exact Or.inl (Or.inl hx)
      · by_cases hS : j ∈ S
        · exact Or.inl (Or.inr ⟨j, hS, hj⟩)
        · exact Or.inr ⟨j, (hout j hS).trans hj⟩
    · rintro ((hx | ⟨j, _, hj⟩) | ⟨j, hj⟩)
      · exact Or.inl hx
      · exact Or.inr ⟨j, hj⟩
      · by_cases hS : j ∈ S
        · rw [hin j hS] at hj
          cases hj
        · exact Or.inr ⟨j, (hout j hS).symm.trans hj⟩
  inj j k x hj hk := by
    have hjS : j ∉ S := fun hS => by simp [hin j hS] at hj
    have hkS : k ∉ S := fun hS => by simp [hin k hS] at hk
    exact h.inj j k x ((hout j hjS).symm.trans hj) ((hout k hkS).symm.trans hk)
  not_pending j x hj hx := by
    have hjS : j ∉ S := fun hS => by simp [hin j hS] at hj
    have hj' := (hout j hjS).symm.trans hj
    rcases hx with hx | ⟨k, hk, hkx⟩
    · exact h.not_pending j x hj' hx
    · exact hjS (h.inj k j x hkx hj' ▸ hk)

theorem free (h : Owns ref used pending) {b : β} (hb : b ∈ pending) :
    Owns ref (used \ {b}) (pending \ {b}) where
  used_iff x := by
    constructor
    · rintro ⟨hx, hxb⟩
      rcases (h.used_iff x).1 hx with hx | hx
      · exact Or.inl ⟨hx, hxb⟩
      · exact Or.inr hx
    · rintro (hx | ⟨i, hi⟩)
      · exact ⟨(h.used_iff x).2 (Or.inl hx.1), hx.2⟩
      · refine ⟨h.used_of_ref hi, ?_⟩
        rintro rfl
        exact h.not_pending i x hi hb
  inj := h.inj
  not_pending i x hi hx := h.not_pending i x hi hx.1

/-! ## More references -/

section Grow

variable {used' : Set β} (h : Owns ref used pending) (h' : Owns ref' used' pending)
  (hmono : ∀ i b, ref i = some b → ref' i = some b)
include h h' hmono

/-- What a new reference is to was not in use. -/
theorem fresh {i : ι} {b : β} (hi : ref i = none) (hb : ref' i = some b) : b ∉ used := by
  intro hu
  rcases (h.used_iff b).1 hu with hp | ⟨j, hj⟩
  · exact h'.not_pending i b hb hp
  · have hji := h'.inj j i b (hmono j b hj) hb
    rw [← hji, hj] at hi
    cases hi

/-- The resources in use are those that were, and those of the new references. -/
theorem grow (b : β) : b ∈ used' ↔ b ∈ used ∨ ∃ i, ref i = none ∧ ref' i = some b := by
  rw [h'.used_iff, h.used_iff]
  constructor
  · rintro (hp | ⟨i, hi⟩)
    · exact Or.inl (Or.inl hp)
    · cases hold : ref i with
      | none => exact Or.inr ⟨i, hold, hi⟩
      | some c =>
        have hc := hmono i c hold
        rw [hi] at hc
        exact Or.inl (Or.inr ⟨i, hc ▸ hold⟩)
  · rintro ((hp | ⟨i, hi⟩) | ⟨i, -, hi⟩)
    · exact Or.inl hp
    · exact Or.inr ⟨i, hmono i b hi⟩
    · exact Or.inr ⟨i, hi⟩

end Grow

end Owns

end Conc
