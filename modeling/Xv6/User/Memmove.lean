import Xv6.Lib.Bytes
import Xv6.Lib.Copy

/-!
# The two `memmove`

`string.c` has the `memmove` of the kernel and `ulib.c` that of user programs.  The first looks at the
overlap of the ranges and copies from the end where it has to; the second always copies from the
start.  So the kernel's is right for all ranges, and the other one, and with it the agreement of the
two, exactly where the destination does not begin inside the source.
-/

namespace Xv6

open Bytes Copy

abbrev Ram := Word → Byte

/-- `memmove` of `string.c`: what it returns, and memory. -/
def Str.memmove (m : Ram) (dst src : Word) (n : Word) : Word × Ram :=
  if src < dst ∧ dst < src + n then
    (dst, backward m (dst + n) (src + n) n.toNat)
  else (dst, forward m dst src n.toNat)

def Ulib.memmove (m : Ram) (dst src : Word) (n : Word) : Word × Ram :=
  (dst, forward m dst src n.toInt.toNat)

variable {dst src n : Word}

/-- The distance of two addresses, where it does not go around. -/
theorem toNat_sub_of_le {a b : Word} (h : b.toNat ≤ a.toNat) :
    (a - b).toNat = a.toNat - b.toNat := by
  have := a.isLt
  rw [BitVec.toNat_sub]
  omega

theorem toNat_sub_of_lt {a b : Word} (h : a.toNat < b.toNat) :
    (a - b).toNat = 2 ^ 32 - (b.toNat - a.toNat) := by
  have := b.isLt
  rw [BitVec.toNat_sub]
  omega

theorem toNat_toInt (hn : 0 ≤ n.toInt) : n.toInt.toNat = n.toNat := by
  have := n.isLt
  rw [BitVec.toInt_eq_toNat_cond] at *
  split <;> split at hn <;> omega

/-- The destination begins behind the start of the source and before its end. -/
theorem begins_inside_iff (hs : src.toNat + n.toNat ≤ 2 ^ 32) :
    (dst = src ∨ n.toNat ≤ (dst - src).toNat) ↔
      dst.toNat ≤ src.toNat ∨ src.toNat + n.toNat ≤ dst.toNat := by
  rcases Nat.lt_trichotomy dst.toNat src.toNat with h | h | h
  · have hd := toNat_sub_of_lt h
    constructor
    · intro _
      exact Or.inl h.le
    · intro _
      right
      omega
  · constructor
    · intro _
      exact Or.inl h.le
    · intro _
      exact Or.inl (BitVec.eq_of_toNat_eq h)
  · have hd := toNat_sub_of_le h.le
    constructor
    · rintro (rfl | hle)
      · omega
      · right
        omega
    · rintro (hle | hle)
      · omega
      · right
        omega

theorem str_memmove_eq (m : Ram) (hd : dst.toNat + n.toNat ≤ 2 ^ 32)
    (hs : src.toNat + n.toNat ≤ 2 ^ 32) :
    Str.memmove m dst src n = (dst, moved m dst src n.toNat) := by
  have hn : n.toNat ≤ 2 ^ 32 := n.isLt.le
  have hofNat : BitVec.ofNat 32 n.toNat = n := by rw [BitVec.ofNat_toNat, BitVec.setWidth_eq]
  unfold Str.memmove
  by_cases hlt : src < dst
  · have hlt' : src.toNat < dst.toNat := hlt
    have hnowrap : (src + n).toNat = src.toNat + n.toNat ∨ src.toNat + n.toNat = 2 ^ 32 := by
      rw [BitVec.toNat_add]
      omega
    by_cases hov : dst.toNat < src.toNat + n.toNat
    · have hend : dst < src + n := by
        rcases hnowrap with h | h
        · show dst.toNat < (src + n).toNat
          omega
        · omega
      rw [if_pos ⟨hlt, hend⟩]
      have hback := backward_eq (m := m) (d := dst) (s := src) hn (Or.inr (by
        rw [toNat_sub_of_lt hlt']
        omega))
      rw [hofNat] at hback
      rw [hback]
    · have hend : ¬ dst < src + n := by
        intro h
        have h' : dst.toNat < (src + n).toNat := h
        have := dst.isLt
        rcases hnowrap with h | h
        · omega
        · rw [BitVec.toNat_add, h] at h'
          omega
      rw [if_neg fun h => hend h.2, forward_eq hn]
      exact (begins_inside_iff hs).2 (Or.inr (by omega))
  · rw [if_neg fun h => hlt h.1, forward_eq hn]
    exact (begins_inside_iff hs).2 (Or.inl (Nat.le_of_not_lt hlt))

/-- The `memmove` of the kernel moves the bytes, whatever the overlap; that of `ulib.c` does so for
every memory, and so agrees with the other, exactly if the destination does not begin inside the
source. -/
theorem memmove_agree_iff (dst src n : Word) (hd : dst.toNat + n.toNat ≤ 2 ^ 32)
    (hs : src.toNat + n.toNat ≤ 2 ^ 32) :
    (∀ m, Str.memmove m dst src n = (dst, moved m dst src n.toNat)) ∧
    (0 ≤ n.toInt →
      ((∀ m, Ulib.memmove m dst src n = (dst, moved m dst src n.toNat)) ↔
        dst.toNat ≤ src.toNat ∨ src.toNat + n.toNat ≤ dst.toNat) ∧
      ((∀ m, Ulib.memmove m dst src n = Str.memmove m dst src n) ↔
        dst.toNat ≤ src.toNat ∨ src.toNat + n.toNat ≤ dst.toNat)) := by
  refine ⟨fun m => str_memmove_eq m hd hs, fun hn => ?_⟩
  have huser : (∀ m, Ulib.memmove m dst src n = (dst, moved m dst src n.toNat)) ↔
      dst.toNat ≤ src.toNat ∨ src.toNat + n.toNat ≤ dst.toNat := by
    have : Nontrivial Byte := ⟨⟨0, 1, by decide⟩⟩
    rw [← begins_inside_iff hs, ← forward_eq_iff (β := Byte) n.isLt.le]
    unfold Ulib.memmove
    rw [toNat_toInt hn]
    simp
  refine ⟨huser, Iff.trans ?_ huser⟩
  exact forall_congr' fun m => by rw [str_memmove_eq m hd hs]

/-- Two bytes are moved down by one. -/
theorem memmove_agree_down : (∀ m, Str.memmove m 4 5 2 = (4, moved m 4 5 2)) ∧
    ∀ m, Ulib.memmove m 4 5 2 = Str.memmove m 4 5 2 := by
  have h := memmove_agree_iff 4 5 2 (by decide) (by decide)
  exact ⟨h.1, (h.2 (by decide)).2.2 (Or.inl (by decide))⟩

/-- Two bytes `1 0` are moved up by one: the second copy reads what the first one wrote. -/
theorem ulib_memmove_smears : ∃ m : Ram, m 4 = 1 ∧ m 5 = 0 ∧
    (Str.memmove m 5 4 2).2 5 = 1 ∧ (Str.memmove m 5 4 2).2 6 = 0 ∧
    (Ulib.memmove m 5 4 2).2 5 = 1 ∧ (Ulib.memmove m 5 4 2).2 6 = 1 :=
  ⟨fun a => if a = 4 then 1 else 0, by decide⟩

end Xv6
