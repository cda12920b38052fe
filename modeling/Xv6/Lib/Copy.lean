import Mathlib.Data.BitVec
import Mathlib.Tactic

/-!
# Copying a range of memory onto another

A memory is a function of addresses of `w` bits.  `forward` copies `n` cells one after the other from
the lowest up, `backward` from the highest down; `moved` is the memory that a copy should leave.
Cell `i` is right after `forward` unless it was overwritten before it was read, and that happens
exactly if the destination begins behind the source and before its end (`forward_eq_iff`); for
`backward` it is the other way round (`backward_eq`).
-/

namespace Copy

variable {w : Nat} {β : Type}

def forward (m : BitVec w → β) (d s : BitVec w) : Nat → BitVec w → β
  | 0 => m
  | n + 1 => forward (Function.update m d (m s)) (d + 1) (s + 1) n

def backward (m : BitVec w → β) (d s : BitVec w) : Nat → BitVec w → β
  | 0 => m
  | n + 1 => backward (Function.update m (d - 1) (m (s - 1))) (d - 1) (s - 1) n

def moved (m : BitVec w → β) (d s : BitVec w) (n : Nat) : BitVec w → β :=
  fun a => if (a - d).toNat < n then m (s + (a - d)) else m a

variable {m : BitVec w → β} {d s : BitVec w} {n : Nat}

theorem ofNat_succ (a : BitVec w) (n : Nat) :
    a + BitVec.ofNat w (n + 1) = a + 1 + BitVec.ofNat w n := by
  rw [Nat.add_comm n 1, BitVec.ofNat_add, add_assoc]
  rfl

/-- The last round of the loop. -/
theorem forward_succ (m : BitVec w → β) (d s : BitVec w) (n : Nat) :
    forward m d s (n + 1) = Function.update (forward m d s n) (d + BitVec.ofNat w n)
      (forward m d s n (s + BitVec.ofNat w n)) := by
  induction n generalizing m d s with
  | zero => simp [forward]
  | succ n ih =>
    rw [forward, ih, ofNat_succ, ofNat_succ]
    rfl

theorem toNat_add_sub {a b : BitVec w} {n : Nat} (hn : n < 2 ^ w) :
    (a + BitVec.ofNat w n - b).toNat = ((a - b).toNat + n) % 2 ^ w := by
  rw [show a + BitVec.ofNat w n - b = (a - b) + BitVec.ofNat w n by abel, BitVec.toNat_add,
    BitVec.toNat_ofNat, Nat.mod_eq_of_lt hn]

theorem toNat_sub_self (a : BitVec w) : (a - a).toNat = 0 := by
  rw [sub_self]
  exact BitVec.toNat_zero

theorem toNat_add_sub_self (a : BitVec w) {n : Nat} (hn : n < 2 ^ w) :
    (a + BitVec.ofNat w n - a).toNat = n := by
  rw [toNat_add_sub hn, toNat_sub_self, Nat.zero_add, Nat.mod_eq_of_lt hn]

/-- Different distances are different addresses. -/
theorem add_ofNat_ne (a : BitVec w) {i n : Nat} (hi : i < 2 ^ w) (hn : n < 2 ^ w) (hne : i ≠ n) :
    a + BitVec.ofNat w i ≠ a + BitVec.ofNat w n := by
  intro he
  have hdist := toNat_add_sub_self a hi
  rw [he, toNat_add_sub_self a hn] at hdist
  exact hne hdist.symm

/-- Cells that have not been written. -/
theorem forward_out (hn : n ≤ 2 ^ w) {a : BitVec w} (ha : n ≤ (a - d).toNat) :
    forward m d s n a = m a := by
  induction n with
  | zero => rfl
  | succ n ih =>
    have hne : a ≠ d + BitVec.ofNat w n := by
      rintro rfl
      rw [toNat_add_sub_self d (by omega)] at ha
      omega
    rw [forward_succ, Function.update_of_ne hne, ih (by omega) (by omega)]

/-- A cell that has been written holds what its source held at that time. -/
theorem forward_in (hn : n ≤ 2 ^ w) {i : Nat} (hi : i < n) :
    forward m d s n (d + BitVec.ofNat w i) = forward m d s i (s + BitVec.ofNat w i) := by
  induction n with
  | zero => omega
  | succ n ih =>
    rw [forward_succ]
    by_cases hin : i = n
    · rw [hin, Function.update_self]
    · have hne := add_ofNat_ne d (i := i) (n := n) (by omega) (by omega) hin
      rw [Function.update_of_ne hne, ih (by omega) (by omega)]

/-- The address of a cell of the destination, by its distance. -/
theorem eq_add_sub (a d : BitVec w) : a = d + BitVec.ofNat w (a - d).toNat := by
  rw [BitVec.ofNat_toNat, BitVec.setWidth_eq]
  abel

theorem forward_eq (hn : n ≤ 2 ^ w) (h : d = s ∨ n ≤ (d - s).toNat) :
    forward m d s n = moved m d s n := by
  funext a
  unfold moved
  by_cases ha : (a - d).toNat < n
  · rw [if_pos ha]
    obtain ⟨i, hi⟩ : ∃ i, i = (a - d).toNat := ⟨_, rfl⟩
    have haddr := eq_add_sub a d
    rw [← hi] at ha haddr
    rw [haddr, forward_in hn ha, add_sub_cancel_left]
    -- the source cell has not been written before round `i`
    refine forward_out (by omega) ?_
    rw [toNat_add_sub (by omega)]
    rcases h with rfl | h
    · rw [toNat_sub_self, Nat.zero_add]
      exact (Nat.mod_eq_of_lt (by omega)).ge
    · have hneg : (s - d).toNat = 2 ^ w - (d - s).toNat := by
        rw [← neg_sub d s, BitVec.toNat_neg]
        have := (d - s).isLt
        exact Nat.mod_eq_of_lt (by omega)
      rw [hneg]
      have := (d - s).isLt
      rw [Nat.mod_eq_of_lt (by omega)]
      omega
  · rw [if_neg ha]
    exact forward_out hn (by omega)

/-- The copy from the lowest cell up is right for every memory exactly if the destination does not
begin inside the source. -/
theorem forward_eq_iff [Nontrivial β] (hn : n ≤ 2 ^ w) :
    (∀ m : BitVec w → β, forward m d s n = moved m d s n) ↔ d = s ∨ n ≤ (d - s).toNat := by
  refine ⟨fun h => ?_, fun h m => forward_eq hn h⟩
  by_contra hno
  obtain ⟨hne, hlt⟩ := not_or.1 hno
  rw [Nat.not_le] at hlt
  -- the cell at the distance of the two ranges gets what the first one got
  obtain ⟨x, y, hxy⟩ := exists_pair_ne β
  obtain ⟨k, hk⟩ : ∃ k, k = (d - s).toNat := ⟨_, rfl⟩
  have hd := eq_add_sub d s
  rw [← hk] at hlt hd
  have hkpos : 0 < k := by
    rcases Nat.eq_zero_or_pos k with hz | hpos
    · rw [hz, BitVec.add_zero] at hd
      exact absurd hd hne
    · exact hpos
  have hmem := congrFun (h (Function.update (fun _ => x) s y)) (d + BitVec.ofNat w k)
  have hfirst : forward (Function.update (fun _ => x) s y) d s k d = y := by
    have h0 := forward_in (m := Function.update (fun _ => x) s y) (d := d) (s := s) (n := k)
      (by omega) hkpos
    rw [BitVec.add_zero, BitVec.add_zero] at h0
    rw [h0]
    exact Function.update_self ..
  have hdist : (d + BitVec.ofNat w k - d).toNat = k := toNat_add_sub_self d (by omega)
  rw [forward_in hn hlt, ← hd, hfirst, moved, if_pos (by rw [hdist]; exact hlt),
    add_sub_cancel_left, ← hd, Function.update_of_ne hne] at hmem
  exact hxy hmem.symm

theorem backward_eq (hn : n ≤ 2 ^ w) (h : s = d ∨ n ≤ (s - d).toNat) :
    backward m (d + BitVec.ofNat w n) (s + BitVec.ofNat w n) n = moved m d s n := by
  induction n generalizing m with
  | zero =>
    funext a
    simp [backward, moved]
  | succ n ih =>
    have hlast : ∀ a : BitVec w, a + BitVec.ofNat w (n + 1) - 1 = a + BitVec.ofNat w n := by
      intro a
      rw [ofNat_succ]
      abel
    rw [backward, hlast, hlast, ih (by omega) (h.imp_right fun h => by omega)]
    funext a
    unfold moved
    obtain ⟨i, hi⟩ : ∃ i, i = (a - d).toNat := ⟨_, rfl⟩
    have haddr := eq_add_sub a d
    have hoff : a - d = BitVec.ofNat w i := by rw [hi, BitVec.ofNat_toNat, BitVec.setWidth_eq]
    have hilt : i < 2 ^ w := hi ▸ (a - d).isLt
    rw [← hi] at haddr
    rw [← hi, hoff]
    by_cases hin : i < n
    · -- the source cell is not the one just written
      rw [if_pos hin, if_pos (by omega), Function.update_of_ne]
      intro he
      have hdist : (s + BitVec.ofNat w i - d).toNat = n := by
        rw [he, toNat_add_sub_self d (by omega)]
      rw [toNat_add_sub hilt] at hdist
      have hlt := (s - d).isLt
      rcases h with rfl | h
      · rw [toNat_sub_self, Nat.zero_add, Nat.mod_eq_of_lt hilt] at hdist
        omega
      · by_cases hwrap : (s - d).toNat + i < 2 ^ w
        · rw [Nat.mod_eq_of_lt hwrap] at hdist
          omega
        · rw [Nat.mod_eq_sub_mod (by omega), Nat.mod_eq_of_lt (by omega)] at hdist
          omega
    · rw [if_neg hin]
      by_cases hlastCell : i = n
      · rw [if_pos (by omega), haddr, hlastCell, Function.update_self]
      · rw [if_neg (by omega), Function.update_of_ne]
        rw [haddr]
        exact add_ofNat_ne d hilt (by omega) hlastCell

end Copy
