import Xv6.Lib.Bytes

/-!
# A window of a sequence of bytes, kept in a ring

A ring of `n` bytes is written and read at counters that only grow, taken modulo `n`.  The
bytes that were written and not read yet are a window of all that were ever written:
`Window b l lo` says that the bytes of `l` from index `lo` on are in the ring `b`.
-/

namespace Bytes

def Window {n : Nat} (b : Blk n) (l : List Byte) (lo : Nat) : Prop :=
  ∀ j, lo ≤ j → j < l.length → l[j]? = some (b.get (j % n))

namespace Window

variable {n : Nat} {b : Blk n} {l l' : List Byte} {lo hi : Nat}

theorem mono (h : Window b l lo) (hlo : lo ≤ hi) : Window b l hi :=
  fun j hj hjl => h j (hlo.trans hj) hjl

/-- The last bytes are taken back. -/
theorem of_append (h : Window b (l ++ l') lo) : Window b l lo := by
  intro j hj hjl
  rw [← List.getElem?_append_left hjl]
  exact h j hj (by rw [List.length_append]; omega)

theorem push (h : Window b l lo) (hn : 0 < n) (hroom : l.length < lo + n) (c : Byte) :
    Window (b.splice (l.length % n) 1 fun _ => c) (l ++ [c]) lo := by
  intro j hj hjl
  rw [List.length_append, List.length_singleton] at hjl
  rw [Blk.get_splice _ _ _ _ (Nat.mod_lt _ hn)]
  by_cases hjn : j = l.length
  · rw [if_pos (by rw [hjn]; omega), hjn, List.getElem?_concat_length]
  · have hlt : j < l.length := by omega
    have hplace : j % n ≠ l.length % n := by
      intro heq
      have hmul : (l.length - j) % n = 0 := Nat.sub_mod_eq_zero_of_mod_eq heq.symm
      rw [Nat.mod_eq_of_lt (by omega)] at hmul
      omega
    rw [if_neg (by omega), List.getElem?_append_left hlt]
    exact h j hj hlt

/-- The byte at the lower end. -/
theorem first (h : Window b l lo) (hlo : lo < l.length) : l[lo]? = some (b.get (lo % n)) :=
  h lo (Nat.le_refl _) hlo

end Window

end Bytes
