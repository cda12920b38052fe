import Mathlib.Tactic

/-!
# Fixed-size blocks of bytes with little-endian fields

`Blk n` is an array of `n` bytes.  Everything is read with `get` (a byte by its
index, `0` past the end) and built with `ofFn` (a byte for every index), so no
index carries a bound; `Blk.ext_get` says two blocks with equal bytes are equal.

A field of two or four bytes is read with `short` / `word`, one of four is replaced
with `setWord`, and `splice` replaces a run of bytes.  Each has the two lemmas a
caller needs: what is read back, and that every other field is kept.
-/

namespace Bytes

abbrev Byte := BitVec 8
abbrev Short := BitVec 16
abbrev Word := BitVec 32

def Blk (n : Nat) : Type := Fin n → Byte

namespace Blk

variable {n : Nat}

def get (b : Blk n) (i : Nat) : Byte := if h : i < n then b ⟨i, h⟩ else 0

def ofFn (f : Nat → Byte) : Blk n := fun i => f i

/-- All bytes zero. -/
def zero : Blk n := ofFn fun _ => 0

theorem get_ofFn (f : Nat → Byte) {i : Nat} (h : i < n) : (ofFn f : Blk n).get i = f i := by
  simp [get, ofFn, h]

theorem get_of_le (b : Blk n) {i : Nat} (h : n ≤ i) : b.get i = 0 := by
  simp [get, Nat.not_lt.mpr h]

@[simp] theorem get_zero (i : Nat) : (zero : Blk n).get i = 0 := by
  by_cases h : i < n
  · rw [zero, get_ofFn _ h]
  · exact get_of_le _ (by omega)

theorem ext_get {a b : Blk n} (h : ∀ i, i < n → a.get i = b.get i) : a = b := by
  funext i
  have := h i.1 i.2
  simpa [get] using this

/-! ## Two- and four-byte fields -/

/-- The two-byte field at byte `o`, low byte first. -/
def short (b : Blk n) (o : Nat) : Short := b.get (o + 1) ++ b.get o

/-- The four-byte field at byte `o`, low byte first. -/
def word (b : Blk n) (o : Nat) : Word :=
  b.get (o + 3) ++ b.get (o + 2) ++ b.get (o + 1) ++ b.get o

def byteOf {w : Nat} (v : BitVec w) (k : Nat) : Byte := v.extractLsb' (8 * k) 8

def setWord (b : Blk n) (o : Nat) (v : Word) : Blk n :=
  ofFn fun i => if o ≤ i ∧ i < o + 4 then byteOf v (i - o) else b.get i

theorem append_byteOf_short (v : Short) : byteOf v 1 ++ byteOf v 0 = v := by
  simp only [byteOf]
  ext i hi
  simp only [BitVec.getElem_append, BitVec.getElem_extractLsb']
  rw [← BitVec.getLsbD_eq_getElem hi]
  split <;> congr 1 <;> omega

theorem append_byteOf_word (v : Word) :
    byteOf v 3 ++ byteOf v 2 ++ byteOf v 1 ++ byteOf v 0 = v := by
  simp only [byteOf]
  ext i hi
  simp only [BitVec.getElem_append, BitVec.getElem_extractLsb']
  rw [← BitVec.getLsbD_eq_getElem hi]
  split <;> [congr 1; split <;> [congr 1; split <;> congr 1]] <;> omega

theorem byteOf_append (b : Nat → Byte) {k : Nat} (hk : k < 4) :
    byteOf (b 3 ++ b 2 ++ b 1 ++ b 0 : Word) k = b k := by
  refine BitVec.eq_of_getLsbD_eq fun j hj => ?_
  rw [byteOf, BitVec.getLsbD_extractLsb', decide_eq_true hj, Bool.true_and,
    BitVec.getLsbD_append, BitVec.getLsbD_append, BitVec.getLsbD_append]
  interval_cases k <;> split_ifs <;> first | omega | (congr 1; omega)

/-- A two-byte field depends on its own bytes only. -/
theorem short_congr {a b : Blk n} {o : Nat} (h : ∀ i, o ≤ i → i < o + 2 → a.get i = b.get i) :
    a.short o = b.short o := by
  unfold short
  rw [h o (by omega) (by omega), h (o + 1) (by omega) (by omega)]

/-- A four-byte field depends on its own bytes only. -/
theorem word_congr {a b : Blk n} {o : Nat} (h : ∀ i, o ≤ i → i < o + 4 → a.get i = b.get i) :
    a.word o = b.word o := by
  unfold word
  rw [h o (by omega) (by omega), h (o + 1) (by omega) (by omega), h (o + 2) (by omega) (by omega),
    h (o + 3) (by omega) (by omega)]

theorem short_eq {b : Blk n} {o : Nat} {v : Short} (h : ∀ k, k < 2 → b.get (o + k) = byteOf v k) :
    b.short o = v := by
  have h0 := h 0 (by omega)
  have h1 := h 1 (by omega)
  rw [Nat.add_zero] at h0
  rw [short, h0, h1, append_byteOf_short]

theorem word_eq {b : Blk n} {o : Nat} {v : Word} (h : ∀ k, k < 4 → b.get (o + k) = byteOf v k) :
    b.word o = v := by
  have h0 := h 0 (by omega)
  have h1 := h 1 (by omega)
  have h2 := h 2 (by omega)
  have h3 := h 3 (by omega)
  rw [Nat.add_zero] at h0
  rw [word, h0, h1, h2, h3, append_byteOf_word]

@[simp] theorem word_zero (o : Nat) : (zero : Blk n).word o = 0 := by
  simp [word]

theorem word_setWord_self (b : Blk n) {o : Nat} (v : Word) (ho : o + 4 ≤ n) :
    (b.setWord o v).word o = v := by
  apply word_eq
  intro k hk
  rw [setWord, get_ofFn _ (by omega), if_pos (by omega), Nat.add_sub_cancel_left]

theorem word_setWord_ne (b : Blk n) {o p : Nat} (v : Word) (h : p + 4 ≤ o ∨ o + 4 ≤ p) :
    (b.setWord o v).word p = b.word p := by
  apply word_congr
  intro i hi hi'
  by_cases hn : i < n
  · rw [setWord, get_ofFn _ hn, if_neg (by omega)]
  · rw [get_of_le _ (by omega), get_of_le _ (by omega)]

/-! ## Runs of bytes -/

def splice (b : Blk n) (o m : Nat) (src : Nat → Byte) : Blk n :=
  ofFn fun i => if o ≤ i ∧ i < o + m then src (i - o) else b.get i

theorem get_splice (b : Blk n) (o m : Nat) (src : Nat → Byte) {i : Nat} (hi : i < n) :
    (b.splice o m src).get i = if o ≤ i ∧ i < o + m then src (i - o) else b.get i :=
  get_ofFn _ hi

theorem splice_congr (b : Blk n) (o m : Nat) {src src' : Nat → Byte}
    (h : ∀ k, k < m → src k = src' k) : b.splice o m src = b.splice o m src' := by
  refine ext_get fun i hi => ?_
  rw [get_splice _ _ _ _ hi, get_splice _ _ _ _ hi]
  split
  · exact h _ (by omega)
  · rfl

end Blk

end Bytes
