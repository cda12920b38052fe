import Xv6.Lib.Bytes

/-!
# C strings in a buffer

`Blk.cstr b` is the string that starts at the first byte of `b` and goes up to a `0`, or to the end
of the buffer.  `cstr_eq` is for a buffer known byte by byte, `cstr_ofList` for one that a
list was copied into.
-/

namespace Bytes.Blk

variable {n : Nat}

def cstr (b : Blk n) : List Byte := ((List.range n).map b.get).takeWhile (· != 0)

/-- A string is decided by the bytes up to its end. -/
theorem takeWhile_map_congr {f g : Nat → Byte} (i m : Nat)
    (h : ∀ k, i ≤ k → k < i + m → (∀ j, i ≤ j → j < k → f j ≠ 0) → g k = f k) :
    ((List.range' i m).map g).takeWhile (· != 0) = ((List.range' i m).map f).takeWhile (· != 0) := by
  induction m generalizing i with
  | zero => rfl
  | succ m ih =>
    have hi : g i = f i := h i le_rfl (by omega) fun j h1 h2 => by omega
    simp only [List.range'_succ, List.map_cons, List.takeWhile_cons, hi]
    by_cases hz : f i = 0
    · simp [hz]
    · have hne : (f i != 0) = true := by simpa using hz
      rw [if_pos hne, if_pos hne, ih (i + 1) fun k h1 h2 h3 => h k (by omega) (by omega) ?_]
      intro j hj hjk
      by_cases hji : j = i
      · rwa [hji]
      · exact h3 j (by omega) hjk

theorem cstr_congr {b c : Blk n} (h : ∀ k, k < n → (∀ j, j < k → b.get j ≠ 0) → c.get k = b.get k) :
    c.cstr = b.cstr := by
  unfold cstr
  rw [List.range_eq_range']
  refine takeWhile_map_congr 0 n fun k _ hk hne => h k (by omega) fun j hj => hne j (Nat.zero_le j) hj

theorem cstr_eq {b : Blk n} {len : Nat} (hlen : len < n) (hne : ∀ j, j < len → b.get j ≠ 0)
    (hend : b.get len = 0) : b.cstr = (List.range len).map b.get := by
  obtain ⟨m, hm⟩ : ∃ m, n = len + (m + 1) := ⟨n - len - 1, by omega⟩
  have hrange : List.range n = List.range len ++ (List.range (m + 1)).map (len + ·) :=
    (congrArg List.range hm).trans List.range_add
  unfold cstr
  rw [hrange, List.range_succ_eq_map, List.map_append, List.takeWhile_append_of_pos]
  · simp [hend]
  · intro c hc
    obtain ⟨j, hj, rfl⟩ := List.mem_map.1 hc
    simpa using hne j (List.mem_range.1 hj)

theorem cstr_ofList {b : Blk n} {l : List Byte} (hlen : l.length < n) (h0 : 0 ∉ l)
    (hget : ∀ j, j < l.length → b.get j = l.getD j 0) (hend : b.get l.length = 0) : b.cstr = l := by
  have hbyte : ∀ j (hj : j < l.length), b.get j = l[j] := fun j hj => by
    rw [hget j hj, List.getD_eq_getElem?_getD, List.getElem?_eq_getElem hj, Option.getD_some]
  rw [cstr_eq hlen (fun j hj he => h0 ?_) hend]
  · refine List.ext_getElem (by simp) fun j hj hj' => ?_
    rw [List.getElem_map, List.getElem_range, hbyte j hj']
  · rw [← he, hbyte j hj]
    exact List.getElem_mem hj

structure Holds (b : Blk n) (l : List Byte) : Prop where
  byte : ∀ j, j < l.length → b.get j = l.getD j 0
  stop : b.get l.length = 0

theorem Holds.cstr {b : Blk n} {l : List Byte} (h : b.Holds l) (hlen : l.length < n) (h0 : 0 ∉ l) :
    b.cstr = l :=
  cstr_ofList hlen h0 h.byte h.stop

/-- Bytes are copied to the start of the buffer, and the one after the first `len` is cleared. -/
theorem holds_take (b : Blk n) (bs : List Byte) {len : Nat} (hlen : len < n) (hbs : len ≤ bs.length) :
    ((b.splice 0 bs.length fun i => bs.getD i 0).splice len 1 fun _ => 0).Holds (bs.take len) := by
  have hl : (bs.take len).length = len := by rw [List.length_take, Nat.min_eq_left hbs]
  constructor
  · intro j hj
    rw [hl] at hj
    rw [get_splice _ _ _ _ (hj.trans hlen), if_neg (by omega),
      get_splice _ _ _ _ (hj.trans hlen), if_pos (by omega), Nat.sub_zero,
      List.getD_eq_getElem?_getD, List.getD_eq_getElem?_getD, List.getElem?_take_of_lt hj]
  · rw [hl, get_splice _ _ _ _ hlen, if_pos (by omega)]

end Bytes.Blk
