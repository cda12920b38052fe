import Xv6.Fs.Code

/-!
# The disk as bits, inodes and data

What the file system sees of the blocks: the bit of every block, the inode of every
number, and data blocks.  The areas do not overlap, so a write to one of them is
seen there only; each lemma says what one kind of write does to bits and inodes.
-/

namespace Xv6.Fs

open Bytes Conc

/-! ## Bits of a byte and of a block -/

/-- The mask test of `balloc` and `bfree` looks at one bit. -/
theorem byte_test (x : Byte) (j : Fin 8) : (x &&& ((1 : Byte) <<< j.1) != 0) = x.getLsbD j.1 := by
  revert x j
  decide +kernel

theorem mask_bit : ∀ j k : Fin 8, ((1 : Byte) <<< k.1).getLsbD j.1 = decide (j = k) := by
  decide

theorem byte_or_bit (x : Byte) (j k : Fin 8) :
    ((x ||| ((1 : Byte) <<< k.1)) &&& ((1 : Byte) <<< j.1) != 0) =
      (decide (j = k) || (x &&& ((1 : Byte) <<< j.1) != 0)) := by
  rw [byte_test, byte_test, BitVec.getLsbD_or, mask_bit, Bool.or_comm]

theorem bit_index {a b : Nat} (hbyte : a / 8 = b / 8) :
    (⟨a % 8, Nat.mod_lt _ (by omega)⟩ : Fin 8) = ⟨b % 8, Nat.mod_lt _ (by omega)⟩ ↔ a = b := by
  rw [Fin.mk.injEq]
  omega

theorem get_setByte (b : Block) (bi : Nat) (x : Byte) {j : Nat} (hj : j < BSIZE) :
    (b.splice (bi / 8) 1 fun _ => x).get j = if j = bi / 8 then x else b.get j := by
  rw [Blk.get_splice _ _ _ _ hj]
  by_cases h : j = bi / 8
  · rw [if_pos (by omega), if_pos h]
  · rw [if_neg (by omega), if_neg h]

theorem bitOf_setBit (b : Block) {bi j : Nat} (hj : j < BPB) :
    bitOf (setBit b bi) j = (decide (j = bi) || bitOf b j) := by
  have hlt : j / 8 < BSIZE := by
    simp only [BPB, BSIZE] at *
    omega
  unfold bitOf setBit
  rw [get_setByte _ _ _ hlt]
  by_cases h : j / 8 = bi / 8
  · rw [if_pos h, ← h]
    have hbit := byte_or_bit (b.get (j / 8)) ⟨j % 8, Nat.mod_lt _ (by omega)⟩
      ⟨bi % 8, Nat.mod_lt _ (by omega)⟩
    simp only [bit_index h] at hbit
    exact hbit
  · rw [if_neg h]
    have hne : j ≠ bi := fun he => h (by rw [he])
    simp [hne]

/-! ## Inodes in a block -/

theorem addr_setAddr (d : Dinode) {p : Nat} (hp : p ≤ NDIRECT) (w : Word) (q : Nat) :
    (d.setAddr p w).addr q = if q = p then w else d.addr q := by
  unfold Dinode.addr Dinode.setAddr
  by_cases hq : q < NDIRECT + 1
  · simp only [dif_pos hq]
  · rw [dif_neg hq, if_neg (by omega), dif_neg hq]

theorem get_putDinode (b : Block) (k : Nat) (d : Dinode) {i : Nat} (hi : i < BSIZE) :
    (putDinode b k d).get i = if DINODESZ * k ≤ i ∧ i < DINODESZ * k + 68 then
      d.byte (i - DINODESZ * k) else b.get i :=
  Blk.get_ofFn _ hi

/-- The fields of a slot come from its first 68 bytes. -/
theorem getDinode_congr {a b : Block} {k : Nat}
    (h : ∀ i, DINODESZ * k ≤ i → i < DINODESZ * k + 68 → a.get i = b.get i) :
    getDinode a k = getDinode b k := by
  simp only [getDinode, Dinode.mk.injEq]
  refine ⟨?_, ?_, ?_, ?_, ?_, ?_, ?_⟩
  · exact Blk.short_congr fun i hi hi' => h i (by omega) (by omega)
  · exact Blk.short_congr fun i hi hi' => h i (by omega) (by omega)
  · exact Blk.short_congr fun i hi hi' => h i (by omega) (by omega)
  · exact Blk.short_congr fun i hi hi' => h i (by omega) (by omega)
  · exact Blk.word_congr fun i hi hi' => h i (by omega) (by omega)
  · funext j
    have hj := j.2
    simp only [NDIRECT] at hj
    exact Blk.word_congr fun i hi hi' => h i (by omega) (by omega)
  · exact Blk.word_congr fun i hi hi' => h i (by omega) (by omega)

theorem getDinode_putDinode_ne (b : Block) {k j : Nat} (d : Dinode) (hj : j < IPB) (h : j ≠ k) :
    getDinode (putDinode b k d) j = getDinode b j := by
  refine getDinode_congr fun i hi hi' => ?_
  have hlt : i < BSIZE := by
    simp only [IPB, BSIZE, DINODESZ] at *
    omega
  rw [get_putDinode _ _ _ hlt, if_neg]
  simp only [DINODESZ] at *
  omega

theorem getDinode_putDinode (b : Block) {k : Nat} (d : Dinode) (hk : k < IPB) :
    getDinode (putDinode b k d) k = d := by
  have hbyte : ∀ o, o < 68 → (putDinode b k d).get (DINODESZ * k + o) = d.byte o := by
    intro o ho
    have hlt : DINODESZ * k + o < BSIZE := by
      simp only [IPB, BSIZE, DINODESZ] at *
      omega
    rw [get_putDinode _ _ _ hlt, if_pos (by omega), Nat.add_sub_cancel_left]
  obtain ⟨type, major, minor, nlink, size, addrs, mode⟩ := d
  simp only [getDinode, Dinode.mk.injEq]
  refine ⟨?_, ?_, ?_, ?_, ?_, ?_, ?_⟩
  · exact Blk.short_eq fun o ho => by
      rw [hbyte o (by omega)]
      simp only [Dinode.byte, if_pos ho]
  · exact Blk.short_eq fun o ho => by
      rw [Nat.add_assoc, hbyte (2 + o) (by omega)]
      simp [Dinode.byte, show ¬ 2 + o < 2 by omega, show 2 + o < 4 by omega]
  · exact Blk.short_eq fun o ho => by
      rw [Nat.add_assoc, hbyte (4 + o) (by omega)]
      simp [Dinode.byte, show ¬ 4 + o < 2 by omega, show ¬ 4 + o < 4 by omega,
        show 4 + o < 6 by omega]
  · exact Blk.short_eq fun o ho => by
      rw [Nat.add_assoc, hbyte (6 + o) (by omega)]
      simp [Dinode.byte, show ¬ 6 + o < 2 by omega, show ¬ 6 + o < 4 by omega,
        show ¬ 6 + o < 6 by omega, show 6 + o < 8 by omega]
  · exact Blk.word_eq fun o ho => by
      rw [Nat.add_assoc, hbyte (8 + o) (by omega)]
      simp [Dinode.byte, show ¬ 8 + o < 2 by omega, show ¬ 8 + o < 4 by omega,
        show ¬ 8 + o < 6 by omega, show ¬ 8 + o < 8 by omega, show 8 + o < 12 by omega]
  · funext j
    have hj := j.2
    simp only [NDIRECT] at hj
    exact Blk.word_eq fun o ho => by
      have hdiv : (12 + 4 * j.1 + o - 12) / 4 = j.1 := by omega
      have hmod : (12 + 4 * j.1 + o - 12) % 4 = o := by omega
      rw [show DINODESZ * k + 12 + 4 * j.1 + o = DINODESZ * k + (12 + 4 * j.1 + o) by omega,
        hbyte _ (by omega)]
      simp only [Dinode.byte, if_neg (show ¬ 12 + 4 * j.1 + o < 2 by omega),
        if_neg (show ¬ 12 + 4 * j.1 + o < 4 by omega), if_neg (show ¬ 12 + 4 * j.1 + o < 6 by omega),
        if_neg (show ¬ 12 + 4 * j.1 + o < 8 by omega), if_neg (show ¬ 12 + 4 * j.1 + o < 12 by omega),
        if_pos (show 12 + 4 * j.1 + o < 64 by omega), hdiv, hmod, Dinode.addr, dif_pos j.2]
  · exact Blk.word_eq fun o ho => by
      rw [Nat.add_assoc, hbyte (64 + o) (by omega)]
      simp [Dinode.byte, show ¬ 64 + o < 2 by omega, show ¬ 64 + o < 4 by omega,
        show ¬ 64 + o < 6 by omega, show ¬ 64 + o < 8 by omega, show ¬ 64 + o < 12 by omega,
        show ¬ 64 + o < 64 by omega]

end Xv6.Fs
