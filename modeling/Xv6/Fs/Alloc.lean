import Xv6.Fs.Volume

/-!
# Specifications of the block allocator and of `iupdate`

Each function of `fs.c` below has a rule for `wp`: what the state is when it
returns, and which stops `E` has to allow.  The kernel may stop because the log is
full (`Logs`) or no block is free, and a rule leaves to its caller whether that is allowed
or does not happen.

`FsOk` is the invariant of blocks, inodes on disk and inode cache between the
functions.  While a function changes an inode in memory, its entry is `dirty`: the
copy in the cache counts and the one on disk is out of date.
-/

namespace Xv6.Fs

open Bytes Conc Prog

variable {sb : Superblock} {E : Option Panic → Prop} {s : Kernel}

/-! ## Writing through the log -/

/-- `log_write` returns, or may stop the kernel. -/
def Logs (E : Option Panic → Prop) (l : Log) : Prop :=
  (E (some .tooBigTransaction) ∧ E (some .logWriteOutside)) ∨
    (l.lh.length < LOGSIZE ∧ (l.lh.length : Int) < l.size - 1 ∧ 1 ≤ l.outstanding)

theorem post_logWrite {b : Nat} {x : Block} {Q : Unit → Kernel → Prop} (h : Logs E s.log)
    (hQ : Q () (s.logged b x)) : (s.logWrite b x).Post E Q := by
  unfold Kernel.logWrite Log.logWrite Log.logWriteTest
  by_cases hbig : (s.log.lh.length : Int) ≥ LOGSIZE ∨ (s.log.lh.length : Int) ≥ s.log.size - 1
  · rw [if_pos hbig]
    rcases h with h | h
    · exact h.1
    · omega
  · rw [if_neg hbig]
    by_cases hout : s.log.outstanding < 1
    · rw [if_pos hout]
      rcases h with h | h
      · exact h.2
      · omega
    · rw [if_neg hout]
      exact hQ

/-! ## Bits -/

def bitAt (sb : Superblock) (s : Kernel) (b : Nat) : Bool := bitOf (s.blk (sb.bblock b)) (b % BPB)

/-- The state after `balloc` returned `r`. -/
def taken (sb : Superblock) (s : Kernel) (r : Nat) : Kernel :=
  (s.logged (sb.bblock r) (setBit (s.blk (sb.bblock r)) (r % BPB))).logged r .zero

theorem bblock_add {b k : Nat} (hb : b % BPB = 0) (hk : k < BPB) :
    sb.bblock (b + k) = sb.bblock b ∧ (b + k) % BPB = k := by
  unfold Superblock.bblock
  simp only [BPB, BSIZE] at *
  omega

theorem wp_ballocRound {b : Nat} {Q : Option Nat → Kernel → Prop} (hb : b % BPB = 0)
    (hlog : Logs E s.log)
    (hsome : ∀ k, k < BPB → b + k < sb.size → bitAt sb s (b + k) = false →
      Q (some k) (s.logged (sb.bblock b) (setBit (s.blk (sb.bblock b)) k)))
    (hnone : (∀ k, k < BPB → b + k < sb.size → bitAt sb s (b + k) = true) → Q none s) :
    wp E (ballocRound sb b) Q s := by
  have hbit : ∀ k, k < BPB → bitAt sb s (b + k) = bitOf (s.blk (sb.bblock b)) k := by
    intro k hk
    obtain ⟨h1, h2⟩ : sb.bblock (b + k) = sb.bblock b ∧ (b + k) % BPB = k := bblock_add hb hk
    unfold bitAt
    rw [h1, h2]
  unfold ballocRound
  rw [wp_atomic]
  dsimp only
  cases hf : (List.range (min BPB (sb.size - b))).find?
      fun k => !bitOf (s.blk (sb.bblock b)) k with
  | some k =>
    have hk := List.mem_of_find?_eq_some hf
    have hfree := List.find?_some hf
    rw [List.mem_range] at hk
    have hlt : k < BPB := by omega
    refine Res.post_bind.2 (post_logWrite hlog ?_)
    exact hsome k hlt (by omega) (by rw [hbit k hlt]; simpa using hfree)
  | none =>
    refine hnone fun k hk hsize => ?_
    have := List.find?_eq_none.1 hf k (List.mem_range.2 (by omega))
    rw [hbit k hk]
    simpa using this

theorem wp_balloc {Q : Nat → Kernel → Prop} (hlog : Logs E s.log)
    (hlog' : ∀ r, r < sb.size → Logs E (s.log.logAppend (sb.bblock r)))
    (hfree : E (some .ballocOutOfBlocks) ∨ ∃ r, r < sb.size ∧ bitAt sb s r = false)
    (hQ : ∀ r, r < sb.size → bitAt sb s r = false → Q r (taken sb s r)) :
    wp E (balloc sb) Q s := by
  have hfrom : ∀ bs : List Nat, (∀ b ∈ bs, b % BPB = 0) →
      (E (some .ballocOutOfBlocks) ∨
        ∃ r, r < sb.size ∧ bitAt sb s r = false ∧ ∃ b ∈ bs, b ≤ r ∧ r < b + BPB) →
      wp E (ballocFrom sb bs) Q s := by
    intro bs
    induction bs with
    | nil =>
      rintro _ (h | ⟨r, _, _, b, hb, _⟩)
      · exact h
      · exact absurd hb List.not_mem_nil
    | cons b bs ih =>
      intro hmul hsome
      have hb := hmul b List.mem_cons_self
      unfold ballocFrom
      rw [wp_bind]
      refine wp_ballocRound hb hlog (fun k hk hsize hbit => ?_) fun hall => ?_
      · -- the block found is marked and zeroed
        obtain ⟨h1, h2⟩ : sb.bblock (b + k) = sb.bblock b ∧ (b + k) % BPB = k := bblock_add hb hk
        have hdone := hQ (b + k) hsize hbit
        have hroom := hlog' (b + k) hsize
        unfold taken at hdone
        rw [h1, h2] at hdone
        rw [h1] at hroom
        show wp E (bzero (b + k) >>= fun _ => pure (b + k)) Q _
        rw [wp_bind]
        unfold bzero
        rw [wp_atomic]
        exact post_logWrite hroom hdone
      · -- a free block is not among the ones looked at
        refine ih (fun c hc => hmul c (List.mem_cons_of_mem _ hc)) (hsome.imp id ?_)
        rintro ⟨r, hr, hbit, c, hc, hle, hlt⟩
        refine ⟨r, hr, hbit, c, ?_, hle, hlt⟩
        rcases List.mem_cons.1 hc with rfl | hc
        · have := hall (r - c) (by omega) (by omega)
          rw [Nat.add_sub_cancel' hle, hbit] at this
          cases this
        · exact hc
  refine hfrom _ (fun b hb => ?_) (hfree.imp id ?_)
  · obtain ⟨k, _, rfl⟩ := List.mem_map.1 hb
    exact Nat.mul_mod_left k BPB
  · rintro ⟨r, hr, hbit⟩
    refine ⟨r, hr, hbit, r / BPB * BPB, List.mem_map.2 ⟨r / BPB, List.mem_range.2 ?_, rfl⟩, ?_, ?_⟩ <;>
      simp only [BPB, BSIZE] <;> omega

/-! ## The invariant -/

/-- The inode with number `inum` on disk. -/
def dinodeAt (sb : Superblock) (s : Kernel) (inum : Nat) : Dinode :=
  if inum < sb.ninodes then getDinode (s.blk (sb.iblock inum)) (inum % IPB) else .zero

/-- The volume, with the copy in the cache for the inode of the dirty entry. -/
def vol (sb : Superblock) (dirty : Option Slot) (s : Kernel) : Vol where
  ino := match dirty with
    | none => dinodeAt sb s
    | some i => Function.update (dinodeAt sb s) (s.icache i).inum (s.icache i).d
  blk := s.blk

/-- The entries of the inode cache that are in use agree with the disk. -/
structure CacheOk (sb : Superblock) (dirty : Option Slot) (s : Kernel) : Prop where
  num : ∀ i, (s.icache i).inum < sb.ninodes
  dev : ∀ i, 0 < (s.icache i).ref → (s.icache i).dev = ROOTDEV
  /-- an inode has one entry -/
  uniq : ∀ i j, 0 < (s.icache i).ref → 0 < (s.icache j).ref →
    (s.icache i).inum = (s.icache j).inum → i = j
  type : ∀ i, 0 < (s.icache i).ref → (s.icache i).valid = true → (s.icache i).d.type ≠ 0
  coherent : ∀ i, dirty ≠ some i → 0 < (s.icache i).ref → (s.icache i).valid = true →
    (s.icache i).d = dinodeAt sb s (s.icache i).inum

structure FsOk (sb : Superblock) (dirty : Option Slot) (s : Kernel) : Prop
    extends CacheOk sb dirty s where
  blocks : (vol sb dirty s).Ok sb ∅

/-- An entry that is in use and loaded. -/
def Loaded (s : Kernel) (i : Slot) : Prop := 0 < (s.icache i).ref ∧ (s.icache i).valid = true

variable {i : Slot} {dirty : Option Slot}

theorem vol_ino_dirty : (vol sb (some i) s).ino (s.icache i).inum = (s.icache i).d :=
  Function.update_self ..

theorem FsOk.vol_dirty (h : FsOk sb none s) (hi : Loaded s i) : vol sb (some i) s = vol sb none s := by
  have hco : (s.icache i).d = dinodeAt sb s (s.icache i).inum :=
    h.coherent i (by simp) hi.1 hi.2
  show Vol.mk (Function.update (dinodeAt sb s) (s.icache i).inum (s.icache i).d) s.blk =
    Vol.mk (dinodeAt sb s) s.blk
  rw [hco, Function.update_eq_self]

theorem FsOk.soil (h : FsOk sb none s) (hi : Loaded s i) : FsOk sb (some i) s where
  blocks := by
    rw [h.vol_dirty hi]
    exact h.blocks
  num := h.num
  dev := h.dev
  uniq := h.uniq
  type := h.type
  coherent j _ hj hv := h.coherent j (by simp) hj hv

/-- An entry that agrees with the disk is not dirty. -/
theorem FsOk.unsoil (h : FsOk sb (some i) s) (hd : (s.icache i).d = dinodeAt sb s (s.icache i).inum) :
    vol sb none s = vol sb (some i) s ∧ FsOk sb none s := by
  have hvol : vol sb none s = vol sb (some i) s := by
    show Vol.mk (dinodeAt sb s) s.blk =
      Vol.mk (Function.update (dinodeAt sb s) (s.icache i).inum (s.icache i).d) s.blk
    rw [hd, Function.update_eq_self]
  refine ⟨hvol, ⟨⟨h.num, h.dev, h.uniq, h.type, fun j _ hj hv => ?_⟩, hvol ▸ h.blocks⟩⟩
  by_cases hji : j = i
  · rw [hji]
    exact hd
  · exact h.coherent j (fun he => hji (Option.some.inj he).symm) hj hv

theorem FsOk.allocated (h : FsOk sb (some i) s) (hi : Loaded s i) :
    (vol sb (some i) s).Allocated sb (s.icache i).inum := by
  refine ⟨h.num i, ?_⟩
  rw [vol_ino_dirty]
  exact h.type i hi.1 hi.2

theorem dinodeAt_logged (hw : sb.WF) {b : Nat} (x : Block) (hb : sb.bmapstart ≤ b) (inum : Nat) :
    dinodeAt sb (s.logged b x) inum = dinodeAt sb s inum := by
  unfold dinodeAt
  by_cases hi : inum < sb.ninodes
  · have := iblock_lt hw hi
    rw [if_pos hi, if_pos hi, Kernel.blk_logged_ne x (by omega)]
  · rw [if_neg hi, if_neg hi]

/-- A write behind the inode area. -/
theorem vol_logged (hw : sb.WF) {b : Nat} (x : Block) (hb : sb.bmapstart ≤ b) :
    vol sb dirty (s.logged b x) = (vol sb dirty s).setBlk b x := by
  have hd : dinodeAt sb (s.logged b x) = dinodeAt sb s := funext (dinodeAt_logged hw x hb)
  cases dirty with
  | none =>
    show Vol.mk (dinodeAt sb (s.logged b x)) _ = Vol.mk (dinodeAt sb s) _
    rw [hd]
    rfl
  | some i =>
    show Vol.mk (Function.update (dinodeAt sb (s.logged b x)) _ _) _ =
      Vol.mk (Function.update (dinodeAt sb s) _ _) _
    rw [hd]
    rfl

theorem vol_taken (hw : sb.WF) {r : Nat} (hr : sb.datastart ≤ r) :
    vol sb dirty (taken sb s r) = (vol sb dirty s).take sb r := by
  have hle : sb.bmapstart ≤ r := le_trans (Nat.le_add_right _ _) hr
  unfold taken
  rw [vol_logged hw _ hle, vol_logged hw _ (bmapstart_le_bblock r)]
  rfl

/-- Blocks behind the inode area may change. -/
theorem CacheOk.of_blk (h : CacheOk sb dirty s) {s' : Kernel} (hi : s'.icache = s.icache)
    (hd : ∀ j, dinodeAt sb s' j = dinodeAt sb s j) : CacheOk sb dirty s' where
  num := by
    rw [hi]
    exact h.num
  dev := by
    rw [hi]
    exact h.dev
  uniq := by
    rw [hi]
    exact h.uniq
  type := by
    rw [hi]
    exact h.type
  coherent j := by
    rw [hi, hd]
    exact h.coherent j

theorem dinodeAt_taken (hw : sb.WF) {r : Nat} (hr : sb.datastart ≤ r) (j : Nat) :
    dinodeAt sb (taken sb s r) j = dinodeAt sb s j := by
  have hle : sb.bmapstart ≤ r := le_trans (Nat.le_add_right _ _) hr
  unfold taken
  rw [dinodeAt_logged hw _ hle, dinodeAt_logged hw _ (bmapstart_le_bblock r)]

/-! ## Copying an inode to disk -/

/-- The state after `iupdate`. -/
def updated (sb : Superblock) (s : Kernel) (i : Slot) : Kernel :=
  s.logged (sb.iblock (s.icache i).inum)
    (putDinode (s.blk (sb.iblock (s.icache i).inum)) ((s.icache i).inum % IPB) (s.icache i).d)

theorem wp_iupdate {Q : Unit → Kernel → Prop} (hlog : Logs E s.log) (hQ : Q () (updated sb s i)) :
    wp E (iupdate sb i) Q s := by
  unfold iupdate
  rw [wp_bind]
  unfold inode
  rw [wp_atomic]
  show wp E (Prog.atomic _ _) Q s
  rw [wp_atomic]
  exact post_logWrite hlog hQ

theorem dinodeAt_logged_iblock {inum : Nat} (hnum : inum < sb.ninodes) {x : Block} {d : Dinode}
    (hself : getDinode x (inum % IPB) = d)
    (hne : ∀ k, k < IPB → k ≠ inum % IPB → getDinode x k = getDinode (s.blk (sb.iblock inum)) k)
    (j : Nat) :
    dinodeAt sb (s.logged (sb.iblock inum) x) j = Function.update (dinodeAt sb s) inum d j := by
  by_cases hj : j = inum
  · rw [hj, Function.update_self]
    unfold dinodeAt
    rw [if_pos hnum, Kernel.blk_logged_self, hself]
  · rw [Function.update_of_ne hj]
    unfold dinodeAt
    by_cases hlt : j < sb.ninodes
    · rw [if_pos hlt, if_pos hlt]
      by_cases hb : sb.iblock j = sb.iblock inum
      · have hmod := mod_ne_of_iblock hb hj
        rw [hb, Kernel.blk_logged_self, hne _ (Nat.mod_lt _ (by decide)) hmod]
      · rw [Kernel.blk_logged_ne _ hb]
    · rw [if_neg hlt, if_neg hlt]

theorem dinodeAt_updated (hnum : (s.icache i).inum < sb.ninodes) (j : Nat) :
    dinodeAt sb (updated sb s i) j =
      Function.update (dinodeAt sb s) (s.icache i).inum (s.icache i).d j :=
  dinodeAt_logged_iblock hnum (getDinode_putDinode _ _ (Nat.mod_lt _ (by decide)))
    (fun _ hk hne => getDinode_putDinode_ne _ _ hk hne) j

theorem vol_updated (hnum : (s.icache i).inum < sb.ninodes) :
    vol sb none (updated sb s i) = (vol sb (some i) s).setBlk (sb.iblock (s.icache i).inum)
      (putDinode (s.blk (sb.iblock (s.icache i).inum)) ((s.icache i).inum % IPB) (s.icache i).d) := by
  show Vol.mk (dinodeAt sb (updated sb s i)) _ = Vol.mk (Function.update _ _ _) _
  rw [funext (dinodeAt_updated hnum)]
  rfl

/-- After `iupdate` nothing is dirty. -/
theorem CacheOk.clean (h : CacheOk sb (some i) s) (hi : Loaded s i) :
    CacheOk sb none (updated sb s i) where
  num := h.num
  dev := h.dev
  uniq := h.uniq
  type := h.type
  coherent j _ hj hv := by
    show (s.icache j).d = dinodeAt sb (updated sb s i) (s.icache j).inum
    rw [dinodeAt_updated (h.num i)]
    by_cases hji : j = i
    · rw [hji, Function.update_self]
    · have hne : (s.icache j).inum ≠ (s.icache i).inum := fun he => hji (h.uniq j i hj hi.1 he)
      rw [Function.update_of_ne hne]
      exact h.coherent j (fun he => hji (Option.some.inj he).symm) hj hv

theorem FsOk.clean (hw : sb.WF) (h : FsOk sb (some i) s) (hi : Loaded s i) :
    FsOk sb none (updated sb s i) := by
  refine ⟨h.toCacheOk.clean hi, ?_⟩
  rw [vol_updated (h.num i)]
  exact h.blocks.setLow _ (iblock_lt hw (h.num i))

end Xv6.Fs
