import Xv6.Fs.Alloc

/-!
# `bmap`

`bmap` gives a file a block where it has none.  Seen from the files this changes
nothing: the new block is zero, which is what a file is taken to hold where it has
no block.  `Grows` is that relation between the states before and after, and
`wp_bmap` the rule.
-/

namespace Xv6.Fs

open Bytes Conc Prog

variable {sb : Superblock} {E : Option Panic → Prop} {s s' : Kernel} {i : Slot}

/-! ## Blocks and room in the log -/

/-- What inode entry `i` refers to from place `p`. -/
def refAt (sb : Superblock) (i : Slot) (s : Kernel) (p : Nat) : Option Nat :=
  (vol sb (some i) s).ref sb ((s.icache i).inum, p)

/-- There are free blocks for the empty places of `W`. -/
def Wants (sb : Superblock) (W : Finset Nat) (i : Slot) (s : Kernel) : Prop :=
  (W.filter fun p => refAt sb i s p = none).card ≤ (vol sb (some i) s).free sb

/-- Running out of blocks is allowed, or will not happen; the stops of `log_write` are allowed. -/
structure Afford (E : Option Panic → Prop) (sb : Superblock) (W : Finset Nat) (i : Slot)
    (s : Kernel) : Prop where
  blocks : E (some .ballocOutOfBlocks) ∨ Wants sb W i s
  space : E (some .tooBigTransaction) ∧ E (some .logWriteOutside)

variable {W : Finset Nat}

theorem Afford.logs (h : Afford E sb W i s) (l : Log) : Logs E l := Or.inl h.space

/-! ## Changing the copy in the cache -/

/-- Entry `i` with another copy of its inode. -/
def withD (s : Kernel) (i : Slot) (d : Dinode) : Kernel := s.setInode i { s.icache i with d := d }

@[simp] theorem withD_d (d : Dinode) : ((withD s i d).icache i).d = d := by
  simp [withD]

@[simp] theorem withD_inum (d : Dinode) (j : Slot) : ((withD s i d).icache j).inum = (s.icache j).inum := by
  by_cases hj : j = i
  · subst hj
    simp [withD]
  · unfold withD
    rw [Kernel.icache_setInode_ne _ hj]

theorem withD_ref (d : Dinode) (j : Slot) : ((withD s i d).icache j).ref = (s.icache j).ref := by
  by_cases hj : j = i
  · subst hj
    simp [withD]
  · unfold withD
    rw [Kernel.icache_setInode_ne _ hj]

theorem withD_valid (d : Dinode) (j : Slot) : ((withD s i d).icache j).valid = (s.icache j).valid := by
  by_cases hj : j = i
  · subst hj
    simp [withD]
  · unfold withD
    rw [Kernel.icache_setInode_ne _ hj]

theorem wp_setDinode {f : Dinode → Dinode} {Q : Unit → Kernel → Prop}
    (hQ : Q () (withD s i (f (s.icache i).d))) : wp E (setDinode i f) Q s := by
  unfold setDinode setInode
  rw [wp_atomic]
  exact hQ

theorem vol_withD (d : Dinode) :
    vol sb (some i) (withD s i d) = (vol sb (some i) s).setIno (s.icache i).inum d := by
  show Vol.mk (Function.update (dinodeAt sb s) ((withD s i d).icache i).inum
    ((withD s i d).icache i).d) s.blk = Vol.mk (Function.update (Function.update _ _ _) _ _) s.blk
  rw [withD_inum, withD_d, Function.update_idem]

/-- The copy of a dirty entry may change. -/
theorem CacheOk.withD (h : CacheOk sb (some i) s) {d : Dinode} (ht : d.type ≠ 0) :
    CacheOk sb (some i) (withD s i d) where
  num j := by
    rw [withD_inum]
    exact h.num j
  dev j hj := by
    rw [withD_ref] at hj
    have := h.dev j hj
    by_cases hji : j = i
    · subst hji
      simpa [Fs.withD] using this
    · unfold Fs.withD
      rwa [Kernel.icache_setInode_ne _ hji]
  uniq j k hj hk he := by
    rw [withD_ref] at hj hk
    rw [withD_inum, withD_inum] at he
    exact h.uniq j k hj hk he
  type j hj hval := by
    rw [withD_ref] at hj
    rw [withD_valid] at hval
    by_cases hji : j = i
    · subst hji
      rwa [withD_d]
    · unfold Fs.withD
      rw [Kernel.icache_setInode_ne _ hji]
      exact h.type j hj hval
  coherent j hd hj hval := by
    rw [withD_ref] at hj
    rw [withD_valid] at hval
    have hji : j ≠ i := fun he => hd (by rw [he])
    rw [withD_inum]
    unfold Fs.withD
    rw [Kernel.icache_setInode_ne _ hji]
    exact h.coherent j hd hj hval

/-! ## Files that grow -/

structure Grows (sb : Superblock) (i : Slot) (D : Nat → Nat → Block) (s s' : Kernel) : Prop where
  frame : ∃ d blk l, s' = { withD s i d with blk := blk, log := l }
  ok : FsOk sb (some i) s'
  fields : (s'.icache i).d = { (s.icache i).d with addrs := (s'.icache i).d.addrs }
  disk : ∀ j, dinodeAt sb s' j = dinodeAt sb s j
  ref : ∀ x b, (vol sb (some i) s).ref sb x = some b → (vol sb (some i) s').ref sb x = some b
  data : ∀ j k, (vol sb (some i) s').data sb j k = D j k

namespace Grows

variable {D D' : Nat → Nat → Block} {s₁ : Kernel}

theorem inum (h : Grows sb i D s s') (j : Slot) : (s'.icache j).inum = (s.icache j).inum := by
  obtain ⟨d, blk, l, rfl⟩ := h.frame
  exact withD_inum d j

theorem loaded (h : Grows sb i D s s') (hi : Loaded s i) : Loaded s' i := by
  obtain ⟨d, blk, l, rfl⟩ := h.frame
  exact ⟨(withD_ref d i).symm ▸ hi.1, (withD_valid d i).symm ▸ hi.2⟩

theorem refl (h : FsOk sb (some i) s) : Grows sb i ((vol sb (some i) s).data sb) s s where
  frame := ⟨(s.icache i).d, s.blk, s.log, by
    unfold withD
    rw [Kernel.setInode_self rfl]⟩
  ok := h
  fields := rfl
  disk _ := rfl
  ref _ _ h := h
  data _ _ := rfl

theorem trans (h : Grows sb i D s s₁) (h' : Grows sb i D' s₁ s') : Grows sb i D' s s' where
  frame := by
    obtain ⟨d, blk, l, rfl⟩ := h.frame
    obtain ⟨d', blk', l', rfl⟩ := h'.frame
    refine ⟨d', blk', l', ?_⟩
    simp [withD, Kernel.setInode]
  ok := h'.ok
  fields := by
    have h1 := h.fields
    have h2 := h'.fields
    rw [h1] at h2
    exact h2
  disk j := (h'.disk j).trans (h.disk j)
  ref x b hx := h'.ref x b (h.ref x b hx)
  data := h'.data

theorem fill {p r : Nat} (hframe : ∃ d blk l, s' = { withD s i d with blk := blk, log := l })
    (hfields : (s'.icache i).d = { (s.icache i).d with addrs := (s'.icache i).d.addrs })
    (hdisk : ∀ j, dinodeAt sb s' j = dinodeAt sb s j) (hok : FsOk sb (some i) s')
    (hn : (vol sb (some i) s).ref sb ((s.icache i).inum, p) = none)
    (hf : Vol.Filled sb (vol sb (some i) s) (vol sb (some i) s') (s.icache i).inum p r) :
    Grows sb i ((vol sb (some i) s).data sb) s s' where
  frame := hframe
  ok := hok
  fields := hfields
  disk := hdisk
  ref x b hx := by
    rw [hf.ne x fun he => by rw [he, hn] at hx; cases hx]
    exact hx
  data := hf.data

end Grows

theorem Wants.fill {p r : Nat} (h : Wants sb W i s) (hp : p ∈ W) (hn : refAt sb i s p = none)
    (hinum : (s'.icache i).inum = (s.icache i).inum)
    (hf : Vol.Filled sb (vol sb (some i) s) (vol sb (some i) s') (s.icache i).inum p r) :
    Wants sb W i s' := by
  have hset : (W.filter fun q => refAt sb i s' q = none) =
      (W.filter fun q => refAt sb i s q = none).erase p := by
    ext q
    rw [Finset.mem_erase, Finset.mem_filter, Finset.mem_filter]
    unfold refAt
    rw [hinum]
    by_cases hq : q = p
    · rw [hq, hf.self]
      simp
    · have hx : ((s.icache i).inum, q) ≠ ((s.icache i).inum, p) := fun he => hq (Prod.mk.inj he).2
      rw [hf.ne _ hx]
      simp [hq]
  have hmem : p ∈ W.filter fun q => refAt sb i s q = none := Finset.mem_filter.2 ⟨hp, hn⟩
  have hcard := Finset.card_erase_add_one hmem
  have hfree := hf.free
  unfold Wants at *
  rw [hset]
  omega

theorem Afford.exists_free (h : Afford E sb W i s) {p : Nat} (hp : p ∈ W)
    (hn : refAt sb i s p = none) :
    E (some .ballocOutOfBlocks) ∨ ∃ r, r < sb.size ∧ bitAt sb s r = false := by
  refine h.blocks.imp id fun h => ?_
  have hmem : p ∈ W.filter fun q => refAt sb i s q = none := Finset.mem_filter.2 ⟨hp, hn⟩
  have := Finset.card_pos.2 ⟨p, hmem⟩
  unfold Wants at h
  exact Vol.exists_free (V := vol sb (some i) s) (by omega)

/-- The outcome of `bmap`: the place refers to `b` now. -/
structure Mapped (E : Option Panic → Prop) (sb : Superblock) (W : Finset Nat) (i : Slot)
    (p : Nat) (s : Kernel) (b : Nat) (s' : Kernel) : Prop where
  grows : Grows sb i ((vol sb (some i) s).data sb) s s'
  ref : refAt sb i s' p = some b
  /-- a block that was there is only looked up -/
  same : refAt sb i s p ≠ none → s' = s
  afford : Afford E sb W i s'

theorem wp_bmapDirect (hw : sb.WF) {k : Nat} (h : FsOk sb (some i) s) (hi : Loaded s i)
    (hk : k ≤ NDIRECT) (hW : k ∈ W) (ha : Afford E sb W i s) :
    wp E (bmapDirect sb i k) (Mapped E sb W i k s) s := by
  have hall := h.allocated hi
  have haddr : (vol sb (some i) s).addrAt ((vol sb (some i) s).ino (s.icache i).inum) k =
      (s.icache i).d.addr k := by
    rw [Vol.addrAt_direct hk, vol_ino_dirty]
  have hkp : k < NPLACE := by
    simp only [NPLACE]
    omega
  unfold bmapDirect
  rw [wp_bind]
  unfold bmapAddr
  rw [wp_atomic]
  refine wp_ite (fun hz => ?_) fun hz => ?_
  · have hn : refAt sb i s k = none := (Vol.ref_eq_none hall hkp).2 (haddr.trans hz)
    rw [wp_bind]
    refine wp_balloc (ha.logs _) (fun _ _ => ha.logs _) (ha.exists_free hW hn)
      fun r hr hbit => ?_
    rw [wp_bind]
    refine wp_setDinode ?_
    show Mapped E sb W i k s r _
    have hlow := h.blocks.free_data hbit
    have hvol : vol sb (some i) (withD (taken sb s r) i
        ((s.icache i).d.setAddr k (BitVec.ofNat 32 r))) = ((vol sb (some i) s).take sb r).setIno
        (s.icache i).inum (((vol sb (some i) s).ino (s.icache i).inum).setAddr k
          (BitVec.ofNat 32 r)) := by
      rw [vol_withD, vol_taken hw hlow, vol_ino_dirty]
      rfl
    have hfill := h.blocks.fillDirect hw hr hbit hall hk hn
    rw [← hvol] at hfill
    have hdisk := dinodeAt_taken (s := s) hw hlow
    have hcache : CacheOk sb (some i) (taken sb s r) := h.toCacheOk.of_blk rfl hdisk
    have hok : FsOk sb (some i) (withD (taken sb s r) i
        ((s.icache i).d.setAddr k (BitVec.ofNat 32 r))) :=
      ⟨hcache.withD (h.type i hi.1 hi.2), hfill.ok⟩
    have hgrows := Grows.fill ⟨_, _, _, rfl⟩ (by rw [withD_d]; rfl) hdisk hok hn hfill
    have href : refAt sb i (withD (taken sb s r) i ((s.icache i).d.setAddr k (BitVec.ofNat 32 r))) k =
        some r := by
      unfold refAt
      rw [withD_inum]
      exact hfill.self
    refine ⟨hgrows, href, fun hne => absurd hn hne,
      ha.blocks.imp id fun hwant => hwant.fill hW hn (withD_inum _ i) hfill, ha.space⟩
  · refine ⟨Grows.refl h, ?_, fun _ => rfl, ha⟩
    exact Vol.ref_eq_some.2 ⟨hall, hkp, by rwa [haddr], by rw [haddr]⟩

theorem addrAt_indirect {j ind : Nat} (hind : refAt sb i s NDIRECT = some ind) :
    (vol sb (some i) s).addrAt ((vol sb (some i) s).ino (s.icache i).inum) (NDIRECT + 1 + j) =
      (s.blk ind).word (4 * j) := by
  obtain ⟨_, _, hne, hb⟩ := Vol.ref_eq_some.1 hind
  rw [Vol.addrAt_direct le_rfl] at hne hb
  rw [Vol.addrAt_entry hne, hb]
  rfl

theorem indirect_of_entry {p b : Nat} (hp : NDIRECT < p) (hr : refAt sb i s p = some b) :
    ∃ ind, refAt sb i s NDIRECT = some ind := by
  obtain ⟨ha, _, hne, _⟩ := Vol.ref_eq_some.1 hr
  refine ⟨_, Vol.ref_eq_some.2 ⟨ha, by decide, ?_, rfl⟩⟩
  rw [Vol.addrAt_direct le_rfl]
  intro hz
  exact hne (Vol.addrAt_entry_none hp hz)

theorem wp_bmap_entry (hw : sb.WF) {j ind : Nat} (h : FsOk sb (some i) s) (hi : Loaded s i)
    (hj : j < NINDIRECT) (hind : refAt sb i s NDIRECT = some ind) (hW : NDIRECT + 1 + j ∈ W)
    (ha : Afford E sb W i s) :
    wp E (do
      let addr ← bmapEntry ind j
      if addr = 0 then
        let r ← balloc sb
        .atomic (.logWrite ind) fun s =>
          s.logWrite ind ((s.blk ind).setWord (4 * j) (BitVec.ofNat 32 r))
        return r
      else return addr.toNat) (Mapped E sb W i (NDIRECT + 1 + j) s) s := by
  have hall := h.allocated hi
  have haddr := addrAt_indirect (j := j) hind
  have hp : NDIRECT + 1 + j < NPLACE := by
    simp only [NPLACE]
    omega
  rw [wp_bind]
  unfold bmapEntry
  rw [wp_atomic]
  refine wp_ite (fun hz => ?_) fun hz => ?_
  · have hn : refAt sb i s (NDIRECT + 1 + j) = none := (Vol.ref_eq_none hall hp).2 (haddr.trans hz)
    rw [wp_bind]
    refine wp_balloc (ha.logs _) (fun _ _ => ha.logs _) (ha.exists_free hW hn)
      fun r hr hbit => ?_
    have hlow := h.blocks.free_data hbit
    have hle : sb.bmapstart ≤ ind :=
      le_trans (Nat.le_add_right _ _) (h.blocks.ref_data hind).1
    -- the state after the entry is set, written out so that its log can be spoken of before
    obtain ⟨t, ht⟩ : ∃ t, t = (taken sb s r).logged ind
        (((taken sb s r).blk ind).setWord (4 * j) (BitVec.ofNat 32 r)) := ⟨_, rfl⟩
    have hfill : Vol.Filled sb (vol sb (some i) s) (vol sb (some i) t) (s.icache i).inum
        (NDIRECT + 1 + j) r := by
      rw [ht, vol_logged hw _ hle, vol_taken hw hlow]
      have hblk : (taken sb s r).blk ind = ((vol sb (some i) s).take sb r).blk ind := by
        rw [← vol_taken hw hlow]
        rfl
      rw [hblk]
      exact h.blocks.fillEntry hw hr hbit hind hj hn
    have hdisk : ∀ m, dinodeAt sb t m = dinodeAt sb s m := by
      intro m
      rw [ht, dinodeAt_logged hw _ hle, dinodeAt_taken hw hlow]
    have hcache : t.icache = s.icache := by
      rw [ht]
      rfl
    have hok : FsOk sb (some i) t := ⟨h.toCacheOk.of_blk hcache hdisk, hfill.ok⟩
    have hgrows : Grows sb i ((vol sb (some i) s).data sb) s t := by
      refine Grows.fill ⟨(s.icache i).d, t.blk, t.log, ?_⟩ (by rw [hcache]) hdisk hok hn hfill
      unfold withD
      rw [Kernel.setInode_self rfl, ht]
      rfl
    have href : refAt sb i t (NDIRECT + 1 + j) = some r := by
      unfold refAt
      rw [hcache]
      exact hfill.self
    rw [wp_bind, wp_atomic]
    refine post_logWrite (ha.logs _) ?_
    rw [← ht]
    refine ⟨hgrows, href, fun hne => absurd hn hne,
      ha.blocks.imp id fun hwant => hwant.fill hW hn (by rw [hcache]) hfill,
      ha.space⟩
  · refine ⟨Grows.refl h, ?_, fun _ => rfl, ha⟩
    exact Vol.ref_eq_some.2 ⟨hall, hp, by rwa [haddr], by rw [haddr]⟩

theorem wp_bmap (hw : sb.WF) {bn : Nat} (h : FsOk sb (some i) s) (hi : Loaded s i)
    (hbn : bn < MAXFILE) (hW : place bn ∈ W) (hWind : NDIRECT ≤ bn → NDIRECT ∈ W)
    (ha : Afford E sb W i s) :
    wp E (bmap sb i bn) (Mapped E sb W i (place bn) s) s := by
  unfold bmap
  by_cases hd : bn < NDIRECT
  · have hp : place bn = bn := if_pos hd
    rw [if_pos hd, hp]
    exact wp_bmapDirect hw h hi hd.le (hp ▸ hW) ha
  · have hj : bn - NDIRECT < NINDIRECT := by
      simp only [MAXFILE] at hbn
      omega
    have hp := place_of_indirect hd
    rw [if_neg hd, if_pos hj, wp_bind, hp]
    refine wp_mono (wp_bmapDirect hw h hi le_rfl (hWind (by omega)) ha) fun ind s₁ h₁ => ?_
    refine wp_mono (wp_bmap_entry hw h₁.grows.ok (h₁.grows.loaded hi) hj h₁.ref (hp ▸ hW)
      h₁.afford) fun b s₂ h₂ => ⟨h₁.grows.trans ?_, h₂.ref, ?_, h₂.afford⟩
    rotate_left
    · intro hne
      obtain ⟨c, hc⟩ := Option.ne_none_iff_exists'.1 hne
      obtain ⟨ind', hind⟩ := indirect_of_entry (by omega) hc
      have h₁s : s₁ = s := h₁.same (by rw [hind]; exact Option.some_ne_none _)
      rw [← h₁s] at hne
      rw [h₂.same hne, h₁s]
    have hdata : (vol sb (some i) s₁).data sb = (vol sb (some i) s).data sb := by
      funext m k
      exact h₁.grows.data m k
    rw [← hdata]
    exact h₂.grows

theorem wp_bmap_of_ref {bn b : Nat} {Q : Nat → Kernel → Prop} (hbn : bn < MAXFILE)
    (hr : refAt sb i s (place bn) = some b) (hQ : Q b s) : wp E (bmap sb i bn) Q s := by
  have hdirect : ∀ k c, k ≤ NDIRECT → refAt sb i s k = some c → ∀ R : Nat → Kernel → Prop, R c s →
      wp E (bmapDirect sb i k) R s := by
    intro k c hk hc R hR
    obtain ⟨_, _, hne, hb⟩ := Vol.ref_eq_some.1 hc
    rw [Vol.addrAt_direct hk, vol_ino_dirty] at hne hb
    unfold bmapDirect
    rw [wp_bind]
    unfold bmapAddr
    rw [wp_atomic]
    refine wp_ite (fun hz => absurd hz hne) fun _ => ?_
    rw [hb]
    exact hR
  unfold bmap
  by_cases hd : bn < NDIRECT
  · have hp : place bn = bn := if_pos hd
    rw [if_pos hd]
    exact hdirect bn b hd.le (hp ▸ hr) Q hQ
  · have hj : bn - NDIRECT < NINDIRECT := by
      simp only [MAXFILE] at hbn
      omega
    have hp := place_of_indirect hd
    rw [hp] at hr
    obtain ⟨_, _, hne, hb⟩ := Vol.ref_eq_some.1 hr
    obtain ⟨ind, hind⟩ := indirect_of_entry (by omega) hr
    rw [if_neg hd, if_pos hj, wp_bind]
    refine hdirect NDIRECT ind le_rfl hind _ ?_
    rw [addrAt_indirect hind] at hne hb
    rw [wp_bind]
    unfold bmapEntry
    rw [wp_atomic]
    refine wp_ite (fun hz => absurd hz hne) fun _ => ?_
    rw [hb]
    exact hQ

end Xv6.Fs
