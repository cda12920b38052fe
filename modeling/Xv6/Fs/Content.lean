import Xv6.Fs.Bmap

/-!
# `readi` and `writei`: a file is an array of bytes

`fileByte` is a byte of a file made of blocks.  `wp_readi` and `wp_writei` are the rules
of the two functions; `writei` patches the file (`patch`), and fails only where the
range does not fit (`Fits`).
-/

namespace Xv6.Fs

open Bytes Conc Prog

variable {sb : Superblock} {E : Option Panic → Prop} {me : Pid} {s s' : Kernel} {i : Slot}

def fileByte (f : Nat → Block) (k : Nat) : Byte := (f (k / BSIZE)).get (k % BSIZE)

/-- The blocks of the files, between the functions. -/
abbrev files (sb : Superblock) (s : Kernel) : Nat → Nat → Block := (vol sb none s).data sb

/-- What `readi` returns on a file of `size` bytes made of the blocks `f`. -/
def readSpec (f : Nat → Block) (size off n : Nat) : Option (List Byte) :=
  if off > size ∨ (off + n) % 2 ^ 32 < off then none
  else some ((List.range (if off + n > size then size - off else n)).map fun k => fileByte f (off + k))

theorem fileByte_add {f : Nat → Block} {off k : Nat} (h : off % BSIZE + k < BSIZE) :
    fileByte f (off + k) = (f (off / BSIZE)).get (off % BSIZE + k) := by
  have hdiv : (off + k) / BSIZE = off / BSIZE := by
    simp only [BSIZE] at *
    omega
  have hmod : (off + k) % BSIZE = off % BSIZE + k := by
    simp only [BSIZE] at *
    omega
  unfold fileByte
  rw [hdiv, hmod]

theorem readSpec_slice {f : Nat → Block} {size off n : Nat} (hoff : off ≤ size)
    (hn : off + n < 2 ^ 32) : readSpec f size off n =
      some ((((List.range size).map (fileByte f)).drop off).take n) := by
  unfold readSpec
  rw [if_neg (by omega)]
  congr 1
  apply List.ext_getElem
  · simp only [List.length_map, List.length_range, List.length_take, List.length_drop]
    split <;> omega
  · intro k h1 h2
    simp only [List.getElem_take, List.getElem_drop, List.getElem_map, List.getElem_range]

theorem FsOk.refAt_of_lt (h : FsOk sb none s) (hi : Loaded s i) {k : Nat}
    (hk : k * BSIZE < (s.icache i).d.size.toNat) :
    k < MAXFILE ∧ ∃ b, refAt sb i s (place k) = some b ∧
      s.blk b = files sb s (s.icache i).inum k := by
  have hdirty := h.soil hi
  have hino : ((vol sb (some i) s).ino (s.icache i).inum).size = (s.icache i).d.size := by
    rw [vol_ino_dirty]
  obtain ⟨hlt, hne⟩ := hdirty.blocks.noHole _ (hdirty.allocated hi) k (by rw [hino]; exact hk)
  obtain ⟨b, hb⟩ := Option.ne_none_iff_exists'.1 hne
  refine ⟨hlt, b, hb, ?_⟩
  unfold files
  rw [← h.vol_dirty hi, Vol.data_of_ref hb]
  rfl

def Holds (sb : Superblock) (s : Kernel) (i : Slot) (f : Nat → Block) : Prop :=
  ∀ k, k * BSIZE < (s.icache i).d.size.toNat →
    k < MAXFILE ∧ ∃ b, refAt sb i s (place k) = some b ∧ s.blk b = f k

theorem wp_readiFrom {f : Nat → Block} (h : Holds sb s i f) {n : Nat} {Q : List Byte → Kernel → Prop}
    (rounds tot off : Nat) (htot : tot ≤ n) (hr : n - tot ≤ rounds)
    (hoff : off + (n - tot) ≤ (s.icache i).d.size.toNat)
    (hQ : Q ((List.range (n - tot)).map fun k => fileByte f (off + k)) s) :
    wp E (readiFrom sb i n rounds tot off) Q s := by
  induction rounds generalizing tot off Q with
  | zero =>
    rw [show n - tot = 0 by omega] at hQ
    exact hQ
  | succ rounds ih =>
    unfold readiFrom
    refine wp_ite (fun hlt => ?_) fun hge => ?_
    · have hmod : off % BSIZE < BSIZE := Nat.mod_lt _ (by decide)
      have hblock : off / BSIZE * BSIZE < (s.icache i).d.size.toNat := by
        have := Nat.div_mul_le_self off BSIZE
        omega
      obtain ⟨hmax, b, hb, hblk⟩ := h (off / BSIZE) hblock
      rw [wp_bind]
      refine wp_bmap_of_ref hmax hb ?_
      rw [wp_bind]
      unfold bread
      rw [wp_atomic]
      obtain ⟨m, hm⟩ : ∃ m, m = min (n - tot) (BSIZE - off % BSIZE) := ⟨_, rfl⟩
      show wp E (readiFrom sb i n rounds (tot + min (n - tot) (BSIZE - off % BSIZE))
        (off + min (n - tot) (BSIZE - off % BSIZE)) >>= _) Q s
      rw [← hm, wp_bind]
      refine ih (tot + m) (off + m) (by omega) (by omega) (by omega) ?_
      -- the bytes of this block, then the rest
      have hsplit : n - tot = m + (n - (tot + m)) := by omega
      rw [hsplit, List.range_add, List.map_append, List.map_map] at hQ
      show Q (_ ++ _) s
      have hhead : (List.range m).map (fun k => (s.blk b).get (off % BSIZE + k)) =
          (List.range m).map fun k => fileByte f (off + k) := by
        refine List.map_congr_left fun k hk => ?_
        rw [List.mem_range] at hk
        rw [fileByte_add (by omega), hblk]
      have htail : ((fun k => fileByte f (off + k)) ∘ fun k => m + k) =
          fun k => fileByte f (off + m + k) := by
        funext k
        show fileByte _ (off + (m + k)) = _
        rw [Nat.add_assoc]
      rw [hhead]
      rw [htail] at hQ
      exact hQ
    · rw [show n - tot = 0 by omega] at hQ
      exact hQ

/-- `readi` returns the bytes asked for, as far as there are any, and changes nothing. -/
theorem wp_readi_of {f : Nat → Block} (h : Holds sb s i f) (hdev : (s.icache i).d.type ≠ T_DEV)
    {off n : Nat} {Q : Option (List Byte) → Kernel → Prop}
    (hQ : Q (readSpec f (s.icache i).d.size.toNat off n) s) : wp E (readi sb me i off n) Q s := by
  unfold readi
  rw [wp_bind]
  unfold inode
  rw [wp_atomic]
  show wp E (if _ then _ else _) Q s
  rw [if_neg hdev]
  unfold readSpec at hQ
  refine wp_ite (fun hbad => ?_) fun hgood => ?_
  · rw [if_pos hbad] at hQ
    exact hQ
  · rw [if_neg hgood] at hQ
    rw [wp_bind]
    have hle : off ≤ (s.icache i).d.size.toNat := by omega
    refine wp_readiFrom h _ 0 off (Nat.zero_le _) (by omega) ?_ ?_
    · split <;> omega
    · exact hQ

theorem wp_readi (h : FsOk sb none s) (hi : Loaded s i) (hdev : (s.icache i).d.type ≠ T_DEV)
    {off n : Nat} {Q : Option (List Byte) → Kernel → Prop}
    (hQ : Q (readSpec (files sb s (s.icache i).inum) (s.icache i).d.size.toNat off n) s) :
    wp E (readi sb me i off n) Q s :=
  wp_readi_of (fun _ hk => h.refAt_of_lt hi hk) hdev hQ

/-! ## Writing -/

def patch (D : Nat → Nat → Block) (inum off n : Nat) (src : Nat → Byte) (j m : Nat) : Block :=
  if j = inum then .ofFn fun x =>
    if off ≤ m * BSIZE + x ∧ m * BSIZE + x < off + n then src (m * BSIZE + x - off) else (D j m).get x
  else D j m

section Patch

variable {D : Nat → Nat → Block} {inum off n : Nat} {src : Nat → Byte}

theorem patch_ne {j : Nat} (h : j ≠ inum) (m : Nat) : patch D inum off n src j m = D j m := if_neg h

theorem get_patch {m x : Nat} (hx : x < BSIZE) : (patch D inum off n src inum m).get x =
    if off ≤ m * BSIZE + x ∧ m * BSIZE + x < off + n then src (m * BSIZE + x - off)
    else (D inum m).get x := by
  unfold patch
  rw [if_pos rfl, Blk.get_ofFn _ hx]

theorem fileByte_patch (k : Nat) : fileByte (patch D inum off n src inum) k =
    if off ≤ k ∧ k < off + n then src (k - off) else fileByte (D inum) k := by
  have hk : k / BSIZE * BSIZE + k % BSIZE = k := Nat.div_add_mod' k BSIZE
  unfold fileByte
  rw [get_patch (Nat.mod_lt _ (by decide)), hk]

theorem patch_zero : patch D inum off 0 src = D := by
  funext j m
  by_cases hj : j = inum
  · subst hj
    refine Blk.ext_get fun x hx => ?_
    rw [get_patch hx, if_neg (by omega)]
  · exact patch_ne hj m

theorem patch_congr {src' : Nat → Byte} (h : ∀ k, k < n → src k = src' k) :
    patch D inum off n src = patch D inum off n src' := by
  funext j m
  by_cases hj : j = inum
  · subst hj
    refine Blk.ext_get fun x hx => ?_
    rw [get_patch hx, get_patch hx]
    by_cases hin : off ≤ m * BSIZE + x ∧ m * BSIZE + x < off + n
    · rw [if_pos hin, if_pos hin, h _ (by omega)]
    · rw [if_neg hin, if_neg hin]
  · rw [patch_ne hj, patch_ne hj]

/-- Writing a range in two parts. -/
theorem patch_patch (a b : Nat) :
    patch (patch D inum off a src) inum (off + a) b (fun k => src (a + k)) =
      patch D inum off (a + b) src := by
  funext j m
  by_cases hj : j = inum
  · subst hj
    refine Blk.ext_get fun x hx => ?_
    rw [get_patch hx, get_patch hx, get_patch hx]
    by_cases hlo : off ≤ m * BSIZE + x ∧ m * BSIZE + x < off + a
    · rw [if_neg (by omega), if_pos hlo, if_pos (by omega)]
    · rw [if_neg hlo]
      by_cases hhi : off + a ≤ m * BSIZE + x ∧ m * BSIZE + x < off + a + b
      · rw [if_pos hhi, if_pos (by omega)]
        congr 1
        omega
      · rw [if_neg hhi, if_neg (by omega)]
  · rw [patch_ne hj, patch_ne hj, patch_ne hj]

theorem patch_block (h : off % BSIZE + n ≤ BSIZE) (j m : Nat) :
    (if j = inum ∧ m = off / BSIZE then (D inum (off / BSIZE)).splice (off % BSIZE) n src else D j m) =
      patch D inum off n src j m := by
  have hdm := Nat.div_add_mod off BSIZE
  rw [Nat.mul_comm] at hdm
  by_cases hj : j = inum
  · subst hj
    refine Blk.ext_get fun x hx => ?_
    rw [get_patch hx]
    by_cases hm : m = off / BSIZE
    · rw [if_pos ⟨rfl, hm⟩, Blk.get_splice _ _ _ _ hx, hm]
      by_cases hin : off % BSIZE ≤ x ∧ x < off % BSIZE + n
      · rw [if_pos hin, if_pos (by omega)]
        congr 1
        omega
      · rw [if_neg hin, if_neg (by omega)]
    · rw [if_neg fun hc => hm hc.2, if_neg]
      rintro ⟨h1, h2⟩
      apply hm
      simp only [BSIZE] at *
      omega
  · rw [if_neg fun hc => hj hc.1, patch_ne hj]

end Patch

variable {W : Finset Nat}

theorem Grows.write (hw : sb.WF) (h : FsOk sb (some i) s) {k b : Nat} (x : Block)
    (hr : refAt sb i s (place k) = some b) :
    Grows sb i (fun j m => if j = (s.icache i).inum ∧ m = k then x else (vol sb (some i) s).data sb j m)
      s (s.logged b x) := by
  have hle : sb.bmapstart ≤ b := le_trans (Nat.le_add_right _ _) (h.blocks.ref_data hr).1
  have hvol : vol sb (some i) (s.logged b x) = (vol sb (some i) s).setBlk b x := vol_logged hw x hle
  have hdisk := dinodeAt_logged (s := s) hw x hle
  refine ⟨⟨(s.icache i).d, (s.logged b x).blk, (s.logged b x).log, ?_⟩,
    ⟨h.toCacheOk.of_blk rfl hdisk, ?_⟩, rfl, hdisk, fun y c hy => ?_, fun j m => ?_⟩
  · unfold withD
    rw [Kernel.setInode_self rfl]
    rfl
  · rw [hvol]
    exact h.blocks.write hw.data_le x hr
  · rw [hvol, Vol.ref_write h.blocks x hr]
    exact hy
  · rw [hvol]
    exact Vol.data_write h.blocks x hr j m

theorem Afford.write (hw : sb.WF) (h : FsOk sb (some i) s) (ha : Afford E sb W i s) {k b : Nat}
    (x : Block) (hr : refAt sb i s (place k) = some b) : Afford E sb W i (s.logged b x) := by
  have hlow := (h.blocks.ref_data hr).1
  have hvol : vol sb (some i) (s.logged b x) = (vol sb (some i) s).setBlk b x :=
    vol_logged hw x (le_trans (Nat.le_add_right _ _) hlow)
  have href : ∀ p, refAt sb i (s.logged b x) p = refAt sb i s p := by
    intro p
    unfold refAt
    rw [hvol]
    exact Vol.ref_write h.blocks x hr _
  have hfree : (vol sb (some i) (s.logged b x)).free sb = (vol sb (some i) s).free sb := by
    rw [hvol]
    exact Vol.free_congr fun c hc => Vol.bit_setBlk_ne x (by have := bblock_lt hc; omega)
  refine ⟨ha.blocks.imp id fun hwant => ?_, ha.space⟩
  unfold Wants
  rw [hfree]
  simp only [href]
  exact hwant

structure Filling (E : Option Panic → Prop) (sb : Superblock) (W : Finset Nat) (i : Slot)
    (off n : Nat) (src : Nat → Byte) (s s' : Kernel) : Prop where
  grows : Grows sb i (patch ((vol sb (some i) s).data sb) (s.icache i).inum off n src) s s'
  ref : ∀ k, off ≤ k → k < off + n → refAt sb i s' (place (k / BSIZE)) ≠ none
  /-- where all blocks were there, the inode does not change -/
  same : (∀ k, off ≤ k → k < off + n → refAt sb i s (place (k / BSIZE)) ≠ none) →
    s'.icache = s.icache
  afford : Afford E sb W i s'

/-- A place that was filled stays filled. -/
theorem Grows.refAt_ne_none {D : Nat → Nat → Block} (h : Grows sb i D s s') {p : Nat}
    (hp : refAt sb i s p ≠ none) : refAt sb i s' p ≠ none := by
  obtain ⟨b, hb⟩ := Option.ne_none_iff_exists'.1 hp
  unfold refAt at *
  rw [h.inum, h.ref _ b hb]
  exact Option.some_ne_none b

theorem Filling.zero (h : FsOk sb (some i) s) (ha : Afford E sb W i s) (off : Nat)
    (src : Nat → Byte) : Filling E sb W i off 0 src s s where
  grows := by
    rw [patch_zero]
    exact Grows.refl h
  ref k h1 h2 := absurd h2 (by omega)
  same _ := rfl
  afford := ha

theorem wp_round (hw : sb.WF) {off m : Nat} {src : Nat → Byte} {Q : Kernel → Prop}
    (h : FsOk sb (some i) s) (hi : Loaded s i) (hm : 0 < m) (hfit : off % BSIZE + m ≤ BSIZE)
    (hmax : off / BSIZE < MAXFILE) (hW : place (off / BSIZE) ∈ W)
    (hWind : NDIRECT ≤ off / BSIZE → NDIRECT ∈ W) (ha : Afford E sb W i s)
    {rest : K Unit} (hrest : ∀ s', Filling E sb W i off m src s s' → wp E rest (fun _ => Q) s') :
    wp E (do
      let b ← bmap sb i (off / BSIZE)
      .atomic (.logWrite b) fun s => s.logWrite b ((s.blk b).splice (off % BSIZE) m src)
      rest) (fun _ => Q) s := by
  have hdiv : ∀ k, off ≤ k → k < off + m → k / BSIZE = off / BSIZE := by
    intro k h1 h2
    simp only [BSIZE] at *
    omega
  rw [wp_bind]
  refine wp_mono (wp_bmap hw h hi hmax hW hWind ha) fun b s₁ h₁ => ?_
  rw [wp_bind, wp_atomic]
  refine post_logWrite (h₁.afford.logs _) (hrest _ ?_)
  have hg := Grows.write hw h₁.grows.ok ((s₁.blk b).splice (off % BSIZE) m src) h₁.ref
  have hdata : (s₁.blk b) = (vol sb (some i) s).data sb (s.icache i).inum (off / BSIZE) := by
    rw [← h₁.grows.data]
    have hr := h₁.ref
    unfold refAt at hr
    rw [h₁.grows.inum] at hr
    rw [Vol.data_of_ref hr]
    rfl
  refine ⟨?_, fun k h1 h2 => ?_, fun hall => ?_, h₁.afford.write hw h₁.grows.ok _ h₁.ref⟩
  · have := h₁.grows.trans hg
    convert this using 1
    funext j k
    rw [h₁.grows.inum, h₁.grows.data, hdata, patch_block hfit]
  · rw [hdiv k h1 h2]
    exact hg.refAt_ne_none (by rw [h₁.ref]; exact Option.some_ne_none b)
  · have := hall off le_rfl (by omega)
    rw [← h₁.same this]
    rfl

theorem wp_writeiFrom (hw : sb.WF) {n : Nat} {src : Nat → Byte} (rounds tot off : Nat)
    (h : FsOk sb (some i) s) (hi : Loaded s i) (htot : tot ≤ n) (hr : n - tot ≤ rounds)
    (hmax : off + (n - tot) ≤ MAXFILE * BSIZE)
    (hW : ∀ k, off ≤ k → k < off + (n - tot) →
      place (k / BSIZE) ∈ W ∧ (NDIRECT ≤ k / BSIZE → NDIRECT ∈ W))
    (ha : Afford E sb W i s) :
    wp E (writeiFrom sb i src n rounds tot off)
      (fun _ s' => Filling E sb W i off (n - tot) (fun k => src (tot + k)) s s') s := by
  induction rounds generalizing tot off s with
  | zero =>
    rw [show n - tot = 0 by omega]
    exact Filling.zero h ha off _
  | succ rounds ih =>
    unfold writeiFrom
    refine wp_ite (fun hlt => ?_) fun hge => ?_
    · obtain ⟨m, hm⟩ : ∃ m, m = min (n - tot) (BSIZE - off % BSIZE) := ⟨_, rfl⟩
      have hmod : off % BSIZE < BSIZE := Nat.mod_lt _ (by decide)
      have hpos : 0 < m := by omega
      obtain ⟨hWp, hWind⟩ := hW off le_rfl (by omega)
      rw [← hm]
      refine wp_round hw h hi hpos (by omega) ?_ hWp hWind ha fun s₁ h₁ => ?_
      · exact (Nat.div_lt_iff_lt_mul (by decide)).2 (by omega)
      have hinum := h₁.grows.inum i
      refine wp_mono (ih (tot + m) (off + m) h₁.grows.ok (h₁.grows.loaded hi) (by omega) (by omega)
        (by omega) (fun k h1 h2 => hW k (by omega) (by omega)) h₁.afford) fun _ s₂ h₂ => ?_
      have hsplit : m + (n - (tot + m)) = n - tot := by omega
      refine ⟨?_, fun k h1 h2 => ?_, fun hall => ?_, h₂.afford⟩
      · have hg := h₁.grows.trans h₂.grows
        have hD : (vol sb (some i) s₁).data sb = patch ((vol sb (some i) s).data sb)
            (s.icache i).inum off m fun k => src (tot + k) := by
          funext j k
          exact h₁.grows.data j k
        have hsrc : (fun k => src (tot + m + k)) = fun k => (fun k => src (tot + k)) (m + k) := by
          funext k
          rw [Nat.add_assoc]
        rw [hinum, hD, hsrc, patch_patch, hsplit] at hg
        exact hg
      · by_cases hk : k < off + m
        · exact h₂.grows.refAt_ne_none (h₁.ref k h1 hk)
        · exact h₂.ref k (by omega) (by omega)
      · have hsame := h₁.same fun k h1 h2 => hall k h1 (by omega)
        rw [← hsame]
        exact h₂.same fun k h1 h2 => h₁.grows.refAt_ne_none (hall k (by omega) (by omega))
    · rw [show n - tot = 0 by omega]
      exact Filling.zero h ha off _

/-- The places that a write of `n` bytes at `off` goes through. -/
def touched (off n : Nat) : Finset Nat :=
  if n = 0 then ∅ else
    (((Finset.range MAXFILE).filter fun k => off / BSIZE ≤ k ∧ k * BSIZE < off + n).image place) ∪
      if NDIRECT * BSIZE < off + n then {NDIRECT} else ∅

theorem mem_touched {off n k : Nat} (h1 : off ≤ k) (h2 : k < off + n)
    (hmax : off + n ≤ MAXFILE * BSIZE) :
    place (k / BSIZE) ∈ touched off n ∧ (NDIRECT ≤ k / BSIZE → NDIRECT ∈ touched off n) := by
  have hle := Nat.div_mul_le_self k BSIZE
  unfold touched
  rw [if_neg (by omega)]
  refine ⟨Finset.mem_union_left _ (Finset.mem_image_of_mem _ (Finset.mem_filter.2 ⟨?_, ?_, ?_⟩)), ?_⟩
  · exact Finset.mem_range.2 ((Nat.div_lt_iff_lt_mul (by decide)).2 (by omega))
  · exact Nat.div_le_div_right h1
  · omega
  · intro hk
    have := Nat.mul_le_mul_right BSIZE hk
    rw [if_pos (by omega)]
    exact Finset.mem_union_right _ (Finset.mem_singleton_self _)

/-- The range fits, so that `writei` does not fail. -/
def Fits (size off n : Nat) : Prop := off ≤ size ∧ off + n < 2 ^ 32 ∧ off + n ≤ MAXFILE * BSIZE

/-- The outcome of `writei` where the range fits. -/
structure Wrote (sb : Superblock) (i : Slot) (off n : Nat) (src : Nat → Byte) (s s' : Kernel) :
    Prop where
  frame : ∃ d blk l, s' = { withD s i d with blk := blk, log := l }
  ok : FsOk sb none s'
  fields : (s'.icache i).d = { (s.icache i).d with
    addrs := (s'.icache i).d.addrs
    size := BitVec.ofNat 32 (max (s.icache i).d.size.toNat (off + n)) }
  disk : ∀ j, j ≠ (s.icache i).inum → dinodeAt sb s' j = dinodeAt sb s j
  data : files sb s' = patch (files sb s) (s.icache i).inum off n src

/-- The end of `writei` when the file did not get longer. -/
theorem Filling.wrote_inside {off n : Nat} {src : Nat → Byte} (h : FsOk sb none s) (hi : Loaded s i)
    (hf : Filling E sb W i off n src s s') (hin : off + n ≤ (s.icache i).d.size.toNat ∨ n = 0)
    (hoff : off ≤ (s.icache i).d.size.toNat) : Wrote sb i off n src s s' := by
  -- all blocks were there before
  have hcache : s'.icache = s.icache := hf.same fun k h1 h2 => by
    have hle := Nat.div_mul_le_self k BSIZE
    obtain ⟨_, b, hb, _⟩ := h.refAt_of_lt hi (k := k / BSIZE) (by omega)
    rw [hb]
    exact Option.some_ne_none b
  have hd : (s'.icache i).d = dinodeAt sb s' (s'.icache i).inum := by
    rw [hcache, hf.grows.disk]
    exact h.coherent i (by simp) hi.1 hi.2
  obtain ⟨hvol, hok⟩ := hf.grows.ok.unsoil hd
  refine ⟨hf.grows.frame, hok, ?_, fun j _ => hf.grows.disk j, ?_⟩
  · have hmax : max (s.icache i).d.size.toNat (off + n) = (s.icache i).d.size.toNat := by omega
    rw [hcache, hmax, BitVec.ofNat_toNat, BitVec.setWidth_eq]
  · funext j k
    unfold files
    rw [hvol, hf.grows.data, h.vol_dirty hi]

theorem frame_updated {d : Dinode} {blk : Nat → Block} {l : Log}
    (hs : s' = { withD s i d with blk := blk, log := l }) (e : Dinode) :
    ∃ blk' l', updated sb (withD s' i e) i = { withD s i e with blk := blk', log := l' } := by
  refine ⟨(updated sb (withD s' i e) i).blk, (updated sb (withD s' i e) i).log, ?_⟩
  subst hs
  simp [updated, withD, Kernel.setInode, Kernel.logged, Kernel.setBlk]

theorem Filling.wrote_longer (hw : sb.WF) {off n : Nat} {src : Nat → Byte} (h : FsOk sb none s)
    (hi : Loaded s i) (hf : Filling E sb W i off n src s s')
    (hfit : Fits (s.icache i).d.size.toNat off n) (hout : (s.icache i).d.size.toNat < off + n) :
    Wrote sb i off n src s (updated sb (withD s' i { (s'.icache i).d with
      size := BitVec.ofNat 32 (off + n) }) i) := by
  obtain ⟨hoff, h32, hmax⟩ := hfit
  obtain ⟨d, hd⟩ : ∃ d, d = { (s'.icache i).d with size := BitVec.ofNat 32 (off + n) } := ⟨_, rfl⟩
  have hsize : d.size.toNat = off + n := by
    rw [hd]
    exact Nat.mod_eq_of_lt h32
  have hinum := hf.grows.inum i
  have hi' := hf.grows.loaded hi
  have hok' := hf.grows.ok
  have htype : d.type = ((vol sb (some i) s').ino (s'.icache i).inum).type := by
    rw [vol_ino_dirty, hd]
  have haddrs : d.addrs = ((vol sb (some i) s').ino (s'.icache i).inum).addrs := by
    rw [vol_ino_dirty, hd]
  rw [← hd]
  -- the blocks below the new size: those below the old one, and those just written
  have hnoHole : ∀ k, k * BSIZE < off + n →
      k < MAXFILE ∧ (vol sb (some i) s').ref sb ((s'.icache i).inum, place k) ≠ none := by
    intro k hk
    refine ⟨Nat.lt_of_mul_lt_mul_right (a := BSIZE) (by omega), ?_⟩
    by_cases hold : k * BSIZE < (s.icache i).d.size.toNat
    · obtain ⟨_, b, hb, _⟩ := h.refAt_of_lt hi hold
      exact hf.grows.refAt_ne_none (by rw [hb]; exact Option.some_ne_none b)
    · have := hf.ref (k * BSIZE) (by omega) hk
      rwa [Nat.mul_div_cancel _ (by decide)] at this
  have hset : ((vol sb (some i) s').setIno (s'.icache i).inum d).Ok sb ∅ :=
    hok'.blocks.setIno htype haddrs fun _ k hk => hnoHole k (by omega)
  have hok : FsOk sb (some i) (withD s' i d) := by
    refine ⟨hok'.toCacheOk.withD ?_, ?_⟩
    · rw [hd]
      exact hok'.type i hi'.1 hi'.2
    · rw [vol_withD]
      exact hset
  have hiD : Loaded (withD s' i d) i :=
    ⟨(withD_ref d i).symm ▸ hi'.1, (withD_valid d i).symm ▸ hi'.2⟩
  refine ⟨?_, hok.clean hw hiD, ?_, fun j hj => ?_, ?_⟩
  · obtain ⟨d', blk, l, hframe⟩ := hf.grows.frame
    exact ⟨d, frame_updated hframe d⟩
  · have hself : ((updated sb (withD s' i d) i).icache i).d = d := withD_d d
    have hfields := hf.grows.fields
    have hmx : max (s.icache i).d.size.toNat (off + n) = off + n := by omega
    rw [hself, hmx, hd, hfields]
  · rw [dinodeAt_updated (hok.num i), withD_inum, withD_d, hinum, Function.update_of_ne hj]
    exact hf.grows.disk j
  · funext j k
    have hlow : sb.iblock ((withD s' i d).icache i).inum < sb.datastart :=
      lt_of_lt_of_le (iblock_lt hw (hok.num i)) (Nat.le_add_right _ _)
    unfold files
    rw [vol_updated (hok.num i), Vol.data_setBlk _ fun m p => hok.blocks.not_ref_of_lt hlow m p,
      vol_withD, Vol.data_setIno htype haddrs, hf.grows.data, h.vol_dirty hi]

/-- The copy to disk takes no block. -/
theorem Wants.updated (hw : sb.WF) (h : FsOk sb (some i) s) (hwant : Wants sb W i s) {d : Dinode}
    (ht : d.type = (s.icache i).d.type) (ha : d.addrs = (s.icache i).d.addrs) :
    Wants sb W i (updated sb (withD s i d) i) := by
  have hnum : ((withD s i d).icache i).inum < sb.ninodes := by
    rw [withD_inum]
    exact h.num i
  obtain ⟨x, hvol⟩ : ∃ x, vol sb (some i) (Fs.updated sb (withD s i d) i) =
      ((vol sb (some i) s).setIno (s.icache i).inum d).setBlk (sb.iblock (s.icache i).inum) x := by
    refine ⟨putDinode ((withD s i d).blk (sb.iblock ((withD s i d).icache i).inum))
      (((withD s i d).icache i).inum % IPB) ((withD s i d).icache i).d, ?_⟩
    rw [← vol_withD]
    show Vol.mk (Function.update (dinodeAt sb (Fs.updated sb (withD s i d) i)) _
      ((withD s i d).icache i).d) _ = Vol.mk (Function.update (dinodeAt sb (withD s i d)) _ _) _
    rw [funext (dinodeAt_updated hnum), withD_inum]
    show Vol.mk (Function.update (Function.update _ _ _) ((withD s i d).icache i).inum _) _ = _
    rw [withD_inum, Function.update_idem]
    simp only [Fs.updated, Kernel.logged, Kernel.setBlk, withD_inum]
    rfl
  have hlow := iblock_lt hw (h.num i)
  have hset : ∀ x, ((vol sb (some i) s).setIno (s.icache i).inum d).ref sb x =
      (vol sb (some i) s).ref sb x := Vol.ref_setIno (by rw [vol_ino_dirty, ht])
        (by rw [vol_ino_dirty, ha])
  have href : ∀ p, refAt sb i (Fs.updated sb (withD s i d) i) p = refAt sb i s p := by
    intro p
    have hin : ((Fs.updated sb (withD s i d) i).icache i).inum = (s.icache i).inum := withD_inum d i
    unfold refAt
    rw [hvol, hin, Vol.ref_setBlk _ fun j => ?_, hset]
    rw [hset]
    exact h.blocks.not_ref_of_lt (lt_of_lt_of_le hlow (Nat.le_add_right _ _)) j _
  have hfree : (vol sb (some i) (Fs.updated sb (withD s i d) i)).free sb =
      (vol sb (some i) s).free sb := by
    rw [hvol]
    refine Vol.free_congr fun c hc => ?_
    have : sb.bmapstart ≤ sb.bblock c := bmapstart_le_bblock c
    rw [Vol.bit_setBlk_ne _ (by omega), Vol.bit_setIno]
  unfold Wants at *
  rw [hfree]
  simp only [href]
  exact hwant

/-- `writei` patches the file, or fails and changes nothing.  The places of `W` are those that are
paid for, here or later. -/
theorem wp_writei (hw : sb.WF) {off n : Nat} {src : Nat → Byte} {Q : Int → Kernel → Prop}
    (h : FsOk sb none s) (hi : Loaded s i) (hdev : (s.icache i).d.type ≠ T_DEV)
    (hoff : off < 2 ^ 32) (hn : n < 2 ^ 32) (hW : touched off n ⊆ W)
    (ha : Fits (s.icache i).d.size.toNat off n → Afford E sb W i s)
    (hbad : ¬ Fits (s.icache i).d.size.toNat off n → Q (-1) s)
    (hgood : Fits (s.icache i).d.size.toNat off n → ∀ s', Wrote sb i off n src s s' →
      (E (some .ballocOutOfBlocks) ∨ Wants sb W i s') → Q n s') :
    wp E (writei sb me i src off n) Q s := by
  have hwrap : (off + n) % 2 ^ 32 < off ↔ 2 ^ 32 ≤ off + n := by omega
  unfold writei
  rw [wp_bind]
  unfold inode
  rw [wp_atomic]
  show wp E (if _ then _ else _) Q s
  rw [if_neg hdev]
  refine wp_ite (fun hno => hbad fun hf => ?_) fun hyes => wp_ite (fun hno => hbad fun hf => ?_) ?_
  · obtain ⟨h1, h2, _⟩ := hf
    rw [hwrap] at hno
    omega
  · have := hf.2.2
    omega
  intro hle
  rw [hwrap] at hyes
  have hfit : Fits (s.icache i).d.size.toNat off n := ⟨by omega, by omega, by omega⟩
  rw [wp_bind]
  refine wp_mono (wp_writeiFrom hw n 0 off (h.soil hi) hi (Nat.zero_le n) (by omega) (by omega)
    (fun k h1 h2 => ?_) (ha hfit)) fun _ s₁ h₁ => ?_
  · obtain ⟨hp, hind⟩ := mem_touched h1 (show k < off + n by omega) hfit.2.2
    exact ⟨hW hp, fun hk => hW (hind hk)⟩
  have h₁' : Filling E sb W i off n src s s₁ := by
    have hsrc : (fun k => src (0 + k)) = src := by
      funext k
      rw [Nat.zero_add]
    rw [Nat.sub_zero, hsrc] at h₁
    exact h₁
  have hsize : (s₁.icache i).d.size = (s.icache i).d.size := by
    rw [h₁'.grows.fields]
  rw [wp_bind, wp_atomic]
  show wp E (if _ then _ else _) Q s₁
  refine wp_ite (fun hout => ?_) fun hin => ?_
  · rw [hsize] at hout
    rw [wp_bind]
    refine wp_setDinode ?_
    rw [wp_bind]
    refine wp_iupdate (h₁'.afford.logs _) (hgood hfit _ ?_ ?_)
    · exact h₁'.wrote_longer hw h hi hfit hout.2
    · exact h₁'.afford.blocks.imp id fun hwant => hwant.updated hw h₁'.grows.ok rfl rfl
  · rw [hsize] at hin
    exact hgood hfit s₁ (h₁'.wrote_inside h hi (by omega) hfit.1) h₁'.afford.blocks

end Xv6.Fs
