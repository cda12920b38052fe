import Xv6.Mkfs.Made

/-!
# The finished image

`Image.disk` is the image as the kernel reads it.  It is the volume of the last state of the loop
with the size of the root directory rounded up, so the blocks of the files, their order and the
bitmap are those of `Made`; what the rounding does to the root directory depends on the number of
entries alone.
-/

namespace Xv6.Mkfs

open Bytes Conc Fs Prog

variable {s s' : Image} {files : List HostFile} {E : Option Exit → Prop}

/-- The image as the kernel finds it. -/
def Image.disk (s : Image) : Vol := ⟨s.ino, s.sect⟩

/-! ## The beginning of `main` -/

/-- The image before the first file. -/
structure Blank (s : Image) : Prop where
  sect : ∀ b, b ≠ 1 → b < FSSIZE → s.sect b = .zero
  len : s.len = FSSIZE
  freeinode : s.freeinode = 1
  freeblock : s.freeblock = nmeta

theorem wp_zeros (n : Nat) (hlen : s.len = 0) :
    wp E ((List.range n).forM fun i => wsect i .zero) (fun _ s' => s'.len = n ∧
      (∀ b, b < n → s'.sect b = .zero) ∧ s'.freeinode = s.freeinode ∧ s'.freeblock = s.freeblock) s := by
  -- the sectors before the next one are zero
  refine wp_mono (wp_forM (I := fun l s' => ∃ k, k ≤ n ∧ l = List.range' k (n - k) ∧ s'.len = k ∧
    (∀ b, b < k → s'.sect b = .zero) ∧ s'.freeinode = s.freeinode ∧ s'.freeblock = s.freeblock)
    ?_ ?_) ?_
  · exact ⟨0, Nat.zero_le _, List.range_eq_range', hlen, fun b hb => absurd hb (Nat.not_lt_zero b),
      rfl, rfl⟩
  · rintro x xs s' ⟨k, hk, hl, hlen, hzero, hfi, hfb⟩
    obtain ⟨m, hm⟩ : ∃ m, n - k = m + 1 := by
      refine Nat.exists_eq_add_one_of_ne_zero fun h0 => ?_
      rw [h0] at hl
      cases hl
    rw [hm, List.range'_succ] at hl
    obtain ⟨rfl, rfl⟩ := List.cons.inj hl
    refine wp_wsect ⟨x + 1, by omega, ?_, ?_, fun b hb => ?_, hfi, hfb⟩
    · rw [show n - (x + 1) = m by omega]
    · show max s'.len (x + 1) = x + 1
      omega
    · show Function.update s'.sect x .zero b = .zero
      by_cases hbx : b = x
      · rw [hbx, Function.update_self]
      · rw [Function.update_of_ne hbx]
        exact hzero b (by omega)
  · rintro _ s' ⟨k, hk, hl, hlen, hzero, hfi, hfb⟩
    obtain rfl : k = n := by
      have := congrArg List.length hl
      rw [List.length_nil, List.length_range'] at this
      omega
    exact ⟨hlen, hzero, hfi, hfb⟩

theorem wp_superBlock (hlen : s.len = FSSIZE) (hzero : ∀ b < FSSIZE, s.sect b = .zero)
    (hfi : s.freeinode = 1) (hfb : s.freeblock = nmeta) :
    wp E (wsect 1 superBlock) (fun _ s' => Blank s') s := by
  refine wp_wsect ⟨fun b hb hlt => ?_, ?_, hfi, hfb⟩
  · show Function.update s.sect 1 _ b = .zero
    rw [Function.update_of_ne hb]
    exact hzero b hlt
  · show max s.len (1 + 1) = FSSIZE
    rw [hlen]
    decide

theorem Blank.type (h : Blank s) (i : Nat) : (s.ino i).type = 0 := by
  unfold Image.ino
  by_cases hi : i < sb.ninodes
  · have hlt := iblock_lt_bmapstart hi
    have hlow : sb.inodestart ≤ sb.iblock i := Nat.le_add_left _ _
    have hstart : 1 < sb.inodestart := by decide
    have hmap : sb.bmapstart < FSSIZE := by decide
    rw [if_pos hi, h.sect _ (by omega) (by omega)]
    simp [getDinode, Blk.short]
  · rw [if_neg hi]
    rfl

theorem Blank.good (h : Blank s) : Good s s.vol := by
  have hno : ∀ i, ¬ s.vol.Allocated sb i := fun i ha => ha.2 (h.type i)
  have hbit : ∀ b, b < FSSIZE → s.vol.bit sb b = decide (b < nmeta) := by
    intro b hb
    obtain ⟨hblock, hmod⟩ := bblock_eq hb
    unfold Vol.bit
    rw [hblock, hmod]
    show bitOf (Function.update s.sect sb.bmapstart (bitmap s.freeblock) sb.bmapstart) b = _
    rw [Function.update_self, h.freeblock, bitOf_bitmap]
    simp only [BPB, BSIZE, FSSIZE] at *
    omega
  have hmeta : nmeta ≤ FSSIZE := by decide
  refine ⟨⟨rfl, ⟨⟨fun b => ?_, fun x y b hx => ?_, fun _ _ _ hb => hb⟩, fun b hb => ?_, ?_⟩, h.len, ?_,
    fun b hb hlt => ?_⟩, fun i ha => absurd ha (hno i)⟩
  · refine ⟨fun hb => ?_, ?_⟩
    · obtain ⟨h1, h2, h3⟩ := hb
      rw [hbit b h2, decide_eq_true_eq, nmeta_eq] at h3
      omega
    · rintro (hb | ⟨x, hx⟩)
      · exact absurd hb (Set.notMem_empty b)
      · exact absurd (Vol.allocated_of_ref (i := x.1) (p := x.2) hx) (hno x.1)
  · exact absurd (Vol.allocated_of_ref (i := x.1) (p := x.2) hx) (hno x.1)
  · rw [← nmeta_eq] at hb
    rw [hbit b (by omega), decide_eq_true hb]
  · exact fun i ha => absurd ha (hno i)
  · rw [h.freeblock]
    exact hmeta
  · have : 1 < nmeta := by decide
    rw [h.freeblock] at hb
    exact h.sect b (by omega) hlt

/-- What the rest of `main` needs of it.  Nothing is asked of the sector where the bitmap will be. -/
structure Ready (s : Image) : Prop where
  good : Good s s.vol
  type : ∀ i, (s.ino i).type = 0
  freeinode : s.freeinode = 1
  freeblock : s.freeblock = nmeta

theorem Blank.ready (h : Blank s) : Ready s := ⟨h.good, h.type, h.freeinode, h.freeblock⟩

theorem prepare_eq {n : Nat} (hn : n = FSSIZE) : prepare = (do
    (List.range n).forM fun i => wsect i .zero
    wsect 1 superBlock) := by
  subst hn
  unfold prepare
  rfl

theorem wp_prepare {g : Nat → Block} : wp E prepare (fun _ s => Ready s) (Image.empty g) := by
  obtain ⟨n, hn⟩ : ∃ n, n = FSSIZE := ⟨_, rfl⟩
  rw [prepare_eq hn, wp_bind]
  refine wp_mono (wp_zeros n rfl) ?_
  rintro _ s ⟨hlen, hzero, hfi, hfb⟩
  rw [hn] at hlen hzero
  exact wp_mono (wp_superBlock hlen hzero hfi hfb) fun _ s' h => h.ready

/-- The root directory with its two entries. -/
theorem Made.nil (h : Ready s) {e₁ e₂ : List Byte} {s₁ s₂ s₃ : Image}
    (he₁ : e₁.length = DIRENTSZ) (he₂ : e₂.length = DIRENTSZ) (h₁ : Born ROOTINO T_DIR s s₁)
    (h₂ : Appended ROOTINO e₁ s₁ s₁.vol s₂ s₂.vol) (hfit : Fit s₁ s₁.vol ROOTINO (e₁ ++ e₂).length)
    (h₃ : Appended ROOTINO e₂ s₂ s₂.vol s₃ s₃.vol) : Made [] s₃ := by
  rw [List.length_append] at hfit
  have happ := h₂.trans hfit.left h₃
  rw [← List.length_append] at hfit
  have hroot : s₁.vol.ino ROOTINO = fresh T_DIR := by
    show s₁.ino ROOTINO = _
    rw [h₁.ino, Function.update_self]
  have hlen : (e₁ ++ e₂).length = DIRENTSZ * 2 := by
    rw [List.length_append, he₁, he₂]
    rfl
  have hsize := happ.size hfit
  have hcount := happ.count
  have hlast : s₃.ino ROOTINO = _ := happ.fields
  rw [hroot, hlen] at hsize hcount
  have hfreeinode : s₃.freeinode = 2 := by
    rw [happ.freeinode, h₁.freeinode, h.freeinode]
  refine ⟨happ.good, hfreeinode, fun i hi => ?_, ?_, ?_, fun j hj => absurd hj (Nat.not_lt_zero j), ?_⟩
  · have hi' : i ≠ ROOTINO := by
      rw [hfreeinode] at hi
      simp only [ROOTINO]
      omega
    show (s₃.vol.ino i).type = 0
    rw [happ.other i hi']
    show (s₁.ino i).type = 0
    rw [h₁.ino, Function.update_of_ne hi']
    exact h.type i
  · rw [hlast, hroot]
    rfl
  · show (s₃.vol.ino ROOTINO).size.toNat = _
    rw [hsize]
    rfl
  · have hz : (needs (fresh T_DIR).size.toNat).card = 0 := by
      show (needs 0).card = 0
      rw [needs_zero]
      rfl
    rw [hz, h₁.freeblock, h.freeblock, show (fresh T_DIR).size.toNat = 0 from rfl, Nat.zero_add] at hcount
    rw [List.map_nil, List.sum_nil]
    omega

/-! ## The end of `main` -/

/-- Size of the root directory in the end. -/
def rounded (files : List HostFile) : Nat := (DIRENTSZ * (files.length + 2) / BSIZE + 1) * BSIZE

/-- The image is that of the last state of the loop with the rounded size. -/
structure Finished (files : List HostFile) (s₀ s : Image) : Prop where
  made : Made files s₀
  freeblock : s.freeblock = s₀.freeblock
  disk : s.disk = (written s₀ ROOTINO { s₀.ino ROOTINO with size := BitVec.ofNat 32 (rounded files) }).vol

theorem wp_bitmap (hused : s.freeblock ≤ FSSIZE) :
    wp E (do
      let used ← .atomic () fun s => .ok s.freeblock s
      balloc used) (fun _ s' => s'.freeblock = s.freeblock ∧ s'.disk = s.vol) s := by
  rw [wp_bind, wp_atomic]
  unfold balloc
  refine wp_ite (fun hbig => ?_) fun _ => ?_
  · simp only [BSIZE, FSSIZE] at *
    omega
  · refine wp_wsect ⟨rfl, ?_⟩
    show Vol.mk (Image.mk (Function.update _ _ _) _ _ _).ino (Function.update _ _ _) = Vol.mk _ _
    rw [ino_update le_rfl]
    rfl

/-- The root directory is there, and there is room for its first two entries. -/
theorem Ready.root {s₁ : Image} (h : Ready s) (h₁ : Born ROOTINO T_DIR s s₁) :
    s₁.vol.Allocated sb ROOTINO ∧ Fit s₁ s₁.vol ROOTINO ((dirent ROOTINO [0x2e]).length +
      (dirent ROOTINO [0x2e, 0x2e]).length) := by
  have hself : s₁.vol.ino ROOTINO = fresh T_DIR := by
    show s₁.ino ROOTINO = _
    rw [h₁.ino, Function.update_self]
  refine ⟨⟨by decide, ?_⟩, ?_⟩
  · rw [hself]
    decide
  · unfold Fit
    rw [hself, h₁.freeblock, h.freeblock, length_dirent, length_dirent]
    decide

theorem Ready.freeinode_lt (h : Ready s) : s.freeinode < sb.ninodes := by
  rw [h.freeinode]
  decide

/-- `main` up to the end of the loop. -/
theorem wp_files {α : Type} {rest : Nat → Mk α} {Q : α → Image → Prop} (h : Ready s)
    (hnum : files.length + 2 ≤ sb.ninodes) (hslash : ∀ f ∈ files, 0x2f ∈ f.name → E (some .slash))
    (hE : ¬FitsImage files → ∀ x, E x)
    (hQ : ∀ s', Made files s' → s'.bmap = s.bmap → wp E (rest ROOTINO) Q s') :
    wp E (do
      let rootino ← ialloc T_DIR
      if rootino ≠ ROOTINO then throw .rootino
      iappend rootino (dirent rootino [0x2e])
      iappend rootino (dirent rootino [0x2e, 0x2e])
      files.forM (addFile rootino)
      rest rootino) Q s := by
  rw [wp_bind]
  refine wp_mono (wp_ialloc h.good h.freeinode_lt (h.type _)) ?_
  rintro root s₁ ⟨hroot, h₁⟩
  rw [h.freeinode] at hroot
  subst hroot
  rw [if_neg (by decide)]
  obtain ⟨ha, hfit⟩ := h.root h₁
  rw [wp_bind]
  refine wp_mono (wp_iappend h₁.good ha ((Nat.le_add_right _ _).trans hfit.1) fun hno =>
    absurd hfit.left hno) ?_
  rintro - s₂ ⟨hfit₂, h₂⟩
  rw [wp_bind]
  refine wp_mono (wp_iappend h₂.good (h₂.allocated ha) (by rw [h₂.size hfit₂]; exact hfit₂.1) fun hno =>
    absurd ((h₂.fit_iff hfit₂).2 hfit) hno) ?_
  rintro - s₃ ⟨-, h₃⟩
  rw [← List.length_append] at hfit
  have hmade := Made.nil h (length_dirent _ _) (length_dirent _ _) h₁ h₂ hfit h₃
  rw [wp_bind]
  refine wp_mono (wp_forM (I := fun l s' => ∃ done, done ++ l = files ∧ FitsImage done ∧ Made done s' ∧
    s'.bmap = s.bmap) ⟨[], rfl, by decide, hmade, h₃.bmap.trans (h₂.bmap.trans h₁.bmap)⟩ ?_) ?_
  · rintro f rest s' ⟨done, rfl, hfits, hm, hb⟩
    rw [List.length_append, List.length_cons] at hnum
    refine wp_mono (wp_addFile hfits hm (by omega) (hslash f (by simp)) fun hno => hE fun hall => hno ?_) ?_
    · rw [List.append_cons] at hall
      exact hall.left
    · rintro - s'' ⟨hfits', hm', hb'⟩
      exact ⟨done ++ [f], by rw [List.append_assoc]; rfl, hfits', hm', hb'.trans hb⟩
  · rintro - s₄ ⟨done, hdone, -, hm, hb⟩
    rw [List.append_nil] at hdone
    subst hdone
    exact hQ s₄ hm hb

theorem wp_inodesAndData (h : Ready s) (hnum : files.length + 2 ≤ sb.ninodes)
    (hslash : ∀ f ∈ files, 0x2f ∈ f.name → E (some .slash)) (hE : ¬FitsImage files → ∀ x, E x) :
    wp E (inodesAndData files) (fun _ s' => ∃ s₀, Made files s₀ ∧ s₀.bmap = s.bmap ∧
      s' = written s₀ ROOTINO { s₀.ino ROOTINO with size := BitVec.ofNat 32 (rounded files) }) s := by
  refine wp_files h hnum hslash hE fun s₀ hm hb => ?_
  rw [wp_bind]
  refine wp_rinode hm.good.len (by decide) (wp_winode hm.good.len (by decide) ⟨s₀, hm, hb, ?_⟩)
  rw [hm.size]
  rfl

theorem wp_mkfs (hfits : FitsImage files) (hE : ∀ f ∈ files, 0x2f ∈ f.name → E (some .slash))
    (g : Nat → Block) :
    wp E (mkfs files) (fun _ s => ∃ s₀, Finished files s₀ s) (Image.empty g) := by
  unfold mkfs
  rw [wp_bind]
  refine wp_mono wp_prepare fun _ s h => ?_
  rw [wp_bind]
  refine wp_mono (wp_inodesAndData h hfits.1 hE fun hno => absurd hfits hno) ?_
  rintro _ s₁ ⟨s₀, hm, -, rfl⟩
  exact wp_mono (wp_bitmap hm.good.used) fun _ s' h' => ⟨s₀, hm, h'.1, h'.2⟩

theorem mkfs_finishes (hfits : FitsImage files) (g : Nat → Block) :
    (∃ f ∈ files, 0x2f ∈ f.name) ∨
      ∃ s s₀, (mkfs files).run (Image.empty g) = .ok () s ∧ Finished files s₀ s := by
  have hE : ∀ f ∈ files, 0x2f ∈ f.name → ∃ f ∈ files, 0x2f ∈ f.name := fun f hf hs => ⟨f, hf, hs⟩
  rcases wp_cases (wp_mkfs (E := fun _ => ∃ f ∈ files, 0x2f ∈ f.name) hfits hE g) with
    ⟨_, h⟩ | ⟨_, s, hr, s₀, hf⟩
  · exact Or.inl h
  · exact Or.inr ⟨s, s₀, hr, hf⟩

/-! ## What the kernel assumes -/

/-- Every inode has all the blocks below its size. -/
def NoHoles (V : Vol) : Prop :=
  ∀ i, V.Allocated sb i → ∀ k, k * BSIZE < (V.ino i).size.toNat →
    k < MAXFILE ∧ V.ref sb (i, place k) ≠ none

namespace Finished

variable {s₀ : Image}

theorem disk_eq (h : Finished files s₀ s) : ∃ x, s.disk = (s₀.vol.setIno ROOTINO
    { s₀.ino ROOTINO with size := BitVec.ofNat 32 (rounded files) }).setBlk (sb.iblock ROOTINO) x := by
  rw [h.disk, vol_written (by decide)]
  exact ⟨_, rfl⟩

theorem ref (h : Finished files s₀ s) (y : Nat × Nat) : s.disk.ref sb y = s₀.vol.ref sb y := by
  obtain ⟨x, hx⟩ := h.disk_eq
  have hset : ∀ y, (s₀.vol.setIno ROOTINO
      { s₀.ino ROOTINO with size := BitVec.ofNat 32 (rounded files) }).ref sb y = s₀.vol.ref sb y :=
    Vol.ref_setIno rfl rfl
  rw [hx, Vol.ref_setBlk, hset]
  intro i
  rw [hset]
  exact h.made.good.ok.not_ref_of_lt (iblock_lt_datastart (by decide)) i NDIRECT

theorem ino_root (h : Finished files s₀ s) :
    s.disk.ino ROOTINO = { s₀.ino ROOTINO with size := BitVec.ofNat 32 (rounded files) } := by
  obtain ⟨x, hx⟩ := h.disk_eq
  rw [hx, Vol.setBlk_ino, Vol.setIno_ino_self]

theorem ino_ne (h : Finished files s₀ s) {j : Nat} (hj : j ≠ ROOTINO) : s.disk.ino j = s₀.ino j := by
  obtain ⟨x, hx⟩ := h.disk_eq
  rw [hx, Vol.setBlk_ino, Vol.setIno_ino_ne _ hj]
  rfl

theorem allocated (h : Finished files s₀ s) {j : Nat} :
    s.disk.Allocated sb j ↔ s₀.vol.Allocated sb j := by
  unfold Vol.Allocated
  by_cases hj : j = ROOTINO
  · rw [hj, h.ino_root]
    rfl
  · rw [h.ino_ne hj]
    rfl

theorem bit (h : Finished files s₀ s) {b : Nat} (hb : b < BPB) :
    s.disk.bit sb b = decide (b < s.freeblock) := by
  obtain ⟨x, hx⟩ := h.disk_eq
  have hblock : sb.bblock b = sb.bmapstart := by
    unfold Superblock.bblock
    rw [Nat.div_eq_of_lt hb, Nat.zero_add]
  have hne : sb.bmapstart ≠ sb.iblock ROOTINO := by decide
  unfold Vol.bit
  rw [hblock, Nat.mod_eq_of_lt hb, hx, Vol.setBlk_blk_ne _ hne, h.freeblock]
  show bitOf (Function.update s₀.sect sb.bmapstart (bitmap s₀.freeblock) sb.bmapstart) b = _
  rw [Function.update_self, bitOf_bitmap _ hb]

theorem size_root (h : Finished files s₀ s) (hfits : FitsImage files) :
    (s.disk.ino ROOTINO).size.toNat = rounded files := by
  have hnum := hfits.1
  have hn : sb.ninodes = 200 := rfl
  rw [h.ino_root]
  show (BitVec.ofNat 32 (rounded files)).toNat = _
  rw [BitVec.toNat_ofNat]
  unfold rounded
  simp only [DIRENTSZ, BSIZE] at *
  omega

theorem root_filled (h : Finished files s₀ s) (k : Nat) :
    k < MAXFILE ∧ s.disk.ref sb (ROOTINO, place k) ≠ none ↔
      k < MAXFILE ∧ k * BSIZE < DIRENTSZ * (files.length + 2) := by
  have hroot : s₀.vol.Allocated sb ROOTINO := by
    refine ⟨by decide, ?_⟩
    show (s₀.ino ROOTINO).type ≠ 0
    rw [h.made.root]
    decide
  have hplaces := h.made.good.exact ROOTINO hroot
  rw [show (s₀.vol.ino ROOTINO).size.toNat = _ from h.made.size] at hplaces
  rw [h.ref, ← place_mem_needs, ← hplaces, mem_places]
  exact and_congr_left fun _ => ⟨place_lt, fun hlt => by
    unfold place at hlt
    simp only [NPLACE, MAXFILE] at *
    split at hlt <;> omega⟩

/-- The rounded size leaves no hole unless the entries fill their last block. -/
theorem noHoles_iff (h : Finished files s₀ s) (hfits : FitsImage files) :
    NoHoles s.disk ↔ (files.length + 2) % (BSIZE / DIRENTSZ) ≠ 0 := by
  have hnum := hfits.1
  have hn : sb.ninodes = 200 := rfl
  have hroot : s.disk.Allocated sb ROOTINO := by
    refine ⟨by decide, ?_⟩
    rw [h.ino_root]
    show (s₀.ino ROOTINO).type ≠ 0
    rw [h.made.root]
    decide
  have hlast : ∀ k, k * BSIZE < rounded files ↔ k ≤ DIRENTSZ * (files.length + 2) / BSIZE := by
    intro k
    unfold rounded
    simp only [DIRENTSZ, BSIZE]
    omega
  constructor
  · intro hno
    have hk := hno ROOTINO hroot (DIRENTSZ * (files.length + 2) / BSIZE) (by
      rw [h.size_root hfits]
      exact (hlast _).2 le_rfl)
    have := ((h.root_filled _).1 hk).2
    simp only [DIRENTSZ, BSIZE] at *
    omega
  · intro hmod i hi k hk
    by_cases hir : i = ROOTINO
    · subst hir
      rw [h.size_root hfits, hlast] at hk
      refine (h.root_filled k).2 ⟨?_, ?_⟩
      · simp only [DIRENTSZ, BSIZE, MAXFILE, NDIRECT, NINDIRECT] at *
        omega
      · simp only [DIRENTSZ, BSIZE] at *
        omega
    · rw [h.ino_ne hir] at hk
      rw [h.ref]
      exact h.made.good.ok.noHole i (h.allocated.1 hi) k hk

/-- The blocks handed out are those that files refer to. -/
theorem referenced_iff (h : Finished files s₀ s) (b : Nat) :
    (∃ x, s.disk.ref sb x = some b) ↔ nmeta ≤ b ∧ b < s.freeblock := by
  have hgood := h.made.good
  have hused := hgood.used
  simp only [h.ref]
  rw [h.freeblock]
  constructor
  · rintro ⟨x, hx⟩
    obtain ⟨h1, h2, _⟩ := hgood.ref_lt hx
    exact ⟨h1, h2⟩
  · rintro ⟨h1, h2⟩
    have hlt : b < FSSIZE := by omega
    have hmem : b ∈ s₀.vol.used sb := by
      refine ⟨nmeta_eq ▸ h1, hlt, ?_⟩
      rw [hgood.bit hlt, decide_eq_true h2]
    exact ((hgood.ok.owns.used_iff b).1 hmem).resolve_left (Set.notMem_empty b)

end Finished

/-- The image is well formed, but for the root directory, which has a hole where the number of its
entries is a multiple of those in a block. -/
theorem mkfs_well_formed (files : List HostFile) (hfits : FitsImage files) (g : Nat → Block) :
    (∃ f ∈ files, 0x2f ∈ f.name) ∨ ∃ s, (mkfs files).run (Image.empty g) = .ok () s ∧
      (∀ x y b, s.disk.ref sb x = some b → s.disk.ref sb y = some b → x = y) ∧
      (∀ b, (∃ x, s.disk.ref sb x = some b) ↔ nmeta ≤ b ∧ b < s.freeblock) ∧
      s.freeblock ≤ FSSIZE ∧ (∀ b, b < BPB → s.disk.bit sb b = decide (b < s.freeblock)) ∧
      (NoHoles s.disk ↔ (files.length + 2) % (BSIZE / DIRENTSZ) ≠ 0) := by
  rcases mkfs_finishes hfits g with hslash | ⟨s, s₀, hr, h⟩
  · exact Or.inl hslash
  · refine Or.inr ⟨s, hr, fun x y b hx hy => ?_, h.referenced_iff, ?_, fun b hb => h.bit hb,
      h.noHoles_iff hfits⟩
    · rw [h.ref] at hx hy
      exact h.made.good.ok.owns.inj x y b hx hy
    · rw [h.freeblock]
      exact h.made.good.used

/-- A file that is read in two pieces. -/
def twoPieces : HostFile where
  name := [0x5f, 0x61]
  chunks := [[1, 2], [3]]
  chunk_le := by decide

theorem mkfs_twoPieces : ∃ s s₀, (mkfs [twoPieces]).run (Image.empty fun _ => .zero) = .ok () s ∧
    Finished [twoPieces] s₀ s := by
  rcases mkfs_finishes (by decide : FitsImage [twoPieces]) fun _ => .zero with ⟨f, hf, hs⟩ | h
  · rw [List.mem_singleton.1 hf] at hs
    exact absurd hs (by decide)
  · exact h

theorem mkfs_well_formed_two_pieces : FitsImage [twoPieces] ∧ ∃ s,
    (mkfs [twoPieces]).run (Image.empty fun _ => .zero) = .ok () s ∧ NoHoles s.disk ∧
      s.freeblock ≤ FSSIZE ∧ ∀ b, b < BPB → s.disk.bit sb b = decide (b < s.freeblock) := by
  have hfits : FitsImage [twoPieces] := by decide
  refine ⟨hfits, ?_⟩
  rcases mkfs_well_formed [twoPieces] hfits fun _ => .zero with
    ⟨f, hf, hs⟩ | ⟨s, hr, _, _, hle, hbit, hno⟩
  · rw [List.mem_singleton.1 hf] at hs
    exact absurd hs (by decide)
  · exact ⟨s, hr, hno.2 (by decide), hle, hbit⟩

/-- Thirty files, and the root directory is full. -/
theorem mkfs_root_hole : ∃ files : List HostFile, FitsImage files ∧ files.length = 30 ∧
    ∀ g, ∃ s, (mkfs files).run (Image.empty g) = .ok () s ∧ s.disk.Allocated sb ROOTINO ∧
      1 * BSIZE < (s.disk.ino ROOTINO).size.toNat ∧ s.disk.ref sb (ROOTINO, place 1) = none := by
  have hfits : FitsImage (List.replicate 30 ⟨[0x61], [], by simp⟩) := by decide
  refine ⟨_, hfits, rfl, fun g => ?_⟩
  rcases mkfs_finishes hfits g with ⟨f, hf, hs⟩ | ⟨s, s₀, hr, h⟩
  · rw [List.eq_of_mem_replicate hf] at hs
    exact absurd hs (by decide)
  · refine ⟨s, hr, ⟨by decide, ?_⟩, ?_, ?_⟩
    · rw [h.ino_root]
      show (s₀.ino ROOTINO).type ≠ 0
      rw [h.made.root]
      decide
    · rw [h.size_root hfits]
      decide
    · by_contra hne
      have := ((h.root_filled 1).1 ⟨by decide, hne⟩).2
      exact absurd this (by decide)

end Xv6.Mkfs
