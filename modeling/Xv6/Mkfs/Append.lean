import Xv6.Mkfs.Image

/-!
# `iappend` extends a file

`mkfs` hands out blocks in order and writes the bitmap at the end.  Read with the bitmap that
is going to be written, the image is a volume at every step, and what `iappend` does to it is
what `bmap` and `writei` do in the kernel: it fills places of an inode and patches a file.

The inode that is extended is in memory until the end of `iappend`; `V` is the volume with that
inode in place of the one on disk.
-/

namespace Xv6.Mkfs

open Bytes Conc Fs Prog

/-! ## The image as a volume -/

/-- The blocks, with the bitmap as `balloc` is going to write it. -/
def Image.blk (s : Image) : Nat → Block := Function.update s.sect sb.bmapstart (bitmap s.freeblock)

def Image.ino (s : Image) (i : Nat) : Dinode :=
  if i < sb.ninodes then getDinode (s.sect (sb.iblock i)) (i % IPB) else .zero

def Image.vol (s : Image) : Vol := ⟨s.ino, s.blk⟩

/-- What stands where `balloc` writes the bitmap. -/
def Image.bmap (s : Image) : Block := s.sect sb.bmapstart

theorem bitmap_succ (n : Nat) : bitmap (n + 1) = setBit (bitmap n) n := by
  unfold bitmap
  rw [List.range_succ, List.foldl_append]
  rfl

theorem bitOf_bitmap (n : Nat) {j : Nat} (hj : j < BPB) : bitOf (bitmap n) j = decide (j < n) := by
  induction n with
  | zero => simp [bitmap, bitOf]
  | succ n ih =>
    rw [bitmap_succ, bitOf_setBit _ hj, ih, Bool.eq_iff_iff, Bool.or_eq_true, decide_eq_true_eq,
      decide_eq_true_eq, decide_eq_true_eq]
    omega

theorem nmeta_eq : nmeta = sb.datastart := by decide

theorem bblock_eq {b : Nat} (hb : b < FSSIZE) : sb.bblock b = sb.bmapstart ∧ b % BPB = b := by
  unfold Superblock.bblock
  simp only [BPB, BSIZE, FSSIZE] at *
  omega

theorem bmapstart_lt_nmeta : sb.bmapstart < nmeta := by decide

/-! ## Places of an inode -/

/-- The places of an inode that have a block. -/
def places (V : Vol) (i : Nat) : Finset Nat :=
  (Finset.range NPLACE).filter fun p => V.ref sb (i, p) ≠ none

/-- The places of a file of `n` bytes. -/
def needs (n : Nat) : Finset Nat :=
  (Finset.range NPLACE).filter fun p => (if p ≤ NDIRECT then p else p - 1) * BSIZE < n

def way (fbn : Nat) : Finset Nat := insert (place fbn) (if fbn < NDIRECT then ∅ else {NDIRECT})

variable {V V' : Vol} {s s' : Image} {i inum p : Nat}

theorem mem_places : p ∈ places V i ↔ p < NPLACE ∧ V.ref sb (i, p) ≠ none := by
  unfold places
  rw [Finset.mem_filter, Finset.mem_range]

theorem mem_needs {n : Nat} :
    p ∈ needs n ↔ p < NPLACE ∧ (if p ≤ NDIRECT then p else p - 1) * BSIZE < n := by
  unfold needs
  rw [Finset.mem_filter, Finset.mem_range]

theorem mem_way {fbn : Nat} : p ∈ way fbn ↔ p = place fbn ∨ (NDIRECT ≤ fbn ∧ p = NDIRECT) := by
  unfold way
  rw [Finset.mem_insert]
  refine or_congr Iff.rfl ?_
  split
  · exact ⟨fun h => absurd h (Finset.notMem_empty _), fun h => by omega⟩
  · rw [Finset.mem_singleton]
    exact ⟨fun h => ⟨by omega, h⟩, fun h => h.2⟩

theorem place_mem_needs {k n : Nat} : place k ∈ needs n ↔ k < MAXFILE ∧ k * BSIZE < n := by
  rw [mem_needs]
  unfold place
  simp only [NPLACE, MAXFILE, NDIRECT, BSIZE, NINDIRECT]
  split <;> split <;> omega

theorem needs_add {off m : Nat} (hm : 0 < m) (hfit : off % BSIZE + m ≤ BSIZE)
    (hmax : off / BSIZE < MAXFILE) : needs (off + m) = needs off ∪ way (off / BSIZE) := by
  ext p
  rw [Finset.mem_union, mem_needs, mem_needs, mem_way]
  unfold place
  simp only [NPLACE, MAXFILE, NDIRECT, BSIZE, NINDIRECT] at *
  split <;> split <;> omega

/-- Number of blocks of a file of `n` bytes, the indirect block included. -/
def blocksFor (n : Nat) : Nat := (n + BSIZE - 1) / BSIZE + if NDIRECT * BSIZE < n then 1 else 0

theorem card_needs {n : Nat} (hn : n ≤ MAXFILE * BSIZE) : (needs n).card = blocksFor n := by
  have hinj : ∀ k, k < (n + BSIZE - 1) / BSIZE ↔ k * BSIZE < n := by
    intro k
    simp only [BSIZE]
    omega
  have hsplit : needs n = ((Finset.range ((n + BSIZE - 1) / BSIZE)).image place) ∪
      (if NDIRECT * BSIZE < n then {NDIRECT} else ∅) := by
    ext p
    rw [Finset.mem_union, Finset.mem_image]
    by_cases hp : p = NDIRECT
    · subst hp
      have hno : ¬ ∃ a ∈ Finset.range ((n + BSIZE - 1) / BSIZE), place a = NDIRECT := by
        rintro ⟨a, _, ha⟩
        exact place_ne_indirect a ha
      rw [mem_needs]
      by_cases hlt : NDIRECT * BSIZE < n
      · rw [if_pos hlt]
        exact ⟨fun _ => Or.inr (Finset.mem_singleton_self _), fun _ => ⟨by decide, hlt⟩⟩
      · rw [if_neg hlt]
        exact ⟨fun h => absurd h.2 hlt, fun h => (h.elim hno (Finset.notMem_empty _)).elim⟩
    · obtain ⟨k, rfl⟩ : ∃ k, p = place k := by
        unfold place
        by_cases hlt : p < NDIRECT
        · exact ⟨p, by rw [if_pos hlt]⟩
        · exact ⟨p - 1, by rw [if_neg (by omega)]; omega⟩
      have hnot : place k ∉ (if NDIRECT * BSIZE < n then {NDIRECT} else ∅ : Finset Nat) := by
        split
        · exact fun h => hp (Finset.mem_singleton.1 h)
        · exact Finset.notMem_empty _
      rw [place_mem_needs]
      constructor
      · rintro ⟨_, hk⟩
        exact Or.inl ⟨k, Finset.mem_range.2 ((hinj k).2 hk), rfl⟩
      · rintro (⟨a, ha, he⟩ | h)
        · rw [place_inj he] at ha
          have hk := (hinj k).1 (Finset.mem_range.1 ha)
          exact ⟨Nat.lt_of_mul_lt_mul_right (a := BSIZE) (by omega), hk⟩
        · exact absurd h hnot
  rw [hsplit, Finset.card_union_of_disjoint, Finset.card_image_of_injective _ fun _ _ => place_inj,
    Finset.card_range]
  · unfold blocksFor
    split <;> simp
  · rw [Finset.disjoint_left]
    intro p hp
    obtain ⟨k, _, rfl⟩ := Finset.mem_image.1 hp
    split
    · rw [Finset.mem_singleton]
      exact place_ne_indirect k
    · exact Finset.notMem_empty _

/-! ## Image and volume between the steps -/

structure Holds (s : Image) (V : Vol) : Prop where
  blk : V.blk = s.blk
  ok : V.Ok sb ∅
  len : s.len = FSSIZE
  used : s.freeblock ≤ FSSIZE
  /-- blocks that were not handed out are as they were written first -/
  zero : ∀ b, s.freeblock ≤ b → b < FSSIZE → s.sect b = .zero

theorem Holds.bit (h : Holds s V) {b : Nat} (hb : b < FSSIZE) :
    V.bit sb b = decide (b < s.freeblock) := by
  obtain ⟨hblock, hmod⟩ := bblock_eq hb
  unfold Vol.bit
  rw [hblock, hmod, h.blk, Image.blk, Function.update_self, bitOf_bitmap]
  simp only [BPB, BSIZE, FSSIZE] at *
  omega

theorem Holds.ref_lt (h : Holds s V) {y : Nat × Nat} {x : Nat} (hy : V.ref sb y = some x) :
    nmeta ≤ x ∧ x < s.freeblock ∧ x < FSSIZE := by
  obtain ⟨h1, h2, h3⟩ := h.ok.ref_data (i := y.1) (p := y.2) hy
  have h2' : x < FSSIZE := h2
  rw [h.bit h2', decide_eq_true_eq] at h3
  exact ⟨nmeta_eq ▸ h1, h3, h2'⟩

/-- Blocks behind the bitmap do not hold inodes. -/
theorem ino_update {b : Nat} (hb : sb.bmapstart ≤ b) (x : Block) (l f k : Nat) :
    (Image.mk (Function.update s.sect b x) l f k).ino = s.ino := by
  funext j
  unfold Image.ino
  by_cases hj : j < sb.ninodes
  · have : sb.iblock j < sb.bmapstart := iblock_lt mkfsSb_wf hj
    rw [if_pos hj, if_pos hj]
    show getDinode (Function.update s.sect b x _) _ = _
    rw [Function.update_of_ne (by omega)]
  · rw [if_neg hj, if_neg hj]

theorem bmap_update {b : Nat} (hb : b ≠ sb.bmapstart) (x : Block) (l f k : Nat) :
    (Image.mk (Function.update s.sect b x) l f k).bmap = s.bmap :=
  Function.update_of_ne hb.symm _ _

theorem Holds.wsect (h : Holds s V) {b : Nat} (hb : nmeta ≤ b) (hlt : b < s.freeblock) (x : Block)
    (hok : (V.setBlk b x).Ok sb ∅) :
    Holds { s with sect := Function.update s.sect b x, len := max s.len (b + 1) } (V.setBlk b x) where
  blk := by
    have hne : b ≠ sb.bmapstart := by
      have := bmapstart_lt_nmeta
      omega
    show Function.update V.blk b x = Function.update (Function.update s.sect b x) _ _
    rw [h.blk, Image.blk, Function.update_comm hne]
  ok := hok
  len := by
    have := h.used
    have := h.len
    show max s.len (b + 1) = FSSIZE
    omega
  used := h.used
  zero c hc hlt' := by
    show Function.update s.sect b x c = .zero
    have hc' : s.freeblock ≤ c := hc
    rw [Function.update_of_ne (by omega)]
    exact h.zero c hc hlt'

/-- `freeblock++` marks a block as used; it is zero as `bzero` leaves it in the kernel. -/
theorem Holds.next (h : Holds s V) (hlt : s.freeblock < FSSIZE) :
    (V.take sb s.freeblock).blk = { s with freeblock := s.freeblock + 1 : Image }.blk := by
  obtain ⟨hblock, hmod⟩ := bblock_eq hlt
  have hne : s.freeblock ≠ sb.bmapstart := by
    intro he
    have hres := h.ok.reserved sb.bmapstart (by decide)
    rw [h.bit (by decide), decide_eq_true_eq] at hres
    omega
  have hz : V.blk s.freeblock = .zero := by
    rw [h.blk, Image.blk, Function.update_of_ne hne]
    exact h.zero _ le_rfl hlt
  unfold Vol.take
  rw [hblock, hmod]
  show Function.update (Function.update V.blk _ _) _ _ = Function.update s.sect _ (bitmap (s.freeblock + 1))
  rw [bitmap_succ]
  have hmap : V.blk sb.bmapstart = bitmap s.freeblock := by
    rw [h.blk, Image.blk, Function.update_self]
  rw [hmap, Function.update_comm hne.symm, ← hz, Function.update_eq_self, h.blk, Image.blk,
    Function.update_idem]

/-! ## Filling places -/

structure Grown (inum : Nat) (W : Finset Nat) (s : Image) (V : Vol) (s' : Image) (V' : Vol) :
    Prop where
  holds : Holds s' V'
  ino : s'.ino = s.ino
  freeinode : s'.freeinode = s.freeinode
  bmap : s'.bmap = s.bmap
  other : ∀ j, j ≠ inum → V'.ino j = V.ino j
  fields : V'.ino inum = { V.ino inum with addrs := (V'.ino inum).addrs }
  data : ∀ j k, V'.data sb j k = V.data sb j k
  keep : ∀ y b, V.ref sb y = some b → V'.ref sb y = some b
  ne : ∀ j, j ≠ inum → ∀ p, V'.ref sb (j, p) = V.ref sb (j, p)
  filled : places V' inum = places V inum ∪ W
  count : s'.freeblock + (places V inum).card = s.freeblock + (places V' inum).card

variable {W W' : Finset Nat}

/-- The blocks are there. -/
def Room (s : Image) (V : Vol) (inum : Nat) (W : Finset Nat) : Prop :=
  s.freeblock + (places V inum ∪ W).card ≤ FSSIZE + (places V inum).card

theorem Room.lt (h : Room s V inum W) (hp : p ∈ W) (hn : V.ref sb (inum, p) = none) :
    s.freeblock < FSSIZE := by
  have hnot : p ∉ places V inum := fun hm => (mem_places.1 hm).2 hn
  have hsub : insert p (places V inum) ⊆ places V inum ∪ W :=
    Finset.insert_subset (Finset.mem_union_right _ hp) Finset.subset_union_left
  have hcard := Finset.card_le_card hsub
  rw [Finset.card_insert_of_notMem hnot] at hcard
  unfold Room at h
  omega

/-- There is no room for one more place: it has no block, and all blocks are taken. -/
theorem full_of_not_room (h : Holds s V) (hp : p < NPLACE) (hr : ¬Room s V inum {p}) :
    V.ref sb (inum, p) = none ∧ s.freeblock = FSSIZE := by
  have hused := h.used
  have hnone : V.ref sb (inum, p) = none := by
    by_contra hne
    have hmem : p ∈ places V inum := mem_places.2 ⟨hp, hne⟩
    refine hr ?_
    unfold Room
    rw [Finset.union_eq_left.2 (Finset.singleton_subset_iff.2 hmem)]
    omega
  refine ⟨hnone, ?_⟩
  have hnot : p ∉ places V inum := fun hm => (mem_places.1 hm).2 hnone
  unfold Room at hr
  rw [Finset.union_comm, ← Finset.insert_eq, Finset.card_insert_of_notMem hnot] at hr
  omega

theorem Room.mono (h : Room s V inum W) (hsub : W' ⊆ W) : Room s V inum W' := by
  have := Finset.card_le_card (Finset.union_subset_union_right (s := places V inum) hsub)
  unfold Room at *
  omega

namespace Grown

theorem refl (h : Holds s V) (hsub : W ⊆ places V inum) : Grown inum W s V s V :=
  ⟨h, rfl, rfl, rfl, fun _ _ => rfl, rfl, fun _ _ => rfl, fun _ _ hb => hb, fun _ _ _ => rfl,
    (Finset.union_eq_left.2 hsub).symm, rfl⟩

theorem trans {s'' : Image} {V'' : Vol} (h : Grown inum W s V s' V')
    (h' : Grown inum W' s' V' s'' V'') : Grown inum (W ∪ W') s V s'' V'' where
  holds := h'.holds
  ino := h'.ino.trans h.ino
  freeinode := h'.freeinode.trans h.freeinode
  bmap := h'.bmap.trans h.bmap
  other j hj := (h'.other j hj).trans (h.other j hj)
  fields := by
    rw [h'.fields, h.fields]
  data j k := (h'.data j k).trans (h.data j k)
  keep y b hb := h'.keep y b (h.keep y b hb)
  ne j hj p := (h'.ne j hj p).trans (h.ne j hj p)
  filled := by
    rw [h'.filled, h.filled, Finset.union_assoc]
  count := by
    have := h.count
    have := h'.count
    omega

/-- What is left of the blocks after the first places were filled. -/
theorem room_iff (h : Grown inum W s V s' V') : Room s' V' inum W' ↔ Room s V inum (W ∪ W') := by
  have hcount := h.count
  unfold Room
  rw [h.filled, Finset.union_assoc]
  rw [h.filled] at hcount
  omega

end Grown

/-- A place without a block gets the next one. -/
theorem Grown.of_filled {r : Nat} (hp : p < NPLACE) (hn : V.ref sb (inum, p) = none) (hf : Vol.Filled sb V V' inum p r)
    (hs' : Holds s' V') (hino : s'.ino = s.ino) (hfree : s'.freeinode = s.freeinode)
    (hbmap : s'.bmap = s.bmap) (hblock : s'.freeblock = s.freeblock + 1)
    (hother : ∀ j, j ≠ inum → V'.ino j = V.ino j)
    (hfields : V'.ino inum = { V.ino inum with addrs := (V'.ino inum).addrs }) :
    Grown inum {p} s V s' V' := by
  have hplaces : places V' inum = insert p (places V inum) := by
    ext q
    rw [Finset.mem_insert, mem_places, mem_places]
    by_cases hq : q = p
    · rw [hq, hf.self]
      simp [hp]
    · rw [hf.ne _ fun he => hq (Prod.mk.inj he).2]
      simp [hq]
  refine ⟨hs', hino, hfree, hbmap, hother, hfields, hf.data, fun y b hb => ?_, fun j hj q => ?_, ?_, ?_⟩
  · rw [hf.ne]
    · exact hb
    · rintro rfl
      rw [hn] at hb
      cases hb
  · exact hf.ne _ fun he => hj (Prod.mk.inj he).1
  · rw [hplaces, Finset.union_comm]
    rfl
  · have hnot : p ∉ places V inum := fun hm => (mem_places.1 hm).2 hn
    rw [hplaces, Finset.card_insert_of_notMem hnot, hblock]
    omega

theorem Holds.take (h : Holds s V) (hlt : s.freeblock < FSSIZE) {d : Dinode}
    (hok : ((V.take sb s.freeblock).setIno inum d).Ok sb ∅) :
    Holds { s with freeblock := s.freeblock + 1 } ((V.take sb s.freeblock).setIno inum d) where
  blk := h.next hlt
  ok := hok
  len := h.len
  used := hlt
  zero b hb hb' := h.zero b (Nat.le_of_succ_le hb) hb'

variable {E : Option Exit → Prop}

theorem wp_rsect {b : Nat} {Q : Block → Image → Prop} (hb : b < s.len) (hQ : Q (s.sect b) s) :
    wp E (rsect b) Q s := by
  unfold rsect
  rw [wp_atomic, if_pos hb]
  exact hQ

theorem wp_rsect_end {b : Nat} (hb : s.len ≤ b) (hE : ∀ x, E x) (Q : Block → Image → Prop) :
    wp E (rsect b) Q s := by
  rw [rsect, wp_atomic, if_neg (by omega)]
  exact hE _

theorem wp_wsect {b : Nat} {x : Block} {Q : Unit → Image → Prop}
    (hQ : Q () { s with sect := Function.update s.sect b x, len := max s.len (b + 1) }) :
    wp E (wsect b x) Q s := by
  unfold wsect
  rw [wp_atomic]
  exact hQ

theorem wp_nextBlock {Q : Nat → Image → Prop}
    (hQ : Q s.freeblock { s with freeblock := s.freeblock + 1 }) : wp E nextBlock Q s := by
  unfold nextBlock
  rw [wp_atomic]
  exact hQ

/-- `V` with the inode in memory: it may have another size by now. -/
def InMemory (V : Vol) (inum : Nat) (din : Dinode) (off : Nat) : Prop :=
  V.ino inum = { din with size := BitVec.ofNat 32 off }

variable {din : Dinode} {off : Nat}

theorem InMemory.addr (h : InMemory V inum din off) (q : Nat) : (V.ino inum).addr q = din.addr q := by
  rw [h]
  rfl

theorem wp_addrOf (h : Holds s V) (ha : V.Allocated sb inum) (hm : InMemory V inum din off)
    (hp : p ≤ NDIRECT) (hr : Room s V inum {p}) :
    wp E (addrOf din p) (fun x s' => ∃ V', Grown inum {p} s V s' V' ∧ InMemory V' inum x.2 off ∧
      V'.ref sb (inum, p) = some x.1) s := by
  have hlt : p < NPLACE := by
    simp only [NPLACE]
    omega
  have hat : V.addrAt (V.ino inum) p = din.addr p := by
    rw [Vol.addrAt_direct hp, hm.addr]
  unfold addrOf
  refine wp_ite (fun hz => ?_) fun hz => ?_
  · have hn : V.ref sb (inum, p) = none := (Vol.ref_eq_none ha hlt).2 (hat.trans hz)
    have hroom := hr.lt (Finset.mem_singleton_self p) hn
    have hfree : V.bit sb s.freeblock = false := by
      rw [h.bit hroom, decide_eq_false (lt_irrefl _)]
    have hf := h.ok.fillDirect mkfsSb_wf hroom hfree ha hp hn
    have hmem : InMemory ((V.take sb s.freeblock).setIno inum
        ((V.ino inum).setAddr p (BitVec.ofNat 32 s.freeblock))) inum
        (din.setAddr p (BitVec.ofNat 32 s.freeblock)) off := by
      unfold InMemory
      rw [Vol.setIno_ino_self, hm]
      rfl
    rw [wp_bind]
    refine wp_nextBlock ⟨_, Grown.of_filled hlt hn hf (h.take hroom hf.ok) rfl rfl rfl rfl
      (fun j hj => Vol.setIno_ino_ne _ hj) ?_, hmem, hf.self⟩
    rw [Vol.setIno_ino_self]
    rfl
  · have hsome : V.ref sb (inum, p) = some (din.addr p).toNat :=
      Vol.ref_eq_some.2 ⟨ha, hlt, by rwa [hat], by rw [hat]⟩
    refine ⟨V, Grown.refl h ?_, hm, hsome⟩
    rw [Finset.singleton_subset_iff, mem_places, hsome]
    exact ⟨hlt, Option.some_ne_none _⟩

/-- The block is one too many: it lies behind the last sector. -/
theorem wp_addrOf_full (h : Holds s V) (ha : V.Allocated sb inum) (hm : InMemory V inum din off)
    (hp : p ≤ NDIRECT) (hr : ¬Room s V inum {p}) {Q : Nat × Dinode → Image → Prop}
    (hQ : ∀ d, Q (FSSIZE, d) { s with freeblock := FSSIZE + 1 }) : wp E (addrOf din p) Q s := by
  have hlt : p < NPLACE := by
    simp only [NPLACE]
    omega
  obtain ⟨hnone, hfull⟩ := full_of_not_room h hlt hr
  have hz : din.addr p = 0 := by
    rw [← hm.addr, ← Vol.addrAt_direct hp]
    exact (Vol.ref_eq_none ha hlt).1 hnone
  rw [addrOf, if_pos hz, wp_bind]
  refine wp_nextBlock ?_
  rw [hfull]
  exact hQ _

theorem Grown.allocated (h : Grown inum W s V s' V') (ha : V.Allocated sb inum) :
    V'.Allocated sb inum := by
  refine ⟨ha.1, ?_⟩
  rw [h.fields]
  exact ha.2

/-- A block of a file is not the bitmap. -/
theorem Holds.blk_ref (h : Holds s V) {y : Nat × Nat} {x : Nat} (hy : V.ref sb y = some x) :
    V.blk x = s.sect x := by
  have hlow := (h.ref_lt hy).1
  have hmap := bmapstart_lt_nmeta
  rw [h.blk, Image.blk, Function.update_of_ne (by omega)]

theorem Holds.entry {ind : Nat} (h : Holds s V) (hind : V.ref sb (inum, NDIRECT) = some ind) (j : Nat) :
    V.addrAt (V.ino inum) (NDIRECT + 1 + j) = (s.sect ind).word (4 * j) := by
  obtain ⟨_, _, h1, h2⟩ := Vol.ref_eq_some.1 hind
  rw [Vol.addrAt_direct le_rfl] at h1 h2
  rw [Vol.addrAt_entry h1, h2, h.blk_ref hind]

theorem wp_entryOf {ind j : Nat} (h : Holds s V) (ha : V.Allocated sb inum)
    (hm : InMemory V inum din off) (hind : V.ref sb (inum, NDIRECT) = some ind) (hj : j < NINDIRECT)
    (hr : Room s V inum {NDIRECT + 1 + j}) :
    wp E (do
      let indirect ← rsect ind
      if indirect.word (4 * j) = 0 then
        let r ← nextBlock
        wsect ind (indirect.setWord (4 * j) (BitVec.ofNat 32 r))
        return (r, din)
      else return ((indirect.word (4 * j)).toNat, din)) (fun x s' => ∃ V',
        Grown inum {NDIRECT + 1 + j} s V s' V' ∧ InMemory V' inum x.2 off ∧
        V'.ref sb (inum, NDIRECT + 1 + j) = some x.1) s := by
  obtain ⟨hlow, hused, hsize⟩ := h.ref_lt hind
  have hlt : NDIRECT + 1 + j < NPLACE := by
    simp only [NPLACE]
    omega
  have hmap := bmapstart_lt_nmeta
  have hne : ind ≠ sb.bmapstart := by omega
  have hblk := h.blk_ref hind
  have hat := h.entry hind j
  rw [wp_bind]
  refine wp_rsect (by rw [h.len]; exact hsize) ?_
  refine wp_ite (fun hz => ?_) fun hz => ?_
  · have hn : V.ref sb (inum, NDIRECT + 1 + j) = none :=
      (Vol.ref_eq_none ha hlt).2 (hat.trans hz)
    have hroom := hr.lt (Finset.mem_singleton_self _) hn
    have hfree : V.bit sb s.freeblock = false := by
      rw [h.bit hroom, decide_eq_false (lt_irrefl _)]
    have hf := h.ok.fillEntry mkfsSb_wf hroom hfree hind hj hn
    have hkept : (V.take sb s.freeblock).blk ind = s.sect ind := by
      rw [Vol.take_blk_ref h.ok hroom hfree hind, hblk]
    rw [hkept] at hf
    rw [wp_bind]
    refine wp_nextBlock ?_
    rw [wp_bind]
    refine wp_wsect ⟨_, Grown.of_filled hlt hn hf ?_ (ino_update (s := s) (by omega) _ _ _ _) rfl
      (bmap_update hne _ _ _ _) rfl (fun _ _ => rfl) rfl, hm, hf.self⟩
    -- first the block is handed out, then its number is written
    refine ⟨?_, hf.ok, ?_, hroom, fun c hc hc' => ?_⟩
    · show Function.update (V.take sb s.freeblock).blk ind _ = Function.update (Function.update _ _ _) _ _
      rw [h.next hroom, Image.blk, Function.update_comm hne]
    · have := h.len
      show max s.len (ind + 1) = FSSIZE
      omega
    · have hc1 : s.freeblock + 1 ≤ c := hc
      show Function.update s.sect ind _ c = .zero
      rw [Function.update_of_ne (by omega)]
      exact h.zero c (by omega) hc'
  · have hsome : V.ref sb (inum, NDIRECT + 1 + j) = some ((s.sect ind).word (4 * j)).toNat :=
      Vol.ref_eq_some.2 ⟨ha, hlt, by rwa [hat], by rw [hat]⟩
    refine ⟨V, Grown.refl h ?_, hm, hsome⟩
    rw [Finset.singleton_subset_iff, mem_places, hsome]
    exact ⟨hlt, Option.some_ne_none _⟩

theorem way_direct {fbn : Nat} (hlt : fbn < NDIRECT) : way fbn = {fbn} := by
  unfold way place
  rw [if_pos hlt, if_pos hlt]
  rfl

theorem way_indirect (j : Nat) : way (NDIRECT + j) = {NDIRECT} ∪ {NDIRECT + 1 + j} := by
  unfold way place
  rw [if_neg (by omega), if_neg (by omega), Finset.insert_eq, Finset.union_comm,
    Nat.add_right_comm NDIRECT j 1]

theorem wp_blockOf {fbn : Nat} (h : Holds s V) (ha : V.Allocated sb inum)
    (hm : InMemory V inum din off) (hmax : fbn < MAXFILE) (hr : Room s V inum (way fbn)) :
    wp E (blockOf din fbn) (fun x s' => ∃ V', Grown inum (way fbn) s V s' V' ∧
      InMemory V' inum x.2 off ∧ V'.ref sb (inum, place fbn) = some x.1) s := by
  unfold blockOf
  by_cases hlt : fbn < NDIRECT
  · rw [way_direct hlt] at hr ⊢
    rw [if_pos hlt, show place fbn = fbn from if_pos hlt]
    exact wp_addrOf h ha hm (by omega) hr
  · obtain ⟨j, rfl⟩ : ∃ j, fbn = NDIRECT + j := ⟨_, (Nat.add_sub_of_le (by omega)).symm⟩
    have hplace : place (NDIRECT + j) = NDIRECT + 1 + j := by
      unfold place
      rw [if_neg hlt, Nat.add_right_comm]
    rw [way_indirect] at hr ⊢
    rw [if_neg hlt, hplace, Nat.add_sub_cancel_left, wp_bind]
    refine wp_mono (wp_addrOf h ha hm le_rfl (hr.mono Finset.subset_union_left)) ?_
    rintro ⟨ind, din₁⟩ s₁ ⟨V₁, hg, hm₁, hind⟩
    have hjlt : j < NINDIRECT := by
      simp only [MAXFILE] at hmax
      omega
    refine wp_mono (wp_entryOf hg.holds (hg.allocated ha) hm₁ hind hjlt (hg.room_iff.2 hr)) ?_
    rintro x s₂ ⟨V₂, hg₂, hm₂, hx⟩
    exact ⟨V₂, hg.trans hg₂, hm₂, hx⟩

/-- Without room for the two blocks one of them lies behind the last sector: the indirect block cannot be
read, or the other one is still to be read. -/
theorem wp_blockOf_full {fbn : Nat} (h : Holds s V) (ha : V.Allocated sb inum)
    (hm : InMemory V inum din off) (hmax : fbn < MAXFILE) (hr : ¬Room s V inum (way fbn))
    (hE : ∀ x, E x) : wp E (blockOf din fbn) (fun x s' => s'.len ≤ x.1) s := by
  unfold blockOf
  by_cases hlt : fbn < NDIRECT
  · rw [way_direct hlt] at hr
    rw [if_pos hlt]
    exact wp_addrOf_full h ha hm (by omega) hr fun d => h.len.le
  · obtain ⟨j, rfl⟩ : ∃ j, fbn = NDIRECT + j := ⟨_, (Nat.add_sub_of_le (by omega)).symm⟩
    have hjlt : NDIRECT + 1 + j < NPLACE := by
      simp only [MAXFILE, NPLACE] at *
      omega
    rw [way_indirect] at hr
    rw [if_neg hlt, Nat.add_sub_cancel_left, wp_bind]
    by_cases hfirst : Room s V inum {NDIRECT}
    · refine wp_mono (wp_addrOf h ha hm le_rfl hfirst) ?_
      rintro ⟨ind, din₁⟩ s₁ ⟨V₁, hg, hm₁, hind⟩
      obtain ⟨hnone, hfull⟩ := full_of_not_room hg.holds hjlt fun hroom => hr (hg.room_iff.1 hroom)
      obtain ⟨-, -, hsize⟩ := hg.holds.ref_lt hind
      have hlen := hg.holds.len
      have hz : (s₁.sect ind).word (4 * j) = 0 := by
        rw [← hg.holds.entry hind]
        exact (Vol.ref_eq_none (hg.allocated ha) hjlt).1 hnone
      rw [wp_bind]
      refine wp_rsect (by omega) ?_
      rw [if_pos hz, wp_bind]
      refine wp_nextBlock ?_
      rw [wp_bind]
      refine wp_wsect ?_
      show max s₁.len (ind + 1) ≤ s₁.freeblock
      omega
    · refine wp_addrOf_full h ha hm le_rfl hfirst fun d => ?_
      rw [wp_bind]
      refine wp_rsect_end ?_ hE _
      exact h.len.le

/-! ## The loop of `iappend` -/

/-- Between the rounds a file has the blocks of its size, and no more. -/
structure Good (s : Image) (V : Vol) : Prop extends Holds s V where
  exact : ∀ i, V.Allocated sb i → places V i = needs (V.ino i).size.toNat

structure Appended (inum : Nat) (p : List Byte) (s : Image) (V : Vol) (s' : Image) (V' : Vol) :
    Prop where
  good : Good s' V'
  freeinode : s'.freeinode = s.freeinode
  bmap : s'.bmap = s.bmap
  other : ∀ j, j ≠ inum → V'.ino j = V.ino j
  fields : V'.ino inum = { V.ino inum with
    addrs := (V'.ino inum).addrs
    size := BitVec.ofNat 32 ((V.ino inum).size.toNat + p.length) }
  data : V'.data sb = patch (V.data sb) inum (V.ino inum).size.toNat p.length fun k => p.getD k 0
  count : s'.freeblock + (needs (V.ino inum).size.toNat).card =
    s.freeblock + (needs ((V.ino inum).size.toNat + p.length)).card

theorem card_needs_mono {m n : Nat} (h : m ≤ n) : (needs m).card ≤ (needs n).card := by
  refine Finset.card_le_card fun q hq => ?_
  rw [mem_needs] at *
  omega

/-- The blocks for `n` more bytes are there. -/
def Fit (s : Image) (V : Vol) (inum n : Nat) : Prop :=
  (V.ino inum).size.toNat + n ≤ MAXFILE * BSIZE ∧
    s.freeblock + (needs ((V.ino inum).size.toNat + n)).card ≤
      FSSIZE + (needs (V.ino inum).size.toNat).card

theorem Fit.zero (h : Good s V) (hmax : (V.ino inum).size.toNat ≤ MAXFILE * BSIZE) :
    Fit s V inum 0 :=
  ⟨hmax, Nat.add_le_add_right h.used _⟩

theorem Fit.left {m n : Nat} (h : Fit s V inum (m + n)) : Fit s V inum m := by
  have hmono : (needs ((V.ino inum).size.toNat + m)).card ≤
    (needs ((V.ino inum).size.toNat + (m + n))).card := card_needs_mono (by omega)
  unfold Fit at *
  omega

namespace Appended

variable {bs cs : List Byte}

theorem nil (h : Good s V) : Appended inum [] s V s V where
  good := h
  freeinode := rfl
  bmap := rfl
  other _ _ := rfl
  fields := by
    rw [List.length_nil, Nat.add_zero, BitVec.ofNat_toNat, BitVec.setWidth_eq]
  data := by
    rw [List.length_nil, patch_zero]
  count := rfl

theorem size (h : Appended inum bs s V s' V') (hfit : Fit s V inum bs.length) :
    (V'.ino inum).size.toNat = (V.ino inum).size.toNat + bs.length := by
  have := hfit.1
  rw [h.fields]
  show (BitVec.ofNat 32 _).toNat = _
  rw [BitVec.toNat_ofNat]
  simp only [MAXFILE, NDIRECT, NINDIRECT, BSIZE] at *
  omega

theorem trans {s'' : Image} {V'' : Vol} (h : Appended inum bs s V s' V')
    (hfit : Fit s V inum bs.length) (h' : Appended inum cs s' V' s'' V'') :
    Appended inum (bs ++ cs) s V s'' V'' where
  good := h'.good
  freeinode := h'.freeinode.trans h.freeinode
  bmap := h'.bmap.trans h.bmap
  other j hj := (h'.other j hj).trans (h.other j hj)
  fields := by
    rw [h'.fields, h.size hfit, List.length_append, ← Nat.add_assoc, h.fields]
  data := by
    have hleft : ∀ k, k < bs.length → bs.getD k 0 = (bs ++ cs).getD k 0 := by
      intro k hk
      simp [List.getElem?_append_left hk]
    have hright : ∀ k, k < cs.length → cs.getD k 0 = (bs ++ cs).getD (bs.length + k) 0 := by
      intro k _
      simp [List.getElem?_append_right (Nat.le_add_right bs.length k)]
    rw [h'.data, h.data, h.size hfit, List.length_append, ← patch_patch, patch_congr hleft,
      patch_congr hright]
  count := by
    have := h.count
    have := h'.count
    rw [h.size hfit] at this
    rw [List.length_append, ← Nat.add_assoc]
    omega

/-- What is left for the rest of the bytes. -/
theorem fit_iff {n : Nat} (h : Appended inum bs s V s' V') (hfit : Fit s V inum bs.length) :
    Fit s' V' inum n ↔ Fit s V inum (bs.length + n) := by
  have hcount := h.count
  unfold Fit
  rw [h.size hfit, ← Nat.add_assoc]
  omega

theorem allocated (h : Appended inum bs s V s' V') (ha : V.Allocated sb inum) :
    V'.Allocated sb inum := by
  refine ⟨ha.1, ?_⟩
  rw [h.fields]
  exact ha.2

end Appended

theorem Grown.append (bs : List Byte) (hgood : Good s V) (ha : V.Allocated sb inum) {x : Nat}
    (hoff : (V.ino inum).size.toNat = off) (hm : 0 < bs.length)
    (hfit : off % BSIZE + bs.length ≤ BSIZE) (hmax : off / BSIZE < MAXFILE)
    (hg : Grown inum (way (off / BSIZE)) s V s' V')
    (hx : V'.ref sb (inum, place (off / BSIZE)) = some x) :
    Appended inum bs s V
      { s' with
        sect := Function.update s'.sect x
          ((s'.sect x).splice (off % BSIZE) bs.length fun k => bs.getD k 0)
        len := max s'.len (x + 1) }
      ((V'.setBlk x ((s'.sect x).splice (off % BSIZE) bs.length fun k => bs.getD k 0)).setIno inum
        { V'.ino inum with size := BitVec.ofNat 32 (off + bs.length) }) := by
  obtain ⟨y, hy⟩ : ∃ y, y = (s'.sect x).splice (off % BSIZE) bs.length fun k => bs.getD k 0 := ⟨_, rfl⟩
  obtain ⟨d, hd⟩ : ∃ d, d = { V'.ino inum with size := BitVec.ofNat 32 (off + bs.length) } := ⟨_, rfl⟩
  rw [← hy, ← hd]
  obtain ⟨hlow, hused, hsize⟩ := hg.holds.ref_lt hx
  have hmap := bmapstart_lt_nmeta
  have hneeds := needs_add hm hfit hmax
  have hplaces : places V' inum = needs (off + bs.length) := by
    rw [hg.filled, hgood.exact inum ha, hoff, hneeds]
  have htype : d.type = ((V'.setBlk x y).ino inum).type := by
    rw [hd]
    rfl
  have haddrs : d.addrs = ((V'.setBlk x y).ino inum).addrs := by
    rw [hd]
    rfl
  have hdsize : d.size.toNat = off + bs.length := by
    rw [hd]
    show (BitVec.ofNat 32 _).toNat = _
    rw [BitVec.toNat_ofNat]
    simp only [MAXFILE, NDIRECT, NINDIRECT, BSIZE] at *
    omega
  have href : ∀ z, ((V'.setBlk x y).setIno inum d).ref sb z = V'.ref sb z := fun z =>
    (Vol.ref_setIno htype haddrs z).trans (Vol.ref_write hg.holds.ok y hx z)
  have hallp : ∀ j, places ((V'.setBlk x y).setIno inum d) j = places V' j := by
    intro j
    unfold places
    simp only [href]
  have hholds := hg.holds.wsect hlow hused y (hg.holds.ok.write mkfsSb_wf.data_le y hx)
  have hok : ((V'.setBlk x y).setIno inum d).Ok sb ∅ := by
    refine hholds.ok.setIno htype haddrs fun _ k hk => ?_
    rw [Vol.ref_write hg.holds.ok y hx]
    have hmem : place k ∈ places V' inum := by
      rw [hplaces, place_mem_needs]
      refine ⟨Nat.lt_of_mul_lt_mul_right (a := BSIZE) ?_, by omega⟩
      have := Nat.div_add_mod off BSIZE
      simp only [MAXFILE, NDIRECT, NINDIRECT, BSIZE] at *
      omega
    exact ⟨(place_mem_needs.1 (hplaces ▸ hmem)).1, (mem_places.1 hmem).2⟩
  refine ⟨⟨⟨hholds.blk, hok, hholds.len, hholds.used, hholds.zero⟩, fun j hj => ?_⟩, hg.freeinode,
    (bmap_update (by omega) _ _ _ _).trans hg.bmap, fun j hj => ?_, ?_, ?_, ?_⟩
  · rw [hallp]
    by_cases hji : j = inum
    · rw [hji, Vol.setIno_ino_self, hdsize, hplaces]
    · have hino : ((V'.setBlk x y).setIno inum d).ino j = V.ino j :=
        (Vol.setIno_ino_ne d hji).trans (hg.other j hji)
      have hsame : places V' j = places V j := by
        unfold places
        simp only [hg.ne j hji]
      rw [hsame, hino]
      refine hgood.exact j ?_
      unfold Vol.Allocated at hj
      rwa [hino] at hj
  · exact (Vol.setIno_ino_ne d hj).trans (hg.other j hj)
  · rw [Vol.setIno_ino_self, hoff, hd, hg.fields]
  · funext j k
    have hblk : s'.sect x = V.data sb inum (off / BSIZE) := by
      rw [← hg.data, Vol.data_of_ref hx, hg.holds.blk, Image.blk, Function.update_of_ne (by omega)]
    rw [Vol.data_setIno htype haddrs, Vol.data_write hg.holds.ok y hx, hg.data, hy, hblk, hoff,
      patch_block hfit]
  · have hcount := hg.count
    rw [hplaces, hgood.exact inum ha, hoff] at hcount
    rw [hoff]
    exact hcount

/-- How many bytes of `bs` the next round writes: at most to the end of the block. -/
def piece (off : Nat) (bs : List Byte) : Nat := min bs.length ((off / BSIZE + 1) * BSIZE - off)

theorem piece_spec {bs : List Byte} (hne : bs ≠ []) (off : Nat) :
    0 < piece off bs ∧ off % BSIZE + piece off bs ≤ BSIZE ∧ piece off bs ≤ bs.length ∧
      (bs.take (piece off bs)).length = piece off bs := by
  have hpos : 0 < bs.length := List.length_pos_iff.2 hne
  have hdm := Nat.div_add_mod' off BSIZE
  have hmod : off % BSIZE < BSIZE := Nat.mod_lt _ (by decide)
  rw [List.length_take]
  unfold piece
  rw [Nat.add_mul]
  omega

theorem iappendFrom_succ {bs : List Byte} (hne : bs ≠ []) (hfbn : off / BSIZE < MAXFILE) (rounds : Nat)
    (din : Dinode) : iappendFrom (rounds + 1) din off bs = (do
      let (x, din) ← blockOf din (off / BSIZE)
      let buf ← rsect x
      wsect x (buf.splice (off - off / BSIZE * BSIZE) (piece off bs) fun k => bs.getD k 0)
      iappendFrom rounds din (off + piece off bs) (bs.drop (piece off bs))) := by
  rw [iappendFrom, if_neg hne]
  dsimp only
  rw [if_neg (by omega)]
  rfl

theorem room_way_iff {bs : List Byte} (hne : bs ≠ []) (h : Good s V) (ha : V.Allocated sb inum)
    (hoff : (V.ino inum).size.toNat = off) (hfbn : off / BSIZE < MAXFILE) :
    Room s V inum (way (off / BSIZE)) ↔ Fit s V inum (piece off bs) := by
  obtain ⟨hpos, hle, -, -⟩ := piece_spec hne off
  have hmax : off + piece off bs ≤ MAXFILE * BSIZE := by
    have := Nat.div_add_mod' off BSIZE
    simp only [MAXFILE, NDIRECT, NINDIRECT, BSIZE] at *
    omega
  unfold Room Fit
  rw [h.exact inum ha, hoff, ← needs_add hpos hle hfbn]
  exact ⟨fun hroom => ⟨hmax, hroom⟩, fun hfit => hfit.2⟩

theorem Grown.round {bs : List Byte} (hne : bs ≠ []) (h : Good s V) (ha : V.Allocated sb inum)
    (hoff : (V.ino inum).size.toNat = off) (hfbn : off / BSIZE < MAXFILE) {s₁ : Image} {V₁ : Vol} {x : Nat}
    (hg : Grown inum (way (off / BSIZE)) s V s₁ V₁) (hm₁ : InMemory V₁ inum din off)
    (hx : V₁.ref sb (inum, place (off / BSIZE)) = some x) :
    ∃ V₂, Appended inum (bs.take (piece off bs)) s V
      { s₁ with
        sect := Function.update s₁.sect x
          ((s₁.sect x).splice (off - off / BSIZE * BSIZE) (piece off bs) fun k => bs.getD k 0)
        len := max s₁.len (x + 1) } V₂ ∧ InMemory V₂ inum din (off + piece off bs) := by
  obtain ⟨hpos, hle, -, hlen⟩ := piece_spec hne off
  have hsrc : ∀ k, k < piece off bs → (bs.take (piece off bs)).getD k 0 = bs.getD k 0 := by
    intro k hk
    simp [hk]
  have happ := Grown.append (bs.take (piece off bs)) h ha hoff (by omega) (by omega) hfbn hg hx
  have hstart : off - off / BSIZE * BSIZE = off % BSIZE := by
    have := Nat.div_add_mod' off BSIZE
    omega
  rw [hlen, Blk.splice_congr _ _ _ hsrc] at happ
  rw [hstart]
  refine ⟨_, happ, ?_⟩
  unfold InMemory
  rw [Vol.setIno_ino_self, hm₁]

/-- Nothing is assumed about the room for the bytes: a run for which there is none meets `E`. -/
theorem wp_iappendFrom {bs : List Byte} (rounds : Nat) (hr : bs.length ≤ rounds) (h : Good s V)
    (ha : V.Allocated sb inum) (hm : InMemory V inum din off) (hoff : (V.ino inum).size.toNat = off)
    (hmax : off ≤ MAXFILE * BSIZE) (hE : ¬Fit s V inum bs.length → ∀ x, E x) :
    wp E (iappendFrom rounds din off bs) (fun x s' => Fit s V inum bs.length ∧ s'.ino = s.ino ∧
      ∃ V', Appended inum bs s V s' V' ∧ InMemory V' inum x.1 x.2) s := by
  induction rounds generalizing s V din off bs with
  | zero =>
    obtain rfl : bs = [] := List.length_eq_zero_iff.1 (by omega)
    exact ⟨Fit.zero h (hoff ▸ hmax), rfl, V, Appended.nil h, hm⟩
  | succ rounds ih =>
    by_cases hne : bs = []
    · subst hne
      exact ⟨Fit.zero h (hoff ▸ hmax), rfl, V, Appended.nil h, hm⟩
    obtain ⟨hpos, -, hple, hlen⟩ := piece_spec hne off
    by_cases hfbn : off / BSIZE < MAXFILE
    swap
    · -- the file has its largest size
      rw [iappendFrom, if_neg hne]
      refine wp_ite (fun _ => hE (fun hfit => hfbn ?_) _) fun hlt => absurd (by omega) hfbn
      have := hfit.1
      exact (Nat.div_lt_iff_lt_mul (by decide)).2 (by omega)
    have hsplit : bs.length = (bs.take (piece off bs)).length + (bs.drop (piece off bs)).length := by
      rw [← List.length_append, List.take_append_drop]
    rw [iappendFrom_succ hne hfbn, wp_bind]
    by_cases hway : Room s V inum (way (off / BSIZE))
    swap
    · have hall := hE fun hfit => hway ((room_way_iff hne h ha hoff hfbn).2 (hlen ▸ (hsplit ▸ hfit).left))
      refine wp_mono (wp_blockOf_full h.toHolds ha hm hfbn hway hall) fun x s' hend => ?_
      rw [wp_bind]
      exact wp_rsect_end hend hall _
    have hfit := (room_way_iff hne h ha hoff hfbn).1 hway
    rw [← hlen] at hfit
    refine wp_mono (wp_blockOf h.toHolds ha hm hfbn hway) ?_
    rintro ⟨x, din₁⟩ s₁ ⟨V₁, hg, hm₁, hx⟩
    obtain ⟨hlow, _, hlt⟩ := hg.holds.ref_lt hx
    have hmap := bmapstart_lt_nmeta
    obtain ⟨V₂, happ, hm₂⟩ := hg.round hne h ha hoff hfbn hm₁ hx
    have hsize := happ.size hfit
    rw [hoff, hlen] at hsize
    have hmax' := hfit.1
    rw [hoff, hlen] at hmax'
    have htotal := happ.fit_iff (n := (bs.drop (piece off bs)).length) hfit
    rw [← hsplit] at htotal
    rw [wp_bind]
    refine wp_rsect (by rw [hg.holds.len]; exact hlt) ?_
    rw [wp_bind]
    refine wp_wsect (wp_mono (ih (by rw [List.length_drop]; omega) happ.good (happ.allocated ha) hm₂ hsize
      hmax' fun hno => hE fun hall => hno (htotal.2 hall)) ?_)
    rintro ⟨din₂, off₂⟩ s₂ ⟨hrest, hino, V₃, happ₂, hm₃⟩
    have htrans := happ.trans hfit happ₂
    rw [List.take_append_drop] at htrans
    exact ⟨htotal.1 hrest, by rw [hino, ino_update (by omega), hg.ino], V₃, htrans, hm₃⟩

end Xv6.Mkfs
