import Xv6.Fs.Layout
import Xv6.Lib.Own

/-!
# Files over blocks

`Vol` is what the file-system code keeps: the inode of every number and the blocks.
An inode refers to blocks from its *places*: the direct addresses, the indirect
block, and the entries of the indirect block.  `Vol.ref` says what a place refers
to and `Vol.data` what a file has in its `k`-th block, which is zeros where it has
no block.

`Vol.Ok` is the invariant: every used data block has one place (or is pending, see
`Xv6.Lib.Own`), the blocks before the data area stay marked, and a file has all the
blocks below its size.  The rest of the module is what each kind of change does to
`ref`, `data` and `Ok`.
-/

namespace Xv6.Fs

open Bytes Conc

structure Vol where
  ino : Nat → Dinode
  blk : Nat → Block

/-- Places of an inode: `0 … 11` direct, `12` the indirect block, from `13` on its entries. -/
abbrev NPLACE : Nat := NDIRECT + 1 + NINDIRECT

/-- The place of the `k`-th block of a file. -/
def place (k : Nat) : Nat := if k < NDIRECT then k else k + 1

namespace Vol

variable (sb : Superblock) (V : Vol)

/-- The address at place `p` of an inode. -/
def addrAt (d : Dinode) (p : Nat) : Word :=
  if p ≤ NDIRECT then d.addr p
  else if d.addr NDIRECT = 0 then 0
  else (V.blk (d.addr NDIRECT).toNat).word (4 * (p - (NDIRECT + 1)))

/-- An inode in use. -/
def Allocated (i : Nat) : Prop := i < sb.ninodes ∧ (V.ino i).type ≠ 0

instance (i : Nat) : Decidable (V.Allocated sb i) := inferInstanceAs (Decidable (_ ∧ _))

/-- The block that place `x.2` of inode `x.1` refers to. -/
def ref (x : Nat × Nat) : Option Nat :=
  if V.Allocated sb x.1 ∧ x.2 < NPLACE ∧ V.addrAt (V.ino x.1) x.2 ≠ 0 then
    some (V.addrAt (V.ino x.1) x.2).toNat
  else none

def data (i k : Nat) : Block :=
  match V.ref sb (i, place k) with
  | some b => V.blk b
  | none => .zero

def bit (b : Nat) : Bool := bitOf (V.blk (sb.bblock b)) (b % BPB)

/-- The data blocks marked as used. -/
def used : Set Nat := {b | sb.datastart ≤ b ∧ b < sb.size ∧ V.bit sb b = true}

structure Ok (pending : Set Nat) : Prop where
  owns : Owns (V.ref sb) (V.used sb) pending
  reserved : ∀ b, b < sb.datastart → V.bit sb b = true
  noHole : ∀ i, V.Allocated sb i → ∀ k, k * BSIZE < (V.ino i).size.toNat →
    k < MAXFILE ∧ V.ref sb (i, place k) ≠ none

def setBlk (b : Nat) (x : Block) : Vol := { V with blk := Function.update V.blk b x }

def setIno (i : Nat) (d : Dinode) : Vol := { V with ino := Function.update V.ino i d }

/-- Block `r` marked as used and zeroed. -/
def take (r : Nat) : Vol :=
  (V.setBlk (sb.bblock r) (setBit (V.blk (sb.bblock r)) (r % BPB))).setBlk r .zero

/-- Number of free data blocks. -/
def free : Nat := ((Finset.Ico sb.datastart sb.size).filter fun b => V.bit sb b = false).card

end Vol

/-! ## Places -/

theorem place_inj {j k : Nat} (h : place j = place k) : j = k := by
  unfold place at h
  simp only [NDIRECT] at h
  split at h <;> split at h <;> omega

theorem place_ne_indirect (k : Nat) : place k ≠ NDIRECT := by
  unfold place
  split <;> omega

theorem place_of_indirect {k : Nat} (h : ¬k < NDIRECT) : place k = NDIRECT + 1 + (k - NDIRECT) := by
  unfold place
  rw [if_neg h]
  omega

theorem place_lt {k : Nat} (h : k < MAXFILE) : place k < NPLACE := by
  unfold place
  simp only [NPLACE, MAXFILE] at *
  split <;> omega

/-! ## Areas of the disk -/

variable {sb : Superblock}

theorem datastart_pos (sb : Superblock) : 0 < sb.datastart := by
  unfold Superblock.datastart Superblock.nbitmap
  exact Nat.lt_of_lt_of_le (Nat.succ_pos _) (Nat.le_add_left _ _)

/-- Another inode of the same block is another slot of it. -/
theorem mod_ne_of_iblock {i j : Nat} (hb : sb.iblock j = sb.iblock i) (hj : j ≠ i) : j % IPB ≠ i % IPB := by
  intro hm
  apply hj
  rw [← Nat.div_add_mod j IPB, ← Nat.div_add_mod i IPB, hm, Nat.add_right_cancel hb]

theorem iblock_lt (hw : sb.WF) {i : Nat} (hi : i < sb.ninodes) : sb.iblock i < sb.bmapstart := by
  have h := hw.inode_bmap
  unfold Superblock.iblock
  simp only [IPB, BSIZE, DINODESZ] at *
  omega

theorem bblock_lt {b : Nat} (hb : b < sb.size) : sb.bblock b < sb.datastart := by
  unfold Superblock.bblock Superblock.datastart Superblock.nbitmap
  have : b / BPB ≤ sb.size / BPB := Nat.div_le_div_right hb.le
  omega

theorem bmapstart_le_bblock (b : Nat) : sb.bmapstart ≤ sb.bblock b := Nat.le_add_left _ _

/-- Blocks whose bits are in one bitmap block at one place are the same. -/
theorem bblock_inj {b c : Nat} (hb : sb.bblock b = sb.bblock c) (hm : b % BPB = c % BPB) : b = c := by
  unfold Superblock.bblock at hb
  rw [← Nat.div_add_mod b BPB, ← Nat.div_add_mod c BPB, hm, Nat.add_right_cancel hb]

theorem size_toNat (hw : sb.WF) {b : Nat} (hb : b < sb.size) : (BitVec.ofNat 32 b).toNat = b := by
  have := hw.size_lt
  rw [BitVec.toNat_ofNat]
  exact Nat.mod_eq_of_lt (by omega)

/-! ## References -/

namespace Vol

variable {V V' : Vol} {X : Set Nat}

theorem ref_eq_some {i p b : Nat} : V.ref sb (i, p) = some b ↔
    V.Allocated sb i ∧ p < NPLACE ∧ V.addrAt (V.ino i) p ≠ 0 ∧ (V.addrAt (V.ino i) p).toNat = b := by
  unfold ref
  constructor
  · intro h
    split at h
    · next hc => exact ⟨hc.1, hc.2.1, hc.2.2, Option.some.inj h⟩
    · cases h
  · rintro ⟨ha, hp, hne, rfl⟩
    exact if_pos ⟨ha, hp, hne⟩

theorem ref_eq_none {i p : Nat} (ha : V.Allocated sb i) (hp : p < NPLACE) :
    V.ref sb (i, p) = none ↔ V.addrAt (V.ino i) p = 0 := by
  constructor
  · intro h
    by_contra hne
    rw [ref_eq_some.2 ⟨ha, hp, hne, rfl⟩] at h
    cases h
  · intro h
    unfold ref
    exact if_neg fun hc => hc.2.2 h

theorem ref_of_not_allocated {i p : Nat} (h : ¬ V.Allocated sb i) : V.ref sb (i, p) = none :=
  if_neg fun hc => h hc.1

theorem allocated_of_ref {i p b : Nat} (h : V.ref sb (i, p) = some b) : V.Allocated sb i :=
  (ref_eq_some.1 h).1

theorem addrAt_direct {d : Dinode} {p : Nat} (hp : p ≤ NDIRECT) : V.addrAt d p = d.addr p :=
  if_pos hp

theorem addrAt_entry {d : Dinode} {j : Nat} (h : d.addr NDIRECT ≠ 0) :
    V.addrAt d (NDIRECT + 1 + j) = (V.blk (d.addr NDIRECT).toNat).word (4 * j) := by
  unfold addrAt
  rw [if_neg (by omega), if_neg h, Nat.add_sub_cancel_left]

theorem addrAt_entry_none {d : Dinode} {p : Nat} (hp : NDIRECT < p) (h : d.addr NDIRECT = 0) :
    V.addrAt d p = 0 := by
  unfold addrAt
  rw [if_neg (by omega), if_pos h]

/-- The places of an inode depend on its type, its addresses and its indirect block. -/
theorem ref_congr {i : Nat} (ht : (V'.ino i).type = (V.ino i).type)
    (ha : (V'.ino i).addrs = (V.ino i).addrs)
    (hb : ∀ b, V.ref sb (i, NDIRECT) = some b → V'.blk b = V.blk b) (p : Nat) :
    V'.ref sb (i, p) = V.ref sb (i, p) := by
  have hall : V'.Allocated sb i ↔ V.Allocated sb i := by
    unfold Allocated
    rw [ht]
  have haddr : ∀ q, (V'.ino i).addr q = (V.ino i).addr q := fun q => by
    unfold Dinode.addr
    rw [ha]
  by_cases hA : V.Allocated sb i
  · have hat : V'.addrAt (V'.ino i) p = V.addrAt (V.ino i) p := by
      unfold addrAt
      rw [haddr, haddr]
      by_cases hz : (V.ino i).addr NDIRECT = 0
      · rw [if_pos hz, if_pos hz]
      · have hind : V.ref sb (i, NDIRECT) = some ((V.ino i).addr NDIRECT).toNat :=
          ref_eq_some.2 ⟨hA, by decide, by rwa [addrAt_direct le_rfl], by rw [addrAt_direct le_rfl]⟩
        rw [hb _ hind]
    unfold ref
    simp only [hall, hat]
  · rw [ref_of_not_allocated hA, ref_of_not_allocated (mt hall.1 hA)]

theorem data_of_ref {i k b : Nat} (h : V.ref sb (i, place k) = some b) : V.data sb i k = V.blk b := by
  unfold data
  rw [h]

theorem data_of_none {i k : Nat} (h : V.ref sb (i, place k) = none) : V.data sb i k = .zero := by
  unfold data
  rw [h]

/-- Files keep their blocks if their places and the blocks there stay. -/
theorem data_congr {i k : Nat} (hr : V'.ref sb (i, place k) = V.ref sb (i, place k))
    (hb : ∀ b, V.ref sb (i, place k) = some b → V'.blk b = V.blk b) :
    V'.data sb i k = V.data sb i k := by
  cases h : V.ref sb (i, place k) with
  | none => rw [data_of_none h, data_of_none (hr.trans h)]
  | some b => rw [data_of_ref h, data_of_ref (hr.trans h), hb b h]

/-! ## Writing a block -/

@[simp] theorem setBlk_ino (b : Nat) (x : Block) : (V.setBlk b x).ino = V.ino := rfl

theorem setBlk_blk_ne {b c : Nat} (x : Block) (h : c ≠ b) : (V.setBlk b x).blk c = V.blk c :=
  Function.update_of_ne h _ _

@[simp] theorem setBlk_blk_self (b : Nat) (x : Block) : (V.setBlk b x).blk b = x :=
  Function.update_self ..

theorem ref_setBlk {b : Nat} (x : Block) (h : ∀ i, V.ref sb (i, NDIRECT) ≠ some b) (y : Nat × Nat) :
    (V.setBlk b x).ref sb y = V.ref sb y := by
  obtain ⟨i, p⟩ := y
  have ht : ((V.setBlk b x).ino i).type = (V.ino i).type := rfl
  refine ref_congr ht rfl (fun c hc => setBlk_blk_ne x ?_) p
  rintro rfl
  exact h _ hc

/-- A block that no place refers to can be written without changing any file. -/
theorem data_setBlk {b : Nat} (x : Block) (h : ∀ i p, V.ref sb (i, p) ≠ some b) (i k : Nat) :
    (V.setBlk b x).data sb i k = V.data sb i k := by
  refine data_congr (ref_setBlk x (fun i => h i _) _) fun c hc => setBlk_blk_ne x ?_
  rintro rfl
  exact h _ _ hc

theorem bit_setBlk_ne {b c : Nat} (x : Block) (h : sb.bblock c ≠ b) :
    (V.setBlk b x).bit sb c = V.bit sb c := by
  unfold bit
  rw [setBlk_blk_ne x h]

/-- Only the blocks of the data area hold files. -/
theorem Ok.ref_data (h : V.Ok sb X) {i p b : Nat} (hr : V.ref sb (i, p) = some b) :
    sb.datastart ≤ b ∧ b < sb.size ∧ V.bit sb b = true := h.owns.used_of_ref hr

theorem Ok.not_ref_of_lt (h : V.Ok sb X) {b : Nat} (hb : b < sb.datastart) (i p : Nat) :
    V.ref sb (i, p) ≠ some b := by
  intro hr
  have := (h.ref_data hr).1
  omega

/-- Marking a block. -/
theorem bit_setBit {r c : Nat} : (V.setBlk (sb.bblock r)
    (setBit (V.blk (sb.bblock r)) (r % BPB))).bit sb c = (decide (c = r) || V.bit sb c) := by
  by_cases hb : sb.bblock c = sb.bblock r
  · unfold bit
    rw [hb, setBlk_blk_self, bitOf_setBit _ (Nat.mod_lt _ (by decide))]
    have hiff : c % BPB = r % BPB ↔ c = r := ⟨fun hm => bblock_inj hb hm, fun he => by rw [he]⟩
    simp only [hiff]
  · rw [bit_setBlk_ne _ hb]
    have hne : c ≠ r := fun he => hb (by rw [he])
    simp [hne]

theorem used_congr (hbit : ∀ c, c < sb.size → V'.bit sb c = V.bit sb c) (c : Nat) :
    c ∈ V'.used sb ↔ c ∈ V.used sb := by
  constructor
  · rintro ⟨h1, h2, h3⟩
    exact ⟨h1, h2, (hbit c h2) ▸ h3⟩
  · rintro ⟨h1, h2, h3⟩
    exact ⟨h1, h2, (hbit c h2).trans h3⟩

/-- What stays when files keep their places: the invariant depends on bits and sizes only. -/
theorem Ok.of_ref (h : V.Ok sb X) {Y : Set Nat} (hr : ∀ x, V'.ref sb x = V.ref sb x)
    (hi : V'.ino = V.ino) (hres : ∀ b, b < sb.datastart → V'.bit sb b = true)
    (ho : Owns (V.ref sb) (V'.used sb) Y) : V'.Ok sb Y where
  owns := ho.congr hr (fun _ => Iff.rfl) fun _ => Iff.rfl
  reserved := hres
  noHole i ha k hk := by
    rw [hi] at hk
    rw [hr]
    exact h.noHole i (by rwa [Allocated, hi] at ha) k hk

theorem Ok.setData (h : V.Ok sb X) {b : Nat} (x : Block) (hb : sb.datastart ≤ b)
    (hd : sb.datastart ≤ sb.size) (hind : ∀ i, V.ref sb (i, NDIRECT) ≠ some b) :
    (V.setBlk b x).Ok sb X := by
  have hbit : ∀ c, c < sb.size → (V.setBlk b x).bit sb c = V.bit sb c := fun c hc =>
    bit_setBlk_ne x (by have := bblock_lt hc; omega)
  refine h.of_ref (fun y => ref_setBlk x hind y) rfl
    (fun c hc => (hbit c (by omega)).trans (h.reserved c hc)) ?_
  exact h.owns.congr (fun _ => rfl) (used_congr hbit) fun _ => Iff.rfl

theorem Ok.setLow (h : V.Ok sb X) {b : Nat} (x : Block) (hb : b < sb.bmapstart) :
    (V.setBlk b x).Ok sb X := by
  have hbit : ∀ c, (V.setBlk b x).bit sb c = V.bit sb c := fun c =>
    bit_setBlk_ne x (by have : sb.bmapstart ≤ sb.bblock c := bmapstart_le_bblock c; omega)
  have hlow : b < sb.datastart := by
    unfold Superblock.datastart
    omega
  refine h.of_ref (fun y => ref_setBlk x (fun i => h.not_ref_of_lt hlow i _) y) rfl
    (fun c hc => (hbit c).trans (h.reserved c hc)) ?_
  exact h.owns.congr (fun _ => rfl) (used_congr fun c _ => hbit c) fun _ => Iff.rfl

/-! ## Allocating and freeing -/

theorem Ok.not_ref_of_free (h : V.Ok sb X) {r : Nat} (hf : V.bit sb r = false) (i p : Nat) :
    V.ref sb (i, p) ≠ some r := by
  intro hr
  have := (h.ref_data hr).2.2
  simp [hf] at this

theorem Ok.free_data (h : V.Ok sb X) {r : Nat} (hf : V.bit sb r = false) : sb.datastart ≤ r := by
  by_contra hlt
  have := h.reserved r (by omega)
  simp [hf] at this

theorem bit_take {r c : Nat} (hr : sb.datastart ≤ r) (hc : c < sb.size) :
    (V.take sb r).bit sb c = (decide (c = r) || V.bit sb c) := by
  have hne : sb.bblock c ≠ r := by
    have := bblock_lt hc
    omega
  unfold take
  rw [bit_setBlk_ne _ hne, bit_setBit]

theorem ref_take (h : V.Ok sb X) {r : Nat} (hr : r < sb.size) (hf : V.bit sb r = false)
    (x : Nat × Nat) : (V.take sb r).ref sb x = V.ref sb x := by
  have hmark := ref_setBlk (V := V) (setBit (V.blk (sb.bblock r)) (r % BPB))
    fun i => h.not_ref_of_lt (bblock_lt hr) i NDIRECT
  unfold take
  rw [ref_setBlk, hmark]
  intro i
  rw [hmark]
  exact h.not_ref_of_free hf i _

theorem take_blk_ref (h : V.Ok sb X) {r : Nat} (hr : r < sb.size) (hf : V.bit sb r = false)
    {i p b : Nat} (hb : V.ref sb (i, p) = some b) : (V.take sb r).blk b = V.blk b := by
  have hbr : b ≠ r := by
    rintro rfl
    exact h.not_ref_of_free hf i p hb
  have hbm : b ≠ sb.bblock r := by
    have := (h.ref_data hb).1
    have := bblock_lt hr
    omega
  unfold take
  rw [setBlk_blk_ne _ hbr, setBlk_blk_ne _ hbm]

@[simp] theorem take_blk_self (r : Nat) : (V.take sb r).blk r = .zero := setBlk_blk_self r _

theorem Ok.take (h : V.Ok sb X) {r : Nat} (hr : r < sb.size)
    (hf : V.bit sb r = false) : (V.take sb r).Ok sb (insert r X) := by
  have hlow := h.free_data hf
  refine h.of_ref (fun x => ref_take h hr hf x) rfl (fun c hc => ?_) ?_
  · rw [bit_take hlow (by omega), h.reserved c hc, Bool.or_true]
  · refine (h.owns.alloc (b := r) fun hu => ?_).congr (fun _ => rfl) (fun c => ?_) fun _ => Iff.rfl
    · have := hu.2.2
      simp [hf] at this
    · rw [Set.mem_insert_iff]
      constructor
      · rintro ⟨h1, h2, h3⟩
        rw [bit_take hlow h2, Bool.or_eq_true, decide_eq_true_eq] at h3
        exact h3.imp id fun h3 => ⟨h1, h2, h3⟩
      · rintro (rfl | ⟨h1, h2, h3⟩)
        · exact ⟨hlow, hr, by rw [bit_take hlow hr, decide_eq_true rfl, Bool.true_or]⟩
        · exact ⟨h1, h2, by rw [bit_take hlow h2, h3, Bool.or_true]⟩

theorem free_take (h : V.Ok sb X) {r : Nat} (hr : r < sb.size) (hf : V.bit sb r = false) :
    (V.take sb r).free sb + 1 = V.free sb := by
  have hlow := h.free_data hf
  have hmem : r ∈ (Finset.Ico sb.datastart sb.size).filter fun b => V.bit sb b = false :=
    Finset.mem_filter.2 ⟨Finset.mem_Ico.2 ⟨hlow, hr⟩, hf⟩
  have herase : ((Finset.Ico sb.datastart sb.size).filter fun b => (V.take sb r).bit sb b = false) =
      ((Finset.Ico sb.datastart sb.size).filter fun b => V.bit sb b = false).erase r := by
    ext c
    rw [Finset.mem_erase, Finset.mem_filter, Finset.mem_filter, Finset.mem_Ico]
    constructor
    · rintro ⟨hc, hbit⟩
      rw [bit_take hlow hc.2, Bool.or_eq_false_iff, decide_eq_false_iff_not] at hbit
      exact ⟨hbit.1, hc, hbit.2⟩
    · rintro ⟨hne, hc, hbit⟩
      exact ⟨hc, by rw [bit_take hlow hc.2, hbit, decide_eq_false hne, Bool.or_false]⟩
  unfold free
  rw [herase, Finset.card_erase_add_one hmem]

theorem free_congr (h : ∀ c, c < sb.size → V'.bit sb c = V.bit sb c) : V'.free sb = V.free sb := by
  unfold free
  congr 1
  refine Finset.filter_congr fun c hc => ?_
  rw [h c (Finset.mem_Ico.1 hc).2]

theorem exists_free (h : 0 < V.free sb) : ∃ r, r < sb.size ∧ V.bit sb r = false := by
  obtain ⟨r, hr⟩ := Finset.card_pos.1 h
  rw [Finset.mem_filter, Finset.mem_Ico] at hr
  exact ⟨r, hr.1.2, hr.2⟩

/-! ## Attaching a block to a place -/

theorem Ok.attach (h : V.Ok sb X) (hd : sb.datastart ≤ sb.size) {i p r : Nat} (hr : r ∈ X)
    (hn : V.ref sb (i, p) = none) (hself : V'.ref sb (i, p) = some r)
    (hne : ∀ x, x ≠ (i, p) → V'.ref sb x = V.ref sb x)
    (hbit : ∀ c, c < sb.size → V'.bit sb c = V.bit sb c)
    (hall : ∀ j, V'.Allocated sb j → V.Allocated sb j)
    (hsize : ∀ j, (V'.ino j).size = (V.ino j).size) : V'.Ok sb (X \ {r}) where
  owns := (h.owns.attach hr hn hself hne).congr (fun _ => rfl) (used_congr hbit) fun _ => Iff.rfl
  reserved c hc := (hbit c (by omega)).trans (h.reserved c hc)
  noHole j ha k hk := by
    rw [hsize] at hk
    obtain ⟨hlt, href⟩ := h.noHole j (hall j ha) k hk
    refine ⟨hlt, ?_⟩
    by_cases hx : (j, place k) = (i, p)
    · rw [hx, hself]
      exact Option.some_ne_none r
    · rwa [hne _ hx]

theorem data_attach {i p r : Nat} (hn : V.ref sb (i, p) = none)
    (hself : V'.ref sb (i, p) = some r) (hne : ∀ x, x ≠ (i, p) → V'.ref sb x = V.ref sb x)
    (hz : V'.blk r = .zero) (hblk : ∀ j k b, V.ref sb (j, place k) = some b → V'.blk b = V.blk b)
    (j k : Nat) : V'.data sb j k = V.data sb j k := by
  by_cases hx : (j, place k) = (i, p)
  · have hj : V.ref sb (j, place k) = none := hx ▸ hn
    have hj' : V'.ref sb (j, place k) = some r := hx ▸ hself
    rw [data_of_none hj, data_of_ref hj', hz]
  · exact data_congr (hne _ hx) fun b hb => hblk j k b hb

theorem setIno_ino_self (i : Nat) (d : Dinode) : (V.setIno i d).ino i = d := Function.update_self ..

theorem setIno_ino_ne {i j : Nat} (d : Dinode) (h : j ≠ i) : (V.setIno i d).ino j = V.ino j :=
  Function.update_of_ne h _ _

@[simp] theorem setIno_blk (i : Nat) (d : Dinode) : (V.setIno i d).blk = V.blk := rfl

theorem ref_setIno_ne {i j : Nat} (d : Dinode) (h : j ≠ i) (p : Nat) :
    (V.setIno i d).ref sb (j, p) = V.ref sb (j, p) := by
  have hj := setIno_ino_ne (V := V) d h
  exact ref_congr (congrArg Dinode.type hj) (congrArg Dinode.addrs hj) (fun _ _ => rfl) p

theorem bit_setIno (i : Nat) (d : Dinode) (c : Nat) : (V.setIno i d).bit sb c = V.bit sb c := rfl

theorem allocated_setIno {i : Nat} {d : Dinode} (ht : d.type = (V.ino i).type) (j : Nat) :
    (V.setIno i d).Allocated sb j ↔ V.Allocated sb j := by
  unfold Allocated
  by_cases hj : j = i
  · rw [hj, setIno_ino_self, ht]
  · rw [setIno_ino_ne d hj]

theorem size_setIno {i : Nat} {d : Dinode} (hs : d.size = (V.ino i).size) (j : Nat) :
    ((V.setIno i d).ino j).size = (V.ino j).size := by
  by_cases hj : j = i
  · rw [hj, setIno_ino_self, hs]
  · rw [setIno_ino_ne d hj]

theorem ref_setAddr_self {i p r : Nat} (hw : sb.WF) (ha : V.Allocated sb i) (hp : p ≤ NDIRECT)
    (hr : sb.datastart ≤ r) (hsize : r < sb.size) :
    (V.setIno i ((V.ino i).setAddr p (BitVec.ofNat 32 r))).ref sb (i, p) = some r := by
  have hnat := size_toNat hw hsize
  have haddr : ((V.ino i).setAddr p (BitVec.ofNat 32 r)).addr p = BitVec.ofNat 32 r := by
    rw [addr_setAddr _ hp, if_pos rfl]
  refine ref_eq_some.2 ⟨(allocated_setIno (by rfl) i).2 ha, ?_, ?_, ?_⟩
  · simp only [NPLACE]
    omega
  · rw [setIno_ino_self, addrAt_direct hp, haddr]
    intro hz
    have := datastart_pos sb
    rw [hz] at hnat
    simp at hnat
    omega
  · rw [setIno_ino_self, addrAt_direct hp, haddr, hnat]

theorem ref_setAddr_ne {i p r : Nat} (hp : p ≤ NDIRECT) (hn : V.ref sb (i, p) = none)
    (ha : V.Allocated sb i) (hw : sb.WF) (hsize : r < sb.size) (hz : V.blk r = .zero)
    {x : Nat × Nat} (hx : x ≠ (i, p)) :
    (V.setIno i ((V.ino i).setAddr p (BitVec.ofNat 32 r))).ref sb x = V.ref sb x := by
  obtain ⟨j, q⟩ := x
  by_cases hj : j = i
  · subst hj
    have hqp : q ≠ p := fun he => hx (by rw [he])
    by_cases hq : q < NPLACE
    · have ha' : (V.setIno j ((V.ino j).setAddr p (BitVec.ofNat 32 r))).Allocated sb j :=
        (allocated_setIno (by rfl) j).2 ha
      have hat : (V.setIno j ((V.ino j).setAddr p (BitVec.ofNat 32 r))).addrAt
          ((V.ino j).setAddr p (BitVec.ofNat 32 r)) q = V.addrAt (V.ino j) q := by
        by_cases hqd : q ≤ NDIRECT
        · rw [addrAt_direct hqd, addrAt_direct hqd, addr_setAddr _ hp, if_neg hqp]
        · by_cases hpi : p = NDIRECT
          · -- the new indirect block has no entries yet
            subst hpi
            have hold : (V.ino j).addr NDIRECT = 0 := by
              rw [← addrAt_direct le_rfl]
              exact (ref_eq_none ha (by decide)).1 hn
            rw [addrAt_entry_none (by omega) hold]
            unfold addrAt
            rw [if_neg hqd, addr_setAddr _ hp, if_pos rfl, setIno_blk, size_toNat hw hsize, hz,
              Blk.word_zero, ite_self]
          · unfold addrAt
            rw [if_neg hqd, if_neg hqd, addr_setAddr _ hp, if_neg (Ne.symm hpi)]
            rfl
      cases hold : V.ref sb (j, q) with
      | none =>
        rw [ref_eq_none ha' hq, setIno_ino_self, hat]
        exact (ref_eq_none ha hq).1 hold
      | some b =>
        obtain ⟨_, _, hne, hb⟩ := ref_eq_some.1 hold
        exact ref_eq_some.2 ⟨ha', hq, by rwa [setIno_ino_self, hat], by rwa [setIno_ino_self, hat]⟩
    · unfold ref
      rw [if_neg fun hc => hq hc.2.1, if_neg fun hc => hq hc.2.1]
  · exact ref_setIno_ne _ hj q

theorem ref_setEntry_self {i j r ind : Nat} (hw : sb.WF)
    (hind : V.ref sb (i, NDIRECT) = some ind) (hj : j < NINDIRECT) (hr : sb.datastart ≤ r)
    (hsize : r < sb.size) :
    (V.setBlk ind ((V.blk ind).setWord (4 * j) (BitVec.ofNat 32 r))).ref sb (i, NDIRECT + 1 + j) =
      some r := by
  have hnat := size_toNat hw hsize
  obtain ⟨ha, _, hne, hb⟩ := ref_eq_some.1 hind
  rw [addrAt_direct le_rfl] at hne hb
  have hword : (V.setBlk ind ((V.blk ind).setWord (4 * j) (BitVec.ofNat 32 r))).addrAt (V.ino i)
      (NDIRECT + 1 + j) = BitVec.ofNat 32 r := by
    rw [addrAt_entry hne, hb, setBlk_blk_self, Blk.word_setWord_self]
    simp only [NINDIRECT, BSIZE] at *
    omega
  refine ref_eq_some.2 ⟨ha, ?_, ?_, ?_⟩
  · simp only [NPLACE]
    omega
  · rw [setBlk_ino, hword]
    intro hz
    have := datastart_pos sb
    rw [hz] at hnat
    simp at hnat
    omega
  · rw [setBlk_ino, hword, hnat]

theorem ref_setEntry_ne {i j r ind : Nat} (h : V.Ok sb X)
    (hind : V.ref sb (i, NDIRECT) = some ind) {x : Nat × Nat} (hx : x ≠ (i, NDIRECT + 1 + j)) :
    (V.setBlk ind ((V.blk ind).setWord (4 * j) (BitVec.ofNat 32 r))).ref sb x = V.ref sb x := by
  obtain ⟨m, q⟩ := x
  have ht : ((V.setBlk ind ((V.blk ind).setWord (4 * j) (BitVec.ofNat 32 r))).ino m).type =
    (V.ino m).type := rfl
  by_cases hm : m = i
  · subst hm
    obtain ⟨ha, _, hne, hb⟩ := ref_eq_some.1 hind
    rw [addrAt_direct le_rfl] at hne hb
    have hat : (V.setBlk ind ((V.blk ind).setWord (4 * j) (BitVec.ofNat 32 r))).addrAt (V.ino m) q =
        V.addrAt (V.ino m) q := by
      by_cases hq : q ≤ NDIRECT
      · rw [addrAt_direct hq, addrAt_direct hq]
      · have hqj : q ≠ NDIRECT + 1 + j := fun he => hx (by rw [he])
        obtain ⟨l, rfl⟩ : ∃ l, q = NDIRECT + 1 + l := ⟨q - (NDIRECT + 1), by omega⟩
        rw [addrAt_entry hne, addrAt_entry hne, hb, setBlk_blk_self, Blk.word_setWord_ne]
        omega
    unfold ref
    simp only [setBlk_ino, hat]
    rfl
  · refine ref_congr ht rfl (fun c hc => setBlk_blk_ne _ ?_) q
    rintro rfl
    have := h.owns.inj _ _ _ hc hind
    simp only [Prod.mk.injEq] at this
    exact hm this.1

structure Filled (sb : Superblock) (V V' : Vol) (i p r : Nat) : Prop where
  ok : V'.Ok sb ∅
  self : V'.ref sb (i, p) = some r
  ne : ∀ x, x ≠ (i, p) → V'.ref sb x = V.ref sb x
  data : ∀ j k, V'.data sb j k = V.data sb j k
  free : V'.free sb + 1 = V.free sb

/-- A free block is taken and attached. -/
theorem Ok.fill (h : V.Ok sb ∅) (hd : sb.datastart ≤ sb.size) {i p r : Nat} (hr : r < sb.size)
    (hf : V.bit sb r = false) (hn : V.ref sb (i, p) = none) (hself : V'.ref sb (i, p) = some r)
    (hne : ∀ x, x ≠ (i, p) → V'.ref sb x = (V.take sb r).ref sb x)
    (hbit : ∀ c, c < sb.size → V'.bit sb c = (V.take sb r).bit sb c)
    (hall : ∀ j, V'.Allocated sb j → V.Allocated sb j)
    (hsize : ∀ j, (V'.ino j).size = (V.ino j).size) (hz : V'.blk r = .zero)
    (hblk : ∀ j k b, V.ref sb (j, place k) = some b → V'.blk b = (V.take sb r).blk b) :
    Filled sb V V' i p r where
  ok := by
    have hn' : (V.take sb r).ref sb (i, p) = none := (ref_take h hr hf _).trans hn
    have := (h.take hr hf).attach hd (Set.mem_insert r ∅) hn' hself hne hbit hall hsize
    rwa [Set.insert_sdiff_of_mem _ (Set.mem_singleton r), Set.empty_sdiff] at this
  self := hself
  ne x hx := (hne x hx).trans (ref_take h hr hf x)
  data j k := by
    refine data_attach hn hself (fun x hx => (hne x hx).trans (ref_take h hr hf x)) hz
      (fun j k b hb => ?_) j k
    rw [hblk j k b hb, take_blk_ref h hr hf hb]
  free := by
    rw [free_congr hbit, free_take h hr hf]

theorem Ok.fillDirect (h : V.Ok sb ∅) (hw : sb.WF) {i p r : Nat} (hr : r < sb.size)
    (hf : V.bit sb r = false) (ha : V.Allocated sb i) (hp : p ≤ NDIRECT)
    (hn : V.ref sb (i, p) = none) :
    Filled sb V ((V.take sb r).setIno i ((V.ino i).setAddr p (BitVec.ofNat 32 r))) i p r := by
  have hn' : (V.take sb r).ref sb (i, p) = none := (ref_take h hr hf _).trans hn
  have ha' : (V.take sb r).Allocated sb i := ha
  have hz : (V.take sb r).blk r = .zero := take_blk_self r
  exact h.fill hw.data_le hr hf hn (ref_setAddr_self hw ha' hp (h.free_data hf) hr)
    (fun x hx => ref_setAddr_ne hp hn' ha' hw hr hz hx) (fun _ _ => rfl)
    (fun j hj => (allocated_setIno (V := V.take sb r) (by rfl) j).1 hj)
    (fun j => size_setIno (V := V.take sb r) (by rfl) j) hz fun _ _ _ _ => rfl

theorem Ok.fillEntry (h : V.Ok sb ∅) (hw : sb.WF) {i j r ind : Nat} (hr : r < sb.size)
    (hf : V.bit sb r = false) (hind : V.ref sb (i, NDIRECT) = some ind) (hj : j < NINDIRECT)
    (hn : V.ref sb (i, NDIRECT + 1 + j) = none) :
    Filled sb V ((V.take sb r).setBlk ind (((V.take sb r).blk ind).setWord (4 * j)
      (BitVec.ofNat 32 r))) i (NDIRECT + 1 + j) r := by
  have hind' : (V.take sb r).ref sb (i, NDIRECT) = some ind := (ref_take h hr hf _).trans hind
  have hrind : r ≠ ind := by
    rintro rfl
    exact h.not_ref_of_free hf i _ hind
  have hlow := (h.ref_data hind).1
  refine h.fill hw.data_le hr hf hn (ref_setEntry_self hw hind' hj (h.free_data hf) hr)
    (fun x hx => ref_setEntry_ne (h.take hr hf) hind' hx) (fun c hc => ?_) (fun _ hj => hj)
    (fun _ => rfl) ?_ fun m k b hb => ?_
  · exact bit_setBlk_ne _ (by have := bblock_lt hc; omega)
  · rw [setBlk_blk_ne _ hrind, take_blk_self]
  · refine setBlk_blk_ne _ ?_
    rintro rfl
    have := h.owns.inj _ _ _ hb hind
    simp only [Prod.mk.injEq] at this
    exact place_ne_indirect k this.2

/-! ## Writing a block of a file -/

theorem Ok.ne_indirect (h : V.Ok sb X) {i k b : Nat} (hb : V.ref sb (i, place k) = some b) (j : Nat) :
    V.ref sb (j, NDIRECT) ≠ some b := by
  intro hj
  have := h.owns.inj _ _ _ hj hb
  simp only [Prod.mk.injEq] at this
  exact place_ne_indirect k this.2.symm

theorem Ok.write (h : V.Ok sb X) (hd : sb.datastart ≤ sb.size) {i k b : Nat} (x : Block)
    (hb : V.ref sb (i, place k) = some b) : (V.setBlk b x).Ok sb X :=
  h.setData x (h.ref_data hb).1 hd (h.ne_indirect hb)

theorem ref_write (h : V.Ok sb X) {i k b : Nat} (x : Block) (hb : V.ref sb (i, place k) = some b)
    (y : Nat × Nat) : (V.setBlk b x).ref sb y = V.ref sb y := ref_setBlk x (h.ne_indirect hb) y

theorem data_write (h : V.Ok sb X) {i k b : Nat} (x : Block) (hb : V.ref sb (i, place k) = some b)
    (j m : Nat) : (V.setBlk b x).data sb j m = if j = i ∧ m = k then x else V.data sb j m := by
  by_cases hjm : j = i ∧ m = k
  · rw [if_pos hjm, hjm.1, hjm.2, data_of_ref ((ref_write h x hb _).trans hb), setBlk_blk_self]
  · rw [if_neg hjm]
    refine data_congr (ref_write h x hb _) fun c hc => setBlk_blk_ne x ?_
    rintro rfl
    have := h.owns.inj _ _ _ hc hb
    simp only [Prod.mk.injEq] at this
    exact hjm ⟨this.1, place_inj this.2⟩

/-! ## Changing an inode -/

theorem ref_setIno {i : Nat} {d : Dinode} (ht : d.type = (V.ino i).type)
    (ha : d.addrs = (V.ino i).addrs) (x : Nat × Nat) : (V.setIno i d).ref sb x = V.ref sb x := by
  obtain ⟨j, p⟩ := x
  by_cases hj : j = i
  · subst hj
    have ht' : ((V.setIno j d).ino j).type = (V.ino j).type := by rw [setIno_ino_self, ht]
    refine ref_congr ht' ?_ (fun _ _ => rfl) p
    rw [setIno_ino_self, ha]
  · exact ref_setIno_ne d hj p

theorem data_setIno {i : Nat} {d : Dinode} (ht : d.type = (V.ino i).type)
    (ha : d.addrs = (V.ino i).addrs) (j k : Nat) : (V.setIno i d).data sb j k = V.data sb j k :=
  data_congr (ref_setIno ht ha _) fun _ _ => rfl

theorem Ok.setIno (h : V.Ok sb X) {i : Nat} {d : Dinode} (ht : d.type = (V.ino i).type)
    (ha : d.addrs = (V.ino i).addrs) (hsize : V.Allocated sb i → ∀ k, k * BSIZE < d.size.toNat →
      k < MAXFILE ∧ V.ref sb (i, place k) ≠ none) : (V.setIno i d).Ok sb X where
  owns := h.owns.congr (fun x => ref_setIno ht ha x) (fun _ => Iff.rfl) fun _ => Iff.rfl
  reserved := h.reserved
  noHole j hj k hk := by
    rw [ref_setIno ht ha]
    have hj' := (allocated_setIno ht j).1 hj
    by_cases hji : j = i
    · subst hji
      rw [setIno_ino_self] at hk
      exact hsize hj' k hk
    · rw [setIno_ino_ne d hji] at hk
      exact h.noHole j hj' k hk

/-- An inode without places, and without a size or a type, takes the place of another: the blocks
that one had are pending. -/
theorem Ok.detach (h : V.Ok sb X) {i : Nat} {d : Dinode}
    (hnone : ∀ p, (V.setIno i d).ref sb (i, p) = none) (hd : d.type = 0 ∨ d.size = 0) :
    (V.setIno i d).Ok sb (X ∪ {b | ∃ p, V.ref sb (i, p) = some b}) where
  owns := by
    refine (h.owns.detach (S := {x | x.1 = i}) (fun x hx => ?_) fun x hx => ?_).congr
      (fun _ => rfl) (fun _ => Iff.rfl) fun b => ?_
    · obtain ⟨j, p⟩ := x
      have : j = i := hx
      rw [this]
      exact hnone p
    · exact ref_setIno_ne d hx x.2
    · show _ ∨ _ ↔ _ ∨ _
      refine or_congr Iff.rfl ⟨?_, ?_⟩
      · rintro ⟨p, hp⟩
        exact ⟨(i, p), rfl, hp⟩
      · rintro ⟨⟨j, p⟩, hj, hp⟩
        have : j = i := hj
        exact ⟨p, this ▸ hp⟩
  reserved := h.reserved
  noHole j hj k hk := by
    by_cases hji : j = i
    · subst hji
      rw [setIno_ino_self] at hk
      rcases hd with hd | hd
      · exact absurd hd (by simpa only [setIno_ino_self] using hj.2)
      · simp [hd] at hk
    · have hino := setIno_ino_ne (V := V) d hji
      unfold Allocated at hj
      rw [hino] at hj hk
      rw [ref_setIno_ne d hji]
      exact h.noHole j hj k hk

theorem data_detach {i j : Nat} (d : Dinode) (hj : j ≠ i) (k : Nat) :
    (V.setIno i d).data sb j k = V.data sb j k :=
  data_congr (ref_setIno_ne d hj _) fun _ _ => rfl

end Vol

end Xv6.Fs
