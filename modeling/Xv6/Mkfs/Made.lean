import Xv6.Mkfs.Append

/-!
# The image that `mkfs` writes

`Made done s` is the state of the image after the arguments `done`: every file has its bytes, the
root directory has its entries, and the blocks handed out so far are those of these files.  One
round of `main` keeps it (`wp_addFile`), so it holds when the loop ends.

The size of the root directory is rounded up at the end whatever blocks there are: where its
entries fill their blocks, the last block of the new size is missing.
-/

namespace Xv6.Mkfs

open Bytes Conc Fs Prog

variable {V V' : Vol} {s s' : Image} {i inum : Nat} {E : Option Exit → Prop}

def bytesOf (V : Vol) (i : Nat) : List Byte :=
  (List.range (V.ino i).size.toNat).map (fileByte (V.data sb i))

theorem bytesOf_congr (hi : V'.ino i = V.ino i) (hd : ∀ k, V'.data sb i k = V.data sb i k) :
    bytesOf V' i = bytesOf V i := by
  unfold bytesOf
  rw [hi, funext hd]

theorem Appended.bytes_ne {bs : List Byte} (h : Appended inum bs s V s' V') (hi : i ≠ inum) :
    bytesOf V' i = bytesOf V i := by
  refine bytesOf_congr (h.other i hi) fun k => ?_
  rw [h.data, patch_ne hi]

theorem Appended.bytes {bs : List Byte} (h : Appended inum bs s V s' V')
    (hfit : Fit s V inum bs.length) : bytesOf V' inum = bytesOf V inum ++ bs := by
  unfold bytesOf
  rw [h.size hfit, h.data, List.range_add, List.map_append]
  congr 1
  · refine List.map_congr_left fun k hk => ?_
    rw [List.mem_range] at hk
    rw [fileByte_patch, if_neg (by omega)]
  · apply List.ext_getElem
    · simp
    · intro k h1 h2
      simp only [List.getElem_map, List.getElem_range]
      rw [fileByte_patch, if_pos (by omega), Nat.add_sub_cancel_left]
      simp [h2]

/-! ## Reading and writing inodes -/

theorem iblock_lt_bmapstart (hnum : inum < sb.ninodes) : sb.iblock inum < sb.bmapstart :=
  iblock_lt mkfsSb_wf hnum

theorem iblock_lt_len (h : s.len = FSSIZE) (hnum : inum < sb.ninodes) : sb.iblock inum < s.len := by
  have := iblock_lt_bmapstart hnum
  have : sb.bmapstart < FSSIZE := by decide
  omega

theorem wp_rinode {Q : Dinode → Image → Prop} (hlen : s.len = FSSIZE) (hnum : inum < sb.ninodes)
    (hQ : Q (s.ino inum) s) : wp E (rinode inum) Q s := by
  unfold rinode
  rw [wp_bind]
  refine wp_rsect (iblock_lt_len hlen hnum) ?_
  unfold Image.ino at hQ
  rwa [if_pos hnum] at hQ

/-- The image after `winode`. -/
def written (s : Image) (inum : Nat) (d : Dinode) : Image :=
  { s with
    sect := Function.update s.sect (sb.iblock inum)
      (putDinode (s.sect (sb.iblock inum)) (inum % IPB) d)
    len := max s.len (sb.iblock inum + 1) }

theorem wp_winode {d : Dinode} {Q : Unit → Image → Prop} (hlen : s.len = FSSIZE)
    (hnum : inum < sb.ninodes) (hQ : Q () (written s inum d)) : wp E (winode inum d) Q s := by
  unfold winode
  rw [wp_bind]
  exact wp_rsect (iblock_lt_len hlen hnum) (wp_wsect hQ)

theorem ino_written_ne (d : Dinode) {j : Nat} (hj : j ≠ inum) : (written s inum d).ino j = s.ino j := by
  unfold Image.ino
  by_cases hlt : j < sb.ninodes
  · rw [if_pos hlt, if_pos hlt]
    show getDinode (Function.update s.sect (sb.iblock inum) _ (sb.iblock j)) _ = _
    by_cases hb : sb.iblock j = sb.iblock inum
    · have hmod := mod_ne_of_iblock hb hj
      rw [hb, Function.update_self, getDinode_putDinode_ne _ _ (Nat.mod_lt _ (by decide)) hmod]
    · rw [Function.update_of_ne hb]
  · rw [if_neg hlt, if_neg hlt]

theorem ino_written (hnum : inum < sb.ninodes) (d : Dinode) (j : Nat) :
    (written s inum d).ino j = Function.update s.ino inum d j := by
  by_cases hj : j = inum
  · rw [hj, Function.update_self, Image.ino, if_pos hnum]
    show getDinode (Function.update s.sect (sb.iblock inum) _ (sb.iblock inum)) _ = d
    rw [Function.update_self, getDinode_putDinode _ _ (Nat.mod_lt _ (by decide))]
  · rw [Function.update_of_ne hj, ino_written_ne d hj]

theorem vol_written (hnum : inum < sb.ninodes) (d : Dinode) :
    (written s inum d).vol = (s.vol.setIno inum d).setBlk (sb.iblock inum)
      (putDinode (s.sect (sb.iblock inum)) (inum % IPB) d) := by
  have hne : sb.iblock inum ≠ sb.bmapstart := by
    have := iblock_lt_bmapstart hnum
    omega
  show Vol.mk (written s inum d).ino (Function.update (Function.update _ _ _) _ _) =
    Vol.mk (Function.update s.ino inum d) (Function.update (Function.update _ _ _) _ _)
  rw [funext (ino_written hnum d), Function.update_comm hne]
  rfl

theorem iblock_lt_datastart (hnum : inum < sb.ninodes) : sb.iblock inum < sb.datastart :=
  lt_of_lt_of_le (iblock_lt_bmapstart hnum) (Nat.le_add_right _ _)

/-- Whatever is written before the bitmap, the blocks of the files stay as they are. -/
theorem Good.setLow (h : Good s V) {b : Nat} (hb : b < sb.bmapstart) (x : Block) (k : Nat) :
    Good ⟨Function.update s.sect b x, max s.len (b + 1), k, s.freeblock⟩ (V.setBlk b x) := by
  have hlow : b < sb.datastart := lt_of_lt_of_le hb (Nat.le_add_right _ _)
  have hmap : sb.bmapstart < FSSIZE := by decide
  have href : ∀ y, (V.setBlk b x).ref sb y = V.ref sb y :=
    Vol.ref_setBlk _ fun i => h.ok.not_ref_of_lt hlow i _
  refine ⟨⟨?_, h.ok.setLow _ hb, ?_, h.used, fun c hc hlt => ?_⟩, fun j hj => ?_⟩
  · show Function.update V.blk b x = Function.update (Function.update s.sect b x) _ _
    rw [h.blk, Image.blk, Function.update_comm hb.ne]
  · have := h.len
    show max s.len (b + 1) = FSSIZE
    omega
  · have hres := h.ok.reserved b hlow
    rw [h.bit (by omega), decide_eq_true_eq] at hres
    have hfree : s.freeblock ≤ c := hc
    show Function.update s.sect b x c = .zero
    rw [Function.update_of_ne (by omega)]
    exact h.zero c hc hlt
  · have hplaces : places (V.setBlk b x) j = places V j := by
      unfold places
      simp only [href]
    rw [hplaces]
    exact h.exact j hj

/-- The inode in memory goes to the disk. -/
theorem Good.written (h : Good s V) (hnum : inum < sb.ninodes)
    (hdisk : ∀ j, j ≠ inum → V.ino j = s.ino j) :
    Good (written s inum (V.ino inum)) (written s inum (V.ino inum)).vol ∧
      (Mkfs.written s inum (V.ino inum)).ino = V.ino ∧
      ∀ j k, (Mkfs.written s inum (V.ino inum)).vol.data sb j k = V.data sb j k := by
  have hino : Function.update s.ino inum (V.ino inum) = V.ino := by
    funext j
    by_cases hj : j = inum
    · rw [hj, Function.update_self]
    · rw [Function.update_of_ne hj, hdisk j hj]
  have hset : s.vol.setIno inum (V.ino inum) = V := by
    show Vol.mk (Function.update s.ino inum (V.ino inum)) s.blk = V
    rw [hino, ← h.blk]
  have hvol := vol_written (s := s) hnum (V.ino inum)
  rw [hset] at hvol
  refine ⟨?_, ?_, fun j k => ?_⟩
  · rw [hvol]
    exact h.setLow (iblock_lt_bmapstart hnum) _ _
  · rw [funext (ino_written hnum (V.ino inum)), hino]
  · rw [hvol, Vol.data_setBlk _ fun i p => h.ok.not_ref_of_lt (iblock_lt_datastart hnum) i p]

/-! ## `iappend` -/

theorem bmap_written (hnum : inum < sb.ninodes) (d : Dinode) : (written s inum d).bmap = s.bmap :=
  bmap_update (Nat.ne_of_lt (iblock_lt_bmapstart hnum)) _ _ _ _

theorem wp_iappend {bs : List Byte} (h : Good s s.vol) (ha : s.vol.Allocated sb inum)
    (hmax : (s.vol.ino inum).size.toNat ≤ MAXFILE * BSIZE)
    (hE : ¬Fit s s.vol inum bs.length → ∀ x, E x) :
    wp E (iappend inum bs) (fun _ s' => Fit s s.vol inum bs.length ∧
      Appended inum bs s s.vol s' s'.vol) s := by
  have hsize : BitVec.ofNat 32 (s.ino inum).size.toNat = (s.ino inum).size := by
    rw [BitVec.ofNat_toNat, BitVec.setWidth_eq]
  have hmem : InMemory s.vol inum (s.ino inum) (s.ino inum).size.toNat := by
    unfold InMemory
    rw [hsize]
    rfl
  unfold iappend
  rw [wp_bind]
  refine wp_rinode h.len ha.1 ?_
  rw [wp_bind]
  refine wp_mono (wp_iappendFrom bs.length le_rfl h ha hmem rfl hmax hE) ?_
  rintro ⟨din, off⟩ s₁ ⟨hfit, hino, V₁, happ, hm⟩
  have hd : { din with size := BitVec.ofNat 32 off } = V₁.ino inum := hm.symm
  obtain ⟨hgood, hino', hdata⟩ := happ.good.written ha.1 fun j hj => by
    rw [happ.other j hj, hino]
    rfl
  refine wp_winode happ.good.len ha.1 ⟨hfit, ?_⟩
  rw [hd]
  refine ⟨hgood, happ.freeinode, (bmap_written ha.1 _).trans happ.bmap, fun j hj => ?_, ?_, ?_, happ.count⟩
  · show (written s₁ inum (V₁.ino inum)).ino j = _
    rw [hino', happ.other j hj]
  · have hself : (written s₁ inum (V₁.ino inum)).vol.ino inum = V₁.ino inum := congrFun hino' inum
    rw [hself]
    exact happ.fields
  · rw [← happ.data]
    funext j k
    exact hdata j k

/-- The loop over the pieces in which the bytes of a file come. -/
theorem wp_iappend_chunks {cs : List (List Byte)} (h : Good s s.vol) (ha : s.vol.Allocated sb inum)
    (hmax : (s.vol.ino inum).size.toNat ≤ MAXFILE * BSIZE)
    (hE : ¬Fit s s.vol inum cs.flatten.length → ∀ x, E x) :
    wp E (cs.forM fun c => iappend inum c) (fun _ s' => Fit s s.vol inum cs.flatten.length ∧
      Appended inum cs.flatten s s.vol s' s'.vol) s := by
  induction cs generalizing s with
  | nil => exact ⟨Fit.zero h hmax, Appended.nil h⟩
  | cons c cs ih =>
    rw [List.flatten_cons, List.length_append] at hE ⊢
    show wp E (iappend inum c >>= fun _ => cs.forM fun c => iappend inum c) _ s
    rw [wp_bind]
    refine wp_mono (wp_iappend h ha hmax fun hno => hE fun hfit => hno hfit.left) ?_
    rintro - s₁ ⟨hfit, happ⟩
    have htotal := happ.fit_iff (n := cs.flatten.length) hfit
    refine wp_mono (ih happ.good (happ.allocated ha) (by rw [happ.size hfit]; exact hfit.1)
      fun hno => hE fun hall => hno (htotal.2 hall)) ?_
    rintro - s₂ ⟨hfit₂, happ₂⟩
    exact ⟨htotal.1 hfit₂, happ.trans hfit happ₂⟩

/-! ## `ialloc` -/

/-- The inode that `ialloc` writes. -/
def fresh (type : Short) : Dinode :=
  { Dinode.zero with type := type, nlink := 1, size := 0, mode := 7 }

theorem needs_zero : needs 0 = ∅ := by
  refine Finset.eq_empty_of_forall_notMem fun p hp => ?_
  exact absurd (mem_needs.1 hp).2 (Nat.not_lt_zero _)

theorem addrAt_fresh (V : Vol) (type : Short) (p : Nat) : V.addrAt (fresh type) p = 0 := by
  have haddr : ∀ q, (fresh type).addr q = 0 := by
    intro q
    simp [fresh, Dinode.addr, Dinode.zero]
  unfold Vol.addrAt
  rw [haddr, haddr, if_pos rfl, ite_self]

/-- The outcome of `ialloc`: an empty file. -/
structure Born (inum : Nat) (type : Short) (s s' : Image) : Prop where
  good : Good s' s'.vol
  ino : s'.ino = Function.update s.ino inum (fresh type)
  freeinode : s'.freeinode = s.freeinode + 1
  freeblock : s'.freeblock = s.freeblock
  bmap : s'.bmap = s.bmap
  bytes : ∀ j, j ≠ inum → bytesOf s'.vol j = bytesOf s.vol j

theorem wp_ialloc {type : Short} (h : Good s s.vol) (hnum : s.freeinode < sb.ninodes)
    (hfree : (s.ino s.freeinode).type = 0) :
    wp E (ialloc type) (fun inum s' => inum = s.freeinode ∧ Born inum type s s') s := by
  obtain ⟨V, hV⟩ : ∃ V, V = s.vol.setIno s.freeinode (fresh type) := ⟨_, rfl⟩
  have hself : V.ino s.freeinode = fresh type := by
    rw [hV, Vol.setIno_ino_self]
  have hne : ∀ j, j ≠ s.freeinode → V.ino j = s.ino j := fun j hj => by
    rw [hV, Vol.setIno_ino_ne _ hj]
    rfl
  have hnone : ∀ p, V.ref sb (s.freeinode, p) = none := by
    intro p
    refine if_neg fun hc => hc.2.2 ?_
    show V.addrAt (V.ino s.freeinode) p = 0
    rw [hself, addrAt_fresh]
  have hno : ¬ s.vol.Allocated sb s.freeinode := fun ha => ha.2 hfree
  have hok : V.Ok sb ∅ := by
    have hd := h.ok.detach (i := s.freeinode) (d := fresh type) (fun p => hV ▸ hnone p) (Or.inr rfl)
    have hempty : (∅ ∪ {b | ∃ p, s.vol.ref sb (s.freeinode, p) = some b} : Set Nat) = ∅ := by
      ext b
      simp [Vol.ref_of_not_allocated hno]
    rw [hempty, ← hV] at hd
    exact hd
  -- only the counter differs from the state before
  have hgood : Good { s with freeinode := s.freeinode + 1 } V := by
    refine ⟨⟨?_, hok, h.len, h.used, h.zero⟩, fun j hj => ?_⟩
    · rw [hV]
      rfl
    · by_cases hji : j = s.freeinode
      · rw [hji, hself]
        show _ = needs 0
        rw [needs_zero]
        refine Finset.eq_empty_of_forall_notMem fun p hp => ?_
        exact (mem_places.1 hp).2 (hnone p)
      · have hplaces : places V j = places s.vol j := by
          unfold places
          rw [hV]
          simp only [Vol.ref_setIno_ne _ hji]
        unfold Vol.Allocated at hj
        rw [hne j hji] at hj
        rw [hplaces, hne j hji]
        exact h.exact j hj
  obtain ⟨hgood', hino, hdata⟩ := hgood.written hnum hne
  unfold ialloc nextInode
  rw [wp_bind, wp_atomic]
  show wp E (winode s.freeinode (fresh type) >>= fun _ => pure s.freeinode) _
    { s with freeinode := s.freeinode + 1 }
  rw [wp_bind]
  refine wp_winode h.len hnum ?_
  rw [hself] at hgood' hino hdata
  refine ⟨rfl, hgood', ?_, rfl, rfl, bmap_written hnum _, fun j hj => bytesOf_congr ?_ fun k => ?_⟩
  · rw [hino, hV]
    rfl
  · show (written _ _ _).ino j = _
    rw [hino, hne j hj]
    rfl
  · rw [hdata, hV, Vol.data_detach _ hj]

/-! ## The loop over the arguments -/

structure IsFile (s : Image) (i : Nat) (bs : List Byte) : Prop where
  type : (s.ino i).type = T_FILE
  mode : (s.ino i).mode = 7
  bytes : bytesOf s.vol i = bs

structure Made (done : List HostFile) (s : Image) : Prop where
  good : Good s s.vol
  freeinode : s.freeinode = done.length + 2
  free : ∀ i, s.freeinode ≤ i → (s.ino i).type = 0
  root : (s.ino ROOTINO).type = T_DIR
  size : (s.ino ROOTINO).size.toNat = DIRENTSZ * (done.length + 2)
  file : ∀ j (hj : j < done.length), IsFile s (j + 2) done[j].bytes
  count : s.freeblock = nmeta + (needs (DIRENTSZ * (done.length + 2))).card +
    (done.map fun f => (needs f.bytes.length).card).sum

/-- The input files fit: inodes, sizes and blocks are enough. -/
def FitsImage (files : List HostFile) : Prop :=
  files.length + 1 < sb.ninodes ∧ (∀ f ∈ files, f.bytes.length ≤ MAXFILE * BSIZE) ∧
    nmeta + blocksFor (DIRENTSZ * (files.length + 2)) +
      (files.map fun f => blocksFor f.bytes.length).sum ≤ FSSIZE

instance (files : List HostFile) : Decidable (FitsImage files) :=
  inferInstanceAs (Decidable (_ ∧ _ ∧ _))

@[simp] theorem length_dirent (inum : Nat) (name : List Byte) : (dirent inum name).length = DIRENTSZ := by
  simp [dirent]

theorem IsFile.congr {bs : List Byte} (h : IsFile s i bs) (hino : s'.ino i = s.ino i)
    (hb : bytesOf s'.vol i = bytesOf s.vol i) : IsFile s' i bs := by
  refine ⟨?_, ?_, hb.trans h.bytes⟩
  · rw [hino]
    exact h.type
  · rw [hino]
    exact h.mode

theorem FitsImage.left {done rest : List HostFile} (h : FitsImage (done ++ rest)) : FitsImage done := by
  obtain ⟨hnum, hlen, hsum⟩ := h
  rw [List.length_append] at hnum hsum
  rw [List.map_append, List.sum_append] at hsum
  refine ⟨by omega, fun f hf => hlen f (List.mem_append_left _ hf), ?_⟩
  have hmono : blocksFor (DIRENTSZ * (done.length + 2)) ≤
      blocksFor (DIRENTSZ * (done.length + rest.length + 2)) := by
    unfold blocksFor
    simp only [DIRENTSZ, NDIRECT, BSIZE]
    split <;> split <;> omega
  omega

/-- The sizes and the blocks, where there are inodes for `done` and for `f`. -/
theorem fitsImage_concat {done : List HostFile} {f : HostFile} (hfits : FitsImage done)
    (hnum : done.length + 2 < sb.ninodes) : FitsImage (done ++ [f]) ↔ f.bytes.length ≤ MAXFILE * BSIZE ∧
      nmeta + (needs (DIRENTSZ * (done.length + 2) + DIRENTSZ)).card +
        (done.map fun f => (needs f.bytes.length).card).sum + (needs f.bytes.length).card ≤ FSSIZE := by
  have hroot : DIRENTSZ * (done.length + 2) + DIRENTSZ ≤ MAXFILE * BSIZE := by
    have hn : sb.ninodes = 200 := rfl
    simp only [DIRENTSZ, MAXFILE, NDIRECT, NINDIRECT, BSIZE] at *
    omega
  have hmap : (done.map fun f => (needs f.bytes.length).card) =
      done.map fun f => blocksFor f.bytes.length :=
    List.map_congr_left fun g hg => card_needs (hfits.2.1 g hg)
  have hentries : DIRENTSZ * ((done ++ [f]).length + 2) = DIRENTSZ * (done.length + 2) + DIRENTSZ := by
    rw [List.length_append, List.length_singleton]
    ring
  unfold FitsImage
  rw [hentries, card_needs hroot, hmap, List.map_append, List.sum_append, List.map_singleton,
    List.sum_singleton, List.length_append, List.length_singleton, ← Nat.add_assoc]
  constructor
  · rintro ⟨-, hlen, hsum⟩
    have hf := hlen f (by simp)
    rw [card_needs hf]
    exact ⟨hf, hsum⟩
  · rintro ⟨hf, hsum⟩
    rw [card_needs hf] at hsum
    refine ⟨hnum, fun g hg => ?_, hsum⟩
    rcases List.mem_append.1 hg with hg | hg
    · exact hfits.2.1 g hg
    · rw [List.mem_singleton.1 hg]
      exact hf

theorem bytesOf_fresh {type : Short} (h : V.ino i = fresh type) : bytesOf V i = [] := by
  unfold bytesOf
  rw [h]
  rfl

theorem wp_newFile {α : Type} {rest : Nat → Mk α} {Q : α → Image → Prop} (h : Good s s.vol)
    (hnum : s.freeinode < sb.ninodes) (hfree : (s.ino s.freeinode).type = 0)
    (hQ : ∀ s', Born s.freeinode T_FILE s s' → wp E (rest s.freeinode) Q s') :
    wp E (do
      let inum ← ialloc T_FILE
      let din ← rinode inum
      winode inum { din with mode := 7 }
      rest inum) Q s := by
  rw [wp_bind]
  refine wp_mono (wp_ialloc h hnum hfree) ?_
  rintro n s₁ ⟨rfl, h₁⟩
  have hself : s₁.ino s.freeinode = fresh T_FILE := by
    rw [h₁.ino, Function.update_self]
  rw [wp_bind]
  refine wp_rinode h₁.good.len hnum ?_
  -- the mode is `7` already
  have hmode : { s₁.ino s.freeinode with mode := 7 } = s₁.vol.ino s.freeinode := by
    show _ = s₁.ino s.freeinode
    rw [hself]
    rfl
  rw [wp_bind, hmode]
  refine wp_winode h₁.good.len hnum (hQ _ ?_)
  obtain ⟨hgood, hino, hdata⟩ := h₁.good.written hnum fun _ _ => rfl
  refine ⟨hgood, hino.trans h₁.ino, h₁.freeinode, h₁.freeblock, (bmap_written hnum _).trans h₁.bmap,
    fun j hj => ?_⟩
  rw [← h₁.bytes j hj]
  exact bytesOf_congr (congrFun hino j) fun k => hdata j k

section Round

variable {done rest : List HostFile} {f : HostFile} {s₁ s₂ s₃ : Image} {n : Nat}

/-- A new inode does not change the root directory. -/
theorem Made.root_born (h : Made done s) (h₁ : Born s.freeinode T_FILE s s₁) :
    s₁.vol.ino ROOTINO = s.ino ROOTINO ∧ s₁.vol.Allocated sb ROOTINO := by
  have hroot : s₁.vol.ino ROOTINO = s.ino ROOTINO := by
    show s₁.ino ROOTINO = _
    rw [h₁.ino, Function.update_of_ne]
    rw [h.freeinode]
    simp only [ROOTINO]
    omega
  refine ⟨hroot, by decide, ?_⟩
  rw [hroot, h.root]
  decide

theorem Made.file_born (h : Made done s) (hnum : done.length + 2 < sb.ninodes)
    (h₁ : Born s.freeinode T_FILE s s₁) {e : List Byte}
    (h₂ : Appended ROOTINO e s₁ s₁.vol s₂ s₂.vol) :
    s₂.vol.ino s.freeinode = fresh T_FILE ∧ s₂.vol.Allocated sb s.freeinode := by
  have hself : s₂.vol.ino s.freeinode = fresh T_FILE := by
    rw [h₂.other]
    · show s₁.ino _ = _
      rw [h₁.ino, Function.update_self]
    · rw [h.freeinode]
      simp only [ROOTINO]
      omega
  refine ⟨hself, by rw [h.freeinode]; exact hnum, ?_⟩
  rw [hself]
  decide

/-- There is room for the entry and for the bytes if all the files fit. -/
theorem Made.fitsImage_iff (hfits : FitsImage done) (hnum : done.length + 2 < sb.ninodes) (h : Made done s)
    (h₁ : Born s.freeinode T_FILE s s₁) {e : List Byte} (he : e.length = DIRENTSZ)
    (h₂ : Appended ROOTINO e s₁ s₁.vol s₂ s₂.vol) :
    FitsImage (done ++ [f]) ↔ Fit s₂ s₂.vol s.freeinode f.bytes.length := by
  have hcount := h₂.count
  rw [(h.root_born h₁).1, h.size, he, h₁.freeblock, h.count] at hcount
  unfold Fit
  rw [fitsImage_concat hfits hnum, (h.file_born hnum h₁ h₂).1]
  show _ ↔ 0 + f.bytes.length ≤ _ ∧ s₂.freeblock + (needs (0 + f.bytes.length)).card ≤ FSSIZE + (needs 0).card
  rw [Nat.zero_add, needs_zero, Finset.card_empty]
  exact and_congr_right fun _ => by omega

theorem Made.root_fit (hfits : FitsImage done) (hnum : done.length + 2 < sb.ninodes) (h : Made done s)
    (h₁ : Born s.freeinode T_FILE s s₁) (hall : FitsImage (done ++ [f])) :
    Fit s₁ s₁.vol ROOTINO DIRENTSZ := by
  have hroom := ((fitsImage_concat hfits hnum).1 hall).2
  have hcount := h.count
  have hn : sb.ninodes = 200 := rfl
  unfold Fit
  rw [(h.root_born h₁).1, h.size, h₁.freeblock]
  refine ⟨?_, by omega⟩
  simp only [DIRENTSZ, MAXFILE, NDIRECT, NINDIRECT, BSIZE] at *
  omega

theorem Made.add (hnum : done.length + 2 < sb.ninodes) (h : Made done s)
    (h₁ : Born s.freeinode T_FILE s s₁) {e : List Byte} (he : e.length = DIRENTSZ)
    (hfit₂ : Fit s₁ s₁.vol ROOTINO e.length) (h₂ : Appended ROOTINO e s₁ s₁.vol s₂ s₂.vol)
    (hfit₃ : Fit s₂ s₂.vol s.freeinode f.bytes.length)
    (h₃ : Appended s.freeinode f.bytes s₂ s₂.vol s₃ s₃.vol) : Made (done ++ [f]) s₃ := by
  obtain ⟨hroot₁, _⟩ := h.root_born h₁
  obtain ⟨hself₂, _⟩ := h.file_born hnum h₁ h₂
  have hfree := h.freeinode
  have hrootino : ROOTINO = 1 := rfl
  have hino₁ : ∀ j, j ≠ s.freeinode → s₁.vol.ino j = s.ino j := fun j hj => by
    show s₁.ino j = _
    rw [h₁.ino, Function.update_of_ne hj]
  have hother : ∀ j, j ≠ s.freeinode → j ≠ ROOTINO → s₃.vol.ino j = s.ino j := fun j hj hj' => by
    rw [h₃.other j hj, h₂.other j hj', hino₁ j hj]
  have hroot₃ : s₃.vol.ino ROOTINO = s₂.vol.ino ROOTINO := h₃.other ROOTINO (by omega)
  have hfreeinode : s₃.freeinode = done.length + 3 := by
    rw [h₃.freeinode, h₂.freeinode, h₁.freeinode, hfree]
  have hentries : DIRENTSZ * ((done ++ [f]).length + 2) = DIRENTSZ * (done.length + 2) + DIRENTSZ := by
    rw [List.length_append, List.length_singleton]
    ring
  refine ⟨h₃.good, ?_, fun i hi => ?_, ?_, ?_, fun j hj => ?_, ?_⟩
  · rw [hfreeinode]
    simp
  · rw [hfreeinode] at hi
    show (s₃.vol.ino i).type = 0
    rw [hother i (by omega) (by omega)]
    exact h.free i (by omega)
  · show (s₃.vol.ino ROOTINO).type = T_DIR
    rw [hroot₃, h₂.fields, hroot₁]
    exact h.root
  · show (s₃.vol.ino ROOTINO).size.toNat = _
    rw [hroot₃, h₂.size hfit₂, hroot₁, h.size, he, hentries]
  · by_cases hold : j < done.length
    · rw [List.getElem_append_left hold]
      refine (h.file j hold).congr (hother (j + 2) (by omega) (by omega)) ?_
      rw [h₃.bytes_ne (by omega), h₂.bytes_ne (by omega), h₁.bytes _ (by omega)]
    · obtain rfl : j = done.length := by
        rw [List.length_append, List.length_singleton] at hj
        omega
      rw [List.getElem_concat_length rfl, ← hfree]
      have hlast : s₃.ino s.freeinode = _ := h₃.fields
      refine ⟨?_, ?_, ?_⟩
      · rw [hlast, hself₂]
        rfl
      · rw [hlast, hself₂]
        rfl
      · rw [h₃.bytes hfit₃, bytesOf_fresh hself₂]
        rfl
  · have hcount₂ := h₂.count
    have hcount₃ := h₃.count
    rw [hroot₁, h.size, he, h₁.freeblock, h.count] at hcount₂
    rw [hself₂] at hcount₃
    have hcount₃' : s₃.freeblock + (needs 0).card = s₂.freeblock + (needs (0 + f.bytes.length)).card :=
      hcount₃
    rw [needs_zero, Finset.card_empty, Nat.zero_add] at hcount₃'
    rw [hentries, List.map_append, List.sum_append, List.map_singleton, List.sum_singleton]
    omega

/-- One argument.  The run meets `E` if there is a slash in the name, or if the files do not fit. -/
theorem wp_addFile (hfits : FitsImage done) (h : Made done s) (hnum : done.length + 2 < sb.ninodes)
    (hslash : 0x2f ∈ f.name → E (some .slash)) (hE : ¬FitsImage (done ++ [f]) → ∀ x, E x) :
    wp E (addFile ROOTINO f) (fun _ s' => FitsImage (done ++ [f]) ∧ Made (done ++ [f]) s' ∧
      s'.bmap = s.bmap) s := by
  have hfree := h.freeinode
  unfold addFile
  refine wp_ite (fun hname => ?_) fun _ => ?_
  · rw [wp_bind]
    exact hslash hname
  refine wp_newFile h.good (by omega) (h.free _ le_rfl) fun s₁ h₁ => ?_
  have he := length_dirent s.freeinode (skipUnderscore f.name)
  obtain ⟨hroot, ha⟩ := h.root_born h₁
  have hmax : (s₁.vol.ino ROOTINO).size.toNat ≤ MAXFILE * BSIZE := by
    have hn : sb.ninodes = 200 := rfl
    rw [hroot, h.size]
    simp only [DIRENTSZ, MAXFILE, NDIRECT, NINDIRECT, BSIZE]
    omega
  rw [wp_bind]
  refine wp_mono (wp_iappend h₁.good ha hmax fun hno => hE fun hall =>
    hno (he ▸ h.root_fit hfits hnum h₁ hall)) ?_
  rintro - s₂ ⟨hfit₂, h₂⟩
  obtain ⟨hself, ha₂⟩ := h.file_born hnum h₁ h₂
  have hiff := h.fitsImage_iff (f := f) hfits hnum h₁ he h₂
  refine wp_mono (wp_iappend_chunks h₂.good ha₂ (by rw [hself]; exact Nat.zero_le _)
    fun hno => hE fun hall => hno (hiff.1 hall)) ?_
  rintro - s₃ ⟨hfit₃, h₃⟩
  exact ⟨hiff.2 hfit₃, h.add hnum h₁ he hfit₂ h₂ hfit₃ h₃, h₃.bmap.trans (h₂.bmap.trans h₁.bmap)⟩

end Round

end Xv6.Mkfs
