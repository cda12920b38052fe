import Xv6.Mkfs.Disk
import Xv6.Lib.Adds

/-!
# Inputs that do not fit

Nothing in `mkfs.c` compares `freeblock` with `FSSIZE`, but a new block is read before it is written, and
behind the last sector there is nothing to read: the run that needs a block too many ends with an error.
`ialloc` has no such luck.  Inode `NINODES` still has its place in the inode area, which has a block more
than it needs, and what comes behind the inode area is the bitmap.  So a run that ends well has stayed in
its areas exactly if there were at most `NINODES - 2` files.
-/

namespace Xv6.Mkfs

open Bytes Conc Fs Prog

/-- Nothing is asked of a run that stops. -/
abbrev Any : Option Exit → Prop := fun _ => True

variable {s s' : Image} {inum : Nat}

/-- With inodes for all files a run that returns has left the bitmap alone and stayed in the file. -/
theorem inodesAndData_ok {files : List HostFile} (h : Ready s) (hnum : files.length + 2 ≤ sb.ninodes)
    (hrun : (inodesAndData files).run s = .ok () s') :
    s'.bmap = s.bmap ∧ s'.len = FSSIZE ∧ s'.freeblock ≤ FSSIZE := by
  obtain ⟨s₀, hm, hb, rfl⟩ := wp_ok (wp_inodesAndData (E := Any) h hnum (fun _ _ _ => trivial)
    fun _ _ => trivial) hrun
  have hlow : sb.iblock ROOTINO < FSSIZE := by decide
  have hlen := hm.good.len
  refine ⟨(bmap_written (by decide) _).trans hb, ?_, hm.good.used⟩
  show max s₀.len (sb.iblock ROOTINO + 1) = FSSIZE
  omega

/-! ## Counting inodes

What has become of the image plays no role here. -/

/-- A run of `p` takes `n` inodes, if it returns. -/
abbrev Takes {α : Type} (n : ℤ) (p : Mk α) : Prop :=
  Adds (fun s : Image => (s.freeinode : ℤ)) (fun _ => ()) p fun _ => n

theorem takes_rsect (b : Nat) : Takes 0 (rsect b) := Adds.atomic fun s a s' h => by
  split at h
  · cases h
    exact ⟨(add_zero _).symm, rfl⟩
  · cases h

theorem takes_wsect (b : Nat) (x : Block) : Takes 0 (wsect b x) := Adds.atomic fun s a s' h => by
  cases h
  exact ⟨(add_zero _).symm, rfl⟩

theorem takes_nextBlock : Takes 0 nextBlock := Adds.atomic fun s a s' h => by
  cases h
  exact ⟨(add_zero _).symm, rfl⟩

theorem takes_nextInode : Takes 1 nextInode := Adds.atomic fun s a s' h => by
  cases h
  exact ⟨Nat.cast_succ _, rfl⟩

theorem takes_winode (inum : Nat) (d : Dinode) : Takes 0 (winode inum d) :=
  (takes_rsect _).zero_bind fun _ => takes_wsect _ _

theorem takes_rinode (inum : Nat) : Takes 0 (rinode inum) :=
  (takes_rsect _).zero_bind fun _ => Adds.pure _

theorem takes_ialloc (type : Short) : Takes 1 (ialloc type) :=
  takes_nextInode.bind fun _ => (takes_winode _ _).zero_bind fun _ => Adds.ret (sub_self 1)

theorem takes_addrOf (din : Dinode) (k : Nat) : Takes 0 (addrOf din k) :=
  Adds.ite (fun _ => takes_nextBlock.zero_bind fun _ => Adds.pure _) fun _ => Adds.pure _

theorem takes_blockOf (din : Dinode) (fbn : Nat) : Takes 0 (blockOf din fbn) := by
  refine Adds.ite (fun _ => takes_addrOf _ _) fun _ => (takes_addrOf _ _).zero_bind fun _ => ?_
  refine (takes_rsect _).zero_bind fun _ => Adds.ite (fun _ => ?_) fun _ => Adds.pure _
  exact takes_nextBlock.zero_bind fun _ => (takes_wsect _ _).zero_bind fun _ => Adds.pure _

theorem takes_iappendFrom (rounds : Nat) (din : Dinode) (off : Nat) (bs : List Byte) :
    Takes 0 (iappendFrom rounds din off bs) := by
  induction rounds generalizing din off bs with
  | zero => exact Adds.pure _
  | succ rounds ih =>
    refine Adds.ite (fun _ => Adds.pure _) fun _ => Adds.ite (fun _ => Adds.throw_bind _ _ _ _) fun _ => ?_
    refine (takes_blockOf _ _).zero_bind fun _ => (takes_rsect _).zero_bind fun _ => ?_
    exact (takes_wsect _ _).zero_bind fun _ => ih _ _ _

theorem takes_iappend (inum : Nat) (bs : List Byte) : Takes 0 (iappend inum bs) :=
  (takes_rinode _).zero_bind fun _ => (takes_iappendFrom _ _ _ _).zero_bind fun _ => takes_winode _ _

theorem takes_addFile (root : Nat) (f : HostFile) : Takes 1 (addFile root f) := by
  refine Adds.ite (fun _ => Adds.throw_bind _ _ _ _) fun _ => ?_
  refine (takes_ialloc _).bind fun inum => (takes_rinode _).zero_bind fun _ => ?_
  refine (takes_winode _ _).zero_bind fun _ => (takes_iappend _ _).zero_bind fun _ => ?_
  exact (Adds.forM (fun c => takes_iappend inum c) _).congr fun _ => (sub_self 1).symm

theorem takes_files (root : Nat) (files : List HostFile) :
    Takes files.length (files.forM (addFile root)) := by
  induction files with
  | nil => exact Adds.pure _
  | cons f files ih =>
    refine (takes_addFile root f).bind fun _ => ih.congr fun _ => ?_
    rw [List.length_cons, Nat.cast_succ, add_sub_cancel_right]

theorem takes_inodesAndData (files : List HostFile) :
    Takes (files.length + 1) (inodesAndData files) := by
  refine (takes_ialloc _).bind fun root => Adds.ite (fun _ => Adds.throw_bind _ _ _ _) fun _ => ?_
  refine (takes_iappend _ _).zero_bind fun _ => (takes_iappend _ _).zero_bind fun _ => ?_
  refine (takes_files _ _).bind fun _ => (takes_rinode _).zero_bind fun _ => ?_
  exact (takes_winode _ _).congr fun _ => by ring

/-! ## One inode too many -/

/-- An inode behind the last was written: for the files nothing has changed. -/
structure Kept (s s' : Image) : Prop where
  good : Good s' s'.vol
  ino : s'.ino = s.ino
  freeblock : s'.freeblock = s.freeblock

theorem ino_beyond (hle : sb.ninodes ≤ inum) (d : Dinode) : (written s inum d).ino = s.ino := by
  funext j
  by_cases hj : j < sb.ninodes
  · exact ino_written_ne d (by omega)
  · rw [Image.ino, Image.ino, if_neg hj, if_neg hj]

theorem wp_winode_beyond {d : Dinode} {E : Option Exit → Prop} (h : Good s s.vol)
    (hle : sb.ninodes ≤ inum) (hlt : sb.iblock inum < sb.bmapstart) :
    wp E (winode inum d) (fun _ s' => Kept s s') s := by
  have hlen := h.len
  have hmap : sb.bmapstart < FSSIZE := by decide
  have hino := ino_beyond (s := s) hle d
  unfold winode
  rw [wp_bind]
  refine wp_rsect (by omega) (wp_wsect ⟨?_, hino, rfl⟩)
  -- the inodes are the same, and of the blocks only one before the bitmap differs
  have hvol : (written s inum d).vol = s.vol.setBlk (sb.iblock inum)
      (putDinode (s.sect (sb.iblock inum)) (inum % IPB) d) := by
    show Vol.mk (written s inum d).ino (Function.update (Function.update _ _ _) _ _) =
      Vol.mk s.ino (Function.update (Function.update _ _ _) _ _)
    rw [hino, Function.update_comm hlt.ne]
    rfl
  show Good (written s inum d) (written s inum d).vol
  rw [hvol]
  exact h.setLow hlt _ _

theorem wp_addFile_beyond {done : List HostFile} {f : HostFile} {E : Option Exit → Prop}
    (h : Made done s) (hname : 0x2f ∉ f.name) (hempty : f.chunks = [])
    (hle : sb.ninodes ≤ s.freeinode) (hlt : sb.iblock s.freeinode < sb.bmapstart)
    (hfit : Fit s s.vol ROOTINO DIRENTSZ) :
    wp E (addFile ROOTINO f) (fun _ s' => Good s' s'.vol) s := by
  have hmap : sb.bmapstart < FSSIZE := by decide
  have hgood : Good { s with freeinode := s.freeinode + 1 } s.vol :=
    ⟨⟨h.good.blk, h.good.ok, h.good.len, h.good.used, h.good.zero⟩, h.good.exact⟩
  rw [addFile, if_neg hname, hempty, ialloc, nextInode]
  simp only [bind_assoc, pure_bind]
  rw [wp_bind, wp_atomic]
  show wp E (winode s.freeinode _ >>= _) _ { s with freeinode := s.freeinode + 1 }
  rw [wp_bind]
  refine wp_mono (wp_winode_beyond hgood hle hlt) fun _ s₁ h₁ => ?_
  unfold rinode
  rw [bind_assoc, wp_bind]
  refine wp_rsect (by rw [h₁.good.len]; omega) ?_
  rw [pure_bind, wp_bind]
  refine wp_mono (wp_winode_beyond h₁.good hle hlt) fun _ s₂ h₂ => ?_
  have hino : s₂.ino = s.ino := h₂.ino.trans h₁.ino
  have hfree : s₂.freeblock = s.freeblock := h₂.freeblock.trans h₁.freeblock
  have ha : s₂.vol.Allocated sb ROOTINO := by
    refine ⟨by decide, ?_⟩
    show (s₂.ino ROOTINO).type ≠ 0
    rw [hino, h.root]
    decide
  have hfit₂ : Fit s₂ s₂.vol ROOTINO (dirent s.freeinode (skipUnderscore f.name)).length := by
    unfold Fit at hfit ⊢
    rw [length_dirent, hfree, show s₂.vol.ino = s.vol.ino from hino]
    exact hfit
  rw [wp_bind]
  exact wp_mono (wp_iappend h₂.good ha ((Nat.le_add_right _ _).trans hfit₂.1) fun hno =>
    absurd hfit₂ hno) fun _ s₃ h₃ => h₃.2.good

/-- The file of the example: no bytes and a name of one letter. -/
def emptyFile : HostFile := ⟨[0x61], [], by simp⟩

theorem forM_concat (g : HostFile → Mk Unit) (files : List HostFile) (f : HostFile) :
    (files ++ [f]).forM g = files.forM g >>= fun _ => g f := by
  rw [List.forM_eq_forM, List.forM_append, List.forM_cons, List.forM_nil, bind_pure_unit]

theorem wp_inodesAndData_beyond {files : List HostFile} {E : Option Exit → Prop} (h : Ready s)
    (hfits : FitsImage files) (hlen : files.length = 198) (hname : ∀ f ∈ files, 0x2f ∉ f.name) :
    wp E (inodesAndData (files ++ [emptyFile])) (fun _ s' => s'.freeblock ≤ FSSIZE) s := by
  unfold inodesAndData
  simp only [forM_concat, bind_assoc]
  refine wp_files h (by rw [hlen]; decide) (fun f hf hs => absurd hs (hname f hf))
    (fun hno => absurd hfits hno) fun s' hm _ => ?_
  have hfree : s'.freeinode = 200 := by rw [hm.freeinode, hlen]
  have hfit : Fit s' s'.vol ROOTINO DIRENTSZ := by
    have hused := hm.good.used
    have hsize : (s'.vol.ino ROOTINO).size.toNat = DIRENTSZ * 200 := by
      show (s'.ino ROOTINO).size.toNat = _
      rw [hm.size, hlen]
    have hsame : (needs (DIRENTSZ * 200 + DIRENTSZ)).card = (needs (DIRENTSZ * 200)).card := by
      decide +kernel
    unfold Fit
    rw [hsize, hsame]
    exact ⟨by decide, by omega⟩
  rw [wp_bind]
  refine wp_mono (wp_addFile_beyond hm (by decide) rfl ?_ ?_ hfit) fun _ s'' hgood => ?_
  · rw [hfree]
    exact le_rfl
  · rw [hfree]
    decide
  · rw [wp_bind]
    exact wp_rinode hgood.len (by decide) (wp_winode hgood.len (by decide) hgood.used)

/-! ## The areas of the image -/

def Image.setBmap (s : Image) (x : Block) : Image :=
  { s with sect := Function.update s.sect sb.bmapstart x }

theorem bmap_setBmap (s : Image) (x : Block) : (s.setBmap x).bmap = x := by
  show Function.update s.sect sb.bmapstart x sb.bmapstart = x
  rw [Function.update_self]

theorem vol_setBmap (s : Image) (x : Block) : (s.setBmap x).vol = s.vol := by
  show Vol.mk (Image.mk (Function.update _ _ _) _ _ _).ino (Function.update (Function.update _ _ _) _ _) = _
  rw [ino_update le_rfl, Function.update_idem]
  rfl

theorem Ready.setBmap (h : Ready s) (x : Block) : Ready (s.setBmap x) := by
  have hino : (s.setBmap x).ino = s.ino := congrArg Vol.ino (vol_setBmap s x)
  have hmap := bmapstart_lt_nmeta
  have hfree := h.freeblock
  refine ⟨?_, fun i => ?_, h.freeinode, h.freeblock⟩
  · rw [vol_setBmap]
    refine ⟨⟨?_, h.good.ok, h.good.len, h.good.used, fun b hb hlt => ?_⟩, h.good.exact⟩
    · exact (congrArg Vol.blk (vol_setBmap s x)).symm
    · have hb' : s.freeblock ≤ b := hb
      show Function.update s.sect sb.bmapstart x b = .zero
      rw [Function.update_of_ne (by omega)]
      exact h.good.zero b hb hlt
  · rw [hino]
    exact h.type i

theorem ready_of_prepare {g : Nat → Block} (hrun : prepare.run (Image.empty g) = .ok () s) : Ready s :=
  (wp_ok (wp_prepare (E := Any)) hrun :)

theorem balloc_ok {used : Nat} (hrun : (balloc used).run s = .ok () s') :
    s' = { s.setBmap (bitmap used) with len := max s.len (sb.bmapstart + 1) } := by
  unfold balloc at hrun
  split at hrun
  · cases hrun
  · cases hrun
    rfl

theorem mkfs_ok {files : List HostFile} {g : Nat → Block}
    (hrun : (mkfs files).run (Image.empty g) = .ok () s) : ∃ s₀ s₁,
      prepare.run (Image.empty g) = .ok () s₀ ∧ (inodesAndData files).run s₀ = .ok () s₁ ∧
      s.freeinode = files.length + 2 ∧ s.freeblock = s₁.freeblock ∧
      s.len = max s₁.len (sb.bmapstart + 1) := by
  rw [mkfs] at hrun
  obtain ⟨⟨⟩, s₀, h₀, hrun⟩ := run_bind_eq_ok.1 hrun
  obtain ⟨⟨⟩, s₁, h₁, hrun⟩ := run_bind_eq_ok.1 hrun
  have hs := balloc_ok hrun
  have htaken : (s₁.freeinode : ℤ) = s₀.freeinode + (files.length + 1) :=
    (takes_inodesAndData files s₀ () s₁ h₁).1
  rw [(ready_of_prepare h₀).freeinode] at htaken
  subst hs
  refine ⟨s₀, s₁, h₀, h₁, ?_, rfl, rfl⟩
  show s₁.freeinode = files.length + 2
  push_cast at htaken
  omega

structure Within (files : List HostFile) (g : Nat → Block) (s : Image) : Prop where
  /-- the inodes that were taken have their place in the inode area -/
  inode : ∀ inum, 0 < inum → inum < s.freeinode →
    inum < sb.ninodes ∧ sb.inodestart ≤ sb.iblock inum ∧ sb.iblock inum < sb.bmapstart
  block : ∀ b, nmeta ≤ b → b < s.freeblock → b < FSSIZE
  /-- the file was not written behind its last sector -/
  len : s.len = FSSIZE
  /-- until `balloc` the bitmap is what it was, whatever that is -/
  bmap : ∀ s₀, prepare.run (Image.empty g) = .ok () s₀ → ∀ x s₁,
    (inodesAndData files).run (s₀.setBmap x) = .ok () s₁ → s₁.bmap = x

theorem Within.length_le {files : List HostFile} {g : Nat → Block} (h : Within files g s)
    (hfree : s.freeinode = files.length + 2) : files.length + 2 ≤ sb.ninodes := by
  have := (h.inode (files.length + 1) (Nat.succ_pos _) (by omega)).1
  omega

/-- A run that returns has stayed in its areas if and only if there were inodes for all files. -/
theorem mkfs_within_iff (files : List HostFile) (g : Nat → Block) (s : Image)
    (hrun : (mkfs files).run (Image.empty g) = .ok () s) :
    Within files g s ↔ files.length + 2 ≤ sb.ninodes := by
  obtain ⟨s₀, s₁, h₀, h₁, hfree, hblocks, hlen⟩ := mkfs_ok hrun
  refine ⟨fun h => h.length_le hfree, fun hnum => ?_⟩
  have hready := ready_of_prepare h₀
  obtain ⟨-, hlen₁, hused⟩ := inodesAndData_ok hready hnum h₁
  have hmap : sb.bmapstart < FSSIZE := by decide
  refine ⟨fun inum _ hlt => ?_, fun b _ hlt => by omega, by omega, fun s₀' h₀' x s₁' hrun' => ?_⟩
  · have hinum : inum < sb.ninodes := by omega
    exact ⟨hinum, Nat.le_add_left _ _, iblock_lt_bmapstart hinum⟩
  · exact (inodesAndData_ok ((ready_of_prepare h₀').setBmap x) hnum hrun').1.trans (bmap_setBmap s₀' x)

theorem mkfs_within_two_pieces : ∃ s, (mkfs [twoPieces]).run (Image.empty fun _ => .zero) = .ok () s ∧
    Within [twoPieces] (fun _ => .zero) s := by
  obtain ⟨s, -, hrun, -⟩ := mkfs_twoPieces
  exact ⟨s, hrun, (mkfs_within_iff [twoPieces] _ s hrun).2 (by decide)⟩

theorem mkfs_beyond {files : List HostFile} (g : Nat → Block) (hfits : FitsImage files)
    (hlen : files.length = 198) (hname : ∀ f ∈ files, 0x2f ∉ f.name) :
    ∃ s, (mkfs (files ++ [emptyFile])).run (Image.empty g) = .ok () s := by
  have hwp : wp (fun _ => False) (mkfs (files ++ [emptyFile])) (fun _ _ => True) (Image.empty g) := by
    unfold mkfs
    rw [wp_bind]
    refine wp_mono wp_prepare fun _ s h => ?_
    rw [wp_bind]
    refine wp_mono (wp_inodesAndData_beyond h hfits hlen hname) fun _ s₁ hused => ?_
    exact wp_mono (wp_bitmap hused) fun _ _ _ => trivial
  obtain ⟨_, s, hr, -⟩ := wp_returns hwp
  exact ⟨s, hr⟩

/-- With 199 files `mkfs` ends well, and has used inode 200, which is one too many. -/
theorem mkfs_takes_inode_200 : ∃ (files : List HostFile) (s : Image), files.length = 199 ∧
    (mkfs files).run (Image.empty fun _ => .zero) = .ok () s ∧ s.freeinode = 201 ∧
    sb.ninodes = 200 ∧ ¬ Within files (fun _ => .zero) s := by
  obtain ⟨files, hfiles⟩ : ∃ files, files = List.replicate 198 emptyFile := ⟨_, rfl⟩
  have hfits : FitsImage files := by
    rw [hfiles]
    decide +kernel
  have hlen : files.length = 198 := by rw [hfiles, List.length_replicate]
  have hname : ∀ f ∈ files, 0x2f ∉ f.name := by
    intro f hf
    rw [hfiles] at hf
    rw [List.eq_of_mem_replicate hf]
    decide
  obtain ⟨s, hrun⟩ := mkfs_beyond (fun _ => .zero) hfits hlen hname
  obtain ⟨-, -, -, -, hfree, -, -⟩ := mkfs_ok hrun
  have hlen' : (files ++ [emptyFile]).length = 199 := by rw [List.length_append, hlen]; rfl
  refine ⟨_, s, hlen', hrun, by rw [hfree, hlen'], rfl, fun h => ?_⟩
  have hle := h.length_le hfree
  rw [hlen'] at hle
  exact absurd hle (by decide)

end Xv6.Mkfs
