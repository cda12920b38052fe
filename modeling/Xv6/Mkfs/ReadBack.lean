import Xv6.Mkfs.Disk
import Xv6.Fs.Inode
import Xv6.Fs.System

/-!
# The kernel reads what `mkfs` wrote

`mkfs` and the kernel have the disk format in two implementations.  Both are proved against the
same volume, so reading back needs no new argument about addresses: `ilock` decodes the inode that
`winode` encoded, and the blocks that `bmap` finds are those `iappend` filled.
-/

namespace Xv6.Mkfs

open Bytes Conc Fs Prog

variable {s s₀ : Image} {files : List HostFile} {k : Kernel} {me : Pid} {i : Slot}

def lockRead (me : Pid) (i : Slot) (off n : Nat) : K (Option (List Byte)) := do
  ilock sb me i
  readi sb me i off n

/-- The entry of the inode cache that `iget` leaves for an inode that nobody uses. -/
structure Got (k : Kernel) (i : Slot) (inum : Nat) : Prop where
  inum : (k.icache i).inum = inum
  ref : 0 < (k.icache i).ref
  valid : (k.icache i).valid = false
  lock : (k.icache i).lock = none

theorem Finished.data (h : Finished files s₀ s) (j m : Nat) : s.disk.data sb j m = s₀.vol.data sb j m := by
  obtain ⟨x, hx⟩ := h.disk_eq
  have hset : ∀ y, (s₀.vol.setIno ROOTINO
      { s₀.ino ROOTINO with size := BitVec.ofNat 32 (rounded files) }).ref sb y = s₀.vol.ref sb y :=
    Vol.ref_setIno rfl rfl
  rw [hx, Vol.data_setBlk, Vol.data_setIno]
  · rfl
  · rfl
  · intro i p
    rw [hset]
    exact h.made.good.ok.not_ref_of_lt (iblock_lt_datastart (by decide)) i p

/-- On the disk of the image, the kernel sees the inodes of the image. -/
theorem dinodeAt_disk (hk : k.blk = s.sect) (inum : Nat) : dinodeAt sb k inum = s.disk.ino inum := by
  show (if _ then getDinode (k.blk _) _ else _) = s.ino inum
  rw [hk]
  rfl

theorem vol_locked (hk : k.blk = s.sect) : vol sb (some i) (locked sb me k i) = s.disk := by
  have hd : dinodeAt sb k = s.disk.ino := funext (dinodeAt_disk hk)
  show Vol.mk (Function.update (dinodeAt sb k) ((locked sb me k i).icache i).inum
    ((locked sb me k i).icache i).d) k.blk = _
  rw [show (locked sb me k i).icache i = _ from Kernel.icache_setInode, Function.update_eq_self, hd, hk]
  rfl

/-- The blocks of a file, as `bmap` finds them. -/
theorem Finished.holds (h : Finished files s₀ s) (hk : k.blk = s.sect) {inum : Nat}
    (hinum : (k.icache i).inum = inum) (hroot : inum ≠ ROOTINO) (hlt : inum < sb.ninodes)
    (ht : (s₀.ino inum).type ≠ 0) :
    Fs.Holds sb (locked sb me k i) i (s₀.vol.data sb inum) := by
  have hentry : (locked sb me k i).icache i = _ := Kernel.icache_setInode
  intro m hm
  rw [hentry] at hm
  have hm' : m * BSIZE < (dinodeAt sb k (k.icache i).inum).size.toNat := hm
  rw [hinum, dinodeAt_disk hk, h.ino_ne hroot] at hm'
  obtain ⟨hmax, hne⟩ := h.made.good.ok.noHole inum ⟨hlt, ht⟩ m hm'
  obtain ⟨b, hb⟩ := Option.ne_none_iff_exists'.1 hne
  have hb' : s.disk.ref sb (inum, place m) = some b := (h.ref _).trans hb
  refine ⟨hmax, b, ?_, ?_⟩
  · unfold refAt
    rw [vol_locked hk, hentry]
    show s.disk.ref sb ((k.icache i).inum, place m) = some b
    rw [hinum, hb']
  · show k.blk b = _
    rw [hk, ← h.data, Vol.data_of_ref hb']
    rfl

theorem Finished.read (h : Finished files s₀ s) (me : Pid) (hfits : FitsImage files) (hk : k.blk = s.sect)
    {j off n : Nat} (hj : j < files.length) (hgot : Got k i (j + 2))
    (hoff : off ≤ files[j].bytes.length) (hn : off + n < 2 ^ 32) :
    wp (fun _ => False) (lockRead me i off n) (fun r k' =>
      r = some ((files[j].bytes.drop off).take n) ∧ (k'.icache i).d.type = T_FILE ∧
        (k'.icache i).d.mode = 7 ∧ (k'.icache i).d.size.toNat = files[j].bytes.length) k := by
  have hfile := h.made.file j hj
  have hlt : j + 2 < sb.ninodes := by
    have := hfits.1
    omega
  have hroot : j + 2 ≠ ROOTINO := by
    simp only [ROOTINO]
    omega
  have ht : (s₀.ino (j + 2)).type ≠ 0 := by
    rw [hfile.type]
    decide
  have hd : dinodeAt sb k (k.icache i).inum = s₀.ino (j + 2) := by
    rw [hgot.inum, dinodeAt_disk hk, h.ino_ne hroot]
  have hlen : (s₀.ino (j + 2)).size.toNat = files[j].bytes.length := by
    rw [← hfile.bytes]
    simp [bytesOf, Image.vol]
  have hentry : ((locked sb me k i).icache i).d = s₀.ino (j + 2) := by
    rw [show (locked sb me k i).icache i = _ from Kernel.icache_setInode]
    exact hd
  unfold lockRead
  rw [wp_bind]
  refine wp_ilock_of (by rw [hgot.inum]; exact hlt) (fun _ hv => ?_) (Or.inr hgot.ref)
    (Or.inr hgot.lock) (Or.inr (by rw [hd]; exact ht)) fun _ _ _ => ?_
  · rw [hgot.valid] at hv
    cases hv
  · refine wp_readi_of (h.holds hk hgot.inum hroot hlt ht) ?_ ⟨?_, ?_, ?_, ?_⟩
    · rw [hentry, hfile.type]
      decide
    · rw [hentry, readSpec_slice (by omega) hn]
      congr 3
      exact hfile.bytes
    · rw [hentry, hfile.type]
    · rw [hentry, hfile.mode]
    · rw [hentry, hlen]

/-- Every input file reads back: `ilock` finds its type, mode and size, and `readi` its bytes. -/
theorem kernel_reads_back (files : List HostFile) (hfits : FitsImage files) (g : Nat → Block) :
    (∃ f ∈ files, 0x2f ∈ f.name) ∨ ∃ s, (mkfs files).run (Image.empty g) = .ok () s ∧
      ∀ (j : Nat) (hj : j < files.length) (k : Kernel) (me : Pid) (i : Slot), k.blk = s.sect →
        Got k i (j + 2) → ∀ off n, off ≤ files[j].bytes.length → off + n < 2 ^ 32 →
          ∃ k', (lockRead me i off n).run k = .ok (some ((files[j].bytes.drop off).take n)) k' ∧
            (k'.icache i).d.type = T_FILE ∧ (k'.icache i).d.mode = 7 ∧
            (k'.icache i).d.size.toNat = files[j].bytes.length := by
  rcases mkfs_finishes hfits g with hslash | ⟨s, s₀, hr, h⟩
  · exact Or.inl hslash
  refine Or.inr ⟨s, hr, fun j hj k me i hk hgot off n hoff hn => ?_⟩
  obtain ⟨r, k', hrun, rfl, hfields⟩ := wp_returns (h.read me hfits hk hj hgot hoff hn)
  exact ⟨k', hrun, hfields⟩

/-- The kernel that comes up on this image gets the file's inode and reads all of it. -/
theorem kernel_reads_back_two_pieces : FitsImage [twoPieces] ∧ ∃ s i k k',
    (mkfs [twoPieces]).run (Image.empty fun _ => .zero) = .ok () s ∧
    (iget ROOTDEV 2).run (poweron sb s.sect (fun _ => true) (fun _ => none)) = .ok i k ∧
    Got k i 2 ∧ (lockRead initproc i 0 3).run k = .ok (some [1, 2, 3]) k' := by
  have hfits : FitsImage [twoPieces] := by decide
  refine ⟨hfits, ?_⟩
  rcases kernel_reads_back [twoPieces] hfits fun _ => .zero with ⟨f, hf, hs⟩ | ⟨s, hr, hread⟩
  · rw [List.mem_singleton.1 hf] at hs
    exact absurd hs (by decide)
  · obtain ⟨k, hget, hblk, hgot⟩ : ∃ k,
        (iget ROOTDEV 2).run (poweron sb s.sect (fun _ => true) (fun _ => none)) = .ok 0 k ∧
        k.blk = s.sect ∧ Got k 0 2 := ⟨_, rfl, rfl, rfl, Int.one_pos, rfl, rfl⟩
    obtain ⟨k', hrun, _⟩ := hread 0 (by decide) k initproc 0 hblk hgot 0 3 (by decide) (by decide)
    exact ⟨s, 0, k, k', hr, hget, hgot, hrun⟩

end Xv6.Mkfs
