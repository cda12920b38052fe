import Xv6.Fs.Content
import Xv6.Fs.System

/-!
# Checking a volume

`Vol.check` walks the inodes and the bitmap of a volume and says whether blocks and
places match, as a consistency checker for the disk would.  A volume that passes is
in order (`Vol.ok_of_check`), so for a concrete disk the invariant is a computation.
`freshDisk` is such a disk, with an empty root directory, and `freshBoot` a system on it.
-/

namespace Xv6.Fs

open Bytes Conc Prog

variable {sb : Superblock} {V : Vol}

namespace Vol

variable (sb V)

/-- The places that refer to a block. -/
def places : List (Nat × Nat) :=
  ((List.range sb.ninodes).filter fun i => (V.ino i).type != 0).flatMap fun i =>
    ((List.range NPLACE).filter fun p => (V.ref sb (i, p)).isSome).map fun p => (i, p)

def check : Bool :=
  let ps := V.places sb
  (ps.all fun x => ps.all fun y => V.ref sb x != V.ref sb y || x == y) &&
  (ps.all fun x => (V.ref sb x).all fun b => sb.datastart ≤ b && b < sb.size) &&
  ((List.range sb.size).all fun b =>
    V.bit sb b == (b < sb.datastart || ps.any fun x => V.ref sb x == some b)) &&
  ((List.range sb.ninodes).all fun i => (V.ino i).type == 0 ||
    ((V.ino i).size.toNat ≤ MAXFILE * BSIZE &&
      (List.range (((V.ino i).size.toNat + BSIZE - 1) / BSIZE)).all fun k =>
        (V.ref sb (i, place k)).isSome))

variable {sb V}

theorem mem_places {i p b : Nat} (h : V.ref sb (i, p) = some b) : (i, p) ∈ V.places sb := by
  obtain ⟨ha, hp, _, _⟩ := ref_eq_some.1 h
  refine List.mem_flatMap.2 ⟨i, List.mem_filter.2 ⟨List.mem_range.2 ha.1, by simpa using ha.2⟩, ?_⟩
  exact List.mem_map.2 ⟨p, List.mem_filter.2 ⟨List.mem_range.2 hp, by rw [h]; rfl⟩, rfl⟩

theorem ok_of_check (hd : sb.datastart ≤ sb.size) (h : V.check sb = true) : V.Ok sb ∅ := by
  unfold check at h
  simp only [Bool.and_eq_true, List.all_eq_true, Bool.or_eq_true, bne_iff_ne, beq_iff_eq,
    List.mem_range] at h
  obtain ⟨⟨⟨hinj, hdata⟩, hbit⟩, hhole⟩ := h
  refine ⟨⟨fun b => ?_, ?_, fun _ _ _ hb => hb⟩, fun b hb => ?_, fun i ha k hk => ?_⟩
  · constructor
    · rintro ⟨h1, h2, h3⟩
      have := hbit b h2
      rw [h3] at this
      have hany : ((V.places sb).any fun x => V.ref sb x == some b) = true := by
        simpa [show ¬ b < sb.datastart by omega] using this.symm
      obtain ⟨x, _, hx⟩ := List.any_eq_true.1 hany
      exact Or.inr ⟨x, by simpa using hx⟩
    · rintro (hb | ⟨⟨i, p⟩, hx⟩)
      · exact hb.elim
      · have hmem := mem_places hx
        have hb := hdata _ hmem
        rw [hx] at hb
        simp only [Option.all_some, Bool.and_eq_true, decide_eq_true_eq] at hb
        refine ⟨hb.1, hb.2, ?_⟩
        rw [hbit b hb.2, Bool.or_eq_true]
        exact Or.inr (List.any_eq_true.2 ⟨_, hmem, by rw [hx]; simp⟩)
  · rintro ⟨i, p⟩ ⟨j, q⟩ b hx hy
    rcases hinj _ (mem_places hx) _ (mem_places hy) with hne | he
    · exact absurd (hx.trans hy.symm) hne
    · exact he
  · rw [hbit b (by omega), decide_eq_true hb, Bool.true_or]
  · rcases hhole i ha.1 with hz | ⟨hmax, hall⟩
    · exact absurd hz ha.2
    · rw [decide_eq_true_eq] at hmax
      refine ⟨Nat.lt_of_mul_lt_mul_right (a := BSIZE) (by omega), ?_⟩
      have hlt : k < ((V.ino i).size.toNat + BSIZE - 1) / BSIZE := by
        simp only [BSIZE] at *
        omega
      exact Option.isSome_iff_ne_none.1 (hall k hlt)

end Vol

instance (sb : Superblock) (dirty : Option Slot) (s : Kernel) : Decidable (CacheOk sb dirty s) :=
  decidable_of_iff ((∀ i, (s.icache i).inum < sb.ninodes) ∧
    (∀ i, 0 < (s.icache i).ref → (s.icache i).dev = ROOTDEV) ∧
    (∀ i j, 0 < (s.icache i).ref → 0 < (s.icache j).ref →
      (s.icache i).inum = (s.icache j).inum → i = j) ∧
    (∀ i, 0 < (s.icache i).ref → (s.icache i).valid = true → (s.icache i).d.type ≠ 0) ∧
    ∀ i, dirty ≠ some i → 0 < (s.icache i).ref → (s.icache i).valid = true →
      (s.icache i).d = dinodeAt sb s (s.icache i).inum)
    ⟨fun ⟨h1, h2, h3, h4, h5⟩ => ⟨h1, h2, h3, h4, h5⟩, fun h => ⟨h.num, h.dev, h.uniq, h.type, h.coherent⟩⟩

/-- Is the state in order? -/
def fsck (sb : Superblock) (s : Kernel) : Bool :=
  decide (CacheOk sb none s) && (vol sb none s).check sb

theorem fsOk_of_fsck (hd : sb.datastart ≤ sb.size) {s : Kernel} (h : fsck sb s = true) :
    FsOk sb none s := by
  unfold fsck at h
  rw [Bool.and_eq_true, decide_eq_true_eq] at h
  exact ⟨h.1, Vol.ok_of_check hd h.2⟩

/-! ## A disk with a root directory -/

/-- A directory of one block, block 84. -/
def mkfsRoot : Dinode :=
  { Dinode.zero with type := T_DIR, nlink := 1, mode := 7, size := BitVec.ofNat 32 BSIZE }.setAddr 0 84

/-- The root directory alone: its size is rounded up to a block, and the first 85 blocks are used. -/
def freshDisk (b : Nat) : Block :=
  if b = mkfsSb.iblock ROOTINO then putDinode .zero (ROOTINO % IPB) mkfsRoot
  else if b = mkfsSb.bmapstart then .ofFn fun i => if i < 10 then 255 else if i = 10 then 31 else 0
  else if b = 84 then .ofFn fun i =>
    if i < DIRENTSZ then Dirent.bytes ⟨1, dot⟩ i
    else if i < 2 * DIRENTSZ then Dirent.bytes ⟨1, dotdot⟩ (i - DIRENTSZ)
    else 0
  else .zero

def freshBoot : Res Panic Unit Kernel := boot mkfsSb freshDisk (fun _ => true) fun _ => none

/-- The kernel starts in order on a fresh image. -/
example : (freshBoot.bind fun _ s => (.ok (fsck mkfsSb s) () : Res Panic Bool Unit)) = .ok true () := by
  decide +kernel

/-- A fresh system whose first process has made and opened the file `/f` (entry 1 of the cache) and
has begun a transaction. -/
def fileReady : Res Panic Unit Kernel :=
  (freshBoot.bind fun _ s =>
    sysStep mkfsSb s (initproc, .open (some [slash, 102]) (some (O_CREATE ||| O_RDWR)))).bind
    fun _ s => beginOp.run s

/-- What is to be known of such a state. -/
def ready (s : Kernel) : Bool :=
  fsck mkfsSb s && decide (0 < (s.icache 1).ref) && (s.icache 1).valid &&
    decide ((s.icache 1).d.type = T_FILE) && decide ((s.icache 1).inum = 2) &&
    decide ((dinodeAt mkfsSb s 2).size = 0) && decide (40 ≤ (vol mkfsSb none s).free mkfsSb) &&
    decide (s.log.outstanding = 1) && decide (s.log.lh = []) && decide (s.log.size = LOGSIZE)

theorem fileReady_facts : ∃ s, fileReady = .ok () s ∧ FsOk mkfsSb none s ∧ Loaded s 1 ∧
    (s.icache 1).d.type ≠ T_DEV ∧ (s.icache 1).inum = 2 ∧ (dinodeAt mkfsSb s 2).size = 0 ∧
    40 ≤ (vol mkfsSb none s).free mkfsSb ∧
    s.log.outstanding = 1 ∧ s.log.lh = [] ∧ s.log.size = LOGSIZE := by
  have hready : (fileReady.bind fun _ s => (.ok (ready s) () : Res Panic Bool Unit)) = .ok true () := by
    decide +kernel
  obtain ⟨_, s, hs, hf⟩ := Res.bind_eq_ok.1 hready
  have h : ready s = true := by simpa using hf
  simp only [ready, Bool.and_eq_true, decide_eq_true_eq] at h
  obtain ⟨⟨⟨⟨⟨⟨⟨⟨⟨hck, href⟩, hv⟩, ht⟩, hin⟩, hsz⟩, hfree⟩, ho⟩, hlh⟩, hls⟩ := h
  exact ⟨s, hs, fsOk_of_fsck (by decide) hck, ⟨href, hv⟩, by rw [ht]; decide, hin, hsz, hfree, ho, hlh,
    hls⟩

end Xv6.Fs
