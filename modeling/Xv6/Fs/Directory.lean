import Xv6.Fs.FileBytes
import Xv6.Fs.Inode
import Xv6.Lib.CString
import Xv6.Lib.Slots

/-!
# A directory is a finite map

The entries of a directory are the slots of a table (`dirTable`) whose keys are the names up to a
`0` or to `DIRSIZ` bytes: this is what `strncmp` compares and `strncpy` keeps.  `dirMap` is the map
that the table stands for.  `dirlookup` reads it, `dirlink` adds a pair to it, and zeroing an entry,
as `sys_unlink` does, takes one away.
-/

namespace Xv6.Fs

open Bytes Conc Prog

variable {sb : Superblock} {me : Pid} {s s' : Kernel} {dp : Slot}

/-! ## Names -/

theorem strncmp_iff (a b : Name) (i n : Nat) : strncmp a b i n = true ↔
    ((List.range' i n).map a.get).takeWhile (· != 0) =
      ((List.range' i n).map b.get).takeWhile (· != 0) := by
  induction n generalizing i with
  | zero => simp [strncmp]
  | succ n ih =>
    -- the strings at the byte that is compared
    have hcons : ∀ c : Name, ((List.range' i (n + 1)).map c.get).takeWhile (· != 0) =
        if c.get i = 0 then []
        else c.get i :: ((List.range' (i + 1) n).map c.get).takeWhile (· != 0) := by
      intro c
      rw [List.range'_succ, List.map_cons]
      by_cases hc : c.get i = 0
      · rw [if_pos hc, List.takeWhile_cons_of_neg (by simpa using hc)]
      · rw [if_neg hc, List.takeWhile_cons_of_pos (by simpa using hc)]
    unfold strncmp
    rw [hcons a, hcons b]
    by_cases hab : a.get i = b.get i
    · by_cases hz : a.get i = 0
      · rw [if_neg fun hc => hc.1 hz, if_pos hz, if_pos (hab ▸ hz)]
        simpa using hab
      · rw [if_pos ⟨hz, hab⟩, if_neg hz, if_neg (hab ▸ hz), ih, hab, List.cons.injEq]
        exact ⟨fun h => ⟨rfl, h⟩, fun h => h.2⟩
    · rw [if_neg fun hc => hab hc.2]
      refine ⟨fun h => absurd (of_decide_eq_true h) hab, fun h => ?_⟩
      by_cases hz : a.get i = 0
      · rw [if_pos hz] at h
        by_cases hb : b.get i = 0
        · exact absurd (hz.trans hb.symm) hab
        · rw [if_neg hb] at h
          cases h
      · rw [if_neg hz] at h
        by_cases hb : b.get i = 0
        · rw [if_pos hb] at h
          cases h
        · rw [if_neg hb, List.cons.injEq] at h
          exact absurd h.1 hab

/-- `namecmp` compares the names up to a `0` or to `DIRSIZ` bytes. -/
theorem namecmp_iff (a b : Name) : namecmp a b = true ↔ a.cstr = b.cstr := by
  unfold namecmp Blk.cstr
  rw [strncmp_iff, List.range_eq_range']

theorem strncpyByte_eq {name : Name} {i : Nat} (h : ∀ j, j < i → name.get j ≠ 0) :
    strncpyByte name i = name.get i := by
  induction i with
  | zero => rfl
  | succ i ih =>
    unfold strncpyByte
    rw [ih fun j hj => h j (by omega), if_neg (h i (Nat.lt_succ_self i))]

theorem cstr_strncpy (name : Name) : (strncpy name).cstr = name.cstr :=
  Blk.cstr_congr fun k hk h => by rw [strncpy, Blk.get_ofFn _ hk, strncpyByte_eq h]

/-! ## Entries -/

def entryAt (f : Nat → Block) (k : Nat) : Dirent :=
  .ofBytes ((List.range DIRENTSZ).map fun o => fileByte f (DIRENTSZ * k + o))

theorem ofBytes_bytes (de : Dirent) : Dirent.ofBytes ((List.range DIRENTSZ).map de.bytes) = de := by
  have hget : ∀ o, o < DIRENTSZ → ((List.range DIRENTSZ).map de.bytes).getD o 0 = de.bytes o := by
    intro o ho
    simp [List.getD_eq_getElem?_getD, ho]
  unfold Dirent.ofBytes
  rw [hget 0 (by decide), hget 1 (by decide)]
  have hname : (Blk.ofFn fun i => ((List.range DIRENTSZ).map de.bytes).getD (2 + i) 0) = de.name := by
    refine Blk.ext_get fun i hi => ?_
    rw [Blk.get_ofFn _ hi, hget _ (by simp only [DIRENTSZ, DIRSIZ] at *; omega)]
    unfold Dirent.bytes
    rw [if_neg (by omega), Nat.add_sub_cancel_left]
  rw [hname]
  congr 1
  exact Blk.append_byteOf_short de.inum

/-- The table of a directory: the live entries, by name. -/
def dirTable (f : Nat → Block) (k : Nat) : Option (List Byte × Nat) :=
  if (entryAt f k).inum = 0 then none
  else some ((entryAt f k).name.cstr, (entryAt f k).inum.toNat)

theorem entryAt_patch (D : Nat → Nat → Block) (inum k : Nat) (src : Nat → Byte) (j : Nat) :
    entryAt (patch D inum (DIRENTSZ * k) DIRENTSZ src inum) j =
      if j = k then .ofBytes ((List.range DIRENTSZ).map src) else entryAt (D inum) j := by
  unfold entryAt
  by_cases hj : j = k
  · rw [if_pos hj]
    congr 1
    refine List.map_congr_left fun o ho => ?_
    rw [List.mem_range] at ho
    rw [fileByte_patch, hj, if_pos (by omega), Nat.add_sub_cancel_left]
  · rw [if_neg hj]
    congr 1
    refine List.map_congr_left fun o ho => ?_
    rw [List.mem_range] at ho
    rw [fileByte_patch, if_neg]
    simp only [DIRENTSZ] at *
    omega

/-! ## Reading -/

/-- The blocks of the file that `dp` is the entry of. -/
abbrev dirBlocks (sb : Superblock) (s : Kernel) (dp : Slot) : Nat → Block :=
  files sb s (s.icache dp).inum

/-- Number of entries of a directory. -/
def nslots (s : Kernel) (dp : Slot) : Nat := (s.icache dp).d.size.toNat / DIRENTSZ

/-- A well-formed directory: loaded, made of whole entries, and with no name twice.  That it has no
holes is part of `FsOk`. -/
structure Dir (sb : Superblock) (s : Kernel) (dp : Slot) : Prop where
  ok : FsOk sb none s
  loaded : Loaded s dp
  type : (s.icache dp).d.type = T_DIR
  whole : DIRENTSZ * nslots s dp = (s.icache dp).d.size.toNat
  distinct : Slots.Distinct (dirTable (dirBlocks sb s dp)) (nslots s dp)

/-- The map that the directory stands for: slot and inode number by name. -/
def dirMap (sb : Superblock) (s : Kernel) (dp : Slot) (name : Name) : Option (Nat × Nat) :=
  Slots.find (dirTable (dirBlocks sb s dp)) (nslots s dp) name.cstr

theorem dirMap_eq_some (h : Dir sb s dp) {name : Name} {k n : Nat} :
    dirMap sb s dp name = some (k, n) ↔ k < nslots s dp ∧
      (entryAt (dirBlocks sb s dp) k).inum ≠ 0 ∧
      (entryAt (dirBlocks sb s dp) k).name.cstr = name.cstr ∧
      (entryAt (dirBlocks sb s dp) k).inum.toNat = n := by
  unfold dirMap
  rw [h.distinct.find_eq_some]
  unfold dirTable
  simp

section Read

variable (h : Dir sb s dp)
include h

theorem Dir.inside {k : Nat} (hk : k < nslots s dp) :
    DIRENTSZ * k + DIRENTSZ ≤ (s.icache dp).d.size.toNat := by
  rw [← h.whole, ← Nat.mul_succ]
  exact Nat.mul_le_mul_left DIRENTSZ hk

theorem run_readDirent {k : Nat} (hk : k < nslots s dp) (e : Panic) :
    (readDirent sb me dp (DIRENTSZ * k) e).run s = .ok (entryAt (dirBlocks sb s dp) k) s := by
  have hle := h.inside hk
  have hlt := (s.icache dp).d.size.isLt
  have hspec : readSpec (dirBlocks sb s dp) (s.icache dp).d.size.toNat (DIRENTSZ * k) DIRENTSZ =
      some ((List.range DIRENTSZ).map fun o => fileByte (dirBlocks sb s dp) (DIRENTSZ * k + o)) := by
    unfold readSpec
    rw [if_neg (by omega), if_neg (by omega)]
  have hdev : (s.icache dp).d.type ≠ T_DEV := by
    rw [h.type]
    decide
  have hwp : wp (fun _ => False) (readDirent sb me dp (DIRENTSZ * k) e)
      (fun de t => de = entryAt (dirBlocks sb s dp) k ∧ t = s) s := by
    unfold readDirent
    rw [wp_bind]
    refine wp_readi h.ok h.loaded hdev ?_
    rw [hspec]
    show wp _ (if _ then _ else _) _ s
    rw [if_pos (by simp)]
    exact ⟨rfl, rfl⟩
  obtain ⟨de, t, hrun, hde, ht⟩ := wp_returns hwp
  rw [hrun, hde, ht]

def found (dev : Nat) (s : Kernel) : Option (Nat × Nat) → Res Panic (Option (Slot × Nat)) Kernel
  | none => .ok none s
  | some (k, n) => ((iget dev n).run s).bind fun ip t => .ok (some (ip, DIRENTSZ * k)) t

theorem run_dirlookupFrom (dev : Nat) (name : Name) (rounds k : Nat)
    (hk : k + rounds ≤ nslots s dp) :
    (dirlookupFrom sb me dp dev name rounds (DIRENTSZ * k)).run s =
      found dev s (Slots.findFrom (dirTable (dirBlocks sb s dp)) name.cstr k rounds) := by
  induction rounds generalizing k with
  | zero => rfl
  | succ rounds ih =>
    unfold dirlookupFrom Slots.findFrom
    rw [run_bind, run_readDirent h (by omega), Res.bind_ok]
    have hnext := ih (k + 1) (by omega)
    rw [Nat.mul_succ] at hnext
    by_cases hz : (entryAt (dirBlocks sb s dp) k).inum = 0
    · have ht : dirTable (dirBlocks sb s dp) k = none := if_pos hz
      rw [if_neg fun hc => hc.1 hz, ht]
      exact hnext
    · have ht : dirTable (dirBlocks sb s dp) k = some ((entryAt (dirBlocks sb s dp) k).name.cstr,
          (entryAt (dirBlocks sb s dp) k).inum.toNat) := if_neg hz
      rw [ht]
      by_cases hname : namecmp name (entryAt (dirBlocks sb s dp) k).name = true
      · rw [if_pos ⟨hz, hname⟩]
        have heq := (namecmp_iff _ _).1 hname
        dsimp only
        rw [if_pos heq.symm, run_bind]
        rfl
      · rw [if_neg fun hc => hname hc.2]
        have hne := fun heq => hname ((namecmp_iff _ _).2 heq)
        dsimp only
        rw [if_neg fun heq => hne heq.symm]
        exact hnext

theorem nents_eq : nents (s.icache dp).d.size = nslots s dp := by
  have hwhole := h.whole
  unfold nents
  unfold nslots at *
  simp only [DIRENTSZ] at *
  omega

theorem run_dirlookup (name : Name) : (dirlookup sb me dp name).run s =
    found ROOTDEV s (dirMap sb s dp name) := by
  have hdev := h.ok.dev dp h.loaded.1
  have hlook : (inode dp).run s = .ok (s.icache dp) s := run_atomic _ _ _
  unfold dirlookup
  rw [run_bind, hlook, Res.bind_ok, if_neg (not_not.2 h.type), nents_eq h, hdev]
  exact run_dirlookupFrom h ROOTDEV name (nslots s dp) 0 (by omega)

variable (me) in
theorem run_dirfreeFrom (rounds k : Nat) (hk : k + rounds ≤ nslots s dp) :
    (dirfreeFrom sb me dp rounds (DIRENTSZ * k)).run s =
      .ok (DIRENTSZ * Slots.firstFree (dirTable (dirBlocks sb s dp)) k rounds) s := by
  induction rounds generalizing k with
  | zero => rfl
  | succ rounds ih =>
    unfold dirfreeFrom Slots.firstFree
    rw [run_bind, run_readDirent h (by omega), Res.bind_ok]
    have hnext := ih (k + 1) (by omega)
    rw [Nat.mul_succ] at hnext
    by_cases hz : (entryAt (dirBlocks sb s dp) k).inum = 0
    · have ht : dirTable (dirBlocks sb s dp) k = none := if_pos hz
      rw [if_pos hz, if_pos (by rw [ht]; rfl)]
      rfl
    · have ht : dirTable (dirBlocks sb s dp) k ≠ none := by
        unfold dirTable
        rw [if_neg hz]
        simp
      rw [if_neg hz, if_neg (by simpa using ht)]
      exact hnext

end Read

/-! ## A name that is there already -/

/-- The entry of the inode cache that `iget` returns: the one of the inode, or the first unused. -/
def igetSlot (dev inum : Nat) (s : Kernel) : Option Slot :=
  match (List.finRange NINODE).find? fun i =>
    (s.icache i).ref > 0 && (s.icache i).dev == dev && (s.icache i).inum == inum with
  | some i => some i
  | none => (List.finRange NINODE).find? fun i => (s.icache i).ref == 0

/-- The entry after `iget`: a further reference, or the inode to be loaded. -/
def igot (dev inum : Nat) (x : Inode) : Inode :=
  if x.ref > 0 then { x with ref := x.ref + 1 }
  else { x with dev := dev, inum := inum, ref := 1, valid := false }

theorem igetSlot_cases {dev inum : Nat} {i : Slot} (h : igetSlot dev inum s = some i) :
    ((List.finRange NINODE).find? (fun i => (s.icache i).ref > 0 && (s.icache i).dev == dev &&
        (s.icache i).inum == inum) = some i ∧
      0 < (s.icache i).ref ∧ (s.icache i).dev = dev ∧ (s.icache i).inum = inum) ∨
    ((List.finRange NINODE).find? (fun i => (s.icache i).ref > 0 && (s.icache i).dev == dev &&
        (s.icache i).inum == inum) = none ∧
      (List.finRange NINODE).find? (fun i => (s.icache i).ref == 0) = some i ∧
      (s.icache i).ref = 0) := by
  unfold igetSlot at h
  cases hf : (List.finRange NINODE).find? fun i => (s.icache i).ref > 0 && (s.icache i).dev == dev &&
      (s.icache i).inum == inum with
  | some j =>
    rw [hf] at h
    cases h
    have hj := List.find?_some hf
    simp only [Bool.and_eq_true, decide_eq_true_eq, beq_iff_eq] at hj
    exact Or.inl ⟨rfl, hj.1.1, hj.1.2, hj.2⟩
  | none =>
    rw [hf] at h
    have hj := List.find?_some h
    rw [beq_iff_eq] at hj
    exact Or.inr ⟨rfl, h, hj⟩

theorem run_iget_none {dev inum : Nat} (h : igetSlot dev inum s = none) :
    (iget dev inum).run s = .panic .igetNoInodes := by
  unfold igetSlot at h
  unfold iget
  rw [run_atomic]
  dsimp only
  cases hf : (List.finRange NINODE).find? fun i => (s.icache i).ref > 0 && (s.icache i).dev == dev &&
      (s.icache i).inum == inum with
  | some j =>
    rw [hf] at h
    cases h
  | none =>
    rw [hf] at h
    dsimp only at h ⊢
    rw [h]

theorem run_iget_some {dev inum : Nat} {i : Slot} (h : igetSlot dev inum s = some i) :
    (iget dev inum).run s = .ok i (s.setInode i (igot dev inum (s.icache i))) ∧
      0 ≤ (s.icache i).ref := by
  unfold iget igot
  rw [run_atomic]
  dsimp only
  rcases igetSlot_cases h with ⟨hf, hpos, _, _⟩ | ⟨hf, hf', hz⟩
  · rw [hf, if_pos hpos]
    exact ⟨rfl, hpos.le⟩
  · rw [hf, if_neg (by omega)]
    dsimp only
    rw [hf']
    exact ⟨rfl, hz.ge⟩

theorem igot_of_igetSlot {dev inum : Nat} {i : Slot} (h : igetSlot dev inum s = some i) :
    (igot dev inum (s.icache i)).dev = dev ∧ (igot dev inum (s.icache i)).inum = inum := by
  unfold igot
  rcases igetSlot_cases h with ⟨_, hpos, hdev, hinum⟩ | ⟨_, _, hz⟩
  · rw [if_pos hpos]
    exact ⟨hdev, hinum⟩
  · rw [if_neg (by omega)]
    exact ⟨rfl, rfl⟩

theorem dirlookup_existing_iff (h : Dir sb s dp) {name : Name} {k n : Nat}
    (hk : dirMap sb s dp name = some (k, n)) :
    (∃ ip t, (dirlookup sb me dp name).run s = .ok (some (ip, DIRENTSZ * k)) t ∧
        (t.icache ip).dev = ROOTDEV ∧ (t.icache ip).inum = n ∧
        t = s.setInode ip (igot ROOTDEV n (s.icache ip))) ↔
      igetSlot ROOTDEV n s ≠ none := by
  have hrun : (dirlookup sb me dp name).run s = ((iget ROOTDEV n).run s).bind fun ip t =>
      .ok (some (ip, DIRENTSZ * k)) t := by
    rw [run_dirlookup h, hk]
    rfl
  rw [hrun]
  constructor
  · rintro ⟨ip, t, ht, _⟩ hnone
    rw [run_iget_none hnone] at ht
    cases ht
  · intro hne
    obtain ⟨i, hi⟩ := Option.ne_none_iff_exists'.1 hne
    obtain ⟨hdev, hinum⟩ := igot_of_igetSlot hi
    rw [(run_iget_some hi).1]
    refine ⟨i, _, rfl, ?_, ?_, rfl⟩
    · rw [Kernel.icache_setInode]
      exact hdev
    · rw [Kernel.icache_setInode]
      exact hinum

/-- Nothing changed but, maybe, the data of an entry of the cache that is not in use. -/
def Same (s s' : Kernel) : Prop :=
  ∃ i x, s' = s.setInode i x ∧ x.ref = (s.icache i).ref ∧ (0 < (s.icache i).ref → x = s.icache i)

/-- Dropping the reference again: it is not the last one to a loaded inode. -/
theorem run_iput_igot {dev inum : Nat} {i : Slot} (hlock : (s.icache i).lock = none)
    (href : 0 ≤ (s.icache i).ref) :
    ∃ t, (iput sb me i).run (s.setInode i (igot dev inum (s.icache i))) = .ok () t ∧ Same s t := by
  obtain ⟨x, hx⟩ : ∃ x, x = igot dev inum (s.icache i) := ⟨_, rfl⟩
  have hxlock : x.lock = none := by
    rw [hx, igot]
    split <;> exact hlock
  have hkeep : ¬ Frees (s.setInode i x) i := by
    rintro ⟨hv, _, hone⟩
    rw [Kernel.icache_setInode] at hv hone
    rw [hx, igot] at hv hone
    split at hv
    · next hpos =>
      rw [if_pos hpos] at hone
      simp only at hone
      omega
    · cases hv
  have hxref : x.ref - 1 = (s.icache i).ref := by
    rw [hx, igot]
    split
    · simp
    · simp; omega
  have hxpos : 0 < (s.icache i).ref → { x with ref := x.ref - 1 } = s.icache i := by
    intro hpos
    rw [hx, igot, if_pos hpos]
    simp
  refine ⟨dropped (s.setInode i x) i, ?_, i, { x with ref := x.ref - 1 }, ?_, hxref, hxpos⟩
  · rw [← hx]
    exact run_iput_keep (by rw [Kernel.icache_setInode, hxlock]) hkeep
  · unfold dropped
    rw [Kernel.icache_setInode, Kernel.setInode_setInode]

theorem run_iput_locked {i : Slot} {x : Inode} {p : Pid} (hlock : x.lock = some p) :
    (iput sb me i).run (s.setInode i x) = .sleep := by
  unfold iput acquiresleep
  rw [run_bind, run_atomic, Kernel.icache_setInode, hlock]
  rfl

theorem run_dirlink_existing (h : Dir sb s dp) {name : Name} (inum : Nat) {k n : Nat}
    (hk : dirMap sb s dp name = some (k, n)) :
    (dirlink sb me dp name inum).run s = ((iget ROOTDEV n).run s).bind fun ip t =>
      ((iput sb me ip).run t).bind fun _ u => .ok (-1) u := by
  unfold dirlink
  rw [run_bind, run_dirlookup h, hk]
  show (((iget ROOTDEV n).run s).bind fun ip t => _).bind _ = _
  cases (iget ROOTDEV n).run s with
  | ok ip t =>
    simp only [Res.bind_ok, run_bind]
    rfl
  | panic e => rfl
  | sleep => rfl

theorem run_dirlink_locked (h : Dir sb s dp) {name : Name} (inum : Nat) {k n : Nat} {i : Slot}
    {p : Pid} (hk : dirMap sb s dp name = some (k, n)) (hi : igetSlot ROOTDEV n s = some i)
    (hlock : (s.icache i).lock = some p) : (dirlink sb me dp name inum).run s = .sleep := by
  have hgot : (igot ROOTDEV n (s.icache i)).lock = some p := by
    unfold igot
    split <;> exact hlock
  rw [run_dirlink_existing h inum hk, (run_iget_some hi).1, Res.bind_ok, run_iput_locked hgot]
  rfl

theorem dirlink_existing_iff (h : Dir sb s dp) {name : Name} (inum : Nat) {k n : Nat}
    (hk : dirMap sb s dp name = some (k, n)) :
    (∃ t, (dirlink sb me dp name inum).run s = .ok (-1) t ∧ Same s t) ↔
      ∃ i, igetSlot ROOTDEV n s = some i ∧ (s.icache i).lock = none := by
  cases hslot : igetSlot ROOTDEV n s with
  | none =>
    rw [run_dirlink_existing h inum hk, run_iget_none hslot]
    constructor
    · rintro ⟨_, hc, _⟩
      cases hc
    · rintro ⟨_, hc, _⟩
      cases hc
  | some i =>
    constructor
    · rintro ⟨t, ht, _⟩
      refine ⟨i, rfl, ?_⟩
      by_contra hne
      obtain ⟨p, hp⟩ := Option.ne_none_iff_exists'.1 hne
      rw [run_dirlink_locked h inum hk hslot hp] at ht
      cases ht
    · rintro ⟨j, hj, hlock⟩
      cases hj
      obtain ⟨hget, href⟩ := run_iget_some hslot
      obtain ⟨t, ht, hsame⟩ := run_iput_igot hlock href
      rw [run_dirlink_existing h inum hk, hget, Res.bind_ok, ht]
      exact ⟨t, rfl, hsame⟩

/-! ## Writing an entry -/

/-- The blocks that are logged when the entry of slot `k` is written. -/
def entryLog (sb : Superblock) (me : Pid) (dp : Slot) (src : Nat → Byte) (k : Nat) (s : Kernel) :
    List Nat := blocksLogged (writei sb me dp src (DIRENTSZ * k) DIRENTSZ) s

/-- The log inside a transaction that has not used its reservation. -/
structure TxRoom (l : Log) : Prop where
  tx : 1 ≤ l.outstanding
  lh : l.lh.length + MAXOPBLOCKS ≤ LOGSIZE
  size : LOGSIZE ≤ l.size

theorem TxRoom.hasRoom (hw : sb.WF) (h : Dir sb s dp) (hl : TxRoom s.log) (k : Nat)
    (src : Nat → Byte) : HasRoom s.log (entryLog sb me dp src k s) := by
  have hcard : (blocksLogged (writei sb me dp src (DIRENTSZ * k) DIRENTSZ) s).toFinset.card ≤
      writeCost sb dp s (DIRENTSZ * k) DIRENTSZ + 3 := card_writei _ hw h.ok h.loaded _ _ src
  have hcost : writeCost sb dp s (DIRENTSZ * k) DIRENTSZ ≤ 2 := by
    have hone : (DIRENTSZ * k % BSIZE + DIRENTSZ - 1) / BSIZE = 0 := by
      simp only [DIRENTSZ, BSIZE]
      omega
    unfold writeCost
    rw [if_neg (by decide), hone]
    split <;> omega
  have h1 := hl.lh
  have h2 := hl.size
  simp only [MAXOPBLOCKS, LOGSIZE] at h1 h2
  unfold entryLog
  refine .of_card hl.tx ?_ ?_
  · show _ < 30
    omega
  · omega

structure WroteEntry (sb : Superblock) (dp : Slot) (k : Nat) (src : Nat → Byte) (s t : Kernel) :
    Prop where
  ok : FsOk sb none t
  loaded : Loaded t dp
  type : (t.icache dp).d.type = T_DIR
  inum : (t.icache dp).inum = (s.icache dp).inum
  whole : DIRENTSZ * nslots t dp = (t.icache dp).d.size.toNat
  put : Slots.Put (dirTable (dirBlocks sb s dp)) (dirTable (dirBlocks sb t dp)) (nslots s dp)
    (nslots t dp) k
    (let de := Dirent.ofBytes ((List.range DIRENTSZ).map src)
     if de.inum = 0 then none else some (de.name.cstr, de.inum.toNat))

theorem Wrote.entry (h : Dir sb s dp) {k : Nat} {src : Nat → Byte} {t : Kernel}
    (hk : k ≤ nslots s dp) (hfit : DIRENTSZ * k + DIRENTSZ ≤ MAXFILE * BSIZE)
    (hwr : Wrote sb dp (DIRENTSZ * k) DIRENTSZ src s t) : WroteEntry sb dp k src s t := by
  obtain ⟨d, blk, l, hframe⟩ := hwr.frame
  have hinum : (t.icache dp).inum = (s.icache dp).inum := by
    rw [hframe]
    exact withD_inum d dp
  have hsize : (t.icache dp).d.size.toNat =
      max (s.icache dp).d.size.toNat (DIRENTSZ * k + DIRENTSZ) := by
    have hlt := (s.icache dp).d.size.isLt
    have hmax : MAXFILE * BSIZE < 2 ^ 32 := by decide
    rw [hwr.fields]
    exact Nat.mod_eq_of_lt (by omega)
  have hn : nslots t dp = max (nslots s dp) (k + 1) := by
    have hwhole := h.whole
    unfold nslots at *
    rw [hsize]
    simp only [DIRENTSZ] at *
    omega
  have hentry : ∀ j, entryAt (dirBlocks sb t dp) j =
      if j = k then .ofBytes ((List.range DIRENTSZ).map src) else entryAt (dirBlocks sb s dp) j := by
    intro j
    unfold dirBlocks
    rw [hinum, hwr.data, entryAt_patch]
  refine ⟨hwr.ok, ?_, ?_, hinum, ?_, ⟨hk, hn, ?_, fun j _ hj => ?_⟩⟩
  · rw [hframe]
    exact ⟨(withD_ref d dp).symm ▸ h.loaded.1, (withD_valid d dp).symm ▸ h.loaded.2⟩
  · rw [hwr.fields]
    exact h.type
  · have hwhole := h.whole
    rw [hn, hsize, ← hwhole]
    simp only [DIRENTSZ]
    omega
  · unfold dirTable
    rw [hentry, if_pos rfl]
  · unfold dirTable
    rw [hentry, if_neg hj]

variable (me) in
theorem writei_entry_iff (hw : sb.WF) (h : Dir sb s dp) {k : Nat} (src : Nat → Byte)
    (hk : k ≤ nslots s dp) (hfit : DIRENTSZ * k + DIRENTSZ ≤ MAXFILE * BSIZE)
    (hfree : Enough sb (touched (DIRENTSZ * k) DIRENTSZ) (s.icache dp).inum s) :
    (∃ t, (writei sb me dp src (DIRENTSZ * k) DIRENTSZ).run s = .ok DIRENTSZ t ∧
      WroteEntry sb dp k src s t) ↔ HasRoom s.log (entryLog sb me dp src k s) := by
  have hmax : MAXFILE * BSIZE < 2 ^ 32 := by decide
  have hfits : Fits (s.icache dp).d.size.toNat (DIRENTSZ * k) DIRENTSZ := by
    refine ⟨?_, by omega, hfit⟩
    rw [← h.whole]
    exact Nat.mul_le_mul_left _ hk
  have hdev : (s.icache dp).d.type ≠ T_DEV := by
    rw [h.type]
    decide
  have hiff := writei_iff me src hw h.ok h.loaded hdev (by omega) (by decide) hfits hfree
  refine Iff.trans ⟨?_, ?_⟩ hiff
  · rintro ⟨t, hrun, -⟩
    exact hiff.2 ((Listed.writei src _ _).room s _ t hrun)
  · rintro ⟨t, hrun, ht⟩
    exact ⟨t, hrun, ht.entry h hk hfit⟩

/-! ## A new name, and a name taken away -/

/-- A file ends within its last block. -/
theorem FsOk.size_le (h : FsOk sb none s) (hi : Loaded s dp) :
    (s.icache dp).d.size.toNat ≤ MAXFILE * BSIZE := by
  by_contra hlt
  obtain ⟨hk, _⟩ := h.refAt_of_lt hi (Nat.lt_of_not_le hlt)
  exact lt_irrefl _ hk

/-- A write inside the file needs no further block. -/
theorem Enough.inside {off n : Nat} (h : FsOk sb none s) (hi : Loaded s dp)
    (hle : off + n ≤ (s.icache dp).d.size.toNat) :
    Enough sb (touched off n) (s.icache dp).inum s := by
  have hfilled : ∀ k, k * BSIZE < off + n → ∃ b, refAt sb dp s (place k) = some b := by
    intro k hk
    obtain ⟨_, b, hb, _⟩ := h.refAt_of_lt hi (Nat.lt_of_lt_of_le hk hle)
    exact ⟨b, hb⟩
  have hnone : ∀ p ∈ touched off n, refAt sb dp s p ≠ none := by
    intro p hp
    unfold touched at hp
    split at hp
    · simp at hp
    rcases Finset.mem_union.1 hp with hp | hp
    · obtain ⟨k, hk, rfl⟩ := Finset.mem_image.1 hp
      obtain ⟨b, hb⟩ := hfilled k (Finset.mem_filter.1 hk).2.2
      rw [hb]
      simp
    · split at hp
      · next hlt =>
        -- the first block behind the indirect one is there
        rw [Finset.mem_singleton.1 hp]
        obtain ⟨b, hb⟩ := hfilled NDIRECT hlt
        obtain ⟨ind, hind⟩ := indirect_of_entry (by decide) hb
        rw [hind]
        simp
      · simp at hp
  unfold Enough
  rw [Finset.filter_false_of_mem, Finset.card_empty]
  · exact Nat.zero_le _
  · intro p hp hz
    refine hnone p hp ?_
    unfold refAt
    rw [h.vol_dirty hi]
    exact hz

/-- The slot that `dirlink` fills: the first unused one, or a new one at the end. -/
def freeSlot (sb : Superblock) (s : Kernel) (dp : Slot) : Nat :=
  Slots.firstFree (dirTable (dirBlocks sb s dp)) 0 (nslots s dp)

theorem freeSlot_spec (sb : Superblock) (s : Kernel) (dp : Slot) : freeSlot sb s dp ≤ nslots s dp ∧
    (freeSlot sb s dp < nslots s dp →
      dirTable (dirBlocks sb s dp) (freeSlot sb s dp) = none) := by
  have hspec := Slots.firstFree_spec (dirTable (dirBlocks sb s dp)) 0 (nslots s dp)
  rw [Nat.zero_add] at hspec
  exact hspec.2

/-- The directory is not full: the slot lies within the largest file, and the disk has the blocks
that it needs. -/
structure NotFull (sb : Superblock) (s : Kernel) (dp : Slot) : Prop where
  fits : DIRENTSZ * freeSlot sb s dp + DIRENTSZ ≤ MAXFILE * BSIZE
  blocks : Enough sb (touched (DIRENTSZ * freeSlot sb s dp) DIRENTSZ) (s.icache dp).inum s

theorem WroteEntry.dir {k : Nat} {src : Nat → Byte} {t : Kernel}
    (hwr : WroteEntry sb dp k src s t)
    (hdist : Slots.Distinct (dirTable (dirBlocks sb t dp)) (nslots t dp)) : Dir sb t dp :=
  ⟨hwr.ok, hwr.loaded, hwr.type, hwr.whole, hdist⟩

theorem run_dirlink_new (h : Dir sb s dp) {name : Name} {inum : Nat}
    (hnone : dirMap sb s dp name = none) : (dirlink sb me dp name inum).run s =
      ((writei sb me dp (Dirent.bytes ⟨BitVec.ofNat 16 inum, strncpy name⟩)
        (DIRENTSZ * freeSlot sb s dp) DIRENTSZ).run s).bind fun r t =>
          if r ≠ DIRENTSZ then .panic .dirlink else .ok 0 t := by
  have hfound : found ROOTDEV s none = .ok none s := rfl
  have hlook : (inode dp).run s = .ok (s.icache dp) s := run_atomic _ _ _
  have hscan := run_dirfreeFrom me h (nslots s dp) 0 (by omega)
  rw [Nat.mul_zero] at hscan
  unfold dirlink
  rw [run_bind, run_dirlookup h, hnone, hfound, Res.bind_ok]
  dsimp only
  rw [run_bind, hlook, Res.bind_ok, run_bind, nents_eq h, hscan, Res.bind_ok, run_bind]
  congr 1
  funext r t
  by_cases hr : r = DIRENTSZ
  · rw [if_neg (not_not.2 hr), if_neg (not_not.2 hr)]
    rfl
  · rw [if_pos hr, if_pos hr]
    rfl

/-- A name that is not there gets the first unused slot. -/
theorem WroteEntry.insert (h : Dir sb s dp) {name : Name} {inum : Nat} (hpos : 0 < inum)
    (hlt : inum < 2 ^ 16) (hnone : dirMap sb s dp name = none) {t : Kernel}
    (hwr : WroteEntry sb dp (freeSlot sb s dp)
      (Dirent.bytes ⟨BitVec.ofNat 16 inum, strncpy name⟩) s t) :
    Dir sb t dp ∧ dirMap sb t dp name = some (freeSlot sb s dp, inum) ∧
      ∀ name' : Name, name'.cstr ≠ name.cstr → dirMap sb t dp name' = dirMap sb s dp name' := by
  obtain ⟨de, hde⟩ : ∃ de : Dirent, de = ⟨BitVec.ofNat 16 inum, strncpy name⟩ := ⟨_, rfl⟩
  rw [← hde] at hwr
  have hinum : de.inum.toNat = inum := by
    rw [hde, BitVec.toNat_ofNat, Nat.mod_eq_of_lt hlt]
  have hne : de.inum ≠ 0 := by
    intro hz
    rw [hz] at hinum
    exact hpos.ne hinum
  have hput := hwr.put
  dsimp only at hput
  rw [ofBytes_bytes, if_neg hne, hinum, hde, cstr_strncpy] at hput
  have hdist := hput.distinct_insert h.distinct hnone
  refine ⟨hwr.dir hdist, hput.find_insert h.distinct hnone, fun name' hname => ?_⟩
  -- the slot was unused, and the new pair has another name
  refine hput.find_ne h.distinct hdist (fun hi w => ?_) fun w hw => ?_
  · rw [(freeSlot_spec sb s dp).2 hi]
    simp
  · exact hname (Prod.mk.inj (Option.some.inj hw)).1.symm

theorem dirlink_new_iff (hw : sb.WF) (h : Dir sb s dp) (hfull : NotFull sb s dp) {name : Name}
    (inum : Nat) (hnone : dirMap sb s dp name = none) :
    (∃ t, (dirlink sb me dp name inum).run s = .ok 0 t ∧ Dir sb t dp ∧
      dirMap sb t dp name = some (freeSlot sb s dp, inum) ∧
      ∀ name' : Name, name'.cstr ≠ name.cstr → dirMap sb t dp name' = dirMap sb s dp name') ↔
    0 < inum ∧ inum < 2 ^ 16 ∧ HasRoom s.log
      (entryLog sb me dp (Dirent.bytes ⟨BitVec.ofNat 16 inum, strncpy name⟩) (freeSlot sb s dp) s) := by
  rw [run_dirlink_new h hnone]
  constructor
  · rintro ⟨t, hrun, hdir, hmap, -⟩
    obtain ⟨-, hne, -, rfl⟩ := (dirMap_eq_some hdir).1 hmap
    obtain ⟨r, t', hr, -⟩ := Res.bind_eq_ok.1 hrun
    refine ⟨Nat.pos_of_ne_zero fun hz => hne (BitVec.eq_of_toNat_eq hz), BitVec.isLt _, ?_⟩
    exact (Listed.writei _ _ _).room s r t' hr
  · rintro ⟨hpos, hlt, hroom⟩
    obtain ⟨t, hrun, hwr⟩ := (writei_entry_iff me hw h _ (freeSlot_spec sb s dp).1 hfull.fits
      hfull.blocks).2 hroom
    exact ⟨t, by rw [hrun]; rfl, hwr.insert h hpos hlt hnone⟩

theorem unlink_entry_iff (hw : sb.WF) (h : Dir sb s dp) {name : Name} {k n : Nat}
    (hk : dirMap sb s dp name = some (k, n)) :
    (∃ t, (writei sb me dp (fun _ => 0) (DIRENTSZ * k) DIRENTSZ).run s = .ok DIRENTSZ t ∧
      Dir sb t dp ∧ dirMap sb t dp name = none ∧
      ∀ name' : Name, name'.cstr ≠ name.cstr → dirMap sb t dp name' = dirMap sb s dp name') ↔
    HasRoom s.log (entryLog sb me dp (fun _ => 0) k s) := by
  obtain ⟨hlt, hslot⟩ := h.distinct.find_eq_some.1 hk
  have hle : DIRENTSZ * k + DIRENTSZ ≤ (s.icache dp).d.size.toNat := h.inside hlt
  have hfit := hle.trans (h.ok.size_le h.loaded)
  constructor
  · rintro ⟨t, hrun, -⟩
    exact (Listed.writei _ _ _).room s _ t hrun
  · intro hroom
    obtain ⟨t, hrun, hwr⟩ := (writei_entry_iff me hw h (fun _ => 0) hlt.le hfit
      (.inside h.ok h.loaded hle)).2 hroom
    have hput := hwr.put
    have hzero : (Dirent.ofBytes ((List.range DIRENTSZ).map fun _ => 0)).inum = 0 := by decide
    dsimp only at hput
    rw [if_pos hzero] at hput
    have hdist := hput.distinct_erase h.distinct
    refine ⟨t, hrun, hwr.dir hdist, hput.find_erase h.distinct hk, fun name' hname => ?_⟩
    refine hput.find_ne h.distinct hdist (fun _ w hw => ?_) fun w hw => by cases hw
    rw [hslot] at hw
    exact hname (Prod.mk.inj (Option.some.inj hw)).1.symm

variable (me) in
/-- A directory is a finite map from names to inode numbers.  `dirlookup` reads it; `dirlink` refuses
a name that is there, if it can take and drop its inode again; it adds a name that is not there, and
zeroing an entry takes its name away, if the log has room for the blocks of the write. -/
theorem directory_is_map (hw : sb.WF) (h : Dir sb s dp) (name : Name) :
    (∀ k n, dirMap sb s dp name = some (k, n) ↔ k < nslots s dp ∧
      (entryAt (dirBlocks sb s dp) k).inum ≠ 0 ∧
      (entryAt (dirBlocks sb s dp) k).name.cstr = name.cstr ∧
      (entryAt (dirBlocks sb s dp) k).inum.toNat = n) ∧
    (dirMap sb s dp name = none → (dirlookup sb me dp name).run s = .ok none s) ∧
    (∀ k n, dirMap sb s dp name = some (k, n) →
      ((∃ ip t, (dirlookup sb me dp name).run s = .ok (some (ip, DIRENTSZ * k)) t ∧
          (t.icache ip).dev = ROOTDEV ∧ (t.icache ip).inum = n ∧
          t = s.setInode ip (igot ROOTDEV n (s.icache ip))) ↔
        igetSlot ROOTDEV n s ≠ none) ∧
      (∀ inum, (∃ t, (dirlink sb me dp name inum).run s = .ok (-1) t ∧ Same s t) ↔
        ∃ i, igetSlot ROOTDEV n s = some i ∧ (s.icache i).lock = none) ∧
      ((∃ t, (writei sb me dp (fun _ => 0) (DIRENTSZ * k) DIRENTSZ).run s = .ok DIRENTSZ t ∧
          Dir sb t dp ∧ dirMap sb t dp name = none ∧
          ∀ name' : Name, name'.cstr ≠ name.cstr →
            dirMap sb t dp name' = dirMap sb s dp name') ↔
        HasRoom s.log (entryLog sb me dp (fun _ => 0) k s))) ∧
    (dirMap sb s dp name = none → NotFull sb s dp → ∀ inum,
      (∃ t, (dirlink sb me dp name inum).run s = .ok 0 t ∧ Dir sb t dp ∧
          dirMap sb t dp name = some (freeSlot sb s dp, inum) ∧
          ∀ name' : Name, name'.cstr ≠ name.cstr →
            dirMap sb t dp name' = dirMap sb s dp name') ↔
      0 < inum ∧ inum < 2 ^ 16 ∧ HasRoom s.log
        (entryLog sb me dp (Dirent.bytes ⟨BitVec.ofNat 16 inum, strncpy name⟩)
          (freeSlot sb s dp) s)) ∧
    (TxRoom s.log → ∀ src k, HasRoom s.log (entryLog sb me dp src k s)) := by
  refine ⟨fun k n => dirMap_eq_some h, fun hnone => ?_, fun k n hk => ⟨?_, fun inum => ?_, ?_⟩,
    fun hnone hfull inum => ?_, fun hl src k => hl.hasRoom hw h k src⟩
  · rw [run_dirlookup h, hnone]
    rfl
  · exact dirlookup_existing_iff h hk
  · exact dirlink_existing_iff h inum hk
  · exact unlink_entry_iff hw h hk
  · exact dirlink_new_iff hw h hfull inum hnone

/-! ## The root directory -/

/-- A fresh system whose first process is in a transaction and has locked the root directory (entry 0
of the inode cache). -/
def rootLocked : Res Panic Unit Kernel :=
  freshBoot.bind fun _ s => (do
    beginOp
    ilock mkfsSb initproc 0).run s

/-- What is to be known of such a state. -/
def rootReady (s : Kernel) : Bool :=
  fsck mkfsSb s && decide (0 < (s.icache 0).ref) && (s.icache 0).valid &&
    decide ((s.icache 0).d.type = T_DIR) && decide ((s.icache 0).d.size.toNat = BSIZE) &&
    decide ((s.icache 0).lock = some initproc) &&
    decide (((List.range 32).filterMap fun k =>
      (dirTable (dirBlocks mkfsSb s 0) k).map Prod.fst).Nodup) &&
    decide (dirMap mkfsSb s 0 dot = some (0, 1)) && decide (igetSlot ROOTDEV 1 s = some 0) &&
    decide (dirMap mkfsSb s 0 (nameOf [102]) = none) && decide (freeSlot mkfsSb s 0 = 2) &&
    decide (s.log.outstanding = 1) && decide (s.log.lh = []) && decide (s.log.size = LOGSIZE)

theorem rootLocked_facts : ∃ s, rootLocked = .ok () s ∧ Dir mkfsSb s 0 ∧ TxRoom s.log ∧
    NotFull mkfsSb s 0 ∧ freeSlot mkfsSb s 0 = 2 ∧ dirMap mkfsSb s 0 (nameOf [102]) = none ∧
    dirMap mkfsSb s 0 dot = some (0, 1) ∧ igetSlot ROOTDEV 1 s = some 0 ∧
    (s.icache 0).lock = some initproc := by
  have hready : (rootLocked.bind fun _ s => (.ok (rootReady s) () : Res Panic Bool Unit)) =
      .ok true () := by decide +kernel
  obtain ⟨_, s, hs, hf⟩ := Res.bind_eq_ok.1 hready
  have h : rootReady s = true := by simpa using hf
  simp only [rootReady, Bool.and_eq_true, decide_eq_true_eq] at h
  obtain ⟨⟨⟨⟨⟨⟨⟨⟨⟨⟨⟨⟨⟨hck, href⟩, hv⟩, ht⟩, hsize⟩, hlock⟩, hdist⟩, hdot⟩, hslot⟩, hnew⟩, hfree⟩, ho⟩,
    hlh⟩, hls⟩ := h
  have hn : nslots s 0 = 32 := by
    unfold nslots
    rw [hsize]
    rfl
  have hdir : Dir mkfsSb s 0 := by
    refine ⟨fsOk_of_fsck (by decide) hck, ⟨href, hv⟩, ht, ?_, ?_⟩
    · rw [hn, hsize]
      rfl
    · rw [hn]
      exact Slots.distinct_of_nodup hdist
  refine ⟨s, hs, hdir, ⟨by omega, ?_, by omega⟩, ⟨?_, ?_⟩, hfree, hnew, hdot, hslot, hlock⟩
  · rw [hlh]
    decide
  · rw [hfree]
    decide
  · rw [hfree]
    exact .inside hdir.ok hdir.loaded (by rw [hsize]; decide)

/-- A file is linked into the root directory. -/
theorem directory_is_map_root : ∃ s t, rootLocked = .ok () s ∧ Dir mkfsSb s 0 ∧
    (dirlink mkfsSb initproc 0 (nameOf [102]) 5).run s = .ok 0 t ∧
    dirMap mkfsSb t 0 (nameOf [102]) = some (2, 5) ∧ dirMap mkfsSb t 0 dot = some (0, 1) := by
  obtain ⟨s, hs, hdir, hl, hfull, hfree, hnew, hdot, _⟩ := rootLocked_facts
  have hmap := directory_is_map initproc mkfsSb_wf hdir (nameOf [102])
  obtain ⟨t, hrun, _, hself, hother⟩ := (hmap.2.2.2.1 hnew hfull 5).2
    ⟨by decide, by decide, hmap.2.2.2.2 hl _ _⟩
  rw [hfree] at hself
  exact ⟨s, t, hs, hdir, hrun, hself, by rw [hother dot (by decide), hdot]⟩

/-- Linking `.` into a directory that the caller has locked, as `sys_link` has: the entry is there,
and `dirlink` waits for the lock of its own caller. -/
theorem dirlink_dot_sleeps : ∃ s, rootLocked = .ok () s ∧ Dir mkfsSb s 0 ∧ TxRoom s.log ∧
    NotFull mkfsSb s 0 ∧ dirMap mkfsSb s 0 dot = some (0, 1) ∧
    (s.icache 0).lock = some initproc ∧ (dirlink mkfsSb initproc 0 dot 5).run s = .sleep := by
  obtain ⟨s, hs, hdir, hl, hfull, _, _, hdot, hslot, hlock⟩ := rootLocked_facts
  exact ⟨s, hs, hdir, hl, hfull, hdot, hlock, run_dirlink_locked hdir 5 hdot hslot hlock⟩

end Xv6.Fs
