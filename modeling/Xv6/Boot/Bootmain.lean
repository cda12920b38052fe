import Xv6.Boot.Mp

/-!
# The boot loader

`bootmain` reads the first page of the kernel's ELF file to a scratch area, and from there the program
headers: for each it reads the segment from the disk and clears the rest of its memory.  `readseg` reads
whole sectors, so it may write behind the segment; the segments that lie there are loaded later, and are
loaded whole.

That goes wrong only at the end of the address space.  If the last sector of a segment ends there or
beyond, the pointer wraps before it reaches the end of the segment, and the loop of `readseg` does not end;
or the end of the segment itself wraps to 0 and nothing is read.
-/

namespace Xv6.Boot

open Bytes

abbrev SECTSIZE : Nat := 512
abbrev ELF_MAGIC : Word := 0x464C457F

/-- Where `bootmain` puts the first page of the file. -/
abbrev SCRATCH : Word := 0x10000

/-- The disk, byte by byte. -/
abbrev Disk := Nat → Byte

def placed (disk : Disk) (o : Nat) (m : Ram) (pa : Word) (n : Nat) : Ram :=
  fun a => if (a - pa).toNat < n then disk (o + (a - pa).toNat) else m a

/-- Read a single sector.  The drive gets 28 bits of its number. -/
def readsect (disk : Disk) (m : Ram) (dst offset : Word) : Ram :=
  placed disk (offset.toNat % 2 ^ 28 * SECTSIZE) m dst SECTSIZE

def readsegFrom (disk : Disk) (epa : Word) : Nat → Ram → Word → Word → Option Ram
  | 0, _, _, _ => none
  | rounds + 1, m, pa, offset =>
    if pa < epa then
      readsegFrom disk epa rounds (readsect disk m pa offset) (pa + BitVec.ofNat 32 SECTSIZE) (offset + 1)
    else some m

def readseg (disk : Disk) (rounds : Nat) (m : Ram) (pa count offset : Word) : Option Ram :=
  readsegFrom disk (pa + count) rounds m (pa - offset % BitVec.ofNat 32 SECTSIZE)
    (offset / BitVec.ofNat 32 SECTSIZE + 1)

def stosb (m : Ram) (addr : Word) (data : Byte) (cnt : Word) : Ram :=
  fun a => if (a - addr).toNat < cnt.toNat then data else m a

/-- The fields of a program header that are used. -/
structure Proghdr where
  off : Word
  paddr : Word
  filesz : Word
  memsz : Word
deriving DecidableEq

def proghdrAt (m : Ram) (ph : Word) : Proghdr :=
  ⟨uintAt m (ph + 4), uintAt m (ph + 12), uintAt m (ph + 16), uintAt m (ph + 20)⟩

def clear (m : Ram) (pa : Word) (ph : Proghdr) : Ram :=
  if ph.filesz < ph.memsz then stosb m (pa + ph.filesz) 0 (ph.memsz - ph.filesz) else m

/-- The loop of `bootmain`: the headers are read from memory each time they are used. -/
def loadFrom (disk : Disk) (eph : Word) (rounds : Nat) : Nat → Ram → Word → Option Ram
  | 0, _, _ => none
  | n + 1, m, ph =>
    if ph < eph then
      let pa := (proghdrAt m ph).paddr
      (readseg disk rounds m pa (proghdrAt m ph).filesz (proghdrAt m ph).off).bind fun m =>
        loadFrom disk eph rounds n (clear m pa (proghdrAt m ph)) (ph + 32)
    else some m

/-- `bootmain`: `some none` if it returns, because the file is no ELF file, and otherwise the entry point
and memory. -/
def bootmain (disk : Disk) (rounds : Nat) (m : Ram) : Option (Option (Word × Ram)) :=
  (readseg disk rounds m SCRATCH 4096 0).bind fun m =>
    if uintAt m SCRATCH ≠ ELF_MAGIC then some none
    else
      let ph := SCRATCH + uintAt m (SCRATCH + 28)
      let eph := ph + 32 * (ushortAt m (SCRATCH + 44)).setWidth 32
      (loadFrom disk eph rounds rounds m ph).map fun m => some (uintAt m (SCRATCH + 24), m)

/-! ## Distances -/

variable {disk : Disk} {m : Ram} {a pa : Word}

theorem toNat_sub_add (a p x : Word) : (a - (p + x)).toNat =
    if x.toNat ≤ (a - p).toNat then (a - p).toNat - x.toNat
    else 2 ^ 32 + (a - p).toNat - x.toNat := by
  have h₁ := x.isLt
  have h₂ := (a - p).isLt
  rw [show a - (p + x) = a - p - x by abel, BitVec.toNat_sub]
  split <;> omega

/-- The distance to an address from one that is not above it, and from one that is. -/
theorem toNat_dist (a p : Word) :
    (a - p).toNat = if p.toNat ≤ a.toNat then a.toNat - p.toNat else 2 ^ 32 + a.toNat - p.toNat := by
  have h₁ := a.isLt
  have h₂ := p.isLt
  rw [BitVec.toNat_sub]
  split <;> omega

theorem placed_append {o n₁ n₂ : Nat} (h : n₁ + n₂ ≤ 2 ^ 32) (h₁ : n₁ < 2 ^ 32) :
    placed disk (o + n₁) (placed disk o m pa n₁) (pa + BitVec.ofNat 32 n₁) n₂ =
      placed disk o m pa (n₁ + n₂) := by
  funext a
  have hx : (BitVec.ofNat 32 n₁).toNat = n₁ := by
    rw [BitVec.toNat_ofNat, Nat.mod_eq_of_lt h₁]
  have hd := toNat_sub_add a pa (BitVec.ofNat 32 n₁)
  have hlt := (a - pa).isLt
  rw [hx] at hd
  simp only [placed]
  by_cases hin : n₁ ≤ (a - pa).toNat
  · rw [if_pos hin] at hd
    rw [hd]
    by_cases hend : (a - pa).toNat < n₁ + n₂
    · rw [if_pos (by omega), if_pos hend]
      congr 1
      omega
    · rw [if_neg (by omega), if_neg (by omega), if_neg hend]
  · rw [if_neg hin] at hd
    rw [hd, if_neg (by omega), if_pos (by omega), if_pos (by omega)]

/-! ## One segment -/

/-- The sectors that a segment takes up. -/
def Proghdr.sectors (s : Proghdr) : Nat := (s.filesz.toNat + 511) / 512

theorem readsect_eq {offset : Word} (h : offset.toNat < 2 ^ 28) :
    readsect disk m pa offset = placed disk (offset.toNat * 512) m pa 512 := by
  rw [readsect, Nat.mod_eq_of_lt h]

theorem readsegFrom_succ {epa offset : Word} {rounds : Nat} :
    readsegFrom disk epa (rounds + 1) m pa offset =
      if pa < epa then
        readsegFrom disk epa rounds (readsect disk m pa offset) (pa + BitVec.ofNat 32 512) (offset + 1)
      else some m := rfl

theorem readsegFrom_eq {epa offset : Word} {n : Nat} (hpa : pa.toNat + 512 * n < 2 ^ 32)
    (hoff : offset.toNat + n ≤ 2 ^ 28) (hlo : ∀ i < n, pa.toNat + 512 * i < epa.toNat)
    (hhi : epa.toNat ≤ pa.toNat + 512 * n) (rounds : Nat) :
    readsegFrom disk epa rounds m pa offset =
      if n < rounds then some (placed disk (offset.toNat * 512) m pa (512 * n)) else none := by
  induction n generalizing rounds m pa offset with
  | zero =>
    cases rounds with
    | zero => rfl
    | succ r =>
      have hge : ¬pa < epa := by
        rw [BitVec.lt_def]
        omega
      have hnone : placed disk (offset.toNat * 512) m pa 0 = m := by
        funext a
        exact if_neg (by omega)
      rw [readsegFrom_succ, if_neg hge, if_pos (by omega), Nat.mul_zero, hnone]
  | succ n ih =>
    cases rounds with
    | zero => rfl
    | succ r =>
      have hlt : pa < epa := by
        rw [BitVec.lt_def]
        have := hlo 0 (by omega)
        omega
      have hnext : (pa + BitVec.ofNat 32 512).toNat = pa.toNat + 512 := by
        rw [BitVec.toNat_add, BitVec.toNat_ofNat]
        omega
      have hone : (offset + 1).toNat = offset.toNat + 1 := by
        rw [BitVec.toNat_add]
        have : (1 : Word).toNat = 1 := rfl
        omega
      rw [readsegFrom_succ, if_pos hlt, ih (by omega) (by omega) (fun i hi => ?_) (by omega)]
      · have happ : placed disk ((offset + 1).toNat * 512) (placed disk (offset.toNat * 512) m pa 512)
            (pa + BitVec.ofNat 32 512) (512 * n) =
            placed disk (offset.toNat * 512) m pa (512 * (n + 1)) := by
          have h₁ : (offset + 1).toNat * 512 = offset.toNat * 512 + 512 := by omega
          have h₂ : 512 * (n + 1) = 512 + 512 * n := by omega
          rw [h₁, h₂]
          exact @placed_append disk m pa (offset.toNat * 512) 512 (512 * n) (by omega) (by decide)
        rw [readsect_eq (by omega), happ]
        by_cases hr : n < r
        · rw [if_pos hr, if_pos (by omega)]
        · rw [if_neg hr, if_neg (by omega)]
      · have := hlo (i + 1) (by omega)
        omega

/-- Nothing is read if the end of the segment wraps to 0. -/
theorem readsegFrom_zero {offset : Word} (rounds : Nat) :
    readsegFrom disk 0 (rounds + 1) m pa offset = some m := by
  have hge : ¬pa < (0 : Word) := by
    rw [BitVec.lt_def]
    exact Nat.not_lt_zero _
  rw [readsegFrom_succ, if_neg hge]

/-- The pointer wraps before it reaches the end of the segment: it stays below it for ever. -/
theorem readsegFrom_wraps {epa offset : Word} (h : 2 ^ 32 - 512 + pa.toNat % 512 < epa.toNat)
    (rounds : Nat) : readsegFrom disk epa rounds m pa offset = none := by
  induction rounds generalizing m pa offset with
  | zero => rfl
  | succ r ih =>
    have hp := pa.isLt
    have hlt : pa < epa := by
      rw [BitVec.lt_def]
      omega
    have hnext : (pa + BitVec.ofNat 32 512).toNat % 512 = pa.toNat % 512 := by
      rw [BitVec.toNat_add, BitVec.toNat_ofNat]
      omega
    rw [readsegFrom_succ, if_pos hlt]
    exact ih (by rw [hnext]; exact h)

/-- What is asked of one program header. -/
structure Proghdr.Ok (s : Proghdr) : Prop where
  aligned : s.off.toNat % SECTSIZE = 0
  filesz_le : s.filesz.toNat ≤ s.memsz.toNat
  above : 0 < s.memsz.toNat → SCRATCH.toNat + 4096 ≤ s.paddr.toNat
  range : s.paddr.toNat + s.memsz.toNat ≤ 2 ^ 32

/-- The sectors of the segment end below the end of the address space. -/
def Proghdr.Fits (s : Proghdr) : Prop :=
  0 < s.filesz.toNat → s.paddr.toNat + 512 * s.sectors < 2 ^ 32

theorem Proghdr.Fits.end_lt {s : Proghdr} (hf : s.Fits) :
    s.paddr.toNat + 512 * s.sectors < 2 ^ 32 := by
  have hpl := s.paddr.isLt
  rcases Nat.eq_zero_or_pos s.filesz.toNat with hz | hpos
  · rw [Proghdr.sectors, hz]
    omega
  · exact hf hpos

/-- One round of the loop of `bootmain`. -/
def load (disk : Disk) (rounds : Nat) (m : Ram) (s : Proghdr) : Option Ram :=
  (readseg disk rounds m s.paddr s.filesz s.off).map fun m => clear m s.paddr s

/-- Memory after a segment has been loaded. -/
def loaded (disk : Disk) (m : Ram) (s : Proghdr) : Ram :=
  clear (placed disk (512 + s.off.toNat) m s.paddr (512 * s.sectors)) s.paddr s

variable {s : Proghdr}

theorem readseg_eq_from (hs : s.off.toNat % 512 = 0) (rounds : Nat) :
    readseg disk rounds m s.paddr s.filesz s.off =
      readsegFrom disk (s.paddr + s.filesz) rounds m s.paddr (s.off / BitVec.ofNat 32 512 + 1) := by
  have hmod : s.off % BitVec.ofNat 32 512 = 0 := by
    apply BitVec.eq_of_toNat_eq
    rw [BitVec.toNat_umod]
    simpa using hs
  rw [readseg, show BitVec.ofNat 32 SECTSIZE = BitVec.ofNat 32 512 from rfl, hmod, sub_zero]

theorem toNat_sector (s : Proghdr) :
    (s.off / BitVec.ofNat 32 512 + 1).toNat = s.off.toNat / 512 + 1 := by
  have := s.off.isLt
  have hone : (1 : Word).toNat = 1 := rfl
  have hsect : (BitVec.ofNat 32 512).toNat = 512 := rfl
  rw [BitVec.toNat_add, BitVec.toNat_udiv, hone, hsect]
  omega

theorem readseg_eq (haligned : s.off.toNat % 512 = 0) (hf : s.Fits) (rounds : Nat) :
    readseg disk rounds m s.paddr s.filesz s.off =
      if s.sectors < rounds then
        some (placed disk (512 + s.off.toNat) m s.paddr (512 * s.sectors))
      else none := by
  have hlt := s.off.isLt
  have hfl := s.filesz.isLt
  have hsec : s.sectors = (s.filesz.toNat + 511) / 512 := rfl
  have hend := hf.end_lt
  have hepa : (s.paddr + s.filesz).toNat = s.paddr.toNat + s.filesz.toNat := by
    rw [BitVec.toNat_add]
    omega
  have ho := toNat_sector s
  rw [readseg_eq_from haligned, readsegFrom_eq hend (by omega) (fun i hi => by omega) (by omega), ho,
    show (s.off.toNat / 512 + 1) * 512 = 512 + s.off.toNat by omega]

/-- A segment that does not fit is not read: the loop does not end, or the segment is the last thing in
the address space and memory stays as it was. -/
theorem readseg_of_not_fits (hs : s.Ok) (hf : ¬s.Fits) :
    (∀ rounds, readseg disk rounds m s.paddr s.filesz s.off = none) ∨
      (s.paddr.toNat + s.filesz.toNat = 2 ^ 32 ∧
        ∀ rounds m', readseg disk rounds m s.paddr s.filesz s.off = some m' → m' = m) := by
  have haligned : s.off.toNat % 512 = 0 := hs.aligned
  have hsec : s.sectors = (s.filesz.toNat + 511) / 512 := rfl
  have hle := hs.filesz_le
  have hrange := hs.range
  simp only [Proghdr.Fits, Classical.not_imp, Nat.not_lt] at hf
  obtain ⟨hpos, hend⟩ := hf
  have hepa : (s.paddr + s.filesz).toNat = (s.paddr.toNat + s.filesz.toNat) % 2 ^ 32 :=
    BitVec.toNat_add _ _
  by_cases htop : s.paddr.toNat + s.filesz.toNat = 2 ^ 32
  · refine .inr ⟨htop, fun rounds m' hm' => ?_⟩
    have hzero : s.paddr + s.filesz = 0 := by
      apply BitVec.eq_of_toNat_eq
      rw [hepa, htop]
      rfl
    rw [readseg_eq_from haligned, hzero] at hm'
    cases rounds with
    | zero => cases hm'
    | succ r =>
      rw [readsegFrom_zero] at hm'
      exact (Option.some.inj hm').symm
  · refine .inl fun rounds => ?_
    rw [readseg_eq_from haligned, readsegFrom_wraps (by rw [hepa]; omega)]

theorem load_eq (hs : s.Ok) (hf : s.Fits) (rounds : Nat) :
    load disk rounds m s = if s.sectors < rounds then some (loaded disk m s) else none := by
  rw [load, readseg_eq hs.aligned hf]
  split <;> rfl

theorem load_of_not_fits (hs : s.Ok) (hf : ¬s.Fits) :
    (∀ rounds, load disk rounds m s = none) ∨
      (s.paddr.toNat + s.filesz.toNat = 2 ^ 32 ∧
        ∀ rounds m', load disk rounds m s = some m' → m' = m) := by
  rcases @readseg_of_not_fits disk m s hs hf with hnone | ⟨htop, hsame⟩
  · exact .inl fun rounds => by rw [load, hnone, Option.map_none]
  · refine .inr ⟨htop, fun rounds m' hm' => ?_⟩
    obtain ⟨m₁, h₁, rfl⟩ := Option.map_eq_some_iff.1 hm'
    have hrange := hs.range
    have hclear : ¬s.filesz < s.memsz := by
      rw [BitVec.lt_def]
      omega
    rw [hsame rounds m₁ h₁, clear, if_neg hclear]

/-- Memory after a segment has been loaded, by the distance from its start. -/
theorem loaded_apply (hs : s.Ok) (a : Word) {d : Nat} (hd : (a - s.paddr).toNat = d) :
    loaded disk m s a =
      if d < s.filesz.toNat then disk (512 + s.off.toNat + d)
      else if d < s.memsz.toNat then 0
      else if d < 512 * s.sectors then disk (512 + s.off.toNat + d) else m a := by
  have hle := hs.filesz_le
  have hsec : s.sectors = (s.filesz.toNat + 511) / 512 := rfl
  have hdist := toNat_sub_add a s.paddr s.filesz
  have hml := s.memsz.isLt
  have hdl := (a - s.paddr).isLt
  rw [hd] at hdist hdl
  by_cases hclear : s.filesz < s.memsz
  · have hcnt : (s.memsz - s.filesz).toNat = s.memsz.toNat - s.filesz.toNat := toNat_sub_of_le hle
    rw [loaded, clear, if_pos hclear, stosb, hcnt, hdist]
    by_cases hin : s.filesz.toNat ≤ d
    · rw [if_pos hin, if_neg (by omega : ¬d < s.filesz.toNat)]
      by_cases hm : d < s.memsz.toNat
      · rw [if_pos (by omega), if_pos hm]
      · rw [if_neg (by omega), if_neg hm, placed, hd]
    · rw [if_neg hin, if_neg (by omega), if_pos (by omega), placed, hd, if_pos (by omega)]
  · rw [BitVec.lt_def] at hclear
    rw [loaded, clear, if_neg (by rwa [BitVec.lt_def]), placed, hd]
    by_cases hin : d < s.filesz.toNat
    · rw [if_pos (by omega), if_pos hin]
    · rw [if_neg hin, if_neg (by omega : ¬d < s.memsz.toNat)]

/-- Loading a segment writes only from its start on, and up to the end of its memory or of its last
sector. -/
theorem loaded_out (hs : s.Ok) (hf : s.Fits)
    (ha : a.toNat < s.paddr.toNat ∨
      s.paddr.toNat + s.memsz.toNat ≤ a.toNat ∧ s.paddr.toNat + 512 * s.sectors ≤ a.toNat) :
    loaded disk m s a = m a := by
  have hle := hs.filesz_le
  have hrange := hs.range
  have hpl := s.paddr.isLt
  have hsec : s.sectors = (s.filesz.toNat + 511) / 512 := rfl
  have hend := hf.end_lt
  have hdist := toNat_dist a s.paddr
  rw [loaded_apply hs a hdist]
  have hd : s.memsz.toNat ≤ (if s.paddr.toNat ≤ a.toNat then a.toNat - s.paddr.toNat
      else 2 ^ 32 + a.toNat - s.paddr.toNat) ∧
      512 * s.sectors ≤ (if s.paddr.toNat ≤ a.toNat then a.toNat - s.paddr.toNat
      else 2 ^ 32 + a.toNat - s.paddr.toNat) := by
    split <;> omega
  rw [if_neg (by omega), if_neg (by omega), if_neg (by omega)]

/-- A segment that has been loaded: the bytes of the file and then zeros. -/
theorem loaded_in (hs : s.Ok) {k : Nat} (hk : k < s.memsz.toNat) :
    loaded disk m s (s.paddr + BitVec.ofNat 32 k) =
      if k < s.filesz.toNat then disk (512 + s.off.toNat + k) else 0 := by
  have hml := s.memsz.isLt
  rw [loaded_apply hs _ (Copy.toNat_add_sub_self s.paddr (by omega : k < 2 ^ 32)), if_pos hk]

/-! ## All segments -/

def loadAll (disk : Disk) (rounds : Nat) : List Proghdr → Ram → Option Ram
  | [], m => some m
  | s :: l, m => (load disk rounds m s).bind (loadAll disk rounds l)

/-- The segments have increasing ranges that do not overlap; those without memory do not count. -/
structure Layout (l : List Proghdr) : Prop where
  ok : ∀ s ∈ l, s.Ok
  order : l.Pairwise fun s t => 0 < s.memsz.toNat → 0 < t.memsz.toNat →
    s.paddr.toNat + s.memsz.toNat ≤ t.paddr.toNat

/-- The segment's memory holds the bytes of the file and then zeros. -/
def Holds (disk : Disk) (m : Ram) (s : Proghdr) : Prop :=
  ∀ k < s.memsz.toNat, m (s.paddr + BitVec.ofNat 32 k) =
    if k < s.filesz.toNat then disk (512 + s.off.toNat + k) else 0

variable {l : List Proghdr}

theorem Layout.tail (hl : Layout (s :: l)) : Layout l :=
  ⟨fun t ht => hl.ok t (List.mem_cons_of_mem s ht), (List.pairwise_cons.1 hl.order).2⟩

theorem loaded_empty (hs : s.Ok) (hz : s.memsz.toNat = 0) (a : Word) : loaded disk m s a = m a := by
  have hle := hs.filesz_le
  have hsec : s.sectors = (s.filesz.toNat + 511) / 512 := rfl
  rw [loaded_apply hs a rfl, if_neg (by omega), if_neg (by omega), if_neg (by omega)]

theorem foldl_loaded_below (hok : ∀ s ∈ l, s.Ok) (hf : ∀ s ∈ l, s.Fits)
    (ha : ∀ s ∈ l, 0 < s.memsz.toNat → a.toNat < s.paddr.toNat) :
    l.foldl (loaded disk) m a = m a := by
  induction l generalizing m with
  | nil => rfl
  | cons s l ih =>
    have hs := hok s List.mem_cons_self
    have hfirst : loaded disk m s a = m a := by
      rcases Nat.eq_zero_or_pos s.memsz.toNat with hz | hpos
      · exact loaded_empty hs hz a
      · exact loaded_out hs (hf s List.mem_cons_self) (.inl (ha s List.mem_cons_self hpos))
    rw [List.foldl_cons, ih (fun t ht => hok t (.tail s ht)) (fun t ht => hf t (.tail s ht))
      fun t ht => ha t (.tail s ht), hfirst]

/-- What a later segment writes is not memory of an earlier one. -/
theorem foldl_loaded_holds (hl : Layout l) (hf : ∀ s ∈ l, s.Fits) (hs : s ∈ l) :
    Holds disk (l.foldl (loaded disk) m) s := by
  induction l generalizing m with
  | nil => cases hs
  | cons t l ih =>
    rcases List.mem_cons.1 hs with rfl | hs
    · intro k hk
      have hrange := (hl.ok s List.mem_cons_self).range
      have haddr : (s.paddr + BitVec.ofNat 32 k).toNat = s.paddr.toNat + k := by
        rw [BitVec.toNat_add, BitVec.toNat_ofNat]
        omega
      rw [List.foldl_cons, foldl_loaded_below hl.tail.ok (fun t ht => hf t (.tail s ht)) fun t ht hpos => ?_]
      · exact loaded_in (hl.ok s List.mem_cons_self) hk
      · have := (List.pairwise_cons.1 hl.order).1 t ht (by omega) hpos
        omega
    · exact ih hl.tail (fun u hu => hf u (.tail t hu)) hs

theorem loadAll_eq (hok : ∀ s ∈ l, s.Ok) (hf : ∀ s ∈ l, s.Fits) {rounds : Nat} (hr : 2 ^ 23 < rounds) :
    loadAll disk rounds l m = some (l.foldl (loaded disk) m) := by
  induction l generalizing m with
  | nil => rfl
  | cons s l ih =>
    have hfl := s.filesz.isLt
    have hsec : s.sectors = (s.filesz.toNat + 511) / 512 := rfl
    rw [loadAll, load_eq (hok s List.mem_cons_self) (hf s List.mem_cons_self), if_pos (by omega),
      Option.bind_some, ih (fun t ht => hok t (.tail s ht)) fun t ht => hf t (.tail s ht),
      List.foldl_cons]

theorem load_some (hs : s.Ok) (hf : s.Fits) {rounds : Nat} {m' : Ram}
    (hm : load disk rounds m s = some m') : m' = loaded disk m s := by
  rw [load_eq hs hf] at hm
  split at hm
  · exact (Option.some.inj hm).symm
  · cases hm

theorem loadAll_some (hok : ∀ s ∈ l, s.Ok) (hf : ∀ s ∈ l, s.Fits) {rounds : Nat} {m' : Ram}
    (hm : loadAll disk rounds l m = some m') : m' = l.foldl (loaded disk) m := by
  induction l generalizing m with
  | nil => exact (Option.some.inj hm).symm
  | cons s l ih =>
    obtain ⟨m₁, h₁, hm⟩ := Option.bind_eq_some_iff.1 hm
    obtain rfl := load_some (hok s List.mem_cons_self) (hf s List.mem_cons_self) h₁
    exact ih (fun t ht => hok t (.tail s ht)) (fun t ht => hf t (.tail s ht)) hm

/-- Some segment does not fit: if the loop ends all the same, then one reaches the end of the address
space, and the last byte of it is not written. -/
theorem loadAll_of_not_fits (hl : Layout l) (hf : ¬∀ s ∈ l, s.Fits) {rounds : Nat} {m' : Ram}
    (hm : loadAll disk rounds l m = some m') :
    (∃ s ∈ l, 0 < s.filesz.toNat ∧ s.paddr.toNat + s.filesz.toNat = 2 ^ 32) ∧
      m' (BitVec.allOnes 32) = m (BitVec.allOnes 32) := by
  induction l generalizing m with
  | nil => exact absurd (fun s hs => by cases hs) hf
  | cons s l ih =>
    obtain ⟨m₁, h₁, hm⟩ := Option.bind_eq_some_iff.1 hm
    have hs := hl.ok s List.mem_cons_self
    have horder := (List.pairwise_cons.1 hl.order).1
    have htop : (BitVec.allOnes 32).toNat = 2 ^ 32 - 1 := by decide
    by_cases hfs : s.Fits
    · have hrest : ¬∀ t ∈ l, t.Fits := fun hall => hf fun t ht => by
        rcases List.mem_cons.1 ht with rfl | ht
        · exact hfs
        · exact hall t ht
      obtain ⟨⟨t, ht, hpos, hend⟩, hsame⟩ := ih hl.tail hrest hm
      refine ⟨⟨t, .tail s ht, hpos, hend⟩, ?_⟩
      rw [hsame, load_some hs hfs h₁]
      rcases Nat.eq_zero_or_pos s.memsz.toNat with hz | hspos
      · exact loaded_empty hs hz _
      · -- a segment lies above this one
        have hle := (hl.tail.ok t ht).filesz_le
        have hst := horder t ht hspos (by omega)
        have hfit := hfs.end_lt
        have htl := t.paddr.isLt
        exact loaded_out hs hfs (.inr ⟨by omega, by omega⟩)
    · rcases @load_of_not_fits disk m s hs hfs with hnone | ⟨hend, hsame⟩
      · rw [hnone] at h₁
        cases h₁
      · have hpos : 0 < s.filesz.toNat := by
          have := s.paddr.isLt
          omega
        have hle := hs.filesz_le
        -- nothing lies above it
        have hempty : ∀ t ∈ l, t.memsz.toNat = 0 := by
          intro t ht
          by_contra hne
          have := horder t ht (by omega) (by omega)
          have := t.paddr.isLt
          omega
        have hfits : ∀ t ∈ l, t.Fits := fun t ht htpos => by
          have := (hl.tail.ok t ht).filesz_le
          have := hempty t ht
          omega
        refine ⟨⟨s, List.mem_cons_self, hpos, hend⟩, ?_⟩
        rw [loadAll_some hl.tail.ok hfits hm, hsame rounds m₁ h₁]
        refine foldl_loaded_below hl.tail.ok hfits fun t ht htpos => ?_
        have := hempty t ht
        omega

/-! ## The headers in memory -/

/-- The kernel file begins at sector 1. -/
def file (disk : Disk) : Ram := fun a => disk (512 + a.toNat)

def phoff (disk : Disk) : Word := uintAt (file disk) 28

def phnum (disk : Disk) : Short := ushortAt (file disk) 44

/-- The program headers of the file. -/
def segments (disk : Disk) : List Proghdr :=
  (List.range (phnum disk).toNat).map fun i =>
    proghdrAt (file disk) (phoff disk + BitVec.ofNat 32 (32 * i))

/-- The first page of the file stands in the scratch area. -/
def InScratch (disk : Disk) (m : Ram) : Prop :=
  ∀ o : Word, o.toNat < 4096 → m (SCRATCH + o) = file disk o

theorem toNat_add_lt {o k : Word} {n : Nat} (h : o.toNat + k.toNat < n) : (o + k).toNat < n := by
  rw [BitVec.toNat_add]
  omega

theorem InScratch.uintAt (hm : InScratch disk m) {o : Word} (ho : o.toNat + 3 < 4096) :
    uintAt m (SCRATCH + o) = Boot.uintAt (file disk) o := by
  have hk : ∀ k : Word, k.toNat ≤ 3 → m (SCRATCH + o + k) = file disk (o + k) := fun k hk => by
    rw [add_assoc]
    exact hm _ (toNat_add_lt (by omega))
  rw [Boot.uintAt, Boot.uintAt, hk 3 (by decide), hk 2 (by decide), hk 1 (by decide),
    hm o (by omega)]

theorem InScratch.proghdrAt (hm : InScratch disk m) {o : Word} (ho : o.toNat + 32 ≤ 4096) :
    proghdrAt m (SCRATCH + o) = Boot.proghdrAt (file disk) o := by
  have hk : ∀ k : Word, k.toNat ≤ 20 →
      Boot.uintAt m (SCRATCH + o + k) = Boot.uintAt (file disk) (o + k) := fun k hk => by
    rw [add_assoc]
    have := toNat_add_lt (show o.toNat + k.toNat < 4093 by omega)
    exact hm.uintAt (by omega)
  rw [Boot.proghdrAt, Boot.proghdrAt, hk 4 (by decide), hk 12 (by decide), hk 16 (by decide),
    hk 20 (by decide)]

theorem InScratch.congr {m' : Ram} (hm : InScratch disk m)
    (h : ∀ a : Word, a.toNat < SCRATCH.toNat + 4096 → m' a = m a) : InScratch disk m' := by
  intro o ho
  have hs : SCRATCH.toNat = 65536 := rfl
  rw [h _ (toNat_add_lt (by omega)), hm o ho]

theorem readseg_keeps (hs : s.Ok) {rounds : Nat} {m' : Ram}
    (hm : readseg disk rounds m s.paddr s.filesz s.off = some m')
    (ha : a.toNat < SCRATCH.toNat + 4096) : m' a = m a := by
  by_cases hf : s.Fits
  · rw [readseg_eq hs.aligned hf] at hm
    split at hm
    · obtain rfl := Option.some.inj hm
      have hend := hf.end_lt
      have hle := hs.filesz_le
      have habove := hs.above
      have hsec : s.sectors = (s.filesz.toNat + 511) / 512 := rfl
      refine if_neg ?_
      rw [toNat_dist]
      split <;> omega
    · cases hm
  · rcases @readseg_of_not_fits disk m s hs hf with hnone | ⟨-, hsame⟩
    · rw [hnone] at hm
      cases hm
    · rw [hsame rounds m' hm]

theorem clear_keeps (hs : s.Ok) (ha : a.toNat < SCRATCH.toNat + 4096) :
    clear m s.paddr s a = m a := by
  rw [clear]
  split
  · rename_i hlt
    rw [BitVec.lt_def] at hlt
    have habove := hs.above (by omega)
    have hrange := hs.range
    have hcnt := toNat_sub_of_le hs.filesz_le
    have hdist := toNat_sub_add a s.paddr s.filesz
    have hd : (a - s.paddr).toNat = 2 ^ 32 + a.toNat - s.paddr.toNat := by
      rw [toNat_dist, if_neg (by omega)]
    rw [hd] at hdist
    refine if_neg ?_
    rw [hdist, hcnt]
    split <;> omega
  · rfl

/-- The loop over the headers in memory is the loop over the headers of the file. -/
theorem loadFrom_eq (hpage : (phoff disk).toNat + 32 * (phnum disk).toNat ≤ 4096)
    (hok : ∀ s ∈ segments disk, s.Ok) (hm : InScratch disk m) {eph : Word}
    (heph : eph.toNat = SCRATCH.toNat + ((phoff disk).toNat + 32 * (phnum disk).toNat)) {i j : Nat}
    (hij : i + j = (phnum disk).toNat) (rounds n : Nat) :
    loadFrom disk eph rounds n m (SCRATCH + (phoff disk + BitVec.ofNat 32 (32 * i))) =
      if j < n then
        loadAll disk rounds ((List.range' i j).map fun i =>
          proghdrAt (file disk) (phoff disk + BitVec.ofNat 32 (32 * i))) m
      else none := by
  have hscr : SCRATCH.toNat = 65536 := rfl
  have hph : ∀ i ≤ (phnum disk).toNat,
      (SCRATCH + (phoff disk + BitVec.ofNat 32 (32 * i))).toNat =
        SCRATCH.toNat + ((phoff disk).toNat + 32 * i) := fun i hi => by
    rw [BitVec.toNat_add, BitVec.toNat_add, BitVec.toNat_ofNat]
    omega
  induction j generalizing i n m with
  | zero =>
    cases n with
    | zero => rfl
    | succ n =>
      have hge : ¬SCRATCH + (phoff disk + BitVec.ofNat 32 (32 * i)) < eph := by
        rw [BitVec.lt_def, hph i (by omega), heph]
        omega
      rw [loadFrom, if_neg hge, if_pos (by omega)]
      rfl
  | succ j ih =>
    cases n with
    | zero => rfl
    | succ n =>
      have hlt : SCRATCH + (phoff disk + BitVec.ofNat 32 (32 * i)) < eph := by
        rw [BitVec.lt_def, hph i (by omega), heph]
        omega
      set o := phoff disk + BitVec.ofNat 32 (32 * i) with ho
      have hoff : o.toNat + 32 ≤ 4096 := by
        rw [ho, BitVec.toNat_add, BitVec.toNat_ofNat]
        omega
      have hs : (proghdrAt (file disk) o).Ok :=
        hok _ (List.mem_map.2 ⟨i, List.mem_range.2 (by omega), rfl⟩)
      have hnext : SCRATCH + o + 32 =
          SCRATCH + (phoff disk + BitVec.ofNat 32 (32 * (i + 1))) := by
        rw [ho, Nat.mul_add, BitVec.ofNat_add]
        abel_nf
      rw [loadFrom, if_pos hlt, hm.proghdrAt hoff, List.range'_succ, List.map_cons, loadAll, load, ← ho]
      dsimp only
      cases hread : readseg disk rounds m (proghdrAt (file disk) o).paddr
          (proghdrAt (file disk) o).filesz (proghdrAt (file disk) o).off with
      | none => simp
      | some m₁ =>
        have hm₁ : InScratch disk m₁ := hm.congr fun a ha => readseg_keeps hs hread ha
        have hm₂ : InScratch disk (clear m₁ (proghdrAt (file disk) o).paddr (proghdrAt (file disk) o)) :=
          hm₁.congr fun a ha => clear_keeps hs ha
        rw [Option.map_some, Option.bind_some, Option.bind_some, hm₁.proghdrAt hoff, hnext,
          ih hm₂ (by omega)]
        by_cases hjn : j < n
        · rw [if_pos hjn, if_pos (by omega)]
        · rw [if_neg hjn, if_neg (by omega)]

theorem readseg_scratch (rounds : Nat) :
    readseg disk rounds m SCRATCH 4096 0 =
      if 8 < rounds then some (placed disk 512 m SCRATCH 4096) else none := by
  have hfits : Proghdr.Fits ⟨0, SCRATCH, 4096, 4096⟩ := fun _ => by decide
  exact @readseg_eq disk m ⟨0, SCRATCH, 4096, 4096⟩ rfl hfits rounds

theorem inScratch_placed : InScratch disk (placed disk 512 m SCRATCH 4096) := by
  intro o ho
  have hd : (SCRATCH + o - SCRATCH).toNat = o.toNat := by
    rw [add_sub_cancel_left]
  rw [placed, hd, if_pos ho]
  rfl

/-- A kernel that can be booted from this disk: an ELF file whose program headers are in its first page
and whose segments are laid out as they should be. -/
structure KernelImage (disk : Disk) : Prop where
  magic : uintAt (file disk) 0 = ELF_MAGIC
  headers : (phoff disk).toNat + 32 * (phnum disk).toNat ≤ 4096
  layout : Layout (segments disk)

theorem bootmain_eq (hi : KernelImage disk) (rounds : Nat) :
    bootmain disk rounds m =
      if 8 < rounds ∧ (phnum disk).toNat < rounds then
        (loadAll disk rounds (segments disk) (placed disk 512 m SCRATCH 4096)).map fun m =>
          some (uintAt m (SCRATCH + 24), m)
      else none := by
  have hm : InScratch disk (placed disk 512 m SCRATCH 4096) := inScratch_placed
  have hmagic := hm.uintAt (o := 0) (by decide)
  rw [add_zero] at hmagic
  have hoff : uintAt (placed disk 512 m SCRATCH 4096) (SCRATCH + 28) = phoff disk :=
    hm.uintAt (by decide)
  have hnum : ushortAt (placed disk 512 m SCRATCH 4096) (SCRATCH + 44) = phnum disk := by
    rw [ushortAt, add_assoc, hm 44 (by decide), hm (44 + 1) (by decide)]
    rfl
  have hscr : SCRATCH.toNat = 65536 := rfl
  have heph : (SCRATCH + phoff disk + 32 * (phnum disk).setWidth 32).toNat =
      SCRATCH.toNat + ((phoff disk).toNat + 32 * (phnum disk).toNat) := by
    have hpage := hi.headers
    have hn := (phnum disk).isLt
    have h32 : (32 : Word).toNat = 32 := rfl
    rw [BitVec.toNat_add, BitVec.toNat_add, BitVec.toNat_mul, BitVec.toNat_setWidth, h32]
    omega
  have hloop := loadFrom_eq hi.headers hi.layout.ok hm heph (Nat.zero_add _) rounds rounds
  rw [Nat.mul_zero, show phoff disk + BitVec.ofNat 32 0 = phoff disk from add_zero _,
    ← List.range_eq_range'] at hloop
  rw [bootmain, readseg_scratch]
  by_cases hr : 8 < rounds
  · rw [if_pos hr, Option.bind_some, hmagic, if_neg (not_not.2 hi.magic), hoff, hnum]
    dsimp only
    rw [hloop]
    by_cases hn : (phnum disk).toNat < rounds
    · rw [if_pos hn, if_pos ⟨hr, hn⟩]
      rfl
    · rw [if_neg hn, if_neg fun h => hn h.2]
      rfl
  · rw [if_neg hr, if_neg fun h => hr h.1]
    rfl

/-- **Loading the kernel.**  Whatever was in memory, the loop of `bootmain` ends with every segment in its
place, exactly if the sectors of every segment end below the end of the address space. -/
theorem bootmain_loads_iff (hi : KernelImage disk) :
    (∀ m, ∃ rounds entry m', bootmain disk rounds m = some (some (entry, m')) ∧
      ∀ s ∈ segments disk, Holds disk m' s) ↔ ∀ s ∈ segments disk, s.Fits := by
  constructor
  · intro hall
    by_contra hf
    -- what the loop has done when it ends
    have hrun : ∀ m : Ram, ∃ m', (∀ s ∈ segments disk, Holds disk m' s) ∧
        (∃ s ∈ segments disk, 0 < s.filesz.toNat ∧ s.paddr.toNat + s.filesz.toNat = 2 ^ 32) ∧
        m' (BitVec.allOnes 32) = m (BitVec.allOnes 32) := by
      intro m
      obtain ⟨rounds, entry, m', hrun, hholds⟩ := hall m
      rw [bootmain_eq hi] at hrun
      split at hrun
      · obtain ⟨m₁, hload, heq⟩ := Option.map_eq_some_iff.1 hrun
        obtain ⟨-, rfl⟩ := Prod.mk.inj (Option.some.inj heq)
        obtain ⟨hex, hsame⟩ := loadAll_of_not_fits hi.layout hf hload
        refine ⟨m₁, hholds, hex, hsame.trans (if_neg ?_)⟩
        decide
      · cases hrun
    obtain ⟨-, -, ⟨s, hs, hpos, hend⟩, -⟩ := hrun fun _ => 0
    have hlast : s.paddr + BitVec.ofNat 32 (s.filesz.toNat - 1) = BitVec.allOnes 32 := by
      apply BitVec.eq_of_toNat_eq
      have htop : (BitVec.allOnes 32).toNat = 2 ^ 32 - 1 := by decide
      have hfl := s.filesz.isLt
      rw [BitVec.toNat_add, BitVec.toNat_ofNat, htop]
      omega
    -- start with another byte there
    obtain ⟨m', hholds, -, hsame⟩ :=
      hrun fun _ => disk (512 + s.off.toNat + (s.filesz.toNat - 1)) + 1
    have hle := (hi.layout.ok s hs).filesz_le
    have hbyte := hholds s hs (s.filesz.toNat - 1) (by omega)
    rw [hlast, hsame, if_pos (by omega)] at hbyte
    simp at hbyte
  · intro hf m
    have hn := (phnum disk).isLt
    have hrun := @bootmain_eq disk m hi (2 ^ 23 + 1)
    rw [if_pos ⟨by omega, by omega⟩, loadAll_eq hi.layout.ok hf (by omega), Option.map_some] at hrun
    exact ⟨_, _, _, hrun, fun s hs => foldl_loaded_holds hi.layout hf hs⟩

/-- A disk with a kernel of `n` segments, whose program headers follow the ELF header. -/
def kernelDisk (n : Byte) (headers : List Byte) : Disk := fun i =>
  if i < 512 then 0
  else ([0x7F, 0x45, 0x4C, 0x46] ++ List.replicate 24 0 ++ [52] ++ List.replicate 15 0 ++ [n] ++
    List.replicate 7 0 ++ headers).getD (i - 512) 7

/-- A program header, from its fields as they are in the file. -/
def header (off paddr filesz memsz : List Byte) : List Byte :=
  [1, 0, 0, 0] ++ off ++ [0, 0, 0, 0] ++ paddr ++ filesz ++ memsz ++ List.replicate 8 0

/-- A kernel at one megabyte, with a segment of 600 bytes in the file and 1000 in memory, and the next
one on the page after it. -/
theorem bootmain_loads_two : ∃ disk, KernelImage disk ∧
    segments disk = [⟨4096, 0x100000, 600, 1000⟩, ⟨8192, 0x101000, 100, 100⟩] ∧
    ∀ m, ∃ rounds entry m', bootmain disk rounds m = some (some (entry, m')) ∧
      ∀ s ∈ segments disk, Holds disk m' s := by
  obtain ⟨disk, hdisk⟩ : ∃ disk, disk = kernelDisk 2
      (header [0, 16, 0, 0] [0, 0, 16, 0] [88, 2, 0, 0] [232, 3, 0, 0] ++
        header [0, 32, 0, 0] [0, 16, 16, 0] [100, 0, 0, 0] [100, 0, 0, 0]) := ⟨_, rfl⟩
  have hsegs : segments disk = [⟨4096, 0x100000, 600, 1000⟩, ⟨8192, 0x101000, 100, 100⟩] := by
    rw [hdisk]
    decide +kernel
  have hlayout : Layout [⟨4096, 0x100000, 600, 1000⟩, ⟨8192, 0x101000, 100, 100⟩] := by
    refine ⟨?_, List.pairwise_pair.2 fun _ _ => by decide⟩
    simp only [List.forall_mem_cons, List.not_mem_nil, false_imp_iff, implies_true, and_true]
    exact ⟨⟨by decide, by decide, fun _ => by decide, by decide⟩,
      by decide, by decide, fun _ => by decide, by decide⟩
  have hi : KernelImage disk := by
    refine ⟨?_, ?_, hsegs ▸ hlayout⟩
    · rw [hdisk]
      decide +kernel
    · rw [hdisk]
      decide +kernel
  refine ⟨disk, hi, hsegs, (bootmain_loads_iff hi).2 ?_⟩
  rw [hsegs]
  simp only [List.forall_mem_cons, List.not_mem_nil, false_imp_iff, implies_true, and_true]
  exact ⟨fun _ => by decide, fun _ => by decide⟩

/-- A segment of one sector at the end of the address space is not read. -/
theorem bootmain_skips_last_sector : ∃ disk, KernelImage disk ∧
    segments disk = [⟨4096, 0xFFFFFE00, 512, 512⟩] ∧
    (bootmain disk 9 fun _ => 0).map (fun r => r.map fun e => e.2 0xFFFFFE00) = some (some 0) ∧
    disk (512 + 4096) = 7 := by
  have hsegs : segments (kernelDisk 1 (header [0, 16, 0, 0] [0, 254, 255, 255] [0, 2, 0, 0] [0, 2, 0, 0])) =
      [⟨4096, 0xFFFFFE00, 512, 512⟩] := by decide +kernel
  refine ⟨_, ⟨by decide +kernel, by decide +kernel, ?_, ?_⟩, hsegs, by decide +kernel, by decide +kernel⟩
  · rw [hsegs]
    intro s hs
    rw [List.mem_singleton.1 hs]
    exact ⟨by decide, by decide, fun _ => by decide, by decide⟩
  · rw [hsegs]
    exact List.pairwise_singleton _ _

end Xv6.Boot
