import Xv6.User.Memmove

/-!
# The multiprocessor table

`mpinit` looks for the configuration table that the firmware left in memory and goes through its
entries.  The `break` for an entry of unknown type leaves the `switch` and not the loop, and does not
move on: such an entry is looked at for ever.  So the loop ends, and `mpinit` does what it should,
exactly if no such entry is met.
-/

namespace Xv6.Boot

open Bytes

abbrev NCPU : Nat := 8
abbrev KERNBASE : Word := 0x80000000

def P2V (a : Word) : Word := a + KERNBASE

/-- The little-endian fields at an address. -/
def ushortAt (m : Ram) (a : Word) : Short := m (a + 1) ++ m a

def uintAt (m : Ram) (a : Word) : Word := m (a + 3) ++ m (a + 2) ++ m (a + 1) ++ m a

def sum (m : Ram) (addr : Word) (len : Nat) : Byte :=
  BitVec.ofNat 8 ((List.range len).map fun i => (m (addr + BitVec.ofNat 32 i)).toNat).sum

/-! ## Finding the table -/

/-- `sizeof(struct mp)` -/
abbrev MPSZ : Nat := 16

/-- `memcmp(a, s, 4) == 0` -/
def hasTag (m : Ram) (a : Word) (s : List Byte) : Bool :=
  s == [m a, m (a + 1), m (a + 2), m (a + 3)]

def mpsearch1From (m : Ram) (e : Word) : Nat → Word → Option Word
  | 0, _ => none
  | rounds + 1, p =>
    if p < e then
      -- "_MP_"
      if hasTag m p [0x5F, 0x4D, 0x50, 0x5F] ∧ sum m p MPSZ = 0 then some p
      else mpsearch1From m e rounds (p + BitVec.ofNat 32 MPSZ)
    else none

/-- Look for an MP structure in the `len` bytes at `a`. -/
def mpsearch1 (m : Ram) (a : Word) (len : Nat) : Option Word :=
  mpsearch1From m (P2V a + BitVec.ofNat 32 len) (len / MPSZ) (P2V a)

def mpsearch (m : Ram) : Option Word :=
  let bda := P2V 0x400
  let p : Word := ((m (bda + 0x0F) ++ m (bda + 0x0E) : Short).setWidth 32) <<< 4
  let base : Word := ((m (bda + 0x14) ++ m (bda + 0x13) : Short).setWidth 32) * 1024
  match if p ≠ 0 then mpsearch1 m p 1024 else mpsearch1 m (base - 1024) 1024 with
  | some mp => some mp
  | none => mpsearch1 m 0xF0000 0x10000

/-- Search for an MP configuration table: the floating pointer and the table. -/
def mpconfig (m : Ram) : Option (Word × Word) :=
  match mpsearch m with
  | none => none
  | some mp =>
    if uintAt m (mp + 4) = 0 then none
    else
      let conf := P2V (uintAt m (mp + 4))
      -- "PCMP"
      if ¬ hasTag m conf [0x50, 0x43, 0x4D, 0x50] then none
      else if m (conf + 6) ≠ 1 ∧ m (conf + 6) ≠ 4 then none
      else if sum m conf (ushortAt m (conf + 4)).toNat ≠ 0 then none
      else some (mp, conf)

/-! ## Going through the entries -/

abbrev MPPROC : Byte := 0
abbrev MPBUS : Byte := 1
abbrev MPIOAPIC : Byte := 2
abbrev MPIOINTR : Byte := 3
abbrev MPLINTR : Byte := 4

/-- What `mpinit` sets: `cpus[i].apicid`, the other variables, and what it sends to ports. -/
structure MpState where
  apicid : Nat → Byte
  ncpu : Nat
  ioapicid : Byte
  lapic : Word
  ismp : Bool
  ports : List (Nat × Byte)

/-- One round of the loop: the `switch` on the type of the entry at `p`. -/
def mpentry (m : Ram) (p : Word) (x : MpState) : Word × MpState :=
  if m p = MPPROC then
    (p + 20, if x.ncpu < NCPU then
      { x with apicid := Function.update x.apicid x.ncpu (m (p + 1)), ncpu := x.ncpu + 1 } else x)
  else if m p = MPIOAPIC then (p + 8, { x with ioapicid := m (p + 1) })
  else if m p = MPBUS ∨ m p = MPIOINTR ∨ m p = MPLINTR then (p + 8, x)
  -- `break` leaves the switch
  else (p, { x with ismp := false })

/-- The loop, if it is left within so many rounds. -/
def mpscan (m : Ram) (e : Word) : Nat → Word → MpState → Option MpState
  | 0, _, _ => none
  | rounds + 1, p, x =>
    if p < e then mpscan m e rounds (mpentry m p x).1 (mpentry m p x).2 else some x

inductive MpPanic where
  /-- `Expect to run on an SMP` -/
  | notSmp
  /-- `Didn't find a suitable machine` -/
  | unsuitable
deriving DecidableEq

def firstEntry (conf : Word) : Word := conf + 44

def tableEnd (m : Ram) (conf : Word) : Word := conf + (ushortAt m (conf + 4)).setWidth 32

/-- `mpinit`, if its loop is left within so many rounds; `inb` is what port `0x23` gives. -/
def mpinit (m : Ram) (inb : Byte) (rounds : Nat) : Option (Except MpPanic MpState) :=
  match mpconfig m with
  | none => some (.error .notSmp)
  | some (mp, conf) =>
    (mpscan m (tableEnd m conf) rounds (firstEntry conf)
      ⟨fun _ => 0, 0, 0, uintAt m (conf + 36), true, []⟩).map fun x =>
        if x.ismp = false then .error .unsuitable
        else if m (mp + 12) ≠ 0 then .ok { x with ports := [(0x22, 0x70), (0x23, inb ||| 1)] }
        else .ok x

/-! ## Which entries are met -/

/-- The length of an entry, or `none` for an unknown type. -/
def entrySize (type : Byte) : Option Word :=
  if type = MPPROC then some 20
  else if type = MPIOAPIC ∨ type = MPBUS ∨ type = MPIOINTR ∨ type = MPLINTR then some 8
  else none

/-- The scan from `p` meets an entry at `q`. -/
inductive Meets (m : Ram) (e : Word) : Word → Word → Prop
  | here {p : Word} (h : p < e) : Meets m e p p
  | next {p q k : Word} (h : p < e) (hk : entrySize (m p) = some k) (hq : Meets m e (p + k) q) :
    Meets m e p q

variable {m : Ram} {e p : Word} {x : MpState}

theorem entrySize_le {type : Byte} {k : Word} (h : entrySize type = some k) :
    0 < k.toNat ∧ k.toNat ≤ 20 := by
  unfold entrySize at h
  split at h
  · cases h
    decide
  · split at h
    · cases h
      decide
    · cases h

theorem mpentry_known {k : Word} (hk : entrySize (m p) = some k) (x : MpState) :
    (mpentry m p x).1 = p + k ∧ (mpentry m p x).2.ismp = x.ismp := by
  unfold entrySize at hk
  unfold mpentry
  by_cases h0 : m p = MPPROC
  · rw [if_pos h0] at hk ⊢
    cases hk
    refine ⟨rfl, ?_⟩
    dsimp only
    split <;> rfl
  · rw [if_neg h0] at hk ⊢
    by_cases h2 : m p = MPIOAPIC
    · rw [if_pos (Or.inl h2)] at hk
      cases hk
      rw [if_pos h2]
      exact ⟨rfl, rfl⟩
    · rw [if_neg h2]
      by_cases h8 : m p = MPBUS ∨ m p = MPIOINTR ∨ m p = MPLINTR
      · rw [if_pos (Or.inr h8)] at hk
        cases hk
        rw [if_pos h8]
        exact ⟨rfl, rfl⟩
      · rw [if_neg fun h => h.elim h2 h8] at hk
        cases hk

/-- There is room for each processor that is recorded. -/
theorem mpentry_ncpu (p : Word) (hx : x.ncpu ≤ NCPU) : (mpentry m p x).2.ncpu ≤ NCPU := by
  unfold mpentry
  split
  · dsimp only
    split
    · next hlt => exact hlt
    · exact hx
  · split
    · exact hx
    · split <;> exact hx

theorem mpentry_unknown (hk : entrySize (m p) = none) : (mpentry m p x).1 = p := by
  unfold entrySize at hk
  unfold mpentry
  by_cases h0 : m p = MPPROC
  · rw [if_pos h0] at hk
    cases hk
  · rw [if_neg h0] at hk ⊢
    by_cases h8 : m p = MPIOAPIC ∨ m p = MPBUS ∨ m p = MPIOINTR ∨ m p = MPLINTR
    · rw [if_pos h8] at hk
      cases hk
    · rw [if_neg fun h => h8 (Or.inl h), if_neg fun h => h8 (Or.inr h)]

/-- Without unknown types the loop is left, at the end of the table. -/
theorem mpscan_returns (he : e.toNat + 20 ≤ 2 ^ 32) (hx : x.ncpu ≤ NCPU)
    (hknown : ∀ q, Meets m e p q → entrySize (m q) ≠ none) :
    ∃ rounds x', mpscan m e rounds p x = some x' ∧ x'.ismp = x.ismp ∧ x'.ncpu ≤ NCPU := by
  -- every entry brings the scan nearer to the end
  induction hd : e.toNat - p.toNat using Nat.strong_induction_on generalizing p x with
  | _ d ih =>
    by_cases hlt : p < e
    · obtain ⟨k, hk⟩ := Option.ne_none_iff_exists'.1 (hknown p (.here hlt))
      obtain ⟨hpos, hle⟩ := entrySize_le hk
      obtain ⟨hp, hismp⟩ := mpentry_known hk x
      have hncpu := mpentry_ncpu (m := m) p hx
      have hlt' : p.toNat < e.toNat := hlt
      have hnext : (p + k).toNat = p.toNat + k.toNat := by
        rw [BitVec.toNat_add, Nat.mod_eq_of_lt (by omega)]
      obtain ⟨rounds, x', hrun, h1, h2⟩ := ih (e.toNat - (p + k).toNat) (by omega) hncpu
        (fun q hq => hknown q (.next hlt hk hq)) rfl
      refine ⟨rounds + 1, x', ?_, h1.trans hismp, h2⟩
      rw [mpscan, if_pos hlt, hp, hrun]
    · exact ⟨1, x, by rw [mpscan, if_neg hlt], rfl, hx⟩

theorem mpscan_stays {q : Word} (hq : Meets m e p q) (hu : entrySize (m q) = none) (rounds : Nat) :
    mpscan m e rounds p x = none := by
  induction hq generalizing x rounds with
  | here h =>
    induction rounds generalizing x with
    | zero => rfl
    | succ rounds ih => rw [mpscan, if_pos h, mpentry_unknown hu, ih]
  | @next p q k h hk _ ih =>
    cases rounds with
    | zero => rfl
    | succ rounds =>
      rw [mpscan, if_pos h, (mpentry_known hk x).1, ih hu]

/-- The scan of the table meets an entry of unknown type. -/
def MeetsUnknown (m : Ram) (conf : Word) : Prop :=
  ∃ q, Meets m (tableEnd m conf) (firstEntry conf) q ∧ entrySize (m q) = none

theorem mpinit_stays {mp conf : Word} {inb : Byte} (hconf : mpconfig m = some (mp, conf))
    (hu : MeetsUnknown m conf) (rounds : Nat) : mpinit m inb rounds = none := by
  obtain ⟨q, hq, hnone⟩ := hu
  unfold mpinit
  rw [hconf]
  dsimp only
  rw [mpscan_stays hq hnone, Option.map_none]

/-- For a table that `mpconfig` accepts, and that does not lie at the very end of the address space:
`mpinit` leaves its loop, with at most `NCPU` processors, and panics if and only if the scan met an
unknown type, exactly if it did not meet one. -/
theorem mpinit_ends_iff {mp conf : Word} (inb : Byte) (hconf : mpconfig m = some (mp, conf))
    (he : (tableEnd m conf).toNat + 20 ≤ 2 ^ 32) :
    (∃ rounds r, mpinit m inb rounds = some r ∧ (∀ x, r = .ok x → x.ncpu ≤ NCPU) ∧
      (r = .error .unsuitable ↔ MeetsUnknown m conf)) ↔ ¬ MeetsUnknown m conf := by
  constructor
  · rintro ⟨rounds, r, hrun, _⟩ hu
    rw [mpinit_stays hconf hu] at hrun
    cases hrun
  · intro hno
    have hknown : ∀ q, Meets m (tableEnd m conf) (firstEntry conf) q → entrySize (m q) ≠ none :=
      fun q hq hnone => hno ⟨q, hq, hnone⟩
    obtain ⟨rounds, x, hrun, hismp, hncpu⟩ := mpscan_returns he
      (x := ⟨fun _ => 0, 0, 0, uintAt m (conf + 36), true, []⟩) (Nat.zero_le _) hknown
    obtain ⟨y, hy, hsame⟩ : ∃ y, mpinit m inb rounds = some (.ok y) ∧ y.ncpu = x.ncpu := by
      have hgo : ¬ x.ismp = false := by
        rw [hismp]
        simp
      unfold mpinit
      rw [hconf]
      dsimp only
      rw [hrun, Option.map_some, if_neg hgo]
      split
      · exact ⟨_, rfl, rfl⟩
      · exact ⟨_, rfl, rfl⟩
    refine ⟨rounds, .ok y, hy, ?_, ?_⟩
    · rintro z hz
      cases hz
      rw [hsame]
      exact hncpu
    · constructor
      · intro h
        cases h
      · intro h
        exact absurd h hno

/-- Memory with a floating pointer, found through the word at `0x40E`, and the given table. -/
def tableRam (table : List Byte) : Ram := fun a =>
  if a = 0x8000040F then 0x10
  else if 0x80010000 ≤ a ∧ a < 0x80010010 then
    [0x5F, 0x4D, 0x50, 0x5F, 0, 0, 2, 0, 1, 4, 0x9E, 0, 0, 0, 0, 0].getD (a - 0x80010000).toNat 0
  else if 0x80020000 ≤ a then table.getD (a - 0x80020000).toNat 0
  else 0

def mpTable (length checksum : Byte) (entries : List Byte) : List Byte :=
  [0x50, 0x43, 0x4D, 0x50, length, 0, 4, checksum] ++ List.replicate 36 0 ++ entries

/-- One processor. -/
def oneCpu : Ram := tableRam (mpTable 64 0x8C (List.replicate 20 0))

theorem mpinit_one_cpu : mpconfig oneCpu = some (0x80010000, 0x80020000) ∧
    ∃ rounds r, mpinit oneCpu 0 rounds = some r ∧ (∀ x, r = .ok x → x.ncpu ≤ NCPU) ∧
      (r = .error .unsuitable ↔ MeetsUnknown oneCpu 0x80020000) := by
  have hconf : mpconfig oneCpu = some (0x80010000, 0x80020000) := by decide +kernel
  have hend : tableEnd oneCpu 0x80020000 = 0x80020040 := by decide +kernel
  refine ⟨hconf, (mpinit_ends_iff 0 hconf (by rw [hend]; decide)).2 ?_⟩
  rintro ⟨q, hq, hnone⟩
  have hfirst : entrySize (oneCpu (firstEntry 0x80020000)) = some 20 := by decide +kernel
  rw [hend] at hq
  cases hq with
  | here h =>
    rw [hfirst] at hnone
    cases hnone
  | next h hk hq =>
    rw [hfirst] at hk
    cases hk
    -- the second entry would be behind the end
    have hpast : ¬ firstEntry 0x80020000 + 20 < (0x80020040 : Word) := by decide
    cases hq with
    | here h => exact hpast h
    | next h _ _ => exact hpast h

/-- One entry of type 5. -/
def oneOdd : Ram := tableRam (mpTable 52 0x93 [5, 0, 0, 0, 0, 0, 0, 0])

/-- `mpconfig` accepts the table, and `mpinit` neither returns nor panics. -/
theorem mpinit_hangs : mpconfig oneOdd = some (0x80010000, 0x80020000) ∧
    MeetsUnknown oneOdd 0x80020000 ∧ ∀ rounds, mpinit oneOdd 0 rounds = none := by
  have hconf : mpconfig oneOdd = some (0x80010000, 0x80020000) := by decide +kernel
  have hu : MeetsUnknown oneOdd 0x80020000 :=
    ⟨firstEntry 0x80020000, .here (by decide +kernel), by decide +kernel⟩
  exact ⟨hconf, hu, mpinit_stays hconf hu⟩

end Xv6.Boot
