import Xv6.Lib.RingList
import Xv6.Lib.Tiles

/-!
# The allocator of user programs: the free list

Model of `umalloc.c`.  A `Header` is eight bytes, and block sizes count headers.  The heap is the two
fields of every header, by the header's address, the static `freep`, and the calls of `sbrk` made so
far with what they returned.  Addresses and sizes are of 32 bits and wrap.

`FreeList` is what holds of the free list between calls: it is one ring through `base` in increasing
order, with a gap between each block and the next.  `free` looks for the last block below the one it
is given and joins it with its neighbours; `free_spec` says what it leaves.
-/

namespace Xv6.User.Umalloc

open RingList

structure Heap where
  /-- `p->s.ptr` -/
  ptr : Nat → Nat
  /-- `p->s.size` -/
  size : Nat → Nat
  freep : Nat
  /-- The arguments of `sbrk` as it reads them, the last one first; `none` is -1. -/
  calls : List (Int × Option Nat)

def unit (p n : Nat) : Nat := (p + 8 * n) % 2 ^ 32

/-- A `uint` passed as an `int`. -/
def asInt (n : Nat) : Int := if n < 2 ^ 31 then n else (n : Int) - 2 ^ 32

namespace Heap

def setPtr (h : Heap) (p v : Nat) : Heap := { h with ptr := Function.update h.ptr p v }

def setSize (h : Heap) (p v : Nat) : Heap := { h with size := Function.update h.size p v }

def setFreep (h : Heap) (p : Nat) : Heap := { h with freep := p }

def block (h : Heap) (p : Nat) : Piece := ⟨p, 8 * h.size p⟩

@[simp] theorem setPtr_ptr (h : Heap) (p v : Nat) :
    (h.setPtr p v).ptr = Function.update h.ptr p v := rfl
@[simp] theorem setPtr_size (h : Heap) (p v : Nat) : (h.setPtr p v).size = h.size := rfl
@[simp] theorem setPtr_freep (h : Heap) (p v : Nat) : (h.setPtr p v).freep = h.freep := rfl
@[simp] theorem setPtr_calls (h : Heap) (p v : Nat) : (h.setPtr p v).calls = h.calls := rfl
@[simp] theorem setSize_ptr (h : Heap) (p v : Nat) : (h.setSize p v).ptr = h.ptr := rfl
@[simp] theorem setSize_size (h : Heap) (p v : Nat) :
    (h.setSize p v).size = Function.update h.size p v := rfl
@[simp] theorem setSize_freep (h : Heap) (p v : Nat) : (h.setSize p v).freep = h.freep := rfl
@[simp] theorem setSize_calls (h : Heap) (p v : Nat) : (h.setSize p v).calls = h.calls := rfl
@[simp] theorem setFreep_ptr (h : Heap) (p : Nat) : (h.setFreep p).ptr = h.ptr := rfl
@[simp] theorem setFreep_size (h : Heap) (p : Nat) : (h.setFreep p).size = h.size := rfl
@[simp] theorem setFreep_freep (h : Heap) (p : Nat) : (h.setFreep p).freep = p := rfl
@[simp] theorem setFreep_calls (h : Heap) (p : Nat) : (h.setFreep p).calls = h.calls := rfl

end Heap

/-- Where the loop of `free` stops: the block at `bp` belongs between `p` and the next. -/
def stops (h : Heap) (bp p : Nat) : Bool :=
  (p < bp && bp < h.ptr p) || (h.ptr p ≤ p && (p < bp || bp < h.ptr p))

/-- `if(bp + bp->s.size == p->s.ptr) ... else bp->s.ptr = p->s.ptr;` -/
def joinUpper (h : Heap) (bp p : Nat) : Heap :=
  if unit bp (h.size bp) = h.ptr p then
    (h.setSize bp ((h.size bp + h.size (h.ptr p)) % 2 ^ 32)).setPtr bp (h.ptr (h.ptr p))
  else h.setPtr bp (h.ptr p)

def joinLower (h : Heap) (bp p : Nat) : Heap :=
  if unit p (h.size p) = bp then
    (h.setSize p ((h.size p + h.size bp) % 2 ^ 32)).setPtr p (h.ptr bp)
  else h.setPtr p bp

/-- `free`, with a bound on the rounds of its loop; `none` if they do not suffice. -/
def free (fuel : Nat) (h : Heap) (ap : Nat) : Option Heap :=
  let bp := (ap + (2 ^ 32 - 8)) % 2 ^ 32
  (walk h.ptr (stops h bp) fuel h.freep).map fun p =>
    (joinLower (joinUpper h bp p) bp p).setFreep p

structure FreeList (base : Nat) (h : Heap) (fs : List Nat) : Prop where
  ring : Cyc h.ptr base fs
  freep : h.freep ∈ base :: fs
  gaps : (base :: fs).Pairwise fun a b => a + 8 * h.size a < b
  base_size : h.size base = 0
  base_pos : 0 < base

variable {base bp n : Nat} {h : Heap} {fs : List Nat}

namespace FreeList

theorem sorted (hf : FreeList base h fs) : (base :: fs).Pairwise (· < ·) :=
  hf.gaps.imp fun h => by omega

theorem nodup (hf : FreeList base h fs) : (base :: fs).Nodup :=
  hf.sorted.imp fun h => Nat.ne_of_lt h

theorem base_le (hf : FreeList base h fs) {x : Nat} (hx : x ∈ base :: fs) : base ≤ x := by
  rcases List.mem_cons.1 hx with rfl | hx
  · exact le_rfl
  · exact Nat.le_of_lt (List.rel_of_pairwise_cons hf.sorted hx)

/-- The link of a block is the block behind it, and that of the last one is `base`. -/
theorem ptr_eq (hf : FreeList base h fs) {l₁ l₂ : List Nat} {p : Nat}
    (he : base :: fs = l₁ ++ p :: l₂) : h.ptr p = l₂.headD base := by
  have hptr := (cyc_iff.1 ((cyc_at he).1 hf.ring)).1
  rw [hptr]
  cases l₂ with
  | cons q l₂ => simp
  | nil =>
    cases l₁ with
    | nil => simpa using (List.cons.inj he).1.symm
    | cons a l₁ => simpa using (List.cons.inj he).1.symm

end FreeList

def Below (bp p : Nat) (l : List Nat) : Prop := p ∈ l ∧ p < bp ∧ ∀ z ∈ l, z ≤ p ∨ bp < z

theorem exists_below {a : Nat} {l : List Nat} (hs : (a :: l).Pairwise (· < ·)) (ha : a < bp)
    (hne : bp ∉ l) : ∃ p, Below bp p (a :: l) := by
  induction l generalizing a with
  | nil => exact ⟨a, by simp, ha, by simp⟩
  | cons b l ih =>
    have hab : a < b := List.rel_of_pairwise_cons hs List.mem_cons_self
    by_cases hb : b < bp
    · obtain ⟨p, hp, hlt, hz⟩ := ih (List.pairwise_cons.1 hs).2 hb fun h => hne (.tail b h)
      have hbp : b ≤ p := by
        have := hz b List.mem_cons_self
        omega
      refine ⟨p, List.mem_cons_of_mem a hp, hlt, fun z hzm => ?_⟩
      rcases List.mem_cons.1 hzm with rfl | hzm
      · exact .inl (by omega)
      · exact hz z hzm
    · refine ⟨a, List.mem_cons_self, ha, fun z hzm => ?_⟩
      rcases List.mem_cons.1 hzm with rfl | hzm
      · exact .inl le_rfl
      · have hbz : b ≤ z := by
          rcases List.mem_cons.1 hzm with rfl | hzm
          · exact le_rfl
          · exact Nat.le_of_lt (List.rel_of_pairwise_cons (List.pairwise_cons.1 hs).2 hzm)
        have hneb : b ≠ bp := fun h => hne (h ▸ List.mem_cons_self)
        exact .inr (by omega)

theorem FreeList.stops_iff (hf : FreeList base h fs) (hb : base < bp) (hne : bp ∉ base :: fs) {p : Nat}
    (hp : p ∈ base :: fs) : stops h bp p ↔ Below bp p (base :: fs) := by
  obtain ⟨l₁, l₂, he⟩ := List.append_of_mem hp
  have hptr := hf.ptr_eq he
  have hsort := hf.sorted
  rw [he] at hsort
  obtain ⟨-, htail, hcross⟩ := List.pairwise_append.1 hsort
  have hlow : ∀ z ∈ l₁, z < p := fun z hz => hcross z hz p List.mem_cons_self
  have hpb : p ≠ bp := fun h => hne (h ▸ hp)
  have hbase := hf.base_le hp
  simp only [stops, Bool.or_eq_true, Bool.and_eq_true, decide_eq_true_eq, hptr]
  constructor
  · intro hstop
    refine ⟨hp, ?_, fun z hz => ?_⟩
    · cases l₂ with
      | nil =>
        rw [List.headD_nil] at hstop
        omega
      | cons q l₂ =>
        have hpq : p < q := List.rel_of_pairwise_cons htail List.mem_cons_self
        rw [List.headD_cons] at hstop
        omega
    · rw [he] at hz
      rcases List.mem_append.1 hz with hz | hz
      · exact .inl (Nat.le_of_lt (hlow z hz))
      · rcases List.mem_cons.1 hz with rfl | hz
        · exact .inl le_rfl
        · -- behind `p` the smallest is the next, and that is above `bp`
          cases l₂ with
          | nil => cases hz
          | cons q l₂ =>
            have hpq : p < q := List.rel_of_pairwise_cons htail List.mem_cons_self
            have hqz : q ≤ z := by
              rcases List.mem_cons.1 hz with rfl | hz
              · exact le_rfl
              · exact Nat.le_of_lt
                  (List.rel_of_pairwise_cons (List.pairwise_cons.1 htail).2 hz)
            simp only [List.headD_cons] at hstop
            exact .inr (by omega)
  · rintro ⟨-, hlt, hz⟩
    cases l₂ with
    | nil => exact .inr ⟨by simpa using hbase, .inl hlt⟩
    | cons q l₂ =>
      have hpq : p < q := List.rel_of_pairwise_cons htail List.mem_cons_self
      have hq := hz q (by rw [he]; simp)
      exact .inl ⟨hlt, by simp only [List.headD_cons]; omega⟩

theorem FreeList.walk_stops (hf : FreeList base h fs) (hb : base < bp) (hne : bp ∉ base :: fs) :
    ∃ p, Below bp p (base :: fs) ∧ walk h.ptr (stops h bp) (fs.length + 1) h.freep = some p := by
  obtain ⟨p, hp⟩ := exists_below hf.sorted hb fun h => hne (.tail base h)
  obtain ⟨l₁, l₂, he⟩ := List.append_of_mem hf.freep
  have hmem : ∀ x, x ∈ h.freep :: (l₂ ++ l₁) ↔ x ∈ base :: fs := by
    intro x
    rw [he]
    simp only [List.mem_cons, List.mem_append]
    tauto
  have hring : Links h.ptr ((h.freep :: (l₂ ++ l₁)) ++ [h.freep]) := (cyc_at he).1 hf.ring
  have hlinks : Links h.ptr (h.freep :: (l₂ ++ l₁)) := List.IsChain.left_of_append hring
  have hex : ∃ x ∈ h.freep :: (l₂ ++ l₁), stops h bp x :=
    ⟨p, (hmem p).2 hp.1, (hf.stops_iff hb hne hp.1).2 hp⟩
  obtain ⟨x, hx, hstop, hwalk⟩ := walk_finds hlinks hex
  have hlen : (l₂ ++ l₁).length + 1 = fs.length + 1 := by
    have := congrArg List.length he
    simp only [List.length_cons, List.length_append] at this ⊢
    omega
  exact ⟨x, (hf.stops_iff hb hne ((hmem x).1 hx)).1 hstop, hlen ▸ hwalk⟩

structure Place (h : Heap) (base bp n p : Nat) (l₁ l₂ : List Nat) : Prop where
  size : h.size bp = n
  pos : 0 < n
  fits : bp + 8 * n ≤ 2 ^ 32
  base_lt : base < bp
  below : ∀ a ∈ l₁ ++ [p], a + 8 * h.size a ≤ bp
  above : ∀ b ∈ l₂, bp + 8 * n ≤ b ∧ 0 < h.size b ∧ b + 8 * h.size b ≤ 2 ^ 32

theorem FreeList.place (hf : FreeList base h fs) (hsize : h.size bp = n) (hpos : 0 < 8 * n)
    (hfits : bp + 8 * n ≤ 2 ^ 32) (hb : base < bp)
    (hblocks : ∀ x ∈ fs, 0 < h.size x ∧ x + 8 * h.size x ≤ 2 ^ 32 ∧
      (bp + 8 * n ≤ x ∨ x + 8 * h.size x ≤ bp))
    {p : Nat} {l₁ l₂ : List Nat} (hp : Below bp p (base :: fs)) (he : base :: fs = l₁ ++ p :: l₂) :
    Place h base bp n p l₁ l₂ := by
  have hsort := hf.sorted
  rw [he] at hsort
  obtain ⟨-, htail, hcross⟩ := List.pairwise_append.1 hsort
  have hlt := hp.2.1
  refine ⟨hsize, by omega, hfits, hb, fun a ha => ?_, fun b hbm => ?_⟩
  · have hap : a ≤ p := by
      rcases List.mem_append.1 ha with ha | ha
      · exact Nat.le_of_lt (hcross a ha p List.mem_cons_self)
      · exact (List.mem_singleton.1 ha).le
    have hmem : a ∈ base :: fs := by
      rw [he]
      simp only [List.mem_append, List.mem_cons, List.not_mem_nil, or_false] at ha ⊢
      tauto
    rcases List.mem_cons.1 hmem with rfl | hmem
    · rw [hf.base_size]
      omega
    · have := hblocks a hmem
      omega
  · have hpb : p < b := List.rel_of_pairwise_cons htail hbm
    have hmem : b ∈ base :: fs := by
      rw [he]
      simp [hbm]
    have habove := hp.2.2 b hmem
    rcases List.mem_cons.1 hmem with rfl | hmem
    · omega
    · have := hblocks b hmem
      omega

structure Upper (h h' : Heap) (bp n n' p : Nat) (l₁ l₂ l₂' : List Nat) : Prop where
  ptr : h'.ptr = Function.update h.ptr bp ((l₂' ++ l₁).headD p)
  size : h'.size = Function.update h.size bp n'
  calls : h'.calls = h.calls
  suffix : l₂' <:+ l₂
  le : n ≤ n'
  fits : bp + 8 * n' ≤ 2 ^ 32
  gap : ∀ b ∈ l₂', bp + 8 * n' < b
  tiles : ∀ A rs, Tiles (⟨bp, 8 * n⟩ :: (l₂.map h.block ++ A)) rs →
    Tiles (⟨bp, 8 * n'⟩ :: (l₂'.map h.block ++ A)) rs

theorem joinUpper_spec {p : Nat} {l₁ l₂ : List Nat} (hf : FreeList base h fs)
    (he : base :: fs = l₁ ++ p :: l₂) (hpl : Place h base bp n p l₁ l₂) :
    ∃ n' l₂', Upper h (joinUpper h bp p) bp n n' p l₁ l₂ l₂' := by
  have hptr := hf.ptr_eq he
  have hring := (cyc_at he).1 hf.ring
  have hhead : h.ptr p = (l₂ ++ l₁).headD p := (cyc_iff.1 hring).1
  have hpos := hpl.pos
  have hfits := hpl.fits
  have hbase := hpl.base_lt
  by_cases hmeet : unit bp (h.size bp) = h.ptr p
  · -- the address behind the block is not `base`, so it is the first of `l₂`
    rw [joinUpper, if_pos hmeet]
    rw [hpl.size, unit] at hmeet
    cases l₂ with
    | nil =>
      rw [List.headD_nil] at hptr
      have hbpos := hf.base_pos
      omega
    | cons q l₂ =>
      rw [List.headD_cons] at hptr
      have hq := hpl.above q List.mem_cons_self
      have hqe : bp + 8 * n = q := by omega
      have hlinks : Links h.ptr (q :: ((l₂ ++ l₁) ++ [p])) := (List.isChain_cons_cons.1 hring).2
      have hqnext : h.ptr q = (l₂ ++ l₁).headD p := links_head hlinks
      have hsum : n + h.size q < 2 ^ 32 := by omega
      have hgap : ∀ b ∈ l₂, q + 8 * h.size q < b := by
        have hg := hf.gaps
        rw [he] at hg
        exact (List.pairwise_cons.1 (List.pairwise_cons.1 (List.pairwise_append.1 hg).2.1).2).1
      refine ⟨n + h.size q, l₂, ?_, ?_, rfl, List.suffix_cons q l₂, by omega, by omega, ?_, ?_⟩
      · simp [hptr, hqnext]
      · rw [Heap.setPtr_size, Heap.setSize_size, hptr, hpl.size, Nat.mod_eq_of_lt hsum]
      · intro b hb
        have := hgap b hb
        omega
      · intro A rs ht
        rw [Nat.mul_add]
        refine Tiles.join ?_
        rw [hqe]
        exact ht
  · rw [joinUpper, if_neg hmeet]
    rw [hpl.size, unit] at hmeet
    refine ⟨n, l₂, ?_, ?_, rfl, List.suffix_refl l₂, le_rfl, hfits, ?_, fun A rs ht => ht⟩
    · rw [Heap.setPtr_ptr, hhead]
    · rw [Heap.setPtr_size, ← hpl.size, Function.update_eq_self]
    · intro b hb
      cases l₂ with
      | nil => cases hb
      | cons q l₂ =>
        rw [List.headD_cons] at hptr
        have hq := hpl.above q List.mem_cons_self
        have hqb : q ≤ b := by
          have hs := hf.sorted
          rw [he] at hs
          have hs' := (List.pairwise_cons.1 (List.pairwise_append.1 hs).2.1).2
          rcases List.mem_cons.1 hb with rfl | hb
          · exact le_rfl
          · exact Nat.le_of_lt (List.rel_of_pairwise_cons hs' hb)
        omega

/-- What `free` leaves of the free list and of the cut of the regions; the block it was given had `n`
units. -/
structure Freed (base bp n : Nat) (h h' : Heap) (fs fs' : List Nat) (A rs : List Piece) : Prop where
  list : FreeList base h' fs'
  tiles : Tiles (fs'.map h'.block ++ A) rs
  room : ∃ x ∈ fs', n ≤ h'.size x
  size_of_ne : ∀ x, x ≠ bp → x ∉ fs → h'.size x = h.size x
  calls : h'.calls = h.calls

/-- The pieces of blocks whose sizes did not change. -/
theorem map_block_congr {h h' : Heap} {l : List Nat} (he : ∀ x ∈ l, h'.size x = h.size x) :
    l.map h'.block = l.map h.block :=
  List.map_congr_left fun x hx => by rw [Heap.block, Heap.block, he x hx]

section Join

variable {p n' : Nat} {l₁ l₂ l₂' : List Nat} {A rs : List Piece} {h₁ : Heap}

theorem tail_eq (he : base :: fs = l₁ ++ p :: l₂) (ts : List Nat) :
    fs = (l₁ ++ [p]).tail ++ l₂ ∧ base :: ((l₁ ++ [p]).tail ++ ts) = l₁ ++ p :: ts := by
  cases l₁ with
  | nil =>
    obtain ⟨rfl, rfl⟩ := List.cons.inj he
    simp
  | cons a l₁ =>
    obtain ⟨rfl, rfl⟩ := List.cons.inj he
    simp

theorem Upper.links (hup : Upper h h₁ bp n n' p l₁ l₂ l₂') (hf : FreeList base h fs)
    (he : base :: fs = l₁ ++ p :: l₂) : Links h.ptr ((l₂' ++ l₁) ++ [p]) := by
  have hring := (cyc_iff.1 ((cyc_at he).1 hf.ring)).2
  obtain ⟨u, rfl⟩ := hup.suffix
  rw [List.append_assoc u, List.append_assoc u] at hring
  exact List.IsChain.right_of_append hring

theorem Upper.gaps (hup : Upper h h₁ bp n n' p l₁ l₂ l₂') (hf : FreeList base h fs)
    (he : base :: fs = l₁ ++ p :: l₂) :
    (l₁ ++ p :: l₂').Pairwise fun a b => a + 8 * h.size a < b := by
  have hg := hf.gaps
  rw [he] at hg
  exact hg.sublist ((hup.suffix.sublist.cons_cons p).append_left l₁)

theorem Upper.notMem (hup : Upper h h₁ bp n n' p l₁ l₂ l₂') (he : base :: fs = l₁ ++ p :: l₂)
    (hne : bp ∉ base :: fs) : bp ∉ l₁ ∧ bp ≠ p ∧ bp ∉ l₂' := by
  rw [he] at hne
  simp only [List.mem_append, List.mem_cons, not_or] at hne
  exact ⟨hne.1, hne.2.1, fun hb => hne.2.2 (hup.suffix.subset hb)⟩

theorem Upper.pieces (hup : Upper h h₁ bp n n' p l₁ l₂ l₂') (he : base :: fs = l₁ ++ p :: l₂)
    (ht : Tiles (⟨bp, 8 * n⟩ :: (fs.map h.block ++ A)) rs) :
    Tiles (⟨bp, 8 * n'⟩ :: (l₂'.map h.block ++ ((l₁ ++ [p]).tail.map h.block ++ A))) rs := by
  refine hup.tiles _ rs (ht.perm ?_)
  rw [(tail_eq he l₂).1, List.map_append]
  exact ((List.perm_append_comm.append_right A).trans (by rw [List.append_assoc])).cons _

theorem Upper.self_notMem (hup : Upper h h₁ bp n n' p l₁ l₂ l₂') (hf : FreeList base h fs)
    (he : base :: fs = l₁ ++ p :: l₂) : p ∉ l₁ ∧ p ∉ l₂' := by
  obtain ⟨-, hright, hcross⟩ := List.pairwise_append.1 (hup.gaps hf he)
  refine ⟨fun hp => ?_, fun hp => ?_⟩
  · have := hcross p hp p List.mem_cons_self
    omega
  · have := List.rel_of_pairwise_cons hright hp
    omega

theorem Upper.size_of_ne (hup : Upper h h₁ bp n n' p l₁ l₂ l₂') {x : Nat} (hx : x ≠ bp) :
    h₁.size x = h.size x := by
  rw [hup.size, Function.update_of_ne hx]

theorem Upper.gaps_insert (hup : Upper h h₁ bp n n' p l₁ l₂ l₂') (hf : FreeList base h fs)
    (he : base :: fs = l₁ ++ p :: l₂) (hgap : p + 8 * h.size p < bp) :
    (l₁ ++ p :: bp :: l₂').Pairwise fun a b => a + 8 * h₁.size a < b := by
  obtain ⟨hleft, hright, hcross⟩ := List.pairwise_append.1 (hup.gaps hf he)
  obtain ⟨hnext, hl₂⟩ := List.pairwise_cons.1 hright
  have hlt : ∀ a ∈ l₁, a + 8 * h.size a < p := fun a ha => hcross a ha p List.mem_cons_self
  have hbp : h₁.size bp = n' := by rw [hup.size, Function.update_self]
  have hsize : ∀ a, a < bp ∨ bp < a → h₁.size a = h.size a := fun a ha =>
    hup.size_of_ne (by omega)
  refine List.pairwise_append.2 ⟨?_, List.pairwise_cons.2 ⟨?_, List.pairwise_cons.2 ⟨?_, ?_⟩⟩, ?_⟩
  · refine hleft.imp_of_mem fun {a b} ha _ hab => ?_
    have := hlt a ha
    rwa [hsize a (by omega)]
  · intro b hb
    rw [hsize p (by omega)]
    rcases List.mem_cons.1 hb with rfl | hb
    · exact hgap
    · exact hnext b hb
  · intro b hb
    rw [hbp]
    exact hup.gap b hb
  · refine hl₂.imp_of_mem fun {a b} ha _ hab => ?_
    have := hup.gap a ha
    rwa [hsize a (by omega)]
  · intro a ha b hb
    have hap := hlt a ha
    rw [hsize a (by omega)]
    rcases List.mem_cons.1 hb with rfl | hb
    · exact hap
    · rcases List.mem_cons.1 hb with rfl | hb
      · omega
      · exact hcross a ha b (List.mem_cons_of_mem p hb)

theorem joinLower_apart (hf : FreeList base h fs) (he : base :: fs = l₁ ++ p :: l₂)
    (hne : bp ∉ base :: fs) (hup : Upper h h₁ bp n n' p l₁ l₂ l₂')
    (hgap : p + 8 * h.size p < bp) (ht : Tiles (⟨bp, 8 * n⟩ :: (fs.map h.block ++ A)) rs) :
    Freed base bp n h ((h₁.setPtr p bp).setFreep p) fs ((l₁ ++ [p]).tail ++ bp :: l₂') A rs := by
  obtain ⟨hfs, hfs'⟩ := tail_eq he (bp :: l₂')
  obtain ⟨hn₁, hnp, hn₂⟩ := hup.notMem he hne
  obtain ⟨hp₁, hp₂⟩ := hup.self_notMem hf he
  have hbp : h₁.size bp = n' := by rw [hup.size, Function.update_self]
  refine ⟨⟨?_, ?_, ?_, ?_, hf.base_pos⟩, ?_, ⟨bp, by simp, ?_⟩, ?_, hup.calls⟩
  · have hlinks : Links h₁.ptr ((bp :: (l₂' ++ l₁)) ++ [p]) := by
      rw [hup.ptr]
      exact links_update (hup.links hf he) (by simp [hn₁, hn₂])
    exact (cyc_at hfs').2 (links_update hlinks (by simp [hp₁, hp₂, hnp.symm]))
  · rw [hfs']
    simp
  · rw [hfs']
    exact hup.gaps_insert hf he hgap
  · have hbase : base ≠ bp := fun h => hne (h ▸ List.mem_cons_self)
    exact (hup.size_of_ne hbase).trans hf.base_size
  · have hk : (l₁ ++ [p]).tail.map h₁.block = (l₁ ++ [p]).tail.map h.block :=
      map_block_congr fun x hx => hup.size_of_ne fun hxb => by
        have := List.mem_of_mem_tail hx
        simp_all
    have hl : l₂'.map h₁.block = l₂'.map h.block :=
      map_block_congr fun x hx => hup.size_of_ne fun hxb => hn₂ (hxb ▸ hx)
    show Tiles (((l₁ ++ [p]).tail ++ bp :: l₂').map h₁.block ++ A) rs
    rw [List.map_append, List.map_cons, hk, hl, Heap.block, hbp]
    refine (hup.pieces he ht).perm (List.perm_iff_count.2 fun b => ?_)
    simp only [List.count_append, List.count_cons]
    omega
  · rw [Heap.setFreep_size, Heap.setPtr_size, hbp]
    exact hup.le
  · intro x hx _
    exact hup.size_of_ne hx

theorem joinLower_meet (hf : FreeList base h fs) (he : base :: fs = l₁ ++ p :: l₂)
    (hne : bp ∉ base :: fs) (hb : base < bp) (hup : Upper h h₁ bp n n' p l₁ l₂ l₂')
    (hmeet : p + 8 * h.size p = bp) (ht : Tiles (⟨bp, 8 * n⟩ :: (fs.map h.block ++ A)) rs) :
    Freed base bp n h
      (((h₁.setSize p (h.size p + n')).setPtr p ((l₂' ++ l₁).headD p)).setFreep p)
      fs ((l₁ ++ [p]).tail ++ l₂') A rs := by
  obtain ⟨hfs, hfs'⟩ := tail_eq he l₂'
  obtain ⟨hn₁, hnp, hn₂⟩ := hup.notMem he hne
  obtain ⟨hp₁, hp₂⟩ := hup.self_notMem hf he
  -- `base` has no units, so it does not meet the block
  obtain ⟨l, rfl⟩ : ∃ l, l₁ = base :: l := by
    cases l₁ with
    | nil =>
      obtain ⟨rfl, -⟩ := List.cons.inj he
      rw [hf.base_size] at hmeet
      omega
    | cons a l =>
      obtain ⟨rfl, -⟩ := List.cons.inj he
      exact ⟨l, rfl⟩
  have hsize : ∀ x, x ≠ bp → x ≠ p →
      Function.update h₁.size p (h.size p + n') x = h.size x := fun x hxb hxp => by
    rw [Function.update_of_ne hxp, hup.size_of_ne hxb]
  refine ⟨⟨?_, ?_, ?_, ?_, hf.base_pos⟩, ?_, ⟨p, by simp, ?_⟩, ?_, hup.calls⟩
  · have hlinks : Links h₁.ptr ((l₂' ++ base :: l) ++ [p]) := by
      rw [hup.ptr]
      exact (hup.links hf he).update (by simp_all)
    exact (cyc_at hfs').2 (links_update hlinks (by simp_all))
  · rw [hfs']
    simp
  · rw [hfs']
    obtain ⟨hleft, hright, hcross⟩ := List.pairwise_append.1 (hup.gaps hf he)
    obtain ⟨hnext, hl₂⟩ := List.pairwise_cons.1 hright
    have hlt : ∀ a ∈ base :: l, a < p := fun a ha => by
      have := hcross a ha p List.mem_cons_self
      omega
    show (base :: l ++ p :: l₂').Pairwise fun a b =>
      a + 8 * Function.update h₁.size p (h.size p + n') a < b
    refine List.pairwise_append.2 ⟨?_, List.pairwise_cons.2 ⟨?_, ?_⟩, ?_⟩
    · refine hleft.imp_of_mem fun {a b} ha _ hab => ?_
      have := hlt a ha
      rwa [hsize a (by omega) (by omega)]
    · intro b hb
      have := hup.gap b hb
      rw [Function.update_self]
      omega
    · refine hl₂.imp_of_mem fun {a b} ha _ hab => ?_
      have := hup.gap a ha
      rwa [hsize a (by omega) (by omega)]
    · intro a ha b hb
      have := hlt a ha
      rw [hsize a (by omega) (by omega)]
      exact hcross a ha b hb
  · have hpb : base ≠ p := fun h => hp₁ (h ▸ List.mem_cons_self)
    exact (hsize base (by omega) hpb).trans hf.base_size
  · set h' := ((h₁.setSize p (h.size p + n')).setPtr p ((l₂' ++ base :: l).headD p)).setFreep p
    have hk : l.map h'.block = l.map h.block :=
      map_block_congr fun x hx => hsize x (fun hxb => hn₁ (by simp [← hxb, hx]))
        fun hxp => hp₁ (by simp [← hxp, hx])
    have hl : l₂'.map h'.block = l₂'.map h.block :=
      map_block_congr fun x hx => hsize x (fun hxb => hn₂ (hxb ▸ hx)) fun hxp => hp₂ (hxp ▸ hx)
    have hp : h'.block p = ⟨p, 8 * h.size p + 8 * n'⟩ := by
      rw [← Nat.mul_add]
      exact congrArg (fun m => (⟨p, 8 * m⟩ : Piece)) (Function.update_self p _ h₁.size)
    have hjoined : Tiles (h'.block p :: (l₂'.map h.block ++ (l.map h.block ++ A))) rs := by
      rw [hp]
      refine Tiles.join ((hup.pieces he ht).perm (List.perm_iff_count.2 fun b => ?_))
      rw [hmeet]
      simp only [List.cons_append, List.tail_cons, List.map_append, List.map_cons, List.map_nil,
        List.count_append, List.count_cons, List.count_nil, Heap.block]
      omega
    refine hjoined.perm (List.perm_iff_count.2 fun b => ?_)
    simp only [List.cons_append, List.tail_cons, List.map_append, List.map_cons, List.map_nil, hk, hl,
      List.count_append, List.count_cons, List.count_nil]
    omega
  · rw [Heap.setFreep_size, Heap.setPtr_size, Heap.setSize_size, Function.update_self]
    have := hup.le
    omega
  · intro x hx hxf
    refine hsize x hx fun hxp => hxf ?_
    rw [hfs, hxp]
    simp

/-- **`free`** of a block that is cut out of the regions and not in the free list: the loop ends, and
the block is in the free list, joined with its neighbours. -/
theorem free_spec (hf : FreeList base h fs) (hsize : h.size bp = n)
    (ht : Tiles (⟨bp, 8 * n⟩ :: (fs.map h.block ++ A)) rs)
    (hr : ∀ r ∈ rs, base + 8 ≤ r.start ∧ r.start + r.len ≤ 2 ^ 32) :
    ∃ h' fs', (∀ fuel, fs.length + 1 ≤ fuel → free fuel h (unit bp 1) = some h') ∧
      Freed base bp n h h' fs fs' A rs := by
  have hpos : 0 < 8 * n := ht.pos ⟨bp, 8 * n⟩ List.mem_cons_self
  have hbd : base + 8 ≤ bp ∧ bp + 8 * n ≤ 2 ^ 32 := ht.bounds hr List.mem_cons_self
  have hapart := (List.pairwise_cons.1 ht.apart).1
  have hblocks : ∀ x ∈ fs, 0 < h.size x ∧ x + 8 * h.size x ≤ 2 ^ 32 ∧
      (bp + 8 * n ≤ x ∨ x + 8 * h.size x ≤ bp) := by
    intro x hx
    have hmem : h.block x ∈ fs.map h.block ++ A :=
      List.mem_append_left A (List.mem_map_of_mem hx)
    have hxpos : 0 < 8 * h.size x := ht.pos _ (List.mem_cons_of_mem _ hmem)
    have hxb : _ ∧ x + 8 * h.size x ≤ _ := ht.bounds hr (List.mem_cons_of_mem _ hmem)
    exact ⟨by omega, hxb.2, hapart _ hmem⟩
  have hb : base < bp := by omega
  have hne : bp ∉ base :: fs := by
    intro hmem
    rcases List.mem_cons.1 hmem with rfl | hmem
    · omega
    · have := hblocks bp hmem
      omega
  obtain ⟨p, hbelow, hwalk⟩ := hf.walk_stops hb hne
  obtain ⟨l₁, l₂, he⟩ := List.append_of_mem hbelow.1
  have hpl := hf.place hsize hpos (by omega) hb hblocks hbelow he
  obtain ⟨n', l₂', hup⟩ := joinUpper_spec hf he hpl
  have hpbp : p ≠ bp := Nat.ne_of_lt hbelow.2.1
  have hple : p + 8 * h.size p ≤ bp := hpl.below p (by simp)
  have hsp : (joinUpper h bp p).size p = h.size p := hup.size_of_ne hpbp
  have hfree : ∀ fuel, fs.length + 1 ≤ fuel → free fuel h (unit bp 1) =
      some ((joinLower (joinUpper h bp p) bp p).setFreep p) := by
    intro fuel hfuel
    have hbp : (unit bp 1 + (2 ^ 32 - 8)) % 2 ^ 32 = bp := by
      rw [unit]
      omega
    simp only [free, hbp, walk_mono hwalk hfuel, Option.map_some]
  by_cases hmeet : p + 8 * h.size p = bp
  · have hsbp : (joinUpper h bp p).size bp = n' := by rw [hup.size, Function.update_self]
    have hnext : (joinUpper h bp p).ptr bp = (l₂' ++ l₁).headD p := by
      rw [hup.ptr, Function.update_self]
    have hfits := hup.fits
    have hu : unit p ((joinUpper h bp p).size p) = bp := by
      rw [hsp, unit]
      omega
    refine ⟨_, (l₁ ++ [p]).tail ++ l₂', hfree, ?_⟩
    rw [joinLower, if_pos hu, hsp, hsbp, hnext, Nat.mod_eq_of_lt (by omega)]
    exact joinLower_meet hf he hne hb hup hmeet ht
  · have hu : unit p ((joinUpper h bp p).size p) ≠ bp := by
      rw [hsp, unit]
      omega
    refine ⟨_, (l₁ ++ [p]).tail ++ bp :: l₂', hfree, ?_⟩
    rw [joinLower, if_neg hu]
    exact joinLower_apart hf he hne hup (by omega) ht

end Join

end Xv6.User.Umalloc
