import Xv6.User.Malloc
import Mathlib.Logic.Relation

/-!
# The allocator of user programs: whole runs

A program calls `malloc` and gives back with `free` what it was given.  The blocks it has are known by
their headers, as `free` knows them.  `umalloc_invariant` is what holds after any number of calls;
`malloc_served_iff` says for which requests `malloc` does what it should: from 2^31 - 15 bytes on the
argument of `sbrk` is not positive, and in the last seven sizes the number of units wraps to 1.
-/

namespace Xv6.User.Umalloc

open RingList Piece

/-- A pointer that `malloc` returned, and the bytes that were asked for. -/
structure Alloc where
  ptr : Nat
  nbytes : Nat
deriving DecidableEq

/-- The allocator and what the program holds. -/
structure Sys where
  heap : Heap
  alloc : List Alloc

/-- The block behind a pointer: its header is before it. -/
def Sys.held (s : Sys) : List Piece := s.alloc.map fun a => s.heap.block (a.ptr - 8)

def Sys.malloced (s : Sys) (h' : Heap) (ret nbytes : Nat) : Sys :=
  ⟨h', if ret = 0 then s.alloc else ⟨ret, nbytes⟩ :: s.alloc⟩

structure Inv (base : Nat) (s : Sys) (fs : List Nat) : Prop where
  list : FreeList base s.heap fs
  tiles : Tiles (fs.map s.heap.block ++ s.held) (regions s.heap)
  bounds : ∀ r ∈ regions s.heap, base + 8 ≤ r.start ∧ r.start + r.len < 2 ^ 32
  room : ∀ a ∈ s.alloc, a.nbytes + 8 ≤ 8 * s.heap.size (a.ptr - 8)

/-- Before the first call of `malloc`. -/
def Untouched (s : Sys) : Prop := s.heap.freep = 0 ∧ s.heap.calls = [] ∧ s.alloc = []

/-- The states of the allocator between calls. -/
def HeapState (base : Nat) (s : Sys) : Prop := 0 < base ∧ (Untouched s ∨ ∃ fs, Inv base s fs)

variable {base : Nat} {s : Sys}

theorem HeapState.start (hs : HeapState base s) :
    ∃ fs, Inv base ⟨start base s.heap, s.alloc⟩ fs := by
  obtain ⟨hb, ⟨hfreep, hcalls, halloc⟩ | ⟨fs, hi⟩⟩ := hs
  · refine ⟨[], ?_⟩
    have hreg : regions (Umalloc.start base s.heap) = [] := by
      simp [Umalloc.start, hfreep, regions, hcalls]
    refine ⟨⟨?_, ?_, ?_, ?_, hb⟩, ?_, ?_, ?_⟩
    · simp [Umalloc.start, hfreep, Cyc, Links]
    · simp [Umalloc.start, hfreep]
    · simp
    · simp [Umalloc.start, hfreep]
    · rw [hreg]
      exact ⟨by simp [Sys.held, halloc], by simp [Sys.held, halloc], by simp [Sys.held, halloc]⟩
    · simp [hreg]
    · simp [halloc]
  · have hne : s.heap.freep ≠ 0 := by
      have := hi.list.base_le hi.list.freep
      omega
    exact ⟨fs, by rwa [Umalloc.start, if_neg hne]⟩

/-- What `malloc` should do for a request of `nbytes`: it returns 0 or a block with that much room, all
of it memory that `sbrk` gave, and asks `sbrk` for more memory only. -/
def Served (h h' : Heap) (nbytes ret : Nat) : Prop :=
  (ret = 0 ∨ nbytes + 8 ≤ 8 * h'.size (ret - 8) ∧
    ∀ x, (h'.block (ret - 8)).Has x → Covered (regions h') x) ∧
  ∃ new, h'.calls = new ++ h.calls ∧ ∀ c ∈ new, 0 < c.1

theorem malloc_spec {sbrk : Int → Option Nat} {nbytes : Nat} (hs : HeapState base s)
    (hn : nbytes ≤ 2 ^ 31 - 16) (hg : Grants base s.heap sbrk) :
    ∃ fuel h' ret, malloc base sbrk fuel s.heap nbytes = some (h', ret) ∧
      Served s.heap h' nbytes ret ∧ ∃ fs', Inv base (s.malloced h' ret nbytes) fs' := by
  obtain ⟨fs, hi⟩ := hs.start
  have hcalls : (start base s.heap).calls = s.heap.calls := by
    rw [start]
    split <;> rfl
  have hreg : regions (start base s.heap) = regions s.heap := by rw [regions, regions, hcalls]
  have hg' : Grants base (start base s.heap) sbrk := by
    unfold Grants
    rw [hreg]
    exact hg
  have hnu : 0 < nunits nbytes ∧ 8 * nunits nbytes < 2 ^ 31 ∧ nbytes + 8 ≤ 8 * nunits nbytes := by
    rw [nunits]
    omega
  obtain ⟨fuel, h', ret, hloop, hm⟩ :=
    mallocLoop_spec hi.list hi.tiles hi.bounds hg' hnu.1 hnu.2.1
  refine ⟨fuel, h', ret, hloop, ?_⟩
  obtain ⟨⟨fs', hlist, hcase⟩, hbounds, hkept, new, hnew, hpos⟩ := hm
  have hsize : ∀ a ∈ s.alloc, h'.size (a.ptr - 8) = (start base s.heap).size (a.ptr - 8) :=
    fun a ha => hkept _ (List.mem_map_of_mem ha)
  have hheld : s.alloc.map (fun a => h'.block (a.ptr - 8)) = Sys.held ⟨start base s.heap, s.alloc⟩ :=
    List.map_congr_left fun a ha => by rw [Heap.block, Heap.block, hsize a ha]
  have hroom : ∀ a ∈ s.alloc, a.nbytes + 8 ≤ 8 * h'.size (a.ptr - 8) := fun a ha => by
    rw [hsize a ha]
    exact hi.room a ha
  rcases hcase with ⟨rfl, ht⟩ | ⟨q, rfl, hq, ht⟩
  · refine ⟨⟨.inl rfl, new, by rw [hnew, hcalls], hpos⟩, fs', hlist, ?_, hbounds, hroom⟩
    rwa [Sys.held, Sys.malloced, if_pos rfl, hheld]
  · have hq8 : q + 8 - 8 = q := by omega
    refine ⟨⟨.inr ⟨?_, fun x hx => ?_⟩, new, by rw [hnew, hcalls], hpos⟩, fs', hlist, ?_, hbounds, ?_⟩
    · rw [hq8, hq]
      exact hnu.2.2
    · rw [hq8, Heap.block, hq] at hx
      exact (ht.cover x).1 ⟨_, List.mem_cons_self, hx⟩
    · rw [Sys.held, Sys.malloced, if_neg (by omega), List.map_cons, hheld]
      show Tiles (fs'.map h'.block ++ h'.block (q + 8 - 8) :: _) (regions h')
      rw [hq8, Heap.block, hq]
      exact ht.perm List.perm_middle.symm
    · rw [Sys.malloced, if_neg (by omega)]
      intro a ha
      rcases List.mem_cons.1 ha with rfl | ha
      · show nbytes + 8 ≤ 8 * h'.size (q + 8 - 8)
        rw [hq8, hq]
        exact hnu.2.2
      · exact hroom a ha

theorem free_alloc {fs : List Nat} {a : Alloc} (hi : Inv base s fs) (ha : a ∈ s.alloc) :
    ∃ fuel h', free fuel s.heap a.ptr = some h' ∧ ∃ fs', Inv base ⟨h', s.alloc.erase a⟩ fs' := by
  have hperm : s.alloc.Perm (a :: s.alloc.erase a) := List.perm_cons_erase ha
  set held := (s.alloc.erase a).map fun b => s.heap.block (b.ptr - 8) with hheld
  have ht : Tiles (s.heap.block (a.ptr - 8) :: (fs.map s.heap.block ++ held)) (regions s.heap) :=
    hi.tiles.perm (((hperm.map _).append_left _).trans List.perm_middle)
  have hlo : base + 8 ≤ a.ptr - 8 ∧ a.ptr - 8 + 8 * s.heap.size (a.ptr - 8) ≤ 2 ^ 32 - 1 :=
    ht.bounds (fun r hr => ⟨(hi.bounds r hr).1, Nat.le_sub_one_of_lt (hi.bounds r hr).2⟩)
      List.mem_cons_self
  have hroom := hi.room a ha
  have hptr : unit (a.ptr - 8) 1 = a.ptr := by
    rw [unit]
    omega
  obtain ⟨h', fs', hfree, hfd⟩ := free_spec hi.list rfl ht fun r hr =>
    ⟨(hi.bounds r hr).1, Nat.le_of_lt (hi.bounds r hr).2⟩
  have hreg : regions h' = regions s.heap := by rw [regions, regions, hfd.calls]
  have hsize : ∀ b ∈ s.alloc.erase a, h'.size (b.ptr - 8) = s.heap.size (b.ptr - 8) := by
    intro b hb
    have hmem : s.heap.block (b.ptr - 8) ∈ held := List.mem_map_of_mem hb
    have hne := ht.start_ne (List.mem_append_right _ hmem)
    exact hfd.size_of_ne _ hne
      (notMem_of_tiles hi.tiles (List.mem_map_of_mem (List.mem_of_mem_erase hb)))
  refine ⟨fs.length + 1, h', hptr ▸ hfree _ le_rfl, fs', hfd.list, ?_, hreg ▸ hi.bounds, ?_⟩
  · have hsame : Sys.held ⟨h', s.alloc.erase a⟩ = held :=
      List.map_congr_left fun b hb => by rw [Heap.block, Heap.block, hsize b hb]
    rw [hsame, hreg]
    exact hfd.tiles
  · intro b hb
    rw [hsize b hb]
    exact hi.room b (List.mem_of_mem_erase hb)

/-- A call of the program.  Each `malloc` has its own `sbrk`, which gives memory as assumed. -/
inductive Step (base : Nat) : Sys → Sys → Prop
  | malloc {s : Sys} {sbrk : Int → Option Nat} {fuel nbytes ret : Nat} {h' : Heap}
      (hn : nbytes < 2 ^ 31 - 2 ^ 16) (hg : Grants base s.heap sbrk)
      (hr : malloc base sbrk fuel s.heap nbytes = some (h', ret)) :
      Step base s (s.malloced h' ret nbytes)
  | free {s : Sys} {a : Alloc} {fuel : Nat} {h' : Heap} (ha : a ∈ s.alloc)
      (hr : free fuel s.heap a.ptr = some h') : Step base s ⟨h', s.alloc.erase a⟩

theorem HeapState.step {s' : Sys} (hs : HeapState base s) (hstep : Step base s s') :
    HeapState base s' := by
  refine ⟨hs.1, .inr ?_⟩
  cases hstep with
  | @malloc sbrk fuel nbytes ret h' hn hg hr =>
    obtain ⟨fuel', h'', ret', hr', -, hi⟩ := malloc_spec hs (by omega : nbytes ≤ 2 ^ 31 - 16) hg
    obtain ⟨rfl, rfl⟩ := malloc_unique hr hr'
    exact hi
  | @free a fuel h' ha hr =>
    obtain ⟨fs, hi⟩ : ∃ fs, Inv base s fs := by
      rcases hs.2 with hu | hi
      · rw [hu.2.2] at ha
        cases ha
      · exact hi
    obtain ⟨fuel', h'', hr', hi'⟩ := free_alloc hi ha
    have heq := (free_mono hr (Nat.le_max_left fuel fuel')).symm.trans
      (free_mono hr' (Nat.le_max_right fuel fuel'))
    obtain rfl := Option.some.inj heq
    exact hi'

/-- The free blocks `fs` and the blocks the program has are what they should be. -/
structure WellFormed (base : Nat) (s : Sys) (fs : List Nat) : Prop where
  /-- one ring through `base`, and `freep` is in it -/
  ring : Cyc s.heap.ptr base fs
  freep : s.heap.freep ∈ base :: fs
  /-- in increasing order, so that only the link back to `base` goes down -/
  increasing : (base :: fs).Pairwise (· < ·)
  /-- all blocks are pieces of what `sbrk` gave, and are all of it -/
  partition : Tiles (fs.map s.heap.block ++ s.held) (regions s.heap)
  /-- no free block ends where another begins -/
  coalesced : ∀ a ∈ fs, ∀ b ∈ fs, a + 8 * s.heap.size a ≠ b
  room : ∀ a ∈ s.alloc, a.nbytes + 8 ≤ 8 * s.heap.size (a.ptr - 8)

theorem Inv.wellFormed {fs : List Nat} (hi : Inv base s fs) : WellFormed base s fs := by
  refine ⟨hi.list.ring, hi.list.freep, hi.list.sorted, hi.tiles, fun a ha b hb heq => ?_, hi.room⟩
  have hpos : 0 < 8 * s.heap.size a :=
    hi.tiles.pos _ (List.mem_append_left _ (List.mem_map_of_mem ha))
  obtain ⟨l₁, l₂, rfl⟩ := List.append_of_mem ha
  obtain ⟨-, hright, hcross⟩ := List.pairwise_append.1 (List.pairwise_cons.1 hi.list.gaps).2
  rcases List.mem_append.1 hb with hb | hb
  · have := hcross b hb a List.mem_cons_self
    omega
  · rcases List.mem_cons.1 hb with rfl | hb
    · omega
    · have := List.rel_of_pairwise_cons hright hb
      omega

/-- Memory above `base` is given out from address 16 on, in one piece. -/
def firstSbrk : Int → Option Nat := fun k => if k = 32768 then some 16 else none

def firstHeap : Heap := ⟨fun _ => 0, fun _ => 0, 0, []⟩

theorem grants_first : Grants 8 firstHeap firstSbrk := by
  intro k hk r hr
  rw [firstSbrk] at hr
  split at hr
  · cases hr
    subst k
    exact ⟨by decide, by simp [regions, firstHeap], by decide⟩
  · cases hr

/-- **The heap of a user program.**  After any calls of `malloc` and `free`: the free list is one ring
in increasing order, free and allocated blocks cut up just the memory that `sbrk` gave, free blocks are
joined and allocated ones have room for what was asked; and the next call returns. -/
theorem umalloc_invariant {base : Nat} {h : Heap} (hb : 0 < base) (hfreep : h.freep = 0)
    (hcalls : h.calls = []) {s : Sys} (hrun : Relation.ReflTransGen (Step base) ⟨h, []⟩ s) :
    ((s.heap.freep = 0 ∧ s.alloc = [] ∧ regions s.heap = []) ∨ ∃ fs, WellFormed base s fs) ∧
      (∀ nbytes < 2 ^ 31 - 2 ^ 16, ∀ sbrk, Grants base s.heap sbrk →
        ∃ fuel r, malloc base sbrk fuel s.heap nbytes = some r) ∧
      ∀ a ∈ s.alloc, ∃ fuel h', free fuel s.heap a.ptr = some h' := by
  have hs : HeapState base s := by
    induction hrun with
    | refl => exact ⟨hb, .inl ⟨hfreep, hcalls, rfl⟩⟩
    | tail _ hstep ih => exact ih.step hstep
  refine ⟨?_, fun nbytes hn sbrk hg => ?_, fun a ha => ?_⟩
  · rcases hs.2 with ⟨hf, hc, ha⟩ | ⟨fs, hi⟩
    · exact .inl ⟨hf, ha, by rw [regions, hc, List.filterMap_nil]⟩
    · exact .inr ⟨fs, hi.wellFormed⟩
  · obtain ⟨fuel, h', ret, hr, -⟩ := malloc_spec hs (by omega : nbytes ≤ 2 ^ 31 - 16) hg
    exact ⟨fuel, (h', ret), hr⟩
  · rcases hs.2 with hu | ⟨fs, hi⟩
    · rw [hu.2.2] at ha
      cases ha
    · obtain ⟨fuel, h', hr, -⟩ := free_alloc hi ha
      exact ⟨fuel, h', hr⟩

/-- Two blocks are allocated, the second one from what the first left of the memory, and the first is
given back. -/
theorem umalloc_invariant_freed : ∃ s fs, Relation.ReflTransGen (Step 8) ⟨firstHeap, []⟩ s ∧
    s.alloc = [⟨32664, 100⟩] ∧ WellFormed 8 s fs := by
  have hcalls : ((malloc 8 firstSbrk 2 firstHeap 5).bind fun r₁ =>
      (malloc 8 (fun _ => none) 2 r₁.1 100).bind fun r₂ =>
        (free 3 r₂.1 r₁.2).map fun _ => (r₁.2, r₂.2)) = some (32776, 32664) := by decide +kernel
  obtain ⟨⟨h₁, p₁⟩, hr₁, hcalls⟩ := Option.bind_eq_some_iff.1 hcalls
  obtain ⟨⟨h₂, p₂⟩, hr₂, hcalls⟩ := Option.bind_eq_some_iff.1 hcalls
  obtain ⟨h₃, hr₃, heq⟩ := Option.map_eq_some_iff.1 hcalls
  obtain ⟨rfl, rfl⟩ := Prod.mk.inj heq
  have hfirst : Step 8 ⟨firstHeap, []⟩ (Sys.malloced ⟨firstHeap, []⟩ h₁ 32776 5) :=
    .malloc (by decide) grants_first hr₁
  have hsecond : Step 8 ⟨h₁, [⟨32776, 5⟩]⟩ (Sys.malloced ⟨h₁, [⟨32776, 5⟩]⟩ h₂ 32664 100) :=
    .malloc (by decide) (fun _ _ _ hr => by cases hr) hr₂
  have hfree : Step 8 ⟨h₂, [⟨32664, 100⟩, ⟨32776, 5⟩]⟩ ⟨h₃, [⟨32664, 100⟩]⟩ :=
    .free (a := ⟨32776, 5⟩) (List.mem_cons_of_mem _ List.mem_cons_self) hr₃
  have hrun := (Relation.ReflTransGen.single hfirst |>.tail hsecond).tail hfree
  obtain ⟨⟨-, hnil, -⟩ | ⟨fs, hw⟩, -⟩ := umalloc_invariant (by decide) rfl rfl hrun
  · cases hnil
  · exact ⟨_, fs, hrun, rfl, hw⟩

/-- The number of units wraps: the block that is returned has none to spare for the request. -/
theorem malloc_wraps {nbytes : Nat} (hlo : 2 ^ 32 - 8 < nbytes) (hhi : nbytes < 2 ^ 32) :
    ∃ h', malloc 8 firstSbrk 2 firstHeap nbytes = some (h', 32784) ∧ h'.size 32776 = 1 := by
  have hnu : nunits nbytes = 1 := by
    rw [nunits]
    omega
  have hrun : (mallocLoop firstSbrk 1 2 2 (start 8 firstHeap) 8 8).map
      (fun r => (r.2, r.1.size 32776)) = some (32784, 1) := by decide +kernel
  obtain ⟨⟨h', ret⟩, hr, heq⟩ := Option.map_eq_some_iff.1 hrun
  obtain ⟨rfl, hsize⟩ := Prod.mk.inj heq
  refine ⟨h', ?_, hsize⟩
  rw [malloc, hnu]
  exact hr

theorem malloc_shrinks {nbytes : Nat} (hlo : 2 ^ 31 - 16 < nbytes) (hhi : nbytes ≤ 2 ^ 32 - 8) :
    ∃ h' c, malloc 8 firstSbrk 2 firstHeap nbytes = some (h', 0) ∧ h'.calls = [c] ∧ c.1 ≤ 0 := by
  have hnu : 2 ^ 28 ≤ nunits nbytes ∧ nunits nbytes ≤ 2 ^ 29 := by
    rw [nunits]
    omega
  set k := asInt (nunits nbytes * 8 % 2 ^ 32) with hk
  have hneg : k ≤ 0 := by
    rw [hk, asInt]
    split <;> omega
  have hlist : FreeList 8 (start 8 firstHeap) [] :=
    ⟨by simp [start, firstHeap, Cyc, Links], by simp [start, firstHeap], by simp, rfl, by decide⟩
  have hnone : ∀ x ∈ [8], (start 8 firstHeap).size x < nunits nbytes := by
    intro x hx
    obtain rfl := List.mem_singleton.1 hx
    exact Nat.lt_of_lt_of_le (by decide) hnu.1
  have hmore : morecore firstSbrk 2 (start 8 firstHeap) (nunits nbytes) =
      some ({ start 8 firstHeap with calls := [(k, none)] }, 0) := by
    have hsbrk : firstSbrk k = none := if_neg (by omega)
    simp only [morecore, if_neg (show ¬nunits nbytes < 4096 by omega), ← hk, hsbrk]
    rfl
  refine ⟨{ start 8 firstHeap with calls := [(k, none)] }, (k, none), ?_, rfl, hneg⟩
  rw [malloc, mallocLoop_grow hlist hnone (by decide), hmore, Option.bind_some, if_pos rfl]

/-- **Which requests `malloc` serves.** -/
theorem malloc_served_iff {nbytes : Nat} (hn : nbytes < 2 ^ 32) :
    (∀ base s sbrk, HeapState base s → Grants base s.heap sbrk →
      ∃ fuel h' ret, malloc base sbrk fuel s.heap nbytes = some (h', ret) ∧
        Served s.heap h' nbytes ret) ↔ nbytes ≤ 2 ^ 31 - 16 := by
  constructor
  · intro hall
    by_contra hbig
    obtain ⟨fuel, h', ret, hr, hserved⟩ := hall 8 ⟨firstHeap, []⟩ firstSbrk
      ⟨by decide, .inl ⟨rfl, rfl, rfl⟩⟩ grants_first
    by_cases hwrap : 2 ^ 32 - 8 < nbytes
    · obtain ⟨h'', hr', hsize⟩ := malloc_wraps hwrap hn
      obtain ⟨rfl, rfl⟩ := malloc_unique hr hr'
      rcases hserved.1 with hnull | ⟨hroom, -⟩
      · cases hnull
      · rw [hsize] at hroom
        omega
    · obtain ⟨h'', c, hr', hcalls, hneg⟩ := malloc_shrinks (by omega) (by omega : nbytes ≤ 2 ^ 32 - 8)
      obtain ⟨rfl, rfl⟩ := malloc_unique hr hr'
      obtain ⟨new, hnew, hpos⟩ := hserved.2
      rw [hcalls, show (Sys.mk firstHeap []).heap.calls = [] from rfl, List.append_nil] at hnew
      have := hpos c (by rw [← hnew]; exact List.mem_singleton_self c)
      omega
  · intro hle base s sbrk hs hg
    obtain ⟨fuel, h', ret, hr, hserved, -⟩ := malloc_spec hs hle hg
    exact ⟨fuel, h', ret, hr, hserved⟩

theorem malloc_served_page : ∃ fuel h' ret,
    malloc 8 firstSbrk fuel firstHeap 4096 = some (h', ret) ∧ Served firstHeap h' 4096 ret :=
  (malloc_served_iff (by decide)).2 (by decide) 8 ⟨firstHeap, []⟩ firstSbrk
    ⟨by decide, .inl ⟨rfl, rfl, rfl⟩⟩ grants_first

/-- On an untouched heap `malloc(0xffffffff)` returns a block of one unit, which its header fills, and
`malloc(0x80000000)` calls `sbrk` with -2^31 + 8. -/
theorem malloc_large_requests :
    HeapState 8 ⟨firstHeap, []⟩ ∧ Grants 8 firstHeap firstSbrk ∧
      (malloc 8 firstSbrk 2 firstHeap 0xffffffff).map (fun r => (r.2, r.1.size (r.2 - 8))) =
        some (32784, 1) ∧
      (malloc 8 firstSbrk 2 firstHeap 0x80000000).map (fun r => (r.2, r.1.calls)) =
        some (0, [(-2 ^ 31 + 8, none)]) :=
  ⟨⟨by decide, .inl ⟨rfl, rfl, rfl⟩⟩, grants_first, by decide +kernel, by decide +kernel⟩

end Xv6.User.Umalloc
