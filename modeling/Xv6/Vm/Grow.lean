import Xv6.Vm.Pages

/-!
# The size that `growproc` computes

`growproc` adds a signed number to the unsigned size of a process and leaves the rest to `allocuvm` and
`deallocuvm`.  `Grows` says what it should do, with the sum taken over the integers.  It does so
unless a process that has memory asks to shrink by all of it or by more (`growproc_exact_iff`):

* by all of it: `deallocuvm` unmaps every page and returns the new size 0, which `growproc` takes for
  a failure, so that it returns -1 with the old size and no page below it;
* by more: the sum wraps around to a number above the old size, for which `deallocuvm` does
  nothing, and `growproc` returns 0 with the old size (`shrinks_too_far`).
-/

namespace Xv6.Vm

open Bytes Conc Prog

variable {im : KernelImage} {strict : Prop} {m m' : Mach} {p : Pid} {d sz : Nat} {n : Word}

/-! ## What it should do -/

def Mach.HasFree (m : Mach) (k : Nat) : Prop := ∀ i < k, (m.role (.free i)).isSome

/-- The pages that process `p` lacks up to the size `newsz`, and the tables for them. -/
def Mach.framesToGrow (m : Mach) (p : Pid) (newsz : Nat) : Nat :=
  match (m.proc p).pgdir with
  | none => 0
  | some d => framesFor m.phys d (pageUp (m.proc p).sz) (pageUp newsz)

structure Grows (m : Mach) (p : Pid) (n : Word) (r : Bool) (m' : Mach) : Prop where
  size : r = true → 0 ≤ (m.proc p).sz + n.toInt ∧ (m.proc p).sz + n.toInt < KERNBASE ∧
    ((m'.proc p).sz : Int) = (m.proc p).sz + n.toInt
  succeeds : 0 ≤ (m.proc p).sz + n.toInt → (m.proc p).sz + n.toInt < KERNBASE →
    m.HasFree (m.framesToGrow p ((m.proc p).sz + n.toInt).toNat) → r = true
  unchanged : r = false → (m'.proc p).sz = (m.proc p).sz ∧
    ∀ k, m'.role (.user (.proc p) k) = m.role (.user (.proc p) k)

/-! ## The sum -/

theorem toInt_eq (n : Word) : n.toInt = n.toNat ∧ n.toNat < 2 ^ 31 ∨
    n.toInt = (n.toNat : Int) - 2 ^ 32 ∧ 2 ^ 31 ≤ n.toNat := by
  have := n.isLt
  rw [BitVec.toInt_eq_toNat_cond]
  split <;> omega

theorem uint_add_eq (hsz : sz < KERNBASE) (h : 0 ≤ sz + n.toInt) :
    (uint (sz + n.toNat) : Int) = sz + n.toInt := by
  have := toInt_eq n
  simp only [KERNBASE, uint] at *
  omega

theorem le_uint_add (hsz : sz < KERNBASE) (h : sz + n.toInt < 0) : sz ≤ uint (sz + n.toNat) := by
  have := toInt_eq n
  simp only [KERNBASE, uint] at *
  omega

/-! ## What it does -/

theorem framesToGrow_eq (hd : (m.proc p).pgdir = some d) (newsz : Nat) :
    m.framesToGrow p newsz = framesFor m.phys d (pageUp (m.proc p).sz) (pageUp newsz) := by
  rw [Mach.framesToGrow, hd]

theorem not_hasFree {l : List Nat} {k : Nat} (h : Chain m.phys.mem m.phys.freelist l)
    (hl : ∀ f ∈ l, f * PGSIZE < PHYSTOP) (hk : l.length < k) : ¬m.HasFree k := by
  intro hfree
  have := hfree l.length hk
  rw [show m.role (.free l.length) = l[l.length]? from freeFrom_eq h hl _] at this
  simp at this

/-- The user pages of a process, after a change of memory. -/
theorem role_user {s : Phys} {x : Proc} (hp : (m.proc p).Alive) (hd : (m.proc p).pgdir = some d)
    (hx : x.Alive) (hxd : x.pgdir = some d)
    (hsame : ∀ k < USERPAGES, present (s.pteAt d k) = present (m.phys.pteAt d k) ∧
      (present (m.phys.pteAt d k) = true → s.pteAt d k = m.phys.pteAt d k)) (k : Nat) :
    (({ m with phys := s } : Mach).setProc p x).role (.user (.proc p) k) =
      m.role (.user (.proc p) k) := by
  have hdir : (({ m with phys := s } : Mach).setProc p x).dirOf (.proc p) = some d := by
    rw [Mach.dirOf, setProc_proc, if_pos hx, hxd]
  have hdir₀ : m.dirOf (.proc p) = some d := by
    rw [Mach.dirOf, if_pos hp, hd]
  rw [Mach.role, Mach.role, hdir, hdir₀, Option.bind_some, Option.bind_some]
  show (if k < USERPAGES ∧ present (s.pteAt d k) then some (frame (s.pteAt d k)) else none) = _
  by_cases hk : k < USERPAGES
  · obtain ⟨hpr, heq⟩ := hsame k hk
    rw [hpr]
    by_cases hb : present (m.phys.pteAt d k) = true
    · rw [heq hb]
    · rw [if_neg fun h => hb h.2, if_neg fun h => hb h.2]
  · rw [if_neg fun h => hk h.1, if_neg fun h => hk h.1]

theorem AllocFails.pages {ι : Type} {D : Set Nat} {oth : ι → Option Nat} {s s' : Phys} {newsz : Nat}
    (h : AllocFails D oth d (pageUp sz) newsz s s') (hI : Image strict s d sz) (k : Nat) (hk : k < USERPAGES) :
    present (s'.pteAt d k) = present (s.pteAt d k) ∧
      (present (s.pteAt d k) = true → s'.pteAt d k = s.pteAt d k) := by
  by_cases hr : pageUp sz ≤ k ∧ k * PGSIZE < newsz
  · have habs : present (s.pteAt d k) = false := by
      rw [← Bool.not_eq_true]
      intro hpr
      have := hI.below k hk hpr
      rw [le_pageUp_iff] at hr
      omega
    rw [h.absent k hr.1 hr.2, habs]
    exact ⟨rfl, nofun⟩
  · rw [h.remaps.outside k (hk.trans (by decide)) (by omega)]
    exact ⟨rfl, fun _ => rfl⟩

/-- A process that does not shrink to nothing. -/
theorem wp_growproc (h : Inv im strict m) (hp : (m.proc p).Alive)
    (hn : ¬(n.toInt < 0 ∧ 0 < (m.proc p).sz ∧ (m.proc p).sz + n.toInt ≤ 0)) :
    wp (fun _ => False) (growproc im p n) (Grows m p n) m := by
  obtain ⟨d, hd, hdD, -, -, hI⟩ := h.pgdir hp
  obtain ⟨l, hfr⟩ := h.point.frames
  have hsz := hI.lt
  unfold growproc
  rw [wp_bind, wp_mach]
  refine wp_ite (fun hpos => ?_) fun hnpos => wp_ite (fun hneg => ?_) fun hnneg => ?_
  · -- it grows
    have hsum := uint_add_eq hsz (show 0 ≤ (m.proc p).sz + n.toInt by omega)
    rw [wp_bind]
    refine wp_pgdirOf hd ?_
    rw [wp_bind, wp_phys]
    refine wp_allocuvm hfr hdD (fun hnew k hk hlt => ?_) (fun hbig => ?_) (fun hless _ => ?_)
      (fun hnew hle hlen l' s' h' hf => ?_) fun hnew hle l' s' h' hdone _ => ?_
    · rw [← Bool.not_eq_true]
      intro hpr
      have := hI.below k (lt_userpages hlt hnew.le) hpr
      rw [le_pageUp_iff] at hk
      omega
    · exact ⟨nofun, fun _ hlt => absurd hlt (by omega), fun _ => ⟨rfl, fun _ => rfl⟩⟩
    · omega
    · refine ⟨nofun, fun _ _ hfree => ?_, fun _ => ⟨rfl, fun k => ?_⟩⟩
      · rw [framesToGrow_eq hd, ← hsum, Int.toNat_natCast] at hfree
        exact absurd hfree (not_hasFree hfr.chain (fun f hf => hfr.lt_of_mem (hfr.sub f hf)) hlen)
      · have hsetp : ({ m with phys := s' } : Mach).setProc p (m.proc p) = { m with phys := s' } :=
          setProc_self _ p
        rw [← hsetp]
        exact role_user hp hd hp hd (hf.pages hI) k
    · rw [if_neg (by omega), wp_bind, wp_setProc]
      refine ⟨fun _ => ⟨by omega, by omega, ?_⟩, fun _ _ _ => rfl, nofun⟩
      rw [setProc_proc]
      exact hsum
  · -- it shrinks, and keeps a part
    rw [wp_bind]
    refine wp_pgdirOf hd ?_
    rw [wp_bind, wp_phys]
    by_cases h0 : (m.proc p).sz = 0
    · have hle := le_uint_add hsz (show (m.proc p).sz + n.toInt < 0 by omega)
      refine wp_deallocuvm hfr hdD hsz.le (fun _ => ?_) fun hlt => absurd hlt (by omega)
      rw [if_pos h0]
      exact ⟨nofun, fun hge => absurd hge (by omega), fun _ => ⟨rfl, fun _ => rfl⟩⟩
    · have hsum := uint_add_eq hsz (show 0 ≤ (m.proc p).sz + n.toInt by omega)
      refine wp_deallocuvm hfr hdD hsz.le (fun hge => absurd hge (by omega)) fun hlt l' s' h' hu _ => ?_
      rw [if_neg (by omega), wp_bind, wp_setProc]
      refine ⟨fun _ => ⟨by omega, by omega, ?_⟩, fun _ _ _ => rfl, nofun⟩
      rw [setProc_proc]
      exact hsum
  · have hzero : n.toInt = 0 := by omega
    exact ⟨fun _ => by rw [hzero]; omega, fun _ _ _ => rfl, nofun⟩

/-- A process with memory that shrinks to nothing, or by more than it has. -/
theorem wp_growproc_wrong (h : Inv im strict m) (hp : (m.proc p).Alive) (hneg : n.toInt < 0)
    (hpos : 0 < (m.proc p).sz) (hle : (m.proc p).sz + n.toInt ≤ 0) :
    wp (fun _ => False) (growproc im p n) (fun r m' => ¬Grows m p n r m' ∧
      (r = true ↔ (m.proc p).sz + n.toInt < 0) ∧ (m'.proc p).sz = (m.proc p).sz ∧
      ((m.proc p).sz + n.toInt = 0 → ∀ k, m'.role (.user (.proc p) k) = none)) m := by
  obtain ⟨d, hd, hdD, -, -, hI⟩ := h.pgdir hp
  obtain ⟨l, hfr⟩ := h.point.frames
  have hsz := hI.lt
  unfold growproc
  rw [wp_bind, wp_mach, if_neg (by omega), if_pos hneg, wp_bind]
  refine wp_pgdirOf hd ?_
  rw [wp_bind, wp_phys]
  refine wp_deallocuvm hfr hdD hsz.le (fun hge => ?_) fun hlt l' s' h' hu _ => ?_
  · have hlt : (m.proc p).sz + n.toInt < 0 := by
      by_contra hge'
      have := uint_add_eq hsz (show 0 ≤ (m.proc p).sz + n.toInt by omega)
      omega
    rw [if_neg (by omega), wp_bind, wp_setProc]
    refine ⟨fun hg => ?_, ⟨fun _ => hlt, fun _ => rfl⟩, ?_, fun h0 => absurd h0 (by omega)⟩
    · have := (hg.size rfl).1
      omega
    · rw [setProc_proc]
  · have h0 : (m.proc p).sz + n.toInt = 0 := by
      by_contra hne
      have := le_uint_add hsz (show (m.proc p).sz + n.toInt < 0 by omega)
      omega
    have hsum := uint_add_eq hsz h0.ge
    have huint : uint ((m.proc p).sz + n.toNat) = 0 := by omega
    rw [if_pos huint]
    refine ⟨fun hg => ?_, ⟨(fun h => by cases h), fun hlt => absurd hlt (by omega)⟩, rfl, fun _ k => ?_⟩
    · -- no free page is needed
      refine absurd (hg.succeeds h0.ge (by rw [h0]; decide) ?_) (by decide)
      rw [framesToGrow_eq hd, h0, Int.toNat_zero,
        framesFor_eq_zero (show pageUp 0 ≤ pageUp (m.proc p).sz from Nat.zero_le _)]
      exact fun i hi => absurd hi (Nat.not_lt_zero i)
    · rw [Mach.role, Mach.dirOf, if_pos (show (({ m with phys := s' } : Mach).proc p).Alive from hp),
        show (({ m with phys := s' } : Mach).proc p).pgdir = some d from hd, Option.bind_some]
      refine if_neg ?_
      rintro ⟨hk, hpr⟩
      rw [huint] at hu
      have hnone := hu.image hI (by omega : 0 < (m.proc p).sz)
      exact absurd (hnone.1.below k hk hpr) (Nat.not_lt_zero _)

/-- In every state between calls, `growproc` computes the new size exactly, unless a process that has
memory asks to shrink by all of it or by more. -/
theorem growproc_exact_iff (h : Inv im False m) (hp : (m.proc p).Alive) (n : Word) :
    (∃ r m', (growproc im p n).run m = .ok r m' ∧ Grows m p n r m') ↔
      ¬(n.toInt < 0 ∧ 0 < (m.proc p).sz ∧ (m.proc p).sz + n.toInt ≤ 0) := by
  constructor
  · rintro ⟨r, m', hrun, hg⟩ ⟨hneg, hpos, hle⟩
    have hw := wp_ok (wp_growproc_wrong h hp hneg hpos hle) hrun
    exact hw.1 hg
  · intro hn
    exact wp_returns (wp_growproc h hp hn)

theorem growproc_exact_iff_boot : ∃ m₀,
    (main smallKernel 1 (fun _ => 0) 44).run (Mach.reset fun _ _ => 0) = .ok () m₀ ∧
    (m₀.proc m₀.initproc).sz = 4096 ∧ ∃ r m', (growproc smallKernel m₀.initproc (-4095)).run m₀ = .ok r m' ∧
      Grows m₀ m₀.initproc (-4095) r m' := by
  obtain ⟨m₀, hboot, h₀⟩ := boots False fun _ _ => 0
  refine ⟨m₀, hboot, h₀.size, (growproc_exact_iff h₀.inv (alive_of_runnable h₀.init) _).2 ?_⟩
  rw [h₀.size]
  decide

/-- The first process, which has 4096 bytes: `growproc(-4096)` fails and leaves it without a page below
its size, and `growproc(-8192)` succeeds and changes nothing. -/
theorem shrinks_too_far : ∃ m₀,
    (main smallKernel 1 (fun _ => 0) 44).run (Mach.reset fun _ _ => 0) = .ok () m₀ ∧
    (m₀.proc m₀.initproc).sz = 4096 ∧ (m₀.role (.user (.proc m₀.initproc) 0)).isSome ∧
    (∃ m', (growproc smallKernel m₀.initproc (-4096)).run m₀ = .ok false m' ∧
      (m'.proc m₀.initproc).sz = 4096 ∧ m'.role (.user (.proc m₀.initproc) 0) = none) ∧
    ∃ m', (growproc smallKernel m₀.initproc (-8192)).run m₀ = .ok true m' ∧
      (m'.proc m₀.initproc).sz = 4096 := by
  obtain ⟨m₀, hboot, h₀⟩ := boots False fun _ _ => 0
  have halive := alive_of_runnable h₀.init
  have hpos : 0 < (m₀.proc m₀.initproc).sz := by
    rw [h₀.size]
    decide
  refine ⟨m₀, hboot, h₀.size, ?_, ?_, ?_⟩
  · obtain ⟨d, f, hd, hpte⟩ := h₀.page
    rw [Mach.role, Mach.dirOf, if_pos halive, hd, Option.bind_some, if_pos]
    · rfl
    · refine ⟨by decide, ?_⟩
      rw [hpte, present_entry]
      rfl
  · have hsum : (m₀.proc m₀.initproc).sz + (-4096 : Word).toInt = 0 := by
      rw [h₀.size]
      decide
    obtain ⟨r, m', hrun, -, hr, hsz, hnone⟩ :=
      wp_returns (wp_growproc_wrong h₀.inv halive (by decide) hpos hsum.le)
    have hfalse : r = false := by
      rw [← Bool.not_eq_true, hr, hsum]
      decide
    exact ⟨m', hfalse ▸ hrun, hsz.trans h₀.size, hnone hsum 0⟩
  · have hsum : (m₀.proc m₀.initproc).sz + (-8192 : Word).toInt < 0 := by
      rw [h₀.size]
      decide
    obtain ⟨r, m', hrun, -, hr, hsz, -⟩ :=
      wp_returns (wp_growproc_wrong h₀.inv halive (by decide) hpos hsum.le)
    exact ⟨m', hr.2 hsum ▸ hrun, hsz.trans h₀.size⟩

end Xv6.Vm
