import Xv6.Vm.Walk
import Xv6.Vm.Isolate

/-!
# What the functions on user memory do

The rules for `allocuvm`, `copyuvm`, `clearpteu`, `loaduvm` and `copyout`: which pages
their directory maps afterwards, and that nothing else changes.
-/

namespace Xv6.Vm

open Bytes Conc Prog

variable {ι : Type} {im : KernelImage} {R D P : Set Nat} {oth : ι → Option Nat} {l : List Nat}
  {s s' s'' : Phys} {d n : Nat} {E : Option Panic → Prop}

structure Remaps (D : Set Nat) (oth : ι → Option Nat) (d lo hi : Nat) (s s' : Phys) : Prop where
  same : Same (D \ {d}) oth s s'
  outside : ∀ m < NPAGES, m < lo ∨ hi ≤ m * PGSIZE → s'.pteAt d m = s.pteAt d m
  kernel : ∀ i < NPDENTRIES, USERPAGES ≤ i * 1024 → s'.mem d i = s.mem d i
  /-- a table stays where it is -/
  tables : ∀ i < NPDENTRIES, present (s.mem d i) = true → s'.mem d i = s.mem d i

namespace Remaps

variable {lo hi : Nat}

theorem refl (D : Set Nat) (oth : ι → Option Nat) (d lo hi : Nat) (s : Phys) :
    Remaps D oth d lo hi s s :=
  ⟨Same.refl _ _ _, fun _ _ _ => rfl, fun _ _ _ => rfl, fun _ _ _ => rfl⟩

theorem trans (h : Remaps D oth d lo hi s s') (h' : Remaps D oth d lo hi s' s'') :
    Remaps D oth d lo hi s s'' :=
  ⟨h.same.trans h'.same, fun m hm hout => (h'.outside m hm hout).trans (h.outside m hm hout),
    fun i hi hk => (h'.kernel i hi hk).trans (h.kernel i hi hk), fun i hi hp => by
      have heq := h.tables i hi hp
      rw [h'.tables i hi (by rw [heq, hp]), heq]⟩

theorem mono (h : Remaps D oth d n hi s s') (hn : lo ≤ n) : Remaps D oth d lo hi s s' :=
  ⟨h.same, fun m hm hout => h.outside m hm (hout.imp_left fun h => h.trans_le hn), h.kernel, h.tables⟩

theorem of_same (h : Same D oth s s') (hd : d ∈ D) : Remaps D oth d lo hi s s' :=
  ⟨h.mono fun _ h => h.1, fun m _ _ => h.pte d hd m, fun i hi _ => h.pde d hd i hi,
    fun i hi _ => h.pde d hd i hi⟩

end Remaps

theorem Unmaps.remaps {lo hi : Nat} (h : Unmaps D oth d lo hi s s') : Remaps D oth d lo hi s s' :=
  ⟨h.same, h.outside, fun i hi _ => h.pde i hi, fun i hi _ => h.pde i hi⟩

theorem pdx_lt_user (hn : n < USERPAGES) : pdx n * 1024 < USERPAGES := by
  simp only [pdx, USERPAGES, KERNBASE, PGSIZE] at *
  omega

theorem MapsPage.remaps {w : Word} {lo hi : Nat} (h : MapsPage D P oth d n w s s') (hd : d ∈ D)
    (hn : n < USERPAGES) (hlo : lo ≤ n) (hhi : n * PGSIZE < hi) : Remaps D oth d lo hi s s' := by
  refine ⟨h.same, fun m hm hout => h.pte d hd m hm (Or.inr ?_), fun i hi hk => ?_, fun i hi hp => ?_⟩
  · rintro rfl
    omega
  · have := pdx_lt_user hn
    exact h.pde d hd i hi (Or.inr fun he => by subst he; omega)
  · by_cases hin : i = pdx n
    · subst hin
      exact h.kept hp
    · exact h.pde d hd i hi (Or.inr hin)

/-- Changes below `KERNBASE` keep what `setupkvm` made. -/
theorem KernelPart.of_remaps {lo hi : Nat} (hK : KernelPart s d) (h : Remaps D oth d lo hi s s')
    (hhi : hi ≤ KERNBASE) : KernelPart s' d := by
  have hout : ∀ m, USERPAGES ≤ m → m < NPAGES → s'.pteAt d m = s.pteAt d m := fun m hm hm' =>
    h.outside m hm' (Or.inr (by
      simp only [USERPAGES, KERNBASE, PGSIZE] at *
      omega))
  refine ⟨fun m hm hm' hmap => ?_, fun m hm hm' => ?_, fun i h1 h2 => ?_⟩
  · rw [hout m hm hm']
    exact hK.mapped m hm hm' hmap
  · rw [hout m hm hm']
    exact hK.noUser m hm hm'
  · have hi : i < NPDENTRIES := by
      simp only [DEVSPACE, PGSIZE, NPDENTRIES] at *
      omega
    rw [h.kernel i hi (le_trans (by decide) h1)]
    exact hK.hole i h1 h2

theorem KernelPart.of_same (hK : KernelPart s d) (h : Same D oth s s') (hd : d ∈ D) :
    KernelPart s' d :=
  hK.of_remaps (Remaps.of_same h hd : Remaps D oth d 0 0 s s') (Nat.zero_le KERNBASE)

theorem MapsPage.pages {m g : Nat} {c : Nat → Word} {w : Word} (h : Frames im R D oth (insert m P) l s)
    (hm : MapsPage D (insert m P) oth d n w (s.setPage m c) s') (habs : present (s.pteAt d n) = false)
    (hg : s.IsPage D g) : s'.IsPage D g ∧ s'.mem g = s.mem g := by
  have hin : m ∈ insert m P := Set.mem_insert m P
  have hs := (h.quiet_setPage (h.pending_not_kept hin) c).2
  have hgm : g ≠ m := fun he => (h.isPage_apart hg).2.2 (he ▸ hin)
  constructor
  · obtain ⟨d', hd', x, hx, hpx, hfx⟩ := hg
    have hne : d' ≠ d ∨ x ≠ n := by
      by_contra hboth
      push Not at hboth
      rw [hboth.1, hboth.2, habs] at hpx
      exact absurd hpx (by decide)
    refine ⟨d', hd', x, hx, ?_⟩
    rw [hm.pte d' hd' x (hx.trans (by decide)) hne, hs.pte d' hd']
    exact ⟨hpx, hfx⟩
  · rw [hm.page g (hg.of_same hs)]
    exact Function.update_of_ne hgm _ _

/-! ## `allocuvm` -/

theorem lt_userpages {hi : Nat} (hlt : n * PGSIZE < hi) (hhi : hi ≤ KERNBASE) : n < USERPAGES := by
  simp only [USERPAGES, KERNBASE, PGSIZE] at *
  omega

/-- `allocuvm` has given up: the pages from page `lo` on up to `hi` are absent. -/
structure AllocFails (D : Set Nat) (oth : ι → Option Nat) (d lo hi : Nat) (s s' : Phys) : Prop where
  remaps : Remaps D oth d lo hi s s'
  absent : ∀ m, lo ≤ m → m * PGSIZE < hi → present (s'.pteAt d m) = false

structure AllocDone (D : Set Nat) (oth : ι → Option Nat) (d lo hi : Nat) (s s' : Phys) : Prop where
  remaps : Remaps D oth d lo hi s s'
  mapped : ∀ m, lo ≤ m → m * PGSIZE < hi → ∃ f, s'.pteAt d m = entry f (PTE_W ||| PTE_U ||| PTE_P)
  zero : ∀ m, lo ≤ m → m * PGSIZE < hi → s'.mem (frame (s'.pteAt d m)) = fun _ => 0
  kept : ∀ g, s.IsPage D g → s'.mem g = s.mem g

theorem AllocDone.refl {lo hi : Nat} (s : Phys) (hno : ∀ m, lo ≤ m → ¬m * PGSIZE < hi) :
    AllocDone D oth d lo hi s s :=
  ⟨Remaps.refl _ _ _ _ _ _, fun m hm hlt => absurd hlt (hno m hm),
    fun m hm hlt => absurd hlt (hno m hm), fun _ _ => rfl⟩

theorem AllocDone.present {lo hi : Nat} (h : AllocDone D oth d lo hi s s') (m : Nat) (hlo : lo ≤ m)
    (hhi : m * PGSIZE < hi) : present (s'.pteAt d m) = true := by
  obtain ⟨f, hf⟩ := h.mapped m hlo hhi
  rw [hf, present_entry]
  rfl

/-- Free pages that it takes to map the pages of `[lo, hi)`: these pages, and a table for every
directory entry of theirs that has none. -/
def framesFor (s : Phys) (d lo hi : Nat) : Nat :=
  (hi - lo) + (((Finset.Ico lo hi).image pdx).filter fun i => present (s.mem d i) = false).card

theorem framesFor_le (s : Phys) (d lo hi : Nat) : framesFor s d lo hi ≤ 2 * (hi - lo) := by
  have himage : ((Finset.Ico lo hi).image pdx).card ≤ hi - lo := by
    rw [← Nat.card_Ico]
    exact Finset.card_image_le
  have hfilter := Finset.card_filter_le ((Finset.Ico lo hi).image pdx) fun i =>
    present (s.mem d i) = false
  unfold framesFor
  omega

theorem framesFor_eq_zero {lo hi : Nat} (h : hi ≤ lo) : framesFor s d lo hi = 0 := by
  have := framesFor_le s d lo hi
  omega

/-- The first page is mapped, and has a table now. -/
theorem framesFor_succ {hi : Nat} (hn : n < hi) (ht : present (s'.mem d (pdx n)) = true)
    (hpde : ∀ i < NPDENTRIES, i ≠ pdx n → s'.mem d i = s.mem d i) :
    framesFor s' d (n + 1) hi + (if present (s.mem d (pdx n)) then 1 else 2) ≤ framesFor s d n hi := by
  let A := ((Finset.Ico (n + 1) hi).image pdx).filter fun i => present (s'.mem d i) = false
  let B := ((Finset.Ico n hi).image pdx).filter fun i => present (s.mem d i) = false
  have hself : pdx n ∉ A := by
    intro hmem
    rw [Finset.mem_filter, ht] at hmem
    exact absurd hmem.2 (by decide)
  have hsub : A ⊆ B := by
    intro i hi
    have hne : i ≠ pdx n := fun he => hself (he ▸ hi)
    rw [Finset.mem_filter, Finset.mem_image] at hi ⊢
    obtain ⟨⟨m, hm, rfl⟩, habs⟩ := hi
    rw [Finset.mem_Ico] at hm
    rw [hpde _ (pdx_lt m) hne] at habs
    exact ⟨⟨m, Finset.mem_Ico.2 ⟨by omega, hm.2⟩, rfl⟩, habs⟩
  show hi - (n + 1) + A.card + _ ≤ hi - n + B.card
  split
  next => have := Finset.card_le_card hsub; omega
  next habs =>
    have hin : pdx n ∈ B := by
      rw [Finset.mem_filter, Finset.mem_image]
      exact ⟨⟨n, Finset.mem_Ico.2 ⟨le_rfl, hn⟩, rfl⟩, by simpa using habs⟩
    have hcard := Finset.card_le_card (Finset.insert_subset hin hsub)
    rw [Finset.card_insert_of_notMem hself] at hcard
    omega

theorem wp_allocFrom {oldsz newsz : Nat} (hd : d ∈ D) (hnew : newsz < KERNBASE) (k : Nat)
    (h : Frames im R D oth P l s) (hn : pageUp oldsz ≤ n) (hk : newsz ≤ (n + k) * PGSIZE)
    (habs : ∀ m, n ≤ m → m * PGSIZE < newsz → present (s.pteAt d m) = false) :
    wp E (allocFrom im d oldsz newsz k n) (fun r s' => ∃ l', Frames im R D oth P l' s' ∧
      (r = 0 ∧ AllocFails D oth d (pageUp oldsz) newsz s s' ∧
          l.length < framesFor s d n (pageUp newsz) ∨
        r = newsz ∧ AllocDone D oth d n newsz s s' ∧
          l.length ≤ l'.length + 2 * (pageUp newsz - n))) s := by
  induction k generalizing n l s with
  | zero =>
    have hno : ∀ m, n ≤ m → ¬m * PGSIZE < newsz := fun m hm => by
      simp only [PGSIZE] at hk ⊢
      omega
    exact ⟨l, h, Or.inr ⟨rfl, AllocDone.refl s hno, by omega⟩⟩
  | succ k ih =>
    unfold allocFrom
    refine wp_ite (fun hlt => ?_) fun hge => ?_
    swap
    · have hno : ∀ m, n ≤ m → ¬m * PGSIZE < newsz := fun m hm hlt =>
        hge (lt_of_le_of_lt (Nat.mul_le_mul_right _ hm) hlt)
      exact ⟨l, h, Or.inr ⟨rfl, AllocDone.refl s hno, by omega⟩⟩
    have hnu : n < USERPAGES := lt_userpages hlt hnew.le
    have hleft : n < pageUp newsz := lt_pageUp_iff.2 hlt
    have hold : ¬newsz ≤ oldsz := fun hle => by
      have := (le_pageUp_iff.1 hn).trans_lt hlt
      omega
    rw [wp_bind]
    refine wp_kalloc h (fun hl => ?_) fun m l₁ s₁ hl hmP hmem h₁ => ?_
    · simp only []
      rw [wp_bind]
      refine wp_deallocuvm h hd hnew.le (fun hle => absurd hle hold) fun _ l' s' h' hu _ => ?_
      refine ⟨l', h', Or.inl ⟨rfl, ⟨hu.remaps, hu.inside⟩, ?_⟩⟩
      rw [hl, List.length_nil, framesFor]
      omega
    simp only []
    rw [wp_bind, wp_clear]
    have hin : m ∈ insert m P := Set.mem_insert m P
    have hs₁ : Same D oth s s₁ := Same.of_mem hmem
    obtain ⟨h₂, hs₂⟩ := h₁.quiet_setPage (h₁.pending_not_kept hin) fun _ => 0
    have hs := hs₁.trans hs₂
    have habs₂ : present ((s₁.setPage m fun _ => 0).pteAt d n) = false := by
      rw [hs.pte d hd, habs n le_rfl hlt]
    rw [wp_bind]
    have hpde : ∀ i < NPDENTRIES, (s₁.setPage m fun _ => 0).mem d i = s.mem d i := hs.pde d hd
    refine wp_mappages_user h₂ hd hnu habs₂ hin (by decide) (fun htab hl₁ => ?_)
      fun l₃ s₃ h₃ hm hlen => ?_
    · -- no memory for the table: the page goes back too
      simp only [Bool.false_eq_true, if_false]
      rw [wp_bind]
      refine wp_deallocuvm h₂ hd hnew.le (fun hle => absurd hle hold) fun _ l' s' h' hu _ => ?_
      rw [wp_bind]
      refine wp_kfree h' hin fun h'' => ?_
      have hs' := Frames.same_freed (h'.pending_not_kept hin)
      rw [insert_sdiff_self hmP] at h''
      refine ⟨_, h'', Or.inl ⟨rfl, ⟨?_, fun x hx hlt => ?_⟩, ?_⟩⟩
      · exact ((Remaps.of_same hs hd).trans hu.remaps).trans (Remaps.of_same hs' hd)
      · rw [hs'.pte d hd, hu.inside x hx hlt]
      · rw [hpde _ (pdx_lt n)] at htab
        have hone : pdx n ∈ ((Finset.Ico n (pageUp newsz)).image pdx).filter fun i =>
            present (s.mem d i) = false :=
          Finset.mem_filter.2 ⟨Finset.mem_image_of_mem _ (Finset.mem_Ico.2 ⟨le_rfl, hleft⟩), htab⟩
        have := Finset.card_pos.2 ⟨_, hone⟩
        rw [hl, hl₁, List.length_singleton, framesFor]
        omega
    · simp only [if_true]
      rw [insert_sdiff_self hmP] at h₃
      have hstep := framesFor_succ hleft hm.table fun i hi hne =>
        (hm.pde d hd i hi (Or.inr hne)).trans (hpde i hi)
      rw [hpde _ (pdx_lt n)] at hlen
      have hR : ∀ lo ≤ n, Remaps D oth d lo newsz s s₃ := fun lo hlo =>
        (Remaps.of_same hs hd).trans (hm.remaps hd hnu hlo hlt)
      have hframe : frame (entry m (PTE_W ||| PTE_U ||| PTE_P)) = m :=
        frame_entry (h₂.lt_of_mem (h₂.pending_mem hin).1) (by decide)
      have hpr₃ : Vm.present (s₃.pteAt d n) = true := by
        rw [hm.self, present_entry]
        rfl
      have hzero : s₃.mem m = fun _ => 0 := by
        rw [hm.pending m hin]
        exact Function.update_self _ _ _
      have hpages : ∀ g, s.IsPage D g → s₃.IsPage D g ∧ s₃.mem g = s.mem g := fun g hg =>
        hmem ▸ hm.pages h₁ (by rw [hs₁.pte d hd, habs n le_rfl hlt]) (hg.of_same hs₁)
      refine wp_mono (ih h₃ (by omega) (by rwa [show n + 1 + k = n + (k + 1) by omega])
        fun x hx hlt' => ?_) ?_
      · rw [hm.pte d hd x ((lt_userpages hlt' hnew.le).trans (by decide)) (Or.inr (by omega)),
          hs.pte d hd]
        exact habs x (by omega) hlt'
      · have hl' : l.length = l₁.length + 1 := by rw [hl, List.length_cons]
        rintro r s' ⟨l', h', ⟨hr, hf, hc⟩ | ⟨hr, hf, hc⟩⟩
        · refine ⟨l', h', Or.inl ⟨hr, ⟨(hR _ hn).trans hf.remaps, hf.absent⟩, ?_⟩⟩
          by_cases htab : present (s.mem d (pdx n)) = true
          · rw [if_pos htab] at hlen hstep
            omega
          · rw [if_neg htab] at hlen hstep
            omega
        · have hself : s'.pteAt d n = entry m (PTE_W ||| PTE_U ||| PTE_P) := by
            rw [hf.remaps.outside n (hnu.trans (by decide)) (Or.inl (by omega)), hm.self]
          refine ⟨l', h', Or.inr ⟨hr, ⟨(hR n le_rfl).trans (hf.remaps.mono (by omega)),
            fun x hx hlt' => ?_, fun x hx hlt' => ?_, fun g hg => ?_⟩, by omega⟩⟩
          · by_cases hxn : x = n
            · exact ⟨m, by rw [hxn, hself]⟩
            · exact hf.mapped x (by omega) hlt'
          · by_cases hxn : x = n
            · rw [hxn, hself, hframe, hf.kept m ⟨d, hd, n, hnu, hpr₃, by rw [hm.self, hframe]⟩, hzero]
            · exact hf.zero x (by omega) hlt'
          · obtain ⟨hg₃, hmem₃⟩ := hpages g hg
            rw [hf.kept g hg₃, hmem₃]

theorem wp_allocuvm {Q : Nat → Phys → Prop} {oldsz newsz : Nat} (h : Frames im R D oth P l s)
    (hd : d ∈ D) (habs : newsz < KERNBASE → ∀ m, pageUp oldsz ≤ m → m * PGSIZE < newsz →
      present (s.pteAt d m) = false)
    (hbig : KERNBASE ≤ newsz → Q 0 s)
    (hless : newsz < oldsz → newsz < KERNBASE → Q oldsz s)
    (hfail : newsz < KERNBASE → oldsz ≤ newsz →
      l.length < framesFor s d (pageUp oldsz) (pageUp newsz) →
      ∀ l' s', Frames im R D oth P l' s' → AllocFails D oth d (pageUp oldsz) newsz s s' → Q 0 s')
    (hdone : newsz < KERNBASE → oldsz ≤ newsz → ∀ l' s', Frames im R D oth P l' s' →
      AllocDone D oth d (pageUp oldsz) newsz s s' →
      l.length ≤ l'.length + 2 * (pageUp newsz - pageUp oldsz) → Q newsz s') :
    wp E (allocuvm im d oldsz newsz) Q s := by
  unfold allocuvm
  refine wp_ite hbig fun hlt => wp_ite (fun hle => hless hle (by omega)) fun hge => ?_
  have hfuel : newsz ≤ (pageUp oldsz + (newsz / PGSIZE + 1)) * PGSIZE := by
    simp only [PGSIZE]
    omega
  refine wp_mono (wp_allocFrom hd (by omega) _ h le_rfl hfuel (habs (by omega))) ?_
  rintro r s' ⟨l', h', ⟨rfl, hf, hc⟩ | ⟨rfl, hf, hc⟩⟩
  · exact hfail (by omega) (by omega) hc l' s' h' hf
  · exact hdone (by omega) (by omega) l' s' h' hf hc

/-! ## `copyuvm` -/

theorem flags_lt (e : Word) : (flags e).toNat < PGSIZE := by
  rw [flags, BitVec.toNat_and]
  exact Nat.and_lt_two_pow _ (show (0xFFF : Word).toNat < 2 ^ 12 by decide)

theorem getLsbD_mask {k : Nat} (hk : k < 32) : (0xFFF : Word).getLsbD k = decide (k < 12) := by
  interval_cases k <;> rfl

theorem flags_entry (f : Nat) {perm : Word} (hp : perm.toNat < PGSIZE) :
    flags (entry f perm) = perm := by
  refine BitVec.eq_of_getLsbD_eq fun k hk => ?_
  rw [flags, BitVec.getLsbD_and, getLsbD_mask hk]
  by_cases hk12 : k < 12
  · rw [getLsbD_entry f perm hk12, decide_eq_true hk12, Bool.and_true]
  · have hlt : perm.toNat < 2 ^ k := hp.trans_le (Nat.pow_le_pow_right (n := 2) (by omega) (by omega : 12 ≤ k))
    rw [decide_eq_false hk12, Bool.and_false, BitVec.getLsbD, Nat.testBit_lt_two_pow hlt]

theorem flags_or_PTE_P {e : Word} (h : present e = true) : flags e ||| PTE_P = flags e := by
  refine BitVec.eq_of_getLsbD_eq fun k hk => ?_
  rw [BitVec.getLsbD_or]
  by_cases h0 : k = 0
  · subst h0
    rw [flags, BitVec.getLsbD_and, show e.getLsbD 0 = true from h]
    rfl
  · have : (PTE_P : Word).getLsbD k = false := by
      interval_cases k <;> first | rfl | exact absurd rfl h0
    rw [this, Bool.or_false]

def CopyOf (s₀ : Phys) (p : Nat) (s : Phys) (d n : Nat) : Prop :=
  flags (s.pteAt d n) = flags (s₀.pteAt p n) ∧
    s.mem (frame (s.pteAt d n)) = s₀.mem (frame (s₀.pteAt p n))

/-- The directory `p`, its tables and its pages are at `other` places. -/
structure Pinned (oth : ι → Option Nat) (s : Phys) (p : Nat) : Prop where
  dir : ∃ x, oth x = some p
  tab : ∀ i t, s.IsTable p i t → ∃ x, oth x = some t
  page : ∀ n < USERPAGES, present (s.pteAt p n) = true → ∃ x, oth x = some (frame (s.pteAt p n))

theorem Pinned.pte {s₀ : Phys} {p : Nat} (h : Pinned oth s₀ p)
    (hm : ∀ x f, oth x = some f → s.mem f = s₀.mem f) (n : Nat) : s.pteAt p n = s₀.pteAt p n := by
  obtain ⟨x, hx⟩ := h.dir
  rw [Phys.pteAt, Phys.pteAt, hm x p hx]
  by_cases hp : present (s₀.mem p (pdx n)) = true
  · obtain ⟨y, hy⟩ := h.tab _ _ ⟨pdx_lt n, hp, rfl⟩
    rw [if_pos hp, if_pos hp, hm y _ hy]
  · rw [if_neg hp, if_neg hp]

/-- Frames that are enough for a copy: the kernel part, and a page and a table for each page. -/
def copyFrames (sz : Nat) : Nat := KVMPAGES + 2 * (sz / PGSIZE + 1)

theorem wp_copyFrom {p sz : Nat} {s₀ : Phys} (hpin : Pinned oth s₀ p) (hd : d ∈ D)
    (hsz : sz ≤ KERNBASE)
    (hE : E (some .copyuvmPte) ∧ E (some .copyuvmPage) ∨
      ∀ m, m * PGSIZE < sz → present (s₀.pteAt p m) = true) (k : Nat)
    (h : Frames im R D oth P l s) (hm₀ : ∀ x f, oth x = some f → s.mem f = s₀.mem f)
    (hk : sz ≤ (n + k) * PGSIZE)
    (habs : ∀ m, n ≤ m → m * PGSIZE < sz → present (s.pteAt d m) = false) :
    wp E (copyFrom im p d sz k n) (fun r s' => ∃ l', Frames im R D oth P l' s' ∧
      Remaps D oth d n sz s s' ∧ (∀ g, s.IsPage D g → s'.mem g = s.mem g) ∧
      (r = false → l.length < 2 * k) ∧ (r = true → ∀ m, n ≤ m → m * PGSIZE < sz →
        present (s'.pteAt d m) = true ∧ CopyOf s₀ p s' d m)) s := by
  induction k generalizing n l s with
  | zero =>
    refine ⟨l, h, Remaps.refl _ _ _ _ _ _, fun _ _ => rfl, fun hr => (by cases hr), fun _ m hm hlt => ?_⟩
    simp only [PGSIZE] at hk hlt
    omega
  | succ k ih =>
    unfold copyFrom
    refine wp_ite (fun hlt => ?_) fun hge => ?_
    swap
    · refine ⟨l, h, Remaps.refl _ _ _ _ _ _, fun _ _ => rfl, fun hr => (by cases hr), fun _ m hm hlt => ?_⟩
      simp only [PGSIZE] at hge hlt
      omega
    have hnu : n < USERPAGES := lt_userpages hlt hsz
    have hpte := hpin.pte hm₀ n
    rw [wp_bind]
    refine wp_walk (fun t ht => ?_) fun habsent => ?_
    swap
    · refine hE.elim (fun hE => hE.1) fun hall => ?_
      have := hall n hlt
      rw [← hpte, Phys.pteAt_of_absent habsent, present_zero] at this
      exact absurd this (by decide)
    simp only []
    rw [wp_bind, wp_word, ← Phys.pteAt_of_table ht, hpte]
    refine wp_ite (fun hpr => ?_) fun hpr => ?_
    swap
    · exact hE.elim (fun hE => hE.2) fun hall => absurd (hall n hlt) hpr
    rw [wp_bind]
    refine wp_kalloc h (fun hl => ⟨l, h, Remaps.refl _ _ _ _ _ _, fun _ _ => rfl, fun _ => ?_, nofun⟩)
      fun m l₁ s₁ hl hmP hmem h₁ => ?_
    · rw [hl, List.length_nil]
      omega
    simp only []
    rw [wp_bind]
    refine wp_atomic.2 ?_
    show wp E _ _ s₁
    rw [wp_bind, wp_setPage]
    have hin : m ∈ insert m P := Set.mem_insert m P
    have hs₁ : Same D oth s s₁ := Same.of_mem hmem
    have hsrc : s₁.mem (frame (s₀.pteAt p n)) = s₀.mem (frame (s₀.pteAt p n)) := by
      obtain ⟨x, hx⟩ := hpin.page n hnu hpr
      rw [hmem, hm₀ x _ hx]
    rw [hsrc]
    obtain ⟨h₂, hs₂⟩ := h₁.quiet_setPage (h₁.pending_not_kept hin) (s₀.mem (frame (s₀.pteAt p n)))
    have hs := hs₁.trans hs₂
    -- a page is not the frame that was free
    have hpage₂ : ∀ g, s.IsPage D g → (s₁.setPage m (s₀.mem (frame (s₀.pteAt p n)))).mem g = s.mem g := by
      intro g hg
      have hgm : g ≠ m := fun he => (h₁.isPage_apart (hg.of_same hs₁)).2.2 (he ▸ hin)
      rw [← hmem]
      exact Function.update_of_ne hgm _ _
    rw [wp_bind]
    refine wp_mappages_user h₂ hd hnu (by rw [hs.pte d hd, habs n le_rfl hlt]) hin (flags_lt _)
      (fun _ hl₁ => ?_) fun l₃ s₃ h₃ hm hlen => ?_
    · simp only [Bool.false_eq_true, if_false]
      rw [wp_bind]
      refine wp_kfree h₂ hin fun h' => ?_
      have hs' := Frames.same_freed (h₂.pending_not_kept hin)
      rw [insert_sdiff_self hmP] at h'
      refine ⟨_, h', Remaps.of_same (hs.trans hs') hd, fun g hg => ?_, fun _ => ?_, nofun⟩
      swap
      · rw [hl, hl₁]
        exact Nat.one_lt_mul_iff.2 ⟨by decide, by omega, Or.inl (by decide)⟩
      have hgm : g ≠ m := fun he => (h₂.isPage_apart (hg.of_same hs)).2.2 (he ▸ hin)
      rw [Phys.freed_mem _ hgm, hpage₂ g hg]
    · simp only [if_true]
      rw [insert_sdiff_self hmP] at h₃
      have hR : Remaps D oth d n sz s s₃ :=
        (Remaps.of_same hs hd).trans (hm.remaps hd hnu le_rfl hlt)
      have hframe : frame (s₃.pteAt d n) = m := by
        rw [hm.self]
        exact frame_entry (h₁.lt_of_mem (h₁.pending_mem hin).1) (toNat_or_PTE_P_lt (flags_lt _))
      have hpr₃ : present (s₃.pteAt d n) = true := by
        rw [hm.self, present_entry, present_or_PTE_P]
      have hcopy : CopyOf s₀ p s₃ d n := by
        constructor
        · rw [hm.self, flags_or_PTE_P hpr, flags_entry _ (flags_lt _)]
        · rw [hframe, hm.pending m hin]
          exact Function.update_self _ _ _
      have hpages : ∀ g, s.IsPage D g → s₃.IsPage D g ∧ s₃.mem g = s.mem g := fun g hg =>
        hmem ▸ hm.pages h₁ (by rw [hs₁.pte d hd, habs n le_rfl hlt]) (hg.of_same hs₁)
      refine wp_mono (ih h₃ (fun x f hx => ?_) (by rwa [show n + 1 + k = n + (k + 1) by omega])
        fun x hx hlt' => ?_) ?_
      · rw [hm.mem x f hx, hs.mem x f hx, hm₀ x f hx]
      · rw [hm.pte d hd x ((lt_userpages hlt' hsz).trans (by decide)) (Or.inr (by omega)),
          hs.pte d hd]
        exact habs x (by omega) hlt'
      · rintro r s' ⟨l', h', hR', hkeep, hshort, hdone⟩
        refine ⟨l', h', hR.trans (hR'.mono (by omega)), fun g hg => ?_, fun hr => ?_,
          fun hr x hx hlt' => ?_⟩
        · rw [hkeep g (hpages g hg).1, (hpages g hg).2]
        · have := hshort hr
          rw [hl, List.length_cons]
          omega
        by_cases hxn : x = n
        · have hself := hR'.outside n (hnu.trans (by decide)) (Or.inl (by omega))
          rw [hxn, CopyOf, hself]
          refine ⟨hpr₃, hcopy.1, ?_⟩
          rw [hkeep _ ⟨d, hd, n, hnu, hpr₃, rfl⟩, hcopy.2]
        · exact hdone hr x (by omega) hlt'

/-- `d` maps the pages below `sz`, and no other user page. -/
def MapsUpto (s : Phys) (d sz : Nat) : Prop :=
  ∀ n < USERPAGES, present (s.pteAt d n) = true ↔ n * PGSIZE < sz

theorem wp_copyuvm_copies {Q : Option Nat → Phys → Prop} {p sz : Nat} (h : Frames im R D oth P l s)
    (hp : p ∈ D) (hsz : sz ≤ KERNBASE)
    (hE : E (some .copyuvmPte) ∧ E (some .copyuvmPage) ∨
      ∀ m, m * PGSIZE < sz → present (s.pteAt p m) = true)
    (hnone : l.length < copyFrames sz → ∀ l' s', Frames im R D oth P l' s' → Same D oth s s' →
      (∀ g, s.IsPage D g → s'.mem g = s.mem g) → Q none s')
    (hsome : ∀ d l' s', d ∉ D → Frames im R (insert d D) oth P l' s' → Same D oth s s' →
      (∀ g, s.IsPage D g → s'.mem g = s.mem g) → KernelPart s' d → MapsUpto s' d sz →
      (∀ m, m * PGSIZE < sz → CopyOf s p s' d m) → Q (some d) s') :
    wp E (copyuvm im p sz) Q s := by
  -- all frames in use are out of reach of the code, those of the parent among them
  have hA : (∅ : Set Nat) ⊆ D := Set.empty_subset D
  have hsealed : ∀ {x f}, s.refs D oth x = some f → s.sealed R ∅ P l f = some f := fun hx =>
    h.sealed_of_refs hA (by rwa [Set.sdiff_empty])
  have hpin : Pinned (s.sealed R ∅ P l) s p :=
    ⟨⟨p, hsealed (refs_dir.2 ⟨hp, rfl⟩)⟩, fun i t ht => ⟨t, hsealed (refs_tab.2 ⟨hp, ht⟩)⟩,
      fun n hn hpr => ⟨_, hsealed (refs_page.2 ⟨hp, hn, hpr, rfl⟩)⟩⟩
  have hnone' : l.length < copyFrames sz → ∀ l' s', Frames im R ∅ (s.sealed R ∅ P l) P l' s' →
      Same ∅ (s.sealed R ∅ P l) s s' → Q none s' := by
    intro hshort l' s' h' hs'
    obtain ⟨hfr, hsame, hpages⟩ := h.rejoin_all h' hs'
    rw [Set.union_empty] at hfr
    exact hnone hshort l' s' hfr hsame hpages
  unfold copyuvm
  rw [wp_bind]
  refine wp_setupkvm (h.isolate hA) (fun hl l' s' h' hs => hnone' (Nat.lt_add_right _ hl) l' s' h' hs)
    fun d l₁ s₁ _ h₁ hs₁ hK hu hlen _ => ?_
  simp only []
  rw [wp_bind]
  have hdI : d ∈ insert d (∅ : Set Nat) := Set.mem_insert d ∅
  have hfuel : sz ≤ (0 + (sz / PGSIZE + 1)) * PGSIZE := by
    simp only [PGSIZE]
    omega
  refine wp_mono (wp_copyFrom hpin hdI hsz hE _ h₁ hs₁.mem hfuel fun m _ hm =>
    hu m (lt_userpages hm hsz)) ?_
  rintro r s' ⟨l', h', hR, -, hshort, hdone⟩
  have hs' := hR.same
  rw [insert_sdiff_self (Set.notMem_empty d)] at hs'
  cases r with
  | true =>
    obtain ⟨hfr, hsame, hpages⟩ := h.rejoin_all h' (hs₁.trans hs')
    rw [Set.union_insert, Set.union_empty] at hfr
    refine hsome d l' s' (h.notMem_of_isolated h' hdI) hfr hsame hpages (hK.of_remaps hR hsz) (fun m hm => ⟨fun hpr => ?_,
      fun hlt => (hdone rfl m (Nat.zero_le m) hlt).1⟩) fun m hlt => (hdone rfl m (Nat.zero_le m) hlt).2
    by_contra hge
    rw [hR.outside m (hm.trans (by decide)) (Or.inr (Nat.le_of_not_lt hge)), hu m hm] at hpr
    exact absurd hpr (by decide)
  | false =>
    simp only [Bool.false_eq_true, if_false]
    rw [wp_bind]
    refine wp_freevm h' hdI fun l'' s'' h'' hs'' => ?_
    rw [insert_sdiff_self (Set.notMem_empty d)] at h'' hs''
    refine hnone' ?_ l'' s'' h'' ((hs₁.trans hs').trans hs'')
    have := hshort rfl
    unfold copyFrames
    omega

/-! ## `clearpteu` -/

theorem present_clear_user (w : Word) : present (w &&& ~~~PTE_U) = present w := by
  simp [present, PTE_U]

theorem frame_clear_user (w : Word) : frame (w &&& ~~~PTE_U) = frame w := by
  have hw : w.toNat >>> 12 < 2 ^ 20 := by
    rw [Nat.shiftRight_eq_div_pow]
    omega
  have hmask : (~~~PTE_U : Word).toNat >>> 12 = 2 ^ 20 - 1 := by decide
  have hdiv : ∀ e : Word, frame e = e.toNat >>> 12 := fun e => by
    rw [frame, Nat.shiftRight_eq_div_pow]
  rw [hdiv, hdiv, BitVec.toNat_and, Nat.shiftRight_and_distrib, hmask,
    Nat.and_two_pow_sub_one_of_lt_two_pow hw]

theorem wp_clearpteu {Q : Unit → Phys → Prop} {uva : Nat} (h : Frames im R D oth P l s) (hd : d ∈ D)
    (hn : uva / PGSIZE < USERPAGES) (hp : present (s.pteAt d (uva / PGSIZE)) = true)
    (hQ : ∀ s', Frames im R D oth P l s' →
      SetPte D oth d (uva / PGSIZE) (s.pteAt d (uva / PGSIZE) &&& ~~~PTE_U) s s' →
      (∀ g, s.IsPage D g → s'.mem g = s.mem g) → Q () s') :
    wp E (clearpteu d uva) Q s := by
  have hnP : uva / PGSIZE < NPAGES := hn.trans (by decide)
  unfold clearpteu
  rw [wp_bind]
  refine wp_walk (fun t ht => ?_) fun habs => ?_
  · simp only []
    rw [wp_bind, wp_word, ← Phys.pteAt_of_table ht, wp_setWord]
    exact hQ _ (h.setPte_flags hd hnP ht (present_clear_user _) (frame_clear_user _))
      (h.setPte_view hd hnP ht _) fun g hg =>
        Phys.setWord_ne _ _ _ fun he => (h.isPage_apart hg).2.1 d hd _ (he ▸ ht)
  · rw [Phys.pteAt_of_absent habs, present_zero] at hp
    exact absurd hp (by decide)

/-! ## Writing to user pages -/

/-- The byte at address `a`, seen through the directory `d`. -/
def Phys.byte (s : Phys) (d a : Nat) : Byte :=
  Blk.byteOf (s.mem (frame (s.pteAt d (a / PGSIZE))) (a % PGSIZE / 4)) (a % PGSIZE % 4)

theorem byteOf_patch (off n : Nat) (src : Nat → Byte) (c : Nat → Word) (k : Nat) :
    Blk.byteOf (patch off n src c (k / 4)) (k % 4) =
      if off ≤ k ∧ k < off + n then src (k - off) else Blk.byteOf (c (k / 4)) (k % 4) := by
  let b (k : Nat) := if off ≤ k ∧ k < off + n then src (k - off) else Blk.byteOf (c (k / 4)) (k % 4)
  have hk : 4 * (k / 4) + k % 4 = k := Nat.div_add_mod k 4
  calc _ = b (4 * (k / 4) + k % 4) :=
        Blk.byteOf_append (fun j => b (4 * (k / 4) + j)) (Nat.mod_lt _ (by decide))
    _ = _ := by rw [hk]

/-- Other pages have other frames, so a write changes the bytes it is meant for. -/
theorem Frames.byte_patch {sz va k : Nat} (h : Frames im R D oth P l s) (buf : Nat → Byte)
    (hd : d ∈ D) (hsz : sz ≤ KERNBASE) (hp : ∀ m, m * PGSIZE < sz → present (s.pteAt d m) = true)
    (hva : va < sz) (hk : va % PGSIZE + k ≤ PGSIZE) {a : Nat} (ha : a < sz) :
    (s.setPage (frame (s.pteAt d (va / PGSIZE))) (patch (va % PGSIZE) k buf
      (s.mem (frame (s.pteAt d (va / PGSIZE)))))).byte d a =
      if va ≤ a ∧ a < va + k then buf (a - va) else s.byte d a := by
  have hpage : ∀ {a}, a < sz → a / PGSIZE < USERPAGES ∧ present (s.pteAt d (a / PGSIZE)) = true :=
    fun {a} ha => by
      have hlt := (Nat.div_mul_le_self a PGSIZE).trans_lt ha
      exact ⟨lt_userpages hlt hsz, hp _ hlt⟩
  obtain ⟨hnva, hpva⟩ := hpage hva
  obtain ⟨hna, hpa⟩ := hpage ha
  obtain ⟨-, hs'⟩ := h.quiet_setPage (h.page_not_kept hd hnva hpva)
    (patch (va % PGSIZE) k buf (s.mem (frame (s.pteAt d (va / PGSIZE)))))
  rw [Phys.byte, Phys.byte, hs'.pte d hd]
  by_cases hn : a / PGSIZE = va / PGSIZE
  · rw [hn, show (s.setPage _ _).mem _ = _ from Function.update_self _ _ _, byteOf_patch]
    have ha' := Nat.div_add_mod a PGSIZE
    have hva' := Nat.div_add_mod va PGSIZE
    rw [hn] at ha'
    by_cases hin : va ≤ a ∧ a < va + k
    · rw [if_pos hin, if_pos (by omega)]
      congr 1
      omega
    · rw [if_neg hin, if_neg (by omega)]
  · have hne : frame (s.pteAt d (a / PGSIZE)) ≠ frame (s.pteAt d (va / PGSIZE)) := by
      intro he
      have := h.own.inj (.page d (a / PGSIZE)) (.page d (va / PGSIZE)) _
        (refs_page.2 ⟨hd, hna, hpa, he⟩) (refs_page.2 ⟨hd, hnva, hpva, rfl⟩)
      injection this with _ h2
      exact hn h2
    rw [show (s.setPage _ _).mem _ = _ from Function.update_of_ne hne _ _, if_neg]
    rintro ⟨h1, h2⟩
    simp only [PGSIZE] at *
    omega

/-- The pages that `allocuvm` adds are zero, and those that were there keep their bytes. -/
theorem AllocDone.byte {lo hi a : Nat} (h : AllocDone D oth d lo hi s s') (hd : d ∈ D)
    (hhi : hi ≤ KERNBASE) (hp : a / PGSIZE < lo → Vm.present (s.pteAt d (a / PGSIZE)) = true)
    (ha : a / PGSIZE * PGSIZE < hi) : s'.byte d a = if a / PGSIZE < lo then s.byte d a else 0 := by
  have hn := lt_userpages ha hhi
  split
  next hlo =>
    rw [Phys.byte, Phys.byte, h.remaps.outside _ (hn.trans (by decide)) (Or.inl hlo),
      h.kept _ ⟨d, hd, _, hn, hp hlo, rfl⟩]
  next hlo =>
    rw [Phys.byte, h.zero _ (by omega) ha]
    simp [Blk.byteOf]

/-- The memory `f` with a segment of the file over it. -/
def FileData.over (ip : FileData) (addr sz : Nat) (f : Nat → Byte) (a : Nat) : Byte :=
  if addr ≤ a ∧ a < addr + sz then ip.bytes ((a - addr) / PGSIZE) ((a - addr) % PGSIZE) else f a

theorem wp_loadFrom {addr sz top : Nat} {ip : FileData} (hd : d ∈ D) (haddr : addr % PGSIZE = 0)
    (hsz : addr + sz ≤ top) (htop : top ≤ KERNBASE) (k i : Nat) (hk : sz ≤ (i + k) * PGSIZE)
    (h : Frames im R D oth P l s) (hp : ∀ m, m * PGSIZE < top → present (s.pteAt d m) = true) :
    wp E (loadFrom d addr sz ip k i) (fun r s' => Frames im R D oth P l s' ∧ Same D oth s s' ∧
      (r = true → ∀ a < top, s'.byte d a =
        if addr + i * PGSIZE ≤ a then ip.over addr sz (s.byte d) a else s.byte d a)) s := by
  have hstop : ∀ {i : Nat} {s : Phys}, sz ≤ i * PGSIZE → ∀ a < top, s.byte d a =
      if addr + i * PGSIZE ≤ a then ip.over addr sz (s.byte d) a else s.byte d a := by
    intro i s hi a _
    split
    next h1 => rw [FileData.over, if_neg (by omega)]
    next => rfl
  induction k generalizing i s with
  | zero => exact ⟨h, Same.refl _ _ _, fun _ => hstop (by omega)⟩
  | succ k ih =>
    unfold loadFrom
    refine wp_ite (fun hlt => ?_) fun hge =>
      ⟨h, Same.refl _ _ _, fun _ => hstop (Nat.le_of_not_lt hge)⟩
    have hpage : (addr + i * PGSIZE) / PGSIZE = addr / PGSIZE + i := by
      simp only [PGSIZE]
      omega
    have hva : addr + i * PGSIZE < top := by omega
    have hpi : present (s.pteAt d (addr / PGSIZE + i)) = true :=
      hp _ (hpage ▸ (Nat.div_mul_le_self _ _).trans_lt hva)
    rw [wp_bind]
    refine wp_walk (fun t ht => ?_) fun habs => ?_
    · simp only []
      rw [wp_bind, wp_word, ← Phys.pteAt_of_table ht, wp_bind, wp_setPage]
      have hn : addr / PGSIZE + i < USERPAGES :=
        lt_userpages (hpage ▸ (Nat.div_mul_le_self _ _).trans_lt hva) htop
      obtain ⟨h', hs'⟩ := h.quiet_setPage (h.page_not_kept hd hn hpi)
        (patch 0 (min (ip.got i) (min (sz - i * PGSIZE) PGSIZE)) (ip.bytes i)
          (s.mem (frame (s.pteAt d (addr / PGSIZE + i)))))
      refine wp_ite (fun _ => ⟨h', hs', nofun⟩) fun hgot => ?_
      have hoff : (addr + i * PGSIZE) % PGSIZE = 0 := by
        simp only [PGSIZE] at *
        omega
      have hbyte := fun a ha => h.byte_patch (k := min (sz - i * PGSIZE) PGSIZE) (ip.bytes i) hd htop hp
        hva (by omega) (a := a) ha
      rw [hpage, hoff] at hbyte
      rw [not_ne_iff.1 hgot, min_self] at h' hs' ⊢
      have hk' : sz ≤ (i + 1 + k) * PGSIZE := by rwa [Nat.add_assoc, Nat.add_comm 1 k]
      have hi' : (i + 1) * PGSIZE = i * PGSIZE + PGSIZE := Nat.succ_mul i PGSIZE
      refine wp_mono (ih (i + 1) hk' h' fun m hm => by rw [hs'.pte d hd, hp m hm])
        fun r s'' ⟨h'', hs'', hload⟩ => ⟨h'', hs'.trans hs'', fun hr a ha => ?_⟩
      rw [hload hr a ha, FileData.over, FileData.over, hbyte a ha, hi']
      by_cases h1 : addr + (i * PGSIZE + PGSIZE) ≤ a
      · rw [if_pos h1, if_pos (le_trans (Nat.add_le_add_left (Nat.le_add_right _ _) _) h1)]
        split
        · rfl
        · exact if_neg (by simp only [PGSIZE] at *; omega)
      · rw [if_neg h1]
        by_cases h2 : addr + i * PGSIZE ≤ a ∧ a < addr + sz
        · rw [if_pos h2.1, if_pos (by omega), if_pos (by simp only [PGSIZE] at *; omega)]
          congr 1 <;> simp only [PGSIZE] at * <;> omega
        · rw [if_neg (by omega)]
          split
          next h3 => rw [if_neg (by omega)]
          next => rfl
    · rw [Phys.pteAt_of_absent habs, present_zero] at hpi
      exact absurd hpi (by decide)

theorem wp_loaduvm {addr sz top : Nat} {ip : FileData} (h : Frames im R D oth P l s) (hd : d ∈ D)
    (haddr : addr % PGSIZE = 0) (hsz : addr + sz ≤ top) (htop : top ≤ KERNBASE)
    (hp : ∀ m, m * PGSIZE < top → present (s.pteAt d m) = true) :
    wp E (loaduvm d addr ip sz) (fun r s' => Frames im R D oth P l s' ∧ Same D oth s s' ∧
      (r = true → ∀ a < top, s'.byte d a = ip.over addr sz (s.byte d) a)) s := by
  unfold loaduvm
  rw [if_neg (by simp [haddr])]
  refine wp_mono (wp_loadFrom hd haddr hsz htop _ _ (by simp only [PGSIZE]; omega) h hp)
    fun r s' ⟨h', hs', hload⟩ => ⟨h', hs', fun hr a ha => ?_⟩
  rw [hload hr a ha]
  split
  · rfl
  · rw [FileData.over, if_neg (by omega)]

structure Copied (d sz va len : Nat) (buf : Nat → Byte) (s s' : Phys) : Prop where
  user : ∀ a, va ≤ a → a < va + len → user (s.pteAt d (a / PGSIZE)) = true
  byte : ∀ a < sz, s'.byte d a = if va ≤ a ∧ a < va + len then buf (a - va) else s.byte d a

theorem Copied.empty (d sz va : Nat) (buf : Nat → Byte) (s : Phys) : Copied d sz va 0 buf s s :=
  ⟨fun a h1 h2 => absurd h2 (by omega), fun a _ => by rw [if_neg (by omega)]⟩

/-! ### `copyout` -/

/-- Between the mappings of memory and of devices no directory has a table. -/
def Hole (va : Nat) : Prop := KERNBASE + PHYSTOP ≤ va ∧ va < DEVSPACE

instance (va : Nat) : Decidable (Hole va) :=
  inferInstanceAs (Decidable (KERNBASE + PHYSTOP ≤ va ∧ va < DEVSPACE))

theorem KernelPart.noTable {va : Nat} (hK : KernelPart s d) (h : Hole va) :
    present (s.mem d (pdx (va / PGSIZE))) = false := by
  obtain ⟨h1, h2⟩ := h
  refine hK.hole _ ?_ ?_ <;> simp only [KERNBASE, PHYSTOP, DEVSPACE, PGSIZE, pdx] at * <;> omega

theorem wp_uva2ka {n : Nat} {Q : Option Nat → Phys → Prop} (hp : present (s.pteAt d n) = true)
    (hQ : Q (if user (s.pteAt d n) then some (frame (s.pteAt d n)) else none) s) :
    wp E (uva2ka d n) Q s := by
  unfold uva2ka
  rw [wp_bind]
  refine wp_walk (fun t ht => ?_) fun habs => ?_
  · simp only []
    rw [wp_bind, wp_word, ← Phys.pteAt_of_table ht, hp]
    cases hu : user (s.pteAt d n) <;> rw [hu] at hQ <;> exact hQ
  · rw [Phys.pteAt_of_absent habs, present_zero] at hp
    exact absurd hp (by decide)

theorem wp_uva2ka_null {n : Nat} {Q : Option Nat → Phys → Prop} (habs : present (s.mem d (pdx n)) = false)
    (hE : E (some .trap)) : wp E (uva2ka d n) Q s := by
  unfold uva2ka
  rw [wp_bind]
  refine wp_walk (fun t ht => ?_) fun _ => wp_throw.2 hE
  rw [ht.2.1] at habs
  exact absurd habs (by decide)

/-- The range is in the image, or its start has wrapped around: to pages that are closed to user code, or
to the hole. -/
theorem wp_copyoutFrom {sz fuel va len : Nat} {buf : Nat → Byte} (hd : d ∈ D)
    (hsz : sz ≤ KERNBASE) (h : Frames im R D oth P l s) (hK : KernelPart s d)
    (hp : ∀ m, m * PGSIZE < sz → present (s.pteAt d m) = true) (hfuel : len ≤ fuel)
    (hva : len = 0 ∨ va + len ≤ sz ∨ KERNBASE ≤ va ∧ va < 2 ^ 32) (hE : Hole va → E (some .trap)) :
    wp E (copyoutFrom d fuel va len buf) (fun r s' => Frames im R D oth P l s' ∧
      Same D oth s s' ∧ (len = 0 ∨ ¬Hole va) ∧
      (r = true → (len = 0 ∨ va + len ≤ sz) ∧ Copied d sz va len buf s s') ∧
      (r = false → ∃ a, va ≤ a ∧ a < va + len ∧ user (s.pteAt d (a / PGSIZE)) = false)) s := by
  induction fuel generalizing s va len buf with
  | zero =>
    obtain rfl : len = 0 := Nat.le_zero.1 hfuel
    exact ⟨h, Same.refl _ _ _, Or.inl rfl, fun _ => ⟨Or.inl rfl, .empty _ _ _ _ _⟩, nofun⟩
  | succ fuel ih =>
    unfold copyoutFrom
    by_cases hlen : len > 0
    swap
    · obtain rfl : len = 0 := by omega
      exact ⟨h, Same.refl _ _ _, Or.inl rfl, fun _ => ⟨Or.inl rfl, .empty _ _ _ _ _⟩, nofun⟩
    rw [if_pos hlen, wp_bind]
    by_cases hhole : Hole va
    · exact wp_uva2ka_null (hK.noTable hhole) (hE hhole)
    have hpres : present (s.pteAt d (va / PGSIZE)) = true := by
      rcases hva with hva | hva | hva
      · omega
      · exact hp _ ((Nat.div_mul_le_self va PGSIZE).trans_lt (by omega))
      · simp only [Hole] at hhole
        refine hK.mapped _ ?_ ?_ ?_ <;>
          simp only [USERPAGES, KERNBASE, PHYSTOP, DEVSPACE, NPAGES, PGSIZE] at * <;> omega
    refine wp_uva2ka hpres ?_
    by_cases huser : user (s.pteAt d (va / PGSIZE)) = true
    swap
    · rw [if_neg huser]
      exact ⟨h, Same.refl _ _ _, Or.inr hhole, nofun, fun _ => ⟨va, le_rfl, by omega, by simpa using huser⟩⟩
    have hvasz : va + len ≤ sz := by
      rcases hva with hva | hva | hva
      · omega
      · exact hva
      · rw [hK.noUser (va / PGSIZE) (Nat.div_le_div_right hva.1)
          (by simp only [PGSIZE, NPAGES]; omega)] at huser
        exact absurd huser (by decide)
    have hn : va / PGSIZE < USERPAGES :=
      lt_userpages ((Nat.div_mul_le_self va PGSIZE).trans_lt (show va < sz by omega)) hsz
    obtain ⟨k, hkdef⟩ : ∃ k, min (PGSIZE - va % PGSIZE) len = k := ⟨_, rfl⟩
    have hoff : va % PGSIZE < PGSIZE := Nat.mod_lt _ (by decide)
    have hbyte := fun a (ha : a < sz) =>
      h.byte_patch buf hd hsz hp (show va < sz by omega) (show va % PGSIZE + k ≤ PGSIZE by omega) ha
    obtain ⟨h', hs'⟩ := h.quiet_setPage (h.page_not_kept hd hn hpres)
      (patch (va % PGSIZE) k buf (s.mem (frame (s.pteAt d (va / PGSIZE)))))
    -- if something is left it goes to the next page, which is below the hole
    have hnext : (len - k = 0 ∨ uint ((va / PGSIZE + 1) * PGSIZE) = va + k) ∧
        uint ((va / PGSIZE + 1) * PGSIZE) ≤ KERNBASE := by
      simp only [PGSIZE, KERNBASE, uint] at *
      omega
    rw [if_pos huser]
    simp only [hkdef]
    rw [wp_bind, wp_setPage]
    refine wp_mono (ih h' (hK.of_same hs' hd) (fun m hm => by rw [hs'.pte d hd, hp m hm])
      (by omega) (by omega) fun hh => absurd hh.1 (by simp only [KERNBASE, PHYSTOP] at *; omega)) ?_
    rintro r s'' ⟨h'', hs'', -, hcopied, hclosed⟩
    refine ⟨h'', hs'.trans hs'', Or.inr hhole, fun hr => ⟨Or.inr hvasz, fun a h1 h2 => ?_, fun a ha => ?_⟩,
      fun hr => ?_⟩
    · by_cases hk : a < va + k
      · have : a / PGSIZE = va / PGSIZE := by
          simp only [PGSIZE] at *
          omega
        rw [this, huser]
      · rw [← hs'.pte d hd]
        exact (hcopied hr).2.user a (by omega) (by omega)
    · rw [(hcopied hr).2.byte a ha, hbyte a ha]
      by_cases hk : va ≤ a ∧ a < va + k
      · rw [if_neg (by omega), if_pos hk, if_pos (by omega)]
      · by_cases hin : va ≤ a ∧ a < va + len
        · rw [if_pos (by omega), if_pos hin]
          congr 1
          omega
        · rw [if_neg (by omega), if_neg hk, if_neg hin]
    · obtain ⟨a, h1, h2, hu⟩ := hclosed hr
      exact ⟨a, by omega, by omega, by rwa [hs'.pte d hd] at hu⟩

end Xv6.Vm
