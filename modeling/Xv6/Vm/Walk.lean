import Xv6.Vm.Frames

/-!
# What the functions on page tables do

One rule for each function of `kalloc.c` and for those of `vm.c` up to `setupkvm`: from
`Frames`, the function keeps `Frames`, changes the view of its directory as stated and of no
other, and does not panic.  Where a function can run out of memory, the rule also says how many free
pages are enough.
-/

namespace Xv6.Vm

open Bytes Conc Prog

variable {ι : Type} {im : KernelImage} {R D P : Set Nat} {oth : ι → Option Nat} {l : List Nat}
  {s s' : Phys} {d n f i : Nat} {E : Option Panic → Prop}

/-! ## Single sections -/

theorem wp_word {Q : Word → Phys → Prop} : wp E (word f i) Q s ↔ Q (s.mem f i) s := wp_atomic

theorem wp_setWord {w : Word} {Q : Unit → Phys → Prop} :
    wp E (setWord f i w) Q s ↔ Q () (s.setWord f i w) := wp_atomic

theorem wp_setPage {g : (Nat → Word) → Nat → Word} {Q : Unit → Phys → Prop} :
    wp E (setPage f g) Q s ↔ Q () (s.setPage f (g (s.mem f))) := wp_atomic

theorem wp_clear {Q : Unit → Phys → Prop} :
    wp E (clear f) Q s ↔ Q () (s.setPage f fun _ => 0) := wp_atomic

theorem wp_kalloc {Q : Option Nat → Phys → Prop} (h : Frames im R D oth P l s)
    (hnone : l = [] → Q none s)
    (hsome : ∀ f l' s', l = f :: l' → f ∉ P → s'.mem = s.mem →
      Frames im R D oth (insert f P) l' s' → Q (some f) s') :
    wp E kalloc Q s := by
  refine wp_atomic.2 ?_
  cases hl : l with
  | nil =>
    rw [h.kalloc_nil hl]
    exact hnone hl
  | cons f l' =>
    obtain ⟨hp, hF⟩ := h.kalloc_cons hl
    have hf : f ∉ P := fun hf => (h.pending_mem hf).2 (hl ▸ List.mem_cons_self)
    rw [hp]
    exact hsome f l' _ hl hf rfl hF

theorem wp_kfree {Q : Unit → Phys → Prop} (h : Frames im R D oth P l s) (hf : f ∈ P)
    (hQ : Frames im R D oth (P \ {f}) (f :: l) (s.freed f) → Q () (s.freed f)) :
    wp E (kfree im f) Q s := by
  have hr := h.range f (h.pending_mem hf).1
  refine wp_atomic.2 ?_
  rw [if_neg (by omega)]
  exact hQ (h.kfree hf)

theorem wp_walk {Q : Option (Nat × Nat) → Phys → Prop}
    (hsome : ∀ t, s.IsTable d (pdx n) t → Q (some (t, ptx n)) s)
    (hnone : present (s.mem d (pdx n)) = false → Q none s) :
    wp E (walkpgdir d n false) Q s := by
  unfold walkpgdir
  rw [wp_bind, wp_word]
  refine wp_ite (fun hp => ?_) fun hp => ?_
  · exact hsome _ ⟨pdx_lt n, hp, rfl⟩
  · exact hnone (by simpa using hp)

/-- An address space has no more pages than `NPAGES`. -/
theorem Phys.pteAt_mod (s : Phys) (d m : Nat) : s.pteAt d m = s.pteAt d (m % NPAGES) := by
  have h1 : pdx m = pdx (m % NPAGES) := by
    simp only [pdx, NPAGES]
    omega
  have h2 : ptx m = ptx (m % NPAGES) := by
    simp only [ptx, NPAGES]
    omega
  simp only [Phys.pteAt, h1, h2]

/-- A directory may have got a table at entry `i`; it maps what it did. -/
structure Walked (D P : Set Nat) (oth : ι → Option Nat) (d i : Nat) (s s' : Phys) : Prop where
  pte : ∀ d' ∈ D, ∀ m, s'.pteAt d' m = s.pteAt d' m
  pde : ∀ d' ∈ D, ∀ j < NPDENTRIES, d' ≠ d ∨ j ≠ i → s'.mem d' j = s.mem d' j
  kept : present (s.mem d i) = true → s'.mem d i = s.mem d i
  mem : ∀ x f, oth x = some f → s'.mem f = s.mem f
  page : ∀ g, s.IsPage D g → s'.mem g = s.mem g
  pending : ∀ g ∈ P, s'.mem g = s.mem g

theorem insert_sdiff_self {f : Nat} (hf : f ∉ P) : insert f P \ {f} = P := by
  ext g
  simp only [Set.mem_sdiff, Set.mem_insert_iff, Set.mem_singleton_iff]
  constructor
  · rintro ⟨rfl | hg, hne⟩
    · exact absurd rfl hne
    · exact hg
  · intro hg
    exact ⟨Or.inr hg, fun he => hf (he ▸ hg)⟩

theorem wp_walk_alloc {Q : Option (Nat × Nat) → Phys → Prop} (h : Frames im R D oth P l s)
    (hd : d ∈ D) (hnone : present (s.mem d (pdx n)) = false → l = [] → Q none s)
    (hsome : ∀ t l' s', Frames im R D oth P l' s' → s'.IsTable d (pdx n) t →
      Walked D P oth d (pdx n) s s' →
      l.length + (if present (s.mem d (pdx n)) then 1 else 0) ≤ l'.length + 1 →
      Q (some (t, ptx n)) s') :
    wp E (walkpgdir d n true) Q s := by
  unfold walkpgdir
  rw [wp_bind, wp_word]
  refine wp_ite (fun hp => ?_) fun hp => ?_
  · exact hsome _ l s h ⟨pdx_lt n, hp, rfl⟩
      ⟨fun _ _ _ => rfl, fun _ _ _ _ _ => rfl, fun _ => rfl, fun _ _ _ => rfl, fun _ _ => rfl, fun _ _ => rfl⟩
      (by simp [hp])
  have habs : present (s.mem d (pdx n)) = false := by simpa using hp
  simp only [Bool.not_true, Bool.false_eq_true, if_false]
  rw [wp_bind]
  refine wp_kalloc h (hnone habs) fun t l' s₁ hl htP hmem h₁ => ?_
  rw [wp_bind, wp_clear, wp_bind, wp_setWord]
  have htI : t ∈ insert t P := Set.mem_insert t P
  obtain ⟨h₂, hsame⟩ := h₁.quiet_setPage (h₁.pending_not_kept htI) fun _ => 0
  have habs₂ : present ((s₁.setPage t fun _ => 0).mem d (pdx n)) = false := by
    rw [hsame.pde d hd _ (pdx_lt n), hmem, habs]
  have hz : ∀ j < 1024, (s₁.setPage t fun _ => 0).mem t j = 0 := fun j _ => by
    simp [Phys.setPage]
  have hfr : frame (entry t (PTE_P ||| PTE_W ||| PTE_U)) = t :=
    frame_entry (h₁.lt_of_mem (h₁.pending_mem htI).1) (by decide)
  have hpr : present (entry t (PTE_P ||| PTE_W ||| PTE_U)) = true := by
    rw [present_entry]
    decide
  have h₃ := h₂.addTable hd (pdx_lt n) habs₂ htI hz hpr hfr
  rw [insert_sdiff_self htP] at h₃
  have hs₁ : ∀ d' m, s₁.pteAt d' m = s.pteAt d' m := fun d' m => by simp only [Phys.pteAt, hmem]
  refine hsome t l' _ h₃ ⟨pdx_lt n, ?_⟩
    ⟨fun d' hd' m => ?_, fun d' hd' j hj hne => ?_, fun hp' => absurd hp' hp, fun x f hx => ?_,
      fun g hg => ?_, fun g hg => ?_⟩ ?_
  · rw [Phys.setWord_self]
    exact ⟨hpr, hfr⟩
  · rw [h₂.addTable_pte hd habs₂ htI hz hpr hfr hd', hsame.pte d' hd', hs₁]
  · rw [← congrFun (congrFun hmem d') j, ← hsame.pde d' hd' j hj]
    by_cases hdd : d' = d
    · subst hdd
      exact Phys.setWord_index _ _ _ (hne.resolve_left fun h' => h' rfl)
    · rw [Phys.setWord_ne _ _ _ hdd]
  · rw [Phys.setWord_ne _ _ _ (h.dir_not_other hd hx), hsame.mem x f hx, hmem]
  · have hg₁ : s₁.IsPage D g := hg.of_same (Same.of_mem hmem : Same D oth s s₁)
    obtain ⟨hgD, -, hgP⟩ := h₁.isPage_apart hg₁
    have hgd : g ≠ d := fun he => hgD (he ▸ hd)
    have hgt : g ≠ t := fun he => hgP (he ▸ htI)
    rw [Phys.setWord_ne _ _ _ hgd, ← hmem]
    exact Function.update_of_ne hgt _ _
  · have hgd : g ≠ d := fun he => h.dir_not_pending hd (he ▸ hg)
    have hgt : g ≠ t := fun he => htP (he ▸ hg)
    rw [Phys.setWord_ne _ _ _ hgd, ← hmem]
    exact Function.update_of_ne hgt _ _
  · rw [hl, habs]
    simp

/-! ## Mapping one page -/

structure MapsPage (D P : Set Nat) (oth : ι → Option Nat) (d n : Nat) (w : Word) (s s' : Phys) :
    Prop where
  self : s'.pteAt d n = w
  table : present (s'.mem d (pdx n)) = true
  pte : ∀ d' ∈ D, ∀ m < NPAGES, d' ≠ d ∨ m ≠ n → s'.pteAt d' m = s.pteAt d' m
  pde : ∀ d' ∈ D, ∀ j < NPDENTRIES, d' ≠ d ∨ j ≠ pdx n → s'.mem d' j = s.mem d' j
  kept : present (s.mem d (pdx n)) = true → s'.mem d (pdx n) = s.mem d (pdx n)
  mem : ∀ x f, oth x = some f → s'.mem f = s.mem f
  page : ∀ g, s.IsPage D g → s'.mem g = s.mem g
  pending : ∀ g ∈ P, s'.mem g = s.mem g

theorem wp_mapFrom_succ {Q : Bool → Phys → Prop} {perm : Word} {k : Nat} {N : Set Nat}
    (h : Frames im R D oth P l s) (hd : d ∈ D) (hn : n < NPAGES)
    (habs : present (s.pteAt d n) = false)
    (hown : ∀ l₁ s₁ t, Frames im R D oth P l₁ s₁ → s₁.IsTable d (pdx n) t →
      present (s₁.pteAt d n) = false →
      Frames im R D oth N l₁ (s₁.setWord t (ptx n) (entry f (perm ||| PTE_P))))
    (hfalse : present (s.mem d (pdx n)) = false → l = [] → Q false s)
    (hnext : ∀ l' s', Frames im R D oth N l' s' → MapsPage D P oth d n (entry f (perm ||| PTE_P)) s s' →
      l.length + (if present (s.mem d (pdx n)) then 1 else 0) ≤ l'.length + 1 →
      wp E (mapFrom d perm k (n + 1) (f + 1)) Q s') :
    wp E (mapFrom d perm (k + 1) n f) Q s := by
  unfold mapFrom
  rw [wp_bind]
  refine wp_walk_alloc h hd hfalse fun t l₁ s₁ h₁ ht hw hlen => ?_
  have habs₁ : present (s₁.pteAt d n) = false := by rw [hw.pte d hd, habs]
  have hword : present (s₁.mem t (ptx n)) = false := by rw [← Phys.pteAt_of_table ht, habs₁]
  simp only []
  rw [wp_bind, wp_word, if_neg (by simp [hword]), wp_bind, wp_setWord]
  have hv := h₁.setPte_view hd hn ht (entry f (perm ||| PTE_P))
  refine hnext l₁ _ (hown l₁ s₁ t h₁ ht habs₁) ⟨hv.self, ?_, ?_, ?_, fun hp => ?_, ?_, ?_, ?_⟩ hlen
  · rw [hv.pde d hd _ (pdx_lt n), ht.2.1]
  · intro d' hd' m hm hne
    rw [hv.pte d' hd' m hm hne, hw.pte d' hd']
  · intro d' hd' j hj hne
    rw [hv.pde d' hd' j hj, hw.pde d' hd' j hj hne]
  · rw [hv.pde d hd _ (pdx_lt n), hw.kept hp]
  · intro x g hx
    rw [hv.mem x g hx, hw.mem x g hx]
  · intro g hg
    have hg₁ : s₁.IsPage D g := by
      obtain ⟨d', hd', m, hm, hp⟩ := hg
      exact ⟨d', hd', m, hm, by rwa [hw.pte d' hd']⟩
    have hgt : g ≠ t := fun he => (h₁.isPage_apart hg₁).2.1 d hd _ (he ▸ ht)
    rw [Phys.setWord_ne _ _ _ hgt, hw.page g hg]
  · intro g hg
    have hgt : g ≠ t := fun he => h₁.table_not_pending hd ht (he ▸ hg)
    rw [Phys.setWord_ne _ _ _ hgt, hw.pending g hg]

theorem mappages_eq (d pa : Nat) (perm : Word) {k : Nat} (hhi : n + (k + 1) ≤ NPAGES) :
    mappages d (n * PGSIZE) ((k + 1) * PGSIZE) pa perm = mapFrom d perm (k + 1) n (pa / PGSIZE) := by
  have hcount : uint (n * PGSIZE + (k + 1) * PGSIZE - 1) / PGSIZE - n = k := by
    simp only [PGSIZE, NPAGES, uint] at *
    omega
  show mapFrom d perm (_ / PGSIZE - n * PGSIZE / PGSIZE + 1) (n * PGSIZE / PGSIZE) _ = _
  rw [Nat.mul_div_cancel _ (by decide), hcount]

theorem wp_mappages_user {Q : Bool → Phys → Prop} {perm : Word} {m : Nat}
    (h : Frames im R D oth P l s) (hd : d ∈ D) (hn : n < USERPAGES)
    (habs : present (s.pteAt d n) = false) (hm : m ∈ P) (hperm : perm.toNat < PGSIZE)
    (hfalse : present (s.mem d (pdx n)) = false → l = [] → Q false s)
    (htrue : ∀ l' s', Frames im R D oth (P \ {m}) l' s' →
      MapsPage D P oth d n (entry m (perm ||| PTE_P)) s s' →
      l.length + (if present (s.mem d (pdx n)) then 1 else 0) ≤ l'.length + 1 → Q true s') :
    wp E (mappages d (n * PGSIZE) PGSIZE (m * PGSIZE) perm) Q s := by
  have hnP : n < NPAGES := by
    simp only [USERPAGES, KERNBASE, PGSIZE, NPAGES] at *
    omega
  have hmap : mappages d (n * PGSIZE) PGSIZE (m * PGSIZE) perm = mapFrom d perm 1 n m := by
    have hone := mappages_eq d (m * PGSIZE) perm (show n + (0 + 1) ≤ NPAGES by omega)
    rwa [Nat.zero_add, Nat.one_mul, Nat.mul_div_cancel _ (by decide)] at hone
  rw [hmap]
  refine wp_mapFrom_succ (N := P \ {m}) h hd hnP habs (fun l₁ s₁ t h₁ ht habs₁ => ?_) hfalse
    fun l' s' h' hmaps hlen => ?_
  · refine h₁.setPte_attach hd hnP ht hn habs₁ hm ?_ ?_
    · rw [present_entry, present_or_PTE_P]
    · exact frame_entry (h.lt_of_mem (h.pending_mem hm).1) (toNat_or_PTE_P_lt hperm)
  · unfold mapFrom
    exact htrue l' s' h' hmaps hlen

/-! ## Unmapping user pages -/

theorem le_pageUp_iff {a b : Nat} : pageUp a ≤ b ↔ a ≤ b * PGSIZE := by
  simp only [pageUp, PGSIZE]
  omega

theorem lt_pageUp_iff {a b : Nat} : b < pageUp a ↔ b * PGSIZE < a := by
  simp only [pageUp, PGSIZE]
  omega

structure Unmaps (D : Set Nat) (oth : ι → Option Nat) (d lo hi : Nat) (s s' : Phys) : Prop where
  same : Same (D \ {d}) oth s s'
  pde : ∀ i < NPDENTRIES, s'.mem d i = s.mem d i
  inside : ∀ m, lo ≤ m → m * PGSIZE < hi → present (s'.pteAt d m) = false
  outside : ∀ m < NPAGES, m < lo ∨ hi ≤ m * PGSIZE → s'.pteAt d m = s.pteAt d m

theorem Phys.freed_setWord (s : Phys) {f t : Nat} (j : Nat) (w : Word) (h : t ≠ f) :
    (s.freed f).setWord t j w = (s.setWord t j w).freed f := by
  have hmem : ((s.freed f).setWord t j w).mem = ((s.setWord t j w).freed f).mem := by
    funext g
    by_cases hgt : g = t
    · subst hgt
      rw [Phys.freed_mem _ h]
      simp only [Phys.setWord, Phys.setPage, Function.update_self]
      rw [Phys.freed_mem _ h]
    · rw [Phys.setWord_ne _ _ _ hgt]
      by_cases hgf : g = f
      · subst hgf
        simp [Phys.freed, Phys.setWord, Phys.setPage]
      · rw [Phys.freed_mem _ hgf, Phys.freed_mem _ hgf, Phys.setWord_ne _ _ _ hgt]
  exact congrArg (Phys.mk · (pointer (some f))) hmem

/-- `deallocuvm` frees a page before it clears the PTE: the other order gives the same state. -/
theorem wp_unmapPage {Q : Unit → Phys → Prop} {t : Nat} (h : Frames im R D oth P l s) (hd : d ∈ D)
    (hn : n < USERPAGES) (ht : s.IsTable d (pdx n) t) (hp : present (s.pteAt d n) = true)
    (hQ : ∀ s', Frames im R D oth P (frame (s.pteAt d n) :: l) s' → SetPte D oth d n 0 s s' →
      Q () s') :
    wp E (do kfree im (frame (s.pteAt d n)); setWord t (ptx n) 0) Q s := by
  have hnP : n < NPAGES := by
    simp only [USERPAGES, KERNBASE, PGSIZE, NPAGES] at *
    omega
  have hfR := h.page_mem hd hn hp
  have hr := h.range _ hfR.1
  rw [wp_bind]
  refine wp_atomic.2 ?_
  rw [if_neg (by omega)]
  show wp E (setWord t (ptx n) 0) Q (s.freed (frame (s.pteAt d n)))
  have htf : t ≠ frame (s.pteAt d n) := fun he =>
    h.page_not_kept hd hn hp (Or.inl (Or.inr (Or.inr ⟨d, hd, pdx n, he ▸ ht⟩)))
  rw [wp_setWord, Phys.freed_setWord _ _ _ htf]
  have h₁ := h.setPte_detach hd hnP ht hn hp
  have hin : frame (s.pteAt d n) ∈ P ∪ {frame (s.pteAt d n)} := Or.inr rfl
  have hview := h.setPte_view hd hnP ht 0
  have hsame := Frames.same_freed (h₁.pending_not_kept hin)
  have h₂ := h₁.kfree hin
  rw [Set.union_singleton, insert_sdiff_self (h.page_not_pending hd hn hp)] at h₂
  refine hQ _ h₂ ⟨?_, fun d' hd' m hm hne => ?_, fun d' hd' i hi => ?_, fun x g hx => ?_⟩
  · rw [hsame.pte d hd, hview.self]
  · rw [hsame.pte d' hd', hview.pte d' hd' m hm hne]
  · rw [hsame.pde d' hd' i hi, hview.pde d' hd' i hi]
  · rw [hsame.mem x g hx, hview.mem x g hx]

theorem Unmaps.refl (h : ∀ m, n ≤ m → m * PGSIZE < i → present (s.pteAt d m) = false) :
    Unmaps D oth d n i s s :=
  ⟨Same.refl _ _ _, fun _ _ => rfl, h, fun _ _ _ => rfl⟩

/-- The pages up to `k` are absent, and those from there on get unmapped. -/
theorem Unmaps.extend {k hi : Nat} (h : Unmaps D oth d k hi s s') (hnk : n ≤ k) (hhi : hi ≤ KERNBASE)
    (habs : ∀ m, n ≤ m → m < k → present (s.pteAt d m) = false) : Unmaps D oth d n hi s s' := by
  refine ⟨h.same, h.pde, fun m hm hlt => ?_, fun m hm hout => ?_⟩
  · by_cases hmk : m < k
    · have hmP : m < NPAGES := by
        simp only [KERNBASE, PGSIZE, NPAGES] at *
        omega
      rw [h.outside m hmP (Or.inl hmk), habs m hm hmk]
    · exact h.inside m (by omega) hlt
  · refine h.outside m hm ?_
    rcases hout with hout | hout
    · exact Or.inl (by omega)
    · exact Or.inr hout

theorem SetPte.same {w : Word} (h : SetPte D oth d n w s s') : Same (D \ {d}) oth s s' :=
  ⟨fun d' hd' i hi => h.pde d' hd'.1 i hi, fun d' hd' m => by
    rw [s'.pteAt_mod, s.pteAt_mod, h.pte d' hd'.1 _ (Nat.mod_lt _ (by decide)) (Or.inl hd'.2)], h.mem⟩

theorem SetPte.unmaps {hi : Nat} {s'' : Phys} (hset : SetPte D oth d n 0 s s') (hd : d ∈ D)
    (h : Unmaps D oth d (n + 1) hi s' s'') (hn : n < NPAGES) (hlt : n * PGSIZE < hi) :
    Unmaps D oth d n hi s s'' := by
  refine ⟨hset.same.trans h.same, fun i hi => ?_, fun m hm hmhi => ?_, fun m hm hout => ?_⟩
  · rw [h.pde i hi, hset.pde d hd i hi]
  · by_cases hmn : m = n
    · subst hmn
      rw [h.outside m hn (Or.inl (by omega)), hset.self, present_zero]
    · exact h.inside m (by omega) hmhi
  · have hmn : m ≠ n := by
      rintro rfl
      omega
    rw [h.outside m hm (by omega), hset.pte d hd m hm (Or.inr hmn)]

theorem wp_deallocFrom {hi : Nat} (hhi : hi ≤ KERNBASE) (hd : d ∈ D) (fuel : Nat)
    (h : Frames im R D oth P l s) (hfuel : hi ≤ (n + fuel) * PGSIZE) :
    wp E (deallocFrom im d hi fuel n)
      (fun _ s' => ∃ l', Frames im R D oth P l' s' ∧ Unmaps D oth d n hi s s' ∧
        l.length ≤ l'.length) s := by
  induction fuel generalizing n l s with
  | zero =>
    refine ⟨l, h, Unmaps.refl fun m hm hlt => ?_, le_rfl⟩
    simp only [PGSIZE] at *
    omega
  | succ fuel ih =>
    unfold deallocFrom
    refine wp_ite (fun hlt => ?_) fun hge => ?_
    · have hn : n < USERPAGES := by
        simp only [USERPAGES, KERNBASE, PGSIZE] at *
        omega
      rw [wp_bind]
      refine wp_walk (fun t ht => ?_) fun habs => ?_
      · simp only []
        rw [wp_bind, wp_word, ← Phys.pteAt_of_table ht]
        have hfuel' : hi ≤ (n + 1 + fuel) * PGSIZE := by
          rwa [show n + 1 + fuel = n + (fuel + 1) by omega]
        refine wp_ite (fun hp => ?_) fun hp => ?_
        · have hne : frame (s.pteAt d n) ≠ 0 := by
            have hr := (h.range _ (h.page_mem hd hn hp).1).1
            have := im.data_le
            have := Nat.zero_lt_of_lt im.text_data
            omega
          rw [if_neg hne]
          have hun := wp_unmapPage (E := E) h hd hn ht hp
            (Q := fun _ s₁ => wp E (deallocFrom im d hi fuel (n + 1)) (fun _ s' =>
              ∃ l', Frames im R D oth P l' s' ∧ Unmaps D oth d n hi s s' ∧ l.length ≤ l'.length) s₁)
            fun s₁ h₁ hset => wp_mono (ih h₁ hfuel') fun _ s' ⟨l', h', hu, hl⟩ =>
              ⟨l', h', hset.unmaps hd hu (hn.trans (by decide)) hlt, (Nat.le_succ _).trans hl⟩
          rw [wp_bind] at hun ⊢
          exact wp_mono hun fun _ s₁ h₁ => by rwa [wp_bind]
        · refine wp_mono (ih h hfuel') fun _ s' ⟨l', h', hu, hl⟩ =>
            ⟨l', h', hu.extend (by omega) hhi ?_, hl⟩
          intro m hm hm'
          obtain rfl : m = n := by omega
          simpa using hp
      · -- no table: the loop goes on with the first page of the next one
        have hfuel' : hi ≤ ((n / 1024 + 1) * 1024 + fuel) * PGSIZE :=
          hfuel.trans (Nat.mul_le_mul_right _ (by omega))
        refine wp_mono (ih h hfuel') fun _ s' ⟨l', h', hu, hl⟩ =>
          ⟨l', h', hu.extend (by omega) hhi ?_, hl⟩
        intro m hm hm'
        have hpdx : pdx m = pdx n := by
          simp only [pdx]
          omega
        rw [Phys.pteAt_of_absent (by rw [hpdx, habs]), present_zero]
    · refine ⟨l, h, Unmaps.refl fun m hm hlt => ?_, le_rfl⟩
      simp only [PGSIZE] at *
      omega

theorem wp_deallocuvm {Q : Nat → Phys → Prop} {oldsz newsz : Nat} (h : Frames im R D oth P l s)
    (hd : d ∈ D) (hold : oldsz ≤ KERNBASE) (hge : oldsz ≤ newsz → Q oldsz s)
    (hlt : newsz < oldsz → ∀ l' s', Frames im R D oth P l' s' →
      Unmaps D oth d (pageUp newsz) oldsz s s' → l.length ≤ l'.length → Q newsz s') :
    wp E (deallocuvm im d oldsz newsz) Q s := by
  unfold deallocuvm
  refine wp_ite hge fun hlt' => ?_
  rw [wp_bind]
  refine wp_mono (wp_deallocFrom hold hd _ h ?_) fun _ s' ⟨l', h', hu, hl⟩ =>
    hlt (by omega) l' s' h' hu hl
  simp only [pageUp, PGSIZE]
  omega

/-! ## Giving up a directory -/

def tablesFrom (s : Phys) (d i : Nat) : Set Nat := {f | f = d ∨ ∃ j, i ≤ j ∧ s.IsTable d j f}

theorem wp_freeTables {s₀ : Phys} {l₀ : List Nat} (h₀ : Frames im R D oth P l₀ s₀) (hd : d ∈ D)
    (k : Nat) (hk : i + k = NPDENTRIES)
    (h : Frames im R (D \ {d}) oth (P ∪ tablesFrom s₀ d i) l s) (hmem : s.mem d = s₀.mem d) :
    wp E (freeTables im d k i)
      (fun _ s' => ∃ l', Frames im R (D \ {d}) oth (insert d P) l' s' ∧ Same (D \ {d}) oth s s') s := by
  induction k generalizing i l s with
  | zero =>
    have hT : P ∪ tablesFrom s₀ d i = insert d P := by
      ext f
      simp only [tablesFrom, Set.mem_union, Set.mem_ofPred_eq, Set.mem_insert_iff]
      constructor
      · rintro (hf | hf | ⟨j, hj, ht⟩)
        · exact Or.inr hf
        · exact Or.inl hf
        · exact absurd ht.1 (by omega)
      · rintro (hf | hf)
        · exact Or.inr (Or.inl hf)
        · exact Or.inl hf
    rw [hT] at h
    exact ⟨l, h, Same.refl _ _ _⟩
  | succ k ih =>
    unfold freeTables
    rw [wp_bind, wp_word, hmem]
    refine wp_ite (fun hp => ?_) fun hp => ?_
    · have ht : s₀.IsTable d i (frame (s₀.mem d i)) := ⟨by omega, hp, rfl⟩
      have hin : frame (s₀.mem d i) ∈ P ∪ tablesFrom s₀ d i := Or.inr (Or.inr ⟨i, le_rfl, ht⟩)
      have hnd : d ≠ frame (s₀.mem d i) := fun he => h₀.table_not_dir hd ht (he ▸ hd)
      -- no other entry has this table, so the rest of the tables are those from the next entry on
      have hrest : (P ∪ tablesFrom s₀ d i) \ {frame (s₀.mem d i)} = P ∪ tablesFrom s₀ d (i + 1) := by
        ext f
        simp only [tablesFrom, Set.mem_sdiff, Set.mem_union, Set.mem_ofPred_eq,
          Set.mem_singleton_iff]
        constructor
        · rintro ⟨hf | hf | ⟨j, hj, htj⟩, hne⟩
          · exact Or.inl hf
          · exact Or.inr (Or.inl hf)
          · have hji : j ≠ i := by
              rintro rfl
              exact hne htj.2.2.symm
            exact Or.inr (Or.inr ⟨j, by omega, htj⟩)
        · rintro (hf | hf | ⟨j, hj, htj⟩)
          · exact ⟨Or.inl hf, fun he => h₀.table_not_pending hd ht (he ▸ hf)⟩
          · exact ⟨Or.inr (Or.inl hf), fun he => hnd (hf.symm.trans he)⟩
          · refine ⟨Or.inr (Or.inr ⟨j, by omega, htj⟩), fun he => ?_⟩
            have := (h₀.table_inj hd ht hd (he ▸ htj)).2
            omega
      rw [wp_bind]
      refine wp_kfree h hin fun h' => ?_
      rw [hrest] at h'
      have hsame := Frames.same_freed (h.pending_not_kept hin)
      refine wp_mono (ih (by omega) h' ?_) fun _ s' ⟨l', h'', hs⟩ => ⟨l', h'', hsame.trans hs⟩
      rw [Phys.freed_mem _ hnd, hmem]
    · have hrest : tablesFrom s₀ d i = tablesFrom s₀ d (i + 1) := by
        ext f
        refine or_congr Iff.rfl ⟨?_, ?_⟩
        · rintro ⟨j, hj, htj⟩
          have hji : j ≠ i := by
            rintro rfl
            exact hp htj.2.1
          exact ⟨j, by omega, htj⟩
        · rintro ⟨j, hj, htj⟩
          exact ⟨j, by omega, htj⟩
      rw [hrest] at h
      exact ih (by omega) h hmem

theorem wp_freevm {Q : Unit → Phys → Prop} (h : Frames im R D oth P l s) (hd : d ∈ D)
    (hQ : ∀ l' s', Frames im R (D \ {d}) oth P l' s' → Same (D \ {d}) oth s s' → Q () s') :
    wp E (freevm im d) Q s := by
  unfold freevm
  rw [wp_bind]
  refine wp_deallocuvm h hd le_rfl (fun hle => absurd hle (by decide)) fun _ l₁ s₁ h₁ hu _ => ?_
  have hnouser : ∀ n < USERPAGES, present (s₁.pteAt d n) = false := fun n hn =>
    hu.inside n (Nat.zero_le n) (by
      simp only [USERPAGES, KERNBASE, PGSIZE] at *
      omega)
  have h₂ := h₁.dropDir hd hnouser
  have hT : {f | f = d ∨ ∃ i, s₁.IsTable d i f} = tablesFrom s₁ d 0 := by
    ext f
    simp [tablesFrom]
  rw [hT] at h₂
  rw [wp_bind]
  refine wp_mono (wp_freeTables h₁ hd _ rfl h₂ rfl) fun _ s₃ ⟨l₃, h₃, hs₃⟩ => ?_
  have hin : d ∈ insert d P := Set.mem_insert d P
  refine wp_kfree h₃ hin fun h₄ => ?_
  rw [insert_sdiff_self (h₁.dir_not_pending hd)] at h₄
  exact hQ _ _ h₄ ((hu.same.trans hs₃).trans (Frames.same_freed (h₃.pending_not_kept hin)))

/-! ## The kernel part of a directory -/

/-- No page of the directory is open to user code. -/
def NoUser (s : Phys) (d : Nat) : Prop := ∀ m < NPAGES, user (s.pteAt d m) = false

structure MapsIn (D : Set Nat) (oth : ι → Option Nat) (d lo hi : Nat) (s s' : Phys) : Prop where
  same : Same (D \ {d}) oth s s'
  off : ∀ m < NPAGES, m < lo ∨ hi ≤ m → s'.pteAt d m = s.pteAt d m
  pde : ∀ i < NPDENTRIES, i < lo / 1024 ∨ hi ≤ i * 1024 → s'.mem d i = s.mem d i

theorem MapsIn.refl {lo hi : Nat} : MapsIn D oth d lo hi s s :=
  ⟨Same.refl _ _ _, fun _ _ _ => rfl, fun _ _ _ => rfl⟩

theorem MapsPage.same {w : Word} (h : MapsPage D P oth d n w s s') : Same (D \ {d}) oth s s' :=
  ⟨fun d' hd' i hi => h.pde d' hd'.1 i hi (Or.inl hd'.2), fun d' hd' m => by
    rw [s'.pteAt_mod, s.pteAt_mod, h.pte d' hd'.1 _ (Nat.mod_lt _ (by decide)) (Or.inl hd'.2)], h.mem⟩

theorem MapsPage.mapsIn {w : Word} {hi : Nat} {s'' : Phys} (h : MapsPage D P oth d n w s s') (hd : d ∈ D)
    (hn : n < NPAGES) (hhi : n < hi) (h' : MapsIn D oth d (n + 1) hi s' s'') :
    MapsIn D oth d n hi s s'' := by
  refine ⟨h.same.trans h'.same, fun m hm hout => ?_, fun i hi' hout => ?_⟩
  · rw [h'.off m hm (by omega), h.pte d hd m hm (Or.inr (by omega))]
  · have hne : i ≠ pdx n := by
      simp only [pdx, NPAGES] at *
      omega
    rw [h'.pde i hi' (by omega), h.pde d hd i hi' (Or.inr hne)]

def tables (n k : Nat) : Nat := (n + k - 1) / 1024 - n / 1024 + 1

def hasTable (s : Phys) (d n : Nat) : Nat := if present (s.mem d (pdx n)) then 1 else 0

theorem tables_step {a b c n k : Nat} (hk : 0 < k) (hb : b ≤ 1)
    (hsame : (n + 1) / 1024 = n / 1024 → b = 1) (ha : a ≤ c + 1) :
    (c + b < tables (n + 1) k → a < tables n (k + 1)) ∧
      ∀ x, c + b ≤ x + tables (n + 1) k → a ≤ x + tables n (k + 1) := by
  have hspan : n + 1 + k - 1 = n + (k + 1) - 1 := by omega
  simp only [tables, hspan]
  have : (n + 1) / 1024 ≤ (n + (k + 1) - 1) / 1024 := Nat.div_le_div_right (by omega)
  by_cases hs : (n + 1) / 1024 = n / 1024
  · have := hsame hs
    constructor
    · omega
    · intro x
      omega
  · have : (n + 1) / 1024 = n / 1024 + 1 := by omega
    constructor
    · omega
    · intro x
      omega

theorem MapsPage.noUser {perm : Word} (hm : MapsPage D P oth d n (entry f (perm ||| PTE_P)) s s') (hd : d ∈ D)
    (hperm : user perm = false) (h : NoUser s d) : NoUser s' d := by
  intro m hm'
  by_cases hmn : m = n
  · rw [hmn, hm.self, user_entry, user_or_PTE_P, hperm]
  · rw [hm.pte d hd m hm' (Or.inr hmn), h m hm']

theorem wp_mapFrom_kernel {perm : Word} (hperm : user perm = false) (hd : d ∈ D) (k : Nat)
    (h : Frames im R D oth P l s) (hlo : USERPAGES ≤ n) (hhi : n + (k + 1) ≤ NPAGES)
    (hnu : NoUser s d)
    (habs : ∀ m, n ≤ m → m < n + (k + 1) → present (s.pteAt d m) = false) :
    wp E (mapFrom d perm (k + 1) n f)
      (fun r s' => ∃ l', Frames im R D oth P l' s' ∧ MapsIn D oth d n (n + (k + 1)) s s' ∧
        NoUser s' d ∧ (r = false → l.length + hasTable s d n < tables n (k + 1)) ∧
        (r = true → l.length + hasTable s d n ≤ l'.length + tables n (k + 1) ∧
          ∀ m, n ≤ m → m < n + (k + 1) → present (s'.pteAt d m) = true)) s := by
  induction k generalizing n f l s with
  | zero =>
    refine wp_mapFrom_succ (N := P) h hd (by omega) (habs n le_rfl (by omega))
      (fun l₁ s₁ t h₁ ht _ => h₁.setPte_kernel hd (by omega) ht hlo) ?_ ?_
    · intro hp hl
      refine ⟨l, h, .refl, hnu, fun _ => ?_, nofun⟩
      simp [hasTable, hp, hl, tables]
    · intro l' s' h' hm hlen
      unfold mapFrom
      refine ⟨l', h', hm.mapsIn hd (by omega) (by omega) .refl, hm.noUser hd hperm hnu, nofun,
        fun _ => ⟨?_, ?_⟩⟩
      · simp only [hasTable, tables]
        omega
      · intro m hm1 hm2
        obtain rfl : m = n := by omega
        rw [hm.self, present_entry, present_or_PTE_P]
  | succ k ih =>
    refine wp_mapFrom_succ (N := P) h hd (by omega) (habs n le_rfl (by omega))
      (fun l₁ s₁ t h₁ ht _ => h₁.setPte_kernel hd (by omega) ht hlo) ?_ ?_
    · intro hp hl
      refine ⟨l, h, .refl, hnu, fun _ => ?_, nofun⟩
      simp [hasTable, hp, hl, tables]
    · intro l₁ s₁ h₁ hm hlen
      have hnu₁ := hm.noUser hd hperm hnu
      have hb : hasTable s₁ d (n + 1) ≤ 1 := by
        unfold hasTable
        split <;> omega
      -- the next page lies in the table that this page has now, or in the next one
      have hnext : (n + 1) / 1024 = n / 1024 → hasTable s₁ d (n + 1) = 1 := fun he => by
        have : pdx (n + 1) = pdx n := by simp only [pdx, he]
        rw [hasTable, this, hm.table, if_pos rfl]
      have hcount := tables_step (k := k + 1) (by omega) hb hnext
        (show l.length + hasTable s d n ≤ l₁.length + 1 from hlen)
      refine wp_mono (ih h₁ (by omega) (by omega) hnu₁ fun m hm1 hm2 => ?_) ?_
      · rw [hm.pte d hd m (by omega) (Or.inr (by omega))]
        exact habs m (by omega) (by omega)
      · rintro r s' ⟨l', h', hin, hnu', hfalse, htrue⟩
        have hend : n + 1 + (k + 1) = n + (k + 1 + 1) := by omega
        rw [hend] at hin htrue
        refine ⟨l', h', hm.mapsIn hd (by omega) (by omega) hin, hnu', fun hr => hcount.1 (hfalse hr),
          fun hr => ⟨hcount.2 _ (htrue hr).1, fun m hm1 hm2 => ?_⟩⟩
        by_cases hmn : m = n
        · rw [hmn, hin.off n (by omega) (Or.inl (by omega)), hm.self, present_entry, present_or_PTE_P]
        · exact (htrue hr).2 m (by omega) hm2

/-- `setupkvm` has done the pages below `lo`, from `KERNBASE` on. -/
structure KernelUpto (s : Phys) (d lo : Nat) : Prop where
  absent : ∀ m < NPAGES, m < USERPAGES ∨ lo ≤ m → present (s.pteAt d m) = false
  noUser : NoUser s d
  noTable : ∀ i < NPDENTRIES, i * 1024 < USERPAGES ∨ lo ≤ i * 1024 → present (s.mem d i) = false

theorem wp_mapKernel_cons {Q : Bool → Phys → Prop} {e : Kmap} {ks : List Kmap} {k lo : Nat}
    (hvirt : e.virt = n * PGSIZE)
    (hsize : uint (e.physEnd + 2 ^ 32 - e.physStart) = (k + 1) * PGSIZE)
    (hperm : user e.perm = false) (hd : d ∈ D) (h : Frames im R D oth P l s)
    (hn : USERPAGES ≤ n) (hhi : n + (k + 1) ≤ NPAGES) (hlo : lo ≤ n) (hK : KernelUpto s d lo)
    (hfalse : l.length < tables n (k + 1) → ∀ l' s', Frames im R D oth P l' s' →
      Same (D \ {d}) oth s s' → Q false s')
    (htrue : ∀ l' s', Frames im R D oth P l' s' → MapsIn D oth d n (n + (k + 1)) s s' →
      KernelUpto s' d (n + (k + 1)) → l.length ≤ l'.length + tables n (k + 1) →
      (∀ m, n ≤ m → m < n + (k + 1) → present (s'.pteAt d m) = true) →
      wp E (mapKernel d ks) Q s') :
    wp E (mapKernel d (e :: ks)) Q s := by
  unfold mapKernel
  rw [wp_bind, hsize, hvirt, mappages_eq d _ _ hhi]
  refine wp_mono (wp_mapFrom_kernel hperm hd k h hn hhi hK.noUser fun m hm1 hm2 =>
    hK.absent m (by omega) (Or.inr (by omega))) ?_
  rintro r s' ⟨l', h', hin, hnu, hf, ht⟩
  cases r with
  | false =>
    have := hf rfl
    exact hfalse (by omega) l' s' h' hin.same
  | true =>
    obtain ⟨hlen, hpres⟩ := ht rfl
    refine htrue l' s' h' hin ⟨fun m hm hout => ?_, hnu, fun i hi hout => ?_⟩ (by omega) hpres
    · rw [hin.off m hm (by omega)]
      exact hK.absent m hm (by omega)
    · have hi' : i < n / 1024 ∨ n + (k + 1) ≤ i * 1024 := by
        simp only [USERPAGES, KERNBASE, PGSIZE] at hn hout
        omega
      rw [hin.pde i hi hi']
      exact hK.noTable i hi (hout.imp_right fun h' => by omega)

/-- What `setupkvm` puts into every directory above `KERNBASE`. -/
structure KernelPart (s : Phys) (d : Nat) : Prop where
  mapped : ∀ m, USERPAGES ≤ m → m < NPAGES → m < (KERNBASE + PHYSTOP) / PGSIZE ∨ DEVSPACE / PGSIZE ≤ m →
    present (s.pteAt d m) = true
  noUser : ∀ m, USERPAGES ≤ m → m < NPAGES → user (s.pteAt d m) = false
  hole : ∀ i, (KERNBASE + PHYSTOP) / PGSIZE ≤ i * 1024 → i * 1024 < DEVSPACE / PGSIZE →
    present (s.mem d i) = false

/-- Pages that `setupkvm` needs at most. -/
abbrev KVMPAGES : Nat := 67

theorem wp_mapKernel (hd : d ∈ D) (h : Frames im R D oth P l s)
    (hz : ∀ i < NPDENTRIES, s.mem d i = 0) :
    wp E (mapKernel d (kmap im)) (fun r s' => ∃ l', Frames im R D oth P l' s' ∧
      Same (D \ {d}) oth s s' ∧ (r = false → l.length < KVMPAGES - 1) ∧
      (r = true → KernelPart s' d ∧ (∀ n < USERPAGES, present (s'.pteAt d n) = false) ∧
        l.length + 1 ≤ l'.length + KVMPAGES)) s := by
  have hdata := im.text_data
  have hend := im.data_le
  have hstop := im.kend_lt
  have hK : KernelUpto s d (KERNBASE / PGSIZE) := by
    have hpte : ∀ m, s.pteAt d m = 0 := fun m =>
      Phys.pteAt_of_absent (by rw [hz _ (pdx_lt m), present_zero])
    exact ⟨fun m _ _ => by rw [hpte, present_zero], fun m _ => by rw [hpte]; rfl,
      fun i hi _ => by rw [hz i hi, present_zero]⟩
  simp only [EXTMEM, PGSIZE, PHYSTOP] at hdata hstop
  unfold kmap
  refine wp_mapKernel_cons (n := 0x80000) (k := 255) rfl rfl rfl hd h (by decide) (by decide)
    le_rfl hK ?_ ?_
  · intro hl l' s' h' hs
    exact ⟨l', h', hs, fun _ => hl.trans (by decide), nofun⟩
  intro l₁ s₁ h₁ hin₁ hK₁ hlen₁ hpres₁
  refine wp_mapKernel_cons (n := 0x80100) (k := im.data - 257) (P := P) rfl
    (by simp only [EXTMEM, PGSIZE, uint]; omega) (show user 0 = false by decide) hd h₁ (by decide)
    (by simp only [NPAGES]; omega) (by decide) hK₁ ?_ ?_
  · intro hl l' s' h' hs
    refine ⟨l', h', hin₁.same.trans hs, fun _ => ?_, nofun⟩
    simp only [tables] at hl hlen₁
    simp only [KVMPAGES]
    omega
  intro l₂ s₂ h₂ hin₂ hK₂ hlen₂ hpres₂
  refine wp_mapKernel_cons (n := 0x80000 + im.data) (k := 57343 - im.data)
    (by simp only [KERNBASE, PGSIZE]; omega)
    (by simp only [PHYSTOP, PGSIZE, uint]; omega) (show user PTE_W = false by decide) hd h₂
    (by simp only [USERPAGES, KERNBASE, PGSIZE]; omega)
    (by simp only [NPAGES]; omega) (by omega) hK₂ ?_ ?_
  · intro hl l' s' h' hs
    refine ⟨l', h', (hin₁.same.trans hin₂.same).trans hs, fun _ => ?_, nofun⟩
    simp only [tables] at hl hlen₁ hlen₂
    simp only [KVMPAGES]
    omega
  intro l₃ s₃ h₃ hin₃ hK₃ hlen₃ hpres₃
  have hsame₃ := (hin₁.same.trans hin₂.same).trans hin₃.same
  refine wp_mapKernel_cons (n := 0xFE000) (k := 8191) rfl rfl rfl hd h₃
    (by decide) (by decide) (by omega) hK₃ ?_ ?_
  · intro hl l' s' h' hs
    refine ⟨l', h', hsame₃.trans hs, fun _ => ?_, nofun⟩
    simp only [tables] at hl hlen₁ hlen₂ hlen₃
    simp only [KVMPAGES]
    omega
  intro l₄ s₄ h₄ hin₄ hK₄ hlen₄ hpres
  refine ⟨l₄, h₄, hsame₃.trans hin₄.same, nofun, fun _ => ⟨⟨?_, ?_, ?_⟩, ?_, ?_⟩⟩
  · intro m hm1 hm2 hm
    simp only [USERPAGES, KERNBASE, PHYSTOP, DEVSPACE, PGSIZE] at hm1 hm
    by_cases hdev : 0xFE000 ≤ m
    · exact hpres m hdev hm2
    rw [hin₄.off m hm2 (Or.inl (by omega))]
    by_cases hwr : 0x80000 + im.data ≤ m
    · exact hpres₃ m hwr (by omega)
    rw [hin₃.off m hm2 (Or.inl (by omega))]
    by_cases htext : 0x80100 ≤ m
    · exact hpres₂ m htext (by omega)
    rw [hin₂.off m hm2 (Or.inl (by omega))]
    exact hpres₁ m (by omega) (by omega)
  · intro m _ hm
    exact hK₄.noUser m hm
  · intro i hi1 hi2
    simp only [KERNBASE, PHYSTOP, DEVSPACE, PGSIZE] at hi1 hi2
    have hi : i < NPDENTRIES := by
      simp only [NPDENTRIES]
      omega
    rw [hin₄.pde i hi (Or.inl (by omega))]
    exact hK₃.noTable i hi (Or.inr (by omega))
  · intro n hn
    exact hK₄.absent n (hn.trans (by decide)) (Or.inl hn)
  · simp only [tables] at hlen₁ hlen₂ hlen₃ hlen₄
    simp only [KVMPAGES]
    omega

/-- The beginning of `setupkvm`: a new directory without entries. -/
theorem wp_newDir {Q : Option Nat → Phys → Prop} {rest : Nat → V (Option Nat)}
    (h : Frames im R D oth P l s) (hnone : l = [] → Q none s)
    (hsome : ∀ d l' s', l = d :: l' → d ∉ D → Frames im R (insert d D) oth P l' s' → Same D oth s s' →
      (∀ i < NPDENTRIES, s'.mem d i = 0) → wp E (rest d) Q s') :
    wp E (do
      match ← kalloc with
      | none => return none
      | some pgdir =>
        clear pgdir
        rest pgdir) Q s := by
  rw [wp_bind]
  refine wp_kalloc h hnone fun d l₁ s₁ hl hdP hmem h₁ => ?_
  simp only []
  rw [wp_bind, wp_clear]
  have hin : d ∈ insert d P := Set.mem_insert d P
  have hdD : d ∉ D := fun hD => h₁.dir_not_pending hD hin
  obtain ⟨h₂, hs₂⟩ := h₁.quiet_setPage (h₁.pending_not_kept hin) fun _ => 0
  have hz : ∀ i < NPDENTRIES, (s₁.setPage d fun _ => 0).mem d i = 0 := fun i _ => by
    simp [Phys.setPage]
  have h₃ := h₂.addDir hin fun i hi => by rw [hz i hi, present_zero]
  rw [insert_sdiff_self hdP] at h₃
  exact hsome d l₁ _ hl hdD h₃ ((Same.of_mem hmem).trans hs₂) hz

theorem wp_setupkvm {Q : Option Nat → Phys → Prop} (h : Frames im R D oth P l s)
    (hnone : l.length < KVMPAGES → ∀ l' s', Frames im R D oth P l' s' → Same D oth s s' → Q none s')
    (hsome : ∀ d l' s', d ∉ D → Frames im R (insert d D) oth P l' s' → Same D oth s s' →
      KernelPart s' d → (∀ n < USERPAGES, present (s'.pteAt d n) = false) →
      l.length ≤ l'.length + KVMPAGES → l.head? = some d → Q (some d) s') :
    wp E (setupkvm im) Q s := by
  unfold setupkvm
  refine wp_newDir h (fun hl => hnone (by simp [hl]) l s h (Same.refl _ _ _))
    fun d l₁ s₁ hl hdD h₁ hs₁ hz => ?_
  rw [wp_bind]
  refine wp_mono (wp_mapKernel (Set.mem_insert d D) h₁ hz) ?_
  rintro r s' ⟨l', h', hs', hfalse, htrue⟩
  rw [insert_sdiff_self hdD] at hs'
  have hs := hs₁.trans hs'
  cases r with
  | true =>
    obtain ⟨hK, huser, hlen⟩ := htrue rfl
    refine hsome d l' s' hdD h' hs hK huser ?_ (by rw [hl]; rfl)
    simp only [hl, List.length_cons]
    exact hlen
  | false =>
    simp only [Bool.false_eq_true, if_false]
    rw [wp_bind]
    refine wp_freevm h' (Set.mem_insert d D) fun l'' s'' h'' hs'' => ?_
    rw [insert_sdiff_self hdD] at h'' hs''
    have := hfalse rfl
    exact hnone (by simp only [hl, List.length_cons]; omega) l'' s'' h'' (hs.trans hs'')

end Xv6.Vm
