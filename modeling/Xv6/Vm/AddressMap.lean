import Xv6.Vm.Space
import Xv6.Vm.Loops

/-!
# Page tables as address maps

`Phys.addressMap s d` is what a directory means: for a page, the frame behind it and the flags.
`mappages` adds the pages of its range to this map and changes no other (`mappages_adds`), and
`setupkvm` makes a directory whose map is `kernelMap` (`setupkvm_maps`).

Nothing is assumed about the frames that a directory maps: `Tables` is about the directory, its
tables and the free list alone.
-/

namespace Xv6.Vm

open Bytes Conc Prog

variable {im : KernelImage} {D : Set Nat} {l : List Nat} {s s' s'' : Phys} {d n f i t k : Nat}
  {perm : Word} {E : Option Panic → Prop}

/-- What page `n` is mapped to: a frame, and the flags of the mapping. -/
def Phys.addressMap (s : Phys) (d n : Nat) : Option (Nat × Word) :=
  if present (s.pteAt d n) then some (frame (s.pteAt d n), flags (s.pteAt d n)) else none

theorem addressMap_eq_none : s.addressMap d n = none ↔ present (s.pteAt d n) = false := by
  unfold Phys.addressMap
  split <;> simp_all

theorem addressMap_congr (h : s'.pteAt d n = s.pteAt d n) : s'.addressMap d n = s.addressMap d n := by
  rw [Phys.addressMap, h, Phys.addressMap]

theorem addressMap_entry (hperm : perm.toNat < PGSIZE) (h : s.pteAt d n = entry f (perm ||| PTE_P)) :
    s.addressMap d n = some (f % NPAGES, perm ||| PTE_P) := by
  have hlt := toNat_or_PTE_P_lt hperm
  rw [Phys.addressMap, h, present_entry, present_or_PTE_P, if_pos rfl, frame_entry_mod f hlt, flags_entry f hlt]

/-! ## One page -/

/-- The flags that `walkpgdir` gives to a new directory entry. -/
abbrev PTE_PWU : Word := PTE_P ||| PTE_W ||| PTE_U

/-- The state after `walkpgdir` has taken the free frame `t` for a table. -/
def Phys.linked (s : Phys) (d i t : Nat) : Phys :=
  ({ s with freelist := s.mem t 0 }.setPage t fun _ => 0).setWord d i (entry t PTE_PWU)

theorem Phys.linked_ne (s : Phys) {g : Nat} (i : Nat) (hgt : g ≠ t) (hgd : g ≠ d) :
    (s.linked d i t).mem g = s.mem g := by
  rw [linked, setWord_ne _ _ _ hgd]
  exact Function.update_of_ne hgt _ _

theorem Phys.linked_self (s : Phys) (d i t : Nat) : (s.linked d i t).mem d i = entry t PTE_PWU :=
  setWord_self _ _ _ _

namespace Tables

theorem setPte (h : Tables D l s) (hd : d ∈ D) (ht : s.IsTable d i t) (j : Nat) (w : Word) :
    Tables D l (s.setWord t j w) := by
  have htab : ∀ d' ∈ D, ∀ i' t', (s.setWord t j w).IsTable d' i' t' → s.IsTable d' i' t' := by
    intro d' hd' i' t' ht'
    unfold Phys.IsTable at ht' ⊢
    rwa [h.setPte_dir hd ht hd'] at ht'
  refine ⟨h.chain.congr fun f hf => ?_, h.nodup, h.lt, h.dir_free, fun d' hd' i' t' ht' => ?_,
    fun d' hd' i' t' ht' => ?_, fun d₁ hd₁ d₂ hd₂ i₁ i₂ t' ht₁ ht₂ => ?_⟩
  · have hne : f ≠ t := fun he => h.table_free d hd i t ht (he ▸ hf)
    rw [Phys.setWord_ne _ _ _ hne]
  · exact h.table_free d' hd' i' t' (htab d' hd' i' t' ht')
  · exact h.table_not_dir d' hd' i' t' (htab d' hd' i' t' ht')
  · exact h.table_inj d₁ hd₁ d₂ hd₂ i₁ i₂ t' (htab d₁ hd₁ i₁ t' ht₁) (htab d₂ hd₂ i₂ t' ht₂)

section Link

variable (h : Tables D (t :: l) s) (hd : d ∈ D)
include h hd

theorem linked_pde {d' j : Nat} (hd' : d' ∈ D) (hne : d' ≠ d ∨ j ≠ i) :
    (s.linked d i t).mem d' j = s.mem d' j := by
  have ht : d' ≠ t := fun he => h.dir_free d' hd' (he ▸ List.mem_cons_self)
  by_cases hdd : d' = d
  · subst hdd
    rw [Phys.linked, Phys.setWord_index _ _ _ (hne.resolve_left fun h' => h' rfl)]
    exact congrFun (Function.update_of_ne ht _ _) j
  · rw [s.linked_ne i ht hdd]

theorem isTable_linked {d' j u : Nat} (hd' : d' ∈ D) (hu : (s.linked d i t).IsTable d' j u) :
    (d' = d ∧ j = i ∧ u = t) ∨ s.IsTable d' j u := by
  by_cases hself : d' = d ∧ j = i
  · obtain ⟨rfl, rfl⟩ := hself
    have hfr := hu.2.2
    rw [s.linked_self, frame_entry (h.lt t List.mem_cons_self) (by decide)] at hfr
    exact Or.inl ⟨rfl, rfl, hfr.symm⟩
  · have hpde := h.linked_pde (i := i) hd hd' (j := j) (by tauto)
    unfold Phys.IsTable at hu ⊢
    rw [hpde] at hu
    exact Or.inr hu

theorem link : Tables D l (s.linked d i t) := by
  have ht : t ∈ t :: l := List.mem_cons_self
  have htl := (List.nodup_cons.1 h.nodup).1
  refine ⟨?_, (List.nodup_cons.1 h.nodup).2, fun f hf => h.lt f (List.mem_cons_of_mem t hf),
    fun d' hd' hl => h.dir_free d' hd' (List.mem_cons_of_mem t hl), fun d' hd' j u hu => ?_,
    fun d' hd' j u hu => ?_, fun d₁ hd₁ d₂ hd₂ j₁ j₂ u hu₁ hu₂ => ?_⟩
  · refine Chain.congr h.chain.2 fun f hf => ?_
    have hft : f ≠ t := fun he => htl (he ▸ hf)
    have hfd : f ≠ d := fun he => h.dir_free d hd (he ▸ List.mem_cons_of_mem t hf)
    rw [s.linked_ne i hft hfd]
  · rcases h.isTable_linked hd hd' hu with ⟨-, -, rfl⟩ | hu'
    · exact htl
    · exact fun hl => h.table_free d' hd' j u hu' (List.mem_cons_of_mem t hl)
  · rcases h.isTable_linked hd hd' hu with ⟨-, -, rfl⟩ | hu'
    · exact fun hD => h.dir_free u hD ht
    · exact h.table_not_dir d' hd' j u hu'
  · -- the new table was free, so it is the table of no other entry
    rcases h.isTable_linked hd hd₁ hu₁ with ⟨rfl, rfl, rfl⟩ | hu₁' <;>
      rcases h.isTable_linked hd hd₂ hu₂ with ⟨rfl, rfl, he⟩ | hu₂'
    · exact ⟨rfl, rfl⟩
    · exact absurd ht (h.table_free d₂ hd₂ j₂ u hu₂')
    · exact absurd ht (he ▸ h.table_free d₁ hd₁ j₁ u hu₁')
    · exact h.table_inj d₁ hd₁ d₂ hd₂ j₁ j₂ u hu₁' hu₂'

/-- The new table maps nothing. -/
theorem linked_pte (habs : present (s.mem d i) = false) {d' : Nat} (hd' : d' ∈ D) (m : Nat) :
    (s.linked d i t).pteAt d' m = s.pteAt d' m := by
  have ht : t ∈ t :: l := List.mem_cons_self
  have htd : t ≠ d := fun he => h.dir_free d hd (he ▸ ht)
  by_cases hself : d' = d ∧ pdx m = i
  · obtain ⟨rfl, rfl⟩ := hself
    have hfr : frame (entry t PTE_PWU) = t := frame_entry (h.lt t ht) (by decide)
    have hnew : present (entry t PTE_PWU) = true := by
      rw [present_entry]
      rfl
    rw [Phys.pteAt_of_absent habs, Phys.pteAt, s.linked_self, if_pos hnew, hfr, Phys.linked,
      Phys.setWord_ne _ _ _ htd]
    show Function.update s.mem t (fun _ => 0) t (ptx m) = 0
    rw [Function.update_self]
  · rw [Phys.pteAt, Phys.pteAt, h.linked_pde hd hd' (by tauto)]
    by_cases hp : present (s.mem d' (pdx m)) = true
    · have htab : s.IsTable d' (pdx m) (frame (s.mem d' (pdx m))) := ⟨pdx_lt m, hp, rfl⟩
      have hut : frame (s.mem d' (pdx m)) ≠ t := fun he => h.table_free d' hd' _ _ htab (he ▸ ht)
      have hud : frame (s.mem d' (pdx m)) ≠ d := fun he => h.table_not_dir d' hd' _ _ htab (he ▸ hd)
      rw [if_pos hp, if_pos hp, s.linked_ne i hut hud]
    · rw [if_neg hp, if_neg hp]

end Link

end Tables

def EntriesKept (d : Nat) (s s' : Phys) : Prop :=
  ∀ i < NPDENTRIES, s'.mem d i = s.mem d i ∨
    present (s.mem d i) = false ∧ present (s'.mem d i) = true ∧ flags (s'.mem d i) = PTE_PWU

theorem wp_walk_tables {Q : Option (Nat × Nat) → Phys → Prop} (h : Tables D l s) (hd : d ∈ D)
    (hnone : Q none s)
    (hsome : ∀ t l' s', Tables D l' s' → s'.IsTable d (pdx n) t →
      (∀ d' ∈ D, ∀ m, s'.pteAt d' m = s.pteAt d' m) → EntriesKept d s s' → Q (some (t, ptx n)) s') :
    wp E (walkpgdir d n true) Q s := by
  unfold walkpgdir
  rw [wp_bind, wp_word]
  refine wp_ite (fun hp => ?_) fun hp => ?_
  · exact hsome _ l s h ⟨pdx_lt n, hp, rfl⟩ (fun _ _ _ => rfl) fun _ _ => Or.inl rfl
  have habs : present (s.mem d (pdx n)) = false := by simpa using hp
  simp only [Bool.not_true, Bool.false_eq_true, if_false]
  rw [wp_bind]
  refine wp_atomic.2 ?_
  cases l with
  | nil =>
    rw [show s.freelist = 0 from h.chain]
    exact hnone
  | cons t l =>
    have hlt := h.lt t List.mem_cons_self
    rw [h.chain.1, pointee_pointer hlt]
    show wp E (do
      clear t
      setWord d (pdx n) (entry t PTE_PWU)
      pure (some (t, ptx n))) Q { s with freelist := s.mem t 0 }
    rw [wp_bind, wp_clear, wp_bind, wp_setWord]
    have hnew : present (entry t PTE_PWU) = true := by
      rw [present_entry]
      rfl
    have hfr : frame (entry t PTE_PWU) = t := frame_entry hlt (by decide)
    refine hsome t l (s.linked d (pdx n) t) (h.link hd) ⟨pdx_lt n, ?_⟩
      (fun d' hd' m => h.linked_pte hd habs hd' m) fun i hi => ?_
    · rw [s.linked_self]
      exact ⟨hnew, hfr⟩
    · by_cases hin : i = pdx n
      · rw [hin, s.linked_self]
        exact Or.inr ⟨habs, hnew, flags_entry t (by decide)⟩
      · exact Or.inl (h.linked_pde hd hd (Or.inr hin))

/-! ## A range of pages -/

structure MapsRange (d n k f : Nat) (perm : Word) (s s' : Phys) : Prop where
  inside : ∀ m, n ≤ m → m < n + k → s'.pteAt d m = entry (f + (m - n)) (perm ||| PTE_P)
  outside : ∀ m < NPAGES, m < n ∨ n + k ≤ m → s'.pteAt d m = s.pteAt d m
  entries : EntriesKept d s s'

theorem EntriesKept.trans (h : EntriesKept d s s') (h' : EntriesKept d s' s'') : EntriesKept d s s'' := by
  intro i hi
  rcases h i hi with he | ⟨h₀, h₁, hf⟩ <;> rcases h' i hi with he' | ⟨h₁', h₂, hf'⟩
  · exact Or.inl (he'.trans he)
  · exact Or.inr ⟨he ▸ h₁', h₂, hf'⟩
  · exact Or.inr ⟨h₀, by rw [he', h₁], by rw [he', hf]⟩
  · rw [h₁] at h₁'
    exact absurd h₁' (by decide)

theorem MapsRange.zero (d n f : Nat) (perm : Word) (s : Phys) : MapsRange d n 0 f perm s s :=
  ⟨fun m hm hlt => by omega, fun _ _ _ => rfl, fun _ _ => Or.inl rfl⟩

theorem wp_mapFrom_tables (k : Nat) (h : Tables D l s) (hd : d ∈ D) (hn : n + k ≤ NPAGES)
    (habs : ∀ m, n ≤ m → m < n + k → present (s.pteAt d m) = false) :
    wp E (mapFrom d perm k n f) (fun r s' => ∃ l' j, Tables D l' s' ∧ MapsRange d n j f perm s s' ∧
      (if r then j = k else j < k)) s := by
  induction k generalizing n f l s with
  | zero => exact ⟨l, 0, h, MapsRange.zero d n f perm s, rfl⟩
  | succ k ih =>
    unfold mapFrom
    rw [wp_bind]
    refine wp_walk_tables h hd ⟨l, 0, h, MapsRange.zero d n f perm s, Nat.succ_pos k⟩ fun t l₁ s₁ h₁ ht hpte hent => ?_
    have hword : present (s₁.mem t (ptx n)) = false := by
      rw [← Phys.pteAt_of_table ht, hpte d hd, habs n le_rfl (by omega)]
    simp only []
    rw [wp_bind, wp_word, if_neg (by simp [hword]), wp_bind, wp_setWord]
    obtain ⟨s₂, hs₂⟩ : ∃ s₂, s₂ = s₁.setWord t (ptx n) (entry f (perm ||| PTE_P)) := ⟨_, rfl⟩
    have h₂ : Tables D l₁ s₂ := hs₂ ▸ h₁.setPte hd ht _ _
    have hself : s₂.pteAt d n = entry f (perm ||| PTE_P) := hs₂ ▸ h₁.setPte_self hd ht _
    have hne : ∀ m < NPAGES, m ≠ n → s₂.pteAt d m = s.pteAt d m := by
      intro m hm hmn
      rw [hs₂, h₁.setPte_ne hd (show n < NPAGES by omega) ht _ hd hm (Or.inr hmn), hpte d hd]
    have hent₂ : EntriesKept d s s₂ := by
      intro i hi
      rw [hs₂, h₁.setPte_dir hd ht hd]
      exact hent i hi
    rw [← hs₂]
    refine wp_mono (ih h₂ (by omega) fun m hm hlt => ?_) ?_
    · rw [hne m (by omega) (by omega)]
      exact habs m (by omega) (by omega)
    · rintro r s' ⟨l', j, h', hmaps, hj⟩
      have hjk : j ≤ k := by
        cases r with
        | false => exact Nat.le_of_lt hj
        | true => exact Nat.le_of_eq hj
      refine ⟨l', j + 1, h', ⟨fun m hm hlt => ?_, fun m hm hout => ?_, hent₂.trans hmaps.entries⟩, ?_⟩
      · by_cases hmn : m = n
        · rw [hmn, hmaps.outside n (by omega) (Or.inl (by omega)), hself, Nat.sub_self, Nat.add_zero]
        · rw [hmaps.inside m (by omega) (by omega), show f + 1 + (m - (n + 1)) = f + (m - n) by omega]
      · rw [hmaps.outside m hm (by omega), hne m hm (by omega)]
      · cases r with
        | false => exact Nat.succ_lt_succ hj
        | true => exact congrArg Nat.succ hj

theorem MapsRange.addressMap (h : MapsRange d n k f perm s s') (hperm : perm.toNat < PGSIZE) (m : Nat)
    (hm : m < NPAGES) : s'.addressMap d m =
      if n ≤ m ∧ m < n + k then some ((f + (m - n)) % NPAGES, perm ||| PTE_P) else s.addressMap d m := by
  split
  next hin => exact addressMap_entry hperm (h.inside m hin.1 hin.2)
  next hout => exact addressMap_congr (h.outside m hm (by omega))

theorem mappages_adds {va size pa : Nat} (h : Tables {d} l s) (hva : va % PGSIZE = 0) (hpa : pa % PGSIZE = 0)
    (hpa' : pa < 2 ^ 32) (hsize : 0 < size) (hend : va + size ≤ 2 ^ 32) (hperm : perm.toNat < PGSIZE)
    (habs : ∀ n, va ≤ n * PGSIZE → n * PGSIZE < va + size → s.addressMap d n = none) :
    ∃ r s', (∀ fuel, NPAGES ≤ fuel → (mappagesLoop fuel d va size pa perm).run s = .ok (some r) s') ∧
      (mappages d va size pa perm).run s = .ok r s' ∧ EntriesKept d s s' ∧
      (r = true → ∀ n < NPAGES, s'.addressMap d n =
        if va ≤ n * PGSIZE ∧ n * PGSIZE < va + size
        then some ((pa / PGSIZE + (n - va / PGSIZE)) % NPAGES, perm ||| PTE_P)
        else s.addressMap d n) := by
  obtain ⟨k, hk⟩ : ∃ k, k = uint (va + size - 1) / PGSIZE - va / PGSIZE + 1 := ⟨_, rfl⟩
  have hrange : ∀ m, va / PGSIZE ≤ m ∧ m < va / PGSIZE + k ↔ va ≤ m * PGSIZE ∧ m * PGSIZE < va + size := by
    intro m
    simp only [PGSIZE, uint] at *
    omega
  have hlast : va / PGSIZE + k ≤ NPAGES := by
    simp only [PGSIZE, NPAGES, uint] at *
    omega
  have hwp : wp (fun _ => False) (mappages d va size pa perm) (fun r s' => EntriesKept d s s' ∧
      (r = true → MapsRange d (va / PGSIZE) k (pa / PGSIZE) perm s s')) s := by
    show wp _ (mapFrom d perm (uint (va + size - 1) / PGSIZE - va / PGSIZE + 1) _ _) _ s
    rw [← hk]
    refine wp_mono (wp_mapFrom_tables k h rfl hlast fun m hm hlt => ?_) ?_
    · have hin := (hrange m).1 ⟨hm, hlt⟩
      exact addressMap_eq_none.1 (habs m hin.1 hin.2)
    · rintro r s' ⟨l', j, -, hmaps, hj⟩
      refine ⟨hmaps.entries, fun hr => ?_⟩
      subst hr
      exact (show j = k from hj) ▸ hmaps
  obtain ⟨r, s', hrun, hent, hmaps⟩ := wp_returns hwp
  refine ⟨r, s', fun fuel hfuel => ?_, hrun, hent, fun hr m hm => ?_⟩
  · have hrounds : (size - 1) / PGSIZE < fuel := by
      simp only [PGSIZE, NPAGES] at *
      omega
    rw [mappagesLoop_eq d perm hva hpa hpa' hsize hend hrounds, hrun]
    rfl
  · rw [(hmaps hr).addressMap hperm m hm]
    simp only [hrange]

/-! ## The kernel part -/

/-- The map that `setupkvm` is to make: the memory above `KERNBASE` and the devices. -/
def kernelMap (im : KernelImage) (n : Nat) : Option (Nat × Word) :=
  if KERNBASE / PGSIZE ≤ n ∧ n < (KERNBASE + PHYSTOP) / PGSIZE then
    some (n - KERNBASE / PGSIZE,
      if KERNLINK / PGSIZE ≤ n ∧ n < KERNBASE / PGSIZE + im.data then PTE_P else PTE_W ||| PTE_P)
  else if DEVSPACE / PGSIZE ≤ n then some (n, PTE_W ||| PTE_P)
  else none

theorem kernelMap_eq (im : KernelImage) (n : Nat) : kernelMap im n =
    if 0x80000 ≤ n ∧ n < 0x8E000 then
      some (n - 0x80000, if 0x80100 ≤ n ∧ n < 0x80000 + im.data then PTE_P else PTE_W ||| PTE_P)
    else if 0xFE000 ≤ n then some (n, PTE_W ||| PTE_P) else none := rfl

theorem wp_mapKernel_tables {Q : Bool → Phys → Prop} {e : Kmap} {ks : List Kmap}
    {F : Nat → Option (Nat × Word)} (hvirt : e.virt = n * PGSIZE) (hstart : e.physStart / PGSIZE = f)
    (hsize : uint (e.physEnd + 2 ^ 32 - e.physStart) = (k + 1) * PGSIZE) (hperm : e.perm = perm)
    (hlt : perm.toNat < PGSIZE)
    (hd : d ∈ D) (h : Tables D l s) (hhi : n + (k + 1) ≤ NPAGES) (hF : ∀ m < NPAGES, s.addressMap d m = F m)
    (habs : ∀ m, n ≤ m → m < n + (k + 1) → F m = none) (hfalse : ∀ s', Q false s')
    (htrue : ∀ l' s', Tables D l' s' → EntriesKept d s s' →
      (∀ m < NPAGES, s'.addressMap d m = if n ≤ m ∧ m < n + (k + 1)
        then some ((f + (m - n)) % NPAGES, perm ||| PTE_P) else F m) →
      wp E (mapKernel d ks) Q s') :
    wp E (mapKernel d (e :: ks)) Q s := by
  unfold mapKernel
  rw [wp_bind, hsize, hvirt, mappages_eq d _ _ hhi, hstart, hperm]
  refine wp_mono (wp_mapFrom_tables (k + 1) h hd hhi fun m hm hlt => ?_) ?_
  · rw [← addressMap_eq_none, hF m (by omega), habs m hm hlt]
  · rintro r s' ⟨l', j, h', hmaps, hj⟩
    cases r with
    | false => exact hfalse s'
    | true =>
      obtain rfl : j = k + 1 := hj
      refine htrue l' s' h' hmaps.entries fun m hm => ?_
      rw [hmaps.addressMap hlt m hm, hF m hm]

theorem wp_mapKernel_map (im : KernelImage) (hd : d ∈ D) (h : Tables D l s)
    (hz : ∀ i < NPDENTRIES, s.mem d i = 0) :
    wp E (mapKernel d (kmap im)) (fun r s' => r = true →
      (∀ n < NPAGES, s'.addressMap d n = kernelMap im n) ∧ EntriesKept d s s') s := by
  have hdata := im.text_data
  have hend := im.data_le
  have hstop := im.kend_lt
  have hnone : ∀ m < NPAGES, s.addressMap d m = none := fun m _ => by
    rw [addressMap_eq_none, Phys.pteAt_of_absent (by rw [hz _ (pdx_lt m), present_zero]), present_zero]
  simp only [EXTMEM, PGSIZE, PHYSTOP] at hdata hstop
  unfold kmap
  refine wp_mapKernel_tables (n := 0x80000) (k := 255) (f := 0) rfl rfl rfl rfl (by decide) hd h (by decide)
    hnone (fun _ _ _ => rfl) nofun fun l₁ s₁ h₁ he₁ hm₁ => ?_
  refine wp_mapKernel_tables (n := 0x80100) (k := im.data - 257) (f := 0x100) rfl
    (show EXTMEM / PGSIZE = 0x100 by decide) (by simp only [EXTMEM, PGSIZE, uint]; omega)
    (show _ = (0 : Word) from rfl) (by decide) hd h₁ (by simp only [NPAGES]; omega) hm₁
    (fun m hm hlt => ?_) nofun fun l₂ s₂ h₂ he₂ hm₂ => ?_
  · rw [if_neg (by omega)]
  refine wp_mapKernel_tables (n := 0x80000 + im.data) (k := 57343 - im.data) (f := im.data)
    (by simp only [KERNBASE, PGSIZE]; omega) (Nat.mul_div_cancel _ (by decide))
    (by simp only [PHYSTOP, PGSIZE, uint]; omega) (show _ = PTE_W from rfl) (by decide) hd h₂ (by simp only [NPAGES]; omega) hm₂
    (fun m hm hlt => ?_) nofun fun l₃ s₃ h₃ he₃ hm₃ => ?_
  · rw [if_neg (by omega), if_neg (by omega)]
  refine wp_mapKernel_tables (n := 0xFE000) (k := 8191) (f := 0xFE000) rfl rfl rfl rfl (by decide) hd h₃
    (by decide) hm₃ (fun m hm hlt => ?_) nofun fun l₄ s₄ h₄ he₄ hm₄ => ?_
  · rw [if_neg (by omega), if_neg (by omega), if_neg (by omega)]
  refine fun _ => ⟨fun m hm => ?_, ((he₁.trans he₂).trans he₃).trans he₄⟩
  rw [hm₄ m hm, kernelMap_eq]
  simp only [NPAGES] at hm ⊢
  by_cases hdev : 0xFE000 ≤ m
  · rw [if_pos (by omega), if_neg (by omega), if_pos hdev, show (0xFE000 + (m - 0xFE000)) % 2 ^ 20 = m by omega]
  rw [if_neg (by omega)]
  by_cases hmem : 0x80000 ≤ m ∧ m < 0x8E000
  · rw [if_pos hmem]
    by_cases hrw : 0x80000 + im.data ≤ m
    · rw [if_pos (by omega), if_neg (by omega), show (im.data + (m - (0x80000 + im.data))) % 2 ^ 20 =
        m - 0x80000 by omega]
    rw [if_neg (by omega)]
    by_cases htext : 0x80100 ≤ m
    · rw [if_pos (by omega), if_pos (by omega), show (0x100 + (m - 0x80100)) % 2 ^ 20 = m - 0x80000 by omega]
      rfl
    · rw [if_neg (by omega), if_pos (by omega), if_neg (by omega),
        show (0 + (m - 0x80000)) % 2 ^ 20 = m - 0x80000 by omega]
  · rw [if_neg hmem, if_neg hdev, if_neg (by omega), if_neg (by omega), if_neg (by omega)]

theorem Frames.ofChain {P : Set Nat} (hchain : Chain s.mem s.freelist l) (hnodup : l.Nodup)
    (hrange : ∀ f ∈ l, im.kend ≤ f ∧ f * PGSIZE < PHYSTOP) (hP : ∀ f ∈ P, f ∉ l)
    (hrangeP : ∀ f ∈ P, im.kend ≤ f ∧ f * PGSIZE < PHYSTOP) :
    Frames im {f | f ∈ l ∨ f ∈ P} ∅ Empty.elim P l s := by
  have hnone : ∀ x, s.refs ∅ Empty.elim x = none := by
    intro x
    cases x with
    | other e => exact e.elim
    | _ => simp [Phys.refs]
  refine ⟨fun f hf => hf.elim (hrange f) (hrangeP f), hchain, hnodup, fun _ => Or.inl,
    ⟨fun f => ⟨fun hf => Or.inl (hf.1.resolve_left hf.2), ?_⟩, ?_, ?_⟩⟩
  · rintro (hf | ⟨x, hx⟩)
    · exact ⟨Or.inr hf, hP f hf⟩
    · rw [hnone x] at hx
      cases hx
  · intro x y f hx
    rw [hnone x] at hx
    cases hx
  · intro x f hx
    rw [hnone x] at hx
    cases hx

theorem wp_setupkvm_map {ι : Type} {R P : Set Nat} {oth : ι → Option Nat} (h : Frames im R D oth P l s) :
    wp (fun _ => True) (setupkvm im) (fun r s' => ∀ d, r = some d →
      (∀ n < NPAGES, s'.addressMap d n = kernelMap im n) ∧
      ∀ i < NPDENTRIES, present (s'.mem d i) = true → flags (s'.mem d i) = PTE_PWU) s := by
  unfold setupkvm
  refine wp_newDir h (fun _ => nofun) fun d l₁ s₁ _ _ h₁ _ hz => ?_
  rw [wp_bind]
  refine wp_mono (wp_mapKernel_map im (Set.mem_insert d D) h₁.tables hz) fun r s' hmap => ?_
  cases r with
  | true =>
    obtain ⟨hkernel, hent⟩ := hmap rfl
    rintro d' hd'
    obtain rfl : d = d' := Option.some.inj hd'
    refine ⟨hkernel, fun i hi hp => ?_⟩
    rcases hent i hi with he | ⟨-, -, hf⟩
    · rw [he, hz i hi, present_zero] at hp
      cases hp
    · exact hf
  | false =>
    rw [if_neg (by decide), wp_bind]
    exact wp_top fun _ _ => nofun

theorem setupkvm_maps (im : KernelImage) (hchain : Chain s.mem s.freelist l) (hnodup : l.Nodup)
    (hrange : ∀ f ∈ l, im.kend ≤ f ∧ f * PGSIZE < PHYSTOP) :
    ∃ r s', (setupkvm im).run s = .ok r s' ∧ (KVMPAGES ≤ l.length → r.isSome) ∧ ∀ d, r = some d →
      (∀ n < NPAGES, s'.addressMap d n = kernelMap im n) ∧
      ∀ i < NPDENTRIES, present (s'.mem d i) = true → flags (s'.mem d i) = PTE_PWU := by
  have h := Frames.ofChain hchain hnodup hrange (fun _ => False.elim) fun _ => False.elim
  have hsafe : wp (fun _ => False) (setupkvm im) (fun r _ => KVMPAGES ≤ l.length → r.isSome) s :=
    wp_setupkvm h (fun hlt _ _ _ _ hle => absurd hle (by omega)) fun _ _ _ _ _ _ _ _ _ _ _ => rfl
  obtain ⟨r, s', hrun, henough⟩ := wp_returns hsafe
  have hmap := wp_ok (wp_setupkvm_map h) hrun
  exact ⟨r, s', hrun, henough, hmap⟩

/-- Page tables are the address maps they should be: what `mappages` adds to a table, and what `setupkvm`
makes, wherever the linker has put `data`. -/
theorem page_tables_map :
    (∀ (d : Nat) (l : List Nat) (s : Phys) (va size pa : Nat) (perm : Word), Tables {d} l s →
      va % PGSIZE = 0 → pa % PGSIZE = 0 → pa < 2 ^ 32 → 0 < size → va + size ≤ 2 ^ 32 →
      perm.toNat < PGSIZE →
      (∀ n, va ≤ n * PGSIZE → n * PGSIZE < va + size → s.addressMap d n = none) →
      ∃ r s', (∀ fuel, NPAGES ≤ fuel → (mappagesLoop fuel d va size pa perm).run s = .ok (some r) s') ∧
        (mappages d va size pa perm).run s = .ok r s' ∧ EntriesKept d s s' ∧
        (r = true → ∀ n < NPAGES, s'.addressMap d n =
          if va ≤ n * PGSIZE ∧ n * PGSIZE < va + size
          then some ((pa / PGSIZE + (n - va / PGSIZE)) % NPAGES, perm ||| PTE_P)
          else s.addressMap d n)) ∧
    ∀ (im : KernelImage) (l : List Nat) (s : Phys), Chain s.mem s.freelist l → l.Nodup →
      (∀ f ∈ l, im.kend ≤ f ∧ f * PGSIZE < PHYSTOP) →
      ∃ r s', (setupkvm im).run s = .ok r s' ∧ (KVMPAGES ≤ l.length → r.isSome) ∧ ∀ d, r = some d →
        (∀ n < NPAGES, s'.addressMap d n = kernelMap im n) ∧
        ∀ i < NPDENTRIES, present (s'.mem d i) = true → flags (s'.mem d i) = PTE_PWU :=
  ⟨fun _ _ _ _ _ _ _ h hva hpa hpa' hsize hend hperm habs =>
    mappages_adds h hva hpa hpa' hsize hend hperm habs,
   fun im _ _ hchain hnodup hrange => setupkvm_maps im hchain hnodup hrange⟩

instance decidableChain (mem : Nat → Nat → Word) : ∀ w l, Decidable (Chain mem w l)
  | w, [] => inferInstanceAs (Decidable (w = 0))
  | w, f :: l => @instDecidableAnd (w = pointer (some f)) (Chain mem (mem f 0) l) _
      (decidableChain mem (mem f 0) l)

/-- A memory in which the frames from 300 to 369 are free. -/
def seventyFree : Phys := ⟨fun f _ => if f < 369 then pointer (some (f + 1)) else 0, pointer (some 300)⟩

/-- Two pages in an empty directory, and the directory of a small kernel. -/
theorem page_tables_map_small :
    (∃ s', (mappages 400 PGSIZE (2 * PGSIZE) (500 * PGSIZE) PTE_W).run seventyFree = .ok true s' ∧
      s'.addressMap 400 0 = none ∧ s'.addressMap 400 2 = some (501, PTE_W ||| PTE_P)) ∧
    ∃ d s', (setupkvm ⟨264, 278, by decide, by decide, by decide⟩).run seventyFree = .ok (some d) s' ∧
      s'.addressMap d 0x80000 = some (0, PTE_W ||| PTE_P) := by
  have hchain : Chain seventyFree.mem seventyFree.freelist (List.range' 300 70) := by decide +kernel
  have hnodup : (List.range' 300 70).Nodup := List.nodup_range'
  have hrange : ∀ f ∈ List.range' 300 70, 278 ≤ f ∧ f * PGSIZE < PHYSTOP := by decide +kernel
  have hempty : ∀ i, present (seventyFree.mem 400 i) = false := fun i => by
    show present (if 400 < 369 then pointer (some 401) else 0) = false
    decide
  have hnone : ∀ n, seventyFree.addressMap 400 n = none := fun n => by
    rw [addressMap_eq_none, Phys.pteAt_of_absent (hempty _), present_zero]
  have htables : Tables {400} (List.range' 300 70) seventyFree := by
    have hno : ∀ d ∈ ({400} : Set Nat), ∀ i t, ¬seventyFree.IsTable d i t := by
      rintro d rfl i t ⟨-, hp, -⟩
      rw [hempty] at hp
      cases hp
    refine ⟨hchain, hnodup, fun f hf => (hrange f hf).2, ?_, fun d hd i t ht => absurd ht (hno d hd i t),
      fun d hd i t ht => absurd ht (hno d hd i t), fun d hd _ _ i _ t ht => absurd ht (hno d hd i t)⟩
    rintro d rfl
    decide +kernel
  constructor
  · obtain ⟨r, s', -, hrun, -, hmap⟩ := page_tables_map.1 400 _ seventyFree PGSIZE (2 * PGSIZE) (500 * PGSIZE) PTE_W
      htables (by decide) (by decide) (by decide) (by decide) (by decide) (by decide) fun n _ _ => hnone n
    have hr : r = true := by
      have hres : ((mappages 400 PGSIZE (2 * PGSIZE) (500 * PGSIZE) PTE_W).run seventyFree).bind
          (fun r _ => .ok r ()) = (.ok true () : Res Panic Bool Unit) := by decide +kernel
      rw [hrun] at hres
      cases hres
      rfl
    subst hr
    refine ⟨s', hrun, ?_, ?_⟩
    · rw [hmap rfl 0 (by decide), if_neg (by decide), hnone]
    · rw [hmap rfl 2 (by decide), if_pos (by decide)]
      decide
  · obtain ⟨r, s', hrun, hsome, hmap⟩ := page_tables_map.2 ⟨264, 278, by decide, by decide, by decide⟩ _
      seventyFree hchain hnodup hrange
    obtain ⟨d, rfl⟩ := Option.isSome_iff_exists.1 (hsome (by decide))
    exact ⟨d, s', hrun, (hmap d rfl).1 0x80000 (by decide)⟩

end Xv6.Vm
