import Xv6.Vm.Memory
import Xv6.Lib.Own

/-!
# Who has a frame

A frame that the allocator manages is on the free list, or one *place* refers to it: it
is a page directory, a directory entry of the table it is, the user page it is mapped
at, or one of the `other` places (stacks, pipes).  `Frames` says so with `Conc.Owns`,
for the directories `D`, while the frames of `P` are on their way from one place to
another.  `Phys.pteAt` is a directory seen as a function from pages to entries; every change of a
directory or a table changes this view at one page, since tables have one owner.
-/

namespace Xv6.Vm

open Bytes Conc

/-! ## Entries -/

theorem getLsbD_entry (f : Nat) (perm : Word) {k : Nat} (hk : k < 12) :
    (entry f perm).getLsbD k = perm.getLsbD k := by
  have hz : (BitVec.ofNat 32 (f * PGSIZE)).getLsbD k = false := by
    rw [BitVec.getLsbD_ofNat, show PGSIZE = 2 ^ 12 from rfl, Nat.testBit_mul_two_pow]
    simp
    omega
  rw [entry, BitVec.getLsbD_or, hz, Bool.false_or]

@[simp] theorem present_entry (f : Nat) (perm : Word) : present (entry f perm) = present perm :=
  getLsbD_entry f perm (by omega)

@[simp] theorem user_entry (f : Nat) (perm : Word) : user (entry f perm) = user perm :=
  getLsbD_entry f perm (by omega)

theorem present_or_PTE_P (perm : Word) : present (perm ||| PTE_P) = true := by
  simp [present, PTE_P]

theorem user_or_PTE_P (perm : Word) : user (perm ||| PTE_P) = user perm := by
  simp [user, PTE_P]

theorem frame_entry_mod (f : Nat) {perm : Word} (hp : perm.toNat < PGSIZE) :
    frame (entry f perm) = f % 2 ^ 20 := by
  have haddr : f * PGSIZE % 2 ^ 32 = (f % 2 ^ 20) <<< 12 := by
    simp only [PGSIZE, Nat.shiftLeft_eq]
    omega
  have hor : (entry f perm).toNat = (f % 2 ^ 20) <<< 12 + perm.toNat := by
    rw [entry, BitVec.toNat_or, BitVec.toNat_ofNat, haddr, Nat.shiftLeft_add_eq_or_of_lt hp]
  rw [frame, hor]
  simp only [PGSIZE, Nat.shiftLeft_eq] at *
  omega

theorem frame_entry {f : Nat} {perm : Word} (hf : f * PGSIZE < PHYSTOP)
    (hp : perm.toNat < PGSIZE) : frame (entry f perm) = f := by
  rw [frame_entry_mod f hp]
  simp only [PGSIZE, PHYSTOP] at hf
  omega

theorem toNat_or_PTE_P_lt {perm : Word} (hp : perm.toNat < PGSIZE) :
    (perm ||| PTE_P).toNat < PGSIZE := by
  rw [BitVec.toNat_or]
  exact Nat.or_lt_two_pow (n := 12) hp (by decide)

theorem pointee_pointer {f : Nat} (hf : f * PGSIZE < PHYSTOP) :
    pointee (pointer (some f)) = some f := by
  simp only [PGSIZE, PHYSTOP] at hf
  have hv : (pointer (some f)).toNat = KERNBASE + f * 4096 := by
    simp only [pointer, PGSIZE, KERNBASE, BitVec.toNat_ofNat]
    omega
  have hne : pointer (some f) ≠ 0 := by
    intro h
    rw [h, show (0 : Word).toNat = 0 from rfl, KERNBASE] at hv
    omega
  rw [pointee, if_neg hne, BitVec.toNat_sub, hv]
  simp only [PGSIZE, KERNBASE, BitVec.toNat_ofNat, Option.some.injEq]
  omega

/-! ## The view of a directory -/

namespace Phys

def pteAt (s : Phys) (d n : Nat) : Word :=
  if present (s.mem d (pdx n)) then s.mem (frame (s.mem d (pdx n))) (ptx n) else 0

def IsTable (s : Phys) (d i g : Nat) : Prop :=
  i < NPDENTRIES ∧ present (s.mem d i) ∧ frame (s.mem d i) = g

theorem pteAt_of_table {s : Phys} {d n t : Nat} (h : s.IsTable d (pdx n) t) :
    s.pteAt d n = s.mem t (ptx n) := by
  rw [pteAt, if_pos h.2.1, h.2.2]

theorem setWord_ne (s : Phys) {f g : Nat} (i : Nat) (w : Word) (h : g ≠ f) :
    (s.setWord f i w).mem g = s.mem g := Function.update_of_ne h _ _

@[simp] theorem setWord_self (s : Phys) (f i : Nat) (w : Word) : (s.setWord f i w).mem f i = w := by
  simp [setWord, setPage]

theorem setWord_index (s : Phys) (f : Nat) {i j : Nat} (w : Word) (h : j ≠ i) :
    (s.setWord f i w).mem f j = s.mem f j := by
  simp [setWord, setPage, h]

theorem pteAt_of_absent {s : Phys} {d n : Nat} (h : present (s.mem d (pdx n)) = false) :
    s.pteAt d n = 0 := by
  rw [pteAt, if_neg (by simp [h])]

end Phys

theorem pdx_lt (n : Nat) : pdx n < NPDENTRIES := Nat.mod_lt _ (by decide)

theorem present_zero : present 0 = false := rfl

structure Same {ι : Type} (D : Set Nat) (oth : ι → Option Nat) (s s' : Phys) : Prop where
  pde : ∀ d ∈ D, ∀ i < NPDENTRIES, s'.mem d i = s.mem d i
  pte : ∀ d ∈ D, ∀ n, s'.pteAt d n = s.pteAt d n
  mem : ∀ x f, oth x = some f → s'.mem f = s.mem f

namespace Same

variable {ι : Type} {D D' : Set Nat} {oth : ι → Option Nat} {s s' s'' : Phys}

theorem refl (D : Set Nat) (oth : ι → Option Nat) (s : Phys) : Same D oth s s :=
  ⟨fun _ _ _ _ => rfl, fun _ _ _ => rfl, fun _ _ _ => rfl⟩

theorem of_mem (h : s'.mem = s.mem) : Same D oth s s' :=
  ⟨fun _ _ _ _ => by rw [h], fun _ _ _ => by simp only [Phys.pteAt, h], fun _ _ _ => by rw [h]⟩

theorem trans (h : Same D oth s s') (h' : Same D oth s' s'') : Same D oth s s'' :=
  ⟨fun d hd i hi => (h'.pde d hd i hi).trans (h.pde d hd i hi),
    fun d hd n => (h'.pte d hd n).trans (h.pte d hd n),
    fun x f hx => (h'.mem x f hx).trans (h.mem x f hx)⟩

theorem mono (h : Same D oth s s') (hD : D' ⊆ D) : Same D' oth s s' :=
  ⟨fun d hd => h.pde d (hD hd), fun d hd => h.pte d (hD hd), h.mem⟩

end Same

/-! ## Places -/

/-- What can refer to a frame. -/
inductive Place (ι : Type) where
  | dir (d : Nat)
  | tab (d i : Nat)
  | page (d n : Nat)
  | other (x : ι)

/-- Number of pages below `KERNBASE`. -/
abbrev USERPAGES : Nat := KERNBASE / PGSIZE

def Phys.IsPage (s : Phys) (D : Set Nat) (g : Nat) : Prop :=
  ∃ d ∈ D, ∃ n < USERPAGES, present (s.pteAt d n) = true ∧ frame (s.pteAt d n) = g

theorem Phys.IsPage.of_same {ι : Type} {D : Set Nat} {oth : ι → Option Nat} {s s' : Phys} {g : Nat}
    (h : s.IsPage D g) (hs : Same D oth s s') : s'.IsPage D g := by
  obtain ⟨d, hd, n, hn, hp⟩ := h
  exact ⟨d, hd, n, hn, by rwa [hs.pte d hd]⟩

variable {ι : Type} {im : KernelImage} {R D P : Set Nat} {oth : ι → Option Nat} {l : List Nat}
  {s s' : Phys} {d n t f i : Nat} {w : Word}

open Classical in
noncomputable def Phys.refs (s : Phys) (D : Set Nat) (oth : ι → Option Nat) : Place ι → Option Nat
  | .dir d => if d ∈ D then some d else none
  | .tab d i => if d ∈ D ∧ i < NPDENTRIES ∧ present (s.mem d i) then some (frame (s.mem d i)) else none
  | .page d n =>
    if d ∈ D ∧ n < USERPAGES ∧ present (s.pteAt d n) then some (frame (s.pteAt d n)) else none
  | .other x => oth x

theorem refs_dir : s.refs D oth (.dir d) = some f ↔ d ∈ D ∧ d = f := by
  simp only [Phys.refs]
  split <;> simp_all

theorem refs_tab : s.refs D oth (.tab d i) = some f ↔ d ∈ D ∧ s.IsTable d i f := by
  simp only [Phys.refs, Phys.IsTable]
  split <;> simp_all

theorem refs_page : s.refs D oth (.page d n) = some f ↔
    d ∈ D ∧ n < USERPAGES ∧ present (s.pteAt d n) ∧ frame (s.pteAt d n) = f := by
  simp only [Phys.refs]
  split <;> simp_all

theorem refs_page_none (h : present (s.pteAt d n) = false) : s.refs D oth (.page d n) = none := by
  simp [Phys.refs, h]

theorem refs_congr (h : Same D oth s s') (p : Place ι) : s'.refs D oth p = s.refs D oth p := by
  cases p with
  | dir d => rfl
  | tab d i =>
    refine Option.ext fun f => ?_
    simp only [refs_tab, Phys.IsTable]
    constructor <;> rintro ⟨hd, hi, hp⟩ <;> refine ⟨hd, hi, ?_⟩
    · rwa [← h.pde d hd i hi]
    · rwa [h.pde d hd i hi]
  | page d n =>
    refine Option.ext fun f => ?_
    simp only [refs_page]
    constructor <;> rintro ⟨hd, hn, hp⟩ <;> refine ⟨hd, hn, ?_⟩
    · rwa [← h.pte d hd n]
    · rwa [h.pte d hd n]
  | other x => rfl

/-! ## The invariant -/

/-- The frames of the list follow each other through their first words. -/
def Chain (mem : Nat → Nat → Word) : Word → List Nat → Prop
  | w, [] => w = 0
  | w, f :: l => w = pointer (some f) ∧ Chain mem (mem f 0) l

theorem Chain.congr {mem mem' : Nat → Nat → Word} {w : Word} (h : Chain mem w l)
    (hm : ∀ f ∈ l, mem' f 0 = mem f 0) : Chain mem' w l := by
  induction l generalizing w with
  | nil => exact h
  | cons f l ih =>
    refine ⟨h.1, ?_⟩
    rw [hm f List.mem_cons_self]
    exact ih h.2 fun g hg => hm g (List.mem_cons_of_mem f hg)

structure Tables (D : Set Nat) (l : List Nat) (s : Phys) : Prop where
  chain : Chain s.mem s.freelist l
  nodup : l.Nodup
  lt : ∀ f ∈ l, f * PGSIZE < PHYSTOP
  dir_free : ∀ d ∈ D, d ∉ l
  table_free : ∀ d ∈ D, ∀ i t, s.IsTable d i t → t ∉ l
  table_not_dir : ∀ d ∈ D, ∀ i t, s.IsTable d i t → t ∉ D
  table_inj : ∀ d ∈ D, ∀ d' ∈ D, ∀ i i' t, s.IsTable d i t → s.IsTable d' i' t → d' = d ∧ i' = i

namespace Tables

/-- The view after an absent directory entry gets a cleared table: the same. -/
theorem addTable_pte (h : Tables D l s) (hd : d ∈ D) (habs : present (s.mem d i) = false)
    (ht : t ∉ D) (hz : ∀ j < 1024, s.mem t j = 0) (hw : present w = true) (hwt : frame w = t)
    {d' : Nat} (hd' : d' ∈ D) (n : Nat) : (s.setWord d i w).pteAt d' n = s.pteAt d' n := by
  have htd : t ≠ d := fun he => ht (he ▸ hd)
  by_cases hself : d' = d ∧ pdx n = i
  · obtain ⟨rfl, rfl⟩ := hself
    rw [Phys.pteAt_of_absent habs, Phys.pteAt, Phys.setWord_self, if_pos hw, hwt,
      Phys.setWord_ne _ _ _ htd]
    exact hz _ (Nat.mod_lt _ (by decide))
  · have hpde : (s.setWord d i w).mem d' (pdx n) = s.mem d' (pdx n) := by
      by_cases hdd : d' = d
      · rw [hdd, Phys.setWord_index _ _ _ fun he => hself ⟨hdd, he⟩]
      · rw [Phys.setWord_ne _ _ _ hdd]
    simp only [Phys.pteAt, hpde]
    by_cases hp : present (s.mem d' (pdx n)) = true
    · have hne : frame (s.mem d' (pdx n)) ≠ d := fun he =>
        h.table_not_dir d' hd' _ _ ⟨pdx_lt n, hp, rfl⟩ (he ▸ hd)
      rw [if_pos hp, if_pos hp, Phys.setWord_ne _ _ _ hne]
    · rw [if_neg hp, if_neg hp]

theorem setPte_dir (h : Tables D l s) (hd : d ∈ D) (ht : s.IsTable d i t) {d' : Nat} (hd' : d' ∈ D)
    (j : Nat) (w : Word) : (s.setWord t j w).mem d' = s.mem d' :=
  Phys.setWord_ne _ _ _ fun he => h.table_not_dir d hd _ _ ht (he ▸ hd')

theorem setPte_self (h : Tables D l s) (hd : d ∈ D) (ht : s.IsTable d (pdx n) t) (w : Word) :
    (s.setWord t (ptx n) w).pteAt d n = w := by
  rw [Phys.pteAt, h.setPte_dir hd ht hd, if_pos ht.2.1, ht.2.2, Phys.setWord_self]

theorem setPte_ne (h : Tables D l s) (hd : d ∈ D) (hn : n < 2 ^ 20) (ht : s.IsTable d (pdx n) t) (w : Word)
    {d' m : Nat} (hd' : d' ∈ D) (hm : m < 2 ^ 20) (hne : d' ≠ d ∨ m ≠ n) :
    (s.setWord t (ptx n) w).pteAt d' m = s.pteAt d' m := by
  simp only [Phys.pteAt, h.setPte_dir hd ht hd']
  by_cases hp : present (s.mem d' (pdx m)) = true
  · rw [if_pos hp, if_pos hp]
    by_cases htab : frame (s.mem d' (pdx m)) = t
    · -- the same table: then it is the same directory and the other page differs in its index
      obtain ⟨hdd, hmn⟩ := h.table_inj d hd d' hd' _ _ t ht ⟨pdx_lt m, hp, htab⟩
      have hmn' : m ≠ n := hne.resolve_left fun h' => h' hdd
      have hidx : ptx m ≠ ptx n := by
        simp only [pdx, ptx] at *
        omega
      rw [htab, Phys.setWord_index _ _ _ hidx]
    · rw [Phys.setWord_ne _ _ _ htab]
  · rw [if_neg hp, if_neg hp]

end Tables

/-- The directories, their tables and the free frames: the frames whose content matters. -/
def Phys.Structural (s : Phys) (D : Set Nat) (l : List Nat) (g : Nat) : Prop :=
  g ∈ l ∨ g ∈ D ∨ ∃ d ∈ D, ∃ i, s.IsTable d i g

/-- The same, and the frames of the `other` places. -/
def Phys.Kept (s : Phys) (D : Set Nat) (oth : ι → Option Nat) (l : List Nat) (g : Nat) : Prop :=
  s.Structural D l g ∨ ∃ x, oth x = some g

/-- The state after `kfree`. -/
def Phys.freed (s : Phys) (f : Nat) : Phys :=
  { (s.setPage f fun _ => 0x01010101).setWord f 0 s.freelist with freelist := pointer (some f) }

theorem Phys.freed_mem (s : Phys) {f g : Nat} (hg : g ≠ f) : (s.freed f).mem g = s.mem g := by
  simp only [freed, setWord, setPage]
  rw [Function.update_of_ne hg, Function.update_of_ne hg]

theorem Chain.freed {s : Phys} (h : Chain s.mem s.freelist l) {f : Nat} (hf : f ∉ l) :
    Chain (s.freed f).mem (s.freed f).freelist (f :: l) := by
  have h0 : (s.freed f).mem f 0 = s.freelist := by simp [Phys.freed, Phys.setWord, Phys.setPage]
  refine ⟨rfl, ?_⟩
  rw [h0]
  refine h.congr fun g hg => ?_
  have hne : g ≠ f := fun he => hf (he ▸ hg)
  rw [s.freed_mem hne]

structure Frames (im : KernelImage) (R D : Set Nat) (oth : ι → Option Nat) (P : Set Nat)
    (l : List Nat) (s : Phys) : Prop where
  range : ∀ f ∈ R, im.kend ≤ f ∧ f * PGSIZE < PHYSTOP
  chain : Chain s.mem s.freelist l
  nodup : l.Nodup
  sub : ∀ f ∈ l, f ∈ R
  own : Owns (s.refs D oth) {f | f ∈ R ∧ f ∉ l} P

namespace Frames

variable (h : Frames im R D oth P l s)
include h

theorem pending_mem (hf : f ∈ P) : f ∈ R ∧ f ∉ l := (h.own.used_iff f).2 (Or.inl hf)

theorem dir_mem (hd : d ∈ D) : d ∈ R ∧ d ∉ l := h.own.used_of_ref (refs_dir.2 ⟨hd, rfl⟩)

theorem table_mem (hd : d ∈ D) (ht : s.IsTable d i t) : t ∈ R ∧ t ∉ l :=
  h.own.used_of_ref (refs_tab.2 ⟨hd, ht⟩)

theorem page_mem (hd : d ∈ D) (hn : n < USERPAGES) (hp : present (s.pteAt d n)) :
    frame (s.pteAt d n) ∈ R ∧ frame (s.pteAt d n) ∉ l :=
  h.own.used_of_ref (refs_page.2 ⟨hd, hn, hp, rfl⟩)

theorem dir_not_pending (hd : d ∈ D) : d ∉ P := h.own.not_pending _ _ (refs_dir.2 ⟨hd, rfl⟩)

theorem table_not_pending (hd : d ∈ D) (ht : s.IsTable d i t) : t ∉ P :=
  h.own.not_pending _ _ (refs_tab.2 ⟨hd, ht⟩)

theorem page_not_pending (hd : d ∈ D) (hn : n < USERPAGES) (hp : present (s.pteAt d n)) :
    frame (s.pteAt d n) ∉ P :=
  h.own.not_pending _ _ (refs_page.2 ⟨hd, hn, hp, rfl⟩)

theorem table_not_dir (hd : d ∈ D) (ht : s.IsTable d i t) : t ∉ D := fun htD =>
  nomatch h.own.inj _ _ t (refs_tab.2 ⟨hd, ht⟩) (refs_dir.2 ⟨htD, rfl⟩)

theorem table_inj {d' i' : Nat} (hd : d ∈ D) (ht : s.IsTable d i t) (hd' : d' ∈ D)
    (ht' : s.IsTable d' i' t) : d' = d ∧ i' = i := by
  have := h.own.inj _ _ t (refs_tab.2 ⟨hd', ht'⟩) (refs_tab.2 ⟨hd, ht⟩)
  injection this with h1 h2
  exact ⟨h1, h2⟩

theorem lt_of_mem (hf : f ∈ R) : f * PGSIZE < PHYSTOP := (h.range f hf).2

theorem tables : Tables D l s where
  chain := h.chain
  nodup := h.nodup
  lt f hf := h.lt_of_mem (h.sub f hf)
  dir_free _ hd := (h.dir_mem hd).2
  table_free _ hd _ _ ht := (h.table_mem hd ht).2
  table_not_dir _ hd _ _ ht := h.table_not_dir hd ht
  table_inj _ hd _ hd' _ _ _ ht ht' := h.table_inj hd ht hd' ht'

theorem pending_not_kept (hf : f ∈ P) : ¬s.Kept D oth l f := by
  rintro ((hl | hD | ⟨d, hd, i, ht⟩) | ⟨x, hx⟩)
  · exact (h.pending_mem hf).2 hl
  · exact h.dir_not_pending hD hf
  · exact h.table_not_pending hd ht hf
  · exact h.own.not_pending (.other x) f hx hf

theorem page_not_kept (hd : d ∈ D) (hn : n < USERPAGES) (hp : present (s.pteAt d n)) :
    ¬s.Kept D oth l (frame (s.pteAt d n)) := by
  have href : s.refs D oth (.page d n) = some (frame (s.pteAt d n)) := refs_page.2 ⟨hd, hn, hp, rfl⟩
  rintro ((hl | hD | ⟨d', hd', i, ht⟩) | ⟨x, hx⟩)
  · exact (h.page_mem hd hn hp).2 hl
  · exact nomatch h.own.inj _ _ _ href (refs_dir.2 ⟨hD, rfl⟩)
  · exact nomatch h.own.inj _ _ _ href (refs_tab.2 ⟨hd', ht⟩)
  · exact nomatch h.own.inj _ (.other x) _ href hx

theorem isPage_apart {g : Nat} (hg : s.IsPage D g) : g ∉ D ∧ (∀ d ∈ D, ∀ i, ¬s.IsTable d i g) ∧ g ∉ P := by
  obtain ⟨d, hd, n, hn, hp, rfl⟩ := hg
  have hk := h.page_not_kept hd hn hp
  exact ⟨fun hD => hk (Or.inl (Or.inr (Or.inl hD))),
    fun d' hd' i ht => hk (Or.inl (Or.inr (Or.inr ⟨d', hd', i, ht⟩))), h.page_not_pending hd hn hp⟩

theorem dir_not_other (hd : d ∈ D) {x : ι} (hx : oth x = some f) : f ≠ d := by
  rintro rfl
  exact nomatch h.own.inj (.dir f) (.other x) f (refs_dir.2 ⟨hd, rfl⟩) hx

theorem table_not_other (hd : d ∈ D) (ht : s.IsTable d i t) {x : ι} (hx : oth x = some f) :
    f ≠ t := by
  rintro rfl
  exact nomatch h.own.inj (.tab d i) (.other x) f (refs_tab.2 ⟨hd, ht⟩) hx

omit h in
theorem same_of_quiet (hm : ∀ g, s.Kept D oth l g → s'.mem g = s.mem g) : Same D oth s s' := by
  have hpde : ∀ d ∈ D, s'.mem d = s.mem d := fun d hd => hm d (Or.inl (Or.inr (Or.inl hd)))
  refine ⟨fun d hd i _ => by rw [hpde d hd], fun d hd n => ?_, fun x f hx => hm f (Or.inr ⟨x, hx⟩)⟩
  unfold Phys.pteAt
  rw [hpde d hd]
  by_cases hp : present (s.mem d (pdx n)) = true
  · rw [if_pos hp, if_pos hp,
      hm _ (Or.inl (Or.inr (Or.inr ⟨d, hd, pdx n, pdx_lt n, hp, rfl⟩)))]
  · rw [if_neg hp, if_neg hp]

/-- Nothing changes as long as the content of directories, tables and free frames is kept. -/
theorem quiet (hm : ∀ g, s.Structural D l g → s'.mem g = s.mem g) (hf : s'.freelist = s.freelist) :
    Frames im R D oth P l s' where
  range := h.range
  chain := by
    rw [hf]
    exact h.chain.congr fun f hf => by rw [hm f (Or.inl hf)]
  nodup := h.nodup
  sub := h.sub
  own := by
    have hsame : Same D (fun _ : ι => none) s s' := same_of_quiet (l := l) fun g hg =>
      hm g (hg.resolve_right fun ⟨_, hx⟩ => nomatch hx)
    refine h.own.congr (fun p => ?_) (fun _ => Iff.rfl) fun _ => Iff.rfl
    cases p with
    | other x => rfl
    | dir d => exact refs_congr hsame (.dir d)
    | tab d i => exact refs_congr hsame (.tab d i)
    | page d n => exact refs_congr hsame (.page d n)

theorem quiet_setPage (hf : ¬s.Kept D oth l f) (c : Nat → Word) :
    Frames im R D oth P l (s.setPage f c) ∧ Same D oth s (s.setPage f c) := by
  have hm : ∀ g, s.Kept D oth l g → (s.setPage f c).mem g = s.mem g := by
    intro g hg
    have hne : g ≠ f := fun he => hf (he ▸ hg)
    exact Function.update_of_ne hne _ _
  exact ⟨h.quiet (fun g hg => hm g (Or.inl hg)) rfl, same_of_quiet hm⟩

/-! ## Allocation -/

theorem kalloc_nil (hl : l = []) : pointee s.freelist = none := by
  subst hl
  have hc : s.freelist = 0 := h.chain
  rw [hc]
  rfl

theorem kalloc_cons {l' : List Nat} (hl : l = f :: l') :
    pointee s.freelist = some f ∧
      Frames im R D oth (insert f P) l' { s with freelist := s.mem f 0 } := by
  subst hl
  have hfR : f ∈ R := h.sub f List.mem_cons_self
  have hfl : f ∉ l' := (List.nodup_cons.1 h.nodup).1
  refine ⟨by rw [h.chain.1, pointee_pointer (h.lt_of_mem hfR)], ?_⟩
  exact {
    range := h.range
    chain := h.chain.2
    nodup := (List.nodup_cons.1 h.nodup).2
    sub := fun g hg => h.sub g (List.mem_cons_of_mem f hg)
    own := (h.own.alloc (b := f) (by simp)).congr (fun _ => rfl)
      (fun g => by
        simp only [Set.mem_ofPred_eq, Set.mem_insert_iff, List.mem_cons]
        constructor
        · rintro ⟨hR, hl⟩
          by_cases hg : g = f
          · exact Or.inl hg
          · exact Or.inr ⟨hR, by rintro (rfl | h') <;> [exact hg rfl; exact hl h']⟩
        · rintro (rfl | ⟨hR, hl⟩)
          · exact ⟨hfR, hfl⟩
          · exact ⟨hR, fun h' => hl (Or.inr h')⟩)
      fun _ => Iff.rfl }

omit h in
theorem same_freed (hf : ¬s.Kept D oth l f) : Same D oth s (s.freed f) := by
  refine same_of_quiet (l := l) fun g hg => ?_
  have hne : g ≠ f := fun he => hf (he ▸ hg)
  exact s.freed_mem hne

theorem kfree (hf : f ∈ P) : Frames im R D oth (P \ {f}) (f :: l) (s.freed f) where
  range := h.range
  chain := h.chain.freed (h.pending_mem hf).2
  nodup := List.nodup_cons.2 ⟨(h.pending_mem hf).2, h.nodup⟩
  sub g hg := by
    rcases List.mem_cons.1 hg with rfl | hg
    · exact (h.pending_mem hf).1
    · exact h.sub g hg
  own := (h.own.free hf).congr (refs_congr (same_freed (h.pending_not_kept hf)))
    (fun g => by
      simp only [Set.mem_ofPred_eq, Set.mem_sdiff, Set.mem_singleton_iff, List.mem_cons]
      tauto)
    fun _ => Iff.rfl

/-! ## A new directory, a new table -/

/-- A cleared page becomes a directory. -/
theorem addDir (hf : f ∈ P) (hz : ∀ i < NPDENTRIES, present (s.mem f i) = false) :
    Frames im R (insert f D) oth (P \ {f}) l s where
  range := h.range
  chain := h.chain
  nodup := h.nodup
  sub := h.sub
  own := by
    have hfD : f ∉ D := fun hD => h.dir_not_pending hD hf
    have hz' : ∀ n, present (s.pteAt f n) = false := fun n => by
      rw [Phys.pteAt_of_absent (hz _ (pdx_lt n)), present_zero]
    refine h.own.attach hf (i := .dir f) (by simp [Phys.refs, hfD]) (by simp [Phys.refs]) ?_
    intro p hp
    refine Option.ext fun g => ?_
    cases p with
    | dir d =>
      have hd : d ≠ f := fun he => hp (by rw [he])
      simp [refs_dir, hd]
    | tab d i =>
      by_cases hd : d = f
      · subst hd
        simp only [refs_tab, Phys.IsTable]
        constructor <;> rintro ⟨-, hi, hp, -⟩ <;> simp [hz i hi] at hp
      · simp [refs_tab, hd]
    | page d n =>
      by_cases hd : d = f
      · simp [refs_page, hd, hz']
      · simp [refs_page, hd]
    | other x => rfl

theorem addTable_pte (hd : d ∈ D) (habs : present (s.mem d i) = false)
    (ht : t ∈ P) (hz : ∀ j < 1024, s.mem t j = 0) (hw : present w = true) (hwt : frame w = t)
    {d' : Nat} (hd' : d' ∈ D) (n : Nat) : (s.setWord d i w).pteAt d' n = s.pteAt d' n :=
  h.tables.addTable_pte hd habs (fun hD => h.dir_not_pending hD ht) hz hw hwt hd' n

theorem addTable (hd : d ∈ D) (hi : i < NPDENTRIES) (habs : present (s.mem d i) = false)
    (ht : t ∈ P) (hz : ∀ j < 1024, s.mem t j = 0) (hw : present w = true) (hwt : frame w = t) :
    Frames im R D oth (P \ {t}) l (s.setWord d i w) where
  range := h.range
  chain := h.chain.congr fun g hg => by
    have hne : g ≠ d := fun he => (h.dir_mem hd).2 (he ▸ hg)
    rw [Phys.setWord_ne _ _ _ hne]
  nodup := h.nodup
  sub := h.sub
  own := by
    refine h.own.attach ht (i := .tab d i) (by simp [Phys.refs, habs]) ?_ ?_
    · rw [refs_tab]
      exact ⟨hd, hi, by rw [Phys.setWord_self]; exact ⟨hw, hwt⟩⟩
    · intro p hp
      refine Option.ext fun g => ?_
      cases p with
      | dir d' => rfl
      | tab d' i' =>
        have hpde : (s.setWord d i w).mem d' i' = s.mem d' i' := by
          by_cases hdd : d' = d
          · subst hdd
            rw [Phys.setWord_index _ _ _ fun he => hp (by rw [he])]
          · rw [Phys.setWord_ne _ _ _ hdd]
        rw [refs_tab, refs_tab, Phys.IsTable, Phys.IsTable, hpde]
      | page d' n =>
        rw [refs_page, refs_page]
        constructor <;> rintro ⟨hd', hn, hp⟩ <;> refine ⟨hd', hn, ?_⟩
        · rwa [← h.addTable_pte hd habs ht hz hw hwt hd']
        · rwa [h.addTable_pte hd habs ht hz hw hwt hd']
      | other x => rfl

end Frames

/-! ## A PTE changes -/

/-- Number of pages of an address space. -/
abbrev NPAGES : Nat := 2 ^ 20

structure SetPte (D : Set Nat) (oth : ι → Option Nat) (d n : Nat) (w : Word) (s s' : Phys) :
    Prop where
  self : s'.pteAt d n = w
  pte : ∀ d' ∈ D, ∀ m < NPAGES, d' ≠ d ∨ m ≠ n → s'.pteAt d' m = s.pteAt d' m
  pde : ∀ d' ∈ D, ∀ i < NPDENTRIES, s'.mem d' i = s.mem d' i
  mem : ∀ x f, oth x = some f → s'.mem f = s.mem f

namespace Frames

variable (h : Frames im R D oth P l s) (hd : d ∈ D) (hn : n < NPAGES)
  (ht : s.IsTable d (pdx n) t)
include h hd hn ht

theorem setPte_view (w : Word) : SetPte D oth d n w s (s.setWord t (ptx n) w) :=
  ⟨h.tables.setPte_self hd ht w, fun _ hd' _ hm hne => h.tables.setPte_ne hd hn ht w hd' hm hne,
    fun _ hd' i _ => congrFun (h.tables.setPte_dir hd ht hd' _ w) i,
    fun _ _ hx => Phys.setWord_ne _ _ _ (h.table_not_other hd ht hx)⟩

theorem setPte_refs (w : Word) {p : Place ι} (hp : p ≠ .page d n) :
    (s.setWord t (ptx n) w).refs D oth p = s.refs D oth p := by
  have hv := h.setPte_view hd hn ht w
  refine Option.ext fun g => ?_
  cases p with
  | dir d' => rfl
  | tab d' i =>
    rw [refs_tab, refs_tab, Phys.IsTable, Phys.IsTable]
    constructor <;> rintro ⟨hd', hi, hp⟩ <;> refine ⟨hd', hi, ?_⟩
    · rwa [← hv.pde d' hd' i hi]
    · rwa [hv.pde d' hd' i hi]
  | page d' m =>
    have hne : d' ≠ d ∨ m ≠ n := by
      by_cases hdd : d' = d
      · exact Or.inr fun he => hp (by rw [hdd, he])
      · exact Or.inl hdd
    have hlt : m < USERPAGES → m < NPAGES := fun h' => by
      simp only [USERPAGES, KERNBASE, PGSIZE, NPAGES] at *
      omega
    rw [refs_page, refs_page]
    constructor <;> rintro ⟨hd', hm, hp⟩ <;> refine ⟨hd', hm, ?_⟩
    · rwa [← hv.pte d' hd' m (hlt hm) hne]
    · rwa [hv.pte d' hd' m (hlt hm) hne]
  | other x => rfl

omit hn in
/-- Writing to a table keeps all but the owners. -/
theorem setPte_of_own {Q : Set Nat} (w : Word)
    (hown : Owns ((s.setWord t (ptx n) w).refs D oth) {f | f ∈ R ∧ f ∉ l} Q) :
    Frames im R D oth Q l (s.setWord t (ptx n) w) where
  range := h.range
  chain := h.chain.congr fun g hg => by
    have hne : g ≠ t := fun he => (h.table_mem hd ht).2 (he ▸ hg)
    rw [Phys.setWord_ne _ _ _ hne]
  nodup := h.nodup
  sub := h.sub
  own := hown

theorem setPte_attach (hu : n < USERPAGES) (habs : present (s.pteAt d n) = false) (hf : f ∈ P)
    (hw : present w = true) (hwf : frame w = f) :
    Frames im R D oth (P \ {f}) l (s.setWord t (ptx n) w) := by
  refine h.setPte_of_own hd ht w ?_
  refine h.own.attach hf (i := .page d n) (refs_page_none habs) ?_
    fun p hp => h.setPte_refs hd hn ht w hp
  rw [refs_page, (h.setPte_view hd hn ht w).self]
  exact ⟨hd, hu, hw, hwf⟩

/-- What a table maps above `KERNBASE` has no owner here. -/
theorem setPte_kernel (hk : USERPAGES ≤ n) : Frames im R D oth P l (s.setWord t (ptx n) w) := by
  refine h.setPte_of_own hd ht w (h.own.congr (fun p => ?_) (fun _ => Iff.rfl) fun _ => Iff.rfl)
  by_cases hp : p = .page d n
  · subst hp
    simp [Phys.refs, Nat.not_lt.2 hk]
  · exact h.setPte_refs hd hn ht w hp

theorem setPte_flags (hw : present w = present (s.pteAt d n))
    (hwf : frame w = frame (s.pteAt d n)) : Frames im R D oth P l (s.setWord t (ptx n) w) := by
  refine h.setPte_of_own hd ht w (h.own.congr (fun p => ?_) (fun _ => Iff.rfl) fun _ => Iff.rfl)
  by_cases hp : p = .page d n
  · subst hp
    refine Option.ext fun g => ?_
    rw [refs_page, refs_page, (h.setPte_view hd hn ht w).self, hw, hwf]
  · exact h.setPte_refs hd hn ht w hp

theorem setPte_detach (hu : n < USERPAGES) (hp : present (s.pteAt d n) = true) :
    Frames im R D oth (P ∪ {frame (s.pteAt d n)}) l (s.setWord t (ptx n) 0) := by
  refine h.setPte_of_own hd ht 0 ?_
  have hv := h.setPte_view hd hn ht 0
  refine (h.own.detach (S := {.page d n}) (fun p hpS => ?_)
    fun p hpS => h.setPte_refs hd hn ht 0 hpS).congr (fun _ => rfl) (fun _ => Iff.rfl) fun g => ?_
  · rw [Set.mem_singleton_iff.1 hpS]
    exact refs_page_none (by rw [hv.self, present_zero])
  · have href : s.refs D oth (.page d n) = some (frame (s.pteAt d n)) := refs_page.2 ⟨hd, hu, hp, rfl⟩
    simp [href, eq_comm]

end Frames

namespace Frames

variable (h : Frames im R D oth P l s)
include h

theorem dropOther {x : ι} (oth' : ι → Option Nat) (hx : oth x = some f) (hx' : oth' x = none)
    (hne : ∀ y, y ≠ x → oth' y = oth y) : Frames im R D oth' (insert f P) l s where
  range := h.range
  chain := h.chain
  nodup := h.nodup
  sub := h.sub
  own := by
    refine (h.own.detach (S := {.other x}) ?_ ?_ : Owns (s.refs D oth') _ _).congr (fun _ => rfl)
      (fun _ => Iff.rfl) fun g => ?_
    · rintro p rfl
      exact hx'
    · intro p hp
      cases p with
      | dir d => rfl
      | tab d i => rfl
      | page d n => rfl
      | other y => exact hne y fun he => hp (by rw [he]; rfl)
    · have href : s.refs D oth (.other x) = some f := hx
      simp [href, Set.mem_insert_iff, eq_comm]

theorem addOther {x : ι} (oth' : ι → Option Nat) (hf : f ∈ P) (hx : oth x = none)
    (hx' : oth' x = some f) (hne : ∀ y, y ≠ x → oth' y = oth y) :
    Frames im R D oth' (P \ {f}) l s where
  range := h.range
  chain := h.chain
  nodup := h.nodup
  sub := h.sub
  own := h.own.attach hf (i := .other x) hx hx' fun p hp => by
    cases p with
    | dir d => rfl
    | tab d i => rfl
    | page d n => rfl
    | other y => exact hne y fun he => hp (by rw [he])

/-- A directory without user pages is given up: it and its tables are on their way. -/
theorem dropDir (hd : d ∈ D) (hu : ∀ n < USERPAGES, present (s.pteAt d n) = false) :
    Frames im R (D \ {d}) oth (P ∪ {f | f = d ∨ ∃ i, s.IsTable d i f}) l s where
  range := h.range
  chain := h.chain
  nodup := h.nodup
  sub := h.sub
  own := by
    let S : Set (Place ι) := {p | p = .dir d ∨ ∃ i, p = .tab d i}
    refine (h.own.detach (S := S) ?_ ?_ : Owns (s.refs (D \ {d}) oth) _ _).congr (fun _ => rfl)
      (fun _ => Iff.rfl) fun g => ?_
    · rintro p (rfl | ⟨i, rfl⟩) <;> simp [Phys.refs]
    · intro p hp
      refine Option.ext fun g => ?_
      cases p with
      | dir d' =>
        have hdd : d' ≠ d := fun he => hp (Or.inl (by rw [he]))
        simp [refs_dir, hdd]
      | tab d' i =>
        have hdd : d' ≠ d := fun he => hp (Or.inr ⟨i, by rw [he]⟩)
        simp [refs_tab, hdd]
      | page d' n =>
        by_cases hdd : d' = d
        · subst hdd
          simp only [refs_page]
          constructor
          · rintro ⟨⟨_, hne⟩, -⟩
            exact absurd rfl hne
          · rintro ⟨-, hn, hp, -⟩
            simp [hu n hn] at hp
        · simp [refs_page, hdd]
      | other x => rfl
    · simp only [Set.mem_union, Set.mem_ofPred_eq]
      refine or_congr Iff.rfl ⟨?_, ?_⟩
      · rintro (rfl | ⟨i, ht⟩)
        · exact ⟨.dir g, Or.inl rfl, refs_dir.2 ⟨hd, rfl⟩⟩
        · exact ⟨.tab d i, Or.inr ⟨i, rfl⟩, refs_tab.2 ⟨hd, ht⟩⟩
      · rintro ⟨p, rfl | ⟨i, rfl⟩, hp⟩
        · exact Or.inl (refs_dir.1 hp).2.symm
        · exact Or.inr ⟨i, (refs_tab.1 hp).2⟩

end Frames

end Xv6.Vm
