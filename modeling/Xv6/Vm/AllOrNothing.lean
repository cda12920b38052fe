import Xv6.Vm.AddressMap

/-!
# `allocuvm` and `deallocuvm`

`allocuvm` maps all the pages it is asked for or none, and `deallocuvm` takes back what it mapped.  The
rules for both say what happens to the directory; what happens to the free list follows from
`Frames` before and after, since every frame is free or has one owner: where a directory has got more
tables and pages and lost none, the frames of these come from the free list (`Enlarges.free_iff`).
-/

namespace Xv6.Vm

open Bytes Conc Prog

variable {ι : Type} {im : KernelImage} {R D P : Set Nat} {oth : ι → Option Nat} {l l' : List Nat}
  {s s' s'' : Phys} {d n f i oldsz newsz : Nat}

/-! ## Where frames come from -/

/-- The directory `d` has got more tables and user pages, and lost none. -/
structure Enlarges (D : Set Nat) (oth : ι → Option Nat) (d : Nat) (s s' : Phys) : Prop where
  same : Same (D \ {d}) oth s s'
  tables : ∀ i < NPDENTRIES, present (s.mem d i) = true → s'.mem d i = s.mem d i
  pages : ∀ n < USERPAGES, present (s.pteAt d n) = true → s'.pteAt d n = s.pteAt d n

/-- A frame that was free and has become a table or a page of `d`. -/
def Joined (d : Nat) (s s' : Phys) (f : Nat) : Prop :=
  (∃ i, present (s.mem d i) = false ∧ s'.IsTable d i f) ∨
    ∃ n < USERPAGES, present (s.pteAt d n) = false ∧ present (s'.pteAt d n) = true ∧ frame (s'.pteAt d n) = f

namespace Enlarges

variable (he : Enlarges D oth d s s')
include he

theorem refs (x : Place ι) (f : Nat) (hx : s.refs D oth x = some f) : s'.refs D oth x = some f := by
  cases x with
  | dir d' => exact hx
  | other x => exact hx
  | tab d' i =>
    obtain ⟨hd', hi, hp, hf⟩ := refs_tab.1 hx
    refine refs_tab.2 ⟨hd', hi, ?_⟩
    by_cases hdd : d' = d
    · rw [hdd] at hp hf ⊢
      rw [he.tables i hi hp]
      exact ⟨hp, hf⟩
    · rw [he.same.pde d' ⟨hd', hdd⟩ i hi]
      exact ⟨hp, hf⟩
  | page d' n =>
    obtain ⟨hd', hn, hp, hf⟩ := refs_page.1 hx
    refine refs_page.2 ⟨hd', hn, ?_⟩
    by_cases hdd : d' = d
    · rw [hdd] at hp hf ⊢
      rw [he.pages n hn hp]
      exact ⟨hp, hf⟩
    · rw [he.same.pte d' ⟨hd', hdd⟩ n]
      exact ⟨hp, hf⟩

/-- The new references are those of new tables and pages. -/
theorem joined_iff (hd : d ∈ D) (f : Nat) :
    (∃ x, s.refs D oth x = none ∧ s'.refs D oth x = some f) ↔ Joined d s s' f := by
  constructor
  · rintro ⟨x, hx, hx'⟩
    cases x with
    | dir d' =>
      rw [show s.refs D oth (.dir d') = some f from hx'] at hx
      cases hx
    | other x =>
      rw [show s.refs D oth (.other x) = some f from hx'] at hx
      cases hx
    | tab d' i =>
      obtain ⟨hd', ht⟩ := refs_tab.1 hx'
      have hno : ¬s.IsTable d' i f := fun h => by
        rw [refs_tab.2 ⟨hd', h⟩] at hx
        cases hx
      by_cases hdd : d' = d
      · subst hdd
        refine Or.inl ⟨i, Bool.eq_false_iff.2 fun hp => hno ?_, ht⟩
        have heq := he.tables i ht.1 hp
        exact ⟨ht.1, hp, heq ▸ ht.2.2⟩
      · refine absurd ⟨ht.1, ?_⟩ hno
        rw [← he.same.pde d' ⟨hd', hdd⟩ i ht.1]
        exact ht.2
    | page d' n =>
      obtain ⟨hd', hn, hp', hf⟩ := refs_page.1 hx'
      have hno : ¬(present (s.pteAt d' n) = true ∧ frame (s.pteAt d' n) = f) := fun h => by
        rw [refs_page.2 ⟨hd', hn, h⟩] at hx
        cases hx
      by_cases hdd : d' = d
      · subst hdd
        refine Or.inr ⟨n, hn, Bool.eq_false_iff.2 fun hp => hno ⟨hp, ?_⟩, hp', hf⟩
        rw [← he.pages n hn hp, hf]
      · rw [he.same.pte d' ⟨hd', hdd⟩ n] at hp' hf
        exact absurd ⟨hp', hf⟩ hno
  · rintro (⟨i, hp, ht⟩ | ⟨n, hn, hp, hp', hf⟩)
    · refine ⟨.tab d i, ?_, refs_tab.2 ⟨hd, ht⟩⟩
      simp [Phys.refs, hp]
    · exact ⟨.page d n, refs_page_none hp, refs_page.2 ⟨hd, hn, hp', hf⟩⟩

theorem free_iff (h : Frames im R D oth P l s) (h' : Frames im R D oth P l' s') (hd : d ∈ D) (f : Nat) :
    f ∈ l ↔ f ∈ l' ∨ Joined d s s' f := by
  have hgrow := h.own.grow h'.own he.refs f
  rw [he.joined_iff hd] at hgrow
  have hfresh : Joined d s s' f → ¬(f ∈ R ∧ f ∉ l) := fun hj => by
    obtain ⟨x, hx, hx'⟩ := (he.joined_iff hd f).2 hj
    exact h.own.fresh h'.own he.refs hx hx'
  constructor
  · intro hl
    by_cases hl' : f ∈ l'
    · exact Or.inl hl'
    · exact Or.inr ((hgrow.1 ⟨h.sub f hl, hl'⟩).resolve_left fun hu => hu.2 hl)
  · rintro (hl' | hj)
    · by_contra hl
      exact (hgrow.2 (Or.inl ⟨h'.sub f hl', hl⟩)).2 hl'
    · by_contra hl
      exact hfresh hj ⟨(hgrow.2 (Or.inr hj)).1, hl⟩

end Enlarges

/-! ## `allocuvm` -/

def InRange (oldsz newsz n : Nat) : Prop := pageUp oldsz ≤ n ∧ n < pageUp newsz

theorem InRange.lt (hr : InRange oldsz newsz n) (hnew : newsz < KERNBASE) : n < USERPAGES :=
  lt_userpages (lt_pageUp_iff.1 hr.2) hnew.le

theorem outside_of_not (hr : ¬InRange oldsz newsz n) : n < pageUp oldsz ∨ newsz ≤ n * PGSIZE := by
  by_contra hno
  push Not at hno
  exact hr ⟨hno.1, lt_pageUp_iff.2 hno.2⟩

theorem MapsUpto.absent (hmap : MapsUpto s d oldsz) (hr : InRange oldsz newsz n) (hnew : newsz < KERNBASE) :
    present (s.pteAt d n) = false := by
  refine Bool.eq_false_iff.2 fun hp => ?_
  have hlt := (hmap n (hr.lt hnew)).1 hp
  have := le_pageUp_iff.1 hr.1
  omega

theorem Remaps.enlarges (h : Remaps D oth d (pageUp oldsz) newsz s s') (hmap : MapsUpto s d oldsz)
    (hnew : newsz < KERNBASE) : Enlarges D oth d s s' := by
  refine ⟨h.same, h.tables, fun n hn hp => h.outside n (hn.trans (by decide)) (outside_of_not fun hr => ?_)⟩
  rw [hmap.absent hr hnew] at hp
  cases hp

/-- The pages in range are there, in frames that were free; the other pages are as they were. -/
structure Extended (d oldsz newsz : Nat) (l l' : List Nat) (s s' : Phys) : Prop where
  outside : ∀ n < NPAGES, ¬InRange oldsz newsz n → s'.addressMap d n = s.addressMap d n
  mapped : ∀ n, InRange oldsz newsz n → ∃ f ∈ l,
    s'.addressMap d n = some (f, PTE_W ||| PTE_U ||| PTE_P) ∧ s'.mem f = fun _ => 0
  distinct : ∀ n m, InRange oldsz newsz n → InRange oldsz newsz m →
    frame (s'.pteAt d n) = frame (s'.pteAt d m) → n = m
  content : ∀ n < USERPAGES, present (s.pteAt d n) = true →
    s'.mem (frame (s.pteAt d n)) = s.mem (frame (s.pteAt d n))
  free : ∀ f, f ∈ l ↔ f ∈ l' ∨ Joined d s s' f

theorem AllocDone.grown (h : Frames im R D oth P l s) (hd : d ∈ D) (hmap : MapsUpto s d oldsz)
    (hnew : newsz < KERNBASE) (h' : Frames im R D oth P l' s')
    (hdone : AllocDone D oth d (pageUp oldsz) newsz s s') : Extended d oldsz newsz l l' s s' := by
  have he := hdone.remaps.enlarges hmap hnew
  have hpr : ∀ n, InRange oldsz newsz n → Vm.present (s'.pteAt d n) = true := fun n hr =>
    hdone.present n hr.1 (lt_pageUp_iff.1 hr.2)
  refine ⟨fun n hn hr => addressMap_congr (hdone.remaps.outside n hn (outside_of_not hr)), fun n hr => ?_,
    fun n m hn hm hf => ?_, fun n hn hp => hdone.kept _ ⟨d, hd, n, hn, hp, rfl⟩, he.free_iff h h' hd⟩
  · have hlt := lt_pageUp_iff.1 hr.2
    obtain ⟨f, hf⟩ := hdone.mapped n hr.1 hlt
    refine ⟨frame (s'.pteAt d n), ?_, ?_, hdone.zero n hr.1 hlt⟩
    · exact (he.free_iff h h' hd _).2 (Or.inr (Or.inr ⟨n, hr.lt hnew, hmap.absent hr hnew, hpr n hr, rfl⟩))
    · rw [Phys.addressMap, if_pos (hpr n hr), hf, flags_entry f (by decide)]
  · have hsame := h'.own.inj (.page d n) (.page d m) (frame (s'.pteAt d m))
      (refs_page.2 ⟨hd, hn.lt hnew, hpr n hn, hf⟩) (refs_page.2 ⟨hd, hm.lt hnew, hpr m hm, rfl⟩)
    injection hsame

/-- The pages are as they were, and what is gone from the free list are tables. -/
structure GaveUp (d : Nat) (l l' : List Nat) (s s' : Phys) : Prop where
  map : ∀ n < NPAGES, s'.addressMap d n = s.addressMap d n
  nodup : l'.Nodup
  free : ∀ f, f ∈ l ↔ f ∈ l' ∨ ∃ i, present (s.mem d i) = false ∧ s'.IsTable d i f

theorem AllocFails.gaveUp (h : Frames im R D oth P l s) (hd : d ∈ D) (hmap : MapsUpto s d oldsz)
    (hnew : newsz < KERNBASE) (h' : Frames im R D oth P l' s')
    (hfail : AllocFails D oth d (pageUp oldsz) newsz s s') : GaveUp d l l' s s' := by
  have he := hfail.remaps.enlarges hmap hnew
  refine ⟨fun n hn => ?_, h'.nodup, fun f => ?_⟩
  · by_cases hr : InRange oldsz newsz n
    · rw [addressMap_eq_none.2 (hmap.absent hr hnew),
        addressMap_eq_none.2 (hfail.absent n hr.1 (lt_pageUp_iff.1 hr.2))]
    · exact addressMap_congr (hfail.remaps.outside n hn (outside_of_not hr))
  · rw [he.free_iff h h' hd f]
    refine or_congr_right ⟨fun hj => hj.resolve_right ?_, Or.inl⟩
    rintro ⟨n, hn, hp, hp', -⟩
    by_cases hr : InRange oldsz newsz n
    · rw [hfail.absent n hr.1 (lt_pageUp_iff.1 hr.2)] at hp'
      cases hp'
    · rw [hfail.remaps.outside n (hn.trans (by decide)) (outside_of_not hr), hp] at hp'
      cases hp'

/-! ## `deallocuvm` -/

/-- The pages in range are gone, and their frames are free. -/
structure Shrunk (d oldsz newsz : Nat) (l l' : List Nat) (s s' : Phys) : Prop where
  outside : ∀ n < NPAGES, ¬InRange newsz oldsz n → s'.addressMap d n = s.addressMap d n
  inside : ∀ n, InRange newsz oldsz n → s'.addressMap d n = none
  nodup : l'.Nodup
  free : ∀ f, f ∈ l' ↔ f ∈ l ∨ ∃ n, InRange newsz oldsz n ∧ present (s.pteAt d n) = true ∧ frame (s.pteAt d n) = f

theorem Same.symm (h : Same D oth s s') : Same D oth s' s :=
  ⟨fun d hd i hi => (h.pde d hd i hi).symm, fun d hd n => (h.pte d hd n).symm,
    fun x f hx => (h.mem x f hx).symm⟩

theorem Unmaps.shrunk (h : Frames im R D oth P l s) (hd : d ∈ D) (hold : oldsz ≤ KERNBASE)
    (h' : Frames im R D oth P l' s') (hu : Unmaps D oth d (pageUp newsz) oldsz s s') :
    Shrunk d oldsz newsz l l' s s' := by
  have habs : ∀ n, InRange newsz oldsz n → present (s'.pteAt d n) = false := fun n hr =>
    hu.inside n hr.1 (lt_pageUp_iff.1 hr.2)
  have hout : ∀ n < NPAGES, ¬InRange newsz oldsz n → s'.pteAt d n = s.pteAt d n := fun n hn hr =>
    hu.outside n hn (outside_of_not hr)
  have he : Enlarges D oth d s' s := by
    refine ⟨hu.same.symm, fun i hi _ => (hu.pde i hi).symm, fun n hn hp =>
      (hout n (hn.trans (by decide)) fun hr => ?_).symm⟩
    rw [habs n hr] at hp
    cases hp
  refine ⟨fun n hn hr => addressMap_congr (hout n hn hr), fun n hr => addressMap_eq_none.2 (habs n hr),
    h'.nodup, fun f => ?_⟩
  rw [he.free_iff h' h hd f]
  refine or_congr_right ⟨?_, ?_⟩
  · rintro (⟨i, hp, hi, hp', -⟩ | ⟨n, hn, hp, hp', hf⟩)
    · rw [hu.pde i hi, hp'] at hp
      cases hp
    · refine ⟨n, ?_, hp', hf⟩
      by_contra hr
      rw [hout n (hn.trans (by decide)) hr, hp'] at hp
      cases hp
  · rintro ⟨n, hr, hp', hf⟩
    exact Or.inr ⟨n, lt_userpages (lt_pageUp_iff.1 hr.2) hold, habs n hr, hp', hf⟩

theorem deallocuvm_shrinks (h : Frames im R D oth P l s) (hd : d ∈ D) (hold : oldsz ≤ KERNBASE)
    (hle : newsz ≤ oldsz) :
    ∃ s' l', (deallocuvm im d oldsz newsz).run s = .ok newsz s' ∧ Frames im R D oth P l' s' ∧
      Shrunk d oldsz newsz l l' s s' := by
  have hw : wp (fun _ => False) (deallocuvm im d oldsz newsz) (fun r s' => r = newsz ∧
      ∃ l', Frames im R D oth P l' s' ∧ Shrunk d oldsz newsz l l' s s') s := by
    refine wp_deallocuvm h hd hold (fun hge => ?_) fun _ l' s' h' hu _ => ⟨rfl, l', h', hu.shrunk h hd hold h'⟩
    obtain rfl : oldsz = newsz := by omega
    have hno : ∀ n, ¬InRange oldsz oldsz n := fun n hr => absurd hr.1 (Nat.not_le_of_lt hr.2)
    refine ⟨rfl, l, h, fun _ _ _ => rfl, fun n hr => absurd hr (hno n), h.nodup, fun f => ?_⟩
    exact ⟨Or.inl, fun hf => hf.resolve_right fun ⟨n, hr, _⟩ => hno n hr⟩
  obtain ⟨r, s', hrun, rfl, l', h', hs⟩ := wp_returns hw
  exact ⟨s', l', hrun, h', hs⟩

theorem deallocuvm_looks (im : KernelImage) (d : Nat) {fuel : Nat} (hlt : newsz < oldsz) (hold : oldsz ≤ KERNBASE)
    (hfuel : pageUp oldsz - pageUp newsz < fuel) (s : Phys) :
    (deallocuvmLoop im fuel d oldsz newsz).run s =
        ((unmapPages im d (pageUp newsz) (pageUp oldsz - pageUp newsz)).run s).bind
          (fun _ s' => .ok (some newsz) s') ∧
      (deallocuvm im d oldsz newsz).run s =
        ((unmapPages im d (pageUp newsz) (pageUp oldsz - pageUp newsz)).run s).bind
          fun _ s' => .ok newsz s' := by
  have hge : ¬newsz ≥ oldsz := by omega
  have hstart : pageUp newsz ≤ USERPAGES := by
    rw [le_pageUp_iff]
    exact (hlt.trans_le hold).le
  have hends : ∀ fuel, pageUp oldsz - pageUp newsz ≤ fuel → oldsz ≤ (pageUp newsz + fuel) * PGSIZE :=
    fun fuel h => le_pageUp_iff.1 (by omega)
  constructor
  · unfold deallocuvmLoop
    rw [if_neg hge, run_bind, PGROUNDUP, deallocLoop_eq hold hstart hfuel, deallocFrom_eq (hends fuel hfuel.le)]
    cases (unmapPages im d (pageUp newsz) (pageUp oldsz - pageUp newsz)).run s <;> rfl
  · unfold deallocuvm
    rw [if_neg hge, run_bind, deallocFrom_eq (hends _ ?_)]
    · rfl
    · simp only [pageUp, PGSIZE]
      omega

/-! ## Both together -/

/-- `deallocuvm` takes back what `allocuvm` mapped. -/
theorem Extended.shrunk {l'' : List Nat} (hg : Extended d oldsz newsz l l' s s')
    (hs : Shrunk d newsz oldsz l' l'' s' s'') (hmap : MapsUpto s d oldsz) (hnew : newsz < KERNBASE) :
    (∀ n < NPAGES, s''.addressMap d n = s.addressMap d n) ∧
      ∀ f, f ∈ l'' ↔ f ∈ l' ∨ ∃ n, InRange oldsz newsz n ∧ frame (s'.pteAt d n) = f := by
  constructor
  · intro n hn
    by_cases hr : InRange oldsz newsz n
    · rw [hs.inside n hr, addressMap_eq_none.2 (hmap.absent hr hnew)]
    · rw [hs.outside n hn hr, hg.outside n hn hr]
  · intro f
    rw [hs.free f]
    refine or_congr_right (exists_congr fun n => and_congr_right fun hr => and_iff_right_of_imp fun _ => ?_)
    obtain ⟨g, -, hm, -⟩ := hg.mapped n hr
    by_contra hno
    rw [addressMap_eq_none.2 (Bool.eq_false_iff.2 hno)] at hm
    cases hm

theorem allocuvm_grows (h : Frames im R D oth P l s) (hd : d ∈ D) (hmap : MapsUpto s d oldsz)
    (hle : oldsz ≤ newsz) (hnew : newsz < KERNBASE) :
    ∃ r s' l', (allocuvm im d oldsz newsz).run s = .ok r s' ∧ Frames im R D oth P l' s' ∧
      (r = newsz ∧ Extended d oldsz newsz l l' s s' ∨
        r = 0 ∧ GaveUp d l l' s s' ∧ l.length < framesFor s d (pageUp oldsz) (pageUp newsz)) := by
  have hw : wp (fun _ => False) (allocuvm im d oldsz newsz) (fun r s' => ∃ l', Frames im R D oth P l' s' ∧
      (r = newsz ∧ Extended d oldsz newsz l l' s s' ∨
        r = 0 ∧ GaveUp d l l' s s' ∧ l.length < framesFor s d (pageUp oldsz) (pageUp newsz))) s := by
    refine wp_allocuvm h hd (fun _ n hn hlt => hmap.absent ⟨hn, lt_pageUp_iff.2 hlt⟩ hnew)
      (fun hbig => absurd hnew (by omega)) (fun hless => absurd hle (by omega)) ?_ ?_
    · intro _ _ hshort l' s' h' hfail
      exact ⟨l', h', Or.inr ⟨rfl, hfail.gaveUp h hd hmap hnew h', hshort⟩⟩
    · intro _ _ l' s' h' hdone _
      exact ⟨l', h', Or.inl ⟨rfl, hdone.grown h hd hmap hnew h'⟩⟩
  obtain ⟨r, s', hrun, l', h'⟩ := wp_returns hw
  exact ⟨r, s', l', hrun, h'⟩

/-- `allocuvm` maps all the pages or none, and `deallocuvm` undoes what it did.  `deallocuvm` misses no page in
any memory, although it does not look at pages without a table. -/
theorem allocuvm_all_or_nothing :
    (∀ (ι : Type) (im : KernelImage) (R D : Set Nat) (oth : ι → Option Nat) (P : Set Nat) (l : List Nat) (s : Phys)
      (d oldsz newsz : Nat), Frames im R D oth P l s → d ∈ D → MapsUpto s d oldsz → oldsz ≤ newsz → 0 < newsz →
      newsz < KERNBASE →
      ∃ r s' l', (allocuvm im d oldsz newsz).run s = .ok r s' ∧ Frames im R D oth P l' s' ∧
        (r = newsz ∧ Extended d oldsz newsz l l' s s' ∧
            (∃ s'' l'', (deallocuvm im d newsz oldsz).run s' = .ok oldsz s'' ∧ Frames im R D oth P l'' s'' ∧
              (∀ n < NPAGES, s''.addressMap d n = s.addressMap d n) ∧
              ∀ f, f ∈ l'' ↔ f ∈ l' ∨ ∃ n, InRange oldsz newsz n ∧ frame (s'.pteAt d n) = f) ∨
          r = 0 ∧ GaveUp d l l' s s' ∧ l.length < framesFor s d (pageUp oldsz) (pageUp newsz))) ∧
    (∀ (ι : Type) (im : KernelImage) (R D : Set Nat) (oth : ι → Option Nat) (P : Set Nat) (l : List Nat) (s : Phys)
      (d oldsz newsz : Nat), Frames im R D oth P l s → d ∈ D → newsz < oldsz → oldsz ≤ KERNBASE →
      ∃ s' l', (deallocuvm im d oldsz newsz).run s = .ok newsz s' ∧ Frames im R D oth P l' s' ∧
        Shrunk d oldsz newsz l l' s s') ∧
    ∀ (im : KernelImage) (d oldsz newsz fuel : Nat) (s : Phys), newsz < oldsz → oldsz ≤ KERNBASE →
      pageUp oldsz - pageUp newsz < fuel →
      (deallocuvmLoop im fuel d oldsz newsz).run s =
          ((unmapPages im d (pageUp newsz) (pageUp oldsz - pageUp newsz)).run s).bind
            (fun _ s' => .ok (some newsz) s') ∧
        (deallocuvm im d oldsz newsz).run s =
          ((unmapPages im d (pageUp newsz) (pageUp oldsz - pageUp newsz)).run s).bind
            fun _ s' => .ok newsz s' := by
  refine ⟨?_, ?_, fun im d oldsz newsz fuel s hlt hold hfuel => deallocuvm_looks im d hlt hold hfuel s⟩
  · intro ι im R D oth P l s d oldsz newsz h hd hmap hle _ hnew
    obtain ⟨r, s', l', hrun, h', ⟨rfl, hg⟩ | hgave⟩ := allocuvm_grows h hd hmap hle hnew
    · obtain ⟨s'', l'', hrun', h'', hs⟩ := deallocuvm_shrinks h' hd hnew.le hle
      exact ⟨r, s', l', hrun, h', Or.inl ⟨rfl, hg, s'', l'', hrun', h'', hg.shrunk hs hmap hnew⟩⟩
    · exact ⟨r, s', l', hrun, h', Or.inr hgave⟩
  · intro ι im R D oth P l s d oldsz newsz h hd hlt hold
    exact deallocuvm_shrinks h hd hold hlt.le

/-- A memory in which the frames 300 and 301 are free and the others hold zeros. -/
def twoFree : Phys := ⟨fun f _ => if f = 300 then pointer (some 301) else 0, pointer (some 300)⟩

/-- A page and a table for it in an empty directory, and the page taken back. -/
theorem allocuvm_all_or_nothing_page : ∃ s' s'' l',
    (allocuvm ⟨264, 278, by decide, by decide, by decide⟩ 302 0 4096).run twoFree = .ok 4096 s' ∧
    Extended 302 0 4096 [300, 301] l' twoFree s' ∧
    (deallocuvm ⟨264, 278, by decide, by decide, by decide⟩ 302 4096 0).run s' = .ok 0 s'' ∧
    (deallocuvmLoop ⟨264, 278, by decide, by decide, by decide⟩ 2 302 4096 0).run s' = .ok (some 0) s'' := by
  let im : KernelImage := ⟨264, 278, by decide, by decide, by decide⟩
  have hz : ∀ i < NPDENTRIES, present (twoFree.mem 302 i) = false := fun _ _ => by
    show present (if 302 = 300 then pointer (some 301) else 0) = false
    decide
  have hmap : MapsUpto twoFree 302 0 := fun n _ => by
    rw [Phys.pteAt_of_absent (hz _ (pdx_lt n)), present_zero]
    simp
  have h : Frames im _ (insert 302 ∅) Empty.elim _ [300, 301] twoFree :=
    (Frames.ofChain (P := {302}) (by decide +kernel) (by decide) (by decide +kernel)
      (by rintro f rfl; decide) (by rintro f rfl; decide)).addDir rfl hz
  obtain ⟨r, s', l', hrun, -, ⟨rfl, hg, s'', l'', hrun', -⟩ | ⟨-, -, hshort⟩⟩ :=
    allocuvm_all_or_nothing.1 Empty im _ _ _ _ _ twoFree 302 0 4096 h (Set.mem_insert _ _) hmap (by decide)
      (by decide) (by decide)
  · obtain ⟨hloop, heq⟩ := allocuvm_all_or_nothing.2.2 im 302 4096 0 2 s' (by decide) (by decide) (by decide)
    refine ⟨s', s'', l', hrun, hg, hrun', ?_⟩
    rw [hrun'] at heq
    obtain ⟨_, _, hu, hok⟩ := Res.bind_eq_ok.1 heq.symm
    cases hok
    exact hloop.trans (by rw [hu]; rfl)
  · have := framesFor_le twoFree 302 (pageUp 0) (pageUp 4096)
    have hpages : 2 * (pageUp 4096 - pageUp 0) = 2 := by decide
    rw [List.length_cons, List.length_singleton] at hshort
    omega

end Xv6.Vm
