import Xv6.Vm.Frames

/-!
# Code that has directories to itself

Code that works on the directories of `A` only does not depend on the rest.  `Frames.isolate` hides the
rest: every other frame in use becomes an `other` place of its own, so that the rules say that its
content stays.  `Frames.rejoin` brings back what was hidden, next to the directories that the code has
by then.
-/

namespace Xv6.Vm

open Bytes Conc

variable {ι κ : Type} {im : KernelImage} {R A A' D D' P P' : Set Nat} {oth : ι → Option Nat}
  {oth' : κ → Option Nat} {l l' : List Nat} {s s' : Phys} {d f : Nat} {x : Place ι}

/-! ## Places of a directory -/

/-- The directory that a place belongs to. -/
def Place.dirOf : Place ι → Option Nat
  | .dir d => some d
  | .tab d _ => some d
  | .page d _ => some d
  | .other _ => none

/-- The same place of a directory, among others of another type. -/
def Place.recast : Place ι → Place κ → Place κ
  | .dir d, _ => .dir d
  | .tab d i, _ => .tab d i
  | .page d n, _ => .page d n
  | .other _, y => y

theorem refs_recast (hx : x.dirOf = some d) (hd : d ∈ D') (y : Place κ)
    (h : s.refs D oth x = some f) : s.refs D' oth' (x.recast y) = some f := by
  cases x with
  | dir d' =>
    cases hx
    exact refs_dir.2 ⟨hd, (refs_dir.1 h).2⟩
  | tab d' i =>
    cases hx
    exact refs_tab.2 ⟨hd, (refs_tab.1 h).2⟩
  | page d' n =>
    cases hx
    exact refs_page.2 ⟨hd, (refs_page.1 h).2⟩
  | other z => exact nomatch hx

theorem Place.dirOf_recast (y : Place κ) (hx : x.dirOf = some d) : (x.recast y).dirOf = some d := by
  cases x with
  | other z => exact nomatch hx
  | _ => exact hx

theorem Place.recast_inj {x' : Place ι} {y y' : Place κ} {d' : Nat} (hx : x.dirOf = some d)
    (hx' : x'.dirOf = some d') (h : x.recast y = x'.recast y') : x = x' := by
  cases x <;> cases x' <;> simp_all [Place.recast, Place.dirOf]

/-- A place of a directory refers to something only if the directory is there. -/
theorem mem_of_refs (hx : x.dirOf = some d) (h : s.refs D oth x = some f) : d ∈ D := by
  cases x with
  | dir d' =>
    cases hx
    exact (refs_dir.1 h).1
  | tab d' i =>
    cases hx
    exact (refs_tab.1 h).1
  | page d' n =>
    cases hx
    exact (refs_page.1 h).1
  | other z => exact nomatch hx

/-- A place refers to the same frame among other directories, if its own is there. -/
theorem refs_of_mem (h : s.refs D oth x = some f) (hd : ∀ d, x.dirOf = some d → d ∈ D') :
    s.refs D' oth x = some f := by
  cases x with
  | dir d => exact refs_dir.2 ⟨hd d rfl, (refs_dir.1 h).2⟩
  | tab d i => exact refs_tab.2 ⟨hd d rfl, (refs_tab.1 h).2⟩
  | page d n => exact refs_page.2 ⟨hd d rfl, (refs_page.1 h).2⟩
  | other z => exact h

/-! ## Sealed frames -/

/-- The frame is a directory of `A`, or a table or a page of one. -/
def Phys.Owned (s : Phys) (A : Set Nat) (f : Nat) : Prop :=
  ∃ x : Place Empty, s.refs A (fun _ => none) x = some f

theorem owned_of_refs (hx : x.dirOf = some d) (hd : d ∈ A) (h : s.refs D oth x = some f) :
    s.Owned A f := ⟨_, refs_recast hx hd (.dir 0) h⟩

theorem Phys.Owned.place (h : s.Owned A f) (hA : A ⊆ D) (oth : ι → Option Nat) :
    ∃ x d, x.dirOf = some d ∧ d ∈ A ∧ s.refs D oth x = some f := by
  obtain ⟨x, hx⟩ := h
  have hdir : ∃ d, x.dirOf = some d := by
    cases x with
    | other e => exact e.elim
    | _ => exact ⟨_, rfl⟩
  obtain ⟨d, hd⟩ := hdir
  have hdA := mem_of_refs hd hx
  exact ⟨x.recast (.dir 0), d, Place.dirOf_recast _ hd, hdA, refs_recast hd (hA hdA) _ hx⟩

open Classical in
/-- The frames in use, but for those of the directories of `A`. -/
noncomputable def Phys.sealed (s : Phys) (R A P : Set Nat) (l : List Nat) (f : Nat) : Option Nat :=
  if f ∈ R ∧ f ∉ l ∧ f ∉ P ∧ ¬s.Owned A f then some f else none

theorem sealed_iff {g : Nat} : s.sealed R A P l g = some f ↔
    g = f ∧ f ∈ R ∧ f ∉ l ∧ f ∉ P ∧ ¬s.Owned A f := by
  rw [Phys.sealed]
  split
  next h =>
    rw [Option.some.injEq]
    exact ⟨fun he => he ▸ ⟨rfl, h⟩, fun he => he.1⟩
  next h => exact ⟨nofun, fun he => absurd (he.1 ▸ he.2) h⟩

namespace Frames

variable (h : Frames im R D oth P l s)
include h

theorem sealed_of_refs (hA : A ⊆ D) (hx : s.refs (D \ A) oth x = some f) :
    s.sealed R A P l f = some f := by
  have hxD : s.refs D oth x = some f := refs_of_mem hx fun d hd => (mem_of_refs hd hx).1
  obtain ⟨hR, hl⟩ := h.own.used_of_ref hxD
  refine sealed_iff.2 ⟨rfl, hR, hl, h.own.not_pending _ _ hxD, fun how => ?_⟩
  obtain ⟨y, d, hd, hdA, hy⟩ := how.place hA oth
  have := h.own.inj _ _ _ hxD hy
  subst this
  exact (mem_of_refs hd hx).2 hdA

theorem refs_of_sealed (hf : s.sealed R A P l f = some f) : ∃ x, s.refs (D \ A) oth x = some f := by
  obtain ⟨-, hR, hl, hP, how⟩ := sealed_iff.1 hf
  obtain ⟨x, hx⟩ := ((h.own.used_iff f).1 ⟨hR, hl⟩).resolve_left hP
  exact ⟨x, refs_of_mem hx fun d hd => ⟨mem_of_refs hd hx, fun hdA => how (owned_of_refs hd hdA hx)⟩⟩

/-- While the sealed frames keep their content, nothing outside of `A` changes. -/
theorem same_of_sealed (hA : A ⊆ D) (hm : ∀ f, s.sealed R A P l f = some f → s'.mem f = s.mem f) :
    Same (D \ A) oth s s' := by
  have hpde : ∀ d ∈ D \ A, s'.mem d = s.mem d := fun d hd =>
    hm d (h.sealed_of_refs hA (refs_dir.2 ⟨hd, rfl⟩))
  refine ⟨fun d hd i _ => by rw [hpde d hd], fun d hd n => ?_, fun x f hx =>
    hm f (h.sealed_of_refs (x := .other x) hA hx)⟩
  rw [Phys.pteAt, Phys.pteAt, hpde d hd]
  by_cases hp : present (s.mem d (pdx n)) = true
  · rw [if_pos hp, if_pos hp, hm _ (h.sealed_of_refs hA (refs_tab.2 ⟨hd, pdx_lt n, hp, rfl⟩))]
  · rw [if_neg hp, if_neg hp]

open Classical in
theorem isolate (hA : A ⊆ D) : Frames im R A (s.sealed R A P l) P l s where
  range := h.range
  chain := h.chain
  nodup := h.nodup
  sub := h.sub
  own := by
    -- a sealed frame goes back to the place that refers to it
    let owner (f : Nat) : Place ι :=
      if hx : ∃ x, s.refs D oth x = some f then hx.choose else .dir 0
    have howner : ∀ f, s.sealed R A P l f = some f → s.refs D oth (owner f) = some f := by
      intro f hf
      obtain ⟨x, hx⟩ := h.refs_of_sealed hf
      have hex : ∃ x, s.refs D oth x = some f :=
        ⟨x, refs_of_mem hx fun d hd => (mem_of_refs hd hx).1⟩
      rw [show owner f = hex.choose from dif_pos hex]
      exact hex.choose_spec
    refine h.own.reindex (fun k => k.recast (match k with | .other f => owner f | _ => .dir 0))
      (fun k b hk => ?_) (fun x b hx => ?_) fun k k' b hk hk' he => ?_
    · cases k with
      | dir d => exact refs_recast rfl (hA (refs_dir.1 hk).1) _ hk
      | tab d i => exact refs_recast rfl (hA (refs_tab.1 hk).1) _ hk
      | page d n => exact refs_recast rfl (hA (refs_page.1 hk).1) _ hk
      | other f =>
        obtain ⟨rfl, hs⟩ := sealed_iff.1 hk
        exact howner f hk
    · by_cases how : s.Owned A b
      · obtain ⟨y, d, hd, hdA, hy⟩ := how.place (subset_refl A) (s.sealed R A P l)
        exact ⟨y, hy⟩
      · obtain ⟨hR, hl⟩ := h.own.used_of_ref hx
        exact ⟨.other b, sealed_iff.2 ⟨rfl, hR, hl, h.own.not_pending _ _ hx, how⟩⟩
    · -- a frame is sealed or belongs to `A`
      have hkind : ∀ {k : Place Nat}, s.refs A (s.sealed R A P l) k = some b →
          (∃ d, k.dirOf = some d ∧ s.Owned A b) ∨ k = .other b ∧ ¬s.Owned A b := by
        intro k hk
        cases k with
        | other f =>
          obtain ⟨rfl, -, -, -, how⟩ := sealed_iff.1 hk
          exact Or.inr ⟨rfl, how⟩
        | dir d => exact Or.inl ⟨d, rfl, owned_of_refs rfl (refs_dir.1 hk).1 hk⟩
        | tab d i => exact Or.inl ⟨d, rfl, owned_of_refs rfl (refs_tab.1 hk).1 hk⟩
        | page d n => exact Or.inl ⟨d, rfl, owned_of_refs rfl (refs_page.1 hk).1 hk⟩
      rcases hkind hk with ⟨d, hd, how⟩ | ⟨rfl, how⟩ <;> rcases hkind hk' with ⟨d', hd', how'⟩ | ⟨rfl, how'⟩
      · exact Place.recast_inj hd hd' he
      · exact absurd how how'
      · exact absurd how' how
      · rfl

open Classical in
theorem rejoin (hA : A ⊆ D) (h' : Frames im R A' (s.sealed R A P l) P' l' s')
    (hm : ∀ f, s.sealed R A P l f = some f → s'.mem f = s.mem f) :
    Frames im R (D \ A ∪ A') oth P' l' s' where
  range := h.range
  chain := h'.chain
  nodup := h'.nodup
  sub := h'.sub
  own := by
    have hsame : Same (D \ A) oth s s' := h.same_of_sealed hA hm
    let isNew (x : Place ι) : Prop := ∃ d ∈ A', x.dirOf = some d
    -- the places of the old directories refer to what they did
    have hold : ∀ {x b}, ¬isNew x → s'.refs (D \ A ∪ A') oth x = some b →
        s.refs (D \ A) oth x = some b := by
      intro x b hx hb
      rw [← refs_congr hsame]
      refine refs_of_mem hb fun d hd => (mem_of_refs hd hb).resolve_right fun hdA => hx ⟨d, hdA, hd⟩
    refine h'.own.reindex
      (fun x => if isNew x then x.recast (.dir 0) else .other ((s.refs D oth x).getD 0))
      (fun x b hx => ?_) (fun k b hk => ?_) fun x x' b hx hx' he => ?_
    · by_cases hnew : isNew x
      · obtain ⟨d, hd, hxd⟩ := id hnew
        rw [if_pos hnew]
        exact refs_recast hxd hd _ hx
      · have hb := hold hnew hx
        have hbD : s.refs D oth x = some b := refs_of_mem hb fun d hd => (mem_of_refs hd hb).1
        rw [if_neg hnew, hbD]
        exact h.sealed_of_refs hA hb
    · have hnew : ∀ d, k.dirOf = some d → d ∈ A' → ∃ x, s'.refs (D \ A ∪ A') oth x = some b :=
        fun d hd hdA => ⟨k.recast (.dir 0), refs_recast hd (Or.inr hdA) _ hk⟩
      cases k with
      | other f =>
        obtain ⟨rfl, -⟩ := sealed_iff.1 hk
        obtain ⟨x, hx⟩ := h.refs_of_sealed hk
        rw [← refs_congr hsame] at hx
        exact ⟨x, refs_of_mem hx fun d hd => Or.inl (mem_of_refs hd hx)⟩
      | dir d => exact hnew d rfl (refs_dir.1 hk).1
      | tab d i => exact hnew d rfl (refs_tab.1 hk).1
      | page d n => exact hnew d rfl (refs_page.1 hk).1
    · by_cases hnew : isNew x <;> by_cases hnew' : isNew x'
      · obtain ⟨d, -, hd⟩ := id hnew
        obtain ⟨d', -, hd'⟩ := id hnew'
        rw [if_pos hnew, if_pos hnew'] at he
        exact Place.recast_inj hd hd' he
      · obtain ⟨d, -, hd⟩ := id hnew
        rw [if_pos hnew, if_neg hnew'] at he
        have := Place.dirOf_recast (.dir 0 : Place Nat) hd
        rw [he] at this
        exact nomatch this
      · obtain ⟨d', -, hd'⟩ := id hnew'
        rw [if_neg hnew, if_pos hnew'] at he
        have := Place.dirOf_recast (.dir 0 : Place Nat) hd'
        rw [← he] at this
        exact nomatch this
      · have hb := hold hnew hx
        have hb' := hold hnew' hx'
        exact h.own.inj _ _ b (refs_of_mem hb fun d hd => (mem_of_refs hd hb).1)
          (refs_of_mem hb' fun d hd => (mem_of_refs hd hb').1)

/-- Code that has none of the directories leaves them and their pages as they are. -/
theorem rejoin_all (h' : Frames im R A' (s.sealed R ∅ P l) P l' s')
    (hs' : Same ∅ (s.sealed R ∅ P l) s s') : Frames im R (D ∪ A') oth P l' s' ∧ Same D oth s s' ∧
      ∀ g, s.IsPage D g → s'.mem g = s.mem g := by
  have hA : (∅ : Set Nat) ⊆ D := Set.empty_subset D
  have hm : ∀ f, s.sealed R ∅ P l f = some f → s'.mem f = s.mem f := fun f hf => hs'.mem f f hf
  have hfr := h.rejoin hA h' hm
  have hsame := h.same_of_sealed hA hm
  rw [Set.sdiff_empty] at hfr hsame
  refine ⟨hfr, hsame, fun g ⟨d, hd, n, hn, hpr, hf⟩ => hm g ?_⟩
  exact h.sealed_of_refs (x := .page d n) hA (by
    rw [Set.sdiff_empty]
    exact refs_page.2 ⟨hd, hn, hpr, hf⟩)

/-- A directory that the code made was none of the hidden ones. -/
theorem notMem_of_isolated (h' : Frames im R A' (s.sealed R ∅ P l) P l' s') (hd : d ∈ A') : d ∉ D := by
  intro hdD
  have hx : s.sealed R ∅ P l d = some d := h.sealed_of_refs (x := .dir d) (Set.empty_subset D) (by
    rw [Set.sdiff_empty]
    exact refs_dir.2 ⟨hdD, rfl⟩)
  exact nomatch h'.own.inj (.dir d) (.other d) d (refs_dir.2 ⟨hd, rfl⟩) hx

theorem free_congr (h' : Frames im R D oth P l' s') (hs : Same D oth s s') (f : Nat) :
    f ∈ l' ↔ f ∈ l := by
  have hiff : f ∈ R ∧ f ∉ l' ↔ f ∈ R ∧ f ∉ l := by
    rw [show (f ∈ R ∧ f ∉ l') ↔ _ from h'.own.used_iff f,
      show (f ∈ R ∧ f ∉ l) ↔ _ from h.own.used_iff f]
    simp only [refs_congr hs]
  have hl := h.sub f
  have hl' := h'.sub f
  tauto

end Frames

end Xv6.Vm
