import Xv6.Log.Crash

/-!
# The log as a store that survives power failures

One commit is atomic (`Xv6.Log.Crash`).  Here the kernel lives on: groups of operations are committed
one after the other, the power fails in some of the commits, and after each failure, and any number of
further ones during recovery, a recovery completes and the next kernel goes on from its disk.

`Outcome` is what such a life means for the home blocks: a store whose groups are applied one after the
other, whole.  A group whose `commit` returned is never lost; one whose `commit` was cut is applied or
is not.  `Life.outcome` says that the disk refines it.
-/

namespace Xv6

open Conc Writes

/-- What happens to a group: the blocks it changed and the contents it left in the cache. -/
inductive LogEvent where
  /-- `commit` returned -/
  | done (lh : Logheader) (new : Nat → Block)
  /-- the power failed in `commit` -/
  | cut (lh : Logheader) (new : Nat → Block)

/-- The blocks `a` with those of a group replaced. -/
def overwrite (lh : Logheader) (new a : Nat → Block) : Nat → Block :=
  fun b => if b ∈ lh.block then new b else a b

/-- The store: from contents `a` the events lead to contents `a'`. -/
inductive Outcome : List LogEvent → (Nat → Block) → (Nat → Block) → Prop where
  | nil (a : Nat → Block) : Outcome [] a a
  | done {lh new es a a'} (h : Outcome es (overwrite lh new a) a') : Outcome (.done lh new :: es) a a'
  | kept {lh new es a a'} (h : Outcome es (overwrite lh new a) a') : Outcome (.cut lh new :: es) a a'
  | lost {lh new es a a'} (h : Outcome es a a') : Outcome (.cut lh new :: es) a a'

/-- The life of a kernel on a disk.  Between two commits operations change cached blocks only, which
`log_write` has put into the header; after a failure the kernel starts with an empty cache. -/
inductive Life (sb : Superblock) : Machine → List LogEvent → Machine → Prop where
  | nil (m : Machine) : Life sb m [] m
  | done {m₀ m m' m'' lh es} (disk : m.disk = m₀.disk) (group : Group sb lh m)
      (run : (commit sb.logstart lh.block).run m = .ok () m') (rest : Life sb m' es m'') :
      Life sb m₀ (.done lh m.view :: es) m''
  | cut {m₀ m m' m'' lh es d r} (disk : m.disk = m₀.disk) (group : Group sb lh m)
      (reach : (commit sb.logstart lh.block).Reach m m') (recovers : Recovers sb.logstart m'.disk d)
      (rest : Life sb (boot d r) es m'') : Life sb m₀ (.cut lh m.view :: es) m''

variable {sb : Superblock} {lh : Logheader} {m m' : Machine} {a D : Nat → Block}

theorem Group.commit_done (h : Group sb lh m) (hrun : (commit sb.logstart lh.block).run m = .ok () m') :
    Done sb m.view m'.disk := by
  by_cases hpos : 0 < lh.block.length
  · obtain ⟨v, hb, hb', he, hv⟩ := commit_emits h hpos
    obtain ⟨m₂, hrun₂, -, hdisk, -⟩ := he.ret m h.coherent rfl rfl
    rw [hrun] at hrun₂
    cases hrun₂
    rw [hdisk, apply_append, apply_cons]
    exact ((h.committed hpos hb).install h.room h.home hv hb').2
  · have hnil : lh.block = [] := List.length_eq_zero_iff.1 (by omega)
    rw [commit, if_neg hpos, Prog.run_pure] at hrun
    cases hrun
    exact ⟨h.idle, fun b _ => (h.view_eq (by simp [hnil])).symm⟩

theorem Group.old_overwrite (h : Group sb lh m) (ha : Old sb a m.disk) (hD : Done sb m.view D) :
    Old sb (overwrite lh m.view a) D := by
  refine ⟨hD.1, fun b hb => ?_⟩
  rw [hD.2 b hb, overwrite]
  split
  · rfl
  · next hmem => rw [h.view_eq hmem, ha.2 b hb]

theorem Group.cut_done (h : Group sb lh m) (ha : Old sb a m.disk)
    (hr : (commit sb.logstart lh.block).Reach m m') (hrec : Recovers sb.logstart m'.disk D) :
    Old sb (overwrite lh m.view a) D ∨ Old sb a D := by
  have hend := Recovers.induct (P := Phase sb lh m)
    (Q := fun D => Old sb m.disk D ∨ Done sb m.view D) (fun D hD => recover_phase h hD) hrec
    (commit_crash h hr)
  rcases hend with hold | hnew
  · exact Or.inr ⟨hold.1, fun b hb => by rw [hold.2 b hb, ha.2 b hb]⟩
  · exact Or.inl (h.old_overwrite ha hnew)

theorem Life.outcome {es : List LogEvent} (h : Life sb m es m') (ha : Old sb a m.disk) :
    ∃ a', Outcome es a a' ∧ Old sb a' m'.disk := by
  induction h generalizing a with
  | nil m => exact ⟨a, .nil a, ha⟩
  | done disk group run rest ih =>
    rw [← disk] at ha
    obtain ⟨a', hout, hold⟩ := ih (group.old_overwrite ha (group.commit_done run))
    exact ⟨a', .done hout, hold⟩
  | cut disk group reach recovers rest ih =>
    rw [← disk] at ha
    rcases group.cut_done ha reach recovers with hkept | hlost
    · obtain ⟨a', hout, hold⟩ := ih hkept
      exact ⟨a', .kept hout, hold⟩
    · obtain ⟨a', hout, hold⟩ := ih hlost
      exact ⟨a', .lost hout, hold⟩

/-- **Durability.**  Over any life of the kernel the home blocks on disk are those of a store to which
the groups were applied whole and in order, each one whose `commit` returned, and of those that a power
failure cut some; the header on disk is left empty. -/
theorem log_is_durable {es : List LogEvent} (h : Life sb m es m')
    (hidle : (m.disk sb.logstart).word 0 = 0) :
    ∃ a, Outcome es m.disk a ∧ (∀ b, sb.Home b → m'.disk b = a b) ∧
      (m'.disk sb.logstart).word 0 = 0 := by
  obtain ⟨a, hout, hold⟩ := h.outcome ⟨hidle, fun _ _ => rfl⟩
  exact ⟨a, hout, hold.2, hold.1⟩

/-- A group of two blocks is committed, and its blocks are on disk. -/
theorem log_is_durable_one : ∃ m', Life mkfsSb twoDirty [.done twoBlocks twoDirty.view] m' ∧
    m'.disk 100 = twoDirty.view 100 ∧ m'.disk 101 = twoDirty.view 101 ∧
    (m'.disk mkfsSb.logstart).word 0 = 0 := by
  obtain ⟨v, hb, hb', he, -⟩ := commit_emits twoDirty_group (by decide)
  obtain ⟨m', hrun, -⟩ := he.ret twoDirty twoDirty_group.coherent rfl rfl
  have hlife : Life mkfsSb twoDirty [.done twoBlocks twoDirty.view] m' :=
    .done rfl twoDirty_group hrun (.nil m')
  obtain ⟨a, hout, hhome, hidle⟩ := log_is_durable hlife rfl
  refine ⟨m', hlife, ?_, ?_, hidle⟩
  · rw [hhome 100 (twoDirty_group.home 100 (by decide))]
    cases hout with
    | done h =>
      cases h
      rfl
  · rw [hhome 101 (twoDirty_group.home 101 (by decide))]
    cases hout with
    | done h =>
      cases h
      rfl

end Xv6
