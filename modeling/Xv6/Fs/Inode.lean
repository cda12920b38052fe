import Xv6.Fs.Content

/-!
# Specifications of the inode layer

Rules for the functions that find, lock, allocate and drop inodes.  Each says what
the state is afterwards, as the state before with one entry of the cache replaced
wherever no block changes.
-/

namespace Xv6.Fs

open Bytes Conc Prog

variable {sb : Superblock} {E : Option Panic → Prop} {me : Pid} {s s' : Kernel} {i : Slot}

theorem wp_inode {Q : Inode → Kernel → Prop} (hQ : Q (s.icache i) s) : wp E (inode i) Q s := by
  unfold inode
  rw [wp_atomic]
  exact hQ

theorem wp_setInode {f : Inode → Inode} {Q : Unit → Kernel → Prop}
    (hQ : Q () (s.setInode i (f (s.icache i)))) : wp E (setInode i f) Q s := by
  unfold setInode
  rw [wp_atomic]
  exact hQ

/-! ## The invariant when one entry changes -/

theorem FsOk.setInode (h : FsOk sb none s) {x : Inode} (hnum : x.inum < sb.ninodes)
    (hdev : 0 < x.ref → x.dev = ROOTDEV)
    (huniq : 0 < x.ref → ∀ j, j ≠ i → 0 < (s.icache j).ref → (s.icache j).inum ≠ x.inum)
    (hco : 0 < x.ref → x.valid = true → x.d.type ≠ 0 ∧ x.d = dinodeAt sb s x.inum) :
    FsOk sb none (s.setInode i x) := by
  have hne : ∀ j, j ≠ i → (s.setInode i x).icache j = s.icache j :=
    fun j hj => Kernel.icache_setInode_ne x hj
  have hself : (s.setInode i x).icache i = x := Kernel.icache_setInode
  refine ⟨⟨fun j => ?_, fun j hj => ?_, fun j k hj hk he => ?_, fun j hj hv => ?_,
    fun j _ hj hv => ?_⟩, h.blocks⟩
  · by_cases hji : j = i
    · rwa [hji, hself]
    · rw [hne j hji]
      exact h.num j
  · by_cases hji : j = i
    · rw [hji, hself] at hj ⊢
      exact hdev hj
    · rw [hne j hji] at hj ⊢
      exact h.dev j hj
  · by_cases hji : j = i
    · by_cases hki : k = i
      · rw [hji, hki]
      · rw [hji, hself] at hj he
        rw [hne k hki] at hk he
        exact absurd he.symm (huniq hj k hki hk)
    · rw [hne j hji] at hj he
      by_cases hki : k = i
      · rw [hki, hself] at hk he
        exact absurd he (huniq hk j hji hj)
      · rw [hne k hki] at hk he
        exact h.uniq j k hj hk he
  · by_cases hji : j = i
    · rw [hji, hself] at hj hv ⊢
      exact (hco hj hv).1
    · rw [hne j hji] at hj hv ⊢
      exact h.type j hj hv
  · by_cases hji : j = i
    · rw [hji, hself] at hj hv ⊢
      exact (hco hj hv).2
    · rw [hne j hji] at hj hv ⊢
      exact h.coherent j (by simp) hj hv

/-- The reference count or the lock of an entry in use changes. -/
theorem FsOk.setRef (h : FsOk sb none s) (hpos : 0 < (s.icache i).ref) (r : Int) (l : Option Pid) :
    FsOk sb none (s.setInode i { s.icache i with ref := r, lock := l }) := by
  refine h.setInode (h.num i) (fun _ => h.dev i hpos) (fun _ j hj hjr he => ?_) fun _ hv => ?_
  · exact hj (h.uniq j i hjr hpos he)
  · exact ⟨h.type i hpos hv, h.coherent i (by simp) hpos hv⟩

/-! ## Finding inodes -/

/-- The outcome of `iget`: a further reference to the entry of the inode, or an unused entry. -/
inductive Igot (inum : Nat) (s : Kernel) (i : Slot) : Kernel → Prop
  | found (hpos : 0 < (s.icache i).ref) (hnum : (s.icache i).inum = inum) :
    Igot inum s i (s.setInode i { s.icache i with ref := (s.icache i).ref + 1 })
  | fresh (hnew : ∀ j, 0 < (s.icache j).ref → (s.icache j).inum ≠ inum) (href : (s.icache i).ref = 0) :
    Igot inum s i
      (s.setInode i { s.icache i with dev := ROOTDEV, inum := inum, ref := 1, valid := false })

namespace Igot

variable {inum : Nat}

theorem self (h : Igot inum s i s') : (s'.icache i).inum = inum ∧ 0 < (s'.icache i).ref := by
  cases h with
  | found hpos hnum => exact ⟨by simpa using hnum, by simp; omega⟩
  | fresh hnew href => simp

theorem ne (h : Igot inum s i s') {j : Slot} (hj : j ≠ i) : s'.icache j = s.icache j := by
  cases h with
  | found hpos hnum | fresh hnew href => exact Kernel.icache_setInode_ne _ hj

theorem ok (h : Igot inum s i s') (hok : FsOk sb none s) (hnum : inum < sb.ninodes) :
    FsOk sb none s' := by
  cases h with
  | found hpos hnum => exact hok.setRef hpos _ (s.icache i).lock
  | fresh hnew href =>
    exact hok.setInode hnum (fun _ => rfl) (fun _ j _ hj => hnew j hj) fun _ hv => by cases hv

/-- An entry in use stays what it is. -/
theorem keeps (h : Igot inum s i s') {j : Slot} (hj : 0 < (s.icache j).ref) :
    (s'.icache j).inum = (s.icache j).inum ∧ (s.icache j).ref ≤ (s'.icache j).ref ∧
      (j = i → (s.icache j).ref < (s'.icache j).ref) := by
  by_cases hji : j = i
  · subst hji
    cases h with
    | found hpos hnum => simp
    | fresh hnew href => omega
  · rw [h.ne hji]
    exact ⟨rfl, le_rfl, fun he => absurd he hji⟩

end Igot

theorem wp_iget_of (h : FsOk sb none s) {inum : Nat} {Q : Slot → Kernel → Prop}
    (hE : E (some .igetNoInodes) ∨ ∃ j, (s.icache j).ref = 0)
    (hQ : ∀ i s', Igot inum s i s' → Q i s') : wp E (iget ROOTDEV inum) Q s := by
  unfold iget
  rw [wp_atomic]
  dsimp only
  split
  · next i hf =>
    have hi := List.find?_some hf
    simp only [Bool.and_eq_true, decide_eq_true_eq, beq_iff_eq] at hi
    exact hQ i _ (.found hi.1.1 hi.2)
  · next hf =>
    split
    · next i hf' =>
      have hi := List.find?_some hf'
      rw [beq_iff_eq] at hi
      refine hQ i _ (.fresh (fun j hj he => ?_) hi)
      have hnot := List.find?_eq_none.1 hf j (List.mem_finRange j)
      simp only [Bool.and_eq_true, decide_eq_true_eq, beq_iff_eq] at hnot
      exact hnot ⟨⟨hj, h.dev j hj⟩, he⟩
    · next hf' =>
      refine hE.elim id fun ⟨j, hj⟩ => ?_
      have hnot := List.find?_eq_none.1 hf' j (List.mem_finRange j)
      exact absurd hj (by simpa using hnot)

/-- The state after `idup`. -/
def duped (s : Kernel) (i : Slot) : Kernel :=
  s.setInode i { s.icache i with ref := (s.icache i).ref + 1 }

theorem wp_idup {Q : Slot → Kernel → Prop} (hQ : Q i (duped s i)) : wp E (idup i) Q s := by
  unfold idup
  rw [wp_atomic]
  exact hQ

theorem FsOk.duped (h : FsOk sb none s) (hpos : 0 < (s.icache i).ref) : FsOk sb none (duped s i) :=
  h.setRef hpos _ (s.icache i).lock

/-! ## Locking -/

/-- The state after `ilock`: the entry is loaded. -/
def locked (sb : Superblock) (me : Pid) (s : Kernel) (i : Slot) : Kernel :=
  s.setInode i { s.icache i with
    lock := some me, valid := true, d := dinodeAt sb s (s.icache i).inum }

theorem FsOk.locked (h : FsOk sb none s) (hpos : 0 < (s.icache i).ref)
    (ht : (dinodeAt sb s (s.icache i).inum).type ≠ 0) : FsOk sb none (locked sb me s i) :=
  h.setInode (h.num i) (fun _ => h.dev i hpos) (fun _ _ hj hjr he => hj (h.uniq _ i hjr hpos he))
    fun _ _ => ⟨ht, rfl⟩

theorem wp_acquiresleep {Q : Unit → Kernel → Prop} (hE : E none ∨ (s.icache i).lock = none)
    (hQ : (s.icache i).lock = none → Q () (s.setInode i { s.icache i with lock := some me })) :
    wp E (acquiresleep me i) Q s := by
  unfold acquiresleep
  rw [wp_atomic]
  cases hl : (s.icache i).lock with
  | some p =>
    rw [hl] at hE
    exact hE.elim id fun h => by cases h
  | none => exact hQ hl

/-- `ilock` loads the inode, whatever the state of the others. -/
theorem wp_ilock_of {Q : Unit → Kernel → Prop} (hnum : (s.icache i).inum < sb.ninodes)
    (hco : 0 < (s.icache i).ref → (s.icache i).valid = true →
      (s.icache i).d.type ≠ 0 ∧ (s.icache i).d = dinodeAt sb s (s.icache i).inum)
    (href : E (some .ilock) ∨ 0 < (s.icache i).ref) (hsleep : E none ∨ (s.icache i).lock = none)
    (hno : E (some .ilockNoType) ∨ (dinodeAt sb s (s.icache i).inum).type ≠ 0)
    (hQ : 0 < (s.icache i).ref → (s.icache i).lock = none →
      (dinodeAt sb s (s.icache i).inum).type ≠ 0 → Q () (locked sb me s i)) :
    wp E (ilock sb me i) Q s := by
  have hdisk : getDinode (s.blk (sb.iblock (s.icache i).inum)) ((s.icache i).inum % IPB) =
      dinodeAt sb s (s.icache i).inum := (if_pos hnum).symm
  unfold ilock
  rw [wp_bind]
  refine wp_inode (wp_ite (fun hlt => href.elim id fun hpos => absurd hpos (by omega)) fun hge => ?_)
  have hpos : 0 < (s.icache i).ref := by omega
  rw [wp_bind]
  refine wp_acquiresleep hsleep fun hfree => ?_
  rw [wp_bind]
  refine wp_inode ?_
  rw [Kernel.icache_setInode]
  refine wp_ite (fun hval => ?_) fun hval => ?_
  · -- read from disk
    rw [wp_bind]
    unfold bread
    rw [wp_atomic]
    show wp E (setInode i _ >>= _) Q _
    rw [wp_bind]
    refine wp_setInode ?_
    have hst : (s.setInode i { s.icache i with lock := some me }).setInode i
        { (s.setInode i { s.icache i with lock := some me }).icache i with
          d := getDinode (s.blk (sb.iblock (s.icache i).inum)) ((s.icache i).inum % IPB)
          valid := true } = locked sb me s i := by
      rw [Kernel.icache_setInode, Kernel.setInode_setInode, hdisk]
      rfl
    show wp E _ Q ((s.setInode i { s.icache i with lock := some me }).setInode i
        { (s.setInode i { s.icache i with lock := some me }).icache i with
          d := getDinode (s.blk (sb.iblock (s.icache i).inum)) ((s.icache i).inum % IPB)
          valid := true })
    rw [hst]
    show wp E (if (getDinode (s.blk (sb.iblock (s.icache i).inum))
      ((s.icache i).inum % IPB)).type = 0 then _ else _) Q _
    rw [hdisk]
    refine wp_ite (fun hz => ?_) fun hz => hQ hpos hfree hz
    exact hno.elim id fun ht => absurd hz ht
  · have hv : (s.icache i).valid = true := by simpa using hval
    obtain ⟨ht, hd⟩ := hco hpos hv
    have hst : s.setInode i { s.icache i with lock := some me } = locked sb me s i := by
      unfold locked
      rw [← hd, ← hv]
    show Q () _
    rw [hst]
    exact hQ hpos hfree (hd ▸ ht)

/-- The state after `iunlock`. -/
def unlocked (s : Kernel) (i : Slot) : Kernel := s.setInode i { s.icache i with lock := none }

theorem wp_iunlock_held {Q : Unit → Kernel → Prop} (hlock : (s.icache i).lock = some me)
    (href : 0 < (s.icache i).ref) (hQ : Q () (unlocked s i)) : wp E (iunlock me i) Q s := by
  unfold iunlock
  rw [wp_bind]
  refine wp_inode ?_
  rw [if_neg (by rw [hlock]; simp; omega)]
  exact wp_setInode hQ

theorem FsOk.unlocked (h : FsOk sb none s) (hpos : 0 < (s.icache i).ref) :
    FsOk sb none (unlocked s i) := h.setRef hpos (s.icache i).ref none

/-! ## Dropping a reference -/

/-- The state after `iput` of an inode that stays. -/
def dropped (s : Kernel) (i : Slot) : Kernel :=
  s.setInode i { s.icache i with ref := (s.icache i).ref - 1 }

/-- `iput` frees the inode: the entry is loaded, without links, and this is the last reference. -/
def Frees (s : Kernel) (i : Slot) : Prop :=
  (s.icache i).valid = true ∧ (s.icache i).d.nlink = 0 ∧ (s.icache i).ref = 1

theorem FsOk.dropped (h : FsOk sb none s) (i : Slot) : FsOk sb none (dropped s i) := by
  by_cases hpos : 0 < (s.icache i).ref
  · exact h.setRef hpos _ (s.icache i).lock
  · refine h.setInode (h.num i) (fun hr => absurd hr ?_) (fun hr => absurd hr ?_)
      fun hr => absurd hr ?_ <;> simp only <;> omega

theorem run_iput_keep (hlock : (s.icache i).lock = none) (hkeep : ¬ Frees s i) :
    (iput sb me i).run s = .ok () (dropped s i) := by
  have hacq : (acquiresleep me i).run s =
      .ok () (s.setInode i { s.icache i with lock := some me }) := by
    unfold acquiresleep
    rw [run_atomic, hlock]
  have htest : (iputTest i).run (s.setInode i { s.icache i with lock := some me }) =
      .ok false (s.setInode i { s.icache i with lock := some me }) := by
    unfold iputTest
    rw [run_atomic, Kernel.icache_setInode]
    congr 1
    rw [← Bool.not_eq_true]
    intro hc
    simp only [Bool.and_eq_true, beq_iff_eq] at hc
    exact hkeep ⟨hc.1.1, hc.1.2, hc.2⟩
  unfold iput
  rw [run_bind, hacq, Res.bind_ok, run_bind, htest, Res.bind_ok, if_neg (by decide), run_bind]
  unfold releasesleep setInode irelse dropped
  rw [run_atomic, Res.bind_ok, run_atomic, Kernel.icache_setInode, Kernel.setInode_setInode,
    Kernel.icache_setInode, Kernel.setInode_setInode, ← hlock]

end Xv6.Fs
