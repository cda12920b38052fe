import Xv6.Log.Protocol
import Xv6.Log.Disk

/-!
# The log area and the unlocked capacity test

`log_write` tests the capacity before it takes `log.lock`, so several processes
can pass the test on the same count and then all append.  Here the test and the
append are separate steps of a process, as are the two halves of `end_op` around
`commit`.  Two operations, both within their budgets, push the header past the
log area (`log_spills`).

A test that counts the appends still to come would be enough: if at every test
the blocks in the header, the blocks of processes past their test and the new
block are together at most `nlog - 1`, the header never outgrows the area and
every block `write_log` writes lies in it (`log_in_area`).
-/

namespace Xv6

open Conc

variable {P : Type} [DecidableEq P]

/-- Where a process is with respect to the log. -/
inductive Stage where
  | idle
  | inOp
  /-- in `log_write(b)`, past the test and before the append -/
  | passed (b : Nat)
  /-- in `end_op`, between its two locked parts -/
  | committing
deriving DecidableEq

structure LwState (P : Type) where
  log : Log
  stage : P → Stage

inductive LwEvent (P : Type) where
  | beginOp (p : P)
  | test (p : P) (b : Nat)
  | append (p : P)
  | endOp (p : P)
  | commit (p : P)

def lwStep (s : LwState P) : LwEvent P → Res Panic Unit (LwState P)
  | .beginOp p =>
    match s.stage p with
    | .idle => s.log.beginOp.bind fun _ l => .ok () ⟨l, Function.update s.stage p .inOp⟩
    | _ => .sleep
  | .test p b =>
    match s.stage p with
    | .inOp => s.log.logWriteTest.bind fun _ l => .ok () ⟨l, Function.update s.stage p (.passed b)⟩
    | _ => .sleep
  | .append p =>
    match s.stage p with
    | .passed b => .ok () ⟨s.log.logAppend b, Function.update s.stage p .inOp⟩
    | _ => .sleep
  | .endOp p =>
    match s.stage p with
    | .inOp => s.log.endOpStart.bind fun doCommit l =>
        .ok () ⟨l, Function.update s.stage p (if doCommit then .committing else .idle)⟩
    | _ => .sleep
  | .commit p =>
    match s.stage p with
    | .committing => .ok () ⟨s.log.endOpFinish, Function.update s.stage p .idle⟩
    | _ => .sleep

def lwInit (nlog : Nat) : LwState P := ⟨Log.init nlog, fun _ => .idle⟩

/-- Blocks in the header, and blocks about to be appended. -/
def LwState.claimed (s : LwState P) : Set Nat := {c | c ∈ s.log.lh ∨ ∃ p, s.stage p = .passed c}

/-- A test is made only while its block still fits beside all claimed ones. -/
def Fits (s : LwState P) : LwEvent P → Prop
  | .test _ b => (s.claimed ∪ {b}).encard ≤ ((s.log.size - 1 : Nat) : ℕ∞)
  | _ => True

/-! ## What `write_log` writes -/

theorem bread_run (b : Nat) (m : Machine) : ∃ x m', (bread b).run m = .ok x m' :=
  ⟨_, _, Prog.run_atomic _ _ _⟩

theorem mem_trace_writeLogFrom {start : Nat} {bs : List Nat} {tail x : Nat} {m : Machine} :
    BioSection.bwrite x ∈ (writeLogFrom start tail bs).trace m ↔
      start + tail + 1 ≤ x ∧ x ≤ start + tail + bs.length := by
  induction bs generalizing tail m with
  | nil =>
    simp only [writeLogFrom, List.length_nil]
    constructor
    · intro h
      cases h
    · omega
  | cons b bs ih =>
    obtain ⟨lbuf, m₁, h₁⟩ := bread_run (start + tail + 1) m
    obtain ⟨frm, m₂, h₂⟩ := bread_run b m₁
    have h₃ : (bwrite (start + tail + 1) frm).run m₂ = .ok () (m₂.store (start + tail + 1) frm) :=
      Prog.run_atomic _ _ _
    rw [writeLogFrom, Prog.trace_bind_of_ok h₁, Prog.trace_bind_of_ok h₂,
      Prog.trace_bind_of_ok h₃, List.mem_append, List.mem_append, List.mem_append, ih]
    have hr : ∀ c m, BioSection.bwrite x ∈ (bread c).trace m ↔ False := by
      intro c m
      simp [bread, Prog.atomic, Prog.trace]
    have hw : ∀ y m, BioSection.bwrite x ∈ (bwrite (start + tail + 1) y).trace m ↔
        x = start + tail + 1 := by
      intro y m
      simp [bwrite, Prog.atomic, Prog.trace]
    simp only [hr, hw, false_or, List.length_cons]
    omega

/-! ## The invariant -/

structure SpillInv (nlog : Nat) (s : LwState P) : Prop where
  size : s.log.size = nlog
  nodup : s.log.lh.Nodup
  fits : s.claimed.encard ≤ ((nlog - 1 : Nat) : ℕ∞)

variable {nlog : Nat} {s t : LwState P}

theorem lwStep_cases {e : LwEvent P} (h : lwStep s e = .ok () t) :
    t.log.size = s.log.size ∧
      ((∃ p b, e = .test p b ∧ t.log = s.log ∧ t.claimed ⊆ s.claimed ∪ {b}) ∨
        (t.log.lh = s.log.lh ∧ t.claimed ⊆ s.claimed) ∨
        (∃ b, t.log = s.log.logAppend b ∧ t.claimed ⊆ s.claimed) ∨
        (t.log.lh = [] ∧ t.claimed ⊆ s.claimed)) := by
  have hsub : ∀ {l : Log} {p : P} {g : Stage} {A : Set Nat}, (∀ c, c ∈ l.lh → c ∈ A) →
      s.claimed ⊆ A → (∀ c, g = .passed c → c ∈ A) →
      (⟨l, Function.update s.stage p g⟩ : LwState P).claimed ⊆ A := by
    rintro l p g A hl hs hg c (hc | ⟨q, hq⟩)
    · exact hl c hc
    · dsimp only at hq
      by_cases hqp : q = p
      · subst hqp
        rw [Function.update_self] at hq
        exact hg c hq
      · rw [Function.update_of_ne hqp] at hq
        exact hs (Or.inr ⟨q, hq⟩)
  cases e with
  | beginOp p =>
    simp only [lwStep] at h
    split at h
    · obtain ⟨_, l, hl, ht⟩ := Res.bind_eq_ok.1 h
      cases ht
      obtain ⟨-, -, rfl⟩ := Log.beginOp_ok hl
      exact ⟨rfl, Or.inr (Or.inl ⟨rfl, hsub (fun c hc => Or.inl hc) subset_rfl (by simp)⟩)⟩
    · cases h
  | test p b =>
    simp only [lwStep] at h
    split at h
    · obtain ⟨_, l, hl, ht⟩ := Res.bind_eq_ok.1 h
      cases ht
      obtain ⟨-, -, -, rfl⟩ := Log.logWriteTest_ok hl
      refine ⟨rfl, Or.inl ⟨p, b, rfl, rfl, hsub (fun c hc => Or.inl (Or.inl hc))
        Set.subset_union_left ?_⟩⟩
      intro c hc
      cases hc
      exact Or.inr rfl
    · cases h
  | append p =>
    simp only [lwStep] at h
    split at h
    · next b hb =>
      cases h
      refine ⟨rfl, Or.inr (Or.inr (Or.inl ⟨b, rfl, hsub ?_ subset_rfl (by simp)⟩))⟩
      intro c hc
      rcases Log.mem_logAppend.1 hc with hc | rfl
      · exact Or.inl hc
      · exact Or.inr ⟨p, hb⟩
    · cases h
  | endOp p =>
    simp only [lwStep] at h
    split at h
    · obtain ⟨c, l, hl, ht⟩ := Res.bind_eq_ok.1 h
      cases ht
      obtain ⟨-, ⟨rfl, -, rfl⟩ | ⟨rfl, -, rfl⟩⟩ := Log.endOpStart_ok hl
      · exact ⟨rfl, Or.inr (Or.inl ⟨rfl, hsub (fun c hc => Or.inl hc) subset_rfl (by simp)⟩)⟩
      · exact ⟨rfl, Or.inr (Or.inl ⟨rfl, hsub (fun c hc => Or.inl hc) subset_rfl (by simp)⟩)⟩
    · cases h
  | commit p =>
    simp only [lwStep] at h
    split at h
    · cases h
      exact ⟨rfl, Or.inr (Or.inr (Or.inr ⟨rfl,
        hsub (fun c hc => absurd hc (by simp [Log.endOpFinish])) subset_rfl (by simp)⟩))⟩
    · cases h

theorem SpillInv.step (h : SpillInv nlog s) {e : LwEvent P} (hf : Fits s e)
    (hst : lwStep s e = .ok () t) : SpillInv nlog t := by
  obtain ⟨hsize, hcase⟩ := lwStep_cases hst
  have hfits : ∀ {A : Set Nat}, A ⊆ s.claimed → A.encard ≤ ((nlog - 1 : Nat) : ℕ∞) :=
    fun hA => (Set.encard_le_encard hA).trans h.fits
  rcases hcase with ⟨p, b, rfl, hl, hc⟩ | ⟨hl, hc⟩ | ⟨b, hl, hc⟩ | ⟨hl, hc⟩
  · simp only [Fits, h.size] at hf
    exact ⟨hsize.trans h.size, by rw [hl]; exact h.nodup, (Set.encard_le_encard hc).trans hf⟩
  · exact ⟨hsize.trans h.size, by rw [hl]; exact h.nodup, hfits hc⟩
  · exact ⟨hsize.trans h.size, by rw [hl]; exact Log.nodup_logAppend h.nodup b, hfits hc⟩
  · exact ⟨hsize.trans h.size, by rw [hl]; exact List.nodup_nil, hfits hc⟩

omit [DecidableEq P] in
theorem spillInv_init : SpillInv nlog (lwInit nlog : LwState P) := by
  refine ⟨rfl, List.nodup_nil, ?_⟩
  have : (lwInit nlog : LwState P).claimed = ∅ := by
    ext c
    simp [LwState.claimed, lwInit, Log.init]
  rw [this]
  simp

omit [DecidableEq P] in
/-- The header is among the claimed blocks. -/
theorem SpillInv.length_le (h : SpillInv nlog s) : s.log.lh.length ≤ nlog - 1 := by
  have hsub : ((s.log.lh.toFinset : Finset Nat) : Set Nat) ⊆ s.claimed := by
    intro c hc
    rw [Finset.mem_coe, List.mem_toFinset] at hc
    exact Or.inl hc
  have hle := (Set.encard_le_encard hsub).trans h.fits
  rw [Set.encard_coe_eq_coe_finsetCard, List.toFinset_card_of_nodup h.nodup] at hle
  exact_mod_cast hle

/-- **The log stays in its area.**  In every run in which each capacity test is made while its
block fits beside the blocks already claimed, the header holds at most `nlog - 1` blocks, and
every block `write_log` would write lies in the log area, before the inode blocks. -/
theorem log_in_area {sb : Superblock} (hsb : sb.WF)
    (h : Reaches lwStep Fits (lwInit sb.nlog) s) :
    s.log.lh.length ≤ sb.nlog - 1 ∧
      ∀ m x, BioSection.bwrite x ∈ (writeLog sb.logstart s.log.lh).trace m →
        sb.logstart + 1 ≤ x ∧ x ≤ sb.logstart + sb.nlog - 1 ∧ x < sb.inodestart := by
  have hinv : SpillInv sb.nlog s :=
    h.inv spillInv_init fun _ _ _ hI hC hst => hI.step hC hst
  have hlen := hinv.length_le
  refine ⟨hlen, fun m x hx => ?_⟩
  have hx := mem_trace_writeLogFrom.1 hx
  have := hsb.log_inode
  omega

/-- A process logs block 7 on the log of `mkfs`. -/
theorem log_in_area_one :
    ∃ s : LwState (Fin 2), Reaches lwStep Fits (lwInit mkfsSb.nlog) s ∧ s.log.lh = [7] ∧
      s.log.lh.length ≤ mkfsSb.nlog - 1 ∧
      ∀ m x, BioSection.bwrite x ∈ (writeLog mkfsSb.logstart s.log.lh).trace m →
        mkfsSb.logstart + 1 ≤ x ∧ x ≤ mkfsSb.logstart + mkfsSb.nlog - 1 ∧
          x < mkfsSb.inodestart := by
  let s₁ : LwState (Fin 2) := ⟨{ Log.init 30 with outstanding := 1 },
    Function.update (fun _ => .idle) 0 .inOp⟩
  let s₂ : LwState (Fin 2) := ⟨s₁.log, Function.update s₁.stage 0 (.passed 7)⟩
  have hnone : s₁.claimed = ∅ := by
    ext c
    simp only [LwState.claimed, s₁, Log.init, Set.mem_ofPred_eq, List.not_mem_nil, false_or,
      Set.mem_empty_iff_false, iff_false, not_exists]
    intro p
    fin_cases p <;> simp
  have h₁ : Reaches lwStep Fits (lwInit mkfsSb.nlog) s₁ :=
    Relation.ReflTransGen.single ⟨.beginOp 0, trivial, rfl⟩
  have h₂ : Reaches lwStep Fits (lwInit mkfsSb.nlog) s₂ := by
    refine h₁.tail ⟨.test 0 7, ?_, rfl⟩
    simp only [Fits, hnone, Set.empty_union, Set.encard_singleton]
    exact_mod_cast (by decide : 1 ≤ s₁.log.size - 1)
  have h₃ : Reaches lwStep Fits (lwInit mkfsSb.nlog)
      (⟨s₂.log.logAppend 7, Function.update s₂.stage 0 .inOp⟩ : LwState (Fin 2)) :=
    h₂.tail ⟨.append 0, trivial, rfl⟩
  exact ⟨_, h₃, rfl, log_in_area mkfsSb_wf h₃⟩

/-- `log_write(b)` of process `p` with nothing in between. -/
def lwWrite (p : P) (b : Nat) : List (LwEvent P) := [.test p b, .append p]

/-- Three operations log nine, nine and ten blocks; then two of them test before either appends. -/
def twoTests (p q r : P) : List (LwEvent P) :=
  [.beginOp p, .beginOp q, .beginOp r] ++ (List.range 9).flatMap (lwWrite p) ++
    (List.range 9).flatMap (fun i => lwWrite q (9 + i)) ++
    (List.range 10).flatMap (fun i => lwWrite r (18 + i)) ++
    [.test p 28, .test q 29, .append p, .append q]

/-- Both tests are passed on the same count, and the header ends with `nlog` blocks. -/
theorem log_spills :
    ∃ s : LwState (Fin 3), Reaches lwStep anyEvent (lwInit mkfsSb.nlog) s ∧
      s.log.lh.length = 30 ∧ ¬ s.log.lh.length ≤ mkfsSb.nlog - 1 := by
  obtain ⟨s, hs⟩ : ∃ s, exec lwStep (lwInit mkfsSb.nlog) (twoTests (0 : Fin 3) 1 2) = .ok () s := ⟨_, rfl⟩
  have hn : (exec lwStep (lwInit mkfsSb.nlog) (twoTests (0 : Fin 3) 1 2)).bind
      (fun _ s => (.ok s.log.lh.length () : Res Panic Nat Unit)) = .ok 30 () := rfl
  rw [hs] at hn
  have hlen : s.log.lh.length = 30 := by
    simpa using hn
  refine ⟨s, reaches_exec hs, hlen, ?_⟩
  rw [hlen]
  decide

end Xv6
