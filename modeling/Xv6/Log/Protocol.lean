import Xv6.Params
import Xv6.Lib.Runs

/-!
# The in-memory side of `log.c`: `begin_op`, `log_write`, `end_op`

`struct log` with its three entry points.  `log_write` is two sections, since its
capacity test runs before `log.lock` is taken: `logWriteTest` and `logAppend`.
-/

namespace Xv6

open Conc

/-- `struct log`; the header is the list of logged block numbers. -/
structure Log where
  /-- `log.size`: blocks of the log area, header included -/
  size : Nat
  /-- how many FS system calls are executing -/
  outstanding : Int
  /-- in `commit()`, please wait -/
  committing : Bool
  lh : List Nat
deriving DecidableEq

namespace Log

/-- `begin_op`: sleep while committing or while the log might be exhausted. -/
def beginOp (l : Log) : Res Panic Unit Log :=
  if l.committing then .sleep
  else if (l.lh.length : Int) + (l.outstanding + 1) * MAXOPBLOCKS > LOGSIZE then .sleep
  else .ok () { l with outstanding := l.outstanding + 1 }

def logWriteTest (l : Log) : Res Panic Unit Log :=
  if (l.lh.length : Int) ≥ LOGSIZE ∨ (l.lh.length : Int) ≥ l.size - 1 then .panic .tooBigTransaction
  else if l.outstanding < 1 then .panic .logWriteOutside
  else .ok () l

/-- The locked part of `log_write`: append the block, unless it is there already (absorption). -/
def logAppend (l : Log) (b : Nat) : Log :=
  { l with lh := if b ∈ l.lh then l.lh else l.lh ++ [b] }

/-- `log_write` with no other process in between. -/
def logWrite (l : Log) (b : Nat) : Res Panic Unit Log :=
  l.logWriteTest.bind fun _ l' => .ok () (l'.logAppend b)

/-- The first locked part of `end_op`; the answer is `do_commit`. -/
def endOpStart (l : Log) : Res Panic Bool Log :=
  let l := { l with outstanding := l.outstanding - 1 }
  if l.committing then .panic .logCommitting
  else if l.outstanding = 0 then .ok true { l with committing := true }
  else .ok false l

/-- `commit()` leaves an empty header, and the second locked part of `end_op` follows. -/
def endOpFinish (l : Log) : Log := { l with lh := [], committing := false }

/-- `end_op` with no other process in between. -/
def endOp (l : Log) : Res Panic Unit Log :=
  l.endOpStart.bind fun doCommit l' => .ok () (if doCommit then l'.endOpFinish else l')

/-- The log after `initlog`: recovery has emptied it. -/
def init (size : Nat) : Log where
  size := size
  outstanding := 0
  committing := false
  lh := []

/-! ## What each entry point does -/

theorem beginOp_ok {l l' : Log} (h : l.beginOp = .ok () l') :
    l.committing = false ∧ (l.lh.length : Int) + (l.outstanding + 1) * MAXOPBLOCKS ≤ LOGSIZE ∧
      l' = { l with outstanding := l.outstanding + 1 } := by
  unfold beginOp at h
  split at h
  · cases h
  · next hc =>
    split at h
    · cases h
    · next hn =>
      cases h
      exact ⟨by simpa using hc, by omega, rfl⟩

theorem logWriteTest_ok {l l' : Log} (h : l.logWriteTest = .ok () l') :
    l.lh.length < LOGSIZE ∧ (l.lh.length : Int) < l.size - 1 ∧ 1 ≤ l.outstanding ∧ l' = l := by
  unfold logWriteTest at h
  split at h
  · cases h
  · next hn =>
    split at h
    · cases h
    · cases h
      rw [not_or] at hn
      exact ⟨by omega, by omega, by omega, rfl⟩

theorem logWriteTest_panic {l : Log} {e : Panic} (h : l.logWriteTest = .panic e) :
    (e = .tooBigTransaction ∧ (LOGSIZE ≤ l.lh.length ∨ (l.size : Int) - 1 ≤ l.lh.length)) ∨
      (e = .logWriteOutside ∧ l.outstanding < 1) := by
  unfold logWriteTest at h
  split at h
  · next hn =>
    cases h
    refine Or.inl ⟨rfl, ?_⟩
    rcases hn with hn | hn
    · exact Or.inl (by omega)
    · exact Or.inr (by omega)
  · split at h
    · next ho =>
      cases h
      exact Or.inr ⟨rfl, ho⟩
    · cases h

theorem endOpStart_ok {l l' : Log} {doCommit : Bool} (h : l.endOpStart = .ok doCommit l') :
    l.committing = false ∧
      ((doCommit = true ∧ l.outstanding = 1 ∧ l' = { l with outstanding := 0, committing := true }) ∨
        (doCommit = false ∧ l.outstanding ≠ 1 ∧
          l' = { l with outstanding := l.outstanding - 1 })) := by
  unfold endOpStart at h
  dsimp only at h
  split at h
  · cases h
  · next hc =>
    refine ⟨by simpa using hc, ?_⟩
    split at h
    · next ho =>
      cases h
      exact Or.inl ⟨rfl, by omega, by rw [ho]⟩
    · next ho =>
      cases h
      exact Or.inr ⟨rfl, by omega, rfl⟩

theorem mem_logAppend {l : Log} {b c : Nat} : c ∈ (l.logAppend b).lh ↔ c ∈ l.lh ∨ c = b := by
  simp only [logAppend]
  split
  · next h =>
    constructor
    · exact Or.inl
    · rintro (hc | rfl) <;> assumption
  · simp

theorem nodup_logAppend {l : Log} (h : l.lh.Nodup) (b : Nat) : (l.logAppend b).lh.Nodup := by
  simp only [logAppend]
  split
  · exact h
  · next hb =>
    rw [List.nodup_append]
    refine ⟨h, by simp, ?_⟩
    intro a ha c hc
    rw [List.mem_singleton] at hc
    exact fun e => hb (by rw [← hc, ← e]; exact ha)

end Log

end Xv6
