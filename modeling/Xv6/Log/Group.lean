import Xv6.Log.Protocol
import Xv6.Lib.Monitor

/-!
# Group commit

Any number of processes run operations on the log: `begin_op`, some calls of
`log_write`, `end_op`.  The last operation to end commits for all, without holding
`log.lock`, and meanwhile `log.committing` keeps others out.  Sections are those of
`log.lock`; the tests at the start of `log_write` and the steps of `commit`, which run
without the lock, are sections of their own.

The steps of `commit` are followed as far as they read or change the header in memory;
what they write to disk is in `Xv6.Log.Disk`.
-/

namespace Xv6

open Conc

/-- Where `commit()` is. -/
inductive CommitPos where
  /-- before `if (log.lh.n > 0)` -/
  | test
  /-- in `write_log`, before its test `tail < log.lh.n` -/
  | writeLog (tail : Nat)
  | writeHead
  /-- in `install_trans`, before its test `tail < log.lh.n` -/
  | installTrans (tail : Nat)
  /-- before `log.lh.n = 0` -/
  | clear
  /-- before the second `write_head` -/
  | erase
  /-- back in `end_op`, before `log.committing = 0` -/
  | done
deriving DecidableEq

/-- Where a process is with respect to the log. -/
inductive LogLoc where
  | idle
  | beginOp
  /-- between `begin_op` and `end_op` -/
  | inOp
  /-- in `log_write`, before its tests -/
  | logWrite (b : Nat)
  /-- in `log_write`, before it takes the lock -/
  | append (b : Nat)
  | endOp
  | commit (c : CommitPos)
deriving DecidableEq

/-- What processes sleep on: `&log`. -/
inductive LogChan where
  | log
deriving DecidableEq

namespace Log

def commitStep (l : Log) : CommitPos → Turn LogChan LogLoc × Log
  | .test => (⟨[], none, .commit (if l.lh.length > 0 then .writeLog 0 else .done)⟩, l)
  | .writeLog tail =>
    (⟨[], none, .commit (if tail < l.lh.length then .writeLog (tail + 1) else .writeHead)⟩, l)
  | .writeHead => (⟨[], none, .commit (.installTrans 0)⟩, l)
  | .installTrans tail =>
    (⟨[], none, .commit (if tail < l.lh.length then .installTrans (tail + 1) else .clear)⟩, l)
  | .clear => (⟨[], none, .commit .erase⟩, { l with lh := [] })
  | .erase => (⟨[], none, .commit .done⟩, l)
  | .done => (⟨[.log], none, .idle⟩, { l with committing := false })

/-- The section at a location. -/
def code (_killed : Bool) (loc : LogLoc) (l : Log) : Res Panic (Turn LogChan LogLoc) Log :=
  match loc with
  | .beginOp =>
    match l.beginOp with
    | .ok _ l' => .ok ⟨[], none, .inOp⟩ l'
    | .panic e => .panic e
    -- the loop of `begin_op` goes round again after `sleep(&log, &log.lock)`
    | .sleep => .ok ⟨[], some .log, .beginOp⟩ l
  | .logWrite b => l.logWriteTest.bind fun _ l' => .ok ⟨[], none, .append b⟩ l'
  | .append b => .ok ⟨[], none, .inOp⟩ (l.logAppend b)
  | .endOp => l.endOpStart.bind fun doCommit l' =>
      .ok (if doCommit then ⟨[], none, .commit .test⟩ else ⟨[.log], none, .idle⟩) l'
  | .commit c => .ok (l.commitStep c).1 (l.commitStep c).2
  | .idle => .sleep
  | .inOp => .sleep

def calls : LogLoc → LogLoc → Bool
  | .idle, .beginOp => true
  | .inOp, .logWrite _ => true
  | .inOp, .endOp => true
  | _, _ => false

end Log

theorem Log.commitStep_cases (l : Log) (c : CommitPos) :
    (∃ c', (l.commitStep c).1 = ⟨[], none, .commit c'⟩ ∧ (l.commitStep c).2 = l ∧
      (c' = .erase ∨ c' = .done → c = .erase ∨ l.lh = [])) ∨
    (c = .clear ∧ (l.commitStep c).1 = ⟨[], none, .commit .erase⟩ ∧
      (l.commitStep c).2 = { l with lh := [] }) ∨
    (c = .done ∧ (l.commitStep c).1 = ⟨[.log], none, .idle⟩ ∧
      (l.commitStep c).2 = { l with committing := false }) := by
  cases c with
  | test =>
    refine Or.inl ⟨_, rfl, rfl, fun h => Or.inr ?_⟩
    by_contra hne
    rw [if_pos (List.length_pos_iff.2 hne)] at h
    simp at h
  | writeLog tail | installTrans tail =>
    refine Or.inl ⟨_, rfl, rfl, fun h => ?_⟩
    split at h <;> simp at h
  | writeHead => exact Or.inl ⟨_, rfl, rfl, fun h => by simp at h⟩
  | clear => exact Or.inr (Or.inl ⟨rfl, rfl, rfl⟩)
  | erase => exact Or.inl ⟨_, rfl, rfl, fun _ => Or.inl rfl⟩
  | done => exact Or.inr (Or.inr ⟨rfl, rfl, rfl⟩)

def logMonitor : Monitor LogChan LogLoc Log Panic := ⟨Log.code, Log.calls⟩

abbrev LogSys (P : Type) := Procs P LogChan LogLoc Log

/-- A log area of `nlog` blocks after `initlog`. -/
def logInit {P : Type} (nlog : Nat) : LogSys P := .init (Log.init nlog) .idle

/-! ## The invariant -/

/-- `1` for a process that `log.outstanding` counts. -/
def LogLoc.active : LogLoc → Nat
  | .inOp | .logWrite _ | .append _ | .endOp => 1
  | _ => 0

def LogLoc.commits : LogLoc → Nat
  | .commit _ => 1
  | _ => 0

variable {P : Type} [Fintype P]

structure GroupInv (s : LogSys P) : Prop where
  out : s.data.outstanding = ∑ p, (s.loc p).active
  one : ∑ p, (s.loc p).commits = s.data.committing.toNat
  alone : s.data.committing = true → s.data.outstanding = 0
  fresh : s.data.outstanding = 0 → s.data.committing = false → s.data.lh = []
  erased : ∀ p, s.loc p = .commit .erase ∨ s.loc p = .commit .done → s.data.lh = []

namespace GroupInv

variable {s : LogSys P} {p : P}

/-- A process in an operation is counted. -/
theorem pos_of_active (h : GroupInv s) (hp : (s.loc p).active = 1) : 0 < s.data.outstanding := by
  have hle : (s.loc p).active ≤ ∑ q, (s.loc q).active :=
    Finset.single_le_sum (f := fun q => (s.loc q).active) (fun _ _ => Nat.zero_le _)
      (Finset.mem_univ p)
  rw [h.out]
  omega

theorem out_nonneg (h : GroupInv s) : 0 ≤ s.data.outstanding := by
  rw [h.out]
  omega

theorem committing_of_commit (h : GroupInv s) {c : CommitPos} (hp : s.loc p = .commit c) :
    s.data.committing = true := by
  have hle : (s.loc p).commits ≤ ∑ q, (s.loc q).commits :=
    Finset.single_le_sum (f := fun q => (s.loc q).commits) (fun _ _ => Nat.zero_le _)
      (Finset.mem_univ p)
  rw [h.one, hp] at hle
  by_contra hc
  rw [Bool.not_eq_true] at hc
  rw [hc] at hle
  exact absurd hle (Nat.not_succ_le_zero 0)

variable [DecidableEq P]

theorem move (h : GroupInv s) {d : Log} {l : LogLoc} {asleep : P → Option LogChan}
    {killed : P → Bool}
    (hout : d.outstanding + (s.loc p).active = s.data.outstanding + l.active)
    (hone : d.committing.toNat + (s.loc p).commits = s.data.committing.toNat + l.commits)
    (halone : d.committing = true → d.outstanding = 0)
    (hfresh : d.outstanding = 0 → d.committing = false → d.lh = [])
    (hself : l = .commit .erase ∨ l = .commit .done → d.lh = [])
    (hother : d.lh = s.data.lh ∨ d.lh = [] ∨ ∀ q c, q ≠ p → s.loc q ≠ .commit c) :
    GroupInv ⟨d, Function.update s.loc p l, asleep, killed⟩ := by
  have hsum : ∀ f : LogLoc → Nat,
      ∑ q, f (Function.update s.loc p l q) + f (s.loc p) = ∑ q, f (s.loc q) + f l := by
    intro f
    have := sum_add_of_eq_off (f := fun q => f (s.loc q))
      (g := fun q => f (Function.update s.loc p l q)) p
      fun q hq => by simp only [Function.update_of_ne hq]
    simpa only [Function.update_self] using this
  have hact := hsum LogLoc.active
  have hcom := hsum LogLoc.commits
  have h1 := h.out
  have h2 := h.one
  constructor
  · dsimp only
    omega
  · dsimp only
    omega
  · exact halone
  · exact hfresh
  · intro q hq
    dsimp only at hq ⊢
    by_cases hqp : q = p
    · rw [hqp, Function.update_self] at hq
      exact hself hq
    · rw [Function.update_of_ne hqp] at hq
      rcases hother with hlh | hlh | hno
      · rw [hlh]
        exact h.erased q hq
      · exact hlh
      · rcases hq with hq | hq
        · exact absurd hq (hno q _ hqp)
        · exact absurd hq (hno q _ hqp)

theorem commitStep (h : GroupInv s) {c : CommitPos} (hp : s.loc p = .commit c)
    {asleep : P → Option LogChan} {killed : P → Bool} :
    GroupInv ⟨(s.data.commitStep c).2, Function.update s.loc p (s.data.commitStep c).1.next,
      asleep, killed⟩ := by
  have hc := h.committing_of_commit hp
  obtain ⟨c', hnext, hlog, herased⟩ | ⟨rfl, hnext, hlog⟩ | ⟨rfl, hnext, hlog⟩ :=
    Log.commitStep_cases s.data c
  · rw [hnext, hlog]
    refine h.move ?_ ?_ h.alone h.fresh (fun hc' => ?_) (Or.inl rfl)
    · rw [hp]
      rfl
    · rw [hp]
      rfl
    · simp only [LogLoc.commit.injEq] at hc'
      rcases herased hc' with rfl | hnil
      · exact h.erased p (Or.inl hp)
      · exact hnil
  · rw [hnext, hlog]
    refine h.move ?_ ?_ h.alone (fun _ _ => rfl) (fun _ => rfl) (Or.inr (Or.inl rfl))
    · rw [hp]
      rfl
    · rw [hp]
      rfl
  · rw [hnext, hlog]
    have hnil := h.erased p (Or.inr hp)
    refine h.move ?_ ?_ ?_ (fun _ _ => hnil) (fun _ => hnil) (Or.inl rfl)
    · rw [hp]
      rfl
    · rw [hp, hc]
      rfl
    · intro hf
      cases hf

/-- The section at any location. -/
theorem code (h : GroupInv s) {t : Turn LogChan LogLoc} {d : Log} {k : Bool}
    (hc : Log.code k (s.loc p) s.data = .ok t d) {asleep : P → Option LogChan} {killed : P → Bool} :
    GroupInv ⟨d, Function.update s.loc p t.next, asleep, killed⟩ := by
  cases hp : s.loc p with
  | beginOp =>
    rw [hp] at hc
    simp only [Log.code] at hc
    split at hc
    · next l' hl =>
      cases hc
      obtain ⟨hcom, -, rfl⟩ := Log.beginOp_ok hl
      have h0 := h.out_nonneg
      refine h.move ?_ ?_ ?_ ?_ ?_ (Or.inl rfl) <;>
        simp [hp, hcom, LogLoc.active, LogLoc.commits]
      omega
    · cases hc
    · cases hc
      refine h.move ?_ ?_ h.alone h.fresh ?_ (Or.inl rfl) <;> simp [hp]
  | logWrite b =>
    rw [hp] at hc
    obtain ⟨_, l', hl, hc⟩ := Res.bind_eq_ok.1 hc
    obtain ⟨-, -, -, rfl⟩ := Log.logWriteTest_ok hl
    cases hc
    refine h.move ?_ ?_ h.alone h.fresh ?_ (Or.inl rfl) <;>
      simp [hp, LogLoc.active, LogLoc.commits]
  | append b =>
    rw [hp] at hc
    cases hc
    have hpos : 0 < s.data.outstanding := h.pos_of_active (p := p) (by rw [hp, LogLoc.active])
    have hnot : ∀ q c, q ≠ p → s.loc q ≠ .commit c := by
      intro q c _ hq
      have := h.alone (h.committing_of_commit hq)
      omega
    refine h.move ?_ ?_ h.alone ?_ ?_ (Or.inr (Or.inr hnot)) <;>
      simp [hp, LogLoc.active, LogLoc.commits, Log.logAppend]
    omega
  | endOp =>
    rw [hp] at hc
    obtain ⟨doCommit, l', hl, hc⟩ := Res.bind_eq_ok.1 hc
    obtain ⟨hcom, ⟨rfl, ho, rfl⟩ | ⟨rfl, ho, rfl⟩⟩ := Log.endOpStart_ok hl
    · cases hc
      refine h.move ?_ ?_ ?_ ?_ ?_ (Or.inl rfl) <;>
        simp [hp, hcom, ho, LogLoc.active, LogLoc.commits]
    · cases hc
      refine h.move ?_ ?_ ?_ ?_ ?_ (Or.inl rfl) <;>
        simp [hp, hcom, LogLoc.active, LogLoc.commits]
      omega
  | commit c =>
    rw [hp] at hc
    cases hc
    exact h.commitStep hp
  | idle | inOp =>
    rw [hp] at hc
    cases hc

theorem call (h : GroupInv s) {l : LogLoc} (hl : Log.calls (s.loc p) l = true) :
    GroupInv { s with loc := Function.update s.loc p l } := by
  have hact : l.active = (s.loc p).active ∧ l.commits = (s.loc p).commits ∧ ∀ c, l ≠ .commit c := by
    unfold Log.calls at hl
    split at hl <;> simp_all [LogLoc.active, LogLoc.commits]
  refine h.move ?_ ?_ h.alone h.fresh ?_ (Or.inl rfl)
  · rw [hact.1]
  · rw [hact.2.1]
  · rintro (h' | h')
    · exact absurd h' (hact.2.2 _)
    · exact absurd h' (hact.2.2 _)

end GroupInv

/-! ## Runs -/

/-- Why a process may sleep on `&log`. -/
def LogBusy (_ : LogChan) (l : Log) : Prop := l.committing = true ∨ 0 < l.outstanding

theorem GroupInv.step [DecidableEq P] {s s' : LogSys P} {a : Act P LogLoc} (h : GroupInv s)
    (hst : logMonitor.step s a = .ok () s') : GroupInv s' := by
  obtain ⟨p, t, d, rfl, -, hc, rfl⟩ | ⟨p, l, -, -, hl, rfl⟩ | ⟨p, -, rfl⟩ := Monitor.step_cases hst
  · exact h.code (k := s.killed p) hc
  · exact h.call hl
  · exact ⟨h.out, h.one, h.alone, h.fresh, h.erased⟩

theorem logBusy_code [DecidableEq P] {s : LogSys P} {p : P} (h : GroupInv s) {t : Turn LogChan LogLoc}
    {d : Log} (hc : Log.code (s.killed p) (s.loc p) s.data = .ok t d) (c : LogChan) :
    (t.parks = some c → LogBusy c d ∧ t.next = .beginOp) ∧
      (LogBusy c s.data → LogBusy c d ∨ c ∈ t.wakes) := by
  cases hp : s.loc p with
  | beginOp =>
    rw [hp] at hc
    simp only [Log.code] at hc
    split at hc
    · next l' hl =>
      cases hc
      obtain ⟨-, -, rfl⟩ := Log.beginOp_ok hl
      have h0 := h.out_nonneg
      exact ⟨nofun, fun _ => Or.inl (Or.inr (by dsimp only; omega))⟩
    · cases hc
    · next hl =>
      cases hc
      refine ⟨fun _ => ⟨?_, rfl⟩, fun hb => Or.inl hb⟩
      -- nothing outstanding and no commit means an empty header, and then there is room
      by_contra hidle
      obtain ⟨hcom, hout⟩ := not_or.1 hidle
      rw [Bool.not_eq_true] at hcom
      have hzero : s.data.outstanding = 0 := by
        have := h.out_nonneg
        omega
      unfold Log.beginOp at hl
      rw [hcom, h.fresh hzero hcom, hzero] at hl
      simp [LOGSIZE, MAXOPBLOCKS] at hl
  | logWrite b =>
    rw [hp] at hc
    obtain ⟨_, l', hl, hc⟩ := Res.bind_eq_ok.1 hc
    obtain ⟨-, -, -, rfl⟩ := Log.logWriteTest_ok hl
    cases hc
    exact ⟨nofun, fun hb => Or.inl hb⟩
  | append b =>
    rw [hp] at hc
    cases hc
    exact ⟨nofun, fun hb => Or.inl hb⟩
  | endOp =>
    rw [hp] at hc
    obtain ⟨doCommit, l', hl, hc⟩ := Res.bind_eq_ok.1 hc
    obtain ⟨-, ⟨rfl, -, rfl⟩ | ⟨rfl, -, rfl⟩⟩ := Log.endOpStart_ok hl
    · cases hc
      exact ⟨nofun, fun _ => Or.inl (Or.inl rfl)⟩
    · cases hc
      exact ⟨nofun, fun _ => Or.inr (List.mem_singleton.2 rfl)⟩
  | commit pos =>
    rw [hp] at hc
    cases hc
    obtain ⟨c', hturn, hlog, -⟩ | ⟨rfl, hturn, hlog⟩ | ⟨rfl, hturn, hlog⟩ :=
      Log.commitStep_cases s.data pos
    · rw [hturn, hlog]
      exact ⟨nofun, fun hb => Or.inl hb⟩
    · rw [hturn, hlog]
      exact ⟨nofun, fun hb => Or.inl hb⟩
    · rw [hturn, hlog]
      exact ⟨nofun, fun _ => Or.inr (List.mem_singleton.2 rfl)⟩
  | idle | inOp =>
    rw [hp] at hc
    cases hc

theorem GroupInv.closed [DecidableEq P] {s s' : LogSys P} {a : Act P LogLoc} (h : GroupInv s)
    (hcom : s.data.committing = true) (hst : logMonitor.step s a = .ok () s') :
    s'.data.outstanding = 0 ∧ (∀ p, s.loc p = .beginOp → s'.loc p = .beginOp) ∧
      (s'.data.lh = s.data.lh ∨ s'.data.lh = []) := by
  have hzero := h.alone hcom
  obtain ⟨p, t, d, rfl, -, hc, rfl⟩ | ⟨p, l, -, -, hl, rfl⟩ | ⟨p, -, rfl⟩ := Monitor.step_cases hst
  · have hactive : (s.loc p).active ≠ 1 := by
      intro ha
      have := h.pos_of_active ha
      omega
    change Log.code (s.killed p) (s.loc p) s.data = .ok t d at hc
    dsimp only
    cases hp : s.loc p with
    | beginOp =>
      rw [hp] at hc
      simp only [Log.code, Log.beginOp, hcom, if_true] at hc
      cases hc
      refine ⟨hzero, fun q hq => ?_, Or.inl rfl⟩
      by_cases hqp : q = p
      · rw [hqp, Function.update_self]
      · rwa [Function.update_of_ne hqp]
    | commit pos =>
      rw [hp] at hc
      cases hc
      have hother : ∀ (l : LogLoc) q, s.loc q = .beginOp → Function.update s.loc p l q = .beginOp := by
        intro l q hq
        have hqp : q ≠ p := by
          rintro rfl
          rw [hp] at hq
          cases hq
        rwa [Function.update_of_ne hqp]
      obtain ⟨c', hturn, hlog, -⟩ | ⟨rfl, hturn, hlog⟩ | ⟨rfl, hturn, hlog⟩ :=
        Log.commitStep_cases s.data pos
      · rw [hlog]
        exact ⟨hzero, hother _, Or.inl rfl⟩
      · rw [hlog]
        exact ⟨hzero, hother _, Or.inr rfl⟩
      · rw [hlog]
        exact ⟨hzero, hother _, Or.inl rfl⟩
    | idle =>
      rw [hp] at hc
      cases hc
    | inOp | logWrite b | append b | endOp => exact absurd (by rw [hp]; rfl) hactive
  · refine ⟨hzero, fun q hq => ?_, Or.inl rfl⟩
    have hqp : q ≠ p := by
      rintro rfl
      rw [hq] at hl
      cases hl
    dsimp only
    rwa [Function.update_of_ne hqp]
  · exact ⟨hzero, fun q hq => hq, Or.inl rfl⟩

/-! ## No operation is stranded -/

/-- Only `begin_op` sleeps. -/
def Beginners (s : LogSys P) : Prop := ∀ p c, s.asleep p = some c → s.loc p = .beginOp

omit [Fintype P] in
theorem Beginners.run [DecidableEq P] {s : LogSys P} (h : Beginners s) (p : P) {t : Turn LogChan LogLoc} {d : Log}
    (hpark : ∀ c, t.parks = some c → t.next = .beginOp) :
    Beginners { s with
      data := d
      loc := Function.update s.loc p t.next
      asleep := Function.update (wake t.wakes s.asleep) p t.parks } := by
  intro q c hq
  dsimp only at hq ⊢
  by_cases hqp : q = p
  · rw [hqp, Function.update_self] at hq ⊢
    exact hpark c hq
  · rw [Function.update_of_ne hqp] at hq ⊢
    exact h q c (wake_eq_some.1 hq).1

theorem group_inv [DecidableEq P] {nlog : Nat} {s : LogSys P}
    (h : Reaches logMonitor.step anyEvent (logInit nlog) s) : GroupInv s ∧ Waits LogBusy s ∧ Beginners s := by
  refine h.inv (I := fun s => GroupInv s ∧ Waits LogBusy s ∧ Beginners s)
    ⟨?_, Waits.init, fun p c hp => ?_⟩ fun s a s' ⟨hg, hw, hb⟩ _ hst => ⟨hg.step hst, ?_⟩
  · exact ⟨by simp [logInit, Procs.init, Log.init, LogLoc.active],
      by simp [logInit, Procs.init, Log.init, LogLoc.commits], fun _ => rfl, fun _ _ => rfl,
      fun _ _ => rfl⟩
  · cases hp
  · obtain ⟨p, t, d, rfl, -, hc, rfl⟩ | ⟨p, l, -, hp, hl, rfl⟩ | ⟨p, -, rfl⟩ := Monitor.step_cases hst
    · exact ⟨hw.run p (fun c hc' => ((logBusy_code hg hc c).1 hc').1) fun q c _ => (logBusy_code hg hc c).2,
        hb.run p fun c hc' => ((logBusy_code hg hc c).1 hc').2⟩
    · refine ⟨hw.call p l, fun q c hq => ?_⟩
      have hqp : q ≠ p := fun he => by
        rw [he, hp] at hq
        cases hq
      dsimp only
      rw [Function.update_of_ne hqp]
      exact hb q c hq
    · refine ⟨hw.kill p, fun q c hq => hb q c ?_⟩
      by_cases hqp : q = p
      · rw [hqp] at hq
        simp at hq
      · simpa [Function.update_of_ne hqp] using hq

/-- Sections of `commit` that are still to come, with a header of `n` blocks. -/
def CommitPos.left (n : Nat) : CommitPos → Nat
  | .done => 0
  | .erase => 1
  | .clear => 2
  | .installTrans tail => 3 + (n - tail)
  | .writeHead => 4 + n
  | .writeLog tail => 5 + n + (n - tail)
  | .test => 6 + 2 * n

theorem Log.commitStep_left (l : Log) {c : CommitPos} (hc : c ≠ .done) :
    ∃ c', (l.commitStep c).1 = ⟨[], none, .commit c'⟩ ∧
      c'.left (l.commitStep c).2.lh.length < c.left l.lh.length := by
  cases c with
  | done => exact absurd rfl hc
  | test | writeLog tail | installTrans tail =>
    refine ⟨_, rfl, ?_⟩
    simp only [Log.commitStep]
    split <;> simp only [CommitPos.left] <;> omega
  | writeHead => exact ⟨_, rfl, by simp only [CommitPos.left, Log.commitStep]; omega⟩
  | clear | erase => exact ⟨_, rfl, by simp only [CommitPos.left]; omega⟩

omit [Fintype P] in
theorem step_commit [DecidableEq P] {s : LogSys P} {p : P} {c : CommitPos} (hp : s.loc p = .commit c)
    (hawake : s.asleep p = none) : logMonitor.step s (.run p) = .ok () { s with
      data := (s.data.commitStep c).2
      loc := Function.update s.loc p (s.data.commitStep c).1.next
      asleep := Function.update (wake (s.data.commitStep c).1.wakes s.asleep) p
        (s.data.commitStep c).1.parks } := by
  rw [Monitor.step, if_pos hawake]
  show (Log.code (s.killed p) (s.loc p) s.data).bind _ = _
  rw [hp]
  rfl

omit [Fintype P] in
/-- A process in `commit` gets, by its own sections, to the one that clears `log.committing` and wakes all
sleepers. -/
theorem commit_ends [DecidableEq P] {s : LogSys P} {p : P} {c : CommitPos} (hp : s.loc p = .commit c)
    (hawake : s.asleep p = none) : ∃ n s', exec logMonitor.step s (List.replicate n (.run p)) = .ok () s' ∧
      s'.data.committing = false ∧ ∀ q, s'.asleep q = none := by
  -- induction on the number of sections that are left
  induction hk : c.left s.data.lh.length using Nat.strong_induction_on generalizing s c with
  | _ k ih =>
    have hstep := step_commit hp hawake
    by_cases hdone : c = .done
    · subst hdone
      refine ⟨1, _, (by simp only [List.replicate, exec, hstep, Res.bind_ok]; rfl), rfl, fun q => ?_⟩
      by_cases hqp : q = p
      · rw [hqp]
        exact Function.update_self _ _ _
      · refine (Function.update_of_ne hqp _ _).trans ?_
        cases hq : wake [LogChan.log] s.asleep q with
        | none => exact hq
        | some ch =>
          cases ch
          exact absurd (List.mem_singleton.2 rfl) (wake_eq_some.1 hq).2
    · obtain ⟨c', hturn, hlt⟩ := s.data.commitStep_left hdone
      rw [hturn] at hstep
      obtain ⟨n, s', hrun, hend⟩ := ih _ (hk ▸ hlt) (s := ⟨(s.data.commitStep c).2,
        Function.update s.loc p (.commit c'), Function.update (wake [] s.asleep) p none, s.killed⟩)
        (Function.update_self _ _ _) (Function.update_self _ _ _) rfl
      exact ⟨n + 1, s', by simp only [List.replicate, exec, hstep, Res.bind_ok]; exact hrun, hend⟩

theorem GroupInv.exists_commit {s : LogSys P} (h : GroupInv s) (hcom : s.data.committing = true) :
    ∃ p c, s.loc p = .commit c := by
  have hone := h.one
  rw [hcom] at hone
  obtain ⟨p, -, hp⟩ := Finset.exists_ne_zero_of_sum_ne_zero (show ∑ p, (s.loc p).commits ≠ 0 by rw [hone]; decide)
  cases hl : s.loc p with
  | commit c => exact ⟨p, c, hl⟩
  | _ => exact absurd (by rw [hl]; rfl) hp

theorem GroupInv.exists_active {s : LogSys P} (h : GroupInv s) (hout : 0 < s.data.outstanding) :
    ∃ p, (s.loc p).active = 1 := by
  have hsum := h.out
  obtain ⟨p, -, hp⟩ := Finset.exists_ne_zero_of_sum_ne_zero (show ∑ p, (s.loc p).active ≠ 0 by omega)
  refine ⟨p, ?_⟩
  cases hl : s.loc p <;> simp_all [LogLoc.active]

/-- The group-commit protocol.  In every state of every interleaving: who is in `commit` runs with no
operation outstanding; while `log.committing` is set, nobody is admitted and nothing is appended to
the header; with nothing outstanding and no commit the header is empty; and who sleeps on `&log` does
so while a commit or an operation is going on.  A commit that is going on has a process in it that by its own
sections wakes all sleepers, and an operation has one that is in it and awake. -/
theorem group_commit [DecidableEq P] {nlog : Nat} {s : LogSys P}
    (h : Reaches logMonitor.step anyEvent (logInit nlog) s) :
    (∀ p c, s.loc p = .commit c → s.data.committing = true ∧ s.data.outstanding = 0) ∧
    (s.data.committing = true → ∀ a s', logMonitor.step s a = .ok () s' →
      s'.data.outstanding = 0 ∧ (∀ p, s.loc p = .beginOp → s'.loc p = .beginOp) ∧
        (s'.data.lh = s.data.lh ∨ s'.data.lh = [])) ∧
    (s.data.outstanding = 0 → s.data.committing = false → s.data.lh.length = 0) ∧
    (∀ p, s.asleep p = some .log → s.data.committing = true ∨ 0 < s.data.outstanding) ∧
    (s.data.committing = true → ∃ p c n s', s.loc p = .commit c ∧
      exec logMonitor.step s (List.replicate n (.run p)) = .ok () s' ∧ s'.data.committing = false ∧
        ∀ q, s'.asleep q = none) ∧
    (0 < s.data.outstanding → ∃ p, (s.loc p).active = 1 ∧ s.asleep p = none) := by
  obtain ⟨hg, hw, hb⟩ := group_inv h
  have hawake : ∀ p, s.loc p ≠ .beginOp → s.asleep p = none := fun p hp => by
    by_contra hne
    obtain ⟨c, hc⟩ := Option.ne_none_iff_exists'.1 hne
    exact hp (hb p c hc)
  refine ⟨fun p c hp => ?_, fun hcom a s' hst => hg.closed hcom hst, fun ho hc => ?_,
    fun p hp => hw p .log hp, fun hcom => ?_, fun hout => ?_⟩
  · have hcom := hg.committing_of_commit hp
    exact ⟨hcom, hg.alone hcom⟩
  · rw [hg.fresh ho hc]
    rfl
  · obtain ⟨p, c, hp⟩ := hg.exists_commit hcom
    obtain ⟨n, s', hend⟩ := commit_ends hp (hawake p (by simp [hp]))
    exact ⟨p, c, n, s', hp, hend⟩
  · obtain ⟨p, hp⟩ := hg.exists_active hout
    exact ⟨p, hp, hawake p fun hl => by simp [hl, LogLoc.active] at hp⟩

/-- One process commits while another waits for it. -/
theorem group_commit_waiting : ∃ s : LogSys Bool,
    Reaches logMonitor.step anyEvent (logInit LOGSIZE) s ∧ s.asleep true = some .log ∧
      s.loc false = .commit (.writeLog 0) ∧ s.data.outstanding = 0 := by
  obtain ⟨s, hs, hsleep, hloc⟩ : ∃ s, exec logMonitor.step (logInit LOGSIZE : LogSys Bool)
      [.call false .beginOp, .run false, .call false (.logWrite 7), .run false, .run false,
        .call false .endOp, .run false, .call true .beginOp, .run true, .run false] = .ok () s ∧
      s.asleep true = some .log ∧ s.loc false = .commit (.writeLog 0) := ⟨_, rfl, rfl, rfl⟩
  exact ⟨s, reaches_exec hs, hsleep, hloc, ((group_commit (reaches_exec hs)).1 false _ hloc).2⟩

end Xv6
