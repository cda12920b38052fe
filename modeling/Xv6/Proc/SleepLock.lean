import Xv6.Proc.Notify

/-!
# Sleep locks: `sleeplock.c`

`SleepSys` is the process system with one sleep lock at address `a`.  What its processes do
elsewhere, other sleep locks included, are events of the process system.

`acquiresleep` and `releasesleep` are cut where a spin lock is taken or given up.  In
`sleep(lk, &lk->lk)` the process takes `ptable.lock`, then releases `lk->lk`, and marks itself
SLEEPING only after that: in between others find `lk->lk` free, but cannot wake anybody.

`held` is history: who is between the return of `acquiresleep` and its `releasesleep`.
-/

namespace Xv6

open Bytes Conc

/-- `struct sleeplock`, with `lk` the process that has the spin lock. -/
structure SleepLock where
  lk : Option Pid
  locked : Bool
  pid : Word

/-- Where a process is in the code of the lock. -/
inductive LockPos where
  | out
  /-- in `acquiresleep` before `acquire(&lk->lk)`, also the one at the end of `sleep` -/
  | enter
  /-- in `sleep` before `acquire(&ptable.lock)` -/
  | commit
  /-- in `sleep` after `release(lk)` -/
  | mark
  /-- in `sleep`, in `sched()` -/
  | asleep
  /-- in `releasesleep` before `acquire(&lk->lk)` -/
  | leave
  /-- in `releasesleep` before `wakeup(lk)` -/
  | wake
deriving DecidableEq

structure SleepSys (C : Type) where
  sys : ProcSys C
  lock : SleepLock
  pos : Pid → LockPos
  /-- who took `ptable.lock` in `sleep`, before it is SLEEPING -/
  swap : Option Pid
  held : Pid → Bool

inductive LockEvent (C : Type) where
  /-- anything else that the process system does -/
  | sys (e : ProcEvent C)
  /-- the process on a CPU calls one of the functions -/
  | acquiresleep (c : C)
  | releasesleep (c : C)
  /-- the process on a CPU takes its next step in it -/
  | run (c : C)

/-- `initsleeplock` -/
def SleepLock.init : SleepLock := ⟨none, false, 0⟩

/-- What `holdingsleep` returns to the process with id `pid`. -/
def SleepLock.holdingsleep (lk : SleepLock) (pid : Word) : Bool := lk.locked && lk.pid == pid

def ProcEvent.needsLock {C : Type} : ProcEvent C → Bool
  | .proc _ (.forkStack _) => false
  | .proc _ (.forkCopy _) => false
  | .proc _ .fault => false
  | .proc _ (.image _ _) => false
  | _ => true

namespace SleepSys

variable {C : Type} [DecidableEq C] (a : Nat) (s : SleepSys C)

/-- The process that the event is an action of may do it: in the code of the lock it is at most
interrupted before it takes the spin lock, elsewhere it does not sleep on this lock, and it does not
exit with the lock. -/
def allows (me : Pid) (x : ProcAct) : Bool :=
  match s.pos me, x with
  | .out, .sleep chan => chan != .addr a
  | .out, .exitEnd => !s.held me
  | .out, _ => true
  | .enter, .yield => true
  | .leave, .yield => true
  | _, _ => false

def enabled (e : ProcEvent C) : Bool :=
  (s.swap.isNone || !e.needsLock) &&
    match e with
    | .proc c x =>
      match s.sys.running c with
      | some me => s.allows a me x
      | none => true
    | _ => true

/-- After a switch to the process on CPU `c` it is where it called `sched()`. -/
def resumed (e : ProcEvent C) : Pid → LockPos :=
  match e with
  | .resume c =>
    match (s.sys.cpu c).sched with
    | .away p => if s.pos p = .asleep then Function.update s.pos p .enter else s.pos
    | _ => s.pos
  | _ => s.pos

def setPos (me : Pid) (x : LockPos) : SleepSys C := { s with pos := Function.update s.pos me x }

def lockStep (c : C) (me : Pid) : Res SchedPanic Unit (SleepSys C) :=
  match s.pos me with
  | .enter =>
    if s.lock.lk = none then
      if s.lock.locked then
        .ok () { s.setPos me .commit with lock := { s.lock with lk := some me } }
      else
        .ok () { s.setPos me .out with
          lock := ⟨none, true, (s.sys.table.proc me).pid⟩
          held := Function.update s.held me true }
    else .sleep
  | .commit =>
    if s.sys.lock = none ∧ s.swap = none then
      .ok () { s.setPos me .mark with lock := { s.lock with lk := none }, swap := some me }
    else .sleep
  | .mark =>
    (s.sys.step (.proc c (.sleep (.addr a)))).bind fun _ m =>
      .ok () { s.setPos me .asleep with sys := m, swap := none }
  | .leave =>
    if s.lock.lk = none then
      .ok () { s.setPos me .wake with
        lock := ⟨some me, false, 0⟩
        held := Function.update s.held me false }
    else .sleep
  | .wake =>
    if s.swap = none then
      (s.sys.step (.wakeup c (.addr a))).bind fun _ m =>
        .ok () { s.setPos me .out with sys := m, lock := { s.lock with lk := none } }
    else .sleep
  | .out => .sleep
  | .asleep => .sleep

def step : LockEvent C → Res SchedPanic Unit (SleepSys C)
  | .sys e =>
    if s.enabled a e then
      (s.sys.step e).bind fun _ m => .ok () { s with sys := m, pos := s.resumed e }
    else .sleep
  | .acquiresleep c =>
    match s.sys.running c with
    | some me => if s.pos me = .out then .ok () (s.setPos me .enter) else .sleep
    | none => .sleep
  -- only the holder releases
  | .releasesleep c =>
    match s.sys.running c with
    | some me => if s.pos me = .out ∧ s.held me then .ok () (s.setPos me .leave) else .sleep
    | none => .sleep
  | .run c =>
    match s.sys.running c with
    | some me => s.lockStep a c me
    | none => .sleep

/-- The first process is there, and the lock is free. -/
def boot : SleepSys C := ⟨ProcSys.boot, .init, fun _ => .out, none, fun _ => false⟩

end SleepSys

/-! ## Who is alive stays alive until it exits -/

namespace ProcSys

variable {C : Type} {m m' : ProcSys C} {e : ProcEvent C} {q : Pid}

theorem Change.alive (h : Change m e m') (hq : (m.table.proc q).state.Alive) :
    (m'.table.proc q).pid = (m.table.proc q).pid ∧ ((m'.table.proc q).state.Alive ∨
      ∃ c, e = .proc c .exitEnd ∧ m.running c = some q) := by
  cases h with
  | calm slots doing exits reaped next => exact ⟨(slots q).pid, Or.inl ((slots q).alive.2 hq)⟩
  | fork c p np x d alive doing vacant only proc new slot self others exits reaped =>
    have hne : q ≠ np := by
      rintro rfl
      exact ProcState.vacant_iff.1 vacant (Or.inl hq)
    rw [proc, Function.update_of_ne hne]
    exact ⟨rfl, Or.inl hq⟩
  | reap c p z cpu child zombie off slots free doing exits reaped next =>
    have hne : q ≠ z := by
      rintro rfl
      rw [zombie] at hq
      exact absurd hq (by decide)
    exact ⟨(slots q hne).pid, Or.inl ((slots q hne).alive.2 hq)⟩
  | exit c p event running state doing table left others exits reaped =>
    refine ⟨by rw [left.rest q], ?_⟩
    by_cases hqp : q = p
    · exact Or.inr ⟨c, event, hqp ▸ running⟩
    · rcases left.state q hqp with hs | ⟨-, hs⟩ <;> rw [hs]
      · exact Or.inl hq
      · exact Or.inl (by decide)

theorem Step.sleeper (h : Step m e m') {chan : Chan} (hq : (m'.table.proc q).state = .sleeping)
    (hchan : (m'.table.proc q).chan = some chan) :
    ((m.table.proc q).state = .sleeping ∧ (m.table.proc q).chan = some chan) ∨
      (∃ c, e = .proc c (.sleep chan) ∧ m.running c = some q) ∨ chan = .proc q := by
  cases h.asleep q hq with
  | still before chan killed parked => exact Or.inl ⟨before, chan ▸ hchan⟩
  | sleep c chan event running chan' parked =>
    rw [chan'] at hchan
    cases hchan
    exact Or.inr (Or.inl ⟨c, event, running⟩)
  | wait chan killed children =>
    rw [chan] at hchan
    exact Or.inr (Or.inr (Option.some.inj hchan).symm)

end ProcSys

/-! ## The invariant -/

namespace SleepSys

variable {C : Type} {a : Nat} {s s' : SleepSys C} {c : C} {me : Pid}

def Sleeps (a : Nat) (m : ProcSys C) (p : Pid) : Prop :=
  (m.table.proc p).state = .sleeping ∧ (m.table.proc p).chan = some (.addr a)

structure Inv (a : Nat) (s : SleepSys C) : Prop where
  ctl : s.sys.Ctl
  fam : s.sys.Fam
  alive : ∀ p, s.pos p ≠ .out ∨ s.held p = true → (s.sys.table.proc p).state.Alive
  commit : ∀ p, s.pos p = .commit → s.lock.lk = some p ∧ s.lock.locked = true
  mark : ∀ p, s.pos p = .mark → s.swap = some p
  leave : ∀ p, s.pos p = .leave → s.held p = true
  wake : ∀ p, s.pos p = .wake → s.lock.lk = some p
  held : ∀ p, s.held p = true → s.lock.locked = true ∧ s.lock.pid = (s.sys.table.proc p).pid
  uniq : ∀ p q, s.held p = true → s.held q = true → p = q
  /-- who sleeps, or is about to, will be woken -/
  waits : ∀ p, s.pos p = .mark ∨ Sleeps a s.sys p → s.lock.locked = true ∨ ∃ q, s.pos q = .wake

theorem alive_of_running (h : s.sys.Ctl) (hrun : s.sys.running c = some me) :
    (s.sys.table.proc me).state.Alive :=
  Or.inr (Or.inr ((h.running me).2 ⟨c, (ProcSys.running_eq hrun).1⟩))

theorem setPos_ne {p : Pid} (hp : p ≠ me) {x : LockPos} : (s.setPos me x).pos p = s.pos p :=
  Function.update_of_ne hp _ _

theorem lk_ne (hlk : s.lock.lk = none) (p : Pid) : s.lock.lk ≠ some p := by
  rw [hlk]
  nofun

theorem pos_of_update {x y : LockPos} {f : Pid → LockPos} {p : Pid} (h : Function.update f me x p = y)
    (hxy : x ≠ y) : p ≠ me ∧ f p = y := by
  by_cases hp : p = me
  · rw [hp, Function.update_self] at h
    exact absurd h hxy
  · rw [Function.update_of_ne hp] at h
    exact ⟨hp, h⟩

theorem Inv.alive_setPos (h : Inv a s) (hme : (s.sys.table.proc me).state.Alive) {x : LockPos} {p : Pid}
    (hp : (s.setPos me x).pos p ≠ .out ∨ s.held p = true) : (s.sys.table.proc p).state.Alive := by
  by_cases hpm : p = me
  · rw [hpm]
    exact hme
  · refine h.alive p ?_
    rwa [setPos_ne hpm] at hp

/-- A process outside `releasesleep` goes on, to a place where it has no lock. -/
theorem Inv.setPos (h : Inv a s) (hme : (s.sys.table.proc me).state.Alive) (hfrom : s.pos me ≠ .wake)
    {x : LockPos} (hx : x = .out ∨ x = .enter ∨ x = .asleep ∨ (x = .leave ∧ s.held me = true)) :
    Inv a (s.setPos me x) := by
  have hne : x ≠ .commit ∧ x ≠ .mark ∧ x ≠ .wake := by
    rcases hx with rfl | rfl | rfl | ⟨rfl, -⟩ <;> exact ⟨nofun, nofun, nofun⟩
  refine ⟨h.ctl, h.fam, fun p hp => h.alive_setPos hme hp,
    fun p hp => h.commit p (pos_of_update hp hne.1).2,
    fun p hp => h.mark p (pos_of_update hp hne.2.1).2, fun p hp => ?_,
    fun p hp => h.wake p (pos_of_update hp hne.2.2).2, h.held, h.uniq, fun p hp => ?_⟩
  · by_cases hpm : p = me
    · rw [hpm] at hp ⊢
      rw [show (s.setPos me x).pos me = x from Function.update_self ..] at hp
      rcases hx with rfl | rfl | rfl | ⟨-, hx⟩
      · cases hp
      · cases hp
      · cases hp
      · exact hx
    · rw [setPos_ne hpm] at hp
      exact h.leave p hp
  · refine (h.waits p (hp.imp (fun hp => (pos_of_update hp hne.2.1).2) id)).imp id ?_
    rintro ⟨q, hq⟩
    refine ⟨q, ?_⟩
    have hqm : q ≠ me := by
      rintro rfl
      exact hfrom hq
    rwa [setPos_ne hqm]

theorem Inv.take (h : Inv a s) (hme : (s.sys.table.proc me).state.Alive)
    (hlk : s.lock.lk = none) (hfree : s.lock.locked = false) :
    Inv a { s.setPos me .out with
      lock := ⟨none, true, (s.sys.table.proc me).pid⟩
      held := Function.update s.held me true } := by
  have hnone : ∀ p, s.held p = false := by
    intro p
    by_contra hp
    have := (h.held p (by simpa using hp)).1
    rw [hfree] at this
    cases this
  have hheld : ∀ p, Function.update s.held me true p = true → p = me := by
    intro p hp
    by_contra hne
    rw [Function.update_of_ne hne, hnone p] at hp
    cases hp
  refine ⟨h.ctl, h.fam, ?_, fun p hp => ?_, fun p hp => ?_, fun p hp => ?_, fun p hp => ?_,
    fun p hp => ⟨rfl, by cases hheld p hp; rfl⟩, fun p q hp hq => (hheld p hp).trans (hheld q hq).symm,
    fun _ _ => Or.inl rfl⟩
  · rintro p (hp | hp)
    · exact h.alive_setPos hme (Or.inl hp)
    · rw [hheld p hp]
      exact hme
  · exact (lk_ne hlk p (h.commit p (pos_of_update hp nofun).2).1).elim
  · exact h.mark p (pos_of_update hp nofun).2
  · have := h.leave p (pos_of_update hp nofun).2
    rw [hnone p] at this
    cases this
  · exact (lk_ne hlk p (h.wake p (pos_of_update hp nofun).2)).elim

theorem Inv.find (h : Inv a s) (hme : (s.sys.table.proc me).state.Alive)
    (hlk : s.lock.lk = none) (hlocked : s.lock.locked = true) :
    Inv a { s.setPos me .commit with lock := { s.lock with lk := some me } } := by
  refine ⟨h.ctl, h.fam, fun p hp => h.alive_setPos hme hp, fun p hp => ?_,
    fun p hp => h.mark p (pos_of_update hp nofun).2, fun p hp => h.leave p (pos_of_update hp nofun).2,
    fun p hp => (lk_ne hlk p (h.wake p (pos_of_update hp nofun).2)).elim, h.held, h.uniq,
    fun _ _ => Or.inl hlocked⟩
  · by_cases hpm : p = me
    · rw [hpm]
      exact ⟨rfl, hlocked⟩
    · rw [setPos_ne hpm] at hp
      exact (lk_ne hlk p (h.commit p hp).1).elim

theorem Inv.swaps (h : Inv a s) (hpos : s.pos me = .commit) (hswap : s.swap = none) :
    Inv a { s.setPos me .mark with lock := { s.lock with lk := none }, swap := some me } := by
  obtain ⟨hlk, hlocked⟩ := h.commit me hpos
  have hme : (s.sys.table.proc me).state.Alive := h.alive me (Or.inl (by rw [hpos]; nofun))
  have hown : ∀ p, s.lock.lk = some p → p = me := fun p hp => Option.some.inj (hp.symm.trans hlk)
  refine ⟨h.ctl, h.fam, fun p hp => h.alive_setPos hme hp, fun p hp => ?_, fun p hp => ?_,
    fun p hp => h.leave p (pos_of_update hp nofun).2, fun p hp => ?_, h.held, h.uniq,
    fun _ _ => Or.inl hlocked⟩
  · obtain ⟨hpm, hp⟩ := pos_of_update hp nofun
    exact absurd (hown p (h.commit p hp).1) hpm
  · by_cases hpm : p = me
    · rw [hpm]
    · rw [setPos_ne hpm] at hp
      have := h.mark p hp
      rw [hswap] at this
      cases this
  · obtain ⟨hpm, hp⟩ := pos_of_update hp nofun
    exact absurd (hown p (h.wake p hp)) hpm

theorem Inv.unlock (h : Inv a s) (hpos : s.pos me = .leave) (hlk : s.lock.lk = none) :
    Inv a { s.setPos me .wake with
      lock := ⟨some me, false, 0⟩
      held := Function.update s.held me false } := by
  have hnone : ∀ p, Function.update s.held me false p = true → False := by
    intro p hp
    by_cases hpm : p = me
    · rw [hpm, Function.update_self] at hp
      cases hp
    · rw [Function.update_of_ne hpm] at hp
      exact hpm (h.uniq p me hp (h.leave me hpos))
  have hme : (s.sys.table.proc me).state.Alive := h.alive me (Or.inl (by rw [hpos]; nofun))
  refine ⟨h.ctl, h.fam, fun p hp => ?_,
    fun p hp => (lk_ne hlk p (h.commit p (pos_of_update hp nofun).2).1).elim,
    fun p hp => h.mark p (pos_of_update hp nofun).2, fun p hp => ?_, fun p hp => ?_,
    fun p hp => (hnone p hp).elim, fun p q hp => (hnone p hp).elim,
    fun _ _ => Or.inr ⟨me, Function.update_self ..⟩⟩
  · exact h.alive_setPos hme (hp.imp id fun hp => (hnone p hp).elim)
  · obtain ⟨hpm, hp⟩ := pos_of_update hp nofun
    exact absurd (h.uniq p me (h.leave p hp) (h.leave me hpos)) hpm
  · by_cases hpm : p = me
    · rw [hpm]
    · rw [setPos_ne hpm] at hp
      exact (lk_ne hlk p (h.wake p hp)).elim

theorem Inv.woken (h : Inv a s) (hpos : s.pos me = .wake) (hswap : s.swap = none)
    (hsleep : ∀ p, ¬ Sleeps a s.sys p) :
    Inv a { s.setPos me .out with lock := { s.lock with lk := none } } := by
  have hme : (s.sys.table.proc me).state.Alive := h.alive me (Or.inl (by rw [hpos]; nofun))
  have hown : ∀ p, s.lock.lk = some p → p = me := fun p hp =>
    Option.some.inj (hp.symm.trans (h.wake me hpos))
  have hmark : ∀ p, s.pos p ≠ .mark := by
    intro p hp
    have := h.mark p hp
    rw [hswap] at this
    cases this
  refine ⟨h.ctl, h.fam, fun p hp => h.alive_setPos hme hp, fun p hp => ?_,
    fun p hp => (hmark p (pos_of_update hp nofun).2).elim,
    fun p hp => h.leave p (pos_of_update hp nofun).2, fun p hp => ?_, h.held, h.uniq, ?_⟩
  · obtain ⟨hpm, hp⟩ := pos_of_update hp nofun
    exact absurd (hown p (h.commit p hp).1) hpm
  · obtain ⟨hpm, hp⟩ := pos_of_update hp nofun
    exact absurd (hown p (h.wake p hp)) hpm
  · rintro p (hp | hp)
    · exact (hmark p (pos_of_update hp nofun).2).elim
    · exact (hsleep p hp).elim

variable [DecidableEq C]

theorem Inv.change (h : Inv a s) {e : ProcEvent C} {m : ProcSys C} (hst : s.sys.step e = .ok () m)
    (hexit : ∀ c p, e = .proc c .exitEnd → s.sys.running c = some p →
      s.pos p = .out ∧ s.held p = false)
    (hsleep : ∀ c p, e = .proc c (.sleep (.addr a)) → s.sys.running c = some p → s.pos p = .mark) :
    Inv a { s with sys := m } := by
  obtain ⟨hc, hsound⟩ := ProcSys.step_sound h.ctl h.fam hst
  have halive : ∀ p, s.pos p ≠ .out ∨ s.held p = true → (m.table.proc p).state.Alive := by
    intro p hp
    refine (hsound.change.alive (h.alive p hp)).2.resolve_right ?_
    rintro ⟨c, he, hrun⟩
    obtain ⟨hout, hheld⟩ := hexit c p he hrun
    rcases hp with hp | hp
    · exact hp hout
    · rw [hheld] at hp
      cases hp
  refine ⟨hc, h.fam.step hsound, halive, h.commit, h.mark, h.leave, h.wake,
    fun p hp => ?_, h.uniq, ?_⟩
  · obtain ⟨hl, hpid⟩ := h.held p hp
    exact ⟨hl, hpid.trans (hsound.change.alive (h.alive p (Or.inr hp))).1.symm⟩
  · rintro p (hp | ⟨hs, hchan⟩)
    · exact h.waits p (Or.inl hp)
    · rcases hsound.sleeper hs hchan with hp | ⟨c, he, hrun⟩ | hchan
      · exact h.waits p (Or.inr hp)
      · exact h.waits p (Or.inl (hsleep c p he hrun))
      · cases hchan

theorem Inv.lockStep (h : Inv a s) (hrun : s.sys.running c = some me)
    (hst : s.lockStep a c me = .ok () s') : Inv a s' := by
  have hme := alive_of_running h.ctl hrun
  unfold SleepSys.lockStep at hst
  split at hst
  · next hpos =>
    split at hst
    · next hlk =>
      split at hst
      · next hlocked =>
        cases hst
        exact h.find hme hlk hlocked
      · next hlocked =>
        cases hst
        exact h.take hme hlk (by simpa using hlocked)
    · cases hst
  · next hpos =>
    split at hst
    · next hfree =>
      cases hst
      exact h.swaps hpos hfree.2
    · cases hst
  · next hpos =>
    obtain ⟨_, m, hm, hst⟩ := Res.bind_eq_ok.1 hst
    cases hst
    have hchange : Inv a { s with sys := m } := by
      refine h.change hm nofun fun c' p he hp => ?_
      cases he
      rw [hrun] at hp
      cases hp
      exact hpos
    have halive : (m.table.proc me).state.Alive := hchange.alive me (Or.inl (by rw [hpos]; nofun))
    have hasleep := hchange.setPos halive (by rw [hpos]; nofun) (Or.inr (Or.inr (Or.inl rfl)))
    -- `ptable.lock` was this process's, so nobody else is at `mark`
    refine { hasleep with mark := fun p hp => ?_ }
    obtain ⟨hpm, hp⟩ := pos_of_update hp nofun
    have hswap := h.mark p hp
    rw [h.mark me hpos] at hswap
    exact absurd (Option.some.inj hswap).symm hpm
  · next hpos =>
    split at hst
    · next hlk =>
      cases hst
      exact h.unlock hpos hlk
    · cases hst
  · next hpos =>
    split at hst
    · next hswap =>
      obtain ⟨_, m, hm, hst⟩ := Res.bind_eq_ok.1 hst
      cases hst
      have hchange : Inv a { s with sys := m } := h.change hm nofun nofun
      refine hchange.woken hpos hswap fun p hp => ?_
      simp only [ProcSys.step] at hm
      split at hm <;> cases hm
      obtain ⟨hsame, hchan⟩ := Ptable.asleep_wakeup1 hp.1
      exact hchan (hsame ▸ hp.2)
    · cases hst
  · cases hst
  · cases hst

omit [DecidableEq C] in
/-- A process at `sched()` in `sleep` goes on, if it is switched to. -/
theorem Inv.resumed {m : ProcSys C} (h : Inv a { s with sys := m }) (e : ProcEvent C) :
    Inv a { s with sys := m, pos := s.resumed e } := by
  unfold SleepSys.resumed
  split
  · split
    · next c p hp =>
      split
      · next hpos =>
        exact h.setPos (h.alive p (Or.inl (by rw [hpos]; nofun))) (by rw [hpos]; nofun)
          (Or.inr (Or.inl rfl))
      · exact h
    · exact h
  · exact h

theorem Inv.step {e : LockEvent C} (h : Inv a s) (hst : s.step a e = .ok () s') : Inv a s' := by
  cases e with
  | sys e =>
    simp only [SleepSys.step] at hst
    split at hst
    · next hen =>
      obtain ⟨_, m, hm, hst⟩ := Res.bind_eq_ok.1 hst
      cases hst
      have hallow : ∀ c x p, e = .proc c x → s.sys.running c = some p → s.allows a p x = true := by
        rintro c x p rfl hp
        simp only [enabled, hp, Bool.and_eq_true] at hen
        exact hen.2
      have hchange : Inv a { s with sys := m } := by
        refine h.change hm (fun c p he hp => ?_) fun c p he hp => ?_
        · have := hallow c _ p he hp
          unfold allows at this
          split at this <;> simp_all
        · have := hallow c _ p he hp
          unfold allows at this
          split at this <;> simp_all
      exact hchange.resumed e
    · cases hst
  | acquiresleep c =>
    simp only [SleepSys.step] at hst
    split at hst
    · next me hrun =>
      split at hst <;> cases hst
      next hpos =>
        exact h.setPos (alive_of_running h.ctl hrun) (by rw [hpos]; nofun) (Or.inr (Or.inl rfl))
    · cases hst
  | releasesleep c =>
    simp only [SleepSys.step] at hst
    split at hst
    · next me hrun =>
      split at hst <;> cases hst
      next hpos =>
        exact h.setPos (alive_of_running h.ctl hrun) (by rw [hpos.1]; nofun)
          (Or.inr (Or.inr (Or.inr ⟨rfl, hpos.2⟩)))
    · cases hst
  | run c =>
    simp only [SleepSys.step] at hst
    split at hst
    · next me hrun => exact h.lockStep hrun hst
    · cases hst

omit [DecidableEq C] in
theorem inv_boot : Inv a (boot : SleepSys C) := by
  have hawake : ∀ p, (Ptable.userinit.proc p).state ≠ .sleeping := by decide
  refine ⟨ProcSys.boot_inv.1, ProcSys.boot_inv.2.1, ?_, nofun, nofun, nofun, nofun, nofun, nofun, ?_⟩
  · rintro p (hp | hp)
    · exact absurd rfl hp
    · cases hp
  · rintro p (hp | hp)
    · cases hp
    · exact absurd hp.1 (hawake p)

/-- At most one process is between the return of `acquiresleep` and its `releasesleep`, its id is the
lock's, and nobody sleeps on the lock when the spin lock is free and the lock is too. -/
theorem sleeplock_excludes (h : Reaches (SleepSys.step (C := C) a) anyEvent boot s) :
    (∀ p q, s.held p = true → s.held q = true → p = q) ∧
    (∀ p, s.held p = true → s.lock.locked = true ∧ s.lock.pid = (s.sys.table.proc p).pid) ∧
    (s.lock.lk = none → s.lock.locked = false → ∀ p, ¬ Sleeps a s.sys p) := by
  have hinv : Inv a s := h.inv inv_boot fun s e s' hi _ hst => hi.step hst
  refine ⟨hinv.uniq, hinv.held, fun hlk hfree p hp => ?_⟩
  rcases hinv.waits p (Or.inr hp) with hlocked | ⟨q, hq⟩
  · rw [hfree] at hlocked
    cases hlocked
  · have hown := hinv.wake q hq
    rw [hlk] at hown
    cases hown

/-- The holder finds that it holds the lock: `iunlock`, `bwrite`, `brelse` and `iderw` do not panic. -/
theorem holdingsleep_of_held (h : Reaches (SleepSys.step (C := C) a) anyEvent boot s) {p : Pid}
    (hp : s.held p = true) : s.lock.holdingsleep (s.sys.table.proc p).pid = true := by
  have hinv : Inv a s := h.inv inv_boot fun s e s' hi _ hst => hi.step hst
  obtain ⟨hlocked, hpid⟩ := hinv.held p hp
  simp [SleepLock.holdingsleep, hlocked, hpid]

/-- The first process takes the lock on one CPU; its child calls `acquiresleep` on the other, and gets as
far as `release(lk)` in `sleep`. -/
def contend : List (LockEvent Bool) :=
  [.sys (.acquire false), .sys (.scan false), .sys (.resume false),
    .sys (.proc false .forkAlloc), .sys (.proc false (.forkStack true)),
    .sys (.proc false (.forkCopy true)), .sys (.proc false .forkReady),
    .sys (.acquire true), .sys (.scan true), .sys (.scan true), .sys (.resume true),
    .acquiresleep false, .run false, .acquiresleep true, .run true, .run true]

/-- The holder unlocks before the child is SLEEPING, and wakes it after. -/
def handOver : List (LockEvent Bool) :=
  contend ++ [.releasesleep false, .run false, .run true, .sys (.back true)] ++
    List.replicate 63 (.sys (.scan true)) ++ [.run false]

/-- The child was put to sleep on an unlocked lock, and does not sleep any more. -/
theorem sleeplock_excludes_hand_over : ∃ s : SleepSys Bool,
    Reaches (SleepSys.step 7) anyEvent boot s ∧ s.pos 1 = .asleep ∧ s.lock.lk = none ∧
      s.lock.locked = false ∧ ∀ p, ¬ Sleeps 7 s.sys p := by
  have h : ((exec (SleepSys.step 7) (boot : SleepSys Bool) handOver).bind fun _ s =>
      (.ok (decide (s.pos 1 = .asleep ∧ s.lock.lk = none ∧ s.lock.locked = false)) () :
        Res SchedPanic Bool Unit)) = .ok true () := by
    decide +kernel
  obtain ⟨_, s, hs, ht⟩ := Res.bind_eq_ok.1 h
  have hd : decide (s.pos 1 = .asleep ∧ s.lock.lk = none ∧ s.lock.locked = false) = true := by
    simpa using ht
  obtain ⟨hpos, hlk, hfree⟩ := of_decide_eq_true hd
  have hreach := reaches_exec hs
  exact ⟨s, hreach, hpos, hlk, hfree, (sleeplock_excludes hreach).2.2 hlk hfree⟩

end SleepSys

end Xv6
