import Xv6.Proc.Reap
import Xv6.Pipe.Sections

/-!
# Waits that a kill should end

`pipewrite`, `piperead`, `consoleread` and `sys_sleep` wait in a loop under a lock of their
own: while there is nothing to do they test `myproc()->killed` and call `sleep`, which takes
`ptable.lock` and gives the other lock up.  `WaitSys` is the process system with these loops,
every taking of a lock and every test of `killed` being a step of its own.

`kill` needs `ptable.lock` only.  If it comes after the test and before `sleep` has the lock, it
finds the process RUNNING, does not wake it, and the process sleeps all the same.
`wait` tests `killed` with `ptable.lock` held and has no such window.
-/

namespace Xv6

open Bytes Conc

abbrev INPUT_BUF : Nat := 128

structure Input where
  buf : Blk INPUT_BUF
  r : Nat
  w : Nat
  e : Nat

/-- The locks of the loops. -/
inductive WaitLock where
  | pipe (p : Nat)
  | cons
  | ticks
deriving DecidableEq

/-- A call of one of the four functions, with what is left of it. -/
inductive WaitCall where
  | pipewrite (p n : Nat) (rest : List Byte)
  | piperead (p n : Nat)
  /-- `got` was copied, and `n` bytes are still wanted -/
  | consoleread (target n : Nat) (got : List Byte)
  /-- `ticks0` is read when the lock was taken for the first time -/
  | sleep (ticks0 : Option Nat) (n : Nat)

/-- Where a process is with respect to the loops. -/
inductive WaitPos where
  | out
  /-- before `acquire(lk)` -/
  | enter (w : WaitCall)
  /-- before the test of `killed` -/
  | test (w : WaitCall)
  /-- in `pipewrite` before `wakeup(&p->nread)` -/
  | wake (w : WaitCall)
  /-- in `sleep` before `acquire(&ptable.lock)` -/
  | commit (w : WaitCall)
  /-- in `sleep`, in `sched()` -/
  | asleep (w : WaitCall)
  /-- before the last wakeup of `pipewrite` and `piperead` -/
  | notify (l : WaitLock) (chan : Chan) (r : Int) (bytes : List Byte)
  /-- returned -/
  | ret (r : Int) (bytes : List Byte)

structure WaitData where
  pipes : Nat → Pipe
  input : Input
  ticks : Nat

namespace WaitCall

def lock : WaitCall → WaitLock
  | pipewrite p _ _ => .pipe p
  | piperead p _ => .pipe p
  | consoleread .. => .cons
  | sleep .. => .ticks

end WaitCall

/-- `&p->nread`, `&p->nwrite`, `&input.r` and `&ticks` are different addresses. -/
def nreadChan (p : Nat) : Chan := .addr (2 * p + 2)

@[inherit_doc nreadChan]
def nwriteChan (p : Nat) : Chan := .addr (2 * p + 3)

@[inherit_doc nreadChan]
def inputChan : Chan := .addr 0

@[inherit_doc nreadChan]
def ticksChan : Chan := .addr 1

def WaitCall.chan : WaitCall → Chan
  | pipewrite p _ _ => nwriteChan p
  | piperead p _ => nreadChan p
  | consoleread .. => inputChan
  | sleep .. => ticksChan

/-! ## The loops, from taking the lock to the next test of `killed` or to the end -/

/-- `for(i = 0; i < n; i++)` of `pipewrite` -/
def pipewriteLoop (p n : Nat) : List Byte → Pipe → WaitPos × Pipe
  | [], x => (.notify (.pipe p) (nreadChan p) n [], x)
  | c :: rest, x =>
    if x.full then
      if x.readopen = false then (.ret (-1) [], x) else (.test (.pipewrite p n (c :: rest)), x)
    else pipewriteLoop p n rest (x.store c)

def pipereadLoop (p n : Nat) (x : Pipe) : WaitPos × Pipe :=
  if x.empty = true ∧ x.writeopen = true then (.test (.piperead p n), x)
  else
    let r := Fs.pipeTake x n
    (.notify (.pipe p) (nwriteChan p) r.1.length r.1, r.2)

/-- `while(n > 0)` of `consoleread`; `^D` is the end of the input and is kept for the next call if bytes
were copied. -/
def consolereadLoop (target : Nat) : Nat → List Byte → Input → WaitPos × Input
  | 0, got, x => (.ret target got, x)
  | n + 1, got, x =>
    if x.r = x.w then (.test (.consoleread target (n + 1) got), x)
    else
      let c := x.buf.get (x.r % INPUT_BUF)
      let next := { x with r := Fs.incr x.r }
      if c = 4 then (.ret (target - (n + 1) : Int) got, if n + 1 < target then x else next)
      else if c = 10 then (.ret (target - n : Int) (got ++ [c]), next)
      else consolereadLoop target n (got ++ [c]) next

/-- `while(ticks - ticks0 < n)` of `sys_sleep`, with both sides unsigned -/
def sleepLoop (ticks0 n ticks : Nat) : WaitPos :=
  if (ticks + 2 ^ 32 - ticks0) % 2 ^ 32 < n then .test (.sleep (some ticks0) n) else .ret 0 []

def WaitCall.loop (d : WaitData) : WaitCall → WaitPos × WaitData
  | .pipewrite p n rest =>
    let r := pipewriteLoop p n rest (d.pipes p)
    (r.1, { d with pipes := Function.update d.pipes p r.2 })
  | .piperead p n =>
    let r := pipereadLoop p n (d.pipes p)
    (r.1, { d with pipes := Function.update d.pipes p r.2 })
  | .consoleread target n got =>
    let r := consolereadLoop target n got d.input
    (r.1, { d with input := r.2 })
  | .sleep ticks0 n => (sleepLoop (ticks0.getD d.ticks) n d.ticks, d)

/-- The lock is kept until the next test of `killed` or the last wakeup. -/
def WaitPos.holds : WaitPos → Bool
  | .test _ | .wake _ | .commit _ | .notify .. => true
  | _ => false

/-! ## The system -/

structure WaitSys (C : Type) where
  sys : ProcSys C
  pos : Pid → WaitPos
  lock : WaitLock → Option Pid
  data : WaitData

inductive WaitEvent (C : Type) where
  /-- anything else that the process system does -/
  | sys (e : ProcEvent C)
  /-- the process on a CPU calls one of the four functions -/
  | call (c : C) (w : WaitCall)
  /-- the process on a CPU takes its next step in the loop -/
  | run (c : C)
  /-- other users of a pipe, the console and the clock, with the lock -/
  | pipe (p : Nat) (x : Pipe)
  | input (x : Input)
  | tick

namespace WaitSys

variable {C : Type} [DecidableEq C] (s : WaitSys C)

/-- The process is in none of the calls. -/
def idle : WaitPos → Bool
  | .out => true
  | .ret .. => true
  | _ => false

/-- A process in a loop does nothing else; before it takes the lock it may be interrupted. -/
def allows : WaitPos → ProcAct → Bool
  | .enter _, .yield => true
  | x, _ => idle x

/-- The process that the event is an action of may do it. -/
def enabled : ProcEvent C → Bool
  | .proc c a =>
    match s.sys.running c with
    | some me => allows (s.pos me) a
    | none => true
  | _ => true

/-- `sleep` after `sched()`: the lock of the loop is to be taken again. -/
def awake : WaitPos → WaitPos
  | .asleep w => .enter w
  | x => x

/-- After a switch to the process on CPU `c` it is where it called `sched()`. -/
def resumed (e : ProcEvent C) : Pid → WaitPos :=
  match e with
  | .resume c =>
    match (s.sys.cpu c).sched with
    | .away p => Function.update s.pos p (awake (s.pos p))
    | _ => s.pos
  | _ => s.pos

def loopStep (c : C) (me : Pid) : Res SchedPanic Unit (WaitSys C) :=
  match s.pos me with
  | .enter w =>
    if s.lock w.lock = none then
      let r := w.loop s.data
      .ok () { s with
        data := r.2
        pos := Function.update s.pos me r.1
        lock := Function.update s.lock w.lock (if r.1.holds then some me else none) }
    else .sleep
  | .test w =>
    if (s.sys.table.proc me).killed then
      .ok () { s with
        pos := Function.update s.pos me (.ret (-1) [])
        lock := Function.update s.lock w.lock none }
    else
      .ok () { s with pos := Function.update s.pos me (match w with
        | .pipewrite .. => .wake w
        | _ => .commit w) }
  | .wake w =>
    (s.sys.step (.wakeup c (match w with
      | .pipewrite p _ _ => nreadChan p
      | _ => w.chan))).bind fun _ m =>
      .ok () { s with sys := m, pos := Function.update s.pos me (.commit w) }
  | .commit w =>
    (s.sys.step (.proc c (.sleep w.chan))).bind fun _ m => .ok () { s with
      sys := m
      pos := Function.update s.pos me (.asleep w)
      lock := Function.update s.lock w.lock none }
  | .notify l chan r bytes =>
    (s.sys.step (.wakeup c chan)).bind fun _ m => .ok () { s with
      sys := m
      pos := Function.update s.pos me (.ret r bytes)
      lock := Function.update s.lock l none }
  | .out => .sleep
  | .asleep _ => .sleep
  | .ret .. => .sleep

def step : WaitEvent C → Res SchedPanic Unit (WaitSys C)
  | .sys e =>
    if s.enabled e then (s.sys.step e).bind fun _ m => .ok () { s with sys := m, pos := s.resumed e }
    else .sleep
  | .call c w =>
    match s.sys.running c with
    | some me =>
      if idle (s.pos me) then .ok () { s with pos := Function.update s.pos me (.enter w) }
      else .sleep
    | none => .sleep
  | .run c =>
    match s.sys.running c with
    | some me => s.loopStep c me
    | none => .sleep
  | .pipe p x =>
    if s.lock (.pipe p) = none then
      .ok () { s with data := { s.data with pipes := Function.update s.data.pipes p x } }
    else .sleep
  | .input x =>
    if s.lock .cons = none then .ok () { s with data := { s.data with input := x } } else .sleep
  | .tick =>
    if s.lock .ticks = none then
      .ok () { s with data := { s.data with ticks := Fs.incr s.data.ticks } }
    else .sleep

/-- The first process is there, and nobody is in a loop. -/
def boot (d : WaitData) : WaitSys C := ⟨ProcSys.boot, fun _ => .out, fun _ => none, d⟩

end WaitSys

/-! ## Between the test of `killed` and `sched()` -/

namespace WaitPos

/-- `killed` was tested, and `sleep` has not taken `ptable.lock` yet. -/
def Committed : WaitPos → Prop
  | .wake _ => True
  | .commit _ => True
  | _ => False

def Asleep : WaitPos → Prop
  | .asleep _ => True
  | _ => False

instance : (x : WaitPos) → Decidable x.Asleep
  | .asleep _ => .isTrue trivial
  | .out | .enter _ | .test _ | .wake _ | .commit _ | .notify .. | .ret .. => .isFalse id

end WaitPos

/-- Nobody gets from taking the lock to `sleep` without a test of `killed`. -/
theorem loop_tests (d : WaitData) (w : WaitCall) :
    ¬ (w.loop d).1.Committed ∧ ¬ (w.loop d).1.Asleep := by
  cases w with
  | pipewrite p n rest =>
    have hloop : ∀ x, ¬ (pipewriteLoop p n rest x).1.Committed ∧
        ¬ (pipewriteLoop p n rest x).1.Asleep := by
      induction rest with
      | nil => exact fun x => ⟨id, id⟩
      | cons c rest ih =>
        intro x
        unfold pipewriteLoop
        split
        · split <;> exact ⟨id, id⟩
        · exact ih _
    exact hloop _
  | piperead p n =>
    show ¬ (pipereadLoop p n (d.pipes p)).1.Committed ∧ ¬ (pipereadLoop p n (d.pipes p)).1.Asleep
    unfold pipereadLoop
    split <;> exact ⟨id, id⟩
  | consoleread target n got =>
    have hloop : ∀ got x, ¬ (consolereadLoop target n got x).1.Committed ∧
        ¬ (consolereadLoop target n got x).1.Asleep := by
      induction n with
      | zero => exact fun got x => ⟨id, id⟩
      | succ n ih =>
        intro got x
        unfold consolereadLoop
        split
        · exact ⟨id, id⟩
        · dsimp only
          split
          · exact ⟨id, id⟩
          · split
            · exact ⟨id, id⟩
            · exact ih _ _
    exact hloop _ _
  | sleep ticks0 n =>
    show ¬ (sleepLoop _ _ _).Committed ∧ ¬ (sleepLoop _ _ _).Asleep
    unfold sleepLoop
    split <;> exact ⟨id, id⟩

/-- Nobody is about to sleep, or sleeps, who was killed. -/
structure Heeds {C : Type} (m : ProcSys C) (pos : Pid → WaitPos) : Prop where
  commit : ∀ p, (pos p).Committed → (m.table.proc p).killed = false
  asleep : ∀ p, (m.table.proc p).state = .sleeping →
    (pos p).Asleep ∨ (m.thread p).parked = some .wait → (m.table.proc p).killed = false

namespace Heeds

variable {C : Type} {m m' : ProcSys C} {e : ProcEvent C} {pos : Pid → WaitPos}

/-- A process goes on to another place. -/
theorem move (h : Heeds m pos) {p : Pid} {x : WaitPos}
    (hx : x.Committed ∨ x.Asleep → (m.table.proc p).killed = false) :
    Heeds m (Function.update pos p x) := by
  refine ⟨fun q hq => ?_, fun q hs hq => ?_⟩
  · by_cases hqp : q = p
    · rw [hqp, Function.update_self] at hq
      rw [hqp]
      exact hx (Or.inl hq)
    · rw [Function.update_of_ne hqp] at hq
      exact h.commit q hq
  · by_cases hqp : q = p
    · rw [hqp, Function.update_self] at hq
      rw [hqp] at hs ⊢
      rcases hq with hq | hq
      · exact hx (Or.inr hq)
      · exact h.asleep p hs (Or.inr hq)
    · rw [Function.update_of_ne hqp] at hq
      exact h.asleep q hs hq

/-- A step of the process system, that does not kill someone who is about to sleep. -/
theorem step (h : Heeds m pos) (hst : m.Step e m') (hhit : ∀ q, m.Hits e q → ¬ (pos q).Committed)
    (hsleep : ∀ c chan p, e = .proc c (.sleep chan) → m.running c = some p → ¬ (pos p).Asleep) :
    Heeds m' pos := by
  refine ⟨fun q hq => ?_, fun q hs hq => ?_⟩
  · by_contra hk
    rcases hst.killed q (by simpa using hk) with hkilled | hit
    · rw [h.commit q hq] at hkilled
      cases hkilled
    · exact hhit q hit hq
  · cases hst.asleep q hs with
    | still before chan killed parked =>
      rw [parked] at hq
      exact killed.trans (h.asleep q before hq)
    | sleep c chan event running chan' parked =>
      -- not one of the loops, which sleep by themselves
      rcases hq with hq | hq
      · exact absurd hq (hsleep c chan q event running)
      · rw [parked] at hq
        cases hq
    | wait chan killed children => exact killed

end Heeds

namespace WaitSys

variable {C : Type} [DecidableEq C] {s s' : WaitSys C} {e : WaitEvent C} {d : WaitData}

/-- `kill` does not come between the test of `killed` and `sleep` of the process it is for. -/
def KillsInTime (s : WaitSys C) (e : WaitEvent C) : Prop :=
  ∀ c pid, e = .sys (.proc c (.kill pid)) →
    ∀ p, (s.sys.table.proc p).pid = pid → ¬ (s.pos p).Committed

/-- The invariants of the process system, and that nobody sleeps through a kill. -/
structure Inv (s : WaitSys C) : Prop where
  ctl : s.sys.Ctl
  fam : s.sys.Fam
  heeds : Heeds s.sys s.pos

omit [DecidableEq C] in
theorem not_committed_of_idle {x : WaitPos} (h : idle x = true) : ¬ x.Committed ∧ ¬ x.Asleep := by
  cases x <;> simp_all [idle, WaitPos.Committed, WaitPos.Asleep]

theorem allows_eq {x : WaitPos} {a : ProcAct} (h : allows x a = true) : idle x = true ∨ a = .yield := by
  unfold allows at h
  split at h
  · exact Or.inr rfl
  · exact Or.inl h

/-- A step of the process system, taken by any part of the kernel. -/
theorem Inv.sys (h : Inv s) {e : ProcEvent C} {m : ProcSys C} (hst : s.sys.step e = .ok () m)
    (hhit : ∀ q, s.sys.Hits e q → ¬ (s.pos q).Committed)
    (hsleep : ∀ c chan p, e = .proc c (.sleep chan) → s.sys.running c = some p →
      ¬ (s.pos p).Asleep) : m.Ctl ∧ m.Fam ∧ Heeds m s.pos := by
  obtain ⟨hc, hst⟩ := ProcSys.step_sound h.ctl h.fam hst
  exact ⟨hc, h.fam.step hst, h.heeds.step hst hhit hsleep⟩

theorem Inv.wakeup (h : Inv s) {c : C} {chan : Chan} {m : ProcSys C}
    (hst : s.sys.step (.wakeup c chan) = .ok () m) : m.Ctl ∧ m.Fam ∧ Heeds m s.pos := by
  refine h.sys hst ?_ nofun
  rintro q (⟨c, he, -⟩ | ⟨c, pid, he, -⟩) <;> cases he

theorem Inv.loopStep (h : Inv s) {c : C} {me : Pid} (hrun : s.sys.running c = some me)
    (hst : s.loopStep c me = .ok () s') : Inv s' := by
  unfold WaitSys.loopStep at hst
  split at hst
  · next w hpos =>
    split at hst
    · cases hst
      exact ⟨h.ctl, h.fam, h.heeds.move fun hx => (hx.elim (loop_tests _ w).1 (loop_tests _ w).2).elim⟩
    · cases hst
  · next w hpos =>
    split at hst
    · cases hst
      exact ⟨h.ctl, h.fam, h.heeds.move fun hx => (hx.elim id id).elim⟩
    · next hk =>
      -- the test of `killed`
      cases hst
      exact ⟨h.ctl, h.fam, h.heeds.move fun _ => by simpa using hk⟩
  · next w hpos =>
    obtain ⟨_, m, hm, hst⟩ := Res.bind_eq_ok.1 hst
    cases hst
    obtain ⟨hc, hf, hh⟩ := h.wakeup hm
    exact ⟨hc, hf, hh.move fun _ => hh.commit me (by rw [hpos]; trivial)⟩
  · next w hpos =>
    obtain ⟨_, m, hm, hst⟩ := Res.bind_eq_ok.1 hst
    cases hst
    obtain ⟨hc, hf, hh⟩ := h.sys hm
      (by rintro q (⟨c, he, -⟩ | ⟨c, pid, he, -⟩) <;> cases he)
      (by
        intro c' chan p he hp
        cases he
        rw [hrun, Option.some.injEq] at hp
        rw [← hp, hpos]
        exact id)
    exact ⟨hc, hf, hh.move fun _ => hh.commit me (by rw [hpos]; trivial)⟩
  · next l chan r bytes hpos =>
    obtain ⟨_, m, hm, hst⟩ := Res.bind_eq_ok.1 hst
    cases hst
    obtain ⟨hc, hf, hh⟩ := h.wakeup hm
    exact ⟨hc, hf, hh.move fun hx => (hx.elim id id).elim⟩
  · cases hst
  · cases hst
  · cases hst

theorem Inv.step (h : Inv s) (hk : KillsInTime s e) (hst : s.step e = .ok () s') : Inv s' := by
  cases e with
  | sys e =>
    simp only [WaitSys.step] at hst
    split at hst
    · next hen =>
      obtain ⟨_, m, hm, hst⟩ := Res.bind_eq_ok.1 hst
      cases hst
      have hidle : ∀ c a p, e = .proc c a → s.sys.running c = some p →
          idle (s.pos p) = true ∨ a = .yield := by
        rintro c a p rfl hp
        simp only [enabled, hp] at hen
        exact allows_eq hen
      obtain ⟨hc, hf, hh⟩ := h.sys hm
        (by
          rintro q (⟨c, he, hq⟩ | ⟨c, pid, he, hq⟩)
          · exact (not_committed_of_idle ((hidle c _ q he hq).resolve_right nofun)).1
          · exact hk c pid (by rw [he]) q hq)
        (fun c chan p he hp => (not_committed_of_idle ((hidle c _ p he hp).resolve_right nofun)).2)
      refine ⟨hc, hf, ?_⟩
      -- a process that goes on after `sched()` is not about to sleep
      show Heeds m (s.resumed e)
      unfold resumed
      split
      · split
        · next c p hp =>
          refine hh.move fun hx => ?_
          cases hpos : s.pos p <;> rw [hpos] at hx <;> simp [awake, WaitPos.Committed, WaitPos.Asleep] at hx
          · exact hh.commit p (by rw [hpos]; trivial)
          · exact hh.commit p (by rw [hpos]; trivial)
        · exact hh
      · exact hh
    · cases hst
  | call c w =>
    simp only [WaitSys.step] at hst
    split at hst
    · split at hst
      · cases hst
        exact ⟨h.ctl, h.fam, h.heeds.move fun hx => (hx.elim id id).elim⟩
      · cases hst
    · cases hst
  | run c =>
    simp only [WaitSys.step] at hst
    split at hst
    · next me hme => exact h.loopStep hme hst
    · cases hst
  | pipe p x | input x | tick =>
    simp only [WaitSys.step] at hst
    split at hst <;> cases hst
    exact ⟨h.ctl, h.fam, h.heeds⟩

omit [DecidableEq C] in
theorem heeds_boot (pos : Pid → WaitPos) (hpos : ∀ p, ¬ (pos p).Committed) :
    Heeds (ProcSys.boot : ProcSys C) pos := by
  have hawake : ∀ p, (Ptable.userinit.proc p).state ≠ .sleeping := by decide
  exact ⟨fun p hp => absurd hp (hpos p), fun p hs => absurd hs (hawake p)⟩

/-- In a run in which no kill comes between the test of `killed` and `sleep` of the process it is
for, nobody sleeps in `pipewrite`, `piperead`, `consoleread`, `sys_sleep` or `wait` who was killed. -/
theorem kill_not_lost (h : Reaches (WaitSys.step (C := C)) KillsInTime (boot d) s) (p : Pid)
    (hs : (s.sys.table.proc p).state = .sleeping)
    (hwait : (s.pos p).Asleep ∨ (s.sys.thread p).parked = some .wait) :
    (s.sys.table.proc p).killed = false := by
  have hinv : Inv s := by
    refine h.inv ⟨ProcSys.boot_inv.1, ProcSys.boot_inv.2.1, heeds_boot _ fun p => id⟩ ?_
    intro s e s' hi hk hst
    exact hi.step hk hst
  exact hinv.heeds.asleep p hs hwait

/-- `wait` needs no condition: it holds `ptable.lock` from the test to `sched()`. -/
theorem wait_not_killed {m : ProcSys C} (h : Reaches (ProcSys.step (C := C)) anyEvent ProcSys.boot m)
    (p : Pid) (hs : (m.table.proc p).state = .sleeping) (hwait : (m.thread p).parked = some .wait) :
    (m.table.proc p).killed = false := by
  have hinv : m.Ctl ∧ m.Fam ∧ Heeds m fun _ => .out := by
    refine h.inv (I := fun m => m.Ctl ∧ m.Fam ∧ Heeds m fun _ => .out) ?_ ?_
    · exact ⟨ProcSys.boot_inv.1, ProcSys.boot_inv.2.1, heeds_boot _ fun p => id⟩
    · rintro m e m' ⟨hc, hf, hh⟩ - hst
      obtain ⟨hc', hst⟩ := ProcSys.step_sound hc hf hst
      exact ⟨hc', hf.step hst, hh.step hst (fun _ _ => id) fun _ _ _ _ _ => id⟩
  exact hinv.2.2.asleep p hs (Or.inr hwait)

/-- The first process forks and sleeps in `wait`. -/
theorem wait_not_killed_init : ∃ m : ProcSys Unit, Reaches ProcSys.step anyEvent ProcSys.boot m ∧
    (m.thread 0).parked = some .wait ∧ (m.table.proc 0).killed = false := by
  have h : ((exec ProcSys.step ProcSys.boot (ProcSys.childExits.take 11)).bind fun _ m =>
      (.ok (decide ((m.table.proc 0).state = .sleeping ∧ (m.thread 0).parked = some .wait)) () :
        Res SchedPanic Bool Unit)) = .ok true () := by
    decide +kernel
  obtain ⟨_, m, hm, ht⟩ := Res.bind_eq_ok.1 h
  have hd : decide ((m.table.proc 0).state = .sleeping ∧ (m.thread 0).parked = some .wait) = true := by
    simpa using ht
  obtain ⟨hs, hwait⟩ := of_decide_eq_true hd
  exact ⟨m, reaches_exec hm, hwait, wait_not_killed (reaches_exec hm) 0 hs hwait⟩

/-- The first process runs on one CPU and its child, with process id 2, on the other. -/
def twoRun : List (WaitEvent Bool) :=
  [.sys (.acquire false), .sys (.scan false), .sys (.resume false),
    .sys (.proc false .forkAlloc), .sys (.proc false (.forkStack true)),
    .sys (.proc false (.forkCopy true)), .sys (.proc false .forkReady),
    .sys (.acquire true), .sys (.scan true), .sys (.scan true), .sys (.resume true)]

/-- Pipe 0 is empty and pipe 1 is full, there is no input and the clock stands at 0. -/
def quietData : WaitData where
  pipes := fun p => if p = 0 then .fresh .zero else { Pipe.fresh .zero with nwrite := PIPESIZE }
  input := ⟨.zero, 0, 0, 0⟩
  ticks := 0

/-- The child calls one of the functions and gets past the test of `killed`. -/
def waits (w : WaitCall) : List (WaitEvent Bool) := twoRun ++ [.call true w, .run true, .run true]

/-- The child sleeps for ten ticks, and was not killed. -/
theorem kill_not_lost_sleep : ∃ s : WaitSys Bool,
    Reaches WaitSys.step KillsInTime (boot quietData) s ∧ (s.pos 1).Asleep ∧
    (s.sys.table.proc 1).state = .sleeping ∧ (s.sys.table.proc 1).killed = false := by
  have h : ((exec WaitSys.step (boot quietData) (waits (.sleep none 10) ++ [.run true])).bind fun _ s =>
      (.ok (decide ((s.sys.table.proc 1).state = .sleeping ∧ (s.pos 1).Asleep)) () :
        Res SchedPanic Bool Unit)) = .ok true () := by
    decide +kernel
  obtain ⟨_, s, hs, ht⟩ := Res.bind_eq_ok.1 h
  have hd : decide ((s.sys.table.proc 1).state = .sleeping ∧ (s.pos 1).Asleep) = true := by
    simpa using ht
  obtain ⟨hst, hpos⟩ := of_decide_eq_true hd
  have hreach : Reaches WaitSys.step KillsInTime (boot quietData) s := by
    refine reaches_exec_of (fun i hi s c pid he => ?_) hs
    rw [he] at hi
    simp [waits, twoRun] at hi
  exact ⟨s, hreach, hpos, hst, kill_not_lost hreach 1 hst (Or.inl hpos)⟩

def SleptKilled (w : WaitCall) (s : WaitSys Bool) : Prop :=
  (s.pos 1).Asleep ∧ (s.sys.table.proc 1).state = .sleeping ∧
    (s.sys.table.proc 1).chan = some w.chan ∧ (s.sys.table.proc 1).killed = true

instance (w : WaitCall) (s : WaitSys Bool) : Decidable (SleptKilled w s) :=
  inferInstanceAs (Decidable (_ ∧ _ ∧ _ ∧ _))

theorem SleptKilled.reached {w : WaitCall} (is : List (WaitEvent Bool))
    (h : ((exec WaitSys.step (boot quietData) (waits w ++ is)).bind fun _ s =>
      (.ok (decide (SleptKilled w s)) () : Res SchedPanic Bool Unit)) = .ok true ()) :
    ∃ s, Reaches WaitSys.step anyEvent (boot quietData) s ∧ SleptKilled w s := by
  obtain ⟨_, s, hs, ht⟩ := Res.bind_eq_ok.1 h
  have hd : decide (SleptKilled w s) = true := by simpa using ht
  exact ⟨s, reaches_exec hs, of_decide_eq_true hd⟩

/-- A kill between the test of `killed` and `sleep` is lost, in each of the four functions: the
process sleeps although it was killed. -/
theorem kill_lost :
    (∃ s, Reaches WaitSys.step anyEvent (boot quietData) s ∧ SleptKilled (.sleep none 10) s) ∧
    (∃ s, Reaches WaitSys.step anyEvent (boot quietData) s ∧ SleptKilled (.piperead 0 1) s) ∧
    (∃ s, Reaches WaitSys.step anyEvent (boot quietData) s ∧ SleptKilled (.consoleread 1 1 []) s) ∧
    (∃ s, Reaches WaitSys.step anyEvent (boot quietData) s ∧ SleptKilled (.pipewrite 1 1 [0]) s) := by
  refine ⟨?_, ?_, ?_, ?_⟩
  · exact SleptKilled.reached [.sys (.proc false (.kill 2)), .run true] (by decide +kernel)
  · exact SleptKilled.reached [.sys (.proc false (.kill 2)), .run true] (by decide +kernel)
  · exact SleptKilled.reached [.sys (.proc false (.kill 2)), .run true] (by decide +kernel)
  · -- `pipewrite` wakes the readers before it sleeps
    exact SleptKilled.reached [.sys (.proc false (.kill 2)), .run true, .run true] (by decide +kernel)

end WaitSys

end Xv6
