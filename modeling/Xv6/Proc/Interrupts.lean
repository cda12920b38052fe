import Xv6.Lib.Runs

/-!
# Interrupts, `pushcli` and `popcli` on several CPUs

`ncli` and `intena` are fields of a CPU, but they describe the thread that runs there: how
many `pushcli` calls it has not undone, and whether interrupts were enabled at the first of
them.  `sched` carries `intena` by hand around `swtch`, since the thread may go on at another
CPU.

There is one `scheduler()` thread for each CPU of `C` and a kernel thread for each process of
`P`.  A step is what a thread does on its CPU up to the next point at which another CPU or an
interrupt can come in between: with interrupts disabled only the locks are shared, so
`holding`, and the writes of `release`, are in one step with the call they belong to.  A
thread calls `pushcli` and `popcli` alone or in `acquire` and `release`, in any order that
undoes only what it did.
-/

namespace Xv6.Cli

open Conc

/-- The panics of this code. -/
inductive Panic where
  /-- `mycpu called with interrupts enabled` -/
  | mycpu
  /-- `popcli - interruptible` -/
  | popcliInterruptible
  | popcli
  | acquire
  | release
  /-- `sched ptable.lock` -/
  | schedLock
  /-- `sched locks` -/
  | schedLocks
  /-- `sched interruptible` -/
  | schedInterruptible
deriving DecidableEq

/-- `struct cpu`, with the flag FL_IF of its register. -/
structure Cpu where
  flIf : Bool
  ncli : Int
  intena : Bool
deriving DecidableEq

namespace Cpu

variable {C : Type} [DecidableEq C]

/-- Must be called with interrupts disabled. -/
def mycpu (x : Cpu) : Res Panic Unit Cpu :=
  if x.flIf then .panic .mycpu else .ok () x

/-- `pushcli` after `readeflags`. -/
def pushcli (eflags : Bool) (x : Cpu) : Res Panic Unit Cpu :=
  (mycpu { x with flIf := false }).bind fun _ x =>
    .ok () { x with intena := if x.ncli = 0 then eflags else x.intena, ncli := x.ncli + 1 }

def popcli (x : Cpu) : Res Panic Unit Cpu :=
  if x.flIf then .panic .popcliInterruptible
  else x.mycpu.bind fun _ x =>
    let x := { x with ncli := x.ncli - 1 }
    if x.ncli < 0 then .panic .popcli
    else .ok () (if x.ncli = 0 ∧ x.intena then { x with flIf := true } else x)

/-- `myproc`, and the calls in `holding`: a use of `mycpu` between `pushcli` and `popcli`. -/
def myproc (x : Cpu) : Res Panic Unit Cpu :=
  (x.pushcli x.flIf).bind fun _ x => x.mycpu.bind fun _ x => x.popcli

theorem pushcli_eq (b : Bool) (x : Cpu) :
    x.pushcli b = .ok () ⟨false, x.ncli + 1, if x.ncli = 0 then b else x.intena⟩ := by
  simp [pushcli, mycpu]

theorem popcli_eq {x : Cpu} (hfl : x.flIf = false) (hn : 0 < x.ncli) :
    x.popcli = .ok () ⟨decide (x.ncli = 1) && x.intena, x.ncli - 1, x.intena⟩ := by
  have hle : 1 ≤ x.ncli := by omega
  have hone : x.ncli - 1 = 0 ↔ x.ncli = 1 := by omega
  by_cases h1 : x.ncli = 1 <;> cases hi : x.intena <;> simp [popcli, mycpu, hfl, hle, hone, h1, hi]

/-- With interrupts disabled by an earlier `pushcli` the pair changes nothing. -/
theorem myproc_eq {x : Cpu} (hfl : x.flIf = false) (hn : 0 < x.ncli) : x.myproc = .ok () x := by
  have hn0 : ¬ x.ncli = 0 := by omega
  have hpop : (⟨false, x.ncli + 1, x.intena⟩ : Cpu).popcli = .ok () x := by
    have hne : ¬ x.ncli + 1 = 1 := by omega
    rw [popcli_eq rfl (by simp only; omega)]
    cases x
    simp_all
  simp [myproc, pushcli_eq, mycpu, hn0, hpop]

end Cpu

/-- `struct spinlock`; `cpu` is the CPU that holds it. -/
structure Lock (C : Type) where
  locked : Bool
  cpu : Option C
deriving DecidableEq

def Lock.holding {C : Type} [DecidableEq C] (lk : Lock C) (c : C) (x : Cpu) :
    Res Panic Bool Cpu :=
  x.myproc.bind fun _ x => .ok (lk.locked && lk.cpu == some c) x

/-- The threads: the scheduler of a CPU, and that of a process. -/
inductive Tid (C P : Type) where
  | sched (c : C)
  | proc (p : P)
deriving DecidableEq

/-- Where a thread is. -/
inductive Pos (L : Type) where
  | run
  /-- in `pushcli`, called by `acquire` or not, between `readeflags` and `cli` -/
  | pushing (lk : Option L) (eflags : Bool)
  /-- in the loop of `acquire` -/
  | taking (l : L)
  /-- in the `swtch` of `sched`, which saved `intena`; a new thread goes to `forkret` instead -/
  | switched (intena : Option Bool)
deriving DecidableEq

/-- `frames` is where interrupts stopped the thread, and `owes` its `pushcli` calls that are
not undone, with the lock for those of `acquire`. -/
structure Thread (L : Type) where
  pos : Pos L
  frames : List (Pos L)
  owes : List (Option L)
deriving DecidableEq

/-- `on` is the thread that runs on a CPU. -/
structure Sys (C P L : Type) where
  cpu : C → Cpu
  lock : L → Lock C
  on : C → Tid C P
  thread : Tid C P → Thread L

inductive Act (P L : Type) where
  /-- the first line of `pushcli`, called by `acquire(lk)` or not -/
  | readeflags (lk : Option L)
  | pushcli
  | xchg
  | release (l : L)
  | popcli
  | sched
  /-- `scheduler` switches to a process -/
  | swtch (p : P)
  /-- a process goes on after `swtch` -/
  | resume
  /-- in `scheduler`, or the return to user mode -/
  | sti
  /-- an interrupt -/
  | trap
  /-- the return from an interrupt -/
  | iret

namespace Sys

variable {C P L : Type} [DecidableEq C] [DecidableEq P] [DecidableEq L] (s : Sys C P L) (c : C)

/-- The thread that runs on a CPU. -/
def cur : Thread L := s.thread (s.on c)

/-- A CPU and the thread that runs there after a step of it. -/
def put (x : Cpu) (th : Thread L) : Sys C P L :=
  { s with
    cpu := Function.update s.cpu c x
    thread := Function.update s.thread (s.on c) th }

def setLock (l : L) (lk : Lock C) : Sys C P L := { s with lock := Function.update s.lock l lk }

def readeflags (lk : Option L) : Res Panic Unit (Sys C P L) :=
  if (s.cur c).pos = .run then
    .ok () (s.put c (s.cpu c) { s.cur c with pos := .pushing lk (s.cpu c).flIf })
  else .sleep

/-- `pushcli` from `cli` on, and `acquire` up to its loop. -/
def pushcli : Res Panic Unit (Sys C P L) :=
  match (s.cur c).pos with
  | .pushing lk eflags =>
    ((s.cpu c).pushcli eflags).bind fun _ x =>
      let owes := lk :: (s.cur c).owes
      match lk with
      | none => .ok () (s.put c x { s.cur c with pos := .run, owes })
      | some l => ((s.lock l).holding c x).bind fun held x =>
          if held then .panic .acquire
          else .ok () (s.put c x { s.cur c with pos := .taking l, owes })
  | _ => .sleep

/-- One round of the loop of `acquire`, and its last lines when the lock was free. -/
def xchg : Res Panic Unit (Sys C P L) :=
  match (s.cur c).pos with
  | .taking l =>
    if (s.lock l).locked then .ok () s
    else (s.cpu c).mycpu.bind fun _ x =>
      .ok () ((s.setLock l ⟨true, some c⟩).put c x { s.cur c with pos := .run })
  | _ => .sleep

def release (l : L) : Res Panic Unit (Sys C P L) :=
  if (s.cur c).pos = .run ∧ some l ∈ (s.cur c).owes then
    ((s.lock l).holding c (s.cpu c)).bind fun held x =>
      if !held then .panic .release
      else x.popcli.bind fun _ x => .ok () ((s.setLock l ⟨false, none⟩).put c x
        { s.cur c with owes := (s.cur c).owes.erase (some l) })
  else .sleep

def popcli : Res Panic Unit (Sys C P L) :=
  if (s.cur c).pos = .run ∧ none ∈ (s.cur c).owes then
    (s.cpu c).popcli.bind fun _ x =>
      .ok () (s.put c x { s.cur c with owes := (s.cur c).owes.erase none })
  else .sleep

/-- Enter scheduler.  Must hold only ptable.lock. -/
def sched (ptable : L) : Res Panic Unit (Sys C P L) :=
  match s.on c with
  | .proc _ =>
    if (s.cur c).pos = .run ∧ (s.cur c).owes = [some ptable] then
      (s.cpu c).myproc.bind fun _ x => ((s.lock ptable).holding c x).bind fun held x =>
        if !held then .panic .schedLock
        else x.mycpu.bind fun _ x =>
          if x.ncli ≠ 1 then .panic .schedLocks
          else if x.flIf then .panic .schedInterruptible
          else
            let s' := s.put c x { s.cur c with pos := .switched (some x.intena) }
            .ok () { s' with on := Function.update s.on c (.sched c) }
    else .sleep
  | .sched _ => .sleep

/-- The `swtch` of `scheduler`, to a thread that has given up its CPU or is new. -/
def swtch (ptable : L) (p : P) : Res Panic Unit (Sys C P L) :=
  match s.on c, (s.thread (.proc p)).pos with
  | .sched _, .switched _ =>
    if (s.cur c).pos = .run ∧ (s.cur c).owes = [some ptable] ∧ (s.cur c).frames = [] then
      .ok () { s with on := Function.update s.on c (.proc p) }
    else .sleep
  | _, _ => .sleep

/-- The last line of `sched`; a new thread is before the `release` of `forkret`. -/
def resume : Res Panic Unit (Sys C P L) :=
  match (s.cur c).pos with
  | .switched (some intena) => (s.cpu c).mycpu.bind fun _ x =>
      .ok () (s.put c { x with intena } { s.cur c with pos := .run })
  | .switched none => .ok () (s.put c (s.cpu c) { s.cur c with pos := .run })
  | _ => .sleep

def sti : Res Panic Unit (Sys C P L) :=
  if (s.cur c).pos = .run ∧ (s.cur c).owes = [] then
    .ok () (s.put c { s.cpu c with flIf := true } (s.cur c))
  else .sleep

def trap : Res Panic Unit (Sys C P L) :=
  if (s.cpu c).flIf then
    .ok () (s.put c { s.cpu c with flIf := false }
      { s.cur c with pos := .run, frames := (s.cur c).pos :: (s.cur c).frames })
  else .sleep

def iret : Res Panic Unit (Sys C P L) :=
  match (s.cur c).pos, (s.cur c).owes, (s.cur c).frames with
  | .run, [], pos :: frames =>
    .ok () (s.put c { s.cpu c with flIf := true } { s.cur c with pos, frames })
  | _, _, _ => .sleep

def step (ptable : L) (s : Sys C P L) : C × Act P L → Res Panic Unit (Sys C P L)
  | (c, .readeflags lk) => s.readeflags c lk
  | (c, .pushcli) => s.pushcli c
  | (c, .xchg) => s.xchg c
  | (c, .release l) => s.release c l
  | (c, .popcli) => s.popcli c
  | (c, .sched) => s.sched c ptable
  | (c, .swtch p) => s.swtch c ptable p
  | (c, .resume) => s.resume c
  | (c, .sti) => s.sti c
  | (c, .trap) => s.trap c
  | (c, .iret) => s.iret c

/-- Every CPU runs its scheduler thread, with interrupts disabled as `main` starts; the
threads of the processes are still to start. -/
def boot (ptable : L) : Sys C P L where
  cpu _ := ⟨false, 0, false⟩
  lock _ := ⟨false, none⟩
  on := .sched
  thread
    | .sched _ => ⟨.run, [], []⟩
    | .proc _ => ⟨.switched none, [], [some ptable]⟩

end Sys

section Invariant

variable {C P L : Type} {ptable : L}

/-- A position that a thread with these debts can be in. -/
def Pos.Fits (ptable : L) (owes : List (Option L)) : Pos L → Prop
  | .run => True
  | .pushing _ _ => True
  | .taking l => some l ∈ owes
  | .switched _ => owes = [some ptable]

/-- The debts have an entry for the lock, and it has been taken. -/
def Thread.Holds (th : Thread L) (l : L) : Prop := some l ∈ th.owes ∧ th.pos ≠ .taking l

structure Thread.WF [DecidableEq L] (ptable : L) (th : Thread L) : Prop where
  pos : th.pos.Fits ptable th.owes
  -- interrupts come in only while the thread owes nothing
  frames : ∀ f ∈ th.frames, f.Fits ptable []
  once : ∀ l, th.owes.count (some l) ≤ 1

/-- The fields of a CPU are those of a thread with these debts. -/
structure Cpu.Agrees (x : Cpu) (owes : List (Option L)) : Prop where
  ncli : x.ncli = owes.length
  off : owes ≠ [] → x.flIf = false

theorem Cpu.Agrees.pos {x : Cpu} {owes : List (Option L)} (h : x.Agrees owes) (hne : owes ≠ []) :
    0 < x.ncli := by
  have hlen : 0 < owes.length := List.length_pos_iff.2 hne
  rw [h.ncli]
  omega

def Thread.intena (th : Thread L) (x : Cpu) : Option Bool :=
  match th.pos with
  | .switched intena => intena
  | _ => some x.intena

variable [DecidableEq L]

theorem Cpu.Agrees.popcli_eq {x : Cpu} {owes : List (Option L)} (h : x.Agrees owes) {o : Option L}
    (ho : o ∈ owes) : ∃ x', x.popcli = .ok () x' ∧ x'.Agrees (owes.erase o) ∧ x'.intena = x.intena ∧
      (owes.erase o = [] → x'.flIf = x.intena) := by
  have hne := List.ne_nil_of_mem ho
  have hlen : (owes.erase o).length = owes.length - 1 := List.length_erase_of_mem ho
  have hpos : 0 < owes.length := List.length_pos_iff.2 hne
  have hn := h.ncli
  refine ⟨_, Cpu.popcli_eq (h.off hne) (h.pos hne), ⟨by simp only; omega, fun hrest => ?_⟩, rfl, fun hnil => ?_⟩
  · have hlt : 0 < (owes.erase o).length := List.length_pos_iff.2 hrest
    have hne1 : ¬ x.ncli = 1 := by omega
    simp [hne1]
  · have h0 : (owes.erase o).length = 0 := by rw [hnil]; rfl
    have h1 : x.ncli = 1 := by omega
    simp [h1]

theorem Thread.WF.erase {th : Thread L} (h : th.WF ptable) (hpos : th.pos = .run) (o : Option L) :
    ({ th with owes := th.owes.erase o } : Thread L).WF ptable where
  pos := by
    simp only [hpos]
    trivial
  frames := h.frames
  once l := (List.erase_sublist.count_le _).trans (h.once l)

namespace Sys

structure Inv (ptable : L) (s : Sys C P L) : Prop where
  wf : ∀ t, (s.thread t).WF ptable
  agrees : ∀ c, (s.cpu c).Agrees (s.cur c).owes
  home : ∀ c c', s.on c = .sched c' → c' = c
  once : ∀ c c' p, s.on c = .proc p → s.on c' = .proc p → c = c'
  locked : ∀ l, (s.lock l).locked = (s.lock l).cpu.isSome
  holder : ∀ l c, (s.lock l).cpu = some c ↔ (s.cur c).Holds l
  -- a process that runs nowhere is in `swtch`, and so is the scheduler below one that runs
  away : ∀ p, (∀ c, s.on c ≠ .proc p) → ∃ i, (s.thread (.proc p)).pos = .switched i
  below : ∀ c p, s.on c = .proc p → s.thread (.sched c) = ⟨.run, [], [some ptable]⟩

theorem inv_boot : Inv ptable (boot ptable : Sys C P L) where
  wf t := by
    cases t with
    | sched c => exact ⟨trivial, by simp [boot], by simp [boot]⟩
    | proc p => exact ⟨rfl, by simp [boot], fun l => List.count_le_length⟩
  agrees c := ⟨rfl, fun h => absurd rfl h⟩
  home c c' h := by cases h; rfl
  once c c' p h := by cases h
  locked l := rfl
  holder l c := by simp [boot, cur, Thread.Holds]
  away p _ := ⟨none, rfl⟩
  below c p h := by cases h

variable {s : Sys C P L} {c : C}

theorem Inv.curWf (hi : Inv ptable s) (c : C) : (s.cur c).WF ptable := hi.wf (s.on c)

/-- Two CPUs do not run the same thread. -/
theorem Inv.on_ne (hi : Inv ptable s) {d : C} (hd : d ≠ c) : s.on d ≠ s.on c := by
  intro h
  cases hc : s.on c with
  | sched e =>
    rw [hc] at h
    exact hd ((hi.home d e h).symm.trans (hi.home c e hc))
  | proc p =>
    rw [hc] at h
    exact hd (hi.once d c p h hc)

theorem Inv.lock_iff (hi : Inv ptable s) (hpos : (s.cur c).pos = .run)
    (howes : (s.cur c).owes = [some ptable]) (l : L) : (s.lock l).cpu = some c ↔ l = ptable := by
  simp [hi.holder, Thread.Holds, hpos, howes]

variable [DecidableEq C]

theorem Inv.holding_eq (hi : Inv ptable s) {x : Cpu} (hfl : x.flIf = false) (hn : 0 < x.ncli) (l : L) :
    ∃ held, (s.lock l).holding c x = .ok held x ∧ (held = true ↔ (s.cur c).Holds l) := by
  refine ⟨(s.lock l).locked && (s.lock l).cpu == some c, ?_, ?_⟩
  · rw [Lock.holding, Cpu.myproc_eq hfl hn, Res.bind_ok]
  · rw [← hi.holder, hi.locked]
    constructor
    · intro h
      simpa using (Bool.and_eq_true_iff.1 h).2
    · intro h
      simp [h]

theorem Inv.swtch (hi : Inv ptable s) {p : P} {i : Option Bool} (hon : s.on c = .sched c)
    (hcur : s.cur c = ⟨.run, [], [some ptable]⟩) (hp : (s.thread (.proc p)).pos = .switched i) :
    Inv ptable { s with on := Function.update s.on c (.proc p) } := by
  have howes : (s.thread (.proc p)).owes = [some ptable] := by
    have hfit := (hi.wf (.proc p)).pos
    rwa [hp] at hfit
  have hag : (s.cpu c).Agrees [some ptable] := by
    have h := hi.agrees c
    rwa [hcur] at h
  have hlock := hi.lock_iff (c := c) (by rw [hcur]) (by rw [hcur])
  -- the process runs nowhere: there it would hold the lock that this scheduler holds
  have hoff : ∀ d, s.on d ≠ .proc p := by
    intro d hd
    have hd' : (s.lock ptable).cpu = some d := (hi.holder ptable d).2 (by simp [cur, hd, Thread.Holds, hp, howes])
    have hc := (hlock ptable).2 rfl
    rw [hd'] at hc
    cases hc
    rw [hon] at hd
    cases hd
  have hon' : ∀ d q, Function.update s.on c (.proc p) d = .proc q → (d = c ∧ q = p) ∨ s.on d = .proc q := by
    intro d q h
    rcases eq_or_ne d c with rfl | hd
    · exact Or.inl ⟨rfl, by simpa [eq_comm] using h⟩
    · exact Or.inr (by simpa [hd] using h)
  exact {
    wf := hi.wf
    agrees := fun d => by
      rcases eq_or_ne d c with rfl | hd
      · simpa [cur, howes] using hag
      · simpa [cur, hd] using hi.agrees d
    home := fun d d' h => by
      rcases eq_or_ne d c with rfl | hd
      · simp at h
      · exact hi.home d d' (by simpa [hd] using h)
    once := fun d d' q h h' => by
      rcases hon' d q h with ⟨hd, hq⟩ | hd <;> rcases hon' d' q h' with ⟨hd', hq'⟩ | hd'
      · rw [hd, hd']
      · exact absurd (hq ▸ hd') (hoff d')
      · exact absurd (hq' ▸ hd) (hoff d)
      · exact hi.once d d' q hd hd'
    locked := hi.locked
    holder := fun l d => by
      rcases eq_or_ne d c with rfl | hd
      · simpa [cur, Thread.Holds, hp, howes] using hlock l
      · simpa [cur, hd] using hi.holder l d
    away := fun q hq => hi.away q fun d hd => by
      rcases eq_or_ne d c with rfl | hdc
      · rw [hon] at hd
        cases hd
      · exact hq d (by simpa [hdc] using hd)
    below := fun d q h => by
      rcases eq_or_ne d c with rfl | hd
      · simpa [cur, hon] using hcur
      · exact hi.below d q (by simpa [hd] using h) }

variable [DecidableEq P]

structure Local (ptable : L) (s : Sys C P L) (c : C) (lock : L → Lock C) (x : Cpu)
    (th : Thread L) : Prop where
  wf : th.WF ptable
  agrees : x.Agrees th.owes
  locked : ∀ l, (lock l).locked = (lock l).cpu.isSome
  mine : ∀ l, (lock l).cpu = some c ↔ th.Holds l
  theirs : ∀ l d, d ≠ c → ((lock l).cpu = some d ↔ (s.lock l).cpu = some d)
  kept : (s.cur c).owes ≠ [] → ∀ b, (s.cur c).intena (s.cpu c) = some b → th.intena x = some b
  last : (s.cur c).owes ≠ [] → th.owes = [] →
    ∀ b, (s.cur c).intena (s.cpu c) = some b → x.flIf = b

inductive Move (ptable : L) (s : Sys C P L) (c : C) : Sys C P L → Prop where
  | stay {lock x th} (h : Local ptable s c lock x th) : Move ptable s c ({ s with lock }.put c x th)
  | sched {p} (hon : s.on c = .proc p) (hpos : (s.cur c).pos = .run)
      (howes : (s.cur c).owes = [some ptable]) :
      Move ptable s c { s.put c (s.cpu c) { s.cur c with pos := .switched (some (s.cpu c).intena) } with
        on := Function.update s.on c (.sched c) }
  | swtch {p i} (hon : s.on c = .sched c) (hcur : s.cur c = ⟨.run, [], [some ptable]⟩)
      (hp : (s.thread (.proc p)).pos = .switched i) :
      Move ptable s c { s with on := Function.update s.on c (.proc p) }

/-- The panics that are left: `acquire` of a lock that the thread holds. -/
def Stops (e : Option Panic) : Prop := ∀ x, e = some x → x = .acquire

theorem stops_none : Stops none := fun x h => by cases h

theorem Inv.sameLocks (hi : Inv ptable s) {x : Cpu} {th : Thread L} (hwf : th.WF ptable)
    (hag : x.Agrees th.owes) (hold : ∀ l, th.Holds l ↔ (s.cur c).Holds l)
    (hkept : (s.cur c).owes ≠ [] → ∀ b, (s.cur c).intena (s.cpu c) = some b → th.intena x = some b)
    (hlast : (s.cur c).owes ≠ [] → th.owes = [] →
      ∀ b, (s.cur c).intena (s.cpu c) = some b → x.flIf = b) :
    Move ptable s c (s.put c x th) := by
  have h : Local ptable s c s.lock x th :=
    ⟨hwf, hag, hi.locked, fun l => by rw [hi.holder, hold], fun _ _ _ => Iff.rfl, hkept, hlast⟩
  exact Move.stay h

theorem post_readeflags (hi : Inv ptable s) (lk : Option L) :
    (s.readeflags c lk).Post Stops fun _ s' => Move ptable s c s' := by
  rw [readeflags]
  split
  case isTrue hpos =>
    have hwf := hi.curWf c
    refine hi.sameLocks ⟨trivial, hwf.frames, hwf.once⟩ (hi.agrees c) (fun l => ?_)
      (fun _ b hb => ?_) (fun hne h => absurd h hne)
    · simp [Thread.Holds, hpos]
    · simpa [Thread.intena, hpos] using hb
  case isFalse => exact stops_none

theorem post_pushcli (hi : Inv ptable s) :
    (s.pushcli c).Post Stops fun _ s' => Move ptable s c s' := by
  have hwf := hi.curWf c
  have hag := hi.agrees c
  rw [pushcli]
  split
  case h_1 lk eflags hpos =>
    rw [Cpu.pushcli_eq, Res.bind_ok]
    have hag' : (⟨false, (s.cpu c).ncli + 1, if (s.cpu c).ncli = 0 then eflags else (s.cpu c).intena⟩ :
        Cpu).Agrees (lk :: (s.cur c).owes) := ⟨by simp [hag.ncli], fun _ => rfl⟩
    -- only the outermost call writes `intena`
    have hkept : (s.cur c).owes ≠ [] →
        (if (s.cpu c).ncli = 0 then eflags else (s.cpu c).intena) = (s.cpu c).intena := by
      intro hne
      have hn := hag.pos hne
      rw [if_neg (by omega)]
    split
    · refine hi.sameLocks ⟨trivial, hwf.frames, fun l => ?_⟩ hag' (fun l => ?_) (fun hne b hb => ?_)
        (fun _ h => ?_)
      · simpa [List.count_cons] using hwf.once l
      · simp [Thread.Holds, hpos]
      · simpa [Thread.intena, hpos, hkept hne] using hb
      · cases h
    · rename_i l
      obtain ⟨held, hheld, hiff⟩ := hi.holding_eq (c := c) rfl (hag'.pos (by simp)) l
      rw [hheld, Res.bind_ok]
      cases held with
      | true => exact fun x h => (Option.some.inj h).symm
      | false =>
        have hnot : some l ∉ (s.cur c).owes := by
          intro hmem
          exact absurd (hiff.2 ⟨hmem, by rw [hpos]; exact fun h => by cases h⟩) (by simp)
        refine hi.sameLocks ⟨List.mem_cons_self, hwf.frames, fun l' => ?_⟩ hag' (fun l' => ?_)
          (fun hne b hb => ?_) (fun _ h => ?_)
        · rcases eq_or_ne l' l with rfl | hne
          · simp [List.count_eq_zero_of_not_mem hnot]
          · simpa [List.count_cons, hne.symm] using hwf.once l'
        · rcases eq_or_ne l' l with rfl | hne
          · simp [Thread.Holds, hnot]
          · simp [Thread.Holds, hpos, hne, hne.symm]
        · simpa [Thread.intena, hpos, hkept hne] using hb
        · cases h
  case h_2 => exact stops_none

theorem post_xchg (hi : Inv ptable s) : (s.xchg c).Post Stops fun _ s' => Move ptable s c s' := by
  have hwf := hi.curWf c
  have hag := hi.agrees c
  rw [xchg]
  split
  case h_1 l hpos =>
    have hmem : some l ∈ (s.cur c).owes := by
      have hfit := hwf.pos
      rwa [hpos] at hfit
    split
    case isTrue =>
      have h := hi.sameLocks (c := c) hwf hag (fun _ => Iff.rfl) (fun _ _ hb => hb)
        (fun hne h => absurd h hne)
      rwa [show s.put c (s.cpu c) (s.cur c) = s by simp [put, cur]] at h
    case isFalse hfree =>
      have hnone : (s.lock l).cpu = none := by
        have hlk := hi.locked l
        cases h : (s.lock l).cpu with
        | none => rfl
        | some d => simp_all
      have hmy : (s.cpu c).mycpu = .ok () (s.cpu c) := by
        simp [Cpu.mycpu, hag.off (List.ne_nil_of_mem hmem)]
      rw [hmy, Res.bind_ok]
      refine Move.stay ⟨⟨trivial, hwf.frames, hwf.once⟩, hag, fun l' => ?_, fun l' => ?_,
        fun l' d hd => ?_, fun _ b hb => ?_, fun hne h => absurd h hne⟩
      · rcases eq_or_ne l' l with rfl | hne
        · simp
        · simpa [hne] using hi.locked l'
      · rcases eq_or_ne l' l with rfl | hne
        · simp [Thread.Holds, hmem]
        · have h := hi.holder l' c
          simpa [Thread.Holds, hpos, hne, hne.symm] using h
      · rcases eq_or_ne l' l with rfl | hne
        · simp [hnone, hd.symm]
        · simp [hne]
      · simpa [Thread.intena, hpos] using hb
  case h_2 => exact stops_none

theorem post_popcli (hi : Inv ptable s) : (s.popcli c).Post Stops fun _ s' => Move ptable s c s' := by
  have hwf := hi.curWf c
  rw [popcli]
  split
  case isTrue h =>
    obtain ⟨hpos, hmem⟩ := h
    obtain ⟨x, hx, hag, hkeep, hlast⟩ := (hi.agrees c).popcli_eq hmem
    rw [hx, Res.bind_ok]
    refine hi.sameLocks (hwf.erase hpos none) hag (fun l => ?_) (fun _ b hb => ?_) (fun _ hnil b hb => ?_)
    · simp [Thread.Holds, List.mem_erase_of_ne]
    · simpa [Thread.intena, hpos, hkeep] using hb
    · rw [hlast hnil]
      simpa [Thread.intena, hpos] using hb
  case isFalse => exact stops_none

theorem post_release (hi : Inv ptable s) (l : L) :
    (s.release c l).Post Stops fun _ s' => Move ptable s c s' := by
  have hwf := hi.curWf c
  have hag := hi.agrees c
  rw [release]
  split
  case isTrue h =>
    obtain ⟨hpos, hmem⟩ := h
    have hne := List.ne_nil_of_mem hmem
    have hholds : (s.cur c).Holds l := ⟨hmem, by rw [hpos]; exact fun h => by cases h⟩
    obtain ⟨held, hheld, hiff⟩ := hi.holding_eq (c := c) (hag.off hne) (hag.pos hne) l
    obtain ⟨x, hx, hag', hkeep, hlast⟩ := hag.popcli_eq hmem
    have hgone : some l ∉ (s.cur c).owes.erase (some l) := by
      have hcount := hwf.once l
      rw [← List.count_eq_zero, List.count_erase_self]
      omega
    rw [hheld, Res.bind_ok, hiff.2 hholds, Bool.not_true, if_neg Bool.false_ne_true, hx, Res.bind_ok]
    refine Move.stay ⟨hwf.erase hpos _, hag', fun l' => ?_, fun l' => ?_, fun l' d hd => ?_,
      fun _ b hb => ?_, fun _ hnil b hb => ?_⟩
    · rcases eq_or_ne l' l with rfl | hne
      · simp
      · simpa [hne] using hi.locked l'
    · rcases eq_or_ne l' l with rfl | hne
      · simp [Thread.Holds, hgone]
      · have h := hi.holder l' c
        simpa [Thread.Holds, hpos, hne, List.mem_erase_of_ne] using h
    · rcases eq_or_ne l' l with rfl | hne
      · simp [(hi.holder l' c).2 hholds, hd.symm]
      · simp [hne]
    · simpa [Thread.intena, hpos, hkeep] using hb
    · rw [hlast hnil]
      simpa [Thread.intena, hpos] using hb
  case isFalse => exact stops_none

theorem post_resume (hi : Inv ptable s) : (s.resume c).Post Stops fun _ s' => Move ptable s c s' := by
  have hwf := hi.curWf c
  have hag := hi.agrees c
  have hwf' : ({ s.cur c with pos := .run } : Thread L).WF ptable := ⟨trivial, hwf.frames, hwf.once⟩
  rw [resume]
  split
  case h_1 intena hpos =>
    have howes : (s.cur c).owes = [some ptable] := by
      have hfit := hwf.pos
      rwa [hpos] at hfit
    have hmy : (s.cpu c).mycpu = .ok () (s.cpu c) := by
      simp [Cpu.mycpu, hag.off (by simp [howes])]
    rw [hmy, Res.bind_ok]
    refine hi.sameLocks hwf' ⟨hag.ncli, hag.off⟩ (fun l => ?_) (fun _ b hb => ?_)
      (fun hne h => absurd h hne)
    · simp [Thread.Holds, hpos]
    · simpa [Thread.intena, hpos] using hb
  case h_2 hpos =>
    -- a new thread has no `intena` of its own to find again
    refine hi.sameLocks hwf' hag (fun l => ?_) (fun _ b hb => ?_) (fun hne h => absurd h hne)
    · simp [Thread.Holds, hpos]
    · simp [Thread.intena, hpos] at hb
  case h_3 => exact stops_none

theorem post_sti (hi : Inv ptable s) : (s.sti c).Post Stops fun _ s' => Move ptable s c s' := by
  rw [sti]
  split
  case isTrue h =>
    exact hi.sameLocks (hi.curWf c) ⟨(hi.agrees c).ncli, fun hne => absurd h.2 hne⟩ (fun l => Iff.rfl)
      (fun hne => absurd h.2 hne) (fun hne => absurd h.2 hne)
  case isFalse => exact stops_none

theorem post_trap (hi : Inv ptable s) : (s.trap c).Post Stops fun _ s' => Move ptable s c s' := by
  have hwf := hi.curWf c
  rw [trap]
  split
  case isTrue hfl =>
    have howes : (s.cur c).owes = [] := by
      by_contra hne
      rw [(hi.agrees c).off hne] at hfl
      cases hfl
    have hfit : (s.cur c).pos.Fits ptable [] := howes ▸ hwf.pos
    refine hi.sameLocks ⟨trivial, fun f hf => ?_, hwf.once⟩ ⟨(hi.agrees c).ncli, fun _ => rfl⟩
      (fun l => ?_) (fun hne => absurd howes hne) (fun hne => absurd howes hne)
    · rcases List.mem_cons.1 hf with rfl | hf
      · exact hfit
      · exact hwf.frames f hf
    · simp [Thread.Holds, howes]
  case isFalse => exact stops_none

theorem post_iret (hi : Inv ptable s) : (s.iret c).Post Stops fun _ s' => Move ptable s c s' := by
  have hwf := hi.curWf c
  rw [iret]
  split
  case h_1 pos frames hpos howes hframes =>
    have hfit : pos.Fits ptable [] := hwf.frames pos (by rw [hframes]; exact List.mem_cons_self)
    refine hi.sameLocks ⟨by simpa only [howes] using hfit, fun f hf => ?_, hwf.once⟩
      ⟨(hi.agrees c).ncli, fun hne => absurd howes hne⟩
      (fun l => ?_) (fun hne => absurd howes hne) (fun hne => absurd howes hne)
    · exact hwf.frames f (by rw [hframes]; exact List.mem_cons_of_mem _ hf)
    · simp [Thread.Holds, howes]
  case h_2 => exact stops_none

theorem post_sched (hi : Inv ptable s) :
    (s.sched c ptable).Post Stops fun _ s' => Move ptable s c s' := by
  have hag := hi.agrees c
  rw [sched]
  split
  case h_1 p hon =>
    split
    case isTrue h =>
      obtain ⟨hpos, howes⟩ := h
      have hne : (s.cur c).owes ≠ [] := by simp [howes]
      have hholds : (s.cur c).Holds ptable := by simp [Thread.Holds, hpos, howes]
      obtain ⟨held, hheld, hiff⟩ := hi.holding_eq (c := c) (hag.off hne) (hag.pos hne) ptable
      have hn : (s.cpu c).ncli = 1 := by simp [hag.ncli, howes]
      rw [Cpu.myproc_eq (hag.off hne) (hag.pos hne), Res.bind_ok, hheld, Res.bind_ok, hiff.2 hholds]
      simp only [Cpu.mycpu, hag.off hne, hn, Bool.not_true, Bool.false_eq_true, ↓reduceIte, Res.bind_ok,
        ne_eq, not_true_eq_false]
      exact Move.sched hon hpos howes
    case isFalse => exact stops_none
  case h_2 => exact stops_none

theorem post_swtch (hi : Inv ptable s) (p : P) :
    (s.swtch c ptable p).Post Stops fun _ s' => Move ptable s c s' := by
  rw [swtch]
  split
  case h_1 d i hon hp =>
    split
    case isTrue h =>
      obtain ⟨hpos, howes, hframes⟩ := h
      rw [hi.home c d hon] at hon
      refine Move.swtch hon ?_ hp
      cases hc : s.cur c
      simp_all
    case isFalse => exact stops_none
  case h_2 => exact stops_none

/-- What an event does: the only panic left is that of `acquire`. -/
theorem Inv.post_step (hi : Inv ptable s) (a : Act P L) :
    (s.step ptable (c, a)).Post Stops fun _ s' => Move ptable s c s' := by
  cases a with
  | readeflags lk => exact post_readeflags hi lk
  | pushcli => exact post_pushcli hi
  | xchg => exact post_xchg hi
  | release l => exact post_release hi l
  | popcli => exact post_popcli hi
  | sched => exact post_sched hi
  | swtch p => exact post_swtch hi p
  | resume => exact post_resume hi
  | sti => exact post_sti hi
  | trap => exact post_trap hi
  | iret => exact post_iret hi

variable {s' : Sys C P L}

theorem Inv.stay (hi : Inv ptable s) {lock x th} (h : Local ptable s c lock x th) :
    Inv ptable ({ s with lock }.put c x th) where
  wf t := by
    rcases eq_or_ne t (s.on c) with rfl | ht
    · simpa [put] using h.wf
    · simpa [put, ht] using hi.wf t
  agrees d := by
    rcases eq_or_ne d c with rfl | hd
    · simpa [put, cur] using h.agrees
    · simpa [put, cur, hd, hi.on_ne hd] using hi.agrees d
  home := hi.home
  once := hi.once
  locked := h.locked
  holder l d := by
    rcases eq_or_ne d c with rfl | hd
    · simpa [put, cur] using h.mine l
    · simpa [put, cur, hi.on_ne hd] using (h.theirs l d hd).trans (hi.holder l d)
  away p hp := by
    have hne : Tid.proc p ≠ s.on c := fun h => hp c h.symm
    simpa [put, hne] using hi.away p hp
  below d p hp := by
    have hne : Tid.sched d ≠ s.on c := by
      intro h
      have hdc := hi.home c d h.symm
      rw [hdc] at h
      cases hdc
      exact absurd (h.trans hp) (by simp)
    simpa [put, hne] using hi.below d p hp

theorem Inv.sched (hi : Inv ptable s) {p : P} (hon : s.on c = .proc p) (hpos : (s.cur c).pos = .run)
    (howes : (s.cur c).owes = [some ptable]) {i : Option Bool} :
    Inv ptable { s.put c (s.cpu c) { s.cur c with pos := .switched i } with
      on := Function.update s.on c (.sched c) } := by
  have hbelow := hi.below c p hon
  have hag : (s.cpu c).Agrees [some ptable] := howes ▸ hi.agrees c
  have hlock := hi.lock_iff hpos howes
  have hsched : ∀ d, Tid.sched d ≠ s.on c := fun d h => by rw [hon] at h; cases h
  exact {
    wf := fun t => by
      rcases eq_or_ne t (s.on c) with rfl | ht
      · simpa [put] using ⟨howes, (hi.curWf c).frames, (hi.curWf c).once⟩
      · simpa [put, ht] using hi.wf t
    agrees := fun d => by
      rcases eq_or_ne d c with rfl | hd
      · simpa [put, cur, hsched, hbelow] using hag
      · simpa [put, cur, hd, hi.on_ne hd] using hi.agrees d
    home := fun d d' h => by
      rcases eq_or_ne d c with rfl | hd
      · simpa [eq_comm] using h
      · exact hi.home d d' (by simpa [hd] using h)
    once := fun d d' q h h' => by
      rcases eq_or_ne d c with rfl | hd
      · simp at h
      rcases eq_or_ne d' c with rfl | hd'
      · simp at h'
      · exact hi.once d d' q (by simpa [hd] using h) (by simpa [hd'] using h')
    locked := hi.locked
    holder := fun l d => by
      rcases eq_or_ne d c with rfl | hd
      · simpa [put, cur, hsched, hbelow, Thread.Holds] using hlock l
      · simpa [put, cur, hd, hi.on_ne hd] using hi.holder l d
    away := fun q hq => by
      rcases eq_or_ne q p with rfl | hqp
      · exact ⟨i, by simp [put, hon]⟩
      · have hne : Tid.proc q ≠ s.on c := by
          rw [hon]
          exact fun h => hqp (Tid.proc.inj h)
        have hoff : ∀ d, s.on d ≠ .proc q := by
          intro d hd
          rcases eq_or_ne d c with rfl | hdc
          · exact hne hd.symm
          · exact hq d (by simpa [hdc] using hd)
        simpa [put, hne] using hi.away q hoff
    below := fun d q h => by
      rcases eq_or_ne d c with rfl | hd
      · simp at h
      · simpa [put, hsched] using hi.below d q (by simpa [hd] using h) }

theorem Inv.move (hi : Inv ptable s) (h : Move ptable s c s') : Inv ptable s' := by
  cases h with
  | stay h => exact hi.stay h
  | sched hon hpos howes => exact hi.sched hon hpos howes
  | swtch hon hcur hp => exact hi.swtch hon hcur hp

theorem Inv.step (hi : Inv ptable s) {e : C × Act P L} (h : s.step ptable e = .ok () s') :
    Move ptable s e.1 s' := by
  have hpost := hi.post_step (c := e.1) e.2
  rwa [show (e.1, e.2) = e from rfl, h] at hpost

/-- The outermost `popcli` of the process will find `b`, on the CPU it runs on or in what `sched` saved. -/
structure Kept (s : Sys C P L) (p : P) (b : Bool) : Prop where
  on : ∀ c, s.on c = .proc p → (s.cur c).intena (s.cpu c) = some b
  away : ∀ i, (s.thread (.proc p)).pos = .switched i → i = some b

theorem Inv.kept_move (hi : Inv ptable s) (h : Move ptable s c s') {p : P} {b : Bool}
    (howes : (s.thread (.proc p)).owes ≠ []) (hk : Kept s p b) : Kept s' p b := by
  cases h with
  | stay h =>
    by_cases hc : s.on c = .proc p
    · have hcur : s.cur c = s.thread (.proc p) := by rw [cur, hc]
      have hkept := h.kept (hcur ▸ howes) b (hk.on c hc)
      refine ⟨fun d hd => ?_, fun i hpos => ?_⟩
      · obtain rfl := hi.once d c p hd hc
        simpa [put, cur] using hkept
      · simp only [put, hc, Function.update_self] at hpos
        simpa [Thread.intena, hpos] using hkept
    · have hne : Tid.proc p ≠ s.on c := fun h => hc h.symm
      refine ⟨fun d hd => ?_, fun i hpos => hk.away i (by simpa [put, hne] using hpos)⟩
      have hdc : d ≠ c := fun h => hc (h ▸ hd)
      simpa [put, cur, hdc, hi.on_ne hdc] using hk.on d hd
  | @sched q hon hpos howes =>
    rcases eq_or_ne q p with rfl | hqp
    · have hb := hk.on c hon
      simp only [Thread.intena, hpos] at hb
      refine ⟨fun d hd => ?_, fun i hi' => ?_⟩
      · rcases eq_or_ne d c with rfl | hdc
        · simp at hd
        · exact absurd (hi.once d c q (by simpa [hdc] using hd) hon) hdc
      · simp only [put, hon, Function.update_self] at hi'
        cases hi'
        exact hb
    · have hne : Tid.proc p ≠ s.on c := by
        rw [hon]
        exact fun h => hqp (Tid.proc.inj h).symm
      refine ⟨fun d hd => ?_, fun i hpos => hk.away i (by simpa [put, hne] using hpos)⟩
      rcases eq_or_ne d c with rfl | hdc
      · simp at hd
      · have hd' : s.on d = .proc p := by simpa [hdc] using hd
        simpa [put, cur, hdc, hi.on_ne hdc] using hk.on d hd'
  | @swtch q i hon hcur hp =>
    refine ⟨fun d hd => ?_, hk.away⟩
    rcases eq_or_ne d c with rfl | hdc
    · have hqp : q = p := by simpa using hd
      have hi' : i = some b := hk.away i (hqp ▸ hp)
      simp [cur, Thread.intena, hp, hi']
    · simpa [cur, hdc] using hk.on d (by simpa [hdc] using hd)

theorem Kept.last_move (h : Move ptable s c s') {p : P} {b : Bool}
    (howes : (s.thread (.proc p)).owes ≠ []) (hk : Kept s p b)
    (hnil : (s'.thread (.proc p)).owes = []) : s'.on c = .proc p ∧ (s'.cpu c).flIf = b := by
  cases h with
  | @stay lock x th h =>
    by_cases hc : s.on c = .proc p
    · have hcur : s.cur c = s.thread (.proc p) := by rw [cur, hc]
      simp only [put, hc, Function.update_self] at hnil
      refine ⟨hc, ?_⟩
      simpa [put] using h.last (hcur ▸ howes) hnil b (hk.on c hc)
    · have hne : Tid.proc p ≠ s.on c := fun h => hc h.symm
      exact absurd (by simpa [put, hne] using hnil) howes
  | @sched q hon hpos hq =>
    rcases eq_or_ne (Tid.proc p) (s.on c) with h | hne
    · simp [put, h, hq] at hnil
    · exact absurd (by simpa [put, hne] using hnil) howes
  | swtch => exact absurd hnil howes

theorem Inv.kept_pushcli (hi : Inv ptable s) {p : P} {lk : Option L} {b : Bool} (hon : s.on c = .proc p)
    (hpos : (s.thread (.proc p)).pos = .pushing lk b) (hnil : (s.thread (.proc p)).owes = [])
    (h : s.step ptable (c, .pushcli) = .ok () s') : Kept s' p b := by
  have hcur : s.cur c = s.thread (.proc p) := by rw [cur, hon]
  have hn : (s.cpu c).ncli = 0 := by simp [(hi.agrees c).ncli, hcur, hnil]
  have hput : ∀ x th, x.intena = b → th.intena x = some x.intena → (∀ i, th.pos ≠ .switched i) →
      Kept (s.put c x th) p b := by
    intro x th hx hth hsw
    refine ⟨fun d hd => ?_, fun i hpos => absurd (by simpa [put, hon] using hpos) (hsw i)⟩
    obtain rfl := hi.once d c p hd hon
    simp [put, cur, hth, hx]
  simp only [Sys.step, Sys.pushcli, hcur, hpos, Cpu.pushcli_eq, hn, ↓reduceIte, Res.bind_ok] at h
  cases lk with
  | none =>
    cases h
    exact hput _ _ rfl rfl (fun i h => by cases h)
  | some l =>
    obtain ⟨held, hheld, -⟩ := hi.holding_eq (c := c) (x := ⟨false, 0 + 1, b⟩) rfl (by simp) l
    simp only [hheld, Res.bind_ok] at h
    split at h
    · cases h
    · cases h
      exact hput _ _ rfl rfl (fun i h => by cases h)

/-- Interrupts are disabled on a CPU whenever its `ncli` is positive; `ncli` counts the `pushcli` calls
that the thread running there has not undone; no call panics but `acquire`, of a lock that the CPU
holds; and when the outermost `popcli` of a process has undone its outermost `pushcli`, interrupts
are enabled on the CPU it runs on then just if that `pushcli` read them as enabled, whatever ran in
between. -/
theorem interrupts_restored (h : Reaches (step ptable) anyEvent (boot ptable) s) :
    (∀ c, 0 < (s.cpu c).ncli → (s.cpu c).flIf = false) ∧
    (∀ c, (s.cpu c).ncli = (s.thread (s.on c)).owes.length) ∧
    (∀ e x, s.step ptable e = .panic x → x = .acquire) ∧
    ∀ p c lk b s₁ s₂ e s₃, s.on c = .proc p → (s.thread (.proc p)).pos = .pushing lk b →
      (s.thread (.proc p)).owes = [] → s.step ptable (c, .pushcli) = .ok () s₁ →
      Reaches (step ptable) (fun s' _ => (s'.thread (.proc p)).owes ≠ []) s₁ s₂ →
      (s₂.thread (.proc p)).owes ≠ [] → s₂.step ptable e = .ok () s₃ →
      (s₃.thread (.proc p)).owes = [] →
      s₃.on e.1 = .proc p ∧ ((s₃.cpu e.1).flIf = true ↔ b = true) := by
  have hi : Inv ptable s := h.inv inv_boot fun s e s' hi _ hst => hi.move (hi.step hst)
  refine ⟨fun c hn => (hi.agrees c).off ?_, fun c => (hi.agrees c).ncli, fun e x hx => ?_, ?_⟩
  · intro hnil
    rw [(hi.agrees c).ncli, hnil] at hn
    cases hn
  · have hpost := hi.post_step (c := e.1) e.2
    rw [show (e.1, e.2) = e from rfl, hx] at hpost
    exact hpost x rfl
  · intro p c lk b s₁ s₂ e s₃ hon hpos hnil hpush hrun howes hpop hend
    have hstart : Inv ptable s₁ ∧ Kept s₁ p b :=
      ⟨hi.move (hi.step hpush), hi.kept_pushcli hon hpos hnil hpush⟩
    obtain ⟨hi₂, hk⟩ : Inv ptable s₂ ∧ Kept s₂ p b :=
      hrun.inv (I := fun s => Inv ptable s ∧ Kept s p b) hstart fun s' e' t' hs howes' hst =>
        ⟨hs.1.move (hs.1.step hst), hs.1.kept_move (hs.1.step hst) howes' hs.2⟩
    obtain ⟨hon₃, hfl⟩ := hk.last_move (hi₂.step hpop) howes hend
    exact ⟨hon₃, by rw [hfl]⟩

/-- The process starts on one CPU, calls `acquire` with interrupts enabled and gives up that CPU; it goes
on at the other, whose scheduler had them disabled. -/
theorem interrupts_restored_migrate : ∃ s s₁ s₂ s₃ : Sys Bool Unit Unit,
    Reaches (step ()) anyEvent (boot ()) s ∧ s.step () (false, .pushcli) = .ok () s₁ ∧
      Reaches (step ()) (fun s' _ => (s'.thread (.proc ())).owes ≠ []) s₁ s₂ ∧
      s₂.step () (true, .release ()) = .ok () s₃ ∧ s₃.on true = .proc () ∧
      (s₃.cpu true).flIf = true := by
  have h : ((exec (step ()) (boot () : Sys Bool Unit Unit)
      [(false, .sti), (false, .readeflags (some ())), (false, .pushcli), (false, .xchg),
        (false, .swtch ()), (false, .resume), (false, .release ()), (false, .readeflags (some ()))]).bind
      fun _ s => (s.step () (false, .pushcli)).bind fun _ s₁ =>
        (exec (fun s' e => if (s'.thread (.proc ())).owes ≠ [] then s'.step () e else .sleep) s₁
          [(false, .xchg), (false, .sched), (false, .release ()), (true, .readeflags (some ())),
            (true, .pushcli), (true, .xchg), (true, .swtch ()), (true, .resume)]).bind
        fun _ s₂ => (s₂.step () (true, .release ())).bind fun _ s₃ =>
          (.ok (decide (s.on false = .proc () ∧ (s.thread (.proc ())).pos = .pushing (some ()) true ∧
            (s.thread (.proc ())).owes = [] ∧ (s₂.thread (.proc ())).owes ≠ [] ∧
            (s₃.thread (.proc ())).owes = [])) () : Res Panic Bool Unit)) = .ok true () := by
    decide +kernel
  obtain ⟨_, s, hs, h⟩ := Res.bind_eq_ok.1 h
  obtain ⟨_, s₁, hpush, h⟩ := Res.bind_eq_ok.1 h
  obtain ⟨_, s₂, hrun, h⟩ := Res.bind_eq_ok.1 h
  obtain ⟨_, s₃, hpop, h⟩ := Res.bind_eq_ok.1 h
  simp only [Res.ok.injEq, decide_eq_true_eq, and_true] at h
  obtain ⟨hon, hpos, hnil, howes, hend⟩ := h
  have hreach := reaches_exec hs
  have hrun' : Reaches (step ()) (fun s' _ => (s'.thread (.proc ())).owes ≠ []) s₁ s₂ :=
    reaches_guarded hrun
  obtain ⟨hon₃, hfl⟩ := (interrupts_restored hreach).2.2.2 () false (some ()) true s₁ s₂ _ s₃ hon hpos hnil
    hpush hrun' howes hpop hend
  exact ⟨s, s₁, s₂, s₃, hreach, hpush, hrun', hpop, hon₃, hfl.2 rfl⟩

end Sys

end Invariant

end Xv6.Cli
