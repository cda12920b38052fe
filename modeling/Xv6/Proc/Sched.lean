import Xv6.Proc.Table
import Xv6.Lib.Runs

/-!
# Processes on several CPUs

Each CPU of `C` runs its `scheduler()` or the process that its scheduler switched to.
`ptable.lock` belongs to a CPU; it is taken by one thread and often released by
another, since `swtch` goes from a process that holds it to the scheduler of its CPU and
from the scheduler to a process.  A step is what a thread does between two points at
which it takes or releases the lock or switches, or one of the changes that `fork` makes
to the new slot without the lock.

`parked` says at which `swtch` a process gave up its CPU, so where it goes on when it is
switched to: there it still holds the lock.
-/

namespace Xv6

open Bytes Conc

/-- Where the `scheduler()` of a CPU is. -/
inductive SchedPos where
  /-- before `acquire(&ptable.lock)` -/
  | idle
  /-- in its loop, before slot `i` -/
  | scan (i : Nat)
  /-- in `swtch` to the process in slot `p` -/
  | away (p : Pid)
  /-- after that `swtch` -/
  | back (p : Pid)
deriving DecidableEq

/-- `struct cpu`: `c->proc`, and where its scheduler is. -/
structure Cpu where
  proc : Option Pid
  sched : SchedPos
deriving DecidableEq

/-- The places where a process gives up its CPU; a new one starts in `forkret`. -/
inductive Parked where
  | forkret
  | yield
  /-- in `sleep` with another lock than `ptable.lock` -/
  | sleep
  /-- in the `sleep` of `wait` -/
  | wait
  /-- at the end of `exit` -/
  | exit
deriving DecidableEq

/-- Where `fork` is with the new slot. -/
inductive ForkPos where
  /-- before `kalloc` of the kernel stack -/
  | slot
  /-- before `copyuvm` -/
  | stack
  /-- before `np->state = RUNNABLE` -/
  | ready
deriving DecidableEq

/-- What of `proc.c` a process is in. -/
inductive Doing where
  | other
  | fork (np : Pid) (pos : ForkPos)
  /-- in `exit`, after the history was written -/
  | exit
deriving DecidableEq

structure Thread where
  parked : Option Parked
  doing : Doing
deriving DecidableEq

/-- The panics of this code. -/
inductive SchedPanic where
  /-- `init exiting` -/
  | initExiting
  /-- `switchuvm: no kstack` -/
  | noKstack
  /-- `switchuvm: no pgdir` -/
  | noPgdir
  /-- `zombie exit` -/
  | zombieExit
deriving DecidableEq

/-- The table, the CPUs and the threads.  `exits` and `reaped` are history: the pids of the processes that became zombies, and
the pids that `wait` returned, with the caller. -/
structure ProcSys (C : Type) where
  table : Ptable
  lock : Option C
  cpu : C → Cpu
  thread : Pid → Thread
  exits : List Word
  reaped : List (Pid × Word)

/-- What a running process does. -/
inductive ProcAct where
  | yield
  | sleep (chan : Chan)
  | wait
  | forkAlloc
  | forkStack (page : Bool)
  | forkCopy (copied : Bool)
  | forkReady
  | exitStart
  | exitEnd
  | kill (pid : Word)
  /-- a trap in user space: `myproc()->killed = 1` -/
  | fault
  /-- `sbrk` or `exec` -/
  | image (sz : Word) (name : Blk CMD_NAME_MAX)

inductive ProcEvent (C : Type) where
  /-- `scheduler` takes the lock -/
  | acquire (c : C)
  /-- one round of its loop, up to `swtch` -/
  | scan (c : C)
  /-- `scheduler` after `swtch` -/
  | back (c : C)
  /-- a process after `swtch` -/
  | resume (c : C)
  /-- `wakeup`, by a process or by an interrupt on any CPU -/
  | wakeup (c : C) (chan : Chan)
  | proc (c : C) (a : ProcAct)

/-- The slot of the first process. -/
abbrev initslot : Pid := 0

namespace ProcSys

variable {C : Type} [DecidableEq C] (m : ProcSys C)

def setCpu (c : C) (x : Cpu) : ProcSys C := { m with cpu := Function.update m.cpu c x }

def setThread (p : Pid) (x : Thread) : ProcSys C :=
  { m with thread := Function.update m.thread p x }

/-- The process that runs on a CPU and is not in `swtch`. -/
def running (c : C) : Option Pid :=
  match (m.cpu c).sched with
  | .away p => if (m.thread p).parked = none then some p else none
  | _ => none

/-- `sched()` by process `p`: `swtch` to the scheduler of its CPU, which holds the lock now. -/
def sched (c : C) (p : Pid) (pt : Parked) : ProcSys C :=
  { (m.setThread p { m.thread p with parked := some pt }).setCpu c
      { m.cpu c with sched := .back p } with lock := some c }

/-- Process `p` on CPU `c` releases the lock and goes on. -/
def release (p : Pid) : ProcSys C :=
  { m.setThread p { m.thread p with parked := none } with lock := none }

def waitLoop (c : C) (me : Pid) : ProcSys C :=
  match m.table.waitScan me with
  | .reap z => { m.release me with
      table := m.table.reap z
      reaped := m.reaped ++ [(me, (m.table.proc z).pid)] }
  | .fail => m.release me
  | .sleep => { m with table := m.table.sleep me (.proc me) }.sched c me .wait

/-- One round of the loop of `scheduler`. -/
def scanStep (c : C) (i : Nat) : Res SchedPanic Unit (ProcSys C) :=
  if h : i < NPROC then
    let p : Pid := ⟨i, h⟩
    let x := m.table.proc p
    if x.state ≠ .runnable then .ok () (m.setCpu c { m.cpu c with sched := .scan (i + 1) })
    else if x.kstack = false then .panic .noKstack
    else if x.pgdir = false then .panic .noPgdir
    else .ok () { m.setCpu c ⟨some p, .away p⟩ with
      table := m.table.set p { x with state := .running } }
  else .ok () { m.setCpu c { m.cpu c with sched := .idle } with lock := none }

/-- A process after `swtch`; `forkret`, `yield` and `sleep` release the lock, `wait` loops. -/
def resumeStep (c : C) (p : Pid) : Option Parked → Res SchedPanic Unit (ProcSys C)
  | none => .sleep
  | some .forkret => .ok () (m.release p)
  | some .yield => .ok () (m.release p)
  | some .sleep =>
    .ok () { m.release p with table := m.table.set p { m.table.proc p with chan := none } }
  | some .exit => .panic .zombieExit
  | some .wait => .ok ()
      ({ m with table := m.table.set p { m.table.proc p with chan := none } }.waitLoop c p)

/-- What the running process does. -/
def procStep (c : C) (me : Pid) : ProcAct → Res SchedPanic Unit (ProcSys C)
  | .yield =>
    if m.lock = none then .ok ()
      ({ m with table := m.table.set me { m.table.proc me with state := .runnable } }.sched c me .yield)
    else .sleep
  | .sleep chan =>
    if m.lock = none then .ok () ({ m with table := m.table.sleep me chan }.sched c me .sleep)
    else .sleep
  | .wait =>
    if m.lock = none ∧ (m.thread me).doing = .other then .ok () (m.waitLoop c me) else .sleep
  | .forkAlloc =>
    if m.lock = none ∧ (m.thread me).doing = .other then
      match m.table.allocproc with
      | none => .ok () m
      | some (np, t) => .ok ()
          ({ m with table := t }.setThread me { m.thread me with doing := .fork np .slot })
    else .sleep
  | .forkStack page =>
    match (m.thread me).doing with
    | .fork np .slot =>
      if page then
        -- the new context starts in `forkret`
        .ok () (({ m with table := m.table.allocStack np true }.setThread np
          ⟨some .forkret, .other⟩).setThread me { m.thread me with doing := .fork np .stack })
      else .ok () ({ m with table := m.table.allocStack np false }.setThread me
          { m.thread me with doing := .other })
    | _ => .sleep
  | .forkCopy copied =>
    match (m.thread me).doing with
    | .fork np .stack => .ok () ({ m with table := m.table.forkCopy me np copied }.setThread me
        { m.thread me with doing := if copied then .fork np .ready else .other })
    | _ => .sleep
  | .forkReady =>
    match (m.thread me).doing with
    | .fork np .ready =>
      if m.lock = none then .ok () ({ m with table := m.table.makeRunnable np }.setThread me
        { m.thread me with doing := .other })
      else .sleep
    | _ => .sleep
  | .exitStart =>
    if (m.thread me).doing = .other then
      if me = initslot then .panic .initExiting
      else if m.lock = none then .ok ()
        ({ m with table := m.table.record me }.setThread me { m.thread me with doing := .exit })
      else .sleep
    else .sleep
  | .exitEnd =>
    if m.lock = none ∧ (m.thread me).doing = .exit then .ok ()
      ({ m with
        table := m.table.exit initslot me
        exits := m.exits ++ [(m.table.proc me).pid] }.sched c me .exit)
    else .sleep
  | .kill pid => if m.lock = none then .ok () { m with table := (m.table.kill pid).2 } else .sleep
  | .fault => .ok () { m with table := m.table.set me { m.table.proc me with killed := true } }
  | .image sz name =>
    .ok () { m with table := m.table.set me { m.table.proc me with sz := sz, name := name } }

def step : ProcEvent C → Res SchedPanic Unit (ProcSys C)
  | .acquire c =>
    if m.lock = none ∧ (m.cpu c).sched = .idle then
      .ok () { m.setCpu c { m.cpu c with sched := .scan 0 } with lock := some c }
    else .sleep
  | .scan c =>
    match (m.cpu c).sched with
    | .scan i => m.scanStep c i
    | _ => .sleep
  | .back c =>
    match (m.cpu c).sched with
    | .back p => .ok () (m.setCpu c ⟨none, .scan (p.1 + 1)⟩)
    | _ => .sleep
  | .resume c =>
    match (m.cpu c).sched with
    | .away p => m.resumeStep c p (m.thread p).parked
    | _ => .sleep
  | .wakeup _ chan =>
    if m.lock = none then .ok () { m with table := m.table.wakeup1 (some chan) } else .sleep
  | .proc c a =>
    match m.running c with
    | some me => m.procStep c me a
    | none => .sleep

/-- The state when the CPUs start their schedulers: only the first process is there. -/
def boot : ProcSys C where
  table := Ptable.userinit
  lock := none
  cpu := fun _ => ⟨none, .idle⟩
  thread := fun p => if p = initslot then ⟨some .forkret, .other⟩ else ⟨none, .other⟩
  exits := []
  reaped := []

end ProcSys

end Xv6
