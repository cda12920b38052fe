import Xv6.Fs.State

/-!
# The process table of `proc.c`

What each of `allocproc`, `fork`, `exit`, `wait`, `sleep`, `wakeup1` and `kill` does to
the table, one definition for each stretch of code under `ptable.lock` and for each
change made without it.  Slots are indices (`Pid`), process ids are `int`s that wrap.

A kernel stack and a page table are followed as far as the pointers to them in the
table go: whether they are null.
-/

namespace Xv6

open Bytes

/-- `CMD_NAME_MAX`, also the size of `p->name` -/
abbrev CMD_NAME_MAX : Nat := 16
abbrev MAX_HISTORY : Nat := 100

/-- What a process sleeps on: the address of a slot, as `wait` does, or another one. -/
inductive Chan where
  | proc (p : Pid)
  | addr (a : Nat)
deriving DecidableEq

/-- `struct proc`, the part that `proc.c` itself uses. -/
structure PEntry where
  state : ProcState
  pid : Word
  parent : Option Pid
  chan : Option Chan
  killed : Bool
  /-- `p->kstack != 0` -/
  kstack : Bool
  /-- `p->pgdir != 0` -/
  pgdir : Bool
  sz : Word
  name : Blk CMD_NAME_MAX

structure HistoryEntry where
  pid : Word
  name : Blk CMD_NAME_MAX
  memUsage : Word

structure Ptable where
  proc : Pid → PEntry
  nextpid : Word
  history : Nat → HistoryEntry
  historyCount : Nat
  historyIndex : Nat

/-- `safestrcpy(dst, src, CMD_NAME_MAX)` from byte `i` on: bytes are copied up to the first `0` of
those before the last, and a `0` follows. -/
def safestrcpyFrom (dst src : Blk CMD_NAME_MAX) : Nat → Nat → Blk CMD_NAME_MAX
  | 0, i => dst.splice i 1 fun _ => 0
  | n + 1, i =>
    let dst := dst.splice i 1 fun _ => src.get i
    if src.get i ≠ 0 then safestrcpyFrom dst src n (i + 1) else dst.splice (i + 1) 1 fun _ => 0

def safestrcpy (dst src : Blk CMD_NAME_MAX) : Blk CMD_NAME_MAX :=
  safestrcpyFrom dst src (CMD_NAME_MAX - 1) 0

namespace Ptable

variable (t : Ptable)

def set (p : Pid) (x : PEntry) : Ptable := { t with proc := Function.update t.proc p x }

/-! ## `allocproc` and `fork` -/

/-- `allocproc` under the lock: the first UNUSED slot becomes EMBRYO and gets a process id. -/
def allocproc : Option (Pid × Ptable) :=
  ((List.finRange NPROC).find? fun p => (t.proc p).state = .unused).map fun p =>
    (p, { t.set p { t.proc p with state := .embryo, pid := t.nextpid } with
      nextpid := t.nextpid + 1 })

/-- `allocproc` after `kalloc`: without a page the slot is given back. -/
def allocStack (np : Pid) (page : Bool) : Ptable :=
  if page then t.set np { t.proc np with kstack := true }
  else t.set np { t.proc np with kstack := false, state := .unused }

/-- `fork` after `copyuvm`: the slot is given back, or the child becomes a copy of `me`. -/
def forkCopy (me np : Pid) (copied : Bool) : Ptable :=
  if copied then t.set np { t.proc np with
    pgdir := true
    sz := (t.proc me).sz
    parent := some me
    name := safestrcpy (t.proc np).name (t.proc me).name }
  else t.set np { t.proc np with pgdir := false, kstack := false, state := .unused }

def makeRunnable (np : Pid) : Ptable := t.set np { t.proc np with state := .runnable }

/-! ## `sleep`, `wakeup1` and `kill` -/

def sleep (me : Pid) (chan : Chan) : Ptable :=
  t.set me { t.proc me with chan := some chan, state := .sleeping }

/-- Wake up all processes sleeping on chan. -/
def wakeup1 (chan : Option Chan) : Ptable :=
  { t with proc := fun p =>
      if (t.proc p).state = .sleeping ∧ (t.proc p).chan = chan then
        { t.proc p with state := .runnable }
      else t.proc p }

def kill (pid : Word) : Int × Ptable :=
  match (List.finRange NPROC).find? fun p => (t.proc p).pid = pid with
  | some p => (0, t.set p { t.proc p with
      killed := true
      state := if (t.proc p).state = .sleeping then .runnable else (t.proc p).state })
  | none => (-1, t)

/-! ## `exit` -/

/-- `exit` under the lock for the first time: add the process to the history. -/
def record (me : Pid) : Ptable :=
  let h := t.history t.historyIndex
  { t with
    history := Function.update t.history t.historyIndex
      { pid := (t.proc me).pid
        name := safestrcpy h.name (t.proc me).name
        memUsage := (t.proc me).sz }
    historyIndex := (t.historyIndex + 1) % MAX_HISTORY
    historyCount := if t.historyCount < MAX_HISTORY then t.historyCount + 1 else t.historyCount }

/-- One round of the loop that passes abandoned children to init. -/
def passChild (init me : Pid) (t : Ptable) (p : Pid) : Ptable :=
  if (t.proc p).parent = some me then
    let t := t.set p { t.proc p with parent := some init }
    if (t.proc p).state = .zombie then t.wakeup1 (some (.proc init)) else t
  else t

/-- `exit` under the lock for the second time, up to `sched()`. -/
def exit (init me : Pid) : Ptable :=
  let t := t.wakeup1 ((t.proc me).parent.map .proc)
  let t := (List.finRange NPROC).foldl (passChild init me) t
  t.set me { t.proc me with state := .zombie }

/-! ## `wait` -/

/-- What `wait` finds under the lock. -/
inductive Waited where
  /-- a zombie child -/
  | reap (p : Pid)
  /-- no children, or killed: return `-1` -/
  | fail
  /-- sleep on the own slot -/
  | sleep
deriving DecidableEq

def waitScan (me : Pid) : Waited :=
  match (List.finRange NPROC).find? fun p =>
    (t.proc p).parent = some me && (t.proc p).state = .zombie with
  | some p => .reap p
  | none =>
    if (∀ p, (t.proc p).parent ≠ some me) ∨ (t.proc me).killed = true then .fail else .sleep

/-- The slot of a reaped child; `p->pgdir` keeps pointing to the freed page table. -/
def reap (p : Pid) : Ptable :=
  t.set p { t.proc p with
    kstack := false
    pid := 0
    parent := none
    name := (t.proc p).name.splice 0 1 fun _ => 0
    killed := false
    state := .unused }

/-! ## The start -/

/-- The table before the first process. -/
def empty : Ptable where
  proc := fun _ => ⟨.unused, 0, none, none, false, false, false, 0, .zero⟩
  nextpid := 1
  history := fun _ => ⟨0, .zero, 0⟩
  historyCount := 0
  historyIndex := 0

def initcode : Blk CMD_NAME_MAX :=
  .ofFn fun i => [0x69, 0x6e, 0x69, 0x74, 0x63, 0x6f, 0x64, 0x65].getD i 0

/-- `userinit` sets up the first process and makes it runnable; there is memory for it. -/
def userinit : Ptable :=
  match empty.allocproc with
  | some (p, t) =>
    let t := t.allocStack p true
    let t := t.set p { t.proc p with
      pgdir := true
      sz := 4096
      name := safestrcpy (t.proc p).name initcode }
    t.makeRunnable p
  | none => empty

/-! ## What they do -/

variable {t : Ptable} {p q : Pid}

@[simp] theorem proc_set (x : PEntry) : (t.set p x).proc p = x := Function.update_self ..

theorem proc_set_ne (x : PEntry) (h : q ≠ p) : (t.set p x).proc q = t.proc q :=
  Function.update_of_ne h _ _

theorem proc_set_cases (x : PEntry) (q : Pid) :
    (q = p ∧ (t.set p x).proc q = x) ∨ (q ≠ p ∧ (t.set p x).proc q = t.proc q) := by
  by_cases h : q = p
  · exact Or.inl ⟨h, by rw [h, proc_set]⟩
  · exact Or.inr ⟨h, proc_set_ne x h⟩

theorem allocproc_some {t' : Ptable} (h : t.allocproc = some (p, t')) :
    (t.proc p).state = .unused ∧
      t' = { t.set p { t.proc p with state := .embryo, pid := t.nextpid } with
        nextpid := t.nextpid + 1 } := by
  obtain ⟨q, hq, h⟩ := Option.map_eq_some_iff.1 h
  cases h
  exact ⟨by simpa using List.find?_some hq, rfl⟩

/-- What a wakeup can do to a slot. -/
def Woken (x y : PEntry) : Prop := y = x ∨ (x.state = .sleeping ∧ y = { x with state := .runnable })

theorem woken_wakeup1 (c : Option Chan) (p : Pid) : Woken (t.proc p) ((t.wakeup1 c).proc p) := by
  unfold wakeup1 Woken
  dsimp only
  split
  · next h => exact Or.inr ⟨h.1, rfl⟩
  · exact Or.inl rfl

theorem kill_cases (t : Ptable) (pid : Word) :
    (t.kill pid = (-1, t) ∧ ∀ p, (t.proc p).pid ≠ pid) ∨
    ∃ p, (t.proc p).pid = pid ∧ t.kill pid = (0, t.set p { t.proc p with
      killed := true
      state := if (t.proc p).state = .sleeping then .runnable else (t.proc p).state }) := by
  unfold kill
  split
  · next p hp => exact Or.inr ⟨p, by simpa using List.find?_some hp, rfl⟩
  · next hnone =>
    refine Or.inl ⟨rfl, fun p => ?_⟩
    simpa using List.find?_eq_none.1 hnone p (List.mem_finRange p)

theorem waitScan_reap {me : Pid} (h : t.waitScan me = .reap p) :
    (t.proc p).parent = some me ∧ (t.proc p).state = .zombie := by
  unfold waitScan at h
  split at h
  · next q hq =>
    cases h
    simpa using List.find?_some hq
  · split at h <;> cases h

/-! ### `exit` -/

structure Passed (init me : Pid) (x y : PEntry) : Prop where
  rest : y = { x with parent := y.parent, state := y.state }
  state : y.state = x.state ∨ (x.state = .sleeping ∧ y.state = .runnable)
  parent : y.parent = x.parent ∨ (x.parent = some me ∧ y.parent = some init)

variable {init me : Pid}

theorem Woken.passed {x y : PEntry} (h : Woken x y) : Passed init me x y := by
  rcases h with rfl | ⟨hs, rfl⟩
  · exact ⟨rfl, Or.inl rfl, Or.inl rfl⟩
  · exact ⟨rfl, Or.inr ⟨hs, rfl⟩, Or.inl rfl⟩

theorem Passed.trans (hne : init ≠ me) {x y z : PEntry} (h : Passed init me x y)
    (h' : Passed init me y z) : Passed init me x z := by
  obtain ⟨r, s, p⟩ := h
  obtain ⟨r', s', p'⟩ := h'
  refine ⟨?_, ?_, ?_⟩
  · rw [r', r]
  · rcases s with s | ⟨s, s₁⟩
    · rwa [s] at s'
    · rcases s' with s' | ⟨s', -⟩
      · exact Or.inr ⟨s, s'.trans s₁⟩
      · rw [s₁] at s'
        cases s'
  · rcases p with p | ⟨p, p₁⟩
    · rwa [p] at p'
    · rcases p' with p' | ⟨p', -⟩
      · exact Or.inr ⟨p, p'.trans p₁⟩
      · rw [p₁, Option.some.injEq] at p'
        exact absurd p' hne

theorem passed_passChild (init me p q : Pid) (t : Ptable) :
    Passed init me (t.proc q) ((passChild init me t p).proc q) := by
  unfold passChild
  split
  · next hp =>
    have hset : Passed init me (t.proc q)
        ((t.set p { t.proc p with parent := some init }).proc q) := by
      obtain ⟨rfl, h⟩ | ⟨-, h⟩ := proc_set_cases (t := t) (p := p)
        { t.proc p with parent := some init } q
      · rw [h]
        exact ⟨rfl, Or.inl rfl, Or.inr ⟨hp, rfl⟩⟩
      · rw [h]
        exact ⟨rfl, Or.inl rfl, Or.inl rfl⟩
    dsimp only
    split
    · have hw := woken_wakeup1 (t := t.set p { t.proc p with parent := some init })
        (some (.proc init)) q
      obtain ⟨r, s, pa⟩ := hset
      rcases hw with hw | ⟨hs, hw⟩
      · rw [hw]
        exact ⟨r, s, pa⟩
      · rw [hw]
        refine ⟨by rw [r], ?_, pa⟩
        rcases s with s | ⟨s, -⟩
        · exact Or.inr ⟨s ▸ hs, rfl⟩
        · exact Or.inr ⟨s, rfl⟩
    · exact hset
  · exact ⟨rfl, Or.inl rfl, Or.inl rfl⟩

theorem parent_passChild (init me p : Pid) (hne : init ≠ me) (t : Ptable) :
    ((passChild init me t p).proc p).parent ≠ some me := by
  have hkeep : ∀ u : Ptable, (u.proc p).parent = some init →
      ((u.wakeup1 (some (.proc init))).proc p).parent = some init := by
    intro u hu
    rcases woken_wakeup1 (t := u) (some (.proc init)) p with h | ⟨-, h⟩ <;> rw [h] <;> exact hu
  unfold passChild
  split
  · have hset : ((t.set p { t.proc p with parent := some init }).proc p).parent = some init := by
      rw [proc_set]
    dsimp only
    split
    · rw [hkeep _ hset, Ne, Option.some.injEq]
      exact hne
    · rw [hset, Ne, Option.some.injEq]
      exact hne
  · next h => exact h

theorem passed_foldl (hne : init ≠ me) (l : List Pid) (t : Ptable) (q : Pid) :
    Passed init me (t.proc q) ((l.foldl (passChild init me) t).proc q) ∧
      (q ∈ l → ((l.foldl (passChild init me) t).proc q).parent ≠ some me) := by
  induction l generalizing t with
  | nil => exact ⟨⟨rfl, Or.inl rfl, Or.inl rfl⟩, fun h => absurd h List.not_mem_nil⟩
  | cons p l ih =>
    obtain ⟨hpass, hmem⟩ := ih (passChild init me t p)
    rw [List.foldl_cons]
    refine ⟨(passed_passChild init me p q t).trans hne hpass, fun hq => ?_⟩
    rcases List.mem_cons.1 hq with rfl | hq
    · rcases hpass.parent with h | ⟨h, -⟩
      · rw [h]
        exact parent_passChild init me q hne t
      · exact absurd h (parent_passChild init me q hne t)
    · exact hmem hq

theorem nextpid_exit (init me : Pid) (t : Ptable) : (t.exit init me).nextpid = t.nextpid := by
  have hpass : ∀ (t : Ptable) (p : Pid), (passChild init me t p).nextpid = t.nextpid := by
    intro t p
    unfold passChild
    dsimp only
    split_ifs <;> rfl
  have hfold : ∀ (l : List Pid) (t : Ptable),
      (l.foldl (passChild init me) t).nextpid = t.nextpid := by
    intro l
    induction l with
    | nil => exact fun t => rfl
    | cons p l ih =>
      intro t
      rw [List.foldl_cons, ih, hpass]
  unfold exit
  generalize List.finRange NPROC = l
  exact hfold l _

/-- What `exit` of process `me` makes of the table. -/
structure Left (init me : Pid) (t t' : Ptable) : Prop where
  rest : ∀ q, t'.proc q = { t.proc q with parent := (t'.proc q).parent, state := (t'.proc q).state }
  zombie : (t'.proc me).state = .zombie
  state : ∀ q, q ≠ me → (t'.proc q).state = (t.proc q).state ∨
    ((t.proc q).state = .sleeping ∧ (t'.proc q).state = .runnable)
  parent : ∀ q, (t'.proc q).parent = (t.proc q).parent ∨
    ((t.proc q).parent = some me ∧ (t'.proc q).parent = some init)
  passed : ∀ q, (t'.proc q).parent ≠ some me
  next : t'.nextpid = t.nextpid

theorem left_exit (hne : init ≠ me) (t : Ptable) : Left init me t (t.exit init me) := by
  obtain ⟨u, hu⟩ : ∃ u, u = (List.finRange NPROC).foldl (passChild init me)
    (t.wakeup1 ((t.proc me).parent.map .proc)) := ⟨_, rfl⟩
  have hexit : t.exit init me = u.set me { u.proc me with state := .zombie } := by
    rw [hu]
    rfl
  have hall : ∀ q, Passed init me (t.proc q) (u.proc q) ∧ (u.proc q).parent ≠ some me := by
    intro q
    obtain ⟨hpass, hparent⟩ := passed_foldl hne (List.finRange NPROC)
      (t.wakeup1 ((t.proc me).parent.map .proc)) q
    rw [← hu] at hpass hparent
    exact ⟨((woken_wakeup1 _ q).passed).trans hne hpass, hparent (List.mem_finRange q)⟩
  have hslot : ∀ q, (t.exit init me).proc q =
      { u.proc q with state := ((t.exit init me).proc q).state } := by
    intro q
    rw [hexit]
    obtain ⟨rfl, hq⟩ | ⟨-, hq⟩ := proc_set_cases (t := u) (p := me)
      { u.proc me with state := .zombie } q <;> rw [hq]
  refine ⟨fun q => ?_, by rw [hexit, proc_set], fun q hq => ?_, fun q => ?_, fun q => ?_,
    nextpid_exit init me t⟩
  · rw [hslot, (hall q).1.rest]
  · rw [hexit, proc_set_ne _ hq]
    exact (hall q).1.state
  · rw [hslot]
    exact (hall q).1.parent
  · rw [hslot]
    exact (hall q).2

end Ptable

end Xv6
