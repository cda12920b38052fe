import Xv6.Proc.Life

/-!
# Everything a step of the process system can do

`Step` says what a step does to the slots of the table (`Change`), who may be asleep after it
(`Asleep`) and whom it may kill.  `step_sound` is the only place where the code of the steps is
taken apart; invariants are proved from `Step`.
-/

namespace Xv6

open Bytes Conc

/-- The process in a slot stays what it is; it may be woken, or get or give up a CPU. -/
structure PEntry.Alike (x y : PEntry) : Prop where
  pid : y.pid = x.pid
  parent : y.parent = x.parent
  kind : y.state.kind = x.state.kind
  memory : y.kstack = x.kstack ∧ y.pgdir = x.pgdir

/-- And it does not fall asleep. -/
structure PEntry.Calm (x y : PEntry) : Prop extends x.Alike y where
  asleep : y.state = .sleeping → x.state = .sleeping ∧ y.chan = x.chan ∧ y.killed = x.killed

namespace PEntry

variable {x y : PEntry}

theorem Calm.refl (x : PEntry) : x.Calm x := ⟨⟨rfl, rfl, rfl, rfl, rfl⟩, fun h => ⟨h, rfl, rfl⟩⟩

theorem Alike.calm (h : x.Alike y) (hy : y.state ≠ .sleeping) : x.Calm y :=
  ⟨h, fun hs => absurd hs hy⟩

theorem Alike.alive (h : x.Alike y) : y.state.Alive ↔ x.state.Alive := by
  rw [ProcState.alive_iff, ProcState.alive_iff, h.kind]

theorem Alike.used (h : x.Alike y) : y.state.Used ↔ x.state.Used := by
  rw [ProcState.used_iff, ProcState.used_iff, h.kind]

theorem Alike.is (h : x.Alike y) (st : ProcState) (hst : ¬ st.Alive) : y.state = st ↔ x.state = st :=
  ProcState.is_of_kind h.kind hst

theorem calm_of_woken (h : Ptable.Woken x y) : x.Calm y := by
  rcases h with rfl | ⟨hs, rfl⟩
  · exact .refl _
  · exact Alike.calm ⟨rfl, rfl, by rw [hs]; rfl, rfl, rfl⟩ (fun h => by cases h)

end PEntry

namespace Ptable

variable {t t' : Ptable} {p q : Pid}

theorem calm_set {x : PEntry} (h : (t.proc p).Calm x) (q : Pid) :
    (t.proc q).Calm ((t.set p x).proc q) := by
  obtain ⟨rfl, hq⟩ | ⟨-, hq⟩ := proc_set_cases (t := t) (p := p) x q
  · rw [hq]
    exact h
  · rw [hq]
    exact .refl _

theorem running_set {x : PEntry} (h : x.state = .running ↔ (t.proc p).state = .running) (q : Pid) :
    ((t.set p x).proc q).state = .running ↔ (t.proc q).state = .running := by
  obtain ⟨rfl, hq⟩ | ⟨-, hq⟩ := proc_set_cases (t := t) (p := p) x q
  · rw [hq, h]
  · rw [hq]

theorem waitScan_sleep {me : Pid} (h : t.waitScan me = .sleep) :
    (t.proc me).killed = false ∧ ∀ z, (t.proc z).parent = some me → (t.proc z).state ≠ .zombie := by
  unfold waitScan at h
  split at h
  · cases h
  · next hnone =>
    split at h
    · cases h
    · next hk =>
      rw [not_or] at hk
      refine ⟨by simpa using hk.2, fun z hz hs => ?_⟩
      simpa [hz, hs] using List.find?_eq_none.1 hnone z (List.mem_finRange z)

end Ptable

namespace ProcSys

variable {C : Type}

/-- The event sets `killed` of the process in slot `q`. -/
def Hits (m : ProcSys C) (e : ProcEvent C) (q : Pid) : Prop :=
  (∃ c, e = .proc c .fault ∧ m.running c = some q) ∨
    ∃ c pid, e = .proc c (.kill pid) ∧ (m.table.proc q).pid = pid

/-- What `fork` of process `p` can leave in the slot `np`, and where it is then. -/
inductive NewSlot (p np : Pid) (x : PEntry) : Doing → Prop
  | on (pos : ForkPos) (embryo : x.state = .embryo) (parent : pos = .ready → x.parent = some p) :
      NewSlot p np x (.fork np pos)
  /-- the slot is given back -/
  | failed (unused : x.state = .unused) : NewSlot p np x .other
  | child (runnable : x.state = .runnable) (parent : x.parent = some p) : NewSlot p np x .other

/-- What a step does to the slots, to `doing` and to the history. -/
inductive Change (m : ProcSys C) (e : ProcEvent C) (m' : ProcSys C) : Prop
  /-- everybody stays what it is, or begins to `exit` -/
  | calm (slots : ∀ q, (m.table.proc q).Alike (m'.table.proc q))
      (doing : ∀ q, (m'.thread q).doing = (m.thread q).doing ∨
        ((m.thread q).doing = .other ∧ (m'.thread q).doing = .exit ∧ q ≠ initslot))
      (exits : m'.exits = m.exits) (reaped : m'.reaped = m.reaped)
      (next : m'.table.nextpid = m.table.nextpid)
  /-- `fork` of process `p` takes the slot `np`, or works on it -/
  | fork (c : C) (p np : Pid) (x : PEntry) (d : Doing) (alive : (m.table.proc p).state.Alive)
      (doing : (m.thread p).doing ≠ .exit) (vacant : (m.table.proc np).state.Vacant)
      (only : ∀ q pos, (m.thread q).doing = .fork np pos → q = p)
      (proc : m'.table.proc = Function.update m.table.proc np x) (new : NewSlot p np x d)
      (slot : ((m.table.proc np).state = .embryo ∧ x.pid = (m.table.proc np).pid ∧
          m'.table.nextpid = m.table.nextpid) ∨
        (e = .proc c .forkAlloc ∧ m.table.allocproc = some (np, m'.table)))
      (self : (m'.thread p).doing = d)
      (others : ∀ q, q ≠ p → (m'.thread q).doing = (m.thread q).doing ∨
        (q = np ∧ (m'.thread q).doing = .other))
      (exits : m'.exits = m.exits) (reaped : m'.reaped = m.reaped)
  /-- `wait` of process `p` frees the slot `z` -/
  | reap (c : C) (p z : Pid) (cpu : m.cpu c = ⟨some p, .away p⟩)
      (child : (m.table.proc z).parent = some p) (zombie : (m.table.proc z).state = .zombie)
      (off : ∀ c', (m.cpu c').proc ≠ some z)
      (slots : ∀ q, q ≠ z → (m.table.proc q).Alike (m'.table.proc q))
      (free : (m'.table.proc z).state = .unused ∧ (m'.table.proc z).parent = none ∧
        (m'.table.proc z).killed = false)
      (doing : ∀ q, (m'.thread q).doing = (m.thread q).doing)
      (exits : m'.exits = m.exits) (reaped : m'.reaped = m.reaped ++ [(p, (m.table.proc z).pid)])
      (next : m'.table.nextpid = m.table.nextpid)
  | exit (c : C) (p : Pid) (event : e = .proc c .exitEnd) (running : m.running c = some p)
      (state : (m.table.proc p).state = .running) (doing : (m.thread p).doing = .exit)
      (table : m'.table = m.table.exit initslot p) (left : Ptable.Left initslot p m.table m'.table)
      (others : ∀ q, (m'.thread q).doing = (m.thread q).doing)
      (exits : m'.exits = m.exits ++ [(m.table.proc p).pid]) (reaped : m'.reaped = m.reaped)

/-- Why a process is asleep after a step. -/
inductive Asleep (m : ProcSys C) (e : ProcEvent C) (m' : ProcSys C) (q : Pid) : Prop
  | still (before : (m.table.proc q).state = .sleeping)
      (chan : (m'.table.proc q).chan = (m.table.proc q).chan)
      (killed : (m'.table.proc q).killed = (m.table.proc q).killed)
      (parked : (m'.thread q).parked = (m.thread q).parked)
  | sleep (c : C) (chan : Chan) (event : e = .proc c (.sleep chan)) (running : m.running c = some q)
      (chan' : (m'.table.proc q).chan = some chan) (parked : (m'.thread q).parked = some .sleep)
  /-- in `wait`, only if there is nothing to wait for yet -/
  | wait (chan : (m'.table.proc q).chan = some (.proc q)) (killed : (m'.table.proc q).killed = false)
      (children : ∀ z, (m'.table.proc z).parent = some q → (m'.table.proc z).state ≠ .zombie)

structure Step (m : ProcSys C) (e : ProcEvent C) (m' : ProcSys C) : Prop where
  change : Change m e m'
  asleep : ∀ q, (m'.table.proc q).state = .sleeping → Asleep m e m' q
  killed : ∀ q, (m'.table.proc q).killed = true → (m.table.proc q).killed = true ∨ m.Hits e q

/-! ### Every step is one of these -/

variable {m m' : ProcSys C} {e : ProcEvent C} {c : C} {p : Pid}

theorem running_eq (h : m.running c = some p) :
    (m.cpu c).sched = .away p ∧ (m.thread p).parked = none := by
  unfold running at h
  split at h
  · next q hq =>
    split at h
    · next hpt =>
      cases h
      exact ⟨hq, hpt⟩
    · cases h
  · cases h

theorem NewSlot.state {np : Pid} {x : PEntry} {d : Doing} (h : NewSlot p np x d) :
    ¬ x.state = .sleeping ∧ ¬ x.state = .running ∧ ¬ x.state = .zombie := by
  cases h with
  | on pos embryo parent => simp [embryo]
  | failed unused => simp [unused]
  | child runnable parent => simp [runnable]

/-- Nobody gets on in `fork` or `exit`, and who is asleep stays where it is. -/
structure Rest (m m' : ProcSys C) : Prop where
  doing : ∀ q, (m'.thread q).doing = (m.thread q).doing
  parked : ∀ q, (m.table.proc q).state = .sleeping → (m'.thread q).parked = (m.thread q).parked
  exits : m'.exits = m.exits

theorem Rest.same (hthread : m'.thread = m.thread) (hexits : m'.exits = m.exits) : Rest m m' :=
  ⟨fun q => by rw [hthread], fun q _ => by rw [hthread], hexits⟩

theorem Rest.parks {pt : Option Parked} (hp : (m.table.proc p).state = .running)
    (hthread : m'.thread = Function.update m.thread p { m.thread p with parked := pt })
    (hexits : m'.exits = m.exits) : Rest m m' := by
  refine ⟨fun q => ?_, fun q hq => ?_, hexits⟩
  · rw [hthread]
    by_cases hqp : q = p
    · rw [hqp, Function.update_self]
    · rw [Function.update_of_ne hqp]
  · have hqp : q ≠ p := by
      rintro rfl
      rw [hp] at hq
      cases hq
    rw [hthread, Function.update_of_ne hqp]

theorem Step.calm (slots : ∀ q, (m.table.proc q).Calm (m'.table.proc q))
    (hk : ∀ q, (m'.table.proc q).killed = true → (m.table.proc q).killed = true ∨ m.Hits e q)
    (hnext : m'.table.nextpid = m.table.nextpid) (hr : Rest m m') (hreaped : m'.reaped = m.reaped) :
    Step m e m' := by
  refine ⟨.calm (fun q => (slots q).toAlike) (fun q => Or.inl (hr.doing q)) hr.exits hreaped hnext,
    fun q hq => ?_, hk⟩
  obtain ⟨hs, hchan, hkilled⟩ := (slots q).asleep hq
  exact .still hs hchan hkilled (hr.parked q hs)

theorem Step.table (htable : m'.table = m.table) (hr : Rest m m') (hreaped : m'.reaped = m.reaped) :
    Step m e m' :=
  .calm (fun q => by rw [htable]; exact .refl _) (fun q hq => Or.inl (by rwa [htable] at hq))
    (by rw [htable]) hr hreaped

/-- One slot changes. -/
theorem Step.set {x : PEntry} (htable : m'.table = m.table.set p x) (hx : (m.table.proc p).Calm x)
    (hk : x.killed = true → (m.table.proc p).killed = true ∨ m.Hits e p) (hr : Rest m m')
    (hreaped : m'.reaped = m.reaped) : Step m e m' := by
  refine .calm (fun q => ?_) (fun q hq => ?_) (by rw [htable]; rfl) hr hreaped
  · rw [htable]
    exact Ptable.calm_set hx q
  · rw [htable] at hq
    obtain ⟨rfl, h⟩ | ⟨-, h⟩ := Ptable.proc_set_cases (t := m.table) (p := p) x q <;> rw [h] at hq
    · exact hk hq
    · exact Or.inl hq

/-- A process falls asleep. -/
theorem Step.sleep {chan : Chan} {pt : Parked} (hp : (m.table.proc p).state = .running)
    (htable : m'.table = m.table.sleep p chan)
    (hthread : m'.thread = Function.update m.thread p { m.thread p with parked := some pt })
    (hexits : m'.exits = m.exits) (hreaped : m'.reaped = m.reaped)
    (why : (pt = .sleep ∧ e = .proc c (.sleep chan) ∧ m.running c = some p) ∨
      (chan = .proc p ∧ (m.table.proc p).killed = false ∧
        ∀ z, (m.table.proc z).parent = some p → (m.table.proc z).state ≠ .zombie)) :
    Step m e m' := by
  have hr : Rest m m' := .parks hp hthread hexits
  have hself : m'.table.proc p = { m.table.proc p with chan := some chan, state := .sleeping } := by
    rw [htable, Ptable.sleep, Ptable.proc_set]
  have hother : ∀ q, q ≠ p → m'.table.proc q = m.table.proc q := by
    intro q hq
    rw [htable, Ptable.sleep, Ptable.proc_set_ne _ hq]
  refine ⟨.calm (fun q => ?_) (fun q => Or.inl (hr.doing q)) hexits hreaped (by rw [htable]; rfl),
    fun q hq => ?_, fun q hq => Or.inl ?_⟩
  · by_cases hqp : q = p
    · rw [hqp, hself]
      exact ⟨rfl, rfl, by rw [hp]; rfl, rfl, rfl⟩
    · rw [hother q hqp]
      exact (PEntry.Calm.refl _).toAlike
  · by_cases hqp : q = p
    · subst hqp
      rcases why with ⟨rfl, hevent, hrun⟩ | ⟨rfl, hk, hno⟩
      · exact .sleep c chan hevent hrun (by rw [hself]) (by rw [hthread, Function.update_self])
      · refine .wait (by rw [hself]) (by rw [hself]; exact hk) fun z hz => ?_
        by_cases hzq : z = q
        · rw [hzq, hself]
          exact fun h => by cases h
        · rw [hother z hzq] at hz ⊢
          exact hno z hz
    · rw [hother q hqp] at hq
      exact .still hq (by rw [hother q hqp]) (by rw [hother q hqp]) (hr.parked q hq)
  · by_cases hqp : q = p
    · rw [hqp, hself] at hq
      rw [hqp]
      exact hq
    · rwa [hother q hqp] at hq

theorem Ctl.zombie_off (h : Ctl m) {z : Pid} (away : (m.cpu c).sched = .away p)
    (hold : m.lock = none ∨ (m.thread p).parked ≠ none)
    (zombie : (m.table.proc z).state = .zombie) (c' : C) : (m.cpu c').proc ≠ some z := by
  intro hz
  rcases (h.proc c' z).1 hz with hz | hz
  · rw [(h.running z).2 ⟨c', hz⟩] at zombie
    cases zombie
  · -- its CPU would hold the lock, with the zombie just switched away from
    have hlock : m.lock = some c' := h.held c' (by simp [Holds, hz])
    rcases hold with hold | hold
    · rw [hold] at hlock
      cases hlock
    · have hlock' : m.lock = some c := h.held c (by simpa [Holds, away] using hold)
      rw [hlock'] at hlock
      cases hlock
      rw [away] at hz
      cases hz

/-- `fork` works on the slot that it took. -/
theorem sound_fork (hc : Ctl m) (hf : Fam m) {np : Pid} {pos : ForkPos} {x : PEntry} {d : Doing}
    {f : Pid → Thread} (c : C) (doing : (m.thread p).doing = .fork np pos)
    (hm : m' = { m with
      table := m.table.set np x
      thread := Function.update f p { m.thread p with doing := d } })
    (hthread : f = m.thread ∨ f = Function.update m.thread np ⟨some .forkret, .other⟩)
    (hpid : x.pid = (m.table.proc np).pid) (hk : x.killed = (m.table.proc np).killed)
    (new : NewSlot p np x d) : Ctl m' ∧ Step m e m' := by
  obtain ⟨halive, hemb, -⟩ := hf.fork p np pos doing
  have hother : ∀ q, q ≠ np → f q = m.thread q := by
    intro q hq
    rcases hthread with rfl | rfl
    · rfl
    · rw [Function.update_of_ne hq]
  have hslot : ∀ q, (q = np ∧ m'.table.proc q = x) ∨ (q ≠ np ∧ m'.table.proc q = m.table.proc q) := by
    rw [hm]
    exact Ptable.proc_set_cases x
  -- who has a CPU or is asleep is not the new slot
  have hparked : ∀ q, (m.table.proc q).state ≠ .embryo → (m'.thread q).parked = (m.thread q).parked := by
    intro q hq
    have hqn : q ≠ np := by
      rintro rfl
      exact hq hemb
    rw [hm]
    dsimp only
    by_cases hqp : q = p
    · rw [hqp, Function.update_self]
    · rw [Function.update_of_ne hqp, hother q hqn]
  refine ⟨hc.quiet (by rw [hm]) (by rw [hm]) (fun c' q hq => hparked q ?_) fun q => ?_,
    ⟨.fork c p np x d halive (by simp [doing]) (Or.inr hemb) (fun q pos' hq => hf.forkUniq q p np pos' pos hq doing)
      (by rw [hm]; rfl) new (Or.inl ⟨hemb, hpid, by rw [hm]; rfl⟩) (by rw [hm]; simp)
      (fun q hqp => ?_) (by rw [hm]) (by rw [hm]), fun q hq => ?_, fun q hq => Or.inl ?_⟩⟩
  · simp [(hc.running q).2 ⟨c', hq⟩]
  · rw [hm]
    exact Ptable.running_set (by simp [hemb, new.state]) q
  · rw [hm]
    dsimp only
    rw [Function.update_of_ne hqp]
    by_cases hqn : q = np
    · rcases hthread with rfl | rfl
      · exact Or.inl rfl
      · exact Or.inr ⟨hqn, by rw [hqn, Function.update_self]⟩
    · rw [hother q hqn]
      exact Or.inl rfl
  · rcases hslot q with ⟨-, h⟩ | ⟨-, h⟩ <;> rw [h] at hq
    · exact absurd hq new.state.1
    · exact .still hq (by rw [h]) (by rw [h]) (hparked q (by simp [hq]))
  · rcases hslot q with ⟨rfl, h⟩ | ⟨-, h⟩ <;> rw [h] at hq
    · rwa [← hk]
    · exact hq

theorem parked_doing (m : ProcSys C) (p : Pid) (x : Doing) (q : Pid) :
    (Function.update m.thread p { m.thread p with doing := x } q).parked = (m.thread q).parked := by
  by_cases hqp : q = p
  · rw [hqp, Function.update_self]
  · rw [Function.update_of_ne hqp]

theorem sound_forkAlloc (hc : Ctl m) (hf : Fam m) (away : (m.cpu c).sched = .away p)
    (doing : (m.thread p).doing = .other) {np : Pid} {t : Ptable}
    (halloc : m.table.allocproc = some (np, t)) :
    Ctl ({ m with table := t }.setThread p { m.thread p with doing := .fork np .slot }) ∧
      Step m (.proc c .forkAlloc)
        ({ m with table := t }.setThread p { m.thread p with doing := .fork np .slot }) := by
  obtain ⟨hunused, ht⟩ := Ptable.allocproc_some halloc
  have hp : (m.table.proc p).state = .running := (hc.running p).2 ⟨c, away⟩
  have hslot : ∀ q, (q = np ∧ t.proc q = { m.table.proc np with
      state := .embryo, pid := m.table.nextpid }) ∨ (q ≠ np ∧ t.proc q = m.table.proc q) := by
    rw [ht]
    exact Ptable.proc_set_cases _
  have hthread := parked_doing m p (.fork np .slot)
  refine ⟨hc.quiet rfl rfl (fun _ q _ => hthread q) fun q => ?_,
    ⟨.fork c p np _ _ (by simp [hp, ProcState.Alive]) (by simp [doing]) (Or.inl hunused)
      (fun q pos hq => ?_) (by rw [ht]; rfl) (.on .slot rfl (fun h => by cases h)) (Or.inr ⟨rfl, halloc⟩)
      (by simp [setThread]) (fun q hqp => Or.inl ?_) rfl rfl, fun q hq => ?_, fun q hq => Or.inl ?_⟩⟩
  · show (t.proc q).state = .running ↔ _
    rcases hslot q with ⟨rfl, h⟩ | ⟨-, h⟩ <;> rw [h]
    simp [hunused]
  · have := (hf.fork q np pos hq).2.1
    rw [hunused] at this
    cases this
  · show (Function.update m.thread p _ q).doing = _
    rw [Function.update_of_ne hqp]
  · change (t.proc q).state = .sleeping at hq
    rcases hslot q with ⟨-, h⟩ | ⟨-, h⟩ <;> rw [h] at hq
    · cases hq
    · refine .still hq ?_ ?_ (hthread q)
      · show (t.proc q).chan = _
        rw [h]
      · show (t.proc q).killed = _
        rw [h]
  · change (t.proc q).killed = true at hq
    rcases hslot q with ⟨rfl, h⟩ | ⟨-, h⟩ <;> rw [h] at hq <;> exact hq

theorem sound_kill (hc : Ctl m) (c : C) (pid : Word) :
    Ctl { m with table := (m.table.kill pid).2 } ∧
      Step m (.proc c (.kill pid)) { m with table := (m.table.kill pid).2 } := by
  obtain ⟨h, -⟩ | ⟨p, hp, h⟩ := m.table.kill_cases pid <;> rw [h]
  · exact ⟨hc, .table rfl (.same rfl rfl) rfl⟩
  · have hkind : (if (m.table.proc p).state = .sleeping then .runnable else (m.table.proc p).state : ProcState).kind =
        (m.table.proc p).state.kind ∧ ¬ (if (m.table.proc p).state = .sleeping then .runnable
        else (m.table.proc p).state : ProcState) = .sleeping ∧
        ((if (m.table.proc p).state = .sleeping then .runnable else (m.table.proc p).state : ProcState) =
          .running ↔ (m.table.proc p).state = .running) := by
      cases (m.table.proc p).state <;> decide
    exact ⟨hc.quiet rfl rfl (fun _ _ _ => rfl) (Ptable.running_set hkind.2.2),
      .set (p := p) rfl (PEntry.Alike.calm ⟨rfl, rfl, hkind.1, rfl, rfl⟩ hkind.2.1)
        (fun _ => Or.inr (Or.inr ⟨c, pid, rfl, hp⟩)) (.same rfl rfl) rfl⟩

variable [DecidableEq C]

theorem sound_scanStep (hc : Ctl m) {i : Nat} (scan : (m.cpu c).sched = .scan i)
    (h : m.scanStep c i = .ok () m') : Ctl m' ∧ Step m e m' := by
  have hlock : m.lock = some c := hc.held c (by simp [Holds, scan])
  have hnone : (m.cpu c).proc = none := hc.proc_none (by simp [scan])
  have hoff : ∀ p, (m.cpu c).sched ≠ .away p := by simp [scan]
  unfold scanStep at h
  split at h
  · next hi =>
    dsimp only at h
    split at h
    · cases h
      exact ⟨hc.scheduler c _ rfl rfl rfl (Or.inr hlock) hoff hnone (by simp) (Or.inr hlock),
        .table rfl (.same rfl rfl) rfl⟩
    · next hrun =>
      split_ifs at h
      cases h
      rw [not_not] at hrun
      refine ⟨hc.move c _ rfl (fun q => by simp) (Or.inr (Or.inr hlock)) (fun _ _ _ _ h' => h')
        (Or.inr hlock) (fun q => ?_) fun q hq => ?_, .set rfl (PEntry.Alike.calm
          ⟨rfl, rfl, by rw [hrun]; rfl, rfl, rfl⟩ (fun h => by cases h)) Or.inl (.same rfl rfl) rfl⟩
      · obtain ⟨rfl, hq⟩ | ⟨hne, hq⟩ := Ptable.proc_set_cases (t := m.table) (p := ⟨i, hi⟩)
          { m.table.proc ⟨i, hi⟩ with state := .running } q
        · simp
        · simp [hq, scan, Ne.symm hne]
      · cases hq
        exact Or.inr (by simp [hrun])
  · cases h
    exact ⟨hc.scheduler c _ rfl rfl rfl (Or.inr hlock) hoff hnone (by simp) (Or.inl rfl),
      .table rfl (.same rfl rfl) rfl⟩

theorem sound_waitLoop (hc : Ctl m) (away : (m.cpu c).sched = .away p)
    (hold : m.lock = none ∨ (m.thread p).parked ≠ none) (ch : Option Chan) (n : ProcSys C)
    (hn : n = { m with table := m.table.set p { m.table.proc p with chan := ch } }) :
    Ctl (n.waitLoop c p) ∧ Step m e (n.waitLoop c p) := by
  have hp : (m.table.proc p).state = .running := (hc.running p).2 ⟨c, away⟩
  have hcalm : (m.table.proc p).Calm { m.table.proc p with chan := ch } :=
    PEntry.Alike.calm ⟨rfl, rfl, rfl, rfl, rfl⟩ (by simp [hp])
  have hslot : ∀ q, q ≠ p → n.table.proc q = m.table.proc q := by
    intro q hq
    rw [hn]
    exact Ptable.proc_set_ne _ hq
  unfold waitLoop
  split
  · next z hz =>
    obtain ⟨hchild, hzombie⟩ := Ptable.waitScan_reap hz
    have hzp : z ≠ p := by
      rintro rfl
      rw [hn, Ptable.proc_set, hp] at hzombie
      cases hzombie
    rw [hslot z hzp] at hchild hzombie ⊢
    have hfree : (n.table.reap z).proc z = _ := Ptable.proc_set _
    have hother : ∀ q, q ≠ z → (m.table.proc q).Calm ((n.table.reap z).proc q) ∧
        ((n.table.reap z).proc q).killed = (m.table.proc q).killed := by
      intro q hq
      rw [Ptable.reap, Ptable.proc_set_ne _ hq, hn]
      obtain ⟨rfl, h⟩ | ⟨-, h⟩ := Ptable.proc_set_cases (t := m.table) (p := p)
        { m.table.proc p with chan := ch } q <;> rw [h]
      · exact ⟨hcalm, rfl⟩
      · exact ⟨.refl _, rfl⟩
    have hr : Rest m (n.release p) := .parks hp (by rw [hn]; rfl) (by rw [hn]; rfl)
    refine ⟨hc.release away hold (by rw [hn]; rfl) (by rw [hn]; rfl) fun q => ?_,
      ⟨.reap c p z ?_ hchild hzombie (hc.zombie_off away hold hzombie)
        (fun q hq => (hother q hq).1.toAlike) ?_ hr.doing hr.exits (by rw [hn]) (by rw [hn]; rfl),
      fun q hq => ?_, fun q hq => ?_⟩⟩
    · show ((n.table.reap z).proc q).state = .running ↔ _
      by_cases hqz : q = z
      · rw [hqz, hfree, hzombie]
        simp
      · rw [Ptable.reap, Ptable.proc_set_ne _ hqz, hn]
        exact Ptable.running_set (by rfl) q
    · have hproc := (hc.proc c p).2 (Or.inl away)
      cases hcpu : m.cpu c with
      | mk proc sched => simp_all
    · show ((n.table.reap z).proc z).state = _ ∧ _
      rw [hfree]
      exact ⟨rfl, rfl, rfl⟩
    · change ((n.table.reap z).proc q).state = .sleeping at hq
      have hqz : q ≠ z := by
        rintro rfl
        rw [hfree] at hq
        cases hq
      obtain ⟨hs, hchan, hkilled⟩ := (hother q hqz).1.asleep hq
      exact .still hs hchan hkilled (hr.parked q hs)
    · change ((n.table.reap z).proc q).killed = true at hq
      by_cases hqz : q = z
      · rw [hqz, hfree] at hq
        cases hq
      · rw [(hother q hqz).2] at hq
        exact Or.inl hq
  · subst hn
    exact ⟨hc.release away hold rfl rfl (Ptable.running_set Iff.rfl),
      .set rfl hcalm Or.inl (.parks hp rfl rfl) rfl⟩
  · next hscan =>
    obtain ⟨hk, hno⟩ := Ptable.waitScan_sleep hscan
    have hsleep : n.table.sleep p (.proc p) = m.table.sleep p (.proc p) := by
      rw [hn]
      simp [Ptable.sleep, Ptable.set]
    rw [hsleep]
    subst hn
    refine ⟨hc.sched away hold (by rfl) (by rfl) ?_ (fun q hq => ?_) .wait,
      .sleep (c := c) hp rfl rfl rfl rfl (Or.inr ⟨rfl, ?_, fun z hz hs => ?_⟩)⟩
    · show ((m.table.set p _).proc p).state ≠ .running
      rw [Ptable.proc_set]
      simp
    · show ((m.table.set p _).proc q).state = .running ↔ _
      rw [Ptable.proc_set_ne _ hq]
    · rwa [Ptable.proc_set] at hk
    · have hzp : z ≠ p := by
        rintro rfl
        rw [hp] at hs
        cases hs
      refine hno z ?_ ?_ <;> rw [hslot z hzp] <;> assumption

theorem sound_resumeStep (hc : Ctl m) (away : (m.cpu c).sched = .away p) {pt : Option Parked}
    (hpt : (m.thread p).parked = pt) (h : m.resumeStep c p pt = .ok () m') : Ctl m' ∧ Step m e m' := by
  have hp : (m.table.proc p).state = .running := (hc.running p).2 ⟨c, away⟩
  cases pt with
  | none => cases h
  | some pt =>
    have hold : m.lock = none ∨ (m.thread p).parked ≠ none := Or.inr (by simp [hpt])
    have hsame : Ctl (m.release p) ∧ Step m e (m.release p) :=
      ⟨hc.release away hold rfl rfl fun _ => Iff.rfl, .table rfl (.parks hp rfl rfl) rfl⟩
    cases pt with
    | forkret | yield =>
      cases h
      exact hsame
    | sleep =>
      cases h
      exact ⟨hc.release away hold rfl rfl (Ptable.running_set Iff.rfl),
        .set rfl (PEntry.Alike.calm ⟨rfl, rfl, rfl, rfl, rfl⟩ (by simp [hp])) Or.inl
          (.parks hp rfl rfl) rfl⟩
    | wait =>
      cases h
      exact sound_waitLoop hc away hold none _ rfl
    | exit => cases h

theorem sound_exitEnd (hc : Ctl m) (hf : Fam m) (hrun : m.running c = some p) (free : m.lock = none)
    (doing : (m.thread p).doing = .exit) (hm : m' = { m with
      table := m.table.exit initslot p
      exits := m.exits ++ [(m.table.proc p).pid] }.sched c p .exit) :
    Ctl m' ∧ Step m (.proc c .exitEnd) m' := by
  have away := (running_eq hrun).1
  have hp : (m.table.proc p).state = .running := (hc.running p).2 ⟨c, away⟩
  have hleft := Ptable.left_exit (hf.exit p doing).symm m.table
  have htable : m'.table = m.table.exit initslot p := by
    rw [hm]
    rfl
  have hthread : m'.thread = Function.update m.thread p { m.thread p with parked := some .exit } := by
    rw [hm]
    rfl
  refine ⟨?_, .exit c p rfl hrun hp doing htable (htable ▸ hleft) (fun q => ?_) (by rw [hm]; rfl) (by rw [hm]; rfl),
    fun q hq => ?_, fun q hq => Or.inl ?_⟩
  · rw [hm]
    refine hc.sched away (Or.inl free) (by rfl) (by rfl) (by simp [hleft.zombie]) (fun q hq => ?_) .exit
    rcases hleft.state q hq with hs | ⟨hs, hs'⟩
    · rw [hs]
    · rw [hs, hs']
      simp
  · rw [hthread]
    by_cases hqp : q = p
    · rw [hqp, Function.update_self]
    · rw [Function.update_of_ne hqp]
  · rw [htable] at hq
    have hqp : q ≠ p := by
      rintro rfl
      rw [hleft.zombie] at hq
      cases hq
    have hs : (m.table.proc q).state = .sleeping := by
      rcases hleft.state q hqp with hs | ⟨hs, -⟩
      · rwa [← hs]
      · exact hs
    refine .still hs ?_ ?_ (by rw [hthread, Function.update_of_ne hqp]) <;>
      rw [htable, hleft.rest q]
  · rwa [htable, hleft.rest q] at hq

theorem sound_procStep (hc : Ctl m) (hf : Fam m) {a : ProcAct} (hrun : m.running c = some p)
    (h : m.procStep c p a = .ok () m') : Ctl m' ∧ Step m (.proc c a) m' := by
  have away := (running_eq hrun).1
  have hp : (m.table.proc p).state = .running := (hc.running p).2 ⟨c, away⟩
  -- a process changes its own slot and stays RUNNING
  have hown : ∀ {e : ProcEvent C} {x : PEntry}, (m.table.proc p).Alike x → x.state = .running →
      (x.killed = true → (m.table.proc p).killed = true ∨ m.Hits e p) →
      Ctl { m with table := m.table.set p x } ∧ Step m e { m with table := m.table.set p x } := by
    intro e x hx hs hk
    exact ⟨hc.quiet rfl rfl (fun _ _ _ => rfl) (Ptable.running_set (by simp [hs, hp])),
      .set rfl (hx.calm (by simp [hs])) hk (.same rfl rfl) rfl⟩
  have hsched : ∀ {x : PEntry} (pt : Parked), x.state ≠ .running → m.lock = none →
      Ctl ({ m with table := m.table.set p x }.sched c p pt) := by
    intro x pt hx free
    refine hc.sched away (Or.inl free) (by rfl) (by rfl) ?_ (fun q hq => ?_) pt
    · show ((m.table.set p x).proc p).state ≠ .running
      rwa [Ptable.proc_set]
    · show ((m.table.set p x).proc q).state = .running ↔ _
      rw [Ptable.proc_set_ne _ hq]
  cases a <;> dsimp only [procStep] at h
  case yield =>
    split_ifs at h with free
    cases h
    exact ⟨hsched .yield (fun h => by cases h) free, .set rfl (PEntry.Alike.calm
      ⟨rfl, rfl, by rw [hp]; rfl, rfl, rfl⟩ (fun h => by cases h)) Or.inl (.parks hp rfl rfl) rfl⟩
  case sleep chan =>
    split_ifs at h with free
    cases h
    exact ⟨hsched .sleep (fun h => by cases h) free,
      .sleep hp rfl rfl rfl rfl (Or.inl ⟨rfl, rfl, hrun⟩)⟩
  case wait =>
    split_ifs at h with free
    cases h
    refine sound_waitLoop hc away (Or.inl free.1) (m.table.proc p).chan m ?_
    rw [show m.table.set p { m.table.proc p with chan := (m.table.proc p).chan } = m.table by
      simp [Ptable.set]]
  case forkAlloc =>
    split_ifs at h with free
    split at h
    · cases h
      exact ⟨hc, .table rfl (.same rfl rfl) rfl⟩
    · next np t hal =>
      cases h
      exact sound_forkAlloc hc hf away free.2 hal
  case forkStack page =>
    split at h
    · next np doing =>
      have hemb := (hf.fork p np _ doing).2.1
      split_ifs at h
      · cases h
        exact sound_fork hc hf c doing rfl (Or.inr rfl) rfl rfl (.on .stack hemb (fun h => by cases h))
      · cases h
        exact sound_fork hc hf c doing rfl (Or.inl rfl) rfl rfl (.failed rfl)
    · cases h
  case forkCopy copied =>
    split at h
    · next np doing =>
      have hemb := (hf.fork p np _ doing).2.1
      cases copied with
      | true =>
        cases h
        exact sound_fork hc hf c doing rfl (Or.inl rfl) rfl rfl (.on .ready hemb fun _ => rfl)
      | false =>
        cases h
        exact sound_fork hc hf c doing rfl (Or.inl rfl) rfl rfl (.failed rfl)
    · cases h
  case forkReady =>
    split at h
    · next np doing =>
      split_ifs at h
      cases h
      exact sound_fork hc hf c doing rfl (Or.inl rfl) rfl rfl
        (.child rfl ((hf.fork p np _ doing).2.2 rfl))
    · cases h
  case exitStart =>
    split_ifs at h with doing hinit free
    cases h
    have hr := parked_doing m p .exit
    refine ⟨hc.quiet rfl rfl (fun _ q _ => hr q) fun _ => Iff.rfl,
      .calm (fun q => (PEntry.Calm.refl _).toAlike) (fun q => ?_) rfl rfl rfl,
      fun q hq => .still hq rfl rfl (hr q), fun q hq => Or.inl hq⟩
    by_cases hqp : q = p
    · exact Or.inr ⟨hqp ▸ doing, by simp [setThread, hqp], hqp ▸ hinit⟩
    · exact Or.inl (by simp [setThread, hqp])
  case exitEnd =>
    split_ifs at h with free
    cases h
    exact sound_exitEnd hc hf hrun free.1 free.2 rfl
  case kill pid =>
    split_ifs at h
    cases h
    exact sound_kill hc c pid
  case fault =>
    cases h
    exact hown ⟨rfl, rfl, rfl, rfl, rfl⟩ hp fun _ => Or.inr (Or.inl ⟨c, rfl, hrun⟩)
  case image sz name =>
    cases h
    exact hown ⟨rfl, rfl, rfl, rfl, rfl⟩ hp Or.inl

theorem step_sound (hc : Ctl m) (hf : Fam m) (h : m.step e = .ok () m') : Ctl m' ∧ Step m e m' := by
  cases e <;> dsimp only [step] at h
  case acquire c =>
    split_ifs at h with hg
    cases h
    exact ⟨hc.scheduler c _ rfl rfl rfl (Or.inl hg.1) (by simp [hg.2]) (hc.proc_none (by simp [hg.2]))
      (by simp) (Or.inr rfl), .table rfl (.same rfl rfl) rfl⟩
  case scan c =>
    split at h
    · next i hi => exact sound_scanStep hc hi h
    · cases h
  case back c =>
    split at h <;> cases h
    next p hp =>
      have hlock : m.lock = some c := hc.held c (by simp [Holds, hp])
      exact ⟨hc.scheduler c _ rfl rfl rfl (Or.inr hlock) (by simp [hp]) rfl (by simp) (Or.inr hlock),
        .table rfl (.same rfl rfl) rfl⟩
  case resume c =>
    split at h
    · next p hp => exact sound_resumeStep hc hp rfl h
    · cases h
  case wakeup c chan =>
    split_ifs at h
    cases h
    have hwoken := Ptable.woken_wakeup1 (t := m.table) (some chan)
    refine ⟨hc.quiet rfl rfl (fun _ _ _ => rfl) fun q => ?_,
      .calm (fun q => PEntry.calm_of_woken (hwoken q)) (fun q hq => Or.inl ?_) rfl (.same rfl rfl) rfl⟩
    · show ((m.table.wakeup1 (some chan)).proc q).state = .running ↔ _
      rcases hwoken q with h | ⟨hs, h⟩ <;> rw [h]
      simp [hs]
    · change ((m.table.wakeup1 (some chan)).proc q).killed = true at hq
      rcases hwoken q with h | ⟨-, h⟩ <;> rw [h] at hq <;> exact hq
  case proc c a =>
    split at h
    · next p hp => exact sound_procStep hc hf hp h
    · cases h

end ProcSys

end Xv6
