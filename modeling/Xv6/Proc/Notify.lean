import Xv6.Proc.Reap

/-!
# No exit is missed

`exit` wakes the parent before the process is a zombie, and `wait` looks for zombies before it
sleeps.  Both hold `ptable.lock` from the one to the other, so that a process that sleeps in
`wait` has no zombie child (`Notified`).  Children of a process that exits go to the first
process, which is woken if one of them is a zombie.

The argument needs that nobody is its own parent: `exit` would pass such a process to the first
one before it is a zombie, and wake nobody.
-/

namespace Xv6

open Bytes Conc

namespace Ptable

variable {t : Ptable} {init me p q z : Pid}

theorem asleep_wakeup1 {c : Option Chan} (h : ((t.wakeup1 c).proc q).state = .sleeping) :
    (t.wakeup1 c).proc q = t.proc q ∧ (t.proc q).chan ≠ c := by
  unfold wakeup1 at h ⊢
  dsimp only at h ⊢
  split at h
  · cases h
  · next hn =>
    rw [if_neg hn]
    exact ⟨rfl, fun hc => hn ⟨h, hc⟩⟩

theorem Passed.asleep {x y : PEntry} (h : Passed init me x y) (hs : y.state = .sleeping) :
    x.state = .sleeping ∧ y.chan = x.chan := by
  refine ⟨?_, by rw [h.rest]⟩
  rcases h.state with hst | ⟨-, hst⟩
  · rwa [← hst]
  · rw [hst] at hs
    cases hs

theorem Passed.zombie {x y : PEntry} (h : Passed init me x y) :
    y.state = .zombie ↔ x.state = .zombie := by
  rcases h.state with hst | ⟨hx, hy⟩
  · rw [hst]
  · rw [hx, hy]
    simp

theorem parent_passChild_ne (hz : z ≠ p) :
    ((passChild init me t p).proc z).parent = (t.proc z).parent := by
  unfold passChild
  split
  · have hset : (t.set p { t.proc p with parent := some init }).proc z = t.proc z :=
      proc_set_ne _ hz
    dsimp only
    split
    · rcases woken_wakeup1 (t := t.set p { t.proc p with parent := some init })
        (some (.proc init)) z with h | ⟨-, h⟩ <;> rw [h, hset]
    · rw [hset]
  · rfl

theorem asleep_passChild (hz : (t.proc z).parent = some me) (hzombie : (t.proc z).state = .zombie)
    (h : ((passChild init me t z).proc q).state = .sleeping) :
    ((passChild init me t z).proc q).chan ≠ some (.proc init) := by
  have hst : ((t.set z { t.proc z with parent := some init }).proc z).state = .zombie := by
    rw [proc_set]
    exact hzombie
  unfold passChild at h ⊢
  rw [if_pos hz] at h ⊢
  dsimp only at h ⊢
  rw [if_pos hst] at h ⊢
  obtain ⟨hq, hc⟩ := asleep_wakeup1 h
  rwa [hq]

/-- The same over the loop: with a zombie among the children, nobody is left asleep in the `wait` of
the first process. -/
theorem asleep_foldl (hne : init ≠ me) (l : List Pid) (t : Ptable) (hl : z ∈ l)
    (hz : (t.proc z).parent = some me) (hzombie : (t.proc z).state = .zombie)
    (h : ((l.foldl (passChild init me) t).proc q).state = .sleeping) :
    ((l.foldl (passChild init me) t).proc q).chan ≠ some (.proc init) := by
  induction l generalizing t with
  | nil => exact absurd hl List.not_mem_nil
  | cons p l ih =>
    rw [List.foldl_cons] at h ⊢
    by_cases hp : z = p
    · subst hp
      obtain ⟨hs, hc⟩ := (passed_foldl hne l (passChild init me t z) q).1.asleep h
      rw [hc]
      exact asleep_passChild hz hzombie hs
    · refine ih _ ((List.mem_cons.1 hl).resolve_left hp) ?_ ?_ h
      · rw [parent_passChild_ne hp]
        exact hz
      · exact (passed_passChild init me p z t).zombie.2 hzombie

/-- Whoever is asleep after `exit` waits neither for the process nor, as the first process, for a
zombie that was passed to it. -/
theorem asleep_exit (hne : init ≠ me) (h : ((t.exit init me).proc q).state = .sleeping) :
    (t.proc q).chan ≠ (t.proc me).parent.map .proc ∧
      ∀ z, (t.proc z).parent = some me → (t.proc z).state = .zombie →
        (t.proc q).chan ≠ some (.proc init) := by
  obtain ⟨w, hw⟩ : ∃ w, w = t.wakeup1 ((t.proc me).parent.map .proc) := ⟨_, rfl⟩
  obtain ⟨u, hu⟩ : ∃ u, u = (List.finRange NPROC).foldl (passChild init me) w := ⟨_, rfl⟩
  have hexit : t.exit init me = u.set me { u.proc me with state := .zombie } := by
    rw [hu, hw]
    rfl
  have hq : q ≠ me := by
    rintro rfl
    rw [hexit, proc_set] at h
    cases h
  rw [hexit, proc_set_ne _ hq] at h
  obtain ⟨hs, hc⟩ := (passed_foldl hne (List.finRange NPROC) w q).1.asleep (by rwa [← hu])
  rw [← hu] at hc
  have hwq : w.proc q = t.proc q ∧ (t.proc q).chan ≠ (t.proc me).parent.map .proc := by
    rw [hw] at hs ⊢
    exact asleep_wakeup1 hs
  rw [hwq.1] at hc
  refine ⟨hwq.2, fun z hz hzombie => ?_⟩
  rw [← hc, hu]
  have hwz : Passed init me (t.proc z) (w.proc z) := by
    rw [hw]
    exact (woken_wakeup1 _ z).passed
  refine asleep_foldl hne _ w (List.mem_finRange z) ?_ (hwz.zombie.2 hzombie) (by rwa [← hu])
  rw [hw]
  rcases woken_wakeup1 (t := t) ((t.proc me).parent.map .proc) z with hwk | ⟨-, hwk⟩ <;> rw [hwk] <;>
    exact hz

end Ptable

namespace ProcSys

variable {C : Type} {m m' : ProcSys C} {e : ProcEvent C}

/-! ## Nobody is its own parent -/

/-- The first process has no parent, and no process is its own. -/
structure Rooted (m : ProcSys C) : Prop where
  init : (m.table.proc initslot).parent = none
  ne : ∀ p, (m.table.proc p).state.Used → (m.table.proc p).parent ≠ some p

theorem Rooted.step (h : Rooted m) (hf : Fam m) (hst : Step m e m') : Rooted m' := by
  cases hst.change with
  | calm slots doing exits reaped next =>
    refine ⟨(slots _).parent.trans h.init, fun p hu => ?_⟩
    rw [(slots p).parent]
    exact h.ne p ((slots p).used.1 hu)
  | fork c p np x d alive doing vacant only proc new slot self others exits reaped =>
    have hne : ∀ q, (m.table.proc q).state.Alive → q ≠ np := by
      rintro q ha rfl
      exact ProcState.vacant_iff.1 vacant (Or.inl ha)
    refine ⟨?_, fun q => ?_⟩
    · rw [proc, Function.update_of_ne (hne _ hf.init)]
      exact h.init
    · rw [proc]
      by_cases hq : q = np
      · rw [hq, Function.update_self]
        intro hu
        cases new with
        | on pos embryo parent => exact absurd hu (by rw [embryo]; decide)
        | failed unused => exact absurd hu (by rw [unused]; decide)
        | child runnable parent =>
          rw [parent]
          exact fun hp => hne p alive (Option.some.inj hp)
      · rw [Function.update_of_ne hq]
        exact h.ne q
  | reap c p z cpu child zombie off slots free doing exits reaped next =>
    have hz : initslot ≠ z := by
      rintro rfl
      rw [h.init] at child
      cases child
    refine ⟨(slots _ hz).parent.trans h.init, fun q hu => ?_⟩
    by_cases hq : q = z
    · rw [hq, free.2.1]
      exact fun h => by cases h
    · rw [(slots q hq).parent]
      exact h.ne q ((slots q hq).used.1 hu)
  | exit c p event running state doing table left others exits reaped =>
    have hused : ∀ q, (m'.table.proc q).state.Used → (m.table.proc q).state.Used := by
      intro q hu
      by_cases hq : q = p
      · rw [hq, state]
        decide
      · rcases left.state q hq with hs | ⟨hs, -⟩
        · rwa [hs] at hu
        · rw [hs]
          decide
    refine ⟨?_, fun q hu hself => ?_⟩
    · rcases left.parent initslot with hp | ⟨hp, -⟩
      · exact hp.trans h.init
      · rw [h.init] at hp
        cases hp
    · rcases left.parent q with hp | ⟨hp, hp'⟩
      · exact h.ne q (hused q hu) (hp.symm.trans hself)
      · -- a child of the process is not the first process
        have hq : q = initslot := Option.some.inj (hself.symm.trans hp')
        rw [hq, h.init] at hp
        cases hp

/-! ## Whoever sleeps in `wait` has no zombie child -/

def Notified (m : ProcSys C) : Prop :=
  ∀ p, (m.table.proc p).state = .sleeping → (m.thread p).parked = some .wait →
    (m.table.proc p).chan = some (.proc p) ∧
      ∀ z, (m.table.proc z).parent = some p → (m.table.proc z).state ≠ .zombie

/-- A process that stays asleep in `wait` while `me` exits has none of the new zombies for a child. -/
theorem Notified.exit (h : Notified m) {me q z : Pid} (hne : initslot ≠ me)
    (hself : (m.table.proc me).parent ≠ some me) (table : m'.table = m.table.exit initslot me)
    (left : Ptable.Left initslot me m.table m'.table) (hq : (m'.table.proc q).state = .sleeping)
    (hs : (m.table.proc q).state = .sleeping) (hp : (m.thread q).parked = some .wait)
    (hpar : (m'.table.proc z).parent = some q) : (m'.table.proc z).state ≠ .zombie := by
  intro hz
  obtain ⟨hchan, hno⟩ := h q hs hp
  rw [table] at hq
  obtain ⟨hparent, hinit⟩ := Ptable.asleep_exit hne hq
  rw [hchan] at hparent hinit
  by_cases hzm : z = me
  · -- the process itself: its parent was woken
    subst hzm
    rcases left.parent z with hp' | ⟨hp', -⟩
    · rw [← hp', hpar] at hparent
      exact hparent rfl
    · exact hself hp'
  · have hzombie : (m.table.proc z).state = .zombie := by
      rcases left.state z hzm with h' | ⟨-, h'⟩
      · rwa [← h']
      · rw [h'] at hz
        cases hz
    rcases left.parent z with hp' | ⟨hp', hpi⟩
    · exact hno z (hp'.symm.trans hpar) hzombie
    · -- a zombie passed to the first process, which was woken
      obtain rfl : q = initslot := Option.some.inj (hpar.symm.trans hpi)
      exact hinit z hp' hzombie rfl

theorem Notified.step (h : Notified m) (hf : Fam m) (hr : Rooted m) (hst : Step m e m') :
    Notified m' := by
  intro p hs hp
  cases hst.asleep p hs with
  | sleep c chan event running chan' parked =>
    rw [parked] at hp
    cases hp
  | wait chan killed children => exact ⟨chan, children⟩
  | still before chan killed parked =>
    rw [parked] at hp
    obtain ⟨hchan, hno⟩ := h p before hp
    refine ⟨chan.trans hchan, fun z hpar hz => ?_⟩
    cases hst.change with
    | calm slots doing exits reaped next =>
      exact hno z ((slots z).parent ▸ hpar) (((slots z).is .zombie (by decide)).1 hz)
    | fork c p' np x d alive doing vacant only proc new slot self others exits reaped =>
      rw [proc] at hpar hz
      have hne : z ≠ np := by
        rintro rfl
        rw [Function.update_self] at hz
        exact new.state.2.2 hz
      rw [Function.update_of_ne hne] at hpar hz
      exact hno z hpar hz
    | reap c p' z' cpu child zombie off slots free doing exits reaped next =>
      have hne : z ≠ z' := by
        rintro rfl
        rw [free.1] at hz
        cases hz
      exact hno z ((slots z hne).parent ▸ hpar) (((slots z hne).is .zombie (by decide)).1 hz)
    | exit c me event running state doing table left others exits reaped =>
      refine h.exit (hf.exit me doing).symm (hr.ne me ?_) table left hs before hp hpar hz
      rw [state]
      decide

variable [DecidableEq C]

/-- No exit notification is lost: in every reachable state, whether `ptable.lock` is free or not, a
process that sleeps in `wait` sleeps on its own slot and none of its children is a zombie, those
passed to the first process included. -/
theorem no_zombie_while_waiting (h : Reaches (ProcSys.step (C := C)) anyEvent boot m) (p : Pid)
    (hs : (m.table.proc p).state = .sleeping)
    (hwait : (m.thread p).parked = some .wait) :
    (m.table.proc p).chan = some (.proc p) ∧
      ∀ z, (m.table.proc z).parent = some p → (m.table.proc z).state ≠ .zombie := by
  have hinv : Ctl m ∧ Fam m ∧ Rooted m ∧ Notified m := by
    refine h.inv (I := fun m => Ctl m ∧ Fam m ∧ Rooted m ∧ Notified m) ?_ ?_
    · have hparent : ∀ p, (Ptable.userinit.proc p).parent = none := by decide
      have hawake : ∀ p, (Ptable.userinit.proc p).state ≠ .sleeping := by decide
      refine ⟨boot_inv.1, boot_inv.2.1, ⟨hparent _, fun p _ => ?_⟩, fun p hp => absurd hp (hawake p)⟩
      rw [show (boot : ProcSys C).table.proc p = Ptable.userinit.proc p from rfl, hparent]
      exact nofun
    · rintro s e s' ⟨hc, hf, hr, hn⟩ - hst
      obtain ⟨hc', hst⟩ := step_sound hc hf hst
      exact ⟨hc', hf.step hst, hr.step hf hst, hn.step hf hr hst⟩
  exact hinv.2.2.2 p hs hwait

/-- The first process forks and sleeps in `wait`; it sleeps on its own slot and its child is none of
the zombies. -/
theorem no_zombie_while_waiting_init : ∃ m : ProcSys Unit, Reaches ProcSys.step anyEvent boot m ∧
    m.lock = none ∧ (m.table.proc 0).chan = some (.proc 0) ∧ (m.table.proc 1).parent = some 0 ∧
    (m.table.proc 1).state ≠ .zombie := by
  have h : ((exec ProcSys.step boot (childExits.take 11)).bind fun _ m =>
      (.ok (decide (m.lock = none ∧ (m.table.proc 0).state = .sleeping ∧
        (m.thread 0).parked = some .wait ∧ (m.table.proc 1).parent = some 0)) () :
        Res SchedPanic Bool Unit)) = .ok true () := by
    decide +kernel
  obtain ⟨_, m, hm, ht⟩ := Res.bind_eq_ok.1 h
  have hd : decide (m.lock = none ∧ (m.table.proc 0).state = .sleeping ∧
      (m.thread 0).parked = some .wait ∧ (m.table.proc 1).parent = some 0) = true := by
    simpa using ht
  obtain ⟨hlock, hs, hwait, hparent⟩ := of_decide_eq_true hd
  obtain ⟨hchan, hno⟩ := no_zombie_while_waiting (reaches_exec hm) 0 hs hwait
  exact ⟨m, reaches_exec hm, hlock, hchan, hparent, hno 1 hparent⟩

end ProcSys

end Xv6
