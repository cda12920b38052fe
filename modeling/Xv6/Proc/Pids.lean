import Xv6.Proc.Reap

/-!
# Process ids

`allocproc` hands out `nextpid++`, an `int`.  As long as the counter is positive the ids in
the table are below it and distinct (`PidsOk`).  After 2^31 - 1 ids it is negative, and after
2^32 the ids of processes that are still there come round again: a `fork` that fails for lack
of memory uses up an id too, so the first process alone can get there.
-/

namespace Xv6

open Bytes Conc

/-- The ids in use were handed out, and each once. -/
structure Ptable.PidsOk (t : Ptable) : Prop where
  next : 0 < t.nextpid.toNat ∧ t.nextpid.toNat ≤ 2 ^ 31
  below : ∀ p, (t.proc p).state ≠ .unused →
    0 < (t.proc p).pid.toNat ∧ (t.proc p).pid.toNat < t.nextpid.toNat
  inj : ∀ p q, (t.proc p).state ≠ .unused → (t.proc q).state ≠ .unused →
    (t.proc p).pid = (t.proc q).pid → p = q

theorem Ptable.allocproc_slot {t t' : Ptable} {np : Pid} (h : t.allocproc = some (np, t')) (q : Pid) :
    (q = np ∧ (t'.proc q).pid = t.nextpid) ∨ (q ≠ np ∧ t'.proc q = t.proc q) := by
  obtain ⟨-, rfl⟩ := allocproc_some h
  refine (proc_set_cases (t := t) (p := np) _ q).imp (fun hq => ⟨hq.1, ?_⟩) id
  rw [hq.1]
  exact congrArg PEntry.pid (proc_set _)

namespace Ptable.PidsOk

variable {t t' : Ptable}

/-- No id is handed out. -/
theorem keep (h : t.PidsOk) (hnext : t'.nextpid = t.nextpid)
    (hused : ∀ q, (t'.proc q).state ≠ .unused →
      (t.proc q).state ≠ .unused ∧ (t'.proc q).pid = (t.proc q).pid) : t'.PidsOk := by
  refine ⟨hnext ▸ h.next, fun p hp => ?_, fun p q hp hq he => ?_⟩
  · obtain ⟨hu, hpid⟩ := hused p hp
    rw [hpid, hnext]
    exact h.below p hu
  · obtain ⟨hu, hpid⟩ := hused p hp
    obtain ⟨hu', hpid'⟩ := hused q hq
    exact h.inj p q hu hu' (by rw [← hpid, ← hpid', he])

theorem next_alloc (h : t.PidsOk) {np : Pid} (halloc : t.allocproc = some (np, t'))
    (hpos : 0 < t.nextpid.toInt) :
    t.nextpid.toNat < 2 ^ 31 ∧ t'.nextpid.toNat = t.nextpid.toNat + 1 := by
  have h0 := h.next
  have hlt : t.nextpid.toNat < 2 ^ 31 := by
    rw [BitVec.toInt_eq_toNat_cond] at hpos
    split at hpos <;> omega
  refine ⟨hlt, ?_⟩
  obtain ⟨-, rfl⟩ := allocproc_some halloc
  show (t.nextpid + 1).toNat = _
  rw [BitVec.toNat_add]
  exact Nat.mod_eq_of_lt (by simp; omega)

theorem alloc (h : t.PidsOk) {np : Pid} (halloc : t.allocproc = some (np, t'))
    (hpos : 0 < t.nextpid.toInt) : t'.PidsOk := by
  obtain ⟨h0, -⟩ := h.next
  obtain ⟨hlt, hnext⟩ := h.next_alloc halloc hpos
  have hslot := allocproc_slot halloc
  refine ⟨by rw [hnext]; omega, fun p hp => ?_, fun p q hp hq he => ?_⟩
  · rw [hnext]
    rcases hslot p with ⟨-, hpid⟩ | ⟨-, hpid⟩
    · rw [hpid]
      omega
    · rw [hpid] at hp ⊢
      have := h.below p hp
      omega
  · -- the new id is above all others
    rcases hslot p with ⟨rfl, hpid⟩ | ⟨-, hpid⟩ <;> rcases hslot q with ⟨rfl, hqid⟩ | ⟨-, hqid⟩
    · rfl
    · rw [hpid, hqid] at he
      rw [hqid] at hq
      have := (h.below q hq).2
      rw [he] at this
      omega
    · rw [hpid, hqid] at he
      rw [hpid] at hp
      have := (h.below p hp).2
      rw [he] at this
      omega
    · rw [hpid] at hp he
      rw [hqid] at hq he
      exact h.inj p q hp hq he

end Ptable.PidsOk

namespace ProcSys

variable {C : Type} {m m' : ProcSys C} {e : ProcEvent C}

/-- A process id is handed out only while the counter is positive as an `int`. -/
def PidsLeft (m : ProcSys C) (e : ProcEvent C) : Prop :=
  ∀ c, e = .proc c .forkAlloc → 0 < m.table.nextpid.toInt

/-- A step that hands out no id keeps the counter, and the slots in use keep theirs. -/
theorem Change.ids (h : Change m e m') :
    (m'.table.nextpid = m.table.nextpid ∧ ∀ q, (m'.table.proc q).state ≠ .unused →
      (m.table.proc q).state ≠ .unused ∧ (m'.table.proc q).pid = (m.table.proc q).pid) ∨
    ∃ c np, e = .proc c .forkAlloc ∧ m.table.allocproc = some (np, m'.table) := by
  cases h with
  | calm slots doing exits reaped next =>
    exact Or.inl ⟨next, fun q hq => ⟨mt ((slots q).is .unused (by decide)).2 hq, (slots q).pid⟩⟩
  | fork c p np x d alive doing vacant only proc new slot self others exits reaped =>
    rcases slot with ⟨hemb, hpid, hnext⟩ | hslot
    · refine Or.inl ⟨hnext, fun q hq => ?_⟩
      rw [proc] at hq ⊢
      by_cases hqn : q = np
      · rw [hqn, Function.update_self, hpid]
        exact ⟨by simp [hemb], rfl⟩
      · rw [Function.update_of_ne hqn] at hq ⊢
        exact ⟨hq, rfl⟩
    · exact Or.inr ⟨c, np, hslot⟩
  | reap c p z cpu child zombie off slots free doing exits reaped next =>
    refine Or.inl ⟨next, fun q hq => ?_⟩
    have hqz : q ≠ z := by
      rintro rfl
      exact hq free.1
    exact ⟨mt ((slots q hqz).is .unused (by decide)).2 hq, (slots q hqz).pid⟩
  | exit c p event running state doing table left others exits reaped =>
    refine Or.inl ⟨left.next, fun q hq => ⟨fun hu => ?_, by rw [left.rest q]⟩⟩
    have hqp : q ≠ p := by
      rintro rfl
      rw [state] at hu
      cases hu
    rcases left.state q hqp with hs | ⟨hs, -⟩
    · exact hq (hs.trans hu)
    · rw [hu] at hs
      cases hs

theorem pidsOk_step (h : m.table.PidsOk) (hleft : PidsLeft m e) (hst : Step m e m') :
    m'.table.PidsOk := by
  rcases hst.change.ids with ⟨hnext, hused⟩ | ⟨c, np, he, halloc⟩
  · exact h.keep hnext hused
  · exact h.alloc halloc (hleft c he)

theorem pids_boot : (boot : ProcSys C).table.PidsOk := by
  have hstart : Ptable.userinit.nextpid = 2 ∧ ∀ p, (Ptable.userinit.proc p).state ≠ .unused →
      p = 0 ∧ (Ptable.userinit.proc p).pid = 1 := by decide
  refine ⟨?_, fun p hp => ?_, fun p q hp hq _ => ?_⟩
  · rw [show (boot : ProcSys C).table.nextpid = 2 from hstart.1]
    decide
  · rw [show (boot : ProcSys C).table.nextpid = 2 from hstart.1,
      show ((boot : ProcSys C).table.proc p).pid = 1 from (hstart.2 p hp).2]
    decide
  · rw [(hstart.2 p hp).1, (hstart.2 q hq).1]

/-! ## Processes that exit -/

/-- The process in slot `q` has begun to `exit`. -/
def Exiting (m : ProcSys C) (q : Pid) : Prop :=
  (m.thread q).doing = .exit ∧ (m.table.proc q).state ≠ .embryo

/-- It does not come back from there while it has its slot. -/
theorem Change.exiting (h : Change m e m') {q : Pid} (hq : m.Exiting q)
    (hused : (m.table.proc q).state ≠ .unused) : m'.Exiting q := by
  obtain ⟨hd, hs⟩ := hq
  cases h with
  | calm slots doing exits reaped next =>
    refine ⟨?_, mt ((slots q).is .embryo (by decide)).1 hs⟩
    rcases doing q with h | ⟨-, h, -⟩
    · rwa [h]
    · exact h
  | fork c p np x d alive doing vacant only proc new slot self others exits reaped =>
    have hqp : q ≠ p := by
      rintro rfl
      exact doing hd
    have hqn : q ≠ np := by
      rintro rfl
      exact vacant.elim hused hs
    refine ⟨?_, by rwa [proc, Function.update_of_ne hqn]⟩
    rcases others q hqp with h | ⟨h, -⟩
    · rwa [h]
    · exact absurd h hqn
  | reap c p z cpu child zombie off slots free doing exits reaped next =>
    refine ⟨(doing q).trans hd, ?_⟩
    by_cases hqz : q = z
    · simp [hqz, free.1]
    · exact mt ((slots q hqz).is .embryo (by decide)).1 hs
  | exit c p event running state doing table left others exits reaped =>
    refine ⟨(others q).trans hd, ?_⟩
    by_cases hqp : q = p
    · simp [hqp, left.zombie]
    · rcases left.state q hqp with h | ⟨-, h⟩
      · rwa [h]
      · simp [h]

/-- The id `w` was handed out, and who still has it has begun to `exit`. -/
def Spent (m : ProcSys C) (w : Word) : Prop :=
  w.toNat < m.table.nextpid.toNat ∧
    ∀ q, (m.table.proc q).state ≠ .unused → (m.table.proc q).pid = w → m.Exiting q

theorem Spent.step {w : Word} (h : m.Spent w) (hok : m.table.PidsOk) (hleft : PidsLeft m e)
    (hst : Step m e m') : m'.Spent w := by
  have hkeep : ∀ q, (m.table.proc q).state ≠ .unused → (m.table.proc q).pid = w → m'.Exiting q :=
    fun q hused hpid => hst.change.exiting (h.2 q hused hpid) hused
  rcases hst.change.ids with ⟨hnext, hused⟩ | ⟨c, np, he, halloc⟩
  · refine ⟨by rw [hnext]; exact h.1, fun q hq hpid => ?_⟩
    obtain ⟨hu, hsame⟩ := hused q hq
    exact hkeep q hu (hsame ▸ hpid)
  · -- the new id is above `w`
    have hnext := (hok.next_alloc halloc (hleft c he)).2
    refine ⟨Nat.lt_trans h.1 (by omega), fun q hq hpid => ?_⟩
    rcases Ptable.allocproc_slot halloc q with ⟨-, hslot⟩ | ⟨-, hslot⟩
    · rw [hslot] at hpid
      exact absurd h.1 (by rw [← hpid]; exact Nat.lt_irrefl _)
    · rw [hslot] at hq hpid
      exact hkeep q hq hpid

/-! ## Distinct ids -/

variable [DecidableEq C]

/-- In a run that hands out process ids only while the counter is positive, the ids of all slots in
use are positive and distinct. -/
theorem pids_distinct (h : Reaches (ProcSys.step (C := C)) PidsLeft boot m) :
    (∀ p, (m.table.proc p).state ≠ .unused → 0 < (m.table.proc p).pid.toInt) ∧
    ∀ p q, (m.table.proc p).state ≠ .unused → (m.table.proc q).state ≠ .unused →
      (m.table.proc p).pid = (m.table.proc q).pid → p = q := by
  have hinv : Ctl m ∧ Fam m ∧ m.table.PidsOk := by
    refine h.inv (I := fun m => Ctl m ∧ Fam m ∧ m.table.PidsOk)
      ⟨boot_inv.1, boot_inv.2.1, pids_boot⟩ ?_
    rintro s e s' ⟨hc, hf, hp⟩ hleft hst
    obtain ⟨hc', hst⟩ := step_sound hc hf hst
    exact ⟨hc', hf.step hst, pidsOk_step hp hleft hst⟩
  obtain ⟨-, -, hok⟩ := hinv
  refine ⟨fun p hp => ?_, hok.inj⟩
  have := hok.below p hp
  have := hok.next
  rw [BitVec.toInt_eq_toNat_cond]
  split <;> omega

/-- The first process may fork, and its child gets another id. -/
theorem pids_distinct_child : ∃ m : ProcSys Unit, Reaches ProcSys.step PidsLeft boot m ∧
    (m.table.proc 1).state = .embryo ∧ 0 < (m.table.proc 1).pid.toInt ∧
    (m.table.proc 0).pid ≠ (m.table.proc 1).pid := by
  obtain ⟨m, hrun, hinit, hchild⟩ : ∃ m : ProcSys Unit, Reaches ProcSys.step PidsLeft boot m ∧
      (m.table.proc 0).state = .running ∧ (m.table.proc 1).state = .embryo :=
    ⟨_, .tail (.tail (.tail (.tail .refl ⟨.acquire (), nofun, rfl⟩) ⟨.scan (), nofun, rfl⟩)
      ⟨.resume (), nofun, rfl⟩) ⟨.proc () .forkAlloc, fun _ _ => by decide, rfl⟩, rfl, rfl⟩
  obtain ⟨hpos, hinj⟩ := pids_distinct hrun
  refine ⟨m, hrun, hchild, hpos 1 (by simp [hchild]), fun he => ?_⟩
  exact absurd (hinj 0 1 (by simp [hinit]) (by simp [hchild]) he) (by decide)

/-! ## When the counter comes round -/

/-- The first process runs on the only CPU, the next slot is free and the counter is `w`. -/
structure Alone (w : Word) (m : ProcSys Unit) : Prop where
  lock : m.lock = none
  cpu : (m.cpu ()).sched = .away 0
  thread : m.thread 0 = ⟨none, .other⟩
  init : (m.table.proc 0).state = .running ∧ (m.table.proc 0).pid = 1
  free : (m.table.proc 1).state = .unused
  next : m.table.nextpid = w

namespace Alone

variable {w : Word} {m : ProcSys Unit}

theorem alloc (h : Alone w m) : m.table.allocproc = some (1,
    { m.table.set 1 { m.table.proc 1 with state := .embryo, pid := w } with nextpid := w + 1 }) := by
  have hslots : List.finRange NPROC = 0 :: 1 :: (List.finRange NPROC).drop 2 := by decide
  unfold Ptable.allocproc
  rw [hslots, List.find?_cons_of_neg (by simp [h.init.1]), List.find?_cons_of_pos (by simp [h.free]),
    h.next]
  rfl

theorem running_of {m : ProcSys Unit} {d : Doing} (hcpu : (m.cpu ()).sched = .away 0)
    (hthread : m.thread 0 = ⟨none, d⟩) : m.running () = some 0 := by
  unfold running
  rw [hcpu]
  simp [hthread]

theorem fork (h : Alone w m) : m.step (.proc () .forkAlloc) = .ok ()
    ({ m with table := { m.table.set 1 { m.table.proc 1 with state := .embryo, pid := w } with
        nextpid := w + 1 } }.setThread 0 ⟨none, .fork 1 .slot⟩) := by
  simp [step, running_of h.cpu h.thread, procStep, h.lock, h.thread, h.alloc]

/-- A `fork` that gets no memory for the kernel stack uses up a process id. -/
theorem forkFail (h : Alone w m) : ∃ m', Reaches ProcSys.step anyEvent m m' ∧ Alone (w + 1) m' := by
  obtain ⟨m₁, hm₁⟩ : ∃ m₁, m₁ = { m with table := { m.table.set 1 { m.table.proc 1 with
      state := .embryo, pid := w } with nextpid := w + 1 } }.setThread 0 ⟨none, .fork 1 .slot⟩ :=
    ⟨_, rfl⟩
  have hthread : m₁.thread 0 = ⟨none, .fork 1 .slot⟩ := by
    rw [hm₁]
    simp [setThread]
  have hcpu : (m₁.cpu ()).sched = .away 0 := by
    rw [hm₁]
    exact h.cpu
  have hinit : m₁.table.proc 0 = m.table.proc 0 := by
    rw [hm₁]
    simp [setThread, Ptable.set]
  have hfail : m₁.step (.proc () (.forkStack false)) = .ok ()
      ({ m₁ with table := m₁.table.allocStack 1 false }.setThread 0 ⟨none, .other⟩) := by
    simp [step, running_of hcpu hthread, procStep, hthread]
  have hfork := h.fork
  rw [← hm₁] at hfork
  refine ⟨_, .tail (.single ⟨_, trivial, hfork⟩) ⟨_, trivial, hfail⟩, ?_, hcpu, ?_, ?_, ?_, ?_⟩
  · rw [hm₁]
    exact h.lock
  · simp [setThread]
  · show ((m₁.table.allocStack 1 false).proc 0).state = .running ∧
      ((m₁.table.allocStack 1 false).proc 0).pid = 1
    rw [Ptable.allocStack, if_neg (by decide), Ptable.proc_set_ne _ (by decide), hinit]
    exact h.init
  · show ((m₁.table.allocStack 1 false).proc 1).state = .unused
    rw [Ptable.allocStack, if_neg (by decide), Ptable.proc_set]
  · show (m₁.table.allocStack 1 false).nextpid = w + 1
    rw [Ptable.allocStack, if_neg (by decide), hm₁]
    rfl

theorem reaches (h : Alone w m) (n : Nat) :
    ∃ m', Reaches ProcSys.step anyEvent m m' ∧ Alone (w + BitVec.ofNat 32 n) m' := by
  induction n with
  | zero => exact ⟨m, .refl, by simpa using h⟩
  | succ n ih =>
    obtain ⟨m₁, hr, h₁⟩ := ih
    obtain ⟨m₂, hr', h₂⟩ := h₁.forkFail
    refine ⟨m₂, hr.trans hr', ?_⟩
    have hnext : w + BitVec.ofNat 32 (n + 1) = w + BitVec.ofNat 32 n + 1 := by
      rw [BitVec.ofNat_add, BitVec.add_assoc]
      rfl
    rwa [hnext]

end Alone

/-- The first process can bring the counter to any value. -/
theorem alone_reachable (w : Word) :
    ∃ m : ProcSys Unit, Reaches ProcSys.step anyEvent boot m ∧ Alone w m := by
  obtain ⟨m₀, hrun, halone⟩ : ∃ m : ProcSys Unit, Reaches ProcSys.step anyEvent boot m ∧ Alone 2 m :=
    ⟨_, .tail (.tail (.tail .refl ⟨.acquire (), trivial, rfl⟩) ⟨.scan (), trivial, rfl⟩)
      ⟨.resume (), trivial, rfl⟩, ⟨rfl, rfl, rfl, ⟨rfl, rfl⟩, rfl, rfl⟩⟩
  obtain ⟨m, hr, hm⟩ := halone.reaches (w - 2).toNat
  refine ⟨m, hrun.trans hr, ?_⟩
  rwa [BitVec.ofNat_toNat, BitVec.setWidth_eq, BitVec.add_comm, BitVec.sub_add_cancel] at hm

/-- The ids of processes come round: a `fork` gives its child the id of the first process, which is
still there, and before that another gives a negative one. -/
theorem pids_come_round :
    (∃ m : ProcSys Unit, Reaches ProcSys.step anyEvent boot m ∧
      (m.table.proc 0).state = .running ∧ (m.table.proc 1).state = .embryo ∧
      (m.table.proc 0).pid = 1 ∧ (m.table.proc 1).pid = 1) ∧
    ∃ m : ProcSys Unit, Reaches ProcSys.step anyEvent boot m ∧
      (m.table.proc 1).state = .embryo ∧ (m.table.proc 1).pid.toInt = -2 ^ 31 := by
  constructor
  · obtain ⟨m, hr, hm⟩ := alone_reachable 1
    refine ⟨_, hr.tail ⟨_, trivial, hm.fork⟩, ?_⟩
    have hinit : (m.table.set 1 { m.table.proc 1 with state := .embryo, pid := 1 }).proc 0 =
        m.table.proc 0 := Ptable.proc_set_ne _ (by decide)
    have hnew := Ptable.proc_set (t := m.table) (p := 1)
      { m.table.proc 1 with state := .embryo, pid := 1 }
    exact ⟨(congrArg PEntry.state hinit).trans hm.init.1, congrArg PEntry.state hnew,
      (congrArg PEntry.pid hinit).trans hm.init.2, congrArg PEntry.pid hnew⟩
  · obtain ⟨m, hr, hm⟩ := alone_reachable (BitVec.ofNat 32 (2 ^ 31))
    refine ⟨_, hr.tail ⟨_, trivial, hm.fork⟩, ?_⟩
    have hnew := Ptable.proc_set (t := m.table) (p := 1)
      { m.table.proc 1 with state := .embryo, pid := BitVec.ofNat 32 (2 ^ 31) }
    refine ⟨congrArg PEntry.state hnew, ?_⟩
    have hneg : (BitVec.ofNat 32 (2 ^ 31)).toInt = -2 ^ 31 := by decide
    exact (congrArg (fun x => BitVec.toInt (PEntry.pid x)) hnew).trans hneg

end ProcSys

end Xv6
