import Xv6.Proc.Steps

/-!
# Exits and waits

Every process that exited is a zombie until one `wait` of its parent returns its process
id.  Process ids are reused after 2^32 forks, so occurrences are counted: `Reaps`.
`life_cycle` puts the three invariants together.
-/

namespace Xv6

open Bytes Conc

def Ptable.zombies (t : Ptable) (w : Word) : Finset Pid :=
  Finset.univ.filter fun p => (t.proc p).state = .zombie ∧ (t.proc p).pid = w

/-- A process keeps its slot, its kernel stack and its page table. -/
def PEntry.Keeps (x y : PEntry) : Prop :=
  x.state.Used → y.state.Used ∧ y.kstack = x.kstack ∧ y.pgdir = x.pgdir

theorem PEntry.Alike.keeps {x y : PEntry} (h : x.Alike y) : x.Keeps y :=
  fun hu => ⟨h.used.2 hu, h.memory⟩

namespace Ptable

variable {t t' : Ptable} {w : Word}

theorem mem_zombies {p : Pid} :
    p ∈ t.zombies w ↔ (t.proc p).state = .zombie ∧ (t.proc p).pid = w := by
  simp [zombies]

theorem zombies_alike (h : ∀ p, (t.proc p).Alike (t'.proc p)) : t'.zombies w = t.zombies w := by
  ext p
  rw [mem_zombies, mem_zombies, (h p).is .zombie (by decide), (h p).pid]

theorem zombies_update {p : Pid} {x : PEntry} (hproc : t'.proc = Function.update t.proc p x)
    (hp : (t.proc p).state ≠ .zombie) (hx : x.state ≠ .zombie) : t'.zombies w = t.zombies w := by
  ext q
  rw [mem_zombies, mem_zombies, hproc]
  by_cases hq : q = p
  · rw [hq, Function.update_self]
    simp [hp, hx]
  · rw [Function.update_of_ne hq]

theorem card_zombies_left {init me : Pid} (h : Left init me t t') (hme : (t.proc me).state ≠ .zombie) :
    (t'.zombies w).card = (t.zombies w).card + if (t.proc me).pid = w then 1 else 0 := by
  have hmem : ∀ q, q ∈ t'.zombies w ↔ (q = me ∧ (t.proc me).pid = w) ∨ q ∈ t.zombies w := by
    intro q
    have hpid : (t'.proc q).pid = (t.proc q).pid := by rw [h.rest q]
    rw [mem_zombies, mem_zombies, hpid]
    by_cases hq : q = me
    · subst hq
      simp [h.zombie, hme]
    · rcases h.state q hq with hs | ⟨hs, hs'⟩
      · simp [hs, hq]
      · simp [hs, hs', hq]
  have hnot : me ∉ t.zombies w := fun hz => hme (mem_zombies.1 hz).1
  split
  · next hw =>
    rw [← Finset.card_insert_of_notMem hnot]
    congr 1
    ext q
    rw [hmem, Finset.mem_insert, and_iff_left hw]
  · next hw =>
    rw [Nat.add_zero]
    congr 1
    ext q
    rw [hmem]
    exact or_iff_right fun hq => hw hq.2

theorem card_zombies_reap {z : Pid} (hz : (t.proc z).state = .zombie)
    (hfree : (t'.proc z).state = .unused) (h : ∀ q, q ≠ z → (t.proc q).Alike (t'.proc q)) :
    (t'.zombies w).card + (if (t.proc z).pid = w then 1 else 0) = (t.zombies w).card := by
  have herase : t'.zombies w = (t.zombies w).erase z := by
    ext q
    rw [mem_zombies, Finset.mem_erase, mem_zombies]
    by_cases hq : q = z
    · simp [hq, hfree]
    · rw [(h q hq).is .zombie (by decide), (h q hq).pid]
      simp [hq]
  rw [herase]
  split
  · next hw => exact Finset.card_erase_add_one (mem_zombies.2 ⟨hz, hw⟩)
  · next hw => rw [Finset.erase_eq_of_notMem fun h => hw (mem_zombies.1 h).2, Nat.add_zero]

end Ptable

namespace ProcSys

variable {C : Type} {m m' : ProcSys C} {e : ProcEvent C}

/-- Each exit is reported once, or still waits as a zombie. -/
def Reaps (m : ProcSys C) : Prop :=
  ∀ w, m.exits.count w = (m.reaped.map Prod.snd).count w + (m.table.zombies w).card

/-- A step that reaps nobody, or in which `p` reaps its child `z`. -/
def Frees (m m' : ProcSys C) : Prop :=
  (m'.reaped = m.reaped ∧ ∀ q, (m.table.proc q).Keeps (m'.table.proc q)) ∨
  ∃ c p z, m.cpu c = ⟨some p, .away p⟩ ∧ (m.table.proc z).parent = some p ∧
    (m.table.proc z).state = .zombie ∧ (∀ c', (m.cpu c').proc ≠ some z) ∧
    m'.reaped = m.reaped ++ [(p, (m.table.proc z).pid)] ∧ (m'.table.proc z).state = .unused ∧
    ∀ q, q ≠ z → (m.table.proc q).Keeps (m'.table.proc q)

theorem Reaps.congr (h : Reaps m) (hexits : m'.exits = m.exits) (hreaped : m'.reaped = m.reaped)
    (hz : ∀ w, m'.table.zombies w = m.table.zombies w) : Reaps m' := by
  intro w
  rw [hexits, hreaped, hz]
  exact h w

theorem Reaps.step (h : Reaps m) (hst : Step m e m') : Reaps m' := by
  cases hst.change with
  | calm slots doing exits reaped next => exact h.congr exits reaped fun _ => Ptable.zombies_alike slots
  | fork c p np x d alive doing vacant only proc new slot self others exits reaped =>
    refine h.congr exits reaped fun _ => Ptable.zombies_update proc (fun hz => ?_) new.state.2.2
    rw [hz] at vacant
    exact absurd vacant (by decide)
  | reap c p z cpu child zombie off slots free doing exits reaped next =>
    intro w
    have hcard := Ptable.card_zombies_reap (w := w) zombie free.1 slots
    have hw := h w
    rw [exits, reaped, List.map_append, List.count_append, List.map_singleton, List.count_singleton]
    simp only [beq_iff_eq]
    omega
  | exit c p event running state doing table left others exits reaped =>
    intro w
    have hcard := Ptable.card_zombies_left (w := w) left (by simp [state])
    have hw := h w
    rw [exits, reaped, List.count_append, List.count_singleton]
    simp only [beq_iff_eq]
    omega

theorem Step.frees (hst : Step m e m') : Frees m m' := by
  cases hst.change with
  | calm slots doing exits reaped next => exact Or.inl ⟨reaped, fun q => (slots q).keeps⟩
  | fork c p np x d alive doing vacant only proc new slot self others exits reaped =>
    refine Or.inl ⟨reaped, fun q hu => ?_⟩
    have hq : q ≠ np := by
      rintro rfl
      exact ProcState.vacant_iff.1 vacant hu
    rw [proc, Function.update_of_ne hq]
    exact ⟨hu, rfl, rfl⟩
  | reap c p z cpu child zombie off slots free doing exits reaped next =>
    exact Or.inr ⟨c, p, z, cpu, child, zombie, off, reaped, free.1, fun q hq => (slots q hq).keeps⟩
  | exit c p event running state doing table left others exits reaped =>
    refine Or.inl ⟨reaped, fun q hu => ⟨?_, by rw [left.rest q], by rw [left.rest q]⟩⟩
    by_cases hq : q = p
    · rw [hq, left.zombie]
      exact Or.inr rfl
    · rcases left.state q hq with hs | ⟨-, hs⟩ <;> rw [hs]
      · exact hu
      · exact Or.inl (Or.inr (Or.inl rfl))

/-! ## Families -/

namespace Fam

/-- The slots of `S`, where nobody is alive, get other contents. -/
theorem keep (h : Fam m) (S : Set Pid) (dead : ∀ z ∈ S, ¬ (m.table.proc z).state.Alive)
    (slots : ∀ q, q ∉ S → (m.table.proc q).Alike (m'.table.proc q))
    (used : ∀ z ∈ S, (m'.table.proc z).state.Used →
      ∃ r, (m'.table.proc z).parent = some r ∧ (m.table.proc r).state.Alive)
    (fork : ∀ p np pos, (m'.thread p).doing = .fork np pos →
      (np ∉ S ∧ (m.thread p).doing = .fork np pos) ∨
      (np ∈ S ∧ (m.table.proc p).state.Alive ∧ (m'.table.proc np).state = .embryo ∧
        (pos = .ready → (m'.table.proc np).parent = some p) ∧
        ∀ q pos', (m'.thread q).doing = .fork np pos' → q = p))
    (exit : ∀ p, (m'.thread p).doing = .exit → p ≠ initslot) : Fam m' := by
  have halive : ∀ q, (m.table.proc q).state.Alive → (m'.table.proc q).state.Alive :=
    fun q hq => (slots q fun hz => dead q hz hq).alive.2 hq
  refine ⟨halive _ h.init, fun p hp hu => ?_, fun p np pos hd => ?_, fun p q np pos pos' hp hq => ?_,
    exit⟩
  · by_cases hpS : p ∈ S
    · obtain ⟨r, hr, ha⟩ := used p hpS hu
      exact ⟨r, hr, halive r ha⟩
    · obtain ⟨r, hr, ha⟩ := h.parent p hp ((slots p hpS).used.1 hu)
      exact ⟨r, (slots p hpS).parent.trans hr, halive r ha⟩
  · rcases fork p np pos hd with ⟨hnp, hd⟩ | ⟨-, ha, he, hr, -⟩
    · obtain ⟨ha, he, hr⟩ := h.fork p np pos hd
      exact ⟨halive p ha, ((slots np hnp).is .embryo (by decide)).2 he,
        fun hpos => (slots np hnp).parent.trans (hr hpos)⟩
    · exact ⟨halive p ha, he, hr⟩
  · rcases fork p np pos hp with ⟨hnp, hp⟩ | ⟨-, -, -, -, huniq⟩
    · rcases fork q np pos' hq with ⟨-, hq⟩ | ⟨hS, -⟩
      · exact h.forkUniq p q np pos pos' hp hq
      · exact absurd hS hnp
    · exact (huniq q pos' hq).symm

/-- A process becomes a zombie; its children have been passed to init. -/
theorem left (h : Fam m) {p : Pid} (hrun : (m.table.proc p).state = .running)
    (doing : (m.thread p).doing = .exit) (hl : Ptable.Left initslot p m.table m'.table)
    (hdoing : ∀ q, (m'.thread q).doing = (m.thread q).doing) : Fam m' := by
  have hne : initslot ≠ p := (h.exit p doing).symm
  have hkind : ∀ q, q ≠ p → (m'.table.proc q).state.kind = (m.table.proc q).state.kind := by
    intro q hq
    rcases hl.state q hq with hs | ⟨hs, hs'⟩
    · rw [hs]
    · rw [hs, hs']
      rfl
  have halive : ∀ q, q ≠ p → (m.table.proc q).state.Alive → (m'.table.proc q).state.Alive := by
    intro q hq ha
    rwa [ProcState.alive_iff, hkind q hq, ← ProcState.alive_iff]
  refine ⟨halive _ hne h.init, fun q hq hu => ?_, fun q np pos hd => ?_, fun q r np pos pos' => ?_,
    fun q => ?_⟩
  · have hused : (m.table.proc q).state.Used := by
      by_cases hqp : q = p
      · rw [hqp, hrun]
        decide
      · rwa [ProcState.used_iff, hkind q hqp, ← ProcState.used_iff] at hu
    obtain ⟨r, hr, ha⟩ := h.parent q hq hused
    rcases hl.parent q with hsame | ⟨-, hinit⟩
    · have hrp : r ≠ p := by
        rintro rfl
        exact hl.passed q (hsame.trans hr)
      exact ⟨r, hsame.trans hr, halive r hrp ha⟩
    · exact ⟨initslot, hinit, halive _ hne h.init⟩
  · rw [hdoing] at hd
    obtain ⟨ha, he, hr⟩ := h.fork q np pos hd
    have hqp : q ≠ p := by
      rintro rfl
      rw [doing] at hd
      cases hd
    have hnp : np ≠ p := by
      rintro rfl
      rw [hrun] at he
      cases he
    refine ⟨halive q hqp ha, ?_, fun hpos => ?_⟩
    · rcases hl.state np hnp with hs | ⟨hs, -⟩
      · rw [hs, he]
      · rw [he] at hs
        cases hs
    · rcases hl.parent np with hsame | ⟨hold, -⟩
      · exact hsame.trans (hr hpos)
      · rw [hr hpos, Option.some.injEq] at hold
        exact absurd hold hqp
  · rw [hdoing, hdoing]
    exact h.forkUniq q r np pos pos'
  · rw [hdoing]
    exact h.exit q

theorem step (h : Fam m) (hst : Step m e m') : Fam m' := by
  cases hst.change with
  | calm slots doing exits reaped next =>
    refine h.keep ∅ (fun z hz => hz.elim) (fun q _ => slots q) (fun z hz => hz.elim)
      (fun p np pos hd => Or.inl ⟨id, ?_⟩) fun p hd => ?_
    · rcases doing p with h' | ⟨-, h', -⟩ <;> rw [h'] at hd
      · exact hd
      · cases hd
    · rcases doing p with h' | ⟨-, -, hp⟩
      · exact h.exit p (h' ▸ hd)
      · exact hp
  | fork c p np x d alive doing vacant only proc new slot self others exits reaped =>
    have hnp : m'.table.proc np = x := by rw [proc, Function.update_self]
    refine h.keep {np} ?_ (fun q hq => ?_) ?_ (fun q np' pos hd => ?_) fun q hd => ?_
    · rintro z rfl
      exact fun ha => ProcState.vacant_iff.1 vacant (Or.inl ha)
    · rw [proc, Function.update_of_ne hq]
      exact (PEntry.Calm.refl _).toAlike
    · rintro z rfl hu
      rw [hnp] at hu ⊢
      cases new with
      | on pos embryo parent =>
        rw [embryo] at hu
        exact absurd hu (by decide)
      | failed unused =>
        rw [unused] at hu
        exact absurd hu (by decide)
      | child runnable parent => exact ⟨p, parent, alive⟩
    · -- only `p` is about the new slot
      have hmine : ∀ q pos, (m'.thread q).doing = .fork np pos → q = p := by
        intro q pos hq
        by_contra hqp
        rcases others q hqp with h' | ⟨-, h'⟩ <;> rw [h'] at hq
        · exact hqp (only q pos hq)
        · cases hq
      by_cases hqp : q = p
      · subst hqp
        rw [self] at hd
        subst hd
        cases new with
        | on _ embryo parent => exact Or.inr ⟨rfl, alive, hnp ▸ embryo, fun hpos => hnp ▸ parent hpos, hmine⟩
      · rcases others q hqp with h' | ⟨-, h'⟩
        · refine Or.inl ⟨?_, h' ▸ hd⟩
          rintro rfl
          exact hqp (hmine q pos hd)
        · rw [h'] at hd
          cases hd
    · by_cases hqp : q = p
      · rw [hqp, self] at hd
        subst hd
        cases new
      · rcases others q hqp with h' | ⟨-, h'⟩ <;> rw [h'] at hd
        · exact h.exit q hd
        · cases hd
  | reap c p z cpu child zombie off slots free doing exits reaped next =>
    refine h.keep {z} ?_ slots ?_ (fun q np pos hd => ?_) fun q hd => h.exit q (doing q ▸ hd)
    · rintro z rfl
      rw [zombie]
      decide
    · rintro z rfl hu
      rw [free.1] at hu
      exact absurd hu (by decide)
    · rw [doing] at hd
      refine Or.inl ⟨?_, hd⟩
      rintro rfl
      have := (h.fork q np pos hd).2.1
      rw [zombie] at this
      cases this
  | exit c p event running state doing table left others exits reaped => exact h.left state doing left others

end Fam

/-! ## Whole runs -/

theorem userinit_proc (p : Pid) : (Ptable.userinit.proc p).state =
    if p = initslot then .runnable else .unused := by
  revert p
  decide

theorem boot_inv : Ctl (boot : ProcSys C) ∧ Fam (boot : ProcSys C) ∧ Reaps (boot : ProcSys C) := by
  have hstate : ∀ p, ((boot : ProcSys C).table.proc p).state =
      if p = initslot then .runnable else .unused := userinit_proc
  have hdoing : ∀ p, ((boot : ProcSys C).thread p).doing = .other := by
    intro p
    simp only [boot]
    split <;> rfl
  refine ⟨⟨fun c p => ?_, fun c hc => ?_, fun p => ?_, fun c c' p h => ?_⟩,
    ⟨?_, fun p hp hu => ?_, fun p np pos hd => ?_, fun p q np pos pos' hd => ?_, fun p hd => ?_⟩,
    fun w => ?_⟩
  · simp [boot]
  · simp [boot, Holds] at hc
  · rw [hstate]
    split <;> simp [boot]
  · cases h
  · rw [hstate, if_pos rfl]
    exact Or.inr (Or.inl rfl)
  · rw [hstate, if_neg hp] at hu
    simp [ProcState.Used, ProcState.Alive] at hu
  · rw [hdoing] at hd
    cases hd
  · rw [hdoing] at hd
    cases hd
  · rw [hdoing] at hd
    cases hd
  · have hnone : (boot : ProcSys C).table.zombies w = ∅ := by
      refine Finset.eq_empty_of_forall_notMem fun p hp => ?_
      have hz := (Ptable.mem_zombies.1 hp).1
      rw [hstate] at hz
      split at hz <;> cases hz
    rw [hnone]
    rfl

variable [DecidableEq C]

theorem reaches_inv (h : Reaches (ProcSys.step (C := C)) anyEvent boot m) :
    Ctl m ∧ Fam m ∧ Reaps m := by
  refine h.inv (I := fun m => Ctl m ∧ Fam m ∧ Reaps m) boot_inv ?_
  rintro s e s' ⟨hc, hf, hr⟩ - hst
  obtain ⟨hc', hst⟩ := step_sound hc hf hst
  exact ⟨hc', hf.step hst, hr.step hst⟩

/-- The life cycle of processes.  Whenever `ptable.lock` is free, a process is RUNNING iff it is
the current process of exactly one CPU, and every process but the first has a parent that is
alive.  `wait` frees only zombies that no CPU runs, and it returns the process id of each process
that exited once. -/
theorem life_cycle (h : Reaches (ProcSys.step (C := C)) anyEvent boot m) :
    (m.lock = none →
      (∀ p, (m.table.proc p).state = .running ↔ ∃! c, (m.cpu c).proc = some p) ∧
      ∀ p, p ≠ initslot → (m.table.proc p).state.Used →
        ∃ r, (m.table.proc p).parent = some r ∧ (m.table.proc r).state.Alive) ∧
    (∀ e m', m.step e = .ok () m' → Frees m m') ∧
    ∀ w, m.exits.count w = (m.reaped.map Prod.snd).count w + (m.table.zombies w).card := by
  obtain ⟨hc, hf, hr⟩ := reaches_inv h
  refine ⟨fun hfree => ⟨fun p => ?_, hf.parent⟩, fun e m' he => (step_sound hc hf he).2.frees, hr⟩
  have haway : ∀ c, (m.cpu c).proc = some p ↔ (m.cpu c).sched = .away p := by
    intro c
    rw [hc.proc c p]
    refine or_iff_left fun hb => ?_
    have hlock := hc.held c (by simp [Holds, hb])
    rw [hfree] at hlock
    cases hlock
  rw [hc.running p]
  constructor
  · rintro ⟨c, ha⟩
    exact ⟨c, (haway c).2 ha, fun c' hc' => hc.uniq c' c p ((haway c').1 hc') ha⟩
  · rintro ⟨c, ha, -⟩
    exact ⟨c, (haway c).1 ha⟩

/-- The first process forks and waits, and its child exits. -/
def childExits : List (ProcEvent Unit) :=
  [.acquire (), .scan (), .resume (), .proc () .forkAlloc, .proc () (.forkStack true),
    .proc () (.forkCopy true), .proc () .forkReady, .proc () .wait, .back (), .scan (),
    .resume (), .proc () .exitStart, .proc () .exitEnd, .back ()]

/-- The scheduler gets round to the first process again. -/
def nextRound : List (ProcEvent Unit) :=
  List.replicate 63 (ProcEvent.scan ()) ++ [ProcEvent.acquire (), ProcEvent.scan ()]

/-- One `wait` of the first process returns the process id of its child. -/
theorem life_cycle_one : ∃ m : ProcSys Unit, Reaches ProcSys.step anyEvent boot m ∧
    m.lock = none ∧ m.exits = [2] ∧ m.reaped = [(0, 2)] ∧ (m.table.proc 0).state = .running ∧
    (∃! c, (m.cpu c).proc = some 0) ∧ m.table.zombies 2 = ∅ := by
  have h : ((exec ProcSys.step boot (childExits ++ nextRound ++ [ProcEvent.resume ()])).bind fun _ m =>
      (.ok (decide (m.lock = none ∧ m.exits = [2] ∧ m.reaped = [(0, 2)] ∧
        (m.table.proc 0).state = .running)) () : Res SchedPanic Bool Unit)) = .ok true () := by
    decide +kernel
  obtain ⟨_, m, hm, ht⟩ := Res.bind_eq_ok.1 h
  have hd : decide (m.lock = none ∧ m.exits = [2] ∧ m.reaped = [(0, 2)] ∧
      (m.table.proc 0).state = .running) = true := by
    simpa using ht
  obtain ⟨hlock, hexits, hreaped, hrun⟩ := of_decide_eq_true hd
  have hreach := reaches_exec hm
  obtain ⟨hfree, -, hcount⟩ := life_cycle hreach
  refine ⟨m, hreach, hlock, hexits, hreaped, hrun, ((hfree hlock).1 0).1 hrun, ?_⟩
  have := hcount 2
  rw [hexits, hreaped] at this
  simpa using this

end ProcSys

end Xv6
