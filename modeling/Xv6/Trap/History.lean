import Xv6.Lib.CString
import Xv6.Proc.Pids
import Xv6.Trap.Bounds

/-!
# The history of exits

`exit` writes an entry for the process to the place `history_index` of a circular buffer, and
`sys_gethistory` copies entries of it to the caller.  Both hold `ptable.lock` while they do it, so
a run of the process system is followed together with the list of all exits so far
(`histStep`), and a call of `gethistory` sees the buffer as some state of the run has it.
-/

namespace Xv6

open Bytes Conc

/-! ## Names -/

/-- There is a `0` in the field. -/
def Ended (b : Blk CMD_NAME_MAX) : Prop := ∃ i, i < CMD_NAME_MAX ∧ b.get i = 0

instance (b : Blk CMD_NAME_MAX) : Decidable (Ended b) :=
  inferInstanceAs (Decidable (∃ i, i < CMD_NAME_MAX ∧ b.get i = 0))

structure Copied (t b : Blk CMD_NAME_MAX) (len : Nat) : Prop where
  lt : len < CMD_NAME_MAX
  byte : ∀ j, j < len → b.get j = t.get j ∧ t.get j ≠ 0
  zero : b.get len = 0
  stop : len = CMD_NAME_MAX - 1 ∨ t.get len = 0

theorem Copied.ended {t b : Blk CMD_NAME_MAX} {len : Nat} (h : Copied t b len) : Ended b :=
  ⟨len, h.lt, h.zero⟩

theorem Copied.cstr_eq {t b : Blk CMD_NAME_MAX} {len : Nat} (h : Copied t b len) (ht : Ended t) :
    b.cstr = t.cstr := by
  have hstop : t.get len = 0 := by
    rcases h.stop with hlen | hstop
    · obtain ⟨i, hi, hi0⟩ := ht
      have hge : len ≤ i := by
        by_contra hlt
        exact (h.byte i (by omega)).2 hi0
      rwa [show len = i by omega]
    · exact hstop
  rw [Blk.cstr_eq h.lt (fun j hj => (h.byte j hj).1 ▸ (h.byte j hj).2) h.zero,
    Blk.cstr_eq h.lt (fun j hj => (h.byte j hj).2) hstop]
  exact List.map_congr_left fun j hj => (h.byte j (List.mem_range.1 hj)).1

theorem safestrcpyFrom_copied (dst src : Blk CMD_NAME_MAX) (n i : Nat) (hn : i + n = CMD_NAME_MAX - 1)
    (hi : ∀ j, j < i → dst.get j = src.get j ∧ src.get j ≠ 0) :
    ∃ len, Copied src (safestrcpyFrom dst src n i) len := by
  induction n generalizing dst i with
  | zero =>
    have hlt : i < CMD_NAME_MAX := by
      simp only [CMD_NAME_MAX] at hn ⊢
      omega
    refine ⟨i, hlt, fun j hj => ?_, ?_, Or.inl (by omega)⟩
    · have hj' : j < CMD_NAME_MAX := by omega
      unfold safestrcpyFrom
      rw [Blk.get_splice _ _ _ _ hj', if_neg (by omega)]
      exact hi j hj
    · unfold safestrcpyFrom
      rw [Blk.get_splice _ _ _ _ hlt, if_pos (by omega)]
  | succ n ih =>
    unfold safestrcpyFrom
    dsimp only
    have hcopy : ∀ j, j < i + 1 → (dst.splice i 1 fun _ => src.get i).get j = src.get j := by
      intro j hj
      rw [Blk.get_splice _ _ _ _ (by omega)]
      by_cases hji : j = i
      · rw [if_pos (by omega), hji]
      · rw [if_neg (by omega)]
        exact (hi j (by omega)).1
    split
    · next hne =>
      refine ih _ (i + 1) (by omega) fun j hj => ⟨hcopy j hj, ?_⟩
      by_cases hji : j = i
      · rwa [hji]
      · exact (hi j (by omega)).2
    · next hz =>
      rw [not_not] at hz
      refine ⟨i, by omega, fun j hj => ⟨?_, (hi j hj).2⟩, ?_, Or.inr hz⟩
      · rw [Blk.get_splice _ _ _ _ (by omega), if_neg (by omega)]
        exact hcopy j (by omega)
      · rw [Blk.get_splice _ _ _ _ (by omega), if_neg (by omega), hcopy i (by omega), hz]

theorem safestrcpy_copied (dst src : Blk CMD_NAME_MAX) : ∃ len, Copied src (safestrcpy dst src) len :=
  safestrcpyFrom_copied dst src _ 0 (Nat.zero_add _) fun _ hj => absurd hj (Nat.not_lt_zero _)

theorem ended_safestrcpy (dst src : Blk CMD_NAME_MAX) : Ended (safestrcpy dst src) :=
  (safestrcpy_copied dst src).elim fun _ h => h.ended

theorem cstr_safestrcpy (dst : Blk CMD_NAME_MAX) {src : Blk CMD_NAME_MAX} (h : Ended src) :
    (safestrcpy dst src).cstr = src.cstr :=
  (safestrcpy_copied dst src).elim fun _ hc => hc.cstr_eq h

/-! ## Recording -/

/-- Process id, name and memory size of a process when it exits. -/
structure Exited where
  pid : Word
  name : List Byte
  sz : Word
deriving DecidableEq

def PEntry.exited (x : PEntry) : Exited := ⟨x.pid, x.name.cstr, x.sz⟩

def HistoryEntry.exited (x : HistoryEntry) : Exited := ⟨x.pid, x.name.cstr, x.memUsage⟩

structure Recorded (t : Ptable) (l : List Exited) : Prop where
  names : ∀ p, Ended (t.proc p).name
  ended : ∀ i, Ended (t.history i).name
  index : t.historyIndex = l.length % MAX_HISTORY
  count : t.historyCount = min l.length MAX_HISTORY
  entry : ∀ i, l.length ≤ i + MAX_HISTORY → i < l.length →
    l[i]? = some (t.history (i % MAX_HISTORY)).exited

namespace Ptable

variable {t t' : Ptable} {l : List Exited}

/-- Another exit goes to the place of the one `MAX_HISTORY` before it. -/
theorem recorded_record (h : Recorded t l) (me : Pid) :
    Recorded (t.record me) (l ++ [(t.proc me).exited]) := by
  have hindex := h.index
  have hlen : (l ++ [(t.proc me).exited]).length = l.length + 1 := by simp
  refine ⟨h.names, fun i => ?_, ?_, ?_, fun i hi hlt => ?_⟩
  · show Ended (Function.update t.history t.historyIndex _ i).name
    by_cases hi : i = t.historyIndex
    · rw [hi, Function.update_self]
      exact ended_safestrcpy _ _
    · rw [Function.update_of_ne hi]
      exact h.ended i
  · rw [hlen]
    show (t.historyIndex + 1) % MAX_HISTORY = _
    rw [hindex]
    simp only [MAX_HISTORY]
    omega
  · have hcount := h.count
    rw [hlen]
    show (if t.historyCount < MAX_HISTORY then t.historyCount + 1 else t.historyCount) = _
    split <;> omega
  · rw [hlen] at hi hlt
    show _ = some (Function.update t.history t.historyIndex _ (i % MAX_HISTORY)).exited
    by_cases hlast : i = l.length
    · rw [hlast, ← hindex, Function.update_self, List.getElem?_concat_length]
      simp only [HistoryEntry.exited, PEntry.exited, cstr_safestrcpy _ (h.names me)]
    · have hplace : i % MAX_HISTORY ≠ t.historyIndex := by
        rw [hindex]
        simp only [MAX_HISTORY] at *
        omega
      rw [Function.update_of_ne hplace, List.getElem?_append_left (by omega)]
      exact h.entry i (by omega) (by omega)

/-- The table changes without its history, and names stay C strings. -/
structure Quiet (t t' : Ptable) : Prop where
  history : t'.history = t.history
  count : t'.historyCount = t.historyCount
  index : t'.historyIndex = t.historyIndex
  names : (∀ p, Ended (t.proc p).name) → ∀ p, Ended (t'.proc p).name

theorem Recorded.quiet (h : Recorded t l) (hq : Quiet t t') : Recorded t' l := by
  refine ⟨hq.names h.names, ?_, ?_, ?_, ?_⟩
  · rw [hq.history]
    exact h.ended
  · rw [hq.index]
    exact h.index
  · rw [hq.count]
    exact h.count
  · rw [hq.history]
    exact h.entry

theorem Quiet.refl (t : Ptable) : Quiet t t := ⟨rfl, rfl, rfl, id⟩

theorem Quiet.trans {u : Ptable} (h : Quiet t t') (h' : Quiet t' u) : Quiet t u :=
  ⟨h'.history.trans h.history, h'.count.trans h.count, h'.index.trans h.index,
    fun hn => h'.names (h.names hn)⟩

theorem quiet_set (p : Pid) {x : PEntry} (h : Ended (t.proc p).name → Ended x.name) :
    Quiet t (t.set p x) := by
  refine ⟨rfl, rfl, rfl, fun hn q => ?_⟩
  obtain ⟨-, hq⟩ | ⟨-, hq⟩ := proc_set_cases (t := t) (p := p) x q
  · rw [hq]
    exact h (hn p)
  · rw [hq]
    exact hn q

theorem quiet_wakeup1 (t : Ptable) (c : Option Chan) : Quiet t (t.wakeup1 c) := by
  refine ⟨rfl, rfl, rfl, fun hn q => ?_⟩
  rcases woken_wakeup1 (t := t) c q with h | ⟨-, h⟩ <;> rw [h] <;> exact hn q

theorem quiet_passChild (init me : Pid) (t : Ptable) (p : Pid) : Quiet t (passChild init me t p) := by
  unfold passChild
  split
  · have hset : Quiet t (t.set p { t.proc p with parent := some init }) := quiet_set p id
    dsimp only
    split
    · exact hset.trans (quiet_wakeup1 _ _)
    · exact hset
  · exact Quiet.refl t

theorem quiet_exit (init me : Pid) (t : Ptable) : Quiet t (t.exit init me) := by
  have hloop : ∀ (ps : List Pid) (u : Ptable), Quiet u (ps.foldl (passChild init me) u) := by
    intro ps
    induction ps with
    | nil => exact Quiet.refl
    | cons p ps ih => exact fun u => (quiet_passChild init me u p).trans (ih _)
  obtain ⟨u, hu⟩ : ∃ u, u = (List.finRange NPROC).foldl (passChild init me)
    (t.wakeup1 ((t.proc me).parent.map .proc)) := ⟨_, rfl⟩
  have hexit : t.exit init me = u.set me { u.proc me with state := .zombie } := by
    rw [hu]
    rfl
  have hpassed : Quiet t u := by
    rw [hu]
    exact (quiet_wakeup1 t _).trans (hloop _ _)
  rw [hexit]
  exact hpassed.trans (quiet_set me id)

theorem quiet_allocproc {np : Pid} (h : t.allocproc = some (np, t')) : Quiet t t' := by
  obtain ⟨-, rfl⟩ := allocproc_some h
  have hset : Quiet t (t.set np { t.proc np with state := .embryo, pid := t.nextpid }) :=
    quiet_set np id
  exact ⟨rfl, rfl, rfl, hset.names⟩

theorem quiet_allocStack (t : Ptable) (np : Pid) (page : Bool) : Quiet t (t.allocStack np page) := by
  cases page <;> exact quiet_set np id

theorem quiet_forkCopy (t : Ptable) (me np : Pid) (copied : Bool) :
    Quiet t (t.forkCopy me np copied) := by
  cases copied with
  | true => exact quiet_set np fun _ => ended_safestrcpy _ _
  | false => exact quiet_set np id

theorem quiet_kill (t : Ptable) (pid : Word) : Quiet t (t.kill pid).2 := by
  obtain ⟨h, -⟩ | ⟨p, -, h⟩ := t.kill_cases pid
  · rw [h]
    exact Quiet.refl t
  · rw [h]
    exact quiet_set p id

theorem quiet_reap (t : Ptable) (p : Pid) : Quiet t (t.reap p) := by
  refine quiet_set p fun _ => ⟨0, by decide, ?_⟩
  rw [Blk.get_splice _ _ _ _ (by decide), if_pos (by decide)]

end Ptable

/-! ## Runs -/

namespace ProcSys

variable {C : Type} [DecidableEq C] {m m' : ProcSys C} {e : ProcEvent C} {l : List Exited}

def exitOf (m : ProcSys C) : ProcEvent C → List Exited
  | .proc c .exitStart => ((m.running c).map fun me => (m.table.proc me).exited).toList
  | _ => []

/-- The process system, and all exits so far in the order in which they happened. -/
def histStep (x : ProcSys C × List Exited) (e : ProcEvent C) :
    Res SchedPanic Unit (ProcSys C × List Exited) :=
  (x.1.step e).bind fun _ m => .ok () (m, x.2 ++ x.1.exitOf e)

/-- `sbrk` leaves the name of the process alone, `exec` sets it with `safestrcpy`. -/
def Named (x : ProcSys C × List Exited) (e : ProcEvent C) : Prop :=
  ∀ c me sz name, e = .proc c (.image sz name) → x.1.running c = some me →
    name = (x.1.table.proc me).name ∨ ∃ last, name = safestrcpy (x.1.table.proc me).name last

open Ptable

theorem quiet_waitLoop (m : ProcSys C) (c : C) (me : Pid) :
    Quiet m.table (m.waitLoop c me).table := by
  unfold waitLoop
  split
  · exact quiet_reap _ _
  · exact Quiet.refl _
  · exact quiet_set me id

theorem quiet_scanStep {c : C} {i : Nat} (h : m.scanStep c i = .ok () m') :
    Quiet m.table m'.table := by
  unfold scanStep at h
  split at h
  · dsimp only at h
    split_ifs at h <;> cases h
    · exact Quiet.refl _
    · exact quiet_set _ id
  · cases h
    exact Quiet.refl _

theorem quiet_resumeStep {c : C} {p : Pid} {pt : Option Parked}
    (h : m.resumeStep c p pt = .ok () m') : Quiet m.table m'.table := by
  unfold resumeStep at h
  split at h <;> cases h
  · exact Quiet.refl _
  · exact Quiet.refl _
  · exact quiet_set p id
  · have hchan : Quiet m.table (m.table.set p { m.table.proc p with chan := none }) := quiet_set p id
    exact hchan.trans (quiet_waitLoop { m with table := _ } c p)

/-- What a process does: only `exit` writes to the history. -/
theorem quiet_procStep {c : C} {me : Pid} {a : ProcAct} (ha : a ≠ .exitStart)
    (hname : ∀ sz name, a = .image sz name → name = (m.table.proc me).name ∨
      ∃ last, name = safestrcpy (m.table.proc me).name last)
    (h : m.procStep c me a = .ok () m') : Quiet m.table m'.table := by
  cases a with
  | exitStart => exact absurd rfl ha
  | yield | sleep chan =>
    dsimp only [procStep] at h
    split_ifs at h
    cases h
    exact quiet_set me id
  | wait =>
    dsimp only [procStep] at h
    split_ifs at h
    cases h
    exact quiet_waitLoop m c me
  | forkAlloc =>
    dsimp only [procStep] at h
    split_ifs at h
    split at h
    · cases h
      exact Quiet.refl _
    · next np t ht =>
      cases h
      exact quiet_allocproc ht
  | forkStack page =>
    dsimp only [procStep] at h
    split at h
    · next np hdoing =>
      split_ifs at h <;> cases h
      · exact quiet_allocStack m.table np true
      · exact quiet_allocStack m.table np false
    · cases h
  | forkCopy copied =>
    dsimp only [procStep] at h
    split at h <;> cases h
    exact quiet_forkCopy _ _ _ _
  | forkReady =>
    dsimp only [procStep] at h
    split at h
    · split_ifs at h
      cases h
      exact quiet_set _ id
    · cases h
  | exitEnd =>
    dsimp only [procStep] at h
    split_ifs at h
    cases h
    exact quiet_exit _ _ _
  | kill pid =>
    dsimp only [procStep] at h
    split_ifs at h
    cases h
    exact quiet_kill _ _
  | fault =>
    cases h
    exact quiet_set me id
  | image sz name =>
    cases h
    refine quiet_set me fun hme => ?_
    rcases hname sz name rfl with rfl | ⟨last, rfl⟩
    · exact hme
    · exact ended_safestrcpy _ _

/-- The start of `exit` adds an entry, and nothing else does. -/
theorem recorded_step (hr : Recorded m.table l) (hname : Named (m, l) e)
    (h : m.step e = .ok () m') : Recorded m'.table (l ++ m.exitOf e) := by
  have hquiet : m.exitOf e = [] → Quiet m.table m'.table → Recorded m'.table (l ++ m.exitOf e) := by
    intro hexit hq
    rw [hexit, List.append_nil]
    exact Recorded.quiet hr hq
  cases e with
  | acquire c =>
    dsimp only [step] at h
    split_ifs at h
    cases h
    exact hquiet rfl (Quiet.refl _)
  | scan c =>
    dsimp only [step] at h
    split at h
    · exact hquiet rfl (quiet_scanStep h)
    · cases h
  | back c =>
    dsimp only [step] at h
    split at h <;> cases h
    exact hquiet rfl (Quiet.refl _)
  | resume c =>
    dsimp only [step] at h
    split at h
    · exact hquiet rfl (quiet_resumeStep h)
    · cases h
  | wakeup c chan =>
    dsimp only [step] at h
    split_ifs at h
    cases h
    exact hquiet rfl (quiet_wakeup1 _ _)
  | proc c a =>
    dsimp only [step] at h
    split at h
    · next me hme =>
      by_cases ha : a = .exitStart
      · subst ha
        dsimp only [procStep] at h
        split_ifs at h
        cases h
        have hexit : m.exitOf (.proc c .exitStart) = [(m.table.proc me).exited] := by
          simp only [exitOf, hme, Option.map_some, Option.toList_some]
        rw [hexit]
        exact recorded_record hr me
      · have hexit : m.exitOf (.proc c a) = [] := by
          cases a <;> first | rfl | exact absurd rfl ha
        refine hquiet hexit (quiet_procStep ha (fun sz name he => ?_) h)
        exact hname c me sz name (by rw [he]) hme
    · cases h

/-- In every state of a run the buffer holds the last exits. -/
theorem recorded_run (h : Reaches histStep Named (ProcSys.boot, []) (m, l)) : Recorded m.table l := by
  have hempty : ∀ p, Ended (Ptable.userinit.proc p).name := by decide
  have hboot : Recorded (ProcSys.boot : ProcSys C).table [] :=
    ⟨hempty, fun _ => ⟨0, by decide, rfl⟩, rfl, rfl, fun _ _ hi => absurd hi (Nat.not_lt_zero _)⟩
  refine h.inv (I := fun x => Recorded x.1.table x.2) hboot ?_
  rintro ⟨m, l⟩ e ⟨m', l'⟩ hr hname hst
  obtain ⟨_, m₁, h₁, h₂⟩ := Res.bind_eq_ok.1 hst
  cases h₂
  exact recorded_step hr hname h₁

/-! ### No process exits twice -/

/-- The exits so far are of different processes, and none of them is still at work. -/
structure ExitsOk (m : ProcSys C) (l : List Exited) : Prop where
  nodup : (l.map (·.pid)).Nodup
  spent : ∀ w ∈ l.map (·.pid), m.Spent w

omit [DecidableEq C] in
theorem exitOf_cases (m : ProcSys C) (e : ProcEvent C) : m.exitOf e = [] ∨
    ∃ c me, e = .proc c .exitStart ∧ m.running c = some me ∧
      m.exitOf e = [(m.table.proc me).exited] := by
  unfold exitOf
  split
  · next c =>
    cases hme : m.running c with
    | none => exact Or.inl rfl
    | some me => exact Or.inr ⟨c, me, rfl, hme, rfl⟩
  · exact Or.inl rfl

/-- A process that starts to exit was not in `exit` before, so its id is new in the list. -/
theorem exitsOk_step (h : ExitsOk m l) (hc : Ctl m) (hf : Fam m) (hok : m.table.PidsOk)
    (hleft : PidsLeft m e) (hst : m.step e = .ok () m') : ExitsOk m' (l ++ m.exitOf e) := by
  have hspent : ∀ w ∈ l.map (·.pid), m'.Spent w :=
    fun w hw => (h.spent w hw).step hok hleft (step_sound hc hf hst).2
  rcases exitOf_cases m e with hnone | ⟨c, me, rfl, hme, hone⟩
  · rw [hnone, List.append_nil]
    exact ⟨h.nodup, hspent⟩
  · have hrun : (m.table.proc me).state = .running := (hc.running me).2 ⟨c, (running_eq hme).1⟩
    have hused : (m.table.proc me).state ≠ .unused := by simp [hrun]
    dsimp only [step] at hst
    rw [hme] at hst
    dsimp only [procStep] at hst
    split_ifs at hst with hdoing
    cases hst
    have hnew : (m.table.proc me).pid ∉ l.map (·.pid) := by
      intro hw
      have := ((h.spent _ hw).2 me hused rfl).1
      rw [hdoing] at this
      cases this
    rw [hone]
    refine ⟨?_, fun w hw => ?_⟩
    · rw [List.map_append]
      refine h.nodup.append (List.nodup_singleton _) ?_
      rw [List.map_singleton, List.disjoint_singleton]
      exact hnew
    · rw [List.map_append, List.mem_append] at hw
      rcases hw with hw | hw
      · exact hspent w hw
      · rw [List.map_singleton, List.mem_singleton] at hw
        subst hw
        refine ⟨(hok.below me hused).2, fun q hq hpid => ?_⟩
        rw [hok.inj q me hq hused hpid]
        refine ⟨by simp [setThread], ?_⟩
        show (m.table.proc me).state ≠ .embryo
        simp [hrun]

/-- Until the process ids come round, no id is recorded twice. -/
theorem exits_distinct
    (h : Reaches histStep (fun x e => PidsLeft x.1 e) ((boot : ProcSys C), []) (m, l)) :
    (l.map (·.pid)).Nodup := by
  have hempty : ExitsOk (boot : ProcSys C) [] := ⟨List.nodup_nil, fun w hw => by cases hw⟩
  have hinv : Ctl m ∧ Fam m ∧ m.table.PidsOk ∧ ExitsOk m l := by
    refine h.inv (I := fun x => Ctl x.1 ∧ Fam x.1 ∧ x.1.table.PidsOk ∧ ExitsOk x.1 x.2)
      ⟨boot_inv.1, boot_inv.2.1, pids_boot, hempty⟩ ?_
    rintro ⟨m, l⟩ e ⟨m', l'⟩ ⟨hc, hf, hok, hl⟩ hleft hst
    obtain ⟨_, m₁, h₁, h₂⟩ := Res.bind_eq_ok.1 hst
    cases h₂
    obtain ⟨hc', hst⟩ := step_sound hc hf h₁
    exact ⟨hc', hf.step hst, pidsOk_step hok hleft hst, exitsOk_step hl hc hf hok hleft h₁⟩
  exact hinv.2.2.2.nodup

end ProcSys

/-! ## Reading it back -/

namespace Trap

open Prog

variable {k : Kern} {me : Pid}

/-- `*(int*)p` -/
def wordIn (mem : Word → Byte) (p : Word) : Word := mem (p + 3) ++ mem (p + 2) ++ mem (p + 1) ++ mem p

def nameIn (mem : Word → Byte) (p : Word) : Blk CMD_NAME_MAX := .ofFn fun j => mem (p + .ofNat 32 j)

/-- `*p` for a `struct history_entry *p`, its name as a C string. -/
def entryIn (mem : Word → Byte) (p : Word) : Exited :=
  ⟨wordIn mem p, (nameIn mem (p + 4)).cstr, wordIn mem (p + 20)⟩

def entriesIn (mem : Word → Byte) (buf : Word) (n : Nat) : List Exited :=
  (List.range n).map fun i => entryIn mem (buf + HISTSZ * .ofNat 32 i)

/-- Memory after bytes were stored at `addr`. -/
def stored (mem : Word → Byte) (addr : Word) (bs : List Byte) (a : Word) : Byte :=
  bs.getD (a - addr).toNat (mem a)

theorem stored_add {mem : Word → Byte} {addr : Word} {bs : List Byte} {j : Nat}
    (hj : j < bs.length) (hlt : j < 2 ^ 32) : stored mem addr bs (addr + .ofNat 32 j) = bs[j] := by
  have hsub : (addr + BitVec.ofNat 32 j - addr).toNat = j := by
    rw [BitVec.add_comm, BitVec.add_sub_cancel, BitVec.toNat_ofNat, Nat.mod_eq_of_lt hlt]
  unfold stored
  rw [hsub, List.getD_eq_getElem?_getD, List.getElem?_eq_getElem hj, Option.getD_some]

theorem stored_of_notMem {mem : Word → Byte} {addr : Word} {bs : List Byte} {a : Word}
    (hfit : addr.toNat + bs.length ≤ 2 ^ 32)
    (ha : a.toNat < addr.toNat ∨ addr.toNat + bs.length ≤ a.toNat) : stored mem addr bs a = mem a := by
  have hfar : bs.length ≤ (a - addr).toNat := by
    have := a.isLt
    have := addr.isLt
    rw [BitVec.toNat_sub]
    omega
  unfold stored
  rw [List.getD_eq_getElem?_getD, List.getElem?_eq_none hfar, Option.getD_none]

theorem run_store (k : Kern) (addr : Word) (bs : List Byte) :
    (store me addr bs).run k =
      .ok () (k.setTask me { k.task me with mem := stored (k.task me).mem addr bs }) := run_atomic ..

theorem nameBytes_spec (t : Blk CMD_NAME_MAX) (n i : Nat) : ∃ len, len ≤ n ∧
    (∀ j, j < len → (nameBytes t n i)[j]? = some (t.get (i + j)) ∧ t.get (i + j) ≠ 0) ∧
    (nameBytes t n i)[len]? = some 0 ∧ (len = n ∨ t.get (i + len) = 0) := by
  induction n generalizing i with
  | zero => exact ⟨0, le_rfl, fun j hj => absurd hj (Nat.not_lt_zero j), rfl, Or.inl rfl⟩
  | succ n ih =>
    unfold nameBytes
    split
    · next hne =>
      obtain ⟨len, hle, hbyte, hzero, hstop⟩ := ih (i + 1)
      refine ⟨len + 1, by omega, fun j hj => ?_, ?_, ?_⟩
      · cases j with
        | zero => exact ⟨rfl, hne⟩
        | succ j =>
          rw [List.getElem?_cons_succ, show i + (j + 1) = i + 1 + j by omega]
          exact hbyte j (by omega)
      · rw [List.getElem?_cons_succ]
        exact hzero
      · rw [show i + (len + 1) = i + 1 + len by omega]
        exact hstop.imp (congrArg (· + 1)) id
    · next hz =>
      rw [not_not] at hz
      refine ⟨0, Nat.zero_le _, fun j hj => absurd hj (Nat.not_lt_zero j), ?_, Or.inr hz⟩
      rw [hz]
      rfl

theorem wordIn_bytesOf {mem : Word → Byte} {p v : Word}
    (h : ∀ j, j < 4 → mem (p + .ofNat 32 j) = Blk.byteOf v j) : wordIn mem p = v := by
  have h0 := h 0 (by decide)
  rw [show p + BitVec.ofNat 32 0 = p by simp] at h0
  have h1 : mem (p + 1) = _ := h 1 (by decide)
  have h2 : mem (p + 2) = _ := h 2 (by decide)
  have h3 : mem (p + 3) = _ := h 3 (by decide)
  unfold wordIn
  rw [h0, h1, h2, h3, Blk.append_byteOf_word]

theorem entryIn_congr {mem mem' : Word → Byte} {p : Word} (hfit : p.toNat + 24 ≤ 2 ^ 32)
    (h : ∀ a, p.toNat ≤ a.toNat → a.toNat < p.toNat + 24 → mem a = mem' a) :
    entryIn mem p = entryIn mem' p := by
  have hat : ∀ j, j < 24 → mem (p + .ofNat 32 j) = mem' (p + .ofNat 32 j) := by
    intro j hj
    have := toNat_add_ofNat (a := p) j (by omega)
    exact h _ (by omega) (by omega)
  have hword : ∀ o, o + 4 ≤ 24 → wordIn mem (p + .ofNat 32 o) = wordIn mem' (p + .ofNat 32 o) := by
    intro o ho
    have hbyte : ∀ i, i < 4 →
        mem (p + .ofNat 32 o + .ofNat 32 i) = mem' (p + .ofNat 32 o + .ofNat 32 i) := by
      intro i hi
      rw [BitVec.add_assoc, BitVec.ofNat_add_ofNat]
      exact hat _ (by omega)
    have h0 := hbyte 0 (by decide)
    rw [BitVec.add_zero] at h0
    have h1 : mem (p + .ofNat 32 o + 1) = _ := hbyte 1 (by decide)
    have h2 : mem (p + .ofNat 32 o + 2) = _ := hbyte 2 (by decide)
    have h3 : mem (p + .ofNat 32 o + 3) = _ := hbyte 3 (by decide)
    unfold wordIn
    rw [h0, h1, h2, h3]
    rfl
  have h0 := hword 0 (by decide)
  rw [BitVec.add_zero] at h0
  have hname : ∀ j, j < 16 → mem (p + 4 + .ofNat 32 j) = mem' (p + 4 + .ofNat 32 j) := by
    intro j hj
    rw [BitVec.add_assoc]
    have := hat (4 + j) (by omega)
    rwa [← BitVec.ofNat_add_ofNat] at this
  unfold entryIn
  rw [h0, show wordIn mem (p + 20) = _ from hword 20 (by decide)]
  congr 2
  exact Blk.ext_get fun j hj => by rw [nameIn, nameIn, Blk.get_ofFn _ hj, Blk.get_ofFn _ hj, hname j hj]

theorem run_storeEntry (me : Pid) (k : Kern) {p : Word} {x : HistoryEntry} (hfit : p.toNat + 24 ≤ 2 ^ 32)
    (hx : Ended x.name) : ∃ mem, (storeEntry me p x).run k =
      .ok () (k.setTask me { k.task me with mem := mem }) ∧ entryIn mem p = x.exited ∧
      ∀ a, a.toNat < p.toNat ∨ p.toNat + 24 ≤ a.toNat → mem a = (k.task me).mem a := by
  obtain ⟨nb, hnb⟩ : ∃ nb, nb = nameBytes x.name (CMD_NAME_MAX - 1) 0 := ⟨_, rfl⟩
  have hlen : nb.length ≤ 16 := hnb ▸ length_nameBytes x.name (CMD_NAME_MAX - 1) 0
  obtain ⟨m₁, hm₁⟩ : ∃ m, m = stored (k.task me).mem p (bytesOf x.pid) := ⟨_, rfl⟩
  obtain ⟨m₂, hm₂⟩ : ∃ m, m = stored m₁ (p + 4) nb := ⟨_, rfl⟩
  obtain ⟨m₃, hm₃⟩ : ∃ m, m = stored m₂ (p + 20) (bytesOf x.memUsage) := ⟨_, rfl⟩
  have h4 : (p + 4).toNat = p.toNat + 4 := toNat_add_ofNat 4 (by omega)
  have h20 : (p + 20).toNat = p.toNat + 20 := toNat_add_ofNat 20 (by omega)
  -- what each of the three stores leaves alone
  have hoff₁ : ∀ a, a.toNat < p.toNat ∨ p.toNat + 4 ≤ a.toNat → m₁ a = (k.task me).mem a := by
    intro a ha
    rw [hm₁]
    refine stored_of_notMem ?_ ?_ <;> rw [length_bytesOf] <;> omega
  have hoff₂ : ∀ a, a.toNat < p.toNat + 4 ∨ p.toNat + 20 ≤ a.toNat → m₂ a = m₁ a := by
    intro a ha
    rw [hm₂]
    refine stored_of_notMem ?_ ?_ <;> omega
  have hoff₃ : ∀ a, a.toNat < p.toNat + 20 ∨ p.toNat + 24 ≤ a.toNat → m₃ a = m₂ a := by
    intro a ha
    rw [hm₃]
    refine stored_of_notMem ?_ ?_ <;> rw [length_bytesOf] <;> omega
  have hpid : wordIn m₃ p = x.pid := by
    refine wordIn_bytesOf fun j hj => ?_
    have hj' : (p + BitVec.ofNat 32 j).toNat = p.toNat + j := toNat_add_ofNat j (by omega)
    rw [hoff₃ _ (by omega), hoff₂ _ (by omega), hm₁, stored_add (by simpa using hj) (by omega)]
    simp [bytesOf]
  have husage : wordIn m₃ (p + 20) = x.memUsage := by
    refine wordIn_bytesOf fun j hj => ?_
    rw [hm₃, stored_add (by simpa using hj) (by omega)]
    simp [bytesOf]
  have hname : ∀ j c, nb[j]? = some c → m₃ (p + 4 + .ofNat 32 j) = c := by
    intro j c hc
    obtain ⟨hj, rfl⟩ := List.getElem?_eq_some_iff.1 hc
    have hj' : (p + 4 + BitVec.ofNat 32 j).toNat = p.toNat + 4 + j := by
      rw [toNat_add_ofNat j (by omega), h4]
    rw [hoff₃ _ (by omega), hm₂, stored_add hj (by omega)]
  have hcname : (nameIn m₃ (p + 4)).cstr = x.name.cstr := by
    obtain ⟨len, hle, hbyte, hzero, hstop⟩ := nameBytes_spec x.name (CMD_NAME_MAX - 1) 0
    simp only [Nat.zero_add, ← hnb] at hbyte hzero hstop
    have hlt : len < CMD_NAME_MAX := lt_of_le_of_lt hle (by decide)
    refine Copied.cstr_eq ⟨hlt, fun j hj => ?_, ?_, hstop⟩ hx
    · rw [nameIn, Blk.get_ofFn _ (hj.trans hlt)]
      exact ⟨hname j _ (hbyte j hj).1, (hbyte j hj).2⟩
    · rw [nameIn, Blk.get_ofFn _ hlt]
      exact hname len 0 hzero
  refine ⟨m₃, ?_, ?_, fun a ha => ?_⟩
  · rw [storeEntry, run_bind, run_store, Res.bind_ok, run_bind, run_store, Res.bind_ok, run_store]
    simp only [Kern.setTask, Function.update_self, Function.update_idem, hm₃, hm₂, hm₁, hnb]
  · unfold entryIn HistoryEntry.exited
    rw [hpid, husage, hcname]
  · rw [hoff₃ a (by omega), hoff₂ a (by omega), hoff₁ a (by omega)]

theorem run_copyHistory (me : Pid) (h : History) (hh : ∀ i, Ended (h.entry i).name) (k : Kern) (buf : Word)
    (start n i : Nat) (hfit : buf.toNat + 24 * (i + n) ≤ 2 ^ 32) :
    ∃ mem, (copyHistory me h buf start n i).run k =
      .ok () (k.setTask me { k.task me with mem := mem }) ∧
      (∀ j, j < n → entryIn mem (buf + HISTSZ * .ofNat 32 (i + j)) =
        (h.entry ((start + (i + j)) % MAX_HISTORY)).exited) ∧
      ∀ a, a.toNat < buf.toNat + 24 * i → mem a = (k.task me).mem a := by
  induction n generalizing i k with
  | zero =>
    refine ⟨(k.task me).mem, ?_, fun j hj => absurd hj (Nat.not_lt_zero j), fun _ _ => rfl⟩
    simp [copyHistory, Kern.setTask]
  | succ n ih =>
    have haddr : (buf + HISTSZ * BitVec.ofNat 32 i).toNat = buf.toNat + 24 * i :=
      toNat_entry (by omega)
    obtain ⟨m₁, hrun₁, hentry, hoff₁⟩ := run_storeEntry me k
      (p := buf + HISTSZ * .ofNat 32 i) (by omega) (hh ((start + i) % MAX_HISTORY))
    obtain ⟨m₂, hrun₂, hrest, hoff₂⟩ := ih (k.setTask me { k.task me with mem := m₁ }) (i + 1) (by omega)
    rw [show ((k.setTask me { k.task me with mem := m₁ }).task me).mem = m₁ by simp [Kern.setTask]]
      at hoff₂
    refine ⟨m₂, ?_, fun j hj => ?_, fun a ha => ?_⟩
    · rw [copyHistory, run_bind, hrun₁, Res.bind_ok, hrun₂]
      simp [Kern.setTask]
    · cases j with
      | zero =>
        -- the entries that follow lie above it
        rw [Nat.add_zero, ← hentry]
        exact entryIn_congr (by omega) fun a _ ha => hoff₂ a (by omega)
      | succ j =>
        rw [show i + (j + 1) = i + 1 + j by omega]
        exact hrest j (by omega)
    · rw [hoff₂ a (by omega), hoff₁ a (by omega)]

/-- The buffer as the process table has it. -/
structure Kern.Shows (k : Kern) (t : Ptable) : Prop where
  entry : k.history.entry = t.history
  count : k.history.count = t.historyCount
  index : k.history.index = t.historyIndex

/-- The last `MAX_HISTORY` exits, oldest first. -/
def recent (l : List Exited) : List Exited := l.drop (l.length - MAX_HISTORY)

theorem length_recent (l : List Exited) : (recent l).length = min l.length MAX_HISTORY := by
  rw [recent, List.length_drop]
  omega

theorem run_sysGethistory {t : Ptable} {l : List Exited} (hr : Recorded t l) (hk : k.Shows t)
    {buf maxEntries : Word} {n : Nat} (hbuf : k.intArg me 0 = some buf)
    (hmax : k.intArg me 1 = some maxEntries)
    (hn : (n : Int) = min ((recent l).length : Int) maxEntries.toInt)
    (hroom : buf.toNat + 24 * max 1 n ≤ (k.task me).sz.toNat) :
    ∃ k', (sysGethistory me).run k = .ok (result n) k' ∧
      entriesIn (k'.task me).mem buf n = (recent l).take n := by
  have hlen := length_recent l
  have hcount : k.history.count = (recent l).length := by rw [hk.count, hr.count, hlen]
  have hcopy : k.history.copyCount maxEntries = n := by rw [hn, History.copyCount, hcount]
  have := (k.task me).sz.isLt
  obtain ⟨start, hstart⟩ : ∃ i, i = if k.history.count < MAX_HISTORY then 0 else k.history.index :=
    ⟨_, rfl⟩
  obtain ⟨mem, hrun, hentry, -⟩ := run_copyHistory me k.history
    (by rw [hk.entry]; exact hr.ended) k buf start n 0 (by omega)
  refine ⟨k.setTask me { k.task me with mem := mem }, ?_, ?_⟩
  · rw [sysGethistory, run_bind, run_argptr_of_room hbuf (by omega), Res.bind_ok]
    dsimp only
    rw [run_bind, run_argint, hmax, Res.bind_ok]
    dsimp only
    rw [run_bind, kernel, run_atomic, Res.bind_ok, hcopy, ← hstart, run_bind, Int.toNat_natCast, hrun]
    rfl
  · -- entry `j` is the exit of number `l.length - (recent l).length + j`
    have hplace : ∀ j, j < n → (start + (0 + j)) % MAX_HISTORY =
        (l.length - MAX_HISTORY + j) % MAX_HISTORY := by
      intro j hj
      have hindex : k.history.index = l.length % MAX_HISTORY := by rw [hk.index, hr.index]
      rw [hstart, hcount, hlen, hindex]
      simp only [MAX_HISTORY]
      split <;> omega
    refine List.ext_getElem? fun j => ?_
    by_cases hj : j < n
    · have hget := hr.entry (l.length - MAX_HISTORY + j) (by omega) (by omega)
      rw [List.getElem?_take_of_lt hj, recent, List.getElem?_drop, hget, entriesIn,
        List.getElem?_map, List.getElem?_range hj, Option.map_some]
      have he := hentry j hj
      rw [Nat.zero_add, hk.entry] at he
      simp only [Kern.setTask, Function.update_self]
      rw [he, ← hplace j hj, Nat.zero_add]
    · rw [List.getElem?_eq_none (by simpa [entriesIn] using hj),
        List.getElem?_eq_none (by rw [List.length_take]; omega)]

open ProcSys

section

variable {C : Type} [DecidableEq C] {m : ProcSys C} {l : List Exited}

/-- A call with room for all entries returns the last `MAX_HISTORY` exits, oldest first. -/
theorem gethistory_recent (h : Reaches histStep Named (ProcSys.boot, []) (m, l)) (hk : k.Shows m.table)
    {buf maxEntries : Word} (hbuf : k.intArg me 0 = some buf)
    (hmax : k.intArg me 1 = some maxEntries) (hall : (MAX_HISTORY : Int) ≤ maxEntries.toInt)
    (hroom : buf.toNat + 24 * max 1 (min l.length MAX_HISTORY) ≤ (k.task me).sz.toNat) :
    ∃ k', (sysGethistory me).run k = .ok (result (min l.length MAX_HISTORY : Nat)) k' ∧
      entriesIn (k'.task me).mem buf (min l.length MAX_HISTORY) = recent l := by
  have hlen := length_recent l
  obtain ⟨k', hrun, hmem⟩ := run_sysGethistory (recorded_run h) hk hbuf hmax
    (n := min l.length MAX_HISTORY) (by omega) hroom
  refine ⟨k', hrun, ?_⟩
  rw [hmem, ← hlen, List.take_length]

end

/-- A process with the arguments `0x1000` and `c` on its stack, in front of the table `t`. -/
def caller (t : Ptable) (c : Byte) : Kern where
  fs := Fs.poweron mkfsSb (fun _ => .zero) (fun _ => true) fun _ => none
  task := fun _ =>
    ⟨1, .zero, 0x4000, fun a => if a = 5 then 0x10 else if a = 8 then c else 0, 22, 0⟩
  nextpid := t.nextpid
  history := ⟨t.history, min t.historyCount MAX_HISTORY, t.historyIndex, Nat.min_le_right _ _⟩
  ticks := 0
  images := fun _ => ⟨0, fun _ => 0, 0⟩
  execs := 0

theorem shows_caller {t : Ptable} {l : List Exited} (h : Recorded t l) (c : Byte) :
    (caller t c).Shows t := by
  refine ⟨rfl, ?_, rfl⟩
  show min t.historyCount MAX_HISTORY = t.historyCount
  have := h.count
  omega

theorem intArg_caller (t : Ptable) (c : Byte) : (caller t c).intArg 0 0 = some 0x1000 ∧
    (caller t c).intArg 0 1 = some (0#8 ++ 0#8 ++ 0#8 ++ c) := by
  have hbuf : (caller t c).intArg 0 0 = some (0#8 ++ 0#8 ++ 0x10#8 ++ 0#8) := rfl
  exact ⟨hbuf.trans (by decide), rfl⟩

/-- The first process forks a child. -/
def forkOne : List (ProcEvent Unit) :=
  [.proc () .forkAlloc, .proc () (.forkStack true), .proc () (.forkCopy true), .proc () .forkReady]

/-- Two children are made and both exit. -/
def twoExits : List (ProcEvent Unit) :=
  [.acquire (), .scan (), .resume ()] ++ forkOne ++ forkOne ++
    [.proc () .yield, .back (), .scan (), .resume (), .proc () .exitStart, .proc () .exitEnd,
      .back (), .scan (), .resume (), .proc () .exitStart]

def SetsImage : ProcEvent Unit → Bool
  | .proc _ (.image _ _) => true
  | _ => false

theorem twoExits_run : ∃ (m : ProcSys Unit) (l : List Exited),
    Reaches histStep Named (ProcSys.boot, []) (m, l) ∧
    Reaches histStep (fun x e => PidsLeft x.1 e) (ProcSys.boot, []) (m, l) ∧
    l.map (·.pid) = [2, 3] := by
  have h : ((exec (fun x e => if SetsImage e = false ∧ 0 < x.1.table.nextpid.toInt then histStep x e
      else .sleep) ((ProcSys.boot : ProcSys Unit), []) twoExits).bind fun _ x =>
      (.ok (x.2.map (·.pid)) () : Res SchedPanic (List Word) Unit)) = .ok [2, 3] () := by
    decide +kernel
  obtain ⟨_, ⟨m, l⟩, hx, hl⟩ := Res.bind_eq_ok.1 h
  have hrun := reaches_guarded hx
  refine ⟨m, l, hrun.mono fun x e hC c me sz name he _ => ?_, hrun.mono fun x e hC c _ => hC.2,
    by simpa using hl⟩
  rw [he] at hC
  cases hC.1

/-- Two exits, and a call that asks for a hundred. -/
theorem gethistory_recent_two : ∃ (m : ProcSys Unit) (l : List Exited) (k' : Kern),
    Reaches histStep Named (ProcSys.boot, []) (m, l) ∧ l.map (·.pid) = [2, 3] ∧
    (sysGethistory 0).run (caller m.table 100) = .ok 2 k' ∧ entriesIn (k'.task 0).mem 0x1000 2 = l := by
  obtain ⟨m, l, hrun, -, hpids⟩ := twoExits_run
  have hlen : l.length = 2 := by simpa using congrArg List.length hpids
  obtain ⟨k', hr, hmem⟩ := gethistory_recent hrun (shows_caller (recorded_run hrun) 100)
    (intArg_caller m.table 100).1 (intArg_caller m.table 100).2 (by decide) (by
      rw [hlen]
      show 0x1000 + 24 * _ ≤ 0x4000
      decide)
  rw [hlen] at hr hmem
  refine ⟨m, l, k', hrun, hpids, hr, hmem.trans ?_⟩
  rw [recent, hlen]
  rfl

section

variable {C : Type} [DecidableEq C] {m : ProcSys C} {l : List Exited}

/-- With different ids the first `n` entries are not the last `n`. -/
theorem take_ne_drop {l : List Exited} (hl : (l.map (·.pid)).Nodup) {n : Nat} (hpos : 0 < n)
    (hn : n < l.length) : l.take n ≠ l.drop (l.length - n) := by
  intro he
  have h0 := congrArg (fun l => (l.map (·.pid))[0]?) he
  simp only [List.map_take, List.map_drop, List.getElem?_drop] at h0
  rw [List.getElem?_take_of_lt hpos] at h0
  have := List.nodup_iff_getElem?_ne_getElem?.1 hl 0 (l.length - n) (by omega)
    (by rw [List.length_map]; omega)
  exact this h0

/-- A call with room for fewer entries than there are returns the oldest of them.  Until the process
ids come round these are the most recent exits only if no entry is asked for. -/
theorem gethistory_short (h : Reaches histStep Named (ProcSys.boot, []) (m, l)) (hk : k.Shows m.table)
    {buf maxEntries : Word} {n : Nat} (hbuf : k.intArg me 0 = some buf)
    (hmax : k.intArg me 1 = some maxEntries) (hn : maxEntries.toInt = n)
    (hlt : n < (recent l).length)
    (hroom : buf.toNat + 24 * max 1 n ≤ (k.task me).sz.toNat) :
    (n = 0 → ∃ k', (sysGethistory me).run k = .ok (result n) k' ∧
      entriesIn (k'.task me).mem buf n = l.drop (l.length - n)) ∧
    (Reaches histStep (fun x e => PidsLeft x.1 e) (ProcSys.boot, []) (m, l) →
      ((∃ k', (sysGethistory me).run k = .ok (result n) k' ∧
        entriesIn (k'.task me).mem buf n = l.drop (l.length - n)) ↔ n = 0)) := by
  have hlen := length_recent l
  have hlast : (recent l).drop ((recent l).length - n) = l.drop (l.length - n) := by
    rw [hlen, recent, List.drop_drop]
    congr 1
    omega
  obtain ⟨k', hrun, hmem⟩ := run_sysGethistory (recorded_run h) hk hbuf hmax (n := n) (by omega) hroom
  have hzero : n = 0 → ∃ k', (sysGethistory me).run k = .ok (result n) k' ∧
      entriesIn (k'.task me).mem buf n = l.drop (l.length - n) := by
    intro h0
    refine ⟨k', hrun, ?_⟩
    rw [hmem, h0, List.take_zero, Nat.sub_zero, List.drop_length]
  refine ⟨hzero, fun hleft => ⟨?_, hzero⟩⟩
  rintro ⟨k'', hrun', h'⟩
  rw [hrun] at hrun'
  cases hrun'
  by_contra hne
  have hrecent : ((recent l).map (·.pid)).Nodup := by
    rw [recent, List.map_drop]
    exact (exits_distinct hleft).sublist (List.drop_sublist _ _)
  refine take_ne_drop hrecent (by omega) hlt ?_
  rw [hlast, ← hmem, h']

end

/-- After two exits a call for no entries is right, and a call for one is not. -/
theorem gethistory_short_two : ∃ (m : ProcSys Unit) (l : List Exited),
    Reaches histStep Named (ProcSys.boot, []) (m, l) ∧
    Reaches histStep (fun x e => PidsLeft x.1 e) (ProcSys.boot, []) (m, l) ∧
    1 < (recent l).length ∧
    (∃ k', (sysGethistory 0).run (caller m.table 0) = .ok 0 k' ∧
      entriesIn (k'.task 0).mem 0x1000 0 = l.drop (l.length - 0)) ∧
    ¬∃ k', (sysGethistory 0).run (caller m.table 1) = .ok 1 k' ∧
      entriesIn (k'.task 0).mem 0x1000 1 = l.drop (l.length - 1) := by
  obtain ⟨m, l, hrun, hleft, hpids⟩ := twoExits_run
  have hlen : l.length = 2 := by simpa using congrArg List.length hpids
  have hpos : 1 < (recent l).length := by rw [length_recent, hlen]; decide
  have hnone := (gethistory_short hrun (shows_caller (recorded_run hrun) 0)
    (intArg_caller m.table 0).1 (intArg_caller m.table 0).2 (n := 0) (by decide) (by omega)
    (show 0x1000 + 24 * 1 ≤ 0x4000 by decide)).1 rfl
  have hone := (gethistory_short hrun (shows_caller (recorded_run hrun) 1)
    (intArg_caller m.table 1).1 (intArg_caller m.table 1).2 (n := 1) (by decide) hpos
    (show 0x1000 + 24 * 1 ≤ 0x4000 by decide)).2 hleft
  exact ⟨m, l, hrun, hleft, hpos, hnone, fun h => absurd (hone.1 h) (by decide)⟩

/-- Processes 2 and 3 exit in this order; a call for one entry returns process 2. -/
theorem gethistory_oldest : ∃ (m : ProcSys Unit) (l : List Exited) (k' : Kern),
    Reaches histStep Named (ProcSys.boot, []) (m, l) ∧ 1 < (recent l).length ∧
    (sysGethistory 0).run (caller m.table 1) = .ok 1 k' ∧
    (entriesIn (k'.task 0).mem 0x1000 1).map (·.pid) = [2] ∧
    (l.drop (l.length - 1)).map (·.pid) = [3] := by
  obtain ⟨m, l, hrun, -, hpids⟩ := twoExits_run
  have hlen : l.length = 2 := by simpa using congrArg List.length hpids
  have hrec : recent l = l := by
    rw [recent, hlen]
    rfl
  obtain ⟨k', hr, hmem⟩ := run_sysGethistory (recorded_run hrun) (shows_caller (recorded_run hrun) 1)
    (intArg_caller m.table 1).1 (intArg_caller m.table 1).2 (n := 1) (by
      rw [hrec, hlen]
      decide) (show 0x1000 + 24 * 1 ≤ 0x4000 by decide)
  refine ⟨m, l, k', hrun, by rw [hrec, hlen]; decide, hr, ?_, ?_⟩
  · rw [hmem, hrec, List.map_take, hpids]
    rfl
  · rw [List.map_drop, hpids, hlen]
    rfl

end Trap

end Xv6
