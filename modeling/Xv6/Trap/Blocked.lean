import Xv6.Trap.Dispatch
import Xv6.Lib.Runs

/-!
# Blocked system calls

`block(n)` sets a flag that only `unblock(n)` clears, and the dispatcher turns down a call
whose flag is set, except `exec`.  The flags of `fork`, `exit` and `unblock` are never set.
-/

namespace Xv6.Trap

open Bytes Conc

variable {sb : Superblock} {me : Pid} {s s' : Sys} {t : TrapEvent}

/-! ## What the parts of a call do -/

theorem run_rest {α : Type} (p : U α) (s : Sys) :
    (rest p).run s = (p.run s.kern).bind fun a k => .ok a { s with kern := k } :=
  Prog.run_zoom (by intros; rfl) (by intros; rfl) (by intros; rfl) p s

/-- The nth argument as `argint` finds it. -/
def Kern.intArg (k : Kern) (me : Pid) (n : Nat) : Option Word :=
  match (argint me n).run k with
  | .ok r _ => r
  | _ => none

theorem run_argint (k : Kern) (me : Pid) (n : Nat) :
    (argint me n).run k = .ok (k.intArg me n) k := by
  have h : ∃ r, (argint me n).run k = .ok r k := by
    simp only [argint, fetchint, task, kernel, Prog.run_bind, Prog.run_atomic, Res.bind_ok]
    split
    · exact ⟨none, rfl⟩
    · exact ⟨_, rfl⟩
  obtain ⟨r, hr⟩ := h
  rw [Kern.intArg, hr]

theorem run_sysBlock : (sysBlock me).run s = .ok
    (match (s.kern.intArg me 0).bind sysid with
      | some n => if critical n then -1 else 0
      | none => -1)
    (match (s.kern.intArg me 0).bind sysid with
      | some n => if critical n then s else { s with blocked := Function.update s.blocked n true }
      | none => s) := by
  simp only [sysBlock, Prog.run_bind, run_rest, run_argint, Res.bind_ok]
  cases s.kern.intArg me 0 with
  | none => rfl
  | some w =>
    simp only [Option.bind_some]
    cases sysid w with
    | none => rfl
    | some n =>
      dsimp only
      split
      · rfl
      · simp only [setBlocked, Prog.run_bind, Prog.run_atomic, Res.bind_ok, Prog.run_pure]

theorem run_sysUnblock : (sysUnblock me).run s = .ok
    (match (s.kern.intArg me 0).bind sysid with
      | some _ => 0
      | none => -1)
    (match (s.kern.intArg me 0).bind sysid with
      | some n => { s with blocked := Function.update s.blocked n false }
      | none => s) := by
  simp only [sysUnblock, Prog.run_bind, run_rest, run_argint, Res.bind_ok]
  cases s.kern.intArg me 0 with
  | none => rfl
  | some w =>
    simp only [Option.bind_some]
    cases sysid w with
    | none => rfl
    | some n => simp only [setBlocked, Prog.run_bind, Prog.run_atomic, Res.bind_ok, Prog.run_pure]

/-- What `syscall` may do to the flags. -/
inductive Flags (s : Sys) (me : Pid) : (Fin MAX_SYSCALLS → Bool) → Prop
  | same : Flags s me s.blocked
  | block (n : Fin MAX_SYSCALLS) (ok : ¬critical n) : Flags s me (Function.update s.blocked n true)
  | unblock (n : Fin MAX_SYSCALLS) (call : (s.kern.task me).call = some .unblock)
      (arg : (s.kern.intArg me 0).bind sysid = some n) :
      Flags s me (Function.update s.blocked n false)

theorem flags_setEax {r : Word} {a : Unit} (h : (setEax me r).run s = .ok a s') :
    s'.blocked = s.blocked := by
  simp only [setEax, setTask, kernel, run_rest, Prog.run_atomic, Res.bind_ok] at h
  cases h
  rfl

theorem flags_code {c : Sysno} (hcall : (s.kern.task me).call = some c) {r : Option Word}
    (h : (c.code sb me).run s = .ok r s') : Flags s me s'.blocked := by
  have hrest : ∀ {p : U (Option Word)}, (rest p).run s = .ok r s' → Flags s me s'.blocked := by
    intro p hp
    rw [run_rest] at hp
    obtain ⟨a, k, -, hk⟩ := Res.bind_eq_ok.1 hp
    cases hk
    exact .same
  cases c with
  | block =>
    rw [Sysno.code, map_eq_pure_bind, Prog.run_bind, run_sysBlock, Res.bind_ok, Prog.run_pure] at h
    injection h with _ h
    subst h
    cases hn : (s.kern.intArg me 0).bind sysid with
    | none => exact .same
    | some n =>
      dsimp only
      split
      · exact .same
      · next hc => exact .block n hc
  | unblock =>
    rw [Sysno.code, map_eq_pure_bind, Prog.run_bind, run_sysUnblock, Res.bind_ok, Prog.run_pure] at h
    injection h with _ h
    subst h
    cases hn : (s.kern.intArg me 0).bind sysid with
    | none => exact .same
    | some n => exact .unblock n hcall hn
  | _ => exact hrest h

theorem run_syscall_blocked {c : Sysno} (hcall : (s.kern.task me).call = some c)
    (hb : s.blocked c.num = true) (hc : c ≠ .exec) : (syscall sb me).run s = .ok () { s with
      kern := s.kern.setTask me { s.kern.task me with eax := -1 }
      printed := s.printed ++ [.blocked (s.kern.task me).eax] } := by
  simp [syscall, task, kernel, run_rest, hcall, hb, hc, print, setEax, setTask]

theorem run_syscall_unknown (hcall : (s.kern.task me).call = none) :
    (syscall sb me).run s = .ok () { s with
      kern := s.kern.setTask me { s.kern.task me with eax := -1 }
      printed := s.printed ++
        [.unknown (s.kern.task me).pid (s.kern.task me).name (s.kern.task me).eax] } := by
  simp [syscall, task, kernel, run_rest, hcall, print, setEax, setTask]

theorem run_syscall_dispatch {c : Sysno} (hcall : (s.kern.task me).call = some c)
    (hb : s.blocked c.num = false ∨ c = .exec) :
    (syscall sb me).run s = (dispatch sb me c).run s := by
  have hcond : ¬(s.blocked c.num = true ∧ c ≠ .exec) := by
    rintro ⟨h, hne⟩
    rcases hb with hb | hb
    · rw [hb] at h
      cases h
    · exact hne hb
  simp only [syscall, task, kernel, run_rest, Prog.run_bind, Prog.run_atomic, Res.bind_ok, hcall]
  rw [if_neg hcond]

theorem flags_syscall (h : (syscall sb me).run s = .ok () s') : Flags s me s'.blocked := by
  cases hcall : (s.kern.task me).call with
  | none =>
    rw [run_syscall_unknown hcall] at h
    cases h
    exact .same
  | some c =>
    by_cases hb : s.blocked c.num = true ∧ c ≠ .exec
    · rw [run_syscall_blocked hcall hb.1 hb.2] at h
      cases h
      exact .same
    · have hb' : s.blocked c.num = false ∨ c = .exec := by
        by_cases he : c = .exec
        · exact Or.inr he
        · exact Or.inl (by simpa [he] using hb)
      rw [run_syscall_dispatch hcall hb', dispatch] at h
      obtain ⟨r, s₁, hr, h⟩ := Prog.run_bind_eq_ok.1 h
      have hflags := flags_code hcall hr
      cases r with
      | none =>
        cases h
        exact hflags
      | some r =>
        rw [flags_setEax h]
        exact hflags

/-! ## Runs -/

theorem trapStep_ok (h : trapStep sb s t = .ok () s') :
    Fs.Live (s.kern.fs.proc t.me) ∧ (syscall sb t.me).run (s.enter t) = .ok () s' := by
  unfold trapStep at h
  split at h
  · next hl => exact ⟨hl, h⟩
  · cases h

def Calls (c : Sysno) (w : Word) (s : Sys) (t : TrapEvent) : Prop :=
  ((s.enter t).kern.task t.me).call = some c ∧ (s.enter t).kern.intArg t.me 0 = some w

theorem sysid_eq_some {w : Word} {n : Fin MAX_SYSCALLS} (h : sysid w = some n) : w.toInt = n.1 := by
  unfold sysid at h
  split at h
  · next hw =>
    cases h
    exact (Int.toNat_of_nonneg hw.1).symm
  · cases h

theorem sysid_inj {w w' : Word} {n : Fin MAX_SYSCALLS} (h : sysid w = some n)
    (h' : sysid w' = some n) : w = w' :=
  BitVec.eq_of_toInt_eq ((sysid_eq_some h).trans (sysid_eq_some h').symm)

theorem critical_clear {s₀ : Sys} (h0 : s₀.blocked = fun _ => false)
    (h : Reaches (trapStep sb) anyEvent s₀ s) (n : Fin MAX_SYSCALLS) (hn : critical n) :
    s.blocked n = false := by
  refine h.inv (I := fun s => s.blocked n = false) (by rw [h0]) ?_
  rintro s t s' hs - hst
  generalize hf : s'.blocked = f
  have hflags := flags_syscall (trapStep_ok hst).2
  rw [hf] at hflags
  cases hflags with
  | same => exact hs
  | block m ok =>
    have hne : n ≠ m := by
      rintro rfl
      exact ok hn
    rw [Function.update_of_ne hne]
    exact hs
  | unblock m call arg =>
    by_cases hm : n = m
    · rw [hm, Function.update_self]
    · rw [Function.update_of_ne hm]
      exact hs

theorem blocked_kept {w : Word} {n : Fin MAX_SYSCALLS} (hn : sysid w = some n)
    (hs : s.blocked n = true)
    (h : Reaches (trapStep sb) (fun s t => ¬Calls .unblock w s t) s s') : s'.blocked n = true := by
  refine h.inv (I := fun s => s.blocked n = true) hs ?_
  intro s t s' hs hnot hst
  generalize hf : s'.blocked = f
  have hflags := flags_syscall (trapStep_ok hst).2
  rw [hf] at hflags
  cases hflags with
  | same => exact hs
  | block m ok =>
    by_cases hm : n = m
    · rw [hm, Function.update_self]
    · rw [Function.update_of_ne hm]
      exact hs
  | unblock m call arg =>
    have hm : n ≠ m := by
      rintro rfl
      obtain ⟨w', hw', hid⟩ := Option.bind_eq_some_iff.1 arg
      rw [sysid_inj hid hn] at hw'
      exact hnot ⟨call, hw'⟩
    rw [Function.update_of_ne hm]
    exact hs

theorem blocked_of_block {w : Word} (hcalls : Calls .block w s t) (hst : trapStep sb s t = .ok () s')
    (heax : (s'.kern.task t.me).eax = 0) : ∃ n, sysid w = some n ∧ s'.blocked n = true := by
  obtain ⟨hcall, harg⟩ := hcalls
  obtain ⟨-, h⟩ := trapStep_ok hst
  have hset : ∀ {u u' : Sys} {r : Word}, (setEax t.me r).run u = .ok () u' →
      (u'.kern.task t.me).eax = r ∧ u'.blocked = u.blocked := by
    intro u u' r hr
    simp only [setEax, setTask, kernel, run_rest, Prog.run_atomic, Res.bind_ok] at hr
    cases hr
    simp [Kern.setTask]
  by_cases hb : (s.enter t).blocked Sysno.block.num = true
  · rw [run_syscall_blocked hcall hb nofun] at h
    cases h
    simp [Kern.setTask] at heax
  · rw [run_syscall_dispatch hcall (Or.inl (by simpa using hb)), dispatch, Prog.run_bind,
      Sysno.code, map_eq_pure_bind, Prog.run_bind, run_sysBlock, Res.bind_ok, Prog.run_pure,
      Res.bind_ok, harg, Option.bind_some] at h
    cases hid : sysid w with
    | none =>
      rw [hid] at h
      rw [(hset h).1] at heax
      simp at heax
    | some n =>
      rw [hid] at h
      dsimp only at h
      split at h
      · rw [(hset h).1] at heax
        simp at heax
      · refine ⟨n, rfl, ?_⟩
        rw [(hset h).2]
        simp

theorem call_eq_some {x : Task} {c : Sysno} (h : x.call = some c) : x.eax.toInt = c.num.1 := by
  unfold Task.call at h
  split at h
  · next hpos =>
    rw [← Sysno.ofNum_eq_some.1 h]
    omega
  · cases h

theorem unblock_clears {w : Word} {n : Fin MAX_SYSCALLS} (hn : sysid w = some n)
    (hcalls : Calls .unblock w s t) (hb : s.blocked Sysno.unblock.num = false)
    (hlive : Fs.Live (s.kern.fs.proc t.me)) : ∃ s', trapStep sb s t = .ok () s' ∧
      (s'.kern.task t.me).eax = 0 ∧ s'.blocked = Function.update s.blocked n false := by
  obtain ⟨hcall, harg⟩ := hcalls
  rw [trapStep, if_pos hlive, run_syscall_dispatch hcall (Or.inl hb), dispatch, Prog.run_bind,
    Sysno.code, map_eq_pure_bind, Prog.run_bind, run_sysUnblock, Res.bind_ok, Prog.run_pure,
    Res.bind_ok, harg, Option.bind_some, hn]
  refine ⟨_, by simp only [setEax, setTask, kernel, run_rest, Prog.run_atomic, Res.bind_ok]; rfl, ?_, rfl⟩
  simp [Kern.setTask]

/-- A blocked system call stays blocked until unblocked, `exec` excepted: after a `block(w)` that
returned 0, until an `unblock(w)` is made, a call of number `w` by any process changes nothing but
the caller's `eax`, which becomes -1.  In every state `fork`, `exit` and `unblock` are
dispatched, and `unblock` clears the flag. -/
theorem blocked_until_unblocked {s₀ : Sys} (h0 : s₀.blocked = fun _ => false)
    (hreach : Reaches (trapStep sb) anyEvent s₀ s) :
    (∀ t s₁ w, Calls .block w s t → trapStep sb s t = .ok () s₁ → (s₁.kern.task t.me).eax = 0 →
      ∀ s₂, Reaches (trapStep sb) (fun s t => ¬Calls .unblock w s t) s₁ s₂ →
      ∀ t', t'.eax = w → w.toInt ≠ Sysno.exec.num.1 → Fs.Live (s₂.kern.fs.proc t'.me) →
      ∃ s₃, trapStep sb s₂ t' = .ok () s₃ ∧ s₃.blocked = s₂.blocked ∧
        s₃.kern = (s₂.enter t').kern.setTask t'.me
          { (s₂.enter t').kern.task t'.me with eax := -1 }) ∧
    (∀ t c, c = .fork ∨ c = .exit ∨ c = .unblock →
      ((s.enter t).kern.task t.me).call = some c → Fs.Live (s.kern.fs.proc t.me) →
      trapStep sb s t = (dispatch sb t.me c).run (s.enter t)) ∧
    ∀ t w n, sysid w = some n → Calls .unblock w s t → Fs.Live (s.kern.fs.proc t.me) →
      ∃ s', trapStep sb s t = .ok () s' ∧ (s'.kern.task t.me).eax = 0 ∧
        s'.blocked = Function.update s.blocked n false := by
  have hclear := critical_clear h0 hreach
  refine ⟨fun t s₁ w hcalls hst heax s₂ hkeep t' hw hexec hlive => ?_, fun t c hc hcall hlive => ?_,
    fun t w n hn hcalls hlive => unblock_clears hn hcalls (hclear _ (by decide)) hlive⟩
  · obtain ⟨n, hn, hset⟩ := blocked_of_block hcalls hst heax
    have hflag := blocked_kept hn hset hkeep
    have heax' : ((s₂.enter t').kern.task t'.me).eax = w := by
      simp [Sys.enter, Kern.setTask, hw]
    have hstep : trapStep sb s₂ t' = (syscall sb t'.me).run (s₂.enter t') := if_pos hlive
    rw [hstep]
    cases hcall : ((s₂.enter t').kern.task t'.me).call with
    | none => exact ⟨_, run_syscall_unknown hcall, rfl, rfl⟩
    | some c =>
      have hnum : n = c.num := by
        have h1 := call_eq_some hcall
        rw [heax', sysid_eq_some hn] at h1
        exact Fin.ext (by exact_mod_cast h1)
      have hne : c ≠ .exec := by
        rintro rfl
        rw [sysid_eq_some hn, hnum] at hexec
        exact hexec rfl
      rw [hnum] at hflag
      exact ⟨_, run_syscall_blocked hcall hflag hne, rfl, rfl⟩
  · have hcrit : critical c.num := by
      rcases hc with rfl | rfl | rfl <;> decide
    rw [trapStep, if_pos hlive]
    exact run_syscall_dispatch hcall (Or.inl (hclear c.num hcrit))

/-! ## A small system -/

/-- One process in a directory, with a page of memory. -/
def oneProcess : Sys where
  kern :=
    { fs :=
        { Fs.poweron mkfsSb (fun _ => .zero) (fun _ => true) (fun _ => none) with
          icache := fun i =>
            if i = 0 then ⟨1, 1, 1, none, true, { Dinode.zero with type := T_DIR, mode := 7 }⟩
            else ⟨0, 0, 0, none, false, Dinode.zero⟩
          proc := fun p => if p = 0 then ⟨.running, none, false, fun _ => none, some 0⟩
            else ⟨.unused, none, false, fun _ => none, none⟩ }
      task := fun _ => ⟨1, .zero, 4096, fun _ => 0, 0, 0⟩
      nextpid := 2
      history := ⟨fun _ => ⟨0, .zero, 0⟩, 0, 0, by decide⟩
      ticks := 0
      images := fun _ => ⟨4096, fun _ => 0, 4096⟩
      execs := 0 }
  blocked := fun _ => false
  printed := []

/-- The process calls `num` with one or two small arguments on its stack. -/
def callWith (num arg0 arg1 : Byte) : TrapEvent where
  me := 0
  eax := num.setWidth 32
  esp := 0
  mem := fun a => if a = 4 then arg0 else if a = 8 then arg1 else 0

/-- `block(SYS_read)`, and then `read` is turned down. -/
theorem blocked_until_unblocked_read : ∃ s₁ s₃,
    trapStep mkfsSb oneProcess (callWith 23 5 0) = .ok () s₁ ∧ (s₁.kern.task 0).eax = 0 ∧
    trapStep mkfsSb s₁ (callWith 5 0 0) = .ok () s₃ ∧ (s₃.kern.task 0).eax = -1 := by
  obtain ⟨s₁, hst, heax, hlive⟩ : ∃ s₁,
      trapStep mkfsSb oneProcess (callWith 23 5 0) = .ok () s₁ ∧ (s₁.kern.task 0).eax = 0 ∧
      Fs.Live (s₁.kern.fs.proc 0) := ⟨_, rfl, rfl, by decide⟩
  obtain ⟨s₃, h3, -, hkern⟩ := (@blocked_until_unblocked mkfsSb oneProcess oneProcess rfl .refl).1
    (callWith 23 5 0) s₁ 5 ⟨rfl, rfl⟩ hst heax s₁ .refl (callWith 5 0 0) rfl (by decide) hlive
  exact ⟨s₁, s₃, hst, heax, h3, by rw [hkern]; simp [Kern.setTask, callWith]⟩

/-- `block(SYS_exec)` returns 0, and `exec` of the own directory still runs: it fails, but it has
changed the kernel, since it leaves one more reference to the inode. -/
theorem exec_not_blocked : ∃ s₁ s₃, Calls .block 7 oneProcess (callWith 23 7 0) ∧
    trapStep mkfsSb oneProcess (callWith 23 7 0) = .ok () s₁ ∧ (s₁.kern.task 0).eax = 0 ∧
    trapStep mkfsSb s₁ (callWith 7 100 104) = .ok () s₃ ∧
    (s₁.kern.fs.icache 0).ref = 1 ∧ (s₃.kern.fs.icache 0).ref = 2 := by
  have h : ((trapStep mkfsSb oneProcess (callWith 23 7 0)).bind fun _ s₁ =>
      (trapStep mkfsSb s₁ (callWith 7 100 104)).bind fun _ s₃ =>
      (.ok (decide ((s₁.kern.task 0).eax = 0 ∧ (s₁.kern.fs.icache 0).ref = 1 ∧
        (s₃.kern.fs.icache 0).ref = 2)) () : Res Panic Bool Unit)) = .ok true () := by
    decide +kernel
  obtain ⟨_, s₁, h1, h⟩ := Res.bind_eq_ok.1 h
  obtain ⟨_, s₃, h3, h⟩ := Res.bind_eq_ok.1 h
  have hd : decide ((s₁.kern.task 0).eax = 0 ∧ (s₁.kern.fs.icache 0).ref = 1 ∧
      (s₃.kern.fs.icache 0).ref = 2) = true := by simpa using h
  obtain ⟨heax, href, href'⟩ := of_decide_eq_true hd
  exact ⟨s₁, s₃, ⟨rfl, rfl⟩, h1, heax, h3, href, href'⟩

end Xv6.Trap
