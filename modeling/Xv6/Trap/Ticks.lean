import Xv6.Lib.Monitor
import Xv6.Lib.Bytes

/-!
# `sys_sleep` and the timer

The timer interrupt of CPU 0 adds one to `ticks` and wakes everybody on `&ticks`; `sys_sleep(n)` waits
until `ticks - ticks0`, in unsigned arithmetic, is no longer below `n`.  Both are sections of `tickslock`.
`count` is history: the number of all ticks, of which `ticks` is the value modulo `2^32`.
-/

namespace Xv6.Ticks

open Bytes Conc

structure Clock where
  ticks : Word
  count : Nat

/-- Where a process is; the interrupt handler runs in whatever process is there. -/
inductive Loc where
  | idle
  /-- in the timer interrupt -/
  | tick
  | sysSleep (n : Word)
  /-- in the loop of `sys_sleep`, which was called when `count` was `since` -/
  | loop (n ticks0 : Word) (since : Nat)
  /-- `sys_sleep(n)` returned `r` after `passed` ticks -/
  | ret (r : Int) (n : Word) (passed : Nat)
deriving DecidableEq

/-- The timer interrupt of CPU 0. -/
def trap (x : Clock) : Turn Unit Loc × Clock := (⟨[()], none, .idle⟩, ⟨x.ticks + 1, x.count + 1⟩)

/-- The loop of `sys_sleep`, from holding `tickslock` to giving it up. -/
def sysSleep (killed : Bool) (n ticks0 : Word) (since : Nat) (x : Clock) : Turn Unit Loc × Clock :=
  if x.ticks - ticks0 < n then
    if killed then (⟨[], none, .ret (-1) n (x.count - since)⟩, x)
    else (⟨[], some (), .loop n ticks0 since⟩, x)
  else (⟨[], none, .ret 0 n (x.count - since)⟩, x)

def code (killed : Bool) (l : Loc) (x : Clock) : Res Empty (Turn Unit Loc) Clock :=
  let ran (r : Turn Unit Loc × Clock) := Res.ok r.1 r.2
  match l with
  | .tick => ran (trap x)
  | .sysSleep n => ran (sysSleep killed n x.ticks x.count x)
  | .loop n ticks0 since => ran (sysSleep killed n ticks0 since x)
  | .idle => .sleep
  | .ret .. => .sleep

/-- Outside of the sections an interrupt or a call may come. -/
def calls : Loc → Loc → Bool
  | .idle, .tick | .idle, .sysSleep _ | .ret .., .tick | .ret .., .sysSleep _ => true
  | _, _ => false

def tickMonitor : Monitor Unit Loc Clock Empty := ⟨code, calls⟩

abbrev TickSys (P : Type) := Procs P Unit Loc Clock

def tickInit {P : Type} : TickSys P := .init ⟨0, 0⟩ .idle

/-- What holds of a process at `l`. -/
def Loc.Ok (x : Clock) (killed : Bool) : Loc → Prop
  | .loop _ ticks0 since => ticks0 = .ofNat 32 since ∧ since ≤ x.count
  | .ret r n passed => (r = 0 ∧ n.toNat ≤ passed) ∨ (r = -1 ∧ killed = true)
  | _ => True

variable {P : Type} [DecidableEq P] {s : TickSys P} {x : Clock}

theorem toNat_elapsed {c d : Nat} (h : d ≤ c) :
    (BitVec.ofNat 32 c - BitVec.ofNat 32 d).toNat = (c - d) % 2 ^ 32 := by
  rw [BitVec.toNat_sub, BitVec.toNat_ofNat, BitVec.toNat_ofNat]
  omega

theorem sysSleep_ok (killed : Bool) (n : Word) {ticks0 : Word} {since : Nat}
    (hx : x.ticks = .ofNat 32 x.count) (h0 : ticks0 = .ofNat 32 since) (hle : since ≤ x.count) :
    (sysSleep killed n ticks0 since x).2 = x ∧
    (sysSleep killed n ticks0 since x).1.next.Ok x killed ∧
    ((sysSleep killed n ticks0 since x).1.parks = some () →
      (sysSleep killed n ticks0 since x).1.next = .loop n ticks0 since ∧
        (x.count - since) % 2 ^ 32 < n.toNat) := by
  have hel := toNat_elapsed hle
  rw [← hx, ← h0] at hel
  unfold sysSleep
  split
  · next hlt =>
    rw [BitVec.lt_def, hel] at hlt
    split
    · next hk => exact ⟨rfl, Or.inr ⟨rfl, hk⟩, fun h => by cases h⟩
    · exact ⟨rfl, ⟨h0, hle⟩, fun _ => ⟨rfl, hlt⟩⟩
  · next hge =>
    rw [BitVec.lt_def, hel] at hge
    have := Nat.mod_le (x.count - since) (2 ^ 32)
    exact ⟨rfl, Or.inl ⟨rfl, by omega⟩, fun h => by cases h⟩

structure Inv (s : TickSys P) : Prop where
  clock : s.data.ticks = .ofNat 32 s.data.count
  loc : ∀ p, (s.loc p).Ok s.data (s.killed p)
  asleep : ∀ p, s.asleep p = some () →
    ∃ n ticks0 since, s.loc p = .loop n ticks0 since ∧ (s.data.count - since) % 2 ^ 32 < n.toNat

theorem Loc.Ok.mono {x' : Clock} {k k' : Bool} {l : Loc} (h : l.Ok x k) (hle : x.count ≤ x'.count)
    (hk : k = true → k' = true) : l.Ok x' k' := by
  cases l with
  | loop n ticks0 since => exact ⟨h.1, h.2.trans hle⟩
  | ret r n passed => exact h.imp id fun h => ⟨h.1, hk h.2⟩
  | _ => trivial

/-- A process has run a section of `sys_sleep`. -/
theorem Inv.slept (h : Inv s) (p : P) {n ticks0 : Word} {since : Nat}
    (h0 : ticks0 = .ofNat 32 since) (hle : since ≤ s.data.count) :
    let r := sysSleep (s.killed p) n ticks0 since s.data
    Inv { s with
      data := r.2
      loc := Function.update s.loc p r.1.next
      asleep := Function.update (wake r.1.wakes s.asleep) p r.1.parks } := by
  intro r
  obtain ⟨hdata, hnext, hpark⟩ := sysSleep_ok (s.killed p) n h.clock h0 hle
  refine ⟨by rw [hdata]; exact h.clock, fun q => ?_, fun q hq => ?_⟩
  · rw [hdata]
    rcases eq_or_ne q p with rfl | hqp
    · simpa using hnext
    · simpa [hqp] using h.loc q
  · rw [hdata]
    rcases eq_or_ne q p with rfl | hqp
    · obtain ⟨hl, hlt⟩ := hpark (by simpa using hq)
      exact ⟨n, ticks0, since, by simpa using hl, hlt⟩
    · have hq' : s.asleep q = some () := (wake_eq_some.1 (by simpa [hqp] using hq)).1
      simpa [hqp] using h.asleep q hq'

theorem Inv.step {s' : TickSys P} {a : Act P Loc} (h : Inv s) (hst : tickMonitor.step s a = .ok () s') :
    Inv s' := by
  obtain ⟨p, t, d, -, -, hc, rfl⟩ | ⟨p, l, -, hp, hcall, rfl⟩ | ⟨p, -, rfl⟩ := Monitor.step_cases hst
  · change code (s.killed p) (s.loc p) s.data = .ok t d at hc
    have hloc := h.loc p
    cases hl : s.loc p with
    | idle | ret r n passed => rw [hl] at hc; cases hc
    | tick =>
      rw [hl] at hc
      cases hc
      refine ⟨?_, fun q => ?_, fun q hq => ?_⟩
      · show s.data.ticks + 1 = .ofNat 32 (s.data.count + 1)
        rw [h.clock, BitVec.ofNat_add]
        rfl
      · rcases eq_or_ne q p with rfl | hqp
        · simp [trap, Loc.Ok]
        · simpa [hqp] using (h.loc q).mono (Nat.le_succ _) id
      · -- everybody was woken
        rcases eq_or_ne q p with rfl | hqp
        · simp [trap] at hq
        · simp [trap, hqp, wake_eq_some] at hq
    | sysSleep n =>
      rw [hl] at hc
      cases hc
      exact h.slept p h.clock le_rfl
    | loop n ticks0 since =>
      rw [hl] at hc hloc
      cases hc
      exact h.slept p hloc.1 hloc.2
  · refine ⟨h.clock, fun q => ?_, fun q hq => ?_⟩
    · rcases eq_or_ne q p with rfl | hqp
      · cases l <;> simp_all [tickMonitor, calls, Loc.Ok]
      · simpa [hqp] using h.loc q
    · have hqp : q ≠ p := by
        rintro rfl
        rw [hp] at hq
        cases hq
      simpa [hqp] using h.asleep q hq
  · refine ⟨h.clock, fun q => (h.loc q).mono le_rfl fun hk => ?_, fun q hq => ?_⟩
    · rcases eq_or_ne q p with rfl | hqp
      · simp
      · simpa [hqp] using hk
    · rcases eq_or_ne q p with rfl | hqp
      · simp at hq
      · exact h.asleep q (by simpa [hqp] using hq)

/-- `sys_sleep(n)` that returns 0 has waited for at least `n` ticks, one that returns -1 was killed; and
who sleeps on `&ticks` has not waited for its `n` ticks yet, modulo 2^32 as `ticks` counts them. -/
theorem sleep_lasts (h : Reaches (tickMonitor.step (P := P)) anyEvent tickInit s) :
    (∀ p r n passed, s.loc p = .ret r n passed →
      (r = 0 ∧ n.toNat ≤ passed) ∨ (r = -1 ∧ s.killed p = true)) ∧
    ∀ p, s.asleep p = some () → ∃ n ticks0 since, s.loc p = .loop n ticks0 since ∧
      (s.data.count - since) % 2 ^ 32 < n.toNat := by
  have hinv : Inv s := by
    refine h.inv ⟨rfl, fun p => trivial, fun p hp => by cases hp⟩ fun s a s' hi _ hst => hi.step hst
  refine ⟨fun p r n passed hl => ?_, hinv.asleep⟩
  have hloc := hinv.loc p
  rwa [hl] at hloc

/-- A process sleeps for two ticks; the third section after the second tick returns. -/
theorem sleep_lasts_two : ∃ s : TickSys Bool,
    Reaches (tickMonitor.step (P := Bool)) anyEvent tickInit s ∧ s.loc true = .ret 0 2 2 ∧
      (2 : Word).toNat ≤ 2 := by
  have h : ((exec (tickMonitor.step (P := Bool)) tickInit [.call true (.sysSleep 2), .run true,
      .call false .tick, .run false, .run true, .call false .tick, .run false, .run true]).bind
      fun _ s => (.ok (decide (s.loc true = .ret 0 2 2)) () : Res Empty Bool Unit)) = .ok true () := by
    decide +kernel
  obtain ⟨_, s, hs, ht⟩ := Res.bind_eq_ok.1 h
  simp only [Res.ok.injEq, decide_eq_true_eq, and_true] at ht
  have hreach := reaches_exec hs
  rcases (sleep_lasts hreach).1 true 0 2 2 ht with hpass | hkill
  · exact ⟨s, hreach, ht, hpass.2⟩
  · exact absurd hkill.1 (by decide)

end Xv6.Ticks
