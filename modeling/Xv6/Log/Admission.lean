import Xv6.Log.Protocol
import Xv6.Log.Disk

/-!
# Admission control of the log

Any number of processes call `begin_op`, `log_write` and `end_op`, each call one
step; an operation logs at most `MAXOPBLOCKS` distinct blocks.  `begin_op` admits
an operation while the reservation

    log.lh.n + (log.outstanding + 1) * MAXOPBLOCKS

is at most `LOGSIZE`, but the area `mkfs` reserves holds the header and only
`LOGSIZE - 1` blocks, and `log_write` tests the capacity before it looks for the
block in the header.  So three full operations reach the panic
(`log_full_reaches_panic`).  Had `begin_op` admitted operations only up to a
reservation of `log.size - 2`, no run would (`no_panic_of_spare`).
-/

namespace Xv6

open Conc

variable {P : Type} [DecidableEq P]

/-- The log, and for each process the distinct blocks its current operation has logged. -/
structure OpState (P : Type) where
  log : Log
  ops : P → Option (List Nat)

inductive OpEvent (P : Type) where
  | beginOp (p : P)
  | logWrite (p : P) (b : Nat)
  | endOp (p : P)

/-- One call.  A call that its process cannot make now (an operation inside an operation, or
beyond the budget of `MAXOPBLOCKS` blocks) does not happen. -/
def opStep (s : OpState P) : OpEvent P → Res Panic Unit (OpState P)
  | .beginOp p =>
    match s.ops p with
    | some _ => .sleep
    | none => s.log.beginOp.bind fun _ l => .ok () ⟨l, Function.update s.ops p (some [])⟩
  | .logWrite p b =>
    match s.ops p with
    | none => .sleep
    | some S =>
      if (S.insert b).length ≤ MAXOPBLOCKS then
        (s.log.logWrite b).bind fun _ l =>
          .ok () ⟨l, Function.update s.ops p (some (S.insert b))⟩
      else .sleep
  | .endOp p =>
    match s.ops p with
    | none => .sleep
    | some _ => s.log.endOp.bind fun _ l => .ok () ⟨l, Function.update s.ops p none⟩

/-- A freshly booted system on a log area of `nlog` blocks. -/
def opInit (nlog : Nat) : OpState P := ⟨Log.init nlog, fun _ => none⟩

/-- An operation is admitted only while the reservation leaves one block of the log unused. -/
def Spare (s : OpState P) : OpEvent P → Prop
  | .beginOp _ =>
    (s.log.lh.length : Int) + (s.log.outstanding + 1) * MAXOPBLOCKS ≤ s.log.size - 2
  | _ => True

theorem opStep_cases {s t : OpState P} {e : OpEvent P} (h : opStep s e = .ok () t) :
    (∃ p, e = .beginOp p ∧ s.ops p = none ∧ s.log.committing = false ∧
      t = ⟨{ s.log with outstanding := s.log.outstanding + 1 },
        Function.update s.ops p (some [])⟩) ∨
    (∃ p b S, e = .logWrite p b ∧ s.ops p = some S ∧ (S.insert b).length ≤ MAXOPBLOCKS ∧
      t = ⟨s.log.logAppend b, Function.update s.ops p (some (S.insert b))⟩) ∨
    (∃ p S, e = .endOp p ∧ s.ops p = some S ∧ s.log.outstanding = 1 ∧
      t = ⟨{ s.log with outstanding := 0, lh := [], committing := false },
        Function.update s.ops p none⟩) ∨
    (∃ p S, e = .endOp p ∧ s.ops p = some S ∧ s.log.committing = false ∧
      t = ⟨{ s.log with outstanding := s.log.outstanding - 1 }, Function.update s.ops p none⟩) := by
  cases e with
  | beginOp p =>
    simp only [opStep] at h
    cases hp : s.ops p with
    | some S => simp [hp] at h
    | none =>
      simp only [hp] at h
      obtain ⟨_, l, hl, ht⟩ := Res.bind_eq_ok.1 h
      cases ht
      obtain ⟨hc, -, rfl⟩ := Log.beginOp_ok hl
      exact Or.inl ⟨p, rfl, hp, hc, rfl⟩
  | logWrite p b =>
    simp only [opStep] at h
    cases hp : s.ops p with
    | none => simp [hp] at h
    | some S =>
      simp only [hp] at h
      split at h
      · next hbud =>
        obtain ⟨_, l, hl, ht⟩ := Res.bind_eq_ok.1 h
        cases ht
        obtain ⟨_, l', hl', hl⟩ := Res.bind_eq_ok.1 hl
        cases hl
        obtain ⟨-, -, -, rfl⟩ := Log.logWriteTest_ok hl'
        exact Or.inr (Or.inl ⟨p, b, S, rfl, hp, hbud, rfl⟩)
      · cases h
  | endOp p =>
    simp only [opStep] at h
    cases hp : s.ops p with
    | none => simp [hp] at h
    | some S =>
      simp only [hp] at h
      obtain ⟨_, l, hl, ht⟩ := Res.bind_eq_ok.1 h
      cases ht
      obtain ⟨c, l', hl', hl⟩ := Res.bind_eq_ok.1 hl
      cases hl
      obtain ⟨hc, ⟨rfl, ho, rfl⟩ | ⟨rfl, -, rfl⟩⟩ := Log.endOpStart_ok hl'
      · exact Or.inr (Or.inr (Or.inl ⟨p, S, rfl, hp, ho, rfl⟩))
      · exact Or.inr (Or.inr (Or.inr ⟨p, S, rfl, hp, hc, rfl⟩))

/-! ## The invariant -/

/-- Blocks the operation may still log. -/
def remaining : Option (List Nat) → Nat
  | none => 0
  | some S => MAXOPBLOCKS - S.length

def active : Option (List Nat) → Nat
  | none => 0
  | some _ => 1

theorem remaining_none : remaining none = 0 := rfl
theorem remaining_some (S : List Nat) : remaining (some S) = MAXOPBLOCKS - S.length := rfl
theorem active_none : active none = 0 := rfl
theorem active_some (S : List Nat) : active (some S) = 1 := rfl

theorem remaining_le (o : Option (List Nat)) : remaining o ≤ MAXOPBLOCKS * active o := by
  cases o <;> simp [remaining, active]

variable [Fintype P]

theorem sum_update (f : Option (List Nat) → Nat) (ops : P → Option (List Nat)) (p : P)
    (o : Option (List Nat)) :
    ∑ q, f (Function.update ops p o q) + f (ops p) = ∑ q, f (ops q) + f o := by
  have h := sum_add_of_eq_off (f := fun q => f (ops q)) (g := fun q => f (Function.update ops p o q))
    p fun q hq => by simp only [Function.update_of_ne hq]
  simpa only [Function.update_self] using h

/-- What is logged and what running operations may still log stays below the capacity. -/
structure AdmInv (nlog : Nat) (s : OpState P) : Prop where
  size : s.log.size = nlog
  out : s.log.outstanding = ∑ p, active (s.ops p)
  logged : ∀ p S, s.ops p = some S → S.length ≤ MAXOPBLOCKS ∧ ∀ b ∈ S, b ∈ s.log.lh
  room : (s.log.lh.length : Int) + ∑ p, remaining (s.ops p) ≤ nlog - 2

variable {nlog : Nat} {s t : OpState P}

theorem AdmInv.beginOp (h : AdmInv nlog s) {p : P} (hp : s.ops p = none)
    (hsp : Spare s (.beginOp p)) :
    AdmInv nlog ⟨{ s.log with outstanding := s.log.outstanding + 1 },
      Function.update s.ops p (some [])⟩ := by
  have hact := sum_update active s.ops p (some [])
  rw [hp, active_none, active_some] at hact
  have hout := h.out
  constructor
  · exact h.size
  · dsimp only
    omega
  · intro q S hq
    dsimp only at hq ⊢
    by_cases hqp : q = p
    · subst hqp
      rw [Function.update_self, Option.some.injEq] at hq
      subst hq
      simp
    · rw [Function.update_of_ne hqp] at hq
      exact h.logged q S hq
  · -- every running operation counts for `MAXOPBLOCKS` in the reservation
    have hle : ∑ q, remaining (Function.update s.ops p (some []) q) ≤
        ∑ q, MAXOPBLOCKS * active (Function.update s.ops p (some []) q) :=
      Finset.sum_le_sum fun q _ => remaining_le _
    rw [← Finset.mul_sum] at hle
    have hsize := h.size
    simp only [Spare, MAXOPBLOCKS] at hsp hle
    dsimp only
    omega

theorem AdmInv.logWrite (h : AdmInv nlog s) {p : P} {b : Nat} {S : List Nat}
    (hp : s.ops p = some S) (hbud : (S.insert b).length ≤ MAXOPBLOCKS) :
    AdmInv nlog ⟨s.log.logAppend b, Function.update s.ops p (some (S.insert b))⟩ := by
  have hact := sum_update active s.ops p (some (S.insert b))
  have hrem := sum_update remaining s.ops p (some (S.insert b))
  rw [hp, active_some, active_some] at hact
  rw [hp, remaining_some, remaining_some] at hrem
  constructor
  · exact h.size
  · have hout := h.out
    simp only [Log.logAppend]
    omega
  · intro q T hq
    dsimp only at hq ⊢
    by_cases hqp : q = p
    · subst hqp
      rw [Function.update_self, Option.some.injEq] at hq
      subst hq
      refine ⟨hbud, fun c hc => Log.mem_logAppend.2 ?_⟩
      rcases List.mem_insert_iff.1 hc with rfl | hc
      · exact Or.inr rfl
      · exact Or.inl ((h.logged q S hp).2 c hc)
    · rw [Function.update_of_ne hqp] at hq
      exact ⟨(h.logged q T hq).1, fun c hc =>
        Log.mem_logAppend.2 (Or.inl ((h.logged q T hq).2 c hc))⟩
  · have hroom := h.room
    by_cases hb : b ∈ s.log.lh
    · have hle : S.length ≤ (S.insert b).length := List.length_le_length_insert
      simp only [Log.logAppend, if_pos hb]
      omega
    · -- a block that is new to the header is new to the operation, so its budget shrinks
      have hS : b ∉ S := fun hm => hb ((h.logged p S hp).2 b hm)
      rw [List.length_insert_of_not_mem hS] at hrem hbud
      simp only [Log.logAppend, if_neg hb, List.length_append, List.length_singleton]
      omega

theorem AdmInv.endOp (h : AdmInv nlog s) {p : P} {S : List Nat} (hp : s.ops p = some S) :
    AdmInv nlog ⟨{ s.log with outstanding := s.log.outstanding - 1 },
      Function.update s.ops p none⟩ := by
  have hact := sum_update active s.ops p none
  have hrem := sum_update remaining s.ops p none
  rw [hp, active_some, active_none] at hact
  rw [hp, remaining_none] at hrem
  have hout := h.out
  have hroom := h.room
  constructor
  · exact h.size
  · dsimp only
    omega
  · intro q T hq
    dsimp only at hq ⊢
    by_cases hqp : q = p
    · subst hqp
      rw [Function.update_self] at hq
      cases hq
    · rw [Function.update_of_ne hqp] at hq
      exact h.logged q T hq
  · dsimp only
    omega

/-- The commit of the last operation empties the header; no operation is left. -/
theorem AdmInv.commit (h : AdmInv nlog s) (hn : 2 ≤ nlog) {p : P} {S : List Nat}
    (hp : s.ops p = some S) (ho : s.log.outstanding = 1) :
    AdmInv nlog ⟨{ s.log with outstanding := 0, lh := [], committing := false },
      Function.update s.ops p none⟩ := by
  have hact := sum_update active s.ops p none
  rw [hp, active_some, active_none] at hact
  have hout := h.out
  have hzero : ∑ q, active (Function.update s.ops p none q) = 0 := by omega
  have hnone : ∀ q, Function.update s.ops p none q = none := by
    intro q
    have hq := Finset.sum_eq_zero_iff.1 hzero q (Finset.mem_univ q)
    cases hu : Function.update s.ops p none q with
    | none => rfl
    | some T =>
      rw [hu] at hq
      cases hq
  constructor
  · exact h.size
  · dsimp only
    omega
  · intro q T hq
    dsimp only at hq
    rw [hnone q] at hq
    cases hq
  · simp only [hnone, remaining_none, Finset.sum_const_zero, List.length_nil]
    omega

omit [DecidableEq P] in
theorem admInv_init (hn : 2 ≤ nlog) : AdmInv nlog (opInit nlog : OpState P) := by
  constructor
  · rfl
  · simp [opInit, Log.init, active_none]
  · intro p S h
    cases h
  · simp only [opInit, Log.init, remaining_none, Finset.sum_const_zero, List.length_nil]
    omega

theorem AdmInv.step (h : AdmInv nlog s) (hn : 2 ≤ nlog) {e : OpEvent P} (hsp : Spare s e)
    (hst : opStep s e = .ok () t) : AdmInv nlog t := by
  obtain ⟨p, rfl, hp, -, rfl⟩ | ⟨p, b, S, rfl, hp, hbud, rfl⟩ | ⟨p, S, rfl, hp, ho, rfl⟩ |
    ⟨p, S, rfl, hp, -, rfl⟩ := opStep_cases hst
  · exact h.beginOp hp hsp
  · exact h.logWrite hp hbud
  · exact h.commit hn hp ho
  · exact h.endOp hp

/-- Below a reservation of `nlog - 2` the header never holds more than that. -/
theorem admInv_of_reaches (hn : 2 ≤ nlog) (h : Reaches opStep Spare (opInit nlog) s) :
    AdmInv nlog s :=
  h.inv (admInv_init hn) fun _ _ _ hI hC hst => hI.step hn hC hst

/-- **Admission control.**  On the log `mkfs` makes, in every run in which each `begin_op` is
admitted at a reservation of at most `nlog - 2` blocks, no `log_write` of an operation within its
budget reaches `panic("too big a transaction")`. -/
theorem no_panic_of_spare (h : Reaches opStep Spare (opInit mkfsSb.nlog) s) (p : P) (b : Nat) :
    opStep s (.logWrite p b) ≠ .panic .tooBigTransaction := by
  have hinv := admInv_of_reaches (by decide) h
  intro hpanic
  simp only [opStep] at hpanic
  split at hpanic
  · cases hpanic
  · split at hpanic
    · rcases Res.bind_eq_panic.1 hpanic with hp | ⟨_, _, _, hp⟩
      · rcases Res.bind_eq_panic.1 hp with hp | ⟨_, _, _, hp⟩
        · have hroom := hinv.room
          have hsize := hinv.size
          have hnlog : mkfsSb.nlog = 30 := rfl
          rcases Log.logWriteTest_panic hp with ⟨-, hfull⟩ | ⟨he, -⟩
          · simp only [LOGSIZE, MAXOPBLOCKS] at hfull
            omega
          · cases he
        · cases hp
      · cases hp
    · cases hpanic

/-- Two operations at once: the second is admitted at a reservation of 20. -/
theorem no_panic_of_spare_two :
    ∃ s : OpState (Fin 2), Reaches opStep Spare (opInit mkfsSb.nlog) s ∧ s.log.outstanding = 2 ∧
      opStep s (.logWrite 1 7) ≠ .panic .tooBigTransaction := by
  let s₁ : OpState (Fin 2) := ⟨{ Log.init 30 with outstanding := 1 },
    Function.update (fun _ => none) 0 (some [])⟩
  let s₂ : OpState (Fin 2) := ⟨{ Log.init 30 with outstanding := 2 },
    Function.update s₁.ops 1 (some [])⟩
  have h₁ : Reaches opStep Spare (opInit mkfsSb.nlog) s₁ :=
    Relation.ReflTransGen.single ⟨.beginOp 0, by simp only [Spare]; decide, rfl⟩
  have h₂ : Reaches opStep Spare (opInit mkfsSb.nlog) s₂ :=
    h₁.tail ⟨.beginOp 1, by simp only [Spare]; decide, rfl⟩
  exact ⟨s₂, h₂, rfl, no_panic_of_spare h₂ 1 7⟩

/-- Three operations begin, and log ten, ten and nine blocks. -/
def threeFull : List (OpEvent (Fin 3)) :=
  [.beginOp 0, .beginOp 1, .beginOp 2] ++ (List.range 10).map (.logWrite 0) ++
    (List.range 10).map (fun i => .logWrite 1 (10 + i)) ++
    (List.range 9).map (fun i => .logWrite 2 (20 + i))

/-- Three operations, each within its budget of ten blocks, fill the log: the tenth block of the
third one reaches the panic. -/
theorem log_full_reaches_panic :
    ∃ s : OpState (Fin 3), Reaches opStep anyEvent (opInit mkfsSb.nlog) s ∧
      opStep s (.logWrite 2 29) = .panic .tooBigTransaction := by
  have h : ((exec opStep (opInit mkfsSb.nlog) threeFull).bind fun _ s => opStep s (.logWrite 2 29)) =
      .panic .tooBigTransaction := rfl
  obtain ⟨s, hs⟩ : ∃ s, exec opStep (opInit mkfsSb.nlog) threeFull = .ok () s := ⟨_, rfl⟩
  rw [hs] at h
  exact ⟨s, reaches_exec hs, h⟩

end Xv6
