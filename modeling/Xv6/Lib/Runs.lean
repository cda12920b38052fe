import Xv6.Lib.Prog

/-!
# Runs of a system that takes one event after another

A system is a function `step : σ → ι → Res ε Unit σ` from a state and an event to
the next state; `sleep` means that the event cannot happen now.
`Reaches step C s t` says that some run of events, each meeting the condition `C`
in the state it happens in, leads from `s` to `t`.  `Reaches.inv` is the rule for
invariants and `reaches_exec` turns an executed list of events into a run.
-/

namespace Conc

variable {σ ι ε : Type}

def Reaches (step : σ → ι → Res ε Unit σ) (C : σ → ι → Prop) : σ → σ → Prop :=
  Relation.ReflTransGen fun s t => ∃ i, C s i ∧ step s i = .ok () t

/-- No condition on the events. -/
abbrev anyEvent : σ → ι → Prop := fun _ _ => True

variable {step : σ → ι → Res ε Unit σ} {C : σ → ι → Prop} {s t : σ}

/-- What holds at the start and is kept by every event holds in every state of a run. -/
theorem Reaches.inv {I : σ → Prop} (h : Reaches step C s t) (h0 : I s)
    (hstep : ∀ s i t, I s → C s i → step s i = .ok () t → I t) : I t := by
  induction h with
  | refl => exact h0
  | tail _ hst ih =>
    obtain ⟨i, hC, hst⟩ := hst
    exact hstep _ i _ ih hC hst

theorem Reaches.mono {C' : σ → ι → Prop} (h : Reaches step C s t) (hC : ∀ s i, C s i → C' s i) :
    Reaches step C' s t := by
  induction h with
  | refl => exact Relation.ReflTransGen.refl
  | tail _ hst ih =>
    obtain ⟨i, hi, hst⟩ := hst
    exact Relation.ReflTransGen.tail ih ⟨i, hC _ i hi, hst⟩

/-- Run a list of events. -/
def exec (step : σ → ι → Res ε Unit σ) : σ → List ι → Res ε Unit σ
  | s, [] => .ok () s
  | s, i :: is => (step s i).bind fun _ s' => exec step s' is

/-- A run of events that meet the condition in any state. -/
theorem reaches_exec_of {is : List ι} (hC : ∀ i ∈ is, ∀ s, C s i) (h : exec step s is = .ok () t) :
    Reaches step C s t := by
  induction is generalizing s with
  | nil =>
    cases h
    exact Relation.ReflTransGen.refl
  | cons i is ih =>
    obtain ⟨_, s', hs, h⟩ := Res.bind_eq_ok.1 h
    exact Relation.ReflTransGen.head ⟨i, hC i List.mem_cons_self s, hs⟩
      (ih (fun j hj => hC j (List.mem_cons_of_mem _ hj)) h)

theorem reaches_exec {is : List ι} (h : exec step s is = .ok () t) :
    Reaches step anyEvent s t := reaches_exec_of (fun _ _ _ => trivial) h

/-- A list of events, each run only where it meets the condition. -/
theorem reaches_guarded [∀ s i, Decidable (C s i)] {is : List ι}
    (h : exec (fun s i => if C s i then step s i else .sleep) s is = .ok () t) : Reaches step C s t := by
  refine Relation.ReflTransGen.mono (fun s t hst => ?_) s t (reaches_exec h)
  obtain ⟨i, -, hi⟩ := hst
  split at hi
  case isTrue hC => exact ⟨i, hC, hi⟩
  case isFalse => cases hi

/-- A sum over processes after one of them changed its term. -/
theorem sum_add_of_eq_off {P : Type} [Fintype P] [DecidableEq P] {f g : P → Nat} (p : P)
    (h : ∀ q, q ≠ p → g q = f q) : ∑ q, g q + f p = ∑ q, f q + g p := by
  rw [← Finset.add_sum_erase _ g (Finset.mem_univ p), ← Finset.add_sum_erase _ f (Finset.mem_univ p)]
  have : ∑ q ∈ Finset.univ.erase p, g q = ∑ q ∈ Finset.univ.erase p, f q :=
    Finset.sum_congr rfl fun q hq => h q (Finset.ne_of_mem_erase hq)
  omega

end Conc
