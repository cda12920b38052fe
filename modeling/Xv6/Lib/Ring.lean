import Mathlib.Data.List.Nodup
import Mathlib.Tactic.Common

/-!
# Circular doubly linked lists

The links of a set of nodes `N` are two functions, `next` and `prev`.  `Ring k h l` says that
starting from the node `h` (the head, which is no element) they go through the nodes of `l`
and back to `h`, in both directions, without meeting a node twice.

`unlink` and `pushFront` are the usual assignments; `Ring.unlink` and `Ring.pushFront` say what
they do to the list.  A loop along the links is `scan`, which has a bound on its rounds:
`Ring.scan_next` and `Ring.scan_prev` say that it ends and what it finds.
-/

namespace Conc

structure Links (N : Type) where
  next : N → N
  prev : N → N

namespace Links

variable {N : Type}

/-- `b` comes after `a`, seen from both. -/
def Adj (k : Links N) (a b : N) : Prop := k.next a = b ∧ k.prev b = a

def Path (k : Links N) : N → List N → N → Prop
  | a, [], b => k.Adj a b
  | a, x :: l, b => k.Adj a x ∧ k.Path x l b

/-- Follow `step` from `b` on until `h`, and stop at the first node with `p`; `none` after `n` rounds. -/
def scan (step : N → N) [DecidableEq N] (h : N) (p : N → Bool) : Nat → N → Option (Option N)
  | 0, _ => none
  | n + 1, b =>
    if b = h then some none else if p b then some (some b) else scan step h p n (step b)

section

variable [DecidableEq N] (k : Links N)

def setNext (a b : N) : Links N := { k with next := Function.update k.next a b }

def setPrev (a b : N) : Links N := { k with prev := Function.update k.prev a b }

/-- `b->next->prev = b->prev; b->prev->next = b->next` -/
def unlink (b : N) : Links N :=
  let k := k.setPrev (k.next b) (k.prev b)
  k.setNext (k.prev b) (k.next b)

def pushFront (h b : N) : Links N :=
  let k := k.setNext b (k.next h)
  let k := k.setPrev b h
  let k := k.setPrev (k.next h) b
  k.setNext h b

end

variable {k k' : Links N} {a b c h : N} {l l' : List N}

theorem path_append {x : N} : k.Path a (l ++ x :: l') b ↔ k.Path a l x ∧ k.Path x l' b := by
  induction l generalizing a with
  | nil => exact Iff.rfl
  | cons y l ih =>
    show k.Adj a y ∧ k.Path y (l ++ x :: l') b ↔ (k.Adj a y ∧ k.Path y l x) ∧ k.Path x l' b
    rw [ih, and_assoc]

theorem Path.congr (h : k.Path a l b) (hn : ∀ x ∈ a :: l, k'.next x = k.next x)
    (hp : ∀ x ∈ l ++ [b], k'.prev x = k.prev x) : k'.Path a l b := by
  induction l generalizing a with
  | nil =>
    obtain ⟨h₁, h₂⟩ := h
    exact ⟨(hn a List.mem_cons_self).trans h₁, (hp b (by simp)).trans h₂⟩
  | cons x l ih =>
    obtain ⟨⟨h₁, h₂⟩, h⟩ := h
    refine ⟨⟨(hn a List.mem_cons_self).trans h₁, (hp x (by simp)).trans h₂⟩, ?_⟩
    exact ih h (fun y hy => hn y (List.mem_cons_of_mem _ hy)) fun y hy => hp y (by simp_all)

theorem Path.next_mem (h : k.Path a l b) : k.next a ∈ l ++ [b] := by
  cases l with
  | nil => simp [h.1]
  | cons x l => simp [h.1.1]

theorem Path.replace (h : k.Path b l c) {u : N} (hnext : k'.next u = k.next b)
    (hprev : k'.prev (k.next b) = u) (hn : ∀ x ∈ l, k'.next x = k.next x)
    (hp : ∀ x ∈ l ++ [c], x ≠ k.next b → k'.prev x = k.prev x) (hnodup : (l ++ [c]).Nodup) :
    k'.Path u l c := by
  cases l with
  | nil =>
    obtain ⟨h₁, -⟩ := h
    rw [h₁] at hnext hprev
    exact ⟨hnext, hprev⟩
  | cons x l =>
    obtain ⟨⟨h₁, -⟩, h⟩ := h
    rw [h₁] at hnext hprev hp
    refine ⟨⟨hnext, hprev⟩, h.congr hn fun y hy => hp y (List.mem_cons_of_mem _ hy) ?_⟩
    rintro rfl
    exact (List.nodup_cons.1 hnodup).1 hy

end Links

structure Ring {N : Type} (k : Links N) (h : N) (l : List N) : Prop where
  path : k.Path h l h
  nodup : (h :: l).Nodup

namespace Ring

open Links

variable {N : Type} [DecidableEq N] {k : Links N} {h b : N} {l l₁ l₂ : List N} {p : N → Bool}

/-- A node is taken out. -/
theorem unlink (hr : Ring k h (l₁ ++ b :: l₂)) : Ring (k.unlink b) h (l₁ ++ l₂) := by
  obtain ⟨hpath, hnodup⟩ := hr
  obtain ⟨hfst, hsnd⟩ := path_append.1 hpath
  have hv := hsnd.next_mem
  have hbv : b ≠ k.next b := by
    intro he
    rw [← he] at hv
    grind
  -- the two assignments
  have hk : k.unlink b = (k.setPrev (k.next b) (k.prev b)).setNext (k.prev b) (k.next b) := by
    simp [Links.unlink, Links.setPrev, Function.update_of_ne hbv]
  have hN : ∀ x, x ≠ k.prev b → (k.unlink b).next x = k.next x := fun x hx => by
    rw [hk]
    exact Function.update_of_ne hx _ _
  have hP : ∀ x, x ≠ k.next b → (k.unlink b).prev x = k.prev x := fun x hx => by
    rw [hk]
    exact Function.update_of_ne hx _ _
  have hNu : (k.unlink b).next (k.prev b) = k.next b := by
    rw [hk]
    exact Function.update_self ..
  have hPv : (k.unlink b).prev (k.next b) = k.prev b := by
    rw [hk]
    exact Function.update_self ..
  refine ⟨?_, by grind⟩
  -- the rest of the list follows the node before `b`
  have hrest : k.prev b ∉ l₂ → (k.unlink b).Path (k.prev b) l₂ h := fun hu =>
    hsnd.replace hNu hPv (fun x hx => hN x fun he => hu (he ▸ hx)) (fun x _ => hP x) (by grind)
  rcases List.eq_nil_or_concat l₁ with rfl | ⟨l, u, rfl⟩
  · have hu : k.prev b = h := hfst.2
    rw [hu] at hrest
    exact hrest (by grind)
  · rw [List.concat_eq_append] at *
    obtain ⟨hl, hub⟩ := path_append.1 hfst
    have hu : k.prev b = u := hub.2
    rw [hu] at hrest hN
    rw [List.append_assoc, List.singleton_append, path_append]
    refine ⟨hl.congr (fun x hx => hN x ?_) fun x hx => hP x ?_, hrest (by grind)⟩
    · rintro rfl
      grind
    · rintro rfl
      grind

theorem pushFront (hr : Ring k h l) (hb : b ∉ h :: l) : Ring (k.pushFront h b) h (b :: l) := by
  obtain ⟨hpath, hnodup⟩ := hr
  have hv := hpath.next_mem
  have hbh : b ≠ h := fun he => hb (by simp [he])
  have hbv : k.next h ≠ b := by
    intro he
    rw [he] at hv
    grind
  -- the four assignments
  have hnext : (k.pushFront h b).next = Function.update (Function.update k.next b (k.next h)) h b := by
    simp [Links.pushFront, Links.setPrev, Links.setNext]
  have hprev : (k.pushFront h b).prev =
      Function.update (Function.update k.prev b h) (k.next h) b := by
    simp [Links.pushFront, Links.setPrev, Links.setNext, Function.update_of_ne hbh.symm]
  refine ⟨⟨⟨?_, ?_⟩, ?_⟩, by grind⟩
  · rw [hnext, Function.update_self]
  · rw [hprev, Function.update_of_ne hbv.symm, Function.update_self]
  · refine hpath.replace ?_ ?_ (fun x hx => ?_) (fun x hx hne => ?_) (by grind)
    · rw [hnext, Function.update_of_ne hbh, Function.update_self]
    · rw [hprev, Function.update_self]
    · rw [hnext, Function.update_of_ne (by grind), Function.update_of_ne (by grind)]
    · rw [hprev, Function.update_of_ne hne, Function.update_of_ne (by grind)]

omit [DecidableEq N] in
/-- The head alone. -/
theorem nil (hn : k.next h = h) (hp : k.prev h = h) : Ring k h [] := ⟨⟨hn, hp⟩, by simp⟩

/-- The loop over the list from its front. -/
theorem scan_next (hr : Ring k h l) {n : Nat} (hn : l.length < n) :
    scan k.next h p n (k.next h) = some (l.find? p) := by
  obtain ⟨hpath, hnodup⟩ := hr
  have hfrom : ∀ (a : N) (l : List N) (n : Nat), k.Path a l h → h ∉ l → l.length < n →
      scan k.next h p n (k.next a) = some (l.find? p) := by
    intro a l
    induction l generalizing a with
    | nil =>
      intro n ha _ hlt
      obtain ⟨n, rfl⟩ : ∃ m, n = m + 1 := ⟨n - 1, by omega⟩
      rw [ha.1, scan, if_pos rfl, List.find?_nil]
    | cons x l ih =>
      intro n ha hh hlt
      obtain ⟨n, rfl⟩ : ∃ m, n = m + 1 := ⟨n - 1, by omega⟩
      rw [ha.1.1, scan, if_neg (by grind)]
      by_cases hx : p x = true
      · rw [if_pos hx, List.find?_cons_of_pos hx]
      · rw [if_neg hx, List.find?_cons_of_neg hx]
        exact ih x n ha.2 (by grind) (by simpa using hlt)
  exact hfrom h l n hpath (List.nodup_cons.1 hnodup).1 hn

omit [DecidableEq N] in
theorem reverse (hr : Ring k h l) : Ring ⟨k.prev, k.next⟩ h l.reverse := by
  obtain ⟨hpath, hnodup⟩ := hr
  have hrev : ∀ (a b : N) (l : List N), k.Path a l b → Path ⟨k.prev, k.next⟩ b l.reverse a := by
    intro a b l
    induction l generalizing a with
    | nil => exact fun ha => ⟨ha.2, ha.1⟩
    | cons x l ih =>
      intro ha
      rw [List.reverse_cons, path_append]
      exact ⟨ih x ha.2, ha.1.2, ha.1.1⟩
  refine ⟨hrev h h l hpath, ?_⟩
  simpa using hnodup

/-- The loop over the list from its end. -/
theorem scan_prev (hr : Ring k h l) {n : Nat} (hn : l.length < n) :
    scan k.prev h p n (k.prev h) = some (l.reverse.find? p) :=
  hr.reverse.scan_next (by simpa using hn)

end Ring

end Conc
