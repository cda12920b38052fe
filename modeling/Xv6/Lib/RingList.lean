import Mathlib.Data.List.Chain
import Mathlib.Logic.Function.Basic
import Mathlib.Tactic

/-!
# Lists linked into a ring

`next` is the link field of a memory of nodes.  `Links next l` says that it leads through the nodes of
`l` in order, and `Cyc next p m` that it leads from `p` through `m` and back to `p`.  A ring can be
entered anywhere (`cyc_rotate`), and setting the link of one node puts it before a list
(`links_update`): that is all a program does to insert and to remove.

`walk` follows the links up to the first node that passes a test, with a bound on the steps.  It finds
one if there is one on the way (`walk_finds`); `walk_pairs` is the same walk with the node before.
-/

namespace RingList

variable {α : Type} {next : α → α}

def Links (next : α → α) (l : List α) : Prop := l.IsChain fun a b => next a = b

def Cyc (next : α → α) (p : α) (m : List α) : Prop := Links next (p :: (m ++ [p]))

theorem links_head {a z : α} {m : List α} (h : Links next (a :: (m ++ [z]))) :
    next a = m.headD z := by
  cases m with
  | nil => exact (List.isChain_cons_cons.1 h).1
  | cons b m => exact (List.isChain_cons_cons.1 h).1

theorem cyc_iff {p : α} {m : List α} :
    Cyc next p m ↔ next p = m.headD p ∧ Links next (m ++ [p]) := by
  cases m with
  | nil => simp [Cyc, Links]
  | cons a m => simp [Cyc, Links]

theorem cyc_rotate {p q : α} {l₁ l₂ : List α} :
    Cyc next p (l₁ ++ q :: l₂) ↔ Cyc next q (l₂ ++ p :: l₁) := by
  have hsplit : ∀ (p q : α) (l₁ l₂ : List α), Cyc next p (l₁ ++ q :: l₂) ↔
      Links next (p :: (l₁ ++ [q])) ∧ Links next (q :: (l₂ ++ [p])) := by
    intro p q l₁ l₂
    have h := @List.isChain_split _ (fun a b => next a = b) q (p :: l₁) (l₂ ++ [p])
    simpa [Cyc, Links] using h
  rw [hsplit, hsplit, and_comm]

/-- The ring entered at another of its nodes. -/
theorem cyc_at {a p : α} {t l₁ l₂ : List α} (he : a :: t = l₁ ++ p :: l₂) :
    Cyc next a t ↔ Cyc next p (l₂ ++ l₁) := by
  cases l₁ with
  | nil =>
    obtain ⟨rfl, rfl⟩ := List.cons.inj he
    rw [List.append_nil]
  | cons b l₁ =>
    obtain ⟨rfl, rfl⟩ := List.cons.inj he
    exact cyc_rotate

theorem Links.congr {next' : α → α} {m : List α} {z : α} (h : Links next (m ++ [z]))
    (he : ∀ a ∈ m, next' a = next a) : Links next' (m ++ [z]) := by
  induction m with
  | nil => simp [Links]
  | cons a m ih =>
    have h' := List.isChain_cons.1 h
    have htail := ih h'.2 fun b hb => he b (List.mem_cons_of_mem a hb)
    refine List.isChain_cons.2 ⟨fun b hb => ?_, htail⟩
    rw [he a List.mem_cons_self]
    exact h'.1 b hb

section Update
variable [DecidableEq α]

theorem Links.update {m : List α} {b x z : α} (h : Links next (m ++ [z])) (hb : b ∉ m) :
    Links (Function.update next b x) (m ++ [z]) :=
  h.congr fun _ ha => Function.update_of_ne (ne_of_mem_of_not_mem ha hb) _ _

theorem links_update {m : List α} {b z : α} (h : Links next (m ++ [z])) (hb : b ∉ m) :
    Links (Function.update next b (m.headD z)) (b :: (m ++ [z])) := by
  refine List.isChain_cons.2 ⟨fun y hy => ?_, h.update hb⟩
  rw [Function.update_self]
  cases m with
  | nil => simpa using hy
  | cons a m => simpa using hy

end Update

section Walk

/-- Follow the links from `a` to the first node that passes the test, in at most `n` steps. -/
def walk (next : α → α) (stop : α → Bool) : Nat → α → Option α
  | 0, _ => none
  | n + 1, a => if stop a then some a else walk next stop n (next a)

variable {stop : α → Bool}

/-- More steps than needed do not change where the walk ends. -/
theorem walk_mono {n k : Nat} {a x : α} (h : walk next stop n a = some x) (hnk : n ≤ k) :
    walk next stop k a = some x := by
  induction n generalizing k a with
  | zero => cases h
  | succ n ih =>
    obtain ⟨k, rfl⟩ : ∃ j, k = j + 1 := ⟨k - 1, by omega⟩
    unfold walk at h ⊢
    split at h
    · rename_i hstop
      rwa [if_pos hstop]
    · rename_i hstop
      rw [if_neg hstop]
      exact ih h (by omega)

theorem walk_finds {a : α} {t : List α} (h : Links next (a :: t)) (hex : ∃ x ∈ a :: t, stop x) :
    ∃ x ∈ a :: t, stop x ∧ walk next stop (t.length + 1) a = some x := by
  induction t generalizing a with
  | nil =>
    obtain ⟨x, hx, hstop⟩ := hex
    obtain rfl := List.mem_singleton.1 hx
    exact ⟨x, hx, hstop, by simp [walk, hstop]⟩
  | cons b t ih =>
    by_cases ha : stop a
    · exact ⟨a, List.mem_cons_self, ha, by simp [walk, ha]⟩
    · have hlink := List.isChain_cons_cons.1 h
      have hrest : ∃ x ∈ b :: t, stop x := by
        obtain ⟨x, hx, hstop⟩ := hex
        rcases List.mem_cons.1 hx with rfl | hx
        · exact absurd hstop ha
        · exact ⟨x, hx, hstop⟩
      obtain ⟨x, hx, hstop, hwalk⟩ := ih hlink.2 hrest
      refine ⟨x, List.mem_cons_of_mem a hx, hstop, ?_⟩
      rw [List.length_cons, walk, if_neg ha, hlink.1, hwalk]

/-- The walk that remembers the node before: it starts behind `a` and ends at the first node of `t` that
passes. -/
theorem walk_pairs {a : α} {t : List α} (h : Links next (a :: t)) (hex : ∃ x ∈ t, stop x) :
    ∃ u y x v, a :: t = u ++ y :: x :: v ∧ stop x ∧ (∀ z ∈ (u ++ [y]).tail, ¬stop z) ∧
      walk (fun e : α × α => (e.2, next e.2)) (fun e => stop e.2) t.length (a, next a) =
        some (y, x) := by
  induction t generalizing a with
  | nil => simp at hex
  | cons b t ih =>
    have hlink := List.isChain_cons_cons.1 h
    by_cases hb : stop b
    · exact ⟨[], a, b, t, rfl, hb, by simp, by simp [walk, hlink.1, hb]⟩
    · have hrest : ∃ x ∈ t, stop x := by
        obtain ⟨x, hx, hstop⟩ := hex
        rcases List.mem_cons.1 hx with rfl | hx
        · exact absurd hstop hb
        · exact ⟨x, hx, hstop⟩
      obtain ⟨u, y, x, v, he, hstop, hbefore, hwalk⟩ := ih hlink.2 hrest
      refine ⟨a :: u, y, x, v, by rw [he, List.cons_append], hstop, ?_, ?_⟩
      · intro z hz
        -- `u ++ [y]` begins with `b`, which did not pass
        cases u with
        | nil =>
          obtain rfl := (List.cons.inj he).1
          obtain rfl : z = b := by simpa using hz
          exact hb
        | cons c u =>
          obtain rfl := (List.cons.inj he).1
          rcases List.mem_cons.1 hz with rfl | hz
          · exact hb
          · exact hbefore z hz
      · rw [List.length_cons, walk, hlink.1, if_neg hb, hwalk]

end Walk

end RingList
