import Mathlib.Data.List.Perm.Basic
import Mathlib.Tactic

/-!
# Pieces that cut up regions

A piece is an interval of addresses.  `Tiles ps rs` says that the pieces `ps` are not empty, that no
two of them overlap and that together they are exactly the addresses of the regions `rs`.  The order
of the pieces does not matter (`Tiles.perm`); two neighbours can be joined (`Tiles.join`), a piece can
be cut in two (`Tiles.cut`), and a region that is new is a piece of its own (`Tiles.grow`).
-/

structure Piece where
  start : Nat
  len : Nat
deriving DecidableEq, Repr

namespace Piece

def Has (b : Piece) (x : Nat) : Prop := b.start ≤ x ∧ x < b.start + b.len

def Apart (b c : Piece) : Prop := b.start + b.len ≤ c.start ∨ c.start + c.len ≤ b.start

theorem Apart.symm {b c : Piece} (h : b.Apart c) : c.Apart b := Or.symm h

def Covered (ps : List Piece) (x : Nat) : Prop := ∃ b ∈ ps, b.Has x

theorem covered_cons {b : Piece} {ps : List Piece} {x : Nat} :
    Covered (b :: ps) x ↔ b.Has x ∨ Covered ps x := by
  simp [Covered]

theorem covered_perm {ps qs : List Piece} (h : ps.Perm qs) {x : Nat} :
    Covered ps x ↔ Covered qs x := by
  simp only [Covered, h.mem_iff]

theorem covered_cut {a m n : Nat} {ps : List Piece} {x : Nat} :
    Covered (⟨a, m + n⟩ :: ps) x ↔ Covered (⟨a, m⟩ :: ⟨a + m, n⟩ :: ps) x := by
  simp only [covered_cons, Has]
  constructor
  · rintro (hx | hx)
    · by_cases hlt : x < a + m
      · exact .inl ⟨hx.1, hlt⟩
      · exact .inr (.inl ⟨by omega, by omega⟩)
    · exact .inr (.inr hx)
  · rintro (hx | hx | hx)
    · exact .inl ⟨hx.1, by omega⟩
    · exact .inl ⟨by omega, by omega⟩
    · exact .inr hx

end Piece

open Piece

structure Tiles (ps rs : List Piece) : Prop where
  pos : ∀ b ∈ ps, 0 < b.len
  apart : ps.Pairwise Apart
  cover : ∀ x, Covered ps x ↔ Covered rs x

namespace Tiles

variable {ps qs rs : List Piece} {a m n : Nat} {b : Piece}

theorem perm (h : Tiles ps rs) (hp : ps.Perm qs) : Tiles qs rs where
  pos b hb := h.pos b (hp.mem_iff.2 hb)
  apart := (hp.pairwise_iff fun h => Apart.symm h).1 h.apart
  cover x := (covered_perm hp).symm.trans (h.cover x)

theorem join (h : Tiles (⟨a, m⟩ :: ⟨a + m, n⟩ :: ps) rs) : Tiles (⟨a, m + n⟩ :: ps) rs := by
  have hm : 0 < m := h.pos ⟨a, m⟩ (by simp)
  obtain ⟨hfst, hrest⟩ := List.pairwise_cons.1 h.apart
  obtain ⟨hsnd, hps⟩ := List.pairwise_cons.1 hrest
  refine ⟨?_, List.pairwise_cons.2 ⟨?_, hps⟩, ?_⟩
  · intro b hb
    rcases List.mem_cons.1 hb with rfl | hb
    · exact Nat.add_pos_left hm n
    · exact h.pos b (by simp [hb])
  · intro c hc
    have hc0 := h.pos c (by simp [hc])
    have hac := hfst c (by simp [hc])
    have hbc := hsnd c hc
    simp only [Apart] at hac hbc ⊢
    omega
  · intro x
    rw [covered_cut, h.cover x]

theorem cut (h : Tiles (⟨a, m + n⟩ :: ps) rs) (hm : 0 < m) (hn : 0 < n) :
    Tiles (⟨a, m⟩ :: ⟨a + m, n⟩ :: ps) rs := by
  obtain ⟨hfst, hps⟩ := List.pairwise_cons.1 h.apart
  refine ⟨?_, List.pairwise_cons.2 ⟨?_, List.pairwise_cons.2 ⟨?_, hps⟩⟩, ?_⟩
  · intro b hb
    rcases List.mem_cons.1 hb with rfl | hb
    · exact hm
    · rcases List.mem_cons.1 hb with rfl | hb
      · exact hn
      · exact h.pos b (by simp [hb])
  · intro c hc
    rcases List.mem_cons.1 hc with rfl | hc
    · exact .inl le_rfl
    · have hac := hfst c hc
      simp only [Apart] at hac ⊢
      omega
  · intro c hc
    have hac := hfst c hc
    simp only [Apart] at hac ⊢
    omega
  · intro x
    rw [← covered_cut, h.cover x]

/-- Pieces lie where the regions lie. -/
theorem bounds (h : Tiles ps rs) {lo hi : Nat}
    (hr : ∀ r ∈ rs, lo ≤ r.start ∧ r.start + r.len ≤ hi) (hb : b ∈ ps) :
    lo ≤ b.start ∧ b.start + b.len ≤ hi := by
  have hpos := h.pos b hb
  obtain ⟨r, hr₁, hfirst⟩ := (h.cover b.start).1 ⟨b, hb, le_rfl, by omega⟩
  obtain ⟨r', hr₂, hlast⟩ := (h.cover (b.start + b.len - 1)).1 ⟨b, hb, by omega, by omega⟩
  have hlo := (hr r hr₁).1
  have hhi := (hr r' hr₂).2
  simp only [Has] at hfirst hlast
  omega

theorem start_ne {c : Piece} (h : Tiles (c :: ps) rs) (hb : b ∈ ps) : b.start ≠ c.start := by
  intro heq
  have hapart := (List.pairwise_cons.1 h.apart).1 b hb
  have hbpos := h.pos b (List.mem_cons_of_mem c hb)
  have hcpos := h.pos c List.mem_cons_self
  simp only [Apart] at hapart
  omega

theorem grow (h : Tiles ps rs) (hpos : 0 < b.len) (hr : ∀ r ∈ rs, r.start + r.len ≤ b.start) :
    Tiles (b :: ps) (b :: rs) := by
  refine ⟨?_, List.pairwise_cons.2 ⟨?_, h.apart⟩, ?_⟩
  · intro c hc
    rcases List.mem_cons.1 hc with rfl | hc
    · exact hpos
    · exact h.pos c hc
  · intro c hc
    exact .inr (h.bounds (fun r hmem => ⟨Nat.zero_le _, hr r hmem⟩) hc).2
  · intro x
    rw [covered_cons, covered_cons, h.cover x]

end Tiles
