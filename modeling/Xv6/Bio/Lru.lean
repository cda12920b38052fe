import Xv6.Bio.Cache

/-!
# The buffer cache is one list in order of use

`Inv` holds in every reachable state: the links are one ring through all buffers, from the last
one that was given up to the first (`Ordered`); no block has two buffers; and `refcnt` counts
the processes between `bget` and the end of `brelse` (`uses`).  So the buffer that `bget` finds
from the end of the list is the one that was given up longest ago.
-/

namespace Xv6

open Conc

namespace Bcache

variable {P : Type} [DecidableEq P] {s s' : Bcache P} {l : List (Fin NBUF)}

/-- What process `p` has or wants of buffer `b`: it has the lock, waits for it, or has not finished
`brelse`. -/
def uses (s : Bcache P) (p : P) (b : Fin NBUF) : Nat :=
  (if (s.buf b).lock = some p then 1 else 0) + (if s.pos p = .waiting b then 1 else 0) +
    (if s.pos p = .releasing b then 1 else 0)

/-- Buffer `a` was given up after `b`, or neither ever was. -/
def Later (s : Bcache P) (a b : Fin NBUF) : Prop :=
  s.dropped b < s.dropped a ∨ (s.dropped a = 0 ∧ s.dropped b = 0)

/-- The links are a ring through all buffers, the last one given up first. -/
structure Ordered (s : Bcache P) (l : List (Fin NBUF)) : Prop where
  ring : Ring s.links .head (l.map .buf)
  all : ∀ b, b ∈ l
  later : l.Pairwise s.Later

structure Inv [Fintype P] (s : Bcache P) : Prop where
  list : ∃ l, s.Ordered l
  /-- a block has one buffer -/
  uniq : ∀ a b, (s.buf a).dev ≠ 0 → (s.buf b).Is (s.buf a).dev (s.buf a).blockno → a = b
  refcnt : ∀ b, (s.buf b).refcnt = ∑ p, s.uses p b
  time : ∀ b, s.dropped b ≤ s.now

/-! ## The loops -/

omit [DecidableEq P] in
theorem Ordered.nodup (h : s.Ordered l) : l.Nodup :=
  List.Nodup.of_map _ (List.nodup_cons.1 h.ring.nodup).2

omit [DecidableEq P] in
theorem Ordered.length (h : s.Ordered l) : (l.map BufNode.buf).length < NBUF + 1 := by
  rw [List.length_map]
  have := h.nodup.length_le_card
  rw [Fintype.card_fin] at this
  omega

omit [DecidableEq P] in
/-- The first loop of `bget` ends, with the first buffer of the list that passes the test. -/
theorem Ordered.scanNext (h : s.Ordered l) (f : Buffer P → Bool) :
    s.scanNext f = some ((l.find? fun b => f (s.buf b)).map .buf) := by
  unfold Bcache.scanNext
  rw [h.ring.scan_next h.length, List.find?_map]
  rfl

omit [DecidableEq P] in
/-- The second loop ends, with the last one. -/
theorem Ordered.scanPrev (h : s.Ordered l) (f : Buffer P → Bool) :
    s.scanPrev f = some ((l.reverse.find? fun b => f (s.buf b)).map .buf) := by
  unfold Bcache.scanPrev
  rw [h.ring.scan_prev h.length, ← List.map_reverse, List.find?_map]
  rfl

/-- The outcome of `bget`. -/
inductive Got (s : Bcache P) (p : P) (dev blockno : Nat) : Bcache P → Prop
  | hit (b : Fin NBUF) (is : (s.buf b).Is dev blockno) :
      Got s p dev blockno
        ((s.set b { s.buf b with refcnt := (s.buf b).refcnt + 1 }).setPos p (.waiting b))
  /-- no buffer has the block, and none that is not in use was given up before `b` -/
  | miss (b : Fin NBUF) (absent : ∀ c, ¬ (s.buf c).Is dev blockno) (unused : (s.buf b).Unused)
      (oldest : ∀ c, c ≠ b → (s.buf c).Unused → s.Later c b) :
      Got s p dev blockno ((s.set b { s.buf b with
        dev := dev, blockno := blockno, valid := false, dirty := false, refcnt := 1 }).setPos p
          (.waiting b))

omit [DecidableEq P] in
/-- The last element of an ordered list that passes a test. -/
theorem Ordered.oldest (h : s.Ordered l) {f : Fin NBUF → Bool} {b : Fin NBUF}
    (hb : l.reverse.find? f = some b) (c : Fin NBUF) (hne : c ≠ b) (hc : f c = true) :
    s.Later c b := by
  obtain ⟨-, l₁, l₂, hl, hno⟩ := List.find?_eq_some_iff_append.1 hb
  have hsplit : l = l₂.reverse ++ b :: l₁.reverse := by
    rw [← List.reverse_reverse l, hl]
    simp
  have hmem := h.all c
  have hlater := h.later
  rw [hsplit] at hmem hlater
  rw [List.pairwise_append] at hlater
  rcases List.mem_append.1 hmem with hc' | hc'
  · exact hlater.2.2 c hc' b List.mem_cons_self
  · rcases List.mem_cons.1 hc' with rfl | hc'
    · exact absurd rfl hne
    · have := hno c (List.mem_reverse.1 hc')
      rw [hc] at this
      cases this

/-- `bget` ends: it finds the block, recycles the buffer that was given up longest ago, or stops the
kernel because all are in use. -/
theorem bget_cases (h : s.Ordered l) (p : P) (dev blockno : Nat) :
    (∃ s', s.bget p dev blockno = .ok () s' ∧ Got s p dev blockno s') ∨
    (s.bget p dev blockno = .panic .noBuffers ∧ ∀ b, ¬ (s.buf b).Unused) := by
  unfold Bcache.bget
  rw [h.scanNext]
  cases hfind : l.find? fun b => decide ((s.buf b).Is dev blockno) with
  | some b =>
    have hb : (s.buf b).Is dev blockno := by simpa using List.find?_some hfind
    exact Or.inl ⟨_, rfl, .hit b hb⟩
  | none =>
    have habsent : ∀ c, ¬ (s.buf c).Is dev blockno := fun c => by
      simpa using List.find?_eq_none.1 hfind c (h.all c)
    dsimp only [Option.map_none]
    rw [h.scanPrev]
    cases hlast : l.reverse.find? fun b => decide (s.buf b).Unused with
    | some b =>
      have hb : (s.buf b).Unused := by simpa using List.find?_some hlast
      exact Or.inl ⟨_, rfl, .miss b habsent hb fun c hne hc => h.oldest hlast c hne (by simpa using hc)⟩
    | none =>
      refine Or.inr ⟨rfl, fun b => ?_⟩
      simpa using List.find?_eq_none.1 hlast b (List.mem_reverse.2 (h.all b))

/-! ## Reference counts -/

section Count

variable [Fintype P]

theorem refcnt_step (h : ∀ b, (s.buf b).refcnt = ∑ p, s.uses p b) (p : P) (b : Fin NBUF)
    (hother : ∀ q c, q ≠ p ∨ c ≠ b → s'.uses q c = s.uses q c)
    (hrest : ∀ c, c ≠ b → (s'.buf c).refcnt = (s.buf c).refcnt)
    (hself : (s'.buf b).refcnt + s.uses p b = (s.buf b).refcnt + s'.uses p b) (c : Fin NBUF) :
    (s'.buf c).refcnt = ∑ q, s'.uses q c := by
  by_cases hc : c = b
  · subst hc
    have hsum := sum_add_of_eq_off (f := fun q => s.uses q c) (g := fun q => s'.uses q c) p
      fun q hq => hother q c (Or.inl hq)
    have hc := h c
    omega
  · rw [hrest c hc, h c]
    exact Finset.sum_congr rfl fun q _ => (hother q c (Or.inr hc)).symm

omit [DecidableEq P] in
theorem uses_le (s : Bcache P) [DecidableEq P] (p : P) (b : Fin NBUF) :
    s.uses p b ≤ ∑ q, s.uses q b :=
  Finset.single_le_sum (f := fun q => s.uses q b) (fun _ _ => Nat.zero_le _) (Finset.mem_univ p)

end Count

omit [DecidableEq P] in
@[simp] theorem buf_set (b : Fin NBUF) (x : Buffer P) : (s.set b x).buf b = x :=
  Function.update_self ..

omit [DecidableEq P] in
theorem buf_set_ne {b c : Fin NBUF} (x : Buffer P) (h : c ≠ b) : (s.set b x).buf c = s.buf c :=
  Function.update_of_ne h _ _

theorem uses_set {p : P} {b : Fin NBUF} {x : Buffer P} {y : BioPos}
    (hlock : ∀ q, q ≠ p → (x.lock = some q ↔ (s.buf b).lock = some q))
    (hpos : ∀ c, c ≠ b → (y = .waiting c ↔ s.pos p = .waiting c) ∧
      (y = .releasing c ↔ s.pos p = .releasing c)) (q : P) (c : Fin NBUF) (hne : q ≠ p ∨ c ≠ b) :
    ((s.set b x).setPos p y).uses q c = s.uses q c := by
  have hbuf : (((s.set b x).setPos p y).buf c).lock = some q ↔ (s.buf c).lock = some q := by
    show ((s.set b x).buf c).lock = some q ↔ _
    by_cases hc : c = b
    · subst hc
      rw [buf_set]
      exact hlock q (hne.resolve_right fun h => h rfl)
    · rw [buf_set_ne x hc]
  have hq : ((s.set b x).setPos p y).pos q = Function.update s.pos p y q := rfl
  unfold uses
  simp only [hbuf, hq]
  by_cases hqp : q = p
  · subst hqp
    have hc := hpos c (hne.resolve_left fun h => h rfl)
    simp only [Function.update_self, hc]
  · rw [Function.update_of_ne hqp]

theorem uses_set_self (p : P) (b : Fin NBUF) (x : Buffer P) (y : BioPos) :
    ((s.set b x).setPos p y).uses p b = (if x.lock = some p then 1 else 0) +
      (if y = .waiting b then 1 else 0) + (if y = .releasing b then 1 else 0) := by
  have hbuf : ((s.set b x).setPos p y).buf b = x := buf_set b x
  have hpos : ((s.set b x).setPos p y).pos p = y := Function.update_self ..
  unfold uses
  rw [hbuf, hpos]

/-! ## The invariant -/

section Inv

variable [Fintype P] {p : P} {b : Fin NBUF}

theorem Inv.set (h : s.Inv) {x : Buffer P} {y : BioPos}
    (huniq : ((s.buf b).dev = x.dev ∧ (s.buf b).blockno = x.blockno) ∨
      ∀ c, ¬ (s.buf c).Is x.dev x.blockno)
    (hlock : ∀ q, q ≠ p → (x.lock = some q ↔ (s.buf b).lock = some q))
    (hpos : ∀ c, c ≠ b → (y = .waiting c ↔ s.pos p = .waiting c) ∧
      (y = .releasing c ↔ s.pos p = .releasing c))
    (hcount : x.refcnt + s.uses p b = (s.buf b).refcnt + ((if x.lock = some p then 1 else 0) +
      (if y = .waiting b then 1 else 0) + (if y = .releasing b then 1 else 0))) :
    ((s.set b x).setPos p y).Inv where
  list := by
    obtain ⟨l, hl⟩ := h.list
    exact ⟨l, hl.ring, hl.all, hl.later⟩
  uniq a c hdev hkey := by
    change ((s.set b x).buf a).dev ≠ 0 at hdev
    change ((s.set b x).buf c).Is ((s.set b x).buf a).dev ((s.set b x).buf a).blockno at hkey
    -- buffer `b` has its old key, or one that no other has
    by_cases ha : a = b <;> by_cases hc : c = b
    · rw [ha, hc]
    · subst ha
      rw [buf_set] at hdev hkey
      rw [buf_set_ne x hc] at hkey
      rcases huniq with hk | hk
      · rw [← hk.1] at hdev
        rw [← hk.1, ← hk.2] at hkey
        exact h.uniq a c hdev hkey
      · exact absurd hkey (hk c)
    · subst hc
      rw [buf_set] at hkey
      rw [buf_set_ne x ha] at hdev hkey
      rcases huniq with hk | hk
      · refine h.uniq a c hdev ?_
        unfold Buffer.Is at hkey ⊢
        rwa [hk.1, hk.2]
      · exact absurd ⟨hkey.1.symm, hkey.2.symm⟩ (hk a)
    · rw [buf_set_ne x ha] at hdev hkey
      rw [buf_set_ne x hc] at hkey
      exact h.uniq a c hdev hkey
  refcnt := by
    refine refcnt_step h.refcnt p b (uses_set hlock hpos) (fun c hc => ?_) ?_
    · show ((s.set b x).buf c).refcnt = _
      rw [buf_set_ne x hc]
    · show ((s.set b x).buf b).refcnt + _ = _
      rw [buf_set, uses_set_self]
      exact hcount
  time := h.time

theorem Inv.flags (h : s.Inv) (p : P) (b : Fin NBUF) (valid dirty : Bool) :
    (s.set b { s.buf b with valid := valid, dirty := dirty }).Inv := by
  have hset := h.set (p := p) (b := b) (x := { s.buf b with valid := valid, dirty := dirty })
    (y := s.pos p) (Or.inl ⟨rfl, rfl⟩) (fun q _ => Iff.rfl) (fun c _ => ⟨Iff.rfl, Iff.rfl⟩) rfl
  have hpos : (s.set b { s.buf b with valid := valid, dirty := dirty }).setPos p (s.pos p) =
      s.set b { s.buf b with valid := valid, dirty := dirty } := by
    simp [setPos, Bcache.set]
  rwa [hpos] at hset

theorem Inv.got (h : s.Inv) {dev blockno : Nat} (hidle : s.pos p = .idle)
    (hg : Got s p dev blockno s') : s'.Inv := by
  cases hg with
  | hit b is =>
    refine h.set (Or.inl ⟨rfl, rfl⟩) (fun q _ => Iff.rfl) (fun c hc => ?_) ?_
    · simp [hidle, Ne.symm hc]
    · simp [uses, hidle]
      omega
  | miss b absent unused oldest =>
    refine h.set (Or.inr absent) (fun q _ => Iff.rfl) (fun c hc => ?_) ?_
    · simp [hidle, Ne.symm hc]
    · simp [uses, hidle, unused.1]
      omega

/-- The buffer goes to the front of the list when the last process gives it up. -/
theorem Inv.front (h : s.Inv) (b : Fin NBUF) : Inv { s with
    links := (s.links.unlink (.buf b)).pushFront .head (.buf b)
    now := s.now + 1
    dropped := Function.update s.dropped b (s.now + 1) } where
  list := by
    obtain ⟨l, hl⟩ := h.list
    obtain ⟨l₁, l₂, rfl⟩ := List.append_of_mem (hl.all b)
    have hnodup := hl.nodup
    have hring := hl.ring
    rw [List.map_append, List.map_cons] at hring
    have hout := hring.unlink
    rw [← List.map_append] at hout
    have hmem : ∀ c, c ∈ l₁ ++ l₂ → c ≠ b := by
      rintro c hc rfl
      grind
    refine ⟨b :: (l₁ ++ l₂), hout.pushFront ?_, fun c => ?_, List.pairwise_cons.2 ⟨fun c hc => ?_, ?_⟩⟩
    · grind
    · have := hl.all c
      grind
    · -- later than all others
      refine Or.inl ?_
      show Function.update s.dropped b (s.now + 1) c < Function.update s.dropped b (s.now + 1) b
      rw [Function.update_self, Function.update_of_ne (hmem c hc)]
      have := h.time c
      omega
    · have hlater := hl.later
      rw [List.pairwise_append, List.pairwise_cons] at hlater
      have hsub : (l₁ ++ l₂).Pairwise s.Later :=
        List.pairwise_append.2 ⟨hlater.1, hlater.2.1.2, fun a ha c hc =>
          hlater.2.2 a ha c (List.mem_cons_of_mem _ hc)⟩
      refine hsub.imp_of_mem fun {a c} ha hc hac => ?_
      unfold Later at hac ⊢
      dsimp only
      rwa [Function.update_of_ne (hmem a ha), Function.update_of_ne (hmem c hc)]
  uniq := h.uniq
  refcnt := h.refcnt
  time c := by
    show Function.update s.dropped b (s.now + 1) c ≤ s.now + 1
    by_cases hc : c = b
    · rw [hc, Function.update_self]
    · rw [Function.update_of_ne hc]
      have := h.time c
      omega

theorem Inv.brelseEnd (h : s.Inv) (hpos : s.pos p = .releasing b) : (s.brelseEnd p b).Inv := by
  have hle := uses_le s p b
  rw [← h.refcnt b] at hle
  have hset : ((s.set b { s.buf b with refcnt := (s.buf b).refcnt - 1 }).setPos p .idle).Inv := by
    refine h.set (Or.inl ⟨rfl, rfl⟩) (fun q _ => Iff.rfl) (fun c hc => ?_) ?_
    · simp [hpos, Ne.symm hc]
    · simp [uses, hpos] at hle ⊢
      omega
  unfold Bcache.brelseEnd
  dsimp only
  split
  · exact hset.front b
  · exact hset

theorem Inv.step (h : s.Inv) {e : BioEvent P} (hst : s.step e = .ok () s') : s'.Inv := by
  cases e with
  | bget p dev blockno =>
    simp only [Bcache.step] at hst
    split at hst
    · next hidle =>
      obtain ⟨l, hl⟩ := h.list
      rcases bget_cases hl p dev blockno with ⟨s₁, hs₁, hg⟩ | ⟨hp, -⟩
      · rw [hs₁] at hst
        cases hst
        exact h.got hidle hg
      · rw [hp] at hst
        cases hst
    · cases hst
  | acquire p =>
    simp only [Bcache.step] at hst
    split at hst
    · next b hpos =>
      split at hst
      · next hfree =>
        cases hst
        refine h.set (Or.inl ⟨rfl, rfl⟩) (fun q hq => ?_) (fun c hc => ?_) ?_
        · simp [hfree, Ne.symm hq]
        · simp [hpos, Ne.symm hc]
        · simp [uses, hpos, hfree]
      · cases hst
    · cases hst
  | iderw p b =>
    simp only [Bcache.step] at hst
    split at hst <;> cases hst
    exact h.flags p b true false
  | logWrite p b =>
    simp only [Bcache.step] at hst
    split at hst <;> cases hst
    exact h.flags p b _ true
  | bwrite p b =>
    simp only [Bcache.step] at hst
    split at hst
    · split at hst <;> cases hst
      exact h.flags p b _ true
    · cases hst
  | brelse p b =>
    simp only [Bcache.step] at hst
    split at hst
    · next hidle =>
      split at hst
      · next hlock =>
        cases hst
        refine h.set (Or.inl ⟨rfl, rfl⟩) (fun q hq => ?_) (fun c hc => ?_) ?_
        · simp [hlock, Ne.symm hq]
        · simp [hidle, Ne.symm hc]
        · simp [uses, hidle, hlock]
      · cases hst
    · cases hst
  | brelseEnd p =>
    simp only [Bcache.step] at hst
    split at hst
    · next b hpos =>
      cases hst
      exact h.brelseEnd hpos
    · cases hst

end Inv

/-! ## After `binit` -/

theorem ring_binit (bs : List (Fin NBUF)) {k : Links BufNode} {l : List (Fin NBUF)}
    (hr : Ring k .head (l.map .buf)) (hnodup : (bs.reverse ++ l).Nodup) :
    Ring (bs.foldl (fun k b => k.pushFront .head (.buf b)) k) .head ((bs.reverse ++ l).map .buf) := by
  induction bs generalizing k l with
  | nil => exact hr
  | cons b bs ih =>
    rw [List.reverse_cons, List.append_assoc, List.singleton_append] at hnodup ⊢
    rw [List.foldl_cons]
    refine ih (l := b :: l) (hr.pushFront ?_) hnodup
    have hb : b ∉ l := by grind
    simpa using hb

theorem inv_binit [Fintype P] : (binit : Bcache P).Inv where
  list := by
    have hring := ring_binit (List.finRange NBUF) (l := []) (Ring.nil (k := ⟨id, id⟩) rfl rfl)
      (by simpa using List.nodup_finRange NBUF)
    rw [List.append_nil] at hring
    refine ⟨_, hring, fun b => by simp, ?_⟩
    exact List.pairwise_of_forall fun _ _ => Or.inr ⟨rfl, rfl⟩
  uniq a b hdev _ := absurd rfl hdev
  refcnt b := by simp [binit, uses]
  time _ := le_rfl

/-- Only `bget` gives a buffer another block. -/
theorem key_of_step {e : BioEvent P} (hst : s.step e = .ok () s')
    (he : ∀ p dev blockno, e ≠ .bget p dev blockno) (b : Fin NBUF) :
    (s'.buf b).Is (s.buf b).dev (s.buf b).blockno := by
  have hset : ∀ (c : Fin NBUF) (x : Buffer P), x.Is (s.buf c).dev (s.buf c).blockno →
      ((s.set c x).buf b).Is (s.buf b).dev (s.buf b).blockno := by
    intro c x hx
    by_cases hb : b = c
    · subst hb
      rwa [buf_set]
    · rw [buf_set_ne x hb]
      exact ⟨rfl, rfl⟩
  cases e with
  | bget p dev blockno => exact absurd rfl (he p dev blockno)
  | acquire p =>
    simp only [Bcache.step] at hst
    split at hst
    · split at hst <;> cases hst
      exact hset _ _ ⟨rfl, rfl⟩
    · cases hst
  | iderw p c | logWrite p c =>
    simp only [Bcache.step] at hst
    split at hst <;> cases hst
    exact hset _ _ ⟨rfl, rfl⟩
  | bwrite p c | brelse p c =>
    simp only [Bcache.step] at hst
    split at hst
    · split at hst <;> cases hst
      exact hset _ _ ⟨rfl, rfl⟩
    · cases hst
  | brelseEnd p =>
    simp only [Bcache.step] at hst
    split at hst
    · cases hst
      unfold Bcache.brelseEnd
      dsimp only
      split <;> exact hset _ _ ⟨rfl, rfl⟩
    · cases hst

/-- The buffer cache, over every interleaving of `bget`, `brelse`, `log_write` and `bwrite`.  The links
are one ring through all buffers; a block has at most one of them; `refcnt` counts the processes
between `bget` and the end of `brelse`; `bget` ends, and where the block is not cached it takes
the unused buffer that was given up longest ago, those never used first; nothing else gives a
buffer another block. -/
theorem buffer_cache [Fintype P] (h : Reaches (Bcache.step (P := P)) anyEvent binit s) :
    (∃ l : List (Fin NBUF), Ring s.links .head (l.map .buf) ∧ l.Nodup ∧ ∀ b, b ∈ l) ∧
    (∀ a b, (s.buf a).dev ≠ 0 → (s.buf b).Is (s.buf a).dev (s.buf a).blockno → a = b) ∧
    (∀ b, (s.buf b).refcnt = ∑ p, s.uses p b) ∧
    (∀ p dev blockno, s.pos p = .idle →
      (∃ s', s.step (.bget p dev blockno) = .ok () s' ∧ Got s p dev blockno s') ∨
      (s.step (.bget p dev blockno) = .panic .noBuffers ∧ ∀ b, ¬ (s.buf b).Unused)) ∧
    ∀ e s', s.step e = .ok () s' → (∀ p dev blockno, e ≠ .bget p dev blockno) →
      ∀ b, (s'.buf b).Is (s.buf b).dev (s.buf b).blockno := by
  have hinv : s.Inv := h.inv inv_binit fun _ _ _ hi _ hst => hi.step hst
  obtain ⟨l, hl⟩ := hinv.list
  refine ⟨⟨l, hl.ring, hl.nodup, hl.all⟩, hinv.uniq, hinv.refcnt, fun p dev blockno hidle => ?_,
    fun e s' hst he => key_of_step hst he⟩
  have hstep : s.step (.bget p dev blockno) = s.bget p dev blockno := if_pos hidle
  rw [hstep]
  exact bget_cases hl p dev blockno

/-- Block 7 is read and given up, the other buffers are taken for the blocks 8 to 36, and two processes
read block 37. -/
def recycling : List (BioEvent Bool) :=
  [.bget false 1 7, .acquire false, .brelse false 0, .brelseEnd false] ++
    (List.range 29).flatMap (fun k => [.bget false 1 (8 + k), .acquire false]) ++
    [.bget false 1 37, .acquire false, .bget true 1 37]

theorem buffer_cache_recycled : ∃ s t : Bcache Bool, Reaches Bcache.step anyEvent binit s ∧
    Reaches Bcache.step anyEvent s t ∧ (s.buf 0).Is 1 7 ∧ (t.buf 0).Is 1 37 ∧
    (∀ b, (t.buf b).refcnt = ∑ p, t.uses p b) ∧ t.uses false 0 = 1 ∧ t.uses true 0 = 1 := by
  have h : ((exec Bcache.step binit (recycling.take 4)).bind fun _ s =>
      (exec Bcache.step s (recycling.drop 4)).bind fun _ t =>
      (.ok (decide ((s.buf 0).Is 1 7 ∧ (t.buf 0).Is 1 37 ∧ t.uses false 0 = 1 ∧ t.uses true 0 = 1)) () :
        Res BioPanic Bool Unit)) = .ok true () := by
    decide +kernel
  obtain ⟨_, s, hs, h⟩ := Res.bind_eq_ok.1 h
  obtain ⟨_, t, ht, h⟩ := Res.bind_eq_ok.1 h
  have hd : decide ((s.buf 0).Is 1 7 ∧ (t.buf 0).Is 1 37 ∧ t.uses false 0 = 1 ∧
      t.uses true 0 = 1) = true := by
    simpa using h
  obtain ⟨h7, h37, hf, ht'⟩ := of_decide_eq_true hd
  have hrun := (reaches_exec hs).trans (reaches_exec ht)
  exact ⟨s, t, reaches_exec hs, reaches_exec ht, h7, h37, (buffer_cache hrun).2.2.1, hf, ht'⟩

end Bcache

end Xv6
