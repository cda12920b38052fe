import Xv6.User.Match

/-!
# `grep` reads in pieces

`grep` keeps the part of a line that it has read in its buffer until the rest arrives.  But where the
buffer has no newline at all (`p == buf`) it throws it away.  So it finds the lines that match, for
every pattern, exactly if every piece that `read` returns has a newline in it.
-/

namespace Xv6.User.Grep

open Bytes

abbrev newline : Byte := 10

/-! ## The code -/

/-- `strchr(p, '\n')`: the line before the newline and what follows, if there is a newline before the
terminating zero. -/
def strchr : Str → Option (Str × Str)
  | [] => none
  | c :: s =>
    if c = 0 then none
    else if c = newline then some ([], s)
    else match strchr s with
      | some (line, rest) => some (c :: line, rest)
      | none => none

/-- The inner loop: what is written, and what is left from `p` on.  A round takes a byte at least. -/
def greplines (pattern : Str) : Nat → Str → Str × Str
  | 0, p => ([], p)
  | rounds + 1, p =>
    match strchr p with
    | none => ([], p)
    | some (line, rest) =>
      let out := if reMatch pattern line then line ++ [newline] else []
      (out ++ (greplines pattern rounds rest).1, (greplines pattern rounds rest).2)

/-- `sizeof(buf)` -/
abbrev BUFSZ : Nat := 1024

/-- A round of `grep`: the buffer holds `m` bytes, `read` returns `piece`; what is written, and what
the buffer holds then. -/
def greppiece (pattern : Str) (buf piece : Str) : Str × Str :=
  let buf := buf ++ piece
  let r := greplines pattern buf.length buf
  -- `if(p == buf) m = 0;`
  if r.2.length = buf.length then (r.1, []) else r

/-- `grep` on the pieces that `read` returns one after the other. -/
def grep (pattern : Str) : Str → List Str → Str
  | _, [] => []
  | buf, piece :: pieces =>
    (greppiece pattern buf piece).1 ++ grep pattern (greppiece pattern buf piece).2 pieces

/-- Each piece has between one byte and the number that `read` is asked for, `sizeof(buf)-m-1`.  What
the buffer holds does not depend on the pattern. -/
def Arrives : Str → List Str → Prop
  | _, [] => True
  | buf, piece :: pieces =>
    1 ≤ piece.length ∧ piece.length ≤ BUFSZ - buf.length - 1 ∧
      Arrives (greppiece [] buf piece).2 pieces

instance decArrives : ∀ buf pieces, Decidable (Arrives buf pieces)
  | _, [] => isTrue trivial
  | buf, piece :: pieces =>
    have := decArrives (greppiece [] buf piece).2 pieces
    inferInstanceAs (Decidable (_ ∧ _ ∧ _))

/-! ## Lines -/

/-- The text made of these lines. -/
def unlines (ls : List Str) : Str := ls.flatMap fun l => l ++ [newline]

/-- What should be written. -/
def matching (pattern : Str) (ls : List Str) : Str := unlines (ls.filter (reMatch pattern))

/-- A line: without newline and zero. -/
def Line (l : Str) : Prop := newline ∉ l ∧ 0 ∉ l

instance (l : Str) : Decidable (Line l) := inferInstanceAs (Decidable (_ ∧ _))

theorem unlines_cons (l : Str) (ls : List Str) : unlines (l :: ls) = l ++ newline :: unlines ls := by
  simp [unlines]

theorem unlines_append (ls ls' : List Str) : unlines (ls ++ ls') = unlines ls ++ unlines ls' := by
  simp [unlines]

theorem zero_not_mem_unlines {ls : List Str} (hls : ∀ l ∈ ls, Line l) : (0 : Byte) ∉ unlines ls := by
  intro h0
  obtain ⟨l, hl, hin⟩ := List.mem_flatMap.1 h0
  rcases List.mem_append.1 hin with hin | hin
  · exact (hls l hl).2 hin
  · exact absurd (List.mem_singleton.1 hin) (by decide)

theorem strchr_line {l : Str} (hl : Line l) (s : Str) :
    strchr (l ++ newline :: s) = some (l, s) := by
  induction l with
  | nil => rfl
  | cons c l ih =>
    have hc0 : c ≠ 0 := fun h => hl.2 (h ▸ List.mem_cons_self)
    have hcn : c ≠ newline := fun h => hl.1 (h ▸ List.mem_cons_self)
    rw [List.cons_append, strchr, if_neg hc0, if_neg hcn,
      ih ⟨fun h => hl.1 (List.mem_cons_of_mem c h), fun h => hl.2 (List.mem_cons_of_mem c h)⟩]

theorem strchr_none {s : Str} (hs : newline ∉ s) : strchr s = none := by
  induction s with
  | nil => rfl
  | cons c s ih =>
    have hcn : c ≠ newline := fun h => hs (h ▸ List.mem_cons_self)
    rw [strchr, if_neg hcn, ih fun h => hs (List.mem_cons_of_mem c h)]
    simp

/-- The inner loop goes through the lines and leaves what follows the last one. -/
theorem greplines_unlines (pattern : Str) {ls : List Str} (hls : ∀ l ∈ ls, Line l) {left : Str}
    (hleft : newline ∉ left) (rounds : Nat) (hr : (unlines ls ++ left).length ≤ rounds) :
    greplines pattern rounds (unlines ls ++ left) = (matching pattern ls, left) := by
  induction ls generalizing rounds with
  | nil =>
    have hnone : strchr (unlines [] ++ left) = none := strchr_none hleft
    cases rounds with
    | zero => rfl
    | succ rounds =>
      rw [greplines, hnone]
      rfl
  | cons l ls ih =>
    obtain ⟨hl, hls⟩ := List.forall_mem_cons.1 hls
    rw [unlines_cons, List.append_assoc, List.cons_append] at hr ⊢
    rw [List.length_append, List.length_cons] at hr
    cases rounds with
    | zero => omega
    | succ rounds =>
      rw [greplines, strchr_line hl]
      dsimp only
      rw [ih hls rounds (by omega)]
      unfold matching
      by_cases hm : reMatch pattern l = true
      · rw [if_pos hm, List.filter_cons_of_pos hm, unlines_cons, List.append_assoc]
        rfl
      · rw [if_neg hm, List.filter_cons_of_neg hm, List.nil_append]

/-- Every text without zero is some lines and a rest without newline. -/
theorem exists_unlines {s : Str} (hs : (0 : Byte) ∉ s) :
    ∃ ls left, s = unlines ls ++ left ∧ (∀ l ∈ ls, Line l) ∧ newline ∉ left ∧
      (newline ∈ s → ls ≠ []) := by
  induction s with
  | nil => exact ⟨[], [], rfl, by simp, by simp, by simp⟩
  | cons c s ih =>
    have hc0 : c ≠ 0 := fun h => hs (h ▸ List.mem_cons_self)
    obtain ⟨ls, left, rfl, hls, hleft, hne⟩ := ih fun h => hs (List.mem_cons_of_mem c h)
    by_cases hc : c = newline
    · -- an empty line in front
      refine ⟨[] :: ls, left, by rw [unlines_cons, hc]; rfl, ?_, hleft, by simp⟩
      exact List.forall_mem_cons.2 ⟨⟨by simp, by simp⟩, hls⟩
    · cases ls with
      | nil =>
        have hout : newline ∉ c :: left := by
          rw [List.mem_cons, not_or]
          exact ⟨fun h => hc h.symm, hleft⟩
        exact ⟨[], c :: left, rfl, by simp, hout, fun h => absurd h hout⟩
      | cons l ls =>
        obtain ⟨hl, hls⟩ := List.forall_mem_cons.1 hls
        refine ⟨(c :: l) :: ls, left, by rw [unlines_cons, unlines_cons]; rfl, ?_, hleft, by simp⟩
        refine List.forall_mem_cons.2 ⟨⟨?_, ?_⟩, hls⟩
        · rw [List.mem_cons, not_or]
          exact ⟨fun h => hc h.symm, hl.1⟩
        · rw [List.mem_cons, not_or]
          exact ⟨fun h => hc0 h.symm, hl.2⟩

/-- A text of lines is so in one way. -/
theorem unlines_split {ls ls₁ : List Str} {s : Str} (hls : ∀ l ∈ ls, Line l)
    (hls₁ : ∀ l ∈ ls₁, Line l) (h : unlines ls = unlines ls₁ ++ s) :
    ∃ ls₂, ls = ls₁ ++ ls₂ ∧ unlines ls₂ = s := by
  induction ls₁ generalizing ls with
  | nil => exact ⟨ls, rfl, h⟩
  | cons l ls₁ ih =>
    obtain ⟨hl, hrest₁⟩ := List.forall_mem_cons.1 hls₁
    rw [unlines_cons, List.append_assoc, List.cons_append] at h
    cases ls with
    | nil =>
      have := congrArg List.length h
      simp [unlines] at this
    | cons l' ls =>
      obtain ⟨hl', hls⟩ := List.forall_mem_cons.1 hls
      rw [unlines_cons] at h
      -- both sides have the same first line
      have hfirst := congrArg strchr h
      rw [strchr_line hl', strchr_line hl] at hfirst
      obtain ⟨rfl, hrest⟩ := Prod.mk.inj (Option.some.inj hfirst)
      obtain ⟨ls₂, rfl, hs⟩ := ih hls hrest₁ hrest
      exact ⟨ls₂, rfl, hs⟩

/-! ## A round -/

theorem greppiece_unlines (pattern : Str) {buf piece : Str} {ls : List Str} {left : Str}
    (h : buf ++ piece = unlines ls ++ left) (hls : ∀ l ∈ ls, Line l) (hleft : newline ∉ left)
    (hne : ls ≠ []) : greppiece pattern buf piece = (matching pattern ls, left) := by
  have hrun := greplines_unlines pattern hls hleft (buf ++ piece).length (by rw [h])
  rw [← h] at hrun
  unfold greppiece
  dsimp only
  rw [hrun]
  refine if_neg fun hlen => ?_
  dsimp only at hlen
  obtain ⟨l, ls', rfl⟩ := List.exists_cons_of_ne_nil hne
  rw [h, unlines_cons] at hlen
  simp only [List.length_append, List.length_cons] at hlen
  omega

theorem greppiece_lost (pattern : Str) {buf piece : Str} (h : newline ∉ buf ++ piece) :
    greppiece pattern buf piece = ([], []) := by
  have hrun : greplines pattern (buf ++ piece).length (unlines [] ++ (buf ++ piece)) =
      (matching pattern [], buf ++ piece) := greplines_unlines pattern (by simp) h _ le_rfl
  have hnil : unlines [] ++ (buf ++ piece) = buf ++ piece := rfl
  rw [hnil] at hrun
  unfold greppiece
  dsimp only
  rw [hrun, if_pos rfl]
  rfl

/-! ## Whole inputs -/

theorem grep_matching (pattern : Str) {pieces : List Str} {buf : Str} {ls : List Str}
    (hls : ∀ l ∈ ls, Line l) (h : buf ++ pieces.flatten = unlines ls) (hbuf : newline ∉ buf)
    (hnl : ∀ piece ∈ pieces, newline ∈ piece) : grep pattern buf pieces = matching pattern ls := by
  induction pieces generalizing buf ls with
  | nil =>
    -- a text of lines without a newline has no line
    rw [List.flatten_nil, List.append_nil] at h
    cases ls with
    | nil => rfl
    | cons l ls =>
      rw [h, unlines_cons] at hbuf
      simp at hbuf
  | cons piece pieces ih =>
    obtain ⟨hpiece, hpieces⟩ := List.forall_mem_cons.1 hnl
    rw [List.flatten_cons, ← List.append_assoc] at h
    have hzero : (0 : Byte) ∉ buf ++ piece :=
      fun h0 => zero_not_mem_unlines hls (h ▸ List.mem_append_left _ h0)
    obtain ⟨ls₁, left, hsplit, hls₁, hleft, hne⟩ := exists_unlines hzero
    have hround := greppiece_unlines pattern hsplit hls₁ hleft
      (hne (List.mem_append_right _ hpiece))
    rw [hsplit, List.append_assoc] at h
    obtain ⟨ls₂, rfl, hls₂⟩ := unlines_split hls hls₁ h.symm
    rw [grep, hround, ih (fun l hl => hls l (List.mem_append_right _ hl)) hls₂.symm hleft hpieces]
    unfold matching
    rw [List.filter_append, unlines_append]

theorem reMatch_empty (l : Str) : reMatch [] l = true := by
  cases l <;> rfl

theorem matching_empty (ls : List Str) : matching [] ls = unlines ls := by
  unfold matching
  rw [List.filter_eq_self.2 fun l _ => reMatch_empty l]

theorem length_grep_empty {pieces : List Str} {buf : Str} (hbuf : newline ∉ buf)
    (hzero : (0 : Byte) ∉ buf ++ pieces.flatten) (hpos : ∀ piece ∈ pieces, 1 ≤ piece.length) :
    (grep [] buf pieces).length ≤ buf.length + pieces.flatten.length ∧
      ((∃ piece ∈ pieces, newline ∉ piece) →
        (grep [] buf pieces).length < buf.length + pieces.flatten.length) := by
  induction pieces generalizing buf with
  | nil => exact ⟨Nat.zero_le _, by simp⟩
  | cons piece pieces ih =>
    obtain ⟨hpiece, hpieces⟩ := List.forall_mem_cons.1 hpos
    rw [List.flatten_cons, ← List.append_assoc] at hzero
    have hzero₁ : (0 : Byte) ∉ buf ++ piece := fun h => hzero (List.mem_append_left _ h)
    have hzero₂ : (0 : Byte) ∉ pieces.flatten := fun h => hzero (List.mem_append_right _ h)
    rw [List.flatten_cons, List.length_append, grep, List.length_append]
    by_cases hnl : newline ∈ piece
    · obtain ⟨ls, left, hsplit, hls, hleft, hne⟩ := exists_unlines hzero₁
      have hround := greppiece_unlines [] hsplit hls hleft (hne (List.mem_append_right _ hnl))
      have hlen : buf.length + piece.length = (unlines ls).length + left.length := by
        rw [← List.length_append, hsplit, List.length_append]
      have hzero₃ : (0 : Byte) ∉ left ++ pieces.flatten := by
        rw [List.mem_append, not_or]
        exact ⟨fun h => hzero₁ (hsplit ▸ List.mem_append_right _ h), hzero₂⟩
      obtain ⟨hle, hlt⟩ := ih hleft hzero₃ hpieces
      rw [hround, matching_empty]
      dsimp only
      refine ⟨by omega, ?_⟩
      rintro ⟨x, hx, hxn⟩
      rcases List.mem_cons.1 hx with rfl | hx
      · exact absurd hnl hxn
      · have := hlt ⟨x, hx, hxn⟩
        omega
    · have hout : newline ∉ buf ++ piece := by
        rw [List.mem_append, not_or]
        exact ⟨hbuf, hnl⟩
      have hempty : newline ∉ ([] : Str) := by simp
      obtain ⟨hle, _⟩ := ih hempty hzero₂ hpieces
      rw [greppiece_lost [] hout]
      dsimp only
      rw [List.length_nil, Nat.zero_add] at hle ⊢
      exact ⟨by omega, fun _ => by omega⟩

theorem Arrives.pos {buf : Str} {pieces : List Str} (h : Arrives buf pieces) :
    ∀ piece ∈ pieces, 1 ≤ piece.length := by
  induction pieces generalizing buf with
  | nil => simp
  | cons piece pieces ih => exact List.forall_mem_cons.2 ⟨h.1, ih h.2.2⟩

/-- An input of lines arrives in pieces: `grep` writes the lines that match, for every pattern, exactly
if every piece has a newline. -/
theorem grep_output_iff {ls : List Str} (hls : ∀ l ∈ ls, Line l) {pieces : List Str}
    (hsplit : pieces.flatten = unlines ls) (harr : Arrives [] pieces) :
    (∀ pattern, grep pattern [] pieces = matching pattern ls) ↔
      ∀ piece ∈ pieces, newline ∈ piece := by
  constructor
  · intro h
    by_contra hno
    push Not at hno
    have hzero : (0 : Byte) ∉ [] ++ pieces.flatten := by
      rw [List.nil_append, hsplit]
      exact zero_not_mem_unlines hls
    have hlt := (length_grep_empty (by simp) hzero harr.pos).2 hno
    rw [h [], matching_empty, hsplit] at hlt
    simp at hlt
  · exact fun hnl pattern => grep_matching pattern hls hsplit (by simp) hnl

/-- Two lines in two pieces, the second of which starts within a line. -/
theorem grep_output_two : grep [98] [] [[97, 10, 97], [98, 10]] = matching [98] [[97], [97, 98]] :=
  (grep_output_iff (by decide) (by decide) (by decide)).2 (by decide) [98]

/-- The line `ab` is found if it arrives at once, and not if it arrives in two pieces. -/
theorem grep_loses_line : Arrives [] [[97, 98, 10]] ∧ Arrives [] [[97], [98, 10]] ∧
    [[97, 98, 10]].flatten = [[97], [98, 10]].flatten ∧
    grep [97, 98] [] [[97, 98, 10]] = [97, 98, 10] ∧ grep [97, 98] [] [[97], [98, 10]] = [] := by
  decide

end Xv6.User.Grep
