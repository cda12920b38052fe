import Xv6.Lib.Bytes

/-!
# The pattern matcher of `grep`

A pattern is read as an optional `^` and a list of elements, the last of which may be the anchor `$`
(`parse`).  A text matches if a part of it is made of strings that the elements match one after the
other (`Matches`).  `match` of `grep.c` decides this: `matchhere` goes through the elements, and
`matchstar` tries every length for a `*`.
-/

namespace Xv6.User.Grep

open Bytes

/-- The bytes of a string, up to its terminating zero. -/
abbrev Str := List Byte

abbrev star : Byte := 42
abbrev dot : Byte := 46
abbrev dollar : Byte := 36
abbrev caret : Byte := 94

/-! ## The code -/

def matchstarLoop (c : Byte) (here : Str → Bool) : Str → Bool
  | [] => here []
  | t :: text => here (t :: text) || (t == c || c == dot) && matchstarLoop c here text

def matchhere : Str → Str → Bool
  | [], _ => true
  | [c], text =>
    if c = dollar then text.isEmpty
    else match text with
      | [] => false
      | t :: _ => c == dot || c == t
  | c :: d :: re, text =>
    if d = star then matchstarLoop c (fun text => matchhere re text) text
    else match text with
      | [] => false
      | t :: text => (c == dot || c == t) && matchhere (d :: re) text

def matchstar (c : Byte) (re text : Str) : Bool := matchstarLoop c (matchhere re) text

/-- The loop of `match`: look at every suffix, the empty one too. -/
def matchFrom (re : Str) : Str → Bool
  | [] => matchhere re []
  | t :: text => matchhere re (t :: text) || matchFrom re text

def reMatch (re text : Str) : Bool :=
  match re with
  | [] => matchFrom re text
  | c :: rest => if c = caret then matchhere rest text else matchFrom re text

/-! ## The pattern language -/

/-- An element of a pattern. -/
inductive Elem where
  /-- a character, or any for `.` -/
  | one (c : Byte)
  /-- any number of them -/
  | many (c : Byte)

def Stands (c t : Byte) : Prop := c = dot ∨ t = c

/-- The strings that an element matches. -/
def Elem.Matches : Elem → Str → Prop
  | .one c, s => ∃ t, s = [t] ∧ Stands c t
  | .many c, s => ∀ t ∈ s, Stands c t

/-- The elements of a pattern, read off from the left, and whether it ends in the anchor. -/
def parse : Str → List Elem × Bool
  | [] => ([], false)
  | [c] => if c = dollar then ([], true) else ([.one c], false)
  | c :: d :: re =>
    if d = star then (.many c :: (parse re).1, (parse re).2)
    else (.one c :: (parse (d :: re)).1, (parse (d :: re)).2)

/-- A string is made of parts that the elements match in order. -/
def Made (es : List Elem) (s : Str) : Prop :=
  ∃ parts, List.Forall₂ Elem.Matches es parts ∧ s = parts.flatten

/-- A substring of the text, at its start or its end if the pattern says so, is made of parts that
the elements match. -/
def Matches (re text : Str) : Prop :=
  ∃ before mid after, text = before ++ mid ++ after ∧
    (re.head? = some caret → before = []) ∧
    ((parse (if re.head? = some caret then re.tail else re)).2 = true → after = []) ∧
    Made (parse (if re.head? = some caret then re.tail else re)).1 mid

/-! ## The matcher decides it -/

theorem made_nil {s : Str} : Made [] s ↔ s = [] := by
  constructor
  · rintro ⟨parts, h, rfl⟩
    cases h
    rfl
  · rintro rfl
    exact ⟨[], .nil, rfl⟩

theorem made_cons {e : Elem} {es : List Elem} {s : Str} :
    Made (e :: es) s ↔ ∃ a b, s = a ++ b ∧ e.Matches a ∧ Made es b := by
  constructor
  · rintro ⟨parts, h, rfl⟩
    cases h with
    | @cons _ a _ parts he hes => exact ⟨a, parts.flatten, rfl, he, parts, hes, rfl⟩
  · rintro ⟨a, b, rfl, he, parts, hes, rfl⟩
    exact ⟨a :: parts, .cons he hes, rfl⟩

theorem stands_iff (c t : Byte) : (c == dot || c == t) = true ↔ Stands c t := by
  rw [Bool.or_eq_true, beq_iff_eq, beq_iff_eq, Stands]
  exact or_congr_right eq_comm

theorem matchhere_star (c : Byte) (re text : Str) :
    matchhere (c :: star :: re) text = matchstar c re text := by
  unfold matchhere matchstar
  rw [if_pos rfl]

theorem matchstarLoop_iff (c : Byte) (here : Str → Bool) (text : Str) :
    matchstarLoop c here text = true ↔
      ∃ a b, text = a ++ b ∧ (∀ t ∈ a, Stands c t) ∧ here b = true := by
  induction text with
  | nil =>
    constructor
    · intro h
      exact ⟨[], [], rfl, by simp, h⟩
    · rintro ⟨a, b, hab, _, hb⟩
      rw [eq_comm, List.append_eq_nil_iff] at hab
      rw [hab.2] at hb
      exact hb
  | cons t text ih =>
    have hstep : (t == c || c == dot) = true ↔ Stands c t := by
      rw [Bool.or_eq_true, beq_iff_eq, beq_iff_eq, Stands, or_comm]
    unfold matchstarLoop
    rw [Bool.or_eq_true, Bool.and_eq_true, hstep, ih]
    constructor
    · rintro (h | ⟨ht, a, b, rfl, ha, hb⟩)
      · exact ⟨[], t :: text, rfl, by simp, h⟩
      · exact ⟨t :: a, b, rfl, List.forall_mem_cons.2 ⟨ht, ha⟩, hb⟩
    · rintro ⟨a, b, hab, ha, hb⟩
      cases a with
      | nil =>
        rw [List.nil_append] at hab
        exact Or.inl (hab ▸ hb)
      | cons x a =>
        obtain ⟨rfl, rfl⟩ := List.cons.inj hab
        obtain ⟨hx, ha⟩ := List.forall_mem_cons.1 ha
        exact Or.inr ⟨hx, a, b, rfl, ha, hb⟩

/-- A first part of the text is made of what the elements match, and it is the whole text if the
pattern ends in the anchor. -/
def Starts (p : List Elem × Bool) (text : Str) : Prop :=
  ∃ mid after, text = mid ++ after ∧ (p.2 = true → after = []) ∧ Made p.1 mid

/-- An element at the front. -/
theorem starts_cons {e : Elem} {p : List Elem × Bool} {text : Str} :
    Starts (e :: p.1, p.2) text ↔ ∃ a b, text = a ++ b ∧ e.Matches a ∧ Starts p b := by
  constructor
  · rintro ⟨mid, after, rfl, hend, hmade⟩
    obtain ⟨a, b, rfl, he, hb⟩ := made_cons.1 hmade
    exact ⟨a, b ++ after, List.append_assoc .., he, b, after, rfl, hend, hb⟩
  · rintro ⟨a, _, rfl, he, mid, after, rfl, hend, hmade⟩
    exact ⟨a ++ mid, after, (List.append_assoc ..).symm, hend, made_cons.2 ⟨a, mid, rfl, he, hmade⟩⟩

/-- An element for one character takes the first one off. -/
theorem starts_one {c : Byte} {p : List Elem × Bool} {text : Str} :
    Starts (.one c :: p.1, p.2) text ↔ ∃ t rest, text = t :: rest ∧ Stands c t ∧ Starts p rest := by
  rw [starts_cons]
  constructor
  · rintro ⟨_, b, rfl, ⟨t, rfl, ht⟩, hb⟩
    exact ⟨t, b, rfl, ht, hb⟩
  · rintro ⟨t, b, rfl, ht, hb⟩
    exact ⟨[t], b, rfl, ⟨t, rfl, ht⟩, hb⟩

theorem starts_nil (text : Str) : Starts ([], false) text :=
  ⟨[], text, rfl, by simp, made_nil.2 rfl⟩

/-- One character is looked at. -/
theorem one_iff (c : Byte) (here : Str → Bool) (p : List Elem × Bool)
    (hhere : ∀ text, here text = true ↔ Starts p text) (text : Str) :
    (match text with
      | [] => false
      | t :: text => (c == dot || c == t) && here text) = true ↔
      Starts (.one c :: p.1, p.2) text := by
  rw [starts_one]
  cases text with
  | nil => simp
  | cons t text =>
    rw [Bool.and_eq_true, stands_iff, hhere]
    constructor
    · rintro ⟨ht, hp⟩
      exact ⟨t, text, rfl, ht, hp⟩
    · rintro ⟨_, _, he, ht, hp⟩
      obtain ⟨rfl, rfl⟩ := List.cons.inj he
      exact ⟨ht, hp⟩

/-- `matchhere` looks for the elements of the pattern at the beginning of the text.  The cases are
those in which the elements are read off. -/
theorem matchhere_iff (re text : Str) : matchhere re text = true ↔ Starts (parse re) text := by
  match re with
  | [] => exact ⟨fun _ => starts_nil text, fun _ => rfl⟩
  | [c] =>
    unfold matchhere parse
    by_cases hc : c = dollar
    · rw [if_pos hc, if_pos hc, List.isEmpty_iff]
      constructor
      · rintro rfl
        exact ⟨[], [], rfl, fun _ => rfl, made_nil.2 rfl⟩
      · rintro ⟨mid, after, rfl, hend, hmade⟩
        rw [made_nil.1 hmade, hend rfl]
        rfl
    · rw [if_neg hc, if_neg hc]
      have h := one_iff c (fun _ => true) ([], false) (fun text => ⟨fun _ => starts_nil text,
        fun _ => rfl⟩) text
      simpa only [Bool.and_true] using h
  | c :: d :: re =>
    by_cases hd : d = star
    · rw [hd, matchhere_star, matchstar, matchstarLoop_iff, parse, if_pos rfl, starts_cons]
      constructor
      · rintro ⟨a, b, hab, ha, hb⟩
        exact ⟨a, b, hab, ha, (matchhere_iff re b).1 hb⟩
      · rintro ⟨a, b, hab, ha, hb⟩
        exact ⟨a, b, hab, ha, (matchhere_iff re b).2 hb⟩
    · unfold matchhere parse
      rw [if_neg hd, if_neg hd]
      exact one_iff c (fun text => matchhere (d :: re) text) (parse (d :: re))
        (fun text => matchhere_iff (d :: re) text) text
termination_by re.length

theorem matchFrom_iff (re text : Str) : matchFrom re text = true ↔
    ∃ before rest, text = before ++ rest ∧ matchhere re rest = true := by
  induction text with
  | nil =>
    constructor
    · intro h
      exact ⟨[], [], rfl, h⟩
    · rintro ⟨before, rest, hab, h⟩
      rw [eq_comm, List.append_eq_nil_iff] at hab
      rw [hab.2] at h
      exact h
  | cons t text ih =>
    unfold matchFrom
    rw [Bool.or_eq_true, ih]
    constructor
    · rintro (h | ⟨before, rest, rfl, h⟩)
      · exact ⟨[], t :: text, rfl, h⟩
      · exact ⟨t :: before, rest, rfl, h⟩
    · rintro ⟨before, rest, hab, h⟩
      cases before with
      | nil =>
        rw [List.nil_append] at hab
        exact Or.inl (hab ▸ h)
      | cons x before =>
        obtain ⟨rfl, rfl⟩ := List.cons.inj hab
        exact Or.inr ⟨before, rest, rfl, h⟩

/-- Without `^` the part may begin anywhere. -/
theorem matchFrom_matches {re : Str} (hre : re.head? ≠ some caret) (text : Str) :
    matchFrom re text = true ↔ Matches re text := by
  unfold Matches
  rw [matchFrom_iff, if_neg hre]
  constructor
  · rintro ⟨before, rest, rfl, h⟩
    obtain ⟨mid, after, rfl, hend, hmade⟩ := (matchhere_iff re rest).1 h
    exact ⟨before, mid, after, (List.append_assoc ..).symm, fun hc => absurd hc hre, hend, hmade⟩
  · rintro ⟨before, mid, after, rfl, _, hend, hmade⟩
    exact ⟨before, mid ++ after, List.append_assoc .., (matchhere_iff re _).2
      ⟨mid, after, rfl, hend, hmade⟩⟩

/-- `match` returns 1 exactly for the texts that the pattern matches. -/
theorem reMatch_iff (re text : Str) : reMatch re text = true ↔ Matches re text := by
  unfold reMatch
  cases re with
  | nil => exact matchFrom_matches (by simp) text
  | cons c rest =>
    by_cases hc : c = caret
    · have hhead : (c :: rest).head? = some caret := by rw [hc, List.head?_cons]
      dsimp only
      unfold Matches
      rw [if_pos hc, matchhere_iff, if_pos hhead, List.tail_cons]
      constructor
      · rintro ⟨mid, after, rfl, hend, hmade⟩
        exact ⟨[], mid, after, rfl, fun _ => rfl, hend, hmade⟩
      · rintro ⟨before, mid, after, rfl, hstart, hend, hmade⟩
        rw [hstart hhead]
        exact ⟨mid, after, rfl, hend, hmade⟩
    · dsimp only
      rw [if_neg hc]
      refine matchFrom_matches (fun h => hc ?_) text
      rw [List.head?_cons] at h
      exact Option.some.inj h

-- `^a*.$` on `aab`, and the positions in which `*` and `$` are ordinary characters
example : reMatch [caret, 97, star, dot, dollar] [97, 97, 98] = true := by decide
example : reMatch [star, dollar, 98] [97, star, dollar, 98] = true := by decide

end Xv6.User.Grep
