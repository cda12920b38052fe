import Xv6.Lib.CString
import Xv6.Console.Input

/-!
# `init.c`: the login

The console hands out its input line by line (`read`); what is left of it is a list of bytes.  A
read that finds neither a newline nor as many bytes as it asks for waits for more input, `none`.

`getInput` reads a line into a buffer of 33 bytes.  Whether there is a rest of the line to be thrown
away is decided from the number of bytes read alone, and a line of 31 bytes with its newline gives
the same number as a longer one.
-/

namespace Xv6.User

open Bytes
open Console (newline)

abbrev MAX_ATTEMPTS : Nat := 3

/-- `sizeof(username)` and `sizeof(password)` -/
abbrev INPUTSZ : Nat := 33

/-- `read(0, b, n)` on the console: the next bytes, up to `n` of them or through the next newline. -/
def read : Nat → List Byte → Option (List Byte × List Byte)
  | 0, input => some ([], input)
  | _ + 1, [] => none
  | n + 1, c :: input =>
    if c = newline then some ([c], input)
    else (read n input).map fun r => (c :: r.1, r.2)

/-- `while(read(0, &flush, 1) == 1 && flush != '\n');` -/
def flush : List Byte → Option (List Byte)
  | [] => none
  | c :: input => if c = newline then some input else flush input

/-- The end of `get_input`: a newline at the end of what was read makes way for the `0`. -/
def endLine (buffer : Blk INPUTSZ) (len : Nat) : Blk INPUTSZ :=
  if 0 < len ∧ buffer.get (len - 1) = newline then buffer.splice (len - 1) 1 fun _ => 0
  else buffer.splice len 1 fun _ => 0

def getInput (buffer : Blk INPUTSZ) (input : List Byte) : Option (Blk INPUTSZ × List Byte) := do
  let (bs, input) ← read (INPUTSZ - 1) input
  let len := bs.length
  let buffer := buffer.splice 0 len fun i => bs.getD i 0
  let input ← if len = INPUTSZ - 1 then flush input else some input
  return (endLine buffer len, input)

def isAlnum (c : Byte) : Bool :=
  (65 ≤ c.toNat && c.toNat ≤ 90) || (97 ≤ c.toNat && c.toNat ≤ 122) ||
    (48 ≤ c.toNat && c.toNat ≤ 57)

/-- Function to validate username and password. -/
def isValidInput (s : List Byte) : Bool := s.all isAlnum

/-- The bytes that a call takes which leaves `rest` of the input. -/
def consumed (input rest : List Byte) : List Byte := input.take (input.length - rest.length)

/-- `attempts` at the end of a loop, after the bytes that each call of `get_input` took in it. -/
abbrev Attempts : Type := List (List Byte) × Option Nat

def Attempts.after (bs : List Byte) (r : Attempts) : Attempts := (bs :: r.1, r.2)

/-- The loop of `main`, from the round with `n` attempts left on. -/
def loginFrom (user pass : List Byte) : Nat → Blk INPUTSZ → Blk INPUTSZ → List Byte → Attempts
  | 0, _, _, _ => ([], some MAX_ATTEMPTS)
  | n + 1, username, password, input =>
    match getInput username input with
    | none => ([], none)
    | some (username, rest) => .after (consumed input rest)
      (if isValidInput username.cstr = false then loginFrom user pass n username password rest
      else if username.cstr ≠ user then loginFrom user pass n username password rest
      else match getInput password rest with
        | none => ([], none)
        | some (password, rest') => .after (consumed rest rest')
          (if isValidInput password.cstr = false then loginFrom user pass n username password rest'
          else if password.cstr ≠ pass then loginFrom user pass n username password rest'
          else ([], some (MAX_ATTEMPTS - (n + 1)))))

/-- What `init` goes on to do. -/
inductive Outcome
  /-- It sleeps for good. -/
  | disabled
  /-- It starts the shell. -/
  | shell
  deriving DecidableEq, Repr

/-- `main`, with what the stack held where the two buffers are. -/
def login (user pass : List Byte) (username password : Blk INPUTSZ) (input : List Byte) :
    Option Outcome := do
  let attempts ← (loginFrom user pass MAX_ATTEMPTS username password input).2
  return if attempts = MAX_ATTEMPTS then .disabled else .shell

/-- The bytes that the calls of `get_input` take, one after the other. -/
def loginReads (user pass : List Byte) (username password : Blk INPUTSZ) (input : List Byte) :
    List (List Byte) := (loginFrom user pass MAX_ATTEMPTS username password input).1

/-! ## Lines -/

/-- The input made of these lines. -/
def typed (ls : List (List Byte)) : List Byte := ls.flatMap (· ++ [newline])

/-- As much of a line as a buffer has room for. -/
def shown (l : List Byte) : List Byte := l.take (INPUTSZ - 1)

/-- What the login is for: an attempt takes a line for the name and, if the name is right, one for
the password. -/
def loginSpec (user pass : List Byte) : Nat → List (List Byte) → Option Outcome
  | 0, _ => some .disabled
  | _ + 1, [] => none
  | n + 1, u :: ls =>
    if shown u ≠ user then loginSpec user pass n ls
    else match ls with
      | [] => none
      | p :: ls => if shown p = pass then some .shell else loginSpec user pass n ls

/-- The lines that the attempts take. -/
def linesRead (user pass : List Byte) : Nat → List (List Byte) → List (List Byte)
  | 0, _ => []
  | _ + 1, [] => []
  | n + 1, u :: ls => u ::
    if shown u ≠ user then linesRead user pass n ls
    else match ls with
      | [] => []
      | p :: ls => p :: if shown p = pass then [] else linesRead user pass n ls

theorem read_line {l : List Byte} (hl : newline ∉ l) (n : Nat) (input : List Byte) :
    read n (l ++ newline :: input) =
      if l.length < n then some (l ++ [newline], input)
      else some (l.take n, l.drop n ++ newline :: input) := by
  induction l generalizing n with
  | nil => cases n <;> rfl
  | cons c l ih =>
    rw [List.mem_cons, not_or] at hl
    cases n with
    | zero => rfl
    | succ n =>
      rw [List.cons_append, read, if_neg (Ne.symm hl.1), ih hl.2, List.length_cons]
      by_cases hn : l.length < n
      · rw [if_pos hn, if_pos (Nat.succ_lt_succ hn)]
        rfl
      · rw [if_neg hn, if_neg (mt Nat.lt_of_succ_lt_succ hn)]
        rfl

theorem flush_line {l : List Byte} (hl : newline ∉ l) (input : List Byte) :
    flush (l ++ newline :: input) = some input := by
  induction l with
  | nil => rfl
  | cons c l ih =>
    rw [List.mem_cons, not_or] at hl
    rw [List.cons_append, flush, if_neg (Ne.symm hl.1), ih hl.2]

theorem flush_length {input rest : List Byte} (h : flush input = some rest) :
    rest.length < input.length := by
  induction input with
  | nil => cases h
  | cons c input ih =>
    rw [flush] at h
    split at h
    · cases h
      exact Nat.lt_succ_self _
    · exact (ih h).trans (Nat.lt_succ_self _)

theorem length_shown (l : List Byte) : (shown l).length < INPUTSZ := by
  rw [shown, List.length_take]
  exact Nat.lt_of_le_of_lt (Nat.min_le_left _ _) (by decide)

theorem endLine_newline {l : List Byte} (hlen : l.length < INPUTSZ) (buffer : Blk INPUTSZ) :
    (endLine (buffer.splice 0 (l ++ [newline]).length fun i => (l ++ [newline]).getD i 0)
      (l ++ [newline]).length).Holds l := by
  have hn : (l ++ [newline]).length - 1 = l.length := by simp
  have hlast : (buffer.splice 0 (l ++ [newline]).length fun i => (l ++ [newline]).getD i 0).get
      l.length = newline := by
    rw [Blk.get_splice _ _ _ _ hlen, if_pos (by simp)]
    simp
  have hholds := Blk.holds_take buffer (l ++ [newline]) hlen (by simp)
  rw [List.take_left] at hholds
  rwa [endLine, hn, if_pos ⟨by simp, hlast⟩]

/-- Without one the `0` comes after all of the bytes. -/
theorem endLine_full {bs : List Byte} (hbs : newline ∉ bs) (hlen : bs.length < INPUTSZ)
    (buffer : Blk INPUTSZ) :
    (endLine (buffer.splice 0 bs.length fun i => bs.getD i 0) bs.length).Holds bs := by
  have hlast : ¬(0 < bs.length ∧
      (buffer.splice 0 bs.length fun i => bs.getD i 0).get (bs.length - 1) = newline) := by
    rintro ⟨hpos, he⟩
    rw [Blk.get_splice _ _ _ _ (by omega), if_pos (by omega), List.getD_eq_getElem?_getD,
      List.getElem?_eq_getElem (by omega), Option.getD_some] at he
    exact hbs (he ▸ List.getElem_mem _)
  have hholds := Blk.holds_take buffer bs hlen (le_refl bs.length)
  rw [List.take_length] at hholds
  rwa [endLine, if_neg hlast]

theorem getInput_short {l : List Byte} (hl : newline ∉ l) (hlen : l.length < 31)
    (buffer : Blk INPUTSZ) (rest : List Byte) :
    ∃ b, getInput buffer (l ++ newline :: rest) = some (b, rest) ∧ b.Holds (shown l) := by
  have hread : read (INPUTSZ - 1) (l ++ newline :: rest) = some (l ++ [newline], rest) := by
    rw [read_line hl, if_pos (hlen.trans (by decide))]
  have hfull : (l ++ [newline]).length ≠ INPUTSZ - 1 := by
    rw [List.length_append]
    exact Nat.ne_of_lt (Nat.succ_lt_succ hlen)
  rw [show shown l = l from List.take_of_length_le (hlen.le.trans (by decide))]
  refine ⟨_, ?_, endLine_newline (hlen.trans (by decide)) buffer⟩
  simp only [getInput, hread, Option.bind_eq_bind, Option.bind_some, if_neg hfull]
  rfl

/-- A line that does not fit: what is not read is thrown away. -/
theorem getInput_long {l : List Byte} (hl : newline ∉ l) (hlen : 32 ≤ l.length)
    (buffer : Blk INPUTSZ) (rest : List Byte) :
    ∃ b, getInput buffer (l ++ newline :: rest) = some (b, rest) ∧ b.Holds (shown l) := by
  have hread : read (INPUTSZ - 1) (l ++ newline :: rest) =
      some (shown l, l.drop (INPUTSZ - 1) ++ newline :: rest) := by
    rw [read_line hl, if_neg (show ¬l.length < INPUTSZ - 1 from Nat.not_lt.2 hlen), shown]
  have hfull : (shown l).length = INPUTSZ - 1 := by
    rw [shown, List.length_take]
    exact Nat.min_eq_left hlen
  have hflush := flush_line (fun h => hl (List.mem_of_mem_drop h)) rest
    (l := l.drop (INPUTSZ - 1))
  refine ⟨_, ?_, endLine_full (fun h => hl (List.mem_of_mem_take h)) (length_shown l) buffer⟩
  simp only [getInput, hread, Option.bind_eq_bind, Option.bind_some, if_pos hfull, hflush]
  rfl

/-- After 31 bytes and the newline nothing is left of the line, and the flush takes another one. -/
theorem getInput_lost {l : List Byte} (hl : newline ∉ l) (hlen : l.length = 31)
    {buffer b : Blk INPUTSZ} {rest rest' : List Byte}
    (h : getInput buffer (l ++ newline :: rest) = some (b, rest')) : rest'.length < rest.length := by
  have hread : read (INPUTSZ - 1) (l ++ newline :: rest) = some (l ++ [newline], rest) := by
    rw [read_line hl, if_pos (hlen ▸ by decide)]
  have hfull : (l ++ [newline]).length = INPUTSZ - 1 := by
    rw [List.length_append, hlen]
    rfl
  simp only [getInput, hread, Option.bind_eq_bind, Option.bind_some, if_pos hfull] at h
  obtain ⟨input, hflush, h⟩ := Option.bind_eq_some_iff.1 h
  cases h
  exact flush_length hflush

theorem getInput_iff {l : List Byte} (hl : newline ∉ l) (buffer : Blk INPUTSZ) (rest : List Byte) :
    (∃ b, getInput buffer (l ++ newline :: rest) = some (b, rest) ∧ b.Holds (shown l)) ↔
      l.length ≠ 31 := by
  constructor
  · rintro ⟨b, hb, -⟩ hlen
    exact lt_irrefl _ (getInput_lost hl hlen hb)
  · intro hlen
    rcases Nat.lt_or_ge l.length 31 with h | h
    · exact getInput_short hl h buffer rest
    · exact getInput_long hl (by omega) buffer rest

/-! ## The loop -/

/-- The input as the console has it: a line has no newline in it, and no `0`. -/
def Clean (l : List Byte) : Prop := newline ∉ l ∧ 0 ∉ l

theorem typed_cons (l : List Byte) (ls : List (List Byte)) :
    typed (l :: ls) = l ++ newline :: typed ls := by simp [typed]

theorem Clean.getInput {l : List Byte} (h : Clean l) (hlen : l.length ≠ 31) (buffer : Blk INPUTSZ)
    (ls : List (List Byte)) :
    ∃ b : Blk INPUTSZ, getInput buffer (typed (l :: ls)) = some (b, typed ls) ∧ b.cstr = shown l := by
  obtain ⟨b, hb, hholds⟩ := (getInput_iff h.1 buffer (typed ls)).2 hlen
  refine ⟨b, typed_cons l ls ▸ hb, ?_⟩
  exact hholds.cstr (length_shown l) fun h0 => h.2 (List.mem_of_mem_take h0)

theorem consumed_typed (l : List Byte) (ls : List (List Byte)) :
    consumed (typed (l :: ls)) (typed ls) = l ++ [newline] := by
  have hcons : typed (l :: ls) = (l ++ [newline]) ++ typed ls := by rw [typed_cons]; simp
  rw [consumed, hcons, List.length_append, Nat.add_sub_cancel, List.take_left]

/-- A call on a line of 31 bytes takes more than the line, if it returns. -/
theorem consumed_lost {l : List Byte} (hl : newline ∉ l) (hlen : l.length = 31)
    {buffer b : Blk INPUTSZ} {ls : List (List Byte)} {rest : List Byte}
    (h : getInput buffer (typed (l :: ls)) = some (b, rest)) :
    consumed (typed (l :: ls)) rest ≠ l ++ [newline] := by
  rw [typed_cons] at h ⊢
  have hlt := getInput_lost hl hlen h
  intro he
  have hlength := congrArg List.length he
  simp only [consumed, List.length_take, List.length_append, List.length_cons, List.length_nil]
    at hlength
  omega

theorem checked {α : Type} {right : List Byte} (hright : isValidInput right = true)
    (s : List Byte) (x y : α) :
    (if isValidInput s = false then x else if s ≠ right then x else y) =
      if s ≠ right then x else y := by
  by_cases hs : s = right
  · rw [hs, hright, if_neg Bool.noConfusion]
  · rw [if_pos hs, ite_self]

section
variable {user pass : List Byte} (hu : isValidInput user = true) (hp : isValidInput pass = true)
include hu hp

/-- One round of the loop, and by induction the rounds after it. -/
theorem loginFrom_spec {n : Nat} (hn : n ≤ MAX_ATTEMPTS) {ls : List (List Byte)}
    (hls : ∀ l ∈ linesRead user pass n ls, Clean l ∧ l.length ≠ 31)
    (username password : Blk INPUTSZ) :
    (loginFrom user pass n username password (typed ls)).2.map
      (fun attempts => if attempts = MAX_ATTEMPTS then Outcome.disabled else .shell) =
    loginSpec user pass n ls := by
  induction n generalizing ls username password with
  | zero => rfl
  | succ n ih =>
    have hn' : n ≤ MAX_ATTEMPTS := Nat.le_of_succ_le hn
    cases ls with
    | nil => rfl
    | cons u ls =>
      simp only [linesRead] at hls
      rw [List.forall_mem_cons] at hls
      obtain ⟨b, hb, hcstr⟩ := hls.1.1.getInput hls.1.2 username ls
      simp only [loginFrom, loginSpec, hb, Attempts.after, checked hu, hcstr]
      by_cases hname : shown u = user
      · rw [if_neg (not_not.2 hname)] at hls ⊢
        rw [if_neg (not_not.2 hname)]
        cases ls with
        | nil => rfl
        | cons p ls =>
          dsimp only at hls
          rw [List.forall_mem_cons] at hls
          obtain ⟨b', hb', hcstr'⟩ := hls.2.1.1.getInput hls.2.1.2 password ls
          simp only [hb', checked hp, hcstr']
          by_cases hpass : shown p = pass
          · rw [if_neg (not_not.2 hpass), if_pos hpass]
            exact congrArg some (if_neg (by omega))
          · rw [if_neg hpass] at hls ⊢
            rw [if_pos hpass]
            exact ih hn' hls.2.2 b b'
      · rw [if_pos hname] at hls ⊢
        rw [if_pos hname]
        exact ih hn' hls.2 b password

/-- The calls take one line each until a line of 31 bytes comes up, and that call does not. -/
theorem loginFrom_reads_iff {n : Nat} {ls : List (List Byte)}
    (hls : ∀ l ∈ linesRead user pass n ls, Clean l) (username password : Blk INPUTSZ) :
    (loginFrom user pass n username password (typed ls)).1 =
        (linesRead user pass n ls).map (· ++ [newline]) ↔
      ∀ l ∈ linesRead user pass n ls, l.length ≠ 31 := by
  induction n generalizing ls username password with
  | zero => simp [loginFrom, linesRead]
  | succ n ih =>
    cases ls with
    | nil => simp [loginFrom, linesRead, getInput, typed, read]
    | cons u ls =>
      simp only [linesRead] at hls ⊢
      rw [List.forall_mem_cons] at hls
      rw [List.map_cons, List.forall_mem_cons]
      by_cases hlen : u.length = 31
      · refine iff_of_false (fun he => ?_) fun h => h.1 hlen
        cases hb : getInput username (typed (u :: ls)) with
        | none => simp [loginFrom, hb] at he
        | some r =>
          simp only [loginFrom, hb, Attempts.after] at he
          exact consumed_lost hls.1.1 hlen hb (List.cons.inj he).1
      obtain ⟨b, hb, hcstr⟩ := hls.1.getInput hlen username ls
      simp only [loginFrom, hb, Attempts.after, checked hu, hcstr, consumed_typed, List.cons.injEq, true_and]
      by_cases hname : shown u = user
      · rw [if_neg (not_not.2 hname)] at hls ⊢
        rw [if_neg (not_not.2 hname)]
        cases ls with
        | nil => simp [getInput, typed, read, hlen]
        | cons p ls =>
          dsimp only at hls ⊢
          rw [List.forall_mem_cons] at hls
          rw [List.map_cons, List.forall_mem_cons]
          by_cases hlen' : p.length = 31
          · refine iff_of_false (fun he => ?_) fun h => h.2.1 hlen'
            cases hb' : getInput password (typed (p :: ls)) with
            | none => simp [hb'] at he
            | some r =>
              simp only [hb'] at he
              exact consumed_lost hls.2.1.1 hlen' hb' (List.cons.inj he).1
          obtain ⟨b', hb', hcstr'⟩ := hls.2.1.getInput hlen' password ls
          simp only [hb', checked hp, hcstr', consumed_typed, List.cons.injEq, true_and]
          by_cases hpass : shown p = pass
          · simp [hpass, hlen, hlen']
          · rw [if_neg hpass] at hls ⊢
            rw [if_pos hpass, ih hls.2.2 b b']
            simp [hlen, hlen']
      · rw [if_pos hname] at hls ⊢
        rw [if_pos hname, ih hls.2 b password]
        simp [hlen]

/-- A call takes one line exactly if the line is not one of 31 bytes.  So the login takes its input
line by line exactly if none of the lines that it comes to has 31 bytes, and then it ends as it
should. -/
theorem login_lines :
    (∀ (buffer : Blk INPUTSZ) (l rest : List Byte), newline ∉ l →
      ((∃ b, getInput buffer (l ++ newline :: rest) = some (b, rest) ∧ b.Holds (shown l)) ↔
        l.length ≠ 31)) ∧
    ∀ (username password : Blk INPUTSZ) (ls : List (List Byte)),
      (∀ l ∈ linesRead user pass MAX_ATTEMPTS ls, Clean l) →
      (loginReads user pass username password (typed ls) =
          (linesRead user pass MAX_ATTEMPTS ls).map (· ++ [newline]) ↔
        ∀ l ∈ linesRead user pass MAX_ATTEMPTS ls, l.length ≠ 31) ∧
      ((∀ l ∈ linesRead user pass MAX_ATTEMPTS ls, l.length ≠ 31) →
        login user pass username password (typed ls) = loginSpec user pass MAX_ATTEMPTS ls) := by
  refine ⟨fun buffer l rest hl => getInput_iff hl buffer rest, fun username password ls hls =>
    ⟨loginFrom_reads_iff hu hp hls username password, fun hlen => ?_⟩⟩
  rw [← loginFrom_spec hu hp le_rfl (fun l hl => ⟨hls l hl, hlen l hl⟩) username password,
    Option.map_eq_bind]
  rfl

end

/-- `"user123"` -/
def USERNAME : List Byte := [117, 115, 101, 114, 49, 50, 51]

/-- `"pass123"` -/
def PASSWORD : List Byte := [112, 97, 115, 115, 49, 50, 51]

/-- The right name and password; a line of 31 bytes after them is not read. -/
theorem login_lines_first :
    isValidInput USERNAME = true ∧ isValidInput PASSWORD = true ∧
    linesRead USERNAME PASSWORD MAX_ATTEMPTS [USERNAME, PASSWORD, List.replicate 31 97] =
      [USERNAME, PASSWORD] ∧
    loginReads USERNAME PASSWORD Blk.zero Blk.zero
      (typed [USERNAME, PASSWORD, List.replicate 31 97]) =
      [USERNAME ++ [newline], PASSWORD ++ [newline]] ∧
    login USERNAME PASSWORD Blk.zero Blk.zero
      (typed [USERNAME, PASSWORD, List.replicate 31 97]) = some .shell := by
  have hread : linesRead USERNAME PASSWORD MAX_ATTEMPTS [USERNAME, PASSWORD, List.replicate 31 97] =
      [USERNAME, PASSWORD] := by decide
  have hu : isValidInput USERNAME = true := by decide
  have hp : isValidInput PASSWORD = true := by decide
  have hlines := (login_lines hu hp).2 Blk.zero Blk.zero [USERNAME, PASSWORD, List.replicate 31 97]
  rw [hread] at hlines
  obtain ⟨hiff, hlogin⟩ := hlines (by simp [Clean, USERNAME, PASSWORD])
  have hlen : ∀ l ∈ [USERNAME, PASSWORD], l.length ≠ 31 := by decide
  exact ⟨hu, hp, hread, hiff.2 hlen, (hlogin hlen).trans (by decide)⟩

/-- A first line of 31 bytes takes the name along with it: the password is read as a name, and the
third attempt fails as well. -/
theorem login_line_lost :
    loginSpec USERNAME PASSWORD MAX_ATTEMPTS
      [List.replicate 31 97, USERNAME, PASSWORD, [120]] = some .shell ∧
    login USERNAME PASSWORD Blk.zero Blk.zero
      (typed [List.replicate 31 97, USERNAME, PASSWORD, [120]]) = some .disabled := by
  decide +kernel

end Xv6.User
