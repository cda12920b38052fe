import Xv6.Lib.CString
import Xv6.Console.Input

/-!
# `sh.c`: what the shell reads

`main` takes its input in pieces, `gets` up to the end of a line or up to the size of the buffer, and
does one thing for each piece.  The commands it forks for do not read from the input here, and the
forks succeed.

`lines` is the input cut at its newlines.  `commands_eq_lines_iff` says for which inputs the strings
that are parsed are the lines.
-/

namespace Xv6.User

open Bytes
open Console (newline cr)

/-- `sizeof(buf)` -/
abbrev NBUF : Nat := 100

/-- `' '` -/
abbrev blank : Byte := 32

/-- The rounds of `gets` when there is room for `n` more bytes: the bytes, and the input after
them. -/
def gets : Nat → List Byte → List Byte × List Byte
  | 0, input => ([], input)
  | _ + 1, [] => ([], [])
  | n + 1, c :: input =>
    if c = newline ∨ c = cr then ([c], input)
    else (c :: (gets n input).1, (gets n input).2)

/-- `getcmd` up to the test for the end of the input: the buffer, and the input after it. -/
def getcmd (input : List Byte) : Blk NBUF × List Byte :=
  let r := gets (NBUF - 1) input
  ((Blk.zero.splice 0 r.1.length fun i => r.1.getD i 0).splice r.1.length 1 fun _ => 0, r.2)

def HISTORY : List Byte := [104, 105, 115, 116, 111, 114, 121]
def BLOCK : List Byte := [98, 108, 111, 99, 107, 32]
def UNBLOCK : List Byte := [117, 110, 98, 108, 111, 99, 107, 32]
def CHMOD : List Byte := [99, 104, 109, 111, 100, 32]

def starts (buf : Blk NBUF) (word : List Byte) : Bool :=
  (List.range word.length).all fun i => buf.get i == word.getD i 0

/-- What the shell does for one piece of input. -/
inductive Action
  /-- `history_command()` -/
  | history
  /-- `block_command(arg)` -/
  | block (arg : List Byte)
  /-- `unblock_command(arg)` -/
  | unblock (arg : List Byte)
  /-- `chmod_command(file, mode)` -/
  | chmod (file mode : List Byte)
  /-- It says how `chmod` is used. -/
  | usage
  /-- It forks, and the child runs `parsecmd(cmd)`. -/
  | run (cmd : List Byte)
  deriving DecidableEq, Repr

/-- The arguments of `chmod`, from what comes after the word. -/
def chmodArgs (s : List Byte) : Action :=
  let s := s.dropWhile (· == blank)
  let file := s.takeWhile (· != blank)
  let s := ((s.dropWhile (· != blank)).drop 1).dropWhile (· == blank)
  if file ≠ [] ∧ s ≠ [] then .chmod file s else .usage

/-- One round of the loop of `main`. -/
def act (buf : Blk NBUF) : Action :=
  if starts buf HISTORY then .history
  else if starts buf BLOCK then .block (buf.cstr.drop BLOCK.length)
  else if starts buf UNBLOCK then .unblock (buf.cstr.drop UNBLOCK.length)
  else
    let buf := buf.splice (buf.cstr.length - 1) 1 fun _ => 0
    if starts buf CHMOD then chmodArgs (buf.cstr.drop CHMOD.length)
    else .run buf.cstr

/-- The loop of `main`, for at most so many rounds. -/
def shellFrom : Nat → List Byte → List Action
  | 0, _ => []
  | n + 1, input =>
    let (buf, input) := getcmd input
    if buf.get 0 = 0 then [] else act buf :: shellFrom n input

/-- `main`: a round takes a byte at least, so there are not more rounds than bytes. -/
def shell (input : List Byte) : List Action := shellFrom input.length input

/-- What is given to `parsecmd`. -/
def commands (input : List Byte) : List (List Byte) :=
  (shell input).filterMap fun
    | .run cmd => some cmd
    | _ => none

/-! ## The loop -/

theorem gets_append (n : Nat) (input : List Byte) : (gets n input).1 ++ (gets n input).2 = input := by
  induction n generalizing input with
  | zero => rfl
  | succ n ih =>
    cases input with
    | nil => rfl
    | cons c input =>
      rw [gets]
      split
      · rfl
      · exact congrArg (c :: ·) (ih input)

theorem length_gets (n : Nat) (input : List Byte) : (gets n input).1.length ≤ n := by
  induction n generalizing input with
  | zero => exact le_rfl
  | succ n ih =>
    cases input with
    | nil => exact Nat.zero_le _
    | cons c input =>
      rw [gets]
      split
      · exact Nat.succ_le_succ (Nat.zero_le _)
      · exact Nat.succ_le_succ (ih input)

theorem getcmd_holds (input : List Byte) :
    (getcmd input).1.Holds (gets (NBUF - 1) input).1 := by
  have hlen := length_gets (NBUF - 1) input
  have hholds := Blk.holds_take Blk.zero (gets (NBUF - 1) input).1
    (Nat.lt_succ_of_le hlen) le_rfl
  rwa [List.take_length] at hholds

/-- There is nothing in the buffer only if nothing was read. -/
theorem getcmd_rest_lt {input : List Byte} (h : (getcmd input).1.get 0 ≠ 0) :
    (getcmd input).2.length < input.length := by
  have happ := congrArg List.length (gets_append (NBUF - 1) input)
  rw [List.length_append] at happ
  have hpos : 0 < (gets (NBUF - 1) input).1.length := by
    refine Nat.pos_of_ne_zero fun hz => h ?_
    have hstop := (getcmd_holds input).stop
    rwa [hz] at hstop
  show (gets (NBUF - 1) input).2.length < _
  omega

theorem shellFrom_fuel {n m : Nat} {input : List Byte} (hn : input.length ≤ n)
    (hm : input.length ≤ m) : shellFrom n input = shellFrom m input := by
  have hend : ∀ k, shellFrom k [] = [] := by
    intro k
    cases k <;> rfl
  induction n generalizing m input with
  | zero =>
    obtain rfl := List.length_eq_zero_iff.1 (Nat.le_zero.1 hn)
    rw [hend, hend]
  | succ n ih =>
    cases m with
    | zero =>
      obtain rfl := List.length_eq_zero_iff.1 (Nat.le_zero.1 hm)
      rw [hend, hend]
    | succ m =>
      simp only [shellFrom]
      split
      · rfl
      · next h =>
        have hlt := getcmd_rest_lt h
        rw [ih (by omega) (by omega : _ ≤ m)]

theorem shell_eq (input : List Byte) :
    shell input = if (getcmd input).1.get 0 = 0 then []
      else act (getcmd input).1 :: shell (getcmd input).2 := by
  rw [shell, shellFrom_fuel le_rfl (Nat.le_succ input.length)]
  simp only [shellFrom]
  split
  · rfl
  · next h => rw [shell, shellFrom_fuel (getcmd_rest_lt h).le le_rfl]

/-! ## One piece of input -/

def keywords : List (List Byte) := [HISTORY, BLOCK, UNBLOCK, CHMOD]

/-- The line starts with a built-in keyword. -/
def Builtin (l : List Byte) : Prop := ∃ w ∈ keywords, w <+: l

instance (l : List Byte) : Decidable (Builtin l) :=
  inferInstanceAs (Decidable (∃ w ∈ keywords, w <+: l))

theorem prefix_of_starts {buf : Blk NBUF} {l w : List Byte} (h : buf.Holds l) (hw : 0 ∉ w)
    (hs : starts buf w = true) : w <+: l := by
  have hbyte : ∀ i (hi : i < w.length), buf.get i = w[i] := by
    intro i hi
    have := List.all_eq_true.1 hs i (List.mem_range.2 hi)
    rw [beq_iff_eq, List.getD_eq_getElem?_getD, List.getElem?_eq_getElem hi] at this
    exact this
  have hle : w.length ≤ l.length := by
    by_contra hlt
    have hz := hbyte l.length (Nat.lt_of_not_le hlt)
    rw [h.stop] at hz
    exact hw (hz ▸ List.getElem_mem _)
  refine List.prefix_iff_eq_take.2 (List.ext_getElem (by simp [hle]) fun i hi hi' => ?_)
  rw [List.getElem_take, ← hbyte i hi, h.byte i (hi.trans_le hle), List.getD_eq_getElem?_getD,
    List.getElem?_eq_getElem (hi.trans_le hle)]
  rfl

theorem holds_dropLast {buf : Blk NBUF} {l : List Byte} (h : buf.Holds l) (hne : l ≠ [])
    (hlen : l.length < NBUF) : (buf.splice (l.length - 1) 1 fun _ => 0).Holds l.dropLast := by
  have hpos := List.length_pos_iff.2 hne
  constructor
  · intro j hj
    rw [List.length_dropLast] at hj
    rw [Blk.get_splice _ _ _ _ (by omega), if_neg (by omega), h.byte j (by omega),
      List.getD_eq_getElem?_getD, List.getD_eq_getElem?_getD, List.getElem?_dropLast, if_pos hj]
  · rw [List.length_dropLast, Blk.get_splice _ _ _ _ (by omega), if_pos (by omega)]

theorem nul_notMem_keywords : ∀ w ∈ keywords, (0 : Byte) ∉ w := by decide

theorem act_run {buf : Blk NBUF} {p : List Byte} (h : buf.Holds p) (hne : p ≠ [])
    (hlen : p.length < NBUF) (h0 : 0 ∉ p) (hkey : ¬Builtin p) : act buf = .run p.dropLast := by
  have hstarts : ∀ {b : Blk NBUF} {l : List Byte}, b.Holds l → l <+: p → ∀ w ∈ keywords,
      ¬starts b w = true :=
    fun hb hl w hw hs => hkey ⟨w, hw, (prefix_of_starts hb (nul_notMem_keywords w hw) hs).trans hl⟩
  have hlast := holds_dropLast h hne hlen
  have hpre : p.dropLast <+: p := List.dropLast_prefix p
  have hcstr : buf.cstr = p := h.cstr hlen h0
  have hcstr' := hlast.cstr ((List.length_dropLast ▸ Nat.sub_le _ _).trans_lt hlen)
    fun hm => h0 (List.dropLast_subset p hm)
  simp only [act, hcstr]
  rw [if_neg (hstarts h List.prefix_rfl _ (by simp [keywords])),
    if_neg (hstarts h List.prefix_rfl _ (by simp [keywords])),
    if_neg (hstarts h List.prefix_rfl _ (by simp [keywords])),
    if_neg (hstarts hlast hpre _ (by simp [keywords])), hcstr']

theorem commands_cons {input : List Byte} (h0 : 0 ∉ input) (hne : (gets (NBUF - 1) input).1 ≠ [])
    (hkey : ¬Builtin (gets (NBUF - 1) input).1) :
    commands input = (gets (NBUF - 1) input).1.dropLast :: commands (getcmd input).2 := by
  have hsub : (gets (NBUF - 1) input).1 ⊆ input := by
    nth_rewrite 2 [← gets_append (NBUF - 1) input]
    exact List.subset_append_left _ _
  have hlen : (gets (NBUF - 1) input).1.length < NBUF := Nat.lt_succ_of_le (length_gets _ _)
  have hfirst : (getcmd input).1.get 0 ≠ 0 := by
    have hpos := List.length_pos_iff.2 hne
    rw [(getcmd_holds input).byte 0 hpos, List.getD_eq_getElem?_getD, List.getElem?_eq_getElem hpos]
    exact fun he => h0 (hsub (he ▸ List.getElem_mem hpos))
  rw [commands, shell_eq, if_neg hfirst,
    act_run (getcmd_holds input) hne hlen (fun hm => h0 (hsub hm)) hkey]
  rfl

/-! ## Lines -/

def lines : List Byte → List (List Byte)
  | [] => []
  | c :: input =>
    if c = newline then [] :: lines input
    else match lines input with
      | [] => [[c]]
      | l :: ls => (c :: l) :: ls

/-- Every line has its newline. -/
def Ended (input : List Byte) : Prop := input = [] ∨ input.getLast? = some newline

instance (input : List Byte) : Decidable (Ended input) := inferInstanceAs (Decidable (_ ∨ _))

theorem lines_line {l : List Byte} (hl : newline ∉ l) (input : List Byte) :
    lines (l ++ newline :: input) = l :: lines input := by
  induction l with
  | nil => rfl
  | cons c l ih =>
    rw [List.mem_cons, not_or] at hl
    rw [List.cons_append, lines, if_neg (Ne.symm hl.1), ih hl.2]

theorem lines_last {l : List Byte} (hl : newline ∉ l) (hne : l ≠ []) : lines l = [l] := by
  induction l with
  | nil => exact absurd rfl hne
  | cons c l ih =>
    rw [List.mem_cons, not_or] at hl
    rw [lines, if_neg (Ne.symm hl.1)]
    cases l with
    | nil => rfl
    | cons d l => rw [ih hl.2 (List.cons_ne_nil d l)]

theorem input_cases (input : List Byte) :
    input = [] ∨ (newline ∉ input ∧ input ≠ []) ∨
      ∃ l rest, newline ∉ l ∧ input = l ++ newline :: rest := by
  by_cases hmem : newline ∈ input
  · obtain ⟨l, rest, hinput, hl⟩ := List.eq_append_cons_of_mem hmem
    exact .inr (.inr ⟨l, rest, hl, hinput⟩)
  · by_cases hne : input = []
    · exact .inl hne
    · exact .inr (.inl ⟨hmem, hne⟩)

theorem gets_line {l : List Byte} (hl : newline ∉ l) (hcr : cr ∉ l) {n : Nat} (hn : l.length < n)
    (rest : List Byte) : gets n (l ++ newline :: rest) = (l ++ [newline], rest) := by
  induction l generalizing n with
  | nil =>
    obtain ⟨n, rfl⟩ := Nat.exists_eq_add_one_of_ne_zero (Nat.ne_of_gt hn)
    rfl
  | cons c l ih =>
    obtain ⟨n, rfl⟩ := Nat.exists_eq_add_one_of_ne_zero (Nat.ne_of_gt (Nat.zero_lt_of_lt hn))
    rw [List.mem_cons, not_or] at hl hcr
    rw [List.cons_append, gets, if_neg (not_or.2 ⟨Ne.symm hl.1, Ne.symm hcr.1⟩),
      ih hl.2 hcr.2 (Nat.lt_of_succ_lt_succ hn)]
    rfl

theorem gets_part {l : List Byte} (hl : newline ∉ l) {n : Nat} {rest : List Byte}
    (hbad : n ≤ l.length ∨ cr ∈ l ∨ rest = []) : (gets n (l ++ rest)).1 <+: l := by
  induction l generalizing n with
  | nil =>
    have hnil : (gets n rest).1 = [] := by
      rcases hbad with hn | hcr | rfl
      · rw [Nat.le_zero.1 hn]
        rfl
      · cases hcr
      · cases n <;> rfl
    rw [List.nil_append, hnil]
  | cons c l ih =>
    rw [List.mem_cons, not_or] at hl
    cases n with
    | zero => exact List.nil_prefix
    | succ n =>
      rw [List.cons_append, gets]
      split
      · exact (List.prefix_cons_inj c).2 List.nil_prefix
      · next hc =>
        refine (List.prefix_cons_inj c).2 (ih hl.2 (hbad.imp Nat.le_of_succ_le_succ (Or.imp_left ?_)))
        exact fun hmem => (List.mem_cons.1 hmem).resolve_left fun he => hc (.inr he.symm)

theorem gets_ne_nil {n : Nat} (hn : n ≠ 0) {input : List Byte} (hne : input ≠ []) :
    (gets n input).1 ≠ [] := by
  obtain ⟨n, rfl⟩ := Nat.exists_eq_add_one_of_ne_zero hn
  cases input with
  | nil => exact absurd rfl hne
  | cons c input =>
    rw [gets]
    split <;> exact List.cons_ne_nil _ _

theorem Builtin.mono {p l : List Byte} (h : Builtin p) (hp : p <+: l) : Builtin l :=
  h.imp fun _ hw => ⟨hw.1, hw.2.trans hp⟩

theorem Builtin.of_newline {l : List Byte} (h : Builtin (l ++ [newline])) : Builtin l := by
  obtain ⟨w, hw, hpre⟩ := h
  refine ⟨w, hw, (List.prefix_concat_iff.1 hpre).resolve_left fun he => ?_⟩
  have hnl : ∀ w ∈ keywords, newline ∉ w := by decide
  exact hnl w hw (he ▸ List.mem_append_right l List.mem_cons_self)

theorem ended_line {l : List Byte} (rest : List Byte) :
    Ended (l ++ newline :: rest) ↔ Ended rest := by
  cases rest with
  | nil => simp [Ended]
  | cons c rest => simp [Ended, List.getLast?_append, List.getLast?_cons]

theorem not_ended {l : List Byte} (hl : newline ∉ l) (hne : l ≠ []) : ¬Ended l := by
  rintro (h | h)
  · exact hne h
  · exact hl (List.mem_of_getLast? h)

/-- A line that `gets` does not take as it is does not come out as a command. -/
theorem commands_ne {l rest : List Byte} (hl : newline ∉ l) (h0 : 0 ∉ l ++ rest)
    (hne : l ++ rest ≠ []) (hkey : ¬Builtin l) (hbad : NBUF - 1 ≤ l.length ∨ cr ∈ l ∨ rest = [])
    (ls : List (List Byte)) : commands (l ++ rest) ≠ l :: ls := by
  have hpart := gets_part hl hbad
  have hpiece := gets_ne_nil (show NBUF - 1 ≠ 0 by decide) hne
  rw [commands_cons h0 hpiece fun hb => hkey (hb.mono hpart)]
  intro heq
  have hlen := congrArg List.length (List.cons.inj heq).1
  rw [List.length_dropLast] at hlen
  have hle := hpart.length_le
  have hpos := List.length_pos_iff.2 hpiece
  omega

/-- The shell runs its input line by line iff each line fits into the buffer with its newline, has no
carriage return and has a newline at its end. -/
theorem commands_eq_lines_iff {input : List Byte} (h0 : 0 ∉ input)
    (hkey : ∀ l ∈ lines input, ¬Builtin l) :
    commands input = lines input ↔
      (∀ l ∈ lines input, l.length < NBUF - 1 ∧ cr ∉ l) ∧ Ended input := by
  induction hn : input.length using Nat.strong_induction_on generalizing input with
  | _ n ih =>
  rcases input_cases input with rfl | ⟨hnl, hne⟩ | ⟨l, rest, hl, rfl⟩
  · exact ⟨fun _ => ⟨fun l hl => absurd hl List.not_mem_nil, .inl rfl⟩, fun _ => rfl⟩
  · -- the last line has no newline
    rw [lines_last hnl hne] at hkey ⊢
    have hnil : input ++ [] = input := List.append_nil input
    have hcmd := commands_ne hnl (hnil.symm ▸ h0) (hnil.symm ▸ hne) (hkey _ List.mem_cons_self)
      (.inr (.inr rfl)) []
    rw [hnil] at hcmd
    exact ⟨fun h => absurd h hcmd, fun h => absurd h.2 (not_ended hnl hne)⟩
  · rw [lines_line hl] at hkey ⊢
    rw [List.forall_mem_cons] at hkey ⊢
    rw [ended_line]
    by_cases hgood : l.length < NBUF - 1 ∧ cr ∉ l
    · have hgets := gets_line hl hgood.2 hgood.1 rest
      have hcmd : commands (l ++ newline :: rest) = l :: commands rest := by
        rw [commands_cons h0 (by rw [hgets]; simp) (by rw [hgets]; exact fun h => hkey.1 h.of_newline),
          getcmd, hgets, List.dropLast_concat]
      have hlt : rest.length < n := by
        rw [← hn, List.length_append, List.length_cons]
        omega
      have h0' : 0 ∉ rest := fun hm => h0 (List.mem_append_right l (List.mem_cons_of_mem _ hm))
      have hrest := ih rest.length hlt h0' hkey.2 rfl
      rw [hcmd, List.cons_eq_cons, hrest]
      exact ⟨fun h => ⟨⟨hgood, h.2.1⟩, h.2.2⟩, fun h => ⟨rfl, h.1.2, h.2⟩⟩
    · have hbad : NBUF - 1 ≤ l.length ∨ cr ∈ l ∨ newline :: rest = [] := by
        rcases Nat.lt_or_ge l.length (NBUF - 1) with hlt | hge
        · exact .inr (.inl (not_not.1 fun hcr => hgood ⟨hlt, hcr⟩))
        · exact .inl hge
      have hcmd := commands_ne hl h0 (by simp) hkey.1 hbad (lines rest)
      exact ⟨fun h => absurd h hcmd, fun h => absurd h.1.1 hgood⟩

/-- Two lines. -/
theorem commands_eq_lines_two :
    commands [108, 115, 10, 101, 99, 104, 111, 32, 97, 10] =
      [[108, 115], [101, 99, 104, 111, 32, 97]] :=
  (commands_eq_lines_iff (by decide) (by decide)).2 (by decide)

/-- `"ls"` without a newline is run as `"l"`. -/
theorem commands_cut : lines [108, 115] = [[108, 115]] ∧ commands [108, 115] = [[108]] := by
  decide +kernel

end Xv6.User
