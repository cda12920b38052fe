import Mathlib.Data.List.TakeWhile
import Xv6.Lib.Prog
import Xv6.Fs.Sys

/-!
# `sh.c`: the parser

The parser works on a string `s` with a cursor in it; the tokens it puts into the tree are pairs of
positions, and `nulterminate` ends them in the buffer afterwards.  `es` is the length of the string.
The functions call each other as the source's do, down to some depth: running out of it is `sleep`,
which does not happen at a depth that is linear in the length of the string (`Grammar.lean`).
`malloc` succeeds.

`tokens s p` are the tokens that `gettoken` delivers from `p` on.  `At s p ts` is all that the proofs
about the parser use of the characters: `peek` looks at the first token, `gettoken` takes it off.  What
the tokens of a string are is said by `Lexes`, without `gettoken`.
-/

namespace Xv6.User

open Bytes Conc
open Prog (atomic throw)
open Fs (O_RDONLY O_WRONLY O_CREATE)

/-- `" \t\r\n\v"` -/
def whitespace : List Byte := [32, 9, 13, 10, 11]

abbrev lt : Byte := 60
abbrev bar : Byte := 124
abbrev gt : Byte := 62
abbrev amp : Byte := 38
abbrev semi : Byte := 59
abbrev lpar : Byte := 40
abbrev rpar : Byte := 41

/-- `"<|>&;()"` -/
def symbols : List Byte := [lt, bar, gt, amp, semi, lpar, rpar]

/-- `'+'`, which `gettoken` returns for `>>` -/
abbrev plus : Byte := 43

/-- `'a'`, which `gettoken` returns for a word -/
abbrev word : Byte := 97

abbrev MAXARGS : Nat := 10

/-! ## `gettoken` and `peek` -/

/-- `*s`; at the end of the string there is a `0`. -/
def charAt (s : List Byte) (p : Nat) : Byte := s.getD p 0

def advance (f : Byte → Bool) (s : List Byte) (p : Nat) : Nat :=
  p + ((s.drop p).takeWhile f).length

/-- `while(s < es && strchr(whitespace, *s)) s++;` -/
def skip (s : List Byte) (p : Nat) : Nat := advance whitespace.contains s p

/-- `!strchr(whitespace, *s) && !strchr(symbols, *s)` -/
def isWordChar (c : Byte) : Bool := !whitespace.contains c && !symbols.contains c

/-- The `switch` of `gettoken`: what it returns, and where the token ends. -/
def scan (s : List Byte) (q : Nat) : Byte × Nat :=
  let c := charAt s q
  if c = 0 then (0, q)
  else if c = bar ∨ c = lpar ∨ c = rpar ∨ c = semi ∨ c = amp ∨ c = lt then (c, q + 1)
  else if c = gt then if charAt s (q + 1) = gt then (plus, q + 2) else (gt, q + 1)
  else (word, advance isWordChar s q)

/-- What `gettoken` returns, and its `q` and `eq`. -/
structure Token where
  ret : Byte
  q : Nat
  eq : Nat
  deriving DecidableEq, Repr

def gettoken (s : List Byte) (p : Nat) : Token × Nat :=
  let q := skip s p
  let r := scan s q
  (⟨r.1, q, r.2⟩, skip s r.2)

def peek (s toks : List Byte) (p : Nat) : Bool × Nat :=
  let p := skip s p
  (charAt s p != 0 && toks.contains (charAt s p), p)

/-! ## The commands -/

/-- `struct cmd`.  The arguments are the pairs `argv[i]`, `eargv[i]` up to the first that is `0`. -/
inductive Cmd
  | exec (argv : List (Nat × Nat))
  | redir (cmd : Cmd) (file efile : Nat) (mode : Word) (fd : Nat)
  | pipe (left right : Cmd)
  | list (left right : Cmd)
  | back (cmd : Cmd)
  deriving DecidableEq, Repr

/-- `cmd->argv[argc] = q; cmd->eargv[argc] = eq;` on the node that `execcmd` returned: the
redirections that are around it by now point to the same node. -/
def Cmd.addArg (q eq : Nat) : Cmd → Cmd
  | exec argv => exec (argv ++ [(q, eq)])
  | redir cmd file efile mode fd => redir (cmd.addArg q eq) file efile mode fd
  | cmd => cmd

/-- The messages of `panic`. -/
inductive ParsePanic
  /-- `"leftovers: %s\n"`, then `"syntax"` -/
  | leftovers (s : List Byte)
  | syntaxError
  | missingFile
  | parseblock
  | missingParen
  | tooManyArgs
  deriving DecidableEq, Repr

/-- Code that moves the cursor. -/
abbrev Parser := Prog Unit ParsePanic Nat

/-- A call of `gettoken`. -/
def next (s : List Byte) : Parser Token :=
  atomic () fun p => .ok (gettoken s p).1 (gettoken s p).2

/-- A call of `peek`. -/
def sees (s toks : List Byte) : Parser Bool :=
  atomic () fun p => .ok (peek s toks p).1 (peek s toks p).2

/-- The depth was not enough. -/
def tooDeep {α : Type} : Parser α := atomic () fun _ => .sleep

def fail {α : Type} (e : ParsePanic) : Parser α := throw () e

/-- The `switch` of `parseredirs`. -/
def redircmd (cmd : Cmd) (tok : Byte) (q eq : Nat) : Cmd :=
  if tok = lt then .redir cmd q eq O_RDONLY 0
  else if tok = gt then .redir cmd q eq (O_WRONLY ||| O_CREATE) 1
  else if tok = plus then .redir cmd q eq (O_WRONLY ||| O_CREATE) 1
  else cmd

def parseredirs (s : List Byte) : Nat → Cmd → Parser Cmd
  | 0, _ => tooDeep
  | n + 1, cmd => do
    if ← sees s [lt, gt] then
      let tok ← next s
      let file ← next s
      if file.ret ≠ word then fail .missingFile
      else parseredirs s n (redircmd cmd tok.ret file.q file.eq)
    else return cmd

/-- The loop of `parseexec`. -/
def parseargs (s : List Byte) : Nat → Cmd → Nat → Parser Cmd
  | 0, _, _ => tooDeep
  | n + 1, ret, argc => do
    if ← sees s [bar, rpar, amp, semi] then return ret
    else
      let tok ← next s
      if tok.ret = 0 then return ret
      else if tok.ret ≠ word then fail .syntaxError
      else
        let ret := ret.addArg tok.q tok.eq
        if argc + 1 ≥ MAXARGS then fail .tooManyArgs
        else
          let ret ← parseredirs s n ret
          parseargs s n ret (argc + 1)

/-- `while(peek(ps, es, "&"))` -/
def parsebacks (s : List Byte) : Nat → Cmd → Parser Cmd
  | 0, _ => tooDeep
  | n + 1, cmd => do
    if ← sees s [amp] then
      let _ ← next s
      parsebacks s n (.back cmd)
    else return cmd

mutual

def parseline (s : List Byte) : Nat → Parser Cmd
  | 0 => tooDeep
  | n + 1 => do
    let cmd ← parsepipe s n
    let cmd ← parsebacks s n cmd
    if ← sees s [semi] then
      let _ ← next s
      let right ← parseline s n
      return .list cmd right
    else return cmd

def parsepipe (s : List Byte) : Nat → Parser Cmd
  | 0 => tooDeep
  | n + 1 => do
    let cmd ← parseexec s n
    if ← sees s [bar] then
      let _ ← next s
      let right ← parsepipe s n
      return .pipe cmd right
    else return cmd

def parseexec (s : List Byte) : Nat → Parser Cmd
  | 0 => tooDeep
  | n + 1 => do
    if ← sees s [lpar] then parseblock s n
    else
      let ret ← parseredirs s n (.exec [])
      parseargs s n ret 0

def parseblock (s : List Byte) : Nat → Parser Cmd
  | 0 => tooDeep
  | n + 1 => do
    if ← sees s [lpar] then
      let _ ← next s
      let cmd ← parseline s n
      if ← sees s [rpar] then
        let _ ← next s
        parseredirs s n cmd
      else fail .missingParen
    else fail .parseblock

end

def nulterminate : Cmd → List Byte → List Byte
  | .exec argv, buf => argv.foldl (fun buf a => buf.set a.2 0) buf
  | .redir cmd _ efile _ _, buf => (nulterminate cmd buf).set efile 0
  | .pipe left right, buf => nulterminate right (nulterminate left buf)
  | .list left right, buf => nulterminate right (nulterminate left buf)
  | .back cmd, buf => nulterminate cmd buf

/-- The part of `parsecmd` that moves the cursor. -/
def parse (s : List Byte) (depth : Nat) : Parser Cmd := do
  let cmd ← parseline s depth
  let _ ← sees s []
  atomic () fun p => if p ≠ s.length then .panic (.leftovers (s.drop p)) else .ok cmd p

/-- `parsecmd`: the tree, and the buffer after it. -/
def parsecmd (s : List Byte) (depth : Nat) : Res ParsePanic (Cmd × List Byte) Unit :=
  ((parse s depth).run 0).bind fun cmd _ => .ok (cmd, nulterminate cmd (s ++ [0])) ()

/-! ## The tokens of a string -/

def tokensFrom (s : List Byte) : Nat → Nat → List Token
  | 0, _ => []
  | n + 1, p =>
    let r := gettoken s p
    if r.1.ret = 0 then [] else r.1 :: tokensFrom s n r.2

/-- The tokens that `gettoken` delivers from `p` on, up to the `0`. -/
def tokens (s : List Byte) (p : Nat) : List Token := tokensFrom s (s.length - p) p

section

variable {s : List Byte} {p q : Nat} {f : Byte → Bool}

theorem charAt_of_lt (h : q < s.length) : charAt s q = s[q] := by
  rw [charAt, List.getD_eq_getElem?_getD, List.getElem?_eq_getElem h, Option.getD_some]

theorem charAt_of_le (h : s.length ≤ q) : charAt s q = 0 := by
  rw [charAt, List.getD_eq_getElem?_getD, List.getElem?_eq_none h, Option.getD_none]

/-! ### `advance` -/

theorem le_advance (f : Byte → Bool) (s : List Byte) (p : Nat) : p ≤ advance f s p :=
  Nat.le_add_right _ _

theorem advance_le (hp : p ≤ s.length) : advance f s p ≤ s.length := by
  have hle := (List.takeWhile_sublist f (l := s.drop p)).length_le
  rw [List.length_drop] at hle
  rw [advance]
  omega

theorem drop_advance (f : Byte → Bool) (s : List Byte) (p : Nat) :
    s.drop (advance f s p) = (s.drop p).dropWhile f := by
  rw [advance, ← List.drop_drop]
  nth_rewrite 2 [← List.takeWhile_append_dropWhile (p := f) (l := s.drop p)]
  exact List.drop_left

/-- What stops it does not have the property. -/
theorem charAt_advance (h : advance f s p < s.length) : f (charAt s (advance f s p)) = false := by
  have hdrop := drop_advance f s p
  have hne : 0 < ((s.drop p).dropWhile f).length := by
    rw [← hdrop, List.length_drop]
    omega
  have hfirst := List.dropWhile_get_zero_not f (s.drop p) hne
  rw [charAt_of_lt h]
  simpa [← hdrop] using hfirst

theorem advance_advance (f : Byte → Bool) (s : List Byte) (p : Nat) :
    advance f s (advance f s p) = advance f s p := by
  have hnil : ((s.drop p).dropWhile f).takeWhile f = [] :=
    List.takeWhile_eq_nil_iff.2 (List.dropWhile_get_zero_not f _)
  nth_rewrite 1 [advance]
  rw [drop_advance, hnil]
  rfl

/-- What it goes over has the property. -/
theorem charAt_of_lt_advance (hpq : p ≤ q) (hq : q < advance f s p) : f (charAt s q) = true := by
  have hlt : q - p < ((s.drop p).takeWhile f).length := by
    rw [advance] at hq
    omega
  have hle := (List.takeWhile_sublist f (l := s.drop p)).length_le
  have hlen : q < s.length := by
    rw [List.length_drop] at hle
    omega
  have hmem := List.mem_takeWhile_imp (List.getElem_mem hlt)
  have hpre : (s.drop p).takeWhile f <+: s.drop p := List.takeWhile_prefix f
  rw [hpre.getElem hlt, List.getElem_drop] at hmem
  rw [charAt_of_lt hlen]
  simpa only [Nat.add_sub_cancel' hpq] using hmem

theorem lt_advance (hp : p < s.length) (hf : f (charAt s p) = true) : p < advance f s p := by
  rw [charAt_of_lt hp] at hf
  rw [advance, List.drop_eq_getElem_cons hp, List.takeWhile_cons, if_pos hf, List.length_cons]
  omega

theorem gettoken_skip (s : List Byte) (p : Nat) : gettoken s (skip s p) = gettoken s p := by
  rw [gettoken, gettoken, skip, skip, advance_advance]

/-! ### One token -/

/-- The cases of the `switch` but the end of the string: a symbol, or `>>`, or a word. -/
inductive Scanned (s : List Byte) (q : Nat) : Byte × Nat → Prop
  | symbol (h : charAt s q ∈ symbols) : Scanned s q (charAt s q, q + 1)
  | twice (h : charAt s q = gt) (h' : charAt s (q + 1) = gt) : Scanned s q (plus, q + 2)
  | word (h : charAt s q ∉ symbols) : Scanned s q (word, advance isWordChar s q)

theorem scanned (h : charAt s q ≠ 0) : Scanned s q (scan s q) := by
  unfold scan
  simp only [if_neg h]
  split
  · next hc => exact .symbol (by rcases hc with hc | hc | hc | hc | hc | hc <;> rw [hc] <;> decide)
  · next hc =>
    split
    · next hgt =>
      split
      · next hgt' => exact .twice hgt hgt'
      · have hsym : Scanned s q (charAt s q, q + 1) := .symbol (by rw [hgt]; decide)
        rwa [hgt] at hsym
    · next hgt =>
      refine .word fun hmem => ?_
      simp only [symbols, List.mem_cons, List.not_mem_nil, or_false] at hmem
      tauto

def Token.first (t : Token) : Byte := if t.ret = plus then gt else t.ret

/-- The token is there in the string: a word is all of its characters up to a blank or a symbol. -/
structure Token.In (s : List Byte) (t : Token) : Prop where
  lt : t.q < t.eq
  le : t.eq ≤ s.length
  first : ∀ toks ⊆ symbols, toks.contains (charAt s t.q) = toks.contains t.first
  word : t.ret = word → ∀ i, t.q ≤ i → i < t.eq → isWordChar (charAt s i) = true
  stop : t.ret = User.word → t.eq < s.length → isWordChar (charAt s t.eq) = false

theorem scan_of_le (h : s.length ≤ q) : scan s q = (0, q) := by
  rw [scan, if_pos (charAt_of_le h)]

theorem charAt_eq_zero_iff (h0 : 0 ∉ s) : charAt s q = 0 ↔ s.length ≤ q := by
  refine ⟨fun h => ?_, charAt_of_le⟩
  by_contra hlt
  rw [charAt_of_lt (Nat.lt_of_not_le hlt)] at h
  exact h0 (h ▸ List.getElem_mem _)

theorem Scanned.in {r : Byte × Nat} (h : Scanned s q r) (hq : q < s.length)
    (hblank : whitespace.contains (charAt s q) = false) : Token.In s ⟨r.1, q, r.2⟩ := by
  cases h with
  | symbol hc =>
    have hne : ∀ c ∈ symbols, c ≠ plus ∧ c ≠ User.word := by decide
    exact {
      lt := Nat.lt_succ_self q
      le := hq
      first := fun toks _ => by rw [Token.first, if_neg (hne _ hc).1]
      word := fun hw => absurd hw (hne _ hc).2
      stop := fun hw => absurd hw (hne _ hc).2 }
  | twice hc hc' =>
    have hlt : q + 1 < s.length := by
      by_contra hge
      rw [charAt_of_le (Nat.le_of_not_lt hge)] at hc'
      exact absurd hc' (by decide)
    exact {
      lt := Nat.lt_add_of_pos_right (by decide)
      le := hlt
      first := fun toks _ => by rw [hc]; rfl
      word := fun hw => absurd hw (show plus ≠ User.word by decide)
      stop := fun hw => absurd hw (show plus ≠ User.word by decide) }
  | word hc =>
    have hword : isWordChar (charAt s q) = true := by
      rw [isWordChar, hblank, Bool.not_false, Bool.true_and, Bool.not_eq_true',
        ← Bool.not_eq_true, List.contains_iff_mem]
      exact hc
    have hnot : ∀ toks ⊆ symbols, ∀ c ∉ symbols, toks.contains c = false := fun toks htoks c hc => by
      rw [← Bool.not_eq_true, List.contains_iff_mem]
      exact fun hmem => hc (htoks hmem)
    exact {
      lt := lt_advance hq hword
      le := advance_le hq.le
      first := fun toks htoks => by
        rw [hnot toks htoks _ hc]
        exact (hnot toks htoks User.word (by decide)).symm
      word := fun _ i hi hi' => charAt_of_lt_advance hi hi'
      stop := fun _ hlt => charAt_advance hlt }

/-- `gettoken` before the end of the string: there is a token, and the cursor moves. -/
theorem gettoken_in (h0 : 0 ∉ s) (h : skip s p < s.length) :
    (gettoken s p).1.In s ∧ (gettoken s p).1.ret ≠ 0 ∧
      p < (gettoken s p).2 ∧ (gettoken s p).2 ≤ s.length := by
  have hs : Scanned s (skip s p) (scan s (skip s p)) :=
    scanned fun hz => absurd ((charAt_eq_zero_iff h0).1 hz) (Nat.not_le.2 h)
  have hin := hs.in h (charAt_advance h)
  refine ⟨hin, ?_, ?_, advance_le hin.le⟩
  · show (scan s (skip s p)).1 ≠ 0
    revert hs
    generalize scan s (skip s p) = r
    rintro (hc | ⟨-, -⟩ | -)
    · exact fun hz => absurd ((charAt_eq_zero_iff h0).1 hz) (Nat.not_le.2 h)
    · exact (by decide : plus ≠ 0)
    · exact (by decide : word ≠ 0)
  · calc p ≤ skip s p := le_advance _ s p
      _ < (scan s (skip s p)).2 := hin.lt
      _ ≤ (gettoken s p).2 := le_advance _ s _

theorem gettoken_end (h : s.length ≤ skip s p) : (gettoken s p).1.ret = 0 := by
  show (scan s (skip s p)).1 = 0
  rw [scan_of_le h]

/-! ### All of them -/

theorem tokensFrom_end (h : s.length ≤ skip s p) (n : Nat) : tokensFrom s n p = [] := by
  cases n with
  | zero => rfl
  | succ n => rw [tokensFrom, if_pos (gettoken_end h)]

theorem tokensFrom_fuel (h0 : 0 ∉ s) {n m : Nat} (hn : s.length - p ≤ n) (hm : s.length - p ≤ m) :
    tokensFrom s n p = tokensFrom s m p := by
  induction n generalizing m p with
  | zero =>
    have hend : s.length ≤ skip s p := (Nat.sub_eq_zero_iff_le.1 (by omega)).trans (le_advance _ s p)
    rw [tokensFrom_end hend, tokensFrom_end hend]
  | succ n ih =>
    rcases Nat.lt_or_ge (skip s p) s.length with hlt | hge
    · have hp := le_advance whitespace.contains s p
      obtain ⟨m, rfl⟩ : ∃ k, m = k + 1 := ⟨m - 1, by rw [skip] at hlt; omega⟩
      obtain ⟨-, -, hnext, -⟩ := gettoken_in h0 hlt
      rw [tokensFrom, tokensFrom, ih (by omega) (by omega : _ ≤ m)]
    · rw [tokensFrom_end hge, tokensFrom_end hge]

theorem tokens_end (h : s.length ≤ skip s p) : tokens s p = [] := tokensFrom_end h _

theorem tokens_cons (h0 : 0 ∉ s) (h : skip s p < s.length) :
    tokens s p = (gettoken s p).1 :: tokens s (gettoken s p).2 := by
  obtain ⟨-, hret, hlt, hle⟩ := gettoken_in h0 h
  rw [tokens, tokensFrom_fuel h0 le_rfl (show _ ≤ s.length - p - 1 + 1 by omega), tokensFrom,
    if_neg hret, tokens, tokensFrom_fuel h0 (by omega) le_rfl]

/-- The cursor is in the string, before these tokens. -/
structure At (s : List Byte) (p : Nat) (ts : List Token) : Prop where
  le : p ≤ s.length
  tokens : tokens s p = ts

/-- What `peek` says of the tokens. -/
def startsWith (toks : List Byte) : List Token → Bool
  | [] => false
  | t :: _ => toks.contains t.first

theorem At.cases (h0 : 0 ∉ s) {ts : List Token} (h : At s p ts) :
    (s.length = skip s p ∧ ts = []) ∨
      (skip s p < s.length ∧ ts = (gettoken s p).1 :: User.tokens s (gettoken s p).2) := by
  rcases Nat.lt_or_ge (skip s p) s.length with hlt | hge
  · exact .inr ⟨hlt, h.tokens ▸ tokens_cons h0 hlt⟩
  · exact .inl ⟨le_antisymm hge (advance_le h.le), h.tokens ▸ tokens_end hge⟩

theorem At.skip (h0 : 0 ∉ s) {ts : List Token} (h : At s p ts) : At s (skip s p) ts := by
  refine ⟨advance_le h.le, ?_⟩
  have hskip : User.skip s (User.skip s p) = User.skip s p := advance_advance _ s p
  rcases h.cases h0 with ⟨hend, rfl⟩ | ⟨hlt, rfl⟩
  · exact tokens_end (by rw [hskip]; exact hend.le)
  · rw [tokens_cons h0 (by rwa [hskip]), gettoken_skip]

variable {E : Option ParsePanic → Prop}

theorem wp_sees (h0 : 0 ∉ s) {toks : List Byte} (htoks : toks ⊆ symbols) {ts : List Token}
    (h : At s p ts) {Q : Bool → Nat → Prop} (hQ : ∀ p', At s p' ts → Q (startsWith toks ts) p') :
    Prog.wp E (sees s toks) Q p := by
  rw [sees, Prog.wp_atomic]
  have hpeek : (peek s toks p).1 = startsWith toks ts := by
    show (charAt s (skip s p) != 0 && toks.contains (charAt s (skip s p))) = _
    rcases h.cases h0 with ⟨hend, rfl⟩ | ⟨hlt, rfl⟩
    · rw [charAt_of_le hend.le]
      rfl
    · have hne : (charAt s (skip s p) != 0) = true :=
        bne_iff_ne.2 fun hz => absurd ((charAt_eq_zero_iff h0).1 hz) (Nat.not_le.2 hlt)
      rw [hne, Bool.true_and]
      exact (gettoken_in h0 hlt).1.first toks htoks
  exact hpeek ▸ hQ _ (h.skip h0)

theorem wp_next (h0 : 0 ∉ s) {t : Token} {ts : List Token} (h : At s p (t :: ts))
    {Q : Token → Nat → Prop} (hQ : ∀ p', t.In s → t.ret ≠ 0 → At s p' ts → Q t p') :
    Prog.wp E (next s) Q p := by
  rw [next, Prog.wp_atomic]
  rcases h.cases h0 with ⟨-, hnil⟩ | ⟨hlt, hcons⟩
  · cases hnil
  · obtain ⟨rfl, hts⟩ := List.cons.inj hcons
    obtain ⟨hin, hret, -, hle⟩ := gettoken_in h0 hlt
    exact hQ _ hin hret ⟨hle, hts.symm⟩

theorem wp_next_end (h0 : 0 ∉ s) (h : At s p []) {Q : Token → Nat → Prop}
    (hQ : ∀ t p', t.ret = 0 → At s p' [] → Q t p') : Prog.wp E (next s) Q p := by
  rw [next, Prog.wp_atomic]
  rcases h.cases h0 with ⟨hend, -⟩ | ⟨-, hcons⟩
  · have hskip : skip s (skip s p) = skip s p := advance_advance _ s p
    have hscan : (gettoken s p).2 = skip s p := by
      show skip s (scan s (skip s p)).2 = _
      rw [scan_of_le hend.le, hskip]
    exact hQ _ _ (gettoken_end hend.le) (hscan.symm ▸ h.skip h0)
  · cases hcons

end

/-! ## The tokens by their characters -/

/-- The tokens of a string that starts at `p`: blanks are left out, of two `>` neither stands for itself,
and a word goes as far as it can. -/
inductive Lexes : Nat → List Byte → List Token → Prop
  | nil {p : Nat} : Lexes p [] []
  | blank {p : Nat} {c : Byte} {s : List Byte} {ts : List Token} (hc : c ∈ whitespace)
      (h : Lexes (p + 1) s ts) : Lexes p (c :: s) ts
  | symbol {p : Nat} {c : Byte} {s : List Byte} {ts : List Token} (hc : c ∈ symbols)
      (hgt : c = gt → s.head? ≠ some gt) (h : Lexes (p + 1) s ts) :
      Lexes p (c :: s) (⟨c, p, p + 1⟩ :: ts)
  | twice {p : Nat} {s : List Byte} {ts : List Token} (h : Lexes (p + 2) s ts) :
      Lexes p (gt :: gt :: s) (⟨plus, p, p + 2⟩ :: ts)
  | word {p : Nat} {w s : List Byte} {ts : List Token} (hne : w ≠ [])
      (hw : ∀ c ∈ w, isWordChar c = true) (hend : ∀ c ∈ s.head?, isWordChar c = false)
      (h : Lexes (p + w.length) s ts) : Lexes p (w ++ s) (⟨word, p, p + w.length⟩ :: ts)

theorem isWordChar_iff {c : Byte} : isWordChar c = true ↔ c ∉ whitespace ∧ c ∉ symbols := by
  simp [isWordChar]

theorem exists_lexes (s : List Byte) (p : Nat) : ∃ ts, Lexes p s ts := by
  induction hn : s.length using Nat.strong_induction_on generalizing s p with
  | _ n ih =>
    subst hn
    cases s with
    | nil => exact ⟨[], .nil⟩
    | cons c s =>
      by_cases hb : c ∈ whitespace
      · obtain ⟨ts, h⟩ := ih _ (Nat.lt_succ_self _) s (p + 1) rfl
        exact ⟨ts, .blank hb h⟩
      by_cases hc : c ∈ symbols
      · by_cases hgt : c = gt ∧ s.head? = some gt
        · obtain ⟨rfl, hs⟩ := hgt
          obtain ⟨s, rfl⟩ := List.head?_eq_some_iff.1 hs
          obtain ⟨ts, h⟩ := ih s.length (by simp only [List.length_cons]; omega) s (p + 2) rfl
          exact ⟨_, .twice h⟩
        · obtain ⟨ts, h⟩ := ih _ (Nat.lt_succ_self _) s (p + 1) rfl
          exact ⟨_, .symbol hc (fun he hs => hgt ⟨he, hs⟩) h⟩
      · have hsplit := List.takeWhile_append_dropWhile (p := isWordChar) (l := c :: s)
        have hne : (c :: s).takeWhile isWordChar ≠ [] := by
          rw [List.takeWhile_cons, if_pos (isWordChar_iff.2 ⟨hb, hc⟩)]
          exact List.cons_ne_nil _ _
        have hlen := congrArg List.length hsplit
        rw [List.length_append] at hlen
        have hpos := List.length_pos_iff.2 hne
        obtain ⟨ts, h⟩ := ih _ (by omega) ((c :: s).dropWhile isWordChar)
          (p + ((c :: s).takeWhile isWordChar).length) rfl
        rw [← hsplit]
        refine ⟨_, .word hne (fun d hd => List.mem_takeWhile_imp hd) (fun d hd => ?_) h⟩
        have hnot := List.head?_dropWhile_not isWordChar (c :: s)
        rw [hd] at hnot
        exact hnot

section

variable {s : List Byte} {p : Nat}

theorem tokens_skip (h0 : 0 ∉ s) (hp : p ≤ s.length) : tokens s (skip s p) = tokens s p :=
  (At.skip h0 ⟨hp, rfl⟩).tokens

theorem charAt_of_drop {c : Byte} {l : List Byte} (h : s.drop p = c :: l) :
    p < s.length ∧ charAt s p = c ∧ s.drop (p + 1) = l := by
  have hlt : p < s.length := by
    by_contra hge
    rw [List.drop_eq_nil_of_le (Nat.le_of_not_lt hge)] at h
    cases h
  rw [List.drop_eq_getElem_cons hlt] at h
  obtain ⟨hc, hl⟩ := List.cons.inj h
  exact ⟨hlt, (charAt_of_lt hlt).trans hc, hl⟩

theorem head?_of_charAt {c : Byte} (hc : c ≠ 0) (h : charAt s p = c) : (s.drop p).head? = some c := by
  have hlt : p < s.length := by
    by_contra hge
    exact hc (h ▸ charAt_of_le (Nat.le_of_not_lt hge))
  rw [List.head?_drop, List.getElem?_eq_getElem hlt, ← charAt_of_lt hlt, h]

theorem skip_of_blank (hp : p < s.length) (hb : charAt s p ∈ whitespace) : skip s p = skip s (p + 1) := by
  rw [charAt_of_lt hp] at hb
  rw [skip, skip, advance, advance, List.drop_eq_getElem_cons hp, List.takeWhile_cons,
    if_pos (List.contains_iff_mem.2 hb), List.length_cons]
  omega

theorem tokens_of_scan (h0 : 0 ∉ s) (hp : p < s.length) (hb : charAt s p ∉ whitespace) {r : Byte × Nat}
    (hr : scan s p = r) : tokens s p = ⟨r.1, p, r.2⟩ :: tokens s r.2 := by
  have hskip : skip s p = p := by
    rw [charAt_of_lt hp] at hb
    rw [skip, advance, List.drop_eq_getElem_cons hp, List.takeWhile_cons, if_neg]
    · rfl
    · rwa [List.contains_iff_mem]
  have hget : gettoken s p = (⟨r.1, p, r.2⟩, skip s r.2) := by
    rw [gettoken, hskip, hr]
  obtain ⟨hin, -⟩ := gettoken_in h0 (hskip.symm ▸ hp)
  rw [tokens_cons h0 (hskip.symm ▸ hp), hget]
  rw [hget] at hin
  rw [tokens_skip h0 hin.le]

theorem scan_of_symbol (hc : charAt s p ∈ symbols) (hgt : charAt s p = gt → charAt s (p + 1) ≠ gt) :
    scan s p = (charAt s p, p + 1) := by
  have hne : charAt s p ≠ 0 := fun hz => absurd (hz ▸ hc) (by decide)
  have hs := scanned hne
  revert hs
  generalize scan s p = r
  rintro (_ | ⟨h, h'⟩ | h)
  · rfl
  · exact absurd h' (hgt h)
  · exact absurd hc h

theorem scan_of_word (h0 : 0 ∉ s) (hp : p < s.length) (hc : charAt s p ∉ symbols) :
    scan s p = (word, advance isWordChar s p) := by
  have hs := scanned fun hz => absurd ((charAt_eq_zero_iff h0).1 hz) (Nat.not_le.2 hp)
  revert hs
  generalize scan s p = r
  rintro (h | ⟨h, -⟩ | -)
  · exact absurd h hc
  · exact absurd (h ▸ by decide) hc
  · rfl

theorem tokens_of_lexes (h0 : 0 ∉ s) {l : List Byte} {ts : List Token} (h : Lexes p l ts)
    (hl : s.drop p = l) : tokens s p = ts := by
  induction h with
  | nil => exact tokens_end ((List.drop_eq_nil_iff.1 hl).trans (le_advance _ s _))
  | blank hc _ ih =>
    obtain ⟨hp, rfl, hl'⟩ := charAt_of_drop hl
    rw [← ih hl', ← tokens_skip h0 hp.le, skip_of_blank hp hc, tokens_skip h0 hp]
  | symbol hc hgt _ ih =>
    obtain ⟨hp, rfl, rfl⟩ := charAt_of_drop hl
    have hb : ∀ c ∈ symbols, c ∉ whitespace := by decide
    rw [tokens_of_scan h0 hp (hb _ hc) (scan_of_symbol hc fun he hn =>
      hgt he (head?_of_charAt (by decide) hn)), ih rfl]
  | twice _ ih =>
    obtain ⟨hp, hc, hl'⟩ := charAt_of_drop hl
    obtain ⟨-, hc', hl''⟩ := charAt_of_drop hl'
    rw [tokens_of_scan h0 hp (hc ▸ by decide) (r := (plus, _ + 2)), ih hl'']
    simp [scan, hc, hc']
  | @word p w l ts hne hw hend _ ih =>
    have hadv : advance isWordChar s p = p + w.length := by
      have hnil : l.takeWhile isWordChar = [] := by
        cases l with
        | nil => rfl
        | cons c l => rw [List.takeWhile_cons, hend c rfl]; rfl
      rw [advance, hl, List.takeWhile_append_of_pos hw, hnil, List.append_nil]
    obtain ⟨c, w, rfl⟩ := List.exists_cons_of_ne_nil hne
    obtain ⟨hp, hc, -⟩ := charAt_of_drop hl
    obtain ⟨hb, hs⟩ := isWordChar_iff.1 (hc ▸ hw c List.mem_cons_self)
    rw [tokens_of_scan h0 hp hb (scan_of_word h0 hp hs), hadv, ih]
    rw [← List.drop_drop, hl, List.drop_left]

/-- The tokens that `gettoken` delivers are the tokens of the string. -/
theorem lexes_iff (h0 : 0 ∉ s) {ts : List Token} : Lexes 0 s ts ↔ ts = tokens s 0 := by
  refine ⟨fun h => (tokens_of_lexes h0 h rfl).symm, ?_⟩
  rintro rfl
  obtain ⟨ts, h⟩ := exists_lexes s 0
  rwa [tokens_of_lexes h0 h rfl]

end

end Xv6.User
