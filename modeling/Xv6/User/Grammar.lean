import Xv6.User.Parse

/-!
# The grammar of the shell

    line  := pipe '&'* [';' line]
    pipe  := cmd ['|' pipe]
    cmd   := '(' line ')' redir* | redir* (word redir*)*
    redir := ('<' | '>' | '>>') word

`Derives` is this grammar over tokens, with the tree that each rule prescribes.  `parse_sound` says
that what the parser takes off the tokens is derived, and that it does not run out of depth;
`parse_complete` that it returns the tree of a derivation when what comes after it cannot go on with
it.  The two are put together in `parsecmd_grammar`, with the strings in the buffer.
-/

namespace Xv6.User

open Bytes Conc Prog
open Fs (O_RDONLY O_WRONLY O_CREATE)

/-- A command with redirections around it, the last one outermost. -/
def wraps (rs : List (Token × Token)) (cmd : Cmd) : Cmd :=
  rs.foldl (fun cmd r => if r.1.ret = lt then .redir cmd r.2.q r.2.eq O_RDONLY 0
    else .redir cmd r.2.q r.2.eq (O_WRONLY ||| O_CREATE) 1) cmd

/-- `redir*`: each operator with its file. -/
inductive Redirs : List Token → List (Token × Token) → Prop
  | nil : Redirs [] []
  | cons {op file : Token} {ts : List Token} {rs : List (Token × Token)}
      (hop : op.ret = lt ∨ op.ret = gt ∨ op.ret = plus) (hfile : file.ret = word)
      (h : Redirs ts rs) : Redirs (op :: file :: ts) ((op, file) :: rs)

/-- `(word redir*)*`: the words and the redirections. -/
inductive Args : List Token → List Token → List (Token × Token) → Prop
  | nil : Args [] [] []
  | cons {w : Token} {us ts ws : List Token} {rs rs' : List (Token × Token)} (hw : w.ret = word)
      (hr : Redirs us rs) (h : Args ts ws rs') : Args (w :: (us ++ ts)) (w :: ws) (rs ++ rs')

/-- The symbols with a tree. -/
inductive Part
  | line
  | pipe
  | cmd

inductive Derives : Part → List Token → Cmd → Prop
  | exec {us ts ws : List Token} {rs rs' : List (Token × Token)} (hr : Redirs us rs)
      (ha : Args ts ws rs') (hmax : ws.length < MAXARGS) :
      Derives .cmd (us ++ ts) (wraps (rs ++ rs') (.exec (ws.map fun w => (w.q, w.eq))))
  | block {l r : Token} {ts us : List Token} {cmd : Cmd} {rs : List (Token × Token)}
      (hl : l.ret = lpar) (h : Derives .line ts cmd) (hr : r.ret = rpar) (hrs : Redirs us rs) :
      Derives .cmd (l :: (ts ++ r :: us)) (wraps rs cmd)
  | one {ts : List Token} {cmd : Cmd} (h : Derives .cmd ts cmd) : Derives .pipe ts cmd
  | pipe {t : Token} {ts us : List Token} {left right : Cmd} (h : Derives .cmd ts left)
      (ht : t.ret = bar) (h' : Derives .pipe us right) :
      Derives .pipe (ts ++ t :: us) (.pipe left right)
  | last {ts us : List Token} {cmd : Cmd} (h : Derives .pipe ts cmd) (hus : ∀ t ∈ us, t.ret = amp) :
      Derives .line (ts ++ us) (Cmd.back^[us.length] cmd)
  | list {t : Token} {ts us vs : List Token} {left right : Cmd} (h : Derives .pipe ts left)
      (hus : ∀ t ∈ us, t.ret = amp) (ht : t.ret = semi) (h' : Derives .line vs right) :
      Derives .line (ts ++ us ++ t :: vs) (.list (Cmd.back^[us.length] left) right)

theorem wraps_append (rs rs' : List (Token × Token)) (cmd : Cmd) :
    wraps (rs ++ rs') cmd = wraps rs' (wraps rs cmd) := List.foldl_append

/-- The words go to the node that is under the redirections. -/
theorem addArg_wraps (q eq : Nat) (rs : List (Token × Token)) (cmd : Cmd) :
    (wraps rs cmd).addArg q eq = wraps rs (cmd.addArg q eq) := by
  induction rs generalizing cmd with
  | nil => rfl
  | cons r rs ih =>
    simp only [wraps, List.foldl_cons] at ih ⊢
    rw [ih]
    split <;> rfl

theorem addArg_words (ws : List Token) (w : Token) :
    Cmd.addArg w.q w.eq (.exec (ws.map fun w => (w.q, w.eq))) =
      .exec ((ws ++ [w]).map fun w => (w.q, w.eq)) := by
  rw [List.map_append]
  rfl

theorem redircmd_eq {op file : Token} (hop : op.ret = lt ∨ op.ret = gt ∨ op.ret = plus) (cmd : Cmd) :
    redircmd cmd op.ret file.q file.eq = wraps [(op, file)] cmd := by
  rcases hop with h | h | h <;> simp [redircmd, wraps, h]

/-! ## What the parser takes is derived -/

section

variable {s : List Byte} (h0 : 0 ∉ s)

/-- The parser may stop with a message, and not for lack of depth. -/
def Message (e : Option ParsePanic) : Prop := e ≠ none

theorem first_of_startsWith {toks : List Byte} {ts : List Token} (h : startsWith toks ts = true) :
    ∃ t ts', ts = t :: ts' ∧ t.first ∈ toks := by
  cases ts with
  | nil => cases h
  | cons t ts => exact ⟨t, ts, rfl, List.contains_iff_mem.1 h⟩

theorem ret_of_first {t : Token} {c : Byte} (h : t.first = c) (hc : c ≠ gt) : t.ret = c := by
  rw [Token.first] at h
  split at h
  · exact absurd h.symm hc
  · exact h

theorem redir_of_first {t : Token} (h : t.first ∈ [lt, gt]) :
    t.ret = lt ∨ t.ret = gt ∨ t.ret = plus := by
  rw [Token.first] at h
  split at h
  · next hp => exact .inr (.inr hp)
  · rcases List.mem_pair.1 h with h | h
    · exact .inl h
    · exact .inr (.inl h)

include h0

theorem parseredirs_sound {n : Nat} {p : Nat} {ts : List Token} (hat : At s p ts)
    (hn : ts.length < n) (cmd : Cmd) :
    wp Message (parseredirs s n cmd) (fun c p' => ∃ us rest rs, ts = us ++ rest ∧ At s p' rest ∧
      Redirs us rs ∧ c = wraps rs cmd) p := by
  induction n generalizing p ts cmd with
  | zero => exact absurd hn (Nat.not_lt_zero _)
  | succ n ih =>
    rw [parseredirs, wp_bind]
    refine wp_sees h0 (by decide) hat fun p₁ h₁ => ?_
    refine wp_ite (fun hs => ?_) fun _ => ⟨[], ts, [], rfl, h₁, .nil, rfl⟩
    obtain ⟨op, ts, rfl, hop⟩ := first_of_startsWith hs
    rw [wp_bind]
    refine wp_next h0 h₁ fun p₂ _ _ h₂ => ?_
    rw [wp_bind]
    cases ts with
    | nil =>
      refine wp_next_end h0 h₂ fun t p₃ ht _ => ?_
      rw [if_pos (ht ▸ by decide)]
      exact Option.some_ne_none _
    | cons file ts =>
      refine wp_next h0 h₂ fun p₃ _ _ h₃ => ?_
      refine wp_ite (fun _ => Option.some_ne_none _) fun hfile => ?_
      have hop' := redir_of_first hop
      refine wp_mono (ih h₃ (by simp only [List.length_cons] at hn; omega) _) ?_
      rintro c p' ⟨us, rest, rs, rfl, hat', hrs, rfl⟩
      refine ⟨op :: file :: us, rest, (op, file) :: rs, rfl, hat', .cons hop' (not_not.1 hfile) hrs, ?_⟩
      rw [redircmd_eq hop', ← wraps_append]
      rfl

theorem parseargs_sound {n : Nat} {p : Nat} {ts : List Token} (hat : At s p ts) (hn : ts.length < n)
    (rs₀ : List (Token × Token)) (ws₀ : List Token) (hmax : ws₀.length < MAXARGS) :
    wp Message (parseargs s n (wraps rs₀ (.exec (ws₀.map fun w => (w.q, w.eq)))) ws₀.length)
      (fun c p' => ∃ us rest ws rs, ts = us ++ rest ∧ At s p' rest ∧ Args us ws rs ∧
        (ws₀ ++ ws).length < MAXARGS ∧
        c = wraps (rs₀ ++ rs) (.exec ((ws₀ ++ ws).map fun w => (w.q, w.eq)))) p := by
  induction n generalizing p ts rs₀ ws₀ with
  | zero => exact absurd hn (Nat.not_lt_zero _)
  | succ n ih =>
    have hdone : ∀ p', At s p' ts → ∃ us rest ws rs, ts = us ++ rest ∧ At s p' rest ∧
        Args us ws rs ∧ (ws₀ ++ ws).length < MAXARGS ∧
        wraps rs₀ (.exec (ws₀.map fun w => (w.q, w.eq))) =
          wraps (rs₀ ++ rs) (.exec ((ws₀ ++ ws).map fun w => (w.q, w.eq))) := fun p' h =>
      ⟨[], ts, [], [], rfl, h, .nil, by simpa using hmax, by simp⟩
    rw [parseargs, wp_bind]
    refine wp_sees h0 (by decide) hat fun p₁ h₁ => ?_
    refine wp_ite (fun _ => hdone p₁ h₁) fun _ => ?_
    rw [wp_bind]
    cases ts with
    | nil =>
      refine wp_next_end h0 h₁ fun t p₂ ht h₂ => ?_
      rw [if_pos ht]
      exact hdone p₂ h₂
    | cons w ts =>
      refine wp_next h0 h₁ fun p₂ _ hret h₂ => ?_
      rw [if_neg hret]
      refine wp_ite (fun _ => Option.some_ne_none _) fun hw => ?_
      refine wp_ite (fun _ => Option.some_ne_none _) fun hargc => ?_
      have hlen : ts.length < n := Nat.lt_of_succ_lt_succ hn
      rw [wp_bind, addArg_wraps]
      refine wp_mono (parseredirs_sound h0 h₂ hlen _) ?_
      rintro c p₃ ⟨us, ts, rs, rfl, h₃, hrs, rfl⟩
      rw [addArg_words, ← wraps_append]
      have hlen' : ts.length < n := by
        rw [List.length_append] at hlen
        omega
      have hmax' : (ws₀ ++ [w]).length < MAXARGS := by simpa using hargc
      have hrest := ih h₃ hlen' (rs₀ ++ rs) (ws₀ ++ [w]) hmax'
      rw [List.length_append] at hrest
      refine wp_mono hrest ?_
      rintro c p' ⟨vs, rest, ws, rs', rfl, hat', hargs, hlt, rfl⟩
      refine ⟨w :: (us ++ vs), rest, w :: ws, rs ++ rs', by simp, hat',
        .cons (not_not.1 hw) hrs hargs, ?_, ?_⟩
      · rwa [List.append_cons]
      · rw [List.append_assoc, ← List.append_cons]

theorem parsebacks_sound {n : Nat} {p : Nat} {ts : List Token} (hat : At s p ts) (hn : ts.length < n)
    (cmd : Cmd) :
    wp Message (parsebacks s n cmd) (fun c p' => ∃ us rest, ts = us ++ rest ∧ At s p' rest ∧
      (∀ t ∈ us, t.ret = amp) ∧ c = Cmd.back^[us.length] cmd) p := by
  induction n generalizing p ts cmd with
  | zero => exact absurd hn (Nat.not_lt_zero _)
  | succ n ih =>
    rw [parsebacks, wp_bind]
    refine wp_sees h0 (by decide) hat fun p₁ h₁ => ?_
    refine wp_ite (fun hs => ?_) fun _ => ⟨[], ts, rfl, h₁, by simp, rfl⟩
    obtain ⟨t, ts, rfl, ht⟩ := first_of_startsWith hs
    have hamp : t.ret = amp := ret_of_first (List.mem_singleton.1 ht) (by decide)
    rw [wp_bind]
    refine wp_next h0 h₁ fun p₂ _ _ h₂ => ?_
    refine wp_mono (ih h₂ (Nat.lt_of_succ_lt_succ hn) _) ?_
    rintro c p' ⟨us, rest, rfl, hat', hus, rfl⟩
    exact ⟨t :: us, rest, rfl, hat', List.forall_mem_cons.2 ⟨hamp, hus⟩, rfl⟩

omit h0 in
def Took (s : List Byte) (x : Part) (ts : List Token) (c : Cmd) (p' : Nat) : Prop :=
  ∃ us rest, ts = us ++ rest ∧ At s p' rest ∧ Derives x us c

omit h0 in
/-- The depth `n` is enough for the functions at tokens of this number. -/
structure Sound (s : List Byte) (n : Nat) : Prop where
  line : ∀ {p ts}, At s p ts → 4 * ts.length + 4 ≤ n → wp Message (parseline s n) (Took s .line ts) p
  pipe : ∀ {p ts}, At s p ts → 4 * ts.length + 3 ≤ n → wp Message (parsepipe s n) (Took s .pipe ts) p
  exec : ∀ {p ts}, At s p ts → 4 * ts.length + 2 ≤ n → wp Message (parseexec s n) (Took s .cmd ts) p
  block : ∀ {p ts}, At s p ts → 4 * ts.length + 1 ≤ n → wp Message (parseblock s n) (Took s .cmd ts) p

theorem Sound.line_succ {n : Nat} (h : Sound s n) {p : Nat} {ts : List Token} (hat : At s p ts)
    (hn : 4 * ts.length + 4 ≤ n + 1) : wp Message (parseline s (n + 1)) (Took s .line ts) p := by
  rw [parseline, wp_bind]
  refine wp_mono (h.pipe hat (by omega)) ?_
  rintro left p₁ ⟨us, ts, rfl, h₁, hleft⟩
  rw [List.length_append] at hn
  rw [wp_bind]
  refine wp_mono (parsebacks_sound h0 h₁ (by omega) left) ?_
  rintro _ p₂ ⟨as, ts, rfl, h₂, has, rfl⟩
  rw [List.length_append] at hn
  rw [wp_bind]
  refine wp_sees h0 (by decide) h₂ fun p₃ h₃ => ?_
  refine wp_ite (fun hs => ?_) fun _ => ⟨us ++ as, ts, by simp, h₃, .last hleft has⟩
  obtain ⟨t, ts, rfl, ht⟩ := first_of_startsWith hs
  rw [List.length_cons] at hn
  rw [wp_bind]
  refine wp_next h0 h₃ fun p₄ _ _ h₄ => ?_
  rw [wp_bind]
  refine wp_mono (h.line h₄ (by omega)) ?_
  rintro right p₅ ⟨vs, rest, rfl, h₅, hright⟩
  exact ⟨us ++ as ++ t :: vs, rest, by simp, h₅,
    .list hleft has (ret_of_first (List.mem_singleton.1 ht) (by decide)) hright⟩

theorem Sound.pipe_succ {n : Nat} (h : Sound s n) {p : Nat} {ts : List Token} (hat : At s p ts)
    (hn : 4 * ts.length + 3 ≤ n + 1) : wp Message (parsepipe s (n + 1)) (Took s .pipe ts) p := by
  rw [parsepipe, wp_bind]
  refine wp_mono (h.exec hat (by omega)) ?_
  rintro left p₁ ⟨us, ts, rfl, h₁, hleft⟩
  rw [List.length_append] at hn
  rw [wp_bind]
  refine wp_sees h0 (by decide) h₁ fun p₂ h₂ => ?_
  refine wp_ite (fun hs => ?_) fun _ => ⟨us, ts, rfl, h₂, .one hleft⟩
  obtain ⟨t, ts, rfl, ht⟩ := first_of_startsWith hs
  rw [List.length_cons] at hn
  rw [wp_bind]
  refine wp_next h0 h₂ fun p₃ _ _ h₃ => ?_
  rw [wp_bind]
  refine wp_mono (h.pipe h₃ (by omega)) ?_
  rintro right p₄ ⟨vs, rest, rfl, h₄, hright⟩
  exact ⟨us ++ t :: vs, rest, by simp, h₄,
    .pipe hleft (ret_of_first (List.mem_singleton.1 ht) (by decide)) hright⟩

theorem Sound.exec_succ {n : Nat} (h : Sound s n) {p : Nat} {ts : List Token} (hat : At s p ts)
    (hn : 4 * ts.length + 2 ≤ n + 1) : wp Message (parseexec s (n + 1)) (Took s .cmd ts) p := by
  rw [parseexec, wp_bind]
  refine wp_sees h0 (by decide) hat fun p₁ h₁ => ?_
  refine wp_ite (fun _ => h.block h₁ (by omega)) fun _ => ?_
  rw [wp_bind]
  refine wp_mono (parseredirs_sound h0 h₁ (by omega) _) ?_
  rintro _ p₂ ⟨us, ts, rs, rfl, h₂, hrs, rfl⟩
  rw [List.length_append] at hn
  refine wp_mono (parseargs_sound h0 h₂ (by omega) rs [] (by decide)) ?_
  rintro _ p₃ ⟨vs, rest, ws, rs', rfl, h₃, hargs, hmax, rfl⟩
  exact ⟨us ++ vs, rest, by simp, h₃, .exec hrs hargs hmax⟩

theorem Sound.block_succ {n : Nat} (h : Sound s n) {p : Nat} {ts : List Token} (hat : At s p ts)
    (hn : 4 * ts.length + 1 ≤ n + 1) : wp Message (parseblock s (n + 1)) (Took s .cmd ts) p := by
  rw [parseblock, wp_bind]
  refine wp_sees h0 (by decide) hat fun p₁ h₁ => ?_
  refine wp_ite (fun hs => ?_) fun _ => Option.some_ne_none _
  obtain ⟨l, ts, rfl, hl⟩ := first_of_startsWith hs
  rw [List.length_cons] at hn
  rw [wp_bind]
  refine wp_next h0 h₁ fun p₂ _ _ h₂ => ?_
  rw [wp_bind]
  refine wp_mono (h.line h₂ (by omega)) ?_
  rintro cmd p₃ ⟨us, ts, rfl, h₃, hline⟩
  rw [List.length_append] at hn
  rw [wp_bind]
  refine wp_sees h0 (by decide) h₃ fun p₄ h₄ => ?_
  refine wp_ite (fun hs => ?_) fun _ => Option.some_ne_none _
  obtain ⟨r, ts, rfl, hr⟩ := first_of_startsWith hs
  rw [List.length_cons] at hn
  rw [wp_bind]
  refine wp_next h0 h₄ fun p₅ _ _ h₅ => ?_
  refine wp_mono (parseredirs_sound h0 h₅ (by omega) cmd) ?_
  rintro _ p₆ ⟨vs, rest, rs, rfl, h₆, hrs, rfl⟩
  exact ⟨l :: (us ++ r :: vs), rest, by simp, h₆,
    .block (ret_of_first (List.mem_singleton.1 hl) (by decide)) hline
      (ret_of_first (List.mem_singleton.1 hr) (by decide)) hrs⟩

theorem parse_sound (n : Nat) : Sound s n := by
  induction n with
  | zero => constructor <;> intros <;> omega
  | succ n ih => exact ⟨ih.line_succ h0, ih.pipe_succ h0, ih.exec_succ h0, ih.block_succ h0⟩

/-! ## What is derived is parsed -/

omit h0

/-- What may come after a part: nothing, or one of these tokens. -/
def Part.follow : Part → List Byte
  | .line => [rpar]
  | .pipe => [amp, semi, rpar]
  | .cmd => [bar, amp, semi, rpar]

def Follows (x : Part) (ts : List Token) : Prop := ts = [] ∨ startsWith x.follow ts = true

theorem startsWith_cons {toks : List Byte} {t : Token} {ts : List Token} :
    startsWith toks (t :: ts) = toks.contains t.first := rfl

theorem first_of_ret {t : Token} {c : Byte} (h : t.ret = c) (hc : c ≠ plus) : t.first = c := by
  rw [Token.first, h, if_neg hc]

theorem Follows.not_startsWith {x : Part} {ts : List Token} (h : Follows x ts) {toks : List Byte}
    (htoks : ∀ c ∈ x.follow, toks.contains c = false) : startsWith toks ts = false := by
  rcases h with rfl | h
  · rfl
  · obtain ⟨t, ts, rfl, ht⟩ := first_of_startsWith h
    exact htoks _ ht

theorem Follows.mono {x y : Part} {ts : List Token} (h : Follows x ts) (hxy : x.follow ⊆ y.follow) :
    Follows y ts := by
  refine h.imp_right fun h => ?_
  obtain ⟨t, ts, rfl, ht⟩ := first_of_startsWith h
  exact List.contains_iff_mem.2 (hxy ht)

theorem follows_cons {x : Part} {t : Token} {c : Byte} (ht : t.ret = c) (hc : c ≠ plus)
    (hx : c ∈ x.follow) (ts : List Token) : Follows x (t :: ts) :=
  .inr (by rw [startsWith_cons, first_of_ret ht hc]; exact List.contains_iff_mem.2 hx)

/-- Words do not look like anything else. -/
theorem Args.not_startsWith {us ws : List Token} {rs : List (Token × Token)} (h : Args us ws rs)
    {rest : List Token} (hrest : Follows .cmd rest) {toks : List Byte}
    (htoks : ∀ c ∈ word :: Part.cmd.follow, toks.contains c = false) :
    startsWith toks (us ++ rest) = false := by
  rw [List.forall_mem_cons] at htoks
  cases h with
  | nil => exact hrest.not_startsWith htoks.2
  | cons hw _ _ =>
    rw [List.cons_append, startsWith_cons, first_of_ret hw (by decide)]
    exact htoks.1

theorem Redirs.not_startsWith {us : List Token} {rs : List (Token × Token)} (h : Redirs us rs)
    {rest : List Token} {toks : List Byte} (hrest : startsWith toks rest = false)
    (htoks : toks.contains lt = false ∧ toks.contains gt = false) :
    startsWith toks (us ++ rest) = false := by
  cases h with
  | nil => exact hrest
  | cons hop _ _ =>
    rw [List.cons_append, startsWith_cons]
    rcases hop with h | h | h <;> simp only [Token.first, h]
    · exact htoks.1
    · exact htoks.2
    · exact htoks.2

/-- The parser returns. -/
abbrev Never (_ : Option ParsePanic) : Prop := False

include h0

theorem parseredirs_complete {us : List Token} {rs : List (Token × Token)} (h : Redirs us rs)
    {n p : Nat} {rest : List Token} (hat : At s p (us ++ rest)) (hn : (us ++ rest).length < n)
    (hrest : startsWith [lt, gt] rest = false) (cmd : Cmd) :
    wp Never (parseredirs s n cmd) (fun c p' => c = wraps rs cmd ∧ At s p' rest) p := by
  obtain ⟨n, rfl⟩ : ∃ k, n = k + 1 := ⟨n - 1, by omega⟩
  induction h generalizing n p cmd with
  | nil =>
    rw [parseredirs, wp_bind]
    refine wp_sees h0 (by decide) hat fun p₁ h₁ => ?_
    rw [List.nil_append, hrest]
    exact ⟨rfl, h₁⟩
  | @cons op file ts rs hop hfile h ih =>
    have hop' : [lt, gt].contains op.first = true := by
      rcases hop with h | h | h <;> rw [Token.first, h] <;> decide
    rw [parseredirs, wp_bind]
    refine wp_sees h0 (by decide) hat fun p₁ h₁ => ?_
    rw [List.cons_append, startsWith_cons, hop', if_pos rfl, wp_bind]
    refine wp_next h0 h₁ fun p₂ _ _ h₂ => ?_
    rw [wp_bind]
    refine wp_next h0 h₂ fun p₃ _ _ h₃ => ?_
    rw [if_neg (not_not.2 hfile), redircmd_eq hop]
    simp only [List.cons_append, List.length_cons] at hn
    obtain ⟨n, rfl⟩ : ∃ k, n = k + 1 := ⟨n - 1, by omega⟩
    exact ih h₃ _ n (by omega)

theorem parseargs_complete {us ws : List Token} {rs : List (Token × Token)} (h : Args us ws rs)
    {n p : Nat} {rest : List Token} (hat : At s p (us ++ rest)) (hn : (us ++ rest).length < n)
    (hrest : Follows .cmd rest) (rs₀ : List (Token × Token)) (ws₀ : List Token)
    (hmax : (ws₀ ++ ws).length < MAXARGS) :
    wp Never (parseargs s n (wraps rs₀ (.exec (ws₀.map fun w => (w.q, w.eq)))) ws₀.length)
      (fun c p' => c = wraps (rs₀ ++ rs) (.exec ((ws₀ ++ ws).map fun w => (w.q, w.eq))) ∧
        At s p' rest) p := by
  obtain ⟨n, rfl⟩ : ∃ k, n = k + 1 := ⟨n - 1, by omega⟩
  induction h generalizing n p rs₀ ws₀ with
  | nil =>
    rw [parseargs, wp_bind]
    refine wp_sees h0 (by decide) hat fun p₁ h₁ => ?_
    rw [List.nil_append] at h₁ ⊢
    simp only [List.append_nil]
    refine wp_ite (fun _ => ⟨rfl, h₁⟩) fun hstop => ?_
    rcases hrest with rfl | hrest
    · rw [wp_bind]
      refine wp_next_end h0 h₁ fun t p₂ ht h₂ => ?_
      rw [if_pos ht]
      exact ⟨rfl, h₂⟩
    · obtain ⟨t, ts, rfl, ht⟩ := first_of_startsWith hrest
      have hperm : ∀ c ∈ Part.cmd.follow, c ∈ [bar, rpar, amp, semi] := by decide
      exact absurd (List.contains_iff_mem.2 (hperm _ ht)) hstop
  | @cons w us ts ws rs rs' hw hr h ih =>
    rw [parseargs, wp_bind]
    refine wp_sees h0 (by decide) hat fun p₁ h₁ => ?_
    rw [List.cons_append, startsWith_cons, first_of_ret hw (by decide)]
    rw [List.cons_append] at h₁ hn
    rw [List.length_cons] at hn
    rw [if_neg (by decide), wp_bind]
    refine wp_next h0 h₁ fun p₂ _ hret h₂ => ?_
    have hargc : ¬ws₀.length + 1 ≥ MAXARGS := by
      rw [List.length_append, List.length_cons] at hmax
      omega
    rw [if_neg hret, if_neg (not_not.2 hw), if_neg hargc, wp_bind, addArg_wraps]
    rw [List.append_assoc] at h₂ hn
    have hstop : startsWith [lt, gt] (ts ++ rest) = false := h.not_startsWith hrest (by decide)
    refine wp_mono (parseredirs_complete h0 hr h₂ (by omega) hstop _) ?_
    rintro _ p₃ ⟨rfl, h₃⟩
    rw [addArg_words, ← wraps_append]
    have hn' : (ts ++ rest).length < n := by
      rw [List.length_append] at hn
      omega
    obtain ⟨n, rfl⟩ : ∃ k, n = k + 1 := ⟨n - 1, by omega⟩
    have hmax' : (ws₀ ++ [w] ++ ws).length < MAXARGS := by rwa [← List.append_cons]
    have hrec := ih h₃ (rs₀ ++ rs) (ws₀ ++ [w]) hmax' n hn'
    rw [List.length_append, List.append_assoc rs₀, ← List.append_cons] at hrec
    exact hrec

theorem parsebacks_complete {us : List Token} (hus : ∀ t ∈ us, t.ret = amp) {n p : Nat}
    {rest : List Token} (hat : At s p (us ++ rest)) (hn : (us ++ rest).length < n)
    (hrest : startsWith [amp] rest = false) (cmd : Cmd) :
    wp Never (parsebacks s n cmd) (fun c p' => c = Cmd.back^[us.length] cmd ∧ At s p' rest) p := by
  obtain ⟨n, rfl⟩ : ∃ k, n = k + 1 := ⟨n - 1, by omega⟩
  induction us generalizing n p cmd with
  | nil =>
    rw [parsebacks, wp_bind]
    refine wp_sees h0 (by decide) hat fun p₁ h₁ => ?_
    rw [List.nil_append, hrest]
    exact ⟨rfl, h₁⟩
  | cons t us ih =>
    rw [List.forall_mem_cons] at hus
    rw [parsebacks, wp_bind]
    refine wp_sees h0 (by decide) hat fun p₁ h₁ => ?_
    rw [List.cons_append, startsWith_cons, first_of_ret hus.1 (by decide), if_pos (by decide), wp_bind]
    refine wp_next h0 h₁ fun p₂ _ _ h₂ => ?_
    rw [List.cons_append, List.length_cons] at hn
    obtain ⟨n, rfl⟩ : ∃ k, n = k + 1 := ⟨n - 1, by omega⟩
    exact ih hus.2 h₂ _ n (by omega)

omit h0 in
def Part.parser (s : List Byte) : Part → Nat → Parser Cmd
  | .line => parseline s
  | .pipe => parsepipe s
  | .cmd => parseexec s

omit h0 in
/-- How far the functions go down before they take a token. -/
def Part.depth : Part → Nat
  | .line => 4
  | .pipe => 3
  | .cmd => 2

omit h0 in
/-- Before tokens that a part derives and others that may follow it, its function takes just these
and returns their tree. -/
def Parses (s : List Byte) (x : Part) (ts : List Token) (c : Cmd) : Prop :=
  ∀ {n p : Nat} {rest : List Token}, At s p (ts ++ rest) →
    4 * (ts ++ rest).length + x.depth ≤ n + 1 → Follows x rest →
    wp Never (x.parser s (n + 1)) (fun c' p' => c' = c ∧ At s p' rest) p

theorem parses_exec {us ts ws : List Token} {rs rs' : List (Token × Token)} (hr : Redirs us rs)
    (ha : Args ts ws rs') (hmax : ws.length < MAXARGS) :
    Parses s .cmd (us ++ ts) (wraps (rs ++ rs') (.exec (ws.map fun w => (w.q, w.eq)))) := by
  intro n p rest hat hn hrest
  simp only [Part.depth] at hn
  rw [List.append_assoc] at hat hn
  have hpar : startsWith [lpar] (us ++ (ts ++ rest)) = false :=
    hr.not_startsWith (ha.not_startsWith hrest (by decide)) (by decide)
  have hredir : startsWith [lt, gt] (ts ++ rest) = false := ha.not_startsWith hrest (by decide)
  rw [Part.parser, parseexec, wp_bind]
  refine wp_sees h0 (by decide) hat fun p₁ h₁ => ?_
  rw [hpar, if_neg (by decide), wp_bind]
  refine wp_mono (parseredirs_complete h0 hr h₁ (by omega) hredir _) ?_
  rintro _ p₂ ⟨rfl, h₂⟩
  rw [List.length_append] at hn
  exact parseargs_complete h0 ha h₂ (by omega) hrest rs [] hmax

theorem Parses.block {ts us : List Token} {cmd : Cmd} (h : Parses s .line ts cmd) {l r : Token}
    {rs : List (Token × Token)} (hl : l.ret = lpar) (hr : r.ret = rpar) (hrs : Redirs us rs) :
    Parses s .cmd (l :: (ts ++ r :: us)) (wraps rs cmd) := by
  intro n p rest hat hn hrest
  simp only [Part.depth, List.cons_append, List.append_assoc, List.length_cons] at hn
  rw [List.cons_append, List.append_assoc, List.cons_append] at hat
  rw [List.length_append, List.length_cons] at hn
  obtain ⟨n, rfl⟩ : ∃ k, n = k + 2 := ⟨n - 2, by omega⟩
  have hlpar : ∀ ts : List Token, startsWith [lpar] (l :: ts) = true := fun ts => by
    rw [startsWith_cons, first_of_ret hl (by decide)]
    decide
  rw [Part.parser, parseexec, wp_bind]
  refine wp_sees h0 (by decide) hat fun p₁ h₁ => ?_
  rw [hlpar, if_pos rfl, parseblock, wp_bind]
  refine wp_sees h0 (by decide) h₁ fun p₂ h₂ => ?_
  rw [hlpar, if_pos rfl, wp_bind]
  refine wp_next h0 h₂ fun p₃ _ _ h₃ => ?_
  rw [wp_bind]
  have hline : 4 * (ts ++ r :: (us ++ rest)).length + Part.line.depth ≤ n + 1 := by
    rw [List.length_append, List.length_cons, Part.depth]
    omega
  refine wp_mono (h h₃ hline (follows_cons hr (by decide) (by decide) (us ++ rest))) ?_
  rintro _ p₄ ⟨rfl, h₄⟩
  rw [wp_bind]
  refine wp_sees h0 (by decide) h₄ fun p₅ h₅ => ?_
  rw [startsWith_cons, first_of_ret hr (by decide), if_pos (by decide), wp_bind]
  refine wp_next h0 h₅ fun p₆ _ _ h₆ => ?_
  exact parseredirs_complete h0 hrs h₆ (by omega) (hrest.not_startsWith (by decide)) _

theorem Parses.one {ts : List Token} {cmd : Cmd} (h : Parses s .cmd ts cmd) :
    Parses s .pipe ts cmd := by
  intro n p rest hat hn hrest
  simp only [Part.depth] at hn
  obtain ⟨n, rfl⟩ : ∃ k, n = k + 1 := ⟨n - 1, by omega⟩
  rw [Part.parser, parsepipe, wp_bind]
  refine wp_mono (h hat (by rw [Part.depth]; omega) (hrest.mono (by decide))) ?_
  rintro _ p₁ ⟨rfl, h₁⟩
  rw [wp_bind]
  refine wp_sees h0 (by decide) h₁ fun p₂ h₂ => ?_
  rw [hrest.not_startsWith (by decide)]
  exact ⟨rfl, h₂⟩

theorem Parses.pipe {ts us : List Token} {left right : Cmd} (h : Parses s .cmd ts left) {t : Token}
    (ht : t.ret = bar) (h' : Parses s .pipe us right) :
    Parses s .pipe (ts ++ t :: us) (.pipe left right) := by
  intro n p rest hat hn hrest
  rw [List.append_assoc, List.cons_append] at hat hn
  have hlen : (ts ++ t :: (us ++ rest)).length = ts.length + (us ++ rest).length + 1 := by
    rw [List.length_append, List.length_cons, Nat.add_assoc]
  simp only [Part.depth] at hn
  obtain ⟨n, rfl⟩ : ∃ k, n = k + 1 := ⟨n - 1, by omega⟩
  rw [Part.parser, parsepipe, wp_bind]
  refine wp_mono (h hat (by rw [Part.depth]; omega) (follows_cons ht (by decide) (by decide) _)) ?_
  rintro _ p₁ ⟨rfl, h₁⟩
  rw [wp_bind]
  refine wp_sees h0 (by decide) h₁ fun p₂ h₂ => ?_
  rw [startsWith_cons, first_of_ret ht (by decide), if_pos (by decide), wp_bind]
  refine wp_next h0 h₂ fun p₃ _ _ h₃ => ?_
  rw [wp_bind]
  refine wp_mono (h' h₃ (by rw [Part.depth]; omega) hrest) ?_
  rintro _ p₄ ⟨rfl, h₄⟩
  exact ⟨rfl, h₄⟩

/-- The part of a line up to its last `&`. -/
theorem Parses.backs {ts us rest : List Token} {cmd : Cmd} (h : Parses s .pipe ts cmd)
    (hus : ∀ t ∈ us, t.ret = amp) {n p : Nat} (hat : At s p (ts ++ (us ++ rest)))
    (hn : 4 * (ts ++ (us ++ rest)).length + 4 ≤ n + 1) (hpipe : Follows .pipe rest)
    (hamp : startsWith [amp] rest = false) {Q : Cmd → Nat → Prop}
    (hQ : ∀ p', At s p' rest → Q (Cmd.back^[us.length] cmd) p') :
    wp Never (parsepipe s n >>= fun cmd => parsebacks s n cmd) Q p := by
  have hfollow : Follows .pipe (us ++ rest) := by
    cases us with
    | nil => exact hpipe
    | cons t us => exact follows_cons (hus t List.mem_cons_self) (by decide) (by decide) _
  obtain ⟨n, rfl⟩ : ∃ k, n = k + 1 := ⟨n - 1, by omega⟩
  rw [wp_bind]
  refine wp_mono (h hat (by rw [Part.depth]; omega) hfollow) ?_
  rintro _ p₁ ⟨rfl, h₁⟩
  rw [List.length_append] at hn
  refine wp_mono (parsebacks_complete h0 hus h₁ (by omega) hamp _) ?_
  rintro _ p₂ ⟨rfl, h₂⟩
  exact hQ p₂ h₂

omit h0 in
theorem parseline_eq (s : List Byte) (n : Nat) :
    parseline s (n + 1) = (parsepipe s n >>= fun cmd => parsebacks s n cmd) >>= fun cmd => do
      if ← sees s [semi] then
        let _ ← next s
        let right ← parseline s n
        return .list cmd right
      else return cmd := by
  rw [parseline, bind_assoc]

theorem Parses.last {ts us : List Token} {cmd : Cmd} (h : Parses s .pipe ts cmd)
    (hus : ∀ t ∈ us, t.ret = amp) : Parses s .line (ts ++ us) (Cmd.back^[us.length] cmd) := by
  intro n p rest hat hn hrest
  rw [List.append_assoc] at hat hn
  rw [Part.parser, parseline_eq, wp_bind]
  refine h.backs h0 hus hat hn (hrest.mono (by decide)) (hrest.not_startsWith (by decide)) ?_
  intro p₁ h₁
  rw [wp_bind]
  refine wp_sees h0 (by decide) h₁ fun p₂ h₂ => ?_
  rw [hrest.not_startsWith (by decide)]
  exact ⟨rfl, h₂⟩

theorem Parses.list {ts us vs : List Token} {left right : Cmd} (h : Parses s .pipe ts left)
    (hus : ∀ t ∈ us, t.ret = amp) {t : Token} (ht : t.ret = semi) (h' : Parses s .line vs right) :
    Parses s .line (ts ++ us ++ t :: vs) (.list (Cmd.back^[us.length] left) right) := by
  intro n p rest hat hn hrest
  rw [List.append_assoc, List.append_assoc, List.cons_append] at hat hn
  have hamp : startsWith [amp] (t :: (vs ++ rest)) = false := by
    rw [startsWith_cons, first_of_ret ht (by decide)]
    decide
  rw [Part.parser, parseline_eq, wp_bind]
  refine h.backs h0 hus hat hn (follows_cons ht (by decide) (by decide) _) hamp ?_
  intro p₁ h₁
  rw [wp_bind]
  refine wp_sees h0 (by decide) h₁ fun p₂ h₂ => ?_
  rw [startsWith_cons, first_of_ret ht (by decide), if_pos (by decide), wp_bind]
  refine wp_next h0 h₂ fun p₃ _ _ h₃ => ?_
  have hlen : (vs ++ rest).length + 1 ≤ (ts ++ (us ++ t :: (vs ++ rest))).length := by
    simp only [List.length_append, List.length_cons]
    omega
  simp only [Part.depth] at hn
  obtain ⟨n, rfl⟩ : ∃ k, n = k + 1 := ⟨n - 1, by omega⟩
  rw [wp_bind]
  refine wp_mono (h' h₃ (by rw [Part.depth]; omega) hrest) ?_
  rintro _ p₄ ⟨rfl, h₄⟩
  exact ⟨rfl, h₄⟩

theorem parse_complete {x : Part} {ts : List Token} {c : Cmd} (h : Derives x ts c) :
    Parses s x ts c := by
  induction h with
  | exec hr ha hmax => exact parses_exec h0 hr ha hmax
  | block hl _ hr hrs ih => exact ih.block h0 hl hr hrs
  | one _ ih => exact ih.one h0
  | pipe _ ht _ ih ih' => exact ih.pipe h0 ht ih'
  | last _ hus ih => exact ih.last h0 hus
  | list _ hus ht _ ih ih' => exact ih.list h0 hus ht ih'

/-! ## `parsecmd` -/

omit h0 in
theorem length_tokens_le (s : List Byte) : (tokens s 0).length ≤ s.length := by
  have hfrom : ∀ n p, (tokensFrom s n p).length ≤ n := by
    intro n
    induction n with
    | zero => exact fun p => le_rfl
    | succ n ih =>
      intro p
      rw [tokensFrom]
      split
      · exact Nat.zero_le _
      · exact Nat.succ_le_succ (ih _)
  exact hfrom _ 0

theorem wp_leftovers {E : Option ParsePanic → Prop} {p : Nat} {ts : List Token} (hat : At s p ts)
    {cmd : Cmd} {Q : Cmd → Nat → Prop} (hend : ts = [] → ∀ p', Q cmd p')
    (hmore : ts ≠ [] → ∀ e, E (some e)) :
    wp E (do
      let _ ← sees s []
      atomic () fun p => if p ≠ s.length then .panic (.leftovers (s.drop p)) else .ok cmd p) Q p := by
  rw [wp_bind, sees, wp_atomic]
  show wp E (atomic () _) Q (skip s p)
  rw [wp_atomic]
  rcases hat.cases h0 with ⟨hskip, hnil⟩ | ⟨hlt, hcons⟩
  · rw [if_neg (not_not.2 hskip.symm)]
    exact hend hnil _
  · rw [if_pos (Nat.ne_of_lt hlt)]
    exact hmore (by simp [hcons]) _

variable {depth : Nat} (hdepth : 4 * s.length + 4 ≤ depth)
include hdepth

theorem parse_total :
    wp Message (parse s depth) (fun c _ => Derives .line (tokens s 0) c) 0 := by
  have hlen := length_tokens_le s
  have hat : At s 0 (tokens s 0) := ⟨Nat.zero_le _, rfl⟩
  rw [parse, wp_bind]
  refine wp_mono ((parse_sound h0 depth).line hat (by omega)) ?_
  rintro c p ⟨us, rest, htok, h₁, hder⟩
  refine wp_leftovers h0 h₁ (fun hnil _ => ?_) fun _ _ => Option.some_ne_none _
  rw [htok, hnil, List.append_nil]
  exact hder

theorem parse_returns {c : Cmd} (h : Derives .line (tokens s 0) c) :
    wp Never (parse s depth) (fun c' _ => c' = c) 0 := by
  have hlen := length_tokens_le s
  have hat : At s 0 (tokens s 0 ++ []) := ⟨Nat.zero_le _, (List.append_nil _).symm⟩
  obtain ⟨n, rfl⟩ : ∃ k, depth = k + 1 := ⟨depth - 1, by omega⟩
  rw [parse, wp_bind]
  have hline := parse_complete h0 h hat (n := n)
    (by rw [List.append_nil, Part.depth]; omega) (.inl rfl)
  refine wp_mono hline ?_
  rintro _ p ⟨rfl, h₁⟩
  exact wp_leftovers h0 h₁ (fun _ _ => rfl) fun hne => absurd rfl hne

end

/-! ## The strings -/

/-- The string at `q` in the buffer. -/
def cstrAt (buf : List Byte) (q : Nat) : List Byte := (buf.drop q).takeWhile (· != 0)

def Token.text (s : List Byte) (t : Token) : List Byte := (s.drop t.q).take (t.eq - t.q)

/-- The arguments and the files of a tree. -/
def Cmd.words : Cmd → List (Nat × Nat)
  | exec argv => argv
  | redir cmd file efile _ _ => cmd.words ++ [(file, efile)]
  | pipe left right => left.words ++ right.words
  | list left right => left.words ++ right.words
  | back cmd => cmd.words

/-- Each is ended, and nothing else is written. -/
theorem nulterminate_eq (cmd : Cmd) (buf : List Byte) :
    nulterminate cmd buf = cmd.words.foldl (fun buf w => buf.set w.2 0) buf := by
  induction cmd generalizing buf with
  | exec argv => rfl
  | redir cmd file efile mode fd ih =>
    rw [nulterminate, Cmd.words, List.foldl_append, ih]
    rfl
  | pipe left right ih ih' | list left right ih ih' =>
    rw [nulterminate, Cmd.words, List.foldl_append, ih, ih']
  | back cmd ih => rw [nulterminate, Cmd.words, ih]

theorem getElem?_ended (ws : List (Nat × Nat)) (buf : List Byte) (i : Nat) (hi : i < buf.length) :
    (ws.foldl (fun buf w => buf.set w.2 0) buf)[i]? =
      if i ∈ ws.map Prod.snd then some 0 else buf[i]? := by
  induction ws generalizing buf with
  | nil => rfl
  | cons w ws ih =>
    rw [List.foldl_cons, ih _ (by rwa [List.length_set]), List.map_cons, List.getElem?_set]
    by_cases hw : w.2 = i
    · subst hw
      simp [hi]
    · rw [if_neg hw]
      simp only [List.mem_cons, or_iff_right (Ne.symm hw)]

section

variable {s : List Byte}

def WordsIn (ts : List Token) (ws : List (Nat × Nat)) : Prop :=
  ∀ w ∈ ws, ∃ t ∈ ts, t.ret = word ∧ w = (t.q, t.eq)

theorem WordsIn.mono {ts us : List Token} {ws : List (Nat × Nat)} (h : WordsIn ts ws)
    (hsub : ts ⊆ us) : WordsIn us ws := fun w hw =>
  let ⟨t, ht, hret, he⟩ := h w hw
  ⟨t, hsub ht, hret, he⟩

theorem WordsIn.append {ts : List Token} {ws vs : List (Nat × Nat)} (h : WordsIn ts ws)
    (h' : WordsIn ts vs) : WordsIn ts (ws ++ vs) := fun w hw =>
  (List.mem_append.1 hw).elim (h w) (h' w)

theorem words_wraps (rs : List (Token × Token)) (cmd : Cmd) :
    (wraps rs cmd).words = cmd.words ++ rs.map fun r => (r.2.q, r.2.eq) := by
  induction rs generalizing cmd with
  | nil => exact (List.append_nil _).symm
  | cons r rs ih =>
    simp only [wraps, List.foldl_cons] at ih ⊢
    rw [ih, List.map_cons, List.append_cons]
    split <;> rfl

theorem words_backs (n : Nat) (cmd : Cmd) : (Cmd.back^[n] cmd).words = cmd.words := by
  induction n generalizing cmd with
  | zero => rfl
  | succ n ih =>
    rw [Function.iterate_succ_apply, ih]
    rfl

theorem Redirs.wordsIn {us : List Token} {rs : List (Token × Token)} (h : Redirs us rs) :
    WordsIn us (rs.map fun r => (r.2.q, r.2.eq)) := by
  induction h with
  | nil => exact fun w hw => absurd hw List.not_mem_nil
  | @cons op file ts rs _ hfile _ ih =>
    intro w hw
    rcases List.mem_cons.1 hw with rfl | hw
    · exact ⟨file, by simp, hfile, rfl⟩
    · exact ih.mono (fun t ht => List.mem_cons_of_mem _ (List.mem_cons_of_mem _ ht)) w hw

theorem Args.wordsIn {us ws : List Token} {rs : List (Token × Token)} (h : Args us ws rs) :
    WordsIn us (ws.map fun w => (w.q, w.eq)) ∧ WordsIn us (rs.map fun r => (r.2.q, r.2.eq)) := by
  induction h with
  | nil => exact ⟨fun w hw => absurd hw List.not_mem_nil, fun w hw => absurd hw List.not_mem_nil⟩
  | @cons w us ts ws rs rs' hw hr _ ih =>
    have hus : us ⊆ w :: (us ++ ts) := fun t ht => List.mem_cons_of_mem _ (List.mem_append_left ts ht)
    have hts : ts ⊆ w :: (us ++ ts) := fun t ht => List.mem_cons_of_mem _ (List.mem_append_right us ht)
    constructor
    · intro v hv
      rcases List.mem_cons.1 hv with rfl | hv
      · exact ⟨w, List.mem_cons_self, hw, rfl⟩
      · exact ih.1.mono hts v hv
    · rw [List.map_append]
      exact (hr.wordsIn.mono hus).append (ih.2.mono hts)

theorem Derives.wordsIn {x : Part} {ts : List Token} {c : Cmd} (h : Derives x ts c) :
    WordsIn ts c.words := by
  induction h with
  | @exec us ts ws rs rs' hr ha _ =>
    rw [words_wraps, List.map_append]
    exact (ha.wordsIn.1.mono (List.subset_append_right us ts)).append
      ((hr.wordsIn.mono (List.subset_append_left us ts)).append
        (ha.wordsIn.2.mono (List.subset_append_right us ts)))
  | @block l r ts us cmd rs _ _ _ hrs ih =>
    rw [words_wraps]
    refine (ih.mono ?_).append (hrs.wordsIn.mono ?_)
    · exact fun t ht => List.mem_cons_of_mem _ (List.mem_append_left _ ht)
    · exact fun t ht => List.mem_cons_of_mem _ (List.mem_append_right _ (List.mem_cons_of_mem _ ht))
  | one _ ih => exact ih
  | @pipe t ts us left right _ _ _ ih ih' =>
    refine (ih.mono (List.subset_append_left _ _)).append (ih'.mono ?_)
    exact fun u hu => List.mem_append_right _ (List.mem_cons_of_mem _ hu)
  | last _ _ ih =>
    rw [words_backs]
    exact ih.mono (List.subset_append_left _ _)
  | @list t ts us vs left right _ _ _ _ ih ih' =>
    rw [Cmd.words, words_backs]
    refine (ih.mono fun u hu => ?_).append (ih'.mono fun u hu => ?_)
    · exact List.mem_append_left _ (List.mem_append_left _ hu)
    · exact List.mem_append_right _ (List.mem_cons_of_mem _ hu)

variable (h0 : 0 ∉ s)
include h0

theorem tokens_in {p : Nat} : ∀ t ∈ tokens s p, t.In s := by
  have hfrom : ∀ n p, ∀ t ∈ tokensFrom s n p, t.In s := by
    intro n
    induction n with
    | zero => exact fun p t ht => absurd ht List.not_mem_nil
    | succ n ih =>
      intro p t ht
      rcases Nat.lt_or_ge (skip s p) s.length with hlt | hge
      · obtain ⟨hin, hret, -, -⟩ := gettoken_in h0 hlt
        rw [tokensFrom, if_neg hret] at ht
        rcases List.mem_cons.1 ht with rfl | ht
        · exact hin
        · exact ih _ t ht
      · rw [tokensFrom_end hge] at ht
        exact absurd ht List.not_mem_nil
  exact hfrom _ p

theorem ends_outside {t t' : Token} (ht : t ∈ tokens s 0) (ht' : t' ∈ tokens s 0)
    (hret : t.ret = word) (hret' : t'.ret = word) {i : Nat} (hi : t.q ≤ i) (hi' : i < t.eq) :
    i ≠ t'.eq := by
  rintro rfl
  have hlt : t'.eq < s.length := hi'.trans_le (tokens_in h0 t ht).le
  have hchar := (tokens_in h0 t ht).word hret _ hi hi'
  rw [(tokens_in h0 t' ht').stop hret' hlt] at hchar
  cases hchar

theorem cstrAt_ended {ws : List (Nat × Nat)} (hws : WordsIn (tokens s 0) ws) {t : Token}
    (ht : t ∈ tokens s 0) (hret : t.ret = word) (hmem : (t.q, t.eq) ∈ ws) :
    cstrAt (ws.foldl (fun buf w => buf.set w.2 0) (s ++ [0])) t.q = t.text s := by
  have hin := tokens_in h0 t ht
  have hlen : (s ++ [0]).length = s.length + 1 := by simp
  have hend := getElem?_ended ws (s ++ [0]) t.eq (by have := hin.le; omega)
  rw [if_pos (List.mem_map.2 ⟨_, hmem, rfl⟩)] at hend
  have hword : ∀ i, t.q ≤ i → i < t.eq →
      (ws.foldl (fun buf w => buf.set w.2 0) (s ++ [0]))[i]? = s[i]? := by
    intro i hi hi'
    have hlt : i < s.length := hi'.trans_le hin.le
    rw [getElem?_ended ws (s ++ [0]) i (by omega), if_neg, List.getElem?_append_left hlt]
    intro hi''
    obtain ⟨w, hw, rfl⟩ := List.mem_map.1 hi''
    obtain ⟨t', ht', hret', rfl⟩ := hws w hw
    exact ends_outside h0 ht ht' hret hret' hi hi' rfl
  generalize ws.foldl (fun buf w => buf.set w.2 0) (s ++ [0]) = buf at hend hword ⊢
  have htext : (buf.drop t.q).take (t.eq - t.q) = t.text s := by
    refine List.ext_getElem? fun i => ?_
    rw [Token.text, List.getElem?_take, List.getElem?_take]
    split
    · rw [List.getElem?_drop, List.getElem?_drop, hword _ (by omega) (by omega)]
    · rfl
  have hrest : (buf.drop t.q).drop (t.eq - t.q) = 0 :: buf.drop (t.eq + 1) := by
    obtain ⟨hlt, hget⟩ := List.getElem?_eq_some_iff.1 hend
    rw [List.drop_drop, Nat.add_sub_cancel' hin.lt.le, List.drop_eq_getElem_cons hlt, hget]
  have hnul : ∀ c ∈ t.text s, (c != 0) = true := by
    intro c hc
    refine bne_iff_ne.2 fun hz => h0 ?_
    exact hz ▸ List.mem_of_mem_drop (List.mem_of_mem_take hc)
  rw [cstrAt, ← List.take_append_drop (t.eq - t.q) (buf.drop t.q), htext, hrest,
    List.takeWhile_append_of_pos hnul]
  simp

/-- `gettoken` delivers the tokens of the string, `parsecmd` does not run out of depth, it returns a tree
iff the grammar derives the tokens with this tree, and then the arguments and the files are the texts of
their tokens. -/
theorem parsecmd_grammar {depth : Nat} (hdepth : 4 * s.length + 4 ≤ depth) :
    (∀ ts, Lexes 0 s ts ↔ ts = tokens s 0) ∧ parsecmd s depth ≠ .sleep ∧
    (∀ cmd, (∃ buf, parsecmd s depth = .ok (cmd, buf) ()) ↔ Derives .line (tokens s 0) cmd) ∧
    ∀ cmd buf, parsecmd s depth = .ok (cmd, buf) () → ∀ w ∈ cmd.words,
      ∃ t ∈ tokens s 0, t.ret = word ∧ w = (t.q, t.eq) ∧ cstrAt buf w.1 = t.text s := by
  have htotal := parse_total h0 hdepth
  have hok : ∀ cmd buf, parsecmd s depth = .ok (cmd, buf) () →
      Derives .line (tokens s 0) cmd ∧ buf = nulterminate cmd (s ++ [0]) := by
    intro cmd buf h
    obtain ⟨c, p, hrun, h⟩ := Res.bind_eq_ok.1 h
    cases h
    have hder := wp_ok htotal hrun
    exact ⟨hder, rfl⟩
  refine ⟨fun ts => lexes_iff h0, fun h => ?_,
    fun cmd => ⟨fun ⟨buf, h⟩ => (hok cmd buf h).1, fun h => ?_⟩, ?_⟩
  · unfold wp at htotal
    unfold parsecmd at h
    cases hrun : (parse s depth).run 0 with
    | ok c p =>
      rw [hrun] at h
      cases h
    | panic e =>
      rw [hrun] at h
      cases h
    | sleep =>
      rw [hrun] at htotal
      exact htotal rfl
  · obtain ⟨c, p, hrun, rfl⟩ := wp_returns (parse_returns h0 hdepth h)
    exact ⟨nulterminate c (s ++ [0]), by rw [parsecmd, hrun]; rfl⟩
  · intro cmd buf h w hw
    obtain ⟨hder, rfl⟩ := hok cmd buf h
    obtain ⟨t, ht, hret, rfl⟩ := hder.wordsIn w hw
    rw [nulterminate_eq]
    exact ⟨t, ht, hret, rfl, cstrAt_ended h0 hder.wordsIn ht hret hw⟩

end

/-- `"a|b>c"`, and the string `"b"` in the buffer after it. -/
theorem parsecmd_grammar_pipe :
    Derives .line (tokens [97, 124, 98, 62, 99] 0)
      (.pipe (.exec [(0, 1)]) (.redir (.exec [(2, 3)]) 4 5 (O_WRONLY ||| O_CREATE) 1)) ∧
    ∃ t ∈ tokens [97, 124, 98, 62, 99] 0, t.ret = word ∧ (2, 3) = (t.q, t.eq) ∧
      cstrAt [97, 0, 98, 0, 99, 0] 2 = t.text [97, 124, 98, 62, 99] := by
  have hrun : parsecmd [97, 124, 98, 62, 99] 24 =
      .ok (.pipe (.exec [(0, 1)]) (.redir (.exec [(2, 3)]) 4 5 (O_WRONLY ||| O_CREATE) 1),
        [97, 0, 98, 0, 99, 0]) () := by decide +kernel
  have hspec := parsecmd_grammar (show 0 ∉ [97, 124, 98, 62, 99] by decide)
    (show 4 * 5 + 4 ≤ 24 by decide)
  exact ⟨(hspec.2.2.1 _).1 ⟨_, hrun⟩, hspec.2.2.2 _ _ hrun (2, 3) (by decide)⟩

end Xv6.User
