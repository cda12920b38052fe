import Xv6.Console.Input
import Xv6.Lib.Window

/-!
# The line discipline of the console

`Shows x t` relates the ring and its counters to the console that they stand for, counting
in natural numbers what the counters hold modulo `2 ^ 32`.  Every key keeps it
(`Shows.typed`), so editing reaches neither committed nor taken characters, and a
section of `consoleread` takes characters from the lower end up to the first newline or `^D`
(`consolereadLoop_spec`).
-/

namespace Xv6

open Bytes Conc

namespace Console

theorem decr_mod {k : Nat} (hk : 0 < k) : decr (k % 2 ^ 32) = (k - 1) % 2 ^ 32 := by
  unfold decr
  omega

theorem minus_mod {a b : Nat} (hle : b ≤ a) (hlt : a - b < 2 ^ 32) :
    minus (a % 2 ^ 32) (b % 2 ^ 32) = a - b := by
  unfold minus
  omega

theorem place_mod (k : Nat) : k % 2 ^ 32 % INPUT_BUF = k % INPUT_BUF :=
  Nat.mod_mod_of_dvd k (by decide)

theorem Tty.full_iff {t : Tty} : t.full = true ↔ t.all.length = t.taken + INPUT_BUF := by
  simp [Tty.full]

theorem Tty.length_all (t : Tty) : t.all.length = t.committed.length + t.line.length :=
  List.length_append

/-- `m` more characters are taken. -/
def Tty.take (m : Nat) (t : Tty) : Tty := { t with taken := t.taken + m }

/-- The ring and its counters stand for the console `t`. -/
structure Shows (x : Input) (t : Tty) : Prop where
  le : t.taken ≤ t.committed.length
  room : t.all.length ≤ t.taken + INPUT_BUF
  r : x.r = t.taken % 2 ^ 32
  w : x.w = t.committed.length % 2 ^ 32
  e : x.e = t.all.length % 2 ^ 32
  ring : Window x.buf t.all t.taken
  plain : ∀ c ∈ t.line, c ≠ newline ∧ c ≠ ctrlD
  full : t.full = true → t.line = []

namespace Shows

variable {x : Input} {t : Tty}

theorem line_nil_iff (h : Shows x t) : x.e = x.w ↔ t.line = [] := by
  have hroom := h.room
  have hle := h.le
  rw [h.e, h.w, t.length_all, ← List.length_eq_zero_iff]
  rw [t.length_all] at hroom
  simp only [INPUT_BUF] at hroom
  omega

theorem empty_iff (h : Shows x t) : x.r = x.w ↔ t.taken = t.committed.length := by
  have hroom := h.room
  have hle := h.le
  rw [h.r, h.w]
  rw [t.length_all] at hroom
  simp only [INPUT_BUF] at hroom
  omega

theorem count (h : Shows x t) : minus x.e x.r = t.all.length - t.taken := by
  have hroom := h.room
  have hle := h.le
  have hall := t.length_all
  simp only [INPUT_BUF] at hroom
  rw [h.e, h.r]
  exact minus_mod (by omega) (by omega)

theorem readable (h : Shows x t) : minus x.w x.r = t.committed.length - t.taken := by
  have hroom := h.room
  have hle := h.le
  have hall := t.length_all
  simp only [INPUT_BUF] at hroom
  rw [h.w, h.r]
  exact minus_mod (by omega) (by omega)

theorem last {l : List Byte} {c : Byte} (h : Shows x t) (hl : t.line = l ++ [c]) :
    x.buf.get (decr x.e % INPUT_BUF) = c := by
  have hall : t.all = (t.committed ++ l) ++ [c] := by rw [Tty.all, hl, List.append_assoc]
  have hlen : t.all.length = (t.committed ++ l).length + 1 := by rw [hall, List.length_append]; rfl
  have hbyte := h.ring (t.committed ++ l).length (by have := h.le; simp; omega) (by omega)
  rw [hall, List.getElem?_concat_length, Option.some.injEq] at hbyte
  rw [h.e, decr_mod (by omega), place_mod, hlen, Nat.add_sub_cancel]
  exact hbyte.symm

theorem erase {l : List Byte} {c : Byte} (h : Shows x t) (hl : t.line = l ++ [c]) :
    Shows { x with e := decr x.e } { t with line := l } := by
  have hall : t.all = (t.committed ++ l) ++ [c] := by rw [Tty.all, hl, List.append_assoc]
  have hlen : t.all.length = (t.committed ++ l).length + 1 := by rw [hall, List.length_append]; rfl
  have hroom := h.room
  refine ⟨h.le, ?_, h.r, h.w, ?_, ?_, fun b hb => h.plain b (by rw [hl]; simp [hb]), ?_⟩
  · show (t.committed ++ l).length ≤ t.taken + INPUT_BUF
    omega
  · show decr x.e = (t.committed ++ l).length % 2 ^ 32
    rw [h.e, decr_mod (by omega), hlen, Nat.add_sub_cancel]
  · have hring := h.ring
    rw [hall] at hring
    exact hring.of_append
  · intro hfull
    have hlen' := Tty.full_iff.1 hfull
    change (t.committed ++ l).length = t.taken + INPUT_BUF at hlen'
    omega

theorem killLine (h : Shows x t) :
    Shows (Console.killLine t.line.length x) { t with line := [] } := by
  induction hn : t.line.length generalizing x t with
  | zero =>
    have hnil : t.line = [] := List.length_eq_zero_iff.1 hn
    have : { t with line := [] } = t := by rw [← hnil]
    rw [this]
    exact h
  | succ n ih =>
    obtain ⟨l, c, hl⟩ : ∃ l c, t.line = l ++ [c] := by
      rcases List.eq_nil_or_concat t.line with hnil | ⟨l, c, hl⟩
      · rw [hnil] at hn
        cases hn
      · exact ⟨l, c, by simpa using hl⟩
    have hne : x.e ≠ x.w := by
      rw [Ne, h.line_nil_iff, hl]
      simp
    have hlast : x.buf.get (decr x.e % INPUT_BUF) ≠ newline := by
      rw [h.last hl]
      exact (h.plain c (by rw [hl]; simp)).1
    rw [Console.killLine, if_pos ⟨hne, hlast⟩]
    have hshort : l.length = n := by
      rw [hl, List.length_append] at hn
      simpa using hn
    exact ih (t := { t with line := l }) (h.erase hl) hshort

theorem backspace (h : Shows x t) :
    Shows (if x.e ≠ x.w then { x with e := decr x.e } else x)
      { t with line := t.line.dropLast } := by
  rcases List.eq_nil_or_concat t.line with hnil | ⟨l, c, hl⟩
  · rw [if_neg (not_not.2 (h.line_nil_iff.2 hnil))]
    have : { t with line := t.line.dropLast } = t := by rw [hnil, List.dropLast_nil, ← hnil]
    rw [this]
    exact h
  · have hl : t.line = l ++ [c] := by simpa using hl
    have hne : x.e ≠ x.w := by
      rw [Ne, h.line_nil_iff, hl]
      simp
    rw [if_pos hne, hl, List.dropLast_concat]
    exact h.erase hl

/-- A character goes to the end of the line. -/
theorem push (h : Shows x t) (hroom : t.all.length < t.taken + INPUT_BUF) (c : Byte) :
    let x' : Input := { x with
      buf := x.buf.splice (x.e % INPUT_BUF) 1 fun _ => c
      e := Fs.incr x.e }
    let t' : Tty := { t with line := t.line ++ [c] }
    t'.all = t.all ++ [c] ∧ x'.e = t'.all.length % 2 ^ 32 ∧ Window x'.buf t'.all t.taken ∧
      t'.all.length ≤ t.taken + INPUT_BUF := by
  intro x' t'
  have hall : t'.all = t.all ++ [c] := (List.append_assoc ..).symm
  have hlen : t'.all.length = t.all.length + 1 := by rw [hall, List.length_append]; rfl
  refine ⟨hall, ?_, ?_, by omega⟩
  · show Fs.incr x.e = _
    rw [hlen, h.e, Fs.incr]
    omega
  · have hplace : x.e % INPUT_BUF = t.all.length % INPUT_BUF := by rw [h.e, place_mod]
    show Window (x.buf.splice (x.e % INPUT_BUF) 1 fun _ => c) t'.all t.taken
    rw [hall, hplace]
    exact h.ring.push (by decide) hroom c

theorem store (h : Shows x t) (c : Byte) :
    Shows (Console.store c x).2 (t.store c) := by
  have hle := h.le
  have hroom := h.room
  have hall := t.length_all
  unfold Console.store Tty.store
  by_cases hdrop : c = 0 ∨ t.full = true
  · rw [if_pos hdrop, if_neg]
    · exact h
    · rintro ⟨h0, hlt⟩
      have hfull := Tty.full_iff.1 (hdrop.resolve_left h0)
      rw [h.count] at hlt
      omega
  · obtain ⟨h0, hfull⟩ := not_or.1 hdrop
    have hlt : t.all.length < t.taken + INPUT_BUF := by
      have := mt Tty.full_iff.2 hfull
      omega
    rw [if_neg hdrop, if_pos ⟨h0, by rw [h.count]; omega⟩]
    dsimp only
    generalize (if c = cr then newline else c) = b
    obtain ⟨hall', he, hring, hroom'⟩ := h.push hlt b
    have hend : Fs.incr x.e = (x.r + INPUT_BUF) % 2 ^ 32 ↔
        ({ t with line := t.line ++ [b] } : Tty).full = true := by
      rw [Tty.full_iff, hall', List.length_append, List.length_singleton, h.e, h.r, Fs.incr]
      simp only [INPUT_BUF] at hlt ⊢
      omega
    have hstep : ({ t with line := t.line ++ [b] } : Tty).all.length = t.all.length + 1 := by
      rw [hall', List.length_append]
      rfl
    by_cases hcommit : b = newline ∨ b = ctrlD ∨ ({ t with line := t.line ++ [b] } : Tty).full = true
    · rw [if_pos hcommit, if_pos (hcommit.imp_right (Or.imp_right hend.2))]
      have hnil : ({ t with line := t.line ++ [b] } : Tty).commit.all =
          ({ t with line := t.line ++ [b] } : Tty).all := List.append_nil _
      refine ⟨?_, ?_, h.r, he, ?_, ?_, by simp [Tty.commit], fun _ => rfl⟩
      · show t.taken ≤ ({ t with line := t.line ++ [b] } : Tty).all.length
        omega
      · rw [hnil]
        exact hroom'
      · rw [hnil]
        exact he
      · rw [hnil]
        exact hring
    · rw [if_neg hcommit, if_neg (mt (Or.imp_right (Or.imp_right hend.1)) hcommit)]
      obtain ⟨hnl, hrest⟩ := not_or.1 hcommit
      obtain ⟨hd, hnf⟩ := not_or.1 hrest
      refine ⟨hle, hroom', h.r, h.w, he, hring, ?_, fun hf => absurd hf hnf⟩
      intro a ha
      rcases List.mem_append.1 ha with ha | ha
      · exact h.plain a ha
      · rw [List.mem_singleton.1 ha]
        exact ⟨hnl, hd⟩

/-- The code does with every character what the console is said to do. -/
theorem typed (h : Shows x t) (c : Byte) : Shows (Console.typed c x).2 (t.typed c) := by
  unfold Console.typed Tty.typed
  split
  · exact h
  · split
    · have hline : minus x.e x.w = t.line.length := by
        have hroom := h.room
        have hle := h.le
        have hall := t.length_all
        simp only [INPUT_BUF] at hroom
        rw [h.e, h.w, minus_mod (by omega) (by omega)]
        omega
      rw [hline]
      exact h.killLine
    · split
      · exact h.backspace
      · exact h.store c

theorem consoleintr (h : Shows x t) (cs : List Byte) :
    Shows (Console.consoleintr cs x).2 (cs.foldl (fun t c => t.typed c) t) := by
  induction cs generalizing x t with
  | nil => exact h
  | cons c cs ih => exact ih (h.typed c)

theorem take (h : Shows x t) (hlt : t.taken < t.committed.length) :
    t.committed[t.taken]? = some (x.buf.get (x.r % INPUT_BUF)) ∧
      Shows { x with r := Fs.incr x.r } (t.take 1) := by
  have hroom := h.room
  have hall := t.length_all
  have hbyte := h.ring.first (by omega)
  refine ⟨?_, hlt, ?_, ?_, h.w, h.e, h.ring.mono (Nat.le_succ _), h.plain, ?_⟩
  · rw [Tty.all, List.getElem?_append_left hlt] at hbyte
    rw [hbyte, h.r, place_mod]
  · show t.all.length ≤ t.taken + 1 + INPUT_BUF
    omega
  · show Fs.incr x.r = (t.taken + 1) % 2 ^ 32
    rw [h.r, Fs.incr]
    omega
  · intro hfull
    have hlen := Tty.full_iff.1 hfull
    change t.all.length = t.taken + 1 + INPUT_BUF at hlen
    omega

end Shows

/-! ## A section of `consoleread` -/

structure Next (t : Tty) (new : List Byte) : Prop where
  eq : new = (t.committed.drop t.taken).take new.length
  noEof : ctrlD ∉ new
  line : newline ∉ new.dropLast

/-- How a section of `consoleread` ends that still wants `n` bytes, after `got`, and copied `new`. -/
inductive Ends (target n : Nat) (got new : List Byte) (t : Tty) (x : Input) (pos : WaitPos) : Prop
  /-- it wants more, and nothing is left -/
  | sleep (at_ : pos = .test (.consoleread target (n - new.length) (got ++ new)))
      (less : new.length < n) (line : newline ∉ new)
      (empty : t.taken + new.length = t.committed.length) (shows : Shows x (t.take new.length))
  /-- after `n` bytes, after a newline, or before a `^D`, when bytes were copied -/
  | stop (at_ : pos = .ret (got ++ new).length (got ++ new)) (le : new.length ≤ n)
      (why : new.length = n ∨ new.getLast? = some newline ∨
        (got ++ new ≠ [] ∧ t.committed[t.taken + new.length]? = some ctrlD))
      (shows : Shows x (t.take new.length))
  /-- the first character is a `^D` -/
  | eof (at_ : pos = .ret 0 []) (pos : 0 < n) (nil : got ++ new = [])
      (eof : t.committed[t.taken]? = some ctrlD) (shows : Shows x (t.take 1))

theorem Next.nil (t : Tty) : Next t [] := ⟨by simp, by simp, by simp⟩

/-- A character before the others. -/
theorem Next.cons {t : Tty} {c : Byte} {new : List Byte} (hc : t.committed[t.taken]? = some c)
    (hd : c ≠ ctrlD) (hn : c ≠ newline) (h : Next (t.take 1) new) : Next t (c :: new) := by
  have hlt : t.taken < t.committed.length := (List.getElem?_eq_some_iff.1 hc).1
  have hdrop : t.committed.drop t.taken = c :: t.committed.drop (t.taken + 1) := by
    rw [List.drop_eq_getElem_cons hlt]
    congr 1
    exact (List.getElem?_eq_some_iff.1 hc).2
  refine ⟨?_, ?_, ?_⟩
  · rw [hdrop, List.length_cons, List.take_succ_cons]
    congr 1
    exact h.eq
  · rw [List.mem_cons, not_or]
    exact ⟨hd.symm, h.noEof⟩
  · cases new with
    | nil => simp
    | cons b new =>
      rw [List.dropLast_cons_cons, List.mem_cons, not_or]
      exact ⟨hn.symm, h.line⟩

theorem consolereadLoop_spec {target n : Nat} {got : List Byte} {x : Input} {t : Tty} (h : Shows x t)
    (htarget : target = n + got.length) :
    ∃ new, Next t new ∧ Ends target n got new t (consolereadLoop target n got x).2
      (consolereadLoop target n got x).1 := by
  induction n generalizing got x t with
  | zero =>
    refine ⟨[], .nil t, .stop ?_ (Nat.le_refl 0) (Or.inl rfl) h⟩
    rw [consolereadLoop, htarget, List.append_nil, Nat.zero_add]
  | succ n ih =>
    rw [consolereadLoop]
    split
    · next hrw =>
      refine ⟨[], .nil t, .sleep ?_ (Nat.succ_pos n) List.not_mem_nil (h.empty_iff.1 hrw) h⟩
      rw [List.append_nil]
      rfl
    · next hrw =>
      have hlt : t.taken < t.committed.length := by
        have := mt h.empty_iff.2 hrw
        have := h.le
        omega
      obtain ⟨hc, hnext⟩ := h.take hlt
      dsimp only
      split
      · next heof =>
        rw [heof] at hc
        -- a `^D` stays for the next call if bytes were copied
        cases got with
        | nil =>
          have hn : ¬ n + 1 < target := by
            rw [htarget, List.length_nil]
            omega
          refine ⟨[], .nil t, .eof ?_ (Nat.succ_pos n) rfl hc ?_⟩
          · rw [htarget, List.length_nil]
            simp
          · rw [if_neg hn]
            exact hnext
        | cons b got =>
          have hn : n + 1 < target := by
            rw [htarget, List.length_cons]
            omega
          refine ⟨[], .nil t, .stop ?_ (Nat.zero_le _) (Or.inr (Or.inr ⟨by simp, hc⟩)) ?_⟩
          · rw [htarget, List.append_nil]
            simp
          · rw [if_pos hn]
            exact h
      · next hd =>
        split
        · next hnl =>
          rw [hnl] at hc ⊢
          refine ⟨[newline], ?_, .stop ?_ (by simp) (Or.inr (Or.inl rfl)) hnext⟩
          · have hdrop : t.committed.drop t.taken = newline :: t.committed.drop (t.taken + 1) := by
              rw [List.drop_eq_getElem_cons hlt]
              congr 1
              exact (List.getElem?_eq_some_iff.1 hc).2
            exact ⟨by rw [hdrop]; rfl, by simp, by simp⟩
          · rw [htarget, List.length_append]
            simp
            omega
        · next hnl =>
          generalize x.buf.get (x.r % INPUT_BUF) = c at hc hd hnl ⊢
          have htarget' : target = n + (got ++ [c]).length := by
            rw [htarget, List.length_append, List.length_singleton]
            omega
          obtain ⟨new, hnew, hends⟩ := ih hnext htarget'
          have hget : got ++ [c] ++ new = got ++ c :: new := by simp
          have htake : (t.take 1).take new.length = t.take (c :: new).length := by
            simp [Tty.take, Nat.add_assoc, Nat.add_comm 1]
          have hindex : (t.take 1).taken + new.length = t.taken + (c :: new).length := by
            simp [Tty.take, Nat.add_assoc, Nat.add_comm 1]
          refine ⟨c :: new, hnew.cons hc hd hnl, ?_⟩
          cases hends with
          | sleep at_ less line empty shows =>
            refine .sleep ?_ ?_ ?_ ?_ (htake ▸ shows)
            · rw [at_, hget, List.length_cons, Nat.add_sub_add_right]
            · simpa using less
            · rw [List.mem_cons, not_or]
              exact ⟨Ne.symm hnl, line⟩
            · rw [← hindex]
              exact empty
          | stop at_ le why shows =>
            refine .stop ?_ (by simpa using le) ?_ (htake ▸ shows)
            · rw [at_, hget]
            · change new.length = n ∨ _ ∨ _ ∧ t.committed[(t.take 1).taken + new.length]? = _ at why
              rw [hget, hindex] at why
              refine why.imp (fun h => by simpa using h) (Or.imp (fun h => ?_) id)
              rw [List.getLast?_cons, h]
              rfl
          | eof at_ pos nil eof shows => simp at nil

/-! ## Runs -/

/-- A read that returned ended after `n` bytes, after a newline, at a `^D` that the next read will find,
or at a `^D` that it took, and then without a byte. -/
structure Done.Ok (t : Tty) (d : Done) : Prop where
  taken : d.taken ≤ t.taken
  le : d.bytes.length ≤ d.n
  noEof : ctrlD ∉ d.bytes
  line : newline ∉ d.bytes.dropLast
  why : d.bytes.length = d.n ∨ d.bytes.getLast? = some newline ∨
    (d.bytes ≠ [] ∧ t.committed[d.taken]? = some ctrlD) ∨
    (d.eof = true ∧ 0 < d.taken ∧ t.committed[d.taken - 1]? = some ctrlD)
  eof : d.eof = true → d.bytes = []

structure Con.Ok (x : Con) : Prop where
  shows : Shows x.input x.tty
  out : x.out = (x.tty.committed.take x.tty.taken).filter (· ≠ ctrlD)
  done : ∀ d ∈ x.done, d.Ok x.tty
  eof : ∀ i, i < x.tty.taken → x.tty.committed[i]? = some ctrlD →
    ∃ d, x.done.filter (fun d => d.eof && d.taken == i + 1) = [d]

/-- A reader that waits has seen neither a newline nor a `^D`. -/
def ConLoc.Ok : ConLoc → Prop
  | .read target n got => target = n + got.length ∧ ctrlD ∉ got ∧ newline ∉ got
  | _ => True

theorem Tty.typed_grows (t : Tty) (c : Byte) :
    (t.typed c).taken = t.taken ∧ ∃ more, (t.typed c).committed = t.committed ++ more := by
  have hsame : ∃ more, t.committed = t.committed ++ more := ⟨[], by simp⟩
  unfold Tty.typed Tty.store
  split
  · exact ⟨rfl, hsame⟩
  split
  · exact ⟨rfl, hsame⟩
  split
  · exact ⟨rfl, hsame⟩
  split
  · exact ⟨rfl, hsame⟩
  dsimp only
  generalize (if c = cr then newline else c) = b
  split
  · exact ⟨rfl, t.line ++ [b], rfl⟩
  · exact ⟨rfl, hsame⟩

theorem Tty.typed_all_grows (t : Tty) (cs : List Byte) :
    (cs.foldl (fun t c => t.typed c) t).taken = t.taken ∧
      ∃ more, (cs.foldl (fun t c => t.typed c) t).committed = t.committed ++ more := by
  induction cs generalizing t with
  | nil => exact ⟨rfl, [], by simp⟩
  | cons c cs ih =>
    obtain ⟨htaken, more, hmore⟩ := t.typed_grows c
    obtain ⟨htaken', more', hmore'⟩ := ih (t.typed c)
    refine ⟨htaken'.trans htaken, more ++ more', ?_⟩
    rw [List.foldl_cons, hmore', hmore, List.append_assoc]

theorem Done.Ok.grow {t t' : Tty} {d : Done} (h : d.Ok t) (more : List Byte)
    (hle : t.taken ≤ t'.taken) (hmore : t'.committed = t.committed ++ more) : d.Ok t' := by
  have hstill : ∀ {i : Nat}, t.committed[i]? = some ctrlD → t'.committed[i]? = some ctrlD := by
    intro i hi
    rw [hmore, List.getElem?_append_left (List.getElem?_eq_some_iff.1 hi).1]
    exact hi
  refine ⟨h.taken.trans hle, h.le, h.noEof, h.line, ?_, h.eof⟩
  exact h.why.imp id (Or.imp id (Or.imp (fun h => ⟨h.1, hstill h.2⟩) fun h => ⟨h.1, h.2.1, hstill h.2.2⟩))

theorem Con.Ok.intr {x : Con} (h : x.Ok) (cs : List Byte) : (intrSection cs x).2.Ok := by
  obtain ⟨htaken, more, hmore⟩ := x.tty.typed_all_grows cs
  have hle := h.shows.le
  refine ⟨h.shows.consoleintr cs, ?_, fun d hd => (h.done d hd).grow more htaken.symm.le hmore, ?_⟩
  · show x.out = _
    rw [h.out]
    show _ = List.filter _ (List.take (List.foldl _ x.tty cs).taken (List.foldl _ x.tty cs).committed)
    rw [htaken, hmore, List.take_append_of_le_length hle]
  · intro i hi heof
    change i < (cs.foldl (fun t c => t.typed c) x.tty).taken at hi
    change (cs.foldl (fun t c => t.typed c) x.tty).committed[i]? = some ctrlD at heof
    rw [htaken] at hi
    rw [hmore, List.getElem?_append_left (by omega)] at heof
    exact h.eof i hi heof

/-- Characters without a `^D` are taken and handed out. -/
theorem Con.Ok.advance {x : Con} (h : x.Ok) {new : List Byte} {y : Input} (hnew : Next x.tty new)
    (hy : Shows y (x.tty.take new.length)) : (x.advance y new.length new).Ok := by
  have hfilter : new.filter (· ≠ ctrlD) = new := by
    rw [List.filter_eq_self]
    intro c hc
    simp only [decide_eq_true_eq]
    rintro rfl
    exact hnew.noEof hc
  refine ⟨hy, ?_, fun d hd => (h.done d hd).grow [] ?_ (by simp [Con.advance]), ?_⟩
  · show x.out ++ new = List.filter _ (List.take (x.tty.taken + new.length) x.tty.committed)
    rw [List.take_add, List.filter_append, ← hnew.eq, hfilter, h.out]
  · exact Nat.le_add_right _ _
  · intro i hi heof
    change i < x.tty.taken + new.length at hi
    change x.tty.committed[i]? = some ctrlD at heof
    by_cases hlt : i < x.tty.taken
    · exact h.eof i hlt heof
    · -- what was just taken is no `^D`
      have hmem : ctrlD ∈ new := by
        rw [hnew.eq]
        refine List.mem_of_getElem? (i := i - x.tty.taken) ?_
        rw [List.getElem?_take_of_lt (by omega), List.getElem?_drop, Nat.add_sub_of_le (by omega)]
        exact heof
      exact absurd hmem hnew.noEof

/-- A read returns. -/
theorem Con.Ok.finish {x : Con} (h : x.Ok) {d : Done} (hd : d.Ok x.tty) (heof : d.eof = false) :
    Con.Ok { x with done := x.done ++ [d] } := by
  refine ⟨h.shows, h.out, fun d' hd' => ?_, fun i hi hc => ?_⟩
  · rcases List.mem_append.1 hd' with hd' | hd'
    · exact h.done d' hd'
    · rw [List.mem_singleton.1 hd']
      exact hd
  · rw [List.filter_append]
    obtain ⟨d', hd'⟩ := h.eof i hi hc
    refine ⟨d', ?_⟩
    rw [hd']
    simp [heof]

theorem Con.Ok.finish_eof {x : Con} (h : x.Ok) {n : Nat} {y : Input}
    (hc : x.tty.committed[x.tty.taken]? = some ctrlD) (hy : Shows y (x.tty.take 1)) :
    Con.Ok { x.advance y 1 [] with done := x.done ++ [⟨n, [], x.tty.taken + 1, true⟩] } := by
  have hlt : x.tty.taken < x.tty.committed.length := (List.getElem?_eq_some_iff.1 hc).1
  refine ⟨hy, ?_, fun d hd => ?_, fun i hi heof => ?_⟩
  · show x.out ++ [] = List.filter _ (List.take (x.tty.taken + 1) x.tty.committed)
    rw [List.append_nil, List.take_add_one, hc, h.out]
    simp
  · rcases List.mem_append.1 hd with hd | hd
    · exact (h.done d hd).grow [] (Nat.le_add_right _ _) (by simp [Con.advance])
    · rw [List.mem_singleton.1 hd]
      exact ⟨Nat.le_refl _, Nat.zero_le _, by simp, by simp,
        Or.inr (Or.inr (Or.inr ⟨rfl, Nat.succ_pos _, hc⟩)), fun _ => rfl⟩
  · change i < x.tty.taken + 1 at hi
    change x.tty.committed[i]? = some ctrlD at heof
    show ∃ d, List.filter _ (x.done ++ [_]) = [d]
    rw [List.filter_append]
    by_cases hi' : i < x.tty.taken
    · obtain ⟨d, hd⟩ := h.eof i hi' heof
      refine ⟨d, ?_⟩
      rw [hd]
      have : x.tty.taken ≠ i := by omega
      simp [this]
    · -- every earlier read had taken less
      have hold : x.done.filter (fun d => d.eof && d.taken == i + 1) = [] := by
        rw [List.filter_eq_nil_iff]
        intro d hd
        have := (h.done d hd).taken
        simp only [Bool.and_eq_true, beq_iff_eq, not_and]
        omega
      rw [hold]
      have : x.tty.taken = i := by omega
      simp [this]

theorem Shows.moved {x y : Input} {t : Tty} {m : Nat} (h : Shows x t) (hy : Shows y (t.take m)) :
    minus y.r x.r = m := by
  have hle : t.taken + m ≤ t.committed.length := hy.le
  have hroom := h.room
  have hall := t.length_all
  simp only [INPUT_BUF] at hroom
  have hr : y.r = (t.taken + m) % 2 ^ 32 := hy.r
  rw [hr, h.r, minus_mod (by omega) (by omega)]
  omega

theorem Con.Ok.read {x x' : Con} (h : x.Ok) {killed : Bool} {target n : Nat} {got : List Byte}
    {turn : ConTurn} (hl : (ConLoc.read target n got).Ok)
    (hst : readSection killed target n got x = .ok turn x') : x'.Ok ∧ turn.next.Ok := by
  obtain ⟨htarget, hgotd, hgotn⟩ := hl
  obtain ⟨new, hnew, hends⟩ := consolereadLoop_spec h.shows htarget
  have hdrop : (got ++ new).drop got.length = new := List.drop_left
  unfold readSection at hst
  cases hends with
  | sleep at_ less line empty shows =>
    have hadv := h.advance hnew shows
    simp only [at_, hdrop, h.shows.moved shows] at hst
    split at hst <;> cases hst
    · exact ⟨hadv, trivial⟩
    · refine ⟨hadv, ?_, ?_, ?_⟩
      · rw [htarget, List.length_append]
        omega
      · rw [List.mem_append, not_or]
        exact ⟨hgotd, hnew.noEof⟩
      · rw [List.mem_append, not_or]
        exact ⟨hgotn, line⟩
  | stop at_ le why shows =>
    have hadv := h.advance hnew shows
    simp only [at_, hdrop, h.shows.moved shows] at hst
    cases hst
    refine ⟨hadv.finish ⟨Nat.le_refl _, ?_, ?_, ?_, ?_, by simp⟩ (by simp), trivial⟩
    · show (got ++ new).length ≤ target
      rw [htarget, List.length_append]
      omega
    · rw [List.mem_append, not_or]
      exact ⟨hgotd, hnew.noEof⟩
    · cases hne : new with
      | nil =>
        rw [List.append_nil]
        exact fun hmem => hgotn (List.mem_of_mem_dropLast hmem)
      | cons b rest =>
        rw [List.dropLast_append_of_ne_nil (List.cons_ne_nil b rest), List.mem_append, not_or, ← hne]
        exact ⟨hgotn, hnew.line⟩
    · refine why.imp (fun hn => ?_) (Or.imp (fun hlast => ?_) Or.inl)
      · show (got ++ new).length = target
        rw [htarget, List.length_append]
        omega
      · rw [List.getLast?_append, hlast]
        rfl
  | eof at_ pos nil eof shows =>
    simp only [at_, h.shows.moved shows] at hst
    cases hst
    refine ⟨?_, trivial⟩
    simpa [Con.advance] using h.finish_eof eof shows

theorem Con.Ok.code {x x' : Con} (h : x.Ok) {killed : Bool} {l : ConLoc} {turn : ConTurn} (hl : l.Ok)
    (hst : Console.code killed l x = .ok turn x') : x'.Ok ∧ turn.next.Ok := by
  cases l with
  | intr cs =>
    cases hst
    exact ⟨h.intr cs, trivial⟩
  | read target n got => exact h.read hl hst
  | idle => cases hst
  | ret r bytes => cases hst

theorem ok_of_calls {l l' : ConLoc} (h : calls l l' = true) : l'.Ok := by
  cases l' with
  | read target n got =>
    have hcall : target = n ∧ got = [] := by
      cases l <;> simp_all [calls]
    obtain ⟨rfl, rfl⟩ := hcall
    exact ⟨by simp, by simp, by simp⟩
  | _ => exact trivial

variable {P : Type} [DecidableEq P] {s : ConSys P}

omit [DecidableEq P] in
theorem ok_conInit : (conInit : ConSys P).data.Ok := by
  refine ⟨⟨Nat.le_refl 0, Nat.zero_le _, rfl, rfl, rfl, nofun, nofun, nofun⟩, rfl, nofun, nofun⟩

theorem ok_step {s' : ConSys P} {a : Act P ConLoc} (h : s.data.Ok ∧ ∀ p, (s.loc p).Ok)
    (hst : conMonitor.step s a = .ok () s') : s'.data.Ok ∧ ∀ p, (s'.loc p).Ok := by
  obtain ⟨hdata, hloc⟩ := h
  have hmove : ∀ {p : P} {l : ConLoc}, l.Ok → ∀ q, (Function.update s.loc p l q).Ok := by
    intro p l hl q
    by_cases hqp : q = p
    · rw [hqp, Function.update_self]
      exact hl
    · rw [Function.update_of_ne hqp]
      exact hloc q
  obtain ⟨p, turn, d, -, -, hc, rfl⟩ | ⟨p, l, -, -, hcall, rfl⟩ | ⟨p, -, rfl⟩ :=
    Monitor.step_cases hst
  · obtain ⟨hd, hl⟩ := hdata.code (hloc p) hc
    exact ⟨hd, hmove hl⟩
  · exact ⟨hdata, hmove (ok_of_calls hcall)⟩
  · exact ⟨hdata, hloc⟩

theorem killLine_keeps (k : Nat) (x : Input) :
    (Console.killLine k x).r = x.r ∧ (Console.killLine k x).w = x.w := by
  induction k generalizing x with
  | zero => exact ⟨rfl, rfl⟩
  | succ k ih =>
    rw [Console.killLine]
    split
    · exact ih _
    · exact ⟨rfl, rfl⟩

/-- A key that wakes nobody commits nothing. -/
theorem typed_keeps (c : Byte) (x : Input) : (Console.typed c x).2.r = x.r ∧
    ((Console.typed c x).1 = false → (Console.typed c x).2.w = x.w) := by
  unfold Console.typed Console.store
  split
  · exact ⟨rfl, fun _ => rfl⟩
  split
  · exact ⟨(killLine_keeps _ x).1, fun _ => (killLine_keeps _ x).2⟩
  split
  · dsimp only
    split <;> exact ⟨rfl, fun _ => rfl⟩
  split
  · dsimp only
    generalize (if c = cr then newline else c) = b
    split
    · exact ⟨rfl, nofun⟩
    · exact ⟨rfl, fun _ => rfl⟩
  · exact ⟨rfl, fun _ => rfl⟩

theorem consoleintr_keeps (cs : List Byte) (x : Input) : (Console.consoleintr cs x).2.r = x.r ∧
    ((Console.consoleintr cs x).1 = false → (Console.consoleintr cs x).2.w = x.w) := by
  induction cs generalizing x with
  | nil => exact ⟨rfl, fun _ => rfl⟩
  | cons c cs ih =>
    obtain ⟨hr, hw⟩ := typed_keeps c x
    obtain ⟨hr', hw'⟩ := ih (Console.typed c x).2
    refine ⟨hr'.trans hr, fun hwake => ?_⟩
    obtain ⟨h1, h2⟩ := Bool.or_eq_false_iff.1 hwake
    exact (hw' h2).trans (hw h1)

/-- Nothing is committed that was not taken. -/
def NoInput (_ : Unit) (x : Con) : Prop := x.input.r = x.input.w

/-- A section of `consoleread` that sleeps leaves nothing, and takes nothing where there is nothing. -/
theorem Con.Ok.read_noInput {x x' : Con} (h : x.Ok) {killed : Bool} {target n : Nat} {got : List Byte}
    {turn : ConTurn} (hl : (ConLoc.read target n got).Ok)
    (hst : readSection killed target n got x = .ok turn x')
    (hwhy : turn.parks = some () ∨ NoInput () x) : NoInput () x' := by
  obtain ⟨new, hnew, hends⟩ := consolereadLoop_spec h.shows hl.1
  have hlen : x.tty.taken = x.tty.committed.length → new = [] := by
    intro he
    rw [hnew.eq, he, List.drop_length, List.take_nil]
  unfold readSection at hst
  cases hends with
  | sleep at_ less line empty shows =>
    simp only [at_] at hst
    split at hst <;> cases hst <;> exact shows.empty_iff.2 empty
  | stop at_ le why shows =>
    simp only [at_] at hst
    cases hst
    refine shows.empty_iff.2 ?_
    have he := h.shows.empty_iff.1 (hwhy.resolve_left nofun)
    show x.tty.taken + new.length = x.tty.committed.length
    rw [hlen he]
    exact he
  | eof at_ pos nil eof shows =>
    simp only [at_] at hst
    cases hst
    have he := h.shows.empty_iff.1 (hwhy.resolve_left nofun)
    have := (List.getElem?_eq_some_iff.1 eof).1
    omega

/-- A reader sleeps on `&input.r` only while nothing is committed that was not taken. -/
theorem reader_waits_for_input (h : Reaches (conMonitor.step (P := P)) anyEvent conInit s) :
    ∀ p, s.asleep p = some () → s.data.input.r = s.data.input.w := by
  have hinv : s.data.Ok ∧ (∀ p, (s.loc p).Ok) ∧ Waits NoInput s := by
    refine h.inv (I := fun s => s.data.Ok ∧ (∀ p, (s.loc p).Ok) ∧ Waits NoInput s)
      ⟨ok_conInit, fun p => trivial, Waits.init⟩ ?_
    rintro s a s' ⟨hdata, hloc, hwait⟩ - hst
    obtain ⟨hdata', hloc'⟩ := ok_step ⟨hdata, hloc⟩ hst
    refine ⟨hdata', hloc', ?_⟩
    obtain ⟨p, turn, d, -, -, hc, rfl⟩ | ⟨p, l, -, -, hcall, rfl⟩ | ⟨p, -, rfl⟩ :=
      Monitor.step_cases hst
    · have hp := hloc p
      change Console.code (s.killed p) (s.loc p) s.data = .ok turn d at hc
      cases hl : s.loc p with
      | intr cs =>
        rw [hl] at hc
        cases hc
        refine hwait.run p nofun fun q c _ hq => ?_
        obtain ⟨hr, hw⟩ := consoleintr_keeps cs s.data.input
        cases hwake : (Console.consoleintr cs s.data.input).1 with
        | true => exact Or.inr (by simp [intrSection, hwake])
        | false => exact Or.inl (hr.trans (hq.trans (hw hwake).symm))
      | read target n got =>
        rw [hl] at hc hp
        exact hwait.run p (fun c hpark => hdata.read_noInput hp hc (Or.inl hpark))
          fun q c _ hq => Or.inl (hdata.read_noInput hp hc (Or.inr hq))
      | idle | ret r bytes => rw [hl] at hc; cases hc
    · exact hwait.call p l
    · exact hwait.kill p
  exact fun p hs => hinv.2.2 p () hs

/-- A process reads before anything was typed, and sleeps. -/
theorem reader_waits_for_input_first : ∃ s : ConSys Bool,
    Reaches (conMonitor.step (P := Bool)) anyEvent conInit s ∧ s.asleep true = some () ∧
      s.data.input.r = s.data.input.w := by
  have hrun : ∃ s : ConSys Bool, Reaches (conMonitor.step (P := Bool)) anyEvent conInit s ∧
      s.asleep true = some () :=
    ⟨_, .head ⟨.call true (.read 9 9 []), trivial, rfl⟩ (.head ⟨.run true, trivial, rfl⟩ .refl), rfl⟩
  obtain ⟨s, hs, hsleep⟩ := hrun
  exact ⟨s, hs, hsleep, reader_waits_for_input hs true hsleep⟩

end Console

end Xv6
