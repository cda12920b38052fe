import Xv6.User.Grammar

/-!
# `sh.c`: how the shell starts programs

`runcmd` walks over the tree of a line.  It moves files between the descriptors of a process with `close`,
`dup`, `pipe` and `open`, which takes the first descriptor that is free, and forks.

`wire` says what this is for: a process has an input, an output and a place for messages; `|` puts a new
pipe between two of them and a redirection puts a file in a place.  `runcmd` does this, and no program
gets a descriptor more than these three: else the end of a pipe that is left open in some program would
keep its reader from ever seeing the end.

Each of the calls may fail; the shell looks at the results of `fork`, `pipe` and `open`, but not at those
of `close` and `dup`, which fail if they are blocked.  A process has its descriptors to itself, so the
order in which the processes of a line run does not matter here; the model runs a child up to its `exec`
before the parent goes on.
-/

namespace Xv6.User

open Bytes Conc
open Fs (O_WRONLY O_CREATE)

inductive OpenFile
  /-- open at this descriptor when the line was read -/
  | std (fd : Nat)
  | file (path : List Byte) (mode : Word)
  | readEnd (pipe : Nat)
  | writeEnd (pipe : Nat)
  deriving DecidableEq

/-- The descriptors of a process. -/
abbrev Fds := List (Option OpenFile)

inductive ShellMessage
  /-- `"open %s failed\n"` -/
  | openFailed (file : List Byte)
  /-- `panic("fork")` -/
  | fork
  /-- `panic("pipe")` -/
  | pipe
  deriving DecidableEq

inductive ShellEvent
  /-- `unblock(SYS_exec)` -/
  | unblock
  | exec (argv : List (List Byte)) (fds : Fds)
  /-- a message, to the file at descriptor 2 -/
  | message (msg : ShellMessage) (err : Option OpenFile)
  deriving DecidableEq

/-- The system calls on descriptors and processes. -/
inductive ShellCall
  | fork
  | pipe
  | open
  | close
  | dup
  deriving DecidableEq

/-- What the processes of a line share: how many calls of `fork`, `pipe` and `open` and how many pipes
there were, and what happened. -/
structure World where
  calls : Nat
  pipes : Nat
  events : List ShellEvent

def World.emit (w : World) (e : ShellEvent) : World := { w with events := w.events ++ [e] }

/-- `printf(2, ...)` -/
def World.printf (w : World) (msg : ShellMessage) (fds : Fds) : World := w.emit (.message msg (fds[2]?.join))

def World.called (w : World) : World := { w with calls := w.calls + 1 }

/-! ## System calls on descriptors -/

/-- The first free descriptor. -/
def Fds.alloc (fds : Fds) (f : OpenFile) : Option (Nat × Fds) :=
  (fds.findIdx? (·.isNone)).map fun fd => (fd, fds.set fd (some f))

section

-- whether a call fails after so many calls of `fork`, `pipe` and `open`
variable (fails : ShellCall → Nat → Bool) (buf : List Byte)

/-- A `close` that is blocked returns -1 and changes nothing, and so does a `dup`. -/
def Fds.close (fds : Fds) (fd : Nat) (w : World) : Fds :=
  if fails .close w.calls then fds else fds.set fd none

def Fds.dup (fds : Fds) (fd : Nat) (w : World) : Fds :=
  if fails .dup w.calls then fds
  else match fds[fd]?.join with
    | some f => ((fds.alloc f).map Prod.snd).getD fds
    | none => fds

/-- `fork1` and what comes after it in parent and child; without a child the shell exits. -/
def fork1 (fds : Fds) (k : World → World) (w : World) : World :=
  if fails .fork w.calls then w.called.printf .fork fds else k w.called

def openCall (file : List Byte) (mode : Word) (fds : Fds) (w : World) : Option Fds :=
  if fails .open w.calls then none else (fds.alloc (.file file mode)).map Prod.snd

/-- `pipe(p)`: `p[0]`, `p[1]` and the descriptors. -/
def pipeCall (fds : Fds) (w : World) : Option (Nat × Nat × Fds) :=
  if fails .pipe w.calls then none
  else do
    let (p₀, fds) ← fds.alloc (.readEnd w.pipes)
    let (p₁, fds) ← fds.alloc (.writeEnd w.pipes)
    return (p₀, p₁, fds)

/-! ## `runcmd` -/

def unblockName : List Byte := [117, 110, 98, 108, 111, 99, 107]

/-- The case `EXEC`. -/
def runExec (argv : List (Nat × Nat)) (fds : Fds) (w : World) : World :=
  match argv.map fun a => cstrAt buf a.1 with
  | [] => w
  | name :: args => (if name = unblockName then w.emit .unblock else w).emit (.exec (name :: args) fds)

/-- A child of the case `PIPE` puts the end `p` of the pipe in the place `fd`. -/
def pipeChild (fd p p₀ p₁ : Nat) (fds : Fds) (w : World) : Fds :=
  let fds := fds.close fails fd w
  let fds := fds.dup fails p w
  let fds := fds.close fails p₀ w
  fds.close fails p₁ w

/-- Execute cmd. -/
def runcmd : Cmd → Fds → World → World
  | .exec argv, fds, w => runExec buf argv fds w
  | .redir cmd file _ mode fd, fds, w =>
    let fds := fds.close fails fd w
    match openCall fails (cstrAt buf file) mode fds w with
    | none => w.called.printf (.openFailed (cstrAt buf file)) fds
    | some fds => runcmd cmd fds w.called
  | .list left right, fds, w =>
    fork1 fails fds (fun w => runcmd right fds (runcmd left fds w)) w
  | .pipe left right, fds, w =>
    match pipeCall fails fds w with
    | none => w.called.printf .pipe fds
    | some (p₀, p₁, fds) =>
      fork1 fails fds (fun w =>
        fork1 fails fds (fun w => runcmd right (pipeChild fails 0 p₀ p₀ p₁ fds w) w)
          (runcmd left (pipeChild fails 1 p₁ p₀ p₁ fds w) w))
        { w.called with pipes := w.pipes + 1 }
  | .back cmd, fds, w => fork1 fails fds (runcmd cmd fds) w

/-! ## What it is for -/

/-- The three files of a process. -/
structure Stdio where
  inp : OpenFile
  out : OpenFile
  err : OpenFile

/-- A table with these and no other descriptor. -/
def Stdio.fds (t : Stdio) : Fds :=
  some t.inp :: some t.out :: some t.err :: List.replicate (NOFILE - 3) none

def Stdio.redirect (t : Stdio) (fd : Nat) (f : OpenFile) : Stdio :=
  if fd = 0 then { t with inp := f } else { t with out := f }

/-- The programs of a line and their files. -/
def wire : Cmd → Stdio → World → World
  | .exec argv, t, w => runExec buf argv t.fds w
  | .redir cmd file _ mode fd, t, w =>
    if fails .open w.calls then w.called.printf (.openFailed (cstrAt buf file)) t.fds
    else wire cmd (t.redirect fd (.file (cstrAt buf file) mode)) w.called
  | .list left right, t, w => fork1 fails t.fds (fun w => wire right t (wire left t w)) w
  | .pipe left right, t, w =>
    if fails .pipe w.calls then w.called.printf .pipe t.fds
    else
      fork1 fails t.fds (fun w' =>
        fork1 fails t.fds (wire right { t with inp := .readEnd w.pipes })
          (wire left { t with out := .writeEnd w.pipes } w'))
        { w.called with pipes := w.pipes + 1 }
  | .back cmd, t, w => fork1 fails t.fds (wire cmd t) w

/-- Redirections are of the input or the output. -/
def Cmd.Redirs01 : Cmd → Prop
  | .exec _ => True
  | .redir cmd _ _ _ fd => fd ≤ 1 ∧ cmd.Redirs01
  | .pipe left right => left.Redirs01 ∧ right.Redirs01
  | .list left right => left.Redirs01 ∧ right.Redirs01
  | .back cmd => cmd.Redirs01

variable {fails buf}

theorem fork1_congr {fds fds' : Fds} {k k' : World → World} (hfds : fds[2]? = fds'[2]?)
    (hk : ∀ w, k w = k' w) (w : World) : fork1 fails fds k w = fork1 fails fds' k' w := by
  rw [funext hk, fork1, fork1, World.printf, World.printf, hfds]

theorem pipeCall_fds (t : Stdio) (w : World) : pipeCall fails t.fds w =
    if fails .pipe w.calls then none
    else some (3, 4, some t.inp :: some t.out :: some t.err :: some (.readEnd w.pipes) ::
      some (.writeEnd w.pipes) :: List.replicate (NOFILE - 5) none) := rfl

/-- No `close` and no `dup` is blocked. -/
def Unblocked (fails : ShellCall → Nat → Bool) : Prop := ∀ n, fails .close n = false ∧ fails .dup n = false

theorem Unblocked.close (h : Unblocked fails) (fds : Fds) (fd : Nat) (w : World) :
    fds.close fails fd w = fds.set fd none := by
  rw [Fds.close, (h _).1]
  rfl

theorem Unblocked.dup (h : Unblocked fails) (fds : Fds) (fd : Nat) (w : World) :
    fds.dup fails fd w = fds.dup (fun _ _ => false) fd w := by
  rw [Fds.dup, (h _).2]
  rfl

theorem openCall_fds {fd : Nat} (hfd : fd ≤ 1) (t : Stdio) (file : List Byte) (mode : Word) (w : World) :
    openCall fails file mode (t.fds.set fd none) w =
      if fails .open w.calls then none else some (t.redirect fd (.file file mode)).fds := by
  obtain rfl | rfl : fd = 0 ∨ fd = 1 := by omega
  · rfl
  · rfl

theorem close_two {fd : Nat} (hfd : fd ≤ 1) (t : Stdio) : (t.fds.set fd none)[2]? = t.fds[2]? := by
  obtain rfl | rfl : fd = 0 ∨ fd = 1 := by omega
  · rfl
  · rfl

/-- The descriptors of the shell do what `wire` says. -/
theorem runcmd_eq_wire (hm : Unblocked fails) {cmd : Cmd} (hcmd : cmd.Redirs01) (t : Stdio) (w : World) :
    runcmd fails buf cmd t.fds w = wire fails buf cmd t w := by
  induction cmd generalizing t w with
  | exec argv => rfl
  | redir cmd file efile mode fd ih =>
    rw [runcmd, wire, hm.close, openCall_fds hcmd.1]
    by_cases hf : fails .open w.calls
    · rw [if_pos hf, if_pos hf, World.printf, World.printf, ← close_two hcmd.1 t]
    · rw [if_neg hf, if_neg hf]
      exact ih hcmd.2 _ _
  | pipe left right ihl ihr =>
    rw [runcmd, wire, pipeCall_fds]
    by_cases hf : fails .pipe w.calls
    · rw [if_pos hf, if_pos hf]
    · rw [if_neg hf, if_neg hf]
      -- descriptors 3 and 4 are closed again in both children
      have hl := ihl hcmd.1 { t with out := .writeEnd w.pipes }
      have hr := ihr hcmd.2 { t with inp := .readEnd w.pipes }
      dsimp only
      refine fork1_congr (by rfl) (fun w' => ?_) _
      rw [← hl]
      simp only [pipeChild, hm.close, hm.dup]
      exact fork1_congr (by rfl) hr _
  | list left right ihl ihr =>
    refine fork1_congr rfl (fun w => ?_) w
    rw [ihl hcmd.1, ihr hcmd.2]
  | back cmd ih => exact fork1_congr rfl (ih hcmd t) w

theorem redirs01_wraps (rs : List (Token × Token)) {cmd : Cmd} (h : cmd.Redirs01) :
    (wraps rs cmd).Redirs01 := by
  induction rs generalizing cmd with
  | nil => exact h
  | cons r rs ih =>
    refine ih ?_
    dsimp only
    split
    · exact ⟨Nat.zero_le _, h⟩
    · exact ⟨le_rfl, h⟩

theorem redirs01_backs (n : Nat) {cmd : Cmd} (h : cmd.Redirs01) : (Cmd.back^[n] cmd).Redirs01 := by
  induction n generalizing cmd with
  | zero => exact h
  | succ n ih => exact ih h

/-- The shell parses a line to such a tree. -/
theorem Derives.redirs01 {x : Part} {ts : List Token} {c : Cmd} (h : Derives x ts c) : c.Redirs01 := by
  induction h with
  | exec _ _ _ => exact redirs01_wraps _ trivial
  | block _ _ _ _ ih => exact redirs01_wraps _ ih
  | one _ ih => exact ih
  | pipe _ _ _ ih ih' => exact ⟨ih, ih'⟩
  | last _ _ ih => exact redirs01_backs _ ih
  | list _ _ _ _ ih ih' => exact ⟨redirs01_backs _ ih, ih'⟩

/-! ## Which files the programs get -/

/-- The input is no pipe's end for writing and the output no end for reading, and they are not the two ends
of one pipe; the pipes are those before pipe `n`. -/
structure Stdio.Fed (n : Nat) (t : Stdio) : Prop where
  inp : ∀ p, t.inp ≠ .writeEnd p
  out : ∀ p, t.out ≠ .readEnd p
  apart : ∀ p, t.inp = .readEnd p → t.out ≠ .writeEnd p
  new : ∀ p, n ≤ p → t.inp ≠ .readEnd p ∧ t.out ≠ .writeEnd p
  err : t.err = .std 2

variable {n : Nat} {t : Stdio}

theorem Stdio.Fed.mono {m : Nat} (h : t.Fed n) (hnm : n ≤ m) : t.Fed m :=
  { h with new := fun p hp => h.new p (hnm.trans hp) }

theorem Stdio.Fed.redirect (h : t.Fed n) (fd : Nat) (path : List Byte) (mode : Word) :
    (t.redirect fd (.file path mode)).Fed n := by
  unfold Stdio.redirect
  split
  · exact ⟨nofun, h.out, nofun, fun p hp => ⟨nofun, (h.new p hp).2⟩, h.err⟩
  · exact ⟨h.inp, nofun, fun _ _ => nofun, fun p hp => ⟨(h.new p hp).1, nofun⟩, h.err⟩

/-- The left side of `|` writes to a new pipe. -/
theorem Stdio.Fed.left (h : t.Fed n) : Stdio.Fed (n + 1) { t with out := .writeEnd n } where
  inp := h.inp
  out := nofun
  apart p hp hout := by cases hout; exact (h.new n le_rfl).1 hp
  new p hp := ⟨(h.new p (Nat.le_of_succ_le hp)).1, fun hout => by cases hout; omega⟩
  err := h.err

theorem Stdio.Fed.right (h : t.Fed n) : Stdio.Fed (n + 1) { t with inp := .readEnd n } where
  inp := nofun
  out := h.out
  apart p hp hout := by cases hp; exact (h.new n le_rfl).2 hout
  new p hp := ⟨fun hinp => by cases hinp; omega, (h.new p (Nat.le_of_succ_le hp)).2⟩
  err := h.err

/-- Every program that was started has three descriptors, with files as they should be, and there are
`n` pipes at least. -/
structure World.Wired (n : Nat) (w : World) : Prop where
  progs : ∀ argv fds, .exec argv fds ∈ w.events → ∃ t : Stdio, fds = t.fds ∧ t.Fed w.pipes
  pipes : n ≤ w.pipes

variable {w : World}

theorem World.Wired.emit (h : w.Wired n) {e : ShellEvent}
    (he : ∀ argv fds, e = .exec argv fds → ∃ t : Stdio, fds = t.fds ∧ t.Fed w.pipes) :
    (w.emit e).Wired n := by
  refine ⟨fun argv fds hmem => ?_, h.pipes⟩
  rcases List.mem_append.1 hmem with hmem | hmem
  · exact h.progs argv fds hmem
  · exact he argv fds (List.mem_singleton.1 hmem).symm

theorem World.Wired.printf (h : w.Wired n) (msg : ShellMessage) (fds : Fds) :
    (w.called.printf msg fds).Wired n :=
  World.Wired.emit (w := w.called) ⟨h.progs, h.pipes⟩ fun _ _ he => by cases he

theorem World.Wired.fork1 (h : w.Wired n) (fails : ShellCall → Nat → Bool) (fds : Fds) {k : World → World}
    (hk : ∀ w : World, w.Wired n → (k w).Wired n) : (fork1 fails fds k w).Wired n := by
  unfold User.fork1
  split
  · exact h.printf _ _
  · exact hk _ ⟨h.progs, h.pipes⟩

theorem World.Wired.wire {cmd : Cmd} (ht : t.Fed n) (h : w.Wired n) :
    (wire fails buf cmd t w).Wired n := by
  induction cmd generalizing t n w with
  | exec argv =>
    rw [User.wire, runExec]
    split
    · exact h
    · next name args _ =>
      have hw : (if name = unblockName then w.emit .unblock else w).Wired n := by
        split
        · exact h.emit fun _ _ he => by cases he
        · exact h
      refine hw.emit fun argv fds he => ?_
      cases he
      exact ⟨t, rfl, ht.mono hw.pipes⟩
  | redir cmd file efile mode fd ih =>
    rw [User.wire]
    split
    · exact h.printf _ _
    · exact ih (ht.redirect fd _ mode) ⟨h.progs, h.pipes⟩
  | pipe left right ihl ihr =>
    rw [User.wire]
    split
    · exact h.printf _ _
    · have ht' := ht.mono h.pipes
      have hnew : World.Wired (w.pipes + 1) { w.called with pipes := w.pipes + 1 } := by
        refine ⟨fun argv fds hmem => ?_, le_rfl⟩
        obtain ⟨u, hu, hfed⟩ := h.progs argv fds hmem
        exact ⟨u, hu, hfed.mono (Nat.le_succ _)⟩
      have hrun := hnew.fork1 fails t.fds fun w' hw' =>
        (ihl ht'.left hw').fork1 fails t.fds fun w'' hw'' => ihr ht'.right hw''
      exact ⟨hrun.progs, (h.pipes.trans (Nat.le_succ _)).trans hrun.pipes⟩
  | list left right ihl ihr => exact h.fork1 fails t.fds fun w' hw' => ihr ht (ihl ht hw')
  | back cmd ih => exact h.fork1 fails t.fds fun w' hw' => ih ht hw'

end

/-- The shell's own files. -/
def Stdio.std : Stdio := ⟨.std 0, .std 1, .std 2⟩

theorem Stdio.fed_std (n : Nat) : Stdio.std.Fed n := ⟨nofun, nofun, nofun, fun _ _ => ⟨nofun, nofun⟩, rfl⟩

/-- For every line that parses and whichever of the calls `fork`, `pipe` and `open` fail, as long as no
`close` and no `dup` is blocked: `runcmd` does with its descriptors what `wire` says, and every program is
started with three descriptors, whose input and output are not the two ends of one pipe nor ends of the
wrong kind. -/
theorem runcmd_wires {s : List Byte} (h0 : 0 ∉ s) {depth : Nat} (hdepth : 4 * s.length + 4 ≤ depth)
    {cmd : Cmd} {buf : List Byte} (hparse : parsecmd s depth = .ok (cmd, buf) ())
    {fails : ShellCall → Nat → Bool} (hm : Unblocked fails) :
    (∀ t w, runcmd fails buf cmd t.fds w = wire fails buf cmd t w) ∧
    ∀ argv fds, .exec argv fds ∈ (runcmd fails buf cmd Stdio.std.fds ⟨0, 0, []⟩).events →
      ∃ t : Stdio, fds = t.fds ∧ (∀ p, t.inp ≠ .writeEnd p) ∧ (∀ p, t.out ≠ .readEnd p) ∧
        (∀ p, t.inp = .readEnd p → t.out ≠ .writeEnd p) ∧ t.err = .std 2 := by
  have hcmd : cmd.Redirs01 := by
    obtain ⟨c, p, hrun, h⟩ := Res.bind_eq_ok.1 hparse
    cases h
    exact (Prog.wp_ok (parse_total h0 hdepth) hrun).redirs01
  refine ⟨runcmd_eq_wire hm hcmd, fun argv fds hmem => ?_⟩
  rw [runcmd_eq_wire hm hcmd] at hmem
  have hwired : (wire fails buf cmd Stdio.std ⟨0, 0, []⟩).Wired 0 :=
    World.Wired.wire (Stdio.fed_std 0) ⟨fun _ _ h => absurd h List.not_mem_nil, le_rfl⟩
  obtain ⟨t, hfds, hfed⟩ := hwired.progs argv fds hmem
  exact ⟨t, hfds, hfed.inp, hfed.out, hfed.apart, hfed.err⟩

/-- `"a|b>c"`: `a` writes to the pipe that `b` reads from. -/
theorem runcmd_wires_pipe : (runcmd (fun _ _ => false) [97, 0, 98, 0, 99, 0]
      (.pipe (.exec [(0, 1)]) (.redir (.exec [(2, 3)]) 4 5 (O_WRONLY ||| O_CREATE) 1))
      Stdio.std.fds ⟨0, 0, []⟩).events =
    [.exec [[97]] (Stdio.fds ⟨.std 0, .writeEnd 0, .std 2⟩),
      .exec [[98]] (Stdio.fds ⟨.readEnd 0, .file [99] (O_WRONLY ||| O_CREATE), .std 2⟩)] := by
  have hrun : parsecmd [97, 124, 98, 62, 99] 24 =
      .ok (.pipe (.exec [(0, 1)]) (.redir (.exec [(2, 3)]) 4 5 (O_WRONLY ||| O_CREATE) 1),
        [97, 0, 98, 0, 99, 0]) () := by decide +kernel
  rw [(runcmd_wires (show 0 ∉ [97, 124, 98, 62, 99] by decide) (by decide) hrun
    fun _ => ⟨rfl, rfl⟩).1]
  decide +kernel

/-- After `block 10` the `dup` of `"a|b"` fails: `a` is started without an output. -/
example : (runcmd (fun c _ => c = .dup) [97, 0, 98, 0] (.pipe (.exec [(0, 1)]) (.exec [(2, 3)]))
      Stdio.std.fds ⟨0, 0, []⟩).events =
    [.exec [[97]] (Stdio.std.fds.set 1 none), .exec [[98]] (Stdio.std.fds.set 0 none)] := by
  decide +kernel

end Xv6.User
