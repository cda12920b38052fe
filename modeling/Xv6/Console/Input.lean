import Xv6.Proc.Waits
import Xv6.Lib.Monitor

/-!
# Input of the console: `consoleintr` and `consoleread`

`input` is one ring with three counters.  What was typed and not read yet is between `r` and
`e`; up to `w` it is committed, and can be read.  `Tty` says what the console is for: a
sequence of committed characters, of which some were taken, and a line that is still edited.

The sections of the monitor are the stretches of code under `cons.lock`: an interrupt with the
characters that `getc` delivers, and `consoleread` from taking the lock to `sleep` or to the end.
The echo on the screen and the listing of processes are left out.
-/

namespace Xv6

open Bytes Conc

namespace Console

/-- `C('P')`, `C('U')`, `C('H')` and `C('D')` -/
abbrev ctrlP : Byte := 16
abbrev ctrlU : Byte := 21
abbrev ctrlH : Byte := 8
abbrev ctrlD : Byte := 4
/-- `'\x7f'` -/
abbrev del : Byte := 127
abbrev newline : Byte := 10
abbrev cr : Byte := 13

/-- A `uint` counter one back. -/
def decr (n : Nat) : Nat := (n + 2 ^ 32 - 1) % 2 ^ 32

/-- `a - b` of two `uint`s -/
def minus (a b : Nat) : Nat := (a + 2 ^ 32 - b) % 2 ^ 32

/-! ## `consoleintr` -/

def killLine : Nat → Input → Input
  | 0, x => x
  | k + 1, x =>
    if x.e ≠ x.w ∧ x.buf.get (decr x.e % INPUT_BUF) ≠ newline then
      killLine k { x with e := decr x.e }
    else x

/-- `default:` of `consoleintr`, and whether it wakes the readers -/
def store (c : Byte) (x : Input) : Bool × Input :=
  if c ≠ 0 ∧ minus x.e x.r < INPUT_BUF then
    let c := if c = cr then newline else c
    let x := { x with
      buf := x.buf.splice (x.e % INPUT_BUF) 1 fun _ => c
      e := Fs.incr x.e }
    if c = newline ∨ c = ctrlD ∨ x.e = (x.r + INPUT_BUF) % 2 ^ 32 then (true, { x with w := x.e })
    else (false, x)
  else (false, x)

/-- One character. -/
def typed (c : Byte) (x : Input) : Bool × Input :=
  if c = ctrlP then (false, x)
  else if c = ctrlU then (false, killLine (minus x.e x.w) x)
  else if c = ctrlH ∨ c = del then (false, if x.e ≠ x.w then { x with e := decr x.e } else x)
  else store c x

/-- The characters that `getc` delivers, and whether the readers are woken. -/
def consoleintr : List Byte → Input → Bool × Input
  | [], x => (false, x)
  | c :: cs, x =>
    let r := typed c x
    let rest := consoleintr cs r.2
    (r.1 || rest.1, rest.2)

/-! ## What the console is for -/

/-- All characters that were committed, how many of them were taken, and the line that is edited. -/
structure Tty where
  committed : List Byte
  taken : Nat
  line : List Byte

namespace Tty

/-- All characters, committed or not. -/
def all (t : Tty) : List Byte := t.committed ++ t.line

/-- The characters that are not taken yet fill the buffer. -/
def full (t : Tty) : Bool := t.all.length == t.taken + INPUT_BUF

def commit (t : Tty) : Tty := { t with committed := t.all, line := [] }

/-- A character that is no editing key: dropped when the buffer is full, otherwise the end of the line;
the line is committed at a newline, at `^D` and when the buffer is full. -/
def store (c : Byte) (t : Tty) : Tty :=
  if c = 0 ∨ t.full then t
  else
    let c := if c = cr then newline else c
    let t := { t with line := t.line ++ [c] }
    if c = newline ∨ c = ctrlD ∨ t.full then t.commit else t

/-- Editing keys change the line only. -/
def typed (c : Byte) (t : Tty) : Tty :=
  if c = ctrlP then t
  else if c = ctrlU then { t with line := [] }
  else if c = ctrlH ∨ c = del then { t with line := t.line.dropLast }
  else t.store c

end Tty

/-! ## The sections -/

/-- A `consoleread` that returned: the number of bytes asked for, the bytes, how many characters had
been taken by then, and whether the last of them is a `^D` that it took. -/
structure Done where
  n : Nat
  bytes : List Byte
  taken : Nat
  eof : Bool
deriving DecidableEq

/-- The ring, and as history the console it stands for, all bytes handed out, in the order
in which they were taken, and the calls that returned. -/
structure Con where
  input : Input
  tty : Tty
  out : List Byte
  done : List Done

inductive ConLoc where
  | idle
  /-- in `consoleintr` -/
  | intr (cs : List Byte)
  /-- in `consoleread`: `got` was copied, and `n` bytes are still wanted -/
  | read (target n : Nat) (got : List Byte)
  /-- returned from a call -/
  | ret (r : Int) (bytes : List Byte)
deriving DecidableEq

/-- `&input.r` is the only channel. -/
abbrev ConTurn := Turn Unit ConLoc

def intrSection (cs : List Byte) (x : Con) : ConTurn × Con :=
  let r := consoleintr cs x.input
  (⟨if r.1 then [()] else [], none, .idle⟩,
    { x with input := r.2, tty := cs.foldl (fun t c => t.typed c) x.tty })

/-- `m` characters were taken and `new` handed out. -/
def Con.advance (x : Con) (input : Input) (m : Nat) (new : List Byte) : Con :=
  { x with input := input, tty := { x.tty with taken := x.tty.taken + m }, out := x.out ++ new }

/-- `consoleread` from holding the lock to giving it up. -/
def readSection (killed : Bool) (target n : Nat) (got : List Byte) (x : Con) :
    Res SchedPanic ConTurn Con :=
  let r := consolereadLoop target n got x.input
  let m := minus r.2.r x.input.r
  match r.1 with
  | .ret k bytes =>
    let new := bytes.drop got.length
    let y := x.advance r.2 m new
    .ok ⟨[], none, .ret k bytes⟩
      { y with done := y.done ++ [⟨target, bytes, y.tty.taken, decide (m ≠ new.length)⟩] }
  | .test (.consoleread _ n' bytes) =>
    let y := x.advance r.2 m (bytes.drop got.length)
    if killed then .ok ⟨[], none, .ret (-1) []⟩ y
    else .ok ⟨[], some (), .read target n' bytes⟩ y
  | _ => .sleep

def code (killed : Bool) (l : ConLoc) (x : Con) : Res SchedPanic ConTurn Con :=
  match l with
  | .intr cs => .ok (intrSection cs x).1 (intrSection cs x).2
  | .read target n got => readSection killed target n got x
  | .idle => .sleep
  | .ret _ _ => .sleep

/-- A process outside of the calls may read `n` bytes, and there may be an interrupt. -/
def calls : ConLoc → ConLoc → Bool
  | .idle, l | .ret _ _, l =>
    match l with
    | .intr _ => true
    | .read target n got => target == n && got == []
    | .idle => false
    | .ret _ _ => false
  | _, _ => false

end Console

open Console in
/-- Any number of processes reading the console, with interrupts. -/
def conMonitor : Monitor Unit ConLoc Con SchedPanic := ⟨Console.code, Console.calls⟩

abbrev ConSys (P : Type) := Procs P Unit Console.ConLoc Console.Con

/-- `input` is zero at the start. -/
def conInit {P : Type} : ConSys P := .init ⟨⟨.zero, 0, 0, 0⟩, ⟨[], 0, []⟩, [], []⟩ .idle

end Xv6
