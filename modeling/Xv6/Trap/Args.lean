import Xv6.Fs.System
import Xv6.Proc.Table
import Xv6.Lib.Footprint

/-!
# The kernel as a trap finds it, and the arguments of a system call

`Kern` is the state of `Xv6.Fs` together with what the other calls need: process ids,
names, memory and registers of the processes, the history and the clock.  User memory is
seen as the process sees it, one byte for each address; `U` is kernel code that may access
the memory of the current process, and the label of a section says which addresses it
accesses.

The second half is `syscall.c` up to `argstr`: system call arguments are words on the user
stack, fetched after a check against the size of the process.
-/

namespace Xv6.Trap

open Bytes Conc

/-! ## State -/

/-- `struct proc` and its trap frame, as far as they are not in `Xv6.Proc`. -/
structure Task where
  pid : Word
  name : Blk CMD_NAME_MAX
  sz : Word
  mem : Word → Byte
  eax : Word
  esp : Word

structure History where
  entry : Nat → HistoryEntry
  count : Nat
  index : Nat
  count_le : count ≤ MAX_HISTORY

/-- Memory and stack pointer of a process after `exec`. -/
structure Image where
  sz : Word
  mem : Word → Byte
  esp : Word

structure Kern where
  fs : Kernel
  task : Pid → Task
  nextpid : Word
  history : History
  ticks : Word
  /-- what the `k`-th `exec` leaves in memory -/
  images : Nat → Image
  execs : Nat

/-- What a section accesses: nothing of the process, or `len` bytes from `addr` on. -/
inductive Touch where
  | kernel
  | user (addr : Word) (len : Nat)
deriving DecidableEq

/-- The addresses lie in `[0, sz)`, and counting up to the last of them does not wrap around. -/
def Touch.Inside (sz : Word) : Touch → Prop
  | .kernel => True
  | .user addr len => addr.toNat + len ≤ sz.toNat

instance (sz : Word) : DecidablePred (Touch.Inside sz)
  | .kernel => inferInstanceAs (Decidable True)
  | .user addr len => inferInstanceAs (Decidable (addr.toNat + len ≤ sz.toNat))

abbrev U := Prog Touch Panic Kern

variable (me : Pid)

/-- Code that does not access user memory. -/
def kernel {α : Type} (f : Kern → α × Kern) : U α := .atomic .kernel fun k => .ok (f k).1 (f k).2

/-- Code of `Xv6.Fs`. -/
def fs {α : Type} (p : K α) : U α := .atomic .kernel fun k =>
  (p.run k.fs).bind fun a s => .ok a { k with fs := s }

def Kern.setTask (k : Kern) (p : Pid) (x : Task) : Kern :=
  { k with task := Function.update k.task p x }

/-- `*myproc()` -/
def task : U Task := kernel fun k => (k.task me, k)

def setTask (p : Pid) (g : Task → Task) : U Unit := kernel fun k => ((), k.setTask p (g (k.task p)))

/-! ## User memory -/

def loadByte (addr : Word) : U Byte := .atomic (.user addr 1) fun k => .ok ((k.task me).mem addr) k

/-- `*(int*)addr` -/
def loadWord (addr : Word) : U Word := .atomic (.user addr 4) fun k =>
  let b := (k.task me).mem
  .ok (b (addr + 3) ++ b (addr + 2) ++ b (addr + 1) ++ b addr) k

def loadBytes (addr : Word) (n : Nat) : U (Nat → Byte) := .atomic (.user addr n) fun k =>
  .ok (fun i => (k.task me).mem (addr + .ofNat 32 i)) k

def store (addr : Word) (bs : List Byte) : U Unit := .atomic (.user addr bs.length) fun k =>
  let t := k.task me
  .ok () (k.setTask me { t with mem := fun a => bs.getD (a - addr).toNat (t.mem a) })

/-- The bytes of an integer in memory. -/
def bytesOf {w : Nat} (v : BitVec w) : List Byte := (List.range (w / 8)).map (Blk.byteOf v)

/-! ## Arguments -/

/-- Fetch the int at addr from the current process. -/
def fetchint (addr : Word) : U (Option Word) := do
  let sz := (← task me).sz
  if addr.toNat ≥ sz.toNat ∨ (addr + 4).toNat > sz.toNat then return none
  else return some (← loadWord me addr)

/-- The loop of `fetchstr`, with `n` bytes left up to the end of memory. -/
def fetchstrFrom : Nat → Word → U (Option (List Byte))
  | 0, _ => return none
  | n + 1, s => do
    let c ← loadByte me s
    if c = 0 then return some []
    else return (← fetchstrFrom n (s + 1)).map (c :: ·)

/-- Fetch the nul-terminated string at addr from the current process: where it is, and the string. -/
def fetchstr (addr : Word) : U (Option (Word × List Byte)) := do
  let sz := (← task me).sz
  if addr.toNat ≥ sz.toNat then return none
  else return (← fetchstrFrom me (sz.toNat - addr.toNat) addr).map (addr, ·)

/-- Fetch the nth 32-bit system call argument. -/
def argint (n : Nat) : U (Option Word) := do
  fetchint me ((← task me).esp + 4 + 4 * .ofNat 32 n)

/-- Fetch the nth word-sized system call argument as a pointer to a block of memory of size bytes. -/
def argptr (n : Nat) (size : Word) : U (Option Word) := do
  match ← argint me n with
  | none => return none
  | some i =>
    let sz := (← task me).sz
    if size.toInt < 0 ∨ i.toNat ≥ sz.toNat ∨ (i + size).toNat > sz.toNat then return none
    else return some i

/-- Fetch the nth word-sized system call argument as a string pointer. -/
def argstr (n : Nat) : U (Option (Word × List Byte)) := do
  match ← argint me n with
  | none => return none
  | some addr => fetchstr me addr

/-- The kernel reads a string that was fetched, with its nul; it is what it was. -/
def readstr (p : Word × List Byte) : U (List Byte) :=
  .atomic (.user p.1 (p.2.length + 1)) fun k => .ok p.2 k

end Xv6.Trap
