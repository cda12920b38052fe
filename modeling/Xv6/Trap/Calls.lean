import Xv6.Trap.Args

/-!
# The system calls

Each call fetches its arguments, runs the code of `Xv6.Fs` or its own, and copies results
to user memory.  `none` is a call that does not return: `exit`.
-/

namespace Xv6.Trap

open Bytes Conc

variable (sb : Superblock) (me : Pid)

/-- What the code of `Xv6.Fs` returns, as an `int`. -/
def result (r : Int) : Word := .ofInt 32 r

/-! ## `sysfile.c` -/

/-- Fetch the nth argument as a file descriptor, and check that the file is open. -/
def argfd (n : Nat) : U (Option Int) := do
  match ← argint me n with
  | none => return none
  | some fd =>
    match ← fs (Fs.argfd me (some fd.toInt)) with
    | none => return none
    | some _ => return some fd.toInt

def sysDup : U Word := do
  match ← argfd me 0 with
  | none => return -1
  | some fd => return result (← fs (Fs.sysDup me (some fd)))

/-- The arguments of `read` and `write`: descriptor, address and length of the buffer. -/
def argbuf : U (Option (Int × Word × Nat)) := do
  match ← argfd me 0 with
  | none => return none
  | some fd =>
    match ← argint me 2 with
    | none => return none
    | some n =>
      match ← argptr me 1 n with
      | none => return none
      | some p => return some (fd, p, n.toNat)

def sysRead : U Word := do
  match ← argbuf me with
  | none => return -1
  | some (fd, p, n) =>
    match ← fs (Fs.sysRead sb me (some fd) (some n)) with
    | none => return -1
    | some bs =>
      store me p bs
      return result bs.length

def sysWrite : U Word := do
  match ← argbuf me with
  | none => return -1
  | some (fd, p, n) =>
    let src ← loadBytes me p n
    return result (← fs (Fs.sysWrite sb me (some fd) (some (n, src))))

def sysClose : U Word := do
  match ← argfd me 0 with
  | none => return -1
  | some fd => return result (← fs (Fs.sysClose sb me (some fd)))

/-- `sizeof(struct stat)` -/
abbrev STATSZ : Word := 20

/-- The fields of `struct stat`, in the order in which `stati` assigns them. -/
def storeStat (p : Word) (st : Fs.Stat) : U Unit := do
  store me (p + 4) (bytesOf (.ofNat 32 st.dev : Word))
  store me (p + 8) (bytesOf (.ofNat 32 st.ino : Word))
  store me p (bytesOf st.type)
  store me (p + 12) (bytesOf st.nlink)
  store me (p + 16) (bytesOf st.size)

def sysFstat : U Word := do
  match ← argfd me 0 with
  | none => return -1
  | some fd =>
    match ← argptr me 1 STATSZ with
    | none => return -1
    | some p =>
      match ← fs (Fs.sysFstat sb me (some fd) true) with
      | none => return -1
      | some st =>
        storeStat me p st
        return 0

/-- The nth argument as a path that the kernel walks. -/
def argpath (n : Nat) : U (Option Fs.Path) := do
  match ← argstr me n with
  | none => return none
  | some p => return some (← readstr p)

def sysLink : U Word := do
  match ← argpath me 0 with
  | none => return -1
  | some old =>
    match ← argpath me 1 with
    | none => return -1
    | some new => return result (← fs (Fs.sysLink sb me (some old) (some new)))

def sysUnlink : U Word := do
  match ← argpath me 0 with
  | none => return -1
  | some path => return result (← fs (Fs.sysUnlink sb me (some path)))

def sysOpen : U Word := do
  match ← argpath me 0 with
  | none => return -1
  | some path =>
    match ← argint me 1 with
    | none => return -1
    | some omode => return result (← fs (Fs.sysOpen sb me (some path) (some omode)))

/-- `begin_op` comes before the arguments are fetched, here and in the next two calls. -/
def sysMkdir : U Word := do return result (← fs (Fs.sysMkdir sb me (← argpath me 0)))

def sysMknod : U Word := do
  match ← argpath me 0 with
  | none => return result (← fs (Fs.sysMknod sb me none none none))
  | some path =>
    match ← argint me 1 with
    | none => return result (← fs (Fs.sysMknod sb me (some path) none none))
    | some major => return result (← fs (Fs.sysMknod sb me (some path) (some major) (← argint me 2)))

def sysChdir : U Word := do return result (← fs (Fs.sysChdir sb me (← argpath me 0)))

/-- `MAXARG` -/
abbrev MAXARG : Nat := 32

/-- The loop that fetches `argv[i]` on, with `rounds` elements of the array left. -/
def argvFrom (uargv : Word) : Nat → Nat → U (Option (List (Word × List Byte)))
  | 0, _ => return none
  | rounds + 1, i => do
    match ← fetchint me (uargv + 4 * .ofNat 32 i) with
    | none => return none
    | some uarg =>
      if uarg = 0 then return some []
      else match ← fetchstr me uarg with
        | none => return none
        | some s => return (← argvFrom uargv rounds (i + 1)).map (s :: ·)

/-- `last` at the end of the loop over the path. -/
def baseName (path : Fs.Path) : Fs.Path := (path.reverse.takeWhile (· ≠ Fs.slash)).reverse

/-- `exec` when it does not fail: the arguments are copied to the new stack, and the process gets
the new image. -/
def execCommit (path : Fs.Path) (argv : List (Word × List Byte)) : U Unit := do
  argv.forM fun s => do let _ ← readstr s
  kernel fun k =>
    let t := k.task me
    let im := k.images k.execs
    ((), { k.setTask me { t with
        name := safestrcpy t.name (.ofFn fun i => (baseName path).getD i 0)
        sz := im.sz, mem := im.mem, esp := im.esp } with execs := k.execs + 1 })

def sysExec : U Word := do
  match ← argstr me 0 with
  | none => return -1
  | some path =>
    match ← argint me 1 with
    | none => return -1
    | some uargv =>
      match ← argvFrom me uargv MAXARG 0 with
      | none => return -1
      | some argv =>
        let path ← readstr path
        let r ← fs (Fs.sysExec sb me (some path) true)
        if r = 0 then
          execCommit me path argv
          return 0
        else return result r

def sysPipe : U Word := do
  match ← argptr me 0 8 with
  | none => return -1
  | some fd =>
    match ← fs (Fs.sysPipe sb me true) with
    | none => return -1
    | some (fd0, fd1) =>
      store me fd (bytesOf (.ofNat 32 fd0.1 : Word))
      store me (fd + 4) (bytesOf (.ofNat 32 fd1.1 : Word))
      return 0

def sysChmod : U Word := do
  match ← argpath me 0 with
  | none => return -1
  | some path =>
    match ← argint me 1 with
    | none => return -1
    | some mode => return result (← fs (Fs.sysChmod sb me (some path) (some mode)))

/-! ## `sysproc.c` -/

/-- `allocproc` takes a process id when it finds a slot, even if `fork` fails later. -/
def sysFork : U Word := do
  let slot ← kernel fun k =>
    ((List.finRange NPROC).find? fun p => (k.fs.proc p).state = .unused, k)
  match slot with
  | none => return result (-1)
  | some np =>
    let pid ← kernel fun k => (k.nextpid, { k.setTask np { k.task np with pid := k.nextpid } with
      nextpid := k.nextpid + 1 })
    match ← fs (Fs.fork me) with
    | none => return -1
    | some _ =>
      kernel fun k => ((), k.setTask np { k.task me with
        pid := pid, name := safestrcpy (k.task np).name (k.task me).name, eax := 0 })
      return pid

/-- The history entry of a process that exits. -/
def History.record (h : History) (t : Task) : History where
  entry := Function.update h.entry h.index
    ⟨t.pid, safestrcpy (h.entry h.index).name t.name, t.sz⟩
  index := (h.index + 1) % MAX_HISTORY
  count := if h.count < MAX_HISTORY then h.count + 1 else h.count
  count_le := by
    have := h.count_le
    split <;> omega

def sysExit : U (Option Word) := do
  if me = Fs.initproc then .throw .kernel .initExiting
  else
    kernel fun k => ((), { k with history := k.history.record (k.task me) })
    fs (Fs.exit sb me)
    return none

def sysWait : U Word := do
  match ← fs (Fs.wait me) with
  | none => return -1
  | some p =>
    let pid := (← task p).pid
    setTask p fun t => { t with pid := 0, name := t.name.splice 0 1 fun _ => 0 }
    return pid

/-- Kill the process with the given pid. -/
def sysKill : U Word := do
  match ← argint me 0 with
  | none => return -1
  | some pid => kernel fun k =>
    match (List.finRange NPROC).find? fun p => (k.task p).pid = pid with
    | none => (-1, k)
    | some p =>
      let x := k.fs.proc p
      (0, { k with fs := k.fs.setProc p { x with
        killed := true, state := if x.state = .sleeping then .runnable else x.state } })

def sysGetpid : U Word := do return (← task me).pid

/-- The size that `growproc` gets from `allocuvm` or `deallocuvm`. -/
def grown (old n : Word) : U Word :=
  if n.toInt > 0 then do return .ofNat 32 (← fs (Fs.allocuvm old.toNat (old + n).toNat))
  else if n.toInt < 0 then return if (old + n).toNat ≥ old.toNat then old else old + n
  else return old

/-- Grow current process's memory by n bytes: whether it could be done. -/
def growproc (n : Word) : U Bool := do
  let sz ← grown (← task me).sz n
  if n ≠ 0 ∧ sz = 0 then return false
  else
    setTask me fun t => { t with sz := sz }
    return true

def sysSbrk : U Word := do
  match ← argint me 0 with
  | none => return -1
  | some n =>
    let addr := (← task me).sz
    if ← growproc me n then return addr else return -1

/-- Without other processes the clock stands still: the call returns at once, or waits. -/
def sysSleep : U Word := do
  match ← argint me 0 with
  | none => return -1
  | some n => .atomic .kernel fun k =>
    if n = 0 then .ok 0 k
    else if (k.fs.proc me).killed = true then .ok (-1) k
    else .sleep

def sysUptime : U Word := kernel fun k => (k.ticks, k)

/-- `sizeof(struct history_entry)` -/
abbrev HISTSZ : Word := 24

def nameBytes (t : Blk CMD_NAME_MAX) : Nat → Nat → List Byte
  | 0, _ => [0]
  | n + 1, i => t.get i :: if t.get i ≠ 0 then nameBytes t n (i + 1) else [0]

/-- `hist_buf[i] = process_history[index]`, field by field. -/
def storeEntry (p : Word) (x : HistoryEntry) : U Unit := do
  store me p (bytesOf x.pid)
  store me (p + 4) (nameBytes x.name (CMD_NAME_MAX - 1) 0)
  store me (p + 20) (bytesOf x.memUsage)

/-- The loop of `sys_gethistory` from entry `i` on, with `n` of them left. -/
def copyHistory (h : History) (buf : Word) (start : Nat) : Nat → Nat → U Unit
  | 0, _ => pure ()
  | n + 1, i => do
    storeEntry me (buf + HISTSZ * .ofNat 32 i) (h.entry ((start + i) % MAX_HISTORY))
    copyHistory h buf start n (i + 1)

def History.copyCount (h : History) (maxEntries : Word) : Int := min h.count maxEntries.toInt

def sysGethistory : U Word := do
  match ← argptr me 0 HISTSZ with
  | none => return -1
  | some buf =>
    match ← argint me 1 with
    | none => return -1
    | some maxEntries =>
      let h ← kernel fun k => (k.history, k)
      let n := h.copyCount maxEntries
      let start := if h.count < MAX_HISTORY then 0 else h.index
      copyHistory me h buf start n.toNat 0
      return result n

end Xv6.Trap
