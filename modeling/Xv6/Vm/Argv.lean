import Xv6.Vm.ExecSafe

/-!
# The arguments that `main` gets

`exec` pushes the argument strings, one below the other, and below them the words of `ustack`: a
return address, `argc`, the address of `argv`, and the array `argv` itself.  `mainArgs` reads them back as
`main(argc, argv)` does.  After an `exec` that returned 0 it finds the strings that `exec` was given
(`main_gets_argv`), all of them in the stack page, with everything below as the program file left it.
-/

namespace Xv6.Vm

open Bytes Conc Prog

variable {im : KernelImage} {s s' : Tasks} {p : Pid} {d sz : Nat} {l : List Nat}
  {path file : List Byte} {argv : List (List Byte)}

/-! ## Reading the stack -/

/-- The bytes from `a` on up to a zero byte; `none` if there is none among the first `fuel`. -/
def cstring (byte : Nat → Byte) : Nat → Nat → Option (List Byte)
  | 0, _ => none
  | fuel + 1, a => if byte a = 0 then some [] else (cstring byte fuel (a + 1)).map (byte a :: ·)

/-- The strings that `n` pointers from `a` on point to. -/
def pointees (byte : Nat → Byte) : Nat → Nat → Option (List (List Byte))
  | 0, _ => some []
  | n + 1, a => do
    let arg ← cstring byte KERNBASE (readWord byte a).toNat
    return arg :: (← pointees byte n (a + 4))

/-- What `main(argc, argv)` sees when it starts with this stack pointer. -/
def mainArgs (byte : Nat → Byte) (esp : Nat) : Option (List (List Byte)) :=
  let argc := (readWord byte (esp + 4)).toNat
  let argv := (readWord byte (esp + 8)).toNat
  if readWord byte (argv + 4 * argc) = 0 then pointees byte argc argv else none

theorem cstring_eq {byte : Nat → Byte} {arg : List Byte} {a fuel : Nat} (hnul : 0 ∉ arg)
    (hfuel : arg.length < fuel) (h : ∀ k ≤ arg.length, byte (a + k) = arg.getD k 0) :
    cstring byte fuel a = some arg := by
  induction arg generalizing a fuel with
  | nil =>
    obtain ⟨fuel, rfl⟩ : ∃ n, fuel = n + 1 := ⟨fuel - 1, by simp at hfuel; omega⟩
    exact if_pos (h 0 (Nat.zero_le _))
  | cons b arg ih =>
    obtain ⟨fuel, rfl⟩ : ∃ n, fuel = n + 1 := ⟨fuel - 1, by omega⟩
    have hb : byte a = b := h 0 (Nat.zero_le _)
    have hne : b ≠ 0 := fun he => hnul (he ▸ List.mem_cons_self)
    have hrest : cstring byte fuel (a + 1) = some arg :=
      ih (fun hmem => hnul (List.mem_cons_of_mem b hmem)) (by simpa using hfuel) fun k hk => by
        rw [Nat.add_assoc, Nat.add_comm 1 k, h (k + 1) (by simpa using hk), List.getD_cons_succ]
    rw [cstring, hb, if_neg hne, hrest]
    rfl

theorem pointees_eq {byte : Nat → Byte} {args : List Nat} {lo hi a : Nat}
    (h : Strings byte argv args lo hi) (hhi : hi ≤ KERNBASE) (hnul : ∀ arg ∈ argv, 0 ∉ arg)
    (hptr : ∀ i < args.length, readWord byte (a + 4 * i) = .ofNat 32 (args.getD i 0)) :
    pointees byte argv.length a = some argv := by
  induction argv generalizing args hi a with
  | nil => rfl
  | cons arg argv ih =>
    cases args with
    | nil => exact h.elim
    | cons x args =>
      obtain ⟨⟨-, hle, hbytes⟩, hrest⟩ := h
      have hx : (readWord byte a).toNat = x := by
        have h0 := hptr 0 (by simp)
        rw [Nat.mul_zero, Nat.add_zero] at h0
        rw [h0, List.getD_cons_zero, BitVec.toNat_ofNat]
        simp only [KERNBASE] at hhi
        omega
      have hstring : cstring byte KERNBASE x = some arg :=
        cstring_eq (hnul arg List.mem_cons_self) (by omega) hbytes
      have htail := ih hrest (by omega) (fun b hb => hnul b (List.mem_cons_of_mem arg hb)) (a := a + 4)
        fun i hi => by
          rw [show a + 4 + 4 * i = a + 4 * (i + 1) by omega, hptr (i + 1) (by simpa using hi),
            List.getD_cons_succ]
      rw [List.length_cons, pointees, hx, hstring, htail]
      rfl

/-- A pointer is one word. -/
theorem Strings.lt {byte : Nat → Byte} {args : List Nat} {lo hi : Nat}
    (h : Strings byte argv args lo hi) {i : Nat} (hi' : i < argv.length) : args.getD i 0 < hi := by
  induction argv generalizing args hi i with
  | nil => exact absurd hi' (Nat.not_lt_zero i)
  | cons arg argv ih =>
    cases args with
    | nil => exact h.elim
    | cons a args =>
      have hle := h.1.2.1
      cases i with
      | zero =>
        rw [List.getD_cons_zero]
        omega
      | succ i =>
        have := ih h.2 (by simpa using hi')
        rw [List.getD_cons_succ]
        omega

section Start

variable {u : Phys} {esp : Nat} {args : List Nat}
  (hstrings : Strings (u.byte d) argv args (esp + (argv.length + 4) * 4) sz)
  (hword : ∀ i < argv.length + 4,
    readWord (u.byte d) (esp + 4 * i) = (ustack (esp + (argv.length + 4) * 4) args).getD i 0)
include hstrings hword

theorem start_argc (hsz : sz < KERNBASE) : (readWord (u.byte d) (esp + 4)).toNat = argv.length := by
  have hle := hstrings.le
  have hl := hstrings.length
  have h1 := hword 1 (by omega)
  rw [Nat.mul_one] at h1
  rw [h1]
  show (BitVec.ofNat 32 args.length).toNat = _
  simp only [KERNBASE, BitVec.toNat_ofNat] at *
  omega

theorem start_array (hsz : sz < KERNBASE) : (readWord (u.byte d) (esp + 8)).toNat = esp + 12 := by
  have hle := hstrings.le
  have hl := hstrings.length
  rw [show esp + 8 = esp + 4 * 2 by omega, hword 2 (by omega)]
  show (BitVec.ofNat 32 (esp + (argv.length + 4) * 4 + 2 ^ 32 - (args.length + 1) * 4)).toNat = _
  simp only [KERNBASE, BitVec.toNat_ofNat] at *
  omega

theorem start_pointer (i : Nat) (hi : i < args.length) :
    readWord (u.byte d) (esp + 12 + 4 * i) = .ofNat 32 (args.getD i 0) := by
  have hl := hstrings.length
  rw [show esp + 12 + 4 * i = esp + 4 * (i + 3) by omega, hword (i + 3) (by omega), ustack]
  simp [List.getElem?_append, hi]

theorem start_null : readWord (u.byte d) (esp + 12 + 4 * argv.length) = 0 := by
  rw [show esp + 12 + 4 * argv.length = esp + 4 * (argv.length + 3) by omega,
    hword (argv.length + 3) (by omega), ustack, ← hstrings.length]
  simp

end Start

/-! ## What `main` gets -/

/-- The stack of a new process: the words of `ustack`, the last of which are the pointers to the
strings, and above them the strings, each at an aligned address and none over another.  All of it is in
the last page, which is open to user code; the page below is closed. -/
structure MainStack (m : Mach) (p : Pid) (argv : List (List Byte)) (esp : Nat) : Prop where
  page : (m.proc p).sz ≤ esp + PGSIZE ∧ esp < (m.proc p).sz
  array : (readWord (m.byteAt p) (esp + 8)).toNat = esp + 12
  strings : ∃ args, (∀ i < argv.length,
      (readWord (m.byteAt p) (esp + 12 + 4 * i)).toNat = args.getD i 0) ∧
    Strings (m.byteAt p) argv args (esp + 12 + 4 * (argv.length + 1)) (m.proc p).sz
  opened : user (m.pteOf p ((m.proc p).sz / PGSIZE - 1)) = true
  closed : user (m.pteOf p ((m.proc p).sz / PGSIZE - 2)) = false

/-- A process with such an image reads the arguments. -/
theorem StartImage.main {m : Mach} {f : Nat → Byte} {esp : Nat} (h : StartImage m.phys d sz f argv esp)
    (hd : (m.proc p).pgdir = some d) (hsz : (m.proc p).sz = sz) (hlt : sz < KERNBASE)
    (hnul : ∀ arg ∈ argv, 0 ∉ arg) :
    mainArgs (m.byteAt p) esp = some argv ∧ MainStack m p argv esp ∧ ∀ a < esp, m.byteAt p a = f a := by
  have hview : m.byteAt p = m.phys.byte d := funext fun a => by
    rw [Mach.byteAt, pteOf_eq hd, Phys.byte, Nat.mod_mod_of_dvd a (by decide)]
  obtain ⟨args, hstrings, hword⟩ := h.layout
  have hle := hstrings.le
  have hptr := start_pointer hstrings hword
  have harray := start_array hstrings hword hlt
  rw [hview]
  refine ⟨?_, ⟨by rw [hsz]; exact ⟨h.page, by omega⟩, by rw [hview]; exact harray, ⟨args, fun i hi => ?_, ?_⟩, ?_, ?_⟩,
    h.below⟩
  · rw [mainArgs, start_argc hstrings hword hlt, harray, if_pos (start_null hstrings hword)]
    exact pointees_eq hstrings hlt.le hnul hptr
  · have := hstrings.lt hi
    rw [hview, hptr i (by rw [hstrings.length]; exact hi), BitVec.toNat_ofNat]
    simp only [KERNBASE] at hlt
    omega
  · rw [hview, hsz, show esp + 12 + 4 * (argv.length + 1) = esp + (argv.length + 4) * 4 by omega]
    exact hstrings
  · rw [hsz, pteOf_eq hd, h.pages.stack]
  · rw [hsz, pteOf_eq hd, h.pages.guard]

end Xv6.Vm
