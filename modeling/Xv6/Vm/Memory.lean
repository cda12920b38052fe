import Xv6.Lib.Prog
import Xv6.Lib.Bytes

/-!
# Physical memory and page tables: `kalloc.c` and `vm.c`

Memory is 1024 words for each page frame.  The free list runs through the first words
of the free frames; directories and tables are ordinary frames, and code that follows a
wrong entry reads and writes whatever frame the entry names.  Virtual addresses
and sizes are numbers below `2 ^ 32`; `char*` and `pde_t*` pointers of the kernel to a
page are the number of its frame (`V2P`, divided by `PGSIZE`).

The symbols `data` and `end` come from the linker and are fields of `KernelImage`.
-/

namespace Xv6.Vm

open Bytes Conc

/-! ## Layout -/

abbrev PGSIZE : Nat := 4096
abbrev NPDENTRIES : Nat := 1024
abbrev EXTMEM : Nat := 0x100000
abbrev PHYSTOP : Nat := 0xE000000
abbrev DEVSPACE : Nat := 0xFE000000
abbrev KERNBASE : Nat := 0x80000000
abbrev KERNLINK : Nat := KERNBASE + EXTMEM

/-- Arithmetic on `uint`. -/
abbrev uint (x : Nat) : Nat := x % 2 ^ 32

/-- `PGROUNDUP(sz) / PGSIZE` -/
def pageUp (sz : Nat) : Nat := (sz + PGSIZE - 1) / PGSIZE

def PGROUNDUP (sz : Nat) : Nat := pageUp sz * PGSIZE

/-- Where the linker put the kernel: the frame that `data` starts, and the first frame after `end`. -/
structure KernelImage where
  data : Nat
  kend : Nat
  text_data : EXTMEM / PGSIZE < data
  data_le : data ≤ kend
  kend_lt : kend * PGSIZE < PHYSTOP

/-! ## Entries of directories and tables -/

abbrev PTE_P : Word := 0x001
abbrev PTE_W : Word := 0x002
abbrev PTE_U : Word := 0x004

/-- `e & PTE_P` -/
def present (e : Word) : Bool := e.getLsbD 0

/-- `e & PTE_W` -/
def writable (e : Word) : Bool := e.getLsbD 1

/-- `e & PTE_U` -/
def user (e : Word) : Bool := e.getLsbD 2

/-- `PTE_ADDR(e) / PGSIZE` -/
def frame (e : Word) : Nat := e.toNat / PGSIZE

def flags (e : Word) : Word := e &&& 0xFFF

/-- `pa | perm` for the address of a frame -/
def entry (f : Nat) (perm : Word) : Word := BitVec.ofNat 32 (f * PGSIZE) ||| perm

/-- `PDX(va)` and `PTX(va)` of the addresses of page `n` -/
def pdx (n : Nat) : Nat := n / 1024 % 1024
def ptx (n : Nat) : Nat := n % 1024

/-- A pointer to a page, as it is stored in memory. -/
def pointer : Option Nat → Word
  | none => 0
  | some f => BitVec.ofNat 32 (KERNBASE + f * PGSIZE)

def pointee (w : Word) : Option Nat :=
  if w = 0 then none else some ((w - BitVec.ofNat 32 KERNBASE).toNat / PGSIZE)

/-! ## Memory -/

structure Phys where
  mem : Nat → Nat → Word
  /-- `kmem.freelist` -/
  freelist : Word

inductive Panic where
  /-- `kfree` -/
  | kfree
  /-- `remap` -/
  | remap
  /-- `inituvm: more than a page` -/
  | inituvm
  /-- `loaduvm: addr must be page aligned` -/
  | loaduvmAligned
  /-- `loaduvm: address should exist` -/
  | loaduvmExist
  /-- `clearpteu` -/
  | clearpteu
  /-- `copyuvm: pte should exist` -/
  | copyuvmPte
  /-- `copyuvm: page not present` -/
  | copyuvmPage
  /-- `freevm: no pgdir` -/
  | freevm
  /-- `userinit: out of memory?` -/
  | userinit
  /-- `init exiting` -/
  | initExiting
  /-- `filedup` -/
  | filedup
  /-- `fileclose` -/
  | fileclose
  /-- `trap`: the kernel accessed an address that is not mapped -/
  | trap
deriving DecidableEq

abbrev V := Prog Unit Panic Phys

def word (f i : Nat) : V Word := .atomic () fun s => .ok (s.mem f i) s

def Phys.setPage (s : Phys) (f : Nat) (c : Nat → Word) : Phys :=
  { s with mem := Function.update s.mem f c }

def Phys.setWord (s : Phys) (f i : Nat) (w : Word) : Phys :=
  s.setPage f (Function.update (s.mem f) i w)

def setWord (f i : Nat) (w : Word) : V Unit := .atomic () fun s => .ok () (s.setWord f i w)

/-- `memset` or `memmove` of a page: the new words, from the old ones. -/
def setPage (f : Nat) (g : (Nat → Word) → Nat → Word) : V Unit :=
  .atomic () fun s => .ok () (s.setPage f (g (s.mem f)))

/-- `memset(page, 0, PGSIZE)` -/
def clear (f : Nat) : V Unit := setPage f fun _ _ => 0

def patch (off n : Nat) (src : Nat → Byte) (c : Nat → Word) : Nat → Word := fun i =>
  let b k := if off ≤ k ∧ k < off + n then src (k - off) else Blk.byteOf (c (k / 4)) (k % 4)
  b (4 * i + 3) ++ b (4 * i + 2) ++ b (4 * i + 1) ++ b (4 * i)

/-! ## `kalloc.c` -/

/-- Allocate one page of physical memory. -/
def kalloc : V (Option Nat) := .atomic () fun s =>
  match pointee s.freelist with
  | none => .ok none s
  | some r => .ok (some r) { s with freelist := s.mem r 0 }

variable (im : KernelImage)

/-- Free the page `v`: it is filled with junk and put first on the free list. -/
def kfree (v : Nat) : V Unit := .atomic () fun s =>
  if v < im.kend ∨ v * PGSIZE ≥ PHYSTOP then .panic .kfree
  else .ok ()
    { (s.setPage v fun _ => 0x01010101).setWord v 0 s.freelist with freelist := pointer (some v) }

def freerange : Nat → Nat → V Unit
  | 0, _ => pure ()
  | n + 1, p => do
    kfree im p
    freerange n (p + 1)

def kinit1 : V Unit := freerange im (1024 - im.kend) im.kend

def kinit2 : V Unit := freerange im (PHYSTOP / PGSIZE - 1024) 1024

/-! ## Page tables -/

/-- The PTE of page `n` in `pgdir`: the frame of its table and its index there. -/
def walkpgdir (pgdir n : Nat) (alloc : Bool) : V (Option (Nat × Nat)) := do
  let pde ← word pgdir (pdx n)
  if present pde then return some (frame pde, ptx n)
  else if !alloc then return none
  else
    match ← kalloc with
    | none => return none
    | some pgtab =>
      clear pgtab
      setWord pgdir (pdx n) (entry pgtab (PTE_P ||| PTE_W ||| PTE_U))
      return some (pgtab, ptx n)

/-- The loop of `mappages`: `k` pages from `n` on get the frames from `f` on. -/
def mapFrom (pgdir : Nat) (perm : Word) : Nat → Nat → Nat → V Bool
  | 0, _, _ => return true
  | k + 1, n, f => do
    match ← walkpgdir pgdir n true with
    | none => return false
    | some (t, j) =>
      let pte ← word t j
      if present pte then .throw () .remap
      else
        setWord t j (entry f (perm ||| PTE_P))
        mapFrom pgdir perm k (n + 1) (f + 1)

/-- Create PTEs for the virtual addresses from `va` on that refer to physical addresses from `pa`
on; false when there is no memory for a table. -/
def mappages (pgdir va size pa : Nat) (perm : Word) : V Bool :=
  let a := va / PGSIZE
  let last := uint (va + size - 1) / PGSIZE
  mapFrom pgdir perm (last - a + 1) a (pa / PGSIZE)

structure Kmap where
  virt : Nat
  physStart : Nat
  physEnd : Nat
  perm : Word

def kmap : List Kmap :=
  [⟨KERNBASE, 0, EXTMEM, PTE_W⟩,
   ⟨KERNLINK, EXTMEM, im.data * PGSIZE, 0⟩,
   ⟨KERNBASE + im.data * PGSIZE, im.data * PGSIZE, PHYSTOP, PTE_W⟩,
   ⟨DEVSPACE, DEVSPACE, 0, PTE_W⟩]

/-- The loop of `deallocuvm`, with `n` the page of `a`. -/
def deallocFrom (pgdir oldsz : Nat) : Nat → Nat → V Unit
  | 0, _ => pure ()
  | fuel + 1, n => do
    if n * PGSIZE < oldsz then
      match ← walkpgdir pgdir n false with
      | none => deallocFrom pgdir oldsz fuel ((n / 1024 + 1) * 1024)
      | some (t, j) =>
        let pte ← word t j
        if present pte then
          if frame pte = 0 then .throw () .kfree
          else
            kfree im (frame pte)
            setWord t j 0
            deallocFrom pgdir oldsz fuel (n + 1)
        else deallocFrom pgdir oldsz fuel (n + 1)
    else pure ()

/-- Deallocate user pages to bring the process size from oldsz to newsz. -/
def deallocuvm (pgdir oldsz newsz : Nat) : V Nat := do
  if newsz ≥ oldsz then return oldsz
  else
    deallocFrom im pgdir oldsz (oldsz / PGSIZE + 1) (pageUp newsz)
    return newsz

/-- The loop of `freevm` over the directory. -/
def freeTables (pgdir : Nat) : Nat → Nat → V Unit
  | 0, _ => pure ()
  | k + 1, i => do
    let pde ← word pgdir i
    if present pde then
      kfree im (frame pde)
      freeTables pgdir k (i + 1)
    else freeTables pgdir k (i + 1)

/-- Free a page table and all the physical memory pages in the user part. -/
def freevm (pgdir : Nat) : V Unit := do
  let _ ← deallocuvm im pgdir KERNBASE 0
  freeTables im pgdir NPDENTRIES 0
  kfree im pgdir

/-- The loop of `setupkvm`. -/
def mapKernel (pgdir : Nat) : List Kmap → V Bool
  | [] => return true
  | k :: ks => do
    if ← mappages pgdir k.virt (uint (k.physEnd + 2 ^ 32 - k.physStart)) k.physStart k.perm then
      mapKernel pgdir ks
    else return false

/-- Set up kernel part of a page table. -/
def setupkvm : V (Option Nat) := do
  match ← kalloc with
  | none => return none
  | some pgdir =>
    clear pgdir
    if ← mapKernel pgdir (kmap im) then return some pgdir
    else
      freevm im pgdir
      return none

/-! ## User memory -/

/-- Load the initcode into address 0 of pgdir; nothing checks that there is memory for it. -/
def inituvm (pgdir : Nat) (init : Nat → Byte) (sz : Nat) : V Unit := do
  if sz ≥ PGSIZE then .throw () .inituvm
  else
    match ← kalloc with
    | none => .throw () .trap
    | some mem =>
      clear mem
      let _ ← mappages pgdir 0 PGSIZE (mem * PGSIZE) (PTE_W ||| PTE_U)
      setPage mem (patch 0 sz init)

/-- What `readi` does for `loaduvm`: for the `i`-th page, how many bytes it reads, and which. -/
structure FileData where
  got : Nat → Nat
  bytes : Nat → Nat → Byte

/-- The loop of `loaduvm` on the `i`-th page. -/
def loadFrom (pgdir addr sz : Nat) (ip : FileData) : Nat → Nat → V Bool
  | 0, _ => return true
  | k + 1, i => do
    if i * PGSIZE < sz then
      match ← walkpgdir pgdir (addr / PGSIZE + i) false with
      | none => .throw () .loaduvmExist
      | some (t, j) =>
        let pte ← word t j
        let n := min (sz - i * PGSIZE) PGSIZE
        setPage (frame pte) (patch 0 (min (ip.got i) n) (ip.bytes i))
        if ip.got i ≠ n then return false else loadFrom pgdir addr sz ip k (i + 1)
    else return true

/-- Load a program segment into pgdir. -/
def loaduvm (pgdir addr : Nat) (ip : FileData) (sz : Nat) : V Bool := do
  if addr % PGSIZE ≠ 0 then .throw () .loaduvmAligned
  else loadFrom pgdir addr sz ip (sz / PGSIZE + 1) 0

/-- The loop of `allocuvm`, with `n` the page of `a`. -/
def allocFrom (pgdir oldsz newsz : Nat) : Nat → Nat → V Nat
  | 0, _ => return newsz
  | k + 1, n => do
    if n * PGSIZE < newsz then
      match ← kalloc with
      | none =>
        let _ ← deallocuvm im pgdir newsz oldsz
        return 0
      | some mem =>
        clear mem
        if ← mappages pgdir (n * PGSIZE) PGSIZE (mem * PGSIZE) (PTE_W ||| PTE_U) then
          allocFrom pgdir oldsz newsz k (n + 1)
        else
          let _ ← deallocuvm im pgdir newsz oldsz
          kfree im mem
          return 0
    else return newsz

/-- Allocate page tables and physical memory to grow process from oldsz to newsz.  Returns new size
or 0 on error. -/
-- irreducible: the elaborator would compare sizes such as `sz + 2 * PGSIZE` in unary
@[irreducible] def allocuvm (pgdir oldsz newsz : Nat) : V Nat := do
  if newsz ≥ KERNBASE then return 0
  else if newsz < oldsz then return oldsz
  else allocFrom im pgdir oldsz newsz (newsz / PGSIZE + 1) (pageUp oldsz)

/-- Clear PTE_U on a page. -/
def clearpteu (pgdir uva : Nat) : V Unit := do
  match ← walkpgdir pgdir (uva / PGSIZE) false with
  | none => .throw () .clearpteu
  | some (t, j) =>
    let pte ← word t j
    setWord t j (pte &&& ~~~PTE_U)

def copyFrom (pgdir d sz : Nat) : Nat → Nat → V Bool
  | 0, _ => return true
  | k + 1, n => do
    if n * PGSIZE < sz then
      match ← walkpgdir pgdir n false with
      | none => .throw () .copyuvmPte
      | some (t, j) =>
        let pte ← word t j
        if present pte then
          match ← kalloc with
          | none => return false
          | some mem =>
            let page ← Prog.atomic () fun s => .ok (s.mem (frame pte)) s
            setPage mem fun _ => page
            if ← mappages d (n * PGSIZE) PGSIZE (mem * PGSIZE) (flags pte) then
              copyFrom pgdir d sz k (n + 1)
            else
              kfree im mem
              return false
        else .throw () .copyuvmPage
    else return true

/-- Given a parent process's page table, create a copy of it for a child. -/
def copyuvm (pgdir sz : Nat) : V (Option Nat) := do
  match ← setupkvm im with
  | none => return none
  | some d =>
    if ← copyFrom im pgdir d sz (sz / PGSIZE + 1) 0 then return some d
    else
      freevm im d
      return none

/-! ## Access to user memory through the page table -/

/-- Map user page `n` to a frame.  Nothing checks that `walkpgdir` found a table; where it did not, the
compiled kernel (`uva2ka.cold`, `copyout.cold` in kernel.asm) runs into `ud2`, which `trap` does not know. -/
def uva2ka (pgdir n : Nat) : V (Option Nat) := do
  match ← walkpgdir pgdir n false with
  | none => .throw () .trap
  | some (t, j) =>
    let pte ← word t j
    if !present pte then return none
    else if !user pte then return none
    else return some (frame pte)

/-- The loop of `copyout`; every round copies a byte at least. -/
def copyoutFrom (pgdir : Nat) : Nat → Nat → Nat → (Nat → Byte) → V Bool
  | 0, _, _, _ => return true
  | fuel + 1, va, len, buf => do
    if len > 0 then
      match ← uva2ka pgdir (va / PGSIZE) with
      | none => return false
      | some pa0 =>
        let n := min (PGSIZE - va % PGSIZE) len
        setPage pa0 (patch (va % PGSIZE) n buf)
        copyoutFrom pgdir fuel (uint ((va / PGSIZE + 1) * PGSIZE)) (len - n) fun i => buf (i + n)
    else return true

/-- Copy len bytes from buf to user address va in page table pgdir. -/
def copyout (pgdir va len : Nat) (buf : Nat → Byte) : V Bool :=
  copyoutFrom pgdir len va len buf

end Xv6.Vm
