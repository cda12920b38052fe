import Xv6.Vm.Space

/-!
# The new memory image of `exec`

`exec.c` from `setupkvm` to the commit.  What it reads from the program file and the
argument strings are parameters; the result is the new directory, its size and the stack pointer.

The stack pointer is a `uint`: an argument string longer than the new image makes it wrap
around, to the addresses below `2 ^ 32`.  There `copyout` meets mappings that are closed to user code,
or the hole between them, where `uva2ka` traps.  `ImageTraps` says when; otherwise `exec` gets its
image, or gives everything back (`wp_execImage`).
-/

namespace Xv6.Vm

open Bytes Conc Prog

abbrev MAXARG : Nat := 32

/-- A program header, with the bytes of its segment. -/
structure Proghdr where
  /-- `ph.type == ELF_PROG_LOAD` -/
  load : Bool
  vaddr : Word
  memsz : Word
  filesz : Word
  data : FileData

/-- What `exec` reads from the file. -/
structure Program where
  /-- the header could be read, and has the magic number -/
  elf : Bool
  /-- program headers, `none` for one that could not be read -/
  ph : List (Option Proghdr)

variable (im : KernelImage) (pgdir : Nat)

/-- Load program into memory: the new size, from the old one. -/
def loadSegments : List (Option Proghdr) → Nat → V (Option Nat)
  | [], sz => return some sz
  | none :: _, _ => return none
  | some ph :: phs, sz => do
    if !ph.load then loadSegments phs sz
    else if ph.memsz < ph.filesz then return none
    else if ph.vaddr + ph.memsz < ph.vaddr then return none
    else
      let sz ← allocuvm im pgdir sz (ph.vaddr + ph.memsz).toNat
      if sz = 0 then return none
      else if ph.vaddr.toNat % PGSIZE ≠ 0 then return none
      else if ← loaduvm pgdir ph.vaddr.toNat ph.data ph.filesz.toNat then loadSegments phs sz
      else return none

/-- Where a string goes that is pushed at `sp`. -/
def argAt (sp : Nat) (arg : List Byte) : Nat := uint (sp + 2 ^ 32 - (arg.length + 1)) / 4 * 4

/-- Push argument strings: the stack pointer after them, and where they are. -/
def pushArgs : List (List Byte) → Nat → Nat → V (Option (Nat × List Nat))
  | [], _, sp => return some (sp, [])
  | arg :: argv, argc, sp => do
    if argc ≥ MAXARG then return none
    else
      let sp := argAt sp arg
      if ← copyout pgdir sp (arg.length + 1) fun i => arg.getD i 0 then
        return (← pushArgs argv (argc + 1) sp).map fun r => (r.1, sp :: r.2)
      else return none

def ustack (sp : Nat) (args : List Nat) : List Word :=
  [0xffffffff, .ofNat 32 args.length, .ofNat 32 (sp + 2 ^ 32 - (args.length + 1) * 4)] ++
    args.map (.ofNat 32) ++ [0]

/-- The stack of the new image, whose size is `sz`: the stack pointer. -/
def pushFrame (argv : List (List Byte)) (sz : Nat) : V (Option Nat) := do
  match ← pushArgs pgdir argv 0 sz with
  | none => return none
  | some (sp, args) =>
    let n := (3 + args.length + 1) * 4
    let esp := uint (sp + 2 ^ 32 - n)
    if ← copyout pgdir esp n fun i => Blk.byteOf ((ustack sp args).getD (i / 4) 0) (i % 4) then
      return some esp
    else return none

/-- Allocate two pages at the next page boundary.  Make the first inaccessible. -/
def stackPages (sz : Nat) : V Nat := do
  let sz ← allocuvm im pgdir (PGROUNDUP sz) (PGROUNDUP sz + 2 * PGSIZE)
  if sz = 0 then return 0
  else
    clearpteu pgdir (sz - 2 * PGSIZE)
    return sz

/-- What follows the segments: the size of the image and the stack pointer. -/
def makeStack (sz : Nat) (argv : List (List Byte)) : V (Option (Nat × Nat)) := do
  let sz ← stackPages im pgdir sz
  if sz = 0 then return none
  else return (← pushFrame pgdir argv sz).map fun esp => (sz, esp)

/-- `exec` up to the commit: the new directory, its size and the stack pointer. -/
def execImage (prog : Program) (argv : List (List Byte)) : V (Option (Nat × Nat × Nat)) := do
  if !prog.elf then return none
  else
    match ← setupkvm im with
    | none => return none
    | some pgdir =>
      match ← loadSegments im pgdir prog.ph 0 with
      | none =>
        freevm im pgdir
        return none
      | some sz =>
        match ← makeStack im pgdir sz argv with
        | none =>
          freevm im pgdir
          return none
        | some (sz, esp) => return some (pgdir, sz, esp)

/-! ## When it traps -/

/-- A string goes to the hole, and those before it to the stack page, the last of an image of size `sz`. -/
def Falls (sz : Nat) : List (List Byte) → Nat → Nat → Prop
  | [], _, _ => False
  | arg :: argv, argc, sp => argc < MAXARG ∧ (Hole (argAt sp arg) ∨
      (sz ≤ argAt sp arg + PGSIZE ∧ argAt sp arg ≤ sp) ∧ Falls sz argv (argc + 1) (argAt sp arg))

/-- There is memory for the stack of the image, and a string falls into the hole. -/
def StackTraps (sz : Nat) (argv : List (List Byte)) (s : Phys) : Prop :=
  ∃ r s', (stackPages im pgdir sz).run s = .ok r s' ∧ r ≠ 0 ∧ Falls r argv 0 r

/-- `exec` gets as far as the stack, and a string falls into the hole. -/
def ImageTraps (prog : Program) (argv : List (List Byte)) (s : Phys) : Prop :=
  prog.elf = true ∧ ∃ d s₁ sz s₂, (setupkvm im).run s = .ok (some d) s₁ ∧
    (loadSegments im d prog.ph 0).run s₁ = .ok (some sz) s₂ ∧ StackTraps im d sz argv s₂

variable {ι : Type} {im} {R D P : Set Nat} {oth : ι → Option Nat} {l : List Nat}
  {s s' : Phys} {d sz : Nat} {f : Nat → Byte} {argv : List (List Byte)} {E : Option Panic → Prop}

structure ImageOk (s : Phys) (d sz : Nat) : Prop where
  kernel : KernelPart s d
  maps : MapsUpto s d sz
  lt : sz < KERNBASE

theorem MapsUpto.of_same (h : MapsUpto s d sz) (hs : Same D oth s s') (hd : d ∈ D) :
    MapsUpto s' d sz := fun n hn => by
  rw [hs.pte d hd]
  exact h n hn

theorem ImageOk.of_same (h : ImageOk s d sz) (hs : Same D oth s s') (hd : d ∈ D) :
    ImageOk s' d sz := ⟨h.kernel.of_same hs hd, h.maps.of_same hs hd, h.lt⟩

theorem ImageOk.present (h : ImageOk s d sz) {m : Nat} (hm : m * PGSIZE < sz) :
    present (s.pteAt d m) = true := (h.maps m (lt_userpages hm h.lt.le)).2 hm

theorem ImageOk.absent (h : ImageOk s d sz) {m : Nat} (hm : m < USERPAGES) (hsz : sz ≤ m * PGSIZE) :
    Vm.present (s.pteAt d m) = false := by
  rw [← Bool.not_eq_true, h.maps m hm]
  omega

/-- `allocuvm` finds the pages that it maps absent. -/
theorem ImageOk.absent_above (h : ImageOk s d sz) {newsz : Nat} (hnew : newsz < KERNBASE) (m : Nat)
    (hm : pageUp sz ≤ m) (hlt : m * PGSIZE < newsz) : Vm.present (s.pteAt d m) = false :=
  h.absent (lt_userpages hlt hnew.le) (le_pageUp_iff.1 hm)

theorem AllocDone.imageOk {newsz : Nat} (h : AllocDone D oth d (pageUp sz) newsz s s')
    (hI : ImageOk s d sz) (hle : sz ≤ newsz) (hlt : newsz < KERNBASE) : ImageOk s' d newsz := by
  refine ⟨hI.kernel.of_remaps h.remaps hlt.le, fun n hn => ⟨fun hp => ?_, fun hn' => ?_⟩, hlt⟩
  · by_contra hge
    rw [h.remaps.outside n (hn.trans (by decide)) (Or.inr (Nat.le_of_not_lt hge)), hI.maps n hn] at hp
    omega
  · by_cases hold : n < pageUp sz
    · rw [h.remaps.outside n (hn.trans (by decide)) (Or.inl hold)]
      exact hI.present (lt_pageUp_iff.1 hold)
    · exact h.present n (by omega) hn'

theorem lt_PGROUNDUP_iff {n sz : Nat} : n * PGSIZE < PGROUNDUP sz ↔ n * PGSIZE < sz := by
  rw [← lt_pageUp_iff (a := sz), PGROUNDUP]
  exact Nat.mul_lt_mul_right (by decide)

theorem ImageOk.of_setPte {n : Nat} {w : Word} (h : ImageOk s d sz) (hset : SetPte D oth d n w s s')
    (hd : d ∈ D) (hn : n < USERPAGES) (hw : Vm.present w = Vm.present (s.pteAt d n)) :
    ImageOk s' d sz := by
  have hR : Remaps D oth d n ((n + 1) * PGSIZE) s s' := by
    refine ⟨hset.same, fun m hm hout => hset.pte d hd m hm (Or.inr ?_),
      fun i hi _ => hset.pde d hd i hi, fun i hi _ => hset.pde d hd i hi⟩
    rintro rfl
    simp only [PGSIZE] at hout
    omega
  refine ⟨h.kernel.of_remaps hR ?_, fun m hm => ?_, h.lt⟩
  · simp only [USERPAGES, KERNBASE, PGSIZE] at *
    omega
  · by_cases hmn : m = n
    · rw [hmn, hset.self, hw]
      exact h.maps n hn
    · rw [hset.pte d hd m (hm.trans (by decide)) (Or.inr hmn)]
      exact h.maps m hm

theorem le_PGROUNDUP (sz : Nat) : sz ≤ PGROUNDUP sz := by
  simp only [PGROUNDUP, pageUp, PGSIZE]
  omega

theorem user_clear_user (w : Word) : user (w &&& ~~~PTE_U) = false := by
  simp [user, PTE_U]

/-! ### The segments -/

/-- What the segments make of a memory, one after the other. -/
def loadedBytes : List (Option Proghdr) → (Nat → Byte) → Nat → Byte
  | [], f => f
  | none :: _, f => f
  | some ph :: phs, f =>
    loadedBytes phs (if ph.load then ph.data.over ph.vaddr.toNat ph.filesz.toNat f else f)

/-- An image of size `sz` has the bytes `f`, and `f` is zero above its pages. -/
structure Contents (s : Phys) (d sz : Nat) (f : Nat → Byte) : Prop where
  byte : ∀ a < PGROUNDUP sz, s.byte d a = f a
  above : ∀ a, PGROUNDUP sz ≤ a → f a = 0

theorem AllocDone.contents {newsz : Nat} (h : AllocDone D oth d (pageUp sz) newsz s s') (hd : d ∈ D)
    (hp : ∀ m, m < pageUp sz → Vm.present (s.pteAt d m) = true) (hc : Contents s d sz f) (hle : sz ≤ newsz)
    (hlt : newsz < KERNBASE) : Contents s' d newsz f := by
  refine ⟨fun a ha => ?_, fun a ha => hc.above a (le_trans ?_ ha)⟩
  · have hpage := lt_PGROUNDUP_iff.1 ((Nat.div_mul_le_self a PGSIZE).trans_lt ha)
    rw [h.byte hd hlt.le (hp _) hpage]
    split
    next hlo => exact hc.byte a (Nat.lt_of_div_lt_div (by rwa [PGROUNDUP, Nat.mul_div_cancel _ (by decide)]))
    next hlo => exact (hc.above a ((Nat.mul_le_mul_right _ (Nat.le_of_not_lt hlo)).trans
      (Nat.div_mul_le_self _ _))).symm
  · simp only [PGROUNDUP, pageUp, PGSIZE]
    omega

theorem contents_zero (u : Phys) (d : Nat) : Contents u d 0 fun _ => 0 :=
  ⟨fun a ha => absurd ha (by rw [show PGROUNDUP 0 = 0 from rfl]; omega), fun _ _ => rfl⟩

theorem Contents.over {addr n : Nat} {ip : FileData} (h : Contents s d sz f) (hend : addr + n ≤ sz)
    (hb : ∀ a < PGROUNDUP sz, s'.byte d a = ip.over addr n (s.byte d) a) :
    Contents s' d sz (ip.over addr n f) := by
  refine ⟨fun a ha => ?_, fun a ha => ?_⟩
  · rw [hb a ha, FileData.over, FileData.over, h.byte a ha]
  · have := le_PGROUNDUP sz
    rw [FileData.over, if_neg (by omega), h.above a ha]

theorem wp_loadSegments {phs : List (Option Proghdr)} (hd : d ∈ D) (h : Frames im R D oth P l s)
    (hI : ImageOk s d sz) (hc : Contents s d sz f) :
    wp E (loadSegments im d phs sz) (fun r s' => ∃ l', Frames im R D oth P l' s' ∧
      Same (D \ {d}) oth s s' ∧
      ∀ sz', r = some sz' → ImageOk s' d sz' ∧ Contents s' d sz' (loadedBytes phs f)) s := by
  induction phs generalizing sz l s f with
  | nil => exact ⟨l, h, Same.refl _ _ _, by rintro _ ⟨⟩; exact ⟨hI, hc⟩⟩
  | cons ph phs ih =>
    cases ph with
    | none => exact ⟨l, h, Same.refl _ _ _, nofun⟩
    | some ph =>
      unfold loadSegments
      refine wp_ite (fun hload => ?_) fun hload => wp_ite (fun _ => ⟨l, h, Same.refl _ _ _, nofun⟩) fun hfile =>
        wp_ite (fun _ => ⟨l, h, Same.refl _ _ _, nofun⟩) fun hover => ?_
      · rw [Bool.not_eq_true'] at hload
        have := ih h hI hc
        rwa [show loadedBytes phs f = loadedBytes (some ph :: phs) f by rw [loadedBytes, hload]; rfl] at this
      rw [Bool.not_eq_true, Bool.not_eq_false'] at hload
      rw [wp_bind]
      -- the rest, once the pages of the segment are there
      have hrest : ∀ {sz₁ l₁ s₁}, Frames im R D oth P l₁ s₁ → ImageOk s₁ d sz₁ → Contents s₁ d sz₁ f →
          Same (D \ {d}) oth s s₁ → ph.vaddr.toNat + ph.memsz.toNat ≤ sz₁ →
          wp E (if sz₁ = 0 then pure none
            else if ph.vaddr.toNat % PGSIZE ≠ 0 then pure none
            else do
              if ← loaduvm d ph.vaddr.toNat ph.data ph.filesz.toNat then loadSegments im d phs sz₁
              else pure none) (fun r s' => ∃ l', Frames im R D oth P l' s' ∧
            Same (D \ {d}) oth s s' ∧
            ∀ sz', r = some sz' → ImageOk s' d sz' ∧ Contents s' d sz' (loadedBytes (some ph :: phs) f)) s₁ := by
        intro sz₁ l₁ s₁ h₁ hI₁ hc₁ hs₁ hle
        refine wp_ite (fun _ => ⟨l₁, h₁, hs₁, nofun⟩) fun _ => wp_ite (fun _ => ⟨l₁, h₁, hs₁, nofun⟩)
          fun hal => ?_
        have hfs : ph.filesz.toNat ≤ ph.memsz.toNat := by
          simpa [BitVec.lt_def] using hfile
        have htop : PGROUNDUP sz₁ ≤ KERNBASE := by
          have := hI₁.lt
          simp only [PGROUNDUP, pageUp, PGSIZE, KERNBASE] at *
          omega
        have hsz := le_PGROUNDUP sz₁
        rw [wp_bind]
        refine wp_mono (wp_loaduvm h₁ hd (by simpa using hal) (by omega) htop
          fun m hm => hI₁.present (lt_PGROUNDUP_iff.1 hm)) ?_
        rintro r s₂ ⟨h₂, hs₂, hb₂⟩
        have hs : Same (D \ {d}) oth s s₂ := hs₁.trans (hs₂.mono fun _ h => h.1)
        cases r with
        | false => exact ⟨l₁, h₂, hs, nofun⟩
        | true =>
          refine wp_mono (ih h₂ (hI₁.of_same hs₂ hd) (hc₁.over (by omega) (hb₂ rfl))) ?_
          rintro r s₃ ⟨l₃, h₃, hs₃, hI₃⟩
          rw [loadedBytes, hload, if_pos rfl]
          exact ⟨l₃, h₃, hs.trans hs₃, hI₃⟩
      have hsum : (ph.vaddr + ph.memsz).toNat = ph.vaddr.toNat + ph.memsz.toNat := by
        simp only [BitVec.lt_def, BitVec.toNat_add] at hover ⊢
        omega
      refine wp_allocuvm h hd hI.absent_above (fun _ => ?_) (fun hlt hnew => ?_)
        (fun _ _ _ l' s' h' hf => ?_) fun hnew hle l' s' h' hdone _ => ?_
      · exact ⟨l, h, Same.refl _ _ _, nofun⟩
      · exact hrest h hI hc (Same.refl _ _ _) (by omega)
      · exact ⟨l', h', hf.remaps.same, nofun⟩
      · exact hrest h' (hdone.imageOk hI hle hnew)
          (hdone.contents hd (fun m hm => hI.present (lt_pageUp_iff.1 hm)) hc hle hnew) hdone.remaps.same
          (by omega)

/-! ### The stack pages -/

/-- An image of size `sz` ends in a page that is closed to user code and the stack page, which is open. -/
structure StackPages (s : Phys) (d sz : Nat) : Prop where
  size : sz % PGSIZE = 0 ∧ 2 * PGSIZE ≤ sz
  guard : user (s.pteAt d (sz / PGSIZE - 2)) = false
  stack : user (s.pteAt d (sz / PGSIZE - 1)) = true

theorem StackPages.congr (h : StackPages s d sz) (hpte : ∀ n, s'.pteAt d n = s.pteAt d n) :
    StackPages s' d sz := ⟨h.size, by rw [hpte, h.guard], by rw [hpte, h.stack]⟩

/-- What is open to user code and ends in the stack page, or right below it, begins there. -/
theorem StackPages.le_of_user {va len : Nat} (h : StackPages s d sz) (hlen : 0 < len)
    (hend : sz ≤ va + len + PGSIZE + 4)
    (hu : ∀ a, va ≤ a → a < va + len → user (s.pteAt d (a / PGSIZE)) = true) : sz ≤ va + PGSIZE := by
  obtain ⟨hal, hle⟩ := h.size
  by_contra hlt
  have hguard : max va (sz - 2 * PGSIZE) / PGSIZE = sz / PGSIZE - 2 := by
    simp only [PGSIZE] at *
    omega
  have := hu (max va (sz - 2 * PGSIZE)) (le_max_left _ _) (by simp only [PGSIZE] at *; omega)
  rw [hguard, h.guard] at this
  exact absurd this (by decide)

theorem StackPages.user {a : Nat} (h : StackPages s d sz) (h1 : sz ≤ a + PGSIZE) (h2 : a < sz) :
    user (s.pteAt d (a / PGSIZE)) = true := by
  obtain ⟨hal, hle⟩ := h.size
  rw [← h.stack]
  congr 2
  simp only [PGSIZE] at *
  omega

theorem wp_stackPages (hd : d ∈ D) (h : Frames im R D oth P l s) (hI : ImageOk s d sz)
    (hc : Contents s d sz f) :
    wp E (stackPages im d sz) (fun r s' => ∃ l', Frames im R D oth P l' s' ∧
      Same (D \ {d}) oth s s' ∧
      (r ≠ 0 → ImageOk s' d r ∧ StackPages s' d r ∧ ∀ a < r, s'.byte d a = f a)) s := by
  -- rounding the size up adds no page
  have hup : PGROUNDUP (PGROUNDUP sz) = PGROUNDUP sz := by
    simp only [PGROUNDUP, pageUp, PGSIZE]
    omega
  have hI' : PGROUNDUP sz < KERNBASE → ImageOk s d (PGROUNDUP sz) := fun hlt =>
    ⟨hI.kernel, fun n hn => (hI.maps n hn).trans lt_PGROUNDUP_iff.symm, hlt⟩
  have hc' : Contents s d (PGROUNDUP sz) f := ⟨by rw [hup]; exact hc.byte, by rw [hup]; exact hc.above⟩
  unfold stackPages
  rw [wp_bind]
  refine wp_allocuvm h hd (fun hlt => (hI' (by omega)).absent_above hlt) (fun _ => ?_)
    (fun hlt => absurd hlt (by omega)) (fun _ _ _ l' s' h' hf => ?_) fun hlt hle l₁ s₁ h₁ hdone _ => ?_
  · exact ⟨l, h, Same.refl _ _ _, fun h0 => absurd rfl h0⟩
  · exact ⟨l', h', hf.remaps.same, fun h0 => absurd rfl h0⟩
  have hI₁ := hdone.imageOk (hI' (by omega)) hle hlt
  have hc₁ := hdone.contents hd (fun m hm => (hI' (by omega)).present (lt_pageUp_iff.1 hm)) hc' hle hlt
  have hguard : (PGROUNDUP sz + 2 * PGSIZE - 2 * PGSIZE) / PGSIZE = pageUp sz := by
    rw [Nat.add_sub_cancel, PGROUNDUP, Nat.mul_div_cancel _ (by decide)]
  have hgu : pageUp sz * PGSIZE < PGROUNDUP sz + 2 * PGSIZE := Nat.lt_add_of_pos_right (by decide)
  rw [if_neg (by omega), wp_bind]
  refine wp_clearpteu h₁ hd (by rw [hguard]; exact lt_userpages hgu hlt.le)
    (by rw [hguard]; exact hI₁.present hgu) fun s₂ h₂ hset hpages => ?_
  rw [hguard] at hset
  have hdiv : (PGROUNDUP sz + 2 * PGSIZE) / PGSIZE = pageUp sz + 2 := by
    rw [PGROUNDUP, ← Nat.add_mul, Nat.mul_div_cancel _ (by decide)]
  refine ⟨l₁, h₂, hdone.remaps.same.trans hset.same, fun _ => ⟨?_, ⟨⟨?_, ?_⟩, ?_, ?_⟩, fun a ha => ?_⟩⟩
  · exact hI₁.of_setPte hset hd (lt_userpages hgu hlt.le) (present_clear_user _)
  · rw [PGROUNDUP, ← Nat.add_mul, Nat.mul_mod_left]
  · exact Nat.le_add_left _ _
  · rw [hdiv, Nat.add_sub_cancel, hset.self, user_clear_user]
  · have hst : (pageUp sz + 1) * PGSIZE < PGROUNDUP sz + 2 * PGSIZE := by
      rw [PGROUNDUP, ← Nat.add_mul]
      exact Nat.mul_lt_mul_of_pos_right (by omega) (by decide)
    have hlo : pageUp (PGROUNDUP sz) ≤ pageUp sz + 1 := by
      rw [le_pageUp_iff, PGROUNDUP]
      exact Nat.mul_le_mul_right _ (Nat.le_succ _)
    obtain ⟨f, hf⟩ := hdone.mapped _ hlo hst
    rw [hdiv, show pageUp sz + 2 - 1 = pageUp sz + 1 from rfl,
      hset.pte d hd _ ((lt_userpages hst hlt.le).trans (by decide)) (Or.inr (by omega)), hf, user_entry]
    rfl
  · have hn : a / PGSIZE * PGSIZE < PGROUNDUP sz + 2 * PGSIZE := (Nat.div_mul_le_self _ _).trans_lt ha
    have hframe : frame (s₂.pteAt d (a / PGSIZE)) = frame (s₁.pteAt d (a / PGSIZE)) := by
      by_cases hg : a / PGSIZE = pageUp sz
      · rw [hg, hset.self, frame_clear_user]
      · rw [hset.pte d hd _ ((lt_userpages hn hlt.le).trans (by decide)) (Or.inr hg)]
    rw [Phys.byte, hframe, hpages _ ⟨d, hd, _, lt_userpages hn hlt.le, hI₁.present hn, rfl⟩]
    exact hc₁.byte a (ha.trans_le (le_PGROUNDUP _))

theorem wp_copyout_image {va len : Nat} {buf : Nat → Byte} (hd : d ∈ D)
    (h : Frames im R D oth P l s) (hI : ImageOk s d sz)
    (hva : len = 0 ∨ va + len ≤ sz ∨ KERNBASE ≤ va ∧ va < 2 ^ 32) (hE : Hole va → E (some .trap)) :
    wp E (copyout d va len buf) (fun r s' => Frames im R D oth P l s' ∧ Same D oth s s' ∧
      (len = 0 ∨ ¬Hole va) ∧ (r = true → (len = 0 ∨ va + len ≤ sz) ∧ Copied d sz va len buf s s') ∧
      (r = false → ∃ a, va ≤ a ∧ a < va + len ∧ user (s.pteAt d (a / PGSIZE)) = false)) s :=
  wp_copyoutFrom hd hI.lt.le h hI.kernel (fun _ hm => hI.present hm) le_rfl hva hE

/-! ### The argument strings -/

def Strings (byte : Nat → Byte) : List (List Byte) → List Nat → Nat → Nat → Prop
  | [], [], lo, hi => lo = hi
  | arg :: argv, a :: args, lo, hi =>
    (a % 4 = 0 ∧ a + arg.length + 1 ≤ hi ∧ ∀ k ≤ arg.length, byte (a + k) = arg.getD k 0) ∧
      Strings byte argv args lo a
  | _, _, _, _ => False

section Strings

variable {byte byte' : Nat → Byte} {argv : List (List Byte)} {args : List Nat} {lo hi : Nat}

theorem Strings.length (h : Strings byte argv args lo hi) : args.length = argv.length := by
  induction argv generalizing args hi with
  | nil =>
    cases args with
    | nil => rfl
    | cons a args => exact h.elim
  | cons arg argv ih =>
    cases args with
    | nil => exact h.elim
    | cons a args => rw [List.length_cons, List.length_cons, ih h.2]

theorem Strings.le (h : Strings byte argv args lo hi) : lo ≤ hi := by
  induction argv generalizing args hi with
  | nil =>
    cases args with
    | nil => exact h.le
    | cons a args => exact h.elim
  | cons arg argv ih =>
    cases args with
    | nil => exact h.elim
    | cons a args =>
      have := ih h.2
      have := h.1.2.1
      omega

theorem Strings.aligned (h : Strings byte argv args lo hi) (hhi : hi % 4 = 0) : lo % 4 = 0 := by
  induction argv generalizing args hi with
  | nil =>
    cases args with
    | nil => exact (show lo = hi from h) ▸ hhi
    | cons a args => exact h.elim
  | cons arg argv ih =>
    cases args with
    | nil => exact h.elim
    | cons a args => exact ih h.2 h.1.1

theorem Strings.congr (h : Strings byte argv args lo hi)
    (hb : ∀ a, lo ≤ a → a < hi → byte' a = byte a) : Strings byte' argv args lo hi := by
  induction argv generalizing args hi with
  | nil =>
    cases args with
    | nil => exact h
    | cons a args => exact h.elim
  | cons arg argv ih =>
    cases args with
    | nil => exact h.elim
    | cons a args =>
      obtain ⟨⟨hal, hle, hbytes⟩, hrest⟩ := h
      have hlo := hrest.le
      exact ⟨⟨hal, hle, fun k hk => (hb _ (by omega) (by omega)).trans (hbytes k hk)⟩,
        ih hrest fun a' h1 h2 => hb a' h1 (by omega)⟩

end Strings

/-- What `pushArgs` from `hi` down did, all of it in the stack page. -/
structure Pushed (d sz : Nat) (argv : List (List Byte)) (hi : Nat) (x : Nat × List Nat)
    (s s' : Phys) : Prop where
  strings : Strings (s'.byte d) argv x.2 x.1 hi
  frame : ∀ a < sz, ¬(x.1 ≤ a ∧ a < hi) → s'.byte d a = s.byte d a
  page : sz ≤ x.1 + PGSIZE

theorem Pushed.cons {arg : List Byte} {x : Nat × List Nat} {sp sp' : Nat}
    {s₁ : Phys} (h : Pushed d sz argv sp' x s₁ s')
    (hc : Copied d sz sp' (arg.length + 1) (arg.getD · 0) s s₁)
    (hsp : sp' = (sp - (arg.length + 1)) / 4 * 4) (hle : arg.length + 1 ≤ sp) (hsz : sp ≤ sz) :
    Pushed d sz (arg :: argv) sp (x.1, sp' :: x.2) s s' := by
  have hlo := h.strings.le
  refine ⟨⟨⟨by omega, by omega, fun k hk => ?_⟩, h.strings⟩, fun a ha hout => ?_, h.page⟩
  · rw [h.frame _ (by omega) (by omega), hc.byte _ (by omega), if_pos (by omega),
      Nat.add_sub_cancel_left]
  · dsimp only at hout
    rw [h.frame a ha (by omega), hc.byte a ha, if_neg (by omega)]

/-- The string fits below the old stack pointer, or the new one has wrapped around. -/
theorem argAt_cases {arg : List Byte} {sp : Nat} (hsp : sp < KERNBASE) (harg : arg.length < KERNBASE) :
    (arg.length + 1 ≤ sp ∧ argAt sp arg = (sp - (arg.length + 1)) / 4 * 4) ∨
      KERNBASE ≤ argAt sp arg ∧ argAt sp arg < 2 ^ 32 := by
  simp only [argAt, uint, KERNBASE] at *
  omega

theorem wp_pushArgs {argc sp : Nat} (hd : d ∈ D) (h : Frames im R D oth P l s) (hI : ImageOk s d sz)
    (hst : StackPages s d sz) (hlen : ∀ arg ∈ argv, arg.length < KERNBASE) (hlo : sz ≤ sp + PGSIZE)
    (hsp : sp ≤ sz) (hargc : argc ≤ MAXARG) (hE : Falls sz argv argc sp → E (some .trap)) :
    wp E (pushArgs d argv argc sp) (fun r s' => Frames im R D oth P l s' ∧ Same D oth s s' ∧
      ¬Falls sz argv argc sp ∧
      ∀ x, r = some x → Pushed d sz argv sp x s s' ∧ argc + x.2.length ≤ MAXARG) s := by
  induction argv generalizing argc sp s with
  | nil =>
    refine ⟨h, Same.refl _ _ _, id, ?_⟩
    rintro _ ⟨⟩
    exact ⟨⟨rfl, fun _ _ _ => rfl, hlo⟩, hargc⟩
  | cons arg argv ih =>
    unfold pushArgs
    refine wp_ite (fun hfull => ⟨h, Same.refl _ _ _, fun hf => absurd hf.1 (by omega), nofun⟩) fun hfull => ?_
    have hkern := hI.lt
    have hkern' : sp < KERNBASE := by omega
    have hcases := argAt_cases hkern' (hlen arg List.mem_cons_self)
    simp only [Falls] at hE ⊢
    generalize argAt sp arg = sp' at hE hcases ⊢
    rw [wp_bind]
    refine wp_mono (wp_copyout_image hd h hI (by omega) fun hh => hE ⟨by omega, Or.inl hh⟩) ?_
    rintro r s₁ ⟨h₁, hs₁, hhole, hr, hclosed⟩
    have hhole := hhole.resolve_left (by omega)
    cases r with
    | false =>
      refine ⟨h₁, hs₁, ?_, nofun⟩
      rintro ⟨-, hh | ⟨⟨h1, h2⟩, -⟩⟩
      · exact hhole hh
      · obtain ⟨a, ha1, ha2, hu⟩ := hclosed rfl
        rw [hst.user (by omega) (by omega)] at hu
        exact absurd hu (by decide)
    | true =>
      obtain ⟨hfit, hc⟩ := hr rfl
      have hlow := hcases.resolve_right (by omega)
      have hpage := hst.le_of_user (Nat.succ_pos _) (by omega) hc.user
      simp only [if_true]
      rw [wp_bind]
      refine wp_mono (ih h₁ (hI.of_same hs₁ hd) (hst.congr (hs₁.pte d hd))
        (fun a ha => hlen a (List.mem_cons_of_mem arg ha)) hpage (by omega) (by omega)
        fun hf => hE ⟨by omega, Or.inr ⟨⟨hpage, by omega⟩, hf⟩⟩) ?_
      rintro r s₂ ⟨h₂, hs₂, hnf, hr₂⟩
      refine ⟨h₂, hs₁.trans hs₂, fun hf => ?_, fun x hx => ?_⟩
      · exact hf.2.elim hhole fun hf => hnf hf.2
      · obtain ⟨y, hy, rfl⟩ := Option.map_eq_some_iff.1 hx
        obtain ⟨hpushed, hlen⟩ := hr₂ y hy
        refine ⟨hpushed.cons hc hlow.2 hlow.1 hsp, ?_⟩
        simp only [List.length_cons]
        omega

/-! ### The stack -/

/-- The word at address `a` of a memory. -/
def readWord (byte : Nat → Byte) (a : Nat) : Word :=
  byte (a + 3) ++ byte (a + 2) ++ byte (a + 1) ++ byte a

/-- What the new program finds: `ustack` at `esp`, above it the strings, up to the end of the stack page,
and below it the bytes `f`. -/
structure StartImage (s : Phys) (d sz : Nat) (f : Nat → Byte) (argv : List (List Byte)) (esp : Nat) :
    Prop where
  below : ∀ a < esp, s.byte d a = f a
  layout : ∃ args, Strings (s.byte d) argv args (esp + (argv.length + 4) * 4) sz ∧
    ∀ i < argv.length + 4,
      readWord (s.byte d) (esp + 4 * i) = (ustack (esp + (argv.length + 4) * 4) args).getD i 0
  aligned : esp % 4 = 0
  length : argv.length ≤ MAXARG
  pages : StackPages s d sz
  page : sz ≤ esp + PGSIZE

theorem StartImage.congr {esp : Nat} (h : StartImage s d sz f argv esp)
    (hpte : ∀ n, s'.pteAt d n = s.pteAt d n) (hb : ∀ a < sz, s'.byte d a = s.byte d a) :
    StartImage s' d sz f argv esp := by
  obtain ⟨args, hstrings, hword⟩ := h.layout
  have hle := hstrings.le
  refine ⟨fun a ha => ?_, ⟨args, hstrings.congr fun a _ h2 => hb a h2, fun i hi => ?_⟩, h.aligned,
    h.length, h.pages.congr hpte, h.page⟩
  · rw [hb a (by omega), h.below a ha]
  · rw [← hword i hi, readWord, readWord, hb _ (by omega), hb _ (by omega), hb _ (by omega), hb _ (by omega)]

theorem Pushed.startImage {x : Nat × List Nat} {esp : Nat} {s₁ : Phys} (h : Pushed d sz argv sz x s s₁)
    (hst : StackPages s' d sz) (hb : ∀ a < sz, s.byte d a = f a) (hlen : x.2.length ≤ MAXARG)
    (hesp : esp + (3 + x.2.length + 1) * 4 = x.1) (hpage : sz ≤ esp + PGSIZE)
    (hc : Copied d sz esp ((3 + x.2.length + 1) * 4)
      (fun i => Blk.byteOf ((ustack x.1 x.2).getD (i / 4) 0) (i % 4)) s₁ s') :
    StartImage s' d sz f argv esp := by
  have hle := h.strings.le
  have hxal := h.strings.aligned (by have := hst.size.1; simp only [PGSIZE] at this; omega)
  have hl := h.strings.length
  have hx : x.1 = esp + (argv.length + 4) * 4 := by omega
  have hstrings := h.strings
  rw [hx] at hstrings hc
  have hbyte : ∀ i < (argv.length + 4) * 4, s'.byte d (esp + i) =
      Blk.byteOf ((ustack (esp + (argv.length + 4) * 4) x.2).getD (i / 4) 0) (i % 4) := fun i hi => by
    rw [hc.byte _ (by omega), if_pos (by omega), Nat.add_sub_cancel_left]
  refine ⟨fun a ha => ?_, ⟨x.2, hstrings.congr fun a h1 h2 => ?_, fun i hi => ?_⟩, by omega,
    by omega, hst, hpage⟩
  · rw [hc.byte a (by omega), if_neg (by omega), h.frame a (by omega) (by omega), hb a (by omega)]
  · rw [hc.byte a h2, if_neg (by omega)]
  · have hword : ∀ k < 4, s'.byte d (esp + 4 * i + k) =
        Blk.byteOf ((ustack (esp + (argv.length + 4) * 4) x.2).getD i 0) k := fun k hk => by
      rw [Nat.add_assoc, hbyte _ (by omega), show (4 * i + k) / 4 = i by omega,
        show (4 * i + k) % 4 = k by omega]
    have h0 := hword 0 (by omega)
    rw [Nat.add_zero] at h0
    rw [readWord, hword 3 (by omega), hword 2 (by omega), hword 1 (by omega), h0,
      Blk.append_byteOf_word]

theorem wp_pushFrame (hd : d ∈ D) (h : Frames im R D oth P l s) (hI : ImageOk s d sz)
    (hst : StackPages s d sz) (hb : ∀ a < sz, s.byte d a = f a)
    (hlen : ∀ arg ∈ argv, arg.length < KERNBASE) (hE : Falls sz argv 0 sz → E (some .trap)) :
    wp E (pushFrame d argv sz) (fun r s' => Frames im R D oth P l s' ∧ Same D oth s s' ∧
      ¬Falls sz argv 0 sz ∧ ∀ esp, r = some esp → StartImage s' d sz f argv esp) s := by
  unfold pushFrame
  rw [wp_bind]
  refine wp_mono (wp_pushArgs hd h hI hst hlen (Nat.le_add_right _ _) le_rfl (Nat.zero_le _) hE) ?_
  rintro r s₁ ⟨h₁, hs₁, hnf, hr⟩
  cases r with
  | none => exact ⟨h₁, hs₁, hnf, nofun⟩
  | some x =>
    obtain ⟨hpushed, hlen⟩ := hr x rfl
    have hsz := hI.lt
    have hle := hpushed.strings.le
    have hlo := hpushed.page
    have htwo := hst.size.2
    have hst₁ := hst.congr (hs₁.pte d hd)
    obtain ⟨esp, hdef⟩ : ∃ esp, uint (x.1 + 2 ^ 32 - (3 + x.2.length + 1) * 4) = esp := ⟨_, rfl⟩
    -- the frame is shorter than a page, so that it does not wrap around
    have hesp : esp + (3 + x.2.length + 1) * 4 = x.1 := by
      simp only [uint, KERNBASE, MAXARG, PGSIZE] at *
      omega
    simp only [hdef]
    rw [wp_bind]
    refine wp_mono (wp_copyout_image hd h₁ (hI.of_same hs₁ hd) (by omega)
      fun hh => absurd hh.1 (by simp only [KERNBASE, PHYSTOP] at *; omega)) ?_
    rintro r s₂ ⟨h₂, hs₂, -, hcopied, -⟩
    cases r with
    | false => exact ⟨h₂, hs₁.trans hs₂, hnf, nofun⟩
    | true =>
      refine ⟨h₂, hs₁.trans hs₂, hnf, fun esp' he => ?_⟩
      obtain rfl : esp = esp' := Option.some.inj he
      obtain ⟨-, hc⟩ := hcopied rfl
      exact hpushed.startImage (hst₁.congr (hs₂.pte d hd)) hb (by omega) hesp
        (hst₁.le_of_user (by omega) (by omega) hc.user) hc

theorem wp_makeStack (hd : d ∈ D) (h : Frames im R D oth P l s) (hI : ImageOk s d sz)
    (hc : Contents s d sz f) (hlen : ∀ arg ∈ argv, arg.length < KERNBASE)
    (hE : StackTraps im d sz argv s → E (some .trap)) :
    wp E (makeStack im d sz argv) (fun r s' => ∃ l', Frames im R D oth P l' s' ∧
      Same (D \ {d}) oth s s' ∧ ¬StackTraps im d sz argv s ∧
      ∀ x, r = some x → ImageOk s' d x.1 ∧ StartImage s' d x.1 f argv x.2) s := by
  unfold makeStack
  rw [wp_bind]
  refine wp_run (wp_mono (wp_stackPages hd h hI hc) ?_)
  rintro r s₁ ⟨l₁, h₁, hs₁, hr⟩ hrun
  have htraps : StackTraps im d sz argv s ↔ r ≠ 0 ∧ Falls r argv 0 r := by
    constructor
    · rintro ⟨r', s', hrun', hf⟩
      cases hrun.symm.trans hrun'
      exact hf
    · exact fun hf => ⟨r, s₁, hrun, hf⟩
  rw [htraps] at hE ⊢
  by_cases h0 : r = 0
  · rw [if_pos h0]
    exact ⟨l₁, h₁, hs₁, fun hf => hf.1 h0, nofun⟩
  · obtain ⟨hI₁, hst, hb⟩ := hr h0
    rw [if_neg h0, wp_bind]
    refine wp_mono (wp_pushFrame hd h₁ hI₁ hst hb hlen fun hf => hE ⟨h0, hf⟩) ?_
    rintro r' s₂ ⟨h₂, hs₂, hnf, hstart⟩
    refine ⟨l₁, h₂, hs₁.trans (hs₂.mono fun _ h => h.1), fun hf => hnf hf.2, fun x hx => ?_⟩
    obtain ⟨esp, hesp, rfl⟩ := Option.map_eq_some_iff.1 hx
    exact ⟨hI₁.of_same hs₂ hd, hstart esp hesp⟩

/-- `exec` up to the commit, for strings that a process can hold: it traps just if `ImageTraps` holds. -/
theorem wp_execImage {Q : Option (Nat × Nat × Nat) → Phys → Prop} {prog : Program}
    (h : Frames im R D oth P l s) (hlen : ∀ arg ∈ argv, arg.length < KERNBASE)
    (htrap : ImageTraps im prog argv s → E (some .trap))
    (hnone : ¬ImageTraps im prog argv s →
      ∀ l' s', Frames im R D oth P l' s' → Same D oth s s' → Q none s')
    (hsome : ¬ImageTraps im prog argv s → prog.elf = true → ∀ d sz esp l' s', d ∉ D →
      Frames im R (insert d D) oth P l' s' → Same D oth s s' → ImageOk s' d sz →
      StartImage s' d sz (loadedBytes prog.ph fun _ => 0) argv esp → Q (some (d, sz, esp)) s') :
    wp E (execImage im prog argv) Q s := by
  unfold execImage
  refine wp_ite (fun helf => hnone (fun ht => by simp [ht.1] at helf) l s h (Same.refl _ _ _)) fun helf => ?_
  rw [Bool.not_eq_true, Bool.not_eq_false'] at helf
  rw [wp_bind]
  refine wp_run (wp_setupkvm h (fun _ l' s' h' hs hrun => hnone ?_ l' s' h' hs)
    fun d l₁ s₁ hdD h₁ hs₁ hK hu _ _ hrun₁ => ?_)
  · rintro ⟨-, d, s₁, -, -, hrun₁, -⟩
    cases hrun.symm.trans hrun₁
  have hdI : d ∈ insert d D := Set.mem_insert d D
  -- on every way out the pages of the new image are given back
  have hfree : ∀ {l' s'}, ¬ImageTraps im prog argv s → Frames im R (insert d D) oth P l' s' → Same D oth s s' →
      wp E (do freevm im d; return none) Q s' := by
    intro l' s' hnt h' hs
    rw [wp_bind]
    refine wp_freevm h' hdI fun l₃ s₃ h₃ hs₃ => ?_
    rw [insert_sdiff_self hdD] at h₃ hs₃
    exact hnone hnt l₃ s₃ h₃ (hs.trans hs₃)
  simp only []
  rw [wp_bind]
  refine wp_run (wp_mono (wp_loadSegments hdI h₁ ⟨hK, fun n hn => by simp [hu n hn], by decide⟩
    (contents_zero s₁ d)) ?_)
  rintro r s₂ ⟨l₂, h₂, hs₂, hI₂⟩ hrun₂
  rw [insert_sdiff_self hdD] at hs₂
  have hs := hs₁.trans hs₂
  cases r with
  | none =>
    refine hfree ?_ h₂ hs
    rintro ⟨-, d', s₁', sz, s₂', hrun₁', hrun₂', -⟩
    cases hrun₁.symm.trans hrun₁'
    cases hrun₂.symm.trans hrun₂'
  | some sz =>
    obtain ⟨hI₂, hc₂⟩ := hI₂ sz rfl
    have htraps : ImageTraps im prog argv s ↔ StackTraps im d sz argv s₂ := by
      constructor
      · rintro ⟨-, d', s₁', sz', s₂', hrun₁', hrun₂', ht⟩
        cases hrun₁.symm.trans hrun₁'
        cases hrun₂.symm.trans hrun₂'
        exact ht
      · exact fun ht => ⟨helf, d, s₁, sz, s₂, hrun₁, hrun₂, ht⟩
    simp only []
    rw [wp_bind]
    refine wp_mono (wp_makeStack hdI h₂ hI₂ hc₂ hlen fun ht => htrap (htraps.2 ht)) ?_
    rintro r s₃ ⟨l₃, h₃, hs₃, hnt, hstart⟩
    rw [insert_sdiff_self hdD] at hs₃
    rw [← htraps] at hnt
    cases r with
    | none => exact hfree hnt h₃ (hs.trans hs₃)
    | some x =>
      obtain ⟨hI₃, hstart⟩ := hstart x rfl
      exact hsome hnt helf d x.1 x.2 l₃ s₃ hdD h₃ (hs.trans hs₃) hI₃ hstart

end Xv6.Vm
