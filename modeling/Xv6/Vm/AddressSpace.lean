import Xv6.Vm.Pages
import Xv6.Trap.Blocked

/-!
# The memory of a process is what its size says

In every state that a booted machine reaches by calls, the pages below the size of a process, and no
other user pages, are mapped (`maps_up_to_size`).  Then `fork` finds every page that it copies, and
what `argptr` accepts is mapped.

This needs that no `sbrk` takes away all memory:
`growproc` reads the new size 0 as a failure of `deallocuvm` and keeps the old size, with no
page below it (`fork_panics_after_wipe`).
-/

namespace Xv6.Vm

open Bytes Conc Prog

variable {im : KernelImage} {m : Mach} {p : Pid} {d : Nat}

theorem argptr_accepts {k k' : Trap.Kern} {i : Nat} {size a : Word} (hsz : (k.task p).sz.toNat < KERNBASE)
    (h : (Trap.argptr p i size).run k = .ok (some a) k') {b : Nat} (hb : b = 0 ∨ b < size.toNat) :
    a.toNat + b < (k.task p).sz.toNat := by
  unfold Trap.argptr at h
  rw [run_bind, Trap.run_argint, Res.bind_ok] at h
  cases harg : k.intArg p i with
  | none => simp [harg] at h
  | some x =>
    simp only [harg, Trap.task, Trap.kernel, run_bind, run_atomic, Res.bind_ok] at h
    split at h
    · simp at h
    next hok =>
      simp only [run_pure, Res.ok.injEq, Option.some.injEq] at h
      obtain ⟨rfl, -⟩ := h
      push Not at hok
      obtain ⟨hpos, hlt, hend⟩ := hok
      rcases hb with rfl | hb
      · omega
      · -- both are below 2^31, so the sum does not wrap
        have hsize : size.toNat < 2 ^ 31 := by
          rw [BitVec.toInt_eq_toNat_cond] at hpos
          split at hpos <;> omega
        rw [BitVec.toNat_add, Nat.mod_eq_of_lt (by simp only [KERNBASE] at hsz; omega)] at hend
        omega

/-- The pages below the size of a process are mapped, and no user pages above it. -/
theorem maps_up_to_size {cpus size : Nat} {initcode : Nat → Byte} {mem : Nat → Nat → Word}
    {m₀ : Mach} (hboot : (main im cpus initcode size).run (Mach.reset mem) = .ok () m₀)
    (hrun : Reaches (memStep im) (fun m e => ¬e.2.Wipes (m.proc e.1).sz) m₀ m) :
    (∀ p, (m.proc p).Alive → (m.proc p).sz < KERNBASE ∧ ∃ d, (m.proc p).pgdir = some d ∧
      (∀ n, n * PGSIZE < (m.proc p).sz → present (m.phys.pteAt d n) = true) ∧
      (∀ n, PGROUNDUP (m.proc p).sz ≤ n * PGSIZE → n * PGSIZE < KERNBASE →
        present (m.phys.pteAt d n) = false) ∧
      ∀ k k' i size a, (k.task p).sz.toNat = (m.proc p).sz →
        (Trap.argptr p i size).run k = .ok (some a) k' → ∀ b, b = 0 ∨ b < size.toNat →
          present (m.phys.pteAt d ((a.toNat + b) / PGSIZE)) = true) ∧
    ∀ p, memStep im m (p, .fork) ≠ .panic .copyuvmPte ∧ memStep im m (p, .fork) ≠ .panic .copyuvmPage := by
  have h : Inv im True m := (inv_of_boot hboot).inv.reaches hrun fun _ _ h _ => h
  refine ⟨fun p hp => ?_, fun p => ?_⟩
  · obtain ⟨d, hd, -, hI⟩ := h.procs.image p hp
    refine ⟨hI.lt, d, hd, hI.above trivial, fun n hn hlt => ?_, fun k k' i size a hsz hrun b hb => ?_⟩
    · rw [← Bool.not_eq_true]
      intro hpr
      have hbelow := hI.below n (lt_userpages hlt le_rfl) hpr
      rw [← lt_PGROUNDUP_iff] at hbelow
      omega
    · have hlt := argptr_accepts (by rw [hsz]; exact hI.lt) hrun hb
      exact hI.above trivial _ ((Nat.div_mul_le_self _ _).trans_lt (hsz ▸ hlt))
  · have hfork := h.step (p := p) (c := .fork) fun _ => id
    constructor <;> intro hpanic <;> rw [hpanic] at hfork <;> exact hfork trivial

theorem Booted.fork {strict : Prop} (h : Booted im strict m) :
    ∃ m', memStep im m (m.initproc, .fork) = .ok () m' ∧ ∃ np, Forked m m.initproc np m' := by
  obtain ⟨l, hfr, hl⟩ := h.room
  refine step_of_wp im h.init (wp_mono (wp_fork_copies h.inv (alive_of_runnable h.init) hfr
    fun d hd => Or.inr fun n hn => h.mapped hd hn) ?_)
  rintro r m' ⟨-, ⟨np, hf, -⟩ | ⟨-, -, hfull | hshort⟩⟩
  · exact ⟨np, hf⟩
  · obtain ⟨q, hq⟩ := exists_ne m.initproc
    exact absurd (h.alone q hq) (hfull q)
  · rw [h.size] at hshort
    exact absurd (hl.trans hshort) (by decide)

/-- The first process forks; the child has its page, and can fork. -/
theorem maps_up_to_size_boot : ∃ m₀ m np d,
    (main smallKernel 1 (fun _ => 0) 44).run (Mach.reset fun _ _ => 0) = .ok () m₀ ∧
    memStep smallKernel m₀ (m₀.initproc, .fork) = .ok () m ∧
    (m.proc np).Alive ∧ (m.proc np).sz = PGSIZE ∧ (m.proc np).pgdir = some d ∧
    present (m.phys.pteAt d 0) = true ∧ memStep smallKernel m (np, .fork) ≠ .panic .copyuvmPage := by
  obtain ⟨m₀, hboot, h₀⟩ := boots True fun _ _ => 0
  obtain ⟨m, hfork, np, hf⟩ := h₀.fork
  obtain ⟨hprocs, hforks⟩ := maps_up_to_size hboot (.single ⟨(m₀.initproc, .fork), id, hfork⟩)
  have halive := alive_of_runnable hf.runnable
  have hsz : (m.proc np).sz = PGSIZE := hf.sz.trans h₀.size
  obtain ⟨-, d, hd, hbelow, -⟩ := hprocs np halive
  exact ⟨m₀, m, np, d, hboot, hfork, halive, hsz, hd, hbelow 0 (by rw [hsz]; decide), (hforks np).2⟩

/-! ## `sbrk` to nothing -/

/-- The first process gives back its only page: `growproc` takes the size 0 for a failure. -/
theorem Booted.wipe (h : Booted im False m) : ∃ d l s, (m.proc m.initproc).pgdir = some d ∧ d ∈ m.dirs ∧
    m.Frames im ∅ l s ∧ KVMPAGES + 4 ≤ l.length ∧
    present (s.mem d 0) = true ∧ present (s.pteAt d 0) = false ∧ Inv im False { m with phys := s } ∧
    memStep im m (m.initproc, .sbrk (-4096)) = .ok () { m with phys := s } := by
  obtain ⟨d, -, hd, -⟩ := h.page
  have halive := alive_of_runnable h.init
  obtain ⟨d', hd', hdD, -, hbut, hI⟩ := h.inv.pgdir halive
  obtain rfl : d' = d := Option.some.inj (hd'.symm.trans hd)
  obtain ⟨l, hfr, hl⟩ := h.room
  have hpr : present (m.phys.pteAt d' 0) = true := h.mapped hd (by rw [h.size]; decide)
  have hpde : present (m.phys.mem d' 0) = true := by
    by_contra hne
    rw [Phys.pteAt_of_absent (show present (m.phys.mem d' 0) = false by simpa using hne), present_zero] at hpr
    exact absurd hpr (by decide)
  have hstep := step_of_wp im (c := .sbrk (-4096)) (Q := fun m' => ∃ l s,
    m.Frames im ∅ l s ∧ KVMPAGES + 4 ≤ l.length ∧
    present (s.mem d' 0) = true ∧ present (s.pteAt d' 0) = false ∧ Inv im False { m with phys := s } ∧
    m' = { m with phys := s }) h.init ?_
  · obtain ⟨_, hstep, l', s', h', hl', hpde', hpte', hinv, rfl⟩ := hstep
    exact ⟨d', l', s', hd, hdD, h', hl', hpde', hpte', hinv, hstep⟩
  show wp _ (sysSbrk im m.initproc (-4096)) _ m
  unfold sysSbrk
  rw [wp_bind, wp_mach, wp_bind]
  unfold growproc
  rw [wp_bind, wp_mach, if_neg (by decide), if_pos (by decide), wp_bind]
  refine wp_pgdirOf hd ?_
  rw [wp_bind, wp_phys]
  have hsz : uint ((m.proc m.initproc).sz + (-4096 : Word).toNat) = 0 := by
    rw [h.size]
    decide
  rw [hsz]
  refine wp_deallocuvm hfr hdD hI.lt.le (fun hle => ?_) fun hlt l' s' h' hu hl' => ?_
  · rw [h.size] at hle
    exact absurd hle (by decide)
  · rw [if_pos rfl]
    refine ⟨l', s', h', ?_, ?_, ?_, ?_, rfl⟩
    · simp only [KVMPAGES]
      omega
    · rw [hu.pde 0 (by decide), hpde]
    · exact hu.inside 0 (by decide) (by rw [h.size]; decide)
    · exact h.inv.setPhys halive hd h' (hbut ▸ hu.same.dirs) ((hu.image hI hlt).2 id)

/-- After `sbrk(-4096)` the process still has size 4096, without a page, and `fork` panics. -/
theorem fork_panics_after_wipe : ∃ m₀ m d,
    (main smallKernel 1 (fun _ => 0) 44).run (Mach.reset fun _ _ => 0) = .ok () m₀ ∧
    memStep smallKernel m₀ (m₀.initproc, .sbrk (-4096)) = .ok () m ∧
    (m.proc m.initproc).state = .runnable ∧ (m.proc m.initproc).sz = 4096 ∧
    (m.proc m.initproc).pgdir = some d ∧ present (m.phys.pteAt d 0) = false ∧
    memStep smallKernel m (m.initproc, .fork) = .panic .copyuvmPage := by
  obtain ⟨m₀, hboot, h₀⟩ := boots False fun _ _ => 0
  obtain ⟨d, l, s, hd, hdD, hfr, hl, hpde, hpte, hinv, hsbrk⟩ := h₀.wipe
  refine ⟨m₀, _, d, hboot, hsbrk, h₀.init, h₀.size, hd, hpte, ?_⟩
  have hfork : wp (· = some .copyuvmPage) (fork smallKernel m₀.initproc) (fun _ _ => False)
      { m₀ with phys := s } := by
    unfold fork
    rw [wp_bind]
    refine wp_allocproc hinv hfr (fun hnone _ _ _ => ?_) fun np k m₁ he => ?_
    · -- there is a free slot, and memory
      rcases hnone with hall | rfl
      · obtain ⟨q, hq⟩ := exists_ne m₀.initproc
        exact absurd (h₀.alone q hq) (hall q)
      · exact absurd hl (by decide)
    obtain ⟨l₁, hl₁, hfr₁⟩ := he.frames
    have hne : m₀.initproc ≠ np := fun he' => by
      have := he.unused
      rw [← he'] at this
      exact absurd (h₀.init.symm.trans this) (by decide)
    have hproc : m₁.proc m₀.initproc = m₀.proc m₀.initproc := he.proc _ hne
    simp only []
    rw [wp_bind]
    refine wp_pgdirOf (d := d) (by rw [hproc, hd]) ?_
    rw [wp_bind, wp_mach, hproc, h₀.size, wp_bind, wp_phys]
    unfold copyuvm
    rw [wp_bind]
    refine wp_setupkvm hfr₁ (fun hlt => absurd hlt (by omega)) fun d' l₂ s₂ _ h₂ hs₂ _ _ _ _ => ?_
    have hmem : Same m₀.dirs (others m₀.stacks m₀.cpus m₀.ends) s s₂ :=
      (Same.of_mem he.mem).trans hs₂
    simp only []
    rw [wp_bind]
    unfold copyFrom
    rw [if_pos (by decide), wp_bind]
    refine wp_walk (fun t ht => ?_) fun habs => ?_
    · simp only []
      rw [wp_bind, wp_word, ← Phys.pteAt_of_table ht, hmem.pte d hdD, hpte]
      exact wp_throw.2 rfl
    · rw [show pdx 0 = 0 from rfl, hmem.pde d hdD 0 (by decide), hpde] at habs
      exact absurd habs (by decide)
  unfold memStep
  rw [if_pos h₀.init]
  show ((fork smallKernel m₀.initproc).run _).bind _ = _
  unfold wp at hfork
  cases hr : (fork smallKernel m₀.initproc).run { m₀ with phys := s } with
  | ok a m' =>
    rw [hr] at hfork
    exact hfork.elim
  | panic e =>
    rw [hr] at hfork
    rw [Option.some.inj hfork]
    rfl
  | sleep =>
    rw [hr] at hfork
    exact absurd hfork nofun

end Xv6.Vm
