import Xv6.Vm.Roles

/-!
# Each call keeps the invariant

The rules for `exec`, `fork`, `exit`, `wait` and stores of user code; those for `sbrk`, `pipe` and
`close` are in `Roles` and `Files`.
-/

namespace Xv6.Vm

open Bytes Conc Prog

variable {im : KernelImage} {strict : Prop} {m m' : Mach} {s : Phys} {d : Nat} {p np : Pid}
  {l : List Nat}

theorem alive_of_runnable (h : (m.proc p).state = .runnable) : (m.proc p).Alive := by
  simp [Proc.Alive, h]

/-! ## `exec` -/

theorem wp_sysExec {prog : Program} {argv : List (List Byte)} (h : Inv im strict m)
    (hp : (m.proc p).Alive) :
    wp (Stops strict) (sysExec im p prog argv) (fun _ m' => Inv im strict m') m := by
  obtain ⟨old, hd, hdD, hnd, hbut, hI⟩ := h.pgdir hp
  obtain ⟨l, hfr⟩ := h.point.frames
  unfold sysExec
  rw [wp_bind, wp_mach]
  refine wp_ite (fun hargs => ?_) fun _ => h
  unfold exec
  rw [wp_bind, wp_phys]
  refine wp_execImage hfr (fun arg harg => (hargs arg harg).trans hI.lt) (fun _ => trivial)
    (fun _ l' s' h' hs => ?_) fun _ _ d sz esp l₁ s₁ hdnew h₁ hs₁ hI₁ _ => ?_
  · exact h.setPhys hp hd h' (hs.dirs.mono dirsBut_subset) (hI.of_same hs hdD)
  simp only []
  rw [wp_bind]
  refine wp_pgdirOf hd ?_
  rw [wp_bind, wp_setProc, wp_bind, wp_phys]
  have hold : old ∈ insert d m.dirs := Set.mem_insert_of_mem d hdD
  have hne : d ≠ old := fun he => hdnew (he ▸ hdD)
  have hbut' : insert d m.dirs \ {old} = insert d (m.dirsBut p) := by
    rw [Set.insert_sdiff_of_notMem _ (show d ∉ ({old} : Set Nat) from hne), hbut]
  refine wp_freevm h₁ hold fun l₂ s₂ h₂ hs₂ => ?_
  rw [hbut'] at h₂ hs₂
  have hs : SameDirs (m.dirsBut p) m.phys s₂ :=
    (hs₁.dirs.mono dirsBut_subset).trans (hs₂.dirs.mono fun x hx => Set.mem_insert_of_mem d hx)
  exact h.setImage hp (fun hmem => hdnew (dirsBut_subset hmem)) h₂ hs
    (hI₁.image.of_same hs₂ (Set.mem_insert d _))

/-! ## Stores of user code -/

theorem wp_store {n i : Nat} {w : Word} (h : Inv im strict m) (hp : (m.proc p).Alive) :
    wp (Stops strict) (store p n i w) (fun _ m' => Inv im strict m') m := by
  obtain ⟨d, hd, hdD, hnd, hbut, hI⟩ := h.pgdir hp
  obtain ⟨l, hfr⟩ := h.point.frames
  unfold store
  rw [wp_bind]
  refine wp_pgdirOf hd ?_
  rw [wp_bind, wp_mach]
  refine wp_ite (fun hpte => ?_) fun _ => wp_atomic.2 trivial
  rw [wp_bind, wp_phys, wp_setWord]
  obtain ⟨h', hs'⟩ := hfr.quiet_setPage (hfr.page_not_kept hdD hpte.1 hpte.2.1)
    (Function.update (m.phys.mem (frame (m.phys.pteAt d n))) i w)
  exact h.setPhys hp hd h' (hs'.dirs.mono dirsBut_subset) (hI.of_same hs' hdD)

/-! ## `fork` -/

theorem Inv.deadSlot (h : Inv im strict m) (hdead : ¬(m.proc np).Alive)
    (hun : (m'.proc np).state = .unused) (hq : ∀ q, q ≠ np → m'.proc q = m.proc q)
    (hof : (m'.proc np).ofile = (m.proc np).ofile) (hft : m'.ftable = m.ftable)
    (hends : m'.ends = m.ends) (hk : m'.kpgdir = m.kpgdir) (hc : m'.cpus = m.cpus)
    (hfr : m.Frames im ∅ l m'.phys)
    (hs : SameDirs m.dirs m.phys m'.phys) : Inv im strict m' := by
  have hdead' : ¬(m'.proc np).Alive := fun ha => ha.1 hun
  have hcore : ∀ q, q ≠ np → (m'.proc q).core = (m.proc q).core := fun q hne => by rw [hq q hne]
  have hfds : m'.fds = m.fds := by
    funext x
    by_cases hx : x.1 = np
    · rw [Mach.fds, Mach.fds, hx, hof]
    · rw [Mach.fds, Mach.fds, hq _ hx]
  refine ⟨?_, h.procs.replace np hk hcore (fun x _ => by rw [hfds]) (hs.mono dirsBut_subset)
    (fun ha => absurd ha hdead') (fun ha => absurd ha hdead') (Or.inr hun) fun _ fd => ?_⟩
  · have hdirs : m'.dirs = m.dirs := by
      rw [dirs_of_dead hdead', dirsBut_congr hk hcore, dirs_of_dead hdead]
    have hstacks : m'.stacks = m.stacks := by
      rw [stacks_update hcore]
      refine (congrArg _ ?_).trans (Function.update_eq_self np m.stacks)
      simp only [Mach.stacks, hdead, hdead', if_false]
    rw [hdirs, hstacks, hfds]
    exact ⟨by rw [hft, hends]; exact h.point.files, l, by rw [hc, hends]; exact hfr⟩
  · rw [hfds]
    refine h.procs.idle (np, fd) fun hr => hdead ?_
    exact alive_of_runnable hr

/-- A call has failed: what it took is back, and only an UNUSED slot may look different.  `l` was the
free list. -/
structure Undone (im : KernelImage) (l : List Nat) (m m' : Mach) : Prop where
  state : ∀ q, (m'.proc q).state = (m.proc q).state
  proc : ∀ q, (m.proc q).state ≠ .unused → m'.proc q = m.proc q
  ftable : m'.ftable = m.ftable
  free : ∃ l', m.Frames im ∅ l' m'.phys ∧
    ∀ f, f ∈ l' ↔ f ∈ l
  same : SameDirs m.dirs m.phys m'.phys
  page : ∀ g, m.phys.IsPage m.dirs g → m'.phys.mem g = m.phys.mem g

structure Embryo (im : KernelImage) (l : List Nat) (m m' : Mach) (np : Pid) (k : Nat) : Prop where
  unused : (m.proc np).state = .unused
  state : (m'.proc np).state = .embryo
  kstack : (m'.proc np).kstack = some k
  ofile : (m'.proc np).ofile = (m.proc np).ofile
  proc : ∀ q, q ≠ np → m'.proc q = m.proc q
  ftable : m'.ftable = m.ftable
  ends : m'.ends = m.ends
  kpgdir : m'.kpgdir = m.kpgdir
  cpus : m'.cpus = m.cpus
  mem : m'.phys.mem = m.phys.mem
  frames : ∃ l', l.length = l'.length + 1 ∧
    m.Frames im {k} l' m'.phys

theorem wp_allocproc {E : Option Panic → Prop} {Q : Option Pid → Mach → Prop} (h : Inv im strict m)
    (hfr : m.Frames im ∅ l m.phys)
    (hnone : (∀ p, (m.proc p).state ≠ .unused) ∨ l = [] →
      ∀ m', Inv im strict m' → Undone im l m m' → Q none m')
    (hsome : ∀ np k m', Embryo im l m m' np k → Q (some np) m') : wp E allocproc Q m := by
  unfold allocproc
  rw [wp_bind, wp_mach]
  cases hfind : (List.finRange NPROC).find? fun p => (m.proc p).state = .unused with
  | none =>
    refine hnone (Or.inl fun p hp => ?_) m h ⟨fun _ => rfl, fun _ _ => rfl, rfl,
      ⟨l, hfr, fun _ => Iff.rfl⟩, Same.refl _ _ _, fun _ _ => rfl⟩
    have := List.find?_eq_none.1 hfind p (List.mem_finRange p)
    simp [hp] at this
  | some np =>
    have hun : (m.proc np).state = .unused := by simpa using List.find?_some hfind
    have hdead : ¬(m.proc np).Alive := fun ha => ha.1 hun
    have hupd : ∀ (x y : Proc) q, q ≠ np →
        Function.update (Function.update m.proc np x) np y q = m.proc q := fun x y q hq => by
      rw [Function.update_of_ne hq, Function.update_of_ne hq]
    simp only []
    rw [wp_bind, wp_update, wp_bind, wp_phys]
    refine wp_kalloc hfr (fun hl => ?_) fun k l' s' hl _ hmem h' => ?_
    · simp only []
      rw [wp_bind, wp_setProc]
      refine hnone (Or.inr hl) _
        (h.deadSlot hdead ?_ (hupd _ _) ?_ rfl rfl rfl rfl hfr (Same.refl _ _ _))
        ⟨fun q => ?_, fun q hq => ?_, rfl, ⟨l, hfr, fun _ => Iff.rfl⟩, Same.refl _ _ _, fun _ _ => rfl⟩
      · rw [setProc_proc]
      · rw [setProc_proc]
        simp [Mach.setProc]
      · by_cases hqn : q = np
        · rw [hqn, setProc_proc, hun]
        · exact congrArg Proc.state (hupd _ _ q hqn)
      · exact hupd _ _ q fun he => hq (he ▸ hun)
    · simp only []
      rw [wp_bind, wp_setProc]
      rw [insert_empty_eq] at h'
      refine hsome np k _ ⟨hun, ?_, ?_, ?_, hupd _ _, rfl, rfl, rfl, rfl, hmem, l',
        by rw [hl, List.length_cons], h'⟩
      · rw [setProc_proc]
        simp [Mach.setProc]
      · rw [setProc_proc]
      · rw [setProc_proc]
        simp [Mach.setProc]

/-- Another kernel stack in the table. -/
theorem others_kstack_ne {st : Pid → Option Nat} {cpus : List Nat} {ends : Nat → Ends}
    {v : Option Nat} {y : Other} (hy : y ≠ .kstack p) :
    others (Function.update st p v) cpus ends y = others st cpus ends y := by
  cases y with
  | kstack q =>
    have hq : q ≠ p := fun he => hy (by rw [he])
    simp only [others, Function.update_of_ne hq]
  | cpu j => rfl
  | pipe f => rfl

theorem Embryo.undone {k : Nat} {l₀ : List Nat} {m'' : Mach} (h : Inv im strict m)
    (hfr₀ : m.Frames im ∅ l₀ m.phys)
    (he : Embryo im l₀ m m' np k)
    (hfr : m.Frames im ∅ l m''.phys)
    (hs : Same m.dirs (others m.stacks m.cpus m.ends) m.phys m''.phys)
    (hpage : ∀ g, m.phys.IsPage m.dirs g → m''.phys.mem g = m.phys.mem g)
    (hq : ∀ q, q ≠ np → m''.proc q = m'.proc q) (hun : (m''.proc np).state = .unused)
    (hof : (m''.proc np).ofile = (m'.proc np).ofile) (hft : m''.ftable = m'.ftable)
    (hends : m''.ends = m'.ends) (hk : m''.kpgdir = m'.kpgdir) (hc : m''.cpus = m'.cpus) :
    Inv im strict m'' ∧ Undone im l₀ m m'' := by
  have hdead : ¬(m.proc np).Alive := fun ha => ha.1 he.unused
  have hother : ∀ q, q ≠ np → m''.proc q = m.proc q := fun q hne => (hq q hne).trans (he.proc q hne)
  refine ⟨h.deadSlot hdead hun hother (hof.trans he.ofile) (hft.trans he.ftable) (hends.trans he.ends)
    (hk.trans he.kpgdir) (hc.trans he.cpus) hfr hs.dirs, fun q => ?_,
    fun q hne => hother q fun he' => hne (he' ▸ he.unused), hft.trans he.ftable,
    ⟨l, hfr, hfr₀.free_congr hfr hs⟩, hs.dirs, hpage⟩
  by_cases hqn : q = np
  · rw [hqn, hun, he.unused]
  · rw [hother q hqn]

theorem wp_fork_fails {k : Nat} {l₀ : List Nat} (h : Inv im strict m)
    (hfr₀ : m.Frames im ∅ l₀ m.phys)
    (he : Embryo im l₀ m m' np k)
    (hfr : m.Frames im {k} l s)
    (hs : Same m.dirs (others m.stacks m.cpus m.ends) m.phys s)
    (hpage : ∀ g, m.phys.IsPage m.dirs g → s.mem g = m.phys.mem g) {E : Option Panic → Prop} :
    wp E (do
      setProc np fun x => { x with pgdir := none }
      freeStack im np
      setProc np fun x => { x with state := .unused }
      return (-1 : Int)) (fun r m'' => r = -1 ∧ Inv im strict m'' ∧ Undone im l₀ m m'')
      { m' with phys := s } := by
  rw [wp_bind, wp_setProc, wp_bind]
  unfold freeStack
  rw [wp_bind, wp_mach, setProc_proc]
  simp only [he.kstack]
  rw [wp_bind, wp_phys]
  refine wp_kfree hfr (Set.mem_singleton k) fun h' => ?_
  rw [Set.sdiff_self] at h'
  rw [wp_setProc, wp_bind, wp_setProc]
  have hs' := hs.trans (Frames.same_freed (hfr.pending_not_kept (Set.mem_singleton k)))
  refine ⟨rfl, he.undone h hfr₀ h' hs' (fun g hg => ?_) (fun q hq => ?_) ?_ ?_ rfl rfl rfl rfl⟩
  · have hgk : g ≠ k := fun he' =>
      (hfr.isPage_apart (hg.of_same hs)).2.2 (he' ▸ Set.mem_singleton k)
    exact (Phys.freed_mem _ hgk).trans (hpage g hg)
  · simp only [Mach.setProc]
    rw [Function.update_of_ne hq, Function.update_of_ne hq, Function.update_of_ne hq]
  · rw [setProc_proc]
  · simp only [Mach.setProc, Function.update_self]

theorem Frames.birth {k : Nat} {s : Phys} (hun : (m.proc np).state = .unused)
    (hcore : ∀ q, q ≠ np → (m'.proc q).core = (m.proc q).core) (hkp : m'.kpgdir = m.kpgdir)
    (hrun : (m'.proc np).state = .runnable) (hpg : (m'.proc np).pgdir = some d)
    (hkst : (m'.proc np).kstack = some k)
    (hfr : Frames im im.pages (insert d m.dirs) (others m.stacks m'.cpus m'.ends) {k} l s) :
    m'.Frames im ∅ l s := by
  have hdead : ¬(m.proc np).Alive := fun ha => ha.1 hun
  have halive := alive_of_runnable hrun
  have hdirs : m'.dirs = insert d m.dirs := by
    rw [dirs_of_alive halive hpg, dirsBut_congr hkp hcore, dirs_of_dead hdead]
  have hstacks : m'.stacks = Function.update m.stacks np (some k) := by
    rw [stacks_update hcore]
    congr 1
    rw [Mach.stacks, if_pos halive, hkst]
  rw [Mach.Frames, hdirs, hstacks, ← Set.sdiff_self (s := {k})]
  exact hfr.addOther _ (Set.mem_singleton k) (x := Other.kstack np)
    (by simp [others, Mach.stacks, hdead]) (by simp [others]) fun y hy => others_kstack_ne hy

theorem Inv.birth {k : Nat} (h : Inv im strict m) (hun : (m.proc np).state = .unused)
    (hcore : ∀ q, q ≠ np → (m'.proc q).core = (m.proc q).core) (hkp : m'.kpgdir = m.kpgdir)
    (hfds : ∀ x : Fd, x.1 ≠ np → m'.fds x = m.fds x) (hrun : (m'.proc np).state = .runnable)
    (hpg : (m'.proc np).pgdir = some d) (hkst : (m'.proc np).kstack = some k) (hd : d ∉ m.dirs)
    (hpt : FilePoint im im.pages (insert d m.dirs) m.stacks {k} m'.fds [] m')
    (hs : SameDirs m.dirs m.phys m'.phys) (hI : Image strict m'.phys d (m'.proc np).sz) :
    Inv im strict m' := by
  obtain ⟨hfiles, l, hfr⟩ := hpt
  exact ⟨⟨hfiles, l, .birth hun hcore hkp hrun hpg hkst hfr⟩,
    h.procs.replace np hkp hcore hfds (hs.mono dirsBut_subset)
      (fun _ => ⟨d, hpg, fun hmem => hd (dirsBut_subset hmem), hI⟩) (fun _ => ⟨k, hkst⟩)
      (Or.inl (alive_of_runnable hrun)) fun hne => absurd hrun hne⟩

structure Forked (m : Mach) (p np : Pid) (m' : Mach) : Prop where
  unused : (m.proc np).state = .unused
  runnable : (m'.proc np).state = .runnable
  core : ∀ q, q ≠ np → (m'.proc q).core = (m.proc q).core
  sz : (m'.proc np).sz = (m.proc p).sz
  copies : ∃ d d', (m.proc p).pgdir = some d ∧ (m'.proc np).pgdir = some d' ∧
    ∀ n, n * PGSIZE < (m.proc p).sz → CopyOf m.phys d m'.phys d' n
  same : SameDirs m.dirs m.phys m'.phys
  page : ∀ g, m.phys.IsPage m.dirs g → m'.phys.mem g = m.phys.mem g

/-- No slot is free, or there is too little memory for a copy. -/
def ForkShort (l : List Nat) (p : Pid) (m : Mach) : Prop :=
  (∀ q, (m.proc q).state ≠ .unused) ∨ l.length ≤ copyFrames (m.proc p).sz

theorem wp_fork_copies (h : Inv im strict m) (hp : (m.proc p).Alive) {E : Option Panic → Prop}
    (hfr : m.Frames im ∅ l m.phys)
    (hE : ∀ d, (m.proc p).pgdir = some d → E (some .copyuvmPte) ∧ E (some .copyuvmPage) ∨
      ∀ n, n * PGSIZE < (m.proc p).sz → present (m.phys.pteAt d n) = true) :
    wp E (fork im p) (fun r m' => Inv im strict m' ∧
      ((∃ np, Forked m p np m' ∧ r = (m'.proc np).pid.toInt) ∨
        r = -1 ∧ Undone im l m m' ∧ ForkShort l p m)) m := by
  obtain ⟨pd, hd, hdD, hnd, hbut, hI⟩ := h.pgdir hp
  unfold fork
  rw [wp_bind]
  refine wp_allocproc h hfr (fun hnone m' h' hu => ⟨h', Or.inr ⟨rfl, hu, hnone.imp_right ?_⟩⟩)
    fun np k m₁ he => ?_
  · rintro rfl
    exact Nat.zero_le _
  have hdead : ¬(m.proc np).Alive := fun ha => ha.1 he.unused
  have hpn : p ≠ np := fun hpn => hdead (hpn ▸ hp)
  have hproc : m₁.proc p = m.proc p := he.proc p hpn
  obtain ⟨l₁, hl₁, hfr₁⟩ := he.frames
  have hmem : Same m.dirs (others m.stacks m.cpus m.ends) m.phys m₁.phys := Same.of_mem he.mem
  simp only []
  rw [wp_bind]
  refine wp_pgdirOf (d := pd) (by rw [hproc, hd]) ?_
  rw [wp_bind, wp_mach, hproc, wp_bind, wp_phys]
  have hE₁ : E (some .copyuvmPte) ∧ E (some .copyuvmPage) ∨
      ∀ n, n * PGSIZE < (m.proc p).sz → present (m₁.phys.pteAt pd n) = true :=
    (hE pd hd).imp_right fun hall n hn => by rw [hmem.pte pd hdD, hall n hn]
  have hpage₁ : ∀ {s₂ : Phys}, (∀ g, m₁.phys.IsPage m.dirs g → s₂.mem g = m₁.phys.mem g) →
      ∀ g, m.phys.IsPage m.dirs g → s₂.mem g = m.phys.mem g := fun hpage g hg => by
    rw [hpage g (hg.of_same hmem), he.mem]
  refine wp_copyuvm_copies hfr₁ hdD hI.lt.le hE₁ (fun hshort l₂ s₂ h₂ hs₂ hpage₂ => ?_)
    fun d l₂ s₂ hdnew h₂ hs₂ hpage₂ hK hmaps hcopy => ?_
  · refine wp_mono (wp_fork_fails h hfr he h₂ (hmem.trans hs₂) (hpage₁ hpage₂)) ?_
    rintro r m' ⟨hr, hinv, hu⟩
    exact ⟨hinv, Or.inr ⟨hr, hu, Or.inr (by omega)⟩⟩
  simp only []
  rw [wp_bind, wp_setProc, wp_bind]
  generalize hm₂ : (({ m₁ with phys := s₂ } : Mach).setProc np
    { ({ m₁ with phys := s₂ } : Mach).proc np with
      pgdir := some d, sz := (m.proc p).sz, parent := some p }) = m₂
  have hnp : (m₂.proc np).kstack = some k ∧ (m₂.proc np).pgdir = some d ∧
      (m₂.proc np).sz = (m.proc p).sz := by
    rw [← hm₂, setProc_proc]
    exact ⟨he.kstack, rfl, rfl⟩
  have hq : ∀ q, q ≠ np → m₂.proc q = m.proc q := fun q hq => by
    rw [← hm₂]
    simp only [Mach.setProc]
    rw [Function.update_of_ne hq]
    exact he.proc q hq
  have hfds : m₂.fds = m.fds := by
    funext x
    by_cases hx : x.1 = np
    · rw [Mach.fds, Mach.fds, hx, ← hm₂, setProc_proc]
      exact congrFun he.ofile x.2
    · rw [Mach.fds, Mach.fds, hq _ hx]
  have hpt : FilePoint im im.pages (insert d m.dirs) m.stacks {k} m₂.fds [] m₂ := by
    rw [hfds, ← hm₂]
    refine ⟨?_, l₂, ?_⟩
    · show FilesOk m.fds m₁.ftable m₁.ends []
      rw [he.ftable, he.ends]
      exact h.point.files
    · show Frames im im.pages _ (others m.stacks m₁.cpus m₁.ends) _ _ s₂
      rw [he.cpus, he.ends]
      exact h₂
  have hfree : ∀ fd ∈ List.finRange NOFILE, m₂.fds (np, fd) = none := fun fd _ => by
    rw [hfds]
    exact h.procs.idle (np, fd) fun hr => hdead (alive_of_runnable hr)
  refine wp_mono (wp_dupFiles hpt (List.nodup_finRange _) hfree) ?_
  rintro _ m₃ ⟨hpt₃, hs₃, hphys₃⟩
  rw [wp_bind, wp_setProc, wp_bind, wp_mach]
  have hphys : m₃.phys = s₂ := by rw [hphys₃, ← hm₂]; rfl
  have hc := hs₃.core np
  simp only [Proc.core, Proc.mk.injEq] at hc
  have hself := setProc_proc m₃ np { m₃.proc np with state := .runnable }
  have hfds₃ : (m₃.setProc np { m₃.proc np with state := .runnable }).fds = m₃.fds := fds_setProc _ rfl
  have hcore : ∀ q, q ≠ np →
      ((m₃.setProc np { m₃.proc np with state := .runnable }).proc q).core = (m.proc q).core :=
    fun q hne => by rw [setProc_core_ne m₃ _ hne, hs₃.core q, hq q hne]
  have hpg : (m₃.proc np).pgdir = some d := hc.2.2.2.2.1.trans hnp.2.1
  have hsz : (m₃.proc np).sz = (m.proc p).sz := hc.2.2.2.2.2.1.trans hnp.2.2
  have hsame : SameDirs m.dirs m.phys m₃.phys := by
    rw [hphys]
    exact (hmem.trans hs₂).dirs
  refine ⟨h.birth he.unused hcore ?_ (fun x hx => ?_) (by rw [hself]) (by rw [hself]; exact hpg)
    (by rw [hself]; exact hc.2.2.2.1.trans hnp.1) hdnew
    (by rw [hfds₃]; exact ⟨hpt₃.files, hpt₃.frames⟩) hsame ?_,
    Or.inl ⟨np, ⟨he.unused, by rw [hself], hcore, by rw [hself]; exact hsz,
      ⟨pd, d, hd, by rw [hself]; exact hpg, fun n hn => ?_⟩, hsame, fun g hg => ?_⟩, ?_⟩⟩
  · show m₃.kpgdir = _
    rw [hs₃.kpgdir, ← hm₂]
    exact he.kpgdir
  · rw [hfds₃, hs₃.fds x hx, hfds]
  · rw [hself]
    show Image strict m₃.phys d (m₃.proc np).sz
    rw [hphys, hsz]
    exact ImageOk.image ⟨hK, hmaps, hI.lt⟩
  · show CopyOf m.phys pd m₃.phys d n
    have := hcopy n hn
    rw [hphys]
    simpa only [CopyOf, Phys.pteAt, he.mem] using this
  · show m₃.phys.mem g = _
    rw [hphys, hpage₁ hpage₂ g hg]
  · rfl

theorem wp_fork (h : Inv im strict m) (hp : (m.proc p).Alive) :
    wp (Stops strict) (fork im p) (fun _ m' => Inv im strict m') m := by
  obtain ⟨d, hd, -, -, -, hI⟩ := h.pgdir hp
  obtain ⟨l, hfr⟩ := h.point.frames
  refine wp_mono (wp_fork_copies h hp hfr fun d' hd' => ?_) fun _ _ h' => h'.1
  obtain rfl : d' = d := Option.some.inj (hd'.symm.trans hd)
  by_cases hst : strict
  · exact Or.inr (hI.above hst)
  · exact Or.inl ⟨hst, hst⟩

/-! ## `exit` and `wait` -/

theorem wp_exit (h : Inv im strict m) (hp : (m.proc p).Alive) :
    wp (Stops strict) (exit im p) (fun _ m' => Inv im strict m') m := by
  obtain ⟨d, hd, hdD, hnd, hbut, hI⟩ := h.pgdir hp
  unfold exit
  rw [wp_bind, wp_mach]
  refine wp_ite (fun _ => trivial) fun _ => ?_
  rw [wp_bind]
  refine wp_mono (wp_closeFiles h.point) ?_
  rintro _ m₁ ⟨hpt₁, hs₁, hnone⟩
  rw [wp_bind, wp_update, wp_bind, wp_setProc]
  show Inv im strict ((m₁.reparent p).setProc p { (m₁.reparent p).proc p with state := .zombie })
  generalize hm₂ : (m₁.reparent p).setProc p { (m₁.reparent p).proc p with state := .zombie } = m₂
  have hre : ∀ q, ((m₁.reparent p).proc q).core = (m.proc q).core := fun q => hs₁.core q
  have hcore : ∀ q, q ≠ p → (m₂.proc q).core = (m.proc q).core := fun q hq => by
    rw [← hm₂, setProc_core_ne _ _ hq, hre]
  have hself : m₂.proc p = { (m₁.reparent p).proc p with state := .zombie } := by
    rw [← hm₂, setProc_proc]
  have hcp := hre p
  simp only [Proc.core, Proc.mk.injEq] at hcp
  obtain ⟨-, -, -, hkst, hpg, hsz, -⟩ := hcp
  have halive : (m₂.proc p).Alive := by
    rw [hself]
    simp [Proc.Alive]
  have hfds : m₂.fds = m₁.fds := by
    rw [← hm₂, fds_setProc _ (by rfl)]
    rfl
  have hkp : m₂.kpgdir = m.kpgdir := by
    rw [← hm₂]
    exact hs₁.kpgdir
  have hphys : m₂.phys = m₁.phys := by
    rw [← hm₂]
    rfl
  refine ⟨?_, h.procs.replace p hkp hcore (fun x hx => by rw [hfds, hs₁.fds x hx]) ?_ (fun _ => ?_)
    (fun _ => ?_) (Or.inl halive) fun _ fd => ?_⟩
  · have hdirs : m₂.dirs = m.dirs := by
      rw [dirs_of_alive (d := d) halive (by rw [hself]; exact hpg.trans hd),
        dirsBut_congr hkp hcore, dirs_of_alive hp hd]
    have hstacks : m₂.stacks = m.stacks := by
      rw [stacks_update hcore]
      refine (congrArg _ ?_).trans (Function.update_eq_self p m.stacks)
      simp only [Mach.stacks, halive, hp, if_true]
      rw [hself]
      exact hkst
    rw [hdirs, hstacks, hfds]
    obtain ⟨l₁, hfr₁⟩ := hpt₁.frames
    refine ⟨?_, l₁, ?_⟩
    · rw [← hm₂]
      exact hpt₁.files
    · rw [← hm₂]
      exact hfr₁
  · rw [hphys]
    exact hs₁.same.mono dirsBut_subset
  · refine ⟨d, by rw [hself]; exact hpg.trans hd, hnd, ?_⟩
    rw [hphys, hself, show ({ (m₁.reparent p).proc p with state := .zombie } : Proc).sz =
      (m.proc p).sz from hsz]
    exact hI.of_same hs₁.same hdD
  · obtain ⟨k, hk⟩ := h.procs.stack p hp
    exact ⟨k, by rw [hself]; exact hkst.trans hk⟩
  · rw [hfds]
    exact hnone fd (Or.inl (List.mem_finRange fd))

theorem wp_wait (h : Inv im strict m) :
    wp (Stops strict) (wait im p) (fun _ m' => Inv im strict m') m := by
  obtain ⟨l, hfr⟩ := h.point.frames
  unfold wait
  rw [wp_bind, wp_mach]
  cases hfind : (List.finRange NPROC).find? fun q =>
      (m.proc q).parent = some p ∧ (m.proc q).state = .zombie with
  | none => exact wp_ite (fun _ => wp_atomic.2 trivial) fun _ => h
  | some q =>
    have hz : (m.proc q).state = .zombie := by
      have := List.find?_some hfind
      simp only [decide_eq_true_eq] at this
      exact this.2
    have hq : (m.proc q).Alive := by simp [Proc.Alive, hz]
    obtain ⟨d, hd, hdD, hnd, hbut, hI⟩ := h.pgdir hq
    obtain ⟨k, hk⟩ := h.procs.stack q hq
    -- the stack loses its place, then it is freed
    have hx : others m.stacks m.cpus m.ends (.kstack q) = some k := by
      simp [others, Mach.stacks, hq, hk]
    have hfr₁ := hfr.dropOther (others (Function.update m.stacks q none) m.cpus m.ends) hx
      (by simp [others]) fun y hy => others_kstack_ne hy
    have hin : k ∈ insert k (∅ : Set Nat) := Set.mem_insert k ∅
    simp only []
    rw [wp_bind]
    unfold freeStack
    rw [wp_bind, wp_mach]
    simp only [hk]
    rw [wp_bind, wp_phys]
    refine wp_kfree hfr₁ hin fun hfr₂ => ?_
    rw [insert_sdiff_self (Set.notMem_empty k)] at hfr₂
    have hs₂ := Frames.same_freed (hfr₁.pending_not_kept hin)
    rw [wp_setProc, hd]
    simp only []
    rw [wp_bind, wp_phys]
    refine wp_freevm hfr₂ hdD fun l₃ s₃ hfr₃ hs₃ => ?_
    rw [hbut] at hfr₃ hs₃
    rw [wp_bind, wp_setProc]
    show Inv im strict (({ m with phys := s₃ } : Mach).setProc q _ |>.setProc q _)
    generalize hm' : (({ m with phys := s₃ } : Mach).setProc q _ |>.setProc q _) = m'
    have hun : (m'.proc q).state = .unused := by
      rw [← hm', setProc_proc]
    have hdead : ¬(m'.proc q).Alive := fun ha => ha.1 hun
    have hcore : ∀ r, r ≠ q → (m'.proc r).core = (m.proc r).core := fun r hr => by
      rw [← hm', setProc_core_ne _ _ hr, setProc_core_ne _ _ hr]
    have hfds : m'.fds = m.fds := by
      rw [← hm', fds_setProc _ (by rfl), fds_setProc _ (by rfl)]
      rfl
    refine ⟨?_, h.procs.replace q (by rw [← hm']; rfl) hcore (fun x _ => by rw [hfds]) ?_
      (fun ha => absurd ha hdead) (fun ha => absurd ha hdead) (Or.inr hun) fun _ fd => ?_⟩
    · have hdirs : m'.dirs = m.dirsBut q := by
        rw [dirs_of_dead hdead, dirsBut_congr (by rw [← hm']; rfl) hcore]
      have hstacks : m'.stacks = Function.update m.stacks q none := by
        rw [stacks_update hcore]
        congr 1
        rw [Mach.stacks, if_neg hdead]
      rw [hdirs, hstacks, hfds]
      refine ⟨?_, l₃, ?_⟩
      · rw [← hm']
        exact h.point.files
      · rw [← hm']
        exact hfr₃
    · rw [← hm']
      exact (hs₂.dirs.mono dirsBut_subset).trans hs₃.dirs
    · rw [hfds]
      exact h.procs.idle (q, fd) (by rw [hz]; decide)

/-! ## Every call -/

/-- A `sbrk` that would leave a process of size `sz` without memory. -/
def MemCall.Wipes (sz : Nat) : MemCall → Prop
  | .sbrk n => n.toInt < 0 ∧ uint (sz + n.toNat) = 0
  | _ => False

theorem wp_code (h : Inv im strict m) (hp : (m.proc p).state = .runnable) {c : MemCall}
    (hwipe : strict → ¬c.Wipes (m.proc p).sz) :
    wp (Stops strict) (c.code im p) (fun _ m' => Inv im strict m') m := by
  have halive := alive_of_runnable hp
  cases c with
  | fork => exact wp_fork h halive
  | exec prog argv => exact wp_sysExec h halive
  | sbrk n => exact wp_sysSbrk h halive fun hst hneg h0 => hwipe hst ⟨hneg, h0⟩
  | exit => exact wp_exit h halive
  | wait => exact wp_wait h
  | pipe => exact wp_mono (wp_sysPipe h.point) fun _ m' ⟨hpt, hs⟩ => h.fileStep hp hs hpt
  | close fd => exact wp_mono (wp_sysClose h.point) fun _ m' ⟨hpt, hs⟩ => h.fileStep hp hs hpt
  | store n i w => exact wp_store h halive

theorem Inv.step {c : MemCall} (h : Inv im strict m)
    (hwipe : strict → ¬c.Wipes (m.proc p).sz) :
    (memStep im m (p, c)).Post (Stops strict) fun _ m' => Inv im strict m' := by
  unfold memStep
  split
  next hp =>
    rw [Res.post_bind]
    exact wp_code h hp hwipe
  next => trivial

end Xv6.Vm
