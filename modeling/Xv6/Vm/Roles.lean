import Xv6.Vm.Files

/-!
# Every operation keeps the owners of the pages

`Inv` holds between operations: the frames have their owners, every live process has a
kernel stack and a directory of its own whose user pages lie below its size, and `FilesOk`.  With
`strict`, every page below the size is mapped too.  `wp_code` says that each call keeps `Inv`, whatever
runs out of memory in it, and which panics it can end in.

For `strict` one call needs a condition: `sbrk` that does not shrink the process to nothing.
-/

namespace Xv6.Vm

open Bytes Conc Prog

variable {im : KernelImage} {strict : Prop} {m m' : Mach} {s s' : Phys} {D P : Set Nat}
  {d sz : Nat} {p : Pid} {l : List Nat}

/-! ## The invariant -/

/-- In use, and past its creation: a kernel stack and a directory are its own. -/
def Proc.Alive (x : Proc) : Prop := x.state ≠ .unused ∧ x.state ≠ .embryo

instance (x : Proc) : Decidable x.Alive :=
  inferInstanceAs (Decidable (x.state ≠ .unused ∧ x.state ≠ .embryo))

def Mach.stacks (m : Mach) (p : Pid) : Option Nat :=
  if (m.proc p).Alive then (m.proc p).kstack else none

/-- The directories of the kernel and of the processes but `p`. -/
def Mach.dirsBut (m : Mach) (p : Pid) : Set Nat :=
  {d | d = m.kpgdir ∨ ∃ q, q ≠ p ∧ (m.proc q).Alive ∧ (m.proc q).pgdir = some d}

def Mach.dirs (m : Mach) : Set Nat :=
  {d | d = m.kpgdir ∨ ∃ q, (m.proc q).Alive ∧ (m.proc q).pgdir = some d}

/-- The pages that `kinit1` and `kinit2` free. -/
def KernelImage.pages (im : KernelImage) : Set Nat := {f | im.kend ≤ f ∧ f * PGSIZE < PHYSTOP}

/-- In the memory `s` the frames in use are those of `m`, with `P` on the way and `l` free. -/
abbrev Mach.Frames (m : Mach) (im : KernelImage) (P : Set Nat) (l : List Nat) (s : Phys) : Prop :=
  Vm.Frames im im.pages m.dirs (others m.stacks m.cpus m.ends) P l s

/-- The user part of a directory fits the size of its process. -/
structure Image (strict : Prop) (s : Phys) (d sz : Nat) : Prop where
  kernel : KernelPart s d
  below : ∀ n < USERPAGES, present (s.pteAt d n) = true → n * PGSIZE < sz
  above : strict → ∀ n, n * PGSIZE < sz → present (s.pteAt d n) = true
  lt : sz < KERNBASE

structure ProcsOk (strict : Prop) (m : Mach) : Prop where
  image : ∀ p, (m.proc p).Alive → ∃ d, (m.proc p).pgdir = some d ∧ d ∉ m.dirsBut p ∧
    Image strict m.phys d (m.proc p).sz
  stack : ∀ p, (m.proc p).Alive → ∃ k, (m.proc p).kstack = some k
  settled : ∀ p, (m.proc p).Alive ∨ (m.proc p).state = .unused
  idle : ∀ x : Fd, (m.proc x.1).state ≠ .runnable → m.fds x = none

structure Inv (im : KernelImage) (strict : Prop) (m : Mach) : Prop where
  point : FilePoint im im.pages m.dirs m.stacks ∅ m.fds [] m
  procs : ProcsOk strict m

/-! ## Sets of directories -/

theorem dirs_of_alive (hp : (m.proc p).Alive) (hd : (m.proc p).pgdir = some d) :
    m.dirs = insert d (m.dirsBut p) := by
  ext x
  simp only [Mach.dirs, Mach.dirsBut, Set.mem_ofPred_eq, Set.mem_insert_iff]
  constructor
  · rintro (hx | ⟨q, hq, hqd⟩)
    · exact Or.inr (Or.inl hx)
    · by_cases hqp : q = p
      · subst hqp
        exact Or.inl (Option.some.inj (hqd.symm.trans hd))
      · exact Or.inr (Or.inr ⟨q, hqp, hq, hqd⟩)
  · rintro (rfl | hx | ⟨q, _, hq, hqd⟩)
    · exact Or.inr ⟨p, hp, hd⟩
    · exact Or.inl hx
    · exact Or.inr ⟨q, hq, hqd⟩

theorem dirs_of_dead (hp : ¬(m.proc p).Alive) : m.dirs = m.dirsBut p := by
  ext x
  simp only [Mach.dirs, Mach.dirsBut, Set.mem_ofPred_eq]
  refine or_congr Iff.rfl ⟨?_, ?_⟩
  · rintro ⟨q, hq, hqd⟩
    exact ⟨q, fun he => hp (he ▸ hq), hq, hqd⟩
  · rintro ⟨q, _, hq, hqd⟩
    exact ⟨q, hq, hqd⟩

theorem dirsBut_subset : m.dirsBut p ⊆ m.dirs := by
  rintro x (hx | ⟨q, _, hq, hqd⟩)
  · exact Or.inl hx
  · exact Or.inr ⟨q, hq, hqd⟩

/-- What the other processes have depends on them alone. -/
theorem dirsBut_congr (hk : m'.kpgdir = m.kpgdir)
    (hcore : ∀ q, q ≠ p → (m'.proc q).core = (m.proc q).core) : m'.dirsBut p = m.dirsBut p := by
  ext x
  simp only [Mach.dirsBut, Set.mem_ofPred_eq, hk]
  refine or_congr Iff.rfl (exists_congr fun q => ?_)
  refine and_congr_right fun hq => ?_
  have hc := hcore q hq
  simp only [Proc.core, Proc.mk.injEq] at hc
  rw [Proc.Alive, Proc.Alive, hc.1, hc.2.2.2.2.1]

theorem stacks_update (hcore : ∀ q, q ≠ p → (m'.proc q).core = (m.proc q).core) :
    m'.stacks = Function.update m.stacks p (m'.stacks p) := by
  funext q
  by_cases hq : q = p
  · subst hq
    rw [Function.update_self]
  · have hc := hcore q hq
    simp only [Proc.core, Proc.mk.injEq] at hc
    have halive : (m'.proc q).Alive ↔ (m.proc q).Alive := by rw [Proc.Alive, Proc.Alive, hc.1]
    rw [Function.update_of_ne hq]
    simp only [Mach.stacks, halive, hc.2.2.2.1]

theorem stacks_congr (hcore : ∀ q, (m'.proc q).core = (m.proc q).core) : m'.stacks = m.stacks := by
  funext q
  have hc := hcore q
  simp only [Proc.core, Proc.mk.injEq] at hc
  have halive : (m'.proc q).Alive ↔ (m.proc q).Alive := by rw [Proc.Alive, Proc.Alive, hc.1]
  simp only [Mach.stacks, halive, hc.2.2.2.1]

theorem dirs_congr (hk : m'.kpgdir = m.kpgdir)
    (hcore : ∀ q, (m'.proc q).core = (m.proc q).core) : m'.dirs = m.dirs := by
  ext x
  simp only [Mach.dirs, Set.mem_ofPred_eq, hk]
  refine or_congr Iff.rfl (exists_congr fun q => ?_)
  have hc := hcore q
  simp only [Proc.core, Proc.mk.injEq] at hc
  rw [Proc.Alive, Proc.Alive, hc.1, hc.2.2.2.2.1]

/-! ## Images -/

theorem ImageOk.image (h : ImageOk s d sz) : Image strict s d sz :=
  ⟨h.kernel, fun n hn => (h.maps n hn).1, fun _ _ hn => h.present hn, h.lt⟩

theorem Image.of_same {ι : Type} {oth : ι → Option Nat} (h : Image strict s d sz)
    (hs : Same D oth s s') (hd : d ∈ D) : Image strict s' d sz := by
  refine ⟨h.kernel.of_same hs hd, fun n hn => ?_, fun hst n hn => ?_, h.lt⟩
  · rw [hs.pte d hd]
    exact h.below n hn
  · rw [hs.pte d hd]
    exact h.above hst n hn

/-- `Inv` after one process changed, with the directories of the others untouched. -/
theorem ProcsOk.replace (h : ProcsOk strict m) (p : Pid) (hk : m'.kpgdir = m.kpgdir)
    (hcore : ∀ q, q ≠ p → (m'.proc q).core = (m.proc q).core)
    (hfds : ∀ x : Fd, x.1 ≠ p → m'.fds x = m.fds x)
    (hsame : SameDirs (m.dirsBut p) m.phys m'.phys)
    (hp : (m'.proc p).Alive → ∃ d, (m'.proc p).pgdir = some d ∧ d ∉ m.dirsBut p ∧
      Image strict m'.phys d (m'.proc p).sz)
    (hst : (m'.proc p).Alive → ∃ k, (m'.proc p).kstack = some k)
    (hset : (m'.proc p).Alive ∨ (m'.proc p).state = .unused)
    (hidle : (m'.proc p).state ≠ .runnable → ∀ fd, m'.fds (p, fd) = none) : ProcsOk strict m' := by
  have hbut := dirsBut_congr hk hcore
  have hother : ∀ q, q ≠ p → (m'.proc q).state = (m.proc q).state ∧
      (m'.proc q).kstack = (m.proc q).kstack ∧ (m'.proc q).pgdir = (m.proc q).pgdir ∧
      (m'.proc q).sz = (m.proc q).sz := fun q hq => by
    have hc := hcore q hq
    simp only [Proc.core, Proc.mk.injEq] at hc
    exact ⟨hc.1, hc.2.2.2.1, hc.2.2.2.2.1, hc.2.2.2.2.2.1⟩
  refine ⟨fun q hq => ?_, fun q hq => ?_, fun q => ?_, fun x hx => ?_⟩
  · by_cases hqp : q = p
    · subst hqp
      obtain ⟨d, hd, hnd, hI⟩ := hp hq
      exact ⟨d, hd, by rwa [hbut], hI⟩
    · obtain ⟨hstate, -, hpg, hsz⟩ := hother q hqp
      have hq' : (m.proc q).Alive := by rwa [Proc.Alive, ← hstate]
      obtain ⟨d, hd, hnd, hI⟩ := h.image q hq'
      refine ⟨d, by rw [hpg, hd], fun hmem => ?_, ?_⟩
      · -- the directory of `q` is not the one of `p` either
        rcases hmem with hmem | ⟨r, hr, hra, hrd⟩
        · exact hnd (Or.inl (hmem.trans hk))
        · by_cases hrp : r = p
          · subst hrp
            obtain ⟨d', hd', hnd', -⟩ := hp hra
            rw [hrd, Option.some.injEq] at hd'
            subst hd'
            exact hnd' (Or.inr ⟨q, hqp, hq', hd⟩)
          · obtain ⟨hstate', -, hpg', -⟩ := hother r hrp
            exact hnd (Or.inr ⟨r, hr, by rwa [Proc.Alive, ← hstate'], by rw [← hpg', hrd]⟩)
      · rw [hsz]
        exact hI.of_same hsame (Or.inr ⟨q, hqp, hq', hd⟩)
  · by_cases hqp : q = p
    · subst hqp
      exact hst hq
    · obtain ⟨hstate, hks, -, -⟩ := hother q hqp
      obtain ⟨k, hk'⟩ := h.stack q (by rwa [Proc.Alive, ← hstate])
      exact ⟨k, by rw [hks, hk']⟩
  · by_cases hqp : q = p
    · subst hqp
      exact hset
    · rw [Proc.Alive, (hother q hqp).1]
      exact h.settled q
  · obtain ⟨q, fd⟩ := x
    by_cases hqp : q = p
    · subst hqp
      exact hidle hx fd
    · rw [hfds (q, fd) hqp]
      refine h.idle (q, fd) ?_
      rwa [(hother q hqp).1] at hx

/-! ## Calls -/

/-- How a call may stop: it sleeps, init exits, a string of `exec` falls into the hole below the device
mappings, or `fork` misses a page that only `strict` promises. -/
def Stops (strict : Prop) : Option Panic → Prop
  | none => True
  | some .initExiting => True
  | some .trap => True
  | some .copyuvmPte => ¬strict
  | some .copyuvmPage => ¬strict
  | some _ => False

theorem setProc_self (m : Mach) (p : Pid) : m.setProc p (m.proc p) = m := by
  simp [Mach.setProc]

theorem setProc_proc (m : Mach) (p : Pid) (x : Proc) : (m.setProc p x).proc p = x :=
  Function.update_self _ _ _

theorem setProc_core_ne (m : Mach) {p q : Pid} (x : Proc) (hq : q ≠ p) :
    ((m.setProc p x).proc q).core = (m.proc q).core := by
  rw [show (m.setProc p x).proc q = m.proc q from Function.update_of_ne hq _ _]

theorem fds_setProc_ne (m : Mach) {p : Pid} (x : Proc) {y : Fd} (hy : y.1 ≠ p) :
    (m.setProc p x).fds y = m.fds y := by
  rw [Mach.fds, Mach.fds, show (m.setProc p x).proc y.1 = m.proc y.1 from
    Function.update_of_ne hy _ _]

theorem fds_setProc (m : Mach) {p : Pid} {x : Proc} (hx : x.ofile = (m.proc p).ofile) :
    (m.setProc p x).fds = m.fds := by
  funext y
  by_cases hy : y.1 = p
  · rw [Mach.fds, Mach.fds, hy, setProc_proc, hx]
  · exact fds_setProc_ne m x hy

namespace Inv

variable (h : Inv im strict m)
include h

theorem pgdir (hp : (m.proc p).Alive) : ∃ d, (m.proc p).pgdir = some d ∧ d ∈ m.dirs ∧
    d ∉ m.dirsBut p ∧ m.dirs \ {d} = m.dirsBut p ∧ Image strict m.phys d (m.proc p).sz := by
  obtain ⟨d, hd, hnd, hI⟩ := h.procs.image p hp
  have hdirs := dirs_of_alive hp hd
  exact ⟨d, hd, by rw [hdirs]; exact Set.mem_insert d _, hnd,
    by rw [hdirs, insert_sdiff_self hnd], hI⟩

/-- Files and pipes have changed. -/
theorem fileStep (hp : (m.proc p).state = .runnable) (hs : FileStep p m.dirs m m')
    (hpt : FilePoint im im.pages m.dirs m.stacks ∅ m'.fds [] m') : Inv im strict m' := by
  have hc := hs.core p
  simp only [Proc.core, Proc.mk.injEq] at hc
  obtain ⟨hstate, -, -, hkst, hpg, hsz, -⟩ := hc
  have halive : (m.proc p).Alive := by simp [Proc.Alive, hp]
  have halive' : (m'.proc p).Alive := by rwa [Proc.Alive, hstate]
  refine ⟨?_, h.procs.replace p hs.kpgdir (fun q _ => hs.core q) hs.fds
    (hs.same.mono dirsBut_subset) (fun _ => ?_) (fun _ => ?_) (Or.inl halive')
    fun hne => absurd (hstate.trans hp) hne⟩
  · rw [dirs_congr hs.kpgdir hs.core, stacks_congr hs.core]
    exact hpt
  · obtain ⟨d, hd, hdD, hnd, -, hI⟩ := h.pgdir halive
    rw [hpg, hsz]
    exact ⟨d, hd, hnd, hI.of_same hs.same hdD⟩
  · obtain ⟨k, hk⟩ := h.procs.stack p halive
    exact ⟨k, by rw [hkst, hk]⟩

/-- A process has another directory, or other memory in the one it has, and another size. -/
theorem setImage {sz : Nat} (hp : (m.proc p).Alive) (hd : d ∉ m.dirsBut p)
    (hfr : Frames im im.pages (insert d (m.dirsBut p)) (others m.stacks m.cpus m.ends) ∅ l s)
    (hs : SameDirs (m.dirsBut p) m.phys s) (hI : Image strict s d sz) :
    Inv im strict
      (({ m with phys := s } : Mach).setProc p { m.proc p with pgdir := some d, sz := sz }) := by
  generalize hx : ({ m.proc p with pgdir := some d, sz := sz } : Proc) = x
  have hcore : ∀ q, q ≠ p → ((({ m with phys := s } : Mach).setProc p x).proc q).core =
      (m.proc q).core := fun q hq => setProc_core_ne { m with phys := s } _ hq
  have hself := setProc_proc { m with phys := s } p x
  have hfds : (({ m with phys := s } : Mach).setProc p x).fds = m.fds :=
    fds_setProc _ (by rw [← hx])
  have halive : x.Alive := by
    rw [← hx]
    exact hp
  refine ⟨?_, h.procs.replace p rfl hcore (fun y _ => by rw [hfds]) hs (fun _ => ?_) (fun _ => ?_) ?_
    fun hne fd => ?_⟩
  · have hdirs : (({ m with phys := s } : Mach).setProc p x).dirs = insert d (m.dirsBut p) := by
      rw [dirs_of_alive (p := p) (by rw [hself]; exact halive) (by rw [hself, ← hx]),
        dirsBut_congr (m := m) (by rfl) hcore]
    have hstacks : (({ m with phys := s } : Mach).setProc p x).stacks = m.stacks := by
      rw [stacks_update hcore]
      refine (congrArg _ ?_).trans (Function.update_eq_self p m.stacks)
      simp only [Mach.stacks, hself, halive, hp, if_true]
      rw [← hx]
    rw [hdirs, hstacks, hfds]
    exact ⟨h.point.files, l, hfr⟩
  · rw [hself, ← hx]
    exact ⟨d, rfl, hd, hI⟩
  · rw [hself, ← hx]
    exact h.procs.stack p hp
  · rw [hself]
    exact Or.inl halive
  · rw [hself, ← hx] at hne
    rw [hfds]
    exact h.procs.idle (p, fd) hne

theorem resize {sz : Nat} (hp : (m.proc p).Alive) (hd : (m.proc p).pgdir = some d)
    (hfr : m.Frames im ∅ l s)
    (hs : SameDirs (m.dirsBut p) m.phys s) (hI : Image strict s d sz) :
    Inv im strict (({ m with phys := s } : Mach).setProc p { m.proc p with sz := sz }) := by
  obtain ⟨d', hd', -, hnd, -, -⟩ := h.pgdir hp
  obtain rfl : d' = d := Option.some.inj (hd'.symm.trans hd)
  rw [Mach.Frames, dirs_of_alive hp hd] at hfr
  have := h.setImage hp hnd hfr hs hI
  rwa [← hd] at this

/-- The memory of a process has changed, and not its size. -/
theorem setPhys (hp : (m.proc p).Alive) (hd : (m.proc p).pgdir = some d)
    (hfr : m.Frames im ∅ l s)
    (hs : SameDirs (m.dirsBut p) m.phys s) (hI : Image strict s d (m.proc p).sz) :
    Inv im strict { m with phys := s } := by
  have := h.resize hp hd hfr hs hI
  rwa [show ({ m.proc p with sz := (m.proc p).sz } : Proc) = ({ m with phys := s } : Mach).proc p from
    rfl, setProc_self] at this

end Inv

theorem wp_pgdirOf {E : Option Panic → Prop} {Q : Nat → Mach → Prop}
    (hd : (m.proc p).pgdir = some d) (hQ : Q d m) : wp E (pgdirOf p) Q m := by
  unfold pgdirOf
  rw [wp_bind, wp_mach, hd]
  exact hQ

/-! ## `sbrk` -/

theorem AllocFails.image {ι : Type} {oth : ι → Option Nat} {newsz : Nat}
    (h : AllocFails D oth d (pageUp sz) newsz s s') (hI : Image strict s d sz)
    (hnew : newsz ≤ KERNBASE) : Image strict s' d sz := by
  refine ⟨hI.kernel.of_remaps h.remaps hnew, fun n hn hp => ?_, fun hst n hn => ?_, hI.lt⟩
  · by_cases hr : pageUp sz ≤ n ∧ n * PGSIZE < newsz
    · rw [h.absent n hr.1 hr.2] at hp
      exact absurd hp (by decide)
    · rw [h.remaps.outside n (hn.trans (by decide)) (by omega)] at hp
      exact hI.below n hn hp
  · rw [h.remaps.outside n ((lt_userpages hn hI.lt.le).trans (by decide))
      (Or.inl (lt_pageUp_iff.2 hn))]
    exact hI.above hst n hn

theorem AllocDone.image {ι : Type} {oth : ι → Option Nat} {newsz : Nat}
    (h : AllocDone D oth d (pageUp sz) newsz s s') (hI : Image strict s d sz) (hle : sz ≤ newsz)
    (hnew : newsz < KERNBASE) : Image strict s' d newsz := by
  refine ⟨hI.kernel.of_remaps h.remaps hnew.le, fun n hn hp => ?_, fun hst n hn => ?_, hnew⟩
  · by_contra hge
    rw [h.remaps.outside n (hn.trans (by decide)) (Or.inr (by omega))] at hp
    have := hI.below n hn hp
    omega
  · by_cases hold : n < pageUp sz
    · rw [h.remaps.outside n ((lt_userpages hn hnew.le).trans (by decide)) (Or.inl hold)]
      exact hI.above hst n (lt_pageUp_iff.1 hold)
    · exact h.present n (by omega) hn

/-- The pages above a smaller size are gone; with the old size nothing more can be said of the
others. -/
theorem Unmaps.image {ι : Type} {oth : ι → Option Nat} {newsz : Nat}
    (h : Unmaps D oth d (pageUp newsz) sz s s') (hI : Image strict s d sz) (hlt : newsz < sz) :
    Image strict s' d newsz ∧ (¬strict → Image strict s' d sz) := by
  have hk := hI.kernel.of_remaps h.remaps hI.lt.le
  have hbelow : ∀ n < USERPAGES, present (s'.pteAt d n) = true → n * PGSIZE < newsz := by
    intro n hn hp
    by_cases hr : pageUp newsz ≤ n ∧ n * PGSIZE < sz
    · rw [h.inside n hr.1 hr.2] at hp
      exact absurd hp (by decide)
    · rw [h.outside n (hn.trans (by decide)) (by omega)] at hp
      have := hI.below n hn hp
      rw [← lt_pageUp_iff]
      omega
  refine ⟨⟨hk, hbelow, fun hst n hn => ?_, hlt.trans hI.lt⟩, fun hns =>
    ⟨hk, fun n hn hp => (hbelow n hn hp).trans hlt, fun hst => absurd hst hns, hI.lt⟩⟩
  rw [h.outside n ((lt_userpages (hn.trans hlt) hI.lt.le).trans (by decide))
    (Or.inl (lt_pageUp_iff.2 hn))]
  exact hI.above hst n (hn.trans hlt)

theorem wp_sysSbrk {n : Word} (h : Inv im strict m) (hp : (m.proc p).Alive)
    (hwipe : strict → n.toInt < 0 → uint ((m.proc p).sz + n.toNat) ≠ 0) :
    wp (Stops strict) (sysSbrk im p n) (fun _ m' => Inv im strict m') m := by
  obtain ⟨d, hd, hdD, hnd, hbut, hI⟩ := h.pgdir hp
  obtain ⟨l, hfr⟩ := h.point.frames
  have hgrow : wp (Stops strict) (growproc im p n) (fun _ m' => Inv im strict m') m := by
    unfold growproc
    rw [wp_bind, wp_mach]
    refine wp_ite (fun _ => ?_) fun _ => wp_ite (fun hneg => ?_) fun _ => h
    · rw [wp_bind]
      refine wp_pgdirOf hd ?_
      rw [wp_bind, wp_phys]
      refine wp_allocuvm hfr hdD (fun hnew m' hm hlt => ?_) (fun _ => h) (fun hlt _ => ?_)
        (fun hnew _ _ l' s' h' hf => ?_) fun hnew hle l' s' h' hf _ => ?_
      · rw [← Bool.not_eq_true]
        intro hpr
        have hb := hI.below m' (lt_userpages hlt hnew.le) hpr
        rw [le_pageUp_iff] at hm
        omega
      · refine wp_ite (fun _ => h) fun _ => ?_
        rw [wp_bind, wp_setProc]
        have := h.resize hp hd hfr (Same.refl _ _ _) hI
        exact this
      · exact h.setPhys hp hd h' (hbut ▸ hf.remaps.same.dirs) (hf.image hI hnew.le)
      · refine wp_ite (fun h0 => ?_) fun _ => ?_
        · -- no pages were asked for and there were none
          have hz : (m.proc p).sz = uint ((m.proc p).sz + n.toNat) := by omega
          refine h.setPhys hp hd h' (hbut ▸ hf.remaps.same.dirs) ?_
          rw [hz]
          exact hf.image hI hle hnew
        · rw [wp_bind, wp_setProc]
          exact h.resize hp hd h' (hbut ▸ hf.remaps.same.dirs) (hf.image hI hle hnew)
    · rw [wp_bind]
      refine wp_pgdirOf hd ?_
      rw [wp_bind, wp_phys]
      refine wp_deallocuvm hfr hdD hI.lt.le (fun _ => ?_) fun hlt l' s' h' hu _ => ?_
      · refine wp_ite (fun _ => h) fun _ => ?_
        rw [wp_bind, wp_setProc]
        exact h.resize hp hd hfr (Same.refl _ _ _) hI
      · obtain ⟨hnew, hold⟩ := hu.image hI hlt
        refine wp_ite (fun h0 => ?_) fun _ => ?_
        · exact h.setPhys hp hd h' (hbut ▸ hu.same.dirs) (hold fun hst => hwipe hst hneg h0)
        · rw [wp_bind, wp_setProc]
          exact h.resize hp hd h' (hbut ▸ hu.same.dirs) hnew
  unfold sysSbrk
  rw [wp_bind, wp_mach, wp_bind]
  refine wp_mono hgrow fun r m' h' => ?_
  exact wp_ite (fun _ => h') fun _ => h'

end Xv6.Vm
