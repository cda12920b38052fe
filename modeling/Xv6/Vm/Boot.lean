import Xv6.Vm.Calls

/-!
# Boot

`main` frees the pages below 4 MB, takes the kernel's directory and the stacks of the other CPUs
from them, frees the rest and makes the first process.  `wp_main`: this ends in a state with `Inv`
in which the first process is the only one and has one page of memory.
-/

namespace Xv6.Vm

open Bytes Conc Prog

variable {im : KernelImage} {strict : Prop} {E : Option Panic → Prop} {mem : Nat → Nat → Word}
  {m m' : Mach} {R D P : Set Nat} {l : List Nat} {s : Phys} {f n : Nat}

/-! ## `freerange` -/

section Freerange

variable {ι : Type} {oth : ι → Option Nat}

theorem Frames.not_kept (h : Frames im R D oth P l s) (hf : f ∉ R) : ¬s.Kept D oth l f := by
  rintro ((hl | hD | ⟨d, hd, i, ht⟩) | ⟨x, hx⟩)
  · exact hf (h.sub f hl)
  · exact hf (h.dir_mem hD).1
  · exact hf (h.table_mem hd ht).1
  · exact hf (h.own.used_of_ref (i := .other x) hx).1

theorem Frames.addPage (h : Frames im R D oth P l s) (hf : f ∉ R) (hlo : im.kend ≤ f)
    (hhi : f * PGSIZE < PHYSTOP) : Frames im (insert f R) D oth P (f :: l) (s.freed f) where
  range g hg := by
    rcases Set.mem_insert_iff.1 hg with rfl | hg
    · exact ⟨hlo, hhi⟩
    · exact h.range g hg
  chain := h.chain.freed fun hl => hf (h.sub f hl)
  nodup := List.nodup_cons.2 ⟨fun hl => hf (h.sub f hl), h.nodup⟩
  sub g hg := by
    rcases List.mem_cons.1 hg with rfl | hg
    · exact Set.mem_insert g R
    · exact Set.mem_insert_of_mem f (h.sub g hg)
  own := h.own.congr (refs_congr (Frames.same_freed (h.not_kept hf)))
    (fun g => by
      simp only [Set.mem_ofPred_eq, Set.mem_insert_iff, List.mem_cons]
      constructor
      · rintro ⟨rfl | hg, hl⟩
        · exact absurd (Or.inl rfl) hl
        · exact ⟨hg, fun hl' => hl (Or.inr hl')⟩
      · rintro ⟨hg, hl⟩
        refine ⟨Or.inr hg, ?_⟩
        rintro (rfl | hl')
        · exact hf hg
        · exact hl hl')
    fun _ => Iff.rfl

theorem wp_freerange {Q : Unit → Phys → Prop} (h : Frames im R D oth P l s)
    (hR : ∀ f, n ≤ f → f ∉ R) (hlo : im.kend ≤ n) (k : Nat) (hhi : (n + k) * PGSIZE ≤ PHYSTOP)
    (hQ : ∀ l' s', Frames im (R ∪ {f | n ≤ f ∧ f < n + k}) D oth P l' s' →
      l'.length = l.length + k → Q () s') : wp E (freerange im k n) Q s := by
  induction k generalizing n l s R with
  | zero =>
    refine hQ l s ?_ rfl
    rw [show ({f | n ≤ f ∧ f < n + 0} : Set Nat) = ∅ by ext f; simp, Set.union_empty]
    exact h
  | succ k ih =>
    have hn : n * PGSIZE < PHYSTOP := by
      simp only [PGSIZE, PHYSTOP] at hhi ⊢
      omega
    have hnext : (n + 1 + k) * PGSIZE ≤ PHYSTOP := by
      rw [show n + 1 + k = n + (k + 1) by omega]
      exact hhi
    unfold freerange
    rw [wp_bind]
    refine wp_atomic.2 ?_
    rw [if_neg (by omega)]
    refine ih (h.addPage (hR n le_rfl) hlo hn) (fun f hf => ?_) (by omega) hnext fun l' s' h' hl => hQ l' s' ?_ (by rw [hl, List.length_cons]; omega)
    · rintro (rfl | hfR)
      · omega
      · exact hR f (by omega) hfR
    · convert h' using 1
      ext f
      simp only [Set.mem_union, Set.mem_insert_iff, Set.mem_ofPred_eq]
      by_cases hf : f ∈ R
      · simp [hf]
      · simp only [hf, false_or, or_false]
        omega

end Freerange

/-! ## Before the first process -/

/-- There are no processes and no open files yet. -/
structure Booting (im : KernelImage) (mem : Nat → Nat → Word) (R D : Set Nat) (l : List Nat) (m : Mach) :
    Prop where
  rest : m = { Mach.reset mem with phys := m.phys, cpus := m.cpus, kpgdir := m.kpgdir }
  frames : Frames im R D (others (fun _ => none) m.cpus m.ends) ∅ l m.phys

theorem Booting.reset : Booting im mem ∅ ∅ [] (Mach.reset mem) where
  rest := rfl
  frames :=
    { range := nofun
      chain := rfl
      nodup := List.nodup_nil
      sub := nofun
      own := by
        have hnone : ∀ p, (Mach.reset mem).phys.refs ∅
            (others (fun _ => none) (Mach.reset mem).cpus (Mach.reset mem).ends) p = none := by
          rintro (d | ⟨d, i⟩ | ⟨d, n⟩ | (p | k | f))
          · simp [Phys.refs]
          · simp [Phys.refs]
          · simp [Phys.refs]
          · rfl
          · rfl
          · rfl
        refine ⟨fun f => ?_, fun i j f hi => ?_, fun i f hi => ?_⟩
        · simp [hnone]
        · simp [hnone] at hi
        · simp [hnone] at hi }

/-- Memory has changed. -/
theorem Booting.setPhys {R' D' : Set Nat} {l' : List Nat} (h : Booting im mem R D l m)
    (hfr : Frames im R' D' (others (fun _ => none) m.cpus m.ends) ∅ l' s) :
    Booting im mem R' D' l' { m with phys := s } := by
  refine ⟨?_, hfr⟩
  conv_lhs => rw [h.rest]

theorem wp_kvmalloc {Q : Unit → Mach → Prop} (h : Booting im mem R ∅ l m)
    (hE : KVMPAGES ≤ l.length ∨ E (some .trap))
    (hQ : ∀ l' m', Booting im mem R {m'.kpgdir} l' m' → 0 < l.length →
      l.length ≤ l'.length + KVMPAGES → Q () m') :
    wp E (kvmalloc im) Q m := by
  unfold kvmalloc
  rw [wp_bind, wp_phys]
  refine wp_setupkvm h.frames (fun hl _ _ _ _ => ?_) fun d l' s' _ h' _ _ _ hl hhead => ?_
  · exact hE.resolve_left (by omega)
  · simp only []
    rw [wp_update]
    have hb := h.setPhys h'
    have hpos : 0 < l.length := List.length_pos_of_mem (List.mem_of_head? hhead)
    refine hQ l' _ ⟨?_, ?_⟩ hpos hl
    · conv_lhs => rw [hb.rest]
    · rw [insert_empty_eq] at h'
      exact h'

theorem others_cpu_ne {st : Pid → Option Nat} {cpus : List Nat} {ends : Nat → Ends} {y : Other}
    (hy : y ≠ .cpu cpus.length) : others st (cpus ++ [f]) ends y = others st cpus ends y := by
  cases y with
  | kstack p => rfl
  | cpu k =>
    have hk : k ≠ cpus.length := fun he => hy (by rw [he])
    simp only [others]
    rcases Nat.lt_or_gt_of_ne hk with hk | hk
    · rw [List.getElem?_append_left hk]
    · rw [List.getElem?_eq_none (by simp; omega), List.getElem?_eq_none (by omega)]
  | pipe g => rfl

theorem wp_startothers {Q : Unit → Mach → Prop} (k : Nat) (h : Booting im mem R {m.kpgdir} l m)
    (hE : k ≤ l.length ∨ E (some .trap))
    (hQ : ∀ l' m', Booting im mem R {m'.kpgdir} l' m' → l.length = l'.length + k → Q () m') :
    wp E (startothers k) Q m := by
  induction k generalizing l m with
  | zero => exact hQ l m h rfl
  | succ k ih =>
    unfold startothers mustAlloc
    rw [wp_bind, wp_bind, wp_phys]
    refine wp_kalloc h.frames (fun hl => ?_) fun f l' s' hl _ _ h' => ?_
    · exact hE.resolve_left (by simp [hl])
    · have hb := h.setPhys h.frames
      have h'' := h'.addOther (others (fun _ => none) (m.cpus ++ [f]) m.ends) (Set.mem_insert f ∅)
        (x := Other.cpu m.cpus.length)
        (by simp [others]) (by simp [others]) fun y hy => others_cpu_ne hy
      rw [insert_sdiff_self (Set.notMem_empty f)] at h''
      rw [wp_pure, wp_bind, wp_update]
      refine ih ⟨?_, h''⟩ ?_ fun l'' m'' h₂ hl₂ => hQ l'' m'' h₂ ?_
      · conv_lhs => rw [h.rest]
      · refine hE.imp_left fun hle => ?_
        rw [hl, List.length_cons] at hle
        omega
      · rw [hl, List.length_cons]
        omega

theorem Booting.inv (strict : Prop) (h : Booting im mem im.pages {m.kpgdir} l m) :
    Inv im strict m ∧ m.Frames im ∅ l m.phys := by
  have hproc : ∀ p, m.proc p = ⟨.unused, 0, none, none, none, 0, fun _ => none⟩ := fun p => by
    rw [h.rest]
    rfl
  have hdead : ∀ p, ¬(m.proc p).Alive := fun p ha => by
    rw [hproc] at ha
    exact ha.1 rfl
  have hfds : m.fds = fun _ => none := funext fun x => by rw [Mach.fds, hproc]
  have hdirs : m.dirs = {m.kpgdir} := by
    ext d
    simp only [Mach.dirs, Set.mem_ofPred_eq, Set.mem_singleton_iff]
    refine or_iff_left ?_
    rintro ⟨q, hq, -⟩
    exact hdead q hq
  have hstacks : m.stacks = fun _ => none := funext fun p => if_neg (hdead p)
  have hfr : m.Frames im ∅ l m.phys := by
    rw [Mach.Frames, hdirs, hstacks]
    exact h.frames
  have hft : m.ftable = fun _ => ⟨0, none, false⟩ := by
    rw [h.rest]
    rfl
  have hends : m.ends = fun _ => ⟨false, false⟩ := by
    rw [h.rest]
    rfl
  refine ⟨⟨⟨?_, l, hfr⟩, fun p hp => absurd hp (hdead p), fun p hp => absurd hp (hdead p),
    fun p => Or.inr (by rw [hproc]), fun x _ => by rw [hfds]⟩, hfr⟩
  rw [hfds, hft, hends]
  refine ⟨fun f => by simp [held], fun _ _ => rfl, fun f k hf => ?_, fun f g k hf => ?_, fun k b hb => ?_⟩
  · cases hf
  · cases hf
  · cases b <;> exact absurd hb (by decide)

/-! ## The first process -/

/-- The machine after boot: one process, with one page of memory at address 0. -/
structure Booted (im : KernelImage) (strict : Prop) (m : Mach) : Prop where
  inv : Inv im strict m
  init : (m.proc m.initproc).state = .runnable
  size : (m.proc m.initproc).sz = PGSIZE
  page : ∃ d f, (m.proc m.initproc).pgdir = some d ∧
    m.phys.pteAt d 0 = entry f (PTE_W ||| PTE_U ||| PTE_P)
  alone : ∀ p, p ≠ m.initproc → (m.proc p).state = .unused
  files : ∀ x, m.fds x = none
  /-- most of the memory is free -/
  room : ∃ l, Frames im im.pages m.dirs (others m.stacks m.cpus m.ends) ∅ l m.phys ∧ 50000 ≤ l.length

/-- The only page of the first process is there. -/
theorem Booted.mapped (h : Booted im strict m) {d : Nat}
    (hd : (m.proc m.initproc).pgdir = some d) {n : Nat} (hn : n * PGSIZE < (m.proc m.initproc).sz) :
    present (m.phys.pteAt d n) = true := by
  obtain ⟨d', f, hd', hpte⟩ := h.page
  obtain rfl : d = d' := Option.some.inj (hd.symm.trans hd')
  rw [h.size] at hn
  obtain rfl : n = 0 := by
    simp only [PGSIZE] at hn
    omega
  rw [hpte, present_entry]
  rfl

theorem wp_inituvm {ι : Type} {oth : ι → Option Nat} {d : Nat} {init : Nat → Byte}
    {Q : Unit → Phys → Prop} (h : Frames im R D oth P l s) (hd : d ∈ D)
    (habs : present (s.pteAt d 0) = false) (hl : 2 ≤ l.length)
    (hE : n < PGSIZE ∨ E (some .inituvm))
    (hQ : ∀ f l' s', Frames im R D oth P l' s' →
      MapsPage D P oth d 0 (entry f (PTE_W ||| PTE_U ||| PTE_P)) s s' →
      l.length ≤ l'.length + 2 → Q () s') : wp E (inituvm d init n) Q s := by
  unfold inituvm
  refine wp_ite (fun hn => hE.resolve_left (by omega)) fun _ => ?_
  rw [wp_bind]
  refine wp_kalloc h (fun hl' => by simp [hl'] at hl) fun f l₁ s₁ hl₁ hfP hmem h₁ => ?_
  have hin : f ∈ insert f P := Set.mem_insert f P
  have hs₁ : Same D oth s s₁ := Same.of_mem hmem
  simp only []
  rw [wp_bind, wp_clear]
  obtain ⟨h₂, hs₂⟩ := h₁.quiet_setPage (h₁.pending_not_kept hin) fun _ => 0
  have hs := hs₁.trans hs₂
  rw [wp_bind]
  refine wp_mappages_user (n := 0) h₂ hd (by decide) (by rw [hs.pte d hd, habs]) hin (by decide)
    (fun _ hl₂ => ?_) fun l₃ s₃ h₃ hm₃ hl₃ => ?_
  · simp [hl₁, hl₂] at hl
  · rw [insert_sdiff_self hfP] at h₃
    rw [wp_setPage]
    have hp : present (s₃.pteAt d 0) = true := by
      rw [hm₃.self, present_entry]
      rfl
    have hframe : frame (s₃.pteAt d 0) = f := by
      rw [hm₃.self]
      exact frame_entry (h₁.lt_of_mem (h₁.pending_mem hin).1) (by decide)
    obtain ⟨h₄, hs₄⟩ := h₃.quiet_setPage (hframe ▸ h₃.page_not_kept hd (by decide) hp)
      (patch 0 n init (s₃.mem f))
    refine hQ f l₃ _ h₄ ⟨?_, ?_, fun d' hd' j hj hne => ?_, fun d' hd' j hj hne => ?_,
      fun hp₀ => ?_, fun x g hx => ?_, fun g hg => ?_, fun g hg => ?_⟩ (by rw [hl₁, List.length_cons]; omega)
    · rw [hs₄.pte d hd, hm₃.self]
    · rw [hs₄.pde d hd _ (pdx_lt 0), hm₃.table]
    · rw [hs₄.pte d' hd', hm₃.pte d' hd' j hj hne, hs.pte d' hd']
    · rw [hs₄.pde d' hd' j hj, hm₃.pde d' hd' j hj hne, hs.pde d' hd' j hj]
    · have hpde := hs.pde d hd _ (pdx_lt 0)
      rw [hs₄.pde d hd _ (pdx_lt 0), hm₃.kept (by rw [hpde, hp₀]), hpde]
    · rw [hs₄.mem x g hx, hm₃.mem x g hx, hs.mem x g hx]
    · have hg₂ := hg.of_same hs
      have hgf : g ≠ f := fun he => (h₂.isPage_apart hg₂).2.2 (he ▸ hin)
      rw [show (s₃.setPage f _).mem g = s₃.mem g from Function.update_of_ne hgf _ _, hm₃.page g hg₂,
        ← hmem]
      exact Function.update_of_ne hgf _ _
    · have hgf : g ≠ f := fun he => hfP (he ▸ hg)
      rw [show (s₃.setPage f _).mem g = s₃.mem g from Function.update_of_ne hgf _ _,
        hm₃.pending g (Set.mem_insert_of_mem f hg), ← hmem]
      exact Function.update_of_ne hgf _ _

theorem MapsPage.image {ι : Type} {oth : ι → Option Nat} {d : Nat} {s' : Phys} {w : Word}
    (h : MapsPage D P oth d 0 w s s') (hd : d ∈ D) (hw : present w = true) (hK : KernelPart s d)
    (hu : ∀ n < USERPAGES, present (s.pteAt d n) = false) : Image strict s' d PGSIZE := by
  have hne : ∀ n, 0 < n → n < NPAGES → s'.pteAt d n = s.pteAt d n := fun n hn hlt =>
    h.pte d hd n hlt (Or.inr (by omega))
  refine ⟨⟨fun n hlo hhi hmap => ?_, fun n hlo hhi => ?_, fun i hlo hhi => ?_⟩, fun n hn hp => ?_,
    fun _ n hn => ?_, by decide⟩
  · rw [hne n (by simp only [USERPAGES, KERNBASE, PGSIZE] at hlo; omega) hhi, hK.mapped n hlo hhi hmap]
  · rw [hne n (by simp only [USERPAGES, KERNBASE, PGSIZE] at hlo; omega) hhi, hK.noUser n hlo hhi]
  · simp only [KERNBASE, PHYSTOP, DEVSPACE, PGSIZE] at hlo hhi
    rw [h.pde d hd i (by simp only [NPDENTRIES]; omega) (Or.inr (by simp only [pdx]; omega))]
    exact hK.hole i (by simp only [KERNBASE, PHYSTOP, PGSIZE]; omega)
      (by simp only [DEVSPACE, PGSIZE]; omega)
  · rcases Nat.eq_zero_or_pos n with rfl | hpos
    · decide
    · rw [hne n hpos (hn.trans (by decide)), hu n hn] at hp
      exact absurd hp (by decide)
  · have hn0 : n = 0 := by
      simp only [PGSIZE] at hn
      omega
    rw [hn0, h.self, hw]

theorem wp_userinit {init : Nat → Byte} (h : Booting im mem im.pages {m.kpgdir} l m)
    (hl : 50070 ≤ l.length) (hE : n < PGSIZE ∨ E (some .inituvm)) :
    wp E (userinit im init n) (fun _ m' => Booted im strict m') m := by
  obtain ⟨hinv, hfr⟩ := h.inv strict
  have hproc : ∀ p, m.proc p = ⟨.unused, 0, none, none, none, 0, fun _ => none⟩ := fun p => by
    rw [h.rest]
    rfl
  unfold userinit
  rw [wp_bind]
  refine wp_allocproc hinv hfr (fun hnone _ _ _ => ?_) fun np k m₁ he => ?_
  · rcases hnone with hall | rfl
    · exact absurd (by rw [hproc]) (hall 0)
    · exact absurd hl (by decide)
  obtain ⟨l₁, hl₁, hfr₁⟩ := he.frames
  have hmem : Same m.dirs (others m.stacks m.cpus m.ends) m.phys m₁.phys := Same.of_mem he.mem
  simp only []
  rw [wp_bind, wp_update, wp_bind, wp_phys]
  refine wp_setupkvm hfr₁ (fun hl' _ _ _ _ => ?_) fun d l₂ s₂ hdnew h₂ hs₂ hK hu hl₂ _ => ?_
  · simp only [KVMPAGES] at hl'
    omega
  have hd : d ∈ insert d m.dirs := Set.mem_insert d _
  simp only [KVMPAGES] at hl₂
  simp only []
  rw [wp_bind, wp_phys]
  refine wp_inituvm h₂ hd (hu 0 (by decide)) (by omega) hE fun f l₃ s₃ h₃ hm₃ hl₃ => ?_
  rw [wp_setProc]
  generalize hm' : Mach.setProc _ np _ = m'
  have hself : m'.proc np = { m₁.proc np with pgdir := some d, sz := PGSIZE, state := .runnable } := by
    rw [← hm', setProc_proc]
  have hq : ∀ q, q ≠ np → m'.proc q = m.proc q := fun q hq => by
    rw [← hm', ← he.proc q hq]
    exact Function.update_of_ne hq _ _
  have hinit : m'.initproc = np := by
    rw [← hm']
    rfl
  have hphys : m'.phys = s₃ := by
    rw [← hm']
    rfl
  have hfds : ∀ x, m'.fds x = none := fun x => by
    by_cases hx : x.1 = np
    · rw [Mach.fds, hx, hself]
      show (m₁.proc np).ofile x.2 = none
      rw [he.ofile, hproc]
    · rw [Mach.fds, hq _ hx, hproc]
  have hfds' : m'.fds = m.fds := funext fun x => by rw [hfds, Mach.fds, hproc]
  have hcore : ∀ q, q ≠ np → (m'.proc q).core = (m.proc q).core := fun q hne => by rw [hq q hne]
  have hkp : m'.kpgdir = m.kpgdir := by
    rw [← hm']
    exact he.kpgdir
  have hrun : (m'.proc np).state = .runnable := by rw [hself]
  have hpg : (m'.proc np).pgdir = some d := by rw [hself]
  have hkst : (m'.proc np).kstack = some k := by
    rw [hself]
    exact he.kstack
  have hfr' : Frames im im.pages (insert d m.dirs) (others m.stacks m'.cpus m'.ends) {k} l₃ m'.phys := by
    rw [← hm']
    show Frames im im.pages _ (others m.stacks m₁.cpus m₁.ends) _ _ s₃
    rw [he.cpus, he.ends]
    exact h₃
  have hft : FilesOk m'.fds m'.ftable m'.ends [] := by
    rw [hfds', ← hm']
    show FilesOk m.fds m₁.ftable m₁.ends []
    rw [he.ftable, he.ends]
    exact hinv.point.files
  have hs : SameDirs m.dirs m.phys m'.phys := by
    rw [hphys]
    have hs₃ := hm₃.same
    rw [insert_sdiff_self hdnew] at hs₃
    exact ((hmem.trans hs₂).trans hs₃).dirs
  refine ⟨hinv.birth he.unused hcore hkp (fun x _ => by rw [hfds']) hrun hpg hkst hdnew
    ⟨hft, l₃, hfr'⟩ hs ?_, by rw [hinit, hrun], by rw [hinit, hself], ⟨d, f, ?_, ?_⟩, fun p hp => ?_,
    hfds, l₃, .birth he.unused hcore hkp hrun hpg hkst hfr', by omega⟩
  · rw [hself, hphys]
    exact hm₃.image hd (by rw [present_entry]; rfl) hK hu
  · rw [hinit, hpg]
  · rw [hphys, hm₃.self]
  · rw [hinit] at hp
    rw [hq p hp, hproc]

/-- Boot succeeds when the pages below 4 MB suffice and the code of the first process fits in a
page; otherwise it stops. -/
theorem wp_main {init : Nat → Byte} {cpus : Nat}
    (hroom : im.kend + KVMPAGES + cpus ≤ 1024 ∨ E (some .trap))
    (hE : n < PGSIZE ∨ E (some .inituvm)) :
    wp E (main im cpus init n) (fun _ m' => Booted im strict m') (Mach.reset mem) := by
  have hk := im.kend_lt
  simp only [PGSIZE, PHYSTOP] at hk
  unfold main
  rw [wp_bind, wp_phys]
  refine wp_freerange (Booting.reset : Booting im mem ∅ ∅ [] _).frames (fun _ _ => Set.notMem_empty _) le_rfl _
    (by simp only [PGSIZE, PHYSTOP]; omega) fun l₁ s₁ h₁ hl₁ => ?_
  have hb₁ := Booting.reset.setPhys h₁
  simp only [List.length_nil, KVMPAGES] at hl₁ hroom
  rw [wp_bind]
  refine wp_kvmalloc hb₁ (hroom.imp_left fun hr => by simp only [KVMPAGES]; omega) fun l₂ m₂ hb₂ hpos hl₂ => ?_
  simp only [KVMPAGES] at hl₂
  rw [wp_bind]
  refine wp_startothers cpus hb₂ (hroom.imp_left fun hr => by omega) fun l₃ m₃ hb₃ hl₃ => ?_
  rw [wp_bind, wp_phys]
  refine wp_freerange hb₃.frames (fun f hf => ?_) (by omega) _ (by decide) fun l₄ s₄ h₄ hl₄ => ?_
  · simp only [Set.empty_union, Set.mem_ofPred_eq]
    omega
  · have hpages : ∅ ∪ {f | im.kend ≤ f ∧ f < im.kend + (1024 - im.kend)} ∪
        {f | 1024 ≤ f ∧ f < 1024 + (PHYSTOP / PGSIZE - 1024)} = im.pages := by
      ext f
      simp only [Set.empty_union, Set.mem_union, Set.mem_ofPred_eq, KernelImage.pages, PGSIZE, PHYSTOP]
      omega
    rw [hpages] at h₄
    exact wp_userinit (hb₃.setPhys h₄) (by simp only [PGSIZE, PHYSTOP] at hl₄; omega) hE

end Xv6.Vm
