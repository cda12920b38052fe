import Xv6.Vm.Machine

/-!
# The file table and the pages of pipes

`FilesOk`: the reference count of a file is the number of descriptors for it (and of the
references that code has in hand), and each open end of a pipe has one file.  Hence the last
close of a pipe, and no other, frees its page.
-/

namespace Xv6.Vm

open Bytes Conc Prog

variable {E : Option Panic → Prop} {m m' : Mach}

/-! ## Sections -/

theorem wp_phys {α : Type} {p : V α} {Q : α → Mach → Prop} :
    wp E (phys p) Q m ↔ wp E p (fun a s => Q a { m with phys := s }) m.phys := by
  have hrun : (phys p).run m = (p.run m.phys).bind fun a s => .ok a { m with phys := s } :=
    run_zoom (by intros; rfl) (by intros; rfl) (by intros; rfl) p m
  unfold wp
  rw [hrun, Res.post_bind]
  rfl

theorem wp_update {α : Type} {f : Mach → α × Mach} {Q : α → Mach → Prop} :
    wp E (update f) Q m ↔ Q (f m).1 (f m).2 := wp_atomic

theorem wp_mach {Q : Mach → Mach → Prop} : wp E mach Q m ↔ Q m m := wp_atomic

theorem wp_setProc {p : Pid} {g : Proc → Proc} {Q : Unit → Mach → Prop} :
    wp E (setProc p g) Q m ↔ Q () (m.setProc p (g (m.proc p))) := wp_atomic

theorem wp_setFile {f : FileIdx} {g : File → File} {Q : Unit → Mach → Prop} :
    wp E (setFile f g) Q m ↔ Q () (m.setFile f (g (m.ftable f))) := wp_atomic

/-! ## The invariant -/

/-- Whether the end of a pipe is open: the one for writing, or the one for reading. -/
def Ends.isOpen (e : Ends) (writable : Bool) : Bool := if writable then e.writeopen else e.readopen

def Ends.live (e : Ends) : Bool := e.readopen || e.writeopen

theorem Ends.isOpen_close (e : Ends) (w b : Bool) :
    (e.close w).isOpen b = (decide (b ≠ w) && e.isOpen b) := by
  cases w <;> cases b <;> rfl

theorem Ends.live_iff {e : Ends} : e.live = true ↔ ∃ b, e.isOpen b = true := by
  simp [Ends.live, Ends.isOpen]

/-- A descriptor of a process. -/
abbrev Fd := Pid × Fin NOFILE

/-- The open files of all processes. -/
def Mach.fds (m : Mach) (x : Fd) : Option FileIdx := (m.proc x.1).ofile x.2

/-- Descriptors that refer to `f`. -/
def held (fds : Fd → Option FileIdx) (f : FileIdx) : Nat := ∑ x, if fds x = some f then 1 else 0

structure FilesOk (fds : Fd → Option FileIdx) (ft : FileIdx → File) (ends : Nat → Ends)
    (extra : List FileIdx) : Prop where
  ref : ∀ f, (ft f).ref = held fds f + extra.count f
  closed : ∀ f, (ft f).ref = 0 → (ft f).pipe = none
  opened : ∀ f k, (ft f).pipe = some k → (ends k).isOpen (ft f).writable = true
  inj : ∀ f g k, (ft f).pipe = some k → (ft g).pipe = some k →
    (ft f).writable = (ft g).writable → f = g
  owner : ∀ k b, (ends k).isOpen b = true → ∃ f, (ft f).pipe = some k ∧ (ft f).writable = b

variable {fds : Fd → Option FileIdx} {ft : FileIdx → File} {ends : Nat → Ends}
  {extra extra' : List FileIdx} {x : Fd} {f f₀ f₁ : FileIdx} {k : Nat}

/-- One descriptor changes. -/
theorem held_update (fds : Fd → Option FileIdx) (x : Fd) (v : Option FileIdx) (f : FileIdx) :
    held (Function.update fds x v) f + (if fds x = some f then 1 else 0) =
      held fds f + if v = some f then 1 else 0 := by
  have := sum_add_of_eq_off x (f := fun y => if fds y = some f then 1 else 0)
    (g := fun y => if Function.update fds x v y = some f then 1 else 0)
    fun y hy => by rw [Function.update_of_ne hy]
  simpa only [held, Function.update_self] using this

namespace FilesOk

/-- A reference in hand goes to a free descriptor. -/
theorem install (h : FilesOk fds ft ends (f :: extra)) (hfree : fds x = none) :
    FilesOk (Function.update fds x (some f)) ft ends extra where
  ref g := by
    have hheld := held_update fds x (some f) g
    have href := h.ref g
    rw [hfree] at hheld
    simp only [List.count_cons, beq_iff_eq, Option.some.injEq, reduceCtorEq, if_false] at hheld href
    omega
  closed := h.closed
  opened := h.opened
  inj := h.inj
  owner := h.owner

/-- The reference of a descriptor is taken in hand. -/
theorem take (h : FilesOk fds ft ends extra) (hx : fds x = some f) :
    FilesOk (Function.update fds x none) ft ends (f :: extra) where
  ref g := by
    have hheld := held_update fds x none g
    have href := h.ref g
    rw [hx] at hheld
    simp only [List.count_cons, beq_iff_eq, Option.some.injEq, reduceCtorEq, if_false] at hheld ⊢
    omega
  closed := h.closed
  opened := h.opened
  inj := h.inj
  owner := h.owner

theorem pos (h : FilesOk fds ft ends (f :: extra)) : 0 < (ft f).ref := by
  rw [h.ref f, List.count_cons_self]
  omega

theorem pos_of_fd (h : FilesOk fds ft ends extra) (hx : fds x = some f) : 0 < (ft f).ref :=
  (h.take hx).pos

theorem setRef {n : Nat} (h : FilesOk fds ft ends extra) (hn : n = held fds f + extra'.count f)
    (hne : ∀ g, g ≠ f → extra'.count g = extra.count g) (h0 : n = 0 → (ft f).pipe = none) :
    FilesOk fds (Function.update ft f { ft f with ref := n }) ends extra' := by
  have hpipe : ∀ g, (Function.update ft f { ft f with ref := n } g).pipe = (ft g).pipe := by
    intro g
    by_cases hg : g = f
    · subst hg
      simp
    · simp [hg]
  have hwr : ∀ g, (Function.update ft f { ft f with ref := n } g).writable = (ft g).writable := by
    intro g
    by_cases hg : g = f
    · subst hg
      simp
    · simp [hg]
  refine ⟨fun g => ?_, fun g => ?_, fun g k => ?_, fun g g' k => ?_, fun k b => ?_⟩
  · by_cases hg : g = f
    · subst hg
      rw [Function.update_self, hn]
    · rw [Function.update_of_ne hg, h.ref g, hne g hg]
  · rw [hpipe]
    by_cases hg : g = f
    · subst hg
      rw [Function.update_self]
      exact h0
    · rw [Function.update_of_ne hg]
      exact h.closed g
  · rw [hpipe, hwr]
    exact h.opened g k
  · rw [hpipe, hpipe, hwr, hwr]
    exact h.inj g g' k
  · simp only [hpipe, hwr]
    exact h.owner k b

theorem count_cons_of_ne {g : FileIdx} (hg : g ≠ f) : (f :: extra).count g = extra.count g :=
  List.count_cons_of_ne (Ne.symm hg)

/-- One more reference. -/
theorem dup (h : FilesOk fds ft ends extra) (hpos : 0 < (ft f).ref) :
    FilesOk fds (Function.update ft f { ft f with ref := (ft f).ref + 1 }) ends (f :: extra) :=
  h.setRef (by rw [h.ref f, List.count_cons_self]; omega) (fun _ hg => count_cons_of_ne hg)
    fun h0 => by omega

/-- `fileclose`, when other references are left. -/
theorem unref (h : FilesOk fds ft ends (f :: extra)) (hmore : 0 < (ft f).ref - 1) :
    FilesOk fds (Function.update ft f { ft f with ref := (ft f).ref - 1 }) ends extra :=
  h.setRef (by rw [h.ref f, List.count_cons_self]; omega)
    (fun _ hg => (count_cons_of_ne hg).symm) fun h0 => by omega

theorem alloc (h : FilesOk fds ft ends extra) (hfree : (ft f).ref = 0) :
    FilesOk fds (Function.update ft f { ft f with ref := 1 }) ends (f :: extra) := by
  have := h.ref f
  refine h.setRef ?_ (fun _ hg => count_cons_of_ne hg) fun h0 => absurd h0 (by omega)
  rw [List.count_cons_self]
  omega

theorem last (h : FilesOk fds ft ends (f :: extra)) (hone : (ft f).ref = 1)
    (hpipe : (ft f).pipe = none) :
    FilesOk fds (Function.update ft f { ft f with ref := 0, pipe := none }) ends extra := by
  have hff : ({ ft f with ref := 0, pipe := none } : File) = { ft f with ref := 0 } := by
    rw [← hpipe]
  rw [hff]
  have := h.ref f
  rw [List.count_cons_self] at this
  exact h.setRef (by omega) (fun _ hg => (count_cons_of_ne hg).symm) fun _ => hpipe

theorem closeEnd (h : FilesOk fds ft ends (f :: extra)) (hone : (ft f).ref = 1)
    (hpipe : (ft f).pipe = some k) :
    FilesOk fds (Function.update ft f { ft f with ref := 0, pipe := none })
      (Function.update ends k ((ends k).close (ft f).writable)) extra := by
  have href := h.ref f
  rw [List.count_cons_self] at href
  -- the files of the other ends
  have hother : ∀ g k', g ≠ f → (ft g).pipe = some k' →
      (Function.update ends k ((ends k).close (ft f).writable) k').isOpen (ft g).writable = true := by
    intro g k' hg hgk
    have hopen := h.opened g k' hgk
    by_cases hk : k' = k
    · subst hk
      have hwr : (ft g).writable ≠ (ft f).writable := fun he => hg (h.inj g f k' hgk hpipe he)
      rw [Function.update_self, Ends.isOpen_close, hopen]
      simp [hwr]
    · rwa [Function.update_of_ne hk]
  refine ⟨fun g => ?_, fun g => ?_, fun g k' => ?_, fun g g' k' => ?_, fun k' b => ?_⟩
  · by_cases hg : g = f
    · subst hg
      rw [Function.update_self]
      show 0 = _
      omega
    · rw [Function.update_of_ne hg, h.ref g, count_cons_of_ne hg]
  · by_cases hg : g = f
    · subst hg
      simp
    · rw [Function.update_of_ne hg]
      exact h.closed g
  · by_cases hg : g = f
    · subst hg
      simp
    · rw [Function.update_of_ne hg]
      exact hother g k' hg
  · by_cases hg : g = f
    · subst hg
      simp
    · by_cases hg' : g' = f
      · subst hg'
        simp
      · rw [Function.update_of_ne hg, Function.update_of_ne hg']
        exact h.inj g g' k'
  · intro hb
    have hb' : (ends k').isOpen b = true ∧ (k' = k → b ≠ (ft f).writable) := by
      by_cases hk : k' = k
      · subst hk
        rw [Function.update_self, Ends.isOpen_close] at hb
        simp only [Bool.and_eq_true, decide_eq_true_eq] at hb
        exact ⟨hb.2, fun _ => hb.1⟩
      · rw [Function.update_of_ne hk] at hb
        exact ⟨hb, fun he => absurd he hk⟩
    obtain ⟨g, hgk, hgb⟩ := h.owner k' b hb'.1
    have hg : g ≠ f := by
      rintro rfl
      rw [hpipe, Option.some.injEq] at hgk
      exact hb'.2 hgk.symm hgb.symm
    exact ⟨g, by rwa [Function.update_of_ne hg], by rwa [Function.update_of_ne hg]⟩

/-- An end that was closed is given to a file without a pipe. -/
theorem openEnd {w : Bool} {e : Ends} (h : FilesOk fds ft ends extra) (hpos : 0 < (ft f).ref)
    (hpipe : (ft f).pipe = none) (hshut : (ends k).isOpen w = false)
    (he : ∀ b, e.isOpen b = (decide (b = w) || (ends k).isOpen b)) :
    FilesOk fds (Function.update ft f { ft f with pipe := some k, writable := w })
      (Function.update ends k e) extra := by
  have hopen : ∀ k' b, (Function.update ends k e k').isOpen b = true ↔
      k' = k ∧ b = w ∨ (ends k').isOpen b = true := by
    intro k' b
    by_cases hk : k' = k
    · subst hk
      simp [he]
    · simp [hk]
  have hnew : ∀ g, (ft g).pipe = some k → w ≠ (ft g).writable := by
    rintro g hg rfl
    rw [h.opened g k hg] at hshut
    cases hshut
  refine ⟨fun g => ?_, fun g => ?_, fun g k' => ?_, fun g g' k' => ?_, fun k' b hb => ?_⟩
  · by_cases hg : g = f
    · subst hg
      rw [Function.update_self, h.ref g]
    · rw [Function.update_of_ne hg, h.ref g]
  · by_cases hg : g = f
    · subst hg
      rw [Function.update_self]
      exact fun h0 => absurd h0 hpos.ne'
    · rw [Function.update_of_ne hg]
      exact h.closed g
  · rw [hopen]
    by_cases hg : g = f
    · subst hg
      rw [Function.update_self]
      exact fun hk => Or.inl ⟨(Option.some.inj hk).symm, rfl⟩
    · rw [Function.update_of_ne hg]
      exact fun hk => Or.inr (h.opened g k' hk)
  · by_cases hg : g = f <;> by_cases hg' : g' = f
    · exact fun _ _ _ => hg.trans hg'.symm
    · rw [hg, Function.update_self, Function.update_of_ne hg']
      rintro ⟨⟩ hk hw
      exact absurd hw (hnew g' hk)
    · rw [hg', Function.update_self, Function.update_of_ne hg]
      rintro hk ⟨⟩ hw
      exact absurd hw.symm (hnew g hk)
    · rw [Function.update_of_ne hg, Function.update_of_ne hg']
      exact h.inj g g' k'
  · rcases (hopen k' b).1 hb with ⟨rfl, rfl⟩ | hb
    · exact ⟨f, by rw [Function.update_self], by rw [Function.update_self]⟩
    · obtain ⟨g, hgk, hgb⟩ := h.owner k' b hb
      have hg : g ≠ f := by
        rintro rfl
        rw [hpipe] at hgk
        cases hgk
      exact ⟨g, by rwa [Function.update_of_ne hg], by rwa [Function.update_of_ne hg]⟩

theorem openPipe (h : FilesOk fds ft ends (f₁ :: f₀ :: extra)) (hne : f₁ ≠ f₀)
    (h₀ : (ft f₀).pipe = none) (h₁ : (ft f₁).pipe = none) (hk : (ends k).live = false) :
    FilesOk fds (Function.update (Function.update ft f₀ { ft f₀ with pipe := some k, writable := false })
      f₁ { ft f₁ with pipe := some k, writable := true })
      (Function.update ends k ⟨true, true⟩) (f₁ :: f₀ :: extra) := by
  have hclosed : ∀ b, (ends k).isOpen b = false := fun b => by
    rw [← Bool.not_eq_true]
    intro hb
    rw [Ends.live_iff.2 ⟨b, hb⟩] at hk
    cases hk
  have hpos : 0 < (ft f₀).ref := by
    rw [h.ref f₀, List.count_cons_of_ne hne, List.count_cons_self]
    omega
  have hread := h.openEnd (e := ⟨true, false⟩) hpos h₀ (hclosed false) fun b => by
    rw [hclosed]
    cases b <;> rfl
  have hboth := hread.openEnd (f := f₁) (k := k) (w := true) (e := ⟨true, true⟩)
  rw [Function.update_of_ne hne, Function.update_self, Function.update_idem] at hboth
  exact hboth h.pos h₁ rfl fun b => by cases b <;> rfl

end FilesOk

/-! ## The pages of stacks and pipes -/

/-- The places of frames that are in no directory. -/
inductive Other where
  | kstack (p : Pid)
  | cpu (k : Nat)
  | pipe (f : Nat)

def others (st : Pid → Option Nat) (cpus : List Nat) (ends : Nat → Ends) : Other → Option Nat
  | .kstack p => st p
  | .cpu k => cpus[k]?
  | .pipe f => if (ends f).live then some f else none

variable {st : Pid → Option Nat} {cpus : List Nat} {e : Ends}

theorem others_pipe_ne {y : Other} (hy : y ≠ .pipe k) :
    others st cpus (Function.update ends k e) y = others st cpus ends y := by
  cases y with
  | kstack p => rfl
  | cpu j => rfl
  | pipe f =>
    have hf : f ≠ k := fun he => hy (by rw [he])
    simp only [others, Function.update_of_ne hf]

theorem others_pipe_live (h : e.live = (ends k).live) :
    others st cpus (Function.update ends k e) = others st cpus ends := by
  funext y
  by_cases hy : y = .pipe k
  · subst hy
    simp only [others, Function.update_self, h]
  · exact others_pipe_ne hy

/-! ## Rules -/

/-- All of a process but its parent and its open files. -/
def Proc.core (x : Proc) : Proc := { x with parent := none, ofile := fun _ => none }

/-- The directories of `D` and their tables are the same. -/
abbrev SameDirs (D : Set Nat) (s s' : Phys) : Prop := Same D (fun x : Empty => x.elim) s s'

theorem Same.dirs {ι : Type} {D : Set Nat} {oth : ι → Option Nat} {s s' : Phys}
    (h : Same D oth s s') : SameDirs D s s' := ⟨h.pde, h.pte, nofun⟩

/-- Files, pipes and descriptors of one process have changed, and no directory of `D`. -/
structure FileStep (who : Pid) (D : Set Nat) (m m' : Mach) : Prop where
  core : ∀ p, (m'.proc p).core = (m.proc p).core
  fds : ∀ x : Fd, x.1 ≠ who → m'.fds x = m.fds x
  initproc : m'.initproc = m.initproc
  kpgdir : m'.kpgdir = m.kpgdir
  cpus : m'.cpus = m.cpus
  same : SameDirs D m.phys m'.phys

variable {im : KernelImage} {R D P : Set Nat} {l : List Nat} {who : Pid} {m'' : Mach}

namespace FileStep

theorem refl (who : Pid) (D : Set Nat) (m : Mach) : FileStep who D m m :=
  ⟨fun _ => rfl, fun _ _ => rfl, rfl, rfl, rfl, Same.refl _ _ _⟩

theorem trans (h : FileStep who D m m') (h' : FileStep who D m' m'') : FileStep who D m m'' :=
  ⟨fun p => (h'.core p).trans (h.core p), fun x hx => (h'.fds x hx).trans (h.fds x hx),
    h'.initproc.trans h.initproc, h'.kpgdir.trans h.kpgdir, h'.cpus.trans h.cpus,
    h.same.trans h'.same⟩

theorem of_proc (hp : m'.proc = m.proc) (hi : m'.initproc = m.initproc) (hk : m'.kpgdir = m.kpgdir)
    (hc : m'.cpus = m.cpus) (hs : SameDirs D m.phys m'.phys) : FileStep who D m m' :=
  ⟨fun p => by rw [hp], fun x _ => by rw [Mach.fds, Mach.fds, hp], hi, hk, hc, hs⟩

end FileStep

/-- The state of files, pipes and memory at a point of the code. -/
structure FilePoint (im : KernelImage) (R D : Set Nat) (st : Pid → Option Nat) (P : Set Nat)
    (fds : Fd → Option FileIdx) (extra : List FileIdx) (m : Mach) : Prop where
  files : FilesOk fds m.ftable m.ends extra
  frames : ∃ l, Frames im R D (others st m.cpus m.ends) P l m.phys

theorem wp_fileclose (who : Pid) (h : FilePoint im R D st P fds (f :: extra) m) :
    wp E (fileclose im f)
      (fun _ m' => FilePoint im R D st P fds extra m' ∧ m'.proc = m.proc ∧ FileStep who D m m') m := by
  obtain ⟨hF, l, hfr⟩ := h
  have hpos := hF.pos
  unfold fileclose
  rw [wp_bind, wp_mach, if_neg (by omega)]
  refine wp_ite (fun hmore => ?_) fun hlast => ?_
  · rw [wp_setFile]
    exact ⟨⟨hF.unref hmore, l, hfr⟩, rfl, .of_proc rfl rfl rfl rfl (Same.refl _ _ _)⟩
  have hone : (m.ftable f).ref = 1 := by omega
  rw [wp_bind, wp_setFile]
  cases hp : (m.ftable f).pipe with
  | none => exact ⟨⟨hF.last hone hp, l, hfr⟩, rfl, .of_proc rfl rfl rfl rfl (Same.refl _ _ _)⟩
  | some k =>
    have hF' := hF.closeEnd hone hp
    have hlive : (m.ends k).live = true := Ends.live_iff.2 ⟨_, hF.opened f k hp⟩
    simp only []
    unfold pipeclose
    rw [wp_bind, wp_update, wp_bind, wp_mach]
    simp only [Mach.setEnds, Mach.setFile, Function.update_self]
    refine wp_ite (fun hdead => ?_) fun hdead => ?_
    · -- both ends are closed now: the page has no place any more
      have hnl : ((m.ends k).close (m.ftable f).writable).live = false := by
        simpa [Ends.live] using hdead
      have hx : others st m.cpus m.ends (.pipe k) = some k := by simp [others, hlive]
      have hkP : k ∉ P := hfr.own.not_pending (.other (.pipe k)) k hx
      have hfr₁ := hfr.dropOther
        (others st m.cpus (Function.update m.ends k ((m.ends k).close (m.ftable f).writable))) hx
        (by simp [others, hnl]) fun y hy => others_pipe_ne hy
      have hin : k ∈ insert k P := Set.mem_insert k P
      rw [wp_phys]
      refine wp_kfree hfr₁ hin fun hfr₂ => ?_
      rw [insert_sdiff_self hkP] at hfr₂
      exact ⟨⟨hF', _, hfr₂⟩, rfl, .of_proc rfl rfl rfl rfl
        (Frames.same_freed (hfr₁.pending_not_kept hin)).dirs⟩
    · have hl' : ((m.ends k).close (m.ftable f).writable).live = (m.ends k).live := by
        rw [hlive, Ends.live]
        revert hdead
        cases ((m.ends k).close (m.ftable f).writable).readopen <;>
          cases ((m.ends k).close (m.ftable f).writable).writeopen <;> simp
      refine ⟨⟨hF', l, ?_⟩, rfl, .of_proc rfl rfl rfl rfl (Same.refl _ _ _)⟩
      show Frames im R D (others st m.cpus (Function.update m.ends k _)) P l m.phys
      rwa [others_pipe_live hl']

theorem wp_filealloc (who : Pid) (h : FilePoint im R D st P fds extra m) :
    wp E filealloc (fun r m' => (r = none ∧ m' = m) ∨ ∃ f, r = some f ∧
      FilePoint im R D st P fds (f :: extra) m' ∧ (m'.ftable f).pipe = none ∧ (m.ftable f).ref = 0 ∧
      (∀ g, (m'.ftable g).pipe = (m.ftable g).pipe) ∧ m'.phys = m.phys ∧ m'.proc = m.proc ∧
      FileStep who D m m') m := by
  obtain ⟨hF, l, hfr⟩ := h
  unfold filealloc
  rw [wp_update]
  cases hfind : (List.finRange NFILE).find? fun f => (m.ftable f).ref = 0 with
  | none => exact Or.inl ⟨rfl, rfl⟩
  | some f =>
    have hfree : (m.ftable f).ref = 0 := by simpa using List.find?_some hfind
    have hpipe : ∀ g, ((m.setFile f { m.ftable f with ref := 1 }).ftable g).pipe =
        (m.ftable g).pipe := fun g => by
      by_cases hg : g = f
      · subst hg
        simp [Mach.setFile]
      · simp [Mach.setFile, hg]
    refine Or.inr ⟨f, rfl, ⟨hF.alloc hfree, l, hfr⟩, ?_, hfree, hpipe, rfl, rfl,
      .of_proc rfl rfl rfl rfl (Same.refl _ _ _)⟩
    rw [hpipe, hF.closed f hfree]

theorem wp_pipealloc (who : Pid) (h : FilePoint im R D st P fds extra m) :
    wp E (pipealloc im) (fun r m' => m'.proc = m.proc ∧ FileStep who D m m' ∧
      (r = none ∧ FilePoint im R D st P fds extra m' ∨
        ∃ f₀ f₁, r = some (f₀, f₁) ∧ FilePoint im R D st P fds (f₁ :: f₀ :: extra) m')) m := by
  unfold pipealloc
  rw [wp_bind]
  refine wp_mono (wp_filealloc who h) ?_
  rintro r m₁ (⟨rfl, rfl⟩ | ⟨f₀, rfl, h₁, hp₀, -, -, -, hproc₁, hs₁⟩)
  · exact ⟨rfl, .refl _ _ _, Or.inl ⟨rfl, h⟩⟩
  simp only []
  rw [wp_bind]
  refine wp_mono (wp_filealloc who h₁) ?_
  rintro r m₂ (⟨rfl, rfl⟩ | ⟨f₁, rfl, h₂, hp₁, hfree, hpipe, hphys, hproc₂, hs₂⟩)
  · simp only []
    rw [wp_bind]
    refine wp_mono (wp_fileclose who h₁) ?_
    rintro _ m₃ ⟨h₃, hproc₃, hs₃⟩
    exact ⟨hproc₃.trans hproc₁, hs₁.trans hs₃, Or.inl ⟨rfl, h₃⟩⟩
  have hne : f₁ ≠ f₀ := by
    rintro rfl
    have := h₁.files.pos
    omega
  have hs := hs₁.trans hs₂
  have hproc := hproc₂.trans hproc₁
  obtain ⟨l₂, hfr₂⟩ := h₂.frames
  simp only []
  rw [wp_bind, wp_phys]
  refine wp_kalloc hfr₂ (fun _ => ?_) fun k l₃ s₃ hl hkP hmem hfr₃ => ?_
  · -- no page for the pipe: both files are closed again
    simp only []
    have h₂' : FilePoint im R D st P fds (f₀ :: f₁ :: extra) m₂ :=
      ⟨⟨fun g => by rw [h₂.files.ref g, (List.Perm.swap f₀ f₁ extra).count_eq], h₂.files.closed,
        h₂.files.opened, h₂.files.inj, h₂.files.owner⟩, h₂.frames⟩
    rw [wp_bind]
    refine wp_mono (wp_fileclose who h₂') ?_
    rintro _ m₃ ⟨h₃, hproc₃, hs₃⟩
    rw [wp_bind]
    refine wp_mono (wp_fileclose who h₃) ?_
    rintro _ m₄ ⟨h₄, hproc₄, hs₄⟩
    exact ⟨(hproc₄.trans hproc₃).trans hproc, (hs.trans hs₃).trans hs₄, Or.inl ⟨rfl, h₄⟩⟩
  · have hin : k ∈ insert k P := Set.mem_insert k P
    have hlive : (m₂.ends k).live = false := by
      rw [← Bool.not_eq_true]
      intro hl'
      exact hfr₃.own.not_pending (.other (.pipe k)) k (by simp [Phys.refs, others, hl']) hin
    have hfr₄ := hfr₃.addOther (others st m₂.cpus (Function.update m₂.ends k ⟨true, true⟩)) hin
      (x := Other.pipe k) (by simp [others, hlive]) (by simp [others, Ends.live]) fun y hy => others_pipe_ne hy
    rw [insert_sdiff_self hkP] at hfr₄
    have hp₀' : (m₂.ftable f₀).pipe = none := by rw [hpipe, hp₀]
    have hF := h₂.files.openPipe hne hp₀' hp₁ hlive
    simp only []
    rw [wp_bind, wp_update, wp_bind, wp_setFile, wp_bind, wp_setFile]
    refine ⟨hproc, hs.trans (.of_proc rfl rfl rfl rfl (Same.of_mem hmem)),
      Or.inr ⟨f₀, f₁, rfl, ?_, l₃, hfr₄⟩⟩
    simp only [Mach.setFile, Mach.setEnds, Function.update_of_ne hne]
    exact hF

/-! ## Descriptors -/

variable {p : Pid} {fd : Fin NOFILE} {v : Option FileIdx}

/-- The machine after one descriptor changed. -/
def Mach.setFd (m : Mach) (p : Pid) (fd : Fin NOFILE) (v : Option FileIdx) : Mach :=
  m.setProc p { m.proc p with ofile := Function.update (m.proc p).ofile fd v }

theorem fds_setFd (m : Mach) (p : Pid) (fd : Fin NOFILE) (v : Option FileIdx) :
    (m.setFd p fd v).fds = Function.update m.fds (p, fd) v := by
  funext ⟨q, d⟩
  by_cases hq : q = p
  · subst hq
    by_cases hd : d = fd
    · subst hd
      simp [Mach.fds, Mach.setFd, Mach.setProc]
    · have : (q, d) ≠ (q, fd) := fun he => hd (Prod.ext_iff.1 he).2
      simp [Mach.fds, Mach.setFd, Mach.setProc, hd]
  · have : (q, d) ≠ (p, fd) := fun he => hq (Prod.ext_iff.1 he).1
    simp [Mach.fds, Mach.setFd, Mach.setProc, hq]

theorem fileStep_setFd (D : Set Nat) (m : Mach) (p : Pid) (fd : Fin NOFILE) (v : Option FileIdx) :
    FileStep p D m (m.setFd p fd v) := by
  refine ⟨fun q => ?_, fun x hx => ?_, rfl, rfl, rfl, Same.refl _ _ _⟩
  · by_cases hq : q = p
    · subst hq
      simp [Mach.setFd, Mach.setProc, Proc.core]
    · simp [Mach.setFd, Mach.setProc, hq]
  · have : x ≠ (p, fd) := fun he => hx (by rw [he])
    rw [fds_setFd, Function.update_of_ne this]

theorem FilePoint.setFd (h : FilePoint im R D st P fds extra m) (p : Pid) (fd : Fin NOFILE)
    (v : Option FileIdx) : FilePoint im R D st P fds extra (m.setFd p fd v) := ⟨h.files, h.frames⟩

theorem wp_clearFd {Q : Unit → Mach → Prop} :
    wp E (clearFd p fd) Q m ↔ Q () (m.setFd p fd none) := wp_atomic

theorem wp_fdalloc {Q : Option (Fin NOFILE) → Mach → Prop} (hnone : Q none m)
    (hsome : ∀ fd, m.fds (p, fd) = none → Q (some fd) (m.setFd p fd (some f))) :
    wp E (fdalloc p f) Q m := by
  unfold fdalloc
  rw [wp_update]
  cases hfind : (List.finRange NOFILE).find? fun fd => (m.proc p).ofile fd = none with
  | none => exact hnone
  | some fd => exact hsome fd (show (m.proc p).ofile fd = none by simpa using List.find?_some hfind)

theorem wp_sysPipe (h : FilePoint im R D st P m.fds [] m) :
    wp E (sysPipe im p) (fun _ m' => FilePoint im R D st P m'.fds [] m' ∧ FileStep p D m m') m := by
  unfold sysPipe
  rw [wp_bind]
  refine wp_mono (wp_pipealloc p h) ?_
  rintro r m₁ ⟨hproc, hs₁, ⟨rfl, h₁⟩ | ⟨rf, wf, rfl, h₁⟩⟩
  · have hfds : m₁.fds = m.fds := funext fun x => by rw [Mach.fds, Mach.fds, hproc]
    rw [← hfds] at h₁
    exact ⟨h₁, hs₁⟩
  have hfds : m₁.fds = m.fds := funext fun x => by rw [Mach.fds, Mach.fds, hproc]
  rw [← hfds] at h₁
  have h₁' : FilePoint im R D st P m₁.fds [rf, wf] m₁ :=
    ⟨⟨fun g => by rw [h₁.files.ref g, (List.Perm.swap rf wf []).count_eq], h₁.files.closed,
      h₁.files.opened, h₁.files.inj, h₁.files.owner⟩, h₁.frames⟩
  -- both files are closed again when a descriptor is missing
  have hclose : ∀ m₂, FilePoint im R D st P m₂.fds [rf, wf] m₂ → FileStep p D m m₂ →
      wp E (do fileclose im rf; fileclose im wf; pure (-1)) (fun (_ : Int) m' =>
        FilePoint im R D st P m'.fds [] m' ∧ FileStep p D m m') m₂ := by
    intro m₂ h₂ hs₂
    rw [wp_bind]
    refine wp_mono (wp_fileclose p h₂) ?_
    rintro _ m₃ ⟨h₃, hproc₃, hs₃⟩
    rw [wp_bind]
    refine wp_mono (wp_fileclose p h₃) ?_
    rintro _ m₄ ⟨h₄, hproc₄, hs₄⟩
    have hfds : m₄.fds = m₂.fds := funext fun x => by
      rw [Mach.fds, Mach.fds, hproc₄, hproc₃]
    rw [← hfds] at h₄
    exact ⟨h₄, (hs₂.trans hs₃).trans hs₄⟩
  simp only []
  rw [wp_bind]
  refine wp_fdalloc (hclose m₁ h₁' hs₁) fun fd₀ hfree₀ => ?_
  have h₂ : FilePoint im R D st P (m₁.setFd p fd₀ (some rf)).fds [wf] (m₁.setFd p fd₀ (some rf)) := by
    rw [fds_setFd]
    exact ⟨h₁'.files.install hfree₀, h₁'.frames⟩
  have hs₂ := hs₁.trans (fileStep_setFd D m₁ p fd₀ (some rf))
  simp only []
  rw [wp_bind]
  refine wp_fdalloc ?_ fun fd₁ hfree₁ => ?_
  · simp only []
    rw [wp_bind, wp_clearFd]
    refine hclose _ ?_ (hs₂.trans (fileStep_setFd D _ p fd₀ none))
    rw [fds_setFd]
    have hx : (m₁.setFd p fd₀ (some rf)).fds (p, fd₀) = some rf := by
      rw [fds_setFd, Function.update_self]
    exact ⟨h₂.files.take hx, h₂.frames⟩
  · refine ⟨?_, hs₂.trans (fileStep_setFd D _ p fd₁ (some wf))⟩
    rw [fds_setFd]
    exact ⟨h₂.files.install hfree₁, h₂.frames⟩

theorem wp_sysClose (h : FilePoint im R D st P m.fds [] m) :
    wp E (sysClose im p fd) (fun _ m' => FilePoint im R D st P m'.fds [] m' ∧ FileStep p D m m') m := by
  unfold sysClose
  rw [wp_bind, wp_mach]
  cases hfd : (m.proc p).ofile fd with
  | none => exact ⟨h, .refl _ _ _⟩
  | some f =>
    simp only []
    rw [wp_bind, wp_clearFd]
    have h₁ : FilePoint im R D st P (m.setFd p fd none).fds [f] (m.setFd p fd none) := by
      rw [fds_setFd]
      exact ⟨h.files.take (x := (p, fd)) hfd, h.frames⟩
    rw [wp_bind]
    refine wp_mono (wp_fileclose p h₁) ?_
    rintro _ m₂ ⟨h₂, hproc, hs₂⟩
    have hfds : m₂.fds = (m.setFd p fd none).fds := funext fun x => by rw [Mach.fds, Mach.fds, hproc]
    rw [← hfds] at h₂
    exact ⟨h₂, (fileStep_setFd D m p fd none).trans hs₂⟩

/-- The loop of `exit`: `fileclose` runs while the descriptor still refers to the file. -/
theorem wp_closeFiles {fdl : List (Fin NOFILE)} (h : FilePoint im R D st P m.fds [] m) :
    wp E (closeFiles im p fdl) (fun _ m' => FilePoint im R D st P m'.fds [] m' ∧ FileStep p D m m' ∧
      ∀ fd, fd ∈ fdl ∨ m.fds (p, fd) = none → m'.fds (p, fd) = none) m := by
  induction fdl generalizing m with
  | nil => exact ⟨h, .refl _ _ _, fun fd hfd => hfd.resolve_left List.not_mem_nil⟩
  | cons fd fdl ih =>
    unfold closeFiles
    rw [wp_bind, wp_mach]
    cases hfd : (m.proc p).ofile fd with
    | none =>
      refine wp_mono (ih h) ?_
      rintro _ m' ⟨h', hs', hnone⟩
      refine ⟨h', hs', fun d hd => hnone d ?_⟩
      rcases hd with hd | hd
      · rcases List.mem_cons.1 hd with rfl | hd
        · exact Or.inr hfd
        · exact Or.inl hd
      · exact Or.inr hd
    | some f =>
      have h₁ : FilePoint im R D st P (Function.update m.fds (p, fd) none) [f] m :=
        ⟨h.files.take (x := (p, fd)) hfd, h.frames⟩
      simp only []
      rw [wp_bind]
      refine wp_mono (wp_fileclose p h₁) ?_
      rintro _ m₂ ⟨h₂, hproc, hs₂⟩
      have hfds : (m₂.setFd p fd none).fds = Function.update m.fds (p, fd) none := by
        rw [fds_setFd, show m₂.fds = m.fds from funext fun x => by rw [Mach.fds, Mach.fds, hproc]]
      have h₃ := h₂.setFd p fd none
      rw [← hfds] at h₃
      rw [wp_bind, wp_clearFd]
      refine wp_mono (ih h₃) ?_
      rintro _ m' ⟨h', hs', hnone⟩
      refine ⟨h', (hs₂.trans (fileStep_setFd D m₂ p fd none)).trans hs', fun d hd => hnone d ?_⟩
      by_cases hdd : d = fd
      · subst hdd
        exact Or.inr (by rw [hfds, Function.update_self])
      · have hne : (p, d) ≠ (p, fd) := fun he => hdd (Prod.ext_iff.1 he).2
        rcases hd with hd | hd
        · exact Or.inl ((List.mem_cons.1 hd).resolve_left hdd)
        · exact Or.inr (by rw [hfds, Function.update_of_ne hne, hd])

/-- The loop of `fork`. -/
theorem wp_dupFiles {np : Pid} {fdl : List (Fin NOFILE)}
    (h : FilePoint im R D st P m.fds [] m) (hnd : fdl.Nodup)
    (hfree : ∀ fd ∈ fdl, m.fds (np, fd) = none) :
    wp E (dupFiles p np fdl)
      (fun _ m' => FilePoint im R D st P m'.fds [] m' ∧ FileStep np D m m' ∧ m'.phys = m.phys) m := by
  induction fdl generalizing m with
  | nil => exact ⟨h, .refl _ _ _, rfl⟩
  | cons fd fdl ih =>
    have hnd' := List.nodup_cons.1 hnd
    unfold dupFiles
    rw [wp_bind, wp_mach]
    cases hfd : (m.proc p).ofile fd with
    | none => exact ih h hnd'.2 fun d hd => hfree d (List.mem_cons_of_mem fd hd)
    | some f =>
      have hpos : 0 < (m.ftable f).ref := h.files.pos_of_fd (x := (p, fd)) hfd
      simp only []
      rw [wp_bind]
      unfold filedup
      rw [wp_bind, wp_mach, if_neg (by omega), wp_setFile, wp_bind, wp_setProc]
      let m₁ := m.setFile f { m.ftable f with ref := (m.ftable f).ref + 1 }
      have h₁ : FilePoint im R D st P m.fds [f] m₁ := ⟨h.files.dup hpos, h.frames⟩
      have hfds : (m₁.setFd np fd (some f)).fds = Function.update m.fds (np, fd) (some f) :=
        fds_setFd m₁ np fd (some f)
      have h₂ : FilePoint im R D st P (m₁.setFd np fd (some f)).fds [] (m₁.setFd np fd (some f)) := by
        rw [hfds]
        exact ⟨h₁.files.install (hfree fd List.mem_cons_self), h₁.frames⟩
      show wp E (dupFiles p np fdl) _ (m₁.setFd np fd (some f))
      refine wp_mono (ih h₂ hnd'.2 fun d hd => ?_) ?_
      · have hdd : d ≠ fd := fun he => hnd'.1 (he ▸ hd)
        have : (np, d) ≠ (np, fd) := fun he => hdd (Prod.ext_iff.1 he).2
        rw [hfds, Function.update_of_ne this, hfree d (List.mem_cons_of_mem fd hd)]
      · rintro _ m' ⟨h', hs', hphys⟩
        have hs₁ : FileStep np D m m₁ := .of_proc rfl rfl rfl rfl (Same.refl _ _ _)
        exact ⟨h', (hs₁.trans (fileStep_setFd D m₁ np fd (some f))).trans hs', hphys⟩

end Xv6.Vm
