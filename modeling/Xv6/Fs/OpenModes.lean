import Xv6.Fs.Frame
import Xv6.Fs.Fsck

/-!
# `open` and the permission bits

`sys_open` tests the mode of an inode that it finds by path against `O_RDONLY`, which is no bit at
all, and against `O_WRONLY`; on the way through `create` it tests nothing.  `readable` and `writable`
are set from `O_WRONLY` and `O_RDWR`.  `open_complies_iff` says for which opens the descriptor is
one that the mode allows.
-/

namespace Xv6.Fs

open Bytes Conc Prog

variable {sb : Superblock} {me : Pid} {α β : Type}

/-! ## What a run leaves alone -/

/-- No section changes `g`. -/
abbrev Keeps (g : Kernel → β) (p : K α) : Prop := Each (fun _ => True) (fun s s' => g s' = g s) p

theorem Keeps.run {g : Kernel → β} {p : K α} (h : Keeps g p) {s s' : Kernel} {a : α}
    (hr : p.run s = .ok a s') : g s' = g s := by
  have hwp := Each.wp h (fun _ => rfl) (fun _ _ _ h h' => h'.trans h) s
  have hR := wp_ok hwp hr
  exact hR

/-- The mode in an entry of the cache. -/
def modeOf (i : Slot) (s : Kernel) : Word := (s.icache i).d.mode

theorem modeOf_setInode {i j : Slot} {s : Kernel} {ip : Inode}
    (h : j = i → ip.d.mode = (s.icache j).d.mode) : modeOf i (s.setInode j ip) = modeOf i s := by
  unfold modeOf
  by_cases hj : j = i
  · subst hj
    rw [Kernel.icache_setInode, h rfl]
  · rw [Kernel.icache_setInode_ne ip (Ne.symm hj)]

/-- Only `ilock` of the entry itself. -/
theorem modeFrame (i : Slot) :
    Frame (fun _ => True) (fun s s' => modeOf i s' = modeOf i s) (· ≠ i) where
  stop _ _ := trivial
  refl _ := rfl
  log _ _ := rfl
  logged _ _ _ := rfl
  typed _ _ := rfl
  printed _ _ := rfl
  inode _ _ _ h := modeOf_setInode fun _ => h
  load _ _ _ h := modeOf_setInode fun hj => absurd hj h

theorem procFrame : Frame (fun _ => True) (fun s s' => s'.proc = s.proc) fun _ => True where
  stop _ _ := trivial
  refl _ := rfl
  log _ _ := rfl
  logged _ _ _ := rfl
  typed _ _ := rfl
  printed _ _ := rfl
  inode _ _ _ _ := rfl
  load _ _ _ _ := rfl

/-! ## The descriptor -/

structure Opened (me : Pid) (fd : Int) (ip : Slot) (omode : Word) (s : Kernel) (f : FileIdx) : Prop where
  ofile : ∃ k : Fin NOFILE, fd = k.1 ∧ (s.proc me).ofile k = some f
  ip : (s.ftable f).ip = some ip
  readable : (s.ftable f).readable = (omode &&& O_WRONLY == 0)
  writable : (s.ftable f).writable = (omode &&& O_WRONLY != 0 || omode &&& O_RDWR != 0)

theorem run_fdalloc {f : FileIdx} {s s' : Kernel} {fd : Fin NOFILE}
    (h : (fdalloc me f).run s = .ok (some fd) s') :
    (s'.proc me).ofile fd = some f ∧ s'.icache = s.icache := by
  rw [fdalloc, run_atomic] at h
  split at h
  · cases h
    refine ⟨?_, rfl⟩
    simp [Kernel.setProc]
  · cases h

theorem run_openFile {ip : Slot} {omode : Word} {s s' : Kernel} {fd : Int}
    (h : (openFile sb me ip omode).run s = .ok fd s') (hfd : 0 ≤ fd) :
    (∃ f, Opened me fd ip omode s' f) ∧ (∀ i, modeOf i s' = modeOf i s) ∧
      (s.icache ip).lock = some me := by
  have hput : Returns (do iunlockput sb me ip; endOp; return (-1 : Int)) (· < 0) :=
    .seq fun _ => .seq fun _ => .ret (by decide)
  rw [openFile] at h
  obtain ⟨r, s₁, h₁, h⟩ := run_bind_eq_ok.1 h
  cases r with
  | none => exact absurd hfd (not_le.2 (hput _ _ _ h))
  | some f =>
    dsimp only at h
    obtain ⟨r, s₂, h₂, h⟩ := run_bind_eq_ok.1 h
    cases r with
    | none =>
      dsimp only at h
      obtain ⟨_, _, -, h⟩ := run_bind_eq_ok.1 h
      exact absurd hfd (not_le.2 (hput _ _ _ h))
    | some k =>
      obtain ⟨_, s₃, h₃, h⟩ := run_bind_eq_ok.1 h
      obtain ⟨_, s₄, h₄, h⟩ := run_bind_eq_ok.1 h
      obtain ⟨hofile, hcache⟩ := run_fdalloc h₂
      have hproc : s₄.proc = s₂.proc :=
        (Keeps.run procFrame.endOp h₄).trans (Keeps.run (procFrame.iunlock ip) h₃)
      have halloc : s₁.icache = s.icache := by
        rw [filealloc, run_atomic] at h₁
        split at h₁ <;> cases h₁
        rfl
      have hmode : ∀ i, modeOf i s₄ = modeOf i s := by
        intro i
        calc modeOf i s₄ = modeOf i s₃ := Keeps.run (modeFrame i).endOp h₄
          _ = modeOf i s₂ := Keeps.run ((modeFrame i).iunlock ip) h₃
          _ = modeOf i s := by rw [modeOf, modeOf, hcache, halloc]
      have hlock : (s.icache ip).lock = some me := by
        rw [iunlock, run_bind, inode, run_atomic, Res.bind_ok, hcache, halloc] at h₃
        by_contra hne
        rw [if_pos (.inl hne)] at h₃
        cases h₃
      rw [run_bind, setFile, run_atomic] at h
      cases h
      refine ⟨⟨f, ⟨⟨k, rfl, ?_⟩, ?_, ?_, ?_⟩⟩, hmode, hlock⟩
      · exact hproc ▸ hofile
      all_goals simp [Kernel.setFile]

/-! ## The inode -/

/-- The inode that `path` names, as `open` comes to it with this mode; `none` if there is none. -/
def named (sb : Superblock) (me : Pid) (path : Path) (omode : Word) : K (Option Dinode) := do
  beginOp
  if omode &&& O_CREATE ≠ 0 then
    match ← nameiparent sb me path with
    | none => return none
    | some (dp, name) =>
      ilock sb me dp
      match ← dirlookup sb me dp name with
      | none => return none
      | some (ip, _) =>
        iunlockput sb me dp
        ilock sb me ip
        return some (← inode ip).d
  else
    match ← namei sb me path with
    | none => return none
    | some ip =>
      ilock sb me ip
      return some (← inode ip).d

/-- What `open` knows of an inode that was there: without `O_CREATE`, that a write-only open is
allowed. -/
def Tested (omode mode : Word) : Prop :=
  omode &&& O_CREATE = 0 → omode &&& O_WRONLY ≠ 0 → mode &&& 2 ≠ 0

theorem returns_end : Returns (do endOp; return none : K (Option Slot)) (· = none) :=
  .seq fun _ => .ret rfl

theorem run_openExisting {path : Path} {omode : Word} (ho : omode &&& O_CREATE = 0)
    {s₀ s s' : Kernel} {ip : Slot} (h₀ : beginOp.run s₀ = .ok () s)
    (h : (openExisting sb me path omode).run s = .ok (some ip) s') :
    (named sb me path omode).run s₀ = .ok (some (s'.icache ip).d) s' ∧
      Tested omode (modeOf ip s') := by
  have hmsg : ∀ i, Returns (do iunlockput sb me i; endOp; print .openFailed; return none : K (Option Slot))
      (· = none) := fun i => .seq fun _ => .seq fun _ => .seq fun _ => .ret rfl
  have hput : ∀ i, Returns (do iunlockput sb me i; endOp; return none : K (Option Slot)) (· = none) :=
    fun i => .seq fun _ => .seq fun _ => .ret rfl
  rw [openExisting] at h
  obtain ⟨r, s₁, h₁, h⟩ := run_bind_eq_ok.1 h
  cases r with
  | none =>
    cases returns_end _ _ _ h
  | some i =>
    obtain ⟨_, s₂, h₂, h⟩ := run_bind_eq_ok.1 h
    rw [run_bind, inode, run_atomic, Res.bind_ok] at h
    dsimp only at h
    split at h
    · cases hmsg i _ _ _ h
    · split at h
      · cases hmsg i _ _ _ h
      · next hw =>
        split at h
        · cases hput i _ _ _ h
        · cases h
          constructor
          · simp only [named, run_bind, h₀, Res.bind_ok, if_neg (not_not.2 ho), h₁, h₂,
              inode, run_atomic, run_pure]
          · intro _ hwronly hmode
            exact hw ⟨hwronly, hmode⟩

theorem run_iunlockput {i : Slot} {s s' : Kernel} (h : (iunlockput sb me i).run s = .ok () s') :
    (s'.icache i).lock = none := by
  have hend : ∀ {t : Kernel}, (do releasesleep i; irelse i : K Unit).run t = .ok () s' →
      (s'.icache i).lock = none := by
    intro t ht
    rw [run_bind, releasesleep, setInode, run_atomic, Res.bind_ok, irelse, run_atomic] at ht
    cases ht
    simp
  rw [iunlockput] at h
  obtain ⟨_, s₁, -, h⟩ := run_bind_eq_ok.1 h
  rw [iput] at h
  obtain ⟨_, s₂, -, h⟩ := run_bind_eq_ok.1 h
  obtain ⟨last, s₃, -, h⟩ := run_bind_eq_ok.1 h
  split at h
  · obtain ⟨_, _, -, h⟩ := run_bind_eq_ok.1 h
    obtain ⟨_, _, -, h⟩ := run_bind_eq_ok.1 h
    obtain ⟨_, _, -, h⟩ := run_bind_eq_ok.1 h
    obtain ⟨_, s₄, -, h⟩ := run_bind_eq_ok.1 h
    exact hend (t := s₄) (by rw [run_bind]; exact h)
  · exact hend h

theorem run_createNew {dp ip : Slot} {name : Name} {major minor : Short} {s s' : Kernel}
    (h : (createNew sb me dp name T_FILE major minor).run s = .ok ip s') :
    (s'.icache dp).lock = none ∧ (dp ≠ ip → modeOf ip s' = 7) := by
  simp only [createNew, run_bind] at h
  obtain ⟨_, _, -, h⟩ := Res.bind_eq_ok.1 h
  obtain ⟨i, s₁, -, h⟩ := Res.bind_eq_ok.1 h
  obtain ⟨_, s₂, -, h⟩ := Res.bind_eq_ok.1 h
  obtain ⟨_, s₃, h₃, h⟩ := Res.bind_eq_ok.1 h
  obtain ⟨_, s₄, h₄, h⟩ := Res.bind_eq_ok.1 h
  rw [if_neg (by decide)] at h
  simp only [run_bind, inode, run_atomic, Res.bind_ok] at h
  obtain ⟨r, s₅, h₅, h⟩ := Res.bind_eq_ok.1 h
  split at h
  · obtain ⟨_, _, hp, -⟩ := run_bind_eq_ok.1 h
    cases hp
  · obtain ⟨_, s₆, h₆, h⟩ := run_bind_eq_ok.1 h
    cases h
    refine ⟨run_iunlockput h₆, fun hne => ?_⟩
    have hset : modeOf ip s₃ = 7 := by
      rw [setDinode, setInode, run_atomic] at h₃
      cases h₃
      simp [modeOf]
    calc modeOf ip s' = modeOf ip s₅ := Keeps.run ((modeFrame ip).iunlockput dp) h₆
      _ = modeOf ip s₄ := Keeps.run ((modeFrame ip).dirlink hne name _) h₅
      _ = modeOf ip s₃ := Keeps.run ((modeFrame ip).iupdate ip) h₄
      _ = 7 := hset

theorem run_openCreate {path : Path} {omode : Word} (ho : omode &&& O_CREATE ≠ 0)
    {s₀ s s' : Kernel} {ip : Slot} (h₀ : beginOp.run s₀ = .ok () s)
    (h : (openCreate sb me path).run s = .ok (some ip) s') :
    (named sb me path omode).run s₀ = .ok (some (s'.icache ip).d) s' ∨
      (∃ t, (named sb me path omode).run s₀ = .ok none t) ∧
        ((s'.icache ip).lock = some me → modeOf ip s' = 7) := by
  rw [openCreate] at h
  obtain ⟨r, s₁, h₁, h⟩ := run_bind_eq_ok.1 h
  cases r with
  | none =>
    cases returns_end _ _ _ h
  | some i =>
    cases h
    rw [create] at h₁
    obtain ⟨r, s₂, h₂, h⟩ := run_bind_eq_ok.1 h₁
    cases r with
    | none => cases h
    | some r =>
      obtain ⟨dp, name⟩ := r
      obtain ⟨_, s₃, h₃, h⟩ := run_bind_eq_ok.1 h
      obtain ⟨r, s₄, h₄, h⟩ := run_bind_eq_ok.1 h
      have hnamed : (named sb me path omode).run s₀ = (match r with
          | none => (return none : K (Option Dinode))
          | some (ip, _) => do
            iunlockput sb me dp
            ilock sb me ip
            return some (← inode ip).d).run s₄ := by
        simp only [named, run_bind, h₀, Res.bind_ok, if_pos ho, h₂, h₃, h₄]
      cases r with
      | none =>
        obtain ⟨j, s₅, h₅, h⟩ := run_bind_eq_ok.1 h
        cases h
        obtain ⟨hlock, hmode⟩ := run_createNew h₅
        refine .inr ⟨⟨s₄, hnamed⟩, fun hme => hmode fun hdp => ?_⟩
        subst hdp
        rw [hlock] at hme
        cases hme
      | some r =>
        obtain ⟨_, s₅, h₅, h⟩ := run_bind_eq_ok.1 h
        obtain ⟨_, s₆, h₆, h⟩ := run_bind_eq_ok.1 h
        rw [run_bind, inode, run_atomic, Res.bind_ok] at h
        split at h
        · cases h
          left
          rw [hnamed]
          simp only [run_bind, h₅, h₆, Res.bind_ok, inode, run_atomic, run_pure]
        · have hnone : Returns (do iunlockput sb me r.1; return none : K (Option Slot)) (· = none) :=
            .seq fun _ => .ret rfl
          cases hnone _ _ _ h

/-- The descriptor reads only if the mode has bit 4, and writes only if it has bit 2. -/
def Complies (x : File) (mode : Word) : Prop :=
  (x.readable = true → mode &&& 4 ≠ 0) ∧ (x.writable = true → mode &&& 2 ≠ 0)

/-- The bits that are asked for and that `open` does not test. -/
def Untested (omode mode : Word) : Prop :=
  (omode &&& O_WRONLY = 0 → mode &&& 4 ≠ 0) ∧
  (omode &&& O_WRONLY = 0 → omode &&& O_RDWR ≠ 0 → mode &&& 2 ≠ 0) ∧
  (omode &&& O_CREATE ≠ 0 → omode &&& O_WRONLY ≠ 0 → mode &&& 2 ≠ 0)

theorem Opened.complies_iff {fd : Int} {ip : Slot} {omode mode : Word} {s : Kernel} {f : FileIdx}
    (h : Opened me fd ip omode s f) (ht : Tested omode mode) :
    Complies (s.ftable f) mode ↔ Untested omode mode := by
  unfold Complies Untested
  unfold Tested at ht
  rw [h.readable, h.writable]
  simp only [beq_iff_eq, bne_iff_ne, Bool.or_eq_true]
  tauto

/-- An `open` that returns a descriptor: if the path names an inode, then the descriptor is one that
the mode of the inode allows iff the mode has the bits that are not tested; if the file is new,
its mode is 7 and allows it. -/
theorem open_complies_iff {path : Path} {omode : Word} {s s' : Kernel} {fd : Int}
    (h : (sysOpen sb me (some path) (some omode)).run s = .ok fd s') (hfd : 0 ≤ fd) :
    ∃ ip f, Opened me fd ip omode s' f ∧
      ((∃ d t, (named sb me path omode).run s = .ok (some d) t ∧ modeOf ip s' = d.mode ∧
          (Complies (s'.ftable f) d.mode ↔ Untested omode d.mode)) ∨
       ((∃ t, (named sb me path omode).run s = .ok none t) ∧ modeOf ip s' = 7 ∧
          Complies (s'.ftable f) 7)) := by
  simp only [sysOpen, run_bind] at h
  obtain ⟨_, s₁, h₁, h⟩ := Res.bind_eq_ok.1 h
  have hsome : ∀ {r : Option Slot} {t : Kernel}, (match r with
      | none => (return -1 : K Int)
      | some ip => openFile sb me ip omode).run t = .ok fd s' →
      ∃ ip, r = some ip ∧ (openFile sb me ip omode).run t = .ok fd s' := by
    intro r t hr
    cases r with
    | none =>
      cases hr
      exact absurd hfd (by decide)
    | some ip => exact ⟨ip, rfl, hr⟩
  split at h
  · next ho =>
    obtain ⟨r, s₂, h₂, h⟩ := run_bind_eq_ok.1 h
    obtain ⟨ip, rfl, h⟩ := hsome h
    obtain ⟨⟨f, hf⟩, hmode, hlock⟩ := run_openFile h hfd
    refine ⟨ip, f, hf, ?_⟩
    rcases run_openCreate ho h₁ h₂ with hnamed | ⟨hnone, hseven⟩
    · exact .inl ⟨_, s₂, hnamed, hmode ip, hf.complies_iff fun hc => absurd hc ho⟩
    · refine .inr ⟨hnone, (hmode ip).trans (hseven hlock), ?_⟩
      exact ⟨fun _ => by decide, fun _ => by decide⟩
  · next ho =>
    obtain ⟨r, s₂, h₂, h⟩ := run_bind_eq_ok.1 h
    obtain ⟨ip, rfl, h⟩ := hsome h
    obtain ⟨⟨f, hf⟩, hmode, hlock⟩ := run_openFile h hfd
    obtain ⟨hnamed, htested⟩ := run_openExisting (not_not.1 ho) h₁ h₂
    exact ⟨ip, f, hf, .inl ⟨_, s₂, hnamed, hmode ip, hf.complies_iff htested⟩⟩

/-- A fresh system whose first process has made the file `/f` and given it this mode. -/
def withMode (mode : Word) : Res Panic Unit Kernel :=
  (freshBoot.bind fun _ s =>
    sysStep mkfsSb s (initproc, .open (some [slash, 102]) (some (O_CREATE ||| O_RDWR)))).bind
    fun _ s => sysStep mkfsSb s (initproc, .chmod (some [slash, 102]) (some mode))

/-- The file is readable and `open` for reading asks for no more. -/
theorem open_complies_reading : ∃ s s' ip f, withMode 4 = .ok () s ∧
    (sysOpen mkfsSb initproc (some [slash, 102]) (some O_RDONLY)).run s = .ok 1 s' ∧
    Opened initproc 1 ip O_RDONLY s' f ∧ Complies (s'.ftable f) (modeOf ip s') := by
  have hrun : ((withMode 4).bind fun _ s =>
      ((sysOpen mkfsSb initproc (some [slash, 102]) (some O_RDONLY)).run s).bind fun fd _ =>
        (.ok (fd, (((named mkfsSb initproc [slash, 102] O_RDONLY).run s).bind fun d _ =>
          (.ok (d.map (·.mode)) () : Res Panic (Option Word) Unit))) () :
          Res Panic (Int × Res Panic (Option Word) Unit) Unit)) =
      .ok (1, .ok (some 4) ()) () := by decide +kernel
  obtain ⟨_, s, hs, hrun⟩ := Res.bind_eq_ok.1 hrun
  obtain ⟨fd, s', hopen, hrun⟩ := Res.bind_eq_ok.1 hrun
  obtain ⟨rfl, hnamed⟩ := Prod.mk.inj (Res.ok.inj hrun).1
  obtain ⟨r, t, hnamed, hr⟩ := Res.bind_eq_ok.1 hnamed
  obtain ⟨d, rfl, hd⟩ := Option.map_eq_some_iff.1 (Res.ok.inj hr).1
  obtain ⟨ip, f, hf, h⟩ := open_complies_iff hopen (by decide)
  refine ⟨s, s', ip, f, hs, hopen, hf, ?_⟩
  rcases h with ⟨d', t', hnamed', hmode, hiff⟩ | ⟨⟨t', hnamed'⟩, -⟩
  · cases hnamed.symm.trans hnamed'
    rw [hmode]
    refine hiff.2 ?_
    rw [hd]
    exact ⟨fun _ => by decide, fun _ h => absurd h (by decide), fun h => absurd h (by decide)⟩
  · cases hnamed.symm.trans hnamed'

/-- The file can not be read, and `open` for reading gives a descriptor that reads. -/
theorem open_unreadable : ∃ s s' f ip, withMode 0 = .ok () s ∧
    (sysOpen mkfsSb initproc (some [slash, 102]) (some O_RDONLY)).run s = .ok 1 s' ∧
    (s'.proc initproc).ofile 1 = some f ∧ (s'.ftable f).ip = some ip ∧ modeOf ip s' = 0 ∧
    (s'.ftable f).readable = true ∧ ¬Complies (s'.ftable f) (modeOf ip s') := by
  have hrun : ((withMode 0).bind fun _ s =>
      ((sysOpen mkfsSb initproc (some [slash, 102]) (some O_RDONLY)).run s).bind fun fd s' =>
        (.ok (fd, ((s'.proc initproc).ofile 1).bind fun f => (s'.ftable f).ip.map fun ip =>
          ((s'.ftable f).readable, modeOf ip s')) () :
          Res Panic (Int × Option (Bool × Word)) Unit)) =
      .ok (1, some (true, 0)) () := by decide +kernel
  obtain ⟨_, s, hs, hrun⟩ := Res.bind_eq_ok.1 hrun
  obtain ⟨fd, s', hopen, hrun⟩ := Res.bind_eq_ok.1 hrun
  obtain ⟨rfl, hfile⟩ := Prod.mk.inj (Res.ok.inj hrun).1
  obtain ⟨f, hf, hfile⟩ := Option.bind_eq_some_iff.1 hfile
  obtain ⟨ip, hip, hfile⟩ := Option.map_eq_some_iff.1 hfile
  obtain ⟨hread, hmode⟩ := Prod.mk.inj hfile
  refine ⟨s, s', f, ip, hs, hopen, hf, hip, hmode, hread, fun h => h.1 hread ?_⟩
  rw [hmode]
  decide

end Xv6.Fs
