import Xv6.Vm.Boot

/-!
# Every page has one role

`Mach.role` lists what the pages of the allocator are used for.  In every state that a booted machine
reaches by calls, out of memory or not, each page has one role (`page_has_one_role`).
-/

namespace Xv6.Vm

open Bytes Conc Prog

/-! ## Roles -/

/-- Whose directory. -/
inductive Owner where
  | kernel
  | proc (p : Pid)
deriving DecidableEq

inductive Role where
  /-- the `n`-th page on the free list -/
  | free (n : Nat)
  | kstack (p : Pid)
  /-- stack of a CPU that `startothers` started -/
  | cpu (k : Nat)
  | dir (o : Owner)
  /-- the page table of a directory entry -/
  | table (o : Owner) (i : Nat)
  /-- mapped at user page `n` -/
  | user (o : Owner) (n : Nat)
  | pipe (f : Nat)
deriving DecidableEq

/-- The `n`-th page of a list that starts with the link `w`. -/
def freeFrom (mem : Nat → Nat → Word) (w : Word) : Nat → Option Nat
  | 0 => pointee w
  | n + 1 => (pointee w).bind fun f => freeFrom mem (mem f 0) n

def Mach.dirOf (m : Mach) : Owner → Option Nat
  | .kernel => some m.kpgdir
  | .proc p => if (m.proc p).Alive then (m.proc p).pgdir else none

def Mach.role (m : Mach) : Role → Option Nat
  | .free n => freeFrom m.phys.mem m.phys.freelist n
  | .kstack p => if (m.proc p).Alive then (m.proc p).kstack else none
  | .cpu k => m.cpus[k]?
  | .dir o => m.dirOf o
  | .table o i => (m.dirOf o).bind fun d =>
    if i < NPDENTRIES ∧ present (m.phys.mem d i) then some (frame (m.phys.mem d i)) else none
  | .user o n => (m.dirOf o).bind fun d =>
    if n < USERPAGES ∧ present (m.phys.pteAt d n) then some (frame (m.phys.pteAt d n)) else none
  | .pipe f => if (m.ends f).live then some f else none

variable {im : KernelImage} {strict : Prop} {m : Mach} {d f n : Nat} {l : List Nat} {r r' : Role}
  {o o' : Owner}

theorem freeFrom_eq {mem : Nat → Nat → Word} {w : Word} (h : Chain mem w l)
    (hl : ∀ f ∈ l, f * PGSIZE < PHYSTOP) (n : Nat) : freeFrom mem w n = l[n]? := by
  induction l generalizing w n with
  | nil =>
    obtain rfl : w = 0 := h
    cases n <;> rfl
  | cons f l ih =>
    have hf : pointee w = some f := by rw [h.1, pointee_pointer (hl f List.mem_cons_self)]
    cases n with
    | zero => exact hf
    | succ n =>
      rw [freeFrom, hf]
      exact ih h.2 (fun g hg => hl g (List.mem_cons_of_mem f hg)) n

theorem dirOf_mem (h : m.dirOf o = some d) : d ∈ m.dirs := by
  cases o with
  | kernel => exact Or.inl (Option.some.inj h).symm
  | proc p =>
    rw [Mach.dirOf, Option.ite_none_right_eq_some] at h
    exact Or.inr ⟨p, h⟩

theorem exists_dirOf (h : d ∈ m.dirs) : ∃ o, m.dirOf o = some d := by
  rcases h with rfl | ⟨p, hp, hd⟩
  · exact ⟨.kernel, rfl⟩
  · exact ⟨.proc p, by rw [Mach.dirOf, if_pos hp, hd]⟩

/-- No two have the same directory. -/
theorem ProcsOk.dirOf_inj (h : ProcsOk strict m) (ho : m.dirOf o = some d) (ho' : m.dirOf o' = some d) :
    o = o' := by
  have hproc : ∀ {p o'}, m.dirOf (.proc p) = some d → m.dirOf o' = some d → o' = .proc p := by
    intro p o' hp ho'
    rw [Mach.dirOf, Option.ite_none_right_eq_some] at hp
    obtain ⟨d', hd', hnd, -⟩ := h.image p hp.1
    obtain rfl : d' = d := Option.some.inj (hd'.symm.trans hp.2)
    cases o' with
    | kernel => exact absurd (Or.inl (Option.some.inj ho').symm) hnd
    | proc q =>
      rw [Mach.dirOf, Option.ite_none_right_eq_some] at ho'
      by_contra hne
      exact hnd (Or.inr ⟨q, fun he => hne (by rw [he]), ho'⟩)
  cases o with
  | kernel =>
    cases o' with
    | kernel => rfl
    | proc q => exact hproc ho' ho
  | proc p => exact (hproc ho ho').symm

/-! ## Roles are places -/

def Mach.place (m : Mach) : Role → Option (Place Other)
  | .free _ => none
  | .kstack p => some (.other (.kstack p))
  | .cpu k => some (.other (.cpu k))
  | .dir o => (m.dirOf o).map .dir
  | .table o i => (m.dirOf o).map (.tab · i)
  | .user o n => (m.dirOf o).map (.page · n)
  | .pipe f => some (.other (.pipe f))

def Other.role : Other → Role
  | .kstack p => .kstack p
  | .cpu k => .cpu k
  | .pipe f => .pipe f

theorem place_eq_dir : m.place r = some (.dir d) ↔ ∃ o, m.dirOf o = some d ∧ r = .dir o := by
  cases r <;> simp [Mach.place]

theorem place_eq_tab {i : Nat} :
    m.place r = some (.tab d i) ↔ ∃ o, m.dirOf o = some d ∧ r = .table o i := by
  cases r <;> simp [Mach.place]

theorem place_eq_page : m.place r = some (.page d n) ↔ ∃ o, m.dirOf o = some d ∧ r = .user o n := by
  cases r <;> simp [Mach.place]

theorem place_eq_other {x : Other} : m.place r = some (.other x) ↔ r = x.role := by
  cases r <;> cases x <;> simp [Mach.place, Other.role]

theorem ProcsOk.place_inj (h : ProcsOk strict m) {x : Place Other} (hr : m.place r = some x)
    (hr' : m.place r' = some x) : r = r' := by
  cases x with
  | dir d =>
    obtain ⟨o, ho, rfl⟩ := place_eq_dir.1 hr
    obtain ⟨o', ho', rfl⟩ := place_eq_dir.1 hr'
    rw [h.dirOf_inj ho ho']
  | tab d i =>
    obtain ⟨o, ho, rfl⟩ := place_eq_tab.1 hr
    obtain ⟨o', ho', rfl⟩ := place_eq_tab.1 hr'
    rw [h.dirOf_inj ho ho']
  | page d n =>
    obtain ⟨o, ho, rfl⟩ := place_eq_page.1 hr
    obtain ⟨o', ho', rfl⟩ := place_eq_page.1 hr'
    rw [h.dirOf_inj ho ho']
  | other x => rw [place_eq_other.1 hr, place_eq_other.1 hr']

noncomputable abbrev Mach.refs (m : Mach) : Place Other → Option Nat :=
  m.phys.refs m.dirs (others m.stacks m.cpus m.ends)

theorem exists_place {x : Place Other} (hx : m.refs x = some f) : ∃ r, m.place r = some x := by
  cases x with
  | dir d =>
    obtain ⟨o, ho⟩ := exists_dirOf (refs_dir.1 hx).1
    exact ⟨.dir o, place_eq_dir.2 ⟨o, ho, rfl⟩⟩
  | tab d i =>
    obtain ⟨o, ho⟩ := exists_dirOf (refs_tab.1 hx).1
    exact ⟨.table o i, place_eq_tab.2 ⟨o, ho, rfl⟩⟩
  | page d n =>
    obtain ⟨o, ho⟩ := exists_dirOf (refs_page.1 hx).1
    exact ⟨.user o n, place_eq_page.2 ⟨o, ho, rfl⟩⟩
  | other x => exact ⟨x.role, place_eq_other.2 rfl⟩

theorem role_eq_refs {x : Place Other} (hr : m.place r = some x) : m.role r = m.refs x := by
  cases x with
  | dir d =>
    obtain ⟨o, ho, rfl⟩ := place_eq_dir.1 hr
    rw [Mach.role, ho, Mach.refs, refs_dir.2 ⟨dirOf_mem ho, rfl⟩]
  | tab d i =>
    obtain ⟨o, ho, rfl⟩ := place_eq_tab.1 hr
    simp only [Mach.role, ho, Option.bind_some, Mach.refs, Phys.refs, dirOf_mem ho, true_and]
  | page d n =>
    obtain ⟨o, ho, rfl⟩ := place_eq_page.1 hr
    simp only [Mach.role, ho, Option.bind_some, Mach.refs, Phys.refs, dirOf_mem ho, true_and]
  | other x =>
    obtain rfl := place_eq_other.1 hr
    cases x <;> rfl

theorem place_of_role (hr : m.role r = some f) (hfree : ∀ n, r ≠ .free n) :
    ∃ x, m.place r = some x := by
  have hdir : ∀ {o} {g : Nat → Option Nat}, (m.dirOf o).bind g = some f → ∃ d, m.dirOf o = some d := by
    intro o g h
    obtain ⟨d, hd, -⟩ := Option.bind_eq_some_iff.1 h
    exact ⟨d, hd⟩
  cases r with
  | free n => exact absurd rfl (hfree n)
  | kstack p => exact ⟨_, rfl⟩
  | cpu k => exact ⟨_, rfl⟩
  | pipe g => exact ⟨_, rfl⟩
  | dir o => exact ⟨.dir f, place_eq_dir.2 ⟨o, hr, rfl⟩⟩
  | table o i =>
    obtain ⟨d, hd⟩ := hdir hr
    exact ⟨.tab d i, place_eq_tab.2 ⟨o, hd, rfl⟩⟩
  | user o n =>
    obtain ⟨d, hd⟩ := hdir hr
    exact ⟨.page d n, place_eq_page.2 ⟨o, hd, rfl⟩⟩

/-- Each page of the allocator has one role, and no other page has one. -/
theorem Inv.owns (h : Inv im strict m) : Owns m.role im.pages ∅ := by
  obtain ⟨l, hfr⟩ := h.point.frames
  have hfree : ∀ n, m.role (.free n) = l[n]? :=
    freeFrom_eq hfr.chain fun f hf => hfr.lt_of_mem (hfr.sub f hf)
  have hfree_mem : ∀ {n f}, m.role (.free n) = some f → f ∈ l := fun hn =>
    List.mem_of_getElem? ((hfree _).symm.trans hn)
  have hplace : ∀ {r f}, m.role r = some f → (∃ n, r = .free n) ∨ ∃ x, m.place r = some x ∧
      m.refs x = some f := by
    intro r f hr
    by_cases hx : ∃ n, r = .free n
    · exact Or.inl hx
    · push Not at hx
      obtain ⟨x, hx⟩ := place_of_role hr hx
      exact Or.inr ⟨x, hx, by rw [← role_eq_refs hx, hr]⟩
  refine ⟨fun f => ⟨fun hf => Or.inr ?_, ?_⟩, fun r r' f hr hr' => ?_, nofun⟩
  · by_cases hl : f ∈ l
    · obtain ⟨n, hn⟩ := List.mem_iff_getElem?.1 hl
      exact ⟨.free n, by rw [hfree, hn]⟩
    · obtain ⟨x, hx⟩ := ((hfr.own.used_iff f).1 ⟨hf, hl⟩).resolve_left (Set.notMem_empty f)
      obtain ⟨r, hr⟩ := exists_place hx
      exact ⟨r, by rw [role_eq_refs hr, Mach.refs, hx]⟩
  · rintro (hf | ⟨r, hr⟩)
    · exact absurd hf (Set.notMem_empty f)
    · obtain ⟨n, rfl⟩ | ⟨x, -, hx⟩ := hplace hr
      · exact hfr.sub f (hfree_mem hr)
      · exact (hfr.own.used_of_ref hx).1
  · obtain ⟨n, rfl⟩ | ⟨x, hxr, hx⟩ := hplace hr
    · obtain ⟨n', rfl⟩ | ⟨x', -, hx'⟩ := hplace hr'
      · rw [hfree] at hr hr'
        have := (List.getElem?_inj (List.getElem?_eq_some_iff.1 hr).1 hfr.nodup).1 (hr.trans hr'.symm)
        rw [this]
      · exact absurd (hfree_mem hr) (hfr.own.used_of_ref hx').2
    · obtain ⟨n', rfl⟩ | ⟨x', hxr', hx'⟩ := hplace hr'
      · exact absurd (hfree_mem hr') (hfr.own.used_of_ref hx).2
      · obtain rfl := hfr.own.inj x x' f hx hx'
        exact h.procs.place_inj hxr hxr'

/-! ## Runs -/

def Role.OfInit (p : Pid) : Role → Prop
  | .kstack q => q = p
  | .cpu _ => True
  | .dir o | .table o _ | .user o _ => o = .kernel ∨ o = .proc p
  | _ => False

/-- With one process and no pipes left, the pages of all the others are free. -/
theorem Inv.reaped (h : Inv im strict m) {p : Pid} (hall : ∀ q, q ≠ p → (m.proc q).state = .unused)
    (hpipes : ∀ g, (m.ftable g).pipe = none) (hr : m.role r = some f) :
    (∃ n, r = .free n) ∨ r.OfInit p := by
  have hdead : ∀ {q}, (m.proc q).Alive → q = p := fun ha => by
    by_contra hne
    exact ha.1 (hall _ hne)
  have hdir : ∀ {o d}, m.dirOf o = some d → o = .kernel ∨ o = .proc p := fun {o _} ho => by
    cases o with
    | kernel => exact Or.inl rfl
    | proc q =>
      rw [Mach.dirOf, Option.ite_none_right_eq_some] at ho
      exact Or.inr (by rw [hdead ho.1])
  cases r with
  | free n => exact Or.inl ⟨n, rfl⟩
  | kstack q =>
    rw [Mach.role, Option.ite_none_right_eq_some] at hr
    exact Or.inr (hdead hr.1)
  | cpu k => exact Or.inr trivial
  | dir o => exact Or.inr (hdir hr)
  | table o i | user o n =>
    obtain ⟨d, hd, -⟩ := Option.bind_eq_some_iff.1 hr
    exact Or.inr (hdir hd)
  | pipe g =>
    rw [Mach.role, Option.ite_none_right_eq_some] at hr
    obtain ⟨b, hb⟩ := Ends.live_iff.1 hr.1
    obtain ⟨x, hx, -⟩ := h.point.files.owner g b hb
    rw [hpipes x] at hx
    exact absurd hx nofun

theorem inv_of_boot {cpus size : Nat} {initcode : Nat → Byte} {mem : Nat → Nat → Word} {m₀ : Mach}
    (hboot : (main im cpus initcode size).run (Mach.reset mem) = .ok () m₀) : Booted im strict m₀ := by
  have h : wp (fun _ => True) (main im cpus initcode size) (fun _ m' => Booted im strict m')
      (Mach.reset mem) := wp_main (Or.inr trivial) (Or.inr trivial)
  have := wp_ok h hboot
  exact this

theorem Inv.reaches {C : Mach → Pid × MemCall → Prop} {m₀ : Mach} (h₀ : Inv im strict m₀)
    (hrun : Reaches (memStep im) C m₀ m)
    (hwipe : ∀ m e, C m e → strict → ¬e.2.Wipes (m.proc e.1).sz) : Inv im strict m := by
  refine hrun.inv h₀ fun m e m' h hC hstep => ?_
  have := h.step (p := e.1) (hwipe m e hC)
  rw [hstep] at this
  exact this

/-- A kernel of 22 pages. -/
def smallKernel : KernelImage where
  data := 264
  kend := 278
  text_data := by decide
  data_le := by decide
  kend_lt := by decide

theorem boots (strict : Prop) (mem : Nat → Nat → Word) : ∃ m₀, (main smallKernel 1 (fun _ => 0) 44).run (Mach.reset mem) =
    .ok () m₀ ∧ Booted smallKernel strict m₀ := by
  have hroom : smallKernel.kend + KVMPAGES + 1 ≤ 1024 := by norm_num [smallKernel]
  have hsize : 44 < PGSIZE := by norm_num
  have hwp : wp (fun _ => False) (main smallKernel 1 (fun _ => 0) 44)
      (fun _ m' => Booted smallKernel strict m') (Mach.reset mem) :=
    wp_main (Or.inl hroom) (Or.inl hsize)
  obtain ⟨_, m₀, hrun, h⟩ := wp_returns hwp
  exact ⟨m₀, hrun, h⟩

theorem step_of_wp (im : KernelImage) {p : Pid} {c : MemCall} {Q : Mach → Prop} (hp : (m.proc p).state = .runnable)
    (h : wp (fun _ => False) (c.code im p) (fun _ m' => Q m') m) :
    ∃ m', memStep im m (p, c) = .ok () m' ∧ Q m' := by
  obtain ⟨_, m', hrun, hQ⟩ := wp_returns h
  refine ⟨m', ?_, hQ⟩
  unfold memStep
  rw [if_pos hp, hrun]
  rfl

theorem memStep_store (im : KernelImage) {p : Pid} {d n i : Nat} {w : Word}
    (hp : (m.proc p).state = .runnable) (hd : (m.proc p).pgdir = some d) (hn : n < USERPAGES)
    (hpte : present (m.phys.pteAt d n) = true ∧ user (m.phys.pteAt d n) = true ∧
      writable (m.phys.pteAt d n) = true) :
    memStep im m (p, .store n i w) =
      .ok () { m with phys := m.phys.setWord (frame (m.phys.pteAt d n)) i w } := by
  obtain ⟨_, hstep, rfl⟩ := step_of_wp im (c := .store n i w)
    (Q := fun m' => m' = { m with phys := m.phys.setWord (frame (m.phys.pteAt d n)) i w }) hp (by
      show wp _ (store p n i w) _ m
      unfold store
      rw [wp_bind]
      refine wp_pgdirOf hd ?_
      rw [wp_bind, wp_mach, if_pos ⟨hn, hpte⟩, wp_bind, wp_phys, wp_setWord]
      rfl)
  exact hstep

/-- After boot and any calls, each page of the allocator has one role; so no page is on the free list
twice or belongs to two processes, and the pages of processes that are gone and of closed pipes are
free. -/
theorem page_has_one_role {cpus size : Nat} {initcode : Nat → Byte} {mem : Nat → Nat → Word}
    {m₀ : Mach} (hboot : (main im cpus initcode size).run (Mach.reset mem) = .ok () m₀)
    (hrun : Reaches (memStep im) (fun _ _ => True) m₀ m) :
    (∀ f, im.kend ≤ f → f * PGSIZE < PHYSTOP → ∃! r, m.role r = some f) ∧
    (∀ r r' f, m.role r = some f → m.role r' = some f → r = r') ∧
    ((∀ p, p ≠ m.initproc → (m.proc p).state = .unused) → (∀ g, (m.ftable g).pipe = none) →
      ∀ f, im.kend ≤ f → f * PGSIZE < PHYSTOP →
        (∃ n, m.role (.free n) = some f) ∨ ∃ r, m.role r = some f ∧ r.OfInit m.initproc) := by
  have h : Inv im False m :=
    (inv_of_boot hboot).inv.reaches hrun fun _ _ _ hst => hst.elim
  have hex : ∀ f, im.kend ≤ f → f * PGSIZE < PHYSTOP → ∃ r, m.role r = some f := fun f hlo hhi =>
    ((h.owns.used_iff f).1 ⟨hlo, hhi⟩).resolve_left (Set.notMem_empty f)
  refine ⟨fun f hlo hhi => ?_, fun r r' f => h.owns.inj r r' f, fun hall hpipes f hlo hhi => ?_⟩
  · obtain ⟨r, hr⟩ := hex f hlo hhi
    exact ⟨r, hr, fun r' hr' => h.owns.inj r' r f hr' hr⟩
  · obtain ⟨r, hr⟩ := hex f hlo hhi
    obtain ⟨n, rfl⟩ | hinit := h.reaped hall hpipes hr
    · exact Or.inl ⟨n, hr⟩
    · exact Or.inr ⟨r, hr, hinit⟩

theorem page_has_one_role_pipe : ∃ m₀ m,
    (main smallKernel 1 (fun _ => 0) 44).run (Mach.reset fun _ _ => 0) = .ok () m₀ ∧
    memStep smallKernel m₀ (m₀.initproc, .pipe) = .ok () m ∧ ∃! r, m.role r = some 300 := by
  obtain ⟨m₀, hboot, h₀⟩ := boots False fun _ _ => 0
  obtain ⟨m, hstep, -⟩ := step_of_wp smallKernel (c := .pipe) (Q := fun _ => True) h₀.init
    (wp_mono (wp_sysPipe h₀.inv.point) fun _ _ _ => trivial)
  exact ⟨m₀, m, hboot, hstep, (page_has_one_role hboot
    (.single ⟨(m₀.initproc, .pipe), trivial, hstep⟩)).1 300 (by decide)
      (by norm_num [PGSIZE, PHYSTOP])⟩

/-! ## Growing -/

theorem flags_of_entry {e : Word} {f : Nat} (h : e = entry f (PTE_W ||| PTE_U ||| PTE_P)) :
    present e = true ∧ user e = true ∧ writable e = true := by
  rw [h, present_entry, user_entry, writable, getLsbD_entry _ _ (by decide)]
  exact ⟨rfl, rfl, rfl⟩

theorem Booted.grow (h : Booted im strict m) {g : Nat} (hg : 0 < g) (hg' : g ≤ 2 ^ 26) :
    ∃ d l s, (m.proc m.initproc).pgdir = some d ∧ d ∈ m.dirs ∧
    m.Frames im ∅ l s ∧ KVMPAGES + 4 ≤ l.length ∧
    (∀ n, n * PGSIZE < PGSIZE + g → ∃ f, s.pteAt d n = entry f (PTE_W ||| PTE_U ||| PTE_P)) ∧
    memStep im m (m.initproc, .sbrk (.ofNat 32 g)) = .ok ()
      (({ m with phys := s } : Mach).setProc m.initproc
        { m.proc m.initproc with sz := PGSIZE + g }) := by
  obtain ⟨d, f, hd, hpte⟩ := h.page
  obtain ⟨d', hd', hdD, -, -, hI⟩ := h.inv.pgdir (alive_of_runnable h.init)
  obtain rfl : d' = d := Option.some.inj (hd'.symm.trans hd)
  obtain ⟨l, hfr, hl⟩ := h.room
  rw [h.size] at hI
  have hnat : (BitVec.ofNat 32 g).toNat = g := by
    rw [BitVec.toNat_ofNat]
    omega
  have hstep := step_of_wp im (c := .sbrk (.ofNat 32 g)) (Q := fun m' => ∃ l s,
    m.Frames im ∅ l s ∧ KVMPAGES + 4 ≤ l.length ∧
    (∀ n, n * PGSIZE < PGSIZE + g → ∃ f, s.pteAt d' n = entry f (PTE_W ||| PTE_U ||| PTE_P)) ∧
    m' = ({ m with phys := s } : Mach).setProc
      m.initproc { m.proc m.initproc with sz := PGSIZE + g }) h.init ?_
  · obtain ⟨_, hstep, l', s', h', hl', hpte', rfl⟩ := hstep
    exact ⟨d', l', s', hd, hdD, h', hl', hpte', hstep⟩
  show wp _ (sysSbrk im m.initproc (.ofNat 32 g)) _ m
  unfold sysSbrk
  rw [wp_bind, wp_mach, wp_bind]
  unfold growproc
  rw [wp_bind, wp_mach, if_pos (by rw [BitVec.toInt_eq_toNat_cond, hnat]; omega), wp_bind]
  refine wp_pgdirOf hd ?_
  have hsz : uint (PGSIZE + g) = PGSIZE + g := by
    simp only [uint, PGSIZE]
    omega
  have hup : pageUp (PGSIZE + g) - pageUp PGSIZE ≤ 2 ^ 14 := by
    simp only [pageUp, PGSIZE]
    omega
  have hlt : PGSIZE + g < KERNBASE := by
    simp only [PGSIZE, KERNBASE]
    omega
  rw [wp_bind, wp_phys, h.size, hnat, hsz]
  refine wp_allocuvm hfr hdD (fun hnew n hn hlt => ?_) (fun hbig => absurd hbig (by omega))
    (fun hless => absurd hless (by omega)) (fun _ _ hlen => ?_) fun hnew hle l' s' h' hdone hlen => ?_
  · rw [← Bool.not_eq_true]
    intro hp
    have := hI.below n (lt_userpages hlt hnew.le) hp
    rw [le_pageUp_iff] at hn
    omega
  · have := hlen.trans_le (framesFor_le _ _ _ _)
    omega
  · rw [if_neg (by omega), wp_bind, wp_setProc]
    refine ⟨l', s', h', ?_, fun n hn => ?_, rfl⟩
    · simp only [KVMPAGES]
      omega
    · by_cases h0 : n = 0
      · subst h0
        exact ⟨f, by rw [hdone.remaps.outside 0 (by decide) (Or.inl (by decide)), hpte]⟩
      · refine hdone.mapped n ?_ hn
        rw [show pageUp PGSIZE = 1 by decide]
        omega

end Xv6.Vm
