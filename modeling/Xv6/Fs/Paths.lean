import Xv6.Fs.Directory
import Mathlib.Data.List.DropRight
import Mathlib.Data.List.TakeWhile

/-!
# Path resolution

The elements of a path are its non-empty parts between slashes, cut to `DIRSIZ` bytes, and
`skipelem` takes them off one after the other.  `resolve` looks them up on the disk, from directory
to directory; `resolveParent` stops before the last one.  `namei` and `nameiparent` return what these
say, with one more reference to the inode that they return and the other counts as they were,
exactly if no inode on the way has been freed: `ilock` stops the kernel there.
-/

namespace Xv6.Fs

open Bytes Conc Prog

variable {sb : Superblock} {me : Pid} {s t : Kernel}

/-! ## Elements -/

/-- The parts of a path between slashes. -/
def pieces (path : Path) : List (List Byte) := (path.splitOn slash).filter fun w => !w.isEmpty

def elements (path : Path) : List Name := (pieces path).map nameOf

theorem pieces_slash (p : Path) : pieces (slash :: p) = pieces p := by
  unfold pieces List.splitOn
  rw [List.splitOnP_cons_eq_if_modifyHead, if_pos (beq_self_eq_true slash), List.filter_cons_of_neg]
  decide

theorem pieces_dropWhile (p : Path) : pieces (p.dropWhile (· == slash)) = pieces p := by
  induction p with
  | nil => rfl
  | cons c p ih =>
    by_cases hc : c = slash
    · rw [List.dropWhile_cons_of_pos (by simpa using hc), ih, hc, pieces_slash]
    · rw [List.dropWhile_cons_of_neg (by simpa using hc)]

theorem pieces_cons {c : Byte} (hc : c ≠ slash) (p : Path) : pieces (c :: p) =
    (c :: p).takeWhile (· != slash) :: pieces ((c :: p).dropWhile (· != slash)) := by
  obtain ⟨w, hw⟩ : ∃ w, w = (c :: p).takeWhile (· != slash) := ⟨_, rfl⟩
  obtain ⟨q, hq⟩ : ∃ q, q = (c :: p).dropWhile (· != slash) := ⟨_, rfl⟩
  have happ : c :: p = w ++ q := by rw [hw, hq, List.takeWhile_append_dropWhile]
  have hfree : ∀ x ∈ w, (x == slash) = false := by
    intro x hx
    rw [hw] at hx
    simpa using List.mem_takeWhile_imp hx
  have hkeep : ∀ l, List.filter (fun w : List Byte => !w.isEmpty) (w :: l) =
      w :: List.filter (fun w : List Byte => !w.isEmpty) l := by
    intro l
    refine List.filter_cons_of_pos ?_
    rw [hw, List.takeWhile_cons_of_pos (by simpa using hc)]
    rfl
  rw [← hw, ← hq, happ]
  unfold pieces List.splitOn
  cases hq' : q with
  | nil =>
    rw [List.append_nil, List.splitOnP_eq_singleton hfree, hkeep]
    rfl
  | cons d q' =>
    have hd : (d == slash) = true := by
      have := List.head?_dropWhile_not (· != slash) (c :: p)
      rw [← hq, hq'] at this
      simpa using this
    rw [List.splitOnP_append_cons_of_forall_mem hfree d hd, hkeep,
      List.splitOnP_cons_eq_if_modifyHead, if_pos hd, List.filter_cons_of_neg (by decide)]

theorem pieces_eq_nil {p : Path} : pieces p = [] ↔ p.dropWhile (· == slash) = [] := by
  rw [← pieces_dropWhile]
  cases hp : p.dropWhile (· == slash) with
  | nil => exact ⟨fun _ => rfl, fun _ => rfl⟩
  | cons c q =>
    have hc : c ≠ slash := by
      have := List.head?_dropWhile_not (· == slash) p
      rw [hp] at this
      simpa using this
    rw [pieces_cons hc]
    simp

theorem elements_of_skipelem_none {path : Path} (h : skipelem path = none) : elements path = [] := by
  unfold skipelem at h
  cases hp : path.dropWhile (· == slash) with
  | nil => rw [elements, pieces_eq_nil.2 hp, List.map_nil]
  | cons c q =>
    rw [hp] at h
    cases h

theorem elements_of_skipelem {path rest : Path} {name : Name}
    (h : skipelem path = some (name, rest)) :
    elements path = name :: elements rest ∧ (rest = [] ↔ elements rest = []) := by
  unfold skipelem at h
  cases hp : path.dropWhile (· == slash) with
  | nil =>
    rw [hp] at h
    cases h
  | cons c q =>
    have hc : c ≠ slash := by
      have := List.head?_dropWhile_not (· == slash) path
      rw [hp] at this
      simpa using this
    rw [hp] at h
    obtain ⟨hname, hrest⟩ := Prod.mk.inj (Option.some.inj h)
    refine ⟨?_, ?_⟩
    · unfold elements
      rw [← pieces_dropWhile path, hp, pieces_cons hc, List.map_cons, hname, ← hrest,
        pieces_dropWhile]
    · have hstop : rest.dropWhile (· == slash) = rest := by
        rw [← hrest, List.dropWhile_idempotent]
      unfold elements
      rw [List.map_eq_nil_iff, pieces_eq_nil, hstop]

/-! ## The walk on the disk -/

/-- The inode number that directory `a` has under a name. -/
def look (sb : Superblock) (s : Kernel) (a : Nat) (name : Name) : Option Nat :=
  (Slots.find (dirTable (files sb s a)) ((dinodeAt sb s a).size.toNat / DIRENTSZ) name.cstr).map (·.2)

/-- The inode that the elements lead to from inode `a`. -/
def resolve (sb : Superblock) (s : Kernel) : Nat → List Name → Option Nat
  | a, [] => some a
  | a, e :: es =>
    if (dinodeAt sb s a).type = T_DIR then
      match look sb s a e with
      | some n => resolve sb s n es
      | none => none
    else none

/-- The directory that all elements but the last lead to, and the last one. -/
def resolveParent (sb : Superblock) (s : Kernel) (a : Nat) (es : List Name) : Option (Nat × Name) :=
  match es.getLast?, resolve sb s a es.dropLast with
  | some e, some n => if (dinodeAt sb s n).type = T_DIR then some (n, e) else none
  | _, _ => none

/-- The inodes in which an element is looked up. -/
def visited (sb : Superblock) (s : Kernel) : Nat → List Name → List Nat
  | _, [] => []
  | a, e :: es =>
    a :: if (dinodeAt sb s a).type = T_DIR then
      match look sb s a e with
      | some n => visited sb s n es
      | none => []
    else []

theorem visited_found {a n : Nat} {e : Name} (hdir : (dinodeAt sb s a).type = T_DIR)
    (hn : look sb s a e = some n) (es : List Name) :
    visited sb s a (e :: es) = a :: visited sb s n es := by
  rw [visited, if_pos hdir, hn]

theorem visited_stop {a : Nat} {e : Name}
    (h : (dinodeAt sb s a).type = T_DIR → look sb s a e = none) (es : List Name) :
    visited sb s a (e :: es) = [a] := by
  rw [visited]
  by_cases hdir : (dinodeAt sb s a).type = T_DIR
  · rw [if_pos hdir, h hdir]
  · rw [if_neg hdir]

theorem visited_last (a : Nat) (e : Name) : visited sb s a [e] = [a] := by
  unfold visited
  cases look sb s a e <;> simp [visited]

theorem resolve_cons (a : Nat) (e : Name) (es : List Name) : resolve sb s a (e :: es) =
    if (dinodeAt sb s a).type = T_DIR then
      match look sb s a e with
      | some n => resolve sb s n es
      | none => none
    else none := rfl

theorem resolveParent_last (a : Nat) (e : Name) : resolveParent sb s a [e] =
    if (dinodeAt sb s a).type = T_DIR then some (a, e) else none := rfl

theorem resolveParent_cons {a : Nat} {e : Name} {es : List Name} (hes : es ≠ []) :
    resolveParent sb s a (e :: es) =
      if (dinodeAt sb s a).type = T_DIR then
        match look sb s a e with
        | some n => resolveParent sb s n es
        | none => none
      else none := by
  obtain ⟨f, fs, rfl⟩ := List.exists_cons_of_ne_nil hes
  have hlast : (e :: f :: fs).getLast? = (f :: fs).getLast? := List.getLast?_cons_cons
  unfold resolveParent
  rw [hlast, List.dropLast_cons_of_ne_nil hes, resolve_cons]
  by_cases hdir : (dinodeAt sb s a).type = T_DIR
  · rw [if_pos hdir, if_pos hdir]
    cases look sb s a e with
    | none => cases (f :: fs).getLast? <;> rfl
    | some n => rfl
  · rw [if_neg hdir, if_neg hdir]
    cases (f :: fs).getLast? <;> rfl

/-! ## The state during a walk -/

/-- A directory on the disk that is well formed: whole entries, no name twice, and numbers that the
disk has. -/
structure DirAt (sb : Superblock) (s : Kernel) (a : Nat) : Prop where
  whole : DIRENTSZ * ((dinodeAt sb s a).size.toNat / DIRENTSZ) = (dinodeAt sb s a).size.toNat
  distinct : Slots.Distinct (dirTable (files sb s a)) ((dinodeAt sb s a).size.toNat / DIRENTSZ)
  nums : ∀ k, k < (dinodeAt sb s a).size.toNat / DIRENTSZ →
    (entryAt (files sb s a) k).inum.toNat < sb.ninodes

/-- The reference counts. -/
def refs (s : Kernel) : Slot → Int := fun j => (s.icache j).ref

/-- One reference to entry `i`. -/
def one (i : Slot) : Slot → Int := Pi.single i 1

/-- One reference to the entry found, if any. -/
def oneOpt : Option Slot → Slot → Int
  | none => 0
  | some i => one i

theorem refs_setInode (s : Kernel) (i : Slot) (ip : Inode) :
    refs (s.setInode i ip) = refs s + Pi.single i (ip.ref - (s.icache i).ref) := by
  funext j
  by_cases h : j = i
  · subst h
    simp [refs, Kernel.setInode]
  · simp [refs, Kernel.setInode, h]

/-- What a walk found. -/
def walkRef (r : Option (Slot × Name)) : Slot → Int := oneOpt (r.map (·.1))

theorem one_nonneg (i j : Slot) : 0 ≤ one i j := by
  unfold one
  by_cases hji : j = i
  · rw [hji, Pi.single_eq_same]
    decide
  · rw [Pi.single_eq_of_ne hji]

structure Extra (sb : Superblock) (me : Pid) (s : Kernel) (h : Option Slot) (D : Slot → Int)
    (t : Kernel) : Prop where
  icache : t = { s with icache := t.icache }
  ok : FsOk sb none t
  refs : refs t = refs s + D
  nonneg : ∀ i, 0 ≤ D i
  kept : ∀ i, 0 < (s.icache i).ref → (t.icache i).inum = (s.icache i).inum
  lock : ∀ i, (t.icache i).lock = if some i = h then some me else none

namespace Extra

variable {h h' : Option Slot} {D D' : Slot → Int}

theorem blk (hx : Extra sb me s h D t) : t.blk = s.blk := by rw [hx.icache]

theorem dinode (hx : Extra sb me s h D t) (a : Nat) : dinodeAt sb t a = dinodeAt sb s a := by
  unfold dinodeAt
  rw [hx.blk]

theorem files_eq (hx : Extra sb me s h D t) : files sb t = files sb s := by
  have hvol : vol sb none t = vol sb none s := by
    unfold vol
    rw [hx.blk, funext hx.dinode]
  unfold files
  rw [hvol]

theorem ref (hx : Extra sb me s h D t) (i : Slot) :
    (t.icache i).ref = (s.icache i).ref + D i := congrFun hx.refs i

/-- One entry changes. -/
theorem setInode (hx : Extra sb me s h D t) {i : Slot} {x : Inode}
    (hok : FsOk sb none (t.setInode i x)) (hD : D' = D + Pi.single i (x.ref - (t.icache i).ref))
    (hnonneg : ∀ j, 0 ≤ D' j) (hinum : 0 < (s.icache i).ref → x.inum = (t.icache i).inum)
    (hlock : x.lock = if some i = h' then some me else none)
    (hne : ∀ j, j ≠ i → (some j = h' ↔ some j = h)) : Extra sb me s h' D' (t.setInode i x) where
  icache := by rw [hx.icache]; rfl
  ok := hok
  refs := by rw [refs_setInode, hx.refs, hD, add_assoc]
  nonneg := hnonneg
  kept j hj := by
    by_cases hji : j = i
    · subst hji
      rw [Kernel.icache_setInode, hinum hj, hx.kept j hj]
    · rw [Kernel.icache_setInode_ne x hji, hx.kept j hj]
  lock j := by
    by_cases hji : j = i
    · subst hji
      rw [Kernel.icache_setInode, hlock]
    · rw [Kernel.icache_setInode_ne x hji, hx.lock j]
      exact if_congr (hne j hji).symm rfl rfl

theorem locked (hx : Extra sb me s none D t) {i : Slot} (hpos : 0 < (t.icache i).ref)
    (htype : (dinodeAt sb t (t.icache i).inum).type ≠ 0) :
    Extra sb me s (some i) D (locked sb me t i) := by
  refine hx.setInode (hx.ok.locked hpos htype) ?_ hx.nonneg (fun _ => rfl) (if_pos rfl).symm
    fun j hj => ?_
  · rw [sub_self, Pi.single_zero, add_zero]
  · simp [hj]

theorem unlocked {i : Slot} (hx : Extra sb me s (some i) D t) (hpos : 0 < (t.icache i).ref) :
    Extra sb me s none D (unlocked t i) := by
  refine hx.setInode (hx.ok.unlocked hpos) ?_ hx.nonneg (fun _ => rfl) (if_neg (by simp)).symm
    fun j hj => ?_
  · rw [sub_self, Pi.single_zero, add_zero]
  · simp [hj]

theorem iget (hx : Extra sb me s h D t) {n : Nat} {i : Slot} {v : Kernel} (hg : Igot n t i v)
    (hn : n < sb.ninodes) : Extra sb me s h (D + one i) v := by
  have hnonneg : ∀ j, 0 ≤ (D + one i) j := fun j => add_nonneg (hx.nonneg j) (one_nonneg i j)
  have hok := hg.ok hx.ok hn
  cases hg with
  | found hpos hnum =>
    refine hx.setInode hok ?_ hnonneg (fun _ => rfl) (hx.lock i) fun _ _ => Iff.rfl
    rw [add_sub_cancel_left]
    rfl
  | fresh hnew href =>
    refine hx.setInode hok ?_ hnonneg (fun hpos => ?_) (hx.lock i) fun _ _ => Iff.rfl
    · rw [href, sub_zero]
      rfl
    · -- an entry in use is not taken for another inode
      have h1 := hx.ref i
      have h2 := hx.nonneg i
      omega

theorem dropped {i : Slot} (hx : Extra sb me s none (D + one i) t) (hD : ∀ j, 0 ≤ D j) :
    Extra sb me s none D (dropped t i) := by
  refine hx.setInode (hx.ok.dropped i) ?_ hD (fun _ => rfl) (hx.lock i) fun _ _ => Iff.rfl
  rw [sub_sub_cancel_left, Pi.single_neg, one, add_neg_cancel_right]

end Extra

theorem wp_iunlockput_keep {E : Option Panic → Prop} {Q : Unit → Kernel → Prop} {i : Slot}
    (hlock : (t.icache i).lock = some me) (hpos : 0 < (t.icache i).ref) (hkeep : ¬ Frees t i)
    (hQ : Q () (dropped (unlocked t i) i)) : wp E (iunlockput sb me i) Q t := by
  have hsame : (unlocked t i).icache i = { t.icache i with lock := none } := Kernel.icache_setInode
  have hkeep' : ¬ Frees (unlocked t i) i := by
    unfold Frees
    rw [hsame]
    exact hkeep
  have hrun : (iput sb me i).run (unlocked t i) = .ok () (dropped (unlocked t i) i) :=
    run_iput_keep (by rw [hsame]) hkeep'
  unfold iunlockput
  rw [wp_bind]
  refine wp_iunlock_held hlock hpos ?_
  unfold wp
  rw [hrun]
  exact hQ

/-- What `dirlookup` does in a directory that is well formed, with an entry of the cache unused. -/
theorem wp_dirlookup_of {E : Option Panic → Prop} {dp : Slot} {name : Name}
    {Q : Option (Slot × Nat) → Kernel → Prop} (h : Dir sb t dp)
    (htwo : ∃ j, (t.icache j).ref = 0) (hnone : dirMap sb t dp name = none → Q none t)
    (hsome : ∀ k n, dirMap sb t dp name = some (k, n) →
      ∀ i v, Igot n t i v → Q (some (i, DIRENTSZ * k)) v) :
    wp E (dirlookup sb me dp name) Q t := by
  unfold wp
  rw [run_dirlookup h]
  cases hm : dirMap sb t dp name with
  | none => exact hnone hm
  | some x =>
    obtain ⟨k, n⟩ := x
    show Res.Post E Q (((iget ROOTDEV n).run t).bind _)
    rw [Res.post_bind]
    exact wp_iget_of h.ok (Or.inr htwo) (hsome k n hm)

/-! ## The loop -/

/-- The directories on the way are well formed, and an inode on it that is not free has a link or is
in use. -/
structure WayOk (sb : Superblock) (s : Kernel) (a : Nat) (es : List Name) : Prop where
  dirs : ∀ b ∈ visited sb s a es, (dinodeAt sb s b).type = T_DIR → DirAt sb s b
  linked : ∀ b ∈ visited sb s a es, (dinodeAt sb s b).type ≠ 0 → (dinodeAt sb s b).nlink ≠ 0 ∨
    ∃ i, 0 < (s.icache i).ref ∧ (s.icache i).inum = b

theorem WayOk.tail {a n : Nat} {e : Name} {es : List Name} (h : WayOk sb s a (e :: es))
    (hdir : (dinodeAt sb s a).type = T_DIR) (hn : look sb s a e = some n) : WayOk sb s n es := by
  have hsub : ∀ b ∈ visited sb s n es, b ∈ visited sb s a (e :: es) := by
    intro b hb
    rw [visited_found hdir hn]
    exact List.mem_cons_of_mem a hb
  exact ⟨fun b hb => h.dirs b (hsub b hb), fun b hb => h.linked b (hsub b hb)⟩

/-- Two entries of the inode cache are unused. -/
def TwoUnused (s : Kernel) : Prop := ∃ i j, i ≠ j ∧ (s.icache i).ref = 0 ∧ (s.icache j).ref = 0

section Walk

variable {h : Option Slot} {D : Slot → Int} {ip : Slot} {a : Nat}

/-- While one of them is taken, there is another. -/
theorem TwoUnused.unused (hs : TwoUnused s) (hx : Extra sb me s h (one ip) t) :
    ∃ j, (t.icache j).ref = 0 := by
  obtain ⟨i, j, hij, hi, hj⟩ := hs
  by_cases hip : i = ip
  · refine ⟨j, ?_⟩
    rw [hx.ref, hj, one, Pi.single_eq_of_ne (by rw [← hip]; exact hij.symm), add_zero]
  · refine ⟨i, ?_⟩
    rw [hx.ref, hi, one, Pi.single_eq_of_ne hip, add_zero]

theorem Extra.not_frees (hx : Extra sb me s h D t) (hD : 1 ≤ D ip) (hpos : 0 < (t.icache ip).ref)
    (ha : (t.icache ip).inum = a) (hlink : (dinodeAt sb s a).nlink ≠ 0 ∨
      ∃ i, 0 < (s.icache i).ref ∧ (s.icache i).inum = a) : ¬ Frees t ip := by
  rintro ⟨hv, hn, hone⟩
  rcases hlink with hl | ⟨i, hi, hia⟩
  · rw [hx.ok.coherent ip (by simp) hpos hv, ha, hx.dinode] at hn
    exact hl hn
  · -- the entry that was in use before is this one
    have hti : 0 < (t.icache i).ref := by
      have h1 := hx.ref i
      have h2 := hx.nonneg i
      omega
    have hsame : i = ip := hx.ok.uniq i ip hti hpos (by rw [hx.kept i hi, hia, ha])
    have h1 := hx.ref ip
    rw [hsame] at hi
    omega

theorem Extra.dir (hx : Extra sb me s h D t) (hi : Loaded t ip) (ha : (t.icache ip).inum = a)
    (htype : (dinodeAt sb s a).type = T_DIR) (hd : DirAt sb s a) :
    Dir sb t ip ∧ ∀ name, (dirMap sb t ip name).map (·.2) = look sb s a name := by
  have hco : (t.icache ip).d = dinodeAt sb s a := by
    rw [hx.ok.coherent ip (by simp) hi.1 hi.2, ha, hx.dinode]
  have hn : nslots t ip = (dinodeAt sb s a).size.toNat / DIRENTSZ := by rw [nslots, hco]
  have hblocks : dirBlocks sb t ip = files sb s a := by
    unfold dirBlocks
    rw [hx.files_eq, ha]
  refine ⟨⟨hx.ok, hi, ?_, ?_, ?_⟩, fun name => ?_⟩
  · rw [hco, htype]
  · rw [hn, hco, hd.whole]
  · rw [hblocks, hn]
    exact hd.distinct
  · unfold dirMap look
    rw [hblocks, hn]

/-- A number that is found is one that the disk has. -/
theorem DirAt.look_lt (hd : DirAt sb s a) {e : Name} {n : Nat} (hn : look sb s a e = some n) :
    n < sb.ninodes := by
  obtain ⟨⟨k, m⟩, hf, rfl⟩ := Option.map_eq_some_iff.1 hn
  obtain ⟨hk, ht⟩ := hd.distinct.find_eq_some.1 hf
  unfold dirTable at ht
  split at ht
  · cases ht
  · have hm := (Prod.mk.inj (Option.some.inj ht)).2
    rw [← hm]
    exact hd.nums k hk

end Walk

/-- What a walk in either mode is to return: the number of the inode, and the last element. -/
def walked (sb : Superblock) (s : Kernel) (parent : Bool) (a : Nat) (es : List Name) :
    Option (Nat × Name) :=
  if parent then resolveParent sb s a es else (resolve sb s a es).map fun n => (n, .zero)

theorem walked_cons {parent : Bool} {a : Nat} {e : Name} {es : List Name}
    (hgo : ¬ (parent = true ∧ es = [])) : walked sb s parent a (e :: es) =
      if (dinodeAt sb s a).type = T_DIR then
        match look sb s a e with
        | some n => walked sb s parent n es
        | none => none
      else none := by
  unfold walked
  cases parent with
  | true => exact resolveParent_cons fun hes => hgo ⟨rfl, hes⟩
  | false =>
    rw [if_neg (by decide), resolve_cons]
    by_cases hdir : (dinodeAt sb s a).type = T_DIR
    · rw [if_pos hdir, if_pos hdir]
      cases look sb s a e <;> rfl
    · rw [if_neg hdir, if_neg hdir]
      rfl

/-- The inode that a walk returned, by its number. -/
def numbered (t : Kernel) (r : Option (Slot × Name)) : Option (Nat × Name) :=
  r.map fun x => ((t.icache x.1).inum, x.2)

theorem wp_namexEnd {E : Option Panic → Prop} {Q : Option (Slot × Name) → Kernel → Prop}
    {parent : Bool} {ip : Slot} {a : Nat} (hx : Extra sb me s none (one ip) t)
    (ha : (t.icache ip).inum = a) (hend : parent = true → ¬ Frees t ip)
    (hQ : ∀ r w, Extra sb me s none (walkRef r) w →
      numbered w r = walked sb s parent a [] → Q r w) :
    wp E (namexFrom.namexEnd sb me parent ip) Q t := by
  cases parent with
  | true =>
    have hrun : (iput sb me ip).run t = .ok () (dropped t ip) :=
      run_iput_keep (by rw [hx.lock]; simp) (hend rfl)
    have hback : Extra sb me s none 0 (dropped t ip) := by
      rw [← zero_add (one ip)] at hx
      exact hx.dropped fun _ => le_rfl
    unfold namexFrom.namexEnd
    rw [if_pos rfl, wp_bind]
    unfold wp
    rw [hrun]
    exact hQ none _ hback rfl
  | false =>
    refine hQ (some (ip, .zero)) t hx ?_
    show some ((t.icache ip).inum, _) = some (a, _)
    rw [ha]

section Put

variable {v : Kernel} {i : Slot}

theorem icache_put : (dropped (unlocked v i) i).icache i =
    { v.icache i with lock := none, ref := (v.icache i).ref - 1 } := by
  unfold dropped unlocked
  rw [Kernel.icache_setInode, Kernel.icache_setInode]

theorem icache_put_ne {j : Slot} (hj : j ≠ i) :
    (dropped (unlocked v i) i).icache j = v.icache j := by
  unfold dropped unlocked
  rw [Kernel.icache_setInode_ne _ hj, Kernel.icache_setInode_ne _ hj]

end Put

/-- The walk has come to inode `a` and has locked it. -/
structure Arrived (sb : Superblock) (me : Pid) (s : Kernel) (ip : Slot) (a : Nat) (u : Kernel) :
    Prop where
  extra : Extra sb me s (some ip) (one ip) u
  loaded : Loaded u ip
  num : (u.icache ip).inum = a
  dinode : (u.icache ip).d = dinodeAt sb s a
  type : (dinodeAt sb s a).type ≠ 0
  linked : (dinodeAt sb s a).nlink ≠ 0 ∨ ∃ i, 0 < (s.icache i).ref ∧ (s.icache i).inum = a

section Round

variable {E : Option Panic → Prop} {t u v : Kernel} {ip next : Slot} {a n : Nat}

theorem wp_ilock_arrived {Q : Unit → Kernel → Prop} (hx : Extra sb me s none (one ip) t)
    (hpos : 0 < (t.icache ip).ref) (ha : (t.icache ip).inum = a)
    (hlink : (dinodeAt sb s a).type ≠ 0 → (dinodeAt sb s a).nlink ≠ 0 ∨
      ∃ i, 0 < (s.icache i).ref ∧ (s.icache i).inum = a)
    (hE : (dinodeAt sb s a).type = 0 → E (some .ilockNoType))
    (hQ : ∀ u, Arrived sb me s ip a u → Q () u) : wp E (ilock sb me ip) Q t := by
  have hdisk : dinodeAt sb t (t.icache ip).inum = dinodeAt sb s a := by rw [ha, hx.dinode]
  refine wp_ilock_of (hx.ok.num ip)
    (fun hp hv => ⟨hx.ok.type ip hp hv, hx.ok.coherent ip (by simp) hp hv⟩) (Or.inr hpos)
    (Or.inr (by rw [hx.lock]; simp)) ?_ fun _ _ htype => ?_
  · rw [hdisk]
    by_cases hz : (dinodeAt sb s a).type = 0
    · exact Or.inl (hE hz)
    · exact Or.inr hz
  · have hip : (locked sb me t ip).icache ip = { t.icache ip with
        lock := some me, valid := true, d := dinodeAt sb s a } := by
      rw [← hdisk]
      exact Kernel.icache_setInode
    have htype' := hdisk ▸ htype
    exact hQ _ ⟨hx.locked hpos htype, ⟨by rwa [hip], by rw [hip]⟩, by rw [hip, ha], by rw [hip], htype',
      hlink htype'⟩

namespace Arrived

theorem lock (h : Arrived sb me s ip a u) : (u.icache ip).lock = some me :=
  (h.extra.lock ip).trans (if_pos rfl)

/-- The directory is given back and nothing is found. -/
theorem wp_stop {Q : Option (Slot × Name) → Kernel → Prop} (h : Arrived sb me s ip a u)
    (hQ : ∀ w, Extra sb me s none 0 w → Q none w) :
    wp E (do iunlockput sb me ip; return none) Q u := by
  have hself : one ip ip = 1 := Pi.single_eq_same ..
  have hun := h.extra.unlocked h.loaded.1
  rw [← zero_add (one ip)] at hun
  rw [wp_bind]
  exact wp_iunlockput_keep h.lock h.loaded.1 (h.extra.not_frees hself.ge h.loaded.1 h.num h.linked)
    (hQ _ (hun.dropped fun _ => le_rfl))

/-- Stop one level early. -/
theorem wp_last {Q : Option (Slot × Name) → Kernel → Prop} (h : Arrived sb me s ip a u) {name : Name}
    (hQ : ∀ w, Extra sb me s none (one ip) w → numbered w (some (ip, name)) = some (a, name) →
      Q (some (ip, name)) w) : wp E (do iunlock me ip; return some (ip, name)) Q u := by
  have hnum : ((unlocked u ip).icache ip).inum = a := by
    unfold unlocked
    rw [Kernel.icache_setInode, h.num]
  rw [wp_bind]
  refine wp_iunlock_held h.lock h.loaded.1 (hQ _ (h.extra.unlocked h.loaded.1) ?_)
  show some (_, name) = some (a, name)
  rw [hnum]

/-- After the lookup the walk goes on from the inode found, and the directory is given back. -/
theorem wp_next {Q : Unit → Kernel → Prop} (h : Arrived sb me s ip a u) (hn : n < sb.ninodes)
    (hg : Igot n u next v) (hQ : ∀ w, Extra sb me s none (one next) w → 0 < (w.icache next).ref →
      (w.icache next).inum = n → Q () w) : wp E (iunlockput sb me ip) Q v := by
  have hposu := h.loaded.1
  obtain ⟨hnum, hle, hlt⟩ := hg.keeps hposu
  have hx := h.extra.iget hg hn
  rw [add_comm] at hx
  have hpos : 0 < (v.icache ip).ref := by omega
  have hself : 1 ≤ one next ip + one ip ip := by
    have h1 := one_nonneg next ip
    have h2 : one ip ip = 1 := Pi.single_eq_same ..
    omega
  refine wp_iunlockput_keep ((hx.lock ip).trans (if_pos rfl)) hpos
    (hx.not_frees hself hpos (hnum.trans h.num) h.linked)
    (hQ _ ((hx.unlocked hpos).dropped (one_nonneg next)) ?_ ?_)
  · by_cases hne : next = ip
    · rw [hne, icache_put]
      have := hlt hne.symm
      show 0 < (v.icache ip).ref - 1
      omega
    · rw [icache_put_ne hne]
      exact hg.self.2
  · by_cases hne : next = ip
    · rw [hne, icache_put]
      show (v.icache ip).inum = n
      rw [← hne]
      exact hg.self.1
    · rw [icache_put_ne hne]
      exact hg.self.1

end Arrived

end Round

theorem wp_namexFrom {E : Option Panic → Prop} {Q : Option (Slot × Name) → Kernel → Prop}
    (htwo : TwoUnused s) (parent : Bool) (rounds : Nat) {t : Kernel} {ip : Slot} {path : Path} {a : Nat}
    (hx : Extra sb me s none (one ip) t) (hpos : 0 < (t.icache ip).ref)
    (ha : (t.icache ip).inum = a) (hr : path.length ≤ rounds)
    (hway : WayOk sb s a (elements path))
    (hend : parent = true → elements path = [] → ¬ Frees t ip)
    (hE : (∃ b ∈ visited sb s a (elements path), (dinodeAt sb s b).type = 0) →
      E (some .ilockNoType))
    (hQ : ∀ r w, (∀ b ∈ visited sb s a (elements path), (dinodeAt sb s b).type ≠ 0) →
      Extra sb me s none (walkRef r) w →
      numbered w r = walked sb s parent a (elements path) → Q r w) :
    wp E (namexFrom sb me parent rounds ip path) Q t := by
  induction rounds generalizing t ip path a with
  | zero =>
    have hnil : elements path = [] := by
      rw [List.length_eq_zero_iff.1 (Nat.le_zero.1 hr)]
      rfl
    rw [hnil] at hQ
    exact wp_namexEnd hx ha (fun hp => hend hp hnil) fun r w => hQ r w (by simp [visited])
  | succ rounds ih =>
    unfold namexFrom
    cases hs : skipelem path with
    | none =>
      have hnil := elements_of_skipelem_none hs
      rw [hnil] at hQ
      exact wp_namexEnd hx ha (fun hp => hend hp hnil) fun r w => hQ r w (by simp [visited])
    | some x =>
      obtain ⟨name, rest⟩ := x
      obtain ⟨helem, hlast⟩ := elements_of_skipelem hs
      rw [helem] at hway hE hQ
      have hmem : a ∈ visited sb s a (name :: elements rest) := List.mem_cons_self
      dsimp only
      rw [wp_bind]
      refine wp_ilock_arrived hx hpos ha (hway.linked a hmem) (fun hz => hE ⟨a, hmem, hz⟩) fun u hu => ?_
      -- where the walk ends here, `a` is the only inode that was visited
      have hsound : visited sb s a (name :: elements rest) = [a] →
          ∀ b ∈ visited sb s a (name :: elements rest), (dinodeAt sb s b).type ≠ 0 := by
        intro hvis b hb
        rw [hvis, List.mem_singleton] at hb
        exact hb ▸ hu.type
      rw [wp_bind]
      refine wp_inode ?_
      rw [hu.dinode]
      refine wp_ite (fun hnd => hu.wp_stop fun w hw => ?_) fun hdir => ?_
      · refine hQ none w (hsound (visited_stop (fun hc => absurd hc hnd) _)) hw (Eq.symm ?_)
        by_cases hgo : parent = true ∧ elements rest = []
        · rw [hgo.1, hgo.2]
          exact (resolveParent_last a name).trans (if_neg hnd)
        · rw [walked_cons hgo, if_neg hnd]
          rfl
      rw [not_not] at hdir
      refine wp_ite (fun hgo => hu.wp_last fun w hw hnum => ?_) fun hgo => ?_
      · have hnil := hlast.1 hgo.2
        refine hQ _ w (hsound (by rw [hnil, visited_last])) hw ?_
        rw [hgo.1, hnil, hnum]
        exact ((resolveParent_last a name).trans (if_pos hdir)).symm
      have hgo' : ¬ (parent = true ∧ elements rest = []) := fun hc => hgo ⟨hc.1, hlast.2 hc.2⟩
      have hat := hway.dirs a hmem hdir
      obtain ⟨hDir, hlook⟩ := hu.extra.dir hu.loaded hu.num hdir hat
      rw [wp_bind]
      refine wp_dirlookup_of hDir (htwo.unused hu.extra) (fun hnone => hu.wp_stop fun w hw => ?_)
        fun k n hsome next v hg => ?_
      · have hn : look sb s a name = none := by
          rw [← hlook, hnone]
          rfl
        exact hQ none w (hsound (visited_stop (fun _ => hn) _)) hw
          (by rw [walked_cons hgo', if_pos hdir, hn]; rfl)
      · have hn : look sb s a name = some n := by
          rw [← hlook, hsome]
          rfl
        rw [visited_found hdir hn] at hE hQ
        rw [walked_cons hgo', if_pos hdir, hn] at hQ
        have hlen := skipelem_length hs
        dsimp only
        rw [wp_bind]
        refine hu.wp_next (hat.look_lt hn) hg fun w hw hposw hinum => ?_
        refine ih hw hposw hinum (by omega) (hway.tail hdir hn) (fun hp he => absurd ⟨hp, he⟩ hgo')
          (fun ⟨b, hb, hz⟩ => hE ⟨b, List.mem_cons_of_mem a hb, hz⟩)
          fun r w hrest hxr hnum => hQ r w (fun b hb => ?_) hxr hnum
        rcases List.mem_cons.1 hb with rfl | hb
        · exact hu.type
        · exact hrest b hb

/-! ## Whole paths -/

/-- A state in order in which no inode is locked and two entries of the cache are unused. -/
structure Calm (sb : Superblock) (s : Kernel) : Prop where
  ok : FsOk sb none s
  root : ROOTINO < sb.ninodes
  free : ∀ i, (s.icache i).lock = none
  spare : TwoUnused s

def startOf (s : Kernel) (me : Pid) (path : Path) : Nat :=
  if path.head? = some slash then ROOTINO
  else match (s.proc me).cwd with
    | some c => (s.icache c).inum
    | none => 0

theorem Calm.extra (h : Calm sb s) : Extra sb me s none 0 s where
  icache := rfl
  ok := h.ok
  refs := (add_zero _).symm
  nonneg _ := le_rfl
  kept _ _ := rfl
  lock i := (h.free i).trans (if_neg (by simp)).symm

theorem wp_namex {E : Option Panic → Prop} {Q : Option (Slot × Name) → Kernel → Prop}
    (h : Calm sb s) (path : Path) (hcwd : path.head? ≠ some slash →
      ∃ c, (s.proc me).cwd = some c ∧ 0 < (s.icache c).ref)
    (hway : WayOk sb s (startOf s me path) (elements path)) (parent : Bool)
    (hE : (∃ b ∈ visited sb s (startOf s me path) (elements path), (dinodeAt sb s b).type = 0) →
      E (some .ilockNoType))
    (hQ : ∀ r w, (∀ b ∈ visited sb s (startOf s me path) (elements path),
        (dinodeAt sb s b).type ≠ 0) → Extra sb me s none (walkRef r) w →
      numbered w r = walked sb s parent (startOf s me path) (elements path) → Q r w) :
    wp E (namex sb me path parent) Q s := by
  have hx₀ : Extra sb me s none 0 s := h.extra
  unfold namex
  show wp E (if _ then _ else _) Q s
  refine wp_ite (fun habs => ?_) fun hrel => ?_
  · rw [wp_bind]
    have hstart : startOf s me path = ROOTINO := if_pos habs
    obtain ⟨j, _, _, hj, _⟩ := h.spare
    refine wp_iget_of h.ok (Or.inr ⟨j, hj⟩) fun ip t hg => ?_
    have hx := hx₀.iget hg h.root
    rw [zero_add] at hx
    refine wp_namexFrom h.spare parent path.length hx hg.self.2 (hg.self.1.trans hstart.symm) le_rfl
      hway (fun _ _ => ?_) hE hQ
    -- a reference more than before, or not loaded yet
    rintro ⟨hv, _, hone⟩
    cases hg with
    | found hpos hnum =>
      rw [Kernel.icache_setInode] at hone
      simp only at hone
      omega
    | fresh hnew href =>
      rw [Kernel.icache_setInode] at hv
      cases hv
  · obtain ⟨c, hc, hpos⟩ := hcwd hrel
    have hstart : startOf s me path = (s.icache c).inum := by
      unfold startOf
      rw [if_neg hrel, hc]
    have hdup : (duped s c).icache c = { s.icache c with ref := (s.icache c).ref + 1 } :=
      Kernel.icache_setInode
    have hx : Extra sb me s none (one c) (duped s c) := by
      refine hx₀.setInode (h.ok.duped hpos) ?_ (one_nonneg c) (fun _ => rfl)
        ((h.free c).trans (if_neg (by simp)).symm) fun _ _ => Iff.rfl
      rw [add_sub_cancel_left, zero_add]
      rfl
    rw [wp_bind]
    unfold cwd
    rw [wp_atomic, hc]
    show wp E (idup c >>= _) Q s
    rw [wp_bind]
    refine wp_idup (wp_namexFrom h.spare parent path.length hx ?_ ?_ le_rfl hway
      (fun _ _ => ?_) hE hQ)
    · rw [hdup]
      simp only
      omega
    · rw [hdup, hstart]
    · rintro ⟨_, _, hone⟩
      rw [hdup] at hone
      simp only at hone
      omega

/-- `namei` and `nameiparent` return the inode that the elements of the path lead to, with one
reference more, and leave the other counts alone, exactly if no inode on the way is free. -/
theorem path_resolution_iff (h : Calm sb s) (path : Path) (hcwd : path.head? ≠ some slash →
      ∃ c, (s.proc me).cwd = some c ∧ 0 < (s.icache c).ref)
    (hway : WayOk sb s (startOf s me path) (elements path)) :
    ((∃ r t, (namei sb me path).run s = .ok r t ∧ Extra sb me s none (oneOpt r) t ∧
        r.map (fun i => (t.icache i).inum) =
          resolve sb s (startOf s me path) (elements path)) ↔
      ∀ b ∈ visited sb s (startOf s me path) (elements path), (dinodeAt sb s b).type ≠ 0) ∧
    ((∃ r t, (nameiparent sb me path).run s = .ok r t ∧
        Extra sb me s none (oneOpt (r.map (·.1))) t ∧
        r.map (fun x => ((t.icache x.1).inum, x.2)) =
          resolveParent sb s (startOf s me path) (elements path)) ↔
      ∀ b ∈ visited sb s (startOf s me path) (elements path), (dinodeAt sb s b).type ≠ 0) := by
  have hstop : (∃ b ∈ visited sb s (startOf s me path) (elements path),
      (dinodeAt sb s b).type = 0) → ¬ ∀ b ∈ visited sb s (startOf s me path) (elements path),
        (dinodeAt sb s b).type ≠ 0 := fun ⟨b, hb, hz⟩ hall => hall b hb hz
  constructor
  · refine wp_iff ?_
    unfold namei
    rw [wp_bind]
    refine wp_namex h path hcwd hway false hstop fun r w hsound hx hnum => ⟨hsound, hx, ?_⟩
    have hfst : (r.map (·.1)).map (fun i => (w.icache i).inum) = (numbered w r).map (·.1) := by
      cases r <;> rfl
    rw [hfst, hnum]
    unfold walked
    cases resolve sb s (startOf s me path) (elements path) <;> rfl
  · exact wp_iff (wp_namex h path hcwd hway true hstop fun r w hsound hx hnum =>
      ⟨hsound, hx, hnum⟩)

/-! ## Two walks -/

/-- A test for `DirAt`. -/
def dirCheck (sb : Superblock) (s : Kernel) (a : Nat) : Bool :=
  let n := (dinodeAt sb s a).size.toNat / DIRENTSZ
  decide (DIRENTSZ * n = (dinodeAt sb s a).size.toNat) &&
    decide (((List.range n).filterMap fun k => (dirTable (files sb s a) k).map Prod.fst).Nodup) &&
    (List.range n).all fun k => (entryAt (files sb s a) k).inum.toNat < sb.ninodes

/-- A test for `WayOk`. -/
def wayCheck (sb : Superblock) (s : Kernel) (a : Nat) (es : List Name) : Bool :=
  (visited sb s a es).all fun b =>
    (decide ((dinodeAt sb s b).type ≠ T_DIR) || dirCheck sb s b) &&
      (decide ((dinodeAt sb s b).type = 0) || decide ((dinodeAt sb s b).nlink ≠ 0) ||
        (List.finRange NINODE).any fun i => decide (0 < (s.icache i).ref ∧ (s.icache i).inum = b))

theorem dirAt_of_check {a : Nat} (h : dirCheck sb s a = true) : DirAt sb s a := by
  simp only [dirCheck, Bool.and_eq_true, decide_eq_true_eq, List.all_eq_true, List.mem_range] at h
  exact ⟨h.1.1, Slots.distinct_of_nodup h.1.2, h.2⟩

theorem wayOk_of_check {a : Nat} {es : List Name} (h : wayCheck sb s a es = true) :
    WayOk sb s a es := by
  simp only [wayCheck, List.all_eq_true, Bool.and_eq_true, Bool.or_eq_true, decide_eq_true_eq,
    List.any_eq_true] at h
  refine ⟨fun b hb hdir => ?_, fun b hb htype => ?_⟩
  · exact dirAt_of_check ((h b hb).1.resolve_left (not_not.2 hdir))
  · rcases (h b hb).2 with (hz | hlink) | ⟨i, _, hi⟩
    · exact absurd hz htype
    · exact Or.inl hlink
    · exact Or.inr ⟨i, hi⟩

/-- A test for `Calm`, with entries 1 and 2 unused. -/
def calmCheck (sb : Superblock) (s : Kernel) : Bool :=
  fsck sb s && decide (ROOTINO < sb.ninodes) && decide (∀ i, (s.icache i).lock = none) &&
    decide ((s.icache 1).ref = 0 ∧ (s.icache 2).ref = 0)

theorem calm_of_check (hd : sb.datastart ≤ sb.size) (h : calmCheck sb s = true) : Calm sb s := by
  simp only [calmCheck, Bool.and_eq_true, decide_eq_true_eq] at h
  exact ⟨fsOk_of_fsck hd h.1.1.1, h.1.1.2, h.1.2, 1, 2, by decide, h.2.1, h.2.2⟩

/-- `/.` -/
def rootDot : Path := [slash, 46]

/-- The root directory is found under `/.` in a fresh system. -/
theorem path_resolution_root : ∃ s, freshBoot = .ok () s ∧ Calm mkfsSb s ∧ ∃ r t,
    (namei mkfsSb initproc rootDot).run s = .ok r t ∧
      Extra mkfsSb initproc s none (oneOpt r) t ∧ r.map (fun i => (t.icache i).inum) = some 1 := by
  have hready : (freshBoot.bind fun _ s => (.ok (calmCheck mkfsSb s &&
      wayCheck mkfsSb s ROOTINO (elements rootDot) &&
      decide (∀ b ∈ visited mkfsSb s ROOTINO (elements rootDot), (dinodeAt mkfsSb s b).type ≠ 0) &&
      decide (resolve mkfsSb s ROOTINO (elements rootDot) = some 1)) () : Res Panic Bool Unit)) =
        .ok true () := by
    decide +kernel
  obtain ⟨_, s, hs, hf⟩ := Res.bind_eq_ok.1 hready
  simp only [Res.ok.injEq, Bool.and_eq_true, decide_eq_true_eq, and_true] at hf
  obtain ⟨⟨⟨hcalm, hway⟩, hsound⟩, hres⟩ := hf
  have hc := calm_of_check (by decide) hcalm
  obtain ⟨r, t, hrun, hx, hnum⟩ := (path_resolution_iff hc rootDot (fun hne => absurd rfl hne)
    (wayOk_of_check hway)).1.2 hsound
  exact ⟨s, hs, hc, r, t, hrun, hx, hnum.trans hres⟩

/-- A directory without links, inode 3, with the entries `.` and `..`; its parent was inode 2. -/
def orphanDisk (b : Nat) : Block :=
  if b = mkfsSb.iblock ROOTINO then
    putDinode (putDinode .zero (ROOTINO % IPB) mkfsRoot) (3 % IPB)
      ({ Dinode.zero with type := T_DIR, mode := 7, size := 32 }.setAddr 0 85)
  else if b = mkfsSb.bmapstart then .ofFn fun i => if i < 10 then 255 else if i = 10 then 63 else 0
  else if b = 85 then .ofFn fun i =>
    if i < DIRENTSZ then Dirent.bytes ⟨3, dot⟩ i
    else if i < 2 * DIRENTSZ then Dirent.bytes ⟨2, dotdot⟩ (i - DIRENTSZ)
    else 0
  else freshDisk b

/-- The process has that directory as its current one: both were removed while it was there, and the
parent, which nobody used, was freed. -/
def orphan : Kernel :=
  { poweron mkfsSb orphanDisk (fun _ => true) (fun _ => none) with
    icache := fun i => if i = 0 then ⟨ROOTDEV, 3, 1, none, false, .zero⟩
      else ⟨0, 0, 0, none, false, .zero⟩
    proc := fun _ => ⟨.running, none, false, fun _ => none, some 0⟩ }

def dotdotX : Path := [46, 46, slash, 120]

/-- `namei("../x")` there: the number in `..` is that of a free inode, which is no directory, but
`namei` does not return. -/
theorem namei_orphan_panics : Calm mkfsSb orphan ∧ startOf orphan initproc dotdotX = 3 ∧
    WayOk mkfsSb orphan 3 (elements dotdotX) ∧
    visited mkfsSb orphan 3 (elements dotdotX) = [3, 2] ∧
    (dinodeAt mkfsSb orphan 2).type = 0 ∧ resolve mkfsSb orphan 3 (elements dotdotX) = none ∧
    (namei mkfsSb initproc dotdotX).run orphan = .panic .ilockNoType := by
  have hready : (calmCheck mkfsSb orphan && wayCheck mkfsSb orphan 3 (elements dotdotX) &&
      decide (visited mkfsSb orphan 3 (elements dotdotX) = [3, 2]) &&
      decide ((dinodeAt mkfsSb orphan 2).type = 0) &&
      decide (resolve mkfsSb orphan 3 (elements dotdotX) = none)) = true := by
    decide +kernel
  simp only [Bool.and_eq_true, decide_eq_true_eq] at hready
  obtain ⟨⟨⟨⟨hcalm, hway⟩, hvis⟩, hfree⟩, hres⟩ := hready
  have hpanic : (((namei mkfsSb initproc dotdotX).run orphan).bind fun _ _ =>
      (.ok () () : Res Panic Unit Unit)) = .panic .ilockNoType := by
    decide +kernel
  refine ⟨calm_of_check (by decide) hcalm, rfl, wayOk_of_check hway, hvis, hfree, hres, ?_⟩
  rcases Res.bind_eq_panic.1 hpanic with h | ⟨_, _, _, h⟩
  · exact h
  · cases h

end Xv6.Fs
