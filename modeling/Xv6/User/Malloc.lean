import Xv6.User.Heap

/-!
# The allocator of user programs: `malloc`

`malloc` counts the request in units, one more for the header, and goes around the ring for a block
with room.  Back at `freep` it calls `morecore`, which asks `sbrk` for memory and gives it to `free`.
`mallocLoop_spec` is for requests whose size in bytes is a positive `int`: the loop ends, after at most
one call of `sbrk`, and has taken a block of just the size or nothing.
-/

namespace Xv6.User.Umalloc

open RingList

/-- `nunits = (nbytes + sizeof(Header) - 1)/sizeof(Header) + 1;` -/
def nunits (nbytes : Nat) : Nat := (nbytes + 7) % 2 ^ 32 / 8 + 1

/-- `morecore`; it returns 0 or `freep`. -/
def morecore (sbrk : Int → Option Nat) (fuel : Nat) (h : Heap) (nu : Nat) : Option (Heap × Nat) :=
  let nu := if nu < 4096 then 4096 else nu
  let k := asInt (nu * 8 % 2 ^ 32)
  let h := { h with calls := (k, sbrk k) :: h.calls }
  match sbrk k with
  | none => some (h, 0)
  | some p => (free fuel (h.setSize p nu) (unit p 1)).map fun h => (h, h.freep)

/-- The body of `if(p->s.size >= nunits)`: take the whole block, or its end. -/
def carve (h : Heap) (nu prevp p : Nat) : Heap × Nat :=
  if h.size p = nu then ((h.setPtr prevp (h.ptr p)).setFreep prevp, unit p 1)
  else
    let q := unit p (h.size p - nu)
    (((h.setSize p (h.size p - nu)).setSize q nu).setFreep prevp, unit q 1)

/-- The loop of `malloc`, with a bound on the calls of `morecore` and, by `fuel`, on the blocks
looked at between two of them. -/
def mallocLoop (sbrk : Int → Option Nat) (nu fuel : Nat) : Nat → Heap → Nat → Nat → Option (Heap × Nat)
  | 0, _, _, _ => none
  | n + 1, h, prevp, p =>
    (walk (fun e : Nat × Nat => (e.2, h.ptr e.2)) (fun e => nu ≤ h.size e.2 || e.2 == h.freep) fuel
      (prevp, p)).bind fun e =>
        if nu ≤ h.size e.2 then some (carve h nu e.1 e.2)
        else (morecore sbrk fuel h nu).bind fun r =>
          if r.2 = 0 then some (r.1, 0) else mallocLoop sbrk nu fuel n r.1 r.2 (r.1.ptr r.2)

/-- The empty list, made by the first call. -/
def start (base : Nat) (h : Heap) : Heap :=
  if h.freep = 0 then ((h.setPtr base base).setFreep base).setSize base 0 else h

/-- `malloc`; `none` if the bound does not suffice. -/
def malloc (base : Nat) (sbrk : Int → Option Nat) (fuel : Nat) (h : Heap) (nbytes : Nat) :
    Option (Heap × Nat) :=
  let h := start base h
  mallocLoop sbrk (nunits nbytes) fuel fuel h h.freep (h.ptr h.freep)

/-- The memory that `sbrk` has given. -/
def regions (h : Heap) : List Piece := h.calls.filterMap fun c => c.2.map fun r => ⟨r, c.1.toNat⟩

/-- What is assumed of `sbrk`: a region it gives is new, above the others and above `base`, and its end
is an address. -/
def Grants (base : Nat) (h : Heap) (sbrk : Int → Option Nat) : Prop :=
  ∀ k > 0, ∀ r, sbrk k = some r →
    base + 8 ≤ r ∧ (∀ g ∈ regions h, g.start + g.len ≤ r) ∧ r + k < 2 ^ 32

/-! ### Enough fuel is enough -/

theorem free_mono {h h' : Heap} {ap n k : Nat} (hr : free n h ap = some h') (hnk : n ≤ k) :
    free k h ap = some h' := by
  unfold free at hr ⊢
  obtain ⟨p, hp, rfl⟩ := Option.map_eq_some_iff.1 hr
  exact Option.map_eq_some_iff.2 ⟨p, walk_mono hp hnk, rfl⟩

theorem morecore_mono {sbrk : Int → Option Nat} {h : Heap} {nu n k : Nat} {r : Heap × Nat}
    (hr : morecore sbrk n h nu = some r) (hnk : n ≤ k) : morecore sbrk k h nu = some r := by
  unfold morecore at hr ⊢
  dsimp only at hr ⊢
  split at hr
  · exact hr
  · obtain ⟨h', hf, rfl⟩ := Option.map_eq_some_iff.1 hr
    exact Option.map_eq_some_iff.2 ⟨h', free_mono hf hnk, rfl⟩

theorem mallocLoop_mono {sbrk : Int → Option Nat} {nu n k m j : Nat} {h : Heap} {prevp p : Nat}
    {r : Heap × Nat} (hr : mallocLoop sbrk nu n m h prevp p = some r) (hnk : n ≤ k) (hmj : m ≤ j) :
    mallocLoop sbrk nu k j h prevp p = some r := by
  induction m generalizing j h prevp p with
  | zero => cases hr
  | succ m ih =>
    obtain ⟨j, rfl⟩ : ∃ i, j = i + 1 := ⟨j - 1, by omega⟩
    rw [mallocLoop] at hr ⊢
    obtain ⟨e, he, hr⟩ := Option.bind_eq_some_iff.1 hr
    refine Option.bind_eq_some_iff.2 ⟨e, walk_mono he hnk, ?_⟩
    split at hr
    · rename_i hbig
      rwa [if_pos hbig]
    · rename_i hbig
      obtain ⟨c, hc, hr⟩ := Option.bind_eq_some_iff.1 hr
      rw [if_neg hbig]
      refine Option.bind_eq_some_iff.2 ⟨c, morecore_mono hc hnk, ?_⟩
      split at hr
      · rename_i hnull
        rwa [if_pos hnull]
      · rename_i hnull
        rw [if_neg hnull]
        exact ih hr (by omega)

theorem malloc_mono {base : Nat} {sbrk : Int → Option Nat} {h : Heap} {nbytes n k : Nat}
    {r : Heap × Nat} (hr : malloc base sbrk n h nbytes = some r) (hnk : n ≤ k) :
    malloc base sbrk k h nbytes = some r :=
  mallocLoop_mono hr hnk hnk

theorem malloc_unique {base : Nat} {sbrk : Int → Option Nat} {h h₁ h₂ : Heap}
    {nbytes n k ret₁ ret₂ : Nat} (hn : malloc base sbrk n h nbytes = some (h₁, ret₁))
    (hk : malloc base sbrk k h nbytes = some (h₂, ret₂)) : h₁ = h₂ ∧ ret₁ = ret₂ := by
  have heq := (malloc_mono hn (Nat.le_max_left n k)).symm.trans
    (malloc_mono hk (Nat.le_max_right n k))
  exact Prod.mk.inj (Option.some.inj heq)

/-! ### Taking a block -/

variable {base nu : Nat} {h : Heap} {fs : List Nat} {A rs : List Piece}

/-- What `malloc` leaves when it has found room: `q` is the block it took. -/
structure Carved (base nu q : Nat) (h h' : Heap) (fs fs' : List Nat) (A rs : List Piece) : Prop where
  list : FreeList base h' fs'
  tiles : Tiles (⟨q, 8 * nu⟩ :: (fs'.map h'.block ++ A)) rs
  size : h'.size q = nu
  size_of_ne : ∀ x, x ≠ q → x ∉ fs → h'.size x = h.size x
  calls : h'.calls = h.calls

theorem carve_whole {prevp p : Nat} (hf : FreeList base h fs) (hprev : prevp ∈ base :: fs)
    (hp : h.ptr prevp = p) (hpb : p ≠ base) (hsize : h.size p = nu)
    (ht : Tiles (fs.map h.block ++ A) rs) :
    ∃ fs', Carved base nu p h ((h.setPtr prevp (h.ptr p)).setFreep prevp) fs fs' A rs := by
  obtain ⟨l₁, l₂, he⟩ := List.append_of_mem hprev
  have hnext := hf.ptr_eq he
  obtain ⟨l₂, rfl⟩ : ∃ l, l₂ = p :: l := by
    cases l₂ with
    | nil => exact absurd (hp.symm.trans hnext) hpb
    | cons q l => exact ⟨l, by rw [← hp, hnext, List.headD_cons]⟩
  obtain ⟨hfs, hfs'⟩ := tail_eq he l₂
  have hring : Links h.ptr (prevp :: p :: ((l₂ ++ l₁) ++ [prevp])) := (cyc_at he).1 hf.ring
  have hpnext : h.ptr p = (l₂ ++ l₁).headD prevp := links_head (List.isChain_cons_cons.1 hring).2
  have hlinks : Links h.ptr ((l₂ ++ l₁) ++ [prevp]) :=
    (List.isChain_cons.1 (List.isChain_cons_cons.1 hring).2).2
  have hsub : List.Sublist (base :: ((l₁ ++ [prevp]).tail ++ l₂)) (base :: fs) := by
    rw [hfs', he]
    exact ((List.sublist_cons_self p l₂).cons_cons prevp).append_left l₁
  have hnd : prevp ∉ l₂ ++ l₁ := by
    have hnodup := hf.nodup
    rw [he, List.nodup_middle, List.nodup_cons] at hnodup
    intro hmem
    refine hnodup.1 ?_
    simp only [List.mem_append, List.mem_cons] at hmem ⊢
    tauto
  refine ⟨(l₁ ++ [prevp]).tail ++ l₂, ⟨?_, ?_, hf.gaps.sublist hsub, hf.base_size, hf.base_pos⟩, ?_,
    hsize, fun x _ _ => rfl, rfl⟩
  · refine (cyc_at hfs').2 ?_
    rw [hpnext]
    exact links_update hlinks hnd
  · rw [hfs']
    simp
  · refine ht.perm (List.perm_iff_count.2 fun b => ?_)
    show _ = List.count b (⟨p, 8 * nu⟩ :: (((l₁ ++ [prevp]).tail ++ l₂).map h.block ++ A))
    rw [hfs, ← hsize]
    simp only [List.map_append, List.map_cons, List.count_append, List.count_cons, Heap.block]
    omega

theorem carve_end {prevp p : Nat} (hf : FreeList base h fs) (hprev : prevp ∈ base :: fs)
    (hp : p ∈ fs) (hpos : 0 < nu) (hsize : nu < h.size p) (ht : Tiles (fs.map h.block ++ A) rs) :
    ∃ fs', Carved base nu (p + 8 * (h.size p - nu)) h
      (((h.setSize p (h.size p - nu)).setSize (p + 8 * (h.size p - nu)) nu).setFreep prevp)
      fs fs' A rs := by
  obtain ⟨l₁, l₂, he⟩ := List.append_of_mem hp
  set q := p + 8 * (h.size p - nu) with hq
  set size' := Function.update (Function.update h.size p (h.size p - nu)) q nu with hsz
  have hgaps := hf.gaps
  rw [he, ← List.cons_append] at hgaps
  obtain ⟨hleft, hright, hcross⟩ := List.pairwise_append.1 hgaps
  obtain ⟨hnext, hl₂⟩ := List.pairwise_cons.1 hright
  have hbelow : ∀ a ∈ base :: l₁, a < p := fun a ha => by
    have := hcross a ha p List.mem_cons_self
    omega
  have habove : ∀ a ∈ l₂, q < a := fun a ha => by
    have := hnext a ha
    omega
  have hps : size' p = h.size p - nu := by
    rw [hsz, Function.update_of_ne (by omega), Function.update_self]
  have hqs : size' q = nu := by rw [hsz, Function.update_self]
  have hsame : ∀ x, x ≠ q → x ≠ p → size' x = h.size x := fun x hxq hxp => by
    rw [hsz, Function.update_of_ne hxq, Function.update_of_ne hxp]
  have hbp : base < p := hbelow base List.mem_cons_self
  refine ⟨fs, ⟨hf.ring, hprev, ?_, ?_, hf.base_pos⟩, ?_, hqs, ?_, rfl⟩
  · rw [he, ← List.cons_append]
    show (base :: l₁ ++ p :: l₂).Pairwise fun a b => a + 8 * size' a < b
    refine List.pairwise_append.2 ⟨?_, List.pairwise_cons.2 ⟨?_, ?_⟩, ?_⟩
    · refine hleft.imp_of_mem fun {a b} ha _ hab => ?_
      have := hbelow a ha
      rwa [hsame a (by omega) (by omega)]
    · intro b hb
      have := hnext b hb
      rw [hps]
      omega
    · refine hl₂.imp_of_mem fun {a b} ha _ hab => ?_
      have := habove a ha
      rwa [hsame a (by omega) (by omega)]
    · intro a ha b hb
      have := hbelow a ha
      rw [hsame a (by omega) (by omega)]
      exact hcross a ha b hb
  · exact (hsame base (by omega) (by omega)).trans hf.base_size
  · set h' := ((h.setSize p (h.size p - nu)).setSize q nu).setFreep prevp
    have h₁ : l₁.map h'.block = l₁.map h.block := map_block_congr fun x hx => by
      have := hbelow x (List.mem_cons_of_mem base hx)
      exact hsame x (by omega) (by omega)
    have h₂ : l₂.map h'.block = l₂.map h.block := map_block_congr fun x hx => by
      have := habove x hx
      exact hsame x (by omega) (by omega)
    have hblock : h'.block p = ⟨p, 8 * (h.size p - nu)⟩ :=
      congrArg (fun m => (⟨p, 8 * m⟩ : Piece)) hps
    have hcut : Tiles (⟨p, 8 * (h.size p - nu)⟩ :: ⟨q, 8 * nu⟩ ::
        (l₁.map h.block ++ (l₂.map h.block ++ A))) rs := by
      refine Tiles.cut (ht.perm (List.perm_iff_count.2 fun b => ?_)) (by omega) (by omega)
      rw [he, show 8 * (h.size p - nu) + 8 * nu = 8 * h.size p by omega]
      simp only [List.map_append, List.map_cons, List.count_append, List.count_cons, Heap.block]
      omega
    refine hcut.perm (List.perm_iff_count.2 fun b => ?_)
    rw [he, List.map_append, List.map_cons, h₁, h₂, hblock]
    simp only [List.count_append, List.count_cons]
    omega
  · intro x hxq hxf
    exact hsame x hxq fun hxp => hxf (hxp ▸ hp)

theorem carve_spec {prevp p : Nat} (hf : FreeList base h fs) (hprev : prevp ∈ base :: fs)
    (hp : p ∈ base :: fs) (hlink : h.ptr prevp = p) (hpos : 0 < nu) (hsize : nu ≤ h.size p)
    (ht : Tiles (fs.map h.block ++ A) rs)
    (hr : ∀ r ∈ rs, base + 8 ≤ r.start ∧ r.start + r.len < 2 ^ 32) :
    ∃ q fs', (carve h nu prevp p).2 = q + 8 ∧
      Carved base nu q h (carve h nu prevp p).1 fs fs' A rs := by
  have hpb : p ≠ base := by
    rintro rfl
    rw [hf.base_size] at hsize
    omega
  have hpf : p ∈ fs := (List.mem_cons.1 hp).resolve_left hpb
  have hfits : p + 8 * h.size p ≤ 2 ^ 32 - 1 :=
    (ht.bounds (b := h.block p) (fun r hmem => ⟨(hr r hmem).1, Nat.le_sub_one_of_lt (hr r hmem).2⟩)
      (List.mem_append_left A (List.mem_map_of_mem hpf))).2
  by_cases hexact : h.size p = nu
  · obtain ⟨fs', hc⟩ := carve_whole hf hprev hlink hpb hexact ht
    refine ⟨p, fs', ?_, ?_⟩
    · rw [carve, if_pos hexact, unit]
      omega
    · rwa [carve, if_pos hexact]
  · obtain ⟨fs', hc⟩ := carve_end hf hprev hpf hpos (by omega) ht
    have hq : unit p (h.size p - nu) = p + 8 * (h.size p - nu) := by
      rw [unit]
      omega
    refine ⟨p + 8 * (h.size p - nu), fs', ?_, ?_⟩
    · simp only [carve, if_neg hexact, unit]
      omega
    · simpa only [carve, if_neg hexact, hq] using hc

/-! ### The search -/

/-- The loop goes once around the ring: it ends at a block that has room, or back at `freep` if none
has. -/
theorem FreeList.search (hf : FreeList base h fs) (nu : Nat) :
    ∃ y x, walk (fun e : Nat × Nat => (e.2, h.ptr e.2)) (fun e => nu ≤ h.size e.2 || e.2 == h.freep)
        (fs.length + 1) (h.freep, h.ptr h.freep) = some (y, x) ∧
      y ∈ base :: fs ∧ x ∈ base :: fs ∧ h.ptr y = x ∧
      (nu ≤ h.size x ∨ ∀ z ∈ base :: fs, h.size z < nu) := by
  obtain ⟨l₁, l₂, he⟩ := List.append_of_mem hf.freep
  have hring : Links h.ptr (h.freep :: ((l₂ ++ l₁) ++ [h.freep])) := (cyc_at he).1 hf.ring
  have hex : ∃ x ∈ (l₂ ++ l₁) ++ [h.freep], (nu ≤ h.size x || x == h.freep) :=
    ⟨h.freep, by simp, by simp⟩
  obtain ⟨u, y, x, v, hsplit, hstop, hbefore, hwalk⟩ := walk_pairs hring hex
  have hmem : ∀ z, z ∈ h.freep :: ((l₂ ++ l₁) ++ [h.freep]) → z ∈ base :: fs := by
    intro z hz
    rw [he]
    simp only [List.mem_cons, List.mem_append, List.not_mem_nil, or_false] at hz ⊢
    tauto
  have hlen : ((l₂ ++ l₁) ++ [h.freep]).length = fs.length + 1 := by
    have := congrArg List.length he
    simp only [List.length_cons, List.length_append, List.length_nil] at this ⊢
    omega
  refine ⟨y, x, hlen ▸ hwalk, hmem y (by rw [hsplit]; simp), hmem x (by rw [hsplit]; simp), ?_, ?_⟩
  · rw [hsplit] at hring
    exact (List.isChain_cons_cons.1 (List.IsChain.right_of_append hring)).1
  · by_cases hbig : nu ≤ h.size x
    · exact .inl hbig
    -- no block before `x` had room, and `x` is `freep`, where the circle closes
    have hx : x = h.freep := by
      simpa [hbig] using hstop
    obtain ⟨w, hw⟩ : ∃ w, u ++ [y] = h.freep :: w := by
      cases u with
      | nil => exact ⟨[], by rw [(List.cons.inj hsplit).1, List.nil_append]⟩
      | cons a u => exact ⟨u ++ [y], by rw [(List.cons.inj hsplit).1, List.cons_append]⟩
    have hrest : (l₂ ++ l₁) ++ [h.freep] = w ++ x :: v := by
      have h' : h.freep :: ((l₂ ++ l₁) ++ [h.freep]) = (u ++ [y]) ++ x :: v := by
        rw [hsplit]
        simp
      rw [hw, List.cons_append] at h'
      exact (List.cons.inj h').2
    have hnodup : h.freep ∉ l₂ ++ l₁ := by
      have hnd := hf.nodup
      rw [he, List.nodup_middle, List.nodup_cons] at hnd
      intro hmem
      exact hnd.1 (List.mem_append.2 (List.mem_append.1 hmem).symm)
    have hv : l₂ ++ l₁ = w := by
      rcases List.eq_nil_or_concat v with rfl | ⟨v, b, rfl⟩
      · exact (List.append_inj' hrest rfl).1
      · rw [List.concat_eq_append, ← List.cons_append, ← List.append_assoc] at hrest
        rw [(List.append_inj' hrest rfl).1, hx] at hnodup
        simp at hnodup
    refine .inr fun z hz => ?_
    have hz' : z = h.freep ∨ z ∈ w := by
      rw [he] at hz
      rw [← hv]
      simp only [List.mem_cons, List.mem_append] at hz ⊢
      tauto
    rcases hz' with rfl | hz'
    · rw [← hx]
      omega
    · have hns := hbefore z (by rw [hw]; exact hz')
      simp only [Bool.or_eq_true, decide_eq_true_eq, not_or] at hns
      omega

/-! ### `malloc` -/

/-- What `malloc` leaves: it has failed and nothing is taken, or `q` is the block it took.  `A` are the
blocks that were allocated before, and `new` the calls of `sbrk` it made. -/
structure Malloced (base nu : Nat) (h h' : Heap) (A : List Piece) (ret : Nat) : Prop where
  list : ∃ fs', FreeList base h' fs' ∧
    (ret = 0 ∧ Tiles (fs'.map h'.block ++ A) (regions h') ∨
      ∃ q, ret = q + 8 ∧ h'.size q = nu ∧ Tiles (⟨q, 8 * nu⟩ :: (fs'.map h'.block ++ A)) (regions h'))
  bounds : ∀ r ∈ regions h', base + 8 ≤ r.start ∧ r.start + r.len < 2 ^ 32
  kept : ∀ b ∈ A, h'.size b.start = h.size b.start
  calls : ∃ new, h'.calls = new ++ h.calls ∧ ∀ c ∈ new, 0 < c.1

theorem notMem_of_tiles (ht : Tiles (fs.map h.block ++ A) rs) {b : Piece} (hb : b ∈ A) :
    b.start ∉ fs := by
  intro hmem
  obtain ⟨l₁, l₂, he⟩ := List.append_of_mem (List.mem_map_of_mem (f := h.block) hmem)
  rw [he] at ht
  have ht' := ht.perm (List.perm_middle.append_right A)
  exact ht'.start_ne (b := b) (by simp [hb]) rfl

theorem Carved.malloced {h₀ h' : Heap} {q : Nat} {fs' : List Nat} {new : List (Int × Option Nat)}
    (hc : Carved base nu q h h' fs fs' A (regions h)) (ht : Tiles (fs.map h.block ++ A) (regions h))
    (hr : ∀ r ∈ regions h, base + 8 ≤ r.start ∧ r.start + r.len < 2 ^ 32)
    (hkept : ∀ b ∈ A, h.size b.start = h₀.size b.start) (hcalls : h.calls = new ++ h₀.calls)
    (hnew : ∀ c ∈ new, 0 < c.1) : Malloced base nu h₀ h' A (q + 8) := by
  have hreg : regions h' = regions h := by rw [regions, regions, hc.calls]
  refine ⟨⟨fs', hc.list, .inr ⟨q, rfl, hc.size, hreg ▸ hc.tiles⟩⟩, hreg ▸ hr, fun b hb => ?_,
    new, hc.calls.trans hcalls, hnew⟩
  have hne := hc.tiles.start_ne (List.mem_append_right _ hb)
  rw [hc.size_of_ne _ hne (notMem_of_tiles ht hb), hkept b hb]

theorem FreeList.congr {h' : Heap} (hf : FreeList base h fs) (hptr : h'.ptr = h.ptr)
    (hfreep : h'.freep = h.freep) (hsize : ∀ x ∈ base :: fs, h'.size x = h.size x) :
    FreeList base h' fs where
  ring := hptr ▸ hf.ring
  freep := hfreep ▸ hf.freep
  gaps := hf.gaps.imp_of_mem fun {a b} ha _ hab => by rwa [hsize a ha]
  base_size := (hsize base List.mem_cons_self).trans hf.base_size
  base_pos := hf.base_pos

/-- What `morecore` leaves: `sbrk` has refused, or there is now a block of `nu` units. -/
structure Grown (base nu : Nat) (h h' : Heap) (A : List Piece) : Prop where
  list : ∃ fs', FreeList base h' fs' ∧ Tiles (fs'.map h'.block ++ A) (regions h') ∧
    ∃ x ∈ fs', nu ≤ h'.size x
  bounds : ∀ r ∈ regions h', base + 8 ≤ r.start ∧ r.start + r.len < 2 ^ 32
  kept : ∀ b ∈ A, h'.size b.start = h.size b.start
  calls : ∃ c, h'.calls = c :: h.calls ∧ 0 < c.1

theorem morecore_spec {sbrk : Int → Option Nat} (hf : FreeList base h fs)
    (ht : Tiles (fs.map h.block ++ A) (regions h))
    (hr : ∀ r ∈ regions h, base + 8 ≤ r.start ∧ r.start + r.len < 2 ^ 32)
    (hg : Grants base h sbrk) (hnu : 8 * nu < 2 ^ 31) :
    (∃ c : Int × Option Nat, 0 < c.1 ∧ c.2 = none ∧
      ∀ fuel, morecore sbrk fuel h nu = some ({ h with calls := c :: h.calls }, 0)) ∨
    ∃ h', (∀ fuel, fs.length + 1 ≤ fuel → morecore sbrk fuel h nu = some (h', h'.freep)) ∧
      Grown base nu h h' A := by
  set m := if nu < 4096 then 4096 else nu with hm
  have hmle : nu ≤ m ∧ 0 < m ∧ 8 * m < 2 ^ 31 := by
    rw [hm]
    split <;> omega
  have hk : asInt (m * 8 % 2 ^ 32) = 8 * m := by
    rw [asInt]
    split <;> omega
  cases hs : sbrk (8 * m) with
  | none =>
    refine .inl ⟨(8 * m, none), by simp; omega, rfl, fun fuel => ?_⟩
    simp only [morecore, ← hm, hk, hs]
  | some p =>
    obtain ⟨hlo, hnew, hhi⟩ := hg (8 * m) (by omega) p hs
    set h₁ : Heap := ({ h with calls := ((8 * m : Int), some p) :: h.calls } : Heap).setSize p m with hh₁
    have hreg : regions h₁ = ⟨p, 8 * m⟩ :: regions h := by
      rw [hh₁]
      simp [regions]
      omega
    have hpf : ∀ x ∈ base :: fs, x ≠ p := by
      rintro x hx rfl
      rcases List.mem_cons.1 hx with rfl | hx
      · omega
      · have hmem : h.block x ∈ fs.map h.block ++ A :=
          List.mem_append_left A (List.mem_map_of_mem hx)
        have hb : 0 ≤ x ∧ x + 8 * h.size x ≤ x :=
          ht.bounds (fun r hmem => ⟨Nat.zero_le _, hnew r hmem⟩) hmem
        have hpos : 0 < 8 * h.size x := ht.pos _ hmem
        omega
    have hsame : ∀ x, x ≠ p → h₁.size x = h.size x := fun x hx => Function.update_of_ne hx _ _
    have hf₁ : FreeList base h₁ fs := hf.congr rfl rfl fun x hx => hsame x (hpf x hx)
    have hsz : h₁.size p = m := by simp [hh₁]
    have ht₁ : Tiles (⟨p, 8 * m⟩ :: (fs.map h₁.block ++ A)) (regions h₁) := by
      rw [hreg, map_block_congr fun x hx => hsame x (hpf x (List.mem_cons_of_mem base hx))]
      exact ht.grow (by simp; omega) hnew
    have hr₁ : ∀ r ∈ regions h₁, base + 8 ≤ r.start ∧ r.start + r.len < 2 ^ 32 := by
      intro r hmem
      rw [hreg] at hmem
      rcases List.mem_cons.1 hmem with rfl | hmem
      · exact ⟨hlo, by simp; omega⟩
      · exact hr r hmem
    obtain ⟨h', fs', hfree, hfd⟩ := free_spec hf₁ hsz ht₁ fun r hmem =>
      ⟨(hr₁ r hmem).1, Nat.le_of_lt (hr₁ r hmem).2⟩
    refine .inr ⟨h', fun fuel hfuel => ?_, ?_⟩
    · simp only [morecore, ← hm, hk, hs, ← hh₁, hfree fuel hfuel, Option.map_some]
    · have hreg' : regions h' = regions h₁ := by rw [regions, regions, hfd.calls]
      obtain ⟨x, hx, hxm⟩ := hfd.room
      refine ⟨⟨fs', hfd.list, hreg' ▸ hfd.tiles, x, hx, hmle.1.trans hxm⟩, hreg' ▸ hr₁, fun b hb => ?_,
        ((8 * m : Int), some p), hfd.calls, by simp; omega⟩
      have hbp := ht₁.start_ne (List.mem_append_right _ hb)
      rw [hfd.size_of_ne _ hbp (notMem_of_tiles ht hb), hsame _ hbp]

section Loop

variable {sbrk : Int → Option Nat}

variable (sbrk) in
theorem mallocLoop_found (hf : FreeList base h fs) (ht : Tiles (fs.map h.block ++ A) (regions h))
    (hr : ∀ r ∈ regions h, base + 8 ≤ r.start ∧ r.start + r.len < 2 ^ 32) (hpos : 0 < nu)
    (hroom : ∃ x ∈ base :: fs, nu ≤ h.size x) :
    ∃ h' q fs', (∀ fuel n, fs.length + 1 ≤ fuel →
        mallocLoop sbrk nu fuel (n + 1) h h.freep (h.ptr h.freep) = some (h', q + 8)) ∧
      Carved base nu q h h' fs fs' A (regions h) := by
  obtain ⟨y, x, hwalk, hy, hx, hlink, hcase⟩ := hf.search nu
  have hbig : nu ≤ h.size x := by
    rcases hcase with hbig | hsmall
    · exact hbig
    · obtain ⟨z, hz, hzbig⟩ := hroom
      have := hsmall z hz
      omega
  obtain ⟨q, fs', hret, hc⟩ := carve_spec hf hy hx hlink hpos hbig ht hr
  refine ⟨(carve h nu y x).1, q, fs', fun fuel n hfuel => ?_, hc⟩
  rw [mallocLoop, walk_mono hwalk hfuel, Option.bind_some, if_pos hbig, ← hret]

theorem mallocLoop_grow (hf : FreeList base h fs) (hnone : ∀ x ∈ base :: fs, h.size x < nu)
    {fuel n : Nat} (hfuel : fs.length + 1 ≤ fuel) :
    mallocLoop sbrk nu fuel (n + 1) h h.freep (h.ptr h.freep) =
      (morecore sbrk fuel h nu).bind fun r =>
        if r.2 = 0 then some (r.1, 0) else mallocLoop sbrk nu fuel n r.1 r.2 (r.1.ptr r.2) := by
  obtain ⟨y, x, hwalk, -, hx, -⟩ := hf.search nu
  have hsmall := hnone x hx
  rw [mallocLoop, walk_mono hwalk hfuel, Option.bind_some, if_neg (by simpa using hsmall)]

theorem mallocLoop_spec (hf : FreeList base h fs) (ht : Tiles (fs.map h.block ++ A) (regions h))
    (hr : ∀ r ∈ regions h, base + 8 ≤ r.start ∧ r.start + r.len < 2 ^ 32)
    (hg : Grants base h sbrk) (hpos : 0 < nu) (hnu : 8 * nu < 2 ^ 31) :
    ∃ fuel h' ret, mallocLoop sbrk nu fuel fuel h h.freep (h.ptr h.freep) = some (h', ret) ∧
      Malloced base nu h h' A ret := by
  by_cases hroom : ∃ x ∈ base :: fs, nu ≤ h.size x
  · obtain ⟨h', q, fs', hloop, hc⟩ := mallocLoop_found sbrk hf ht hr hpos hroom
    exact ⟨fs.length + 1, h', q + 8, hloop _ _ le_rfl,
      hc.malloced ht hr (fun _ _ => rfl) (List.nil_append _).symm (by simp)⟩
  · have hnone : ∀ x ∈ base :: fs, h.size x < nu := fun x hx => by
      by_contra hle
      exact hroom ⟨x, hx, by omega⟩
    rcases morecore_spec hf ht hr hg hnu with ⟨c, hc, hnull, hmore⟩ | ⟨h₁, hmore, hgrown⟩
    · -- `sbrk` refuses
      refine ⟨fs.length + 1, { h with calls := c :: h.calls }, 0, ?_, ?_⟩
      · rw [mallocLoop_grow hf hnone le_rfl, hmore, Option.bind_some, if_pos rfl]
      · have hreg : regions { h with calls := c :: h.calls } = regions h := by
          simp [regions, hnull]
        exact ⟨⟨fs, hf.congr rfl rfl fun _ _ => rfl, .inl ⟨rfl, hreg ▸ ht⟩⟩, hreg ▸ hr,
          fun _ _ => rfl, [c], rfl, by simpa using hc⟩
    · obtain ⟨⟨fs₁, hf₁, ht₁, x, hx, hbig⟩, hr₁, hkept, c, hcalls, hcpos⟩ := hgrown
      obtain ⟨h', q, fs', hloop, hcv⟩ := mallocLoop_found sbrk hf₁ ht₁ hr₁ hpos
        ⟨x, List.mem_cons_of_mem base hx, hbig⟩
      have hfreep : h₁.freep ≠ 0 := by
        have := hf₁.base_le hf₁.freep
        have := hf₁.base_pos
        omega
      have hnew : h₁.calls = [c] ++ h.calls := hcalls
      refine ⟨fs.length + fs₁.length + 2, h', q + 8, ?_,
        hcv.malloced ht₁ hr₁ hkept hnew (by simpa using hcpos)⟩
      rw [mallocLoop_grow hf hnone (by omega), hmore _ (by omega), Option.bind_some, if_neg hfreep]
      exact hloop _ _ (by omega)

end Loop

end Xv6.User.Umalloc
