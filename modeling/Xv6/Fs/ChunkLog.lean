import Xv6.Fs.Fsck
import Xv6.Lib.Amortize
import Xv6.Lib.Footprint

/-!
# A chunk of `filewrite` fits its log reservation

`begin_op` reserves `MAXOPBLOCKS` blocks of the log for a system call.  `filewrite` cuts a write into
chunks such that `writei` of one of them logs no more distinct blocks than that: the blocks written,
for each block that is new its bitmap block, the indirect block and its bitmap block, and the block
of the inode.

The count is amortised.  The potential `indDue` pays for the indirect block, which is logged again
with every new entry; each round then costs two blocks where it allocates and one where it does not
(`cost_round`).
-/

namespace Xv6.Fs

open Bytes Conc Prog

variable {sb : Superblock} {me : Pid} {s s' : Kernel} {i : Slot} {X : Finset Nat}

/-! ## The blocks that a run logs -/

/-- The state in a transaction with an empty log. -/
def cleared (s : Kernel) : Kernel :=
  { s with log := { s.log with size := LOGSIZE, outstanding := 1, lh := [] } }

/-- The blocks that a section calls `log_write` on: what it appends to an empty log.  With absorption
a log that holds the block already would not show it, and with a full log the call does not return. -/
def logsOf : Emit Panic Kernel Nat := fun _ f s =>
  match f (cleared s) with
  | .ok _ t => t.log.lh
  | _ => []

/-- The blocks that the run of `p` from `s` calls `log_write` on. -/
abbrev blocksLogged {α : Type} (p : K α) (s : Kernel) : List Nat := p.out logsOf s

theorem logWrite_eq_ok {b : Nat} {x : Block} {u : Unit} (h : s.logWrite b x = .ok u s') :
    s' = s.logged b x := by
  have hpost : (s.logWrite b x).Post (fun _ => True) fun _ t => t = s.logged b x :=
    post_logWrite (Or.inl ⟨trivial, trivial⟩) rfl
  rw [h] at hpost
  exact hpost

section Sections

variable {α : Type} {f : Kernel → Res Panic α Kernel}

theorem logsOf_keep (h : ∀ s a s', f s = .ok a s' → s'.log = s.log) (s : Kernel) :
    logsOf α f s = [] := by
  unfold logsOf
  cases hc : f (cleared s) with
  | ok b t =>
    show t.log.lh = []
    rw [h _ _ _ hc]
    rfl
  | panic e => rfl
  | sleep => rfl

theorem logsOf_none {c : α} (h : f (cleared s) = .ok c (cleared s)) : logsOf α f s = [] := by
  unfold logsOf
  rw [h]
  rfl

theorem logsOf_logWrite {b : Nat} {x : Block} {c : α}
    (h : f (cleared s) = ((cleared s).logWrite b x).bind fun _ t => .ok c t) :
    logsOf α f s = [b] := by
  unfold logsOf
  rw [h]
  rfl

end Sections

theorem logsOf_write (b : Nat) (x : Kernel → Block) (s : Kernel) :
    logsOf Unit (fun s => s.logWrite b (x s)) s = [b] := rfl

/-! ## Code that does not log -/

/-- No section of the code touches the log, or stops as `log_write` does. -/
def Mute {α : Type} (p : K α) : Prop :=
  Each (fun e => e ≠ some .tooBigTransaction ∧ e ≠ some .logWriteOutside)
    (fun s s' => s'.log = s.log) p

theorem Mute.quiet {α : Type} {p : K α} (h : Mute p) (s : Kernel) : p.out logsOf s = [] := by
  induction p generalizing s with
  | ret a => rfl
  | atom l f k ih =>
    have hf : ∀ s a s', f s = .ok a s' → s'.log = s.log := by
      intro s a s' hr
      have := h.1 s
      rwa [hr] at this
    simp only [out, logsOf_keep hf]
    cases f s with
    | ok b s' => exact ih b (h.2 b) s'
    | panic e => rfl
    | sleep => rfl

theorem Mute.log {α : Type} {p : K α} (h : Mute p) {a : α} (hr : p.run s = .ok a s') :
    s'.log = s.log := by
  have hwp := Each.wp h (fun _ => rfl) (fun _ _ _ h₁ h₂ => h₂.trans h₁) s
  have := wp_ok hwp hr
  exact this

theorem Mute.run_ne {α : Type} {p : K α} (h : Mute p) (s : Kernel) :
    p.run s ≠ .panic .tooBigTransaction ∧ p.run s ≠ .panic .logWriteOutside := by
  have hwp := Each.wp h (fun _ => rfl) (fun _ _ _ h₁ h₂ => h₂.trans h₁) s
  exact ⟨fun hr => (wp_panic hwp hr).1 rfl, fun hr => (wp_panic hwp hr).2 rfl⟩

theorem mute_bread (b : Nat) : Mute (bread b) := each_atomic fun _ => rfl

theorem mute_inode (i : Slot) : Mute (inode i) := each_atomic fun _ => rfl

theorem mute_setInode (i : Slot) (f : Inode → Inode) : Mute (setInode i f) :=
  each_atomic fun _ => rfl

theorem mute_bmapAddr (i : Slot) (k : Nat) : Mute (bmapAddr i k) := each_atomic fun _ => rfl

theorem mute_bmapEntry (b k : Nat) : Mute (bmapEntry b k) := each_atomic fun _ => rfl

theorem mute_panic {α : Type} {e : Panic} (he : e ≠ .tooBigTransaction ∧ e ≠ .logWriteOutside) :
    Mute (panic e : K α) :=
  each_throw ⟨fun h => he.1 (Option.some.inj h), fun h => he.2 (Option.some.inj h)⟩

theorem mute_acquiresleep (i : Slot) : Mute (acquiresleep me i) := each_atomic fun s => by
  cases (s.icache i).lock with
  | none => rfl
  | some p => exact ⟨by simp, by simp⟩

theorem mute_ilock (i : Slot) : Mute (ilock sb me i) := by
  refine Each.bind (mute_inode i) fun ip => ?_
  refine Each.ite (fun _ => Each.bind (mute_panic (by decide)) fun _ => ?_) fun _ => ?_
  all_goals
    refine Each.bind (mute_acquiresleep i) fun _ => Each.bind (mute_inode i) fun ip => ?_
    refine Each.ite (fun _ => ?_) fun _ => each_pure _
    refine Each.bind (mute_bread _) fun bp => Each.bind (mute_setInode i _) fun _ => ?_
    exact Each.ite (fun _ => mute_panic (by decide)) fun _ => each_pure _

theorem mute_iunlock (i : Slot) : Mute (iunlock me i) := by
  refine Each.bind (mute_inode i) fun ip => ?_
  refine Each.ite (fun _ => Each.bind (mute_panic (by decide)) fun _ => ?_) fun _ => ?_
  all_goals exact mute_setInode i _

theorem mute_consolewrite (i : Slot) (src : Nat → Byte) (n : Int) :
    Mute (consolewrite sb me i src n) := by
  refine Each.bind (mute_iunlock i) fun _ => Each.bind (each_atomic fun _ => rfl) fun _ => ?_
  exact Each.bind (mute_ilock i) fun _ => each_pure _

/-! ## Counting the blocks of the allocator -/

theorem cost_write {l : Sec} (b : Nat) (x : Kernel → Block) (X : Finset Nat) (s : Kernel) :
    Cost logsOf (fun _ _ => 0) X (.atomic l fun s => s.logWrite b (x s) : K Unit)
      (if b ∈ X then 0 else 1) s := by
  refine .of_subset (A := {b}) ?_ ?_
  · rw [out_atomic, logsOf_write]
    exact subset_rfl
  · by_cases hb : b ∈ X
    · rw [if_pos hb, Finset.sdiff_eq_empty_iff_subset.2 (Finset.singleton_subset_iff.2 hb)]
      exact le_rfl
    · rw [if_neg hb]
      exact Finset.card_le_card Finset.sdiff_subset

theorem mem_out_write {l : Sec} {b : Nat} {x : Kernel → Block} :
    b ∈ (.atomic l fun s => s.logWrite b (x s) : K Unit).out logsOf s := by
  rw [out_atomic, logsOf_write]
  exact List.mem_singleton_self b

/-- A round of `balloc` finds no free bit, or it sets the one it finds. -/
theorem ballocRound_cases (sb : Superblock) (b : Nat) (s : Kernel) :
    ((ballocRound sb b).run s = .ok none s ∧ (ballocRound sb b).out logsOf s = []) ∨
    ∃ x bi, (ballocRound sb b).run s =
        ((s.logWrite (sb.bblock b) x).bind fun _ t => .ok (some bi) t) ∧
      (ballocRound sb b).out logsOf s = [sb.bblock b] := by
  unfold ballocRound
  rw [run_atomic, out_atomic]
  dsimp only
  cases hf : (List.range (min BPB (sb.size - b))).find?
      fun bi => !bitOf (s.blk (sb.bblock b)) bi with
  | none =>
    refine Or.inl ⟨rfl, logsOf_none (c := none) ?_⟩
    rw [show (cleared s).blk = s.blk from rfl, hf]
  | some bi =>
    refine Or.inr ⟨_, bi, rfl, logsOf_logWrite (x := setBit (s.blk (sb.bblock b)) bi)
      (c := some bi) ?_⟩
    rw [show (cleared s).blk = s.blk from rfl, hf]

theorem cost_ballocFrom (bs : List Nat) (X : Finset Nat) (s : Kernel) :
    Cost logsOf (fun _ _ => 0) X (ballocFrom sb bs) 2 s := by
  induction bs generalizing X s with
  | nil => exact (Cost.quiet ((mute_panic (by decide)).quiet s) fun _ _ _ => le_rfl).mono (Nat.zero_le 2)
  | cons b bs ih =>
    unfold ballocFrom
    rcases ballocRound_cases sb b s with ⟨hrun, hout⟩ | ⟨x, bi, hrun, hout⟩
    · refine Cost.quiet_bind hout fun r t ht => ⟨le_rfl, ?_⟩
      rw [hrun] at ht
      cases ht
      exact ih _ _
    · have hround : Cost logsOf (fun _ _ => 0) X (ballocRound sb b) 1 s := by
        refine .of_subset (A := {sb.bblock b}) ?_ (Finset.card_le_card Finset.sdiff_subset)
        rw [hout]
        exact subset_rfl
      refine hround.bind (n := 1) fun r t ht => ?_
      rw [hrun] at ht
      obtain ⟨_, t', _, ht⟩ := Res.bind_eq_ok.1 ht
      cases ht
      have hzero : Cost logsOf (fun _ _ => 0) (known logsOf X (ballocRound sb b) s)
          (bzero (b + bi)) 1 t := (cost_write _ _ _ _).mono (by split <;> omega)
      exact hzero.bind (n := 0) fun _ _ _ => .ret

theorem cost_balloc (X : Finset Nat) (s : Kernel) :
    Cost logsOf (fun _ _ => 0) X (balloc sb) 2 s := cost_ballocFrom _ X s

theorem mem_out_ballocFrom {bs : List Nat} {r : Nat} (h : (ballocFrom sb bs).run s = .ok r s') :
    r ∈ (ballocFrom sb bs).out logsOf s := by
  induction bs generalizing s with
  | nil => cases h
  | cons b bs ih =>
    unfold ballocFrom at h ⊢
    obtain ⟨o, s₁, h₁, h⟩ := run_bind_eq_ok.1 h
    rw [out_bind_of_ok h₁]
    refine List.mem_append_right _ ?_
    cases o with
    | none => exact ih h
    | some k =>
      change (bzero (b + k) >>= fun _ => pure (b + k)).run s₁ = _ at h
      show r ∈ (bzero (b + k) >>= fun _ => pure (b + k)).out logsOf s₁
      obtain ⟨_, s₂, h₂, h⟩ := run_bind_eq_ok.1 h
      cases h
      rw [out_bind_of_ok h₂]
      exact List.mem_append_left _ mem_out_write

theorem mem_out_balloc {r : Nat} (h : (balloc sb).run s = .ok r s') :
    r ∈ (balloc sb).out logsOf s := mem_out_ballocFrom h

/-! ## Counting the blocks of `bmap` -/

theorem quiet_bmapDirect {k : Nat} (h : (s.icache i).d.addr k ≠ 0) :
    (bmapDirect sb i k).out logsOf s = [] := by
  unfold bmapDirect
  have hlook : (bmapAddr i k).run s = .ok ((s.icache i).d.addr k) s := run_atomic _ _ _
  rw [out_bind_of_ok hlook, if_neg h]
  exact (List.append_nil _).trans ((mute_bmapAddr i k).quiet s)

theorem cost_bmapDirect (k : Nat) (X : Finset Nat) (s : Kernel) :
    Cost logsOf (fun _ _ => 0) X (bmapDirect sb i k) 2 s := by
  unfold bmapDirect
  refine Cost.quiet_bind ((mute_bmapAddr i k).quiet s) fun addr s₁ _ => ⟨le_rfl, ?_⟩
  by_cases hz : addr = 0
  · rw [if_pos hz]
    refine (cost_balloc _ s₁).bind (n := 0) fun r s₂ _ => ?_
    exact Cost.quiet_bind ((mute_setInode _ _).quiet s₂) fun _ _ _ => ⟨le_rfl, .ret⟩
  · rw [if_neg hz]
    exact Cost.ret.mono (Nat.zero_le 2)

theorem mem_out_bmapDirect {k b : Nat} (h : (bmapDirect sb i k).run s = .ok b s')
    (hz : (s.icache i).d.addr k = 0) : b ∈ (bmapDirect sb i k).out logsOf s := by
  have hlook : (bmapAddr i k).run s = .ok ((s.icache i).d.addr k) s := run_atomic _ _ _
  unfold bmapDirect at *
  rw [run_bind, hlook, Res.bind_ok, if_pos hz] at h
  obtain ⟨r, s₁, h₁, h⟩ := run_bind_eq_ok.1 h
  obtain ⟨_, s₂, _, h⟩ := run_bind_eq_ok.1 h
  cases h
  rw [out_bind_of_ok hlook, if_pos hz, out_bind_of_ok h₁]
  exact List.mem_append_right _ (List.mem_append_left _ (mem_out_balloc h₁))

/-- The second half of `bmap`: entry `j` of the indirect block `ind`, allocated if it is `0`. -/
def bmapIndirect (sb : Superblock) (ind j : Nat) : K Nat := do
  let addr ← bmapEntry ind j
  if addr = 0 then
    let r ← balloc sb
    .atomic (.logWrite ind) fun s =>
      s.logWrite ind ((s.blk ind).setWord (4 * j) (BitVec.ofNat 32 r))
    return r
  else return addr.toNat

theorem quiet_bmapIndirect {ind j : Nat} (h : (s.blk ind).word (4 * j) ≠ 0) :
    (bmapIndirect sb ind j).out logsOf s = [] := by
  unfold bmapIndirect
  have hlook : (bmapEntry ind j).run s = .ok ((s.blk ind).word (4 * j)) s := run_atomic _ _ _
  rw [out_bind_of_ok hlook, if_neg h]
  exact (List.append_nil _).trans ((mute_bmapEntry ind j).quiet s)

/-- The block allocated, its bitmap block, and the indirect block unless it was logged before. -/
theorem cost_bmapIndirect (ind j : Nat) (X : Finset Nat) (s : Kernel) :
    Cost logsOf (fun _ _ => 0) X (bmapIndirect sb ind j) (2 + if ind ∈ X then 0 else 1) s := by
  unfold bmapIndirect
  refine Cost.quiet_bind ((mute_bmapEntry ind j).quiet s) fun addr s₁ _ => ⟨le_rfl, ?_⟩
  by_cases hz : addr = 0
  · rw [if_pos hz]
    refine (cost_balloc X s₁).bind fun r s₂ _ => ?_
    have hsub : X ⊆ known logsOf X (balloc sb) s₁ := subset_known
    refine Cost.mono (m := (if ind ∈ known logsOf X (balloc sb) s₁ then 0 else 1) + 0)
      ((cost_write _ _ _ s₂).bind fun _ _ _ => .ret) ?_
    by_cases hin : ind ∈ X
    · rw [if_pos hin, if_pos (hsub hin)]
    · rw [if_neg hin]
      split <;> omega
  · rw [if_neg hz]
    exact Cost.ret.mono (Nat.zero_le _)

theorem mem_out_bmapIndirect {ind j b : Nat} (h : (bmapIndirect sb ind j).run s = .ok b s')
    (hz : (s.blk ind).word (4 * j) = 0) :
    b ∈ (bmapIndirect sb ind j).out logsOf s ∧ ind ∈ (bmapIndirect sb ind j).out logsOf s := by
  have hlook : (bmapEntry ind j).run s = .ok ((s.blk ind).word (4 * j)) s := run_atomic _ _ _
  unfold bmapIndirect at *
  rw [run_bind, hlook, Res.bind_ok, if_pos hz] at h
  obtain ⟨r, s₁, h₁, h⟩ := run_bind_eq_ok.1 h
  obtain ⟨_, s₂, h₂, h⟩ := run_bind_eq_ok.1 h
  cases h
  rw [out_bind_of_ok hlook, if_pos hz, out_bind_of_ok h₁, out_bind_of_ok h₂]
  exact ⟨List.mem_append_right _ (List.mem_append_left _ (mem_out_balloc h₁)),
    List.mem_append_right _ (List.mem_append_right _ (List.mem_append_left _ mem_out_write))⟩

/-! ## Amortised cost -/

/-- The potential: what logging the indirect block will still add to the blocks `X`. -/
def indDue (sb : Superblock) (i : Slot) (X : Finset Nat) (s : Kernel) : Nat :=
  match refAt sb i s NDIRECT with
  | none => 2
  | some ind => if ind ∈ X then 0 else 1

theorem indDue_none (h : refAt sb i s NDIRECT = none) : indDue sb i X s = 2 := by
  unfold indDue
  rw [h]

theorem indDue_some {ind : Nat} (h : refAt sb i s NDIRECT = some ind) :
    indDue sb i X s = if ind ∈ X then 0 else 1 := by
  unfold indDue
  rw [h]

theorem indDue_le (X : Finset Nat) (s : Kernel) : indDue sb i X s ≤ 2 := by
  unfold indDue
  split
  · exact le_rfl
  · split <;> omega

/-- The potential does not rise while the indirect block stays. -/
theorem indDue_mono {X' : Finset Nat} (hX : X ⊆ X')
    (hr : ∀ ind, refAt sb i s NDIRECT = some ind → refAt sb i s' NDIRECT = some ind) :
    indDue sb i X' s' ≤ indDue sb i X s := by
  cases hind : refAt sb i s NDIRECT with
  | none =>
    rw [indDue_none hind]
    exact indDue_le X' s'
  | some ind =>
    rw [indDue_some hind, indDue_some (hr ind hind)]
    by_cases h : ind ∈ X
    · rw [if_pos h, if_pos (hX h)]
    · rw [if_neg h]
      split <;> omega

theorem Grows.refAt_some {D : Nat → Nat → Block} (h : Grows sb i D s s') {p b : Nat}
    (hp : refAt sb i s p = some b) : refAt sb i s' p = some b := by
  unfold refAt at *
  rw [h.inum]
  exact h.ref _ b hp

/-- Where every stop is allowed, nothing has to be paid for. -/
theorem afford_any (W : Finset Nat) : Afford (fun _ => True) sb W i s :=
  ⟨Or.inl trivial, trivial, trivial⟩

section Rounds

variable (hw : sb.WF) (h : FsOk sb (some i) s) (hi : Loaded s i)
include h hi

theorem refAt_direct_eq_none {k : Nat} (hk : k ≤ NDIRECT) :
    refAt sb i s k = none ↔ (s.icache i).d.addr k = 0 := by
  have hp : k < NPLACE := lt_of_le_of_lt hk (by decide)
  unfold refAt
  rw [Vol.ref_eq_none (h.allocated hi) hp, Vol.addrAt_direct hk, vol_ino_dirty]

theorem refAt_entry_eq_none {j ind : Nat} (hj : j < NINDIRECT)
    (hind : refAt sb i s NDIRECT = some ind) :
    refAt sb i s (NDIRECT + 1 + j) = none ↔ (s.blk ind).word (4 * j) = 0 := by
  have hp : NDIRECT + 1 + j < NPLACE := by
    simp only [NPLACE]
    omega
  rw [← addrAt_indirect hind]
  exact Vol.ref_eq_none (h.allocated hi) hp

include hw

theorem mapped_bmapDirect {k b : Nat} (hk : k ≤ NDIRECT)
    (hr : (bmapDirect sb i k).run s = .ok b s') :
    Mapped (fun _ => True) sb {k} i k s b s' := by
  have hwp := wp_bmapDirect hw h hi hk (Finset.mem_singleton_self k) (afford_any {k})
  have := wp_ok hwp hr
  exact this

theorem mapped_bmapIndirect {j ind b : Nat} (hj : j < NINDIRECT)
    (hind : refAt sb i s NDIRECT = some ind) (hr : (bmapIndirect sb ind j).run s = .ok b s') :
    Mapped (fun _ => True) sb {NDIRECT, NDIRECT + 1 + j} i (NDIRECT + 1 + j) s b s' := by
  have hwp := wp_bmap_entry hw h hi hj hind (by simp)
    (afford_any {NDIRECT, NDIRECT + 1 + j})
  have := wp_ok hwp hr
  exact this

theorem cost_direct {k : Nat} (hk : k ≤ NDIRECT) (X : Finset Nat) :
    Cost logsOf (indDue sb i) X (bmapDirect sb i k) (if refAt sb i s k = none then 2 else 0) s := by
  by_cases hn : refAt sb i s k = none
  · rw [if_pos hn]
    refine (cost_bmapDirect k X s).amortise (Nat.le_add_right _ _) fun b s' hr => ?_
    have hm := mapped_bmapDirect hw h hi hk hr
    have hdue : indDue sb i (known logsOf X (bmapDirect sb i k) s) s' ≤ indDue sb i X s :=
      indDue_mono subset_known fun _ => hm.grows.refAt_some
    omega
  · rw [if_neg hn]
    refine .quiet (quiet_bmapDirect ?_) fun b s' hr => ?_
    · rwa [ne_eq, ← refAt_direct_eq_none h hi hk]
    · have hm := mapped_bmapDirect hw h hi hk hr
      exact indDue_mono subset_rfl fun _ => hm.grows.refAt_some

/-- The potential pays for the indirect block and its bitmap block. -/
theorem cost_indirect (X : Finset Nat) :
    Cost logsOf (indDue sb i) X (bmapDirect sb i NDIRECT) 0 s := by
  by_cases hn : refAt sb i s NDIRECT = none
  · have hdue : indDue sb i X s = 2 := indDue_none hn
    refine (cost_bmapDirect NDIRECT X s).amortise (by omega) fun ind s' hr => ?_
    have hm := mapped_bmapDirect hw h hi le_rfl hr
    have hin : ind ∈ known logsOf X (bmapDirect sb i NDIRECT) s :=
      mem_known (mem_out_bmapDirect hr ((refAt_direct_eq_none h hi le_rfl).1 hn))
    rw [indDue_some hm.ref, if_pos hin]
    omega
  · have := cost_direct hw h hi (k := NDIRECT) le_rfl X
    rwa [if_neg hn] at this

theorem cost_entry {j ind : Nat} (hj : j < NINDIRECT) (hind : refAt sb i s NDIRECT = some ind)
    (X : Finset Nat) : Cost logsOf (indDue sb i) X (bmapIndirect sb ind j)
      (if refAt sb i s (NDIRECT + 1 + j) = none then 2 else 0) s := by
  have hzero := refAt_entry_eq_none h hi hj hind
  have hdue := indDue_some (X := X) hind
  by_cases hn : refAt sb i s (NDIRECT + 1 + j) = none
  · rw [if_pos hn]
    refine (cost_bmapIndirect ind j X s).amortise (by omega) fun b s' hr => ?_
    have hm := mapped_bmapIndirect hw h hi hj hind hr
    have hin : ind ∈ known logsOf X (bmapIndirect sb ind j) s :=
      mem_known (mem_out_bmapIndirect hr (hzero.1 hn)).2
    rw [indDue_some (hm.grows.refAt_some hind), if_pos hin]
    omega
  · rw [if_neg hn]
    refine .quiet (quiet_bmapIndirect ?_) fun b s' hr => ?_
    · rwa [ne_eq, ← hzero]
    · have hm := mapped_bmapIndirect hw h hi hj hind hr
      exact indDue_mono subset_rfl fun _ => hm.grows.refAt_some

omit hi in
theorem cost_data {k b : Nat} (hb : refAt sb i s (place k) = some b) (x : Kernel → Block)
    (X : Finset Nat) : Cost logsOf (indDue sb i) X
      (.atomic (.logWrite b) fun s => s.logWrite b (x s) : K Unit) (if b ∈ X then 0 else 1) s := by
  refine (cost_write b x X s).amortise (Nat.le_add_right _ _) fun u s' hr => ?_
  rw [run_atomic] at hr
  have hg := Grows.write hw h (x s) hb
  rw [← logWrite_eq_ok hr] at hg
  exact Nat.add_le_add_left (indDue_mono subset_known fun _ => hg.refAt_some) _

omit h hi hw in
theorem bmap_eq {bn : Nat} (hbn : bn < MAXFILE) : bmap sb i bn =
    if bn < NDIRECT then bmapDirect sb i bn
    else bmapDirect sb i NDIRECT >>= fun ind => bmapIndirect sb ind (bn - NDIRECT) := by
  have hj : bn - NDIRECT < NINDIRECT := by
    simp only [MAXFILE, NDIRECT, NINDIRECT, BSIZE] at *
    omega
  unfold bmap
  rw [if_pos hj]
  rfl

omit h hi in
theorem cost_then_data {p : K Nat} {c : Prop} [Decidable c] (bn : Nat) (x : Nat → Kernel → Block)
    (hcost : Cost logsOf (indDue sb i) X p (if c then 2 else 0) s)
    (hmem : c → ∀ b s', p.run s = .ok b s' → b ∈ p.out logsOf s)
    (hok : ∀ b s', p.run s = .ok b s' →
      FsOk sb (some i) s' ∧ refAt sb i s' (place bn) = some b) :
    Cost logsOf (indDue sb i) X
      (p >>= fun b => .atomic (.logWrite b) fun s => s.logWrite b (x b s)) (if c then 2 else 1) s := by
  by_cases hc : c
  · rw [if_pos hc] at *
    refine hcost.bind (n := 0) fun b s₁ h₁ => ?_
    have hdata := cost_data hw (hok b s₁ h₁).1 (hok b s₁ h₁).2 (x b) (known logsOf X p s)
    rwa [if_pos (mem_known (hmem hc b s₁ h₁))] at hdata
  · rw [if_neg hc] at *
    refine (hcost.bind (n := 1) fun b s₁ h₁ => ?_)
    exact (cost_data hw (hok b s₁ h₁).1 (hok b s₁ h₁).2 (x b) _).mono (by split <;> omega)

theorem cost_round {bn : Nat} (hbn : bn < MAXFILE) (x : Nat → Kernel → Block) (X : Finset Nat) :
    Cost logsOf (indDue sb i) X
      (bmap sb i bn >>= fun b => .atomic (.logWrite b) fun s => s.logWrite b (x b s))
      (if refAt sb i s (place bn) = none then 2 else 1) s := by
  rw [bmap_eq hbn]
  by_cases hd : bn < NDIRECT
  · have hp : place bn = bn := if_pos hd
    have hcost := cost_direct hw h hi hd.le X
    rw [if_pos hd]
    refine cost_then_data hw bn x (hp.symm ▸ hcost) (fun hn b s' hr => ?_) fun b s' hr => ?_
    · exact mem_out_bmapDirect hr ((refAt_direct_eq_none h hi hd.le).1 (hp ▸ hn))
    · have hm := mapped_bmapDirect hw h hi hd.le hr
      exact ⟨hm.grows.ok, hp.symm ▸ hm.ref⟩
  · have hj : bn - NDIRECT < NINDIRECT := by
      simp only [MAXFILE, NDIRECT, NINDIRECT, BSIZE] at *
      omega
    have hp := place_of_indirect hd
    rw [if_neg hd, bind_assoc, ← Nat.zero_add (ite _ _ _)]
    refine (cost_indirect hw h hi X).bind fun ind s₁ h₁ => ?_
    have hm := mapped_bmapDirect hw h hi le_rfl h₁
    have hok₁ := hm.grows.ok
    have hi₁ := hm.grows.loaded hi
    have hcost := cost_entry hw hok₁ hi₁ hj hm.ref (known logsOf X (bmapDirect sb i NDIRECT) s)
    rw [← hp] at hcost
    refine Cost.mono (cost_then_data hw bn x hcost (fun hn b s' hr => ?_)
      fun b s' hr => ?_) ?_
    · rw [hp] at hn
      exact (mem_out_bmapIndirect hr ((refAt_entry_eq_none hok₁ hi₁ hj hm.ref).1 hn)).1
    · have hm₂ := mapped_bmapIndirect hw hok₁ hi₁ hj hm.ref hr
      exact ⟨hm₂.grows.ok, hp.symm ▸ hm₂.ref⟩
    · by_cases hn : refAt sb i s (place bn) = none
      · rw [if_pos hn]
        split <;> omega
      · rw [if_neg (hm.grows.refAt_ne_none hn), if_neg hn]

theorem grows_round {bn : Nat} (hbn : bn < MAXFILE) {x : Nat → Kernel → Block} {u : Unit}
    (hr : (bmap sb i bn >>= fun b =>
      .atomic (.logWrite b) fun s => s.logWrite b (x b s) : K Unit).run s = .ok u s') :
    ∃ D, Grows sb i D s s' := by
  obtain ⟨b, s₁, h₁, hr⟩ := run_bind_eq_ok.1 hr
  rw [run_atomic] at hr
  have hwp := wp_bmap hw h hi hbn (by simp) (fun _ => by simp)
    (afford_any {NDIRECT, place bn})
  have hm := wp_ok hwp h₁
  rw [logWrite_eq_ok hr]
  exact ⟨_, hm.grows.trans (Grows.write hw hm.grows.ok _ hm.ref)⟩

end Rounds

/-- What a write of `m` bytes at `off` costs at most: the first block may be there already, and the
blocks after it are counted as new ones. -/
def writeCost (sb : Superblock) (i : Slot) (s : Kernel) (off m : Nat) : Nat :=
  if m = 0 then 0
  else (if refAt sb i s (place (off / BSIZE)) = none then 2 else 1) +
    2 * ((off % BSIZE + m - 1) / BSIZE)

theorem writeCost_rest {off m : Nat} (hm : 0 < m) :
    writeCost sb i s' (off + min m (BSIZE - off % BSIZE)) (m - min m (BSIZE - off % BSIZE)) ≤
      2 * ((off % BSIZE + m - 1) / BSIZE) := by
  unfold writeCost
  split
  · exact Nat.zero_le _
  · next hne =>
    have hfirst : (if refAt sb i s' (place ((off + min m (BSIZE - off % BSIZE)) / BSIZE)) = none
        then 2 else 1) ≤ 2 := by
      split <;> omega
    simp only [BSIZE] at *
    omega

theorem writeiFrom_succ {n rounds tot off : Nat} {src : Nat → Byte} (hlt : tot < n) :
    writeiFrom sb i src n (rounds + 1) tot off =
      (bmap sb i (off / BSIZE) >>= fun b => .atomic (.logWrite b) fun s =>
        s.logWrite b ((s.blk b).splice (off % BSIZE) (min (n - tot) (BSIZE - off % BSIZE))
          fun k => src (tot + k))) >>= fun _ =>
      writeiFrom sb i src n rounds (tot + min (n - tot) (BSIZE - off % BSIZE))
        (off + min (n - tot) (BSIZE - off % BSIZE)) := by
  rw [writeiFrom, if_pos hlt, bind_assoc]

theorem cost_writeiFrom (hw : sb.WF) {n : Nat} (src : Nat → Byte) (rounds tot off : Nat)
    (h : FsOk sb (some i) s) (hi : Loaded s i) (hmax : off + (n - tot) ≤ MAXFILE * BSIZE) :
    Cost logsOf (indDue sb i) X (writeiFrom sb i src n rounds tot off)
      (writeCost sb i s off (n - tot)) s := by
  induction rounds generalizing tot off s X with
  | zero => exact Cost.ret.mono (Nat.zero_le _)
  | succ rounds ih =>
    by_cases hlt : tot < n
    · have hbn : off / BSIZE < MAXFILE := (Nat.div_lt_iff_lt_mul (by decide)).2 (by omega)
      have hcost : writeCost sb i s off (n - tot) =
          (if refAt sb i s (place (off / BSIZE)) = none then 2 else 1) +
            2 * ((off % BSIZE + (n - tot) - 1) / BSIZE) := if_neg (by omega)
      rw [writeiFrom_succ hlt, hcost]
      refine (cost_round hw h hi hbn (fun b s => (s.blk b).splice _ _ _) X).bind fun _ s₁ h₁ => ?_
      obtain ⟨D, hg⟩ := grows_round hw h hi hbn (x := fun b s => (s.blk b).splice _ _ _) h₁
      refine (ih _ _ hg.ok (hg.loaded hi) (by omega)).mono ?_
      rw [Nat.sub_add_eq]
      exact writeCost_rest (by omega)
    · rw [writeiFrom, if_neg hlt]
      exact Cost.ret.mono (Nat.zero_le _)

/-! ## A chunk -/

theorem cost_iupdate (X : Finset Nat) (s : Kernel) :
    Cost logsOf (fun _ _ => 0) X (iupdate sb i) 1 s := by
  unfold iupdate
  refine Cost.quiet_bind ((mute_inode i).quiet s) fun ip s₁ _ => ⟨le_rfl, ?_⟩
  exact (cost_write _ _ X s₁).mono (by split <;> omega)

theorem card_writei (me : Pid) (hw : sb.WF) (h : FsOk sb none s) (hi : Loaded s i) (off n : Nat)
    (src : Nat → Byte) : (blocksLogged (writei sb me i src off n) s).toFinset.card ≤
      writeCost sb i s off n + 3 := by
  have hlook : (inode i).run s = .ok (s.icache i) s := run_atomic _ _ _
  have hmute : ∀ {α : Type} {p : K α}, Mute p → (p.out logsOf s).toFinset.card ≤
      writeCost sb i s off n + 3 := by
    intro α p hp
    rw [hp.quiet s]
    exact Nat.zero_le _
  unfold blocksLogged writei
  rw [out_bind_of_ok hlook, (mute_inode i).quiet s, List.nil_append]
  split
  · split
    · exact hmute (mute_consolewrite i src _)
    · exact hmute (each_pure _)
  split
  · exact hmute (each_pure _)
  split
  · exact hmute (each_pure _)
  next hmax =>
  have hrounds := cost_writeiFrom (X := ∅) (n := n) hw src n 0 off (h.soil hi) hi (by omega)
  -- the size and the copy to disk
  have hcard := hrounds.fresh_bind (g := fun _ => do
    let ip ← inode i
    if n > 0 ∧ off + n > ip.d.size.toNat then
      setDinode i fun d => { d with size := BitVec.ofNat 32 (off + n) }
      iupdate sb i
    return (n : Int)) (n := 1) fun _ s₁ _ => by
      refine le_trans (Cost.spent (Φ := fun _ _ => 0) (m := 1) ?_) (Nat.le_add_right _ _)
      refine Cost.quiet_bind ((mute_inode i).quiet s₁) fun ip s₂ _ => ⟨le_rfl, ?_⟩
      split
      · refine Cost.quiet_bind ((mute_setInode i _).quiet s₂) fun _ s₃ _ => ⟨le_rfl, ?_⟩
        exact (cost_iupdate _ s₃).bind (n := 0) fun _ _ _ => .ret
      · exact Cost.ret.mono (Nat.zero_le 1)
  have hdue : indDue sb i ∅ s ≤ 2 := indDue_le ∅ s
  unfold fresh at hcard
  rw [Finset.sdiff_empty, Nat.sub_zero] at hcard
  refine le_trans hcard ?_
  omega

/-- The first block of a write that does not start at a block boundary is there already. -/
theorem writeCost_chunk (h : FsOk sb none s) (hi : Loaded s i) {off n1 : Nat}
    (hoff : off ≤ (s.icache i).d.size.toNat) (hn1 : n1 ≤ maxWrite) :
    writeCost sb i s off n1 + 3 ≤ MAXOPBLOCKS := by
  have hmax : maxWrite = 3 * BSIZE := by decide
  unfold writeCost
  split
  · decide
  by_cases halign : off % BSIZE = 0
  · have hfirst : (if refAt sb i s (place (off / BSIZE)) = none then 2 else 1) ≤ 2 := by
      split <;> omega
    simp only [MAXOPBLOCKS, BSIZE] at *
    omega
  · have hlt : off / BSIZE * BSIZE < (s.icache i).d.size.toNat := by
      have := Nat.div_add_mod' off BSIZE
      omega
    obtain ⟨_, b, hb, _⟩ := h.refAt_of_lt hi hlt
    rw [hb, if_neg (Option.some_ne_none b)]
    have := Nat.mod_lt off (show 0 < BSIZE by decide)
    simp only [MAXOPBLOCKS, BSIZE] at *
    omega

/-! ## The header of the log -/

/-- `log_write` goes on for each block of `bs` in turn: the header is not full with those before the
last one. -/
def HasRoom (l : Log) (bs : List Nat) : Prop :=
  bs = [] ∨ 1 ≤ l.outstanding ∧ l.lh.length + (bs.dropLast.toFinset \ l.lh.toFinset).card < LOGSIZE ∧
    ((l.lh.length + (bs.dropLast.toFinset \ l.lh.toFinset).card : Nat) : Int) < l.size - 1

theorem HasRoom.of_card {l : Log} {bs : List Nat} (htx : 1 ≤ l.outstanding)
    (h : l.lh.length + bs.toFinset.card < LOGSIZE)
    (hsize : ((l.lh.length + bs.toFinset.card : Nat) : Int) < l.size - 1) : HasRoom l bs := by
  have hsub : bs.dropLast.toFinset \ l.lh.toFinset ⊆ bs.toFinset := fun b hb =>
    List.mem_toFinset.2 (List.dropLast_subset _ (List.mem_toFinset.1 (Finset.mem_sdiff.1 hb).1))
  have hcard := Finset.card_le_card hsub
  exact Or.inr ⟨htx, by omega, by omega⟩

theorem hasRoom_singleton {l : Log} {b : Nat} : HasRoom l [b] ↔
    1 ≤ l.outstanding ∧ l.lh.length < LOGSIZE ∧ (l.lh.length : Int) < l.size - 1 := by
  simp [HasRoom]

/-- A block that is logged takes a place in the header if it is new. -/
theorem length_logAppend (l : Log) (b : Nat) (A : Finset Nat) :
    (l.logAppend b).lh.length + (A \ (l.logAppend b).lh.toFinset).card =
      l.lh.length + (insert b A \ l.lh.toFinset).card := by
  unfold Log.logAppend
  by_cases hb : b ∈ l.lh
  · rw [if_pos hb, Finset.insert_sdiff_of_mem _ (List.mem_toFinset.2 hb)]
  · have hset : insert b A \ l.lh.toFinset = insert b (A \ (l.lh ++ [b]).toFinset) := by
      ext c
      simp only [Finset.mem_sdiff, Finset.mem_insert, List.mem_toFinset, List.mem_append,
        List.mem_singleton]
      by_cases hc : c = b
      · subst hc
        simp [hb]
      · simp [hc]
    rw [if_neg hb, hset, Finset.card_insert_of_notMem (by simp)]
    dsimp only
    rw [List.length_append, List.length_singleton]
    omega

theorem hasRoom_cons {l : Log} {b : Nat} {bs : List Nat} :
    HasRoom l (b :: bs) ↔ HasRoom l [b] ∧ HasRoom (l.logAppend b) bs := by
  cases bs with
  | nil => exact ⟨fun h => ⟨h, Or.inl rfl⟩, And.left⟩
  | cons c cs =>
    have hlen := length_logAppend l b (c :: cs).dropLast.toFinset
    rw [hasRoom_singleton, HasRoom, HasRoom, hlen, List.dropLast_cons_cons, List.toFinset_cons]
    simp only [reduceCtorEq, false_or]
    show _ ↔ _ ∧ 1 ≤ l.outstanding ∧ _ ∧ _ < (l.size : Int) - 1
    omega

theorem hasRoom_append {l : Log} {bs cs : List Nat} :
    HasRoom l (bs ++ cs) ↔ HasRoom l bs ∧ HasRoom (bs.foldl Log.logAppend l) cs := by
  induction bs generalizing l with
  | nil => exact ⟨fun h => ⟨Or.inl rfl, h⟩, And.right⟩
  | cons b bs ih =>
    rw [List.cons_append, hasRoom_cons, ih, List.foldl_cons, ← and_assoc, ← hasRoom_cons]

theorem mem_foldl_logAppend {l : Log} {bs : List Nat} {b : Nat} :
    b ∈ (bs.foldl Log.logAppend l).lh ↔ b ∈ l.lh ∨ b ∈ bs := by
  induction bs generalizing l with
  | nil => simp
  | cons c bs ih => rw [List.foldl_cons, ih, Log.mem_logAppend, List.mem_cons, or_assoc]

theorem foldl_logAppend (l : Log) (bs : List Nat) :
    bs.foldl Log.logAppend l = { l with lh := (bs.foldl Log.logAppend l).lh } := by
  induction bs generalizing l with
  | nil => rfl
  | cons b bs ih => exact ih (l.logAppend b)

/-- The blocks that a run logs go to the header in their order; there is room for them where it
returns, and where there is room `log_write` does not stop it. -/
structure Listed {α : Type} (p : K α) : Prop where
  log : ∀ s a s', p.run s = .ok a s' → s'.log = (p.out logsOf s).foldl Log.logAppend s.log
  room : ∀ s a s', p.run s = .ok a s' → HasRoom s.log (p.out logsOf s)
  goesOn : ∀ s, HasRoom s.log (p.out logsOf s) →
    p.run s ≠ .panic .tooBigTransaction ∧ p.run s ≠ .panic .logWriteOutside

namespace Listed

variable {α β : Type} {p q : K α}

theorem mute (h : Mute p) : Listed p where
  log s a s' hr := by
    rw [h.quiet s, h.log hr]
    rfl
  room s a s' hr := Or.inl (h.quiet s)
  goesOn s _ := h.run_ne s

theorem bind {g : α → K β} (hp : Listed p) (hg : ∀ a, Listed (g a)) : Listed (p >>= g) where
  log s c s' hr := by
    obtain ⟨a, s₁, h₁, h₂⟩ := run_bind_eq_ok.1 hr
    rw [out_bind_of_ok h₁, List.foldl_append, ← hp.log s a s₁ h₁]
    exact (hg a).log s₁ c s' h₂
  room s c s' hr := by
    obtain ⟨a, s₁, h₁, h₂⟩ := run_bind_eq_ok.1 hr
    rw [out_bind_of_ok h₁, hasRoom_append, ← hp.log s a s₁ h₁]
    exact ⟨hp.room s a s₁ h₁, (hg a).room s₁ c s' h₂⟩
  goesOn s hroom := by
    by_cases hr : ∃ a s', p.run s = .ok a s'
    · obtain ⟨a, s', hr⟩ := hr
      rw [out_bind_of_ok hr, hasRoom_append, ← hp.log s a s' hr] at hroom
      rw [run_bind, hr]
      exact (hg a).goesOn s' hroom.2
    · rw [out_bind_of_stop fun a s' h => hr ⟨a, s', h⟩] at hroom
      obtain ⟨hbig, hout⟩ := hp.goesOn s hroom
      rw [run_bind]
      cases h : p.run s with
      | ok a s' => exact absurd ⟨a, s', h⟩ hr
      | panic e =>
        rw [h] at hbig hout
        exact ⟨fun he => hbig (by cases he; rfl), fun he => hout (by cases he; rfl)⟩
      | sleep =>
        refine ⟨fun he => ?_, fun he => ?_⟩ <;> cases he

theorem ite {c : Prop} [Decidable c] (hp : c → Listed p) (hq : ¬c → Listed q) :
    Listed (if c then p else q) := by
  by_cases h : c
  · rw [if_pos h]
    exact hp h
  · rw [if_neg h]
    exact hq h

/-- A section that does nothing, or one `log_write`. -/
theorem section_write {l : Sec} {f : Kernel → Res Panic α Kernel} (b : Nat)
    (hf : ∀ s, (∃ a, f s = .ok a s ∧ logsOf α f s = []) ∨
      ∃ x a, f s = ((s.logWrite b x).bind fun _ t => .ok a t) ∧ logsOf α f s = [b]) :
    Listed (.atomic l f : K α) where
  log s a s' hr := by
    rw [run_atomic] at hr
    rw [out_atomic]
    rcases hf s with ⟨a', h, hlog⟩ | ⟨x, a', h, hlog⟩ <;> rw [h] at hr <;> rw [hlog]
    · cases hr
      rfl
    · obtain ⟨_, t, ht, hr⟩ := Res.bind_eq_ok.1 hr
      cases hr
      rw [logWrite_eq_ok ht]
      rfl
  room s a s' hr := by
    rw [run_atomic] at hr
    rw [out_atomic]
    rcases hf s with ⟨a', h, hlog⟩ | ⟨x, a', h, hlog⟩ <;> rw [h] at hr <;> rw [hlog]
    · exact Or.inl rfl
    · obtain ⟨_, t, ht, -⟩ := Res.bind_eq_ok.1 hr
      obtain ⟨_, l', hl, -⟩ := Res.bind_eq_ok.1 ht
      obtain ⟨_, l'', htest, -⟩ := Res.bind_eq_ok.1 hl
      obtain ⟨h1, h2, h3, -⟩ := Log.logWriteTest_ok htest
      exact hasRoom_singleton.2 ⟨h3, h1, h2⟩
  goesOn s hroom := by
    rw [run_atomic]
    rw [out_atomic] at hroom
    rcases hf s with ⟨a', h, hlog⟩ | ⟨x, a', h, hlog⟩ <;> rw [h] <;> rw [hlog] at hroom
    · exact ⟨by simp, by simp⟩
    · obtain ⟨h1, h2, h3⟩ := hasRoom_singleton.1 hroom
      have hpost : (s.logWrite b x).Post (fun _ => False) fun _ _ => True :=
        post_logWrite (Or.inr ⟨h2, h3, h1⟩) trivial
      cases hr : s.logWrite b x with
      | ok u t => exact ⟨by simp, by simp⟩
      | panic e => exact (hr ▸ hpost : (Res.panic e : Res Panic Unit Kernel).Post _ _).elim
      | sleep => exact (hr ▸ hpost : (Res.sleep : Res Panic Unit Kernel).Post _ _).elim

theorem write {l : Sec} (b : Nat) (x : Kernel → Block) :
    Listed (.atomic l fun s => s.logWrite b (x s)) := by
  refine section_write b fun s => Or.inr ⟨x s, (), ?_, logsOf_write b x s⟩
  cases s.logWrite b (x s) <;> rfl

theorem ballocRound (b : Nat) : Listed (ballocRound sb b) := by
  refine section_write (sb.bblock b) fun s => ?_
  have hcases := ballocRound_cases sb b s
  unfold Fs.ballocRound at hcases
  rw [run_atomic, out_atomic] at hcases
  rcases hcases with h | ⟨x, bi, h⟩
  · exact Or.inl ⟨none, h⟩
  · exact Or.inr ⟨x, some bi, h⟩

theorem ballocFrom (bs : List Nat) : Listed (ballocFrom sb bs) := by
  induction bs with
  | nil => exact mute (mute_panic (by decide))
  | cons b bs ih =>
    refine (ballocRound b).bind fun r => ?_
    cases r with
    | none => exact ih
    | some k => exact (write _ _).bind fun _ => mute (each_pure _)

theorem bmapDirect (k : Nat) : Listed (bmapDirect sb i k) := by
  refine (mute (mute_bmapAddr i k)).bind fun addr => ite (fun _ => ?_) fun _ => mute (each_pure _)
  refine (ballocFrom _).bind fun r => (mute (mute_setInode i _)).bind fun _ => mute (each_pure _)

theorem bmap (bn : Nat) : Listed (bmap sb i bn) := by
  unfold Fs.bmap
  refine ite (fun _ => bmapDirect bn) fun _ => ite (fun _ => ?_) fun _ => mute (mute_panic (by decide))
  refine (bmapDirect NDIRECT).bind fun ind => (mute (mute_bmapEntry ind _)).bind fun addr => ?_
  refine ite (fun _ => ?_) fun _ => mute (each_pure _)
  exact (ballocFrom _).bind fun r => (write _ _).bind fun _ => mute (each_pure _)

theorem writeiFrom (src : Nat → Byte) (n rounds tot off : Nat) :
    Listed (writeiFrom sb i src n rounds tot off) := by
  induction rounds generalizing tot off with
  | zero => exact mute (each_pure _)
  | succ rounds ih =>
    refine ite (fun _ => ?_) fun _ => mute (each_pure _)
    exact (bmap _).bind fun b => (write _ _).bind fun _ => ih _ _

theorem writei (src : Nat → Byte) (off n : Nat) : Listed (writei sb me i src off n) := by
  refine (mute (mute_inode i)).bind fun ip => ite (fun _ => ?_) fun _ => ite (fun _ => ?_) fun _ =>
    ite (fun _ => ?_) fun _ => ?_
  · refine ite (fun _ => mute (mute_consolewrite i src _)) fun _ => mute (each_pure _)
  · exact mute (each_pure _)
  · exact mute (each_pure _)
  · refine (writeiFrom src n n 0 off).bind fun _ => (mute (mute_inode i)).bind fun ip => ?_
    refine ite (fun _ => ?_) fun _ => mute (each_pure _)
    refine (mute (mute_setInode i _)).bind fun _ => .bind ?_ fun _ => mute (each_pure _)
    exact (mute (mute_inode i)).bind fun ip => write _ _

end Listed

/-- There are free blocks for the places of `W` that file `inum` has not filled. -/
def Enough (sb : Superblock) (W : Finset Nat) (inum : Nat) (s : Kernel) : Prop :=
  (W.filter fun p => (vol sb none s).ref sb (inum, p) = none).card ≤ (vol sb none s).free sb

theorem Enough.of_blk {W : Finset Nat} {inum : Nat} (h : Enough sb W inum s) (hb : s'.blk = s.blk) :
    Enough sb W inum s' := by
  have hvol : vol sb none s' = vol sb none s := by
    unfold vol dinodeAt
    rw [hb]
  unfold Enough at *
  rwa [hvol]

theorem wp_writei_room (hw : sb.WF) {off n : Nat} {src : Nat → Byte} {W : Finset Nat}
    {Q : Int → Kernel → Prop} (h : FsOk sb none s) (hi : Loaded s i)
    (hdev : (s.icache i).d.type ≠ T_DEV) (hoff : off < 2 ^ 32) (hn : n < 2 ^ 32)
    (hW : touched off n ⊆ W)
    (hfree : Fits (s.icache i).d.size.toNat off n → Enough sb W (s.icache i).inum s)
    (hroom : Fits (s.icache i).d.size.toNat off n →
      HasRoom s.log (blocksLogged (writei sb me i src off n) s))
    (hbad : ¬ Fits (s.icache i).d.size.toNat off n → Q (-1) s)
    (hgood : Fits (s.icache i).d.size.toNat off n → ∀ t, Wrote sb i off n src s t →
      t.log = { s.log with lh := t.log.lh } → Enough sb W (s.icache i).inum t → Q n t) :
    wp (fun _ => False) (writei sb me i src off n) Q s := by
  by_cases hfit : Fits (s.icache i).d.size.toNat off n
  · have hwant : Wants sb W i s := by
      unfold Wants refAt
      rw [h.vol_dirty hi]
      exact hfree hfit
    have hafford : Afford (fun e => e = some .tooBigTransaction ∨ e = some .logWriteOutside) sb
        W i s := ⟨Or.inr hwant, Or.inl rfl, Or.inr rfl⟩
    have hlist : Listed (writei sb me i src off n) := Listed.writei src _ _
    have hwp : wp (fun e => e = some .tooBigTransaction ∨ e = some .logWriteOutside)
        (writei sb me i src off n)
        (fun r t => (writei sb me i src off n).run s = .ok r t → Q r t) s := by
      refine wp_writei hw h hi hdev hoff hn hW (fun _ => hafford)
        (fun hno => absurd hfit hno) fun _ t ht hwt hr => ?_
      obtain ⟨d, blk, l, hframe⟩ := ht.frame
      refine hgood hfit t ht ?_ ?_
      · rw [hlist.log _ _ _ hr]
        exact foldl_logAppend _ _
      have hwt : Wants sb W i t := hwt.resolve_left (by simp)
      have hin : (t.icache i).inum = (s.icache i).inum := by
        rw [hframe]
        exact withD_inum d i
      have hti : Loaded t i := by
        rw [hframe]
        exact ⟨(withD_ref d i).symm ▸ hi.1, (withD_valid d i).symm ▸ hi.2⟩
      unfold Wants refAt at hwt
      rw [ht.ok.vol_dirty hti, hin] at hwt
      exact hwt
    -- the stops of `log_write` do not happen
    obtain ⟨hbig, hout⟩ := hlist.goesOn _ (hroom hfit)
    refine wp_exclude (wp_run hwp) (fun e he => ?_) (by simp)
    rcases he with he | he <;> cases he
    · exact hbig
    · exact hout
  · have hafford : Fits (s.icache i).d.size.toNat off n → Afford (fun _ => False) sb W i s :=
      fun hyes => absurd hyes hfit
    exact wp_writei hw h hi hdev hoff hn hW hafford hbad fun hyes => absurd hyes hfit

/-- Where the range fits and the blocks are there, `writei` returns exactly if the log has room for
the blocks that it logs. -/
theorem writei_iff (me : Pid) (src : Nat → Byte) (hw : sb.WF) {off n : Nat} (h : FsOk sb none s)
    (hi : Loaded s i) (hdev : (s.icache i).d.type ≠ T_DEV) (hoff : off < 2 ^ 32) (hn : n < 2 ^ 32)
    (hfit : Fits (s.icache i).d.size.toNat off n)
    (hfree : Enough sb (touched off n) (s.icache i).inum s) :
    (∃ t, (writei sb me i src off n).run s = .ok n t ∧ Wrote sb i off n src s t) ↔
      HasRoom s.log (blocksLogged (writei sb me i src off n) s) := by
  constructor
  · rintro ⟨t, hrun, -⟩
    exact (Listed.writei src off n).room s n t hrun
  · intro hroom
    have hwp : wp (fun _ => False) (writei sb me i src off n)
        (fun r t => r = n ∧ Wrote sb i off n src s t) s :=
      wp_writei_room hw h hi hdev hoff hn subset_rfl (fun _ => hfree) (fun _ => hroom)
        (fun hbad => absurd hfit hbad) fun _ t ht _ _ => ⟨rfl, ht⟩
    obtain ⟨r, t, hrun, hr, ht⟩ := wp_returns hwp
    exact ⟨t, by rw [hrun, hr], ht⟩

/-- A chunk fits its log reservation: however many bitmap blocks there are, `writei` of the bytes
that one round of `filewrite` passes to it logs at most `MAXOPBLOCKS` distinct blocks, and these are
all that it adds to the log.  The length is that of the round that starts at byte `k` of `n`. -/
theorem chunk_fits_reservation (hw : sb.WF) (h : FsOk sb none s) (hi : Loaded s i) {off : Nat}
    (hoff : off ≤ (s.icache i).d.size.toNat) (src : Nat → Byte) (n k : Nat) :
    (blocksLogged (writei sb me i src off (min (n - k) maxWrite)) s).toFinset.card ≤ MAXOPBLOCKS ∧
      ∀ r s', (writei sb me i src off (min (n - k) maxWrite)).run s = .ok r s' → ∀ b ∈ s'.log.lh,
        b ∈ s.log.lh ∨ b ∈ blocksLogged (writei sb me i src off (min (n - k) maxWrite)) s :=
  ⟨(card_writei _ hw h hi off _ src).trans (writeCost_chunk h hi hoff (Nat.min_le_right _ _)),
    fun r s' hr _ hb => mem_foldl_logAppend.1 ((Listed.writei src off _).log s r s' hr ▸ hb)⟩

/-- The first chunk of a long write to a new file. -/
theorem chunk_fits_reservation_first : ∃ s, fileReady = .ok () s ∧
    (blocksLogged (writei mkfsSb initproc 1 (fun _ => 7) 0 maxWrite) s).toFinset.card ≤
      MAXOPBLOCKS := by
  obtain ⟨s, hs, hok, hi, _⟩ := fileReady_facts
  exact ⟨s, hs, (chunk_fits_reservation mkfsSb_wf hok hi (Nat.zero_le _) (fun _ => 7) 5000 0).1⟩

end Xv6.Fs
