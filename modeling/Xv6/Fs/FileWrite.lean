import Xv6.Fs.FileBytes
import Xv6.Fs.Inode

/-!
# `filewrite` as a whole

A write is carried out as several transactions of at most `maxWrite` bytes.  `wp_filewriteChunk` is
the rule of one of them, and `wp_filewriteFrom` follows the loop: the bytes stored are those of the
chunks that fit, and `n` is returned only if all of them did.  So a write that fails after its first
chunk has changed the file.
-/

namespace Xv6.Fs

open Bytes Conc Prog

variable {sb : Superblock} {me : Pid} {s s' : Kernel} {f : FileIdx} {i : Slot} {W : Finset Nat}

/-! ## One transaction -/

/-- The log between system calls, with room for one of them. -/
structure Idle (l : Log) : Prop where
  outstanding : l.outstanding = 0
  committing : l.committing = false
  lh : l.lh = []
  size : (MAXOPBLOCKS : Int) < l.size - 1

structure Writable (sb : Superblock) (s : Kernel) (f : FileIdx) (i : Slot) : Prop where
  ok : FsOk sb none s
  idle : Idle s.log
  writable : (s.ftable f).writable = true
  type : (s.ftable f).type = .inode
  ip : (s.ftable f).ip = some i
  off : (s.ftable f).off < 2 ^ 32
  ref : 0 < (s.icache i).ref
  lock : (s.icache i).lock = none
  regular : (dinodeAt sb s (s.icache i).inum).type = T_FILE

def splice (l : List Byte) (off n : Nat) (src : Nat → Byte) : List Byte :=
  l.take off ++ (List.range n).map src ++ l.drop (off + n)

structure Stored (sb : Superblock) (f : FileIdx) (i : Slot) (n : Nat) (src : Nat → Byte)
    (s s' : Kernel) : Prop where
  content : content sb s' (s.icache i).inum =
    splice (content sb s (s.icache i).inum) (s.ftable f).off n src
  off : (s'.ftable f).off = (s.ftable f).off + n

/-- The content and the offset are as they were (the size is the length of the content). -/
structure Untouched (sb : Superblock) (f : FileIdx) (i : Slot) (s s' : Kernel) : Prop where
  content : content sb s' (s.icache i).inum = content sb s (s.icache i).inum
  off : (s'.ftable f).off = (s.ftable f).off

theorem wp_beginOp {Q : Unit → Kernel → Prop} (h : Idle s.log)
    (hQ : Q () { s with log := { s.log with outstanding := 1 } }) :
    wp (fun _ => False) beginOp Q s := by
  have hb : s.log.beginOp = .ok () { s.log with outstanding := 1 } := by
    unfold Log.beginOp
    rw [if_neg (by rw [h.committing]; decide), if_neg (by rw [h.lh, h.outstanding]; decide),
      h.outstanding]
    rfl
  unfold beginOp
  rw [wp_atomic, hb]
  exact hQ

/-- The last transaction commits. -/
theorem wp_endOp {Q : Unit → Kernel → Prop} (ho : s.log.outstanding = 1)
    (hc : s.log.committing = false)
    (hQ : Q () { s with log := { s.log with outstanding := 0, committing := false, lh := [] } }) :
    wp (fun _ => False) endOp Q s := by
  have hs : s.log.endOpStart = .ok true { s.log with outstanding := 0, committing := true } := by
    unfold Log.endOpStart
    dsimp only
    rw [hc, ho, if_neg (by decide), if_pos (by decide)]
    rfl
  unfold endOp
  rw [wp_bind, wp_atomic, hs]
  exact hQ

theorem wp_file {E : Option Panic → Prop} {Q : File → Kernel → Prop} (hQ : Q (s.ftable f) s) :
    wp E (file f) Q s := by
  unfold file
  rw [wp_atomic]
  exact hQ

/-! The state inside a transaction and after it. -/

/-- After `begin_op` and `ilock`. -/
def entered (sb : Superblock) (me : Pid) (s : Kernel) (i : Slot) : Kernel :=
  locked sb me { s with log := { s.log with outstanding := 1 } } i

/-- After `iunlock` and `end_op`. -/
def finished (s : Kernel) (i : Slot) : Kernel :=
  { unlocked s i with log := { s.log with outstanding := 0, committing := false, lh := [] } }

theorem FsOk.of_parts (h : FsOk sb none s) (hb : s'.blk = s.blk) (hc : s'.icache = s.icache) :
    FsOk sb none s' := by
  have hd : dinodeAt sb s' = dinodeAt sb s := by
    unfold dinodeAt
    rw [hb]
  have hvol : vol sb none s' = vol sb none s := by
    show Vol.mk (dinodeAt sb s') s'.blk = Vol.mk (dinodeAt sb s) s.blk
    rw [hd, hb]
  exact ⟨h.toCacheOk.of_blk hc fun j => congrFun hd j, hvol ▸ h.blocks⟩

theorem content_of_blk (hb : s'.blk = s.blk) (inum : Nat) :
    content sb s' inum = content sb s inum := by
  unfold content files vol dinodeAt
  rw [hb]

section Entered

variable (h : Writable sb s f i)
include h

theorem entered_ok : FsOk sb none (entered sb me s i) := by
  have hok : FsOk sb none { s with log := { s.log with outstanding := 1 } } := h.ok.of_parts rfl rfl
  refine hok.locked h.ref ?_
  show (dinodeAt sb s (s.icache i).inum).type ≠ 0
  rw [h.regular]
  decide

omit h in
theorem entered_icache : (entered sb me s i).icache i = { s.icache i with
    lock := some me, valid := true, d := dinodeAt sb s (s.icache i).inum } :=
  Kernel.icache_setInode

theorem entered_loaded : Loaded (entered sb me s i) i := by
  unfold Loaded
  rw [entered_icache]
  exact ⟨h.ref, rfl⟩

omit h in
theorem entered_size :
    ((entered sb me s i).icache i).d.size.toNat = (content sb s (s.icache i).inum).length := by
  rw [entered_icache, length_content]

theorem entered_room {src : Nat → Byte} {n1 : Nat} (hw : sb.WF)
    (hfit : Fits (content sb s (s.icache i).inum).length (s.ftable f).off n1)
    (hn1 : n1 ≤ maxWrite) : HasRoom (entered sb me s i).log
      (blocksLogged (writei sb me i src (s.ftable f).off n1) (entered sb me s i)) := by
  have hok : FsOk sb none (entered sb me s i) := entered_ok h
  have hi : Loaded (entered sb me s i) i := entered_loaded h
  have hcard : (blocksLogged (writei sb me i src (s.ftable f).off n1)
      (entered sb me s i)).toFinset.card ≤ MAXOPBLOCKS := by
    refine (card_writei _ hw hok hi _ n1 src).trans (writeCost_chunk hok hi ?_ hn1)
    rw [entered_size]
    exact hfit.1
  have hlh : (entered sb me s i).log.lh = [] := h.idle.lh
  have hsize := h.idle.size
  refine .of_card le_rfl ?_ ?_
  all_goals rw [hlh, List.length_nil, Nat.zero_add]
  · exact lt_of_le_of_lt hcard (by decide)
  · show _ < ((s.log.size : Nat) : Int) - 1
    omega

theorem wp_entered_writei (hw : sb.WF) {src : Nat → Byte} {n1 : Nat} (hn1 : n1 ≤ maxWrite)
    (hW : touched (s.ftable f).off n1 ⊆ W) (hfree : Enough sb W (s.icache i).inum s)
    {Q : Int → Kernel → Prop}
    (hbad : ¬ Fits (content sb s (s.icache i).inum).length (s.ftable f).off n1 →
      Q (-1) (entered sb me s i))
    (hgood : Fits (content sb s (s.icache i).inum).length (s.ftable f).off n1 →
      ∀ t, Wrote sb i (s.ftable f).off n1 src (entered sb me s i) t →
        t.log = { s.log with outstanding := 1, lh := t.log.lh } →
        Enough sb W (s.icache i).inum t → Q n1 t) :
    wp (fun _ => False) (writei sb me i src (s.ftable f).off n1) Q (entered sb me s i) := by
  have hinum : ((entered sb me s i).icache i).inum = (s.icache i).inum := by rw [entered_icache]
  have hdev : ((entered sb me s i).icache i).d.type ≠ T_DEV := by
    rw [entered_icache]
    show (dinodeAt sb s (s.icache i).inum).type ≠ T_DEV
    rw [h.regular]
    decide
  refine wp_writei_room hw (entered_ok h) (entered_loaded h) hdev h.off
    (lt_of_le_of_lt hn1 (by decide)) hW (fun _ => ?_) (fun hfit => ?_) (fun hno => ?_)
    fun hfit t ht hlog hen => ?_
  · rw [hinum]
    exact hfree
  · rw [entered_size] at hfit
    exact entered_room h hw hfit hn1
  · rw [entered_size] at hno
    exact hbad hno
  · rw [entered_size] at hfit
    rw [hinum] at hen
    exact hgood hfit t ht hlog hen

end Entered

/-- The state after a transaction in which the inode may have changed, and the offset of `f`. -/
theorem Writable.finished (h : Writable sb s f i) (me : Pid) {t : Kernel} (hok : FsOk sb none t)
    (hip : t.icache i = { (entered sb me s i).icache i with d := (t.icache i).d })
    (hf : t.ftable f = { s.ftable f with off := (t.ftable f).off }) (hoff : (t.ftable f).off < 2 ^ 32)
    (hlog : t.log.size = s.log.size)
    (ht : (t.icache i).d.type = T_FILE) : Writable sb (finished t i) f i := by
  have href : (t.icache i).ref = (s.icache i).ref := by rw [hip, entered_icache]
  have hpos : 0 < (t.icache i).ref := href ▸ h.ref
  have hval : (t.icache i).valid = true := by rw [hip, entered_icache]
  have hself : (Fs.finished t i).icache i = { t.icache i with lock := none } :=
    Kernel.icache_setInode
  have hco := hok.coherent i (by simp) hpos hval
  refine ⟨(hok.unlocked hpos).of_parts rfl rfl, ⟨rfl, rfl, rfl, ?_⟩, ?_, ?_, ?_, hoff, ?_, ?_, ?_⟩
  · show (MAXOPBLOCKS : Int) < ((t.log.size : Nat) : Int) - 1
    rw [hlog]
    exact h.idle.size
  · show (t.ftable f).writable = true
    rw [hf]
    exact h.writable
  · show (t.ftable f).type = _
    rw [hf]
    exact h.type
  · show (t.ftable f).ip = _
    rw [hf]
    exact h.ip
  · rw [hself]
    exact hpos
  · rw [hself]
  · rw [hself]
    show (dinodeAt sb t (t.icache i).inum).type = T_FILE
    rw [← hco]
    exact ht

theorem wp_finish {t : Kernel} {r : Int} {Q : Int → Kernel → Prop}
    (hlock : (t.icache i).lock = some me) (href : 0 < (t.icache i).ref)
    (ho : t.log.outstanding = 1) (hc : t.log.committing = false) (hQ : Q r (finished t i)) :
    wp (fun _ => False) (do iunlock me i; endOp; return r) Q t := by
  rw [wp_bind]
  refine wp_iunlock_held hlock href ?_
  rw [wp_bind]
  exact wp_endOp ho hc hQ

theorem wp_filewriteChunk (hw : sb.WF) (h : Writable sb s f i) {src : Nat → Byte} {k n1 : Nat}
    (hn1 : n1 ≤ maxWrite) (hW : touched (s.ftable f).off n1 ⊆ W)
    (hfree : Enough sb W (s.icache i).inum s) {Q : Int → Kernel → Prop}
    (hbad : ¬ Fits (content sb s (s.icache i).inum).length (s.ftable f).off n1 →
      ∀ s', Writable sb s' f i → (s'.icache i).inum = (s.icache i).inum → Untouched sb f i s s' →
        Enough sb W (s.icache i).inum s' → Q (-1) s')
    (hgood : Fits (content sb s (s.icache i).inum).length (s.ftable f).off n1 →
      ∀ s', Writable sb s' f i → (s'.icache i).inum = (s.icache i).inum →
        Stored sb f i n1 (fun j => src (k + j)) s s' → Enough sb W (s.icache i).inum s' → Q n1 s') :
    wp (fun _ => False) (filewriteChunk sb me f src k n1) Q s := by
  unfold filewriteChunk
  rw [wp_bind]
  refine wp_beginOp h.idle ?_
  rw [wp_bind]
  refine wp_file ?_
  show wp _ (ilockPtr sb me (s.ftable f).ip >>= _) Q _
  rw [h.ip, wp_bind]
  unfold ilockPtr
  rw [wp_bind]
  have htype : (dinodeAt sb s (s.icache i).inum).type ≠ 0 := by
    rw [h.regular]
    decide
  refine wp_ilock_of (h.ok.num i) (fun hpos hv => ⟨h.ok.type i hpos hv,
    h.ok.coherent i (by simp) hpos hv⟩) (Or.inr h.ref) (Or.inr h.lock) (Or.inr htype) fun _ _ _ => ?_
  rw [wp_pure, wp_bind]
  refine wp_file ?_
  rw [wp_bind]
  have hlog₁ : (entered sb me s i).log = { s.log with outstanding := 1 } := rfl
  refine wp_entered_writei h hw hn1 hW hfree (fun hno => ?_) fun hfit t ht hlog hen => ?_
  · -- `writei` failed, and nothing was changed
    refine wp_ite (fun hpos => absurd hpos (by decide)) fun _ => ?_
    refine wp_finish (by rw [entered_icache]) (by rw [entered_icache]; exact h.ref) rfl
      h.idle.committing (hbad hno _ ?_ ?_ ⟨content_of_blk rfl _, rfl⟩ (hfree.of_blk rfl))
    · refine h.finished me (entered_ok h) rfl rfl h.off rfl ?_
      rw [entered_icache]
      exact h.regular
    · show ((unlocked (entered sb me s i) i).icache i).inum = _
      unfold unlocked
      rw [Kernel.icache_setInode, entered_icache]
  · obtain ⟨d, blk, l, hframe⟩ := ht.frame
    have hok : FsOk sb none (entered sb me s i) := entered_ok h
    have hi : Loaded (entered sb me s i) i := entered_loaded h
    have hicache : t.icache i = { (entered sb me s i).icache i with d := (t.icache i).d } := by
      rw [hframe]
      show (withD (entered sb me s i) i d).icache i = _
      unfold withD
      rw [Kernel.icache_setInode]
    have hinum : (t.icache i).inum = (s.icache i).inum := by rw [hicache, entered_icache]
    have htable : t.ftable = s.ftable := by
      rw [hframe]
      rfl
    have hcont := ht.content_self hok hi (by rw [entered_size]; exact hfit)
    rw [entered_icache, content_of_blk rfl] at hcont
    have hmax := hfit.2.1
    -- the offset is advanced, or not touched because no byte was written
    have hend : ∀ u : Kernel, u.blk = t.blk → u.icache = t.icache → u.log = t.log →
        u.ftable f = { s.ftable f with off := (s.ftable f).off + n1 } →
        wp (fun _ => False) (do iunlock me i; endOp; return (n1 : Int)) Q u := by
      intro u hblk hca hlg hft
      have hui : u.icache i = { (entered sb me s i).icache i with d := (u.icache i).d } := by
        rw [hca]
        exact hicache
      refine wp_finish (by rw [hui, entered_icache]) (by rw [hui, entered_icache]; exact h.ref)
        (by rw [hlg, hlog]) (by rw [hlg, hlog]; exact h.idle.committing) ?_
      refine hgood hfit _ ?_ ?_ ⟨?_, ?_⟩ (hen.of_blk hblk)
      · refine h.finished me (ht.ok.of_parts hblk hca) hui ?_ ?_ ?_ ?_
        · rw [hft]
        · rw [hft]
          exact hmax
        · rw [hlg, hlog]
        · rw [hca, ht.fields, entered_icache]
          exact h.regular
      · show ((unlocked u i).icache i).inum = _
        unfold unlocked
        rw [Kernel.icache_setInode, hca]
        exact hinum
      · exact (content_of_blk hblk _).trans hcont
      · show (u.ftable f).off = _
        rw [hft]
    refine wp_ite (fun hpos => ?_) fun hzero => ?_
    · rw [wp_bind]
      unfold setFile
      rw [wp_atomic]
      refine hend _ rfl rfl rfl ?_
      show (Function.update t.ftable f _) f = _
      rw [Function.update_self, htable, Int.toNat_natCast, Nat.mod_eq_of_lt hmax]
    · refine hend t rfl rfl rfl ?_
      rw [htable, show n1 = 0 by omega, Nat.add_zero]

/-! ## The loop -/

section Splice

variable {l : List Byte} {off : Nat} {src : Nat → Byte}

theorem splice_zero : splice l off 0 src = l := by
  simp [splice]

theorem length_splice (hoff : off ≤ l.length) (n : Nat) :
    (splice l off n src).length = max l.length (off + n) := by
  simp only [splice, List.length_append, List.length_take, List.length_map, List.length_range,
    List.length_drop]
  omega

/-- Storing a range in two parts. -/
theorem splice_splice (hoff : off ≤ l.length) (a b : Nat) :
    splice (splice l off a src) (off + a) b (fun j => src (a + j)) = splice l off (a + b) src := by
  have hlen : (l.take off ++ (List.range a).map src).length = off + a := by
    simp only [List.length_append, List.length_take, List.length_map, List.length_range]
    omega
  have htake : (splice l off a src).take (off + a) = l.take off ++ (List.range a).map src := by
    unfold splice
    rw [← hlen, List.take_left]
  have hdrop : (splice l off a src).drop (off + a + b) = l.drop (off + (a + b)) := by
    unfold splice
    rw [← List.drop_drop, ← hlen, List.drop_left, hlen, List.drop_drop]
    congr 1
    omega
  show (splice l off a src).take (off + a) ++ (List.range b).map (fun j => src (a + j)) ++
    (splice l off a src).drop (off + a + b) = _
  rw [htake, hdrop]
  unfold splice
  rw [List.range_add, List.map_append, List.map_map, List.append_assoc (l.take off)]
  rfl

end Splice

theorem Untouched.stored (h : Untouched sb f i s s') (src : Nat → Byte) :
    Stored sb f i 0 src s s' := ⟨by rw [splice_zero, h.content], h.off⟩

theorem Stored.untouched {src : Nat → Byte} (h : Stored sb f i 0 src s s') :
    Untouched sb f i s s' := ⟨by rw [h.content, splice_zero], h.off⟩

theorem Stored.trans {a b : Nat} {src : Nat → Byte} {s₁ : Kernel}
    (hoff : (s.ftable f).off ≤ (Fs.content sb s (s.icache i).inum).length)
    (hinum : (s₁.icache i).inum = (s.icache i).inum) (h : Stored sb f i a src s s₁)
    (h' : Stored sb f i b (fun j => src (a + j)) s₁ s') : Stored sb f i (a + b) src s s' := by
  constructor
  · rw [← hinum, h'.content, hinum, h.content, h.off, splice_splice hoff]
  · rw [h'.off, h.off, Nat.add_assoc]

theorem touched_mono {off off' n n' : Nat} (h1 : off ≤ off') (h2 : off' + n' ≤ off + n) :
    touched off' n' ⊆ touched off n := by
  unfold touched
  by_cases hn' : n' = 0
  · rw [if_pos hn']
    exact Finset.empty_subset _
  · rw [if_neg hn', if_neg (show ¬ n = 0 by omega)]
    refine Finset.union_subset_union (Finset.image_subset_image fun k hk => ?_) ?_
    · rw [Finset.mem_filter] at *
      have := Nat.div_le_div_right (c := BSIZE) h1
      exact ⟨hk.1, by omega, by omega⟩
    · by_cases hind : NDIRECT * BSIZE < off' + n'
      · rw [if_pos hind, if_pos (by omega)]
      · rw [if_neg hind]
        exact Finset.empty_subset _

theorem Fits.mono {len off m n : Nat} (h : Fits len off n) (hmn : m ≤ n) : Fits len off m := by
  obtain ⟨h1, h2, h3⟩ := h
  exact ⟨h1, by omega, by omega⟩

theorem fits_rest {len off a m : Nat} (ha : Fits len off a) (ham : a ≤ m) :
    Fits (max len (off + a)) (off + a) (m - a) ↔ Fits len off m := by
  obtain ⟨h1, h2, h3⟩ := ha
  unfold Fits
  constructor
  · rintro ⟨_, h5, h6⟩
    exact ⟨h1, by omega, by omega⟩
  · rintro ⟨_, h5, h6⟩
    exact ⟨by omega, by omega, by omega⟩

/-- What the loop returns with `m` bytes left, of which `j` were stored: `n`, or `-1` after the
chunks that fit. -/
def Result (n m len off j : Nat) (r : Int) : Prop :=
  (r = n ∧ j = m ∧ (m = 0 ∨ Fits len off m)) ∨
    (r = -1 ∧ j < m ∧ maxWrite ∣ j ∧ (j = 0 ∨ Fits len off j) ∧
      ¬ Fits len off (min m (j + maxWrite)))

/-- A chunk that was stored, and the rest. -/
theorem Result.cons {n m len off a j : Nat} {r : Int} (ha : Fits len off a)
    (hm : a = min m maxWrite) (h : Result n (m - a) (max len (off + a)) (off + a) j r) :
    Result n m len off (a + j) r := by
  have ham : a ≤ m := by omega
  have hrest : ∀ b, Fits (max len (off + a)) (off + a) b ↔ Fits len off (a + b) := by
    intro b
    rw [← fits_rest ha (Nat.le_add_right a b), Nat.add_sub_cancel_left]
  rcases h with ⟨hr, hj, hfit⟩ | ⟨hr, hj, hdvd, hfit, hno⟩
  · refine Or.inl ⟨hr, by omega, Or.inr ?_⟩
    rcases hfit with hz | hfit
    · rwa [show m = a by omega]
    · rw [hrest] at hfit
      rwa [show m = a + (m - a) by omega]
  · have hfull : a = maxWrite := by omega
    rw [hrest] at hno
    refine Or.inr ⟨hr, by omega, (Nat.dvd_add_right (by rw [hfull])).2 hdvd, Or.inr ?_, ?_⟩
    · rcases hfit with hz | hfit
      · rwa [hz]
      · exact (hrest j).1 hfit
    · rwa [show min m (a + j + maxWrite) = a + min (m - a) (j + maxWrite) by omega]

/-- The outcome of the loop from byte `k` on: `j` more bytes are stored. -/
def LoopPost (sb : Superblock) (W : Finset Nat) (f : FileIdx) (i : Slot) (src : Nat → Byte) (n k : Nat)
    (s : Kernel) (r : Int) (s' : Kernel) : Prop :=
  ∃ j, Writable sb s' f i ∧ (s'.icache i).inum = (s.icache i).inum ∧
    Enough sb W (s.icache i).inum s' ∧ Stored sb f i j (fun x => src (k + x)) s s' ∧
    Result n (n - k) (content sb s (s.icache i).inum).length (s.ftable f).off j r

theorem LoopPost.done {src : Nat → Byte} {n k : Nat} (h : Writable sb s f i)
    (hfree : Enough sb W (s.icache i).inum s) (hkn : k = n) :
    LoopPost sb W f i src n k s (if k = n then (n : Int) else -1) s := by
  refine ⟨0, h, rfl, hfree, Untouched.stored ⟨rfl, rfl⟩ _, ?_⟩
  rw [if_pos hkn]
  exact Or.inl ⟨rfl, by omega, Or.inl (by omega)⟩

/-- Where everything fits, everything is stored. -/
theorem LoopPost.stored {src : Nat → Byte} {n : Nat} {r : Int} (h : LoopPost sb W f i src n 0 s r s')
    (hfit : Fits (content sb s (s.icache i).inum).length (s.ftable f).off n) :
    r = n ∧ Writable sb s' f i ∧ (s'.icache i).inum = (s.icache i).inum ∧
      Enough sb W (s.icache i).inum s' ∧ Stored sb f i n src s s' := by
  obtain ⟨j, hwr, hin, hen, hst, hres⟩ := h
  have hsrc : (fun x => src (0 + x)) = src := by
    funext x
    rw [Nat.zero_add]
  rw [hsrc] at hst
  rcases hres with ⟨hr, hj, -⟩ | ⟨-, -, -, -, hno⟩
  · obtain rfl : j = n := hj
    exact ⟨hr, hwr, hin, hen, hst⟩
  · exact absurd (hfit.mono (Nat.min_le_left _ _)) hno

theorem LoopPost.cons {src : Nat → Byte} {n k a : Nat} {r : Int} {s₁ : Kernel}
    (ha : a = min (n - k) maxWrite)
    (hfit : Fits (content sb s (s.icache i).inum).length (s.ftable f).off a)
    (hin : (s₁.icache i).inum = (s.icache i).inum)
    (hst : Stored sb f i a (fun x => src (k + x)) s s₁)
    (h : LoopPost sb W f i src n (k + a) s₁ r s') : LoopPost sb W f i src n k s r s' := by
  obtain ⟨j, hw', hin', hen', hst', hres⟩ := h
  have hlen : (content sb s₁ (s₁.icache i).inum).length =
      max (content sb s (s.icache i).inum).length ((s.ftable f).off + a) := by
    rw [hin, hst.content, length_splice hfit.1]
  rw [hlen, hst.off, Nat.sub_add_eq] at hres
  refine ⟨a + j, hw', hin'.trans hin, hin ▸ hen', hst.trans hfit.1 hin ?_,
    hres.cons hfit ha⟩
  have hsrc : (fun x => src (k + a + x)) = fun x => src (k + (a + x)) := by
    funext x
    rw [Nat.add_assoc]
  rwa [hsrc] at hst'

theorem wp_filewriteFrom (hw : sb.WF) {n : Nat} {src : Nat → Byte} (rounds k : Nat)
    (h : Writable sb s f i) (hk : k ≤ n) (hr : n - k ≤ rounds)
    (hW : touched (s.ftable f).off (n - k) ⊆ W) (hfree : Enough sb W (s.icache i).inum s) :
    wp (fun _ => False) (filewriteFrom sb me f src n rounds k) (LoopPost sb W f i src n k s) s := by
  induction rounds generalizing k s with
  | zero => exact .done h hfree (by omega)
  | succ rounds ih =>
    unfold filewriteFrom
    refine wp_ite (fun hlt => ?_) fun hge => .done h hfree (by omega)
    have hmax : 0 < maxWrite := by decide
    have hsub : touched (s.ftable f).off (min (n - k) maxWrite) ⊆ W :=
      (touched_mono le_rfl (by omega)).trans hW
    rw [wp_bind]
    refine wp_filewriteChunk hw h (Nat.min_le_right _ _) hsub hfree
      (fun hno s₁ h₁ hin hun hen => ?_) fun hfit s₁ h₁ hin hst hen => ?_
    · -- the chunk does not fit
      refine wp_ite (fun _ => ?_) fun hpos => absurd (by decide) hpos
      refine ⟨0, h₁, hin, hen, hun.stored _, Or.inr ⟨rfl, by omega, dvd_zero _, Or.inl rfl, ?_⟩⟩
      rwa [Nat.zero_add]
    · refine wp_ite (fun hneg => absurd hneg (by omega)) fun _ => ?_
      refine wp_ite (fun hne => absurd rfl hne) fun _ => ?_
      have hrest : touched (s₁.ftable f).off (n - (k + min (n - k) maxWrite)) ⊆ W := by
        rw [hst.off]
        exact (touched_mono (by omega) (by omega)).trans hW
      exact wp_mono (ih (k + min (n - k) maxWrite) h₁ (by omega) (by omega) hrest (hin.symm ▸ hen))
        fun r s₂ h₂ => h₂.cons rfl hfit hin hst

theorem wp_filewrite (hw : sb.WF) (h : Writable sb s f i) {n : Nat} {src : Nat → Byte}
    (hW : touched (s.ftable f).off n ⊆ W) (hfree : Enough sb W (s.icache i).inum s) :
    wp (fun _ => False) (filewrite sb me f src n) (LoopPost sb W f i src n 0 s) s := by
  unfold filewrite
  rw [wp_bind]
  refine wp_file ?_
  rw [if_neg (by rw [h.writable]; decide), h.type]
  exact wp_filewriteFrom hw n 0 h (Nat.zero_le n) le_rfl hW hfree

/-- A write is all or nothing exactly if the whole range fits into the file, or not even its first
chunk does: `filewrite` then returns `n` with the bytes stored and the offset advanced, or `-1` with
the file as it was. -/
theorem filewrite_all_or_nothing_iff (hw : sb.WF) (h : Writable sb s f i) (n : Nat)
    (src : Nat → Byte) (hfree : Enough sb (touched (s.ftable f).off n) (s.icache i).inum s) :
    (∃ r s', (filewrite sb me f src n).run s = .ok r s' ∧
      ((r = n ∧ Stored sb f i n src s s') ∨ (r = -1 ∧ Untouched sb f i s s'))) ↔
    (Fits (content sb s (s.icache i).inum).length (s.ftable f).off n ∨
      ¬ Fits (content sb s (s.icache i).inum).length (s.ftable f).off (min n maxWrite)) := by
  have hwp : wp (fun _ => False) (filewrite sb me f src n)
      (LoopPost sb (touched (s.ftable f).off n) f i src n 0 s) s :=
    wp_filewrite hw h subset_rfl hfree
  obtain ⟨r, s', hrun, j, _, _, _, hst, hres⟩ := wp_returns hwp
  have hsrc : (fun x => src (0 + x)) = src := by
    funext x
    rw [Nat.zero_add]
  rw [hsrc] at hst
  rw [Nat.sub_zero] at hres
  constructor
  · rintro ⟨r₂, s₂, hrun₂, hcase⟩
    rw [hrun] at hrun₂
    cases hrun₂
    rcases hres with ⟨hr, hj, hz | hfit⟩ | ⟨hr, _, _, _, hno⟩
    · rw [hz, Nat.zero_min]
      exact Classical.em _
    · exact Or.inl hfit
    · -- it failed and nothing was touched, so that not even the first chunk was stored
      right
      have hun : Untouched sb f i s s' := by
        rcases hcase with ⟨hn, _⟩ | ⟨_, hun⟩
        · omega
        · exact hun
      have hzero : j = 0 := by
        have h1 := hst.off
        have h2 := hun.off
        omega
      rwa [hzero, Nat.zero_add] at hno
  · intro hcond
    refine ⟨r, s', hrun, ?_⟩
    rcases hres with ⟨hr, hj, _⟩ | ⟨hr, hj, hdvd, hfit, hno⟩
    · exact Or.inl ⟨hr, hj ▸ hst⟩
    · have hfirst := hcond.resolve_left fun hall => hno (hall.mono (Nat.min_le_left _ _))
      have hzero : j = 0 := by
        rcases hfit with hz | hfit
        · exact hz
        · by_contra hne
          have hle := Nat.le_of_dvd (Nat.pos_of_ne_zero hne) hdvd
          exact hfirst (hfit.mono (by omega))
      rw [hzero] at hst
      exact Or.inr ⟨hr, hst.untouched⟩

/-! ## Two writes to a new file -/

/-- A fresh system whose first process has made and opened the file `/f` (entry 1 of the inode cache,
entry 0 of the file table). -/
def fileOpen : Res Panic Unit Kernel :=
  freshBoot.bind fun _ s =>
    sysStep mkfsSb s (initproc, .open (some [slash, 102]) (some (O_CREATE ||| O_RDWR)))

/-- What is to be known of such a state. -/
def openReady (s : Kernel) : Bool :=
  fsck mkfsSb s && decide (s.log = .init LOGSIZE) &&
    decide (s.ftable 0 = ⟨.inode, 1, true, true, none, some 1, 0⟩) &&
    decide (0 < (s.icache 1).ref) && decide ((s.icache 1).lock = none) &&
    decide ((s.icache 1).inum = 2) && decide ((dinodeAt mkfsSb s 2).type = T_FILE) &&
    decide ((dinodeAt mkfsSb s 2).size = 0) && decide (MAXFILE + 1 ≤ (vol mkfsSb none s).free mkfsSb)

theorem fileOpen_facts : ∃ s, fileOpen = .ok () s ∧ Writable mkfsSb s 0 1 ∧ (s.ftable 0).off = 0 ∧
    content mkfsSb s (s.icache 1).inum = [] ∧ MAXFILE + 1 ≤ (vol mkfsSb none s).free mkfsSb := by
  have hready : (fileOpen.bind fun _ s => (.ok (openReady s) () : Res Panic Bool Unit)) =
      .ok true () := by decide +kernel
  obtain ⟨_, s, hs, hf⟩ := Res.bind_eq_ok.1 hready
  have h : openReady s = true := by simpa using hf
  simp only [openReady, Bool.and_eq_true, decide_eq_true_eq] at h
  obtain ⟨⟨⟨⟨⟨⟨⟨⟨hck, hlog⟩, hft⟩, href⟩, hlock⟩, hin⟩, ht⟩, hsz⟩, hfree⟩ := h
  refine ⟨s, hs, ⟨fsOk_of_fsck (by decide) hck, ?_, ?_, ?_, ?_, ?_, href, hlock, ?_⟩, ?_, ?_, hfree⟩
  · rw [hlog]
    exact ⟨rfl, rfl, rfl, by decide⟩
  · rw [hft]
  · rw [hft]
  · rw [hft]
  · rw [hft]
    decide
  · rw [hin]
    exact ht
  · rw [hft]
  · rw [hin]
    unfold content
    rw [hsz]
    rfl

theorem card_touched_le (off n : Nat) : (touched off n).card ≤ MAXFILE + 1 := by
  unfold touched
  split
  · exact Nat.zero_le _
  · refine (Finset.card_union_le _ _).trans (Nat.add_le_add ?_ ?_)
    · refine Finset.card_image_le.trans ((Finset.card_filter_le _ _).trans ?_)
      rw [Finset.card_range]
    · split
      · exact le_rfl
      · exact Nat.zero_le _

theorem Enough.of_free {off n inum : Nat} (h : MAXFILE + 1 ≤ (vol sb none s).free sb) :
    Enough sb (touched off n) inum s :=
  ((Finset.card_filter_le _ _).trans (card_touched_le off n)).trans h

/-- A write of three bytes, which fits, to the new file. -/
theorem filewrite_all_or_nothing_three : ∃ s s', fileOpen = .ok () s ∧
    (filewrite mkfsSb initproc 0 (fun _ => 7) 3).run s = .ok 3 s' ∧
    content mkfsSb s' (s.icache 1).inum = [7, 7, 7] ∧ (s'.ftable 0).off = 3 := by
  obtain ⟨s, hs, hwr, hoff, hempty, hfree⟩ := fileOpen_facts
  have hfits : Fits (content mkfsSb s (s.icache 1).inum).length (s.ftable 0).off 3 := by
    rw [hempty, hoff]
    exact ⟨by decide, by decide, by decide⟩
  have hwp : wp (fun _ => False) (filewrite mkfsSb initproc 0 (fun _ => 7) 3) _ s :=
    wp_filewrite mkfsSb_wf hwr subset_rfl (.of_free hfree)
  obtain ⟨r, s', hrun, hcase⟩ := (filewrite_all_or_nothing_iff mkfsSb_wf hwr 3 (fun _ => 7)
    (.of_free hfree)).2 (Or.inl hfits)
  obtain ⟨rfl, -⟩ := (wp_ok hwp hrun).stored hfits
  rcases hcase with ⟨-, hst⟩ | ⟨hneg, -⟩
  · refine ⟨s, s', hs, hrun, ?_, ?_⟩
    · rw [hst.content, hempty, hoff]
      rfl
    · rw [hst.off, hoff]
  · exact absurd hneg (by decide)

/-- The new file is filled up to three blocks less than a file can have, and then written once more:
the first chunk fits, the second one does not.  `filewrite` returns `-1`, but the file has grown and
the offset has moved. -/
theorem filewrite_torn : ∃ s₀ s s', fileOpen = .ok () s₀ ∧
    (filewrite mkfsSb initproc 0 (fun _ => 7) 70144).run s₀ = .ok 70144 s ∧
    Writable mkfsSb s 0 1 ∧ Enough mkfsSb (touched (s.ftable 0).off 2000) (s.icache 1).inum s ∧
    (content mkfsSb s (s.icache 1).inum).length = 70144 ∧ (s.ftable 0).off = 70144 ∧
    (filewrite mkfsSb initproc 0 (fun _ => 7) 2000).run s = .ok (-1) s' ∧
    (content mkfsSb s' (s.icache 1).inum).length = 71680 ∧ (s'.ftable 0).off = 71680 := by
  obtain ⟨s₀, hs, hwr, hoff, hempty, hfree⟩ := fileOpen_facts
  have hmax : MAXFILE * BSIZE = 71680 := by decide
  have hchunk : maxWrite = 1536 := by decide
  -- the first write fits
  have hwp : wp (fun _ => False) (filewrite mkfsSb initproc 0 (fun _ => 7) 70144)
      (LoopPost mkfsSb (touched 0 72144) 0 1 (fun _ => 7) 70144 0 s₀) s₀ := by
    refine wp_filewrite mkfsSb_wf hwr ?_ (.of_free hfree)
    rw [hoff]
    exact touched_mono le_rfl (by omega)
  have hfits : Fits (content mkfsSb s₀ (s₀.icache 1).inum).length (s₀.ftable 0).off 70144 := by
    rw [hempty, hoff]
    exact ⟨le_rfl, by omega, by omega⟩
  obtain ⟨r, s, hrun, hpost⟩ := wp_returns hwp
  obtain ⟨hr, hwr₁, hin, hen, hst⟩ := hpost.stored hfits
  subst hr
  have hlen : (content mkfsSb s (s.icache 1).inum).length = 70144 := by
    rw [hin, hst.content, hempty, hoff, length_splice (Nat.le_refl 0)]
    rfl
  have hoff₁ : (s.ftable 0).off = 70144 := by rw [hst.off, hoff]
  -- the second one fits up to its first chunk
  have hsub : touched (s.ftable 0).off 2000 ⊆ touched 0 72144 := by
    rw [hoff₁]
    exact touched_mono (Nat.zero_le _) le_rfl
  rw [← hin] at hen
  have hwp₂ : wp (fun _ => False) (filewrite mkfsSb initproc 0 (fun _ => 7) 2000)
      (LoopPost mkfsSb (touched 0 72144) 0 1 (fun _ => 7) 2000 0 s) s :=
    wp_filewrite mkfsSb_wf hwr₁ hsub hen
  obtain ⟨r, s', hrun₂, j, _, _, _, hst₂, hres₂⟩ := wp_returns hwp₂
  rw [hlen, hoff₁, Nat.sub_zero] at hres₂
  obtain ⟨hr, hj⟩ : r = -1 ∧ j = 1536 := by
    rcases hres₂ with ⟨_, _, hz | ⟨_, _, hfit⟩⟩ | ⟨hr, hlt, ⟨c, hc⟩, _, hno⟩
    · cases hz
    · omega
    · refine ⟨hr, ?_⟩
      -- a multiple of the chunk below 2000, and not 0
      have hne : c ≠ 0 := by
        rintro rfl
        exact hno ⟨le_rfl, by omega, by omega⟩
      have : c < 2 := by
        by_contra h2
        have := Nat.mul_le_mul_left maxWrite (Nat.le_of_not_lt h2)
        omega
      have hc1 : c = 1 := by omega
      rw [hc, hc1, hchunk]
  subst hr hj
  refine ⟨s₀, s, s', hs, hrun, hwr₁, ?_, hlen, hoff₁, hrun₂, ?_, ?_⟩
  · exact le_trans (Finset.card_le_card (Finset.filter_subset_filter _ hsub)) hen
  · rw [hst₂.content, length_splice (by omega), hlen, hoff₁]
    rfl
  · rw [hst₂.off, hoff₁]

end Xv6.Fs
