import Xv6.Log.Disk

/-!
# The write-ahead log is crash atomic

A group of operations has changed the cached copies of the blocks in the log
header.  `commit` sends four runs of writes to the disk: the new contents to the
log blocks, the header, the new contents to the home blocks, the empty header.
Cut anywhere, the disk is in one of three phases (`Old`, `Committed`, `Done`),
and recovery, cut anywhere too, never leaves the last two for the first:

    commit         Old ⟶ Old | Committed | Done          (commit_crash)
    recovery cut   Old ⟶ Old, Committed ⟶ Committed | Done, Done ⟶ Done
    recovery done  Old ⟶ Old, Committed ⟶ Done, Done ⟶ Done

Chained, they say that after the first recovery that completes all home blocks
are old or all are new.
-/

namespace Xv6

open Bytes Conc Conc.Writes

/-! ## The buffer cache -/

namespace Machine

theorem disk_bget (m : Machine) (b : Nat) : (m.bget b).disk = m.disk := rfl

theorem coherent_bget {m : Machine} (h : m.Coherent) (b : Nat) : (m.bget b).Coherent := by
  intro x buf hx hd
  simp only [bget] at hx
  cases hc : m.bcache x with
  | none => simp [hc] at hx
  | some buf' =>
    simp only [hc] at hx
    split at hx
    · cases hx
    · cases hx
      exact h x buf hc hd

/-- Recycling clean buffers is not visible to a reader. -/
theorem view_bget {m : Machine} (h : m.Coherent) (b : Nat) : (m.bget b).view = m.view := by
  funext x
  simp only [view, bget]
  cases hc : m.bcache x with
  | none => rfl
  | some buf =>
    by_cases hr : x ≠ b ∧ buf.dirty = false ∧ m.recycle m.calls x = true
    · simp only [if_pos hr]
      exact (h x buf hc hr.2.1).symm
    · simp only [if_neg hr]

theorem disk_load (m : Machine) (b : Nat) : (m.load b).disk = m.disk := by
  unfold load
  split <;> rfl

theorem coherent_load {m : Machine} (h : m.Coherent) (b : Nat) : (m.load b).Coherent := by
  unfold load
  split
  · exact h
  · intro x buf hx hd
    by_cases hxb : x = b
    · subst hxb
      simp only [Function.update_self, Option.some.injEq] at hx
      rw [← hx]
    · simp only [Function.update_of_ne hxb] at hx
      exact h x buf hx hd

theorem view_load (m : Machine) (b : Nat) : (m.load b).view = m.view := by
  unfold load
  split
  · rfl
  · next hb =>
    funext x
    by_cases hxb : x = b
    · subst hxb
      simp [view, hb]
    · simp [view, Function.update_of_ne hxb]

theorem coherent_store {m : Machine} (h : m.Coherent) (b : Nat) (data : Block) :
    (m.store b data).Coherent := by
  intro x buf hx hd
  by_cases hxb : x = b
  · subst hxb
    simp only [store, Function.update_self, Option.some.injEq] at hx ⊢
    rw [← hx]
  · simp only [store, Function.update_of_ne hxb] at hx ⊢
    exact h x buf hx hd

theorem view_store (m : Machine) (b : Nat) (data : Block) :
    (m.store b data).view = Function.update m.view b data := by
  funext x
  by_cases hxb : x = b
  · subst hxb
    simp [view, store]
  · simp [view, store, Function.update_of_ne hxb]

theorem coherent_boot (d : Nat → Block) (r : Nat → Nat → Bool) : (boot d r).Coherent := by
  intro b buf h
  cases h

theorem view_boot (d : Nat → Block) (r : Nat → Nat → Bool) : (boot d r).view = d := rfl

end Machine

/-- What a program of `bio.c` calls sends to the disk. -/
abbrev DevEmits {α : Type} (p : Dev α) (d v : Nat → Block) (a : α) (ws : List (Nat × Block)) :
    Prop :=
  Emits Machine.Coherent Machine.disk Machine.view p d v a ws

theorem bread_emits (b : Nat) (d v : Nat → Block) : DevEmits (bread b) d v (v b) [] := by
  apply Emits.atomic
  intro m hc hd hv
  refine ⟨(m.bget b).load b, ?_, ?_, ?_, ?_⟩
  · rw [Machine.view_bget hc, hv]
  · exact Machine.coherent_load (Machine.coherent_bget hc b) b
  · rw [Machine.disk_load, Machine.disk_bget, hd, apply_nil]
  · rw [Machine.view_load, Machine.view_bget hc, hv, apply_nil]

theorem bwrite_emits (b : Nat) (data : Block) (d v : Nat → Block) :
    DevEmits (bwrite b data) d v () [(b, data)] := by
  apply Emits.atomic
  intro m hc hd hv
  refine ⟨m.store b data, rfl, Machine.coherent_store hc b data, ?_, ?_⟩
  · rw [← hd]; rfl
  · rw [Machine.view_store, hv, apply_cons, apply_nil]

/-! ## The header block -/

theorem word_putBlocks_lt (bs : List Nat) (hb : Block) (i o : Nat) (h : o + 4 ≤ 4 + 4 * i) :
    (putBlocks hb i bs).word o = hb.word o := by
  induction bs generalizing hb i with
  | nil => rfl
  | cons b bs ih =>
    rw [putBlocks, ih _ _ (by omega), Blk.word_setWord_ne _ _ (by omega)]

theorem word_putBlocks (bs : List Nat) (hb : Block) (i : Nat) (hn : i + bs.length ≤ LOGSIZE)
    (j : Nat) (b : Nat) (hj : bs[j]? = some b) :
    (putBlocks hb i bs).word (4 + 4 * (i + j)) = BitVec.ofNat 32 b := by
  induction bs generalizing hb i j with
  | nil => cases hj
  | cons c bs ih =>
    simp only [List.length_cons] at hn
    cases j with
    | zero =>
      simp only [List.getElem?_cons_zero, Option.some.injEq] at hj
      rw [putBlocks, word_putBlocks_lt _ _ _ _ (by omega), Nat.add_zero,
        Blk.word_setWord_self _ _ (by simp only [LOGSIZE, MAXOPBLOCKS, BSIZE] at hn ⊢; omega), hj]
    | succ j =>
      simp only [List.getElem?_cons_succ] at hj
      rw [putBlocks, show i + (j + 1) = i + 1 + j by omega]
      exact ih _ _ (by omega) _ hj

theorem word_putHead_zero (hb : Block) (lh : List Nat) :
    (putHead hb lh).word 0 = BitVec.ofNat 32 lh.length := by
  rw [putHead, word_putBlocks_lt _ _ _ _ (by omega), Blk.word_setWord_self _ _ (by decide)]

theorem headOf_putHead (hb : Block) (lh : Logheader) : headOf (putHead hb lh.block) = lh.block := by
  have hn := lh.n_le
  have hn' : lh.block.length < 2 ^ 31 := by simp only [LOGSIZE, MAXOPBLOCKS] at hn; omega
  have hlen : ((putHead hb lh.block).word 0).toInt.toNat = lh.block.length := by
    have hmod : (BitVec.ofNat 32 lh.block.length).toNat = lh.block.length := by
      rw [BitVec.toNat_ofNat, Nat.mod_eq_of_lt (by omega)]
    rw [word_putHead_zero, BitVec.toInt_eq_toNat_of_lt (by omega), hmod, Int.toNat_natCast]
  unfold headOf
  rw [hlen]
  apply List.ext_getElem?
  intro i
  by_cases hi : i < lh.block.length
  · have hget : lh.block[i]? = some lh.block[i] := List.getElem?_eq_getElem hi
    rw [List.getElem?_map, List.getElem?_range hi, hget, Option.map_some]
    have hw := word_putBlocks lh.block (hb.setWord 0 (BitVec.ofNat 32 lh.block.length)) 0
      (by omega) i _ hget
    rw [Nat.zero_add] at hw
    rw [putHead, hw, BitVec.toNat_ofNat, Nat.mod_eq_of_lt (lh.lt _ (List.getElem_mem hi))]
  · rw [List.getElem?_eq_none (by simpa using hi), List.getElem?_eq_none (by omega)]

theorem headOf_of_zero {hb : Block} (h : hb.word 0 = 0) : headOf hb = [] := by
  simp [headOf, h]

theorem writeHead_emits (start : Nat) (lh : List Nat) (d v : Nat → Block) :
    DevEmits (writeHead start lh) d v () [(start, putHead (v start) lh)] :=
  Emits.bind (bread_emits start d v) (bwrite_emits start (putHead (v start) lh) d v)

/-! ## The writes of `writeLog` and `installTrans` -/

def logWrites (start : Nat) (v : Nat → Block) : Nat → List Nat → List (Nat × Block)
  | _, [] => []
  | tail, b :: bs => (start + tail + 1, v b) :: logWrites start v (tail + 1) bs

def installWrites (start : Nat) (v : Nat → Block) : Nat → List Nat → List (Nat × Block)
  | _, [] => []
  | tail, b :: bs => (b, v (start + tail + 1)) :: installWrites start v (tail + 1) bs

theorem mem_logWrites {start : Nat} {v : Nat → Block} {bs : List Nat} {tail : Nat}
    {w : Nat × Block} (h : w ∈ logWrites start v tail bs) :
    start + tail < w.1 ∧ w.1 ≤ start + tail + bs.length := by
  induction bs generalizing tail with
  | nil => cases h
  | cons b bs ih =>
    simp only [logWrites, List.mem_cons] at h
    simp only [List.length_cons]
    rcases h with rfl | h
    · constructor <;> dsimp only <;> omega
    · have := ih h
      omega

theorem mem_installWrites {start : Nat} {v : Nat → Block} {bs : List Nat} {tail : Nat}
    {w : Nat × Block} (h : w ∈ installWrites start v tail bs) :
    ∃ i, bs[i]? = some w.1 ∧ w.2 = v (start + (tail + i) + 1) := by
  induction bs generalizing tail with
  | nil => cases h
  | cons b bs ih =>
    simp only [installWrites, List.mem_cons] at h
    rcases h with rfl | h
    · exact ⟨0, rfl, rfl⟩
    · obtain ⟨i, hi, hw⟩ := ih h
      exact ⟨i + 1, hi, by rw [hw, show tail + 1 + i = tail + (i + 1) by omega]⟩

theorem map_fst_installWrites (start : Nat) (v : Nat → Block) (bs : List Nat) (tail : Nat) :
    (installWrites start v tail bs).map Prod.fst = bs := by
  induction bs generalizing tail with
  | nil => rfl
  | cons b bs ih => simp [installWrites, ih]

theorem logWrites_congr {start : Nat} {v v' : Nat → Block} {bs : List Nat} {tail : Nat}
    (h : ∀ b ∈ bs, v b = v' b) : logWrites start v tail bs = logWrites start v' tail bs := by
  induction bs generalizing tail with
  | nil => rfl
  | cons b bs ih =>
    simp only [logWrites, h b List.mem_cons_self,
      ih fun b hb => h b (List.mem_cons_of_mem _ hb)]

theorem installWrites_congr {start : Nat} {v v' : Nat → Block} {bs : List Nat} {tail : Nat}
    (h : ∀ i, i < bs.length → v (start + (tail + i) + 1) = v' (start + (tail + i) + 1)) :
    installWrites start v tail bs = installWrites start v' tail bs := by
  induction bs generalizing tail with
  | nil => rfl
  | cons b bs ih =>
    have h0 : v (start + tail + 1) = v' (start + tail + 1) := h 0 (by simp)
    have hrest : ∀ i, i < bs.length →
        v (start + (tail + 1 + i) + 1) = v' (start + (tail + 1 + i) + 1) := by
      intro i hi
      have := h (i + 1) (by simp only [List.length_cons]; omega)
      rwa [show tail + (i + 1) = tail + 1 + i by omega] at this
    rw [installWrites, installWrites, h0, ih hrest]

theorem apply_logWrites (start : Nat) (v : Nat → Block) (bs : List Nat) (tail : Nat)
    (d : Nat → Block) (i b : Nat) (hi : bs[i]? = some b) :
    apply (logWrites start v tail bs) d (start + (tail + i) + 1) = v b := by
  induction bs generalizing tail d i with
  | nil => cases hi
  | cons c bs ih =>
    rw [logWrites, apply_cons]
    cases i with
    | zero =>
      simp only [List.getElem?_cons_zero, Option.some.injEq] at hi
      subst hi
      have hm : start + tail + 1 ∉ (logWrites start v (tail + 1) bs).map Prod.fst := by
        intro hm
        obtain ⟨w, hw, he⟩ := List.mem_map.1 hm
        have := mem_logWrites hw
        omega
      exact (apply_of_notMem hm _).trans (Function.update_self _ _ _)
    | succ i =>
      rw [show tail + (i + 1) = tail + 1 + i by omega]
      exact ih _ _ _ hi

theorem writeLogFrom_emits (start : Nat) (bs : List Nat) (tail : Nat)
    (h : ∀ b ∈ bs, b ≤ start ∨ start + tail + bs.length < b) (d v : Nat → Block) :
    DevEmits (writeLogFrom start tail bs) d v () (logWrites start v tail bs) := by
  induction bs generalizing tail d v with
  | nil => exact Emits.pure ()
  | cons b bs ih =>
    simp only [List.length_cons] at h
    refine Emits.bind (bread_emits (start + tail + 1) d v) ?_
    refine Emits.bind (bread_emits b d v) ?_
    have hrest := ih (tail + 1) (fun c hc => by
        have := h c (List.mem_cons_of_mem _ hc); omega)
      (Function.update d (start + tail + 1) (v b)) (Function.update v (start + tail + 1) (v b))
    have hsame : logWrites start (Function.update v (start + tail + 1) (v b)) (tail + 1) bs =
        logWrites start v (tail + 1) bs := by
      apply logWrites_congr
      intro c hc
      have := h c (List.mem_cons_of_mem _ hc)
      rw [Function.update_of_ne (by omega)]
    rw [hsame] at hrest
    exact Emits.bind (bwrite_emits (start + tail + 1) (v b) d v) hrest

theorem installFrom_emits (start : Nat) (bs : List Nat) (tail : Nat)
    (h : ∀ b ∈ bs, b ≤ start ∨ start + tail + bs.length < b) (d v : Nat → Block) :
    DevEmits (installFrom start tail bs) d v () (installWrites start v tail bs) := by
  induction bs generalizing tail d v with
  | nil => exact Emits.pure ()
  | cons b bs ih =>
    simp only [List.length_cons] at h
    refine Emits.bind (bread_emits (start + tail + 1) d v) ?_
    refine Emits.bind (bread_emits b d v) ?_
    have hrest := ih (tail + 1) (fun c hc => by
        have := h c (List.mem_cons_of_mem _ hc); omega)
      (Function.update d b (v (start + tail + 1))) (Function.update v b (v (start + tail + 1)))
    have hsame : installWrites start (Function.update v b (v (start + tail + 1))) (tail + 1) bs =
        installWrites start v (tail + 1) bs := by
      apply installWrites_congr
      intro i hi
      have := h b List.mem_cons_self
      rw [Function.update_of_ne (by omega)]
    rw [hsame] at hrest
    exact Emits.bind (bwrite_emits b (v (start + tail + 1)) d v) hrest

/-! ## Phases of the disk -/

/-- Operations have changed the cached copies of the blocks in the header, and nothing else:
a buffer outside the header is clean.  The header fits the log area, and the last commit or
recovery has left the count on disk at `0`. -/
structure Group (sb : Superblock) (lh : Logheader) (m : Machine) : Prop where
  coherent : m.Coherent
  pinned : ∀ b buf, m.bcache b = some buf → buf.dirty = true → b ∈ lh.block
  home : ∀ b ∈ lh.block, sb.Home b
  room : lh.block.length < sb.nlog
  idle : (m.disk sb.logstart).word 0 = 0

/-- Nothing is committed: the count on disk is `0` and home blocks are as in `old`. -/
def Old (sb : Superblock) (old D : Nat → Block) : Prop :=
  (D sb.logstart).word 0 = 0 ∧ ∀ b, sb.Home b → D b = old b

structure Committed (sb : Superblock) (lh : List Nat) (new D : Nat → Block) : Prop where
  pos : 0 < lh.length
  head : headOf (D sb.logstart) = lh
  log : ∀ i b, lh[i]? = some b → D (sb.logstart + i + 1) = new b
  rest : ∀ b, sb.Home b → b ∉ lh → D b = new b

/-- Installed: the count is `0` again and home blocks are as in `new`. -/
abbrev Done (sb : Superblock) (new D : Nat → Block) : Prop := Old sb new D

section

variable {sb : Superblock} {lh : List Nat} {old new D : Nat → Block}

theorem Home.notMem_log {b i : Nat} (h : sb.Home b) (hi : i < sb.nlog - 1) :
    b ≠ sb.logstart + i + 1 := by
  unfold Superblock.Home at h
  omega

theorem Home.ne_head {b : Nat} (h : sb.Home b) (hn : 0 < sb.nlog) : b ≠ sb.logstart := by
  unfold Superblock.Home at h
  omega

theorem Old.write_log (h : Old sb old D) {i : Nat} (hi : i < sb.nlog - 1) (x : Block) :
    Old sb old (Function.update D (sb.logstart + i + 1) x) := by
  refine ⟨?_, fun b hb => ?_⟩
  · rw [Function.update_of_ne (by omega)]
    exact h.1
  · rw [Function.update_of_ne (Home.notMem_log hb hi)]
    exact h.2 b hb

/-- Clearing the header. -/
theorem Old.write_head (h : ∀ b, sb.Home b → b ≠ sb.logstart → D b = old b) (hb : Block)
    (hn : 0 < sb.nlog) : Old sb old (Function.update D sb.logstart (putHead hb [])) := by
  refine ⟨?_, fun b hb' => ?_⟩
  · rw [Function.update_self, word_putHead_zero]
    rfl
  · rw [Function.update_of_ne (Home.ne_head hb' hn)]
    exact h b hb' (Home.ne_head hb' hn)

theorem Committed.write_home (h : Committed sb lh new D) (hlh : lh.length < sb.nlog)
    {b : Nat} (hb : b ∈ lh) (hh : sb.Home b) :
    Committed sb lh new (Function.update D b (new b)) := by
  constructor
  · exact h.pos
  · rw [Function.update_of_ne (Home.ne_head hh (by omega)).symm]
    exact h.head
  · intro i c hc
    have hi : i < lh.length := (List.getElem?_eq_some_iff.1 hc).1
    rw [Function.update_of_ne (Home.notMem_log hh (by omega)).symm]
    exact h.log i c hc
  · intro c hc hm
    have hne : c ≠ b := fun e => hm (by rw [e]; exact hb)
    rw [Function.update_of_ne hne]
    exact h.rest c hc hm

theorem Committed.install (h : Committed sb lh new D) (hlh : lh.length < sb.nlog)
    (hhome : ∀ b ∈ lh, sb.Home b) {v : Nat → Block}
    (hv : ∀ i b, lh[i]? = some b → v (sb.logstart + i + 1) = new b) (hb : Block) :
    let ws := installWrites sb.logstart v 0 lh ++ [(sb.logstart, putHead hb [])]
    (∀ k, Committed sb lh new (apply (ws.take k) D) ∨ Done sb new (apply (ws.take k) D)) ∧
      Done sb new (apply ws D) := by
  intro ws
  have hw : ∀ w ∈ installWrites sb.logstart v 0 lh, w.1 ∈ lh ∧ w.2 = new w.1 := by
    intro w hw
    obtain ⟨i, hi, hwv⟩ := mem_installWrites hw
    rw [Nat.zero_add, hv i _ hi] at hwv
    exact ⟨List.mem_of_getElem? hi, hwv⟩
  have hstep : ∀ w ∈ installWrites sb.logstart v 0 lh, ∀ d, Committed sb lh new d →
      Committed sb lh new (Function.update d w.1 w.2) := by
    intro w hm d hd
    rw [(hw w hm).2]
    exact hd.write_home hlh (hw w hm).1 (hhome _ (hw w hm).1)
  have hall : Committed sb lh new (apply (installWrites sb.logstart v 0 lh) D) :=
    apply_inv hstep h
  have hdone : Done sb new (apply ws D) := by
    rw [apply_append]
    refine Old.write_head (fun b hb' _ => ?_) hb (by omega)
    by_cases hm : b ∈ lh
    · exact apply_of_mem (fun w hm => (hw w hm).2) (by rw [map_fst_installWrites]; exact hm) D
    · exact hall.rest b hb' hm
  refine ⟨fun k => ?_, hdone⟩
  rcases apply_take_append (installWrites sb.logstart v 0 lh)
    [(sb.logstart, putHead hb [])] k D with ⟨j, hj⟩ | ⟨j, hj⟩
  · left
    rw [hj]
    exact apply_take_inv hstep j h
  · rw [hj]
    cases j with
    | zero => exact Or.inl hall
    | succ j =>
      right
      rw [List.take_succ_cons, List.take_nil, ← apply_append]
      exact hdone

end

/-! ## Commit and recovery -/

variable {sb : Superblock}

theorem Group.far {lh : Logheader} {m : Machine} (h : Group sb lh m) :
    ∀ b ∈ lh.block, b ≤ sb.logstart ∨ sb.logstart + 0 + lh.block.length < b := by
  intro b hb
  have := h.home b hb
  have := h.room
  unfold Superblock.Home at *
  omega

theorem Group.view_eq {lh : Logheader} {m : Machine} (h : Group sb lh m) {b : Nat}
    (hb : b ∉ lh.block) : m.view b = m.disk b := by
  unfold Machine.view
  cases hc : m.bcache b with
  | none => rfl
  | some buf =>
    cases hd : buf.dirty with
    | true => exact absurd (h.pinned b buf hc hd) hb
    | false => exact h.coherent b buf hc hd

theorem Group.committed {lh : Logheader} {m : Machine} (h : Group sb lh m)
    (hpos : 0 < lh.block.length) (hb : Block) :
    Committed sb lh.block m.view (Function.update
      (apply (logWrites sb.logstart m.view 0 lh.block) m.disk) sb.logstart
      (putHead hb lh.block)) := by
  have hn := h.room
  constructor
  · exact hpos
  · rw [Function.update_self, headOf_putHead]
  · intro i b hi
    have := apply_logWrites sb.logstart m.view lh.block 0 m.disk i b hi
    rw [Function.update_of_ne (by omega)]
    rwa [Nat.zero_add] at this
  · intro b hh hm
    rw [Function.update_of_ne (Home.ne_head hh (by omega)), apply_of_notMem, h.view_eq hm]
    intro hmem
    obtain ⟨w, hw, he⟩ := List.mem_map.1 hmem
    have := mem_logWrites hw
    have := Home.notMem_log (i := w.1 - sb.logstart - 1) hh (by omega)
    omega

theorem commit_emits {lh : Logheader} {m : Machine} (h : Group sb lh m)
    (hpos : 0 < lh.block.length) :
    ∃ v hb hb', DevEmits (commit sb.logstart lh.block) m.disk m.view ()
        (logWrites sb.logstart m.view 0 lh.block ++ ((sb.logstart, putHead hb lh.block) ::
          (installWrites sb.logstart v 0 lh.block ++ [(sb.logstart, putHead hb' [])]))) ∧
      ∀ i b, lh.block[i]? = some b → v (sb.logstart + i + 1) = m.view b := by
  let v₁ := apply (logWrites sb.logstart m.view 0 lh.block) m.view
  let v₂ := Function.update v₁ sb.logstart (putHead (v₁ sb.logstart) lh.block)
  let v₃ := apply (installWrites sb.logstart v₂ 0 lh.block) v₂
  refine ⟨v₂, v₁ sb.logstart, v₃ sb.logstart, ?_, ?_⟩
  · unfold commit
    rw [if_pos hpos]
    refine Emits.bind (writeLogFrom_emits _ _ _ h.far _ _) ?_
    refine Emits.bind (writeHead_emits _ _ _ _) ?_
    exact Emits.bind (installFrom_emits _ _ _ h.far _ _) (writeHead_emits _ _ _ _)
  · intro i b hi
    have := apply_logWrites sb.logstart m.view lh.block 0 m.view i b hi
    rw [Nat.zero_add] at this
    show Function.update v₁ sb.logstart _ (sb.logstart + i + 1) = _
    rw [Function.update_of_ne (by omega)]
    exact this

theorem commit_crash {lh : Logheader} {m m' : Machine} (h : Group sb lh m)
    (hr : (commit sb.logstart lh.block).Reach m m') :
    Old sb m.disk m'.disk ∨ Committed sb lh.block m.view m'.disk ∨ Done sb m.view m'.disk := by
  have hold : Old sb m.disk m.disk := ⟨h.idle, fun _ _ => rfl⟩
  by_cases hpos : 0 < lh.block.length
  · obtain ⟨v, hb, hb', he, hv⟩ := commit_emits h hpos
    obtain ⟨k, hk⟩ := he.crash m m' h.coherent rfl rfl hr
    have hn := h.room
    have hlog : ∀ w ∈ logWrites sb.logstart m.view 0 lh.block, ∀ d, Old sb m.disk d →
        Old sb m.disk (Function.update d w.1 w.2) := by
      intro w hw d hd
      have hm := mem_logWrites hw
      rw [show w.1 = sb.logstart + (w.1 - sb.logstart - 1) + 1 by omega]
      exact hd.write_log (by omega) w.2
    rcases apply_take_append _ _ k m.disk with ⟨j, hj⟩ | ⟨j, hj⟩
    · left
      rw [hk, hj]
      exact apply_take_inv hlog j hold
    · rw [hk, hj]
      cases j with
      | zero => exact Or.inl (apply_inv hlog hold)
      | succ j =>
        right
        rw [List.take_succ_cons, apply_cons]
        exact ((h.committed hpos hb).install hn h.home hv hb').1 j
  · -- nothing was logged: `commit` does nothing
    unfold commit at hr
    rw [if_neg hpos] at hr
    rw [Prog.reach_pure.1 hr]
    exact Or.inl hold

theorem recover_emits {D : Nat → Block} {lh : List Nat} (hhead : headOf (D sb.logstart) = lh)
    (hfar : ∀ b ∈ lh, b ≤ sb.logstart ∨ sb.logstart + 0 + lh.length < b) :
    ∃ hb, DevEmits (recoverFromLog sb.logstart) D D ()
      (installWrites sb.logstart D 0 lh ++ [(sb.logstart, putHead hb [])]) := by
  have hread : DevEmits (readHead sb.logstart) D D lh [] := by
    have := Emits.bind (g := fun buf => (pure (headOf buf) : Dev (List Nat)))
      (bread_emits sb.logstart D D) (Emits.pure (headOf (D sb.logstart)))
    rw [hhead] at this
    exact this
  have hinst : DevEmits (do installTrans sb.logstart lh; writeHead sb.logstart []) D D () _ :=
    Emits.bind (installFrom_emits _ _ _ hfar _ _) (writeHead_emits _ _ _ _)
  have hall := Emits.bind
    (g := fun l => (do installTrans sb.logstart l; writeHead sb.logstart [] : Dev Unit)) hread hinst
  exact ⟨_, hall⟩

theorem recover_old {D old : Nat → Block} (h : Old sb old D) (hn : 0 < sb.nlog) :
    ∃ ws, DevEmits (recoverFromLog sb.logstart) D D () ws ∧
      (∀ k, Old sb old (apply (ws.take k) D)) ∧ Old sb old (apply ws D) := by
  obtain ⟨hb, he⟩ := recover_emits (headOf_of_zero h.1) (by simp)
  have hdone : Old sb old (Function.update D sb.logstart (putHead hb [])) :=
    Old.write_head (fun b hb _ => h.2 b hb) hb hn
  refine ⟨_, he, fun k => ?_, hdone⟩
  cases k with
  | zero => exact h
  | succ k => simpa [installWrites] using hdone

theorem recover_committed {D new : Nat → Block} {lh : List Nat} (h : Committed sb lh new D)
    (hn : lh.length < sb.nlog) (hhome : ∀ b ∈ lh, sb.Home b) :
    ∃ ws, DevEmits (recoverFromLog sb.logstart) D D () ws ∧
      (∀ k, Committed sb lh new (apply (ws.take k) D) ∨ Done sb new (apply (ws.take k) D)) ∧
      Done sb new (apply ws D) := by
  have hfar : ∀ b ∈ lh, b ≤ sb.logstart ∨ sb.logstart + 0 + lh.length < b := by
    intro b hb
    have := hhome b hb
    unfold Superblock.Home at this
    omega
  obtain ⟨hb, he⟩ := recover_emits h.head hfar
  exact ⟨_, he, h.install hn hhome h.log hb⟩

/-- `Recovers start d d'`: the kernel boots on disk `d`, crashes any number of times inside
`recoverFromLog`, and `d'` is the disk after the first recovery that completes. -/
inductive Recovers (start : Nat) : (Nat → Block) → (Nat → Block) → Prop where
  | done {d : Nat → Block} {r : Nat → Nat → Bool} {m : Machine}
      (h : (recoverFromLog start).run (boot d r) = .ok () m) : Recovers start d m.disk
  | crash {d d' : Nat → Block} {r : Nat → Nat → Bool} {m : Machine}
      (h : (recoverFromLog start).Reach (boot d r) m) (hr : Recovers start m.disk d') :
      Recovers start d d'

/-- What a recovery does, read off the writes it sends. -/
theorem recovers_of_emits {D : Nat → Block} {ws : List (Nat × Block)} {start : Nat}
    (he : DevEmits (recoverFromLog start) D D () ws) (r : Nat → Nat → Bool) :
    (∃ m, (recoverFromLog start).run (boot D r) = .ok () m ∧ m.disk = apply ws D) ∧
      ∀ m, (recoverFromLog start).Reach (boot D r) m → ∃ k, m.disk = apply (ws.take k) D := by
  constructor
  · obtain ⟨m, hr, _, hd, _⟩ := he.ret (boot D r) (Machine.coherent_boot D r) rfl
      (Machine.view_boot D r)
    exact ⟨m, hr, hd⟩
  · intro m hr
    exact he.crash (boot D r) m (Machine.coherent_boot D r) rfl (Machine.view_boot D r) hr

/-- A phase that every cut of a recovery keeps, and that a complete recovery ends in `Q`. -/
theorem Recovers.induct {start : Nat} {P Q : (Nat → Block) → Prop}
    (h : ∀ D, P D → ∃ ws, DevEmits (recoverFromLog start) D D () ws ∧
      (∀ k, P (apply (ws.take k) D)) ∧ Q (apply ws D))
    {D D' : Nat → Block} (hr : Recovers start D D') (hD : P D) : Q D' := by
  induction hr with
  | @done d r m hrun =>
    obtain ⟨ws, he, _, hq⟩ := h d hD
    obtain ⟨⟨m', hrun', hd⟩, _⟩ := recovers_of_emits he r
    rw [hrun] at hrun'
    cases hrun'
    rw [hd]
    exact hq
  | @crash d d' r m hreach _ ih =>
    obtain ⟨ws, he, hp, _⟩ := h d hD
    obtain ⟨k, hk⟩ := (recovers_of_emits he r).2 m hreach
    exact ih (by rw [hk]; exact hp k)

/-- Every phase a crash leaves, as one predicate. -/
def Phase (sb : Superblock) (lh : Logheader) (m : Machine) (D : Nat → Block) : Prop :=
  Old sb m.disk D ∨ Committed sb lh.block m.view D ∨ Done sb m.view D

/-- A recovery keeps the phases, cut anywhere; one that completes is past `Committed`. -/
theorem recover_phase {lh : Logheader} {m : Machine} (h : Group sb lh m) {D : Nat → Block}
    (hD : Phase sb lh m D) :
    ∃ ws, DevEmits (recoverFromLog sb.logstart) D D () ws ∧
      (∀ k, Phase sb lh m (apply (ws.take k) D)) ∧
      (Old sb m.disk (apply ws D) ∨ Done sb m.view (apply ws D)) := by
  have hn := h.room
  rcases hD with hD | hD | hD
  · obtain ⟨ws, he, hk, hq⟩ := recover_old hD (by omega)
    exact ⟨ws, he, fun k => Or.inl (hk k), Or.inl hq⟩
  · obtain ⟨ws, he, hk, hq⟩ := recover_committed hD hn h.home
    exact ⟨ws, he, fun k => Or.inr (hk k), Or.inr hq⟩
  · obtain ⟨ws, he, hk, hq⟩ := recover_old hD (by omega)
    exact ⟨ws, he, fun k => Or.inr (Or.inr (hk k)), Or.inr hq⟩

/-- **Crash atomicity.**  A group of operations is committed; the machine crashes anywhere in
`commit`, and any number of times in recovery.  A recovery can complete, and after any one that
does, either every home block holds what it held before the group or every home block holds what
the group made it; the count in the header on disk is `0`. -/
theorem commit_crash_atomic {lh : Logheader} {m m' : Machine} (h : Group sb lh m)
    (hc : (commit sb.logstart lh.block).Reach m m') :
    (∃ d', Recovers sb.logstart m'.disk d') ∧
    ∀ d', Recovers sb.logstart m'.disk d' →
      ((∀ b, sb.Home b → d' b = m.disk b) ∨ (∀ b, sb.Home b → d' b = m.view b)) ∧
      (d' sb.logstart).word 0 = 0 := by
  have hphase : Phase sb lh m m'.disk := commit_crash h hc
  constructor
  · obtain ⟨ws, he, _, _⟩ := recover_phase h hphase
    obtain ⟨⟨m₂, hrun, _⟩, _⟩ := recovers_of_emits he fun _ _ => false
    exact ⟨_, Recovers.done hrun⟩
  · intro d' hr
    have hend := Recovers.induct (P := Phase sb lh m)
      (Q := fun D => Old sb m.disk D ∨ Done sb m.view D) (fun D hD => recover_phase h hD) hr hphase
    rcases hend with hend | hend
    · exact ⟨Or.inl hend.2, hend.1⟩
    · exact ⟨Or.inr hend.2, hend.1⟩

/-- Two dirty buffers, for the blocks 100 and 101, on an empty disk. -/
def twoDirty : Machine where
  disk := fun _ => Blk.zero
  bcache := fun b => if b = 100 ∨ b = 101 then some ⟨Blk.ofFn fun _ => 1, true⟩ else none
  recycle := fun _ _ => false
  calls := 0

def twoBlocks : Logheader where
  block := [100, 101]
  n_le := by decide
  lt := by decide

theorem twoDirty_group : Group mkfsSb twoBlocks twoDirty := by
  constructor
  · intro b buf hb hd
    simp only [twoDirty] at hb
    split at hb <;> cases hb
    cases hd
  · intro b buf hb _
    simp only [twoDirty] at hb
    split at hb
    · next h => simpa [twoBlocks] using h
    · cases hb
  · intro b hb
    simp only [twoBlocks, List.mem_cons, List.not_mem_nil, or_false] at hb
    rcases hb with rfl | rfl
    · exact Or.inr (by decide)
    · exact Or.inr (by decide)
  · decide
  · rfl

/-- The power fails in `install_trans`: the first block of the group is home, the second is not. -/
theorem commit_crash_atomic_in_install :
    ∃ m', (commit mkfsSb.logstart twoBlocks.block).Reach twoDirty m' ∧
      headOf (m'.disk mkfsSb.logstart) = [100, 101] ∧
      m'.disk 100 = twoDirty.view 100 ∧ m'.disk 101 = twoDirty.disk 101 ∧
      (∃ d', Recovers mkfsSb.logstart m'.disk d') ∧
      ∀ d', Recovers mkfsSb.logstart m'.disk d' →
        ((∀ b, mkfsSb.Home b → d' b = twoDirty.disk b) ∨
          (∀ b, mkfsSb.Home b → d' b = twoDirty.view b)) ∧
        (d' mkfsSb.logstart).word 0 = 0 := by
  obtain ⟨m₁, hr₁, hc₁, hd₁, hv₁⟩ := (writeLogFrom_emits mkfsSb.logstart twoBlocks.block 0
    twoDirty_group.far twoDirty.disk twoDirty.view).ret twoDirty twoDirty_group.coherent rfl rfl
  obtain ⟨m₂, hr₂, hc₂, hd₂, hv₂⟩ :=
    (writeHead_emits mkfsSb.logstart twoBlocks.block _ _).ret m₁ hc₁ hd₁ hv₁
  -- the first round of `install_trans`
  obtain ⟨m₃, hr₃, hc₃, hd₃, hv₃⟩ :=
    (bread_emits (mkfsSb.logstart + 0 + 1) _ _).ret m₂ hc₂ hd₂ hv₂
  obtain ⟨m₄, hr₄, hc₄, hd₄, hv₄⟩ := (bread_emits 100 _ _).ret m₃ hc₃ hd₃ hv₃
  obtain ⟨m₅, hr₅, -, hd₅, -⟩ := (bwrite_emits 100 _ _ _).ret m₄ hc₄ hd₄ hv₄
  have hreach : (commit mkfsSb.logstart twoBlocks.block).Reach twoDirty m₅ := by
    refine (Prog.reach_bind _ _ _ _).2 (Or.inr ⟨(), m₁, hr₁, ?_⟩)
    refine (Prog.reach_bind _ _ _ _).2 (Or.inr ⟨(), m₂, hr₂, ?_⟩)
    refine (Prog.reach_bind _ _ _ _).2 (Or.inl ?_)
    refine (Prog.reach_bind _ _ _ _).2 (Or.inr ⟨_, m₃, hr₃, ?_⟩)
    refine (Prog.reach_bind _ _ _ _).2 (Or.inr ⟨_, m₄, hr₄, ?_⟩)
    exact (Prog.reach_bind _ _ _ _).2 (Or.inr ⟨(), m₅, hr₅, Prog.reach_refl _ _⟩)
  refine ⟨m₅, hreach, ?_, ?_, ?_, commit_crash_atomic twoDirty_group hreach⟩
  · rw [hd₅]
    exact headOf_putHead _ twoBlocks
  · rw [hd₅]
    rfl
  · rw [hd₅]
    rfl

end Xv6
