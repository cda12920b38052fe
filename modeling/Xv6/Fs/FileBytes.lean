import Xv6.Fs.ChunkLog

/-!
# A file refines an array of bytes

`content` is a file as the caller of `readi` and `writei` sees it.  In a state that
is in order, `readi` returns a slice of the content and `writei` replaces one, with
the limits of the source: offsets beyond the end, sums that wrap, `MAXFILE` blocks.
`writei` also needs what the source leaves to its callers: an open transaction with
room in the log for the blocks that it logs.
-/

namespace Xv6.Fs

open Bytes Conc Prog

variable {sb : Superblock} {me : Pid} {s s' : Kernel} {i : Slot}

/-- A file as a list of bytes. -/
def content (sb : Superblock) (s : Kernel) (inum : Nat) : List Byte :=
  (List.range (dinodeAt sb s inum).size.toNat).map (fileByte (files sb s inum))

@[simp] theorem length_content (inum : Nat) :
    (content sb s inum).length = (dinodeAt sb s inum).size.toNat := by
  simp [content]

theorem readSpec_eq_slice {inum off n : Nat} (hoff : off ≤ (content sb s inum).length)
    (hn : off + n < 2 ^ 32) :
    readSpec (files sb s inum) (content sb s inum).length off n =
      some (((content sb s inum).drop off).take n) := by
  rw [length_content] at *
  exact readSpec_slice hoff hn

theorem readSpec_eq_none {f : Nat → Block} {size off n : Nat} (hn : n < 2 ^ 32)
    (h : size < off ∨ 2 ^ 32 ≤ off + n) : readSpec f size off n = none := by
  unfold readSpec
  exact if_pos (by omega)

theorem Wrote.content_self {off n : Nat} {src : Nat → Byte} (h : FsOk sb none s) (hi : Loaded s i)
    (hw : Wrote sb i off n src s s') (hfit : Fits (s.icache i).d.size.toNat off n) :
    content sb s' (s.icache i).inum = (content sb s (s.icache i).inum).take off ++
      (List.range n).map src ++ (content sb s (s.icache i).inum).drop (off + n) := by
  obtain ⟨hoff, h32, _⟩ := hfit
  have hold : (dinodeAt sb s (s.icache i).inum).size = (s.icache i).d.size := by
    rw [← h.coherent i (by simp) hi.1 hi.2]
  have hinum : (s'.icache i).inum = (s.icache i).inum := by
    obtain ⟨d, blk, l, rfl⟩ := hw.frame
    exact withD_inum d i
  have hi' : Loaded s' i := by
    obtain ⟨d, blk, l, rfl⟩ := hw.frame
    exact ⟨(withD_ref d i).symm ▸ hi.1, (withD_valid d i).symm ▸ hi.2⟩
  have hnew : (dinodeAt sb s' (s.icache i).inum).size.toNat =
      max (s.icache i).d.size.toNat (off + n) := by
    have hlt := (s.icache i).d.size.isLt
    rw [← hinum, ← hw.ok.coherent i (by simp) hi'.1 hi'.2, hw.fields]
    exact Nat.mod_eq_of_lt (by omega)
  apply List.ext_getElem
  · simp only [length_content, List.length_append, List.length_take, List.length_map,
      List.length_range, List.length_drop, hnew, hold]
    omega
  · intro k h1 h2
    rw [length_content, hnew] at h1
    have hbyte : fileByte (files sb s' (s.icache i).inum) k =
        if off ≤ k ∧ k < off + n then src (k - off)
        else fileByte (files sb s (s.icache i).inum) k := by
      rw [hw.data, fileByte_patch]
    have hlen : ((content sb s (s.icache i).inum).take off).length = off := by
      rw [List.length_take, length_content, hold]
      omega
    have hget : ∀ m (hm : m < (content sb s (s.icache i).inum).length),
        (content sb s (s.icache i).inum)[m] = fileByte (files sb s (s.icache i).inum) m := by
      intro m hm
      simp [content]
    have hget' : ∀ m (hm : m < (content sb s' (s.icache i).inum).length),
        (content sb s' (s.icache i).inum)[m] = fileByte (files sb s' (s.icache i).inum) m := by
      intro m hm
      simp [content]
    rw [hget', hbyte]
    by_cases hlo : k < off
    · rw [if_neg (by omega), List.getElem_append_left (by simp [hold]; omega),
        List.getElem_append_left (by omega), List.getElem_take, hget]
    · by_cases hmid : k < off + n
      · rw [if_pos ⟨by omega, hmid⟩, List.getElem_append_left (by simp [hold]; omega),
          List.getElem_append_right (by omega)]
        simp [hlen]
      · have hlen2 : ((content sb s (s.icache i).inum).take off ++ (List.range n).map src).length =
            off + n := by
          rw [List.length_append, hlen, List.length_map, List.length_range]
        rw [if_neg (by omega), List.getElem_append_right (by omega), List.getElem_drop, hget]
        congr 1
        omega

/-- No other file changes. -/
theorem Wrote.content_ne {off n : Nat} {src : Nat → Byte} (hw : Wrote sb i off n src s s') {j : Nat}
    (hj : j ≠ (s.icache i).inum) : content sb s' j = content sb s j := by
  have hfile : files sb s' j = files sb s j := by
    funext k
    rw [hw.data, patch_ne hj]
  unfold content
  rw [hw.disk j hj, hfile]

/-- `readi` and `writei` on a file that is no device, for all 32-bit offsets and counts. -/
theorem content_refines (hwf : sb.WF) (h : FsOk sb none s) (hi : Loaded s i)
    (hdev : (s.icache i).d.type ≠ T_DEV) {off n : Nat} (hoff : off < 2 ^ 32) (hn : n < 2 ^ 32)
    (src : Nat → Byte) :
    -- `writei` where the range fits
    (Fits (content sb s (s.icache i).inum).length off n →
      Enough sb (touched off n) (s.icache i).inum s →
      ((∃ s', (writei sb me i src off n).run s = .ok n s' ∧ FsOk sb none s' ∧
        content sb s' (s.icache i).inum = (content sb s (s.icache i).inum).take off ++
          (List.range n).map src ++ (content sb s (s.icache i).inum).drop (off + n) ∧
        ∀ j, j ≠ (s.icache i).inum → content sb s' j = content sb s j) ↔
      HasRoom s.log (blocksLogged (writei sb me i src off n) s))) ∧
    -- and where it does not
    (¬ Fits (content sb s (s.icache i).inum).length off n →
      (writei sb me i src off n).run s = .ok (-1) s) ∧
    -- `readi`
    ((content sb s (s.icache i).inum).length < off ∨ 2 ^ 32 ≤ off + n →
      (readi sb me i off n).run s = .ok none s) ∧
    (off ≤ (content sb s (s.icache i).inum).length → off + n < 2 ^ 32 →
      (readi sb me i off n).run s =
        .ok (some (((content sb s (s.icache i).inum).drop off).take n)) s) := by
  have hsize : (content sb s (s.icache i).inum).length = (s.icache i).d.size.toNat := by
    rw [length_content, ← h.coherent i (by simp) hi.1 hi.2]
  refine ⟨fun hfit hfree => ?_, fun hbad => ?_, fun hbad => ?_, fun h1 h2 => ?_⟩
  · rw [hsize] at hfit
    have hiff := writei_iff me src hwf h hi hdev hoff hn hfit hfree
    constructor
    · rintro ⟨s', hrun, -⟩
      exact (Listed.writei src off n).room s n s' hrun
    · intro hroom
      obtain ⟨s', hrun, hw⟩ := hiff.2 hroom
      exact ⟨s', hrun, hw.ok, hw.content_self h hi hfit, fun j hj => hw.content_ne hj⟩
  · rw [hsize] at hbad
    have hafford : Fits (s.icache i).d.size.toNat off n →
        Afford (fun _ => False) sb (touched off n) i s := fun hfit => absurd hfit hbad
    have hwp : wp (fun _ => False) (writei sb me i src off n) (fun r s' => r = -1 ∧ s' = s) s :=
      wp_writei hwf h hi hdev hoff hn subset_rfl hafford (fun _ => ⟨rfl, rfl⟩)
        fun hfit => absurd hfit hbad
    obtain ⟨r, s', hrun, hr, hs⟩ := wp_returns hwp
    rw [hrun, hr, hs]
  · have hwp : wp (fun _ => False) (readi sb me i off n) (fun r s' => r = none ∧ s' = s) s :=
      wp_readi h hi hdev ⟨readSpec_eq_none hn (by rwa [hsize] at hbad), rfl⟩
    obtain ⟨r, s', hrun, hr, hs⟩ := wp_returns hwp
    rw [hrun, hr, hs]
  · have hwp : wp (fun _ => False) (readi sb me i off n) (fun r s' =>
        r = some (((content sb s (s.icache i).inum).drop off).take n) ∧ s' = s) s :=
      wp_readi h hi hdev ⟨by rw [← hsize]; exact readSpec_eq_slice h1 h2, rfl⟩
    obtain ⟨r, s', hrun, hr, hs⟩ := wp_returns hwp
    rw [hrun, hr, hs]

theorem fileReady_content : ∃ s, fileReady = .ok () s ∧ FsOk mkfsSb none s ∧ Loaded s 1 ∧
    (s.icache 1).d.type ≠ T_DEV ∧ (s.icache 1).inum = 2 ∧ content mkfsSb s 2 = [] ∧
    (∀ {off n : Nat}, (touched off n).card ≤ 40 → Enough mkfsSb (touched off n) 2 s) ∧
    s.log.outstanding = 1 ∧ s.log.lh = [] ∧ s.log.size = LOGSIZE := by
  obtain ⟨s, hs, hok, hi, hdev, hin, hsz, hfree, hlog⟩ := fileReady_facts
  refine ⟨s, hs, hok, hi, hdev, hin, ?_, fun hcard => ?_, hlog⟩
  · unfold content
    rw [hsz]
    rfl
  · exact ((Finset.card_filter_le _ _).trans hcard).trans hfree

theorem content_refines_three : ∃ s s', fileReady = .ok () s ∧ content mkfsSb s 2 = [] ∧
    (writei mkfsSb initproc 1 (fun k => BitVec.ofNat 8 k) 0 3).run s = .ok 3 s' ∧
    content mkfsSb s' 2 = [0, 1, 2] := by
  obtain ⟨s, hs, hok, hi, hdev, hin, hc, hfree, ho, hlh, hls⟩ := fileReady_content
  have hroom : HasRoom s.log
      (blocksLogged (writei mkfsSb initproc 1 (fun k => BitVec.ofNat 8 k) 0 3) s) := by
    have hcard := (card_writei initproc mkfsSb_wf hok hi 0 3 fun k => BitVec.ofNat 8 k).trans
      (writeCost_chunk hok hi (Nat.zero_le _) (by decide))
    simp only [MAXOPBLOCKS, LOGSIZE] at hcard hls
    refine .of_card (by omega) ?_ ?_
    · rw [hlh]
      show 0 + _ < 30
      omega
    · rw [hlh, List.length_nil, hls]
      omega
  have hfit : Fits (content mkfsSb s (s.icache 1).inum).length 0 3 := by
    rw [hin, hc]
    exact ⟨by decide, by decide, by decide⟩
  obtain ⟨s', hrun, -, hcont, -⟩ := ((content_refines mkfsSb_wf hok hi hdev
    (show 0 < 2 ^ 32 by decide) (show 3 < 2 ^ 32 by decide) _).1 hfit
      (hin ▸ hfree (by decide))).2 hroom
  rw [hin, hc] at hcont
  exact ⟨s, s', hs, hc, hrun, hcont⟩

/-- A write of 30 blocks to the empty file, with the blocks free: the log has no room for them, and
the kernel stops. -/
theorem big_write_panics : ∃ s, fileReady = .ok () s ∧ FsOk mkfsSb none s ∧ Loaded s 1 ∧
    (s.icache 1).d.type ≠ T_DEV ∧
    Fits (content mkfsSb s (s.icache 1).inum).length 0 (30 * BSIZE) ∧
    Enough mkfsSb (touched 0 (30 * BSIZE)) (s.icache 1).inum s ∧
    (writei mkfsSb initproc 1 (fun _ => 0) 0 (30 * BSIZE)).run s = .panic .tooBigTransaction := by
  have hpanic : ((fileReady.bind fun _ s =>
      (writei mkfsSb initproc 1 (fun _ => 0) 0 (30 * BSIZE)).run s).bind fun _ _ =>
      (.ok () () : Res Panic Unit Unit)) = .panic .tooBigTransaction := by decide +kernel
  obtain ⟨s, hs, hok, hi, hdev, hin, hc, hfree, _⟩ := fileReady_content
  refine ⟨s, hs, hok, hi, hdev, ?_, hin ▸ hfree (by decide), ?_⟩
  · rw [hin, hc]
    exact ⟨by decide, by decide, by decide⟩
  · rw [hs, Res.bind_ok] at hpanic
    rcases Res.bind_eq_panic.1 hpanic with h | ⟨_, _, _, h⟩
    · exact h
    · cases h

end Xv6.Fs
