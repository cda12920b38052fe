import Xv6.Ide.Driver

/-!
# The interrupt-driven driver does what the memory disk does

`transfer` is a request done at once, on either drive; `memIderw` is that on disk 1.  The requests that
`ideintr` completed, replayed one after the other with `transfer`, give the buffers
and the disk of the driver, as long as the disk reports no error: an error is
reported to nobody (`ideintr` marks the buffer `B_VALID` all the same).

`Inv` holds with and without errors: every request is completed once, in the order of the
queue, and the disk works on its head.
-/

namespace Xv6

open Bytes Conc

namespace Ide

variable {B P : Type}

/-- A request done at once. -/
def transfer (x : Buf) (d : Disk) : Buf × Disk :=
  if x.dirty then
    ({ x with dirty := false, valid := true }, d.set (x.dev % 2) x.blockno x.data)
  else ({ x with data := d (x.dev % 2) x.blockno, valid := true }, d)

theorem memIderw_eq {x : Buf} {d : Disk} {disksize : Nat} (hdone : x.done = false) (hdev : x.dev = 1)
    (hblock : x.blockno < disksize) :
    memIderw disksize true x (d 1) = .ok (transfer x d).1 ((transfer x d).2 1) := by
  unfold memIderw transfer
  rw [if_neg (by simp), if_neg (by simp [hdone]), if_neg (not_not.2 hdev), if_neg (by omega)]
  split
  · simp [Disk.set, hdev]
  · simp [hdev]

/-- The disk after some requests, done one after the other. -/
def replay (d : Disk) (ops : List (Req B × Buf)) : Disk :=
  ops.foldl (fun d o => (transfer o.1.x d).2) d

theorem replay_append (d : Disk) (ops : List (Req B × Buf)) (o : Req B × Buf) :
    replay d (ops ++ [o]) = (transfer o.1.x (replay d ops)).2 := by
  simp [replay]

theorem lba_of_lt {n : Nat} (h : n < FSSIZE) : lba (n * (BSIZE / SECTOR_SIZE)) = n := by
  have hs : BSIZE / SECTOR_SIZE = 1 := rfl
  rw [hs, Nat.mul_one]
  unfold lba
  simp only [FSSIZE] at h
  omega

/-- The disk is at work on the command, or has just served it. -/
def Drive.WorksOn (d : Drive) (c : Cmd) : Prop := d = .busy c ∨ ∃ err sector, d = .served c err sector

/-- The process is in `iderw(b)`. -/
def IdeLoc.InCall (b : B) : IdeLoc B → Prop
  | .start b' _ _ => b' = b
  | .wait b' _ => b' = b
  | _ => False

/-! ## The queue -/

structure Inv (d : Driver B) (loc : P → IdeLoc B) : Prop where
  nodup : d.queue.Nodup
  uniq : ∀ p q b, (loc p).InCall b → (loc q).InCall b → p = q
  waiter : ∀ b ∈ d.queue, ∃ q id, loc q = .wait b id
  reqs : d.queued = d.ops.map Prod.fst ++ d.queue.map fun b => ⟨b, d.buf b⟩
  pending : ∀ b ∈ d.queue, (d.buf b).done = false
  /-- who waits has its request in the queue, or it is completed -/
  number : ∀ q b id, loc q = .wait b id → (∃ i, d.queue[i]? = some b ∧ id = d.ops.length + i) ∨
    ((d.buf b).done = true ∧ ∃ r, d.ops[id]? = some (r, d.buf b) ∧ r.b = b)
  ret : ∀ q b id y, loc q = .ret b id y → y.done = true ∧ ∃ r, d.ops[id]? = some (r, y) ∧ r.b = b
  idle : d.queue = [] → d.drive = .idle
  works : ∀ b, d.queue.head? = some b → d.drive.WorksOn (d.buf b).cmd ∧ (d.buf b).blockno < FSSIZE

/-- Calls of `iderw` are on distinct buffers: each is locked by its caller. -/
def OnLocked (s : Sys P B) (a : Act P (IdeLoc B)) : Prop :=
  ∀ p b held x, a = .call p (.start b held x) → ∀ q, ¬ (s.loc q).InCall b

variable [DecidableEq P] {d d' : Driver B} {loc : P → IdeLoc B} {p : P} {b : B}

theorem loc_of_update {l l' : IdeLoc B} {q : P} (h : Function.update loc p l q = l') (hne : l ≠ l') :
    q ≠ p ∧ loc q = l' := by
  by_cases hqp : q = p
  · rw [hqp, Function.update_self] at h
    exact absurd h hne
  · rw [Function.update_of_ne hqp] at h
    exact ⟨hqp, h⟩

/-- Two processes in `iderw` are on different buffers, after one moved to a buffer that no other has. -/
theorem uniq_update {l : IdeLoc B} (h : ∀ p q b, (loc p).InCall b → (loc q).InCall b → p = q)
    (hl : ∀ b, l.InCall b → ∀ q, q ≠ p → ¬ (loc q).InCall b) (q q' : P) (b : B)
    (hq : (Function.update loc p l q).InCall b) (hq' : (Function.update loc p l q').InCall b) :
    q = q' := by
  by_cases hqp : q = p
  · by_cases hqp' : q' = p
    · rw [hqp, hqp']
    · rw [hqp, Function.update_self] at hq
      rw [Function.update_of_ne hqp'] at hq'
      exact absurd hq' (hl b hq q' hqp')
  · rw [Function.update_of_ne hqp] at hq
    by_cases hqp' : q' = p
    · rw [hqp', Function.update_self] at hq'
      exact absurd hq (hl b hq' q hqp)
    · rw [Function.update_of_ne hqp'] at hq'
      exact h q q' b hq hq'

/-- A process that does not wait goes elsewhere: out of `iderw`, or to a buffer that no other has. -/
theorem Inv.goto (h : Inv d loc) {l : IdeLoc B} (hfrom : ∀ b id, loc p ≠ .wait b id)
    (huniq : ∀ b, l.InCall b → ∀ q, q ≠ p → ¬ (loc q).InCall b)
    (hl : (∀ b id, l ≠ .wait b id) ∧ ∀ b id y, l ≠ .ret b id y) :
    Inv d (Function.update loc p l) := by
  refine ⟨h.nodup, uniq_update h.uniq huniq, fun b hb => ?_, h.reqs, h.pending,
    fun q b id hq => h.number q b id (loc_of_update hq (hl.1 b id)).2,
    fun q b id y hq => h.ret q b id y (loc_of_update hq (hl.2 b id y)).2, h.idle, h.works⟩
  obtain ⟨q, id, hq⟩ := h.waiter b hb
  refine ⟨q, id, ?_⟩
  have hqp : q ≠ p := by
    rintro rfl
    exact hfrom b id hq
  rw [Function.update_of_ne hqp]
  exact hq

theorem Inv.wait (h : Inv d loc) {id : Nat} (hp : loc p = .wait b id) :
    Inv d (Function.update loc p (d.waitLoop b id).next) := by
  unfold Driver.waitLoop
  split
  · next hdone =>
    have hnot : b ∉ d.queue := by
      intro hb
      rw [h.pending b hb] at hdone
      cases hdone
    have hself : ∀ b' id', loc p = .wait b' id' → b' = b := by
      intro b' id' hq
      rw [hp] at hq
      cases hq
      rfl
    refine ⟨h.nodup, uniq_update h.uniq fun _ => nofun, fun b' hb' => ?_, h.reqs, h.pending,
      fun q b' id' hq => h.number q b' id' (loc_of_update hq nofun).2, fun q b' id' y hq => ?_, h.idle,
      h.works⟩
    · obtain ⟨q, id', hq⟩ := h.waiter b' hb'
      refine ⟨q, id', ?_⟩
      have hqp : q ≠ p := by
        rintro rfl
        rw [hself b' id' hq] at hb'
        exact hnot hb'
      rw [Function.update_of_ne hqp]
      exact hq
    · by_cases hqp : q = p
      · rw [hqp, Function.update_self] at hq
        cases hq
        rcases h.number p b id hp with ⟨i, hi, -⟩ | hdone
        · exact absurd (List.mem_of_getElem? hi) hnot
        · exact hdone
      · rw [Function.update_of_ne hqp] at hq
        exact h.ret q b' id' y hq
  · rw [show Function.update loc p (.wait b id) = loc by rw [← hp, Function.update_eq_self]]
    exact h

/-- A started disk is busy with the buffer's command. -/
theorem idestart_ok (h : d.idestart b = .ok () d') :
    (d.buf b).blockno < FSSIZE ∧ d' = { d with drive := .busy (d.buf b).cmd } := by
  unfold Driver.idestart at h
  split at h
  · cases h
  · next hb =>
    split at h <;> cases h
    exact ⟨by omega, rfl⟩

variable [DecidableEq B]

theorem iderw_ok {held : Bool} {x : Buf} {t : Turn B (IdeLoc B)} (hb : b ∉ d.queue)
    (h : d.iderw b held x = .ok t d') :
    x.done = false ∧ t.next = .wait b d.queued.length ∧ ∃ dr, d' = { d with
        buf := Function.update d.buf b x
        queue := d.queue ++ [b]
        queued := d.queued ++ [⟨b, x⟩]
        drive := dr } ∧
      ((d.queue = [] ∧ dr = .busy x.cmd ∧ x.blockno < FSSIZE) ∨ (d.queue ≠ [] ∧ dr = d.drive)) := by
  unfold Driver.iderw at h
  split at h
  · cases h
  split at h
  · cases h
  next hdone =>
  split at h
  · cases h
  obtain ⟨_, d₁, hd₁, h⟩ := Res.bind_eq_ok.1 h
  have hx : x.done = false := by simpa using hdone
  have hwait : ∀ {d₂ : Driver B}, d₂.buf b = x →
      d₂.waitLoop b d.queued.length = ⟨[], some b, .wait b d.queued.length⟩ := by
    intro d₂ hbuf
    unfold Driver.waitLoop
    rw [hbuf, if_neg hdone]
  cases hq : d.queue with
  | nil =>
    rw [if_pos (by simp [hq])] at hd₁
    obtain ⟨hlt, rfl⟩ := idestart_ok hd₁
    cases h
    dsimp only at hlt ⊢
    rw [Function.update_self] at hlt ⊢
    exact ⟨hx, by rw [hwait (Function.update_self ..)], _, by rw [hq], Or.inl ⟨rfl, rfl, hlt⟩⟩
  | cons c rest =>
    have hne : c ≠ b := by
      rintro rfl
      exact hb (by rw [hq]; exact List.mem_cons_self)
    rw [if_neg (by simp [hq, hne])] at hd₁
    cases hd₁
    cases h
    exact ⟨hx, by rw [hwait (Function.update_self ..)], d.drive, by rw [hq], Or.inr ⟨nofun, rfl⟩⟩

omit [DecidableEq P] [DecidableEq B] in
theorem Inv.not_queued (h : Inv d loc) {held : Bool} {x : Buf} (hp : loc p = .start b held x) :
    b ∉ d.queue := by
  intro hb
  obtain ⟨q, id, hq⟩ := h.waiter b hb
  have hpq := h.uniq p q b (by rw [hp]; rfl) (by rw [hq]; rfl)
  rw [← hpq, hp] at hq
  cases hq

theorem Inv.start (h : Inv d loc) {held : Bool} {x : Buf} {t : Turn B (IdeLoc B)}
    (hp : loc p = .start b held x) (hst : d.iderw b held x = .ok t d') :
    Inv d' (Function.update loc p t.next) := by
  have hb := h.not_queued hp
  obtain ⟨hx, hnext, dr, rfl, hdr⟩ := iderw_ok hb hst
  have hne : ∀ b' ∈ d.queue, b' ≠ b := fun b' hb' hbb => hb (hbb ▸ hb')
  have hbuf : ∀ b' ∈ d.queue, Function.update d.buf b x b' = d.buf b' :=
    fun b' hb' => Function.update_of_ne (hne b' hb') _ _
  have hwait : ∀ {q b' id}, loc q = .wait b' id → b' ≠ b := by
    rintro q b' id hq rfl
    have hpq := h.uniq p q b' (by rw [hp]; rfl) (by rw [hq]; rfl)
    rw [← hpq, hp] at hq
    cases hq
  have hlen : d.queued.length = d.ops.length + d.queue.length := by
    rw [h.reqs, List.length_append, List.length_map, List.length_map]
  rw [hnext]
  refine ⟨?_, uniq_update h.uniq fun b' hb' q hq hq' => ?_, fun b' hb' => ?_, ?_, fun b' hb' => ?_,
    fun q b' id hq => ?_, fun q b' id y hq => h.ret q b' id y (loc_of_update hq nofun).2, ?_,
    fun b' hb' => ?_⟩
  · exact List.nodup_append.2 ⟨h.nodup, List.nodup_singleton b, fun a ha c hc hac => by
      rw [List.mem_singleton.1 hc] at hac
      exact hne a ha hac⟩
  · cases hb'
    exact hq (h.uniq q p b hq' (by rw [hp]; rfl))
  · rcases List.mem_append.1 hb' with hb' | hb'
    · obtain ⟨q, id, hq⟩ := h.waiter b' hb'
      refine ⟨q, id, ?_⟩
      have hqp : q ≠ p := by
        rintro rfl
        rw [hp] at hq
        cases hq
      rw [Function.update_of_ne hqp]
      exact hq
    · rw [List.mem_singleton.1 hb']
      exact ⟨p, _, Function.update_self ..⟩
  · show d.queued ++ [⟨b, x⟩] = d.ops.map Prod.fst ++
      (d.queue ++ [b]).map fun b' => ⟨b', Function.update d.buf b x b'⟩
    have hmap : d.queue.map (fun b' => (⟨b', Function.update d.buf b x b'⟩ : Req B)) =
        d.queue.map fun b' => ⟨b', d.buf b'⟩ :=
      List.map_congr_left fun b' hb' => by rw [hbuf b' hb']
    rw [List.map_append, hmap, List.map_singleton, Function.update_self, ← List.append_assoc, h.reqs]
  · rcases List.mem_append.1 hb' with hb' | hb'
    · show (Function.update d.buf b x b').done = false
      rw [hbuf b' hb']
      exact h.pending b' hb'
    · rw [List.mem_singleton.1 hb']
      show (Function.update d.buf b x b).done = false
      rw [Function.update_self]
      exact hx
  · by_cases hqp : q = p
    · rw [hqp, Function.update_self] at hq
      cases hq
      refine Or.inl ⟨d.queue.length, ?_, hlen⟩
      show (d.queue ++ [b])[d.queue.length]? = some b
      exact List.getElem?_concat_length
    · rw [Function.update_of_ne hqp] at hq
      have hbb : Function.update d.buf b x b' = d.buf b' := Function.update_of_ne (hwait hq) _ _
      refine (h.number q b' id hq).imp ?_ fun hdone => ?_
      · rintro ⟨i, hi, hid⟩
        refine ⟨i, ?_, hid⟩
        show (d.queue ++ [b])[i]? = some b'
        rw [List.getElem?_append_left (List.getElem?_eq_some_iff.1 hi).1]
        exact hi
      · dsimp only
        rw [hbb]
        exact hdone
  · intro hnil
    simp at hnil
  · change (d.queue ++ [b]).head? = some b' at hb'
    rcases hdr with ⟨hnil, hdr, hlt⟩ | ⟨hcons, hdr⟩
    · rw [hnil] at hb'
      cases hb'
      dsimp only
      rw [Function.update_self, hdr]
      exact ⟨Or.inl rfl, hlt⟩
    · obtain ⟨c, rest, hq⟩ := List.exists_cons_of_ne_nil hcons
      have hhead : d.queue.head? = some b' := by
        rw [hq] at hb' ⊢
        exact hb'
      dsimp only
      rw [hbuf b' (List.mem_of_head? hhead), hdr]
      exact h.works b' hhead

theorem ideintr_ok {t : Turn B (IdeLoc B)} (hidle : d.queue = [] → d.drive = .idle)
    (h : d.ideintr = .ok t d') :
    t.next = .idle ∧ ∃ c err sector b rest dr, d.drive = .served c err sector ∧ d.queue = b :: rest ∧
      d' = { d with
        queue := rest
        buf := Function.update d.buf b (Driver.finished err sector (d.buf b))
        drive := dr
        ops := d.ops ++ [(⟨b, d.buf b⟩, Driver.finished err sector (d.buf b))] } ∧
      ((rest = [] ∧ dr = .idle) ∨ ∃ b' rest', rest = b' :: rest' ∧
        dr = .busy (d'.buf b').cmd ∧ (d'.buf b').blockno < FSSIZE) := by
  unfold Driver.ideintr at h
  split at h
  · next c err sector hdrive =>
    split at h
    · next hnil =>
      rw [hidle hnil] at hdrive
      cases hdrive
    · next b rest hq =>
      obtain ⟨_, d₁, hd₁, h⟩ := Res.bind_eq_ok.1 h
      cases h
      refine ⟨rfl, c, err, sector, b, rest, d'.drive, hdrive, hq, ?_⟩
      cases rest with
      | nil =>
        cases hd₁
        exact ⟨rfl, Or.inl ⟨rfl, rfl⟩⟩
      | cons b' rest' =>
        obtain ⟨hlt, rfl⟩ := idestart_ok hd₁
        exact ⟨rfl, Or.inr ⟨b', rest', rfl, rfl, hlt⟩⟩
  · cases h

theorem finished_done (err : Bool) (sector : Block) (x : Buf) :
    (Driver.finished err sector x).done = true := by
  simp [Driver.finished, Buf.done]

theorem Inv.intr (h : Inv d loc) {t : Turn B (IdeLoc B)} (hp : loc p = .intr)
    (hst : d.ideintr = .ok t d') : Inv d' (Function.update loc p t.next) := by
  obtain ⟨hnext, c, err, sector, b, rest, dr, hdrive, hq, rfl, hdr⟩ := ideintr_ok h.idle hst
  have hnodup := h.nodup
  rw [hq] at hnodup
  obtain ⟨hb, hrest⟩ := List.nodup_cons.1 hnodup
  have hmem : ∀ b' ∈ rest, b' ∈ d.queue := fun b' hb' => by rw [hq]; exact List.mem_cons_of_mem b hb'
  have hbuf : ∀ b' ∈ rest, Function.update d.buf b (Driver.finished err sector (d.buf b)) b' = d.buf b' :=
    fun b' hb' => Function.update_of_ne (by rintro rfl; exact hb hb') _ _
  have hold : ∀ {id : Nat} {o}, d.ops[id]? = some o →
      (d.ops ++ [((⟨b, d.buf b⟩ : Req B), Driver.finished err sector (d.buf b))])[id]? = some o := by
    intro id o ho
    rw [List.getElem?_append_left (List.getElem?_eq_some_iff.1 ho).1]
    exact ho
  have hmain : Inv { d with
      queue := rest
      buf := Function.update d.buf b (Driver.finished err sector (d.buf b))
      drive := dr
      ops := d.ops ++ [(⟨b, d.buf b⟩, Driver.finished err sector (d.buf b))] } loc := by
    refine ⟨hrest, h.uniq, fun b' hb' => h.waiter b' (hmem b' hb'), ?_, fun b' hb' => ?_,
      fun q b' id hloc => ?_, fun q b' id y hloc => ?_, fun hnil => ?_, fun b' hb' => ?_⟩
    · have hmap : rest.map (fun b' => (⟨b', Function.update d.buf b
          (Driver.finished err sector (d.buf b)) b'⟩ : Req B)) = rest.map fun b' => ⟨b', d.buf b'⟩ :=
        List.map_congr_left fun b' hb' => by rw [hbuf b' hb']
      dsimp only
      rw [hmap, h.reqs, hq, List.map_append, List.append_assoc]
      rfl
    · show (Function.update d.buf b _ b').done = false
      rw [hbuf b' hb']
      exact h.pending b' (hmem b' hb')
    · rcases h.number q b' id hloc with ⟨i, hi, hid⟩ | ⟨hdone, r, hr, hrb⟩
      · rw [hq] at hi
        cases i with
        | zero =>
          cases hi
          refine Or.inr ⟨?_, ⟨b, d.buf b⟩, ?_, rfl⟩
          · dsimp only
            rw [Function.update_self]
            exact finished_done err sector _
          · dsimp only
            rw [Function.update_self, hid, Nat.add_zero, List.getElem?_concat_length]
        | succ i =>
          refine Or.inl ⟨i, hi, ?_⟩
          rw [hid, List.length_append, List.length_singleton]
          omega
      · have hbb : b' ≠ b := by
          rintro rfl
          rw [h.pending b' (by rw [hq]; exact List.mem_cons_self)] at hdone
          cases hdone
        have hsame : Function.update d.buf b (Driver.finished err sector (d.buf b)) b' = d.buf b' :=
          Function.update_of_ne hbb _ _
        refine Or.inr ⟨?_, r, ?_, hrb⟩
        · dsimp only
          rw [hsame]
          exact hdone
        · dsimp only
          rw [hsame]
          exact hold hr
    · obtain ⟨hdone, r, hr, hrb⟩ := h.ret q b' id y hloc
      exact ⟨hdone, r, hold hr, hrb⟩
    · rcases hdr with ⟨-, hdr⟩ | ⟨b', rest', hcons, -⟩
      · exact hdr
      · change rest = [] at hnil
        rw [hnil] at hcons
        cases hcons
    · change rest.head? = some b' at hb'
      rcases hdr with ⟨hnil, -⟩ | ⟨b'', rest', hcons, hdr, hlt⟩
      · rw [hnil] at hb'
        cases hb'
      · rw [hcons] at hb'
        cases hb'
        exact ⟨Or.inl hdr, hlt⟩
  rw [hnext]
  exact hmain.goto (by rw [hp]; nofun) (fun _ => nofun) ⟨nofun, nofun⟩

omit [DecidableEq B] in
theorem serve_ok {err : Bool} {t : Turn B (IdeLoc B)} (h : d.serve err = .ok t d') :
    t.next = .idle ∧ ∃ c disk, d.drive = .busy c ∧
      d' = { d with drive := .served c err (d.disk c.drive c.sector), disk := disk } ∧
      disk = match c.write with
        | some data => if err then d.disk else d.disk.set c.drive c.sector data
        | none => d.disk := by
  unfold Driver.serve at h
  split at h
  · next c hc =>
    cases h
    exact ⟨rfl, c, _, hc, rfl, rfl⟩
  · cases h

omit [DecidableEq B] in
theorem Inv.serve (h : Inv d loc) {err : Bool} {t : Turn B (IdeLoc B)} (hp : loc p = .serve err)
    (hst : d.serve err = .ok t d') : Inv d' (Function.update loc p t.next) := by
  obtain ⟨hnext, c, disk, hc, rfl, -⟩ := serve_ok hst
  have hmain : Inv { d with drive := .served c err (d.disk c.drive c.sector), disk := disk } loc := by
    refine ⟨h.nodup, h.uniq, h.waiter, h.reqs, h.pending, h.number, h.ret, fun hnil => ?_,
      fun b hb => ?_⟩
    · have := h.idle hnil
      rw [hc] at this
      cases this
    · obtain ⟨hworks, hlt⟩ := h.works b hb
      rcases hworks with hbusy | ⟨err', sector, hserved⟩
      · rw [hc] at hbusy
        cases hbusy
        exact ⟨Or.inr ⟨err, _, rfl⟩, hlt⟩
      · rw [hc] at hserved
        cases hserved
  rw [hnext]
  exact hmain.goto (by rw [hp]; nofun) (fun _ => nofun) ⟨nofun, nofun⟩

theorem Inv.code (h : Inv d loc) (killed : Bool) {t : Turn B (IdeLoc B)}
    (hst : Driver.code killed (loc p) d = .ok t d') : Inv d' (Function.update loc p t.next) := by
  cases hp : loc p with
  | start b held x =>
    rw [hp] at hst
    exact h.start hp hst
  | wait b id =>
    rw [hp] at hst
    cases hst
    exact h.wait hp
  | intr =>
    rw [hp] at hst
    exact h.intr hp hst
  | serve err =>
    rw [hp] at hst
    exact h.serve hp hst
  | idle | ret b id y => rw [hp] at hst; cases hst

omit [DecidableEq B] in
theorem Inv.call (h : Inv d loc) {l : IdeLoc B} (hcall : Driver.calls (loc p) l = true)
    (hlock : ∀ b held x, l = .start b held x → ∀ q, ¬ (loc q).InCall b) :
    Inv d (Function.update loc p l) := by
  refine h.goto (fun b id hp => ?_) (fun b hb q _ hq => ?_) ⟨fun b id hl => ?_, fun b id y hl => ?_⟩
  · rw [hp] at hcall
    cases hcall
  · cases l with
    | start b' held x =>
      cases hb
      exact hlock b held x rfl q hq
    | wait b' id => cases hloc : loc p <;> rw [hloc] at hcall <;> cases hcall
    | _ => cases hb
  · rw [hl] at hcall
    cases hloc : loc p <;> rw [hloc] at hcall <;> cases hcall
  · rw [hl] at hcall
    cases hloc : loc p <;> rw [hloc] at hcall <;> cases hcall

omit [DecidableEq P] [DecidableEq B] in
theorem inv_init (buf : B → Buf) (havedisk1 : Bool) (disk : Disk) :
    Inv (init buf havedisk1 disk : Sys P B).data (init buf havedisk1 disk : Sys P B).loc :=
  ⟨List.nodup_nil, nofun, nofun, rfl, nofun, nofun, nofun, fun _ => rfl, nofun⟩

/-! ## The data, when the disk reports no error -/

/-- Buffers and disk are those of the completed requests, done one after the other from `disk₀` on. -/
structure Synced (disk₀ : Disk) (d : Driver B) : Prop where
  results : ∀ i r y, d.ops[i]? = some (r, y) →
    r.x.done = false ∧ y = (transfer r.x (replay disk₀ (d.ops.take i))).1
  idle : (∀ c err sector, d.drive ≠ .served c err sector) → d.disk = replay disk₀ d.ops
  served : ∀ c err sector b, d.drive = .served c err sector → d.queue.head? = some b →
    err = false ∧ d.disk = (transfer (d.buf b) (replay disk₀ d.ops)).2 ∧
      ((d.buf b).dirty = false → sector = replay disk₀ d.ops ((d.buf b).dev % 2) (d.buf b).blockno)

variable {disk₀ : Disk}

omit [DecidableEq P] in
theorem Synced.start (h : Synced disk₀ d) (hinv : Inv d loc) {held : Bool} {x : Buf}
    {t : Turn B (IdeLoc B)} (hp : loc p = .start b held x) (hst : d.iderw b held x = .ok t d') :
    Synced disk₀ d' := by
  have hb := hinv.not_queued hp
  obtain ⟨-, -, dr, rfl, hdr⟩ := iderw_ok hb hst
  refine ⟨h.results, fun hnot => ?_, fun c err sector b' hserved hhead => ?_⟩
  · rcases hdr with ⟨hnil, -⟩ | ⟨-, hdr⟩
    · exact h.idle (by rw [hinv.idle hnil]; nofun)
    · exact h.idle (by rw [← hdr]; exact hnot)
  · change dr = .served c err sector at hserved
    change (d.queue ++ [b]).head? = some b' at hhead
    rcases hdr with ⟨-, hdr, -⟩ | ⟨hne, hdr⟩
    · rw [hdr] at hserved
      cases hserved
    · obtain ⟨a, rest, hq⟩ := List.exists_cons_of_ne_nil hne
      have hhead' : d.queue.head? = some b' := by
        rw [hq] at hhead ⊢
        exact hhead
      have hbuf : Function.update d.buf b x b' = d.buf b' := by
        refine Function.update_of_ne ?_ _ _
        rintro rfl
        exact hb (List.mem_of_head? hhead')
      dsimp only
      rw [hbuf]
      exact h.served c err sector b' (hdr ▸ hserved) hhead'

theorem finished_eq {x : Buf} {D : Disk} {sector : Block}
    (hsector : x.dirty = false → sector = D (x.dev % 2) x.blockno) :
    Driver.finished false sector x = (transfer x D).1 := by
  unfold Driver.finished transfer
  cases hd : x.dirty with
  | true => simp
  | false =>
    rw [← hsector hd]
    simp

omit [DecidableEq P] in
theorem Synced.intr (h : Synced disk₀ d) (hinv : Inv d loc) {t : Turn B (IdeLoc B)}
    (hst : d.ideintr = .ok t d') : Synced disk₀ d' := by
  obtain ⟨-, c, err, sector, b, rest, dr, hdrive, hq, rfl, hdr⟩ := ideintr_ok hinv.idle hst
  have hhead : d.queue.head? = some b := by rw [hq]; rfl
  obtain ⟨rfl, hdisk, hsector⟩ := h.served c err sector b hdrive hhead
  refine ⟨fun i r y hi => ?_, fun _ => ?_, fun c' err' sector' b' hserved => ?_⟩
  · change (d.ops ++ [_])[i]? = some (r, y) at hi
    show _ ∧ y = (transfer r.x (replay disk₀ ((d.ops ++ [_]).take i))).1
    by_cases hlt : i < d.ops.length
    · rw [List.getElem?_append_left hlt] at hi
      rw [List.take_append_of_le_length hlt.le]
      exact h.results i r y hi
    · have hi' : i = d.ops.length := by
        have := (List.getElem?_eq_some_iff.1 hi).1
        rw [List.length_append, List.length_singleton] at this
        omega
      rw [hi', List.getElem?_concat_length] at hi
      cases hi
      rw [hi', List.take_left]
      exact ⟨hinv.pending b (List.mem_of_head? hhead), finished_eq hsector⟩
  · show d.disk = replay disk₀ (d.ops ++ [_])
    rw [replay_append, hdisk]
  · change dr = .served c' err' sector' at hserved
    rcases hdr with ⟨-, hdr⟩ | ⟨b'', rest', -, hdr, -⟩
    · rw [hdr] at hserved
      cases hserved
    · rw [hdr] at hserved
      cases hserved

omit [DecidableEq P] [DecidableEq B] in
theorem Synced.serve (h : Synced disk₀ d) (hinv : Inv d loc) {t : Turn B (IdeLoc B)}
    (hst : d.serve false = .ok t d') : Synced disk₀ d' := by
  obtain ⟨-, c, disk, hc, rfl, hdisk⟩ := serve_ok hst
  have hold : d.disk = replay disk₀ d.ops := h.idle (by rw [hc]; nofun)
  refine ⟨h.results, fun hnot => absurd rfl (hnot c false _), fun c' err sector b hserved hhead => ?_⟩
  cases hserved
  obtain ⟨hworks, hlt⟩ := hinv.works b hhead
  have hcmd : c = (d.buf b).cmd := by
    rcases hworks with hbusy | ⟨err, sector, hserved⟩
    · rw [hc] at hbusy
      cases hbusy
      rfl
    · rw [hc] at hserved
      cases hserved
  have hsector : c.sector = (d.buf b).blockno := by rw [hcmd]; exact lba_of_lt hlt
  have hdrive : c.drive = (d.buf b).dev % 2 := by rw [hcmd]; rfl
  have hwrite : c.write = if (d.buf b).dirty then some (d.buf b).data else none := by rw [hcmd]; rfl
  refine ⟨rfl, ?_, fun _ => ?_⟩
  · dsimp only
    rw [hdisk, hwrite, hsector, hdrive, hold]
    unfold transfer
    cases (d.buf b).dirty <;> rfl
  · dsimp only
    rw [hsector, hdrive, hold]

/-- The disk reports no error. -/
def NoError (_ : Sys P B) (a : Act P (IdeLoc B)) : Prop := ∀ p, a ≠ .call p (.serve true)

omit [DecidableEq P] in
theorem Synced.code (h : Synced disk₀ d) (hinv : Inv d loc) (herr : loc p ≠ .serve true) (killed : Bool)
    {t : Turn B (IdeLoc B)} (hst : Driver.code killed (loc p) d = .ok t d') : Synced disk₀ d' := by
  cases hp : loc p with
  | start b held x =>
    rw [hp] at hst
    exact h.start hinv hp hst
  | wait b id =>
    rw [hp] at hst
    cases hst
    exact h
  | intr =>
    rw [hp] at hst
    exact h.intr hinv hst
  | serve err =>
    rw [hp] at hst herr
    cases err with
    | true => exact absurd rfl herr
    | false => exact h.serve hinv hst
  | idle | ret b id y => rw [hp] at hst; cases hst

theorem next_of_code (killed : Bool) {l : IdeLoc B} {t : Turn B (IdeLoc B)}
    (hst : Driver.code killed l d = .ok t d') (err : Bool) : t.next ≠ .serve err := by
  have hwait : ∀ (d : Driver B) b id, (d.waitLoop b id).next ≠ .serve err := by
    intro d b id
    unfold Driver.waitLoop
    split <;> nofun
  cases l with
  | start b held x =>
    simp only [Driver.code, Driver.iderw] at hst
    split at hst
    · cases hst
    split at hst
    · cases hst
    split at hst
    · cases hst
    obtain ⟨_, d₁, -, h⟩ := Res.bind_eq_ok.1 hst
    cases h
    exact hwait _ _ _
  | wait b id =>
    cases hst
    exact hwait d b id
  | intr =>
    simp only [Driver.code, Driver.ideintr] at hst
    split at hst
    · split at hst
      · cases hst
        nofun
      · obtain ⟨_, d₁, -, h⟩ := Res.bind_eq_ok.1 hst
        cases h
        nofun
    · cases hst
  | serve err' =>
    rw [(serve_ok hst).1]
    nofun
  | idle => cases hst
  | ret b id y => cases hst

/-! ## Runs -/

variable {s : Sys P B} {buf : B → Buf} {havedisk1 : Bool}

theorem Inv.step {s' : Sys P B} {a : Act P (IdeLoc B)} (h : Inv s.data s.loc) (hlock : OnLocked s a)
    (hst : (monitor B).step s a = .ok () s') : Inv s'.data s'.loc := by
  obtain ⟨p, t, d, -, -, hc, rfl⟩ | ⟨p, l, rfl, -, hcall, rfl⟩ | ⟨p, -, rfl⟩ := Monitor.step_cases hst
  · exact h.code (s.killed p) hc
  · exact h.call hcall fun b held x hl => hlock p b held x (by rw [hl])
  · exact h

/-- Errors or not: every request is completed at most once and in the order of the calls, the disk works on
the head of the queue, and `iderw` returns after its own request was completed. -/
theorem requests_in_order
    (h : Reaches ((monitor B).step (P := P)) OnLocked (init buf havedisk1 disk₀) s) :
    Inv s.data s.loc :=
  h.inv (I := fun s => Inv s.data s.loc) (inv_init buf havedisk1 disk₀) fun _ _ _ hi hlock hst =>
    hi.step hlock hst

theorem synced_reaches
    (h : Reaches ((monitor B).step (P := P)) (fun s a => OnLocked s a ∧ NoError s a)
      (init buf havedisk1 disk₀) s) :
    Inv s.data s.loc ∧ Synced disk₀ s.data ∧ ∀ p, s.loc p ≠ .serve true := by
  refine h.inv (I := fun s => Inv s.data s.loc ∧ Synced disk₀ s.data ∧ ∀ p, s.loc p ≠ .serve true)
    ⟨inv_init buf havedisk1 disk₀, ⟨nofun, fun _ => rfl, nofun⟩, nofun⟩ ?_
  rintro s a s' ⟨hinv, hsync, herr⟩ ⟨hlock, hno⟩ hst
  have hmove : ∀ {p : P} {l : IdeLoc B}, l ≠ .serve true → ∀ q,
      Function.update s.loc p l q ≠ .serve true := by
    intro p l hl q hq
    exact herr q (loc_of_update hq hl).2
  refine ⟨hinv.step hlock hst, ?_⟩
  obtain ⟨p, t, d, rfl, -, hc, rfl⟩ | ⟨p, l, rfl, -, hcall, rfl⟩ | ⟨p, -, rfl⟩ :=
    Monitor.step_cases hst
  · exact ⟨hsync.code hinv (herr p) (s.killed p) hc, hmove (next_of_code (s.killed p) hc true)⟩
  · refine ⟨hsync, hmove fun hl => hno p (by rw [hl])⟩
  · exact ⟨hsync, herr⟩

/-- When the disk reports no error, the driver refines the memory disk. -/
theorem driver_refines_memide
    (h : Reaches ((monitor B).step (P := P)) (fun s a => OnLocked s a ∧ NoError s a)
      (init buf havedisk1 disk₀) s) :
    let d := s.data
    let before := fun id => replay disk₀ (d.ops.take id)
    (d.queued = d.ops.map Prod.fst ++ d.queue.map (fun b => ⟨b, d.buf b⟩) ∧ d.queue.Nodup) ∧
    ((d.queue = [] → d.drive = .idle) ∧
      ∀ b, d.queue.head? = some b → d.drive.WorksOn (d.buf b).cmd) ∧
    (∀ p b id y, s.loc p = .ret b id y → ∃ r, d.ops[id]? = some (r, y) ∧ r.b = b ∧ y.done = true) ∧
    (∀ id r y, d.ops[id]? = some (r, y) → transfer r.x (before id) = (y, before (id + 1)) ∧
      ∀ disksize, r.x.dev = 1 → r.x.blockno < disksize →
        memIderw disksize true r.x (before id 1) = .ok y (before (id + 1) 1)) ∧
    (d.disk = replay disk₀ d.ops ∨
      ∃ b, d.queue.head? = some b ∧ d.disk = (transfer (d.buf b) (replay disk₀ d.ops)).2) := by
  intro d before
  obtain ⟨hinv, hsync, -⟩ := synced_reaches h
  have hop : ∀ id r y, d.ops[id]? = some (r, y) →
      r.x.done = false ∧ transfer r.x (before id) = (y, before (id + 1)) := by
    intro id r y hid
    obtain ⟨hdone, hy⟩ := hsync.results id r y hid
    refine ⟨hdone, Prod.ext hy.symm ?_⟩
    show _ = replay disk₀ (d.ops.take (id + 1))
    rw [List.take_add_one, hid]
    exact (replay_append disk₀ _ (r, y)).symm
  refine ⟨⟨hinv.reqs, hinv.nodup⟩, ⟨hinv.idle, fun b hb => (hinv.works b hb).1⟩, ?_, ?_, ?_⟩
  · intro p b id y hp
    obtain ⟨hdone, r, hr, hb⟩ := hinv.ret p b id y hp
    exact ⟨r, hr, hb, hdone⟩
  · intro id r y hid
    obtain ⟨hdone, htr⟩ := hop id r y hid
    refine ⟨htr, fun disksize hdev hblock => ?_⟩
    rw [memIderw_eq hdone hdev hblock, htr]
  · cases hdrive : d.drive with
    | idle | busy c => exact Or.inl (hsync.idle (by rw [hdrive]; nofun))
    | served c err sector =>
      cases hq : d.queue with
      | nil =>
        rw [hinv.idle hq] at hdrive
        cases hdrive
      | cons b rest =>
        have hhead : d.queue.head? = some b := by rw [hq]; rfl
        exact Or.inr ⟨b, rfl, (hsync.served c err sector b hdrive hhead).2.1⟩

/-- A buffer that is to be read, or written with what it holds. -/
def askFor (dirty : Bool) : Buf := ⟨false, dirty, 1, 5, .zero⟩

/-- Block 5 of disk 1 holds ones, everything else zeros. -/
def ones : Disk := fun drive sector =>
  if drive = 1 ∧ sector = 5 then .ofFn fun _ => 1 else .zero

/-- One process calls `iderw`; then the disk serves the command and raises its interrupt. -/
def oneRequest (dirty err : Bool) : List (Act Bool (IdeLoc Unit)) :=
  [.call true (.start () true (askFor dirty)), .run true, .call false (.serve err), .run false,
    .call false .intr, .run false, .run true]

/-- It has returned from the read or write with a buffer that is valid and clean and whose first byte is
`c`, and block 5 starts with `c'`. -/
def Returned (dirty : Bool) (c c' : Byte) (s : Sys Bool Unit) : Bool :=
  match s.loc true with
  | .ret _ id y => id == 0 && s.data.queued.map (fun r => r.x.dirty) == [dirty] && y.done &&
      y.data.get 0 == c && (s.data.disk 1 5).get 0 == c'
  | _ => false

theorem Returned.reached (dirty err : Bool) (c c' : Byte)
    (h : ((exec ((monitor Unit).step (P := Bool)) (init (fun _ => askFor true) true ones)
      (oneRequest dirty err)).bind fun _ s => (.ok (Returned dirty c c' s) () : Res IdePanic Bool Unit)) =
        .ok true ()) :
    ∃ s : Sys Bool Unit, Reaches ((monitor Unit).step (P := Bool))
      (fun s a => OnLocked s a ∧ (err = false → NoError s a)) (init (fun _ => askFor true) true ones) s ∧
      Returned dirty c c' s = true := by
  obtain ⟨_, s, hs, ht⟩ := Res.bind_eq_ok.1 h
  obtain ⟨_, s₁, hfirst, hrest⟩ := Res.bind_eq_ok.1 hs
  refine ⟨s, Relation.ReflTransGen.head ⟨_, ⟨?_, ?_⟩, hfirst⟩ (reaches_exec_of ?_ hrest), by simpa using ht⟩
  · exact fun p b held x hcall q => id
  · exact fun _ p hcall => by cases hcall
  · intro a ha s
    simp only [List.mem_cons, List.not_mem_nil, or_false] at ha
    refine ⟨fun p b held x hcall => ?_, fun herr p hcall => ?_⟩
    · rcases ha with rfl | rfl | rfl | rfl | rfl | rfl <;> cases hcall
    · rcases ha with rfl | rfl | rfl | rfl | rfl | rfl <;> cases hcall
      cases herr

/-- A read without an error returns the block. -/
theorem driver_refines_memide_read : ∃ s : Sys Bool Unit,
    Reaches ((monitor Unit).step (P := Bool)) (fun s a => OnLocked s a ∧ NoError s a)
      (init (fun _ => askFor true) true ones) s ∧ Returned false 1 1 s = true ∧
      s.data.queued = s.data.ops.map Prod.fst ++ s.data.queue.map fun b => ⟨b, s.data.buf b⟩ := by
  obtain ⟨s, hs, hret⟩ := Returned.reached false false 1 1 (by decide +kernel)
  have hreach : Reaches ((monitor Unit).step (P := Bool)) (fun s a => OnLocked s a ∧ NoError s a)
      (init (fun _ => askFor true) true ones) s :=
    hs.mono fun s a hC => ⟨hC.1, hC.2 rfl⟩
  exact ⟨s, hreach, hret, (driver_refines_memide hreach).1.1⟩

/-- After an error a read returns a buffer that is marked valid and holds what it held before; a write
returns a clean buffer, and the block is what it was. -/
theorem error_not_reported :
    (∃ s : Sys Bool Unit, Reaches ((monitor Unit).step (P := Bool)) OnLocked
      (init (fun _ => askFor true) true ones) s ∧ Returned false 0 1 s = true) ∧
    (∃ s : Sys Bool Unit, Reaches ((monitor Unit).step (P := Bool)) OnLocked
      (init (fun _ => askFor true) true ones) s ∧ Returned true 0 1 s = true) := by
  refine ⟨?_, ?_⟩
  · obtain ⟨s, hs, hret⟩ := Returned.reached false true 0 1 (by decide +kernel)
    exact ⟨s, hs.mono fun _ _ hC => hC.1, hret⟩
  · obtain ⟨s, hs, hret⟩ := Returned.reached true true 0 1 (by decide +kernel)
    exact ⟨s, hs.mono fun _ _ hC => hC.1, hret⟩

/-! ## Who sleeps waits for the disk -/

omit [DecidableEq P] in
theorem iderw_parks {held : Bool} {x : Buf} {t : Turn B (IdeLoc B)} {c : B}
    (hst : d.iderw b held x = .ok t d') (hc : t.parks = some c) : b = c := by
  unfold Driver.iderw at hst
  split at hst
  · cases hst
  split at hst
  · cases hst
  split at hst
  · cases hst
  obtain ⟨_, d₁, -, h⟩ := Res.bind_eq_ok.1 hst
  cases h
  unfold Driver.waitLoop at hc
  split at hc <;> cases hc
  rfl

theorem ideintr_wakes {t : Turn B (IdeLoc B)} {rest : List B} (hq : d.queue = b :: rest)
    (hst : d.ideintr = .ok t d') : t.wakes = [b] ∧ t.parks = none := by
  unfold Driver.ideintr at hst
  split at hst
  · rw [hq] at hst
    obtain ⟨_, d₁, -, h⟩ := Res.bind_eq_ok.1 hst
    cases h
    exact ⟨rfl, rfl⟩
  · cases hst

omit [DecidableEq P] in
/-- A section sleeps on a buffer of the queue only, and wakes those whose buffer it takes from there. -/
theorem Inv.queue_code (h : Inv d loc) (killed : Bool) {t : Turn B (IdeLoc B)}
    (hst : Driver.code killed (loc p) d = .ok t d') :
    (∀ c, t.parks = some c → c ∈ d'.queue) ∧ ∀ c ∈ d.queue, c ∈ d'.queue ∨ c ∈ t.wakes := by
  cases hp : loc p with
  | start b held x =>
    rw [hp] at hst
    obtain ⟨-, -, dr, rfl, -⟩ := iderw_ok (h.not_queued hp) hst
    refine ⟨fun c hc => ?_, fun c hc => Or.inl (List.mem_append_left _ hc)⟩
    rw [← iderw_parks hst hc]
    exact List.mem_append_right _ List.mem_cons_self
  | wait b id =>
    rw [hp] at hst
    cases hst
    refine ⟨fun c hc => ?_, fun c hc => Or.inl hc⟩
    -- it goes to sleep because the request is not completed, so this is still in the queue
    unfold Driver.waitLoop at hc
    split at hc <;> cases hc
    next hdone =>
    rcases h.number p b id hp with ⟨i, hi, -⟩ | ⟨hd, -⟩
    · exact List.mem_of_getElem? hi
    · exact absurd hd hdone
  | intr =>
    rw [hp] at hst
    obtain ⟨-, _, _, _, b, rest, _, -, hq, rfl, -⟩ := ideintr_ok h.idle hst
    obtain ⟨hwakes, hparks⟩ := ideintr_wakes hq hst
    refine ⟨fun c hc => ?_, fun c hc => ?_⟩
    · rw [hparks] at hc
      cases hc
    · rw [hwakes, List.mem_singleton]
      rw [hq, List.mem_cons] at hc
      exact hc.symm
  | serve err =>
    simp only [hp, Driver.code, Driver.serve] at hst
    split at hst <;> cases hst
    exact ⟨fun c hc => (by cases hc), fun c hc => Or.inl hc⟩
  | idle | ret b id y => rw [hp] at hst; cases hst

/-- **No request is forgotten**, with errors and kills at any time: the buffer that a process sleeps on in
`iderw` is in the queue, and the disk works on the head of the queue or its interrupt is to come. -/
theorem sleeper_is_queued
    (h : Reaches ((monitor B).step (P := P)) OnLocked (init buf havedisk1 disk₀) s) (hs : s.asleep p = some b) :
    b ∈ s.data.queue ∧ (s.data.buf b).done = false ∧
      ∃ c, s.data.queue.head? = some c ∧ s.data.drive.WorksOn (s.data.buf c).cmd := by
  have hinv : Inv s.data s.loc ∧ Waits (fun b d => b ∈ d.queue) s := by
    refine h.inv (I := fun s => Inv s.data s.loc ∧ Waits (fun b d => b ∈ d.queue) s)
      ⟨inv_init buf havedisk1 disk₀, Waits.init⟩ ?_
    rintro s a s' ⟨hinv, hwait⟩ hlock hst
    refine ⟨hinv.step hlock hst, ?_⟩
    obtain ⟨p, t, d, -, -, hc, rfl⟩ | ⟨p, l, -, -, -, rfl⟩ | ⟨p, -, rfl⟩ := Monitor.step_cases hst
    · obtain ⟨hpark, hkeep⟩ := hinv.queue_code (s.killed p) hc
      exact hwait.run p hpark fun q c _ => hkeep c
    · exact hwait.call p l
    · exact hwait.kill p
  have hb := hinv.2 p b hs
  obtain ⟨c, rest, hq⟩ := List.exists_cons_of_ne_nil (List.ne_nil_of_mem hb)
  have hhead : s.data.queue.head? = some c := by rw [hq]; rfl
  exact ⟨hb, hinv.1.pending b hb, c, hhead, (hinv.1.works c hhead).1⟩

/-- The reader is asleep until the disk has served it. -/
theorem sleeper_is_queued_read : ∃ s : Sys Bool Unit,
    Reaches ((monitor Unit).step (P := Bool)) OnLocked (init (fun _ => askFor true) true ones) s ∧
      s.asleep true = some () ∧ () ∈ s.data.queue := by
  have hrun : ∃ s : Sys Bool Unit, Reaches ((monitor Unit).step (P := Bool)) OnLocked
      (init (fun _ => askFor true) true ones) s ∧ s.asleep true = some () :=
    ⟨_, .head ⟨.call true (.start () true (askFor false)), fun _ _ _ _ _ _ => id, rfl⟩
      (.head ⟨.run true, fun _ _ _ _ hcall => (by cases hcall), rfl⟩ .refl), rfl⟩
  obtain ⟨s, hs, hsleep⟩ := hrun
  exact ⟨s, hs, hsleep, (sleeper_is_queued hs hsleep).1⟩

end Ide

end Xv6
