import Xv6.Pipe.Stream

/-!
# Wakeups on a pipe

A reader sleeps while the pipe is empty and can still be written, a writer while it is
full and can still be read.  Every section that ends one of these conditions wakes the
sleepers, except for one: a section of `pipewrite` that fills the pipe and then finds
that its process was killed, or that the read end is closed, returns without waking the
readers.  A reader may be left asleep at a full pipe (`killed_writer_strands_reader`).

`reader_waits_empty` is for runs in which no such section stores more than the pipe
holds while a reader sleeps.
-/

namespace Xv6

open Bytes Conc

namespace Stream

/-- Why a process may sleep on a channel. -/
def Blocked : PipeChan → Stream → Prop
  | .nread, x => x.pipe.empty = true ∧ x.pipe.writeopen = true
  | .nwrite, x => x.pipe.full = true ∧ x.pipe.readopen = true

variable {x : Stream} {killed : Bool} {n : Nat} {rest : List Byte}

/-! ## `pipewrite` -/

theorem pipewrite_of_full (h : x.pipe.full = true) : (pipewrite killed n rest x).2 = x := by
  cases rest with
  | nil => rfl
  | cons c rest =>
    rw [pipewrite, if_pos h]
    split <;> rfl

theorem pipewrite_parks {c : PipeChan} (h : (pipewrite killed n rest x).1.parks = some c) :
    Blocked c (pipewrite killed n rest x).2 := by
  induction rest generalizing x with
  | nil => cases h
  | cons b rest ih =>
    rw [pipewrite] at h ⊢
    split at h
    · next hfull =>
      rw [if_pos hfull]
      split at h
      · cases h
      · next hopen =>
        rw [if_neg hopen]
        cases h
        exact ⟨hfull, by simpa using (not_or.1 hopen).1⟩
    · next hfull =>
      rw [if_neg hfull]
      exact ih h

/-- A section wakes the readers, unless it is given up. -/
theorem pipewrite_wakes (h : x.pipe.readopen = true ∧ killed = false) :
    (pipewrite killed n rest x).1.wakes = [.nread] := by
  induction rest generalizing x with
  | nil => rfl
  | cons b rest ih =>
    rw [pipewrite]
    split
    · rw [if_neg (by simp [h])]
    · exact ih h

theorem Ok.pipewrite_wakes_of_room (h : Ok x)
    (hroom : x.sent.length + rest.length ≤ x.got.length + PIPESIZE) :
    (Stream.pipewrite killed n rest x).1.wakes = [.nread] := by
  induction rest generalizing x with
  | nil => rfl
  | cons b rest ih =>
    rw [List.length_cons] at hroom
    have hfull : x.pipe.full ≠ true := by
      rw [Ne, h.full_iff]
      omega
    rw [Stream.pipewrite, if_neg hfull]
    refine ih (h.store hfull b) ?_
    have hsent : (x.store b).sent.length = x.sent.length + 1 := by simp [Stream.store]
    have hgot : (x.store b).got = x.got := rfl
    rw [hsent, hgot]
    omega

/-- A section of a killed writer, or with the read end closed, that has no room for all its bytes
returns without a wakeup and leaves the pipe full. -/
theorem Ok.pipewrite_gives_up (h : Ok x) (hend : x.pipe.readopen = false ∨ killed = true)
    (hroom : x.got.length + PIPESIZE < x.sent.length + rest.length) :
    (Stream.pipewrite killed n rest x).1 = ⟨[], none, .ret (-1)⟩ ∧
      (Stream.pipewrite killed n rest x).2.pipe.full = true := by
  induction rest generalizing x with
  | nil =>
    have := h.room
    rw [List.length_nil] at hroom
    omega
  | cons b rest ih =>
    rw [Stream.pipewrite]
    split
    · next hfull => exact ⟨rfl, hfull⟩
    · next hfull =>
      refine ih (h.store hfull b) hend ?_
      have hsent : (x.store b).sent.length = x.sent.length + 1 := by simp [Stream.store]
      have hgot : (x.store b).got = x.got := rfl
      rw [List.length_cons] at hroom
      rw [hsent, hgot]
      omega

/-! ## `piperead` and `pipeclose` -/

theorem piperead_parks {c : PipeChan} (h : (piperead killed n x).1.parks = some c) :
    Blocked c (piperead killed n x).2 := by
  unfold piperead at h ⊢
  split at h
  · next hempty =>
    rw [if_pos hempty]
    split at h
    · cases h
    · next hk =>
      rw [if_neg hk]
      cases h
      exact hempty
  · cases h

theorem piperead_keeps {c : PipeChan} (h : Blocked c x) :
    Blocked c (piperead killed n x).2 ∨ c ∈ (piperead killed n x).1.wakes := by
  unfold piperead
  split
  · split <;> exact Or.inl h
  · next hempty =>
    cases c with
    | nread => exact absurd h hempty
    | nwrite => exact Or.inr (List.mem_singleton.2 rfl)

theorem pipeclose_keeps {writable : Bool} {c : PipeChan} (h : Blocked c x) :
    Blocked c (pipeclose writable x).2 ∨ c ∈ (pipeclose writable x).1.wakes := by
  cases writable <;> cases c
  · exact Or.inl h
  · exact Or.inr (List.mem_singleton.2 rfl)
  · exact Or.inr (List.mem_singleton.2 rfl)
  · exact Or.inl h

end Stream

/-! ## Runs -/

variable {P : Type}

/-- No section of `pipewrite` of a killed process, or with the read end closed, starts with more than
`PIPESIZE` bytes left while a process sleeps on `&p->nread`. -/
def NoOverfill (s : PipeSys P) : Act P PipeLoc → Prop
  | .run p => ∀ n rest, s.loc p = .write n rest →
      (s.data.pipe.readopen = false ∨ s.killed p = true) →
      (∃ q, s.asleep q = some .nread) → rest.length ≤ PIPESIZE
  | _ => True

/-- A section that meets the condition leaves every sleeper with its reason, or wakes it. -/
theorem code_keeps {s : PipeSys P} {p : P} {t : Turn PipeChan PipeLoc} {d : Stream}
    (hok : s.data.Ok) (hC : NoOverfill s (.run p))
    (hc : Stream.code (s.killed p) (s.loc p) s.data = .ok t d) {q : P} {c : PipeChan}
    (hq : s.asleep q = some c) (hW : Stream.Blocked c s.data) : Stream.Blocked c d ∨ c ∈ t.wakes := by
  cases hl : s.loc p with
  | write n rest =>
    rw [hl] at hc
    cases hc
    cases c with
    | nwrite =>
      rw [Stream.pipewrite_of_full hW.1]
      exact Or.inl hW
    | nread =>
      right
      have hwakes : (Stream.pipewrite (s.killed p) n rest s.data).1.wakes = [.nread] := by
        by_cases hend : s.data.pipe.readopen = false ∨ s.killed p = true
        · have hrest := hC n rest hl hend ⟨q, hq⟩
          refine hok.pipewrite_wakes_of_room ?_
          have := hok.empty_iff.1 hW.1
          omega
        · refine Stream.pipewrite_wakes ?_
          simpa using hend
      rw [hwakes]
      exact List.mem_singleton.2 rfl
  | read n =>
    rw [hl] at hc
    cases hc
    exact Stream.piperead_keeps hW
  | close writable =>
    rw [hl] at hc
    cases hc
    exact Stream.pipeclose_keeps hW
  | idle | ret r =>
    rw [hl] at hc
    cases hc

theorem code_parks {killed : Bool} {l : PipeLoc} {x d : Stream} {t : Turn PipeChan PipeLoc}
    (hc : Stream.code killed l x = .ok t d) {c : PipeChan} (hp : t.parks = some c) :
    Stream.Blocked c d := by
  cases l with
  | write n rest =>
    cases hc
    exact Stream.pipewrite_parks hp
  | read n =>
    cases hc
    exact Stream.piperead_parks hp
  | close writable =>
    cases hc
    cases hp
  | idle => cases hc
  | ret r => cases hc

/-- In every run whose sections meet the condition, who sleeps at the pipe has reason to: a process
asleep on `&p->nread` finds it empty and open for writing, one asleep on `&p->nwrite` finds it full
and open for reading. -/
theorem reader_waits_empty [DecidableEq P] {data : Blk PIPESIZE} {s : PipeSys P}
    (h : Reaches pipeMonitor.step NoOverfill (pipeInit data) s) (p : P) :
    (s.asleep p = some .nread → s.data.pipe.empty = true ∧ s.data.pipe.writeopen = true) ∧
    (s.asleep p = some .nwrite → s.data.pipe.full = true ∧ s.data.pipe.readopen = true) := by
  have hinv : s.data.Ok ∧ Waits Stream.Blocked s := by
    refine h.inv (I := fun s => s.data.Ok ∧ Waits Stream.Blocked s)
      ⟨Stream.ok_fresh data, Waits.init⟩ fun s a s' hs hC hst => ?_
    obtain ⟨p, t, d, rfl, -, hc, rfl⟩ | ⟨p, l, -, -, -, rfl⟩ | ⟨p, -, rfl⟩ := Monitor.step_cases hst
    · exact ⟨hs.1.code hc, hs.2.run p (fun c => code_parks hc) fun q c => code_keeps hs.1 hC hc⟩
    · exact ⟨hs.1, hs.2.call p l⟩
    · exact ⟨hs.1, hs.2.kill p⟩
  exact ⟨hinv.2 p .nread, hinv.2 p .nwrite⟩

/-- The condition is the exact one: a section that does not meet it leaves the sleepers of
`&p->nread` asleep at a full pipe. -/
theorem stranded_of_overfill [DecidableEq P] {s s' : PipeSys P} (hok : s.data.Ok)
    (hW : Waits Stream.Blocked s) {p q : P} {n : Nat} {rest : List Byte}
    (hl : s.loc p = .write n rest) (hend : s.data.pipe.readopen = false ∨ s.killed p = true)
    (hq : s.asleep q = some .nread) (hrest : PIPESIZE < rest.length)
    (hst : pipeMonitor.step s (.run p) = .ok () s') :
    s'.asleep q = some .nread ∧ s'.data.pipe.full = true := by
  obtain ⟨p', t, d, hp, hawake, hc, rfl⟩ | ⟨p', l, hp, -⟩ | ⟨p', hp, -⟩ := Monitor.step_cases hst
  · cases hp
    rw [hl] at hc
    have hroom : s.data.got.length + PIPESIZE < s.data.sent.length + rest.length := by
      have := hok.empty_iff.1 (hW q .nread hq).1
      omega
    obtain ⟨hturn, hfull⟩ := hok.pipewrite_gives_up (n := n) hend hroom
    cases hc
    have hqp : q ≠ p := by
      rintro rfl
      rw [hawake] at hq
      cases hq
    refine ⟨?_, hfull⟩
    show Function.update (wake _ s.asleep) p _ q = _
    rw [Function.update_of_ne hqp, hturn]
    exact wake_eq_some.2 ⟨hq, List.not_mem_nil⟩
  · cases hp
  · cases hp

/-- A reader waits at an empty pipe that a writer has open. -/
theorem reader_waits_empty_one : ∃ s : PipeSys Bool,
    Reaches pipeMonitor.step NoOverfill (pipeInit .zero) s ∧ s.asleep false = some .nread ∧
      s.data.pipe.empty = true := by
  have hrun : Reaches pipeMonitor.step NoOverfill (pipeInit .zero : PipeSys Bool) _ :=
    .tail (.tail .refl ⟨.call false (.read 4), trivial, rfl⟩)
      ⟨.run false, (fun n rest h => by simp at h), rfl⟩
  exact ⟨_, hrun, rfl, ((reader_waits_empty hrun false).1 rfl).1⟩

/-- A reader sleeps; a writer of 513 bytes is killed before it gets the lock, fills the pipe and
returns; the reader is still asleep. -/
theorem killed_writer_strands_reader : ∃ s : PipeSys Bool,
    Reaches pipeMonitor.step anyEvent (pipeInit .zero) s ∧ s.asleep false = some .nread ∧
      s.data.pipe.full = true := by
  have h : ((exec pipeMonitor.step (pipeInit .zero : PipeSys Bool)
      [.call false (.read 1), .run false, .call true (.write 513 (List.replicate 513 65)), .kill true,
        .run true]).bind fun _ s =>
      (.ok (decide (s.asleep false = some .nread ∧ s.data.pipe.full = true)) () :
        Res Panic Bool Unit)) = .ok true () := by
    decide +kernel
  obtain ⟨_, s, hs, ht⟩ := Res.bind_eq_ok.1 h
  have hd : decide (s.asleep false = some .nread ∧ s.data.pipe.full = true) = true := by
    simpa using ht
  exact ⟨s, reaches_exec hs, of_decide_eq_true hd⟩

end Xv6
