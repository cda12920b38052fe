import Xv6.Pipe.Sections

/-!
# A pipe is a stream of bytes

`nread` and `nwrite` are `uint` counters that wrap, and the tests for an empty and a
full pipe are equalities between them.  The invariant `Stream.Ok` counts in natural
numbers what the counters hold modulo `2 ^ 32`: `got` is the part of `sent` that was
copied out, at most `PIPESIZE` bytes are between, and each of them is in the ring.
-/

namespace Xv6

open Bytes Conc

namespace Stream

structure Ok (x : Stream) : Prop where
  got_le : x.got.length ≤ x.sent.length
  room : x.sent.length ≤ x.got.length + PIPESIZE
  nread : x.pipe.nread = x.got.length % 2 ^ 32
  nwrite : x.pipe.nwrite = x.sent.length % 2 ^ 32
  got_eq : x.got = x.sent.take x.got.length
  ring : ∀ j, x.got.length ≤ j → j < x.sent.length →
    x.sent[j]? = some (x.pipe.data.get (j % PIPESIZE))

namespace Ok

variable {x : Stream}

theorem full_iff (h : Ok x) : x.pipe.full = true ↔ x.sent.length = x.got.length + PIPESIZE := by
  have h1 := h.got_le
  have h2 := h.room
  rw [Pipe.full, beq_iff_eq, h.nread, h.nwrite]
  simp only [PIPESIZE] at *
  omega

theorem empty_iff (h : Ok x) : x.pipe.empty = true ↔ x.sent.length = x.got.length := by
  have h1 := h.got_le
  have h2 := h.room
  rw [Pipe.empty, beq_iff_eq, h.nread, h.nwrite]
  simp only [PIPESIZE] at *
  omega

theorem count (h : Ok x) :
    (x.pipe.nwrite + 2 ^ 32 - x.pipe.nread) % 2 ^ 32 = x.sent.length - x.got.length := by
  have h1 := h.got_le
  have h2 := h.room
  rw [h.nread, h.nwrite]
  simp only [PIPESIZE] at *
  omega

theorem got_isPrefix (h : Ok x) : x.got <+: x.sent := by
  rw [h.got_eq]
  exact List.take_prefix _ _

theorem closeEnd (h : Ok x) (writable : Bool) :
    Ok { x with pipe := x.pipe.closeEnd writable } := by
  cases writable <;> exact ⟨h.got_le, h.room, h.nread, h.nwrite, h.got_eq, h.ring⟩

theorem store (h : Ok x) (hfull : x.pipe.full ≠ true) (c : Byte) : Ok (x.store c) := by
  have hroom : x.sent.length < x.got.length + PIPESIZE := by
    have h1 := h.room
    have h2 := mt h.full_iff.2 hfull
    omega
  have hlen : (x.sent ++ [c]).length = x.sent.length + 1 := by simp
  constructor
  · show x.got.length ≤ (x.sent ++ [c]).length
    have := h.got_le
    omega
  · show (x.sent ++ [c]).length ≤ x.got.length + PIPESIZE
    omega
  · exact h.nread
  · show Fs.incr x.pipe.nwrite = (x.sent ++ [c]).length % 2 ^ 32
    rw [hlen, h.nwrite, Fs.incr]
    omega
  · show x.got = (x.sent ++ [c]).take x.got.length
    rw [List.take_append_of_le_length h.got_le]
    exact h.got_eq
  · intro j hj hj'
    change x.got.length ≤ j at hj
    change j < (x.sent ++ [c]).length at hj'
    show (x.sent ++ [c])[j]? =
      some ((x.pipe.data.splice (x.pipe.nwrite % PIPESIZE) 1 fun _ => c).get (j % PIPESIZE))
    rw [Blk.get_splice _ _ _ _ (Nat.mod_lt _ (by decide)), h.nwrite]
    simp only [PIPESIZE] at *
    -- the new byte goes to the place of index `sent.length`, which no byte in the pipe has
    by_cases hjl : j = x.sent.length
    · rw [if_pos (by omega), hjl, List.getElem?_concat_length]
    · have hlt : j < x.sent.length := by omega
      rw [if_neg (by omega), List.getElem?_append_left hlt]
      exact h.ring j hj hlt

theorem takeByte (h : Ok x) (hempty : x.pipe.empty ≠ true) :
    Ok { x with
      pipe := { x.pipe with nread := Fs.incr x.pipe.nread }
      got := x.got ++ [x.pipe.data.get (x.pipe.nread % PIPESIZE)] } := by
  have hlt : x.got.length < x.sent.length := by
    have h1 := h.got_le
    have h2 := mt h.empty_iff.2 hempty
    omega
  have hbyte : x.sent[x.got.length]? = some (x.pipe.data.get (x.pipe.nread % PIPESIZE)) := by
    rw [h.ring _ (Nat.le_refl _) hlt, h.nread]
    congr 2
    simp only [PIPESIZE]
    omega
  have hlen : (x.got ++ [x.pipe.data.get (x.pipe.nread % PIPESIZE)]).length = x.got.length + 1 := by
    simp
  constructor
  · dsimp only
    omega
  · dsimp only
    have := h.room
    omega
  · dsimp only
    rw [hlen, h.nread, Fs.incr]
    omega
  · exact h.nwrite
  · dsimp only
    rw [hlen, List.take_add_one, ← h.got_eq, hbyte]
    rfl
  · intro j hj hj'
    dsimp only at hj hj' ⊢
    exact h.ring j (by omega) hj'

end Ok

/-- What the copying loop of `piperead` does. -/
theorem ok_pipeTake {n : Nat} {pipe : Pipe} {sent got : List Byte} (h : Ok ⟨pipe, sent, got⟩) :
    Ok ⟨(Fs.pipeTake pipe n).2, sent, got ++ (Fs.pipeTake pipe n).1⟩ := by
  induction n generalizing pipe got with
  | zero => simpa [Fs.pipeTake] using h
  | succ n ih =>
    rw [Fs.pipeTake]
    split
    · simpa using h
    · next hne =>
      have hb := h.takeByte (by simpa [Pipe.empty] using hne)
      simpa using ih hb

/-- The loop copies nothing only when there is nothing. -/
theorem empty_of_pipeTake_nil {pipe : Pipe} {n : Nat} (h : (Fs.pipeTake pipe (n + 1)).1 = []) :
    pipe.empty = true ∧ (Fs.pipeTake pipe (n + 1)).2 = pipe := by
  rw [Fs.pipeTake] at h ⊢
  split
  · next he => exact ⟨by simpa [Pipe.empty] using he, rfl⟩
  · next he => simp [he] at h

/-! ## The sections -/

theorem Ok.pipewrite {x : Stream} (h : Ok x) (killed : Bool) (n : Nat) (rest : List Byte) :
    Ok (Stream.pipewrite killed n rest x).2 := by
  induction rest generalizing x with
  | nil => exact h
  | cons c rest ih =>
    rw [Stream.pipewrite]
    split
    · split <;> exact h
    · next hfull => exact ih (h.store hfull c)

/-- A section of `pipewrite` stores the beginning of what is left, and returns `n` if that was all. -/
theorem pipewrite_stores (killed : Bool) (n : Nat) (rest : List Byte) (x : Stream) :
    ∃ put left, rest = put ++ left ∧ (Stream.pipewrite killed n rest x).2.sent = x.sent ++ put ∧
      ((Stream.pipewrite killed n rest x).1.next = .write n left ∨
        (Stream.pipewrite killed n rest x).1.next = .ret n ∧ left = [] ∨
        (Stream.pipewrite killed n rest x).1.next = .ret (-1)) := by
  induction rest generalizing x with
  | nil => exact ⟨[], [], rfl, (List.append_nil _).symm, Or.inr (Or.inl ⟨rfl, rfl⟩)⟩
  | cons c rest ih =>
    rw [Stream.pipewrite]
    split
    · refine ⟨[], c :: rest, rfl, ?_, ?_⟩
      · split <;> exact (List.append_nil _).symm
      · split
        · exact Or.inr (Or.inr rfl)
        · exact Or.inl rfl
    · obtain ⟨put, left, hrest, hsent, hnext⟩ := ih (x.store c)
      refine ⟨c :: put, left, by rw [hrest, List.cons_append], ?_, hnext⟩
      rw [hsent, Stream.store, List.append_assoc, List.singleton_append]

theorem Ok.piperead {x : Stream} (h : Ok x) (killed : Bool) (n : Nat) :
    Ok (Stream.piperead killed n x).2 := by
  unfold Stream.piperead
  split
  · split <;> exact h
  · exact ok_pipeTake h

theorem Ok.piperead_zero {x : Stream} (h : Ok x) {killed : Bool} {n : Nat} (hn : 0 < n)
    (hret : (Stream.piperead killed n x).1.next = .ret 0) :
    (Stream.piperead killed n x).2.pipe.writeopen = false ∧
      (Stream.piperead killed n x).2.got = (Stream.piperead killed n x).2.sent := by
  obtain ⟨m, rfl⟩ : ∃ m, n = m + 1 := ⟨n - 1, by omega⟩
  unfold Stream.piperead at hret ⊢
  split at hret
  · split at hret <;> simp at hret
  · next hopen =>
    rw [if_neg hopen]
    dsimp only at hret ⊢
    have hnil : (Fs.pipeTake x.pipe (m + 1)).1 = [] := by
      simpa using hret
    obtain ⟨hempty, hpipe⟩ := empty_of_pipeTake_nil hnil
    have hlen := h.empty_iff.1 hempty
    rw [hpipe, hnil, List.append_nil]
    refine ⟨by simpa [hempty] using hopen, ?_⟩
    rw [h.got_eq, ← hlen, List.take_length]

theorem Ok.code {x x' : Stream} {killed : Bool} {l : PipeLoc} {t : Turn PipeChan PipeLoc} (h : Ok x)
    (hc : Stream.code killed l x = .ok t x') : Ok x' := by
  cases l with
  | write n rest =>
    cases hc
    exact h.pipewrite killed n rest
  | read n =>
    cases hc
    exact h.piperead killed n
  | close writable =>
    cases hc
    exact h.closeEnd writable
  | idle => cases hc
  | ret r => cases hc

theorem ok_fresh (data : Blk PIPESIZE) : Ok ⟨.fresh data, [], []⟩ :=
  ⟨Nat.le_refl _, Nat.zero_le _, rfl, rfl, rfl, fun _ _ h => absurd h (Nat.not_lt_zero _)⟩

end Stream

/-! ## Runs -/

variable {P : Type} [DecidableEq P]

/-- The invariant holds in every state of every interleaving. -/
theorem stream_ok {C : PipeSys P → Act P PipeLoc → Prop} {data : Blk PIPESIZE} {s : PipeSys P}
    (h : Reaches pipeMonitor.step C (pipeInit data) s) : s.data.Ok := by
  refine h.inv (I := fun s => s.data.Ok) (Stream.ok_fresh data) fun s a s' hs _ hst => ?_
  obtain ⟨p, t, d, -, -, hc, rfl⟩ | ⟨p, l, -, -, -, rfl⟩ | ⟨p, -, rfl⟩ := Monitor.step_cases hst
  · exact hs.code hc
  · exact hs
  · exact hs

/-- A run from `s` on in which `p` makes no new call; its own sections put `bs` into the pipe. -/
inductive Puts (p : P) (s : PipeSys P) : List Byte → PipeSys P → Prop
  | refl : Puts p s [] s
  | own {bs cs : List Byte} {t u : PipeSys P} (h : Puts p s bs t)
      (hst : pipeMonitor.step t (.run p) = .ok () u) (hput : u.data.sent = t.data.sent ++ cs) :
      Puts p s (bs ++ cs) u
  | other {bs : List Byte} {t u : PipeSys P} {a : Act P PipeLoc} (h : Puts p s bs t) (hrun : a ≠ .run p)
      (hcall : ∀ l, a ≠ .call p l) (hst : pipeMonitor.step t a = .ok () u) : Puts p s bs u

/-- What has been put and what is left make up the argument. -/
theorem Puts.left {p : P} {s t : PipeSys P} {n : Nat} {bs cs : List Byte} (hp : s.loc p = .write n bs)
    (h : Puts p s cs t) : (∃ left, t.loc p = .write n left ∧ bs = cs ++ left) ∨
      (t.loc p = .ret n ∧ cs = bs) ∨ (t.loc p = .ret (-1) ∧ cs <+: bs) := by
  induction h with
  | refl => exact Or.inl ⟨bs, hp, rfl⟩
  | @own bs' cs t u _ hst hput ih =>
    obtain ⟨q, r, d, hq, -, hc, rfl⟩ | ⟨q, l, hq, -⟩ | ⟨q, hq, -⟩ := Monitor.step_cases hst
    · cases hq
      dsimp only at hput ⊢
      rw [Function.update_self]
      rcases ih with ⟨left, hloc, rfl⟩ | ⟨hloc, -⟩ | ⟨hloc, -⟩
      · rw [hloc] at hc
        obtain ⟨put, left', rfl, hsent, hnext⟩ := Stream.pipewrite_stores (t.killed p) n left t.data
        cases hc
        obtain rfl : put = cs := List.append_cancel_left (hsent.symm.trans hput)
        rw [← List.append_assoc]
        rcases hnext with hnext | ⟨hnext, rfl⟩ | hnext
        · exact Or.inl ⟨left', hnext, rfl⟩
        · exact Or.inr (Or.inl ⟨hnext, (List.append_nil _).symm⟩)
        · exact Or.inr (Or.inr ⟨hnext, List.prefix_append _ _⟩)
      · rw [hloc] at hc
        cases hc
      · rw [hloc] at hc
        cases hc
    · cases hq
    · cases hq
  | @other bs' t u a _ hrun hcall hst ih =>
    have hloc : u.loc p = t.loc p := by
      obtain ⟨q, r, d, rfl, -, -, rfl⟩ | ⟨q, l, rfl, -, -, rfl⟩ | ⟨q, -, rfl⟩ := Monitor.step_cases hst
      · exact Function.update_of_ne (fun he => hrun (by rw [he])) _ _
      · exact Function.update_of_ne (fun he => hcall l (by rw [he])) _ _
      · rfl
    rw [hloc]
    exact ih

/-- Stream integrity: the counters are never further apart than the pipe is large, what was read is
the beginning of what was written, and a read of some bytes answers `0` only when the write end is
closed and everything was read.  A `pipewrite` that returns its count has put its bytes into the pipe, no
more and in order; one that fails has put some first ones of them. -/
theorem pipe_is_stream {data : Blk PIPESIZE} {s : PipeSys P}
    (h : Reaches pipeMonitor.step anyEvent (pipeInit data) s) :
    (s.data.pipe.nwrite + 2 ^ 32 - s.data.pipe.nread) % 2 ^ 32 ≤ PIPESIZE ∧
    s.data.got <+: s.data.sent ∧
    (∀ p n s', 0 < n → s.loc p = .read n → pipeMonitor.step s (.run p) = .ok () s' →
      s'.loc p = .ret 0 → s'.data.pipe.writeopen = false ∧ s'.data.got = s'.data.sent) ∧
    ∀ p n bs cs t, s.loc p = .write n bs → Puts p s cs t →
      (t.loc p = .ret n → cs = bs) ∧ (t.loc p = .ret (-1) → cs <+: bs) := by
  have hok := stream_ok h
  refine ⟨?_, hok.got_isPrefix, fun p n s' hn hp hst hret => ?_, fun p n bs cs t hp hputs => ?_⟩
  · rw [hok.count]
    have := hok.room
    omega
  · obtain ⟨q, t, d, hq, -, hc, rfl⟩ | ⟨q, l, hq, -, -, -⟩ | ⟨q, hq, -⟩ := Monitor.step_cases hst
    · cases hq
      rw [hp] at hc
      cases hc
      exact hok.piperead_zero hn (by simpa using hret)
    · cases hq
    · cases hq
  · rcases hputs.left hp with ⟨left, hloc, -⟩ | ⟨hloc, rfl⟩ | ⟨hloc, hprefix⟩
    · rw [hloc]
      exact ⟨fun hret => (by cases hret), fun hret => (by cases hret)⟩
    · exact ⟨fun _ => rfl, fun _ => List.prefix_rfl⟩
    · rw [hloc]
      refine ⟨fun hret => ?_, fun _ => hprefix⟩
      injection hret with hret
      omega

/-- Three bytes are written, and two of them are read. -/
theorem pipe_is_stream_two : ∃ s₁ s₂ s₃ : PipeSys Bool,
    Reaches pipeMonitor.step anyEvent (pipeInit .zero) s₁ ∧ s₁.loc true = .write 3 [7, 8, 9] ∧
    pipeMonitor.step s₁ (.run true) = .ok () s₂ ∧ s₂.loc true = .ret 3 ∧ s₂.data.sent = [7, 8, 9] ∧
    Reaches pipeMonitor.step anyEvent s₂ s₃ ∧ s₃.data.got = [7, 8] ∧ s₃.data.got <+: s₃.data.sent := by
  obtain ⟨s₁, s₂, s₃, h₁, hloc, hsent, h₂, hret, h₃, hgot⟩ : ∃ s₁ s₂ s₃ : PipeSys Bool,
      exec pipeMonitor.step (pipeInit .zero) [.call true (.write 3 [7, 8, 9])] = .ok () s₁ ∧
      s₁.loc true = .write 3 [7, 8, 9] ∧ s₁.data.sent = [] ∧
      pipeMonitor.step s₁ (.run true) = .ok () s₂ ∧ s₂.loc true = .ret 3 ∧
      exec pipeMonitor.step s₂ [.call false (.read 2), .run false] = .ok () s₃ ∧
      s₃.data.got = [7, 8] := ⟨_, _, _, rfl, rfl, rfl, rfl, rfl, rfl, by decide⟩
  have hrun := reaches_exec h₁
  have hputs : Puts true s₁ s₂.data.sent s₂ := .own .refl h₂ (by rw [hsent, List.nil_append])
  have hall := (hrun.tail ⟨_, trivial, h₂⟩).trans (reaches_exec h₃)
  exact ⟨s₁, s₂, s₃, hrun, hloc, h₂, hret, ((pipe_is_stream hrun).2.2.2 _ _ _ _ _ hloc hputs).1 hret,
    reaches_exec h₃, hgot, (pipe_is_stream hall).2.1⟩

end Xv6
