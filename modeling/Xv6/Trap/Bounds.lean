import Xv6.Trap.Blocked

/-!
# System calls touch only the caller's memory

Each way of fetching an argument checks it against `p->sz`, and what a call accesses later
is covered by the check, with one exception: `sys_gethistory` checks the address of a
single entry and copies as many as the history has or the caller asks for.

`Stays` follows the parts of a call: their accesses are inside, and `p->sz` is what it
was; `Touches` is for whole calls, which may change `p->sz` at their end.
-/

namespace Xv6.Trap

open Bytes Conc Prog

variable {sb : Superblock} {me : Pid} {sz : Word} {α β : Type}

/-- `p` accesses only memory below `sz`, the size of the process, and returns a value in `Q`. -/
def Stays (me : Pid) (sz : Word) (p : U α) (Q : α → Prop) : Prop :=
  ∀ k, (k.task me).sz = sz → Only (Touch.Inside sz) p (fun a k' => (k'.task me).sz = sz ∧ Q a) k

/-- A call that accesses only memory below `sz`. -/
def Touches (me : Pid) (sz : Word) (p : U α) : Prop :=
  ∀ k, (k.task me).sz = sz → Only (Touch.Inside sz) p (fun _ _ => True) k

theorem Stays.ret {a : α} {Q : α → Prop} (h : Q a) : Stays me sz (pure a) Q :=
  fun _ hk => only_pure ⟨hk, h⟩

theorem Stays.bind {p : U α} {g : α → U β} {P : α → Prop} {Q : β → Prop} (hp : Stays me sz p P)
    (hg : ∀ a, P a → Stays me sz (g a) Q) : Stays me sz (p >>= g) Q :=
  fun k hk => only_bind.2 ((hp k hk).mono fun a k' h => hg a h.2 k' h.1)

theorem Stays.ite {c : Prop} [Decidable c] {p q : U α} {Q : α → Prop}
    (hp : c → Stays me sz p Q) (hq : ¬c → Stays me sz q Q) : Stays me sz (if c then p else q) Q :=
  fun k hk => only_ite (fun h => hp h k hk) fun h => hq h k hk

theorem Touches.ret {a : α} : Touches me sz (pure a : U α) := fun _ _ => only_pure trivial

theorem Stays.andThen {p : U α} {g : α → U β} {P : α → Prop} (hp : Stays me sz p P)
    (hg : ∀ a, P a → Touches me sz (g a)) : Touches me sz (p >>= g) :=
  fun k hk => only_bind.2 ((hp k hk).mono fun a k' h => hg a h.2 k' h.1)

/-- A call gives up if an argument is not there. -/
theorem Stays.arg {p : U (Option α)} {g : Option α → U β} {P : Option α → Prop} (hp : Stays me sz p P)
    (hnone : Touches me sz (g none)) (hsome : ∀ a, P (some a) → Touches me sz (g (some a))) :
    Touches me sz (p >>= g) :=
  hp.andThen fun r hr => by
    cases r with
    | none => exact hnone
    | some a => exact hsome a hr

theorem Touches.some {p : U α} (h : Touches me sz p) : Touches me sz (some <$> p) := by
  intro k hk
  rw [map_eq_pure_bind, only_bind]
  exact (h k hk).mono fun a k' _ => only_pure trivial

/-! ## Accesses -/

theorem touches_kernel (f : Kern → α × Kern) : Touches me sz (kernel f) :=
  fun _ _ => only_atomic trivial fun _ _ _ => trivial

theorem stays_kernel {f : Kern → α × Kern} (h : ∀ k, ((f k).2.task me).sz = (k.task me).sz) :
    Stays me sz (kernel f) fun _ => True := by
  intro k hk
  refine only_atomic trivial fun a k' hr => ?_
  cases hr
  exact ⟨(h k).trans hk, trivial⟩

theorem stays_task : Stays me sz (task me) fun t => t.sz = sz := by
  intro k hk
  refine only_atomic trivial fun a k' hr => ?_
  cases hr
  exact ⟨hk, hk⟩

theorem stays_fs {p : K α} {Q : α → Prop} (h : Returns p Q) : Stays me sz (fs p) Q := by
  intro k hk
  refine only_atomic trivial fun a k' hr => ?_
  obtain ⟨b, s, hb, hr⟩ := Res.bind_eq_ok.1 hr
  cases hr
  exact ⟨hk, h _ _ _ hb⟩

/-- Code of `Xv6.Fs` whose result does not matter. -/
theorem stays_fs_any (p : K α) : Stays me sz (fs p) fun _ => True := stays_fs (Returns.any p)

theorem stays_load {addr : Word} {n : Nat} {f : Kern → α} (h : addr.toNat + n ≤ sz.toNat) :
    Stays me sz (.atomic (.user addr n) fun k => .ok (f k) k) fun _ => True := by
  intro k hk
  refine only_atomic h fun a k' hr => ?_
  cases hr
  exact ⟨hk, trivial⟩

theorem stays_store {addr : Word} {bs : List Byte} (h : addr.toNat + bs.length ≤ sz.toNat) :
    Stays me sz (store me addr bs) fun _ => True := by
  intro k hk
  refine only_atomic h fun a k' hr => ?_
  cases hr
  exact ⟨by simpa [Kern.setTask] using hk, trivial⟩

theorem stays_readstr {p : Word × List Byte} (h : p.1.toNat + p.2.length + 1 ≤ sz.toNat) :
    Stays me sz (readstr p) fun _ => True := stays_load (by omega)

@[simp] theorem length_bytesOf {w : Nat} (v : BitVec w) : (bytesOf v).length = w / 8 := by
  simp [bytesOf]

/-! ## Arguments -/

theorem toNat_add_ofNat {a : Word} (n : Nat) (h : a.toNat + n < 2 ^ 32) :
    (a + BitVec.ofNat 32 n).toNat = a.toNat + n := by
  rw [BitVec.toNat_add, BitVec.toNat_ofNat]
  omega

section

variable (hsz : sz.toNat < Fs.KERNBASE)
include hsz

theorem stays_fetchint (addr : Word) : Stays me sz (fetchint me addr) fun _ => True := by
  refine stays_task.bind fun t ht => Stays.ite (fun _ => .ret trivial) fun h => ?_
  refine (stays_load ?_).bind fun _ _ => .ret trivial
  rw [ht, not_or, not_le, not_lt] at h
  have h4 : (addr + 4).toNat = addr.toNat + 4 :=
    toNat_add_ofNat 4 (by simp only [Fs.KERNBASE] at hsz; omega)
  omega

omit hsz in
/-- The bytes that are looked at, and the nul that ends them, are among the `n` that are left. -/
theorem stays_fetchstrFrom (n : Nat) (s : Word) (h : s.toNat + n ≤ sz.toNat) :
    Stays me sz (fetchstrFrom me n s) fun r => ∀ l, r = some l → l.length + 1 ≤ n := by
  induction n generalizing s with
  | zero => exact .ret nofun
  | succ n ih =>
    refine (stays_load (by omega)).bind fun c _ => Stays.ite (fun _ => .ret ?_) fun _ => ?_
    · rintro l hl
      cases hl
      simp
    · have hs : (s + 1).toNat = s.toNat + 1 := by
        have := sz.isLt
        exact toNat_add_ofNat 1 (by omega)
      refine (ih (s + 1) (by omega)).bind fun r hr => .ret ?_
      rintro l hl
      obtain ⟨l', hl', rfl⟩ := Option.map_eq_some_iff.1 hl
      have := hr l' hl'
      simp only [List.length_cons]
      omega

/-- A string that lies in memory with its nul. -/
def InMem (sz : Word) (p : Word × List Byte) : Prop := p.1.toNat + p.2.length + 1 ≤ sz.toNat

omit hsz in
theorem stays_fetchstr (addr : Word) :
    Stays me sz (fetchstr me addr) fun r => ∀ p, r = some p → InMem sz p := by
  refine stays_task.bind fun t ht => Stays.ite (fun _ => .ret nofun) fun h => ?_
  rw [ht] at h ⊢
  refine (stays_fetchstrFrom _ addr (by omega)).bind fun r hr => .ret ?_
  rintro p hp
  obtain ⟨l, hl, rfl⟩ := Option.map_eq_some_iff.1 hp
  have := hr l hl
  unfold InMem
  dsimp only
  omega

theorem stays_argint (n : Nat) : Stays me sz (argint me n) fun _ => True :=
  stays_task.bind fun _ _ => stays_fetchint hsz _

theorem stays_argptr (n : Nat) (size : Word) : Stays me sz (argptr me n size) fun r =>
    ∀ p, r = some p → p.toNat + size.toNat ≤ sz.toNat := by
  refine (stays_argint hsz n).bind fun i _ => ?_
  cases i with
  | none => exact .ret nofun
  | some i =>
    refine stays_task.bind fun t ht => Stays.ite (fun _ => .ret nofun) fun h => .ret ?_
    rintro p hp
    cases hp
    rw [ht] at h
    push Not at h
    obtain ⟨hpos, hi, hend⟩ := h
    -- both are below 2^31, so the sum does not wrap
    have hsize : size.toNat < 2 ^ 31 := by
      rw [BitVec.toInt_eq_toNat_cond] at hpos
      split at hpos <;> omega
    rw [BitVec.toNat_add, Nat.mod_eq_of_lt (by simp only [Fs.KERNBASE] at hsz; omega)] at hend
    exact hend

theorem stays_argstr (n : Nat) :
    Stays me sz (argstr me n) fun r => ∀ p, r = some p → InMem sz p := by
  refine (stays_argint hsz n).bind fun i _ => ?_
  cases i with
  | none => exact .ret nofun
  | some addr => exact stays_fetchstr addr

theorem stays_argpath (n : Nat) : Stays me sz (argpath me n) fun _ => True := by
  refine (stays_argstr hsz n).bind fun p hp => ?_
  cases p with
  | none => exact .ret trivial
  | some p => exact (stays_readstr (hp p rfl)).bind fun _ _ => .ret trivial

theorem stays_argfd (n : Nat) : Stays me sz (argfd me n) fun _ => True := by
  refine (stays_argint hsz n).bind fun fd _ => ?_
  cases fd with
  | none => exact .ret trivial
  | some fd =>
    refine (stays_fs_any _).bind fun f _ => ?_
    cases f <;> exact .ret trivial

theorem stays_argbuf : Stays me sz (argbuf me) fun r =>
    ∀ fd p n, r = some (fd, p, n) → p.toNat + n ≤ sz.toNat := by
  refine (stays_argfd hsz 0).bind fun fd _ => ?_
  cases fd with
  | none => exact .ret nofun
  | some fd =>
    refine (stays_argint hsz 2).bind fun n _ => ?_
    cases n with
    | none => exact .ret nofun
    | some n =>
      refine (stays_argptr hsz 1 n).bind fun p hp => ?_
      cases p with
      | none => exact .ret nofun
      | some p =>
        refine .ret ?_
        rintro fd' p' n' h
        cases h
        exact hp p rfl

end

/-! ## What a read returns -/

def AtMost (n : Nat) (r : Option (List Byte)) : Prop := ∀ bs, r = some bs → bs.length ≤ n

theorem returns_readiFrom (i : Slot) (n rounds tot off : Nat) :
    Returns (Fs.readiFrom sb i n rounds tot off) fun bs => bs.length ≤ n - tot := by
  induction rounds generalizing tot off with
  | zero => exact .ret (by simp)
  | succ rounds ih =>
    refine Returns.ite (fun h => ?_) fun _ => .ret (by simp)
    refine .seq fun b => .seq fun bp => (ih _ _).bind fun rest hrest => .ret ?_
    simp only [List.length_append, List.length_map, List.length_range]
    omega

theorem returns_consoleread (i : Slot) (n : Nat) :
    Returns (Fs.consoleread sb me i (Fs.toInt n)) (AtMost n) := by
  refine .seq fun _ => Returns.bind (P := AtMost n) ?_ fun r hr => .seq fun _ => .ret hr
  intro s r s' h
  rw [run_atomic] at h
  split at h
  · cases h
    rintro bs hbs
    obtain ⟨l, -, rfl⟩ := Option.map_eq_some_iff.1 hbs
    have hn : (Fs.toInt n).toNat ≤ n := by
      unfold Fs.toInt
      rw [BitVec.toInt_eq_toNat_cond, BitVec.toNat_ofNat]
      have := Nat.mod_le n (2 ^ 32)
      split <;> omega
    rw [List.length_take]
    omega
  · cases h
    rintro bs hbs
    cases hbs
    simp

theorem returns_readi (i : Slot) (off n : Nat) : Returns (Fs.readi sb me i off n) (AtMost n) := by
  refine .seq fun ip => Returns.ite (fun _ => Returns.ite (fun _ => returns_consoleread i n)
    fun _ => .ret nofun) fun _ => Returns.ite (fun _ => .ret nofun) fun _ => ?_
  refine (returns_readiFrom i _ _ 0 off).bind fun bs hbs => .ret ?_
  rintro bs' h
  cases h
  refine hbs.trans ?_
  split <;> omega

theorem length_pipeTake (x : Pipe) (n : Nat) : (Fs.pipeTake x n).1.length ≤ n := by
  induction n generalizing x with
  | zero => simp [Fs.pipeTake]
  | succ n ih =>
    unfold Fs.pipeTake
    split
    · simp
    · have := ih { x with nread := Fs.incr x.nread }
      simp only [List.length_cons]
      omega

theorem returns_piperead (p n : Nat) : Returns (Fs.piperead me p n) (AtMost n) := by
  intro s r s' h
  rw [Fs.piperead, run_atomic] at h
  dsimp only at h
  split at h
  · split at h
    · cases h
      exact nofun
    · cases h
  · cases h
    rintro bs hbs
    cases hbs
    exact length_pipeTake _ n

theorem returns_fileread (f : FileIdx) (n : Nat) : Returns (Fs.fileread sb me f n) (AtMost n) := by
  refine .seq fun ff => Returns.ite (fun _ => .ret nofun) fun _ => ?_
  cases ff.type with
  | none => exact fun s r s' h => by cases h
  | pipe => exact .seq fun p => returns_piperead p n
  | inode =>
    refine .seq fun i => .seq fun g => (returns_readi i _ n).bind fun r hr => ?_
    cases r with
    | none => exact .seq fun _ => .ret hr
    | some bs => exact .seq fun _ => .seq fun _ => .ret hr

theorem returns_sysRead (fd : Option Int) (n : Nat) :
    Returns (Fs.sysRead sb me fd (some n)) (AtMost n) := by
  refine .seq fun r => ?_
  cases r with
  | none => exact .ret nofun
  | some f =>
    refine .seq fun g => .seq fun i => .seq fun ip => Returns.ite (fun _ => ?_) fun _ => ?_
    · exact .seq fun _ => .seq fun _ => .ret nofun
    · exact .seq fun _ => returns_fileread f.2 n

/-! ## The calls -/

theorem touches_fs (p : K Int) : Touches me sz (do return result (← fs p)) :=
  (stays_fs_any p).andThen fun _ _ => .ret

theorem stays_field {p : Word} {w : Nat} {v : BitVec w} (size o : Nat) (h : p.toNat + size ≤ sz.toNat)
    (ho : o + w / 8 ≤ size) : Stays me sz (store me (p + .ofNat 32 o) (bytesOf v)) fun _ => True := by
  refine stays_store ?_
  have := sz.isLt
  rw [length_bytesOf, toNat_add_ofNat o (by omega)]
  omega

section

variable (hsz : sz.toNat < Fs.KERNBASE)
include hsz

theorem touches_sysDup : Touches me sz (sysDup me) := by
  exact (stays_argfd hsz 0).arg .ret fun fd _ => touches_fs _

theorem touches_sysClose : Touches me sz (sysClose sb me) := by
  exact (stays_argfd hsz 0).arg .ret fun fd _ => touches_fs _

theorem touches_sysRead : Touches me sz (sysRead sb me) := by
  refine (stays_argbuf hsz).arg .ret fun r hr => ?_
  obtain ⟨fd, p, n⟩ := r
  have hp := hr fd p n rfl
  refine (stays_fs (returns_sysRead (some fd) n)).arg .ret fun bs hr => ?_
  have := hr bs rfl
  exact (stays_store (by omega)).andThen fun _ _ => .ret

theorem touches_sysWrite : Touches me sz (sysWrite sb me) := by
  refine (stays_argbuf hsz).arg .ret fun r hr => ?_
  obtain ⟨fd, p, n⟩ := r
  exact (stays_load (hr fd p n rfl)).andThen fun src _ => touches_fs _

omit hsz in
theorem touches_storeStat {p : Word} (h : p.toNat + 20 ≤ sz.toNat) (st : Fs.Stat) :
    Stays me sz (storeStat me p st) fun _ => True := by
  refine (stays_field 20 4 h (by decide)).bind fun _ _ => ?_
  refine (stays_field 20 8 h (by decide)).bind fun _ _ => ?_
  have h0 : Stays me sz (store me p (bytesOf st.type)) fun _ => True :=
    stays_store (by rw [length_bytesOf]; omega)
  refine h0.bind fun _ _ => (stays_field 20 12 h (by decide)).bind fun _ _ => ?_
  exact stays_field 20 16 h (by decide)

theorem touches_sysFstat : Touches me sz (sysFstat sb me) := by
  refine (stays_argfd hsz 0).arg .ret fun fd _ => ?_
  refine (stays_argptr hsz 1 STATSZ).arg .ret fun p hp => ?_
  exact (stays_fs_any _).arg .ret fun st _ => (touches_storeStat (hp p rfl) st).andThen fun _ _ => .ret

theorem touches_sysLink : Touches me sz (sysLink sb me) := by
  refine (stays_argpath hsz 0).arg .ret fun old _ => ?_
  exact (stays_argpath hsz 1).arg .ret fun new _ => touches_fs _

theorem touches_sysUnlink : Touches me sz (sysUnlink sb me) := by
  exact (stays_argpath hsz 0).arg .ret fun path _ => touches_fs _

theorem touches_sysOpen : Touches me sz (sysOpen sb me) := by
  refine (stays_argpath hsz 0).arg .ret fun path _ => ?_
  exact (stays_argint hsz 1).arg .ret fun omode _ => touches_fs _

theorem touches_sysChmod : Touches me sz (sysChmod sb me) := by
  refine (stays_argpath hsz 0).arg .ret fun path _ => ?_
  exact (stays_argint hsz 1).arg .ret fun mode _ => touches_fs _

theorem touches_sysMkdir : Touches me sz (sysMkdir sb me) :=
  (stays_argpath hsz 0).andThen fun _ _ => touches_fs _

theorem touches_sysChdir : Touches me sz (sysChdir sb me) :=
  (stays_argpath hsz 0).andThen fun _ _ => touches_fs _

theorem touches_sysMknod : Touches me sz (sysMknod sb me) := by
  refine (stays_argpath hsz 0).andThen fun path _ => ?_
  cases path with
  | none => exact touches_fs _
  | some path =>
    refine (stays_argint hsz 1).andThen fun major _ => ?_
    cases major with
    | none => exact touches_fs _
    | some major => exact (stays_argint hsz 2).andThen fun _ _ => touches_fs _

theorem stays_argvFrom (uargv : Word) (rounds i : Nat) :
    Stays me sz (argvFrom me uargv rounds i) fun r => ∀ l, r = some l → ∀ p ∈ l, InMem sz p := by
  induction rounds generalizing i with
  | zero => exact .ret nofun
  | succ rounds ih =>
    refine (stays_fetchint hsz _).bind fun uarg _ => ?_
    cases uarg with
    | none => exact .ret nofun
    | some uarg =>
      refine Stays.ite (fun _ => .ret ?_) fun _ => (stays_fetchstr uarg).bind fun s hs => ?_
      · rintro l hl
        cases hl
        exact fun p hp => absurd hp List.not_mem_nil
      · cases s with
        | none => exact .ret nofun
        | some s =>
          refine (ih (i + 1)).bind fun r hr => .ret ?_
          rintro l hl
          obtain ⟨l', hl', rfl⟩ := Option.map_eq_some_iff.1 hl
          intro p hp
          rcases List.mem_cons.1 hp with rfl | hp
          · exact hs p rfl
          · exact hr l' hl' p hp

omit hsz in
theorem stays_readAll (argv : List (Word × List Byte)) (h : ∀ p ∈ argv, InMem sz p) :
    Stays me sz (argv.forM fun s => do let _ ← readstr s) fun _ => True := by
  induction argv with
  | nil => exact .ret trivial
  | cons s argv ih =>
    refine Stays.bind (P := fun _ => True) ?_ fun _ _ => ih fun p hp => h p (List.mem_cons_of_mem _ hp)
    exact (stays_readstr (h s List.mem_cons_self)).bind fun _ _ => .ret trivial

theorem touches_sysExec : Touches me sz (sysExec sb me) := by
  refine (stays_argstr hsz 0).arg .ret fun path hpath => ?_
  refine (stays_argint hsz 1).arg .ret fun uargv _ => ?_
  refine (stays_argvFrom hsz uargv MAXARG 0).arg .ret fun argv hargv => ?_
  refine (stays_readstr (hpath path rfl)).andThen fun path _ => ?_
  refine (stays_fs_any _).andThen fun r _ => fun k hk => only_ite (fun _ => ?_) fun _ => ?_
  · -- the size changes after the last access
    refine only_bind.2 (only_bind.2 ((stays_readAll argv (hargv argv rfl) k hk).mono ?_))
    exact fun _ k' _ => only_atomic trivial fun _ _ _ => only_pure trivial
  · exact only_pure trivial

theorem touches_sysPipe : Touches me sz (sysPipe sb me) := by
  refine (stays_argptr hsz 0 8).arg .ret fun fd hfd => ?_
  have hfd := hfd fd rfl
  refine (stays_fs_any _).arg .ret fun r _ => ?_
  obtain ⟨fd0, fd1⟩ := r
  have h0 : Stays me sz (store me fd (bytesOf (.ofNat 32 fd0.1 : Word))) fun _ => True := by
    refine stays_store ?_
    rw [length_bytesOf]
    change fd.toNat + 8 ≤ _ at hfd
    omega
  exact h0.andThen fun _ _ =>
    (stays_field 8 4 hfd (by decide)).andThen fun _ _ => .ret

theorem touches_sysKill : Touches me sz (sysKill me) := by
  exact (stays_argint hsz 0).arg .ret fun pid _ => touches_kernel _

theorem touches_sysSleep : Touches me sz (sysSleep me) := by
  exact (stays_argint hsz 0).arg .ret fun n _ => fun k hk => only_atomic trivial fun _ _ _ => trivial

omit hsz in
theorem touches_growproc (n : Word) : Touches me sz (growproc me n) := by
  refine stays_task.andThen fun t _ => ?_
  have hend : ∀ w : Word, Touches me sz (if n ≠ 0 ∧ w = 0 then pure false else do
      setTask me fun t => { t with sz := w }
      pure true) := by
    intro w k hk
    refine only_ite (fun _ => only_pure trivial) fun _ => only_bind.2 ?_
    exact only_atomic trivial fun _ _ _ => only_pure trivial
  refine Stays.andThen (P := fun _ => True) ?_ fun w _ => hend w
  unfold grown
  refine Stays.ite (fun _ => ?_) fun _ => Stays.ite (fun _ => .ret trivial) fun _ => .ret trivial
  exact (stays_fs_any _).bind fun _ _ => .ret trivial

theorem touches_sysSbrk : Touches me sz (sysSbrk me) := by
  refine (stays_argint hsz 0).arg .ret fun n _ => ?_
  refine stays_task.andThen fun t _ k hk => only_bind.2 ((touches_growproc n k hk).mono ?_)
  exact fun b k' _ => only_ite (fun _ => only_pure trivial) fun _ => only_pure trivial

omit hsz in
theorem touches_sysFork : Touches me sz (sysFork me) := by
  refine (stays_kernel fun _ => rfl).arg .ret fun np _ => ?_
  refine Stays.andThen (P := fun _ => True) (stays_kernel fun k => ?_) fun pid _ => ?_
  · show (Function.update k.task np _ me).sz = _
    by_cases h : me = np
    · rw [h, Function.update_self]
    · rw [Function.update_of_ne h]
  · refine (stays_fs_any _).andThen fun r _ => ?_
    cases r with
    | none => exact .ret
    | some r =>
      exact fun k hk => only_bind.2 (only_atomic trivial fun _ _ _ => only_pure trivial)

omit hsz in
theorem touches_sysExit : Touches me sz (sysExit sb me) := by
  intro k hk
  refine only_ite (fun _ => ?_) fun _ => ?_
  · exact only_atomic trivial nofun
  · refine only_bind.2 (only_atomic trivial fun _ k' _ => only_bind.2 ?_)
    exact only_atomic trivial fun _ _ _ => only_pure trivial

omit hsz in
theorem touches_sysWait : Touches me sz (sysWait me) := by
  refine (stays_fs_any _).andThen fun r _ k hk => ?_
  cases r with
  | none => exact only_pure trivial
  | some p =>
    refine only_bind.2 (only_atomic trivial fun _ k' _ => only_bind.2 ?_)
    exact only_atomic trivial fun _ _ _ => only_pure trivial

end

/-! ## `sys_gethistory` -/

/-- The entries to be copied end below the size of the process, if the first of them does. -/
def HistoryFits (k : Kern) (me : Pid) : Prop :=
  ∀ buf maxEntries, k.intArg me 0 = some buf → k.intArg me 1 = some maxEntries →
    buf.toNat + 24 ≤ (k.task me).sz.toNat →
    buf.toNat + 24 * (k.history.copyCount maxEntries).toNat ≤ (k.task me).sz.toNat

theorem copyCount_le (h : History) (w : Word) : (h.copyCount w).toNat ≤ MAX_HISTORY := by
  have := h.count_le
  unfold History.copyCount
  omega

theorem toNat_entry {buf : Word} {i : Nat} (h : buf.toNat + 24 * i < 2 ^ 32) :
    (buf + HISTSZ * .ofNat 32 i).toNat = buf.toNat + 24 * i := by
  have hmul : HISTSZ * BitVec.ofNat 32 i = BitVec.ofNat 32 (24 * i) := by
    apply BitVec.eq_of_toNat_eq
    simp [BitVec.toNat_mul]
  rw [hmul, toNat_add_ofNat _ h]

theorem length_nameBytes (t : Blk CMD_NAME_MAX) (n i : Nat) : (nameBytes t n i).length ≤ n + 1 := by
  induction n generalizing i with
  | zero => simp [nameBytes]
  | succ n ih =>
    unfold nameBytes
    have := ih (i + 1)
    split <;> simp only [List.length_cons, List.length_nil] <;> omega

theorem stays_storeEntry {p : Word} (h : p.toNat + 24 ≤ sz.toNat) (x : HistoryEntry) :
    Stays me sz (storeEntry me p x) fun _ => True := by
  have := sz.isLt
  have h0 : Stays me sz (store me p (bytesOf x.pid)) fun _ => True :=
    stays_store (by rw [length_bytesOf]; omega)
  have h4 : Stays me sz (store me (p + 4) (nameBytes x.name (CMD_NAME_MAX - 1) 0)) fun _ => True := by
    have hp : (p + 4).toNat = p.toNat + 4 := toNat_add_ofNat 4 (by omega)
    have hlen := length_nameBytes x.name (CMD_NAME_MAX - 1) 0
    refine stays_store ?_
    simp only [CMD_NAME_MAX] at hlen ⊢
    omega
  exact h0.bind fun _ _ => h4.bind fun _ _ => stays_field 24 20 h (by decide)

theorem stays_copyHistory (h : History) {buf : Word} (start n i : Nat)
    (hfit : buf.toNat + 24 * (i + n) ≤ sz.toNat) :
    Stays me sz (copyHistory me h buf start n i) fun _ => True := by
  induction n generalizing i with
  | zero => exact .ret trivial
  | succ n ih =>
    refine (stays_storeEntry ?_ _).bind fun _ _ => ih (i + 1) (by omega)
    have := sz.isLt
    rw [toNat_entry (by omega)]
    omega

theorem run_store_ok (me : Pid) (k : Kern) (addr : Word) (bs : List Byte) :
    ∃ k', (store me addr bs).run k = .ok () k' := ⟨_, run_atomic ..⟩

theorem run_storeEntry_ok (me : Pid) (k : Kern) (p : Word) (x : HistoryEntry) :
    ∃ k', (storeEntry me p x).run k = .ok () k' := by
  obtain ⟨k₁, h₁⟩ := run_store_ok me k p (bytesOf x.pid)
  obtain ⟨k₂, h₂⟩ := run_store_ok me k₁ (p + 4) (nameBytes x.name (CMD_NAME_MAX - 1) 0)
  obtain ⟨k₃, h₃⟩ := run_store_ok me k₂ (p + 20) (bytesOf x.memUsage)
  exact ⟨k₃, by rw [storeEntry, run_bind, h₁, Res.bind_ok, run_bind, h₂, Res.bind_ok, h₃]⟩

theorem mem_trace_storeEntry (k : Kern) (p : Word) (x : HistoryEntry) :
    .user (p + 20) 4 ∈ (storeEntry me p x).trace k := by
  obtain ⟨k₁, h₁⟩ := run_store_ok me k p (bytesOf x.pid)
  obtain ⟨k₂, h₂⟩ := run_store_ok me k₁ (p + 4) (nameBytes x.name (CMD_NAME_MAX - 1) 0)
  refine mem_trace_bind_iff.2 (Or.inr ⟨(), k₁, h₁, mem_trace_bind_iff.2 (Or.inr ⟨(), k₂, h₂, ?_⟩)⟩)
  exact List.mem_cons_self

theorem mem_trace_copyHistory (me : Pid) (h : History) (buf : Word) (start n i : Nat) (k : Kern) :
    .user (buf + HISTSZ * .ofNat 32 (i + n) + 20) 4 ∈
      (copyHistory me h buf start (n + 1) i).trace k := by
  induction n generalizing i k with
  | zero => exact mem_trace_bind_iff.2 (Or.inl (mem_trace_storeEntry k _ _))
  | succ n ih =>
    obtain ⟨k', hk'⟩ := run_storeEntry_ok me k (buf + HISTSZ * .ofNat 32 i)
      (h.entry ((start + i) % MAX_HISTORY))
    refine mem_trace_bind_iff.2 (Or.inr ⟨(), k', hk', ?_⟩)
    have := ih (i + 1) k'
    rwa [show i + 1 + n = i + (n + 1) by omega] at this

/-- `argptr` hands out the first argument if it fits. -/
theorem run_argptr (k : Kern) (me : Pid) (n : Nat) (size : Word) :
    (argptr me n size).run k = .ok ((k.intArg me n).filter fun i => !decide (size.toInt < 0 ∨
      i.toNat ≥ (k.task me).sz.toNat ∨ (i + size).toNat > (k.task me).sz.toNat)) k := by
  rw [argptr, run_bind, run_argint, Res.bind_ok]
  cases k.intArg me n with
  | none => rfl
  | some i =>
    simp only [task, kernel, run_bind, run_atomic, Res.bind_ok, Option.filter_some]
    by_cases h : size.toInt < 0 ∨ i.toNat ≥ (k.task me).sz.toNat ∨
        (i + size).toNat > (k.task me).sz.toNat
    · rw [if_pos h, decide_eq_true h]
      rfl
    · rw [if_neg h, decide_eq_false h]
      rfl

theorem run_argptr_of_room {k : Kern} {buf : Word} (hbuf : k.intArg me 0 = some buf)
    (hroom : buf.toNat + 24 ≤ (k.task me).sz.toNat) :
    (argptr me 0 HISTSZ).run k = .ok (some buf) k := by
  have := (k.task me).sz.isLt
  have h24 : (buf + HISTSZ).toNat = buf.toNat + 24 := toNat_add_ofNat 24 (by omega)
  have hok : ¬(HISTSZ.toInt < 0 ∨ buf.toNat ≥ (k.task me).sz.toNat ∨
      (buf + HISTSZ).toNat > (k.task me).sz.toNat) := by
    rintro (h | h | h)
    · exact absurd h (by decide)
    · omega
    · rw [h24] at h
      omega
  rw [run_argptr, hbuf, Option.filter_some, decide_eq_false hok]
  rfl

theorem only_sysGethistory {k : Kern} (hsz : (k.task me).sz.toNat < Fs.KERNBASE)
    (hfit : HistoryFits k me) :
    Only (Touch.Inside (k.task me).sz) (sysGethistory me) (fun _ _ => True) k := by
  have hptr : Only _ (argptr me 0 HISTSZ) _ k := stays_argptr hsz 0 HISTSZ k rfl
  refine only_bind.2 ⟨hptr.1, fun r k' hr => ?_⟩
  have hp := (hptr.2 r k' hr).2
  rw [run_argptr] at hr
  injection hr with hr hk
  subst hk
  cases r with
  | none => exact only_pure trivial
  | some buf =>
    have hbuf : k.intArg me 0 = some buf := (Option.filter_eq_some_iff.1 hr).1
    have hint : Only _ (argint me 1) _ k := stays_argint hsz 1 k rfl
    refine only_bind.2 ⟨hint.1, fun r k' hr => ?_⟩
    rw [run_argint] at hr
    injection hr with hr hk
    subst hk
    cases r with
    | none => exact only_pure trivial
    | some maxEntries =>
      refine only_bind.2 (only_atomic trivial fun h k' hr => ?_)
      cases hr
      have := hfit buf maxEntries hbuf hr (hp buf rfl)
      refine only_bind.2 ((stays_copyHistory k.history _ _ 0 (by rwa [Nat.zero_add]) k rfl).mono ?_)
      exact fun _ _ _ => only_pure trivial

theorem historyFits_of_trace {k : Kern} (hsz : (k.task me).sz.toNat < Fs.KERNBASE)
    (h : ∀ x ∈ (sysGethistory me).trace k, x.Inside (k.task me).sz) : HistoryFits k me := by
  intro buf maxEntries hbuf hmax hend
  have hlt := copyCount_le k.history maxEntries
  have hptr := run_argptr_of_room hbuf hend
  cases hn : (k.history.copyCount maxEntries).toNat with
  | zero => omega
  | succ n =>
    have hlast : .user (buf + HISTSZ * .ofNat 32 n + 20) 4 ∈ (sysGethistory me).trace k := by
      refine mem_trace_bind_iff.2 (Or.inr ⟨_, _, hptr, mem_trace_bind_iff.2 (Or.inr
        ⟨_, _, run_argint k me 1, ?_⟩)⟩)
      rw [hmax]
      refine mem_trace_bind_iff.2 (Or.inr ⟨k.history, k, run_atomic .., mem_trace_bind ?_⟩)
      have := mem_trace_copyHistory me k.history buf
        (if k.history.count < MAX_HISTORY then 0 else k.history.index) n 0 k
      rw [hn]
      rwa [Nat.zero_add] at this
    have hin := h _ hlast
    have haddr : (buf + HISTSZ * BitVec.ofNat 32 n).toNat = buf.toNat + 24 * n := by
      refine toNat_entry ?_
      simp only [Fs.KERNBASE, MAX_HISTORY] at *
      omega
    have h20 : (buf + HISTSZ * BitVec.ofNat 32 n + 20).toNat = buf.toNat + 24 * n + 20 := by
      rw [← haddr]
      refine toNat_add_ofNat 20 ?_
      rw [haddr]
      simp only [Fs.KERNBASE, MAX_HISTORY] at *
      omega
    change (buf + HISTSZ * BitVec.ofNat 32 n + 20).toNat + 4 ≤ _ at hin
    omega

/-! ## All calls -/

theorem touches_restCode (hsz : sz.toNat < Fs.KERNBASE) {c : Sysno} (hc : c ≠ .gethistory) :
    Touches me sz (c.restCode sb me) := by
  cases c with
  | fork => exact touches_sysFork.some
  | exit => exact touches_sysExit
  | wait => exact touches_sysWait.some
  | pipe => exact (touches_sysPipe hsz).some
  | read => exact (touches_sysRead hsz).some
  | kill => exact (touches_sysKill hsz).some
  | exec => exact (touches_sysExec hsz).some
  | fstat => exact (touches_sysFstat hsz).some
  | chdir => exact (touches_sysChdir hsz).some
  | dup => exact (touches_sysDup hsz).some
  | getpid => exact (stays_task.andThen fun _ _ => Touches.ret).some
  | sbrk => exact (touches_sysSbrk hsz).some
  | sleep => exact (touches_sysSleep hsz).some
  | uptime => exact (touches_kernel _).some
  | «open» => exact (touches_sysOpen hsz).some
  | write => exact (touches_sysWrite hsz).some
  | mknod => exact (touches_sysMknod hsz).some
  | unlink => exact (touches_sysUnlink hsz).some
  | link => exact (touches_sysLink hsz).some
  | mkdir => exact (touches_sysMkdir hsz).some
  | close => exact (touches_sysClose hsz).some
  | gethistory => exact absurd rfl hc
  | block => exact .ret
  | unblock => exact .ret
  | chmod => exact (touches_sysChmod hsz).some

theorem trace_rest (p : U α) (s : Sys) : (rest p).trace s = p.trace s.kern :=
  trace_zoom (by intros; rfl) p s

theorem only_rest {p : U α} {Q : Touch → Prop} {s : Sys} (h : Only Q p (fun _ _ => True) s.kern) :
    Only Q (rest p) (fun _ _ => True) s :=
  ⟨by rw [trace_rest]; exact h.1, fun _ _ _ => trivial⟩

theorem only_setEax {Q : Touch → Prop} (hQ : Q .kernel) (r : Word) (s : Sys) :
    Only Q (setEax me r) (fun _ _ => True) s :=
  only_rest (only_atomic hQ fun _ _ _ => trivial)

theorem only_flagCall {s : Sys} (hsz : (s.kern.task me).sz.toNat < Fs.KERNBASE) {g : Option Word → S Word}
    (hg : ∀ w s', Only (Touch.Inside (s.kern.task me).sz) (g w) (fun _ _ => True) s') :
    Only (Touch.Inside (s.kern.task me).sz) (rest (argint me 0) >>= g) (fun _ _ => True) s := by
  refine only_bind.2 ⟨?_, fun w s' _ => hg w s'⟩
  rw [trace_rest]
  exact (stays_argint hsz 0 s.kern rfl).1

theorem only_code {s : Sys} {c : Sysno} (hsz : (s.kern.task me).sz.toNat < Fs.KERNBASE)
    (hfit : c = .gethistory → HistoryFits s.kern me) :
    Only (Touch.Inside (s.kern.task me).sz) (c.code sb me) (fun _ _ => True) s := by
  have hrest : c ≠ .gethistory → Only (Touch.Inside (s.kern.task me).sz) (rest (c.restCode sb me))
      (fun _ _ => True) s := fun hc => only_rest (touches_restCode hsz hc s.kern rfl)
  have hmap : ∀ {p : S Word}, Only (Touch.Inside (s.kern.task me).sz) p (fun _ _ => True) s →
      Only (Touch.Inside (s.kern.task me).sz) (some <$> p) (fun _ _ => True) s := by
    intro p hp
    rw [map_eq_pure_bind, only_bind]
    exact hp.mono fun _ _ _ => only_pure trivial
  cases c with
  | block =>
    refine hmap (only_flagCall hsz fun w s' => ?_)
    cases w with
    | none => exact only_pure trivial
    | some w =>
      dsimp only
      cases sysid w with
      | none => exact only_pure trivial
      | some n =>
        refine only_ite (fun _ => only_pure trivial) fun _ => only_bind.2 ?_
        exact only_atomic trivial fun _ _ _ => only_pure trivial
  | unblock =>
    refine hmap (only_flagCall hsz fun w s' => ?_)
    cases w with
    | none => exact only_pure trivial
    | some w =>
      dsimp only
      cases sysid w with
      | none => exact only_pure trivial
      | some n => exact only_bind.2 (only_atomic trivial fun _ _ _ => only_pure trivial)
  | gethistory =>
    refine only_rest ?_
    rw [Sysno.restCode, map_eq_pure_bind, only_bind]
    exact (only_sysGethistory hsz (hfit rfl)).mono fun _ _ _ => only_pure trivial
  | _ => exact hrest nofun

/-- Every system call accesses only addresses below the size of the calling process, if and only if
a call of `gethistory` finds room for all entries it copies. -/
theorem touches_inside_iff {s : Sys} (hsz : (s.kern.task me).sz.toNat < Fs.KERNBASE) :
    (∀ x ∈ (syscall sb me).trace s, x.Inside (s.kern.task me).sz) ↔
      ((s.kern.task me).call = some .gethistory → s.blocked Sysno.gethistory.num = false →
        HistoryFits s.kern me) := by
  have htask : (rest (task me)).run s = .ok (s.kern.task me) s := by
    rw [run_rest, task, kernel, run_atomic]
    rfl
  constructor
  · intro h hcall hb
    refine historyFits_of_trace hsz fun x hx => h x ?_
    refine mem_trace_bind_iff.2 (Or.inr ⟨_, s, htask, ?_⟩)
    rw [hcall]
    refine mem_trace_bind_iff.2 (Or.inr ⟨_, s, run_atomic .., ?_⟩)
    rw [if_neg (by rw [hb]; simp)]
    refine mem_trace_bind ?_
    show x ∈ (rest (some <$> sysGethistory me)).trace s
    rw [trace_rest, map_eq_pure_bind]
    exact mem_trace_bind hx
  · intro hfit
    suffices hall : Only (Touch.Inside (s.kern.task me).sz) (syscall sb me) (fun _ _ => True) s from
      hall.1
    refine only_bind.2 ⟨?_, fun t s' ht => ?_⟩
    · rw [trace_rest]
      exact (stays_task s.kern rfl).1
    · rw [htask] at ht
      injection ht with ht hs
      subst ht hs
      cases hcall : (s.kern.task me).call with
      | none =>
        exact only_bind.2 (only_atomic trivial fun _ s' _ => only_setEax trivial _ s')
      | some c =>
        refine only_bind.2 (only_atomic trivial fun b s' hb => ?_)
        injection hb with hb hs
        subst hb hs
        refine only_ite (fun _ => ?_) fun hdisp => ?_
        · exact only_bind.2 (only_atomic trivial fun _ s' _ => only_setEax trivial _ s')
        · refine only_bind.2 ((only_code hsz fun hc => ?_).mono fun r s' _ => ?_)
          · subst hc
            exact hfit hcall (by simpa using hdisp)
          · cases r with
            | none => exact only_pure trivial
            | some r => exact only_setEax trivial r s'

/-- Two processes have exited, and the one that is left has 128 bytes of memory. -/
def twoExited : Sys :=
  let k := oneProcess.kern
  let t := { k.task 0 with sz := 128 }
  { oneProcess with kern :=
      { k with task := fun _ => t, history := (k.history.record t).record t } }

/-- `gethistory(16, 5)` copies two entries, up to byte 64. -/
theorem touches_inside_iff_fits :
    ((twoExited.enter (callWith 22 16 5)).kern.task 0).sz.toNat < Fs.KERNBASE ∧
    ∀ x ∈ (syscall mkfsSb 0).trace (twoExited.enter (callWith 22 16 5)), x.Inside 128 := by
  have hsz : ((twoExited.enter (callWith 22 16 5)).kern.task 0).sz.toNat < Fs.KERNBASE := by decide
  refine ⟨hsz, (touches_inside_iff hsz).2 fun _ _ buf maxEntries hbuf hmax _ => ?_⟩
  cases hbuf.symm.trans (show _ = some 16 from rfl)
  cases hmax.symm.trans (show _ = some 5 from rfl)
  decide

/-- `gethistory(104, 5)`: the first entry ends where memory does, and the second lies beyond. -/
theorem gethistory_overruns :
    ((twoExited.enter (callWith 22 104 5)).kern.task 0).sz = 128 ∧
    .user 128 4 ∈ (syscall mkfsSb 0).trace (twoExited.enter (callWith 22 104 5)) ∧
    ¬Touch.Inside 128 (.user 128 4) := by
  refine ⟨rfl, ?_, by decide⟩
  decide +kernel

end Xv6.Trap
