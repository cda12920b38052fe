import Xv6.Fs.System

/-!
# `read` and `write` on a pipe

`sys_read` and `sys_write` check the permission bits of `f->ip` before anything
looks at the type of the file.  For a pipe `f->ip` is what the last user of the
table entry left there: null in an entry that never held an inode.

`stale_inode_consulted` says what the check does in every state.
-/

namespace Xv6.Fs

open Bytes Conc

variable {sb : Superblock} {me : Pid} {s : Kernel} {k : Fin NOFILE} {f : FileIdx}

/-! ## The parts of the calls -/

theorem argfd_run (h : (s.proc me).ofile k = some f) :
    (argfd me (some (k.1 : Int))).run s = .ok (some (k, f)) s := by
  have hk : 0 ≤ (k.1 : Int) ∧ (k.1 : Int).toNat < NOFILE := ⟨by omega, by simp⟩
  simp only [argfd, Prog.run_atomic, Option.bind_eq_bind, Option.bind_some, dif_pos hk]
  have hfin : (⟨(k.1 : Int).toNat, hk.2⟩ : Fin NOFILE) = k := Fin.ext (by simp)
  rw [hfin, h]
  rfl

theorem file_run (f : FileIdx) (s : Kernel) : (file f).run s = .ok (s.ftable f) s :=
  Prog.run_atomic _ _ _

theorem checked_call {α : Type} {h : Option (Fin NOFILE × FileIdx) → K α} {g : Slot → K α}
    (hfd : (s.proc me).ofile k = some f)
    (hh : h (some (k, f)) = (file f >>= fun ff => ilockPtr sb me ff.ip >>= g)) :
    ((s.ftable f).ip = none → (argfd me (some (k.1 : Int)) >>= h).run s = .panic .ilock) ∧
    ∀ i, (s.ftable f).ip = some i →
      Sec.inode i ∈ (argfd me (some (k.1 : Int)) >>= h).trace s := by
  constructor
  · intro hip
    rw [Prog.run_bind, argfd_run hfd, Res.bind_ok, hh, Prog.run_bind, file_run, Res.bind_ok, hip]
    rfl
  · intro i hip
    rw [Prog.trace_bind_of_ok (argfd_run hfd), hh, Prog.trace_bind_of_ok (file_run f s), hip]
    refine List.mem_append_right _ (List.mem_append_right _ ?_)
    exact Prog.mem_trace_bind List.mem_cons_self

/-! ## Every read and write looks at the leftover inode -/

/-- With valid arguments, whatever the type of the file: `read` and `write` panic if `f->ip` is
null, and look at the inode it points to otherwise. -/
theorem stale_inode_consulted (hfd : (s.proc me).ofile k = some f) (n : Nat) (src : Nat → Byte) :
    ((s.ftable f).ip = none →
      (sysRead sb me (some (k.1 : Int)) (some n)).run s = .panic .ilock ∧
      (sysWrite sb me (some (k.1 : Int)) (some (n, src))).run s = .panic .ilock) ∧
    ∀ i, (s.ftable f).ip = some i →
      Sec.inode i ∈ (sysRead sb me (some (k.1 : Int)) (some n)).trace s ∧
      Sec.inode i ∈ (sysWrite sb me (some (k.1 : Int)) (some (n, src))).trace s := by
  unfold sysRead sysWrite
  constructor
  · intro hip
    exact ⟨(checked_call hfd (by rfl)).1 hip, (checked_call hfd (by rfl)).1 hip⟩
  · intro i hip
    exact ⟨(checked_call hfd (by rfl)).2 i hip, (checked_call hfd (by rfl)).2 i hip⟩

/-- A system on an empty disk, with memory for every request. -/
def bareBoot : Res Panic Unit Kernel :=
  boot mkfsSb (fun _ => .zero) (fun _ => true) fun _ => none

/-- The state after `pipe()` in the first process, if it is reached. -/
def afterPipe : Res Panic Unit Kernel :=
  bareBoot.bind fun _ s => sysStep mkfsSb s (initproc, .pipe true)

theorem stale_inode_consulted_fresh : ∃ s, afterPipe = .ok () s ∧
    (s.proc initproc).ofile 0 = some 0 ∧ (s.ftable 0).ip = none ∧
    (sysRead mkfsSb initproc (some 0) (some 1)).run s = .panic .ilock := by
  obtain ⟨s, hs⟩ : ∃ s, afterPipe = .ok () s := ⟨_, rfl⟩
  have hf : afterPipe.bind (fun _ s => (.ok ((s.proc initproc).ofile 0, (s.ftable 0).ip) () :
      Res Panic (Option FileIdx × Option Slot) Unit)) = .ok (some 0, none) () := rfl
  rw [hs] at hf
  obtain ⟨hfd, hip⟩ : (s.proc initproc).ofile 0 = some 0 ∧ (s.ftable 0).ip = none := by
    simpa using hf
  exact ⟨s, hs, hfd, hip, ((stale_inode_consulted hfd 1 fun _ => 0).1 hip).1⟩

/-- A fresh system in which the first process makes a pipe and reads from it: the kernel stops. -/
theorem pipe_read_panics : ∃ s0 s, bareBoot = .ok () s0 ∧
    Reaches (sysStep mkfsSb) anyEvent s0 s ∧
    (s.proc initproc).ofile 0 = some 0 ∧ (s.ftable 0).type = .pipe ∧
    sysStep mkfsSb s (initproc, .read (some 0) (some 1)) = .panic .ilock := by
  obtain ⟨s0, h0⟩ : ∃ s, bareBoot = .ok () s := ⟨_, rfl⟩
  obtain ⟨s, hs⟩ : ∃ s, afterPipe = .ok () s := ⟨_, rfl⟩
  have hf : afterPipe.bind (fun _ s => (.ok ((s.proc initproc).ofile 0, (s.ftable 0).type) () :
      Res Panic (Option FileIdx × FdType) Unit)) = .ok (some 0, .pipe) () := rfl
  have hp : afterPipe.bind (fun _ s => sysStep mkfsSb s (initproc, .read (some 0) (some 1))) =
      .panic .ilock := rfl
  rw [hs] at hf hp
  obtain ⟨hfd, htype⟩ : (s.proc initproc).ofile 0 = some 0 ∧ (s.ftable 0).type = .pipe := by
    simpa using hf
  have hstep : sysStep mkfsSb s0 (initproc, .pipe true) = .ok () s := by
    unfold afterPipe at hs
    rwa [h0] at hs
  exact ⟨s0, s, h0, .single ⟨_, trivial, hstep⟩, hfd, htype, hp⟩

end Xv6.Fs
