import Xv6.Fs.System
import Xv6.Lib.Footprint

/-!
# What the sections of `fs.c` leave alone

All that the code of `fs.c` does to the state in a section is to log a block, to change the log, the
input that was read or what was printed, and to change an entry of the inode cache; and
the mode in an entry only when `ilock` reads the entry from disk.  A relation between states that
allows this is a `Frame`, and then every section of every function of `fs.c` keeps to it.
`free` says for which entries reading from disk is allowed.
-/

namespace Xv6.Fs

open Bytes Conc Prog

/-- Any stop but the two panics that say a count of the file table is wrong. -/
def FileStops (e : Option Panic) : Prop := e ≠ some .filedup ∧ e ≠ some .fileclose

structure Frame (E : Option Panic → Prop) (R : Kernel → Kernel → Prop) (free : Slot → Prop) : Prop where
  stop : ∀ e, FileStops e → E e
  refl : ∀ s, R s s
  log : ∀ s l, R s { s with log := l }
  logged : ∀ s b x, R s (s.logged b x)
  typed : ∀ s n, R s { s with reads := n }
  printed : ∀ s c, R s { s with console := c }
  inode : ∀ s i ip, ip.d.mode = (s.icache i).d.mode → R s (s.setInode i ip)
  load : ∀ s i ip, free i → R s (s.setInode i ip)

namespace Frame

variable {E : Option Panic → Prop} {R : Kernel → Kernel → Prop} {free : Slot → Prop}
variable (h : Frame E R free) {sb : Superblock} {me : Pid} {α : Type}
include h

/-! ## Sections -/

theorem sleep : E none := h.stop _ ⟨nofun, nofun⟩

theorem look {l : Sec} {f : Kernel → α} : Each E R (.atomic l fun s => .ok (f s) s : K α) :=
  each_atomic fun s => h.refl s

theorem panic {e : Panic} (he : e ≠ .filedup ∧ e ≠ .fileclose) : Each E R (Fs.panic e : K α) :=
  each_throw (h.stop _ ⟨fun hs => he.1 (Option.some.inj hs), fun hs => he.2 (Option.some.inj hs)⟩)

theorem post_logWrite (s : Kernel) (b : Nat) (x : Block) :
    (s.logWrite b x).Post E fun _ s' => R s s' := by
  unfold Kernel.logWrite Log.logWrite Log.logWriteTest
  split
  · exact h.stop _ ⟨nofun, nofun⟩
  · split
    · exact h.stop _ ⟨nofun, nofun⟩
    · exact h.logged s b x

theorem logWrite {b : Nat} {x : Kernel → Block} :
    Each E R (.atomic (.logWrite b) fun s => s.logWrite b (x s) : K Unit) :=
  each_atomic fun s => h.post_logWrite s b (x s)

/-! ## Blocks and inodes -/

theorem bread (b : Nat) : Each E R (bread b) := h.look

theorem bzero (b : Nat) : Each E R (bzero b) := h.logWrite

theorem balloc : Each E R (balloc sb) := by
  have hround : ∀ b, Each E R (ballocRound sb b) := by
    refine fun b => each_atomic fun s => ?_
    dsimp only
    split
    · exact Res.post_bind.2 (h.post_logWrite s _ _)
    · exact h.refl s
  unfold Fs.balloc
  generalize (List.range ((sb.size + BPB - 1) / BPB)).map (· * BPB) = bs
  induction bs with
  | nil => exact h.panic (by decide)
  | cons b bs ih =>
    refine (hround b).bind fun r => ?_
    cases r with
    | none => exact ih
    | some bi => exact (h.bzero _).bind fun _ => each_pure _

theorem bfree (b : Nat) : Each E R (bfree sb b) := by
  refine each_atomic fun s => ?_
  dsimp only
  split
  · exact h.stop _ ⟨nofun, nofun⟩
  · exact h.post_logWrite s _ _

theorem readInode (i : Slot) : Each E R (Fs.inode i) := h.look

theorem setInode (i : Slot) {f : Inode → Inode} (hf : ∀ ip, (f ip).d.mode = ip.d.mode) :
    Each E R (setInode i f) :=
  each_atomic fun s => h.inode s i _ (hf _)

theorem setDinode (i : Slot) {f : Dinode → Dinode} (hf : ∀ d, (f d).mode = d.mode) :
    Each E R (setDinode i f) := h.setInode i fun ip => hf ip.d

theorem setAddr (i : Slot) (k : Nat) (v : Word) :
    Each E R (Fs.setDinode i fun d => d.setAddr k v) := h.setDinode i (by intro; rfl)

theorem iget (dev inum : Nat) : Each E R (iget dev inum) := by
  refine each_atomic fun s => ?_
  split
  · exact h.inode s _ _ rfl
  · split
    · exact h.inode s _ _ rfl
    · exact h.stop _ ⟨nofun, nofun⟩

theorem iupdate (i : Slot) : Each E R (iupdate sb i) := (h.readInode i).bind fun _ => h.logWrite

theorem irelse (i : Slot) : Each E R (irelse i) := each_atomic fun s => h.inode s i _ rfl

theorem acquiresleep (i : Slot) : Each E R (acquiresleep me i) := by
  refine each_atomic fun s => ?_
  split
  · exact h.sleep
  · exact h.inode s i _ rfl

theorem releasesleep (i : Slot) : Each E R (releasesleep i) := h.setInode i fun _ => rfl

theorem ilock {i : Slot} (hi : free i) : Each E R (ilock sb me i) := by
  refine (h.readInode i).bind fun ip => ?_
  refine Each.ite (fun _ => (h.panic (by decide)).bind fun _ => ?_) fun _ => ?_
  all_goals
    refine (h.acquiresleep i).bind fun _ => (h.readInode i).bind fun ip => ?_
    refine Each.ite (fun _ => ?_) fun _ => each_pure _
    refine (h.bread _).bind fun bp => Each.bind (each_atomic fun s => h.load s i _ hi) fun _ => ?_
    exact Each.ite (fun _ => h.panic (by decide)) fun _ => each_pure _

theorem iunlock (i : Slot) : Each E R (iunlock me i) := by
  refine (h.readInode i).bind fun ip => ?_
  refine Each.ite (fun _ => (h.panic (by decide)).bind fun _ => ?_) fun _ => ?_
  all_goals exact h.releasesleep i

theorem bmapDirect (i : Slot) (k : Nat) : Each E R (bmapDirect sb i k) := by
  refine Each.bind h.look fun a => Each.ite (fun _ => ?_) fun _ => each_pure _
  exact h.balloc.bind fun r => (h.setAddr i k _).bind fun _ => each_pure _

theorem bmap (i : Slot) (bn : Nat) : Each E R (bmap sb i bn) := by
  unfold Fs.bmap
  refine Each.ite (fun _ => h.bmapDirect i bn) fun _ => ?_
  refine Each.ite (fun _ => ?_) fun _ => h.panic (by decide)
  refine (h.bmapDirect i NDIRECT).bind fun ind => Each.bind h.look fun a => ?_
  refine Each.ite (fun _ => ?_) fun _ => each_pure _
  exact h.balloc.bind fun r => h.logWrite.bind fun _ => each_pure _

theorem itrunc (i : Slot) : Each E R (itrunc sb i) := by
  have hend : Each E R (do Fs.setDinode i fun d => { d with size := 0 }; Fs.iupdate sb i : K Unit) :=
    (h.setDinode i (by intro; rfl)).bind fun _ => h.iupdate i
  refine Each.bind (Each.forM (fun k => ?_) _) fun _ => (h.readInode i).bind fun ip => ?_
  · refine (h.readInode i).bind fun ip => Each.ite (fun _ => ?_) fun _ => each_pure _
    exact (h.bfree _).bind fun _ => h.setAddr i k 0
  · refine Each.ite (fun _ => ?_) fun _ => hend
    refine (h.bread _).bind fun bp => Each.bind (Each.forM (fun j => ?_) _) fun _ => ?_
    · exact Each.ite (fun _ => h.bfree _) fun _ => each_pure _
    · exact (h.bfree _).bind fun _ => (h.setAddr i NDIRECT 0).bind fun _ => hend

theorem iput (i : Slot) : Each E R (iput sb me i) := by
  have hend : Each E R (do Fs.releasesleep i; Fs.irelse i : K Unit) :=
    (h.releasesleep i).bind fun _ => h.irelse i
  refine (h.acquiresleep i).bind fun _ => Each.bind h.look fun last => ?_
  refine Each.ite (fun _ => ?_) fun _ => hend
  refine (h.itrunc i).bind fun _ => (h.setDinode i (by intro; rfl)).bind fun _ => ?_
  exact (h.iupdate i).bind fun _ => (h.setInode i (by intro; rfl)).bind fun _ => hend

theorem iunlockput (i : Slot) : Each E R (iunlockput sb me i) := (h.iunlock i).bind fun _ => h.iput i

theorem consoleread {i : Slot} (hi : free i) (n : Int) : Each E R (consoleread sb me i n) := by
  refine (h.iunlock i).bind fun _ => Each.bind (each_atomic fun s => ?_) fun r => ?_
  · split
    · exact h.typed s _
    · exact h.refl s
  · exact (h.ilock hi).bind fun _ => each_pure _

theorem consolewrite {i : Slot} (hi : free i) (src : Nat → Byte) (n : Int) :
    Each E R (consolewrite sb me i src n) := by
  refine (h.iunlock i).bind fun _ => Each.bind (each_atomic fun s => h.printed s _) fun r => ?_
  exact (h.ilock hi).bind fun _ => each_pure _

theorem readiFrom (i : Slot) (n rounds tot off : Nat) : Each E R (readiFrom sb i n rounds tot off) := by
  induction rounds generalizing tot off with
  | zero => exact each_pure _
  | succ rounds ih =>
    unfold Fs.readiFrom
    refine Each.ite (fun _ => ?_) fun _ => each_pure _
    refine (h.bmap i _).bind fun b => (h.bread b).bind fun bp => ?_
    exact (ih _ _).bind fun _ => each_pure _

theorem readi {i : Slot} (hi : free i) (off n : Nat) : Each E R (readi sb me i off n) := by
  refine (h.readInode i).bind fun ip => Each.ite (fun _ => ?_) fun _ => ?_
  · exact Each.ite (fun _ => h.consoleread hi _) fun _ => each_pure _
  · refine Each.ite (fun _ => each_pure _) fun _ => ?_
    exact (h.readiFrom i _ _ _ _).bind fun _ => each_pure _

theorem writeiFrom (i : Slot) (src : Nat → Byte) (n rounds tot off : Nat) :
    Each E R (writeiFrom sb i src n rounds tot off) := by
  induction rounds generalizing tot off with
  | zero => exact each_pure _
  | succ rounds ih =>
    unfold Fs.writeiFrom
    refine Each.ite (fun _ => ?_) fun _ => each_pure _
    exact (h.bmap i _).bind fun b => h.logWrite.bind fun _ => ih _ _

theorem writei {i : Slot} (hi : free i) (src : Nat → Byte) (off n : Nat) :
    Each E R (writei sb me i src off n) := by
  refine (h.readInode i).bind fun ip => Each.ite (fun _ => ?_) fun _ => ?_
  · exact Each.ite (fun _ => h.consolewrite hi _ _) fun _ => each_pure _
  · refine Each.ite (fun _ => each_pure _) fun _ => Each.ite (fun _ => each_pure _) fun _ => ?_
    refine (h.writeiFrom i src _ _ _ _).bind fun _ => (h.readInode i).bind fun ip => ?_
    refine Each.ite (fun _ => ?_) fun _ => each_pure _
    exact (h.setDinode i (by intro; rfl)).bind fun _ => (h.iupdate i).bind fun _ => each_pure _

/-! ## Directories and paths -/

theorem readDirent {dp : Slot} (hdp : free dp) (off : Nat) {e : Panic}
    (he : e ≠ .filedup ∧ e ≠ .fileclose) : Each E R (readDirent sb me dp off e) := by
  refine (h.readi hdp off _).bind fun r => ?_
  cases r with
  | none => exact h.panic he
  | some bs => exact Each.ite (fun _ => each_pure _) fun _ => h.panic he

theorem dirlookup {dp : Slot} (hdp : free dp) (name : Name) : Each E R (dirlookup sb me dp name) := by
  have hloop : ∀ dev rounds off, Each E R (dirlookupFrom sb me dp dev name rounds off) := by
    intro dev rounds
    induction rounds with
    | zero => exact fun _ => each_pure _
    | succ rounds ih =>
      intro off
      refine (h.readDirent hdp off (by decide)).bind fun de => Each.ite (fun _ => ?_) fun _ => ih _
      exact (h.iget _ _).bind fun _ => each_pure _
  refine (h.readInode dp).bind fun ip => ?_
  refine Each.ite (fun _ => (h.panic (by decide)).bind fun _ => ?_) fun _ => ?_
  all_goals exact hloop _ _ _

theorem dirlink {dp : Slot} (hdp : free dp) (name : Name) (inum : Nat) :
    Each E R (dirlink sb me dp name inum) := by
  have hfree : ∀ rounds off, Each E R (dirfreeFrom sb me dp rounds off) := by
    intro rounds
    induction rounds with
    | zero => exact fun _ => each_pure _
    | succ rounds ih =>
      intro off
      refine (h.readDirent hdp off (by decide)).bind fun de => ?_
      exact Each.ite (fun _ => each_pure _) fun _ => ih _
  refine (h.dirlookup hdp name).bind fun r => ?_
  cases r with
  | some r => exact (h.iput r.1).bind fun _ => each_pure _
  | none =>
    refine (h.readInode dp).bind fun ip => (hfree _ _).bind fun off => ?_
    refine (h.writei hdp _ off _).bind fun r => ?_
    refine Each.ite (fun _ => (h.panic (by decide)).bind fun _ => ?_) fun _ => ?_
    all_goals exact each_pure _

/-! ## Transactions -/

theorem endOp : Each E R endOp := by
  refine Each.bind (each_atomic fun s => ?_) fun c =>
    Each.ite (fun _ => each_atomic fun s => h.log s _) fun _ => each_pure _
  unfold Log.endOpStart
  dsimp only
  split
  · exact h.stop _ ⟨nofun, nofun⟩
  · split <;> exact h.log s _

end Frame

end Xv6.Fs
