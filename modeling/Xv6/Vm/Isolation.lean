import Xv6.Vm.Fork

/-!
# User code writes to its own pages only

Each page of the allocator has one role, so a store that goes through the page table of a process changes
one page of that process and nothing else: no page of another process, and no page table, kernel stack,
pipe buffer or link of the free list.
-/

namespace Xv6.Vm

open Bytes Conc Prog

variable {im : KernelImage} {strict : Prop} {m m' : Mach} {p q : Pid} {d n i : Nat} {w : Word}

theorem Inv.run_store (h : Inv im strict m) (hst : memStep im m (p, .store n i w) = .ok () m') :
    m.role (.user (.proc p) n) = some (frame (m.pteOf p n)) ∧
      m' = { m with phys := m.phys.setWord (frame (m.pteOf p n)) i w } := by
  unfold memStep at hst
  split at hst
  · next hrun =>
    have halive := alive_of_runnable hrun
    obtain ⟨d, hd, -, -, -, -⟩ := h.pgdir halive
    obtain ⟨_, m₁, hstore, hm⟩ := Res.bind_eq_ok.1 hst
    cases hm
    have hwp : wp (fun _ => True) (store p n i w) (fun _ m₁ => (n < USERPAGES ∧ present (m.phys.pteAt d n)) ∧
        m₁ = { m with phys := m.phys.setWord (frame (m.phys.pteAt d n)) i w }) m := by
      unfold store
      rw [wp_bind]
      refine wp_pgdirOf hd ?_
      rw [wp_bind, wp_mach]
      refine wp_ite (fun hpte => ?_) fun _ => wp_atomic.2 trivial
      rw [wp_bind, wp_phys, wp_setWord]
      exact ⟨⟨hpte.1, hpte.2.1⟩, rfl⟩
    obtain ⟨hpte, hm'⟩ := wp_ok hwp hstore
    refine ⟨?_, by rwa [pteOf_eq hd]⟩
    simp [Mach.role, Mach.dirOf, halive, hd, hpte, pteOf_eq hd]
  · cases hst

theorem Inv.store_mem (h : Inv im strict m) (hst : memStep im m (p, .store n i w) = .ok () m')
    {r : Role} {f : Nat} (hr : m.role r = some f) (hne : r ≠ .user (.proc p) n) :
    m'.phys.mem f = m.phys.mem f := by
  obtain ⟨huser, rfl⟩ := h.run_store hst
  have hf : f ≠ frame (m.pteOf p n) := fun he => hne (h.owns.inj _ _ f hr (he ▸ huser))
  exact Phys.setWord_ne m.phys i w hf

/-- So the page table of every directory is as it was. -/
theorem Inv.store_pteAt (h : Inv im strict m) (hst : memStep im m (p, .store n i w) = .ok () m')
    {o : Owner} (hd : m.dirOf o = some d) {k : Nat} (hk : pdx k < NPDENTRIES) :
    m'.phys.pteAt d k = m.phys.pteAt d k := by
  have hdir : m'.phys.mem d = m.phys.mem d := h.store_mem hst (r := .dir o) hd (by simp)
  rw [Phys.pteAt, Phys.pteAt, hdir]
  split
  · next hpr =>
    have htable : m.role (.table o (pdx k)) = some (frame (m.phys.mem d (pdx k))) := by
      simp [Mach.role, hd, hk, hpr]
    rw [h.store_mem hst htable (by simp)]
  · rfl

/-- **Isolation.**  After boot and any calls, a store of user code leaves every page with another role
as it is; the page tables do not change, and another process has the same bytes at the same addresses. -/
theorem store_isolated {cpus size : Nat} {initcode : Nat → Byte} {mem : Nat → Nat → Word} {m₀ : Mach}
    (hboot : (main im cpus initcode size).run (Mach.reset mem) = .ok () m₀)
    (hrun : Reaches (memStep im) (fun _ _ => True) m₀ m)
    (hst : memStep im m (p, .store n i w) = .ok () m') :
    m'.proc = m.proc ∧ (∀ r f, m.role r = some f → r ≠ .user (.proc p) n → m'.phys.mem f = m.phys.mem f) ∧
    ∀ q, (m.proc q).Alive → (∀ k < USERPAGES, m'.pteOf q k = m.pteOf q k) ∧
      (q ≠ p → ∀ va, va / PGSIZE < USERPAGES → present (m.pteOf q (va / PGSIZE)) = true →
        m'.byteAt q va = m.byteAt q va) := by
  have h : Inv im False m :=
    (inv_of_boot hboot).inv.reaches hrun fun _ _ _ hst => hst.elim
  have hproc : m'.proc = m.proc := by
    rw [(h.run_store hst).2]
  refine ⟨hproc, fun r f => h.store_mem hst, fun q hq => ?_⟩
  obtain ⟨d, hd, -, -, -, -⟩ := h.pgdir hq
  have hdir : m.dirOf (.proc q) = some d := by simp [Mach.dirOf, hq, hd]
  have hpte : ∀ k < USERPAGES, m'.pteOf q k = m.pteOf q k := by
    intro k hk
    rw [pteOf_eq hd, pteOf_eq (by rw [hproc, hd])]
    exact h.store_pteAt hst hdir (by simp only [pdx, USERPAGES, NPDENTRIES] at *; omega)
  refine ⟨hpte, fun hne va hva hpr => ?_⟩
  have huser : m.role (.user (.proc q) (va / PGSIZE)) = some (frame (m.pteOf q (va / PGSIZE))) := by
    rw [pteOf_eq hd] at hpr ⊢
    simp [Mach.role, hdir, hva, hpr]
  rw [Mach.byteAt, Mach.byteAt, hpte _ hva, h.store_mem hst huser (by simp [hne])]

/-- The first process stores to its page after boot; the directory of the kernel is as it was. -/
theorem store_isolated_boot : ∃ m₀ m,
    (main smallKernel 1 (fun _ => 0) 44).run (Mach.reset fun _ _ => 0) = .ok () m₀ ∧
    memStep smallKernel m₀ (m₀.initproc, .store 0 0 1) = .ok () m ∧
    m.phys.mem m₀.kpgdir = m₀.phys.mem m₀.kpgdir := by
  obtain ⟨m₀, hboot, h₀⟩ := boots False fun _ _ => 0
  obtain ⟨d, f, hd, hpte⟩ := h₀.page
  have hst := memStep_store smallKernel (i := 0) (w := 1) h₀.init hd (by decide) (flags_of_entry hpte)
  exact ⟨m₀, _, hboot, hst, (store_isolated hboot .refl hst).2.1 (.dir .kernel) _ rfl (by simp)⟩

end Xv6.Vm
