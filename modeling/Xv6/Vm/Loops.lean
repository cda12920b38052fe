import Xv6.Vm.Walk

/-!
# The loops of `vm.c` on addresses

`mappages` and `deallocuvm` count in addresses, with the arithmetic of `uint`: the first goes on until
it meets the last page, wherever that is, and the second jumps to the end of a table by way of an address before
it.  The model counts in pages.  Here are the loops as the source has them, with a bound on the rounds and `none`
when it is reached, and the proofs that they do the same where no address wraps around.

`deallocuvm` jumps over the pages of a table that is not there.  In every state, also where frames
are shared or entries are wrong, this is the same as to look at each of these pages (`deallocFrom_eq`).
-/

namespace Xv6.Vm

open Bytes Conc Prog

def PGROUNDDOWN (a : Nat) : Nat := a / PGSIZE * PGSIZE

def PGADDR (d t o : Nat) : Nat := uint (d <<< 22 ||| t <<< 12 ||| o)

/-! ## `mappages` -/

/-- The loop of `mappages`. -/
def mapLoop (pgdir last : Nat) (perm : Word) : Nat → Nat → Nat → V (Option Bool)
  | 0, _, _ => return none
  | fuel + 1, a, pa => do
    match ← walkpgdir pgdir (a / PGSIZE) true with
    | none => return some false
    | some (t, j) =>
      let pte ← word t j
      if present pte then .throw () .remap
      else
        setWord t j (BitVec.ofNat 32 pa ||| perm ||| PTE_P)
        if a = last then return some true
        else mapLoop pgdir last perm fuel (uint (a + PGSIZE)) (uint (pa + PGSIZE))

def mappagesLoop (fuel pgdir va size pa : Nat) (perm : Word) : V (Option Bool) :=
  mapLoop pgdir (PGROUNDDOWN (uint (va + size + (2 ^ 32 - 1)))) perm fuel (PGROUNDDOWN va) pa

theorem entry_eq (f : Nat) (perm : Word) :
    BitVec.ofNat 32 (uint (f * PGSIZE)) ||| perm ||| PTE_P = entry f (perm ||| PTE_P) := by
  have hmod : BitVec.ofNat 32 (uint (f * PGSIZE)) = BitVec.ofNat 32 (f * PGSIZE) := by
    refine BitVec.eq_of_toNat_eq ?_
    rw [BitVec.toNat_ofNat, BitVec.toNat_ofNat, Nat.mod_mod]
  rw [entry, BitVec.or_assoc, hmod]

theorem uint_add_page (f : Nat) : uint (uint (f * PGSIZE) + PGSIZE) = uint ((f + 1) * PGSIZE) := by
  simp only [uint, PGSIZE]
  omega

theorem mapLoop_succ {d last : Nat} {perm : Word} {k fuel n f : Nat}
    (hrest : ∀ s, (if n * PGSIZE = last then pure (some true)
      else mapLoop d last perm fuel (uint (n * PGSIZE + PGSIZE)) (uint ((f + 1) * PGSIZE))).run s =
        ((mapFrom d perm k (n + 1) (f + 1)).run s).bind fun r s' => .ok (some r) s') (s : Phys) :
    (mapLoop d last perm (fuel + 1) (n * PGSIZE) (uint (f * PGSIZE))).run s =
      ((mapFrom d perm (k + 1) n f).run s).bind fun r s' => .ok (some r) s' := by
  rw [mapLoop, mapFrom, Nat.mul_div_cancel _ (by decide), run_bind, run_bind]
  rcases (walkpgdir d n true).run s with ⟨o, s₁⟩ | e | _
  · cases o with
    | none => rfl
    | some tj =>
      obtain ⟨t, j⟩ := tj
      show run (if present (s₁.mem t j) then _ else _) s₁ =
        (run (if present (s₁.mem t j) then _ else _) s₁).bind _
      by_cases hp : present (s₁.mem t j) = true
      · rw [if_pos hp, if_pos hp]
        rfl
      · rw [if_neg hp, if_neg hp, entry_eq, uint_add_page]
        exact hrest _
  · rfl
  · rfl

theorem mapLoop_eq (d : Nat) (perm : Word) {k fuel n : Nat} (f : Nat) (hk : k < fuel) (hn : n + k < NPAGES)
    (s : Phys) : (mapLoop d ((n + k) * PGSIZE) perm fuel (n * PGSIZE) (uint (f * PGSIZE))).run s =
      ((mapFrom d perm (k + 1) n f).run s).bind fun r s' => .ok (some r) s' := by
  induction k generalizing fuel n f s with
  | zero =>
    obtain ⟨fuel, rfl⟩ := Nat.exists_eq_add_one_of_ne_zero (Nat.ne_of_gt hk)
    refine mapLoop_succ (fun s => ?_) s
    rw [Nat.add_zero, if_pos rfl]
    rfl
  | succ k ih =>
    obtain ⟨fuel, rfl⟩ := Nat.exists_eq_add_one_of_ne_zero (Nat.ne_of_gt (Nat.zero_lt_of_lt hk))
    refine mapLoop_succ (fun s => ?_) s
    have hne : n * PGSIZE ≠ (n + (k + 1)) * PGSIZE := by
      simp only [PGSIZE]
      omega
    have hnext : uint (n * PGSIZE + PGSIZE) = (n + 1) * PGSIZE := by
      simp only [PGSIZE, NPAGES, uint] at *
      omega
    rw [if_neg hne, hnext, show n + (k + 1) = n + 1 + k by omega]
    exact ih (f + 1) (by omega) (by omega) s

/-- Where the range does not wrap around, `mappages` ends after its last page. -/
theorem mappagesLoop_eq (d : Nat) (perm : Word) {fuel va size pa : Nat} (hva : va % PGSIZE = 0)
    (hpa : pa % PGSIZE = 0) (hpa' : pa < 2 ^ 32) (hsize : 0 < size) (hend : va + size ≤ 2 ^ 32)
    (hfuel : (size - 1) / PGSIZE < fuel) (s : Phys) :
    (mappagesLoop fuel d va size pa perm).run s =
      ((mappages d va size pa perm).run s).bind fun r s' => .ok (some r) s' := by
  obtain ⟨n, hn⟩ : ∃ n, va = n * PGSIZE := ⟨va / PGSIZE, by simp only [PGSIZE] at *; omega⟩
  obtain ⟨f, hf⟩ : ∃ f, pa = f * PGSIZE := ⟨pa / PGSIZE, by simp only [PGSIZE] at *; omega⟩
  obtain ⟨k, hk⟩ : ∃ k, k = (size - 1) / PGSIZE := ⟨_, rfl⟩
  have hlast : PGROUNDDOWN (uint (va + size + (2 ^ 32 - 1))) = (n + k) * PGSIZE := by
    simp only [PGROUNDDOWN, uint, PGSIZE] at *
    omega
  have hdown : PGROUNDDOWN va = n * PGSIZE := by
    rw [PGROUNDDOWN, hn, Nat.mul_div_cancel _ (by decide)]
  have hcount : uint (va + size - 1) / PGSIZE - va / PGSIZE + 1 = k + 1 := by
    simp only [uint, PGSIZE] at *
    omega
  have hlt : n + k < NPAGES := by
    simp only [PGSIZE, NPAGES] at *
    omega
  have hmod : pa = uint (f * PGSIZE) := by rw [← hf, uint, Nat.mod_eq_of_lt hpa']
  have hdiv : va / PGSIZE = n ∧ pa / PGSIZE = f := by
    simp only [PGSIZE] at *
    omega
  show (mapLoop d (PGROUNDDOWN (uint (va + size + (2 ^ 32 - 1)))) perm fuel (PGROUNDDOWN va) pa).run s =
    ((mapFrom d perm (uint (va + size - 1) / PGSIZE - va / PGSIZE + 1) (va / PGSIZE) (pa / PGSIZE)).run s).bind _
  rw [hlast, hdown, hcount, hdiv.1, hdiv.2, hmod]
  exact mapLoop_eq d perm f (by omega) hlt s

/-! ## `deallocuvm` -/

section Dealloc

variable (im : KernelImage)

def unmapPage (pgdir n : Nat) : V Unit := do
  match ← walkpgdir pgdir n false with
  | none => pure ()
  | some (t, j) =>
    let pte ← word t j
    if present pte then
      if frame pte = 0 then .throw () .kfree
      else
        kfree im (frame pte)
        setWord t j 0
    else pure ()

/-- One page after the other, `k` of them. -/
def unmapPages (pgdir n k : Nat) : V Unit := (List.range' n k).forM (unmapPage im pgdir)

def deallocLoop (pgdir oldsz : Nat) : Nat → Nat → V Bool
  | 0, _ => return false
  | fuel + 1, a => do
    if a < oldsz then
      match ← walkpgdir pgdir (a / PGSIZE) false with
      | none =>
        deallocLoop pgdir oldsz fuel
          (uint (uint (PGADDR (pdx (a / PGSIZE) + 1) 0 0 + (2 ^ 32 - PGSIZE)) + PGSIZE))
      | some (t, j) =>
        let pte ← word t j
        if present pte then
          if frame pte = 0 then .throw () .kfree
          else
            kfree im (frame pte)
            setWord t j 0
            deallocLoop pgdir oldsz fuel (uint (a + PGSIZE))
        else deallocLoop pgdir oldsz fuel (uint (a + PGSIZE))
    else return true

def deallocuvmLoop (fuel pgdir oldsz newsz : Nat) : V (Option Nat) := do
  if newsz ≥ oldsz then return some oldsz
  else if ← deallocLoop im pgdir oldsz fuel (PGROUNDUP newsz) then return some newsz
  else return none

variable {im} {d n k hi fuel : Nat} {s : Phys}

theorem run_walk (d n : Nat) (s : Phys) : (walkpgdir d n false).run s =
    .ok (if present (s.mem d (pdx n)) then some (frame (s.mem d (pdx n)), ptx n) else none) s := by
  unfold walkpgdir
  rw [run_bind]
  show run (if present (s.mem d (pdx n)) then _ else _) s = _
  by_cases hp : present (s.mem d (pdx n)) = true
  · rw [if_pos hp, if_pos hp]
    rfl
  · rw [if_neg hp, if_neg hp]
    rfl

theorem run_round (im : KernelImage) {α : Type} (d n : Nat) (jump next : V α) (s : Phys) :
    run (do
      match ← walkpgdir d n false with
      | none => jump
      | some (t, j) =>
        let pte ← word t j
        if present pte then
          if frame pte = 0 then .throw () .kfree
          else
            kfree im (frame pte)
            setWord t j 0
            next
        else next) s =
      if present (s.mem d (pdx n)) then ((unmapPage im d n).run s).bind fun _ s' => next.run s'
      else jump.run s := by
  unfold unmapPage
  rw [run_bind, run_bind, run_walk, Res.bind_ok, Res.bind_ok]
  by_cases hp : present (s.mem d (pdx n)) = true
  · rw [if_pos hp, if_pos hp]
    obtain ⟨t, ht⟩ : ∃ t, t = frame (s.mem d (pdx n)) := ⟨_, rfl⟩
    rw [← ht]
    show run (if present (s.mem t (ptx n)) then _ else _) s =
      (run (if present (s.mem t (ptx n)) then _ else _) s).bind _
    by_cases hpte : present (s.mem t (ptx n)) = true
    · rw [if_pos hpte, if_pos hpte]
      by_cases hzero : frame (s.mem t (ptx n)) = 0
      · rw [if_pos hzero, if_pos hzero]
        rfl
      · rw [if_neg hzero, if_neg hzero, run_bind, run_bind]
        rcases (kfree im (frame (s.mem t (ptx n)))).run s with ⟨_, s₁⟩ | e | _ <;> rfl
    · rw [if_neg hpte, if_neg hpte]
      rfl
  · rw [if_neg hp, if_neg hp]

theorem unmapPages_succ (d n k : Nat) :
    unmapPages im d n (k + 1) = unmapPage im d n >>= fun _ => unmapPages im d (n + 1) k := rfl

theorem run_unmapPage_absent (h : present (s.mem d (pdx n)) = false) :
    (unmapPage im d n).run s = .ok () s := by
  unfold unmapPage
  rw [run_bind, run_walk, h]
  rfl

theorem run_unmapPages_absent (j : Nat) (h : ∀ m, n ≤ m → m < n + j → present (s.mem d (pdx m)) = false) :
    (unmapPages im d n (j + k)).run s = (unmapPages im d (n + j) k).run s := by
  induction j generalizing n with
  | zero => rw [Nat.zero_add, Nat.add_zero]
  | succ j ih =>
    rw [Nat.add_right_comm, unmapPages_succ, run_bind, run_unmapPage_absent (h n le_rfl (by omega)),
      Res.bind_ok, ih fun m hm hlt => h m (by omega) (by omega), Nat.add_right_comm, Nat.add_assoc]

/-- In every state the loop does what it would do if it looked at every page. -/
theorem deallocFrom_eq (hfuel : hi ≤ (n + fuel) * PGSIZE) (s : Phys) :
    (deallocFrom im d hi fuel n).run s = (unmapPages im d n (pageUp hi - n)).run s := by
  induction fuel generalizing n s with
  | zero =>
    have hz : pageUp hi - n = 0 := by
      simp only [pageUp, PGSIZE] at *
      omega
    rw [hz]
    rfl
  | succ fuel ih =>
    have hnext : hi ≤ (n + 1 + fuel) * PGSIZE := by rwa [show n + 1 + fuel = n + (fuel + 1) by omega]
    unfold deallocFrom
    by_cases hlt : n * PGSIZE < hi
    swap
    · have hz : pageUp hi - n = 0 := by
        simp only [pageUp, PGSIZE] at *
        omega
      rw [if_neg hlt, hz]
      rfl
    rw [if_pos hlt]
    refine (run_round im d n _ _ s).trans ?_
    by_cases hp : present (s.mem d (pdx n)) = true
    · have hone : pageUp hi - n = pageUp hi - (n + 1) + 1 := by
        have := lt_pageUp_iff.2 hlt
        omega
      rw [if_pos hp, hone, unmapPages_succ, run_bind]
      simp only [ih hnext]
    · -- no table, and so no table for the pages up to the next one
      have habs : ∀ m, n ≤ m → m < (n / 1024 + 1) * 1024 → present (s.mem d (pdx m)) = false := by
        intro m hm hlt'
        rw [show pdx m = pdx n by simp only [pdx]; omega]
        simpa using hp
      have hnext' : hi ≤ ((n / 1024 + 1) * 1024 + fuel) * PGSIZE :=
        hfuel.trans (Nat.mul_le_mul_right _ (by omega))
      rw [if_neg hp, ih hnext']
      by_cases hlast : (n / 1024 + 1) * 1024 ≤ pageUp hi
      · rw [show pageUp hi - n = (n / 1024 + 1) * 1024 - n + (pageUp hi - (n / 1024 + 1) * 1024) by omega,
          run_unmapPages_absent _ fun m hm hlt' => habs m hm (by omega),
          show n + ((n / 1024 + 1) * 1024 - n) = (n / 1024 + 1) * 1024 by omega]
      · rw [show pageUp hi - (n / 1024 + 1) * 1024 = 0 by omega, ← Nat.add_zero (pageUp hi - n),
          run_unmapPages_absent _ fun m hm hlt' => habs m hm (by omega)]
        rfl

/-- It ends, and no address wraps around. -/
theorem deallocLoop_eq (hhi : hi ≤ KERNBASE) (hn : n ≤ USERPAGES) (hfuel : pageUp hi - n < fuel) (s : Phys) :
    (deallocLoop im d hi fuel (n * PGSIZE)).run s =
      ((deallocFrom im d hi fuel n).run s).bind fun _ s' => .ok true s' := by
  induction fuel generalizing n s with
  | zero => exact absurd hfuel (Nat.not_lt_zero _)
  | succ fuel ih =>
    unfold deallocLoop deallocFrom
    by_cases hlt : n * PGSIZE < hi
    swap
    · rw [if_neg hlt, if_neg hlt]
      rfl
    have hlt' := lt_pageUp_iff.2 hlt
    have hnU : n < USERPAGES := by
      simp only [USERPAGES, KERNBASE, PGSIZE] at *
      omega
    have hadd : uint (n * PGSIZE + PGSIZE) = (n + 1) * PGSIZE := by
      simp only [USERPAGES, KERNBASE, PGSIZE, uint] at *
      omega
    have hjump : uint (uint (PGADDR (pdx n + 1) 0 0 + (2 ^ 32 - PGSIZE)) + PGSIZE) =
        (n / 1024 + 1) * 1024 * PGSIZE := by
      have hshift : PGADDR (pdx n + 1) 0 0 = (n / 1024 + 1) * 1024 * PGSIZE := by
        rw [PGADDR, Nat.zero_shiftLeft, Nat.or_zero, Nat.or_zero, Nat.shiftLeft_eq]
        simp only [USERPAGES, KERNBASE, PGSIZE, uint, pdx] at *
        omega
      rw [hshift]
      simp only [USERPAGES, KERNBASE, PGSIZE, uint] at *
      omega
    rw [if_pos hlt, if_pos hlt, Nat.mul_div_cancel _ (by decide), hadd, hjump]
    refine (run_round im d n _ _ s).trans (.trans ?_ (congrArg (Res.bind · _) (run_round im d n _ _ s).symm))
    by_cases hp : present (s.mem d (pdx n)) = true
    · rw [if_pos hp, if_pos hp]
      rcases (unmapPage im d n).run s with ⟨_, s₁⟩ | e | _
      · exact ih hnU (by omega) s₁
      · rfl
      · rfl
    · rw [if_neg hp, if_neg hp]
      refine ih ?_ (by omega) s
      simp only [USERPAGES, KERNBASE, PGSIZE] at *
      omega

end Dealloc

end Xv6.Vm
