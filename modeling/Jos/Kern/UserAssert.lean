import Jos.Kern.EnvActs
import Jos.Kern.PmapRefine
import Jos.Kern.UserMem

/-!
# Following user pointers

The system calls that follow a pointer of the caller check it with
`user_mem_assert` first.  This module says what comes of it.

* `Refuses` — the loop of `user_mem_check` meets a page that fails its test.
* `userMemAssert_passes`, `userMemAssert_refuses` — the check returns, or
  destroys the environment that was checked.
* `destroyed_self` — an environment that destroys itself does not come back.
* `kernelReads_of_allowed` — what a user may read, the kernel can.
-/

namespace Jos

/-! ## The check -/

/-- The loop of `user_mem_check` stops at some page. -/
def Refuses (pm : PhysMem) (r : ℕ) (perm va len : Word) : Prop :=
  ∃ n, va.toNat / 4096 ≤ n ∧ n < stopPage va len ∧ pageTest pm r perm n = false

section Check

variable {pm : PhysMem} {r : ℕ} {perm va len : Word}

/-- A page of the kernel fails the test. -/
theorem pageTest_kernelPage : pageTest pm r perm 0xf0000 = false := by
  have hlim : decide (pageAddr 0xf0000 < ULIM) = false := by decide
  rw [pageTest, hlim]
  rfl

theorem userMemCheck_passes (pd : Pgdir pm) (h : ¬ Refuses pm pd.page perm va len) :
    userMemCheck pd.page va len perm pm = .ok (.ok ()) pm := by
  obtain ⟨res, pm', hrun, hscan⟩ := userMemCheck_spec pd va len perm
  cases hscan with
  | passed _ => exact hrun
  | stopped n hn hstop _ hfail => exact absurd ⟨n, hn, hstop, hfail⟩ h

theorem userMemCheck_refuses (pd : Pgdir pm) (h : Refuses pm pd.page perm va len) :
    ∃ a, userMemCheck pd.page va len perm pm
      = .ok (.error .fault) { pm with userMemCheckAddr := a } := by
  obtain ⟨res, pm', hrun, hscan⟩ := userMemCheck_spec pd va len perm
  cases hscan with
  | passed hall =>
    obtain ⟨n, hn, hstop, hfail⟩ := h
    rw [hall n hn hstop] at hfail
    cases hfail
  | stopped n _ _ _ _ => exact ⟨_, hrun⟩

end Check

/-! ## Destroying an environment -/

section Destroy

variable {k : Kernel} {cpu : ℕ} {held : Finset ℕ} {own : Option ℕ} {c e : EnvIdx}

/-- Where `user_mem_check` reports the address. -/
def Kernel.setCheckAddr (k : Kernel) (a : Word) : Kernel :=
  { k with pm := { k.pm with userMemCheckAddr := a } }

theorem KernelInv.root (h : KernelInv held own k) (hst : (k.envs e).envStatus ≠ .free) :
    ∃ r, k.roots e = some r :=
  Option.ne_none_iff_exists'.1 fun hnone => hst ((h.live e).2 hnone)

theorem KernelInv.setCheckAddr (h : KernelInv held own k) (a : Word) :
    KernelInv held own (k.setCheckAddr a) :=
  h.setPm (h.mem.congr_tables rfl (fun _ _ => rfl) h.mem.alloc)

theorem KernelInv.envFree_ok (h : KernelInv held own k) (cpu : ℕ)
    (hst : (k.envs e).envStatus ≠ .free) : ∃ pm, envFree cpu e k = .ok () (k.freed e pm) := by
  obtain ⟨r, hr⟩ := h.root hst
  obtain ⟨pm, hfree, -⟩ := envFree_spec h.mem hr
  exact ⟨pm, hfree⟩

/-- The scheduler does not wake a free slot. -/
theorem schedYield_free (hlive : ∀ e, (k.envs e).envStatus ≠ .free → ∃ r, k.roots e = some r)
    (hcur : k.curenv cpu = none) (hst : (k.envs c).envStatus = .free) :
    ∃ x k', schedYield cpu k = .error x k' ∧ (k'.envs c).envStatus = .free ∧
      x ≠ .panic .kernelFault := by
  rcases schedYield_cases k cpu with ⟨e, he, hrun⟩ | ⟨e, hce, -, -⟩ | hrun | hrun
  · have hne : c ≠ e := by
      rintro rfl
      rw [hst] at he
      cases he
    obtain ⟨r, hr⟩ := hlive e (by rw [he]; simp)
    have hr' : (k.setCpunum e cpu).roots e = some r := by
      rw [Kernel.setCpunum, Kernel.roots_modifyEnv rfl]
      exact hr
    rw [hrun, envRun_some hr']
    refine ⟨_, _, rfl, ?_, by simp⟩
    have hpark : (k.setCpunum e cpu).park cpu = k.setCpunum e cpu := by
      rw [Kernel.park]
      have hcur' : (k.setCpunum e cpu).curenv cpu = none := hcur
      rw [hcur']
    rw [Kernel.switched, hpark]
    simpa [Kernel.modifyEnv, Kernel.setCurenv, Kernel.setCpunum, hne] using hst
  · rw [hcur] at hce
    cases hce
  · rw [hrun, schedHalt, run_get_bind]
    split
    · exact ⟨_, _, rfl, hst, by simp⟩
    · exact ⟨_, _, rfl, hst, by simp⟩
  · exact ⟨_, _, hrun, hst, by simp⟩

/-- **`env_destroy` of the caller** frees it and runs somebody else. -/
theorem destroyed_self (h : KernelInv held own k) (hc : k.curenv cpu = some c) :
    ∃ x k', envDestroy cpu c k = .error x k' ∧ (k'.envs c).envStatus = .free ∧
      x ≠ .panic .kernelFault := by
  obtain ⟨pm, hfree⟩ := h.envFree_ok cpu (h.cur_live cpu c hc)
  have hinv := h.exit hc hfree
  have hst : (((k.freed c pm).setCurenv cpu none).envs c).envStatus = .free := freed_self
  obtain ⟨x, k', hrun, hst', hx⟩ := schedYield_free (fun e => hinv.root)
    (Kernel.curenv_setCurenv _ cpu none) hst
  refine ⟨x, k', ?_, hst', hx⟩
  rw [envDestroy, run_get_bind, if_neg (fun hrun => hrun.2 hc), run_bind_ok hfree, if_pos hc,
    run_modify_bind]
  exact hrun

/-- `env_destroy` of another environment returns: it is marked if it runs
elsewhere, and freed otherwise. -/
theorem destroyed_other (h : KernelInv held own k) (hne : k.curenv cpu ≠ some e)
    (hst : (k.envs e).envStatus ≠ .free) :
    ∃ k', envDestroy cpu e k = .ok () k' ∧
      ((k.envs e).envStatus = .running ∧ k' = k.setStatus e .dying ∨
       (k.envs e).envStatus ≠ .running ∧ (k'.envs e).envStatus = .free) := by
  by_cases hrun : (k.envs e).envStatus = .running
  · refine ⟨k.setStatus e .dying, ?_, Or.inl ⟨hrun, rfl⟩⟩
    rw [envDestroy, run_get_bind, if_pos ⟨hrun, hne⟩]
    rfl
  · obtain ⟨pm, hfree⟩ := h.envFree_ok cpu hst
    refine ⟨k.freed e pm, ?_, Or.inr ⟨hrun, freed_self⟩⟩
    rw [envDestroy, run_get_bind, if_neg (fun hc => hrun hc.1), run_bind_ok hfree, if_neg hne]
    rfl

/-! ## `user_mem_assert` -/

variable {r : ℕ} {va len perm : Word}

theorem userMemAssert_passes (h : KernelInv held own k) (hr : k.roots e = some r)
    (hok : ¬ Refuses k.pm r (perm ||| PTE_U) va len) :
    userMemAssert cpu e va len perm k = .ok () k := by
  have hcheck : onPm (userMemCheck r va len (perm ||| PTE_U)) k = .ok (.ok ()) k :=
    onPm_ok (userMemCheck_passes (h.mem.pgdir hr) hok)
  have hdir := (withPgdir_some hr fun pgdir =>
    onPm (userMemCheck pgdir va len (perm ||| PTE_U))).trans hcheck
  rw [userMemAssert, run_bind_ok hdir]
  rfl

theorem userMemAssert_refuses (h : KernelInv held own k) (hr : k.roots e = some r)
    (hno : Refuses k.pm r (perm ||| PTE_U) va len) :
    ∃ a, userMemAssert cpu e va len perm k = envDestroy cpu e (k.setCheckAddr a) := by
  obtain ⟨a, hrun⟩ := userMemCheck_refuses (h.mem.pgdir hr) hno
  have hcheck : onPm (userMemCheck r va len (perm ||| PTE_U)) k
      = .ok (.error .fault) (k.setCheckAddr a) := onPm_ok hrun
  have hdir := (withPgdir_some hr fun pgdir =>
    onPm (userMemCheck pgdir va len (perm ||| PTE_U))).trans hcheck
  refine ⟨a, ?_⟩
  rw [userMemAssert, run_bind_ok hdir]

/-! ## Reading -/

/-- A byte that may be accessed is mapped. -/
theorem mapped_of_allowed {pm : PhysMem} {a : ℕ} (h : Allowed pm r perm a) :
    mapped pm r (BitVec.ofNat 32 a) = true := by
  obtain ⟨hlim, htest, -⟩ := h
  rw [ULIM_toNat] at hlim
  have hpage : pgnum (BitVec.ofNat 32 a) = pgnum (pageAddr (a / 4096)) := by
    rw [pgnum_eq, pgnum_eq, pageAddr_toNat (by omega), BitVec.toNat_ofNat]
    omega
  obtain ⟨hd, ht⟩ := indexes_of_pgnum_eq hpage
  rw [pageTest] at htest
  simp only [Bool.and_eq_true] at htest
  rw [mapped, hd, ht, htest.1.1.2, htest.1.2]
  rfl

/-- What the caller may read, the kernel can. -/
theorem kernelReads_of_allowed (hc : k.curenv cpu = some c) (hr : k.roots c = some r)
    (h : RangeAllowed k.pm r perm va len) : kernelReads k cpu va len.toNat := by
  intro c' hc' r' hr' i hi
  obtain rfl : c = c' := Option.some.inj (hc.symm.trans hc')
  obtain rfl : r = r' := Option.some.inj (hr.symm.trans hr')
  have hmap := mapped_of_allowed (h (va.toNat + i) (by omega) (by omega))
  rwa [BitVec.ofNat_add, BitVec.ofNat_toNat, BitVec.setWidth_eq] at hmap

end Destroy

end Jos
