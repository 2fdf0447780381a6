import Jos.Kern.IpcRuns
import Jos.Kern.UserAssert

/-!
# Setting the registers of another environment

`sys_env_set_trapframe` copies a trap frame from the caller's memory.  The
check it makes before, `user_mem_assert`, is made on the environment whose
registers are set; the copy is made from the address space that is loaded, the
caller's.

* `Dereferences` — the call gets to the copy.
* `FrameSafe` — what is asked of it: the copy is made only if the caller may
  read the frame; if not, the caller is destroyed and the target is left alone;
  the kernel takes no page fault, and writes to no environment it has freed.
* `FrameArgOk` — when that holds.  For the caller itself the check is right
  unless the range wraps around the address space.  For a child, the caller
  must be able to read the frame and the child must pass the check.
* `set_trapframe_safe_iff` — so it is.
-/

namespace Jos

/-- The caller may read the frame. -/
def CallerReads (k : Kernel) (c : EnvIdx) (tf : Word) : Prop :=
  ∃ r, k.roots c = some r ∧ RangeAllowed k.pm r PTE_U tf 68#32

/-- The check on environment `e` refuses the frame. -/
def FrameRefused (k : Kernel) (e : EnvIdx) (tf : Word) : Prop :=
  ∃ r, k.roots e = some r ∧ Refuses k.pm r (PTE_U ||| PTE_U) tf 68#32

/-- `sys_env_set_trapframe` on `e` gets to the copy, in state `k₁`. -/
def Dereferences (cpu : ℕ) (envid tf : Word) (k : Kernel) (e : EnvIdx) (k₁ : Kernel) : Prop :=
  envid2env cpu envid true k = .ok (some e) ∧ userMemAssert cpu e tf 68#32 PTE_U k = .ok () k₁

/-- The registers as they are set. -/
def installedTf (frame : Trapframe) : Trapframe :=
  { frame with
    tfCs := frame.tfCs ||| 3#16
    tfEflags := frame.tfEflags &&& ~~~FL_IOPL_MASK ||| FL_IF }

section Call

variable {k k₁ : Kernel} {cpu : ℕ} {inp : Input} {envid tf : Word} {c e : EnvIdx}

/-- The copy. -/
theorem Dereferences.run (h : Dereferences cpu envid tf k e k₁) (inp : Input) :
    sysEnvSetTrapframe cpu inp envid tf k =
      if kernelReads k₁ cpu tf 68 then .ok 0#32 (k₁.setTf e fun _ => installedTf inp.frame)
      else .error (.panic .kernelFault) k₁ := by
  rw [sysEnvSetTrapframe, withEnv_ok h.1, run_bind_ok h.2, run_get_bind]
  by_cases hr : kernelReads k₁ cpu tf 68
  · rw [if_pos hr, if_neg (not_not.2 hr)]
    rfl
  · rw [if_neg hr, if_pos hr]
    rfl

/-- The check does not return. -/
theorem sysEnvSetTrapframe_exits {x : Exit} (he : envid2env cpu envid true k = .ok (some e))
    (h : userMemAssert cpu e tf 68#32 PTE_U k = .error x k₁) :
    sysEnvSetTrapframe cpu inp envid tf k = .error x k₁ := by
  rw [sysEnvSetTrapframe, withEnv_ok he, run_bind_error h]

end Call

/-- **The call is safe.** -/
structure FrameSafe (cpu : ℕ) (inp : Input) (envid tf : Word) (k : Kernel) (c : EnvIdx) :
    Prop where
  /-- The frame is copied only if the caller may read all of it. -/
  reads : ∀ e k₁, Dereferences cpu envid tf k e k₁ → CallerReads k c tf
  /-- If not, the caller is destroyed; another environment that is the target
  stays alive with the registers it had. -/
  denied : ∀ e, envid2env cpu envid true k = .ok (some e) → ¬ CallerReads k c tf →
    ∃ x k', sysEnvSetTrapframe cpu inp envid tf k = .error x k' ∧
      (k'.envs c).envStatus = .free ∧
      (e ≠ c → (k'.envs e).envTf = (k.envs e).envTf ∧ (k'.envs e).envStatus ≠ .free)
  /-- There is no page fault in the kernel. -/
  noFault : ∀ k', sysEnvSetTrapframe cpu inp envid tf k ≠ .error (.panic .kernelFault) k'
  /-- The environment that is written to is not one that was freed. -/
  notFreed : ∀ e k₁, Dereferences cpu envid tf k e k₁ → (k₁.envs e).envStatus ≠ .free

/-- **The arguments for which it is.** -/
def FrameArgOk (cpu : ℕ) (envid tf : Word) (k : Kernel) (c : EnvIdx) : Prop :=
  ∀ e, envid2env cpu envid true k = .ok (some e) →
    if e = c then CallerReads k c tf ∨ FrameRefused k c tf
    else CallerReads k c tf ∧ (FrameRefused k e tf → (k.envs e).envStatus = .running)

section Safe

variable {k : Kernel} {cpu : ℕ} {held : Finset ℕ} {inp : Input} {envid tf : Word} {c e : EnvIdx}

theorem CallerReads.kernelReads (h : CallerReads k c tf) (hc : k.curenv cpu = some c) :
    kernelReads k cpu tf 68 := by
  obtain ⟨r, hr, hall⟩ := h
  exact kernelReads_of_allowed hc hr hall

/-- Marking an environment changes no page table. -/
theorem CallerReads.kernelReads_dying (h : CallerReads k c tf) (hc : k.curenv cpu = some c)
    (a : Word) (e : EnvIdx) :
    Jos.kernelReads ((k.setCheckAddr a).setStatus e .dying) cpu tf 68 := by
  intro c' hc' r hr i hi
  have hroots : ((k.setCheckAddr a).setStatus e .dying).roots = k.roots :=
    Kernel.roots_modifyEnv rfl
  have hr' : k.roots c' = some r := (congrFun hroots c').symm.trans hr
  exact h.kernelReads hc c' hc' r hr' i hi

theorem frame_passes (hinv : KernelInv held (some cpu) k) (hst : (k.envs e).envStatus ≠ .free)
    (hok : ¬ FrameRefused k e tf) : userMemAssert cpu e tf 68#32 PTE_U k = .ok () k := by
  obtain ⟨r, hr⟩ := hinv.root hst
  exact userMemAssert_passes hinv hr fun hno => hok ⟨r, hr, hno⟩

theorem frame_refused (hinv : KernelInv held (some cpu) k) (hno : FrameRefused k e tf) :
    ∃ a, userMemAssert cpu e tf 68#32 PTE_U k = envDestroy cpu e (k.setCheckAddr a) := by
  obtain ⟨r, hr, hno⟩ := hno
  exact userMemAssert_refuses hinv hr hno

/-- The check on another environment returns, whatever it finds. -/
theorem other_dereferences (hinv : KernelInv held (some cpu) k) (hc : k.curenv cpu = some c)
    (he : envid2env cpu envid true k = .ok (some e)) (hne : e ≠ c) (tf : Word) :
    ∃ k₁, Dereferences cpu envid tf k e k₁ ∧
      (¬ FrameRefused k e tf ∧ k₁ = k ∨
       FrameRefused k e tf ∧ (k.envs e).envStatus = .running ∧
         (∃ a, k₁ = (k.setCheckAddr a).setStatus e .dying) ∨
       FrameRefused k e tf ∧ (k.envs e).envStatus ≠ .running ∧ (k₁.envs e).envStatus = .free) := by
  have hst := hinv.inUse (inUse_of_envid2env he)
  by_cases hno : FrameRefused k e tf
  · obtain ⟨a, hassert⟩ := frame_refused hinv hno
    have hcur : (k.setCheckAddr a).curenv cpu ≠ some e := fun h =>
      hne (Option.some.inj (h.symm.trans hc))
    obtain ⟨k₁, hrun, hcase⟩ := destroyed_other (hinv.setCheckAddr a) hcur hst
    refine ⟨k₁, ⟨he, hassert.trans hrun⟩, ?_⟩
    rcases hcase with ⟨hr, rfl⟩ | ⟨hr, hfree⟩
    · exact Or.inr (Or.inl ⟨hno, hr, a, rfl⟩)
    · exact Or.inr (Or.inr ⟨hno, hr, hfree⟩)
  · exact ⟨k, ⟨he, frame_passes hinv hst hno⟩, Or.inl ⟨hno, rfl⟩⟩

/-- The check on the caller returns, or the caller is gone. -/
theorem self_dereferences (hinv : KernelInv held (some cpu) k) (hc : k.curenv cpu = some c)
    (he : envid2env cpu envid true k = .ok (some c)) (tf : Word) :
    (¬ FrameRefused k c tf ∧ Dereferences cpu envid tf k c k) ∨
    (FrameRefused k c tf ∧ ∃ x k', userMemAssert cpu c tf 68#32 PTE_U k = .error x k' ∧
      (k'.envs c).envStatus = .free ∧ x ≠ .panic .kernelFault) := by
  have hst := hinv.cur_live cpu c hc
  by_cases hno : FrameRefused k c tf
  · obtain ⟨a, hassert⟩ := frame_refused hinv hno
    have hcur : (k.setCheckAddr a).curenv cpu = some c := hc
    obtain ⟨x, k', hrun, hfree, hx⟩ := destroyed_self (hinv.setCheckAddr a) hcur
    exact Or.inr ⟨hno, x, k', hassert.trans hrun, hfree, hx⟩
  · exact Or.inl ⟨hno, he, frame_passes hinv hst hno⟩

theorem envid2env_ne_none (hc : k.curenv cpu = some c) :
    envid2env cpu envid true k ≠ .ok none := by
  rw [envid2env, hc]
  split
  · simp
  · dsimp only
    split
    · simp
    · split <;> simp

/-- Nothing else happens when `envid` names no environment. -/
theorem badEnv_ne_fault {x : Errno} {k' : Kernel} (he : envid2env cpu envid true k = .error x) :
    sysEnvSetTrapframe cpu inp envid tf k ≠ .error (.panic .kernelFault) k' := by
  intro h
  simp only [sysEnvSetTrapframe, withEnv, run_get_bind, he] at h
  cases h

/-- The call is safe when it copies a frame that the caller may read. -/
theorem FrameSafe.of_reads {k₁ : Kernel} (hd : Dereferences cpu envid tf k e k₁)
    (hreads : CallerReads k c tf) (hk : kernelReads k₁ cpu tf 68)
    (hst : (k₁.envs e).envStatus ≠ .free) : FrameSafe cpu inp envid tf k c := by
  refine ⟨fun _ _ _ => hreads, fun _ _ hno => absurd hreads hno, fun k' h => ?_, ?_⟩
  · rw [hd.run, if_pos hk] at h
    cases h
  · intro e' k₁' hd'
    obtain rfl : e = e' := by
      have := hd.1.symm.trans hd'.1
      cases this
      rfl
    obtain rfl : k₁ = k₁' := by
      have := hd.2.symm.trans hd'.2
      cases this
      rfl
    exact hst

/-- It is safe when it destroys the caller. -/
theorem FrameSafe.of_destroyed {x : Exit} {k' : Kernel}
    (he : envid2env cpu envid true k = .ok (some c))
    (h : userMemAssert cpu c tf 68#32 PTE_U k = .error x k')
    (hfree : (k'.envs c).envStatus = .free) (hx : x ≠ .panic .kernelFault) :
    FrameSafe cpu inp envid tf k c := by
  have hnot : ∀ e k₁, ¬ Dereferences cpu envid tf k e k₁ := by
    rintro e k₁ ⟨he', hok⟩
    obtain rfl : c = e := by
      have := he.symm.trans he'
      cases this
      rfl
    rw [h] at hok
    cases hok
  have hrun : sysEnvSetTrapframe cpu inp envid tf k = .error x k' := sysEnvSetTrapframe_exits he h
  refine ⟨fun e k₁ hd => absurd hd (hnot e k₁), fun e he' _ => ?_, fun k₁ h₁ => ?_,
    fun e k₁ hd => absurd hd (hnot e k₁)⟩
  · refine ⟨x, k', hrun, hfree, fun hne => ?_⟩
    have := he.symm.trans he'
    cases this
    exact absurd rfl hne
  · rw [hrun] at h₁
    cases h₁
    exact hx rfl

end Safe

/-- **When `sys_env_set_trapframe` is safe.**  In every consistent state of the
kernel, for every caller and all arguments: if `envid` is the caller, the frame
must be one the caller may read, or one the check refuses; if it is another
environment, the caller must be able to read the frame, and the check must
accept it on the other, or only mark that one because it runs elsewhere. -/
theorem set_trapframe_safe_iff {k : Kernel} {cpu : ℕ} {held : Finset ℕ} {c : EnvIdx}
    (hinv : KernelInv held (some cpu) k) (hc : k.curenv cpu = some c) (inp : Input)
    (envid tf : Word) :
    FrameSafe cpu inp envid tf k c ↔ FrameArgOk cpu envid tf k c := by
  constructor
  · intro h e he
    split
    · next hec =>
      subst hec
      rcases self_dereferences hinv hc he tf with ⟨-, hd⟩ | ⟨hno, -⟩
      · exact Or.inl (h.reads _ _ hd)
      · exact Or.inr hno
    · next hne =>
      obtain ⟨k₁, hd, hcase⟩ := other_dereferences hinv hc he hne tf
      refine ⟨h.reads e k₁ hd, fun hno => ?_⟩
      rcases hcase with ⟨hok, -⟩ | ⟨-, hrun, -⟩ | ⟨-, -, hfree⟩
      · exact absurd hno hok
      · exact hrun
      · exact absurd hfree (h.notFreed e k₁ hd)
  · intro h
    cases he : envid2env cpu envid true k with
    | error x =>
      have hnone : ∀ e, envid2env cpu envid true k ≠ .ok (some e) := by simp [he]
      exact ⟨fun e _ hd => absurd hd.1 (hnone e), fun e he' => absurd he' (hnone e),
        fun _ => badEnv_ne_fault he, fun e _ hd => absurd hd.1 (hnone e)⟩
    | ok o =>
      cases o with
      | none => exact absurd he (envid2env_ne_none hc)
      | some e =>
        have hok := h e he
        by_cases hec : e = c
        · subst hec
          rw [if_pos rfl] at hok
          rcases self_dereferences hinv hc he tf with
            ⟨hpass, hd⟩ | ⟨hno, x, k', hrun, hfree, hx⟩
          · have hreads : CallerReads k e tf := hok.resolve_right hpass
            exact .of_reads hd hreads (hreads.kernelReads hc) (hinv.cur_live cpu e hc)
          · exact .of_destroyed he hrun hfree hx
        · rw [if_neg hec] at hok
          obtain ⟨hreads, hrunning⟩ := hok
          obtain ⟨k₁, hd, hcase⟩ := other_dereferences hinv hc he hec tf
          rcases hcase with ⟨-, rfl⟩ | ⟨-, hrun, a, rfl⟩ | ⟨hno, hrun, -⟩
          · exact .of_reads hd hreads (hreads.kernelReads hc) (hinv.inUse (inUse_of_envid2env he))
          · exact .of_reads hd hreads (hreads.kernelReads_dying hc a e)
              (by simp [Kernel.setStatus, Kernel.modifyEnv])
          · exact absurd (hrunning hno) hrun

/-- A running environment that passes a kernel address is destroyed. -/
theorem set_trapframe_safe_started : ∃ k₀ k held, Booted plainConfig k₀ ∧ Runs IpcCareful k₀ k ∧
    KernelInv held (some 0) k ∧ k.curenv 0 = some 0 ∧
    FrameSafe 0 noInput 0#32 0xf0000000#32 k 0 := by
  obtain ⟨k₀, k, held, hb, hr, hl⟩ := run_start
  have hinv : KernelInv held (some 0) k := hl.inv.enter 0
  have hc : k.curenv 0 = some 0 := hl.user.2
  refine ⟨k₀, k, held, hb, hr, hinv, hc,
    (set_trapframe_safe_iff hinv hc noInput 0#32 0xf0000000#32).2 fun e he => ?_⟩
  obtain rfl : 0 = e := by
    rw [envid2env, if_pos rfl, hc] at he
    cases he
    rfl
  obtain ⟨r, hroot⟩ := hinv.root (hinv.cur_live 0 _ hc)
  rw [if_pos rfl]
  exact Or.inr ⟨r, hroot, 0xf0000, by decide, by decide, pageTest_kernelPage⟩

/-! ## A new child -/

/-- The caller, in slot 0, has a child in slot 1, as `sys_exofork` makes it.
The one page that is mapped, for a stack, is mapped in the directory in page
`d`: 500 is the caller's, 510 the child's. -/
def spawnKernel (d : ℕ) : Kernel where
  pm :=
    { boot := ⟨32768, 160, 0x1E0000, 384⟩
      pages := fun _ => ⟨none, 1#16⟩
      pageFreeList := none
      mem := fun p i =>
        if p = d ∧ i = pdx (USTACKTOP - 68#32) then 0x1F5007#32
        else if p = 501 ∧ i = ptx (USTACKTOP - 68#32) then 0x1F6007#32
        else 0#32
      userMemCheckAddr := 0#32 }
  envs := fun e =>
    if e.val = 0 then
      { Env.zero with envId := 0x1000#32, envStatus := .running, envPgdir := some 500 }
    else if e.val = 1 then
      { Env.zero with
        envId := 0x1001#32
        envParentId := 0x1000#32
        envStatus := .notRunnable
        envPgdir := some 510 }
    else Env.zero
  envFreeList := none
  cpus := fun _ => ⟨.started, some 0⟩
  ticks := 0#32

/-- A directory without page tables is freed by doing nothing. -/
theorem freeTables_empty {pm : PhysMem} {r : ℕ}
    (h : ∀ d, d < utopDx → present (pm.mem r d) = false) : freeTables r pm = .ok () pm := by
  have hlist : ∀ l : List Idx, (∀ d ∈ l, d < utopDx) → l.forM (freeTable r) pm = .ok () pm := by
    intro l
    induction l with
    | nil => intro _; rfl
    | cons d l ih =>
      intro hl
      have hone : freeTable r d pm = .ok () pm := by
        rw [freeTable, run_get_bind, if_pos (by simp [h d (hl d List.mem_cons_self)])]
        rfl
      have hcons : (d :: l).forM (freeTable r) = freeTable r d >>= fun _ => l.forM (freeTable r) :=
        rfl
      rw [hcons, run_bind_ok hone]
      exact ih fun d' hd' => hl d' (List.mem_cons_of_mem _ hd')
  exact hlist _ fun d hd => mem_userPdes.1 hd

theorem spawnKernel_childEmpty (d : Idx) : present ((spawnKernel 500).pm.mem 510 d) = false := by
  have hmem : (spawnKernel 500).pm.mem 510 d = 0#32 := by
    rw [spawnKernel]
    dsimp only
    rw [if_neg (fun h => absurd h.1 (by decide)), if_neg (fun h => absurd h.1 (by decide))]
  rw [hmem, present_zero]

/-- The stack page of the caller. -/
theorem spawnKernel_reads :
    CallerReads (spawnKernel 500) 0 (USTACKTOP - 68#32) := by
  refine ⟨500, rfl, fun a ha hlt => ?_⟩
  have hlo : (USTACKTOP - 68#32).toNat = 0xEEBFDFBC := by decide
  have hlen : (68#32).toNat = 68 := by decide
  have hpage : a / 4096 = 0xEEBFD := by omega
  rw [allowed_iff (by omega), hpage]
  exact ⟨by decide, by decide⟩

/-- The check on the child frees it, and returns. -/
theorem spawnKernel_freed : ∃ k₁, Dereferences 0 0x1001#32 (USTACKTOP - 68#32) (spawnKernel 500)
      1 k₁ ∧ (k₁.envs 1).envStatus = .free ∧
      kernelReads k₁ 0 (USTACKTOP - 68#32) 68 := by
  have hcheck : withPgdir 1 (fun pgdir => onPm (userMemCheck pgdir
      (USTACKTOP - 68#32) 68#32 (PTE_U ||| PTE_U))) (spawnKernel 500)
      = .ok (.error .fault) ((spawnKernel 500).setCheckAddr (USTACKTOP - 68#32)) := rfl
  have htables : freeTables 510 ((spawnKernel 500).setCheckAddr (USTACKTOP - 68#32)).pm
      = .ok () ((spawnKernel 500).setCheckAddr (USTACKTOP - 68#32)).pm :=
    freeTables_empty fun d _ => spawnKernel_childEmpty d
  have hfree : ∃ k₁, envFree 0 1
      ((spawnKernel 500).setCheckAddr (USTACKTOP - 68#32)) = .ok () k₁ ∧
      (k₁.envs 1).envStatus = .free ∧ k₁.cpus = (spawnKernel 500).cpus ∧
      k₁.envs 0 = (spawnKernel 500).envs 0 ∧
      k₁.pm.mem = (spawnKernel 500).pm.mem := by
    have hdir : (((spawnKernel 500).setCheckAddr (USTACKTOP - 68#32)).envs
        1).envPgdir = some 510 := rfl
    simp only [envFree, run_get_bind, hdir]
    rw [run_bind_ok (onPm_ok htables)]
    exact ⟨_, rfl, rfl, rfl, rfl, rfl⟩
  obtain ⟨k₁, hrun, hst, hcpus, henv, hmem⟩ := hfree
  refine ⟨k₁, ⟨rfl, ?_⟩, hst, fun c hc r hr i hi => ?_⟩
  · rw [userMemAssert, run_bind_ok hcheck]
    show envDestroy 0 1 _ = _
    rw [envDestroy, run_get_bind, if_neg (by decide), run_bind_ok hrun, if_neg (by decide)]
    rfl
  · -- the caller's page tables are as they were
    have hc' : (spawnKernel 500).curenv 0 = some c := by
      rw [Kernel.curenv, ← hcpus]
      exact hc
    obtain rfl : (0 : EnvIdx) = c := Option.some.inj hc'
    rw [henv] at hr
    have hmap := spawnKernel_reads.kernelReads hc' _ hc' r hr i hi
    rw [mapped, hmem]
    exact hmap

/-- **A child without a stack is freed, and its registers are set.**  With a
stack where the caller has none, the kernel takes a page fault. -/
theorem set_trapframe_unsafe :
    (∃ k', sysEnvSetTrapframe 0 noInput 0x1001#32 (USTACKTOP - 68#32) (spawnKernel 500)
        = .ok 0#32 k' ∧ (k'.envs 1).envStatus = .free ∧
      (k'.envs 1).envTf = installedTf noInput.frame) ∧
    ¬ FrameSafe 0 noInput 0x1001#32 (USTACKTOP - 68#32) (spawnKernel 500) 0 ∧
    sysEnvSetTrapframe 0 noInput 0x1001#32 (USTACKTOP - 68#32) (spawnKernel 510)
      = .error (.panic .kernelFault) (spawnKernel 510) ∧
    ¬ FrameSafe 0 noInput 0x1001#32 (USTACKTOP - 68#32) (spawnKernel 510) 0 := by
  obtain ⟨k₁, hd, hfree, hreads⟩ := spawnKernel_freed
  have hfault : sysEnvSetTrapframe 0 noInput 0x1001#32 (USTACKTOP - 68#32) (spawnKernel 510)
      = .error (.panic .kernelFault) (spawnKernel 510) := by
    have hd₂ : Dereferences 0 0x1001#32 (USTACKTOP - 68#32) (spawnKernel 510) 1
        (spawnKernel 510) := ⟨rfl, rfl⟩
    have hunmapped : mapped (spawnKernel 510).pm 500 (USTACKTOP - 68#32) = false := by decide
    rw [hd₂.run, if_neg]
    intro h
    have h0 := h 0 rfl 500 rfl 0 (by decide)
    rw [BitVec.add_zero, hunmapped] at h0
    cases h0
  refine ⟨⟨_, (hd.run noInput).trans (if_pos hreads), ?_, ?_⟩, fun h => h.notFreed _ _ hd hfree,
    hfault, fun h => h.noFault _ hfault⟩
  · simpa [Kernel.setTf, Kernel.modifyEnv] using hfree
  · simp [Kernel.setTf, Kernel.modifyEnv]

end Jos
