import Jos.Kern.KernelInv

/-!
# What a step does to the environments

`Act` says what a kernel entry does to memory and to the environments.  For
what holds of the environments alone (who waits for a message, what the saved
registers are) less has to be known about memory and more about the records:
which registers are changed, and how.  This module says that.

* `EnvAct` — the acts of all system calls but two, as changes to the records.
* `sysIpcTrySend_cases` and `sysIpcRecv_cases` — what the two calls of IPC do,
  exactly: they are the only ones that touch the fields of a message.
* `env_step_cases` — a step of the machine is one of six things.

An act that takes a slot into use and one that frees a slot do not happen in
the same kernel entry; `forks` says which it is.

Two conditions of the callers are carried along as assumptions: `calm`, that
`sys_env_set_status` makes no environment runnable that waits for a message,
and `tame`, that the frames installed by `sys_env_set_trapframe` and copied by
`sys_exofork` are frames of unprivileged user code.  The code checks neither.
-/

namespace Jos

/-! ## Frames of user code -/

/-- The selectors of user code. -/
structure UserSelectors (tf : Trapframe) : Prop where
  cs : tf.tfCs = GD_UT ||| 3#16
  ss : tf.tfSs = GD_UD ||| 3#16

/-- The I/O privilege level of a frame. -/
def Trapframe.iopl (tf : Trapframe) : Word := tf.tfEflags &&& FL_IOPL_MASK

/-- Are interrupts enabled? -/
def Trapframe.intr (tf : Trapframe) : Word := tf.tfEflags &&& FL_IF

/-- What `sys_env_set_trapframe` makes of a frame it is given. -/
def Trapframe.sanitised (tf : Trapframe) : Trapframe :=
  { tf with
    tfCs := tf.tfCs ||| 3#16
    tfEflags := tf.tfEflags &&& ~~~FL_IOPL_MASK ||| FL_IF }

/-! ## The acts -/

namespace Kernel

/-- The state after `sys_exofork`: slot `e` is in use, with page directory `p`
and memory `pm`. -/
def forked (k : Kernel) (c e : EnvIdx) (p : ℕ) (pm : PhysMem) : Kernel :=
  let k₁ := k.allocated e p pm (k.envs c).envId
  k₁.modifyEnv e fun env =>
    { env with envStatus := .notRunnable, envTf := (k₁.envs c).envTf.setEax 0#32 }

end Kernel

/-- **The acts of the kernel on environments**, other than IPC. -/
inductive EnvAct (calm tame forks : Prop) (cpu : ℕ) (k : Kernel) : Kernel → Prop
  | mem (pm : PhysMem) : EnvAct calm tame forks cpu k { k with pm := pm }
  | tick (t : Word) : EnvAct calm tame forks cpu k { k with ticks := t }
  /-- `sys_env_set_status`. -/
  | setStatus {e : EnvIdx} {s : EnvStatus} : k.InUse cpu e → s = .runnable ∨ s = .notRunnable →
      (calm → s = .runnable → (k.envs e).envIpcRecving = false) →
      EnvAct calm tame forks cpu k (k.setStatus e s)
  /-- `sys_env_set_trapframe`. -/
  | resetTf {e : EnvIdx} {frame : Trapframe} : (tame → UserSelectors frame.sanitised) →
      EnvAct calm tame forks cpu k (k.setTf e fun _ => frame.sanitised)
  /-- The upcall of `page_fault_handler`. -/
  | upcall {c : EnvIdx} {eip esp : Word} : k.curenv cpu = some c →
      EnvAct calm tame forks cpu k (k.setTf c fun tf => { tf with tfEip := eip, tfEsp := esp })
  /-- The result of a system call. -/
  | setEax {c : EnvIdx} {w : Word} : k.curenv cpu = some c →
      EnvAct calm tame forks cpu k (k.setTf c fun tf => tf.setEax w)
  /-- `sys_env_set_pgfault_upcall`. -/
  | setUpcall {e : EnvIdx} {w : Word} :
      EnvAct calm tame forks cpu k (k.modifyEnv e fun env => { env with envPgfaultUpcall := w })
  /-- `sys_exofork`. -/
  | fork {c e : EnvIdx} {p : ℕ} {pm : PhysMem} : forks → k.curenv cpu = some c →
      (k.envs e).envStatus = .free → (tame → (k.envs c).envTf.iopl = 0#32) →
      EnvAct calm tame forks cpu k (k.forked c e p pm)
  /-- `env_destroy` of an environment that runs on another CPU. -/
  | mark {e : EnvIdx} : ¬ forks → (k.envs e).envStatus = .running →
      EnvAct calm tame forks cpu k (k.setStatus e .dying)
  /-- `env_destroy` of any other environment. -/
  | free {e : EnvIdx} {pm : PhysMem} : ¬ forks → k.curenv cpu ≠ some e →
      EnvAct calm tame forks cpu k (k.freed e pm)
  /-- The end of the environment itself. -/
  | exit {c : EnvIdx} {pm : PhysMem} : ¬ forks → k.curenv cpu = some c →
      EnvAct calm tame forks cpu k ((k.freed c pm).setCurenv cpu none)

/-! ## What acts leave alone -/

/-- What the CPU runs is live. -/
def CurLive (cpu : ℕ) (k : Kernel) : Prop :=
  ∀ c, k.curenv cpu = some c → (k.envs c).envStatus ≠ .free

/-- The record of `e` is the same, but for the status, the registers and the upcall. -/
def SameRecord (e : EnvIdx) (k k' : Kernel) : Prop :=
  k'.envs e = { k.envs e with
    envStatus := (k'.envs e).envStatus
    envTf := (k'.envs e).envTf
    envPgfaultUpcall := (k'.envs e).envPgfaultUpcall }

variable {e : EnvIdx} {k k' : Kernel} {pm : PhysMem} {cpu : ℕ} {envid va perm srcva : Word}

theorem SameRecord.of_eq (h : k'.envs e = k.envs e) : SameRecord e k k' := by
  rw [SameRecord, h]

theorem SameRecord.trans {k'' : Kernel} (h : SameRecord e k k') (h' : SameRecord e k' k'') :
    SameRecord e k k'' := by
  rw [SameRecord, h', h]

section Records

variable {calm tame forks : Prop} {cpu : ℕ} {k k' : Kernel} {e e' : EnvIdx}

variable {f : Env → Env}

theorem SameRecord.modifyEnv
    (h : f (k.envs e') = { k.envs e' with
      envStatus := (f (k.envs e')).envStatus
      envTf := (f (k.envs e')).envTf
      envPgfaultUpcall := (f (k.envs e')).envPgfaultUpcall }) :
    SameRecord e k (k.modifyEnv e' f) := by
  by_cases he : e = e'
  · subst he
    have hself : (k.modifyEnv e f).envs e = f (k.envs e) := by simp [Kernel.modifyEnv]
    rw [SameRecord, hself]
    exact h
  · exact .of_eq (by simp [Kernel.modifyEnv, he])

/-- A change to one record, if it is not that of a free slot. -/
theorem live_of_modifyEnv (h : (f (k.envs e')).envStatus ≠ .free → (k.envs e').envStatus ≠ .free)
    (hlive : ((k.modifyEnv e' f).envs e).envStatus ≠ .free) : (k.envs e).envStatus ≠ .free := by
  by_cases he : e = e'
  · subst he
    refine h ?_
    simpa [Kernel.modifyEnv] using hlive
  · simpa [Kernel.modifyEnv, he] using hlive

theorem modifyEnv_live (h : (k.envs e').envStatus ≠ .free → (f (k.envs e')).envStatus ≠ .free)
    (hlive : (k.envs e).envStatus ≠ .free) : ((k.modifyEnv e' f).envs e).envStatus ≠ .free := by
  by_cases he : e = e'
  · subst he
    simpa [Kernel.modifyEnv] using h hlive
  · simpa [Kernel.modifyEnv, he] using hlive

theorem forked_of_ne {c : EnvIdx} {p : ℕ} (he : e ≠ e') :
    (k.forked c e' p pm).envs e = k.envs e := by
  simp [Kernel.forked, Kernel.allocated, Kernel.modifyEnv, he]

theorem freed_of_ne (he : e ≠ e') : (k.freed e' pm).envs e = k.envs e := by
  simp [Kernel.freed, Kernel.modifyEnv, he]

theorem freed_self : ((k.freed e pm).envs e).envStatus = .free := by
  simp [Kernel.freed, Kernel.modifyEnv]

/-- **What an act does to a record.**  The environment was there before, unless the act
has created it. -/
theorem EnvAct.record (ha : EnvAct calm tame forks cpu k k') (hcur : CurLive cpu k)
    (hlive : (k'.envs e).envStatus ≠ .free) :
    (k.envs e).envStatus ≠ .free ∧ SameRecord e k k' ∨ forks ∧ (k.envs e).envStatus = .free := by
  cases ha with
  | mem pm => exact Or.inl ⟨hlive, .of_eq rfl⟩
  | tick t => exact Or.inl ⟨hlive, .of_eq rfl⟩
  | @setStatus e' s huse hs _ =>
    exact Or.inl ⟨live_of_modifyEnv (fun _ => huse.elim id (hcur e')) hlive, .modifyEnv rfl⟩
  | resetTf _ => exact Or.inl ⟨live_of_modifyEnv id hlive, .modifyEnv rfl⟩
  | upcall _ => exact Or.inl ⟨live_of_modifyEnv id hlive, .modifyEnv rfl⟩
  | setEax _ => exact Or.inl ⟨live_of_modifyEnv id hlive, .modifyEnv rfl⟩
  | setUpcall => exact Or.inl ⟨live_of_modifyEnv id hlive, .modifyEnv rfl⟩
  | @fork c e' p pm hf hc hst _ =>
    by_cases he : e = e'
    · exact Or.inr ⟨hf, he ▸ hst⟩
    · exact Or.inl ⟨forked_of_ne he ▸ hlive, .of_eq (forked_of_ne he)⟩
  | mark _ hrun =>
    exact Or.inl ⟨live_of_modifyEnv (fun _ => by simp [hrun]) hlive, .modifyEnv rfl⟩
  | @free e' pm _ _ =>
    have he : e ≠ e' := fun heq => hlive (heq ▸ freed_self)
    rw [freed_of_ne he] at hlive
    exact Or.inl ⟨hlive, .of_eq (freed_of_ne he)⟩
  | @exit c pm _ _ =>
    have he : e ≠ c := fun heq => hlive (heq ▸ freed_self)
    have heq : ((k.freed c pm).setCurenv cpu none).envs e = k.envs e := freed_of_ne he
    exact Or.inl ⟨heq ▸ hlive, .of_eq heq⟩

/-- A kernel entry that creates an environment frees none. -/
theorem EnvAct.stays_live (ha : EnvAct calm tame forks cpu k k') (hf : forks)
    (hlive : (k.envs e).envStatus ≠ .free) : (k'.envs e).envStatus ≠ .free := by
  cases ha with
  | mem pm => exact hlive
  | tick t => exact hlive
  | setStatus _ hs _ => exact modifyEnv_live (fun _ => by rcases hs with rfl | rfl <;> simp) hlive
  | resetTf _ => exact modifyEnv_live id hlive
  | upcall _ => exact modifyEnv_live id hlive
  | setEax _ => exact modifyEnv_live id hlive
  | setUpcall => exact modifyEnv_live id hlive
  | @fork c e' p pm _ _ hst _ =>
    have he : e ≠ e' := fun heq => hlive (heq ▸ hst)
    rw [forked_of_ne he]
    exact hlive
  | mark hnf _ => exact absurd hf hnf
  | free hnf _ => exact absurd hf hnf
  | exit hnf _ => exact absurd hf hnf

/-- What the CPU runs stays live. -/
theorem EnvAct.curLive (ha : EnvAct calm tame forks cpu k k') (h : CurLive cpu k) :
    CurLive cpu k' := by
  cases ha with
  | mem pm => exact h
  | tick t => exact h
  | setStatus _ hs _ =>
    exact fun c hc => modifyEnv_live (fun _ => by rcases hs with rfl | rfl <;> simp) (h c hc)
  | resetTf _ => exact fun c hc => modifyEnv_live id (h c hc)
  | upcall _ => exact fun c hc => modifyEnv_live id (h c hc)
  | setEax _ => exact fun c hc => modifyEnv_live id (h c hc)
  | setUpcall => exact fun c hc => modifyEnv_live id (h c hc)
  | @fork c e' p pm _ _ hst _ =>
    intro c' hc'
    have he : c' ≠ e' := fun heq => h c' hc' (heq ▸ hst)
    rw [forked_of_ne he]
    exact h c' hc'
  | mark _ _ => exact fun c hc => modifyEnv_live (fun _ => by simp) (h c hc)
  | @free e' pm _ hne =>
    intro c hc
    have he : c ≠ e' := fun heq => hne (heq ▸ hc)
    rw [freed_of_ne he]
    exact h c hc
  | exit _ _ =>
    intro c hc
    rw [Kernel.curenv_setCurenv] at hc
    cases hc

open Relation in
theorem curLive_acts (ha : ReflTransGen (EnvAct calm tame forks cpu) k k') (h : CurLive cpu k) :
    CurLive cpu k' := by
  induction ha with
  | refl => exact h
  | tail _ ha ih => exact ha.curLive ih

open Relation in
/-- **An environment that is there before and after has kept its record.** -/
theorem record_acts (ha : ReflTransGen (EnvAct calm tame forks cpu) k k') (h : CurLive cpu k)
    (hlive : (k.envs e).envStatus ≠ .free) (hlive' : (k'.envs e).envStatus ≠ .free) :
    SameRecord e k k' := by
  by_cases hf : forks
  · -- nobody is freed, so it was there all the time
    suffices hall : (k'.envs e).envStatus ≠ .free ∧ SameRecord e k k' from hall.2
    clear hlive'
    induction ha with
    | refl => exact ⟨hlive, .of_eq rfl⟩
    | tail hpre ha ih =>
      obtain ⟨h₁, hsame⟩ := ih
      have h₂ := ha.stays_live hf h₁
      rcases ha.record (curLive_acts hpre h) h₂ with ⟨-, hrec⟩ | ⟨-, hfree⟩
      · exact ⟨h₂, hsame.trans hrec⟩
      · exact absurd hfree h₁
  · -- nobody is created, so it was there all the time
    suffices hall : (k.envs e).envStatus ≠ .free ∧ SameRecord e k k' from hall.2
    clear hlive
    induction ha with
    | refl => exact ⟨hlive', .of_eq rfl⟩
    | tail hpre ha ih =>
      rcases ha.record (curLive_acts hpre h) hlive' with ⟨h₁, hrec⟩ | ⟨hf', -⟩
      · exact ⟨(ih h₁).1, (ih h₁).2.trans hrec⟩
      · exact absurd hf' hf

end Records

/-! ## Creating and freeing, whatever memory looks like -/

/-- `env_free`, when it returns. -/
theorem envFree_inv {u : Unit} (h : envFree cpu e k = .ok u k') : ∃ pm, k' = k.freed e pm := by
  rw [envFree, run_get_bind] at h
  cases hdir : (k.envs e).envPgdir with
  | none =>
    simp only [hdir] at h
    cases h
  | some r =>
    simp only [hdir] at h
    obtain ⟨_, pm₁, -, h⟩ := onPm_bind_inv h
    rw [run_modify_bind] at h
    obtain ⟨pp, pm₂, -, h⟩ := onPm_bind_inv h
    obtain ⟨_, pm₃, -, h⟩ := onPm_bind_inv h
    rw [run_modify_bind, run_modify] at h
    cases h
    refine ⟨pm₃, ?_⟩
    simp only [Kernel.freed, Kernel.modifyEnv, Function.update_self, Function.update_idem]

/-- `env_setup_vm`, when it succeeds. -/
theorem envSetupVm_inv (h : envSetupVm e k = .ok (.ok ()) k') :
    ∃ p pm, k' = { k with pm := pm }.modifyEnv e fun env => { env with envPgdir := some p } := by
  obtain ⟨o, pm₁, -, h⟩ := onPm_bind_inv h
  cases o with
  | none => cases h
  | some p =>
    obtain ⟨kva, pm₂, -, h⟩ := onPm_bind_inv h
    rw [run_modify_bind] at h
    obtain ⟨_, pm₃, -, h⟩ := onPm_bind_inv h
    obtain ⟨_, pm₄, -, h⟩ := onPm_bind_inv h
    cases h
    exact ⟨kva, pm₄, rfl⟩

/-- `env_alloc`, when it succeeds. -/
theorem envAlloc_ok_inv {parentId : Word} (h : envAlloc parentId k = .ok (.ok e) k') :
    k.envFreeList = some e ∧ ∃ p pm, k' = k.allocated e p pm parentId := by
  rw [envAlloc, run_get_bind] at h
  cases hf : k.envFreeList with
  | none =>
    simp only [hf] at h
    cases h
  | some e' =>
    simp only [hf] at h
    obtain ⟨res, k₁, h₁, h⟩ := run_bind_inv h
    cases res with
    | error x => cases h
    | ok u =>
      obtain ⟨p, pm, rfl⟩ := envSetupVm_inv h₁
      cases h
      refine ⟨rfl, p, pm, ?_⟩
      simp only [Kernel.allocated, Kernel.modifyEnv, Function.update_self, Function.update_idem]

/-! ## Calls that change memory only -/

/-- Only physical memory differs. -/
def OnlyPm (k k' : Kernel) : Prop := ∃ pm, k' = { k with pm := pm }

instance : IsTrans Kernel OnlyPm where
  trans _ _ _ := by
    rintro ⟨pm, rfl⟩ ⟨pm', rfl⟩
    exact ⟨pm', rfl⟩

theorem OnlyPm.refl (k : Kernel) : OnlyPm k k := ⟨k.pm, rfl⟩

section OnlyPm

variable {α : Type}

theorem onlyPm_onPm {x : PhysM α} : Stays OnlyPm (onPm x) := stays_onPm fun _ pm => ⟨pm, rfl⟩

theorem onlyPm_pure {a : α} : Stays OnlyPm (pure a) := stays_pure .refl

theorem onlyPm_ite {c : Prop} [Decidable c] {x y : KernelM α} (hx : Stays OnlyPm x)
    (hy : Stays OnlyPm y) : Stays OnlyPm (if c then x else y) := by
  split
  · exact hx
  · exact hy

theorem onlyPm_withEnv {b : Bool} {f : EnvIdx → KernelM Word} (h : ∀ e, Stays OnlyPm (f e)) :
    Stays OnlyPm (withEnv cpu envid b f) := by
  rw [withEnv]
  refine stays_get_bind fun k => ?_
  cases envid2env cpu envid b k with
  | error r => exact onlyPm_pure
  | ok o =>
    cases o with
    | none => exact stays_throw (by simp)
    | some e => exact h e

theorem onlyPm_sysPageAlloc : Stays OnlyPm (sysPageAlloc cpu envid va perm) := by
  refine onlyPm_withEnv fun e => onlyPm_ite onlyPm_pure (onlyPm_ite onlyPm_pure ?_)
  refine stays_bind onlyPm_onPm fun o => ?_
  cases o with
  | none => exact onlyPm_pure
  | some pg =>
    refine stays_bind (stays_withPgdir fun _ => onlyPm_onPm) fun o => ?_
    cases o with
    | ok u => exact onlyPm_pure
    | error x => exact stays_bind onlyPm_onPm fun _ => onlyPm_pure

theorem onlyPm_sysPageMap {srcenvid dstenvid dstva : Word} :
    Stays OnlyPm (sysPageMap cpu srcenvid srcva dstenvid dstva perm) := by
  refine onlyPm_withEnv fun s => onlyPm_withEnv fun e => ?_
  refine onlyPm_ite onlyPm_pure (onlyPm_ite onlyPm_pure ?_)
  refine stays_bind (stays_withPgdir fun _ => onlyPm_onPm) fun o => ?_
  cases o with
  | none => exact onlyPm_pure
  | some x =>
    refine stays_get_bind fun k => onlyPm_ite onlyPm_pure ?_
    refine stays_bind (stays_withPgdir fun _ => onlyPm_onPm) fun o => ?_
    cases o <;> exact onlyPm_pure

theorem onlyPm_sysPageUnmap : Stays OnlyPm (sysPageUnmap cpu envid va) := by
  refine onlyPm_withEnv fun e => onlyPm_ite onlyPm_pure ?_
  exact stays_bind (stays_withPgdir fun _ => onlyPm_onPm) fun _ => onlyPm_pure

end OnlyPm

/-! ## The other calls -/

section Calls

open Relation

variable {calm tame forks : Prop} {cpu : ℕ} {k : Kernel}

theorem does_of_onlyPm {α : Type} {x : KernelM α} (h : Stays OnlyPm x) :
    Does (EnvAct calm tame forks cpu) cpu x k := by
  constructor
  cases hx : x k with
  | ok a k' =>
    obtain ⟨pm, rfl⟩ := h.returns hx
    exact (wp_of_ok hx).2 ⟨.single (.mem pm), rfl⟩
  | error ex k' => exact (wp_of_error hx).2 fun hex => absurd hex (h.not_left hx)

theorem envActs_envDestroy (hnf : ¬ forks) :
    Does (EnvAct calm tame forks cpu) cpu (envDestroy cpu e) k := by
  rw [envDestroy]
  refine does_get_bind (does_ite (fun hrun => does_modify (.mark hnf hrun.1) rfl) fun _ => ⟨?_⟩)
  rw [wp_bind]
  cases hfree : envFree cpu e k with
  | error ex k' =>
    exact (wp_of_error hfree).2 fun hex => absurd hex (stays_envFree.not_left hfree)
  | ok u k₁ =>
    refine (wp_of_ok hfree).2 ?_
    obtain ⟨pm, rfl⟩ := envFree_inv hfree
    by_cases hcur : k.curenv cpu = some e
    · rw [if_pos hcur, wp_bind, wp_modify]
      exact does_then_sched (.single (.exit hnf hcur))
    · rw [if_neg hcur, wp_pure]
      exact ⟨.single (.free hnf hcur), rfl⟩

theorem envActs_userMemAssert {len : Word} (hnf : ¬ forks) :
    Does (EnvAct calm tame forks cpu) cpu (userMemAssert cpu e va len perm) k := by
  refine does_bind (does_of_onlyPm (stays_withPgdir fun _ => onlyPm_onPm)) fun res _ _ _ => ?_
  cases res with
  | ok u => exact does_pure
  | error x => exact envActs_envDestroy hnf

variable {inp : Input}

theorem envActs_sysCputs {s len : Word} (hnf : ¬ forks) :
    Does (EnvAct calm tame forks cpu) cpu (sysCputs cpu inp s len) k := by
  refine does_get_bind ?_
  cases k.curenv cpu with
  | none => exact does_wild
  | some c =>
    refine does_bind (envActs_userMemAssert hnf) fun _ _ _ _ => ?_
    exact does_get_bind (does_ite (fun _ => does_panic) fun _ => does_pure)

theorem envActs_sysEnvSetStatus {status : Word}
    (hcalm : calm → status = EnvStatus.runnable.code →
      ∀ e, envid2env cpu envid true k = .ok (some e) → (k.envs e).envIpcRecving = false) :
    Does (EnvAct calm tame forks cpu) cpu (sysEnvSetStatus cpu envid status) k := by
  refine does_withEnv fun e he => ?_
  have huse := inUse_of_envid2env he
  refine does_ite (fun hrun => ?_) fun _ => does_ite (fun _ => ?_) fun _ => does_pure
  · refine does_bind (does_modify (.setStatus huse (Or.inl rfl) ?_) rfl) fun _ _ _ _ => does_pure
    exact fun hc _ => hcalm hc hrun e he
  · refine does_bind (does_modify (.setStatus huse (Or.inr rfl) ?_) rfl) fun _ _ _ _ => does_pure
    exact fun _ h => absurd h (by decide)

theorem envActs_sysEnvSetTrapframe {tf : Word} (hnf : ¬ forks)
    (htame : tame → UserSelectors inp.frame.sanitised) :
    Does (EnvAct calm tame forks cpu) cpu (sysEnvSetTrapframe cpu inp envid tf) k := by
  refine does_withEnv fun e _ => does_bind (envActs_userMemAssert hnf) fun _ _ _ _ => ?_
  refine does_get_bind (does_ite (fun _ => does_panic) fun _ => ?_)
  exact does_bind (does_modify (.resetTf htame) rfl) fun _ _ _ _ => does_pure

theorem envActs_sysExofork (hf : forks)
    (hfree : ∀ e, k.envFreeList = some e → (k.envs e).envStatus = .free)
    (htame : tame → ∀ c, k.curenv cpu = some c → (k.envs c).envTf.iopl = 0#32) :
    Does (EnvAct calm tame forks cpu) cpu (sysExofork cpu) k := by
  refine does_exofork fun c e k₁ hc ha => ?_
  obtain ⟨hhead, p, pm, rfl⟩ := envAlloc_ok_inv ha
  exact .fork hf hc (hfree e hhead) fun ht => htame ht c hc

/-- What the caller has to guarantee of `sys_env_set_status`. -/
def CalmCall (cpu : ℕ) (no a1 a2 : Word) (k : Kernel) : Prop :=
  Sysno.ofWord no = some .envSetStatus → a2 = EnvStatus.runnable.code →
    ∀ e, envid2env cpu a1 true k = .ok (some e) → (k.envs e).envIpcRecving = false

/-- What the caller has to guarantee of the frames that are installed. -/
structure TameCall (cpu : ℕ) (inp : Input) (no : Word) (k : Kernel) : Prop where
  reset : Sysno.ofWord no = some .envSetTrapframe → UserSelectors inp.frame.sanitised
  fork : Sysno.ofWord no = some .exofork →
    ∀ c, k.curenv cpu = some c → (k.envs c).envTf.iopl = 0#32

/-- **A system call other than those of IPC is a sequence of acts.** -/
theorem envActs_syscall {no a1 a2 a3 a4 a5 : Word} (hfork : forks ↔ Sysno.ofWord no = some .exofork)
    (hfree : ∀ e, k.envFreeList = some e → (k.envs e).envStatus = .free)
    (hsend : Sysno.ofWord no ≠ some .ipcTrySend) (hrecv : Sysno.ofWord no ≠ some .ipcRecv)
    (hcalm : calm → CalmCall cpu no a1 a2 k) (htame : tame → TameCall cpu inp no k) :
    Does (EnvAct calm tame forks cpu) cpu (syscall cpu inp no a1 a2 a3 a4 a5) k := by
  rw [syscall]
  cases hno : Sysno.ofWord no with
  | none => exact does_pure
  | some n =>
    have hnf : n ≠ .exofork → ¬ forks := fun hn hf => hn (by simpa [hno] using hfork.1 hf)
    cases n with
    | cputs => exact envActs_sysCputs (hnf (by decide))
    | cgetc => exact does_pure
    | getenvid =>
      refine does_get_bind ?_
      cases k.curenv cpu with
      | none => exact does_wild
      | some c => exact does_pure
    | envDestroy =>
      exact does_withEnv fun e _ =>
        does_bind (envActs_envDestroy (hnf (by decide))) fun _ _ _ _ => does_pure
    | pageAlloc => exact does_of_onlyPm onlyPm_sysPageAlloc
    | pageMap => exact does_of_onlyPm onlyPm_sysPageMap
    | pageUnmap => exact does_of_onlyPm onlyPm_sysPageUnmap
    | exofork => exact envActs_sysExofork (hfork.2 hno) hfree fun ht => (htame ht).fork hno
    | envSetStatus => exact envActs_sysEnvSetStatus fun hc => hcalm hc hno
    | envSetTrapframe =>
      exact envActs_sysEnvSetTrapframe (hnf (by decide)) fun ht => (htame ht).reset hno
    | envSetPgfaultUpcall =>
      refine does_withEnv fun e _ => ?_
      exact does_bind (does_modify .setUpcall rfl) fun _ _ _ _ => does_pure
    | yield => exact does_bind does_schedYield fun _ _ _ _ => does_pure
    | ipcTrySend => exact absurd hno hsend
    | ipcRecv => exact absurd hno hrecv
    | timeMsec => exact does_get_bind does_pure

end Calls

/-! ## The calls of IPC -/

/-- **What `sys_ipc_try_send` to `e` does**, called by `c`. -/
inductive SendResult (c e : EnvIdx) (value srcva perm : Word) (k : Kernel) : Word → Kernel → Prop
  /-- Nobody waits. -/
  | notRecv : ¬ k.Receiving e → SendResult c e value srcva perm k Errno.ipcNotRecv.ret k
  /-- The page cannot be sent, or there is no memory to map it. -/
  | refused {r : Errno} : k.Receiving e → srcva < UTOP → r = .inval ∨ r = .noMem →
      SendResult c e value srcva perm k r.ret k
  /-- A message without a page. -/
  | plain : k.Receiving e → ¬ (srcva < UTOP ∧ (k.envs e).envIpcDstva ≠ 0#32) →
      SendResult c e value srcva perm k 0#32 (k.deliver c e value none)
  /-- A message with a page. -/
  | page {r r' pg : ℕ} {pte : PtePtr} {pm : PhysMem} : k.Receiving e → srcva < UTOP →
      (k.envs e).envIpcDstva ≠ 0#32 → permOk perm = true → k.roots c = some r →
      pageLookup r srcva k.pm = .ok (some (pg, pte)) k.pm → k.roots e = some r' →
      pageInsert r' pg (k.envs e).envIpcDstva perm k.pm = .ok (.ok ()) pm →
      SendResult c e value srcva perm k 0#32 ({ k with pm := pm }.deliver c e value (some perm))

section Ipc

variable {cpu : ℕ} {k k' : Kernel} {c e : EnvIdx}

/-- `page_insert` has one way to fail. -/
theorem pageInsert_errno {r pg : ℕ} {pm' : PhysMem} {x : Errno}
    (h : pageInsert r pg va perm pm = .ok (.error x) pm') : x = .noMem := by
  rw [pageInsert] at h
  obtain ⟨o, pm₁, -, h⟩ := run_bind_inv h
  cases o with
  | none =>
    cases h
    rfl
  | some pte =>
    simp only [run_get_bind] at h
    split at h
    · cases h
    · obtain ⟨-, pm₂, -, h⟩ := run_bind_inv h
      obtain ⟨-, pm₃, -, h⟩ := run_bind_inv h
      cases h

theorem sysIpcTrySend_cases {value w : Word} (he : envid2env cpu envid false k = .ok (some e))
    (hc : k.curenv cpu = some c) (h : sysIpcTrySend cpu envid value srcva perm k = .ok w k') :
    SendResult c e value srcva perm k w k' := by
  have hplain : ipcDeliver c e value k = .ok 0#32 (k.deliver c e value none) := rfl
  rw [sysIpcTrySend, withEnv_ok he, run_get_bind] at h
  simp only [hc] at h
  split at h
  · next hnot =>
      cases h
      refine .notRecv fun hrecv => ?_
      simp [hrecv.1, hrecv.2] at hnot
  next hnot =>
  have hrecv : k.Receiving e := by
    rw [not_or, Bool.not_eq_false, not_not] at hnot
    exact hnot
  split at h
  swap
  · next hsva =>
      rw [hplain] at h
      cases h
      exact .plain hrecv fun hpg => hsva hpg.1
  next hsva =>
  split at h
  · cases h
    exact .refused hrecv hsva (Or.inl rfl)
  next hargs =>
  rw [not_or, Bool.not_eq_false] at hargs
  obtain ⟨o, k₁, hlook, h⟩ := run_bind_inv h
  obtain ⟨r, pm, hr, hpm, rfl⟩ := withPgdir_inv hlook
  obtain rfl : pm = k.pm := pageLookup_reads hpm
  cases o with
  | none =>
    cases h
    exact .refused hrecv hsva (Or.inl rfl)
  | some x =>
    obtain ⟨pg, pte⟩ := x
    simp only [run_get_bind] at h
    split at h
    · cases h
      exact .refused hrecv hsva (Or.inl rfl)
    split at h
    swap
    · next hdst =>
        change ipcDeliver c e value k = _ at h
        rw [hplain] at h
        cases h
        exact .plain hrecv fun hpg => hdst hpg.2
    next hdst =>
    obtain ⟨o, k₂, hins, h⟩ := run_bind_inv h
    obtain ⟨r', pm', hr', hpm', rfl⟩ := withPgdir_inv hins
    cases o with
    | error x =>
      cases h
      obtain rfl := pageInsert_errno hpm'
      rw [(pageInsert_error hpm').1]
      exact .refused hrecv hsva (Or.inr rfl)
    | ok u =>
      change (do
        modify fun k => k.modifyEnv e fun env => { env with envIpcPerm := perm }
        ipcDeliver c e value : KernelM Word) _ = _ at h
      rw [ipcDeliver_perm_run] at h
      cases h
      exact .page hrecv hsva hdst hargs.2 hr hpm hr' hpm'

theorem stays_sysIpcTrySend {value : Word} :
    Stays SameCpus (sysIpcTrySend cpu envid value srcva perm) := by
  have hpm : ∀ {α : Type} {x : PhysM α}, Stays SameCpus (onPm x) := stays_onPm fun _ _ => rfl
  have hdeliver : ∀ c e v, Stays SameCpus (ipcDeliver c e v) := fun c e v =>
    stays_bind (stays_modify fun _ => rfl) fun _ => stays_pure fun _ => rfl
  have hite : ∀ {p : Prop} [Decidable p] {x y : KernelM Word}, Stays SameCpus x →
      Stays SameCpus y → Stays SameCpus (if p then x else y) := fun hx hy => by
    split
    · exact hx
    · exact hy
  rw [sysIpcTrySend, withEnv]
  refine stays_get_bind fun k => ?_
  cases envid2env cpu envid false k with
  | error r => exact stays_pure fun _ => rfl
  | ok o =>
    cases o with
    | none => exact stays_throw (by simp)
    | some e =>
      refine stays_get_bind fun k => ?_
      cases k.curenv cpu with
      | none => exact stays_throw (by simp)
      | some c =>
        refine hite (stays_pure fun _ => rfl) (hite ?_ (hdeliver ..))
        refine hite (stays_pure fun _ => rfl) (stays_bind (stays_withPgdir fun _ => hpm) ?_)
        intro o
        cases o with
        | none => exact stays_pure fun _ => rfl
        | some x =>
          refine stays_get_bind fun k => hite (stays_pure fun _ => rfl) ?_
          refine hite (stays_bind (stays_withPgdir fun _ => hpm) fun o => ?_) (hdeliver ..)
          cases o with
          | error r => exact stays_pure fun _ => rfl
          | ok u => exact stays_bind (stays_modify fun _ => rfl) fun _ => hdeliver ..

/-- **What `sys_ipc_recv` does**: it refuses the address, or enters the scheduler. -/
theorem sysIpcRecv_cases (hc : k.curenv cpu = some c) (dstva : Word) :
    sysIpcRecv cpu dstva k = .ok Errno.inval.ret k ∨
    ∀ {f : Word → KernelM Unit}, Leaves (sysIpcRecv cpu dstva >>= f) k k' →
      Leaves (schedYield cpu) (k.recv c dstva) k' := by
  by_cases hbad : dstva < UTOP ∧ pgoff dstva ≠ 0#32
  · left
    simp only [sysIpcRecv, run_get_bind, hc, if_pos hbad]
    rfl
  · right
    intro f hl
    have hrun : ∀ k₁, (sysIpcRecv cpu dstva >>= f) k = k₁ →
        (schedYield cpu >>= fun _ => f 0#32) (k.recv c dstva) = k₁ := by
      intro k₁ h
      rw [← h, sysIpcRecv, bind_assoc, run_get_bind]
      simp only [hc, if_neg hbad, bind_assoc, pure_bind, run_modify_bind]
      rfl
    exact leaves_schedYield_bind (hl.imp (hrun _) (hrun _))

end Ipc

/-! ## Traps -/

/-- The trap is a call of `sys_ipc_try_send`. -/
def IsSend (tf : Trapframe) : Prop :=
  tf.tfTrapno = T_SYSCALL ∧ Sysno.ofWord tf.tfRegs.regEax = some .ipcTrySend

/-- The trap is a call of `sys_ipc_recv`. -/
def IsRecv (tf : Trapframe) : Prop :=
  tf.tfTrapno = T_SYSCALL ∧ Sysno.ofWord tf.tfRegs.regEax = some .ipcRecv

/-- The trap is a call of `sys_exofork`. -/
def IsFork (tf : Trapframe) : Prop :=
  tf.tfTrapno = T_SYSCALL ∧ Sysno.ofWord tf.tfRegs.regEax = some .exofork

/-- The call of `sys_ipc_try_send` a trap frame asks for. -/
def tfSend (cpu : ℕ) (tf : Trapframe) : KernelM Word :=
  sysIpcTrySend cpu tf.tfRegs.regEdx tf.tfRegs.regEcx tf.tfRegs.regEbx tf.tfRegs.regEdi

/-- The state in which a trap of `c` is dispatched. -/
def Kernel.entered (k : Kernel) (c : EnvIdx) (tf : Trapframe) : Kernel := k.setTf c fun _ => tf

/-- No call makes an environment runnable that waits for a message. -/
def CalmEvent (k : Kernel) : Event → Prop
  | .trap cpu _ tf => tf.tfTrapno = T_SYSCALL →
      CalmCall cpu tf.tfRegs.regEax tf.tfRegs.regEdx tf.tfRegs.regEcx k
  | _ => True

/-- The frames that are installed and copied are those of unprivileged user code. -/
structure TameTrap (inp : Input) (tf : Trapframe) : Prop where
  reset : Sysno.ofWord tf.tfRegs.regEax = some .envSetTrapframe →
    UserSelectors inp.frame.sanitised
  fork : Sysno.ofWord tf.tfRegs.regEax = some .exofork → tf.iopl = 0#32

/-- The same, of what happens next. -/
def TameEvent : Event → Prop
  | .trap _ inp tf => tf.tfTrapno = T_SYSCALL → TameTrap inp tf
  | _ => True

section Traps

open Relation

variable {calm tame forks : Prop} {cpu : ℕ} {k k' : Kernel} {c : EnvIdx} {inp : Input}
  {tf : Trapframe}

theorem envActs_pageFaultHandler (hnf : ¬ forks) (hc : k.curenv cpu = some c) :
    Does (EnvAct calm tame forks cpu) cpu (pageFaultHandler cpu inp tf) k := by
  refine does_ite (fun _ => does_panic) fun _ => does_get_bind ?_
  simp only [hc]
  refine does_ite (fun _ => ?_) fun _ => envActs_envDestroy hnf
  refine does_bind (envActs_userMemAssert hnf) fun _ k₁ _ hcpus₁ => ?_
  refine does_bind (does_of_onlyPm (stays_withPgdir fun _ => onlyPm_onPm)) fun _ k₂ _ hcpus₂ => ?_
  have hc₂ : k₂.curenv cpu = some c := by rw [Kernel.curenv, hcpus₂, hcpus₁]; exact hc
  refine does_bind (does_modify (@EnvAct.upcall _ _ _ _ _ _ (k₂.envs c).envPgfaultUpcall _ hc₂)
    rfl) ?_
  intro _ k₃ _ hcpus₃
  refine does_envRun ?_
  rw [Kernel.curenv, hcpus₃]
  exact hc₂

theorem envActs_timer : Does (EnvAct calm tame forks cpu) cpu (do timeTick; schedYield cpu) k := by
  refine does_bind ?_ fun _ _ _ _ => does_schedYield
  refine does_bind (does_modify (.tick _) rfl) fun _ _ _ _ => ?_
  exact does_get_bind (does_ite (fun _ => does_panic) fun _ => does_pure)

theorem envActs_trapDispatch (hc : k.curenv cpu = some c) (hsend : ¬ IsSend tf)
    (hrecv : ¬ IsRecv tf)
    (hfree : ∀ e, k.envFreeList = some e → (k.envs e).envStatus = .free)
    (hcalm : calm → tf.tfTrapno = T_SYSCALL →
      CalmCall cpu tf.tfRegs.regEax tf.tfRegs.regEdx tf.tfRegs.regEcx k)
    (htame : tame → tf.tfTrapno = T_SYSCALL → TameCall cpu inp tf.tfRegs.regEax k) :
    Does (EnvAct calm tame (IsFork tf) cpu) cpu (trapDispatch cpu inp tf (some c)) k := by
  have hnf : tf.tfTrapno ≠ T_SYSCALL → ¬ IsFork tf := fun hne hf => hne hf.1
  refine does_ite (fun hpf => envActs_pageFaultHandler (hnf (by rw [hpf]; decide)) hc) fun _ => ?_
  refine does_ite (fun _ => does_monitor) fun _ => does_ite (fun hsys => ?_) fun hsys => ?_
  · refine does_bind (envActs_syscall ⟨fun h => h.2, fun h => ⟨hsys, h⟩⟩ hfree
      (fun h => hsend ⟨hsys, h⟩) (fun h => hrecv ⟨hsys, h⟩) (fun h => hcalm h hsys) fun h => htame h hsys) fun w k₁ _ hcpus => ?_
    have hc₁ : k₁.curenv cpu = some c := by rw [Kernel.curenv, hcpus]; exact hc
    exact does_modify (.setEax hc₁) rfl
  refine does_ite (fun _ => does_pure) fun _ => does_ite (fun _ => envActs_timer) fun _ => ?_
  refine does_ite (fun _ => does_pure) fun _ => does_ite (fun _ => does_pure) fun _ => ?_
  refine does_ite (fun _ => does_panic) fun _ => does_get_bind ?_
  simp only [hc]
  exact envActs_envDestroy (hnf hsys)

/-- Saving registers changes registers. -/
theorem envs_entered (k : Kernel) (c e : EnvIdx) (tf : Trapframe) :
    (k.entered c tf).envs e = { k.envs e with envTf := ((k.entered c tf).envs e).envTf } := by
  by_cases he : e = c
  · subst he
    simp [Kernel.entered, Kernel.setTf, Kernel.modifyEnv]
  · simp [Kernel.entered, Kernel.setTf, Kernel.modifyEnv, he]

/-- What an id stands for does not depend on saved registers. -/
theorem envid2env_entered {w : Word} {b : Bool} :
    envid2env cpu w b (k.entered c tf) = envid2env cpu w b k := by
  have hcur : ∀ q, (k.entered c tf).curenv q = k.curenv q := fun _ => rfl
  simp only [envid2env, hcur]
  rw [envs_entered k c (envx w) tf]
  cases hc : k.curenv cpu with
  | none => rfl
  | some c' => rw [Option.map_some, Option.map_some, envs_entered k c c' tf]

theorem calmCall_entered {no a1 a2 : Word} (h : CalmCall cpu no a1 a2 k) :
    CalmCall cpu no a1 a2 (k.entered c tf) := by
  intro hno ha2 e he
  rw [envs_entered]
  exact h hno ha2 e (envid2env_entered ▸ he)

/-- **What a step does to the environments.** -/
inductive EnvStep (calm tame : Prop) (k : Kernel) : Event → Kernel → Prop
  /-- A CPU without an environment enters the scheduler. -/
  | idle {ev : Event} {t : Word} {k' : Kernel} : k.curenv ev.cpu = none →
      Leaves (schedYield ev.cpu) { k.setCpuStatus ev.cpu .started with ticks := t } k' →
      EnvStep calm tame k ev k'
  | store {cpu : ℕ} {va : Word} {b : BitVec 8} {pm : PhysMem} :
      EnvStep calm tame k (.store cpu va b) { k with pm := pm }
  /-- The environment was destroyed while it ran. -/
  | dying {cpu : ℕ} {inp : Input} {tf : Trapframe} {c : EnvIdx} {pm : PhysMem} {k' : Kernel} :
      k.InUser cpu c → (k.envs c).envStatus = .dying →
      Leaves (schedYield cpu) ((k.freed c pm).setCurenv cpu none) k' →
      EnvStep calm tame k (.trap cpu inp tf) k'
  | send {cpu : ℕ} {inp : Input} {tf : Trapframe} {c : EnvIdx} {w : Word} {k₁ k' : Kernel} :
      k.InUser cpu c → (k.envs c).envStatus ≠ .dying → IsSend tf →
      tfSend cpu tf (k.entered c tf) = .ok w k₁ →
      Leaves (trapReturn cpu) (k₁.setTf c fun t => t.setEax w) k' →
      EnvStep calm tame k (.trap cpu inp tf) k'
  | recv {cpu : ℕ} {inp : Input} {tf : Trapframe} {c : EnvIdx} {k' : Kernel} :
      k.InUser cpu c → IsRecv tf →
      Leaves (schedYield cpu) ((k.entered c tf).recv c tf.tfRegs.regEdx) k' →
      EnvStep calm tame k (.trap cpu inp tf) k'
  | acts {cpu : ℕ} {inp : Input} {tf : Trapframe} {c : EnvIdx} {k₁ k' : Kernel} :
      k.InUser cpu c → ¬ IsSend tf →
      ReflTransGen (EnvAct calm tame (IsFork tf) cpu) (k.entered c tf) k₁ →
      Resched cpu k₁ k' → EnvStep calm tame k (.trap cpu inp tf) k'

/-- The registers are saved, the trap is dispatched, and the CPU goes on. -/
theorem trapUser_entered (hst : (k.envs c).envStatus ≠ .dying) :
    trapUser cpu inp tf c k =
      (trapDispatch cpu inp tf (some c) >>= fun _ => trapReturn cpu) (k.entered c tf) := by
  rw [trapUser, run_get_bind, if_neg hst, run_modify_bind]
  rfl

/-- A system call, and what follows it. -/
theorem trapDispatch_syscall (hsys : tf.tfTrapno = T_SYSCALL) :
    trapDispatch cpu inp tf (some c) = (do
      let w ← tfSyscall cpu inp tf
      modify fun k => k.setTf c fun t => t.setEax w) := by
  rw [trapDispatch, if_neg (by rw [hsys]; decide), if_neg (by rw [hsys]; decide), if_pos hsys]
  rfl

theorem envStep_dying (hu : k.InUser cpu c) (hst : (k.envs c).envStatus = .dying)
    (hl : Leaves (trapUser cpu inp tf c) k k') : EnvStep calm tame k (.trap cpu inp tf) k' := by
  simp only [Leaves, trapUser, run_get_bind, if_pos hst] at hl
  cases hfree : envFree cpu c k with
  | error ex k₁ =>
    rw [run_bind_error hfree] at hl
    refine absurd ?_ (stays_envFree.not_left hfree)
    exact hl.imp (fun h => by cases h; rfl) fun h => by cases h; rfl
  | ok u k₁ =>
    obtain ⟨pm, rfl⟩ := envFree_inv hfree
    rw [run_bind_ok hfree, run_modify_bind] at hl
    exact .dying hu hst hl

theorem envStep_send (hu : k.InUser cpu c) (hst : (k.envs c).envStatus ≠ .dying)
    (hsend : IsSend tf) (hl : Leaves (trapUser cpu inp tf c) k k') :
    EnvStep calm tame k (.trap cpu inp tf) k' := by
  have hcall : tfSyscall cpu inp tf = tfSend cpu tf := by
    simp only [tfSyscall, syscall, hsend.2]
    rfl
  rw [Leaves, trapUser_entered hst, trapDispatch_syscall hsend.1, hcall, bind_assoc] at hl
  cases hrun : tfSend cpu tf (k.entered c tf) with
  | error ex k₁ =>
    rw [run_bind_error hrun] at hl
    refine absurd ?_ (stays_sysIpcTrySend.not_left hrun)
    exact hl.imp (fun h => by cases h; rfl) fun h => by cases h; rfl
  | ok w k₁ =>
    rw [run_bind_ok hrun, run_modify_bind] at hl
    exact .send hu hst hsend hrun hl

theorem envStep_recv (hu : k.InUser cpu c) (hst : (k.envs c).envStatus ≠ .dying)
    (hrecv : IsRecv tf) (hl : Leaves (trapUser cpu inp tf c) k k') :
    EnvStep calm tame k (.trap cpu inp tf) k' := by
  have hcall : tfSyscall cpu inp tf = sysIpcRecv cpu tf.tfRegs.regEdx := by
    simp only [tfSyscall, syscall, hrecv.2]
  have hnot : ¬ IsSend tf := fun h => by
    have := hrecv.2.symm.trans h.2
    cases this
  have hc : (k.entered c tf).curenv cpu = some c := hu.2
  rw [Leaves, trapUser_entered hst, trapDispatch_syscall hrecv.1, hcall, bind_assoc] at hl
  rcases @sysIpcRecv_cases _ _ k' _ hc tf.tfRegs.regEdx with hbad | hgo
  · rw [run_bind_ok hbad, run_modify_bind] at hl
    obtain ⟨k₁, hacts, hsched⟩ := (does_trapReturn (R := EnvAct calm tame (IsFork tf) cpu)).leaves hl
    exact .acts hu hnot (.head (.setEax hc) hacts) hsched
  · exact .recv hu hrecv (hgo hl)

/-- **A step of the machine is one of six things.** -/
theorem env_step_cases {ev : Event} (hs : Step k ev k') (hcalm : calm → CalmEvent k ev)
    (htame : tame → TameEvent ev)
    (hfree : ∀ e, k.envFreeList = some e → (k.envs e).envStatus = .free) : EnvStep calm tame k ev k' := by
  cases hs with
  | @user cpu inp tf c _ hu hcs hl =>
    simp only [Leaves, trap, run_modify_bind, setCpuStatus_self hu.1, if_pos hcs, run_get_bind,
      hu.2] at hl
    by_cases hst : (k.envs c).envStatus = .dying
    · exact envStep_dying hu hst hl
    by_cases hsend : IsSend tf
    · exact envStep_send hu hst hsend hl
    by_cases hrecv : IsRecv tf
    · exact envStep_recv hu hst hrecv hl
    have hself : ((k.entered c tf).envs c).envTf = tf := by
      simp [Kernel.entered, Kernel.setTf, Kernel.modifyEnv]
    have hdispatch : Does (EnvAct calm tame (IsFork tf) cpu) cpu (trapDispatch cpu inp tf (some c))
        (k.entered c tf) := by
      refine envActs_trapDispatch hu.2 hsend hrecv ?_ (fun h hsys => ?_) fun h hsys => ?_
      · intro e he
        rw [envs_entered]
        exact hfree e he
      · exact calmCall_entered (hcalm h hsys)
      · refine ⟨(htame h hsys).reset, fun hfork c' hc' => ?_⟩
        obtain rfl : c = c' := by simpa using hu.2.symm.trans hc'
        rw [hself]
        exact (htame h hsys).fork hfork
    rw [trapUser_entered hst] at hl
    obtain ⟨k₁, hacts, hsched⟩ :=
      (does_bind hdispatch fun _ _ _ _ => does_trapReturn).leaves hl
    exact .acts hu hsend hacts hsched
  | @irq cpu inp tf _ hh hcs hirq hl =>
    obtain ⟨t, ht⟩ := trap_irq hh.2 hcs hirq hl
    exact .idle hh.2 ht
  | @start cpu _ hi hl =>
    have hk : { k.setCpuStatus cpu .started with ticks := k.ticks } = k := setCpuStatus_self hi.1
    exact .idle (t := k.ticks) hi.2 (hk.symm ▸ hl)
  | store hu hr ht => exact .store

end Traps

end Jos
