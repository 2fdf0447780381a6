import Jos.Kern.IpcRuns

/-!
# Saved registers

When a CPU leaves the kernel it loads the saved registers of an environment with
`iret`.  Nothing but these registers keeps the environment in user mode and the
kernel in charge: the selectors, the interrupt flag and the I/O privilege level.
They come from three sources: `env_alloc` and `env_create` make them up,
`sys_exofork` and `sys_env_set_trapframe` copy them, and a trap saves what the
CPU has.

What the CPU has is not part of the kernel's state.  `FrameRuns` are the runs of the
machine together with the registers each CPU has loaded last, and user code is
assumed to keep its mode (`KeepsMode`).

* `frames_loadable` — in every such run all saved frames are those of user code, as long
  as the frames given to `sys_env_set_trapframe` have the selectors of user code,
  `sys_exofork` is called without I/O privilege, and the file server, which has it,
  leaves interrupts enabled.
* `forked_iopl` — a run in which the file server passes its I/O privilege on to a child.
-/

namespace Jos

/-! ## Frames of user code -/

/-- A frame for user mode, without I/O privilege but for the file server. -/
structure UserFrame (type : EnvType) (tf : Trapframe) : Prop where
  sel : UserSelectors tf
  intr : tf.intr = FL_IF
  iopl : type ≠ .fs → tf.iopl = 0#32

/-- The saved registers of an environment can be loaded. -/
def Env.Loadable (env : Env) : Prop := UserFrame env.envType env.envTf

/-- The saved registers of all environments can be loaded. -/
def Frames (k : Kernel) : Prop := ∀ e, (k.envs e).envStatus ≠ .free → (k.envs e).Loadable

theorem Trapframe.intr_sanitised (tf : Trapframe) : tf.sanitised.intr = FL_IF := by
  have h : ∀ a b : Word, (a ||| b) &&& b = b := fun a b => by
    ext i
    simp only [BitVec.getElem_and, BitVec.getElem_or]
    cases b[i] <;> simp
  exact h _ _

theorem Trapframe.iopl_sanitised (tf : Trapframe) : tf.sanitised.iopl = 0#32 := by
  have hif : FL_IF &&& FL_IOPL_MASK = 0#32 := by decide
  have h : ∀ w m f : Word, f &&& m = 0#32 → (w &&& ~~~m ||| f) &&& m = 0#32 := by
    intro w m f hfm
    ext i hi
    have hbit := congrArg (fun x : Word => x[i]) hfm
    simp only [BitVec.getElem_and, BitVec.getElem_zero] at hbit
    simp only [BitVec.getElem_and, BitVec.getElem_or, BitVec.getElem_not, BitVec.getElem_zero]
    cases hm : m[i] <;> simp_all
  exact h _ _ _ hif

variable {value srcva perm w : Word} {k : Kernel}

section Acts

variable {calm forks : Prop} {cpu : ℕ} {k k' : Kernel} {c e e' : EnvIdx}

theorem Frames.modifyEnv {f : Env → Env} (h : Frames k)
    (hf : (f (k.envs e')).envStatus ≠ .free → (f (k.envs e')).Loadable) :
    Frames (k.modifyEnv e' f) := by
  intro e he
  by_cases hee : e = e'
  · subst hee
    have hself : (k.modifyEnv e f).envs e = f (k.envs e) := by simp [Kernel.modifyEnv]
    rw [hself] at he ⊢
    exact hf he
  · have hother : (k.modifyEnv e' f).envs e = k.envs e := by simp [Kernel.modifyEnv, hee]
    rw [hother] at he ⊢
    exact h e he

/-- New registers for one environment. -/
theorem Frames.setTf {f : Trapframe → Trapframe} (h : Frames k)
    (hf : (k.envs e').envStatus ≠ .free → UserFrame (k.envs e').envType (f (k.envs e').envTf)) :
    Frames (k.setTf e' f) := h.modifyEnv hf

theorem UserFrame.setEax {type : EnvType} {tf : Trapframe} (h : UserFrame type tf) (w : Word) :
    UserFrame type (tf.setEax w) := ⟨⟨h.sel.cs, h.sel.ss⟩, h.intr, h.iopl⟩

theorem Frames.freed (h : Frames k) (pm : PhysMem) : Frames (k.freed e' pm) := by
  intro e he
  have hne : e ≠ e' := fun heq => he (heq ▸ freed_self)
  rw [freed_of_ne hne] at he ⊢
  exact h e he

/-- **Acts keep frames.** -/
theorem Frames.act (h : Frames k) (hcur : CurLive cpu k) (ha : EnvAct calm True forks cpu k k') :
    Frames k' := by
  cases ha with
  | mem pm => exact h
  | tick t => exact h
  | @setStatus e' _ huse _ _ => exact h.modifyEnv fun _ => h e' (huse.elim id (hcur e'))
  | resetTf hsel =>
    exact h.setTf fun _ => ⟨hsel trivial, Trapframe.intr_sanitised _,
      fun _ => Trapframe.iopl_sanitised _⟩
  | upcall _ => exact h.setTf fun hl => ⟨⟨(h _ hl).sel.cs, (h _ hl).sel.ss⟩, (h _ hl).intr,
      (h _ hl).iopl⟩
  | setEax _ => exact h.setTf fun hl => (h _ hl).setEax _
  | setUpcall => exact h.modifyEnv fun hl => h _ hl
  | @fork c e' p pm _ hc hst hiopl =>
    intro e he
    by_cases hee : e = e'
    · subst hee
      have hne : c ≠ e := fun heq => hcur c hc (heq ▸ hst)
      have hchild : (k.forked c e p pm).envs e =
          { ((k.forked c e p pm).envs e) with
            envType := .user
            envTf := (k.envs c).envTf.setEax 0#32 } := by
        simp [Kernel.forked, Kernel.allocated, Kernel.modifyEnv, hne]
      have hparent := (h c (hcur c hc)).setEax 0#32
      rw [hchild]
      exact ⟨hparent.sel, hparent.intr, fun _ => hiopl trivial⟩
    · rw [forked_of_ne hee] at he ⊢
      exact h e he
  | mark _ hrun => exact h.modifyEnv fun _ => h _ (by simp [hrun])
  | free _ _ => exact h.freed _
  | exit _ _ => exact h.freed _

theorem Frames.acts (h : Frames k) (hcur : CurLive cpu k)
    (ha : Relation.ReflTransGen (EnvAct calm True forks cpu) k k') : Frames k' := by
  induction ha with
  | refl => exact h
  | tail hpre ha ih => exact ih.act (curLive_acts hpre hcur) ha

theorem Frames.switches (h : Frames k) (hcur : CurLive cpu k) (hsw : Switches cpu k k') :
    Frames k' := by
  intro e he
  have hold := h e (hsw.live hcur he)
  rw [Env.Loadable, hsw.env e]
  exact hold

/-- A message changes nothing of a frame but `eax`. -/
theorem Frames.send (h : Frames k) (hlive : (k.envs e).envStatus ≠ .free)
    (hres : SendResult c e value srcva perm k w k') : Frames k' := by
  cases hres with
  | notRecv _ => exact h
  | refused _ _ _ => exact h
  | plain _ _ => exact h.modifyEnv fun _ => (h e hlive).setEax _
  | @page _ _ _ _ pm _ _ _ _ _ _ _ _ =>
    have hpm : Frames { k with pm := pm } := h
    exact hpm.modifyEnv fun _ => (h e hlive).setEax _

end Acts

/-! ## Other CPUs -/

section Others

variable {calm tame forks : Prop} {cpu q : ℕ} {k k' : Kernel} {c e : EnvIdx}

theorem curenv_of_sched (hl : Leaves (schedYield cpu) k k') (hq : q ≠ cpu) :
    k'.curenv q = k.curenv q := by
  have hrun : ∀ e, Leaves (envRun cpu e) (k.setCpunum e cpu) k' → k'.curenv q = k.curenv q := by
    intro e hl
    obtain ⟨rfl, -⟩ := envRun_leaves hl
    rw [curenv_switched, if_neg hq]
    rfl
  rcases schedYield_cases k cpu with ⟨e, -, hy⟩ | ⟨e, -, -, hy⟩ | hy | hy <;> rw [Leaves, hy] at hl
  · exact hrun e hl
  · exact hrun e hl
  · obtain rfl := schedHalt_leaves hl
    rw [Kernel.curenv_setCpuStatus, Kernel.curenv_setCurenv_of_ne hq]
  · rcases hl with hl | hl <;> cases hl

theorem Resched.curenv_other (h : Resched cpu k k') (hq : q ≠ cpu) :
    k'.curenv q = k.curenv q := by
  rcases h with hl | ⟨c, -, hl⟩
  · exact curenv_of_sched hl hq
  · obtain ⟨rfl, -⟩ := envRun_leaves hl
    rw [curenv_switched, if_neg hq]

theorem EnvAct.curenv_other (ha : EnvAct calm tame forks cpu k k') (hq : q ≠ cpu) :
    k'.curenv q = k.curenv q := by
  cases ha with
  | exit _ _ => exact Kernel.curenv_setCurenv_of_ne hq
  | _ => rfl

theorem curenv_acts (ha : Relation.ReflTransGen (EnvAct calm tame forks cpu) k k')
    (hq : q ≠ cpu) : k'.curenv q = k.curenv q := by
  induction ha with
  | refl => rfl
  | tail _ ha ih => exact (ha.curenv_other hq).trans ih

end Others

/-! ## Runs with the registers of the CPUs -/

/-- What user code cannot change: the selectors, the I/O privilege level, and without I/O
privilege the interrupt flag. -/
structure KeepsMode (loaded tf : Trapframe) : Prop where
  cs : tf.tfCs = loaded.tfCs
  ss : tf.tfSs = loaded.tfSs
  iopl : tf.iopl = loaded.iopl
  intr : loaded.iopl = 0#32 → tf.intr = loaded.intr

/-- User code has kept its mode since `env_pop_tf` loaded the registers `L`. -/
def KeptMode (k : Kernel) (L : ℕ → Trapframe) (ev : Event) : Prop :=
  ∀ cpu inp tf c, ev = .trap cpu inp tf → k.InUser cpu c → KeepsMode (L cpu) tf

/-- The registers of the CPUs after a step to `k`: a CPU that leaves the kernel for user mode
has loaded those of its environment. -/
def loads (k : Kernel) (L : ℕ → Trapframe) : Event → ℕ → Trapframe
  | .store _ _ _ => L
  | ev =>
    match k.curenv ev.cpu with
    | none => L
    | some c => Function.update L ev.cpu (k.envs c).envTf

/-- The runs of the machine, with the registers each CPU has loaded last. -/
inductive FrameRuns (C : Kernel → Event → Prop) (k : Kernel) : Kernel → (ℕ → Trapframe) → Prop
  | nil (L : ℕ → Trapframe) : FrameRuns C k k L
  | step {k₁ k₂ : Kernel} {L : ℕ → Trapframe} {ev : Event} : FrameRuns C k k₁ L → C k₁ ev →
      KeptMode k₁ L ev → Step k₁ ev k₂ → FrameRuns C k k₂ (loads k₂ L ev)

theorem FrameRuns.mono {C C' : Kernel → Event → Prop} {k' : Kernel} {L : ℕ → Trapframe}
    (hC : ∀ k ev, C k ev → C' k ev) (h : FrameRuns C k k' L) : FrameRuns C' k k' L := by
  induction h with
  | nil L => exact .nil L
  | step _ hc hkeep hs ih => exact .step ih (hC _ _ hc) hkeep hs

/-- **The frames in memory and those on the CPUs.** -/
structure FrameInv (k : Kernel) (L : ℕ → Trapframe) : Prop where
  saved : Frames k
  loaded : ∀ q c, k.curenv q = some c → UserFrame (k.envs c).envType (L q)

/-- What user code and its callers have to take care of. -/
structure FrameCareful (k : Kernel) (ev : Event) : Prop extends Careful k ev where
  /-- Frames that are installed and copied are those of unprivileged code. -/
  tame : TameEvent ev
  /-- Code with I/O privilege leaves interrupts enabled. -/
  intr : ∀ cpu inp tf c, ev = .trap cpu inp tf → k.InUser cpu c → tf.iopl ≠ 0#32 → tf.intr = FL_IF

section Runs

variable {cpu : ℕ} {k k' : Kernel} {c e : EnvIdx} {L : ℕ → Trapframe} {ev : Event}
  {held : Finset ℕ} {inp : Input} {tf : Trapframe}

/-- The registers a trap saves. -/
theorem FrameInv.trap (h : FrameInv k L) (hu : k.InUser cpu c)
    (hkeep : KeptMode k L (.trap cpu inp tf)) (hcare : FrameCareful k (.trap cpu inp tf)) :
    UserFrame (k.envs c).envType tf := by
  have hl := h.loaded cpu c hu.2
  have hk := hkeep cpu inp tf c rfl hu
  refine ⟨⟨hk.cs.trans hl.sel.cs, hk.ss.trans hl.sel.ss⟩, ?_, fun ht => hk.iopl.trans (hl.iopl ht)⟩
  by_cases h0 : (L cpu).iopl = 0#32
  · exact (hk.intr h0).trans hl.intr
  · exact hcare.intr cpu inp tf c rfl hu (hk.iopl ▸ h0)

/-- Frames are kept, no CPU but one changes its environment, and nobody changes its type. -/
structure FrameStep (k k' : Kernel) (ev : Event) : Prop where
  frames : Frames k'
  others : ∀ q, q ≠ ev.cpu → k'.curenv q = k.curenv q
  type : ∀ e, (k.envs e).envStatus ≠ .free → (k'.envs e).envStatus ≠ .free →
    (k'.envs e).envType = (k.envs e).envType

theorem Switches.type (h : Switches cpu k k') (e : EnvIdx) :
    (k'.envs e).envType = (k.envs e).envType := by rw [h.env e]

theorem type_entered (k : Kernel) (c e : EnvIdx) (tf : Trapframe) :
    ((k.entered c tf).envs e).envType = (k.envs e).envType := by rw [envs_entered]

theorem curLive_entered (hk : KernelInv held none k) (cpu : ℕ) (c : EnvIdx) (tf : Trapframe) :
    CurLive cpu (k.entered c tf) := by
  intro c' hc'
  rw [envs_entered]
  exact hk.cur_live cpu c' hc'

/-- The state in which a trap is dispatched. -/
theorem FrameInv.entered (h : FrameInv k L) (hu : k.InUser cpu c)
    (hkeep : KeptMode k L (.trap cpu inp tf)) (hcare : FrameCareful k (.trap cpu inp tf)) :
    Frames (k.entered c tf) :=
  h.saved.setTf fun _ => h.trap hu hkeep hcare

/-- What happens before the scheduler runs. -/
theorem FrameStep.of_resched {m : Kernel} (hf : Frames m) (hcur : CurLive ev.cpu m)
    (hr : Resched ev.cpu m k') (hothers : ∀ q, q ≠ ev.cpu → m.curenv q = k.curenv q)
    (htype : ∀ e, (k.envs e).envStatus ≠ .free → (m.envs e).envStatus ≠ .free →
      (m.envs e).envType = (k.envs e).envType) : FrameStep k k' ev where
  frames := hf.switches hcur hr.switches
  others q hq := (hr.curenv_other hq).trans (hothers q hq)
  type e h h' := (hr.switches.type e).trans (htype e h (hr.switches.live hcur h'))

/-- A message frees nobody and changes nobody's type. -/
theorem SendResult.same (h : SendResult c e value srcva perm k w k') (e' : EnvIdx) :
    (k'.envs e').envType = (k.envs e').envType ∧
      ((k.envs e').envStatus ≠ .free → (k'.envs e').envStatus ≠ .free) := by
  by_cases he : e' = e
  · subst he
    cases h with
    | notRecv _ => exact ⟨rfl, id⟩
    | refused _ _ _ => exact ⟨rfl, id⟩
    | plain _ _ => simp [Kernel.deliver, Kernel.modifyEnv]
    | page _ _ _ _ _ _ _ _ => simp [Kernel.deliver, Kernel.modifyEnv]
  · rw [h.other he]
    exact ⟨rfl, id⟩

theorem SendResult.cpus (h : SendResult c e value srcva perm k w k') : k'.cpus = k.cpus := by
  cases h <;> rfl

/-- **What a step does to frames.** -/
theorem FrameInv.envStep (h : FrameInv k L) (hk : KernelInv held none k)
    (hkeep : KeptMode k L ev) (hcare : FrameCareful k ev) (hs : Step k ev k') :
    FrameStep k k' ev := by
  have hcases : EnvStep False True k ev k' :=
    env_step_cases hs False.elim (fun _ => hcare.tame) fun _ => hk.head_free
  cases hcases with
  | @idle _ t _ hnone hl =>
    have hcpus : ∀ q, ({ k.setCpuStatus ev.cpu .started with ticks := t } : Kernel).curenv q
        = k.curenv q := fun q => congrFun (Kernel.curenv_setCpuStatus ..) q
    refine .of_resched (m := { k.setCpuStatus ev.cpu .started with ticks := t }) h.saved
      (fun c hc => ?_) (Or.inl hl) (fun q _ => hcpus q) fun e _ _ => rfl
    rw [hcpus, hnone] at hc
    cases hc
  | store => exact ⟨h.saved, fun _ _ => rfl, fun _ _ _ => rfl⟩
  | @dying cpu _ _ c pm _ hu _ hl =>
    refine .of_resched (m := (k.freed c pm).setCurenv cpu none) (h.saved.freed pm)
      (fun c' hc' => ?_) (Or.inl hl) (fun q hq => Kernel.curenv_setCurenv_of_ne hq)
      fun e _ he => ?_
    · rw [Event.cpu, Kernel.curenv_setCurenv] at hc'
      cases hc'
    · have hne : e ≠ c := fun heq => he (heq ▸ freed_self)
      exact congrArg Env.envType (freed_of_ne hne)
  | @send cpu inp tf c w k₁ _ hu _ _ hrun hl =>
    have hent := h.entered hu hkeep hcare
    have hcur := curLive_entered hk cpu c tf
    have hc : (k.entered c tf).curenv cpu = some c := hu.2
    -- the call, whoever it is for
    obtain ⟨hf₁, hcpus, hsame⟩ : Frames k₁ ∧ k₁.cpus = (k.entered c tf).cpus ∧
        ∀ e, (k₁.envs e).envType = ((k.entered c tf).envs e).envType ∧
          (((k.entered c tf).envs e).envStatus ≠ .free → (k₁.envs e).envStatus ≠ .free) := by
      rcases tfSend_cases hc hrun with ⟨-, rfl⟩ | ⟨e, hfind, hres⟩
      · exact ⟨hent, rfl, fun _ => ⟨rfl, id⟩⟩
      · have hlive : ((k.entered c tf).envs e).envStatus ≠ .free :=
          (inUse_of_envid2env hfind).elim id (hcur e)
        exact ⟨hent.send hlive hres, hres.cpus, hres.same⟩
    have hcurenv : ∀ q, (k₁.setTf c fun t => t.setEax w).curenv q = k.curenv q := fun q => by
      have hq : k₁.curenv q = (k.entered c tf).curenv q := by
        rw [Kernel.curenv, hcpus, Kernel.curenv]
      exact hq
    refine .of_resched (m := k₁.setTf c fun t => t.setEax w)
      (hf₁.setTf fun hl => (hf₁ c hl).setEax w) (fun c' hc' => ?_) (resched_trapReturn hl)
      (fun q _ => hcurenv q) fun e _ _ => ?_
    · rw [hcurenv] at hc'
      rw [status_setTf]
      exact (hsame c').2 (hcur c' hc')
    · have htf : ((k₁.setTf c fun t => t.setEax w).envs e).envType = (k₁.envs e).envType := by
        by_cases he : e = c
        · subst he
          simp [Kernel.setTf, Kernel.modifyEnv]
        · simp [Kernel.setTf, Kernel.modifyEnv, he]
      rw [htf, (hsame e).1, type_entered]
  | @recv cpu inp tf c _ hu hrecv hl =>
    have hent := h.entered hu hkeep hcare
    have hcur := curLive_entered hk cpu c tf
    refine .of_resched (m := (k.entered c tf).recv c tf.tfRegs.regEdx)
      (hent.modifyEnv fun _ => hent c (hcur c hu.2)) (fun c' hc' => ?_) (Or.inl hl)
      (fun _ _ => rfl) fun e _ _ => ?_
    · exact modifyEnv_live (fun _ => by simp) (hcur c' hc')
    · rw [← type_entered k c e tf]
      by_cases he : e = c
      · subst he
        simp [Kernel.recv, Kernel.modifyEnv]
      · simp [Kernel.recv, Kernel.modifyEnv, he]
  | @acts cpu _ tf c k₁ _ hu _ ha hl =>
    have hent := h.entered hu hkeep hcare
    have hcur := curLive_entered hk cpu c tf
    have hothers : ∀ q, q ≠ cpu → k₁.curenv q = (k.entered c tf).curenv q :=
      fun q hq => curenv_acts ha hq
    refine .of_resched (hent.acts hcur ha) (curLive_acts ha hcur) hl hothers fun e he he' => ?_
    have hlive : ((k.entered c tf).envs e).envStatus ≠ .free := by
      rw [envs_entered]
      exact he
    have hrec : k₁.envs e = _ := record_acts ha hcur hlive he'
    rw [hrec]
    exact type_entered ..

/-- **Steps keep frames in order.** -/
theorem FrameInv.step (h : FrameInv k L) (hk : KernelInv held none k) (hkeep : KeptMode k L ev)
    (hcare : FrameCareful k ev) (hs : Step k ev k') : FrameInv k' (loads k' L ev) := by
  have hstep := h.envStep hk hkeep hcare hs
  have hk' := hk.step hs hcare.env hcare.dst (Or.inl hcare.room)
  -- a CPU that was in user mode all the time
  have hstays : ∀ q c, k'.curenv q = k.curenv q → k'.curenv q = some c →
      UserFrame (k'.envs c).envType (L q) := by
    intro q c hsame hc
    have hc₀ : k.curenv q = some c := hsame ▸ hc
    rw [hstep.type c (hk.cur_live q c hc₀) (hk'.cur_live q c hc)]
    exact h.loaded q c hc₀
  -- the CPU that was in the kernel
  have henters : ∀ q c, k'.curenv q = some c → UserFrame (k'.envs c).envType
      ((match k'.curenv ev.cpu with
        | none => L
        | some c => Function.update L ev.cpu (k'.envs c).envTf) q) := by
    intro q c hc
    by_cases hq : q = ev.cpu
    · subst hq
      rw [hc]
      simp only [Function.update_self]
      exact hstep.frames c (hk'.cur_live _ c hc)
    · have hL : (match k'.curenv ev.cpu with
          | none => L
          | some c => Function.update L ev.cpu (k'.envs c).envTf) q = L q := by
        cases k'.curenv ev.cpu with
        | none => rfl
        | some c' => exact Function.update_of_ne hq _ _
      rw [hL]
      exact hstays q c (hstep.others q hq) hc
  refine ⟨hstep.frames, fun q c hc => ?_⟩
  cases ev with
  | trap cpu inp tf => exact henters q c hc
  | start cpu => exact henters q c hc
  | store cpu va b =>
    cases hs with
    | store _ _ _ => exact hstays q c rfl hc

/-- **Frames stay in order in every run** from a state in which no CPU runs anything. -/
theorem FrameInv.run {L' : ℕ → Trapframe} (h : ∀ L, FrameInv k L) (hk : KernelInv held none k)
    (hr : FrameRuns FrameCareful k k' L') : KernelInv held none k' ∧ FrameInv k' L' := by
  induction hr with
  | nil L => exact ⟨hk, h L⟩
  | step _ hc hkeep hs ih =>
    obtain ⟨hk₁, h₁⟩ := ih
    exact ⟨hk₁.step hs hc.env hc.dst (Or.inl hc.room), h₁.step hk₁ hkeep hc hs⟩

end Runs

/-! ## From boot -/

theorem userFrame_created (binary : Elf) (type : EnvType) :
    UserFrame type (createdTf binary type freshTf) := by
  by_cases hfs : type = .fs
  · subst hfs
    have hintr : (freshTf.tfEflags ||| FL_IOPL_MASK) &&& FL_IF = FL_IF := by decide
    exact ⟨⟨rfl, rfl⟩, hintr, fun h => absurd rfl h⟩
  · have htf : createdTf binary type freshTf = { freshTf with tfEip := binary.eEntry } := by
      simp [createdTf, hfs]
    have hintr : freshTf.tfEflags &&& FL_IF = FL_IF := by decide
    have hiopl : freshTf.tfEflags &&& FL_IOPL_MASK = 0#32 := by decide
    rw [htf]
    exact ⟨⟨rfl, rfl⟩, hintr, fun _ => hiopl⟩

theorem Booted.frameInv {cfg : BootConfig} (hb : Booted cfg k) (L : ℕ → Trapframe) :
    FrameInv k L := by
  refine ⟨fun e he => ?_, fun q c hc => ?_⟩
  · rw [hb.spec.envs] at he ⊢
    have hboot : (bootEnvs cfg e).envStatus ≠ .free → (bootEnvs cfg e).Loadable := by
      rw [bootEnvs]
      split
      · exact fun _ => userFrame_created _ _
      · exact fun _ => userFrame_created _ _
      · exact fun _ => userFrame_created _ _
      · exact fun h => absurd rfl h
    exact hboot he
  · rw [Kernel.curenv, hb.spec.cpus] at hc
    cases hc

/-- **Every saved frame can be loaded.** -/
theorem frames_loadable {cfg : BootConfig} {k₀ k : Kernel} {L : ℕ → Trapframe}
    (hb : Booted cfg k₀) (hr : FrameRuns FrameCareful k₀ k L) :
    ∀ e, (k.envs e).envStatus ≠ .free →
      (k.envs e).envTf.tfCs = GD_UT ||| 3#16 ∧ (k.envs e).envTf.tfSs = GD_UD ||| 3#16 ∧
      (k.envs e).envTf.tfEflags &&& FL_IF = FL_IF ∧
      ((k.envs e).envType ≠ .fs → (k.envs e).envTf.tfEflags &&& FL_IOPL_MASK = 0#32) := by
  intro e he
  obtain ⟨held, hk⟩ := hb.spec.inv
  have h := (FrameInv.run hb.frameInv hk hr).2.saved e he
  exact ⟨h.sel.cs, h.sel.ss, h.intr, h.iopl⟩

/-- The boot CPU has loaded the registers of the file server. -/
theorem frameRun_start : ∃ k₀ k held L, Booted plainConfig k₀ ∧ FrameRuns FrameCareful k₀ k L ∧
    L 0 = fsTf ∧ Looks held 1000 0 0 startView (some 3) k := by
  obtain ⟨k₀, held, hb, hinv, hroom⟩ := plainConfig_boots
  obtain ⟨k, hs, hc, hl⟩ := looks_start hb hinv hroom
  have hcare : FrameCareful k₀ (.start 0) :=
    ⟨⟨trivial, trivial, trivial⟩, trivial, fun _ _ _ _ heq => by cases heq⟩
  refine ⟨k₀, k, held, _, hb, .step (.nil fun _ => fsTf) hcare (fun _ _ _ _ heq => by cases heq) hs,
    ?_, hl⟩
  have hcur : k.curenv 0 = some 0 := hl.user.2
  have htf : (k.view 0).envTf = fsTf := by
    rw [hl.view]
    rfl
  simp only [loads, Event.cpu, hcur, Function.update_self]
  exact htf

/-- The file server keeps its mode in a call. -/
theorem keptMode_fs {L : ℕ → Trapframe} (hL : L 0 = fsTf) (inp : Input) (no a1 a2 a3 a4 : Word) :
    KeptMode k L (.trap 0 inp (callTf fsTf no a1 a2 a3 a4)) := by
  rintro cpu inp' tf c heq -
  cases heq
  rw [hL]
  exact ⟨rfl, rfl, rfl, fun _ => rfl⟩

/-- When the file server has given up the CPU, its frame can be loaded again. -/
theorem frames_loadable_yield : ∃ k₀ k L, Booted plainConfig k₀ ∧ FrameRuns FrameCareful k₀ k L ∧
    k.InUser 0 1 ∧ (k.envs 0).envTf.tfCs = GD_UT ||| 3#16 := by
  obtain ⟨k₀, k₁, held, L, hb, hr, hL, h₁⟩ := frameRun_start
  obtain ⟨k, hs, hc, h⟩ := h₁.yield noInput (t := fsTf) (e := 1) rfl (by decide)
    (.of_far (Far.changed far_startView (by decide)) (by decide) rfl (by decide)) (by decide)
  have hcare : FrameCareful k₁ (.trap 0 noInput (yieldTf fsTf)) := by
    refine ⟨careful_call trivial trivial trivial, fun _ => ⟨fun h => ?_, fun h => ?_⟩, ?_⟩
    · exact absurd h (by decide)
    · exact absurd h (by decide)
    · rintro cpu inp tf c heq - -
      cases heq
      decide
  have hkeep : KeptMode k₁ L (.trap 0 noInput (yieldTf fsTf)) := keptMode_fs hL _ _ _ _ _ _
  have hrun : FrameRuns FrameCareful k₀ k _ := .step hr hcare hkeep hs
  have hst : (k.envs 0).envStatus = .runnable := (h.status _).trans rfl
  exact ⟨k₀, k, _, hb, hrun, h.user, (frames_loadable hb hrun _ (by rw [hst]; decide)).1⟩

/-- **A child of the file server has its I/O privilege**, but not its type. -/
theorem forked_iopl : ∃ k₀ k L, Booted plainConfig k₀ ∧ FrameRuns Careful k₀ k L ∧
    (k.envs 3).envStatus = .notRunnable ∧ (k.envs 3).envType = .user ∧
    (k.envs 3).envTf.tfEflags &&& FL_IOPL_MASK = FL_IOPL_MASK := by
  obtain ⟨k₀, k₁, held, L, hb, hr, hL, h₁⟩ := frameRun_start
  obtain ⟨k, hs, hc, h⟩ := h₁.fork noInput (t := fsTf) rfl (by decide)
  have hcare : Careful k₁ (.trap 0 noInput (forkTf fsTf)) := careful_call trivial trivial trivial
  have hkeep : KeptMode k₁ L (.trap 0 noInput (forkTf fsTf)) := keptMode_fs hL _ _ _ _ _ _
  have hrun : FrameRuns Careful k₀ k _ :=
    .step (hr.mono fun _ _ hc => hc.toCareful) hcare hkeep hs
  have hrec : ∀ {α : Type} (g : Env → α), g (k.view 3) = g (childView 3) :=
    fun g => by rw [h.view]; rfl
  refine ⟨k₀, k, _, hb, hrun, hrec Env.envStatus, hrec Env.envType, ?_⟩
  exact (hrec fun env => env.envTf.tfEflags &&& FL_IOPL_MASK).trans (by decide)

end Jos
