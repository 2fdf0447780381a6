import Jos.Kern.EnvActs

/-!
# Interprocess communication

An environment that calls `sys_ipc_recv` waits until somebody else's
`sys_ipc_try_send` has given it a message.  That it waits is written down
twice, in `env_ipc_recving` and in `env_status`, and the two are set by
different calls.

* `IpcInv` — an environment that waits is not runnable, runs on no CPU, and has
  no message yet.  It is kept by every step, provided `sys_env_set_status` makes
  no environment runnable that waits (`IpcInv.step`).
* `Window` — what is sent to an environment between one `sys_ipc_recv` and the
  next; `Window.outcome` says that exactly one message gets through.
-/

namespace Jos

namespace Kernel

/-- `e` is an environment in `sys_ipc_recv`, according to `env_ipc_recving`. -/
def Waiting (k : Kernel) (e : EnvIdx) : Prop :=
  (k.envs e).envStatus ≠ .free ∧ (k.envs e).envIpcRecving = true

/-- `e` is blocked. -/
structure Blocked (k : Kernel) (e : EnvIdx) : Prop where
  status : (k.envs e).envStatus = .notRunnable
  off : ∀ q, k.curenv q ≠ some e
  noMsg : (k.envs e).envIpcFrom = 0#32

end Kernel

/-- **Who waits is blocked.** -/
def IpcInv (k : Kernel) : Prop := ∀ e, k.Waiting e → k.Blocked e

/-- Nobody starts to wait. -/
def NoneStarts (k k' : Kernel) : Prop := ∀ e, k'.Waiting e → k.Waiting e

/-- The invariant in the middle of a kernel entry: the CPU runs something live. -/
structure IpcEntry (cpu : ℕ) (k : Kernel) : Prop where
  inv : IpcInv k
  cur_live : ∀ c, k.curenv cpu = some c → (k.envs c).envStatus ≠ .free

variable {f : Env → Env} {k k' : Kernel} {w value perm : Word} {ev : Event} {held : Finset ℕ}

section Acts

variable {tame forks : Prop} {cpu : ℕ} {k k' : Kernel} {e : EnvIdx}

/-- What keeps who waits, and where CPUs are, keeps the invariant. -/
theorem IpcInv.mono (h : IpcInv k) (hw : NoneStarts k k')
    (hst : ∀ e, k'.Waiting e → (k'.envs e).envStatus = (k.envs e).envStatus ∨
      (k'.envs e).envStatus = .notRunnable)
    (hfrom : ∀ e, k'.Waiting e → (k'.envs e).envIpcFrom = (k.envs e).envIpcFrom)
    (hcur : ∀ q e, k'.Waiting e → k'.curenv q = some e → k.curenv q = some e) : IpcInv k' := by
  intro e he
  have hb := h e (hw e he)
  refine ⟨?_, fun q hq => hb.off q (hcur q e he hq), (hfrom e he).trans hb.noMsg⟩
  rcases hst e he with heq | heq
  · exact heq.trans hb.status
  · exact heq

theorem IpcInv.congr (h : IpcInv k) (henvs : k'.envs = k.envs) (hcur : k'.curenv = k.curenv) :
    IpcInv k' := by
  intro e he
  rw [Kernel.Waiting, henvs] at he
  have hb := h e he
  exact ⟨henvs ▸ hb.status, hcur ▸ hb.off, henvs ▸ hb.noMsg⟩

/-- Memory, the free list and the clock do not matter. -/
theorem IpcEntry.congr (h : IpcEntry cpu k) (henvs : k'.envs = k.envs)
    (hcur : k'.curenv = k.curenv) : IpcEntry cpu k' :=
  ⟨h.inv.congr henvs hcur, henvs ▸ hcur ▸ h.cur_live⟩

/-- A change to one record. -/
theorem IpcEntry.modifyEnv (h : IpcEntry cpu k)
    (hlive : (f (k.envs e)).envStatus ≠ .free ∨ k.curenv cpu ≠ some e)
    (hwait : (f (k.envs e)).envStatus ≠ .free → (f (k.envs e)).envIpcRecving = true →
      k.Waiting e ∧ (f (k.envs e)).envStatus = .notRunnable ∧
        (f (k.envs e)).envIpcFrom = (k.envs e).envIpcFrom) :
    IpcEntry cpu (k.modifyEnv e f) ∧ NoneStarts k (k.modifyEnv e f) := by
  have hself : (k.modifyEnv e f).envs e = f (k.envs e) := by simp [Kernel.modifyEnv]
  have hother : ∀ {e'}, e' ≠ e → (k.modifyEnv e f).envs e' = k.envs e' := fun hne => by
    simp [Kernel.modifyEnv, hne]
  have hsplit : ∀ e', (k.modifyEnv e f).Waiting e' → k.Waiting e' ∧
      (((k.modifyEnv e f).envs e').envStatus = (k.envs e').envStatus ∨
        ((k.modifyEnv e f).envs e').envStatus = .notRunnable) ∧
      ((k.modifyEnv e f).envs e').envIpcFrom = (k.envs e').envIpcFrom := by
    intro e' he'
    by_cases hne : e' = e
    · subst hne
      rw [Kernel.Waiting, hself] at he'
      obtain ⟨hw, hst, hfrom⟩ := hwait he'.1 he'.2
      rw [hself]
      exact ⟨hw, Or.inr hst, hfrom⟩
    · rw [Kernel.Waiting, hother hne] at he'
      rw [hother hne]
      exact ⟨he', Or.inl rfl, rfl⟩
  have hnone : NoneStarts k (k.modifyEnv e f) := fun e' he' => (hsplit e' he').1
  refine ⟨⟨h.inv.mono hnone (fun e' he' => (hsplit e' he').2.1) (fun e' he' => (hsplit e' he').2.2)
    fun _ _ _ hq => hq, fun c hc => ?_⟩, hnone⟩
  have hck : k.curenv cpu = some c := hc
  by_cases hne : c = e
  · subst hne
    rw [hself]
    exact hlive.resolve_right fun hnot => hnot hck
  · rw [hother hne]
    exact h.cur_live c hck

/-- A change to one record that concerns neither status nor messages. -/
theorem IpcEntry.sameIpc (h : IpcEntry cpu k)
    (hst : (f (k.envs e)).envStatus = (k.envs e).envStatus)
    (hrec : (f (k.envs e)).envIpcRecving = (k.envs e).envIpcRecving)
    (hfrom : (f (k.envs e)).envIpcFrom = (k.envs e).envIpcFrom) :
    IpcEntry cpu (k.modifyEnv e f) ∧ NoneStarts k (k.modifyEnv e f) := by
  refine h.modifyEnv ?_ fun hlive hwait => ?_
  · by_cases hc : k.curenv cpu = some e
    · exact Or.inl (hst ▸ h.cur_live e hc)
    · exact Or.inr hc
  · rw [hst] at hlive ⊢
    rw [hrec] at hwait
    exact ⟨⟨hlive, hwait⟩, (h.inv e ⟨hlive, hwait⟩).status, hfrom⟩

/-- What waits is not taken for running. -/
theorem IpcInv.not_waiting (h : IpcInv k) (hst : (k.envs e).envStatus ≠ .notRunnable) :
    ¬ k.Waiting e := fun hw => hst (h e hw).status

/-- **Acts keep the invariant**, and nobody starts to wait. -/
theorem IpcEntry.act (h : IpcEntry cpu k) (ha : EnvAct True tame forks cpu k k') :
    IpcEntry cpu k' ∧ NoneStarts k k' := by
  cases ha with
  | mem pm => exact ⟨h.congr rfl rfl, fun _ he => he⟩
  | tick t => exact ⟨h.congr rfl rfl, fun _ he => he⟩
  | @setStatus e s huse hs hcalm =>
    have hlive : (k.envs e).envStatus ≠ .free := huse.elim id (h.cur_live e)
    refine h.modifyEnv (Or.inl (by rcases hs with rfl | rfl <;> simp)) fun _ hwait => ?_
    have hwait' : (k.envs e).envIpcRecving = true := hwait
    rcases hs with rfl | rfl
    · rw [hcalm trivial rfl] at hwait'
      cases hwait'
    · exact ⟨⟨hlive, hwait'⟩, rfl, rfl⟩
  | resetTf _ => exact h.sameIpc rfl rfl rfl
  | upcall _ => exact h.sameIpc rfl rfl rfl
  | setEax _ => exact h.sameIpc rfl rfl rfl
  | setUpcall => exact h.sameIpc rfl rfl rfl
  | @fork c e p pm _ hc hst _ =>
    -- the new environment does not wait
    have hk : IpcEntry cpu { k with pm := pm, envFreeList := (k.envs e).envLink } :=
      h.congr rfl rfl
    have hrec := hk.modifyEnv (e := e) (f := fun _ => (k.forked c e p pm).envs e)
      (Or.inl (by simp [Kernel.forked, Kernel.modifyEnv]))
      (fun _ hwait => by
        simp [Kernel.forked, Kernel.allocated, Kernel.modifyEnv] at hwait)
    have heq : { k with pm := pm, envFreeList := (k.envs e).envLink }.modifyEnv e
        (fun _ => (k.forked c e p pm).envs e) = k.forked c e p pm := by
      simp only [Kernel.forked, Kernel.allocated, Kernel.modifyEnv, Function.update_self,
        Function.update_idem]
    rw [heq] at hrec
    exact hrec
  | @mark e _ hrun =>
    refine h.modifyEnv (Or.inl (by simp)) fun _ hwait => ?_
    exact absurd ⟨by simp [hrun], hwait⟩ (h.inv.not_waiting (by simp [hrun]))
  | @free e pm _ hcur =>
    have hk : IpcEntry cpu { k with pm := pm, envFreeList := some e } := h.congr rfl rfl
    exact hk.modifyEnv (e := e) (f := fun env => { env with
      envPgdir := none, envStatus := .free, envLink := k.envFreeList }) (Or.inr hcur)
      fun hlive => (hlive rfl).elim
  | @exit c pm _ hc =>
    have hk : IpcEntry cpu ({ k with pm := pm, envFreeList := some c }.setCurenv cpu none) := by
      refine ⟨h.inv.mono (fun _ he => he) (fun _ _ => Or.inl rfl) (fun _ _ => rfl)
        fun q e _ hq => ?_, fun c' hc' => ?_⟩
      · by_cases hqc : q = cpu
        · subst hqc
          rw [Kernel.curenv_setCurenv] at hq
          cases hq
        · rwa [Kernel.curenv_setCurenv_of_ne hqc] at hq
      · rw [Kernel.curenv_setCurenv] at hc'
        cases hc'
    refine hk.modifyEnv (e := c) (f := fun env => { env with
      envPgdir := none, envStatus := .free, envLink := k.envFreeList }) (Or.inr ?_)
      fun hlive => (hlive rfl).elim
    rw [Kernel.curenv_setCurenv]
    simp

theorem IpcEntry.acts (h : IpcEntry cpu k)
    (ha : Relation.ReflTransGen (EnvAct True tame forks cpu) k k') :
    IpcEntry cpu k' ∧ NoneStarts k k' := by
  induction ha with
  | refl => exact ⟨h, fun _ he => he⟩
  | tail _ ha ih =>
    obtain ⟨h', hn⟩ := ih
    obtain ⟨h'', hn'⟩ := h'.act ha
    exact ⟨h'', fun e he => hn e (hn' e he)⟩

end Acts

/-! ## Messages -/

/-- Environment `e` has the same message, or the same lack of one. -/
structure SameMail (e : EnvIdx) (k k' : Kernel) : Prop where
  recving : (k'.envs e).envIpcRecving = (k.envs e).envIpcRecving
  sender : (k'.envs e).envIpcFrom = (k.envs e).envIpcFrom
  value : (k'.envs e).envIpcValue = (k.envs e).envIpcValue

theorem SameMail.refl (e : EnvIdx) (k : Kernel) : SameMail e k k := ⟨rfl, rfl, rfl⟩

theorem SameMail.trans {e : EnvIdx} {k'' : Kernel} (h : SameMail e k k') (h' : SameMail e k' k'') :
    SameMail e k k'' :=
  ⟨h'.recving.trans h.recving, h'.sender.trans h.sender, h'.value.trans h.value⟩

theorem SameMail.of_eq {e : EnvIdx} (h : k'.envs e = k.envs e) : SameMail e k k' :=
  ⟨by rw [h], by rw [h], by rw [h]⟩

section Mail

variable {tame forks : Prop} {cpu : ℕ} {k k' : Kernel} {e e' : EnvIdx}

/-- A change to one record that leaves its message alone. -/
theorem SameMail.modifyEnv (hrec : (f (k.envs e')).envIpcRecving = (k.envs e').envIpcRecving)
    (hfrom : (f (k.envs e')).envIpcFrom = (k.envs e').envIpcFrom)
    (hval : (f (k.envs e')).envIpcValue = (k.envs e').envIpcValue) :
    SameMail e k (k.modifyEnv e' f) := by
  by_cases he : e = e'
  · subst he
    have hself : (k.modifyEnv e f).envs e = f (k.envs e) := by simp [Kernel.modifyEnv]
    exact ⟨by rw [hself, hrec], by rw [hself, hfrom], by rw [hself, hval]⟩
  · exact .of_eq (by simp [Kernel.modifyEnv, he])

/-- An environment that is there before and after has kept its message. -/
theorem IpcEntry.acts_mail (h : IpcEntry cpu k)
    (ha : Relation.ReflTransGen (EnvAct True tame forks cpu) k k')
    (hlive : (k.envs e).envStatus ≠ .free) (hlive' : (k'.envs e).envStatus ≠ .free) :
    SameMail e k k' := by
  have hrec : k'.envs e = _ := record_acts ha h.cur_live hlive hlive'
  exact ⟨by rw [hrec], by rw [hrec], by rw [hrec]⟩

end Mail

/-! ## The scheduler -/

section Sched

variable {cpu : ℕ} {k k' : Kernel} {c e : EnvIdx}

/-- `sched_yield` leaves the CPU with an environment that may run. -/
theorem curenv_of_schedYield (hl : Leaves (schedYield cpu) k k') {q : ℕ}
    (hq : k'.curenv q = some e) :
    q ≠ cpu ∧ k.curenv q = some e ∨
      (k.envs e).envStatus = .runnable ∨ (k.envs e).envStatus = .running := by
  have hset : ∀ e', (k.setCpunum e' cpu).curenv = k.curenv := fun _ => rfl
  rcases schedYield_cases k cpu with ⟨e', hst, hy⟩ | ⟨e', -, hst, hy⟩ | hy | hy <;>
    rw [Leaves, hy] at hl
  · obtain ⟨rfl, -⟩ := envRun_leaves hl
    rw [curenv_switched, hset] at hq
    split at hq
    · cases hq
      exact Or.inr (Or.inl hst)
    · next hne => exact Or.inl ⟨hne, hq⟩
  · obtain ⟨rfl, -⟩ := envRun_leaves hl
    rw [curenv_switched, hset] at hq
    split at hq
    · cases hq
      exact Or.inr (Or.inr hst)
    · next hne => exact Or.inl ⟨hne, hq⟩
  · obtain rfl := schedHalt_leaves hl
    rw [Kernel.curenv_setCpuStatus] at hq
    by_cases hne : q = cpu
    · subst hne
      rw [Kernel.curenv_setCurenv] at hq
      cases hq
    · exact Or.inl ⟨hne, by rwa [Kernel.curenv_setCurenv_of_ne hne] at hq⟩
  · rcases hl with hl | hl <;> cases hl

/-- Switching creates nobody, … -/
theorem Switches.live (h : Switches cpu k k')
    (hlive : ∀ c, k.curenv cpu = some c → (k.envs c).envStatus ≠ .free)
    (hst : (k'.envs e).envStatus ≠ .free) : (k.envs e).envStatus ≠ .free := by
  rcases h.status e with heq | ⟨hrun, -⟩ | ⟨hrun | hc, -⟩
  · exact heq ▸ hst
  · simp [hrun]
  · simp [hrun]
  · exact hlive e hc

/-- … destroys nobody, … -/
theorem Switches.stays_live (h : Switches cpu k k') (hst : (k.envs e).envStatus ≠ .free) :
    (k'.envs e).envStatus ≠ .free := by
  rcases h.status e with heq | ⟨-, -, hnew⟩ | ⟨-, hnew⟩
  · exact heq ▸ hst
  · simp [hnew]
  · simp [hnew]

/-- … makes nobody wait, … -/
theorem Switches.noneStarts (h : Switches cpu k k')
    (hlive : ∀ c, k.curenv cpu = some c → (k.envs c).envStatus ≠ .free) : NoneStarts k k' := by
  rintro e ⟨hst, hrec⟩
  rw [h.env e] at hrec
  exact ⟨h.live hlive hst, hrec⟩

/-- … and leaves messages alone. -/
theorem Switches.sameMail (h : Switches cpu k k') (e : EnvIdx) : SameMail e k k' :=
  ⟨by rw [h.env e], by rw [h.env e], by rw [h.env e]⟩

/-- An environment that is not runnable is none the scheduler runs. -/
theorem status_switched (hst : (k.envs e).envStatus = .notRunnable) (hne : e ≠ c) :
    ((k.switched cpu c).envs e).envStatus = .notRunnable := by
  have hother : (k.switched cpu c).envs e = (k.park cpu).envs e := by
    simp [Kernel.switched, Kernel.modifyEnv, Kernel.setCurenv, hne]
  rw [hother]
  rcases k.park_envs cpu e with hp | ⟨hrun, -, -⟩
  · rw [hp, hst]
  · rw [hst] at hrun
    cases hrun

theorem status_of_schedYield (hl : Leaves (schedYield cpu) k k')
    (hst : (k.envs e).envStatus = .notRunnable) : (k'.envs e).envStatus = .notRunnable := by
  have hset : ∀ e', ((k.setCpunum e' cpu).envs e).envStatus = .notRunnable := fun e' => by
    by_cases he : e = e'
    · subst he
      simpa [Kernel.setCpunum, Kernel.modifyEnv] using hst
    · simpa [Kernel.setCpunum, Kernel.modifyEnv, he] using hst
  rcases schedYield_cases k cpu with ⟨e', hst', hy⟩ | ⟨e', -, hst', hy⟩ | hy | hy <;>
    rw [Leaves, hy] at hl
  · obtain ⟨rfl, -⟩ := envRun_leaves hl
    refine status_switched (hset e') fun he => ?_
    rw [← he, hst] at hst'
    cases hst'
  · obtain ⟨rfl, -⟩ := envRun_leaves hl
    refine status_switched (hset e') fun he => ?_
    rw [← he, hst] at hst'
    cases hst'
  · obtain rfl := schedHalt_leaves hl
    exact hst
  · rcases hl with hl | hl <;> cases hl

/-- **`sched_yield` restores the invariant** for an environment that has just
started to wait on this CPU. -/
theorem ipcInv_schedYield
    (h : ∀ e, k.Waiting e → (k.envs e).envStatus = .notRunnable ∧
      (k.envs e).envIpcFrom = 0#32 ∧ ∀ q, q ≠ cpu → k.curenv q ≠ some e)
    (hlive : ∀ c, k.curenv cpu = some c → (k.envs c).envStatus ≠ .free)
    (hl : Leaves (schedYield cpu) k k') : IpcInv k' ∧ NoneStarts k k' := by
  have hsw := switches_schedYield hl
  have hnone := hsw.noneStarts hlive
  refine ⟨fun e he => ?_, hnone⟩
  obtain ⟨hst, hfrom, hoff⟩ := h e (hnone e he)
  refine ⟨status_of_schedYield hl hst, fun q hq => ?_, by rw [hsw.env e]; exact hfrom⟩
  rcases curenv_of_schedYield hl hq with ⟨hne, hcur⟩ | hrun | hrun
  · exact hoff q hne hcur
  · rw [hst] at hrun
    cases hrun
  · rw [hst] at hrun
    cases hrun

/-- The end of a kernel entry keeps the invariant. -/
theorem IpcEntry.resched (h : IpcEntry cpu k) (hs : Resched cpu k k') :
    IpcInv k' ∧ NoneStarts k k' := by
  have hsw := hs.switches
  have hnone := hsw.noneStarts h.cur_live
  rcases hs with hl | ⟨c, hc, hl⟩
  · refine ipcInv_schedYield (fun e he => ?_) h.cur_live hl
    exact ⟨(h.inv e he).status, (h.inv e he).noMsg, fun q _ => (h.inv e he).off q⟩
  · obtain ⟨rfl, -⟩ := envRun_leaves hl
    refine ⟨fun e he => ?_, hnone⟩
    have hb := h.inv e (hnone e he)
    have hne : e ≠ c := fun heq => hb.off cpu (heq ▸ hc)
    refine ⟨status_switched hb.status hne, fun q hq => ?_, by rw [hsw.env e]; exact hb.noMsg⟩
    rw [curenv_switched] at hq
    split at hq
    · cases hq
      exact hne rfl
    · exact hb.off q hq

end Sched

/-! ## Steps -/

/-- Environment `e` calls `sys_ipc_recv`. -/
def RecvBy (k : Kernel) (ev : Event) (e : EnvIdx) : Prop :=
  ∃ cpu inp tf, ev = .trap cpu inp tf ∧ k.InUser cpu e ∧ IsRecv tf

section Steps

variable {cpu : ℕ} {k k' : Kernel} {c e : EnvIdx} {held : Finset ℕ} {tf : Trapframe}

theorem IpcInv.enter (h : IpcInv k) (hk : KernelInv held none k) (cpu : ℕ) : IpcEntry cpu k :=
  ⟨h, fun c hc => hk.cur_live cpu c hc⟩

theorem IpcEntry.setTf (h : IpcEntry cpu k) (e : EnvIdx) (f : Trapframe → Trapframe) :
    IpcEntry cpu (k.setTf e f) ∧ NoneStarts k (k.setTf e f) :=
  h.sameIpc (f := fun env => { env with envTf := f env.envTf }) rfl rfl rfl

theorem IpcEntry.entered (h : IpcEntry cpu k) (c : EnvIdx) (tf : Trapframe) :
    IpcEntry cpu (k.entered c tf) ∧ NoneStarts k (k.entered c tf) :=
  h.setTf c fun _ => tf

/-- A trap frame asks to send to an environment there is not, or to `e`. -/
theorem tfSend_cases (hc : k.curenv cpu = some c) (h : tfSend cpu tf k = .ok w k') :
    (w = Errno.badEnv.ret ∧ k' = k) ∨
    ∃ e, envid2env cpu tf.tfRegs.regEdx false k = .ok (some e) ∧
      SendResult c e tf.tfRegs.regEcx tf.tfRegs.regEbx tf.tfRegs.regEdi k w k' := by
  cases hfind : envid2env cpu tf.tfRegs.regEdx false k with
  | error r =>
    simp only [tfSend, sysIpcTrySend, withEnv, run_get_bind, hfind] at h
    cases h
    refine Or.inl ⟨?_, rfl⟩
    simp only [envid2env] at hfind
    split at hfind
    · cases hfind
    · split at hfind
      · cases hfind
        rfl
      · split at hfind
        · cases hfind
          rfl
        · cases hfind
  | ok o =>
    cases o with
    | none =>
      simp only [tfSend, sysIpcTrySend, withEnv, run_get_bind, hfind] at h
      cases h
    | some e => exact Or.inr ⟨e, rfl, sysIpcTrySend_cases hfind hc h⟩

/-- A message ends the wait of the environment it goes to. -/
theorem IpcEntry.deliver (h : IpcEntry cpu k) {perm : Option Word} :
    IpcEntry cpu (k.deliver c e value perm) ∧ NoneStarts k (k.deliver c e value perm) :=
  h.modifyEnv (Or.inl (by simp)) fun _ hwait => by cases hwait

theorem IpcEntry.send (h : IpcEntry cpu k) (hc : k.curenv cpu = some c)
    (hrun : tfSend cpu tf k = .ok w k') : IpcEntry cpu k' ∧ NoneStarts k k' := by
  rcases tfSend_cases hc hrun with ⟨-, rfl⟩ | ⟨e, -, hres⟩
  · exact ⟨h, fun _ he => he⟩
  · cases hres with
    | notRecv _ => exact ⟨h, fun _ he => he⟩
    | refused _ _ _ => exact ⟨h, fun _ he => he⟩
    | plain _ _ => exact h.deliver
    | @page _ _ _ _ pm _ _ _ _ _ _ _ _ =>
      have hk : IpcEntry cpu { k with pm := pm } := h.congr rfl rfl
      exact hk.deliver

/-- The environment that runs on the CPU starts to wait. -/
theorem IpcEntry.recv (h : IpcEntry cpu k) {dstva : Word} (hc : k.curenv cpu = some c)
    (honce : ∀ q, q ≠ cpu → k.curenv q ≠ some c)
    (hl : Leaves (schedYield cpu) (k.recv c dstva) k') :
    IpcInv k' ∧ ∀ e, k'.Waiting e → k.Waiting e ∨ e = c := by
  have hself : (k.recv c dstva).envs c = { k.envs c with
      envIpcRecving := true, envIpcDstva := dstva, envStatus := .notRunnable,
      envIpcFrom := 0#32 } := by
    simp [Kernel.recv, Kernel.modifyEnv]
  have hother : ∀ {e}, e ≠ c → (k.recv c dstva).envs e = k.envs e := fun hne => by
    simp [Kernel.recv, Kernel.modifyEnv, hne]
  have hcur : (k.recv c dstva).curenv = k.curenv := rfl
  have hstart : ∀ e, (k.recv c dstva).Waiting e → k.Waiting e ∨ e = c := fun e he => by
    by_cases hne : e = c
    · exact Or.inr hne
    · rw [Kernel.Waiting, hother hne] at he
      exact Or.inl he
  have hlive : ∀ c', (k.recv c dstva).curenv cpu = some c' →
      ((k.recv c dstva).envs c').envStatus ≠ .free := fun c' hc' => by
    obtain rfl : c = c' := by simpa using hc.symm.trans hc'
    rw [hself]
    simp
  have hnear : ∀ e, (k.recv c dstva).Waiting e →
      ((k.recv c dstva).envs e).envStatus = .notRunnable ∧
      ((k.recv c dstva).envs e).envIpcFrom = 0#32 ∧
      ∀ q, q ≠ cpu → (k.recv c dstva).curenv q ≠ some e := fun e he => by
    by_cases hne : e = c
    · subst hne
      rw [hself, hcur]
      exact ⟨rfl, rfl, honce⟩
    · have hb := h.inv e ((hstart e he).resolve_right hne)
      rw [hother hne, hcur]
      exact ⟨hb.status, hb.noMsg, fun q _ => hb.off q⟩
  obtain ⟨h', hn⟩ := ipcInv_schedYield hnear hlive hl
  exact ⟨h', fun e he => hstart e (hn e he)⟩

/-- **Steps keep the invariant**, and only `sys_ipc_recv` makes anybody wait. -/
theorem IpcInv.step (h : IpcInv k) (hk : KernelInv held none k) (hs : Step k ev k')
    (hcalm : CalmEvent k ev) : IpcInv k' ∧ ∀ e, k'.Waiting e → k.Waiting e ∨ RecvBy k ev e := by
  have hcases : EnvStep True False k ev k' :=
    env_step_cases hs (fun _ => hcalm) False.elim fun _ => hk.head_free
  cases hcases with
  | @idle _ t _ hnone hl =>
    have hidle : IpcEntry ev.cpu { k.setCpuStatus ev.cpu .started with ticks := t } :=
      (h.enter hk ev.cpu).congr rfl (Kernel.curenv_setCpuStatus ..)
    obtain ⟨h', hn⟩ := hidle.resched (Or.inl hl)
    exact ⟨h', fun e he => Or.inl (hn e he)⟩
  | store => exact ⟨h.congr rfl rfl, fun e he => Or.inl he⟩
  | @dying cpu _ _ c pm _ hu _ hl =>
    have hexit : EnvAct True False False cpu k ((k.freed c pm).setCurenv cpu none) :=
      .exit not_false hu.2
    obtain ⟨h₁, hn₁⟩ := (h.enter hk cpu).act hexit
    obtain ⟨h', hn⟩ := h₁.resched (Or.inl hl)
    exact ⟨h', fun e he => Or.inl (hn₁ e (hn e he))⟩
  | @send cpu _ tf c w k₁ _ hu _ _ hrun hl =>
    obtain ⟨h₁, hn₁⟩ := (h.enter hk cpu).entered c tf
    obtain ⟨h₂, hn₂⟩ := h₁.send hu.2 hrun
    obtain ⟨h₃, hn₃⟩ := h₂.setTf c fun t => t.setEax w
    obtain ⟨k₂, hacts, hsched⟩ := (does_trapReturn (R := EnvAct True False False cpu)).leaves hl
    obtain ⟨h₄, hn₄⟩ := h₃.acts hacts
    obtain ⟨h', hn⟩ := h₄.resched hsched
    exact ⟨h', fun e he => Or.inl (hn₁ e (hn₂ e (hn₃ e (hn₄ e (hn e he)))))⟩
  | @recv cpu inp tf c _ hu hrecv hl =>
    obtain ⟨h₁, hn₁⟩ := (h.enter hk cpu).entered c tf
    obtain ⟨h', hn⟩ := h₁.recv hu.2 (fun q hq hqc => hq (hk.cur_once q cpu c hqc hu.2)) hl
    refine ⟨h', fun e he => (hn e he).imp (hn₁ e) ?_⟩
    rintro rfl
    exact ⟨cpu, inp, tf, rfl, hu, hrecv⟩
  | @acts cpu _ tf c k₁ _ hu _ ha hl =>
    obtain ⟨h₁, hn₁⟩ := (h.enter hk cpu).entered c tf
    obtain ⟨h₂, hn₂⟩ := h₁.acts ha
    obtain ⟨h', hn⟩ := h₂.resched hl
    exact ⟨h', fun e he => Or.inl (hn₁ e (hn₂ e (hn e he)))⟩

end Steps

/-! ## Runs -/

/-- **What user code has to take care of.**  Nobody makes an environment
runnable that waits for a message, and the memory of the kernel is not damaged:
the conditions of `Careful`, except that nothing is asked of the receiver of a
message. -/
structure IpcCareful (k : Kernel) (ev : Event) : Prop where
  calm : CalmEvent k ev
  env : (∀ cpu inp tf, ev = .trap cpu inp tf → ¬ IsSend tf) → EnvCareful k ev
  dst : DstCareful k ev
  room : RoomCareful k ev

/-- That the receiver of a message runs on no CPU need not be asked for. -/
theorem IpcCareful.careful (h : IpcCareful k ev) (hi : IpcInv k) (hk : KernelInv held none k) :
    Careful k ev := by
  refine ⟨?_, h.dst, h.room⟩
  cases ev with
  | start cpu => trivial
  | store cpu va b => trivial
  | trap cpu inp tf =>
    by_cases hsend : IsSend tf
    · intro _
      rw [TfEnvSafe, EnvSafe, hsend.2]
      rintro e he hrecv ⟨q, -, hq⟩
      exact (hi e ⟨hk.inUse (inUse_of_envid2env he), hrecv.1⟩).off q hq
    · refine h.env fun cpu' inp' tf' heq => ?_
      cases heq
      exact hsend

/-- Both invariants hold in every such run. -/
theorem IpcInv.run (h : IpcInv k) (hk : KernelInv held none k) (hr : Runs IpcCareful k k') :
    KernelInv held none k' ∧ IpcInv k' := by
  refine hr.inv (I := fun k => KernelInv held none k ∧ IpcInv k) ⟨hk, h⟩ ?_
  rintro k₁ ev k₂ ⟨hk₁, h₁⟩ hc hs
  have hcare := hc.careful h₁ hk₁
  exact ⟨hk₁.step hs hcare.env hcare.dst (Or.inl hcare.room), (h₁.step hk₁ hs hc.calm).1⟩

/-- In the run from `k₀` to `k`, the last thing `e` did was to call `sys_ipc_recv`:
no CPU has run it since. -/
def InRecv (C : Kernel → Event → Prop) (k₀ k : Kernel) (e : EnvIdx) : Prop :=
  ∃ k₁ ev k₂, Runs C k₀ k₁ ∧ RecvBy k₁ ev e ∧ Step k₁ ev k₂ ∧
    Runs (fun k _ => ∀ q, k.curenv q ≠ some e) k₂ k ∧ ∀ q, k.curenv q ≠ some e

/-- **Who waits has been in `sys_ipc_recv` all the time.** -/
theorem inRecv_of_waiting (h : ∀ e, ¬ k.Waiting e) (hk : KernelInv held none k)
    (hr : Runs IpcCareful k k') : ∀ e, k'.Waiting e → InRecv IpcCareful k k' e := by
  induction hr with
  | nil => exact fun e he => absurd he (h e)
  | @step k₁ k₂ ev hr hc hs ih =>
    intro e he
    obtain ⟨hk₁, hi₁⟩ := IpcInv.run (fun e he => absurd he (h e)) hk hr
    obtain ⟨hi₂, hstart⟩ := hi₁.step hk₁ hs hc.calm
    rcases hstart e he with hw | hrecv
    · -- it waited before, and this step has not run it
      obtain ⟨ka, ev', kb, hra, hrecv, hsa, hrb, hoff⟩ := ih e hw
      exact ⟨ka, ev', kb, hra, hrecv, hsa, .step hrb hoff hs, (hi₂ e he).off⟩
    · exact ⟨k₁, ev, k₂, hr, hrecv, hs, .nil, (hi₂ e he).off⟩

/-! ## Exactly one message -/

/-- Somebody sends to `e`. -/
def SendsTo (k : Kernel) (ev : Event) (e : EnvIdx) : Prop :=
  ∃ cpu inp tf c, ev = .trap cpu inp tf ∧ k.InUser cpu c ∧ (k.envs c).envStatus ≠ .dying ∧
    IsSend tf ∧ envid2env cpu tf.tfRegs.regEdx false k = .ok (some e)

section Window

variable {cpu : ℕ} {k k' : Kernel} {c e : EnvIdx} {held : Finset ℕ} {tf : Trapframe} {inp : Input}

theorem SameMail.setTf (k : Kernel) (e e' : EnvIdx) (f : Trapframe → Trapframe) :
    SameMail e k (k.setTf e' f) := .modifyEnv rfl rfl rfl

theorem status_setTf (k : Kernel) (e e' : EnvIdx) (f : Trapframe → Trapframe) :
    ((k.setTf e' f).envs e).envStatus = (k.envs e).envStatus := by
  by_cases he : e = e'
  · subst he
    simp [Kernel.setTf, Kernel.modifyEnv]
  · simp [Kernel.setTf, Kernel.modifyEnv, he]

/-- What a send changes of any environment but the receiver. -/
theorem SendResult.other {srcva : Word} {e' : EnvIdx} (h : SendResult c e value srcva perm k w k')
    (hne : e' ≠ e) : k'.envs e' = k.envs e' := by
  cases h with
  | notRecv _ => rfl
  | refused _ _ _ => rfl
  | plain _ _ => simp [Kernel.deliver, Kernel.modifyEnv, hne]
  | page _ _ _ _ _ _ _ _ => simp [Kernel.deliver, Kernel.modifyEnv, hne]

/-- After a system call that has returned. -/
theorem resched_trapReturn (hl : Leaves (trapReturn cpu) k k') : Resched cpu k k' := by
  obtain ⟨k₁, hacts, hsched⟩ := (does_trapReturn (R := fun _ _ => False)).leaves hl
  obtain rfl : k₁ = k := by
    rcases hacts.cases_tail with heq | ⟨_, _, hfalse⟩
    · exact heq
    · exact hfalse.elim
  exact hsched

theorem switches_trapReturn (hl : Leaves (trapReturn cpu) k k') : Switches cpu k k' :=
  (resched_trapReturn hl).switches

/-- **Only the calls of IPC touch messages.** -/
theorem IpcInv.step_mail (h : IpcInv k) (hk : KernelInv held none k) (hs : Step k ev k')
    (hcalm : CalmEvent k ev) (hsend : ¬ SendsTo k ev e) (hrecv : ¬ RecvBy k ev e)
    (hlive : (k.envs e).envStatus ≠ .free) (hlive' : (k'.envs e).envStatus ≠ .free) :
    SameMail e k k' := by
  have hcases : EnvStep True False k ev k' :=
    env_step_cases hs (fun _ => hcalm) False.elim fun _ => hk.head_free
  cases hcases with
  | idle _ hl =>
    have hsw := (switches_schedYield hl).sameMail e
    exact ⟨hsw.recving, hsw.sender, hsw.value⟩
  | store => exact .of_eq rfl
  | @dying cpu _ _ c pm _ hu _ hl =>
    have hsw := switches_schedYield hl
    have hne : e ≠ c := by
      rintro rfl
      refine hsw.live (e := e) (fun c' hc' => ?_) hlive' ?_
      · rw [Kernel.curenv_setCurenv] at hc'
        cases hc'
      · simp [Kernel.freed, Kernel.modifyEnv, Kernel.setCurenv]
    refine SameMail.trans (.of_eq ?_) (hsw.sameMail e)
    simp [Kernel.freed, Kernel.modifyEnv, Kernel.setCurenv, hne]
  | @send cpu inp tf c w k₁ _ hu hst hcall hrun hl =>
    have hmail : SameMail e (k.entered c tf) k₁ := by
      have hc : (k.entered c tf).curenv cpu = some c := hu.2
      rcases tfSend_cases hc hrun with ⟨-, rfl⟩ | ⟨e', hfind, hres⟩
      · exact .refl ..
      · refine .of_eq (hres.other ?_)
        rintro rfl
        rw [envid2env_entered] at hfind
        exact hsend ⟨cpu, inp, tf, c, rfl, hu, hst, hcall, hfind⟩
    exact ((SameMail.setTf ..).trans hmail).trans
      ((SameMail.setTf ..).trans ((switches_trapReturn hl).sameMail e))
  | @recv cpu inp tf c _ hu hrecv' hl =>
    have hne : e ≠ c := by
      rintro rfl
      exact hrecv ⟨cpu, inp, tf, rfl, hu, hrecv'⟩
    have hother : SameMail e (k.entered c tf) ((k.entered c tf).recv c tf.tfRegs.regEdx) :=
      .of_eq (by simp [Kernel.recv, Kernel.modifyEnv, hne])
    exact ((SameMail.setTf ..).trans hother).trans ((switches_schedYield hl).sameMail e)
  | @acts cpu _ tf c k₁ _ hu _ ha hl =>
    have h₁ := ((h.enter hk cpu).entered c tf).1
    have hlive₁ := hl.switches.live (h₁.acts ha).1.cur_live hlive'
    have hlive₀ : ((k.entered c tf).envs e).envStatus ≠ .free := by
      rw [Kernel.entered, status_setTf]
      exact hlive
    exact ((SameMail.setTf ..).trans (h₁.acts_mail ha hlive₀ hlive₁)).trans
      (hl.switches.sameMail e)

/-- A call of `sys_ipc_try_send`: what was sent, by whom, what the call returned, and
the kernel before and after it. -/
structure Sent where
  sender : Word
  value : Word
  result : Word
  before : Kernel
  after : Kernel

/-- **A run in which `e` does not call `sys_ipc_recv` and is not destroyed**, with the
list of the calls that send to it. -/
inductive Window (C : Kernel → Event → Prop) (e : EnvIdx) (k : Kernel) :
    List Sent → Kernel → Prop
  | nil : Window C e k [] k
  | send {l : List Sent} {cpu : ℕ} {inp : Input} {tf : Trapframe} {c : EnvIdx} {w : Word}
      {k₁ k₂ k' : Kernel} : Window C e k l k₁ → C k₁ (.trap cpu inp tf) →
      Step k₁ (.trap cpu inp tf) k₂ → k₁.InUser cpu c → (k₁.envs c).envStatus ≠ .dying →
      IsSend tf → envid2env cpu tf.tfRegs.regEdx false k₁ = .ok (some e) →
      tfSend cpu tf (k₁.entered c tf) = .ok w k' →
      Window C e k (l ++ [⟨(k₁.envs c).envId, tf.tfRegs.regEcx, w, k₁.entered c tf, k'⟩]) k₂
  | other {l : List Sent} {ev : Event} {k₁ k₂ : Kernel} : Window C e k l k₁ → C k₁ ev →
      Step k₁ ev k₂ → ¬ SendsTo k₁ ev e → ¬ RecvBy k₁ ev e →
      (k₂.envs e).envStatus ≠ .free → Window C e k l k₂

/-- No message has got through, and the calls were refused for their arguments or
for want of memory. -/
structure NoneGot (e : EnvIdx) (l : List Sent) (k : Kernel) : Prop where
  waiting : k.Waiting e
  refused : ∀ s ∈ l, s.result = Errno.inval.ret ∨ s.result = Errno.noMem.ret

/-- Message `s` has got through, and it alone. -/
structure Got (e : EnvIdx) (l₁ : List Sent) (s : Sent) (l₂ : List Sent) (k : Kernel) : Prop where
  result : s.result = 0#32
  before : ∀ t ∈ l₁, t.result = Errno.inval.ret ∨ t.result = Errno.noMem.ret
  after : ∀ t ∈ l₂, t.result = Errno.ipcNotRecv.ret
  recving : (k.envs e).envIpcRecving = false
  sender : (k.envs e).envIpcFrom = s.sender
  value : (k.envs e).envIpcValue = s.value

/-- What comes of the messages `l`. -/
structure Outcome (e : EnvIdx) (l : List Sent) (k : Kernel) : Prop where
  live : (k.envs e).envStatus ≠ .free
  got : NoneGot e l k ∨ ∃ l₁ s l₂, l = l₁ ++ s :: l₂ ∧ Got e l₁ s l₂ k
  unchanged : ∀ s ∈ l, s.result ≠ 0#32 → s.after = s.before

variable {l : List Sent}

theorem Outcome.same (h : Outcome e l k) (hmail : SameMail e k k')
    (hlive : (k'.envs e).envStatus ≠ .free) : Outcome e l k' := by
  refine ⟨hlive, ?_, h.unchanged⟩
  rcases h.got with hn | ⟨l₁, s, l₂, hl, hg⟩
  · exact Or.inl ⟨⟨hlive, hmail.recving.trans hn.waiting.2⟩, hn.refused⟩
  · exact Or.inr ⟨l₁, s, l₂, hl, hg.result, hg.before, hg.after, hmail.recving.trans hg.recving,
      hmail.sender.trans hg.sender, hmail.value.trans hg.value⟩

/-- One more call. -/
theorem Outcome.send {srcva : Word} (h : Outcome e l k) (hrecv : k.Waiting e → k.Receiving e)
    (hres : SendResult c e value srcva perm k w k') :
    Outcome e (l ++ [⟨(k.envs c).envId, value, w, k, k'⟩]) k' := by
  -- what is sent to an environment that does not wait
  have hlate : ∀ {l₁ s l₂}, Got e l₁ s l₂ k → ¬ k.Receiving e := fun hg hr =>
    absurd hr.1 (by simp [hg.recving])
  have hmem : ∀ {P : Sent → Prop} {s : Sent}, (∀ t ∈ l, P t) → P s → ∀ t ∈ l ++ [s], P t := by
    intro P s hl hs t ht
    rcases List.mem_append.1 ht with ht | ht
    · exact hl t ht
    · rw [List.mem_singleton.1 ht]
      exact hs
  have hdeliver : ∀ {pm : PhysMem} (page : Option Word), k.Receiving e →
      Outcome e (l ++ [⟨(k.envs c).envId, value, 0#32, k,
        { k with pm := pm }.deliver c e value page⟩])
        ({ k with pm := pm }.deliver c e value page) := by
    intro pm page hr
    have hself : ({ k with pm := pm }.deliver c e value page).envs e = { k.envs e with
        envIpcPerm := page.getD (k.envs e).envIpcPerm, envIpcFrom := (k.envs c).envId,
        envIpcRecving := false, envIpcValue := value, envStatus := .runnable,
        envTf := (k.envs e).envTf.setEax 0#32 } := by
      simp [Kernel.deliver, Kernel.modifyEnv]
    refine ⟨by rw [hself]; simp, Or.inr ?_, hmem h.unchanged fun hw => absurd rfl hw⟩
    rcases h.got with hn | ⟨l₁, s, l₂, rfl, hg⟩
    · exact ⟨l, _, [], rfl, rfl, hn.refused, by simp, by rw [hself], by rw [hself], by rw [hself]⟩
    · exact absurd hr (hlate hg)
  cases hres with
  | notRecv hnot =>
    refine ⟨h.live, Or.inr ?_, hmem h.unchanged fun _ => rfl⟩
    rcases h.got with hn | ⟨l₁, s, l₂, rfl, hg⟩
    · exact absurd (hrecv hn.waiting) hnot
    · refine ⟨l₁, s, l₂ ++ [_], List.append_assoc .., { hg with after := fun t ht => ?_ }⟩
      rcases List.mem_append.1 ht with ht | ht
      · exact hg.after t ht
      · rw [List.mem_singleton.1 ht]
  | refused hr _ hcode =>
    refine ⟨h.live, Or.inl ?_, hmem h.unchanged fun _ => rfl⟩
    rcases h.got with hn | ⟨l₁, s, l₂, rfl, hg⟩
    · refine ⟨hn.waiting, hmem hn.refused ?_⟩
      rcases hcode with rfl | rfl
      · exact Or.inl rfl
      · exact Or.inr rfl
    · exact absurd hr (hlate hg)
  | plain hr _ => exact hdeliver none hr
  | page hr _ _ _ _ _ _ _ => exact hdeliver (some perm) hr

theorem InUser.unique {c' : EnvIdx} (h : k.InUser cpu c) (h' : k.InUser cpu c') : c = c' := by
  simpa using h.2.symm.trans h'.2

/-- The step of a call to `sys_ipc_try_send`, from the return of the call on. -/
theorem send_step_inv {k₁ : Kernel} (hk : KernelInv held none k) (hs : Step k (.trap cpu inp tf) k')
    (hu : k.InUser cpu c) (hst : (k.envs c).envStatus ≠ .dying) (hsend : IsSend tf)
    (hrun : tfSend cpu tf (k.entered c tf) = .ok w k₁) :
    Leaves (trapReturn cpu) (k₁.setTf c fun t => t.setEax w) k' := by
  have hcases : EnvStep False False k (.trap cpu inp tf) k' :=
    env_step_cases hs False.elim False.elim fun _ => hk.head_free
  cases hcases with
  | idle hnone _ => exact absurd (hnone.symm.trans hu.2) (by simp)
  | dying hu' hdy _ => exact absurd (InUser.unique hu hu' ▸ hdy) hst
  | send hu' _ _ hrun' hl =>
    obtain rfl := InUser.unique hu hu'
    rw [hrun] at hrun'
    cases hrun'
    exact hl
  | recv _ hrecv _ =>
    have := hsend.2.symm.trans hrecv.2
    cases this
  | acts _ hnot _ _ => exact absurd hsend hnot

/-- **Exactly one message gets through.** -/
theorem Window.outcome (hk : KernelInv held none k) (hi : IpcInv k) (hw : k.Waiting e)
    (hwin : Window IpcCareful e k l k') : KernelInv held none k' ∧ IpcInv k' ∧ Outcome e l k' := by
  induction hwin with
  | nil => exact ⟨hk, hi, hw.1, Or.inl ⟨hw, by simp⟩, by simp⟩
  | @other l ev k₁ k₂ _ hc hs hsend hrecv hlive ih =>
    obtain ⟨hk₁, hi₁, ho⟩ := ih
    have hcare := hc.careful hi₁ hk₁
    refine ⟨hk₁.step hs hcare.env hcare.dst (Or.inl hcare.room), (hi₁.step hk₁ hs hc.calm).1, ?_⟩
    exact ho.same (hi₁.step_mail hk₁ hs hc.calm hsend hrecv ho.live hlive) hlive
  | @send l cpu inp tf c w k₁ k₂ k' _ hc hs hu hst hsend hfind hrun ih =>
    obtain ⟨hk₁, hi₁, ho⟩ := ih
    have hcare := hc.careful hi₁ hk₁
    have hk₂ := hk₁.step hs hcare.env hcare.dst (Or.inl hcare.room)
    have hi₂ := (hi₁.step hk₁ hs hc.calm).1
    -- the call itself, then the way back to user mode
    have hcur : (k₁.entered c tf).curenv cpu = some c := hu.2
    have hres : SendResult c e tf.tfRegs.regEcx tf.tfRegs.regEbx tf.tfRegs.regEdi
        (k₁.entered c tf) w k' := sysIpcTrySend_cases (envid2env_entered.trans hfind) hcur hrun
    have henter : Outcome e l (k₁.entered c tf) := by
      refine ho.same (SameMail.setTf ..) ?_
      rw [Kernel.entered, status_setTf]
      exact ho.live
    have hent := ((hi₁.enter hk₁ cpu).entered c tf).1
    have ho' := henter.send (fun hw => ⟨hw.2, (hent.inv e hw).noMsg⟩) hres
    have hid : ((k₁.entered c tf).envs c).envId = (k₁.envs c).envId := by rw [envs_entered]
    rw [hid] at ho'
    have hl := send_step_inv hk₁ hs hu hst hsend hrun
    have hsw := switches_trapReturn hl
    refine ⟨hk₂, hi₂, ho'.same ((SameMail.setTf ..).trans (hsw.sameMail e)) ?_⟩
    refine hsw.stays_live ?_
    rw [status_setTf]
    exact ho'.live

end Window

/-! ## The permissions of a message -/

/-- The permissions `ipc_recv` reports: `ret` is the result of `sys_ipc_recv`, and `thisenv` the
record that the environment sees at `UENVS`. -/
def ipcRecvPerm (ret : Word) (thisenv : Env) : Word :=
  if ret.toInt < 0 then 0#32 else thisenv.envIpcPerm

/-- The test of `serve` for an argument page. -/
def serveAccepts (perm : Word) : Bool := perm &&& PTE_P != 0#32

/-- A message to `e` comes with a page, and `e` takes it. -/
def TakesPage (k : Kernel) (e : EnvIdx) (srcva : Word) : Prop :=
  srcva < UTOP ∧ (k.envs e).envIpcDstva ≠ 0#32 ∧ (k.envs e).envIpcDstva < UTOP

instance (k : Kernel) (e : EnvIdx) (srcva : Word) : Decidable (TakesPage k e srcva) :=
  inferInstanceAs (Decidable (_ ∧ _))

/-- A message to `e` comes with a page, and `e` waits at `UTOP` or above, which is how `ipc_recv`
says that it takes none.  The kernel maps the page there all the same, and at `UTOP` it hides
`UENVS`, from all environments. -/
def HidesEnvs (k : Kernel) (e : EnvIdx) (srcva : Word) : Prop :=
  srcva < UTOP ∧ UTOP ≤ (k.envs e).envIpcDstva

/-- The call from `k` to `k'` has mapped the page that `c` has at `srcva` at the
address where `e` waits for it. -/
structure PageMapped (k k' : Kernel) (c e : EnvIdx) (srcva perm : Word) : Prop where
  takes : TakesPage k e srcva
  insert : ∃ r r' pg pte, k.roots c = some r ∧ k.roots e = some r' ∧
    pageLookup r srcva k.pm = .ok (some (pg, pte)) k.pm ∧
    pageInsert r' pg (k.envs e).envIpcDstva perm k.pm = .ok (.ok ()) k'.pm

/-- **What a receiver may conclude from the permissions**, when it runs again with the `eax` that
the kernel has saved and sees `thisenv`. -/
structure PermLaw (k k' : Kernel) (c e : EnvIdx) (srcva perm : Word) (thisenv : Env) : Prop where
  /-- They are the sender's if a page was mapped, and 0 otherwise. -/
  stored : (k'.envs e).envIpcPerm = if TakesPage k e srcva then perm else 0#32
  /-- `ipc_recv` reports permissions exactly if a page of this message is mapped. -/
  reported : ipcRecvPerm (k'.envs e).envTf.tfRegs.regEax thisenv ≠ 0#32 ↔
    PageMapped k k' c e srcva perm
  /-- `serve` accepts a request only with its page. -/
  served : serveAccepts (ipcRecvPerm (k'.envs e).envTf.tfRegs.regEax thisenv) = true →
    PageMapped k k' c e srcva perm

section Perm

variable {cpu : ℕ} {k k' : Kernel} {c e : EnvIdx} {thisenv : Env}

theorem permOk_ne_zero (h : permOk perm = true) : perm ≠ 0#32 := by
  rintro rfl
  revert h
  decide

/-- **The permissions are right if a page was mapped where the receiver wants one, or if none was
mapped and no permissions were left over.**  A call that maps no page leaves `env_ipc_perm` as it
was, and one that maps a page nobody has asked for sets it.  Unless it is this call that hides it,
`UENVS` shows the record the kernel has. -/
theorem permLaw_iff {envid value srcva perm : Word}
    (he : envid2env cpu envid false k = .ok (some e)) (hc : k.curenv cpu = some c)
    (hrun : sysIpcTrySend cpu envid value srcva perm k = .ok 0#32 k')
    (hshown : ¬ HidesEnvs k e srcva → thisenv = k'.envs e) :
    PermLaw k k' c e srcva perm thisenv ↔
      TakesPage k e srcva ∨ ((k.envs e).envIpcPerm = 0#32 ∧ ¬ HidesEnvs k e srcva) := by
  have herr : ∀ r : Errno, r.ret ≠ 0#32 := fun r => by cases r <;> decide
  generalize hw : (0#32 : Word) = w at hrun
  cases sysIpcTrySend_cases he hc hrun with
  | notRecv _ => exact absurd hw.symm (herr _)
  | refused _ _ _ => exact absurd hw.symm (herr _)
  | plain _ hno =>
    have hno' : ¬ TakesPage k e srcva := fun h => hno ⟨h.1, h.2.1⟩
    have hseen : ¬ HidesEnvs k e srcva := fun ⟨hlt, hle⟩ =>
      hno ⟨hlt, fun h0 => absurd (h0 ▸ hle) (by decide)⟩
    obtain rfl := hshown hseen
    have hperm : ((k.deliver c e value none).envs e).envIpcPerm = (k.envs e).envIpcPerm := by
      simp [Kernel.deliver, Kernel.modifyEnv]
    have hrep : ipcRecvPerm ((k.deliver c e value none).envs e).envTf.tfRegs.regEax
        ((k.deliver c e value none).envs e) = (k.envs e).envIpcPerm := by
      simp [ipcRecvPerm, Kernel.deliver, Kernel.modifyEnv, Trapframe.setEax]
    refine ⟨fun h => Or.inr ⟨?_, hseen⟩, fun h => ?_⟩
    · rw [← hperm, h.stored, if_neg hno']
    · have hzero := (h.resolve_left hno').1
      refine ⟨by rw [hperm, hzero, if_neg hno'], ?_, fun hacc => ?_⟩
      · rw [hrep, hzero]
        exact ⟨fun h => absurd rfl h, fun h => absurd h.takes hno'⟩
      · rw [hrep, hzero] at hacc
        exact absurd hacc (by decide)
  | @page r r' pg pte pm _ hsva hdst hok hr hlook hr' hins =>
    have hperm : (({ k with pm := pm }.deliver c e value (some perm)).envs e).envIpcPerm
        = perm := by
      simp [Kernel.deliver, Kernel.modifyEnv]
    by_cases hlow : (k.envs e).envIpcDstva < UTOP
    · have htakes : TakesPage k e srcva := ⟨hsva, hdst, hlow⟩
      have hmapped : PageMapped k ({ k with pm := pm }.deliver c e value (some perm)) c e srcva
          perm := ⟨htakes, r, r', pg, pte, hr, hr', hlook, hins⟩
      obtain rfl := hshown fun h => BitVec.not_le.2 hlow h.2
      refine ⟨fun _ => Or.inl htakes, fun _ => ⟨by rw [hperm, if_pos htakes], ?_, fun _ => hmapped⟩⟩
      refine ⟨fun _ => hmapped, fun _ => ?_⟩
      rw [ipcRecvPerm, hperm]
      simpa [Kernel.deliver, Kernel.modifyEnv, Trapframe.setEax] using permOk_ne_zero hok
    · -- the permissions are stored, and no page is where the receiver could want it
      have hno : ¬ TakesPage k e srcva := fun h => hlow h.2.2
      refine iff_of_false (fun h => permOk_ne_zero hok ?_) ?_
      · rw [← hperm, h.stored, if_neg hno]
      · exact fun h => h.elim hno fun h => h.2 ⟨hsva, BitVec.not_lt.1 hlow⟩

end Perm

end Jos
