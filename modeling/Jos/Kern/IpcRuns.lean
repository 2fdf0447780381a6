import Jos.Kern.Walk

/-!
# Messages in the runs of the machine

The results of `Jos.Kern.Ipc`, for runs that start at boot, and the runs that
show why their conditions are needed.

* `waiting_blocked` — who has `env_ipc_recving` set is in `sys_ipc_recv`, as long as
  `sys_env_set_status` makes no waiting environment runnable;
  `waiting_runnable` is a run in which a parent does that to its child.
* `one_message` — one message gets through for each `sys_ipc_recv`;
  `refused_before_message` is a run in which a call before it is refused for its
  arguments.
* `permLaw_iff` of `Jos.Kern.Ipc` says when the permissions of a message are right;
  `stale_perm` is a run in which they are those of an earlier message.
-/

namespace Jos

/-! ## Who waits is blocked -/

variable {cfg : BootConfig} {k : Kernel} {e : EnvIdx}

theorem Booted.not_waiting (hb : Booted cfg k) (e : EnvIdx) : ¬ k.Waiting e := by
  rintro ⟨-, hrecv⟩
  rw [hb.spec.envs, bootEnvs] at hrecv
  split at hrecv <;> cases hrecv

theorem Booted.ipcInv (hb : Booted cfg k) : IpcInv k :=
  fun e hw => absurd hw (hb.not_waiting e)

/-- A call that returns 0 has found its receiver waiting. -/
theorem SendResult.receiving {k' : Kernel} {c : EnvIdx} {value srcva perm w : Word}
    (h : SendResult c e value srcva perm k w k') (hw : w = 0#32) : k.Receiving e := by
  have herr : ∀ r : Errno, r.ret ≠ 0#32 := fun r => by cases r <;> decide
  cases h with
  | notRecv _ => exact absurd hw (herr _)
  | refused _ _ _ => exact absurd hw (herr _)
  | plain hr _ => exact hr
  | page hr _ _ _ _ _ _ _ => exact hr

/-- **Who waits is blocked in `sys_ipc_recv`**, and a message that gets through changes
the record of nobody else. -/
theorem waiting_blocked {cfg : BootConfig} {k₀ k : Kernel} (hb : Booted cfg k₀)
    (hr : Runs IpcCareful k₀ k) :
    (∀ e, k.Waiting e → k.Blocked e ∧ InRecv IpcCareful k₀ k e) ∧
    ∀ cpu c tf k', k.InUser cpu c → tfSend cpu tf (k.entered c tf) = .ok 0#32 k' →
      ∃ e, envid2env cpu tf.tfRegs.regEdx false k = .ok (some e) ∧ k.Blocked e ∧
        InRecv IpcCareful k₀ k e ∧ ∀ e', e' ≠ e → k'.envs e' = (k.entered c tf).envs e' := by
  obtain ⟨held, hk⟩ := hb.spec.inv
  obtain ⟨hk', hi⟩ := hb.ipcInv.run hk hr
  have hrecv := inRecv_of_waiting hb.not_waiting hk hr
  refine ⟨fun e he => ⟨hi e he, hrecv e he⟩, fun cpu c tf k' hu hrun => ?_⟩
  have hcur : (k.entered c tf).curenv cpu = some c := hu.2
  rcases tfSend_cases hcur hrun with ⟨hbad, -⟩ | ⟨e, hfind, hres⟩
  · exact absurd hbad (by decide)
  · have hwait : k.Waiting e := by
      have hr := (hres.receiving rfl).1
      rw [envs_entered] at hr
      exact ⟨hk'.inUse (inUse_of_envid2env (envid2env_entered ▸ hfind)), hr⟩
    exact ⟨e, envid2env_entered ▸ hfind, hi e hwait, hrecv e hwait, fun e' hne => hres.other hne⟩

/-! ## Runs from boot

The boot CPU starts the file server in slot 0, and goes round the other
environments as they give up the CPU. -/

/-- Nothing comes from outside. -/
def noInput : Input := ⟨0#32, .zero, 0, 0#32⟩

/-- The registers of the file server. -/
def fsTf : Trapframe := createdTf plainElf .fs freshTf

/-- Where the file server takes its requests. -/
def fsreq : Word := 0x0ffff000#32

/-- The ids of the first environments in their slots. -/
def firstId (e : EnvIdx) : Word := nextEnvId 0#32 e

theorem far_bootEnvs (cfg : BootConfig) : Far (bootEnvs cfg) := by
  intro e he
  rw [bootEnvs]
  split <;> first | omega | rfl

/-- The records when the file server runs first. -/
def startView : EnvIdx → Env := switchView (bootEnvs plainConfig) none 0

theorem far_startView : Far startView := Far.changed (far_bootEnvs _) (by decide)

/-- The records when the file server waits for a request, and slot 1 runs. -/
def requestView : EnvIdx → Env :=
  switchView (recvView (savedView startView 0 (recvTf fsTf fsreq)) 0 fsreq)
    (some 0) 1

theorem far_requestView : Far requestView :=
  Far.switchView (Far.changed (Far.changed far_startView (by decide)) (by decide)) (by decide)
    (by decide)

/-- The file server starts. -/
theorem run_start : ∃ k₀ k held, Booted plainConfig k₀ ∧ Runs IpcCareful k₀ k ∧
    Looks held 1000 0 0 startView (some 3) k := by
  obtain ⟨k₀, held, hb, hinv, hroom⟩ := plainConfig_boots
  obtain ⟨k, hs, hc, hl⟩ := looks_start hb hinv hroom
  exact ⟨k₀, k, held, hb, .step .nil hc hs, hl⟩

/-- It waits for a request. -/
theorem run_request : ∃ k₀ k₁ k held, Booted plainConfig k₀ ∧ Runs IpcCareful k₀ k₁ ∧
    Looks held 1000 0 0 startView (some 3) k₁ ∧ Step k₁ (.trap 0 noInput (recvTf fsTf fsreq)) k ∧
    IpcCareful k₁ (.trap 0 noInput (recvTf fsTf fsreq)) ∧
    Looks held 1000 0 1 requestView (some 3) k := by
  obtain ⟨k₀, k₁, held, hb, hr, hl⟩ := run_start
  have hfirst : FirstFrom (recvView (savedView startView 0 (recvTf fsTf fsreq))
      0 fsreq) 1 1 :=
    .of_far (Far.changed (Far.changed far_startView (by decide)) (by decide)) (by decide) rfl
      (by decide)
  obtain ⟨k, hs, hc, -, -, hl'⟩ := hl.recv noInput fsreq rfl (by decide) (by decide) hfirst (by decide)
  exact ⟨k₀, k₁, k, held, hb, hr, hl, hs, hc, hl'⟩

/-- The file server waits, and is blocked. -/
theorem waiting_blocked_request : ∃ k₀ k, Booted plainConfig k₀ ∧ Runs IpcCareful k₀ k ∧
    k.Waiting 0 ∧ k.Blocked 0 ∧
    InRecv IpcCareful k₀ k 0 := by
  obtain ⟨k₀, k₁, k, held, hb, hr, -, hs, hc, hl⟩ := run_request
  have hrun : Runs IpcCareful k₀ k := .step hr hc hs
  have hwait : k.Waiting 0 := by
    have hv : k.view 0 = requestView 0 := by rw [hl.view]
    have hst : (k.view 0).envStatus = .notRunnable := by rw [hv]; rfl
    have hrecv : (k.view 0).envIpcRecving = true := by rw [hv]; rfl
    refine ⟨fun hfree => ?_, hrecv⟩
    have hst' : (k.envs 0).envStatus = .notRunnable := hst
    rw [hst'] at hfree
    cases hfree
  obtain ⟨hblocked, hin⟩ := (waiting_blocked hb hrun).1 _ hwait
  exact ⟨k₀, k, hb, hrun, hwait, hblocked, hin⟩

/-- The records when the file server has made a child in slot 3. -/
def childView : EnvIdx → Env :=
  returnView (forkView (savedView startView 0 (forkTf fsTf)) 0
    3) 0 (firstId 3)

/-- The same, with the child runnable. -/
def awakeView : EnvIdx → Env :=
  returnView (wakeView (savedView childView 0 (wakeTf fsTf (firstId 3)))
    3) 0 0#32

/-- The records after the environment in slot `c` has given up the CPU to `e`. -/
def yieldView (E : EnvIdx → Env) (t : Trapframe) (c e : EnvIdx) : EnvIdx → Env :=
  switchView (savedView E c (yieldTf t)) (some c) e

/-- The records when the child runs. -/
def childRunsView : EnvIdx → Env :=
  yieldView (yieldView (yieldView awakeView fsTf 0 1) freshTf
    1 2) freshTf 2 3

theorem far_awakeView : Far awakeView := by
  have hchild : Far childView :=
    Far.changed (Far.changed (Far.changed far_startView (by decide)) (by decide)) (by decide)
  exact Far.changed (Far.changed (Far.changed hchild (by decide)) (by decide)) (by decide)

theorem Far.yieldView {E : EnvIdx → Env} {t : Trapframe} {c : EnvIdx} (h : Far E) (hc : c.val < 4)
    (he : e.val < 4) : Far (yieldView E t c e) :=
  Far.switchView (Far.changed h hc) hc he

/-- The child runs. -/
theorem run_child : ∃ k₀ k held, Booted plainConfig k₀ ∧ Runs IpcCareful k₀ k ∧
    Looks held 999 0 3 childRunsView (startView 3).envLink k := by
  obtain ⟨k₀, k₁, held, hb, hr₁, h₁⟩ := run_start
  obtain ⟨k₂, hs₂, hc₂, h₂⟩ := h₁.fork noInput (t := fsTf) rfl (by decide)
  have hfind : envid2env 0 (firstId 3) true k₂ = .ok (some 3) :=
    h₂.find (by decide) (by decide) (by decide) rfl (fun _ => Or.inr rfl)
  obtain ⟨k₃, hs₃, hc₃, h₃⟩ := h₂.wake noInput (t := fsTf) rfl (by decide) hfind (by decide)
  have hcalm := h₂.calm_wake noInput (t := fsTf) hfind rfl
  have far₁ := far_awakeView
  obtain ⟨k₄, hs₄, hc₄, h₄⟩ := h₃.yield noInput (t := fsTf) (e := 1) rfl (by decide)
    (.of_far (Far.changed far₁ (by decide)) (by decide) rfl (by decide)) (by decide)
  have far₂ : Far (yieldView awakeView fsTf 0 1) :=
    far₁.yieldView (by decide) (by decide)
  obtain ⟨k₅, hs₅, hc₅, h₅⟩ := h₄.yield noInput (t := freshTf) (e := 2) rfl (by decide)
    (.of_far (Far.changed far₂ (by decide)) (by decide) rfl (by decide)) (by decide)
  have far₃ : Far (yieldView (yieldView awakeView fsTf 0 1) freshTf
      1 2) := far₂.yieldView (by decide) (by decide)
  obtain ⟨k₆, hs₆, hc₆, h₆⟩ := h₅.yield noInput (t := freshTf) (e := 3) rfl (by decide)
    (.of_far (Far.changed far₃ (by decide)) (by decide) rfl (by decide)) (by decide)
  exact ⟨k₀, k₆, held, hb, .step (.step (.step (.step (.step hr₁ hc₂ hs₂) (hc₃.ipc hcalm) hs₃)
    hc₄ hs₄) hc₅ hs₅) hc₆ hs₆, h₆⟩

theorem far_childRunsView : Far childRunsView :=
  ((far_awakeView.yieldView (by decide) (by decide)).yieldView (by decide) (by decide)).yieldView
    (by decide) (by decide)

/-- **A waiting environment can be runnable**: its parent makes it so with
`sys_env_set_status`. -/
theorem waiting_runnable : ∃ k₀ k₁ k ev, Booted plainConfig k₀ ∧ Runs IpcCareful k₀ k₁ ∧
    Careful k₁ ev ∧ Step k₁ ev k ∧ k.Waiting 3 ∧
    (k.envs 3).envStatus = .runnable := by
  obtain ⟨k₀, k₁, held, hb, hr, h₁⟩ := run_child
  have hfar : Far (recvView (savedView childRunsView 3 (recvTf freshTf 0#32))
      3 0#32) := Far.changed (Far.changed far_childRunsView (by decide)) (by decide)
  obtain ⟨k₂, hs₂, hc₂, -, -, h₂⟩ := h₁.recv noInput 0#32 (t := freshTf) (e := 0) rfl (by decide)
    (by decide) (.of_far hfar (by decide) rfl (by decide)) (by decide)
  have hfind : envid2env 0 (firstId 3) true k₂ = .ok (some 3) :=
    h₂.find (by decide) (by decide) (by decide) rfl (fun _ => Or.inr rfl)
  obtain ⟨k₃, hs₃, hc₃, h₃⟩ := h₂.wake noInput (t := fsTf) rfl (by decide) hfind (by decide)
  have hst : (k₃.envs 3).envStatus = .runnable := (h₃.status _).trans rfl
  have hrecv : (k₃.view 3).envIpcRecving = true := by
    rw [h₃.view]
    rfl
  exact ⟨k₀, k₂, k₃, _, hb, .step hr hc₂ hs₂, hc₃, hs₃, ⟨by rw [hst]; decide, hrecv⟩, hst⟩

/-! ## One message for each receive -/

/-- Who calls `sys_ipc_recv` with a good address waits. -/
theorem waiting_of_recv {k' : Kernel} {cpu : ℕ} {inp : Input} {tf : Trapframe} (hu : k.InUser cpu e)
    (hst : (k.envs e).envStatus ≠ .dying) (hrecv : IsRecv tf)
    (hdst : ¬ (tf.tfRegs.regEdx < UTOP ∧ pgoff tf.tfRegs.regEdx ≠ 0#32))
    (hs : Step k (.trap cpu inp tf) k') : k'.Waiting e := by
  have hcur : (k.entered e tf).curenv cpu = some e := hu.2
  have hcall : tfSyscall cpu inp tf = sysIpcRecv cpu tf.tfRegs.regEdx := by
    simp only [tfSyscall, syscall, hrecv.2]
  cases hs with
  | irq hh _ _ _ => exact absurd (hh.2.symm.trans hu.2) (by simp)
  | user hu' hcs hl =>
    rw [Leaves, trap_user hu hst hcs, trapDispatch_syscall hrecv.1, hcall, bind_assoc] at hl
    rcases @sysIpcRecv_cases _ _ k' _ hcur tf.tfRegs.regEdx with hbad | hgood
    · -- the call does not return
      simp only [sysIpcRecv, run_get_bind, hcur, if_neg hdst, run_modify_bind] at hbad
      obtain ⟨u, k₁, hy, -⟩ := run_bind_inv hbad
      exact (schedYield_ne_ok hy).elim
    · have hsw := switches_schedYield (hgood hl)
      refine ⟨hsw.stays_live ?_, (hsw.sameMail e).recving.trans ?_⟩ <;>
        simp [Kernel.recv, Kernel.modifyEnv]

/-- **For each `sys_ipc_recv` exactly one message gets through**, and the receiver does
not resume before it.  Calls that come later are told that nobody waits; calls that
come earlier were refused for their arguments or for want of memory; none of them
changes anything. -/
theorem one_message {cfg : BootConfig} {k₀ k₁ k₂ k₃ : Kernel} {e : EnvIdx} {cpu : ℕ} {inp : Input}
    {tf : Trapframe} {l : List Sent} (hb : Booted cfg k₀) (hr : Runs IpcCareful k₀ k₁)
    (hu : k₁.InUser cpu e) (hst : (k₁.envs e).envStatus ≠ .dying) (hrecv : IsRecv tf)
    (hdst : ¬ (tf.tfRegs.regEdx < UTOP ∧ pgoff tf.tfRegs.regEdx ≠ 0#32))
    (hc : IpcCareful k₁ (.trap cpu inp tf)) (hs : Step k₁ (.trap cpu inp tf) k₂)
    (hwin : Window IpcCareful e k₂ l k₃) :
    Outcome e l k₃ ∧
      ((k₃.envs e).envStatus = .runnable ∨ (∃ q, k₃.curenv q = some e) →
        ∃ l₁ s l₂, l = l₁ ++ s :: l₂ ∧ Got e l₁ s l₂ k₃) := by
  obtain ⟨held, hk⟩ := hb.spec.inv
  have hw := waiting_of_recv hu hst hrecv hdst hs
  obtain ⟨hk₂, hi₂⟩ := hb.ipcInv.run hk (.step hr hc hs)
  obtain ⟨-, hi₃, hout⟩ := hwin.outcome hk₂ hi₂ hw
  refine ⟨hout, fun hresumed => hout.got.resolve_left fun hnone => ?_⟩
  have hblocked := hi₃ e hnone.waiting
  rcases hresumed with hst | ⟨q, hq⟩
  · rw [hblocked.status] at hst
    cases hst
  · exact hblocked.off q hq

/-- The records when slot 1 has a page. -/
def pageView : EnvIdx → Env :=
  returnView (savedView requestView 1 (pageAllocTf freshTf 0xa00000#32 7#32))
    1 0#32

/-- The file server has called `sys_ipc_recv`, and slot 1 has a page to send. -/
theorem run_page : ∃ k₀ k₁ k₂ k held, Booted plainConfig k₀ ∧ Runs IpcCareful k₀ k₁ ∧
    Looks held 1000 0 0 startView (some 3) k₁ ∧
    IpcCareful k₁ (.trap 0 noInput (recvTf fsTf fsreq)) ∧
    Step k₁ (.trap 0 noInput (recvTf fsTf fsreq)) k₂ ∧
    Looks held 1000 0 1 requestView (some 3) k₂ ∧
    IpcCareful k₂ (.trap 0 noInput (pageAllocTf freshTf 0xa00000#32 7#32)) ∧
    Step k₂ (.trap 0 noInput (pageAllocTf freshTf 0xa00000#32 7#32)) k ∧
    HasPage k 1 0xa00000#32 ∧
    Looks held 998 0 1 pageView (some 3) k := by
  obtain ⟨k₀, k₁, k₂, held, hb, hr, h₁, hs₁, hc₁, h₂⟩ := run_request
  obtain ⟨k, hs₂, hc₂, hpage, h⟩ := h₂.pageAlloc noInput 0xa00000#32 7#32 (t := freshTf) rfl
    (by decide) (by decide) (by decide)
  exact ⟨k₀, k₁, k₂, k, held, hb, hr, h₁, hc₁, hs₁, h₂, hc₂, hs₂, hpage, h⟩

/-- The file server waits while slot 1 offers its page with bad permissions, and then
sends a message without a page. -/
theorem run_refused : ∃ k₀ k₁ k₂ k₃ s₁ s₂, Booted plainConfig k₀ ∧ Runs IpcCareful k₀ k₁ ∧
    k₁.InUser 0 0 ∧ (k₁.envs 0).envStatus = .running ∧
    IpcCareful k₁ (.trap 0 noInput (recvTf fsTf fsreq)) ∧
    Step k₁ (.trap 0 noInput (recvTf fsTf fsreq)) k₂ ∧
    Window IpcCareful 0 k₂ [s₁, s₂] k₃ ∧ s₁.result = Errno.inval.ret ∧
    s₂.result = 0#32 ∧ (k₃.envs 0).envStatus = .runnable := by
  obtain ⟨k₀, k₁, k₂, k₃, held, hb, hr, h₁, hc₁, hs₁, h₂, hc₂, hs₂, hpage, h₃⟩ := run_page
  have hfind : ∀ {k : Kernel} {E : EnvIdx → Env}, Looks held 998 0 1 E
      (some 3) k → (E 0).envStatus ≠ .free →
      (E 0).envId = firstId 0 →
      envid2env 0 (firstId 0) false k = .ok (some 0) :=
    fun h hlive hid => h.find (by decide) (by decide) hlive hid (fun hb => by cases hb)
  obtain ⟨k₄, k₄', hs₃, hc₃, hrun₃, h₄⟩ := h₃.sendBad noInput 7#32 0xa00000#32 0#32 (t := freshTf)
    rfl (by decide) (hfind h₃ (by decide) rfl) rfl rfl (by decide) (by decide)
    (by decide) hpage
  obtain ⟨k₅, k₅', hs₄, hc₄, hrun₄, h₅⟩ := h₄.sendPlain noInput 9#32 UTOP 0#32 (t := freshTf) rfl
    (by decide) (hfind h₄ (by decide) rfl) (by decide) rfl rfl
    (by decide) (by decide)
  have hst₂ : (k₃.envs 0).envStatus = .notRunnable := (h₃.status _).trans rfl
  have hst₃ : (k₃.envs 1).envStatus = .running := (h₃.status _).trans rfl
  have hst₄ : (k₄.envs 1).envStatus = .running := (h₄.status _).trans rfl
  -- the window: a call that has nothing to do with it, and the two messages
  have hwin₁ : Window IpcCareful 0 k₂ [] k₃ := by
    refine .other .nil hc₂ hs₂ ?_ ?_ (by rw [hst₂]; decide)
    · rintro ⟨_, _, _, _, heq, -, -, hsend, -⟩
      cases heq
      exact absurd hsend.2 (by decide)
    · rintro ⟨_, _, _, heq, -, hrecv⟩
      cases heq
      exact absurd hrecv.2 (by decide)
  have hwin₂ := hwin₁.send hc₃ hs₃ h₃.user (by rw [hst₃]; decide) ⟨rfl, rfl⟩
    (hfind h₃ (by decide) rfl) hrun₃
  have hwin₃ := hwin₂.send hc₄ hs₄ h₄.user (by rw [hst₄]; decide) ⟨rfl, rfl⟩
    (hfind h₄ (by decide) rfl) hrun₄
  exact ⟨k₀, k₁, k₂, k₅, _, _, hb, hr, h₁.user, (h₁.status _).trans rfl, hc₁, hs₁, hwin₃, rfl, rfl,
    (h₅.status _).trans rfl⟩

/-- One of the two has got through, and it alone. -/
theorem one_message_request : ∃ k l₁ s l₂, Got 0 l₁ s l₂ k := by
  obtain ⟨k₀, k₁, k₂, k₃, s₁, s₂, hb, hr, hu, hst, hc, hs, hwin, -, -, hrun⟩ := run_refused
  obtain ⟨l₁, s, l₂, -, hgot⟩ := (one_message hb hr hu (by rw [hst]; decide) ⟨rfl, rfl⟩ (by decide)
    hc hs hwin).2 (Or.inl hrun)
  exact ⟨k₃, l₁, s, l₂, hgot⟩

/-- **A call before the message that gets through can fail otherwise**: with
`-E_INVAL`, not `-E_IPC_NOT_RECV`. -/
theorem refused_before_message : ∃ k₀ k₁ k₂ k₃ s₁ s₂, Booted plainConfig k₀ ∧
    Runs IpcCareful k₀ k₁ ∧ Step k₁ (.trap 0 noInput (recvTf fsTf fsreq)) k₂ ∧
    Window IpcCareful 0 k₂ [s₁, s₂] k₃ ∧ s₂.result = 0#32 ∧
    s₁.result = Errno.inval.ret ∧ s₁.result ≠ Errno.ipcNotRecv.ret := by
  obtain ⟨k₀, k₁, k₂, k₃, s₁, s₂, hb, hr, -, -, -, hs, hwin, hbad, hok, -⟩ := run_refused
  exact ⟨k₀, k₁, k₂, k₃, s₁, s₂, hb, hr, hs, hwin, hok, hbad, by rw [hbad]; decide⟩

/-! ## Permissions left over -/

/-- The records after slot 1 has sent its page. -/
def sentView : EnvIdx → Env :=
  returnView (deliverView (savedView pageView 1 (sendTf freshTf (firstId 0)
    1#32 0xa00000#32 5#32)) 1 0 1#32 (some 5#32)) 1 0#32

/-- The records when the file server runs again. -/
def servedView : EnvIdx → Env :=
  yieldView (yieldView sentView freshTf 1 2) freshTf 2
    0

theorem far_sentView : Far sentView := by
  have hpage : Far pageView := Far.changed (Far.changed far_requestView (by decide)) (by decide)
  exact Far.changed (Far.changed (Far.changed hpage (by decide)) (by decide)) (by decide)

/-- The second message to the file server: slot 1 sends it without a page. -/
def againTf : Trapframe := sendTf freshTf (firstId 0) 2#32 UTOP 0#32

/-- Slot 1 sends a page to the file server, which serves the request, unmaps the page and
waits again. -/
theorem run_again : ∃ k₀ k k', Booted plainConfig k₀ ∧ Runs IpcCareful k₀ k ∧
    k.InUser 0 1 ∧
    envid2env 0 againTf.tfRegs.regEdx false (k.entered 1 againTf)
      = .ok (some 0) ∧
    tfSend 0 againTf (k.entered 1 againTf) = .ok 0#32 k' ∧
    (k'.envs 0).envIpcPerm = 5#32 ∧
    (k'.envs 0).envTf.tfRegs.regEax = 0#32 ∧
    target k'.pm k'.roots (.pte 0 (pdx fsreq) (ptx fsreq)) = none := by
  obtain ⟨k₀, k₁, k₂, k₃, held, hb, hr, h₁, hc₁, hs₁, h₂, hc₂, hs₂, hpage, h₃⟩ := run_page
  have hr₃ : Runs IpcCareful k₀ k₃ := .step (.step hr hc₁ hs₁) hc₂ hs₂
  -- the first request
  obtain ⟨k₄, hs₃, hc₃, h₄⟩ := (h₃.less (by decide)).sendPage noInput 1#32 0xa00000#32 5#32
    (t := freshTf) rfl (by decide) (h₃.find (e := 0) (by decide) (by decide)
      (by decide) rfl (fun hb => by cases hb)) (by decide) (by decide) rfl rfl (by decide)
    (by decide) (by decide) (by decide) (by decide) hpage
  -- back to the file server
  obtain ⟨k₅, hs₄, hc₄, h₅⟩ := h₄.yield noInput (t := freshTf) (e := 2) rfl (by decide)
    (.of_far (Far.changed far_sentView (by decide)) (by decide) rfl (by decide)) (by decide)
  have far₅ : Far (yieldView sentView freshTf 1 2) :=
    far_sentView.yieldView (by decide) (by decide)
  obtain ⟨k₆, hs₅, hc₅, h₆⟩ := h₅.yield noInput (t := freshTf) (e := 0) rfl (by decide)
    (.of_far (Far.changed far₅ (by decide)) (by decide) rfl (by decide)) (by decide)
  have far₆ : Far servedView := far₅.yieldView (by decide) (by decide)
  -- the end of `serve`, and the next `ipc_recv`
  obtain ⟨k₇, hs₆, hc₆, hunmapped, h₇⟩ := h₆.unmap noInput fsreq (t := fsTf) rfl (by decide)
    (by decide)
  have far₇ : Far (returnView (savedView servedView 0 (unmapTf fsTf fsreq))
      0 0#32) := Far.changed (Far.changed far₆ (by decide)) (by decide)
  obtain ⟨k₈, hs₇, hc₇, hpm, hroots, h₈⟩ := h₇.recv noInput fsreq (t := fsTf)
    (e := 1) rfl (by decide) (by decide)
    (.of_far (Far.changed (Far.changed far₇ (by decide)) (by decide)) (by decide) rfl (by decide))
    (by decide)
  have hfind : envid2env 0 againTf.tfRegs.regEdx false k₈ = .ok (some 0) :=
    h₈.find (by decide) (by decide) (by decide) rfl (fun hb => by cases hb)
  set k₉ := (k₈.entered 1 againTf).deliver 1 0 2#32 none
    with hk₉
  have hrun : tfSend 0 againTf (k₈.entered 1 againTf) = .ok 0#32 k₉ :=
    sysIpcTrySend_plain (envid2env_entered.trans hfind) (h₈.curenv_entered againTf)
      (h₈.receiving rfl rfl).entered (by decide : ¬ UTOP < UTOP)
  refine ⟨k₀, k₈, _, hb, .step (.step (.step (.step (.step hr₃ hc₃ hs₃) hc₄ hs₄) hc₅ hs₅) hc₆ hs₆)
    hc₇ hs₇, h₈.user, envid2env_entered.trans hfind, hrun, ?_, ?_, ?_⟩
  · have hperm : (k₉.view 0).envIpcPerm = 5#32 := by
      rw [hk₉, view_deliver, h₈.view_entered]
      rfl
    exact hperm
  · have heax : (k₉.view 0).envTf.tfRegs.regEax = 0#32 := by
      rw [hk₉, view_deliver, h₈.view_entered]
      rfl
    exact heax
  · have hpm' : k₉.pm = k₇.pm := hpm
    rw [hk₉, roots_deliver, roots_entered, hroots, ← hk₉, hpm']
    exact hunmapped

/-- **Permissions outlive their message.**  The second message comes without a page, but
`ipc_recv` reports the permissions of the first, and `serve` takes the message for a request,
with nothing mapped at `fsreq`. -/
theorem stale_perm : ∃ k₀ k k', Booted plainConfig k₀ ∧ Runs IpcCareful k₀ k ∧
    k.InUser 0 1 ∧
    tfSend 0 againTf (k.entered 1 againTf) = .ok 0#32 k' ∧
    serveAccepts (ipcRecvPerm (k'.envs 0).envTf.tfRegs.regEax
      (k'.envs 0)) = true ∧
    target k'.pm k'.roots (.pte 0 (pdx fsreq) (ptx fsreq)) = none ∧
    ¬ PermLaw (k.entered 1 againTf) k' 1 0 UTOP 0#32
      (k'.envs 0) := by
  obtain ⟨k₀, k, k', hb, hr, hu, -, hrun, hperm, heax, hnone⟩ := run_again
  refine ⟨k₀, k, k', hb, hr, hu, hrun, ?_, hnone, fun hlaw => ?_⟩
  · rw [ipcRecvPerm, heax, hperm]
    decide
  · have hstored := hlaw.stored
    rw [if_neg fun htakes => absurd htakes.1 (by decide), hperm] at hstored
    exact absurd hstored (by decide)

/-- There the law fails because permissions were left over. -/
theorem permLaw_again : ∃ k k' c e, tfSend 0 againTf k = .ok 0#32 k' ∧
    (PermLaw k k' c e UTOP 0#32 (k'.envs e) ↔
      TakesPage k e UTOP ∨ ((k.envs e).envIpcPerm = 0#32 ∧ ¬ HidesEnvs k e UTOP)) := by
  obtain ⟨k₀, k, k', -, -, hu, hfind, hrun, -, -, -⟩ := run_again
  exact ⟨k.entered 1 againTf, k', _, _, hrun, permLaw_iff hfind hu.2 hrun fun _ => rfl⟩

/-! ## The invariant -/

/-- **The invariant of the kernel holds in every careful run from boot.**  As everywhere in these
runs, user code sees the tables as they are: another CPU has no translation left from before an
unmapping (`tlb_invalidate` drops those of its own CPU only). -/
theorem Booted.inv_run {cfg : BootConfig} {k k' : Kernel} (hb : Booted cfg k)
    (hr : Runs Careful k k') : ∃ held, KernelInv held none k' := by
  obtain ⟨held, hinv⟩ := hb.spec.inv
  exact ⟨held, hinv.run hr⟩

/-- Runs that keep the conditions on messages are among them. -/
theorem Booted.careful {k₀ : Kernel} (hb : Booted cfg k₀) (hr : Runs IpcCareful k₀ k) :
    Runs Careful k₀ k := by
  obtain ⟨held, hk⟩ := hb.spec.inv
  induction hr with
  | nil => exact .nil
  | step hr hc hs ih =>
    obtain ⟨hk', hi⟩ := hb.ipcInv.run hk hr
    exact .step ih (hc.careful hi hk') hs

/-- Slot 1 has sent a page, the file server has unmapped it and waits again. -/
theorem Booted.inv_run_again : ∃ k₀ k held, Booted plainConfig k₀ ∧ Runs Careful k₀ k ∧
    k.InUser 0 1 ∧ KernelInv held none k := by
  obtain ⟨k₀, k, -, hb, hr, hu, -⟩ := run_again
  have hrun := hb.careful hr
  exact ⟨k₀, k, (hb.inv_run hrun).imp fun _ h => ⟨hb, hrun, hu, h⟩⟩

end Jos
