import Jos.Kern.BootSpec
import Jos.Kern.Ipc

/-!
# Walking through runs

The invariants say what holds in every run.  To show that a run exists, with
given system calls in a given order, one has to follow the machine step by
step.  The parts of the state that matter for this are few: the records of the
environments without page directories and statistics (`Kernel.view`), which
environment the CPU runs, and that there is memory left.  `Looks` collects them,
and each lemma of this module takes one step: what it needs and what it leaves
are facts about `view`.
-/

namespace Jos

open Function (update update_eq_self update_idem update_of_ne update_self)

/-! ## The records -/

/-- A record without its page directory and without statistics. -/
def Env.norm (env : Env) : Env := { env with envPgdir := none, envRuns := 0#32, envCpunum := 0 }

/-- The records of all environments, as far as user code can tell. -/
def Kernel.view (k : Kernel) : EnvIdx → Env := fun e => (k.envs e).norm

/-- The records after one of them has changed. -/
def changed (E : EnvIdx → Env) (e : EnvIdx) (f : Env → Env) : EnvIdx → Env :=
  update E e (f (E e))

@[simp] theorem changed_self (E : EnvIdx → Env) (e : EnvIdx) (f : Env → Env) :
    changed E e f e = f (E e) := update_self ..

variable {E E' : EnvIdx → Env} {c : EnvIdx}

theorem changed_of_ne {e e' : EnvIdx} {f : Env → Env} (h : e' ≠ e) :
    changed E e f e' = E e' := update_of_ne h _ _

section View

variable (k : Kernel) (e : EnvIdx)

theorem view_modifyEnv {f g : Env → Env} (h : (f (k.envs e)).norm = g (k.envs e).norm) :
    (k.modifyEnv e f).view = changed k.view e g := by
  funext e'
  by_cases he : e' = e
  · subst he
    rw [changed_self, Kernel.view, Kernel.modifyEnv]
    simp only [update_self]
    exact h
  · rw [changed_of_ne he, Kernel.view, Kernel.modifyEnv]
    simp only [update_of_ne he]
    rfl

/-- Changes that do not show. -/
theorem view_modifyEnv_norm {f : Env → Env} (h : (f (k.envs e)).norm = (k.envs e).norm) :
    (k.modifyEnv e f).view = k.view := by
  funext e'
  by_cases he : e' = e
  · subst he
    simpa [Kernel.view, Kernel.modifyEnv] using h
  · simp [Kernel.view, Kernel.modifyEnv, he]

@[simp] theorem view_setTf (f : Trapframe → Trapframe) :
    (k.setTf e f).view = changed k.view e fun env => { env with envTf := f env.envTf } :=
  view_modifyEnv k e rfl

@[simp] theorem view_entered (tf : Trapframe) :
    (k.entered e tf).view = changed k.view e fun env => { env with envTf := tf } :=
  view_setTf k e fun _ => tf

@[simp] theorem view_setStatus (s : EnvStatus) :
    (k.setStatus e s).view = changed k.view e fun env => { env with envStatus := s } :=
  view_modifyEnv k e rfl

@[simp] theorem view_recv (dstva : Word) :
    (k.recv e dstva).view = changed k.view e fun env =>
      { env with
        envIpcRecving := true
        envIpcDstva := dstva
        envStatus := .notRunnable
        envIpcFrom := 0#32 } :=
  view_modifyEnv k e rfl

@[simp] theorem view_setCpunum (cpu : ℕ) : (k.setCpunum e cpu).view = k.view :=
  view_modifyEnv_norm k e rfl

/-- The environment on the CPU is runnable again. -/
def parkView (E : EnvIdx → Env) : Option EnvIdx → EnvIdx → Env
  | none => E
  | some c => changed E c fun env =>
    if env.envStatus = .running then { env with envStatus := .runnable } else env

/-- Environment `e` runs in its place. -/
def switchView (E : EnvIdx → Env) (c : Option EnvIdx) (e : EnvIdx) : EnvIdx → Env :=
  changed (parkView E c) e fun env => { env with envStatus := .running }

theorem view_park (cpu : ℕ) : (k.park cpu).view = parkView k.view (k.curenv cpu) := by
  unfold Kernel.park
  cases hc : k.curenv cpu with
  | none => rfl
  | some c =>
    have hst : (k.view c).envStatus = (k.envs c).envStatus := rfl
    dsimp only
    split
    · next hrun =>
        have hset : (k.setStatus c .runnable).view
            = changed k.view c fun env => { env with envStatus := .runnable } := view_setStatus ..
        rw [parkView, changed, hst, if_pos hrun]
        exact hset
    · next hrun => rw [parkView, changed, hst, if_neg hrun, update_eq_self]

theorem view_switched (cpu : ℕ) :
    (k.switched cpu e).view = switchView k.view (k.curenv cpu) e := by
  have hcur : ((k.park cpu).setCurenv cpu (some e)).view = (k.park cpu).view := rfl
  rw [Kernel.switched, switchView, ← view_park, ← hcur]
  exact view_modifyEnv ((k.park cpu).setCurenv cpu (some e)) e rfl

/-- An environment that goes on running. -/
theorem switchView_self (h : (E c).envStatus = .running) : switchView E (some c) c = E := by
  rw [switchView, parkView, changed, changed, update_self, update_idem, if_pos h]
  refine (congrArg (update E c) ?_).trans (update_eq_self c E)
  rw [← h]

end View

/-! ## The scheduler -/

section Scan

variable {k : Kernel} {cpu : ℕ}

/-- The loop of `sched_yield` finds the first runnable environment. -/
theorem schedScan_finds (d : ℕ) : ∀ n i, i < 1024 → d < n →
    (∀ d' < d, statusAt k ((i + d') % 1024) ≠ EnvStatus.runnable.code) →
    statusAt k ((i + d) % 1024) = EnvStatus.runnable.code →
    schedScan k n i = some ((i + d) % 1024) := by
  induction d with
  | zero =>
    intro n i hi hn _ hst
    rw [Nat.add_zero, Nat.mod_eq_of_lt hi] at hst ⊢
    cases n with
    | zero => omega
    | succ n => rw [schedScan, if_pos hst]
  | succ d ih =>
    intro n i hi hn hno hst
    have hshift : ∀ m, ((i + 1) % 1024 + m) % 1024 = (i + (m + 1)) % 1024 := fun m => by omega
    cases n with
    | zero => omega
    | succ n =>
      have h0 := hno 0 (by omega)
      rw [Nat.add_zero, Nat.mod_eq_of_lt hi] at h0
      rw [schedScan, if_neg h0, ih n ((i + 1) % 1024) (Nat.mod_lt _ (by norm_num)) (by omega)
        (fun m hm => by rw [hshift]; exact hno (m + 1) (by omega)) (by rw [hshift]; exact hst),
        hshift]

theorem statusAt_view (k : Kernel) (e : EnvIdx) :
    statusAt k e.val = ((k.view e).envStatus).code := by
  rw [statusAt, dif_pos e.isLt]
  rfl

/-- From index `s` on, and around, `e` is the first that is runnable. -/
structure FirstFrom (E : EnvIdx → Env) (s : ℕ) (e : EnvIdx) : Prop where
  start : s < 1024
  runnable : (E e).envStatus = .runnable
  between : ∀ e' : EnvIdx, (s ≤ e.val → s ≤ e'.val ∧ e'.val < e.val) →
    (e.val < s → s ≤ e'.val ∨ e'.val < e.val) → (E e').envStatus ≠ .runnable

theorem FirstFrom.scan {s : ℕ} {e : EnvIdx} (h : FirstFrom k.view s e) :
    schedScan k 1024 s = some e.val := by
  have hs := h.start
  have he := e.isLt
  -- how far `e` is
  obtain ⟨d, hd, hde⟩ : ∃ d < 1024, (s + d) % 1024 = e.val ∧
      (s ≤ e.val → d = e.val - s) ∧ (e.val < s → d = e.val + 1024 - s) := by
    by_cases hle : s ≤ e.val
    · exact ⟨e.val - s, by omega, by omega, by omega, by omega⟩
    · exact ⟨e.val + 1024 - s, by omega, by omega, by omega, by omega⟩
  have hfind := schedScan_finds (k := k) d 1024 s hs hd (fun d' hd' hst => ?_) ?_
  · rw [hfind, hde.1]
  · set e' : EnvIdx := ⟨(s + d') % 1024, Nat.mod_lt _ (by norm_num)⟩ with he'
    have hval : e'.val = (s + d') % 1024 := rfl
    rw [← hval, statusAt_view] at hst
    refine h.between e' (fun hle => ?_) (fun hlt => ?_) (EnvStatus.code_inj hst)
    · have := hde.2.1 hle
      omega
    · have := hde.2.2 hlt
      omega
  · rw [hde.1, statusAt_view, h.runnable]

/-- Only the first four slots have been used. -/
def Far (E : EnvIdx → Env) : Prop := ∀ e : EnvIdx, 4 ≤ e.val → (E e).envStatus = .free

theorem Far.changed {f : Env → Env} (h : Far E) (hc : c.val < 4) : Far (changed E c f) := by
  intro e he
  rw [changed_of_ne (by rintro rfl; omega)]
  exact h e he

theorem Far.switchView {e : EnvIdx} (h : Far E) (hc : c.val < 4) (he : e.val < 4) :
    Far (switchView E (some c) e) :=
  Far.changed (Far.changed h hc) he

/-- Then the first four decide. -/
theorem FirstFrom.of_far {s : ℕ} {e : EnvIdx} (h : Far E) (hs : s ≤ 4)
    (hrun : (E e).envStatus = .runnable)
    (hbetween : ∀ i : Fin 4, (s ≤ e.val → s ≤ i.val ∧ i.val < e.val) →
      (e.val < s → s ≤ i.val ∨ i.val < e.val) →
      (E ⟨i.val, by omega⟩).envStatus ≠ .runnable) : FirstFrom E s e := by
  refine ⟨by omega, hrun, fun e' hle hlt => ?_⟩
  by_cases he' : 4 ≤ e'.val
  · rw [h e' he']
    decide
  · exact hbetween ⟨e'.val, by omega⟩ hle hlt

/-- `sched_yield` runs the first runnable environment. -/
theorem schedYield_first {e : EnvIdx} {r : ℕ}
    (h : FirstFrom k.view (schedStart k cpu) e) (hr : k.roots e = some r) :
    schedYield cpu k = .error .user ((k.setCpunum e cpu).switched cpu e) := by
  have hr' : (k.setCpunum e cpu).roots e = some r := by
    simpa [Kernel.setCpunum, Kernel.roots, Kernel.modifyEnv] using hr
  rw [schedYield, run_get_bind, h.scan]
  simp only [dif_pos e.isLt, run_modify_bind]
  exact envRun_some hr'

end Scan

/-! ## What calls do to the records -/

/-- The records after `c` has entered the kernel with the registers `tf`. -/
def savedView (E : EnvIdx → Env) (c : EnvIdx) (tf : Trapframe) : EnvIdx → Env :=
  changed E c fun env => { env with envTf := tf }

/-- The records while `c` waits for a message. -/
def recvView (E : EnvIdx → Env) (c : EnvIdx) (dstva : Word) : EnvIdx → Env :=
  changed E c fun env =>
    { env with
      envIpcRecving := true
      envIpcDstva := dstva
      envStatus := .notRunnable
      envIpcFrom := 0#32 }

/-- The records after a call of `c` has returned `w`. -/
def returnView (E : EnvIdx → Env) (c : EnvIdx) (w : Word) : EnvIdx → Env :=
  changed E c fun env => { env with envTf := env.envTf.setEax w }

/-- The records after `e` has been made runnable. -/
def wakeView (E : EnvIdx → Env) (e : EnvIdx) : EnvIdx → Env :=
  changed E e fun env => { env with envStatus := .runnable }

/-- The records after `c` has made a child in slot `e`. -/
def forkView (E : EnvIdx → Env) (c e : EnvIdx) : EnvIdx → Env :=
  changed E e fun env =>
    { env with
      envId := nextEnvId env.envId e
      envParentId := (E c).envId
      envType := .user
      envStatus := .notRunnable
      envTf := (E c).envTf.setEax 0#32
      envPgfaultUpcall := 0#32
      envIpcRecving := false }

/-- The records after a message of `c` has got through to `e`. -/
def deliverView (E : EnvIdx → Env) (c e : EnvIdx) (value : Word) (perm : Option Word) :
    EnvIdx → Env :=
  changed E e fun env =>
    { env with
      envIpcPerm := perm.getD env.envIpcPerm
      envIpcFrom := (E c).envId
      envIpcRecving := false
      envIpcValue := value
      envStatus := .runnable
      envTf := env.envTf.setEax 0#32 }

/-! ## Steps -/

/-- The frame of a system call made with the registers `tf`. -/
def callTf (tf : Trapframe) (no a1 a2 a3 a4 : Word) : Trapframe :=
  { tf with
    tfTrapno := T_SYSCALL
    tfRegs := { tf.tfRegs with
      regEax := no, regEdx := a1, regEcx := a2, regEbx := a3, regEdi := a4 } }

section Steps

variable {k k₁ : Kernel} {cpu r : ℕ} {c e : EnvIdx} {inp : Input} {tf : Trapframe} {w : Word}

theorem trap_user (hu : k.InUser cpu c) (hst : (k.envs c).envStatus ≠ .dying)
    (hcs : tf.tfCs &&& 3#16 = 3#16) :
    trap cpu inp tf k =
      (trapDispatch cpu inp tf (some c) >>= fun _ => trapReturn cpu) (k.entered c tf) := by
  simp only [trap, run_modify_bind, setCpuStatus_self hu.1, if_pos hcs, run_get_bind, hu.2]
  exact trapUser_entered hst

theorem trapReturn_running (hcur : k.curenv cpu = some c)
    (hst : (k.envs c).envStatus = .running) (hr : k.roots c = some r) :
    trapReturn cpu k = .error .user (k.switched cpu c) := by
  rw [trapReturn, run_get_bind]
  simp only [hcur, if_pos hst]
  exact envRun_some hr

/-- A system call that returns. -/
theorem step_return (hu : k.InUser cpu c) (hst : (k.envs c).envStatus ≠ .dying)
    (hcs : tf.tfCs &&& 3#16 = 3#16) (hsys : tf.tfTrapno = T_SYSCALL)
    (hrun : tfSyscall cpu inp tf (k.entered c tf) = .ok w k₁) (hcur : k₁.curenv cpu = some c)
    (hst₁ : (k₁.envs c).envStatus = .running) (hr : k₁.roots c = some r) :
    Step k (.trap cpu inp tf) ((k₁.setTf c fun t => t.setEax w).switched cpu c) := by
  set k₂ := k₁.setTf c fun t => t.setEax w with hk₂
  have hcur₂ : k₂.curenv cpu = some c := hcur
  have hst₂ : (k₂.envs c).envStatus = .running := by
    simpa [hk₂, Kernel.setTf, Kernel.modifyEnv] using hst₁
  have hr₂ : k₂.roots c = some r := by
    simpa [hk₂, Kernel.setTf, Kernel.modifyEnv, Kernel.roots] using hr
  refine .user hu hcs (Or.inl ?_)
  rw [trap_user hu hst hcs, trapDispatch_syscall hsys, bind_assoc, run_bind_ok hrun,
    run_modify_bind]
  exact trapReturn_running hcur₂ hst₂ hr₂

/-- A system call that enters the scheduler. -/
theorem step_sched (hu : k.InUser cpu c) (hst : (k.envs c).envStatus ≠ .dying)
    (hcs : tf.tfCs &&& 3#16 = 3#16) (hsys : tf.tfTrapno = T_SYSCALL)
    (hrun : tfSyscall cpu inp tf (k.entered c tf) =
      (schedYield cpu >>= fun _ => pure 0#32 : KernelM Word) k₁)
    (hfirst : FirstFrom k₁.view (schedStart k₁ cpu) e) (hr : k₁.roots e = some r) :
    Step k (.trap cpu inp tf) ((k₁.setCpunum e cpu).switched cpu e) := by
  refine .user hu hcs (Or.inl ?_)
  have hexit : tfSyscall cpu inp tf (k.entered c tf)
      = .error .user ((k₁.setCpunum e cpu).switched cpu e) := by
    rw [hrun, run_bind_error (schedYield_first hfirst hr)]
  rw [trap_user hu hst hcs, trapDispatch_syscall hsys, bind_assoc, run_bind_error hexit]

end Steps

/-- **What is known of a state on the way**: CPU `cpu` runs `c`, and no other CPU runs
anything; the records are `E`, and the first free slot is `f`; at least `n` pages are
free. -/
structure Looks (held : Finset ℕ) (n cpu : ℕ) (c : EnvIdx) (E : EnvIdx → Env)
    (f : Option EnvIdx) (k : Kernel) : Prop where
  inv : KernelInv held none k
  room : n ≤ (freeSet k.pm k.roots held).card
  user : k.InUser cpu c
  only : ∀ q, q ≠ cpu → k.curenv q = none
  view : k.view = E
  head : k.envFreeList = f

section Looks

variable {held : Finset ℕ} {n n' cpu : ℕ} {c e : EnvIdx} {E : EnvIdx → Env} {f : Option EnvIdx}
  {k k₁ : Kernel} {ev : Event} {inp : Input} {tf : Trapframe} {w : Word}

theorem Looks.status (h : Looks held n cpu c E f k) (e : EnvIdx) :
    (k.envs e).envStatus = (E e).envStatus := by
  rw [← h.view]
  rfl

theorem Looks.root (h : Looks held n cpu c E f k) (he : (E e).envStatus ≠ .free) :
    ∃ r, k.roots e = some r := by
  refine Option.ne_none_iff_exists'.1 fun hnone => he ?_
  rw [← h.status]
  exact (h.inv.live e).2 hnone

theorem Looks.less (h : Looks held n cpu c E f k) (hn : n' ≤ n) : Looks held n' cpu c E f k :=
  { h with room := hn.trans h.room }

/-- Nobody runs elsewhere. -/
theorem Looks.not_elsewhere (h : Looks held n cpu c E f k) (e : EnvIdx) :
    ¬ k.RunsElsewhere cpu e := by
  rintro ⟨q, hq, hqe⟩
  rw [h.only q hq] at hqe
  cases hqe

/-- What there is after a CPU has switched to `e`. -/
theorem looks_switched (hinv : KernelInv held none (k.switched cpu e))
    (hst : (k.cpus cpu).cpuStatus = .started) (honly : ∀ q, q ≠ cpu → k.curenv q = none)
    (hroom : n ≤ (freeSet k.pm k.roots held).card) :
    Looks held n cpu e (switchView k.view (k.curenv cpu) e) k.envFreeList (k.switched cpu e) := by
  refine ⟨hinv, ?_, ⟨?_, ?_⟩, fun q hq => ?_, view_switched .., k.park_envFreeList cpu⟩
  · rw [roots_switched, pm_switched]
    exact hroom
  · rw [cpuStatus_switched]
    exact hst
  · rw [curenv_switched, if_pos rfl]
  · rw [curenv_switched, if_neg hq]
    exact honly q hq

/-- The same, for a step. -/
theorem Looks.switch (h : Looks held n cpu c E f k) (hs : Step k ev (k₁.switched cpu e))
    (hcare : Careful k ev) (hcpus : k₁.cpus = k.cpus)
    (hroom : n' ≤ (freeSet k₁.pm k₁.roots held).card) :
    Looks held n' cpu e (switchView k₁.view (some c) e) k₁.envFreeList (k₁.switched cpu e) := by
  have hcur : ∀ q, k₁.curenv q = k.curenv q := fun q => by
    rw [Kernel.curenv, hcpus, Kernel.curenv]
  have hinv := h.inv.step hs hcare.env hcare.dst (Or.inl hcare.room)
  have hlooks := looks_switched hinv (hcpus ▸ h.user.1)
    (fun q hq => (hcur q).trans (h.only q hq)) hroom
  rwa [hcur, h.user.2] at hlooks

/-- A system call that returns `w`, after which the records are `E'`. -/
theorem Looks.returns {r : ℕ} (h : Looks held n cpu c E f k) (inp : Input) (tf : Trapframe)
    (hst : (E c).envStatus = .running) (hcs : tf.tfCs &&& 3#16 = 3#16)
    (hsys : tf.tfTrapno = T_SYSCALL) (hrun : tfSyscall cpu inp tf (k.entered c tf) = .ok w k₁)
    (hcare : Careful k (.trap cpu inp tf)) (hcpus : k₁.cpus = k.cpus) (hr : k₁.roots c = some r)
    (hview : k₁.view = E') (hst' : (E' c).envStatus = .running)
    (hroom : n' ≤ (freeSet k₁.pm k₁.roots held).card) :
    ∃ k', Step k (.trap cpu inp tf) k' ∧ k'.pm = k₁.pm ∧ k'.roots = k₁.roots ∧
      Looks held n' cpu c (returnView E' c w) k₁.envFreeList k' := by
  have hcur : k₁.curenv cpu = some c := by
    rw [Kernel.curenv, hcpus]
    exact h.user.2
  have hst₁ : (k₁.envs c).envStatus = .running := by
    rw [← hview] at hst'
    exact hst'
  have hs := step_return h.user (by rw [h.status, hst]; decide) hcs hsys hrun hcur hst₁ hr
  have hroots : (k₁.setTf c fun t => t.setEax w).roots = k₁.roots := Kernel.roots_modifyEnv rfl
  refine ⟨_, hs, pm_switched .., (roots_switched ..).trans hroots, ?_⟩
  rw [← hroots] at hroom
  have hlooks := h.switch hs hcare hcpus hroom
  rw [view_setTf, hview, switchView_self (by simpa using hst')] at hlooks
  exact hlooks

/-- A system call that enters the scheduler, when the records are `E'`. -/
theorem Looks.schedules (h : Looks held n cpu c E f k) (inp : Input) (tf : Trapframe)
    (hst : (E c).envStatus = .running) (hcs : tf.tfCs &&& 3#16 = 3#16)
    (hsys : tf.tfTrapno = T_SYSCALL)
    (hrun : tfSyscall cpu inp tf (k.entered c tf) =
      (schedYield cpu >>= fun _ => pure 0#32 : KernelM Word) k₁)
    (hcare : Careful k (.trap cpu inp tf)) (hcpus : k₁.cpus = k.cpus) (hpm : k₁.pm = k.pm)
    (hroots : k₁.roots = k.roots) (hfree : k₁.envFreeList = k.envFreeList) (hview : k₁.view = E')
    (hfirst : FirstFrom E' ((envx (E' c).envId).val + 1) e) (he : (E e).envStatus ≠ .free) :
    ∃ k', Step k (.trap cpu inp tf) k' ∧ k'.pm = k.pm ∧ k'.roots = k.roots ∧
      Looks held n cpu e (switchView E' (some c) e) f k' := by
  obtain ⟨r, hr⟩ := h.root he
  have hstart : schedStart k₁ cpu = (envx (E' c).envId).val + 1 := by
    have hcur : k₁.curenv cpu = some c := by
      rw [Kernel.curenv, hcpus]
      exact h.user.2
    rw [schedStart, hcur, ← hview]
    rfl
  have hs := step_sched h.user (by rw [h.status, hst]; decide) hcs hsys hrun
    (by rw [hview, hstart]; exact hfirst) (by rw [hroots]; exact hr)
  have hroots' : (k₁.setCpunum e cpu).roots = k.roots :=
    (Kernel.roots_modifyEnv rfl).trans hroots
  refine ⟨_, hs, (pm_switched ..).trans hpm, (roots_switched ..).trans hroots', ?_⟩
  have hroom : n ≤ (freeSet k₁.pm (k₁.setCpunum e cpu).roots held).card := by
    rw [hroots', hpm]
    exact h.room
  have hlooks := h.switch hs hcare hcpus hroom
  rw [view_setCpunum, hview] at hlooks
  rw [← h.head, ← hfree]
  exact hlooks

end Looks

/-! ## System calls -/

section Calls

variable {held : Finset ℕ} {n cpu : ℕ} {c e : EnvIdx} {E : EnvIdx → Env} {f : Option EnvIdx}
  {k : Kernel} {ev : Event} {t : Trapframe}

theorem careful_call {inp : Input} {no a1 a2 a3 a4 : Word} (henv : EnvSafe cpu no a1 a2 k)
    (hdst : DstSafe cpu no a1 a3 k) (hroom : RoomSafe cpu no a1 a2 a3 a4 k) :
    Careful k (.trap cpu inp (callTf t no a1 a2 a3 a4)) :=
  ⟨fun _ => henv, fun _ => hdst, fun _ => hroom⟩

theorem calm_call {inp : Input} {no a1 a2 a3 a4 : Word}
    (hno : Sysno.ofWord no ≠ some .envSetStatus) :
    CalmEvent k (.trap cpu inp (callTf t no a1 a2 a3 a4)) := fun _ hs => absurd hs hno

theorem Careful.ipc (h : Careful k ev) (hcalm : CalmEvent k ev) : IpcCareful k ev :=
  ⟨hcalm, fun _ => h.env, h.dst, h.room⟩

theorem Looks.view_entered (h : Looks held n cpu c E f k) (tf : Trapframe) :
    (k.entered c tf).view = savedView E c tf := by
  rw [Jos.view_entered, h.view, savedView]

theorem roots_entered (tf : Trapframe) : (k.entered c tf).roots = k.roots :=
  Kernel.roots_modifyEnv (f := fun env => { env with envTf := tf }) rfl

theorem roots_recv (dstva : Word) : (k.recv c dstva).roots = k.roots :=
  Kernel.roots_modifyEnv (e := c) (f := fun env =>
    { env with
      envIpcRecving := true
      envIpcDstva := dstva
      envStatus := .notRunnable
      envIpcFrom := 0#32 }) rfl

/-- The frame of `sys_yield`. -/
def yieldTf (t : Trapframe) : Trapframe := callTf t 11#32 0#32 0#32 0#32 0#32

/-- The frame of `sys_ipc_recv`. -/
def recvTf (t : Trapframe) (dstva : Word) : Trapframe := callTf t 13#32 dstva 0#32 0#32 0#32

/-- `sys_yield`. -/
theorem Looks.yield (h : Looks held n cpu c E f k) (inp : Input)
    (hst : (E c).envStatus = .running) (hcs : t.tfCs &&& 3#16 = 3#16)
    (hfirst : FirstFrom (savedView E c (yieldTf t)) ((envx (E c).envId).val + 1) e)
    (he : (E e).envStatus ≠ .free) :
    ∃ k', Step k (.trap cpu inp (yieldTf t)) k' ∧ IpcCareful k (.trap cpu inp (yieldTf t)) ∧
      Looks held n cpu e (switchView (savedView E c (yieldTf t)) (some c) e) f k' := by
  have hcare : Careful k (.trap cpu inp (yieldTf t)) := careful_call trivial trivial trivial
  have hid : (savedView E c (yieldTf t) c).envId = (E c).envId := by simp [savedView]
  obtain ⟨k', hs, -, -, hlooks⟩ := h.schedules inp (yieldTf t) hst hcs rfl rfl hcare rfl rfl
    (roots_entered _) rfl (h.view_entered _) (by rw [hid]; exact hfirst) he
  exact ⟨k', hs, hcare.ipc (calm_call (by decide)), hlooks⟩

/-- `sys_ipc_recv`. -/
theorem Looks.recv (h : Looks held n cpu c E f k) (inp : Input) (dstva : Word)
    (hst : (E c).envStatus = .running) (hcs : t.tfCs &&& 3#16 = 3#16)
    (hdst : ¬ (dstva < UTOP ∧ pgoff dstva ≠ 0#32))
    (hfirst : FirstFrom (recvView (savedView E c (recvTf t dstva)) c dstva)
      ((envx (E c).envId).val + 1) e)
    (he : (E e).envStatus ≠ .free) :
    ∃ k', Step k (.trap cpu inp (recvTf t dstva)) k' ∧
      IpcCareful k (.trap cpu inp (recvTf t dstva)) ∧ k'.pm = k.pm ∧ k'.roots = k.roots ∧
      Looks held n cpu e (switchView (recvView (savedView E c (recvTf t dstva)) c dstva) (some c) e)
        f k' := by
  set tf := recvTf t dstva
  have hcare : Careful k (.trap cpu inp tf) := careful_call trivial trivial trivial
  have hid : (recvView (savedView E c tf) c dstva c).envId = (E c).envId := by
    simp [savedView, recvView]
  have hrun : tfSyscall cpu inp tf (k.entered c tf) =
      (schedYield cpu >>= fun _ => pure 0#32 : KernelM Word) ((k.entered c tf).recv c dstva) := by
    have hcur : (k.entered c tf).curenv cpu = some c := h.user.2
    have hcall : tfSyscall cpu inp tf = sysIpcRecv cpu dstva := rfl
    rw [hcall, sysIpcRecv, run_get_bind]
    simp only [hcur, if_neg hdst, run_modify_bind]
    rfl
  have hview : ((k.entered c tf).recv c dstva).view = recvView (savedView E c tf) c dstva := by
    rw [view_recv, h.view_entered, recvView]
  obtain ⟨k', hs, hpm, hroots, hlooks⟩ := h.schedules inp tf hst hcs rfl hrun hcare rfl rfl
    ((roots_recv _).trans (roots_entered _)) rfl hview (by rw [hid]; exact hfirst) he
  exact ⟨k', hs, hcare.ipc (calm_call (by decide)), hpm, hroots, hlooks⟩

variable {id : Word}

/-- What an id stands for. -/
theorem Looks.find (h : Looks held n cpu c E f k) {b : Bool} (h0 : id ≠ 0#32) (hx : envx id = e)
    (hlive : (E e).envStatus ≠ .free) (hid : (E e).envId = id)
    (hperm : b = true → c = e ∨ (E c).envId = (E e).envParentId) :
    envid2env cpu id b k = .ok (some e) := by
  have hid' : ∀ e', (k.envs e').envId = (E e').envId := fun e' => by rw [← h.view]; rfl
  have hpar : (k.envs e).envParentId = (E e).envParentId := by rw [← h.view]; rfl
  simp only [envid2env, if_neg h0, hx, h.status, hlive, hid', hid, ne_eq, not_true_eq_false,
    or_self, if_false, h.user.2, Option.some.injEq, Option.map_some, hpar]
  refine if_neg ?_
  rintro ⟨hb, hne, hpne⟩
  exact (hperm hb).elim hne hpne

/-- The frame of `sys_env_set_status`, for `ENV_RUNNABLE`. -/
def wakeTf (t : Trapframe) (id : Word) : Trapframe :=
  callTf t 8#32 id EnvStatus.runnable.code 0#32 0#32

/-- `sys_env_set_status`, for `ENV_RUNNABLE`. -/
theorem Looks.wake (h : Looks held n cpu c E f k) (inp : Input) (hst : (E c).envStatus = .running)
    (hcs : t.tfCs &&& 3#16 = 3#16) (hfind : envid2env cpu id true k = .ok (some e)) (hne : c ≠ e) :
    ∃ k', Step k (.trap cpu inp (wakeTf t id)) k' ∧ Careful k (.trap cpu inp (wakeTf t id)) ∧
      Looks held n cpu c (returnView (wakeView (savedView E c (wakeTf t id)) e) c 0#32) f k' := by
  set tf := wakeTf t id
  have hcare : Careful k (.trap cpu inp tf) :=
    careful_call (fun _ e' _ => h.not_elsewhere e') trivial trivial
  have hrun : tfSyscall cpu inp tf (k.entered c tf)
      = .ok 0#32 ((k.entered c tf).setStatus e .runnable) := by
    have hcall : tfSyscall cpu inp tf = sysEnvSetStatus cpu id EnvStatus.runnable.code := rfl
    rw [hcall, sysEnvSetStatus, withEnv_ok (envid2env_entered.trans hfind), if_pos rfl,
      run_modify_bind]
    rfl
  have hroots : ((k.entered c tf).setStatus e .runnable).roots = k.roots :=
    (Kernel.roots_modifyEnv (f := fun env => { env with envStatus := .runnable }) rfl).trans
      (roots_entered tf)
  have hview : ((k.entered c tf).setStatus e .runnable).view = wakeView (savedView E c tf) e := by
    rw [view_setStatus, h.view_entered, wakeView]
  obtain ⟨r, hr⟩ := h.root (e := c) (by rw [hst]; decide)
  have hst' : (wakeView (savedView E c tf) e c).envStatus = .running := by
    rw [wakeView, changed_of_ne hne]
    simpa [savedView] using hst
  have hroom : n ≤ (freeSet k.pm ((k.entered c tf).setStatus e .runnable).roots held).card := by
    rw [hroots]
    exact h.room
  obtain ⟨k', hs, -, -, hlooks⟩ := h.returns inp tf hst hcs rfl hrun hcare rfl
    (by rw [hroots]; exact hr) hview hst' hroom
  rw [← h.head]
  exact ⟨k', hs, hcare, hlooks⟩

/-- It is harmless for an environment that does not wait. -/
theorem Looks.calm_wake (h : Looks held n cpu c E f k) (inp : Input)
    (hfind : envid2env cpu id true k = .ok (some e)) (hrecv : (E e).envIpcRecving = false) :
    CalmEvent k (.trap cpu inp (wakeTf t id)) := by
  intro _ _ _ e' hfind'
  obtain rfl : e = e' := by simpa using hfind.symm.trans hfind'
  rw [← h.view] at hrecv
  exact hrecv

theorem view_forked {p : ℕ} {pm : PhysMem} (hne : c ≠ e) :
    (k.forked c e p pm).view = forkView k.view c e := by
  funext e'
  by_cases he : e' = e
  · subst he
    simp [Kernel.view, Kernel.forked, Kernel.allocated, Kernel.modifyEnv, forkView, Env.norm, hne]
  · simp [Kernel.view, Kernel.forked, Kernel.allocated, Kernel.modifyEnv, forkView, changed, he]

theorem roots_forked {p : ℕ} {pm : PhysMem} :
    (k.forked c e p pm).roots = update k.roots e (some p) := by
  funext e'
  by_cases he : e' = e
  · subst he
    simp [Kernel.roots, Kernel.forked, Kernel.allocated, Kernel.modifyEnv]
  · simp [Kernel.roots, Kernel.forked, Kernel.allocated, Kernel.modifyEnv, he]

/-- The frame of `sys_exofork`. -/
def forkTf (t : Trapframe) : Trapframe := callTf t 7#32 0#32 0#32 0#32 0#32

/-- `sys_exofork`. -/
theorem Looks.fork (h : Looks held (n + 1) cpu c E (some e) k) (inp : Input)
    (hst : (E c).envStatus = .running) (hcs : t.tfCs &&& 3#16 = 3#16) :
    ∃ k', Step k (.trap cpu inp (forkTf t)) k' ∧ IpcCareful k (.trap cpu inp (forkTf t)) ∧
      Looks held n cpu c
        (returnView (forkView (savedView E c (forkTf t)) c e) c (nextEnvId (E e).envId e))
        (E e).envLink k' := by
  set tf := forkTf t
  have hcare : Careful k (.trap cpu inp tf) := careful_call trivial trivial trivial
  have hfree : (E e).envStatus = .free := by
    rw [← h.status]
    exact h.inv.head_free h.head
  have hne : c ≠ e := by
    rintro rfl
    rw [hst] at hfree
    cases hfree
  have hinv : KernelInv held (some cpu) (k.entered c tf) :=
    (h.inv.enter cpu).act (.setTf (Or.inl h.user.2))
  have hroom : n + 1 ≤ (freeSet (k.entered c tf).pm (k.entered c tf).roots held).card := by
    rw [roots_entered]
    exact h.room
  obtain ⟨p, pm, halloc, -, -, hroom', -⟩ :=
    envAlloc_ok hinv h.head ((k.entered c tf).envs c).envId hroom
  have hcur : (k.entered c tf).curenv cpu = some c := h.user.2
  have hview : ((k.entered c tf).forked c e p pm).view = forkView (savedView E c tf) c e := by
    rw [view_forked hne, h.view_entered]
  have hrun : tfSyscall cpu inp tf (k.entered c tf)
      = .ok (nextEnvId (E e).envId e) ((k.entered c tf).forked c e p pm) := by
    have hcall : tfSyscall cpu inp tf = sysExofork cpu := rfl
    have hid : (((k.entered c tf).forked c e p pm).view e).envId = nextEnvId (E e).envId e := by
      rw [hview]
      simp [forkView, savedView, changed_of_ne hne.symm]
    rw [← hid, hcall, sysExofork, run_get_bind]
    simp only [hcur]
    rw [run_bind_ok halloc]
    rfl
  obtain ⟨r, hr⟩ := h.root (e := c) (by rw [hst]; decide)
  have hr' : ((k.entered c tf).forked c e p pm).roots c = some r := by
    rw [roots_forked, update_of_ne hne, roots_entered]
    exact hr
  have hst' : (forkView (savedView E c tf) c e c).envStatus = .running := by
    rw [forkView, changed_of_ne hne]
    simpa [savedView] using hst
  rw [← @roots_forked c _ _ _ pm] at hroom'
  obtain ⟨k', hs, -, -, hlooks⟩ := h.returns inp tf hst hcs rfl hrun hcare rfl hr' hview hst' hroom'
  refine ⟨k', hs, hcare.ipc (calm_call (by decide)), ?_⟩
  have hlink : ((k.entered c tf).forked c e p pm).envFreeList = (E e).envLink := by
    have hold : ((k.entered c tf).envs e).envLink = (E e).envLink := by
      rw [envs_entered, ← h.view]
      rfl
    exact hold
  rw [← hlink]
  exact hlooks

/-! ## Pages and messages -/

/-- `c` has a page at `va` that can be mapped once more. -/
def HasPage (k : Kernel) (c : EnvIdx) (va : Word) : Prop :=
  ∃ pg, target k.pm k.roots (.pte c (pdx va) (ptx va)) = some pg ∧
    (k.pm.pages pg).ppRef ≠ BitVec.allOnes 16

/-- A new page is mapped once. -/
theorem refs_new {pm pm₁ pm₂ : PhysMem} {roots : EnvIdx → Option ℕ} {pg : ℕ} {va perm w : Word}
    (h : MemInv pm roots held) (hrun : pageAlloc true pm = .ok (some pg) pm₁)
    (h₂ : MemInv pm₂ roots held) (hperm : FlagsOnly perm)
    (he : entry pm₂ roots = update (update (entry pm roots)
      (.pde c (pdx va)) (some w)) (.pte c (pdx va) (ptx va)) (some (mkPte pg perm))) :
    target pm₂ roots (.pte c (pdx va) (ptx va)) = some pg ∧ refs (target pm₂ roots) pg = 1 := by
  obtain ⟨hav, -, h0⟩ := h.head_spec (pageAlloc_inv hrun).1
  have hpte : target pm₂ roots (.pte c (pdx va) (ptx va)) = some pg := by
    rw [target, he, update_self, Option.map_some,
      pgnum_mkPte (h.lt_two_pow hav.1) hperm]
  -- neither an old entry nor the page table refers to it
  have honly : ∀ s, target pm₂ roots s = some pg → s = .pte c (pdx va) (ptx va) := by
    intro s hs
    by_contra hne
    by_cases hpde : s = .pde c (pdx va)
    · subst hpde
      exact h₂.not_isTablePage_of_pte hpte (Or.inr ⟨.pde c (pdx va), trivial, hs⟩)
    · have hsame : entry pm₂ roots s = entry pm roots s := by
        rw [he, update_of_ne hne, update_of_ne hpde]
      refine refs_eq_zero.1 h0 s ?_
      rw [← hs]
      cases s <;> simp only [target, hsame]
  exact ⟨hpte, refs_eq_one hpte honly⟩

/-- The frame of `sys_page_alloc`, for the caller itself. -/
def pageAllocTf (t : Trapframe) (va perm : Word) : Trapframe := callTf t 4#32 0#32 va perm 0#32

/-- `sys_page_alloc`. -/
theorem Looks.pageAlloc (h : Looks held (n + 2) cpu c E f k) (inp : Input) (va perm : Word)
    (hst : (E c).envStatus = .running) (hcs : t.tfCs &&& 3#16 = 3#16) (hva : userVa va = true)
    (hperm : permOk perm = true) :
    ∃ k', Step k (.trap cpu inp (pageAllocTf t va perm)) k' ∧
      IpcCareful k (.trap cpu inp (pageAllocTf t va perm)) ∧ HasPage k' c va ∧
      Looks held n cpu c (returnView (savedView E c (pageAllocTf t va perm)) c 0#32) f k' := by
  set tf := pageAllocTf t va perm
  have hcare : Careful k (.trap cpu inp tf) := careful_call trivial trivial trivial
  obtain ⟨r, hr⟩ := h.root (e := c) (by rw [hst]; decide)
  have hflags := permOk_flagsOnly hperm
  obtain ⟨pg, pm₁, pm₂, hrun₁, hrun₂, hm, -, hroom, w, hent⟩ :=
    allocInsert_ok (e := c) true h.inv.mem hr (userVa_lt hva) hflags h.room
  obtain ⟨htarget, hrefs⟩ := refs_new h.inv.mem hrun₁ hm hflags hent
  set k₁ := { k.entered c tf with pm := pm₂ } with hk₁
  have hrun : tfSyscall cpu inp tf (k.entered c tf) = .ok 0#32 k₁ := by
    have hcall : tfSyscall cpu inp tf = sysPageAlloc cpu 0#32 va perm := rfl
    have hfind : envid2env cpu 0#32 true (k.entered c tf) = .ok (some c) :=
      congrArg Except.ok h.user.2
    have halloc : onPm (Jos.pageAlloc true) (k.entered c tf)
        = .ok (some pg) { k.entered c tf with pm := pm₁ } := onPm_ok hrun₁
    have hr₁ : ({ k.entered c tf with pm := pm₁ } : Kernel).roots c = some r :=
      (congrFun (roots_entered tf) c).trans hr
    rw [hcall, sysPageAlloc, withEnv_ok hfind, if_neg (by simp [hva]), if_neg (by simp [hperm]),
      run_bind_ok halloc]
    simp only
    rw [run_bind_ok ((withPgdir_some hr₁ _).trans (onPm_ok hrun₂))]
    rfl
  have hroots : k₁.roots = k.roots := roots_entered tf
  rw [← hroots] at hroom
  have hst' : (savedView E c tf c).envStatus = .running := by simpa [savedView] using hst
  obtain ⟨k', hs, hpm', hroots', hlooks⟩ := h.returns inp tf hst hcs rfl hrun hcare rfl
    (by rw [hroots]; exact hr) (h.view_entered tf) hst' hroom
  refine ⟨k', hs, hcare.ipc (calm_call (by decide)), ⟨pg, ?_, ?_⟩, h.head ▸ hlooks⟩
  · rw [hpm', hroots', hroots]
    exact htarget
  · intro hones
    have hcount := hm.alloc.count pg (hm.avail_of_target htarget)
    rw [hrefs] at hcount
    have hones' : pm₂.alloc.ref pg = BitVec.allOnes 16 := by
      rw [hpm'] at hones
      exact hones
    rw [hones'] at hcount
    revert hcount
    decide

/-- The frame of `sys_page_unmap`, for the caller itself. -/
def unmapTf (t : Trapframe) (va : Word) : Trapframe := callTf t 6#32 0#32 va 0#32 0#32

/-- `sys_page_unmap`. -/
theorem Looks.unmap (h : Looks held n cpu c E f k) (inp : Input) (va : Word)
    (hst : (E c).envStatus = .running) (hcs : t.tfCs &&& 3#16 = 3#16) (hva : userVa va = true) :
    ∃ k', Step k (.trap cpu inp (unmapTf t va)) k' ∧ IpcCareful k (.trap cpu inp (unmapTf t va)) ∧
      target k'.pm k'.roots (.pte c (pdx va) (ptx va)) = none ∧
      Looks held 0 cpu c (returnView (savedView E c (unmapTf t va)) c 0#32) f k' := by
  set tf := unmapTf t va
  have hcare : Careful k (.trap cpu inp tf) := careful_call trivial trivial trivial
  obtain ⟨r, hr⟩ := h.root (e := c) (by rw [hst]; decide)
  obtain ⟨pm', hrun', -, -, hent⟩ :=
    h.inv.mem.pageRemove_spec hr (pdx_lt_utopDx.2 (userVa_lt hva))
  set k₁ := { k.entered c tf with pm := pm' }
  have hroots : k₁.roots = k.roots := roots_entered tf
  have hrun : tfSyscall cpu inp tf (k.entered c tf) = .ok 0#32 k₁ := by
    have hcall : tfSyscall cpu inp tf = sysPageUnmap cpu 0#32 va := rfl
    have hfind : envid2env cpu 0#32 true (k.entered c tf) = .ok (some c) :=
      congrArg Except.ok h.user.2
    have hr₁ : (k.entered c tf).roots c = some r := (congrFun (roots_entered tf) c).trans hr
    have hremove : onPm (pageRemove r va) (k.entered c tf) = .ok () k₁ := onPm_ok hrun'
    rw [hcall, sysPageUnmap, withEnv_ok hfind, if_neg (by simp [hva]),
      run_bind_ok ((withPgdir_some hr₁ _).trans hremove)]
    rfl
  have hst' : (savedView E c tf c).envStatus = .running := by simpa [savedView] using hst
  obtain ⟨k', hs, hpm', hroots', hlooks⟩ := h.returns inp tf hst hcs rfl hrun hcare rfl
    (by rw [hroots]; exact hr) (h.view_entered tf) hst' (Nat.zero_le _)
  refine ⟨k', hs, hcare.ipc (calm_call (by decide)), ?_, h.head ▸ hlooks⟩
  rw [hpm', hroots', hroots, target, hent, update_self, Option.map_none]

/-- The frame of `sys_ipc_try_send`. -/
def sendTf (t : Trapframe) (id value srcva perm : Word) : Trapframe :=
  callTf t 12#32 id value srcva perm

section Send

variable {id value srcva perm : Word} {inp : Input}

theorem Looks.receiving (h : Looks held n cpu c E f k) (hrecv : (E e).envIpcRecving = true)
    (hfrom : (E e).envIpcFrom = 0#32) : k.Receiving e := by
  rw [← h.view] at hrecv hfrom
  exact ⟨hrecv, hfrom⟩

theorem Kernel.Receiving.entered {tf : Trapframe} (h : k.Receiving e) :
    (k.entered c tf).Receiving e := by
  rw [Kernel.Receiving, envs_entered]
  exact h

/-- A message without a page needs nothing but a receiver. -/
theorem sysIpcTrySend_plain (he : envid2env cpu id false k = .ok (some e))
    (hc : k.curenv cpu = some c) (hrecv : k.Receiving e) (hsva : ¬ srcva < UTOP) :
    sysIpcTrySend cpu id value srcva perm k = .ok 0#32 (k.deliver c e value none) := by
  rw [sysIpcTrySend, withEnv_ok he, run_get_bind]
  simp only [hc]
  rw [if_neg hrecv.not_busy, if_neg hsva]
  rfl

/-- Bad permissions are refused. -/
theorem sysIpcTrySend_badPerm (he : envid2env cpu id false k = .ok (some e))
    (hc : k.curenv cpu = some c) (hrecv : k.Receiving e) (hsva : srcva < UTOP)
    (hperm : permOk perm = false) :
    sysIpcTrySend cpu id value srcva perm k = .ok Errno.inval.ret k := by
  rw [sysIpcTrySend, withEnv_ok he, run_get_bind]
  simp only [hc]
  rw [if_neg hrecv.not_busy, if_pos hsva, if_pos (Or.inr hperm)]
  rfl

/-- A call that sends to nobody on another CPU, nor above `UTOP`. -/
theorem Looks.careful_send (h : Looks held n cpu c E f k)
    (hfind : envid2env cpu id false k = .ok (some e)) (hdst : (E e).envIpcDstva < UTOP)
    (hroom : ∀ pg, target k.pm k.roots (.pte c (pdx srcva) (ptx srcva)) = some pg →
      (k.pm.pages pg).ppRef ≠ BitVec.allOnes 16) :
    IpcCareful k (.trap cpu inp (sendTf t id value srcva perm)) := by
  refine Careful.ipc (careful_call (fun e' _ _ => h.not_elsewhere e') ?_ ?_)
    (calm_call (by decide))
  · intro e' hfind' _ _ _
    rw [hfind] at hfind'
    cases hfind'
    rw [← h.view] at hdst
    exact hdst
  · intro c' e' pg hc' _ _ htarget
    obtain rfl : c = c' := by simpa using h.user.2.symm.trans hc'
    exact Or.inl (hroom pg htarget)

theorem roots_deliver {value : Word} {perm : Option Word} :
    (k.deliver c e value perm).roots = k.roots :=
  Kernel.roots_modifyEnv (e := e) (f := fun env =>
    { env with
      envIpcPerm := perm.getD env.envIpcPerm
      envIpcFrom := (k.envs c).envId
      envIpcRecving := false
      envIpcValue := value
      envStatus := .runnable
      envTf := env.envTf.setEax 0#32 }) rfl

theorem view_deliver {value : Word} {perm : Option Word} :
    (k.deliver c e value perm).view = deliverView k.view c e value perm :=
  view_modifyEnv k e rfl

/-- A call of `sys_ipc_try_send` that returns `w` and leaves the records `E'`. -/
theorem Looks.sends {k₁ : Kernel} {n' : ℕ} {w : Word} (h : Looks held n cpu c E f k)
    (hst : (E c).envStatus = .running) (hcs : t.tfCs &&& 3#16 = 3#16)
    (hrun : tfSend cpu (sendTf t id value srcva perm)
      (k.entered c (sendTf t id value srcva perm)) = .ok w k₁)
    (hcare : Careful k (.trap cpu inp (sendTf t id value srcva perm))) (hcpus : k₁.cpus = k.cpus)
    (hroots : k₁.roots = k.roots) (hhead : k₁.envFreeList = k.envFreeList) (hview : k₁.view = E')
    (hst' : (E' c).envStatus = .running) (hroom : n' ≤ (freeSet k₁.pm k.roots held).card) :
    ∃ k', Step k (.trap cpu inp (sendTf t id value srcva perm)) k' ∧ k'.pm = k₁.pm ∧
      k'.roots = k.roots ∧ Looks held n' cpu c (returnView E' c w) f k' := by
  obtain ⟨r, hr⟩ := h.root (e := c) (by rw [hst]; decide)
  rw [← hroots] at hroom
  obtain ⟨k', hs, hpm, hroots', hlooks⟩ := h.returns inp (sendTf t id value srcva perm) hst hcs rfl
    hrun hcare hcpus (by rw [hroots]; exact hr) hview hst' hroom
  rw [hhead, h.head] at hlooks
  exact ⟨k', hs, hpm, hroots'.trans hroots, hlooks⟩

theorem Looks.curenv_entered (h : Looks held n cpu c E f k) (tf : Trapframe) :
    (k.entered c tf).curenv cpu = some c := h.user.2

/-- Nothing is mapped above `UTOP` in a way that would be counted. -/
theorem target_above (hsva : ¬ srcva < UTOP) (roots : EnvIdx → Option ℕ) (pm : PhysMem) :
    target pm roots (.pte c (pdx srcva) (ptx srcva)) = none := by
  rw [target, entry, if_neg fun hd => hsva (pdx_lt_utopDx.1 hd), Option.map_none]

/-- A message without a page. -/
theorem Looks.sendPlain (h : Looks held n cpu c E f k) (inp : Input) (value srcva perm : Word)
    (hst : (E c).envStatus = .running) (hcs : t.tfCs &&& 3#16 = 3#16)
    (hfind : envid2env cpu id false k = .ok (some e)) (hne : c ≠ e)
    (hrecv : (E e).envIpcRecving = true) (hfrom : (E e).envIpcFrom = 0#32)
    (hdst : (E e).envIpcDstva < UTOP) (hsva : ¬ srcva < UTOP) :
    ∃ k' k₁, Step k (.trap cpu inp (sendTf t id value srcva perm)) k' ∧
      IpcCareful k (.trap cpu inp (sendTf t id value srcva perm)) ∧
      tfSend cpu (sendTf t id value srcva perm)
        (k.entered c (sendTf t id value srcva perm)) = .ok 0#32 k₁ ∧
      Looks held n cpu c (returnView
        (deliverView (savedView E c (sendTf t id value srcva perm)) c e value none) c 0#32) f k' := by
  set tf := sendTf t id value srcva perm
  have hr := h.receiving hrecv hfrom
  have hcare : IpcCareful k (.trap cpu inp tf) := h.careful_send hfind hdst fun pg hpg => by
    rw [target_above hsva] at hpg
    cases hpg
  have hrun : tfSend cpu tf (k.entered c tf) = .ok 0#32 ((k.entered c tf).deliver c e value none) :=
    sysIpcTrySend_plain (envid2env_entered.trans hfind) (h.curenv_entered tf) hr.entered hsva
  have hst' : (deliverView (savedView E c tf) c e value none c).envStatus = .running := by
    rw [deliverView, changed_of_ne hne]
    simpa [savedView] using hst
  obtain ⟨k', hs, -, -, hlooks⟩ := h.sends hst hcs hrun
    ⟨fun _ e' _ _ => h.not_elsewhere e', hcare.dst, hcare.room⟩ rfl
    (roots_deliver.trans (roots_entered tf)) rfl (view_deliver.trans (by rw [h.view_entered])) hst'
    h.room
  exact ⟨k', _, hs, hcare, hrun, hlooks⟩

/-- A message with bad permissions. -/
theorem Looks.sendBad (h : Looks held n cpu c E f k) (inp : Input) (value srcva perm : Word)
    (hst : (E c).envStatus = .running) (hcs : t.tfCs &&& 3#16 = 3#16)
    (hfind : envid2env cpu id false k = .ok (some e))
    (hrecv : (E e).envIpcRecving = true) (hfrom : (E e).envIpcFrom = 0#32)
    (hdst : (E e).envIpcDstva < UTOP) (hsva : srcva < UTOP) (hperm : permOk perm = false)
    (hpage : HasPage k c srcva) :
    ∃ k' k₁, Step k (.trap cpu inp (sendTf t id value srcva perm)) k' ∧
      IpcCareful k (.trap cpu inp (sendTf t id value srcva perm)) ∧
      tfSend cpu (sendTf t id value srcva perm)
        (k.entered c (sendTf t id value srcva perm)) = .ok Errno.inval.ret k₁ ∧
      Looks held n cpu c (returnView (savedView E c (sendTf t id value srcva perm)) c
        Errno.inval.ret) f k' := by
  set tf := sendTf t id value srcva perm
  have hr := h.receiving hrecv hfrom
  obtain ⟨pg, htarget, href⟩ := hpage
  have hcare : IpcCareful k (.trap cpu inp tf) := h.careful_send hfind hdst fun pg' hpg' => by
    obtain rfl : pg = pg' := by simpa using htarget.symm.trans hpg'
    exact href
  have hrun : tfSend cpu tf (k.entered c tf) = .ok Errno.inval.ret (k.entered c tf) :=
    sysIpcTrySend_badPerm (envid2env_entered.trans hfind) (h.curenv_entered tf) hr.entered hsva
      hperm
  have hst' : (savedView E c tf c).envStatus = .running := by simpa [savedView] using hst
  obtain ⟨k', hs, -, -, hlooks⟩ := h.sends hst hcs hrun
    ⟨fun _ e' _ _ => h.not_elsewhere e', hcare.dst, hcare.room⟩ rfl (roots_entered tf) rfl
    (h.view_entered tf) hst' h.room
  exact ⟨k', _, hs, hcare, hrun, hlooks⟩

/-- A message with a page. -/
theorem Looks.sendPage (h : Looks held 1 cpu c E f k) (inp : Input) (value srcva perm : Word)
    (hst : (E c).envStatus = .running) (hcs : t.tfCs &&& 3#16 = 3#16)
    (hfind : envid2env cpu id false k = .ok (some e)) (hne : c ≠ e)
    (hlive : (E e).envStatus ≠ .free)
    (hrecv : (E e).envIpcRecving = true) (hfrom : (E e).envIpcFrom = 0#32)
    (hdst : (E e).envIpcDstva < UTOP) (hdst0 : (E e).envIpcDstva ≠ 0#32)
    (hsva : userVa srcva = true) (hperm : permOk perm = true) (hro : writable perm = false)
    (hpage : HasPage k c srcva) :
    ∃ k', Step k (.trap cpu inp (sendTf t id value srcva perm)) k' ∧
      IpcCareful k (.trap cpu inp (sendTf t id value srcva perm)) ∧
      Looks held 0 cpu c (returnView
        (deliverView (savedView E c (sendTf t id value srcva perm)) c e value (some perm)) c 0#32)
        f k' := by
  set tf := sendTf t id value srcva perm
  have hrecv' := h.receiving hrecv hfrom
  obtain ⟨pg, htarget, href⟩ := hpage
  have hcare : IpcCareful k (.trap cpu inp tf) := h.careful_send hfind hdst fun pg' hpg' => by
    obtain rfl : pg = pg' := by simpa using htarget.symm.trans hpg'
    exact href
  obtain ⟨rc, hrc⟩ := h.root (e := c) (by rw [hst]; decide)
  obtain ⟨re, hre⟩ := h.root hlive
  have hflags := permOk_flagsOnly hperm
  -- the page is found
  obtain ⟨w, hw, hpg⟩ : ∃ w, entry k.pm k.roots (.pte c (pdx srcva) (ptx srcva)) = some w ∧
      pgnum w = pg := Option.map_eq_some_iff.1 htarget
  have hlook := h.inv.mem.pageLookup_eq hrc (pdx_lt_utopDx.2 (userVa_lt hsva))
  rw [hw, Option.map_some, hpg] at hlook
  -- and there is memory for a page table
  obtain ⟨pm', hins⟩ : ∃ pm', pageInsert re pg (E e).envIpcDstva perm k.pm = .ok (.ok ()) pm' := by
    rcases h.inv.mem.pageInsert_spec hre (pdx_lt_utopDx.2 hdst)
      (h.inv.mem.owned_of_pte htarget) hflags with ⟨-, hnone, -⟩ | ⟨pm', _, hrun, -⟩
    · obtain ⟨q, hq⟩ := h.inv.mem.freeList_some h.room
      rw [hq] at hnone
      cases hnone
    · exact ⟨pm', hrun⟩
  have hdsteq : ((k.entered c tf).envs e).envIpcDstva = (E e).envIpcDstva := by
    rw [envs_entered, ← h.view]
    rfl
  have hroots := roots_entered (k := k) (c := c) tf
  have hoff : pgoff srcva = 0#32 := by
    rw [userVa, Bool.and_eq_true, beq_iff_eq] at hsva
    exact hsva.2
  have hrun : tfSend cpu tf (k.entered c tf)
      = .ok 0#32 ({ k.entered c tf with pm := pm' }.deliver c e value (some perm)) := by
    refine sysIpcTrySend_run (r := re) (envid2env_entered.trans hfind) (h.curenv_entered tf)
      hrecv'.entered (userVa_lt hsva) hoff hperm
      ((withPgdir_some ((congrFun hroots c).trans hrc) _).trans (onPm_ok hlook))
      (fun hwr => absurd (hro.symm.trans hwr) (by decide)) (hdsteq ▸ hdst0) ((congrFun hroots e).trans hre) ?_
    rw [hdsteq]
    exact hins
  have hst' : (deliverView (savedView E c tf) c e value (some perm) c).envStatus = .running := by
    rw [deliverView, changed_of_ne hne]
    simpa [savedView] using hst
  obtain ⟨k', hs, -, -, hlooks⟩ := h.sends hst hcs hrun
    ⟨fun _ e' _ _ => h.not_elsewhere e', hcare.dst, hcare.room⟩ rfl (roots_deliver.trans hroots) rfl
    (view_deliver.trans (by rw [← h.view_entered]; rfl)) hst' (Nat.zero_le _)
  exact ⟨k', hs, hcare, hlooks⟩

end Send

/-- The first step after boot: the boot CPU runs the file server. -/
theorem looks_start {cfg : BootConfig} (hb : Booted cfg k) (hinv : KernelInv held none k)
    (hroom : n ≤ (freeSet k.pm k.roots held).card) :
    ∃ k', Step k (.start cfg.bootcpu) k' ∧ IpcCareful k (.start cfg.bootcpu) ∧
      Looks held n cfg.bootcpu 0 (switchView (bootEnvs cfg) none 0)
        (some 3) k' := by
  have hspec := hb.spec
  have hview : k.view = bootEnvs cfg := by
    funext e
    have hnorm : (bootEnvs cfg e).norm = bootEnvs cfg e := by
      rw [bootEnvs]
      split <;> rfl
    rw [Kernel.view, hspec.envs e, ← hnorm]
    rfl
  have hcpu : k.cpus cfg.bootcpu = ⟨.started, none⟩ := by
    rw [hspec.cpus, if_pos (Or.inl rfl)]
  have hcur : ∀ q, k.curenv q = none := fun q => by rw [Kernel.curenv, hspec.cpus]
  have hfirst : FirstFrom k.view (schedStart k cfg.bootcpu) 0 := by
    rw [hview, schedStart, hcur]
    exact ⟨Nat.zero_lt_succ _, rfl, fun e' hle _ => absurd (hle (Nat.zero_le _)).2 (Nat.not_lt_zero _)⟩
  have hst : (k.envs 0).envStatus = .runnable := by
    rw [hspec.envs]
    rfl
  obtain ⟨r, hr⟩ : ∃ r, k.roots 0 = some r := by
    refine Option.ne_none_iff_exists'.1 fun hnone => ?_
    rw [(hinv.live _).2 hnone] at hst
    cases hst
  have hs : Step k (.start cfg.bootcpu)
      ((k.setCpunum 0 cfg.bootcpu).switched cfg.bootcpu 0) :=
    .start ⟨by rw [hcpu], hcur _⟩ (Or.inl (schedYield_first hfirst hr))
  have hroots : (k.setCpunum 0 cfg.bootcpu).roots = k.roots :=
    Kernel.roots_modifyEnv (f := fun env => { env with envCpunum := cfg.bootcpu }) rfl
  have hroom' : n ≤ (freeSet k.pm (k.setCpunum 0 cfg.bootcpu).roots held).card := by
    rw [hroots]
    exact hroom
  refine ⟨_, hs, ⟨trivial, fun _ => trivial, trivial, trivial⟩, ?_⟩
  have hlooks := looks_switched (hinv.step hs trivial trivial (Or.inl trivial))
    (congrArg CpuInfo.cpuStatus hcpu) (fun q _ => hcur q) hroom'
  have hcur' : (k.setCpunum 0 cfg.bootcpu).curenv cfg.bootcpu = none := hcur _
  rw [view_setCpunum, hview, hcur'] at hlooks
  have hhead : k.envFreeList = some 3 := hspec.head
  rw [← hhead]
  exact hlooks

end Calls

end Jos
