import Jos.Kern.Machine
import Jos.Kern.SyscallFail
import Jos.Kern.EnvSpec

/-!
# What a kernel entry can do

Everything the kernel does for an environment between a trap and the scheduler
is a sequence of a few kinds of acts: map a page, unmap one, change the record
of an environment, take an environment slot into use, or free one.  This module
says once what those acts are (`Act`), with the checks that precede each, and
shows that system calls are made of nothing else (`does_syscall`): a call is a
sequence of acts, after which it returns or enters the scheduler.  What holds
across a kernel entry is then shown act by act.

An act also carries what makes it safe, as a consequence of an assumption `ok`:
for mapping a page, that its reference count has room; for an act on the status
of an environment, that no other CPU runs it.  The code does not check these.
They follow from `EnvSafe`, `DstSafe` and `RoomSafe`, conditions on the state
before the call.  Instead of `RoomSafe` it is enough that no page has too many
references when the call returns (`NoOverflow`).
-/

namespace Jos

variable {e : EnvIdx} {k' : Kernel} {envid : Word} {b : Bool}

namespace Kernel

/-- Another CPU runs `e`. -/
def RunsElsewhere (k : Kernel) (cpu : ℕ) (e : EnvIdx) : Prop :=
  ∃ q, q ≠ cpu ∧ k.curenv q = some e

/-- The environment that runs on `cpu` is `e` or its parent. -/
def Controls (k : Kernel) (cpu : ℕ) (e : EnvIdx) : Prop :=
  k.curenv cpu = some e ∨
    ∃ c, k.curenv cpu = some c ∧ (k.envs e).envParentId = (k.envs c).envId

/-- `e` waits for a message. -/
def Receiving (k : Kernel) (e : EnvIdx) : Prop :=
  (k.envs e).envIpcRecving = true ∧ (k.envs e).envIpcFrom = 0#32

theorem Receiving.not_busy {k : Kernel} (h : k.Receiving e) :
    ¬ ((k.envs e).envIpcRecving = false ∨ (k.envs e).envIpcFrom ≠ 0#32) := by simp [h.1, h.2]

/-- The slot is in use: by an environment that is not free, or by the one that
runs on `cpu`. -/
def InUse (k : Kernel) (cpu : ℕ) (e : EnvIdx) : Prop :=
  (k.envs e).envStatus ≠ .free ∨ k.curenv cpu = some e

/-- One more reference to page `pg`, at `va` of `e`, can be counted. -/
def Room (k : Kernel) (e : EnvIdx) (va : Word) (pg : ℕ) : Prop :=
  (k.pm.pages pg).ppRef ≠ BitVec.allOnes 16 ∨
    target k.pm k.roots (.pte e (pdx va) (ptx va)) = some pg

/-- No page has more references than its counter can count. -/
def NoOverflow (k : Kernel) : Prop := ∀ p, refs (target k.pm k.roots) p ≤ 65535

/-- Change the saved registers of an environment. -/
def setTf (k : Kernel) (e : EnvIdx) (f : Trapframe → Trapframe) : Kernel :=
  k.modifyEnv e fun env => { env with envTf := f env.envTf }

/-- Change the status of an environment. -/
def setStatus (k : Kernel) (e : EnvIdx) (s : EnvStatus) : Kernel :=
  k.modifyEnv e fun env => { env with envStatus := s }

/-- Environment `e` gets the message `value` of `c`, with a page if `perm` is
given. -/
def deliver (k : Kernel) (c e : EnvIdx) (value : Word) (perm : Option Word) : Kernel :=
  k.modifyEnv e fun env =>
    { env with
      envIpcPerm := perm.getD env.envIpcPerm
      envIpcFrom := (k.envs c).envId
      envIpcRecving := false
      envIpcValue := value
      envStatus := .runnable
      envTf := env.envTf.setEax 0#32 }

/-- Environment `c` waits for a message. -/
def recv (k : Kernel) (c : EnvIdx) (dstva : Word) : Kernel :=
  k.modifyEnv c fun env =>
    { env with
      envIpcRecving := true
      envIpcDstva := dstva
      envStatus := .notRunnable
      envIpcFrom := 0#32 }

end Kernel

/-- Only pages that `c` has mapped writeable differ from `pm`. -/
def UserWrites (pm : PhysMem) (roots : EnvIdx → Option ℕ) (c : EnvIdx) (m : ℕ → Idx → Word) :
    Prop :=
  ∀ q, (∀ d t w, entry pm roots (.pte c d t) = some w → writable w = true → pgnum w ≠ q) →
    m q = pm.mem q

/-- Why a page may be mapped at `va` of `e`: it is mapped at `sva` of `s`, the
call may give it the permissions asked for, and the caller controls both
environments, or sends the page to an environment that waits for one. -/
structure MapsFrom (k : Kernel) (cpu : ℕ) (s : EnvIdx) (sva : Word) (e : EnvIdx) (va perm : Word)
    (pg : ℕ) : Prop where
  src : ∃ w, entry k.pm k.roots (.pte s (pdx sva) (ptx sva)) = some w ∧ pgnum w = pg ∧
    (writable perm = true → writable w = true)
  src_user : sva < UTOP
  perm_ok : permOk perm = true
  auth : k.Controls cpu s ∧ k.Controls cpu e ∧ va < UTOP ∨
    k.curenv cpu = some s ∧ k.Receiving e ∧ va = (k.envs e).envIpcDstva ∧ va ≠ 0#32

/-- **The acts of the kernel** on behalf of the environment that runs on `cpu`. -/
inductive Act (ok : Prop) (cpu : ℕ) (k : Kernel) : Kernel → Prop
  /-- The contents of a free page, or a scratch variable. -/
  | scratch {k' : Kernel} : Unchanged k k' → Act ok cpu k k'
  /-- Stores to pages the environment has mapped writeable. -/
  | write {c : EnvIdx} {m : ℕ → Idx → Word} : k.curenv cpu = some c →
      UserWrites k.pm k.roots c m → Act ok cpu k { k with pm := { k.pm with mem := m } }
  /-- `time_tick`. -/
  | tick {t : Word} : Act ok cpu k { k with ticks := t }
  /-- `sys_page_alloc`. -/
  | mapNew {e : EnvIdx} {r pg : ℕ} {va perm : Word} {pm₁ pm₂ : PhysMem} : k.Controls cpu e →
      k.roots e = some r → va < UTOP → permOk perm = true →
      pageAlloc true k.pm = .ok (some pg) pm₁ → pageInsert r pg va perm pm₁ = .ok (.ok ()) pm₂ →
      Act ok cpu k { k with pm := pm₂ }
  /-- `sys_page_map`, and the page of a message. -/
  | map {s e : EnvIdx} {r pg : ℕ} {sva va perm : Word} {pm' : PhysMem} :
      MapsFrom k cpu s sva e va perm pg → k.roots e = some r →
      pageInsert r pg va perm k.pm = .ok (.ok ()) pm' →
      (ok → va < UTOP ∧ (k.Room e va pg ∨ { k with pm := pm' }.NoOverflow)) →
      Act ok cpu k { k with pm := pm' }
  /-- `sys_page_unmap`. -/
  | unmap {e : EnvIdx} {r : ℕ} {va : Word} {pm' : PhysMem} : k.Controls cpu e →
      k.roots e = some r → va < UTOP → pageRemove r va k.pm = .ok () pm' →
      Act ok cpu k { k with pm := pm' }
  /-- `sys_env_set_status`. -/
  | setStatus {e : EnvIdx} {s : EnvStatus} : k.Controls cpu e → k.InUse cpu e →
      s = .runnable ∨ s = .notRunnable → (ok → s = .runnable → ¬ k.RunsElsewhere cpu e) →
      Act ok cpu k (k.setStatus e s)
  /-- Registers saved at a trap, or set by the environment or its parent. -/
  | setTf {e : EnvIdx} {f : Trapframe → Trapframe} : k.Controls cpu e → Act ok cpu k (k.setTf e f)
  /-- `sys_env_set_pgfault_upcall`. -/
  | setUpcall {e : EnvIdx} {w : Word} : k.Controls cpu e →
      Act ok cpu k (k.modifyEnv e fun env => { env with envPgfaultUpcall := w })
  /-- The message of `sys_ipc_try_send`. -/
  | deliver {c e : EnvIdx} {value : Word} {perm : Option Word} : k.curenv cpu = some c →
      k.InUse cpu e → k.Receiving e → (ok → ¬ k.RunsElsewhere cpu e) →
      Act ok cpu k (k.deliver c e value perm)
  /-- `sys_ipc_recv`. -/
  | recv {c : EnvIdx} {dstva : Word} : k.curenv cpu = some c → Act ok cpu k (k.recv c dstva)
  /-- `sys_exofork`. -/
  | fork {c e : EnvIdx} {k₁ : Kernel} : k.curenv cpu = some c →
      envAlloc (k.envs c).envId k = .ok (.ok e) k₁ →
      Act ok cpu k (k₁.modifyEnv e fun env =>
        { env with envStatus := .notRunnable, envTf := (k₁.envs c).envTf.setEax 0#32 })
  /-- `env_destroy` of an environment that runs on another CPU. -/
  | mark {e : EnvIdx} : k.Controls cpu e → (k.envs e).envStatus = .running →
      k.curenv cpu ≠ some e → Act ok cpu k (k.setStatus e .dying)
  /-- `env_destroy` of any other environment. -/
  | free {e : EnvIdx} {k' : Kernel} : k.Controls cpu e → k.curenv cpu ≠ some e →
      (ok → ¬ k.RunsElsewhere cpu e) → envFree cpu e k = .ok () k' → Act ok cpu k k'
  /-- The end of the environment itself. -/
  | exit {c : EnvIdx} {k₁ : Kernel} : k.curenv cpu = some c → envFree cpu c k = .ok () k₁ →
      Act ok cpu k (k₁.setCurenv cpu none)

/-- The end of a kernel entry: the scheduler, or back to the environment. -/
def Resched (cpu : ℕ) (k k' : Kernel) : Prop :=
  Leaves (schedYield cpu) k k' ∨ ∃ c, k.curenv cpu = some c ∧ Leaves (envRun cpu c) k k'

/-! ## When a call is safe -/

/-- The environment a call acts on is not run by another CPU, except by
`env_destroy`, which deals with one that is `ENV_RUNNING`. -/
def EnvSafe (cpu : ℕ) (no a1 a2 : Word) (k : Kernel) : Prop :=
  match Sysno.ofWord no with
  | some .envDestroy => ∀ e, envid2env cpu a1 true k = .ok (some e) → k.RunsElsewhere cpu e →
      (k.envs e).envStatus = .running
  | some .envSetTrapframe => ∀ e, envid2env cpu a1 true k = .ok (some e) →
      k.RunsElsewhere cpu e → (k.envs e).envStatus = .running ∨
        ∃ r pm, k.roots e = some r ∧ userMemCheck r a2 68#32 PTE_U k.pm = .ok (.ok ()) pm
  | some .envSetStatus => a2 = EnvStatus.runnable.code →
      ∀ e, envid2env cpu a1 true k = .ok (some e) → ¬ k.RunsElsewhere cpu e
  | some .ipcTrySend => ∀ e, envid2env cpu a1 false k = .ok (some e) → k.Receiving e →
      ¬ k.RunsElsewhere cpu e
  | _ => True

/-- A page that is sent is expected below `UTOP`. -/
def DstSafe (cpu : ℕ) (no a1 a3 : Word) (k : Kernel) : Prop :=
  match Sysno.ofWord no with
  | some .ipcTrySend => ∀ e, envid2env cpu a1 false k = .ok (some e) → k.Receiving e →
      a3 < UTOP → (k.envs e).envIpcDstva ≠ 0#32 → (k.envs e).envIpcDstva < UTOP
  | _ => True

/-- A page that is mapped has room for one more reference. -/
def RoomSafe (cpu : ℕ) (no a1 a2 a3 a4 : Word) (k : Kernel) : Prop :=
  match Sysno.ofWord no with
  | some .pageMap => ∀ s e pg, envid2env cpu a1 true k = .ok (some s) →
      envid2env cpu a3 true k = .ok (some e) →
      target k.pm k.roots (.pte s (pdx a2) (ptx a2)) = some pg → k.Room e a4 pg
  | some .ipcTrySend => ∀ c e pg, k.curenv cpu = some c →
      envid2env cpu a1 false k = .ok (some e) → k.Receiving e →
      target k.pm k.roots (.pte c (pdx a3) (ptx a3)) = some pg → k.Room e (k.envs e).envIpcDstva pg
  | _ => True

/-! ## Programs made of acts -/

open Relation in
/-- Started in `k`, the program does a sequence of steps `R`, and then returns
on the same CPUs or leaves the kernel through the scheduler. -/
structure Does (R : Kernel → Kernel → Prop) (cpu : ℕ) {α : Type} (x : KernelM α) (k : Kernel) :
    Prop where
  spec : wp x (fun _ k' => ReflTransGen R k k' ∧ k'.cpus = k.cpus)
    (fun ex k' => ex = .user ∨ ex = .halt → ∃ k₁, ReflTransGen R k k₁ ∧ Resched cpu k₁ k') k

/-- The CPUs and the ids of all environments are the same. -/
structure SameIds (k k' : Kernel) : Prop where
  cpus : k'.cpus = k.cpus
  envId : ∀ e, (k'.envs e).envId = (k.envs e).envId
  envParentId : ∀ e, (k'.envs e).envParentId = (k.envs e).envParentId

instance : IsTrans Kernel SameIds where
  trans _ _ _ h h' := ⟨h'.cpus.trans h.cpus, fun e => (h'.envId e).trans (h.envId e),
    fun e => (h'.envParentId e).trans (h.envParentId e)⟩

theorem SameIds.of_pm (k : Kernel) (pm : PhysMem) : SameIds k { k with pm := pm } :=
  ⟨rfl, fun _ => rfl, fun _ => rfl⟩

theorem SameIds.modifyEnv {f : Env → Env} (k : Kernel) (hid : ∀ env, (f env).envId = env.envId)
    (hpar : ∀ env, (f env).envParentId = env.envParentId) : SameIds k (k.modifyEnv e f) := by
  refine ⟨rfl, fun e' => ?_, fun e' => ?_⟩ <;>
  · by_cases he : e' = e
    · subst he
      simp [Kernel.modifyEnv, hid, hpar]
    · simp [Kernel.modifyEnv, he]

/-- Whom an environment controls is a matter of ids. -/
theorem SameIds.controls {k : Kernel} {cpu : ℕ} (h : SameIds k k') (hctl : k.Controls cpu e) :
    k'.Controls cpu e := by
  have hcur : k'.curenv cpu = k.curenv cpu := by rw [Kernel.curenv, h.cpus, Kernel.curenv]
  rcases hctl with hc | ⟨c, hc, hpar⟩
  · exact Or.inl (hcur.trans hc)
  · exact Or.inr ⟨c, hcur.trans hc, by rw [h.envParentId, h.envId, hpar]⟩

/-- The CPUs are the same. -/
def SameCpus (k k' : Kernel) : Prop := k'.cpus = k.cpus

instance : IsTrans Kernel SameCpus where
  trans _ _ _ h h' := Eq.trans h' h

/-- The program does not leave the kernel: it returns, in a state that `P`
relates to the first, or panics, or runs off its data. -/
structure Stays (P : Kernel → Kernel → Prop) {α : Type} (x : KernelM α) : Prop where
  spec : ∀ k, wp x (fun _ k' => P k k') (fun ex _ => ¬ (ex = .user ∨ ex = .halt)) k

section Does

open Relation

variable {R : Kernel → Kernel → Prop} {cpu : ℕ} {α β : Type} {x : KernelM α} {f : α → KernelM β}
  {k k' : Kernel}

variable {a : α} {g : Kernel → Kernel}

theorem does_pure : Does R cpu (pure a) k := ⟨.refl, rfl⟩

theorem does_panic {p : Panic} : Does R cpu (throw (.panic p) : KernelM α) k :=
  ⟨by rintro (h | h) <;> cases h⟩

theorem does_wild : Does R cpu (throw .wild : KernelM α) k :=
  ⟨by rintro (h | h) <;> cases h⟩

theorem does_modify (h : R k (g k)) (hc : (g k).cpus = k.cpus) : Does R cpu (modify g) k :=
  ⟨.single h, hc⟩

/-- Whatever happens before the program starts is in the past. -/
theorem Does.head (hr : ReflTransGen R k k') (hc : k'.cpus = k.cpus) (h : Does R cpu x k') :
    wp x (fun _ k'' => ReflTransGen R k k'' ∧ k''.cpus = k.cpus)
      (fun ex k'' => ex = .user ∨ ex = .halt → ∃ k₁, ReflTransGen R k k₁ ∧ Resched cpu k₁ k'')
      k' := by
  refine h.spec.mono ?_ ?_
  · rintro b k'' ⟨hr', hc'⟩
    exact ⟨hr.trans hr', hc'.trans hc⟩
  · intro ex k'' hex hl
    obtain ⟨k₁, hr', hs⟩ := hex hl
    exact ⟨k₁, hr.trans hr', hs⟩

theorem does_bind (hx : Does R cpu x k)
    (hf : ∀ a k', x k = .ok a k' → k'.cpus = k.cpus → Does R cpu (f a) k') :
    Does R cpu (x >>= f) k := by
  constructor
  rw [wp_bind]
  cases h : x k with
  | error ex k' => exact (wp_of_error h).2 ((wp_of_error h).1 hx.spec)
  | ok a k' =>
    obtain ⟨hr, hc⟩ := (wp_of_ok h).1 hx.spec
    exact (wp_of_ok h).2 ((hf a k' h hc).head hr hc)

theorem does_get_bind {f : Kernel → KernelM β} (h : Does R cpu (f k) k) :
    Does R cpu (get >>= f) k := ⟨h.spec⟩

theorem does_ite {c : Prop} [Decidable c] {x y : KernelM α} (hx : c → Does R cpu x k)
    (hy : ¬ c → Does R cpu y k) : Does R cpu (if c then x else y) k := by
  split
  · exact hx ‹_›
  · exact hy ‹_›

/-- What happens before the scheduler is entered, and the scheduler. -/
theorem does_then_sched (hr : ReflTransGen R k k') :
    wp (schedYield cpu) (fun _ k'' => ReflTransGen R k k'' ∧ k''.cpus = k.cpus)
      (fun ex k'' => ex = .user ∨ ex = .halt → ∃ k₁, ReflTransGen R k k₁ ∧ Resched cpu k₁ k'')
      k' := by
  cases h : schedYield cpu k' with
  | ok a k'' => exact (schedYield_ne_ok h).elim
  | error ex k'' =>
    refine (wp_of_error h).2 fun hex => ⟨k', hr, Or.inl ?_⟩
    rcases hex with rfl | rfl
    · exact Or.inl h
    · exact Or.inr h

theorem does_schedYield : Does R cpu (schedYield cpu) k := ⟨does_then_sched .refl⟩

/-- Code of `kern/pmap.c` returns or panics. -/
theorem does_onPm {x : PhysM α}
    (h : ∀ a pm, x k.pm = .ok a pm → ReflTransGen R k { k with pm := pm }) :
    Does R cpu (onPm x) k := by
  constructor
  cases hx : x k.pm with
  | ok a pm => exact (wp_of_ok (onPm_ok hx)).2 ⟨h a pm hx, rfl⟩
  | error p pm =>
    refine (wp_of_error (onPm_error hx)).2 ?_
    rintro (h | h) <;> cases h

theorem does_withPgdir {f : ℕ → KernelM α} (h : ∀ r, k.roots e = some r → Does R cpu (f r) k) :
    Does R cpu (withPgdir e f) k := by
  rw [withPgdir]
  refine does_get_bind ?_
  cases hr : (k.envs e).envPgdir with
  | none => exact does_wild
  | some r => exact h r hr

theorem does_withEnv {f : EnvIdx → KernelM Word}
    (h : ∀ e, envid2env cpu envid b k = .ok (some e) → Does R cpu (f e) k) :
    Does R cpu (withEnv cpu envid b f) k := by
  rw [withEnv]
  refine does_get_bind ?_
  cases he : envid2env cpu envid b k with
  | error r => exact does_pure
  | ok o =>
    cases o with
    | none => exact does_wild
    | some e => exact h e he

variable {P : Kernel → Kernel → Prop}

theorem stays_bind [IsTrans Kernel P] (hx : Stays P x) (hf : ∀ a, Stays P (f a)) :
    Stays P (x >>= f) := by
  refine ⟨fun k => ?_⟩
  rw [wp_bind]
  refine (hx.spec k).mono (fun a k' hk' => ?_) fun _ _ h => h
  exact ((hf a).spec k').mono (fun _ k'' hk'' => IsTrans.trans k k' k'' hk' hk'') fun _ _ h => h

theorem stays_get_bind {f : Kernel → KernelM β} (h : ∀ k, Stays P (f k)) : Stays P (get >>= f) :=
  ⟨fun k => (h k).spec k⟩

theorem stays_pure (h : ∀ k, P k k) : Stays P (pure a) := ⟨h⟩

theorem stays_throw {ex : Exit} (h : ¬ (ex = .user ∨ ex = .halt)) :
    Stays P (throw ex : KernelM α) := ⟨fun _ => h⟩

theorem stays_modify (h : ∀ k, P k (g k)) : Stays P (modify g) := ⟨h⟩

theorem stays_onPm {x : PhysM α} (h : ∀ k pm, P k { k with pm := pm }) : Stays P (onPm x) := by
  refine ⟨fun k => ?_⟩
  cases hr : x k.pm with
  | ok a pm => exact (wp_of_ok (onPm_ok hr)).2 (h k pm)
  | error p pm =>
    refine (wp_of_error (onPm_error hr)).2 ?_
    simp

theorem stays_withPgdir {f : ℕ → KernelM α} (h : ∀ r, Stays P (f r)) : Stays P (withPgdir e f) := by
  rw [withPgdir]
  refine stays_get_bind fun k => ?_
  cases (k.envs e).envPgdir with
  | none => exact stays_throw (by simp)
  | some r => exact h r

/-- A program that stays in the kernel is not what leaves it. -/
theorem Stays.not_left (h : Stays P x) {ex : Exit} (hx : x k = .error ex k') :
    ¬ (ex = .user ∨ ex = .halt) :=
  (wp_of_error hx).1 (h.spec k)

theorem does_of_stays (h : Stays SameCpus x)
    (hr : ∀ a k', x k = .ok a k' → ReflTransGen R k k') : Does R cpu x k := by
  constructor
  cases hx : x k with
  | ok a k' => exact (wp_of_ok hx).2 ⟨hr a k' hx, (wp_of_ok hx).1 (h.spec k)⟩
  | error ex k' => exact (wp_of_error hx).2 fun hex => absurd hex (h.not_left hx)

theorem Stays.returns (h : Stays P x) (hx : x k = .ok a k') : P k k' :=
  (wp_of_ok hx).1 (h.spec k)

end Does

/-! ## The environment a call names -/

section Lookup

variable {k : Kernel} {cpu : ℕ} {envid : Word} {e : EnvIdx}

theorem inUse_of_envid2env (h : envid2env cpu envid b k = .ok (some e)) : k.InUse cpu e := by
  simp only [envid2env] at h
  split at h
  · exact Or.inr (by simpa using h)
  · split at h
    · cases h
    · next hfree =>
        rw [not_or] at hfree
        split at h <;> cases h
        exact Or.inl hfree.1

theorem controls_of_envid2env (h : envid2env cpu envid true k = .ok (some e)) :
    k.Controls cpu e := by
  simp only [envid2env] at h
  split at h
  · exact Or.inl (by simpa using h)
  · split at h
    · cases h
    · split at h
      · cases h
      · next hperm =>
          cases h
          simp only [true_and, not_and_or, not_not] at hperm
          rcases hperm with hcur | hpar
          · exact Or.inl hcur
          · cases hc : k.curenv cpu with
            | none => rw [hc] at hpar; cases hpar
            | some c =>
              rw [hc, Option.map_some, Option.some.injEq] at hpar
              exact Or.inr ⟨c, hc, hpar.symm⟩

end Lookup

/-! ## Destroying an environment -/

section Calls

open Relation

variable {R : Kernel → Kernel → Prop} {k : Kernel} {cpu : ℕ} {held : Finset ℕ} {ok : Prop}

theorem stays_envFree : Stays SameIds (envFree cpu e) := by
  rw [envFree]
  refine stays_get_bind fun k => ?_
  cases (k.envs e).envPgdir with
  | none => exact stays_throw (by split <;> simp)
  | some r =>
    have hdir : ∀ k : Kernel, SameIds k (k.modifyEnv e fun env => { env with envPgdir := none }) :=
      fun k => .modifyEnv k (fun _ => rfl) fun _ => rfl
    have hfree : ∀ k : Kernel, SameIds k (k.modifyEnv e fun env =>
        { env with envStatus := .free, envLink := k.envFreeList }) :=
      fun k => .modifyEnv k (fun _ => rfl) fun _ => rfl
    have hpm : ∀ {α : Type} {x : PhysM α}, Stays SameIds (onPm x) := stays_onPm .of_pm
    refine stays_bind hpm fun _ => stays_bind (stays_modify hdir) fun _ => ?_
    refine stays_bind hpm fun pp => stays_bind hpm fun _ => ?_
    exact stays_bind (stays_modify hfree) fun _ =>
      stays_modify fun _ => ⟨rfl, fun _ => rfl, fun _ => rfl⟩

/-- `env_destroy` marks the environment, or frees it. -/
theorem does_envDestroy (hctl : k.Controls cpu e)
    (hsafe : ok → k.curenv cpu ≠ some e → k.RunsElsewhere cpu e →
      (k.envs e).envStatus = .running) : Does (Act ok cpu) cpu (envDestroy cpu e) k := by
  rw [envDestroy]
  refine does_get_bind (does_ite (fun hrun => ?_) fun hrun => ⟨?_⟩)
  · exact does_modify (.mark hctl hrun.1 hrun.2) rfl
  · rw [wp_bind]
    cases hfree : envFree cpu e k with
    | error ex k' =>
      refine (wp_of_error hfree).2 fun hex => ?_
      exact absurd hex (stays_envFree.not_left hfree)
    | ok u k₁ =>
      refine (wp_of_ok hfree).2 ?_
      by_cases hcur : k.curenv cpu = some e
      · rw [if_pos hcur, wp_bind, wp_modify]
        exact does_then_sched (.single (.exit hcur hfree))
      · rw [if_neg hcur, wp_pure]
        refine ⟨.single (.free hctl hcur (fun hok helse => ?_) hfree), ?_⟩
        · exact hrun ⟨hsafe hok hcur helse, hcur⟩
        · exact (stays_envFree.returns hfree).cpus

/-- `env_destroy` changes no ids. -/
theorem envDestroy_sameIds {u : Unit} (h : envDestroy cpu e k = .ok u k') : SameIds k k' := by
  rw [envDestroy, run_get_bind] at h
  split at h
  · cases h
    exact .modifyEnv k (fun _ => rfl) fun _ => rfl
  · obtain ⟨u, k₁, hfree, hrest⟩ := run_bind_inv h
    split at hrest
    · rw [run_modify_bind] at hrest
      exact (schedYield_ne_ok hrest).elim
    · cases hrest
      exact stays_envFree.returns hfree

variable {va len perm srcva dstva value : Word} {inp : Input} {pg r : ℕ} {c : EnvIdx}

/-- `user_mem_assert` checks, and destroys the environment if the check fails. -/
theorem does_userMemAssert (hctl : k.Controls cpu e)
    (hsafe : ok → k.curenv cpu ≠ some e → k.RunsElsewhere cpu e →
      (k.envs e).envStatus = .running ∨ ∃ r pm, k.roots e = some r ∧
        userMemCheck r va len (perm ||| PTE_U) k.pm = .ok (.ok ()) pm) :
    Does (Act ok cpu) cpu (userMemAssert cpu e va len perm) k := by
  have hcheck : Does (Act ok cpu) cpu
      (withPgdir e fun pgdir => onPm (userMemCheck pgdir va len (perm ||| PTE_U))) k := by
    refine does_withPgdir fun r _ => does_onPm fun res pm hrun => ?_
    obtain ⟨a, rfl⟩ := userMemCheckLoop_reads _ hrun
    exact .single (.scratch ⟨rfl, rfl, rfl, rfl, rfl, rfl, rfl, fun _ _ => rfl⟩)
  refine does_bind hcheck fun res k' hrun hcpus => ?_
  cases res with
  | ok u => exact does_pure
  | error x =>
    obtain ⟨r, pm, hr, hpm, rfl⟩ := withPgdir_inv hrun
    refine does_envDestroy hctl fun hok hcur helse => ?_
    rcases hsafe hok hcur helse with hst | ⟨r', pm', hr', hpass⟩
    · exact hst
    · -- the check has failed, so it has not passed
      obtain rfl : r = r' := by simpa [Kernel.roots, hr] using hr'
      rw [hpm] at hpass
      cases hpass

theorem userMemAssert_sameIds {u : Unit} (h : userMemAssert cpu e va len perm k = .ok u k') :
    SameIds k k' := by
  rw [userMemAssert] at h
  obtain ⟨res, k₁, hcheck, hrest⟩ := run_bind_inv h
  obtain ⟨r, pm, -, -, rfl⟩ := withPgdir_inv hcheck
  cases res with
  | ok u => cases hrest; exact .of_pm k pm
  | error x => exact IsTrans.trans _ _ _ (SameIds.of_pm k pm) (envDestroy_sameIds hrest)

theorem does_sysCputs {str : Word} : Does (Act ok cpu) cpu (sysCputs cpu inp str len) k := by
  rw [sysCputs]
  refine does_get_bind ?_
  cases hc : k.curenv cpu with
  | none => exact does_wild
  | some c =>
    refine does_bind (does_userMemAssert (Or.inl hc) fun _ hne => absurd hc hne) fun _ k' _ _ => ?_
    exact does_get_bind (does_ite (fun _ => does_panic) fun _ => does_pure)

theorem does_sysEnvDestroy
    (hsafe : ok → ∀ e, envid2env cpu envid true k = .ok (some e) → k.RunsElsewhere cpu e →
      (k.envs e).envStatus = .running) : Does (Act ok cpu) cpu (sysEnvDestroy cpu envid) k := by
  refine does_withEnv fun e he => ?_
  refine does_bind (does_envDestroy (controls_of_envid2env he) fun hok _ => hsafe hok e he) ?_
  exact fun _ _ _ _ => does_pure

theorem does_sysEnvSetStatus {status : Word}
    (hsafe : ok → status = EnvStatus.runnable.code →
      ∀ e, envid2env cpu envid true k = .ok (some e) → ¬ k.RunsElsewhere cpu e) :
    Does (Act ok cpu) cpu (sysEnvSetStatus cpu envid status) k := by
  refine does_withEnv fun e he => ?_
  have hctl := controls_of_envid2env he
  have huse := inUse_of_envid2env he
  refine does_ite (fun hrun => ?_) fun _ => does_ite (fun _ => ?_) fun _ => does_pure
  · refine does_bind (does_modify (.setStatus hctl huse (Or.inl rfl) ?_) rfl) ?_
    · exact fun hok _ => hsafe hok hrun e he
    · exact fun _ _ _ _ => does_pure
  · refine does_bind (does_modify (.setStatus hctl huse (Or.inr rfl) ?_) rfl) ?_
    · exact fun _ h => absurd h (by decide)
    · exact fun _ _ _ _ => does_pure

theorem does_sysEnvSetTrapframe {tf : Word}
    (hsafe : ok → ∀ e, envid2env cpu envid true k = .ok (some e) → k.RunsElsewhere cpu e →
      (k.envs e).envStatus = .running ∨ ∃ r pm, k.roots e = some r ∧
        userMemCheck r tf 68#32 PTE_U k.pm = .ok (.ok ()) pm) :
    Does (Act ok cpu) cpu (sysEnvSetTrapframe cpu inp envid tf) k := by
  refine does_withEnv fun e he => ?_
  have hctl := controls_of_envid2env he
  refine does_bind (does_userMemAssert hctl fun hok _ => hsafe hok e he) fun _ k' hrun hcpus => ?_
  refine does_get_bind (does_ite (fun _ => does_panic) fun _ => ?_)
  refine does_bind (does_modify (.setTf (f := fun _ => _) ?_) rfl) fun _ _ _ _ => does_pure
  exact (userMemAssert_sameIds hrun).controls hctl

theorem stays_envAlloc {parentId : Word} : Stays SameCpus (envAlloc parentId) := by
  have hpm : ∀ {α : Type} {x : PhysM α}, Stays SameCpus (onPm x) := stays_onPm fun _ _ => rfl
  have hsetup : ∀ e, Stays SameCpus (envSetupVm e) := fun e => by
    rw [envSetupVm]
    refine stays_bind hpm fun o => ?_
    cases o with
    | none => exact stays_pure fun _ => rfl
    | some p =>
      refine stays_bind hpm fun kva => stays_bind (stays_modify fun _ => rfl) fun _ => ?_
      exact stays_bind hpm fun _ => stays_bind hpm fun _ => stays_pure fun _ => rfl
  rw [envAlloc]
  refine stays_get_bind fun k => ?_
  cases k.envFreeList with
  | none => exact stays_pure fun _ => rfl
  | some e =>
    refine stays_bind (hsetup e) fun o => ?_
    cases o with
    | error r => exact stays_pure fun _ => rfl
    | ok u =>
      refine stays_bind (stays_modify fun _ => rfl) fun _ => ?_
      exact stays_bind (stays_modify fun _ => rfl) fun _ => stays_pure fun _ => rfl

/-- `sys_exofork` does nothing, or it makes an environment. -/
theorem does_exofork (hfork : ∀ c e k₁, k.curenv cpu = some c →
      envAlloc (k.envs c).envId k = .ok (.ok e) k₁ → R k (k₁.modifyEnv e fun env =>
        { env with envStatus := .notRunnable, envTf := (k₁.envs c).envTf.setEax 0#32 })) :
    Does R cpu (sysExofork cpu) k := by
  rw [sysExofork]
  refine does_get_bind ?_
  cases hc : k.curenv cpu with
  | none => exact does_wild
  | some c =>
    refine does_of_stays (stays_bind stays_envAlloc fun o => ?_) fun w k' h => ?_
    · cases o with
      | error r => exact stays_pure fun _ => rfl
      | ok e =>
        refine stays_bind (stays_modify fun _ => rfl) fun _ => stays_get_bind fun _ => ?_
        exact stays_pure fun _ => rfl
    · obtain ⟨o, k₁, ha, hrest⟩ := run_bind_inv h
      cases o with
      | error r =>
        cases hrest
        rw [envAlloc_error ha]
      | ok e =>
        cases hrest
        exact .single (hfork c e k₁ hc ha)

theorem does_sysExofork : Does (Act ok cpu) cpu (sysExofork cpu) k :=
  does_exofork fun _ _ _ => .fork

theorem does_sysEnvSetPgfaultUpcall {func : Word} :
    Does (Act ok cpu) cpu (sysEnvSetPgfaultUpcall cpu envid func) k := by
  refine does_withEnv fun e he => ?_
  refine does_bind (does_modify (.setUpcall (controls_of_envid2env he)) rfl) ?_
  exact fun _ _ _ _ => does_pure

theorem does_sysPageAlloc : Does (Act ok cpu) cpu (sysPageAlloc cpu envid va perm) k := by
  refine does_withEnv fun e he => ?_
  refine does_ite (fun _ => does_pure) fun hva => does_ite (fun _ => does_pure) fun hperm => ?_
  have hpm : ∀ {α : Type} {x : PhysM α}, Stays SameCpus (onPm x) := stays_onPm fun _ _ => rfl
  refine does_of_stays (stays_bind hpm fun o => ?_) fun w k' h => ?_
  · cases o with
    | none => exact stays_pure fun _ => rfl
    | some pg =>
      refine stays_bind (stays_withPgdir fun r => hpm) fun o => ?_
      cases o with
      | ok u => exact stays_pure fun _ => rfl
      | error x => exact stays_bind hpm fun _ => stays_pure fun _ => rfl
  · obtain ⟨o, k₁, ha, hrest⟩ := run_bind_inv h
    obtain ⟨pm₁, hpm₁, rfl⟩ := onPm_inv ha
    cases o with
    | none =>
      cases hrest
      rw [(pageAlloc_none_inv hpm₁).1]
    | some pg =>
      obtain ⟨o, k₂, hins, hrest⟩ := run_bind_inv hrest
      obtain ⟨r, pm₂, hr, hpm₂, rfl⟩ := withPgdir_inv hins
      cases o with
      | ok u =>
        cases hrest
        exact .single (.mapNew (controls_of_envid2env he) hr (userVa_lt (by simpa using hva))
          (by simpa using hperm) hpm₁ hpm₂)
      | error x =>
        change (onPm (pageFree pg) >>= fun _ => pure Errno.noMem.ret) _ = _ at hrest
        obtain ⟨u, k₃, hfree, hrest⟩ := run_bind_inv hrest
        cases hrest
        obtain ⟨pm₃, hpm₃, rfl⟩ := onPm_inv hfree
        exact .single (.scratch (unchanged_of_undo hpm₁ hpm₂ hpm₃))

/-- `page_lookup` on an environment finds the entry of its page table. -/
theorem lookup_inv {o : Option (ℕ × PtePtr)} (h : MemInv k.pm k.roots held) (hva : va < UTOP)
    (hrun : withPgdir e (fun r => onPm (pageLookup r va)) k = .ok o k') :
    k' = k ∧ ∀ pg pte, o = some (pg, pte) →
      entry k.pm k.roots (.pte e (pdx va) (ptx va)) = some (k.pm.read pte) ∧
        pgnum (k.pm.read pte) = pg := by
  obtain ⟨r, pm, hr, hpm, rfl⟩ := withPgdir_inv hrun
  have hroot : k.roots e = some r := hr
  have hd := pdx_lt_utopDx.2 hva
  rw [h.pageLookup_eq hroot hd] at hpm
  cases hpm
  refine ⟨rfl, fun pg pte ho => ?_⟩
  obtain ⟨w, hw, hx⟩ := Option.map_eq_some_iff.1 ho
  obtain ⟨q, hq, hmem, -⟩ := of_entry_pte hw
  obtain ⟨r', hr', -, -, hpg⟩ := of_target_pde hq
  obtain rfl : r = r' := by simpa [hroot] using hr'
  cases hx
  have hread : k.pm.read ⟨pgnum (k.pm.mem r (pdx va)), ptx va⟩ = w := by
    rw [PhysMem.read, hpg, hmem]
  rw [hread]
  exact ⟨hw, rfl⟩

theorem does_lookup : Does (Act ok cpu) cpu (withPgdir e fun r => onPm (pageLookup r va)) k := by
  refine does_withPgdir fun r _ => does_onPm fun o pm hpm => ?_
  rw [pageLookup_reads hpm]

/-- `page_insert` on an environment, of a page that may be mapped there. -/
theorem does_insert {s : EnvIdx} {sva : Word} (hmaps : MapsFrom k cpu s sva e va perm pg)
    (hsafe : ok → va < UTOP ∧ ∀ r pm', k.roots e = some r →
      pageInsert r pg va perm k.pm = .ok (.ok ()) pm' →
      k.Room e va pg ∨ { k with pm := pm' }.NoOverflow) :
    Does (Act ok cpu) cpu (withPgdir e fun r => onPm (pageInsert r pg va perm)) k := by
  refine does_withPgdir fun r hr => does_onPm fun o pm hpm => ?_
  cases o with
  | error x => rw [(pageInsert_error hpm).1]
  | ok u =>
    exact .single (.map hmaps hr hpm fun hok => ⟨(hsafe hok).1, (hsafe hok).2 r pm hr hpm⟩)

theorem withPgdir_some {α : Type} (hr : k.roots e = some r) (f : ℕ → KernelM α) :
    withPgdir e f k = f r k := by
  have hdir : (k.envs e).envPgdir = some r := hr
  simp only [withPgdir, run_get_bind, hdir]

theorem withEnv_ok (he : envid2env cpu envid b k = .ok (some e)) (f : EnvIdx → KernelM Word) :
    withEnv cpu envid b f k = f e k := by
  simp only [withEnv, run_get_bind, he]

/-- A run of `sys_page_map` that maps a page. -/
theorem sysPageMap_run {srcenvid dstenvid : Word} {s : EnvIdx} {pte : PtePtr} {pm' : PhysMem}
    (hs : envid2env cpu srcenvid true k = .ok (some s))
    (he : envid2env cpu dstenvid true k = .ok (some e)) (hsva : userVa srcva = true)
    (hdva : userVa dstva = true) (hperm : permOk perm = true)
    (hlook : withPgdir s (fun r => onPm (pageLookup r srcva)) k = .ok (some (pg, pte)) k)
    (hwr : writable perm = true → writable (k.pm.read pte) = true) (hr : k.roots e = some r)
    (hins : pageInsert r pg dstva perm k.pm = .ok (.ok ()) pm') :
    sysPageMap cpu srcenvid srcva dstenvid dstva perm k = .ok 0#32 { k with pm := pm' } := by
  have hva : ¬ (userVa srcva = false ∨ userVa dstva = false) := by simp [hsva, hdva]
  have hw : ¬ (writable perm = true ∧ ¬ writable (k.pm.read pte) = true) := fun h => h.2 (hwr h.1)
  rw [sysPageMap, withEnv_ok hs, withEnv_ok he, if_neg hva, if_neg (by simp [hperm]),
    run_bind_ok hlook]
  simp only [run_get_bind]
  rw [if_neg hw, run_bind_ok ((withPgdir_some hr _).trans (onPm_ok hins))]
  rfl

theorem does_sysPageMap {srcenvid dstenvid : Word} (h : MemInv k.pm k.roots held)
    (hsafe : ok → (∀ s e pg, envid2env cpu srcenvid true k = .ok (some s) →
        envid2env cpu dstenvid true k = .ok (some e) →
        target k.pm k.roots (.pte s (pdx srcva) (ptx srcva)) = some pg → k.Room e dstva pg) ∨
      ∀ w k', sysPageMap cpu srcenvid srcva dstenvid dstva perm k = .ok w k' → k'.NoOverflow) :
    Does (Act ok cpu) cpu (sysPageMap cpu srcenvid srcva dstenvid dstva perm) k := by
  refine does_withEnv fun s hs => does_withEnv fun e he => ?_
  refine does_ite (fun _ => does_pure) fun hva => does_ite (fun _ => does_pure) fun hperm => ?_
  rw [not_or, Bool.not_eq_false, Bool.not_eq_false] at hva
  rw [Bool.not_eq_false] at hperm
  have hsva := userVa_lt hva.1
  refine does_bind does_lookup fun o k' hrun _ => ?_
  obtain ⟨rfl, hfound⟩ := lookup_inv h hsva hrun
  cases o with
  | none => exact does_pure
  | some x =>
    obtain ⟨pg, pte⟩ := x
    obtain ⟨hw, hpg⟩ := hfound pg pte rfl
    refine does_get_bind (does_ite (fun _ => does_pure) fun hwr => ?_)
    have hwr' : writable perm = true → writable (k'.pm.read pte) = true := fun hp => by
      by_contra hnot
      exact hwr ⟨hp, hnot⟩
    have hmaps : MapsFrom k' cpu s srcva e dstva perm pg :=
      ⟨⟨_, hw, hpg, hwr'⟩, hsva, hperm, Or.inl ⟨controls_of_envid2env hs,
        controls_of_envid2env he, userVa_lt hva.2⟩⟩
    refine does_bind (does_insert hmaps fun hok => ⟨userVa_lt hva.2, ?_⟩) fun o k₁ _ _ => ?_
    · intro r pm' hr hins
      rcases hsafe hok with hroom | hno
      · exact Or.inl (hroom s e pg hs he (by rw [target, hw, Option.map_some, hpg]))
      · exact Or.inr (hno _ _ (sysPageMap_run hs he hva.1 hva.2 hperm hrun hwr' hr hins))
    · cases o <;> exact does_pure

theorem does_sysPageUnmap : Does (Act ok cpu) cpu (sysPageUnmap cpu envid va) k := by
  refine does_withEnv fun e he => does_ite (fun _ => does_pure) fun hva => ?_
  refine does_bind (does_withPgdir fun r hr => does_onPm fun u pm hpm => ?_) fun _ _ _ _ => does_pure
  exact .single (.unmap (controls_of_envid2env he) hr (userVa_lt (by simpa using hva)) hpm)

/-- The message itself. -/
theorem does_ipcDeliver (hc : k.curenv cpu = some c) (huse : k.InUse cpu e) (hrecv : k.Receiving e)
    (hsafe : ok → ¬ k.RunsElsewhere cpu e) : Does (Act ok cpu) cpu (ipcDeliver c e value) k := by
  have hact : Act ok cpu k (k.deliver c e value none) := .deliver hc huse hrecv hsafe
  exact does_bind (does_modify hact rfl) fun _ _ _ _ => does_pure

/-- The message, after its page. -/
theorem ipcDeliver_perm_run :
    (do
      modify fun k => k.modifyEnv e fun env => { env with envIpcPerm := perm }
      ipcDeliver c e value : KernelM Word) k = .ok 0#32 (k.deliver c e value (some perm)) := by
  have hsame : SameIds k (k.modifyEnv e fun env => { env with envIpcPerm := perm }) :=
    .modifyEnv k (fun _ => rfl) fun _ => rfl
  rw [run_modify_bind, ipcDeliver, run_modify_bind, run_pure, hsame.envId c]
  simp only [Kernel.modifyEnv, Kernel.deliver, Function.update_self, Function.update_idem,
    Option.getD_some]

/-- A run of `sys_ipc_try_send` that maps a page. -/
theorem sysIpcTrySend_run {pte : PtePtr} {pm' : PhysMem}
    (he : envid2env cpu envid false k = .ok (some e)) (hc : k.curenv cpu = some c)
    (hrecv : k.Receiving e) (hsva : srcva < UTOP) (hoff : pgoff srcva = 0#32)
    (hperm : permOk perm = true)
    (hlook : withPgdir c (fun r => onPm (pageLookup r srcva)) k = .ok (some (pg, pte)) k)
    (hwr : writable perm = true → writable (k.pm.read pte) = true)
    (hdst : (k.envs e).envIpcDstva ≠ 0#32) (hr : k.roots e = some r)
    (hins : pageInsert r pg (k.envs e).envIpcDstva perm k.pm = .ok (.ok ()) pm') :
    sysIpcTrySend cpu envid value srcva perm k
      = .ok 0#32 ({ k with pm := pm' }.deliver c e value (some perm)) := by
  have hw : ¬ (writable perm = true ∧ ¬ writable (k.pm.read pte) = true) := fun h => h.2 (hwr h.1)
  rw [sysIpcTrySend, withEnv_ok he, run_get_bind]
  simp only [hc]
  rw [if_neg hrecv.not_busy, if_pos hsva, if_neg (by simp [hoff, hperm]), run_bind_ok hlook]
  simp only [run_get_bind]
  rw [if_neg hw, if_pos hdst, run_bind_ok ((withPgdir_some hr _).trans (onPm_ok hins))]
  exact ipcDeliver_perm_run

theorem does_ipcDeliver_perm (hc : k.curenv cpu = some c) (huse : k.InUse cpu e)
    (hrecv : k.Receiving e) (hsafe : ok → ¬ k.RunsElsewhere cpu e) :
    Does (Act ok cpu) cpu (do
      modify fun k => k.modifyEnv e fun env => { env with envIpcPerm := perm }
      ipcDeliver c e value) k :=
  ⟨(wp_of_ok ipcDeliver_perm_run).2 ⟨.single (.deliver hc huse hrecv hsafe), rfl⟩⟩

theorem does_sysIpcTrySend (h : MemInv k.pm k.roots held)
    (henv : ok → ∀ e, envid2env cpu envid false k = .ok (some e) → k.Receiving e →
      ¬ k.RunsElsewhere cpu e)
    (hlow : ok → ∀ e, envid2env cpu envid false k = .ok (some e) → k.Receiving e →
      srcva < UTOP → (k.envs e).envIpcDstva ≠ 0#32 → (k.envs e).envIpcDstva < UTOP)
    (hsafe : ok → (∀ c e pg, k.curenv cpu = some c → envid2env cpu envid false k = .ok (some e) →
        k.Receiving e → target k.pm k.roots (.pte c (pdx srcva) (ptx srcva)) = some pg →
        k.Room e (k.envs e).envIpcDstva pg) ∨
      ∀ w k', sysIpcTrySend cpu envid value srcva perm k = .ok w k' → k'.NoOverflow) :
    Does (Act ok cpu) cpu (sysIpcTrySend cpu envid value srcva perm) k := by
  refine does_withEnv fun e he => does_get_bind ?_
  have huse := inUse_of_envid2env he
  cases hc : k.curenv cpu with
  | none => exact does_wild
  | some c =>
    refine does_ite (fun _ => does_pure) fun hnot => ?_
    have hrecv : k.Receiving e := by
      rw [not_or, Bool.not_eq_false, not_not] at hnot
      exact hnot
    have hother : ok → ¬ k.RunsElsewhere cpu e := fun hok => henv hok e he hrecv
    refine does_ite (fun hsva => ?_) fun _ => does_ipcDeliver hc huse hrecv hother
    refine does_ite (fun _ => does_pure) fun hargs => ?_
    rw [not_or, Bool.not_eq_false, not_not] at hargs
    refine does_bind does_lookup fun o k' hrun _ => ?_
    obtain ⟨rfl, hfound⟩ := lookup_inv h hsva hrun
    cases o with
    | none => exact does_pure
    | some x =>
      obtain ⟨pg, pte⟩ := x
      obtain ⟨hw, hpg⟩ := hfound pg pte rfl
      refine does_get_bind (does_ite (fun _ => does_pure) fun hwr => ?_)
      refine does_ite (fun hdst => ?_) fun _ => does_ipcDeliver hc huse hrecv hother
      have hwr' : writable perm = true → writable (k'.pm.read pte) = true := fun hp => by
        by_contra hnot
        exact hwr ⟨hp, hnot⟩
      have hmaps : MapsFrom k' cpu c srcva e (k'.envs e).envIpcDstva perm pg :=
        ⟨⟨_, hw, hpg, hwr'⟩, hsva, hargs.2, Or.inr ⟨hc, hrecv, rfl, hdst⟩⟩
      refine does_bind (does_insert hmaps fun hok => ⟨hlow hok e he hrecv hsva hdst, ?_⟩)
        fun o k₁ hins hcpus => ?_
      · intro r pm' hr hins
        rcases hsafe hok with hroom | hno
        · exact Or.inl (hroom c e pg hc he hrecv (by rw [target, hw, Option.map_some, hpg]))
        · have hsent := hno _ _ (sysIpcTrySend_run he hc hrecv hsva hargs.1 hargs.2 hrun hwr'
            hdst hr hins)
          refine Or.inr fun p => ?_
          have hroots : ({ k' with pm := pm' }.deliver c e value (some perm)).roots = k'.roots :=
            Kernel.roots_modifyEnv rfl
          exact hroots ▸ hsent p
      · cases o with
        | error x => exact does_pure
        | ok u =>
          obtain ⟨r, pm, -, -, rfl⟩ := withPgdir_inv hins
          exact does_ipcDeliver_perm hc huse hrecv hother

theorem does_sysIpcRecv : Does (Act ok cpu) cpu (sysIpcRecv cpu dstva) k := by
  rw [sysIpcRecv]
  refine does_get_bind ?_
  cases hc : k.curenv cpu with
  | none => exact does_wild
  | some c =>
    refine does_ite (fun _ => does_pure) fun _ => ?_
    refine does_bind (does_modify (.recv hc) rfl) fun _ _ _ _ => ?_
    exact does_bind does_schedYield fun _ _ _ _ => does_pure

/-- **A system call is a sequence of acts.** -/
theorem does_syscall {no a1 a2 a3 a4 a5 : Word} (h : MemInv k.pm k.roots held)
    (henv : ok → EnvSafe cpu no a1 a2 k) (hdst : ok → DstSafe cpu no a1 a3 k)
    (hroom : ok → RoomSafe cpu no a1 a2 a3 a4 k ∨
      ∀ w k', syscall cpu inp no a1 a2 a3 a4 a5 k = .ok w k' → k'.NoOverflow) :
    Does (Act ok cpu) cpu (syscall cpu inp no a1 a2 a3 a4 a5) k := by
  unfold EnvSafe at henv
  unfold DstSafe at hdst
  unfold RoomSafe at hroom
  rw [syscall] at hroom ⊢
  cases hno : Sysno.ofWord no with
  | none => exact does_pure
  | some n =>
    rw [hno] at henv hdst hroom
    cases n with
    | cputs => exact does_sysCputs
    | cgetc => exact does_pure
    | getenvid =>
      change Does _ cpu (sysGetenvid cpu) k
      rw [sysGetenvid]
      refine does_get_bind ?_
      cases k.curenv cpu with
      | none => exact does_wild
      | some c => exact does_pure
    | envDestroy => exact does_sysEnvDestroy henv
    | pageAlloc => exact does_sysPageAlloc
    | pageMap => exact does_sysPageMap h hroom
    | pageUnmap => exact does_sysPageUnmap
    | exofork => exact does_sysExofork
    | envSetStatus => exact does_sysEnvSetStatus henv
    | envSetTrapframe => exact does_sysEnvSetTrapframe henv
    | envSetPgfaultUpcall => exact does_sysEnvSetPgfaultUpcall
    | yield => exact does_bind does_schedYield fun _ _ _ _ => does_pure
    | ipcTrySend => exact does_sysIpcTrySend h henv hdst hroom
    | ipcRecv => exact does_sysIpcRecv
    | timeMsec => exact does_get_bind does_pure

end Calls

end Jos
