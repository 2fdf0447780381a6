import Jos.Kern.Acts

/-!
# What a step of the machine can do

A trap from user mode is a sequence of acts (`does_trapUser`), and so is a
store that user code makes.  With what interrupts do on a CPU that waits and
what a CPU does first, this says what any step of the machine can do:
`step_cases`.
-/

namespace Jos

/-! ## Stores to user memory -/

variable {u : Unit} {R : Kernel → Kernel → Prop} {va : Word} {inp : Input} {tf : Trapframe}

section Stores

variable {pm : PhysMem} {roots : EnvIdx → Option ℕ} {held : Finset ℕ} {c : EnvIdx} {r : ℕ}
  {va : Word}

variable {m : ℕ → Idx → Word}

/-- Such pages hold no tables. -/
theorem UserWrites.tables (h : UserWrites pm roots c m) (hinv : MemInv pm roots held) {q : ℕ}
    (hq : IsTablePage pm roots q) : m q = pm.mem q := by
  refine h q fun d t w hw _ hpg => ?_
  refine hinv.not_isTablePage_of_pte (e := c) (d := d) (t := t) ?_ hq
  rw [target, hw, Option.map_some, hpg]

theorem UserWrites.inv (h : UserWrites pm roots c m) (hinv : MemInv pm roots held) :
    MemInv { pm with mem := m } roots held :=
  hinv.congr_tables rfl (fun _ hq => h.tables hinv hq) hinv.alloc

theorem UserWrites.entry_eq (h : UserWrites pm roots c m) (hinv : MemInv pm roots held) :
    entry { pm with mem := m } roots = entry pm roots :=
  entry_congr rfl fun _ hq => h.tables hinv hq

/-- One store after another. -/
theorem UserWrites.trans {m' : ℕ → Idx → Word} (h : UserWrites pm roots c m)
    (hinv : MemInv pm roots held) (h' : UserWrites { pm with mem := m } roots c m') :
    UserWrites pm roots c m' := fun q hq => by
  rw [← h q hq]
  refine h' q fun d t w hw => ?_
  rw [h.entry_eq hinv] at hw
  exact hq d t w hw

/-- Where the tables allow writing below `UTOP`, there is an entry that does. -/
theorem entry_of_translates (hr : roots c = some r) (hva : va < UTOP)
    (h : translates pm r va (PTE_P ||| PTE_W) = true) :
    target pm roots (.pde c (pdx va)) = some (pgnum (pm.mem r (pdx va))) ∧
      ∃ w, entry pm roots (.pte c (pdx va) (ptx va)) = some w ∧ writable w = true ∧
        w = pm.mem (pgnum (pm.mem r (pdx va))) (ptx va) := by
  rw [translates, Bool.and_eq_true] at h
  have hp1 := present_of_grants (grants_of_or h.1).1
  have hp2 := present_of_grants (grants_of_or h.2).1
  have hq : target pm roots (.pde c (pdx va)) = some (pgnum (pm.mem r (pdx va))) := by
    rw [target_pde hr (pdx_lt_utopDx.2 hva), pageOf, if_pos hp1]
  refine ⟨hq, _, ?_, writable_of_grants (grants_of_or h.2).2, rfl⟩
  rw [entry_pte hq, presentEntry_of_present hp2]

/-- A byte stored below `UTOP` goes to such a page. -/
theorem storeByte_userWrites {b : BitVec 8} (hr : roots c = some r) (hva : va < UTOP)
    (h : translates pm r va (PTE_P ||| PTE_W) = true) :
    UserWrites pm roots c (storeByte pm r va b).mem := by
  obtain ⟨-, w, hw, hwr, hmem⟩ := entry_of_translates hr hva h
  intro q hq
  refine Function.update_of_ne (fun hqw => hq _ _ w hw hwr ?_) _ _
  rw [hqw, hmem]
  rfl

/-- The tables still translate as before. -/
theorem UserWrites.translates (h : UserWrites pm roots c m) (hinv : MemInv pm roots held)
    (hr : roots c = some r) (hva : va < UTOP) (ht : translates pm r va (PTE_P ||| PTE_W) = true) :
    Jos.translates { pm with mem := m } r va (PTE_P ||| PTE_W) = true := by
  obtain ⟨hq, -⟩ := entry_of_translates hr hva ht
  have hdir : m r = pm.mem r := h.tables hinv (Or.inr ⟨.dir c, trivial, hr⟩)
  have htab := h.tables hinv (Or.inr ⟨.pde c (pdx va), trivial, hq⟩)
  rw [Jos.translates] at ht ⊢
  simp only [hdir, htab]
  exact ht

/-- `page_fault_handler`'s stores, byte after byte. -/
theorem storeBytes_userWrites (hr : roots c = some r) (bs : List (BitVec 8)) :
    ∀ (va : Word) (pm : PhysMem), MemInv pm roots held →
      (∀ i < bs.length, va + BitVec.ofNat 32 i < UTOP ∧
        translates pm r (va + BitVec.ofNat 32 i) (PTE_P ||| PTE_W) = true) →
      ∃ m, storeBytes r va bs pm = { pm with mem := m } ∧ UserWrites pm roots c m := by
  induction bs with
  | nil => exact fun va pm _ _ => ⟨pm.mem, rfl, fun _ _ => rfl⟩
  | cons b bs ih =>
    intro va pm hinv h
    have h0 := h 0 (by simp)
    rw [BitVec.add_zero] at h0
    have hw := storeByte_userWrites (b := b) hr h0.1 h0.2
    have hbyte : storeByte pm r va b = { pm with mem := (storeByte pm r va b).mem } := rfl
    obtain ⟨m, hm, hw'⟩ := ih (va + 1#32) { pm with mem := (storeByte pm r va b).mem }
      (hw.inv hinv) fun i hi => by
        have hi' := h (i + 1) (by simpa using hi)
        have hnext : va + 1#32 + BitVec.ofNat 32 i = va + BitVec.ofNat 32 (i + 1) := by
          rw [BitVec.add_assoc, BitVec.ofNat_add, BitVec.add_comm (BitVec.ofNat 32 i)]
        rw [hnext]
        exact ⟨hi'.1, hw.translates hinv hr hi'.1 hi'.2⟩
    refine ⟨m, ?_, hw.trans hinv hw'⟩
    rw [storeBytes, hbyte]
    exact hm

/-- What the kernel stores below `UTOP` goes to pages mapped writeable. -/
theorem storeUser_userWrites {bs : List (BitVec 8)} {pm' : PhysMem} (h : MemInv pm roots held)
    (hr : roots c = some r) (hva : ∀ i < bs.length, va + BitVec.ofNat 32 i < UTOP)
    (hrun : storeUser r va bs pm = .ok u pm') :
    ∃ m, pm' = { pm with mem := m } ∧ UserWrites pm roots c m := by
  rw [storeUser, run_get_bind] at hrun
  split at hrun
  · next hall =>
      rw [List.all_eq_true] at hall
      rw [run_modify] at hrun
      cases hrun
      exact storeBytes_userWrites hr bs va pm h
        fun i hi => ⟨hva i hi, hall i (List.mem_range.2 hi)⟩
  · cases hrun

end Stores

/-! ## Traps -/

/-- The frame of a page fault lies below `UTOP`. -/
theorem utfAddr_lt_UTOP (esp : Word) {i : ℕ} (hi : i < 52) :
    utfAddr esp + BitVec.ofNat 32 i < UTOP := by
  have htop : UXSTACKTOP.toNat = UTOP.toNat := rfl
  have hlow : (UXSTACKTOP - BitVec.ofNat 32 PGSIZE).toNat = UTOP.toNat - 4096 := by decide
  have h52 : (UXSTACKTOP - 52#32).toNat = UTOP.toNat - 52 := by decide
  rw [BitVec.lt_def, BitVec.toNat_add, BitVec.toNat_ofNat, UTOP_toNat]
  unfold utfAddr
  split
  · next h =>
    rw [ge_iff_le, BitVec.le_def, BitVec.lt_def, hlow, htop, UTOP_toNat] at h
    rw [BitVec.toNat_sub, BitVec.toNat_sub, show (52#32).toNat = 52 from rfl,
      show (4#32).toNat = 4 from rfl]
    omega
  · rw [h52, UTOP_toNat]
    omega

section Traps

open Relation

variable {k : Kernel} {cpu : ℕ} {held : Finset ℕ} {c : EnvIdx} {ok : Prop}

theorem does_monitor {α : Type} : Does R cpu (throw .monitor : KernelM α) k :=
  ⟨by rintro (h | h) <;> cases h⟩

theorem does_envRun (hc : k.curenv cpu = some c) : Does R cpu (envRun cpu c) k := by
  constructor
  cases h : envRun cpu c k with
  | ok u k' => exact (envRun_ne_ok h).elim
  | error ex k' =>
    refine (wp_of_error h).2 fun hex => ⟨k, .refl, Or.inr ⟨c, hc, ?_⟩⟩
    rcases hex with rfl | rfl
    · exact Or.inl h
    · exact Or.inr h

/-- `env_destroy` of the environment itself does not return. -/
theorem envDestroy_self_ne_ok {k' : Kernel} (hc : k.curenv cpu = some c) :
    envDestroy cpu c k ≠ .ok u k' := by
  intro h
  rw [envDestroy, run_get_bind, if_neg (fun hrun => hrun.2 hc)] at h
  obtain ⟨u', k₁, -, hrest⟩ := run_bind_inv h
  rw [if_pos hc] at hrest
  exact schedYield_ne_ok hrest

/-- An environment that passes `user_mem_assert` on itself goes on as it was. -/
theorem userMemAssert_self {len perm : Word} {k' : Kernel} (hc : k.curenv cpu = some c)
    (h : userMemAssert cpu c va len perm k = .ok u k') :
    ∃ a, k' = { k with pm := { k.pm with userMemCheckAddr := a } } := by
  rw [userMemAssert] at h
  obtain ⟨res, k₁, hcheck, hrest⟩ := run_bind_inv h
  obtain ⟨r, pm, -, hpm, rfl⟩ := withPgdir_inv hcheck
  obtain ⟨a, rfl⟩ := userMemCheckLoop_reads _ hpm
  cases res with
  | ok u => cases hrest; exact ⟨a, rfl⟩
  | error x =>
    have hc' : { k with pm := { k.pm with userMemCheckAddr := a } }.curenv cpu = some c := hc
    exact (envDestroy_self_ne_ok hc' hrest).elim

theorem does_pushUtf {esp : Word} {ws : List Word} (h : MemInv k.pm k.roots held)
    (hc : k.curenv cpu = some c) (hlen : (ws.flatMap wordBytes).length = 52) :
    Does (Act ok cpu) cpu (pushUtf c (utfAddr esp) ws) k := by
  refine does_withPgdir fun r hr => does_onPm fun u pm hrun => ?_
  obtain ⟨m, rfl, hw⟩ := storeUser_userWrites h hr (fun i hi => utfAddr_lt_UTOP esp (hlen ▸ hi)) hrun
  exact .single (.write hc hw)

theorem does_pageFaultHandler (h : MemInv k.pm k.roots held) (hc : k.curenv cpu = some c) :
    Does (Act ok cpu) cpu (pageFaultHandler cpu inp tf) k := by
  have hself : ok → k.curenv cpu ≠ some c → k.RunsElsewhere cpu c →
      (k.envs c).envStatus = .running := fun _ hne => absurd hc hne
  refine does_ite (fun _ => does_panic) fun _ => does_get_bind ?_
  simp only [hc]
  refine does_ite (fun _ => ?_) fun _ => does_envDestroy (Or.inl hc) hself
  refine does_bind (does_userMemAssert (Or.inl hc) fun _ hne => absurd hc hne) fun _ k₁ hrun _ => ?_
  obtain ⟨a, rfl⟩ := userMemAssert_self hc hrun
  have hinv : MemInv { k.pm with userMemCheckAddr := a } k.roots held :=
    h.congr_tables rfl (fun _ _ => rfl) h.alloc
  refine does_bind (does_pushUtf hinv hc (by simp [utfWords, wordBytes])) fun _ k₂ _ hcpus => ?_
  have hc₂ : k₂.curenv cpu = some c := by rw [Kernel.curenv, hcpus]; exact hc
  refine does_bind (does_modify (.setTf (f := fun t => { t with
    tfEip := (k₂.envs c).envPgfaultUpcall, tfEsp := utfAddr tf.tfEsp }) (Or.inl hc₂)) rfl) ?_
  intro _ k₃ _ hcpus₃
  refine does_envRun ?_
  rw [Kernel.curenv, hcpus₃]
  exact hc₂

theorem does_timer : Does (Act ok cpu) cpu (do timeTick; schedYield cpu) k := by
  refine does_bind ?_ fun _ _ _ _ => does_schedYield
  refine does_bind (does_modify .tick rfl) fun _ _ _ _ => ?_
  exact does_get_bind (does_ite (fun _ => does_panic) fun _ => does_pure)

/-- The call a trap frame asks for. -/
def tfSyscall (cpu : ℕ) (inp : Input) (tf : Trapframe) : KernelM Word :=
  syscall cpu inp tf.tfRegs.regEax tf.tfRegs.regEdx tf.tfRegs.regEcx tf.tfRegs.regEbx
    tf.tfRegs.regEdi tf.tfRegs.regEsi

/-- It acts on no environment that another CPU runs. -/
def TfEnvSafe (cpu : ℕ) (tf : Trapframe) (k : Kernel) : Prop :=
  EnvSafe cpu tf.tfRegs.regEax tf.tfRegs.regEdx tf.tfRegs.regEcx k

/-- It sends pages below `UTOP` only. -/
def TfDstSafe (cpu : ℕ) (tf : Trapframe) (k : Kernel) : Prop :=
  DstSafe cpu tf.tfRegs.regEax tf.tfRegs.regEdx tf.tfRegs.regEbx k

/-- It maps pages only that have room for one more reference. -/
def TfRoomSafe (cpu : ℕ) (tf : Trapframe) (k : Kernel) : Prop :=
  RoomSafe cpu tf.tfRegs.regEax tf.tfRegs.regEdx tf.tfRegs.regEcx tf.tfRegs.regEbx
    tf.tfRegs.regEdi k

/-- **`trap_dispatch` of a trap from user mode is a sequence of acts.** -/
theorem does_trapDispatch (h : MemInv k.pm k.roots held) (hc : k.curenv cpu = some c)
    (henv : ok → tf.tfTrapno = T_SYSCALL → TfEnvSafe cpu tf k)
    (hdst : ok → tf.tfTrapno = T_SYSCALL → TfDstSafe cpu tf k)
    (hroom : ok → tf.tfTrapno = T_SYSCALL → TfRoomSafe cpu tf k ∨
      ∀ w k', tfSyscall cpu inp tf k = .ok w k' → k'.NoOverflow) :
    Does (Act ok cpu) cpu (trapDispatch cpu inp tf (some c)) k := by
  refine does_ite (fun _ => does_pageFaultHandler h hc) fun _ => ?_
  refine does_ite (fun _ => does_monitor) fun _ => does_ite (fun hsys => ?_) fun _ => ?_
  · refine does_bind (does_syscall h (fun hok => henv hok hsys) (fun hok => hdst hok hsys)
      fun hok => hroom hok hsys) fun w k₁ _ hcpus => ?_
    have hc₁ : k₁.curenv cpu = some c := by rw [Kernel.curenv, hcpus]; exact hc
    exact does_modify (.setTf (f := fun t => t.setEax w) (Or.inl hc₁)) rfl
  refine does_ite (fun _ => does_pure) fun _ => does_ite (fun _ => does_timer) fun _ => ?_
  refine does_ite (fun _ => does_pure) fun _ => does_ite (fun _ => does_pure) fun _ => ?_
  refine does_ite (fun _ => does_panic) fun _ => does_get_bind ?_
  simp only [hc]
  exact does_envDestroy (Or.inl hc) fun _ hne => absurd hc hne

theorem does_trapReturn : Does R cpu (trapReturn cpu) k := by
  refine does_get_bind ?_
  cases hc : k.curenv cpu with
  | none => exact does_schedYield
  | some c => exact does_ite (fun _ => does_envRun hc) fun _ => does_schedYield

/-- Saving the registers changes nothing a call depends on. -/
theorem tfSafe_setTf {f : Trapframe → Trapframe} :
    (TfEnvSafe cpu tf k → TfEnvSafe cpu tf (k.setTf c f)) ∧
    (TfDstSafe cpu tf k → TfDstSafe cpu tf (k.setTf c f)) ∧
    (TfRoomSafe cpu tf k → TfRoomSafe cpu tf (k.setTf c f)) := by
  have hsame : ∀ e, ((k.setTf c f).envs e) = { k.envs e with envTf := ((k.setTf c f).envs e).envTf } :=
    fun e => by
      by_cases he : e = c
      · subst he
        simp [Kernel.setTf, Kernel.modifyEnv]
      · simp [Kernel.setTf, Kernel.modifyEnv, he]
  have hstatus : ∀ e, ((k.setTf c f).envs e).envStatus = (k.envs e).envStatus := fun e => by
    rw [hsame e]
  have hid : ∀ e, ((k.setTf c f).envs e).envId = (k.envs e).envId := fun e => by rw [hsame e]
  have hpar : ∀ e, ((k.setTf c f).envs e).envParentId = (k.envs e).envParentId := fun e => by
    rw [hsame e]
  have hdst : ∀ e, ((k.setTf c f).envs e).envIpcDstva = (k.envs e).envIpcDstva := fun e => by
    rw [hsame e]
  have hroots : (k.setTf c f).roots = k.roots := funext fun e => by
    rw [Kernel.roots, hsame e]; rfl
  have hcur : ∀ q, (k.setTf c f).curenv q = k.curenv q := fun _ => rfl
  have hfind : ∀ (w : Word) b, envid2env cpu w b (k.setTf c f) = envid2env cpu w b k := fun w b => by
    simp only [envid2env, hstatus, hid, hpar, hcur]
  have hrecv : ∀ e, (k.setTf c f).Receiving e ↔ k.Receiving e := fun e => by
    rw [Kernel.Receiving, hsame e]; rfl
  have helse : ∀ e, (k.setTf c f).RunsElsewhere cpu e ↔ k.RunsElsewhere cpu e := fun e => Iff.rfl
  have hpm : (k.setTf c f).pm = k.pm := rfl
  have hroom : ∀ e va pg, (k.setTf c f).Room e va pg ↔ k.Room e va pg := fun e va pg => by
    rw [Kernel.Room, hroots]; rfl
  simp only [TfEnvSafe, TfDstSafe, TfRoomSafe, EnvSafe, DstSafe, RoomSafe, hfind, hrecv, hstatus,
    hdst, hroots, hroom, helse, hpm, hcur]
  exact ⟨id, id, id⟩

/-- The end of an environment that was destroyed while it ran. -/
theorem does_dying (hc : k.curenv cpu = some c) :
    Does (Act ok cpu) cpu (do
      envFree cpu c
      modify fun k => k.setCurenv cpu none
      schedYield cpu) k := by
  constructor
  rw [wp_bind]
  cases hfree : envFree cpu c k with
  | error ex k' =>
    exact (wp_of_error hfree).2 fun hex => absurd hex (stays_envFree.not_left hfree)
  | ok u k₁ =>
    refine (wp_of_ok hfree).2 ?_
    rw [wp_bind, wp_modify]
    exact does_then_sched (.single (.exit hc hfree))

/-- **A trap from user mode is a sequence of acts.** -/
theorem does_trapUser (h : MemInv k.pm k.roots held) (hc : k.curenv cpu = some c)
    (henv : ok → tf.tfTrapno = T_SYSCALL → TfEnvSafe cpu tf k)
    (hdst : ok → tf.tfTrapno = T_SYSCALL → TfDstSafe cpu tf k)
    (hroom : ok → (k.envs c).envStatus ≠ .dying → tf.tfTrapno = T_SYSCALL → TfRoomSafe cpu tf k ∨
      ∀ w k', tfSyscall cpu inp tf (k.setTf c fun _ => tf) = .ok w k' → k'.NoOverflow) :
    Does (Act ok cpu) cpu (trapUser cpu inp tf c) k := by
  refine does_get_bind (does_ite (fun _ => does_dying hc) fun hst => ?_)
  have hsave : Act ok cpu k (k.setTf c fun _ => tf) := .setTf (Or.inl hc)
  have hroots : (k.setTf c fun _ => tf).roots = k.roots := Kernel.roots_modifyEnv rfl
  refine does_bind (does_modify hsave rfl) fun _ k₁ hrun _ => ?_
  cases hrun
  refine does_bind (does_trapDispatch (hroots ▸ h) hc ?_ ?_ ?_) fun _ _ _ _ => does_trapReturn
  · exact fun hok hsys => (tfSafe_setTf (f := fun _ => tf)).1 (henv hok hsys)
  · exact fun hok hsys => (tfSafe_setTf (f := fun _ => tf)).2.1 (hdst hok hsys)
  · exact fun hok hsys => (hroom hok hst hsys).imp (tfSafe_setTf (f := fun _ => tf)).2.2 id

end Traps

/-! ## Steps of the machine -/

/-- System calls act on no environment that another CPU runs. -/
def EnvCareful (k : Kernel) : Event → Prop
  | .trap cpu _ tf => tf.tfTrapno = T_SYSCALL → TfEnvSafe cpu tf k
  | _ => True

/-- Pages are sent below `UTOP` only. -/
def DstCareful (k : Kernel) : Event → Prop
  | .trap cpu _ tf => tf.tfTrapno = T_SYSCALL → TfDstSafe cpu tf k
  | _ => True

/-- Pages are mapped only if they have room for one more reference. -/
def RoomCareful (k : Kernel) : Event → Prop
  | .trap cpu _ tf => tf.tfTrapno = T_SYSCALL → TfRoomSafe cpu tf k
  | _ => True

/-- **What user code has to take care of.**  Only system calls matter. -/
structure Careful (k : Kernel) (ev : Event) : Prop where
  env : EnvCareful k ev
  dst : DstCareful k ev
  room : RoomCareful k ev

section Steps

open Relation

variable {k k' : Kernel} {held : Finset ℕ} {ok : Prop}

variable {cpu : ℕ} {c e : EnvIdx}

theorem Does.leaves {x : KernelM Unit} (h : Does R cpu x k) (hl : Leaves x k k') :
    ∃ k₁, ReflTransGen R k k₁ ∧ Resched cpu k₁ k' := by
  rcases hl with hx | hx
  · exact (wp_of_error hx).1 h.spec (Or.inl rfl)
  · exact (wp_of_error hx).1 h.spec (Or.inr rfl)

theorem setCpuStatus_self {s : CpuStatus} (h : (k.cpus cpu).cpuStatus = s) :
    k.setCpuStatus cpu s = k := by
  rw [Kernel.setCpuStatus, ← h, Function.update_eq_self]

/-- User code writes below `UTOP` only. -/
theorem lt_UTOP_of_translates {pm : PhysMem} {roots : EnvIdx → Option ℕ} {r : ℕ}
    (h : TableInv pm roots) (hr : roots c = some r)
    (ht : translates pm r va (PTE_P ||| PTE_W ||| PTE_U) = true) : va < UTOP := by
  by_contra hva
  rw [← pdx_lt_utopDx, not_lt] at hva
  rw [translates, Bool.and_eq_true] at ht
  obtain ⟨hdir, htab⟩ := ht
  by_cases huvpt : pdx va = uvptDx
  · -- the directory maps itself without `PTE_W`
    rw [huvpt, h.uvpt c r hr] at hdir
    have hw := (grants_of_or (grants_of_or hdir).1).2
    rw [grants, BitVec.or_assoc, and_or_right, page2pa_and_flags flagsOnly_PTE_W] at hw
    exact absurd hw (by decide)
  · rw [h.kern_half c r _ hr hva huvpt] at hdir htab
    have hp := present_of_grants (grants_of_or (grants_of_or hdir).1).1
    have hq : target pm roots (.kern (pdx va)) =
        some (pgnum (pm.mem pm.boot.kernPgdir (pdx va))) := by
      rw [target, entry, if_pos ⟨hva, huvpt⟩, presentEntry_of_present hp, Option.map_some]
    rw [h.kern_ro _ _ (ptx va) hq] at htab
    cases htab

/-- A store of user code goes to a page it has mapped writeable. -/
theorem userStore_userWrites {r : ℕ} {b : BitVec 8} (h : MemInv k.pm k.roots held)
    (hr : k.roots c = some r) (ht : translates k.pm r va (PTE_P ||| PTE_W ||| PTE_U) = true) :
    UserWrites k.pm k.roots c (storeByte k.pm r va b).mem := by
  have ht' : translates k.pm r va (PTE_P ||| PTE_W) = true := by
    rw [translates, Bool.and_eq_true] at ht ⊢
    exact ⟨(grants_of_or ht.1).1, (grants_of_or ht.2).1⟩
  exact storeByte_userWrites hr (lt_UTOP_of_translates h.table hr ht) ht'

/-- Nothing that follows the scheduler is reached. -/
theorem leaves_schedYield_bind {f : Unit → KernelM Unit} (h : Leaves (schedYield cpu >>= f) k k') :
    Leaves (schedYield cpu) k k' := by
  cases hy : schedYield cpu k with
  | ok u k₁ => exact (schedYield_ne_ok hy).elim
  | error ex k₁ =>
    rw [Leaves, run_bind_error hy] at h
    rw [Leaves, hy]
    exact h.imp (fun h => by cases h; rfl) fun h => by cases h; rfl

/-- What is dispatched for an interrupt, on a CPU that waits. -/
theorem trapDispatch_irq (hcs : tf.tfCs = GD_KT) (hirq : isIrq tf.tfTrapno) :
    trapDispatch cpu inp tf none = pure () ∨
    trapDispatch cpu inp tf none = (do timeTick; schedYield cpu) ∨
    trapDispatch cpu inp tf none = throw (.panic .unhandledTrap) := by
  obtain ⟨hlo, hhi⟩ := hirq
  have hpf : tf.tfTrapno ≠ T_PGFLT := by rintro h; rw [h] at hlo; exact absurd hlo (by decide)
  have hbr : tf.tfTrapno ≠ T_BRKPT := by rintro h; rw [h] at hlo; exact absurd hlo (by decide)
  have hsys : tf.tfTrapno ≠ T_SYSCALL := by rintro h; rw [h] at hhi; exact absurd hhi (by decide)
  rw [trapDispatch, if_neg hpf, if_neg hbr, if_neg hsys]
  split
  · exact Or.inl rfl
  · split
    · exact Or.inr (Or.inl rfl)
    · split
      · exact Or.inl rfl
      · split
        · exact Or.inl rfl
        · exact Or.inr (Or.inr rfl)

/-- An interrupt on a CPU that waits ends in the scheduler. -/
theorem trap_irq (hc : k.curenv cpu = none) (hcs : tf.tfCs = GD_KT) (hirq : isIrq tf.tfTrapno)
    (hl : Leaves (trap cpu inp tf) k k') :
    ∃ t, Leaves (schedYield cpu) { k.setCpuStatus cpu .started with ticks := t } k' := by
  have hkern : ¬ tf.tfCs &&& 3#16 = 3#16 := by rw [hcs]; decide
  have hcur : (k.setCpuStatus cpu .started).curenv cpu = none := by
    simp only [Kernel.curenv, Kernel.setCpuStatus, Function.update_self]
    exact hc
  simp only [Leaves, trap, run_modify_bind, if_neg hkern] at hl
  have hdispatch := @trapDispatch_irq inp tf cpu hcs hirq
  rcases hdispatch with hd | hd | hd
  · rw [hd, pure_bind, trapReturn] at hl
    simp only [run_get_bind, hcur] at hl
    exact ⟨k.ticks, hl⟩
  · refine ⟨k.ticks + 1#32, ?_⟩
    rw [hd] at hl
    simp only [timeTick, bind_assoc, run_modify_bind, run_get_bind] at hl
    split at hl
    · rcases hl with hl | hl <;> cases hl
    · exact leaves_schedYield_bind hl
  · rw [hd] at hl
    rcases hl with hl | hl <;> cases hl

/-- **What the end of a kernel entry changes**: the status of the environments
the CPU leaves and takes, and how often and where they have run. -/
structure Switches (cpu : ℕ) (k k' : Kernel) : Prop where
  pm : k'.pm = k.pm
  envFreeList : k'.envFreeList = k.envFreeList
  env : ∀ e, k'.envs e = { k.envs e with
    envStatus := (k'.envs e).envStatus
    envRuns := (k'.envs e).envRuns
    envCpunum := (k'.envs e).envCpunum }
  status : ∀ e, (k'.envs e).envStatus = (k.envs e).envStatus ∨
    (k.envs e).envStatus = .running ∧ k.curenv cpu = some e ∧ (k'.envs e).envStatus = .runnable ∨
    ((k.envs e).envStatus = .runnable ∨ k.curenv cpu = some e) ∧ (k'.envs e).envStatus = .running

theorem Switches.roots (h : Switches cpu k k') : k'.roots = k.roots := funext fun e => by
  rw [Kernel.roots, h.env e, Kernel.roots]

/-- `env_run` ends in user mode, in one state. -/
theorem envRun_leaves (hl : Leaves (envRun cpu e) k k') :
    k' = k.switched cpu e ∧ ∃ r, k.roots e = some r := by
  cases hr : k.roots e with
  | none =>
    obtain ⟨k₁, hrun⟩ : ∃ k₁, envRun cpu e k = .error (.panic .paddr) k₁ := envRun_none hr
    rw [Leaves, hrun] at hl
    rcases hl with hl | hl <;> cases hl
  | some r =>
    rw [Leaves, envRun_some hr] at hl
    rcases hl with hl | hl <;> cases hl
    exact ⟨rfl, r, rfl⟩

theorem schedHalt_leaves (hl : Leaves (schedHalt cpu) k k') :
    k' = (k.setCurenv cpu none).setCpuStatus cpu .halted := by
  rw [Leaves, schedHalt, run_get_bind] at hl
  split at hl
  · simp only [run_modify_bind, run_throw] at hl
    rcases hl with hl | hl <;> cases hl
    rfl
  · rcases hl with hl | hl <;> cases hl

theorem switches_envRun (he : (k.envs e).envStatus = .runnable ∨ k.curenv cpu = some e)
    (hl : Leaves (envRun cpu e) k k') : Switches cpu k k' := by
  obtain ⟨rfl, -⟩ := envRun_leaves hl
  have hself : (k.switched cpu e).envs e = { (k.park cpu).envs e with
      envStatus := .running
      envRuns := ((k.park cpu).envs e).envRuns + 1#32
      envCpunum := cpu } := by
    simp [Kernel.switched, Kernel.modifyEnv, Kernel.setCurenv]
  have hother : ∀ {e'}, e' ≠ e → (k.switched cpu e).envs e' = (k.park cpu).envs e' := fun hne => by
    simp [Kernel.switched, Kernel.modifyEnv, Kernel.setCurenv, hne]
  refine ⟨by simp [Kernel.switched, Kernel.modifyEnv, Kernel.setCurenv],
    by simp [Kernel.switched, Kernel.modifyEnv, Kernel.setCurenv], fun e' => ?_, fun e' => ?_⟩
  · by_cases hne : e' = e
    · subst hne
      rw [hself]
      rcases k.park_envs cpu e' with hp | ⟨-, -, hp⟩ <;> rw [hp]
    · rw [hother hne]
      rcases k.park_envs cpu e' with hp | ⟨-, -, hp⟩ <;> rw [hp]
  · by_cases hne : e' = e
    · subst hne
      exact Or.inr (Or.inr ⟨he, by rw [hself]⟩)
    · rw [hother hne]
      rcases k.park_envs cpu e' with hp | ⟨hst, hc, hp⟩ <;> rw [hp]
      · exact Or.inl rfl
      · exact Or.inr (Or.inl ⟨hst, hc, rfl⟩)

/-- Where an environment runs is recorded before it is run. -/
theorem Switches.of_setCpunum (h : Switches cpu (k.setCpunum e cpu) k') : Switches cpu k k' := by
  have hset : ∀ e', (k.setCpunum e cpu).envs e' =
      { k.envs e' with envCpunum := ((k.setCpunum e cpu).envs e').envCpunum } := fun e' => by
    by_cases he : e' = e
    · subst he
      simp [Kernel.setCpunum, Kernel.modifyEnv]
    · simp [Kernel.setCpunum, Kernel.modifyEnv, he]
  refine ⟨h.pm, h.envFreeList, fun e' => ?_, fun e' => ?_⟩
  · have henv := h.env e'
    rw [hset e'] at henv
    exact henv
  · have hst := h.status e'
    rw [hset e'] at hst
    exact hst

theorem switches_schedYield (hl : Leaves (schedYield cpu) k k') : Switches cpu k k' := by
  have hset : ∀ e, ((k.setCpunum e cpu).envs e).envStatus = (k.envs e).envStatus := fun e => by
    simp [Kernel.setCpunum, Kernel.modifyEnv]
  rcases schedYield_cases k cpu with ⟨e, hst, hy⟩ | ⟨e, hc, -, hy⟩ | hy | hy <;> rw [Leaves, hy] at hl
  · exact .of_setCpunum (switches_envRun (Or.inl ((hset e).trans hst)) hl)
  · exact .of_setCpunum (switches_envRun (e := e) (Or.inr hc) hl)
  · obtain rfl := schedHalt_leaves hl
    exact ⟨rfl, rfl, fun _ => rfl, fun _ => Or.inl rfl⟩
  · rcases hl with hl | hl <;> cases hl

theorem Resched.switches (h : Resched cpu k k') : Switches cpu k k' := by
  rcases h with hl | ⟨c, hc, hl⟩
  · exact switches_schedYield hl
  · exact switches_envRun (Or.inr hc) hl

/-- After a system call that returns, the tables stay as they are. -/
theorem trapUser_after_syscall {w : Word} {k₁ : Kernel} (hst : (k.envs c).envStatus ≠ .dying)
    (hsys : tf.tfTrapno = T_SYSCALL)
    (hrun : tfSyscall cpu inp tf (k.setTf c fun _ => tf) = .ok w k₁)
    (hl : Leaves (trapUser cpu inp tf c) k k') : k'.pm = k₁.pm ∧ k'.roots = k₁.roots := by
  have hdispatch : trapDispatch cpu inp tf (some c) (k.setTf c fun _ => tf)
      = .ok () (k₁.setTf c fun t => t.setEax w) := by
    rw [trapDispatch, if_neg (by rw [hsys]; decide), if_neg (by rw [hsys]; decide), if_pos hsys]
    exact run_bind_ok hrun
  have hrest : trapUser cpu inp tf c k = trapReturn cpu (k₁.setTf c fun t => t.setEax w) := by
    rw [trapUser, run_get_bind, if_neg hst, run_modify_bind]
    exact run_bind_ok hdispatch
  rw [Leaves, hrest] at hl
  -- nothing happens between the return of the call and the scheduler
  obtain ⟨k₂, hacts, hsched⟩ := (does_trapReturn (R := fun _ _ => False)).leaves hl
  obtain rfl : k₂ = k₁.setTf c fun t => t.setEax w := by
    rcases hacts.cases_tail with heq | ⟨_, _, hfalse⟩
    · exact heq
    · exact hfalse.elim
  have hroots : (k₁.setTf c fun t => t.setEax w).roots = k₁.roots := Kernel.roots_modifyEnv rfl
  exact ⟨hsched.switches.pm, hsched.switches.roots.trans hroots⟩

/-- **What a step of the machine can do.** -/
theorem step_cases {ev : Event} (h : MemInv k.pm k.roots held) (hs : Step k ev k')
    (henv : ok → EnvCareful k ev) (hdst : ok → DstCareful k ev)
    (hroom : ok → RoomCareful k ev ∨ k'.NoOverflow) :
    (∃ c k₁, k.InUser ev.cpu c ∧ ReflTransGen (Act ok ev.cpu) k k₁ ∧ Resched ev.cpu k₁ k') ∨
    (∃ t, k.curenv ev.cpu = none ∧
      Leaves (schedYield ev.cpu) { k.setCpuStatus ev.cpu .started with ticks := t } k') ∨
    (∃ c m, k.InUser ev.cpu c ∧ UserWrites k.pm k.roots c m ∧
      k' = { k with pm := { k.pm with mem := m } }) := by
  cases hs with
  | @user cpu inp tf c _ hu hcs hl =>
    refine Or.inl ⟨c, ?_⟩
    rw [Leaves, trap] at hl
    simp only [run_modify_bind, setCpuStatus_self hu.1, if_pos hcs, run_get_bind, hu.2] at hl
    have hroom' : ok → (k.envs c).envStatus ≠ .dying → tf.tfTrapno = T_SYSCALL →
        TfRoomSafe cpu tf k ∨
          ∀ w k₁, tfSyscall cpu inp tf (k.setTf c fun _ => tf) = .ok w k₁ → k₁.NoOverflow := by
      intro hok hst hsys
      refine (hroom hok).imp (fun hr => hr hsys) fun hno w k₁ hrun p => ?_
      obtain ⟨hpm, hroots⟩ := trapUser_after_syscall hst hsys hrun hl
      rw [← hpm, ← hroots]
      exact hno p
    obtain ⟨k₁, hr, hk⟩ := (does_trapUser h hu.2 henv hdst hroom').leaves hl
    exact ⟨k₁, hu, hr, hk⟩
  | @irq cpu inp tf _ hh hcs hirq hl =>
    obtain ⟨t, ht⟩ := trap_irq hh.2 hcs hirq hl
    exact Or.inr (Or.inl ⟨t, hh.2, ht⟩)
  | @start cpu _ hi hl =>
    have hk : { k.setCpuStatus cpu .started with ticks := k.ticks } = k := setCpuStatus_self hi.1
    exact Or.inr (Or.inl ⟨k.ticks, hi.2, hk.symm ▸ hl⟩)
  | @store cpu va b c r hu hr ht =>
    exact Or.inr (Or.inr ⟨c, _, hu, userStore_userWrites h hr ht, rfl⟩)

end Steps

end Jos
