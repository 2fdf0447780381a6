import Jos.Kern.Syscall
import Jos.Kern.PmapSpec

/-!
# A failed system call changes nothing

A system call that returns a negative number has failed, and the caller may
rely on everything being as it was.  The statement is about every state, not
only about those the kernel can reach, so it rests on no invariant.

* `Unchanged k k'` — all of the kernel's state is the same, apart from the
  contents of pages on the free list.
* `Kept k r k'` — if `r` is negative, nothing changed.
* one lemma for each system call that can fail, and `syscall_kept` for the
  dispatch.

The one call that touches anything before it fails is `sys_page_alloc`: it
takes a page, clears it, and when there is no memory for a page table puts it
back (`pageAlloc_undo`).
-/

namespace Jos

/-- The state is the same, apart from the contents of free pages. -/
structure Unchanged (k k' : Kernel) : Prop where
  envs : k'.envs = k.envs
  envFreeList : k'.envFreeList = k.envFreeList
  cpus : k'.cpus = k.cpus
  ticks : k'.ticks = k.ticks
  boot : k'.pm.boot = k.pm.boot
  pages : k'.pm.pages = k.pm.pages
  pageFreeList : k'.pm.pageFreeList = k.pm.pageFreeList
  /-- The memory of a free page is where `page2kva` finds it. -/
  mem : ∀ q, (∀ p, OnList (fun p => (k.pm.pages p).ppLink) k.pm.pageFreeList p →
    pgnum (page2pa p) ≠ q) → k'.pm.mem q = k.pm.mem q

theorem Unchanged.refl (k : Kernel) : Unchanged k k :=
  ⟨rfl, rfl, rfl, rfl, rfl, rfl, rfl, fun _ _ => rfl⟩

/-- A negative result means that nothing changed. -/
def Kept (k : Kernel) (r : Word) (k' : Kernel) : Prop := r.toInt < 0 → Unchanged k k'

theorem kept_self (k : Kernel) (r : Word) : Kept k r k := fun _ => .refl k

theorem kept_zero (k k' : Kernel) : Kept k 0#32 k' := fun h => absurd h (by decide)

variable {envid : Word} {x : Errno}

section

variable {k : Kernel} {cpu : ℕ}

variable {α : Type}

/-- What comes first does not matter if the rest does not fail. -/
theorem kept_bind {x : KernelM α} {f : α → KernelM Word}
    (h : ∀ a k', wp (f a) (Kept k) (fun _ _ => True) k') (k' : Kernel) :
    wp (x >>= f) (Kept k) (fun _ _ => True) k' := by
  rw [wp_bind]
  exact wp_of_returns fun a k'' _ => h a k''

/-- A call that ends in success has not failed. -/
theorem kept_of_zero (x : KernelM α) (k' : Kernel) :
    wp (x >>= fun _ => pure 0#32) (Kept k) (fun _ _ => True) k' := by
  refine kept_bind (fun _ k'' => ?_) k'
  exact wp_pure.2 (kept_zero k k'')

/-- The environment a call names is looked up without any effect. -/
theorem kept_withEnv {b : Bool} {f : EnvIdx → KernelM Word}
    (h : ∀ e, wp (f e) (Kept k) (fun _ _ => True) k) :
    wp (withEnv cpu envid b f) (Kept k) (fun _ _ => True) k := by
  rw [withEnv, wp_bind, wp_get]
  cases envid2env cpu envid b k with
  | error r => exact kept_self k _
  | ok e =>
    cases e with
    | none => trivial
    | some e => exact h e

/-- Code that only reads leaves the state for what follows. -/
theorem wp_withPgdir {e : EnvIdx} {x : ℕ → PhysM α} {Q : α → Kernel → Prop}
    (h : ∀ r a pm, x r k.pm = .ok a pm → Q a { k with pm := pm }) :
    wp (withPgdir e fun r => onPm (x r)) Q (fun _ _ => True) k := by
  rw [withPgdir, wp_bind, wp_get]
  cases (k.envs e).envPgdir with
  | none => trivial
  | some r =>
    refine wp_of_returns fun a k' hrun => ?_
    obtain ⟨pm, hx, rfl⟩ := onPm_inv hrun
    exact h r a pm hx

end

/-! ## What the page functions leave behind -/

section Pages

variable {pm pm' : PhysMem} {r pp : ℕ} {va perm : Word}

theorem kaddr_inv {pa : Word} {n : ℕ} (h : kaddr pa pm = .ok n pm') : pm' = pm := by
  rw [kaddr, run_get_bind] at h
  split at h <;> cases h
  rfl

/-- `page_alloc` returns no page only if there is none. -/
theorem pageAlloc_none_inv (h : pageAlloc true pm = .ok none pm') :
    pm' = pm ∧ pm.pageFreeList = none := by
  cases hf : pm.pageFreeList with
  | none =>
    rw [pageAlloc_none hf] at h
    cases h
    exact ⟨rfl, rfl⟩
  | some f =>
    simp only [pageAlloc, run_get_bind, hf, run_modify_bind, if_true] at h
    obtain ⟨n, pm1, -, h⟩ := run_bind_inv h
    cases h

/-- `pgdir_walk` finds nothing only if it had no page to use. -/
theorem pgdirWalk_none (h : pgdirWalk r va true pm = .ok none pm') :
    pm' = pm ∧ pm.pageFreeList = none := by
  rw [pgdirWalk, run_get_bind] at h
  split at h
  · obtain ⟨n, pm1, -, h⟩ := run_bind_inv h
    cases h
  · rw [if_neg (by simp)] at h
    obtain ⟨o, pm1, hal, h⟩ := run_bind_inv h
    cases o with
    | none =>
      cases h
      exact pageAlloc_none_inv hal
    | some p =>
      obtain ⟨-, pm2, -, h⟩ := run_bind_inv h
      obtain ⟨-, pm3, -, h⟩ := run_bind_inv h
      obtain ⟨n, pm4, -, h⟩ := run_bind_inv h
      cases h

/-- `page_insert` fails only for want of a page table, and changes nothing. -/
theorem pageInsert_error (h : pageInsert r pp va perm pm = .ok (.error x) pm') :
    pm' = pm ∧ pm.pageFreeList = none := by
  rw [pageInsert] at h
  obtain ⟨o, pm1, hw, h⟩ := run_bind_inv h
  cases o with
  | none =>
    cases h
    exact pgdirWalk_none hw
  | some pte =>
    simp only [run_get_bind] at h
    split at h
    · cases h
    · obtain ⟨-, pm2, -, h⟩ := run_bind_inv h
      obtain ⟨-, pm3, -, h⟩ := run_bind_inv h
      cases h

/-- Without `create`, `pgdir_walk` only reads. -/
theorem pgdirWalk_reads {o : Option PtePtr} (h : pgdirWalk r va false pm = .ok o pm') :
    pm' = pm := by
  rw [pgdirWalk, run_get_bind] at h
  split at h
  · obtain ⟨n, pm1, hk, h⟩ := run_bind_inv h
    cases h
    exact kaddr_inv hk
  · rw [if_pos (by simp)] at h
    cases h
    rfl

/-- `page_lookup` only reads. -/
theorem pageLookup_reads {o : Option (ℕ × PtePtr)} (h : pageLookup r va pm = .ok o pm') :
    pm' = pm := by
  rw [pageLookup] at h
  obtain ⟨pte, pm1, hw, h⟩ := run_bind_inv h
  obtain rfl := pgdirWalk_reads hw
  cases pte with
  | none => cases h; rfl
  | some pte =>
    simp only [run_get_bind] at h
    split at h
    · cases h; rfl
    · obtain ⟨n, pm2, hp, h⟩ := run_bind_inv h
      cases h
      rw [pa2page, run_get_bind] at hp
      split at hp <;> cases hp
      rfl

/-- `user_mem_check` only reads, but for the address it reports. -/
theorem userMemCheckLoop_reads : ∀ (n : ℕ) {start stop : Word} {res : Except Errno Unit},
    userMemCheckLoop r va perm n start stop pm = .ok res pm' →
      ∃ a, pm' = { pm with userMemCheckAddr := a } := by
  intro n
  induction n with
  | zero =>
    intro start stop res h
    cases h
    exact ⟨pm.userMemCheckAddr, rfl⟩
  | succ n ih =>
    intro start stop res h
    rw [userMemCheckLoop] at h
    split at h
    · obtain ⟨pte, pm1, hw, hrest⟩ := run_bind_inv h
      obtain rfl := pgdirWalk_reads hw
      rw [run_get_bind] at hrest
      split at hrest
      · cases hrest
        exact ⟨_, rfl⟩
      · exact ih hrest
    · cases h
      exact ⟨pm.userMemCheckAddr, rfl⟩

/-- What `page_alloc` returns in any state. -/
theorem pageAlloc_inv {p : ℕ} (h : pageAlloc true pm = .ok (some p) pm') :
    pm.pageFreeList = some p ∧
      pm' = (pm.takeFree p).setPage (pgnum (page2pa p)) fun _ => 0#32 := by
  cases hf : pm.pageFreeList with
  | none => rw [pageAlloc_none hf] at h; cases h
  | some f =>
    simp only [pageAlloc, run_get_bind, hf, run_modify_bind, if_true] at h
    obtain ⟨n, pm1, hk, h⟩ := run_bind_inv h
    cases h
    rw [page2kva, kaddr, run_get_bind] at hk
    split at hk <;> cases hk
    exact ⟨rfl, rfl⟩

/-- **Taking a page and giving it back.**  If the list was empty in between,
it is as before, and so is everything but the page's contents. -/
theorem pageAlloc_undo {p n : ℕ} (hf : pm.pageFreeList = some p)
    (hempty : ((pm.takeFree p).setPage n fun _ => 0#32).pageFreeList = none)
    (h : pageFree p ((pm.takeFree p).setPage n fun _ => 0#32) = .ok () pm') :
    pm'.pages = pm.pages ∧ pm'.pageFreeList = pm.pageFreeList ∧ pm'.boot = pm.boot ∧
      ∀ q, q ≠ n → pm'.mem q = pm.mem q := by
  have hlink : (pm.pages p).ppLink = none := hempty
  rw [pageFree, run_get_bind] at h
  split at h
  · cases h
  · cases h
    refine ⟨?_, hf.symm, rfl, fun q hq => Function.update_of_ne hq _ _⟩
    funext q
    by_cases hq : q = p
    · subst hq
      simp only [PhysMem.setFreeList, PhysMem.setLink, PhysMem.setPage, PhysMem.takeFree,
        Function.update_self, hlink]
      rw [← hlink]
    · exact (Function.update_of_ne hq _ _).trans (Function.update_of_ne hq _ _)

/-- A page is taken, cannot be mapped, and is put back. -/
theorem unchanged_of_undo {k : Kernel} {pm₁ pm₂ pm₃ : PhysMem}
    (halloc : pageAlloc true k.pm = .ok (some pp) pm₁)
    (hins : pageInsert r pp va perm pm₁ = .ok (.error x) pm₂)
    (hfree : pageFree pp pm₂ = .ok () pm₃) : Unchanged k { k with pm := pm₃ } := by
  obtain ⟨rfl, hempty⟩ := pageInsert_error hins
  obtain ⟨hhead, rfl⟩ := pageAlloc_inv halloc
  obtain ⟨h1, h2, h3, h4⟩ := pageAlloc_undo hhead hempty hfree
  refine ⟨rfl, rfl, rfl, rfl, h3, h1, h2, fun q hq => h4 q fun hqn => ?_⟩
  exact hq pp (hhead ▸ .here pp) hqn.symm

end Pages

/-! ## The calls that can fail -/

section Calls

variable {k : Kernel} {cpu : ℕ}

/-- The id of a new environment is positive, so it cannot be taken for an
error. -/
theorem nextEnvId_nonneg (old : Word) (e : EnvIdx) : 0 ≤ (nextEnvId old e).toInt := by
  have hidx : (BitVec.ofNat 32 e.val).msb = false := by
    rw [BitVec.msb_eq_decide, BitVec.toNat_ofNat]
    have := e.isLt
    simp only [decide_eq_false_iff_not]
    omega
  have hgen : ∀ g : Word, (if g.sle 0#32 then 0x1000#32 else g).msb = false := by
    intro g
    split
    · decide
    · next hg =>
        by_contra hm
        rw [Bool.not_eq_false] at hm
        refine hg ?_
        rw [BitVec.sle_eq_decide, decide_eq_true_eq, BitVec.toInt_eq_msb_cond, hm]
        have := g.isLt
        simp only [if_true, BitVec.toInt_zero]
        omega
  rw [BitVec.toInt_eq_msb_cond, nextEnvId, BitVec.msb_or, hgen, hidx]
  simp

/-- `env_alloc` fails before it has changed anything. -/
theorem envAlloc_error {parent : Word} {k' : Kernel} (h : envAlloc parent k = .ok (.error x) k') :
    k' = k := by
  rw [envAlloc, run_get_bind] at h
  cases hf : k.envFreeList with
  | none =>
    simp only [hf] at h
    cases h
    rfl
  | some e =>
    simp only [hf] at h
    obtain ⟨o, k1, hs, h⟩ := run_bind_inv h
    cases o with
    | ok u => cases h
    | error y =>
      cases h
      rw [envSetupVm] at hs
      obtain ⟨p, k2, ha, hs⟩ := run_bind_inv hs
      cases p with
      | none =>
        cases hs
        obtain ⟨pm, hpm, rfl⟩ := onPm_inv ha
        rw [(pageAlloc_none_inv hpm).1]
      | some p =>
        obtain ⟨n, k3, -, hs⟩ := run_bind_inv hs
        obtain ⟨-, k4, -, hs⟩ := run_bind_inv hs
        obtain ⟨-, k5, -, hs⟩ := run_bind_inv hs
        obtain ⟨-, k6, -, hs⟩ := run_bind_inv hs
        cases hs

theorem sysExofork_kept : wp (sysExofork cpu) (Kept k) (fun _ _ => True) k := by
  refine wp_of_returns fun r k' h hneg => ?_
  rw [sysExofork, run_get_bind] at h
  cases hc : k.curenv cpu with
  | none => simp only [hc] at h; cases h
  | some c =>
    simp only [hc] at h
    obtain ⟨o, k1, ha, h⟩ := run_bind_inv h
    cases o with
    | error x =>
      cases h
      rw [envAlloc_error ha]
      exact .refl k
    | ok e =>
      -- a success returns a positive id
      cases h
      exfalso
      rw [envAlloc, run_get_bind] at ha
      cases hf : k.envFreeList with
      | none => simp only [hf] at ha; cases ha
      | some e' =>
        simp only [hf] at ha
        obtain ⟨o, k2, -, ha⟩ := run_bind_inv ha
        cases o with
        | error y => cases ha
        | ok u =>
          cases ha
          simp only [Kernel.modifyEnv, Function.update_self] at hneg
          exact absurd hneg (not_lt.2 (nextEnvId_nonneg _ _))

theorem sysEnvSetStatus_kept {status : Word} :
    wp (sysEnvSetStatus cpu envid status) (Kept k) (fun _ _ => True) k := by
  refine kept_withEnv fun e => ?_
  rw [wp_ite, wp_ite]
  exact ⟨fun _ => kept_of_zero _ k, fun _ => ⟨fun _ => kept_of_zero _ k, fun _ => kept_self k _⟩⟩

variable {va perm : Word} {inp : Input}

/-- `sys_page_alloc`: the page it took is back at the head of the list. -/
theorem sysPageAlloc_kept : wp (sysPageAlloc cpu envid va perm) (Kept k) (fun _ _ => True) k := by
  refine kept_withEnv fun e => ?_
  rw [wp_ite, wp_ite]
  refine ⟨fun _ => kept_self k _, fun _ => ⟨fun _ => kept_self k _, fun _ => ?_⟩⟩
  refine wp_of_returns fun w k' h hneg => ?_
  obtain ⟨o, pm1, hpm1, h⟩ := onPm_bind_inv h
  cases o with
  | none =>
    cases h
    rw [(pageAlloc_none_inv hpm1).1]
    exact .refl k
  | some pg =>
    obtain ⟨o, k2, hins, h⟩ := run_bind_inv h
    cases o with
    | ok u =>
      cases h
      exact absurd hneg (by decide)
    | error x =>
      change (onPm (pageFree pg) >>= fun _ => pure Errno.noMem.ret) k2 = _ at h
      obtain ⟨u, k3, hfree, h⟩ := run_bind_inv h
      cases h
      obtain ⟨pm3, hpm3, rfl⟩ := onPm_inv hfree
      obtain ⟨r, pm2, -, hpm2, rfl⟩ := withPgdir_inv hins
      exact unchanged_of_undo hpm1 hpm2 hpm3

/-- An insertion, and what a call does with its result. -/
theorem kept_insert {e : EnvIdx} {pg : ℕ} {f : Except Errno Unit → KernelM Word}
    (hok : ∀ k', wp (f (.ok ())) (Kept k) (fun _ _ => True) k')
    (herr : ∀ x, wp (f (.error x)) (Kept k) (fun _ _ => True) k) :
    wp (withPgdir e (fun r => onPm (pageInsert r pg va perm)) >>= f) (Kept k)
      (fun _ _ => True) k := by
  rw [wp_bind]
  refine wp_withPgdir fun r o pm h => ?_
  cases o with
  | ok u => exact hok _
  | error x =>
    obtain ⟨rfl, -⟩ := pageInsert_error h
    exact herr x

theorem sysPageMap_kept {srcenvid srcva dstenvid dstva : Word} :
    wp (sysPageMap cpu srcenvid srcva dstenvid dstva perm) (Kept k) (fun _ _ => True) k := by
  refine kept_withEnv fun se => kept_withEnv fun de => ?_
  rw [wp_ite, wp_ite]
  refine ⟨fun _ => kept_self k _, fun _ => ⟨fun _ => kept_self k _, fun _ => ?_⟩⟩
  rw [wp_bind]
  refine wp_withPgdir fun r o pm h => ?_
  obtain rfl := pageLookup_reads h
  cases o with
  | none => exact kept_self k _
  | some x =>
    obtain ⟨pg, entry⟩ := x
    simp only [wp_bind, wp_get]
    rw [wp_ite]
    refine ⟨fun _ => kept_self k _, fun _ => ?_⟩
    exact kept_insert (fun k' => kept_zero k k') fun x => kept_self k _

theorem sysIpcTrySend_kept {value srcva : Word} :
    wp (sysIpcTrySend cpu envid value srcva perm) (Kept k) (fun _ _ => True) k := by
  have hdel : ∀ c dste k', wp (ipcDeliver c dste value) (Kept k) (fun _ _ => True) k' :=
    fun c dste k' => kept_of_zero _ k'
  refine kept_withEnv fun dste => ?_
  rw [wp_bind, wp_get]
  cases hc : k.curenv cpu with
  | none => trivial
  | some c =>
    simp only
    rw [wp_ite, wp_ite, wp_ite]
    refine ⟨fun _ => kept_self k _, fun _ => ⟨fun _ => ⟨fun _ => kept_self k _, fun _ => ?_⟩,
      fun _ => hdel c dste k⟩⟩
    rw [wp_bind]
    refine wp_withPgdir fun r o pm h => ?_
    obtain rfl := pageLookup_reads h
    cases o with
    | none => exact kept_self k _
    | some x =>
      obtain ⟨pg, pte⟩ := x
      simp only [wp_bind, wp_get]
      rw [wp_ite, wp_ite]
      refine ⟨fun _ => kept_self k _, fun _ => ⟨fun _ => ?_, fun _ => hdel c dste k⟩⟩
      exact kept_insert (fun k' => hdel c dste _) fun x => kept_self k _

theorem sysCputs_kept {str len : Word} :
    wp (sysCputs cpu inp str len) (Kept k) (fun _ _ => True) k := by
  rw [sysCputs, wp_bind, wp_get]
  cases k.curenv cpu with
  | none => trivial
  | some c =>
    refine kept_bind (fun _ k' => ?_) k
    rw [wp_bind, wp_get, wp_ite]
    exact ⟨fun _ => trivial, fun _ => kept_zero k k'⟩

theorem sysEnvSetTrapframe_kept {tf : Word} :
    wp (sysEnvSetTrapframe cpu inp envid tf) (Kept k) (fun _ _ => True) k := by
  refine kept_withEnv fun e => kept_bind (fun _ k' => ?_) k
  rw [wp_bind, wp_get, wp_ite]
  exact ⟨fun _ => trivial, fun _ => kept_of_zero _ k'⟩

theorem sysPageUnmap_kept : wp (sysPageUnmap cpu envid va) (Kept k) (fun _ _ => True) k := by
  refine kept_withEnv fun e => ?_
  rw [wp_ite]
  exact ⟨fun _ => kept_self k _, fun _ => kept_of_zero _ k⟩

theorem sysIpcRecv_kept {dstva : Word} :
    wp (sysIpcRecv cpu dstva) (Kept k) (fun _ _ => True) k := by
  rw [sysIpcRecv, wp_bind, wp_get]
  cases k.curenv cpu with
  | none => trivial
  | some c =>
    simp only
    rw [wp_ite]
    refine ⟨fun _ => kept_self k _, fun _ => kept_bind (fun _ k' => ?_) k⟩
    exact kept_of_zero _ k'

theorem sysGetenvid_kept : wp (sysGetenvid cpu) (Kept k) (fun _ _ => True) k := by
  rw [sysGetenvid, wp_bind, wp_get]
  cases k.curenv cpu with
  | none => trivial
  | some c => exact kept_self k _

/-- No system call fails with an effect. -/
theorem syscall_kept {no a1 a2 a3 a4 a5 : Word} :
    wp (syscall cpu inp no a1 a2 a3 a4 a5) (Kept k) (fun _ _ => True) k := by
  rw [syscall]
  split
  · exact sysCputs_kept
  · exact kept_self k _
  · exact sysGetenvid_kept
  · exact kept_withEnv fun e => kept_of_zero _ k
  · exact kept_of_zero _ k
  · exact sysExofork_kept
  · exact sysEnvSetStatus_kept
  · exact sysPageAlloc_kept
  · exact sysPageMap_kept
  · exact sysPageUnmap_kept
  · exact kept_withEnv fun e => kept_of_zero _ k
  · exact sysIpcTrySend_kept
  · exact sysIpcRecv_kept
  · exact sysEnvSetTrapframe_kept
  · exact kept_self k _
  · exact kept_self k _

end Calls

/-- **A failed system call changes nothing.**  For every state, caller, call
number and arguments: if the result is negative, the environments, the page
tables, the reference counts and both free lists are as before. -/
theorem failed_syscall_unchanged {k k' : Kernel} {cpu : ℕ} {inp : Input}
    {no a1 a2 a3 a4 a5 r : Word}
    (hrun : syscall cpu inp no a1 a2 a3 a4 a5 k = .ok r k') (hneg : r.toInt < 0) :
    Unchanged k k' :=
  (wp_of_ok hrun).1 syscall_kept hneg

/-- A kernel with one environment, in slot 0, and one free page, number 2. -/
def lastPageKernel : Kernel where
  pm :=
    { boot := ⟨3, 3, 0, 0⟩
      pages := fun _ => ⟨none, 0#16⟩
      pageFreeList := some 2
      mem := fun _ _ => 0#32
      userMemCheckAddr := 0#32 }
  envs := fun e =>
    { envTf := .zero
      envLink := none
      envId := 0x1000#32
      envParentId := 0#32
      envType := .user
      envStatus := if e.val = 0 then .running else .free
      envRuns := 1#32
      envCpunum := 0
      envPgdir := if e.val = 0 then some 1 else none
      envPgfaultUpcall := 0#32
      envIpcRecving := false
      envIpcDstva := 0#32
      envIpcValue := 0#32
      envIpcFrom := 0#32
      envIpcPerm := 0#32 }
  envFreeList := none
  cpus := fun _ => ⟨.started, some 0⟩
  ticks := 0#32

/-- `sys_page_alloc` takes the last page, has none left for a page table, and
puts it back. -/
theorem failed_syscall_unchanged_lastPage :
    ∃ k', syscall 0 ⟨0#32, .zero, 0, 0#32⟩ 4#32 0#32 0x1000#32 5#32 0#32 0#32 lastPageKernel
        = .ok Errno.noMem.ret k' ∧ Unchanged lastPageKernel k' := by
  refine ⟨_, rfl, failed_syscall_unchanged (show syscall 0 ⟨0#32, .zero, 0, 0#32⟩ 4#32 0#32
    0x1000#32 5#32 0#32 0#32 lastPageKernel = .ok Errno.noMem.ret _ from rfl) (by decide)⟩

end Jos
