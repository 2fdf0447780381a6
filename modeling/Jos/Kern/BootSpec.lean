import Jos.Kern.BootMem
import Jos.Kern.KernelInv

/-!
# A freshly booted kernel

`Booted.spec` shows that boot establishes the invariant of the kernel, for
every amount of memory, every set of devices and all programs: whatever cannot
be set up makes `i386_init` panic, with one exception.  `region_alloc` ignores
the result of `page_insert`, so the page it has just taken may be lost; such
pages are the `held` ones of the invariant.

`plainConfig_boots` shows that boot succeeds on a machine of ordinary size, and
says what the result looks like: three runnable environments in the first three
slots, and all other slots free.
-/

namespace Jos

open Function (update update_idem update_of_ne update_self)

/-! ## `boot_alloc` -/

theorem le_pageRound (a : ℕ) : a ≤ pageRound a := by
  rw [pageRound, PGSIZE]
  omega

variable {n p : ℕ} {cfg : BootConfig} {b : BootInfo} {k k' : Kernel} {e : EnvIdx} {pm pm' : PhysMem}
    {held : Finset ℕ} {u : Unit} {binary : Elf} {f : Trapframe → Trapframe} {type : EnvType}
    {own : Option ℕ}

theorem bootAlloc_le {npages nextfree r : ℕ} (h : bootAlloc npages nextfree n = .ok r) :
    nextfree + n ≤ r := by
  rw [bootAlloc] at h
  split at h
  · cases h
    omega
  · split at h
    · cases h
    · cases h
      exact le_pageRound _

theorem page_lt_page {a c : ℕ} (h : a + PGSIZE ≤ c) : a / PGSIZE < c / PGSIZE := by
  rw [PGSIZE] at *
  omega

theorem except_bind_ok {ε α β : Type} {x : Except ε α} {f : α → Except ε β} {b : β}
    (h : (x >>= f) = .ok b) : ∃ a, x = .ok a ∧ f a = .ok b := by
  cases x with
  | error e => cases h
  | ok a => exact ⟨a, rfl, h⟩

/-- `kern_pgdir` lies in the memory `boot_alloc` has taken. -/
theorem bootInfo_spec (h : cfg.bootInfo = .ok b) :
    b.npages = cfg.npages ∧ b.npagesBasemem = cfg.npagesBasemem ∧
      b.kernPgdir = cfg.kernPgdirPa / PGSIZE ∧ b.kernPgdir < b.kernelEndPage := by
  obtain ⟨pages, h₁, h⟩ := except_bind_ok h
  obtain ⟨envs, h₂, h⟩ := except_bind_ok h
  obtain ⟨nextfree, h₃, h⟩ := except_bind_ok h
  obtain rfl := Except.ok.inj h
  have hle : pages ≤ nextfree :=
    (Nat.le_of_add_right_le (bootAlloc_le h₂)).trans (Nat.le_of_add_right_le (bootAlloc_le h₃))
  exact ⟨rfl, rfl, rfl, page_lt_page ((bootAlloc_le h₁).trans hle)⟩

theorem kernPgdir_not_avail (h : cfg.bootInfo = .ok b) : ¬ b.Avail b.kernPgdir := by
  obtain ⟨-, hbase, hdir, hlt⟩ := bootInfo_spec h
  refine fun hav => hav.2 (Or.inr (Or.inl ⟨?_, hlt⟩))
  have hpa : 0x100000 ≤ cfg.kernPgdirPa := cfg.kernEnd_ge.trans (le_pageRound _)
  have hle := cfg.basemem_le
  rw [hbase, hdir, PGSIZE]
  omega

/-! ## `env_init` -/

/-- The record `env_init` leaves in slot `e`. -/
def freshEnv (e : EnvIdx) : Env :=
  { Env.zero with envLink := if h : e.val + 1 < 1024 then some ⟨e.val + 1, h⟩ else none }

/-- `env_init` has dealt with the slots from `n` on. -/
structure EnvsInit (n : ℕ) (k k' : Kernel) : Prop where
  pm : k'.pm = k.pm
  cpus : k'.cpus = k.cpus
  ticks : k'.ticks = k.ticks
  envs : ∀ e, k'.envs e = if n ≤ e.val then freshEnv e else Env.zero
  free : k'.envFreeList = if h : n < 1024 then some ⟨n, h⟩ else none

theorem initEnv_spec {k₁ : Kernel} (h : EnvsInit (e.val + 1) k k₁) :
    EnvsInit e.val k
      { k₁.modifyEnv e fun env =>
          { env with envId := 0#32, envStatus := .free, envLink := k₁.envFreeList } with
        envFreeList := some e } := by
  refine ⟨h.pm, h.cpus, h.ticks, fun e' => ?_, by rw [dif_pos e.isLt]⟩
  by_cases he : e' = e
  · subst he
    have hlast : ¬ e'.val + 1 ≤ e'.val := by omega
    rw [if_pos le_rfl, Kernel.modifyEnv]
    simp only [update_self, h.envs e', if_neg hlast, h.free]
    rfl
  · rw [Kernel.modifyEnv]
    simp only [update_of_ne he, h.envs e']
    have hne : e'.val ≠ e.val := fun heq => he (Fin.ext heq)
    have hiff : e.val + 1 ≤ e'.val ↔ e.val ≤ e'.val := by omega
    simp only [hiff]

/-- The loop, from slot `n - 1` down. -/
theorem initEnvs_spec (n : ℕ) : ∀ {k₁ : Kernel}, n ≤ 1024 → EnvsInit n k k₁ →
    ∃ k', (((List.finRange 1024).take n).reverse.forM fun e => do
        modify fun k => k.modifyEnv e fun env =>
          { env with envId := 0#32, envStatus := .free, envLink := k.envFreeList }
        modify fun k => { k with envFreeList := some e } : KernelM Unit) k₁ = .ok () k' ∧
      EnvsInit 0 k k' := by
  induction n with
  | zero => exact fun {k₁} _ h => ⟨k₁, rfl, h⟩
  | succ n ih =>
    intro k₁ hn h
    have htake : (List.finRange 1024).take (n + 1)
        = (List.finRange 1024).take n ++ [(⟨n, hn⟩ : EnvIdx)] := by
      have hget : (List.finRange 1024)[n]? = some (⟨n, hn⟩ : EnvIdx) := by
        rw [List.getElem?_eq_some_iff]
        exact ⟨by simpa using hn, by simp⟩
      rw [List.take_add_one, hget]
      rfl
    obtain ⟨k', hrun, h'⟩ := ih (by omega) (initEnv_spec (e := ⟨n, hn⟩) h)
    refine ⟨k', ?_, h'⟩
    rw [htake, List.reverse_append]
    exact hrun

/-- **`env_init`** on cleared records. -/
theorem envInit_spec (h : ∀ e, k.envs e = Env.zero) :
    ∃ k', envInit k = .ok () k' ∧ EnvsInit 0 k k' := by
  have h0 : EnvsInit 1024 k { k with envFreeList := none } :=
    ⟨rfl, rfl, rfl, fun e => by rw [if_neg (by omega)]; exact h e, rfl⟩
  obtain ⟨k', hrun, h'⟩ := initEnvs_spec 1024 le_rfl h0
  refine ⟨k', ?_, h'⟩
  rw [List.take_of_length_le (by simp)] at hrun
  rw [envInit, run_modify_bind]
  exact hrun

/-- The free list of environments after `env_init`, from slot `m` on. -/
theorem EnvsInit.chain (h : EnvsInit 0 k k') (n : ℕ) : ∀ m : ℕ, m + n = 1024 →
    ∃ l, Chain (fun e => (k'.envs e).envLink)
        (if h : m < 1024 then some (⟨m, h⟩ : EnvIdx) else none) l ∧
      l.Nodup ∧ ∀ e : EnvIdx, e ∈ l ↔ m ≤ e.val := by
  induction n with
  | zero =>
    rintro m rfl
    exact ⟨[], Chain.nil_iff.2 rfl, List.nodup_nil, fun e => by simp⟩
  | succ n ih =>
    intro m hm
    have hlt : m < 1024 := by omega
    obtain ⟨l, hc, hnd, hmem⟩ := ih (m + 1) (by omega)
    have hnot : (⟨m, hlt⟩ : EnvIdx) ∉ l := fun hin => absurd ((hmem _).1 hin) (by simp)
    refine ⟨⟨m, hlt⟩ :: l, ?_, List.nodup_cons.2 ⟨hnot, hnd⟩, fun e => ?_⟩
    · rw [Chain.cons_iff, dif_pos hlt]
      refine ⟨rfl, ?_⟩
      rw [h.envs, if_pos (Nat.zero_le _)]
      exact hc
    · rw [List.mem_cons, hmem, Fin.ext_iff]
      dsimp only
      omega

theorem EnvsInit.roots (h : EnvsInit 0 k k') : k'.roots = noRoots := by
  funext e
  rw [Kernel.roots, h.envs, if_pos (Nat.zero_le _)]
  rfl

theorem EnvsInit.status (h : EnvsInit 0 k k') (e : EnvIdx) : (k'.envs e).envStatus = .free := by
  rw [h.envs, if_pos (Nat.zero_le _)]
  rfl

/-- The invariant holds once memory and the environments are set up. -/
theorem EnvsInit.kernelInv (h : EnvsInit 0 k k') (hm : MemInv k'.pm noRoots ∅)
    (hcur : ∀ q, k'.curenv q = none) : KernelInv ∅ none k' := by
  obtain ⟨l, hc, hnd, hmem⟩ := h.chain 1024 0 rfl
  refine ⟨h.roots ▸ hm, fun e => ?_, ⟨l, h.free ▸ hc, hnd, fun e => ?_⟩, fun q e hc => ?_,
    fun q q' e hc => ?_, fun q e _ hc => ?_⟩
  · rw [h.status, h.roots]
    exact ⟨fun _ => rfl, fun _ => rfl⟩
  · exact ⟨fun _ => h.status e, fun _ => (hmem e).2 (Nat.zero_le _)⟩
  all_goals
    rw [hcur] at hc
    cases hc

/-! ## `boot_aps` -/

/-- The CPUs in `aps` have come up. -/
def Kernel.startAps (k : Kernel) (aps : List ℕ) : Kernel :=
  { k with cpus := fun q => if q ∈ aps then { k.cpus q with cpuStatus := .started } else k.cpus q }

theorem startAps_spec (aps : List ℕ) : ∀ k : Kernel,
    (aps.forM fun cpu => modify fun k => k.setCpuStatus cpu .started : KernelM Unit) k
      = .ok () (k.startAps aps) := by
  induction aps with
  | nil => exact fun k => rfl
  | cons cpu aps ih =>
    intro k
    have hcpus : ((k.setCpuStatus cpu .started).startAps aps).cpus
        = (k.startAps (cpu :: aps)).cpus := by
      funext q
      by_cases hq : q = cpu
      · subst hq
        simp [Kernel.startAps, Kernel.setCpuStatus]
      · simp [Kernel.startAps, Kernel.setCpuStatus, hq]
    have hk : (k.setCpuStatus cpu .started).startAps aps = k.startAps (cpu :: aps) := by
      rw [Kernel.startAps, Kernel.startAps, Kernel.mk.injEq]
      exact ⟨rfl, rfl, rfl, hcpus, rfl⟩
    rw [← hk]
    exact ih (k.setCpuStatus cpu .started)

/-- The page of the entry code is not part of any table. -/
theorem not_isTablePage_mpentry {roots : EnvIdx → Option ℕ} (h : MemInv pm roots held)
    (hk : pm.boot.kernPgdir ≠ 7) : ¬ IsTablePage pm roots 7 := by
  rintro (heq | ⟨s, -, hs⟩)
  · exact hk heq.symm
  · exact (h.avail_of_target hs).2 (Or.inr (Or.inr rfl))

/-- **`boot_aps`**. -/
theorem bootAps_inv (h : bootAps cfg k = .ok u k') :
    k' = ({ k with pm := k.pm.setPage 7 cfg.mpentry }.startAps cfg.aps) := by
  obtain ⟨code, pm₁, hpm, h⟩ := onPm_bind_inv h
  have hpg : pgnum (BitVec.ofNat 32 MPENTRY_PADDR) = 7 := by decide
  rw [kaddr, run_get_bind] at hpm
  split at hpm
  · cases hpm
  · rw [hpg] at hpm
    cases hpm
    obtain ⟨_, k₂, h₂, h⟩ := run_bind_inv h
    cases h₂
    rw [startAps_spec] at h
    cases h
    rfl

theorem bootAps_ok (cfg : BootConfig) (h : 7 < k.pm.boot.npages) :
    bootAps cfg k = .ok () ({ k with pm := k.pm.setPage 7 cfg.mpentry }.startAps cfg.aps) := by
  have hpg : pgnum (BitVec.ofNat 32 MPENTRY_PADDR) = 7 := by decide
  have hk : kaddr (BitVec.ofNat 32 MPENTRY_PADDR) k.pm = .ok 7 k.pm := by
    rw [kaddr_eq (by rw [hpg]; exact h), hpg]
  rw [bootAps, run_bind_ok (onPm_ok hk)]
  exact startAps_spec _ _

/-! ## `env_create` -/

section Load

variable {pm pm' : PhysMem} {roots : EnvIdx → Option ℕ} {held : Finset ℕ} {e : EnvIdx} {r : ℕ}
  {u : Unit}

/-- The pages that are mapped below `UTOP`, and those that are lost, are the
only ones that change hands. -/
def Loads (pm pm' : PhysMem) (roots : EnvIdx → Option ℕ) : Prop :=
  pm'.boot = pm.boot ∧ ∃ held', MemInv pm' roots held'

theorem Loads.refl (h : MemInv pm roots held) : Loads pm pm roots := ⟨rfl, held, h⟩

/-- The loop of `region_alloc`.  A page that cannot be mapped is lost. -/
theorem regionAllocLoop_inv (hr : roots e = some r) (n : ℕ) :
    ∀ {start stop : Word} {pm : PhysMem} {held : Finset ℕ}, MemInv pm roots held →
      stop.toNat ≤ UTOP.toNat → regionAllocLoop r n start stop pm = .ok u pm' →
      Loads pm pm' roots := by
  induction n with
  | zero =>
    intro start stop pm held h _ hrun
    cases hrun
    exact .refl h
  | succ n ih =>
    intro start stop pm held h hstop hrun
    rw [regionAllocLoop] at hrun
    split at hrun
    · next hlt =>
        obtain ⟨o, pm₁, halloc, hrun⟩ := run_bind_inv hrun
        cases o with
        | none => cases hrun
        | some pg =>
          obtain ⟨res, pm₂, hins, hrun⟩ := run_bind_inv hrun
          have hva : start < UTOP := by
            rw [BitVec.lt_def] at hlt ⊢
            omega
          obtain ⟨h₁, hown, href, hnew⟩ := h.pageAlloc_inv halloc
          have hb₁ : pm₁.boot = pm.boot := (keepsBoot_pageAlloc _).keeps halloc
          have hstep : Loads pm pm₂ roots := by
            rcases h₁.pageInsert_spec hr (pdx_lt_utopDx.2 hva) hown
              (by decide : FlagsOnly (PTE_W ||| PTE_U)) with
              ⟨hno, -⟩ | ⟨pm₃, w, hok, -, hb₃, -, hinv⟩
            · rw [hno] at hins
              cases hins
              exact ⟨hb₁, _, h₁⟩
            · rw [hok] at hins
              cases hins
              exact ⟨hb₃.trans hb₁, _, hinv (Or.inl (by rw [href]; decide))⟩
          obtain ⟨hb₂, held₂, h₂⟩ := hstep
          obtain ⟨hb', held', h'⟩ := ih h₂ hstop hrun
          exact ⟨hb'.trans hb₂, held', h'⟩
    · cases hrun
      exact .refl h

/-- Programs lie below `UTOP`. -/
theorem loadSegment_inv {bytes : ℕ → BitVec 8} {ph : Proghdr} (h : MemInv pm roots held)
    (hr : roots e = some r)
    (hph : ph.pType = ELF_PROG_LOAD → ph.pVa.toNat + ph.pMemsz.toNat ≤ UTOP.toNat)
    (hrun : loadSegment r bytes ph pm = .ok u pm') : Loads pm pm' roots := by
  rw [loadSegment] at hrun
  split at hrun
  swap
  · cases hrun
    exact .refl h
  next hload =>
  split at hrun
  · cases hrun
  next hsize =>
  have hbelow := hph hload
  rw [BitVec.lt_def] at hsize
  rw [UTOP_toNat] at hbelow
  -- an address of the segment
  have hva : ∀ i < ph.pMemsz.toNat, ph.pVa + BitVec.ofNat 32 i < UTOP := fun i hi => by
    rw [BitVec.lt_def, BitVec.toNat_add, BitVec.toNat_ofNat, UTOP_toNat]
    omega
  obtain ⟨_, pm₁, hregion, hrun⟩ := run_bind_inv hrun
  obtain ⟨_, pm₂, hzero, hcopy⟩ := run_bind_inv hrun
  have hend : (roundUp (ph.pVa + ph.pMemsz)).toNat ≤ UTOP.toNat := by
    rw [roundUp_toNat, BitVec.toNat_add, UTOP_toNat]
    omega
  obtain ⟨hb₁, held₁, h₁⟩ := regionAllocLoop_inv hr _ h hend hregion
  obtain ⟨m₂, rfl, hw₂⟩ := storeUser_userWrites h₁ hr (by simpa using hva) hzero
  obtain ⟨m₃, rfl, hw₃⟩ := storeUser_userWrites (hw₂.inv h₁) hr
    (fun i hi => hva i (by simp at hi; omega)) hcopy
  exact ⟨hb₁, held₁, hw₃.inv (hw₂.inv h₁)⟩

theorem loadSegments_inv {bytes : ℕ → BitVec 8} (hr : roots e = some r) (l : List Proghdr) :
    ∀ {pm : PhysMem} {held : Finset ℕ}, MemInv pm roots held →
      (∀ ph ∈ l, ph.pType = ELF_PROG_LOAD → ph.pVa.toNat + ph.pMemsz.toNat ≤ UTOP.toNat) →
      l.forM (loadSegment r bytes) pm = .ok u pm' → Loads pm pm' roots := by
  induction l with
  | nil =>
    intro pm held h _ hrun
    cases hrun
    exact .refl h
  | cons ph l ih =>
    intro pm held h hph hrun
    obtain ⟨_, pm₁, h₁, hrun⟩ := run_bind_inv hrun
    obtain ⟨hb₁, held₁, hm₁⟩ := loadSegment_inv h hr (hph ph (List.mem_cons_self ..)) h₁
    obtain ⟨hb, hm⟩ := ih hm₁ (fun ph' hph' => hph ph' (List.mem_cons_of_mem _ hph')) hrun
    exact ⟨hb.trans hb₁, hm⟩

theorem loadPages_inv (h : MemInv pm roots held) (hr : roots e = some r)
    (hrun : loadPages r binary pm = .ok u pm') : Loads pm pm' roots := by
  obtain ⟨_, pm₁, hsegs, hstack⟩ := run_bind_inv hrun
  obtain ⟨hb₁, held₁, h₁⟩ := loadSegments_inv hr _ h binary.below hsegs
  obtain ⟨hb, hm⟩ := regionAllocLoop_inv hr _ h₁ (by decide) hstack
  exact ⟨hb.trans hb₁, hm⟩

end Load

/-- What `env_create` does besides filling memory. -/
structure Created (k k' : Kernel) (e : EnvIdx) : Prop where
  head : k.envFreeList = some e
  next : k'.envFreeList = (k.envs e).envLink
  cpus : k'.cpus = k.cpus
  boot : k'.pm.boot = k.pm.boot
  other : ∀ e', e' ≠ e → k'.envs e' = k.envs e'
  status : (k'.envs e).envStatus = .runnable
  envId : (k'.envs e).envId = nextEnvId (k.envs e).envId e
  parent : (k'.envs e).envParentId = 0#32
  recving : (k'.envs e).envIpcRecving = false

/-- The state after `env_create` has taken slot `e` and filled memory. -/
def Kernel.created (k : Kernel) (e : EnvIdx) (p : ℕ) (pm : PhysMem) (f : Trapframe → Trapframe)
    (type : EnvType) : Kernel :=
  (k.allocated e p pm 0#32).modifyEnv e fun env => { env with envTf := f env.envTf, envType := type }

theorem created_spec (hf : k.envFreeList = some e) (hb : pm.boot = k.pm.boot) :
    Created k (k.created e p pm f type) e := by
  refine ⟨hf, rfl, rfl, hb, fun e' he => ?_, ?_, ?_, ?_, ?_⟩ <;>
    simp [Kernel.created, Kernel.allocated, Kernel.modifyEnv, *]

/-- The saved registers `env_create` leaves. -/
def createdTf (binary : Elf) (type : EnvType) (tf : Trapframe) : Trapframe :=
  let tf := { tf with tfEip := binary.eEntry }
  if type = .fs then { tf with tfEflags := tf.tfEflags ||| FL_IOPL_MASK } else tf

/-- `load_icode`, when it returns, has set the entry point and filled memory. -/
theorem loadIcode_inv (hr : k.roots e = some p) (hrun : loadIcode e binary k = .ok u k') :
    ∃ pm', loadPages p binary k.pm = .ok () pm' ∧
      k' = { k.modifyEnv e fun env =>
        { env with envTf := { env.envTf with tfEip := binary.eEntry } } with pm := pm' } := by
  rw [loadIcode] at hrun
  split at hrun
  · cases hrun
  split at hrun
  · cases hrun
  rw [run_modify_bind] at hrun
  set k₁ := k.modifyEnv e fun env =>
    { env with envTf := { env.envTf with tfEip := binary.eEntry } } with hk₁
  have hr₁ : k₁.roots e = some p := by
    simpa [hk₁, Kernel.roots, Kernel.modifyEnv] using hr
  rw [withPgdir_some hr₁] at hrun
  exact onPm_inv hrun

/-- **`env_create`** takes the first free slot, and keeps the invariant. -/
theorem envCreate_inv (h : KernelInv held own k) (hrun : envCreate binary type k = .ok u k') :
    ∃ e p pm held', k' = k.created e p pm (createdTf binary type) type ∧
      Created k k' e ∧ KernelInv held' own k' := by
  obtain ⟨res, k₁, halloc, hrun⟩ := run_bind_inv hrun
  cases res with
  | error x => cases hrun
  | ok e =>
    obtain ⟨p, pm₁, hf, -, rfl, hb, hm, -⟩ := h.envAlloc_inv halloc
    obtain ⟨_, k₂, hload, hrun⟩ := run_bind_inv hrun
    have hdir : (k.allocated e p pm₁ 0#32).roots e = some p := by
      simp [Kernel.roots, Kernel.allocated, Kernel.modifyEnv]
    obtain ⟨pm', hpages, rfl⟩ := loadIcode_inv hdir hload
    obtain ⟨hb', held', hm'⟩ := loadPages_inv hm (update_self ..) hpages
    have hk' : k' = k.created e p pm' (createdTf binary type) type := by
      cases hrun
      simp only [Kernel.created, Kernel.allocated, Kernel.modifyEnv, update_self,
        update_idem, createdTf]
    subst hk'
    exact ⟨e, p, pm', held', rfl, created_spec hf (hb'.trans hb),
      (h.allocated hf hm').sameStatus rfl rfl rfl⟩

/-! ## The whole of it -/

/-- The kernel before the first environment is created. -/
structure Prepared (cfg : BootConfig) (k : Kernel) : Prop where
  inv : KernelInv ∅ none k
  envs : ∀ e, k.envs e = freshEnv e
  head : k.envFreeList = some ⟨0, by decide⟩
  cpus : ∀ q, k.cpus q = ⟨if q = cfg.bootcpu ∨ q ∈ cfg.aps then .started else .unused, none⟩

/-- The page of the entry code holds no table. -/
theorem mem_mpentry (hb : cfg.bootInfo = .ok b) (hpm : KernMem b pm) {q : ℕ}
    (hq : IsTablePage pm noRoots q) : (pm.setPage 7 cfg.mpentry).mem q = pm.mem q := by
  have hdir : pm.boot.kernPgdir ≠ 7 := by
    have hpa : 0x100000 ≤ cfg.kernPgdirPa := cfg.kernEnd_ge.trans (le_pageRound _)
    rw [hpm.boot, (bootInfo_spec hb).2.2.1, PGSIZE]
    omega
  refine update_of_ne (fun heq => ?_) _ _
  exact not_isTablePage_mpentry hpm.inv hdir (heq ▸ hq)

/-- `env_init` and what follows it, once memory is set up. -/
theorem Prepared.of_mem {k₁ : Kernel} (hpm : KernMem b pm') (hb : cfg.bootInfo = .ok b)
    (hreset : k = { cfg.reset b with pm := pm }) (hinit : EnvsInit 0 k k₁) :
    Prepared cfg ({ k₁.setCpuStatus cfg.bootcpu .started with
      pm := pm'.setPage 7 cfg.mpentry }.startAps cfg.aps) := by
  have hmem : MemInv (pm'.setPage 7 cfg.mpentry) noRoots ∅ :=
    hpm.inv.congr_tables rfl (fun q hq => mem_mpentry hb hpm hq) hpm.inv.alloc
  have hcpus : ∀ q, k₁.cpus q = ⟨.unused, none⟩ := fun q => by rw [hinit.cpus, hreset]; rfl
  set k' := { k₁.setCpuStatus cfg.bootcpu .started with
    pm := pm'.setPage 7 cfg.mpentry }.startAps cfg.aps with hk'
  have hinit' : EnvsInit 0 k' k' := by
    refine ⟨rfl, rfl, rfl, hinit.envs, hinit.free⟩
  have hcpus' : ∀ q, k'.cpus q
      = ⟨if q = cfg.bootcpu ∨ q ∈ cfg.aps then .started else .unused, none⟩ := fun q => by
    by_cases hq : q = cfg.bootcpu
    · subst hq
      simp [hk', Kernel.startAps, Kernel.setCpuStatus, hcpus]
    · by_cases hap : q ∈ cfg.aps <;> simp [hk', Kernel.startAps, Kernel.setCpuStatus, hcpus, hq, hap]
  refine ⟨hinit'.kernelInv hmem fun q => ?_, fun e => ?_, hinit.free, hcpus'⟩
  · rw [Kernel.curenv, hcpus']
  · rw [hinit'.envs, if_pos (Nat.zero_le _)]

/-- The record `env_create` leaves in a slot used for the first time, but for the
page directory. -/
def bootEnv (e : EnvIdx) (binary : Elf) (type : EnvType) : Env :=
  { freshEnv e with
    envId := nextEnvId 0#32 e
    envType := type
    envStatus := .runnable
    envTf := createdTf binary type freshTf }

/-- The records after boot, but for the page directories. -/
def bootEnvs (cfg : BootConfig) : EnvIdx → Env := fun e =>
  match e.val with
  | 0 => bootEnv e cfg.fs .fs
  | 1 => bootEnv e cfg.ns .ns
  | 2 => bootEnv e cfg.user .user
  | _ => freshEnv e

/-- **What a freshly booted kernel looks like.** -/
structure BootedSpec (cfg : BootConfig) (k : Kernel) : Prop where
  inv : ∃ held, KernelInv held none k
  envs : ∀ e, k.envs e = { bootEnvs cfg e with envPgdir := k.roots e }
  head : k.envFreeList = some ⟨3, by decide⟩
  cpus : ∀ q, k.cpus q = ⟨if q = cfg.bootcpu ∨ q ∈ cfg.aps then .started else .unused, none⟩

/-- `env_create` in slot `n`, when the slots from `n` on have not been used. -/
theorem envCreate_fresh (h : KernelInv held own k) (hhead : k.envFreeList = some e)
    (hfresh : k.envs e = freshEnv e) (hrun : envCreate binary type k = .ok u k') :
    (∃ held', KernelInv held' own k') ∧
      (∀ e', k'.envs e' = if e' = e then { bootEnv e binary type with envPgdir := k'.roots e }
        else k.envs e') ∧
      k'.envFreeList = (freshEnv e).envLink ∧ k'.cpus = k.cpus := by
  obtain ⟨e', p, pm, held', rfl, hc, hinv⟩ := envCreate_inv h hrun
  obtain rfl : e = e' := by simpa using hhead.symm.trans hc.head
  refine ⟨⟨held', hinv⟩, fun e' => ?_, by rw [hc.next, hfresh], hc.cpus⟩
  by_cases he : e' = e
  · subst he
    rw [if_pos rfl]
    simp [Kernel.created, Kernel.allocated, Kernel.modifyEnv, Kernel.roots, hfresh, bootEnv,
      freshEnv, Env.zero]
  · rw [if_neg he]
    exact hc.other e' he

/-- **Boot establishes the invariant.** -/
theorem Booted.spec (h : Booted cfg k) : BootedSpec cfg k := by
  obtain ⟨b, hb, hrun⟩ := h
  have hk := kernPgdir_not_avail hb
  -- `mem_init`
  obtain ⟨base, pm₁, hpm₁, hrun⟩ := onPm_bind_inv hrun
  have hn : b.npages ≤ 65536 := memInit_npages hpm₁
  have hspec : wp (memInit cfg) _ _ (cfg.reset b).pm := memInit_spec cfg hn hk rfl
  obtain ⟨hkm, hbase, -⟩ := (wp_of_ok hpm₁).1 hspec
  -- `env_init`
  obtain ⟨k₂, henv, hinit⟩ := envInit_spec (k := { cfg.reset b with pm := pm₁ }) fun _ => rfl
  rw [run_bind_ok henv, run_modify_bind, run_get_bind] at hrun
  -- the devices
  obtain ⟨_, pm₂, hpm₂, hrun⟩ := onPm_bind_inv hrun
  have hkm₂ : KernMem b pm₂ := by
    have hpm : (k₂.setCpuStatus cfg.bootcpu .started).pm = pm₁ := hinit.pm
    have hmaps := maps_mapDevices (b := b) cfg.devices base cfg.devices_aligned
      (by rw [hbase]; decide)
    rw [hpm, hkm.boot] at hpm₂
    exact ((wp_of_ok hpm₂).1 (hmaps.spec pm₁ hkm)).1
  -- the other CPUs
  obtain ⟨_, k₄, haps, hrun⟩ := run_bind_inv hrun
  obtain rfl := bootAps_inv haps
  have hprep := Prepared.of_mem hkm₂ hb rfl hinit
  generalize ({ k₂.setCpuStatus cfg.bootcpu .started with pm := pm₂.setPage 7 cfg.mpentry } :
    Kernel).startAps cfg.aps = k₄ at hprep hrun
  -- the three environments
  obtain ⟨_, k₅, hfs, hrun⟩ := run_bind_inv hrun
  obtain ⟨_, k₆, hns, huser⟩ := run_bind_inv hrun
  obtain ⟨⟨held₅, hinv₅⟩, henvs₅, hhead₅, hcpus₅⟩ :=
    envCreate_fresh hprep.inv hprep.head (hprep.envs _) hfs
  have hhead₅' : k₅.envFreeList = some ⟨1, by decide⟩ := hhead₅
  have hfresh₅ : ∀ e : EnvIdx, e.val ≠ 0 → k₅.envs e = freshEnv e := fun e he => by
    rw [henvs₅, if_neg (fun heq => he (by rw [heq])), hprep.envs]
  obtain ⟨⟨held₆, hinv₆⟩, henvs₆, hhead₆, hcpus₆⟩ :=
    envCreate_fresh hinv₅ hhead₅' (hfresh₅ _ (by simp)) hns
  have hhead₆' : k₆.envFreeList = some ⟨2, by decide⟩ := hhead₆
  have hfresh₆ : ∀ e : EnvIdx, e.val ≠ 0 → e.val ≠ 1 → k₆.envs e = freshEnv e := fun e h0 h1 => by
    rw [henvs₆, if_neg (fun heq => h1 (by rw [heq])), hfresh₅ e h0]
  obtain ⟨hinv, henvs, hhead, hcpus⟩ :=
    envCreate_fresh hinv₆ hhead₆' (hfresh₆ _ (by simp) (by simp)) huser
  refine ⟨hinv, fun e => ?_, hhead, fun q => by rw [hcpus, hcpus₆, hcpus₅, hprep.cpus]⟩
  have hroot : ∀ {env : Env} {r : Option ℕ}, k.envs e = { env with envPgdir := r } →
      k.envs e = { env with envPgdir := k.roots e } := fun heq => by
    rw [Kernel.roots, heq]
  have hval : ∀ {n : ℕ} {hn : n < 1024}, e = ⟨n, hn⟩ ↔ e.val = n := Fin.ext_iff
  simp only [henvs₅, henvs₆, hprep.envs] at henvs
  have he := henvs e
  by_cases h2 : e.val = 2
  · obtain rfl : e = ⟨2, by decide⟩ := hval.2 h2
    exact hroot he
  by_cases h1 : e.val = 1
  · obtain rfl : e = ⟨1, by decide⟩ := hval.2 h1
    exact hroot he
  by_cases h0 : e.val = 0
  · obtain rfl : e = ⟨0, by decide⟩ := hval.2 h0
    exact hroot he
  · have hboot : bootEnvs cfg e = freshEnv e := by
      unfold bootEnvs
      split <;> first | omega | rfl
    rw [hboot]
    refine hroot (r := none) ?_
    rw [he, if_neg (hval.not.2 h2), if_neg (hval.not.2 h1), if_neg (hval.not.2 h0)]
    rfl

/-! ## Boot succeeds -/

/-- Pages that stop being free. -/
theorem card_freeSet_le_add {roots roots' : EnvIdx → Option ℕ} {held' S : Finset ℕ}
    (hb : pm'.boot = pm.boot)
    (h : ∀ p ∈ freeSet pm roots held, p ∉ S → p ∉ held' ∧ ∀ s, target pm' roots' s ≠ some p) :
    (freeSet pm roots held).card ≤ (freeSet pm' roots' held').card + S.card := by
  have hsub : freeSet pm roots held ⊆ freeSet pm' roots' held' ∪ S := fun p hp => by
    by_cases hS : p ∈ S
    · exact Finset.mem_union_right _ hS
    · obtain ⟨hnh, h0⟩ := h p hp hS
      exact Finset.mem_union_left _
        (mem_freeSet.2 ⟨hb ▸ (mem_freeSet.1 hp).1, hnh, refs_eq_zero.2 h0⟩)
  exact (Finset.card_le_card hsub).trans (Finset.card_union_le _ _)

/-- A new page, mapped below `UTOP`: it takes two pages at most. -/
theorem allocInsert_ok {roots : EnvIdx → Option ℕ} {r : ℕ} {va perm : Word} (z : Bool)
    (h : MemInv pm roots held) (hr : roots e = some r) (hva : va < UTOP) (hperm : FlagsOnly perm)
    (hn : n + 2 ≤ (freeSet pm roots held).card) :
    ∃ pg pm₁ pm₂, pageAlloc z pm = .ok (some pg) pm₁ ∧
      pageInsert r pg va perm pm₁ = .ok (.ok ()) pm₂ ∧ MemInv pm₂ roots held ∧
      pm₂.boot = pm.boot ∧ n ≤ (freeSet pm₂ roots held).card ∧
      ∃ w, entry pm₂ roots = update (update (entry pm roots)
        (.pde e (pdx va)) (some w)) (.pte e (pdx va) (ptx va)) (some (mkPte pg perm)) := by
  obtain ⟨pg, hf⟩ := h.freeList_some (by omega)
  obtain ⟨pm₁, hrun₁, h₁, hb₁, he₁, href, -⟩ := h.pageAlloc_spec hf z
  obtain ⟨-, hown, -, hnew⟩ := h.pageAlloc_inv hrun₁
  have hn₁ : (freeSet pm roots held).card ≤ (freeSet pm₁ roots (insert pg held)).card + 1 := by
    refine card_freeSet_le_add (S := {pg}) hb₁ fun p hp hne => ?_
    obtain ⟨-, hnh, h0⟩ := mem_freeSet.1 hp
    rw [Finset.mem_singleton] at hne
    refine ⟨fun hin => (Finset.mem_insert.1 hin).elim hne hnh, ?_⟩
    rw [target_congr he₁]
    exact refs_eq_zero.1 h0
  rcases h₁.pageInsert_spec hr (pdx_lt_utopDx.2 hva) hown hperm with
    ⟨-, hnone, -⟩ | ⟨pm₂, w, hrun₂, -, hb₂, he₂, hinv⟩
  · obtain ⟨q, hq⟩ := h₁.freeList_some (by omega)
    rw [hq] at hnone
    cases hnone
  have h₂ := hinv (Or.inl (by rw [href]; decide))
  rw [Finset.erase_insert hnew] at h₂
  refine ⟨pg, pm₁, pm₂, hrun₁, hrun₂, h₂, hb₂.trans hb₁, ?_, w, by rw [he₂, he₁]⟩
  -- besides the page itself only the page table can be new
  have hn₂ : (freeSet pm₁ roots (insert pg held)).card ≤ (freeSet pm₂ roots held).card + 1 := by
    refine card_freeSet_le_add (S := {pgnum w}) hb₂ fun p hp hne => ?_
    obtain ⟨-, hnh, h0⟩ := mem_freeSet.1 hp
    rw [Finset.mem_singleton] at hne
    refine ⟨fun hin => hnh (Finset.mem_insert_of_mem hin), fun s hs => ?_⟩
    by_cases hpte : s = .pte e (pdx va) (ptx va)
    · subst hpte
      rw [target, he₂, update_self, Option.map_some,
        pgnum_mkPte (h₁.lt_two_pow hown.avail.1) hperm, Option.some.injEq] at hs
      exact hnh (Finset.mem_insert.2 (Or.inl hs.symm))
    by_cases hpde : s = .pde e (pdx va)
    · subst hpde
      rw [target, he₂, update_of_ne (by simp), update_self, Option.map_some,
        Option.some.injEq] at hs
      exact hne hs.symm
    · refine refs_eq_zero.1 h0 s ?_
      rw [← hs]
      have hsame : entry pm₂ roots s = entry pm₁ roots s := by
        rw [he₂, update_of_ne hpte, update_of_ne hpde]
      cases s with
      | dir e' => rfl
      | pde e' d => simp only [target, hsame]
      | pte e' d t => simp only [target, hsame]
      | kern d => simp only [target, hsame]
  omega

/-- A new page directory is one page. -/
theorem card_freeSet_newRoot {roots : EnvIdx → Option ℕ} (held : Finset ℕ) (hb : pm'.boot = pm.boot)
    (hent : entry pm' (update roots e (some p)) = entry pm roots) :
    (freeSet pm roots held).card ≤
      (freeSet pm' (update roots e (some p)) held).card + 1 := by
  refine card_freeSet_le_add (S := {p}) hb fun q hq hne => ?_
  obtain ⟨-, hnh, h0⟩ := mem_freeSet.1 hq
  refine ⟨hnh, fun s hs => ?_⟩
  rw [target_newRoot hent] at hs
  by_cases hse : s = .dir e
  · subst hse
    rw [update_self, Option.some.injEq] at hs
    exact hne (by simp [hs])
  · rw [update_of_ne hse] at hs
    exact refs_eq_zero.1 h0 s hs

/-- `env_alloc` takes one page. -/
theorem envAlloc_ok (h : KernelInv held own k) (hf : k.envFreeList = some e) (parentId : Word)
    (hn : n + 1 ≤ (freeSet k.pm k.roots held).card) :
    ∃ p pm, envAlloc parentId k = .ok (.ok e) (k.allocated e p pm parentId) ∧
      MemInv pm (update k.roots e (some p)) held ∧ pm.boot = k.pm.boot ∧
      n ≤ (freeSet pm (update k.roots e (some p)) held).card ∧
      entry pm (update k.roots e (some p)) = entry k.pm k.roots := by
  have hr : k.roots e = none := (h.live e).1 (h.head_free hf)
  rcases @envAlloc_spec _ _ _ parentId h.mem hf hr with
    ⟨-, hnone⟩ | ⟨p, pm, -, hrun, hm, hb, hent⟩
  · obtain ⟨q, hq⟩ := h.mem.freeList_some (by omega)
    rw [hq] at hnone
    cases hnone
  · have hle := card_freeSet_newRoot held hb hent
    exact ⟨p, pm, hrun, hm, hb, by omega, hent⟩

/-- The loop of `region_alloc` for the stack makes one round. -/
theorem stack_loop (pgdir : ℕ) :
    regionAlloc pgdir (USTACKTOP - BitVec.ofNat 32 PGSIZE) (BitVec.ofNat 32 PGSIZE) = (do
      match ← pageAlloc false with
      | none => throw .regionAlloc
      | some pg =>
        let _ ← pageInsert pgdir pg (USTACKTOP - BitVec.ofNat 32 PGSIZE) (PTE_W ||| PTE_U)
        pure ()) := by
  have hend : ∀ n, regionAllocLoop pgdir (n + 1) USTACKTOP USTACKTOP = pure () := fun n => by
    rw [regionAllocLoop, if_neg (by simp)]
  have hstart : roundDown (USTACKTOP - BitVec.ofNat 32 PGSIZE)
      = USTACKTOP - BitVec.ofNat 32 PGSIZE := by decide
  have hstop : roundUp (USTACKTOP - BitVec.ofNat 32 PGSIZE + BitVec.ofNat 32 PGSIZE)
      = USTACKTOP := by decide
  have hnext : USTACKTOP - BitVec.ofNat 32 PGSIZE + BitVec.ofNat 32 PGSIZE = USTACKTOP := by
    decide
  have hlt : USTACKTOP - BitVec.ofNat 32 PGSIZE < USTACKTOP := by decide
  rewrite [regionAlloc, hstart, hstop, show (2 ^ 20 : ℕ) = 1048574 + 1 + 1 from rfl,
    regionAllocLoop, if_pos hlt, hnext, hend]
  rfl

section Create

variable {k : Kernel} {e : EnvIdx} {p : ℕ} {pm : PhysMem} {binary : Elf}

theorem roots_created : (k.created e p pm f type).roots = update k.roots e (some p) := by
  funext e'
  by_cases he : e' = e
  · subst he
    simp [Kernel.roots, Kernel.created, Kernel.allocated, Kernel.modifyEnv]
  · simp [Kernel.roots, Kernel.created, Kernel.allocated, Kernel.modifyEnv, he]

/-- `load_icode` of a program with an entry point is up to `loadPages`. -/
theorem loadIcode_run (hmagic : binary.eMagic = ELF_MAGIC) (hentry : binary.eEntry ≠ 0#32) :
    loadIcode e binary (k.allocated e p pm 0#32) = onPm (loadPages p binary)
      ((k.allocated e p pm 0#32).modifyEnv e fun env =>
        { env with envTf := { env.envTf with tfEip := binary.eEntry } }) := by
  set k₁ := (k.allocated e p pm 0#32).modifyEnv e fun env =>
    { env with envTf := { env.envTf with tfEip := binary.eEntry } } with hk₁
  have hdir : k₁.roots e = some p := by
    simp [hk₁, Kernel.roots, Kernel.allocated, Kernel.modifyEnv]
  rw [loadIcode, if_neg (not_not.2 hmagic), if_neg hentry, run_modify_bind, withPgdir_some hdir]

/-- `env_create`, once `env_alloc` has returned and the pages are loaded. -/
theorem envCreate_run (type : EnvType)
    (halloc : envAlloc 0#32 k = .ok (.ok e) (k.allocated e p pm 0#32))
    (hmagic : binary.eMagic = ELF_MAGIC) (hentry : binary.eEntry ≠ 0#32)
    (hload : loadPages p binary pm = .ok () pm') :
    envCreate binary type k = .ok () (k.created e p pm' (createdTf binary type) type) := by
  have hicode := (loadIcode_run (k := k) (e := e) (p := p) hmagic hentry).trans (onPm_ok hload)
  rw [envCreate, run_bind_ok halloc]
  change (loadIcode e binary >>= _) _ = _
  rw [run_bind_ok hicode, run_modify]
  simp only [Kernel.created, Kernel.allocated, Kernel.modifyEnv, update_self,
    update_idem, createdTf]

end Create

/-- A program without segments. -/
structure Elf.Plain (binary : Elf) : Prop where
  magic : binary.eMagic = ELF_MAGIC
  entry : binary.eEntry ≠ 0#32
  segments : binary.ph = []

/-- `env_create` of such a program takes three pages at most. -/
theorem envCreate_ok (type : EnvType) (h : KernelInv held own k) (hf : k.envFreeList = some e)
    (hbin : binary.Plain) (hn : n + 3 ≤ (freeSet k.pm k.roots held).card) :
    ∃ k', envCreate binary type k = .ok () k' ∧ KernelInv held own k' ∧
      n ≤ (freeSet k'.pm k'.roots held).card ∧ k'.envFreeList = (k.envs e).envLink ∧
      ∀ e', e' ≠ e → k'.envs e' = k.envs e' := by
  obtain ⟨p, pm, halloc, hm, hb, hcard, -⟩ := envAlloc_ok (n := n + 2) h hf 0#32 (by omega)
  obtain ⟨pg, pm₁, pm₂, hpg, hins, hm₂, hb₂, hcard₂, -⟩ :=
    allocInsert_ok false hm (update_self e _ _)
      (by decide : USTACKTOP - BitVec.ofNat 32 PGSIZE < UTOP)
      (by decide : FlagsOnly (PTE_W ||| PTE_U)) hcard
  have hload : loadPages p binary pm = .ok () pm₂ := by
    have hstack : regionAlloc p (USTACKTOP - BitVec.ofNat 32 PGSIZE) (BitVec.ofNat 32 PGSIZE) pm
        = .ok () pm₂ := by
      rw [stack_loop, run_bind_ok hpg]
      exact run_bind_ok hins
    rw [loadPages, hbin.segments]
    exact hstack
  have hcreated : KernelInv held own (k.created e p pm₂ (createdTf binary type) type) :=
    (h.allocated hf hm₂).sameStatus rfl rfl rfl
  refine ⟨k.created e p pm₂ (createdTf binary type) type,
    envCreate_run type halloc hbin.magic hbin.entry hload, hcreated, ?_, rfl, ?_⟩
  · rw [roots_created]
    exact hcard₂
  · intro e' he
    simp [Kernel.created, Kernel.allocated, Kernel.modifyEnv, he]

/-- `mem_init` returns if there is enough memory. -/
theorem memInit_returns (hb : cfg.bootInfo = .ok b) (hn : b.npages ≤ 65536)
    (hcard : 1024 ≤ b.availSet.card) : ∃ base pm, memInit cfg (cfg.reset b).pm = .ok base pm := by
  have hspec : wp (memInit cfg) _ _ (cfg.reset b).pm := memInit_spec cfg hn (kernPgdir_not_avail hb) rfl
  cases hmem : memInit cfg (cfg.reset b).pm with
  | error x pm =>
    have hpoor : b.availSet.card < 1024 := (wp_of_error hmem).1 hspec
    omega
  | ok base pm => exact ⟨base, pm, rfl⟩

/-- **Boot succeeds** if there is enough memory, the devices fit into the window
for memory-mapped I/O, and the programs are in order. -/
theorem boots (hb : cfg.bootInfo = .ok b) (hn : b.npages ≤ 65536)
    (hcard : 1033 + n ≤ b.availSet.card) (hfit : RegionsFit mmioStart cfg.devices)
    (hfs : cfg.fs.Plain) (hns : cfg.ns.Plain) (huser : cfg.user.Plain) :
    ∃ k held, Booted cfg k ∧ KernelInv held none k ∧ n ≤ (freeSet k.pm k.roots held).card := by
  have hk := kernPgdir_not_avail hb
  have h7 : 7 < b.npages := by
    have hle : b.availSet.card ≤ b.npages :=
      (Finset.card_filter_le _ _).trans_eq (Finset.card_range _)
    omega
  -- memory
  obtain ⟨base, pm₁, hmem⟩ := memInit_returns hb hn (by omega)
  have hspec : wp (memInit cfg) _ _ (cfg.reset b).pm := memInit_spec cfg hn hk rfl
  obtain ⟨hkm, rfl, hrich⟩ := (wp_of_ok hmem).1 hspec
  have hrich₁ : Rich (9 + n) pm₁ := hrich (9 + n) (show 1024 + (9 + n) ≤ b.availSet.card by omega)
  -- devices
  have hmaps := maps_mapDevices (b := b) cfg.devices mmioStart cfg.devices_aligned (by decide)
  cases hdev : mapDevices b.kernPgdir mmioStart cfg.devices pm₁ with
  | error x pm => exact absurd hrich₁ ((wp_of_error hdev).1 (hmaps.spec pm₁ hkm) hfit _)
  | ok u pm₂ =>
  obtain ⟨hkm₂, hgrows, -⟩ := (wp_of_ok hdev).1 (hmaps.spec pm₁ hkm)
  have hrich₂ := hgrows.rich _ hrich₁
  -- environments
  obtain ⟨k₂, henv, hinit⟩ := envInit_spec (k := { cfg.reset b with pm := pm₁ }) fun _ => rfl
  set k₃ := ({ k₂.setCpuStatus cfg.bootcpu .started with pm := pm₂ } : Kernel) with hk₃
  have haps : bootAps cfg k₃ = .ok () ({ k₃ with pm := k₃.pm.setPage 7 cfg.mpentry }.startAps
      cfg.aps) := bootAps_ok cfg (by rw [hk₃, hkm₂.boot]; exact h7)
  have hprep := Prepared.of_mem hkm₂ hb rfl hinit
  set k₄ := ({ k₃ with pm := k₃.pm.setPage 7 cfg.mpentry } : Kernel).startAps cfg.aps with hk₄
  have hcard₄ : n + 3 + 3 + 3 ≤ (freeSet k₄.pm k₄.roots ∅).card := by
    have hroots : k₄.roots = noRoots := funext fun e => by rw [Kernel.roots, hprep.envs]; rfl
    have hent : entry (pm₂.setPage 7 cfg.mpentry) noRoots = entry pm₂ noRoots :=
      entry_congr rfl fun q hq => mem_mpentry hb hkm₂ hq
    have hle : (freeSet pm₂ noRoots ∅).card ≤ (freeSet k₄.pm k₄.roots ∅).card
        + (∅ : Finset ℕ).card := by
      refine card_freeSet_le_add rfl fun p hp _ => ⟨by simp, ?_⟩
      have hpm₄ : k₄.pm = pm₂.setPage 7 cfg.mpentry := rfl
      rw [hroots, hpm₄, target_congr hent]
      exact refs_eq_zero.1 (mem_freeSet.1 hp).2.2
    rw [Rich] at hrich₂
    rw [Finset.card_empty] at hle
    omega
  obtain ⟨k₅, hrun₅, hinv₅, hcard₅, hhead₅, hother₅⟩ :=
    envCreate_ok .fs hprep.inv hprep.head hfs hcard₄
  rw [hprep.envs] at hhead₅
  have hhead₅' : k₅.envFreeList = some ⟨1, by decide⟩ := hhead₅
  obtain ⟨k₆, hrun₆, hinv₆, hcard₆, hhead₆, hother₆⟩ :=
    envCreate_ok .ns hinv₅ hhead₅' hns hcard₅
  rw [hother₅ _ (by simp), hprep.envs] at hhead₆
  have hhead₆' : k₆.envFreeList = some ⟨2, by decide⟩ := hhead₆
  obtain ⟨k₇, hrun₇, hinv₇, hcard₇, -⟩ := envCreate_ok .user hinv₆ hhead₆' huser hcard₆
  refine ⟨k₇, ∅, ⟨b, hb, ?_⟩, hinv₇, hcard₇⟩
  have hpm : (k₂.setCpuStatus cfg.bootcpu .started).pm = pm₁ := hinit.pm
  have hdev' : mapDevices (k₂.setCpuStatus cfg.bootcpu .started).pm.boot.kernPgdir mmioStart
      cfg.devices (k₂.setCpuStatus cfg.bootcpu .started).pm = .ok u pm₂ := by
    rw [hpm, hkm.boot]
    exact hdev
  rw [i386Init, run_bind_ok (onPm_ok hmem), run_bind_ok henv, run_modify_bind, run_get_bind,
    run_bind_ok (onPm_ok hdev')]
  rw [run_bind_ok haps, run_bind_ok hrun₅, run_bind_ok hrun₆]
  exact hrun₇

/-! ## A machine of ordinary size -/

/-- A program that consists of its entry point. -/
def plainElf : Elf := ⟨ELF_MAGIC, 0x800020#32, [], fun _ => 0#8, by simp⟩

/-- Self-tests that leave everything as it was. -/
def noTest : SelfTest := ⟨id, fun _ => ⟨rfl, fun _ => rfl, fun l h =>
  ⟨l, .refl l, h, fun _ _ => ⟨rfl, rfl⟩⟩⟩⟩

/-- A machine with 128 MB of memory, four CPUs and one network card. -/
def plainConfig : BootConfig where
  npages := 32768
  npagesBasemem := 160
  kernEnd := 0x180000
  bootstack := 0x110000#32
  percpuKstacks := 0x120000#32
  devices := [(0xFEE00000#32, 4096#32), (0xFEBC0000#32, 0x20000#32), (0xFEE00000#32, 4096#32),
    (0xFEE00000#32, 4096#32), (0xFEE00000#32, 4096#32)]
  bootcpu := 0
  aps := [1, 2, 3]
  mpentry := fun _ => 0#32
  ram := fun _ _ => 0#32
  fs := plainElf
  ns := plainElf
  user := plainElf
  tests := noTest
  installedTests := noTest
  basemem_le := by decide
  kernEnd_ge := by decide
  bootstack_aligned := by decide
  percpuKstacks_aligned := by decide
  devices_aligned := by
    intro d hd
    simp only [List.mem_cons, List.not_mem_nil, or_false] at hd
    rcases hd with rfl | rfl | rfl | rfl | rfl <;> decide

theorem plainConfig_bootInfo : plainConfig.bootInfo = .ok ⟨32768, 160, 0x1E0000, 384⟩ := by decide

/-- There is plenty of memory. -/
theorem plainConfig_avail :
    32288 ≤ (⟨32768, 160, 0x1E0000, 384⟩ : BootInfo).availSet.card := by
  have hsub : Finset.Ico 480 32768 ⊆ (⟨32768, 160, 0x1E0000, 384⟩ : BootInfo).availSet := by
    intro p hp
    rw [Finset.mem_Ico] at hp
    rw [BootInfo.availSet, Finset.mem_filter, Finset.mem_range]
    have hend : (⟨32768, 160, 0x1E0000, 384⟩ : BootInfo).kernelEndPage = 480 := by decide
    refine ⟨hp.2, hp.2, ?_⟩
    rw [BootInfo.Reserved, hend, MPENTRY_PADDR, PGSIZE]
    omega
  have hle := Finset.card_le_card hsub
  rwa [Nat.card_Ico] at hle

/-- It boots, with some of that memory left. -/
theorem plainConfig_boots :
    ∃ k held, Booted plainConfig k ∧ KernelInv held none k ∧
      1000 ≤ (freeSet k.pm k.roots held).card := by
  refine boots plainConfig_bootInfo (by decide) ?_ (by decide) ⟨rfl, by decide, rfl⟩
    ⟨rfl, by decide, rfl⟩ ⟨rfl, by decide, rfl⟩
  exact le_trans (by decide) plainConfig_avail

end Jos
