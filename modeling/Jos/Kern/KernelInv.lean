import Jos.Kern.Steps

/-!
# The invariant of the kernel

`KernelInv` joins the invariant of physical memory with what holds of the
environments: a slot is free exactly if it has no page directory, the free list
of environments is a duplicate-free list of the free slots, and no environment
runs on two CPUs.

The last of these rests on the status alone: `sched_yield` picks any
environment that is `ENV_RUNNABLE`.  So the invariant also says that what a CPU
runs is not `ENV_RUNNABLE`.  A CPU inside the kernel breaks this for its own
environment, for a while; `own` is that CPU.

Acts keep the invariant if they are safe (`KernelInv.act`), the scheduler
restores it for its own CPU (`KernelInv.resched`), and so every careful step
keeps it (`KernelInv.step`).
-/

namespace Jos

open Function (update update_of_ne update_self)

/-- **The invariant of the kernel**, while CPU `own` is in it.  The pages in
`held` were handed out and are not used. -/
structure KernelInv (held : Finset ℕ) (own : Option ℕ) (k : Kernel) : Prop where
  mem : MemInv k.pm k.roots held
  /-- Free slots have no page directory, and live environments have one. -/
  live : ∀ e, (k.envs e).envStatus = .free ↔ k.roots e = none
  /-- `env_free_list` is acyclic, duplicate-free, and holds exactly the free slots. -/
  freeEnvs : ∃ l, Chain (fun e => (k.envs e).envLink) k.envFreeList l ∧ l.Nodup ∧
    ∀ e, e ∈ l ↔ (k.envs e).envStatus = .free
  /-- What a CPU runs is live … -/
  cur_live : ∀ q e, k.curenv q = some e → (k.envs e).envStatus ≠ .free
  /-- … runs on no other CPU … -/
  cur_once : ∀ q q' e, k.curenv q = some e → k.curenv q' = some e → q = q'
  /-- … and is not up for the scheduler. -/
  cur_parked : ∀ q e, own ≠ some q → k.curenv q = some e → (k.envs e).envStatus ≠ .runnable

variable {pm : PhysMem} {roots : EnvIdx → Option ℕ} {pg : ℕ} {va perm : Word}

/-- A page that is mapped has been given out, and holds no table. -/
theorem MemInv.owned_of_pte {held : Finset ℕ} {e : EnvIdx} {d t : Idx} (h : MemInv pm roots held)
    (hs : target pm roots (.pte e d t) = some pg) : Owned pm roots held pg :=
  ⟨h.avail_of_target hs, Or.inr (refs_ne_zero hs), h.not_isTablePage_of_pte hs⟩

theorem MemInv.not_held {held : Finset ℕ} {s : Site} {p : ℕ} (h : MemInv pm roots held)
    (hs : target pm roots s = some p) : p ∉ held :=
  fun hp => refs_ne_zero hs (h.alloc.held_avail p hp).2

theorem MapsFrom.target {k : Kernel} {cpu : ℕ} {s e : EnvIdx} {sva : Word}
    (h : MapsFrom k cpu s sva e va perm pg) :
    Jos.target k.pm k.roots (.pte s (pdx sva) (ptx sva)) = some pg := by
  obtain ⟨w, hw, hpg, -⟩ := h.src
  rw [Jos.target, hw, Option.map_some, hpg]

namespace KernelInv

variable {held : Finset ℕ} {own : Option ℕ} {k k' : Kernel} {cpu : ℕ} {e : EnvIdx}

theorem enter (h : KernelInv held none k) (cpu : ℕ) : KernelInv held (some cpu) k :=
  { h with cur_parked := fun q e _ hc => h.cur_parked q e (by simp) hc }

theorem inUse (h : KernelInv held own k) (huse : k.InUse cpu e) : (k.envs e).envStatus ≠ .free := by
  rcases huse with hst | hc
  · exact hst
  · exact h.cur_live cpu e hc

variable {r : ℕ} {held' : Finset ℕ} {f : Env → Env}

theorem status_of_root (h : KernelInv held own k) (hr : k.roots e = some r) :
    (k.envs e).envStatus ≠ .free := by
  rw [ne_eq, h.live, hr]
  simp

/-- The same environments on the same CPUs. -/
theorem congr (h : KernelInv held own k) (hm : MemInv k'.pm k.roots held')
    (henvs : k'.envs = k.envs) (hfree : k'.envFreeList = k.envFreeList)
    (hcur : k'.curenv = k.curenv) : KernelInv held' own k' := by
  have hroots : k'.roots = k.roots := funext fun e => by rw [Kernel.roots, henvs, Kernel.roots]
  constructor
  · rw [hroots]; exact hm
  · rw [henvs, hroots]; exact h.live
  · rw [henvs, hfree]; exact h.freeEnvs
  · rw [hcur, henvs]; exact h.cur_live
  · rw [hcur]; exact h.cur_once
  · rw [hcur, henvs]; exact h.cur_parked

theorem setPm (h : KernelInv held own k) (hm : MemInv pm k.roots held') :
    KernelInv held' own { k with pm := pm } :=
  h.congr hm rfl rfl rfl

theorem unchanged (h : KernelInv held own k) (hu : Unchanged k k') : KernelInv held own k' := by
  refine h.congr (h.mem.congr_tables hu.boot (fun q hq => hu.mem q fun p hp => ?_) ?_) hu.envs
    hu.envFreeList (funext fun q => by rw [Kernel.curenv, hu.cpus, Kernel.curenv])
  · -- no table lives in a free page
    obtain ⟨hav, -, h0⟩ := (h.mem.alloc.onList_iff p).1 hp
    rw [pgnum_page2pa (h.mem.lt_two_pow hav.1)]
    rintro rfl
    exact h.mem.not_isTablePage_of_refs hav h0 hq
  · have halloc : k'.pm.alloc = k.pm.alloc := by
      rw [PhysMem.alloc, hu.pages, hu.pageFreeList, PhysMem.alloc]
    rw [halloc]
    exact h.mem.alloc

/-- A change to the record of one environment. -/
theorem modifyEnv (h : KernelInv held own k) (hdir : (f (k.envs e)).envPgdir = (k.envs e).envPgdir)
    (hlink : (f (k.envs e)).envLink = (k.envs e).envLink)
    (hfree : (f (k.envs e)).envStatus = .free ↔ (k.envs e).envStatus = .free)
    (hrun : ∀ q, own ≠ some q → k.curenv q = some e → (f (k.envs e)).envStatus ≠ .runnable) :
    KernelInv held own (k.modifyEnv e f) := by
  have hroots := Kernel.roots_modifyEnv hdir
  have hstatus : ∀ e', ((k.modifyEnv e f).envs e').envStatus = .free ↔
      (k.envs e').envStatus = .free := fun e' => by
    by_cases he : e' = e
    · subst he
      simpa [Kernel.modifyEnv] using hfree
    · simp [Kernel.modifyEnv, he]
  have hlinks : (fun e' => ((k.modifyEnv e f).envs e').envLink) = fun e' => (k.envs e').envLink :=
    funext fun e' => by
      by_cases he : e' = e
      · subst he
        simpa [Kernel.modifyEnv] using hlink
      · simp [Kernel.modifyEnv, he]
  constructor
  · rw [hroots]; exact h.mem
  · exact fun e' => by rw [hstatus, hroots]; exact h.live e'
  · obtain ⟨l, hc, hnd, hmem⟩ := h.freeEnvs
    exact ⟨l, hlinks ▸ hc, hnd, fun e' => by rw [hmem, hstatus]⟩
  · exact fun q e' hc => by rw [ne_eq, hstatus]; exact h.cur_live q e' hc
  · exact h.cur_once
  · intro q e' hq hc
    by_cases he : e' = e
    · subst he
      simpa [Kernel.modifyEnv] using hrun q hq hc
    · simpa [Kernel.modifyEnv, he] using h.cur_parked q e' hq hc

/-- The CPU drops its environment. -/
theorem dropCur (h : KernelInv held own k) : KernelInv held own (k.setCurenv cpu none) := by
  have hcur : ∀ {q e}, (k.setCurenv cpu none).curenv q = some e → k.curenv q = some e := by
    intro q e hc
    by_cases hq : q = cpu
    · subst hq
      rw [Kernel.curenv_setCurenv] at hc
      cases hc
    · rwa [Kernel.curenv_setCurenv_of_ne hq] at hc
  exact ⟨h.mem, h.live, h.freeEnvs, fun q e hc => h.cur_live q e (hcur hc),
    fun q q' e hc hc' => h.cur_once q q' e (hcur hc) (hcur hc'),
    fun q e hq hc => h.cur_parked q e hq (hcur hc)⟩

/-- `env_free` of an environment that no CPU runs. -/
theorem freed (h : KernelInv held own k) (hr : k.roots e = some r)
    (hm : MemInv pm (update k.roots e none) held) (hcur : ∀ q, k.curenv q ≠ some e) :
    KernelInv held own (k.freed e pm) := by
  have hroots : (k.freed e pm).roots = update k.roots e none := by
    funext e'
    by_cases he : e' = e
    · subst he; simp [Kernel.roots, Kernel.freed, Kernel.modifyEnv]
    · simp [Kernel.roots, Kernel.freed, Kernel.modifyEnv, he]
  have hself : ((k.freed e pm).envs e).envStatus = .free := by
    simp [Kernel.freed, Kernel.modifyEnv]
  have hother : ∀ {e'}, e' ≠ e → (k.freed e pm).envs e' = k.envs e' := fun he => by
    simp [Kernel.freed, Kernel.modifyEnv, he]
  constructor
  · rw [hroots]; exact hm
  · intro e'
    by_cases he : e' = e
    · subst he
      simp [hself, hroots]
    · rw [hother he, hroots, update_of_ne he]
      exact h.live e'
  · obtain ⟨l, hc, hnd, hmem⟩ := h.freeEnvs
    have hnot : e ∉ l := fun hel => h.status_of_root hr ((hmem e).1 hel)
    refine ⟨e :: l, ?_, List.nodup_cons.2 ⟨hnot, hnd⟩, fun e' => ?_⟩
    · have hlinks : (fun e' => ((k.freed e pm).envs e').envLink) =
          update (fun e' => (k.envs e').envLink) e k.envFreeList := by
        funext e'
        by_cases he : e' = e
        · subst he; simp [Kernel.freed, Kernel.modifyEnv]
        · rw [hother he, update_of_ne he]
      rw [hlinks]
      exact hc.push hnot
    · by_cases he : e' = e
      · subst he
        simp [hself]
      · rw [hother he, List.mem_cons, hmem]
        simp [he]
  · intro q e' hc
    rw [hother (fun he => hcur q (he ▸ hc))]
    exact h.cur_live q e' hc
  · exact h.cur_once
  · intro q e' hq hc
    rw [hother (fun he => hcur q (he ▸ hc))]
    exact h.cur_parked q e' hq hc

/-- `env_alloc`. -/
theorem allocated (h : KernelInv held own k) {p : ℕ} {parentId : Word} (hf : k.envFreeList = some e)
    (hm : MemInv pm (update k.roots e (some p)) held') :
    KernelInv held' own (k.allocated e p pm parentId) := by
  have hroots : (k.allocated e p pm parentId).roots = update k.roots e (some p) := by
    funext e'
    by_cases he : e' = e
    · subst he; simp [Kernel.roots, Kernel.allocated, Kernel.modifyEnv]
    · simp [Kernel.roots, Kernel.allocated, Kernel.modifyEnv, he]
  have hself : ((k.allocated e p pm parentId).envs e).envStatus = .runnable := by
    simp [Kernel.allocated, Kernel.modifyEnv]
  have hother : ∀ {e'}, e' ≠ e → (k.allocated e p pm parentId).envs e' = k.envs e' := fun he => by
    simp [Kernel.allocated, Kernel.modifyEnv, he]
  obtain ⟨l, hc, hnd, hmem⟩ := h.freeEnvs
  rw [hf] at hc
  cases l with
  | nil => exact absurd (Chain.nil_iff.1 hc) (by simp)
  | cons e₁ t =>
    obtain ⟨he₁, ht⟩ := Chain.cons_iff.1 hc
    obtain rfl : e = e₁ := by simpa using he₁
    obtain ⟨hnot, hnd'⟩ := List.nodup_cons.1 hnd
    have hcur : ∀ {q e'}, k.curenv q = some e' → e' ≠ e := by
      rintro q e' hrun rfl
      exact h.cur_live q e' hrun ((hmem e').1 (List.mem_cons_self ..))
    constructor
    · rw [hroots]; exact hm
    · intro e'
      by_cases he : e' = e
      · subst he
        simp [hself, hroots]
      · rw [hother he, hroots, update_of_ne he]
        exact h.live e'
    · refine ⟨t, ht.frame fun e' he' => ?_, hnd', fun e' => ?_⟩
      · rw [hother (fun he => hnot (he ▸ he'))]
      · by_cases he : e' = e
        · subst he
          simp [hself, hnot]
        · rw [hother he, ← hmem, List.mem_cons]
          simp [he]
    · intro q e' hc
      rw [hother (hcur hc)]
      exact h.cur_live q e' hc
    · exact h.cur_once
    · intro q e' hq hc
      rw [hother (hcur hc)]
      exact h.cur_parked q e' hq hc

/-- Mapping a page that another mapping refers to, or a new one. -/
theorem insert (h : KernelInv held own k) {pm₁ pm₂ : PhysMem} {held₁ : Finset ℕ}
    (hm : MemInv pm₁ k.roots held₁) (hheld : held₁.erase pg = held) (hr : k.roots e = some r)
    (hva : va < UTOP) (hp : Owned pm₁ k.roots held₁ pg) (hperm : permOk perm = true)
    (hroom : (pm₁.pages pg).ppRef ≠ BitVec.allOnes 16 ∨
      target pm₁ k.roots (.pte e (pdx va) (ptx va)) = some pg)
    (hrun : pageInsert r pg va perm pm₁ = .ok (.ok ()) pm₂) :
    KernelInv held own { k with pm := pm₂ } := by
  refine h.setPm ?_
  rcases hm.pageInsert_spec hr (pdx_lt_utopDx.2 hva) hp (permOk_flagsOnly hperm) with
    ⟨hno, -⟩ | ⟨pm', w, hok, -, -, -, hinv⟩
  · rw [hno] at hrun
    cases hrun
  · rw [hok] at hrun
    cases hrun
    exact hheld ▸ hinv hroom

/-- Without room, the page has too many references afterwards. -/
theorem room_of_noOverflow (h : KernelInv held own k) {pm' : PhysMem} (hr : k.roots e = some r)
    (hva : va < UTOP) (hp : Owned k.pm k.roots held pg) (hperm : permOk perm = true)
    (hrun : pageInsert r pg va perm k.pm = .ok (.ok ()) pm')
    (hno : { k with pm := pm' }.NoOverflow) : k.Room e va pg := by
  have hflags := permOk_flagsOnly hperm
  rcases h.mem.pageInsert_spec hr (pdx_lt_utopDx.2 hva) hp hflags with
    ⟨hnone, -⟩ | ⟨pm₁, w, hok, -, -, hent, -⟩
  · rw [hnone] at hrun
    cases hrun
  rw [hok] at hrun
  cases hrun
  by_contra hroom
  obtain ⟨hfull, hsite⟩ : (k.pm.pages pg).ppRef = BitVec.allOnes 16 ∧
      target k.pm k.roots (.pte e (pdx va) (ptx va)) ≠ some pg := by
    simpa only [Kernel.Room, not_or, not_not] using hroom
  have hmany : refs (target k.pm k.roots) pg = 65535 := by
    rw [← h.mem.alloc.count pg hp.avail]
    exact congrArg BitVec.toNat hfull
  -- every reference to the page is still there, and one more
  have hkept : ∀ s, target k.pm k.roots s = some pg → target pm' k.roots s = some pg := by
    intro s hs
    have hne : s ≠ .pte e (pdx va) (ptx va) := by rintro rfl; exact hsite hs
    have hne' : s ≠ .pde e (pdx va) := by
      rintro rfl
      exact hp.not_table (Or.inr ⟨.pde e (pdx va), trivial, hs⟩)
    cases s with
    | dir e' => exact hs
    | pde _ _ | pte _ _ _ | kern _ =>
      rw [target, hent, update_of_ne hne, update_of_ne hne']
      exact hs
  have hnew : target pm' k.roots (.pte e (pdx va) (ptx va)) = some pg := by
    rw [target, hent, update_self, Option.map_some,
      pgnum_mkPte (h.mem.lt_two_pow hp.avail.1) hflags]
  have hlt := refs_lt_refs hkept hsite hnew
  have hle : refs (target pm' k.roots) pg ≤ 65535 := hno pg
  omega

/-- A new status for an environment that no other CPU runs, or that is not up
for the scheduler afterwards. -/
theorem newStatus (h : KernelInv held (some cpu) k) (huse : k.InUse cpu e)
    (hdir : (f (k.envs e)).envPgdir = (k.envs e).envPgdir)
    (hlink : (f (k.envs e)).envLink = (k.envs e).envLink) (hfree : (f (k.envs e)).envStatus ≠ .free)
    (hrun : (f (k.envs e)).envStatus = .runnable → ¬ k.RunsElsewhere cpu e) :
    KernelInv held (some cpu) (k.modifyEnv e f) := by
  refine h.modifyEnv hdir hlink (by simp [hfree, h.inUse huse]) fun q hq hc hst => ?_
  exact hrun hst ⟨q, fun hqc => hq (by rw [hqc]), hc⟩

/-- A change that leaves the status alone. -/
theorem sameStatus (h : KernelInv held own k) (hdir : (f (k.envs e)).envPgdir = (k.envs e).envPgdir)
    (hlink : (f (k.envs e)).envLink = (k.envs e).envLink)
    (hst : (f (k.envs e)).envStatus = (k.envs e).envStatus) :
    KernelInv held own (k.modifyEnv e f) := by
  refine h.modifyEnv hdir hlink (by rw [hst]) fun q hq hc => ?_
  rw [hst]
  exact h.cur_parked q e hq hc

theorem free (h : KernelInv held own k) (hcur : ∀ q, k.curenv q ≠ some e)
    (hrun : envFree cpu e k = .ok () k') : KernelInv held own k' := by
  cases hr : k.roots e with
  | none =>
    have hdir : (k.envs e).envPgdir = none := hr
    simp only [envFree, run_get_bind, hdir] at hrun
    split at hrun <;> cases hrun
  | some r =>
    obtain ⟨pm', hok, hm, -⟩ := envFree_spec (k := k) h.mem hr
    rw [hok] at hrun
    cases hrun
    exact h.freed hr hm hcur

/-- The end of the environment that runs on this CPU. -/
theorem exit (h : KernelInv held own k) (hc : k.curenv cpu = some e)
    (hrun : envFree cpu e k = .ok () k') : KernelInv held own (k'.setCurenv cpu none) := by
  cases hr : k.roots e with
  | none => exact absurd ((h.live e).2 hr) (h.cur_live cpu e hc)
  | some r =>
    obtain ⟨pm', hok, hm, -⟩ := envFree_spec (k := k) h.mem hr
    rw [hok] at hrun
    cases hrun
    have hswap : (k.freed e pm').setCurenv cpu none = (k.setCurenv cpu none).freed e pm' := rfl
    rw [hswap]
    refine h.dropCur.freed hr hm fun q hq => ?_
    by_cases hqc : q = cpu
    · subst hqc
      rw [Kernel.curenv_setCurenv] at hq
      cases hq
    · rw [Kernel.curenv_setCurenv_of_ne hqc] at hq
      exact hqc (h.cur_once q cpu e hq hc)

theorem head_free (h : KernelInv held own k) (hf : k.envFreeList = some e) :
    (k.envs e).envStatus = .free := by
  obtain ⟨l, hc, -, hmem⟩ := h.freeEnvs
  rw [hf] at hc
  cases l with
  | nil => exact absurd (Chain.nil_iff.1 hc) (by simp)
  | cons e' t =>
    obtain rfl : e = e' := by simpa using (Chain.cons_iff.1 hc).1
    exact (hmem e).1 (List.mem_cons_self ..)

/-- What `env_alloc` returns is a slot that was free. -/
theorem envAlloc_inv (h : KernelInv held own k) {parentId : Word}
    (hrun : envAlloc parentId k = .ok (.ok e) k') :
    ∃ p pm', k.envFreeList = some e ∧ k.pm.pageFreeList = some p ∧
      k' = k.allocated e p pm' parentId ∧ pm'.boot = k.pm.boot ∧
      MemInv pm' (update k.roots e (some p)) held ∧
      entry pm' (update k.roots e (some p)) = entry k.pm k.roots := by
  cases hf : k.envFreeList with
  | none =>
    simp only [envAlloc, run_get_bind, hf, run_pure] at hrun
    cases hrun
  | some e₀ =>
    have hr : k.roots e₀ = none := (h.live e₀).1 (h.head_free hf)
    rcases envAlloc_spec (k := k) h.mem hf hr with
      ⟨hno, -⟩ | ⟨p, pm', hp, hok, hm, hb, he⟩
    · rw [hno] at hrun
      cases hrun
    · rw [hok] at hrun
      cases hrun
      exact ⟨p, pm', rfl, hp, rfl, hb, hm, he⟩

/-- Mapping a new page. -/
theorem mapNew (h : KernelInv held own k) {pm₁ pm₂ : PhysMem} (hr : k.roots e = some r)
    (hva : va < UTOP) (hperm : permOk perm = true)
    (halloc : pageAlloc true k.pm = .ok (some pg) pm₁)
    (hins : pageInsert r pg va perm pm₁ = .ok (.ok ()) pm₂) :
    KernelInv held own { k with pm := pm₂ } := by
  obtain ⟨hm, hown, href, hnew⟩ := h.mem.pageAlloc_inv halloc
  refine h.insert hm ?_ hr hva hown hperm (Or.inl ?_) hins
  · exact Finset.erase_insert hnew
  · rw [href]
    decide

/-- **Safe acts keep the invariant.** -/
theorem act (h : KernelInv held (some cpu) k) (ha : Act True cpu k k') : KernelInv held (some cpu) k' := by
  cases ha with
  | scratch hu => exact h.unchanged hu
  | write hc hw => exact h.setPm (hw.inv h.mem)
  | tick => exact h.congr h.mem rfl rfl rfl
  | mapNew hctl hr hva hperm halloc hins => exact h.mapNew hr hva hperm halloc hins
  | map hmaps hr hins hsafe =>
    obtain ⟨hva, hfits⟩ := hsafe trivial
    have hown := h.mem.owned_of_pte hmaps.target
    have hroom := hfits.elim id (h.room_of_noOverflow hr hva hown hmaps.perm_ok hins)
    have hheld := Finset.erase_eq_of_notMem (h.mem.not_held hmaps.target)
    exact h.insert h.mem hheld hr hva hown hmaps.perm_ok hroom hins
  | @unmap e r va pm' hctl hr hva hrun =>
    obtain ⟨pm₁, hok, hm, -⟩ := h.mem.pageRemove_spec hr (pdx_lt_utopDx.2 hva)
    rw [hok] at hrun
    cases hrun
    exact h.setPm hm
  | @setStatus e s hctl huse hs hsafe =>
    refine h.newStatus huse rfl rfl ?_ fun hst => hsafe trivial hst
    rcases hs with rfl | rfl <;> simp
  | setTf hctl => exact h.sameStatus rfl rfl rfl
  | setUpcall hctl => exact h.sameStatus rfl rfl rfl
  | deliver hc huse hrecv hsafe => exact h.newStatus huse rfl rfl (by simp) fun _ => hsafe trivial
  | recv hc => exact h.newStatus (Or.inr hc) rfl rfl (by simp) fun hst => absurd hst (by simp)
  | @fork c e k₁ hc hrun =>
    obtain ⟨p, pm', hf, -, rfl, -, hm, -⟩ := h.envAlloc_inv hrun
    refine (h.allocated hf hm).newStatus (Or.inl ?_) rfl rfl (by simp)
      fun hst => absurd hst (by simp)
    simp [Kernel.allocated, Kernel.modifyEnv]
  | mark hctl hst hcur =>
    refine h.newStatus (Or.inl (by simp [hst])) rfl rfl (by simp) fun hst => absurd hst (by simp)
  | free hctl hcur hsafe hrun =>
    refine h.free (fun q hq => ?_) hrun
    by_cases hqc : q = cpu
    · exact hcur (hqc ▸ hq)
    · exact hsafe trivial ⟨q, hqc, hq⟩
  | exit hc hrun => exact h.exit hc hrun

theorem acts (h : KernelInv held (some cpu) k) (ha : Relation.ReflTransGen (Act True cpu) k k') :
    KernelInv held (some cpu) k' := by
  induction ha with
  | refl => exact h
  | tail _ ha ih => exact ih.act ha

/-! ### The scheduler -/

/-- The CPU leaves the kernel. -/
theorem leave (h : KernelInv held (some cpu) k)
    (hst : ∀ e, k.curenv cpu = some e → (k.envs e).envStatus ≠ .runnable) : KernelInv held none k := by
  refine { h with cur_parked := fun q e _ hc => ?_ }
  by_cases hq : q = cpu
  · subst hq
    exact hst e hc
  · exact h.cur_parked q e (fun heq => hq (by simpa using heq.symm)) hc

theorem park (h : KernelInv held (some cpu) k) : KernelInv held (some cpu) (k.park cpu) := by
  unfold Kernel.park
  cases hc : k.curenv cpu with
  | none => exact h
  | some c =>
    dsimp only
    split
    · refine h.newStatus (Or.inr hc) rfl rfl (by simp) fun _ helse => ?_
      obtain ⟨q, hq, hqc⟩ := helse
      exact hq (h.cur_once q cpu c hqc hc)
    · exact h

/-- The CPU takes an environment that no other CPU runs. -/
theorem takeCur (h : KernelInv held (some cpu) k) (hst : (k.envs e).envStatus ≠ .free)
    (hnot : ¬ k.RunsElsewhere cpu e) : KernelInv held (some cpu) (k.setCurenv cpu (some e)) := by
  have hself := k.curenv_setCurenv cpu (some e)
  have hother : ∀ {q}, q ≠ cpu → (k.setCurenv cpu (some e)).curenv q = k.curenv q :=
    Kernel.curenv_setCurenv_of_ne
  refine ⟨h.mem, h.live, h.freeEnvs, fun q e' hc => ?_, fun q q' e' hc hc' => ?_,
    fun q e' hq hc => ?_⟩
  · by_cases hq : q = cpu
    · subst hq
      obtain rfl : e = e' := by simpa [hself] using hc
      exact hst
    · exact h.cur_live q e' (hother hq ▸ hc)
  · by_cases hq : q = cpu <;> by_cases hq' : q' = cpu
    · rw [hq, hq']
    · subst hq
      obtain rfl : e = e' := by simpa [hself] using hc
      exact absurd ⟨q', hq', hother hq' ▸ hc'⟩ hnot
    · subst hq'
      obtain rfl : e = e' := by simpa [hself] using hc'
      exact absurd ⟨q, hq, hother hq ▸ hc⟩ hnot
    · exact h.cur_once q q' e' (hother hq ▸ hc) (hother hq' ▸ hc')
  · have hne : q ≠ cpu := fun heq => hq (by rw [heq])
    exact h.cur_parked q e' hq (hother hne ▸ hc)

/-- **`env_run`** of an environment that no other CPU runs. -/
theorem envRun (h : KernelInv held (some cpu) k) (hnot : ¬ k.RunsElsewhere cpu e)
    (hl : Leaves (Jos.envRun cpu e) k k') : KernelInv held none k' := by
  obtain ⟨rfl, r, hr⟩ := envRun_leaves hl
  have hroots : ((k.park cpu).envs e).envPgdir = some r := by
    rcases k.park_envs cpu e with he | ⟨-, -, he⟩ <;> rw [he] <;> exact hr
  have hrun : ¬ (k.park cpu).RunsElsewhere cpu e := by
    simpa only [Kernel.RunsElsewhere, Kernel.park_curenv] using hnot
  have hcur := h.park.takeCur (h.park.status_of_root hroots) hrun
  refine leave (hcur.newStatus (Or.inr ?_) rfl rfl (by simp) fun hst => absurd hst (by simp)) ?_
  · exact Kernel.curenv_setCurenv ..
  · intro e' hc
    have hc' : ((k.park cpu).setCurenv cpu (some e)).curenv cpu = some e' := hc
    obtain rfl : e = e' := by simpa using hc'
    simp [Kernel.switched, Kernel.modifyEnv]

theorem schedHalt (h : KernelInv held (some cpu) k) (hl : Leaves (Jos.schedHalt cpu) k k') :
    KernelInv held none k' := by
  have hk : KernelInv held (some cpu) ((k.setCurenv cpu none).setCpuStatus cpu .halted) :=
    h.dropCur.congr h.mem rfl rfl (Kernel.curenv_setCpuStatus ..)
  obtain rfl := schedHalt_leaves hl
  refine hk.leave fun e hc => ?_
  rw [Kernel.curenv_setCpuStatus, Kernel.curenv_setCurenv] at hc
  cases hc

/-- **`sched_yield`** picks an environment that no other CPU runs. -/
theorem schedYield (h : KernelInv held (some cpu) k) (hl : Leaves (Jos.schedYield cpu) k k') :
    KernelInv held none k' := by
  have hset : ∀ e, KernelInv held (some cpu) (k.setCpunum e cpu) := fun e => h.sameStatus rfl rfl rfl
  rcases schedYield_cases k cpu with ⟨e, hst, hy⟩ | ⟨e, hc, -, hy⟩ | hy | hy <;> rw [Leaves, hy] at hl
  · refine (hset e).envRun ?_ hl
    rintro ⟨q, hq, hqe⟩
    exact h.cur_parked q e (fun heq => hq (by simpa using heq.symm)) hqe hst
  · refine (hset e).envRun ?_ hl
    rintro ⟨q, hq, hqe⟩
    exact hq (h.cur_once q cpu e hqe hc)
  · exact h.schedHalt hl
  · rcases hl with hl | hl <;> cases hl

theorem resched (h : KernelInv held (some cpu) k) (hs : Resched cpu k k') : KernelInv held none k' := by
  rcases hs with hl | ⟨c, hc, hl⟩
  · exact h.schedYield hl
  · refine h.envRun ?_ hl
    rintro ⟨q, hq, hqc⟩
    exact hq (h.cur_once q cpu c hqc hc)

/-- **Careful steps keep the invariant.** -/
theorem step {ev : Event} (h : KernelInv held none k) (hs : Step k ev k') (henv : EnvCareful k ev)
    (hdst : DstCareful k ev) (hroom : RoomCareful k ev ∨ k'.NoOverflow) : KernelInv held none k' := by
  rcases step_cases h.mem hs (fun _ : True => henv) (fun _ => hdst) (fun _ => hroom) with
    ⟨c, k₁, -, ha, hr⟩ | ⟨t, -, hl⟩ | ⟨c, m, -, hw, rfl⟩
  · exact ((h.enter ev.cpu).acts ha).resched hr
  · have hk : KernelInv held none { k.setCpuStatus ev.cpu .started with ticks := t } :=
      h.congr h.mem rfl rfl (Kernel.curenv_setCpuStatus ..)
    exact (hk.enter ev.cpu).schedYield hl
  · exact h.setPm (hw.inv h.mem)

/-- **The invariant holds in every careful run.** -/
theorem run (h : KernelInv held none k) (hr : Runs Careful k k') : KernelInv held none k' :=
  hr.inv h fun _ _ _ hk hc hs => hk.step hs hc.env hc.dst (Or.inl hc.room)

end KernelInv

end Jos
