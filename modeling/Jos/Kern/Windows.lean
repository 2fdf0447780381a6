import Jos.Kern.BootSpec
import Jos.Kern.PmapRefine

/-!
# What user code sees of the kernel's address space

`mem_init` maps the arrays `pages` and `envs` at `UPAGES` and `UENVS`, readable
for user code.  Both mappings are as long as a page table reaches, `PTSIZE`
bytes, whatever the length of the array.  This file computes which physical
pages can be read there.

The abstract view of `kern_pgdir` is a map from addresses to page table entries
(`kernMap`).  Adding an empty page table does not change it, so `pgdir_walk`
leaves it alone, and `boot_map_region` is the update of an interval
(`lays_bootMapLoop`).  Everything `mem_init` maps above `ULIM` is out of reach of
user code (`Dark`).

* `memInit_windows` — the view of `kern_pgdir` after `mem_init`: the two windows,
  and nothing else that user code can read.
* `confined_iff` — no page of the allocator can be read if and only if there is
  no memory behind `envs`; pages outside the arrays can be read in any case.
-/

namespace Jos

/-! ## The view of `kern_pgdir` -/

/-- A page table entry for each address. -/
abbrev PageMap := Word → Word

/-- The entry `kern_pgdir` has for an address, zero if there is no page table. -/
def kernMap (pm : PhysMem) : PageMap := fun va =>
  match target pm noRoots (.kern (pdx va)) with
  | some q => pm.mem q (ptx va)
  | none => 0#32

/-- The invariant of `kern_pgdir` while it is built: the upper level of the page
table leaves all restrictions to the lower one. -/
structure KernTables (b : BootInfo) (pm : PhysMem) : Prop extends KernMem b pm where
  user : ∀ d, utopDx ≤ d → d ≠ uvptDx → present (pm.mem b.kernPgdir d) = true →
    grants (pm.mem b.kernPgdir d) (PTE_P ||| PTE_U) = true

section View

variable {b : BootInfo} {pm pm' : PhysMem} {va : Word}

theorem kernMap_some {q : ℕ} (h : target pm noRoots (.kern (pdx va)) = some q) :
    kernMap pm va = pm.mem q (ptx va) := by
  rw [kernMap, h]

theorem kernMap_none (h : target pm noRoots (.kern (pdx va)) = none) : kernMap pm va = 0#32 := by
  rw [kernMap, h]

/-- The view depends on `kern_pgdir` and its page tables only. -/
theorem kernMap_congr (ht : target pm' noRoots = target pm noRoots)
    (hmem : ∀ d q, target pm noRoots (.kern d) = some q → pm'.mem q = pm.mem q) :
    kernMap pm' = kernMap pm := by
  funext va
  cases h : target pm noRoots (.kern (pdx va)) with
  | none => rw [kernMap_none h, kernMap_none (by rw [ht, h])]
  | some q => rw [kernMap_some h, kernMap_some (by rw [ht, h]), hmem _ _ h]

/-- User code can read physical page `p` at `va`. -/
def UserReads (pm : PhysMem) (dir : ℕ) (va : Word) (p : ℕ) : Prop :=
  translates pm dir va (PTE_P ||| PTE_U) = true ∧
    pgnum (pm.mem (pgnum (pm.mem dir (pdx va))) (ptx va)) = p

variable {p : ℕ}

/-- What the processor checks and uses is the entry of the view. -/
theorem userReads_iff (h : KernTables b pm) (hva : InKern va) :
    UserReads pm b.kernPgdir va p ↔
      grants (kernMap pm va) (PTE_P ||| PTE_U) = true ∧ pgnum (kernMap pm va) = p := by
  have ht : target pm noRoots (.kern (pdx va)) = _ := target_kern hva.1 hva.2 noRoots
  rw [h.boot] at ht
  cases hp : present (pm.mem b.kernPgdir (pdx va)) with
  | true =>
    rw [pageOf, if_pos hp] at ht
    rw [UserReads, translates, h.user _ hva.1 hva.2 hp, kernMap_some ht, Bool.true_and]
  | false =>
    rw [pageOf, hp] at ht
    have hno : grants (pm.mem b.kernPgdir (pdx va)) (PTE_P ||| PTE_U) = false := by
      by_contra hyes
      rw [Bool.not_eq_false] at hyes
      rw [present_of_grants (grants_of_or hyes).1] at hp
      cases hp
    have hzero : grants 0#32 (PTE_P ||| PTE_U) = false := by decide
    rw [UserReads, translates, hno, Bool.false_and, kernMap_none ht, hzero]
    simp

theorem grants_user_newPde (p : ℕ) : grants (PhysMem.newPde p) (PTE_P ||| PTE_U) = true := by
  have hcomm : PTE_U ||| PTE_P = PTE_P ||| PTE_U := by decide
  rw [PhysMem.newPde, BitVec.or_assoc (page2pa p), hcomm]
  exact grants_or (grants_or_self _ _)

/-- Memory after a page table was added. -/
theorem mem_newTable {r : ℕ} {d : Idx} (q : ℕ) (t : Idx) :
    (pm.newTable r d p).mem q t
      = if q = r ∧ t = d then PhysMem.newPde p else if q = p then 0#32 else pm.mem q t := by
  have hzero : (((pm.takeFree p).setPage p fun _ => 0#32).incr p).mem q t
      = if q = p then 0#32 else pm.mem q t := by
    show Function.update pm.mem p (fun _ => 0#32) q t = _
    rw [Function.update_apply]
    split <;> rfl
  rw [PhysMem.newTable, PhysMem.write, ← hzero]
  by_cases hq : q = r
  · subst hq
    by_cases ht : t = d
    · simp [ht]
    · simp [ht]
  · simp [hq]

/-- An empty page table shows nothing new. -/
theorem kernMap_newTable (h : KernMem b pm) {d : Idx} (hf : pm.pageFreeList = some p)
    (hd : utopDx ≤ d) (hne : d ≠ uvptDx) (hn : present (pm.mem b.kernPgdir d) = false) :
    kernMap (pm.newTable b.kernPgdir d p) = kernMap pm := by
  obtain ⟨h, rfl⟩ := h
  obtain ⟨hav, -, h0⟩ := h.head_spec hf
  have ht := target_update (h.newKernTable hf hd hne hn).2 (by simp)
  rw [Option.map_some, pgnum_newPde (h.lt_two_pow hav.1)] at ht
  have hkp : p ≠ pm.boot.kernPgdir := fun heq => h.table.kern_reserved (heq ▸ hav)
  funext va
  by_cases hva : pdx va = d
  · subst hva
    have hold : target pm noRoots (.kern (pdx va)) = none := by
      rw [target_kern hd hne, pageOf, hn]; rfl
    rw [kernMap_none hold, kernMap_some (q := p) (by rw [ht, Function.update_self]),
      mem_newTable, if_neg (fun hp => hkp hp.1), if_pos rfl]
  · have hsame : target (pm.newTable pm.boot.kernPgdir d p) noRoots (.kern (pdx va))
        = target pm noRoots (.kern (pdx va)) := by
      rw [ht, Function.update_of_ne (by simpa using hva)]
    cases hq : target pm noRoots (.kern (pdx va)) with
    | none => rw [kernMap_none hq, kernMap_none (hsame.trans hq)]
    | some q =>
      have hqp : q ≠ p := by
        rintro rfl
        exact refs_eq_zero.1 h0 _ hq
      rw [kernMap_some hq, kernMap_some (hsame.trans hq), mem_newTable,
        if_neg (fun hk => h.target_ne_kern hq hk.1), if_neg hqp]

/-- `pgdir_walk` leaves the view alone. -/
theorem kernWalk_kernMap {pte : PtePtr} (h : KernTables b pm) (hva : InKern va)
    (hrun : pgdirWalk b.kernPgdir va true pm = .ok (some pte) pm') :
    KernTables b pm' ∧ kernMap pm' = kernMap pm ∧ pte.idx = ptx va ∧
      target pm' noRoots (.kern (pdx va)) = some pte.page := by
  have hk := h.toKernMem
  obtain ⟨hinv, rfl⟩ := hk
  rcases kernWalk_spec h.toKernMem hva.1 hva.2 with ⟨hno, -⟩ | ⟨q, pm₁, hyes, hq, hk', -⟩
  · rw [hno] at hrun
    cases hrun
  rw [hyes] at hrun
  obtain ⟨rfl, rfl⟩ : ⟨q, ptx va⟩ = pte ∧ pm₁ = pm' := by simpa using hrun
  cases hp : present (pm.mem pm.boot.kernPgdir (pdx va)) with
  | true =>
    have ht : target pm noRoots (.kern (pdx va)) = _ := target_kern hva.1 hva.2 noRoots
    rw [pageOf, if_pos hp] at ht
    rw [pgdirWalk_present hp (hinv.lt_npages ht)] at hyes
    cases hyes
    exact ⟨h, rfl, rfl, hq⟩
  | false =>
    cases hf : pm.pageFreeList with
    | none =>
      rw [pgdirWalk_noMem hp hf] at hyes
      cases hyes
    | some p =>
      obtain ⟨hav, -, -⟩ := hinv.head_spec hf
      rw [pgdirWalk_new hp hf hav.1 (hinv.lt_two_pow hav.1)] at hyes
      cases hyes
      refine ⟨⟨hk', fun d hd hne hpres => ?_⟩,
        kernMap_newTable h.toKernMem hf hva.1 hva.2 hp, rfl, hq⟩
      have hkp : pm.boot.kernPgdir ≠ q := fun heq => hinv.table.kern_reserved (heq ▸ hav)
      rw [mem_newTable] at hpres ⊢
      by_cases hdd : d = pdx va
      · rw [if_pos ⟨rfl, hdd⟩]
        exact grants_user_newPde q
      · rw [if_neg (fun hx => hdd hx.2), if_neg hkp] at hpres ⊢
        exact h.user d hd hne hpres

/-- Writing an entry is an update of the view at the addresses of one page. -/
theorem kernMap_write (h : KernTables b pm) {q : ℕ} {w : Word}
    (hq : target pm noRoots (.kern (pdx va)) = some q)
    (hw : grants w (PTE_P ||| PTE_W ||| PTE_U) = false) :
    KernTables b (pm.write ⟨q, ptx va⟩ w) ∧
      ∀ a, kernMap (pm.write ⟨q, ptx va⟩ w) a
        = if pgnum a = pgnum va then w else kernMap pm a := by
  have hqk : q ≠ b.kernPgdir := h.boot ▸ h.inv.target_ne_kern hq
  obtain ⟨hinv, he⟩ := h.inv.write_kernPte (t := ptx va) hq hw
  have ht := target_congr he
  refine ⟨⟨⟨hinv, h.boot⟩, fun d hd hne hp => ?_⟩, fun a => ?_⟩
  · have hmem : (pm.write ⟨q, ptx va⟩ w).mem b.kernPgdir = pm.mem b.kernPgdir :=
      Function.update_of_ne hqk.symm ..
    rw [hmem] at hp ⊢
    exact h.user d hd hne hp
  · by_cases ha : pgnum a = pgnum va
    · obtain ⟨hd, hx⟩ := indexes_of_pgnum_eq ha
      rw [if_pos ha, kernMap_some (q := q) (by rw [ht, hd, hq]), hx]
      simp [PhysMem.write]
    · rw [if_neg ha]
      cases hqa : target pm noRoots (.kern (pdx a)) with
      | none => rw [kernMap_none hqa, kernMap_none (by rw [ht, hqa])]
      | some q' =>
        rw [kernMap_some hqa, kernMap_some (q := q') (by rw [ht, hqa])]
        -- the same table and the same slot would be the same page
        by_cases hqq : q' = q
        · subst hqq
          have hsite := h.inv.site_unique (s := .kern (pdx va)) trivial hq hqa
          have hdx : pdx a = pdx va := by simpa using hsite
          have hptx : ptx a ≠ ptx va := fun hx => ha (pgnum_eq_of_indexes hdx hx)
          simp [PhysMem.write, hptx]
        · simp [PhysMem.write, hqq]

/-- A self-test leaves the view alone. -/
theorem SelfTested.kernMap (h : SelfTested pm pm') (hk : KernTables b pm) :
    KernTables b pm' ∧ kernMap pm' = kernMap pm := by
  have htab := h.tables hk.toKernMem
  have hdir := htab _ (Or.inl rfl)
  rw [hk.boot] at hdir
  refine ⟨⟨(h.kernMem hk.toKernMem).1, fun d hd hne hp => ?_⟩,
    kernMap_congr (target_congr (entry_congr h.boot htab)) fun d q hq => ?_⟩
  · rw [hdir] at hp ⊢
    exact hk.user d hd hne hp
  · exact htab q (Or.inr ⟨.kern d, trivial, hq⟩)

end View

/-! ## Code that builds `kern_pgdir` -/

/-- What the code does to the view of `kern_pgdir`, if it returns. -/
structure Lays (b : BootInfo) {α : Type} (x : PhysM α) (R : α → PageMap → PageMap → Prop) :
    Prop where
  lays : ∀ {pm a pm'}, KernTables b pm → x pm = .ok a pm' →
    KernTables b pm' ∧ R a (kernMap pm) (kernMap pm')

/-- Nothing changes but entries above `ULIM`, and those are not for user code. -/
def Dark (m m' : PageMap) : Prop :=
  ∀ a, m' a = m a ∨ ULIM.toNat ≤ a.toNat ∧ grants (m' a) (PTE_P ||| PTE_U) = false

theorem Dark.refl (m : PageMap) : Dark m m := fun _ => Or.inl rfl

theorem Dark.trans {m₁ m₂ m₃ : PageMap} (h : Dark m₁ m₂) (h' : Dark m₂ m₃) : Dark m₁ m₃ := by
  intro a
  rcases h' a with h₂ | h₂
  · rw [h₂]
    exact h a
  · exact Or.inr h₂

instance : IsPreorder PageMap Dark where
  refl := Dark.refl
  trans _ _ _ := Dark.trans

/-- Pages from `va` on are mapped to memory from `pa` on. -/
def Region (va pa perm : Word) (n : ℕ) (m m' : PageMap) : Prop :=
  ∀ a, m' a =
    if pgnum va ≤ pgnum a ∧ pgnum a < pgnum va + n then
      pa + BitVec.ofNat 32 ((pgnum a - pgnum va) * PGSIZE) ||| perm ||| PTE_P
    else m a

variable {va base : Word} {n : ℕ} {m : PageMap} {b : BootInfo} {cfg : BootConfig}

section Lays

variable {b : BootInfo} {α β : Type} {x : PhysM α} {f : α → PhysM β}
  {R : PageMap → PageMap → Prop} [IsPreorder PageMap R]

theorem lays_pure {a : α} : Lays b (pure a) fun _ => R :=
  ⟨fun h hrun => by cases hrun; exact ⟨h, refl_of R _⟩⟩

theorem Lays.mono {R R' : α → PageMap → PageMap → Prop} (hx : Lays b x R)
    (h : ∀ a m m', R a m m' → R' a m m') : Lays b x R' :=
  ⟨fun hk hrun => ⟨(hx.lays hk hrun).1, h _ _ _ (hx.lays hk hrun).2⟩⟩

/-- One piece of code after another. -/
theorem lays_bind (hx : Lays b x fun _ => R) (hf : ∀ a, Lays b (f a) fun _ => R) :
    Lays b (x >>= f) fun _ => R := by
  refine ⟨fun h hrun => ?_⟩
  obtain ⟨a, pm₁, h₁, h₂⟩ := run_bind_inv hrun
  obtain ⟨hk₁, hd₁⟩ := hx.lays h h₁
  obtain ⟨hk₂, hd₂⟩ := (hf a).lays hk₁ h₂
  exact ⟨hk₂, trans_of R hd₁ hd₂⟩

theorem lays_forM {γ : Type} {g : γ → PhysM Unit} {l : List γ}
    (h : ∀ a ∈ l, Lays b (g a) fun _ => R) : Lays b (l.forM g) fun _ => R := by
  induction l with
  | nil => exact lays_pure
  | cons a l ih =>
    exact lays_bind (h a (List.mem_cons_self ..))
      fun _ => ih fun a' ha' => h a' (List.mem_cons_of_mem _ ha')

theorem lays_selfTest (t : SelfTest) : Lays b (modify t.run) fun _ => R := by
  refine ⟨fun {pm a pm'} h hrun => ?_⟩
  cases hrun
  obtain ⟨hk, hm⟩ := (t.spec pm).kernMap h
  exact ⟨hk, hm ▸ refl_of R _⟩

theorem lays_checkKernPgdir : Lays b checkKernPgdir fun _ => R := by
  refine ⟨fun {pm a pm'} h hrun => ?_⟩
  have hn : ¬ pm.boot.npages > 65536 := Nat.not_lt.2 h.inv.table.npages_le
  rw [checkKernPgdir, run_get_bind, if_neg hn] at hrun
  cases hrun
  exact ⟨h, refl_of R _⟩

theorem pgnum_add_page (h : pgnum va + 1 < 2 ^ 20) :
    pgnum (va + BitVec.ofNat 32 PGSIZE) = pgnum va + 1 := by
  rw [pgnum_eq] at h ⊢
  rw [pgnum_eq, BitVec.toNat_add, BitVec.toNat_ofNat, PGSIZE]
  omega

variable {pa perm size : Word}

/-- The first page of a region, and then the others. -/
theorem Region.cons {m₁ m₂ : PageMap} (hn : pgnum va + n < 2 ^ 20)
    (h₁ : ∀ a, m₁ a = if pgnum a = pgnum va then pa ||| perm ||| PTE_P else m a)
    (h₂ : Region (va + BitVec.ofNat 32 PGSIZE) (pa + BitVec.ofNat 32 PGSIZE) perm n m₁ m₂) :
    Region va pa perm (n + 1) m m₂ := by
  intro a
  rw [h₂ a, h₁ a]
  by_cases hn0 : n = 0
  · subst hn0
    rw [if_neg (by omega)]
    by_cases ha : pgnum a = pgnum va
    · rw [if_pos ha, if_pos (by omega), ha, Nat.sub_self, Nat.zero_mul, BitVec.add_zero]
    · rw [if_neg ha, if_neg (by omega)]
  · rw [pgnum_add_page (by omega)]
    by_cases ha : pgnum a = pgnum va
    · rw [if_neg (by omega), if_pos ha, if_pos (by omega), ha, Nat.sub_self, Nat.zero_mul,
        BitVec.add_zero]
    · by_cases hin : pgnum va + 1 ≤ pgnum a ∧ pgnum a < pgnum va + 1 + n
      · have hk : pgnum a - pgnum va = 1 + (pgnum a - (pgnum va + 1)) := by omega
        rw [if_pos hin, if_pos (by omega), hk, Nat.add_mul, Nat.one_mul, BitVec.ofNat_add,
          BitVec.add_assoc]
      · rw [if_neg hin, if_neg ha, if_neg (by omega)]

/-- The loop of `boot_map_region` is the update of an interval. -/
theorem lays_bootMapLoop (hperm : KernPerm perm) (n : ℕ) :
    ∀ va pa : Word, pgoff pa = 0#32 → pgnum va + n ≤ 2 ^ 20 →
      (∀ i < n, InKern (va + BitVec.ofNat 32 (i * PGSIZE))) →
      Lays b (bootMapLoop b.kernPgdir perm n va pa) fun _ => Region va pa perm n := by
  induction n with
  | zero =>
    refine fun va pa _ _ _ => ⟨fun h hrun => ?_⟩
    cases hrun
    exact ⟨h, fun a => by rw [if_neg (by omega)]⟩
  | succ n ih =>
    intro va pa hpa hn hva
    have h0 := hva 0 (by omega)
    rw [Nat.zero_mul, BitVec.add_zero] at h0
    refine ⟨fun {pm a pm'} h hrun => ?_⟩
    obtain ⟨o, pm₁, hwalk, hrun⟩ := run_bind_inv hrun
    cases o with
    | none => cases hrun
    | some pte =>
      obtain ⟨hk₁, hm₁, hidx, hq⟩ := kernWalk_kernMap h h0 hwalk
      obtain ⟨hk₂, hm₂⟩ := kernMap_write hk₁ hq (hperm pa hpa)
      rw [← hidx, hm₁] at hm₂
      rw [← hidx] at hk₂
      have hrest := ih (va + BitVec.ofNat 32 PGSIZE) (pa + BitVec.ofNat 32 PGSIZE)
        (pgoff_add_page hpa) ?_ fun i hi => ?_
      · obtain ⟨hk₃, hm₃⟩ := hrest.lays hk₂ hrun
        exact ⟨hk₃, Region.cons (by omega) hm₂ hm₃⟩
      · by_cases hn0 : n = 0
        · subst hn0
          rw [pgnum_eq]
          have := (va + BitVec.ofNat 32 PGSIZE).isLt
          omega
        · rw [pgnum_add_page (by omega)]
          omega
      · have := hva (i + 1) (by omega)
        rwa [Nat.succ_mul, Nat.add_comm, BitVec.ofNat_add, ← BitVec.add_assoc] at this

/-- `boot_map_region` in the kernel's part of the address space. -/
theorem lays_bootMapRegion (hperm : KernPerm perm) (hpa : pgoff pa = 0#32)
    (hlo : UTOP.toNat ≤ va.toNat) (hhi : va.toNat + pageCount size * PGSIZE ≤ 2 ^ 32)
    (hout : va.toNat + pageCount size * PGSIZE ≤ UVPT.toNat ∨ ULIM.toNat ≤ va.toNat) :
    Lays b (bootMapRegion b.kernPgdir va size pa perm)
      fun _ => Region va pa perm (pageCount size) :=
  lays_bootMapLoop hperm (pageCount size) va pa hpa
    (by rw [pgnum_eq]; rw [PGSIZE] at hhi; omega) fun _ hi => inKern_region hlo hhi hout hi

/-- A region above `ULIM` without `PTE_U`. -/
theorem Region.dark {m' : PageMap} (hpa : pgoff pa = 0#32) (hva : ULIM.toNat ≤ va.toNat)
    (hperm : grants (perm ||| PTE_P) (PTE_P ||| PTE_U) = false) (h : Region va pa perm n m m') :
    Dark m m' := by
  intro a
  rw [h a]
  split
  · next hin =>
      have hle := hin.1
      rw [pgnum_eq, pgnum_eq] at hle
      rw [ULIM_toNat] at hva ⊢
      refine Or.inr ⟨by omega, ?_⟩
      rw [grants_aligned (pgoff_add_pages hpa _) (by decide)]
      exact hperm
  · exact Or.inl rfl

/-- A call of `mmio_map_region` that returns has mapped the region. -/
theorem lays_deviceRegion (hpa : pgoff pa = 0#32) (hbase : ULIM.toNat ≤ base.toNat) :
    Lays b (mmioMapRegion b.kernPgdir base pa size) fun base' m m' =>
      base' = base + roundUp size ∧
      ¬ (base + roundUp size ≥ MMIOLIM ∨ base + roundUp size < base) ∧
      Region base pa (PTE_W ||| PTE_PCD ||| PTE_PWT) (pageCount (roundUp size)) m m' := by
  refine ⟨fun {pm a pm'} h hrun => ?_⟩
  rw [mmioMapRegion] at hrun
  by_cases hno : base + roundUp size ≥ MMIOLIM ∨ base + roundUp size < base
  · rw [if_pos hno] at hrun
    cases hrun
  · rw [if_neg hno] at hrun
    obtain ⟨⟨⟩, pm₁, hmap, hret⟩ := run_bind_inv hrun
    obtain ⟨rfl, rfl⟩ : base + roundUp size = a ∧ pm₁ = pm' := by simpa using hret
    have hlo : UTOP.toNat ≤ base.toNat := le_trans (by decide) hbase
    have hperm : KernPerm (PTE_W ||| PTE_PCD ||| PTE_PWT) := kernPerm_of (by decide)
    have hlays := lays_bootMapRegion (b := b) hperm hpa hlo (mmio_fits hbase hno).1 (Or.inr hbase)
    obtain ⟨hk, hr⟩ := hlays.lays h hmap
    exact ⟨hk, rfl, hno, hr⟩

/-- `mmio_map_region`. -/
theorem lays_mmioMapRegion (hpa : pgoff pa = 0#32) (hbase : ULIM.toNat ≤ base.toNat) :
    Lays b (mmioMapRegion b.kernPgdir base pa size)
      fun base' m m' => Dark m m' ∧ base' = base + roundUp size :=
  (lays_deviceRegion hpa hbase).mono fun _ _ _ h => ⟨h.2.2.dark hpa hbase (by decide), h.1⟩

/-- Clearing an entry above `ULIM`. -/
theorem lays_clearKernPte (hva : ULIM.toNat ≤ va.toNat) :
    Lays b (clearKernPte b.kernPgdir va) fun _ => Dark := by
  have hin : InKern va := inKern_of_toNat (le_trans (by decide) hva) (Or.inr hva)
  refine ⟨fun {pm a pm'} h hrun => ?_⟩
  have ht : target pm noRoots (.kern (pdx va)) = _ := target_kern hin.1 hin.2 noRoots
  rw [h.boot] at ht
  cases hp : present (pm.mem b.kernPgdir (pdx va)) with
  | false =>
    rw [clearKernPte, run_bind_ok (pgdirWalk_absent hp)] at hrun
    cases hrun
  | true =>
    rw [pageOf, if_pos hp] at ht
    have hlt : pgnum (pm.mem b.kernPgdir (pdx va)) < pm.boot.npages := h.inv.lt_npages ht
    rw [clearKernPte, run_bind_ok (pgdirWalk_present hp hlt)] at hrun
    cases hrun
    obtain ⟨hk, hm⟩ := kernMap_write h ht (w := 0#32) (by decide)
    refine ⟨hk, fun a => ?_⟩
    rw [hm a]
    split
    · next heq =>
        rw [pgnum_eq, pgnum_eq] at heq
        rw [ULIM_toNat] at hva ⊢
        exact Or.inr ⟨by omega, by decide⟩
    · exact Or.inl rfl

/-- The test of `mmio_map_region`. -/
theorem lays_checkMmio : Lays b (checkMmio b.kernPgdir) fun _ => Dark := by
  refine ⟨fun {pm a pm'} h hrun => ?_⟩
  obtain ⟨mm2, pm₁, h₁, hrun⟩ := run_bind_inv hrun
  have hmm1 : Lays b (mmioMapRegion b.kernPgdir MMIOBASE 0#32 4097#32) _ :=
    lays_mmioMapRegion (by decide) (by decide)
  obtain ⟨hk₁, hd₁, rfl⟩ := hmm1.lays h h₁
  have hrest : Lays b (do
      let base ← mmioMapRegion b.kernPgdir (MMIOBASE + roundUp 4097#32) 0#32 4096#32
      clearKernPte b.kernPgdir MMIOBASE
      clearKernPte b.kernPgdir (MMIOBASE + BitVec.ofNat 32 PGSIZE)
      clearKernPte b.kernPgdir (MMIOBASE + roundUp 4097#32)
      pure base) fun _ => Dark := by
    refine lays_bind ((lays_mmioMapRegion (by decide) (by decide)).mono fun _ _ _ h => h.1)
      fun base => ?_
    refine lays_bind (lays_clearKernPte (by decide)) fun _ => ?_
    refine lays_bind (lays_clearKernPte (by decide)) fun _ => ?_
    exact lays_bind (lays_clearKernPte (by decide)) fun _ => lays_pure
  obtain ⟨hk₂, hd₂⟩ := hrest.lays hk₁ hrun
  exact ⟨hk₂, hd₁.trans hd₂⟩

/-- The kernel stacks: eight pages each, the highest of them right below `KERNBASE`. -/
theorem lays_kstacks {R : PageMap → PageMap → Prop} [IsPreorder PageMap R] (cfg : BootConfig)
    (hR : ∀ i va pa m m', i < 8 → va.toNat = 0xF0000000 - i * 65536 - 32768 → pgoff pa = 0#32 →
      Region va pa PTE_W 8 m m' → R m m') :
    Lays b (memInitMp cfg b.kernPgdir) fun _ => R := by
  refine lays_forM fun i hi => ?_
  have hi8 : i < 8 := List.mem_range.1 hi
  have hva := kstack_toNat hi8
  have hcount : pageCount (BitVec.ofNat 32 KSTKSIZE) = 8 := by decide
  have hlim : ULIM.toNat ≤ (KSTACKTOP - BitVec.ofNat 32 (i * (KSTKSIZE + KSTKSIZE)) -
      BitVec.ofNat 32 KSTKSIZE).toNat := by
    rw [hva, ULIM_toNat]; omega
  refine (lays_bootMapRegion (kernPerm_of (by decide)) (kstackPa_aligned cfg i)
    (le_trans (by decide) hlim) ?_ (Or.inr hlim)).mono fun _ m m' h => ?_
  · rw [hva, hcount, PGSIZE]; omega
  · rw [hcount] at h
    exact hR i _ _ m m' hi8 hva (kstackPa_aligned cfg i) h

theorem lays_memInitMp (cfg : BootConfig) :
    Lays b (memInitMp cfg b.kernPgdir) fun _ => Dark := by
  refine lays_kstacks cfg fun i va pa m m' hi hva hpa h => h.dark hpa ?_ (by decide)
  rw [hva, ULIM_toNat]; omega

end Lays

/-! ## The view after `mem_init` -/

/-- Entry `t` of a window on the memory at `pa`. -/
def windowPte (pa : ℕ) (t : Idx) : Word := BitVec.ofNat 32 (pa + t.val * PGSIZE) ||| PTE_U ||| PTE_P

/-- The view of `kern_pgdir`: two windows, as long as a page table, and nothing
else for user code. -/
structure Windows (cfg : BootConfig) (m : PageMap) : Prop where
  pages : ∀ a, pdx a = pdx UPAGES → m a = windowPte cfg.pagesPa (ptx a)
  envs : ∀ a, pdx a = pdx UENVS → m a = windowPte cfg.envsPa (ptx a)
  others : ∀ a, pdx a ≠ pdx UPAGES → pdx a ≠ pdx UENVS →
    grants (m a) (PTE_P ||| PTE_U) = false

theorem below_ULIM {a : Word} (ha : pdx a = pdx va) (hva : (pdx va).val < 0x3BE) :
    a.toNat < ULIM.toNat := by
  rw [← ha, pdx_val] at hva
  rw [ULIM_toNat]
  omega

/-- A region of `PTSIZE` bytes is what one page table maps. -/
theorem Region.window {pa : ℕ} {m' : PageMap} (hva : pgnum va % 1024 = 0)
    (h : Region va (BitVec.ofNat 32 pa) PTE_U (pageCount (BitVec.ofNat 32 PTSIZE)) m m')
    (a : Word) : m' a = if pdx a = pdx va then windowPte pa (ptx a) else m a := by
  have hcount : pageCount (BitVec.ofNat 32 PTSIZE) = 1024 := by decide
  rw [h a, hcount]
  have hin : (pgnum va ≤ pgnum a ∧ pgnum a < pgnum va + 1024) ↔ pdx a = pdx va := by
    rw [Fin.ext_iff, pdx_val, pdx_val]
    rw [pgnum_eq] at hva ⊢
    rw [pgnum_eq]
    omega
  by_cases ha : pdx a = pdx va
  · have hoff : pgnum a - pgnum va = (ptx a).val := by
      have := hin.2 ha
      rw [ptx_val, ← pgnum_eq]
      omega
    rw [if_pos (hin.2 ha), if_pos ha, hoff, windowPte, BitVec.ofNat_add]
  · rw [if_neg (hin.not.2 ha), if_neg ha]

/-- What `mem_init` does after the two windows. -/
def memInitUpper (cfg : BootConfig) (dir : ℕ) (base : Word) : PhysM Word := do
  bootMapRegion dir (KSTACKTOP - BitVec.ofNat 32 KSTKSIZE) (BitVec.ofNat 32 KSTKSIZE)
    cfg.bootstack PTE_W
  bootMapRegion dir KERNBASE (0xffffffff#32 - KERNBASE) 0#32 PTE_W
  memInitMp cfg dir
  checkKernPgdir
  modify cfg.installedTests.run
  pure base

theorem lays_bootstack (cfg : BootConfig) :
    Lays b (bootMapRegion b.kernPgdir (KSTACKTOP - BitVec.ofNat 32 KSTKSIZE)
      (BitVec.ofNat 32 KSTKSIZE) cfg.bootstack PTE_W) fun _ =>
        Region (KSTACKTOP - BitVec.ofNat 32 KSTKSIZE) cfg.bootstack PTE_W
          (pageCount (BitVec.ofNat 32 KSTKSIZE)) :=
  lays_bootMapRegion (kernPerm_of (by decide)) cfg.bootstack_aligned (by decide) (by decide)
    (Or.inr (by decide))

theorem lays_kernbase :
    Lays b (bootMapRegion b.kernPgdir KERNBASE (0xffffffff#32 - KERNBASE) 0#32 PTE_W) fun _ =>
      Region KERNBASE 0#32 PTE_W (pageCount (0xffffffff#32 - KERNBASE)) :=
  lays_bootMapRegion (kernPerm_of (by decide)) (by decide) (by decide) (by decide)
    (Or.inr (by decide))

theorem lays_memInitUpper (cfg : BootConfig) (base : Word) :
    Lays b (memInitUpper cfg b.kernPgdir base) fun _ => Dark := by
  refine lays_bind ((lays_bootstack cfg).mono
    fun _ _ _ h => h.dark cfg.bootstack_aligned (by decide) (by decide)) fun _ => ?_
  refine lays_bind (lays_kernbase.mono fun _ _ _ h => h.dark (by decide) (by decide) (by decide))
    fun _ => ?_
  refine lays_bind (lays_memInitMp cfg) fun _ => ?_
  refine lays_bind lays_checkKernPgdir fun _ => ?_
  exact lays_bind (lays_selfTest cfg.installedTests) fun _ => lays_pure

/-- `mem_init` up to the windows, and what is left of it then. -/
theorem memInit_lower {pm pm' : PhysMem} (hk : ¬ pm.boot.Avail pm.boot.kernPgdir)
    (hf : pm.pageFreeList = none) (hrun : memInit cfg pm = .ok base pm') :
    ∃ mm pm₁, KernTables pm.boot pm₁ ∧ Windows cfg (kernMap pm₁) ∧
      memInitUpper cfg pm.boot.kernPgdir mm pm₁ = .ok base pm' := by
  obtain ⟨pm₁, heq, hk₁, h0, -⟩ := memInit_start cfg (memInit_npages hrun) hk hf
  have ht₁ : KernTables pm.boot pm₁ := ⟨hk₁, fun d _ hne hp => by rw [h0 d hne] at hp; cases hp⟩
  have hempty : ∀ a, kernMap pm₁ a = 0#32 := fun a =>
    kernMap_none (target_empty (by rw [hk₁.boot]; exact h0) _)
  rw [heq] at hrun
  -- up to the windows there is nothing for user code
  obtain ⟨⟨⟩, pm₂, h₂, hrun⟩ := run_bind_inv hrun
  obtain ⟨ht₂, hd₂⟩ := (lays_selfTest (R := Dark) cfg.tests).lays ht₁ h₂
  obtain ⟨mm, pm₃, h₃, hrun⟩ := run_bind_inv hrun
  obtain ⟨ht₃, hd₃⟩ := lays_checkMmio.lays ht₂ h₃
  have hu : KernPerm PTE_U := kernPerm_of (by decide)
  obtain ⟨⟨⟩, pm₄, h₄, hrun⟩ := run_bind_inv hrun
  obtain ⟨ht₄, hr₄⟩ := (lays_bootMapRegion hu (pagesPa_aligned cfg) (by decide) (by decide)
    (Or.inl (by decide))).lays ht₃ h₄
  obtain ⟨⟨⟩, pm₅, h₅, hrun⟩ := run_bind_inv hrun
  obtain ⟨ht₅, hr₅⟩ := (lays_bootMapRegion hu (envsPa_aligned cfg) (by decide) (by decide)
    (Or.inl (by decide))).lays ht₄ h₅
  have hbefore := hd₂.trans hd₃
  have hpages := hr₄.window (by decide)
  have henvs := hr₅.window (by decide)
  have hne : pdx UPAGES ≠ pdx UENVS := by decide
  refine ⟨mm, pm₅, ht₅, ⟨fun a ha => ?_, fun a ha => ?_, fun a ha ha' => ?_⟩, hrun⟩
  · rw [henvs a, if_neg (ha ▸ hne), hpages a, if_pos ha]
  · rw [henvs a, if_pos ha]
  · rw [henvs a, if_neg ha', hpages a, if_neg ha]
    rcases hbefore a with h | h
    · rw [h, hempty]
      decide
    · exact h.2

/-- **What `mem_init` shows to user code.** -/
theorem memInit_windows {pm pm' : PhysMem} (hk : ¬ pm.boot.Avail pm.boot.kernPgdir)
    (hf : pm.pageFreeList = none) (hrun : memInit cfg pm = .ok base pm') :
    KernTables pm.boot pm' ∧ Windows cfg (kernMap pm') := by
  obtain ⟨mm, pm₁, ht₁, hw₁, hrest⟩ := memInit_lower hk hf hrun
  obtain ⟨ht, hd⟩ := (lays_memInitUpper cfg mm).lays ht₁ hrest
  -- the windows are below `ULIM`, where nothing changes afterwards
  have hbelow : ∀ a, a.toNat < ULIM.toNat → kernMap pm' a = kernMap pm₁ a := fun a ha =>
    (hd a).resolve_right fun h => absurd h.1 (by omega)
  refine ⟨ht, fun a ha => ?_, fun a ha => ?_, fun a ha ha' => ?_⟩
  · rw [hbelow a (below_ULIM ha (by decide)), hw₁.pages a ha]
  · rw [hbelow a (below_ULIM ha (by decide)), hw₁.envs a ha]
  · rcases hd a with h | h
    · rw [h]
      exact hw₁.others a ha ha'
    · exact h.2

/-! ## Which pages can be read -/

/-- No page of the allocator can be read above `UTOP`, but for the page tables
themselves at `UVPT`. -/
def Confined (b : BootInfo) (pm : PhysMem) : Prop :=
  ∀ va p, UTOP.toNat ≤ va.toNat → pdx va ≠ uvptDx → UserReads pm b.kernPgdir va p → ¬ b.Avail p

/-- The array of `n` bytes at `pa` has bytes in page `p`. -/
def Occupies (pa n p : ℕ) : Prop := pa < (p + 1) * PGSIZE ∧ p * PGSIZE < pa + n

instance (pa n p : ℕ) : Decidable (Occupies pa n p) := inferInstanceAs (Decidable (_ ∧ _))

/-- What can be read between `UTOP` and `ULIM` belongs to `pages` and `envs`. -/
def ArraysOnly (cfg : BootConfig) (b : BootInfo) (pm : PhysMem) : Prop :=
  ∀ va p, UTOP.toNat ≤ va.toNat → va.toNat < ULIM.toNat → pdx va ≠ uvptDx →
    UserReads pm b.kernPgdir va p →
      Occupies cfg.pagesPa (sizeofPageInfo * cfg.npages) p ∨
        Occupies cfg.envsPa (sizeofEnv * 1024) p

/-- Where `boot_alloc` put the arrays. -/
structure Layout (cfg : BootConfig) (b : BootInfo) : Prop where
  npages : b.npages = cfg.npages
  pages_ge : 0x100000 ≤ cfg.pagesPa
  pages_page : cfg.pagesPa % 4096 = 0
  envs_ge : cfg.pagesPa + sizeofPageInfo * cfg.npages ≤ cfg.envsPa
  envs_page : cfg.envsPa % 4096 = 0
  nextfree : b.nextfree = cfg.envsPa + 126976
  nextfree_le : b.nextfree ≤ cfg.npages * 4096

theorem bootAlloc_inv {npages nextfree r : ℕ} (hn : n ≠ 0)
    (h : bootAlloc npages nextfree n = .ok r) :
    r = pageRound (nextfree + n) ∧ r ≤ npages * PGSIZE := by
  rw [bootAlloc, if_neg hn] at h
  split at h
  · cases h
  · next hle =>
      cases h
      exact ⟨rfl, not_lt.1 hle⟩

theorem bootInfo_layout (h : cfg.bootInfo = .ok b) : Layout cfg b := by
  obtain ⟨pages, h₁, h⟩ := except_bind_ok h
  obtain ⟨envs, h₂, h⟩ := except_bind_ok h
  obtain ⟨nextfree, h₃, h⟩ := except_bind_ok h
  obtain rfl := Except.ok.inj h
  have hround := le_pageRound cfg.kernEnd
  have hend := cfg.kernEnd_ge
  have hdir : cfg.kernPgdirPa % 4096 = 0 := Nat.mul_mod_left ..
  obtain ⟨hp, hple⟩ := bootAlloc_inv (by decide) h₁
  have hpages : pages = cfg.pagesPa := by
    rw [hp, pageRound, BootConfig.pagesPa, PGSIZE]
    omega
  subst hpages
  -- some memory there must be, since `kern_pgdir` found a place
  have hpos : cfg.npages ≠ 0 := by
    intro h0
    rw [h0, Nat.zero_mul, BootConfig.pagesPa, PGSIZE] at hple
    omega
  obtain ⟨rfl, -⟩ := bootAlloc_inv (by rw [sizeofPageInfo]; omega) h₂
  have henvs : pageRound (cfg.pagesPa + sizeofPageInfo * cfg.npages) = cfg.envsPa := rfl
  rw [henvs] at h₃
  have henvsPage : cfg.envsPa % 4096 = 0 := Nat.mul_mod_left ..
  obtain ⟨rfl, hle⟩ := bootAlloc_inv (by decide) h₃
  refine ⟨rfl, ?_, ?_, le_pageRound _, henvsPage, ?_, hle⟩
  · rw [BootConfig.pagesPa, BootConfig.kernPgdirPa]
    omega
  · rw [BootConfig.pagesPa, PGSIZE]
    omega
  · show pageRound (cfg.envsPa + sizeofEnv * 1024) = _
    rw [pageRound, sizeofEnv, PGSIZE]
    omega

section Reads

variable {cfg : BootConfig} {b : BootInfo} {pm : PhysMem} {va : Word} {p : ℕ}

theorem pgnum_windowPte {pa : ℕ} {t : Idx} (h : pa + 4194304 ≤ 2 ^ 32) :
    pgnum (windowPte pa t) = pa / 4096 + t.val := by
  have ht := t.isLt
  rw [windowPte, pgnum_or_flags flagsOnly_PTE_P, pgnum_or_flags flagsOnly_PTE_U, pgnum_eq,
    BitVec.toNat_ofNat, PGSIZE]
  omega

theorem grants_windowPte (pa : ℕ) (t : Idx) :
    grants (windowPte pa t) (PTE_P ||| PTE_U) = true := by
  have hcomm : PTE_U ||| PTE_P = PTE_P ||| PTE_U := by decide
  rw [windowPte, BitVec.or_assoc, hcomm]
  exact grants_or_self _ _

/-- The pages that can be read are those of the two windows. -/
theorem page_of_userReads (h : KernTables b pm) (hw : Windows cfg (kernMap pm))
    (hl : Layout cfg b) (hn : b.npages ≤ 65536) (hva : InKern va)
    (hr : UserReads pm b.kernPgdir va p) :
    p = cfg.pagesPa / 4096 + (ptx va).val ∨ p = cfg.envsPa / 4096 + (ptx va).val := by
  obtain ⟨hg, rfl⟩ := (userReads_iff h hva).1 hr
  have hle := hl.nextfree_le
  have hnext := hl.nextfree
  have henvs := hl.envs_ge
  rw [hl.npages] at hn
  by_cases hpages : pdx va = pdx UPAGES
  · rw [hw.pages va hpages, pgnum_windowPte (by omega)]
    exact Or.inl rfl
  · by_cases henv : pdx va = pdx UENVS
    · rw [hw.envs va henv, pgnum_windowPte (by omega)]
      exact Or.inr rfl
    · rw [hw.others va hpages henv] at hg
      cases hg

/-- The page behind `envs` can be read, whatever it holds. -/
theorem userReads_behind (h : KernTables b pm) (hw : Windows cfg (kernMap pm))
    (hl : Layout cfg b) (hn : b.npages ≤ 65536) :
    UserReads pm b.kernPgdir (UENVS + BitVec.ofNat 32 (31 * PGSIZE)) b.kernelEndPage := by
  have hle := hl.nextfree_le
  have hnext := hl.nextfree
  rw [hl.npages] at hn
  refine (userReads_iff h ⟨by decide, by decide⟩).2 ?_
  rw [hw.envs _ (by decide), pgnum_windowPte (by omega), BootInfo.kernelEndPage, hnext, PGSIZE]
  have hptx : (ptx (UENVS + BitVec.ofNat 32 (31 * 4096))).val = 31 := by decide
  have hpage := hl.envs_page
  refine ⟨grants_windowPte _ _, ?_⟩
  rw [hptx]
  omega

/-- From the kernel on, the pages of the allocator are those behind `envs`. -/
theorem avail_iff (hbase : b.npagesBasemem ≤ 160) (hp : 256 ≤ p) :
    b.Avail p ↔ b.kernelEndPage ≤ p ∧ p < b.npages := by
  rw [BootInfo.Avail, BootInfo.Reserved, MPENTRY_PADDR, PGSIZE]
  omega

end Reads

/-- **What user code can read of the kernel's memory.**  No page of the allocator
can be read if and only if `envs` is the end of memory, for then there is no
page behind it.  In any case pages outside the two arrays can be read. -/
theorem confined_iff {cfg : BootConfig} {b : BootInfo} {pm : PhysMem} {base : Word}
    (hb : cfg.bootInfo = .ok b) (hrun : memInit cfg (cfg.reset b).pm = .ok base pm) :
    (Confined b pm ↔ cfg.npages * PGSIZE ≤ cfg.envsPa + sizeofEnv * 1024) ∧
      ¬ ArraysOnly cfg b pm := by
  have hl := bootInfo_layout hb
  have hn : b.npages ≤ 65536 := memInit_npages hrun
  obtain ⟨ht, hw⟩ := memInit_windows (kernPgdir_not_avail hb) rfl hrun
  change KernTables b pm at ht
  have hbase : b.npagesBasemem ≤ 160 := (bootInfo_spec hb).2.1 ▸ cfg.basemem_le
  have hnext := hl.nextfree
  have hend : b.kernelEndPage = b.nextfree / 4096 := rfl
  have hge := hl.pages_ge
  have henvs := hl.envs_ge
  have hpage := hl.envs_page
  have hbehind := userReads_behind ht hw hl hn
  refine ⟨⟨fun hconf => ?_, fun hsize va p hlo hne hr hav => ?_⟩, fun honly => ?_⟩
  · have hno := hconf _ _ (by decide) (by decide) hbehind
    rw [avail_iff hbase (by omega), hl.npages] at hno
    rw [sizeofEnv, PGSIZE]
    omega
  · have hin : InKern va := by
      refine ⟨?_, hne⟩
      rw [UTOP_toNat] at hlo
      rw [Fin.le_def, utopDx_val, pdx_val]
      omega
    have hp := page_of_userReads ht hw hl hn hin hr
    rw [avail_iff hbase (by omega), hl.npages] at hav
    rw [sizeofEnv, PGSIZE] at hsize
    omega
  · have hocc := honly _ _ (by decide) (by decide) (by decide) hbehind
    rw [Occupies, Occupies, sizeofEnv, PGSIZE] at hocc
    omega

theorem confined_iff_plainConfig :
    ∃ base pm, memInit plainConfig (plainConfig.reset ⟨32768, 160, 0x1E0000, 384⟩).pm
        = .ok base pm ∧ ¬ Confined ⟨32768, 160, 0x1E0000, 384⟩ pm := by
  have hb := plainConfig_bootInfo
  obtain ⟨base, pm, hrun⟩ := memInit_returns hb (by decide) (le_trans (by decide) plainConfig_avail)
  refine ⟨base, pm, hrun, fun hconf => ?_⟩
  exact absurd ((confined_iff hb hrun).1.1 hconf) (by decide)

/-- There user code reads page 480, the first page that `page_init` makes
available behind `envs`, and it belongs to no array. -/
theorem reads_free_page :
    ∃ base pm, memInit plainConfig (plainConfig.reset ⟨32768, 160, 0x1E0000, 384⟩).pm
        = .ok base pm ∧
      UserReads pm 384 0xEEC1F000#32 480 ∧
      (⟨32768, 160, 0x1E0000, 384⟩ : BootInfo).Avail 480 ∧
      ¬ Occupies plainConfig.pagesPa (sizeofPageInfo * plainConfig.npages) 480 ∧
      ¬ Occupies plainConfig.envsPa (sizeofEnv * 1024) 480 := by
  have hb := plainConfig_bootInfo
  obtain ⟨base, pm, hrun⟩ := memInit_returns hb (by decide) (le_trans (by decide) plainConfig_avail)
  obtain ⟨ht, hw⟩ := memInit_windows (kernPgdir_not_avail hb) rfl hrun
  refine ⟨base, pm, hrun, ?_, by decide, by decide, by decide⟩
  exact userReads_behind ht hw (bootInfo_layout hb) (by decide)

end Jos
