import Jos.Kern.EnvSpec
import Jos.Kern.Syscall

/-!
# Page tables as a finite map

For the code above it, an address space is a finite map: it takes the number
of a user page to a physical page and the permissions it is mapped with.  This
file says so, and that the page tables in memory are such a map.

* `AddrMap` — the abstract map.
* `PtRun` — every sequence of `page_alloc`, `page_insert` and `page_remove`
  from a fresh page directory, with the map it should have led to.
* `Represents` — the tables hold exactly that map.  `represents_insert` and
  `represents_remove` are the step lemmas, `represents_of_run` the induction.
* `pageTable_refines_map` — what follows for `page_lookup`, for the hardware,
  for failed insertions and for the pages that hold the tables.
-/

namespace Jos

open Function (update update_of_ne update_self)

/-! ## The abstract map -/

/-- User pages, by number, with the physical page and permissions of each. -/
abbrev AddrMap := ℕ → Option (ℕ × Word)

/-- The permission bits of an entry. -/
def pteFlags (w : Word) : Word := w &&& 0xfff#32

/-- The bits the hardware checks. -/
def hwBits : Word := PTE_P ||| PTE_W ||| PTE_U

/-- The permissions the hardware grants at `va`: those of the directory entry
and of the page table entry together. -/
def hwPerm (pm : PhysMem) (pgdir : ℕ) (va : Word) : Option Word :=
  (presentEntry (pm.mem pgdir (pdx va))).bind fun pde =>
    (presentEntry (pm.mem (pgnum pde) (ptx va))).map fun pte => pde &&& pte &&& hwBits

/-- What a caller of `page_insert` must bring: a user address, permissions it
may ask for, and a page it has from `page_alloc`, with a reference to spare. -/
structure Insertable (pm : PhysMem) (roots : EnvIdx → Option ℕ) (held : Finset ℕ) (e : EnvIdx)
    (pp : ℕ) (va perm : Word) : Prop where
  va_ok : userVa va = true
  perm_ok : perm &&& ~~~PTE_SYSCALL = 0#32
  got : pp ∈ held ∨ ∃ e' d t, target pm roots (.pte e' d t) = some pp
  room : refs (target pm roots) pp < 65535 ∨
    target pm roots (.pte e (pdx va) (ptx va)) = some pp

/-- The states reached from `pm₀` by `page_alloc`, `page_insert` and
`page_remove` on the page directory `r` of `e`, with the pages the caller holds
and the map that was asked for. -/
inductive PtRun (roots : EnvIdx → Option ℕ) (e : EnvIdx) (r : ℕ) (pm₀ : PhysMem) :
    PhysMem → Finset ℕ → AddrMap → Prop
  | start : PtRun roots e r pm₀ pm₀ ∅ fun _ => none
  | alloc {pm pm' : PhysMem} {held : Finset ℕ} {m : AddrMap} {z : Bool} {p : ℕ}
      (prior : PtRun roots e r pm₀ pm held m) (run : pageAlloc z pm = .ok (some p) pm') :
      PtRun roots e r pm₀ pm' (insert p held) m
  | allocFail {pm pm' : PhysMem} {held : Finset ℕ} {m : AddrMap} {z : Bool}
      (prior : PtRun roots e r pm₀ pm held m) (run : pageAlloc z pm = .ok none pm') :
      PtRun roots e r pm₀ pm' held m
  | insert {pm pm' : PhysMem} {held : Finset ℕ} {m : AddrMap} {pp : ℕ} {va perm : Word}
      (prior : PtRun roots e r pm₀ pm held m) (legal : Insertable pm roots held e pp va perm)
      (run : pageInsert r pp va perm pm = .ok (.ok ()) pm') :
      PtRun roots e r pm₀ pm' (held.erase pp)
        (update m (pgnum va) (some (pp, perm ||| PTE_P)))
  | insertFail {pm pm' : PhysMem} {held : Finset ℕ} {m : AddrMap} {pp : ℕ} {va perm : Word}
      {x : Errno} (prior : PtRun roots e r pm₀ pm held m)
      (legal : Insertable pm roots held e pp va perm)
      (run : pageInsert r pp va perm pm = .ok (.error x) pm') :
      PtRun roots e r pm₀ pm' held m
  | remove {pm pm' : PhysMem} {held : Finset ℕ} {m : AddrMap} {va : Word}
      (prior : PtRun roots e r pm₀ pm held m) (legal : userVa va = true)
      (run : pageRemove r va pm = .ok () pm') :
      PtRun roots e r pm₀ pm' held (update m (pgnum va) none)

/-! ## The tables hold the map -/

/-- The page tables of `e` hold the map `m`. -/
structure Represents (pm : PhysMem) (roots : EnvIdx → Option ℕ) (held : Finset ℕ) (e : EnvIdx)
    (m : AddrMap) : Prop where
  inv : MemInv pm roots held
  map : ∀ va, va < UTOP →
    (entry pm roots (.pte e (pdx va) (ptx va))).map (fun w => (pgnum w, pteFlags w))
      = m (pgnum va)

/-- Two addresses with the same entry are in the same page. -/
theorem pgnum_eq_of_indexes {va va' : Word} (hd : pdx va' = pdx va) (ht : ptx va' = ptx va) :
    pgnum va' = pgnum va := by
  rw [pgnum_eq_indexes, pgnum_eq_indexes, hd, ht]

/-- And the other way round. -/
theorem indexes_of_pgnum_eq {va va' : Word} (h : pgnum va' = pgnum va) :
    pdx va' = pdx va ∧ ptx va' = ptx va := by
  rw [pgnum_eq, pgnum_eq] at h
  constructor
  · apply Fin.ext
    rw [pdx_val, pdx_val]
    omega
  · apply Fin.ext
    rw [ptx_val, ptx_val]
    omega

theorem pteFlags_mkPte {pp : ℕ} {perm : Word} (h : FlagsOnly perm) :
    pteFlags (mkPte pp perm) = perm ||| PTE_P := by
  have hflags : FlagsOnly (perm ||| PTE_P) := flagsOnly_or h flagsOnly_PTE_P
  have hlow : (perm ||| PTE_P).toNat < 4096 := by
    have hpg := pgnum_flags hflags
    rw [pgnum_eq] at hpg
    omega
  rw [pteFlags, mkPte_and (by decide)]
  apply BitVec.eq_of_toNat_eq
  rw [BitVec.toNat_and, show (0xfff#32).toNat = 2 ^ 12 - 1 from rfl, Nat.and_two_pow_sub_one_eq_mod]
  exact Nat.mod_eq_of_lt hlow

section Steps

variable {pm pm' : PhysMem} {roots : EnvIdx → Option ℕ} {held : Finset ℕ} {e : EnvIdx}
  {r pp : ℕ} {va perm : Word} {m : AddrMap}

/-- A page from `page_alloc` may be mapped. -/
theorem Insertable.owned (h : Insertable pm roots held e pp va perm)
    (hinv : MemInv pm roots held) : Owned pm roots held pp := by
  rcases h.got with hp | ⟨e', d, t, ht⟩
  · exact ⟨(hinv.alloc.held_avail pp hp).1, Or.inl hp, hinv.not_isTablePage_of_held hp⟩
  · exact ⟨hinv.avail_of_target ht, Or.inr (refs_ne_zero ht), hinv.not_isTablePage_of_pte ht⟩

/-- Its counter is not at the limit, unless it is mapped at `va` already. -/
theorem Insertable.counter (h : Insertable pm roots held e pp va perm)
    (hinv : MemInv pm roots held) :
    (pm.pages pp).ppRef ≠ BitVec.allOnes 16 ∨
      target pm roots (.pte e (pdx va) (ptx va)) = some pp := by
  refine h.room.imp_left fun hlt hall => ?_
  have hc : (pm.pages pp).ppRef.toNat = refs (target pm roots) pp :=
    hinv.alloc.count pp (h.owned hinv).avail
  rw [hall, BitVec.toNat_allOnes] at hc
  omega

/-- A change of one entry changes the map at one page. -/
theorem Represents.update {x : Option Word} {held' : Finset ℕ} (h : Represents pm roots held e m)
    (hinv : MemInv pm' roots held')
    (hself : entry pm' roots (.pte e (pdx va) (ptx va)) = x)
    (hother : ∀ d t, Site.pte e d t ≠ .pte e (pdx va) (ptx va) →
      entry pm' roots (.pte e d t) = entry pm roots (.pte e d t)) :
    Represents pm' roots held' e
      (update m (pgnum va) (x.map fun w => (pgnum w, pteFlags w))) := by
  refine ⟨hinv, fun va' hva' => ?_⟩
  by_cases hpg : pgnum va' = pgnum va
  · obtain ⟨hd, ht⟩ := indexes_of_pgnum_eq hpg
    rw [hpg, update_self, hd, ht, hself]
  · have hne : Site.pte e (pdx va') (ptx va') ≠ .pte e (pdx va) (ptx va) := by
      intro heq
      obtain ⟨hd, ht⟩ : pdx va' = pdx va ∧ ptx va' = ptx va := by simpa using heq
      exact hpg (pgnum_eq_of_indexes hd ht)
    rw [update_of_ne hpg, hother _ _ hne]
    exact h.map va' hva'

/-- **Insertion** into the tables is insertion into the map. -/
theorem represents_insert (h : Represents pm roots held e m) (hr : roots e = some r)
    (legal : Insertable pm roots held e pp va perm) :
    pageInsert r pp va perm pm = .ok (.error .noMem) pm ∨
    ∃ pm', pageInsert r pp va perm pm = .ok (.ok ()) pm' ∧
      Represents pm' roots (held.erase pp) e
        (update m (pgnum va) (some (pp, perm ||| PTE_P))) := by
  have hperm := flagsOnly_of_syscall legal.perm_ok
  have hown := legal.owned h.inv
  have hp20 := h.inv.lt_two_pow hown.avail.1
  have hd := pdx_lt_utopDx.2 (userVa_lt legal.va_ok)
  rcases h.inv.pageInsert_spec hr hd hown hperm with
    ⟨hrun, -, -⟩ | ⟨pm', w, hrun, -, -, he, hroom⟩
  · exact Or.inl hrun
  · refine Or.inr ⟨pm', hrun, ?_⟩
    have hinv := hroom (legal.counter h.inv)
    have hrep := h.update hinv (by rw [he, update_self]) fun d t hne => by
      rw [he, update_of_ne hne, update_of_ne (by simp)]
    rwa [Option.map_some, pgnum_mkPte hp20 hperm, pteFlags_mkPte hperm] at hrep

/-- **Removal** from the tables is removal from the map. -/
theorem represents_remove (h : Represents pm roots held e m) (hr : roots e = some r)
    (hva : userVa va = true) :
    ∃ pm', pageRemove r va pm = .ok () pm' ∧
      Represents pm' roots held e (update m (pgnum va) none) := by
  have hd := pdx_lt_utopDx.2 (userVa_lt hva)
  obtain ⟨pm', hrun, hinv, -, he⟩ := h.inv.pageRemove_spec hr hd
  refine ⟨pm', hrun, ?_⟩
  have hrep := h.update hinv (by rw [he, update_self]) fun d t hne => by
    rw [he, update_of_ne hne]
  rwa [Option.map_none] at hrep

/-- **Allocation** leaves the map alone. -/
theorem represents_alloc {z : Bool} {o : Option ℕ} (h : Represents pm roots held e m)
    (hrun : pageAlloc z pm = .ok o pm') :
    Represents pm' roots (o.elim held fun p => insert p held) e m := by
  cases hf : pm.pageFreeList with
  | none =>
    rw [pageAlloc_none hf] at hrun
    cases hrun
    exact h
  | some p =>
    obtain ⟨pm₁, hp, h1, -, he, -⟩ := h.inv.pageAlloc_spec hf z
    rw [hp] at hrun
    cases hrun
    refine ⟨h1, fun va hva => ?_⟩
    rw [← h.map va hva]
    exact congrArg (Option.map _) (congrFun he _)

end Steps

variable {roots : EnvIdx → Option ℕ} {e : EnvIdx}

/-- Every run leads to tables that hold the map it asked for. -/
theorem represents_of_run {r : ℕ} {pm₀ pm : PhysMem} {held : Finset ℕ} {m : AddrMap}
    (hr : roots e = some r) (h₀ : Represents pm₀ roots ∅ e fun _ => none)
    (run : PtRun roots e r pm₀ pm held m) : Represents pm roots held e m := by
  induction run with
  | start => exact h₀
  | alloc _ hrun ih => exact represents_alloc ih hrun
  | allocFail _ hrun ih => exact represents_alloc ih hrun
  | insert _ legal hrun ih =>
    rcases represents_insert ih hr legal with h | ⟨pm', h, hrep⟩
    · rw [h] at hrun; cases hrun
    · rw [h] at hrun; cases hrun; exact hrep
  | insertFail _ legal hrun ih =>
    rcases represents_insert ih hr legal with h | ⟨pm', h, -⟩
    · rw [h] at hrun; cases hrun; exact ih
    · rw [h] at hrun; cases hrun
  | remove _ hva hrun ih =>
    obtain ⟨pm', h, hrep⟩ := represents_remove ih hr hva
    rw [h] at hrun
    cases hrun
    exact hrep

/-! ## What the callers see -/

/-- What `page_lookup` finds at `va`: the page and its permissions. -/
def Finds (pm : PhysMem) (r : ℕ) (va : Word) (x : Option (ℕ × Word)) : Prop :=
  ∃ res, pageLookup r va pm = .ok res pm ∧
    res.map (fun y => (y.1, pteFlags (pm.read y.2))) = x

section Views

variable {pm : PhysMem} {roots : EnvIdx → Option ℕ} {held : Finset ℕ} {e : EnvIdx} {r : ℕ}
  {va : Word} {m : AddrMap}

/-- `page_lookup` reads the map. -/
theorem Represents.finds (h : Represents pm roots held e m) (hr : roots e = some r)
    (hva : va < UTOP) : Finds pm r va (m (pgnum va)) := by
  have hd := pdx_lt_utopDx.2 hva
  refine ⟨_, h.inv.pageLookup_eq hr hd, ?_⟩
  rw [← h.map va hva]
  cases he : entry pm roots (.pte e (pdx va) (ptx va)) with
  | none => rfl
  | some w =>
    obtain ⟨q, hq, hw, -⟩ := of_entry_pte he
    obtain ⟨r', hr', -, -, hpg⟩ := of_target_pde hq
    obtain rfl : r = r' := by simpa [hr] using hr'
    simp only [Option.map_some, PhysMem.read, hpg, hw]

/-- The hardware grants what the map says: directory entries withhold nothing. -/
theorem Represents.hwPerm_eq (h : Represents pm roots held e m) (hr : roots e = some r)
    (hva : va < UTOP) :
    hwPerm pm r va = (m (pgnum va)).map fun x => x.2 &&& hwBits := by
  have hd := pdx_lt_utopDx.2 hva
  rw [← h.map va hva]
  cases hp : presentEntry (pm.mem r (pdx va)) with
  | none =>
    have hq : target pm roots (.pde e (pdx va)) = none := by
      rw [target, entry_pde hr hd, hp, Option.map_none]
    rw [entry_pte_none hq, hwPerm, hp]
    rfl
  | some pde =>
    have hq : target pm roots (.pde e (pdx va)) = some (pgnum pde) := by
      rw [target, entry_pde hr hd, hp, Option.map_some]
    have hgr := h.inv.table.pde_flags e (pdx va) pde (by rw [entry_pde hr hd, hp])
    rw [grants, beq_iff_eq] at hgr
    rw [entry_pte hq, hwPerm, hp, Option.bind_some]
    cases presentEntry (pm.mem (pgnum pde) (ptx va)) with
    | none => rfl
    | some pte =>
      have hbits : pde &&& hwBits = hwBits := hgr
      have hlow : pteFlags pte &&& hwBits = pte &&& hwBits := by
        rw [pteFlags, BitVec.and_assoc]
        rfl
      simp only [Option.map_some, hlow]
      rw [BitVec.and_comm pde pte, BitVec.and_assoc, hbits]

end Views

/-- The page tables of an environment are a finite map, as far as anyone can
see. -/
structure RefinesMap (pm : PhysMem) (roots : EnvIdx → Option ℕ) (held : Finset ℕ) (e : EnvIdx)
    (r : ℕ) (m : AddrMap) : Prop where
  /-- `page_lookup` returns what was inserted last and not removed since. -/
  lookup : ∀ va, va < UTOP → Finds pm r va (m (pgnum va))
  /-- The hardware grants what was asked for. -/
  hardware : ∀ va, va < UTOP → hwPerm pm r va = (m (pgnum va)).map fun x => x.2 &&& hwBits
  /-- An insertion without memory changes nothing; any other changes the map at
  `va` only, and the hardware then grants `perm | PTE_P` there. -/
  insert : ∀ pp va perm, Insertable pm roots held e pp va perm →
    pageInsert r pp va perm pm = .ok (.error .noMem) pm ∨
    ∃ pm', pageInsert r pp va perm pm = .ok (.ok ()) pm' ∧
      Finds pm' r va (some (pp, perm ||| PTE_P)) ∧
      hwPerm pm' r va = some ((perm ||| PTE_P) &&& hwBits) ∧
      ∀ va', va' < UTOP → pgnum va' ≠ pgnum va → Finds pm' r va' (m (pgnum va'))
  /-- A removal succeeds. -/
  remove : ∀ va, userVa va = true → ∃ pm', pageRemove r va pm = .ok () pm' ∧
    Finds pm' r va none ∧
    ∀ va', va' < UTOP → pgnum va' ≠ pgnum va → Finds pm' r va' (m (pgnum va'))
  /-- A new page table is empty. -/
  newTable : ∀ va q pm', va < UTOP → present (pm.mem r (pdx va)) = false →
    pgdirWalk r va true pm = .ok (some q) pm' → ∀ t, present (pm'.mem q.page t) = false
  /-- No page table is mapped for user code, by any environment. -/
  tables : ∀ va, va < UTOP → present (pm.mem r (pdx va)) = true →
    ∀ e' d t, target pm roots (.pte e' d t) ≠ some (pgnum (pm.mem r (pdx va)))

/-- What `Represents` means for the callers. -/
theorem Represents.refinesMap {pm : PhysMem} {held : Finset ℕ} {r : ℕ} {m : AddrMap}
    (h : Represents pm roots held e m) (hr : roots e = some r) :
    RefinesMap pm roots held e r m := by
  refine ⟨fun va hva => h.finds hr hva, fun va hva => h.hwPerm_eq hr hva, ?_, ?_, ?_, ?_⟩
  · intro pp va perm legal
    have hva := userVa_lt legal.va_ok
    rcases represents_insert h hr legal with hno | ⟨pm', hrun, hrep⟩
    · exact Or.inl hno
    · refine Or.inr ⟨pm', hrun, ?_, ?_, fun va' hva' hne => ?_⟩
      · have hf := hrep.finds hr hva
        rwa [update_self] at hf
      · have hw := hrep.hwPerm_eq hr hva
        rwa [update_self] at hw
      · have hf := hrep.finds hr hva'
        rwa [update_of_ne hne] at hf
  · intro va hva
    obtain ⟨pm', hrun, hrep⟩ := represents_remove h hr hva
    refine ⟨pm', hrun, ?_, fun va' hva' hne => ?_⟩
    · have hf := hrep.finds hr (userVa_lt hva)
      rwa [update_self] at hf
    · have hf := hrep.finds hr hva'
      rwa [update_of_ne hne] at hf
  · intro va q pm' hva habs hrun t
    cases hf : pm.pageFreeList with
    | none => rw [pgdirWalk_noMem habs hf] at hrun; cases hrun
    | some p =>
      obtain ⟨hav, -, h0⟩ := h.inv.head_spec hf
      have hrp : p ≠ r := by
        rintro rfl
        exact refs_ne_zero (show target pm roots (.dir e) = some p from hr) h0
      rw [pgdirWalk_new habs hf hav.1 (h.inv.lt_two_pow hav.1)] at hrun
      cases hrun
      simp [PhysMem.newTable, PhysMem.write, PhysMem.setPage, hrp]
  · intro va hva hpres e' d t ht
    have hd := pdx_lt_utopDx.2 hva
    have hq : target pm roots (.pde e (pdx va)) = some (pgnum (pm.mem r (pdx va))) := by
      rw [target_pde hr hd, pageOf, if_pos hpres]
    exact absurd (h.inv.site_unique (s := .pde e (pdx va)) trivial hq ht) (by simp)

/-- `env_setup_vm` starts with the empty map. -/
theorem represents_setup {k k₀ : Kernel} (hk : MemInv k.pm k.roots ∅) (hnew : k.roots e = none)
    (hsetup : envSetupVm e k = .ok (.ok ()) k₀) : Represents k₀.pm k₀.roots ∅ e fun _ => none := by
  rcases envSetupVm_spec hk hnew with ⟨hno, -⟩ | ⟨p, pm', -, hok, hinv, -, he⟩
  · rw [hno] at hsetup
    cases hsetup
  · rw [hok] at hsetup
    cases hsetup
    rw [Kernel.roots_modifyEnv_pgdir]
    refine ⟨hinv, fun va _ => ?_⟩
    -- nothing is mapped: the environment had no page directory before
    have hnone : entry pm' (update k.roots e (some p)) (.pte e (pdx va) (ptx va))
        = none := by
      rw [he]
      simp [entry, hnew]
    exact congrArg (Option.map _) hnone

/-- **The page tables of an environment refine a finite map.**  Start from
`env_setup_vm` in any state in which the allocator and the tables are in order;
after every sequence of `page_alloc`, `page_insert` and `page_remove`, the
tables are the map that was asked for. -/
theorem pageTable_refines_map {k k₀ : Kernel} {e : EnvIdx} {r : ℕ} {pm : PhysMem}
    {held : Finset ℕ} {m : AddrMap} (hk : MemInv k.pm k.roots ∅) (hnew : k.roots e = none)
    (hsetup : envSetupVm e k = .ok (.ok ()) k₀) (hr : k₀.roots e = some r)
    (hrun : PtRun k₀.roots e r k₀.pm pm held m) :
    RefinesMap pm k₀.roots held e r m :=
  (represents_of_run hr (represents_setup hk hnew hsetup) hrun).refinesMap hr

/-! ### A small machine -/

/-- A machine with four pages, of which 1, 2 and 3 are free in this order, and
no environments. -/
def smallKernel : Kernel where
  pm :=
    { boot := ⟨4, 4, 0, 0⟩
      pages := fun p => ⟨if p = 1 then some 2 else if p = 2 then some 3 else none, 0#16⟩
      pageFreeList := some 1
      mem := fun _ _ => 0#32
      userMemCheckAddr := 0#32 }
  envs := fun _ =>
    { envTf := .zero
      envLink := none
      envId := 0#32
      envParentId := 0#32
      envType := .user
      envStatus := .free
      envRuns := 0#32
      envCpunum := 0
      envPgdir := none
      envPgfaultUpcall := 0#32
      envIpcRecving := false
      envIpcDstva := 0#32
      envIpcValue := 0#32
      envIpcFrom := 0#32
      envIpcPerm := 0#32 }
  envFreeList := none
  cpus := fun _ => ⟨.started, none⟩
  ticks := 0#32

theorem smallKernel_target (s : Site) : target smallKernel.pm smallKernel.roots s = none := by
  cases s with
  | dir e => rfl
  | pde e d => simp [target, entry, Kernel.roots, smallKernel]
  | pte e d t => simp [target, entry, Kernel.roots, smallKernel]
  | kern d => simp [target, entry, smallKernel]

theorem smallKernel_avail (p : ℕ) : smallKernel.pm.boot.Avail p ↔ p ∈ [1, 2, 3] := by
  simp only [BootInfo.Avail, BootInfo.Reserved, BootInfo.kernelEndPage, smallKernel,
    MPENTRY_PADDR, PGSIZE, List.mem_cons, List.not_mem_nil, or_false]
  omega

theorem smallKernel_inv : MemInv smallKernel.pm smallKernel.roots ∅ := by
  have hrefs : ∀ p, refs (target smallKernel.pm smallKernel.roots) p = 0 := fun p =>
    refs_eq_zero.2 fun s => by simp [smallKernel_target s]
  have hnone : ∀ {s p}, target smallKernel.pm smallKernel.roots s ≠ some p := fun {s p} => by
    simp [smallKernel_target s]
  refine ⟨⟨⟨[1, 2, 3], ?_, by decide, fun p => ?_⟩, fun p _ => ?_, fun p _ hor => ?_,
    fun s p hs => absurd hs hnone, fun p hp => absurd hp (Finset.notMem_empty p)⟩, ?_⟩
  · exact Chain.cons_iff.2 ⟨rfl, Chain.cons_iff.2 ⟨rfl, Chain.cons_iff.2 ⟨rfl,
      Chain.nil_iff.2 rfl⟩⟩⟩
  · simp [smallKernel_avail p, hrefs p]
  · rw [hrefs p]; rfl
  · simp [hrefs p] at hor
  · refine ⟨by decide, by rw [smallKernel_avail]; decide, fun s p _ hs => absurd hs hnone,
      fun e r d hr => ?_, fun e r hr => ?_, fun e d w hw => ?_, fun d q t hq => absurd hq hnone⟩
    · cases hr
    · cases hr
    · simp [entry, Kernel.roots, smallKernel] at hw

/-- On the small machine: page 1 becomes the page directory, page 2 is mapped
at the second user page, and page 3 is its page table. -/
theorem pageTable_refines_map_small :
    ∃ k₀ pm₁ pm, envSetupVm 0 smallKernel = .ok (.ok ()) k₀ ∧
      pageAlloc true k₀.pm = .ok (some 2) pm₁ ∧
      pageInsert 1 2 0x1000#32 7#32 pm₁ = .ok (.ok ()) pm ∧
      RefinesMap pm k₀.roots ((insert 2 ∅ : Finset ℕ).erase 2) 0 1
        (Function.update (fun _ => none) (pgnum 0x1000#32) (some (2, 7#32 ||| PTE_P))) := by
  have hsetup : ∃ k₀, envSetupVm 0 smallKernel = .ok (.ok ()) k₀ ∧
      k₀.roots 0 = some 1 ∧ ∃ pm₁, pageAlloc true k₀.pm = .ok (some 2) pm₁ ∧
      ∃ pm, pageInsert 1 2 0x1000#32 7#32 pm₁ = .ok (.ok ()) pm :=
    ⟨_, rfl, rfl, _, rfl, _, rfl⟩
  obtain ⟨k₀, h₀, hr, pm₁, h₁, pm, h₂⟩ := hsetup
  refine ⟨k₀, pm₁, pm, h₀, h₁, h₂, ?_⟩
  have run₁ : PtRun k₀.roots 0 1 k₀.pm pm₁ (insert 2 ∅) fun _ => none :=
    .alloc .start h₁
  have legal : Insertable pm₁ k₀.roots (insert 2 ∅) 0 2 0x1000#32 7#32 := by
    have hrep := represents_of_run hr (represents_setup smallKernel_inv rfl h₀) run₁
    have hmem : 2 ∈ (insert 2 ∅ : Finset ℕ) := by decide
    have h0 := (hrep.inv.alloc.held_avail 2 hmem).2
    exact ⟨by decide, by decide, Or.inl hmem, Or.inl (by rw [h0]; norm_num)⟩
  exact pageTable_refines_map smallKernel_inv rfl h₀ hr (.insert run₁ legal h₂)

end Jos
