import Jos.Kern.Boot
import Jos.Kern.PmapSpec

/-!
# `mem_init` sets up physical memory

Before there are environments, the only sites are the page tables of
`kern_pgdir`.  This module shows that `mem_init` establishes the invariant of
physical memory for them (`memInit_spec`), and that memory-mapped regions keep
it (`maps_mapDevices`).

It also counts free pages.  Every page table of the kernel takes one, and
nothing else does, so there is enough memory if there are as many free pages as
there may be page tables (`Rich`).
-/

namespace Jos

open Function (update update_apply update_of_ne update_self)

/-! ## Free pages -/

/-- The pages the allocator can hand out. -/
def freeSet (pm : PhysMem) (roots : EnvIdx → Option ℕ) (held : Finset ℕ) : Finset ℕ :=
  (Finset.range pm.boot.npages).filter fun p =>
    pm.boot.Avail p ∧ p ∉ held ∧ refs (target pm roots) p = 0

section Free

variable {pm pm' : PhysMem} {roots : EnvIdx → Option ℕ} {held held' : Finset ℕ} {p : ℕ}

theorem mem_freeSet :
    p ∈ freeSet pm roots held ↔ pm.boot.Avail p ∧ p ∉ held ∧ refs (target pm roots) p = 0 := by
  rw [freeSet, Finset.mem_filter, Finset.mem_range]
  exact ⟨fun h => h.2, fun h => ⟨h.1.1, h⟩⟩

/-- As long as there are free pages, one can be had. -/
theorem MemInv.freeList_some (h : MemInv pm roots held) (hc : 0 < (freeSet pm roots held).card) :
    ∃ p, pm.pageFreeList = some p := by
  obtain ⟨p, hp⟩ := Finset.card_pos.1 hc
  have hon := (h.alloc.onList_iff p).2 (mem_freeSet.1 hp)
  cases hf : pm.pageFreeList with
  | none =>
    have hhead : pm.alloc.head = none := hf
    rw [hhead] at hon
    exact (not_onList_none hon).elim
  | some q => exact ⟨q, rfl⟩

/-- One page less. -/
theorem card_freeSet_le (h : ∀ q ∈ freeSet pm roots held, q ≠ p → q ∈ freeSet pm' roots held') :
    (freeSet pm roots held).card ≤ (freeSet pm' roots held').card + 1 := by
  have hsub : freeSet pm roots held ⊆ insert p (freeSet pm' roots held') := fun q hq => by
    by_cases hqp : q = p
    · exact Finset.mem_insert.2 (Or.inl hqp)
    · exact Finset.mem_insert_of_mem (h q hq hqp)
  exact (Finset.card_le_card hsub).trans (Finset.card_insert_le _ _)

/-- One site more or less that is not the page's own. -/
theorem mem_freeSet_of_update {s : Site} {x : Option ℕ} {q : ℕ} (hb : pm'.boot = pm.boot)
    (ht : target pm' roots = update (target pm roots) s x) (hx : x ≠ some q)
    (hq : q ∈ freeSet pm roots held) : q ∈ freeSet pm' roots held := by
  obtain ⟨hav, hnh, h0⟩ := mem_freeSet.1 hq
  refine mem_freeSet.2 ⟨hb ▸ hav, hnh, ?_⟩
  rw [ht, refs_update_of_ne (refs_eq_zero.1 h0 s) hx]
  exact h0

end Free

/-! ## The page tables of the kernel -/

/-- No environment has a page directory. -/
def noRoots : EnvIdx → Option ℕ := fun _ => none

section Kern

variable {pm : PhysMem} {held : Finset ℕ} {d t : Idx} {p q : ℕ} {w : Word} {va : Word}

theorem entry_kern (hd : utopDx ≤ d) (hne : d ≠ uvptDx) (roots : EnvIdx → Option ℕ) :
    entry pm roots (.kern d) = presentEntry (pm.mem pm.boot.kernPgdir d) := by
  rw [entry, if_pos ⟨hd, hne⟩]

theorem target_kern (hd : utopDx ≤ d) (hne : d ≠ uvptDx) (roots : EnvIdx → Option ℕ) :
    target pm roots (.kern d) = pageOf (pm.mem pm.boot.kernPgdir d) := by
  rw [target, entry_kern hd hne, pageOf_eq]

theorem entry_noRoots {s : Site} (hs : ∀ d, s ≠ .kern d) : entry pm noRoots s = none := by
  cases s with
  | dir e => rfl
  | pde e d => simp [entry, noRoots]
  | pte e d t => simp [entry, noRoots]
  | kern d => exact absurd rfl (hs d)

/-- An entry of `kern_pgdir` is a site of its own. -/
theorem entry_write_kern (hd : utopDx ≤ d) (hne : d ≠ uvptDx) :
    entry (pm.write ⟨pm.boot.kernPgdir, d⟩ w) noRoots
      = update (entry pm noRoots) (.kern d) (presentEntry w) := by
  funext s
  by_cases hs : s = .kern d
  · subst hs
    rw [entry_kern hd hne, update_self]
    simp [PhysMem.write]
  · rw [update_of_ne hs]
    cases s with
    | dir e => rfl
    | pde e d' | pte e d' t' => rw [entry_noRoots (by simp), entry_noRoots (by simp)]
    | kern d' =>
      have hdd : d' ≠ d := fun h => hs (h ▸ rfl)
      simp [entry, PhysMem.write, hdd]

/-- A new page table of the kernel. -/
theorem MemInv.newKernTable (h : MemInv pm noRoots held) (hf : pm.pageFreeList = some p)
    (hd : utopDx ≤ d) (hne : d ≠ uvptDx) (hn : present (pm.mem pm.boot.kernPgdir d) = false) :
    MemInv (pm.newTable pm.boot.kernPgdir d p) noRoots held ∧
      entry (pm.newTable pm.boot.kernPgdir d p) noRoots
        = update (entry pm noRoots) (.kern d) (some (PhysMem.newPde p)) := by
  obtain ⟨hav, hnh, h0⟩ := h.head_spec hf
  have hp20 := h.lt_two_pow hav.1
  have h1 := h.takeFree hf
  have hheld := Finset.mem_insert_self p held
  have h2 := h1.setPage (h1.not_isTablePage_of_held hheld) fun _ => 0#32
  set pm2 := (pm.takeFree p).setPage p fun _ => 0#32 with hpm2
  have hkp : pm.boot.kernPgdir ≠ p := fun heq => h.table.kern_reserved (heq ▸ hav)
  have he2 : entry pm2 noRoots = entry pm noRoots := by
    refine entry_congr rfl fun q hq => update_of_ne ?_ _ _
    rintro rfl
    exact h.not_isTablePage_of_refs hav h0 hq
  have ht2 : target pm2 noRoots = target pm noRoots := target_congr he2
  have hfree : target pm2 noRoots (.kern d) = none := by
    rw [ht2, target_kern hd hne, pageOf, hn]; rfl
  have he3 : entry (pm.newTable pm.boot.kernPgdir d p) noRoots
      = update (entry pm noRoots) (.kern d) (some (PhysMem.newPde p)) := by
    rw [← he2, ← presentEntry_of_present (present_newPde p)]
    exact entry_write_kern hd hne
  have ht3 : target (pm.newTable pm.boot.kernPgdir d p) noRoots
      = update (target pm noRoots) (.kern d) (some p) := by
    have := target_update he3 (by simp)
    rwa [Option.map_some, pgnum_newPde hp20] at this
  refine ⟨⟨?_, ?_⟩, he3⟩
  · rw [ht3]
    have hroom : pm2.alloc.ref p ≠ BitVec.allOnes 16 := by
      intro hall
      have hc := h2.alloc.count p hav
      rw [hall, ht2, h0] at hc
      exact absurd hc (by decide)
    have hacq := h2.alloc.acquire hfree hav (Or.inl hheld) hroom
    rw [ht2, Finset.erase_insert hnh] at hacq
    exact (PhysMem.alloc_incr pm2 p).symm ▸ hacq
  · refine ⟨h.table.npages_le, h.table.kern_reserved, ?_,
      fun _ _ _ hr => absurd hr (by simp [noRoots]), fun _ _ hr => absurd hr (by simp [noRoots]), fun e d' w hw => ?_, fun d' q t hq => ?_⟩
    · rw [ht3]
      exact h.table.table_once.update_fresh (ht2 ▸ hfree) h0
    · rw [entry_noRoots (by simp)] at hw
      cases hw
    · -- the new table is all zeroes, the others are as they were
      rw [ht3] at hq
      by_cases hqp : q = p
      · subst hqp
        have hz : (pm.newTable pm.boot.kernPgdir d q).mem q = fun _ => 0#32 := by
          simp [PhysMem.newTable, PhysMem.write, PhysMem.incr, PhysMem.setRef, PhysMem.setPage,
            hkp.symm]
        rw [hz]
        exact (by decide : grants 0#32 (PTE_P ||| PTE_W ||| PTE_U) = false)
      · have hdd : Site.kern d' ≠ .kern d := by
          intro heq
          rw [heq, update_self] at hq
          exact hqp (by simpa using hq.symm)
        rw [update_of_ne hdd] at hq
        have hm : (pm.newTable pm.boot.kernPgdir d p).mem q = pm.mem q := by
          simp [PhysMem.newTable, PhysMem.write, PhysMem.incr, PhysMem.setRef, PhysMem.setPage,
            PhysMem.takeFree, PhysMem.setLink, PhysMem.setFreeList, hqp, h.target_ne_kern hq]
        rw [hm]
        exact h.table.kern_ro d' q t hq

/-- An entry of a page table of the kernel. -/
theorem MemInv.write_kernPte (h : MemInv pm noRoots held)
    (hq : target pm noRoots (.kern d) = some q)
    (hw : grants w (PTE_P ||| PTE_W ||| PTE_U) = false) :
    MemInv (pm.write ⟨q, t⟩ w) noRoots held ∧
      entry (pm.write ⟨q, t⟩ w) noRoots = entry pm noRoots := by
  have hkq := h.target_ne_kern hq
  have he : entry (pm.write ⟨q, t⟩ w) noRoots = entry pm noRoots := by
    funext s
    cases s with
    | dir e => rfl
    | pde e d' | pte e d' t' => rw [entry_noRoots (by simp), entry_noRoots (by simp)]
    | kern d' => simp [entry, PhysMem.write, Ne.symm hkq]
  refine ⟨⟨?_, h.table.npages_le, h.table.kern_reserved, ?_,
    fun _ _ _ hr => absurd hr (by simp [noRoots]), fun _ _ hr => absurd hr (by simp [noRoots]),
    fun e d' w hw => ?_, fun d' q' t' hq' => ?_⟩, he⟩
  · rw [target_congr he]
    exact h.alloc
  · rw [target_congr he]
    exact h.table.table_once
  · rw [entry_noRoots (by simp)] at hw
    cases hw
  · rw [target_congr he] at hq'
    by_cases hqq : q' = q
    · subst hqq
      by_cases htt : t' = t
      · subst htt
        simpa [PhysMem.write] using hw
      · simpa [PhysMem.write, htt] using h.table.kern_ro d' q' t' hq'
    · simpa [PhysMem.write, hqq] using h.table.kern_ro d' q' t' hq'

end Kern

/-! ## Code that adds page tables to `kern_pgdir` -/

/-- The invariant during boot, before there are environments. -/
structure KernMem (b : BootInfo) (pm : PhysMem) : Prop where
  inv : MemInv pm noRoots ∅
  boot : pm.boot = b

/-- The page tables `kern_pgdir` does not have. -/
def absentTables (pm : PhysMem) : Finset Idx :=
  Finset.univ.filter fun d => utopDx ≤ d ∧ d ≠ uvptDx ∧ target pm noRoots (.kern d) = none

/-- There are enough free pages for all page tables of the kernel, and `n` more. -/
def Rich (n : ℕ) (pm : PhysMem) : Prop :=
  (absentTables pm).card + n ≤ (freeSet pm noRoots ∅).card

/-- Page tables were added, and nothing else was taken. -/
structure Grows (pm pm' : PhysMem) : Prop where
  rich : ∀ n, Rich n pm → Rich n pm'
  keeps : ∀ d, target pm noRoots (.kern d) ≠ none → target pm' noRoots (.kern d) ≠ none

theorem Grows.refl (pm : PhysMem) : Grows pm pm := ⟨fun _ h => h, fun _ h => h⟩

theorem Grows.trans {pm₁ pm₂ pm₃ : PhysMem} (h : Grows pm₁ pm₂) (h' : Grows pm₂ pm₃) :
    Grows pm₁ pm₃ :=
  ⟨fun n hn => h'.rich n (h.rich n hn), fun d hd => h'.keeps d (h.keeps d hd)⟩

/-- The code keeps the invariant, and only adds page tables.  If all regions fit
into the address space (`fits`), it panics only for lack of pages. -/
structure Maps (fits : Prop) (b : BootInfo) {α : Type} (x : PhysM α) (Q : α → PhysMem → Prop) :
    Prop where
  spec : ∀ pm, KernMem b pm → wp x (fun a pm' => KernMem b pm' ∧ Grows pm pm' ∧ Q a pm')
    (fun _ _ => fits → ∀ n, ¬ Rich n pm) pm

variable {pm pm' : PhysMem} {base : Word} {b : BootInfo} {fits : Prop}

section Maps

variable {fits : Prop} {b : BootInfo} {α β : Type} {x : PhysM α} {f : α → PhysM β}
  {Q : α → PhysMem → Prop} {R : β → PhysMem → Prop}

theorem maps_pure {a : α} (h : ∀ pm, Q a pm) : Maps fits b (pure a) Q :=
  ⟨fun pm hpm => ⟨hpm, .refl pm, h pm⟩⟩

/-- One piece of code after another. -/
theorem maps_then (hg : Grows pm pm')
    (hx : wp x (fun a pm'' => KernMem b pm'' ∧ Grows pm' pm'' ∧ Q a pm'')
      (fun _ _ => fits → ∀ n, ¬ Rich n pm') pm') :
    wp x (fun a pm'' => KernMem b pm'' ∧ Grows pm pm'' ∧ Q a pm'')
      (fun _ _ => fits → ∀ n, ¬ Rich n pm) pm' := by
  refine hx.mono (fun a pm'' ⟨hk, hg', hq⟩ => ⟨hk, hg.trans hg', hq⟩) ?_
  exact fun _ _ he hfits n hn => he hfits n (hg.rich n hn)

theorem maps_bind (hx : Maps fits b x Q) (hf : ∀ a, (∃ pm, Q a pm) → Maps fits b (f a) R) :
    Maps fits b (x >>= f) R := by
  refine ⟨fun pm h => ?_⟩
  rw [wp_bind]
  refine (hx.spec pm h).mono (fun a pm' ⟨h', hg, hq⟩ => ?_) fun _ _ he => he
  exact maps_then hg ((hf a ⟨pm', hq⟩).spec pm' h')

/-- The result is computed from that of another piece of code. -/
theorem maps_map {g : α → β} (hx : Maps fits b x Q) (hg : ∀ a pm, Q a pm → R (g a) pm) :
    Maps fits b (x >>= fun a => pure (g a)) R := by
  refine ⟨fun pm h => ?_⟩
  rw [wp_bind]
  exact (hx.spec pm h).mono (fun a pm' ⟨h', hg', hq⟩ => ⟨h', hg', hg a pm' hq⟩) fun _ _ he => he

theorem Maps.mono {Q' : α → PhysMem → Prop} (hx : Maps fits b x Q)
    (h : ∀ a pm, Q a pm → Q' a pm) : Maps fits b x Q' :=
  ⟨fun pm hpm => (hx.spec pm hpm).mono (fun a pm' ⟨hk, hg, hq⟩ => ⟨hk, hg, h a pm' hq⟩)
    fun _ _ he => he⟩

theorem Maps.of_imp {fits' : Prop} (hx : Maps fits b x Q) (h : fits' → fits) : Maps fits' b x Q :=
  ⟨fun pm hpm => (hx.spec pm hpm).mono (fun _ _ hq => hq) fun _ _ he hf => he (h hf)⟩

theorem maps_forM {γ : Type} {g : γ → PhysM Unit} {l : List γ}
    (h : ∀ a ∈ l, Maps fits b (g a) fun _ _ => True) :
    Maps fits b (l.forM g) fun _ _ => True := by
  induction l with
  | nil => exact maps_pure fun _ => trivial
  | cons a l ih =>
    exact maps_bind (h a (List.mem_cons_self ..))
      fun _ _ => ih fun a' ha' => h a' (List.mem_cons_of_mem _ ha')

variable {n : ℕ} {va pa perm size : Word}

theorem rich_congr (hb : pm'.boot = pm.boot) (he : entry pm' noRoots = entry pm noRoots)
    (h : Rich n pm) : Rich n pm' := by
  rw [Rich, absentTables, freeSet, target_congr he, hb]
  exact h

/-- A new page table costs a page, and is no longer missing. -/
theorem rich_newTable {d : Idx} {p : ℕ} (hb : pm'.boot = pm.boot) (hd : utopDx ≤ d)
    (hne : d ≠ uvptDx) (hn : target pm noRoots (.kern d) = none)
    (ht : target pm' noRoots = update (target pm noRoots) (.kern d) (some p)) (h : Rich n pm) :
    Rich n pm' := by
  have hfree : (freeSet pm noRoots ∅).card ≤ (freeSet pm' noRoots ∅).card + 1 :=
    card_freeSet_le (p := p) fun q hq hqp =>
      mem_freeSet_of_update hb ht (fun heq => hqp (by simpa using heq.symm)) hq
  have habs : (absentTables pm').card + 1 ≤ (absentTables pm).card := by
    have hmem : d ∈ absentTables pm := by simp [absentTables, hd, hne, hn]
    rw [← Finset.card_erase_add_one hmem]
    refine Nat.add_le_add_right (Finset.card_le_card fun d' hd' => ?_) 1
    simp only [absentTables, Finset.mem_filter, Finset.mem_univ, true_and, ht] at hd'
    have hdd : d' ≠ d := by
      rintro rfl
      simp at hd'
    have hsite : Site.kern d' ≠ .kern d := by simpa using hdd
    rw [update_of_ne hsite] at hd'
    simp [absentTables, hdd, hd']
  rw [Rich] at h ⊢
  omega

/-- Without free pages the kernel cannot have another page table. -/
theorem not_rich {d : Idx} (hm : MemInv pm noRoots ∅) (hf : pm.pageFreeList = none)
    (hd : utopDx ≤ d) (hne : d ≠ uvptDx) (hn : target pm noRoots (.kern d) = none) :
    ¬ Rich n pm := by
  intro h
  have hmem : d ∈ absentTables pm := by simp [absentTables, hd, hne, hn]
  have hpos := Finset.card_pos.2 ⟨d, hmem⟩
  rw [Rich] at h
  obtain ⟨p, hp⟩ := hm.freeList_some (show 0 < (freeSet pm noRoots ∅).card by omega)
  rw [hf] at hp
  cases hp

/-- `pgdir_walk` on `kern_pgdir`. -/
theorem kernWalk_spec (h : KernMem b pm) (hd : utopDx ≤ pdx va) (hne : pdx va ≠ uvptDx) :
    (pgdirWalk b.kernPgdir va true pm = .ok none pm ∧ ∀ n, ¬ Rich n pm) ∨
    ∃ q pm', pgdirWalk b.kernPgdir va true pm = .ok (some ⟨q, ptx va⟩) pm' ∧
      target pm' noRoots (.kern (pdx va)) = some q ∧ KernMem b pm' ∧ Grows pm pm' := by
  obtain ⟨h, rfl⟩ := h
  have ht : target pm noRoots (.kern (pdx va)) = _ := target_kern hd hne noRoots
  cases hp : present (pm.mem pm.boot.kernPgdir (pdx va)) with
  | true =>
    rw [pageOf, if_pos hp] at ht
    exact Or.inr ⟨_, pm, pgdirWalk_present hp (h.lt_npages ht), ht, ⟨h, rfl⟩, .refl pm⟩
  | false =>
    have hn : target pm noRoots (.kern (pdx va)) = none := by rw [ht, pageOf, hp]; rfl
    cases hf : pm.pageFreeList with
    | none => exact Or.inl ⟨pgdirWalk_noMem hp hf, fun _ => not_rich h hf hd hne hn⟩
    | some p =>
      obtain ⟨hav, -, -⟩ := h.head_spec hf
      have hp20 := h.lt_two_pow hav.1
      obtain ⟨h', he⟩ := h.newKernTable hf hd hne hp
      have ht' := target_update he (by simp)
      rw [Option.map_some, pgnum_newPde hp20] at ht'
      have hb : (pm.newTable pm.boot.kernPgdir (pdx va) p).boot = pm.boot := rfl
      refine Or.inr ⟨p, _, pgdirWalk_new hp hf hav.1 hp20, ?_, ⟨h', hb⟩,
        fun n hr => rich_newTable hb hd hne hn ht' hr, fun d hd => ?_⟩
      · rw [ht', update_self]
      · rw [ht', update_apply]
        split
        · simp
        · exact hd

/-- The entry found is then filled. -/
theorem kernWrite_spec {w : Word} {q : ℕ} (h : KernMem b pm)
    (hq : target pm noRoots (.kern (pdx va)) = some q)
    (hw : grants w (PTE_P ||| PTE_W ||| PTE_U) = false) :
    KernMem b (pm.write ⟨q, ptx va⟩ w) ∧ Grows pm (pm.write ⟨q, ptx va⟩ w) ∧
      target (pm.write ⟨q, ptx va⟩ w) noRoots (.kern (pdx va)) = some q := by
  obtain ⟨h', he⟩ := h.inv.write_kernPte (t := ptx va) hq hw
  refine ⟨⟨h', h.boot⟩, ⟨fun n hr => rich_congr (PhysMem.write_boot ..) he hr, fun d hd => ?_⟩, ?_⟩
  · rw [target_congr he]
    exact hd
  · rw [target_congr he]
    exact hq

/-- With these permissions user code cannot write. -/
def KernPerm (perm : Word) : Prop := ∀ pa : Word, pgoff pa = 0#32 →
  grants (pa ||| perm ||| PTE_P) (PTE_P ||| PTE_W ||| PTE_U) = false

/-- An address of a page adds no permissions. -/
theorem grants_aligned {m : Word} (hpa : pgoff pa = 0#32) (hm : m = 0xFFF#32 &&& m) :
    grants (pa ||| perm ||| PTE_P) m = grants (perm ||| PTE_P) m := by
  have hflags : pa &&& m = 0#32 := by
    rw [hm, ← BitVec.and_assoc, show pa &&& 0xFFF#32 = 0#32 from hpa, BitVec.zero_and]
  rw [grants, BitVec.or_assoc, and_or_right, hflags, BitVec.zero_or, grants]

theorem kernPerm_of (h : grants (perm ||| PTE_P) (PTE_P ||| PTE_W ||| PTE_U) = false) :
    KernPerm perm :=
  fun _ hpa => (grants_aligned hpa (by decide)).trans h

theorem pgoff_add_pages (h : pgoff pa = 0#32) (n : ℕ) :
    pgoff (pa + BitVec.ofNat 32 (n * PGSIZE)) = 0#32 := by
  have h' := congrArg BitVec.toNat h
  refine BitVec.eq_of_toNat_eq ?_
  rw [pgoff_toNat] at h' ⊢
  rw [BitVec.toNat_add, BitVec.toNat_ofNat, PGSIZE]
  simp only [BitVec.toNat_zero] at h' ⊢
  omega

theorem pgoff_add_page (h : pgoff pa = 0#32) : pgoff (pa + BitVec.ofNat 32 PGSIZE) = 0#32 := by
  simpa using pgoff_add_pages h 1

/-- Kernel addresses, as indexes into `kern_pgdir`. -/
def InKern (va : Word) : Prop := utopDx ≤ pdx va ∧ pdx va ≠ uvptDx

/-- The loop of `boot_map_region`, with permissions that keep user code from
writing. -/
theorem maps_bootMapLoop (hperm : KernPerm perm) (n : ℕ) :
    ∀ va pa : Word, pgoff pa = 0#32 →
      (∀ i < n, InKern (va + BitVec.ofNat 32 (i * PGSIZE))) →
      Maps fits b (bootMapLoop b.kernPgdir perm n va pa)
        fun _ pm' => 0 < n → target pm' noRoots (.kern (pdx va)) ≠ none := by
  induction n with
  | zero => exact fun _ _ _ _ => maps_pure fun _ h => absurd h (by omega)
  | succ n ih =>
    intro va pa hpa hva
    have h0 := hva 0 (by omega)
    rw [Nat.zero_mul, BitVec.add_zero] at h0
    have hrest := ih (va + BitVec.ofNat 32 PGSIZE) (pa + BitVec.ofNat 32 PGSIZE)
      (pgoff_add_page hpa) fun i hi => by
        have := hva (i + 1) (by omega)
        rwa [Nat.succ_mul, Nat.add_comm, BitVec.ofNat_add, ← BitVec.add_assoc] at this
    refine ⟨fun pm h => ?_⟩
    rw [bootMapLoop, wp_bind]
    rcases kernWalk_spec h h0.1 h0.2 with ⟨hrun, hpoor⟩ | ⟨q, pm', hrun, hq, h', hg⟩
    · exact (wp_of_ok hrun).2 fun _ => hpoor
    · refine (wp_of_ok hrun).2 ?_
      dsimp only
      rw [wp_bind, wp_modify]
      obtain ⟨h'', hg', hq'⟩ := kernWrite_spec h' hq (hperm pa hpa)
      refine maps_then (hg.trans hg') ((hrest.spec _ h'').mono ?_ fun _ _ he => he)
      rintro _ pm'' ⟨hk, hg'', -⟩
      exact ⟨hk, hg'', fun _ => hg''.keeps _ (by rw [hq']; simp)⟩

/-- The number of pages `boot_map_region` maps. -/
def pageCount (size : Word) : ℕ :=
  if size.toNat % PGSIZE ≠ 0 then size.toNat / PGSIZE + 1 else size.toNat / PGSIZE

theorem inKern_of_toNat (hlo : UTOP.toNat ≤ va.toNat)
    (hout : va.toNat < UVPT.toNat ∨ ULIM.toNat ≤ va.toNat) : InKern va := by
  have huvpt : UVPT.toNat = 0xEF400000 := by decide
  rw [UTOP_toNat] at hlo
  rw [huvpt, ULIM_toNat] at hout
  refine ⟨?_, fun heq => ?_⟩
  · rw [Fin.le_def, utopDx_val, pdx_val]
    omega
  · have := congrArg Fin.val heq
    rw [pdx_val, uvptDx_val] at this
    omega

/-- The pages of a region that neither wraps around nor meets `UVPT`. -/
theorem inKern_region {i : ℕ} (hlo : UTOP.toNat ≤ va.toNat) (hhi : va.toNat + n * PGSIZE ≤ 2 ^ 32)
    (hout : va.toNat + n * PGSIZE ≤ UVPT.toNat ∨ ULIM.toNat ≤ va.toNat) (hi : i < n) :
    InKern (va + BitVec.ofNat 32 (i * PGSIZE)) := by
  have hlt : i * PGSIZE < n * PGSIZE := Nat.mul_lt_mul_of_pos_right hi (by decide)
  have hnat : (va + BitVec.ofNat 32 (i * PGSIZE)).toNat = va.toNat + i * PGSIZE := by
    rw [BitVec.toNat_add, BitVec.toNat_ofNat]
    omega
  refine inKern_of_toNat (by omega) ?_
  rcases hout with h | h
  · exact Or.inl (by omega)
  · exact Or.inr (by omega)

/-- `boot_map_region` in the kernel's part of the address space. -/
theorem maps_bootMapRegion (hperm : KernPerm perm) (hpa : pgoff pa = 0#32)
    (hlo : UTOP.toNat ≤ va.toNat) (hhi : va.toNat + pageCount size * PGSIZE ≤ 2 ^ 32)
    (hout : va.toNat + pageCount size * PGSIZE ≤ UVPT.toNat ∨ ULIM.toNat ≤ va.toNat) :
    Maps fits b (bootMapRegion b.kernPgdir va size pa perm)
      fun _ pm' => 0 < pageCount size → target pm' noRoots (.kern (pdx va)) ≠ none :=
  maps_bootMapLoop hperm (pageCount size) va pa hpa fun _ hi => inKern_region hlo hhi hout hi

/-- What the check of `mmio_map_region` is for. -/
theorem mmio_fits (hbase : ULIM.toNat ≤ base.toNat)
    (h : ¬ (base + roundUp size ≥ MMIOLIM ∨ base + roundUp size < base)) :
    base.toNat + pageCount (roundUp size) * PGSIZE ≤ 2 ^ 32 ∧
      ULIM.toNat ≤ (base + roundUp size).toNat := by
  have hlim : MMIOLIM.toNat = 0xEFC00000 := by decide
  have hsize := roundUp_toNat size
  have hcount : pageCount (roundUp size) * PGSIZE = (roundUp size).toNat := by
    rw [pageCount, PGSIZE, hsize]
    split <;> omega
  rw [not_or, ge_iff_le, BitVec.lt_def, BitVec.le_def, BitVec.toNat_add, hlim] at h
  rw [ULIM_toNat] at hbase ⊢
  rw [hcount, BitVec.toNat_add]
  omega

/-- `mmio_map_region`, which checks that the region fits. -/
theorem maps_mmioMapRegion (hpa : pgoff pa = 0#32) (hbase : ULIM.toNat ≤ base.toNat)
    (hfits : fits → ¬ (base + roundUp size ≥ MMIOLIM ∨ base + roundUp size < base)) :
    Maps fits b (mmioMapRegion b.kernPgdir base pa size) fun base' pm' =>
      base' = base + roundUp size ∧ ULIM.toNat ≤ base'.toNat ∧
        (0 < pageCount (roundUp size) → target pm' noRoots (.kern (pdx base)) ≠ none) := by
  rw [mmioMapRegion]
  by_cases hno : base + roundUp size ≥ MMIOLIM ∨ base + roundUp size < base
  · rw [if_pos hno]
    exact ⟨fun pm h hf => absurd hno (hfits hf)⟩
  · rw [if_neg hno]
    obtain ⟨hend, hnext⟩ := mmio_fits hbase hno
    have hlo : UTOP.toNat ≤ base.toNat := le_trans (by decide) hbase
    exact maps_map (maps_bootMapRegion (kernPerm_of (by decide)) hpa hlo hend (Or.inr hbase))
      fun _ _ hq => ⟨rfl, hnext, hq⟩

/-- Clearing an entry of a page table that is there. -/
theorem clearKernPte_spec (h : KernMem b pm) (hva : InKern va)
    (ht : target pm noRoots (.kern (pdx va)) ≠ none) :
    ∃ pm', clearKernPte b.kernPgdir va pm = .ok () pm' ∧ KernMem b pm' ∧ Grows pm pm' := by
  obtain ⟨h, rfl⟩ := h
  have hpage : target pm noRoots (.kern (pdx va)) = _ := target_kern hva.1 hva.2 noRoots
  have hp : present (pm.mem pm.boot.kernPgdir (pdx va)) = true := by
    by_contra hno
    rw [pageOf, if_neg hno] at hpage
    exact ht hpage
  rw [pageOf, if_pos hp] at hpage
  obtain ⟨h', hg, -⟩ := kernWrite_spec (w := 0#32) ⟨h, rfl⟩ hpage (by decide)
  refine ⟨_, ?_, h', hg⟩
  rw [clearKernPte, run_bind_ok (pgdirWalk_present hp (h.lt_npages hpage))]
  rfl

theorem inKern_mmio (hlo : MMIOBASE.toNat ≤ va.toNat) (hhi : va.toNat < MMIOLIM.toNat) :
    InKern va ∧ pdx va = pdx MMIOBASE := by
  have hbase : MMIOBASE.toNat = 0xEF800000 := by decide
  have hlim : MMIOLIM.toNat = 0xEFC00000 := by decide
  rw [hbase] at hlo
  rw [hlim] at hhi
  refine ⟨inKern_of_toNat ?_ (Or.inr ?_), Fin.ext ?_⟩
  · rw [UTOP_toNat]; omega
  · rw [ULIM_toNat]; omega
  · rw [pdx_val, pdx_val, hbase]; omega

/-- The address the test of `mmio_map_region` leaves for the first device. -/
def mmioStart : Word := MMIOBASE + roundUp 4097#32 + roundUp 4096#32

/-- The test of `mmio_map_region`. -/
theorem maps_checkMmio : Maps fits b (checkMmio b.kernPgdir) fun base _ => base = mmioStart := by
  have hmm1 : Maps fits b (mmioMapRegion b.kernPgdir MMIOBASE 0#32 4097#32) _ :=
    maps_mmioMapRegion (by decide) (by decide) fun _ => by decide
  have hmm2 : Maps fits b
      (mmioMapRegion b.kernPgdir (MMIOBASE + roundUp 4097#32) 0#32 4096#32) _ :=
    maps_mmioMapRegion (by decide) (by decide) fun _ => by decide
  -- the entries that are cleared are in the page table just made
  have hclear : ∀ (va : Word) {pm}, MMIOBASE.toNat ≤ va.toNat → va.toNat < MMIOLIM.toNat →
      KernMem b pm → target pm noRoots (.kern (pdx MMIOBASE)) ≠ none →
      ∃ pm', clearKernPte b.kernPgdir va pm = .ok () pm' ∧ KernMem b pm' ∧ Grows pm pm' := by
    intro va pm hlo hhi h ht
    obtain ⟨hva, hdx⟩ := inKern_mmio hlo hhi
    exact clearKernPte_spec h hva (hdx ▸ ht)
  refine ⟨fun pm h => ?_⟩
  rw [checkMmio, wp_bind]
  refine (hmm1.spec pm h).mono ?_ fun _ _ he => he
  intro mm2 pm₁ hpost
  have h₁ := hpost.1
  have hg₁ := hpost.2.1
  have hq₁ := hpost.2.2
  rw [hq₁.1]
  refine maps_then hg₁ ?_
  rw [wp_bind]
  refine (hmm2.spec pm₁ h₁).mono ?_ fun _ _ he => he
  rintro base pm₂ ⟨h₂, hg₂, hq₂⟩
  have ht₂ := hg₂.keeps _ (hq₁.2.2 (by decide))
  obtain ⟨pm₃, hrun₃, h₃, hg₃⟩ := hclear MMIOBASE (by decide) (by decide) h₂ ht₂
  obtain ⟨pm₄, hrun₄, h₄, hg₄⟩ := hclear (MMIOBASE + BitVec.ofNat 32 PGSIZE) (by decide)
    (by decide) h₃ (hg₃.keeps _ ht₂)
  obtain ⟨pm₅, hrun₅, h₅, hg₅⟩ := hclear (MMIOBASE + roundUp 4097#32) (by decide) (by decide)
    h₄ (hg₄.keeps _ (hg₃.keeps _ ht₂))
  rw [wp_bind]
  refine (wp_of_ok hrun₃).2 ?_
  rw [wp_bind]
  refine (wp_of_ok hrun₄).2 ?_
  rw [wp_bind]
  exact (wp_of_ok hrun₅).2 ⟨h₅, hg₂.trans (hg₃.trans (hg₄.trans hg₅)), hq₂.1⟩

/-- The regions of the devices fit below `MMIOLIM`. -/
def RegionsFit : Word → List (Word × Word) → Prop
  | _, [] => True
  | base, (_, size) :: devices =>
    ¬ (base + roundUp size ≥ MMIOLIM ∨ base + roundUp size < base) ∧
      RegionsFit (base + roundUp size) devices

instance : ∀ base devices, Decidable (RegionsFit base devices)
  | _, [] => isTrue trivial
  | base, (_, size) :: devices =>
    have := instDecidableRegionsFit (base + roundUp size) devices
    inferInstanceAs (Decidable (_ ∧ _))

/-- The regions of the devices. -/
theorem maps_mapDevices (devices : List (Word × Word)) :
    ∀ base : Word, (∀ d ∈ devices, pgoff d.1 = 0#32) → ULIM.toNat ≤ base.toNat →
      Maps (RegionsFit base devices) b (mapDevices b.kernPgdir base devices) fun _ _ => True := by
  induction devices with
  | nil => exact fun _ _ _ => maps_pure fun _ => trivial
  | cons dev devices ih =>
    intro base hal hbase
    refine maps_bind (maps_mmioMapRegion (hal dev (List.mem_cons_self ..)) hbase And.left) ?_
    rintro base' ⟨-, rfl, hbase', -⟩
    exact (ih _ (fun d hd => hal d (List.mem_cons_of_mem _ hd)) hbase').of_imp And.right

/-- Where the kernel stack of a CPU starts. -/
theorem kstack_toNat {i : ℕ} (hi : i < 8) :
    (KSTACKTOP - BitVec.ofNat 32 (i * (KSTKSIZE + KSTKSIZE)) - BitVec.ofNat 32 KSTKSIZE).toNat
      = 0xF0000000 - i * 65536 - 32768 := by
  have htop : KSTACKTOP.toNat = 0xF0000000 := by decide
  have hsize : (BitVec.ofNat 32 KSTKSIZE).toNat = 32768 := by decide
  rw [BitVec.toNat_sub, BitVec.toNat_sub, hsize, htop, BitVec.toNat_ofNat, KSTKSIZE, PGSIZE]
  omega

theorem kstackPa_aligned (cfg : BootConfig) (i : ℕ) :
    pgoff (cfg.percpuKstacks + BitVec.ofNat 32 (i * KSTKSIZE)) = 0#32 := by
  rw [KSTKSIZE, ← Nat.mul_assoc]
  exact pgoff_add_pages cfg.percpuKstacks_aligned _

/-- The kernel stacks. -/
theorem maps_memInitMp (cfg : BootConfig) :
    Maps fits b (memInitMp cfg b.kernPgdir) fun _ _ => True := by
  refine maps_forM fun i hi => ?_
  have hva := kstack_toNat (List.mem_range.1 hi)
  have hcount : pageCount (BitVec.ofNat 32 KSTKSIZE) = 8 := by decide
  have hi8 : i < 8 := List.mem_range.1 hi
  refine (maps_bootMapRegion (kernPerm_of (by decide)) (kstackPa_aligned cfg i) ?_ ?_
    (Or.inr ?_)).mono fun _ _ _ => trivial
  · rw [hva, UTOP_toNat]; omega
  · rw [hva, hcount, PGSIZE]; omega
  · rw [hva, ULIM_toNat]; omega

end Maps

/-! ## Self-tests -/

/-- A self-test stores to no page table. -/
theorem SelfTested.tables (h : SelfTested pm pm') (hk : KernMem b pm) (q : ℕ)
    (hq : IsTablePage pm noRoots q) : pm'.mem q = pm.mem q := by
  obtain ⟨l, hc, hnd, hmem⟩ := hk.inv.alloc.chain
  obtain ⟨l', -, -, hrest⟩ := h.free l hc
  refine (hrest q fun hql => ?_).2
  obtain ⟨hav, -, h0⟩ := (hmem q).1 hql
  exact hk.inv.not_isTablePage_of_refs hav h0 hq

/-- A self-test leaves the invariant and the number of free pages alone. -/
theorem SelfTested.kernMem (h : SelfTested pm pm') (hk : KernMem b pm) :
    KernMem b pm' ∧ Grows pm pm' := by
  obtain ⟨l, hc, hnd, hmem⟩ := hk.inv.alloc.chain
  obtain ⟨l', hperm, hc', hrest⟩ := h.free l hc
  have htab := h.tables hk
  have he : entry pm' noRoots = entry pm noRoots := entry_congr h.boot htab
  have halloc : pm'.alloc.Inv pm.boot.Avail ∅ (target pm noRoots) := by
    refine ⟨⟨l', hc', hperm.nodup_iff.2 hnd, fun p => ?_⟩, fun p hav => ?_, fun p hav hp => ?_,
      hk.inv.alloc.target_avail, hk.inv.alloc.held_avail⟩
    · rw [hperm.mem_iff, hmem]
    · have href : (pm'.alloc.ref p) = pm.alloc.ref p := h.ref p
      rw [href]
      exact hk.inv.alloc.count p hav
    · have hpl : p ∉ l := fun hpl => by
        obtain ⟨-, hnh, h0⟩ := (hmem p).1 hpl
        exact hp.elim hnh fun h => h h0
      exact (hrest p hpl).1.trans (hk.inv.alloc.unlinked p hav hp)
  refine ⟨⟨hk.inv.congr_tables h.boot htab halloc, h.boot.trans hk.boot⟩,
    fun n hn => rich_congr h.boot he hn, fun d hd => ?_⟩
  rw [target_congr he]
  exact hd

/-! ## `page_init` -/

/-- `page_init` has dealt with the pages below `m`. -/
structure PagesInit (b : BootInfo) (mem : ℕ → Idx → Word) (m : ℕ) (pm : PhysMem) : Prop where
  boot : pm.boot = b
  mem : pm.mem = mem
  chain : ∃ l, Chain pm.alloc.link pm.alloc.head l ∧ l.Nodup ∧ ∀ p, p ∈ l ↔ p < m ∧ b.Avail p
  ref : ∀ p < m, b.Avail p → pm.alloc.ref p = 0#16

section PageInit

variable {b : BootInfo} {mem : ℕ → Idx → Word} {m : ℕ} {pm : PhysMem}

/-- A page in use. -/
theorem PagesInit.reserve (h : PagesInit b mem m pm) (hres : ¬ b.Avail m) :
    PagesInit b mem (m + 1) ((pm.setRef m 1#16).setLink m none) := by
  have hlt : ∀ p, b.Avail p → (p < m + 1 ↔ p < m) := fun p hp => by
    have : p ≠ m := fun heq => hres (heq ▸ hp)
    omega
  obtain ⟨l, hc, hnd, hmem⟩ := h.chain
  refine ⟨h.boot, h.mem, ⟨l, hc.frame fun p hp => ?_, hnd, fun p => ?_⟩, fun p hp hav => ?_⟩
  · have hpm : p ≠ m := ((hmem p).1 hp).1.ne
    simp [PhysMem.alloc, PhysMem.setLink, PhysMem.setRef, hpm]
  · rw [hmem]
    exact ⟨fun hp => ⟨(hlt p hp.2).2 hp.1, hp.2⟩, fun hp => ⟨(hlt p hp.2).1 hp.1, hp.2⟩⟩
  · have hpm : p ≠ m := fun heq => hres (heq ▸ hav)
    simpa [PhysMem.alloc, PhysMem.setLink, PhysMem.setRef, hpm]
      using h.ref p ((hlt p hav).1 hp) hav

/-- A free page. -/
theorem PagesInit.release (h : PagesInit b mem m pm) (hav : b.Avail m) :
    PagesInit b mem (m + 1)
      (((pm.setRef m 0#16).setLink m pm.pageFreeList).setFreeList (some m)) := by
  obtain ⟨l, hc, hnd, hmem⟩ := h.chain
  have hml : m ∉ l := fun hml => absurd ((hmem m).1 hml).1 (lt_irrefl m)
  refine ⟨h.boot, h.mem, ⟨m :: l, ?_, List.nodup_cons.2 ⟨hml, hnd⟩, fun p => ?_⟩,
    fun p hp hpav => ?_⟩
  · refine (hc.push hml).frame fun p _ => ?_
    by_cases hpm : p = m
    · subst hpm; simp [PhysMem.alloc, PhysMem.setLink, PhysMem.setRef, PhysMem.setFreeList]
    · simp [PhysMem.alloc, PhysMem.setLink, PhysMem.setRef, PhysMem.setFreeList, hpm]
  · rw [List.mem_cons, hmem]
    constructor
    · rintro (rfl | ⟨hp, hpav⟩)
      · exact ⟨Nat.lt_succ_self p, hav⟩
      · exact ⟨by omega, hpav⟩
    · rintro ⟨hp, hpav⟩
      by_cases hpm : p = m
      · exact Or.inl hpm
      · exact Or.inr ⟨by omega, hpav⟩
  · by_cases hpm : p = m
    · subst hpm; simp [PhysMem.alloc, PhysMem.setLink, PhysMem.setRef, PhysMem.setFreeList]
    · simpa [PhysMem.alloc, PhysMem.setLink, PhysMem.setRef, PhysMem.setFreeList, hpm]
        using h.ref p (by omega) hpav

/-- The body of the loop. -/
theorem initPage_spec (h : PagesInit b mem m pm) (h0 : 0 < m) (hm : m < b.npages) :
    ∃ pm', initPage m pm = .ok () pm' ∧ PagesInit b mem (m + 1) pm' := by
  rw [initPage, run_get_bind, h.boot]
  by_cases hres : (b.npagesBasemem ≤ m ∧ m < b.kernelEndPage) ∨ m = MPENTRY_PADDR / PGSIZE
  · rw [if_pos hres]
    exact ⟨_, rfl, h.reserve fun hav => hav.2 (Or.inr hres)⟩
  · rw [if_neg hres]
    exact ⟨_, rfl, h.release ⟨hm, fun hr => hr.elim (by omega) hres⟩⟩

/-- The loop. -/
theorem initPages_spec (n : ℕ) : ∀ {m : ℕ} {pm : PhysMem}, PagesInit b mem m pm → 0 < m →
    m + n ≤ b.npages →
    ∃ pm', (List.range' m n).forM initPage pm = .ok () pm' ∧ PagesInit b mem (m + n) pm' := by
  induction n with
  | zero => exact fun {m pm} h _ _ => ⟨pm, rfl, h⟩
  | succ n ih =>
    intro m pm h h0 hn
    obtain ⟨pm₁, hrun₁, h₁⟩ := initPage_spec h h0 (by omega)
    obtain ⟨pm₂, hrun₂, h₂⟩ := ih h₁ (by omega) (by omega)
    refine ⟨pm₂, ?_, by rwa [Nat.add_right_comm] at h₂⟩
    rw [List.range'_succ]
    exact (run_bind_ok hrun₁).trans hrun₂

/-- **`page_init`** puts the pages that are not in use on the free list. -/
theorem pageInit_spec (hf : pm.pageFreeList = none) :
    ∃ pm', pageInit pm = .ok () pm' ∧ pm'.boot = pm.boot ∧ pm'.mem = pm.mem ∧
      (∃ l, Chain pm'.alloc.link pm'.alloc.head l ∧ l.Nodup ∧ ∀ p, p ∈ l ↔ pm.boot.Avail p) ∧
      ∀ p, pm.boot.Avail p → pm'.alloc.ref p = 0#16 := by
  have h0 : PagesInit pm.boot pm.mem 0 pm :=
    ⟨rfl, rfl, ⟨[], Chain.nil_iff.2 hf, List.nodup_nil, by simp⟩, fun p hp => absurd hp (by omega)⟩
  have h1 := h0.reserve fun hav => hav.2 (Or.inl rfl)
  rw [pageInit, run_modify_bind, run_get_bind]
  have hboot : ((pm.setRef 0 1#16).setLink 0 none).boot = pm.boot := rfl
  rw [hboot]
  by_cases hn : pm.boot.npages = 0
  · -- no memory at all
    have hno : ∀ p, ¬ pm.boot.Avail p := fun p hp => by have := hp.1; omega
    rw [hn]
    obtain ⟨l, hc, hnd, hmem⟩ := h1.chain
    exact ⟨_, rfl, rfl, rfl, ⟨l, hc, hnd, fun p => by simp [hmem, hno]⟩,
      fun p hp => absurd hp (hno p)⟩
  · obtain ⟨pm', hrun, h'⟩ := initPages_spec (pm.boot.npages - 1) h1 (by omega) (by omega)
    obtain ⟨l, hc, hnd, hmem⟩ := h'.chain
    refine ⟨pm', hrun, h'.boot, h'.mem, ⟨l, hc, hnd, fun p => ?_⟩, fun p hp => ?_⟩
    · rw [hmem]
      exact ⟨fun hp => hp.2, fun hp => ⟨by have := hp.1; omega, hp⟩⟩
    · exact h'.ref p (by have := hp.1; omega) hp

end PageInit

/-! ## `mem_init` -/

theorem maps_selfTest (t : SelfTest) : Maps fits b (modify t.run) fun _ _ => True :=
  ⟨fun pm h => ⟨((t.spec pm).kernMem h).1, ((t.spec pm).kernMem h).2, trivial⟩⟩

theorem maps_checkKernPgdir : Maps fits b checkKernPgdir fun _ _ => True := by
  refine ⟨fun pm h => ?_⟩
  have hn : ¬ pm.boot.npages > 65536 := Nat.not_lt.2 h.inv.table.npages_le
  rw [checkKernPgdir, wp_bind, wp_get, if_neg hn]
  exact ⟨h, .refl pm, trivial⟩

theorem pgoff_ofNat {a : ℕ} (h : PGSIZE ∣ a) : pgoff (BitVec.ofNat 32 a) = 0#32 := by
  refine BitVec.eq_of_toNat_eq ?_
  obtain ⟨c, rfl⟩ := h
  rw [pgoff_toNat, BitVec.toNat_ofNat, PGSIZE]
  simp only [BitVec.toNat_zero]
  omega

theorem pagesPa_aligned (cfg : BootConfig) : pgoff (BitVec.ofNat 32 cfg.pagesPa) = 0#32 :=
  pgoff_ofNat (Dvd.dvd.add (Nat.dvd_mul_left ..) (dvd_refl _))

theorem envsPa_aligned (cfg : BootConfig) : pgoff (BitVec.ofNat 32 cfg.envsPa) = 0#32 :=
  pgoff_ofNat (Nat.dvd_mul_left ..)

/-- The part of `mem_init` after `page_init`. -/
def memInitRest (cfg : BootConfig) (dir : ℕ) : PhysM Word := do
  modify cfg.tests.run
  let base ← checkMmio dir
  bootMapRegion dir UPAGES (BitVec.ofNat 32 PTSIZE) (BitVec.ofNat 32 cfg.pagesPa) PTE_U
  bootMapRegion dir UENVS (BitVec.ofNat 32 PTSIZE) (BitVec.ofNat 32 cfg.envsPa) PTE_U
  bootMapRegion dir (KSTACKTOP - BitVec.ofNat 32 KSTKSIZE) (BitVec.ofNat 32 KSTKSIZE)
    cfg.bootstack PTE_W
  bootMapRegion dir KERNBASE (0xffffffff#32 - KERNBASE) 0#32 PTE_W
  memInitMp cfg dir
  checkKernPgdir
  modify cfg.installedTests.run
  pure base

theorem maps_memInitRest (cfg : BootConfig) :
    Maps fits b (memInitRest cfg b.kernPgdir) fun base _ => base = mmioStart := by
  have hu : KernPerm PTE_U := kernPerm_of (by decide)
  have hw : KernPerm PTE_W := kernPerm_of (by decide)
  refine maps_bind (maps_selfTest cfg.tests) fun _ _ => ?_
  refine maps_bind maps_checkMmio fun base ⟨_, hbase⟩ => ?_
  refine maps_bind (maps_bootMapRegion hu (pagesPa_aligned cfg) (by decide) (by decide)
    (Or.inl (by decide))) fun _ _ => ?_
  refine maps_bind (maps_bootMapRegion hu (envsPa_aligned cfg) (by decide) (by decide)
    (Or.inl (by decide))) fun _ _ => ?_
  refine maps_bind (maps_bootMapRegion hw cfg.bootstack_aligned (by decide) (by decide)
    (Or.inr (by decide))) fun _ _ => ?_
  refine maps_bind (maps_bootMapRegion hw (by decide) (by decide) (by decide)
    (Or.inr (by decide))) fun _ _ => ?_
  refine maps_bind (maps_memInitMp cfg) fun _ _ => ?_
  refine maps_bind maps_checkKernPgdir fun _ _ => ?_
  exact maps_map (maps_selfTest cfg.installedTests) fun _ _ _ => hbase

/-- With an empty `kern_pgdir` nothing refers to any page. -/
theorem target_empty (h : ∀ d, d ≠ uvptDx → pm.mem pm.boot.kernPgdir d = 0#32) (s : Site) :
    target pm noRoots s = none := by
  cases s with
  | dir e => rfl
  | pde e d | pte e d t => rw [target, entry_noRoots (by simp)]; rfl
  | kern d =>
    rw [target, entry]
    split
    · next hd => rw [h d hd.2]; rfl
    · rfl

/-- The pages `page_init` has to give away. -/
def BootInfo.availSet (b : BootInfo) : Finset ℕ := (Finset.range b.npages).filter b.Avail

/-- The invariant holds once all free pages are on the list. -/
theorem kernMem_of_pageInit (hn : pm.boot.npages ≤ 65536) (hk : ¬ pm.boot.Avail pm.boot.kernPgdir)
    (h0 : ∀ d, d ≠ uvptDx → pm.mem pm.boot.kernPgdir d = 0#32)
    (hc : ∃ l, Chain pm.alloc.link pm.alloc.head l ∧ l.Nodup ∧ ∀ p, p ∈ l ↔ pm.boot.Avail p)
    (hr : ∀ p, pm.boot.Avail p → pm.alloc.ref p = 0#16) :
    KernMem pm.boot pm ∧ ∀ n, 1024 + n ≤ pm.boot.availSet.card → Rich n pm := by
  have ht := target_empty h0
  have hrefs : ∀ p, refs (target pm noRoots) p = 0 := fun p =>
    refs_eq_zero.2 fun s => by rw [ht s]; simp
  obtain ⟨l, hch, hnd, hmem⟩ := hc
  refine ⟨⟨⟨⟨⟨l, hch, hnd, fun p => ?_⟩, fun p hp => ?_, fun p _ hp => ?_, fun s p hs => ?_,
    by simp⟩, hn, hk, fun s p _ hs => ?_, fun _ _ _ h => ?_, fun _ _ h => ?_, fun e d w hw => ?_,
    fun d q t hq => ?_⟩, rfl⟩, fun n hc => ?_⟩
  · rw [hmem]
    simp [hrefs]
  · rw [hr p hp, hrefs]
    rfl
  · exact absurd hp (by simp [hrefs])
  · rw [ht s] at hs
    cases hs
  · rw [ht s] at hs
    cases hs
  · cases h
  · cases h
  · rw [entry_noRoots (by simp)] at hw
    cases hw
  · rw [ht] at hq
    cases hq
  · have hset : freeSet pm noRoots ∅ = pm.boot.availSet := by
      ext p
      simp [mem_freeSet, BootInfo.availSet, hrefs, BootInfo.Avail]
    have habs : (absentTables pm).card ≤ 1024 :=
      (Finset.card_le_univ _).trans (by simp)
    rw [Rich, hset]
    omega

/-- The state `page_init` leaves, with `kern_pgdir` empty but for `UVPT`. -/
theorem memInit_start (cfg : BootConfig) (hn : pm.boot.npages ≤ 65536)
    (hk : ¬ pm.boot.Avail pm.boot.kernPgdir) (hf : pm.pageFreeList = none) :
    ∃ pm₁, memInit cfg pm = memInitRest cfg pm.boot.kernPgdir pm₁ ∧ KernMem pm.boot pm₁ ∧
      (∀ d, d ≠ uvptDx → pm₁.mem pm.boot.kernPgdir d = 0#32) ∧
      ∀ n, 1024 + n ≤ pm.boot.availSet.card → Rich n pm₁ := by
  set dir := pm.boot.kernPgdir with hdir
  set pm₀ := (pm.setPage dir fun _ => 0#32).write ⟨dir, uvptDx⟩ (page2pa dir ||| PTE_U ||| PTE_P)
  have hf₀ : pm₀.pageFreeList = none := hf
  have hboot₀ : pm₀.boot = pm.boot := rfl
  obtain ⟨pm₁, hrun, hboot, hmem, hc, hr⟩ := pageInit_spec hf₀
  rw [hboot₀] at hboot
  have h0 : ∀ d, d ≠ uvptDx → pm₁.mem dir d = 0#32 := by
    intro d hd
    rw [hmem]
    simp [pm₀, PhysMem.write, PhysMem.setPage, hd]
  have h0' : ∀ d, d ≠ uvptDx → pm₁.mem pm₁.boot.kernPgdir d = 0#32 := by
    rw [hboot, ← hdir]
    exact h0
  obtain ⟨hk₁, hrich⟩ := kernMem_of_pageInit (hboot ▸ hn) (hboot ▸ hk) h0' (hboot ▸ hc)
    (hboot ▸ hr)
  rw [hboot] at hk₁ hrich
  refine ⟨pm₁, ?_, hk₁, h0, hrich⟩
  rw [memInit, run_get_bind, run_modify_bind, run_modify_bind]
  exact run_bind_ok hrun

/-- **`mem_init` establishes the invariant of physical memory**, and does not
run out of memory if there are as many pages as there may be page tables. -/
theorem memInit_spec (cfg : BootConfig) (hn : pm.boot.npages ≤ 65536)
    (hk : ¬ pm.boot.Avail pm.boot.kernPgdir) (hf : pm.pageFreeList = none) :
    wp (memInit cfg)
      (fun base pm' => KernMem pm.boot pm' ∧ base = mmioStart ∧
        ∀ n, 1024 + n ≤ pm.boot.availSet.card → Rich n pm')
      (fun _ _ => pm.boot.availSet.card < 1024) pm := by
  obtain ⟨pm₁, hrun, hk₁, -, hrich⟩ := memInit_start cfg hn hk hf
  have hrest : Maps True pm.boot _ _ := maps_memInitRest cfg
  rw [wp, hrun]
  refine (hrest.spec pm₁ hk₁).mono ?_ ?_
  · rintro base pm' ⟨hk', hg, hbase⟩
    exact ⟨hk', hbase, fun n hn => hg.rich n (hrich n hn)⟩
  · intro _ _ hpoor
    by_contra hge
    exact hpoor trivial 0 (hrich 0 (by omega))

/-! ## The amount of memory -/

/-- The code leaves alone what boot fixes. -/
structure KeepsBoot {α : Type} (x : PhysM α) : Prop where
  keeps : ∀ {pm a pm'}, x pm = .ok a pm' → pm'.boot = pm.boot

section KeepsBoot

variable {α β : Type} {x : PhysM α}

theorem keepsBoot_pure (a : α) : KeepsBoot (pure a) := ⟨fun h => by cases h; rfl⟩

theorem keepsBoot_throw (p : Panic) : KeepsBoot (throw p : PhysM α) := ⟨fun h => by cases h⟩

theorem keepsBoot_get : KeepsBoot (get : PhysM PhysMem) := ⟨fun h => by cases h; rfl⟩

theorem keepsBoot_modify {f : PhysMem → PhysMem} (hf : ∀ pm, (f pm).boot = pm.boot) :
    KeepsBoot (modify f) := ⟨fun h => by cases h; exact hf _⟩

theorem keepsBoot_bind {f : α → PhysM β} (hx : KeepsBoot x) (hf : ∀ a, KeepsBoot (f a)) :
    KeepsBoot (x >>= f) := by
  refine ⟨fun h => ?_⟩
  obtain ⟨a, pm₁, h₁, h₂⟩ := run_bind_inv h
  exact ((hf a).keeps h₂).trans (hx.keeps h₁)

theorem keepsBoot_ite {c : Prop} [Decidable c] {y : PhysM α} (hx : KeepsBoot x)
    (hy : KeepsBoot y) : KeepsBoot (if c then x else y) := by
  split
  · exact hx
  · exact hy

theorem keepsBoot_forM {γ : Type} {g : γ → PhysM Unit} (h : ∀ a, KeepsBoot (g a)) (l : List γ) :
    KeepsBoot (l.forM g) := by
  induction l with
  | nil => exact keepsBoot_pure _
  | cons a l ih => exact keepsBoot_bind (h a) fun _ => ih

theorem keepsBoot_kaddr (pa : Word) : KeepsBoot (kaddr pa) :=
  keepsBoot_bind keepsBoot_get fun _ => keepsBoot_ite (keepsBoot_throw _) (keepsBoot_pure _)

theorem keepsBoot_pageAlloc (z : Bool) : KeepsBoot (pageAlloc z) := by
  refine keepsBoot_bind keepsBoot_get fun pm => ?_
  cases pm.pageFreeList with
  | none => exact keepsBoot_pure _
  | some p =>
    refine keepsBoot_bind (keepsBoot_modify fun _ => rfl) fun _ => ?_
    refine keepsBoot_ite (keepsBoot_bind (keepsBoot_kaddr _) fun kva => ?_) (keepsBoot_pure _)
    exact keepsBoot_bind (keepsBoot_modify fun _ => rfl) fun _ => keepsBoot_pure _

theorem keepsBoot_pgdirWalk (r : ℕ) (va : Word) (c : Bool) : KeepsBoot (pgdirWalk r va c) := by
  refine keepsBoot_bind keepsBoot_get fun pm => keepsBoot_ite ?_ (keepsBoot_ite ?_ ?_)
  · exact keepsBoot_bind (keepsBoot_kaddr _) fun _ => keepsBoot_pure _
  · exact keepsBoot_pure _
  · refine keepsBoot_bind (keepsBoot_pageAlloc _) fun o => ?_
    cases o with
    | none => exact keepsBoot_pure _
    | some p =>
      refine keepsBoot_bind (keepsBoot_modify fun _ => rfl) fun _ => ?_
      refine keepsBoot_bind (keepsBoot_modify fun _ => rfl) fun _ => ?_
      exact keepsBoot_bind (keepsBoot_kaddr _) fun _ => keepsBoot_pure _

theorem keepsBoot_bootMapLoop (r : ℕ) (perm : Word) (n : ℕ) :
    ∀ va pa, KeepsBoot (bootMapLoop r perm n va pa) := by
  induction n with
  | zero => exact fun _ _ => keepsBoot_pure _
  | succ n ih =>
    intro va pa
    refine keepsBoot_bind (keepsBoot_pgdirWalk _ _ _) fun o => ?_
    cases o with
    | none => exact keepsBoot_throw _
    | some pte => exact keepsBoot_bind (keepsBoot_modify fun _ => rfl) fun _ => ih _ _

theorem keepsBoot_bootMapRegion (r : ℕ) (va size pa perm : Word) :
    KeepsBoot (bootMapRegion r va size pa perm) :=
  keepsBoot_bootMapLoop _ _ _ _ _

theorem keepsBoot_mmioMapRegion (r : ℕ) (base pa size : Word) :
    KeepsBoot (mmioMapRegion r base pa size) := by
  unfold mmioMapRegion
  refine keepsBoot_ite (keepsBoot_throw _) ?_
  exact keepsBoot_bind (keepsBoot_bootMapRegion ..) fun _ => keepsBoot_pure _

theorem keepsBoot_clearKernPte (r : ℕ) (va : Word) : KeepsBoot (clearKernPte r va) := by
  refine keepsBoot_bind (keepsBoot_pgdirWalk _ _ _) fun o => ?_
  cases o with
  | none => exact keepsBoot_throw _
  | some pte => exact keepsBoot_modify fun _ => rfl

theorem keepsBoot_checkMmio (r : ℕ) : KeepsBoot (checkMmio r) := by
  refine keepsBoot_bind (keepsBoot_mmioMapRegion ..) fun mm2 => ?_
  refine keepsBoot_bind (keepsBoot_mmioMapRegion ..) fun base => ?_
  refine keepsBoot_bind (keepsBoot_clearKernPte ..) fun _ => ?_
  refine keepsBoot_bind (keepsBoot_clearKernPte ..) fun _ => ?_
  exact keepsBoot_bind (keepsBoot_clearKernPte ..) fun _ => keepsBoot_pure _

theorem keepsBoot_pageInit : KeepsBoot pageInit := by
  refine keepsBoot_bind (keepsBoot_modify fun _ => rfl) fun _ => ?_
  refine keepsBoot_bind keepsBoot_get fun pm => keepsBoot_forM (fun i => ?_) _
  refine keepsBoot_bind keepsBoot_get fun pm => keepsBoot_ite ?_ ?_
  · exact keepsBoot_modify fun _ => rfl
  · exact keepsBoot_modify fun _ => rfl

end KeepsBoot

/-- If `mem_init` returns, all of memory lies in the window at `KERNBASE`. -/
theorem memInit_npages {cfg : BootConfig} (h : memInit cfg pm = .ok base pm') :
    pm.boot.npages ≤ 65536 := by
  have hfront : ∀ {α β : Type} {x : PhysM α} {f : α → PhysM β} {n : ℕ} {r : β} {s s' : PhysMem},
      (x >>= f) s = .ok r s' → s.boot.npages = n → KeepsBoot x →
      ∃ a s₁, s₁.boot.npages = n ∧ f a s₁ = .ok r s' := by
    intro α β x f n r s s' hrun hn hx
    obtain ⟨a, s₁, h₁, h₂⟩ := run_bind_inv hrun
    exact ⟨a, s₁, by rw [hx.keeps h₁, hn], h₂⟩
  rw [memInit, run_get_bind] at h
  -- up to the check everything keeps the amount of memory
  obtain ⟨-, s₁, hn, h⟩ := hfront h rfl (keepsBoot_modify fun _ => rfl)
  obtain ⟨-, s₂, hn, h⟩ := hfront h hn (keepsBoot_modify fun _ => rfl)
  obtain ⟨-, s₃, hn, h⟩ := hfront h hn keepsBoot_pageInit
  obtain ⟨-, s₄, hn, h⟩ := hfront h hn (keepsBoot_modify fun pm => (cfg.tests.spec pm).boot)
  obtain ⟨base', s₅, hn, h⟩ := hfront h hn (keepsBoot_checkMmio _)
  obtain ⟨-, s₆, hn, h⟩ := hfront h hn (keepsBoot_bootMapRegion ..)
  obtain ⟨-, s₇, hn, h⟩ := hfront h hn (keepsBoot_bootMapRegion ..)
  obtain ⟨-, s₈, hn, h⟩ := hfront h hn (keepsBoot_bootMapRegion ..)
  obtain ⟨-, s₉, hn, h⟩ := hfront h hn (keepsBoot_bootMapRegion ..)
  obtain ⟨-, s₁₀, hn, h⟩ :=
    hfront h hn (keepsBoot_forM (fun _ => keepsBoot_bootMapRegion ..) _)
  obtain ⟨_, s₁₁, hcheck, -⟩ := run_bind_inv h
  rw [checkKernPgdir, run_get_bind] at hcheck
  split at hcheck
  · cases hcheck
  · omega

end Jos
