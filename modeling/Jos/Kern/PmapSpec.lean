import Jos.Kern.PmapInv

/-!
# What the page functions do

Each function of `kern/pmap.c` is described twice.

* First by an exact equation (`pageAlloc_some`, `pageDecref_eq`,
  `pgdirWalk_new`, …): which state it returns in, as a composition of a few
  named updates (`takeFree`, `putFree`, `drop`, `newTable`).
* Then by what those updates do to the invariant `MemInv` and to the entries of
  all page tables.

Callers use these facts and never unfold the functions.
-/

namespace Jos

open Function (update update_comm update_eq_self update_idem update_of_ne update_self)

namespace PhysMem

/-! ## Updates -/

/-- Take page `p` off the head of the free list. -/
def takeFree (pm : PhysMem) (p : ℕ) : PhysMem :=
  (pm.setFreeList (pm.pages p).ppLink).setLink p none

/-- Put page `p` at the head of the free list. -/
def putFree (pm : PhysMem) (p : ℕ) : PhysMem :=
  (pm.setLink p pm.pageFreeList).setFreeList (some p)

/-- Count one more reference to `p`. -/
def incr (pm : PhysMem) (p : ℕ) : PhysMem := pm.setRef p ((pm.pages p).ppRef + 1#16)

/-- Count one reference less to `p`. -/
def decr (pm : PhysMem) (p : ℕ) : PhysMem := pm.setRef p ((pm.pages p).ppRef - 1#16)

/-- Drop a reference to `p`, freeing it if it was the last one counted. -/
def drop (pm : PhysMem) (p : ℕ) : PhysMem :=
  if (pm.pages p).ppRef - 1#16 = 0#16 then (pm.decr p).putFree p else pm.decr p

/-- The directory entry `pgdir_walk` makes for a new page table. -/
def newPde (p : ℕ) : Word := page2pa p ||| PTE_U ||| PTE_P ||| PTE_W

/-- Make page `p`, the head of the free list, the page table at entry `d` of
page directory `r`. -/
def newTable (pm : PhysMem) (r : ℕ) (d : Idx) (p : ℕ) : PhysMem :=
  (((pm.takeFree p).setPage p fun _ => 0#32).incr p).write ⟨r, d⟩ (newPde p)

/-- Fill entry `t` of page table `q`, which entry `d` of page directory `r`
refers to, with page `p`. -/
def fill (pm : PhysMem) (r : ℕ) (d : Idx) (q : ℕ) (t : Idx) (p : ℕ) (perm : Word) : PhysMem :=
  let pm' := (pm.incr p).write ⟨q, t⟩ (mkPte p perm)
  pm'.write ⟨r, d⟩ (pm'.mem r d ||| perm)

section Fields

variable (pm : PhysMem) (p r : ℕ) (d : Idx) (x : PtePtr) (w : Word) (f : Idx → Word)

@[simp] theorem write_boot : (pm.write x w).boot = pm.boot := rfl

@[simp] theorem takeFree_mem : (pm.takeFree p).mem = pm.mem := rfl
@[simp] theorem incr_mem : (pm.incr p).mem = pm.mem := rfl

@[simp] theorem drop_boot : (pm.drop p).boot = pm.boot := by unfold drop; split <;> rfl
@[simp] theorem drop_mem : (pm.drop p).mem = pm.mem := by unfold drop; split <;> rfl

/-- Memory and reference counts do not interfere. -/
theorem drop_write : (pm.write x w).drop p = (pm.drop p).write x w := by
  unfold drop
  rw [apply_ite fun pm : PhysMem => pm.write x w]
  rfl

@[simp] theorem alloc_write : (pm.write x w).alloc = pm.alloc := rfl
@[simp] theorem alloc_setPage : (pm.setPage p f).alloc = pm.alloc := rfl

end Fields

/-! ### The updates are those of the reference-counting allocator -/

theorem link_setLink (pm : PhysMem) (p : ℕ) (l : Option ℕ) :
    (fun q => ((pm.setLink p l).pages q).ppLink)
      = update (fun q => (pm.pages q).ppLink) p l := by
  funext q
  by_cases hq : q = p
  · subst hq; simp [setLink]
  · simp [setLink, hq]

theorem ref_setLink (pm : PhysMem) (p : ℕ) (l : Option ℕ) (q : ℕ) :
    ((pm.setLink p l).pages q).ppRef = (pm.pages q).ppRef := by
  by_cases hq : q = p
  · subst hq; simp [setLink]
  · simp [setLink, hq]

theorem ref_setRef (pm : PhysMem) (p : ℕ) (n : BitVec 16) :
    (fun q => ((pm.setRef p n).pages q).ppRef)
      = update (fun q => (pm.pages q).ppRef) p n := by
  funext q
  by_cases hq : q = p
  · subst hq; simp [setRef]
  · simp [setRef, hq]

theorem link_setRef (pm : PhysMem) (p : ℕ) (n : BitVec 16) (q : ℕ) :
    ((pm.setRef p n).pages q).ppLink = (pm.pages q).ppLink := by
  by_cases hq : q = p
  · subst hq; simp [setRef]
  · simp [setRef, hq]

@[simp] theorem alloc_takeFree (pm : PhysMem) (p : ℕ) : (pm.takeFree p).alloc = pm.alloc.pop p := by
  have hl := link_setLink (pm.setFreeList (pm.pages p).ppLink) p none
  have hr := ref_setLink (pm.setFreeList (pm.pages p).ppLink) p none
  simp only [alloc, takeFree, RefAlloc.pop, RefAlloc.mk.injEq]
  exact ⟨rfl, hl, funext hr⟩

@[simp] theorem alloc_putFree (pm : PhysMem) (p : ℕ) : (pm.putFree p).alloc = pm.alloc.push p := by
  simp only [alloc, putFree, RefAlloc.push, RefAlloc.mk.injEq]
  exact ⟨rfl, link_setLink pm p _, funext (ref_setLink pm p _)⟩

@[simp] theorem alloc_incr (pm : PhysMem) (p : ℕ) : (pm.incr p).alloc = pm.alloc.incr p := by
  simp only [alloc, incr, RefAlloc.incr, RefAlloc.mk.injEq]
  exact ⟨rfl, funext (link_setRef pm p _), ref_setRef pm p _⟩

@[simp] theorem alloc_decr (pm : PhysMem) (p : ℕ) : (pm.decr p).alloc = pm.alloc.decr p := by
  simp only [alloc, decr, RefAlloc.decr, RefAlloc.mk.injEq]
  exact ⟨rfl, funext (link_setRef pm p _), ref_setRef pm p _⟩

end PhysMem

/-! ## Exact equations -/

variable {z : Bool}

section Equations

variable {pm : PhysMem} {p r : ℕ} {va : Word}

theorem kaddr_eq {pa : Word} (h : pgnum pa < pm.boot.npages) :
    kaddr pa pm = .ok (pgnum pa) pm := by
  rw [kaddr, run_get_bind, if_neg (by omega), run_pure]

theorem pa2page_eq {pa : Word} (h : pgnum pa < pm.boot.npages) :
    pa2page pa pm = .ok (pgnum pa) pm := by
  rw [pa2page, run_get_bind, if_neg (by omega), run_pure]

theorem pageAlloc_none (h : pm.pageFreeList = none) : pageAlloc z pm = .ok none pm := by
  simp only [pageAlloc, run_get_bind, h, run_pure]

/-- `page_alloc` returns the head of the free list, cleared if asked to. -/
theorem pageAlloc_some (h : pm.pageFreeList = some p) (hp : p < pm.boot.npages)
    (hp20 : p < 2 ^ 20) :
    pageAlloc z pm = .ok (some p)
      (if z then (pm.takeFree p).setPage p fun _ => 0#32 else pm.takeFree p) := by
  have hk : page2kva p (pm.takeFree p) = .ok p (pm.takeFree p) := by
    have hpg : pgnum (page2pa p) = p := pgnum_page2pa hp20
    rw [page2kva, kaddr_eq (by rw [hpg]; exact hp), hpg]
  simp only [pageAlloc, run_get_bind, h]
  cases z with
  | false => rfl
  | true =>
    rw [run_modify_bind, if_pos rfl]
    exact run_bind_ok hk

/-- `page_decref`, on a page that is not on the free list. -/
theorem pageDecref_eq (h : (pm.pages p).ppLink = none) : pageDecref p pm = .ok () (pm.drop p) := by
  have href : ((pm.decr p).pages p).ppRef = (pm.pages p).ppRef - 1#16 := by
    simp [PhysMem.decr, PhysMem.setRef]
  have hlink : ((pm.decr p).pages p).ppLink = none := by
    rw [PhysMem.decr, PhysMem.link_setRef, h]
  rw [pageDecref, run_modify_bind, run_get_bind]
  change (if ((pm.decr p).pages p).ppRef = 0#16 then pageFree p else pure ()) (pm.decr p) = _
  rw [href, PhysMem.drop]
  split
  · next h0 =>
      rw [pageFree, run_get_bind, if_neg (by simp [hlink, href, h0])]
      rfl
  · rfl

/-- `pgdir_walk` follows a directory entry that is present. -/
theorem pgdirWalk_present {c : Bool} (h : present (pm.mem r (pdx va)) = true)
    (hq : pgnum (pm.mem r (pdx va)) < pm.boot.npages) :
    pgdirWalk r va c pm = .ok (some ⟨pgnum (pm.mem r (pdx va)), ptx va⟩) pm := by
  have hk : kaddr (pteAddr (pm.mem r (pdx va))) pm = .ok (pgnum (pm.mem r (pdx va))) pm := by
    rw [kaddr_eq (by rwa [pgnum_pteAddr]), pgnum_pteAddr]
  rw [pgdirWalk, run_get_bind, if_pos h, run_bind_ok hk, run_pure]

theorem pgdirWalk_absent (h : present (pm.mem r (pdx va)) = false) :
    pgdirWalk r va false pm = .ok none pm := by
  rw [pgdirWalk, run_get_bind, if_neg (by simp [h])]
  rfl

/-- With no free page left, `pgdir_walk` cannot make a page table. -/
theorem pgdirWalk_noMem (h : present (pm.mem r (pdx va)) = false)
    (hf : pm.pageFreeList = none) : pgdirWalk r va true pm = .ok none pm := by
  rw [pgdirWalk, run_get_bind, if_neg (by simp [h]), if_neg (by simp),
    run_bind_ok (pageAlloc_none hf)]
  rfl

theorem pgnum_newPde (hp20 : p < 2 ^ 20) : pgnum (PhysMem.newPde p) = p := by
  rw [PhysMem.newPde, pgnum_or_flags flagsOnly_PTE_W, pgnum_or_flags flagsOnly_PTE_P,
    pgnum_or_flags flagsOnly_PTE_U, pgnum_page2pa hp20]

theorem present_newPde (p : ℕ) : present (PhysMem.newPde p) = true := by
  have hcomm : PhysMem.newPde p = page2pa p ||| PTE_U ||| PTE_W ||| PTE_P := by
    unfold PhysMem.newPde
    rw [BitVec.or_assoc, BitVec.or_comm PTE_P, ← BitVec.or_assoc]
  rw [hcomm, present_or_P]

theorem grants_newPde (p : ℕ) :
    grants (PhysMem.newPde p) (PTE_P ||| PTE_W ||| PTE_U) = true := by
  have hor : PhysMem.newPde p = page2pa p ||| (PTE_P ||| PTE_W ||| PTE_U) := by
    have hflags : PTE_U ||| PTE_P ||| PTE_W = PTE_P ||| PTE_W ||| PTE_U := by decide
    rw [← hflags, PhysMem.newPde, BitVec.or_assoc, BitVec.or_assoc, BitVec.or_assoc]
  rw [hor, grants_or_self]

/-- Otherwise it makes one of the head of the free list. -/
theorem pgdirWalk_new (h : present (pm.mem r (pdx va)) = false)
    (hf : pm.pageFreeList = some p) (hp : p < pm.boot.npages) (hp20 : p < 2 ^ 20) :
    pgdirWalk r va true pm = .ok (some ⟨p, ptx va⟩) (pm.newTable r (pdx va) p) := by
  have hpg : pgnum (pteAddr (PhysMem.newPde p)) = p := by rw [pgnum_pteAddr, pgnum_newPde hp20]
  have hk : kaddr (pteAddr (PhysMem.newPde p)) (pm.newTable r (pdx va) p)
      = .ok p (pm.newTable r (pdx va) p) := by
    rw [kaddr_eq (by rw [hpg]; exact hp), hpg]
  rw [pgdirWalk, run_get_bind, if_neg (by simp [h]), if_neg (by simp),
    run_bind_ok (pageAlloc_some hf hp hp20)]
  exact run_bind_ok hk

end Equations

/-! ## What the updates do to the invariant -/

theorem TableInv.congr {pm pm' : PhysMem} {roots : EnvIdx → Option ℕ} (h : TableInv pm roots)
    (hb : pm'.boot = pm.boot) (hm : ∀ q, IsTablePage pm roots q → pm'.mem q = pm.mem q) :
    TableInv pm' roots := by
  have he := entry_congr hb hm
  have ht := target_congr he
  have hk : pm'.mem pm'.boot.kernPgdir = pm.mem pm.boot.kernPgdir := by
    rw [hb, hm _ (Or.inl rfl)]
  have hroot : ∀ {e r}, roots e = some r → pm'.mem r = pm.mem r := fun {e r} hr =>
    hm r (Or.inr ⟨.dir e, trivial, hr⟩)
  refine ⟨by rw [hb]; exact h.npages_le, by rw [hb]; exact h.kern_reserved,
    by rw [ht]; exact h.table_once, ?_, ?_, by rw [he]; exact h.pde_flags, ?_⟩
  · intro e r d hr hd hne
    rw [hroot hr, hk]
    exact h.kern_half e r d hr hd hne
  · intro e r hr
    rw [hroot hr]
    exact h.uvpt e r hr
  · intro d q t hq
    rw [ht] at hq
    rw [hm q (Or.inr ⟨.kern d, trivial, hq⟩)]
    exact h.kern_ro d q t hq

namespace MemInv

variable {pm pm' : PhysMem} {roots : EnvIdx → Option ℕ} {held held' : Finset ℕ}
  {e : EnvIdx} {r q p : ℕ} {d t : Idx} {w : Word}

/-- Changes outside the tables matter to the allocator only. -/
theorem congr_tables (h : MemInv pm roots held) (hb : pm'.boot = pm.boot)
    (hm : ∀ q, IsTablePage pm roots q → pm'.mem q = pm.mem q)
    (ha : pm'.alloc.Inv pm.boot.Avail held' (target pm roots)) : MemInv pm' roots held' := by
  refine ⟨?_, h.table.congr hb hm⟩
  rw [hb, target_congr (entry_congr hb hm)]
  exact ha

theorem takeFree (h : MemInv pm roots held) (hf : pm.pageFreeList = some p) :
    MemInv (pm.takeFree p) roots (insert p held) := by
  refine h.congr_tables rfl (fun _ _ => rfl) ?_
  rw [PhysMem.alloc_takeFree]
  exact h.alloc.pop hf

/-- The contents of a page that holds no table do not matter. -/
theorem setPage (h : MemInv pm roots held) (hp : ¬ IsTablePage pm roots p) (f : Idx → Word) :
    MemInv (pm.setPage p f) roots held := by
  refine h.congr_tables rfl (fun q hq => update_of_ne ?_ _ _) h.alloc
  rintro rfl
  exact hp hq

/-- The head of the free list is managed, not held, and referred to by nobody. -/
theorem head_spec (h : MemInv pm roots held) (hf : pm.pageFreeList = some p) :
    pm.boot.Avail p ∧ p ∉ held ∧ refs (target pm roots) p = 0 :=
  h.alloc.head_spec hf

theorem not_isTablePage_of_held (h : MemInv pm roots held) (hp : p ∈ held) :
    ¬ IsTablePage pm roots p :=
  h.not_isTablePage_of_refs (h.alloc.held_avail p hp).1 (h.alloc.held_avail p hp).2

/-- A store to a page table keeps the tables apart, as long as it maps no
page that holds a table. -/
theorem table_write_pte (h : MemInv pm roots held) (hq : target pm roots (.pde e d) = some q)
    (t : Idx) (hw : ∀ p, pageOf w = some p → ¬ IsTablePage pm roots p) :
    TableInv (pm.write ⟨q, t⟩ w) roots := by
  have he := h.entry_write_pte hq t w
  have ht : target (pm.write ⟨q, t⟩ w) roots
      = update (target pm roots) (.pte e d t) (pageOf w) := by
    rw [pageOf_eq]
    exact target_update he (by simp)
  have hmem : ∀ s q', s ≠ Site.pde e d → s.IsTable → target pm roots s = some q' →
      (pm.write ⟨q, t⟩ w).mem q' = pm.mem q' := by
    intro s q' hs hst hsq
    refine update_of_ne ?_ _ _
    rintro rfl
    exact hs (h.site_unique (s := .pde e d) trivial hq hsq)
  have hk : (pm.write ⟨q, t⟩ w).mem pm.boot.kernPgdir = pm.mem pm.boot.kernPgdir :=
    update_of_ne (h.target_ne_kern hq).symm _ _
  refine ⟨h.table.npages_le, h.table.kern_reserved, ?_, ?_, ?_, ?_, ?_⟩
  · rw [ht]
    cases hp : pageOf w with
    | none => exact h.table.table_once.update_none _
    | some p =>
      exact h.table.table_once.update_shared id
        fun s' hs' hsp => hw p hp (Or.inr ⟨s', hs', hsp⟩)
  · intro e' r' d' hr' hd' hne
    rw [hmem (.dir e') r' (by simp) trivial hr', PhysMem.write_boot, hk]
    exact h.table.kern_half e' r' d' hr' hd' hne
  · intro e' r' hr'
    rw [hmem (.dir e') r' (by simp) trivial hr']
    exact h.table.uvpt e' r' hr'
  · intro e' d' x hx
    rw [he, update_of_ne (by simp)] at hx
    exact h.table.pde_flags e' d' x hx
  · intro d' q' t' hq'
    rw [ht, update_of_ne (by simp)] at hq'
    rw [hmem (.kern d') q' (by simp) trivial hq']
    exact h.table.kern_ro d' q' t' hq'

/-- A store to a directory entry below `UTOP` keeps the kernel half. -/
theorem table_write_pde (h : MemInv pm roots held) (hr : roots e = some r) (hd : d < utopDx)
    (hbelow : ∀ t,
      (presentEntry w).bind (fun x => presentEntry ((pm.write ⟨r, d⟩ w).mem (pgnum x) t))
        = entry pm roots (.pte e d t))
    (hflags : present w = true → grants w (PTE_P ||| PTE_W ||| PTE_U) = true)
    (honce : Exclusive Site.IsTable (update (target pm roots) (.pde e d) (pageOf w))) :
    TableInv (pm.write ⟨r, d⟩ w) roots := by
  have he := h.entry_write_pde hr hd hbelow
  have ht : target (pm.write ⟨r, d⟩ w) roots
      = update (target pm roots) (.pde e d) (pageOf w) := by
    rw [pageOf_eq]
    exact target_update he (by simp)
  have hdir : target pm roots (.dir e) = some r := hr
  -- above `UTOP` no page directory changes
  have hup : ∀ q' d', utopDx ≤ d' → (pm.write ⟨r, d⟩ w).mem q' d' = pm.mem q' d' := by
    intro q' d' hd'
    have hdd : d' ≠ d := by
      rintro rfl
      exact absurd hd (not_lt.2 hd')
    by_cases hq' : q' = r
    · subst hq'; simp [PhysMem.write, hdd]
    · simp [PhysMem.write, hq']
  refine ⟨h.table.npages_le, h.table.kern_reserved, by rw [ht]; exact honce, ?_, ?_, ?_, ?_⟩
  · intro e' r' d' hr' hd' hne
    rw [hup _ _ hd', PhysMem.write_boot, hup _ _ hd']
    exact h.table.kern_half e' r' d' hr' hd' hne
  · intro e' r' hr'
    rw [hup _ _ (by decide)]
    exact h.table.uvpt e' r' hr'
  · intro e' d' x hx
    by_cases hs : Site.pde e' d' = .pde e d
    · rw [he, hs, update_self, presentEntry_eq_some] at hx
      obtain ⟨hpres, rfl⟩ := hx
      exact hflags hpres
    · rw [he, update_of_ne hs] at hx
      exact h.table.pde_flags e' d' x hx
  · intro d' q' t' hq'
    rw [ht, update_of_ne (by simp)] at hq'
    have hne : q' ≠ r := by
      rintro rfl
      exact absurd (h.site_unique (s := .dir e) trivial hdir hq') (by simp)
    have hm : (pm.write ⟨r, d⟩ w).mem q' = pm.mem q' := update_of_ne hne _ _
    rw [hm]
    exact h.table.kern_ro d' q' t' hq'

/-! ### A new page table -/

/-- `pgdir_walk`'s new page table: one more directory entry, nothing mapped. -/
theorem newTable (h : MemInv pm roots held) (hf : pm.pageFreeList = some p)
    (hr : roots e = some r) (hd : d < utopDx) (hn : present (pm.mem r d) = false) :
    MemInv (pm.newTable r d p) roots held ∧
      entry (pm.newTable r d p) roots
        = update (entry pm roots) (.pde e d) (some (PhysMem.newPde p)) := by
  obtain ⟨hav, hnh, h0⟩ := h.head_spec hf
  have hp20 : p < 2 ^ 20 := h.lt_two_pow hav.1
  have h1 := h.takeFree hf
  have hnt := h1.not_isTablePage_of_held (Finset.mem_insert_self p held)
  have h2 := h1.setPage hnt fun _ => 0#32
  set pm2 := (pm.takeFree p).setPage p fun _ => 0#32 with hpm2
  have he2 : entry pm2 roots = entry pm roots := by
    refine entry_congr rfl fun q hq => update_of_ne ?_ _ _
    rintro rfl
    exact h.not_isTablePage_of_refs hav h0 hq
  have ht2 : target pm2 roots = target pm roots := target_congr he2
  have hrp : r ≠ p := by
    rintro rfl
    exact refs_ne_zero (show target pm roots (.dir e) = some r from hr) h0
  have hfree : target pm2 roots (.pde e d) = none := by
    rw [ht2, target_pde hr hd, pageOf, hn]; rfl
  have hpage : pageOf (PhysMem.newPde p) = some p := by
    rw [pageOf, if_pos (present_newPde p), pgnum_newPde hp20]
  -- the new table is all zeroes, so nothing is mapped below the new entry
  have hbelow : ∀ t, (presentEntry (PhysMem.newPde p)).bind
      (fun x => presentEntry ((pm2.write ⟨r, d⟩ (PhysMem.newPde p)).mem (pgnum x) t))
        = entry pm2 roots (.pte e d t) := by
    intro t
    rw [entry_pte_none hfree, presentEntry_of_present (present_newPde p), Option.bind_some,
      pgnum_newPde hp20]
    simp [PhysMem.write, hrp.symm, hpm2, PhysMem.setPage]
  have hpres := presentEntry_of_present (present_newPde p)
  have he3 := h2.entry_write_pde hr hd hbelow
  rw [hpres, he2] at he3
  have ht3 : target (pm.newTable r d p) roots
      = update (target pm roots) (.pde e d) (some p) := by
    have := target_update he3 (by simp)
    rwa [Option.map_some, pgnum_newPde hp20] at this
  refine ⟨⟨?_, ?_⟩, he3⟩
  · rw [ht3]
    have hroom : pm2.alloc.ref p ≠ BitVec.allOnes 16 := by
      intro hall
      have hc := h2.alloc.count p hav
      rw [hall, ht2, h0] at hc
      exact absurd hc (by decide)
    have hacq := h2.alloc.acquire hfree hav (Or.inl (Finset.mem_insert_self p held)) hroom
    rw [ht2, Finset.erase_insert hnh] at hacq
    exact (PhysMem.alloc_incr pm2 p).symm ▸ hacq
  · refine (h2.table_write_pde hr hd hbelow (fun _ => grants_newPde p) ?_).congr rfl fun _ _ => rfl
    rw [hpage]
    exact h2.table.table_once.update_fresh hfree (by rw [ht2]; exact h0)

/-! ### Mapping and unmapping a page -/

/-- Dropping the reference of a site, as the allocator sees it. -/
theorem alloc_drop (h : MemInv pm roots held) {s : Site} (hs : target pm roots s = some p) :
    (pm.drop p).alloc.Inv pm.boot.Avail held (update (target pm roots) s none) := by
  unfold PhysMem.drop
  split
  · next h0 =>
      rw [PhysMem.alloc_putFree, PhysMem.alloc_decr]
      exact h.alloc.release_last hs h0
  · next h0 =>
      rw [PhysMem.alloc_decr]
      exact h.alloc.release_more hs h0

/-- Clearing a page table entry and dropping its reference. -/
theorem unmap (h : MemInv pm roots held) (hq : target pm roots (.pde e d) = some q)
    (hp : target pm roots (.pte e d t) = some p) :
    MemInv ((pm.drop p).write ⟨q, t⟩ 0#32) roots held ∧
      entry ((pm.drop p).write ⟨q, t⟩ 0#32) roots
        = update (entry pm roots) (.pte e d t) none := by
  have hmem : ((pm.drop p).write ⟨q, t⟩ 0#32).mem = (pm.write ⟨q, t⟩ 0#32).mem := by
    simp [PhysMem.write]
  have hboot : ((pm.drop p).write ⟨q, t⟩ 0#32).boot = (pm.write ⟨q, t⟩ 0#32).boot := by simp
  have he : entry ((pm.drop p).write ⟨q, t⟩ 0#32) roots
      = update (entry pm roots) (.pte e d t) none := by
    rw [entry_congr hboot fun q' _ => congrFun hmem q', h.entry_write_pte hq t 0#32,
      presentEntry_zero]
  refine ⟨⟨?_, ?_⟩, he⟩
  · rw [target_update he (by simp), PhysMem.alloc_write, hboot]
    exact h.alloc_drop hp
  · refine (h.table_write_pte hq t ?_).congr hboot fun q' _ => congrFun hmem q'
    intro p' hp'
    simp at hp'

/-- Adding permissions to a directory entry changes nothing else. -/
theorem orPde {perm : Word} (h : MemInv pm roots held) (hr : roots e = some r)
    (hq : target pm roots (.pde e d) = some q) (hperm : FlagsOnly perm) :
    MemInv (pm.write ⟨r, d⟩ (pm.mem r d ||| perm)) roots held ∧
      entry (pm.write ⟨r, d⟩ (pm.mem r d ||| perm)) roots
        = update (entry pm roots) (.pde e d) (some (pm.mem r d ||| perm)) := by
  obtain ⟨r', hr', hd, hpres, hpg⟩ := of_target_pde hq
  obtain rfl : r = r' := by simpa [hr] using hr'
  have hpres' : present (pm.mem r d ||| perm) = true := present_or hpres
  have hpg' : pgnum (pm.mem r d ||| perm) = q := by rw [pgnum_or_flags hperm, hpg]
  have hqr : q ≠ r := by
    rintro rfl
    exact absurd (h.site_unique (s := .dir e) trivial hr hq) (by simp)
  have hbelow : ∀ t, (presentEntry (pm.mem r d ||| perm)).bind
      (fun x => presentEntry
        ((pm.write ⟨r, d⟩ (pm.mem r d ||| perm)).mem (pgnum x) t))
        = entry pm roots (.pte e d t) := by
    intro t
    rw [presentEntry_of_present hpres', Option.bind_some, hpg', entry_pte hq]
    simp [PhysMem.write, hqr]
  have he := h.entry_write_pde hr hd hbelow
  rw [presentEntry_of_present hpres'] at he
  have hsame : update (target pm roots) (.pde e d) (some q) = target pm roots := by
    rw [← hq, update_eq_self]
  refine ⟨⟨?_, ?_⟩, he⟩
  · rw [target_update he (by simp), Option.map_some, hpg', hsame]
    exact h.alloc
  · refine h.table_write_pde hr hd hbelow (fun _ => ?_) ?_
    · refine grants_or ?_
      refine h.table.pde_flags e d _ ?_
      rw [entry_pde hr hd, presentEntry_of_present hpres]
    · rw [pageOf, if_pos hpres', hpg', hsame]
      exact h.table.table_once

/-! ### `page_lookup` and `page_remove` -/

/-- `page_lookup` reads the entry of the page table. -/
theorem pageLookup_eq {va : Word} (h : MemInv pm roots held) (hr : roots e = some r)
    (hd : pdx va < utopDx) :
    pageLookup r va pm = .ok ((entry pm roots (.pte e (pdx va) (ptx va))).map fun w =>
      (pgnum w, ⟨pgnum (pm.mem r (pdx va)), ptx va⟩)) pm := by
  cases hq : target pm roots (.pde e (pdx va)) with
  | none =>
    have habs : present (pm.mem r (pdx va)) = false := by
      rw [target_pde hr hd, pageOf] at hq
      simpa using hq
    rw [pageLookup, run_bind_ok (pgdirWalk_absent habs), entry_pte_none hq]
    rfl
  | some q =>
    obtain ⟨r', hr', -, hpres, hpg⟩ := of_target_pde hq
    obtain rfl : r = r' := by simpa [hr] using hr'
    have hlt : pgnum (pm.mem r (pdx va)) < pm.boot.npages := hpg ▸ h.lt_npages hq
    have hent : entry pm roots (.pte e (pdx va) (ptx va))
        = presentEntry (pm.read ⟨q, ptx va⟩) := entry_pte hq
    rw [pageLookup, run_bind_ok (pgdirWalk_present hpres hlt), hent, hpg]
    simp only [run_get_bind]
    by_cases hp : present (pm.read ⟨q, ptx va⟩) = true
    · have ht : target pm roots (.pte e (pdx va) (ptx va))
          = some (pgnum (pm.read ⟨q, ptx va⟩)) := by
        rw [target, hent, presentEntry_of_present hp, Option.map_some]
      have hpp : pa2page (pteAddr (pm.read ⟨q, ptx va⟩)) pm
          = .ok (pgnum (pm.read ⟨q, ptx va⟩)) pm := by
        rw [pa2page_eq (by rw [pgnum_pteAddr]; exact h.lt_npages ht), pgnum_pteAddr]
      rw [if_neg (not_not.2 hp), presentEntry_of_present hp]
      exact run_bind_ok hpp
    · rw [if_pos hp, presentEntry_of_not (by simpa using hp)]
      rfl

/-- **`page_remove`** clears the entry at `va` and nothing else. -/
theorem pageRemove_spec {va : Word} (h : MemInv pm roots held) (hr : roots e = some r)
    (hd : pdx va < utopDx) :
    ∃ pm', pageRemove r va pm = .ok () pm' ∧ MemInv pm' roots held ∧ pm'.boot = pm.boot ∧
      entry pm' roots
        = update (entry pm roots) (.pte e (pdx va) (ptx va)) none := by
  have hl := h.pageLookup_eq hr hd
  cases he : entry pm roots (.pte e (pdx va) (ptx va)) with
  | none =>
    rw [he] at hl
    refine ⟨pm, ?_, h, rfl, ?_⟩
    · rw [pageRemove, run_bind_ok hl]
      rfl
    · rw [← he, update_eq_self]
  | some w =>
    rw [he] at hl
    obtain ⟨q, hq, -, -⟩ := of_entry_pte he
    obtain ⟨r', hr', -, -, hpg⟩ := of_target_pde hq
    obtain rfl : r = r' := by simpa [hr] using hr'
    have hp : target pm roots (.pte e (pdx va) (ptx va)) = some (pgnum w) := by
      rw [target, he, Option.map_some]
    have hlink : (pm.pages (pgnum w)).ppLink = none :=
      h.alloc.unlinked _ (h.avail_of_target hp) (Or.inr (refs_ne_zero hp))
    obtain ⟨hinv, hent⟩ := h.unmap hq hp
    refine ⟨_, ?_, hinv, by simp, hent⟩
    rw [pageRemove, run_bind_ok hl, hpg]
    change (pageDecref (pgnum w) >>= fun _ => modify fun pm => pm.write ⟨q, ptx va⟩ 0#32) pm = _
    rw [run_bind_ok (pageDecref_eq hlink), run_modify]

end MemInv

/-! ### Pages that may be mapped -/

/-- A page the allocator has given out and that holds no table. -/
structure Owned (pm : PhysMem) (roots : EnvIdx → Option ℕ) (held : Finset ℕ) (p : ℕ) : Prop where
  avail : pm.boot.Avail p
  used : p ∈ held ∨ refs (target pm roots) p ≠ 0
  not_table : ¬ IsTablePage pm roots p

section Owned

variable {pm pm' : PhysMem} {roots : EnvIdx → Option ℕ} {held : Finset ℕ} {p : ℕ} {s : Site}
  {x : Option ℕ}

/-- A change at a site that has nothing to do with the page. -/
theorem Owned.of_update (h : Owned pm roots held p) (hb : pm'.boot = pm.boot)
    (ht : target pm' roots = update (target pm roots) s x)
    (hs : target pm roots s ≠ some p) (hx : x ≠ some p) : Owned pm' roots held p := by
  refine ⟨hb ▸ h.avail, ?_, ?_⟩
  · rw [ht, refs_update_of_ne hs hx]
    exact h.used
  · rintro (hk | ⟨s', hs', hp⟩)
    · exact h.not_table (Or.inl (by rw [hk, hb]))
    · rw [ht] at hp
      by_cases hss : s' = s
      · subst hss
        exact hx (by simpa using hp)
      · rw [update_of_ne hss] at hp
        exact h.not_table (Or.inr ⟨s', hs', hp⟩)

/-- Its reference count stays as well. -/
theorem MemInv.ppRef_of_update (h : MemInv pm roots held) (h' : MemInv pm' roots held)
    (hav : pm.boot.Avail p) (hb : pm'.boot = pm.boot)
    (ht : target pm' roots = update (target pm roots) s x)
    (hs : target pm roots s ≠ some p) (hx : x ≠ some p) :
    (pm'.pages p).ppRef = (pm.pages p).ppRef := by
  refine BitVec.eq_of_toNat_eq ?_
  have h1 : (pm.pages p).ppRef.toNat = refs (target pm roots) p := h.alloc.count p hav
  have h2 : (pm'.pages p).ppRef.toNat = refs (target pm' roots) p :=
    h'.alloc.count p (hb ▸ hav)
  rw [h1, h2, ht, refs_update_of_ne hs hx]

/-- The head of the free list is not such a page. -/
theorem Owned.ne_head (h : Owned pm roots held p) (hm : MemInv pm roots held) {f : ℕ}
    (hf : pm.pageFreeList = some f) : f ≠ p := by
  rintro rfl
  obtain ⟨-, hnh, h0⟩ := hm.head_spec hf
  exact h.used.elim hnh (fun hr => hr h0)

end Owned

namespace MemInv

variable {pm : PhysMem} {roots : EnvIdx → Option ℕ} {held : Finset ℕ}
  {e : EnvIdx} {r pp : ℕ} {va perm : Word}

/-- **`page_alloc`** hands out the head of the free list; no table changes. -/
theorem pageAlloc_spec {p : ℕ} (h : MemInv pm roots held) (hf : pm.pageFreeList = some p)
    (z : Bool) :
    ∃ pm', pageAlloc z pm = .ok (some p) pm' ∧ MemInv pm' roots (insert p held) ∧
      pm'.boot = pm.boot ∧ entry pm' roots = entry pm roots ∧ (pm'.pages p).ppRef = 0#16 ∧
      (z = true → pm'.mem p = fun _ => 0#32) ∧ ∀ q, q ≠ p → pm'.mem q = pm.mem q := by
  obtain ⟨hav, -, h0⟩ := h.head_spec hf
  have h1 := h.takeFree hf
  have hheld := Finset.mem_insert_self p held
  have href : ((pm.takeFree p).pages p).ppRef = 0#16 := by
    refine BitVec.eq_of_toNat_eq ((h1.alloc.count p hav).trans ?_)
    exact (h1.alloc.held_avail p hheld).2
  refine ⟨_, pageAlloc_some hf hav.1 (h.lt_two_pow hav.1), ?_⟩
  cases z with
  | false => exact ⟨h1, rfl, rfl, href, fun hz => absurd hz (by simp), fun _ _ => rfl⟩
  | true =>
    have hmem : ∀ q, q ≠ p → ((pm.takeFree p).setPage p fun _ => 0#32).mem q = pm.mem q :=
      fun q hq => update_of_ne hq _ _
    refine ⟨h1.setPage (h1.not_isTablePage_of_held hheld) _, rfl, ?_, href, fun _ => ?_, hmem⟩
    · refine entry_congr rfl fun q hq => hmem q ?_
      rintro rfl
      exact h.not_isTablePage_of_refs hav h0 hq
    · exact update_self ..

/-- What `page_alloc` has handed out. -/
theorem pageAlloc_inv {p : ℕ} {pm' : PhysMem} (h : MemInv pm roots held)
    (hrun : pageAlloc z pm = .ok (some p) pm') :
    MemInv pm' roots (insert p held) ∧ Owned pm' roots (insert p held) p ∧
      (pm'.pages p).ppRef = 0#16 ∧ p ∉ held := by
  cases hf : pm.pageFreeList with
  | none =>
    rw [pageAlloc_none hf] at hrun
    cases hrun
  | some p₀ =>
    obtain ⟨pm₁, hok, h1, -, -, href, -⟩ := h.pageAlloc_spec hf z
    rw [hok] at hrun
    cases hrun
    obtain ⟨-, hnew, -⟩ := h.head_spec hf
    have hheld := Finset.mem_insert_self p held
    exact ⟨h1, ⟨(h1.alloc.held_avail p hheld).1, Or.inl hheld, h1.not_isTablePage_of_held hheld⟩,
      href, hnew⟩

/-- **`pgdir_walk` with `create`**: without memory nothing happens; otherwise
there is a page table for `va` afterwards, and nothing mapped has changed. -/
theorem pgdirWalk_spec (h : MemInv pm roots held) (hr : roots e = some r)
    (hd : pdx va < utopDx) :
    (pgdirWalk r va true pm = .ok none pm ∧ pm.pageFreeList = none ∧
        target pm roots (.pde e (pdx va)) = none) ∨
    ∃ q pm' w, pgdirWalk r va true pm = .ok (some ⟨q, ptx va⟩) pm' ∧ MemInv pm' roots held ∧
      pm'.boot = pm.boot ∧ target pm' roots (.pde e (pdx va)) = some q ∧
      entry pm' roots = update (entry pm roots) (.pde e (pdx va)) (some w) ∧
      ∀ p, Owned pm roots held p → Owned pm' roots held p ∧
        (pm'.pages p).ppRef = (pm.pages p).ppRef := by
  cases hq : target pm roots (.pde e (pdx va)) with
  | some q =>
    obtain ⟨r', hr', -, hpres, hpg⟩ := of_target_pde hq
    obtain rfl : r = r' := by simpa [hr] using hr'
    have hw : entry pm roots (.pde e (pdx va)) = some (pm.mem r (pdx va)) := by
      rw [entry_pde hr hd, presentEntry_of_present hpres]
    refine Or.inr ⟨q, pm, pm.mem r (pdx va), ?_, h, rfl, hq, ?_, fun p hp => ⟨hp, rfl⟩⟩
    · rw [pgdirWalk_present hpres (hpg ▸ h.lt_npages hq), hpg]
    · rw [← hw, update_eq_self]
  | none =>
    have habs : present (pm.mem r (pdx va)) = false := by
      rw [target_pde hr hd, pageOf] at hq
      simpa using hq
    cases hf : pm.pageFreeList with
    | none => exact Or.inl ⟨pgdirWalk_noMem habs hf, rfl, rfl⟩
    | some f =>
      obtain ⟨hav, -, -⟩ := h.head_spec hf
      have hf20 := h.lt_two_pow hav.1
      obtain ⟨hinv, hent⟩ := h.newTable hf hr hd habs
      have ht := target_update hent (by simp)
      rw [Option.map_some, pgnum_newPde hf20] at ht
      refine Or.inr ⟨f, _, _, pgdirWalk_new habs hf hav.1 hf20, hinv, rfl, ?_, hent, ?_⟩
      · rw [ht, update_self]
      · intro p hp
        have hfp : some f ≠ some p := by simpa using hp.ne_head h hf
        exact ⟨hp.of_update rfl ht (by simp [hq]) hfp,
          h.ppRef_of_update hinv hp.avail rfl ht (by simp [hq]) hfp⟩

variable {q : ℕ}

/-- Rewriting an entry with other permissions for the page it maps. -/
theorem remap {d t : Idx} (h : MemInv pm roots held) (hq : target pm roots (.pde e d) = some q)
    (hp : target pm roots (.pte e d t) = some pp) (hperm : FlagsOnly perm) :
    MemInv (pm.write ⟨q, t⟩ (mkPte pp perm)) roots held ∧
      entry (pm.write ⟨q, t⟩ (mkPte pp perm)) roots
        = update (entry pm roots) (.pte e d t) (some (mkPte pp perm)) := by
  have hp20 := h.lt_two_pow (h.lt_npages hp)
  have he := h.entry_write_pte hq t (mkPte pp perm)
  rw [presentEntry_of_present (present_mkPte pp perm)] at he
  refine ⟨⟨?_, ?_⟩, he⟩
  · rw [target_update he (by simp), Option.map_some, pgnum_mkPte hp20 hperm, ← hp,
      update_eq_self]
    exact h.alloc
  · refine h.table_write_pte hq t fun p' hp' => ?_
    obtain rfl : pp = p' := by simpa [pageOf_mkPte hp20 hperm] using hp'
    exact h.not_isTablePage_of_pte hp

/-- What `page_insert` does before it counts the page: an entry in the way is
removed. -/
theorem clear_spec (h : MemInv pm roots held) (hr : roots e = some r) (hd : pdx va < utopDx)
    (hq : target pm roots (.pde e (pdx va)) = some q) (hp : Owned pm roots held pp)
    (hne : target pm roots (.pte e (pdx va) (ptx va)) ≠ some pp) :
    ∃ pm', (if present (pm.read ⟨q, ptx va⟩) then pageRemove r va else pure ()) pm = .ok () pm' ∧
      MemInv pm' roots held ∧ pm'.boot = pm.boot ∧ Owned pm' roots held pp ∧
      (pm'.pages pp).ppRef = (pm.pages pp).ppRef ∧
      entry pm' roots
        = update (entry pm roots) (.pte e (pdx va) (ptx va)) none := by
  have hent : entry pm roots (.pte e (pdx va) (ptx va))
      = presentEntry (pm.read ⟨q, ptx va⟩) := entry_pte hq
  by_cases hpres : present (pm.read ⟨q, ptx va⟩) = true
  · obtain ⟨pm', hrun, hinv, hb, he⟩ := h.pageRemove_spec hr hd
    have ht := target_update he (by simp)
    refine ⟨pm', by rw [if_pos hpres, hrun], hinv, hb, hp.of_update hb ht hne (by simp),
      h.ppRef_of_update hinv hp.avail hb ht hne (by simp), he⟩
  · refine ⟨pm, by rw [if_neg hpres, run_pure], h, rfl, hp, rfl, ?_⟩
    rw [presentEntry_of_not (by simpa using hpres)] at hent
    rw [← hent, update_eq_self]

/-- Filling a free page table entry.  Only the reference count needs room for
one more. -/
theorem fill_spec {d t : Idx} (h : MemInv pm roots held) (hr : roots e = some r)
    (hq : target pm roots (.pde e d) = some q) (hfree : target pm roots (.pte e d t) = none)
    (hp : Owned pm roots held pp) (hperm : FlagsOnly perm) :
    TableInv (pm.fill r d q t pp perm) roots ∧
      entry (pm.fill r d q t pp perm) roots = update (update (entry pm roots)
        (.pde e d) (some (pm.mem r d ||| perm))) (.pte e d t) (some (mkPte pp perm)) ∧
      ((pm.pages pp).ppRef ≠ BitVec.allOnes 16 →
        MemInv (pm.fill r d q t pp perm) roots (held.erase pp)) := by
  have hp20 := h.lt_two_pow hp.avail.1
  have hqr : q ≠ r := by
    rintro rfl
    exact absurd (h.site_unique (s := .dir e) trivial hr hq) (by simp)
  -- the two stores commute, and the one to the directory keeps the invariant
  obtain ⟨h1, he1⟩ := h.orPde hr hq hperm
  set pm1 := pm.write ⟨r, d⟩ (pm.mem r d ||| perm) with hpm1
  have hmem : (pm.fill r d q t pp perm).mem = (pm1.write ⟨q, t⟩ (mkPte pp perm)).mem := by
    simp only [PhysMem.fill, hpm1, PhysMem.write, PhysMem.incr_mem, update_of_ne hqr,
      update_of_ne hqr.symm]
    rw [update_comm hqr]
  have hboot : (pm.fill r d q t pp perm).boot = (pm1.write ⟨q, t⟩ (mkPte pp perm)).boot := rfl
  obtain ⟨r', hr', -, -, hpg⟩ := of_target_pde hq
  obtain rfl : r = r' := by simpa [hr] using hr'
  have hq1 : target pm1 roots (.pde e d) = some q := by
    rw [target, he1, update_self, Option.map_some, pgnum_or_flags hperm, hpg]
  have he : entry (pm.fill r d q t pp perm) roots = update (update (entry pm roots)
      (.pde e d) (some (pm.mem r d ||| perm))) (.pte e d t) (some (mkPte pp perm)) := by
    rw [entry_congr hboot fun q' _ => congrFun hmem q', h1.entry_write_pte hq1 t (mkPte pp perm),
      presentEntry_of_present (present_mkPte pp perm), he1]
  have ht1 : target pm1 roots = target pm roots := by
    rw [target_update he1 (by simp), Option.map_some, pgnum_or_flags hperm, hpg, ← hq,
      update_eq_self]
  have htable : TableInv (pm.fill r d q t pp perm) roots := by
    refine (h1.table_write_pte hq1 t ?_).congr hboot fun q' _ => congrFun hmem q'
    intro p' hp'
    obtain rfl : pp = p' := by simpa [pageOf_mkPte hp20 hperm] using hp'
    rw [IsTablePage, ht1]
    exact hp.not_table
  refine ⟨htable, he, fun hroom => ⟨?_, htable⟩⟩
  have ht : target (pm.fill r d q t pp perm) roots
      = update (target pm roots) (.pte e d t) (some pp) := by
    rw [← he1] at he
    rw [target_update he (by simp), Option.map_some, pgnum_mkPte hp20 hperm, ht1]
  have halloc : (pm.fill r d q t pp perm).alloc = (pm.incr pp).alloc := rfl
  rw [ht, halloc, PhysMem.alloc_incr]
  exact h.alloc.acquire hfree hp.avail hp.used hroom

/-- **`page_insert`**: without memory for a page table nothing happens;
otherwise the page is mapped at `va`, and no other mapping changes.  Only the
reference count of the page needs room for one more, unless it is mapped at
`va` already. -/
theorem pageInsert_spec (h : MemInv pm roots held) (hr : roots e = some r)
    (hd : pdx va < utopDx) (hp : Owned pm roots held pp) (hperm : FlagsOnly perm) :
    (pageInsert r pp va perm pm = .ok (.error .noMem) pm ∧ pm.pageFreeList = none ∧
        target pm roots (.pde e (pdx va)) = none) ∨
    ∃ pm' w, pageInsert r pp va perm pm = .ok (.ok ()) pm' ∧
      TableInv pm' roots ∧ pm'.boot = pm.boot ∧
      entry pm' roots = update (update (entry pm roots)
        (.pde e (pdx va)) (some w)) (.pte e (pdx va) (ptx va)) (some (mkPte pp perm)) ∧
      ((pm.pages pp).ppRef ≠ BitVec.allOnes 16 ∨
          target pm roots (.pte e (pdx va) (ptx va)) = some pp →
        MemInv pm' roots (held.erase pp)) := by
  have hp20 := h.lt_two_pow hp.avail.1
  rcases h.pgdirWalk_spec hr hd with ⟨hrun, hf, hq⟩ | ⟨q, pm1, w1, hrun, h1, hb1, hq, he1, hown⟩
  · refine Or.inl ⟨?_, hf, hq⟩
    rw [pageInsert, run_bind_ok hrun]
    rfl
  · obtain ⟨hp1, href1⟩ := hown pp hp
    have hpte : entry pm1 roots (.pte e (pdx va) (ptx va))
        = entry pm roots (.pte e (pdx va) (ptx va)) := by
      rw [he1, update_of_ne (by simp)]
    have htgt : target pm1 roots (.pte e (pdx va) (ptx va))
        = target pm roots (.pte e (pdx va) (ptx va)) := by rw [target, hpte, target]
    have hread : target pm1 roots (.pte e (pdx va) (ptx va))
        = pageOf (pm1.read ⟨q, ptx va⟩) := by
      rw [target, entry_pte hq, pageOf_eq]
      rfl
    right
    by_cases hsame : present (pm1.read ⟨q, ptx va⟩) = true ∧
        pteAddr (pm1.read ⟨q, ptx va⟩) = page2pa pp
    · -- the page is mapped at `va` already: only the permissions change
      have hpp : target pm1 roots (.pte e (pdx va) (ptx va)) = some pp := by
        rw [hread, pageOf, if_pos hsame.1, (pteAddr_eq_page2pa hp20).1 hsame.2]
      obtain ⟨hinv, he⟩ := h1.remap hq hpp hperm
      have hheld : held.erase pp = held := Finset.erase_eq_of_notMem fun hmem =>
        refs_ne_zero hpp (h1.alloc.held_avail pp hmem).2
      refine ⟨pm1.write ⟨q, ptx va⟩ (mkPte pp perm), w1, ?_, hinv.table, hb1,
        by rw [he, he1], fun _ => hheld.symm ▸ hinv⟩
      rw [pageInsert, run_bind_ok hrun]
      simp only [run_get_bind]
      rw [if_pos hsame]
      rfl
    · have hne : target pm1 roots (.pte e (pdx va) (ptx va)) ≠ some pp := by
        rw [hread, pageOf]
        split
        · next hpres =>
            intro hc
            exact hsame ⟨hpres, (pteAddr_eq_page2pa hp20).2 (by simpa using hc)⟩
        · simp
      obtain ⟨pm2, hclear, h2, hb2, hp2, href2, he2⟩ := h1.clear_spec hr hd hq hp1 hne
      have hq2 : target pm2 roots (.pde e (pdx va)) = some q := by
        rw [← hq, target, target, he2, update_of_ne (by simp)]
      have hfree : target pm2 roots (.pte e (pdx va) (ptx va)) = none := by
        rw [target, he2, update_self, Option.map_none]
      obtain ⟨htab, he3, hinv⟩ := h2.fill_spec hr hq2 hfree hp2 hperm
      refine ⟨_, pm2.mem r (pdx va) ||| perm, ?_, htab, hb2.trans hb1, ?_, fun hroom => hinv ?_⟩
      · have hpte' : page2pa pp ||| PTE_P ||| perm = mkPte pp perm := by
          rw [mkPte, BitVec.or_assoc, BitVec.or_comm PTE_P, ← BitVec.or_assoc]
        rw [pageInsert, run_bind_ok hrun]
        simp only [run_get_bind]
        rw [if_neg hsame, run_bind_ok hclear, hpte']
        rfl
      · have hsite : Site.pte e (pdx va) (ptx va) ≠ .pde e (pdx va) := by simp
        rw [he3, he2, he1, update_comm hsite, update_idem, update_idem]
      · rw [href2, href1]
        exact hroom.resolve_right (htgt ▸ hne)

end MemInv

end Jos
