import Jos.Inc.Env
import Jos.Kern.Pmap
import Mathlib.Tactic.DeriveFintype

/-!
# What page tables refer to, and the invariant of physical memory

A page is in use because something points at it.  The pointers the kernel
counts are of four kinds, the *sites*:

* `dir e` — environment `e` uses the page as its page directory;
* `pde e d` — entry `d` (below `UTOP`) of `e`'s page directory uses it as a
  page table;
* `pte e d t` — entry `t` of that page table maps it for user code;
* `kern d` — entry `d` (at or above `UTOP`) of `kern_pgdir` uses it as a page
  table of the kernel.

`entry` reads the page table entry at a site, `target` the page it refers to.
Both walk the tables in physical memory, given the page directories (`roots`)
of the live environments.

`MemInv` is the invariant: the reference counts and the free list are right for
these sites (`RefAlloc.Inv`), and a page that holds a table has exactly one
site pointing at it (`TableInv.table_once`).  The latter is what keeps a store
to one entry from showing up anywhere else: `entry_write_pte`,
`entry_write_pde` and `entry_congr` say what a store does to all sites at once.
-/

namespace Jos

open Function (update update_of_ne update_self)

/-! ## Sites -/

/-- The places from which the kernel refers to physical pages. -/
inductive Site
  | dir (e : EnvIdx)
  | pde (e : EnvIdx) (d : Idx)
  | pte (e : EnvIdx) (d t : Idx)
  | kern (d : Idx)
  deriving DecidableEq, Fintype

/-- Does the site use the page as a table (rather than map it)? -/
def Site.IsTable : Site → Prop
  | .pte _ _ _ => False
  | _ => True

/-- The entry itself, if it is present. -/
def presentEntry (w : Word) : Option Word := if present w then some w else none

theorem pageOf_eq (w : Word) : pageOf w = (presentEntry w).map pgnum := by
  unfold pageOf presentEntry
  split <;> rfl

@[simp] theorem presentEntry_zero : presentEntry 0#32 = none := by decide

variable {w : Word} {pm pm' : PhysMem} {roots : EnvIdx → Option ℕ} {s : Site}

theorem presentEntry_of_present (h : present w = true) : presentEntry w = some w := by
  rw [presentEntry, if_pos h]

theorem presentEntry_of_not (h : present w = false) : presentEntry w = none := by
  rw [presentEntry, h]; rfl

theorem presentEntry_eq_some {x : Word} : presentEntry w = some x ↔ present w = true ∧ w = x := by
  unfold presentEntry
  split <;> simp_all

/-- The page table entry at a site, if it is present. -/
def entry (pm : PhysMem) (roots : EnvIdx → Option ℕ) : Site → Option Word
  | .dir _ => none
  | .pde e d => if d < utopDx then (roots e).bind fun r => presentEntry (pm.mem r d) else none
  | .pte e d t =>
    if d < utopDx then
      (roots e).bind fun r => (presentEntry (pm.mem r d)).bind fun w =>
        presentEntry (pm.mem (pgnum w) t)
    else none
  | .kern d =>
    if utopDx ≤ d ∧ d ≠ uvptDx then presentEntry (pm.mem pm.boot.kernPgdir d) else none

/-- The page a site refers to. -/
def target (pm : PhysMem) (roots : EnvIdx → Option ℕ) : Site → Option ℕ
  | .dir e => roots e
  | .pde e d => (entry pm roots (.pde e d)).map pgnum
  | .pte e d t => (entry pm roots (.pte e d t)).map pgnum
  | .kern d => (entry pm roots (.kern d)).map pgnum

section Sites

variable {pm pm' : PhysMem} {roots : EnvIdx → Option ℕ} {e : EnvIdx} {r q : ℕ} {d t : Idx}

theorem entry_pde (hr : roots e = some r) (hd : d < utopDx) :
    entry pm roots (.pde e d) = presentEntry (pm.mem r d) := by
  simp [entry, hr, hd]

theorem target_pde (hr : roots e = some r) (hd : d < utopDx) :
    target pm roots (.pde e d) = pageOf (pm.mem r d) := by
  rw [target, entry_pde hr hd, pageOf_eq]

/-- A page table entry is found in the page its directory entry refers to. -/
theorem entry_pte (hq : target pm roots (.pde e d) = some q) :
    entry pm roots (.pte e d t) = presentEntry (pm.mem q t) := by
  have hd : d < utopDx := by
    by_contra hd
    simp [target, entry, hd] at hq
  cases hr : roots e with
  | none => simp [target, entry, hr] at hq
  | some r =>
    rw [target, entry_pde hr hd] at hq
    obtain ⟨w, hw, rfl⟩ := Option.map_eq_some_iff.1 hq
    simp [entry, hr, hd, hw]

theorem entry_pte_none (hq : target pm roots (.pde e d) = none) :
    entry pm roots (.pte e d t) = none := by
  simp only [target, entry, Option.map_eq_none_iff] at hq
  simp only [entry]
  split at hq
  · cases hr : roots e with
    | none => simp
    | some r =>
      rw [hr, Option.bind_some] at hq
      simp [*]
  · simp [*]

/-- A directory entry depends only on the word that holds it. -/
theorem entry_pde_congr (h : ∀ r, roots e = some r → pm'.mem r d = pm.mem r d) :
    entry pm' roots (.pde e d) = entry pm roots (.pde e d) := by
  simp only [entry]
  cases hr : roots e with
  | none => rfl
  | some r => simp only [Option.bind_some, h r hr]

/-- What a directory entry's site says about the entry itself. -/
theorem of_target_pde (hq : target pm roots (.pde e d) = some q) :
    ∃ r, roots e = some r ∧ d < utopDx ∧ present (pm.mem r d) = true ∧ pgnum (pm.mem r d) = q := by
  have hd : d < utopDx := by
    by_contra hd
    simp [target, entry, hd] at hq
  cases hr : roots e with
  | none => simp [target, entry, hr] at hq
  | some r =>
    rw [target_pde hr hd, pageOf] at hq
    split at hq
    · exact ⟨r, rfl, hd, ‹_›, by simpa using hq⟩
    · simp at hq

/-- Where a mapped page's entry is. -/
theorem of_entry_pte (hw : entry pm roots (.pte e d t) = some w) :
    ∃ q, target pm roots (.pde e d) = some q ∧ pm.mem q t = w ∧ present w = true := by
  cases hq : target pm roots (.pde e d) with
  | none => rw [entry_pte_none hq] at hw; simp at hw
  | some q =>
    rw [entry_pte hq, presentEntry_eq_some] at hw
    exact ⟨q, rfl, hw.2, hw.2 ▸ hw.1⟩

end Sites

/-! ## The pages that hold tables -/

/-- The page holds a page directory or a page table. -/
def IsTablePage (pm : PhysMem) (roots : EnvIdx → Option ℕ) (q : ℕ) : Prop :=
  q = pm.boot.kernPgdir ∨ ∃ s : Site, s.IsTable ∧ target pm roots s = some q

/-- Entries depend only on the pages that hold tables. -/
theorem entry_congr (hb : pm'.boot = pm.boot)
    (hm : ∀ q, IsTablePage pm roots q → pm'.mem q = pm.mem q) :
    entry pm' roots = entry pm roots := by
  have hroot : ∀ {e r}, roots e = some r → pm'.mem r = pm.mem r := fun {e r} hr =>
    hm r (Or.inr ⟨.dir e, trivial, hr⟩)
  funext s
  cases s with
  | dir e => rfl
  | pde e d => exact entry_pde_congr fun r hr => congrFun (hroot hr) d
  | pte e d t =>
    simp only [entry]
    split
    · next hd =>
        cases hr : roots e with
        | none => rfl
        | some r =>
          simp only [Option.bind_some, hroot hr]
          cases hw : presentEntry (pm.mem r d) with
          | none => rfl
          | some w =>
            have hq : IsTablePage pm roots (pgnum w) :=
              Or.inr ⟨.pde e d, trivial, by rw [target, entry_pde hr hd, hw]; rfl⟩
            simp only [Option.bind_some, hm _ hq]
    · rfl
  | kern d => simp only [entry, hb, hm _ (Or.inl rfl)]

/-- The page referred to follows from the entry. -/
theorem target_congr (h : entry pm' roots = entry pm roots) :
    target pm' roots = target pm roots := by
  funext s
  cases s <;> simp only [target, h]

/-- Changing the entry at one site changes what it refers to. -/
theorem target_update {x : Option Word} (h : entry pm' roots = update (entry pm roots) s x)
    (hs : ∀ e, s ≠ .dir e) : target pm' roots = update (target pm roots) s (x.map pgnum) := by
  have hne : ∀ s', s' ≠ s → entry pm' roots s' = entry pm roots s' := fun s' hs' => by
    rw [h, update_of_ne hs']
  funext s'
  by_cases hs' : s' = s
  · subst hs'
    rw [update_self]
    cases s' with
    | dir e => exact absurd rfl (hs e)
    | pde e d => rw [target, h, update_self]
    | pte e d t => rw [target, h, update_self]
    | kern d => rw [target, h, update_self]
  · rw [update_of_ne hs']
    cases s' <;> simp only [target, hne _ hs']

/-! ## The invariant -/

/-- The allocator's part of physical memory. -/
def PhysMem.alloc (pm : PhysMem) : RefAlloc 16 ℕ where
  head := pm.pageFreeList
  link := fun p => (pm.pages p).ppLink
  ref := fun p => (pm.pages p).ppRef

/-- What holds of the tables themselves. -/
structure TableInv (pm : PhysMem) (roots : EnvIdx → Option ℕ) : Prop where
  /-- All of memory lies in the window at `KERNBASE`. -/
  npages_le : pm.boot.npages ≤ 65536
  /-- `kern_pgdir` was taken by `boot_alloc`. -/
  kern_reserved : ¬ pm.boot.Avail pm.boot.kernPgdir
  /-- A page that holds a table is referred to from one place only. -/
  table_once : Exclusive Site.IsTable (target pm roots)
  /-- The kernel half of every page directory is that of `kern_pgdir` … -/
  kern_half : ∀ e r d, roots e = some r → utopDx ≤ d → d ≠ uvptDx →
    pm.mem r d = pm.mem pm.boot.kernPgdir d
  /-- … except at `UVPT`, where the directory maps itself, read-only. -/
  uvpt : ∀ e r, roots e = some r → pm.mem r uvptDx = page2pa r ||| PTE_P ||| PTE_U
  /-- Directory entries below `UTOP` leave all checks to the page table. -/
  pde_flags : ∀ e d w, entry pm roots (.pde e d) = some w →
    grants w (PTE_P ||| PTE_W ||| PTE_U) = true
  /-- The kernel half grants user code no write access. -/
  kern_ro : ∀ d q t, target pm roots (.kern d) = some q →
    grants (pm.mem q t) (PTE_P ||| PTE_W ||| PTE_U) = false

/-- **The invariant of physical memory**, for the page directories `roots` and
the pages `held` that have been allocated but are not referred to yet. -/
structure MemInv (pm : PhysMem) (roots : EnvIdx → Option ℕ) (held : Finset ℕ) : Prop where
  alloc : pm.alloc.Inv pm.boot.Avail held (target pm roots)
  table : TableInv pm roots

namespace MemInv

variable {pm : PhysMem} {roots : EnvIdx → Option ℕ} {held : Finset ℕ}
  {e : EnvIdx} {r q p : ℕ} {d t : Idx}

theorem avail_of_target (h : MemInv pm roots held) (hs : target pm roots s = some p) :
    pm.boot.Avail p :=
  h.alloc.target_avail s p hs

theorem lt_npages (h : MemInv pm roots held) (hs : target pm roots s = some p) :
    p < pm.boot.npages :=
  (h.avail_of_target hs).1

theorem lt_two_pow (h : MemInv pm roots held) (hp : p < pm.boot.npages) : p < 2 ^ 20 := by
  have := h.table.npages_le
  omega

theorem target_ne_kern (h : MemInv pm roots held) (hs : target pm roots s = some p) :
    p ≠ pm.boot.kernPgdir := by
  rintro rfl
  exact h.table.kern_reserved (h.avail_of_target hs)

/-- Two sites for one page, one of them a table's, are the same site. -/
theorem site_unique (h : MemInv pm roots held) {s' : Site} (hs : s.IsTable)
    (h1 : target pm roots s = some p) (h2 : target pm roots s' = some p) : s' = s :=
  h.table.table_once.site_unique hs h1 h2

/-- A page that is mapped for user code holds no table. -/
theorem not_isTablePage_of_pte (h : MemInv pm roots held)
    (hp : target pm roots (.pte e d t) = some p) : ¬ IsTablePage pm roots p := by
  rintro (hk | ⟨s, hs, hsp⟩)
  · exact h.target_ne_kern hp hk
  · have := h.site_unique hs hsp hp
    subst this
    exact hs

/-- Neither does a page nobody refers to. -/
theorem not_isTablePage_of_refs (h : MemInv pm roots held) (hav : pm.boot.Avail p)
    (h0 : refs (target pm roots) p = 0) : ¬ IsTablePage pm roots p := by
  rintro (rfl | ⟨s, -, hsp⟩)
  · exact h.table.kern_reserved hav
  · exact refs_ne_zero hsp h0

/-! ### Stores to tables -/

/-- **A store to a page table entry** shows at that entry and nowhere else. -/
theorem entry_write_pte (h : MemInv pm roots held) (hq : target pm roots (.pde e d) = some q)
    (t : Idx) (w : Word) :
    entry (pm.write ⟨q, t⟩ w) roots
      = update (entry pm roots) (.pte e d t) (presentEntry w) := by
  have hmem : ∀ q', q' ≠ q → (pm.write ⟨q, t⟩ w).mem q' = pm.mem q' := fun q' hq' =>
    update_of_ne hq' _ _
  have hroot : ∀ {e' r'}, roots e' = some r' → (pm.write ⟨q, t⟩ w).mem r' = pm.mem r' := by
    intro e' r' hr'
    refine hmem r' ?_
    rintro rfl
    have hdir : target pm roots (.dir e') = some r' := hr'
    exact absurd (h.site_unique (s := .pde e d) trivial hq hdir) (by simp)
  have hpde : ∀ e' d', entry (pm.write ⟨q, t⟩ w) roots (.pde e' d')
      = entry pm roots (.pde e' d') := fun e' d' =>
    entry_pde_congr fun r' hr' => congrFun (hroot hr') d'
  have htgt : ∀ e' d', target (pm.write ⟨q, t⟩ w) roots (.pde e' d')
      = target pm roots (.pde e' d') := fun e' d' => by
    rw [target, hpde, target]
  funext s
  cases s with
  | dir e' => simp [entry]
  | pde e' d' => rw [update_of_ne (by simp), hpde]
  | pte e' d' t' =>
    cases hq' : target pm roots (.pde e' d') with
    | none =>
      have hne : Site.pte e' d' t' ≠ .pte e d t := by
        rintro ⟨rfl, rfl, rfl⟩
        rw [hq] at hq'
        exact absurd hq' (by simp)
      rw [update_of_ne hne, entry_pte_none hq',
        entry_pte_none ((htgt e' d').trans hq')]
    | some q' =>
      rw [entry_pte ((htgt e' d').trans hq')]
      by_cases hqq : q' = q
      · subst hqq
        obtain ⟨rfl, rfl⟩ : e' = e ∧ d' = d := by
          simpa using h.site_unique (s := .pde e d) trivial hq hq'
        by_cases ht : t' = t
        · subst ht
          simp [PhysMem.write]
        · rw [update_of_ne (by simpa using ht), entry_pte hq']
          simp [PhysMem.write, ht]
      · rw [hmem q' hqq, ← entry_pte hq', update_of_ne]
        rintro ⟨rfl, rfl, rfl⟩
        rw [hq'] at hq
        exact hqq (by simpa using hq)
  | kern d' =>
    rw [update_of_ne (by simp)]
    have hk : (pm.write ⟨q, t⟩ w).mem pm.boot.kernPgdir = pm.mem pm.boot.kernPgdir :=
      hmem _ (h.target_ne_kern hq).symm
    simp only [entry]
    rw [show (pm.write ⟨q, t⟩ w).boot = pm.boot from rfl, hk]

/-- A store to a directory entry leaves all entries alone that are not reached
through it. -/
theorem entry_write_pde_of_ne (h : MemInv pm roots held) (hr : roots e = some r) (d : Idx)
    (w : Word) (hs : s ≠ .pde e d) (hs' : ∀ t, s ≠ .pte e d t) :
    entry (pm.write ⟨r, d⟩ w) roots s = entry pm roots s := by
  have hdir : target pm roots (.dir e) = some r := hr
  have hmem : ∀ q', q' ≠ r → (pm.write ⟨r, d⟩ w).mem q' = pm.mem q' := fun q' hq' =>
    update_of_ne hq' _ _
  -- directory entries other than the one stored to
  have hpde : ∀ e' d', Site.pde e' d' ≠ .pde e d →
      entry (pm.write ⟨r, d⟩ w) roots (.pde e' d') = entry pm roots (.pde e' d') := by
    intro e' d' hne
    refine entry_pde_congr fun r' hr' => ?_
    have hdir' : target pm roots (.dir e') = some r' := hr'
    by_cases hrr : r' = r
    · subst hrr
      obtain rfl : e' = e := by
        simpa using h.site_unique (s := .dir e) trivial hdir hdir'
      have hd : d' ≠ d := by
        rintro rfl
        exact hne rfl
      simp [PhysMem.write, hd]
    · rw [hmem r' hrr]
  cases s with
  | dir e' => rfl
  | pde e' d' => exact hpde e' d' hs
  | pte e' d' t' =>
    have hne : Site.pde e' d' ≠ .pde e d := by
      rintro ⟨rfl, rfl⟩
      exact hs' t' rfl
    have hsame : target (pm.write ⟨r, d⟩ w) roots (.pde e' d')
        = target pm roots (.pde e' d') := by
      rw [target, hpde e' d' hne, target]
    cases hq : target pm roots (.pde e' d') with
    | none => rw [entry_pte_none hq, entry_pte_none (hsame.trans hq)]
    | some q' =>
      have hqr : q' ≠ r := by
        rintro rfl
        exact absurd (h.site_unique (s := .dir e) trivial hdir hq) (by simp)
      rw [entry_pte hq, entry_pte (hsame.trans hq), hmem q' hqr]
  | kern d' =>
    have hk : (pm.write ⟨r, d⟩ w).mem pm.boot.kernPgdir = pm.mem pm.boot.kernPgdir :=
      hmem _ (h.target_ne_kern hdir).symm
    simp only [entry]
    rw [show (pm.write ⟨r, d⟩ w).boot = pm.boot from rfl, hk]

/-- **A store to a directory entry** that leaves the entries below it as they
were shows at that entry only. -/
theorem entry_write_pde (h : MemInv pm roots held) (hr : roots e = some r) (hd : d < utopDx)
    (hbelow : ∀ t,
      (presentEntry w).bind (fun x => presentEntry ((pm.write ⟨r, d⟩ w).mem (pgnum x) t))
        = entry pm roots (.pte e d t)) :
    entry (pm.write ⟨r, d⟩ w) roots
      = update (entry pm roots) (.pde e d) (presentEntry w) := by
  have hw : (pm.write ⟨r, d⟩ w).mem r d = w := by simp [PhysMem.write]
  funext s
  by_cases hs : s = .pde e d
  · subst hs
    rw [update_self, entry_pde hr hd, hw]
  · rw [update_of_ne hs]
    by_cases hs' : ∃ t, s = .pte e d t
    · obtain ⟨t, rfl⟩ := hs'
      rw [← hbelow t]
      simp only [entry, hr, hd, if_true, Option.bind_some, hw]
    · exact h.entry_write_pde_of_ne hr d w hs (fun t ht => hs' ⟨t, ht⟩)

end MemInv

end Jos
