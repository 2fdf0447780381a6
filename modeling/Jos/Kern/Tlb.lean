import Jos.Kern.PmapSpec
import Jos.Lib.Cache
import Jos.Lib.Lts

/-!
# The TLB

The processor keeps translations of the page directory that is loaded, and
learns of a change only when it is told by `invlpg`.  This module puts a TLB
next to physical memory, and `page_remove`, `page_insert` and `tlb_invalidate`
on top of both.

* `leaf` — the entry that translates a page; `access` — what the processor
  keeps of it: the physical page, and the bits `PTE_P`, `PTE_W` and `PTE_U`.
* `pageRemoveT`, `pageInsertT` — the code with its effect on the TLB.  Without
  the TLB they are `pageRemove` and `pageInsert` (`erases_pageRemoveT`,
  `erases_pageInsertT`).
* `TlbStep` — these calls, and what the processor does by itself: it may take
  in any translation and drop any at any time.  Inside a call this matters in
  one place: `page_remove` calls `tlb_invalidate` before it clears the entry,
  and the processor may take the entry in again in between.
* `tlb_coherent` — the TLB is right after every call, unless a page is
  inserted again with other permissions where it is mapped already, or an
  entry that is being removed is taken in again in that moment.  Either of them
  leaves it wrong.
-/

namespace Jos

/-! ## Translations -/

/-- A page of an address space: the entries of directory and table. -/
abbrev PageKey := Idx × Idx

/-- The page of an address. -/
def pageKey (va : Word) : PageKey := (pdx va, ptx va)

/-- The page table entry that translates a page. -/
def leaf (pm : PhysMem) (r : ℕ) (k : PageKey) : Option Word :=
  if present (pm.mem r k.1) then presentEntry (pm.mem (pgnum (pm.mem r k.1)) k.2) else none

/-- What the processor keeps of an entry. -/
def access (w : Word) : ℕ × Word := (pgnum w, w &&& (PTE_P ||| PTE_W ||| PTE_U))

/-- The translation of a page. -/
def translation (pm : PhysMem) (r : ℕ) (k : PageKey) : Option (ℕ × Word) :=
  (leaf pm r k).map access

/-- The page tables of a directory in page `r` are pages of their own, apart
from the directory (which is its own page table at `UVPT`). -/
structure Separate (r : ℕ) (dir : Idx → Word) : Prop where
  ne_dir : ∀ d, d ≠ uvptDx → present (dir d) = true → pgnum (dir d) ≠ r
  table : ∀ d d', d ≠ uvptDx → d' ≠ uvptDx → present (dir d) = true → present (dir d') = true →
    pgnum (dir d) = pgnum (dir d') → d = d'

/-- They are, and the allocator does not hand them out. -/
structure TablesApart (pm : PhysMem) (r : ℕ) : Prop where
  sep : Separate r (pm.mem r)
  free : ∀ p, pm.pageFreeList = some p → p < pm.boot.npages ∧ p < 2 ^ 20 ∧ p ≠ r ∧
    ∀ d, d ≠ uvptDx → present (pm.mem r d) = true → pgnum (pm.mem r d) ≠ p

variable {pm : PhysMem} {u : Unit} {w : Word}

/-- The kernel's invariant says so of the directories of all environments. -/
theorem MemInv.tablesApart {roots : EnvIdx → Option ℕ} {held : Finset ℕ} {e : EnvIdx} {r : ℕ}
    (h : MemInv pm roots held) (hr : roots e = some r) : TablesApart pm r := by
  -- the site that refers to the table of an entry
  have hsite : ∀ d, d ≠ uvptDx → present (pm.mem r d) = true →
      ∃ s : Site, s.IsTable ∧ target pm roots s = some (pgnum (pm.mem r d)) ∧
        (s = .pde e d ∨ s = .kern d) := by
    intro d hd hp
    by_cases hlow : d < utopDx
    · exact ⟨.pde e d, trivial, by rw [target_pde hr hlow, pageOf, if_pos hp], Or.inl rfl⟩
    · have hkern := h.table.kern_half e r d hr (not_lt.1 hlow) hd
      refine ⟨.kern d, trivial, ?_, Or.inr rfl⟩
      rw [target, entry, if_pos ⟨not_lt.1 hlow, hd⟩, ← hkern, presentEntry_of_present hp]
      rfl
  have hdir : target pm roots (.dir e) = some r := hr
  refine ⟨⟨fun d hd hp heq => ?_, fun d d' hd hd' hp hp' heq => ?_⟩, fun p hf => ?_⟩
  · obtain ⟨s, hs, ht, hcase⟩ := hsite d hd hp
    have hsame := h.site_unique hs ht (heq ▸ hdir)
    rcases hcase with rfl | rfl <;> cases hsame
  · obtain ⟨s, hs, ht, hcase⟩ := hsite d hd hp
    obtain ⟨s', -, ht', hcase'⟩ := hsite d' hd' hp'
    obtain rfl := h.site_unique hs ht (heq ▸ ht')
    rcases hcase with rfl | rfl <;> rcases hcase' with hc | hc <;> cases hc <;> rfl
  · obtain ⟨hav, -, h0⟩ := h.head_spec hf
    refine ⟨hav.1, h.lt_two_pow hav.1, fun heq => refs_ne_zero hdir (heq ▸ h0),
      fun d hd hp heq => ?_⟩
    obtain ⟨s, -, ht, -⟩ := hsite d hd hp
    exact refs_ne_zero ht (heq ▸ h0)

section Leaf

variable {pm pm' : PhysMem} {r p : ℕ} {va w perm : Word} {k : PageKey}

theorem leaf_congr (h : pm'.mem = pm.mem) : leaf pm' r = leaf pm r := by
  funext k
  rw [leaf, leaf, h]

/-- A page table is written, not the directory. -/
theorem dir_write (h : Separate r (pm.mem r)) (hd : pdx va ≠ uvptDx)
    (hp : present (pm.mem r (pdx va)) = true) :
    (pm.write ⟨pgnum (pm.mem r (pdx va)), ptx va⟩ w).mem r = pm.mem r := by
  rw [PhysMem.write]
  exact Function.update_of_ne (h.ne_dir _ hd hp).symm _ _

theorem leaf_of_present (hp : present (pm.mem r k.1) = true) :
    leaf pm r k = presentEntry (pm.mem (pgnum (pm.mem r k.1)) k.2) := if_pos hp

theorem leaf_of_absent (hp : present (pm.mem r k.1) = false) : leaf pm r k = none :=
  if_neg (by simp [hp])

/-- An entry that is written is that of one page. -/
theorem leaf_write (h : Separate r (pm.mem r)) (hd : pdx va ≠ uvptDx)
    (hp : present (pm.mem r (pdx va)) = true) (hk : k.1 ≠ uvptDx) :
    leaf (pm.write ⟨pgnum (pm.mem r (pdx va)), ptx va⟩ w) r k
      = if k = pageKey va then presentEntry w else leaf pm r k := by
  rw [leaf, leaf, dir_write h hd hp]
  by_cases hpk : present (pm.mem r k.1) = true
  · rw [if_pos hpk, if_pos hpk]
    by_cases hdd : k.1 = pdx va
    · by_cases htt : k.2 = ptx va
      · have hkey : k = pageKey va := Prod.ext hdd htt
        rw [if_pos hkey, hdd, htt, PhysMem.write]
        simp
      · have hkey : k ≠ pageKey va := fun heq => htt (congrArg Prod.snd heq)
        rw [if_neg hkey, hdd, PhysMem.write]
        simp [htt]
    · -- another table
      have hkey : k ≠ pageKey va := fun heq => hdd (congrArg Prod.fst heq)
      have hne : pgnum (pm.mem r k.1) ≠ pgnum (pm.mem r (pdx va)) := fun heq =>
        hdd (h.table _ _ hk hd hpk hp heq)
      rw [if_neg hkey, PhysMem.write]
      simp [hne]
  · have hkey : k ≠ pageKey va := fun heq => hpk (by rw [heq]; exact hp)
    rw [if_neg hpk, if_neg hpk, if_neg hkey]

/-- More flags in a directory entry leave the page tables as they are. -/
theorem leaf_orPde (h : Separate r (pm.mem r)) (hd : pdx va ≠ uvptDx)
    (hp : present (pm.mem r (pdx va)) = true) (hperm : FlagsOnly perm) (hk : k.1 ≠ uvptDx) :
    leaf (pm.write ⟨r, pdx va⟩ (pm.mem r (pdx va) ||| perm)) r k = leaf pm r k := by
  have hentry : ∀ d, d ≠ pdx va →
      (pm.write ⟨r, pdx va⟩ (pm.mem r (pdx va) ||| perm)).mem r d = pm.mem r d := by
    intro d hne
    simp [PhysMem.write, hne]
  have hself : (pm.write ⟨r, pdx va⟩ (pm.mem r (pdx va) ||| perm)).mem r (pdx va)
      = pm.mem r (pdx va) ||| perm := by
    simp [PhysMem.write]
  have htable : ∀ q, q ≠ r →
      (pm.write ⟨r, pdx va⟩ (pm.mem r (pdx va) ||| perm)).mem q = pm.mem q := by
    intro q hq
    rw [PhysMem.write]
    exact Function.update_of_ne hq _ _
  by_cases hdd : k.1 = pdx va
  · have hne := h.ne_dir _ hd hp
    rw [leaf, leaf, hdd, hself, if_pos (present_or hp), if_pos hp, pgnum_or_flags hperm,
      htable _ hne]
  · rw [leaf, leaf, hentry _ hdd]
    by_cases hpk : present (pm.mem r k.1) = true
    · rw [if_pos hpk, if_pos hpk, htable _ (h.ne_dir _ hk hpk)]
    · rw [if_neg hpk, if_neg hpk]

/-- A new page table translates nothing. -/
theorem leaf_newTable (h : TablesApart pm r) (hf : pm.pageFreeList = some p)
    (hn : present (pm.mem r (pdx va)) = false) (hk : k.1 ≠ uvptDx) :
    leaf (pm.newTable r (pdx va) p) r k = leaf pm r k := by
  obtain ⟨-, hp20, hpr, hpt⟩ := h.free p hf
  have hentry : ∀ d, d ≠ pdx va → (pm.newTable r (pdx va) p).mem r d = pm.mem r d := by
    intro d hne
    simp [PhysMem.newTable, PhysMem.write, PhysMem.setPage, hne, hpr.symm]
  have hself : (pm.newTable r (pdx va) p).mem r (pdx va) = PhysMem.newPde p := by
    simp [PhysMem.newTable, PhysMem.write]
  have hnew : (pm.newTable r (pdx va) p).mem p = fun _ => 0#32 := by
    simp [PhysMem.newTable, PhysMem.write, PhysMem.setPage, hpr]
  have htable : ∀ q, q ≠ r → q ≠ p → (pm.newTable r (pdx va) p).mem q = pm.mem q := by
    intro q hqr hqp
    simp [PhysMem.newTable, PhysMem.write, PhysMem.setPage, hqr, hqp]
  by_cases hdd : k.1 = pdx va
  · have hold : leaf pm r k = none := leaf_of_absent (by rw [hdd]; exact hn)
    rw [hold, leaf, hdd, hself, if_pos (present_newPde p), pgnum_newPde hp20, hnew,
      presentEntry_of_not present_zero]
  · rw [leaf, leaf, hentry _ hdd]
    by_cases hpk : present (pm.mem r k.1) = true
    · rw [if_pos hpk, if_pos hpk, htable _ (h.sep.ne_dir _ hk hpk) (hpt _ hk hpk)]
    · rw [if_neg hpk, if_neg hpk]

/-- The directory with the new table is in order. -/
theorem Separate.newTable (h : TablesApart pm r) (hf : pm.pageFreeList = some p) :
    Separate r ((pm.newTable r (pdx va) p).mem r) := by
  obtain ⟨-, hp20, hpr, hpt⟩ := h.free p hf
  have hentry : ∀ d, (pm.newTable r (pdx va) p).mem r d
      = if d = pdx va then PhysMem.newPde p else pm.mem r d := by
    intro d
    by_cases hdd : d = pdx va
    · simp [PhysMem.newTable, PhysMem.write, hdd]
    · simp [PhysMem.newTable, PhysMem.write, PhysMem.setPage, hdd, hpr.symm]
  refine ⟨fun d hd' hp => ?_, fun d d' hd₁ hd₂ hp hp' heq => ?_⟩
  · rw [hentry] at hp ⊢
    split
    · rw [pgnum_newPde hp20]
      exact hpr
    · next hdd =>
      rw [if_neg hdd] at hp
      exact h.sep.ne_dir d hd' hp
  · rw [hentry] at hp hp' heq
    rw [hentry] at heq
    by_cases h₁ : d = pdx va <;> by_cases h₂ : d' = pdx va
    · rw [h₁, h₂]
    · rw [if_pos h₁, if_neg h₂, pgnum_newPde hp20] at heq
      rw [if_neg h₂] at hp'
      exact absurd heq.symm (hpt d' hd₂ hp')
    · rw [if_neg h₁, if_pos h₂, pgnum_newPde hp20] at heq
      rw [if_neg h₁] at hp
      exact absurd heq (hpt d hd₁ hp)
    · rw [if_neg h₁] at hp heq
      rw [if_neg h₂] at hp' heq
      exact h.sep.table d d' hd₁ hd₂ hp hp' heq

end Leaf

/-! ## What the functions of `kern/pmap.c` do to the translations -/

section Calls

variable {pm pm' : PhysMem} {r pp : ℕ} {va perm : Word}

theorem pageFree_mem (h : pageFree pp pm = .ok u pm') : pm'.mem = pm.mem := by
  rw [pageFree, run_get_bind] at h
  split at h
  · cases h
  · cases h
    rfl

theorem pageDecref_mem (h : pageDecref pp pm = .ok u pm') : pm'.mem = pm.mem := by
  rw [pageDecref, run_modify_bind, run_get_bind] at h
  split at h
  · exact (pageFree_mem h).trans rfl
  · cases h
    rfl

/-- `pgdir_walk` finds the table of a present directory entry, or panics. -/
theorem pgdirWalk_of_present {c : Bool} {o : Option PtePtr}
    (hp : present (pm.mem r (pdx va)) = true) (h : pgdirWalk r va c pm = .ok o pm') :
    pm' = pm ∧ o = some ⟨pgnum (pm.mem r (pdx va)), ptx va⟩ := by
  by_cases hq : pgnum (pm.mem r (pdx va)) < pm.boot.npages
  · rw [pgdirWalk_present hp hq] at h
    cases h
    exact ⟨rfl, rfl⟩
  · rw [pgdirWalk, run_get_bind, if_pos hp] at h
    obtain ⟨kva, pm₁, hk, -⟩ := run_bind_inv h
    rw [kaddr, run_get_bind, pgnum_pteAddr, if_pos (by omega)] at hk
    cases hk

/-- **`pgdir_walk`** with leave to make a table. -/
theorem pgdirWalk_create_cases {o : Option PtePtr} (hap : TablesApart pm r)
    (h : pgdirWalk r va true pm = .ok o pm') :
    (o = none ∧ pm' = pm ∧ leaf pm r (pageKey va) = none) ∨
    (o = some ⟨pgnum (pm'.mem r (pdx va)), ptx va⟩ ∧ present (pm'.mem r (pdx va)) = true ∧
      Separate r (pm'.mem r) ∧ (∀ k : PageKey, k.1 ≠ uvptDx → leaf pm' r k = leaf pm r k) ∧
      (pm' = pm ∨ leaf pm r (pageKey va) = none)) := by
  by_cases hp : present (pm.mem r (pdx va)) = true
  · obtain ⟨rfl, rfl⟩ := pgdirWalk_of_present hp h
    exact Or.inr ⟨rfl, hp, hap.sep, fun _ _ => rfl, Or.inl rfl⟩
  · rw [Bool.not_eq_true] at hp
    have hnone : leaf pm r (pageKey va) = none := leaf_of_absent hp
    cases hf : pm.pageFreeList with
    | none =>
      rw [pgdirWalk_noMem hp hf] at h
      cases h
      exact Or.inl ⟨rfl, rfl, hnone⟩
    | some p =>
      obtain ⟨hpn, hp20, hpr, -⟩ := hap.free p hf
      rw [pgdirWalk_new hp hf hpn hp20] at h
      cases h
      have hself : (pm.newTable r (pdx va) p).mem r (pdx va) = PhysMem.newPde p := by
        simp [PhysMem.newTable, PhysMem.write]
      refine Or.inr ⟨by rw [hself, pgnum_newPde hp20], by rw [hself]; exact present_newPde p,
        Separate.newTable hap hf, fun k hk => leaf_newTable hap hf hp hk, Or.inr hnone⟩

/-- **`page_lookup`** finds the entry that translates the page. -/
theorem pageLookup_cases {o : Option (ℕ × PtePtr)} (h : pageLookup r va pm = .ok o pm') :
    pm' = pm ∧ (o = none ∧ leaf pm r (pageKey va) = none ∨
      ∃ w, leaf pm r (pageKey va) = some w ∧ present (pm.mem r (pdx va)) = true ∧
        o = some (pgnum w, ⟨pgnum (pm.mem r (pdx va)), ptx va⟩)) := by
  obtain ⟨o₁, pm₁, hwalk, h⟩ := run_bind_inv h
  by_cases hp : present (pm.mem r (pdx va)) = true
  · obtain ⟨rfl, rfl⟩ := pgdirWalk_of_present hp hwalk
    have hleaf : leaf pm₁ r (pageKey va)
        = presentEntry (pm₁.read ⟨pgnum (pm₁.mem r (pdx va)), ptx va⟩) := leaf_of_present hp
    simp only [run_get_bind] at h
    by_cases hpte : present (pm₁.read ⟨pgnum (pm₁.mem r (pdx va)), ptx va⟩) = true
    · rw [if_neg (by simp [hpte])] at h
      obtain ⟨q, pm₂, hq, h⟩ := run_bind_inv h
      cases h
      rw [pa2page, run_get_bind, pgnum_pteAddr] at hq
      split at hq
      · cases hq
      · cases hq
        exact ⟨rfl, Or.inr ⟨_, by rw [hleaf, presentEntry_of_present hpte], hp, rfl⟩⟩
    · rw [Bool.not_eq_true] at hpte
      rw [if_pos (by simp [hpte])] at h
      cases h
      exact ⟨rfl, Or.inl ⟨rfl, by rw [hleaf, presentEntry_of_not hpte]⟩⟩
  · rw [Bool.not_eq_true] at hp
    rw [pgdirWalk_absent hp] at hwalk
    cases hwalk
    cases h
    exact ⟨rfl, Or.inl ⟨rfl, leaf_of_absent hp⟩⟩

end Calls

/-! ## The code, with the TLB -/

/-- Memory and the TLB. -/
structure Mmu where
  pm : PhysMem
  /-- What the TLB holds for each page. -/
  tlb : Cache PageKey (ℕ × Word)

/-- Code that runs on memory and TLB. -/
abbrev MmuM := EStateM Panic Mmu

/-- Code that does not touch the TLB. -/
def onMem {α : Type} (x : PhysM α) : MmuM α := fun m =>
  match x m.pm with
  | .ok a pm => .ok a { m with pm := pm }
  | .error e pm => .error e { m with pm := pm }

/-- `tlb_invalidate`, when `cur` is the page directory of `curenv`. -/
def tlbInvalidate (cur : Option ℕ) (pgdir : ℕ) (va : Word) : MmuM Unit :=
  if cur = none ∨ cur = some pgdir then
    modify fun m => { m with tlb := m.tlb.drop (pageKey va) }
  else pure ()

/-- The processor takes in the translations of the pages in `hw`. -/
def hardwareWalk (r : ℕ) (hw : Set PageKey) : MmuM Unit :=
  modify fun m => { m with tlb := m.tlb.fill (translation m.pm r) hw }

/-- `page_remove` on the directory that is loaded.  The entry is cleared after
`tlb_invalidate`, and the processor may use it until then. -/
def pageRemoveT (cur : Option ℕ) (r : ℕ) (va : Word) (hw : Set PageKey) : MmuM Unit := do
  match ← onMem (pageLookup r va) with
  | none => pure ()
  | some (pp, pte) =>
    onMem (pageDecref pp)
    tlbInvalidate cur r va
    hardwareWalk r hw
    onMem (modify fun pm => pm.write pte 0#32)

/-- `page_insert` on the directory that is loaded. -/
def pageInsertT (cur : Option ℕ) (r pp : ℕ) (va perm : Word) (hw : Set PageKey) :
    MmuM (Except Errno Unit) := do
  match ← onMem (pgdirWalk r va true) with
  | none => pure (.error .noMem)
  | some pte =>
    let m ← get
    if present (m.pm.read pte) ∧ pteAddr (m.pm.read pte) = page2pa pp then
      onMem (modify fun pm => pm.write pte (page2pa pp ||| perm ||| PTE_P))
      pure (.ok ())
    else
      (if present (m.pm.read pte) then pageRemoveT cur r va hw else pure ())
      onMem (incref pp)
      onMem (modify fun pm => pm.write pte (page2pa pp ||| PTE_P ||| perm))
      onMem (modify fun pm => pm.write ⟨r, pdx va⟩ (pm.mem r (pdx va) ||| perm))
      pure (.ok ())

/-! ### Without the TLB this is the code of `kern/pmap.c` -/

/-- Forget the TLB. -/
def eraseTlb {α : Type} : EStateM.Result Panic Mmu α → EStateM.Result Panic PhysMem α
  | .ok a m => .ok a m.pm
  | .error e m => .error e m.pm

/-- The two programs do the same to memory. -/
def Erases {α : Type} (x : MmuM α) (y : PhysM α) : Prop := ∀ m, eraseTlb (x m) = y m.pm

section Erase

variable {α β : Type}

theorem erases_pure (a : α) : Erases (pure a) (pure a) := fun _ => rfl

theorem erases_onMem (x : PhysM α) : Erases (onMem x) x := fun m => by
  rw [onMem]
  cases x m.pm <;> rfl

theorem Erases.bind {x : MmuM α} {y : PhysM α} {f : α → MmuM β} {g : α → PhysM β}
    (hx : Erases x y) (hf : ∀ a, Erases (f a) (g a)) : Erases (x >>= f) (y >>= g) := by
  intro m
  have hm := hx m
  cases hrun : x m with
  | ok a m' =>
    rw [hrun] at hm
    rw [run_bind_ok hrun, run_bind_ok hm.symm]
    exact hf a m'
  | error e m' =>
    rw [hrun] at hm
    rw [run_bind_error hrun, run_bind_error hm.symm]
    rfl

/-- What the TLB does leaves no trace. -/
theorem Erases.bind_silent {x : MmuM Unit} {f : Unit → MmuM β} {g : PhysM β}
    (hx : Erases x (pure ())) (hf : Erases (f ()) g) : Erases (x >>= f) g :=
  hx.bind (g := fun _ => g) fun _ => hf

theorem erases_tlbInvalidate (cur : Option ℕ) (r : ℕ) (va : Word) :
    Erases (tlbInvalidate cur r va) (pure ()) := by
  intro m
  rw [tlbInvalidate]
  split <;> rfl

theorem erases_hardwareWalk (r : ℕ) (hw : Set PageKey) :
    Erases (hardwareWalk r hw) (pure ()) := fun _ => rfl

theorem erases_pageRemoveT (cur : Option ℕ) (r : ℕ) (va : Word) (hw : Set PageKey) :
    Erases (pageRemoveT cur r va hw) (pageRemove r va) := by
  refine (erases_onMem _).bind fun o => ?_
  cases o with
  | none => exact erases_pure ()
  | some x =>
    refine (erases_onMem _).bind fun _ => ?_
    exact (erases_tlbInvalidate cur r va).bind_silent
      ((erases_hardwareWalk r hw).bind_silent (erases_onMem _))

theorem erases_pageInsertT (cur : Option ℕ) (r pp : ℕ) (va perm : Word) (hw : Set PageKey) :
    Erases (pageInsertT cur r pp va perm hw) (pageInsert r pp va perm) := by
  refine (erases_onMem _).bind fun o => ?_
  cases o with
  | none => exact erases_pure _
  | some pte =>
    intro m
    simp only [run_get_bind]
    split
    · exact (erases_onMem _).bind (fun _ => erases_pure _) m
    · refine Erases.bind ?_ (fun _ => ?_) m
      · split
        · exact erases_pageRemoveT cur r va hw
        · exact erases_pure ()
      · refine (erases_onMem _).bind fun _ => (erases_onMem _).bind fun _ => ?_
        exact (erases_onMem _).bind fun _ => erases_pure _

end Erase

/-! ## What the calls do -/

/-- The translations of `m`, with that of one page set to `o`. -/
def Retranslated (r : ℕ) (pm pm' : PhysMem) (k₀ : PageKey) (o : Option Word) : Prop :=
  ∀ k : PageKey, k.1 ≠ uvptDx → leaf pm' r k = if k = k₀ then o else leaf pm r k

section Cases

variable {cur : Option ℕ} {r pp : ℕ} {va perm : Word} {hw : Set PageKey} {m m' : Mmu}

theorem onMem_inv {α : Type} {x : PhysM α} {a : α} (h : onMem x m = .ok a m') :
    ∃ pm', x m.pm = .ok a pm' ∧ m' = { m with pm := pm' } := by
  rw [onMem] at h
  cases hx : x m.pm with
  | ok b pm' =>
    rw [hx] at h
    cases h
    exact ⟨pm', rfl, rfl⟩
  | error e pm' =>
    rw [hx] at h
    cases h

/-- `tlb_invalidate` on the directory that is loaded. -/
theorem tlbInvalidate_active (hact : cur = none ∨ cur = some r)
    (h : tlbInvalidate cur r va m = .ok u m') : m' = { m with tlb := m.tlb.drop (pageKey va) } := by
  rw [tlbInvalidate, if_pos hact] at h
  cases h
  rfl

/-- **`page_remove`** clears the entry, if there is one.  The TLB forgot it
before, and may have taken it in again. -/
theorem pageRemoveT_cases (hact : cur = none ∨ cur = some r) (hsep : Separate r (m.pm.mem r))
    (hd : pdx va ≠ uvptDx) (h : pageRemoveT cur r va hw m = .ok u m') :
    (leaf m.pm r (pageKey va) = none ∧ m' = m) ∨
    ((∃ w, leaf m.pm r (pageKey va) = some w) ∧ m'.pm.mem r = m.pm.mem r ∧
      Retranslated r m.pm m'.pm (pageKey va) none ∧
      m'.tlb = (m.tlb.drop (pageKey va)).fill (translation m.pm r) hw) := by
  obtain ⟨pm₀, tlb⟩ := m
  obtain ⟨o, m₁, hrun, h⟩ := run_bind_inv h
  obtain ⟨pm, hlook, rfl⟩ := onMem_inv hrun
  obtain ⟨heq, ⟨rfl, hnone⟩ | ⟨w, hw', hp, rfl⟩⟩ := pageLookup_cases hlook <;> subst heq
  · cases h
    exact Or.inl ⟨hnone, rfl⟩
  · obtain ⟨_, m₂, hrun₂, h⟩ := run_bind_inv h
    obtain ⟨pm₂, hdec, rfl⟩ := onMem_inv hrun₂
    obtain ⟨_, m₃, hinv, h⟩ := run_bind_inv h
    obtain rfl := tlbInvalidate_active hact hinv
    cases h
    have hmem : pm₂.mem = pm.mem := pageDecref_mem hdec
    have htable : pm₂.mem r (pdx va) = pm.mem r (pdx va) := by rw [hmem]
    have hsep₂ : Separate r (pm₂.mem r) := by
      rw [hmem]
      exact hsep
    have hp₂ : present (pm₂.mem r (pdx va)) = true := htable ▸ hp
    refine Or.inr ⟨⟨w, hw'⟩, ?_, fun k hk => ?_, ?_⟩
    · show (pm₂.write ⟨pgnum (pm.mem r (pdx va)), ptx va⟩ 0#32).mem r = pm.mem r
      rw [← htable, dir_write hsep₂ hd hp₂, hmem]
    · show leaf (pm₂.write ⟨pgnum (pm.mem r (pdx va)), ptx va⟩ 0#32) r k = _
      rw [← htable, leaf_write hsep₂ hd hp₂ hk, presentEntry_zero, leaf_congr hmem]
    · show Cache.fill (translation pm₂ r) hw _ = _
      have htr : translation pm₂ r = translation pm r := by
        funext k
        rw [translation, translation, leaf_congr hmem]
      rw [htr]

/-- The entry is written. -/
theorem Retranslated.write {pm₀ : PhysMem} {o : Option Word}
    (h : Retranslated r pm₀ pm (pageKey va) o) (hsep : Separate r (pm.mem r)) (hd : pdx va ≠ uvptDx)
    (hp : present (pm.mem r (pdx va)) = true) (hw : present w = true) :
    Retranslated r pm₀ (pm.write ⟨pgnum (pm.mem r (pdx va)), ptx va⟩ w) (pageKey va) (some w) := by
  intro k hk
  rw [leaf_write hsep hd hp hk, presentEntry_of_present hw]
  split
  · rfl
  · next hne => rw [h k hk, if_neg hne]

/-- The end of `page_insert`: the entry is written, and the directory entry gets
the flags. -/
theorem Retranslated.install {pm₀ pm₁ : PhysMem} {o : Option Word} {pte : PtePtr}
    (h : Retranslated r pm₀ pm (pageKey va) o) (hsep : Separate r (pm.mem r)) (hd : pdx va ≠ uvptDx)
    (hp : present (pm.mem r (pdx va)) = true) (hw : present w = true) (hperm : FlagsOnly perm)
    (hpte : pte = ⟨pgnum (pm.mem r (pdx va)), ptx va⟩) (h₁ : pm₁ = (pm.incr pp).write pte w) :
    Retranslated r pm₀ (pm₁.write ⟨r, pdx va⟩ (pm₁.mem r (pdx va) ||| perm)) (pageKey va)
      (some w) := by
  have hmem : pm₁.mem = (pm.write ⟨pgnum (pm.mem r (pdx va)), ptx va⟩ w).mem := by
    rw [h₁, hpte]
    rfl
  have hdir : pm₁.mem r = pm.mem r := by rw [hmem, dir_write hsep hd hp]
  intro k hk
  rw [leaf_orPde (hdir ▸ hsep) hd (by rw [hdir]; exact hp) hperm hk, leaf_congr hmem]
  exact h.write hsep hd hp hw k hk

/-- **`page_insert`**: no memory for a page table; or the entry of the page is
the one asked for, and the TLB was told in one case only: another page was
there. -/
theorem pageInsertT_cases {res : Except Errno Unit} (hact : cur = none ∨ cur = some r)
    (hap : TablesApart m.pm r) (hd : pdx va ≠ uvptDx) (hperm : FlagsOnly perm)
    (h : pageInsertT cur r pp va perm hw m = .ok res m') :
    (leaf m.pm r (pageKey va) = none ∧ m' = m) ∨
    (Retranslated r m.pm m'.pm (pageKey va) (some (mkPte pp perm)) ∧
      ((leaf m.pm r (pageKey va) = none ∧ m'.tlb = m.tlb) ∨
       (∃ w, leaf m.pm r (pageKey va) = some w ∧ pteAddr w = page2pa pp ∧ m'.tlb = m.tlb) ∨
       ∃ w, leaf m.pm r (pageKey va) = some w ∧ pteAddr w ≠ page2pa pp ∧
         m'.tlb = (m.tlb.drop (pageKey va)).fill (translation m.pm r) hw)) := by
  obtain ⟨pm, tlb⟩ := m
  obtain ⟨o, m₁, hrun, htail⟩ := run_bind_inv h
  clear h
  obtain ⟨pm₁, hwalk, rfl⟩ := onMem_inv hrun
  obtain ⟨rfl, rfl, hnone⟩ | ⟨rfl, hp, hsep, hleaf, hsame⟩ := pgdirWalk_create_cases hap hwalk
  · cases htail
    exact Or.inl ⟨hnone, rfl⟩
  · right
    have hkey : leaf pm r (pageKey va)
        = presentEntry (pm₁.read ⟨pgnum (pm₁.mem r (pdx va)), ptx va⟩) := by
      rw [← hleaf (pageKey va) hd]
      exact leaf_of_present hp
    have hstart : Retranslated r pm pm₁ (pageKey va) (leaf pm r (pageKey va)) := by
      intro k hk
      rw [hleaf k hk]
      split
      · next heq => rw [heq]
      · rfl
    have hmk : page2pa pp ||| PTE_P ||| perm = mkPte pp perm := by
      rw [mkPte, BitVec.or_assoc, BitVec.or_comm PTE_P, ← BitVec.or_assoc]
    simp only [run_get_bind] at htail
    by_cases hpte : present (pm₁.read ⟨pgnum (pm₁.mem r (pdx va)), ptx va⟩) = true
    · rw [presentEntry_of_present hpte] at hkey
      by_cases haddr : pteAddr (pm₁.read ⟨pgnum (pm₁.mem r (pdx va)), ptx va⟩) = page2pa pp
      · -- the page is there already
        rw [if_pos ⟨hpte, haddr⟩] at htail
        cases htail
        exact ⟨hstart.write hsep hd hp (present_mkPte pp perm),
          Or.inr (Or.inl ⟨_, hkey, haddr, rfl⟩)⟩
      · -- another page is removed first
        rw [if_neg (fun hc => haddr hc.2), if_pos hpte] at htail
        obtain rfl : pm₁ = pm := by
          rcases hsame with heq | hnone
          · exact heq
          · rw [hkey] at hnone
            cases hnone
        obtain ⟨_, ⟨pm₂, tlb₂⟩, hrem, hend⟩ := run_bind_inv htail
        obtain ⟨hnone, -⟩ | ⟨-, hdir, hrest, htlb⟩ := pageRemoveT_cases hact hsep hd hrem
        · have hnone' : leaf pm₁ r (pageKey va) = none := hnone
          rw [hkey] at hnone'
          cases hnone'
        · rw [hmk] at hend
          cases hend
          have hdir' : pm₂.mem r = pm₁.mem r := hdir
          have hpte₂ : (⟨pgnum (pm₁.mem r (pdx va)), ptx va⟩ : PtePtr)
              = ⟨pgnum (pm₂.mem r (pdx va)), ptx va⟩ := by rw [hdir']
          exact ⟨hrest.install (hdir' ▸ hsep) hd (by rw [hdir']; exact hp)
            (present_mkPte pp perm) hperm hpte₂ rfl, Or.inr (Or.inr ⟨_, hkey, haddr, htlb⟩)⟩
    · -- nothing is there
      rw [if_neg (fun hc => hpte hc.1), if_neg hpte, hmk] at htail
      rw [Bool.not_eq_true] at hpte
      rw [presentEntry_of_not hpte] at hkey
      cases htail
      exact ⟨hstart.install hsep hd hp (present_mkPte pp perm) hperm rfl rfl,
        Or.inl ⟨hkey, rfl⟩⟩

end Cases

/-! ## Runs -/

/-- A call on the directory that is loaded. -/
inductive PmapCall
  | remove (va : Word)
  | insert (pp : ℕ) (va perm : Word)

/-- The address it is about. -/
def PmapCall.va : PmapCall → Word
  | .remove va => va
  | .insert _ va _ => va

/-- What happens to memory and TLB: a call, in which the processor takes in the
pages of `hw` before an entry is cleared; between calls it takes in
translations and drops some. -/
inductive TlbEvent
  | call (c : PmapCall) (hw : Set PageKey)
  | walk (hw : Set PageKey)
  | evict

/-- One step, where `r` is the directory that is loaded. -/
inductive TlbStep (cur : Option ℕ) (r : ℕ) (m : Mmu) : TlbEvent → Mmu → Prop
  | remove {va : Word} {hw : Set PageKey} {m' : Mmu} :
      pageRemoveT cur r va hw m = .ok () m' → TlbStep cur r m (.call (.remove va) hw) m'
  | insert {pp : ℕ} {va perm : Word} {hw : Set PageKey} {res : Except Errno Unit} {m' : Mmu} :
      pageInsertT cur r pp va perm hw m = .ok res m' →
      TlbStep cur r m (.call (.insert pp va perm) hw) m'
  | walk {hw : Set PageKey} {m' : Mmu} :
      hardwareWalk r hw m = .ok () m' → TlbStep cur r m (.walk hw) m'
  | evict {c : Cache PageKey (ℕ × Word)} :
      (∀ k, c k ⊆ m.tlb k) → TlbStep cur r m .evict { m with tlb := c }

/-- The call is one for a page of the directory, and the directory is in order
(`MemInv.tablesApart`).  `perm` are flags. -/
def InOrder (r : ℕ) (m : Mmu) : PmapCall → Prop
  | .remove va => TablesApart m.pm r ∧ pdx va ≠ uvptDx
  | .insert _ va perm => TablesApart m.pm r ∧ pdx va ≠ uvptDx ∧ FlagsOnly perm

/-- Where the call meets an entry, it is not to be the same page with other
permissions, and the processor stays away from an entry that goes. -/
def Spares (hw : Set PageKey) (w : Word) : PmapCall → Prop
  | .remove va => pageKey va ∉ hw
  | .insert pp va perm =>
    if pteAddr w = page2pa pp then access w = access (mkPte pp perm) else pageKey va ∉ hw

/-- No step goes wrong. -/
def TlbCareful (r : ℕ) (m : Mmu) : TlbEvent → Prop
  | .call c hw => InOrder r m c ∧ ∀ w, leaf m.pm r (pageKey c.va) = some w → Spares hw w c
  | .walk _ => True
  | .evict => True

/-- The TLB holds nothing but translations of the directory. -/
def Coherent (r : ℕ) (m : Mmu) : Prop :=
  ∀ k : PageKey, k.1 ≠ uvptDx → Cache.CoherentAt (translation m.pm r) m.tlb k

section Runs

variable {cur : Option ℕ} {r : ℕ} {m m' : Mmu} {k₀ : PageKey} {o : Option Word} {hw : Set PageKey}

theorem Retranslated.translation_of_ne {pm' : PhysMem} {k : PageKey}
    (h : Retranslated r pm pm' k₀ o) (hk : k.1 ≠ uvptDx) (hne : k ≠ k₀) :
    translation pm' r k = translation pm r k := by
  rw [translation, translation, h k hk, if_neg hne]

theorem Retranslated.translation_self {pm' : PhysMem} (h : Retranslated r pm pm' k₀ o)
    (hk : k₀.1 ≠ uvptDx) : translation pm' r k₀ = o.map access := by
  rw [translation, h k₀ hk, if_pos rfl]

/-- The TLB was told: what matters is whether the old entry came back. -/
theorem Coherent.told (h : Coherent r m) (ht : Retranslated r m.pm m'.pm k₀ o)
    (htlb : m'.tlb = (m.tlb.drop k₀).fill (translation m.pm r) hw) (hout : k₀ ∉ hw) :
    Coherent r m' := by
  intro k hk
  rw [htlb]
  by_cases hkk : k = k₀
  · subst hkk
    refine Cache.coherentAt_of_empty ?_
    rw [Cache.fill_of_not_mem hout, Cache.drop_self]
  · exact (((h k hk).drop k₀).fill hw).congr (ht.translation_of_ne hk hkk)

/-- The TLB was not told: it must have nothing to forget. -/
theorem Coherent.untold (h : Coherent r m) (ht : Retranslated r m.pm m'.pm k₀ o)
    (htlb : m'.tlb = m.tlb)
    (hkeep : ∀ w, leaf m.pm r k₀ = some w → o.map access = some (access w)) :
    Coherent r m' := by
  intro k hk
  rw [htlb]
  by_cases hkk : k = k₀
  · subst hkk
    cases hw : leaf m.pm r k with
    | none =>
      have hnone : translation m.pm r k = none := by rw [translation, hw, Option.map_none]
      exact Cache.coherentAt_of_empty ((h k hk).eq_empty hnone)
    | some w =>
      refine (h k hk).congr ?_
      rw [ht.translation_self hk, hkeep w hw, translation, hw, Option.map_some]
  · exact (h k hk).congr (ht.translation_of_ne hk hkk)

/-- **One step.** -/
theorem Coherent.step {ev : TlbEvent} (hact : cur = none ∨ cur = some r) (h : Coherent r m)
    (hc : TlbCareful r m ev) (hs : TlbStep cur r m ev m') : Coherent r m' := by
  cases hs with
  | remove hrun =>
    obtain ⟨⟨hap, hd⟩, hspare⟩ := hc
    obtain ⟨-, rfl⟩ | ⟨⟨w, hw⟩, -, ht, htlb⟩ := pageRemoveT_cases hact hap.sep hd hrun
    · exact h
    · exact h.told ht htlb (hspare w hw)
  | @insert pp va perm hw res _ hrun =>
    obtain ⟨⟨hap, hd, hperm⟩, hspare⟩ := hc
    obtain ⟨-, rfl⟩ | ⟨ht, hcase⟩ := pageInsertT_cases hact hap hd hperm hrun
    · exact h
    obtain ⟨hnone, htlb⟩ | ⟨w, hw, haddr, htlb⟩ | ⟨w, hw, haddr, htlb⟩ := hcase
    · refine h.untold ht htlb fun w hw => ?_
      rw [hnone] at hw
      cases hw
    · refine h.untold ht htlb fun w' hw' => ?_
      have hsame := hspare w' hw'
      obtain rfl : w = w' := Option.some.inj (hw.symm.trans hw')
      rw [Spares, if_pos haddr] at hsame
      rw [hsame, Option.map_some]
    · have hout := hspare w hw
      rw [Spares, if_neg haddr] at hout
      exact h.told ht htlb hout
  | walk hrun =>
    cases hrun
    exact fun k hk => (h k hk).fill _
  | evict hsub => exact fun k hk => (h k hk).evict (hsub k)

/-- **Where a step goes wrong.**  The TLB held the translation of the page. -/
theorem spares_of_coherent {c : PmapCall} (hact : cur = none ∨ cur = some r) (hin : InOrder r m c)
    (hheld : ∀ v, translation m.pm r (pageKey c.va) = some v →
      v ∈ m.tlb (pageKey c.va)) (hs : TlbStep cur r m (.call c hw) m')
    (h' : Cache.CoherentAt (translation m'.pm r) m'.tlb (pageKey c.va))
    (hw' : leaf m.pm r (pageKey c.va) = some w) : Spares hw w c := by
  have htr : translation m.pm r (pageKey c.va) = some (access w) := by
    rw [translation, hw', Option.map_some]
  cases hs with
  | @remove va _ _ hrun =>
    obtain ⟨hap, hd⟩ := hin
    intro hback
    obtain ⟨hnone, -⟩ | ⟨-, -, ht, htlb⟩ := pageRemoveT_cases hact hap.sep hd hrun
    · exact absurd (hnone.symm.trans hw') (by simp)
    · have hnew := h' (access w) (by rw [htlb]; exact Or.inr ⟨hback, htr⟩)
      exact absurd ((ht.translation_self hd).symm.trans hnew) (by simp)
  | @insert pp va perm _ res _ hrun =>
    obtain ⟨hap, hd, hperm⟩ := hin
    obtain ⟨hnone, -⟩ | ⟨ht, hcase⟩ := pageInsertT_cases hact hap hd hperm hrun
    · exact absurd (hnone.symm.trans hw') (by simp)
    have hnew := ht.translation_self hd
    rw [Option.map_some] at hnew
    rw [Spares]
    obtain ⟨hnone, -⟩ | ⟨w', hw'', haddr, htlb⟩ | ⟨w', hw'', haddr, htlb⟩ := hcase
    · exact absurd (hnone.symm.trans hw') (by simp)
    · obtain rfl : w' = w := Option.some.inj (hw''.symm.trans hw')
      rw [if_pos haddr]
      have hv := h' (access w') (by rw [htlb]; exact hheld _ htr)
      exact Option.some.inj (hv.symm.trans hnew)
    · obtain rfl : w' = w := Option.some.inj (hw''.symm.trans hw')
      rw [if_neg haddr]
      intro hback
      have hv := h' (access w') (by rw [htlb]; exact Or.inr ⟨hback, htr⟩)
      have hpg : pgnum w' = pgnum (mkPte pp perm) :=
        congrArg Prod.fst (Option.some.inj (hv.symm.trans hnew))
      refine haddr (BitVec.eq_of_toNat_eq ?_)
      rw [pteAddr_toNat, hpg, mkPte, pgnum_or_flags flagsOnly_PTE_P, pgnum_or_flags hperm,
        pgnum_eq, page2pa, BitVec.toNat_shiftLeft, BitVec.toNat_ofNat, Nat.shiftLeft_eq]
      omega

end Runs

/-- **TLB coherence.**  In every run of `page_insert` and `page_remove` on the
directory that is loaded, with a processor that takes in and drops
translations as it likes, the TLB is right in every state, as long as no call
inserts a page again with other permissions and no entry is taken in again
while it is being removed.  A call that does one of these, when the TLB holds
the entry, leaves a wrong entry for its address. -/
theorem tlb_coherent {cur : Option ℕ} {r : ℕ} {m : Mmu} (hact : cur = none ∨ cur = some r)
    (h0 : Coherent r m) :
    (∀ m', Lts.Run (TlbStep cur r) (TlbCareful r) m m' → Coherent r m') ∧
    ∀ c hw m', InOrder r m c →
      (∀ v, translation m.pm r (pageKey c.va) = some v → v ∈ m.tlb (pageKey c.va)) →
      TlbStep cur r m (.call c hw) m' →
      (Cache.CoherentAt (translation m'.pm r) m'.tlb (pageKey c.va) ↔
        TlbCareful r m (.call c hw)) := by
  refine ⟨fun m' hr => hr.inv h0 fun m₁ ev m₂ h hc hs => h.step hact hc hs, ?_⟩
  intro c hw m' hin hheld hs
  refine ⟨fun h' => ⟨hin, fun w hw' => spares_of_coherent hact hin hheld hs h' hw'⟩, fun hc => ?_⟩
  refine h0.step hact hc hs (pageKey c.va) ?_
  cases c with
  | remove va => exact hin.2
  | insert pp va perm => exact hin.2.1

/-- A directory in page 1 with one page table, in page 2. -/
def oneTable : PhysMem where
  boot := ⟨8, 8, 0, 0⟩
  pages := fun _ => ⟨none, 1#16⟩
  pageFreeList := none
  mem := fun p d => if p = 1 ∧ d = 0 then 0x2007#32 else 0#32
  userMemCheckAddr := 0#32

theorem oneTable_apart : TablesApart oneTable 1 := by
  have hzero : ∀ d, present (oneTable.mem 1 d) = true → d = 0 := by
    intro d hp
    by_contra hd
    have hmem : oneTable.mem 1 d = 0#32 := if_neg fun hc => hd hc.2
    rw [hmem, present_zero] at hp
    cases hp
  refine ⟨⟨fun d _ hp => ?_, fun d d' _ _ hp hp' _ => (hzero d hp).trans (hzero d' hp').symm⟩,
    fun p hf => by cases hf⟩
  rw [hzero d hp]
  decide

/-- An empty TLB. -/
def emptyTlb : Mmu := ⟨oneTable, fun _ => ∅⟩

/-- Page 3 is inserted at address 0, to be read and written, and the processor
takes the entry in. -/
theorem tlb_coherent_first : ∃ m₁ m₂, TlbStep none 1 emptyTlb (.call (.insert 3 0#32 6#32) ∅) m₁ ∧
    TlbStep none 1 m₁ (.walk Set.univ) m₂ ∧ (3, 7#32) ∈ m₂.tlb (0, 0) ∧ Coherent 1 m₂ := by
  have h0 : Coherent 1 emptyTlb := fun k _ => Cache.coherentAt_of_empty rfl
  obtain ⟨m₁, hs₁, htr⟩ : ∃ m₁, TlbStep none 1 emptyTlb (.call (.insert 3 0#32 6#32) ∅) m₁ ∧
      translation m₁.pm 1 (0, 0) = some (3, 7#32) := ⟨_, .insert rfl, by decide⟩
  have hc : TlbCareful 1 emptyTlb (.call (.insert 3 0#32 6#32) ∅) :=
    ⟨⟨oneTable_apart, by decide, by decide⟩, fun w hw => by cases hw⟩
  have hs₂ : TlbStep none 1 m₁ (.walk Set.univ) _ := .walk rfl
  have hc₂ : TlbCareful 1 m₁ (.walk Set.univ) := trivial
  exact ⟨m₁, _, hs₁, hs₂, Or.inr ⟨trivial, htr⟩,
    (tlb_coherent (Or.inl rfl) h0).1 _ ((Lts.Run.nil.snoc hc hs₁).snoc hc₂ hs₂)⟩

/-- Then page 3 is inserted at address 0 again, to be read only.  The TLB still
lets it be written. -/
theorem tlb_stale_after_reinsert : ∃ m₁ m₂ m₃,
    TlbStep none 1 emptyTlb (.call (.insert 3 0#32 6#32) ∅) m₁ ∧
    TlbStep none 1 m₁ (.walk Set.univ) m₂ ∧ TlbStep none 1 m₂ (.call (.insert 3 0#32 4#32) ∅) m₃ ∧
    translation m₃.pm 1 (0, 0) = some (3, 5#32) ∧ (3, 7#32) ∈ m₃.tlb (0, 0) := by
  refine ⟨_, _, _, .insert rfl, .walk rfl, .insert rfl, by decide, ?_⟩
  exact Or.inr ⟨trivial, by decide⟩

end Jos
