import Jos.Kern.Env
import Jos.Kern.PmapSpec

/-!
# What the functions on environments do to memory

`env_setup_vm` gives an environment a page directory and `env_free` takes it
apart again.  For the invariant of physical memory both come down to one more,
or one less, root:

* `MemInv.newRoot` — a page that holds a fresh page directory becomes the root
  of an environment that had none;
* `envSetupVm_spec` — `env_setup_vm` does exactly that, or fails and changes
  nothing;
* `freeTables_spec` — the loops of `env_free` clear all entries of the
  environment and drop what they refer to;
* `MemInv.dropRoot` and `envFree_spec` — the page directory goes last.
-/

namespace Jos

open Function (update update_idem update_of_ne update_self)

section Roots

variable {pm pm' : PhysMem} {roots : EnvIdx → Option ℕ} {e : EnvIdx} {p : ℕ}

/-- A page directory whose user half is empty adds no entries. -/
theorem entry_newRoot (hb : pm'.boot = pm.boot)
    (hm : ∀ q, IsTablePage pm roots q → pm'.mem q = pm.mem q) (hr : roots e = none)
    (hempty : ∀ d, d < utopDx → pm'.mem p d = 0#32) :
    entry pm' (update roots e (some p)) = entry pm roots := by
  have hold := entry_congr hb hm
  funext s
  cases s with
  | dir e' => rfl
  | pde e' d =>
    by_cases he : e' = e
    · subst he
      by_cases hd : d < utopDx
      · simp [entry, hr, hd, hempty d hd]
      · simp [entry, hd]
    · rw [← hold]
      simp only [entry, update_of_ne he]
  | pte e' d t =>
    by_cases he : e' = e
    · subst he
      by_cases hd : d < utopDx
      · simp [entry, hr, hd, hempty d hd]
      · simp [entry, hd]
    · rw [← hold]
      simp only [entry, update_of_ne he]
  | kern d => rw [← hold]; rfl

/-- The one site that changes is the environment's own. -/
theorem target_newRoot {x : Option ℕ}
    (h : entry pm' (update roots e x) = entry pm roots) :
    target pm' (update roots e x) = update (target pm roots) (.dir e) x := by
  funext s
  cases s with
  | dir e' =>
    by_cases he : e' = e
    · subst he; simp [target]
    · rw [update_of_ne (by simpa using he)]
      simp [target, he]
  | pde e' d => rw [update_of_ne (by simp)]; simp only [target, h]
  | pte e' d t => rw [update_of_ne (by simp)]; simp only [target, h]
  | kern d => rw [update_of_ne (by simp)]; simp only [target, h]

end Roots

namespace MemInv

variable {pm : PhysMem} {roots : EnvIdx → Option ℕ} {held : Finset ℕ} {e : EnvIdx} {p : ℕ}

/-- **A new root.**  A held page, filled with a fresh page directory, is taken
into use by an environment that had none. -/
theorem newRoot (h : MemInv pm roots held) (hp : p ∈ held) (hr : roots e = none) :
    MemInv ((pm.incr p).setPage p (freshPgdir (pm.mem pm.boot.kernPgdir) p))
        (update roots e (some p)) (held.erase p) ∧
      entry ((pm.incr p).setPage p (freshPgdir (pm.mem pm.boot.kernPgdir) p))
        (update roots e (some p)) = entry pm roots := by
  obtain ⟨hav, h0⟩ := h.alloc.held_avail p hp
  have hnt := h.not_isTablePage_of_held hp
  set pm' := (pm.incr p).setPage p (freshPgdir (pm.mem pm.boot.kernPgdir) p) with hpm'
  have hself : pm'.mem p = freshPgdir (pm.mem pm.boot.kernPgdir) p := by
    simp [hpm', PhysMem.setPage]
  have hmem : ∀ q, q ≠ p → pm'.mem q = pm.mem q := fun q hq => update_of_ne hq _ _
  have htab : ∀ q, IsTablePage pm roots q → pm'.mem q = pm.mem q := fun q hq => hmem q fun hqp =>
    hnt (hqp ▸ hq)
  have hkern : pm'.mem pm'.boot.kernPgdir = pm.mem pm.boot.kernPgdir :=
    htab _ (Or.inl rfl)
  have hempty : ∀ d, d < utopDx → pm'.mem p d = 0#32 := by
    intro d hd
    have hne : d ≠ uvptDx := by
      rintro rfl
      exact absurd hd (by decide)
    rw [hself, freshPgdir, if_neg hne, if_pos hd]
  have hboot : pm'.boot = pm.boot := rfl
  have he := entry_newRoot hboot htab hr hempty
  have ht := target_newRoot he
  have hfree : target pm roots (.dir e) = none := hr
  refine ⟨⟨?_, ?_⟩, he⟩
  · rw [ht]
    have hroom : pm.alloc.ref p ≠ BitVec.allOnes 16 := by
      intro hall
      have hc := h.alloc.count p hav
      rw [hall, h0] at hc
      exact absurd hc (by decide)
    have hacq := h.alloc.acquire hfree hav (Or.inl hp) hroom
    rw [hpm', PhysMem.alloc_setPage, PhysMem.alloc_incr]
    exact hacq
  · have hcases : ∀ {e' r}, update roots e (some p) e' = some r →
        r = p ∨ roots e' = some r := by
      intro e' r hr'
      by_cases hee : e' = e
      · subst hee
        rw [update_self] at hr'
        exact Or.inl (by simpa using hr'.symm)
      · rw [update_of_ne hee] at hr'
        exact Or.inr hr'
    refine ⟨h.table.npages_le, h.table.kern_reserved, ?_, ?_, ?_, ?_, ?_⟩
    · rw [ht]
      exact h.table.table_once.update_fresh hfree h0
    · intro e' r d hr' hd hne
      rw [hkern]
      rcases hcases hr' with rfl | hr'
      · rw [hself, freshPgdir, if_neg hne, if_neg (not_lt.2 hd)]
      · rw [htab r (Or.inr ⟨.dir e', trivial, hr'⟩)]
        exact h.table.kern_half e' r d hr' hd hne
    · intro e' r hr'
      rcases hcases hr' with rfl | hr'
      · rw [hself, freshPgdir, if_pos rfl]
      · rw [htab r (Or.inr ⟨.dir e', trivial, hr'⟩)]
        exact h.table.uvpt e' r hr'
    · rw [he]
      exact h.table.pde_flags
    · intro d q t hq
      rw [ht, update_of_ne (by simp)] at hq
      rw [htab q (Or.inr ⟨.kern d, trivial, hq⟩)]
      exact h.table.kern_ro d q t hq

end MemInv

/-! ## `env_setup_vm` -/

variable {k : Kernel} {e : EnvIdx} {held : Finset ℕ} {f f' : Site → Option Word}

namespace Kernel

theorem roots_modifyEnv {f : Env → Env} (h : (f (k.envs e)).envPgdir = (k.envs e).envPgdir) :
    (k.modifyEnv e f).roots = k.roots := by
  funext e'
  by_cases he : e' = e
  · subst he; simp [roots, modifyEnv, h]
  · simp [roots, modifyEnv, he]

theorem roots_modifyEnv_pgdir (k : Kernel) (e : EnvIdx) (x : Option ℕ) :
    (k.modifyEnv e fun env => { env with envPgdir := x }).roots
      = update k.roots e x := by
  funext e'
  by_cases he : e' = e
  · subst he; simp [roots, modifyEnv]
  · simp [roots, modifyEnv, he]

end Kernel

/-- **`env_setup_vm`**: without memory nothing happens; otherwise the
environment has a page directory with nothing mapped. -/
theorem envSetupVm_spec (h : MemInv k.pm k.roots held) (hr : k.roots e = none) :
    (envSetupVm e k = .ok (.error .noMem) k ∧ k.pm.pageFreeList = none) ∨
    ∃ p pm', k.pm.pageFreeList = some p ∧
      envSetupVm e k = .ok (.ok ()) ({ k with pm := pm' }.modifyEnv e fun env =>
        { env with envPgdir := some p }) ∧
      MemInv pm' (update k.roots e (some p)) held ∧ pm'.boot = k.pm.boot ∧
      entry pm' (update k.roots e (some p)) = entry k.pm k.roots := by
  cases hf : k.pm.pageFreeList with
  | none =>
    refine Or.inl ⟨?_, rfl⟩
    rw [envSetupVm, run_bind_ok (onPm_ok (pageAlloc_none hf))]
    rfl
  | some p =>
    obtain ⟨hav, hnh, -⟩ := h.head_spec hf
    obtain ⟨pm1, halloc, h1, hb1, he1, -⟩ := h.pageAlloc_spec hf true
    obtain ⟨h2, he2⟩ := h1.newRoot (Finset.mem_insert_self p held) hr
    rw [Finset.erase_insert hnh] at h2
    have hkva : onPm (page2kva p) { k with pm := pm1 } = .ok p { k with pm := pm1 } := by
      have hpg : pgnum (page2pa p) = p := pgnum_page2pa (h.lt_two_pow hav.1)
      refine onPm_ok ?_
      have hlt : pgnum (page2pa p) < pm1.boot.npages := by rw [hpg, hb1]; exact hav.1
      rw [page2kva, kaddr_eq hlt, hpg]
    refine Or.inr ⟨p, _, rfl, ?_, h2, hb1, he2.trans he1⟩
    rw [envSetupVm, run_bind_ok (onPm_ok halloc)]
    change (onPm (page2kva p) >>= _) _ = _
    rw [run_bind_ok hkva]
    rfl

/-- The state after slot `e` has been taken into use by an environment with
page directory `p`. -/
def Kernel.allocated (k : Kernel) (e : EnvIdx) (p : ℕ) (pm : PhysMem) (parentId : Word) : Kernel :=
  { { k with pm := pm }.modifyEnv e fun env =>
      { env with
        envPgdir := some p
        envId := nextEnvId env.envId e
        envParentId := parentId
        envType := .user
        envStatus := .runnable
        envRuns := 0#32
        envTf := freshTf
        envPgfaultUpcall := 0#32
        envIpcRecving := false } with
    envFreeList := (k.envs e).envLink }

/-- **`env_alloc`** takes the first free slot, or fails and changes nothing. -/
theorem envAlloc_spec {parentId : Word} (h : MemInv k.pm k.roots held) (hf : k.envFreeList = some e)
    (hr : k.roots e = none) :
    (envAlloc parentId k = .ok (.error .noMem) k ∧ k.pm.pageFreeList = none) ∨
    ∃ p pm', k.pm.pageFreeList = some p ∧
      envAlloc parentId k = .ok (.ok e) (k.allocated e p pm' parentId) ∧
      MemInv pm' (update k.roots e (some p)) held ∧ pm'.boot = k.pm.boot ∧
      entry pm' (update k.roots e (some p)) = entry k.pm k.roots := by
  simp only [envAlloc, run_get_bind, hf]
  rcases envSetupVm_spec h hr with ⟨hrun, hnone⟩ | ⟨p, pm', hp, hrun, h', hb, he⟩
  · refine Or.inl ⟨?_, hnone⟩
    rw [run_bind_ok hrun]
    rfl
  · refine Or.inr ⟨p, pm', hp, ?_, h', hb, he⟩
    rw [run_bind_ok hrun]
    simp only [run_modify_bind, run_pure, Kernel.allocated, Kernel.modifyEnv, update_self,
      update_idem]

/-! ## `env_free` -/

/-- Of the entries `f`, those in `S` are gone in `f'`, and no others. -/
structure Cleared (S : Set Site) (f f' : Site → Option Word) : Prop where
  gone : ∀ s ∈ S, f' s = none
  kept : ∀ s, s ∉ S → f' s = f s

theorem Cleared.refl (f : Site → Option Word) : Cleared ∅ f f :=
  ⟨fun _ hs => absurd hs (Set.notMem_empty _), fun _ _ => rfl⟩

theorem Cleared.trans {S T : Set Site} {f'' : Site → Option Word} (h : Cleared S f f')
    (h' : Cleared T f' f'') : Cleared (S ∪ T) f f'' := by
  refine ⟨fun s hs => ?_, fun s hs => ?_⟩
  · by_cases hT : s ∈ T
    · exact h'.gone s hT
    · rw [h'.kept s hT, h.gone s (hs.resolve_right hT)]
  · rw [Set.mem_union, not_or] at hs
    rw [h'.kept s hs.2, h.kept s hs.1]

theorem Cleared.of_update {s : Site} (h : f' = update f s none) : Cleared {s} f f' := by
  refine ⟨fun s' hs' => ?_, fun s' hs' => ?_⟩
  · rw [h, hs', update_self]
  · rw [h, update_of_ne hs']

/-- A set without entries is cleared already. -/
theorem Cleared.of_none {S : Set Site} (h : ∀ s ∈ S, f s = none) : Cleared S f f :=
  ⟨h, fun _ _ => rfl⟩

section Loops

variable {roots : EnvIdx → Option ℕ} {held : Finset ℕ} {e : EnvIdx} {r q : ℕ} {d : Idx}

/-- A loop clears what its rounds clear. -/
theorem forM_clears {γ : Type} {f : γ → PhysM Unit} {S : γ → Set Site} {Good : PhysMem → Prop}
    (l : List γ) (hstep : ∀ a ∈ l, ∀ pm, Good pm → ∃ pm', f a pm = .ok () pm' ∧ Good pm' ∧
      Cleared (S a) (entry pm roots) (entry pm' roots)) :
    ∀ pm, Good pm → ∃ pm', l.forM f pm = .ok () pm' ∧ Good pm' ∧
      Cleared {s | ∃ a ∈ l, s ∈ S a} (entry pm roots) (entry pm' roots) := by
  induction l with
  | nil =>
    intro pm h
    refine ⟨pm, rfl, h, ?_⟩
    simpa using Cleared.refl (entry pm roots)
  | cons a l ih =>
    intro pm h
    obtain ⟨pm1, hrun1, h1, hc1⟩ := hstep a List.mem_cons_self pm h
    obtain ⟨pm2, hrun2, h2, hc2⟩ := ih (fun a' ha' => hstep a' (List.mem_cons_of_mem _ ha')) pm1 h1
    refine ⟨pm2, ?_, h2, ?_⟩
    · change (f a >>= fun _ => l.forM f) pm = _
      rw [run_bind_ok hrun1, hrun2]
    · have hset : {s | ∃ a' ∈ a :: l, s ∈ S a'} = S a ∪ {s | ∃ a' ∈ l, s ∈ S a'} := by
        ext s
        simp
      rw [hset]
      exact hc1.trans hc2

variable {pm : PhysMem}

/-- The inner loop of `env_free`. -/
theorem unmapTable_spec (h : MemInv pm roots held) (hr : roots e = some r) (hd : d < utopDx)
    (hq : target pm roots (.pde e d) = some q) :
    ∃ pm', unmapTable r d q pm = .ok () pm' ∧
      (MemInv pm' roots held ∧ pm'.boot = pm.boot ∧ target pm' roots (.pde e d) = some q) ∧
      Cleared {s | ∃ t, s = .pte e d t} (entry pm roots) (entry pm' roots) := by
  have hround : ∀ t ∈ List.finRange 1024, ∀ pm1, (MemInv pm1 roots held ∧ pm1.boot = pm.boot ∧
        target pm1 roots (.pde e d) = some q) →
      ∃ pm2, (do
          let pm ← get
          if present (pm.mem q t) then pageRemove r (pgaddr d t 0#32) else pure () : PhysM Unit) pm1
            = .ok () pm2 ∧
        (MemInv pm2 roots held ∧ pm2.boot = pm.boot ∧ target pm2 roots (.pde e d) = some q) ∧
        Cleared {Site.pte e d t} (entry pm1 roots) (entry pm2 roots) := by
    rintro t - pm1 ⟨h1, hb1, hq1⟩
    rw [run_get_bind]
    by_cases hp : present (pm1.mem q t) = true
    · have hdx : pdx (pgaddr d t 0#32) < utopDx := by rwa [pdx_pgaddr]
      obtain ⟨pm2, hrun, h2, hb2, he⟩ := h1.pageRemove_spec hr hdx
      rw [pdx_pgaddr, ptx_pgaddr] at he
      refine ⟨pm2, by rw [if_pos hp, hrun], ⟨h2, hb2.trans hb1, ?_⟩, .of_update he⟩
      rw [← hq1, target, target, he, update_of_ne (by simp)]
    · refine ⟨pm1, by rw [if_neg hp, run_pure], ⟨h1, hb1, hq1⟩, .of_none ?_⟩
      rintro s rfl
      rw [entry_pte hq1, presentEntry_of_not (by simpa using hp)]
  obtain ⟨pm', hrun, hgood, hc⟩ := forM_clears _ hround pm ⟨h, rfl, hq⟩
  refine ⟨pm', by rw [unmapTable, hrun], hgood, ?_⟩
  have hset : {s | ∃ t ∈ List.finRange 1024, s ∈ ({Site.pte e d t} : Set Site)}
      = {s | ∃ t, s = .pte e d t} := by
    ext s
    simp
  rwa [hset] at hc

/-- Giving up a page table that maps nothing. -/
theorem MemInv.clearPde (h : MemInv pm roots held) (hr : roots e = some r)
    (hq : target pm roots (.pde e d) = some q) (hempty : ∀ t, entry pm roots (.pte e d t) = none) :
    MemInv ((pm.write ⟨r, d⟩ 0#32).drop q) roots held ∧
      entry ((pm.write ⟨r, d⟩ 0#32).drop q) roots
        = update (entry pm roots) (.pde e d) none := by
  obtain ⟨-, -, hd, -, -⟩ := of_target_pde hq
  have hbelow : ∀ t, (presentEntry 0#32).bind
      (fun x => presentEntry ((pm.write ⟨r, d⟩ 0#32).mem (pgnum x) t))
        = entry pm roots (.pte e d t) := by
    intro t
    rw [presentEntry_zero, hempty]
    rfl
  have hboot : ((pm.write ⟨r, d⟩ 0#32).drop q).boot = (pm.write ⟨r, d⟩ 0#32).boot :=
    PhysMem.drop_boot _ _
  have hmem : ((pm.write ⟨r, d⟩ 0#32).drop q).mem = (pm.write ⟨r, d⟩ 0#32).mem :=
    PhysMem.drop_mem _ _
  have he : entry ((pm.write ⟨r, d⟩ 0#32).drop q) roots
      = update (entry pm roots) (.pde e d) none := by
    rw [entry_congr hboot fun q' _ => congrFun hmem q', h.entry_write_pde hr hd hbelow,
      presentEntry_zero]
  refine ⟨⟨?_, ?_⟩, he⟩
  · rw [target_update he (by simp), PhysMem.drop_write, PhysMem.alloc_write, PhysMem.write_boot,
      PhysMem.drop_boot]
    exact h.alloc_drop hq
  · refine (h.table_write_pde hr hd hbelow (fun hp => absurd hp (by decide)) ?_).congr hboot
      fun q' _ => congrFun hmem q'
    exact h.table.table_once.update_none _

/-- The entries of one page table of environment `e`. -/
def tableSites (e : EnvIdx) (d : Idx) : Set Site := {s | s = .pde e d ∨ ∃ t, s = .pte e d t}

/-- The outer loop of `env_free`, one round. -/
theorem freeTable_spec (h : MemInv pm roots held) (hr : roots e = some r) (hd : d < utopDx) :
    ∃ pm', freeTable r d pm = .ok () pm' ∧ (MemInv pm' roots held ∧ pm'.boot = pm.boot) ∧
      Cleared (tableSites e d) (entry pm roots) (entry pm' roots) := by
  rw [freeTable, run_get_bind]
  cases hq : target pm roots (.pde e d) with
  | none =>
    have habs : present (pm.mem r d) = false := by
      rw [target_pde hr hd, pageOf] at hq
      simpa using hq
    refine ⟨pm, by rw [if_pos (by simp [habs]), run_pure], ⟨h, rfl⟩, .of_none ?_⟩
    rintro s (rfl | ⟨t, rfl⟩)
    · rw [entry_pde hr hd, presentEntry_of_not habs]
    · exact entry_pte_none hq
  | some q =>
    obtain ⟨r', hr', -, hpres, hpg⟩ := of_target_pde hq
    obtain rfl : r = r' := by simpa [hr] using hr'
    have hlt : pgnum (pteAddr (pm.mem r d)) < pm.boot.npages := by
      rw [pgnum_pteAddr, hpg]
      exact h.lt_npages hq
    obtain ⟨pm1, hrun1, ⟨h1, hb1, hq1⟩, hc1⟩ := unmapTable_spec h hr hd hq
    have hempty : ∀ t, entry pm1 roots (.pte e d t) = none := fun t => hc1.gone _ ⟨t, rfl⟩
    obtain ⟨h2, he2⟩ := h1.clearPde hr hq1 hempty
    have hlink : ((pm1.write ⟨r, d⟩ 0#32).pages q).ppLink = none :=
      h1.alloc.unlinked _ (h1.avail_of_target hq1) (Or.inr (refs_ne_zero hq1))
    have hkaddr : kaddr (pteAddr (pm.mem r d)) pm = .ok q pm := by
      rw [kaddr_eq hlt, pgnum_pteAddr, hpg]
    have hpage : pa2page (pteAddr (pm.mem r d)) (pm1.write ⟨r, d⟩ 0#32)
        = .ok q (pm1.write ⟨r, d⟩ 0#32) := by
      rw [pa2page_eq (by rw [PhysMem.write_boot, hb1]; exact hlt), pgnum_pteAddr, hpg]
    refine ⟨_, ?_, ⟨h2, by rw [PhysMem.drop_boot, PhysMem.write_boot, hb1]⟩, ?_⟩
    · rw [if_neg (by simp [hpres]), run_bind_ok hkaddr, run_bind_ok hrun1, run_modify_bind,
        run_bind_ok hpage, pageDecref_eq hlink]
    · have hset : tableSites e d = {s | ∃ t, s = .pte e d t} ∪ {.pde e d} := by
        ext s
        simp [tableSites]
      rw [hset]
      exact hc1.trans (.of_update he2)

/-- The entries of environment `e`. -/
def envSites (e : EnvIdx) : Set Site := {s | ∃ d ∈ userPdes, s ∈ tableSites e d}

theorem mem_userPdes {d : Idx} : d ∈ userPdes ↔ d < utopDx := by
  simp [userPdes]

/-- **The loops of `env_free`** clear all entries of the environment. -/
theorem freeTables_spec (h : MemInv pm roots held) (hr : roots e = some r) :
    ∃ pm', freeTables r pm = .ok () pm' ∧
      (MemInv pm' roots held ∧ pm'.boot = pm.boot) ∧
      Cleared (envSites e) (entry pm roots) (entry pm' roots) := by
  rw [freeTables]
  refine forM_clears userPdes ?_ pm ⟨h, rfl⟩
  rintro d hd pm1 ⟨h1, hb1⟩
  obtain ⟨pm2, hrun, ⟨h2, hb2⟩, hc⟩ := freeTable_spec h1 hr (mem_userPdes.1 hd)
  exact ⟨pm2, hrun, ⟨h2, hb2.trans hb1⟩, hc⟩

/-- Without its root, an environment that maps nothing adds no entries. -/
theorem entry_dropRoot (hempty : ∀ s ∈ envSites e, entry pm roots s = none) :
    entry pm (update roots e none) = entry pm roots := by
  funext s
  cases s with
  | dir e' => rfl
  | pde e' d =>
    by_cases he : e' = e
    · subst he
      by_cases hd : d < utopDx
      · rw [hempty _ ⟨d, mem_userPdes.2 hd, Or.inl rfl⟩]
        simp [entry]
      · simp [entry, hd]
    · simp only [entry, update_of_ne he]
  | pte e' d t =>
    by_cases he : e' = e
    · subst he
      by_cases hd : d < utopDx
      · rw [hempty _ ⟨d, mem_userPdes.2 hd, Or.inr ⟨t, rfl⟩⟩]
        simp [entry]
      · simp [entry, hd]
    · simp only [entry, update_of_ne he]
  | kern d => rfl

/-- **A root less.**  The page directory of an environment that maps nothing is
given up. -/
theorem MemInv.dropRoot (h : MemInv pm roots held) (hr : roots e = some r)
    (hempty : ∀ s ∈ envSites e, entry pm roots s = none) :
    MemInv (pm.drop r) (update roots e none) held ∧
      entry (pm.drop r) (update roots e none) = entry pm roots := by
  have hdir : target pm roots (.dir e) = some r := hr
  have he : entry (pm.drop r) (update roots e none) = entry pm roots := by
    rw [entry_congr (PhysMem.drop_boot _ _) fun q _ => congrFun (PhysMem.drop_mem _ _) q,
      entry_dropRoot hempty]
  have ht := target_newRoot he
  have hroots : ∀ {e' r'}, update roots e none e' = some r' → roots e' = some r' := by
    intro e' r' hr'
    by_cases hee : e' = e
    · subst hee
      simp at hr'
    · rwa [update_of_ne hee] at hr'
  refine ⟨⟨?_, ?_⟩, he⟩
  · rw [ht, PhysMem.drop_boot]
    exact h.alloc_drop hdir
  · refine ⟨?_, ?_, ?_, ?_, ?_, ?_, ?_⟩
    · rw [PhysMem.drop_boot]
      exact h.table.npages_le
    · rw [PhysMem.drop_boot]
      exact h.table.kern_reserved
    · rw [ht]
      exact h.table.table_once.update_none _
    · intro e' r' d hr' hd hne
      rw [PhysMem.drop_mem, PhysMem.drop_boot]
      exact h.table.kern_half e' r' d (hroots hr') hd hne
    · intro e' r' hr'
      rw [PhysMem.drop_mem]
      exact h.table.uvpt e' r' (hroots hr')
    · rw [he]
      exact h.table.pde_flags
    · intro d q t hq
      rw [ht, update_of_ne (by simp)] at hq
      rw [PhysMem.drop_mem]
      exact h.table.kern_ro d q t hq

end Loops

/-- The state after environment `e` has been freed, with memory `pm`. -/
def Kernel.freed (k : Kernel) (e : EnvIdx) (pm : PhysMem) : Kernel :=
  { { k with pm := pm }.modifyEnv e fun env =>
      { env with envPgdir := none, envStatus := .free, envLink := k.envFreeList } with
    envFreeList := some e }

/-- **`env_free`** clears the environment's part of the page tables, and
nothing else. -/
theorem envFree_spec {cpu r : ℕ} (h : MemInv k.pm k.roots held) (hr : k.roots e = some r) :
    ∃ pm', envFree cpu e k = .ok () (k.freed e pm') ∧
      MemInv pm' (update k.roots e none) held ∧ pm'.boot = k.pm.boot ∧
      Cleared (envSites e) (entry k.pm k.roots) (entry pm' (update k.roots e none)) := by
  obtain ⟨pm1, hrun, ⟨h1, hb1⟩, hc⟩ := freeTables_spec h hr
  obtain ⟨h2, he2⟩ := h1.dropRoot hr hc.gone
  have hdir : target pm1 k.roots (.dir e) = some r := hr
  have hpg : pgnum (page2pa r) = r := pgnum_page2pa (h1.lt_two_pow (h1.lt_npages hdir))
  have hlink : (pm1.pages r).ppLink = none :=
    h1.alloc.unlinked _ (h1.avail_of_target hdir) (Or.inr (refs_ne_zero hdir))
  have hpage : pa2page (page2pa r) pm1 = .ok r pm1 := by
    rw [pa2page_eq (by rw [hpg]; exact h1.lt_npages hdir), hpg]
  refine ⟨pm1.drop r, ?_, h2, by rw [PhysMem.drop_boot, hb1], he2 ▸ hc⟩
  have hpgdir : (k.envs e).envPgdir = some r := hr
  simp only [envFree, run_get_bind, hpgdir]
  rw [run_bind_ok (onPm_ok hrun), run_modify_bind, run_bind_ok (onPm_ok hpage),
    run_bind_ok (onPm_ok (pageDecref_eq hlink))]
  simp only [run_modify_bind, run_modify, Kernel.freed, Kernel.modifyEnv, update_self,
    update_idem]

end Jos
