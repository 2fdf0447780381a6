import Jos.Kern.BootMem
import Jos.Lib.Lts

/-!
# The free list of pages and double frees

`page_free` takes a page for one that is on the free list already when its
`pp_link` is not null, and panics.  The link says where on the list a page is,
though, not whether it is on the list: the last page has none.

* `FreeStep` — the calls of `page_alloc` and `page_free`, of any page at any
  time.
* `ListedFree.run` — whatever was called, the pages on the list have no
  references; so `page_free` looks at the link alone (`caught_iff`).
* `Acyclic.run` — as long as nobody frees the last page of the list a second
  time, the list ends.
* `page_free_listed` — a page on the list is caught exactly when it is not the
  last; and the last one closes the list to a cycle.
-/

namespace Jos

namespace PhysMem

/-- The page is on the free list. -/
def Listed (pm : PhysMem) (pp : ℕ) : Prop := OnList pm.alloc.link pm.alloc.head pp

/-- The free list ends. -/
def Acyclic (pm : PhysMem) : Prop := ∃ l, Chain pm.alloc.link pm.alloc.head l

/-- The page is the last on the free list. -/
def LastFree (pm : PhysMem) (pp : ℕ) : Prop := pm.Listed pp ∧ (pm.pages pp).ppLink = none

end PhysMem

variable {pm pm₀ : PhysMem} {pp : ℕ}

/-- The last page is the one at the end. -/
theorem lastFree_iff {l : List ℕ} (h : Chain pm.alloc.link pm.alloc.head l) :
    pm.LastFree pp ↔ l.getLast? = some pp := by
  rw [PhysMem.LastFree, PhysMem.Listed, h.onList_iff_mem]
  constructor
  · rintro ⟨hp, hlink⟩
    exact (h.link_eq_none_iff hp).1 hlink
  · intro hlast
    have hp := List.mem_of_getLast? hlast
    exact ⟨hp, (h.link_eq_none_iff hp).2 hlast⟩

/-! ## Runs of the allocator -/

/-- A call of the allocator. -/
inductive FreeOp
  | alloc (allocZero : Bool)
  | free (pp : ℕ)

/-- The call returns.  (It may also panic, and then there is no next state.) -/
inductive FreeStep (pm : PhysMem) : FreeOp → PhysMem → Prop
  | alloc {z : Bool} {r : Option ℕ} {pm' : PhysMem} :
      pageAlloc z pm = .ok r pm' → FreeStep pm (.alloc z) pm'
  | free {pp : ℕ} {pm' : PhysMem} : pageFree pp pm = .ok () pm' → FreeStep pm (.free pp) pm'

/-- Nobody frees the last page of the list a second time. -/
def SparesLast (pm : PhysMem) : FreeOp → Prop
  | .alloc _ => True
  | .free pp => ¬ pm.LastFree pp

variable {op : FreeOp}

section Calls

variable {pm pm' : PhysMem}

/-- `page_alloc` takes the first page, if there is one. -/
theorem pageAlloc_cases {z : Bool} {r : Option ℕ} (h : pageAlloc z pm = .ok r pm') :
    pm'.alloc = pm.alloc ∨
      ∃ p, pm.alloc.head = some p ∧ pm'.alloc = pm.alloc.pop p := by
  rw [pageAlloc, run_get_bind] at h
  cases hf : pm.pageFreeList with
  | none =>
    simp only [hf] at h
    cases h
    exact Or.inl rfl
  | some p =>
    simp only [hf, run_modify_bind] at h
    refine Or.inr ⟨p, hf, ?_⟩
    cases z with
    | false =>
      cases h
      exact pm.alloc_takeFree p
    | true =>
      obtain ⟨kva, pm₁, hkva, h⟩ := run_bind_inv h
      -- `page2kva` looks at the page number only
      obtain rfl : pm₁ = pm.takeFree p := by
        rw [page2kva, kaddr, run_get_bind] at hkva
        split at hkva <;> cases hkva
        rfl
      cases h
      exact pm.alloc_takeFree p

/-- `page_free` asks for a page without link and references. -/
theorem pageFree_eq (pp : ℕ) : pageFree pp pm =
    if (pm.pages pp).ppLink = none ∧ (pm.pages pp).ppRef = 0#16 then .ok () (pm.putFree pp)
    else .error (.pageFree pp) pm := by
  rw [pageFree, run_get_bind]
  by_cases h : (pm.pages pp).ppLink = none ∧ (pm.pages pp).ppRef = 0#16
  · rw [if_pos h, if_neg (not_or.2 ⟨not_not.2 h.1, not_not.2 h.2⟩)]
    rfl
  · rw [if_neg h, if_pos (not_and_or.1 h)]
    rfl

theorem pageFree_inv (h : pageFree pp pm = .ok () pm') :
    (pm.pages pp).ppLink = none ∧ (pm.pages pp).ppRef = 0#16 ∧ pm' = pm.putFree pp := by
  rw [pageFree_eq] at h
  split at h
  · next hok =>
    cases h
    exact ⟨hok.1, hok.2, rfl⟩
  · cases h

/-- **What a call does to the list.** -/
theorem freeStep_cases (h : FreeStep pm op pm') :
    pm'.alloc = pm.alloc ∨
    (∃ p, pm.alloc.head = some p ∧ pm'.alloc = pm.alloc.pop p) ∨
    ∃ p, op = .free p ∧ pm.alloc.link p = none ∧ pm.alloc.ref p = 0#16 ∧
      pm'.alloc = pm.alloc.push p := by
  cases h with
  | alloc hrun =>
    rcases pageAlloc_cases hrun with heq | hpop
    · exact Or.inl heq
    · exact Or.inr (Or.inl hpop)
  | free hrun =>
    obtain ⟨hlink, href, rfl⟩ := pageFree_inv hrun
    exact Or.inr (Or.inr ⟨_, rfl, hlink, href, pm.alloc_putFree _⟩)

end Calls

/-! ## What every run keeps -/

/-- The pages on the list have no references. -/
def ListedFree (pm : PhysMem) : Prop := ∀ p, pm.Listed p → (pm.pages p).ppRef = 0#16

theorem ListedFree.step {pm' : PhysMem} (h : ListedFree pm) (hs : FreeStep pm op pm') :
    ListedFree pm' := by
  have href : ∀ p, OnList pm.alloc.link pm.alloc.head p → pm.alloc.ref p = 0#16 := h
  suffices hgoal : ∀ p, OnList pm'.alloc.link pm'.alloc.head p → pm'.alloc.ref p = 0#16 from hgoal
  intro q hq
  rcases freeStep_cases hs with heq | ⟨p, hhead, heq⟩ | ⟨p, -, -, hp, heq⟩ <;> rw [heq] at hq ⊢
  · exact href q hq
  · -- the rest of the list was on the list
    refine href q ?_
    rw [hhead]
    exact .next hq.of_clear
  · have hpush : OnList (Function.update pm.alloc.link p pm.alloc.head) (some p) q := hq
    rcases onList_some.1 hpush with rfl | hrest
    · exact hp
    · rw [Function.update_self] at hrest
      rcases hrest.of_update with rfl | hold | hold
      · exact hp
      · exact href q hold
      · exact href q hold

/-- **In every run**, whoever frees what. -/
theorem ListedFree.run (h : ListedFree pm₀) (hr : Lts.Run FreeStep Lts.anyEvent pm₀ pm) :
    ListedFree pm :=
  hr.inv h fun _ _ _ hl _ hs => hl.step hs

theorem PhysMem.Acyclic.step {pm' : PhysMem} (h : pm.Acyclic) (hs : FreeStep pm op pm')
    (hc : SparesLast pm op) : pm'.Acyclic := by
  obtain ⟨l, hl⟩ := h
  rw [PhysMem.Acyclic]
  rcases freeStep_cases hs with heq | ⟨p, hhead, heq⟩ | ⟨p, rfl, hlink, -, heq⟩ <;> rw [heq]
  · exact ⟨l, hl⟩
  · rw [hhead] at hl
    obtain ⟨t, -, ht⟩ := hl.pop hl.nodup
    exact ⟨t, ht⟩
  · -- a page without link that is not the last is not on the list
    have hp : p ∉ l := fun hp => hc ⟨(hl.onList_iff_mem p).2 hp, hlink⟩
    exact ⟨p :: l, hl.push hp⟩

/-- **In every run in which the last page is spared** the list ends. -/
theorem PhysMem.Acyclic.run (h : pm₀.Acyclic) (hr : Lts.Run FreeStep SparesLast pm₀ pm) :
    pm.Acyclic := by
  refine hr.inv (I := PhysMem.Acyclic) h fun _ _ _ hl hc hs => ?_
  exact hl.step hs hc

/-! ## Freeing a page that is free -/

/-- `page_free` of a page on the list panics, and the list is none the worse. -/
def Caught (pm : PhysMem) (pp : ℕ) : Prop :=
  ∃ pm', pageFree pp pm = .error (.pageFree pp) pm' ∧ (pm.Acyclic → pm'.Acyclic)

theorem caught_iff (h : ListedFree pm) (hp : pm.Listed pp) : Caught pm pp ↔ ¬ pm.LastFree pp := by
  rw [Caught, pageFree_eq]
  by_cases hlast : pm.LastFree pp
  · rw [if_pos ⟨hlast.2, h pp hp⟩]
    simp [hlast]
  · rw [if_neg fun hok => hlast ⟨hp, hok.1⟩]
    exact ⟨fun _ => hlast, fun _ => ⟨pm, rfl, id⟩⟩

/-- The last page is linked in again, and the list has no end. -/
theorem pageFree_last (h : ListedFree pm) (hp : pm.LastFree pp) :
    ∃ pm', pageFree pp pm = .ok () pm' ∧ ¬ pm'.Acyclic := by
  refine ⟨pm.putFree pp, ?_, ?_⟩
  · rw [pageFree_eq, if_pos ⟨hp.2, h pp hp.1⟩]
  · rintro ⟨l, hl⟩
    rw [PhysMem.alloc_putFree] at hl
    exact hp.1.not_chain_again l hl

/-- What `page_init` leaves. -/
theorem pageInit_listed (hf : pm₀.pageFreeList = none) (h : pageInit pm₀ = .ok () pm) :
    ListedFree pm ∧ pm.Acyclic := by
  obtain ⟨pm', hrun, -, -, ⟨l, hc, -, hmem⟩, href⟩ := pageInit_spec hf
  obtain rfl : pm' = pm := by
    rw [hrun] at h
    cases h
    rfl
  exact ⟨fun p hp => href p ((hmem p).1 ((hc.onList_iff_mem p).1 hp)), l, hc⟩

/-- **Double frees.**  In every state that `page_init`, `page_alloc` and
`page_free` lead to, `page_free` catches a page that is on the list exactly if
it is not the last; the last page closes the list to a cycle.  In the runs in
which nobody frees it again, the list ends, and the last page is the one at
the end. -/
theorem page_free_listed {pm₀ pm₁ : PhysMem} (hf : pm₀.pageFreeList = none)
    (h0 : pageInit pm₀ = .ok () pm₁) :
    (∀ pm, Lts.Run FreeStep Lts.anyEvent pm₁ pm → ∀ pp, pm.Listed pp →
      (Caught pm pp ↔ ¬ pm.LastFree pp) ∧
      (pm.LastFree pp → ∃ pm', pageFree pp pm = .ok () pm' ∧ ¬ pm'.Acyclic)) ∧
    ∀ pm, Lts.Run FreeStep SparesLast pm₁ pm →
      ∃ l, Chain (fun p => (pm.pages p).ppLink) pm.pageFreeList l ∧ l.Nodup ∧
        ∀ pp, pm.LastFree pp ↔ l.getLast? = some pp := by
  obtain ⟨hlisted, hacyclic⟩ := pageInit_listed hf h0
  refine ⟨fun pm hr pp hp => ⟨caught_iff (hlisted.run hr) hp, pageFree_last (hlisted.run hr)⟩,
    fun pm hr => ?_⟩
  obtain ⟨l, hl⟩ := hacyclic.run hr
  exact ⟨l, hl, hl.nodup, fun pp => lastFree_iff hl⟩

/-- Three pages of memory, of which `page_init` lists two. -/
def threePages : PhysMem where
  boot := ⟨3, 3, 0, 0⟩
  pages := fun _ => ⟨none, 0#16⟩
  pageFreeList := none
  mem := fun _ _ => 0#32
  userMemCheckAddr := 0#32

/-- The list is 2, 1.  Page 2 is caught. -/
theorem page_free_listed_first : ∃ pm₁, pageInit threePages = .ok () pm₁ ∧ pm₁.Listed 2 ∧
    Caught pm₁ 2 := by
  have hrun : ∃ pm₁, pageInit threePages = .ok () pm₁ ∧ pm₁.Listed 2 ∧ ¬ pm₁.LastFree 2 :=
    ⟨_, rfl, .here 2, fun h => absurd h.2 (by decide)⟩
  obtain ⟨pm₁, h0, hp, hlast⟩ := hrun
  exact ⟨pm₁, h0, hp, ((page_free_listed rfl h0).1 pm₁ .nil 2 hp).1.2 hlast⟩

/-- Page 1 is not: freeing it again makes the list 1, 2, 1, 2, … -/
theorem page_free_last_cycle : ∃ pm₁ pm₂, pageInit threePages = .ok () pm₁ ∧ pm₁.Listed 1 ∧
    pageFree 1 pm₁ = .ok () pm₂ ∧ ¬ Caught pm₁ 1 ∧ pm₂.pageFreeList = some 1 ∧
    (pm₂.pages 1).ppLink = some 2 ∧ (pm₂.pages 2).ppLink = some 1 := by
  refine ⟨_, _, rfl, .next (.here 1), rfl, ?_, by decide, by decide, by decide⟩
  rintro ⟨pm', h, -⟩
  cases h

end Jos
