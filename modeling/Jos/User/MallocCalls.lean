import Jos.User.MallocInv

/-!
# What the calls of `malloc` and `free` do

Case by case: to what the environment sees, to `mptr`, and to the mappings.

* `NewPages`, `Outcome` — the ways in which `malloc` ends; `Heap.outcome` says that
  all of them keep the heap in order.
* `Remaps` — what becomes of the page table entries.  Without a `fork` every page of
  the arena can be written to (`Plain`), and the calls touch no entry but those they
  mean to.
* `malloc_ends`, `free_inv` — the two functions, from any state that is in order.
-/

namespace Jos.Malloc

open Jos.User Function

/-! ## What `malloc` ends in -/

section Outcomes

/-- New pages are looked for: a null pointer is returned, or a block at their start. -/
inductive NewPages (V : View) (n : ℕ) : ℕ → View → ℕ → Prop
  | null {m'} : AtPage m' → NewPages V n 0 V m'
  | take {v} : AtPage v →
      (∀ j < pagesFor (n + 4), Arena (v / PGSIZE + j) ∧ V.words (v / PGSIZE + j) = none) →
      NewPages V n v ((V.fill (v / PGSIZE) (n + 4) (pagesFor (n + 4))).store
        (v / PGSIZE + pagesFor (n + 4) - 1) (update (fun _ => 0#32) refIdx 2#32)) (v + n)

/-- What becomes of the view `V` and of `mptr`, and what is returned. -/
inductive Outcome (V : View) (m n : ℕ) : ℕ → View → ℕ → Prop
  | big : MAXMALLOC ≤ n → Outcome V m n 0 V (if m = 0 then mbegin else m)
  | fits {c} : n < MAXMALLOC → Fits m n → V.words (m / PGSIZE) = some c →
      Outcome V m n m (V.store (m / PGSIZE) (update c refIdx (c refIdx + 1#32))) (m + n)
  | new {v V' m'} : n < MAXMALLOC → m % PGSIZE = 0 → NewPages V n v V' m' → Outcome V m n v V' m'
  | leaves {c v V' m'} : n < MAXMALLOC → m % PGSIZE ≠ 0 → ¬ Fits m n →
      m / PGSIZE + 1 < mend / PGSIZE → V.words (m / PGSIZE) = some c →
      NewPages (V.drop (m / PGSIZE) c) n v V' m' → Outcome V m n v V' m'

variable {V V' : View} {m m' n v : ℕ} {L : List Block}

theorem AtPage.ne_zero (h : AtPage m) : m ≠ 0 := by
  have hlo := h.lo
  rw [mbegin] at hlo
  omega

/-- The new pages are those of the block. -/
theorem NewPages.maps (h : NewPages V n v V' m') {q : ℕ} (hq : V'.words q ≠ none) :
    V.words q ≠ none ∨ v ≠ 0 ∧ (⟨v, n, false⟩ : Block).Covers q := by
  cases h with
  | null => exact Or.inl hq
  | take hv hpages =>
    by_cases hcov : (⟨v, n, false⟩ : Block).Covers q
    · exact Or.inr ⟨hv.ne_zero, hcov⟩
    · have hlast : q ≠ (⟨v, n, false⟩ : Block).last := fun heq =>
        hcov (heq ▸ Block.covers_last _)
      change (V.taken v n).words q ≠ none at hq
      rw [hv.taken_words, if_neg hlast, if_neg hcov] at hq
      exact Or.inl hq

theorem Heap.newPages (hi : Heap V m L) (hm : m % PGSIZE = 0) (hn : n % 4 = 0)
    (h : NewPages V n v V' m') : Heap V' m' (if v = 0 then L else ⟨v, n, false⟩ :: L) := by
  cases h with
  | null hm' =>
    rw [if_pos rfl]
    exact hi.move hm hm'
  | take hv hpages =>
    rw [if_neg hv.ne_zero]
    exact hi.take hm hv hn hpages

/-- The piece lies within the page. -/
theorem Heap.fits_page (hi : Heap V m L) (hn : n < MAXMALLOC) (hfit : Fits m n) :
    m / PGSIZE = (m + n + 3) / PGSIZE := by
  have hhi := (hi.range_of_open hfit.1).2
  have hpage := hfit.2
  rw [Nat.mod_eq_of_lt] at hpage
  · exact hpage
  · rw [mend] at hhi
    rw [MAXMALLOC] at hn
    omega

/-- **`malloc`** keeps the heap in order, if it can leave its page. -/
theorem Heap.outcome (hi : Heap V m L) (hn : n % 4 = 0)
    (hwrap : m % PGSIZE ≠ 0 → ¬ Fits m n → NoWrap (refs L (m / PGSIZE)))
    (h : Outcome V m n v V' m') : Heap V' m' (if v = 0 then L else ⟨v, n, false⟩ :: L) := by
  cases h with
  | big =>
    rw [if_pos rfl]
    split
    · next h0 =>
        refine hi.move ?_ atPage_mbegin
        rw [h0]
        rfl
    · exact hi
  | fits hlt hfit hc =>
    have hne : m ≠ 0 := by
      rintro rfl
      exact hfit.1 rfl
    rw [if_neg hne]
    exact hi.bump hfit.1 (hi.fits_page hlt hfit) hn hc
  | new _ hm hpages => exact hi.newPages hm hn hpages
  | leaves _ hopen hfit hnext hc hpages =>
    have hend : mend / PGSIZE = 0x10000 := by decide
    rw [hend] at hnext
    exact (hi.close hopen hc hnext (hwrap hopen hfit)).newPages (Nat.mul_mod_left _ _) hn hpages

theorem Outcome.small (h : Outcome V m n v V' m') (hv : v ≠ 0) : n < MAXMALLOC := by
  cases h with
  | big => exact absurd rfl hv
  | fits hn | new hn | leaves hn => exact hn

/-- What is mapped now and was not before is for the new block. -/
theorem Outcome.maps (h : Outcome V m n v V' m') {q : ℕ} (hq : V'.words q ≠ none) :
    V.words q ≠ none ∨ v ≠ 0 ∧ (⟨v, n, false⟩ : Block).Covers q := by
  cases h with
  | big => exact Or.inl hq
  | fits _ hfit hc =>
    rw [View.store_words] at hq
    split at hq
    · next heq => exact Or.inl (by rw [heq, hc]; exact Option.some_ne_none _)
    · exact Or.inl hq
  | new _ _ hpages => exact hpages.maps hq
  | leaves _ _ _ _ hc hpages =>
    refine (hpages.maps hq).imp_left fun hq' => ?_
    rw [View.drop_words] at hq'
    split at hq'
    · next heq =>
        rw [heq, hc]
        exact Option.some_ne_none _
    · exact hq'

end Outcomes

/-! ## Mappings -/

variable {c : Idx → Word} {v : ℕ}

section Mappings

/-- Every page of the arena can be written to. -/
def Plain (s : Sys) : Prop := ∀ e pn p, Arena pn → s.pt (e, pn) = some p → p.writable = true

/-- The mappings of `gone` are taken away, the others stay, and what is new has a frame
of the supply. -/
structure Remaps (gone : Site → Prop) (s s' : Sys) : Prop where
  keeps : ∀ x q, s.pt x = some q → ¬ gone x → s'.pt x = some q
  news : ∀ x q, s'.pt x = some q →
    s.pt x = some q ∧ ¬ gone x ∨ q.writable = true ∧ q.frame ∈ s.free
  supply : s'.free ⊆ s.free

/-- No mapping is taken away. -/
def nowhere (_ : Site) : Prop := False

variable {s s₀ s₁ s' : Sys} {gone : Site → Prop} {e : EnvIdx} {pn n : ℕ} {i : Idx} {w : Word}

theorem Remaps.of_pt (h : s'.pt = s.pt) (hf : s'.free = s.free) : Remaps nowhere s s' where
  keeps x q hq _ := by rw [h, hq]
  news x q hq := Or.inl ⟨by rw [← h, hq], id⟩
  supply := hf ▸ List.Subset.refl _

theorem Remaps.trans (h : Remaps gone s s₁) (h' : Remaps nowhere s₁ s') : Remaps gone s s' where
  keeps x q hq hx := h'.keeps x q (h.keeps x q hq hx) id
  news x q hq := by
    rcases h'.news x q hq with ⟨hq₁, -⟩ | ⟨hw, hf⟩
    · exact h.news x q hq₁
    · exact Or.inr ⟨hw, h.supply hf⟩
  supply _ hf := h.supply (h'.supply hf)

theorem Remaps.plain (h : Remaps gone s s') (hp : Plain s) : Plain s' := by
  intro e pn q ha hq
  rcases h.news _ q hq with ⟨hq', -⟩ | ⟨hw, -⟩
  · exact hp e pn q ha hq'
  · exact hw

variable {x : Site}

/-- A mapping that was taken away does not come back. -/
theorem Remaps.gone_ne (h : Remaps gone s s') (hg : Good s) {q : Pte} (hq : s.pt x = some q)
    (hx : gone x) : s'.pt x ≠ some q := by
  intro hq'
  rcases h.news x q hq' with ⟨-, hno⟩ | ⟨-, hf⟩
  · exact hno hx
  · refine hg.supply.fresh _ hf x ?_
    rw [Sys.frame, hq]
    rfl

theorem Plain.writes (hp : Plain s) (hg : Good s) (ha : Arena pn) (hc : s.words (e, pn) = some c) :
    s.Writes (e, pn) := by
  obtain ⟨p, hpt, -⟩ := words_eq_some hc
  exact ⟨p, hpt, hp e pn p ha hpt, (hg.usable e pn p ha hpt).2⟩

/-- A store to the arena leaves the entries alone. -/
theorem wp_storeWord (hp : Plain s) (ha : Arena pn) : wp (storeWord e pn i w)
    (fun _ s' => s'.pt = s.pt ∧ s'.free = s.free) (fun err _ => err ≠ .noMem) s := by
  rw [storeWord, wp_bind, wp_get]
  cases hpt : s.pt (e, pn) with
  | none => exact fun h => by cases h
  | some p =>
    simp only [if_pos (hp e pn p ha hpt)]
    exact ⟨rfl, rfl⟩

/-- Entries are taken away, and `mptr` and the ledger are left alone. -/
structure Shrinks (s s' : Sys) : Prop where
  pt : ∀ x q, s'.pt x = some q → s.pt x = some q
  free : s'.free = s.free
  mptr : s'.mptr = s.mptr
  live : s'.live = s.live

theorem Shrinks.refl (s : Sys) : Shrinks s s := ⟨fun _ _ hq => hq, rfl, rfl, rfl⟩

theorem Shrinks.trans (h : Shrinks s s₁) (h' : Shrinks s₁ s') : Shrinks s s' :=
  ⟨fun x q hq => h.pt x q (h'.pt x q hq), h'.free.trans h.free, h'.mptr.trans h.mptr,
    h'.live.trans h.live⟩

theorem Shrinks.plain (h : Shrinks s s') (hp : Plain s) : Plain s' :=
  fun e pn q ha hq => hp e pn q ha (h.pt _ q hq)

theorem wp_sysPageUnmap (s : Sys) :
    wp (sysPageUnmap e pn) (fun _ s' => Shrinks s s') (fun _ _ => False) s := by
  rw [sysPageUnmap, wp_ite]
  refine ⟨fun _ => .refl s, fun _ => ⟨fun x q hq => ?_, rfl, rfl, rfl⟩⟩
  change update s.pt (e, pn) none x = some q at hq
  by_cases hx : x = (e, pn)
  · rw [hx, update_self] at hq
    cases hq
  · rwa [update_of_ne hx] at hq

theorem storeWord_shrinks (hp : Plain s) (ha : Arena pn) : wp (storeWord e pn i w)
    (fun _ s' => Shrinks s s') (fun _ s' => Shrinks s s') s := by
  rw [storeWord, wp_bind, wp_get]
  cases hpt : s.pt (e, pn) with
  | none => exact .refl s
  | some p =>
    simp only [if_pos (hp e pn p ha hpt)]
    exact ⟨fun _ _ hq => hq, rfl, rfl, rfl⟩

/-- The loop of `free` only takes entries away. -/
theorem freeLoop_shrinks : ∀ (fuel c : ℕ) (s : Sys), wp (freeLoop e fuel c)
    (fun c' s' => Shrinks s s' ∧ c ≤ c' ∧ c' < c + fuel) (fun _ s' => Shrinks s s') s := by
  intro fuel
  induction fuel with
  | zero => exact fun _ s => .refl s
  | succ fuel ih =>
    intro c s
    rw [freeLoop, wp_bind, wp_get, wp_ite]
    refine ⟨fun _ => ?_, fun _ => ⟨.refl s, Nat.le_refl c, by omega⟩⟩
    rw [wp_bind]
    refine (wp_sysPageUnmap s).mono (fun _ s₁ h₁ => ?_) fun _ _ hf => hf.elim
    refine (ih (c + 1) s₁).mono (fun c' s' h' => ?_) fun _ s' hs => h₁.trans hs
    obtain ⟨hs, hlo, hhi⟩ := h'
    exact ⟨h₁.trans hs, by omega, by omega⟩

theorem freeRef_shrinks (hp : Plain s) (ha : Arena pn) :
    wp (freeRef e pn) (fun _ s' => Shrinks s s') (fun _ s' => Shrinks s s') s := by
  have hload : wp (loadWord e pn refIdx) (fun _ s' => s' = s) (fun _ s' => s' = s) s := by
    rw [loadWord, wp_bind, wp_get]
    cases s.pt (e, pn) <;> rfl
  rw [freeRef, wp_bind]
  refine hload.mono (fun u s₁ hs₁ => ?_) fun _ s₁ hs₁ => hs₁ ▸ .refl s
  subst hs₁
  rw [wp_bind]
  refine (storeWord_shrinks hp ha).mono (fun _ s₂ h₂ => ?_) fun _ _ h₂ => h₂
  rw [wp_ite]
  exact ⟨fun _ => (wp_sysPageUnmap s₂).mono (fun _ s' h' => h₂.trans h') fun _ _ hf => hf.elim,
    fun _ => h₂⟩

/-- **`free`** only takes entries away, whatever it is called with. -/
theorem free_shrinks (hp : Plain s) (v : ℕ) :
    wp (free e v) (fun _ s' => Shrinks s s') (fun _ s' => Shrinks s s') s := by
  rw [free, wp_ite]
  refine ⟨fun _ => .refl s, fun _ => ?_⟩
  rw [wp_ite]
  refine ⟨fun hv => ?_, fun _ => .refl s⟩
  rw [wp_bind]
  refine (freeLoop_shrinks _ _ s).mono (fun c s₁ hloop => ?_) fun _ _ h₁ => h₁
  obtain ⟨h₁, hlo, hhi⟩ := hloop
  have ha : Arena c := by
    obtain ⟨hv1, hv2⟩ := hv
    simp only [Arena, mbegin, mend, PGSIZE] at hv1 hv2 hlo hhi ⊢
    omega
  exact (freeRef_shrinks (h₁.plain hp) ha).mono (fun _ s' h' => h₁.trans h')
    fun _ s' h' => h₁.trans h'

theorem free_remaps (hp : Plain s) (hrun : free e v s = .ok () s') :
    Remaps (fun x => s'.words x = none) s s' := by
  have h := (wp_of_ok hrun).1 (free_shrinks hp v)
  refine ⟨fun x q hq hx => ?_, fun x q hq => Or.inl ⟨h.pt x q hq, ?_⟩,
    h.free ▸ List.Subset.refl _⟩
  · obtain ⟨c, hc⟩ := Option.ne_none_iff_exists'.1 hx
    obtain ⟨p, hpt, -⟩ := words_eq_some hc
    have hp' := h.pt x p hpt
    rw [hq] at hp'
    rw [hpt, hp']
  · rw [words_eq_none, hq]
    exact Option.some_ne_none q

/-- An entry where there was none at first. -/
theorem Remaps.install (h : Remaps nowhere s₀ s) {q : Pte} {r : List ℕ} (hx : s₀.pt x = none)
    (hf : s.free = q.frame :: r) (hw : q.writable = true) :
    Remaps nowhere s₀ (s.install x q c r) where
  keeps y p hp hy := by
    have hne : y ≠ x := by
      rintro rfl
      rw [hx] at hp
      cases hp
    exact (update_of_ne hne _ _).trans (h.keeps y p hp hy)
  news y p hp := by
    change update s.pt x (some q) y = some p at hp
    by_cases hy : y = x
    · rw [hy, update_self] at hp
      cases hp
      exact Or.inr ⟨hw, h.supply (hf ▸ List.mem_cons_self ..)⟩
    · rw [update_of_ne hy] at hp
      exact h.news y p hp
  supply := fun f hfr => h.supply (hf ▸ List.mem_cons_of_mem _ hfr)

theorem Remaps.unmap (h : Remaps nowhere s₀ s) (hx : s₀.pt x = none) :
    Remaps nowhere s₀ (s.setPte x none) where
  keeps y p hp hy := by
    have hne : y ≠ x := by
      rintro rfl
      rw [hx] at hp
      cases hp
    exact (update_of_ne hne _ _).trans (h.keeps y p hp hy)
  news y p hp := by
    change update s.pt x none y = some p at hp
    by_cases hy : y = x
    · rw [hy, update_self] at hp
      cases hp
    · rw [update_of_ne hy] at hp
      exact h.news y p hp
  supply := h.supply

/-- The pages of a block are mapped where there was nothing. -/
theorem mapPages_remaps : ∀ (left k : ℕ) (s : Sys), Remaps nowhere s₀ s →
    (∀ j < k + left, s₀.pt (e, pn + j) = none) →
    wp (mapPages e pn n left k) (fun _ s' => Remaps nowhere s₀ s') (fun _ _ => False) s := by
  intro left
  induction left with
  | zero => exact fun k s h _ => h
  | succ left ih =>
    intro k s h hnone
    have hall : ∀ (l : List ℕ) (s : Sys), Remaps nowhere s₀ s ∧ (∀ j ∈ l, j < k + (left + 1)) →
        wp (l.forM fun j => sysPageUnmap e (pn + j))
          (fun _ s' => Remaps nowhere s₀ s' ∧ ∀ j ∈ ([] : List ℕ), j < k + (left + 1))
          (fun _ _ => False) s := by
      refine wp_forM _ fun j l s hs => ?_
      have hrest : ∀ j ∈ l, j < k + (left + 1) := fun j hj => hs.2 j (List.mem_cons_of_mem _ hj)
      rw [sysPageUnmap, wp_ite]
      exact ⟨fun _ => ⟨hs.1, hrest⟩,
        fun _ => ⟨hs.1.unmap (hnone j (hs.2 j (List.mem_cons_self ..))), hrest⟩⟩
    have hfail : wp (do
        (List.range (k + 1)).reverse.forM fun j => sysPageUnmap e (pn + j)
        pure false : M Bool) (fun _ s' => Remaps nowhere s₀ s') (fun _ _ => False) s := by
      rw [wp_bind]
      refine (hall _ s ⟨h, fun j hj => ?_⟩).mono (fun _ s' hs' => hs'.1) fun _ _ hf => hf
      have := List.mem_range.1 (List.mem_reverse.1 hj)
      omega
    rw [mapPages, wp_bind, sysPageAlloc, wp_bind, wp_get, wp_ite]
    refine ⟨fun _ => hfail, fun _ => ?_⟩
    cases hf : s.free with
    | nil => exact hfail
    | cons f r =>
      have hnew := h.install (c := fun _ => 0#32)
        (q := ⟨f, true, false, false, decide (k * PGSIZE + PGSIZE < n)⟩)
        (hnone k (by omega)) hf rfl
      exact ih (k + 1) _ hnew fun j hj => hnone j (by omega)

/-- New pages are mapped where there was nothing, and `malloc` has no other reason to panic. -/
theorem mallocFound_remaps (hp : Plain s) (hv : AtPage v) (hfree : isfree s e v (n + 4) = true)
    (hn : n < MAXMALLOC) :
    wp (mallocFound e n (.found v)) (fun _ s' => Remaps nowhere s s')
      (fun err _ => err ≠ .noMem) s := by
  have hn4 : n + 4 < 2 ^ 21 := by
    simp only [MAXMALLOC] at hn
    omega
  have hset : Remaps nowhere s (s.setMptr e v) := .of_pt rfl rfl
  have hpages := fun j hj => isfree_pages hfree hv hn4 (j := j) hj
  have hpos : 0 < pagesFor (n + 4) := pagesFor_pos
  have hlast := hpages (pagesFor (n + 4) - 1) (by omega)
  rw [← Nat.add_sub_assoc (Nat.succ_le_of_lt hpos)] at hlast
  rw [mallocFound, wp_bind, wp_modify, wp_bind]
  have hmap : wp (mapPages e (v / PGSIZE) (n + 4) (pagesFor (n + 4)) 0)
      (fun _ s' => Remaps nowhere s s') (fun _ _ => False) (s.setMptr e v) :=
    mapPages_remaps _ 0 _ hset fun j hj => (hpages j (by omega)).2
  refine hmap.mono (fun ok s₁ h₁ => ?_) fun _ _ hf => hf.elim
  rw [wp_ite]
  refine ⟨fun _ => ?_, fun _ => h₁⟩
  rw [wp_bind]
  exact (wp_storeWord (h₁.plain hp) hlast.1).mono
    (fun _ s₂ h₂ => (h₁.trans (.of_pt h₂.1 h₂.2)).trans (.of_pt rfl rfl)) fun _ _ h => h

end Mappings

/-! ## The calls -/

section Calls

variable {s s₁ : Sys} {e : EnvIdx} {L : List Block} {n pn : ℕ}

/-- The call panics. -/
def Fails {α : Type} (e : EnvIdx) (x : M α) (s : Sys) : Prop :=
  ∃ err s', x s = .error err s' ∧ Good s' ∧ Only e s s'

/-- The call returns `v` and leaves the view `V'` and `mptr` at `m'`, with `P v V' m'`, and the
mappings of `gone` are taken away; or it panics, which needs a `fork`. -/
def Ends (e : EnvIdx) (x : M ℕ) (s : Sys) (P : ℕ → View → ℕ → Prop) (gone : Site → Prop) : Prop :=
  (∃ v s' V' m', x s = .ok v s' ∧ Acts e s s' V' m' ∧ P v V' m' ∧ (Plain s → Remaps gone s s')) ∨
    ¬ Plain s ∧ Fails e x s

variable {P Q : ℕ → View → ℕ → Prop} {m : ℕ}

/-- What comes before a call. -/
theorem Ends.after {x y : M ℕ} {gone : Site → Prop} {V : View} (hrun : x s = y s₁)
    (ha : Acts e s s₁ V m) (hmaps : Plain s → Remaps gone s s₁) (h : Ends e y s₁ P nowhere)
    (hP : ∀ v V' m', P v V' m' → Q v V' m') : Ends e x s Q gone := by
  rcases h with ⟨v, s', V', m', hy, ha', hp, hmaps'⟩ | ⟨hplain, err, s', hy, hg, ho⟩
  · refine Or.inl ⟨v, s', V', m', hrun.trans hy, ha.trans ha', hP v V' m' hp, fun hs => ?_⟩
    exact (hmaps hs).trans (hmaps' ((hmaps hs).plain hs))
  · refine Or.inr ⟨fun hs => hplain ((hmaps hs).plain hs), err, s', hrun.trans hy, hg,
      ha.only.trans ho⟩

theorem mallocFound_ends (h : Good s) (hv : AtPage v) (hfree : isfree s e v (n + 4) = true)
    (hn : n < MAXMALLOC) :
    Ends e (mallocFound e n (.found v)) s (NewPages (s.view e) n) nowhere := by
  have hmaps : Plain s → _ := fun hp => mallocFound_remaps hp hv hfree hn
  rcases mallocFound_acts h hv hfree hn with ⟨s', hrun, ha⟩ | ⟨s', hrun, hpages, ha⟩ |
    ⟨s', hrun, hg, ho⟩
  · exact Or.inl ⟨0, s', _, v, hrun, ha, .null hv, fun hp => (wp_of_ok hrun).1 (hmaps hp)⟩
  · exact Or.inl ⟨v, s', _, _, hrun, ha,
      .take hv fun j hj => ⟨(hpages j hj).1, words_eq_none.2 (hpages j hj).2⟩,
      fun hp => (wp_of_ok hrun).1 (hmaps hp)⟩
  · exact Or.inr ⟨fun hp => (wp_of_error hrun).1 (hmaps hp) rfl, _, s', hrun, hg, ho⟩

theorem mallocNew_ends (h : Good s) (hm : AtPage (s.mptr e)) (hn : n < MAXMALLOC) :
    Ends e (mallocNew e n) s (NewPages (s.view e) n) nowhere := by
  have hrun : mallocNew e n s = mallocFound e n (seek s e (n + 4) seekFuel 0 (s.mptr e)) s := by
    rw [mallocNew, run_get_bind]
  rw [Ends, Fails, hrun]
  rcases hm.seek_cases (s := s) (e := e) (n := n + 4) with ⟨v, hseek, hv, hfree⟩ | hseek
  · rw [hseek]
    exact mallocFound_ends h hv hfree hn
  · rw [hseek, mallocFound, run_modify_bind]
    exact Or.inl ⟨0, _, _, mbegin, rfl, acts_setMptr h e mbegin, .null atPage_mbegin,
      fun _ => .of_pt rfl rfl⟩

theorem mallocAt_fits (hfit : Fits m n) (hc : s.words (e, m / PGSIZE) = some c) :
    mallocAt e n m s = (do
      storeWord e (m / PGSIZE) refIdx (c refIdx + 1#32)
      modify fun s => s.setMptr e ((m + n) % 2 ^ 32)
      pure m : M ℕ) s := by
  rw [mallocAt, if_pos hfit.1, if_pos hfit.2, run_bind_ok (loadWord_ok hc refIdx)]

theorem mallocAt_leaves (hopen : m % PGSIZE ≠ 0) (hfit : ¬ Fits m n) :
    mallocAt e n m s = (do
      free e m
      modify fun s => s.setMptr e ((m + PGSIZE) % 2 ^ 32 / PGSIZE * PGSIZE)
      mallocNew e n : M ℕ) s := by
  rw [mallocAt, if_pos hopen, if_neg fun h => hfit ⟨hopen, h⟩]

/-- The page `malloc` works on, when the call leaves it with its count at one. -/
def Left (s : Sys) (e : EnvIdx) (n : ℕ) (x : Site) : Prop :=
  n < MAXMALLOC ∧ s.mptr e % PGSIZE ≠ 0 ∧ ¬ Fits (s.mptr e) n ∧ x = (e, s.mptr e / PGSIZE) ∧
    ∃ c, s.words x = some c ∧ c refIdx = 1#32

/-- Where `malloc` works: nowhere yet, or between `mbegin` and `mend`, and not in the
middle of a page with the mark. -/
structure Cursor (V : View) (m : ℕ) : Prop where
  mptr : m = 0 ∨ mbegin ≤ m ∧ m < mend
  mptr4 : m % 4 = 0
  stop : m % PGSIZE ≠ 0 → V.cont (m / PGSIZE) = false

namespace Cursor

variable {V : View} {m : ℕ}

theorem range_of_open (h : Cursor V m) (hopen : m % PGSIZE ≠ 0) : mbegin ≤ m ∧ m < mend := by
  refine h.mptr.resolve_left ?_
  rintro rfl
  exact hopen rfl

theorem arena_of_open (h : Cursor V m) (hopen : m % PGSIZE ≠ 0) : Arena (m / PGSIZE) := by
  obtain ⟨hlo, hhi⟩ := h.range_of_open hopen
  simp only [Arena, mbegin, mend, PGSIZE] at hlo hhi ⊢
  omega

end Cursor

theorem Heap.cursor {V : View} (h : Heap V m L) : Cursor V m where
  mptr := h.mptr
  mptr4 := h.mptr4
  stop hopen := by
    obtain ⟨c, hc⟩ := Option.ne_none_iff_exists'.1 (h.opened hopen).1
    exact h.not_cont (h.count_open hopen hc).1 (h.opened hopen).2

/-- A piece of the page at hand. -/
theorem mallocAt_fits_ends (h : Good s) (hi : Cursor (s.view e) (s.mptr e))
    (hmap : s.words (e, s.mptr e / PGSIZE) ≠ none) (hn : n < MAXMALLOC)
    (hfit : Fits (s.mptr e) n) :
    Ends e (mallocAt e n (s.mptr e)) s (Outcome (s.view e) (s.mptr e) n) (Left s e n) := by
  obtain ⟨-, hhi⟩ := hi.range_of_open hfit.1
  obtain ⟨c, hc⟩ := Option.ne_none_iff_exists'.1 hmap
  have ha := hi.arena_of_open hfit.1
  have hrun := mallocAt_fits hfit hc
  have hmod : (s.mptr e + n) % 2 ^ 32 = s.mptr e + n := by
    rw [mend] at hhi
    rw [MAXMALLOC] at hn
    omega
  rcases storeWord_acts h ha hc refIdx (c refIdx + 1#32) with ⟨s₁, hst, hacts⟩ | ⟨hw, -, hst⟩
  · rw [run_bind_ok hst, hmod] at hrun
    have hset := hacts.trans (acts_setMptr hacts.good e (s.mptr e + n))
    rw [hacts.view] at hset
    refine Or.inl ⟨_, _, _, _, hrun, hset, .fits hn hfit hc, fun hp => ?_⟩
    obtain ⟨hpt, hf⟩ := (wp_of_ok hst).1 (wp_storeWord hp ha)
    have hsame : Remaps nowhere s (s₁.setMptr e (s.mptr e + n)) := .of_pt hpt hf
    exact ⟨fun x q hq _ => hsame.keeps x q hq id,
      fun x q hq => (hsame.news x q hq).imp_left fun hq' => ⟨hq'.1, fun hl => hl.2.2.1 hfit⟩,
      hsame.supply⟩
  · rw [run_bind_error hst] at hrun
    exact Or.inr ⟨fun hp => hw (hp.writes h ha hc), _, s, hrun, h, .refl e s⟩

/-- `malloc` leaves its page. -/
theorem free_mptr (h : Good s) (hi : Cursor (s.view e) (s.mptr e)) (hopen : s.mptr e % PGSIZE ≠ 0)
    (hc : s.words (e, s.mptr e / PGSIZE) = some c) :
    (∃ s', free e (s.mptr e) s = .ok () s' ∧
      Acts e s s' ((s.view e).drop (s.mptr e / PGSIZE) c) (s.mptr e)) ∨
    (¬ s.Writes (e, s.mptr e / PGSIZE) ∧ Fails e (free e (s.mptr e)) s) := by
  have ha := hi.arena_of_open hopen
  have hstop : s.continued e (s.mptr e / PGSIZE) = false := hi.stop hopen
  rcases free_acts (k := 0) h (hi.range_of_open hopen) (fun j hj => absurd hj (Nat.not_lt_zero j))
    hstop ha hc with ⟨s', hrun, hacts⟩ | ⟨hw, -, s', hrun, hg, ho⟩
  · rw [View.release_zero, Nat.add_zero] at hacts
    exact Or.inl ⟨s', hrun, hacts⟩
  · exact Or.inr ⟨hw, _, s', hrun, hg, ho⟩

/-- The one mapping that may go is that of the page. -/
theorem words_drop {s' : Sys} (hc : s.words (e, pn) = some c)
    (ha : Acts e s s' ((s.view e).drop pn c) m) (x : Site) :
    s'.words x = none ↔ s.words x = none ∨ x = (e, pn) ∧ c refIdx = 1#32 := by
  obtain ⟨e', q⟩ := x
  have hsub : c refIdx - 1#32 = 0#32 ↔ c refIdx = 1#32 := sub_eq_zero
  by_cases he : e' = e
  · subst he
    have hwords : s'.words (e', q) = _ := congrFun (congrArg View.words ha.view) q
    rw [hwords, View.drop_words]
    by_cases hq : q = pn
    · rw [if_pos hq, hq, hc, ite_eq_left_iff, hsub]
      simp
    · rw [if_neg hq]
      have hne : ¬ ((e', q) = (e', pn) ∧ c refIdx = 1#32) := fun heq =>
        hq (congrArg Prod.snd heq.1)
      rw [or_iff_left hne]
      rfl
  · have hwords : s'.words (e', q) = s.words (e', q) :=
      congrFun (congrArg View.words (ha.only.view e' he)) q
    have hne : ¬ ((e', q) = (e, pn) ∧ c refIdx = 1#32) := fun heq => he (congrArg Prod.fst heq.1)
    rw [hwords, or_iff_left hne]

/-- Where `mptr` is after that. -/
theorem next_page (hlo : mbegin ≤ m) (hhi : m < mend) (hnext : m / PGSIZE + 1 < mend / PGSIZE) :
    (m + PGSIZE) % 2 ^ 32 / PGSIZE * PGSIZE = (m + PGSIZE) / PGSIZE * PGSIZE ∧
      AtPage ((m + PGSIZE) / PGSIZE * PGSIZE) := by
  have hend : mend / PGSIZE = 0x10000 := by decide
  rw [hend] at hnext
  refine ⟨?_, ?_, ?_, Nat.mul_mod_left _ _⟩
  · rw [Nat.mod_eq_of_lt]
    simp only [mend, PGSIZE] at hhi ⊢
    omega
  · simp only [mbegin, PGSIZE] at hlo ⊢
    omega
  · simp only [mend, PGSIZE] at hhi hnext ⊢
    omega

/-- The page is left, and new pages are looked for. -/
theorem mallocAt_leaves_ends (h : Good s) (hi : Cursor (s.view e) (s.mptr e))
    (hmap : s.words (e, s.mptr e / PGSIZE) ≠ none) (hn : n < MAXMALLOC) (hopen : s.mptr e % PGSIZE ≠ 0) (hfit : ¬ Fits (s.mptr e) n)
    (hnext : s.mptr e / PGSIZE + 1 < mend / PGSIZE) :
    Ends e (mallocAt e n (s.mptr e)) s (Outcome (s.view e) (s.mptr e) n) (Left s e n) := by
  obtain ⟨hlo, hhi⟩ := hi.range_of_open hopen
  obtain ⟨c, hc⟩ := Option.ne_none_iff_exists'.1 hmap
  obtain ⟨hround, hat⟩ := next_page hlo hhi hnext
  have hrun := mallocAt_leaves (s := s) (e := e) hopen hfit
  rw [hround] at hrun
  rcases free_mptr h hi hopen hc with ⟨s₁, hfr, hacts⟩ | ⟨hw, err, s₁, hfr, hg, ho⟩
  · rw [run_bind_ok hfr, run_modify_bind] at hrun
    have hset := hacts.trans (acts_setMptr hacts.good e ((s.mptr e + PGSIZE) / PGSIZE * PGSIZE))
    rw [← hset.mptr] at hat
    refine (mallocNew_ends hset.good hat hn).after hrun hset (fun hp => ?_) fun v V' m' hpages => ?_
    · have hmptr : Remaps nowhere s₁ (s₁.setMptr e ((s.mptr e + PGSIZE) / PGSIZE * PGSIZE)) :=
        .of_pt rfl rfl
      have hmaps := (free_remaps hp hfr).trans hmptr
      -- what is not there any more is the page, if its count was at one
      have hgone : ∀ x q, s.pt x = some q → (s₁.words x = none ↔ Left s e n x) := by
        intro x q hq
        have hsome : s.words x ≠ none := by
          rw [words_of_pt hq]
          exact Option.some_ne_none _
        rw [words_drop hc hacts, or_iff_right hsome, Left]
        constructor
        · rintro ⟨rfl, hone⟩
          exact ⟨hn, hopen, hfit, rfl, c, hc, hone⟩
        · rintro ⟨-, -, -, rfl, d, hd, hone⟩
          have heq : some c = some d := hc.symm.trans hd
          cases heq
          exact ⟨rfl, hone⟩
      refine ⟨fun x q hq hx => hmaps.keeps x q hq ((hgone x q hq).not.2 hx), fun x q hq => ?_,
        hmaps.supply⟩
      exact (hmaps.news x q hq).imp_left fun hq' => ⟨hq'.1, (hgone x q hq'.1).not.1 hq'.2⟩
    · rw [hset.view, hacts.view] at hpages
      exact .leaves hn hopen hfit hnext hc hpages
  · rw [run_bind_error hfr] at hrun
    exact Or.inr ⟨fun hp => hw (hp.writes h (hi.arena_of_open hopen) hc), err, s₁, hrun, hg, ho⟩

/-- A call that does not leave its page takes no mapping away. -/
theorem Ends.stays {x : M ℕ} (h : Ends e x s P nowhere) (hP : ∀ v V' m', P v V' m' → Q v V' m')
    (hno : ∀ y, ¬ Left s e n y) : Ends e x s Q (Left s e n) := by
  have heq : nowhere = Left s e n := funext fun y => propext ⟨False.elim, hno y⟩
  rw [← heq]
  exact h.imp_left fun ⟨v, s', V', m', hrun, ha, hp, hmaps⟩ =>
    ⟨v, s', V', m', hrun, ha, hP v V' m' hp, hmaps⟩

theorem mallocAt_ends (h : Good s) (hi : Cursor (s.view e) (s.mptr e)) (hm : s.mptr e ≠ 0)
    (hmap : s.mptr e % PGSIZE ≠ 0 → s.words (e, s.mptr e / PGSIZE) ≠ none) (hn : n < MAXMALLOC)
    (hroom : s.mptr e % PGSIZE = 0 ∨ Fits (s.mptr e) n ∨ s.mptr e / PGSIZE + 1 < mend / PGSIZE) :
    Ends e (mallocAt e n (s.mptr e)) s (Outcome (s.view e) (s.mptr e) n) (Left s e n) := by
  by_cases hopen : s.mptr e % PGSIZE = 0
  · obtain ⟨hlo, hhi⟩ := hi.mptr.resolve_left hm
    have hrun : mallocAt e n (s.mptr e) = mallocNew e n := by
      rw [mallocAt, if_neg (not_not.2 hopen)]
    rw [hrun]
    exact (mallocNew_ends h ⟨hlo, hhi, hopen⟩ hn).stays (fun v V' m' => .new hn hopen)
      fun y hy => hy.2.1 hopen
  · by_cases hfit : Fits (s.mptr e) n
    · exact mallocAt_fits_ends h hi (hmap hopen) hn hfit
    · exact mallocAt_leaves_ends h hi (hmap hopen) hn hopen hfit
        ((hroom.resolve_left hopen).resolve_left hfit)

/-- **`malloc`**, case by case. -/
theorem Cursor.malloc_ends {n : Word} (h : Good s) (hi : Cursor (s.view e) (s.mptr e))
    (hmap : roundUp4 n < MAXMALLOC → s.mptr e % PGSIZE ≠ 0 →
      s.words (e, s.mptr e / PGSIZE) ≠ none)
    (hroom : roundUp4 n < MAXMALLOC → s.mptr e % PGSIZE = 0 ∨ Fits (s.mptr e) (roundUp4 n) ∨
      s.mptr e / PGSIZE + 1 < mend / PGSIZE) :
    Ends e (malloc e n) s (Outcome (s.view e) (s.mptr e) (roundUp4 n))
      (Left s e (roundUp4 n)) := by
  -- `mptr` is set before anything else
  have hrun : malloc e n s = (if roundUp4 n ≥ MAXMALLOC then pure 0
      else mallocAt e (roundUp4 n) ((if s.mptr e = 0 then s.setMptr e mbegin else s).mptr e) : M ℕ)
      (if s.mptr e = 0 then s.setMptr e mbegin else s) := by
    rw [malloc, run_modify_bind, run_get_bind]
  by_cases hbig : roundUp4 n ≥ MAXMALLOC
  · rw [if_pos hbig] at hrun
    have hout := Outcome.big (V := s.view e) (m := s.mptr e) hbig
    have hno : ∀ y, ¬ Left s e (roundUp4 n) y := fun y hy => Nat.not_lt.2 hbig hy.1
    refine Ends.stays (P := Outcome (s.view e) (s.mptr e) (roundUp4 n)) ?_ (fun _ _ _ => id) hno
    by_cases h0 : s.mptr e = 0
    · rw [if_pos h0] at hrun hout
      exact Or.inl ⟨0, _, _, _, hrun, acts_setMptr h e mbegin, hout, fun _ => .of_pt rfl rfl⟩
    · rw [if_neg h0] at hrun hout
      exact Or.inl ⟨0, _, _, _, hrun, .refl h, hout, fun _ => .of_pt rfl rfl⟩
  · have hn : roundUp4 n < MAXMALLOC := Nat.lt_of_not_le hbig
    rw [if_neg hbig] at hrun
    by_cases h0 : s.mptr e = 0
    · have hset := acts_setMptr h e mbegin
      have hopen : s.mptr e % PGSIZE = 0 := by
        rw [h0]
        rfl
      have hat : AtPage ((s.setMptr e mbegin).mptr e) := by
        rw [hset.mptr]
        exact atPage_mbegin
      have hnew : mallocAt e (roundUp4 n) ((s.setMptr e mbegin).mptr e)
          = mallocNew e (roundUp4 n) := by
        rw [mallocAt, if_neg (not_not.2 hat.page)]
      rw [if_pos h0, hnew] at hrun
      have hends := (mallocNew_ends hset.good hat hn).after hrun hset
        (fun _ => .of_pt rfl rfl) fun v V' m' hpages => hpages
      rw [hset.view] at hends
      exact hends.stays (fun v V' m' => .new hn hopen) fun y hy => hy.2.1 hopen
    · rw [if_neg h0] at hrun
      rw [Ends, Fails, hrun]
      exact mallocAt_ends h hi h0 (hmap hn) hn (hroom hn)

theorem malloc_ends {n : Word} (h : Good s) (hi : Heap (s.view e) (s.mptr e) L)
    (hroom : roundUp4 n < MAXMALLOC → s.mptr e % PGSIZE = 0 ∨ Fits (s.mptr e) (roundUp4 n) ∨
      s.mptr e / PGSIZE + 1 < mend / PGSIZE) :
    Ends e (malloc e n) s (Outcome (s.view e) (s.mptr e) (roundUp4 n))
      (Left s e (roundUp4 n)) :=
  hi.cursor.malloc_ends h (fun _ hopen => (hi.opened hopen).1) hroom

/-- **`free`** of a block in use. -/
theorem free_inv {b : Block} (h : Good s) (hi : Heap (s.view e) m L) (hb : b ∈ L)
    (hfork : b.first = b.last ∨ b.forked = false) :
    ∃ c, s.words (e, b.last) = some c ∧
      ((∃ s', free e b.addr s = .ok () s' ∧
        Acts e s s' ((s.view e).freed b c) (s.mptr e)) ∨
      (¬ s.Writes (e, b.last) ∧ s.free = [] ∧ Fails e (free e b.addr) s)) := by
  have hok := hi.block b hb
  have hcov : b.Covers b.last := b.covers_last
  have hlast : b.addr / PGSIZE + (b.last - b.first) = b.last :=
    Nat.add_sub_cancel' b.first_le_last
  obtain ⟨c, hc⟩ := Option.ne_none_iff_exists'.1 (hok.mapped _ hcov)
  have hrange : mbegin ≤ b.addr ∧ b.addr < mend := by
    have hlo := hok.lo
    have hhi := hok.hi
    have hle := b.first_le_last
    rw [b.first_eq] at hle
    rw [mbegin] at hlo ⊢
    rw [mend]
    omega
  have hmarks : ∀ j < b.last - b.first, s.continued e (b.addr / PGSIZE + j) = true := by
    intro j hj
    have hin : b.Inner (b.addr / PGSIZE + j) := ⟨Nat.le_add_right _ _, by omega⟩
    refine (hok.cont _ hin).resolve_left fun hf => ?_
    rcases hfork with heq | hno
    · omega
    · rw [hno] at hf
      cases hf
  have hstop : s.continued e (b.addr / PGSIZE + (b.last - b.first)) = false := by
    rw [hlast]
    exact hi.not_cont (hok.arena hcov) (hi.last_not_inner hb)
  refine ⟨c, hc, ?_⟩
  have harena : Arena (b.addr / PGSIZE + (b.last - b.first)) := by
    rw [hlast]
    exact hok.arena hcov
  have hwords : s.words (e, b.addr / PGSIZE + (b.last - b.first)) = some c := by
    rw [hlast]
    exact hc
  rcases free_acts h hrange hmarks hstop harena hwords with
    ⟨s', hrun, ha⟩ | ⟨hw, hf, s', hrun, hg, ho⟩
  · rw [hlast] at ha
    exact Or.inl ⟨s', hrun, ha⟩
  · rw [hlast] at hw
    exact Or.inr ⟨hw, hf, _, s', hrun, hg, ho⟩

end Calls

end Jos.Malloc
