import Jos.User.MallocBlocks

/-!
# Where `malloc` looks for space, and what it finds

`malloc` returns a block between `mbegin` and `mend`, or a null pointer with nothing
mapped, and its search stays between the two, if three things hold (`Sound`).

* The page it works on is still there; it is unless its count was taken for zero.
* It does not leave the last page below `mend`.  It would go on at `mend` itself, and
  the loop tests for `mend` after a step only.
* The size does not wrap when it is rounded up.  The last three numbers below
  `2 ^ 32` become 0, and a block of no bytes is returned for them.

The ways in which this comes about:

* `visited`, `searchFrom` — the values of `mptr` at the tests of the loop, and where it
  starts; `visited_atPage`, `seek_full` say what it has seen.
* `Cursor.outcome` — `mptr` stays in its place.
* `Steady.run` — in every run of calls, also those in which counts are taken for zero.
* `malloc_placed_iff` — a call is as it should be exactly when it is `Sound`.
-/

namespace Jos.Malloc

open Jos.User Function

/-! ## The search -/

/-- The values of `mptr` at which the loop of `malloc` calls `isfree`. -/
def visited (s : Sys) (e : EnvIdx) (n : ℕ) : ℕ → ℕ → ℕ → List ℕ
  | 0, _, _ => []
  | fuel + 1, nwrap, m =>
    m :: (if isfree s e m n then []
      else if (m + PGSIZE) % 2 ^ 32 = mend then
        if nwrap + 1 = 2 then [] else visited s e n fuel (nwrap + 1) mbegin
      else visited s e n fuel nwrap ((m + PGSIZE) % 2 ^ 32))

instance (m n : ℕ) : Decidable (Fits m n) := inferInstanceAs (Decidable (_ ∧ _))

/-- `mptr`, once it is set. -/
def Sys.cursor (s : Sys) (e : EnvIdx) : ℕ := if s.mptr e = 0 then mbegin else s.mptr e

/-- Where a call for `n` bytes starts to look for address space, if it does: the state, and
`mptr`. -/
def searchFrom (e : EnvIdx) (n : ℕ) (s : Sys) : Option (Sys × ℕ) :=
  if MAXMALLOC ≤ n ∨ Fits (s.cursor e) n then none
  else if s.cursor e % PGSIZE = 0 then some (s, s.cursor e)
  else
    match free e (s.cursor e) s with
    | .ok _ s' => some (s', (s.cursor e + PGSIZE) % 2 ^ 32 / PGSIZE * PGSIZE)
    | .error _ _ => none

section Search

variable {s : Sys} {e : EnvIdx} {n m : ℕ}

/-- The next page below `mend`. -/
theorem AtPage.next (h : AtPage m) :
    (m + PGSIZE) % 2 ^ 32 = m + PGSIZE ∧ (m + PGSIZE ≠ mend → AtPage (m + PGSIZE)) := by
  obtain ⟨hlo, hhi, hpage⟩ := h
  simp only [mbegin, mend, PGSIZE] at hlo hhi hpage ⊢
  refine ⟨by omega, fun hne => ⟨?_, ?_, ?_⟩⟩
  · rw [mbegin]
    omega
  · rw [mend]
    omega
  · rw [PGSIZE]
    omega

/-- A search that starts at a page between `mbegin` and `mend` stays there. -/
theorem visited_atPage : ∀ (fuel nwrap m : ℕ), AtPage m →
    ∀ a ∈ visited s e n fuel nwrap m, AtPage a := by
  intro fuel
  induction fuel with
  | zero =>
    intro nwrap m _ a ha
    exact absurd ha List.not_mem_nil
  | succ fuel ih =>
    intro nwrap m hm a ha
    rw [visited, List.mem_cons] at ha
    rcases ha with rfl | ha
    · exact hm
    · rw [hm.next.1] at ha
      split_ifs at ha with hfree hend htwo
      · exact absurd ha List.not_mem_nil
      · exact absurd ha List.not_mem_nil
      · exact ih (nwrap + 1) mbegin atPage_mbegin a ha
      · exact ih nwrap _ (hm.next.2 hend) a ha

/-- A search that has come round and ends at `mend` has found nothing from `m` on. -/
theorem seek_full_above : ∀ (fuel m : ℕ), AtPage m → seek s e n fuel 1 m = .full →
    ∀ m', AtPage m' → m ≤ m' → isfree s e m' n = false := by
  intro fuel
  induction fuel with
  | zero =>
    intro m _ h
    cases h
  | succ fuel ih =>
    intro m hm h m' hm' hle
    rw [seek, hm.next.1] at h
    by_cases hfree : isfree s e m n = true
    · rw [if_pos hfree] at h
      cases h
    rw [if_neg hfree] at h
    by_cases heq : m' = m
    · rw [heq]
      exact Bool.eq_false_of_not_eq_true hfree
    · have hstep : m + PGSIZE ≤ m' := by
        have hp := hm.page
        have hp' := hm'.page
        simp only [PGSIZE] at hp hp' ⊢
        omega
      by_cases hend : m + PGSIZE = mend
      · have hhi := hm'.hi
        omega
      · rw [if_neg hend] at h
        exact ih _ (hm.next.2 hend) h m' hm' hstep

/-- A search that ends with nothing has been everywhere. -/
theorem seek_full : ∀ (fuel m : ℕ), AtPage m → seek s e n fuel 0 m = .full →
    ∀ m', AtPage m' → isfree s e m' n = false := by
  intro fuel
  induction fuel with
  | zero =>
    intro m _ h
    cases h
  | succ fuel ih =>
    intro m hm h m' hm'
    rw [seek, hm.next.1] at h
    split_ifs at h with hfree hend htwo
    · omega
    · exact seek_full_above fuel mbegin atPage_mbegin h m' hm' hm'.lo
    · exact ih _ (hm.next.2 hend) h m' hm'

/-- The start of a search is tested first. -/
theorem mem_visited (nwrap fuel : ℕ) : m ∈ visited s e n (fuel + 1) nwrap m :=
  List.mem_cons_self ..

end Search

/-! ## What a call is for -/

/-- A call of `malloc` for `n` bytes, with the frames `l` to be had. -/
structure Placed (s : Sys) (e : EnvIdx) (n : Word) (l : List ℕ) : Prop where
  /-- It returns, a null pointer and nothing is mapped that was not, or a pointer to `n`
  bytes. -/
  returns : ∃ v s', malloc e n { s with free := l } = .ok v s' ∧
    (v = 0 ∧ (∀ pn, s'.pt (e, pn) ≠ none → s.pt (e, pn) ≠ none) ∨
      v ≠ 0 ∧ mbegin ≤ v ∧ v + n.toNat ≤ mend)
  /-- The search ends. -/
  ends : ∀ s₁ m, searchFrom e (roundUp4 n) { s with free := l } = some (s₁, m) →
    seek s₁ e (roundUp4 n + 4) seekFuel 0 m ≠ .fuel
  /-- It does not leave the memory between `mbegin` and `mend`. -/
  inside : ∀ s₁ m, searchFrom e (roundUp4 n) { s with free := l } = some (s₁, m) →
    ∀ a ∈ visited s₁ e (roundUp4 n + 4) seekFuel 0 m, mbegin ≤ a ∧ a < mend

/-- `ROUNDUP(n, 4)` wraps. -/
def Wraps (n : Word) : Prop := 2 ^ 32 - 4 < n.toNat

instance (n : Word) : Decidable (Wraps n) := inferInstanceAs (Decidable (_ < _))

/-- When a call of `malloc` is as it should be, and no `fork`. -/
def Sound (s : Sys) : Event → Prop
  | .malloc e n l => roundUp4 n < MAXMALLOC →
      (s.mptr e % PGSIZE ≠ 0 → s.pt (e, s.mptr e / PGSIZE) ≠ none) ∧
      (s.mptr e % PGSIZE = 0 ∨ Fits (s.mptr e) (roundUp4 n) ∨
        s.mptr e / PGSIZE + 1 < mend / PGSIZE) ∧
      (Wraps n → s.mptr e % PGSIZE = 0 ∧ (l = [] ∨ ∀ pn, Arena pn → s.pt (e, pn) ≠ none))
  | .fork .. => False
  | _ => True

/-! ## `mptr` stays in its place -/

namespace Cursor

variable {V V' : View} {m m' n v : ℕ}

theorem atPage (hm : AtPage m) : Cursor V m where
  mptr := Or.inr ⟨hm.lo, hm.hi⟩
  mptr4 := by
    have hpage := hm.page
    rw [PGSIZE] at hpage
    omega
  stop hopen := absurd hm.page hopen

theorem newPages (h : NewPages V n v V' m') (hn : n % 4 = 0) : Cursor V' m' := by
  cases h with
  | null hm => exact atPage hm
  | take hv hpages =>
    have hlo := hv.lo
    have hpage := hv.page
    have hpos : 0 < pagesFor (n + 4) := pagesFor_pos
    have hlast := (hpages (pagesFor (n + 4) - 1) (by omega)).1.2
    refine ⟨Or.inr ⟨by omega, ?_⟩, ?_, fun hopen => ?_⟩
    · simp only [pagesFor, mend, PGSIZE] at hlast hpage ⊢
      omega
    · simp only [PGSIZE] at hpage
      omega
    · -- the page of `mptr` is the last of the block
      have hin : v / PGSIZE ≤ (v + n) / PGSIZE ∧
          (v + n) / PGSIZE < v / PGSIZE + pagesFor (n + 4) := by
        simp only [pagesFor, PGSIZE] at hpage ⊢
        omega
      rw [View.store_cont, View.fill_cont, if_pos hin, decide_eq_false_iff_not]
      simp only [PGSIZE] at hpage hopen ⊢
      omega

/-- What `malloc` does keeps it there. -/
theorem outcome (h : Cursor V m) (hn : n % 4 = 0) (ho : Outcome V m n v V' m') :
    Cursor V' m' := by
  cases ho with
  | big =>
    split
    · exact atPage atPage_mbegin
    · exact h
  | fits hlt hfit hc =>
    obtain ⟨hlo, hhi⟩ := h.range_of_open hfit.1
    have hpage := hfit.2
    have h4 := h.mptr4
    have hsame : (m + n) / PGSIZE = m / PGSIZE ∧ m + n < mend := by
      simp only [MAXMALLOC, mbegin, mend, PGSIZE] at hlt hlo hhi hpage ⊢
      omega
    refine ⟨Or.inr ⟨by omega, hsame.2⟩, by omega, fun _ => ?_⟩
    rw [View.store_cont, hsame.1]
    exact h.stop hfit.1
  | new _ _ hpages => exact newPages hpages hn
  | leaves _ _ _ _ _ hpages => exact newPages hpages hn

/-- A block lies between `mbegin` and `mend`. -/
theorem block_inside (h : Cursor V m) (ho : Outcome V m n v V' m') (hv : v ≠ 0) :
    mbegin ≤ v ∧ v + n ≤ mend := by
  have hnew : ∀ {W : View}, NewPages W n v V' m' → mbegin ≤ v ∧ v + n ≤ mend := by
    intro W hpages
    cases hpages with
    | null => exact absurd rfl hv
    | take hat hpages =>
      have hpage := hat.page
      have hpos : 0 < pagesFor (n + 4) := pagesFor_pos
      have hlast := (hpages (pagesFor (n + 4) - 1) (by omega)).1.2
      refine ⟨hat.lo, ?_⟩
      simp only [pagesFor, mend, PGSIZE] at hlast hpage ⊢
      omega
  cases ho with
  | big => exact absurd rfl hv
  | fits hlt hfit hc =>
    obtain ⟨hlo, hhi⟩ := h.range_of_open hfit.1
    have hpage := hfit.2
    refine ⟨hlo, ?_⟩
    simp only [MAXMALLOC, mend, PGSIZE] at hlt hhi hpage ⊢
    omega
  | new _ _ hpages => exact hnew hpages
  | leaves _ _ _ _ _ hpages => exact hnew hpages

end Cursor

/-! ## Runs -/

/-- What holds in every run of calls that are `Sound`. -/
structure Steady (s : Sys) : Prop where
  good : Good s
  plain : Plain s
  cursor : ∀ e, Cursor (s.view e) (s.mptr e)
  inside : ∀ e, ∀ b ∈ s.live e, mbegin ≤ b.addr ∧ b.addr + b.size ≤ mend

namespace Steady

variable {s s' : Sys} {e : EnvIdx} {l : List ℕ} {n : Word}

theorem start (h : s.Start) : Steady s where
  good := (Orderly.start h).good
  plain := (Orderly.start h).plain
  cursor e := by
    rw [h.mptr e]
    exact ⟨Or.inl rfl, rfl, fun hopen => absurd rfl hopen⟩
  inside e b hb := by
    rw [h.live e] at hb
    exact absurd hb List.not_mem_nil

theorem refill (h : Steady s) (hl : s.Supply l) : Steady { s with free := l } :=
  ⟨h.good.refill hl, h.plain, h.cursor, h.inside⟩

/-- Entries may go, and blocks. -/
theorem mono (h : Steady s) (hpt : ∀ x q, s'.pt x = some q → s.pt x = some q)
    (hfree : s'.free = s.free) (hmptr : s'.mptr = s.mptr) (hlive : ∀ e, s'.live e ⊆ s.live e) :
    Steady s' := by
  refine ⟨h.good.mono hpt hfree, fun e pn q ha hq => h.plain e pn q ha (hpt _ q hq), fun e => ?_,
    fun e b hb => h.inside e b (hlive e hb)⟩
  rw [hmptr]
  refine ⟨(h.cursor e).mptr, (h.cursor e).mptr4, fun hopen => ?_⟩
  have hstop : (s.pt (e, s.mptr e / PGSIZE)).any Pte.continued = false := (h.cursor e).stop hopen
  show (s'.pt (e, s.mptr e / PGSIZE)).any Pte.continued = false
  cases hp : s'.pt (e, s.mptr e / PGSIZE) with
  | none => rfl
  | some q =>
    rw [hpt _ q hp] at hstop
    exact hstop

theorem shrinks (h : Steady s) (hs : Shrinks s s') : Steady s' :=
  h.mono hs.pt hs.free hs.mptr fun _ => hs.live ▸ List.Subset.refl _

theorem exit (h : Steady s) (e : EnvIdx) : Steady (s.exit e) := by
  refine h.mono (fun _ _ hq => pt_of_exit hq) rfl rfl fun e' => ?_
  by_cases he : e' = e
  · rw [he, show (s.exit e).live e = [] from update_self ..]
    exact List.nil_subset _
  · rw [exit_live he]
    exact List.Subset.refl _

theorem strike (h : Steady s) (e : EnvIdx) (b : Block) : Steady (s.strike e b) := by
  refine h.mono (fun _ _ hq => hq) rfl rfl fun e' => ?_
  by_cases he : e' = e
  · rw [he, Sys.strike, setLive_self]
    exact List.erase_subset
  · rw [Sys.strike, setLive_of_ne he]
    exact List.Subset.refl _

/-- A store to a block. -/
theorem store (h : Steady s) {b : Block} (hb : b ∈ s.live e) {a : ℕ} (hlo : b.addr ≤ a)
    (hhi : a < b.addr + b.size) (i : Idx) (w : Word) :
    wp (storeWord e (a / PGSIZE) i w) (fun _ s' => Shrinks s s') (fun _ s' => Shrinks s s') s := by
  obtain ⟨hin, hin'⟩ := h.inside e b hb
  refine storeWord_shrinks h.plain ?_
  simp only [Arena, mbegin, mend, PGSIZE] at hin hin' ⊢
  omega

/-- What `malloc` does in these runs. -/
theorem malloc_returns (h : Steady s) (hl : s.Supply l)
    (hmap : roundUp4 n < MAXMALLOC → s.mptr e % PGSIZE ≠ 0 →
      s.pt (e, s.mptr e / PGSIZE) ≠ none)
    (hroom : roundUp4 n < MAXMALLOC → s.mptr e % PGSIZE = 0 ∨ Fits (s.mptr e) (roundUp4 n) ∨
      s.mptr e / PGSIZE + 1 < mend / PGSIZE) :
    ∃ v s₁ V' m', malloc e n { s with free := l } = .ok v s₁ ∧
      Acts e { s with free := l } s₁ V' m' ∧
      Outcome (s.view e) (s.mptr e) (roundUp4 n) v V' m' ∧ Plain s₁ := by
  rcases (h.cursor e).malloc_ends (s := { s with free := l }) (h.good.refill hl)
    (fun hn hopen => words_eq_none.not.2 (hmap hn hopen)) hroom with
    ⟨v, s₁, V', m', hok, ha, hout, hmaps⟩ | ⟨hno, -⟩
  · exact ⟨v, s₁, V', m', hok, ha, hout, (hmaps h.plain).plain h.plain⟩
  · exact absurd h.plain hno

/-- A block is entered where `malloc` has put it. -/
theorem enter (h : Steady s) {v m' : ℕ} {V' : View}
    (ha : Acts e { s with free := l } s' V' m') (hp : Plain s')
    (hout : Outcome (s.view e) (s.mptr e) (roundUp4 n) v V' m') :
    Steady (s'.enter e v (roundUp4 n)) := by
  refine ⟨ha.good.mono (fun _ _ hq => hq) rfl, hp, fun e' => ?_, fun e' b hb => ?_⟩
  · show Cursor (s'.view e') (s'.mptr e')
    by_cases he : e' = e
    · rw [he, ha.view, ha.mptr]
      exact (h.cursor e).outcome (Nat.mul_mod_left _ _) hout
    · rw [ha.only.view e' he, ha.only.mptr e' he]
      exact h.cursor e'
  · have hlive : s'.live = s.live := ha.only.live
    by_cases he : e' = e
    · rw [he, Sys.enter, setLive_self, hlive] at hb
      split at hb
      · exact h.inside e b hb
      · next hv =>
          rcases List.mem_cons.1 hb with rfl | hb
          · exact (h.cursor e).block_inside hout hv
          · exact h.inside e b hb
    · rw [Sys.enter, setLive_of_ne he, hlive] at hb
      exact h.inside e' b hb

theorem step (h : Steady s) {ev : Event} (hc : Sound s ev) (hs : Step s ev s') : Steady s' := by
  cases hs with
  | malloc hrun hl hok =>
    obtain ⟨v, s₁, V', m', hm, ha, hout, hplain⟩ :=
      h.malloc_returns hl (fun hn => (hc hn).1) fun hn => (hc hn).2.1
    rw [hm] at hok
    cases hok
    exact h.enter ha hplain hout
  | mallocPanic hrun hl hok =>
    obtain ⟨v, s₁, V', m', hm, -⟩ :=
      h.malloc_returns hl (fun hn => (hc hn).1) fun hn => (hc hn).2.1
    rw [hm] at hok
    cases hok
  | free hrun hl hb hok =>
    have ht := h.refill hl
    exact (ht.shrinks ((wp_of_ok hok).1 (free_shrinks ht.plain _))).strike _ _
  | freePanic hrun hl hb hok =>
    have ht := h.refill hl
    exact (ht.shrinks ((wp_of_error hok).1 (free_shrinks ht.plain _))).exit _
  | write hrun hl hb hlo hhi hok =>
    have ht := h.refill hl
    exact ht.shrinks ((wp_of_ok hok).1 (ht.store hb hlo hhi _ _))
  | writePanic hrun hl hb hlo hhi hok =>
    have ht := h.refill hl
    exact (ht.shrinks ((wp_of_error hok).1 (ht.store hb hlo hhi _ _))).exit _
  | fork => exact hc.elim
  | exit => exact h.exit _

theorem run {s₀ : Sys} (h₀ : s₀.Start) (hrun : Lts.Run Step Sound s₀ s) : Steady s :=
  hrun.inv (start h₀) fun _ _ _ hi hc hs => hi.step hc hs

end Steady

/-! ## A call in a run -/

section Calls

variable {s s₁ : Sys} {e : EnvIdx} {l : List ℕ} {n : Word} {m : ℕ}

theorem roundUp4_of_wraps (h : Wraps n) : roundUp4 n = 0 := by
  simp only [Wraps] at h
  rw [roundUp4]
  omega

theorem le_roundUp4_of_not_wraps (h : ¬ Wraps n) : n.toNat ≤ roundUp4 n := by
  simp only [Wraps] at h
  rw [roundUp4]
  omega

theorem Cursor.atPage_cursor {V : View} (h : Cursor V (s.mptr e))
    (hpage : s.mptr e % PGSIZE = 0) : AtPage (s.cursor e) := by
  rw [Sys.cursor]
  split
  · exact atPage_mbegin
  · next h0 => exact ⟨(h.mptr.resolve_left h0).1, (h.mptr.resolve_left h0).2, hpage⟩

theorem cursor_of_open (hopen : s.mptr e % PGSIZE ≠ 0) : s.cursor e = s.mptr e := by
  rw [Sys.cursor, if_neg]
  intro h0
  rw [h0] at hopen
  exact hopen rfl

theorem cursor_page : s.cursor e % PGSIZE = 0 ↔ s.mptr e % PGSIZE = 0 := by
  rw [Sys.cursor]
  split
  · next h0 =>
      rw [h0]
      exact iff_of_true rfl rfl
  · exact Iff.rfl

/-- `malloc`, from where `mptr` is set. -/
theorem malloc_eq (hn : roundUp4 n < MAXMALLOC) : malloc e n s =
    mallocAt e (roundUp4 n) (s.cursor e)
      (if s.mptr e = 0 then s.setMptr e mbegin else s) := by
  rw [malloc, run_modify_bind, run_get_bind, if_neg (Nat.not_le.2 hn), Sys.cursor]
  split
  · rw [show (s.setMptr e mbegin).mptr e = mbegin from update_self ..]
  · rfl

theorem mapPages_one_nil {pn : ℕ} (hpn : pn < utopPage) (hf : s.free = []) :
    ∃ s', mapPages e pn (0 + 4) 1 0 s = .ok false s' := by
  have halloc : sysPageAlloc e (pn + 0) (decide (0 * PGSIZE + PGSIZE < 0 + 4)) s
      = .ok false s := by
    rw [Nat.add_zero, sysPageAlloc, run_get_bind, if_neg (Nat.not_le.2 hpn), hf]
    rfl
  rw [mapPages, run_bind_ok halloc, if_neg Bool.false_ne_true]
  exact ⟨_, run_bind_ok (run_bind_ok (sysPageUnmap_eq s e hpn))⟩

theorem mapPages_one_cons {pn f : ℕ} {r : List ℕ} (hpn : pn < utopPage) (hf : s.free = f :: r) :
    mapPages e pn (0 + 4) 1 0 s
      = .ok true (s.install (e, pn) ⟨f, true, false, false, false⟩ (fun _ => 0#32) r) := by
  have halloc : sysPageAlloc e (pn + 0) (decide (0 * PGSIZE + PGSIZE < 0 + 4)) s
      = .ok true (s.install (e, pn) ⟨f, true, false, false, false⟩ (fun _ => 0#32) r) := by
    rw [Nat.add_zero, sysPageAlloc, run_get_bind, if_neg (Nat.not_le.2 hpn), hf]
    rfl
  rw [mapPages, run_bind_ok halloc, if_pos rfl]
  rfl

/-- With no bytes to place, one page is all that is needed. -/
theorem mallocNew_zero (hm : AtPage (s.mptr e)) : ∃ v s', mallocNew e 0 s = .ok v s' ∧
    (v = 0 ↔ s.free = [] ∨ ∀ pn, Arena pn → s.pt (e, pn) ≠ none) := by
  rw [mallocNew, run_get_bind]
  rcases hm.seek_cases (s := s) (e := e) (n := 0 + 4) with ⟨v, hseek, hv, hfree⟩ | hseek
  · have hpage := isfree_pages hfree hv (by decide) (show 0 < pagesFor (0 + 4) by decide)
    have htop : v / PGSIZE < utopPage := lt_of_lt_of_le hpage.1.2 (by decide)
    rw [hseek, mallocFound, run_modify_bind, show pagesFor (0 + 4) = 1 from rfl]
    cases hf : s.free with
    | nil =>
      obtain ⟨s', hmap⟩ := mapPages_one_nil (s := s.setMptr e v) (e := e) htop hf
      rw [run_bind_ok hmap, if_neg Bool.false_ne_true]
      exact ⟨0, s', rfl, iff_of_true rfl (Or.inl rfl)⟩
    | cons f r =>
      rw [run_bind_ok (mapPages_one_cons (s := s.setMptr e v) (e := e) htop hf), if_pos rfl]
      set t := (s.setMptr e v).install (e, v / PGSIZE) ⟨f, true, false, false, false⟩
        (fun _ => 0#32) r with ht
      have hpt : t.pt (e, v / PGSIZE) = some ⟨f, true, false, false, false⟩ := update_self ..
      have hstore : storeWord e (v / PGSIZE + 1 - 1) refIdx 2#32 t
          = .ok () (t.setWord f refIdx 2#32) := by
        rw [storeWord, run_get_bind, Nat.add_sub_cancel]
        simp only [hpt, if_true]
        rfl
      rw [run_bind_ok hstore, run_modify_bind]
      refine ⟨v, _, rfl, iff_of_false hv.ne_zero ?_⟩
      rintro (h | h)
      · cases h
      · exact h _ hpage.1 hpage.2
  · rw [hseek, mallocFound, run_modify_bind]
    refine ⟨0, _, rfl, iff_of_true rfl (Or.inr fun pn ha hnone => ?_)⟩
    -- a page that is not mapped would have done
    have hat : AtPage (pn * PGSIZE) := by
      refine ⟨?_, ?_, Nat.mul_mod_left _ _⟩
      · have := ha.1
        simp only [mbegin, PGSIZE]
        omega
      · have := ha.2
        simp only [mend, PGSIZE]
        omega
    have hbusy := seek_full _ _ hm hseek _ hat
    have hone : ((pn * PGSIZE + (0 + 4)) % 2 ^ 32 - pn * PGSIZE + (PGSIZE - 1)) / PGSIZE = 1 := by
      have := ha.2
      simp only [PGSIZE]
      omega
    have hpn : pn * PGSIZE / PGSIZE = pn := Nat.mul_div_cancel _ (by decide)
    rw [isfree, hone, hpn] at hbusy
    simp [hnone, hat.hi] at hbusy

/-- **A size that wraps.**  It is taken for 0, and the call returns a pointer if it can. -/
theorem Steady.malloc_wraps (h : Steady s) (hw : Wraps n) (hpage : s.mptr e % PGSIZE = 0) :
    ∃ v s', malloc e n s = .ok v s' ∧
      (v = 0 ↔ s.free = [] ∨ ∀ pn, Arena pn → s.pt (e, pn) ≠ none) := by
  have hat : AtPage (s.cursor e) := (h.cursor e).atPage_cursor hpage
  have hzero : roundUp4 n = 0 := roundUp4_of_wraps hw
  have hrun := malloc_eq (s := s) (e := e) (n := n) (by rw [hzero]; decide)
  rw [hzero, mallocAt, if_neg (not_not.2 hat.page)] at hrun
  rw [hrun]
  split
  · refine mallocNew_zero (s := s.setMptr e mbegin) ?_
    rw [show (s.setMptr e mbegin).mptr e = mbegin from update_self ..]
    exact atPage_mbegin
  · next h0 =>
      have hcur : s.cursor e = s.mptr e := if_neg h0
      exact mallocNew_zero (hcur ▸ hat)

/-- Where the search starts, in a call that is `Sound`. -/
theorem Steady.searchFrom_atPage (h : Steady s) {s₁ : Sys} {N m : ℕ}
    (hroom : N < MAXMALLOC → s.mptr e % PGSIZE = 0 ∨ Fits (s.mptr e) N ∨
      s.mptr e / PGSIZE + 1 < mend / PGSIZE)
    (hs : searchFrom e N s = some (s₁, m)) : AtPage m := by
  rw [searchFrom] at hs
  split_ifs at hs with hno hpage
  · cases hs
    exact (h.cursor e).atPage_cursor (cursor_page.1 hpage)
  · have hopen : s.mptr e % PGSIZE ≠ 0 := cursor_page.not.1 hpage
    rw [not_or, cursor_of_open hopen] at hno
    rw [cursor_of_open hopen] at hs
    obtain ⟨hlo, hhi⟩ := (h.cursor e).range_of_open hopen
    have hnext := ((hroom (Nat.lt_of_not_le hno.1)).resolve_left hopen).resolve_left hno.2
    obtain ⟨hround, hat⟩ := next_page hlo hhi hnext
    split at hs
    · cases hs
      rw [hround]
      exact hat
    · cases hs

/-- The page `malloc` works on is gone. -/
theorem Steady.malloc_unmapped (h : Steady s) (hn : roundUp4 n < MAXMALLOC)
    (hopen : s.mptr e % PGSIZE ≠ 0) (hgone : s.pt (e, s.mptr e / PGSIZE) = none) :
    malloc e n s = .error .pgfault s := by
  have hm0 : s.mptr e ≠ 0 := fun h0 => hopen (by rw [h0]; rfl)
  have hload : loadWord e (s.mptr e / PGSIZE) refIdx s = .error .pgfault s := by
    rw [loadWord, run_get_bind, hgone]
    rfl
  rw [malloc_eq hn, if_neg hm0, cursor_of_open hopen, mallocAt, if_pos hopen]
  split
  · exact run_bind_error hload
  · have hrange := (h.cursor e).range_of_open hopen
    obtain ⟨k, hk⟩ : ∃ k, mend / PGSIZE - s.mptr e / PGSIZE = k + 1 := by
      obtain ⟨-, hhi⟩ := hrange
      refine ⟨mend / PGSIZE - s.mptr e / PGSIZE - 1, ?_⟩
      simp only [mend, PGSIZE] at hhi ⊢
      omega
    have hcont : ¬ s.continued e (s.mptr e / PGSIZE) = true := by
      rw [Sys.continued, hgone]
      exact Bool.false_ne_true
    have hloop : freeLoop e (mend / PGSIZE - s.mptr e / PGSIZE) (s.mptr e / PGSIZE) s
        = .ok (s.mptr e / PGSIZE) s := by
      rw [hk, freeLoop, run_get_bind, if_neg hcont]
      rfl
    have hfree : free e (s.mptr e) s = .error .pgfault s := by
      rw [free, if_neg hm0, if_pos hrange, run_bind_ok hloop, freeRef]
      exact run_bind_error hload
    exact run_bind_error hfree

/-- `malloc` leaves the last page below `mend`, and looks at `mend`. -/
theorem Steady.searchFrom_mend (h : Steady s) {N : ℕ} (hn : N < MAXMALLOC)
    (hopen : s.mptr e % PGSIZE ≠ 0) (hmap : s.pt (e, s.mptr e / PGSIZE) ≠ none)
    (hfit : ¬ Fits (s.mptr e) N) (hlast : ¬ s.mptr e / PGSIZE + 1 < mend / PGSIZE) :
    ∃ s₁, searchFrom e N s = some (s₁, mend) := by
  obtain ⟨c, hc⟩ := Option.ne_none_iff_exists'.1 (words_eq_none.not.2 hmap)
  have ha := (h.cursor e).arena_of_open hopen
  rcases free_mptr h.good (h.cursor e) hopen hc with ⟨s₁, hfree, -⟩ | ⟨hw, -⟩
  · refine ⟨s₁, ?_⟩
    rw [searchFrom, cursor_of_open hopen, if_neg (not_or.2 ⟨Nat.not_le.2 hn, hfit⟩),
      if_neg hopen, hfree]
    have hround : (s.mptr e + PGSIZE) % 2 ^ 32 / PGSIZE * PGSIZE = mend := by
      obtain ⟨hlo, hhi⟩ := (h.cursor e).range_of_open hopen
      simp only [mend, PGSIZE] at hhi hlast ⊢
      omega
    rw [hround]
  · exact absurd (h.plain.writes h.good ha hc) hw

end Calls

/-! ## The calls of a run -/

section Runs

variable {s : Sys} {e : EnvIdx} {l : List ℕ} {n : Word}

theorem Steady.placed (h : Steady s) (hl : s.Supply l) (hs : Sound s (.malloc e n l)) :
    Placed s e n l := by
  obtain ⟨v, s₁, V', m', hok, ha, hout, -⟩ :=
    h.malloc_returns hl (fun hn => (hs hn).1) fun hn => (hs hn).2.1
  have hstart : ∀ s₁ m, searchFrom e (roundUp4 n) { s with free := l } = some (s₁, m) →
      AtPage m := fun s₁ m => (h.refill hl).searchFrom_atPage fun hn => (hs hn).2.1
  refine ⟨⟨v, s₁, hok, ?_⟩, fun s₁ m hsearch => ?_, fun s₁ m hsearch a ha' => ?_⟩
  · by_cases hv : v = 0
    · refine Or.inl ⟨hv, fun pn hpn => ?_⟩
      have hwords : V'.words pn ≠ none := by
        rw [← ha.view]
        exact words_eq_none.not.2 hpn
      exact words_eq_none.not.1 ((hout.maps hwords).resolve_right fun h => h.1 hv)
    · refine Or.inr ⟨hv, ?_⟩
      obtain ⟨hlo, hhi⟩ := (h.cursor e).block_inside hout hv
      refine ⟨hlo, ?_⟩
      by_cases hw : Wraps n
      · have hn : roundUp4 n < MAXMALLOC := by
          rw [roundUp4_of_wraps hw]
          decide
        obtain ⟨hpage, hnone⟩ := (hs hn).2.2 hw
        obtain ⟨v', s', hok', hiff⟩ := (h.refill hl).malloc_wraps (e := e) hw hpage
        rw [hok] at hok'
        cases hok'
        exact absurd (hiff.2 hnone) hv
      · have hle := le_roundUp4_of_not_wraps hw
        omega
  · rcases (hstart s₁ m hsearch).seek_cases (s := s₁) (e := e) (n := roundUp4 n + 4) with
      ⟨m', hseek, -⟩ | hseek
    · rw [hseek]
      exact Seek.noConfusion
    · rw [hseek]
      exact Seek.noConfusion
  · have hat := visited_atPage _ _ _ (hstart s₁ m hsearch) a ha'
    exact ⟨hat.lo, hat.hi⟩

theorem Steady.sound (h : Steady s) (hl : s.Supply l) (hp : Placed s e n l) :
    Sound s (.malloc e n l) := by
  intro hn
  have ht := h.refill hl
  obtain ⟨v, s', hok, hres⟩ := hp.returns
  have hmap : s.mptr e % PGSIZE ≠ 0 → s.pt (e, s.mptr e / PGSIZE) ≠ none := by
    intro hopen hgone
    rw [ht.malloc_unmapped hn hopen hgone] at hok
    cases hok
  have hroom : s.mptr e % PGSIZE = 0 ∨ Fits (s.mptr e) (roundUp4 n) ∨
      s.mptr e / PGSIZE + 1 < mend / PGSIZE := by
    by_contra hno
    simp only [not_or] at hno
    obtain ⟨hopen, hfit, hlast⟩ := hno
    obtain ⟨s₁, hsearch⟩ := ht.searchFrom_mend hn hopen (hmap hopen) hfit hlast
    have hin := hp.inside s₁ mend hsearch mend (mem_visited 0 _)
    exact Nat.lt_irrefl _ hin.2
  refine ⟨hmap, hroom, fun hw => ?_⟩
  have hnull : v = 0 := by
    by_contra hv
    obtain ⟨-, hle⟩ := (hres.resolve_left fun h => hv h.1).2
    simp only [Wraps, mend] at hw hle
    omega
  have hpage : s.mptr e % PGSIZE = 0 := by
    -- in the middle of a page there is room for no bytes
    by_contra hopen
    have hrange := (h.cursor e).range_of_open hopen
    have hfit : Fits (s.mptr e) (roundUp4 n) := by
      have h4 := (h.cursor e).mptr4
      rw [roundUp4_of_wraps hw]
      refine ⟨hopen, ?_⟩
      simp only [mend, PGSIZE] at hrange ⊢
      omega
    obtain ⟨v', s₁, V', m', hok', -, hout, -⟩ := h.malloc_returns hl (fun _ => hmap) fun _ => hroom
    rw [hok] at hok'
    cases hok'
    have hzero : s.mptr e = 0 := by
      cases hout with
      | big hbig => exact absurd hn (Nat.not_lt.2 hbig)
      | fits => exact hnull
      | new _ hp => exact absurd hp hopen
      | leaves _ _ hno => exact absurd hfit hno
    rw [hzero] at hopen
    exact hopen rfl
  obtain ⟨v', s₁, hok', hiff⟩ := ht.malloc_wraps (e := e) hw hpage
  rw [hok] at hok'
  cases hok'
  exact ⟨hpage, hiff.1 hnull⟩

/-- **Where `malloc` finds space.**  From any state of a run of calls that were `Sound`, a
call returns what it should, and its search stays between `mbegin` and `mend`, exactly when
it is `Sound`. -/
theorem malloc_placed_iff {s₀ : Sys} (h₀ : s₀.Start) (hrun : Lts.Run Step Sound s₀ s)
    (hl : s.Supply l) : Placed s e n l ↔ Sound s (.malloc e n l) := by
  have h := Steady.run h₀ hrun
  exact ⟨h.sound hl, h.placed hl⟩

end Runs

/-- After `malloc(5000)`, a call of `malloc(100)` gets the next bytes of the second page. -/
theorem malloc_placed_twoPages : Placed lone env0 5000#32 [1, 2] ∧
    Placed twoPages env0 100#32 [] := by
  have hfirst : Sound lone (.malloc env0 5000#32 [1, 2]) := fun _ =>
    ⟨fun hopen => absurd rfl hopen, Or.inl rfl, fun hw => absurd hw (by decide)⟩
  have hsecond : Sound twoPages (.malloc env0 100#32 []) := fun _ =>
    ⟨fun _ => Option.some_ne_none _, Or.inr (Or.inl ⟨by decide, by decide⟩),
      fun hw => absurd hw (by decide)⟩
  have hsup : lone.Supply [1, 2] := supply_of_empty (fun _ => rfl) (by decide)
  exact ⟨(malloc_placed_iff lone_start .nil hsup).2 hfirst,
    (malloc_placed_iff lone_start (.snoc .nil hfirst twoPages_step) (supply_nil _)).2 hsecond⟩

/-- **A size that wraps.**  The first call, for `2 ^ 32 - 1` bytes, returns a pointer to a
page. -/
theorem malloc_returns_less :
    (∃ s', malloc env0 0xFFFFFFFF#32 { lone with free := [1] } = .ok mbegin s' ∧
      ¬ mbegin + (0xFFFFFFFF#32 : Word).toNat ≤ mend) ∧
    ¬ Placed lone env0 0xFFFFFFFF#32 [1] := by
  have hrun := malloc_first (s := { lone with free := [1] }) (e := env0) (n := 0xFFFFFFFF#32) rfl
    (by decide) (by decide)
  have hzero : roundUp4 0xFFFFFFFF#32 = 0 := by decide
  rw [hzero] at hrun
  have hok : malloc env0 0xFFFFFFFF#32 { lone with free := [1] } = .ok mbegin _ := hrun.trans rfl
  refine ⟨⟨_, hok, by decide⟩, fun hp => ?_⟩
  obtain ⟨v, s', hok', hres⟩ := hp.returns
  rw [hok] at hok'
  cases hok'
  rcases hres with ⟨h0, -⟩ | ⟨-, -, hle⟩
  · exact absurd h0 (by decide)
  · exact absurd hle (by decide)

end Jos.Malloc
