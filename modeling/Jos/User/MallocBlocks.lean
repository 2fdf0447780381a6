import Jos.User.MallocRuns

/-!
# The blocks of a program that does not fork

Along the runs of a program that calls `malloc` and `free` and never forks, with
`sys_page_alloc` failing whenever it likes, what `malloc` returns is a block of its
own, a block keeps its pages until it is freed, and the allocator does not write to
it (`Right`).  One thing can go wrong: the count at the end of a page is a word, and
blocks of no bytes take no space, so more than `2 ^ 32` of them can end on a page.
When `2 ^ 32` references are left, `free` takes them for none.

* `Blocks` — the heap, together with where the blocks lie.
* `Tally` — the references to a page are the blocks that end there, but for one that
  `malloc` forgets.
* `Orderly.run` — every run in which no count is taken for zero.
* `malloc_free_right_iff` — a call is right exactly when it does not.
* `free_takes_many_for_none` — a run in which it does.
-/

namespace Jos.Malloc

open Jos.User Function

/-! ## What the calls are for -/

/-- The address lies in the block. -/
def Block.Has (b : Block) (a : ℕ) : Prop := b.addr ≤ a ∧ a < b.addr + b.size

/-- The address lies in the reference word at the end of the block's last page. -/
def Block.IsCount (b : Block) (a : ℕ) : Prop := a / PGSIZE = b.last ∧ wordIdx a = refIdx

/-- A block that is still in use has the pages it had. -/
def PagesStay (s s' : Sys) : Prop :=
  ∀ e, ∀ b ∈ s.live e, b ∈ s'.live e → ∀ pn, b.Covers pn →
    ∃ p, s.pt (e, pn) = some p ∧ s'.pt (e, pn) = some p

/-- And it has the bytes it had. -/
def BytesStay (s s' : Sys) : Prop :=
  ∀ e, ∀ b ∈ s.live e, b ∈ s'.live e → ∀ a, b.Has a →
    ∃ w, s.wordAt e a = some w ∧ s'.wordAt e a = some w

/-- The new block is `n` bytes of mapped memory that no other block has a part of, and
no count lies in it. -/
structure NewBlock (s s' : Sys) (e : EnvIdx) (n : ℕ) (b : Block) : Prop where
  live : s'.live e = b :: s.live e
  size : n ≤ b.size
  mapped : ∀ a, b.Has a → s'.wordAt e a ≠ none
  alone : ∀ b' ∈ s.live e, ∀ a, b.Has a → ¬ b'.Has a
  count : ∀ b' ∈ s'.live e, ∀ a, b.Has a → ¬ b'.IsCount a

/-- What the calls have to do. -/
def Right (s s' : Sys) : Event → Prop
  | .malloc e n _ => (s'.live e = s.live e ∨ ∃ b, NewBlock s s' e n.toNat b) ∧
      s'.life e = .running ∧ PagesStay s s' ∧ BytesStay s s'
  | .free e b _ => s'.live e = (s.live e).erase b ∧
      s'.life e = .running ∧ PagesStay s s' ∧ BytesStay s s'
  | _ => PagesStay s s'

/-- There is no `fork`, no request is too large, and `malloc` does not have to leave
the last page below `mend`. -/
def Within (s : Sys) : Event → Prop
  | .malloc e n _ => n.toNat < MAXMALLOC ∧ (roundUp4 n < MAXMALLOC →
      s.mptr e % PGSIZE = 0 ∨ Fits (s.mptr e) (roundUp4 n) ∨
        s.mptr e / PGSIZE + 1 < mend / PGSIZE)
  | .fork .. => False
  | _ => True

/-- The blocks that end on a page. -/
def ends (L : List Block) (pn : ℕ) : ℕ := L.countP fun b => b.last = pn

/-- No count is taken for zero.

* `malloc` takes its own reference back when it leaves a page, and the blocks that end
  there are left.
* `free` takes the reference of its block back, and the other blocks that end there
  are left, and `malloc` if it works on the page. -/
def Counted (s : Sys) : Event → Prop
  | .malloc e n _ => roundUp4 n < MAXMALLOC → s.mptr e % PGSIZE ≠ 0 →
      ¬ Fits (s.mptr e) (roundUp4 n) → NoWrap (ends (s.live e) (s.mptr e / PGSIZE))
  | .free e b _ => NoWrap (ends ((s.live e).erase b) b.last + held (s.mptr e) b.last)
  | _ => True

/-! ## References and blocks -/

section Tallies

variable {L G : List Block} {b : Block} {m m' pn : ℕ}

/-- What is counted on a page: the blocks that end there, and one more on the page of a
block that ends with it, which is alone there, or was. -/
def Tally (m : ℕ) (L G : List Block) : Prop :=
  ∀ pn, refs (L ++ G) pn = ends L pn ∨
    refs (L ++ G) pn = ends L pn + 1 ∧ ends L pn ≤ 1 ∧ held m pn = 0

theorem ends_cons (b : Block) (L : List Block) (pn : ℕ) :
    ends (b :: L) pn = (if b.last = pn then 1 else 0) + ends L pn := by
  rw [ends, List.countP_cons, Nat.add_comm]
  simp only [decide_eq_true_eq]
  rfl

theorem ends_erase (hb : b ∈ L) (pn : ℕ) :
    ends L pn = (if b.last = pn then 1 else 0) + ends (L.erase b) pn := by
  rw [ends, (List.perm_cons_erase hb).countP_eq]
  exact ends_cons b (L.erase b) pn

theorem ends_pos : 0 < ends L pn ↔ ∃ b ∈ L, b.last = pn := by
  simp only [ends, List.countP_pos_iff, decide_eq_true_eq]

theorem held_of_page (h : m % PGSIZE = 0) (pn : ℕ) : held m pn = 0 :=
  held_eq_zero.2 fun ho => ho.1 h

theorem Tally.to_page (h : Tally m L G) (hm : m' % PGSIZE = 0) : Tally m' L G :=
  fun pn => (h pn).imp_right fun hp => ⟨hp.1, hp.2.1, held_of_page hm pn⟩

/-- On the page `malloc` works on nothing is forgotten. -/
theorem Tally.of_open (h : Tally m L G) (ho : Open m pn) : refs (L ++ G) pn = ends L pn := by
  refine (h pn).resolve_right fun hp => ?_
  have hone : held m pn = 1 := if_pos ho
  omega

/-- A piece of the page `malloc` works on. -/
theorem Tally.bump (h : Tally m L G) (hb : Open m b.last) (href : b.refs = 1)
    (hsame : ∀ q, held m' q = held m q) : Tally m' (b :: L) G := by
  intro pn
  rw [List.cons_append, refs_cons, ends_cons, hsame]
  by_cases hl : b.last = pn
  · subst hl
    rw [if_pos rfl, if_pos rfl, href, h.of_open hb]
    exact Or.inl rfl
  · rw [if_neg hl, if_neg hl, Nat.zero_add, Nat.zero_add]
    exact h pn

/-- New pages. -/
theorem Tally.take (h : Tally m L G) (hnone : refs (L ++ G) b.last = 0)
    (hheld : ∀ q, q ≠ b.last → held m' q = 0) (hend : b.refs = 2 → held m' b.last = 0) :
    Tally m' (b :: L) G := by
  intro pn
  rw [List.cons_append, refs_cons, ends_cons]
  by_cases hl : b.last = pn
  · subst hl
    have hzero : ends L b.last = 0 := by
      have := h b.last
      omega
    have hrefs := b.refs_pos
    rw [if_pos rfl, if_pos rfl, hnone, hzero]
    by_cases htwo : b.refs = 2
    · exact Or.inr ⟨by omega, by omega, hend htwo⟩
    · exact Or.inl (by omega)
  · rw [if_neg hl, if_neg hl, Nat.zero_add, Nat.zero_add]
    exact (h pn).imp_right fun hp => ⟨hp.1, hp.2.1, hheld pn (Ne.symm hl)⟩

/-- What is left when a block is freed. -/
theorem Tally.freed (h : Tally m L G) (hb : b ∈ L) (pn : ℕ) :
    refs (b.rest ++ (L ++ G).erase b) pn = ends (L.erase b) pn ∨
      refs (b.rest ++ (L ++ G).erase b) pn = ends (L.erase b) pn + 1 ∧
        ends (L.erase b) pn ≤ 1 ∧ held m pn = 0 ∧ (b.last = pn → ends (L.erase b) pn = 0) := by
  have hr := refs_freed (List.mem_append_left G hb) pn
  have he := ends_erase hb pn
  rcases h pn with hp | ⟨hp, hle, hheld⟩
  · left
    omega
  · refine Or.inr ⟨by omega, by omega, hheld, fun hl => ?_⟩
    rw [if_pos hl] at he
    omega

/-- What is left of the block goes with what was left before. -/
theorem freed_perm (hb : b ∈ L) (G : List Block) :
    (b.rest ++ (L ++ G).erase b).Perm (L.erase b ++ (b.rest ++ G)) := by
  rw [List.erase_append_left _ hb, ← List.append_assoc, ← List.append_assoc]
  exact List.perm_append_comm.append_right G

theorem Tally.free (h : Tally m L G) (hb : b ∈ L) : Tally m (L.erase b) (b.rest ++ G) := by
  intro pn
  rw [← refs_perm (freed_perm hb G)]
  exact (h.freed hb pn).imp_right fun hp => ⟨hp.1, hp.2.1, hp.2.2.1⟩

/-- The count tells how many blocks are left, or none is. -/
theorem Tally.noWrap_freed (h : Tally m L G) (hb : b ∈ L) :
    refs (b.rest ++ (L ++ G).erase b) b.last + held m b.last
        = ends (L.erase b) b.last + held m b.last ∨
      refs (b.rest ++ (L ++ G).erase b) b.last + held m b.last = 1 ∧
        ends (L.erase b) b.last + held m b.last = 0 := by
  rcases h.freed hb b.last with hp | ⟨hp, -, hheld, hzero⟩
  · exact Or.inl (by rw [hp])
  · refine Or.inr ⟨?_, ?_⟩
    · rw [hp, hheld, hzero rfl]
    · rw [hheld, hzero rfl]

/-- `malloc` stays on its page when it cuts a piece off. -/
theorem open_piece {n : ℕ} (hopen : m % PGSIZE ≠ 0) (hfit : m / PGSIZE = (m + n + 3) / PGSIZE)
    (hm4 : m % 4 = 0) (hn : n % 4 = 0) :
    (m + n) % PGSIZE ≠ 0 ∧ ∀ q, Open (m + n) q ↔ Open m q := by
  have hmod : (m + n) % PGSIZE ≠ 0 ∧ (m + n) / PGSIZE = m / PGSIZE := by
    simp only [PGSIZE] at hopen hfit ⊢
    omega
  refine ⟨hmod.1, fun q => ?_⟩
  rw [Open, Open, hmod.2]
  exact and_congr_left fun _ => iff_of_true hmod.1 hopen

theorem Tally.piece {n : ℕ} (h : Tally m L G) (hopen : m % PGSIZE ≠ 0)
    (hfit : m / PGSIZE = (m + n + 3) / PGSIZE) (hm4 : m % 4 = 0) (hn : n % 4 = 0) :
    Tally (m + n) (⟨m, n, false⟩ :: L) G := by
  obtain ⟨hmod, hiff⟩ := open_piece hopen hfit hm4 hn
  refine h.bump ⟨hopen, hfit⟩ (if_neg hmod) fun q => ?_
  rw [held, held]
  exact if_congr (hiff q) rfl rfl

theorem Tally.pages {V : View} {n v : ℕ} (h : Tally m L G) (hi : Heap V m (L ++ G))
    (hv : AtPage v) (hn : n % 4 = 0) (hpages : V.Vacant v n) :
    Tally (v + n) (⟨v, n, false⟩ :: L) G := by
  refine h.take ?_ (fun q hq => ?_) fun htwo => ?_
  · refine refs_eq_zero.2 fun b hb hl => hi.pages_clear hv hpages hb (q := b.last) ?_ ?_
    · exact Block.covers_iff.2 (Or.inr hl)
    · exact Block.covers_last _
  · exact held_eq_zero.2 fun ho => hq (hv.open_eq hn ho)
  · refine held_of_page ?_ _
    by_contra hne
    rw [Block.refs, if_neg hne] at htwo
    cases htwo

end Tallies

/-! ## Where the blocks lie -/

/-- No byte is in both. -/
def Clear (b b' : Block) : Prop := ∀ a, b.Has a → ¬ b'.Has a

/-- The word of a view at an address. -/
def View.wordAt (V : View) (a : ℕ) : Option Word := (V.words (a / PGSIZE)).map fun c => c (wordIdx a)

/-- The heap of an environment that has not been forked. -/
structure Blocks (V : View) (m : ℕ) (L : List Block) : Prop where
  heap : ∃ G, Heap V m (L ++ G) ∧ Tally m L G
  clear : L.Pairwise Clear
  /-- `malloc` cuts the next piece off behind the last. -/
  below : ∀ b ∈ L, Open m b.last → b.addr + b.size ≤ m
  whole : ∀ b ∈ L, b.forked = false

variable {a pn : ℕ}

namespace Blocks

variable {V V' : View} {m m' n v : ℕ} {L : List Block} {b : Block} {c : Idx → Word}

theorem blockOk (h : Blocks V m L) (hb : b ∈ L) : BlockOk V b := by
  obtain ⟨G, hi, -⟩ := h.heap
  exact hi.block b (List.mem_append_left G hb)

/-- A piece of the page `malloc` works on. -/
theorem bump (h : Blocks V m L) (hopen : m % PGSIZE ≠ 0)
    (hfit : m / PGSIZE = (m + n + 3) / PGSIZE) (hn : n % 4 = 0)
    (hc : V.words (m / PGSIZE) = some c) :
    Blocks (V.store (m / PGSIZE) (update c refIdx (c refIdx + 1#32))) (m + n)
      (⟨m, n, false⟩ :: L) := by
  obtain ⟨G, hi, ht⟩ := h.heap
  obtain ⟨-, hiff⟩ := open_piece hopen hfit hi.mptr4 hn
  refine ⟨⟨G, hi.bump hopen hfit hn hc, ht.piece hopen hfit hi.mptr4 hn⟩, ?_, ?_, ?_⟩
  · -- a block that has a byte behind `mptr` on this page would be an inner one
    refine List.pairwise_cons.2 ⟨fun b hb a ha ha' => ?_, h.clear⟩
    have hpage : a / PGSIZE = m / PGSIZE := by
      have h1 : m ≤ a := ha.1
      have h2 : a < m + n := ha.2
      simp only [PGSIZE] at hfit ⊢
      omega
    have hcov := ((h.blockOk hb).wordIdx_ne ha'.1 ha'.2).1
    rw [hpage] at hcov
    have hl : m / PGSIZE = b.last := (Block.covers_iff.1 hcov).resolve_left
      ((hi.opened hopen).2 b (List.mem_append_left G hb))
    have hle := h.below b hb ⟨hopen, hl⟩
    have h1 : m ≤ a := ha.1
    have h2 := ha'.2
    omega
  · rw [List.forall_mem_cons]
    refine ⟨fun _ => Nat.le_refl (m + n), fun b hb ho => ?_⟩
    exact (h.below b hb ((hiff _).1 ho)).trans (Nat.le_add_right m n)
  · rw [List.forall_mem_cons]
    exact ⟨rfl, h.whole⟩

/-- `malloc` leaves the page it works on. -/
theorem close (h : Blocks V m L) (hopen : m % PGSIZE ≠ 0) (hc : V.words (m / PGSIZE) = some c)
    (hend : m / PGSIZE + 1 < 0x10000) (hwrap : NoWrap (ends L (m / PGSIZE))) :
    Blocks (V.drop (m / PGSIZE) c) ((m + PGSIZE) / PGSIZE * PGSIZE) L := by
  obtain ⟨G, hi, ht⟩ := h.heap
  have hpage : (m + PGSIZE) / PGSIZE * PGSIZE % PGSIZE = 0 := Nat.mul_mod_left _ _
  rw [← ht.of_open ⟨hopen, rfl⟩] at hwrap
  exact ⟨⟨G, hi.close hopen hc hend hwrap, ht.to_page hpage⟩, h.clear,
    fun b _ ho => absurd hpage ho.1, h.whole⟩

/-- `mptr` moves from page to page. -/
theorem move (h : Blocks V m L) (hm : m % PGSIZE = 0) (hm' : AtPage m') : Blocks V m' L := by
  obtain ⟨G, hi, ht⟩ := h.heap
  exact ⟨⟨G, hi.move hm hm', ht.to_page hm'.page⟩, h.clear, fun b _ ho => absurd hm'.page ho.1,
    h.whole⟩

/-- New pages for a block. -/
theorem take (h : Blocks V m L) (hm : m % PGSIZE = 0) (hv : AtPage v) (hn : n % 4 = 0)
    (hpages : V.Vacant v n) : Blocks (V.taken v n) (v + n) (⟨v, n, false⟩ :: L) := by
  obtain ⟨G, hi, ht⟩ := h.heap
  have hi' := hi.take hm hv hn hpages
  have hok := hi'.block _ (List.mem_cons_self ..)
  refine ⟨⟨G, hi', ht.pages hi hv hn hpages⟩, ?_, ?_, ?_⟩
  · refine List.pairwise_cons.2 ⟨fun b hb a ha ha' => ?_, h.clear⟩
    exact hi.pages_clear hv hpages (List.mem_append_left G hb) (hok.wordIdx_ne ha.1 ha.2).1
      ((h.blockOk hb).wordIdx_ne ha'.1 ha'.2).1
  · rw [List.forall_mem_cons]
    refine ⟨fun _ => Nat.le_refl (v + n), fun b hb ho => ?_⟩
    refine absurd ?_ (hi.pages_clear hv hpages (List.mem_append_left G hb) (q := b.last) ?_)
    · exact Block.covers_last _
    · exact Block.covers_iff.2 (Or.inr (hv.open_eq hn ho))
  · rw [List.forall_mem_cons]
    exact ⟨rfl, h.whole⟩

theorem newPages (hi : Blocks V m L) (hm : m % PGSIZE = 0) (hn : n % 4 = 0)
    (h : NewPages V n v V' m') : Blocks V' m' (if v = 0 then L else ⟨v, n, false⟩ :: L) := by
  cases h with
  | null hm' =>
    rw [if_pos rfl]
    exact hi.move hm hm'
  | take hv hpages =>
    rw [if_neg hv.ne_zero]
    exact hi.take hm hv hn hpages

/-- **`malloc`** keeps the blocks in order. -/
theorem outcome (hi : Blocks V m L) (hn : n % 4 = 0)
    (hwrap : n < MAXMALLOC → m % PGSIZE ≠ 0 → ¬ Fits m n → NoWrap (ends L (m / PGSIZE)))
    (h : Outcome V m n v V' m') : Blocks V' m' (if v = 0 then L else ⟨v, n, false⟩ :: L) := by
  cases h with
  | big =>
    rw [if_pos rfl]
    split
    · next h0 =>
        refine hi.move ?_ atPage_mbegin
        rw [h0]
        rfl
    · exact hi
  | fits hlt hfit hc =>
    have hne : m ≠ 0 := by
      rintro rfl
      exact hfit.1 rfl
    obtain ⟨G, hheap, -⟩ := hi.heap
    rw [if_neg hne]
    exact hi.bump hfit.1 (hheap.fits_page hlt hfit) hn hc
  | new _ hm hpages => exact hi.newPages hm hn hpages
  | leaves hlt hopen hfit hnext hc hpages =>
    have hend : mend / PGSIZE = 0x10000 := by decide
    rw [hend] at hnext
    exact (hi.close hopen hc hnext (hwrap hlt hopen hfit)).newPages (Nat.mul_mod_left _ _) hn
      hpages

/-- `free`. -/
theorem free (h : Blocks V m L) (hb : b ∈ L) (hc : V.words b.last = some c)
    (hwrap : NoWrap (ends (L.erase b) b.last + held m b.last)) :
    Blocks (V.freed b c) m (L.erase b) := by
  obtain ⟨G, hi, ht⟩ := h.heap
  have hmem : ∀ b' ∈ L.erase b, b' ∈ L := fun b' hb' => List.mem_of_mem_erase hb'
  have hwrap' : NoWrap (refs (b.rest ++ (L ++ G).erase b) b.last + held m b.last) := by
    rcases ht.noWrap_freed hb with heq | ⟨heq, -⟩
    · rwa [heq]
    · rw [heq]
      decide
  refine ⟨⟨b.rest ++ G, (hi.free (List.mem_append_left G hb) hc hwrap').perm (freed_perm hb G),
      ht.free hb⟩, ?_, fun b' hb' => h.below b' (hmem b' hb'), fun b' hb' => h.whole b' (hmem b' hb')⟩
  exact h.clear.sublist List.erase_sublist

/-- A store to a word of a block. -/
theorem write (h : Blocks V m L) (hb : b ∈ L) (ha : b.Has a) {w : Word}
    (hc : V.words (a / PGSIZE) = some c) :
    Blocks (V.store (a / PGSIZE) (update c (wordIdx a) w)) m L := by
  obtain ⟨G, hi, ht⟩ := h.heap
  obtain ⟨hcov, hidx⟩ := (h.blockOk hb).wordIdx_ne ha.1 ha.2
  refine ⟨⟨G, hi.write hc fun hno => hidx ?_, ht⟩, h.clear, h.below, h.whole⟩
  exact (Block.covers_iff.1 hcov).resolve_left (hno b (List.mem_append_left G hb))

/-! ### What the blocks hold -/

theorem wordAt_ne_none (h : Blocks V m L) (hb : b ∈ L) (ha : b.Has a) : V.wordAt a ≠ none := by
  have hok := h.blockOk hb
  rw [View.wordAt, Ne, Option.map_eq_none_iff]
  exact hok.mapped _ (hok.wordIdx_ne ha.1 ha.2).1

theorem keeps_word (h : Blocks V m L) (hb : b ∈ L) (ha : b.Has a)
    (hkeep : V'.wordAt a = V.wordAt a) : ∃ w, V.wordAt a = some w ∧ V'.wordAt a = some w := by
  obtain ⟨w, hw⟩ := Option.ne_none_iff_exists'.1 (h.wordAt_ne_none hb ha)
  exact ⟨w, hw, hkeep.trans hw⟩

/-- A count is not part of a block. -/
theorem not_isCount (h : Blocks V m L) (hb : b ∈ L) {b' : Block} (hb' : b' ∈ L) (ha : b.Has a) :
    ¬ b'.IsCount a := by
  rintro ⟨hl, hidx⟩
  obtain ⟨G, hi, -⟩ := h.heap
  obtain ⟨hcov, hne⟩ := (h.blockOk hb).wordIdx_ne ha.1 ha.2
  refine hne ((Block.covers_iff.1 hcov).resolve_left ?_) hidx
  rw [hl]
  exact hi.last_not_inner (List.mem_append_left G hb') b (List.mem_append_left G hb)

/-- Only a count changes on a page that stays. -/
theorem wordAt_keeps (h : Blocks V m L) (hb : b ∈ L) (ha : b.Has a) (hpn : ∀ b ∈ L, ¬ b.Inner pn)
    {w : Word} (hc : V.words pn = some c)
    (hw : V'.words (a / PGSIZE)
      = if a / PGSIZE = pn then some (update c refIdx w) else V.words (a / PGSIZE)) :
    V'.wordAt a = V.wordAt a := by
  obtain ⟨hcov, hne⟩ := (h.blockOk hb).wordIdx_ne ha.1 ha.2
  rw [View.wordAt, View.wordAt, hw]
  split
  · next heq =>
      have hl : a / PGSIZE = b.last :=
        (Block.covers_iff.1 hcov).resolve_left (heq ▸ hpn b hb)
      rw [heq, hc, Option.map_some, Option.map_some, update_of_ne (hne hl)]
  · rfl

/-- The page of an address in the block stays. -/
theorem drop_keeps (h : Blocks V m L) (hb : b ∈ L) (ha : b.Has a) (hpn : ∀ b ∈ L, ¬ b.Inner pn)
    (hc : V.words pn = some c) (hmap : (V.drop pn c).words (a / PGSIZE) ≠ none) :
    (V.drop pn c).wordAt a = V.wordAt a := by
  refine h.wordAt_keeps hb ha hpn hc (w := c refIdx - 1#32) ?_
  rw [View.drop_words] at hmap ⊢
  split at hmap
  · split at hmap
    · exact absurd rfl hmap
    · next heq hz => rw [if_pos heq, if_neg hz, if_pos heq]
  · next heq => rw [if_neg heq, if_neg heq]

theorem newPages_keeps (hi : Blocks V m L) (h : NewPages V n v V' m') (hb : b ∈ L) (ha : b.Has a) :
    V'.wordAt a = V.wordAt a := by
  cases h with
  | null => rfl
  | take hv hpages =>
    have hok := hi.blockOk hb
    have hmem := (hok.wordIdx_ne ha.1 ha.2).1
    have hout : ¬ (⟨v, n, false⟩ : Block).Covers (a / PGSIZE) := fun hcov =>
      hok.mapped _ hmem (hv.vacant hpages hcov).2
    have hlast : a / PGSIZE ≠ (⟨v, n, false⟩ : Block).last := fun heq =>
      hout (heq ▸ Block.covers_last _)
    change ((V.taken v n).words (a / PGSIZE)).map _ = _
    rw [hv.taken_words, if_neg hlast, if_neg hout]
    rfl

/-- **`malloc`** does not write to a block. -/
theorem outcome_keeps (hi : Blocks V m L)
    (hwrap : n < MAXMALLOC → m % PGSIZE ≠ 0 → ¬ Fits m n → NoWrap (ends L (m / PGSIZE)))
    (h : Outcome V m n v V' m') (hb : b ∈ L) (ha : b.Has a) : V'.wordAt a = V.wordAt a := by
  obtain ⟨G, hheap, -⟩ := hi.heap
  have hout : m % PGSIZE ≠ 0 → ∀ b ∈ L, ¬ b.Inner (m / PGSIZE) := fun hopen b hb =>
    (hheap.opened hopen).2 b (List.mem_append_left G hb)
  cases h with
  | big => rfl
  | fits _ hfit hc => exact hi.wordAt_keeps hb ha (hout hfit.1) hc (View.store_words ..)
  | new _ _ hpages => exact hi.newPages_keeps hpages hb ha
  | leaves hlt hopen hfit hnext hc hpages =>
    have hend : mend / PGSIZE = 0x10000 := by decide
    rw [hend] at hnext
    have hclose := hi.close hopen hc hnext (hwrap hlt hopen hfit)
    have hok := hclose.blockOk hb
    rw [hclose.newPages_keeps hpages hb ha]
    exact hi.drop_keeps hb ha (hout hopen) hc (hok.mapped _ (hok.wordIdx_ne ha.1 ha.2).1)

/-- **`free`** does not write to another block. -/
theorem free_keeps (h : Blocks V m L) (hb : b ∈ L) (hc : V.words b.last = some c)
    (hwrap : NoWrap (ends (L.erase b) b.last + held m b.last)) {b' : Block} (hb' : b' ∈ L.erase b)
    (ha : b'.Has a) : (V.freed b c).wordAt a = V.wordAt a := by
  obtain ⟨G, hi, -⟩ := h.heap
  have hmem : b' ∈ L := List.mem_of_mem_erase hb'
  have hok := (h.free hb hc hwrap).blockOk hb'
  have hmap := hok.mapped _ (hok.wordIdx_ne ha.1 ha.2).1
  have hout : ∀ b' ∈ L, ¬ b'.Inner b.last := fun b' hb' =>
    hi.last_not_inner (List.mem_append_left G hb) b' (List.mem_append_left G hb')
  refine h.wordAt_keeps hmem ha hout hc (w := c refIdx - 1#32) ?_
  rw [Heap.freed_words] at hmap ⊢
  split at hmap
  · split at hmap
    · exact absurd rfl hmap
    · next heq hz => rw [if_pos heq, if_neg hz, if_pos heq]
  · split at hmap
    · exact absurd rfl hmap
    · next heq hcov => rw [if_neg heq, if_neg hcov, if_neg heq]

end Blocks

/-! ## Runs -/

/-- What holds in every run in which no count is taken for zero. -/
structure Orderly (s : Sys) : Prop where
  good : Good s
  plain : Plain s
  blocks : ∀ e, s.life e = .running → Blocks (s.view e) (s.mptr e) (s.live e)
  idle : ∀ e, s.life e ≠ .running → s.live e = []

namespace Orderly

variable {s s' : Sys} {e : EnvIdx} {b : Block} {l : List ℕ} {n : Word}

theorem start (h : s.Start) : Orderly s := by
  have hinv := Inv.start h
  refine ⟨hinv.good, fun e pn p ha hp => ?_, fun e he => ?_, hinv.idle⟩
  · rw [h.arena e pn ha] at hp
    cases hp
  · have hheap := (hinv.heap e he).toHeap
    rw [h.live] at hheap ⊢
    refine ⟨⟨[], hheap, fun pn => Or.inl rfl⟩, .nil, ?_, ?_⟩
    · exact fun b hb => absurd hb List.not_mem_nil
    · exact fun b hb => absurd hb List.not_mem_nil

theorem running (h : Orderly s) (hb : b ∈ s.live e) : s.life e = .running := by
  by_contra hne
  rw [h.idle e hne] at hb
  exact absurd hb List.not_mem_nil

/-- A call that returns. -/
theorem returns (h : Orderly s) (hrun : s.life e = .running) (hg : Good s') (hp : Plain s')
    (ho : Only e s s') {L : List Block} (hi : Blocks (s'.view e) (s'.mptr e) L) :
    Orderly (s'.setLive e L) := by
  refine ⟨hg.mono (fun _ _ hq => hq) rfl, hp, fun e' he' => ?_, fun e' he' => ?_⟩
  · change s'.life e' = .running at he'
    by_cases hee : e' = e
    · subst hee
      rw [setLive_self]
      exact hi
    · rw [ho.life] at he'
      have hold := h.blocks e' he'
      rw [setLive_of_ne hee, ho.live]
      change Blocks (s'.view e') (s'.mptr e') _
      rw [ho.view e' hee, ho.mptr e' hee]
      exact hold
  · change s'.life e' ≠ .running at he'
    rw [ho.life] at he'
    have hee : e' ≠ e := by
      rintro rfl
      exact he' hrun
    rw [setLive_of_ne hee, ho.live]
    exact h.idle e' he'

theorem exit (h : Orderly s) : Orderly (s.exit e) := by
  refine ⟨h.good.mono (fun x q hq => pt_of_exit hq) rfl,
    fun e' pn q ha hq => h.plain e' pn q ha (pt_of_exit hq), fun e' he' => ?_, fun e' he' => ?_⟩
  · have hee : e' ≠ e := ne_of_exit he'
    rw [exit_life hee] at he'
    rw [exit_view hee, exit_live hee]
    exact h.blocks e' he'
  · by_cases hee : e' = e
    · rw [hee]
      exact update_self ..
    · rw [exit_life hee] at he'
      rw [exit_live hee]
      exact h.idle e' he'

/-- What `malloc` does in the runs. -/
theorem malloc_returns (h : Orderly s) (hrun : s.life e = .running) (hl : s.Supply l)
    (hw : Within s (.malloc e n l)) : ∃ v s₁ V' m',
      malloc e n { s with free := l } = .ok v s₁ ∧ Acts e { s with free := l } s₁ V' m' ∧
      Outcome (s.view e) (s.mptr e) (roundUp4 n) v V' m' ∧
      Remaps (Left s e (roundUp4 n)) { s with free := l } s₁ := by
  obtain ⟨G, hi, -⟩ := (h.blocks e hrun).heap
  rcases malloc_ends (s := { s with free := l }) (h.good.refill hl) hi hw.2 with
    ⟨v, s₁, V', m', hok, ha, hout, hmaps⟩ | ⟨hno, -⟩
  · exact ⟨v, s₁, V', m', hok, ha, hout, hmaps h.plain⟩
  · exact absurd h.plain hno

/-- What `free` does in the runs. -/
theorem free_returns (h : Orderly s) (hl : s.Supply l) (hb : b ∈ s.live e) :
    ∃ c s₁, s.words (e, b.last) = some c ∧ free e b.addr { s with free := l } = .ok () s₁ ∧
      Acts e { s with free := l } s₁
        ((s.view e).freed b c) (s.mptr e) ∧
      Remaps (fun x => s₁.words x = none) { s with free := l } s₁ := by
  have hblocks := h.blocks e (h.running hb)
  obtain ⟨G, hi, -⟩ := hblocks.heap
  have hg := h.good.refill hl
  obtain ⟨c, hc, hor⟩ := free_inv (s := { s with free := l }) hg hi (List.mem_append_left G hb)
    (Or.inr (hblocks.whole b hb))
  rcases hor with ⟨s₁, hok, ha⟩ | ⟨hno, -, -⟩
  · exact ⟨c, s₁, hc, hok, ha, free_remaps (s := { s with free := l }) h.plain hok⟩
  · have hlast := (hblocks.blockOk hb).arena (Block.covers_last _)
    have hp : Plain { s with free := l } := h.plain
    exact absurd (hp.writes hg hlast hc) hno

/-- What a store to a block does in the runs. -/
theorem write_returns (h : Orderly s) (hl : s.Supply l) (hb : b ∈ s.live e) (ha : b.Has a)
    (w : Word) : ∃ c s₁, s.words (e, a / PGSIZE) = some c ∧
      storeWord e (a / PGSIZE) (wordIdx a) w { s with free := l } = .ok () s₁ ∧
      Acts e { s with free := l } s₁
        ((s.view e).store (a / PGSIZE) (update c (wordIdx a) w)) (s.mptr e) ∧
      s₁.pt = s.pt := by
  have hok := (h.blocks e (h.running hb)).blockOk hb
  obtain ⟨hcov, -⟩ := hok.wordIdx_ne ha.1 ha.2
  obtain ⟨c, hc⟩ := Option.ne_none_iff_exists'.1 (hok.mapped _ hcov)
  have hg := h.good.refill hl
  have hp : Plain { s with free := l } := h.plain
  rcases storeWord_acts hg (hok.arena hcov) hc (wordIdx a) w with ⟨s₁, hst, hacts⟩ | ⟨hno, -, -⟩
  · exact ⟨c, s₁, hc, hst, hacts, ((wp_of_ok hst).1 (wp_storeWord hp (hok.arena hcov))).1⟩
  · exact absurd (hp.writes hg (hok.arena hcov) hc) hno

/-! Calls return in the runs, so this is what their steps are. -/

theorem malloc_step (h : Orderly s) (hw : Within s (.malloc e n l))
    (hs : Step s (.malloc e n l) s') :
    s.life e = .running ∧ s.Supply l ∧ ∃ v t V' m', s' = t.enter e v (roundUp4 n) ∧
      Acts e { s with free := l } t V' m' ∧
      Outcome (s.view e) (s.mptr e) (roundUp4 n) v V' m' ∧
      Remaps (Left s e (roundUp4 n)) { s with free := l } t := by
  cases hs with
  | malloc hrun hl hok =>
    obtain ⟨v, s₁, V', m', hm, hrest⟩ := h.malloc_returns hrun hl hw
    rw [hm] at hok
    cases hok
    exact ⟨hrun, hl, _, _, V', m', rfl, hrest⟩
  | mallocPanic hrun hl hok =>
    obtain ⟨v, s₁, V', m', hm, -⟩ := h.malloc_returns hrun hl hw
    rw [hm] at hok
    cases hok

theorem free_step (h : Orderly s) (hs : Step s (.free e b l) s') :
    s.life e = .running ∧ b ∈ s.live e ∧ ∃ c t, s' = t.strike e b ∧
      s.words (e, b.last) = some c ∧
      Acts e { s with free := l } t ((s.view e).freed b c) (s.mptr e) ∧
      Remaps (fun x => t.words x = none) { s with free := l } t := by
  cases hs with
  | free hrun hl hb hok =>
    obtain ⟨c, s₁, hcw, hf, hrest⟩ := h.free_returns hl hb
    rw [hf] at hok
    cases hok
    exact ⟨hrun, hb, c, _, rfl, hcw, hrest⟩
  | freePanic hrun hl hb hok =>
    obtain ⟨c, s₁, -, hf, -⟩ := h.free_returns hl hb
    rw [hf] at hok
    cases hok

theorem write_step (h : Orderly s) {w : Word} (hs : Step s (.write e b a w l) s') :
    s.life e = .running ∧ b ∈ s.live e ∧ b.Has a ∧ ∃ c, s.words (e, a / PGSIZE) = some c ∧
      Acts e { s with free := l } s'
        ((s.view e).store (a / PGSIZE) (update c (wordIdx a) w)) (s.mptr e) ∧
      s'.pt = s.pt := by
  cases hs with
  | write hrun hl hb hlo hhi hok =>
    obtain ⟨c, s₁, hcw, hst, hrest⟩ := h.write_returns hl hb ⟨hlo, hhi⟩ w
    rw [hst] at hok
    cases hok
    exact ⟨hrun, hb, ⟨hlo, hhi⟩, c, hcw, hrest⟩
  | writePanic hrun hl hb hlo hhi hok =>
    obtain ⟨c, s₁, -, hst, -⟩ := h.write_returns hl hb ⟨hlo, hhi⟩ w
    rw [hst] at hok
    cases hok

theorem step (h : Orderly s) {ev : Event} (hw : Within s ev) (hc : Counted s ev)
    (hs : Step s ev s') : Orderly s' := by
  cases ev with
  | malloc e n l =>
    obtain ⟨hrun, -, v, t, V', m', rfl, ha, hout, hmaps⟩ := h.malloc_step hw hs
    rw [Sys.enter, ha.only.live]
    refine h.returns hrun ha.good (hmaps.plain h.plain) ha.only.refilled ?_
    rw [ha.view, ha.mptr]
    exact (h.blocks _ hrun).outcome (Nat.mul_mod_left _ _) hc hout
  | free e b l =>
    obtain ⟨hrun, hb, c, t, rfl, hcw, ha, hmaps⟩ := h.free_step hs
    rw [Sys.strike, ha.only.live]
    refine h.returns hrun ha.good (hmaps.plain h.plain) ha.only.refilled ?_
    rw [ha.view, ha.mptr]
    exact (h.blocks _ hrun).free hb hcw hc
  | write e b a w l =>
    obtain ⟨hrun, hb, hba, c, hcw, ha, hpt⟩ := h.write_step hs
    have hplain : Plain s' := by
      rw [Plain, hpt]
      exact h.plain
    have hi : Blocks (s'.view e) (s'.mptr e) (s.live e) := by
      rw [ha.view, ha.mptr]
      exact (h.blocks e hrun).write hb hba hcw
    have hres := h.returns hrun ha.good hplain ha.only.refilled hi
    have hlive : s'.live = s.live := ha.only.live
    rwa [← hlive, setLive_live] at hres
  | fork => exact hw.elim
  | exit e =>
    cases hs
    exact h.exit

theorem run {s₀ : Sys} (h₀ : s₀.Start)
    (hrun : Lts.Run Step (fun s ev => Within s ev ∧ Counted s ev) s₀ s) : Orderly s :=
  hrun.inv (start h₀) fun _ _ _ hi hc hs => hi.step hc.1 hc.2 hs

end Orderly

/-! ## The calls in the runs -/

section Calls

variable {s s' : Sys} {e : EnvIdx} {b : Block} {l : List ℕ} {n : Word}

/-- The blocks of the other environments are as they were. -/
theorem Orderly.elsewhere (h : Orderly s) {s₁ : Sys} (ho : Only e s s₁) {e' : EnvIdx} (he : e' ≠ e)
    (hb : b ∈ s.live e') :
    (∀ pn, b.Covers pn → s.words (e', pn) ≠ none ∧ s₁.words (e', pn) ≠ none) ∧
      ∀ a, b.Has a → ∃ w, s.wordAt e' a = some w ∧ s₁.wordAt e' a = some w := by
  have hblocks := h.blocks e' (h.running hb)
  have hsame : ∀ q, s₁.words (e', q) = s.words (e', q) := fun q =>
    congrFun (congrArg View.words (ho.view e' he)) q
  refine ⟨fun pn hpn => ?_, fun a ha => ?_⟩
  · have hmap : s.words (e', pn) ≠ none := (hblocks.blockOk hb).mapped pn hpn
    exact ⟨hmap, hsame pn ▸ hmap⟩
  · obtain ⟨w, hw⟩ := Option.ne_none_iff_exists'.1 (hblocks.wordAt_ne_none hb ha)
    refine ⟨w, hw, ?_⟩
    rw [Sys.wordAt, hsame]
    exact hw

/-- The entry of a page of a block. -/
theorem Orderly.pte (h : Orderly s) (hb : b ∈ s.live e) (hcov : b.Covers pn) :
    ∃ p, s.pt (e, pn) = some p := by
  obtain ⟨c, hc⟩ :=
    Option.ne_none_iff_exists'.1 (((h.blocks e (h.running hb)).blockOk hb).mapped pn hcov)
  obtain ⟨p, hp, -⟩ := words_eq_some hc
  exact ⟨p, hp⟩

theorem le_roundUp4 (h : n.toNat < MAXMALLOC) : n.toNat ≤ roundUp4 n := by
  rw [MAXMALLOC] at h
  rw [roundUp4]
  omega

/-- Blocks end on the page `malloc` leaves, and their count is taken for zero. -/
theorem Orderly.left_iff (h : Orderly s) (hrun : s.life e = .running)
    (hlt : roundUp4 n < MAXMALLOC) (hopen : s.mptr e % PGSIZE ≠ 0)
    (hfit : ¬ Fits (s.mptr e) (roundUp4 n)) :
    Left s e (roundUp4 n) (e, s.mptr e / PGSIZE) ↔
      ends (s.live e) (s.mptr e / PGSIZE) % 2 ^ 32 = 0 := by
  obtain ⟨G, hi, ht⟩ := (h.blocks e hrun).heap
  obtain ⟨c, hc⟩ := Option.ne_none_iff_exists'.1 (hi.opened hopen).1
  have hcount := (hi.count_open hopen hc).2
  rw [ht.of_open ⟨hopen, rfl⟩] at hcount
  have hone : c refIdx = 1#32 ↔ ends (s.live e) (s.mptr e / PGSIZE) % 2 ^ 32 = 0 := by
    rw [← ofNat_eq_zero_iff, ← ofNat_succ_sub_one (ends (s.live e) (s.mptr e / PGSIZE)), ← hcount]
    exact sub_eq_zero.symm
  rw [← hone]
  constructor
  · rintro ⟨-, -, -, -, d, hd, hd1⟩
    have heq : some c = some d := hc.symm.trans hd
    cases heq
    exact hd1
  · exact fun hc1 => ⟨hlt, hopen, hfit, rfl, c, hc, hc1⟩

/-- **`malloc`**, in a state that is in order. -/
theorem Orderly.malloc_right (h : Orderly s) (hw : Within s (.malloc e n l))
    (hc : Counted s (.malloc e n l)) (hs : Step s (.malloc e n l) s') :
    Right s s' (.malloc e n l) := by
  have h' := h.step hw hc hs
  obtain ⟨hrun, -, v, t, V', m', rfl, ha, hout, hmaps⟩ := h.malloc_step hw hs
  have hblocks := h.blocks e hrun
  have hlive : t.live = s.live := ha.only.live
  have hlife : t.life e = .running := (congrFun ha.only.life e).trans hrun
  have hkeep : ∀ e', ∀ b ∈ s.live e', ∀ pn, b.Covers pn →
      ¬ Left s e (roundUp4 n) (e', pn) := by
    rintro e' b hb pn hcov hleft
    obtain ⟨hlt, hopen, hfit, hx, -⟩ := id hleft
    cases hx
    obtain ⟨G, hi, -⟩ := hblocks.heap
    have hl : s.mptr e / PGSIZE = b.last := (Block.covers_iff.1 hcov).resolve_left
      ((hi.opened hopen).2 b (List.mem_append_left G hb))
    have hpos : 0 < ends (s.live e) (s.mptr e / PGSIZE) := ends_pos.2 ⟨b, hb, hl.symm⟩
    have hmod := (h.left_iff hrun hlt hopen hfit).1 hleft
    exact (hc hlt hopen hfit).elim (fun h0 => by omega) fun hne => hne hmod
  refine ⟨?_, hlife, fun e' b hb _ pn hcov => ?_, fun e' b hb _ a hba => ?_⟩
  · by_cases hv : v = 0
    · left
      rw [Sys.enter, setLive_self, if_pos hv, hlive]
    · right
      have hnew : (t.enter e v (roundUp4 n)).live e
          = ⟨v, roundUp4 n, false⟩ :: s.live e := by
        rw [Sys.enter, setLive_self, if_neg hv, hlive]
      have hblocks' := h'.blocks e hlife
      rw [hnew] at hblocks'
      have hmem : (⟨v, roundUp4 n, false⟩ : Block) ∈ ⟨v, roundUp4 n, false⟩ :: s.live e :=
        List.mem_cons_self ..
      refine ⟨_, hnew, le_roundUp4 hw.1, fun a hba => hblocks'.wordAt_ne_none hmem hba,
        fun b' hb' a hba => (List.pairwise_cons.1 hblocks'.clear).1 b' hb' a hba,
        fun b' hb' a hba => ?_⟩
      rw [hnew] at hb'
      exact hblocks'.not_isCount hmem hb' hba
  · obtain ⟨p, hp⟩ := h.pte hb hcov
    exact ⟨p, hp, hmaps.keeps _ p hp (hkeep e' b hb pn hcov)⟩
  · by_cases he : e' = e
    · subst he
      refine hblocks.keeps_word hb hba (?_ : (t.view e').wordAt a = _)
      rw [ha.view]
      exact hblocks.outcome_keeps hc hout hb hba
    · exact (h.elsewhere ha.only.refilled he hb).2 a hba

/-- `malloc` leaves a page with blocks, and their count is taken for zero. -/
theorem Orderly.malloc_wrong (h : Orderly s) (hw : Within s (.malloc e n l))
    (hc : ¬ Counted s (.malloc e n l)) (hs : Step s (.malloc e n l) s') : ¬ PagesStay s s' := by
  simp only [Counted, Classical.not_imp, NoWrap, not_or, not_not] at hc
  obtain ⟨hlt, hopen, hfit, hpos, hmod⟩ := hc
  intro hstay
  obtain ⟨hrun, hl, v, t, V', m', rfl, ha, -, hmaps⟩ := h.malloc_step hw hs
  have hleft := (h.left_iff hrun hlt hopen hfit).2 hmod
  obtain ⟨b, hb, hlast⟩ := ends_pos.1 (Nat.pos_of_ne_zero hpos)
  have hlive : t.live = s.live := ha.only.live
  have hb' : b ∈ (t.enter e v (roundUp4 n)).live e := by
    rw [Sys.enter, setLive_self, hlive]
    split
    · exact hb
    · exact List.mem_cons_of_mem _ hb
  obtain ⟨p, hp, hp'⟩ := hstay e b hb hb' _ (Block.covers_iff.2 (Or.inr hlast.symm))
  exact hmaps.gone_ne (h.good.refill hl) hp hleft hp'

/-- **`free`**, in a state that is in order. -/
theorem Orderly.free_right (h : Orderly s) (hc : Counted s (.free e b l))
    (hs : Step s (.free e b l) s') : Right s s' (.free e b l) := by
  obtain ⟨hrun, hb, c, t, rfl, hcw, ha, hmaps⟩ := h.free_step hs
  have hblocks := h.blocks e hrun
  have hfreed := hblocks.free hb hcw hc
  have hlive : (t.strike e b).live e = (s.live e).erase b := by
    rw [Sys.strike, setLive_self, ha.only.live]
  have hlife : t.life e = .running := (congrFun ha.only.life e).trans hrun
  refine ⟨hlive, hlife, fun e' b' hb' hb'' pn hcov => ?_, fun e' b' hb' hb'' a hba => ?_⟩
  · obtain ⟨p, hp⟩ := h.pte hb' hcov
    refine ⟨p, hp, hmaps.keeps _ p hp ?_⟩
    by_cases he : e' = e
    · subst he
      rw [hlive] at hb''
      have hwords : t.words (e', pn) = _ := congrFun (congrArg View.words ha.view) pn
      rw [hwords]
      exact (hfreed.blockOk hb'').mapped pn hcov
    · exact ((h.elsewhere ha.only.refilled he hb').1 pn hcov).2
  · by_cases he : e' = e
    · subst he
      rw [hlive] at hb''
      refine hblocks.keeps_word hb' hba (?_ : (t.view e').wordAt a = _)
      rw [ha.view]
      exact hblocks.free_keeps hb hcw hc hb'' hba
    · exact (h.elsewhere ha.only.refilled he hb').2 a hba

/-- The page of other blocks goes when their count is taken for zero. -/
theorem Orderly.free_wrong (h : Orderly s) (hc : ¬ Counted s (.free e b l))
    (hs : Step s (.free e b l) s') :
    s'.words (e, b.last) = none ∧ s'.live e = (s.live e).erase b ∧
      0 < ends ((s.live e).erase b) b.last := by
  rw [Counted, NoWrap, not_or, not_not] at hc
  obtain ⟨hpos, hmod⟩ := hc
  obtain ⟨hrun, hb, c, t, rfl, hcw, ha, -⟩ := h.free_step hs
  obtain ⟨G, hi, ht⟩ := (h.blocks e hrun).heap
  have hcount := hi.count_freed (List.mem_append_left G hb) hcw
  rw [(ht.noWrap_freed hb).resolve_right fun hp => hpos hp.2] at hcount
  have hzero : c refIdx - 1#32 = 0#32 := hcount.trans (ofNat_eq_zero_iff.2 hmod)
  refine ⟨?_, ?_, ?_⟩
  · have hwords : t.words (e, b.last) = _ := congrFun (congrArg View.words ha.view) b.last
    show t.words (e, b.last) = none
    rw [hwords, Heap.freed_words, if_pos rfl, if_pos hzero]
  · rw [Sys.strike, setLive_self, ha.only.live]
  · have hle := held_le (s.mptr e) b.last
    omega

/-- **The blocks of a program that does not fork.**  From any state of a run in which no
count has been taken for zero, a call does what it is for exactly when it does not take
a count for zero either. -/
theorem malloc_free_right_iff {s₀ : Sys} (h₀ : s₀.Start)
    (hrun : Lts.Run Step (fun s ev => Within s ev ∧ Counted s ev) s₀ s) {ev : Event}
    (hw : Within s ev) (hs : Step s ev s') : Right s s' ev ↔ Counted s ev := by
  have h := Orderly.run h₀ hrun
  cases ev with
  | malloc e n l =>
    refine ⟨fun hr => ?_, fun hc => h.malloc_right hw hc hs⟩
    by_contra hc
    exact h.malloc_wrong hw hc hs hr.2.2.1
  | free e b l =>
    refine ⟨fun hr => ?_, fun hc => h.free_right hc hs⟩
    by_contra hc
    obtain ⟨hnone, hlive, hpos⟩ := h.free_wrong hc hs
    obtain ⟨b', hb', hlast⟩ := ends_pos.1 hpos
    obtain ⟨p, -, hp⟩ := hr.2.2.1 e b' (List.mem_of_mem_erase hb') (hlive ▸ hb') b.last
      (Block.covers_iff.2 (Or.inr hlast.symm))
    rw [words_eq_none, hp] at hnone
    cases hnone
  | write e b a w l =>
    refine iff_of_true (fun e' b' hb' hb'' pn hcov => ?_) trivial
    obtain ⟨p, hp⟩ := h.pte hb' hcov
    obtain ⟨-, -, -, c, -, -, hpt⟩ := h.write_step hs
    exact ⟨p, hp, by rw [hpt, hp]⟩
  | fork => exact hw.elim
  | exit e =>
    refine iff_of_true (fun e' b' hb' hb'' pn hcov => ?_) trivial
    obtain ⟨p, hp⟩ := h.pte hb' hcov
    refine ⟨p, hp, ?_⟩
    cases hs with
    | exit hlife =>
      have he : e' ≠ e := by
        rintro rfl
        rw [show (s.exit e').live e' = [] from update_self ..] at hb''
        exact absurd hb'' List.not_mem_nil
      rw [exit_pt he, hp]

end Calls

/-! ### A block of two pages, and very many of no bytes -/

theorem lone_within : Within lone (.malloc env0 5000#32 [1, 2]) :=
  ⟨by decide, fun _ => Or.inl rfl⟩

theorem lone_counted : Counted lone (.malloc env0 5000#32 [1, 2]) :=
  fun _ hopen => absurd rfl hopen

theorem twoPages_orderly_run :
    Lts.Run Step (fun s ev => Within s ev ∧ Counted s ev) lone twoPages :=
  .snoc .nil ⟨lone_within, lone_counted⟩ twoPages_step

/-- `malloc(5000)`, and `free` of the block. -/
theorem malloc_free_right_twoPages :
    Right lone twoPages (.malloc env0 5000#32 [1, 2]) ∧
      ∃ s', Step twoPages (.free env0 ⟨mbegin, 5000, false⟩ []) s' ∧
        Right twoPages s' (.free env0 ⟨mbegin, 5000, false⟩ []) := by
  have hfree : Step twoPages (.free env0 ⟨mbegin, 5000, false⟩ []) _ :=
    .free rfl ⟨fun f hf => absurd hf List.not_mem_nil, List.nodup_nil⟩ (List.mem_cons_self ..) rfl
  refine ⟨?_, _, hfree, ?_⟩
  · exact (malloc_free_right_iff lone_start .nil lone_within twoPages_step).2 lone_counted
  · have hw : Within twoPages (.free env0 ⟨mbegin, 5000, false⟩ []) := trivial
    exact (malloc_free_right_iff lone_start twoPages_orderly_run hw hfree).2
      (noWrap_of_lt (by decide))

/-- A block of no bytes behind the block of two pages. -/
def noBytes : Block := ⟨mbegin + 5000, 0, false⟩

/-- After `malloc(5000)` and `k` times `malloc(0)`. -/
structure Crowd (k : ℕ) (s : Sys) : Prop where
  run : Lts.Run Step (fun s ev => Within s ev ∧ Counted s ev) lone s
  life : s.life env0 = .running
  mptr : s.mptr env0 = mbegin + 5000
  live : s.live env0 = List.replicate k noBytes ++ [⟨mbegin, 5000, false⟩]

theorem supply_nil (s : Sys) : s.Supply [] := ⟨fun _ hf => absurd hf List.not_mem_nil, .nil⟩

theorem fits_noBytes : Fits (mbegin + 5000) (roundUp4 0#32) := ⟨by decide, by decide⟩

theorem Crowd.succ {k : ℕ} {s : Sys} (h : Crowd k s) : ∃ s', Crowd (k + 1) s' := by
  have ho := Orderly.run lone_start h.run
  have hfit : Fits (s.mptr env0) (roundUp4 0#32) := h.mptr ▸ fits_noBytes
  have hw : Within s (.malloc env0 0#32 []) := ⟨by decide, fun _ => Or.inr (Or.inl hfit)⟩
  obtain ⟨v, s', V', m', hm, ha, hout, -⟩ := ho.malloc_returns h.life (supply_nil s) hw
  have hstep := Step.malloc h.life (supply_nil s) hm
  have hlive : s'.live = s.live := ha.only.live
  cases hout with
  | big hbig => exact absurd hbig (by decide)
  | new _ hpage => exact absurd hpage hfit.1
  | leaves _ _ hno => exact absurd hfit hno
  | fits _ _ _ =>
    refine ⟨_, .snoc h.run ⟨hw, fun _ _ hno => absurd hfit hno⟩ hstep, ?_, ?_, ?_⟩
    · exact (congrFun ha.only.life env0).trans h.life
    · exact ha.mptr.trans (congrArg (· + roundUp4 0#32) h.mptr)
    · rw [Sys.enter, setLive_self, hlive, h.mptr, if_neg (by decide), h.live]
      rfl

theorem crowd (k : ℕ) : ∃ s, Crowd k s := by
  induction k with
  | zero => exact ⟨twoPages, twoPages_orderly_run, rfl, rfl, rfl⟩
  | succ k ih =>
    obtain ⟨s, h⟩ := ih
    exact h.succ

/-- All of these blocks end on the second page. -/
theorem ends_crowd (k : ℕ) :
    ends (List.replicate k noBytes ++ [⟨mbegin, 5000, false⟩]) noBytes.last = k + 1 := by
  induction k with
  | zero => decide
  | succ k ih =>
    rw [List.replicate_succ, List.cons_append, ends_cons, if_pos rfl, ih]
    omega

/-- **Many references are taken for none.**  After `malloc(5000)` and `2 ^ 32 - 1` times
`malloc(0)`, `free` of one of the blocks of no bytes unmaps the second page of the block
of 5000 bytes, which is still in use. -/
theorem free_takes_many_for_none : ∃ s s', Lts.Run Step Within lone s ∧
    Step s (.free env0 noBytes []) s' ∧ (⟨mbegin, 5000, false⟩ : Block) ∈ s'.live env0 ∧
      (⟨mbegin, 5000, false⟩ : Block).Has (mbegin + 4096) ∧
      s'.wordAt env0 (mbegin + 4096) = none := by
  obtain ⟨k, hk⟩ : ∃ k, k + 2 = 2 ^ 32 := ⟨2 ^ 32 - 2, rfl⟩
  obtain ⟨s, h⟩ := crowd (k + 1)
  have ho := Orderly.run lone_start h.run
  have hb : noBytes ∈ s.live env0 := by
    rw [h.live, List.replicate_succ]
    exact List.mem_cons_self ..
  have herase : (s.live env0).erase noBytes
      = List.replicate k noBytes ++ [⟨mbegin, 5000, false⟩] := by
    rw [h.live, List.replicate_succ, List.cons_append, List.erase_cons_head]
  obtain ⟨c, s₁, -, hf, -⟩ := ho.free_returns (supply_nil s) hb
  have hstep : Step s (.free env0 noBytes []) (s₁.strike env0 noBytes) :=
    .free h.life (supply_nil s) hb hf
  have hheld : held (s.mptr env0) noBytes.last = 1 := by
    rw [h.mptr]
    decide
  have hc : ¬ Counted s (.free env0 noBytes []) := by
    rw [Counted, herase, ends_crowd, hheld, hk, NoWrap, Nat.mod_self]
    exact fun hor => hor.elim (by decide) fun hne => hne rfl
  obtain ⟨hnone, hlive, -⟩ := ho.free_wrong hc hstep
  refine ⟨s, _, h.run.mono fun _ _ hw => hw.1, hstep, ?_, ⟨by decide, by decide⟩, ?_⟩
  · rw [hlive, herase]
    exact List.mem_append_right _ (List.mem_singleton_self _)
  · have hpage : (mbegin + 4096) / PGSIZE = noBytes.last := by decide
    rw [Sys.wordAt, hpage, hnone]
    rfl

end Jos.Malloc
