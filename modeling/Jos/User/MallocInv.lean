import Jos.User.MallocActs

/-!
# The heap of an environment

`Heap` ties what an environment sees, and its `mptr`, to the blocks it has in
use: the pages of a block are mapped, the count on a last page is the number of
blocks that end there and one more while `malloc` works on the page, and a page
that is not the last of its block has the mark, unless a `fork` took it away.
The count is a word, so it is right up to multiples of `2 ^ 32`; `HeapInv` is the
heap with so few blocks that this makes no difference.

* `Heap.bump`, `Heap.close`, `Heap.take` — the three things `malloc` does.
* `Heap.free`, `Heap.freed_none` — `free`, and which pages it unmaps.
* `Heap.fork`, `Heap.write` — the rest of the program.
-/

namespace Jos.Malloc

open Jos.User Function

/-! ## Blocks and counts -/

section Blocks

variable {b b' : Block} {L L' : List Block} {m pn : ℕ}

/-- A page of the block other than the last. -/
def Block.Inner (b : Block) (pn : ℕ) : Prop := b.first ≤ pn ∧ pn < b.last

theorem Block.first_eq (b : Block) : b.first = b.addr / 4096 := rfl

theorem Block.last_eq (b : Block) : b.last = (b.addr + b.size + 3) / 4096 := rfl

theorem Block.first_le_last (b : Block) : b.first ≤ b.last := by
  rw [b.first_eq, b.last_eq]
  omega

theorem Block.covers_iff : b.Covers pn ↔ b.Inner pn ∨ pn = b.last := by
  have hle := b.first_le_last
  rw [Block.Covers, Block.Inner]
  omega

theorem Block.Inner.covers (h : b.Inner pn) : b.Covers pn := ⟨h.1, h.2.le⟩

theorem Block.covers_last (b : Block) : b.Covers b.last := ⟨b.first_le_last, le_rfl⟩

theorem Block.not_inner_last : ¬ b.Inner b.last := fun h => Nat.lt_irrefl _ h.2

/-- A page with nothing but a piece of one block is not a page of the other. -/
def Apart (b b' : Block) : Prop :=
  (∀ pn, b.Inner pn → ¬ b'.Covers pn) ∧ ∀ pn, b'.Inner pn → ¬ b.Covers pn

theorem Apart.symm (h : Apart b b') : Apart b' b := ⟨h.2, h.1⟩

/-- What a block adds to the count on its last page.  A block that ends with a
page leaves `mptr` at the start of the next one, and `malloc` never takes its own
reference to that page back. -/
def Block.refs (b : Block) : ℕ := if (b.addr + b.size) % PGSIZE = 0 then 2 else 1

/-- The references of the blocks that end on a page. -/
def refs (L : List Block) (pn : ℕ) : ℕ := (L.map fun b => if b.last = pn then b.refs else 0).sum

/-- The reference of `malloc`. -/
def held (m pn : ℕ) : ℕ := if Open m pn then 1 else 0

theorem refs_cons (b : Block) (L : List Block) (pn : ℕ) :
    refs (b :: L) pn = (if b.last = pn then b.refs else 0) + refs L pn := List.sum_cons

theorem refs_perm (h : L.Perm L') (pn : ℕ) : refs L pn = refs L' pn := (h.map _).sum_eq

theorem refs_erase (hb : b ∈ L) (pn : ℕ) :
    refs L pn = (if b.last = pn then b.refs else 0) + refs (L.erase b) pn := by
  rw [refs_perm (List.perm_cons_erase hb), refs_cons]

theorem Block.refs_pos (b : Block) : 0 < b.refs ∧ b.refs ≤ 2 := by
  rw [Block.refs]
  split <;> omega

theorem refs_le (L : List Block) (pn : ℕ) : refs L pn ≤ 2 * L.length := by
  induction L with
  | nil => exact Nat.le_refl 0
  | cons b L ih =>
    have hb := b.refs_pos.2
    rw [refs_cons, List.length_cons]
    split <;> omega

theorem refs_eq_zero : refs L pn = 0 ↔ ∀ b ∈ L, b.last ≠ pn := by
  induction L with
  | nil => simp [refs]
  | cons b L ih =>
    have hb := b.refs_pos.1
    rw [refs_cons, Nat.add_eq_zero_iff, ih, List.forall_mem_cons]
    refine and_congr_left fun _ => ?_
    split
    · next h => exact iff_of_false (by omega) (not_not.2 h)
    · next h => exact iff_of_true rfl h

theorem held_eq_zero : held m pn = 0 ↔ ¬ Open m pn := by
  rw [held, ite_eq_right_iff]
  exact ⟨fun h ho => absurd (h ho) Nat.one_ne_zero, fun h ho => absurd ho h⟩

theorem held_le (m pn : ℕ) : held m pn ≤ 1 := by
  rw [held]
  split <;> omega

/-- The `k` references that are left are not taken for none. -/
def NoWrap (k : ℕ) : Prop := k = 0 ∨ k % 2 ^ 32 ≠ 0

instance (k : ℕ) : Decidable (NoWrap k) := inferInstanceAs (Decidable (_ ∨ _))

/-- A count without one of its references. -/
theorem ofNat_succ_sub_one (k : ℕ) :
    BitVec.ofNat 32 (k + 1) - 1#32 = BitVec.ofNat 32 k := by
  rw [BitVec.ofNat_add, BitVec.add_sub_cancel]

variable {k : ℕ} {g : Block}

theorem ofNat_eq_zero_iff : BitVec.ofNat 32 k = 0#32 ↔ k % 2 ^ 32 = 0 := by
  rw [← BitVec.toNat_inj, BitVec.toNat_ofNat]
  rfl

theorem NoWrap.ofNat_eq_zero (h : NoWrap k) : BitVec.ofNat 32 k = 0#32 ↔ k = 0 := by
  rw [ofNat_eq_zero_iff]
  refine ⟨fun h0 => h.resolve_right (not_not.2 h0), ?_⟩
  rintro rfl
  rfl

theorem noWrap_of_lt (h : k < 2 ^ 32) : NoWrap k := by
  rw [NoWrap, Nat.mod_eq_of_lt h]
  exact em (k = 0)

theorem refs_append (L L' : List Block) (pn : ℕ) :
    refs (L ++ L') pn = refs L pn + refs L' pn := by
  rw [refs, List.map_append, List.sum_append]
  rfl

/-- What `free` leaves of a block.  `malloc` does not take back its own reference to
the last page of a block that ends with a page; it stays, as if a block of no bytes
did. -/
def Block.rest (b : Block) : List Block :=
  if (b.addr + b.size) % PGSIZE = 0 then [⟨b.last * PGSIZE + 4, 0, false⟩] else []

theorem Block.rest_eq_nil (h : (b.addr + b.size) % PGSIZE ≠ 0) : b.rest = [] := if_neg h

theorem Block.mem_rest (hg : g ∈ b.rest) : g = ⟨b.last * PGSIZE + 4, 0, false⟩ := by
  rw [Block.rest] at hg
  split at hg
  · exact List.mem_singleton.1 hg
  · exact absurd hg List.not_mem_nil

theorem Block.first_last_of_mem_rest (hg : g ∈ b.rest) : g.first = b.last ∧ g.last = b.last := by
  rw [Block.mem_rest hg]
  generalize b.last = pn
  rw [Block.first_eq, Block.last_eq]
  simp only [PGSIZE]
  omega

theorem Block.covers_of_mem_rest (hg : g ∈ b.rest) : g.Covers pn ↔ pn = b.last := by
  obtain ⟨hfirst, hlast⟩ := Block.first_last_of_mem_rest hg
  rw [Block.Covers, hfirst, hlast]
  omega

theorem Block.not_inner_of_mem_rest (hg : g ∈ b.rest) : ¬ g.Inner pn := by
  obtain ⟨hfirst, hlast⟩ := Block.first_last_of_mem_rest hg
  rw [Block.Inner, hfirst, hlast]
  omega

theorem Block.refs_rest (b : Block) (pn : ℕ) :
    (if b.last = pn then b.refs else 0) = (if b.last = pn then 1 else 0) + Malloc.refs b.rest pn := by
  rw [Block.refs, Block.rest]
  by_cases hend : (b.addr + b.size) % PGSIZE = 0
  · have hg : (⟨b.last * PGSIZE + 4, 0, false⟩ : Block) ∈ b.rest := by
      rw [Block.rest, if_pos hend]
      exact List.mem_singleton_self _
    have hlast := (Block.first_last_of_mem_rest hg).2
    have hone : (⟨b.last * PGSIZE + 4, 0, false⟩ : Block).refs = 1 := by
      rw [Block.refs, if_neg]
      simp only [PGSIZE]
      omega
    rw [if_pos hend, if_pos hend, refs_cons, hlast, hone]
    split <;> rfl
  · rw [if_neg hend, if_neg hend]
    rfl

/-- One reference goes with the block. -/
theorem refs_freed (hb : b ∈ L) (pn : ℕ) :
    refs L pn = (if b.last = pn then 1 else 0) + refs (b.rest ++ L.erase b) pn := by
  rw [refs_erase hb, refs_append, b.refs_rest, Nat.add_assoc]

end Blocks

/-! ## The invariant -/

/-- What holds of a block in use. -/
structure BlockOk (V : View) (b : Block) : Prop where
  lo : mbegin ≤ b.addr
  hi : b.last < 0x10000
  addr4 : b.addr % 4 = 0
  size4 : b.size % 4 = 0
  mapped : ∀ pn, b.Covers pn → V.words pn ≠ none
  cont : ∀ pn, b.Inner pn → b.forked = true ∨ V.cont pn = true

/-- The heap of an environment. -/
structure Heap (V : View) (m : ℕ) (L : List Block) : Prop where
  mptr : m = 0 ∨ mbegin ≤ m ∧ m < mend
  mptr4 : m % 4 = 0
  opened : m % PGSIZE ≠ 0 → V.words (m / PGSIZE) ≠ none ∧ ∀ b ∈ L, ¬ b.Inner (m / PGSIZE)
  block : ∀ b ∈ L, BlockOk V b
  apart : L.Pairwise Apart
  cont : ∀ pn, Arena pn → V.cont pn = true → ∃ b ∈ L, b.Inner pn
  count : ∀ pn c, Arena pn → V.words pn = some c → (∀ b ∈ L, ¬ b.Inner pn) →
    c refIdx = BitVec.ofNat 32 (refs L pn + held m pn)

/-- The heap of an environment with few blocks. -/
structure HeapInv (V : View) (m : ℕ) (L : List Block) : Prop extends Heap V m L where
  few : L.length < 2 ^ 31 - 1

variable {V : View} {b : Block} {pn q : ℕ} {c : Idx → Word}

theorem BlockOk.arena (h : BlockOk V b) (hpn : b.Covers pn) : Arena pn := by
  have hlo := h.lo
  have hhi := h.hi
  have hfirst := hpn.1
  have hlast := hpn.2
  rw [b.first_eq] at hfirst
  rw [mbegin] at hlo
  exact ⟨by omega, by omega⟩

/-- The word of an address in the block is not the count of its last page. -/
theorem BlockOk.wordIdx_ne (h : BlockOk V b) {a : ℕ} (hlo : b.addr ≤ a)
    (hhi : a < b.addr + b.size) :
    b.Covers (a / PGSIZE) ∧ (a / PGSIZE = b.last → wordIdx a ≠ refIdx) := by
  have h4 := h.addr4
  have h4' := h.size4
  have hlast := b.last_eq
  refine ⟨⟨?_, ?_⟩, fun heq hidx => ?_⟩
  · exact Nat.div_le_div_right hlo
  · show a / 4096 ≤ b.last
    omega
  · have hval : a / 4 % 1024 = 1023 := congrArg Fin.val hidx
    change a / 4096 = b.last at heq
    omega

theorem BlockOk.mono {V' : View} (h : BlockOk V b)
    (hw : ∀ pn, b.Covers pn → V.words pn ≠ none → V'.words pn ≠ none)
    (hc : ∀ pn, b.Inner pn → V.cont pn = true → V'.cont pn = true) : BlockOk V' b where
  lo := h.lo
  hi := h.hi
  addr4 := h.addr4
  size4 := h.size4
  mapped pn hpn := hw pn hpn (h.mapped pn hpn)
  cont pn hpn := (h.cont pn hpn).imp_right (hc pn hpn)

theorem View.store_words (V : View) (pn q : ℕ) (c : Idx → Word) :
    (V.store pn c).words q = if q = pn then some c else V.words q := update_apply ..

theorem View.store_cont (V : View) (pn q : ℕ) (c : Idx → Word) : (V.store pn c).cont q = V.cont q :=
  rfl

theorem View.store_ne_none (h : V.words q ≠ none) : (V.store pn c).words q ≠ none := by
  rw [View.store_words]
  split
  · exact Option.some_ne_none c
  · exact h

theorem View.drop_words (V : View) (pn q : ℕ) (c : Idx → Word) :
    (V.drop pn c).words q =
      if q = pn then
        if c refIdx - 1#32 = 0#32 then none else some (update c refIdx (c refIdx - 1#32))
      else V.words q := by
  rw [View.drop]
  split
  · exact update_apply ..
  · exact View.store_words ..

theorem View.drop_cont (V : View) (pn q : ℕ) (c : Idx → Word) (h : q ≠ pn) :
    (V.drop pn c).cont q = V.cont q := by
  rw [View.drop]
  split
  · exact update_of_ne h _ _
  · rfl

theorem View.cont_of_drop (h : (V.drop pn c).cont q = true) : V.cont q = true := by
  by_cases hq : q = pn
  · rw [View.drop] at h
    split at h
    · change update V.cont pn false q = true at h
      rw [hq, update_self] at h
      cases h
    · exact h
  · rwa [View.drop_cont _ _ _ _ hq] at h

/-! ## New pages -/

section Pages

variable {V : View} {v n q : ℕ}

/-- The pages for a block at `v` are not in use. -/
def View.Vacant (V : View) (v n : ℕ) : Prop :=
  ∀ j < pagesFor (n + 4), Arena (v / PGSIZE + j) ∧ V.words (v / PGSIZE + j) = none

/-- What is seen once they are: zeros, the marks, and two references on the last page. -/
def View.taken (V : View) (v n : ℕ) : View :=
  (V.fill (v / PGSIZE) (n + 4) (pagesFor (n + 4))).store
    (v / PGSIZE + pagesFor (n + 4) - 1) (update (fun _ => 0#32) refIdx 2#32)

theorem pagesFor_pos : 0 < pagesFor (n + 4) := by
  simp only [pagesFor, PGSIZE]
  omega

/-- The last of the new pages. -/
theorem AtPage.last_eq (hv : AtPage v) :
    (⟨v, n, false⟩ : Block).last = v / PGSIZE + pagesFor (n + 4) - 1 := by
  have hpage := hv.page
  show (v + n + 3) / PGSIZE = _
  simp only [pagesFor, PGSIZE] at hpage ⊢
  omega

theorem AtPage.covers_iff (hv : AtPage v) : (⟨v, n, false⟩ : Block).Covers q ↔
    v / PGSIZE ≤ q ∧ q < v / PGSIZE + pagesFor (n + 4) := by
  have hpos : 0 < pagesFor (n + 4) := pagesFor_pos
  have hfirst : (⟨v, n, false⟩ : Block).first = v / PGSIZE := rfl
  rw [Block.Covers, hfirst, hv.last_eq]
  generalize v / PGSIZE = pn
  omega

theorem AtPage.vacant (hv : AtPage v) (hpages : V.Vacant v n)
    (hq : (⟨v, n, false⟩ : Block).Covers q) : Arena q ∧ V.words q = none := by
  obtain ⟨hlo, hhi⟩ := hv.covers_iff.1 hq
  have hpage := hpages (q - v / PGSIZE) (by omega)
  rwa [Nat.add_sub_cancel' hlo] at hpage

theorem AtPage.taken_words (hv : AtPage v) (q : ℕ) : (V.taken v n).words q =
    if q = (⟨v, n, false⟩ : Block).last then some (update (fun _ => 0#32) refIdx 2#32)
    else if (⟨v, n, false⟩ : Block).Covers q then some fun _ => 0#32 else V.words q := by
  rw [View.taken, View.store_words, View.fill_words, hv.last_eq]
  simp only [hv.covers_iff]

/-- The block has the mark on all its pages but the last. -/
theorem AtPage.taken_cont (hv : AtPage v) (q : ℕ) : (V.taken v n).cont q = true ↔
    if (⟨v, n, false⟩ : Block).Covers q then (⟨v, n, false⟩ : Block).Inner q
    else V.cont q = true := by
  have hfirst : (⟨v, n, false⟩ : Block).first = v / PGSIZE := rfl
  rw [View.taken, View.store_cont, View.fill_cont]
  simp only [hv.covers_iff]
  split
  · next hin =>
      rw [decide_eq_true_eq, Block.Inner, hfirst, hv.last_eq]
      simp only [pagesFor, PGSIZE] at hin ⊢
      omega
  · rfl

/-- `malloc` is on the last of the new pages, or at the end of it. -/
theorem AtPage.open_eq (hv : AtPage v) (hn : n % 4 = 0) (ho : Open (v + n) q) :
    q = (⟨v, n, false⟩ : Block).last := by
  have hvp := hv.page
  obtain ⟨hne, rfl⟩ := ho
  rw [hv.last_eq]
  simp only [pagesFor, PGSIZE] at hvp hne ⊢
  omega

/-- The two references are that of the block and that of `malloc`, or both of the block. -/
theorem AtPage.refs_held (hv : AtPage v) (hn : n % 4 = 0) :
    (⟨v, n, false⟩ : Block).refs + held (v + n) (⟨v, n, false⟩ : Block).last = 2 := by
  rw [Block.refs, held]
  by_cases hmod : (v + n) % PGSIZE = 0
  · rw [if_pos hmod, if_neg fun ho => ho.1 hmod]
  · rw [if_neg hmod, if_pos ⟨hmod, hv.open_eq hn ⟨hmod, rfl⟩⟩]

end Pages

/-- What `free` leaves of a view, if the count on the last page of `b` is in `c`. -/
def View.freed (V : View) (b : Block) (c : Idx → Word) : View :=
  (V.release b.first (b.last - b.first)).drop b.last c

namespace Heap

variable {V V' : View} {m n : ℕ} {L : List Block} {b : Block} {c : Idx → Word}

theorem apart_erase (h : Heap V m L) (hb : b ∈ L) :
    (∀ b' ∈ L.erase b, Apart b b') ∧ (L.erase b).Pairwise Apart := by
  have hperm := List.perm_cons_erase hb
  have hp : (b :: L.erase b).Pairwise Apart :=
    (hperm.pairwise_iff fun {_ _} h => Apart.symm h).1 h.apart
  exact List.pairwise_cons.1 hp

/-- The last page of a block is not an inner page of any. -/
theorem last_not_inner (h : Heap V m L) (hb : b ∈ L) : ∀ b' ∈ L, ¬ b'.Inner b.last := by
  intro b' hb' hin
  by_cases heq : b' = b
  · rw [heq] at hin
    exact Block.not_inner_last hin
  · have hmem : b' ∈ L.erase b := (List.mem_erase_of_ne heq).2 hb'
    exact ((h.apart_erase hb).1 b' hmem).2 _ hin (Block.covers_last _)

/-- Without the mark, a page is the last one of its block. -/
theorem not_cont (h : Heap V m L) (ha : Arena pn) (hpn : ∀ b ∈ L, ¬ b.Inner pn) :
    V.cont pn = false := by
  by_contra hc
  obtain ⟨b, hb, hin⟩ := h.cont pn ha (Bool.eq_true_of_not_eq_false hc)
  exact hpn b hb hin

theorem range_of_open (h : Heap V m L) (hopen : m % PGSIZE ≠ 0) : mbegin ≤ m ∧ m < mend := by
  refine h.mptr.resolve_left ?_
  rintro rfl
  exact hopen rfl

/-- The count on the page `malloc` works on. -/
theorem count_open (h : Heap V m L) (hopen : m % PGSIZE ≠ 0)
    (hc : V.words (m / PGSIZE) = some c) :
    Arena (m / PGSIZE) ∧ c refIdx = BitVec.ofNat 32 (refs L (m / PGSIZE) + 1) := by
  have ha : Arena (m / PGSIZE) := by
    obtain ⟨hlo, hhi⟩ := h.range_of_open hopen
    simp only [Arena, mbegin, mend, PGSIZE] at hlo hhi ⊢
    omega
  have hcount := h.count _ c ha hc (h.opened hopen).2
  rw [held, if_pos ⟨hopen, rfl⟩] at hcount
  exact ⟨ha, hcount⟩

/-- A small piece of the page `malloc` works on. -/
theorem bump (h : Heap V m L) (hopen : m % PGSIZE ≠ 0)
    (hfit : m / PGSIZE = (m + n + 3) / PGSIZE) (hn : n % 4 = 0)
    (hc : V.words (m / PGSIZE) = some c) :
    Heap (V.store (m / PGSIZE) (update c refIdx (c refIdx + 1#32))) (m + n)
      (⟨m, n, false⟩ :: L) := by
  obtain ⟨ha, hcount⟩ := h.count_open hopen hc
  have hm4 := h.mptr4
  obtain ⟨hmap, hout⟩ := h.opened hopen
  set pn := m / PGSIZE with hpn
  have hmod : (m + n) % PGSIZE ≠ 0 ∧ (m + n) / PGSIZE = pn := by
    simp only [PGSIZE] at hopen hfit hpn ⊢
    omega
  have hlast : (⟨m, n, false⟩ : Block).last = pn := hfit.symm
  have hfirst : (⟨m, n, false⟩ : Block).first = pn := rfl
  have hinner : ∀ q, ¬ (⟨m, n, false⟩ : Block).Inner q := by
    rintro q ⟨h1, h2⟩
    rw [hfirst] at h1
    rw [hlast] at h2
    omega
  have hsame : ∀ q, held (m + n) q = held m q := by
    intro q
    have hiff : Open (m + n) q ↔ Open m q := by
      rw [Open, Open, hmod.2]
      exact and_congr_left fun _ => iff_of_true hmod.1 hopen
    rw [held, held]
    exact if_congr hiff rfl rfl
  refine ⟨Or.inr ?_, by omega, fun _ => ?_, ?_, ?_, ?_, ?_⟩
  · have hlo := (h.range_of_open hopen).1
    have hend := ha.2
    have hquot := hmod.2
    simp only [mbegin, mend, PGSIZE] at hlo hquot ⊢
    omega
  · rw [hmod.2]
    refine ⟨View.store_ne_none hmap, ?_⟩
    rw [List.forall_mem_cons]
    exact ⟨hinner pn, hout⟩
  · rw [List.forall_mem_cons]
    constructor
    · refine ⟨?_, hlast ▸ ha.2, hm4, hn, fun q hq => ?_, fun q hq => absurd hq (hinner q)⟩
      · have hlo := ha.1
        simp only [mbegin, PGSIZE] at hpn ⊢
        show 0x08000000 ≤ m
        omega
      · have hq : q = pn := le_antisymm (hlast ▸ hq.2) (hfirst ▸ hq.1)
        rw [hq]
        exact View.store_ne_none hmap
    · intro b hb
      exact (h.block b hb).mono (fun q _ hq => View.store_ne_none hq) fun q _ hq => hq
  · refine List.pairwise_cons.2 ⟨fun b hb => ⟨fun q hq => absurd hq (hinner q), ?_⟩, h.apart⟩
    rintro q hq ⟨h1, h2⟩
    have heq : q = pn := le_antisymm (hlast ▸ h2) (hfirst ▸ h1)
    exact hout b hb (heq ▸ hq)
  · intro q hq hcont
    obtain ⟨b, hb, hin⟩ := h.cont q hq hcont
    exact ⟨b, List.mem_cons_of_mem _ hb, hin⟩
  · intro q d hq hd hno
    rw [List.forall_mem_cons] at hno
    rw [refs_cons, hsame, hlast]
    rw [View.store_words] at hd
    split at hd
    · next heq =>
        have hone : (⟨m, n, false⟩ : Block).refs = 1 := if_neg hmod.1
        obtain rfl := Option.some.inj hd
        rw [update_self, hcount, heq, if_pos rfl, hone, held, if_pos ⟨hopen, hpn⟩, BitVec.add_comm,
          ← BitVec.ofNat_add, Nat.add_assoc]
    · next heq =>
        rw [if_neg (Ne.symm heq), Nat.zero_add]
        exact h.count q d hq hd hno.2

/-- `malloc` leaves the page it works on, and goes to some other. -/
theorem closeAt (h : Heap V m L) (hopen : m % PGSIZE ≠ 0) (hc : V.words (m / PGSIZE) = some c)
    (hwrap : NoWrap (refs L (m / PGSIZE))) {m' : ℕ} (hm' : AtPage m') :
    Heap (V.drop (m / PGSIZE) c) m' L := by
  obtain ⟨ha, hcount⟩ := h.count_open hopen hc
  have hsub := ofNat_succ_sub_one (refs L (m / PGSIZE))
  have hzero := hwrap.ofNat_eq_zero
  rw [← hsub, ← hcount] at hzero
  rw [← hcount] at hsub
  have hout := (h.opened hopen).2
  set pn := m / PGSIZE with hpn
  have hnot : ∀ q, held m' q = 0 := fun q => held_eq_zero.2 fun ho => ho.1 hm'.page
  -- if the page goes, no block has a piece of it
  have hkeep : ∀ b ∈ L, ∀ q, b.Covers q → (V.drop pn c).words q ≠ none := by
    intro b hb q hq
    rw [View.drop_words]
    split
    · next heq =>
        rw [if_neg]
        · exact Option.some_ne_none _
        · rw [hzero, refs_eq_zero]
          intro hall
          rcases Block.covers_iff.1 hq with hin | hl
          · exact hout b hb (heq ▸ hin)
          · exact hall b hb (hl ▸ heq)
    · exact (h.block b hb).mapped q hq
  refine ⟨Or.inr ⟨hm'.lo, hm'.hi⟩, ?_, fun hne => absurd hm'.page hne, ?_, h.apart, ?_, ?_⟩
  · have hpage := hm'.page
    simp only [PGSIZE] at hpage
    omega
  · intro b hb
    refine (h.block b hb).mono (fun q hq _ => hkeep b hb q hq) fun q hq hcont => ?_
    rw [View.drop_cont]
    · exact hcont
    · rintro rfl
      exact hout b hb hq
  · intro q hq hcont
    exact h.cont q hq (View.cont_of_drop hcont)
  · intro q d hq hd hno
    rw [hnot, Nat.add_zero]
    rw [View.drop_words] at hd
    split at hd
    · next heq =>
        split at hd
        · cases hd
        · obtain rfl := Option.some.inj hd
          rw [update_self, hsub, heq]
    · next heq =>
        have hcnt := h.count q d hq hd hno
        rwa [held_eq_zero.2 fun ho => heq ho.2.symm, Nat.add_zero] at hcnt

theorem close (h : Heap V m L) (hopen : m % PGSIZE ≠ 0) (hc : V.words (m / PGSIZE) = some c)
    (hend : m / PGSIZE + 1 < 0x10000) (hwrap : NoWrap (refs L (m / PGSIZE))) :
    Heap (V.drop (m / PGSIZE) c) ((m + PGSIZE) / PGSIZE * PGSIZE) L := by
  obtain ⟨hlo, -⟩ := h.range_of_open hopen
  refine h.closeAt hopen hc hwrap ⟨?_, ?_, Nat.mul_mod_left _ _⟩
  · simp only [mbegin, PGSIZE] at hlo ⊢
    omega
  · simp only [mend, PGSIZE] at hend ⊢
    omega

/-- `mptr` moves from page to page. -/
theorem move (h : Heap V m L) (hm : m % PGSIZE = 0) {m' : ℕ} (hm' : AtPage m') :
    Heap V m' L := by
  have hnot : ∀ k, k % PGSIZE = 0 → ∀ q, held k q = 0 := fun k hk q =>
    held_eq_zero.2 fun ho => ho.1 hk
  refine ⟨Or.inr ⟨hm'.lo, hm'.hi⟩, ?_, fun hne => absurd hm'.page hne, h.block, h.apart, h.cont,
    ?_⟩
  · have hpage := hm'.page
    simp only [PGSIZE] at hpage
    omega
  · intro q d hq hd hno
    rw [hnot m' hm'.page, ← hnot m hm q]
    exact h.count q d hq hd hno

variable {v : ℕ}

/-- No other block has a piece of the new pages. -/
theorem pages_clear (h : Heap V m L) (hv : AtPage v) (hpages : V.Vacant v n) (hb : b ∈ L)
    (hq : (⟨v, n, false⟩ : Block).Covers q) : ¬ b.Covers q := fun hcov =>
  (h.block b hb).mapped q hcov (hv.vacant hpages hq).2

/-- The block on the new pages … -/
theorem taken_blockOk (hv : AtPage v) (hn : n % 4 = 0) (hpages : V.Vacant v n) :
    BlockOk (V.taken v n) ⟨v, n, false⟩ where
  lo := hv.lo
  hi := (hv.vacant hpages (Block.covers_last _)).1.2
  addr4 := by
    have hvp := hv.page
    simp only [PGSIZE] at hvp
    show v % 4 = 0
    omega
  size4 := hn
  mapped q hq := by
    rw [hv.taken_words, if_pos hq]
    split <;> exact Option.some_ne_none _
  cont q hq := by
    rw [hv.taken_cont, if_pos hq.covers]
    exact Or.inr hq

/-- … and the others. -/
theorem taken_mono (h : Heap V m L) (hv : AtPage v) (hpages : V.Vacant v n) (hb : b ∈ L) :
    BlockOk (V.taken v n) b := by
  refine (h.block b hb).mono (fun q hq hmap => ?_) fun q hq hcont => ?_
  · rw [hv.taken_words, if_neg fun h₀ => h.pages_clear hv hpages hb h₀ hq]
    split
    · exact Option.some_ne_none _
    · exact hmap
  · rwa [hv.taken_cont, if_neg fun h₀ => h.pages_clear hv hpages hb h₀ hq.covers]

/-- The counts. -/
theorem taken_count (h : Heap V m L) (hm : m % PGSIZE = 0) (hv : AtPage v) (hn : n % 4 = 0)
    (hpages : V.Vacant v n) (hq : Arena q) (hc : (V.taken v n).words q = some c)
    (hno : ∀ b ∈ (⟨v, n, false⟩ : Block) :: L, ¬ b.Inner q) :
    c refIdx = BitVec.ofNat 32 (refs (⟨v, n, false⟩ :: L) q + held (v + n) q) := by
  rw [List.forall_mem_cons] at hno
  rw [hv.taken_words] at hc
  rw [refs_cons]
  by_cases heq : q = (⟨v, n, false⟩ : Block).last
  · have hzero : refs L q = 0 := refs_eq_zero.2 fun b hb hl =>
      h.pages_clear hv hpages hb (Block.covers_last _) (heq ▸ hl ▸ b.covers_last)
    rw [if_pos heq] at hc
    obtain rfl := Option.some.inj hc
    rw [update_self, if_pos heq.symm, hzero, Nat.add_zero, heq, hv.refs_held hn]
  · have hcov : ¬ (⟨v, n, false⟩ : Block).Covers q := fun hcov =>
      (Block.covers_iff.1 hcov).elim hno.1 heq
    rw [if_neg heq, if_neg hcov] at hc
    have hcount := h.count q c hq hc hno.2
    have hbefore : held m q = 0 := held_eq_zero.2 fun ho => ho.1 hm
    have hafter : held (v + n) q = 0 := held_eq_zero.2 fun ho => heq (hv.open_eq hn ho)
    rwa [if_neg (Ne.symm heq), Nat.zero_add, hafter, ← hbefore]

/-- New pages for a block. -/
theorem take (h : Heap V m L) (hm : m % PGSIZE = 0) (hv : AtPage v) (hn : n % 4 = 0)
    (hpages : V.Vacant v n) : Heap (V.taken v n) (v + n) (⟨v, n, false⟩ :: L) where
  mptr := by
    have hvp := hv.page
    have hlo := hv.lo
    have hend := (hv.vacant hpages (Block.covers_last _)).1.2
    rw [hv.last_eq] at hend
    simp only [pagesFor, mbegin, mend, PGSIZE] at hvp hend hlo ⊢
    omega
  mptr4 := by
    have hvp := hv.page
    simp only [PGSIZE] at hvp
    omega
  opened hne := by
    have hlast := hv.open_eq hn ⟨hne, rfl⟩
    rw [hlast, hv.taken_words, if_pos rfl, List.forall_mem_cons]
    exact ⟨Option.some_ne_none _, Block.not_inner_last, fun b hb hq =>
      h.pages_clear hv hpages hb (Block.covers_last _) hq.covers⟩
  block := List.forall_mem_cons.2 ⟨taken_blockOk hv hn hpages, fun _ => h.taken_mono hv hpages⟩
  apart := List.pairwise_cons.2 ⟨fun _ hb => ⟨fun _ hq => h.pages_clear hv hpages hb hq.covers,
    fun _ hq h₀ => h.pages_clear hv hpages hb h₀ hq.covers⟩, h.apart⟩
  cont q hq hcont := by
    rw [hv.taken_cont] at hcont
    split at hcont
    · exact ⟨_, List.mem_cons_self, hcont⟩
    · obtain ⟨b, hb, hin⟩ := h.cont q hq hcont
      exact ⟨b, List.mem_cons_of_mem _ hb, hin⟩
  count _ _ hq hc := h.taken_count hm hv hn hpages hq hc

/-- A store to a word of a block. -/
theorem write (h : Heap V m L) {i : Idx} {w : Word} (hc : V.words pn = some c)
    (hi : (∀ b ∈ L, ¬ b.Inner pn) → i ≠ refIdx) : Heap (V.store pn (update c i w)) m L := by
  refine ⟨h.mptr, h.mptr4, fun hne => ⟨View.store_ne_none (h.opened hne).1, (h.opened hne).2⟩,
    fun b hb => (h.block b hb).mono (fun q _ hq => View.store_ne_none hq) fun q _ hq => hq, h.apart,
    h.cont, fun q d hq hd hno => ?_⟩
  rw [View.store_words] at hd
  split at hd
  · next heq =>
      obtain rfl := Option.some.inj hd
      rw [heq] at hno hq ⊢
      rw [update_of_ne (hi hno).symm]
      exact h.count pn c hq hc hno
  · exact h.count q d hq hd hno

/-- `fork` takes the marks away, and the blocks know. -/
theorem fork (h : Heap V m L) (hw : ∀ q, Arena q → V'.words q = V.words q)
    (hcont : ∀ q, Arena q → V'.cont q = true → V.cont q = true) :
    Heap V' m (L.map Block.fork) := by
  have hrefs : ∀ q, refs (L.map Block.fork) q = refs L q := by
    intro q
    rw [refs, List.map_map]
    rfl
  refine ⟨h.mptr, h.mptr4, fun hne => ?_, ?_, ?_, ?_, ?_⟩
  · obtain ⟨hmap, hout⟩ := h.opened hne
    obtain ⟨c, hc⟩ := Option.ne_none_iff_exists'.1 hmap
    rw [hw _ (h.count_open hne hc).1, List.forall_mem_map]
    exact ⟨hmap, hout⟩
  · rw [List.forall_mem_map]
    intro b hb
    have hok := h.block b hb
    refine ⟨hok.lo, hok.hi, hok.addr4, hok.size4, fun q hq => ?_, fun q _ => Or.inl rfl⟩
    have hcov : b.Covers q := hq
    rw [hw q (hok.arena hcov)]
    exact hok.mapped q hcov
  · rw [List.pairwise_map]
    exact h.apart
  · intro q hq hc
    obtain ⟨b, hb, hin⟩ := h.cont q hq (hcont q hq hc)
    exact ⟨b.fork, List.mem_map_of_mem hb, hin⟩
  · intro q c hq hc hno
    rw [List.forall_mem_map] at hno
    rw [hrefs]
    rw [hw q hq] at hc
    exact h.count q c hq hc hno

theorem freed_words (V : View) (b : Block) (c : Idx → Word) (q : ℕ) :
    (V.freed b c).words q =
      if q = b.last then
        if c refIdx - 1#32 = 0#32 then none else some (update c refIdx (c refIdx - 1#32))
      else if b.Covers q then none else V.words q := by
  have hle := b.first_le_last
  rw [View.freed, View.drop_words, View.release_words]
  split
  · rfl
  · next hq =>
      refine if_congr ?_ rfl rfl
      rw [Block.Covers]
      omega

theorem freed_cont (hq : q ≠ b.last) :
    (V.freed b c).cont q
      = if b.Covers q then false else V.cont q := by
  have hle := b.first_le_last
  rw [View.freed, View.drop_cont _ _ _ _ hq, View.release_cont]
  refine if_congr ?_ rfl rfl
  rw [Block.Covers]
  omega

/-- The count that `free` leaves. -/
theorem count_freed (h : Heap V m L) (hb : b ∈ L) (hc : V.words b.last = some c) :
    c refIdx - 1#32
      = BitVec.ofNat 32 (refs (b.rest ++ L.erase b) b.last + held m b.last) := by
  have ha := (h.block b hb).arena (Block.covers_last _)
  have hcount := h.count _ c ha hc (h.last_not_inner hb)
  rw [refs_freed hb, if_pos rfl, Nat.add_assoc, Nat.add_comm 1] at hcount
  rw [hcount, ofNat_succ_sub_one]

/-- What is left has no piece of the block's own pages. -/
theorem freed_apart (h : Heap V m L) (hb : b ∈ L) {b' : Block} (hb' : b' ∈ b.rest ++ L.erase b) :
    Apart b b' ∧ ¬ b'.Inner b.last := by
  rcases List.mem_append.1 hb' with hg | hmem
  · refine ⟨⟨fun q hq hcov => ?_, fun q hq => absurd hq (Block.not_inner_of_mem_rest hg)⟩,
      Block.not_inner_of_mem_rest hg⟩
    rw [Block.covers_of_mem_rest hg] at hcov
    exact Block.not_inner_last (hcov ▸ hq)
  · exact ⟨(h.apart_erase hb).1 b' hmem, h.last_not_inner hb b' (List.mem_of_mem_erase hmem)⟩

/-- **`free`** unmaps the pages that are there for the block alone. -/
theorem freed_none (h : Heap V m L) (hb : b ∈ L) (hc : V.words b.last = some c)
    (hwrap : NoWrap (refs (b.rest ++ L.erase b) b.last + held m b.last)) (q : ℕ) :
    (V.freed b c).words q = none ↔
      V.words q = none ∨
        b.Covers q ∧ (∀ b' ∈ b.rest ++ L.erase b, ¬ b'.Covers q) ∧ ¬ Open m q := by
  rw [freed_words]
  by_cases hq : q = b.last
  · -- the page with the count goes with its last reference
    have hiff : (∀ b' ∈ b.rest ++ L.erase b, ¬ b'.Covers b.last) ↔
        ∀ b' ∈ b.rest ++ L.erase b, b'.last ≠ b.last := by
      refine forall₂_congr fun b' hb' => not_congr ?_
      rw [Block.covers_iff, eq_comm]
      exact or_iff_right (h.freed_apart hb hb').2
    rw [if_pos hq, hq, hc, ite_eq_left_iff, hiff, ← refs_eq_zero, ← held_eq_zero,
      ← Nat.add_eq_zero_iff, ← hwrap.ofNat_eq_zero, ← h.count_freed hb hc]
    have hcov : b.Covers b.last := (Block.covers_last _)
    simp [hcov]
  · rw [if_neg hq]
    by_cases hcov : b.Covers q
    · have hin : b.Inner q := (Block.covers_iff.1 hcov).resolve_right hq
      rw [if_pos hcov]
      refine iff_of_true rfl (Or.inr ⟨hcov, fun b' hb' => (h.freed_apart hb hb').1.1 q hin, ?_⟩)
      rintro ⟨hne, rfl⟩
      exact (h.opened hne).2 b hb hin
    · rw [if_neg hcov]
      exact ⟨Or.inl, fun hor => hor.resolve_right fun hal => hcov hal.1⟩

/-- The pages of what is left stay. -/
theorem freed_mapped (h : Heap V m L) (hb : b ∈ L) (hc : V.words b.last = some c)
    (hwrap : NoWrap (refs (b.rest ++ L.erase b) b.last + held m b.last)) {b' : Block}
    (hb' : b' ∈ b.rest ++ L.erase b) (hq : b'.Covers q) : (V.freed b c).words q ≠ none := by
  rw [Ne, h.freed_none hb hc hwrap]
  rintro (h0 | h0)
  · rcases List.mem_append.1 hb' with hg | hmem
    · rw [Block.covers_of_mem_rest hg] at hq
      rw [hq, hc] at h0
      cases h0
    · exact (h.block b' (List.mem_of_mem_erase hmem)).mapped q hq h0
  · exact h0.2.1 b' hb' hq

/-- `free` keeps the invariant. -/
theorem free (h : Heap V m L) (hb : b ∈ L) (hc : V.words b.last = some c)
    (hwrap : NoWrap (refs (b.rest ++ L.erase b) b.last + held m b.last)) :
    Heap (V.freed b c) m (b.rest ++ L.erase b) := by
  have hmapped : ∀ b' ∈ b.rest ++ L.erase b, ∀ q, b'.Covers q →
      (V.freed b c).words q ≠ none :=
    fun b' hb' q hq => h.freed_mapped hb hc hwrap hb' hq
  have hmem : ∀ b' ∈ L.erase b, b' ∈ b.rest ++ L.erase b := fun b' hb' =>
    List.mem_append_right _ hb'
  -- an inner page of another block is not touched
  have hfar : ∀ b' ∈ b.rest ++ L.erase b, ∀ q, b'.Inner q → q ≠ b.last ∧ ¬ b.Covers q := by
    intro b' hb' q hq
    refine ⟨?_, (h.freed_apart hb hb').1.2 q hq⟩
    rintro rfl
    exact (h.freed_apart hb hb').2 hq
  refine ⟨h.mptr, h.mptr4, fun hne => ⟨?_, ?_⟩, fun b' hb' => ?_, ?_, ?_, ?_⟩
  · rw [Ne, h.freed_none hb hc hwrap]
    rintro (h0 | h0)
    · exact (h.opened hne).1 h0
    · exact h0.2.2 ⟨hne, rfl⟩
  · intro b' hb'
    rcases List.mem_append.1 hb' with hg | hmem'
    · exact Block.not_inner_of_mem_rest hg
    · exact (h.opened hne).2 b' (List.mem_of_mem_erase hmem')
  · rcases List.mem_append.1 hb' with hg | hmem'
    · obtain ⟨hlo, hhi⟩ := (h.block b hb).arena (Block.covers_last _)
      have heq := Block.mem_rest hg
      have hlast := (Block.first_last_of_mem_rest hg).2
      refine ⟨?_, hlast ▸ hhi, ?_, ?_, hmapped b' hb',
        fun q hq => absurd hq (Block.not_inner_of_mem_rest hg)⟩
      · rw [heq]
        simp only [mbegin, PGSIZE]
        omega
      · rw [heq]
        simp only [PGSIZE]
        omega
      · rw [heq]
        rfl
    · refine (h.block b' (List.mem_of_mem_erase hmem')).mono (fun q hq _ => hmapped b' hb' q hq)
        fun q hq hcont => ?_
      obtain ⟨hl, hcov⟩ := hfar b' hb' q hq
      rwa [freed_cont hl, if_neg hcov]
  · refine List.pairwise_append.2 ⟨?_, (h.apart_erase hb).2, fun g hg b' hb' => ⟨fun q hq =>
      absurd hq (Block.not_inner_of_mem_rest hg), fun q hq hcov => ?_⟩⟩
    · rw [Block.rest]
      split
      · exact List.pairwise_singleton _ _
      · exact .nil
    · rw [Block.covers_of_mem_rest hg] at hcov
      exact (h.freed_apart hb (hmem b' hb')).2 (hcov ▸ hq)
  · intro q hq hcont
    obtain ⟨b', hb', hin⟩ := h.cont q hq (by
      have hcont' := View.cont_of_drop hcont
      rw [View.release_cont] at hcont'
      split at hcont'
      · cases hcont'
      · exact hcont')
    refine ⟨b', hmem b' ((List.mem_erase_of_ne ?_).2 hb'), hin⟩
    rintro rfl
    have hl : q ≠ b'.last := fun heq => Block.not_inner_last (heq ▸ hin)
    rw [freed_cont hl, if_pos hin.covers] at hcont
    cases hcont
  · intro q d hq hd hno
    rw [freed_words] at hd
    by_cases hl : q = b.last
    · rw [if_pos hl] at hd
      split at hd
      · cases hd
      · obtain rfl := Option.some.inj hd
        rw [update_self, h.count_freed hb hc, hl]
    · rw [if_neg hl] at hd
      split at hd
      · cases hd
      · next hcov =>
          have hall : ∀ b' ∈ L, ¬ b'.Inner q := by
            intro b' hb' hin
            by_cases heq : b' = b
            · exact hcov (heq ▸ hin.covers)
            · exact hno b' (hmem b' ((List.mem_erase_of_ne heq).2 hb')) hin
          have hcnt := h.count q d hq hd hall
          rwa [refs_freed hb, if_neg (Ne.symm hl), Nat.zero_add] at hcnt

theorem perm (h : Heap V m L) {L' : List Block} (hp : L.Perm L') : Heap V m L' where
  mptr := h.mptr
  mptr4 := h.mptr4
  opened hne := ⟨(h.opened hne).1, fun b hb => (h.opened hne).2 b (hp.mem_iff.2 hb)⟩
  block b hb := h.block b (hp.mem_iff.2 hb)
  apart := (hp.pairwise_iff fun {_ _} h => Apart.symm h).1 h.apart
  cont pn hpn hc := by
    obtain ⟨b, hb, hin⟩ := h.cont pn hpn hc
    exact ⟨b, hp.mem_iff.1 hb, hin⟩
  count pn c hpn hc hno := by
    rw [← refs_perm hp]
    exact h.count pn c hpn hc fun b hb => hno b (hp.mem_iff.1 hb)

end Heap

/-! ## Few blocks -/

namespace HeapInv

variable {V V' : View} {m : ℕ} {L : List Block} {b : Block} {c : Idx → Word}

/-- A count is never larger than a word. -/
theorem count_lt (h : HeapInv V m L) (pn : ℕ) : refs L pn + held m pn < 2 ^ 32 := by
  have h1 := refs_le L pn
  have h2 := held_le m pn
  have h3 := h.few
  omega

/-- `malloc` can leave its page. -/
theorem noWrap (h : HeapInv V m L) (pn : ℕ) : NoWrap (refs L pn) :=
  noWrap_of_lt (lt_of_le_of_lt (Nat.le_add_right _ _) (h.count_lt pn))

/-- `free` can take a reference back. -/
theorem noWrap_freed (h : HeapInv V m L) (hb : b ∈ L) :
    NoWrap (refs (b.rest ++ L.erase b) b.last + held m b.last) := by
  have hlt := h.count_lt b.last
  rw [refs_freed hb, if_pos rfl] at hlt
  exact noWrap_of_lt (by omega)

theorem write (h : HeapInv V m L) {i : Idx} {w : Word} (hc : V.words pn = some c)
    (hi : (∀ b ∈ L, ¬ b.Inner pn) → i ≠ refIdx) : HeapInv (V.store pn (update c i w)) m L :=
  ⟨h.toHeap.write hc hi, h.few⟩

theorem fork (h : HeapInv V m L) (hw : ∀ q, Arena q → V'.words q = V.words q)
    (hcont : ∀ q, Arena q → V'.cont q = true → V.cont q = true) :
    HeapInv V' m (L.map Block.fork) := by
  refine ⟨h.toHeap.fork hw hcont, ?_⟩
  rw [List.length_map]
  exact h.few

/-- **`free`** of a block that does not end with a page. -/
theorem freed_none (h : HeapInv V m L) (hb : b ∈ L) (hend : (b.addr + b.size) % PGSIZE ≠ 0)
    (hc : V.words b.last = some c) (q : ℕ) :
    (V.freed b c).words q = none ↔
      V.words q = none ∨ b.Covers q ∧ (∀ b' ∈ L.erase b, ¬ b'.Covers q) ∧ ¬ Open m q := by
  have hnone := h.toHeap.freed_none hb hc (h.noWrap_freed hb) q
  rwa [Block.rest_eq_nil hend] at hnone

theorem free (h : HeapInv V m L) (hb : b ∈ L) (hend : (b.addr + b.size) % PGSIZE ≠ 0)
    (hc : V.words b.last = some c) :
    HeapInv (V.freed b c) m (L.erase b) := by
  have hheap := h.toHeap.free hb hc (h.noWrap_freed hb)
  rw [Block.rest_eq_nil hend] at hheap
  exact ⟨hheap, lt_of_le_of_lt List.length_erase_le h.few⟩

end HeapInv

end Jos.Malloc
