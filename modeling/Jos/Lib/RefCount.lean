import Jos.Lib.Chain
import Mathlib.Data.Fintype.Card
import Mathlib.Data.BitVec

/-!
# Reference counting over a finite set of sites

An allocator hands out objects; *sites* (table entries, fields, …) refer to
objects; every object carries a machine-word counter and goes back to an
intrusive free list when the counter reaches zero.  This file is that pattern
on its own, for any finite type `S` of sites and any type `P` of objects.

* `refs target p` — how many sites refer to `p`.
* `Exclusive own target` — the sites in `own` share their objects with nobody.
* `RefAlloc.Inv` — the counters equal `refs`, and the free list holds exactly
  the objects that are neither referred to nor `held` (taken from the list by
  a caller that has not referred to them yet).
* `Inv.pop`, `Inv.push`, `Inv.acquire`, `Inv.release_last` and
  `Inv.release_more` — the five ways the state moves.  Only `Inv.acquire` has
  a condition on the counter: it must not be at its largest value.
-/

namespace Jos

open Function (update update_eq_self update_idem update_of_ne update_self)

variable {S P : Type} [Fintype S] [DecidableEq S] [DecidableEq P]

/-! ## Counting sites -/

/-- The number of sites that refer to `p`. -/
def refs (target : S → Option P) (p : P) : ℕ :=
  (Finset.univ.filter fun s => target s = some p).card

variable {target : S → Option P} {p : P} {s : S}

omit [DecidableEq S] in
theorem refs_eq_zero : refs target p = 0 ↔ ∀ s, target s ≠ some p := by
  simp [refs, Finset.filter_eq_empty_iff]

omit [DecidableEq S] in
theorem refs_ne_zero (h : target s = some p) : refs target p ≠ 0 :=
  fun h0 => refs_eq_zero.1 h0 s h

omit [DecidableEq S] in
/-- The only site that refers to an object counted once. -/
theorem eq_of_refs_eq_one {s' : S} (h1 : refs target p = 1) (hs : target s = some p)
    (hs' : target s' = some p) : s = s' := by
  obtain ⟨x, hx⟩ := Finset.card_eq_one.1 h1
  have h : ∀ y, target y = some p → y = x := fun y hy => by
    have : y ∈ Finset.univ.filter fun s => target s = some p := by simpa using hy
    simpa [hx] using this
  rw [h s hs, h s' hs']

omit [DecidableEq S] in
/-- An object with a single reference. -/
theorem refs_eq_one (hs : target s = some p) (honly : ∀ s', target s' = some p → s' = s) :
    refs target p = 1 := by
  refine Finset.card_eq_one.2 ⟨s, Finset.ext fun s' => ?_⟩
  simp only [Finset.mem_filter, Finset.mem_univ, true_and, Finset.mem_singleton]
  exact ⟨honly s', fun h => h ▸ hs⟩

omit [DecidableEq S] in
/-- More references count more. -/
theorem refs_lt_refs {f g : S → Option P} (hkeep : ∀ s', f s' = some p → g s' = some p)
    (hold : f s ≠ some p) (hnew : g s = some p) : refs f p < refs g p := by
  refine Finset.card_lt_card (Finset.ssubset_iff_subset_ne.2 ⟨fun s' hs' => ?_, fun heq => hold ?_⟩)
  · simp only [Finset.mem_filter, Finset.mem_univ, true_and] at hs' ⊢
    exact hkeep s' hs'
  · have hs : s ∈ Finset.univ.filter fun s => g s = some p := by simpa using hnew
    rw [← heq] at hs
    simpa using hs

/-- A new reference from a free site counts one more. -/
theorem refs_update_some (hs : target s = none) (p q : P) :
    refs (update target s (some p)) q = refs target q + if q = p then 1 else 0 := by
  unfold refs
  by_cases hqp : q = p
  · subst hqp
    have hset : (Finset.univ.filter fun x => update target s (some q) x = some q)
        = insert s (Finset.univ.filter fun x => target x = some q) := by
      ext x
      by_cases hx : x = s
      · subst hx; simp
      · simp [hx]
    rw [hset, Finset.card_insert_of_notMem (by simp [hs]), if_pos rfl]
  · have hset : (Finset.univ.filter fun x => update target s (some p) x = some q)
        = Finset.univ.filter fun x => target x = some q := by
      ext x
      by_cases hx : x = s
      · subst hx; simp [hs, Ne.symm hqp]
      · simp [update_of_ne hx]
    rw [hset, if_neg hqp, add_zero]

/-- Dropping a reference counts one less. -/
theorem refs_update_none (hs : target s = some p) (q : P) :
    refs target q = refs (update target s none) q + if q = p then 1 else 0 := by
  have hfree : update target s none s = none := update_self ..
  have h := refs_update_some hfree p q
  rwa [update_idem, ← hs, update_eq_self] at h

/-- A change at a site that neither did nor does refer to `q` leaves its count. -/
theorem refs_update_of_ne {x : Option P} {q : P} (hs : target s ≠ some q) (hx : x ≠ some q) :
    refs (update target s x) q = refs target q := by
  unfold refs
  congr 1
  ext y
  by_cases hy : y = s
  · subst hy; simp [hs, hx]
  · simp [update_of_ne hy]

/-- One change counts one more at most. -/
theorem refs_update_le (target : S → Option P) (s : S) (x : Option P) (q : P) :
    refs (update target s x) q ≤ refs target q + 1 := by
  refine (Finset.card_le_card fun s' hs => ?_).trans (Finset.card_insert_le s _)
  simp only [Finset.mem_filter, Finset.mem_univ, true_and, Finset.mem_insert] at hs ⊢
  by_cases heq : s' = s
  · exact .inl heq
  · rw [update_of_ne heq] at hs
    exact .inr hs

/-- A change to something else never counts more. -/
theorem refs_update_le_of_ne {x : Option P} {q : P} (target : S → Option P) (s : S)
    (hx : x ≠ some q) : refs (update target s x) q ≤ refs target q := by
  refine Finset.card_le_card fun s' hs => ?_
  simp only [Finset.mem_filter, Finset.mem_univ, true_and] at hs ⊢
  by_cases heq : s' = s
  · subst heq
    rw [update_self] at hs
    exact absurd hs hx
  · rwa [update_of_ne heq] at hs

/-! ## Sites that own what they refer to -/

/-- The sites in `own` are the only reference to their object. -/
def Exclusive (own : S → Prop) (target : S → Option P) : Prop :=
  ∀ s p, own s → target s = some p → refs target p = 1

namespace Exclusive

variable {own : S → Prop} {target : S → Option P} {s s' : S} {p : P}

omit [DecidableEq S] in
theorem site_unique (h : Exclusive own target) (hs : own s) (h1 : target s = some p)
    (h2 : target s' = some p) : s' = s :=
  eq_of_refs_eq_one (h s p hs h1) h2 h1

theorem update_none (h : Exclusive own target) (s : S) :
    Exclusive own (update target s none) := by
  intro s' q hs' hq
  have hne : s' ≠ s := by
    rintro rfl
    simp at hq
  rw [update_of_ne hne] at hq
  rw [refs_update_of_ne (fun hsq => hne (h.site_unique hs' hq hsq).symm) (by simp)]
  exact h s' q hs' hq

/-- A site that owns nothing may refer to any object that is not owned. -/
theorem update_shared (h : Exclusive own target) (hs : ¬ own s)
    (hp : ∀ s', own s' → target s' ≠ some p) :
    Exclusive own (update target s (some p)) := by
  intro s' q hs' hq
  have hne : s' ≠ s := by
    rintro rfl
    exact hs hs'
  rw [update_of_ne hne] at hq
  have hpq : some p ≠ some q := by
    rintro hpq
    exact hp s' hs' (hpq ▸ hq)
  rw [refs_update_of_ne (fun hsq => hne (h.site_unique hs' hq hsq).symm) hpq]
  exact h s' q hs' hq

/-- Any free site may take an object nobody refers to. -/
theorem update_fresh (h : Exclusive own target) (hs : target s = none)
    (hp : refs target p = 0) : Exclusive own (update target s (some p)) := by
  intro s' q hs' hq
  rw [refs_update_some hs]
  by_cases hne : s' = s
  · subst hne
    obtain rfl : p = q := by simpa using hq
    rw [hp, if_pos rfl]
  · rw [update_of_ne hne] at hq
    have hqp : q ≠ p := by
      rintro rfl
      exact refs_ne_zero hq hp
    rw [h s' q hs' hq, if_neg hqp]

end Exclusive

/-! ## The allocator -/

/-- The allocator's own data: the free list and one `w`-bit counter per object. -/
structure RefAlloc (w : ℕ) (P : Type) where
  /-- The first free object. -/
  head : Option P
  /-- The link field of each object. -/
  link : P → Option P
  /-- The counter of each object. -/
  ref : P → BitVec w

namespace RefAlloc

variable {w : ℕ}

/-- Take `p` off the head of the free list. -/
def pop (a : RefAlloc w P) (p : P) : RefAlloc w P :=
  { a with head := a.link p, link := update a.link p none }

/-- Put `p` at the head of the free list. -/
def push (a : RefAlloc w P) (p : P) : RefAlloc w P :=
  { a with head := some p, link := update a.link p a.head }

/-- Count `p` once more. -/
def incr (a : RefAlloc w P) (p : P) : RefAlloc w P :=
  { a with ref := update a.ref p (a.ref p + 1#w) }

/-- Count `p` once less. -/
def decr (a : RefAlloc w P) (p : P) : RefAlloc w P :=
  { a with ref := update a.ref p (a.ref p - 1#w) }

/-- **The allocator's invariant**, relative to the objects it manages
(`avail`), the objects its callers hold without having referred to them yet
(`held`), and the references themselves. -/
structure Inv (a : RefAlloc w P) (avail : P → Prop) (held : Finset P) (target : S → Option P) :
    Prop where
  /-- The free list is acyclic, duplicate-free, and holds exactly the unused objects. -/
  chain : ∃ l, Chain a.link a.head l ∧ l.Nodup ∧
    ∀ p, p ∈ l ↔ avail p ∧ p ∉ held ∧ refs target p = 0
  /-- Counters count. -/
  count : ∀ p, avail p → (a.ref p).toNat = refs target p
  /-- Objects in use are not linked. -/
  unlinked : ∀ p, avail p → p ∈ held ∨ refs target p ≠ 0 → a.link p = none
  /-- References go to managed objects. -/
  target_avail : ∀ s p, target s = some p → avail p
  /-- Held objects are managed, and not referred to. -/
  held_avail : ∀ p ∈ held, avail p ∧ refs target p = 0

namespace Inv

variable {a : RefAlloc w P} {avail : P → Prop} {held : Finset P} {target : S → Option P}

omit [DecidableEq S] in
theorem onList_iff (h : a.Inv avail held target) (p : P) :
    OnList a.link a.head p ↔ avail p ∧ p ∉ held ∧ refs target p = 0 := by
  obtain ⟨l, hc, -, hmem⟩ := h.chain
  rw [hc.onList_iff_mem, hmem]

omit [DecidableEq S] in
/-- The head of the free list is an unused object. -/
theorem head_spec (h : a.Inv avail held target) (hh : a.head = some p) :
    avail p ∧ p ∉ held ∧ refs target p = 0 := by
  rw [← h.onList_iff, hh]
  exact .here p

omit [DecidableEq S] in
/-- Taking an object off the free list. -/
theorem pop (h : a.Inv avail held target) (hh : a.head = some p) :
    (a.pop p).Inv avail (insert p held) target := by
  obtain ⟨hav, hnh, h0⟩ := h.head_spec hh
  obtain ⟨l, hc, hnd, hmem⟩ := h.chain
  rw [hh] at hc
  obtain ⟨t, rfl, ht⟩ := hc.pop hnd
  obtain ⟨hpt, hndt⟩ := List.nodup_cons.1 hnd
  refine ⟨⟨t, ht, hndt, fun q => ?_⟩, h.count, ?_, h.target_avail, ?_⟩
  · have hq := hmem q
    rw [List.mem_cons] at hq
    by_cases hqp : q = p
    · subst hqp; simp [hpt]
    · simpa [hqp] using hq
  · intro q hq hor
    by_cases hqp : q = p
    · subst hqp; exact update_self ..
    · refine (update_of_ne hqp _ _).trans (h.unlinked q hq ?_)
      simpa [hqp] using hor
  · intro q hq
    rcases Finset.mem_insert.1 hq with rfl | hq
    · exact ⟨hav, h0⟩
    · exact h.held_avail q hq

/-- A free site takes a reference to an object in use, whose counter has room. -/
theorem acquire (h : a.Inv avail held target) (hs : target s = none) (hav : avail p)
    (hown : p ∈ held ∨ refs target p ≠ 0) (hroom : a.ref p ≠ BitVec.allOnes w) :
    (a.incr p).Inv avail (held.erase p) (update target s (some p)) := by
  have hrefs := fun q => refs_update_some hs p q
  refine ⟨?_, ?_, ?_, ?_, ?_⟩
  · obtain ⟨l, hc, hnd, hmem⟩ := h.chain
    refine ⟨l, hc, hnd, fun q => ?_⟩
    rw [hmem, hrefs]
    by_cases hqp : q = p
    · subst hqp
      rw [if_pos rfl]
      refine iff_of_false ?_ (fun hc => absurd hc.2.2 (Nat.succ_ne_zero _))
      rintro ⟨-, hnh, h0⟩
      exact hown.elim hnh (fun h' => h' h0)
    · simp [hqp]
  · intro q hq
    rw [hrefs]
    by_cases hqp : q = p
    · subst hqp
      have hlt : (a.ref q).toNat + 1 < 2 ^ w := by
        have h1 := (a.ref q).isLt
        have h2 : (a.ref q).toNat ≠ 2 ^ w - 1 := fun he =>
          hroom (BitVec.eq_of_toNat_eq (by rw [he, BitVec.toNat_allOnes]))
        omega
      have hw1 : 1 < 2 ^ w := by omega
      simp only [incr, update_self, if_true]
      rw [BitVec.toNat_add, BitVec.toNat_ofNat, Nat.mod_eq_of_lt hw1, Nat.mod_eq_of_lt hlt,
        h.count q hq]
    · simp only [incr, update_of_ne hqp, hqp, if_false, h.count q hq, add_zero]
  · intro q hq hor
    refine h.unlinked q hq ?_
    rw [hrefs] at hor
    by_cases hqp : q = p
    · subst hqp; exact hown
    · simpa [hqp] using hor
  · intro x q hx
    by_cases hxs : x = s
    · subst hxs
      rw [update_self] at hx
      obtain rfl : p = q := by simpa using hx
      exact hav
    · rw [update_of_ne hxs] at hx
      exact h.target_avail x q hx
  · intro q hq
    obtain ⟨hqp, hqh⟩ := Finset.mem_erase.1 hq
    obtain ⟨h1, h2⟩ := h.held_avail q hqh
    exact ⟨h1, by rw [hrefs, h2, if_neg hqp]⟩

/-- After counting down, the counter is zero exactly when the last reference is gone. -/
theorem decr_toNat (h : a.Inv avail held target) (hs : target s = some p) :
    (a.ref p - 1#w).toNat = refs (update target s none) p := by
  have hc := h.count p (h.target_avail s p hs)
  have hr := refs_update_none hs p
  rw [if_pos rfl] at hr
  have hw1 : 1 < 2 ^ w ∨ 2 ^ w = 1 := by
    have := Nat.one_le_two_pow (n := w)
    omega
  rcases hw1 with hw1 | hw1
  · rw [BitVec.toNat_sub, BitVec.toNat_ofNat, Nat.mod_eq_of_lt hw1]
    rw [show 2 ^ w - 1 + (a.ref p).toNat = (a.ref p).toNat - 1 + 2 ^ w by omega,
      Nat.add_mod_right, Nat.mod_eq_of_lt (by omega)]
    omega
  · omega

/-- Dropping the last reference: the object goes back to the free list. -/
theorem release_last (h : a.Inv avail held target) (hs : target s = some p)
    (h0 : a.ref p - 1#w = 0#w) : ((a.decr p).push p).Inv avail held (update target s none) := by
  have hav := h.target_avail s p hs
  have hrefs := fun q => refs_update_none hs q
  have hz : refs (update target s none) p = 0 := by
    rw [← h.decr_toNat hs, h0]; simp
  have hph : p ∉ held := fun hp => refs_ne_zero hs (h.held_avail p hp).2
  obtain ⟨l, hc, hnd, hmem⟩ := h.chain
  have hpl : p ∉ l := fun hpl => refs_ne_zero hs ((hmem p).1 hpl).2.2
  refine ⟨⟨p :: l, hc.push hpl, List.nodup_cons.2 ⟨hpl, hnd⟩, fun q => ?_⟩, ?_, ?_, ?_, ?_⟩
  · rw [List.mem_cons, hmem]
    by_cases hqp : q = p
    · subst hqp; simp [hav, hz, hph]
    · have := hrefs q
      rw [if_neg hqp, add_zero] at this
      simp [hqp, this]
  · intro q hq
    by_cases hqp : q = p
    · subst hqp
      simp only [RefAlloc.push, decr, update_self, h0, hz]
      simp
    · have := hrefs q
      rw [if_neg hqp, add_zero] at this
      simp only [RefAlloc.push, decr, update_of_ne hqp, h.count q hq, this]
  · intro q hq hor
    have hqp : q ≠ p := by
      rintro rfl
      simp [hz, hph] at hor
    have := hrefs q
    rw [if_neg hqp, add_zero] at this
    exact (update_of_ne hqp _ _).trans (h.unlinked q hq (by rwa [this]))
  · intro x q hx
    by_cases hxs : x = s
    · subst hxs; simp at hx
    · rw [update_of_ne hxs] at hx
      exact h.target_avail x q hx
  · intro q hq
    obtain ⟨h1, h2⟩ := h.held_avail q hq
    have := hrefs q
    exact ⟨h1, by omega⟩

/-- Dropping a reference that was not the last. -/
theorem release_more (h : a.Inv avail held target) (hs : target s = some p)
    (h0 : a.ref p - 1#w ≠ 0#w) : (a.decr p).Inv avail held (update target s none) := by
  have hav := h.target_avail s p hs
  have hrefs := fun q => refs_update_none hs q
  have hz : refs (update target s none) p ≠ 0 := by
    rw [← h.decr_toNat hs]
    exact fun hc => h0 (BitVec.eq_of_toNat_eq (by simpa using hc))
  have hne : ∀ q, refs (update target s none) q = 0 ↔ refs target q = 0 := by
    intro q
    by_cases hqp : q = p
    · subst hqp; simp [hz, refs_ne_zero hs]
    · rw [hrefs q, if_neg hqp, add_zero]
  refine ⟨?_, ?_, ?_, ?_, ?_⟩
  · obtain ⟨l, hc, hnd, hmem⟩ := h.chain
    exact ⟨l, hc, hnd, fun q => by rw [hmem, hne]⟩
  · intro q hq
    by_cases hqp : q = p
    · subst hqp
      simp only [decr, update_self, h.decr_toNat hs]
    · have := hrefs q
      rw [if_neg hqp, add_zero] at this
      simp only [decr, update_of_ne hqp, h.count q hq, this]
  · intro q hq hor
    exact h.unlinked q hq (by rwa [ne_eq, hne] at hor)
  · intro x q hx
    by_cases hxs : x = s
    · subst hxs; simp at hx
    · rw [update_of_ne hxs] at hx
      exact h.target_avail x q hx
  · intro q hq
    obtain ⟨h1, h2⟩ := h.held_avail q hq
    exact ⟨h1, (hne q).2 h2⟩

end Inv

end RefAlloc

end Jos
