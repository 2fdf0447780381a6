import Mathlib.Tactic

/-!
# Byte-addressed memory

Memory of a 32-bit little-endian machine as a function from addresses to bytes,
with loads and stores of words.  Addresses wrap around, and words need not be
aligned: a byte `x` belongs to the word at `a` if `x - a < 4`.

* `load32`, `store32` — a word.
* `storeWords` — several words, one after the other.
* `load32_congr` and the lemmas on stores say which bytes a load depends on and
  which bytes a store leaves alone.
-/

namespace Jos

/-- Memory, byte by byte. -/
abbrev ByteMem := BitVec 32 → BitVec 8

/-- Byte `i` of a word. -/
def byteOf (w : BitVec 32) (i : ℕ) : BitVec 8 := w.extractLsb' (8 * i) 8

/-- The word at `a`. -/
def load32 (m : ByteMem) (a : BitVec 32) : BitVec 32 :=
  m (a + 3#32) ++ m (a + 2#32) ++ m (a + 1#32) ++ m a

/-- Store the word `w` at `a`. -/
def store32 (m : ByteMem) (a w : BitVec 32) : ByteMem := fun x =>
  if (x - a).toNat < 4 then byteOf w (x - a).toNat else m x

/-- Store words from `a` on. -/
def storeWords (m : ByteMem) (a : BitVec 32) : List (BitVec 32) → ByteMem
  | [] => m
  | w :: ws => storeWords (store32 m a w) (a + 4#32) ws

variable {m m' : ByteMem} {a b x w : BitVec 32}

theorem add_sub_self (a k : BitVec 32) : a + k - a = k := by
  rw [BitVec.add_comm, BitVec.add_sub_cancel]

/-- The distance to the next word. -/
theorem toNat_sub_next (h : 4 ≤ (x - a).toNat) : (x - (a + 4#32)).toNat = (x - a).toNat - 4 := by
  bv_omega

/-- A load depends on the four bytes of the word. -/
theorem load32_congr (h : ∀ x, (x - a).toNat < 4 → m' x = m x) : load32 m' a = load32 m a := by
  have h0 : m' a = m a := h a (by rw [BitVec.sub_self]; decide)
  have h1 : m' (a + 1#32) = m (a + 1#32) := h _ (by rw [add_sub_self]; decide)
  have h2 : m' (a + 2#32) = m (a + 2#32) := h _ (by rw [add_sub_self]; decide)
  have h3 : m' (a + 3#32) = m (a + 3#32) := h _ (by rw [add_sub_self]; decide)
  rw [load32, h0, h1, h2, h3, load32]

theorem store32_of_lt (h : (x - a).toNat < 4) : store32 m a w x = byteOf w (x - a).toNat := by
  rw [store32, if_pos h]

theorem store32_of_le (h : 4 ≤ (x - a).toNat) : store32 m a w x = m x := by
  rw [store32, if_neg (by omega)]

/-- A stored word, byte by byte. -/
theorem store32_apply : store32 m a w x =
    if x = a + 3#32 then byteOf w 3 else if x = a + 2#32 then byteOf w 2
    else if x = a + 1#32 then byteOf w 1 else if x = a then byteOf w 0 else m x := by
  have hoff : ∀ k : BitVec 32, x = a + k ↔ (x - a).toNat = k.toNat := by
    intro k
    constructor
    · rintro rfl
      rw [add_sub_self]
    · intro h
      have hk : x - a = k := BitVec.eq_of_toNat_eq h
      rw [← hk, BitVec.add_comm, BitVec.sub_add_cancel]
  have h0 : x = a ↔ (x - a).toNat = 0 := by simpa using hoff 0#32
  simp only [hoff, h0, store32, BitVec.toNat_ofNat]
  split_ifs with h h3 h2 h1 h0
  all_goals first | rw [h3] | rw [h2] | rw [h1] | rw [h0] | rfl | omega

/-- The bytes of a word, put together again. -/
theorem append_byteOf (w : BitVec 32) : byteOf w 3 ++ byteOf w 2 ++ byteOf w 1 ++ byteOf w 0 = w := by
  ext i hi
  simp only [byteOf, BitVec.getElem_append, BitVec.getElem_extractLsb']
  split_ifs with h₀ h₁ h₂
  · rw [← BitVec.getLsbD_eq_getElem hi, Nat.mul_zero, Nat.zero_add]
  · rw [← BitVec.getLsbD_eq_getElem hi]
    congr 1
    omega
  · rw [← BitVec.getLsbD_eq_getElem hi]
    congr 1
    omega
  · rw [← BitVec.getLsbD_eq_getElem hi]
    congr 1
    omega

/-- What was stored is loaded. -/
@[simp] theorem load32_store32_self : load32 (store32 m a w) a = w := by
  have hbyte : ∀ k : BitVec 32, k.toNat < 4 → store32 m a w (a + k) = byteOf w k.toNat := by
    intro k hk
    rw [store32_of_lt (by rwa [add_sub_self]), add_sub_self]
  have h0 := hbyte 0#32 (by decide)
  rw [BitVec.add_zero] at h0
  rw [load32, hbyte 3#32 (by decide), hbyte 2#32 (by decide), hbyte 1#32 (by decide), h0]
  exact append_byteOf w

/-- A load elsewhere is not affected. -/
theorem load32_store32_of_disjoint (h : 4 ≤ (b - a).toNat) (h' : (b - a).toNat + 4 ≤ 2 ^ 32) :
    load32 (store32 m a w) b = load32 m b := by
  refine load32_congr fun x hx => store32_of_le ?_
  bv_omega

/-- Bytes beyond the words stored are left alone. -/
theorem storeWords_of_le (ws : List (BitVec 32)) :
    ∀ (m : ByteMem) (a : BitVec 32), 4 * ws.length ≤ (x - a).toNat → storeWords m a ws x = m x := by
  induction ws with
  | nil =>
    intro m a _
    rfl
  | cons w ws ih =>
    intro m a h
    rw [List.length_cons] at h
    have hnext := toNat_sub_next (x := x) (a := a) (by omega)
    rw [storeWords, ih _ _ (by omega), store32_of_le (by omega)]

/-- What was stored is loaded. -/
theorem load32_storeWords (ws : List (BitVec 32)) :
    ∀ (m : ByteMem) (a : BitVec 32) (j : ℕ) (hj : j < ws.length), 4 * ws.length ≤ 2 ^ 32 →
      load32 (storeWords m a ws) (a + BitVec.ofNat 32 (4 * j)) = ws[j] := by
  induction ws with
  | nil =>
    intro m a j hj
    simp at hj
  | cons w ws ih =>
    intro m a j hj hlen
    rw [List.length_cons] at hj hlen
    cases j with
    | zero =>
      -- the words behind do not reach back to the first one
      have hrest : ∀ x, (x - a).toNat < 4 →
          storeWords (store32 m a w) (a + 4#32) ws x = store32 m a w x := by
        intro x hx
        refine storeWords_of_le ws _ _ ?_
        have hwrap : (x - (a + 4#32)).toNat = 2 ^ 32 - 4 + (x - a).toNat := by bv_omega
        omega
      have h0 : a + BitVec.ofNat 32 (4 * 0) = a := by simp
      rw [h0, storeWords, load32_congr hrest, load32_store32_self]
      rfl
    | succ j =>
      have hnext : a + BitVec.ofNat 32 (4 * (j + 1))
          = a + 4#32 + BitVec.ofNat 32 (4 * j) := by
        rw [Nat.mul_succ, Nat.add_comm, BitVec.ofNat_add, BitVec.add_assoc]
      rw [hnext, storeWords, ih _ _ j (by omega) (by omega)]
      rfl

end Jos
