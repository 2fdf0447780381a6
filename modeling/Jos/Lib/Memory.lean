import Jos.Lib.ByteMem

/-!
# Memory at natural-number addresses

Memory as a function from natural numbers to bytes, for code whose pointers
never wrap around.  Words are little-endian and need not be aligned.

* `word`, `setWord` — a word.
* `put` — the store of a list of bytes.

Every operation has one lemma for the bytes it leaves alone, so that a reader
of memory is carried over it by comparing ranges.
-/

namespace Jos

/-- Memory, byte by byte. -/
abbrev Memory := ℕ → BitVec 8

namespace Memory

/-- The word at `a`. -/
def word (m : Memory) (a : ℕ) : BitVec 32 := m (a + 3) ++ m (a + 2) ++ m (a + 1) ++ m a

/-- Store the word `w` at `a`. -/
def setWord (m : Memory) (a : ℕ) (w : BitVec 32) : Memory := fun x =>
  if a ≤ x ∧ x < a + 4 then byteOf w (x - a) else m x

/-- Store the bytes `l` from `a` on. -/
def put (m : Memory) (a : ℕ) (l : List (BitVec 8)) : Memory := fun x =>
  if a ≤ x ∧ x < a + l.length then l.getD (x - a) 0#8 else m x

variable {m m' : Memory} {a b x n dst src : ℕ} {w : BitVec 32} {v : BitVec 8}

/-! ## Which bytes change -/

theorem setWord_of_apart (h : x < a ∨ a + 4 ≤ x) : m.setWord a w x = m x := by
  rw [setWord, if_neg (by omega)]

theorem put_of_apart {l : List (BitVec 8)} (h : x < a ∨ a + l.length ≤ x) : m.put a l x = m x := by
  rw [put, if_neg (by omega)]

/-! ## Words -/

/-- A word depends on its four bytes. -/
theorem word_congr (h : ∀ x, a ≤ x → x < a + 4 → m' x = m x) : m'.word a = m.word a := by
  rw [word, h a (by omega) (by omega), h (a + 1) (by omega) (by omega),
    h (a + 2) (by omega) (by omega), h (a + 3) (by omega) (by omega), word]

@[simp] theorem word_setWord_self : (m.setWord a w).word a = w := by
  have hbyte : ∀ k, k < 4 → m.setWord a w (a + k) = byteOf w k := by
    intro k hk
    rw [setWord, if_pos (by omega), Nat.add_sub_cancel_left]
  have h0 : m.setWord a w a = byteOf w 0 := hbyte 0 (by omega)
  rw [word, hbyte 3 (by omega), hbyte 2 (by omega), hbyte 1 (by omega), h0]
  exact append_byteOf w

theorem word_setWord_of_apart (h : b + 4 ≤ a ∨ a + 4 ≤ b) :
    (m.setWord a w).word b = m.word b :=
  word_congr fun _ _ _ => setWord_of_apart (by omega)

end Memory

end Jos
