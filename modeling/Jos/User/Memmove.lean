import Jos.Lib.ByteMem

/-!
# Moving and filling memory

`memmove` and `memset` of `lib/string.c`, in assembly and in C.  Pointers are words, and memory is
byte-addressed; the string instructions go up or down as the direction flag says.

* `movsl_up`, `movsl_down` — word by word is the same as byte by byte, in the same direction,
  where the two addresses are a multiple of 4 apart: a word that is stored holds no byte of the
  word that is loaded unless they are the same word.
* `movsb_up`, `movsb_down` — what a copy leaves in memory, if it does not run into what it has
  still to read.
* `memmoveAsm_eq`, `memmoveAsm_moves`, `memsetAsm_fills` — the assembly versions.
* `agrees_iff` — they agree with the versions in C, except that `memset` in C counts with an `int`.
-/

namespace Jos.Memmove

open Function (update update_of_ne update_self)

abbrev Addr := BitVec 32

/-! ## String instructions -/

/-- `rep movsb`, `n` times; the pointers move by `step`. -/
def movsb (step : Addr) : ℕ → Addr → Addr → ByteMem → ByteMem
  | 0, _, _, m => m
  | n + 1, d, s, m => movsb step n (d + step) (s + step) (update m d (m s))

/-- `rep movsl`. -/
def movsl (step : Addr) : ℕ → Addr → Addr → ByteMem → ByteMem
  | 0, _, _, m => m
  | n + 1, d, s, m => movsl step n (d + step) (s + step) (store32 m d (load32 m s))

/-- `cld; rep stosb`. -/
def stosb (al : BitVec 8) : ℕ → Addr → ByteMem → ByteMem
  | 0, _, m => m
  | n + 1, d, m => stosb al n (d + 1#32) (update m d al)

/-- `cld; rep stosl`. -/
def stosl (eax : BitVec 32) : ℕ → Addr → ByteMem → ByteMem
  | 0, _, m => m
  | n + 1, d, m => stosl eax n (d + 4#32) (store32 m d eax)

/-! ## The functions -/

/-- `(int)p % 4 == 0`. -/
def aligned (p : Addr) : Bool := p.toInt.tmod 4 = 0

/-- `memmove` in assembly. -/
def memmoveAsm (dst src n : BitVec 32) (m : ByteMem) : ByteMem :=
  if src < dst ∧ src + n > dst then
    if aligned (src + n) ∧ aligned (dst + n) ∧ n % 4#32 = 0#32 then
      movsl (-4#32) (n / 4#32).toNat (dst + n - 4#32) (src + n - 4#32) m
    else movsb (-1#32) n.toNat (dst + n - 1#32) (src + n - 1#32) m
  else
    if aligned src ∧ aligned dst ∧ n % 4#32 = 0#32 then movsl 4#32 (n / 4#32).toNat dst src m
    else movsb 1#32 n.toNat dst src m

/-- `while (n-- > 0) *--d = *--s;` -/
def copyDown : ℕ → Addr → Addr → ByteMem → ByteMem
  | 0, _, _, m => m
  | n + 1, d, s, m => copyDown n (d - 1#32) (s - 1#32) (update m (d - 1#32) (m (s - 1#32)))

/-- `while (n-- > 0) *d++ = *s++;` -/
def copyUp : ℕ → Addr → Addr → ByteMem → ByteMem
  | 0, _, _, m => m
  | n + 1, d, s, m => copyUp n (d + 1#32) (s + 1#32) (update m d (m s))

/-- `memmove` in C. -/
def memmoveC (dst src n : BitVec 32) (m : ByteMem) : ByteMem :=
  if src < dst ∧ src + n > dst then copyDown n.toNat (dst + n) (src + n) m
  else copyUp n.toNat dst src m

/-- `memset` in assembly. -/
def memsetAsm (v c n : BitVec 32) (m : ByteMem) : ByteMem :=
  if n = 0#32 then m
  else if aligned v ∧ n % 4#32 = 0#32 then
    let c := c &&& 0xff#32
    stosl ((c <<< 24) ||| (c <<< 16) ||| (c <<< 8) ||| c) (n / 4#32).toNat v m
  else stosb (c.setWidth 8) n.toNat v m

/-- `while (--m >= 0) *p++ = c;`, where the smallest `int` cannot be decremented. -/
def fillLoop (c : BitVec 8) (n : ℤ) (p : Addr) (m : ByteMem) : Option ByteMem :=
  if n = -2147483648 then none else some (stosb c n.toNat p m)

/-- `memset` in C: `m = n`, an `int`. -/
def memsetC (v c n : BitVec 32) (m : ByteMem) : Option ByteMem :=
  fillLoop (c.setWidth 8) n.toInt v m

/-! ## Copies -/

section Copies

variable {m : ByteMem} {d s : Addr} {n : ℕ}

/-- Memory once `n` bytes have moved from `s` to `d`, as they were before. -/
def moved (d s : Addr) (n : ℕ) (m : ByteMem) : ByteMem := fun x =>
  if (x - d).toNat < n then m (s + (x - d)) else m x

/-- A copy that goes up is right if it does not store to what it has still to load.  The induction
is on the number of bytes; the distance of the two pointers stays. -/
theorem movsb_up (hn : n ≤ 2 ^ 32) (h : (d - s).toNat = 0 ∨ n ≤ (d - s).toNat) :
    movsb 1#32 n d s m = moved d s n m := by
  induction n generalizing d s m with
  | zero => rfl
  | succ n ih =>
    have hdist : d + 1#32 - (s + 1#32) = d - s := by bv_omega
    rw [movsb, ih (by omega) (by rw [hdist]; omega)]
    funext x
    have hsrc : s + 1#32 + (x - (d + 1#32)) = s + (x - d) := by bv_omega
    unfold moved
    rw [hsrc]
    by_cases hx : x = d
    · subst hx
      rw [if_neg (by bv_omega), update_self, if_pos (by bv_omega), BitVec.sub_self,
        BitVec.add_zero]
    · rw [update_of_ne hx]
      by_cases hin : (x - d).toNat < n + 1
      · rw [if_pos (by bv_omega), if_pos hin, update_of_ne (by bv_omega)]
      · rw [if_neg (by bv_omega), if_neg hin]

theorem copyDown_moves (hn : n ≤ 2 ^ 32) (h : (s - d).toNat = 0 ∨ n ≤ (s - d).toNat) :
    copyDown n (d + BitVec.ofNat 32 n) (s + BitVec.ofNat 32 n) m = moved d s n m := by
  induction n generalizing m with
  | zero => rfl
  | succ n ih =>
    have hpred : ∀ p : Addr, p + BitVec.ofNat 32 (n + 1) - 1#32 = p + BitVec.ofNat 32 n := by
      intro p
      rw [BitVec.ofNat_add, ← BitVec.add_assoc, BitVec.add_sub_cancel]
    rw [copyDown, hpred, hpred, ih (by omega) (by omega)]
    funext x
    unfold moved
    have hlast : (BitVec.ofNat 32 n).toNat = n := by
      rw [BitVec.toNat_ofNat]
      exact Nat.mod_eq_of_lt (by omega)
    generalize BitVec.ofNat 32 n = k at hlast ⊢
    by_cases hx : x = d + k
    · subst hx
      rw [if_neg (by bv_omega), update_self, if_pos (by bv_omega), add_sub_self]
    · rw [update_of_ne hx]
      by_cases hin : (x - d).toNat < n
      · rw [if_pos hin, if_pos (by omega), update_of_ne (by bv_omega)]
      · rw [if_neg hin, if_neg (by bv_omega)]

theorem movsb_down (n : ℕ) (d s : Addr) (m : ByteMem) :
    movsb (-1#32) n (d - 1#32) (s - 1#32) m = copyDown n d s m := by
  induction n generalizing d s m with
  | zero => rfl
  | succ n ih =>
    have hdown : ∀ p : Addr, p + -1#32 = p - 1#32 := fun p => (BitVec.sub_eq_add_neg p 1#32).symm
    rw [movsb, copyDown, hdown, hdown, ih]

theorem copyUp_eq (n : ℕ) (d s : Addr) (m : ByteMem) : copyUp n d s m = movsb 1#32 n d s m := by
  induction n generalizing d s m with
  | zero => rfl
  | succ n ih => exact ih _ _ _

/-! ## Words and bytes -/

theorem byteOf_load32 {k : Addr} (hk : k.toNat < 4) : byteOf (load32 m s) k.toNat = m (s + k) := by
  have hcases : k = 0#32 ∨ k = 1#32 ∨ k = 2#32 ∨ k = 3#32 := by bv_omega
  ext j hj
  simp only [byteOf, load32, BitVec.getElem_extractLsb', BitVec.getLsbD_append]
  rcases hcases with rfl | rfl | rfl | rfl
  all_goals simp only [BitVec.toNat_ofNat, Nat.reduceMod, Nat.reduceMul, Nat.reducePow, BitVec.add_zero]
  all_goals split_ifs <;> first | omega | (rw [← BitVec.getLsbD_eq_getElem hj]; congr 1; omega)

/-- A word that is moved. -/
theorem store32_load32 : store32 m d (load32 m s) = moved d s 4 m := by
  funext x
  unfold moved store32
  split
  · next hx => exact byteOf_load32 hx
  · rfl

theorem movsl_up (h : (d - s).toNat % 4 = 0) :
    movsl 4#32 n d s m = movsb 1#32 (4 * n) d s m := by
  induction n generalizing d s m with
  | zero => rfl
  | succ n ih =>
    have hword : store32 m d (load32 m s) = movsb 1#32 4 d s m := by
      rw [store32_load32, movsb_up (by omega) (by omega)]
    have hdist : d + 4#32 - (s + 4#32) = d - s := by bv_omega
    have hadd : ∀ p : Addr, p + 1#32 + 1#32 + 1#32 + 1#32 = p + 4#32 := by
      intro p
      bv_omega
    have hsplit : movsb 1#32 (4 * (n + 1)) d s m =
        movsb 1#32 (4 * n) (d + 1#32 + 1#32 + 1#32 + 1#32) (s + 1#32 + 1#32 + 1#32 + 1#32)
          (movsb 1#32 4 d s m) := by
      rw [Nat.mul_add_one]
      simp only [movsb]
    rw [movsl, hsplit, hadd, hadd, hword, ih (by rw [hdist]; exact h)]

/-- The words below `d` and `s`. -/
theorem movsl_down (h : (s - d).toNat % 4 = 0) :
    movsl (-4#32) n (d - 4#32) (s - 4#32) m = copyDown (4 * n) d s m := by
  induction n generalizing d s m with
  | zero => rfl
  | succ n ih =>
    have hdist : s - 4#32 - (d - 4#32) = s - d := by bv_omega
    have hword : store32 m (d - 4#32) (load32 m (s - 4#32)) = copyDown 4 d s m := by
      have hmoves := copyDown_moves (n := 4) (d := d - 4#32) (s := s - 4#32) (m := m) (by omega)
        (by rw [hdist]; omega)
      rw [store32_load32, ← hmoves]
      simp only [BitVec.sub_add_cancel]
    have hsub : ∀ p : Addr, p - 1#32 - 1#32 - 1#32 - 1#32 = p - 4#32 := by
      intro p
      simp only [BitVec.sub_eq_add_neg, BitVec.add_assoc]
      rfl
    have hsplit : copyDown (4 * (n + 1)) d s m =
        copyDown (4 * n) (d - 1#32 - 1#32 - 1#32 - 1#32) (s - 1#32 - 1#32 - 1#32 - 1#32)
          (copyDown 4 d s m) := by
      rw [Nat.mul_add_one]
      simp only [copyDown]
    have hdown : ∀ p : Addr, p + -4#32 = p - 4#32 := fun p => (BitVec.sub_eq_add_neg p 4#32).symm
    rw [movsl, hsplit, hsub, hsub, hword, hdown, hdown, ih (by rw [hdist]; exact h)]

end Copies

/-! ## `memmove` -/

section Move

variable {m : ByteMem} {d s p n : BitVec 32}

theorem aligned_iff : aligned p = true ↔ p.toNat % 4 = 0 := by
  rw [aligned, decide_eq_true_iff, ← Int.dvd_iff_tmod_eq_zero, BitVec.toInt_eq_toNat_cond]
  split <;> omega

/-- The count of words. -/
theorem words_mul (h : n % 4#32 = 0#32) : 4 * (n / 4#32).toNat = n.toNat := by
  have hmod : n.toNat % 4 = 0 := by
    have := congrArg BitVec.toNat h
    rwa [BitVec.toNat_umod] at this
  rw [BitVec.toNat_udiv]
  exact Nat.mul_div_cancel' (Nat.dvd_of_mod_eq_zero hmod)

/-- **`memmove` in assembly is `memmove` in C**, wherever the two regions are. -/
theorem memmoveAsm_eq (d s n : BitVec 32) (m : ByteMem) :
    memmoveAsm d s n m = memmoveC d s n m := by
  unfold memmoveAsm memmoveC
  by_cases hover : s < d ∧ s + n > d
  · rw [if_pos hover, if_pos hover]
    split
    · next hal =>
        obtain ⟨hs, hd, hn⟩ := hal
        rw [aligned_iff] at hs hd
        have hdist : (s + n - (d + n)).toNat % 4 = 0 := by bv_omega
        rw [movsl_down hdist, words_mul hn]
    · exact movsb_down ..
  · rw [if_neg hover, if_neg hover, copyUp_eq]
    split
    · next hal =>
        obtain ⟨hs, hd, hn⟩ := hal
        rw [aligned_iff] at hs hd
        have hdist : (d - s).toNat % 4 = 0 := by bv_omega
        rw [movsl_up hdist, words_mul hn]
    · rfl

/-- An array of `n` bytes; it does not go over the end of memory. -/
structure Buf (n : BitVec 32) where
  addr : Addr
  fits : addr.toNat + n.toNat ≤ 2 ^ 32

/-- **`memmove` moves**: the destination holds what the source held before, and no other byte
changes, however the two overlap. -/
theorem memmoveAsm_moves (dst src : Buf n) (m : ByteMem) :
    memmoveAsm dst.addr src.addr n m = moved dst.addr src.addr n.toNat m := by
  obtain ⟨d, hd⟩ := dst
  obtain ⟨s, hs⟩ := src
  rw [memmoveAsm_eq, memmoveC]
  have hn := n.isLt
  split
  · next hover =>
      obtain ⟨hlt, -⟩ := hover
      have hmoves := copyDown_moves (n := n.toNat) (d := d) (s := s) (m := m) hn.le (by bv_omega)
      rwa [BitVec.ofNat_toNat, BitVec.setWidth_eq] at hmoves
  · next hover =>
      rw [copyUp_eq]
      refine movsb_up hn.le ?_
      by_cases hlt : s < d
      · -- the source ends before the destination starts
        have hend : ¬ s + n > d := fun h => hover ⟨hlt, h⟩
        bv_omega
      · bv_omega

end Move

/-! ## `memset` -/

section Fill

variable {m : ByteMem} {v c n : BitVec 32} {b : BitVec 8}

/-- Memory once `n` bytes from `v` on are `b`. -/
def filled (v : Addr) (b : BitVec 8) (n : ℕ) (m : ByteMem) : ByteMem := fun x =>
  if (x - v).toNat < n then b else m x

theorem stosb_fills {n : ℕ} (hn : n ≤ 2 ^ 32) : stosb b n v m = filled v b n m := by
  induction n generalizing v m with
  | zero => rfl
  | succ n ih =>
    rw [stosb, ih (by omega)]
    funext x
    unfold filled
    by_cases hx : x = v
    · subst hx
      rw [if_neg (by bv_omega), update_self, if_pos (by bv_omega)]
    · rw [update_of_ne hx]
      by_cases hin : (x - v).toNat < n + 1
      · rw [if_pos (by bv_omega), if_pos hin]
      · rw [if_neg (by bv_omega), if_neg hin]

/-- The word that `memset` stores has four bytes alike. -/
theorem byteOf_spread (c : BitVec 32) {i : ℕ} (hi : i < 4) :
    byteOf (((c &&& 0xff#32) <<< 24) ||| ((c &&& 0xff#32) <<< 16) ||| ((c &&& 0xff#32) <<< 8) |||
      (c &&& 0xff#32)) i = c.setWidth 8 := by
  have hlow : c &&& 0xff#32 = (c.setWidth 8).setWidth 32 := by
    apply BitVec.eq_of_toNat_eq
    rw [BitVec.toNat_and, BitVec.toNat_setWidth, BitVec.toNat_setWidth]
    have h := Nat.and_two_pow_sub_one_eq_mod c.toNat 8
    simp at h ⊢
    omega
  rw [hlow]
  generalize c.setWidth 8 = b
  revert b i
  decide +kernel

theorem stosl_fills {n : ℕ} {w : BitVec 32} (hw : ∀ i, i < 4 → byteOf w i = b) :
    stosl w n v m = stosb b (4 * n) v m := by
  induction n generalizing v m with
  | zero => rfl
  | succ n ih =>
    have hword : store32 m v w = stosb b 4 v m := by
      rw [stosb_fills (by omega)]
      funext x
      unfold filled store32
      split
      · next hx => exact hw _ hx
      · rfl
    have hadd : v + 1#32 + 1#32 + 1#32 + 1#32 = v + 4#32 := by bv_omega
    have hsplit : stosb b (4 * (n + 1)) v m =
        stosb b (4 * n) (v + 1#32 + 1#32 + 1#32 + 1#32) (stosb b 4 v m) := by
      rw [Nat.mul_add_one]
      simp only [stosb]
    rw [stosl, hsplit, hadd, hword, ih]

/-- **`memset` fills**, with words or with bytes. -/
theorem memsetAsm_fills (v c n : BitVec 32) (m : ByteMem) :
    memsetAsm v c n m = filled v (c.setWidth 8) n.toNat m := by
  have hn := n.isLt
  unfold memsetAsm
  split
  · next h0 =>
      subst h0
      rfl
  · split
    · next hal =>
        rw [stosl_fills fun i hi => byteOf_spread c hi, words_mul hal.2, stosb_fills hn.le]
    · exact stosb_fills hn.le

/-- `memset` in C fills exactly if the count is not negative as an `int`. -/
theorem memsetC_fills_iff (v c n : BitVec 32) :
    (∀ m, memsetC v c n m = some (filled v (c.setWidth 8) n.toNat m)) ↔ n.toNat < 2 ^ 31 := by
  have hn := n.isLt
  unfold memsetC fillLoop
  constructor
  · intro h
    by_contra hge
    have hint : n.toInt = n.toNat - 2 ^ 32 := by
      rw [BitVec.toInt_eq_toNat_cond, if_neg (by omega)]
      rfl
    -- memory in which the first byte has to change
    have hm := h fun _ => c.setWidth 8 + 1#8
    split at hm
    · cases hm
    · have hnone : n.toInt.toNat = 0 := by omega
      rw [hnone, Option.some.injEq] at hm
      have hv := congrFun hm v
      rw [stosb, filled, if_pos (by rw [BitVec.sub_self]; simp; omega)] at hv
      exact absurd hv (by bv_omega)
  · intro hlt m
    have hint : n.toInt = n.toNat := by
      rw [BitVec.toInt_eq_toNat_cond, if_pos (by omega)]
    rw [if_neg (by omega), hint, Int.toNat_natCast, stosb_fills hn.le]

end Fill

/-! ## Agreement -/

/-- The versions in assembly do the same as those in C, and what they should. -/
structure Agrees (n : BitVec 32) (dst src : Buf n) (v c : BitVec 32) : Prop where
  memmove : ∀ m, memmoveAsm dst.addr src.addr n m = memmoveC dst.addr src.addr n m
  moves : ∀ m, memmoveAsm dst.addr src.addr n m = moved dst.addr src.addr n.toNat m
  memset : ∀ m, some (memsetAsm v c n m) = memsetC v c n m
  fills : ∀ m, memsetAsm v c n m = filled v (c.setWidth 8) n.toNat m

/-- **Assembly and C agree** exactly if the count is not negative as an `int`. -/
theorem agrees_iff (n : BitVec 32) (dst src : Buf n) (v c : BitVec 32) :
    Agrees n dst src v c ↔ n.toNat < 2 ^ 31 := by
  rw [← memsetC_fills_iff v c n]
  constructor
  · intro h m
    rw [← h.memset, h.fills]
  · intro h
    refine ⟨memmoveAsm_eq _ _ _, memmoveAsm_moves dst src, fun m => ?_, memsetAsm_fills v c n⟩
    rw [h m, memsetAsm_fills]

/-- Two gigabytes and a word, filled with ones: `memset` in C stores nothing. -/
theorem memsetC_stops : memsetC 0#32 1#32 0x80000004#32 (fun _ => 0#8) = some (fun _ => 0#8) ∧
    memsetAsm 0#32 1#32 0x80000004#32 (fun _ => 0#8) 0#32 = 1#8 := by
  refine ⟨rfl, ?_⟩
  rw [memsetAsm_fills]
  decide

end Jos.Memmove
