import Jos.User.PrintfmtSpec

/-!
# Numbers, digit by digit

`printnum` prints the leading digits first, by calling itself, and the pad
characters at the deepest call; the width is counted down on the way there.
Does what comes out stand for the number?

* `Numeral` — a text is a number written in a base, without leading zeros.
* `printnum_positional_iff` — it does, behind as many pad characters as the
  width leaves room for, unless the count goes below the least `int`.

A width is never that small when it is written in the format, but `%*d` takes
it from an argument.
-/

namespace Jos.Printfmt

/-- What a digit counts. -/
def digitValue (c : Byte) : ℕ := (lit "0123456789abcdef").idxOf c

/-- What a text of digits comes to in a base. -/
def textValue (base : ℕ) (t : List Byte) : ℕ := t.foldl (fun v c => base * v + digitValue c) 0

/-- A text is `n` written in a base: digits of the base, with no zero in front, that come to `n`. -/
structure Numeral (base n : ℕ) (t : List Byte) : Prop where
  digits : ∀ c ∈ t, ∃ k < base, c = digit k
  nonempty : t ≠ []
  leading : t.head? = some (digit 0) → t = [digit 0]
  value : textValue base t = n

section Numerals

variable {base n : ℕ}

theorem digitValue_digit {d : ℕ} (h : d < 16) : digitValue (digit d) = d := by
  have hall : ∀ k : Fin 16, digitValue (digit k.val) = k.val := by decide
  exact hall ⟨d, h⟩

theorem textValue_append (t : List Byte) (c : Byte) :
    textValue base (t ++ [c]) = base * textValue base t + digitValue c := by
  rw [textValue, List.foldl_append]
  rfl

theorem Numeral.of_lt (hb : base ≤ 16) (h : n < base) : Numeral base n [digit n] := by
  refine ⟨?_, List.cons_ne_nil _ _, fun hz => ?_, ?_⟩
  · rintro c hc
    exact ⟨n, h, List.mem_singleton.1 hc⟩
  · rw [Option.some.inj hz]
  · show base * 0 + digitValue (digit n) = n
    rw [digitValue_digit (by omega), Nat.mul_zero, Nat.zero_add]

/-- One more digit behind a number that is not zero. -/
theorem Numeral.append (hb : base ≤ 16) {m d : ℕ} {t : List Byte} (h : Numeral base m t)
    (hm : m ≠ 0) (hd : d < base) : Numeral base (base * m + d) (t ++ [digit d]) := by
  have hval : textValue base t ≠ 0 := by rw [h.value]; exact hm
  refine ⟨?_, fun hnil => by simp at hnil, fun hz => ?_, ?_⟩
  · intro c hc
    rcases List.mem_append.1 hc with hc | hc
    · exact h.digits c hc
    · exact ⟨d, hd, List.mem_singleton.1 hc⟩
  · -- a zero in front would be all there is
    rw [List.head?_append_of_ne_nil _ h.nonempty] at hz
    rw [h.leading hz] at hval
    exact absurd (Numeral.of_lt hb (by omega)).value hval
  · rw [textValue_append, h.value, digitValue_digit (by omega)]

theorem numText_numeral (hlo : 2 ≤ base) (hb : base ≤ 16) : Numeral base n (numText base n) := by
  induction n using Nat.strongRecOn with
  | _ n ih =>
    by_cases h : base ≤ n
    · have hpos : n / base ≠ 0 := (Nat.div_pos h (by omega)).ne'
      have hlt : n / base < n := Nat.div_lt_self (by omega) (by omega)
      have hmod : n % base < base := Nat.mod_lt n (by omega)
      have hnext := (ih (n / base) hlt).append hb hpos hmod
      rw [Nat.div_add_mod] at hnext
      rw [numText_of_le hlo h]
      exact hnext
    · rw [numText_of_lt (by omega)]
      exact Numeral.of_lt hb (by omega)

end Numerals

/-- **`printnum` writes numbers.**  For every 64-bit number, every base from 2
to 16, every width and every pad character: what is printed is the number in
the base, behind a pad character for each place of the width it does not fill,
exactly if the width, less the number of digits, is an `int`. -/
theorem printnum_positional_iff (num : BitVec 64) (base : ℕ) (width : BitVec 32) (padc : Byte)
    (hlo : 2 ≤ base) (hb : base ≤ 16) :
    (∃ t, Numeral base num.toNat t ∧ printnum 64 num.toNat base width.toInt padc =
      some (List.replicate (max 0 (width.toInt - t.length)).toNat padc ++ t)) ↔
    -2 ^ 31 ≤ width.toInt - max 1 (Nat.digits base num.toNat).length := by
  have hpow : num.toNat < base ^ (63 + 1) :=
    num.isLt.trans_le (Nat.pow_le_pow_left hlo 64)
  have hmin := BitVec.le_toInt width
  have hmax := BitVec.toInt_lt (x := width)
  have hlen := length_numText base num.toNat
  have hrun := @printnum_run base num.toNat 63 width.toInt padc hlo hpow (by omega) (by omega)
  constructor
  · rintro ⟨t, -, ht⟩
    by_contra hneg
    rw [hrun, if_neg (by omega)] at ht
    cases ht
  · intro h
    refine ⟨numText base num.toNat, numText_numeral hlo hb, ?_⟩
    rw [hrun, if_pos (by omega), show (max 0 (width.toInt - (numText base num.toNat).length)).toNat =
      (width.toInt - (numText base num.toNat).length).toNat by omega]

/-- A number with a negative width. -/
theorem printnum_negative_width : ∃ t, Numeral 10 42 t ∧ printnum 64 42 10 (-5) 0x20#8 =
    some (List.replicate (max 0 (-5 - (t.length : ℤ))).toNat 0x20#8 ++ t) :=
  (printnum_positional_iff 42#64 10 0xfffffffb#32 0x20#8 (by decide) (by decide)).2
    (by simp)

/-- With the least width there is, nothing is promised, not even for one digit. -/
theorem printnum_least_width : ¬ ∃ t, Numeral 10 7 t ∧ printnum 64 7 10 (-2147483648) 0x20#8 =
    some (List.replicate (max 0 (-2147483648 - (t.length : ℤ))).toNat 0x20#8 ++ t) := by
  rintro ⟨t, -, ht⟩
  exact absurd ht (by rw [show printnum 64 7 10 (-2147483648) 0x20#8 = none by decide]; simp)

end Jos.Printfmt
