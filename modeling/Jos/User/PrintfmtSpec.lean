import Mathlib.Data.List.TakeWhile
import Mathlib.Data.Nat.Digits.Lemmas
import Jos.User.Printfmt

/-!
# What formatted output should be

The directives `%[-][0][width][.precision]` with `s`, `d`, `u`, `x` or `o`, read by `vprintfmt`
and by a reference.

* `Directive`, `Conversion`, `reference` — a directive, what it converts, and what that should
  give: the converted text, padded to the width.
* `reswitch_body` — how `vprintfmt` reads a directive: a zero after the dot is a flag to it, and
  the last of the two flags counts.
* `printnum_spec`, `string_spec` — what it prints then.
* `vprintfmt_iff` — where that is the reference.
-/

namespace Jos.Printfmt

/-! ## Directives -/

/-- A decimal digit. -/
abbrev Digit := Fin 10

def Digit.char (d : Digit) : Byte := BitVec.ofNat 8 (48 + d.val)

/-- The number that a numeral stands for. -/
def value (l : List Digit) : ℕ := l.foldl (fun v d => 10 * v + d.val) 0

/-- The numeral starts with a zero. -/
def leadZero (l : List Digit) : Bool := l.head? == some 0

/-- What is converted: the conversion and its argument. -/
inductive Conversion
  | s (p : Option (List Byte))
  | d (v : BitVec 32)
  | u (v : BitVec 32)
  | x (v : BitVec 32)
  | o (v : BitVec 32)

namespace Conversion

def char : Conversion → Byte
  | s _ => 0x73#8
  | d _ => 0x64#8
  | u _ => 0x75#8
  | x _ => 0x78#8
  | o _ => 0x6F#8

def arg : Conversion → Arg
  | s p => .str p
  | d v | u v | x v | o v => .int v

end Conversion

/-- `%[-][0][width][.precision]`.  A width does not start with a zero, since that would be the
flag; a precision may. -/
structure Directive where
  minus : Bool
  zero : Bool
  /-- empty if there is none -/
  width : List Digit
  width_head : ∀ d ∈ width.head?, d ≠ 0
  precision : Option (List Digit)
  precision_ne : ∀ l ∈ precision, l ≠ []

namespace Directive

/-- What stands between the `%` and the conversion character. -/
def body (f : Directive) : List Byte :=
  (if f.minus then [0x2D#8] else []) ++ (if f.zero then [0x30#8] else []) ++
    f.width.map Digit.char ++
    match f.precision with
    | none => []
    | some l => 0x2E#8 :: l.map Digit.char

/-- The field width; 0 if there is none. -/
def fieldWidth (f : Directive) : ℕ := value f.width

end Directive

/-! ## The reference -/

/-- A number in a base, without a sign. -/
def numText (base n : ℕ) : List Byte :=
  if n = 0 then [digit 0] else (Nat.digits base n).reverse.map digit

def blanks (k : ℕ) : List Byte := List.replicate k 0x20#8

def zeros (k : ℕ) : List Byte := List.replicate k 0x30#8

/-- The string that `%s` converts. -/
def textOf (p : Option (List Byte)) : List Byte := p.getD (lit "(null)")

/-- The text padded to the width with blanks. -/
def Directive.pad (f : Directive) (text : List Byte) : List Byte :=
  if f.minus then text ++ blanks (f.fieldWidth - text.length)
  else blanks (f.fieldWidth - text.length) ++ text

/-- A number padded to the width; the zeros of the flag `0` stand behind the sign. -/
def Directive.padNumber (f : Directive) (sign digits : List Byte) : List Byte :=
  if f.zero && !f.minus then
    sign ++ zeros (f.fieldWidth - (sign ++ digits).length) ++ digits
  else f.pad (sign ++ digits)

/-- What the directive should print. -/
def reference (f : Directive) : Conversion → List Byte
  | .s p => f.pad (match f.precision with
      | none => textOf p
      | some l => (textOf p).take (value l))
  | .d v => f.padNumber (if v.toInt < 0 then [0x2D#8] else []) (numText 10 v.toInt.natAbs)
  | .u v => f.padNumber [] (numText 10 v.toNat)
  | .x v => f.padNumber [] (numText 16 v.toNat)
  | .o v => f.padNumber [] (numText 8 v.toNat)

/-! ## How a directive is read -/

namespace Directive

/-- The precision starts with a zero, which is taken for the flag. -/
def leadingZero (f : Directive) : Bool := f.precision.any leadZero

/-- The pad character in the end. -/
def padc (f : Directive) : Byte :=
  if f.zero || f.leadingZero then 0x30#8 else if f.minus then 0x2D#8 else 0x20#8

/-- The variables as the directive leaves them. -/
def spec (f : Directive) : Spec where
  padc := f.padc
  width := if f.width ≠ [] then f.fieldWidth else if f.precision.isSome then 0 else -1
  precision := match f.precision with
    | none => -1
    | some l => if value l = 0 then -1 else value l
  lflag := 0
  altflag := false

/-- The numerals can be read without overflow. -/
def NumeralsFit (f : Directive) : Prop :=
  f.fieldWidth + 48 < 2147483648 ∧ ∀ l ∈ f.precision, value l + 48 < 2147483648

end Directive

section Read

variable {l : List Digit} {rest fmt : List Byte} {sp : Spec} {args : List Arg} {fuel : ℕ}

theorem Digit.toNat_char (d : Digit) : (Digit.char d).toNat = 48 + d.val := by
  have := d.isLt
  rw [Digit.char, BitVec.toNat_ofNat]
  omega

theorem Digit.isDigit_char (d : Digit) : isDigit (Digit.char d) = true := by
  revert d
  decide

theorem int_eq_some {z : ℤ} (h : -2147483648 ≤ z) (h' : z < 2147483648) : int z = some z :=
  if_pos ⟨h, h'⟩

theorem int_eq_none {z : ℤ} (h : z < -2147483648 ∨ 2147483648 ≤ z) : int z = none :=
  if_neg (by omega)

theorem addDigit_char (q : ℕ) (d : Digit) :
    addDigit q (Digit.char d) =
      if 10 * q + d.val + 48 < 2147483648 then some ((10 * q + d.val : ℕ) : ℤ) else none := by
  have hd := d.isLt
  rw [addDigit, Digit.toNat_char]
  by_cases hfit : 10 * q + d.val + 48 < 2147483648
  · rw [if_pos hfit, int_eq_some (by omega) (by omega), Option.bind_eq_bind, Option.bind_some,
      int_eq_some (by push_cast; omega) (by push_cast; omega), Option.bind_some,
      int_eq_some (by push_cast; omega) (by push_cast; omega)]
    congr 1
    push_cast
    omega
  · rw [if_neg hfit]
    by_cases h10 : (q : ℤ) * 10 < 2147483648
    · rw [int_eq_some (by omega) h10, Option.bind_eq_bind, Option.bind_some,
        int_eq_none (by push_cast; omega)]
      rfl
    · rw [int_eq_none (by omega)]
      rfl

/-- The value a numeral has behind digits with the value `q`. -/
def valueFrom (q : ℕ) (l : List Digit) : ℕ := l.foldl (fun v d => 10 * v + d.val) q

theorem le_valueFrom (q : ℕ) (l : List Digit) : q ≤ valueFrom q l := by
  induction l generalizing q with
  | nil => exact le_rfl
  | cons d l ih => exact le_trans (by omega) (ih (10 * q + d.val))

/-- What comes behind a numeral. -/
def NotDigit (rest : List Byte) : Prop := ∀ c ∈ rest.head?, isDigit c = false

theorem numeral_spec (q : ℕ) (d : Digit) (hrest : NotDigit rest) :
    numeral q (Digit.char d) (l.map Digit.char ++ rest) =
      if valueFrom q (d :: l) + 48 < 2147483648 then some ((valueFrom q (d :: l) : ℤ), rest)
      else none := by
  induction l generalizing q d with
  | nil =>
    rw [List.map_nil, List.nil_append,
      show valueFrom q [d] = 10 * q + d.val from rfl]
    by_cases hfit : 10 * q + d.val + 48 < 2147483648
    · rw [if_pos hfit]
      cases rest with
      | nil =>
        rw [numeral, addDigit_char, if_pos hfit]
        rfl
      | cons c rest =>
        have hc : isDigit c = false := hrest c rfl
        rw [numeral, addDigit_char, if_pos hfit, hc]
        rfl
    · rw [if_neg hfit]
      cases rest <;> rw [numeral, addDigit_char, if_neg hfit] <;> rfl
  | cons e l ih =>
    have hle := le_valueFrom (10 * q + d.val) (e :: l)
    rw [List.map_cons, List.cons_append, numeral, addDigit_char, Digit.isDigit_char,
      show valueFrom q (d :: e :: l) = valueFrom (10 * q + d.val) (e :: l) from rfl]
    by_cases hfirst : 10 * q + d.val + 48 < 2147483648
    · rw [if_pos hfirst]
      exact ih (10 * q + d.val) e
    · rw [if_neg hfirst, if_neg (by omega)]
      rfl

theorem Spec.process_of_nonneg {p : ℤ} (h : 0 ≤ sp.width) :
    sp.process p = { sp with precision := p } :=
  if_neg (by omega)

variable (sp args)

/-- A flag in front of the rest. -/
theorem reswitch_minus (h : fmt.length + 1 < fuel) :
    ∃ fuel', fmt.length < fuel' ∧ reswitch fuel (0x2D#8 :: fmt) sp args =
      reswitch fuel' fmt { sp with padc := 0x2D#8 } args := by
  obtain ⟨f, rfl⟩ : ∃ f, fuel = f + 1 := ⟨fuel - 1, by omega⟩
  exact ⟨f, by omega, rfl⟩

theorem reswitch_zero (h : fmt.length + 1 < fuel) :
    ∃ fuel', fmt.length < fuel' ∧ reswitch fuel (0x30#8 :: fmt) sp args =
      reswitch fuel' fmt { sp with padc := 0x30#8 } args := by
  obtain ⟨f, rfl⟩ : ∃ f, fuel = f + 1 := ⟨fuel - 1, by omega⟩
  exact ⟨f, by omega, rfl⟩

theorem reswitch_dot (h : fmt.length + 1 < fuel) :
    ∃ fuel', fmt.length < fuel' ∧ reswitch fuel (0x2E#8 :: fmt) sp args =
      reswitch fuel' fmt (if sp.width < 0 then { sp with width := 0 } else sp) args := by
  obtain ⟨f, rfl⟩ : ∃ f, fuel = f + 1 := ⟨fuel - 1, by omega⟩
  exact ⟨f, by omega, rfl⟩

/-- A numeral that does not start with a zero. -/
theorem reswitch_numeral {d : Digit} (hd : d ≠ 0) (hrest : NotDigit rest)
    (h : (l.map Digit.char ++ rest).length + 1 < fuel) :
    ∃ fuel', rest.length < fuel' ∧
      reswitch fuel (Digit.char d :: (l.map Digit.char ++ rest)) sp args =
        if value (d :: l) + 48 < 2147483648 then
          reswitch fuel' rest (sp.process (value (d :: l))) args
        else none := by
  obtain ⟨f, rfl⟩ : ∃ f, fuel = f + 1 := ⟨fuel - 1, by omega⟩
  rw [List.length_append] at h
  refine ⟨f, by omega, ?_⟩
  have hminus : Digit.char d ≠ 0x2D#8 := by
    revert d
    decide
  have hzero : Digit.char d ≠ 0x30#8 := by
    revert d
    decide
  rw [reswitch, if_neg hminus, if_neg hzero, if_pos (Digit.isDigit_char d),
    show (0 : ℤ) = ((0 : ℕ) : ℤ) from rfl, numeral_spec 0 d hrest,
    show valueFrom 0 (d :: l) = value (d :: l) from rfl]
  split_ifs <;> rfl

/-- Zeros in front of the rest. -/
theorem reswitch_zeros (z : ℕ) (h : (List.replicate z (0x30#8 : Byte) ++ fmt).length < fuel) :
    ∃ fuel', fmt.length < fuel' ∧
      reswitch fuel (List.replicate z 0x30#8 ++ fmt) sp args =
        reswitch fuel' fmt (if z = 0 then sp else { sp with padc := 0x30#8 }) args := by
  induction z generalizing fuel sp with
  | zero => exact ⟨fuel, by simpa using h, rfl⟩
  | succ z ih =>
    rw [List.replicate_succ, List.cons_append] at h ⊢
    have hlen : (List.replicate z (0x30#8 : Byte) ++ fmt).length + 1 < fuel := h
    obtain ⟨f, hf, heq⟩ := reswitch_zero sp args hlen
    obtain ⟨f', hf', heq'⟩ := ih { sp with padc := 0x30#8 } hf
    refine ⟨f', hf', ?_⟩
    rw [heq, heq', if_neg (Nat.succ_ne_zero z)]
    split_ifs <;> rfl

/-- The two flags; the last one counts. -/
theorem reswitch_flags (minus zero : Bool) (hsp : sp.padc = 0x20#8)
    (h : ((if minus then [0x2D#8] else []) ++ ((if zero then [0x30#8] else []) ++ fmt)).length <
      fuel) :
    ∃ fuel', fmt.length < fuel' ∧
      reswitch fuel ((if minus then [0x2D#8] else []) ++ ((if zero then [0x30#8] else []) ++ fmt))
          sp args =
        reswitch fuel' fmt
          { sp with padc := if zero then 0x30#8 else if minus then 0x2D#8 else 0x20#8 } args := by
  have hsame : { sp with padc := 0x20#8 } = sp := by rw [← hsp]
  cases minus with
  | false =>
    cases zero with
    | false => exact ⟨fuel, h, congrArg (reswitch fuel fmt · args) hsame.symm⟩
    | true => exact reswitch_zero sp args h
  | true =>
    cases zero with
    | false => exact reswitch_minus sp args h
    | true =>
      obtain ⟨f, hf, heq⟩ := reswitch_minus sp args h
      obtain ⟨f', hf', heq'⟩ := reswitch_zero { sp with padc := 0x2D#8 } args hf
      exact ⟨f', hf', heq.trans heq'⟩

/-- The width. -/
theorem reswitch_width (f : Directive) (hsp : sp.width = -1) (hprec : sp.precision = -1)
    (hrest : NotDigit rest) (h : (f.width.map Digit.char ++ rest).length < fuel) :
    ∃ fuel', rest.length < fuel' ∧
      reswitch fuel (f.width.map Digit.char ++ rest) sp args =
        if f.fieldWidth + 48 < 2147483648 then
          reswitch fuel' rest
            { sp with width := if f.width ≠ [] then (f.fieldWidth : ℤ) else -1 } args
        else none := by
  unfold Directive.fieldWidth
  rcases hw : f.width with _ | ⟨d, l⟩
  · rw [hw] at h
    exact ⟨fuel, h, by rw [if_pos (by decide), if_neg (by simp), ← hsp]; rfl⟩
  · rw [hw] at h
    have hd : d ≠ 0 := f.width_head d (by rw [hw]; rfl)
    obtain ⟨f', hf', heq⟩ := reswitch_numeral sp args (l := l) hd hrest h
    refine ⟨f', hf', heq.trans ?_⟩
    have hproc : sp.process (value (d :: l)) = { sp with width := (value (d :: l) : ℤ) } := by
      rw [Spec.process, if_pos (by rw [hsp]; decide), ← hprec]
    rw [hproc, if_pos (List.cons_ne_nil d l)]

/-- A numeral without the zeros in front. -/
theorem exists_zeros (l : List Digit) :
    ∃ z r, l = List.replicate z 0 ++ r ∧ ∀ d ∈ r.head?, d ≠ 0 := by
  refine ⟨(l.takeWhile (· == 0)).length, l.dropWhile (· == 0), ?_, fun d hd => ?_⟩
  · have hz : l.takeWhile (· == 0) = List.replicate (l.takeWhile (· == 0)).length 0 :=
      List.eq_replicate_of_mem fun d hd => by simpa using List.mem_takeWhile_imp hd
    rw [← hz, List.takeWhile_append_dropWhile]
  · have := List.head?_dropWhile_not (fun d : Digit => d == 0) l
    rw [Option.mem_def.1 hd] at this
    simpa using this

theorem value_zeros (z : ℕ) (r : List Digit) : value (List.replicate z 0 ++ r) = value r := by
  induction z with
  | zero => rfl
  | succ z ih => exact ih

theorem leadZero_zeros {z : ℕ} {r : List Digit} (hr : ∀ d ∈ r.head?, d ≠ 0) :
    leadZero (List.replicate z 0 ++ r) = decide (z ≠ 0) := by
  rcases z with _ | z
  · rw [List.replicate_zero, List.nil_append, leadZero]
    rcases hh : r.head? with _ | d
    · rfl
    · have hd : d ≠ 0 := hr d (by rw [hh]; rfl)
      simpa using hd
  · rfl

theorem value_pos {d : Digit} (hd : d ≠ 0) (l : List Digit) : 0 < value (d :: l) := by
  have hd' : d.val ≠ 0 := fun h => hd (Fin.ext h)
  have := le_valueFrom (10 * 0 + d.val) l
  have hv : value (d :: l) = valueFrom (10 * 0 + d.val) l := rfl
  omega

/-- The precision, behind a width that is not negative. -/
theorem reswitch_precision {l : List Digit} (hl : l ≠ []) (hsp : 0 ≤ sp.width)
    (hprec : sp.precision = -1) (hrest : NotDigit rest)
    (h : (l.map Digit.char ++ rest).length < fuel) :
    ∃ fuel', rest.length < fuel' ∧
      reswitch fuel (l.map Digit.char ++ rest) sp args =
        if value l + 48 < 2147483648 then
          reswitch fuel' rest { sp with
            padc := if leadZero l then 0x30#8 else sp.padc
            precision := if value l = 0 then -1 else (value l : ℤ) } args
        else none := by
  obtain ⟨z, r, rfl, hr⟩ := exists_zeros l
  rw [value_zeros, leadZero_zeros hr, List.map_append, List.map_replicate, List.append_assoc,
    show Digit.char 0 = 0x30#8 from rfl] at *
  obtain ⟨f, hf, heq⟩ := reswitch_zeros sp args z h
  -- the zeros have been taken for flags; what is left is the numeral
  have hpad : (if z = 0 then sp else { sp with padc := 0x30#8 }) =
      { sp with padc := if decide (z ≠ 0) then 0x30#8 else sp.padc } := by
    rcases z with _ | z <;> rfl
  rw [heq, hpad]
  rcases r with _ | ⟨d, r⟩
  · refine ⟨f, hf, ?_⟩
    rw [if_pos (show value [] + 48 < 2147483648 by decide), if_pos (show value [] = 0 from rfl),
      ← hprec]
    rfl
  · obtain ⟨f', hf', heq'⟩ := reswitch_numeral
      { sp with padc := if decide (z ≠ 0) then 0x30#8 else sp.padc } args (hr d rfl) hrest hf
    refine ⟨f', hf', heq'.trans ?_⟩
    rw [Spec.process_of_nonneg (by exact hsp), if_neg (value_pos (hr d rfl) r).ne']

/-- What stands behind the width. -/
def Directive.tail (f : Directive) (c : Conversion) : List Byte :=
  match f.precision with
  | none => [c.char]
  | some l => 0x2E#8 :: (l.map Digit.char ++ [c.char])

theorem notDigit_char (c : Conversion) : NotDigit [c.char] := by
  cases c <;> simp [NotDigit, Conversion.char, isDigit]

theorem Directive.notDigit_tail (f : Directive) (c : Conversion) : NotDigit (f.tail c) := by
  rw [tail]
  cases f.precision with
  | none => exact notDigit_char c
  | some l => simp [NotDigit, isDigit]

theorem Directive.body_append (f : Directive) (c : Conversion) :
    f.body ++ [c.char] = (if f.minus then [0x2D#8] else []) ++
      ((if f.zero then [0x30#8] else []) ++ (f.width.map Digit.char ++ f.tail c)) := by
  rw [body, tail]
  cases f.precision <;> simp

/-- The conversion character ends it. -/
theorem reswitch_char (c : Conversion) (h : [c.char].length < fuel) :
    reswitch fuel [c.char] sp args = some (c.char, [], sp, args) := by
  obtain ⟨k, rfl⟩ : ∃ k, fuel = k + 1 := ⟨fuel - 1, by omega⟩
  cases c <;> rfl

theorem reswitch_tail (f : Directive) (c : Conversion) (p : Byte) (w : ℤ)
    (h : (f.tail c).length < fuel) :
    ((∀ l ∈ f.precision, value l + 48 < 2147483648) →
      reswitch fuel (f.tail c) ⟨p, w, -1, 0, false⟩ args =
        some (c.char, [], ⟨if f.leadingZero then 0x30#8 else p,
          if f.precision.isSome ∧ w < 0 then 0 else w, f.spec.precision, 0, false⟩, args)) ∧
    (¬ (∀ l ∈ f.precision, value l + 48 < 2147483648) →
      reswitch fuel (f.tail c) ⟨p, w, -1, 0, false⟩ args = none) := by
  unfold Directive.tail Directive.leadingZero Directive.spec at *
  rcases hp : f.precision with _ | l
  · rw [hp] at h
    exact ⟨fun _ => reswitch_char _ args c h, fun hno => absurd (by simp) hno⟩
  · rw [hp] at h
    obtain ⟨f₁, hf₁, heq₁⟩ := reswitch_dot ⟨p, w, -1, 0, false⟩ args h
    have hdot : (if (⟨p, w, -1, 0, false⟩ : Spec).width < 0 then
        { (⟨p, w, -1, 0, false⟩ : Spec) with width := 0 } else ⟨p, w, -1, 0, false⟩) =
        ⟨p, if w < 0 then 0 else w, -1, 0, false⟩ := by
      by_cases hw : w < 0
      · simp [hw]
      · simp [hw]
    rw [hdot] at heq₁
    obtain ⟨f₂, hf₂, heq₂⟩ := reswitch_precision ⟨p, if w < 0 then 0 else w, -1, 0, false⟩ args
      (f.precision_ne l (by rw [hp]; rfl)) (by simp only; split_ifs <;> omega) rfl
      (notDigit_char c) hf₁
    rw [heq₁, heq₂]
    constructor
    · intro hfit
      rw [if_pos (hfit l rfl), reswitch_char _ args c hf₂]
      simp
    · intro hno
      rw [if_neg]
      intro hl
      exact hno (by simpa using hl)

/-- **Reading a directive.** -/
theorem reswitch_body (f : Directive) (c : Conversion) :
    (f.NumeralsFit → reswitch ((f.body ++ [c.char]).length + 1) (f.body ++ [c.char]) .init args =
      some (c.char, [], f.spec, args)) ∧
    (¬ f.NumeralsFit →
      reswitch ((f.body ++ [c.char]).length + 1) (f.body ++ [c.char]) .init args = none) := by
  rw [f.body_append]
  obtain ⟨f₁, hf₁, heq₁⟩ := reswitch_flags .init args f.minus f.zero rfl (Nat.lt_succ_self _)
  obtain ⟨f₂, hf₂, heq₂⟩ := reswitch_width
    ⟨if f.zero then 0x30#8 else if f.minus then 0x2D#8 else 0x20#8, -1, -1, 0, false⟩ args f
    rfl rfl (f.notDigit_tail c) hf₁
  obtain ⟨hread, hover⟩ := reswitch_tail args f c
    (if f.zero then 0x30#8 else if f.minus then 0x2D#8 else 0x20#8)
    (if f.width ≠ [] then (f.fieldWidth : ℤ) else -1) hf₂
  rw [heq₁.trans heq₂]
  by_cases hw : f.fieldWidth + 48 < 2147483648
  · rw [if_pos hw]
    refine ⟨fun hfit => (hread hfit.2).trans ?_, fun hno => hover fun hp => hno ⟨hw, hp⟩⟩
    have hpadc : (if f.leadingZero then (0x30#8 : Byte) else
        if f.zero then 0x30#8 else if f.minus then 0x2D#8 else 0x20#8) = f.padc := by
      unfold Directive.padc
      cases f.zero <;> cases f.leadingZero <;> rfl
    have hwidth : (if f.precision.isSome ∧ (if f.width ≠ [] then (f.fieldWidth : ℤ) else -1) < 0
        then 0 else if f.width ≠ [] then (f.fieldWidth : ℤ) else -1) = f.spec.width := by
      simp only [Directive.spec]
      by_cases hnil : f.width = []
      · cases f.precision <;> simp [hnil]
      · have hpos : ¬ (f.fieldWidth : ℤ) < 0 := by omega
        simp [hnil, hpos]
    rw [hpadc, hwidth]
    rfl
  · rw [if_neg hw]
    exact ⟨fun hfit => absurd hfit.1 hw, fun _ => rfl⟩

end Read

/-! ## Numbers -/

section Numbers

variable {base n fuel : ℕ} {width : ℤ} {padc : Byte}

theorem numText_of_lt (h : n < base) : numText base n = [digit n] := by
  rw [numText]
  split_ifs with h0
  · rw [h0]
  · rw [Nat.digits_of_lt base n h0 h]
    rfl

theorem numText_of_le (hb : 2 ≤ base) (h : base ≤ n) :
    numText base n = numText base (n / base) ++ [digit (n % base)] := by
  have hdiv : n / base ≠ 0 := (Nat.div_pos h (by omega)).ne'
  rw [numText, numText, if_neg (by omega), if_neg hdiv, Nat.digits_def' (by omega) (by omega),
    List.reverse_cons, List.map_append]
  rfl

theorem length_numText (base n : ℕ) :
    (numText base n).length = max 1 (Nat.digits base n).length := by
  rw [numText]
  split_ifs with h0
  · rw [h0, Nat.digits_zero]
    rfl
  · rw [List.length_map, List.length_reverse, max_eq_right]
    exact List.length_pos_iff.2 (Nat.digits_ne_nil_iff_ne_zero.2 h0)

/-- The digits, behind what it takes to fill the width, unless counting the width down goes below
the least `int`. -/
theorem printnum_run (hb : 2 ≤ base) (hn : n < base ^ (fuel + 1)) (hlo : -2147483648 ≤ width)
    (hhi : width < 2147483648) :
    printnum (fuel + 1) n base width padc =
      if -2147483648 ≤ width - (numText base n).length then
        some (List.replicate (width - (numText base n).length).toNat padc ++ numText base n)
      else none := by
  induction fuel generalizing n width with
  | zero =>
    rw [Nat.zero_add, pow_one] at hn
    rw [printnum, numText_of_lt hn, List.length_singleton, Nat.cast_one, Nat.mod_eq_of_lt hn]
    rcases eq_or_lt_of_le hlo with hmin | hmin
    · rw [int_eq_none (by omega), if_neg (by omega)]
      rfl
    · rw [int_eq_some (by omega) (by omega), Option.bind_eq_bind, Option.bind_some,
        if_neg (by omega), if_pos (by omega)]
      rfl
  | succ fuel ih =>
    rw [printnum]
    rcases eq_or_lt_of_le hlo with hmin | hmin
    · have hlen := length_numText base n
      rw [int_eq_none (by omega), if_neg (by omega)]
      rfl
    rw [int_eq_some (by omega) (by omega), Option.bind_eq_bind, Option.bind_some]
    by_cases h : base ≤ n
    · have hdiv : n / base < base ^ (fuel + 1) := by
        rw [Nat.div_lt_iff_lt_mul (by omega), ← pow_succ]
        exact hn
      rw [if_pos h, ih hdiv (by omega) (by omega), numText_of_le hb h, List.length_append,
        List.length_singleton, Nat.cast_add, Nat.cast_one, ← List.append_assoc,
        show width - ((numText base (n / base)).length + 1 : ℤ) =
          width - 1 - (numText base (n / base)).length by ring]
      split_ifs
      · rfl
      · rfl
    · rw [if_neg h, numText_of_lt (by omega), List.length_singleton, Nat.cast_one,
        Nat.mod_eq_of_lt (by omega), if_pos (by omega)]
      rfl

theorem printnum_spec (hb : 2 ≤ base) (hn : n < base ^ (fuel + 1))
    (hlo : -2147483647 + (fuel : ℤ) ≤ width) (hhi : width < 2147483648) :
    printnum (fuel + 1) n base width padc =
      some (List.replicate (width - (numText base n).length).toNat padc ++ numText base n) := by
  have hlen := length_numText base n
  have hdigits := (Nat.digits_length_le_iff (by omega) n).2 hn
  rw [printnum_run hb hn (by omega) hhi, if_pos (by omega)]

end Numbers

namespace Directive

variable (f : Directive)

theorem fieldWidth_pos (h : f.width ≠ []) : 0 < f.fieldWidth := by
  rcases hw : f.width with _ | ⟨d, l⟩
  · exact absurd hw h
  · rw [fieldWidth, hw]
    exact value_pos (f.width_head d (by rw [hw]; rfl)) l

theorem spec_width_of_nil (h : f.width = []) :
    f.fieldWidth = 0 ∧ (f.spec.width = 0 ∨ f.spec.width = -1) := by
  refine ⟨by rw [fieldWidth, h]; rfl, ?_⟩
  rw [spec]
  cases f.precision <;> simp [h]

theorem spec_width_of_ne (h : f.width ≠ []) : f.spec.width = f.fieldWidth := by
  rw [spec]
  exact if_pos h

/-- What is missing to the width. -/
theorem toNat_spec_width_sub (k : ℕ) : (f.spec.width - k).toNat = f.fieldWidth - k := by
  by_cases h : f.width = []
  · obtain ⟨h0, hw | hw⟩ := f.spec_width_of_nil h <;> omega
  · rw [f.spec_width_of_ne h]
    omega

theorem spec_width_range (h : f.NumeralsFit) : -1 ≤ f.spec.width ∧ f.spec.width < 2147483600 := by
  have hfit := h.1
  by_cases hnil : f.width = []
  · obtain ⟨h0, hw | hw⟩ := f.spec_width_of_nil hnil <;> omega
  · rw [f.spec_width_of_ne hnil]
    omega

theorem number_spec (h : f.NumeralsFit) {base n : ℕ} (hb : 2 ≤ base)
    (hn : n < 18446744073709551616) :
    number f.spec n base =
      some (List.replicate (f.fieldWidth - (numText base n).length) f.padc ++ numText base n) := by
  have hrange := f.spec_width_range h
  have hpow : n < base ^ (63 + 1) :=
    hn.trans_le (le_trans (by norm_num) (Nat.pow_le_pow_left hb 64))
  rw [number, printnum_spec hb hpow (by omega) (by omega), toNat_spec_width_sub]
  rfl

end Directive

/-! ## Strings -/

section Strings

theorem stringLoop_spec (s : List Byte) (p w : ℤ) (n : ℕ) (hlo : -2147483648 ≤ w)
    (hhi : w < 2147483648) (hn : n = if p < 0 then s.length else min p.toNat s.length) :
    stringLoop false s p w = if -2147483648 ≤ w - n then some (s.take n, w - n) else none := by
  induction s generalizing p w n with
  | nil =>
    have hn0 : n = 0 := by
      rw [hn]
      split_ifs <;> simp
    subst hn0
    rw [stringLoop, if_pos (by omega)]
    simp
  | cons c s ih =>
    rw [stringLoop, List.length_cons] at *
    by_cases hmore : p < 0 ∨ 0 ≤ p - 1
    · -- one more character is printed
      rw [if_pos hmore]
      obtain ⟨k, rfl⟩ : ∃ k, n = k + 1 := by
        refine ⟨n - 1, ?_⟩
        rw [hn]
        split_ifs <;> omega
      by_cases hfit : -2147483648 ≤ w - 1
      · have hk : k = if (if p < 0 then p else p - 1) < 0 then s.length else
            min (if p < 0 then p else p - 1).toNat s.length := by
          split_ifs at hn ⊢ <;> omega
        rw [int_eq_some hfit (by omega), Option.bind_eq_bind, Option.bind_some,
          ih _ (w - 1) k hfit (by omega) hk]
        push_cast
        rw [show w - 1 - (k : ℤ) = w - (k + 1) by ring]
        split_ifs <;> rfl
      · have hno : ¬ -2147483648 ≤ w - ((k + 1 : ℕ) : ℤ) := by
          push_cast
          omega
        rw [int_eq_none (by omega), if_neg hno]
        rfl
    · have hn0 : n = 0 := by
        rw [hn, if_neg (by omega)]
        omega
      subst hn0
      rw [if_neg hmore, if_pos (by omega)]
      simp

namespace Directive

variable (f : Directive) (s : List Byte)

/-- How many characters of the string are printed. -/
def printed : ℕ :=
  match f.precision with
  | none => s.length
  | some l => if value l = 0 then s.length else min (value l) s.length

/-- The width can be counted down without overflow. -/
def StringFits : Prop :=
  if f.width ≠ [] ∧ f.padc ≠ 0x2D#8 then
    f.printed s + (f.printed s - f.fieldWidth) ≤ 2147483648
  else (f.printed s : ℤ) ≤ 2147483648 + f.spec.width

theorem printed_eq : f.printed s =
    if f.spec.precision < 0 then s.length else min f.spec.precision.toNat s.length := by
  rw [printed, spec]
  cases f.precision with
  | none => rfl
  | some l =>
    by_cases h0 : value l = 0
    · simp [h0]
    · simp [h0]

theorem strnlen_spec (h : f.NumeralsFit) : strnlen s f.spec.precision = int (f.printed s) := by
  have hle := f.printed_eq s
  have hfit := h.2
  rw [strnlen]
  have hprec : f.spec.precision = -1 ∨ 0 ≤ f.spec.precision ∧ f.spec.precision < 2147483648 := by
    rw [spec]
    cases hp : f.precision with
    | none => exact .inl rfl
    | some l =>
      have := hfit l hp
      simp only
      split_ifs
      · exact .inl rfl
      · exact .inr ⟨by omega, by omega⟩
  rcases hprec with hneg | ⟨h0, hlt⟩
  · rw [hneg] at hle ⊢
    rw [if_pos (by decide)] at hle
    rw [hle, show ((-1 : ℤ) % 4294967296).toNat = 4294967295 from rfl]
    -- a string that is longer overflows the `int` either way
    by_cases hlen : s.length ≤ 4294967295
    · rw [min_eq_left (by omega)]
    · rw [min_eq_right (by omega), int_eq_none (by omega), int_eq_none (by omega)]
  · rw [if_neg (by omega)] at hle
    rw [hle, Int.emod_eq_of_lt h0 (by omega), min_comm, Nat.cast_min]

theorem string_spec (h : f.NumeralsFit) :
    (f.StringFits s → string f.spec s = some
      (if f.padc = 0x2D#8 then s.take (f.printed s) ++ blanks (f.fieldWidth - f.printed s)
      else List.replicate (f.fieldWidth - f.printed s) f.padc ++ s.take (f.printed s))) ∧
    (¬ f.StringFits s → string f.spec s = none) := by
  have hrange := f.spec_width_range h
  have hn := f.printed_eq s
  have hmissing := f.toNat_spec_width_sub (f.printed s)
  rw [StringFits, string]
  by_cases hleft : 0 < f.spec.width ∧ f.spec.padc ≠ 0x2D#8
  · -- padded on the left
    have hne : f.width ≠ [] := by
      intro hnil
      obtain ⟨-, hw | hw⟩ := f.spec_width_of_nil hnil <;> omega
    have hpadc : f.padc ≠ 0x2D#8 := hleft.2
    have hwidth := f.spec_width_of_ne hne
    rw [if_pos hleft, if_pos ⟨hne, hpadc⟩, if_neg hpadc, f.strnlen_spec s h]
    by_cases hlen : f.printed s < 2147483648
    · rw [int_eq_some (by omega) (by omega)]
      simp only [Option.bind_eq_bind, Option.bind_some]
      rw [int_eq_some (by omega) (by omega)]
      simp only [Option.bind_some, Option.pure_def]
      rw [show f.spec.altflag = false from rfl,
        stringLoop_spec s f.spec.precision _ _ (by omega) (by omega) hn]
      constructor
      · intro hfit
        rw [if_pos (by omega)]
        simp only [Option.bind_some]
        rw [hmissing, show (min (f.spec.width - (f.printed s : ℤ)) 0 - (f.printed s : ℤ)).toNat = 0
          by omega]
        simp only [List.replicate_zero, List.append_nil]
        rfl
      · intro hno
        rw [if_neg (by omega)]
        rfl
    · rw [int_eq_none (by omega)]
      refine ⟨fun hfit => ?_, fun _ => rfl⟩
      omega
  · have hcond : ¬ (f.width ≠ [] ∧ f.padc ≠ 0x2D#8) := by
      rintro ⟨hne, hpadc⟩
      have := f.fieldWidth_pos hne
      have := f.spec_width_of_ne hne
      exact hleft ⟨by omega, hpadc⟩
    rw [if_neg hleft, if_neg hcond]
    simp only [Option.pure_def, Option.bind_eq_bind, Option.bind_some, List.nil_append]
    rw [show f.spec.altflag = false from rfl,
      stringLoop_spec s f.spec.precision _ _ (by omega) (by omega) hn]
    constructor
    · intro hfit
      rw [if_pos (by omega)]
      simp only [Option.bind_some]
      rw [hmissing]
      by_cases hpadc : f.padc = 0x2D#8
      · rw [if_pos hpadc]
        rfl
      · -- no width at all
        have hnil : f.width = [] := by
          by_contra hne
          exact hcond ⟨hne, hpadc⟩
        rw [if_neg hpadc, (f.spec_width_of_nil hnil).1]
        simp
    · intro hno
      rw [if_neg (by omega)]
      rfl

end Directive

end Strings

/-! ## Where the output is the reference -/

section Compare

variable {t : List Byte} {a b : Byte} {k : ℕ}

/-- Padding with another character shows, on whichever side it is. -/
theorem eq_zero_of_pad {u : List Byte} (h : a ≠ b) (hcount : u.count b = k + t.count b)
    (heq : List.replicate k a ++ t = u) : k = 0 := by
  rw [← heq, List.count_append, List.count_replicate, if_neg (by simpa using h)] at hcount
  omega

theorem pad_eq_left (h : a ≠ b) : List.replicate k a ++ t = List.replicate k b ++ t ↔ k = 0 :=
  ⟨eq_zero_of_pad h (by simp), by rintro rfl; rfl⟩

theorem pad_eq_right (h : a ≠ b) : List.replicate k a ++ t = t ++ List.replicate k b ↔ k = 0 :=
  ⟨eq_zero_of_pad h (by simp [Nat.add_comm]), by rintro rfl; simp⟩

end Compare

namespace Directive

variable (f : Directive)

/-- The precision is zero. -/
def ZeroPrecision : Prop := ∃ l ∈ f.precision, value l = 0

/-- The string comes out right.  A precision of zero is not seen, and the zeros of any other
precision that starts with one, like the flag, make zeros of the blanks in front. -/
def StringOk (s : List Byte) : Prop :=
  (f.ZeroPrecision ∧ s.length = f.fieldWidth ∧ ∀ c ∈ s, c = 0x20#8) ∨
    (¬ f.ZeroPrecision ∧
      (f.fieldWidth ≤ f.printed s ∨ (f.zero = false ∧ f.leadingZero = false)))

/-- A number of `len` digits without a sign comes out right.  It is always padded in front. -/
def NumberOk (len : ℕ) : Prop :=
  f.fieldWidth ≤ len ∨ (f.minus = false ∧ (f.zero = true ∨ f.leadingZero = false))

end Directive

/-- When the directive prints what it should.  A sign is not counted, and printed in front of
the padding. -/
def Holds (f : Directive) : Conversion → Prop
  | .s p => f.NumeralsFit ∧ f.StringFits (textOf p) ∧ f.StringOk (textOf p)
  | .d v => f.NumeralsFit ∧
      if v.toInt < 0 then f.fieldWidth ≤ (numText 10 v.toInt.natAbs).length
      else f.NumberOk (numText 10 v.toInt.natAbs).length
  | .u v => f.NumeralsFit ∧ f.NumberOk (numText 10 v.toNat).length
  | .x v => f.NumeralsFit ∧ f.NumberOk (numText 16 v.toNat).length
  | .o v => f.NumeralsFit ∧ f.NumberOk (numText 8 v.toNat).length

namespace Directive

variable (f : Directive)

theorem padc_of_zero (h : f.zero = true ∨ f.leadingZero = true) : f.padc = 0x30#8 := by
  rw [padc, if_pos (by simpa using h)]

theorem padc_of_not (h : f.zero = false) (h' : f.leadingZero = false) :
    f.padc = if f.minus then 0x2D#8 else 0x20#8 := by
  rw [padc, h, h']
  rfl

/-- A number without a sign. -/
theorem number_iff (t : List Byte) :
    List.replicate (f.fieldWidth - t.length) f.padc ++ t = f.padNumber [] t ↔
      f.NumberOk t.length := by
  unfold padNumber NumberOk pad blanks zeros
  simp only [List.nil_append]
  rw [← Nat.sub_eq_zero_iff_le]
  cases hm : f.minus with
  | true =>
    -- padded in front, but should be behind
    have hpad : f.padc ≠ 0x20#8 := by
      rw [padc, hm]
      cases f.zero || f.leadingZero <;> decide
    simpa using pad_eq_right hpad
  | false =>
    cases hz : f.zero with
    | true =>
      rw [f.padc_of_zero (.inl hz)]
      simp
    | false =>
      cases hl : f.leadingZero with
      | true =>
        rw [f.padc_of_zero (.inr hl)]
        simp
      | false =>
        rw [f.padc_of_not hz hl, hm]
        simp

/-- A number with a sign. -/
theorem number_neg_iff (t : List Byte) :
    0x2D#8 :: (List.replicate (f.fieldWidth - t.length) f.padc ++ t) = f.padNumber [0x2D#8] t ↔
      f.fieldWidth ≤ t.length := by
  have hlen : (f.padNumber [0x2D#8] t).length = max f.fieldWidth (t.length + 1) := by
    unfold padNumber pad blanks zeros
    split_ifs <;> simp <;> omega
  constructor
  · intro heq
    have hl := congrArg List.length heq
    rw [hlen, List.length_cons, List.length_append, List.length_replicate] at hl
    omega
  · intro hle
    have h0 : f.fieldWidth - t.length = 0 := by omega
    have h1 : f.fieldWidth - ([0x2D#8] ++ t).length = 0 := by simp; omega
    rw [padNumber, pad, h0, h1]
    split_ifs <;> simp [zeros, blanks]

/-- The text that is asked for, and how much of it is printed. -/
theorem printed_of_not_zero (h : ¬ f.ZeroPrecision) (s : List Byte) :
    (match f.precision with
      | none => s
      | some l => s.take (value l)) = s.take (f.printed s) ∧
    (s.take (f.printed s)).length = f.printed s := by
  unfold printed
  cases hp : f.precision with
  | none => simp
  | some l =>
    have h0 : value l ≠ 0 := fun h0 => h ⟨l, hp, h0⟩
    simp only [if_neg h0]
    constructor
    · rcases le_total (value l) s.length with hle | hle
      · rw [min_eq_left hle]
      · rw [min_eq_right hle, List.take_of_length_le hle, List.take_length]
    · rw [List.length_take]
      omega

theorem leadingZero_of_zero (h : f.ZeroPrecision) : f.leadingZero = true := by
  obtain ⟨l, hp, h0⟩ := h
  rcases l with _ | ⟨d, l⟩
  · exact absurd rfl (f.precision_ne [] hp)
  · have hd : d = 0 := by
      by_contra hd
      exact (value_pos hd l).ne' h0
    rw [leadingZero, Option.mem_def.1 hp, hd]
    rfl

/-- A string. -/
theorem string_iff (s : List Byte) :
    (if f.padc = 0x2D#8 then s.take (f.printed s) ++ blanks (f.fieldWidth - f.printed s)
      else List.replicate (f.fieldWidth - f.printed s) f.padc ++ s.take (f.printed s)) =
      f.pad (match f.precision with
        | none => s
        | some l => s.take (value l)) ↔ f.StringOk s := by
  by_cases hzp : f.ZeroPrecision
  · -- all of the string is printed, behind zeros
    have hall : f.printed s = s.length := by
      obtain ⟨l, hp, h0⟩ := hzp
      rw [printed, Option.mem_def.1 hp]
      exact if_pos h0
    have hnone : (match f.precision with
        | none => s
        | some l => s.take (value l)) = [] := by
      obtain ⟨l, hp, h0⟩ := hzp
      rw [Option.mem_def.1 hp]
      show s.take (value l) = []
      rw [h0, List.take_zero]
    rw [f.padc_of_zero (.inr (f.leadingZero_of_zero hzp)), if_neg (by decide), hall, hnone,
      List.take_length, StringOk]
    have hpad : f.pad [] = blanks f.fieldWidth := by
      unfold pad
      split_ifs <;> simp
    rw [hpad, blanks]
    constructor
    · intro heq
      have hlen := congrArg List.length heq
      have hcount := congrArg (List.count 0x30#8) heq
      rw [List.length_append, List.length_replicate, List.length_replicate] at hlen
      rw [List.count_append, List.count_replicate_self, List.count_replicate,
        if_neg (by decide)] at hcount
      have h0 : f.fieldWidth - s.length = 0 := by omega
      rw [h0, List.replicate_zero, List.nil_append] at heq
      refine .inl ⟨hzp, by omega, fun c hc => ?_⟩
      rw [heq] at hc
      exact List.eq_of_mem_replicate hc
    · rintro (⟨-, hlen, hblank⟩ | ⟨hno, -⟩)
      · rw [← hlen, Nat.sub_self, List.replicate_zero, List.nil_append]
        exact List.eq_replicate_of_mem hblank
      · exact absurd hzp hno
  · obtain ⟨htext, hlen⟩ := f.printed_of_not_zero hzp s
    rw [htext, StringOk]
    have hiff : f.fieldWidth ≤ f.printed s ↔ f.fieldWidth - f.printed s = 0 := by omega
    simp only [hzp, false_and, not_false_eq_true, true_and, false_or, hiff, pad, hlen, blanks]
    by_cases hzero : f.zero = true ∨ f.leadingZero = true
    · rw [f.padc_of_zero hzero, if_neg (by decide)]
      have hno : ¬ (f.zero = false ∧ f.leadingZero = false) := by
        rintro ⟨h, h'⟩
        rw [h, h'] at hzero
        simp at hzero
      rw [or_iff_left hno]
      split_ifs
      · exact pad_eq_right (by decide)
      · exact pad_eq_left (by decide)
    · rw [not_or, Bool.not_eq_true, Bool.not_eq_true] at hzero
      rw [f.padc_of_not hzero.1 hzero.2]
      refine iff_of_true ?_ (.inr hzero)
      cases f.minus <;> rfl

end Directive

/-- What a conversion prints. -/
def Directive.output (f : Directive) : Conversion → Option (List Byte)
  | .s p => string f.spec (textOf p)
  | .d v => decimal f.spec v.toInt
  | .u v => number f.spec v.toNat 10
  | .x v => number f.spec v.toNat 16
  | .o v => number f.spec v.toNat 8

theorem convert_char (f : Directive) (c : Conversion) :
    convert c.char f.spec [c.arg] = (f.output c).map fun out => some (out, []) := by
  have hlast : ∀ o : Option (List Byte), (o.bind fun out => some (some (out, ([] : List Arg)))) =
      o.map fun out => some (out, []) := fun o => by cases o <;> rfl
  cases c with
  | s p => exact hlast _
  | d v => exact hlast _
  | u v => exact hlast _
  | x v => exact hlast _
  | o v => exact hlast _

/-- What a directive prints is what its conversion prints. -/
theorem vprintfmt_directive (f : Directive) (c : Conversion) (fuel : ℕ) :
    (f.NumeralsFit →
      vprintfmt (fuel + 2) (0x25#8 :: (f.body ++ [c.char])) [c.arg] = f.output c) ∧
    (¬ f.NumeralsFit →
      vprintfmt (fuel + 2) (0x25#8 :: (f.body ++ [c.char])) [c.arg] = none) := by
  obtain ⟨hread, hover⟩ := reswitch_body [c.arg] f c
  constructor
  · intro hfit
    rw [vprintfmt, if_neg (by decide), hread hfit]
    simp only [Option.bind_eq_bind, Option.bind_some, convert_char]
    cases f.output c with
    | none => rfl
    | some out => exact congrArg some (List.append_nil out)
  · intro hno
    rw [vprintfmt, if_neg (by decide), hover hno]
    rfl

/-- **Formatted output.**  A directive prints what it should exactly if `Holds`. -/
theorem vprintfmt_iff (f : Directive) (c : Conversion) (fuel : ℕ) :
    vprintfmt (fuel + 2) (0x25#8 :: (f.body ++ [c.char])) [c.arg] = some (reference f c) ↔
      Holds f c := by
  obtain ⟨hread, hover⟩ := vprintfmt_directive f c fuel
  by_cases hfit : f.NumeralsFit
  · rw [hread hfit]
    have hunsigned : ∀ (v : BitVec 32) {base : ℕ}, 2 ≤ base →
        (number f.spec v.toNat base = some (f.padNumber [] (numText base v.toNat)) ↔
          f.NumeralsFit ∧ f.NumberOk (numText base v.toNat).length) := by
      intro v base hb
      rw [f.number_spec hfit hb (by omega), Option.some.injEq, f.number_iff, and_iff_right hfit]
    cases c with
    | s p =>
      obtain ⟨hsome, hnone⟩ := f.string_spec (textOf p) hfit
      simp only [Directive.output, Holds, hfit, true_and]
      by_cases hs : f.StringFits (textOf p)
      · rw [hsome hs, Option.some.injEq, reference, f.string_iff]
        simp [hs]
      · rw [hnone hs]
        simp [hs]
    | d v =>
      have hrange : -2147483648 ≤ v.toInt ∧ v.toInt < 2147483648 := by
        have := v.isLt
        rw [BitVec.toInt_eq_toNat_cond]
        split_ifs <;> omega
      have hv : v.toInt.natAbs < 18446744073709551616 := by omega
      have hmin : v.toInt ≠ -9223372036854775808 := by omega
      simp only [Directive.output, Holds, hfit, true_and, reference, decimal]
      by_cases hneg : v.toInt < 0
      · simp only [if_pos hneg, if_neg hmin]
        rw [f.number_spec hfit (by decide) hv, Option.map_some, Option.some.injEq]
        exact f.number_neg_iff _
      · simp only [if_neg hneg]
        rw [f.number_spec hfit (by decide) hv, Option.some.injEq]
        exact f.number_iff _
    | u v => exact hunsigned v (by decide)
    | x v => exact hunsigned v (by decide)
    | o v => exact hunsigned v (by decide)
  · rw [hover hfit]
    cases c <;> simp [Holds, hfit]

/-- `%-5d`. -/
def leftNumber : Directive := ⟨true, false, [5], by decide, none, by decide⟩

/-- `%.0s`. -/
def noString : Directive := ⟨false, false, [], by decide, some [0], by decide⟩

/-- `%5d`. -/
def signedNumber : Directive := ⟨false, false, [5], by decide, none, by decide⟩

/-- `%-5d` of 42 is padded with minus signs in front, `%.0s` prints the whole string, and `%5d`
of -3 has six characters. -/
theorem vprintfmt_differs :
    (vprintfmt 2 (0x25#8 :: (leftNumber.body ++ [0x64#8])) [.int 42#32] = some (lit "---42") ∧
      reference leftNumber (.d 42#32) = lit "42   ") ∧
    (vprintfmt 2 (0x25#8 :: (noString.body ++ [0x73#8])) [.str (some (lit "ab"))] =
        some (lit "ab") ∧ reference noString (.s (some (lit "ab"))) = []) ∧
    vprintfmt 2 (0x25#8 :: (signedNumber.body ++ [0x64#8])) [.int (-3#32)] = some (lit "-    3") ∧
      reference signedNumber (.d (-3#32)) = lit "   -3" := by
  decide

end Jos.Printfmt
