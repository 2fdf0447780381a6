import Jos.Inc.Error

/-!
# Formatted output

`vprintfmt` of `lib/printfmt.c` with all its conversions.  What it hands to `putch` is the
output, a list of characters.

* `reswitch` — the flags, numerals and modifiers behind a `%`, up to the conversion character.
* `convert` — the conversions; `printnum` prints the digits of a number.
* `vprintfmt` — the whole function.

An `int` that overflows is undefined behaviour in C, and so is an argument of another type
than the one asked for; the model has no result then.
-/

namespace Jos.Printfmt

/-- A character. -/
abbrev Byte := BitVec 8

/-- The characters of a string literal. -/
def lit (s : String) : List Byte := s.toList.map fun c => BitVec.ofNat 8 c.toNat

/-- An `int`. -/
def int (z : ℤ) : Option ℤ := if -2147483648 ≤ z ∧ z < 2147483648 then some z else none

/-- The variable arguments; a string may be a null pointer. -/
inductive Arg
  | int (v : BitVec 32)
  | longLong (v : BitVec 64)
  | ptr (p : BitVec 32)
  | str (s : Option (List Byte))

/-- The local variables that a directive sets. -/
structure Spec where
  padc : Byte
  width : ℤ
  precision : ℤ
  lflag : ℕ
  altflag : Bool
  deriving DecidableEq

/-- As they are behind a `%`. -/
def Spec.init : Spec := ⟨0x20#8, -1, -1, 0, false⟩

/-! ## Arguments -/

/-- `getuint`. -/
def getuint (lflag : ℕ) : List Arg → Option (ℕ × List Arg)
  | .longLong v :: args => if 2 ≤ lflag then some (v.toNat, args) else none
  | .int v :: args => if 2 ≤ lflag then none else some (v.toNat, args)
  | _ => none

/-- `getint`. -/
def getint (lflag : ℕ) : List Arg → Option (ℤ × List Arg)
  | .longLong v :: args => if 2 ≤ lflag then some (v.toInt, args) else none
  | .int v :: args => if 2 ≤ lflag then none else some (v.toInt, args)
  | _ => none

/-! ## Reading a directive -/

def isDigit (c : Byte) : Bool := 0x30#8 ≤ c && c ≤ 0x39#8

/-- `precision * 10 + ch - '0'`. -/
def addDigit (precision : ℤ) (ch : Byte) : Option ℤ := do
  let a ← int (precision * 10)
  let b ← int (a + ch.toNat)
  int (b - 48)

/-- The loop that reads a numeral: its value, and the format behind it. -/
def numeral : ℤ → Byte → List Byte → Option (ℤ × List Byte)
  | precision, ch, [] => do
      let precision ← addDigit precision ch
      return (precision, [])
  | precision, ch, c :: fmt => do
      let precision ← addDigit precision ch
      if isDigit c then numeral precision c fmt else return (precision, c :: fmt)

/-- `process_precision:` -/
def Spec.process (sp : Spec) (precision : ℤ) : Spec :=
  if sp.width < 0 then { sp with width := precision, precision := -1 }
  else { sp with precision := precision }

/-- From `reswitch:` up to the conversion character, which is 0 at the end of the format. -/
def reswitch : ℕ → List Byte → Spec → List Arg → Option (Byte × List Byte × Spec × List Arg)
  | 0, _, _, _ => none
  | _ + 1, [], sp, args => some (0#8, [], sp, args)
  | fuel + 1, ch :: fmt, sp, args =>
    if ch = 0x2D#8 then reswitch fuel fmt { sp with padc := 0x2D#8 } args
    else if ch = 0x30#8 then reswitch fuel fmt { sp with padc := 0x30#8 } args
    else if isDigit ch then do
      let (precision, fmt) ← numeral 0 ch fmt
      reswitch fuel fmt (sp.process precision) args
    else if ch = 0x2A#8 then do
      let (precision, args) ← getint 0 args
      reswitch fuel fmt (sp.process precision) args
    else if ch = 0x2E#8 then
      reswitch fuel fmt (if sp.width < 0 then { sp with width := 0 } else sp) args
    else if ch = 0x23#8 then reswitch fuel fmt { sp with altflag := true } args
    else if ch = 0x6C#8 then reswitch fuel fmt { sp with lflag := sp.lflag + 1 } args
    else some (ch, fmt, sp, args)

/-! ## Conversions -/

/-- `"0123456789abcdef"[d]`. -/
def digit (d : ℕ) : Byte := (lit "0123456789abcdef").getD d 0#8

/-- `printnum`; numbers have at most 64 digits. -/
def printnum : ℕ → ℕ → ℕ → ℤ → Byte → Option (List Byte)
  | 0, _, _, _, _ => none
  | fuel + 1, num, base, width, padc => do
      let width ← int (width - 1)
      if base ≤ num then
        let out ← printnum fuel (num / base) base width padc
        return out ++ [digit (num % base)]
      else return List.replicate width.toNat padc ++ [digit (num % base)]

/-- `number:` -/
def number (sp : Spec) (num base : ℕ) : Option (List Byte) := printnum 64 num base sp.width sp.padc

/-- A signed number in decimal. -/
def decimal (sp : Spec) (v : ℤ) : Option (List Byte) :=
  if v < 0 then
    -- there is no `long long` for the negation of the smallest one
    if v = -9223372036854775808 then none
    else (number sp v.natAbs 10).map (0x2D#8 :: ·)
  else number sp v.natAbs 10

/-- `error_string`. -/
def errorString : ℕ → Option (List Byte)
  | 1 => some (lit "unspecified error")
  | 2 => some (lit "bad environment")
  | 3 => some (lit "invalid parameter")
  | 4 => some (lit "out of memory")
  | 5 => some (lit "out of environments")
  | 6 => some (lit "segmentation fault")
  | 7 => some (lit "env is not recving")
  | 8 => some (lit "unexpected end of file")
  | 9 => some (lit "no free space on disk")
  | 10 => some (lit "too many files are open")
  | 11 => some (lit "file or block not found")
  | 12 => some (lit "invalid path")
  | 13 => some (lit "file already exists")
  | 14 => some (lit "file is not a valid executable")
  | 15 => some (lit "operation not supported")
  | _ => none

/-- `%e`: `printfmt` with the format `"%s"` or `"error %d"`. -/
def errorText (err : ℤ) : Option (List Byte) := do
  let err ← int err.natAbs
  match errorString err.toNat with
  | some s => return s
  | none => return lit "error " ++ (← decimal .init err)

/-- `strnlen(p, precision)`: the precision is taken for a `size_t`. -/
def strnlen (s : List Byte) (precision : ℤ) : Option ℤ :=
  int (min s.length (precision % 4294967296).toNat)

/-- What `%s` prints for a character. -/
def shown (altflag : Bool) (c : Byte) : Byte :=
  if altflag && (c.toInt < 0x20 || 0x7E < c.toInt) then 0x3F#8 else c

/-- The loop over the characters of the string: the output, and what is left of the width. -/
def stringLoop (altflag : Bool) : List Byte → ℤ → ℤ → Option (List Byte × ℤ)
  | [], _, width => some ([], width)
  | c :: s, precision, width =>
    if precision < 0 ∨ 0 ≤ precision - 1 then do
      let width ← int (width - 1)
      let (out, width) ←
        stringLoop altflag s (if precision < 0 then precision else precision - 1) width
      return (shown altflag c :: out, width)
    else some ([], width)

/-- `%s`. -/
def string (sp : Spec) (s : List Byte) : Option (List Byte) := do
  let (left, width) ←
    if 0 < sp.width ∧ sp.padc ≠ 0x2D#8 then do
      let len ← strnlen s sp.precision
      let width ← int (sp.width - len)
      pure (List.replicate width.toNat sp.padc, min width 0)
    else pure ([], sp.width)
  let (out, width) ← stringLoop sp.altflag s sp.precision width
  return left ++ out ++ List.replicate width.toNat 0x20#8

/-- The conversion `ch`: its output and the arguments left, or nothing if there is no such
conversion. -/
def convert (ch : Byte) (sp : Spec) (args : List Arg) : Option (Option (List Byte × List Arg)) :=
  if ch = 0x63#8 then
    match args with
    | .int v :: args => some (some ([v.setWidth 8], args))
    | _ => none
  else if ch = 0x65#8 then
    match args with
    | .int v :: args => do return some (← errorText v.toInt, args)
    | _ => none
  else if ch = 0x73#8 then
    match args with
    | .str s :: args => do return some (← string sp (s.getD (lit "(null)")), args)
    | _ => none
  else if ch = 0x64#8 then do
    let (v, args) ← getint sp.lflag args
    return some (← decimal sp v, args)
  else if ch = 0x75#8 then do
    let (v, args) ← getuint sp.lflag args
    return some (← number sp v 10, args)
  else if ch = 0x6F#8 then do
    let (v, args) ← getuint sp.lflag args
    return some (← number sp v 8, args)
  else if ch = 0x70#8 then
    match args with
    | .ptr p :: args => do return some (lit "0x" ++ (← number sp p.toNat 16), args)
    | _ => none
  else if ch = 0x78#8 then do
    let (v, args) ← getuint sp.lflag args
    return some (← number sp v 16, args)
  else if ch = 0x25#8 then some (some ([0x25#8], args))
  else some none

/-- `vprintfmt`. -/
def vprintfmt : ℕ → List Byte → List Arg → Option (List Byte)
  | 0, _, _ => none
  | _ + 1, [], _ => some []
  | fuel + 1, ch :: fmt, args =>
    if ch ≠ 0x25#8 then (vprintfmt fuel fmt args).map (ch :: ·)
    else do
      let (conv, rest, sp, args) ← reswitch (fmt.length + 1) fmt .init args
      match ← convert conv sp args with
      | some (out, args) => (vprintfmt fuel rest args).map (out ++ ·)
      -- an escape that is not known is printed as it stands
      | none => (vprintfmt fuel fmt args).map (0x25#8 :: ·)

end Jos.Printfmt
