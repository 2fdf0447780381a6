import Jos.User.PrintfmtSpec

/-!
# The format, character by character

`Printfmt` takes the format for a list.  In the code it is a pointer, which
runs forward over text, flags and numerals, and backward to the `%` of an
escape that is not known.  A `%` or a flag may be the last character, so that
the NUL is read as a conversion character and the pointer is behind it for a
moment.

* `vprintfmtAt` — the same function on a pointer.  A read in front of the
  format or behind its NUL is `Stop.outside`.
* `Reproduces` — what the output is made of.
* `vprintfmtAt_progress` — every format comes to its end.
* `vprintfmtAt_eq` — and what comes out is what `vprintfmt` says.

Nothing here depends on what the conversions print, on the arguments or on the
numbers in the format, so all three are left open: `print` and `star` stand for
the conversions and for `va_arg`, and an `int` that overflows is wrapped around.
-/

namespace Jos.Printfmt

/-! ## The code -/

/-- A pointer into the format: the characters in front of it, the nearest one
first, and those from it up to the NUL. -/
structure Ptr where
  back : List Byte
  ahead : List Byte

inductive Stop
  | outside
  | spins

/-- The loop that reads a numeral; the pointer is behind `ch`. -/
def numeralAt (precision : ℤ) (ch : Byte) (back : List Byte) : List Byte → Except Stop (ℤ × Ptr)
  | [] => .error .outside
  | c :: ahead =>
    if isDigit c then
      numeralAt (Int.bmod (precision * 10 + ch.toNat - 48) (2 ^ 32)) c (c :: back) ahead
    else .ok (Int.bmod (precision * 10 + ch.toNat - 48) (2 ^ 32), ⟨back, c :: ahead⟩)

/-- From `reswitch:` up to the conversion character. -/
def reswitchAt (star : List Arg → ℤ × List Arg) :
    ℕ → Ptr → Spec → List Arg → Except Stop (Byte × Ptr × Spec × List Arg)
  | 0, _, _, _ => .error .spins
  | _ + 1, ⟨_, []⟩, _, _ => .error .outside
  | fuel + 1, ⟨back, ch :: ahead⟩, sp, args =>
    if ch = 0x2D#8 then reswitchAt star fuel ⟨ch :: back, ahead⟩ { sp with padc := 0x2D#8 } args
    else if ch = 0x30#8 then
      reswitchAt star fuel ⟨ch :: back, ahead⟩ { sp with padc := 0x30#8 } args
    else if isDigit ch then do
      let (precision, fmt) ← numeralAt 0 ch (ch :: back) ahead
      reswitchAt star fuel fmt (sp.process precision) args
    else if ch = 0x2A#8 then
      reswitchAt star fuel ⟨ch :: back, ahead⟩ (sp.process (star args).1) (star args).2
    else if ch = 0x2E#8 then
      reswitchAt star fuel ⟨ch :: back, ahead⟩
        (if sp.width < 0 then { sp with width := 0 } else sp) args
    else if ch = 0x23#8 then
      reswitchAt star fuel ⟨ch :: back, ahead⟩ { sp with altflag := true } args
    else if ch = 0x6C#8 then
      reswitchAt star fuel ⟨ch :: back, ahead⟩ { sp with lflag := sp.lflag + 1 } args
    else .ok (ch, ⟨ch :: back, ahead⟩, sp, args)

/-- `while (fmt[-1] != '%') fmt--`. -/
def scanBack : List Byte → List Byte → Except Stop Ptr
  | [], _ => .error .outside
  | c :: back, ahead => if c ≠ 0x25#8 then scanBack back (c :: ahead) else .ok ⟨c :: back, ahead⟩

/-- The back-scan of the default case, which begins with `fmt--`. -/
def backScan : Ptr → Except Stop Ptr
  | ⟨[], _⟩ => .error .outside
  | ⟨c :: back, ahead⟩ => scanBack back (c :: ahead)

/-- The conversions there are. -/
def isConversion (ch : Byte) : Bool := ch ∈ lit "cesduopx%"

/-- `vprintfmt`. -/
def vprintfmtAt (print : Byte → Spec → List Arg → List Byte × List Arg)
    (star : List Arg → ℤ × List Arg) : ℕ → Ptr → List Arg → Except Stop (List Byte)
  | 0, _, _ => .error .spins
  | _ + 1, ⟨_, []⟩, _ => .error .outside
  | fuel + 1, ⟨back, ch :: ahead⟩, args =>
    if ch = 0#8 then .ok []
    else if ch ≠ 0x25#8 then
      (vprintfmtAt print star fuel ⟨ch :: back, ahead⟩ args).map (ch :: ·)
    else do
      let (conv, fmt, sp, args) ← reswitchAt star ahead.length ⟨ch :: back, ahead⟩ .init args
      if isConversion conv then
        (vprintfmtAt print star fuel fmt (print conv sp args).2).map ((print conv sp args).1 ++ ·)
      else do
        let fmt ← backScan fmt
        (vprintfmtAt print star fuel fmt args).map (0x25#8 :: ·)

/-! ## What comes out -/

/-- What may stand between the `%` and the conversion character. -/
def isFlag (c : Byte) : Bool := isDigit c || c ∈ lit "-*.#l"

/-- An output is made of the text of the format, of what the conversions print,
and of the escapes that are not known, as they stand. -/
inductive Reproduces (print : Byte → Spec → List Arg → List Byte × List Arg) :
    List Byte → List Byte → Prop
  | nil : Reproduces print [] []
  | text {c : Byte} {fmt out : List Byte} : c ≠ 0x25#8 → Reproduces print fmt out →
      Reproduces print (c :: fmt) (c :: out)
  | known {flags fmt out : List Byte} {c : Byte} {sp : Spec} {args : List Arg} :
      (∀ b ∈ flags, isFlag b) → isConversion c → Reproduces print fmt out →
      Reproduces print (0x25#8 :: (flags ++ c :: fmt)) ((print c sp args).1 ++ out)
  | unknown {flags fmt out : List Byte} {c : Byte} :
      (∀ b ∈ flags, isFlag b) → ¬ isFlag c → ¬ isConversion c → Reproduces print fmt out →
      Reproduces print (0x25#8 :: (flags ++ c :: fmt)) (0x25#8 :: (flags ++ c :: out))
  | ends {flags : List Byte} : (∀ b ∈ flags, isFlag b) →
      Reproduces print (0x25#8 :: flags) (0x25#8 :: flags)

variable {fuel : ℕ} {args : List Arg} {ch : Byte} {sp : Spec} {v : ℤ} {fmt rest : List Byte}

section Scan

variable {print : Byte → Spec → List Arg → List Byte × List Arg}
  {star : List Arg → ℤ × List Arg} {flags back rest : List Byte} {c : Byte}

theorem isDigit_isFlag (h : isDigit c) : isFlag c := by rw [isFlag, h]; rfl

theorem ne_flag {b : Byte} (hc : ¬ isFlag c) (hb : isFlag b) : c ≠ b := by
  rintro rfl
  exact hc hb

theorem isFlag_cases (h : isFlag c) : isDigit c ∨
    c = 0x2D#8 ∨ c = 0x2A#8 ∨ c = 0x2E#8 ∨ c = 0x23#8 ∨ c = 0x6C#8 := by
  rw [isFlag, Bool.or_eq_true, decide_eq_true_eq,
    show lit "-*.#l" = [0x2D#8, 0x2A#8, 0x2E#8, 0x23#8, 0x6C#8] by decide] at h
  simpa only [List.mem_cons, List.not_mem_nil, or_false] using h

theorem isDigit_ne_minus (h : isDigit c) : c ≠ 0x2D#8 := by
  rintro rfl
  exact absurd h (by decide)

/-- A flag is neither the NUL nor a `%`. -/
theorem isFlag_text (h : isFlag c) : c ≠ 0#8 ∧ c ≠ 0x25#8 := by
  constructor
  · rintro rfl
    exact absurd h (by decide)
  · rintro rfl
    exact absurd h (by decide)

theorem reverseAux_append (l l' back : List Byte) :
    (l ++ l').reverseAux back = l'.reverseAux (l.reverseAux back) := by
  induction l generalizing back with
  | nil => rfl
  | cons b l ih => exact ih (b :: back)

/-! ## One escape -/

variable (flags back rest) in
/-- A numeral ends in front of the first character that is no digit. -/
theorem numeralAt_run (hc : ¬ isDigit c) (precision : ℤ) (ch : Byte) :
    ∃ digits flags' v, flags = digits ++ flags' ∧
      numeralAt precision ch back (flags ++ c :: rest) =
        .ok (v, ⟨digits.reverseAux back, flags' ++ c :: rest⟩) := by
  induction flags generalizing precision ch back with
  | nil => exact ⟨[], [], _, rfl, if_neg hc⟩
  | cons b flags ih =>
    by_cases hb : isDigit b
    · obtain ⟨digits, flags', v, rfl, hrun⟩ :=
        ih (b :: back) (Int.bmod (precision * 10 + ch.toNat - 48) (2 ^ 32)) b
      exact ⟨b :: digits, flags', v, rfl, (if_pos hb).trans hrun⟩
    · exact ⟨[], b :: flags, _, rfl, if_neg hb⟩

theorem reswitchAt_stop (hc : ¬ isFlag c) (fuel : ℕ) (sp : Spec) (args : List Arg) :
    reswitchAt star (fuel + 1) ⟨back, c :: rest⟩ sp args = .ok (c, ⟨c :: back, rest⟩, sp, args) := by
  rw [reswitchAt, if_neg (ne_flag hc (by decide)), if_neg (ne_flag hc (by decide)),
    if_neg (fun h => hc (isDigit_isFlag h)), if_neg (ne_flag hc (by decide)),
    if_neg (ne_flag hc (by decide)), if_neg (ne_flag hc (by decide)), if_neg (ne_flag hc (by decide))]

variable (star back rest) in
/-- The flags are passed over, and the pointer ends up behind the conversion
character. -/
theorem reswitchAt_run (hflags : ∀ b ∈ flags, isFlag b) (hc : ¬ isFlag c) (fuel : ℕ)
    (hfuel : flags.length < fuel) (sp : Spec) (args : List Arg) :
    ∃ sp' args', reswitchAt star fuel ⟨back, flags ++ c :: rest⟩ sp args =
      .ok (c, ⟨c :: flags.reverseAux back, rest⟩, sp', args') := by
  induction fuel generalizing flags back sp args with
  | zero => exact absurd hfuel (Nat.not_lt_zero _)
  | succ fuel ih =>
    rcases flags with _ | ⟨b, flags⟩
    · exact ⟨sp, args, reswitchAt_stop hc fuel sp args⟩
    · rw [List.length_cons] at hfuel
      have hrest := fun x hx => hflags x (List.mem_cons_of_mem b hx)
      have hgo := ih (b :: back) hrest (by omega)
      rw [List.cons_append, reswitchAt]
      rcases isFlag_cases (hflags b (List.mem_cons_self ..)) with hb | rfl | rfl | rfl | rfl | rfl
      · by_cases h0 : b = 0x30#8
        · rw [if_neg (isDigit_ne_minus hb), if_pos h0]
          exact hgo _ _
        obtain ⟨digits, flags', v, rfl, hrun⟩ := numeralAt_run flags (b :: back) rest
          (fun h => hc (isDigit_isFlag h)) 0 b
        rw [List.length_append] at hfuel
        obtain ⟨sp', args', hrun'⟩ := ih (digits.reverseAux (b :: back))
          (fun x hx => hrest x (List.mem_append_right _ hx)) (by omega) (sp.process v) args
        refine ⟨sp', args', ?_⟩
        rw [if_neg (isDigit_ne_minus hb), if_neg h0, if_pos hb, hrun]
        show reswitchAt star fuel ⟨_, flags' ++ c :: rest⟩ (sp.process v) args = _
        rw [hrun', ← reverseAux_append]
        rfl
      · exact hgo _ _
      · exact hgo _ _
      · exact hgo _ _
      · exact hgo _ _
      · exact hgo _ _

theorem scanBack_run (hback : ∀ b ∈ flags, b ≠ 0x25#8) (ahead : List Byte) :
    scanBack (flags ++ 0x25#8 :: back) ahead = .ok ⟨0x25#8 :: back, flags.reverseAux ahead⟩ := by
  induction flags generalizing ahead with
  | nil => rfl
  | cons b flags ih =>
    rw [List.cons_append, scanBack, if_pos (hback b (List.mem_cons_self ..))]
    exact ih (fun x hx => hback x (List.mem_cons_of_mem b hx)) (b :: ahead)

/-- The back-scan puts the pointer right behind the `%`. -/
theorem backScan_run (hflags : ∀ b ∈ flags, isFlag b) :
    backScan ⟨c :: flags.reverseAux (0x25#8 :: back), rest⟩ =
      .ok ⟨0x25#8 :: back, flags ++ c :: rest⟩ := by
  rw [backScan, List.reverseAux_eq, scanBack_run, List.reverseAux_eq, List.reverse_reverse]
  intro b hb
  exact (isFlag_text (hflags b (List.mem_reverse.1 hb))).2

/-! ## The whole format -/

/-- Text is printed as it is. -/
theorem vprintfmtAt_text {text out : List Byte} (htext : ∀ b ∈ text, b ≠ 0#8 ∧ b ≠ 0x25#8)
    (h : vprintfmtAt print star fuel ⟨text.reverseAux back, rest⟩ args = .ok out) :
    vprintfmtAt print star (text.length + fuel) ⟨back, text ++ rest⟩ args = .ok (text ++ out) := by
  induction text generalizing back with
  | nil => rw [List.length_nil, Nat.zero_add]; exact h
  | cons b text ih =>
    have hb := htext b (List.mem_cons_self ..)
    rw [List.length_cons, Nat.add_right_comm, List.cons_append, vprintfmtAt, if_neg hb.1,
      if_pos hb.2, ih (fun x hx => htext x (List.mem_cons_of_mem b hx)) h]
    rfl

section Escape

variable (print star back rest)

/-- What stands behind a `%`: flags, a conversion character that may be the NUL, and the rest. -/
theorem vprintfmtAt_escape (hflags : ∀ b ∈ flags, isFlag b) (hc : ¬ isFlag c) (fuel : ℕ)
    (args : List Arg) : ∃ sp args',
    vprintfmtAt print star (fuel + 1) ⟨back, 0x25#8 :: (flags ++ c :: rest)⟩ args =
      if isConversion c then
        (vprintfmtAt print star fuel ⟨c :: flags.reverseAux (0x25#8 :: back), rest⟩
          (print c sp args').2).map ((print c sp args').1 ++ ·)
      else (vprintfmtAt print star fuel ⟨0x25#8 :: back, flags ++ c :: rest⟩ args').map
        (0x25#8 :: ·) := by
  obtain ⟨sp, args', hrun⟩ := reswitchAt_run star (0x25#8 :: back) rest hflags hc
    (flags ++ c :: rest).length (by simp) .init args
  refine ⟨sp, args', ?_⟩
  rw [vprintfmtAt, if_neg (by decide), if_neg (by decide), hrun]
  show (if isConversion c then _ else (do let fmt ← backScan _; _)) = _
  rw [backScan_run hflags]
  rfl

/-- An escape that is not known is printed up to the conversion character, and the text goes on
there.  The character may be the NUL, and the pointer is then brought back from behind it. -/
theorem vprintfmtAt_unknown (hflags : ∀ b ∈ flags, isFlag b) (hc : ¬ isFlag c)
    (hconv : ¬ isConversion c) (fuel : ℕ) (args : List Arg) : ∃ args', ∀ out,
      vprintfmtAt print star fuel ⟨flags.reverseAux (0x25#8 :: back), c :: rest⟩ args' = .ok out →
      vprintfmtAt print star (flags.length + fuel + 1) ⟨back, 0x25#8 :: (flags ++ c :: rest)⟩
        args = .ok (0x25#8 :: (flags ++ out)) := by
  obtain ⟨sp, args', hrun⟩ := vprintfmtAt_escape print star back rest hflags hc
    (flags.length + fuel) args
  refine ⟨args', fun out h => ?_⟩
  rw [hrun, if_neg hconv, vprintfmtAt_text (fun b hb => isFlag_text (hflags b hb)) h]
  rfl

end Escape

/-- From wherever the pointer stands, the rest of the format comes to its end. -/
theorem vprintfmtAt_reproduces : ∀ (n : ℕ) (fmt : List Byte), fmt.length ≤ n → 0#8 ∉ fmt →
    ∀ (back : List Byte) (fuel : ℕ) (args : List Arg), fmt.length < fuel →
      ∃ out, vprintfmtAt print star fuel ⟨back, fmt ++ [0#8]⟩ args = .ok out ∧
        Reproduces print fmt out := by
  intro n
  induction n with
  | zero =>
    intro fmt hn _ back fuel args hfuel
    obtain rfl := List.length_eq_zero_iff.1 (Nat.le_zero.1 hn)
    obtain ⟨fuel, rfl⟩ := Nat.exists_eq_succ_of_ne_zero (Nat.pos_iff_ne_zero.1 hfuel)
    exact ⟨[], rfl, .nil⟩
  | succ n ih =>
    intro fmt hn hnul back fuel args hfuel
    obtain ⟨fuel, rfl⟩ := Nat.exists_eq_succ_of_ne_zero (Nat.ne_zero_of_lt hfuel)
    rcases fmt with _ | ⟨ch, fmt⟩
    · exact ⟨[], rfl, .nil⟩
    rw [List.length_cons] at hn hfuel
    rw [List.mem_cons, not_or] at hnul
    by_cases hch : ch = 0x25#8
    · subst hch
      have hsplit := (List.takeWhile_append_dropWhile (p := isFlag) (l := fmt)).symm
      have hflags : ∀ b ∈ fmt.takeWhile isFlag, isFlag b := fun b hb => List.mem_takeWhile_imp hb
      have hhead := List.head?_dropWhile_not isFlag fmt
      generalize fmt.takeWhile isFlag = flags at hsplit hflags
      rcases hdrop : fmt.dropWhile isFlag with _ | ⟨c, rest⟩
      · rw [hdrop, List.append_nil] at hsplit
        subst hsplit
        obtain ⟨k, rfl⟩ : ∃ k, fuel = fmt.length + (k + 1) := ⟨fuel - fmt.length - 1, by omega⟩
        obtain ⟨args', hrun⟩ := vprintfmtAt_unknown print star back [] hflags
          (by decide : ¬ isFlag 0#8) (by decide) (k + 1) args
        have hends := hrun [] rfl
        rw [List.append_nil] at hends
        exact ⟨_, hends, .ends hflags⟩
      · rw [hdrop] at hsplit hhead
        subst hsplit
        have hc : ¬ isFlag c := by simpa using hhead
        rw [List.mem_append, List.mem_cons, not_or, not_or] at hnul
        rw [List.length_append, List.length_cons] at hn hfuel
        rw [List.cons_append, List.append_assoc, List.cons_append]
        by_cases hconv : isConversion c
        · obtain ⟨sp, args', hrun⟩ := vprintfmtAt_escape print star back (rest ++ [0#8])
            hflags hc fuel args
          obtain ⟨out, hout, hrep⟩ := ih rest (by omega) hnul.2.2.2
            (c :: flags.reverseAux (0x25#8 :: back)) fuel (print c sp args').2 (by omega)
          refine ⟨(print c sp args').1 ++ out, ?_, .known hflags hconv hrep⟩
          rw [hrun, if_pos hconv, hout]
          rfl
        · obtain ⟨k, rfl⟩ : ∃ k, fuel = flags.length + (k + 1) := ⟨fuel - flags.length - 1, by omega⟩
          obtain ⟨args', hrun⟩ := vprintfmtAt_unknown print star back (rest ++ [0#8])
            hflags hc hconv (k + 1) args
          obtain ⟨out, hout, hrep⟩ := ih rest (by omega) hnul.2.2.2
            (c :: flags.reverseAux (0x25#8 :: back)) k args' (by omega)
          -- a `%` would be a conversion, so the character is text
          have hpercent : c ≠ 0x25#8 := by
            rintro rfl
            exact hconv (by decide)
          refine ⟨_, hrun (c :: out) ?_, .unknown hflags hc hconv hrep⟩
          rw [vprintfmtAt, if_neg fun h => hnul.2.2.1 h.symm, if_pos hpercent, hout]
          rfl
    · obtain ⟨out, hrun, hrep⟩ := ih fmt (by omega) hnul.2 (ch :: back) fuel args (by omega)
      refine ⟨ch :: out, ?_, .text hch hrep⟩
      rw [List.cons_append, vprintfmtAt, if_neg (fun h => hnul.1 h.symm), if_pos hch, hrun]
      rfl

end Scan

/-- **`vprintfmt` makes progress on every format.**  Whatever the conversions
print, whatever the arguments are: for every string with a NUL behind it the
function comes to an end, reads nothing in front of the string and nothing
behind the NUL, and prints every escape that is not known as it stands. -/
theorem vprintfmtAt_progress (print : Byte → Spec → List Arg → List Byte × List Arg)
    (star : List Arg → ℤ × List Arg) (fmt : List Byte) (hnul : 0#8 ∉ fmt) (args : List Arg) :
    ∃ out, vprintfmtAt print star (fmt.length + 1) ⟨[], fmt ++ [0#8]⟩ args = .ok out ∧
      Reproduces print fmt out :=
  vprintfmtAt_reproduces fmt.length fmt (le_refl _) hnul [] _ args (Nat.lt_succ_self _)

/-- A format with an unknown escape that ends among the flags of another one. -/
theorem vprintfmtAt_progress_tail : ∃ out, vprintfmtAt (fun _ _ args => ([], args))
    (fun args => (0, args)) 11 ⟨[], lit "a%-5yb%.*l" ++ [0#8]⟩ [] = .ok out ∧
      Reproduces (fun _ _ args => ([], args)) (lit "a%-5yb%.*l") out :=
  vprintfmtAt_progress _ _ (lit "a%-5yb%.*l") (by decide) []

/-! ## The list model -/

/-- The conversions, where they have a result. -/
def printOf (ch : Byte) (sp : Spec) (args : List Arg) : List Byte × List Arg :=
  match convert ch sp args with
  | some (some r) => r
  | _ => ([], args)

/-- `va_arg(ap, int)`, where there is such an argument. -/
def starOf (args : List Arg) : ℤ × List Arg := (getint 0 args).getD (0, args)

theorem isConversion_iff (ch : Byte) : isConversion ch ↔ ch = 0x63#8 ∨ ch = 0x65#8 ∨ ch = 0x73#8 ∨
    ch = 0x64#8 ∨ ch = 0x75#8 ∨ ch = 0x6F#8 ∨ ch = 0x70#8 ∨ ch = 0x78#8 ∨ ch = 0x25#8 := by
  rw [isConversion, decide_eq_true_eq, show lit "cesduopx%" = [0x63#8, 0x65#8, 0x73#8, 0x64#8,
    0x75#8, 0x6F#8, 0x70#8, 0x78#8, 0x25#8] by decide]
  simp only [List.mem_cons, List.not_mem_nil, or_false]

theorem convert_some {r : List Byte × List Arg} (h : convert ch sp args = some (some r)) :
    isConversion ch := by
  by_contra hnot
  simp only [isConversion_iff, not_or] at hnot
  obtain ⟨h1, h2, h3, h4, h5, h6, h7, h8, h9⟩ := hnot
  unfold convert at h
  rw [if_neg h1, if_neg h2, if_neg h3, if_neg h4, if_neg h5, if_neg h6, if_neg h7, if_neg h8,
    if_neg h9] at h
  cases h

/-- `convert` has no conversion for the other characters only. -/
theorem convert_none (h : convert ch sp args = some none) : ¬ isConversion ch := by
  rw [isConversion_iff]
  rintro (rfl | rfl | rfl | rfl | rfl | rfl | rfl | rfl | rfl)
  · rcases args with _ | ⟨_ | _ | _ | _, args⟩ <;> simp [convert] at h
  · rcases args with _ | ⟨_ | _ | _ | _, args⟩ <;> simp [convert, Option.bind_eq_some_iff] at h
  · rcases args with _ | ⟨_ | _ | _ | _, args⟩ <;> simp [convert, Option.bind_eq_some_iff] at h
  · simp [convert, Option.bind_eq_some_iff] at h
  · simp [convert, Option.bind_eq_some_iff] at h
  · simp [convert, Option.bind_eq_some_iff] at h
  · rcases args with _ | ⟨_ | _ | _ | _, args⟩ <;> simp [convert, Option.bind_eq_some_iff] at h
  · simp [convert, Option.bind_eq_some_iff] at h
  · simp [convert] at h

theorem int_wraps {z : ℤ} (h : int z = some v) : v = z ∧ Int.bmod z (2 ^ 32) = z := by
  rw [int] at h
  split_ifs at h with hz
  exact ⟨(Option.some.inj h).symm, Int.bmod_eq_of_le (by omega) (by omega)⟩

theorem addDigit_wraps {precision : ℤ} (h : addDigit precision ch = some v) :
    Int.bmod (precision * 10 + ch.toNat - 48) (2 ^ 32) = v := by
  simp only [addDigit, Option.bind_eq_bind, Option.bind_eq_some_iff] at h
  obtain ⟨a, ha, b, hb, hv⟩ := h
  obtain ⟨rfl, -⟩ := int_wraps ha
  obtain ⟨rfl, -⟩ := int_wraps hb
  obtain ⟨rfl, hw⟩ := int_wraps hv
  exact hw

theorem numeralAt_eq {precision : ℤ} (h : numeral precision ch fmt = some (v, rest))
    (back : List Byte) :
    ∃ back', numeralAt precision ch back (fmt ++ [0#8]) = .ok (v, ⟨back', rest ++ [0#8]⟩) ∧
      rest <:+ fmt := by
  induction fmt generalizing precision ch back with
  | nil =>
    simp only [numeral, Option.bind_eq_bind, Option.bind_eq_some_iff] at h
    obtain ⟨w, hw, hv⟩ := h
    obtain ⟨rfl, rfl⟩ : w = v ∧ [] = rest := by simpa using hv
    refine ⟨back, ?_, List.suffix_refl _⟩
    rw [List.nil_append, numeralAt, if_neg (by decide), addDigit_wraps hw]
  | cons c fmt ih =>
    simp only [numeral, Option.bind_eq_bind, Option.bind_eq_some_iff] at h
    obtain ⟨w, hw, hv⟩ := h
    rw [List.cons_append, numeralAt, addDigit_wraps hw]
    split_ifs at hv ⊢ with hd
    · obtain ⟨back', hrun, hsuf⟩ := ih hv (c :: back)
      exact ⟨back', hrun, hsuf.trans (List.suffix_cons c fmt)⟩
    · obtain ⟨rfl, rfl⟩ : w = v ∧ c :: fmt = rest := by simpa using hv
      exact ⟨back, rfl, List.suffix_refl _⟩

theorem reswitch_stop {c : Byte} (hc : ¬ isFlag c) :
    reswitch (fuel + 1) (c :: rest) sp args = some (c, rest, sp, args) := by
  rw [reswitch, if_neg (ne_flag hc (by decide)), if_neg (ne_flag hc (by decide)),
    if_neg (fun h => hc (isDigit_isFlag h)), if_neg (ne_flag hc (by decide)),
    if_neg (ne_flag hc (by decide)), if_neg (ne_flag hc (by decide)), if_neg (ne_flag hc (by decide))]

/-- The scan of an escape in the list, with the pointer where the list goes on. -/
theorem reswitchAt_eq {sp' : Spec} {args' : List Arg} {conv : Byte} (hnul : 0#8 ∉ fmt)
    (h : reswitch fuel fmt sp args = some (conv, rest, sp', args')) (back : List Byte) :
    ∃ p, reswitchAt starOf fuel ⟨back, fmt ++ [0#8]⟩ sp args = .ok (conv, p, sp', args') ∧
      (conv ≠ 0#8 → p.ahead = rest ++ [0#8] ∧ 0#8 ∉ rest) := by
  induction fuel generalizing fmt sp args back with
  | zero => cases h
  | succ fuel ih =>
    rcases fmt with _ | ⟨ch, fmt⟩
    · obtain ⟨rfl, rfl, rfl, rfl⟩ : 0#8 = conv ∧ [] = rest ∧ sp = sp' ∧ args = args' := by
        simpa [reswitch] using h
      exact ⟨⟨0#8 :: back, []⟩, rfl, fun hne => absurd rfl hne⟩
    · have hrest := fun hx => hnul (List.mem_cons_of_mem ch hx)
      by_cases hflag : isFlag ch
      · rw [reswitch] at h
        rw [List.cons_append, reswitchAt]
        rcases isFlag_cases hflag with hd | rfl | rfl | rfl | rfl | rfl
        · rw [if_neg (isDigit_ne_minus hd)] at h ⊢
          by_cases h0 : ch = 0x30#8
          · rw [if_pos h0] at h ⊢
            exact ih hrest h _
          rw [if_neg h0, if_pos hd] at h ⊢
          obtain ⟨⟨v, fmt'⟩, hv, h⟩ := Option.bind_eq_some_iff.1 h
          obtain ⟨back', hrun, hsuf⟩ := numeralAt_eq hv (ch :: back)
          obtain ⟨p, hp, hahead⟩ := ih (fun hx => hrest (hsuf.subset hx)) h back'
          refine ⟨p, ?_, hahead⟩
          rw [hrun]
          exact hp
        · exact ih hrest h _
        · obtain ⟨⟨v, args1⟩, hv, h⟩ := Option.bind_eq_some_iff.1 h
          have hstar : starOf args = (v, args1) := by rw [starOf, hv]; rfl
          rw [hstar]
          exact ih hrest h _
        · exact ih hrest h _
        · exact ih hrest h _
        · exact ih hrest h _
      · rw [reswitch_stop hflag] at h
        obtain ⟨rfl, rfl, rfl, rfl⟩ : ch = conv ∧ fmt = rest ∧ sp = sp' ∧ args = args' := by
          simpa using h
        exact ⟨_, reswitchAt_stop hflag fuel sp args, fun _ => ⟨rfl, hrest⟩⟩

/-- The flags behind a `%` end, at the NUL if not before. -/
theorem exists_flags (fmt : List Byte) : ∃ flags c rest, fmt ++ [0#8] = flags ++ c :: rest ∧
    (∀ b ∈ flags, isFlag b) ∧ ¬ isFlag c := by
  induction fmt with
  | nil => exact ⟨[], 0#8, [], rfl, List.forall_mem_nil _, by decide⟩
  | cons b fmt ih =>
    by_cases hb : isFlag b
    · obtain ⟨flags, c, rest, heq, hflags, hc⟩ := ih
      exact ⟨b :: flags, c, rest, congrArg (b :: ·) heq, List.forall_mem_cons.2 ⟨hb, hflags⟩, hc⟩
    · exact ⟨[], b, fmt ++ [0#8], rfl, List.forall_mem_nil _, hb⟩

/-- The back-scan finds the `%`, wherever the scan of the escape has ended. -/
theorem backScan_eq {star : List Arg → ℤ × List Arg} {back : List Byte} {conv : Byte} {p : Ptr}
    {sp' : Spec} {args' : List Arg}
    (h : reswitchAt star (fmt.length + 1)
      ⟨0x25#8 :: back, fmt ++ [0#8]⟩ sp args = .ok (conv, p, sp', args')) :
    backScan p = .ok ⟨0x25#8 :: back, fmt ++ [0#8]⟩ := by
  obtain ⟨flags, c, rest, heq, hflags, hc⟩ := exists_flags fmt
  have hlen := congrArg List.length heq
  rw [List.length_append, List.length_append, List.length_singleton, List.length_cons] at hlen
  obtain ⟨sp1, args1, hrun⟩ := reswitchAt_run star (0x25#8 :: back) rest hflags hc
    (fmt.length + 1) (by omega) sp args
  rw [heq, hrun] at h
  obtain ⟨-, rfl, -⟩ : c = conv ∧ ⟨c :: flags.reverseAux (0x25#8 :: back), rest⟩ = p ∧ _ := by
    simpa using h
  rw [heq]
  exact backScan_run hflags

/-- **Where `vprintfmt` has a result on the list, the pointer comes to the same.** -/
theorem vprintfmtAt_eq {fuel : ℕ} {fmt out : List Byte} {args : List Arg} (hnul : 0#8 ∉ fmt)
    (h : vprintfmt fuel fmt args = some out) (back : List Byte) :
    vprintfmtAt printOf starOf fuel ⟨back, fmt ++ [0#8]⟩ args = .ok out := by
  induction fuel generalizing fmt args out back with
  | zero => cases h
  | succ fuel ih =>
    rcases fmt with _ | ⟨ch, fmt⟩
    · obtain rfl : [] = out := Option.some.inj h
      rfl
    rw [List.mem_cons, not_or] at hnul
    rw [vprintfmt] at h
    rw [List.cons_append, vprintfmtAt, if_neg fun hz => hnul.1 hz.symm]
    by_cases hch : ch ≠ 0x25#8
    · rw [if_pos hch] at h ⊢
      obtain ⟨o, ho, rfl⟩ := Option.map_eq_some_iff.1 h
      rw [ih hnul.2 ho]
      rfl
    · rw [if_neg hch] at h ⊢
      rw [not_not.1 hch]
      obtain ⟨⟨conv, rest, sp, args1⟩, hre, h⟩ := Option.bind_eq_some_iff.1 h
      obtain ⟨r, hconv, h⟩ := Option.bind_eq_some_iff.1 h
      obtain ⟨p, hp, hahead⟩ := reswitchAt_eq hnul.2 hre (0x25#8 :: back)
      rw [List.length_append, List.length_singleton, hp]
      show (if isConversion conv then _ else (do let fmt ← backScan p; _)) = _
      rcases r with _ | ⟨o, args2⟩
      · obtain ⟨o, ho, rfl⟩ := Option.map_eq_some_iff.1 h
        rw [if_neg (convert_none hconv), backScan_eq hp]
        show Except.map _ (vprintfmtAt printOf starOf fuel ⟨_, fmt ++ [0#8]⟩ args1) = _
        rw [ih hnul.2 ho]
        rfl
      · obtain ⟨o', ho, rfl⟩ := Option.map_eq_some_iff.1 h
        have hisconv := convert_some hconv
        have hne : conv ≠ 0#8 := by
          rintro rfl
          exact absurd hisconv (by decide)
        obtain ⟨hp', hrest⟩ := hahead hne
        have hprint : printOf conv sp args1 = (o, args2) := by rw [printOf, hconv]
        obtain ⟨pback, pahead⟩ := p
        obtain rfl : pahead = rest ++ [0#8] := hp'
        rw [if_pos hisconv, hprint, ih hrest ho]
        rfl

theorem vprintfmtAt_eq_escapes : vprintfmtAt printOf starOf 9 ⟨[], lit "%4d|%5y" ++ [0#8]⟩
    [.int 42#32] = .ok (lit "  42|%5y") :=
  vprintfmtAt_eq (by decide) (by decide) []

end Jos.Printfmt
