import Mathlib.Data.List.GetD
import Jos.Lib.Memory
import Jos.User.PrintfmtSpec

/-!
# The printf front ends

`vcprintf` of `kern/printf.c` and of `lib/printf.c`, `vfprintf` of `lib/fprintf.c` and `vsnprintf`
of `lib/printfmt.c`.  Each of them gives `vprintfmt` a `putch` of its own, with a buffer of its own
or none, and has a result of its own.

* `foldlM_inv` — what one call of `putch` preserves, all of them do.
* `kernVcprintf_spec`, `vcprintf_spec`, `vsnprintf_spec`, `vfprintf_spec` — the front ends.  Each
  prints all that `vprintfmt` hands over.  The kernel returns 0 whatever it prints, `vfprintf`
  returns 1 if it prints nothing, and an `int` does not count further than to `2 ^ 31 - 1`.
* `vsnprintf_correct_iff`, `frontEnds_iff` — where that is what they should do.
-/

namespace Jos.Printfmt

/-- What `vprintfmt` hands to `putch`. -/
def output (fmt : List Byte) (args : List Arg) : Option (List Byte) :=
  vprintfmt (fmt.length + 1) fmt args

/-! ## The kernel -/

/-- `putch` of the kernel: `*cnt++` increments the pointer. -/
def kernPutch (s : List Byte × ℤ) (ch : Byte) : List Byte × ℤ := (s.1 ++ [ch], s.2)

/-- `vcprintf` of the kernel: what goes to the console, and the result. -/
def kernVcprintf (fmt : List Byte) (args : List Arg) : Option (List Byte × ℤ) := do
  let out ← output fmt args
  return out.foldl kernPutch ([], 0)

/-! ## The user library -/

/-- `struct printbuf` of `lib/printf.c`: the first `idx` characters of the buffer, the count, and
what has gone to `sys_cputs`. -/
structure Printbuf where
  buf : List Byte
  cnt : ℤ
  out : List Byte

def putch (b : Printbuf) (ch : Byte) : Option Printbuf := do
  let buf := b.buf ++ [ch]
  let cnt ← int (b.cnt + 1)
  return if buf.length = 255 then ⟨[], cnt, b.out ++ buf⟩ else ⟨buf, cnt, b.out⟩

/-- `vcprintf` of the user library: what goes to `sys_cputs`, and the result. -/
def vcprintf (fmt : List Byte) (args : List Arg) : Option (List Byte × ℤ) := do
  let out ← output fmt args
  let b ← out.foldlM putch ⟨[], 0, []⟩
  return (b.out ++ b.buf, b.cnt)

/-! ## To a descriptor -/

/-- `struct printbuf` of `lib/fprintf.c`, and what the descriptor has accepted. -/
structure Fprintbuf where
  buf : List Byte
  result : ℤ
  error : ℤ
  out : List Byte

/-- `writebuf`. -/
def writebuf (write : List Byte → ℤ) (b : Fprintbuf) : Option Fprintbuf :=
  if 0 < b.error then
    let r := write b.buf
    (if 0 < r then int (b.result + r) else some b.result).map fun result =>
      { b with
        result := result
        error := if r ≠ b.buf.length then (if r < 0 then r else 0) else b.error
        out := b.out ++ b.buf.take r.toNat }
  else some b

def fputch (write : List Byte → ℤ) (b : Fprintbuf) (ch : Byte) : Option Fprintbuf :=
  if (b.buf ++ [ch]).length = 256 then
    (writebuf write { b with buf := b.buf ++ [ch] }).map fun b => { b with buf := [] }
  else some { b with buf := b.buf ++ [ch] }

/-- `vfprintf`: what the descriptor accepts, and the result. -/
def vfprintf (write : List Byte → ℤ) (fmt : List Byte) (args : List Arg) :
    Option (List Byte × ℤ) := do
  let out ← output fmt args
  let b ← out.foldlM (fputch write) ⟨[], 0, 1, []⟩
  let b ← if 0 < b.buf.length then writebuf write b else some b
  return (b.out, if b.result ≠ 0 then b.result else b.error)

/-! ## To a buffer -/

/-- `struct sprintbuf`. -/
structure Sprintbuf where
  buf : BitVec 32
  ebuf : BitVec 32
  cnt : ℤ

def sprintputch (s : Sprintbuf × Memory) (ch : Byte) : Option (Sprintbuf × Memory) := do
  let (b, m) := s
  let cnt ← int (b.cnt + 1)
  return if b.buf < b.ebuf then (⟨b.buf + 1#32, b.ebuf, cnt⟩, Function.update m b.buf.toNat ch)
    else (⟨b.buf, b.ebuf, cnt⟩, m)

/-- None of the texts, each an address and a length, lies in the `n` bytes at `buf`. -/
def Clear (buf n : BitVec 32) (texts : List (ℕ × ℕ)) : Prop :=
  ∀ t ∈ texts, t.1 + t.2 ≤ buf.toNat ∨ buf.toNat + n.toNat ≤ t.1

instance (buf n : BitVec 32) (texts : List (ℕ × ℕ)) : Decidable (Clear buf n texts) :=
  inferInstanceAs (Decidable (∀ _ ∈ _, _))

/-- `vsnprintf`: the result, and memory.  `E_INVAL` is 3.  `texts` is where the format and the
strings among the arguments lie; printing over them is not modelled. -/
def vsnprintf (buf n : BitVec 32) (texts : List (ℕ × ℕ)) (fmt : List Byte) (args : List Arg)
    (m : Memory) : Option (ℤ × Memory) :=
  if buf = 0#32 ∨ n.toInt < 1 then some (-3, m)
  else if Clear buf n texts then do
    let out ← output fmt args
    let (b, m) ← out.foldlM sprintputch (⟨buf, buf + n - 1#32, 0⟩, m)
    return (b.cnt, Function.update m b.buf.toNat 0#8)
  else none

/-! ## One character after the other -/

section Fold

variable {σ : Type} {f : σ → Byte → Option σ} {P : List Byte → σ → Prop} {N : ℕ}

/-- What one call of `putch` preserves, all of them do, unless one overflows. -/
theorem foldlM_inv (hstep : ∀ l s c, P l s →
      (∃ s', f s c = some s' ∧ P (l ++ [c]) s') ∨ f s c = none ∧ N ≤ l.length + 1)
    (out : List Byte) {l : List Byte} {s : σ} (h : P l s) :
    (∃ s', out.foldlM f s = some s' ∧ P (l ++ out) s') ∨
      out.foldlM f s = none ∧ N ≤ l.length + out.length := by
  induction out generalizing l s with
  | nil => exact Or.inl ⟨s, rfl, by rwa [List.append_nil]⟩
  | cons c out ih =>
    rw [List.foldlM_cons, List.length_cons]
    obtain ⟨s₁, hs₁, h₁⟩ | ⟨hnone, hN⟩ := hstep l s c h
    · rw [hs₁, Option.bind_eq_bind, Option.bind_some]
      obtain ⟨s', hs', h'⟩ | ⟨hnone, hN⟩ := ih h₁
      · exact Or.inl ⟨s', hs', by rwa [List.append_assoc] at h'⟩
      · rw [List.length_append, List.length_singleton] at hN
        exact Or.inr ⟨hnone, by omega⟩
    · rw [hnone]
      exact Or.inr ⟨rfl, by omega⟩

end Fold

section FrontEnds

variable {fmt : List Byte} {args : List Arg} {out : List Byte} {m : Memory} {buf n : BitVec 32}
  {texts : List (ℕ × ℕ)} {write : List Byte → ℤ}

/-- The count of characters. -/
theorem int_count (k : ℕ) : (k + 1 < 2 ^ 31 ∧ int ((k : ℤ) + 1) = some ((k + 1 : ℕ) : ℤ)) ∨
    (int ((k : ℤ) + 1) = none ∧ 2 ^ 31 ≤ k + 1) := by
  by_cases h : k + 1 < 2 ^ 31
  · refine Or.inl ⟨h, ?_⟩
    rw [int_eq_some (by omega) (by omega), Nat.cast_add_one]
  · exact Or.inr ⟨int_eq_none (by omega), by omega⟩

theorem kernVcprintf_spec (hout : output fmt args = some out) :
    kernVcprintf fmt args = some (out, 0) := by
  have hfold : ∀ l : List Byte, out.foldl kernPutch (l, 0) = (l ++ out, 0) := by
    clear hout
    induction out with
    | nil =>
      intro l
      rw [List.append_nil]
      rfl
    | cons c out ih =>
      intro l
      rw [List.foldl_cons, kernPutch, ih, List.append_assoc]
      rfl
  rw [kernVcprintf, hout, Option.bind_eq_bind, Option.bind_some, hfold]
  rfl

theorem vcprintf_spec (hout : output fmt args = some out) :
    vcprintf fmt args = if out.length < 2 ^ 31 then some (out, (out.length : ℤ)) else none := by
  have hrun := foldlM_inv (f := putch) (N := 2 ^ 31) (l := []) (s := ⟨[], 0, []⟩)
    (P := fun l b => b.out ++ b.buf = l ∧ b.cnt = l.length ∧ l.length < 2 ^ 31) ?_ out (by simp)
  · rw [vcprintf, hout, Option.bind_eq_bind, Option.bind_some]
    obtain ⟨b, hb, hl, hcnt, hlt⟩ | ⟨hnone, hN⟩ := hrun
    · rw [List.nil_append] at hl hcnt hlt
      rw [hb, if_pos hlt, Option.bind_eq_bind, Option.bind_some, hl, hcnt]
      rfl
    · rw [hnone, if_neg (by simpa using hN)]
      rfl
  · rintro l b c ⟨hl, hcnt, -⟩
    unfold putch
    rw [hcnt]
    obtain ⟨hlt, hint⟩ | ⟨hint, hge⟩ := int_count l.length
    · rw [hint, Option.bind_eq_bind, Option.bind_some]
      have hlen : (l ++ [c]).length = l.length + 1 := List.length_append
      refine Or.inl ⟨_, rfl, ?_⟩
      rw [hlen]
      split
      · exact ⟨by rw [List.append_nil, ← List.append_assoc, hl], rfl, hlt⟩
      · exact ⟨by rw [← List.append_assoc, hl], rfl, hlt⟩
    · rw [hint]
      exact Or.inr ⟨rfl, hge⟩

/-! ## To a descriptor -/

/-- The descriptor accepts all bytes. -/
def Accepts (write : List Byte → ℤ) : Prop := ∀ l, write l = l.length

/-- What is in the buffer goes out, if the result can be counted. -/
theorem writebuf_accepts (hw : Accepts write) (b : Fprintbuf) (he : b.error = 1)
    (hr : b.result = b.out.length) (hlt : b.out.length < 2 ^ 31) :
    writebuf write b = if (b.out ++ b.buf).length < 2 ^ 31 then
      some ⟨b.buf, ((b.out ++ b.buf).length : ℕ), 1, b.out ++ b.buf⟩ else none := by
  have hcount : (if 0 < write b.buf then int (b.result + write b.buf) else some b.result) =
      if (b.out ++ b.buf).length < 2 ^ 31 then some ((b.out ++ b.buf).length : ℤ) else none := by
    rw [hw, hr, List.length_append, Nat.cast_add]
    split_ifs with hpos hfit hfit
    · exact int_eq_some (by omega) (by omega)
    · exact int_eq_none (by omega)
    · congr 1
      omega
    · omega
  rw [writebuf, if_pos (by omega)]
  show Option.map _ (if 0 < write b.buf then int (b.result + write b.buf) else some b.result) = _
  rw [hcount]
  by_cases hfit : (b.out ++ b.buf).length < 2 ^ 31
  · rw [if_pos hfit, if_pos hfit, Option.map_some, hw, he]
    simp
  · rw [if_neg hfit, if_neg hfit]
    rfl

theorem vfprintf_spec (hw : Accepts write) (hout : output fmt args = some out) :
    vfprintf write fmt args =
      if out.length < 2 ^ 31 then some (out, if out = [] then 1 else (out.length : ℤ)) else none := by
  have hrun := foldlM_inv (f := fputch write) (N := 2 ^ 31) (l := []) (s := ⟨[], 0, 1, []⟩)
    (P := fun l b => b.out ++ b.buf = l ∧ b.error = 1 ∧ b.result = b.out.length ∧
      b.out.length < 2 ^ 31) ?_ out (by simp)
  · rw [vfprintf, hout, Option.bind_eq_bind, Option.bind_some]
    obtain ⟨b, hb, hl, he, hr, hlt⟩ | ⟨hnone, hN⟩ := hrun
    · rw [List.nil_append] at hl
      rw [hb, Option.bind_eq_bind, Option.bind_some, writebuf_accepts hw b he hr hlt, hl]
      by_cases hrest : 0 < b.buf.length
      · -- the last characters are still in the buffer
        have hne : out ≠ [] := by
          rintro rfl
          rw [(List.append_eq_nil_iff.1 hl).2] at hrest
          exact absurd hrest (lt_irrefl 0)
        have hpos : (out.length : ℤ) ≠ 0 := by
          simpa using hne
        rw [if_pos hrest, if_neg hne]
        split
        · rw [Option.bind_some]
          exact congrArg (fun r => some (out, r)) (if_pos hpos)
        · rfl
      · have hall : b.out = out := by
          rw [← hl, List.eq_nil_of_length_eq_zero (Nat.eq_zero_of_not_pos hrest), List.append_nil]
        rw [hall] at hr hlt
        rw [if_neg hrest, if_pos hlt, Option.bind_some]
        show some (b.out, if b.result ≠ 0 then b.result else b.error) = _
        rw [hall, hr, he]
        by_cases hnil : out = []
        · rw [hnil]
          rfl
        · rw [if_neg hnil]
          exact congrArg (fun r => some (out, r)) (if_pos (by simpa using hnil))
    · rw [hnone, if_neg (by simpa using hN)]
      rfl
  · rintro l b c ⟨hl, he, hr, hlt⟩
    have hnext : b.out ++ (b.buf ++ [c]) = l ++ [c] := by rw [← hl, List.append_assoc]
    unfold fputch
    split
    · rw [writebuf_accepts hw ⟨b.buf ++ [c], b.result, b.error, b.out⟩ he hr hlt, hnext]
      split
      · next hfit => exact Or.inl ⟨_, rfl, List.append_nil _, rfl, rfl, hfit⟩
      · next hfit =>
          refine Or.inr ⟨rfl, ?_⟩
          rw [List.length_append, List.length_singleton] at hfit
          omega
    · exact Or.inl ⟨_, rfl, hnext, he, hr, hlt⟩

/-! ## To a buffer -/

theorem put_concat (a : ℕ) (l : List Byte) (c : Byte) :
    Function.update (m.put a l) (a + l.length) c = m.put a (l ++ [c]) := by
  funext x
  have hlen : (l ++ [c]).length = l.length + 1 := List.length_append
  by_cases hx : x = a + l.length
  · subst hx
    rw [Function.update_self, Memory.put, hlen, if_pos (by omega), Nat.add_sub_cancel_left]
    simp
  · rw [Function.update_of_ne hx, Memory.put, Memory.put, hlen]
    by_cases hin : a ≤ x ∧ x < a + l.length
    · rw [if_pos hin, if_pos (by omega), List.getD_append _ _ _ _ (by omega)]
    · rw [if_neg hin, if_neg (by omega)]

/-- How many characters there is room for: `buf + n - 1` may wrap around. -/
theorem room_eq (hn : 1 ≤ n.toInt) : (buf + n - 1#32).toNat - buf.toNat =
    if buf.toNat + n.toNat ≤ 2 ^ 32 then n.toNat - 1 else 0 := by
  have hint := BitVec.toInt_eq_toNat_cond n
  have hpos : 1 ≤ n.toNat ∧ n.toNat < 2 ^ 31 := by
    split at hint <;> omega
  split
  · bv_omega
  · bv_omega

/-- **`vsnprintf`** prints what there is room for, and a NUL behind it. -/
theorem vsnprintf_spec (hbuf : buf ≠ 0#32) (hn : 1 ≤ n.toInt) (hclear : Clear buf n texts)
    (hout : output fmt args = some out) :
    vsnprintf buf n texts fmt args m =
      if out.length < 2 ^ 31 then
        some ((out.length : ℤ), m.put buf.toNat
          (out.take ((buf + n - 1#32).toNat - buf.toNat) ++ [0#8])) else none := by
  generalize hk : (buf + n - 1#32).toNat - buf.toNat = k
  have haddr : ∀ l : List Byte, (buf + BitVec.ofNat 32 (l.take k).length).toNat =
      buf.toNat + (l.take k).length := by
    intro l
    have hle : (l.take k).length ≤ k := List.length_take_le ..
    rw [BitVec.toNat_add, BitVec.toNat_ofNat]
    omega
  have hrun := foldlM_inv (f := sprintputch) (N := 2 ^ 31) (l := [])
    (s := (⟨buf, buf + n - 1#32, 0⟩, m))
    (P := fun l s => s = (⟨buf + BitVec.ofNat 32 (l.take k).length, buf + n - 1#32, l.length⟩,
      m.put buf.toNat (l.take k)) ∧ l.length < 2 ^ 31) ?_ out ?_
  · rw [vsnprintf, if_neg (by rw [not_or]; exact ⟨hbuf, by omega⟩), if_pos hclear, hout,
      Option.bind_eq_bind, Option.bind_some]
    obtain ⟨s, hs, rfl, hlt⟩ | ⟨hnone, hN⟩ := hrun
    · rw [List.nil_append] at hs hlt
      rw [hs, if_pos hlt, Option.bind_eq_bind, Option.bind_some, ← put_concat, ← haddr]
      rfl
    · rw [hnone, if_neg (by simpa using hN)]
      rfl
  · rintro l s c ⟨rfl, -⟩
    unfold sprintputch
    obtain ⟨hlt, hint⟩ | ⟨hint, hge⟩ := int_count l.length
    · have hlen : (l ++ [c]).length = l.length + 1 := List.length_append
      have htest : buf + BitVec.ofNat 32 (l.take k).length < buf + n - 1#32 ↔ l.length < k := by
        rw [BitVec.lt_def, haddr, List.length_take]
        omega
      simp only [hint, Option.bind_eq_bind, Option.bind_some, hlen, htest]
      refine Or.inl ⟨_, rfl, ?_, hlt⟩
      by_cases hroom : l.length < k
      · have htake : l.take k = l := List.take_of_length_le hroom.le
        have htake' : (l ++ [c]).take k = l ++ [c] := List.take_of_length_le (by omega)
        rw [if_pos hroom, haddr, htake, htake', put_concat, hlen, BitVec.add_assoc,
          ← BitVec.ofNat_add]
      · have htake : (l ++ [c]).take k = l.take k := List.take_append_of_le_length (by omega)
        rw [htake, if_neg hroom]
    · simp only [hint]
      exact Or.inr ⟨rfl, hge⟩
  · refine ⟨?_, by decide⟩
    have hput : m.put buf.toNat [] = m := by
      funext x
      exact if_neg (by simp)
    simp [hput]

theorem vsnprintf_iff (hn : 1 ≤ n.toInt) (hclear : Clear buf n texts)
    (hout : output fmt args = some out) :
    (∀ m, vsnprintf buf n texts fmt args m =
        some ((out.length : ℤ), m.put buf.toNat (out.take (n.toNat - 1) ++ [0#8]))) ↔
      buf ≠ 0#32 ∧ out.length < 2 ^ 31 ∧ (buf.toNat + n.toNat ≤ 2 ^ 32 ∨ out = []) := by
  by_cases hbuf : buf = 0#32
  · refine iff_of_false (fun h => ?_) fun h => h.1 hbuf
    have hneg := h fun _ => 0#8
    rw [vsnprintf, if_pos (Or.inl hbuf), Option.some.injEq, Prod.mk.injEq] at hneg
    omega
  simp only [vsnprintf_spec hbuf hn hclear hout, room_eq hn]
  by_cases hlt : out.length < 2 ^ 31
  · simp only [if_pos hlt]
    by_cases hfit : buf.toNat + n.toNat ≤ 2 ^ 32
    · rw [if_pos hfit]
      exact iff_of_true (fun _ => rfl) ⟨hbuf, hlt, Or.inl hfit⟩
    rw [if_neg hfit]
    by_cases hnil : out = []
    · subst hnil
      exact iff_of_true (fun _ => by simp) ⟨hbuf, hlt, Or.inr rfl⟩
    -- there is a second byte to be stored, and only the NUL is
    refine iff_of_false (fun h => ?_) fun h => h.2.2.elim hfit hnil
    have hlen : 2 ≤ (out.take (n.toNat - 1) ++ [0#8]).length := by
      have hpos := List.length_pos_iff.2 hnil
      have hsmall := buf.isLt
      rw [List.length_append, List.length_take, List.length_singleton]
      omega
    have hsame := h fun _ => (out.take (n.toNat - 1) ++ [0#8]).getD 1 0#8 + 1#8
    rw [Option.some.injEq, Prod.mk.injEq] at hsame
    have hbyte := congrFun hsame.2 (buf.toNat + 1)
    rw [Memory.put, Memory.put, if_neg (by simp), if_pos (by omega),
      Nat.add_sub_cancel_left] at hbyte
    bv_omega
  · simp only [if_neg hlt]
    exact iff_of_false (by simp) fun h => hlt h.2.1

end FrontEnds

/-- A directive in front of the rest of the format. -/
theorem vprintfmt_cons (fuel : ℕ) {fmt rest o : List Byte} {args args₁ args₂ : List Arg}
    {conv : Byte} {sp : Spec} (hread : reswitch (fmt.length + 1) fmt .init args =
      some (conv, rest, sp, args₁)) (hconv : convert conv sp args₁ = some (some (o, args₂))) :
    vprintfmt (fuel + 1) (0x25#8 :: fmt) args = (vprintfmt fuel rest args₂).map (o ++ ·) := by
  rw [vprintfmt, if_neg (by decide), hread]
  simp only [Option.bind_eq_bind, Option.bind_some, hconv]

/-- One, in a field of the width `w`. -/
def oneIn (w : ℕ) : List Byte := List.replicate (w - 1) 0x20#8 ++ [0x31#8]

theorem length_oneIn {w : ℕ} (hw : 1 ≤ w) : (oneIn w).length = w := by
  rw [oneIn, List.length_append, List.length_replicate, List.length_singleton]
  omega

theorem convert_one {w : ℕ} (hw : w < 2 ^ 31) (args : List Arg) :
    convert 0x64#8 ⟨0x20#8, w, -1, 0, false⟩ (.int 1#32 :: args) =
      some (some (oneIn w, args)) := by
  have hnum : number ⟨0x20#8, w, -1, 0, false⟩ 1 10 = some (oneIn w) := by
    rw [number, printnum_spec (by decide) (by norm_num) (by simp) (by simp; omega),
      numText_of_lt (by decide), List.length_singleton, oneIn]
    have hpad : ((w : ℤ) - (1 : ℕ)).toNat = w - 1 := by omega
    rw [hpad]
    rfl
  show ((number ⟨0x20#8, w, -1, 0, false⟩ 1 10).bind fun o => some (some (o, args))) = _
  rw [hnum]
  rfl

/-- Two numbers in two wide fields. -/
def wideFmt : List Byte := lit "%2000000000d%2000000000d"

theorem reswitch_wide (rest : List Byte) (args : List Arg) :
    reswitch ((lit "2000000000d" ++ rest).length + 1) (lit "2000000000d" ++ rest) .init args =
      some (0x64#8, rest, ⟨0x20#8, (2000000000 : ℕ), -1, 0, false⟩, args) := by
  have hsplit : lit "2000000000d" ++ rest = Digit.char 2 ::
      (([0, 0, 0, 0, 0, 0, 0, 0, 0] : List Digit).map Digit.char ++ 0x64#8 :: rest) := rfl
  have hd : NotDigit (0x64#8 :: rest) := by
    rintro c ⟨rfl⟩
    rfl
  have henough : (([0, 0, 0, 0, 0, 0, 0, 0, 0] : List Digit).map Digit.char ++
      0x64#8 :: rest).length + 1 < (lit "2000000000d" ++ rest).length + 1 := by
    simp [lit]
  obtain ⟨fuel, hfuel, hread⟩ :=
    reswitch_numeral (d := 2) .init args (by decide) hd henough
  obtain ⟨k, rfl⟩ : ∃ k, fuel = k + 1 := ⟨fuel - 1, by omega⟩
  rw [hsplit] at hread ⊢
  rw [hread, if_pos (by decide)]
  rfl

theorem output_wide : output wideFmt [.int 1#32, .int 1#32] =
    some (oneIn 2000000000 ++ (oneIn 2000000000 ++ [])) := by
  have hrest := vprintfmt_cons 23 (reswitch_wide [] [.int 1#32])
    (convert_one (by decide) [])
  have hall := vprintfmt_cons 24
    (reswitch_wide (0x25#8 :: (lit "2000000000d" ++ [])) [.int 1#32, .int 1#32])
    (convert_one (by decide) [.int 1#32])
  have hnil : vprintfmt 23 [] [] = some [] := rfl
  rw [hrest, hnil, Option.map_some, Option.map_some] at hall
  exact hall

/-- All of them print the output and return its length; a buffer takes what fits. -/
structure FrontEndsAgree (buf n : BitVec 32) (texts : List (ℕ × ℕ)) (write : List Byte → ℤ)
    (fmt : List Byte) (args : List Arg) (m : Memory) (out : List Byte) : Prop where
  kern : kernVcprintf fmt args = some (out, (out.length : ℤ))
  user : vcprintf fmt args = some (out, (out.length : ℤ))
  buffer : vsnprintf buf n texts fmt args m =
    some ((out.length : ℤ), m.put buf.toNat (out.take (n.toNat - 1) ++ [0#8]))
  descriptor : vfprintf write fmt args = some (out, (out.length : ℤ))

/-- **The front ends** print the same, but do not return the same.  The kernel's `vcprintf` returns
the length of the output only if that is 0, and `vfprintf` only if it is not. -/
theorem frontEnds_iff (buf n : BitVec 32) (hn : 1 ≤ n.toInt) (texts : List (ℕ × ℕ))
    (write : List Byte → ℤ) (hw : Accepts write) (fmt : List Byte) (args : List Arg)
    (out : List Byte) (hout : output fmt args = some out) (m : Memory) :
    (kernVcprintf fmt args = some (out, (out.length : ℤ)) ↔ out = []) ∧
    (vcprintf fmt args = some (out, (out.length : ℤ)) ↔ out.length < 2 ^ 31) ∧
    (Clear buf n texts → ((∀ m, vsnprintf buf n texts fmt args m =
        some ((out.length : ℤ), m.put buf.toNat (out.take (n.toNat - 1) ++ [0#8]))) ↔
      buf ≠ 0#32 ∧ out.length < 2 ^ 31 ∧ (buf.toNat + n.toNat ≤ 2 ^ 32 ∨ out = []))) ∧
    (vfprintf write fmt args = some (out, (out.length : ℤ)) ↔ out ≠ [] ∧ out.length < 2 ^ 31) ∧
    ¬ FrontEndsAgree buf n texts write fmt args m out := by
  have hkern : kernVcprintf fmt args = some (out, (out.length : ℤ)) ↔ out = [] := by
    rw [kernVcprintf_spec hout, Option.some.injEq, Prod.mk.injEq, ← List.length_eq_zero_iff]
    simp only [true_and]
    omega
  have hdesc : vfprintf write fmt args = some (out, (out.length : ℤ)) ↔
      out ≠ [] ∧ out.length < 2 ^ 31 := by
    rw [vfprintf_spec hw hout]
    by_cases hlt : out.length < 2 ^ 31
    · rw [if_pos hlt]
      by_cases hnil : out = []
      · subst hnil
        exact iff_of_false (by decide) fun h => h.1 rfl
      · rw [if_neg hnil]
        exact iff_of_true rfl ⟨hnil, hlt⟩
    · rw [if_neg hlt]
      exact iff_of_false (by simp) fun h => hlt h.2
  refine ⟨hkern, ?_, ?_, hdesc, fun h => (hdesc.1 h.descriptor).1 (hkern.1 h.kern)⟩
  · rw [vcprintf_spec hout]
    by_cases hlt : out.length < 2 ^ 31
    · rw [if_pos hlt]
      exact iff_of_true rfl hlt
    · rw [if_neg hlt]
      exact iff_of_false (by simp) hlt
  · exact fun hclear => vsnprintf_iff hn hclear hout

/-- A format of one character. -/
theorem frontEnds_small : kernVcprintf (lit "a") [] ≠ some (lit "a", 1) ∧
    vcprintf (lit "a") [] = some (lit "a", 1) ∧
    vsnprintf 16#32 4#32 [(20, 2)] (lit "a") [] (fun _ => 0#8) =
      some (1, Memory.put (fun _ => 0#8) 16 (lit "a" ++ [0#8])) ∧
    vfprintf (fun l => l.length) (lit "a") [] = some (lit "a", 1) := by
  obtain ⟨hkern, huser, hbuffer, hdesc, -⟩ := frontEnds_iff 16#32 4#32 (by decide) [(20, 2)]
    (fun l => l.length) (fun _ => rfl) (lit "a") [] (lit "a") (by decide) fun _ => 0#8
  exact ⟨hkern.not.2 (by decide), huser.2 (by decide), (hbuffer (by decide)).2 (by decide) _,
    hdesc.2 (by decide)⟩

/-- One character: the kernel returns 0.  None: `vfprintf` returns 1. -/
theorem frontEnds_differ :
    kernVcprintf (lit "a") [] = some (lit "a", 0) ∧ vcprintf (lit "a") [] = some (lit "a", 1) ∧
    vfprintf (fun l => l.length) [] [] = some ([], 1) ∧ vcprintf [] [] = some ([], 0) := by
  decide

end Jos.Printfmt
