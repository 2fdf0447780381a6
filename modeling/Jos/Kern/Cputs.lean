import Jos.Kern.SetTrapframe
import Jos.User.Pfentry

/-!
# Printing for user code

`sys_cputs(s, len)` checks the range with `user_mem_assert` and prints it with
`cprintf("%.*s", len, s)`.  The loop behind `%.*s` is one for C strings: it
stops at a NUL, and it reads a character before it looks at the precision.

* `showString` — that loop; `Shows` says what it does, for any memory.
* `cprintfString` — with the precision as a signed number, and `"(null)"` for a
  null pointer.
* `sysCputs_shows` — this is what decides whether `sys_cputs` faults.
* `CputsMeets` — what is asked of the call: the caller is destroyed, or the `len`
  bytes are printed and nothing else of user memory is read.
* `cputs_meets_iff` — this is so in three cases only: the check refuses the
  range; `s` is null and the bytes are those of `"(null)"`; or the range ends
  where the kernel's part of the address space begins, or in it.
-/

namespace Jos

/-! ## The loop -/

/-- What a run of the loop shows: the characters it prints, the addresses it
reads, and whether it took a page fault at the last of them. -/
structure Shown where
  out : List (BitVec 8)
  reads : List Word
  fault : Bool

/-- One more character in front. -/
def Shown.cons (ch : BitVec 8) (p : Word) (sh : Shown) : Shown :=
  { sh with out := ch :: sh.out, reads := p :: sh.reads }

/-- The loop of `vprintfmt` for a string,
`for (; (ch = *p++) != '\0' && (precision < 0 || --precision >= 0); width--)`.
`read` is `none` where nothing is mapped; `none` is the result when the fuel
runs out. -/
def showString (read : Word → Option (BitVec 8)) : ℕ → Word → ℤ → Option Shown
  | 0, _, _ => none
  | fuel + 1, p, precision =>
    match read p with
    | none => some ⟨[], [p], true⟩
    | some ch =>
      if ch = 0#8 then some ⟨[], [p], false⟩
      else if precision < 0 then (showString read fuel (p + 1#32) precision).map (.cons ch p)
      else if 0 ≤ precision - 1 then
        (showString read fuel (p + 1#32) (precision - 1)).map (.cons ch p)
      else some ⟨[], [p], false⟩

/-- **What the loop shows**: the characters up to the place where it stops, and
the address there is read as well. -/
structure Shows (read : Word → Option (BitVec 8)) (p : Word) (precision : ℤ) (sh : Shown) :
    Prop where
  chars : ∀ i b, sh.out[i]? = some b → read (p + BitVec.ofNat 32 i) = some b ∧ b ≠ 0#8
  within : precision < 0 ∨ (sh.out.length : ℤ) ≤ precision
  reads : sh.reads = (List.range (sh.out.length + 1)).map fun i => p + BitVec.ofNat 32 i
  stop : if sh.fault then read (p + BitVec.ofNat 32 sh.out.length) = none
    else ∃ ch, read (p + BitVec.ofNat 32 sh.out.length) = some ch ∧
      (ch = 0#8 ∨ (sh.out.length : ℤ) = precision)

variable {out : List (BitVec 8)}

section Loop

variable {read : Word → Option (BitVec 8)} {p : Word} {precision : ℤ} {sh : Shown}

/-- The loop goes on after a character. -/
theorem Shows.cons {ch : BitVec 8} {precision' : ℤ} (hch : read p = some ch) (h0 : ch ≠ 0#8)
    (hpre : precision < 0 ∧ precision' = precision ∨ 0 < precision ∧ precision' = precision - 1)
    (h : Shows read (p + 1#32) precision' sh) : Shows read p precision (sh.cons ch p) := by
  have hlen : (sh.cons ch p).out.length = sh.out.length + 1 := rfl
  refine ⟨fun i b hb => ?_, ?_, ?_, ?_⟩
  · cases i with
    | zero =>
      obtain rfl : ch = b := by simpa [Shown.cons] using hb
      rw [BitVec.add_zero]
      exact ⟨hch, h0⟩
    | succ i =>
      rw [← Pfentry.add_ofNat_succ]
      exact h.chars i b (by simpa [Shown.cons] using hb)
  · have := h.within
    rw [hlen]
    push_cast
    omega
  · rw [hlen, List.range_succ_eq_map, List.map_cons, List.map_map, BitVec.add_zero]
    show p :: sh.reads = _
    rw [h.reads]
    exact congrArg _ (List.map_congr_left fun i _ => Pfentry.add_ofNat_succ p i)
  · have hstop := h.stop
    rw [Pfentry.add_ofNat_succ] at hstop
    show if sh.fault then read (p + BitVec.ofNat 32 (sh.out.length + 1)) = none
      else ∃ ch, read (p + BitVec.ofNat 32 (sh.out.length + 1)) = some ch ∧
        (ch = 0#8 ∨ ((sh.out.length + 1 : ℕ) : ℤ) = precision)
    split
    · next hf =>
      rw [if_pos hf] at hstop
      exact hstop
    · next hf =>
      rw [if_neg hf] at hstop
      obtain ⟨c, hc, hcase⟩ := hstop
      refine ⟨c, hc, hcase.imp_right fun hz => ?_⟩
      push_cast
      omega

/-- What is shown after the first character. -/
theorem Shows.tail {ch : BitVec 8} {reads : List Word} {fault : Bool} {precision' : ℤ}
    (h : Shows read p precision ⟨ch :: out, reads, fault⟩)
    (hpre : precision < 0 ∧ precision' = precision ∨ 0 < precision ∧ precision' = precision - 1) :
    ∃ reads', reads = p :: reads' ∧ Shows read (p + 1#32) precision' ⟨out, reads', fault⟩ := by
  have hreads := h.reads
  rw [List.length_cons, List.range_succ_eq_map, List.map_cons, List.map_map, BitVec.add_zero]
    at hreads
  refine ⟨_, hreads, fun i b hb => ?_, ?_, ?_, ?_⟩
  · rw [Pfentry.add_ofNat_succ]
    exact h.chars (i + 1) b (by simpa using hb)
  · have hwithin := h.within
    rw [List.length_cons] at hwithin
    push_cast at hwithin
    show precision' < 0 ∨ (out.length : ℤ) ≤ precision'
    omega
  · exact List.map_congr_left fun i _ => (Pfentry.add_ofNat_succ p i).symm
  · have hstop := h.stop
    rw [List.length_cons] at hstop
    show if fault then read (p + 1#32 + BitVec.ofNat 32 out.length) = none
      else ∃ ch, read (p + 1#32 + BitVec.ofNat 32 out.length) = some ch ∧
        (ch = 0#8 ∨ (out.length : ℤ) = precision')
    rw [Pfentry.add_ofNat_succ]
    split
    · next hf =>
      rw [if_pos hf] at hstop
      exact hstop
    · next hf =>
      rw [if_neg hf] at hstop
      obtain ⟨c, hc, hcase⟩ := hstop
      refine ⟨c, hc, hcase.imp_right fun hz => ?_⟩
      push_cast at hz
      omega

/-- The loop stops at once. -/
theorem shows_nil {b : Bool} (hpre : precision < 0 ∨ 0 ≤ precision)
    (h : if b then read p = none else ∃ ch, read p = some ch ∧ (ch = 0#8 ∨ 0 = precision)) :
    Shows read p precision ⟨[], [p], b⟩ := by
  refine ⟨fun i b hb => by simp at hb, by simpa using hpre, by simp, ?_⟩
  rw [List.length_nil, BitVec.add_zero]
  exact h

/-- Every run of the loop is as `Shows` says … -/
theorem shows_of_showString : ∀ (fuel : ℕ) (p : Word) (precision : ℤ) {sh : Shown},
    showString read fuel p precision = some sh → Shows read p precision sh := by
  intro fuel
  induction fuel with
  | zero => intro p precision sh h; cases h
  | succ fuel ih =>
    intro p precision sh h
    rw [showString] at h
    cases hp : read p with
    | none =>
      simp only [hp, Option.some.injEq] at h
      subst h
      exact shows_nil (by omega) hp
    | some ch =>
      simp only [hp] at h
      by_cases h0 : ch = 0#8
      · rw [if_pos h0] at h
        cases h
        exact shows_nil (by omega) ⟨ch, hp, Or.inl h0⟩
      · rw [if_neg h0] at h
        by_cases hneg : precision < 0
        · rw [if_pos hneg] at h
          obtain ⟨sh', hrest, rfl⟩ := Option.map_eq_some_iff.1 h
          exact (ih _ _ hrest).cons hp h0 (Or.inl ⟨hneg, rfl⟩)
        · rw [if_neg hneg] at h
          by_cases hmore : 0 ≤ precision - 1
          · rw [if_pos hmore] at h
            obtain ⟨sh', hrest, rfl⟩ := Option.map_eq_some_iff.1 h
            exact (ih _ _ hrest).cons hp h0 (Or.inr ⟨by omega, rfl⟩)
          · rw [if_neg hmore] at h
            cases h
            exact shows_nil (by omega) ⟨ch, hp, Or.inr (by omega)⟩

/-- … and with enough fuel there is one. -/
theorem showString_of_shows : ∀ (out : List (BitVec 8)) (p : Word) (precision : ℤ) {sh : Shown},
    sh.out = out → Shows read p precision sh →
      showString read (out.length + 1) p precision = some sh := by
  intro out
  induction out with
  | nil =>
    rintro p precision ⟨-, reads, fault⟩ rfl h
    have hreads : reads = [p] := by simpa using h.reads
    have hstop := h.stop
    rw [List.length_nil, BitVec.add_zero] at hstop
    subst hreads
    rw [showString]
    cases fault with
    | true =>
      have hnone : read p = none := hstop
      simp only [hnone]
    | false =>
      obtain ⟨ch, hch, hcase⟩ : ∃ ch, read p = some ch ∧ (ch = 0#8 ∨ ((0 : ℕ) : ℤ) = precision) :=
        hstop
      simp only [hch]
      by_cases h0 : ch = 0#8
      · rw [if_pos h0]
      · have hz : ((0 : ℕ) : ℤ) = precision := hcase.resolve_left h0
        rw [if_neg h0, if_neg (by omega), if_neg (by omega)]
  | cons ch out ih =>
    rintro p precision ⟨-, reads, fault⟩ rfl h
    obtain ⟨hch, h0⟩ := h.chars 0 ch rfl
    rw [BitVec.add_zero] at hch
    rw [List.length_cons, showString]
    simp only [hch]
    rw [if_neg h0]
    by_cases hneg : precision < 0
    · obtain ⟨reads', rfl, htail⟩ := h.tail (Or.inl ⟨hneg, rfl⟩)
      rw [if_pos hneg, ih _ _ rfl htail]
      rfl
    · have hwithin := h.within
      rw [List.length_cons] at hwithin
      push_cast at hwithin
      have hpos : 0 < precision := by omega
      obtain ⟨reads', rfl, htail⟩ := h.tail (Or.inr ⟨hpos, rfl⟩)
      rw [if_neg hneg, if_pos (by omega), ih _ _ rfl htail]
      rfl

end Loop

/-! ## The call -/

/-- The characters of `"(null)"`, from address 0 on. -/
def nullString (a : Word) : Option (BitVec 8) :=
  some ([0x28#8, 0x6e#8, 0x75#8, 0x6c#8, 0x6c#8, 0x29#8].getD a.toNat 0#8)

/-- `cprintf("%.*s", len, s)`.  The precision is an `int`; the string `"(null)"`
is the kernel's own. -/
def cprintfString (read : Word → Option (BitVec 8)) (fuel : ℕ) (s len : Word) : Option Shown :=
  if s = 0#32 then
    (showString nullString fuel 0#32 len.toInt).map fun sh => { sh with reads := [] }
  else showString read fuel s len.toInt

/-- What the kernel reads at `a`, in the address space that is loaded. -/
def loadedByte (k : Kernel) (cpu : ℕ) (a : Word) : Option (BitVec 8) :=
  (k.curenv cpu).bind fun c => (k.roots c).bind fun r =>
    if mapped k.pm r a then some (Pfentry.userByte k.pm r a) else none

/-- The number of characters before the first NUL. -/
def IsStrLen (read : Word → Option (BitVec 8)) (s : Word) (n : ℕ) : Prop :=
  (∀ i < n, read (s + BitVec.ofNat 32 i) ≠ some 0#8) ∧
    ∀ b, read (s + BitVec.ofNat 32 n) = some b → b = 0#8

/-- The `len` bytes at `s` are printed, and no other byte of user memory is
read. -/
structure Exact (read : Word → Option (BitVec 8)) (s len : Word) (sh : Shown) : Prop where
  printed : sh.out.map some = (List.range len.toNat).map fun i => read (s + BitVec.ofNat 32 i)
  inside : ∀ a ∈ sh.reads, a < ULIM → ∃ i < len.toNat, a = s + BitVec.ofNat 32 i
  noFault : sh.fault = false

/-- **`sys_cputs` does what its comment says**: it destroys the caller, or it
prints the range. -/
def CputsMeets (cpu : ℕ) (s len : Word) (k : Kernel) (c : EnvIdx) : Prop :=
  (∃ x k', userMemAssert cpu c s len 0#32 k = .error x k' ∧ (k'.envs c).envStatus = .free) ∨
  ∃ k₁ fuel sh, userMemAssert cpu c s len 0#32 k = .ok () k₁ ∧
    cprintfString (loadedByte k₁ cpu) fuel s len = some sh ∧ Exact (loadedByte k₁ cpu) s len sh

/-- **The ranges for which it does.** -/
inductive CputsOk (k : Kernel) (cpu r : ℕ) (s len : Word) : Prop
  | refused : Refuses k.pm r (0#32 ||| PTE_U) s len → CputsOk k cpu r s len
  | null : s = 0#32 → len.toNat ≤ 6 →
      (∀ i < len.toNat, loadedByte k cpu (BitVec.ofNat 32 i) = nullString (BitVec.ofNat 32 i)) →
      CputsOk k cpu r s len
  | kernel (ch : BitVec 8) : s ≠ 0#32 → ULIM ≤ s + len →
      (∀ i < len.toNat, ∃ b, loadedByte k cpu (s + BitVec.ofNat 32 i) = some b ∧ b ≠ 0#8) →
      loadedByte k cpu (s + len) = some ch → (len.toInt < 0 → ch = 0#8) →
      CputsOk k cpu r s len

section Call

variable {k : Kernel} {cpu : ℕ} {held : Finset ℕ} {own : Option ℕ} {c : EnvIdx} {r : ℕ}
  {s len : Word} {read : Word → Option (BitVec 8)} {sh : Shown} {inp : Input}

theorem toInt_of_not_neg (h : ¬ len.toInt < 0) : len.toInt = len.toNat := by
  rw [BitVec.toInt_eq_toNat_cond] at h ⊢
  split at h
  · next hlt => rw [if_pos hlt]
  · have := len.isLt
    omega

theorem loadedByte_eq (hc : k.curenv cpu = some c) (hr : k.roots c = some r) (a : Word) :
    loadedByte k cpu a = if mapped k.pm r a then some (Pfentry.userByte k.pm r a) else none := by
  rw [loadedByte, hc, Option.bind_some, hr, Option.bind_some]

theorem mapped_iff (hc : k.curenv cpu = some c) (hr : k.roots c = some r) (a : Word) :
    mapped k.pm r a = true ↔ loadedByte k cpu a ≠ none := by
  rw [loadedByte_eq hc hr]
  split <;> simp_all

theorem kernelReads_iff (hc : k.curenv cpu = some c) (hr : k.roots c = some r) (n : ℕ) :
    kernelReads k cpu s n ↔ ∀ i < n, loadedByte k cpu (s + BitVec.ofNat 32 i) ≠ none := by
  constructor
  · intro h i hi
    exact (mapped_iff hc hr _).1 (h c hc r hr i hi)
  · intro h c' hc' r' hr' i hi
    obtain rfl : c = c' := Option.some.inj (hc.symm.trans hc')
    obtain rfl : r = r' := Option.some.inj (hr.symm.trans hr')
    exact (mapped_iff hc hr _).2 (h i hi)

variable {precision : ℤ} {n : ℕ}

/-- The string is no shorter than what is shown of it. -/
theorem Shows.le_strLen (h : Shows read s precision sh) (hn : IsStrLen read s n) :
    sh.out.length ≤ n := by
  by_contra hlt
  obtain ⟨b, hb⟩ : ∃ b, sh.out[n]? = some b := ⟨_, List.getElem?_eq_getElem (by omega)⟩
  obtain ⟨hread, h0⟩ := h.chars n b hb
  exact h0 (hn.2 b hread)

/-- The characters the model of `sys_cputs` counts are those that are shown, or
more when the loop faults. -/
theorem Shows.kernelReads_iff (h : Shows (loadedByte k cpu) s len.toInt sh)
    (hc : k.curenv cpu = some c) (hr : k.roots c = some r) (hn : IsStrLen (loadedByte k cpu) s n) :
    kernelReads k cpu s ((if len.toInt < 0 then n else min n len.toNat) + 1) ↔
      sh.fault = false := by
  have hle := h.le_strLen hn
  have hwithin := h.within
  have hstop := h.stop
  rw [Jos.kernelReads_iff hc hr]
  cases hf : sh.fault with
  | true =>
    -- the place of the fault is among the bytes that are counted
    rw [if_pos hf] at hstop
    refine iff_of_false (fun hall => hall sh.out.length ?_ hstop) (by simp)
    split
    · omega
    · next hneg =>
      have := toInt_of_not_neg hneg
      omega
  | false =>
    rw [if_neg (by simp [hf])] at hstop
    obtain ⟨ch, hch, hcase⟩ := hstop
    have hcount : (if len.toInt < 0 then n else min n len.toNat) = sh.out.length := by
      have hend : ch = 0#8 → n ≤ sh.out.length := fun h0 => by
        by_contra hlt
        exact hn.1 sh.out.length (by omega) (h0 ▸ hch)
      split
      · next hneg =>
        have h0 := hend (hcase.resolve_right (by omega))
        omega
      · next hneg =>
        have hpos := toInt_of_not_neg hneg
        rcases hcase with h0 | hz
        · have h0' := hend h0
          omega
        · omega
    rw [hcount]
    refine iff_of_true (fun i hi => ?_) rfl
    rcases Nat.lt_succ_iff_lt_or_eq.1 hi with hlt | rfl
    · obtain ⟨b, hb⟩ : ∃ b, sh.out[i]? = some b := ⟨_, List.getElem?_eq_getElem hlt⟩
      rw [(h.chars i b hb).1]
      simp
    · rw [hch]
      simp

/-- Printing `"(null)"` takes no page fault. -/
theorem nullString_noFault (h : Shows nullString 0#32 precision sh) : sh.fault = false := by
  have hstop := h.stop
  by_contra hf
  rw [Bool.not_eq_false] at hf
  rw [if_pos hf] at hstop
  cases hstop

/-- **The loop decides whether `sys_cputs` faults.** -/
theorem sysCputs_shows {fuel : ℕ} (hinv : KernelInv held own k) (hc : k.curenv cpu = some c)
    (hr : k.roots c = some r) (hok : ¬ Refuses k.pm r (0#32 ||| PTE_U) s len)
    (hn : IsStrLen (loadedByte k cpu) s inp.strLen)
    (hsh : cprintfString (loadedByte k cpu) fuel s len = some sh) :
    sysCputs cpu inp s len k =
      if sh.fault then .error (.panic .kernelFault) k else .ok 0#32 k := by
  have hassert : userMemAssert cpu c s len 0#32 k = .ok () k := userMemAssert_passes hinv hr hok
  rw [sysCputs, run_get_bind]
  simp only [hc]
  rw [run_bind_ok hassert, run_get_bind]
  rw [cprintfString] at hsh
  by_cases h0 : s = 0#32
  · rw [if_pos h0] at hsh
    obtain ⟨sh₀, hrun, rfl⟩ := Option.map_eq_some_iff.1 hsh
    have hf : sh₀.fault = false := nullString_noFault (shows_of_showString _ _ _ hrun)
    rw [if_neg (fun h => h.1 h0), if_neg (by simp [hf])]
    rfl
  · rw [if_neg h0] at hsh
    have hreads := (shows_of_showString _ _ _ hsh).kernelReads_iff hc hr hn
    by_cases hf : sh.fault = true
    · rw [if_pos ⟨h0, fun h => by simp [hreads.1 h] at hf⟩, if_pos hf]
      rfl
    · rw [if_neg (fun h => h.2 (hreads.2 (by simpa using hf))), if_neg hf]
      rfl

/-! ### When the range is printed -/

/-- The characters of a range. -/
def charsAt (read : Word → Option (BitVec 8)) (s : Word) (n : ℕ) : List (BitVec 8) :=
  (List.range n).map fun i => (read (s + BitVec.ofNat 32 i)).getD 0#8

theorem map_some_charsAt (h : ∀ i < n, ∃ b, read (s + BitVec.ofNat 32 i) = some b ∧ b ≠ 0#8) :
    (charsAt read s n).map some = (List.range n).map fun i => read (s + BitVec.ofNat 32 i) := by
  rw [charsAt, List.map_map]
  refine List.map_congr_left fun i hi => ?_
  obtain ⟨b, hb, -⟩ := h i (List.mem_range.1 hi)
  rw [Function.comp_apply, hb, Option.getD_some]

/-- A range without NUL is shown, if the byte after it can be read. -/
theorem shows_charsAt (h : ∀ i < n, ∃ b, read (s + BitVec.ofNat 32 i) = some b ∧ b ≠ 0#8)
    (hwithin : precision < 0 ∨ (n : ℤ) ≤ precision)
    (hstop : ∃ ch, read (s + BitVec.ofNat 32 n) = some ch ∧ (ch = 0#8 ∨ (n : ℤ) = precision)) :
    Shows read s precision ⟨charsAt read s n,
      (List.range (n + 1)).map fun i => s + BitVec.ofNat 32 i, false⟩ := by
  have hlen : (charsAt read s n).length = n := by rw [charsAt, List.length_map, List.length_range]
  refine ⟨fun i b hb => ?_, by rw [hlen]; exact hwithin, by rw [hlen], by rw [hlen]; exact hstop⟩
  obtain ⟨hi, hget⟩ := List.getElem?_eq_some_iff.1 hb
  have hi' : i < n := hlen ▸ hi
  obtain ⟨b', hb', h0⟩ := h i hi'
  have hbb : b' = b := by
    rw [← hget]
    simp [charsAt, hb']
  exact hbb ▸ ⟨hb', h0⟩

/-- What was printed, character by character. -/
theorem printed_getElem {f : ℕ → Option (BitVec 8)} (h : out.map some = (List.range n).map f) :
    out.length = n ∧ ∀ i < n, ∃ b, out[i]? = some b ∧ f i = some b := by
  have hlen : out.length = n := by simpa using congrArg List.length h
  refine ⟨hlen, fun i hi => ?_⟩
  obtain ⟨b, hb⟩ : ∃ b, out[i]? = some b := ⟨_, List.getElem?_eq_getElem (hlen.symm ▸ hi)⟩
  refine ⟨b, hb, ?_⟩
  have hget := congrArg (fun l => l[i]?) h
  simp only [List.getElem?_map, hb, Option.map_some, List.getElem?_range hi] at hget
  exact (Option.some.inj hget).symm

/-- The address after the range is not in it. -/
theorem add_len_not_inside {i : ℕ} (hi : i < len.toNat) : s + len ≠ s + BitVec.ofNat 32 i := by
  intro h
  have hi' : len = BitVec.ofNat 32 i := by
    have := congrArg (fun x => x - s) h
    simpa [BitVec.add_comm s] using this
  have := congrArg BitVec.toNat hi'
  rw [BitVec.toNat_ofNat] at this
  omega

theorem ofNat_len : BitVec.ofNat 32 len.toNat = len := by
  rw [BitVec.ofNat_toNat, BitVec.setWidth_eq]

/-- A range given by a pointer that is not null. -/
theorem exact_iff_of_ne (h0 : s ≠ 0#32) :
    (∃ fuel sh, cprintfString read fuel s len = some sh ∧ Exact read s len sh) ↔
      ULIM ≤ s + len ∧
      (∀ i < len.toNat, ∃ b, read (s + BitVec.ofNat 32 i) = some b ∧ b ≠ 0#8) ∧
      ∃ ch, read (s + len) = some ch ∧ (len.toInt < 0 → ch = 0#8) := by
  constructor
  · rintro ⟨fuel, sh, hrun, hex⟩
    rw [cprintfString, if_neg h0] at hrun
    have hsh := shows_of_showString _ _ _ hrun
    obtain ⟨hlen, hget⟩ := printed_getElem hex.printed
    have hstop := hsh.stop
    rw [if_neg (by simp [hex.noFault]), hlen, ofNat_len] at hstop
    obtain ⟨ch, hch, hcase⟩ := hstop
    refine ⟨?_, fun i hi => ?_, ch, hch, fun hneg => hcase.resolve_right (by omega)⟩
    · -- the byte after the range is read, so it is none of the user's
      by_contra hlim
      have hmem : s + len ∈ sh.reads := by
        rw [hsh.reads, hlen]
        exact List.mem_map.2 ⟨len.toNat, List.mem_range.2 (Nat.lt_succ_self _), by rw [ofNat_len]⟩
      obtain ⟨i, hi, heq⟩ := hex.inside _ hmem (BitVec.not_le.1 hlim)
      exact add_len_not_inside hi heq
    · obtain ⟨b, hb, hread⟩ := hget i hi
      exact ⟨b, hread, (hsh.chars i b hb).2⟩
  · rintro ⟨hlim, hall, ch, hch, hneg⟩
    have hwithin : len.toInt < 0 ∨ (len.toNat : ℤ) ≤ len.toInt := by
      by_cases hn : len.toInt < 0
      · exact Or.inl hn
      · exact Or.inr (toInt_of_not_neg hn).ge
    have hstop : ∃ ch, read (s + BitVec.ofNat 32 len.toNat) = some ch ∧
        (ch = 0#8 ∨ (len.toNat : ℤ) = len.toInt) := by
      rw [ofNat_len]
      refine ⟨ch, hch, ?_⟩
      by_cases hn : len.toInt < 0
      · exact Or.inl (hneg hn)
      · exact Or.inr (toInt_of_not_neg hn).symm
    have hsh := shows_charsAt hall hwithin hstop
    refine ⟨_, _, (if_neg h0).trans (showString_of_shows _ _ _ rfl hsh),
      map_some_charsAt hall, fun a ha hlt => ?_, rfl⟩
    obtain ⟨i, hi, rfl⟩ := List.mem_map.1 ha
    rcases Nat.lt_succ_iff_lt_or_eq.1 (List.mem_range.1 hi) with hin | rfl
    · exact ⟨i, hin, rfl⟩
    · rw [ofNat_len] at hlt
      exact absurd hlim (BitVec.not_le.2 hlt)

theorem nullString_ne_nul : ∀ i < 6, ∃ b, nullString (0#32 + BitVec.ofNat 32 i) = some b ∧
    b ≠ 0#8 := by
  intro i hi
  refine ⟨_, rfl, ?_⟩
  interval_cases i <;> decide

/-- A null pointer. -/
theorem exact_iff_null (h0 : s = 0#32) :
    (∃ fuel sh, cprintfString read fuel s len = some sh ∧ Exact read s len sh) ↔
      len.toNat ≤ 6 ∧
      ∀ i < len.toNat, read (BitVec.ofNat 32 i) = nullString (BitVec.ofNat 32 i) := by
  subst h0
  constructor
  · rintro ⟨fuel, sh, hrun, hex⟩
    rw [cprintfString, if_pos rfl] at hrun
    obtain ⟨sh₀, hloop, rfl⟩ := Option.map_eq_some_iff.1 hrun
    have hsh := shows_of_showString _ _ _ hloop
    obtain ⟨-, hget⟩ := printed_getElem hex.printed
    refine ⟨?_, fun i hi => ?_⟩
    · -- the seventh character is the NUL of `"(null)"`
      by_contra hlt
      obtain ⟨b, hb, -⟩ := hget 6 (by omega)
      obtain ⟨hnul, hne⟩ := hsh.chars 6 b hb
      exact hne (Option.some.inj hnul).symm
    · obtain ⟨b, hb, hread⟩ := hget i hi
      have hnull := (hsh.chars i b hb).1
      rw [BitVec.zero_add] at hread hnull
      rw [hread, hnull]
  · rintro ⟨hle, hall⟩
    have hpos : len.toInt = len.toNat := by
      rw [BitVec.toInt_eq_toNat_cond, if_pos (by omega)]
    have hchars : ∀ i < len.toNat, ∃ b, nullString (0#32 + BitVec.ofNat 32 i) = some b ∧ b ≠ 0#8 :=
      fun i hi => nullString_ne_nul i (by omega)
    have hsh := shows_charsAt hchars (Or.inr hpos.ge) ⟨_, rfl, Or.inr hpos.symm⟩
    refine ⟨_, _, (if_pos rfl).trans (congrArg (Option.map _) (showString_of_shows _ _ _ rfl hsh)),
      (map_some_charsAt hchars).trans ?_, fun a ha => absurd ha List.not_mem_nil, rfl⟩
    refine List.map_congr_left fun i hi => ?_
    rw [BitVec.zero_add, hall i (List.mem_range.1 hi)]

/-- No range of user memory that passes the check is printed as it should be. -/
theorem not_cputsMeets {k₁ : Kernel} (h0 : s ≠ 0#32) (hlim : s + len < ULIM)
    (hassert : userMemAssert cpu c s len 0#32 k = .ok () k₁) : ¬ CputsMeets cpu s len k c := by
  rw [CputsMeets, hassert]
  rintro (⟨x, k', h, -⟩ | ⟨k₂, fuel, sh, -, hrun, hex⟩)
  · cases h
  · exact absurd ((exact_iff_of_ne h0).1 ⟨fuel, sh, hrun, hex⟩).1 (BitVec.not_le.2 hlim)

end Call

/-- **When `sys_cputs` does what it says**, for every consistent state of the
kernel, every caller and every range. -/
theorem cputs_meets_iff {k : Kernel} {cpu : ℕ} {held : Finset ℕ} {c : EnvIdx} {r : ℕ}
    (hinv : KernelInv held (some cpu) k) (hc : k.curenv cpu = some c) (hr : k.roots c = some r)
    (s len : Word) : CputsMeets cpu s len k c ↔ CputsOk k cpu r s len := by
  by_cases hno : Refuses k.pm r (0#32 ||| PTE_U) s len
  · refine iff_of_true (Or.inl ?_) (.refused hno)
    obtain ⟨a, hassert⟩ : ∃ a, userMemAssert cpu c s len 0#32 k
        = envDestroy cpu c (k.setCheckAddr a) := userMemAssert_refuses hinv hr hno
    have hcur : (k.setCheckAddr a).curenv cpu = some c := hc
    obtain ⟨x, k', hrun, hfree, -⟩ := destroyed_self (hinv.setCheckAddr a) hcur
    exact ⟨x, k', hassert.trans hrun, hfree⟩
  · have hassert : userMemAssert cpu c s len 0#32 k = .ok () k := userMemAssert_passes hinv hr hno
    have hmeets : CputsMeets cpu s len k c ↔ ∃ fuel sh,
        cprintfString (loadedByte k cpu) fuel s len = some sh ∧
          Exact (loadedByte k cpu) s len sh := by
      rw [CputsMeets, hassert]
      constructor
      · rintro (⟨x, k', h, -⟩ | ⟨k₁, fuel, sh, h, hrun, hex⟩)
        · cases h
        · cases h
          exact ⟨fuel, sh, hrun, hex⟩
      · rintro ⟨fuel, sh, hrun, hex⟩
        exact Or.inr ⟨k, fuel, sh, rfl, hrun, hex⟩
    rw [hmeets]
    by_cases h0 : s = 0#32
    · rw [exact_iff_null h0]
      constructor
      · rintro ⟨hle, hall⟩
        exact .null h0 hle hall
      · rintro (h | ⟨-, hle, hall⟩ | ⟨_, hne, -⟩)
        · exact absurd h hno
        · exact ⟨hle, hall⟩
        · exact absurd h0 hne
    · rw [exact_iff_of_ne h0]
      constructor
      · rintro ⟨hlim, hall, ch, hch, hneg⟩
        exact .kernel ch h0 hlim hall hch hneg
      · rintro (h | ⟨h, -, -⟩ | ⟨ch, -, hlim, hall, hch, hneg⟩)
        · exact absurd h hno
        · exact absurd h h0
        · exact ⟨hlim, hall, ch, hch, hneg⟩

/-- A running environment that prints from a kernel address is destroyed. -/
theorem cputs_meets_started : ∃ k₀ k held r, Booted plainConfig k₀ ∧ Runs IpcCareful k₀ k ∧
    KernelInv held (some 0) k ∧ k.curenv 0 = some 0 ∧
    k.roots 0 = some r ∧
    CputsMeets 0 0xf0000000#32 16#32 k 0 := by
  obtain ⟨k₀, k, held, hb, hrun, hl⟩ := run_start
  have hinv : KernelInv held (some 0) k := hl.inv.enter 0
  have hc : k.curenv 0 = some 0 := hl.user.2
  obtain ⟨r, hr⟩ := hinv.root (hinv.cur_live 0 _ hc)
  refine ⟨k₀, k, held, r, hb, hrun, hinv, hc, hr,
    (cputs_meets_iff hinv hc hr 0xf0000000#32 16#32).2 (.refused ?_)⟩
  exact ⟨0xf0000, by decide, by decide, pageTest_kernelPage⟩

/-- **An empty range can bring the kernel down, and a NUL ends the line.**  The
caller has a stack of zeroes below `USTACKTOP` and nothing above.  Nothing is
to be printed at `USTACKTOP`, but the loop looks at the first character there
and faults.  Of sixteen NULs on the stack none is printed. -/
theorem cputs_wrong :
    sysCputs 0 noInput USTACKTOP 0#32 (spawnKernel 500)
      = .error (.panic .kernelFault) (spawnKernel 500) ∧
    ¬ CputsMeets 0 USTACKTOP 0#32 (spawnKernel 500) 0 ∧
    cprintfString (loadedByte (spawnKernel 500) 0) 1 (USTACKTOP - 16#32) 16#32
      = some ⟨[], [USTACKTOP - 16#32], false⟩ ∧
    ¬ CputsMeets 0 (USTACKTOP - 16#32) 16#32 (spawnKernel 500) 0 := by
  have hempty : userMemAssert 0 0 USTACKTOP 0#32 0#32 (spawnKernel 500)
      = .ok () (spawnKernel 500) := rfl
  have hzeroes : userMemAssert 0 0 (USTACKTOP - 16#32) 16#32 0#32 (spawnKernel 500)
      = .ok () (spawnKernel 500) := rfl
  have hcur : (spawnKernel 500).curenv 0 = some 0 := rfl
  have hunmapped : mapped (spawnKernel 500).pm 500 USTACKTOP = false := by decide
  refine ⟨?_, not_cputsMeets (by decide) (by decide) hempty, rfl,
    not_cputsMeets (by decide) (by decide) hzeroes⟩
  rw [sysCputs, run_get_bind]
  simp only [hcur]
  rw [run_bind_ok hempty, run_get_bind, if_pos]
  · rfl
  · refine ⟨by decide, fun h => ?_⟩
    have hfirst := h _ hcur 500 rfl 0 (Nat.succ_pos _)
    rw [BitVec.add_zero, hunmapped] at hfirst
    cases hfirst

end Jos
