import Mathlib.Data.List.GetD
import Mathlib.Data.List.TakeWhile
import Jos.User.Readline

/-!
# The tokenizer of the shell

`_gettoken` and `gettoken` of `user/sh.c`.  A line is taken apart in place: blanks and symbols
are overwritten with NULs as they are passed, and a word ends because something behind it has
been overwritten.  `gettoken` is always one token ahead of its caller.

* `Token`, `tokens` — the tokens of a line, with the addresses they stand at.
* `erased` — the line once the tokens in front of an address have been passed.
* `scan_spec` — one scan finds the first of the remaining tokens.
* `Ahead`, `gettoken_step` — what the static variables say between two calls.
* `gettoken_tokens` — all calls: the tokens in order, and then 0 for ever.
-/

namespace Jos.Sh

open Readline (Byte)

/-! ## The code -/

/-- `WHITESPACE`. -/
def whitespace : List Byte := [0x20#8, 0x09#8, 0x0D#8, 0x0A#8]

/-- `SYMBOLS`. -/
def symbols : List Byte := [0x3C#8, 0x7C#8, 0x3E#8, 0x26#8, 0x3B#8, 0x28#8, 0x29#8]

/-- Whether `strchr(s, c)` finds something; the NUL behind the string is not searched for. -/
def strchr (s : List Byte) (c : Byte) : Bool := s.contains c

/-- `while (strchr(WHITESPACE, *s)) *s++ = 0;` -/
def skipBlanks : ℕ → ℕ → Memory → Option (ℕ × Memory)
  | 0, _, _ => none
  | fuel + 1, s, m =>
    if strchr whitespace (m s) then skipBlanks fuel (s + 1) (Function.update m s 0#8)
    else some (s, m)

/-- `while (*s && !strchr(WHITESPACE SYMBOLS, *s)) s++;` -/
def skipWord : ℕ → ℕ → Memory → Option ℕ
  | 0, _, _ => none
  | fuel + 1, s, m =>
    if m s ≠ 0#8 ∧ strchr (whitespace ++ symbols) (m s) = false then skipWord fuel (s + 1) m
    else some s

/-- A result of `_gettoken`: what it returns, `*p1` and `*p2`, and memory. -/
structure Scan where
  token : Byte
  p1 : Option ℕ
  p2 : Option ℕ
  mem : Memory

/-- `'w'`. -/
def WORD : Byte := 0x77#8

/-- `_gettoken`; a pointer is `none` if it is null. -/
def scanToken (fuel : ℕ) (s p1 p2 : Option ℕ) (m : Memory) : Option Scan :=
  match s with
  | none => some ⟨0#8, p1, p2, m⟩
  | some s => do
      let (s, m) ← skipBlanks fuel s m
      if m s = 0#8 then return ⟨0#8, none, none, m⟩
      else if strchr symbols (m s) then
        return ⟨m s, some s, some (s + 1), Function.update m s 0#8⟩
      else
        let stop ← skipWord fuel s m
        return ⟨WORD, some s, some stop, m⟩

/-- The static variables of `gettoken`, and memory. -/
structure Statics where
  c : Byte
  nc : Byte
  np1 : Option ℕ
  np2 : Option ℕ
  mem : Memory

/-- The token ahead is the one of `r`. -/
def Statics.look (st : Statics) (r : Scan) : Statics :=
  { st with nc := r.token, np1 := r.p1, np2 := r.p2, mem := r.mem }

/-- `gettoken(s, 0)`, which returns 0. -/
def gettokenInit (fuel s : ℕ) (st : Statics) : Option Statics := do
  let r ← scanToken fuel (some s) st.np1 st.np2 st.mem
  return st.look r

/-- `gettoken(0, &t)`: what it returns, and `t`. -/
def gettoken (fuel : ℕ) (st : Statics) : Option ((Byte × Option ℕ) × Statics) := do
  let st := { st with c := st.nc }
  let t := st.np1
  let r ← scanToken fuel st.np2 st.np1 st.np2 st.mem
  return ((st.c, t), st.look r)

/-! ## The tokens of a line -/

def isBlank (c : Byte) : Bool := strchr whitespace c

def isSymbol (c : Byte) : Bool := strchr symbols c

/-- A character of a word. -/
def isWordChar (c : Byte) : Bool := !isBlank c && !isSymbol c

/-- A token and where it stands. -/
inductive Token
  | word (start : ℕ) (text : List Byte)
  | symbol (start : ℕ) (c : Byte)
  deriving DecidableEq

namespace Token

/-- What `gettoken` returns for it. -/
def id : Token → Byte
  | word _ _ => WORD
  | symbol _ c => c

def start : Token → ℕ
  | word a _ => a
  | symbol a _ => a

def text : Token → List Byte
  | word _ w => w
  | symbol _ c => [c]

/-- The address behind it. -/
def stop (t : Token) : ℕ := t.start + t.text.length

end Token

/-- A word that starts at `a` with `c`, in front of the tokens of what comes after. -/
def startWord (a : ℕ) (c : Byte) : List Token → List Token
  | .word b w :: ts => if b = a + 1 then .word a (c :: w) :: ts else .word a [c] :: .word b w :: ts
  | ts => .word a [c] :: ts

/-- The tokens of a line at address `a`: each symbol, and each maximal run of characters that
are neither blanks nor symbols (`tokens_word`). -/
def tokens : ℕ → List Byte → List Token
  | _, [] => []
  | a, c :: cs =>
    if isBlank c then tokens (a + 1) cs
    else if isSymbol c then .symbol a c :: tokens (a + 1) cs
    else startWord a c (tokens (a + 1) cs)

section Tokens

variable {a b : ℕ} {c : Byte} {g w r : List Byte} {t : Token}

theorem isSymbol_of_isBlank (h : isBlank c = true) : isSymbol c = false := by
  rw [isBlank, strchr, List.contains_iff_mem] at h
  simp only [whitespace, List.mem_cons, List.not_mem_nil, or_false] at h
  rcases h with rfl | rfl | rfl | rfl <;> rfl

@[simp] theorem isWordChar_eq_true :
    isWordChar c = true ↔ isBlank c = false ∧ isSymbol c = false := by
  rw [isWordChar, Bool.and_eq_true, Bool.not_eq_true', Bool.not_eq_true']

theorem strchr_append : strchr (whitespace ++ symbols) c = !isWordChar c := by
  rw [isWordChar, Bool.not_and, Bool.not_not, Bool.not_not, isBlank, isSymbol, strchr, strchr,
    strchr, List.contains_append]

theorem tokens_blank (h : isBlank c = true) : tokens a (c :: r) = tokens (a + 1) r := by
  rw [tokens, if_pos h]

theorem tokens_symbol (h : isSymbol c = true) :
    tokens a (c :: r) = .symbol a c :: tokens (a + 1) r := by
  have hb : isBlank c = false := by
    by_contra hb
    rw [isSymbol_of_isBlank (Bool.not_eq_false _ ▸ hb)] at h
    cases h
  rw [tokens, hb, if_neg Bool.false_ne_true, if_pos h]

theorem tokens_blanks (h : ∀ c ∈ g, isBlank c = true) :
    tokens a (g ++ r) = tokens (a + g.length) r := by
  induction g generalizing a with
  | nil => rfl
  | cons c g ih =>
    rw [List.cons_append, tokens_blank (h c List.mem_cons_self),
      ih fun x hx => h x (List.mem_cons_of_mem _ hx), List.length_cons]
    congr 1
    omega

theorem le_start_startWord {ts : List Token} (h : ∀ t ∈ ts, a + 1 ≤ t.start) :
    ∀ t ∈ startWord a c ts, a ≤ t.start := by
  intro t ht
  unfold startWord at ht
  split at ht
  · rename_i b w ts
    split_ifs at ht with hb
    · rcases List.mem_cons.1 ht with rfl | ht
      · exact le_rfl
      · exact Nat.le_of_succ_le (h t (List.mem_cons_of_mem _ ht))
    · rcases List.mem_cons.1 ht with rfl | ht
      · exact le_rfl
      · exact Nat.le_of_succ_le (h t ht)
  · rcases List.mem_cons.1 ht with rfl | ht
    · exact le_rfl
    · exact Nat.le_of_succ_le (h t ht)

theorem le_start : ∀ t ∈ tokens a r, a ≤ t.start := by
  induction r generalizing a with
  | nil => simp [tokens]
  | cons c r ih =>
    rw [tokens]
    split_ifs with hb hs
    · exact fun t ht => Nat.le_of_succ_le (ih t ht)
    · intro t ht
      rcases List.mem_cons.1 ht with rfl | ht
      · exact le_rfl
      · exact Nat.le_of_succ_le (ih t ht)
    · exact le_start_startWord ih

/-- What stands behind a word: nothing, or a character that is not part of a word. -/
def Ends (r : List Byte) : Prop := ∀ c ∈ r.head?, isWordChar c = false

/-- Behind a word no word starts right away. -/
theorem startWord_of_ends (h : Ends r) :
    startWord a c (tokens (a + 1) r) = .word a [c] :: tokens (a + 1) r := by
  cases r with
  | nil => rfl
  | cons d r =>
    have hd : isWordChar d = false := h d rfl
    by_cases hs : isSymbol d = true
    · rw [tokens_symbol hs]
      rfl
    · have hb : isBlank d = true := by
        by_contra hb
        rw [isWordChar_eq_true.2 ⟨Bool.not_eq_true _ ▸ hb, Bool.not_eq_true _ ▸ hs⟩] at hd
        cases hd
      rw [tokens_blank hb]
      -- the tokens there are at `a + 2` or later
      rcases hts : tokens (a + 1 + 1) r with _ | ⟨⟨b, w⟩ | ⟨b, e⟩, ts⟩
      · rfl
      · have hle : a + 1 + 1 ≤ b := le_start (Token.word b w) (by rw [hts]; simp)
        rw [startWord, if_neg (by omega)]
      · rfl

/-- A maximal run of word characters is one token. -/
theorem tokens_word (hne : w ≠ []) (hw : ∀ c ∈ w, isWordChar c = true) (hr : Ends r) :
    tokens a (w ++ r) = .word a w :: tokens (a + w.length) r := by
  induction w generalizing a with
  | nil => exact absurd rfl hne
  | cons c w ih =>
    obtain ⟨hb, hs⟩ := isWordChar_eq_true.1 (hw c List.mem_cons_self)
    rw [List.cons_append, tokens, hb, hs, if_neg Bool.false_ne_true, if_neg Bool.false_ne_true]
    cases w with
    | nil => exact startWord_of_ends hr
    | cons d w =>
      rw [ih (List.cons_ne_nil _ _) (fun x hx => hw x (List.mem_cons_of_mem _ hx)), startWord,
        if_pos rfl]
      simp only [List.length_cons]
      congr 2
      omega

/-- Induction along the tokens of a line. -/
theorem tokens_induct {P : ℕ → List Byte → List Token → Prop}
    (nil : ∀ a g, (∀ c ∈ g, isBlank c = true) → P a g [])
    (symbol : ∀ a g c r, (∀ c ∈ g, isBlank c = true) → isSymbol c = true →
      P (a + g.length + 1) r (tokens (a + g.length + 1) r) →
      P a (g ++ c :: r) (.symbol (a + g.length) c :: tokens (a + g.length + 1) r))
    (word : ∀ a g w r, (∀ c ∈ g, isBlank c = true) → w ≠ [] → (∀ c ∈ w, isWordChar c = true) →
      Ends r → P (a + g.length + w.length) r (tokens (a + g.length + w.length) r) →
      P a (g ++ (w ++ r)) (.word (a + g.length) w :: tokens (a + g.length + w.length) r))
    (a : ℕ) (r : List Byte) : P a r (tokens a r) := by
  induction hn : r.length using Nat.strong_induction_on generalizing a r with
  | _ n ih =>
    subst hn
    have hg : ∀ c ∈ r.takeWhile isBlank, isBlank c = true := fun c hc => List.mem_takeWhile_imp hc
    have hsplit := List.takeWhile_append_dropWhile (p := isBlank) (l := r)
    generalize r.takeWhile isBlank = g at hg hsplit
    rcases hrest : r.dropWhile isBlank with _ | ⟨c, rest⟩
    · rw [hrest, List.append_nil] at hsplit
      subst hsplit
      have htok := tokens_blanks (a := a) (r := []) hg
      rw [List.append_nil] at htok
      rw [htok]
      exact nil a g hg
    · have hc : isBlank c = false := by
        have := List.head?_dropWhile_not isBlank r
        rw [hrest] at this
        simpa using this
      rw [hrest] at hsplit
      by_cases hs : isSymbol c = true
      · subst hsplit
        rw [tokens_blanks hg, tokens_symbol hs]
        exact symbol a g c rest hg hs (ih _ (by simp; omega) _ _ rfl)
      · have hcw : isWordChar c = true := isWordChar_eq_true.2 ⟨hc, Bool.not_eq_true _ ▸ hs⟩
        have hw : ∀ x ∈ (c :: rest).takeWhile isWordChar, isWordChar x = true :=
          fun x hx => List.mem_takeWhile_imp hx
        have hne : (c :: rest).takeWhile isWordChar ≠ [] := by simp [hcw]
        have hends : Ends ((c :: rest).dropWhile isWordChar) := by
          intro x hx
          have := List.head?_dropWhile_not isWordChar (c :: rest)
          rw [Option.mem_def.1 hx] at this
          simpa using this
        have hsplit' := List.takeWhile_append_dropWhile (p := isWordChar) (l := c :: rest)
        generalize (c :: rest).takeWhile isWordChar = w at hw hne hsplit'
        generalize (c :: rest).dropWhile isWordChar = r' at hends hsplit'
        rw [← hsplit'] at hsplit
        subst hsplit
        have hlen := List.length_pos_of_ne_nil hne
        rw [tokens_blanks hg, tokens_word hne hw hends]
        exact word a g w r' hg hne hw hends (ih _ (by simp; omega) _ _ rfl)

/-- Tokens are not empty, and each one ends before the next starts. -/
theorem tokens_sorted (a : ℕ) (r : List Byte) :
    (∀ t ∈ tokens a r, a ≤ t.start ∧ t.start < t.stop ∧ t.stop ≤ a + r.length) ∧
      (tokens a r).Pairwise fun t u => t.stop ≤ u.start := by
  induction a, r using tokens_induct with
  | nil a g hg => simp
  | symbol a g c r hg hs ih =>
    rw [List.length_append, List.length_cons]
    refine ⟨fun t ht => ?_, List.pairwise_cons.2 ⟨fun u hu => le_start u hu, ih.2⟩⟩
    rcases List.mem_cons.1 ht with rfl | ht
    · simp only [Token.start, Token.stop, Token.text, List.length_singleton]
      omega
    · have := ih.1 t ht
      omega
  | word a g w r hg hne hw hr ih =>
    have hlen := List.length_pos_of_ne_nil hne
    rw [List.length_append, List.length_append]
    refine ⟨fun t ht => ?_, List.pairwise_cons.2 ⟨fun u hu => le_start u hu, ih.2⟩⟩
    rcases List.mem_cons.1 ht with rfl | ht
    · simp only [Token.start, Token.stop, Token.text]
      omega
    · have := ih.1 t ht
      omega

theorem length_tokens_le (a : ℕ) (r : List Byte) : (tokens a r).length ≤ r.length := by
  induction a, r using tokens_induct with
  | nil a g hg => exact Nat.zero_le _
  | symbol a g c r hg hs ih =>
    rw [List.length_append, List.length_cons, List.length_cons]
    omega
  | word a g w r hg hne hw hr ih =>
    have hlen := List.length_pos_of_ne_nil hne
    rw [List.length_append, List.length_append, List.length_cons]
    omega

theorem isSymbol_of_mem {b : ℕ} (a : ℕ) (r : List Byte) :
    Token.symbol b c ∈ tokens a r → isSymbol c = true := by
  induction a, r using tokens_induct with
  | nil a g hg => simp
  | symbol a g d r hg hs ih =>
    intro h
    rcases List.mem_cons.1 h with h | h
    · cases h
      exact hs
    · exact ih h
  | word a g w r hg hne hw hr ih =>
    intro h
    rcases List.mem_cons.1 h with h | h
    · cases h
    · exact ih h

end Tokens

/-! ## The line in memory -/

/-- `l` stands at `a`, with a NUL behind it and none inside. -/
def Text (m : Memory) (a : ℕ) (l : List Byte) : Prop :=
  0#8 ∉ l ∧ ∀ k ≤ l.length, m (a + k) = l.getD k 0#8

/-- The line at `s`, once the blanks and symbols in front of `e` have been passed. -/
def erased (m : Memory) (s e : ℕ) : Memory := fun x =>
  if s ≤ x ∧ x < e ∧ isWordChar (m x) = false then 0#8 else m x

section Line

variable {m : Memory} {a s e fuel : ℕ} {c : Byte} {g w r : List Byte} {p1 p2 : Option ℕ}

theorem Text.head (h : Text m a (c :: r)) : m a = c := h.2 0 (Nat.zero_le _)

theorem Text.end (h : Text m a []) : m a = 0#8 := h.2 0 (Nat.zero_le _)

theorem Text.tail (h : Text m a (c :: r)) : Text m (a + 1) r := by
  refine ⟨fun h0 => h.1 (List.mem_cons_of_mem _ h0), fun k hk => ?_⟩
  have := h.2 (k + 1) (by simpa using hk)
  rw [show a + 1 + k = a + (k + 1) by omega, this, List.getD_cons_succ]

theorem Text.drop (h : Text m a (g ++ r)) : Text m (a + g.length) r := by
  induction g generalizing a with
  | nil => exact h
  | cons c g ih =>
    have := ih h.tail
    rwa [List.length_cons, show a + (g.length + 1) = a + 1 + g.length by omega]

/-- A character is not erased before it is passed. -/
theorem erased_of_le (h : e ≤ a) : erased m s e a = m a := if_neg (by omega)

theorem erased_of_isWordChar (h : isWordChar (m a) = true) : erased m s e a = m a :=
  if_neg (by simp [h])

theorem erased_self (m : Memory) (s : ℕ) : erased m s s = m := by
  funext x
  exact if_neg (by omega)

/-- Passing a blank or a symbol. -/
theorem update_erased (hs : s ≤ a) (hc : isWordChar (m a) = false) :
    Function.update (erased m s a) a 0#8 = erased m s (a + 1) := by
  funext x
  by_cases hx : x = a
  · subst hx
    rw [Function.update_self, erased, if_pos ⟨hs, Nat.lt_succ_self x, hc⟩]
  · have hiff : x < a ↔ x < a + 1 := by omega
    rw [Function.update_of_ne hx]
    simp only [erased, hiff]

/-- Passing a character of a word. -/
theorem erased_succ (hc : isWordChar (m a) = true) : erased m s (a + 1) = erased m s a := by
  funext x
  by_cases hx : x = a
  · subst hx
    rw [erased_of_isWordChar hc, erased_of_isWordChar hc]
  · have hiff : x < a + 1 ↔ x < a := by omega
    simp only [erased, hiff]

theorem isWordChar_of_isBlank (h : isBlank c = true) : isWordChar c = false := by
  rw [isWordChar, h]
  rfl

theorem isWordChar_of_isSymbol (h : isSymbol c = true) : isWordChar c = false := by
  rw [isWordChar, h]
  simp

/-- What stops the blanks: the end of the line, or another character. -/
theorem Text.not_isBlank (h : Text m a r) (hr : ∀ c ∈ r.head?, isBlank c = false) :
    isBlank (m a) = false := by
  cases r with
  | nil => rw [h.end]; rfl
  | cons c r => rw [h.head]; exact hr c rfl

/-- The loop over the blanks. -/
theorem skipBlanks_spec (h : Text m a (g ++ r)) (hs : s ≤ a) (hg : ∀ c ∈ g, isBlank c = true)
    (hr : ∀ c ∈ r.head?, isBlank c = false) (hfuel : g.length < fuel) :
    skipBlanks fuel a (erased m s a) = some (a + g.length, erased m s (a + g.length)) := by
  induction g generalizing a fuel with
  | nil =>
    obtain ⟨f, rfl⟩ : ∃ f, fuel = f + 1 := ⟨fuel - 1, by simp at hfuel; omega⟩
    have hstop : strchr whitespace (m a) = false := Text.not_isBlank h hr
    rw [skipBlanks, erased_of_le le_rfl, hstop, if_neg Bool.false_ne_true]
    rfl
  | cons c g ih =>
    rw [List.length_cons] at hfuel
    obtain ⟨f, rfl⟩ : ∃ f, fuel = f + 1 := ⟨fuel - 1, by omega⟩
    have hc : isBlank (m a) = true := by
      rw [Text.head h]
      exact hg c List.mem_cons_self
    have hgo : strchr whitespace (m a) = true := hc
    rw [skipBlanks, erased_of_le le_rfl, hgo, if_pos rfl,
      update_erased hs (isWordChar_of_isBlank hc),
      ih (Text.tail h) (by omega) (fun x hx => hg x (List.mem_cons_of_mem _ hx)) (by omega),
      List.length_cons, show a + (g.length + 1) = a + 1 + g.length by omega]

/-- What stops a word: the end of the line, or a blank or symbol. -/
theorem Text.word_stops (h : Text m a r) (hr : Ends r) :
    m a = 0#8 ∨ isWordChar (m a) = false := by
  cases r with
  | nil => exact .inl h.end
  | cons c r => rw [h.head]; exact .inr (hr c rfl)

/-- The loop over a word, which changes nothing. -/
theorem skipWord_spec (h : Text m a (w ++ r)) (hw : ∀ c ∈ w, isWordChar c = true) (hr : Ends r)
    (hfuel : w.length < fuel) (hle : e ≤ a) :
    skipWord fuel a (erased m s e) = some (a + w.length) := by
  induction w generalizing a fuel with
  | nil =>
    obtain ⟨f, rfl⟩ : ∃ f, fuel = f + 1 := ⟨fuel - 1, by simp at hfuel; omega⟩
    rw [skipWord, erased_of_le hle, strchr_append, if_neg]
    · rfl
    · rintro ⟨hne, hc⟩
      rcases Text.word_stops h hr with h0 | hword
      · exact hne h0
      · rw [hword] at hc
        cases hc
  | cons c w ih =>
    rw [List.length_cons] at hfuel
    obtain ⟨f, rfl⟩ : ∃ f, fuel = f + 1 := ⟨fuel - 1, by omega⟩
    have hhead := Text.head h
    have hne : c ≠ 0#8 := by
      rintro rfl
      exact h.1 (by simp)
    have hw' : ∀ x ∈ w, isWordChar x = true := fun x hx => hw x (List.mem_cons_of_mem _ hx)
    rw [skipWord, erased_of_le hle, hhead, strchr_append, hw c List.mem_cons_self,
      if_pos ⟨hne, rfl⟩, ih (Text.tail h) hw' (by omega) (by omega), List.length_cons,
      show a + (w.length + 1) = a + 1 + w.length by omega]

/-- Passing a word changes nothing. -/
theorem erased_word (h : Text m a (w ++ r)) (hw : ∀ c ∈ w, isWordChar c = true) :
    erased m s (a + w.length) = erased m s a := by
  induction w generalizing a with
  | nil => rfl
  | cons c w ih =>
    have hc : isWordChar (m a) = true := by
      rw [Text.head h]
      exact hw c List.mem_cons_self
    rw [List.length_cons, show a + (w.length + 1) = a + 1 + w.length by omega,
      ih (Text.tail h) (fun x hx => hw x (List.mem_cons_of_mem _ hx)), erased_succ hc]

end Line

/-- Memory with nothing but the line `l` at `a`. -/
def lineAt (a : ℕ) (l : List Byte) : Memory := Memory.put (fun _ => 0#8) a l

theorem text_lineAt {l : List Byte} (h : 0#8 ∉ l) (a : ℕ) : Text (lineAt a l) a l := by
  refine ⟨h, fun k hk => ?_⟩
  rw [lineAt, Memory.put, Nat.add_sub_cancel_left]
  split_ifs with hin
  · rfl
  · exact (List.getD_eq_default _ _ (by omega)).symm

/-! ## One scan -/

/-- What a scan gives that finds the first of the tokens `ts`. -/
def found (ts : List Token) (m : Memory) : Scan :=
  match ts with
  | [] => ⟨0#8, none, none, m⟩
  | t :: _ => ⟨t.id, some t.start, some t.stop, m⟩

/-- How far that scan goes, in a line that ends at `e`. -/
def reach (e : ℕ) : List Token → ℕ
  | [] => e
  | t :: _ => t.stop

/-- The tokens behind the first one are those of the rest of the line. -/
def Rest (m : Memory) (e : ℕ) (ts : List Token) : Prop :=
  ∀ t ts', ts = t :: ts' → ∃ r, Text m t.stop r ∧ t.stop + r.length = e ∧ ts' = tokens t.stop r

/-- A scan from `a` finds the first token of the line there. -/
theorem scan_spec (m : Memory) (s fuel : ℕ) (p1 p2 : Option ℕ) (a : ℕ) (r : List Byte) :
    Text m a r → s ≤ a → r.length < fuel →
      scanToken fuel (some a) p1 p2 (erased m s a) =
        some (found (tokens a r) (erased m s (reach (a + r.length) (tokens a r)))) ∧
      Rest m (a + r.length) (tokens a r) := by
  induction a, r using tokens_induct with
  | nil a g hg =>
    intro h hs hfuel
    rw [← List.append_nil g] at h
    have hend := (Text.drop h).end
    refine ⟨?_, fun t ts' hts => by cases hts⟩
    rw [scanToken, skipBlanks_spec h hs hg (by simp) hfuel]
    simp only [Option.bind_eq_bind, Option.bind_some, erased_of_le le_rfl, hend, if_pos]
    rfl
  | symbol a g c r hg hsym _ =>
    intro h hs hfuel
    have hrest := Text.drop h
    have hb : isBlank c = false := by
      by_contra hb
      rw [isSymbol_of_isBlank (Bool.not_eq_false _ ▸ hb)] at hsym
      cases hsym
    have hc : m (a + g.length) = c := hrest.head
    have hne : c ≠ 0#8 := by
      rintro rfl
      exact h.1 (by simp)
    have hsym' : strchr symbols c = true := hsym
    rw [List.length_append, List.length_cons] at hfuel
    constructor
    · rw [scanToken, skipBlanks_spec h hs hg (by simpa using hb) (by omega)]
      simp only [Option.bind_eq_bind, Option.bind_some, erased_of_le le_rfl, hc, if_neg hne,
        hsym', if_pos]
      rw [update_erased (by omega) (by rw [hc]; exact isWordChar_of_isSymbol hsym)]
      rfl
    · rintro t ts' hts
      cases hts
      refine ⟨r, hrest.tail, ?_, rfl⟩
      rw [List.length_append, List.length_cons]
      simp only [Token.stop, Token.start, Token.text, List.length_singleton]
      omega
  | word a g w r hg hne hw hr _ =>
    intro h hs hfuel
    have hrest := Text.drop h
    obtain ⟨c, w', rfl⟩ := List.exists_cons_of_ne_nil hne
    have hc : m (a + g.length) = c := hrest.head
    obtain ⟨hb, hsym⟩ := isWordChar_eq_true.1 (hw c List.mem_cons_self)
    have hne0 : c ≠ 0#8 := by
      rintro rfl
      exact h.1 (by simp)
    have hsym' : strchr symbols c = false := hsym
    rw [List.length_append, List.length_append] at hfuel
    constructor
    · rw [scanToken, skipBlanks_spec h hs hg (by simpa using hb) (by omega)]
      simp only [Option.bind_eq_bind, Option.bind_some, erased_of_le le_rfl, hc, if_neg hne0,
        hsym', if_neg Bool.false_ne_true]
      rw [skipWord_spec hrest hw hr (by omega) le_rfl]
      simp only [Option.bind_some]
      rw [← erased_word hrest hw]
      rfl
    · rintro t ts' hts
      cases hts
      refine ⟨r, hrest.drop, ?_, rfl⟩
      rw [List.length_append, List.length_append]
      simp only [Token.stop, Token.start, Token.text]
      omega

/-! ## The calls -/

/-- Between two calls, `ts` are the tokens still to be returned: the first of them has been
found, and nothing behind it has been touched. -/
structure Ahead (m : Memory) (s e : ℕ) (ts : List Token) (st : Statics) : Prop where
  scan : (⟨st.nc, st.np1, st.np2, st.mem⟩ : Scan) = found ts (erased m s (reach e ts))
  rest : Rest m e ts
  le : ∀ t ∈ ts, s ≤ t.start

/-- What a call returns for the first token, and 0 and a null pointer if there is none. -/
def answer : Option Token → Byte × Option ℕ
  | none => (0#8, none)
  | some t => (t.id, some t.start)

/-- The call number `n` after `gettoken(s, 0)`, from 0 on. -/
def nthCall (fuel : ℕ) (st : Statics) : ℕ → Option ((Byte × Option ℕ) × Statics)
  | 0 => gettoken fuel st
  | n + 1 => do
      let (_, st') ← nthCall fuel st n
      gettoken fuel st'

section Calls

variable {m : Memory} {s e fuel : ℕ} {l : List Byte} {ts : List Token} {st : Statics}

theorem Ahead.mem (h : Ahead m s e ts st) : st.mem = erased m s (reach e ts) := by
  have := congrArg Scan.mem h.scan
  cases ts <;> exact this

theorem Ahead.answer (h : Ahead m s e ts st) : (st.nc, st.np1) = answer ts.head? := by
  have hc := congrArg Scan.token h.scan
  have hp := congrArg Scan.p1 h.scan
  cases ts <;> exact Prod.ext hc hp

theorem gettokenInit_ahead (h : Text st.mem s l) (hfuel : l.length < fuel) :
    ∃ st₀, gettokenInit fuel s st = some st₀ ∧
      Ahead st.mem s (s + l.length) (tokens s l) st₀ := by
  obtain ⟨hscan, hrest⟩ := scan_spec st.mem s fuel st.np1 st.np2 s l h le_rfl hfuel
  rw [erased_self] at hscan
  refine ⟨_, by rw [gettokenInit, hscan]; rfl, ?_, hrest, fun t ht => le_start t ht⟩
  rfl

/-- A call returns the token that was ahead and finds the next one. -/
theorem gettoken_step (h : Ahead m s e ts st) (hfuel : e - s < fuel) :
    ∃ st', gettoken fuel st = some (Sh.answer ts.head?, st') ∧ Ahead m s e ts.tail st' := by
  rw [← h.answer]
  have hp2 := congrArg Scan.p2 h.scan
  have hmem := h.mem
  cases ts with
  | nil =>
    -- nothing is left, and the pointer is null
    have hnone : st.np2 = none := hp2
    refine ⟨_, by rw [gettoken, hnone]; rfl, ?_, h.rest, h.le⟩
    have hscan := h.scan
    rw [hnone] at hscan
    have hc := congrArg Scan.token hscan
    have hp := congrArg Scan.p1 hscan
    simp only [found] at hc hp
    simp only [Statics.look, found, List.tail_nil, hp, hmem]
  | cons t ts =>
    obtain ⟨r, htext, hend, rfl⟩ := h.rest t ts rfl
    have hsome : st.np2 = some t.stop := hp2
    have hle : s ≤ t.start := h.le t List.mem_cons_self
    have hstop : t.start ≤ t.stop := Nat.le_add_right _ _
    obtain ⟨hscan, hrest⟩ := scan_spec m s fuel st.np1 (some t.stop) t.stop r htext
      (by omega) (by omega)
    have hmem' : st.mem = erased m s t.stop := hmem
    rw [← hmem', hend] at hscan
    rw [hend] at hrest
    refine ⟨_, by rw [gettoken, hsome]; simp only [hscan]; rfl, rfl, hrest, fun u hu => ?_⟩
    exact hle.trans (hstop.trans (le_start u hu))

/-- All calls. -/
theorem nthCall_ahead (h : Ahead m s e ts st) (hfuel : e - s < fuel) (n : ℕ) :
    ∃ st', nthCall fuel st n = some (Sh.answer ts[n]?, st') ∧
      Ahead m s e (ts.drop (n + 1)) st' := by
  induction n with
  | zero =>
    obtain ⟨st', hcall, hst'⟩ := gettoken_step h hfuel
    rw [← List.head?_eq_getElem?, List.drop_one]
    exact ⟨st', hcall, hst'⟩
  | succ n ih =>
    obtain ⟨st₁, hcall, hst₁⟩ := ih
    obtain ⟨st', hnext, hst'⟩ := gettoken_step hst₁ hfuel
    rw [List.head?_drop] at hnext
    rw [List.tail_drop] at hst'
    refine ⟨st', ?_, hst'⟩
    rw [nthCall, hcall]
    exact hnext

end Calls

/-! ## What is left of the line -/

def Token.isWord : Token → Bool
  | word _ _ => true
  | symbol _ _ => false

/-- The characters of the token are where they were. -/
def Intact (m : Memory) (t : Token) : Prop :=
  ∀ k < t.text.length, m (t.start + k) = t.text.getD k 0#8

/-- A token in a line that has not been touched. -/
structure Placed (m : Memory) (e : ℕ) (t : Token) : Prop where
  intact : Intact m t
  word : t.isWord = true → ∀ k < t.text.length, isWordChar (m (t.start + k)) = true
  nonzero : 0#8 ∉ t.text
  behind : t.isWord = true → m t.stop = 0#8 ∨ isWordChar (m t.stop) = false ∧ t.stop < e

section Left

variable {m : Memory} {a s e n : ℕ} {r : List Byte} {t : Token}

theorem Text.intact {g w : List Byte} (h : Text m a (g ++ (w ++ r))) :
    ∀ k < w.length, m (a + g.length + k) = w.getD k 0#8 := by
  intro k hk
  have := (Text.drop h).2 k (by rw [List.length_append]; omega)
  rw [this, List.getD_append _ _ _ _ hk]

theorem tokens_placed (m : Memory) (e a : ℕ) (r : List Byte) :
    Text m a r → a + r.length = e → ∀ t ∈ tokens a r, Placed m e t := by
  induction a, r using tokens_induct with
  | nil a g hg => simp
  | symbol a g c r hg hsym ih =>
    intro h he t ht
    rw [List.length_append, List.length_cons] at he
    rcases List.mem_cons.1 ht with rfl | ht
    · have hin : Text m a (g ++ ([c] ++ r)) := h
      refine ⟨hin.intact, nofun, ?_, nofun⟩
      intro h0
      exact h.1 (by rw [← List.mem_singleton.1 h0]; simp)
    · exact ih (Text.drop h).tail (by omega) t ht
  | word a g w r hg hne hw hr ih =>
    intro h he t ht
    have hlen := List.length_pos_of_ne_nil hne
    have hrest := Text.drop (Text.drop h)
    rw [List.length_append, List.length_append] at he
    rcases List.mem_cons.1 ht with rfl | ht
    · have hin := Text.intact h
      refine ⟨hin, fun _ k hk => ?_, fun h0 => h.1 (by simp [show 0#8 ∈ w from h0]), fun _ => ?_⟩
      · have hk' : k < w.length := hk
        have hchar : m (a + g.length + k) = w.getD k 0#8 := hin k hk'
        rw [List.getD_eq_getElem _ _ hk'] at hchar
        exact hchar ▸ hw _ (List.getElem_mem hk')
      · rcases Text.word_stops hrest hr with h0 | hsep
        · exact .inl h0
        · refine .inr ⟨hsep, ?_⟩
          rcases r with _ | ⟨d, r⟩
          · rw [hrest.end] at hsep
            exact absurd hsep (by decide)
          · rw [List.length_cons] at he
            simp only [Token.stop, Token.start, Token.text]
            omega
    · exact ih hrest (by omega) t ht

/-- A word stays as it is. -/
theorem Placed.intact_erased (h : Placed m e t) (hword : t.isWord = true) (e' : ℕ) :
    Intact (erased m s e') t := by
  intro k hk
  rw [erased_of_isWordChar (h.word hword k hk), h.intact k hk]

/-- It has a NUL behind it once the scan has gone on. -/
theorem Placed.text_erased (h : Placed m e t) (hword : t.isWord = true) (hs : s ≤ t.start)
    {e' : ℕ} (hgone : t.stop < e' ∨ e' = e) : Text (erased m s e') t.start t.text := by
  refine ⟨h.nonzero, fun k hk => ?_⟩
  rcases hk.lt_or_eq with hk | rfl
  · exact h.intact_erased hword e' k hk
  · rw [List.getD_eq_default _ _ le_rfl]
    have hstop : t.start ≤ t.stop := Nat.le_add_right _ _
    show erased m s e' t.stop = 0#8
    rcases h.behind hword with h0 | ⟨hsep, hlt⟩
    · unfold erased
      split_ifs
      · rfl
      · exact h0
    · exact if_pos ⟨hs.trans hstop, by omega, hsep⟩

/-- Nothing behind the point the scan has reached is touched. -/
theorem Placed.intact_of_le (h : Placed m e t) {e' : ℕ} (hle : e' ≤ t.start) :
    Intact (erased m s e') t := by
  intro k hk
  rw [erased_of_le (by omega), h.intact k hk]

/-- A word that has been returned is in memory, with a NUL behind it. -/
theorem Ahead.text_done {ts done : List Token} {st : Statics}
    (hst : Ahead m s (s + r.length) ts st) (h : Text m s r) (hall : done ++ ts = tokens s r)
    (ht : t ∈ done) (hword : t.isWord = true) : Text st.mem t.start t.text := by
  obtain ⟨hrange, hsorted⟩ := tokens_sorted s r
  rw [← hall] at hrange hsorted
  have hmem : t ∈ tokens s r := hall ▸ List.mem_append_left _ ht
  rw [hst.mem]
  refine (tokens_placed m _ s r h rfl t hmem).text_erased hword
    (hrange t (List.mem_append_left _ ht)).1 ?_
  -- the scan has gone past the token, or to the end of the line
  cases ts with
  | nil => exact .inr rfl
  | cons u us =>
    have hle := (List.pairwise_append.1 hsorted).2.2 t ht u List.mem_cons_self
    have hpos := (hrange u (by simp)).2.1
    exact .inl (hle.trans_lt hpos)

/-- A symbol that comes next has been passed: it is kept in `nc`, and a NUL stands in its place. -/
theorem Ahead.symbol {c : Byte} {ts : List Token} {st : Statics} (h : Ahead m s e ts st)
    (hnext : ts.head? = some (.symbol a c)) (hc : isWordChar (m a) = false) :
    st.mem a = 0#8 ∧ st.nc = c := by
  obtain ⟨us, rfl⟩ : ∃ us, ts = .symbol a c :: us := List.head?_eq_some_iff.1 hnext
  refine ⟨?_, congrArg Prod.fst h.answer⟩
  rw [h.mem]
  exact if_pos ⟨h.le _ List.mem_cons_self, Nat.lt_succ_self a, hc⟩

end Left

/-- **The tokenizer.**  The calls return the tokens of the line one after the other, and then
0 for ever.  A word that has been returned is NUL-terminated at its place, no word is ever
changed, and neither is any token behind the next one; if that is a symbol, its character has
been overwritten already, and is kept in `nc`. -/
theorem gettoken_tokens {fuel s : ℕ} {l : List Byte} {st : Statics} (h : Text st.mem s l)
    (hfuel : l.length < fuel) :
    ∃ st₀, gettokenInit fuel s st = some st₀ ∧
      ∀ n, ∃ st', nthCall fuel st₀ n = some (answer (tokens s l)[n]?, st') ∧
        (∀ t ∈ (tokens s l).take (n + 1), t.isWord = true → Text st'.mem t.start t.text) ∧
        (∀ t ∈ (tokens s l).drop (n + 1), t.isWord = true → Intact st'.mem t) ∧
        (∀ a c, (tokens s l)[n + 1]? = some (.symbol a c) → st'.mem a = 0#8 ∧ st'.nc = c) ∧
        ∀ t ∈ (tokens s l).drop (n + 2), Intact st'.mem t := by
  obtain ⟨st₀, hinit, hst₀⟩ := gettokenInit_ahead h hfuel
  refine ⟨st₀, hinit, fun n => ?_⟩
  have hlen : s + l.length - s < fuel := by omega
  obtain ⟨st', hcall, hst'⟩ := nthCall_ahead hst₀ hlen n
  have hplaced := tokens_placed st.mem (s + l.length) s l h rfl
  obtain ⟨hrange, hsorted⟩ := tokens_sorted s l
  refine ⟨st', hcall, fun t ht hword => ?_, fun t ht hword => ?_, fun a c hnext => ?_,
    fun t ht => ?_⟩
  · exact hst'.text_done h (List.take_append_drop (n + 1) _) ht hword
  · rw [hst'.mem]
    exact (hplaced t (List.mem_of_mem_drop ht)).intact_erased hword _
  · have hmem := List.mem_of_getElem? hnext
    have hc : st.mem a = c := (hplaced _ hmem).intact 0 Nat.one_pos
    refine hst'.symbol (List.head?_drop.trans hnext) ?_
    rw [hc]
    exact isWordChar_of_isSymbol (isSymbol_of_mem s l hmem)
  · rw [hst'.mem]
    refine (hplaced t (List.mem_of_mem_drop ht)).intact_of_le ?_
    rw [show n + 2 = n + 1 + 1 from rfl, ← List.tail_drop] at ht
    rcases hdrop : (tokens s l).drop (n + 1) with _ | ⟨u, us⟩
    · rw [hdrop] at ht
      cases ht
    · rw [hdrop] at ht
      have hpair := hsorted.drop (i := n + 1)
      rw [hdrop] at hpair
      exact (List.pairwise_cons.1 hpair).1 t ht

/-- The line `a|` at address 16, before the first call. -/
def pipeLine : Statics := ⟨0#8, 0#8, none, none, lineAt 16 [0x61#8, 0x7C#8]⟩

theorem text_pipeLine : Text pipeLine.mem 16 [0x61#8, 0x7C#8] := text_lineAt (by decide) 16

theorem gettoken_tokens_pipeLine :
    Text pipeLine.mem 16 [0x61#8, 0x7C#8] ∧ ∃ st₀, gettokenInit 3 16 pipeLine = some st₀ ∧
      ∀ n, ∃ st', nthCall 3 st₀ n =
          some (answer (tokens 16 [0x61#8, 0x7C#8])[n]?, st') ∧
        (∀ t ∈ (tokens 16 [0x61#8, 0x7C#8]).take (n + 1), t.isWord = true →
          Text st'.mem t.start t.text) ∧
        (∀ t ∈ (tokens 16 [0x61#8, 0x7C#8]).drop (n + 1), t.isWord = true → Intact st'.mem t) ∧
        (∀ a c, (tokens 16 [0x61#8, 0x7C#8])[n + 1]? = some (.symbol a c) →
          st'.mem a = 0#8 ∧ st'.nc = c) ∧
        ∀ t ∈ (tokens 16 [0x61#8, 0x7C#8]).drop (n + 2), Intact st'.mem t :=
  ⟨text_pipeLine, gettoken_tokens text_pipeLine (by decide)⟩

/-- When the word of `a|` is returned, the symbol behind it is yet to be returned, but its
character has been overwritten. -/
theorem gettoken_overwrites_symbol :
    Text pipeLine.mem 16 [0x61#8, 0x7C#8] ∧
      tokens 16 [0x61#8, 0x7C#8] = [.word 16 [0x61#8], .symbol 17 0x7C#8] ∧
      ∃ st₀ st', gettokenInit 3 16 pipeLine = some st₀ ∧
        nthCall 3 st₀ 0 = some ((WORD, some 16), st') ∧ ¬ Intact st'.mem (.symbol 17 0x7C#8) := by
  refine ⟨text_pipeLine, by decide, _, _, rfl, rfl, fun h => ?_⟩
  exact absurd (h 0 (by decide)) (by decide)

end Jos.Sh
