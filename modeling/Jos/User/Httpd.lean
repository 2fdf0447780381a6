import Mathlib.Data.List.TakeWhile
import Mathlib.Tactic

/-!
# Requests to the web server

`http_request_parse` of `user/httpd.c`, on what `handle_client` has received.  The buffer lies on
the stack; behind the bytes received there is what was there before, and in the end the top of the
stack, where a read faults.  Nobody writes a NUL behind the bytes received.

* `strncmp`, `scan` — the loops that read, with the places they read at.
* `strncmp_spec`, `scan_spec` — they stay inside the bytes received if these settle the comparison,
  or hold the end of the word, and read the first byte behind them otherwise.
* `handleClient_iff` — the requests that are parsed without reading on.
-/

namespace Jos.Httpd

abbrev Byte := BitVec 8

def BUFFSIZE : ℕ := 512

/-- How the parser ends: it rejects the request, it has copied the words into memory of their own,
or it faults, at the top of the stack or because there was no memory for a copy. -/
inductive Outcome
  | badReq
  | parsed (url version : List Byte)
  | fault
  deriving DecidableEq

/-- `strncmp` of memory from place `i` on with the string `q`: the places read, and whether the two
are equal, unless it faults. -/
def strncmp : List Byte → ℕ → List Byte → List ℕ × Option Bool
  | [], _, _ => ([], some true)
  | _ :: _, i, [] => ([i], none)
  | q :: qs, i, b :: mem =>
    if b ≠ 0#8 ∧ b = q then (i :: (strncmp qs (i + 1) mem).1, (strncmp qs (i + 1) mem).2)
    else ([i], some (b = q))

/-- The loops go on at this character. -/
def goes (stop b : Byte) : Bool := b ≠ 0#8 && b ≠ stop

/-- `while (*request && *request != stop) request++`, from place `i` on: the places read, and the
length of the word, unless it faults. -/
def scan (stop : Byte) : ℕ → List Byte → List ℕ × Option ℕ
  | i, [] => ([i], none)
  | i, b :: mem =>
    if goes stop b then (i :: (scan stop (i + 1) mem).1, (scan stop (i + 1) mem).2.map (· + 1))
    else ([i], some 0)

/-- `malloc`, `memmove` and the NUL: the copy of a word. -/
def copyWord (ok : Bool) (word : List Byte) : Option (List Byte) :=
  if ok then some (word ++ [0#8]) else none

/-- `"GET "`. -/
def GET : List Byte := [0x47#8, 0x45#8, 0x54#8, 0x20#8]

/-- From "skip space" on, where the URL ends at place `e`. -/
def parseVersion (m : Bool) (mem url : List Byte) (e : ℕ) : List ℕ × Outcome :=
  let r := scan 0x0A#8 (e + 1) (mem.drop (e + 1))
  match r.2 with
  | none => (r.1, .fault)
  | some n =>
    match copyWord m ((mem.drop (e + 1)).take n) with
    | none => (r.1, .fault)
    | some version => (r.1 ++ List.range' (e + 1) n, .parsed url version)

/-- From "get the url" on. -/
def parseUrl (m₁ m₂ : Bool) (mem : List Byte) : List ℕ × Outcome :=
  let r := scan 0x20#8 4 (mem.drop 4)
  match r.2 with
  | none => (r.1, .fault)
  | some n =>
    match copyWord m₁ ((mem.drop 4).take n) with
    | none => (r.1, .fault)
    | some url =>
      let v := parseVersion m₂ mem url (4 + n)
      (r.1 ++ List.range' 4 n ++ v.1, v.2)

/-- `http_request_parse` of memory from `request` on: the places read, and the outcome.  `m₁` and
`m₂` are whether the two calls of `malloc` succeed. -/
def httpRequestParse (m₁ m₂ : Bool) (mem : List Byte) : List ℕ × Outcome :=
  let r := strncmp GET 0 mem
  match r.2 with
  | none => (r.1, .fault)
  | some false => (r.1, .badReq)
  | some true => (r.1 ++ (parseUrl m₁ m₂ mem).1, (parseUrl m₁ m₂ mem).2)

/-- `handle_client`: the request was received into the buffer, in front of what lay there. -/
def handleClient (m₁ m₂ : Bool) (received stale : List Byte) : List ℕ × Outcome :=
  httpRequestParse m₁ m₂ (received ++ stale)

/-! ## What should happen -/

/-- The URL of a request, and its version. -/
def url (r : List Byte) : List Byte := (r.drop 4).takeWhile (goes 0x20#8)

def afterUrl (r : List Byte) : List Byte := r.drop (4 + (url r).length + 1)

def version (r : List Byte) : List Byte := (afterUrl r).takeWhile (goes 0x0A#8)

/-- Only what was received is read, and what is parsed is the URL and the version. -/
def ReadsReceived (m₁ m₂ : Bool) (received stale : List Byte) : Prop :=
  (∀ i ∈ (handleClient m₁ m₂ received stale).1, i < received.length) ∧
    ∀ u v, (handleClient m₁ m₂ received stale).2 = .parsed u v →
      u = url received ++ [0#8] ∧ v = version received ++ [0#8]

/-- The bytes received settle the parse: they differ from `"GET "`, or they go on with a URL that
ends in them and, if there is memory for it, a version that does. -/
def Settles (m₁ : Bool) (r : List Byte) : Prop :=
  ¬ r.take 4 <+: GET ∨
    GET <+: r ∧ (url r).length < (r.drop 4).length ∧
      (m₁ = true → (version r).length < (afterUrl r).length)

/-! ## The loops -/

/-- Either the word ends in the bytes received, or the loop reads the first byte behind them. -/
theorem scan_spec (stop : Byte) (l stale : List Byte) (i : ℕ) :
    ((l.takeWhile (goes stop)).length < l.length ∧
      scan stop i (l ++ stale) = (List.range' i ((l.takeWhile (goes stop)).length + 1),
        some (l.takeWhile (goes stop)).length)) ∨
    (¬ (l.takeWhile (goes stop)).length < l.length ∧ i + l.length ∈ (scan stop i (l ++ stale)).1) := by
  induction l generalizing i with
  | nil =>
    refine Or.inr ⟨by simp, ?_⟩
    cases stale with
    | nil => simp [scan]
    | cons b stale =>
      rw [List.nil_append, scan]
      split <;> simp
  | cons b l ih =>
    rw [List.cons_append, scan]
    by_cases hb : goes stop b
    · rw [if_pos hb, List.takeWhile_cons_of_pos hb, List.length_cons, List.length_cons]
      obtain ⟨hlt, hscan⟩ | ⟨hge, hmem⟩ := ih (i + 1)
      · refine Or.inl ⟨by omega, ?_⟩
        rw [hscan]
        rfl
      · refine Or.inr ⟨by omega, List.mem_cons_of_mem _ ?_⟩
        rwa [Nat.add_right_comm, Nat.add_assoc] at hmem
    · rw [if_neg hb, List.takeWhile_cons_of_neg hb]
      exact Or.inl ⟨Nat.succ_pos _, rfl⟩

/-- The comparison is settled by the bytes received, either way, or it reads the first byte behind
them. -/
theorem strncmp_spec (q : List Byte) (hq : 0#8 ∉ q) (l stale : List Byte) (i : ℕ) :
    (¬ l.take q.length <+: q ∧ (strncmp q i (l ++ stale)).2 = some false ∧
      ∀ j ∈ (strncmp q i (l ++ stale)).1, j < i + l.length) ∨
    (q <+: l ∧ (strncmp q i (l ++ stale)).2 = some true ∧
      ∀ j ∈ (strncmp q i (l ++ stale)).1, j < i + l.length) ∨
    (l.take q.length <+: q ∧ ¬ q <+: l ∧ i + l.length ∈ (strncmp q i (l ++ stale)).1) := by
  induction q generalizing l i with
  | nil => exact Or.inr (Or.inl ⟨List.nil_prefix, rfl, by simp [strncmp]⟩)
  | cons q qs ih =>
    obtain ⟨hq0, hqs⟩ : 0#8 ≠ q ∧ 0#8 ∉ qs := by simpa using hq
    cases l with
    | nil =>
      refine Or.inr (Or.inr ⟨by simp, by simp, ?_⟩)
      cases stale with
      | nil => simp [strncmp]
      | cons b stale =>
        rw [List.nil_append, strncmp]
        split <;> simp
    | cons b l =>
      rw [List.cons_append, strncmp, List.length_cons, List.length_cons, List.take_succ_cons]
      by_cases hb : b = q
      · subst hb
        rw [if_pos ⟨hq0.symm, rfl⟩]
        simp only [List.prefix_cons_inj, List.mem_cons, forall_eq_or_imp]
        obtain ⟨hno, hres, hin⟩ | ⟨hyes, hres, hin⟩ | ⟨hpre, hshort, hmem⟩ := ih hqs l (i + 1)
        · exact Or.inl ⟨hno, hres, by omega, fun j hj => by have := hin j hj; omega⟩
        · exact Or.inr (Or.inl ⟨hyes, hres, by omega, fun j hj => by have := hin j hj; omega⟩)
        · refine Or.inr (Or.inr ⟨hpre, hshort, Or.inr ?_⟩)
          rwa [Nat.add_right_comm, Nat.add_assoc] at hmem
      · rw [if_neg fun h => hb h.2]
        refine Or.inl ⟨fun hpre => hb (List.cons_prefix_cons.1 hpre).1, by simp [hb], ?_⟩
        simp

/-- The loop stops on the word, which lies in the bytes received. -/
theorem scan_ends {stop : Byte} {l : List Byte} (stale : List Byte) (i : ℕ)
    (h : (l.takeWhile (goes stop)).length < l.length) :
    scan stop i (l ++ stale) = (List.range' i ((l.takeWhile (goes stop)).length + 1),
      some (l.takeWhile (goes stop)).length) :=
  ((scan_spec stop l stale i).resolve_right fun beyond => beyond.1 h).2

theorem scan_beyond {stop : Byte} {l : List Byte} (stale : List Byte) (i : ℕ)
    (h : ¬ (l.takeWhile (goes stop)).length < l.length) :
    i + l.length ∈ (scan stop i (l ++ stale)).1 :=
  ((scan_spec stop l stale i).resolve_left fun ends => h ends.1).2

theorem take_word (p : Byte → Bool) (l stale : List Byte) :
    (l ++ stale).take (l.takeWhile p).length = l.takeWhile p := by
  have hpre : l.takeWhile p <+: l ++ stale :=
    (List.takeWhile_prefix p).trans (List.prefix_append l stale)
  exact (List.prefix_iff_eq_take.1 hpre).symm

/-! ## The stages of the parser -/

section Stages

variable {r : List Byte} {e : ℕ}

theorem drop_received (h : e ≤ r.length) (stale : List Byte) :
    (r ++ stale).drop e = r.drop e ++ stale :=
  List.drop_append_of_le_length h

theorem parseVersion_within (m : Bool) (stale u : List Byte)
    (h : ((r.drop (e + 1)).takeWhile (goes 0x0A#8)).length < (r.drop (e + 1)).length) :
    (∀ i ∈ (parseVersion m (r ++ stale) u e).1, i < r.length) ∧
      ∀ u' v, (parseVersion m (r ++ stale) u e).2 = .parsed u' v →
        u' = u ∧ v = (r.drop (e + 1)).takeWhile (goes 0x0A#8) ++ [0#8] := by
  have hle : e + 1 ≤ r.length := by
    rw [List.length_drop] at h
    omega
  rw [parseVersion, drop_received hle, scan_ends stale (e + 1) h]
  simp only [take_word]
  rw [List.length_drop] at h
  generalize (r.drop (e + 1)).takeWhile (goes 0x0A#8) = word at h ⊢
  cases m with
  | false =>
    refine ⟨fun i hi => ?_, fun u' v hout => by simp [copyWord] at hout⟩
    have := List.mem_range'_1.1 hi
    omega
  | true =>
    refine ⟨fun i hi => ?_, fun u' v hout => ?_⟩
    · simp only [copyWord, if_true, List.mem_append, List.mem_range'_1] at hi
      omega
    · obtain ⟨hu, hv⟩ := Outcome.parsed.inj hout
      exact ⟨hu.symm, hv.symm⟩

theorem parseVersion_beyond (m : Bool) (stale u : List Byte) (hle : e + 1 ≤ r.length)
    (h : ¬ ((r.drop (e + 1)).takeWhile (goes 0x0A#8)).length < (r.drop (e + 1)).length) :
    r.length ∈ (parseVersion m (r ++ stale) u e).1 := by
  have hread := scan_beyond stale (e + 1) h
  rw [List.length_drop, Nat.add_sub_cancel' hle] at hread
  rw [parseVersion, drop_received hle]
  split
  · exact hread
  · split
    · exact hread
    · exact List.mem_append_left _ hread

theorem parseUrl_beyond (m₁ m₂ : Bool) (stale : List Byte) (hle : 4 ≤ r.length)
    (h : ¬ (url r).length < (r.drop 4).length) :
    r.length ∈ (parseUrl m₁ m₂ (r ++ stale)).1 := by
  have hread := scan_beyond stale 4 h
  rw [List.length_drop, Nat.add_sub_cancel' hle] at hread
  rw [parseUrl, drop_received hle]
  dsimp only
  split
  · exact hread
  · split
    · exact hread
    · exact List.mem_append_left _ (List.mem_append_left _ hread)

/-- Where the URL ends in the bytes received, its scan stays inside them and the version is
looked for behind it. -/
theorem parseUrl_ends (m₂ : Bool) (stale : List Byte) (hle : 4 ≤ r.length)
    (h : (url r).length < (r.drop 4).length) :
    parseUrl true m₂ (r ++ stale) =
      (List.range' 4 ((url r).length + 1) ++ List.range' 4 (url r).length ++
        (parseVersion m₂ (r ++ stale) (url r ++ [0#8]) (4 + (url r).length)).1,
        (parseVersion m₂ (r ++ stale) (url r ++ [0#8]) (4 + (url r).length)).2) := by
  rw [parseUrl, drop_received hle, scan_ends stale 4 h]
  simp only [take_word, copyWord, if_true]
  rfl

theorem parseUrl_noMemory (m₂ : Bool) (stale : List Byte) (hle : 4 ≤ r.length)
    (h : (url r).length < (r.drop 4).length) :
    parseUrl false m₂ (r ++ stale) = (List.range' 4 ((url r).length + 1), .fault) := by
  rw [parseUrl, drop_received hle, scan_ends stale 4 h]
  rfl

/-- What is read on behalf of `"GET "` requests stays inside the bytes received exactly if these
hold the ends of the words. -/
theorem parseUrl_iff (m₁ m₂ : Bool) (stale : List Byte) (hle : 4 ≤ r.length) :
    ((∀ i ∈ (parseUrl m₁ m₂ (r ++ stale)).1, i < r.length) ∧
      ∀ u v, (parseUrl m₁ m₂ (r ++ stale)).2 = .parsed u v →
        u = url r ++ [0#8] ∧ v = version r ++ [0#8]) ↔
      (url r).length < (r.drop 4).length ∧
        (m₁ = true → (version r).length < (afterUrl r).length) := by
  by_cases hurl : (url r).length < (r.drop 4).length
  · have hlen : (url r).length < r.length - 4 := by rwa [List.length_drop] at hurl
    cases m₁ with
    | false =>
      rw [parseUrl_noMemory m₂ stale hle hurl]
      refine ⟨fun _ => ⟨hurl, by simp⟩, fun _ => ⟨fun i hi => ?_, by simp⟩⟩
      have := List.mem_range'_1.1 hi
      omega
    | true =>
      rw [parseUrl_ends m₂ stale hle hurl]
      by_cases hver : (version r).length < (afterUrl r).length
      · obtain ⟨hreads, hwords⟩ :=
          parseVersion_within m₂ stale (url r ++ [0#8]) hver
        refine ⟨fun _ => ⟨hurl, fun _ => hver⟩, fun _ => ⟨fun i hi => ?_, hwords⟩⟩
        simp only [List.mem_append, List.mem_range'_1] at hi
        obtain (hi | hi) | hi := hi
        · omega
        · omega
        · exact hreads i hi
      · have hread := parseVersion_beyond m₂ stale (url r ++ [0#8]) (by omega) hver
        refine ⟨fun ok => absurd (ok.1 _ (List.mem_append_right _ hread)) (by omega), ?_⟩
        exact fun ok => absurd (ok.2 rfl) hver
  · have hread := parseUrl_beyond m₁ m₂ stale hle hurl
    exact ⟨fun ok => absurd (ok.1 _ hread) (by omega), fun ok => absurd ok.1 hurl⟩

end Stages

/-! ## Requests -/

/-- Exactly the requests that settle the parse by themselves are parsed without reading on. -/
theorem handleClient_iff (m₁ m₂ : Bool) (received stale : List Byte) :
    ReadsReceived m₁ m₂ received stale ↔ Settles m₁ received := by
  unfold ReadsReceived Settles handleClient httpRequestParse
  obtain ⟨hno, hres, hin⟩ | ⟨hyes, hres, hin⟩ | ⟨hpre, hshort, hmem⟩ :=
    strncmp_spec GET (by decide) received stale 0
  · simp only [hres]
    rw [Nat.zero_add] at hin
    exact ⟨fun _ => Or.inl hno, fun _ => ⟨hin, by simp⟩⟩
  · simp only [hres, List.mem_append]
    rw [Nat.zero_add] at hin
    have hle : 4 ≤ received.length := hyes.length_le
    have htake : received.take 4 <+: GET := by
      show received.take GET.length <+: GET
      rw [← List.prefix_iff_eq_take.1 hyes]
    have hurl := parseUrl_iff m₁ m₂ stale hle
    constructor
    · intro ok
      exact Or.inr ⟨hyes, hurl.1 ⟨fun i hi => ok.1 i (Or.inr hi), ok.2⟩⟩
    · rintro (hno | ⟨-, hends⟩)
      · exact absurd htake hno
      · obtain ⟨hreads, hwords⟩ := hurl.2 hends
        exact ⟨fun i hi => hi.elim (hin i) (hreads i), hwords⟩
  · rw [Nat.zero_add] at hmem
    constructor
    · intro ok
      have hread : received.length < received.length := by
        refine ok.1 _ ?_
        dsimp only
        split
        · exact hmem
        · exact hmem
        · exact List.mem_append_left _ hmem
      exact absurd hread (lt_irrefl _)
    · rintro (hno | ⟨hyes, -⟩)
      · exact absurd hpre hno
      · exact absurd hyes hshort

/-- `"GET /"` and no more: the URL is looked for in what the buffer held before, here the rest of
an earlier request, and is taken from there. -/
theorem handleClient_stale :
    ¬ ReadsReceived true true [0x47#8, 0x45#8, 0x54#8, 0x20#8, 0x2F#8]
      ([0x61#8, 0x20#8, 0x0A#8] ++ List.replicate (BUFFSIZE - 8) 0#8) := by
  intro h
  exact absurd (h.1 5 (by decide)) (by decide)

end Jos.Httpd
