import Jos.Inc.Error
import Jos.Lib.Memory

/-!
# Reading a line

`readline` of `lib/readline.c`.  One turn of its loop takes one character and tests it
against a chain of conditions that also depend on how many characters are held.

* `turn`, `readline` — the loop, on the characters that `getchar` returns.
* `edit`, `edited` — what editing a line means.
* `turn_step`, `run_held` — one turn is `edit`, unless the line is empty and the character is
  a DEL; then the DEL is kept as if it were printable.
* `readline_edits_iff` — so a stream is edited right exactly if no DEL arrives at an empty line.
-/

namespace Jos.Readline

open Function (update update_of_ne update_self)

/-- A character. -/
abbrev Byte := BitVec 8

def BUFLEN : ℕ := 1024

/-- What goes to the console. -/
inductive Out
  | putchar (c : Byte)
  /-- `cprintf("read error: %e\n", c)` -/
  | readError (e : Errno)
  deriving DecidableEq

/-- `buf`, the index into it, and the output so far. -/
structure State where
  buf : Memory
  i : ℕ
  out : List Out

/-- How `readline` returns. -/
inductive Result
  | buf
  | null
  deriving DecidableEq

/-- Backspace and DEL. -/
def isErase (c : Byte) : Bool := c == 0x08#8 || c == 0x7F#8

/-- Newline and carriage return. -/
def isNewline (c : Byte) : Bool := c == 0x0A#8 || c == 0x0D#8

/-- `if (echoing) cputchar(c);` -/
def State.echo (echoing : Bool) (c : Byte) (s : State) : State :=
  { s with out := if echoing then s.out ++ [.putchar c] else s.out }

/-- One turn of the loop, once `getchar` has returned a character. -/
def turn (echoing : Bool) (c : Byte) (s : State) : State × Option Result :=
  if isErase c ∧ 0 < s.i then ({ s.echo echoing 0x08#8 with i := s.i - 1 }, none)
  else if 0x20#8 ≤ c ∧ s.i < BUFLEN - 1 then
    ({ s.echo echoing c with buf := update s.buf s.i c, i := s.i + 1 }, none)
  else if isNewline c then
    ({ s.echo echoing 0x0A#8 with buf := update s.buf s.i 0#8 }, some .buf)
  else (s, none)

/-- The turn in which `getchar` fails. -/
def failed (e : Errno) (s : State) : State :=
  if e ≠ .eof then { s with out := s.out ++ [.readError e] } else s

/-- The loop; no result as long as `getchar` waits for more. -/
def loop (echoing : Bool) : List (Except Errno Byte) → State → Option (Result × State)
  | [], _ => none
  | .error e :: _, s => some (.null, failed e s)
  | .ok c :: cs, s =>
    match turn echoing c s with
    | (s', some r) => some (r, s')
    | (s', none) => loop echoing cs s'

/-- `readline`, with what the last call left in `buf`. -/
def readline (echoing : Bool) (buf : Memory) (input : List (Except Errno Byte)) :
    Option (Result × State) :=
  loop echoing input ⟨buf, 0, []⟩

/-! ## What editing means -/

/-- The line after one more character. -/
def edit (line : List Byte) (c : Byte) : List Byte :=
  if isErase c then line.dropLast
  else if 0x20#8 ≤ c ∧ line.length < BUFLEN - 1 then line ++ [c]
  else line

/-- The line after the characters `cs`. -/
def edited (cs : List Byte) : List Byte := cs.foldl edit []

@[simp] theorem edited_nil : edited [] = [] := rfl

theorem edited_snoc (cs : List Byte) (c : Byte) : edited (cs ++ [c]) = edit (edited cs) c := by
  rw [edited, List.foldl_append]
  rfl

/-- A character below the blank, or DEL. -/
def IsControl (c : Byte) : Prop := c < 0x20#8 ∨ c = 0x7F#8

variable {line : List Byte}

theorem not_isControl_of_edit {c : Byte} (h : ∀ x ∈ line, ¬ IsControl x) :
    ∀ x ∈ edit line c, ¬ IsControl x := by
  intro x hx
  unfold edit at hx
  split_ifs at hx with herase hput
  · exact h x (List.mem_of_mem_dropLast hx)
  · rcases List.mem_append.1 hx with hx | hx
    · exact h x hx
    · obtain rfl := List.mem_singleton.1 hx
      rintro (hlt | rfl)
      · exact absurd hput.1 (BitVec.not_le.2 hlt)
      · exact herase rfl
  · exact h x hx

theorem not_isControl_of_edited {cs : List Byte} : ∀ x ∈ edited cs, ¬ IsControl x := by
  induction cs using List.reverseRecOn with
  | nil => simp
  | append_singleton cs c ih =>
    rw [edited_snoc]
    exact not_isControl_of_edit ih

/-! ## The characters held -/

/-- The characters `buf[0], …, buf[i - 1]`. -/
def State.held (s : State) : List Byte := (List.range s.i).map s.buf

@[simp] theorem State.length_held (s : State) : s.held.length = s.i := by
  rw [held, List.length_map, List.length_range]

/-- Storing at the index does not touch what is held. -/
theorem held_update (s : State) (c : Byte) :
    (List.range s.i).map (update s.buf s.i c) = s.held := by
  refine List.map_congr_left fun k hk => ?_
  rw [update_of_ne (List.mem_range.1 hk).ne]

/-- The state after the characters `cs`, none of which ends the line. -/
def after (echoing : Bool) (buf : Memory) (cs : List Byte) : State :=
  cs.foldl (fun s c => (turn echoing c s).1) ⟨buf, 0, []⟩

section Run

variable {echoing : Bool} {buf : Memory} {s : State} {c : Byte} {cs : List Byte}

theorem isNewline_lt (h : isNewline c = true) : c < 0x20#8 := by
  rw [isNewline, Bool.or_eq_true, beq_iff_eq, beq_iff_eq] at h
  rcases h with rfl | rfl <;> decide

theorem isErase_of_isNewline (h : isNewline c = true) : isErase c = false := by
  rw [isNewline, Bool.or_eq_true, beq_iff_eq, beq_iff_eq] at h
  rcases h with rfl | rfl <;> rfl

/-- A backspace is not printable, a DEL would be. -/
theorem le_of_isErase (h : isErase c = true) : 0x20#8 ≤ c ↔ c = 0x7F#8 := by
  rw [isErase, Bool.or_eq_true, beq_iff_eq, beq_iff_eq] at h
  rcases h with rfl | rfl <;> decide

theorem turn_of_newline (h : isNewline c = true) (s : State) :
    turn echoing c s =
      ({ s.echo echoing 0x0A#8 with buf := update s.buf s.i 0#8 }, some .buf) := by
  have hlt := isNewline_lt h
  rw [turn, if_neg (by simp [isErase_of_isNewline h]), if_neg (fun hc => BitVec.not_le.2 hlt hc.1),
    if_pos h]

variable (echoing) in
theorem turn_goes_on (h : isNewline c = false) (s : State) :
    (turn echoing c s).2 = none := by
  unfold turn
  split_ifs with herase hput hnl
  · rfl
  · rfl
  · exact absurd hnl (by simp [h])
  · rfl

/-- One turn edits the line, but for a DEL at an empty line. -/
theorem turn_step (h : isNewline c = false) (hdel : ¬ (c = 0x7F#8 ∧ s.i = 0)) :
    (turn echoing c s).1.held = edit s.held c := by
  unfold turn edit
  rw [State.length_held]
  by_cases herase : isErase c = true
  · by_cases hpos : 0 < s.i
    · rw [if_pos ⟨herase, hpos⟩, if_pos herase]
      obtain ⟨k, hk⟩ := Nat.exists_eq_succ_of_ne_zero hpos.ne'
      simp only [State.held, State.echo, hk, Nat.succ_eq_add_one, Nat.add_sub_cancel,
        List.range_succ, List.map_append, List.map_singleton, List.dropLast_concat]
    · -- a backspace at an empty line
      have hc : ¬ 0x20#8 ≤ c := fun hle => hdel ⟨(le_of_isErase herase).1 hle, by omega⟩
      have hnil : s.held = [] := List.eq_nil_of_length_eq_zero (by rw [State.length_held]; omega)
      rw [if_neg (fun hp => hpos hp.2), if_neg (fun hp => hc hp.1), if_pos herase, h, hnil]
      exact hnil
  · rw [if_neg (fun hp => herase hp.1), if_neg herase]
    split_ifs with hput hnl
    · simp only [State.held, List.range_succ, List.map_append, List.map_singleton,
        update_self]
      rw [held_update]
      rfl
    · exact absurd hnl (by simp [h])
    · rfl

/-- A DEL at an empty line is kept. -/
theorem turn_del (h : s.i = 0) : (turn echoing 0x7F#8 s).1.held = [0x7F#8] := by
  rw [turn, if_neg (by omega), if_pos ⟨by decide, by rw [h]; decide⟩]
  simp [State.held, h]

/-- The index stays within the buffer. -/
theorem turn_i_le (h : s.i ≤ BUFLEN - 1) : (turn echoing c s).1.i ≤ BUFLEN - 1 := by
  unfold turn
  split_ifs with herase hput hnl
  · exact (Nat.sub_le _ _).trans h
  · exact hput.2
  · exact h
  · exact h

theorem after_snoc : after echoing buf (cs ++ [c]) =
    (turn echoing c (after echoing buf cs)).1 := by
  rw [after, List.foldl_append]
  rfl

theorem after_i_le : (after echoing buf cs).i ≤ BUFLEN - 1 := by
  induction cs using List.reverseRecOn with
  | nil => exact Nat.zero_le _
  | append_singleton cs c ih =>
    rw [after_snoc]
    exact turn_i_le ih

/-- The loop goes through characters that do not end the line. -/
theorem loop_append (h : ∀ c ∈ cs, isNewline c = false) (rest : List (Except Errno Byte)) :
    loop echoing (cs.map .ok ++ rest) s =
      loop echoing rest (cs.foldl (fun s c => (turn echoing c s).1) s) := by
  induction cs generalizing s with
  | nil => rfl
  | cons c cs ih =>
    have hon := turn_goes_on echoing (h c List.mem_cons_self) s
    rw [List.map_cons, List.cons_append, loop]
    rcases hturn : turn echoing c s with ⟨s', r⟩
    rw [hturn] at hon
    obtain rfl : r = none := hon
    simp only
    rw [ih (fun x hx => h x (List.mem_cons_of_mem _ hx)), List.foldl_cons, hturn]

variable (echoing buf) in
/-- The line ends at the first newline, whatever comes then. -/
theorem readline_newline {nl : Byte} (h : ∀ c ∈ cs, isNewline c = false)
    (hnl : isNewline nl = true) (rest : List (Except Errno Byte)) :
    ∃ s', readline echoing buf (cs.map .ok ++ .ok nl :: rest) = some (.buf, s') ∧
      s'.held = (after echoing buf cs).held ∧ s'.buf s'.i = 0#8 := by
  rw [readline, loop_append h, loop, turn_of_newline hnl]
  exact ⟨_, rfl, held_update _ _, update_self ..⟩

end Run

/-! ## The stream as a whole -/

section Stream

variable {echoing : Bool} {buf : Memory} {input cs : List Byte}

/-- `cs` is what came before some point in the first line of the input. -/
def InLine (input cs : List Byte) : Prop := cs <+: input ∧ ∀ c ∈ cs, isNewline c = false

theorem InLine.of_snoc {c : Byte} (h : InLine input (cs ++ [c])) : InLine input cs :=
  ⟨(List.prefix_append cs [c]).trans h.1, fun x hx => h.2 x (List.mem_append_left _ hx)⟩

/-- No DEL comes at a point of the first line where the line is empty. -/
def NoDelWhenEmpty (input : List Byte) : Prop :=
  ∀ cs, InLine input (cs ++ [0x7F#8]) → edited cs ≠ []

/-- Without such a DEL, the characters held are the edited line. -/
theorem run_held (h : NoDelWhenEmpty input) (hcs : InLine input cs) :
    (after echoing buf cs).held = edited cs := by
  induction cs using List.reverseRecOn with
  | nil => rfl
  | append_singleton cs c ih =>
    have hheld := ih hcs.of_snoc
    have hdel : ¬ (c = 0x7F#8 ∧ (after echoing buf cs).i = 0) := by
      rintro ⟨rfl, hi⟩
      refine h cs hcs (List.eq_nil_of_length_eq_zero ?_)
      rw [← hheld, State.length_held, hi]
    rw [after_snoc, turn_step (hcs.2 c (by simp)) hdel, hheld, edited_snoc]

/-- The line is edited as it should be: at every point the characters held are the edited
line, none of them a control character and the index within the buffer, and at the first
newline that line is returned, whatever comes then. -/
structure Edits (echoing : Bool) (buf : Memory) (input : List Byte) : Prop where
  held : ∀ cs, InLine input cs → (after echoing buf cs).held = edited cs
  index : ∀ cs, InLine input cs → (after echoing buf cs).i ≤ BUFLEN - 1
  clean : ∀ cs, InLine input cs → ∀ c ∈ (after echoing buf cs).held, ¬ IsControl c
  returns : ∀ cs nl rest, InLine input cs → cs ++ [nl] <+: input → isNewline nl = true →
    ∃ s', readline echoing buf ((cs ++ [nl]).map .ok ++ rest) = some (.buf, s') ∧
      s'.held = edited cs ∧ s'.buf s'.i = 0#8

/-- **Editing.**  The line is edited as it should be exactly if no DEL comes while it is
empty. -/
theorem readline_edits_iff (echoing : Bool) (buf : Memory) (input : List Byte) :
    Edits echoing buf input ↔ NoDelWhenEmpty input := by
  constructor
  · -- a DEL at an empty line would be held afterwards
    intro h cs hcs hnil
    have hheld := h.held cs hcs.of_snoc
    have hi : (after echoing buf cs).i = 0 := by
      rw [← State.length_held, hheld, hnil, List.length_nil]
    have hdel := h.held _ hcs
    rw [after_snoc, turn_del hi, edited_snoc, hnil] at hdel
    exact absurd hdel (by decide)
  · intro h
    refine ⟨fun cs hcs => run_held h hcs, fun cs _ => after_i_le, fun cs hcs => ?_,
      fun cs nl rest hcs _ hnl => ?_⟩
    · rw [run_held h hcs]
      exact not_isControl_of_edited
    · obtain ⟨s', hret, hline, hnul⟩ :=
        readline_newline echoing buf hcs.2 hnl rest
      rw [run_held h hcs] at hline
      refine ⟨s', ?_, hline, hnul⟩
      rw [List.map_append, List.append_assoc]
      exact hret

/-- A DEL and a newline: the line returned is a DEL. -/
theorem readline_keeps_del :
    ∃ s', readline false (fun _ => 0#8) [.ok 0x7F#8, .ok 0x0A#8] = some (.buf, s') ∧
      s'.held = [0x7F#8] ∧ edited [0x7F#8] = [] ∧
      ¬ Edits false (fun _ => 0#8) [0x7F#8, 0x0A#8] := by
  refine ⟨_, rfl, by decide, rfl, fun h => ?_⟩
  have hheld := h.held [0x7F#8] ⟨by decide, by decide⟩
  exact absurd hheld (by decide)

/-! ## Lines that can be returned -/

/-- Some stream makes `readline` return this line. -/
def Returned (line : List Byte) : Prop :=
  ∃ echoing buf input s', readline echoing buf input = some (.buf, s') ∧ s'.held = line

theorem edited_self (hlen : line.length ≤ BUFLEN - 1) (h : ∀ x ∈ line, ¬ IsControl x) :
    edited line = line := by
  induction line using List.reverseRecOn with
  | nil => rfl
  | append_singleton line c ih =>
    rw [List.length_append, List.length_singleton] at hlen
    have hc := h c (by simp)
    rw [IsControl, not_or, BitVec.not_lt] at hc
    have herase : isErase c = false := by
      by_contra he
      exact hc.2 ((le_of_isErase (Bool.not_eq_false _ ▸ he)).1 hc.1)
    rw [edited_snoc, ih (by omega) (fun x hx => h x (by simp [hx])), edit, herase,
      if_neg Bool.false_ne_true, if_pos ⟨hc.1, by omega⟩]

/-- A line of printable characters comes back as it was typed. -/
theorem returned_of_printable (hlen : line.length ≤ BUFLEN - 1) (h : ∀ x ∈ line, ¬ IsControl x) :
    Returned line := by
  have hline : ∀ c ∈ line, isNewline c = false := by
    intro c hc
    by_contra hnl
    exact h c hc (.inl (isNewline_lt (Bool.not_eq_false _ ▸ hnl)))
  have hno : NoDelWhenEmpty line := by
    intro cs hcs _
    exact h 0x7F#8 (hcs.1.subset (by simp)) (.inr rfl)
  obtain ⟨s', hret, hheld, -⟩ := readline_newline false (fun _ => 0#8) hline
    (show isNewline 0x0A#8 = true from rfl) []
  rw [run_held hno ⟨List.prefix_refl _, hline⟩, edited_self hlen h] at hheld
  exact ⟨_, _, _, s', hret, hheld⟩

end Stream

end Jos.Readline
