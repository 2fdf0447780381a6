import Jos.Lib.Ring

/-!
# The console's input buffer

`cons_intr` and `cons_getc` of `kern/console.c`.  The kernel runs with interrupts off and under
its lock, so that the two never run at the same time.  The routines of the devices
(`serial_proc_data`, `kbd_proc_data`) return bytes, 0 for "no character yet" and -1 when there is
no more; what one call of `cons_intr` gets from them is a list of bytes.

The ring has no test for being full.  When the 512th unread character comes in, the writer has
caught up with the reader, and all of them are gone at once; the invariant (`Inv`) counts the
reader as having passed them.

* `Inv.receive`, `Inv.next` — a step: characters coming in, and one being taken.
* `Inv.getc` — the first character that waits is the one `cons_getc` returns.
* `cons_fifo` — a run: what is returned is a subsequence of what came in, and all of it, in order,
  as long as there is room.
-/

namespace Jos.Console

abbrev Byte := BitVec 8

def CONSBUFSIZE : ℕ := 512

/-- The variable `cons`. -/
structure Cons where
  buf : ℕ → Byte
  rpos : ℕ
  wpos : ℕ

/-- A position goes back to 0 at the end of the buffer. -/
def advance (pos : ℕ) : ℕ := if pos + 1 = CONSBUFSIZE then 0 else pos + 1

/-- The body of the loop of `cons_intr`. -/
def Cons.put (s : Cons) (c : Byte) : Cons :=
  if c = 0#8 then s
  else { s with buf := Function.update s.buf s.wpos c, wpos := advance s.wpos }

/-- `cons_intr`, where `proc` returns the characters `cs` and then -1. -/
def consIntr (cs : List Byte) (s : Cons) : Cons := cs.foldl Cons.put s

/-- The end of `cons_getc`: grab the next character from the input buffer. -/
def Cons.next (s : Cons) : Byte × Cons :=
  if s.rpos ≠ s.wpos then (s.buf s.rpos, { s with rpos := advance s.rpos }) else (0#8, s)

/-- `cons_getc`, which polls the serial port and the keyboard first. -/
def consGetc (serial kbd : List Byte) (s : Cons) : Byte × Cons :=
  (consIntr kbd (consIntr serial s)).next

/-! ## Runs -/

/-- What the kernel does: an interrupt of a device, or a call of `cons_getc`. -/
inductive Act
  | intr (cs : List Byte)
  | getc (serial kbd : List Byte)

/-- The buffer, the characters received so far and those returned so far.  A 0 is not a
character. -/
structure Sys where
  cons : Cons
  received : List Byte
  returned : List Byte

/-- The characters that come in. -/
def Act.input : Act → List Byte
  | .intr cs => cs
  | .getc serial kbd => serial ++ kbd

def Sys.boot : Sys := ⟨⟨fun _ => 0#8, 0, 0⟩, [], []⟩

/-- The devices hand over `cs`. -/
def Sys.receive (s : Sys) (cs : List Byte) : Sys :=
  { s with cons := consIntr cs s.cons, received := s.received ++ cs.filter (· ≠ 0#8) }

def Sys.step (s : Sys) : Act → Sys
  | .intr cs => s.receive cs
  | .getc serial kbd =>
    let r := consGetc serial kbd s.cons
    { cons := r.2
      received := s.received ++ (serial ++ kbd).filter (· ≠ 0#8)
      returned := s.returned ++ [r.1].filter (· ≠ 0#8) }

def Sys.run (acts : List Act) : Sys := acts.foldl Sys.step Sys.boot

/-- How many characters are unread. -/
def Sys.unread (s : Sys) : ℕ := s.received.length - s.returned.length

/-- There is always room: the number of unread characters, which is largest when an interrupt or
a poll has handed over its characters, never reaches the size of the buffer. -/
def Roomy : Sys → List Act → Prop
  | _, [] => True
  | s, a :: acts => (s.receive a.input).unread ≤ CONSBUFSIZE - 1 ∧ Roomy (s.step a) acts

/-- The characters between the reader and the writer. -/
def Cons.waiting (s : Cons) : List Byte :=
  (List.range ((s.wpos + CONSBUFSIZE - s.rpos) % CONSBUFSIZE)).map fun i =>
    s.buf ((s.rpos + i) % CONSBUFSIZE)

/-! ## The invariant -/

/-- The next character to read is number `r`, and the ring holds those from there on. -/
structure Inv (s : Sys) (r : ℕ) : Prop where
  le : r ≤ s.received.length
  room : s.received.length < r + CONSBUFSIZE
  rpos : s.cons.rpos = r % CONSBUFSIZE
  wpos : s.cons.wpos = s.received.length % CONSBUFSIZE
  holds : Ring.Holds CONSBUFSIZE s.cons.buf s.received r s.received.length
  returned : s.returned.Sublist (s.received.take r)
  nonzero : 0#8 ∉ s.received

theorem cons_receive (s : Sys) (serial kbd : List Byte) :
    (s.receive (serial ++ kbd)).cons = consIntr kbd (consIntr serial s.cons) :=
  List.foldl_append

theorem advance_mod (n : ℕ) : advance (n % CONSBUFSIZE) = (n + 1) % CONSBUFSIZE := by
  unfold advance CONSBUFSIZE
  split <;> omega

namespace Inv

variable {s : Sys} {r : ℕ} {c : Byte}

theorem boot : Inv Sys.boot 0 where
  le := le_rfl
  room := by decide
  rpos := rfl
  wpos := rfl
  holds := .empty
  returned := .slnil
  nonzero := List.not_mem_nil

/-- A character comes in.  If it is the last one that the ring can take, the reader finds the ring
empty: it has passed everything that was unread. -/
theorem put (h : Inv s r) (hc : c ≠ 0#8) :
    ∃ r', Inv { s with cons := s.cons.put c, received := s.received ++ [c] } r' ∧
      (s.received.length + 1 < r + CONSBUFSIZE → r' = r) := by
  have hput : s.cons.put c = { s.cons with
      buf := Function.update s.cons.buf (s.received.length % CONSBUFSIZE) c
      wpos := (s.received.length + 1) % CONSBUFSIZE } := by
    rw [Cons.put, if_neg hc, h.wpos, advance_mod]
  have hlen : (s.received ++ [c]).length = s.received.length + 1 := List.length_append
  have hzero : 0#8 ∉ s.received ++ [c] := by
    simpa [h.nonzero] using hc.symm
  rw [hput]
  by_cases hroom : s.received.length + 1 < r + CONSBUFSIZE
  · refine ⟨r, ⟨?_, ?_, h.rpos, by rw [hlen], ?_, ?_, hzero⟩, fun _ => rfl⟩
    · show r ≤ (s.received ++ [c]).length
      rw [hlen]
      exact le_trans h.le (Nat.le_succ _)
    · rwa [hlen]
    · rw [hlen]
      exact h.holds.put rfl h.room c
    · exact h.returned.trans ((List.prefix_append _ _).take r).sublist
  · have hfull : s.received.length + 1 = r + CONSBUFSIZE := by
      have := h.room
      omega
    refine ⟨s.received.length + 1, ⟨hlen.ge, ?_, ?_, by rw [hlen], ?_, ?_, hzero⟩,
      fun hlt => absurd hlt hroom⟩
    · rw [hlen]
      exact Nat.lt_add_of_pos_right (by decide)
    · rw [hfull, Nat.add_mod_right, h.rpos]
    · rw [hlen]
      exact .empty
    · rw [List.take_of_length_le hlen.le]
      exact (h.returned.trans (List.take_sublist ..)).trans (List.sublist_append_left ..)

/-- **Characters come in.** -/
theorem receive (h : Inv s r) (cs : List Byte) :
    ∃ r', Inv (s.receive cs) r' ∧ ((s.receive cs).received.length < r + CONSBUFSIZE → r' = r) := by
  induction cs generalizing s r with
  | nil =>
    refine ⟨r, ?_, fun _ => rfl⟩
    simpa [Sys.receive, consIntr] using h
  | cons c cs ih =>
    by_cases hc : c = 0#8
    · have hskip : s.receive (c :: cs) = s.receive cs := by
        simp [Sys.receive, consIntr, Cons.put, hc]
      rw [hskip]
      exact ih h
    · obtain ⟨r₁, h₁, hr₁⟩ := h.put hc
      obtain ⟨r₂, h₂, hr₂⟩ := ih h₁
      have hcons : s.receive (c :: cs) = Sys.receive
          { s with cons := s.cons.put c, received := s.received ++ [c] } cs := by
        simp [Sys.receive, consIntr, hc]
      rw [hcons]
      refine ⟨r₂, h₂, fun hlt => ?_⟩
      have hlen : s.received.length + 1 < r + CONSBUFSIZE := by
        refine lt_of_le_of_lt ?_ hlt
        simp [Sys.receive]
      have hr := hr₁ hlen
      exact (hr₂ (hr ▸ hlt)).trans hr

/-- What the ring holds is what has not been read. -/
theorem waiting (h : Inv s r) : s.cons.waiting = s.received.drop r := by
  have hle := h.le
  have hroom := h.room
  have hcount : (s.cons.wpos + CONSBUFSIZE - s.cons.rpos) % CONSBUFSIZE =
      s.received.length - r := by
    rw [h.rpos, h.wpos]
    unfold CONSBUFSIZE at hroom ⊢
    omega
  rw [Cons.waiting, hcount, ← h.holds.window]
  refine List.map_congr_left fun i _ => ?_
  rw [h.rpos, Nat.mod_add_mod]

/-- **A character is taken**, the first one that waits. -/
theorem next (h : Inv s r) :
    ∃ r', Inv { s with cons := s.cons.next.2,
                       returned := s.returned ++ [s.cons.next.1].filter (· ≠ 0#8) } r' ∧
      (s.returned.length = r →
        (s.returned ++ [s.cons.next.1].filter (· ≠ 0#8)).length = r') ∧
      s.cons.next.1 = (s.received.drop r).head?.getD 0#8 ∧
      s.received.drop r' = (s.received.drop r).tail := by
  have hle := h.le
  have hroom := h.room
  by_cases hr : r = s.received.length
  · -- the reader has caught up with the writer
    have hnext : s.cons.next = (0#8, s.cons) := by
      rw [Cons.next, if_neg]
      rw [h.rpos, h.wpos, hr]
      exact not_not.2 rfl
    rw [hnext]
    refine ⟨r, ?_, fun hlen => ?_, ?_⟩
    · simpa using h
    · simpa using hlen
    · simp [hr]
  · have hne : s.cons.rpos ≠ s.cons.wpos := by
      rw [h.rpos, h.wpos]
      exact Ring.mod_ne_of_room le_rfl (by omega) hroom
    have hread : s.received[r]? = some (s.cons.buf s.cons.rpos) := by
      rw [h.rpos]
      exact h.holds r le_rfl (by omega)
    have hzero : s.cons.buf s.cons.rpos ≠ 0#8 := fun h0 =>
      h.nonzero (h0 ▸ List.mem_of_getElem? hread)
    have hnext : s.cons.next =
        (s.cons.buf s.cons.rpos, { s.cons with rpos := (r + 1) % CONSBUFSIZE }) := by
      rw [Cons.next, if_pos hne, h.rpos, advance_mod]
    have hkept : [s.cons.buf s.cons.rpos].filter (· ≠ 0#8) = [s.cons.buf s.cons.rpos] := by
      simp [hzero]
    rw [hnext, hkept]
    refine ⟨r + 1, ⟨by show r + 1 ≤ s.received.length; omega, ?_, rfl, h.wpos,
      h.holds.advance (Nat.le_succ r), ?_, h.nonzero⟩, fun hlen => ?_, ?_, List.tail_drop.symm⟩
    · exact lt_of_lt_of_le hroom (by omega)
    · show (s.returned ++ [s.cons.buf s.cons.rpos]).Sublist (s.received.take (r + 1))
      rw [List.take_add_one, hread]
      exact h.returned.append (List.Sublist.refl _)
    · rw [List.length_append, hlen]
      rfl
    · rw [List.head?_drop, hread]
      rfl

/-- `cons_getc` hands out the first character that waits once the devices were polled. -/
theorem getc (h : Inv s r) (serial kbd : List Byte) :
    let polled := consIntr kbd (consIntr serial s.cons)
    (consGetc serial kbd s.cons).1 = polled.waiting.head?.getD 0#8 ∧
      (consGetc serial kbd s.cons).2.waiting = polled.waiting.tail := by
  obtain ⟨r₁, h₁, -⟩ := h.receive (serial ++ kbd)
  obtain ⟨r₂, h₂, -, hhead, htail⟩ := h₁.next
  have hwait := h₁.waiting
  have hwait' := h₂.waiting
  rw [cons_receive] at hhead hwait hwait'
  rw [← hwait] at hhead htail
  exact ⟨hhead, hwait'.trans htail⟩

/-- One act of the kernel. -/
theorem step (h : Inv s r) (a : Act) :
    ∃ r', Inv (s.step a) r' ∧ (s.returned.length = r →
      (s.receive a.input).unread ≤ CONSBUFSIZE - 1 → (s.step a).returned.length = r') := by
  obtain ⟨r₁, h₁, hr₁⟩ := h.receive a.input
  -- with room for what comes in, the reader is where it was
  have hstay : s.returned.length = r → (s.receive a.input).unread ≤ CONSBUFSIZE - 1 →
      s.returned.length = r₁ := by
    intro hlen hroom
    refine hlen.trans (hr₁ ?_).symm
    have hunread : (s.receive a.input).received.length - r ≤ CONSBUFSIZE - 1 := hlen ▸ hroom
    have hpos : 0 < CONSBUFSIZE := by decide
    omega
  cases a with
  | intr cs => exact ⟨r₁, h₁, hstay⟩
  | getc serial kbd =>
    obtain ⟨r₂, h₂, hr₂, -⟩ := h₁.next
    rw [Act.input, cons_receive] at h₂ hr₂
    exact ⟨r₂, h₂, fun hlen hroom => hr₂ (hstay hlen hroom)⟩

theorem run (h : Inv s r) (acts : List Act) : ∃ r', Inv (acts.foldl Sys.step s) r' ∧
    (s.returned.length = r → Roomy s acts →
      (acts.foldl Sys.step s).returned.length = r') := by
  induction acts generalizing s r with
  | nil => exact ⟨r, h, fun hlen _ => hlen⟩
  | cons a acts ih =>
    obtain ⟨r₁, h₁, hr₁⟩ := h.step a
    obtain ⟨r₂, h₂, hr₂⟩ := ih h₁
    exact ⟨r₂, h₂, fun hlen hroomy => hr₂ (hr₁ hlen hroomy.1) hroomy.2⟩

end Inv

/-- **The console's input is a FIFO.**  Whatever the devices send and whenever `cons_getc` is
called, the characters returned are a subsequence of those received, the positions stay inside
the buffer, and the next call returns the first character that waits.  As long as there is room,
what was returned and what waits in the ring are together the characters received. -/
theorem cons_fifo (acts : List Act) :
    (Sys.run acts).returned.Sublist (Sys.run acts).received ∧
      (Sys.run acts).cons.rpos < CONSBUFSIZE ∧ (Sys.run acts).cons.wpos < CONSBUFSIZE ∧
      (∀ serial kbd,
        let polled := consIntr kbd (consIntr serial (Sys.run acts).cons)
        (consGetc serial kbd (Sys.run acts).cons).1 = polled.waiting.head?.getD 0#8 ∧
          (consGetc serial kbd (Sys.run acts).cons).2.waiting = polled.waiting.tail) ∧
      (Roomy Sys.boot acts →
        (Sys.run acts).returned ++ (Sys.run acts).cons.waiting = (Sys.run acts).received) := by
  obtain ⟨r, h, hr⟩ := Inv.boot.run acts
  have hpos : 0 < CONSBUFSIZE := by decide
  refine ⟨h.returned.trans (List.take_sublist ..), ?_, ?_, h.getc, fun hroomy => ?_⟩
  · exact h.rpos ▸ Nat.mod_lt _ hpos
  · exact h.wpos ▸ Nat.mod_lt _ hpos
  · have hlen : (Sys.run acts).returned.length = r := hr rfl hroomy
    have hall : (Sys.run acts).returned = (Sys.run acts).received.take r :=
      h.returned.eq_of_length (hlen.trans (List.length_take_of_le h.le).symm)
    have hwait : (Sys.run acts).cons.waiting = (Sys.run acts).received.drop r := h.waiting
    rw [hwait, hall]
    exact List.take_append_drop ..

/-- Two characters come in, a third while the first is taken; then the second is taken. -/
def typed : List Act := [.intr [97#8, 98#8], .getc [] [0#8, 99#8], .getc [] []]

theorem cons_fifo_typed : Roomy Sys.boot typed ∧ (Sys.run typed).received = [97#8, 98#8, 99#8] ∧
    (Sys.run typed).returned = [97#8, 98#8] ∧
    (Sys.run typed).returned ++ (Sys.run typed).cons.waiting = (Sys.run typed).received ∧
    (consGetc [] [] (Sys.run typed).cons).1 = 99#8 := by
  have hroomy : Roomy Sys.boot typed := ⟨by decide, by decide, by decide, trivial⟩
  obtain ⟨-, -, -, hgetc, hall⟩ := cons_fifo typed
  refine ⟨hroomy, by decide, by decide, hall hroomy, (hgetc [] []).1.trans ?_⟩
  decide

end Jos.Console
