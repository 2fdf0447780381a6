import Jos.User.Pipe

/-!
# The positions of a pipe that is used for long

`p_rpos` and `p_wpos` count the bytes of the whole life of a pipe.  They are signed
words that nobody reduces: an index into `p_buf` is their remainder in `int`, and the
writer finds out in `unsigned` whether there is room.

* `Sys.access` — the index a step uses; `Sys.TestRight` — the writer's test says what
  it should.
* `counters_right_iff` — all is well in exactly the runs that store at most
  `2 ^ 31 + 1` bytes.
* `full_wraps` — later the test would be wrong, too: shortly before `2 ^ 32` bytes an
  empty pipe looks full.
-/

namespace Jos.Devpipe

/-! ## What should hold -/

namespace Sys

/-- The index into `p_buf` that the next step uses, if it uses one. -/
def access (s : Sys) : Event → Option ℤ
  | .reader _ =>
    match s.reader.pc with
    | .fetch r => some (slot r)
    | _ => none
  | .writer _ =>
    match s.writer.pc with
    | .put w => some (slot w)
    | _ => none
  | .read _ _ => none
  | .write _ _ => none

/-- The bytes that are in the buffer and that the reader has not passed yet. -/
def unread (s : Sys) : ℕ := s.stored.length - (s.taken.length - s.reader.pc.ahead)

/-- `p->p_wpos >= p->p_rpos + sizeof(p->p_buf)`. -/
def full (p : Pipe) : Prop := p.rpos + 32#32 ≤ p.wpos

/-- The writer's test, where the writer may be about to make it. -/
def TestRight (s : Sys) : Prop :=
  s.writer.pc.ahead = 0 →
    (full s.pipe ↔ s.unread = PIPEBUFSIZ) ∧ (s.unread = 0 → ¬ full s.pipe)

end Sys

/-- In all of the run, indices are in range and the writer's test is right. -/
structure CountsRight (evs : List Event) : Prop where
  index : ∀ pre ev, pre ++ [ev] <+: evs → ∀ i, (Sys.start.exec pre).access ev = some i →
    0 ≤ i ∧ i < PIPEBUFSIZ
  test : ∀ pre, pre <+: evs → (Sys.start.exec pre).TestRight

/-! ## The writer's test -/

variable {s : Sys}

/-- The writer's test is right. -/
theorem Positions.testRight (h : Positions s) : s.TestRight := by
  intro hahead
  have hlen := h.length
  have hcount := h.count
  have hroom := h.room
  have hle := h.le
  have hsum := toNat_room h.rpos_le
  have hunread : s.unread = s.pipe.wpos.toNat - s.pipe.rpos.toNat := by
    rw [Sys.unread]
    omega
  have hfull : Sys.full s.pipe ↔ s.pipe.rpos.toNat + 32 ≤ s.pipe.wpos.toNat := by
    rw [Sys.full, BitVec.le_def, hsum]
  rw [hfull, hunread, PIPEBUFSIZ]
  constructor
  · omega
  · omega

/-- Not so for later positions: an empty pipe looks full. -/
theorem full_wraps {p : Pipe} (hempty : p.rpos = p.wpos) (hlate : 2 ^ 32 - 32 ≤ p.wpos.toNat) :
    Sys.full p := by
  have hbound := p.wpos.isLt
  rw [Sys.full, BitVec.le_def, BitVec.toNat_add, hempty]
  change (p.wpos.toNat + 32) % 2 ^ 32 ≤ p.wpos.toNat
  omega

/-! ## Indices -/

/-- Up to `2 ^ 31` the remainder is not negative. -/
theorem slot_range {pos : Word} (h : pos.toNat ≤ 2 ^ 31) :
    0 ≤ slot pos ∧ slot pos < PIPEBUFSIZ := by
  rcases Nat.lt_or_eq_of_le h with hlt | heq
  · rw [slot_eq hlt]
    exact ⟨Int.natCast_nonneg _, by exact_mod_cast Nat.mod_lt _ (by decide)⟩
  · obtain rfl : pos = 0x80000000#32 := BitVec.eq_of_toNat_eq heq
    decide

/-- The next position has a negative one. -/
theorem slot_negative {pos : Word} (h : pos.toNat = 2 ^ 31 + 1) : slot pos = -31 := by
  obtain rfl : pos = 0x80000001#32 := BitVec.eq_of_toNat_eq h
  rfl

/-- The indices that a step uses. -/
theorem Positions.access_range {ev : Event} {i : ℤ} (h : Positions s)
    (hsmall : (s.next ev).stored.length ≤ 2 ^ 31 + 1) (hi : s.access ev = some i) :
    0 ≤ i ∧ i < PIPEBUFSIZ := by
  have hwpos := h.wpos_le
  cases ev with
  | read n vbuf => cases hi
  | write n vbuf => cases hi
  | reader choice =>
    have hknows := h.reader
    simp only [Sys.access] at hi
    split at hi
    · next v hpc =>
        rw [hpc] at hknows
        obtain ⟨hlt, rfl⟩ : s.pipe.rpos.toNat < s.pipe.wpos.toNat ∧ v = s.pipe.rpos := hknows
        obtain rfl : slot s.pipe.rpos = i := Option.some.inj hi
        exact slot_range (by omega)
    · cases hi
  | writer choice =>
    have hknows := h.writer
    have hlen := h.length
    simp only [Sys.access] at hi
    split at hi
    · next v hpc =>
        rw [hpc] at hknows hlen
        obtain ⟨-, rfl⟩ : s.pipe.wpos.toNat < s.pipe.rpos.toNat + 32 ∧ v = s.pipe.wpos := hknows
        obtain rfl : slot s.pipe.wpos = i := Option.some.inj hi
        have hlen' : s.stored.length = s.pipe.wpos.toNat := hlen
        have hone : (s.next (.writer choice)).stored.length = s.stored.length + 1 := by
          show (s.stepWrite choice).stored.length = _
          rw [Sys.stepWrite, hpc]
          simp
        exact slot_range (by omega)
    · cases hi

/-- Only one of the writer's steps stores a byte. -/
theorem stored_stepWrite {choice : Bool} (h : ∀ w, s.writer.pc ≠ .put w) :
    (s.stepWrite choice).stored = s.stored := by
  unfold Sys.stepWrite
  split
  case h_8 w hpc => exact absurd hpc (h w)
  all_goals repeat' split
  all_goals rfl

/-- A byte is stored by the writer, at `wpos`. -/
theorem access_of_stored {ev : Event} (h : (s.next ev).stored.length ≠ s.stored.length) :
    ∃ w, s.writer.pc = .put w ∧ s.access ev = some (slot w) ∧
      (s.next ev).stored.length = s.stored.length + 1 := by
  cases ev with
  | read n vbuf =>
    refine absurd ?_ h
    show (s.callRead n vbuf).stored.length = _
    rw [Sys.callRead]
    split <;> rfl
  | write n vbuf =>
    refine absurd ?_ h
    show (s.callWrite n vbuf).stored.length = _
    rw [Sys.callWrite]
    split <;> rfl
  | reader choice =>
    refine absurd ?_ h
    show (s.stepRead choice).stored.length = _
    unfold Sys.stepRead
    split <;> repeat' split
    all_goals rfl
  | writer choice =>
    by_cases hput : ∃ w, s.writer.pc = .put w
    · obtain ⟨w, hpc⟩ := hput
      refine ⟨w, hpc, by simp only [Sys.access, hpc], ?_⟩
      show (s.stepWrite choice).stored.length = _
      rw [Sys.stepWrite, hpc]
      simp
    · exact absurd (congrArg List.length (stored_stepWrite fun w hw => hput ⟨w, hw⟩)) h

/-! ## Runs -/

/-- A run that stores more than `n` bytes has a step that stores byte number `n`. -/
theorem exists_storing (n : ℕ) (evs : List Event) (h : n < (Sys.start.exec evs).stored.length) :
    ∃ pre ev, pre ++ [ev] <+: evs ∧ (Sys.start.exec pre).stored.length = n ∧
      ((Sys.start.exec pre).next ev).stored.length ≠ (Sys.start.exec pre).stored.length := by
  induction evs using List.reverseRecOn with
  | nil => exact absurd h (Nat.not_lt_zero n)
  | append_singleton l ev ih =>
    have hstep : Sys.start.exec (l ++ [ev]) = (Sys.start.exec l).next ev := exec_append _ _ _
    by_cases hl : n < (Sys.start.exec l).stored.length
    · obtain ⟨pre, ev', hpre, hrest⟩ := ih hl
      exact ⟨pre, ev', hpre.trans (List.prefix_append l [ev]), hrest⟩
    · rw [hstep] at h
      have hne : ((Sys.start.exec l).next ev).stored.length
          ≠ (Sys.start.exec l).stored.length := by
        omega
      obtain ⟨w, -, -, hone⟩ := access_of_stored hne
      exact ⟨l, ev, List.prefix_rfl, by omega, hne⟩

/-- Byte number `2 ^ 31 + 1` goes to a negative index. -/
theorem exists_negative {evs : List Event} (h : 2 ^ 31 + 1 < (Sys.start.exec evs).stored.length) :
    ∃ pre ev, pre ++ [ev] <+: evs ∧ (Sys.start.exec pre).access ev = some (-31) := by
  obtain ⟨pre, ev, hpre, hlen, hne⟩ := exists_storing (2 ^ 31 + 1) evs h
  have hpos := positions_exec pre hlen.le
  obtain ⟨w, hpc, haccess, -⟩ := access_of_stored hne
  have hknows := hpos.writer
  have hlength := hpos.length
  rw [hpc] at hknows hlength
  obtain ⟨-, rfl⟩ : _ ∧ w = (Sys.start.exec pre).pipe.wpos := hknows
  have hlength' : (Sys.start.exec pre).stored.length = (Sys.start.exec pre).pipe.wpos.toNat :=
    hlength
  refine ⟨pre, ev, hpre, ?_⟩
  rw [haccess, slot_negative (by omega)]

/-- **The counters of a pipe are right** in exactly the runs that store at most
`2 ^ 31 + 1` bytes: every index is in the buffer, the writer's test holds exactly when
the buffer is full of unread bytes, and an empty pipe does not keep it waiting. -/
theorem counters_right_iff (evs : List Event) :
    CountsRight evs ↔ (Sys.start.exec evs).stored.length ≤ 2 ^ 31 + 1 := by
  constructor
  · intro h
    by_contra hmany
    obtain ⟨pre, ev, hpre, haccess⟩ := exists_negative (not_le.1 hmany)
    obtain ⟨hneg, -⟩ := h.index pre ev hpre _ haccess
    exact absurd hneg (by decide)
  · intro h
    constructor
    · intro pre ev hpre i hi
      have hle := stored_le_of_prefix hpre
      have hle' := stored_le_of_prefix (List.prefix_append pre [ev])
      have hstep : Sys.start.exec (pre ++ [ev]) = (Sys.start.exec pre).next ev :=
        exec_append _ _ _
      rw [hstep] at hle
      exact (positions_exec pre (by rw [hstep] at hle'; omega)).access_range (by omega) hi
    · intro pre hpre
      have hle := stored_le_of_prefix hpre
      exact (positions_exec pre (by omega)).testRight

/-! ## A run that stores that much -/

/-- One byte through the pipe. -/
def oneThrough : List Event :=
  .write 1#32 (fun _ => 0#8) :: List.replicate 8 (.writer true) ++
    .read 1#32 (fun _ => 0#8) :: List.replicate 9 (.reader true)

/-- Nobody is in a call, and the pipe is empty after `n` bytes. -/
structure Rests (s : Sys) (n : ℕ) : Prop where
  reader : s.reader.pc = .idle
  writer : s.writer.pc = .idle
  rpos : s.pipe.rpos = BitVec.ofNat 32 n
  wpos : s.pipe.wpos = BitVec.ofNat 32 n
  stored : s.stored.length = n

theorem Rests.oneThrough {n : ℕ} (h : Rests s n) (hn : n < 2 ^ 32 - 32) :
    Rests (s.exec oneThrough) (n + 1) := by
  obtain ⟨⟨rpos, wpos, buf⟩, ⟨rpc, rn, ri, rbuf, rret⟩, ⟨wpc, wn, wi, wbuf, wret⟩, ret, sto⟩ := s
  obtain ⟨hr, hw, hrpos, hwpos, hsto⟩ := h
  dsimp only at hr hw hrpos hwpos hsto
  subst hr hw hrpos hwpos hsto
  have hroom : ¬ BitVec.ofNat 32 sto.length + 32#32 ≤ BitVec.ofNat 32 sto.length := by
    rw [BitVec.le_def, BitVec.toNat_add, BitVec.toNat_ofNat]
    change ¬ (sto.length % 2 ^ 32 + 32) % 2 ^ 32 ≤ _
    omega
  have hne : ¬ BitVec.ofNat 32 sto.length = BitVec.ofNat 32 sto.length + 1#32 := by
    intro heq
    have := congrArg BitVec.toNat heq
    rw [BitVec.toNat_add, BitVec.toNat_ofNat] at this
    change sto.length % 2 ^ 32 = (sto.length % 2 ^ 32 + 1) % 2 ^ 32 at this
    omega
  have hsucc : BitVec.ofNat 32 sto.length + 1#32 = BitVec.ofNat 32 (sto.length + 1) := by
    rw [BitVec.ofNat_add]
  rw [hsucc] at hne
  generalize BitVec.ofNat 32 sto.length = pos at hroom hne hsucc ⊢
  constructor
  all_goals
    simp [Devpipe.oneThrough, Sys.exec, List.replicate, Sys.next, Sys.callWrite, Sys.callRead,
      Sys.stepWrite, Sys.stepRead, Sys.writeAt, Sys.readAt, Sys.writeReturn, Sys.readReturn, hroom,
      hne, hsucc]

/-- `n` bytes, one after the other. -/
theorem rests_after (n : ℕ) (hn : n ≤ 2 ^ 32 - 32) :
    Rests (Sys.start.exec (List.replicate n oneThrough).flatten) n := by
  induction n with
  | zero => exact ⟨rfl, rfl, rfl, rfl, rfl⟩
  | succ n ih =>
    rw [List.replicate_succ', List.flatten_append, exec_append]
    have hstep := (ih (by omega)).oneThrough (by omega)
    simpa using hstep

/-- A pipe through which `2 ^ 31 + 2` bytes go uses an index that is not in the buffer. -/
theorem index_negative :
    ∃ evs, (Sys.start.exec evs).stored.length = 2 ^ 31 + 2 ∧ ¬ CountsRight evs ∧
      ∃ pre ev, pre ++ [ev] <+: evs ∧ (Sys.start.exec pre).access ev = some (-31) := by
  have hlen := (rests_after (2 ^ 31 + 2) (by decide)).stored
  generalize (List.replicate (2 ^ 31 + 2) oneThrough).flatten = evs at hlen
  have hmany : 2 ^ 31 + 1 < (Sys.start.exec evs).stored.length := by omega
  obtain ⟨pre, ev, hpre, haccess⟩ := exists_negative hmany
  refine ⟨evs, hlen, fun hright => ?_, pre, ev, hpre, haccess⟩
  obtain ⟨hneg, -⟩ := hright.index pre ev hpre _ haccess
  exact absurd hneg (by decide)

end Jos.Devpipe
