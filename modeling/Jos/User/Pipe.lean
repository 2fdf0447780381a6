import Jos.Lib.Ring
import Jos.Inc.Mmu

/-!
# The pipe

`devpipe_read` and `devpipe_write` of `lib/pipe.c`, run by two environments that
share the page of `struct Pipe`.  Every load and every store of the shared page
is a step of its own, and the two environments take their steps in any order.

* `Sys` — the shared page, where each of the two is in its code, and the bytes
  that have gone in (`stored`) and come out (`returned`).
* `Sys.next` — one step, or the start of a call, as `Event` says.
* `Positions` — the two positions count the bytes read and stored, as long as these
  are at most `2 ^ 31 + 1`; `Contents` — the ring and the reader's buffer hold the bytes
  they should.
* `fifo` — the pipe is a FIFO that loses nothing: `Positions.next` and `Contents.next` are
  the step, `positions_exec` and `contents_exec` the run.

`_pipeisclosed` may answer anything here.  The operands of a comparison are loaded in
either order, since C leaves that open.
-/

namespace Jos.Devpipe

open Function (update update_comp_eq_of_injective update_of_ne)

/-- Small to provoke races. -/
def PIPEBUFSIZ : ℕ := 32

/-- The page the two ends share.  An index into `p_buf` is a C remainder, which has the sign
of the position. -/
structure Pipe where
  rpos : Word
  wpos : Word
  buf : ℤ → BitVec 8

/-- `pos % PIPEBUFSIZ`, on `off_t`. -/
def slot (pos : Word) : ℤ := pos.toInt.tmod PIPEBUFSIZ

/-! ## The two programs -/

/-- Where `devpipe_read` is. -/
inductive ReadPc
  /-- between two calls -/
  | idle
  /-- at `i < n` -/
  | head
  /-- at `p->p_rpos == p->p_wpos`, with nothing, the left or the right side loaded -/
  | empty
  | emptyR (r : Word)
  | emptyW (w : Word)
  /-- in the body of the inner loop -/
  | drained
  /-- at `buf[i] = p->p_buf[p->p_rpos % PIPEBUFSIZ]`, before each of its memory accesses -/
  | index
  | fetch (r : Word)
  | keep (b : BitVec 8)
  /-- at `p->p_rpos++` -/
  | incr
  | bump (r : Word)
  deriving DecidableEq

/-- The reader: its arguments, its variable `i`, its buffer, and what its last call returned. -/
structure Reader where
  pc : ReadPc
  n : Word
  i : Word
  vbuf : ℕ → BitVec 8
  ret : Word

/-- Where `devpipe_write` is. -/
inductive WritePc
  /-- between two calls -/
  | idle
  /-- at `i < n` -/
  | head
  /-- at `p->p_wpos >= p->p_rpos + sizeof(p->p_buf)`, with nothing, the left or the right side
  loaded -/
  | full
  | fullW (w : Word)
  | fullR (r : Word)
  /-- in the body of the inner loop -/
  | stuck
  /-- at `p->p_buf[p->p_wpos % PIPEBUFSIZ] = buf[i]` -/
  | index
  | put (w : Word)
  /-- at `p->p_wpos++` -/
  | incr
  | bump (w : Word)
  deriving DecidableEq

/-- The writer. -/
structure Writer where
  pc : WritePc
  n : Word
  i : Word
  vbuf : ℕ → BitVec 8
  ret : Word

/-- The two environments and their pipe. -/
structure Sys where
  pipe : Pipe
  reader : Reader
  writer : Writer
  /-- the bytes the finished reads have returned, in order -/
  returned : List (BitVec 8)
  /-- the bytes the writes have stored, in order -/
  stored : List (BitVec 8)

namespace Sys

def readAt (s : Sys) (pc : ReadPc) : Sys := { s with reader := { s.reader with pc := pc } }

def writeAt (s : Sys) (pc : WritePc) : Sys := { s with writer := { s.writer with pc := pc } }

/-- `devpipe_read` returns: the caller has the first `ret` bytes of its buffer. -/
def readReturn (s : Sys) (ret : Word) : Sys :=
  { s with
    reader := { s.reader with pc := .idle, ret := ret }
    returned := s.returned ++ (List.range ret.toNat).map s.reader.vbuf }

/-- `devpipe_write` returns. -/
def writeReturn (s : Sys) (ret : Word) : Sys :=
  { s with writer := { s.writer with pc := .idle, ret := ret } }

/-- The next step of the reader.  The choice is the order of two loads, or what `_pipeisclosed`
answers. -/
def stepRead (s : Sys) (choice : Bool) : Sys :=
  match s.reader.pc with
  | .idle => s
  | .head => if s.reader.i < s.reader.n then s.readAt .empty else s.readReturn s.reader.i
  | .empty => if choice then s.readAt (.emptyR s.pipe.rpos) else s.readAt (.emptyW s.pipe.wpos)
  | .emptyR r => s.readAt (if r = s.pipe.wpos then .drained else .index)
  | .emptyW w => s.readAt (if s.pipe.rpos = w then .drained else .index)
  | .drained =>
    -- if we got any data, return it; if all the writers are gone, note eof; else yield
    if 0#32 < s.reader.i then s.readReturn s.reader.i
    else if choice then s.readReturn 0#32
    else s.readAt .empty
  | .index => s.readAt (.fetch s.pipe.rpos)
  | .fetch r => s.readAt (.keep (s.pipe.buf (slot r)))
  | .keep b =>
    { s with
      reader :=
        { s.reader with
          pc := .incr
          vbuf := update s.reader.vbuf s.reader.i.toNat b } }
  | .incr => s.readAt (.bump s.pipe.rpos)
  | .bump r =>
    { s with
      pipe := { s.pipe with rpos := r + 1#32 }
      reader := { s.reader with pc := .head, i := s.reader.i + 1#32 } }

/-- The next step of the writer. -/
def stepWrite (s : Sys) (choice : Bool) : Sys :=
  match s.writer.pc with
  | .idle => s
  | .head => if s.writer.i < s.writer.n then s.writeAt .full else s.writeReturn s.writer.i
  | .full => if choice then s.writeAt (.fullW s.pipe.wpos) else s.writeAt (.fullR s.pipe.rpos)
  -- the addition makes the comparison one of unsigned numbers
  | .fullW w => s.writeAt (if s.pipe.rpos + 32#32 ≤ w then .stuck else .index)
  | .fullR r => s.writeAt (if r + 32#32 ≤ s.pipe.wpos then .stuck else .index)
  | .stuck => if choice then s.writeReturn 0#32 else s.writeAt .full
  | .index => s.writeAt (.put s.pipe.wpos)
  | .put w =>
    { s with
      pipe :=
        { s.pipe with
          buf := update s.pipe.buf (slot w) (s.writer.vbuf s.writer.i.toNat) }
      writer := { s.writer with pc := .incr }
      stored := s.stored ++ [s.writer.vbuf s.writer.i.toNat] }
  | .incr => s.writeAt (.bump s.pipe.wpos)
  | .bump w =>
    { s with
      pipe := { s.pipe with wpos := w + 1#32 }
      writer := { s.writer with pc := .head, i := s.writer.i + 1#32 } }

end Sys

/-- What happens next: one of the two takes a step, or starts a call with a buffer and a size. -/
inductive Event
  | read (n : Word) (vbuf : ℕ → BitVec 8)
  | write (n : Word) (vbuf : ℕ → BitVec 8)
  | reader (choice : Bool)
  | writer (choice : Bool)

namespace Sys

/-- The reader calls `devpipe_read`, unless it is in a call. -/
def callRead (s : Sys) (n : Word) (vbuf : ℕ → BitVec 8) : Sys :=
  if s.reader.pc = .idle then
    { s with reader := { s.reader with pc := .head, n := n, i := 0#32, vbuf := vbuf } }
  else s

/-- The writer calls `devpipe_write`, unless it is in a call. -/
def callWrite (s : Sys) (n : Word) (vbuf : ℕ → BitVec 8) : Sys :=
  if s.writer.pc = .idle then
    { s with writer := { s.writer with pc := .head, n := n, i := 0#32, vbuf := vbuf } }
  else s

/-- One step. -/
def next (s : Sys) : Event → Sys
  | .read n vbuf => s.callRead n vbuf
  | .write n vbuf => s.callWrite n vbuf
  | .reader choice => s.stepRead choice
  | .writer choice => s.stepWrite choice

/-- A run. -/
def exec (s : Sys) (evs : List Event) : Sys := evs.foldl next s

/-- A new pipe: `pipe()` has mapped a page of zeros, and nobody is in a call. -/
def start : Sys :=
  { pipe := ⟨0#32, 0#32, fun _ => 0#8⟩
    reader := ⟨.idle, 0#32, 0#32, fun _ => 0#8, 0#32⟩
    writer := ⟨.idle, 0#32, 0#32, fun _ => 0#8, 0#32⟩
    returned := []
    stored := [] }

/-! ## What has been read -/

end Sys

/-- The byte is in the reader's buffer, and not counted in `i` and `p_rpos` yet. -/
def ReadPc.ahead : ReadPc → ℕ
  | .incr => 1
  | .bump _ => 1
  | _ => 0

/-- The byte is in the ring, and not counted in `i` and `p_wpos` yet. -/
def WritePc.ahead : WritePc → ℕ
  | .incr => 1
  | .bump _ => 1
  | _ => 0

/-- The bytes the reader's call has put into its buffer. -/
def Reader.got (r : Reader) : List (BitVec 8) :=
  if r.pc = .idle then [] else (List.range (r.i.toNat + r.pc.ahead)).map r.vbuf

namespace Sys

/-- The bytes read so far: those returned, and those of the call under way. -/
def taken (s : Sys) : List (BitVec 8) := s.returned ++ s.reader.got

/-- The next step stores a byte over byte number `j` of the sequence. -/
def Overwrites (s : Sys) (j : ℕ) : Prop :=
  ∃ w, s.writer.pc = .put w ∧ j < s.stored.length ∧ slot w = (j % PIPEBUFSIZ : ℕ)

end Sys

/-- The cells of the ring, by number. -/
def Pipe.cell (p : Pipe) : ℕ → BitVec 8 := fun i => p.buf i

/-- A position that fits an `off_t` lies in the cell of its number. -/
theorem slot_eq {pos : Word} (h : pos.toNat < 2 ^ 31) :
    slot pos = (pos.toNat % PIPEBUFSIZ : ℕ) := by
  have hint : pos.toInt = pos.toNat := by
    rw [BitVec.toInt_eq_toNat_cond, if_pos (by omega)]
  rw [slot, hint]
  rfl

theorem toNat_incr {a b : Word} (h : a < b) : (a + 1#32).toNat = a.toNat + 1 := by
  have hlt : a.toNat < b.toNat := h
  rw [BitVec.toNat_add]
  exact Nat.mod_eq_of_lt (by change a.toNat + 1 < _; omega)

/-! ## What a step of the reader takes -/

variable {s : Sys} {v : Word}

/-- A step that only moves the reader on in its code takes nothing. -/
theorem taken_readAt {pc pc' : ReadPc} (hpc : s.reader.pc = pc) (hin : pc ≠ .idle)
    (hin' : pc' ≠ .idle) (hahead : pc'.ahead = pc.ahead) : (s.readAt pc').taken = s.taken := by
  subst hpc
  simp only [Sys.taken, Sys.readAt, Reader.got, if_neg hin, if_neg hin', hahead]

/-- A return hands over all that the call has read. -/
theorem taken_readReturn {pc : ReadPc} {ret : Word} (hpc : s.reader.pc = pc) (hin : pc ≠ .idle)
    (hahead : pc.ahead = 0) (hret : ret = s.reader.i) : (s.readReturn ret).taken = s.taken := by
  subst hpc hret
  simp [Sys.taken, Sys.readReturn, Reader.got, hin, hahead]

/-- The byte is copied to the reader's buffer. -/
theorem taken_keep {b : BitVec 8} (hpc : s.reader.pc = .keep b) :
    ({ s with
      reader :=
        { s.reader with
          pc := .incr
          vbuf := update s.reader.vbuf s.reader.i.toNat b } } : Sys).taken = s.taken ++ [b] := by
  have hold : s.reader.got = (List.range s.reader.i.toNat).map s.reader.vbuf := by
    rw [Reader.got, hpc, if_neg (by simp)]
    rfl
  have hmap : (List.range (s.reader.i.toNat + 1)).map (update s.reader.vbuf s.reader.i.toNat b)
      = s.reader.got ++ [b] := by
    rw [hold, List.range_succ, List.map_append]
    congr 1
    · refine List.map_congr_left fun j hj => update_of_ne ?_ _ _
      have := List.mem_range.1 hj
      omega
    · simp
  rw [Sys.taken, Sys.taken, List.append_assoc, ← hmap]
  rfl

/-- The byte is counted. -/
theorem taken_bump (p : Pipe) (hpc : s.reader.pc = .bump v) (hi : s.reader.i < s.reader.n) :
    ({ s with
      pipe := p
      reader := { s.reader with pc := .head, i := s.reader.i + 1#32 } } : Sys).taken
      = s.taken := by
  simp only [Sys.taken, Reader.got, hpc, if_neg, reduceCtorEq, not_false_eq_true, ReadPc.ahead,
    toNat_incr hi, Nat.add_zero]

/-- A new call has taken nothing yet. -/
theorem taken_call (n : Word) (vbuf : ℕ → BitVec 8) (hpc : s.reader.pc = .idle) :
    ({ s with
      reader := { s.reader with pc := .head, n := n, i := 0#32, vbuf := vbuf } } : Sys).taken
      = s.taken := by
  simp [Sys.taken, Reader.got, hpc, ReadPc.ahead]

theorem eq_of_not_pos {i : Word} (h : ¬ 0#32 < i) : 0#32 = i := by
  have hzero : ¬ 0 < i.toNat := h
  exact BitVec.eq_of_toNat_eq (by simp; omega)

/-! ## The positions -/

/-- What the reader knows of the positions. -/
def ReadPc.Knows (p : Pipe) : ReadPc → Prop
  | .emptyR v => v = p.rpos
  | .emptyW v => p.rpos.toNat ≤ v.toNat ∧ v.toNat ≤ p.wpos.toNat
  | .index => p.rpos.toNat < p.wpos.toNat
  | .fetch v => p.rpos.toNat < p.wpos.toNat ∧ v = p.rpos
  | .keep _ => p.rpos.toNat < p.wpos.toNat
  | .incr => p.rpos.toNat < p.wpos.toNat
  | .bump v => p.rpos.toNat < p.wpos.toNat ∧ v = p.rpos
  | _ => True

/-- What the writer knows of them. -/
def WritePc.Knows (p : Pipe) : WritePc → Prop
  | .fullW v => v = p.wpos
  | .fullR v => v.toNat ≤ p.rpos.toNat
  | .index => p.wpos.toNat < p.rpos.toNat + 32
  | .put v => p.wpos.toNat < p.rpos.toNat + 32 ∧ v = p.wpos
  | .bump v => v = p.wpos
  | _ => True

/-- What the reader knows stays true while the writer works. -/
theorem ReadPc.Knows.mono {p p' : Pipe} {pc : ReadPc} (h : pc.Knows p) (hr : p'.rpos = p.rpos)
    (hw : p.wpos.toNat ≤ p'.wpos.toNat) : pc.Knows p' := by
  cases pc with
  | idle => trivial
  | head => trivial
  | empty => trivial
  | emptyR v => exact h.trans hr.symm
  | emptyW v => exact ⟨hr ▸ h.1, h.2.trans hw⟩
  | drained => trivial
  | index => exact lt_of_lt_of_le (hr ▸ h) hw
  | fetch v => exact ⟨lt_of_lt_of_le (hr ▸ h.1) hw, h.2.trans hr.symm⟩
  | keep b => exact lt_of_lt_of_le (hr ▸ h) hw
  | incr => exact lt_of_lt_of_le (hr ▸ h) hw
  | bump v => exact ⟨lt_of_lt_of_le (hr ▸ h.1) hw, h.2.trans hr.symm⟩

/-- What the writer knows stays true while the reader works. -/
theorem WritePc.Knows.mono {p p' : Pipe} {pc : WritePc} (h : pc.Knows p) (hw : p'.wpos = p.wpos)
    (hr : p.rpos.toNat ≤ p'.rpos.toNat) : pc.Knows p' := by
  have hroom : p.wpos.toNat < p.rpos.toNat + 32 → p'.wpos.toNat < p'.rpos.toNat + 32 := by
    intro hlt
    rw [hw]
    omega
  cases pc with
  | idle => trivial
  | head => trivial
  | full => trivial
  | fullW v => exact h.trans hw.symm
  | fullR v => exact le_trans h hr
  | stuck => trivial
  | index => exact hroom h
  | put v => exact ⟨hroom h.1, h.2.trans hw.symm⟩
  | incr => trivial
  | bump v => exact h.trans hw.symm

/-- The positions are the numbers of bytes read and stored. -/
structure Positions (s : Sys) : Prop where
  le : s.pipe.rpos.toNat ≤ s.pipe.wpos.toNat
  room : s.stored.length ≤ s.pipe.rpos.toNat + 32
  length : s.stored.length = s.pipe.wpos.toNat + s.writer.pc.ahead
  small : s.stored.length ≤ 2 ^ 31 + 1
  count : s.taken.length = s.pipe.rpos.toNat + s.reader.pc.ahead
  index : s.reader.pc ≠ .idle → s.reader.pc ≠ .head → s.reader.i < s.reader.n
  reader : s.reader.pc.Knows s.pipe
  writer : s.writer.pc.Knows s.pipe

theorem toNat_succ {w : Word} (h : w.toNat ≤ 2 ^ 31 + 1) : (w + 1#32).toNat = w.toNat + 1 := by
  rw [BitVec.toNat_add]
  exact Nat.mod_eq_of_lt (by change w.toNat + 1 < _; omega)

theorem toNat_room {r : Word} (h : r.toNat ≤ 2 ^ 31 + 1) : (r + 32#32).toNat = r.toNat + 32 := by
  rw [BitVec.toNat_add]
  exact Nat.mod_eq_of_lt (by change r.toNat + 32 < _; omega)

namespace Positions

/-- The reader's position is behind, so it is small as well. -/
theorem rpos_le (h : Positions s) : s.pipe.rpos.toNat ≤ 2 ^ 31 + 1 := by
  have hle := h.le
  have hlen := h.length
  have hsmall := h.small
  omega

theorem wpos_le (h : Positions s) : s.pipe.wpos.toNat ≤ 2 ^ 31 + 1 := by
  have hlen := h.length
  have hsmall := h.small
  omega

/-! ### The reader -/

/-- The reader moves on in its code. -/
theorem readAt {pc pc' : ReadPc} (h : Positions s) (hpc : s.reader.pc = pc) (hin : pc ≠ .idle)
    (hin' : pc' ≠ .idle) (hahead : pc'.ahead = pc.ahead) (hi : s.reader.i < s.reader.n)
    (hknows : pc'.Knows s.pipe) : Positions (s.readAt pc') := by
  refine ⟨h.le, h.room, h.length, h.small, ?_, fun _ _ => hi, hknows, h.writer⟩
  rw [taken_readAt hpc hin hin' hahead, h.count, hpc]
  exact congrArg _ hahead.symm

/-- A return, with all the bytes of the buffer that were read. -/
theorem readReturn {pc : ReadPc} {ret : Word} (h : Positions s) (hpc : s.reader.pc = pc)
    (hin : pc ≠ .idle) (hahead : pc.ahead = 0) (hret : ret = s.reader.i) :
    Positions (s.readReturn ret) := by
  refine ⟨h.le, h.room, h.length, h.small, ?_, fun hne => absurd rfl hne, trivial, h.writer⟩
  rw [taken_readReturn hpc hin hahead hret, h.count, hpc, hahead]
  rfl

/-- **The reader's steps.** -/
theorem stepRead (h : Positions s) (choice : Bool) : Positions (s.stepRead choice) := by
  have hknows := h.reader
  have hle := h.le
  have hi := h.index
  unfold Sys.stepRead
  cases hpc : s.reader.pc with
  | idle => exact h
  | head =>
    dsimp only
    split
    · next hlt => exact h.readAt hpc nofun nofun rfl hlt trivial
    · exact h.readReturn hpc nofun rfl rfl
  | empty =>
    rw [hpc] at hi
    dsimp only
    split
    · exact h.readAt hpc nofun nofun rfl (hi nofun nofun) rfl
    · exact h.readAt hpc nofun nofun rfl (hi nofun nofun) ⟨hle, le_rfl⟩
  | emptyR v =>
    rw [hpc] at hi hknows
    obtain rfl : v = s.pipe.rpos := hknows
    dsimp only
    split
    · exact h.readAt hpc nofun nofun rfl (hi nofun nofun) trivial
    · next hne =>
        have hne' : s.pipe.rpos.toNat ≠ s.pipe.wpos.toNat := fun e =>
          hne (BitVec.eq_of_toNat_eq e)
        exact h.readAt hpc nofun nofun rfl (hi nofun nofun)
          (show s.pipe.rpos.toNat < s.pipe.wpos.toNat by omega)
  | emptyW v =>
    rw [hpc] at hi hknows
    obtain ⟨hlo, hhi⟩ : s.pipe.rpos.toNat ≤ v.toNat ∧ v.toNat ≤ s.pipe.wpos.toNat := hknows
    dsimp only
    split
    · exact h.readAt hpc nofun nofun rfl (hi nofun nofun) trivial
    · next hne =>
        have hne' : s.pipe.rpos.toNat ≠ v.toNat := fun e => hne (BitVec.eq_of_toNat_eq e)
        exact h.readAt hpc nofun nofun rfl (hi nofun nofun)
          (show s.pipe.rpos.toNat < s.pipe.wpos.toNat by omega)
  | drained =>
    rw [hpc] at hi
    dsimp only
    split
    · exact h.readReturn hpc nofun rfl rfl
    · next hzero =>
        split
        · exact h.readReturn hpc nofun rfl (eq_of_not_pos hzero)
        · exact h.readAt hpc nofun nofun rfl (hi nofun nofun) trivial
  | index =>
    rw [hpc] at hi hknows
    exact h.readAt hpc nofun nofun rfl (hi nofun nofun) ⟨hknows, rfl⟩
  | fetch v =>
    rw [hpc] at hi hknows
    exact h.readAt hpc nofun nofun rfl (hi nofun nofun) hknows.1
  | keep b =>
    rw [hpc] at hi hknows
    refine ⟨h.le, h.room, h.length, h.small, ?_, fun _ _ => hi nofun nofun, hknows, h.writer⟩
    rw [taken_keep hpc, List.length_append, h.count, hpc]
    rfl
  | incr =>
    rw [hpc] at hi hknows
    exact h.readAt hpc nofun nofun rfl (hi nofun nofun) ⟨hknows, rfl⟩
  | bump v =>
    rw [hpc] at hi hknows
    obtain ⟨hlt, rfl⟩ : s.pipe.rpos.toNat < s.pipe.wpos.toNat ∧ v = s.pipe.rpos := hknows
    have hpos := toNat_succ h.rpos_le
    have hroom := h.room
    refine ⟨?_, ?_, h.length, h.small, ?_, fun _ hne => absurd rfl hne, trivial, ?_⟩
    · show (s.pipe.rpos + 1#32).toNat ≤ s.pipe.wpos.toNat
      omega
    · show s.stored.length ≤ (s.pipe.rpos + 1#32).toNat + 32
      omega
    · rw [taken_bump _ hpc (hi nofun nofun), h.count, hpc]
      exact hpos.symm
    · exact h.writer.mono rfl (show s.pipe.rpos.toNat ≤ (s.pipe.rpos + 1#32).toNat by omega)

/-! ### The writer -/

/-- The writer moves on in its code, or returns. -/
theorem writeAt {w : Writer} (h : Positions s) (hahead : w.pc.ahead = s.writer.pc.ahead)
    (hknows : w.pc.Knows s.pipe) : Positions { s with writer := w } := by
  refine ⟨h.le, h.room, ?_, h.small, h.count, h.index, h.reader, hknows⟩
  show s.stored.length = s.pipe.wpos.toNat + w.pc.ahead
  rw [hahead]
  exact h.length

/-- The test found room. -/
theorem room_of_test {r w : Word} (hr : r.toNat ≤ 2 ^ 31 + 1) (h : ¬ r + 32#32 ≤ w) :
    w.toNat < r.toNat + 32 := by
  have hlt : ¬ (r + 32#32).toNat ≤ w.toNat := h
  rw [toNat_room hr] at hlt
  omega

/-- **The writer's steps**, while the bytes can be counted. -/
theorem stepWrite (h : Positions s) (choice : Bool)
    (hsmall : (s.stepWrite choice).stored.length ≤ 2 ^ 31 + 1) :
    Positions (s.stepWrite choice) := by
  have hknows := h.writer
  have hrpos := h.rpos_le
  have hlen := h.length
  unfold Sys.stepWrite at hsmall ⊢
  cases hpc : s.writer.pc with
  | idle => exact h
  | head =>
    dsimp only
    split
    · exact h.writeAt (by rw [hpc]; rfl) trivial
    · exact h.writeAt (by rw [hpc]; rfl) trivial
  | full =>
    dsimp only
    split
    · exact h.writeAt (by rw [hpc]; rfl) rfl
    · exact h.writeAt (by rw [hpc]; rfl) (le_refl s.pipe.rpos.toNat)
  | fullW v =>
    rw [hpc] at hknows
    obtain rfl : v = s.pipe.wpos := hknows
    dsimp only
    split
    · exact h.writeAt (by rw [hpc]; rfl) trivial
    · next hroom => exact h.writeAt (by rw [hpc]; rfl) (room_of_test hrpos hroom)
  | fullR v =>
    rw [hpc] at hknows
    have hv : v.toNat ≤ s.pipe.rpos.toNat := hknows
    dsimp only
    split
    · exact h.writeAt (by rw [hpc]; rfl) trivial
    · next hroom =>
        have hlt := room_of_test (by omega) hroom
        exact h.writeAt (by rw [hpc]; rfl)
          (show s.pipe.wpos.toNat < s.pipe.rpos.toNat + 32 by omega)
  | stuck =>
    dsimp only
    split
    · exact h.writeAt (by rw [hpc]; rfl) trivial
    · exact h.writeAt (by rw [hpc]; rfl) trivial
  | index =>
    rw [hpc] at hknows
    exact h.writeAt (by rw [hpc]; rfl) ⟨hknows, rfl⟩
  | put v =>
    rw [hpc] at hknows hsmall hlen
    obtain ⟨hroom, rfl⟩ : s.pipe.wpos.toNat < s.pipe.rpos.toNat + 32 ∧ v = s.pipe.wpos := hknows
    have hlen' : s.stored.length = s.pipe.wpos.toNat := hlen
    refine ⟨h.le, ?_, ?_, hsmall, h.count, h.index, h.reader, trivial⟩
    · rw [List.length_append, List.length_singleton]
      show s.stored.length + 1 ≤ s.pipe.rpos.toNat + 32
      omega
    · rw [List.length_append, List.length_singleton, hlen']
      rfl
  | incr => exact h.writeAt (by rw [hpc]; rfl) rfl
  | bump v =>
    rw [hpc] at hknows hlen
    obtain rfl : v = s.pipe.wpos := hknows
    have hlen' : s.stored.length = s.pipe.wpos.toNat + 1 := hlen
    have hle := h.le
    have hpos := toNat_succ h.wpos_le
    refine ⟨?_, h.room, ?_, h.small, h.count, h.index, ?_, trivial⟩
    · show s.pipe.rpos.toNat ≤ (s.pipe.wpos + 1#32).toNat
      omega
    · show s.stored.length = (s.pipe.wpos + 1#32).toNat + 0
      omega
    · exact h.reader.mono rfl (show s.pipe.wpos.toNat ≤ (s.pipe.wpos + 1#32).toNat by omega)

/-- One step, while the bytes can be counted. -/
theorem next (h : Positions s) (ev : Event) (hsmall : (s.next ev).stored.length ≤ 2 ^ 31 + 1) :
    Positions (s.next ev) := by
  cases ev with
  | read n vbuf =>
    show Positions (s.callRead n vbuf)
    unfold Sys.callRead
    split
    · next hidle =>
        refine ⟨h.le, h.room, h.length, h.small, ?_, fun _ hne => absurd rfl hne, trivial,
          h.writer⟩
        rw [taken_call n vbuf hidle, h.count, hidle]
        rfl
    · exact h
  | write n vbuf =>
    show Positions (s.callWrite n vbuf)
    unfold Sys.callWrite
    split
    · next hidle => exact h.writeAt (by rw [hidle]; rfl) trivial
    · exact h
  | reader choice => exact h.stepRead choice
  | writer choice => exact h.stepWrite choice hsmall

end Positions

/-! ## Runs -/

/-- What is stored stays in the sequence. -/
theorem stored_next (s : Sys) (ev : Event) : s.stored <+: (s.next ev).stored := by
  cases ev with
  | read n vbuf =>
    show s.stored <+: (s.callRead n vbuf).stored
    unfold Sys.callRead
    split <;> exact List.prefix_rfl
  | write n vbuf =>
    show s.stored <+: (s.callWrite n vbuf).stored
    unfold Sys.callWrite
    split <;> exact List.prefix_rfl
  | reader choice =>
    show s.stored <+: (s.stepRead choice).stored
    unfold Sys.stepRead
    split <;> repeat' split
    all_goals exact List.prefix_rfl
  | writer choice =>
    show s.stored <+: (s.stepWrite choice).stored
    unfold Sys.stepWrite
    split
    case h_8 => exact List.prefix_append _ _
    all_goals repeat' split
    all_goals exact List.prefix_rfl

/-- What is stored is never taken back. -/
theorem stored_exec (evs : List Event) : ∀ s : Sys, s.stored <+: (s.exec evs).stored := by
  induction evs with
  | nil => intro s; exact List.prefix_rfl
  | cons ev evs ih => intro s; exact (stored_next s ev).trans (ih (s.next ev))

theorem exec_append (s : Sys) (l l' : List Event) : s.exec (l ++ l') = (s.exec l).exec l' :=
  List.foldl_append

theorem stored_le_of_prefix {l l' : List Event} (h : l <+: l') :
    (Sys.start.exec l).stored.length ≤ (Sys.start.exec l').stored.length := by
  obtain ⟨t, rfl⟩ := h
  rw [exec_append]
  exact (stored_exec t _).length_le

theorem positions_start : Positions .start :=
  ⟨le_rfl, by decide, rfl, by decide, rfl, fun hne => absurd rfl hne, trivial, trivial⟩

/-- The positions count the bytes in all runs that store few enough. -/
theorem positions_exec (evs : List Event) (h : (Sys.start.exec evs).stored.length ≤ 2 ^ 31 + 1) :
    Positions (Sys.start.exec evs) := by
  induction evs using List.reverseRecOn with
  | nil => exact positions_start
  | append_singleton l ev ih =>
    have hle := stored_le_of_prefix (List.prefix_append l [ev])
    have hstep : Sys.start.exec (l ++ [ev]) = (Sys.start.exec l).next ev := exec_append _ _ _
    rw [hstep] at h hle ⊢
    exact (ih (by omega)).next ev h

/-! ## The contents -/

/-- The ring holds the bytes from `p_rpos` on, what was taken comes first in the sequence, and the
byte the reader has fetched is the next one. -/
structure Contents (s : Sys) : Prop where
  holds : Ring.Holds PIPEBUFSIZ s.pipe.cell s.stored s.pipe.rpos.toNat s.stored.length
  taken : s.taken <+: s.stored
  fetched : ∀ b, s.reader.pc = .keep b → s.stored[s.pipe.rpos.toNat]? = some b

namespace Contents

/-- The reader moves on in its code, or returns. -/
theorem moved {r : Reader} {returned : List (BitVec 8)} (h : Contents s)
    (htaken : ({ s with reader := r, returned := returned } : Sys).taken = s.taken)
    (hfetched : ∀ b, r.pc = .keep b → s.stored[s.pipe.rpos.toNat]? = some b) :
    Contents { s with reader := r, returned := returned } :=
  ⟨h.holds, htaken ▸ h.taken, hfetched⟩

/-- **The reader's steps.** -/
theorem stepRead (h : Contents s) (hp : Positions s) (hsmall : s.stored.length < 2 ^ 31)
    (choice : Bool) : Contents (s.stepRead choice) := by
  have hknows := hp.reader
  have hlen := hp.length
  unfold Sys.stepRead
  cases hpc : s.reader.pc with
  | idle => exact h
  | head =>
    dsimp only
    split
    · exact h.moved (taken_readAt hpc nofun nofun rfl) nofun
    · exact h.moved (taken_readReturn hpc nofun rfl rfl) nofun
  | empty =>
    dsimp only
    split <;> exact h.moved (taken_readAt hpc nofun nofun rfl) nofun
  | emptyR v =>
    dsimp only
    split <;> exact h.moved (taken_readAt hpc nofun nofun rfl) nofun
  | emptyW v =>
    dsimp only
    split <;> exact h.moved (taken_readAt hpc nofun nofun rfl) nofun
  | drained =>
    dsimp only
    split
    · exact h.moved (taken_readReturn hpc nofun rfl rfl) nofun
    · next hzero =>
        split
        · exact h.moved (taken_readReturn hpc nofun rfl (eq_of_not_pos hzero)) nofun
        · exact h.moved (taken_readAt hpc nofun nofun rfl) nofun
  | index => exact h.moved (taken_readAt hpc nofun nofun rfl) nofun
  | fetch v =>
    rw [hpc] at hknows
    obtain ⟨hlt, rfl⟩ : s.pipe.rpos.toNat < s.pipe.wpos.toNat ∧ v = s.pipe.rpos := hknows
    refine h.moved (taken_readAt hpc nofun nofun rfl) fun b hb => ?_
    obtain rfl : s.pipe.buf (slot s.pipe.rpos) = b := ReadPc.keep.inj hb
    rw [h.holds s.pipe.rpos.toNat le_rfl (by omega), slot_eq (by omega)]
    rfl
  | keep b =>
    refine ⟨h.holds, ?_, nofun⟩
    rw [taken_keep hpc]
    refine Ring.prefix_concat h.taken ?_
    rw [hp.count, hpc]
    exact h.fetched b hpc
  | incr => exact h.moved (taken_readAt hpc nofun nofun rfl) nofun
  | bump v =>
    have hi := hp.index
    rw [hpc] at hknows hi
    obtain ⟨-, rfl⟩ : s.pipe.rpos.toNat < s.pipe.wpos.toNat ∧ v = s.pipe.rpos := hknows
    refine ⟨?_, ?_, nofun⟩
    · show Ring.Holds _ s.pipe.cell s.stored (s.pipe.rpos + 1#32).toNat s.stored.length
      exact h.holds.advance (by rw [toNat_succ hp.rpos_le]; omega)
    · rw [taken_bump _ hpc (hi nofun nofun)]
      exact h.taken

/-- The byte is stored in the ring. -/
theorem put (h : Contents s) (hp : Positions s) (hpc : s.writer.pc = .put v)
    (hsmall : s.stored.length + 1 < 2 ^ 31) :
    Contents { s with
      pipe :=
        { s.pipe with
          buf := update s.pipe.buf (slot v) (s.writer.vbuf s.writer.i.toNat) }
      writer := { s.writer with pc := .incr }
      stored := s.stored ++ [s.writer.vbuf s.writer.i.toNat] } := by
  have hknows := hp.writer
  rw [hpc] at hknows
  obtain ⟨hroom, rfl⟩ : s.pipe.wpos.toNat < s.pipe.rpos.toNat + 32 ∧ v = s.pipe.wpos := hknows
  have hlen : s.stored.length = s.pipe.wpos.toNat := by
    rw [hp.length, hpc]
    rfl
  set b := s.writer.vbuf s.writer.i.toNat with hb
  have hcell : ({ s.pipe with buf := update s.pipe.buf (slot s.pipe.wpos) b } : Pipe).cell
      = update s.pipe.cell (s.stored.length % PIPEBUFSIZ) b := by
    rw [slot_eq (by omega), hlen]
    exact update_comp_eq_of_injective _ Nat.cast_injective _ _
  refine ⟨?_, h.taken.trans (List.prefix_append _ _), fun c hc => ?_⟩
  · rw [hcell, List.length_append, List.length_singleton]
    exact h.holds.put rfl (by rw [hlen]; exact hroom) b
  · have hold := h.fetched c hc
    obtain ⟨hlt, -⟩ := List.getElem?_eq_some_iff.1 hold
    rw [List.getElem?_append_left hlt]
    exact hold

/-- **The writer's steps**: only one of them touches the bytes. -/
theorem stepWrite (h : Contents s) (hp : Positions s) (choice : Bool)
    (hsmall : (s.stepWrite choice).stored.length < 2 ^ 31) : Contents (s.stepWrite choice) := by
  unfold Sys.stepWrite at hsmall ⊢
  cases hpc : s.writer.pc with
  | put v =>
    rw [hpc] at hsmall
    exact h.put hp hpc (by simpa using hsmall)
  | idle => exact h
  | head => dsimp only; split <;> exact ⟨h.holds, h.taken, h.fetched⟩
  | full => dsimp only; split <;> exact ⟨h.holds, h.taken, h.fetched⟩
  | fullW v => exact ⟨h.holds, h.taken, h.fetched⟩
  | fullR v => exact ⟨h.holds, h.taken, h.fetched⟩
  | stuck => dsimp only; split <;> exact ⟨h.holds, h.taken, h.fetched⟩
  | index => exact ⟨h.holds, h.taken, h.fetched⟩
  | incr => exact ⟨h.holds, h.taken, h.fetched⟩
  | bump v => exact ⟨h.holds, h.taken, h.fetched⟩

/-- One step, as long as the positions fit an `off_t`. -/
theorem next (h : Contents s) (hp : Positions s) (ev : Event)
    (hsmall : (s.next ev).stored.length < 2 ^ 31) : Contents (s.next ev) := by
  cases ev with
  | read n vbuf =>
    show Contents (s.callRead n vbuf)
    unfold Sys.callRead
    split
    · next hidle => exact h.moved (taken_call n vbuf hidle) nofun
    · exact h
  | write n vbuf =>
    show Contents (s.callWrite n vbuf)
    unfold Sys.callWrite
    split
    · exact ⟨h.holds, h.taken, h.fetched⟩
    · exact h
  | reader choice =>
    exact h.stepRead hp (lt_of_le_of_lt (stored_next s (.reader choice)).length_le hsmall) choice
  | writer choice => exact h.stepWrite hp choice hsmall

end Contents

/-- The contents in every run that has stored fewer than 2^31 bytes. -/
theorem contents_exec (evs : List Event) (h : (Sys.start.exec evs).stored.length < 2 ^ 31) :
    Contents (Sys.start.exec evs) := by
  induction evs using List.reverseRecOn with
  | nil => exact ⟨.empty, List.prefix_rfl, nofun⟩
  | append_singleton l ev ih =>
    have hle := stored_le_of_prefix (List.prefix_append l [ev])
    have hstep : Sys.start.exec (l ++ [ev]) = (Sys.start.exec l).next ev := exec_append _ _ _
    rw [hstep] at h hle ⊢
    exact (ih (by omega)).next (positions_exec l (by omega)) ev h

/-- **A pipe with one reader and one writer is a FIFO that loses nothing.**  After any steps of
the two, with fewer than 2^31 bytes stored: the bytes returned so far, and with them those of the
read under way, come first in the sequence of the bytes stored; the positions are at most
`PIPEBUFSIZ` apart; and a byte about to be overwritten has been read. -/
theorem fifo (evs : List Event) (hsmall : (Sys.start.exec evs).stored.length < 2 ^ 31) :
    let s := Sys.start.exec evs
    s.returned <+: s.stored ∧ s.taken <+: s.stored ∧
    0 ≤ s.pipe.wpos.toInt - s.pipe.rpos.toInt ∧
    s.pipe.wpos.toInt - s.pipe.rpos.toInt ≤ PIPEBUFSIZ ∧
    ∀ j, s.Overwrites j → j < s.taken.length := by
  intro s
  have hsmall' : s.stored.length < 2 ^ 31 := hsmall
  have hp : Positions s := positions_exec evs (by omega)
  have h : Contents s := contents_exec evs hsmall
  have hle := hp.le
  have hroom := hp.room
  have hlen := hp.length
  have hint : ∀ pos : Word, pos.toNat < 2 ^ 31 → pos.toInt = pos.toNat := fun pos hpos => by
    rw [BitVec.toInt_eq_toNat_cond, if_pos (by omega)]
  refine ⟨(List.prefix_append _ _).trans h.taken, h.taken, ?_, ?_, ?_⟩
  · rw [hint _ (by omega), hint _ (by omega)]
    omega
  · rw [hint _ (by omega), hint _ (by omega), PIPEBUFSIZ]
    omega
  · rintro j ⟨v, hpc, hj, hslot⟩
    have hknows := hp.writer
    rw [hpc] at hknows
    obtain ⟨hlt, rfl⟩ : s.pipe.wpos.toNat < s.pipe.rpos.toNat + 32 ∧ v = s.pipe.wpos := hknows
    have hahead : s.stored.length = s.pipe.wpos.toNat := by
      rw [hlen, hpc]
      rfl
    -- a byte not read yet is less than `PIPEBUFSIZ` before the one stored, so in another cell
    by_contra hread
    have hcount := hp.count
    have hne := Ring.mod_ne_of_room (N := PIPEBUFSIZ) (r := s.pipe.rpos.toNat) (j := j)
      (w := s.pipe.wpos.toNat) (by omega) (by omega) hlt
    rw [slot_eq (by omega)] at hslot
    exact hne (by exact_mod_cast hslot.symm)

/-- A write of one byte, and then a read that asks for two. -/
def oneByte : List Event :=
  .write 1#32 (fun _ => 7#8) :: List.replicate 8 (.writer true) ++
    .read 2#32 (fun _ => 0#8) :: List.replicate 12 (.reader true)

theorem fifo_oneByte : (Sys.start.exec oneByte).stored = [7#8] ∧
    (Sys.start.exec oneByte).returned = [7#8] ∧ (Sys.start.exec oneByte).reader.ret = 1#32 ∧
    (Sys.start.exec oneByte).taken <+: (Sys.start.exec oneByte).stored :=
  ⟨rfl, rfl, rfl, (fifo oneByte (by decide)).2.1⟩

end Jos.Devpipe
