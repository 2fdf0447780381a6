import Jos.Inc.Error
import Jos.User.Fd

/-!
# The table of open files

The first half of `fs/serv.c`.  Entry `i` of `opentab` has a page of its own for the
`struct Fd` that the file server shares with its clients.  Whether the entry is in use is
not stored: `pageref` of that page says it, which is 0 before its first use, 1 when only
the server maps the page, and more while clients do.

The reference counts are an argument of the functions here; they are what the rest of the
system makes them.
-/

namespace Jos.Fs

open User

/-- Max number of open files in the file system at once. -/
def MAXOPEN : ℕ := 1024

/-- An index into `opentab`. -/
abbrev Slot := Fin 1024

/-- `struct OpenFile`; `o_fd` is `fdPage`, for good. -/
structure OpenFile where
  fileid : Word
  file : ℕ
  mode : Word

/-- `struct Fd`, with the part of it that is the server's. -/
structure Fd where
  devId : Word
  omode : Word
  id : Word

/-- A page of zeroes. -/
def Fd.zero : Fd := ⟨0#32, 0#32, 0#32⟩

abbrev Opentab := Slot → OpenFile

/-- `opentab` as it is in the program. -/
def opentab : Opentab := fun i => ⟨0#32, 0, if i.val = 0 then 1#32 else 0#32⟩

/-- The page of entry `i`, from `FILEVA` on. -/
def fdPage (i : Slot) : Vpn := ⟨0xD0000 + i.val, by have := i.isLt; omega⟩

/-- `fsreq`, where the page of a request is mapped. -/
def fsreqPage : Vpn := ⟨0xFFFF, by decide⟩

theorem fdPage_ne_fsreqPage (i : Slot) : fdPage i ≠ fsreqPage := by
  intro h
  have hval : 0xD0000 + i.val = 0xFFFF := congrArg Fin.val h
  omega

theorem fdPage_injective : Function.Injective fdPage := by
  intro i j h
  have hval : 0xD0000 + i.val = 0xD0000 + j.val := congrArg Fin.val h
  exact Fin.ext (by omega)

/-- `serve_init`. -/
def serveInit (tab : Opentab) : Opentab := fun i => { tab i with fileid := BitVec.ofNat 32 i.val }

/-! ## `openfile_alloc` -/

/-- What the `switch` in `openfile_alloc` does with an entry. -/
inductive Turn
  /-- a page first, and then take it -/
  | alloc
  | take
  /-- go on with the next entry -/
  | next
  deriving DecidableEq

/-- The `switch`, on the reference count of the entry's page. -/
def turn : ℕ → Turn
  | 0 => .alloc
  | 1 => .take
  | _ => .next

theorem turn_eq_next {n : ℕ} : turn n = .next ↔ 1 < n := by
  match n with
  | 0 => simp [turn]
  | 1 => simp [turn]
  | n + 2 => simp [turn]

theorem turn_eq_alloc {n : ℕ} : turn n = .alloc ↔ n = 0 := by
  match n with
  | 0 => simp [turn]
  | 1 => simp [turn]
  | n + 2 => simp [turn]

theorem turn_eq_take {n : ℕ} : turn n = .take ↔ n = 1 := by
  match n with
  | 0 => simp [turn]
  | 1 => simp [turn]
  | n + 2 => simp [turn]

/-- Entry `i` gets its next id. -/
def takeEntry (tab : Opentab) (i : Slot) : Opentab :=
  Function.update tab i { tab i with fileid := (tab i).fileid + BitVec.ofNat 32 MAXOPEN }

/-! ## `openfile_lookup` -/

/-- Entry `n` of the table, counted around it. -/
def slotAt (n : ℕ) : Slot := ⟨n % 1024, Nat.mod_lt n (by norm_num)⟩

/-- `fileid % MAXOPEN`. -/
def slotOf (fileid : Word) : Slot := slotAt fileid.toNat

/-- Look up an open file; `ref` has the reference counts of the entries' pages. -/
def openfileLookup (ref : Slot → ℕ) (tab : Opentab) (fileid : Word) : Except Errno Slot :=
  if ref (slotOf fileid) ≤ 1 ∨ (tab (slotOf fileid)).fileid ≠ fileid then .error .inval
  else .ok (slotOf fileid)

theorem openfileLookup_ok {ref : Slot → ℕ} {tab : Opentab} {fileid : Word} {i : Slot} :
    openfileLookup ref tab fileid = .ok i ↔
      slotOf fileid = i ∧ 1 < ref i ∧ (tab i).fileid = fileid := by
  unfold openfileLookup
  split
  · rename_i h
    refine iff_of_false (by simp) ?_
    rintro ⟨rfl, href, hid⟩
    exact h.elim (fun hle => absurd href (by omega)) (fun hne => hne hid)
  · rename_i h
    rw [not_or, not_le, not_not] at h
    constructor
    · intro heq
      obtain rfl : slotOf fileid = i := by simpa using heq
      exact ⟨rfl, h⟩
    · rintro ⟨rfl, -⟩
      rfl

end Jos.Fs
