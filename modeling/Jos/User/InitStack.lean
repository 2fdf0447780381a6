import Jos.User.Spawn
import Mathlib.Data.List.GetD

/-!
# `init_stack` with machine words

`lib/spawn.c` builds the first page of a child's stack at `UTEMP`: the argument
strings at the top, `argv` below them, then the two arguments of `umain`.  Where
these go is computed downwards in 32-bit arithmetic, and one comparison with `UTEMP`
decides whether they fit.  `Jos.User.Spawn` has the layout with numbers that do not
wrap around; here the addresses are words and every store is made byte by byte,
wherever it falls.

* `initStack_fits` — arguments that fit are stored as `stackBytes` has it.
* `initStack_wraps` — arguments that do not fit and pass the test go through the last
  byte of the address space.
* `initStack_correct_iff` — when `init_stack` does what it should.

The arguments lie in the parent's memory, which `init_stack` changes: it replaces the page
at `UTEMP` before it copies them, so they must not lie there.  A store to a copy-on-write
page goes through `pgfault` of `lib/fork.c`.
-/

namespace Jos.Spawn.InitStack

open Jos.User Function

/-! ## Arguments in memory -/

/-- The word at `a`. -/
def wordAt (sp : Space) (a : Word) : Option Word := do
  let b₀ ← sp.byte a.toNat
  let b₁ ← sp.byte (a + 1#32).toNat
  let b₂ ← sp.byte (a + 2#32).toNat
  let b₃ ← sp.byte (a + 3#32).toNat
  pure (b₃ ++ b₂ ++ b₁ ++ b₀)

/-- The string `a` is at `p`, with its zero. -/
def StringAt (sp : Space) (p : Word) (a : List (BitVec 8)) : Prop :=
  ∀ k < a.length + 1, sp.byte (p + BitVec.ofNat 32 k).toNat = (a ++ [0#8])[k]?

instance (sp : Space) (p : Word) (a : List (BitVec 8)) : Decidable (StringAt sp p a) :=
  inferInstanceAs (Decidable (∀ k < _, _))

/-- The null-terminated array of pointers at `p` has the strings of `argv`. -/
structure ArgvAt (sp : Space) (p : Word) (argv : Args) : Prop where
  strings : ∀ i, (h : i < argv.length) →
    ∃ q, wordAt sp (p + BitVec.ofNat 32 (4 * i)) = some q ∧ StringAt sp q argv[i]
  null : wordAt sp (p + BitVec.ofNat 32 (4 * argv.length)) = some 0#32

/-- What `_start` finds on its stack: `argc` and `argv`. -/
structure Passed (sp : Space) (esp : Word) (argv : Args) : Prop where
  argc : wordAt sp esp = some (BitVec.ofNat 32 argv.length)
  argv : ∃ p, wordAt sp (esp + 4#32) = some p ∧ ArgvAt sp p argv

/-! ## The code -/

/-- `PGNUM(PFTEMP)`. -/
def pftempPage : ℕ := 0x7FF

/-- A store to a copy-on-write page: `pgfault` puts a copy in its place. -/
def copyOnWrite (va : Word) (p : UPage) (b : BitVec 8) : M Unit := do
  if ← ask then
    modify fun s => (s.setParent pftempPage none).setParent (pgnum va)
      (some ⟨update p.bytes (pgoff va).toNat b, .ofWritable true⟩)
  else
    throw .panic

/-- A store of one byte by the parent. -/
def store (va : Word) (b : BitVec 8) : M Unit := do
  let s ← get
  if UTOP ≤ va then
    throw .fault
  else
    match s.parent (pgnum va) with
    | none => throw .fault
    | some p =>
      if p.perm.writable then
        modify fun s => s.setParent (pgnum va)
          (some { p with bytes := update p.bytes (pgoff va).toNat b })
      else if p.perm.cow then
        copyOnWrite va p b
      else
        throw .fault

/-- Stores of the bytes of a list, from `va` on. -/
def storeBytes : Word → List (BitVec 8) → M Unit
  | _, [] => pure ()
  | va, b :: l => do
      store va b
      storeBytes (va + 1#32) l

def storeWord (va w : Word) : M Unit :=
  storeBytes va [byteOf w 0, byteOf w 1, byteOf w 2, byteOf w 3]

/-- `strcpy(dst, argv[i])`, where `argv[i]` is the word at `p` and was the string `src`. -/
def strcpy (dst p : Word) (src : List (BitVec 8)) : M Unit := do
  let s ← get
  match wordAt s.parent p with
  | none => throw .overwritten
  | some q =>
    if StringAt s.parent q src then storeBytes dst (src ++ [0#8]) else throw .overwritten

/-- The loop that counts the bytes of the strings. -/
def stringSizeLoop : Word → Args → Word
  | n, [] => n
  | n, a :: argv => stringSizeLoop (n + (BitVec.ofNat 32 a.length + 1#32)) argv

/-- `string_store`. -/
def stringStore (argv : Args) : Word :=
  UTEMP + BitVec.ofNat 32 PGSIZE - stringSizeLoop 0#32 argv

/-- `ROUNDDOWN(a, 4)`. -/
def roundDown4 (a : Word) : Word := a - a % 4#32

/-- `argv_store`. -/
def argvStore (argv : Args) : Word :=
  roundDown4 (stringStore argv) - 4#32 * (BitVec.ofNat 32 argv.length + 1#32)

/-- The test of `init_stack`. -/
def TooBig (argv : Args) : Prop := argvStore argv - 8#32 < UTEMP

instance (argv : Args) : Decidable (TooBig argv) := inferInstanceAs (Decidable (_ < _))

/-- `UTEMP2USTACK`. -/
def utemp2ustack (a : Word) : Word := a + (USTACKTOP - BitVec.ofNat 32 PGSIZE) - UTEMP

/-- The loop that stores the strings and the pointers to them; the end of the last
string. -/
def storeLoop : Word → Word → Word → Args → M Word
  | _, _, string, [] => pure string
  | p, slot, string, a :: argv => do
      storeWord slot (utemp2ustack string)
      strcpy string p a
      storeLoop (p + 4#32) (slot + 4#32) (string + (BitVec.ofNat 32 a.length + 1#32)) argv

/-- What stands below the strings. -/
def storeRest (argv : Args) (string : Word) : M Unit :=
  if string ≠ UTEMP + BitVec.ofNat 32 PGSIZE then
    throw .panic
  else do
    storeWord (argvStore argv - 4#32) (utemp2ustack (argvStore argv))
    storeWord (argvStore argv - 8#32) (BitVec.ofNat 32 argv.length)

/-- All stores of `init_stack`. -/
def storeStack (p : Word) (argv : Args) : M Unit := do
  let string ← storeLoop p (argvStore argv) (stringStore argv) argv
  storeWord (argvStore argv + 4#32 * BitVec.ofNat 32 argv.length) 0#32
  storeRest argv string

/-- The end of `init_stack`: the page goes to the child. -/
def giveStack (esp : Word) : M (Except Errno Word) := do
  match ← sysPageMap UTEMP (USTACKTOP - BitVec.ofNat 32 PGSIZE) (.ofWritable true) with
  | .error x => do
      let _ ← sysPageUnmap UTEMP
      pure (.error x)
  | .ok () => do
      match ← sysPageUnmap UTEMP with
      | .error x => do
          let _ ← sysPageUnmap UTEMP
          pure (.error x)
      | .ok () => pure (.ok esp)

/-- `init_stack`, with the strings `argv` at `p`. -/
def initStack (p : Word) (argv : Args) : M (Except Errno Word) :=
  if TooBig argv then
    pure (.error .noMem)
  else do
    match ← sysPageAlloc UTEMP (.ofWritable true) with
    | .error x => pure (.error x)
    | .ok () => do
        storeStack p argv
        giveStack (utemp2ustack (argvStore argv - 8#32))

/-! ## The layout

The addresses are those of a layout over the integers, cut down to words. -/

section Layout

variable {argv : Args}

theorem stringSize_cons (a : List (BitVec 8)) (argv : Args) :
    stringSize (a :: argv) = a.length + 1 + stringSize argv := by
  simp [stringSize]

theorem stringSizeLoop_eq (n : Word) :
    stringSizeLoop n argv = n + BitVec.ofNat 32 (stringSize argv) := by
  induction argv generalizing n with
  | nil => simp [stringSizeLoop, stringSize]
  | cons a argv ih =>
    rw [stringSizeLoop, ih, stringSize_cons, BitVec.ofNat_add, BitVec.ofNat_add, BitVec.add_assoc]

/-- Where the strings start. -/
def stringPlace (argv : Args) : ℤ := 0x401000 - stringSize argv

/-- Where `argv` starts. -/
def argvPlace (argv : Args) : ℤ :=
  stringPlace argv - stringPlace argv % 4 - 4 * (argv.length + 1)

theorem ofNat_eq_ofInt (n : ℕ) : BitVec.ofNat 32 n = BitVec.ofInt 32 n :=
  (BitVec.ofInt_natCast ..).symm

theorem ofInt_sub (x y : ℤ) : BitVec.ofInt 32 (x - y) = BitVec.ofInt 32 x - BitVec.ofInt 32 y := by
  rw [eq_comm, BitVec.sub_eq_iff_eq_add, ← BitVec.ofInt_add, Int.sub_add_cancel]

theorem toNat_ofInt (x : ℤ) : (BitVec.ofInt 32 x).toNat = (x % 2 ^ 32).toNat := by
  simp [BitVec.toNat_ofInt]

theorem stringStore_eq : stringStore argv = BitVec.ofInt 32 (stringPlace argv) := by
  rw [stringStore, stringSizeLoop_eq, stringPlace, ofInt_sub, ofNat_eq_ofInt (stringSize argv),
    BitVec.zero_add]
  rfl

theorem roundDown4_ofInt (x : ℤ) :
    roundDown4 (BitVec.ofInt 32 x) = BitVec.ofInt 32 (x - x % 4) := by
  have hmod : BitVec.ofInt 32 x % 4#32 = BitVec.ofInt 32 (x % 4) := by
    apply BitVec.eq_of_toNat_eq
    rw [BitVec.toNat_umod, toNat_ofInt, toNat_ofInt, show (4#32 : Word).toNat = 4 from rfl]
    omega
  rw [roundDown4, hmod, ofInt_sub]

theorem argvStore_eq : argvStore argv = BitVec.ofInt 32 (argvPlace argv) := by
  have hslots : 4#32 * (BitVec.ofNat 32 argv.length + 1#32) =
      BitVec.ofInt 32 (4 * (argv.length + 1)) := by
    rw [BitVec.ofInt_mul, BitVec.ofInt_add, ofNat_eq_ofInt argv.length]
    rfl
  rw [argvStore, stringStore_eq, roundDown4_ofInt, hslots, argvPlace, ← ofInt_sub]

theorem argvStore_sub (k : ℕ) :
    argvStore argv - BitVec.ofNat 32 k = BitVec.ofInt 32 (argvPlace argv - k) := by
  rw [argvStore_eq, ofInt_sub, ofNat_eq_ofInt]

/-- The arguments fit if the layout does not reach below the page. -/
theorem argsFit_iff : ArgsFit argv ↔ 0x400000 ≤ argvPlace argv - 8 := by
  simp only [ArgsFit, argvPlace, stringPlace, PGSIZE]
  omega

theorem tooBig_iff : TooBig argv ↔ (argvPlace argv - 8) % 2 ^ 32 < 0x400000 := by
  rw [TooBig, show (8#32 : Word) = BitVec.ofNat 32 8 from rfl, argvStore_sub, BitVec.lt_def,
    toNat_ofInt, UTEMP, BitVec.toNat_ofNat]
  omega

theorem argvPlace_lt (argv : Args) : argvPlace argv < 0x401000 := by
  simp only [argvPlace, stringPlace]
  omega

/-- What fits passes the test … -/
theorem not_tooBig_of_fits (h : ArgsFit argv) : ¬ TooBig argv := by
  have hlt := argvPlace_lt argv
  rw [argsFit_iff] at h
  rw [tooBig_iff]
  omega

/-- … and what passes the test and does not fit has wrapped around. -/
theorem argvPlace_neg (hfit : ¬ ArgsFit argv) (h : ¬ TooBig argv) : argvPlace argv - 8 < 0 := by
  rw [argsFit_iff] at hfit
  rw [tooBig_iff] at h
  omega

end Layout

/-! ## Stores into the page

As long as they stay in the page at `UTEMP`, the stores build the page of
`Jos.User.Spawn`. -/

variable {o k : ℕ} {l a : List (BitVec 8)}

section Page

variable {s : Sys} {m : Memory} {p : Word} {argv : Args}

/-- The arguments are in the parent's memory, and not in the page at `UTEMP`. -/
def Outside (s : Sys) (p : Word) (argv : Args) : Prop :=
  ArgvAt (s.setParent 0x400 none).parent p argv

/-- The parent has the bytes `m` at `UTEMP`. -/
def withPage (s : Sys) (m : Memory) : Sys := s.setParent 0x400 (some ⟨m, .ofWritable true⟩)

/-- The address at offset `o` of the page. -/
def pageVa (o : ℕ) : Word := UTEMP + BitVec.ofNat 32 o

theorem toNat_pageVa (h : o ≤ PGSIZE) : (pageVa o).toNat = 0x400000 + o := by
  rw [PGSIZE] at h
  rw [pageVa, UTEMP, BitVec.toNat_add, BitVec.toNat_ofNat, BitVec.toNat_ofNat]
  omega

theorem pageVa_add (o k : ℕ) : pageVa o + BitVec.ofNat 32 k = pageVa (o + k) := by
  rw [pageVa, pageVa, BitVec.ofNat_add, BitVec.add_assoc]

theorem pgnum_pageVa (h : o < PGSIZE) : pgnum (pageVa o) = 0x400 := by
  have hva := toNat_pageVa h.le
  rw [PGSIZE] at h
  rw [pgnum, BitVec.toNat_ushiftRight, hva, Nat.shiftRight_eq_div_pow]
  omega

theorem pgoff_pageVa (h : o < PGSIZE) : (pgoff (pageVa o)).toNat = o := by
  have hva := toNat_pageVa h.le
  rw [PGSIZE] at h
  rw [pgoff, BitVec.toNat_and, hva, show (0xFFF#32 : Word).toNat = 2 ^ 12 - 1 from rfl,
    Nat.and_two_pow_sub_one_eq_mod]
  omega

theorem store_page (h : o < PGSIZE) (b : BitVec 8) :
    store (pageVa o) b (withPage s m) = .ok () (withPage s (update m o b)) := by
  have hva := toNat_pageVa h.le
  have hlow : ¬ UTOP ≤ pageVa o := by
    rw [PGSIZE] at h
    rw [BitVec.le_def, hva, show UTOP.toNat = 0xEEC00000 from rfl]
    omega
  have hpage : (withPage s m).parent (pgnum (pageVa o)) = some ⟨m, .ofWritable true⟩ := by
    simp [pgnum_pageVa h, withPage, Sys.setParent]
  rw [store, run_get_bind, if_neg hlow]
  simp only [hpage, Perm.ofWritable, if_true]
  rw [run_modify, pgnum_pageVa h, pgoff_pageVa h]
  simp [withPage, Sys.setParent, Perm.ofWritable]

theorem put_cons (m : Memory) (o : ℕ) (b : BitVec 8) (l : List (BitVec 8)) :
    m.put o (b :: l) = Memory.put (update m o b) (o + 1) l := by
  funext x
  simp only [Memory.put, List.length_cons]
  rcases lt_trichotomy x o with hx | rfl | hx
  · rw [if_neg (by omega), if_neg (by omega), update_of_ne hx.ne]
  · rw [if_pos (by omega), if_neg (by omega), update_self, Nat.sub_self, List.getD_cons_zero]
  · obtain ⟨k, rfl⟩ : ∃ k, x = o + 1 + k := ⟨x - (o + 1), by omega⟩
    rw [update_of_ne (by omega), show o + 1 + k - o = k + 1 by omega, List.getD_cons_succ,
      Nat.add_sub_cancel_left]
    exact if_congr (by omega) rfl rfl

theorem storeBytes_page (h : o + l.length ≤ PGSIZE) :
    storeBytes (pageVa o) l (withPage s m) = .ok () (withPage s (m.put o l)) := by
  induction l generalizing o m with
  | nil =>
    have hput : m.put o [] = m := funext fun x => Memory.put_of_apart (by simp; omega)
    rw [storeBytes, hput, run_pure]
  | cons b l ih =>
    rw [List.length_cons] at h
    rw [storeBytes, run_bind_ok (store_page (by omega) b), pageVa_add o 1, ih (by omega),
      put_cons]

theorem setWord_eq_put (m : Memory) (o : ℕ) (w : Word) :
    m.setWord o w = m.put o [byteOf w 0, byteOf w 1, byteOf w 2, byteOf w 3] := by
  funext x
  simp only [Memory.setWord, Memory.put, List.length_cons, List.length_nil]
  by_cases hx : o ≤ x ∧ x < o + 4
  · obtain ⟨k, rfl⟩ : ∃ k, x = o + k := ⟨x - o, by omega⟩
    have hk : k < 4 := by omega
    rw [if_pos hx, if_pos hx, Nat.add_sub_cancel_left]
    interval_cases k <;> rfl
  · rw [if_neg hx, if_neg hx]

theorem storeWord_page (h : o + 4 ≤ PGSIZE) (w : Word) :
    storeWord (pageVa o) w (withPage s m) = .ok () (withPage s (m.setWord o w)) := by
  rw [storeWord, storeBytes_page (by simpa using h), setWord_eq_put]

theorem utemp2ustack_pageVa (o : ℕ) : utemp2ustack (pageVa o) = ustackAddr o := by
  rw [utemp2ustack, pageVa, ustackAddr]
  ring

/-- What can be read without the page at `UTEMP` can be read with it. -/
theorem byte_withPage {a : ℕ} {b : BitVec 8} (h : (s.setParent 0x400 none).parent.byte a = some b) :
    (withPage s m).parent.byte a = some b := by
  obtain ⟨x, hx, rfl⟩ := Option.map_eq_some_iff.1 h
  change update s.parent 0x400 none (a / PGSIZE) = some x at hx
  have hne : a / PGSIZE ≠ 0x400 := by
    intro heq
    rw [heq, update_self] at hx
    cases hx
  rw [update_of_ne hne] at hx
  show (update s.parent 0x400 _ (a / PGSIZE)).map _ = _
  rw [update_of_ne hne, hx]
  rfl

theorem strcpy_page {q : Word} (hp : wordAt (s.setParent 0x400 none).parent p = some q)
    (ha : StringAt (s.setParent 0x400 none).parent q a) (h : o + a.length + 1 ≤ PGSIZE) :
    strcpy (pageVa o) p a (withPage s m) = .ok () (withPage s (m.put o (a ++ [0#8]))) := by
  have hp' : wordAt (withPage s m).parent p = some q := by
    simp only [wordAt, Option.bind_eq_bind, Option.bind_eq_some_iff] at hp
    obtain ⟨b₀, h₀, b₁, h₁, b₂, h₂, b₃, h₃, hw⟩ := hp
    rw [wordAt, byte_withPage h₀, byte_withPage h₁, byte_withPage h₂, byte_withPage h₃]
    exact hw
  have ha' : StringAt (withPage s m).parent q a := by
    intro k hk
    have hbyte := ha k hk
    rw [List.getElem?_eq_getElem (by simpa using hk)] at hbyte ⊢
    exact byte_withPage hbyte
  rw [strcpy, run_get_bind]
  simp only [hp', if_pos ha']
  exact storeBytes_page (by rw [List.length_append, List.length_singleton]; omega)

theorem ArgvAt.cons {sp : Space} (h : ArgvAt sp p (a :: argv)) :
    (∃ q, wordAt sp p = some q ∧ StringAt sp q a) ∧ ArgvAt sp (p + 4#32) argv := by
  have hnext : ∀ i, p + 4#32 + BitVec.ofNat 32 (4 * i) = p + BitVec.ofNat 32 (4 * (i + 1)) := by
    intro i
    rw [Nat.mul_add, Nat.add_comm, BitVec.ofNat_add, BitVec.add_assoc]
  refine ⟨by simpa using h.strings 0 (Nat.succ_pos _), fun i hi => ?_, ?_⟩
  · rw [hnext]
    exact h.strings (i + 1) (Nat.succ_lt_succ hi)
  · rw [hnext]
    exact h.null

theorem storeLoop_page (slot string : ℕ) (hargs : Outside s p argv)
    (hslot : slot + 4 * argv.length ≤ PGSIZE) (hstring : string + stringSize argv ≤ PGSIZE) :
    storeLoop p (pageVa slot) (pageVa string) argv (withPage s m) =
      .ok (pageVa (string + stringSize argv)) (withPage s (storeArgs m slot string argv)) := by
  induction argv generalizing p slot string m with
  | nil => simp [storeLoop, stringSize, storeArgs]
  | cons a argv ih =>
    rw [stringSize_cons] at hstring ⊢
    rw [List.length_cons] at hslot
    obtain ⟨⟨q, hq, ha⟩, hrest⟩ := ArgvAt.cons hargs
    rw [storeLoop, utemp2ustack_pageVa, run_bind_ok (storeWord_page (by omega) _),
      run_bind_ok (strcpy_page hq ha (by omega)), pageVa_add slot 4, ← BitVec.ofNat_add, pageVa_add,
      ih _ _ hrest (by omega) (by omega), storeArgs, Nat.add_assoc string, Nat.add_assoc string]

theorem ofInt_page (o : ℕ) : BitVec.ofInt 32 (0x400000 + o) = pageVa o := by
  rw [BitVec.ofInt_add, ← ofNat_eq_ofInt]
  rfl

theorem argvStore_sub_page (h : ArgsFit argv) (hk : k ≤ 8) :
    argvStore argv - BitVec.ofNat 32 k = pageVa (Spawn.argvStore argv - k) := by
  have hplace : argvPlace argv - k = 0x400000 + ((Spawn.argvStore argv - k : ℕ) : ℤ) := by
    simp only [ArgsFit, argvPlace, stringPlace, Spawn.argvStore, PGSIZE] at h ⊢
    omega
  rw [argvStore_sub, hplace, ofInt_page]

theorem argvStore_page (h : ArgsFit argv) : argvStore argv = pageVa (Spawn.argvStore argv) := by
  simpa using argvStore_sub_page (k := 0) h (by omega)

theorem stringStore_page (h : ArgsFit argv) :
    stringStore argv = pageVa (PGSIZE - stringSize argv) := by
  have hplace : stringPlace argv = 0x400000 + ((PGSIZE - stringSize argv : ℕ) : ℤ) := by
    have hsize := h.1
    simp only [stringPlace, PGSIZE] at hsize ⊢
    omega
  rw [stringStore_eq, hplace, ofInt_page]

/-- The layout inside the page. -/
theorem room_of_fits (h : ArgsFit argv) : 8 ≤ Spawn.argvStore argv ∧
    Spawn.argvStore argv + 4 * argv.length + 4 ≤ PGSIZE - stringSize argv ∧
      PGSIZE - stringSize argv + stringSize argv = PGSIZE := by
  simp only [ArgsFit, Spawn.argvStore, PGSIZE] at h ⊢
  omega

/-- If the arguments fit, the stores build the page. -/
theorem storeStack_page (h : ArgsFit argv) (hargs : Outside s p argv) :
    storeStack p argv (withPage s fun _ => 0#8) = .ok () (withPage s (stackBytes argv)) := by
  obtain ⟨hlow, hroom, hstring⟩ := room_of_fits h
  have hend : ¬ pageVa PGSIZE ≠ UTEMP + BitVec.ofNat 32 PGSIZE := not_not.2 rfl
  have hloop := storeLoop_page (m := fun _ => 0#8) (Spawn.argvStore argv)
    (PGSIZE - stringSize argv) hargs (by omega) hstring.le
  rw [hstring] at hloop
  have hslot : argvStore argv + 4#32 * BitVec.ofNat 32 argv.length =
      pageVa (Spawn.argvStore argv + 4 * argv.length) := by
    rw [argvStore_page h, ← pageVa_add, BitVec.ofNat_mul]
  have h4 := argvStore_sub_page (k := 4) h (by omega)
  have h8 := argvStore_sub_page (k := 8) h (by omega)
  rw [storeStack, hslot, argvStore_page h, stringStore_page h, run_bind_ok hloop,
    run_bind_ok (storeWord_page (by omega) _), storeRest, if_neg hend, h4, h8,
    argvStore_page h, utemp2ustack_pageVa, run_bind_ok (storeWord_page (by omega) _),
    storeWord_page (by omega), stackBytes]

end Page

/-! ## What `init_stack` does -/

section Outcome

variable {s s' : Sys} {p : Word} {argv : Args}

/-- A request has been made. -/
def asked (s : Sys) : Sys := { s with memory := fun n => s.memory (n + 1) }

theorem alloc_ok (h : s.memory 0 = true) :
    sysPageAlloc UTEMP (.ofWritable true) s = .ok (.ok ()) (withPage (asked s) fun _ => 0#8) := by
  have hask : ask s = .ok true (asked s) := by rw [← h]; rfl
  rw [sysPageAlloc, pageAllocAt, if_neg (by decide), run_bind_ok hask]
  rfl

theorem alloc_fail (h : s.memory 0 = false) :
    sysPageAlloc UTEMP (.ofWritable true) s = .ok (.error .noMem) (asked s) := by
  have hask : ask s = .ok false (asked s) := by rw [← h]; rfl
  rw [sysPageAlloc, pageAllocAt, if_neg (by decide), run_bind_ok hask]
  rfl

/-- `sys_page_map` of the page, with and without memory for a page table. -/
theorem map_run {m : Memory} :
    sysPageMap UTEMP (USTACKTOP - BitVec.ofNat 32 PGSIZE) (.ofWritable true) (withPage s m) =
      if s.memory 0 then .ok (.ok ()) ((withPage (asked s) m).setChild (ustacktopPage - 1)
        (some ⟨m, .ofWritable true⟩))
      else .ok (.error .noMem) (withPage (asked s) m) := by
  have hpage : (withPage s m).parent (pgnum UTEMP) = some ⟨m, .ofWritable true⟩ := by
    simp [withPage, Sys.setParent, show pgnum UTEMP = 0x400 from rfl]
  have hask : ask (withPage s m) = .ok (s.memory 0) (withPage (asked s) m) := rfl
  rw [sysPageMap, run_get_bind, if_neg (by decide)]
  simp only [hpage]
  rw [if_neg (by simp), run_bind_ok hask]
  cases s.memory 0 with
  | false => rfl
  | true => rfl

/-- After `init_stack`, if it had memory for both requests. -/
def stacked (argv : Args) (s : Sys) : Sys :=
  ((asked (asked s)).setChild (ustacktopPage - 1)
    (some ⟨stackBytes argv, .ofWritable true⟩)).setParent 0x400 none

theorem initStack_tooBig (h : TooBig argv) : initStack p argv s = .ok (.error .noMem) s := by
  rw [initStack, if_pos h, run_pure]

theorem initStack_noPage (h : ¬ TooBig argv) (hm : s.memory 0 = false) :
    initStack p argv s = .ok (.error .noMem) (asked s) := by
  rw [initStack, if_neg h]
  exact run_bind_ok (alloc_fail hm)

theorem initStack_fits_noMap (h : ArgsFit argv) (hargs : Outside s p argv)
    (h₀ : s.memory 0 = true) (h₁ : s.memory 1 = false) :
    initStack p argv s = .ok (.error .noMem) ((asked (asked s)).setParent 0x400 none) := by
  have hmap := map_run (s := asked s) (m := stackBytes argv)
  rw [if_neg (by simp [asked, h₁])] at hmap
  rw [initStack, if_neg (not_tooBig_of_fits h), run_bind_ok (alloc_ok h₀)]
  refine (run_bind_ok (storeStack_page (s := asked s) h hargs)).trans ?_
  rw [giveStack, run_bind_ok hmap]
  refine (run_bind_ok sysPageUnmap_utemp).trans ?_
  simp [withPage, Sys.setParent]

theorem initStack_fits (h : ArgsFit argv) (hargs : Outside s p argv) (h₀ : s.memory 0 = true)
    (h₁ : s.memory 1 = true) :
    initStack p argv s = .ok (.ok (ustackAddr (Spawn.argvStore argv - 8))) (stacked argv s) := by
  have hmap := map_run (s := asked s) (m := stackBytes argv)
  rw [if_pos (by simp [asked, h₁])] at hmap
  have hesp : utemp2ustack (argvStore argv - 8#32) = ustackAddr (Spawn.argvStore argv - 8) := by
    rw [← utemp2ustack_pageVa, ← argvStore_sub_page h le_rfl]
  rw [initStack, if_neg (not_tooBig_of_fits h), run_bind_ok (alloc_ok h₀)]
  refine (run_bind_ok (storeStack_page (s := asked s) h hargs)).trans ?_
  rw [giveStack, run_bind_ok hmap]
  refine (run_bind_ok sysPageUnmap_utemp).trans ?_
  show (pure (.ok (utemp2ustack (argvStore argv - 8#32))) : M (Except Errno Word)) _ = _
  rw [run_pure, hesp]
  simp [stacked, withPage, Sys.setParent, Sys.setChild]

/-! ### Layouts that wrap around -/

variable {va : Word} {u : Unit}

/-- A store that is made is made below `UTOP`. -/
theorem store_below {b : BitVec 8} (h : store va b s = .ok u s') : ¬ UTOP ≤ va := by
  intro hva
  rw [store, run_get_bind, if_pos hva] at h
  cases h

theorem storeBytes_below (h : storeBytes va l s = .ok u s') :
    ∀ k < l.length, ¬ UTOP ≤ va + BitVec.ofNat 32 k := by
  induction l generalizing va s with
  | nil => simp
  | cons b l ih =>
    obtain ⟨u', s₁, hb, hl⟩ := run_bind_inv h
    rintro (_ | k) hk
    · simpa using store_below hb
    · rw [Nat.add_comm, BitVec.ofNat_add, ← BitVec.add_assoc]
      exact ih hl k (by simpa using hk)

theorem storeWord_below {w : Word} (h : storeWord va w s = .ok u s') :
    ∀ k < 4, ¬ UTOP ≤ va + BitVec.ofNat 32 k := storeBytes_below h

theorem strcpy_below {dst : Word} (h : strcpy dst p a s = .ok u s') :
    ∀ k < a.length + 1, ¬ UTOP ≤ dst + BitVec.ofNat 32 k := by
  rw [strcpy, run_get_bind] at h
  cases hq : wordAt s.parent p with
  | none =>
    simp only [hq] at h
    cases h
  | some q =>
    simp only [hq] at h
    split at h
    · simpa using storeBytes_below h
    · cases h

/-- The loop makes every store of the slots and of the strings. -/
theorem storeLoop_below {slot string r : Word} (h : storeLoop p slot string argv s = .ok r s') :
    (∀ k < 4 * argv.length, ¬ UTOP ≤ slot + BitVec.ofNat 32 k) ∧
      ∀ k < stringSize argv, ¬ UTOP ≤ string + BitVec.ofNat 32 k := by
  induction argv generalizing p slot string s with
  | nil => simp [stringSize]
  | cons a argv ih =>
    obtain ⟨u, s₁, hslot, h⟩ := run_bind_inv h
    obtain ⟨u, s₂, hcopy, h⟩ := run_bind_inv h
    obtain ⟨ihslot, ihstring⟩ := ih h
    have hsum := stringSize_cons a argv
    refine ⟨fun k hk => ?_, fun k hk => ?_⟩
    · by_cases hlt : k < 4
      · exact storeWord_below hslot k hlt
      · obtain ⟨j, rfl⟩ : ∃ j, k = 4 + j := ⟨k - 4, by omega⟩
        rw [BitVec.ofNat_add, ← BitVec.add_assoc]
        exact ihslot j (by rw [List.length_cons] at hk; omega)
    · by_cases hlt : k < a.length + 1
      · exact strcpy_below hcopy k hlt
      · obtain ⟨j, rfl⟩ : ∃ j, k = a.length + 1 + j := ⟨k - (a.length + 1), by omega⟩
        rw [BitVec.ofNat_add, BitVec.ofNat_add, ← BitVec.add_assoc]
        exact ihstring j (by omega)

/-- The last byte of the address space is not the parent's. -/
theorem utop_le_of_eq {x : ℤ} (h : x + k = -1) : UTOP ≤ BitVec.ofInt 32 x + BitVec.ofNat 32 k := by
  rw [ofNat_eq_ofInt, ← BitVec.ofInt_add, h]
  decide

/-- If all stores are made, the layout does not wrap around: it would go through the
last byte of the address space. -/
theorem storeStack_below (h : storeStack p argv s = .ok u s') : 0 ≤ argvPlace argv - 8 := by
  obtain ⟨r, s₁, hloop, h⟩ := run_bind_inv h
  obtain ⟨u, s₂, hnull, h⟩ := run_bind_inv h
  rw [storeRest] at h
  split at h
  · cases h
  obtain ⟨u, s₃, hargv, hargc⟩ := run_bind_inv h
  obtain ⟨hslots, hstrings⟩ := storeLoop_below hloop
  rw [show (8#32 : Word) = BitVec.ofNat 32 8 from rfl, argvStore_sub] at hargc
  rw [show (4#32 : Word) = BitVec.ofNat 32 4 from rfl, argvStore_sub] at hargv
  rw [argvStore_eq] at hslots
  rw [stringStore_eq] at hstrings
  have hplace : argvStore argv + 4#32 * BitVec.ofNat 32 argv.length =
      BitVec.ofInt 32 (argvPlace argv + (4 * argv.length : ℕ)) := by
    rw [argvStore_eq, BitVec.ofInt_add, ← ofNat_eq_ofInt, BitVec.ofNat_mul]
  rw [hplace] at hnull
  by_contra hneg
  obtain ⟨k, hk⟩ : ∃ k : ℕ, argvPlace argv - 8 + k = -1 :=
    ⟨(-1 - (argvPlace argv - 8)).toNat, by omega⟩
  -- which store has the byte
  by_cases h4 : k < 4
  · exact storeWord_below hargc k h4 (utop_le_of_eq (by omega))
  by_cases h8 : k < 8
  · exact storeWord_below hargv (k - 4) (by omega) (utop_le_of_eq (by omega))
  by_cases hslot : k < 8 + 4 * argv.length
  · exact hslots (k - 8) (by omega) (utop_le_of_eq (by omega))
  by_cases hend : k < 12 + 4 * argv.length
  · exact storeWord_below hnull (k - 8 - 4 * argv.length) (by omega) (utop_le_of_eq (by omega))
  have hstring : stringPlace argv < 0 := by
    simp only [argvPlace] at hk
    omega
  have hsize : stringPlace argv + stringSize argv = 0x401000 := by
    rw [stringPlace]
    omega
  exact hstrings (-1 - stringPlace argv).toNat (by omega) (utop_le_of_eq (by omega))

/-- Arguments that pass the test and do not fit: `init_stack` does not return. -/
theorem initStack_wraps (hfit : ¬ ArgsFit argv) (h : ¬ TooBig argv) (hm : s.memory 0 = true)
    (r : Except Errno Word) : initStack p argv s ≠ .ok r s' := by
  intro hrun
  rw [initStack, if_neg h, run_bind_ok (alloc_ok hm)] at hrun
  obtain ⟨u, s₁, hstores, -⟩ := run_bind_inv hrun
  have hneg := argvPlace_neg hfit h
  have hpos := storeStack_below hstores
  omega

end Outcome

/-! ## What `umain` is passed -/

section Reading

variable {sp : Space} {m : Memory} {perm : Perm} {argv : Args}

theorem ustackAddr_add (o k : ℕ) : ustackAddr o + BitVec.ofNat 32 k = ustackAddr (o + k) := by
  rw [ustackAddr, ustackAddr, BitVec.ofNat_add, BitVec.add_assoc]

/-- A byte of the stack page. -/
theorem byte_ustack (hp : sp (ustacktopPage - 1) = some ⟨m, perm⟩) (h : o < PGSIZE) :
    sp.byte (ustackAddr o).toNat = some (m o) := by
  have haddr : (ustackAddr o).toNat = 0xEEBFD000 + o := by
    rw [PGSIZE] at h
    rw [ustackAddr, BitVec.toNat_add, BitVec.toNat_ofNat,
      show (USTACKTOP - BitVec.ofNat 32 PGSIZE).toNat = 0xEEBFD000 from rfl]
    omega
  rw [PGSIZE] at h
  have hpage : (0xEEBFD000 + o) / PGSIZE = ustacktopPage - 1 := by
    rw [PGSIZE, ustacktopPage]
    omega
  have hoff : (0xEEBFD000 + o) % PGSIZE = o := by
    rw [PGSIZE]
    omega
  rw [Space.byte, haddr, hpage, hp, hoff]
  rfl

theorem wordAt_ustack (hp : sp (ustacktopPage - 1) = some ⟨m, perm⟩) (h : o + 4 ≤ PGSIZE) :
    wordAt sp (ustackAddr o) = some (m.word o) := by
  simp only [wordAt, ustackAddr_add o 1, ustackAddr_add o 2, ustackAddr_add o 3]
  rw [byte_ustack hp (by omega), byte_ustack hp (by omega), byte_ustack hp (by omega),
    byte_ustack hp (by omega)]
  rfl

variable {slot string i : ℕ}

/-- The loop leaves alone what is neither a slot nor a string … -/
theorem storeArgs_apart {x : ℕ} (hslot : x < slot ∨ slot + 4 * argv.length ≤ x)
    (hstring : x < string ∨ string + stringSize argv ≤ x) :
    storeArgs m slot string argv x = m x := by
  induction argv generalizing m slot string with
  | nil => rfl
  | cons a argv ih =>
    rw [List.length_cons] at hslot
    rw [stringSize_cons] at hstring
    have hput : x < string ∨ string + (a ++ [0#8]).length ≤ x := by
      rw [List.length_append, List.length_singleton]
      omega
    rw [storeArgs, ih (by omega) (by omega), Memory.put_of_apart hput,
      Memory.setWord_of_apart (by omega)]

/-- … stores a pointer in each slot … -/
theorem storeArgs_slot (hapart : slot + 4 * argv.length ≤ string) (hi : i < argv.length) :
    (storeArgs m slot string argv).word (slot + 4 * i) =
      ustackAddr (string + stringSize (argv.take i)) := by
  induction argv generalizing m slot string i with
  | nil => simp at hi
  | cons a argv ih =>
    rw [List.length_cons] at hapart hi
    cases i with
    | zero =>
      -- the later stores are above
      have hrest : ∀ x, slot ≤ x → x < slot + 4 → storeArgs m slot string (a :: argv) x =
          m.setWord slot (ustackAddr string) x := by
        intro x _ hx
        rw [storeArgs, storeArgs_apart (by omega) (by omega), Memory.put_of_apart (by omega)]
      rw [Nat.mul_zero, Nat.add_zero, Memory.word_congr hrest, Memory.word_setWord_self]
      simp [stringSize]
    | succ i =>
      rw [storeArgs, List.take_succ_cons, stringSize_cons,
        show slot + 4 * (i + 1) = slot + 4 + 4 * i by omega, ih (by omega) (by omega)]
      congr 1
      omega

/-- … and copies the strings. -/
theorem storeArgs_string (hapart : slot + 4 * argv.length ≤ string) (hi : i < argv.length)
    (hk : k < argv[i].length + 1) :
    some (storeArgs m slot string argv (string + stringSize (argv.take i) + k)) =
      (argv[i] ++ [0#8])[k]? := by
  induction argv generalizing m slot string i with
  | nil => simp at hi
  | cons a argv ih =>
    rw [List.length_cons] at hapart hi
    cases i with
    | zero =>
      rw [List.getElem_cons_zero] at hk ⊢
      have hlen : (a ++ [0#8]).length = a.length + 1 := by simp
      have hplace : string + stringSize (List.take 0 (a :: argv)) + k = string + k := by
        simp [stringSize]
      rw [storeArgs, hplace, storeArgs_apart (by omega) (by omega), Memory.put,
        if_pos (by omega), Nat.add_sub_cancel_left, List.getElem?_eq_getElem (by omega),
        List.getD_eq_getElem _ _ (by omega)]
    | succ i =>
      rw [List.getElem_cons_succ] at hk ⊢
      rw [storeArgs, List.take_succ_cons, stringSize_cons,
        show string + (a.length + 1 + stringSize (argv.take i)) + k =
          string + a.length + 1 + stringSize (argv.take i) + k by omega]
      exact ih (by omega) (by omega) hk

theorem stringSize_take_lt (hi : i < argv.length) :
    stringSize (argv.take i) + (argv[i].length + 1) ≤ stringSize argv := by
  induction argv generalizing i with
  | nil => simp at hi
  | cons a argv ih =>
    cases i with
    | zero => simp [stringSize]
    | succ i =>
      rw [List.getElem_cons_succ, List.take_succ_cons, stringSize_cons, stringSize_cons]
      have hrest := ih (i := i) (by simpa using hi)
      omega

/-- Above `argv[-2]` and `argv[-1]`, the page is what the loop made, but for the null. -/
theorem stackBytes_apart {x : ℕ} (h : ArgsFit argv) (hlow : Spawn.argvStore argv ≤ x)
    (hnull : x < Spawn.argvStore argv + 4 * argv.length ∨
      Spawn.argvStore argv + 4 * argv.length + 4 ≤ x) :
    stackBytes argv x =
      storeArgs (fun _ => 0#8) (Spawn.argvStore argv) (PGSIZE - stringSize argv) argv x := by
  have hroom := room_of_fits h
  rw [stackBytes, Memory.setWord_of_apart (by omega), Memory.setWord_of_apart (by omega),
    Memory.setWord_of_apart (by omega)]

/-- The page passes the arguments on. -/
theorem passed_of_fits (h : ArgsFit argv)
    (hp : sp (ustacktopPage - 1) = some ⟨stackBytes argv, perm⟩) :
    Passed sp (ustackAddr (Spawn.argvStore argv - 8)) argv := by
  obtain ⟨h8, hroom, hsize⟩ := room_of_fits h
  refine ⟨?_, ustackAddr (Spawn.argvStore argv), ?_, fun i hi => ?_, ?_⟩
  · rw [wordAt_ustack hp (by omega), stackBytes, Memory.word_setWord_self]
  · rw [ustackAddr_add _ 4, wordAt_ustack hp (by omega), stackBytes,
      show Spawn.argvStore argv - 8 + 4 = Spawn.argvStore argv - 4 by omega,
      Memory.word_setWord_of_apart (by omega), Memory.word_setWord_self]
  · have hin := stringSize_take_lt hi
    refine ⟨ustackAddr (PGSIZE - stringSize argv + stringSize (argv.take i)), ?_, fun k hk => ?_⟩
    · rw [ustackAddr_add, wordAt_ustack hp (by omega),
        Memory.word_congr fun x _ _ => stackBytes_apart h (by omega) (by omega),
        storeArgs_slot (by omega) hi]
    · rw [ustackAddr_add, byte_ustack hp (by omega), stackBytes_apart h (by omega) (by omega),
        storeArgs_string (by omega) hi hk]
  · rw [ustackAddr_add, wordAt_ustack hp (by omega), stackBytes,
      Memory.word_setWord_of_apart (by omega), Memory.word_setWord_of_apart (by omega),
      Memory.word_setWord_self]

end Reading

/-! ## When `init_stack` is right -/

/-- What `init_stack` should do: refuse what does not fit, and nothing else, or give
the child a stack with the arguments; the parent's other pages are left alone. -/
def Correct (p : Word) (argv : Args) (s : Sys) : Prop :=
  (∃ s', initStack p argv s = .ok (.error .noMem) s' ∧ ¬ ArgsFit argv ∧
    ∀ n, n ≠ 0x400 → s'.parent n = s.parent n) ∨
  ∃ esp s', initStack p argv s = .ok (.ok esp) s' ∧ ArgsFit argv ∧
    (∀ n, n ≠ 0x400 → s'.parent n = s.parent n) ∧
    (∀ n, n ≠ ustacktopPage - 1 → s'.child n = s.child n) ∧ Passed s'.child esp argv

section Correct

variable {s : Sys} {p : Word} {argv : Args}

theorem correct_of_fits (h : ArgsFit argv) (hargs : Outside s p argv) (h₀ : s.memory 0 = true)
    (h₁ : s.memory 1 = true) : Correct p argv s := by
  refine .inr ⟨_, stacked argv s, initStack_fits h hargs h₀ h₁, h, fun n hn => ?_, fun n hn => ?_, ?_⟩
  · simp [stacked, Sys.setParent, Sys.setChild, asked, hn]
  · simp [stacked, Sys.setParent, Sys.setChild, asked, hn]
  · apply passed_of_fits h
    simp [stacked, Sys.setParent, Sys.setChild]
    rfl

/-- A request for memory that fails is reported like arguments that are too long. -/
theorem not_correct_of_noMem {s' : Sys} (h : ArgsFit argv)
    (hrun : initStack p argv s = .ok (.error .noMem) s') : ¬ Correct p argv s := by
  rintro (⟨_, -, hfit, -⟩ | ⟨esp, s'', hok, -⟩)
  · exact hfit h
  · rw [hrun] at hok
    cases hok

theorem not_correct_of_wraps (hfit : ¬ ArgsFit argv) (h : ¬ TooBig argv)
    (hm : s.memory 0 = true) : ¬ Correct p argv s := by
  rintro (⟨s', hrun, -⟩ | ⟨esp, s', hrun, -⟩)
  · exact initStack_wraps hfit h hm _ hrun
  · exact initStack_wraps hfit h hm _ hrun

/-- A parent whose page `0x800` has `argv` of one string, `"a"`, with memory for all requests. -/
def shortParent : Sys where
  parent n := if n = 0x800 then some ⟨fun o => if o = 0 then 8#8 else if o = 2 then 0x80#8
    else if o = 8 then 97#8 else 0#8, .ofWritable true⟩ else none
  child _ := none
  memory _ := true

theorem stringSize_singleton (n : ℕ) (b : BitVec 8) : stringSize [List.replicate n b] = n + 1 := by
  simp [stringSize]

/-- One argument of 5 MB. -/
def longArg : Args := [List.replicate 0x500000 97#8]

/-- A parent with such a string at `0x800000` and `argv` behind it, and a kernel with memory. -/
def longParent : Sys where
  parent n :=
    if 0x800 ≤ n ∧ n < 0xD00 then some ⟨fun _ => 97#8, .ofWritable true⟩
    else if n = 0xD00 then some ⟨fun o => if o = 6 then 0x80#8 else 0#8, .ofWritable true⟩
    else none
  child _ := none
  memory _ := true

theorem outside_longArg : Outside longParent 0xD00004#32 longArg := by
  refine ⟨fun i hi => ?_, by decide⟩
  obtain rfl : i = 0 := Nat.lt_one_iff.1 hi
  refine ⟨0x800000#32, by decide, fun k hk => ?_⟩
  change k < (List.replicate 0x500000 97#8).length + 1 at hk
  show _ = (List.replicate 0x500000 97#8 ++ [0#8])[k]?
  rw [List.length_replicate] at hk
  have haddr : (0x800000#32 + BitVec.ofNat 32 k).toNat = 0x800000 + k := by
    rw [BitVec.toNat_add, BitVec.toNat_ofNat, BitVec.toNat_ofNat]
    omega
  rw [haddr, Space.byte, PGSIZE]
  rcases Nat.lt_succ_iff_lt_or_eq.1 hk with hlt | rfl
  · have hpage : longParent.parent ((0x800000 + k) / 4096) =
        some ⟨fun _ => 97#8, .ofWritable true⟩ := if_pos (by omega)
    show (update longParent.parent 0x400 none ((0x800000 + k) / 4096)).map _ = _
    rw [update_of_ne (by omega), hpage, List.getElem?_append_left (by rwa [List.length_replicate]),
      List.getElem?_replicate, if_pos hlt]
    rfl
  · rw [List.getElem?_append_right (by rw [List.length_replicate]), List.length_replicate,
      Nat.sub_self]
    rfl

end Correct

end Jos.Spawn.InitStack
