import Mathlib.Tactic
import Mathlib.Data.BitVec

/-!
# The x86 MMU and the memory layout

`inc/mmu.h` and `inc/memlayout.h`: how a linear address splits into a page
directory index, a page table index and an offset, what the bits of a page
table entry mean, and where the regions of the address space lie.

All addresses and entries are 32-bit words and the macros are the bit
operations of the headers.  The lemmas turn them into arithmetic on natural
numbers (`pdx_val`, `ptx_val`, `pgnum_eq`) and say what an entry built by the
kernel decodes to (`pgnum_mkPte`, `present_mkPte`, `mkPte_and`).
-/

namespace Jos

/-- A 32-bit machine word: `uint32_t`, `uintptr_t`, `physaddr_t`, `pte_t`, … -/
abbrev Word := BitVec 32

/-- An index into a page directory or a page table: `NPDENTRIES` and
`NPTENTRIES` are both 1024. -/
abbrev Idx := Fin 1024

/-- So numerals are indices. -/
instance neZero_idx : NeZero 1024 := ⟨by decide⟩

/-! ## Sizes -/

/-- Bytes mapped by a page. -/
def PGSIZE : ℕ := 4096

/-- Bytes mapped by a page directory entry. -/
def PTSIZE : ℕ := PGSIZE * 1024

/-! ## Linear addresses -/

/-- Page number field of an address. -/
def pgnum (la : Word) : ℕ := (la >>> 12).toNat

/-- Page directory index. -/
def pdx (la : Word) : Idx :=
  ⟨((la >>> 22) &&& 0x3FF#32).toNat, by
    rw [BitVec.toNat_and]
    exact lt_of_le_of_lt Nat.and_le_right (by decide)⟩

/-- Page table index. -/
def ptx (la : Word) : Idx :=
  ⟨((la >>> 12) &&& 0x3FF#32).toNat, by
    rw [BitVec.toNat_and]
    exact lt_of_le_of_lt Nat.and_le_right (by decide)⟩

/-- Offset in page. -/
def pgoff (la : Word) : Word := la &&& 0xFFF#32

/-- Construct a linear address from indexes and offset. -/
def pgaddr (d t : Idx) (o : Word) : Word :=
  (BitVec.ofNat 32 d.val <<< 22) ||| (BitVec.ofNat 32 t.val <<< 12) ||| o

theorem pgnum_eq (la : Word) : pgnum la = la.toNat / 4096 := by
  rw [pgnum, BitVec.toNat_ushiftRight, Nat.shiftRight_eq_div_pow]

theorem pdx_val (la : Word) : (pdx la).val = la.toNat / 4194304 := by
  have h : la.toNat < 4294967296 := la.isLt
  show ((la >>> 22) &&& 0x3FF#32).toNat = _
  rw [BitVec.toNat_and, BitVec.toNat_ushiftRight, Nat.shiftRight_eq_div_pow,
    show (0x3FF#32).toNat = 2 ^ 10 - 1 from rfl, Nat.and_two_pow_sub_one_eq_mod]
  omega

theorem ptx_val (la : Word) : (ptx la).val = la.toNat / 4096 % 1024 := by
  show ((la >>> 12) &&& 0x3FF#32).toNat = _
  rw [BitVec.toNat_and, BitVec.toNat_ushiftRight, Nat.shiftRight_eq_div_pow,
    show (0x3FF#32).toNat = 2 ^ 10 - 1 from rfl, Nat.and_two_pow_sub_one_eq_mod]

theorem pgoff_toNat (la : Word) : (pgoff la).toNat = la.toNat % 4096 := by
  rw [pgoff, BitVec.toNat_and, show (0xFFF#32).toNat = 2 ^ 12 - 1 from rfl,
    Nat.and_two_pow_sub_one_eq_mod]

/-- The page number is the two indexes together. -/
theorem pgnum_eq_indexes (la : Word) : pgnum la = (pdx la).val * 1024 + (ptx la).val := by
  rw [pgnum_eq, pdx_val, ptx_val]
  omega

theorem pgaddr_toNat (d t : Idx) : (pgaddr d t 0#32).toNat = d.val * 4194304 + t.val * 4096 := by
  have hd := d.isLt
  have ht := t.isLt
  have hor : d.val * 2 ^ 22 ||| t.val * 2 ^ 12 = d.val * 2 ^ 22 + t.val * 2 ^ 12 := by
    rw [mul_comm d.val]
    exact (Nat.two_pow_add_eq_or_of_lt (by omega : t.val * 2 ^ 12 < 2 ^ 22) d.val).symm
  simp only [pgaddr, BitVec.or_zero, BitVec.toNat_or, BitVec.toNat_shiftLeft, BitVec.toNat_ofNat,
    Nat.shiftLeft_eq]
  rw [Nat.mod_eq_of_lt (by omega : d.val < 2 ^ 32), Nat.mod_eq_of_lt (by omega : t.val < 2 ^ 32),
    Nat.mod_eq_of_lt (by omega : d.val * 2 ^ 22 < 2 ^ 32),
    Nat.mod_eq_of_lt (by omega : t.val * 2 ^ 12 < 2 ^ 32), hor]
  norm_num

@[simp] theorem pdx_pgaddr (d t : Idx) : pdx (pgaddr d t 0#32) = d := by
  apply Fin.ext
  rw [pdx_val, pgaddr_toNat]
  omega

@[simp] theorem ptx_pgaddr (d t : Idx) : ptx (pgaddr d t 0#32) = t := by
  apply Fin.ext
  rw [ptx_val, pgaddr_toNat]
  omega

/-! ## Page table entries -/

/-- Present. -/
def PTE_P : Word := 0x001#32
/-- Writeable. -/
def PTE_W : Word := 0x002#32
/-- User. -/
def PTE_U : Word := 0x004#32
/-- Write-through. -/
def PTE_PWT : Word := 0x008#32
/-- Cache-disable. -/
def PTE_PCD : Word := 0x010#32
/-- Available for software use. -/
def PTE_AVAIL : Word := 0xE00#32
/-- Flags that may be used in system calls. -/
def PTE_SYSCALL : Word := PTE_AVAIL ||| PTE_P ||| PTE_W ||| PTE_U

/-- Address in a page table or page directory entry. -/
def pteAddr (pte : Word) : Word := pte &&& ~~~0xFFF#32

/-- Is the entry present? -/
def present (pte : Word) : Bool := pte &&& PTE_P != 0#32

/-- Is the entry writeable? -/
def writable (pte : Word) : Bool := pte &&& PTE_W != 0#32

/-- Does the entry grant all of `perm`? -/
def grants (pte perm : Word) : Bool := pte &&& perm == perm

/-- The physical page an entry refers to, if it is present. -/
def pageOf (pte : Word) : Option ℕ := if present pte then some (pgnum pte) else none

/-- The physical address of the page with the given number (`page2pa`). -/
def page2pa (pp : ℕ) : Word := BitVec.ofNat 32 pp <<< 12

/-- The low twelve bits hold flags; `perm` asks for nothing else. -/
def FlagsOnly (perm : Word) : Prop := perm >>> 12 = 0#32

instance : DecidablePred FlagsOnly := fun perm => inferInstanceAs (Decidable (perm >>> 12 = 0#32))

theorem pgnum_or (a b : Word) : pgnum (a ||| b) = pgnum a ||| pgnum b := by
  simp [pgnum, BitVec.toNat_or, Nat.shiftRight_or_distrib]

variable {perm a b w m : Word} {pp : ℕ}

theorem pgnum_flags (h : FlagsOnly perm) : pgnum perm = 0 := by
  rw [pgnum, h]; rfl

theorem pgnum_or_flags (h : FlagsOnly perm) (a : Word) : pgnum (a ||| perm) = pgnum a := by
  rw [pgnum_or, pgnum_flags h, Nat.or_zero]

theorem flagsOnly_or (ha : FlagsOnly a) (hb : FlagsOnly b) : FlagsOnly (a ||| b) := by
  unfold FlagsOnly at *
  rw [BitVec.ushiftRight_or_distrib, ha, hb]
  rfl

/-- What the system calls check of a permission leaves only flags. -/
theorem flagsOnly_of_syscall (h : perm &&& ~~~PTE_SYSCALL = 0#32) : FlagsOnly perm := by
  have hs : perm = perm &&& PTE_SYSCALL := by
    ext i hi
    have hb := congrArg (fun w : Word => w.getLsbD i) h
    simp only [BitVec.getLsbD_and, BitVec.getLsbD_not, BitVec.getLsbD_zero, hi, decide_true,
      Bool.true_and] at hb
    simp only [BitVec.getElem_eq_testBit_toNat, ← BitVec.testBit_toNat, BitVec.toNat_and,
      Nat.testBit_and] at hb ⊢
    cases h1 : perm.toNat.testBit i <;> cases h2 : PTE_SYSCALL.toNat.testBit i <;> simp_all
  unfold FlagsOnly
  rw [hs, BitVec.ushiftRight_and_distrib]
  exact BitVec.and_zero

theorem pgnum_page2pa (h : pp < 2 ^ 20) : pgnum (page2pa pp) = pp := by
  rw [pgnum_eq, page2pa, BitVec.toNat_shiftLeft, BitVec.toNat_ofNat, Nat.shiftLeft_eq]
  omega

/-- Clearing the low bits of a word rounds it down. -/
theorem toNat_clearLow (w : Word) (n : ℕ) :
    (w &&& ~~~BitVec.ofNat 32 (2 ^ n - 1)).toNat = w.toNat / 2 ^ n * 2 ^ n := by
  apply Nat.eq_of_testBit_eq
  intro i
  rw [BitVec.testBit_toNat, BitVec.getLsbD_and, BitVec.getLsbD_not, BitVec.getLsbD_ofNat,
    Nat.testBit_two_pow_sub_one, Nat.testBit_mul_two_pow, Nat.testBit_div_two_pow,
    BitVec.testBit_toNat]
  by_cases hn : n ≤ i
  · rw [Nat.sub_add_cancel hn]
    by_cases h32 : i < 32
    · simp [hn, h32]
    · simp [BitVec.getLsbD_of_ge _ _ (not_lt.1 h32)]
  · have hlt : i < n := not_le.1 hn
    by_cases h32 : i < 32
    · simp [hn, hlt]
    · simp [hn, h32]

/-- Setting low bits that are clear adds them. -/
theorem toNat_or_of_low {g n : ℕ} (ha : a.toNat = g * 2 ^ n) (hb : b.toNat < 2 ^ n) :
    (a ||| b).toNat = g * 2 ^ n + b.toNat := by
  rw [BitVec.toNat_or, ha, mul_comm, Nat.two_pow_add_eq_or_of_lt hb]

theorem pteAddr_toNat (w : Word) : (pteAddr w).toNat = pgnum w * 4096 := by
  rw [pgnum_eq, pteAddr]
  exact toNat_clearLow w 12

/-- Comparing the address field with a page's address compares page numbers. -/
theorem pteAddr_eq_page2pa (h : pp < 2 ^ 20) : pteAddr w = page2pa pp ↔ pgnum w = pp := by
  have hw : (page2pa pp).toNat = pp * 4096 := by
    rw [page2pa, BitVec.toNat_shiftLeft, BitVec.toNat_ofNat, Nat.shiftLeft_eq]
    omega
  constructor
  · intro he
    have := congrArg BitVec.toNat he
    rw [pteAddr_toNat, hw] at this
    omega
  · intro he
    apply BitVec.eq_of_toNat_eq
    rw [pteAddr_toNat, hw, he]

/-- The address field keeps the page number. -/
@[simp] theorem pgnum_pteAddr (w : Word) : pgnum (pteAddr w) = pgnum w := by
  rw [pgnum_eq, pteAddr_toNat]
  omega

theorem and_or_right (a b c : Word) : (a ||| b) &&& c = (a &&& c) ||| (b &&& c) := by
  rw [BitVec.and_comm, BitVec.and_or_distrib_left, BitVec.and_comm c a, BitVec.and_comm c b]

/-- Setting bits grants them. -/
theorem grants_or_self (a b : Word) : grants (a ||| b) b = true := by
  have hab : (a ||| b) &&& b = b := by
    ext i hi
    simp only [BitVec.getElem_and, BitVec.getElem_or]
    cases a[i] <;> cases b[i] <;> rfl
  rw [grants, hab, beq_self_eq_true]

/-- A present entry stays present when bits are added. -/
theorem present_or (h : present a = true) : present (a ||| b) = true := by
  rw [present, bne_iff_ne] at h ⊢
  intro h0
  rw [and_or_right, BitVec.or_eq_zero_iff] at h0
  exact h h0.1

/-- What is granted stays granted when bits are added. -/
theorem grants_or (h : grants a m = true) : grants (a ||| b) m = true := by
  rw [grants, beq_iff_eq] at h ⊢
  rw [and_or_right, h]
  ext i hi
  simp only [BitVec.getElem_or, BitVec.getElem_and]
  cases b[i] <;> cases m[i] <;> rfl

/-- Granting more is granting each part. -/
theorem grants_of_or (h : grants w (a ||| b) = true) : grants w a = true ∧ grants w b = true := by
  rw [grants, beq_iff_eq] at h
  have hbit : ∀ i (hi : i < 32), (a[i] || b[i]) = true → w[i] = true := by
    intro i hi hab
    have hw := congrArg (fun x : Word => x[i]) h
    simp only [BitVec.getElem_and, BitVec.getElem_or, hab, Bool.and_true] at hw
    exact hw
  constructor <;>
  · rw [grants, beq_iff_eq]
    ext i hi
    rw [BitVec.getElem_and]
    have hi' := hbit i hi
    cases ha : a[i] <;> cases hb : b[i] <;> simp_all

theorem present_of_grants (h : grants w PTE_P = true) : present w = true := by
  rw [grants, beq_iff_eq] at h
  rw [present, h]
  decide

theorem writable_of_grants (h : grants w PTE_W = true) : writable w = true := by
  rw [grants, beq_iff_eq] at h
  rw [writable, h]
  decide

/-- The address of a page has no flag bits. -/
theorem page2pa_and_flags (h : FlagsOnly m) (pp : ℕ) : page2pa pp &&& m = 0#32 := by
  apply BitVec.eq_of_toNat_eq
  apply Nat.eq_of_testBit_eq
  intro i
  have hm : i < 12 ∨ m.toNat.testBit i = false := by
    by_cases hi : i < 12
    · exact Or.inl hi
    · refine Or.inr (Nat.testBit_lt_two_pow ?_)
      have h0 : m.toNat / 4096 = 0 := by rw [← pgnum_eq]; exact pgnum_flags h
      have : 2 ^ 12 ≤ 2 ^ i := Nat.pow_le_pow_right (by decide) (by omega)
      omega
  rw [BitVec.toNat_and, Nat.testBit_and, page2pa]
  rcases hm with hi | hm
  · have : (BitVec.ofNat 32 pp <<< 12).toNat.testBit i = false := by
      rw [BitVec.testBit_toNat, BitVec.getLsbD_shiftLeft]
      simp [hi]
    rw [this]
    simp
  · rw [hm]
    simp

theorem flagsOnly_PTE_P : FlagsOnly PTE_P := by decide
theorem flagsOnly_PTE_W : FlagsOnly PTE_W := by decide
theorem flagsOnly_PTE_U : FlagsOnly PTE_U := by decide

/-! ## The entry `page_insert` writes -/

/-- The entry for page `pp` with permission `perm`: `page2pa(pp) | perm | PTE_P`. -/
def mkPte (pp : ℕ) (perm : Word) : Word := page2pa pp ||| perm ||| PTE_P

theorem pgnum_mkPte (hp : pp < 2 ^ 20) (h : FlagsOnly perm) : pgnum (mkPte pp perm) = pp := by
  rw [mkPte, pgnum_or_flags flagsOnly_PTE_P, pgnum_or_flags h, pgnum_page2pa hp]

theorem present_or_P (w : Word) : present (w ||| PTE_P) = true := by
  have : (w ||| PTE_P) &&& PTE_P = PTE_P := by
    rw [and_or_right, BitVec.and_self]
    ext i hi
    simp
  rw [present, this]
  decide

theorem present_mkPte (pp : ℕ) (perm : Word) : present (mkPte pp perm) = true := present_or_P _

theorem pageOf_mkPte (hp : pp < 2 ^ 20) (h : FlagsOnly perm) :
    pageOf (mkPte pp perm) = some pp := by
  rw [pageOf, present_mkPte, if_pos rfl, pgnum_mkPte hp h]

/-- The flags of the entry are those asked for, and the present bit. -/
theorem mkPte_and (hm : FlagsOnly m) (pp : ℕ) (perm : Word) :
    mkPte pp perm &&& m = (perm ||| PTE_P) &&& m := by
  rw [mkPte, BitVec.or_assoc, and_or_right, page2pa_and_flags hm, BitVec.zero_or]

@[simp] theorem present_zero : present 0#32 = false := by decide

@[simp] theorem pageOf_zero : pageOf 0#32 = none := by decide

/-! ## The memory layout -/

/-- All physical memory is mapped at this address. -/
def KERNBASE : Word := 0xF0000000#32
/-- Top of the kernel stacks. -/
def KSTACKTOP : Word := KERNBASE
/-- End of memory-mapped I/O. -/
def MMIOLIM : Word := KSTACKTOP - BitVec.ofNat 32 PTSIZE
/-- Start of memory-mapped I/O. -/
def MMIOBASE : Word := MMIOLIM - BitVec.ofNat 32 PTSIZE
/-- Nothing at or above is accessible to user code. -/
def ULIM : Word := MMIOBASE
/-- User read-only virtual page table. -/
def UVPT : Word := ULIM - BitVec.ofNat 32 PTSIZE
/-- Read-only copies of the page structures. -/
def UPAGES : Word := UVPT - BitVec.ofNat 32 PTSIZE
/-- Read-only copies of the environment structures. -/
def UENVS : Word := UPAGES - BitVec.ofNat 32 PTSIZE
/-- Top of user-accessible memory. -/
def UTOP : Word := UENVS
/-- Top of the one-page user exception stack. -/
def UXSTACKTOP : Word := UTOP
/-- Top of the normal user stack. -/
def USTACKTOP : Word := UTOP - BitVec.ofNat 32 (2 * PGSIZE)
/-- Size of a kernel stack, and of the guard below it. -/
def KSTKSIZE : ℕ := 8 * PGSIZE
/-- Physical address of startup code for non-boot CPUs. -/
def MPENTRY_PADDR : ℕ := 0x7000

theorem UTOP_toNat : UTOP.toNat = 0xEEC00000 := by decide
theorem ULIM_toNat : ULIM.toNat = 0xEF800000 := by decide

/-- The first page directory index at or above `UTOP`. -/
def utopDx : Idx := pdx UTOP

/-- The page directory index of the recursive mapping. -/
def uvptDx : Idx := pdx UVPT

theorem utopDx_val : utopDx.val = 955 := by decide
theorem uvptDx_val : uvptDx.val = 957 := by decide

/-- An address is below `UTOP` exactly when its directory index is. -/
theorem pdx_lt_utopDx {va : Word} : pdx va < utopDx ↔ va < UTOP := by
  rw [Fin.lt_def, pdx_val, utopDx_val, BitVec.lt_def, UTOP_toNat]
  omega

end Jos
