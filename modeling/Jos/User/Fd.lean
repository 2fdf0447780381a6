import Jos.Lib.RefCount
import Jos.Inc.Env

/-!
# Descriptor pages

The descriptors of `lib/fd.c` are pages: descriptor `i` of an environment is the
page at `FDTABLE + i*PGSIZE`, and the page `MAXFD` further up is for its data.
Environments share descriptors by mapping the same page, and `pageref` reads from
the kernel's table how often a page is mapped.

An address space is a partial map here, as `pageTable_refines_map` says it is; a
page is anything that can be told apart.
-/

namespace Jos.User

/-- The number of a page in an address space. -/
abbrev Vpn := Fin 1048576

/-- The first page that user code cannot map. -/
def utopPage : ℕ := 0xEEC00

/-- The pages `fork` and `spawn` look at: from `UTEXT` to `USTACKTOP`. -/
def utextPage : ℕ := 0x800
def ustacktopPage : ℕ := 0xEEBFE

/-- Maximum number of file descriptors a program may hold open concurrently. -/
def MAXFD : ℕ := 32

/-- The page number of `FDTABLE`, the bottom of the descriptors. -/
def fdtablePage : ℕ := 0xD0000

/-- A page of the descriptor table: those `fd_lookup` lets pass. -/
def IsFd (v : Vpn) : Prop := fdtablePage ≤ v.val ∧ v.val < fdtablePage + MAXFD

instance (v : Vpn) : Decidable (IsFd v) := inferInstanceAs (Decidable (_ ∧ _))

/-- `fd2data`: the data page of a descriptor. -/
def fd2data (v : Vpn) : Vpn := ⟨(v.val + MAXFD) % 1048576, Nat.mod_lt _ (by decide)⟩

theorem fd2data_injective : Function.Injective fd2data := by
  intro v v' h
  have hval : (v.val + 32) % 1048576 = (v'.val + 32) % 1048576 := congrArg Fin.val h
  have hv' := v'.isLt
  exact Fin.ext (by omega)

/-- Data pages lie above the descriptors. -/
theorem IsFd.not_data {v : Vpn} (h : IsFd v) : ¬ IsFd (fd2data v) := by
  rintro ⟨hlo, hhi⟩
  have hval : (fd2data v).val = (v.val + 32) % 1048576 := rfl
  obtain ⟨hl, hh⟩ := h
  simp only [fdtablePage, MAXFD] at hl hh hlo hhi
  omega

theorem IsFd.fd2data_ne {v v' : Vpn} (h : IsFd v) (h' : IsFd v') : fd2data v ≠ v' :=
  fun heq => h.not_data (heq ▸ h')

theorem IsFd.lt_utop {v : Vpn} (h : IsFd v) : v.val < utopPage ∧ (fd2data v).val < utopPage := by
  have hval : (fd2data v).val = (v.val + 32) % 1048576 := rfl
  obtain ⟨hl, hh⟩ := h
  simp only [fdtablePage, MAXFD, utopPage] at hl hh ⊢
  omega

/-! ## Shared pages -/

/-- Which page each environment has mapped where. -/
abbrev Spaces (P : Type) := EnvIdx × Vpn → Option P

namespace Spaces

variable {P : Type}

variable [DecidableEq P]

/-- `pageref`: how often the page at `v` is mapped, as its 16-bit `pp_ref` has it. -/
def pageref (m : Spaces P) (e : EnvIdx) (v : Vpn) : ℕ :=
  match m (e, v) with
  | none => 0
  | some p => refs m p % 65536

theorem pageref_of_some {m : Spaces P} {e : EnvIdx} {v : Vpn} {p : P} (h : m (e, v) = some p)
    (hsmall : refs m p < 65536) : m.pageref e v = refs m p := by
  rw [pageref, h]
  exact Nat.mod_eq_of_lt hsmall

end Spaces

end Jos.User
