import Jos.Kern.Syscall
import Jos.User.Fd

/-!
# `dup`

`dup` of `lib/fd.c` on any descriptor table.  A descriptor is a page of the table
at `FDTABLE`, and its data page is the one `MAXFD` pages further up; `dup` finds
both by arithmetic on the number it is given, and does not look whether that is
the number of a descriptor.

* `Space` — the address space of the environment: what is mapped where, and which
  page tables there are.  An entry has the bits a system call may ask for.
* `close`, `dup` — the calls.  Whether the kernel finds a page for a page table is
  an argument of `sysPageMap`.  The file server and the network server answer the
  messages that `close` sends them, and the answer is not looked at.
* `Duplicates` — what `dup` is for; `dup_duplicates_iff` — when it does that.
-/

namespace Jos.Dup

open Jos.User Function

/-! ## The address space -/

/-- An entry of a page table that is present. -/
structure Pte where
  frame : ℕ
  perm : Word
  /-- The other bits are the hardware's. -/
  masked : perm &&& PTE_SYSCALL = perm
  deriving DecidableEq

/-- The page table of a page, by its number in the directory. -/
def dir (v : Vpn) : ℕ := v.val / 1024

/-- An address space. -/
structure Space where
  pt : Vpn → Option Pte
  /-- `uvpd[i] & PTE_P` -/
  tables : ℕ → Bool
  /-- `fd_dev_id`, in the page of a descriptor -/
  devId : ℕ → Word
  walk : ∀ v, pt v ≠ none → tables (dir v) = true

namespace Space

variable {s : Space} {v v' : Vpn} {p : Pte}

/-- `(uvpd[PDX(va)] & PTE_P) && (uvpt[PGNUM(va)] & PTE_P)` -/
def mapped (s : Space) (v : Vpn) : Bool := s.tables (dir v) && (s.pt v).isSome

/-- `uvpt[PGNUM(va)]`, without the address. -/
def uvpt (s : Space) (v : Vpn) : Word :=
  match s.pt v with
  | none => 0#32
  | some p => p.perm

/-- `page_insert`, with a page table if there was none. -/
def insert (s : Space) (v : Vpn) (p : Pte) : Space where
  pt := update s.pt v (some p)
  tables := update s.tables (dir v) true
  devId := s.devId
  walk v' hv' := by
    by_cases hd : dir v' = dir v
    · rw [hd, update_self]
    · have hne : v' ≠ v := fun h => hd (congrArg dir h)
      rw [update_of_ne hne] at hv'
      rw [update_of_ne hd]
      exact s.walk v' hv'

/-- `page_remove`. -/
def remove (s : Space) (v : Vpn) : Space where
  pt := update s.pt v none
  tables := s.tables
  devId := s.devId
  walk v' hv' := by
    by_cases hne : v' = v
    · rw [hne, update_self] at hv'
      exact absurd rfl hv'
    · rw [update_of_ne hne] at hv'
      exact s.walk v' hv'

theorem mapped_iff : s.mapped v = true ↔ s.pt v ≠ none := by
  rw [mapped, Bool.and_eq_true, Option.isSome_iff_ne_none]
  exact ⟨And.right, fun h => ⟨s.walk v h, h⟩⟩

theorem uvpt_of_some (h : s.pt v = some p) : s.uvpt v = p.perm := by rw [uvpt, h]

theorem uvpt_of_none (h : s.pt v = none) : s.uvpt v = 0#32 := by rw [uvpt, h]

@[simp] theorem insert_pt_self : (s.insert v p).pt v = some p := update_self ..

theorem insert_pt_of_ne (h : v' ≠ v) : (s.insert v p).pt v' = s.pt v' := update_of_ne h ..

@[simp] theorem remove_pt_self : (s.remove v).pt v = none := update_self ..

theorem remove_pt_of_ne (h : v' ≠ v) : (s.remove v).pt v' = s.pt v' := update_of_ne h ..

end Space

/-! ## The calls -/

/-- `sys_page_map(0, v, 0, v', perm)`, where `mem` says whether there is a page for a page
table. -/
def sysPageMap (mem : Bool) (s : Space) (v v' : Vpn) (perm : Word)
    (hperm : perm &&& PTE_SYSCALL = perm) : Except Errno Space :=
  if utopPage ≤ v.val ∨ utopPage ≤ v'.val then .error .inval
  else if permOk perm = false then .error .inval
  else
    match s.pt v with
    | none => .error .inval
    | some p =>
      if writable perm ∧ ¬ writable p.perm then .error .inval
      else if s.tables (dir v') = false ∧ mem = false then .error .noMem
      else .ok (s.insert v' ⟨p.frame, perm, hperm⟩)

/-- `sys_page_unmap(0, v)`. -/
def sysPageUnmap (s : Space) (v : Vpn) : Space := if utopPage ≤ v.val then s else s.remove v

/-- `INDEX2FD`, for any `int`: the address wraps around. -/
def index2fd (i : ℤ) : Vpn := ⟨((fdtablePage + i) % 1048576).toNat, by omega⟩

/-- `fd2num`. -/
def fd2num (fd : Vpn) : ℤ := ((fd.val : ℤ) - fdtablePage) % 1048576

/-- `fd_lookup`. -/
def fdLookup (s : Space) (fdnum : ℤ) : Option Vpn :=
  if fdnum < 0 ∨ (MAXFD : ℤ) ≤ fdnum then none
  else if s.mapped (index2fd fdnum) then some (index2fd fdnum) else none

/-- `devpipe.dev_id`. -/
def devpipe : Word := 0x70#32

/-- `dev_close` of the device of `fd`.  `devpipe_close` is the only one that unmaps pages. -/
def devClose (s : Space) (fd : Vpn) (p : Pte) : Space :=
  if s.devId p.frame = devpipe then sysPageUnmap (sysPageUnmap s fd) (fd2data fd) else s

/-- `fd_close`. -/
def fdClose (s : Space) (fd : Vpn) : Space :=
  if fdLookup s (fd2num fd) = some fd then
    match s.pt fd with
    | none => s
    | some p => sysPageUnmap (devClose s fd p) fd
  else
    s

/-- `close`. -/
def close (s : Space) (fdnum : ℤ) : Space :=
  match fdLookup s fdnum with
  | none => s
  | some fd => fdClose s fd

/-- `sys_page_map(0, v, 0, v', uvpt[PGNUM(v)] & PTE_SYSCALL)`. -/
def mapAgain (mem : Bool) (s : Space) (v v' : Vpn) : Except Errno Space :=
  sysPageMap mem s v v' (s.uvpt v &&& PTE_SYSCALL) (by rw [BitVec.and_assoc, BitVec.and_self])

/-- The `err` exit of `dup`. -/
def dupErr (s : Space) (newfd : Vpn) (x : Errno) : ℤ × Space :=
  (x.ret.toInt, sysPageUnmap (sysPageUnmap s newfd) (fd2data newfd))

/-- `dup`, once the data page is mapped. -/
def dupFd (mem : Bool) (s : Space) (oldfd : Vpn) (newfdnum : ℤ) : ℤ × Space :=
  match mapAgain mem s oldfd (index2fd newfdnum) with
  | .error x => dupErr s (index2fd newfdnum) x
  | .ok s' => (newfdnum, s')

/-- `dup`, after `close`. -/
def dupOpen (mem₁ mem₂ : Bool) (s : Space) (oldfd : Vpn) (newfdnum : ℤ) : ℤ × Space :=
  if s.mapped (fd2data oldfd) then
    match mapAgain mem₁ s (fd2data oldfd) (fd2data (index2fd newfdnum)) with
    | .error x => dupErr s (index2fd newfdnum) x
    | .ok s' => dupFd mem₂ s' oldfd newfdnum
  else
    dupFd mem₂ s oldfd newfdnum

/-- `dup`, with what the kernel finds for each of its two mappings. -/
def dup (mem₁ mem₂ : Bool) (s : Space) (oldfdnum newfdnum : ℤ) : ℤ × Space :=
  match fdLookup s oldfdnum with
  | none => (Errno.inval.ret.toInt, s)
  | some oldfd => dupOpen mem₁ mem₂ (close s newfdnum) oldfd newfdnum

/-! ## What `dup` is for -/

/-- Descriptor `i` is as it was. -/
def SameFd (s s' : Space) (i : ℤ) : Prop :=
  s'.pt (index2fd i) = s.pt (index2fd i) ∧
    s'.pt (fd2data (index2fd i)) = s.pt (fd2data (index2fd i))

/-- All descriptors but one are as they were. -/
def OthersSame (s s' : Space) (newfdnum : ℤ) : Prop :=
  ∀ i : ℤ, 0 ≤ i → i < MAXFD → i ≠ newfdnum → SameFd s s' i

/-- The same page is mapped at both places, or none. -/
def SamePage (s : Space) (v v' : Vpn) : Prop :=
  (s.pt v').map Pte.frame = (s.pt v).map Pte.frame

/-- **`dup`**: an error, or a second descriptor for the same pages; and no other is touched. -/
def Duplicates (s : Space) (oldfdnum newfdnum : ℤ) (r : ℤ × Space) : Prop :=
  (r.1 < 0 ∧ OthersSame s r.2 newfdnum) ∨
    (r.1 = newfdnum ∧ SamePage r.2 (index2fd oldfdnum) (index2fd newfdnum) ∧
      SamePage r.2 (fd2data (index2fd oldfdnum)) (fd2data (index2fd newfdnum)) ∧
      SameFd s r.2 oldfdnum ∧ OthersSame s r.2 newfdnum)

/-! ## System calls -/

section Calls

variable {s s' : Space} {v v' u : Vpn} {mem : Bool} {p : Pte}

/-- The permissions of the page are enough to map it somewhere else. -/
def Pte.User (p : Pte) : Prop := p.perm &&& (PTE_U ||| PTE_P) = PTE_U ||| PTE_P

instance (p : Pte) : Decidable p.User := inferInstanceAs (Decidable (_ = _))

theorem Pte.permOk_iff (p : Pte) : permOk p.perm = true ↔ p.User := by
  have hrest : p.perm &&& ~~~PTE_SYSCALL = 0#32 := by
    rw [← p.masked, BitVec.and_assoc, show PTE_SYSCALL &&& ~~~PTE_SYSCALL = 0#32 from rfl]
    exact BitVec.and_zero
  rw [permOk, hrest, Bool.and_eq_true, beq_iff_eq]
  exact ⟨And.left, fun h => ⟨h, rfl⟩⟩

/-- The page at `v` can be mapped at `v'`. -/
structure Maps (mem : Bool) (s : Space) (v v' : Vpn) : Prop where
  user : ∃ p, s.pt v = some p ∧ p.User
  low : v.val < utopPage
  low' : v'.val < utopPage
  table : s.tables (dir v') = true ∨ mem = true

/-- What mapping a page again does. -/
theorem mapAgain_ok (hm : Maps mem s v v') (hp : s.pt v = some p) :
    mapAgain mem s v v' = .ok (s.insert v' p) := by
  obtain ⟨⟨q, hq, huser⟩, hlow, hlow', htable⟩ := hm
  obtain rfl : p = q := Option.some.inj (hp.symm.trans hq)
  have hperm : s.uvpt v &&& PTE_SYSCALL = p.perm := by rw [Space.uvpt_of_some hp, p.masked]
  have htab : ¬ (s.tables (dir v') = false ∧ mem = false) := by
    rintro ⟨h, h'⟩
    rw [h, h'] at htable
    simp at htable
  simp only [mapAgain, sysPageMap, hperm, hp]
  rw [if_neg (by omega), if_neg (by rw [p.permOk_iff.2 huser]; decide),
    if_neg fun h => h.2 h.1, if_neg htab]

/-- When it cannot be done, there is an error. -/
theorem mapAgain_error (hm : ¬ Maps mem s v v') : ∃ x, mapAgain mem s v v' = .error x := by
  cases hp : s.pt v with
  | none =>
    refine ⟨.inval, ?_⟩
    have hperm : s.uvpt v &&& PTE_SYSCALL = 0#32 := by
      rw [Space.uvpt_of_none hp]
      exact BitVec.zero_and
    simp only [mapAgain, sysPageMap, hperm]
    rw [if_pos (show permOk 0#32 = false from rfl), ite_self]
  | some p =>
    have hperm : s.uvpt v &&& PTE_SYSCALL = p.perm := by rw [Space.uvpt_of_some hp, p.masked]
    simp only [mapAgain, sysPageMap, hperm, hp]
    split_ifs with hva hok hw htab
    · exact ⟨_, rfl⟩
    · exact ⟨_, rfl⟩
    · exact ⟨_, rfl⟩
    · exact ⟨_, rfl⟩
    · refine absurd ⟨⟨p, hp, p.permOk_iff.1 (by simpa using hok)⟩, by omega, by omega, ?_⟩ hm
      by_contra hno
      simp only [not_or, Bool.not_eq_true] at hno
      exact htab hno

theorem sysPageUnmap_pt_of_ne (h : u ≠ v) : (sysPageUnmap s v).pt u = s.pt u := by
  rw [sysPageUnmap]
  split
  · rfl
  · exact Space.remove_pt_of_ne h

theorem sysPageUnmap_pt_self (h : v.val < utopPage) : (sysPageUnmap s v).pt v = none := by
  rw [sysPageUnmap, if_neg (Nat.not_le.2 h), Space.remove_pt_self]

theorem sysPageUnmap_tables (v : Vpn) : (sysPageUnmap s v).tables = s.tables := by
  rw [sysPageUnmap]
  split <;> rfl

end Calls

/-! ## Descriptors -/

section Descriptors

variable {s s' t : Space} {i : ℤ} {u v fd : Vpn}

/-- The pages of the descriptors and of their data. -/
def InTable (v : Vpn) : Prop := fdtablePage ≤ v.val ∧ v.val < fdtablePage + 2 * MAXFD

instance (v : Vpn) : Decidable (InTable v) := inferInstanceAs (Decidable (_ ∧ _))

theorem index2fd_val (i : ℤ) : ((index2fd i).val : ℤ) = (0xD0000 + i) % 1048576 := by
  have hval : (index2fd i).val = ((((0xD0000 : ℕ) : ℤ) + i) % 1048576).toNat := rfl
  push_cast at hval
  omega

theorem fd2data_val (v : Vpn) : (fd2data v).val = (v.val + 32) % 1048576 := rfl

theorem fd2data_ne (v : Vpn) : fd2data v ≠ v := by
  intro h
  have hval := congrArg Fin.val h
  rw [fd2data_val] at hval
  omega

theorem isFd_index2fd (h0 : 0 ≤ i) (h1 : i < MAXFD) : IsFd (index2fd i) := by
  have hval := index2fd_val i
  simp only [IsFd, fdtablePage, MAXFD] at h1 ⊢
  omega

theorem inTable_of_isFd (h : IsFd v) : InTable v ∧ InTable (fd2data v) := by
  have hval := fd2data_val v
  obtain ⟨hlo, hhi⟩ := h
  simp only [InTable, fdtablePage, MAXFD] at hlo hhi ⊢
  omega

theorem InTable.low (h : InTable v) : v.val < utopPage := by
  obtain ⟨-, hhi⟩ := h
  simp only [fdtablePage, MAXFD, utopPage] at hhi ⊢
  omega

/-- One page table has them all. -/
theorem InTable.dir_eq (h : InTable v) : dir v = 0x340 := by
  obtain ⟨hlo, hhi⟩ := h
  simp only [fdtablePage, MAXFD, dir] at hlo hhi ⊢
  omega

/-- A page of the table belongs to a descriptor. -/
theorem InTable.exists_fd (h : InTable v) :
    ∃ i : ℤ, 0 ≤ i ∧ i < MAXFD ∧ (v = index2fd i ∨ v = fd2data (index2fd i)) := by
  obtain ⟨hlo, hhi⟩ := h
  simp only [fdtablePage, MAXFD] at hlo hhi
  by_cases hfd : v.val < 0xD0020
  · refine ⟨v.val - 0xD0000, by omega, by simp only [MAXFD]; omega, Or.inl (Fin.ext ?_)⟩
    have hval := index2fd_val (v.val - 0xD0000)
    omega
  · refine ⟨v.val - 0xD0020, by omega, by simp only [MAXFD]; omega, Or.inr (Fin.ext ?_)⟩
    have hval := index2fd_val (v.val - 0xD0020)
    rw [fd2data_val]
    omega

theorem fd2num_index2fd (h0 : 0 ≤ i) (h1 : i < MAXFD) : fd2num (index2fd i) = i := by
  have hval := index2fd_val i
  simp only [fd2num, fdtablePage, MAXFD] at h1 ⊢
  push_cast
  omega

theorem index2fd_ne {j : ℤ} (hi : 0 ≤ i ∧ i < MAXFD) (hj : 0 ≤ j ∧ j < MAXFD) (h : i ≠ j) :
    index2fd i ≠ index2fd j := by
  intro heq
  refine h ?_
  rw [← fd2num_index2fd hi.1 hi.2, heq, fd2num_index2fd hj.1 hj.2]

theorem fdLookup_eq_some : fdLookup s i = some fd ↔
    (0 ≤ i ∧ i < MAXFD) ∧ s.pt (index2fd i) ≠ none ∧ fd = index2fd i := by
  rw [fdLookup]
  split_ifs with hout hmap
  · simp only [false_iff, not_and]
    intro hin
    omega
  · rw [Space.mapped_iff] at hmap
    rw [Option.some_inj, eq_comm]
    exact ⟨fun h => ⟨by omega, hmap, h⟩, fun h => h.2.2⟩
  · rw [Space.mapped_iff] at hmap
    simp only [false_iff, not_and]
    intro _ hne
    exact absurd hne hmap

/-- Nothing has changed but descriptor page `v` and its data page. -/
def Off (s s' : Space) (v : Vpn) : Prop := ∀ u, u ≠ v → u ≠ fd2data v → s'.pt u = s.pt u

theorem Off.refl (s : Space) (v : Vpn) : Off s s v := fun _ _ _ => rfl

theorem Off.trans (h : Off s t v) (h' : Off t s' v) : Off s s' v :=
  fun u hu hd => (h' u hu hd).trans (h u hu hd)

theorem Off.insert_fd (h : Off s t v) (p : Pte) : Off s (t.insert v p) v :=
  fun u hu hd => (Space.insert_pt_of_ne hu).trans (h u hu hd)

theorem Off.insert_data (h : Off s t v) (p : Pte) : Off s (t.insert (fd2data v) p) v :=
  fun u hu hd => (Space.insert_pt_of_ne hd).trans (h u hu hd)

theorem Off.unmap_fd (h : Off s t v) : Off s (sysPageUnmap t v) v :=
  fun u hu hd => (sysPageUnmap_pt_of_ne hu).trans (h u hu hd)

theorem Off.unmap_data (h : Off s t v) : Off s (sysPageUnmap t (fd2data v)) v :=
  fun u hu hd => (sysPageUnmap_pt_of_ne hd).trans (h u hu hd)

theorem Off.dupErr (h : Off s t v) (x : Errno) : Off s (dupErr t v x).2 v :=
  h.unmap_fd.unmap_data

/-- The number of a descriptor: the others are as they were. -/
theorem Off.others (h : Off s s' (index2fd i)) (hi : 0 ≤ i ∧ i < MAXFD) : OthersSame s s' i := by
  intro j hj0 hj1 hne
  have hfd := isFd_index2fd hj0 hj1
  have hpage := index2fd_ne ⟨hj0, hj1⟩ hi hne
  have hother := isFd_index2fd hi.1 hi.2
  exact ⟨h _ hpage (hother.fd2data_ne hfd).symm,
    h _ (hfd.fd2data_ne hother) fun heq => hpage (fd2data_injective heq)⟩

/-- Any other number: no page of the table may be another one. -/
theorem Off.others_iff (h : Off s s' (index2fd i)) (hi : ¬ (0 ≤ i ∧ i < MAXFD)) :
    OthersSame s s' i ↔
      (InTable (index2fd i) → s'.pt (index2fd i) = s.pt (index2fd i)) ∧
      (InTable (fd2data (index2fd i)) →
        s'.pt (fd2data (index2fd i)) = s.pt (fd2data (index2fd i))) := by
  constructor
  · intro hsame
    have hall : ∀ v, InTable v → s'.pt v = s.pt v := by
      intro v hv
      obtain ⟨j, hj0, hj1, rfl | rfl⟩ := hv.exists_fd
      · exact (hsame j hj0 hj1 fun heq => hi (heq ▸ ⟨hj0, hj1⟩)).1
      · exact (hsame j hj0 hj1 fun heq => hi (heq ▸ ⟨hj0, hj1⟩)).2
    exact ⟨hall _, hall _⟩
  · rintro ⟨hfd, hdata⟩ j hj0 hj1 -
    have hall : ∀ v, InTable v → s'.pt v = s.pt v := by
      intro v hv
      by_cases hv1 : v = index2fd i
      · rw [hv1] at hv ⊢
        exact hfd hv
      · by_cases hv2 : v = fd2data (index2fd i)
        · rw [hv2] at hv ⊢
          exact hdata hv
        · exact h v hv1 hv2
    obtain ⟨h1, h2⟩ := inTable_of_isFd (isFd_index2fd hj0 hj1)
    exact ⟨hall _ h1, hall _ h2⟩

end Descriptors

/-! ## `close` -/

section Close

variable {s : Space} {i : ℤ} {u : Vpn}

/-- The descriptor of a pipe. -/
def PipeAt (s : Space) (v : Vpn) : Prop := ∃ p, s.pt v = some p ∧ s.devId p.frame = devpipe

theorem close_of_none (h : fdLookup s i = none) : close s i = s := by rw [close, h]

theorem close_of_some {p : Pte} (hi : 0 ≤ i ∧ i < MAXFD) (hp : s.pt (index2fd i) = some p) :
    close s i = sysPageUnmap (devClose s (index2fd i) p) (index2fd i) := by
  have hne : s.pt (index2fd i) ≠ none := by
    rw [hp]
    exact Option.some_ne_none p
  have hlook : fdLookup s i = some (index2fd i) := fdLookup_eq_some.2 ⟨hi, hne, rfl⟩
  simp only [close, hlook, fdClose, fd2num_index2fd hi.1 hi.2, if_true, hp]

theorem devClose_off {p : Pte} (v : Vpn) : Off s (devClose s v p) v := by
  rw [devClose]
  split
  · exact (Off.refl s v).unmap_fd.unmap_data
  · exact Off.refl s v

theorem close_off (s : Space) (i : ℤ) : Off s (close s i) (index2fd i) := by
  cases hlook : fdLookup s i with
  | none =>
    rw [close_of_none hlook]
    exact Off.refl s _
  | some fd =>
    obtain ⟨hi, hne, -⟩ := fdLookup_eq_some.1 hlook
    obtain ⟨p, hp⟩ := Option.ne_none_iff_exists'.1 hne
    rw [close_of_some hi hp]
    exact (devClose_off _).unmap_fd

theorem close_tables (s : Space) (i : ℤ) : (close s i).tables = s.tables := by
  cases hlook : fdLookup s i with
  | none => rw [close_of_none hlook]
  | some fd =>
    obtain ⟨hi, hne, -⟩ := fdLookup_eq_some.1 hlook
    obtain ⟨p, hp⟩ := Option.ne_none_iff_exists'.1 hne
    rw [close_of_some hi hp, sysPageUnmap_tables, devClose]
    split
    · rw [sysPageUnmap_tables, sysPageUnmap_tables]
    · rfl

theorem fdLookup_of_none (hp : s.pt (index2fd i) = none) : fdLookup s i = none := by
  by_contra hne
  obtain ⟨fd, hfd⟩ := Option.ne_none_iff_exists'.1 hne
  exact (fdLookup_eq_some.1 hfd).2.1 hp

/-- The descriptor is closed. -/
theorem close_fd (hi : 0 ≤ i ∧ i < MAXFD) : (close s i).pt (index2fd i) = none := by
  cases hp : s.pt (index2fd i) with
  | none =>
    rw [close_of_none (fdLookup_of_none hp), hp]
  | some p =>
    rw [close_of_some hi hp]
    exact sysPageUnmap_pt_self (isFd_index2fd hi.1 hi.2).lt_utop.1

/-- The data page goes with a pipe, and stays otherwise. -/
theorem close_data_iff (hi : 0 ≤ i ∧ i < MAXFD) :
    (close s i).pt (fd2data (index2fd i)) = none ↔
      s.pt (fd2data (index2fd i)) = none ∨ PipeAt s (index2fd i) := by
  have hne := fd2data_ne (index2fd i)
  cases hp : s.pt (index2fd i) with
  | none =>
    have hpipe : ¬ PipeAt s (index2fd i) := by
      rintro ⟨p, hsome, -⟩
      rw [hp] at hsome
      cases hsome
    rw [close_of_none (fdLookup_of_none hp), or_iff_left hpipe]
  | some p =>
    have hpipe : PipeAt s (index2fd i) ↔ s.devId p.frame = devpipe := by
      constructor
      · rintro ⟨q, hq, hdev⟩
        rw [hp] at hq
        cases hq
        exact hdev
      · exact fun hdev => ⟨p, hp, hdev⟩
    rw [close_of_some hi hp, sysPageUnmap_pt_of_ne hne, devClose, hpipe]
    split
    · next hdev =>
        have hlow := (isFd_index2fd hi.1 hi.2).lt_utop.2
        exact ⟨fun _ => Or.inr hdev, fun _ => sysPageUnmap_pt_self hlow⟩
    · next hdev => rw [or_iff_left hdev]

end Close

/-! ## The two mappings -/

section Mappings

variable {s t : Space} {mem₁ mem₂ : Bool} {oldfd : Vpn} {new : ℤ}

/-- Both mappings can be made.  The first one may bring the page table for the second. -/
def Goes (mem₁ mem₂ : Bool) (s : Space) (oldfd newfd : Vpn) : Prop :=
  (s.pt (fd2data oldfd) ≠ none → Maps mem₁ s (fd2data oldfd) (fd2data newfd)) ∧
    Maps (mem₂ || (s.mapped (fd2data oldfd) && dir newfd == dir (fd2data newfd))) s oldfd newfd

/-- The first mapping leaves the old descriptor as it is. -/
def Spares (s : Space) (oldfd newfd : Vpn) : Prop :=
  fd2data newfd = oldfd → s.pt (fd2data oldfd) ≠ none → s.pt oldfd = s.pt (fd2data oldfd)

/-- The data page after the first mapping. -/
theorem dupOpen_none (h : s.pt (fd2data oldfd) = none) :
    dupOpen mem₁ mem₂ s oldfd new = dupFd mem₂ s oldfd new := by
  rw [dupOpen, if_neg (by rw [Space.mapped_iff, h]; exact fun hne => hne rfl)]

theorem dupOpen_error {x : Errno} (h : s.pt (fd2data oldfd) ≠ none)
    (herr : mapAgain mem₁ s (fd2data oldfd) (fd2data (index2fd new)) = .error x) :
    dupOpen mem₁ mem₂ s oldfd new = dupErr s (index2fd new) x := by
  rw [dupOpen, if_pos (Space.mapped_iff.2 h), herr]

theorem dupOpen_ok (h : s.pt (fd2data oldfd) ≠ none)
    (hok : mapAgain mem₁ s (fd2data oldfd) (fd2data (index2fd new)) = .ok t) :
    dupOpen mem₁ mem₂ s oldfd new = dupFd mem₂ t oldfd new := by
  rw [dupOpen, if_pos (Space.mapped_iff.2 h), hok]

/-- The second mapping after the first one. -/
theorem maps_insert (mem₂ : Bool) {q : Pte} (hq : s.pt (fd2data oldfd) = some q)
    (hspare : Spares s oldfd (index2fd new)) :
    (s.insert (fd2data (index2fd new)) q).pt oldfd = s.pt oldfd ∧
      (Maps mem₂ (s.insert (fd2data (index2fd new)) q) oldfd (index2fd new) ↔
        Maps (mem₂ || (s.mapped (fd2data oldfd) && dir (index2fd new) == dir (fd2data (index2fd new))))
          s oldfd (index2fd new)) := by
  have hne : s.pt (fd2data oldfd) ≠ none := by
    rw [hq]
    exact Option.some_ne_none q
  have hpt : (s.insert (fd2data (index2fd new)) q).pt oldfd = s.pt oldfd := by
    by_cases heq : fd2data (index2fd new) = oldfd
    · rw [hspare heq hne, hq, heq, Space.insert_pt_self]
    · exact Space.insert_pt_of_ne (Ne.symm heq)
  have htable : (s.insert (fd2data (index2fd new)) q).tables (dir (index2fd new)) = true ↔
      dir (index2fd new) = dir (fd2data (index2fd new)) ∨ s.tables (dir (index2fd new)) = true := by
    change update s.tables (dir (fd2data (index2fd new))) true (dir (index2fd new)) = true ↔ _
    by_cases hd : dir (index2fd new) = dir (fd2data (index2fd new))
    · rw [hd, update_self]
      simp
    · rw [update_of_ne hd]
      simp [hd]
  refine ⟨hpt, ?_, ?_⟩
  · rintro ⟨⟨p, hp, hu⟩, hlow, hlow', htab⟩
    refine ⟨⟨p, hpt ▸ hp, hu⟩, hlow, hlow', ?_⟩
    rw [htable] at htab
    rw [Space.mapped_iff.2 hne, Bool.true_and, Bool.or_eq_true, beq_iff_eq]
    tauto
  · rintro ⟨⟨p, hp, hu⟩, hlow, hlow', htab⟩
    refine ⟨⟨p, hpt.trans hp, hu⟩, hlow, hlow', ?_⟩
    rw [htable]
    rw [Space.mapped_iff.2 hne, Bool.true_and, Bool.or_eq_true, beq_iff_eq] at htab
    tauto

theorem dupFd_ok {p : Pte} (hm : Maps mem₂ s oldfd (index2fd new)) (hp : s.pt oldfd = some p) :
    dupFd mem₂ s oldfd new = (new, s.insert (index2fd new) p) := by
  rw [dupFd, mapAgain_ok hm hp]

theorem dupFd_error (hm : ¬ Maps mem₂ s oldfd (index2fd new)) :
    ∃ x, dupFd mem₂ s oldfd new = dupErr s (index2fd new) x := by
  obtain ⟨x, hx⟩ := mapAgain_error hm
  exact ⟨x, by rw [dupFd, hx]⟩

/-- **Both mappings are made.** -/
theorem dupOpen_goes (hspare : Spares s oldfd (index2fd new))
    (hgoes : Goes mem₁ mem₂ s oldfd (index2fd new)) :
    ∃ t, dupOpen mem₁ mem₂ s oldfd new = (new, t) ∧ Off s t (index2fd new) ∧
      t.pt (index2fd new) = s.pt oldfd ∧
      t.pt (fd2data (index2fd new)) =
        if s.pt (fd2data oldfd) = none then s.pt (fd2data (index2fd new))
        else s.pt (fd2data oldfd) := by
  obtain ⟨hfirst, hsecond⟩ := hgoes
  obtain ⟨p, hp, -⟩ := hsecond.user
  have hne := fd2data_ne (index2fd new)
  by_cases hnone : s.pt (fd2data oldfd) = none
  · rw [dupOpen_none hnone, if_pos hnone]
    have hmapped : s.mapped (fd2data oldfd) = false := by
      rw [← Bool.not_eq_true, Space.mapped_iff, hnone]
      exact fun h => h rfl
    rw [hmapped, Bool.false_and, Bool.or_false] at hsecond
    rw [dupFd_ok hsecond hp, hp]
    exact ⟨_, rfl, (Off.refl s _).insert_fd p, Space.insert_pt_self,
      Space.insert_pt_of_ne hne⟩
  · obtain ⟨q, hq⟩ := Option.ne_none_iff_exists'.1 hnone
    obtain ⟨hpt, hiff⟩ := maps_insert mem₂ hq hspare
    rw [dupOpen_ok hnone (mapAgain_ok (hfirst hnone) hq), if_neg hnone,
      dupFd_ok (hiff.2 hsecond) (hpt.trans hp), hp, hq]
    exact ⟨_, rfl, ((Off.refl s _).insert_data q).insert_fd p, Space.insert_pt_self,
      (Space.insert_pt_of_ne hne).trans Space.insert_pt_self⟩

/-- **One of them is not**, and both pages are unmapped. -/
theorem dupOpen_fails (hspare : Spares s oldfd (index2fd new))
    (hgoes : ¬ Goes mem₁ mem₂ s oldfd (index2fd new)) :
    ∃ x t, dupOpen mem₁ mem₂ s oldfd new = dupErr t (index2fd new) x ∧
      Off s t (index2fd new) := by
  by_cases hnone : s.pt (fd2data oldfd) = none
  · have hmapped : s.mapped (fd2data oldfd) = false := by
      rw [← Bool.not_eq_true, Space.mapped_iff, hnone]
      exact fun h => h rfl
    have hsecond : ¬ Maps mem₂ s oldfd (index2fd new) := fun hm => by
      refine hgoes ⟨fun hne => absurd hnone hne, ?_⟩
      rwa [hmapped, Bool.false_and, Bool.or_false]
    obtain ⟨x, hx⟩ := dupFd_error hsecond
    exact ⟨x, s, (dupOpen_none hnone).trans hx, Off.refl s _⟩
  · by_cases hfirst : Maps mem₁ s (fd2data oldfd) (fd2data (index2fd new))
    · obtain ⟨q, hq⟩ := Option.ne_none_iff_exists'.1 hnone
      obtain ⟨-, hiff⟩ := maps_insert mem₂ hq hspare
      obtain ⟨x, hx⟩ := dupFd_error fun hm => hgoes ⟨fun _ => hfirst, hiff.1 hm⟩
      exact ⟨x, _, (dupOpen_ok hnone (mapAgain_ok hfirst hq)).trans hx,
        (Off.refl s _).insert_data q⟩
    · obtain ⟨x, hx⟩ := mapAgain_error hfirst
      exact ⟨x, s, dupOpen_error hnone hx, Off.refl s _⟩

/-- What the error exit leaves. -/
theorem dupErr_none {v u : Vpn} (x : Errno) (hu : u = v ∨ u = fd2data v) (hlow : u.val < utopPage) :
    (dupErr t v x).2.pt u = none := by
  rcases hu with rfl | rfl
  · exact (sysPageUnmap_pt_of_ne (fd2data_ne u).symm).trans (sysPageUnmap_pt_self hlow)
  · exact sysPageUnmap_pt_self hlow

/-- The data page of the new descriptor is the page of the old one: it does not survive. -/
theorem dupOpen_loses (mem₁ mem₂ : Bool) (hold : s.pt oldfd ≠ none) (hlow : oldfd.val < utopPage)
    (hspare : ¬ Spares s oldfd (index2fd new)) :
    (dupOpen mem₁ mem₂ s oldfd new).2.pt oldfd ≠ s.pt oldfd := by
  simp only [Spares, Classical.not_imp] at hspare
  obtain ⟨hdata, hnone, hdiff⟩ := hspare
  have hgone : ∀ t x, (dupErr t (index2fd new) x).2.pt oldfd ≠ s.pt oldfd := fun t x => by
    rw [dupErr_none x (Or.inr hdata.symm) hlow]
    exact hold.symm
  by_cases hfirst : Maps mem₁ s (fd2data oldfd) (fd2data (index2fd new))
  · obtain ⟨q, hq⟩ := Option.ne_none_iff_exists'.1 hnone
    rw [dupOpen_ok hnone (mapAgain_ok hfirst hq)]
    set t := s.insert (fd2data (index2fd new)) q with ht
    have htq : t.pt oldfd = some q := by rw [ht, hdata, Space.insert_pt_self]
    by_cases hsecond : Maps mem₂ t oldfd (index2fd new)
    · rw [dupFd_ok hsecond htq]
      have hne : oldfd ≠ index2fd new := fun heq => fd2data_ne (index2fd new) (hdata.trans heq)
      rw [Space.insert_pt_of_ne hne, htq, ← hq]
      exact Ne.symm hdiff
    · obtain ⟨x, hx⟩ := dupFd_error hsecond
      rw [hx]
      exact hgone t x
  · obtain ⟨x, hx⟩ := mapAgain_error hfirst
    rw [dupOpen_error hnone hx]
    exact hgone s x

end Mappings

/-! ## When `dup` duplicates -/

section Dup

variable {s t : Space} {mem₁ mem₂ : Bool} {old new : ℤ}

/-- For the number of a descriptor: `close` leaves no data page behind that the old descriptor
does not have. -/
def CarefulIn (s : Space) (old new : ℤ) : Prop :=
  new ≠ old → (∃ p, s.pt (index2fd old) = some p ∧ p.User) →
    s.pt (fd2data (index2fd old)) = none →
    s.pt (fd2data (index2fd new)) = none ∨ PipeAt s (index2fd new)

/-- For any other number: where the two pages are pages of the table, nothing is mapped there
that the call replaces or unmaps. -/
def CarefulOut (mem₁ mem₂ : Bool) (s : Space) (old new : ℤ) : Prop :=
  (Goes mem₁ mem₂ s (index2fd old) (index2fd new) →
    (InTable (index2fd new) → s.pt (index2fd new) = s.pt (index2fd old)) ∧
    (InTable (fd2data (index2fd new)) → s.pt (fd2data (index2fd old)) ≠ none →
      s.pt (fd2data (index2fd new)) = s.pt (fd2data (index2fd old))) ∧
    (new < 0 ∨ s.pt (fd2data (index2fd old)) ≠ none ∨ s.pt (fd2data (index2fd new)) = none)) ∧
  (¬ Goes mem₁ mem₂ s (index2fd old) (index2fd new) →
    (InTable (index2fd new) → s.pt (index2fd new) = none) ∧
    (InTable (fd2data (index2fd new)) → s.pt (fd2data (index2fd new)) = none))

/-- When `dup` does what it is for. -/
def Careful (mem₁ mem₂ : Bool) (s : Space) (old new : ℤ) : Prop :=
  fdLookup s old ≠ none →
    (0 ≤ new ∧ new < MAXFD → CarefulIn s old new) ∧
    (¬ (0 ≤ new ∧ new < MAXFD) → CarefulOut mem₁ mem₂ s old new)

/-- A descriptor onto itself is closed, and the call fails. -/
theorem dupOpen_self (mem₁ mem₂ : Bool) (hi : 0 ≤ new ∧ new < MAXFD) :
    ∃ x t, dupOpen mem₁ mem₂ (close s new) (index2fd new) new = dupErr t (index2fd new) x ∧
      Off s t (index2fd new) := by
  have hspare : Spares (close s new) (index2fd new) (index2fd new) := fun heq =>
    absurd heq (fd2data_ne _)
  have hno : ¬ Goes mem₁ mem₂ (close s new) (index2fd new) (index2fd new) := by
    rintro ⟨-, ⟨p, hp, -⟩, -⟩
    rw [close_fd hi] at hp
    cases hp
  obtain ⟨x, t, hrun, hoff⟩ := dupOpen_fails hspare hno
  exact ⟨x, t, hrun, (close_off s new).trans hoff⟩

/-- An error exit touches nothing but the new descriptor. -/
theorem dupErr_duplicates (hi : 0 ≤ new ∧ new < MAXFD) (hoff : Off s t (index2fd new))
    (x : Errno) : Duplicates s old new (dupErr t (index2fd new) x) :=
  Or.inl ⟨x.ret_neg, (hoff.dupErr x).others hi⟩

/-- **One descriptor to another.** -/
theorem dupOpen_in (hold : 0 ≤ old ∧ old < MAXFD) (hi : 0 ≤ new ∧ new < MAXFD)
    (hopen : s.pt (index2fd old) ≠ none) :
    Duplicates s old new (dupOpen mem₁ mem₂ (close s new) (index2fd old) new) ↔
      CarefulIn s old new := by
  by_cases hself : new = old
  · subst hself
    obtain ⟨x, t, hrun, hoff⟩ := dupOpen_self mem₁ mem₂ (s := s) hi
    rw [hrun]
    exact iff_of_true (dupErr_duplicates hi hoff x) fun hne => absurd rfl hne
  have hfd := isFd_index2fd hold.1 hold.2
  have hfd' := isFd_index2fd hi.1 hi.2
  obtain ⟨hin, hin'⟩ := inTable_of_isFd hfd
  obtain ⟨hnin, hnin'⟩ := inTable_of_isFd hfd'
  -- the old descriptor is as it was after `close`
  obtain ⟨hfd₁, hdata₁⟩ := (close_off s new).others hi old hold.1 hold.2 (Ne.symm hself)
  have hspare : Spares (close s new) (index2fd old) (index2fd new) := fun heq =>
    absurd heq (hfd'.fd2data_ne hfd)
  have htable : (close s new).tables 0x340 = true := by
    rw [close_tables, ← hin.dir_eq]
    exact s.walk _ hopen
  by_cases hgoes : Goes mem₁ mem₂ (close s new) (index2fd old) (index2fd new)
  · obtain ⟨t, hrun, hoff, htfd, htdata⟩ := dupOpen_goes hspare hgoes
    have hothers := ((close_off s new).trans hoff).others hi
    obtain ⟨hold₁, hold₂⟩ := hothers old hold.1 hold.2 (Ne.symm hself)
    obtain ⟨-, ⟨p, hp, hu⟩, -⟩ := hgoes
    rw [hfd₁] at hp htfd
    rw [hdata₁] at htdata
    rw [hrun]
    have hneg : ¬ (new < 0) := by omega
    have hiff : Duplicates s old new (new, t) ↔
        SamePage t (fd2data (index2fd old)) (fd2data (index2fd new)) := by
      constructor
      · rintro (⟨hlt, -⟩ | ⟨-, -, hsame, -⟩)
        · exact absurd hlt hneg
        · exact hsame
      · intro hsame
        refine Or.inr ⟨rfl, ?_, hsame, ⟨hold₁, hold₂⟩, hothers⟩
        rw [SamePage, htfd, hold₁]
    rw [hiff, SamePage, hold₂, htdata]
    by_cases hnone : s.pt (fd2data (index2fd old)) = none
    · rw [if_pos hnone, hnone, Option.map_none, Option.map_eq_none_iff, close_data_iff hi]
      exact ⟨fun h _ _ _ => h, fun h => h hself ⟨p, hp, hu⟩ hnone⟩
    · rw [if_neg hnone]
      exact iff_of_true rfl fun _ _ h => absurd h hnone
  · obtain ⟨x, t, hrun, hoff⟩ := dupOpen_fails hspare hgoes
    rw [hrun]
    refine iff_of_true (dupErr_duplicates hi ((close_off s new).trans hoff) x) ?_
    intro _ ⟨p, hp, hu⟩ hnone
    -- with no data page to map there is nothing to fail
    refine absurd ⟨fun hne => absurd (hdata₁.trans hnone) hne, ⟨p, hfd₁.trans hp, hu⟩, hin.low,
      hnin.low, Or.inl ?_⟩ hgoes
    rwa [hnin.dir_eq]

/-- **Any other number.** -/
theorem dupOpen_out (hold : 0 ≤ old ∧ old < MAXFD) (hi : ¬ (0 ≤ new ∧ new < MAXFD))
    (hopen : s.pt (index2fd old) ≠ none) :
    Duplicates s old new (dupOpen mem₁ mem₂ s (index2fd old) new) ↔
      CarefulOut mem₁ mem₂ s old new := by
  obtain ⟨hin, hin'⟩ := inTable_of_isFd (isFd_index2fd hold.1 hold.2)
  have hself : old ≠ new := fun heq => hi (heq ▸ hold)
  by_cases hspare : Spares s (index2fd old) (index2fd new)
  swap
  · -- the old descriptor is lost
    have hlost := dupOpen_loses mem₁ mem₂ hopen hin.low hspare
    simp only [Spares, Classical.not_imp] at hspare
    obtain ⟨hdata, hnone, hdiff⟩ := hspare
    refine iff_of_false ?_ ?_
    · rintro (⟨-, hothers⟩ | ⟨-, -, -, hsame, -⟩)
      · exact hlost (hothers old hold.1 hold.2 hself).1
      · exact hlost hsame.1
    · rintro ⟨hgo, hstop⟩
      by_cases hgoes : Goes mem₁ mem₂ s (index2fd old) (index2fd new)
      · have hsame := (hgo hgoes).2.1 (hdata ▸ hin) hnone
        rw [hdata] at hsame
        exact hdiff hsame
      · have hempty := (hstop hgoes).2 (hdata ▸ hin)
        rw [hdata] at hempty
        exact hopen hempty
  by_cases hgoes : Goes mem₁ mem₂ s (index2fd old) (index2fd new)
  · obtain ⟨t, hrun, hoff, htfd, htdata⟩ := dupOpen_goes hspare hgoes
    rw [hrun, CarefulOut, and_iff_left fun hno => absurd hgoes hno, imp_iff_right hgoes]
    have hothers : OthersSame s t new ↔
        (InTable (index2fd new) → s.pt (index2fd new) = s.pt (index2fd old)) ∧
        (InTable (fd2data (index2fd new)) → s.pt (fd2data (index2fd old)) ≠ none →
          s.pt (fd2data (index2fd new)) = s.pt (fd2data (index2fd old))) := by
      rw [hoff.others_iff hi, htfd, htdata]
      refine and_congr (imp_congr_right fun _ => eq_comm) (imp_congr_right fun _ => ?_)
      split
      · next hnone => exact iff_of_true rfl fun hne => absurd hnone hne
      · next hnone => exact ⟨fun h _ => h.symm, fun h => (h hnone).symm⟩
    rw [← and_assoc, ← hothers]
    have halias : OthersSame s t new →
        (SamePage t (fd2data (index2fd old)) (fd2data (index2fd new)) ↔
          s.pt (fd2data (index2fd old)) ≠ none ∨ s.pt (fd2data (index2fd new)) = none) := by
      intro h
      obtain ⟨-, hold₂⟩ := h old hold.1 hold.2 hself
      rw [SamePage, hold₂, htdata]
      split
      · next hnone =>
          rw [hnone, Option.map_none, Option.map_eq_none_iff]
          exact ⟨Or.inr, fun h => h.resolve_left fun hne => hne rfl⟩
      · next hnone => exact iff_of_true rfl (Or.inl hnone)
    constructor
    · rintro (⟨hneg, h⟩ | ⟨-, -, hsame, -, h⟩)
      · exact ⟨h, Or.inl hneg⟩
      · exact ⟨h, Or.inr ((halias h).1 hsame)⟩
    · rintro ⟨h, hneg | hpages⟩
      · exact Or.inl ⟨hneg, h⟩
      · have hsame := h old hold.1 hold.2 hself
        refine Or.inr ⟨rfl, ?_, (halias h).2 hpages, hsame, h⟩
        rw [SamePage, htfd, hsame.1]
  · obtain ⟨x, t, hrun, hoff⟩ := dupOpen_fails hspare hgoes
    rw [hrun, CarefulOut, and_iff_right fun hgo => absurd hgo hgoes, imp_iff_right hgoes]
    have hothers : OthersSame s (dupErr t (index2fd new) x).2 new ↔
        (InTable (index2fd new) → s.pt (index2fd new) = none) ∧
        (InTable (fd2data (index2fd new)) → s.pt (fd2data (index2fd new)) = none) := by
      rw [(hoff.dupErr x).others_iff hi]
      refine and_congr (imp_congr_right fun hin => ?_) (imp_congr_right fun hin => ?_)
      · rw [dupErr_none x (Or.inl rfl) hin.low, eq_comm]
      · rw [dupErr_none x (Or.inr rfl) hin.low, eq_comm]
    rw [← hothers]
    constructor
    · rintro (⟨-, h⟩ | ⟨-, -, -, -, h⟩)
      · exact h
      · exact h
    · exact fun h => Or.inl ⟨x.ret_neg, h⟩

/-- **When `dup` duplicates.**  For the number of a descriptor it may only leave a data page
behind; for any other number it may hit the pages of another descriptor. -/
theorem dup_duplicates_iff (mem₁ mem₂ : Bool) (s : Space) (old new : ℤ) :
    Duplicates s old new (dup mem₁ mem₂ s old new) ↔ Careful mem₁ mem₂ s old new := by
  cases hlook : fdLookup s old with
  | none =>
    have hrun : dup mem₁ mem₂ s old new = (Errno.inval.ret.toInt, s) := by rw [dup, hlook]
    rw [hrun]
    refine iff_of_true (Or.inl ⟨Errno.inval.ret_neg, fun _ _ _ _ => ⟨rfl, rfl⟩⟩) ?_
    exact fun hne => absurd hlook hne
  | some fd =>
    obtain ⟨hold, hopen, rfl⟩ := fdLookup_eq_some.1 hlook
    have hrun : dup mem₁ mem₂ s old new
        = dupOpen mem₁ mem₂ (close s new) (index2fd old) new := by rw [dup, hlook]
    rw [hrun, Careful, hlook, imp_iff_right (Option.some_ne_none _)]
    by_cases hi : 0 ≤ new ∧ new < MAXFD
    · rw [and_iff_left fun hno => absurd hi hno, imp_iff_right hi]
      exact dupOpen_in hold hi hopen
    · have hclose : close s new = s := by
        refine close_of_none ?_
        by_contra hne
        obtain ⟨fd, hfd⟩ := Option.ne_none_iff_exists'.1 hne
        exact hi (fdLookup_eq_some.1 hfd).1
      rw [and_iff_right fun h => absurd h hi, imp_iff_right hi, hclose]
      exact dupOpen_out hold hi hopen

/-- The table of a program that has opened the console as descriptor 0 and has a pipe, with
descriptor 1 for reading. -/
def consolePipe : Space where
  pt v :=
    if v.val = 0xD0000 then some ⟨1, 0x407#32, rfl⟩
    else if v.val = 0xD0001 then some ⟨2, 0x407#32, rfl⟩
    else if v.val = 0xD0021 then some ⟨3, 0x407#32, rfl⟩
    else none
  tables n := n == 0x340
  devId f := if f = 1 then 0x63#32 else devpipe
  walk v hv := by
    rw [beq_iff_eq, dir]
    split_ifs at hv
    · omega
    · omega
    · omega
    · exact absurd rfl hv

/-- **`dup(0, 33)`** returns 33, and the pipe of descriptor 1 is no longer its data page: page
33 of the table is the data page of descriptor 1. -/
theorem dup_hits_data :
    (dup false false consolePipe 0 33).1 = 33 ∧
      ((dup false false consolePipe 0 33).2.pt (fd2data (index2fd 1))).map Pte.frame = some 1 ∧
      (consolePipe.pt (fd2data (index2fd 1))).map Pte.frame = some 3 ∧
      ¬ Duplicates consolePipe 0 33 (dup false false consolePipe 0 33) := by
  have hret : (dup false false consolePipe 0 33).1 = 33 := by decide
  have hnow : ((dup false false consolePipe 0 33).2.pt (fd2data (index2fd 1))).map Pte.frame
      = some 1 := by decide
  have hthen : (consolePipe.pt (fd2data (index2fd 1))).map Pte.frame = some 3 := by decide
  refine ⟨hret, hnow, hthen, ?_⟩
  rintro (⟨hneg, -⟩ | ⟨-, -, -, -, hothers⟩)
  · rw [hret] at hneg
    exact absurd hneg (by decide)
  · rw [(hothers 1 (by decide) (by decide) (by decide)).2, hthen] at hnow
    exact absurd hnow (by decide)

end Dup

end Jos.Dup
