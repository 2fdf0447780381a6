import Jos.Kern.PmapSpec

/-!
# Checking user pointers

`user_mem_check` decides whether an environment may access a range of
addresses.  The kernel trusts its answer before it follows a user pointer, so
it should be the answer the hardware would give: every byte of the range below
`ULIM`, with both levels of the page table present and granting the
permissions; and otherwise the first address for which that fails.

* `Allowed` — the hardware's rule for one address.
* `userMemCheckLoop_spec` — what the loop finds: every page it passes satisfies
  the test the code makes (`pageTest`), and the page it stops at does not.
* `CheckMeets` — the code gives the right answer for one range.
* `userMemCheck_meets_iff` — exactly when it does.

The code differs from the rule in two ways.  It computes the end of the range
in 32 bits, so that a range that reaches the last page of the address space
looks empty or nearly so; and it does not look at the permissions in the
directory entry.
-/

namespace Jos

/-! ## The rule -/

/-- A page directory whose page tables lie in memory, so that walking it cannot
fail. -/
structure Pgdir (pm : PhysMem) where
  page : ℕ
  inMem : ∀ d, present (pm.mem page d) = true → pgnum (pm.mem page d) < pm.boot.npages

section Rule

variable (pm : PhysMem) (r : ℕ) (perm : Word)

/-- The first address of page `n`. -/
def pageAddr (n : ℕ) : Word := BitVec.ofNat 32 (4096 * n)

/-- The test `user_mem_check` makes on page `n`. -/
def pageTest (n : ℕ) : Bool :=
  pageAddr n < ULIM && present (pm.mem r (pdx (pageAddr n))) &&
    present (pm.mem (pgnum (pm.mem r (pdx (pageAddr n)))) (ptx (pageAddr n))) &&
    grants (pm.mem (pgnum (pm.mem r (pdx (pageAddr n)))) (ptx (pageAddr n))) perm

/-- Does the directory entry of page `n` grant the permissions? -/
def pdeTest (n : ℕ) : Bool := grants (pm.mem r (pdx (pageAddr n))) perm

/-- The hardware's rule: may address `a` be accessed with `perm`? -/
def Allowed (a : ℕ) : Prop :=
  a < ULIM.toNat ∧ pageTest pm r perm (a / 4096) = true ∧ pdeTest pm r perm (a / 4096) = true

/-- Every byte of the range may be accessed; the range does not wrap around. -/
def RangeAllowed (va len : Word) : Prop :=
  ∀ a, va.toNat ≤ a → a < va.toNat + len.toNat → Allowed pm r perm a

/-- `x` is the first address of the range that may not be accessed. -/
def FirstDenied (va len x : Word) : Prop :=
  va.toNat ≤ x.toNat ∧ x.toNat < va.toNat + len.toNat ∧ ¬ Allowed pm r perm x.toNat ∧
    ∀ a, va.toNat ≤ a → a < x.toNat → Allowed pm r perm a

/-- `user_mem_check` gives the right answer for this range. -/
def CheckMeets (va len : Word) : Prop :=
  ∃ res pm', userMemCheck r va len perm pm = .ok res pm' ∧
    (RangeAllowed pm r perm va len → res = .ok ()) ∧
    (¬ RangeAllowed pm r perm va len →
      res = .error .fault ∧ FirstDenied pm r perm va len pm'.userMemCheckAddr)

end Rule

/-! ## Pages and addresses -/

variable {n j : ℕ} {res : Except Errno Unit} {pm' : PhysMem}

theorem pageAddr_toNat (h : n < 2 ^ 20) : (pageAddr n).toNat = 4096 * n := by
  rw [pageAddr, BitVec.toNat_ofNat, Nat.mod_eq_of_lt (by omega)]

theorem roundDown_eq (a : Word) : roundDown a = pageAddr (a.toNat / 4096) := by
  have ha := a.isLt
  apply BitVec.eq_of_toNat_eq
  rw [pageAddr_toNat (by omega), roundDown_toNat, Nat.mul_comm]

theorem roundUp_eq (a : Word) : roundUp a = pageAddr ((a.toNat + 4095) % 2 ^ 32 / 4096) := by
  apply BitVec.eq_of_toNat_eq
  rw [pageAddr_toNat (by omega), roundUp_toNat, Nat.mul_comm]

/-- `ULIM` is the start of a page. -/
theorem pageAddr_lt_ULIM (h : n < 2 ^ 20) : pageAddr n < ULIM ↔ 4096 * n < ULIM.toNat := by
  rw [BitVec.lt_def, pageAddr_toNat h]

theorem lt_ULIM_iff_page (a : ℕ) : a < ULIM.toNat ↔ 4096 * (a / 4096) < ULIM.toNat := by
  rw [ULIM_toNat]
  omega

/-- For one address the two tests are the whole rule. -/
theorem allowed_iff {pm : PhysMem} {r : ℕ} {perm : Word} {a : ℕ} (ha : a < 2 ^ 32) :
    Allowed pm r perm a ↔
      pageTest pm r perm (a / 4096) = true ∧ pdeTest pm r perm (a / 4096) = true := by
  refine ⟨fun h => h.2, fun h => ⟨?_, h⟩⟩
  have hn : a / 4096 < 2 ^ 20 := by omega
  have hlim := h.1
  simp only [pageTest, Bool.and_eq_true, decide_eq_true_eq] at hlim
  rw [lt_ULIM_iff_page, ← pageAddr_lt_ULIM hn]
  exact hlim.1.1.1

/-! ## The loop -/

section Loop

variable {pm : PhysMem} {perm va : Word}

/-- What the loop finds on pages `i` to `j`: either all of them pass the test,
or it stops at the first that does not. -/
inductive Scan (pm : PhysMem) (r : ℕ) (perm va : Word) (i j : ℕ) :
    Except Errno Unit → PhysMem → Prop
  | passed : (∀ n, i ≤ n → n < j → pageTest pm r perm n = true) → Scan pm r perm va i j (.ok ()) pm
  | stopped (n : ℕ) : i ≤ n → n < j → (∀ m, i ≤ m → m < n → pageTest pm r perm m = true) →
      pageTest pm r perm n = false →
      Scan pm r perm va i j (.error .fault)
        { pm with userMemCheckAddr := if pageAddr n > va then pageAddr n else va }

/-- A page that passes can be put in front of what the loop finds. -/
theorem Scan.cons {r i : ℕ} (hi : pageTest pm r perm i = true)
    (h : Scan pm r perm va (i + 1) j res pm') : Scan pm r perm va i j res pm' := by
  have hext : ∀ {n}, (∀ m, i + 1 ≤ m → m < n → pageTest pm r perm m = true) →
      ∀ m, i ≤ m → m < n → pageTest pm r perm m = true := by
    intro n hrest m h1 h2
    rcases Nat.eq_or_lt_of_le h1 with rfl | h1
    · exact hi
    · exact hrest m h1 h2
  cases h with
  | passed hall => exact .passed (hext hall)
  | stopped n h1 h2 hbefore hn => exact .stopped n (by omega) h2 (hext hbefore) hn

/-- One round of the loop looks at one page. -/
theorem walk_pageTest (pd : Pgdir pm) (perm : Word) (n : ℕ) :
    ∃ pte, pgdirWalk pd.page (pageAddr n) false pm = .ok pte pm ∧
      ((pageAddr n ≥ ULIM ∨ pteAllows pm perm pte = false) ↔
        pageTest pm pd.page perm n = false) := by
  by_cases hp : present (pm.mem pd.page (pdx (pageAddr n))) = true
  · refine ⟨_, pgdirWalk_present hp (pd.inMem _ hp), ?_⟩
    simp only [pteAllows, PhysMem.read, pageTest, hp, Bool.and_true, Bool.and_eq_false_iff,
      decide_eq_false_iff_not, BitVec.not_lt, ge_iff_le, or_assoc]
  · have habs : present (pm.mem pd.page (pdx (pageAddr n))) = false := by simpa using hp
    refine ⟨none, pgdirWalk_absent habs, ?_⟩
    simp [pteAllows, pageTest, habs]

theorem pageAddr_succ (n : ℕ) : pageAddr n + BitVec.ofNat 32 PGSIZE = pageAddr (n + 1) := by
  rw [pageAddr, pageAddr, PGSIZE, ← BitVec.ofNat_add, Nat.mul_succ]

theorem pageAddr_lt_iff {i : ℕ} (hi : i < 2 ^ 20) (hj : j < 2 ^ 20) :
    pageAddr i < pageAddr j ↔ i < j := by
  rw [BitVec.lt_def, pageAddr_toNat hi, pageAddr_toNat hj]
  omega

/-- The loop returns, and with what `Scan` says. -/
theorem userMemCheckLoop_spec (pd : Pgdir pm) (hj : j < 2 ^ 20) (fuel : ℕ) :
    ∀ i, i < 2 ^ 20 → j ≤ i + fuel → ∃ res pm',
      userMemCheckLoop pd.page va perm fuel (pageAddr i) (pageAddr j) pm = .ok res pm' ∧
        Scan pm pd.page perm va i j res pm' := by
  -- on the fuel: a round either stops the loop or moves on to the next page
  induction fuel with
  | zero =>
    intro i _ hji
    exact ⟨_, _, rfl, .passed fun n hn hnj => absurd hnj (by omega)⟩
  | succ fuel ih =>
    intro i hi hji
    by_cases hij : i < j
    · obtain ⟨pte, hwalk, htest⟩ := walk_pageTest pd perm i
      rw [userMemCheckLoop, if_pos ((pageAddr_lt_iff hi hj).2 hij), run_bind_ok hwalk,
        run_get_bind]
      by_cases ht : pageTest pm pd.page perm i = false
      · rw [if_pos (htest.2 ht)]
        exact ⟨_, _, rfl, .stopped i le_rfl hij (fun m h1 h2 => absurd h2 (by omega)) ht⟩
      · rw [if_neg (fun hc => ht (htest.1 hc)), pageAddr_succ]
        obtain ⟨res, pm', hrun, hscan⟩ := ih (i + 1) (by omega) (by omega)
        exact ⟨res, pm', hrun, hscan.cons (by simpa using ht)⟩
    · rw [userMemCheckLoop, if_neg (fun hc => hij ((pageAddr_lt_iff hi hj).1 hc)), run_pure]
      exact ⟨_, _, rfl, .passed fun n h1 h2 => absurd h2 (by omega)⟩

/-- The page after the last that `user_mem_check` looks at. -/
def stopPage (va len : Word) : ℕ := ((va + len).toNat + 4095) % 2 ^ 32 / 4096

theorem userMemCheck_spec (pd : Pgdir pm) (va len perm : Word) : ∃ res pm',
    userMemCheck pd.page va len perm pm = .ok res pm' ∧
      Scan pm pd.page perm va (va.toNat / 4096) (stopPage va len) res pm' := by
  have hva := va.isLt
  have hstop : stopPage va len < 2 ^ 20 := by
    unfold stopPage
    omega
  rw [userMemCheck, roundDown_eq, roundUp_eq]
  exact userMemCheckLoop_spec pd hstop _ _ (by omega) (by omega)

end Loop

/-! ## When the answer is right -/

section Meets

variable {pm : PhysMem} {r : ℕ} {perm va len : Word}

/-- **The ranges `user_mem_check` gets right.**  Below the last page of the
address space: those in which every page the loop passes has a directory entry
that grants the permissions.  At the end of the address space nothing may be
accessed, so the loop must see at least one page, and the page of `va`, which
is then the only one, must fail the test. -/
def CheckAgrees (pm : PhysMem) (r : ℕ) (perm va len : Word) : Prop :=
  if va.toNat + len.toNat + 4095 < 2 ^ 32 then
    ∀ n, va.toNat / 4096 ≤ n → 4096 * n < va.toNat + len.toNat →
      (∀ m, va.toNat / 4096 ≤ m → m ≤ n → pageTest pm r perm m = true) →
        pdeTest pm r perm n = true
  else
    roundDown va < roundUp (va + len) ∧ pageTest pm r perm (va.toNat / 4096) = false

/-- All addresses from `v` to `b` may be accessed if all their pages may. -/
theorem allowed_pages_iff {v b : ℕ} (hb : b ≤ 2 ^ 32)
    (hj : ∀ n, v / 4096 ≤ n → (n < j ↔ v < b ∧ 4096 * n < b)) :
    (∀ a, v ≤ a → a < b → Allowed pm r perm a) ↔
      ∀ n, v / 4096 ≤ n → n < j → pageTest pm r perm n = true ∧ pdeTest pm r perm n = true := by
  constructor
  · intro h n hn hnj
    obtain ⟨h1, h2⟩ := (hj n hn).1 hnj
    -- the first address of the range on page `n`
    have hpage : max v (4096 * n) / 4096 = n := by omega
    have ha := h (max v (4096 * n)) (by omega) (by omega)
    rw [allowed_iff (by omega), hpage] at ha
    exact ha
  · intro h a ha hab
    rw [allowed_iff (by omega)]
    exact h (a / 4096) (by omega) ((hj _ (by omega)).2 ⟨by omega, by omega⟩)

theorem checkMeets_iff (hrun : userMemCheck r va len perm pm = .ok res pm') :
    CheckMeets pm r perm va len ↔
      (RangeAllowed pm r perm va len → res = .ok ()) ∧
      (¬ RangeAllowed pm r perm va len →
        res = .error .fault ∧ FirstDenied pm r perm va len pm'.userMemCheckAddr) := by
  constructor
  · rintro ⟨res', pm'', hrun', h⟩
    rw [hrun] at hrun'
    cases hrun'
    exact h
  · exact fun h => ⟨res, pm', hrun, h⟩

theorem checkMeets_of_ok (hrun : userMemCheck r va len perm pm = .ok (.ok ()) pm') :
    CheckMeets pm r perm va len ↔ RangeAllowed pm r perm va len := by
  rw [checkMeets_iff hrun]
  refine ⟨fun h => ?_, fun h => ⟨fun _ => rfl, fun hn => absurd h hn⟩⟩
  by_contra hn
  exact absurd (h.2 hn).1 (by simp)

theorem checkMeets_of_fault (hrun : userMemCheck r va len perm pm = .ok (.error .fault) pm')
    (hn : ¬ RangeAllowed pm r perm va len) :
    CheckMeets pm r perm va len ↔ FirstDenied pm r perm va len pm'.userMemCheckAddr := by
  rw [checkMeets_iff hrun]
  exact ⟨fun h => (h.2 hn).2, fun h => ⟨fun hr => absurd hr hn, fun _ => ⟨rfl, h⟩⟩⟩

/-- The address reported for page `n`. -/
theorem reported_toNat (hn : n < 2 ^ 20) :
    (if pageAddr n > va then pageAddr n else va).toNat = max (4096 * n) va.toNat := by
  split
  · next h =>
    rw [gt_iff_lt, BitVec.lt_def] at h
    rw [pageAddr_toNat hn] at h ⊢
    omega
  · next h =>
    rw [gt_iff_lt, BitVec.lt_def, pageAddr_toNat hn] at h
    omega

/-- When the loop stops at page `n`, the address reported is the first that may
not be accessed exactly if the directory entries of the pages before grant the
permissions. -/
theorem firstDenied_iff (hn : n < 2 ^ 20) (hvn : va.toNat / 4096 ≤ n)
    (hlen : va.toNat < va.toNat + len.toNat) (hin : 4096 * n < va.toNat + len.toNat)
    (hbefore : ∀ m, va.toNat / 4096 ≤ m → m < n → pageTest pm r perm m = true)
    (hfail : pageTest pm r perm n = false) :
    FirstDenied pm r perm va len (if pageAddr n > va then pageAddr n else va) ↔
      ∀ m, va.toNat / 4096 ≤ m → m < n → pdeTest pm r perm m = true := by
  have hpage : max (4096 * n) va.toNat / 4096 = n := by omega
  have hdenied : ¬ Allowed pm r perm (max (4096 * n) va.toNat) := by
    rw [allowed_iff (by omega), hpage, hfail]
    simp
  have hpages : (∀ a, va.toNat ≤ a → a < max (4096 * n) va.toNat → Allowed pm r perm a) ↔
      ∀ m, va.toNat / 4096 ≤ m → m < n →
        pageTest pm r perm m = true ∧ pdeTest pm r perm m = true :=
    allowed_pages_iff (by omega) (fun m hm => by omega)
  rw [FirstDenied, reported_toNat hn, hpages]
  constructor
  · rintro ⟨_, _, _, h⟩ m hm hmn
    exact (h m hm hmn).2
  · intro h
    exact ⟨by omega, by omega, hdenied, fun m hm hmn => ⟨hbefore m hm hmn, h m hm hmn⟩⟩

/-- A range that does not reach the last page. -/
theorem meets_iff_of_noWrap (pd : Pgdir pm) (hlen : 0 < len.toNat)
    (hw : va.toNat + len.toNat + 4095 < 2 ^ 32) :
    CheckMeets pm pd.page perm va len ↔
      ∀ n, va.toNat / 4096 ≤ n → 4096 * n < va.toNat + len.toNat →
        (∀ m, va.toNat / 4096 ≤ m → m ≤ n → pageTest pm pd.page perm m = true) →
          pdeTest pm pd.page perm n = true := by
  -- the loop looks at the pages of the range
  have hj : ∀ n, n < stopPage va len ↔ 4096 * n < va.toNat + len.toNat := by
    intro n
    rw [stopPage, BitVec.toNat_add]
    omega
  have hrange : RangeAllowed pm pd.page perm va len ↔
      ∀ n, va.toNat / 4096 ≤ n → n < stopPage va len →
        pageTest pm pd.page perm n = true ∧ pdeTest pm pd.page perm n = true :=
    allowed_pages_iff (by omega) (fun n _ => by rw [hj]; omega)
  obtain ⟨res, pm', hrun, hscan⟩ := userMemCheck_spec pd va len perm
  cases hscan with
  | passed hall =>
    rw [checkMeets_of_ok hrun, hrange]
    constructor
    · intro h n hn hnl _
      exact (h n hn ((hj n).2 hnl)).2
    · intro h n hn hnj
      refine ⟨hall n hn hnj, h n hn ((hj n).1 hnj) fun m hm hmn => hall m hm (by omega)⟩
  | stopped n hn hnj hbefore hfail =>
    have hnl := (hj n).1 hnj
    have hdenied : ¬ RangeAllowed pm pd.page perm va len := by
      rw [hrange]
      intro h
      rw [(h n hn hnj).1] at hfail
      cases hfail
    rw [checkMeets_of_fault hrun hdenied,
      firstDenied_iff (by omega) hn (by omega) hnl hbefore hfail]
    constructor
    · intro h m hm _ hpass
      rcases Nat.lt_or_ge m n with hmn | hmn
      · exact h m hm hmn
      · rw [hpass n hn hmn] at hfail
        cases hfail
    · intro h m hm hmn
      exact h m hm (by omega) fun m' hm' hmm => hbefore m' hm' (by omega)

/-- A range that reaches the last page: the end of the range, rounded up, wraps
around, and the loop looks at the page of `va` or at none. -/
theorem meets_iff_of_wrap (pd : Pgdir pm) (hlen : 0 < len.toNat)
    (hw : 2 ^ 32 ≤ va.toNat + len.toNat + 4095) :
    CheckMeets pm pd.page perm va len ↔
      roundDown va < roundUp (va + len) ∧ pageTest pm pd.page perm (va.toNat / 4096) = false := by
  have hstop : stopPage va len < 2 ^ 20 ∧ stopPage va len ≤ va.toNat / 4096 + 1 := by
    rw [stopPage, BitVec.toNat_add]
    omega
  have hsees : roundDown va < roundUp (va + len) ↔ va.toNat / 4096 < stopPage va len := by
    rw [roundDown_eq, roundUp_eq]
    exact pageAddr_lt_iff (by omega) hstop.1
  have hdenied : ¬ RangeAllowed pm pd.page perm va len := by
    intro h
    have hlim := (h (va.toNat + len.toNat - 1) (by omega) (by omega)).1
    rw [ULIM_toNat] at hlim
    omega
  rw [hsees]
  obtain ⟨res, pm', hrun, hscan⟩ := userMemCheck_spec pd va len perm
  cases hscan with
  | passed hall =>
    rw [checkMeets_of_ok hrun]
    refine ⟨fun h => absurd h hdenied, fun ⟨hsee, hfail⟩ => ?_⟩
    rw [hall _ le_rfl hsee] at hfail
    cases hfail
  | stopped n hn hnj hbefore hfail =>
    have hnv : n = va.toNat / 4096 := by omega
    subst hnv
    rw [checkMeets_of_fault hrun hdenied,
      firstDenied_iff (by omega) le_rfl (by omega) (by omega) hbefore hfail]
    exact ⟨fun _ => ⟨hnj, hfail⟩, fun _ m hm hmn => absurd hmn (by omega)⟩

/-- **When `user_mem_check` gives the right answer**, for every page directory,
every range and every permission. -/
theorem userMemCheck_meets_iff (pd : Pgdir pm) (perm va len : Word) (hlen : 0 < len.toNat) :
    CheckMeets pm pd.page perm va len ↔ CheckAgrees pm pd.page perm va len := by
  unfold CheckAgrees
  split
  · next hw => exact meets_iff_of_noWrap pd hlen hw
  · next hw => exact meets_iff_of_wrap pd hlen (by omega)

end Meets

/-! ## The directories of environments -/

/-- Walking the page directory of an environment cannot fail. -/
theorem MemInv.dir_inMem {pm : PhysMem} {roots : EnvIdx → Option ℕ} {held : Finset ℕ}
    {e : EnvIdx} {r : ℕ} (h : MemInv pm roots held) (hr : roots e = some r) (d : Idx)
    (hp : present (pm.mem r d) = true) : pgnum (pm.mem r d) < pm.boot.npages := by
  rcases lt_or_ge d utopDx with hd | hd
  · refine h.lt_npages (s := .pde e d) ?_
    rw [target, entry_pde hr hd, presentEntry_of_present hp, Option.map_some]
  · by_cases huvpt : d = uvptDx
    · have hself : target pm roots (.dir e) = some r := hr
      have hlt := h.lt_npages hself
      rw [huvpt, h.table.uvpt e r hr, pgnum_or_flags flagsOnly_PTE_U,
        pgnum_or_flags flagsOnly_PTE_P, pgnum_page2pa (h.lt_two_pow hlt)]
      exact hlt
    · rw [h.table.kern_half e r d hr hd huvpt] at hp ⊢
      refine h.lt_npages (s := .kern d) ?_
      rw [target, entry, if_pos ⟨hd, huvpt⟩, presentEntry_of_present hp, Option.map_some]

/-- The page directory of an environment. -/
def MemInv.pgdir {pm : PhysMem} {roots : EnvIdx → Option ℕ} {held : Finset ℕ} {e : EnvIdx} {r : ℕ}
    (h : MemInv pm roots held) (hr : roots e = some r) : Pgdir pm where
  page := r
  inMem := h.dir_inMem hr

/-- A page directory as `env_setup_vm` leaves it, with one page table. -/
def selfMapped : PhysMem where
  boot := ⟨4, 4, 0, 0⟩
  pages := fun _ => ⟨none, 0#16⟩
  pageFreeList := none
  mem := fun p d =>
    if p = 1 ∧ d = uvptDx then page2pa 1 ||| PTE_P ||| PTE_U
    else if p = 1 ∧ d.val = 0 then page2pa 2 ||| PTE_P ||| PTE_W ||| PTE_U
    else 0#32
  userMemCheckAddr := 0#32

theorem selfMapped_inMem (d : Idx) (hp : present (selfMapped.mem 1 d) = true) :
    pgnum (selfMapped.mem 1 d) < 4 := by
  simp only [selfMapped, true_and] at hp ⊢
  by_cases huvpt : d = uvptDx
  · rw [if_pos huvpt]
    decide
  · rw [if_neg huvpt] at hp ⊢
    by_cases hzero : d.val = 0
    · rw [if_pos hzero]
      decide
    · rw [if_neg hzero] at hp
      exact absurd hp (by decide)

def selfMappedDir : Pgdir selfMapped := ⟨1, selfMapped_inMem⟩

theorem userMemCheck_meets_selfMapped :
    0 < (0x1000#32).toNat ∧ CheckMeets selfMapped 1 PTE_U UVPT 0x1000#32 := by
  refine ⟨by decide, (userMemCheck_meets_iff selfMappedDir PTE_U UVPT 0x1000#32 (by decide)).2 ?_⟩
  rw [CheckAgrees, if_pos (by decide)]
  intro n hn hnl _
  have hUVPT : UVPT.toNat = 0xef400000 := by decide
  have hone : (0x1000#32).toNat = 4096 := by decide
  have hpage : n = 0xef400 := by omega
  subst hpage
  decide

/-- **Where `user_mem_check` is wrong.**  The last page of the address space is
above `ULIM`, but the end of the range wraps around to 0 and no page is looked
at.  In the window at `UVPT` the directory entry grants no write access, but
only the entry found through it is looked at, and that one does. -/
theorem userMemCheck_wrong :
    ¬ CheckMeets selfMapped 1 PTE_U 0xfffff000#32 0x1000#32 ∧
    ¬ CheckMeets selfMapped 1 (PTE_W ||| PTE_U) UVPT 0x1000#32 := by
  constructor
  · rw [show (1 : ℕ) = selfMappedDir.page from rfl, meets_iff_of_wrap _ (by decide) (by decide)]
    exact fun h => absurd h.1 (by decide)
  · rw [show (1 : ℕ) = selfMappedDir.page from rfl, meets_iff_of_noWrap _ (by decide) (by decide)]
    intro h
    have hUVPT : UVPT.toNat = 0xef400000 := by decide
    have hpass : pageTest selfMapped 1 (PTE_W ||| PTE_U) 0xef400 = true := by decide
    have hgrant := h 0xef400 (by omega) (by decide) fun m hm hmn => by
      have hmeq : m = 0xef400 := by omega
      rw [hmeq]
      exact hpass
    exact absurd hgrant (by decide)

end Jos
