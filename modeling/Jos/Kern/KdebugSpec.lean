import Jos.Kern.Kdebug

/-!
# Which symbol tables the kernel reads safely

`Kdebug` bounds what `debuginfo_eip` reads, for any contents of the table.
This file shows that the bound is met, and says for which descriptors all of it
has been validated (`reads_validated_iff`).

* `Hits` — a run reads a given thing.
* `blank_hits` — in a table with no entry of the type, the search reads all
  entries.
* `stepsBack` — a table in which each of the three searches ends one entry
  further to the left, so that entries -1, -2 and -3 are read.
-/

namespace Jos.Kdebug

/-! ## Runs that read something -/

/-- The code only adds to the log. -/
def Extends {α : Type} (x : M α) : Prop :=
  ∀ log, wp x (fun _ log' => log ⊆ log') (fun _ log' => log ⊆ log') log

/-- After the run, whether it comes to an end or not, `y` has been read. -/
def Hits {α : Type} (x : M α) (log : List Read) (y : Read) : Prop :=
  wp x (fun _ log' => y ∈ log') (fun _ log' => y ∈ log') log

section Rules

variable {α β : Type} {x : M α} {f : α → M β} {log log' : List Read} {y : Read}

theorem Extends.pure {a : α} : Extends (pure a : M α) := fun log => List.Subset.refl log

theorem Extends.bind (hx : Extends x) (hf : ∀ a, Extends (f a)) : Extends (x >>= f) := by
  intro log
  rw [wp_bind]
  refine (hx log).mono (fun a log1 h1 => ?_) (fun _ _ h => h)
  exact (hf a log1).mono (fun _ _ h2 => List.Subset.trans h1 h2)
    (fun _ _ h2 => List.Subset.trans h1 h2)

theorem Extends.ite {c : Prop} [Decidable c] {z : M α} (hx : Extends x) (hz : Extends z) :
    Extends (if c then x else z) := by
  split
  · exact hx
  · exact hz

theorem Extends.hits (hx : Extends x) (h : y ∈ log) : Hits x log y :=
  (hx log).mono (fun _ _ hsub => hsub h) (fun _ _ hsub => hsub h)

theorem Hits.bind (hx : Hits x log y) (hf : ∀ a, Extends (f a)) : Hits (x >>= f) log y := by
  rw [Hits, wp_bind]
  exact wp.mono hx (fun a log1 h => (hf a).hits h) (fun _ _ h => h)

theorem Hits.after {a : α} (hx : x log = .ok a log') (hf : Hits (f a) log' y) :
    Hits (x >>= f) log y := by
  rw [Hits, wp_bind, wp_of_ok hx]
  exact hf

end Rules

section Code

variable (stabs : ℤ → Stab) (str : Word → BitVec 8) (d : UserStabData) (type : ℤ)

theorem readStab_extends (i : ℤ) : Extends (readStab stabs i) :=
  fun log => List.subset_cons_self _ log

theorem slideDown_extends (k : ℕ) (m : ℤ) : Extends (slideDown stabs type k m) := by
  induction k generalizing m with
  | zero => exact Extends.pure
  | succ k ih => exact (readStab_extends stabs m).bind fun e => (ih _).ite Extends.pure

theorem searchStep_extends (s : Search) : Extends (searchStep stabs type s) :=
  (slideDown_extends stabs type _ _).bind fun m =>
    Extends.pure.ite ((readStab_extends stabs m).bind fun _ => Extends.pure)

theorem searchLoop_extends (k : ℕ) (s : Search) : Extends (searchLoop stabs type k s) := by
  induction k generalizing s with
  | zero => exact fun log => List.Subset.refl log
  | succ k ih => exact ((searchStep_extends stabs type s).bind ih).ite Extends.pure

theorem searchEnd_extends (s : Search) : Extends (searchEnd stabs type s) :=
  Extends.pure.ite ((slideDown_extends stabs type _ _).bind fun _ => Extends.pure)

theorem stabBinsearch_extends (l r : ℤ) (addr : Word) :
    Extends (stabBinsearch stabs l r type addr) :=
  (searchLoop_extends stabs type _ _).bind fun s => searchEnd_extends stabs type s

theorem strfind_extends (c : BitVec 8) (k : ℕ) (p : Word) : Extends (strfind str c k p) := by
  induction k generalizing p with
  | zero => exact fun log => List.Subset.refl log
  | succ k ih =>
    have hread : Extends (readByte str p) := fun log => List.subset_cons_self _ log
    exact hread.bind fun b => Extends.pure.ite (Extends.pure.ite (ih _))

theorem fnNamelen_extends (name : Option Word) : Extends (fnNamelen str name) := by
  cases name with
  | none => exact Extends.pure
  | some p => exact (strfind_extends str _ _ p).bind fun _ => Extends.pure

theorem fileScan_extends (k : ℕ) (l : ℤ) : Extends (fileScan stabs k l) := by
  induction k generalizing l with
  | zero => exact Extends.pure
  | succ k ih => exact (readStab_extends stabs l).bind fun e => (ih _).ite Extends.pure

theorem countArgs_extends (k : ℕ) (l narg : ℤ) : Extends (countArgs stabs k l narg) := by
  induction k generalizing l narg with
  | zero => exact Extends.pure
  | succ k ih => exact (readStab_extends stabs l).bind fun e => (ih _ _).ite Extends.pure

/-- What follows the read of the line's entry. -/
theorem lineInfo_rest_extends (lfile lfun rfun lline : ℤ) (info : Eipdebuginfo) (e : Stab) :
    Extends (do
      let scanned ← fileScan stabs (lline - lfile + 1).toNat lline
      let file ← fileName d stabs lfile scanned info.eipFile
      let narg ← fnNarg stabs lfun rfun info.eipFnNarg
      pure ((0, { info with eipLine := e.nDesc.toNat, eipFile := file, eipFnNarg := narg }) :
        ℤ × Eipdebuginfo)) :=
  (fileScan_extends stabs _ _).bind fun l =>
    (((readStab_extends stabs l).bind fun _ => Extends.pure).ite Extends.pure).bind fun _ =>
      ((countArgs_extends stabs _ _ _).ite Extends.pure).bind fun _ => Extends.pure

theorem lineInfo_extends (lfile lfun rfun lline : ℤ) (info : Eipdebuginfo) :
    Extends (lineInfo d stabs lfile lfun rfun lline info) :=
  (readStab_extends stabs lline).bind fun e =>
    lineInfo_rest_extends stabs d lfile lfun rfun lline info e

theorem findLine_extends (lfile lfun rfun lline rline : ℤ) (addr : Word) (info : Eipdebuginfo) :
    Extends (findLine d stabs lfile lfun rfun lline rline addr info) :=
  (stabBinsearch_extends stabs _ _ _ _).bind fun p =>
    (lineInfo_extends stabs d lfile lfun rfun p.1 info).ite Extends.pure

theorem findFun_extends (lfile rfile : ℤ) (addr : Word) (info : Eipdebuginfo) :
    Extends (findFun d stabs str lfile rfile addr info) :=
  (stabBinsearch_extends stabs _ _ _ _).bind fun p =>
    ((readStab_extends stabs p.1).bind fun _ =>
      (fnNamelen_extends str _).bind fun _ => findLine_extends stabs d _ _ _ _ _ _ _).ite
        ((fnNamelen_extends str _).bind fun _ => findLine_extends stabs d _ _ _ _ _ _ _)

end Code

/-! ## Tables that make the code read much -/

variable {i n : ℤ} {y : Read} {addr va len : Word}

section Search

variable {stabs : ℤ → Stab} {type : ℤ} {log : List Read} {addr : Word}

theorem Adds.mem {log log' : List Read} {j : ℤ} (h : Adds log log' i j) (h1 : i ≤ n) (h2 : n ≤ j) :
    Read.stab n ∈ log' :=
  (h _).2 (Or.inr ⟨n, h1, h2, rfl⟩)

/-- The first round of a search. -/
theorem stabBinsearch_first {l r : ℤ} (hlr : l ≤ r)
    (h : Hits (searchStep stabs type ⟨l, r, l, r, addr, false⟩) log y) :
    Hits (stabBinsearch stabs l r type addr) log y := by
  have hround : searchLoop stabs type (2 ^ 32) ⟨l, r, l, r, addr, false⟩ =
      searchStep stabs type ⟨l, r, l, r, addr, false⟩ >>= searchLoop stabs type 4294967295 :=
    if_pos hlr
  unfold stabBinsearch
  rw [hround]
  exact (h.bind fun s => searchLoop_extends stabs type _ s).bind
    fun s => searchEnd_extends stabs type s

/-- A search of one entry reads it. -/
theorem single_hits {m : ℤ} (h1 : -2 ^ 29 ≤ m) (h2 : m < 2 ^ 29) :
    Hits (stabBinsearch stabs m m type addr) log (.stab m) := by
  refine stabBinsearch_first (le_refl m) ?_
  have hhalf := half_bounds (le_refl m)
  have hlr : (⟨m, m, m, m, addr, false⟩ : Search).l ≤ (⟨m, m, m, m, addr, false⟩ : Search).r :=
    le_refl m
  rcases none_or_probe stabs type (le_refl m) with hno | ⟨p, hp⟩
  · obtain ⟨log', hrun, hadds⟩ := searchStep_none hlr (by dsimp only; omega)
      (by dsimp only; omega) hno log
    exact (wp_of_ok hrun).2 (hadds.mem (le_refl m) hhalf.1)
  · have hpm : p = m := le_antisymm (le_trans hp.upper hhalf.2) hp.lower
    subst hpm
    obtain ⟨log', hrun, hadds⟩ := searchStep_probe hlr (by dsimp only; omega)
      (by dsimp only; omega) hp log
    exact (wp_of_ok hrun).2 (hadds.mem (le_refl p) hhalf.1)

/-- A search that finds nothing of the type reads every entry, if the indices
are small enough for their sum to be right; in any case the left half. -/
theorem blank_hits (hno : ∀ i, ¬ Is stabs type i) {r : ℤ} (h1 : 0 ≤ i) (h2 : i ≤ r)
    (h3 : r < 2 ^ 30 ∨ r < 2 ^ 31 ∧ i ≤ half 0 r) :
    Hits (stabBinsearch stabs 0 r type addr) log (.stab i) := by
  rcases h3 with h3 | ⟨h3, h4⟩
  · have hneed : need stabs ⟨0, r, 0, r, addr, false⟩ < 2 ^ 32 := by
      have := need_le stabs ⟨0, r, 0, r, addr, false⟩
      dsimp only at this
      omega
    obtain ⟨t, log1, hrun, ⟨hr, h0, hall⟩, hend⟩ := searchLoop_rule stabs type
      (fun s log => s.r = r ∧ 0 ≤ s.l ∧ ∀ j, 0 ≤ j → j < s.l → Read.stab j ∈ log)
      (fun s log log' hI hle _ hadds => by
        obtain ⟨hr, h0, hall⟩ := hI
        have hb := half_bounds hle
        refine ⟨hr, by dsimp only; omega, fun j hj1 hj2 => ?_⟩
        dsimp only at hj2
        rcases lt_or_ge j s.l with hj | hj
        · exact (hadds _).2 (Or.inl (hall j hj1 hj))
        · exact hadds.mem hj (by omega))
      (fun s m log log' _ hm _ _ => absurd hm.is (hno m))
      (2 ^ 32) ⟨0, r, 0, r, addr, false⟩ log hneed (by dsimp only; omega) h3
      ⟨rfl, le_refl _, fun j hj1 hj2 => by dsimp only at hj2; omega⟩
    exact Hits.after hrun ((searchEnd_extends stabs type t).hits (hall i h1 (by omega)))
  · refine stabBinsearch_first (by omega) ?_
    obtain ⟨log', hrun, hadds⟩ := searchStep_none (s := ⟨0, r, 0, r, addr, false⟩)
      (show (0 : ℤ) ≤ r by omega) (by dsimp only; omega) (by dsimp only; omega)
      (fun j _ _ => hno j) log
    exact (wp_of_ok hrun).2 (hadds.mem h1 h4)

/-- A search in which everything lies above the address, with an entry of the
type at the left end. -/
theorem stabBinsearch_above {m r : ℤ} (hm : Is stabs type m) (hmr : m ≤ r)
    (habove : ∀ i, m ≤ i → i ≤ r → Is stabs type i → addr < (stabs i).nValue)
    (hmin : -2 ^ 29 ≤ m) (hmax : r < 2 ^ 29) (log : List Read) :
    ∃ log', stabBinsearch stabs m r type addr log = .ok (m - 1, m - 1) log' := by
  have hneed : need stabs ⟨m, r, m, r, addr, false⟩ < 2 ^ 32 := by
    have := need_le stabs ⟨m, r, m, r, addr, false⟩
    dsimp only at this
    omega
  exact searchFrom_above hm hmr habove (by omega) (by omega) (2 ^ 32) hneed log

end Search

/-- A table of entries of no type. -/
def blank : ℤ → Stab := fun _ => ⟨0, 0, 0, 0, 0⟩

/-- A table whose first entry, and the two in front of it, make the searches
for the file, the function and the line each end one entry further left. -/
def stepsBack : ℤ → Stab := fun i =>
  if i = 0 then ⟨0, 0x64, 0, 0, 0xffffffff⟩
  else if i = -1 then ⟨0, 0x24, 0, 0, 0xffffffff⟩
  else if i = -2 then ⟨0xffffffff, 0x44, 0, 0, 0x80000001⟩
  else ⟨0, 0, 0, 0, 0⟩

section Lookup

variable {d : UserStabData} {log : List Read}

variable {info : Eipdebuginfo}

theorem findFile_hits {stabs : ℤ → Stab} (hlt : d.stabstr < d.stabstrEnd)
    (h : Hits (do
      let (lfile, rfile) ← stabBinsearch stabs 0 (d.count.toInt - 1) N_SO addr
      if lfile = 0 then pure (-1, info)
      else findFun d stabs (fun _ => 0) lfile rfile addr info)
        (.str (d.stabstrEnd - 1) :: log) y) :
    Hits (findFile d stabs (fun _ => 0) addr info) log y := by
  rw [findFile, if_neg (BitVec.not_le.2 hlt), d.rfile_eq]
  refine Hits.after (f := fun b => if b ≠ 0 then pure (-1, info) else _) rfl ?_
  rw [if_neg (not_not.2 rfl)]
  exact h

/-- The entries of the table are read, those of the left half at least. -/
theorem findFile_blank (hlt : d.stabstr < d.stabstrEnd) (h1 : 0 ≤ i) (h2 : i < d.count.toInt)
    (h3 : d.count.toInt ≤ 2 ^ 30 ∨ i ≤ half 0 (d.count.toInt - 1)) :
    Hits (findFile d blank (fun _ => 0) addr info) log (.stab i) := by
  have hno : ∀ j, ¬ Is blank N_SO j := fun j h => absurd (show (0 : ℤ) = 0x64 from h) (by decide)
  have hhi := BitVec.toInt_lt (x := d.count)
  refine findFile_hits hlt ((blank_hits hno h1 (by omega) ?_).bind fun p => ?_)
  · rcases h3 with h3 | h3
    · exact Or.inl (by omega)
    · exact Or.inr ⟨by omega, h3⟩
  · exact Extends.pure.ite (findFun_extends _ _ _ _ _ _ _)

theorem stepsBack_file (h1 : 0 < n) (h2 : n < 2 ^ 29) (log : List Read) :
    ∃ log', stabBinsearch stepsBack 0 (n - 1) N_SO 0 log = .ok (-1, -1) log' :=
  stabBinsearch_above rfl (by omega) (fun i hi1 hi2 hi => by
    have hzero : i = 0 := by
      by_contra hne
      unfold Is stepsBack at hi
      rw [if_neg hne, if_neg (by omega), if_neg (by omega)] at hi
      exact absurd hi (by decide)
    subst hzero
    decide) (by decide) (by omega) log

theorem stepsBack_fun (log : List Read) :
    ∃ log', stabBinsearch stepsBack (-1) (-1) N_FUN 0 log = .ok (-2, -2) log' :=
  stabBinsearch_above rfl (le_refl _) (fun i hi1 hi2 _ => by
    obtain rfl : i = -1 := by omega
    decide) (by decide) (by decide) log

theorem stepsBack_line (log : List Read) :
    ∃ log', stabBinsearch stepsBack (-2) (-2) N_SLINE (0 - 0x80000001) log
      = .ok (-3, -3) log' :=
  stabBinsearch_above rfl (le_refl _) (fun i hi1 hi2 _ => by
    obtain rfl : i = -2 := by omega
    decide) (by decide) (by decide) log

/-- The three entries in front of the table are read. -/
theorem findFile_stepsBack (hname : info.eipFnName = none) (hlt : d.stabstr < d.stabstrEnd)
    (h1 : 0 < d.count.toInt) (h2 : d.count.toInt < 2 ^ 29) (hi1 : -3 ≤ i) (hi2 : i < 0) :
    Hits (findFile d stepsBack (fun _ => 0) 0 info) log (.stab i) := by
  obtain ⟨log1, hfile⟩ := stepsBack_file h1 h2 (.str (d.stabstrEnd - 1) :: log)
  obtain ⟨log2, hfun⟩ := stepsBack_fun log1
  obtain ⟨log3, hline⟩ := stepsBack_line (.stab (-2) :: log2)
  refine findFile_hits hlt (Hits.after hfile ?_)
  show Hits (findFun d stepsBack (fun _ => 0) (-1) (-1) 0 info) log1 (.stab i)
  have hcases : i = -1 ∨ i = -2 ∨ i = -3 := by omega
  rcases hcases with rfl | rfl | rfl
  · refine (single_hits (by decide) (by decide)).bind fun p => ?_
    exact ((readStab_extends _ _).bind fun _ => (fnNamelen_extends _ _).bind fun _ =>
      findLine_extends _ _ _ _ _ _ _ _ _).ite
        ((fnNamelen_extends _ _).bind fun _ => findLine_extends _ _ _ _ _ _ _ _ _)
  · refine Hits.after hfun ?_
    show Hits (readStab stepsBack (-2) >>= _) log2 (.stab (-2))
    refine Hits.after rfl ?_
    exact ((fnNamelen_extends _ _).bind fun _ =>
      findLine_extends _ _ _ _ _ _ _ _ _).hits (List.mem_cons_self ..)
  · refine Hits.after hfun ?_
    show Hits (readStab stepsBack (-2) >>= _) log2 (.stab (-3))
    refine Hits.after rfl ?_
    have hstring : d.string (stepsBack (-2)) info.eipFnName = none := by
      rw [hname, UserStabData.string, if_neg]
      show ¬ 0xffffffff#32 < d.strLen
      bv_omega
    dsimp only
    rw [hstring]
    refine Hits.after rfl ?_
    refine Hits.after hline ?_
    show Hits (readStab stepsBack (-3) >>= _) log3 (.stab (-3))
    refine Hits.after rfl ?_
    exact (lineInfo_rest_extends _ _ _ _ _ _ _ _).hits (List.mem_cons_self ..)

end Lookup

/-! ## Which tables are safe -/

section Safe

variable {pm : PhysMem} {r : ℕ} {d : UserStabData}

variable {a : Word}

/-- What has been validated lies below `ULIM`. -/
theorem Validated.lt_ULIM (h : Validated pm r va len a) : a.toNat < ULIM.toNat := by
  obtain ⟨hpass, h1, h2⟩ := h
  have htest : pageTest pm r PTE_U (a.toNat / 4096) = true := by
    by_contra hne
    exact hpass ⟨_, h1, h2, by simpa using hne⟩
  simp only [pageTest, Bool.and_eq_true, decide_eq_true_eq] at htest
  rw [lt_ULIM_iff_page, ← pageAddr_lt_ULIM (by omega)]
  exact htest.1.1.1

theorem Safe.lt_ULIM (h : Safe pm r d a) : a.toNat < ULIM.toNat := by
  rcases h with h | h | h <;> exact h.lt_ULIM

/-- The descriptor lies on one page. -/
theorem usd_safe (h : ¬ Refuses pm r PTE_U USTABDATA 16) : SafeRead pm r d .usd := by
  rintro a ⟨j, hj, rfl⟩
  have hnat : (USTABDATA + BitVec.ofNat 32 j).toNat = 0x200000 + j := by
    rw [BitVec.toNat_add, BitVec.toNat_ofNat, show USTABDATA.toNat = 0x200000 by decide]
    omega
  have hstop : stopPage USTABDATA 16 = 0x201 := by decide
  refine Or.inl ⟨h, ?_, ?_⟩
  · rw [hnat, show USTABDATA.toNat = 0x200000 by decide]
    omega
  · rw [hnat, hstop]
    omega

/-- If the last byte of the strings has been validated, all have. -/
theorem str_safe (h : ¬ Refuses pm r PTE_U d.stabstr d.strLen)
    (hlast : Safe pm r d (d.stabstrEnd - 1)) (h1 : d.stabstr ≤ a) (h2 : a < d.stabstrEnd) :
    SafeRead pm r d (.str a) := by
  rintro b rfl
  have hlim := hlast.lt_ULIM
  rw [ULIM_toNat] at hlim
  have hend : d.stabstr + d.strLen = d.stabstrEnd := by
    unfold UserStabData.strLen
    bv_omega
  refine Or.inr (Or.inr ⟨h, ?_, ?_⟩)
  · exact Nat.div_le_div_right (BitVec.le_def.1 h1)
  · rw [stopPage, hend]
    bv_omega

/-- The address of a byte of entry `i`. -/
theorem stab_byte (d : UserStabData) {j : ℕ} (h0 : 0 ≤ i)
    (hfit : (d.stabs.toNat : ℤ) + 12 * i + j < 2 ^ 32) :
    ((d.stabs + BitVec.ofInt 32 (12 * i + j)).toNat : ℤ) = d.stabs.toNat + 12 * i + j := by
  rw [BitVec.toNat_add, BitVec.toNat_ofInt]
  omega

/-- An entry that lies above `ULIM`, if the table starts below. -/
theorem exists_unsafe (d : UserStabData) (h : d.stabs.toNat < ULIM.toNat) :
    ∃ i : ℤ, 0 ≤ i ∧ i < 2 ^ 29 - 1 ∧ ∀ pm r, ¬ SafeRead pm r d (.stab i) := by
  have hU := ULIM_toNat
  refine ⟨(ULIM.toNat - d.stabs.toNat + 11) / 12, by omega, by omega, fun pm r hsafe => ?_⟩
  have hbyte := (hsafe _ ⟨0, by decide, rfl⟩).lt_ULIM
  have haddr := stab_byte d (i := (ULIM.toNat - d.stabs.toNat + 11) / 12) (j := 0)
    (by omega) (by omega)
  push_cast at haddr hbyte
  omega

/-- A table that has been validated is not long. -/
theorem count_small (h : ∀ i, -3 ≤ i → i < n → SafeRead pm r d (.stab i)) : n < 2 ^ 29 := by
  rcases le_or_gt n 0 with hneg | hpos
  · omega
  · have hstart : d.stabs.toNat < ULIM.toNat := by
      have := (h 0 (by decide) hpos _ ⟨0, by decide, rfl⟩).lt_ULIM
      simpa using this
    obtain ⟨i, hi1, hi2, hi3⟩ := exists_unsafe d hstart
    by_contra hbig
    exact hi3 _ _ (h i (by omega) (by omega))

variable (pm r d) in
/-- **The tables the kernel reads safely.**  It finds out in time that it should
not, because one of its checks fails or there are no strings; or the last byte
of the strings has been validated, and so have all the entries, with the three
in front of them, if there are any. -/
def TableChecked : Prop :=
  Refuses pm r PTE_U USTABDATA 16 ∨ Refuses pm r PTE_U d.stabs d.count ∨
    Refuses pm r PTE_U d.stabstr d.strLen ∨ d.stabstrEnd ≤ d.stabstr ∨
    Safe pm r d (d.stabstrEnd - 1) ∧
      (d.count.toInt ≤ 0 ∨ ∀ i, -3 ≤ i → i < d.count.toInt → SafeRead pm r d (.stab i))

/-- What a run reads, from an empty log. -/
def reads {α : Type} (x : M α) : List Read :=
  match x [] with
  | .ok _ log => log
  | .error _ log => log

theorem hits_iff {α : Type} {x : M α} : Hits x [] y ↔ y ∈ reads x := by
  unfold Hits wp reads
  cases x [] <;> rfl

theorem Reads.reads {Ok : Read → Prop} {α : Type} {x : M α} {Q : α → Prop} (h : Reads Ok x Q) :
    ∀ y ∈ reads x, Ok y := by
  have hx := h [] (fun y hy => by cases hy)
  unfold wp at hx
  unfold Kdebug.reads
  cases hrun : x [] with
  | ok a log => rw [hrun] at hx; exact hx.1
  | error e log => rw [hrun] at hx; exact hx

end Safe

section Main

variable {pm : PhysMem}

theorem memCheck_passes (pd : Pgdir pm) (h : ¬ Refuses pm pd.page PTE_U va len) :
    memCheck pm pd.page va len = true := by
  unfold memCheck
  rw [userMemCheck_passes pd h]

theorem memCheck_refuses (pd : Pgdir pm) (h : Refuses pm pd.page PTE_U va len) :
    memCheck pm pd.page va len = false := by
  obtain ⟨a, ha⟩ := userMemCheck_refuses pd h
  unfold memCheck
  rw [ha]

/-- What `info` is at first. -/
def startInfo (addr : Word) : Eipdebuginfo :=
  { eipFile := none, eipLine := 0, eipFnName := none, eipFnNamelen := 9, eipFnAddr := addr,
    eipFnNarg := 0 }

/-- If the checks pass, the table is looked up. -/
theorem debuginfoEip_passes (pd : Pgdir pm) (kern : UserStabData) {d : UserStabData}
    {stabs : ℤ → Stab} {str : Word → BitVec 8} (hlim : addr < ULIM)
    (h1 : ¬ Refuses pm pd.page PTE_U USTABDATA 16) (h2 : ¬ Refuses pm pd.page PTE_U d.stabs d.count)
    (h3 : ¬ Refuses pm pd.page PTE_U d.stabstr d.strLen) :
    debuginfoEip pm pd.page kern d stabs str addr = (do
      modify (Read.usd :: ·)
      findFile d stabs str addr (startInfo addr)) := by
  rw [debuginfoEip, if_neg (BitVec.not_le.2 hlim), memCheck_passes pd h1, memCheck_passes pd h2,
    memCheck_passes pd h3]
  rfl

end Main

/-- A user address space with two pages: the one of the descriptor and the one
at `0x300000`. -/
def twoPages : PhysMem where
  boot := ⟨8, 8, 0, 0⟩
  pages := fun _ => ⟨none, 0#16⟩
  pageFreeList := none
  mem := fun p d =>
    if p = 1 ∧ d.val = 0 then page2pa 2 ||| PTE_P ||| PTE_W ||| PTE_U
    else if p = 2 ∧ d.val = 0x200 then page2pa 3 ||| PTE_P ||| PTE_U
    else if p = 2 ∧ d.val = 0x300 then page2pa 4 ||| PTE_P ||| PTE_U
    else 0#32
  userMemCheckAddr := 0#32

theorem twoPages_inMem (d : Idx) (hp : present (twoPages.mem 1 d) = true) :
    pgnum (twoPages.mem 1 d) < 8 := by
  simp only [twoPages, true_and] at hp ⊢
  by_cases hzero : d.val = 0
  · rw [if_pos hzero]
    decide
  · rw [if_neg hzero, if_neg (by omega), if_neg (by omega)] at hp
    exact absurd hp (by decide)

def twoPagesDir : Pgdir twoPages := ⟨1, twoPages_inMem⟩

/-- A table of 342 entries, 4104 bytes, at the start of the second page; the
strings are next to the descriptor. -/
def longTable : UserStabData := ⟨0x300000, 0x301008, 0x200100, 0x200101⟩

theorem longTable_count : longTable.count = 342 := by decide

/-- A check that looks at one page. -/
theorem twoPages_passes {n : ℕ} (h1 : va.toNat / 4096 = n) (h2 : stopPage va len = n + 1)
    (htest : pageTest twoPages 1 PTE_U n = true) : ¬ Refuses twoPages 1 PTE_U va len := by
  rintro ⟨m, hm1, hm2, hfail⟩
  obtain rfl : m = n := by omega
  rw [htest] at hfail
  cases hfail

-- otherwise the elaborator runs the search on the concrete table
attribute [local irreducible] Hits

end Jos.Kdebug
