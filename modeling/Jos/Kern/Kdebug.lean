import Jos.Kern.Stab
import Jos.Kern.UserAssert

/-!
# Looking up a user's instruction address

For an address below `ULIM`, `debuginfo_eip` reads a symbol table that the user
program supplies: a descriptor at `USTABDATA` says where the table and its
strings lie.  The kernel checks the descriptor, the table and the strings with
`user_mem_check` before it follows any of it.  Is everything it then reads in
memory it has checked?

* `debuginfoEip` — the code, with every read in a log.
* `Validated` — a byte on a page that one of the three checks has looked at and
  passed.
* `Reads`, `stabBinsearch_run` — what is read, for any contents of the table.

`Jos.Kern.KdebugSpec` has contents that make the code read every entry of the table
and the three in front of it, and says for which descriptors the answer is yes
(`reads_validated_iff`).

The check of the table passes the number of entries where `user_mem_check`
wants a number of bytes, so it looks at a twelfth of the table; pages are
checked whole, and that is all that saves the rest of a small table.  And the
search can come to an index below zero, which the code does not expect
(`stab_binsearch` reports `left = right = -1` when the first entry of the table
lies above the address).
-/

namespace Jos.Kdebug

/-! ## The code -/

/-- `struct UserStabData`. -/
structure UserStabData where
  stabs : Word
  stabEnd : Word
  stabstr : Word
  stabstrEnd : Word
  deriving DecidableEq

/-- `stab_end - stabs`, a difference of pointers to objects of twelve bytes:
the difference of the addresses divided by four, times the inverse of three. -/
def UserStabData.count (d : UserStabData) : Word :=
  (d.stabEnd - d.stabs).sshiftRight 2 * 0xaaaaaaab#32

/-- The number of entries is not the least `int`: four times it is a
difference of addresses. -/
theorem UserStabData.count_ne_min (d : UserStabData) : d.count.toInt ≠ -2 ^ 31 := by
  intro h
  have hc : d.count = 0x80000000#32 := by
    apply BitVec.eq_of_toInt_eq
    rw [h]
    decide
  have hthree : (d.stabEnd - d.stabs).sshiftRight 2 = d.count * 3 := by
    rw [UserStabData.count, BitVec.mul_assoc, show 0xaaaaaaab#32 * 3 = 1#32 by decide,
      BitVec.mul_one]
  have hint := congrArg BitVec.toInt hthree
  rw [hc, BitVec.toInt_sshiftRight, Int.shiftRight_eq_div_pow,
    show (0x80000000#32 * 3 : Word).toInt = -2 ^ 31 by decide] at hint
  have hlo := BitVec.le_toInt (d.stabEnd - d.stabs)
  omega

/-- So the last index is one less. -/
theorem UserStabData.rfile_eq (d : UserStabData) :
    Int.bmod (d.count.toInt - 1) (2 ^ 32) = d.count.toInt - 1 := by
  have hlo := BitVec.le_toInt d.count
  have hhi := BitVec.toInt_lt (x := d.count)
  have hne := d.count_ne_min
  exact Int.bmod_eq_of_le (by omega) (by omega)

/-- `stabstr_end - stabstr`. -/
def UserStabData.strLen (d : UserStabData) : Word := d.stabstrEnd - d.stabstr

/-- `struct Eipdebuginfo`; a string is an address, or the constant `<unknown>`. -/
structure Eipdebuginfo where
  eipFile : Option Word
  eipLine : ℤ
  eipFnName : Option Word
  eipFnNamelen : ℤ
  eipFnAddr : Word
  eipFnNarg : ℤ
  deriving DecidableEq

def USTABDATA : Word := 0x00200000#32

def N_FUN : ℤ := 0x24
def N_SLINE : ℤ := 0x44
def N_SO : ℤ := 0x64
def N_SOL : ℤ := 0x84
def N_PSYM : ℤ := 0xa0

/-- A byte of the string table. -/
def readByte (str : Word → BitVec 8) (a : Word) : M (BitVec 8) := do
  modify (Read.str a :: ·)
  pure (str a)

/-- `strfind`. -/
def strfind (str : Word → BitVec 8) (c : BitVec 8) : ℕ → Word → M Word
  | 0, _ => throw .spins
  | k + 1, s => do
      let b ← readByte str s
      if b = 0 then pure s
      else if b = c then pure s
      else strfind str c k (s + 1)

/-- The length of a function's name, up to the colon. -/
def fnNamelen (str : Word → BitVec 8) : Option Word → M ℤ
  | none => pure 9
  | some p => do
      let q ← strfind str 0x3a (2 ^ 32) p
      pure (q - p).toInt

/-- The loop that goes back to the entry with the file name; the count is that
of the entries from `lfile` to `lline`. -/
def fileScan (stabs : ℤ → Stab) : ℕ → ℤ → M ℤ
  | 0, lline => pure lline
  | k + 1, lline => do
      let e ← readStab stabs lline
      if (e.nType.toNat : ℤ) ≠ N_SOL ∧ ((e.nType.toNat : ℤ) ≠ N_SO ∨ e.nValue = 0) then
        fileScan stabs k (lline - 1)
      else pure lline

/-- The loop that counts the arguments; the count is that of the entries before
`rfun`. -/
def countArgs (stabs : ℤ → Stab) : ℕ → ℤ → ℤ → M ℤ
  | 0, _, narg => pure narg
  | k + 1, lline, narg => do
      let e ← readStab stabs lline
      if (e.nType.toNat : ℤ) = N_PSYM then countArgs stabs k (lline + 1) (narg + 1)
      else pure narg

/-- A string of the table, if its offset is inside. -/
def UserStabData.string (d : UserStabData) (e : Stab) (old : Option Word) : Option Word :=
  if e.nStrx < d.strLen then some (d.stabstr + e.nStrx) else old

section Lookup

variable (d : UserStabData) (stabs : ℤ → Stab) (str : Word → BitVec 8)

/-- The file name, from the entry the scan came to. -/
def fileName (lfile lline : ℤ) (old : Option Word) : M (Option Word) :=
  if lfile ≤ lline then do
    let e ← readStab stabs lline
    pure (d.string e old)
  else pure old

/-- The number of arguments. -/
def fnNarg (lfun rfun old : ℤ) : M ℤ :=
  if lfun < rfun then countArgs stabs (rfun - lfun - 1).toNat (lfun + 1) old else pure old

/-- What follows the search for the line: its number, the file and the
arguments. -/
def lineInfo (lfile lfun rfun lline : ℤ) (info : Eipdebuginfo) : M (ℤ × Eipdebuginfo) := do
  let e ← readStab stabs lline
  let scanned ← fileScan stabs (lline - lfile + 1).toNat lline
  let file ← fileName d stabs lfile scanned info.eipFile
  let narg ← fnNarg stabs lfun rfun info.eipFnNarg
  pure (0, { info with eipLine := e.nDesc.toNat, eipFile := file, eipFnNarg := narg })

/-- The search for the line. -/
def findLine (lfile lfun rfun lline rline : ℤ) (addr : Word) (info : Eipdebuginfo) :
    M (ℤ × Eipdebuginfo) := do
  let (lline, rline) ← stabBinsearch stabs lline rline N_SLINE addr
  if lline ≤ rline then lineInfo d stabs lfile lfun rfun lline info
  else pure (-1, info)

/-- The search for the function. -/
def findFun (lfile rfile : ℤ) (addr : Word) (info : Eipdebuginfo) : M (ℤ × Eipdebuginfo) := do
  let (lfun, rfun) ← stabBinsearch stabs lfile rfile N_FUN addr
  if lfun ≤ rfun then do
    let e ← readStab stabs lfun
    let name := d.string e info.eipFnName
    let len ← fnNamelen str name
    findLine d stabs lfile lfun rfun lfun rfun (addr - e.nValue)
      { info with eipFnName := name, eipFnAddr := e.nValue, eipFnNamelen := len }
  else do
    let len ← fnNamelen str info.eipFnName
    findLine d stabs lfile lfun rfun lfile rfile addr
      { info with eipFnAddr := addr, eipFnNamelen := len }

/-- The string table validity check and the search for the file. -/
def findFile (addr : Word) (info : Eipdebuginfo) : M (ℤ × Eipdebuginfo) :=
  if d.stabstrEnd ≤ d.stabstr then pure (-1, info)
  else do
    let b ← readByte str (d.stabstrEnd - 1)
    if b ≠ 0 then pure (-1, info)
    else do
      let (lfile, rfile) ← stabBinsearch stabs 0 (Int.bmod (d.count.toInt - 1) (2 ^ 32)) N_SO addr
      if lfile = 0 then pure (-1, info)
      else findFun d stabs str lfile rfile addr info

end Lookup

/-- `user_mem_check(curenv, va, len, PTE_U) >= 0`. -/
def memCheck (pm : PhysMem) (pgdir : ℕ) (va len : Word) : Bool :=
  match userMemCheck pgdir va len PTE_U pm with
  | .ok (.ok _) _ => true
  | _ => false

/-- `debuginfo_eip`.  `kern` is where the kernel's own table lies; `usd` is what
is read at `USTABDATA`; `stabs` and `str` are the contents of the table and the
strings that are used. -/
def debuginfoEip (pm : PhysMem) (pgdir : ℕ) (kern usd : UserStabData) (stabs : ℤ → Stab)
    (str : Word → BitVec 8) (addr : Word) : M (ℤ × Eipdebuginfo) :=
  let info : Eipdebuginfo :=
    { eipFile := none, eipLine := 0, eipFnName := none, eipFnNamelen := 9, eipFnAddr := addr,
      eipFnNarg := 0 }
  if addr ≥ ULIM then findFile kern stabs str addr info
  else if !memCheck pm pgdir USTABDATA 16 then pure (-1, info)
  else do
    modify (Read.usd :: ·)
    if !memCheck pm pgdir usd.stabs usd.count || !memCheck pm pgdir usd.stabstr usd.strLen then
      pure (-1, info)
    else findFile usd stabs str addr info

/-! ## Validated memory -/

section Validated

variable (pm : PhysMem) (r : ℕ)

/-- `user_mem_check` has looked at the page of `a`, and has passed the range. -/
def Validated (va len a : Word) : Prop :=
  ¬ Refuses pm r PTE_U va len ∧ va.toNat / 4096 ≤ a.toNat / 4096 ∧
    a.toNat / 4096 < stopPage va len

/-- One of the three checks has. -/
def Safe (d : UserStabData) (a : Word) : Prop :=
  Validated pm r USTABDATA 16 a ∨ Validated pm r d.stabs d.count a ∨
    Validated pm r d.stabstr d.strLen a

/-- The bytes of a read. -/
def Read.Byte (d : UserStabData) : Read → Word → Prop
  | .usd, a => ∃ j < 16, a = USTABDATA + BitVec.ofNat 32 j
  | .stab i, a => ∃ j : ℕ, j < 12 ∧ a = d.stabs + BitVec.ofInt 32 (12 * i + j)
  | .str p, a => a = p

/-- Every byte of a read has been validated. -/
def SafeRead (d : UserStabData) (x : Read) : Prop := ∀ a, x.Byte d a → Safe pm r d a

end Validated

/-! ## What is read -/

/-- If all reads so far are allowed, they are so after `x` as well, and if `x`
returns, `Q` holds of the result. -/
def Reads (Ok : Read → Prop) {α : Type} (x : M α) (Q : α → Prop) : Prop :=
  ∀ log, (∀ y ∈ log, Ok y) →
    wp x (fun a log' => (∀ y ∈ log', Ok y) ∧ Q a) (fun _ log' => ∀ y ∈ log', Ok y) log

section Rules

variable {Ok : Read → Prop} {α β : Type} {x : M α} {Q R : α → Prop}

theorem Reads.pure {a : α} (h : Q a) : Reads Ok (pure a) Q := fun _ hlog => ⟨hlog, h⟩

theorem Reads.spins : Reads Ok (throw .spins : M α) Q := fun _ hlog => hlog

theorem Reads.bind {f : α → M β} {S : β → Prop} (hx : Reads Ok x Q)
    (hf : ∀ a, Q a → Reads Ok (f a) S) : Reads Ok (x >>= f) S := by
  intro log hlog
  rw [wp_bind]
  exact (hx log hlog).mono (fun a log' h => hf a h.2 log' h.1) (fun _ _ h => h)

theorem Reads.mono (hx : Reads Ok x Q) (h : ∀ a, Q a → R a) : Reads Ok x R :=
  fun log hlog => (hx log hlog).mono (fun a _ ha => ⟨ha.1, h a ha.2⟩) (fun _ _ he => he)

theorem Reads.ite {c : Prop} [Decidable c] {y : M α} (hx : c → Reads Ok x Q)
    (hy : ¬ c → Reads Ok y Q) : Reads Ok (if c then x else y) Q := by
  split
  · exact hx ‹_›
  · exact hy ‹_›

/-- An exact run gives what is read. -/
theorem Reads.of_run (h : ∀ log, (∀ y ∈ log, Ok y) →
    ∃ a log', x log = .ok a log' ∧ (∀ y ∈ log', Ok y) ∧ Q a) : Reads Ok x Q := by
  intro log hlog
  obtain ⟨a, log', hrun, h1, h2⟩ := h log hlog
  exact (wp_of_ok hrun).2 ⟨h1, h2⟩

end Rules

theorem Adds.allowed {Ok : Read → Prop} {log log' : List Read} {i j : ℤ} (h : Adds log log' i j)
    (hlog : ∀ y ∈ log, Ok y) (hOk : ∀ n, i ≤ n → n ≤ j → Ok (.stab n)) : ∀ y ∈ log', Ok y := by
  intro y hy
  rcases (h y).1 hy with hy | ⟨n, h1, h2, rfl⟩
  · exact hlog y hy
  · exact hOk n h1 h2

section Table

variable {Ok : Read → Prop} {stabs : ℤ → Stab}

theorem readStab_reads {i : ℤ} (h : Ok (.stab i)) : Reads Ok (readStab stabs i) (· = stabs i) :=
  fun _ hlog => ⟨List.forall_mem_cons.2 ⟨h, hlog⟩, rfl⟩

/-- The loop stays in the range; its left end does not get below where it was
and its right end at most one below that. -/
structure InRange (Ok : Read → Prop) (left right : ℤ) (s : Search) (log : List Read) : Prop where
  l : left ≤ s.l
  r : s.r ≤ right
  same : s.regionRight = s.r
  regionLeft : left ≤ s.regionLeft
  unmatched : s.anyMatches = false → s.regionLeft = left
  matched : s.anyMatches = true → left ≤ right ∧ left - 1 ≤ s.r
  reads : ∀ y ∈ log, Ok y

section InRange

variable {left right : ℤ} (hOk : ∀ i, left ≤ i → i ≤ right → Ok (.stab i)) {s : Search}
  {log log' : List Read} (h : InRange Ok left right s log)

include hOk h

theorem InRange.none (hle : s.l ≤ s.r) (hadds : Adds log log' s.l (half s.l s.r)) :
    InRange Ok left right { s with l := half s.l s.r + 1 } log' := by
  have hb := half_bounds hle
  have h1 := h.l
  have h2 := h.r
  exact ⟨by dsimp only; omega, h2, h.same, h.regionLeft, h.unmatched, h.matched,
    hadds.allowed h.reads fun n hn1 hn2 => hOk n (by omega) (by omega)⟩

theorem InRange.probe {type m : ℤ} (hm : Probe stabs type s.l s.r m)
    (htrue : s.trueM = half s.l s.r) (hadds : Adds log log' m (half s.l s.r)) :
    InRange Ok left right (s.compare m (stabs m).nValue) log' := by
  have hb := half_bounds hm.le
  have h1 := h.l
  have h2 := h.r
  have h3 := hm.lower
  have h4 := hm.upper
  have hreads := hadds.allowed h.reads fun n hn1 hn2 => hOk n (by omega) (by omega)
  rcases word_cases (stabs m).nValue s.addr with hv | hv | hv
  · rw [Search.compare_low hv, htrue]
    refine ⟨?_, h2, h.same, ?_, fun hf => Bool.noConfusion hf, fun _ => ?_, hreads⟩ <;>
      dsimp only <;> omega
  · rw [Search.compare_exact hv]
    refine ⟨?_, h2, h.same, ?_, fun hf => Bool.noConfusion hf, fun _ => ?_, hreads⟩ <;>
      dsimp only <;> omega
  · rw [Search.compare_high hv]
    refine ⟨h1, ?_, rfl, h.regionLeft, fun hf => Bool.noConfusion hf, fun _ => ?_, hreads⟩ <;>
      dsimp only <;> omega

end InRange

/-- **A search ends**, whatever is in the table; what it reads and where it ends. -/
theorem stabBinsearch_run {left right : ℤ} (type : ℤ) (addr : Word) (hmin : -2 ^ 29 ≤ left)
    (hmax : right < 2 ^ 30) (hOk : ∀ i, left ≤ i → i ≤ right → Ok (.stab i)) {log : List Read}
    (hlog : ∀ y ∈ log, Ok y) :
    ∃ p log', stabBinsearch stabs left right type addr log = .ok p log' ∧ (∀ y ∈ log', Ok y) ∧
      (left ≤ right ∧ p.1 ≤ p.2 ∧ left - 1 ≤ p.1 ∧ p.2 ≤ right ∨ p = (left, left - 1)) := by
  have hneed : need stabs ⟨left, right, left, right, addr, false⟩ < 2 ^ 32 := by
    have := need_le stabs ⟨left, right, left, right, addr, false⟩
    dsimp only at this
    omega
  obtain ⟨t, log1, hrun, hinv, -⟩ := searchLoop_rule stabs type (InRange Ok left right)
    (fun s log log' hI hle _ hadds => hI.none hOk hle hadds)
    (fun s m log log' hI hm htrue hadds => hI.probe hOk hm htrue hadds)
    (2 ^ 32) _ log hneed (by dsimp only; omega) (by dsimp only; omega)
    ⟨le_refl _, le_refl _, rfl, le_refl _, fun _ => rfl, fun h => Bool.noConfusion h, hlog⟩
  have hsame := hinv.same
  have hr := hinv.r
  have hleft := hinv.regionLeft
  cases hany : t.anyMatches with
  | false =>
    refine ⟨(left, left - 1), log1, ?_, hinv.reads, Or.inr rfl⟩
    show (searchLoop stabs type _ _ >>= _ : M _) log = _
    rw [run_bind_ok hrun, searchEnd_none hany, hinv.unmatched hany]
  | true =>
    have hge := hinv.matched hany
    obtain ⟨l', log2, hrun2, hle, hmin', -, hadds⟩ := searchEnd_any stabs type hany log1
    refine ⟨(l', t.regionRight), log2, ?_, ?_, Or.inl ⟨hge.1, hle, ?_, ?_⟩⟩
    · show (searchLoop stabs type _ _ >>= _ : M _) log = _
      rw [run_bind_ok hrun, hrun2]
    · exact hadds.allowed hinv.reads fun n hn1 hn2 => hOk n (by omega) (by omega)
    · dsimp only
      omega
    · dsimp only
      omega

theorem stabBinsearch_reads {left right : ℤ} (type : ℤ) (addr : Word) (hmin : -2 ^ 29 ≤ left)
    (hmax : right < 2 ^ 29) (hOk : ∀ i, left ≤ i → i ≤ right → Ok (.stab i)) :
    Reads Ok (stabBinsearch stabs left right type addr) fun p =>
      left ≤ right ∧ p.1 ≤ p.2 ∧ left - 1 ≤ p.1 ∧ p.2 ≤ right ∨ p = (left, left - 1) :=
  Reads.of_run fun _ hlog => stabBinsearch_run type addr hmin (by omega) hOk hlog

/-! ## The whole lookup -/

theorem fileScan_reads : ∀ (k : ℕ) {lline : ℤ},
    (∀ i, lline - k < i → i ≤ lline → Ok (.stab i)) →
      Reads Ok (fileScan stabs k lline) fun res => res ≤ lline := by
  intro k
  induction k with
  | zero => intro lline _; exact Reads.pure (le_refl _)
  | succ k ih =>
    intro lline hOk
    push_cast at hOk
    refine (readStab_reads (hOk lline (by omega) (le_refl _))).bind fun e _ => ?_
    refine Reads.ite (fun _ => ?_) fun _ => Reads.pure (le_refl _)
    exact (ih fun i h1 h2 => hOk i (by omega) (by omega)).mono fun res h => by omega

theorem countArgs_reads : ∀ (k : ℕ) {lline narg : ℤ},
    (∀ i, lline ≤ i → i < lline + k → Ok (.stab i)) →
      Reads Ok (countArgs stabs k lline narg) fun _ => True := by
  intro k
  induction k with
  | zero => intro lline narg _; exact Reads.pure trivial
  | succ k ih =>
    intro lline narg hOk
    push_cast at hOk
    refine (readStab_reads (hOk lline (le_refl _) (by omega))).bind fun e _ => ?_
    exact Reads.ite (fun _ => ih fun i h1 h2 => hOk i (by omega) (by omega))
      fun _ => Reads.pure trivial

section Bounds

variable {d : UserStabData} {str : Word → BitVec 8} {n : ℤ} (hn : n < 2 ^ 29)
  (hOk : ∀ i, -3 ≤ i → i < n → Ok (.stab i))

variable {lfile : ℤ} {info : Eipdebuginfo} {addr : Word}

include hOk in
theorem lineInfo_reads {lfun rfun lline : ℤ} (h1 : -3 ≤ lline) (h2 : lline < n) (h3 : -1 ≤ lfile)
    (h4 : -2 ≤ lfun) (h5 : rfun < n) :
    Reads Ok (lineInfo d stabs lfile lfun rfun lline info) fun _ => True := by
  refine (readStab_reads (hOk lline h1 h2)).bind fun e _ => ?_
  refine (fileScan_reads _ fun i hi1 hi2 => hOk i (by omega) (by omega)).bind fun l hl => ?_
  refine Reads.bind (Q := fun _ => True) ?_ fun file _ => ?_
  · refine Reads.ite (fun hle => ?_) fun _ => Reads.pure trivial
    exact (readStab_reads (hOk l (by omega) (by omega))).bind fun _ _ => Reads.pure trivial
  · refine Reads.bind (Q := fun _ => True) ?_ fun narg _ => Reads.pure trivial
    refine Reads.ite (fun hlt => ?_) fun _ => Reads.pure trivial
    exact countArgs_reads _ fun i hi1 hi2 => hOk i (by omega) (by omega)

include hn hOk in
theorem findLine_reads {lfun rfun lline rline : ℤ} (h1 : -2 ≤ lline) (h2 : rline < n)
    (h3 : -1 ≤ lfile) (h4 : -2 ≤ lfun) (h5 : rfun < n) :
    Reads Ok (findLine d stabs lfile lfun rfun lline rline addr info) fun _ => True := by
  refine (stabBinsearch_reads N_SLINE addr (by omega) (by omega)
    fun i hi1 hi2 => hOk i (by omega) (by omega)).bind ?_
  rintro ⟨l, r⟩ hres
  refine Reads.ite (fun hle => ?_) fun _ => Reads.pure trivial
  rcases hres with ⟨-, -, hl, hr⟩ | heq
  · exact lineInfo_reads hOk (by dsimp only at hl; omega) (by dsimp only at hr; omega) h3 h4 h5
  · obtain ⟨rfl, rfl⟩ := Prod.mk.inj heq
    omega

/-- The strings end in a zero, so a scan that starts inside stays inside. -/
theorem strfind_reads {c : BitVec 8} (hlast : str (d.stabstrEnd - 1) = 0)
    (hstr : ∀ a : Word, d.stabstr ≤ a → a < d.stabstrEnd → Ok (.str a)) :
    ∀ (k : ℕ) {p : Word}, d.stabstr ≤ p → p < d.stabstrEnd →
      Reads Ok (strfind str c k p) fun _ => True := by
  intro k
  induction k with
  | zero => intro p _ _; exact Reads.spins
  | succ k ih =>
    intro p h1 h2
    have hread : Reads Ok (readByte str p) (· = str p) :=
      fun _ hlog => ⟨List.forall_mem_cons.2 ⟨hstr p h1 h2, hlog⟩, rfl⟩
    refine hread.bind fun b hb => ?_
    refine Reads.ite (fun _ => Reads.pure trivial) fun hzero => ?_
    refine Reads.ite (fun _ => Reads.pure trivial) fun _ => ?_
    have hne : p ≠ d.stabstrEnd - 1 := by
      rintro rfl
      exact hzero (hb.trans hlast)
    refine ih ?_ ?_
    · bv_omega
    · bv_omega

theorem UserStabData.string_inside {e : Stab} {p : Word} (hlt : d.stabstr < d.stabstrEnd)
    (h : d.string e none = some p) : d.stabstr ≤ p ∧ p < d.stabstrEnd := by
  unfold UserStabData.string UserStabData.strLen at h
  split_ifs at h with hx
  obtain rfl := Option.some.inj h
  constructor
  · bv_omega
  · bv_omega

include hn hOk in
theorem findFun_reads (hlast : str (d.stabstrEnd - 1) = 0) (hlt : d.stabstr < d.stabstrEnd)
    (hstr : ∀ a : Word, d.stabstr ≤ a → a < d.stabstrEnd → Ok (.str a)) {rfile : ℤ}
    (hname : info.eipFnName = none) (h1 : -1 ≤ lfile) (h2 : rfile < n) (h3 : lfile ≤ rfile) :
    Reads Ok (findFun d stabs str lfile rfile addr info) fun _ => True := by
  refine (stabBinsearch_reads N_FUN addr (by omega) (by omega)
    fun i hi1 hi2 => hOk i (by omega) (by omega)).bind ?_
  rintro ⟨lfun, rfun⟩ hres
  refine Reads.ite (fun hle => ?_) fun hgt => ?_
  · have hb : lfile - 1 ≤ lfun ∧ rfun ≤ rfile := by
      rcases hres with ⟨-, -, hl, hr⟩ | heq
      · exact ⟨hl, hr⟩
      · obtain ⟨rfl, rfl⟩ := Prod.mk.inj heq
        omega
    refine (readStab_reads (hOk lfun (by omega) (by omega))).bind fun e _ => ?_
    refine Reads.bind (Q := fun _ => True) ?_ fun len _ =>
      findLine_reads hn hOk (by omega) (by omega) h1 (by omega) (by omega)
    rw [hname]
    cases hs : d.string e none with
    | none => exact Reads.pure trivial
    | some p =>
      obtain ⟨hp1, hp2⟩ := UserStabData.string_inside hlt hs
      exact (strfind_reads hlast hstr _ hp1 hp2).bind fun _ _ => Reads.pure trivial
  · have heq : lfun = lfile ∧ rfun = lfile - 1 := by
      rcases hres with ⟨-, hle, -⟩ | heq
      · exact absurd hle hgt
      · exact Prod.mk.inj heq
    rw [hname]
    exact Reads.bind (Q := fun _ => True) (Reads.pure trivial) fun len _ =>
      findLine_reads hn hOk (by omega) (by omega) h1 (by omega) (by omega)

/-- **What the lookup reads**, if the table has `n` entries: the strings, the
entries, and up to three entries in front of them. -/
theorem findFile_reads (hn : d.count.toInt < 2 ^ 29)
    (hOk : 0 < d.count.toInt → ∀ i, -3 ≤ i → i < d.count.toInt → Ok (.stab i))
    (hstr : ∀ a : Word, d.stabstr ≤ a → a < d.stabstrEnd → Ok (.str a))
    (hname : info.eipFnName = none) : Reads Ok (findFile d stabs str addr info) fun _ => True := by
  refine Reads.ite (fun _ => Reads.pure trivial) fun hlt => ?_
  rw [BitVec.not_le] at hlt
  have hread : Reads Ok (readByte str (d.stabstrEnd - 1)) (· = str (d.stabstrEnd - 1)) :=
    fun _ hlog => ⟨List.forall_mem_cons.2
      ⟨hstr _ (by bv_omega) (by bv_omega), hlog⟩, rfl⟩
  refine hread.bind fun b hb => ?_
  refine Reads.ite (fun _ => Reads.pure trivial) fun hzero => ?_
  have hlast : str (d.stabstrEnd - 1) = 0 := hb ▸ not_not.1 hzero
  rw [d.rfile_eq]
  rcases le_or_gt d.count.toInt 0 with hneg | hpos
  · -- an empty range: nothing is found
    refine (stabBinsearch_reads N_SO addr (by decide) (by omega) fun i h1 h2 => by omega).bind ?_
    rintro ⟨lfile, rfile⟩ hres
    refine Reads.ite (fun _ => Reads.pure trivial) fun hne => ?_
    rcases hres with ⟨h1, -⟩ | heq
    · omega
    · exact absurd (Prod.mk.inj heq).1 hne
  · refine (stabBinsearch_reads N_SO addr (by decide) (by omega)
      fun i h1 h2 => hOk hpos i (by omega) (by omega)).bind ?_
    rintro ⟨lfile, rfile⟩ hres
    refine Reads.ite (fun _ => Reads.pure trivial) fun hne => ?_
    rcases hres with ⟨-, h1, h2, h3⟩ | heq
    · dsimp only at h1 h2 h3
      exact findFun_reads hn (hOk hpos) hlast hlt hstr hname (by omega) (by omega) h1
    · exact absurd (Prod.mk.inj heq).1 hne

end Bounds

end Table

end Jos.Kdebug
