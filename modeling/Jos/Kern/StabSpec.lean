import Jos.Kern.Stab

/-!
# When the symbol table search keeps its promise

The comment above `stab_binsearch` says what the search comes to on a range in
which the entries of the type are in order of address (`Bracketed`).  This file
says exactly when it does (`Findable`, `stabBinsearch_brackets_iff`).

There are three ways to miss.  If every entry lies above the address, nothing
moves the left end of the range, but the right end is moved to just before the
first entry, and the caller takes the range for a find.  If an entry has the
address itself, the search goes on with the next address, and an entry that has
*that* address is then taken for an exact match as well.  And if the address is
the last there is, the next one is zero.
-/

namespace Jos.Kdebug

section Table

variable {stabs : ℤ → Stab} {type : ℤ}

/-! ## The specification -/

variable (stabs type)

/-- What `stab_binsearch` should come to on a range: either no entry of the
type contains the address, or the left end is the last entry of the type at or
below it, and the right end is just before the next entry of the type. -/
def Bracketed (left right : ℤ) (addr : Word) (res : ℤ × ℤ) : Prop :=
  (res.2 < res.1 ∧ ∀ i, left ≤ i → i ≤ right → Is stabs type i → addr < (stabs i).nValue) ∨
  (left ≤ res.1 ∧ res.1 ≤ right ∧ Is stabs type res.1 ∧ (stabs res.1).nValue ≤ addr ∧
    (∀ i, res.1 < i → i ≤ right → Is stabs type i → addr < (stabs i).nValue) ∧
    NoneIn stabs type (res.1 + 1) res.2 ∧
    (res.2 = right ∨ res.1 ≤ res.2 ∧ res.2 < right ∧ Is stabs type (res.2 + 1)))

/-- When the search keeps its promise.  If the range has an entry of the type,
one has to lie at or below the address.  If one has the address itself, that is
not the last address there is, and in what is left of the range when the search
lands on it no entry of the type is one higher; or it is, at the last address
there is, and the wrong turn the search takes there ends up on the right entry
by accident. -/
def Findable (left right : ℤ) (addr : Word) : Prop :=
  ((∃ i, left ≤ i ∧ i ≤ right ∧ Is stabs type i) →
    ∃ i, left ≤ i ∧ i ≤ right ∧ Is stabs type i ∧ (stabs i).nValue ≤ addr) ∧
  ((∃ i, left ≤ i ∧ i ≤ right ∧ Is stabs type i ∧ (stabs i).nValue = addr) →
    addr ≠ 0xffffffff#32 ∧ ∃ m r, Lands stabs type addr left right m r ∧
      ((∀ i, m ≤ i → i ≤ r → Is stabs type i → (stabs i).nValue ≠ addr + 1) ∨
        addr = 0xfffffffe#32 ∧ ∃ n r', Lands stabs type (addr + 1) m r n r' ∧
          Is stabs type (n - 1) ∧ (stabs (n - 1)).nValue = addr))

variable {stabs type}

section Cases

variable {left right : ℤ} {addr : Word}

variable (stabs addr) in
/-- The fuel of the code is enough. -/
theorem need_start (hl : 0 ≤ left) (hr : right < 2 ^ 30) :
    need stabs ⟨left, right, left, right, addr, false⟩ < 2 ^ 32 := by
  have := need_le stabs ⟨left, right, left, right, addr, false⟩
  dsimp only at this
  omega

variable (addr) in
/-- A range without entries of the type, an empty one for instance. -/
theorem stabBinsearch_none (hl : 0 ≤ left) (hr : right < 2 ^ 30)
    (h : NoneIn stabs type left right) (log : List Read) :
    ∃ log', stabBinsearch stabs left right type addr log = .ok (left, left - 1) log' := by
  obtain ⟨t, log1, hrun, hinv, -⟩ := searchLoop_rule stabs type
    (fun s _ => left ≤ s.l ∧ s.r ≤ right ∧ s.regionLeft = left ∧ s.anyMatches = false)
    (fun s _ _ hI hle _ _ => by
      have hb := half_bounds hle
      exact ⟨by dsimp only; omega, hI.2⟩)
    (fun s m _ _ hI hm _ _ => by
      have hb := half_bounds hm.le
      have h1 := hm.lower
      have h2 := hm.upper
      exact absurd hm.is (h m (by omega) (by omega)))
    (2 ^ 32) _ log (need_start stabs addr hl hr) (by dsimp only; omega) hr
    ⟨le_refl _, le_refl _, rfl, rfl⟩
  refine ⟨log1, ?_⟩
  show (searchLoop stabs type _ _ >>= _ : M _) log = _
  rw [run_bind_ok hrun, searchEnd_none hinv.2.2.2, hinv.2.2.1]

/-- An entry `y` at or below the address, with nothing of the type up to `x`,
where the range ends or an entry above the address stands. -/
theorem bracketed_of_split (hs : Sorted stabs type left right) {y x : ℤ} (h1 : left ≤ y)
    (h2 : y < x) (h3 : x ≤ right + 1) (hy : Is stabs type y) (hv : (stabs y).nValue ≤ addr)
    (hno : NoneIn stabs type (y + 1) (x - 1))
    (hx : x = right + 1 ∨ Is stabs type x ∧ addr < (stabs x).nValue) :
    Bracketed stabs type left right addr (y, x - 1) := by
  refine Or.inr ⟨h1, by dsimp only; omega, hy, hv, ?_, hno, ?_⟩
  · intro i hi1 hi2 hi
    have hxi : x ≤ i := by
      by_contra hlt
      exact hno i hi1 (by omega) hi
    rcases hx with hx | ⟨hxis, hxv⟩
    · omega
    · exact word_lt_of_lt_of_le hxv (hs x i (by omega) hxi hi2 hxis hi)
  · rcases hx with hx | ⟨hxis, -⟩
    · exact Or.inl (by dsimp only; omega)
    · rcases eq_or_lt_of_le h3 with hx | hx
      · exact Or.inl (by dsimp only; omega)
      · exact Or.inr ⟨by dsimp only; omega, by dsimp only; omega,
          by rw [sub_add_cancel]; exact hxis⟩

/-- No entry has the address itself: the search is right if one lies below it,
and wrong if all lie above. -/
theorem stabBinsearch_clear (hl : 0 ≤ left) (hr : right < 2 ^ 30)
    (hs : Sorted stabs type left right)
    (hclear : ∀ i, left ≤ i → i ≤ right → Is stabs type i → (stabs i).nValue ≠ addr)
    (hT : ∃ i, left ≤ i ∧ i ≤ right ∧ Is stabs type i) (log : List Read) :
    ∃ p log', stabBinsearch stabs left right type addr log = .ok p log' ∧
      (Bracketed stabs type left right addr p ↔
        ∃ i, left ≤ i ∧ i ≤ right ∧ Is stabs type i ∧ (stabs i).nValue ≤ addr) := by
  obtain ⟨i, hi1, hi2, hi⟩ := hT
  obtain ⟨t, log1, hrun, hinv, hend⟩ := searchLoop_halves hclear (by omega) hr (by omega)
    (2 ^ 32) (need_start stabs addr hl hr) log
  have hlow := hinv.lower
  have hup := hinv.upper
  have hright := hinv.right
  have hany : t.anyMatches = true := hinv.any.2 (Or.inr ⟨i, hi, by omega⟩)
  have hx : t.l = right + 1 ∨ Is stabs type t.l ∧ addr < (stabs t.l).nValue := by
    rw [hend]
    rcases hinv.next with h | h
    · exact Or.inl (by omega)
    · exact Or.inr h
  obtain ⟨l', log2, hrun2, hle, hge, heq, -⟩ := searchEnd_any stabs type hany log1
  have hp : stabBinsearch stabs left right type addr log = .ok (l', t.l - 1) log2 := by
    show (searchLoop stabs type _ _ >>= _ : M _) log = _
    rw [run_bind_ok hrun, hrun2, hright, show t.r = t.l - 1 by omega]
  refine ⟨(l', t.l - 1), log2, hp, ?_⟩
  rcases hinv.left with ⟨hleft, hno⟩ | ⟨h1, h2, h3, h4, h5⟩
  · -- the left end has not moved: every entry lies above
    have hxi : t.l ≤ i := by
      by_contra hlt
      exact hno i hi1 (by omega) hi
    rcases hx with hx | ⟨hxis, hxv⟩
    · omega
    have habove : ∀ j, left ≤ j → j ≤ right → Is stabs type j → addr < (stabs j).nValue := by
      intro j hj1 hj2 hj
      have hxj : t.l ≤ j := by
        by_contra hlt
        exact hno j hj1 (by omega) hj
      exact word_lt_of_lt_of_le hxv (hs t.l j hlow hxj hj2 hxis hj)
    constructor
    · rintro (⟨hlt, -⟩ | ⟨hb1, -, hbis, -⟩)
      · dsimp only at hlt
        omega
      · exact absurd hbis (hno _ hb1 (by dsimp only; omega))
    · rintro ⟨j, hj1, hj2, hj, hle⟩
      exact absurd (habove j hj1 hj2 hj) (BitVec.not_lt.2 hle)
  · have hl' : l' = t.regionLeft := by
      rw [heq (fun j hj1 hj2 => h5 j hj1 (by omega))]
      omega
    have hv := BitVec.le_of_lt h4
    rw [hl']
    exact ⟨fun _ => ⟨t.regionLeft, h1, by omega, h3, hv⟩,
      fun _ => bracketed_of_split hs h1 h2 (by omega) h3 hv h5 hx⟩

/-- Where the search lands on the address, the code goes on with the next. -/
theorem stabBinsearch_lands (hl : 0 ≤ left) (hr : right < 2 ^ 30) {m r : ℤ}
    (h : Lands stabs type addr left right m r) (log : List Read) :
    ∃ k log', need stabs ⟨m, r, m, r, addr + 1, true⟩ < k ∧
      stabBinsearch stabs left right type addr log =
        searchFrom stabs type k ⟨m, r, m, r, addr + 1, true⟩ log' := by
  obtain ⟨k, log', hk, heq⟩ := h.run (2 ^ 32) left false log (by omega) hr
    (need_start stabs addr hl hr)
  refine ⟨k, log', hk, ?_⟩
  show (searchLoop stabs type _ _ >>= _ : M _) log = (searchLoop stabs type _ _ >>= _ : M _) log'
  show EStateM.bind _ _ log = EStateM.bind _ _ log'
  simp only [EStateM.bind, heq]

/-- The entry at `m` has the last address there is: the search backs off to
the entry before. -/
theorem stabBinsearch_last (hl : 0 ≤ left) (hr : right < 2 ^ 30)
    (hs : Sorted stabs type left right) {m r : ℤ}
    (h : Lands stabs type addr left right m r) (hmax : addr = 0xffffffff#32) (log : List Read) :
    ∃ log', stabBinsearch stabs left right type addr log = .ok (m - 1, m - 1) log' := by
  obtain ⟨h1, h2, h3, h4, h5, -⟩ := h.place
  obtain ⟨k, log1, hk, heq⟩ := stabBinsearch_lands hl hr h log
  have hzero : addr + 1 = 0#32 := by rw [hmax]; rfl
  rw [hzero] at hk heq
  have hpos : ∀ i, m ≤ i → i ≤ r → Is stabs type i → 0#32 < (stabs i).nValue := by
    intro i hi1 hi2 hi
    have hge := hs m i h1 hi1 (by omega) h4 hi
    rw [h5, hmax] at hge
    bv_omega
  rw [heq]
  exact searchFrom_above h4 h2 hpos (by omega) (by omega) k hk log1

/-- The search lands on the address, and nothing in what is left of the range
is one higher. -/
theorem stabBinsearch_exact (hl : 0 ≤ left) (hr : right < 2 ^ 30)
    (hs : Sorted stabs type left right) {m r : ℤ}
    (h : Lands stabs type addr left right m r) (hmax : addr ≠ 0xffffffff#32)
    (hclear : ∀ i, m ≤ i → i ≤ r → Is stabs type i → (stabs i).nValue ≠ addr + 1)
    (log : List Read) :
    ∃ p log', stabBinsearch stabs left right type addr log = .ok p log' ∧
      Bracketed stabs type left right addr p := by
  obtain ⟨h1, h2, h3, h4, h5, h6⟩ := h.place
  obtain ⟨k, log1, hk, heq⟩ := stabBinsearch_lands hl hr h log
  have hlt : (stabs m).nValue < addr + 1 := by rw [h5]; bv_omega
  obtain ⟨y, x, log2, hrun, hy1, hy2, hx, hyis, hyv, hno, hnext⟩ :=
    searchFrom_found h4 h2 hlt hclear (by omega) (by omega) k hk log1
  refine ⟨(y, x - 1), log2, heq.trans hrun, ?_⟩
  refine bracketed_of_split hs (by omega) hy2 (by omega) hyis (by bv_omega) hno ?_
  rcases hnext with rfl | ⟨hxis, hxv⟩
  · rcases h6 with rfl | h6
    · exact Or.inl rfl
    · exact Or.inr h6
  · exact Or.inr ⟨hxis, by bv_omega⟩

section Next

variable {m r n r' : ℤ} (hl : 0 ≤ left) (hr : right < 2 ^ 30)
  (hs : Sorted stabs type left right) (h : Lands stabs type addr left right m r)
  (hn : Lands stabs type (addr + 1) m r n r')

include hl hr hs h hn

/-- The search lands on the address and then on the next one, which is not the
last there is: it ends too far to the right. -/
theorem stabBinsearch_overshoots (hmax : addr ≠ 0xffffffff#32) (hmax' : addr ≠ 0xfffffffe#32)
    (log : List Read) :
    ∃ p log', stabBinsearch stabs left right type addr log = .ok p log' ∧
      ¬ Bracketed stabs type left right addr p := by
  obtain ⟨h1, h2, h3, h4, h5, -⟩ := h.place
  obtain ⟨g1, g2, g3, g4, g5, -⟩ := hn.place
  obtain ⟨k, log1, hk, heq⟩ := stabBinsearch_lands hl hr h log
  obtain ⟨k2, log2, hk2, heq2⟩ := hn.run k m true log1 (by omega) (by omega) hk
  have hlt : (stabs n).nValue < addr + 1 + 1 := by rw [g5]; bv_omega
  obtain ⟨a, b, log3, hrun, ha, hab⟩ :=
    searchFrom_past type g2 hlt (by omega) (by omega) k2 hk2 log2
  refine ⟨(a, b), log3, ?_, ?_⟩
  · rw [heq, ← hrun]
    show EStateM.bind _ _ log1 = EStateM.bind _ _ log2
    simp only [EStateM.bind, heq2]
  · rintro (⟨hlt, -⟩ | ⟨-, ha2, hais, hav, -⟩)
    · dsimp only at hlt
      omega
    · have := hs n a (by omega) ha ha2 g4 hais
      rw [g5] at this
      dsimp only at hav
      bv_omega

/-- The search lands on the address before the last and then on the last: it
backs off to the entry before that. -/
theorem stabBinsearch_backs (hmax : addr = 0xfffffffe#32) (log : List Read) :
    ∃ log', stabBinsearch stabs left right type addr log = .ok (n - 1, n - 1) log' := by
  obtain ⟨h1, h2, h3, h4, h5, -⟩ := h.place
  obtain ⟨g1, g2, g3, g4, g5, -⟩ := hn.place
  obtain ⟨k, log1, hk, heq⟩ := stabBinsearch_lands hl hr h log
  obtain ⟨k2, log2, hk2, heq2⟩ := hn.run k m true log1 (by omega) (by omega) hk
  have hzero : addr + 1 + 1 = 0#32 := by rw [hmax]; rfl
  rw [hzero] at hk2 heq2
  have hpos : ∀ i, n ≤ i → i ≤ r' → Is stabs type i → 0#32 < (stabs i).nValue := by
    intro i hi1 hi2 hi
    have hge := hs n i (by omega) hi1 (by omega) g4 hi
    rw [g5, hmax] at hge
    bv_omega
  obtain ⟨log3, hrun⟩ := searchFrom_above g4 g2 hpos (by omega) (by omega) k2 hk2 log2
  refine ⟨log3, ?_⟩
  rw [heq, ← hrun]
  show EStateM.bind _ _ log1 = EStateM.bind _ _ log2
  simp only [EStateM.bind, heq2]

omit hl hr in
/-- That is the right entry if it has the address. -/
theorem bracketed_before_iff (hmax : addr = 0xfffffffe#32) :
    Bracketed stabs type left right addr (n - 1, n - 1) ↔
      Is stabs type (n - 1) ∧ (stabs (n - 1)).nValue = addr := by
  obtain ⟨h1, h2, h3, h4, h5, -⟩ := h.place
  obtain ⟨g1, g2, g3, g4, g5, -⟩ := hn.place
  have hmn : m < n := by
    rcases eq_or_lt_of_le g1 with rfl | hlt
    · rw [h5] at g5
      exact absurd g5 (word_succ_ne _)
    · exact hlt
  constructor
  · rintro (⟨hlt, -⟩ | ⟨-, -, his, hle, -⟩)
    · exact absurd hlt (lt_irrefl _)
    · have hge := hs m (n - 1) h1 (by omega) (by omega) h4 his
      rw [h5] at hge
      exact ⟨his, by bv_omega⟩
  · rintro ⟨his, hv⟩
    have hnv : addr < (stabs n).nValue := by rw [g5, hmax]; decide
    exact bracketed_of_split hs (by omega) (by omega) (by omega) his (by rw [hv]; bv_omega)
      (fun i hi1 hi2 => by omega) (Or.inr ⟨g4, hnv⟩)

end Next

end Cases

/-! ## The main result -/

/-- **When `stab_binsearch` does what it says.**  For every table, every range
that starts at zero or above and lies in a table that fits the address space,
with the entries of the type in order, and every address: the search comes to
an end, and what it comes to is what is promised, exactly if the address is
findable. -/
theorem stabBinsearch_brackets_iff (stabs : ℤ → Stab) (left right type : ℤ) (addr : Word)
    (hl : 0 ≤ left) (hfit : 12 * (right + 1) ≤ 2 ^ 32) (hs : Sorted stabs type left right)
    (log : List Read) :
    (∃ p log', stabBinsearch stabs left right type addr log = .ok p log' ∧
      Bracketed stabs type left right addr p) ↔ Findable stabs type left right addr := by
  have hr : right < 2 ^ 30 := by omega
  constructor
  · rintro ⟨p, log', hrun, hp⟩
    have same : ∀ {q log''}, stabBinsearch stabs left right type addr log = .ok q log'' →
        Bracketed stabs type left right addr q := by
      intro q log'' hq
      rw [hrun] at hq
      obtain ⟨rfl, -⟩ : p = q ∧ log' = log'' := by simpa using hq
      exact hp
    refine ⟨fun hT => ?_, ?_⟩
    · by_cases hex : ∃ i, left ≤ i ∧ i ≤ right ∧ Is stabs type i ∧ (stabs i).nValue = addr
      · obtain ⟨i, hi1, hi2, hi, hv⟩ := hex
        exact ⟨i, hi1, hi2, hi, by rw [hv]; bv_omega⟩
      · obtain ⟨q, log'', hq, hiff⟩ := stabBinsearch_clear hl hr hs
          (fun i h1 h2 h3 h4 => hex ⟨i, h1, h2, h3, h4⟩) hT log
        exact hiff.1 (same hq)
    · rintro ⟨i, hi1, hi2, hi, hv⟩
      obtain ⟨m, r, hland⟩ :=
        lands_of_mem (right - left + 1).toNat (by omega) hs hi1 hi2 hi hv
      obtain ⟨h1, h2, h3, h4, h5, -⟩ := hland.place
      have hmax : addr ≠ 0xffffffff#32 := by
        intro hmax
        obtain ⟨log'', hq⟩ := stabBinsearch_last hl hr hs hland hmax log
        -- the entry at `m` lies after the one found and is not above the address
        rcases same hq with ⟨hlt, -⟩ | ⟨-, -, -, -, hafter, -⟩
        · exact absurd hlt (lt_irrefl _)
        · have := hafter m (by dsimp only; omega) (by omega) h4
          rw [h5] at this
          exact BitVec.lt_irrefl _ this
      refine ⟨hmax, m, r, hland, ?_⟩
      by_cases hclear : ∀ j, m ≤ j → j ≤ r → Is stabs type j → (stabs j).nValue ≠ addr + 1
      · exact Or.inl hclear
      · push Not at hclear
        obtain ⟨j, hj1, hj2, hj, hjv⟩ := hclear
        obtain ⟨n, r', hnext⟩ := lands_of_mem (r - m + 1).toNat (by omega)
          (hs.mono h1 h3) hj1 hj2 hj hjv
        by_cases hlast : addr = 0xfffffffe#32
        · obtain ⟨log'', hq⟩ := stabBinsearch_backs hl hr hs hland hnext hlast log
          exact Or.inr ⟨hlast, n, r', hnext,
            (bracketed_before_iff hs hland hnext hlast).1 (same hq)⟩
        · obtain ⟨q, log'', hq, hnot⟩ :=
            stabBinsearch_overshoots hl hr hs hland hnext hmax hlast log
          exact absurd (same hq) hnot
  · rintro ⟨hlow, hexact⟩
    by_cases hT : ∃ i, left ≤ i ∧ i ≤ right ∧ Is stabs type i
    · by_cases hex : ∃ i, left ≤ i ∧ i ≤ right ∧ Is stabs type i ∧ (stabs i).nValue = addr
      · obtain ⟨hmax, m, r, hland, hclear | ⟨hlast, n, r', hnext, hbefore⟩⟩ := hexact hex
        · exact stabBinsearch_exact hl hr hs hland hmax hclear log
        · obtain ⟨log', hq⟩ := stabBinsearch_backs hl hr hs hland hnext hlast log
          exact ⟨_, log', hq, (bracketed_before_iff hs hland hnext hlast).2 hbefore⟩
      · obtain ⟨q, log', hq, hiff⟩ := stabBinsearch_clear hl hr hs
          (fun i h1 h2 h3 h4 => hex ⟨i, h1, h2, h3, h4⟩) hT log
        exact ⟨q, log', hq, hiff.2 (hlow hT)⟩
    · have hno : NoneIn stabs type left right := fun i h1 h2 hi => hT ⟨i, h1, h2, hi⟩
      obtain ⟨log', hq⟩ := stabBinsearch_none addr hl hr hno log
      exact ⟨_, log', hq, Or.inl ⟨by dsimp only; omega,
        fun i h1 h2 hi => absurd hi (hno i h1 h2)⟩⟩

end Table

/-- A table of functions: the first at `a`, all others at `b`. -/
def twoFuns (a b : Word) : ℤ → Stab := fun i => ⟨0, 0x24, 0, 0, if i ≤ 0 then a else b⟩

theorem twoFuns_value (a b : Word) (i : ℤ) :
    (twoFuns a b i).nValue = if i ≤ 0 then a else b := rfl

theorem twoFuns_sorted {a b : Word} (h : a ≤ b) (l r : ℤ) : Sorted (twoFuns a b) 0x24 l r := by
  intro i j _ hij _ _ _
  rw [twoFuns_value, twoFuns_value]
  split_ifs
  · exact BitVec.le_refl _
  · exact h
  · omega
  · exact BitVec.le_refl _

/-- An address between the two functions is found. -/
theorem stabBinsearch_between :
    ∃ p log', stabBinsearch (twoFuns 10 20) 0 1 0x24 15 [] = .ok p log' ∧
      Bracketed (twoFuns 10 20) 0x24 0 1 15 p := by
  refine (stabBinsearch_brackets_iff (twoFuns 10 20) 0 1 0x24 15 (le_refl _) (by decide)
    (twoFuns_sorted (by decide) 0 1) []).2 ⟨fun _ => ⟨0, le_refl _, by decide, rfl, by decide⟩, ?_⟩
  rintro ⟨i, -, -, -, hv⟩
  rw [twoFuns_value] at hv
  split_ifs at hv
  · exact absurd hv (by decide)
  · exact absurd hv (by decide)

/-- With functions at 10 and 11, the address 10 is found to lie in the second.
With functions at 10 and 20, the address 5 is found to lie in entry -1. -/
theorem stabBinsearch_misses :
    (∃ log', stabBinsearch (twoFuns 10 11) 0 1 0x24 10 [] = .ok (1, 1) log' ∧
      ¬ Bracketed (twoFuns 10 11) 0x24 0 1 10 (1, 1)) ∧
    (∃ log', stabBinsearch (twoFuns 10 20) 0 1 0x24 5 [] = .ok (-1, -1) log' ∧
      ¬ Bracketed (twoFuns 10 20) 0x24 0 1 5 (-1, -1)) := by
  refine ⟨⟨_, rfl, ?_⟩, ⟨_, rfl, ?_⟩⟩
  · rintro (⟨hlt, -⟩ | ⟨-, -, -, hv, -⟩)
    · exact absurd hlt (by decide)
    · exact absurd hv (by decide)
  · rintro (⟨hlt, -⟩ | ⟨hle, -⟩)
    · exact absurd hlt (by decide)
    · exact absurd hle (by decide)

end Jos.Kdebug
