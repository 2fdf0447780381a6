import Jos.Kern.KdebugSpec
import Jos.Kern.StabSpec

/-!
# Does the search stay in its range?

The table `stab_binsearch` looks at may come from a user program, so nothing
can be taken for granted about its contents.  Whatever they are, the search of
a range that ends below `2 ^ 30` comes to an end and reads only entries of the
range, although an exact match leaves the range as it is (`stays_of_small`).

From there on `l + r` no longer fits in an `int`.  If no entry has the type,
`l` climbs until the sum overflows; the midpoint is then negative, `l` falls
to zero or below, and the next slide leaves the range at its left end
(`wanders`).  Such ends do occur: by the pointer arithmetic of the code, a
table that ends eight bytes after it starts has 1431655766 entries.
-/

namespace Jos.Kdebug

/-- The search ends, and every entry it reads lies in the range. -/
def Stays (stabs : ℤ → Stab) (left right type : ℤ) (addr : Word) : Prop :=
  ∃ p log, stabBinsearch stabs left right type addr [] = .ok p log ∧
    ∀ x ∈ log, ∃ i, x = .stab i ∧ left ≤ i ∧ i ≤ right

section Search

variable {stabs : ℤ → Stab} {left right type : ℤ} {addr : Word} {log : List Read}

theorem stays_of_lt (h : right < left) : Stays stabs left right type addr := by
  have hround : searchLoop stabs type (2 ^ 32) ⟨left, right, left, right, addr, false⟩ =
      pure ⟨left, right, left, right, addr, false⟩ := if_neg (not_le.2 h)
  refine ⟨(left, left - 1), [], ?_, List.forall_mem_nil _⟩
  unfold stabBinsearch
  rw [hround]
  rfl

theorem stays_of_small (hl : 0 ≤ left) (hr : right < 2 ^ 30) :
    Stays stabs left right type addr := by
  have hnone : ∀ y ∈ ([] : List Read), ∃ i, y = .stab i ∧ left ≤ i ∧ i ≤ right :=
    List.forall_mem_nil _
  obtain ⟨p, log, hrun, hreads, -⟩ := stabBinsearch_run type addr (by omega) hr
    (fun i h1 h2 => ⟨i, rfl, h1, h2⟩) hnone
  exact ⟨p, log, hrun, hreads⟩

/-! ## Where the sum overflows -/

section Wraps

variable {s : Search} (hlr : s.l ≤ s.r) (hsum : 2 ^ 31 ≤ s.l + s.r) (hr : s.r < 2 ^ 31)

include hlr hsum hr

theorem Search.trueM_wraps : s.trueM = -((2 ^ 32 - (s.l + s.r)) / 2) := by
  have hmod : Int.bmod (s.l + s.r) (2 ^ 32) = -(2 ^ 32 - (s.l + s.r)) := by
    rw [← Int.sub_bmod_right, Int.bmod_eq_of_le (by omega) (by omega)]
    push_cast
    ring
  rw [Search.trueM, hmod, Int.neg_tdiv, Int.tdiv_eq_ediv_of_nonneg (by omega)]

/-- The round in which the sum overflows reads nothing and moves the left end
to zero or below. -/
theorem searchStep_wraps (log : List Read) :
    searchStep stabs type s log = .ok { s with l := s.trueM + 1 } log := by
  have hm := Search.trueM_wraps hlr hsum hr
  have hslide : slideDown stabs type (s.trueM - s.l + 1).toNat s.trueM log = .ok s.trueM log := by
    rw [show (s.trueM - s.l + 1).toNat = 0 by omega]
    rfl
  show (slideDown stabs type _ _ >>= _ : M _) log = _
  rw [run_bind_ok hslide, if_pos (by omega)]
  rfl

end Wraps

/-- In a range that has no entry of the type and ends at `2 ^ 30` or above, the
search comes to read an entry in front of it. -/
theorem wanders (hno : ∀ i, ¬ Is stabs type i) (hl : 0 ≤ left) (hbig : 2 ^ 30 ≤ right)
    (hint : right < 2 ^ 31) : ∀ (k : ℕ) (s : Search) (log : List Read), s.r = right →
      left ≤ s.l → s.l ≤ right → (s.l + right < 2 ^ 32 - 3 ∨ 0 < left) →
      (right - s.l).toNat + 2 ≤ k →
      ∃ i, i < left ∧ Hits (searchLoop stabs type k s) log (.stab i) := by
  intro k
  induction k with
  | zero => intro s log _ _ _ _ hk; omega
  | succ k ih =>
    intro s log hr hleft hle hlow hk
    have hlr : s.l ≤ s.r := by omega
    rw [searchLoop, if_pos hlr]
    rcases lt_or_ge (s.l + s.r) (2 ^ 31) with hsum | hsum
    · -- the left end climbs
      have hhalf : half s.l s.r = (s.l + s.r) / 2 := Int.tdiv_eq_ediv_of_nonneg (by omega)
      obtain ⟨log1, hrun, -⟩ := searchStep_none hlr (by omega) hsum (fun j _ _ => hno j) log
      obtain ⟨i, hi, hhits⟩ := ih { s with l := half s.l s.r + 1 } log1 hr (by dsimp only; omega)
        (by dsimp only; omega) (by dsimp only; omega) (by dsimp only; omega)
      exact ⟨i, hi, Hits.after hrun hhits⟩
    · -- it falls below the range, and the next slide goes all the way down to it
      have hm := Search.trueM_wraps hlr hsum (by omega)
      have hrun := @searchStep_wraps stabs type s hlr hsum (by omega) log
      refine ⟨s.trueM + 1, by omega, Hits.after hrun ?_⟩
      obtain ⟨k, rfl⟩ : ∃ n, k = n + 1 := ⟨k - 1, by omega⟩
      have hlr1 : s.trueM + 1 ≤ s.r := by omega
      obtain ⟨log1, hrun1, hadds⟩ := searchStep_none (s := { s with l := s.trueM + 1 }) hlr1
        (by dsimp only; omega) (by dsimp only; omega) (fun j _ _ => hno j) log
      rw [searchLoop, if_pos hlr1]
      exact Hits.after hrun1 ((searchLoop_extends stabs type k _).hits
        (hadds.mem (le_refl _) (half_bounds hlr1).1))

theorem not_stays (hno : ∀ i, ¬ Is stabs type i) (hl : 0 ≤ left) (hle : left ≤ right)
    (hbig : 2 ^ 30 ≤ right) (hint : right < 2 ^ 31) : ¬ Stays stabs left right type addr := by
  rintro ⟨p, log, hrun, hreads⟩
  obtain ⟨i, hi, hhits⟩ := wanders hno hl hbig hint (2 ^ 32)
    ⟨left, right, left, right, addr, false⟩ [] rfl (le_refl _) hle (by dsimp only; omega)
    (by dsimp only; omega)
  have hall : Hits (stabBinsearch stabs left right type addr) [] (.stab i) :=
    hhits.bind fun s => searchEnd_extends stabs type s
  obtain ⟨j, hj, h1, -⟩ := hreads _ ((wp_of_ok hrun).1 hall)
  obtain rfl := Read.stab.inj hj
  omega

end Search

/-- **Which ranges the search stays in.**  For every range that starts at zero
or above, every type and every address: whatever the table holds, the search
ends and reads only entries of the range, exactly if the range is empty or ends
below `2 ^ 30`. -/
theorem stabBinsearch_stays_iff (left right type : ℤ) (addr : Word) (hl : 0 ≤ left)
    (hint : right < 2 ^ 31) :
    (∀ stabs, Stays stabs left right type addr) ↔ right < left ∨ right < 2 ^ 30 := by
  constructor
  · intro h
    by_contra hnot
    push Not at hnot
    -- a table in which every entry has another type
    obtain ⟨t, ht⟩ : ∃ t : BitVec 8, (t.toNat : ℤ) ≠ type := by
      by_cases h0 : type = 0
      · exact ⟨1, by subst h0; decide⟩
      · exact ⟨0, fun h => h0 h.symm⟩
    have hno : ∀ i, ¬ Is (fun _ => ⟨0, t, 0, 0, 0⟩) type i := fun _ => ht
    exact not_stays hno hl hnot.1 hnot.2 hint (h _)
  · rintro (h | h) stabs
    · exact stays_of_lt h
    · exact stays_of_small hl h

/-- A range of two exact matches. -/
theorem stabBinsearch_stays_two : Stays (twoFuns 10 10) 0 1 N_FUN 10 :=
  (stabBinsearch_stays_iff 0 1 N_FUN 10 (le_refl _) (by decide)).2 (Or.inr (by decide)) _

/-- A range of one entry, at `2 ^ 30`, that has another type. -/
theorem stabBinsearch_strays : ¬ Stays blank (2 ^ 30) (2 ^ 30) N_FUN 0xf0100184 :=
  not_stays (fun _ h => absurd (show (0 : ℤ) = 0x24 from h) (by decide)) (by decide)
    (le_refl _) (le_refl _) (by decide)

end Jos.Kdebug
