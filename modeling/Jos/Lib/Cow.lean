import Mathlib.Data.Option.Basic
import Mathlib.Logic.Function.Basic

/-!
# Frames behind sites

Sites, say the pages of several address spaces, refer to frames, and a frame
holds something.  Two sites may refer to the same frame, so a write through one
of them can be seen through the other.  Copy-on-write is the discipline that
hides this: a site is written to only while no other site refers to its frame.

* `view mem ref` — what each site sees.
* `view_write`, `view_install`, `view_remove` — a write through a site that has
  its frame for itself, a new frame for a site and none at all: the view changes
  at that site only.
* `Private ref W` — the sites in `W`, those that may write, have their frames for
  themselves.  Giving out a frame that nobody refers to, taking one away and
  sharing one that nobody may write to keep it so.
-/

namespace Jos.Cow

open Function (update update_of_ne update_self)

variable {S F C : Type}

/-- What the sites see. -/
def view (mem : F → C) (ref : S → Option F) (x : S) : Option C := (ref x).map mem

/-- No site refers to the frame. -/
def Fresh (ref : S → Option F) (f : F) : Prop := ∀ x, ref x ≠ some f

/-- The sites in `W` have their frames for themselves. -/
def Private (ref : S → Option F) (W : S → Prop) : Prop :=
  ∀ x y f, W x → ref x = some f → ref y = some f → y = x

section View

variable [DecidableEq S] [DecidableEq F] {mem : F → C} {ref : S → Option F} {W : S → Prop}
  {x : S} {f : F} {c : C}

/-- A write through a site that has its frame for itself. -/
theorem view_write (h : Private ref W) (hx : W x) (hf : ref x = some f) :
    view (update mem f c) ref = update (view mem ref) x (some c) := by
  funext y
  by_cases hy : y = x
  · subst hy
    rw [update_self, view, hf, Option.map_some, update_self]
  · rw [update_of_ne hy, view, view]
    cases hr : ref y with
    | none => rfl
    | some g =>
      have hg : g ≠ f := by
        rintro rfl
        exact hy (h x y g hx hf hr)
      rw [Option.map_some, Option.map_some, update_of_ne hg]

/-- A frame that nobody refers to, given to a site. -/
theorem view_install (h : Fresh ref f) :
    view (update mem f c) (update ref x (some f))
      = update (view mem ref) x (some c) := by
  funext y
  by_cases hy : y = x
  · subst hy
    rw [update_self, view, update_self, Option.map_some, update_self]
  · rw [update_of_ne hy, view, view, update_of_ne hy]
    cases hr : ref y with
    | none => rfl
    | some g =>
      have hg : g ≠ f := by
        rintro rfl
        exact h y hr
      rw [Option.map_some, Option.map_some, update_of_ne hg]

omit [DecidableEq F] in
/-- A frame taken away from a site. -/
theorem view_remove :
    view mem (update ref x none) = update (view mem ref) x none := by
  funext y
  by_cases hy : y = x
  · subst hy
    rw [update_self, view, update_self, Option.map_none]
  · rw [update_of_ne hy, view, view, update_of_ne hy]

end View

/-! ## Who has a frame for itself -/

section Private

variable [DecidableEq S] {ref ref' : S → Option F} {W W' : S → Prop} {x : S} {f : F}

omit [DecidableEq S] in
/-- Fewer references, or fewer sites that may write. -/
theorem Private.mono (h : Private ref W) (href : ∀ y f, ref' y = some f → ref y = some f)
    (hW : ∀ y, ref' y ≠ none → W' y → W y) : Private ref' W' := by
  intro y z f hy hfy hfz
  refine h y z f (hW y ?_ hy) (href y f hfy) (href z f hfz)
  rw [hfy]
  exact Option.some_ne_none f

/-- A site that gets a frame nobody refers to may write to it. -/
theorem Private.install (h : Private ref W) (hf : Fresh ref f) (hW : ∀ y, y ≠ x → W' y → W y) :
    Private (update ref x (some f)) W' := by
  intro y z g hy hgy hgz
  by_cases hyx : y = x
  · subst hyx
    rw [update_self] at hgy
    by_contra hz
    rw [update_of_ne hz] at hgz
    exact hf z (hgz.trans hgy.symm)
  · rw [update_of_ne hyx] at hgy
    by_cases hzx : z = x
    · subst hzx
      rw [update_self] at hgz
      exact absurd (hgy.trans hgz.symm) (hf y)
    · rw [update_of_ne hzx] at hgz
      exact h y z g (hW y hyx hy) hgy hgz

omit [DecidableEq S] in
/-- References may be copied from sites that may not write any more. -/
theorem Private.share (h : Private ref W) (hW : ∀ y, W' y → W y ∧ ref' y = ref y)
    (href : ∀ z f, ref' z = some f → ref z = some f ∨ ∃ y, ¬ W' y ∧ ref y = some f) :
    Private ref' W' := by
  intro y z f hy hfy hfz
  obtain ⟨hwy, hsame⟩ := hW y hy
  rw [hsame] at hfy
  rcases href z f hfz with hz | ⟨u, hu, hfu⟩
  · exact h y z f hwy hfy hz
  · -- the copied reference came from `y` itself, which still may write
    exact absurd (h y u f hwy hfy hfu ▸ hy) hu

theorem Fresh.install {g : F} (h : Fresh ref g) (hne : g ≠ f) :
    Fresh (update ref x (some f)) g := by
  intro y hy
  by_cases hyx : y = x
  · subst hyx
    rw [update_self] at hy
    exact hne (Option.some.inj hy).symm
  · rw [update_of_ne hyx] at hy
    exact h y hy

omit [DecidableEq S] in
/-- Fewer references. -/
theorem Fresh.mono {g : F} (h : Fresh ref g) (href : ∀ y f, ref' y = some f → ∃ z, ref z = some f) :
    Fresh ref' g := by
  intro y hy
  obtain ⟨z, hz⟩ := href y g hy
  exact h z hz

end Private

end Jos.Cow
