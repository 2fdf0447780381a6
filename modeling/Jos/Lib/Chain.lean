import Mathlib.Data.List.Nodup
import Mathlib.Logic.Function.Basic
import Mathlib.Tactic

/-!
# Intrusive linked lists

A free list threaded through the very objects it holds: a head pointer and one
link field per object, `NULL` at the end.  Nothing in the representation
forbids a cycle or an object that is linked twice, so both notions are kept
apart here.

* `OnList link head p` — following links from `head` arrives at `p`.  This
  makes sense for every link function, cyclic ones included.
* `Chain link head l` — following links from `head` visits exactly the
  objects of the finite list `l`, in that order, and then ends.  A head with a
  chain is therefore acyclic, and no object is linked twice (`Chain.nodup`).

`onList_iff_mem` connects the two; `Chain.push` and `Chain.pop` are what
inserting and taking at the head do to a chain.  `OnList.not_chain_again` is
what inserting an object a second time does.
-/

namespace Jos

open Function (update update_of_ne update_self)

variable {P : Type}

/-! ## Reachability along links -/

/-- `p` is reached from `head` by following links. -/
inductive OnList (link : P → Option P) : Option P → P → Prop
  | here (p : P) : OnList link (some p) p
  | next {p q : P} : OnList link (link p) q → OnList link (some p) q

variable {p : P}

theorem not_onList_none {link : P → Option P} : ¬ OnList link none p := by
  intro h
  cases h

theorem onList_some {link : P → Option P} {q : P} :
    OnList link (some p) q ↔ q = p ∨ OnList link (link p) q := by
  constructor
  · intro h
    cases h with
    | here => exact Or.inl rfl
    | next h => exact Or.inr h
  · rintro (rfl | h)
    · exact .here q
    · exact .next h

/-! ## Chains -/

/-- The objects linked from `head` are exactly those of the list, in order. -/
def Chain (link : P → Option P) : Option P → List P → Prop
  | none, [] => True
  | some p, q :: l => p = q ∧ Chain link (link q) l
  | _, _ => False

namespace Chain

variable {link : P → Option P} {head : Option P} {l : List P}

theorem nil_iff : Chain link head [] ↔ head = none := by
  cases head <;> simp [Chain]

theorem cons_iff : Chain link head (p :: l) ↔ head = some p ∧ Chain link (link p) l := by
  cases head <;> simp [Chain]

/-- A chain is determined by its head. -/
theorem unique : ∀ {l l' : List P} {head : Option P},
    Chain link head l → Chain link head l' → l = l' := by
  intro l
  induction l with
  | nil =>
    intro l' head h h'
    rw [nil_iff] at h
    subst h
    cases l' with
    | nil => rfl
    | cons q l' => exact absurd (cons_iff.1 h').1 (by simp)
  | cons p l ih =>
    intro l' head h h'
    obtain ⟨rfl, ht⟩ := cons_iff.1 h
    cases l' with
    | nil => exact absurd (nil_iff.1 h') (by simp)
    | cons q l' =>
      obtain ⟨hq, ht'⟩ := cons_iff.1 h'
      obtain rfl : p = q := by simpa using hq
      rw [ih ht ht']

theorem onList_iff_mem : ∀ {l : List P} {head : Option P}, Chain link head l →
    ∀ q, OnList link head q ↔ q ∈ l := by
  intro l
  induction l with
  | nil =>
    intro head h q
    rw [nil_iff.1 h]
    simp [not_onList_none]
  | cons p l ih =>
    intro head h q
    obtain ⟨rfl, ht⟩ := cons_iff.1 h
    rw [onList_some, ih ht q, List.mem_cons]

/-- A chain survives any change of links outside it. -/
theorem frame {link' : P → Option P} : ∀ {l : List P} {head : Option P},
    Chain link head l → (∀ p ∈ l, link' p = link p) → Chain link' head l := by
  intro l
  induction l with
  | nil => intro head h _; rw [nil_iff] at *; exact h
  | cons p l ih =>
    intro head h hl
    obtain ⟨rfl, ht⟩ := cons_iff.1 h
    refine cons_iff.2 ⟨rfl, ?_⟩
    rw [hl p (List.mem_cons_self ..)]
    exact ih ht (fun q hq => hl q (List.mem_cons_of_mem _ hq))

/-- The part of a chain from one of its objects on. -/
theorem suffix : ∀ {l : List P} {head : Option P}, Chain link head l → ∀ {p : P}, p ∈ l →
    ∃ a b, l = a ++ p :: b ∧ Chain link (some p) (p :: b) := by
  intro l
  induction l with
  | nil => intro head _ p hp; exact absurd hp List.not_mem_nil
  | cons q l ih =>
    intro head h p hp
    obtain ⟨rfl, ht⟩ := cons_iff.1 h
    rcases List.mem_cons.1 hp with rfl | hp
    · exact ⟨[], l, rfl, h⟩
    · obtain ⟨a, b, rfl, hb⟩ := ih ht hp
      exact ⟨q :: a, b, rfl, hb⟩

/-- A chain that ends passes no object twice. -/
theorem nodup : ∀ {l : List P} {head : Option P}, Chain link head l → l.Nodup := by
  intro l
  induction l with
  | nil => intro head _; exact List.nodup_nil
  | cons p l ih =>
    intro head h
    obtain ⟨rfl, ht⟩ := cons_iff.1 h
    refine List.nodup_cons.2 ⟨fun hp => ?_, ih ht⟩
    obtain ⟨a, b, hl, hb⟩ := ht.suffix hp
    have hlen := congrArg List.length (unique h hb)
    rw [hl] at hlen
    simp only [List.length_cons, List.length_append] at hlen
    omega

/-- The one object of a chain without a link is the last. -/
theorem link_eq_none_iff (h : Chain link head l) (hp : p ∈ l) :
    link p = none ↔ l.getLast? = some p := by
  obtain ⟨a, b, rfl, hb⟩ := h.suffix hp
  have ht := (cons_iff.1 hb).2
  cases b with
  | nil =>
    rw [nil_iff] at ht
    simp [ht]
  | cons q b =>
    have hlink := (cons_iff.1 ht).1
    have hnd := (List.nodup_append.1 h.nodup).2.1
    have hlast : (a ++ p :: q :: b).getLast? = (q :: b).getLast? := by
      rw [List.getLast?_append_cons]
      rfl
    rw [hlink, hlast]
    refine ⟨fun hn => absurd hn (by simp), fun hl => ?_⟩
    exact absurd (List.mem_of_getLast? hl) (List.nodup_cons.1 hnd).1

variable [DecidableEq P]

/-- Linking a new object in at the head. -/
theorem push (h : Chain link head l) (hp : p ∉ l) :
    Chain (update link p head) (some p) (p :: l) := by
  refine cons_iff.2 ⟨rfl, ?_⟩
  rw [update_self]
  refine h.frame (fun q hq => ?_)
  rw [update_of_ne]
  rintro rfl
  exact hp hq

/-- Taking the object at the head and clearing its link. -/
theorem pop (h : Chain link (some p) l) (hnd : l.Nodup) :
    ∃ t, l = p :: t ∧ Chain (update link p none) (link p) t := by
  cases l with
  | nil => exact absurd (nil_iff.1 h) (by simp)
  | cons q t =>
    obtain ⟨hq, ht⟩ := cons_iff.1 h
    obtain rfl : p = q := by simpa using hq
    refine ⟨t, rfl, ht.frame (fun x hx => ?_)⟩
    rw [update_of_ne]
    rintro rfl
    exact (List.nodup_cons.1 hnd).1 hx

end Chain

/-! ## Linking an object in again -/

section Again

variable [DecidableEq P] {link : P → Option P} {head : Option P} {p q : P}

variable {x : Option P}

/-- What is reached once `p` has been linked in at the head. -/
theorem OnList.of_update (h : OnList (update link p head) x q) :
    q = p ∨ OnList link head q ∨ OnList link x q := by
  induction h with
  | here q => exact Or.inr (Or.inr (.here q))
  | @next r q _ ih =>
    by_cases hr : r = p
    · subst hr
      rw [update_self] at ih
      exact ih.imp_right fun h => Or.inl (h.elim id id)
    · rw [update_of_ne hr] at ih
      exact ih.imp_right (Or.imp_right .next)

/-- What is reached once a link has been cleared. -/
theorem OnList.of_clear (h : OnList (update link p none) x q) : OnList link x q := by
  induction h with
  | here q => exact .here q
  | @next r q hrest ih =>
    by_cases hr : r = p
    · subst hr
      rw [update_self] at hrest
      exact (not_onList_none hrest).elim
    · rw [update_of_ne hr] at ih
      exact .next ih

/-- The way to `p` does not depend on the link of `p`. -/
theorem OnList.update_self (h : OnList link head p) : OnList (update link p x) head p := by
  generalize hq : p = q at h
  induction h with
  | here r => exact .here r
  | @next r q _ ih =>
    by_cases hr : r = q
    · subst hr
      exact .here r
    · refine .next ?_
      rw [update_of_ne (hq ▸ hr)]
      exact ih hq

/-- **An object that is linked in twice** makes a cycle. -/
theorem OnList.not_chain_again (h : OnList link head p) (l : List P) :
    ¬ Chain (update link p head) (some p) l := by
  intro hc
  cases l with
  | nil => exact absurd (Chain.nil_iff.1 hc) (by simp)
  | cons r t =>
    obtain ⟨hr, ht⟩ := Chain.cons_iff.1 hc
    obtain rfl : p = r := by simpa using hr
    rw [Function.update_self] at ht
    have hin := (ht.onList_iff_mem p).1 h.update_self
    exact (List.nodup_cons.1 hc.nodup).1 hin

end Again

end Jos
