import Jos.User.Malloc

/-!
# `malloc` and `free`, as their environment sees them

An environment sees pages, and whether they are marked `PTE_CONTINUED`: that is
its `View`.  Frames are shared after a `fork`, but what an environment does to its
own pages shows in its own view only (`Acts`).

* `storeWord_acts`, `sysPageUnmap_eq`, `sysPageAlloc_acts` — memory accesses and
  system calls.
* `free_acts`, `mallocFound_acts` — the two functions of `lib/malloc.c`, given what
  they find.
-/

namespace Jos.Malloc

open Jos.User Function

/-! ## Views -/

/-- What an environment sees of its pages. -/
@[ext] structure View where
  words : ℕ → Option (Idx → Word)
  cont : ℕ → Bool

namespace View

def map (V : View) (pn : ℕ) (b : Bool) (c : Idx → Word) : View :=
  ⟨update V.words pn (some c), update V.cont pn b⟩

def unmap (V : View) (pn : ℕ) : View := ⟨update V.words pn none, update V.cont pn false⟩

def store (V : View) (pn : ℕ) (c : Idx → Word) : View := ⟨update V.words pn (some c), V.cont⟩

end View

def Sys.view (s : Sys) (e : EnvIdx) : View := ⟨fun pn => s.words (e, pn), s.continued e⟩

/-- What holds between the calls, and within them. -/
structure Good (s : Sys) : Prop where
  priv : Cow.Private s.frame s.Writes
  supply : s.Supply s.free
  usable : ∀ e pn p, Arena pn → s.pt (e, pn) = some p →
    (p.writable = true ∨ p.cow = true) ∧ p.share = false
  cow : ∀ x p, s.pt x = some p → p.cow = true → p.continued = false

/-- The others see the same as before. -/
structure Only (e : EnvIdx) (s s' : Sys) : Prop where
  view : ∀ e', e' ≠ e → s'.view e' = s.view e'
  mptr : ∀ e', e' ≠ e → s'.mptr e' = s.mptr e'
  life : s'.life = s.life
  live : s'.live = s.live

/-- From `s` to `s'` the environment has changed its view to `V` and `mptr` to `m`. -/
structure Acts (e : EnvIdx) (s s' : Sys) (V : View) (m : ℕ) : Prop where
  good : Good s'
  only : Only e s s'
  view : s'.view e = V
  mptr : s'.mptr e = m

theorem Only.refl (e : EnvIdx) (s : Sys) : Only e s s :=
  ⟨fun _ _ => rfl, fun _ _ => rfl, rfl, rfl⟩

variable {e : EnvIdx} {s : Sys} {k pn n : ℕ}

theorem Only.trans {s₁ s₂ : Sys} (h : Only e s s₁) (h' : Only e s₁ s₂) :
    Only e s s₂ where
  view e' he := (h'.view e' he).trans (h.view e' he)
  mptr e' he := (h'.mptr e' he).trans (h.mptr e' he)
  life := h'.life.trans h.life
  live := h'.live.trans h.live

theorem Acts.refl (h : Good s) : Acts e s s (s.view e) (s.mptr e) :=
  ⟨h, .refl e s, rfl, rfl⟩

theorem Acts.trans {s₁ s₂ : Sys} {V₁ V₂ : View} {m₁ m₂ : ℕ} (h : Acts e s s₁ V₁ m₁)
    (h' : Acts e s₁ s₂ V₂ m₂) : Acts e s s₂ V₂ m₂ :=
  ⟨h'.good, h.only.trans h'.only, h'.view, h'.mptr⟩

/-! ## System calls and stores -/

section Primitives

variable {s : Sys} {e : EnvIdx} {pn : ℕ} {p : Pte} {c : Idx → Word} {r : List ℕ}

theorem frame_setPte (s : Sys) (x : Site) (q : Option Pte) :
    (s.setPte x q).frame = update s.frame x (q.map Pte.frame) := by
  funext y
  by_cases hy : y = x
  · subst hy
    simp [Sys.frame, Sys.setPte]
  · simp [Sys.frame, Sys.setPte, hy]

variable {x : Site}

theorem words_eq_some (h : s.words x = some c) : ∃ p, s.pt x = some p ∧ s.mem p.frame = c := by
  cases hp : s.pt x with
  | none =>
    rw [Sys.words, Cow.view, Sys.frame, hp] at h
    cases h
  | some p =>
    rw [Sys.words, Cow.view, Sys.frame, hp] at h
    exact ⟨p, rfl, Option.some.inj h⟩

theorem words_of_pt (h : s.pt x = some p) : s.words x = some (s.mem p.frame) := by
  rw [Sys.words, Cow.view, Sys.frame, h]
  rfl

theorem words_eq_none : s.words x = none ↔ s.pt x = none := by
  rw [Sys.words, Cow.view, Sys.frame, Option.map_eq_none_iff, Option.map_eq_none_iff]

/-- A change at one page is a change of one view. -/
theorem views_update {s' : Sys} {w : Option (Idx → Word)} {b : Bool}
    (hwords : s'.words = update s.words (e, pn) w)
    (hcont : ∀ x : Site, (s'.pt x).any Pte.continued
      = if x = (e, pn) then b else (s.pt x).any Pte.continued) :
    s'.view e = ⟨update (s.view e).words pn w, update (s.view e).cont pn b⟩ ∧
      ∀ e', e' ≠ e → s'.view e' = s.view e' := by
  refine ⟨?_, fun e' he => ?_⟩
  · have hsnd : ∀ pn', pn' ≠ pn → (e, pn') ≠ (e, pn) := fun pn' hy heq => hy (congrArg Prod.snd heq)
    ext1 <;> funext pn'
    · show s'.words (e, pn') = update (fun q => s.words (e, q)) pn w pn'
      rw [hwords]
      by_cases hy : pn' = pn
      · subst hy
        rw [update_self, update_self]
      · rw [update_of_ne hy, update_of_ne (hsnd pn' hy)]
    · show (s'.pt (e, pn')).any Pte.continued = update (s.continued e) pn b pn'
      rw [hcont]
      by_cases hy : pn' = pn
      · subst hy
        rw [update_self, if_pos rfl]
      · rw [update_of_ne hy, if_neg (hsnd pn' hy)]
        rfl
  · have hfst : ∀ pn', (e', pn') ≠ (e, pn) := fun pn' heq => he (congrArg Prod.fst heq)
    ext1 <;> funext pn'
    · show s'.words (e', pn') = s.words (e', pn')
      rw [hwords, update_of_ne (hfst pn')]
    · show (s'.pt (e', pn')).any Pte.continued = _
      rw [hcont, if_neg (hfst pn')]
      rfl

theorem any_update (x : Site) (q : Option Pte) (y : Site) :
    (update s.pt x q y).any Pte.continued
      = if y = x then q.any Pte.continued else (s.pt y).any Pte.continued := by
  by_cases hy : y = x
  · rw [hy, update_self, if_pos rfl]
  · rw [update_of_ne hy, if_neg hy]

/-- A frame of the supply, mapped at a page of the environment. -/
theorem acts_install (h : Good s) (hfree : s.free = p.frame :: r)
    (hp : p.writable = true ∨ p.cow = true) (hshare : p.share = false)
    (hcow : p.cow = true → p.continued = false) :
    Acts e s (s.install (e, pn) p c r) ((s.view e).map pn p.continued c) (s.mptr e) := by
  have hsup := h.supply
  rw [hfree] at hsup
  have hfresh : Cow.Fresh s.frame p.frame := hsup.fresh _ (List.mem_cons_self ..)
  have hframe : (s.install (e, pn) p c r).frame = update s.frame (e, pn) (some p.frame) :=
    frame_setPte s (e, pn) (some p)
  have hpt : ∀ y, y ≠ (e, pn) → (s.install (e, pn) p c r).pt y = s.pt y := fun y hy =>
    update_of_ne hy _ _
  have hself : (s.install (e, pn) p c r).pt (e, pn) = some p := update_self ..
  have hwords : (s.install (e, pn) p c r).words = update s.words (e, pn) (some c) := by
    funext y
    rw [Sys.words, hframe]
    exact congrFun (Cow.view_install hfresh) y
  obtain ⟨hview, hviews⟩ := views_update hwords (any_update (e, pn) (some p))
  refine ⟨⟨?_, ⟨?_, ?_⟩, ?_, ?_⟩, ⟨hviews, fun _ _ => rfl, rfl, rfl⟩, hview, rfl⟩
  · rw [hframe]
    refine h.priv.install hfresh fun y hy hw => ?_
    obtain ⟨q, hq, hqw⟩ := hw
    exact ⟨q, hpt y hy ▸ hq, hqw⟩
  · intro f hf
    rw [hframe]
    refine (hsup.fresh f (List.mem_cons_of_mem _ hf)).install ?_
    rintro rfl
    exact (List.nodup_cons.1 hsup.nodup).1 hf
  · exact (List.nodup_cons.1 hsup.nodup).2
  · intro e' pn' q ha hq
    by_cases hy : (e', pn') = (e, pn)
    · rw [hy, hself] at hq
      cases hq
      exact ⟨hp, hshare⟩
    · rw [hpt _ hy] at hq
      exact h.usable e' pn' q ha hq
  · intro y q hq
    by_cases hy : y = (e, pn)
    · rw [hy, hself] at hq
      cases hq
      exact hcow
    · rw [hpt _ hy] at hq
      exact h.cow y q hq

/-- Entries that are taken away leave the rest as good as it was. -/
theorem Good.mono {s' : Sys} (h : Good s) (hpt : ∀ x q, s'.pt x = some q → s.pt x = some q)
    (hfree : s'.free = s.free) : Good s' := by
  have hframe : ∀ x f, s'.frame x = some f → s.frame x = some f := by
    intro x f hx
    obtain ⟨q, hq, rfl⟩ := Option.map_eq_some_iff.1 hx
    exact Option.map_eq_some_iff.2 ⟨q, hpt x q hq, rfl⟩
  refine ⟨?_, ⟨?_, ?_⟩, fun e pn q ha hq => h.usable e pn q ha (hpt _ q hq),
    fun x q hq => h.cow x q (hpt x q hq)⟩
  · refine h.priv.mono hframe fun y _ hw => ?_
    obtain ⟨q, hq, hqw⟩ := hw
    exact ⟨q, hpt y q hq, hqw⟩
  · intro f hf
    rw [hfree] at hf
    exact (h.supply.fresh f hf).mono fun y g hy => ⟨y, hframe y g hy⟩
  · rw [hfree]
    exact h.supply.nodup

theorem acts_unmap (h : Good s) (e : EnvIdx) (pn : ℕ) :
    Acts e s (s.setPte (e, pn) none) ((s.view e).unmap pn) (s.mptr e) := by
  have hwords : (s.setPte (e, pn) none).words = update s.words (e, pn) none := by
    funext y
    rw [Sys.words, frame_setPte]
    exact congrFun Cow.view_remove y
  obtain ⟨hview, hviews⟩ := views_update hwords (any_update (e, pn) none)
  refine ⟨h.mono (fun x q hq => ?_) rfl, ⟨hviews, fun _ _ => rfl, rfl, rfl⟩, hview, rfl⟩
  change update s.pt (e, pn) none x = some q at hq
  by_cases hx : x = (e, pn)
  · rw [hx, update_self] at hq
    cases hq
  · rwa [update_of_ne hx] at hq

/-- A store to a page that can be written to. -/
theorem acts_setWord (h : Good s) (hp : s.pt (e, pn) = some p) (hw : p.writable = true)
    (hs : p.share = false) (i : Idx) (w : Word) :
    Acts e s (s.setWord p.frame i w) ((s.view e).store pn (update (s.mem p.frame) i w))
      (s.mptr e) := by
  have hframe : s.frame (e, pn) = some p.frame := by rw [Sys.frame, hp]; rfl
  have hwords : (s.setWord p.frame i w).words
      = update s.words (e, pn) (some (update (s.mem p.frame) i w)) :=
    Cow.view_write h.priv ⟨p, hp, hw, hs⟩ hframe
  have hcont : ∀ x : Site, ((s.setWord p.frame i w).pt x).any Pte.continued
      = if x = (e, pn) then s.continued e pn else (s.pt x).any Pte.continued := by
    intro x
    split
    · next hx => rw [hx]; rfl
    · rfl
  obtain ⟨hview, hviews⟩ := views_update hwords hcont
  refine ⟨h.mono (fun _ _ hq => hq) rfl, ⟨hviews, fun _ _ => rfl, rfl, rfl⟩, ?_, rfl⟩
  rw [hview]
  ext1
  · rfl
  · exact update_eq_self pn (s.continued e)

theorem acts_setMptr (h : Good s) (e : EnvIdx) (m : ℕ) :
    Acts e s (s.setMptr e m) (s.view e) m :=
  ⟨h.mono (fun _ _ hq => hq) rfl, ⟨fun _ _ => rfl, fun _ he => update_of_ne he _ _, rfl, rfl⟩, rfl,
    update_self ..⟩

/-- A store to a page of the arena, with or without `pgfault`. -/
theorem storeWord_acts (h : Good s) (ha : Arena pn) (hc : s.words (e, pn) = some c) (i : Idx)
    (w : Word) :
    (∃ s', storeWord e pn i w s = .ok () s' ∧
      Acts e s s' ((s.view e).store pn (update c i w)) (s.mptr e)) ∨
    (¬ s.Writes (e, pn) ∧ s.free = [] ∧ storeWord e pn i w s = .error .noMem s) := by
  obtain ⟨p, hp, rfl⟩ := words_eq_some hc
  obtain ⟨huse, hshare⟩ := h.usable e pn p ha hp
  rw [storeWord, run_get_bind]
  simp only [hp]
  by_cases hw : p.writable = true
  · rw [if_pos hw]
    exact Or.inl ⟨_, rfl, acts_setWord h hp hw hshare i w⟩
  · have hcow : p.cow = true := huse.resolve_left hw
    rw [if_neg hw, if_pos hcow]
    cases hf : s.free with
    | nil =>
      refine Or.inr ⟨?_, rfl, rfl⟩
      rintro ⟨q, hq, hqw, -⟩
      rw [hp] at hq
      cases hq
      exact hw hqw
    | cons f r =>
      -- `pgfault` gives the page a frame of its own with the same contents
      set q : Pte := ⟨f, true, false, false, false⟩ with hq
      have hcopy : Acts e s (s.install (e, pn) q (s.mem p.frame) r) _ _ :=
        acts_install h hf (Or.inl rfl) rfl (fun _ => rfl)
      have hmem : (s.install (e, pn) q (s.mem p.frame) r).mem f = s.mem p.frame := update_self ..
      have hset := acts_setWord hcopy.good (update_self ..) rfl rfl i w (p := q)
      have hboth := hcopy.trans hset
      refine Or.inl ⟨_, rfl, hboth.good, hboth.only, hboth.view.trans ?_, hboth.mptr⟩
      have hnot : s.continued e pn = false := by
        rw [Sys.continued, hp]
        exact h.cow _ p hp hcow
      rw [hcopy.view]
      ext1
      · show update (update (s.view e).words pn _) pn _ = update (s.view e).words pn _
        rw [update_idem, hmem]
      · show update (s.continued e) pn false = s.continued e
        rw [← hnot, update_eq_self]

/-- The word that a page of the arena holds. -/
theorem loadWord_ok (hc : s.words (e, pn) = some c) (i : Idx) :
    loadWord e pn i s = .ok (c i) s := by
  obtain ⟨p, hp, rfl⟩ := words_eq_some hc
  rw [loadWord, run_get_bind]
  simp only [hp]
  rfl

theorem sysPageUnmap_eq (s : Sys) (e : EnvIdx) (hpn : pn < utopPage) :
    sysPageUnmap e pn s = .ok () (s.setPte (e, pn) none) := by
  rw [sysPageUnmap, if_neg (Nat.not_le.2 hpn)]
  rfl

theorem sysPageAlloc_acts (h : Good s) (hpn : pn < utopPage) (b : Bool) :
    (∃ s', sysPageAlloc e pn b s = .ok true s' ∧
      Acts e s s' ((s.view e).map pn b fun _ => 0#32) (s.mptr e)) ∨
    sysPageAlloc e pn b s = .ok false s := by
  rw [sysPageAlloc, run_get_bind, if_neg (Nat.not_le.2 hpn)]
  cases hf : s.free with
  | nil => exact Or.inr rfl
  | cons f r =>
    exact Or.inl ⟨_, rfl, acts_install (p := ⟨f, true, false, false, b⟩) h hf (Or.inl rfl) rfl
      (fun hcow => absurd hcow Bool.false_ne_true)⟩

end Primitives

/-! ## `free` -/

namespace View

/-- `k` pages from `c` on are unmapped. -/
def release (V : View) (c k : ℕ) : View where
  words pn := if c ≤ pn ∧ pn < c + k then none else V.words pn
  cont pn := if c ≤ pn ∧ pn < c + k then false else V.cont pn

/-- The count of page `pn`, which holds `c`, goes down by one, and the page is
unmapped if nothing is left. -/
def drop (V : View) (pn : ℕ) (c : Idx → Word) : View :=
  if c refIdx - 1#32 = 0#32 then V.unmap pn
  else V.store pn (update c refIdx (c refIdx - 1#32))

theorem release_zero (V : View) (c : ℕ) : V.release c 0 = V := by
  ext1 <;> funext pn <;> exact if_neg (by omega)

theorem release_words (V : View) (c k pn : ℕ) :
    (V.release c k).words pn = if c ≤ pn ∧ pn < c + k then none else V.words pn := rfl

theorem release_cont (V : View) (c k pn : ℕ) :
    (V.release c k).cont pn = if c ≤ pn ∧ pn < c + k then false else V.cont pn := rfl

/-- One page more. -/
theorem release_unmap (V : View) {d c c' k' : ℕ}
    (h : ∀ pn, (c' ≤ pn ∧ pn < c' + k') ↔ (pn = d ∨ (c ≤ pn ∧ pn < c + k))) :
    (V.unmap d).release c k = V.release c' k' := by
  have hone : ∀ {α : Type} (f : ℕ → α) (a : α) (pn : ℕ),
      (if c ≤ pn ∧ pn < c + k then a else update f d a pn)
        = if c' ≤ pn ∧ pn < c' + k' then a else f pn := by
    intro α f a pn
    by_cases hpn : pn = d
    · rw [if_pos ((h pn).2 (Or.inl hpn)), hpn, update_self, ite_self]
    · rw [update_of_ne hpn]
      exact if_congr (by rw [h, or_iff_right hpn]) rfl rfl
  ext1 <;> funext pn
  · exact hone V.words none pn
  · exact hone V.cont false pn

end View

section Free

variable {e : EnvIdx}

/-- The loop of `free` unmaps the pages with the mark and stops at the first one without. -/
theorem freeLoop_acts : ∀ (k fuel c : ℕ) {s : Sys}, Good s → k < fuel →
    (∀ j < k, s.continued e (c + j) = true) → s.continued e (c + k) = false →
    c + k < utopPage →
    ∃ s', freeLoop e fuel c s = .ok (c + k) s' ∧ Acts e s s' ((s.view e).release c k) (s.mptr e) ∧
      s'.free = s.free ∧ s'.pt (e, c + k) = s.pt (e, c + k) := by
  intro k
  induction k with
  | zero =>
    intro fuel c s h hfuel _ hstop _
    obtain ⟨fuel, rfl⟩ : ∃ f, fuel = f + 1 := ⟨fuel - 1, by omega⟩
    refine ⟨s, ?_, ?_, rfl, rfl⟩
    · have hmark : ¬ s.continued e c = true := Bool.not_eq_true _ ▸ hstop
      rw [freeLoop, run_get_bind, if_neg hmark]
      rfl
    · rw [View.release_zero]
      exact .refl h
  | succ k ih =>
    intro fuel c s h hfuel hcont hstop htop
    obtain ⟨fuel, rfl⟩ : ∃ f, fuel = f + 1 := ⟨fuel - 1, by omega⟩
    have hc : c < utopPage := by omega
    have hun := acts_unmap h e c
    set s₁ := s.setPte (e, c) none with hs₁
    have hpt : ∀ pn, pn ≠ c → s₁.pt (e, pn) = s.pt (e, pn) := fun pn hpn =>
      update_of_ne (fun heq => hpn (congrArg Prod.snd heq)) _ _
    have hsame : ∀ pn, pn ≠ c → s₁.continued e pn = s.continued e pn := fun pn hpn => by
      rw [Sys.continued, hpt pn hpn]
      rfl
    have hadd : c + 1 + k = c + (k + 1) := by omega
    obtain ⟨s', hrun, hacts, hfree, hpt'⟩ := ih fuel (c + 1) hun.good (by omega)
      (fun j hj => by
        rw [hsame _ (by omega), Nat.add_assoc, Nat.add_comm 1 j]
        exact hcont (j + 1) (by omega))
      (by rw [hsame _ (by omega), hadd]; exact hstop) (by omega)
    refine ⟨s', ?_, ?_, hfree, ?_⟩
    · have hmark : s.continued e c = true := hcont 0 (by omega)
      rw [freeLoop, run_get_bind, if_pos hmark, run_bind_ok (sysPageUnmap_eq s e hc), hrun, hadd]
    · have hrel : ((s.view e).unmap c).release (c + 1) k = (s.view e).release c (k + 1) :=
        View.release_unmap _ fun pn => by omega
      rw [hun.view, hrel, hun.mptr] at hacts
      exact hun.trans hacts
    · rw [← hadd, hpt', hpt _ (by omega)]

/-- What `free` does with the count. -/
theorem freeRef_acts {c : Idx → Word} (h : Good s) (ha : Arena pn) (hc : s.words (e, pn) = some c) :
    (∃ s', freeRef e pn s = .ok () s' ∧ Acts e s s' ((s.view e).drop pn c) (s.mptr e)) ∨
    (¬ s.Writes (e, pn) ∧ s.free = [] ∧ freeRef e pn s = .error .noMem s) := by
  rw [freeRef, run_bind_ok (loadWord_ok hc refIdx)]
  rcases storeWord_acts h ha hc refIdx (c refIdx - 1#32) with ⟨s₁, hrun, hacts⟩ | ⟨hw, hf, hrun⟩
  · left
    rw [run_bind_ok hrun]
    by_cases hz : c refIdx - 1#32 = 0#32
    · have htop : pn < utopPage := lt_of_lt_of_le ha.2 (by decide)
      rw [if_pos hz, sysPageUnmap_eq s₁ e htop]
      refine ⟨_, rfl, ?_⟩
      have hun := hacts.trans (acts_unmap hacts.good e pn)
      rw [hacts.view, hacts.mptr] at hun
      rw [View.drop, if_pos hz]
      refine ⟨hun.good, hun.only, hun.view.trans ?_, hun.mptr⟩
      ext1
      · exact update_idem ..
      · rfl
    · rw [if_neg hz, View.drop, if_neg hz]
      exact ⟨_, rfl, hacts⟩
  · exact Or.inr ⟨hw, hf, run_bind_error hrun⟩

/-- **`free`** of an address in page `c`: the `k` pages with the mark are unmapped, and
the count of the page after them goes down. -/
theorem free_acts {v : ℕ} {c : Idx → Word} (h : Good s) (hv : mbegin ≤ v ∧ v < mend)
    (hcont : ∀ j < k, s.continued e (v / PGSIZE + j) = true)
    (hstop : s.continued e (v / PGSIZE + k) = false) (ha : Arena (v / PGSIZE + k))
    (hc : s.words (e, v / PGSIZE + k) = some c) :
    (∃ s', free e v s = .ok () s' ∧
      Acts e s s' (((s.view e).release (v / PGSIZE) k).drop (v / PGSIZE + k) c) (s.mptr e)) ∨
    (¬ s.Writes (e, v / PGSIZE + k) ∧ s.free = [] ∧
      ∃ s', free e v s = .error .noMem s' ∧ Good s' ∧ Only e s s') := by
  have hv0 : v ≠ 0 := by
    rintro rfl
    exact absurd hv.1 (by decide)
  have htop : v / PGSIZE + k < utopPage := lt_of_lt_of_le ha.2 (by decide)
  have hfuel : k < mend / PGSIZE - v / PGSIZE := by
    have hend : mend / PGSIZE = 0x10000 := by decide
    have := ha.2
    omega
  obtain ⟨s₁, hrun, hacts, hfree, hpt⟩ := freeLoop_acts k _ _ h hfuel hcont hstop htop
  have hc₁ : s₁.words (e, v / PGSIZE + k) = some c := by
    have hv₁ : s₁.words (e, v / PGSIZE + k) = ((s.view e).release (v / PGSIZE) k).words
        (v / PGSIZE + k) := congrFun (congrArg View.words hacts.view) _
    rw [hv₁, View.release_words, if_neg (by omega)]
    exact hc
  rw [free, if_neg hv0, if_pos hv, run_bind_ok hrun]
  rcases freeRef_acts hacts.good ha hc₁ with ⟨s', hrun', hacts'⟩ | ⟨hw, hf, hrun'⟩
  · rw [hacts.view, hacts.mptr] at hacts'
    exact Or.inl ⟨s', hrun', hacts.trans hacts'⟩
  · refine Or.inr ⟨fun hw' => hw ?_, hfree ▸ hf, s₁, hrun', hacts.good, hacts.only⟩
    obtain ⟨p, hp, hpw⟩ := hw'
    exact ⟨p, hpt ▸ hp, hpw⟩

end Free

/-! ## `malloc` -/

/-- The start of a page between `mbegin` and `mend`. -/
structure AtPage (m : ℕ) : Prop where
  lo : mbegin ≤ m
  hi : m < mend
  page : m % PGSIZE = 0

theorem atPage_mbegin : AtPage mbegin := ⟨le_refl _, by decide, by decide⟩

section Seek

variable {s : Sys} {e : EnvIdx} {n m : ℕ}

/-- What `isfree` has looked at. -/
theorem isfree_below (h : isfree s e m n = true) (hhi : m < mend) (hpage : m % PGSIZE = 0)
    (hn : n < 2 ^ 21) {j : ℕ} (hj : j < pagesFor n) :
    m / PGSIZE + j < 0x10000 ∧ s.pt (e, m / PGSIZE + j) = none := by
  have hcount : ((m + n) % 2 ^ 32 - m + (PGSIZE - 1)) / PGSIZE = pagesFor n := by
    simp only [pagesFor, PGSIZE, mend] at hhi ⊢
    omega
  rw [isfree, hcount, List.all_eq_true] at h
  have hk := h j (List.mem_range.2 hj)
  rw [Bool.and_eq_true, decide_eq_true_eq, Option.isNone_iff_eq_none] at hk
  refine ⟨?_, hk.2⟩
  have hend := hk.1
  simp only [mend, PGSIZE] at hend hpage ⊢
  omega

theorem isfree_pages (h : isfree s e m n = true) (hm : AtPage m) (hn : n < 2 ^ 21) {j : ℕ}
    (hj : j < pagesFor n) : Arena (m / PGSIZE + j) ∧ s.pt (e, m / PGSIZE + j) = none := by
  obtain ⟨hlt, hnone⟩ := isfree_below h hm.hi hm.page hn hj
  have hlo := hm.lo
  refine ⟨⟨?_, hlt⟩, hnone⟩
  simp only [mbegin, PGSIZE] at hlo ⊢
  omega

/-- The search ends, and at pages that are free unless it has been through them all. -/
theorem seek_cases : ∀ (fuel nwrap m : ℕ), AtPage m → nwrap ≤ 1 →
    (1 - nwrap) * 32768 + (mend - m) / PGSIZE ≤ fuel →
    (∃ m', seek s e n fuel nwrap m = .found m' ∧ AtPage m' ∧ isfree s e m' n = true) ∨
    seek s e n fuel nwrap m = .full := by
  intro fuel
  induction fuel with
  | zero =>
    intro nwrap m hm _ hfuel
    have hhi := hm.hi
    have hpage := hm.page
    simp only [mend, PGSIZE] at hhi hpage hfuel
    omega
  | succ fuel ih =>
    intro nwrap m hm hwrap hfuel
    have hlo := hm.lo
    have hhi := hm.hi
    have hpage := hm.page
    rw [seek]
    by_cases hfree : isfree s e m n = true
    · rw [if_pos hfree]
      exact Or.inl ⟨m, rfl, hm, hfree⟩
    · rw [if_neg hfree]
      have hnext : (m + PGSIZE) % 2 ^ 32 = m + PGSIZE := by
        simp only [mend, PGSIZE] at hhi ⊢
        omega
      rw [hnext]
      by_cases hend : m + PGSIZE = mend
      · rw [if_pos hend]
        by_cases htwo : nwrap + 1 = 2
        · rw [if_pos htwo]
          exact Or.inr rfl
        · rw [if_neg htwo]
          obtain rfl : nwrap = 0 := by omega
          refine ih 1 mbegin atPage_mbegin (le_refl 1) ?_
          have hone : (mend - m) / PGSIZE = 1 := by
            simp only [PGSIZE] at hend ⊢
            omega
          have hall : (1 - 1) * 32768 + (mend - mbegin) / PGSIZE = 32768 := by decide
          rw [hone] at hfuel
          rw [hall]
          exact Nat.le_of_succ_le_succ hfuel
      · rw [if_neg hend]
        refine ih nwrap (m + PGSIZE) ⟨by omega, ?_, ?_⟩ hwrap ?_
        · simp only [mend, PGSIZE] at hhi hpage hend ⊢
          omega
        · simp only [PGSIZE] at hpage ⊢
          omega
        · simp only [PGSIZE] at hfuel hend ⊢
          simp only [mend, PGSIZE] at hhi hfuel hpage hend ⊢
          omega

/-- The fuel is enough from everywhere. -/
theorem AtPage.seek_cases (hm : AtPage m) :
    (∃ m', seek s e n seekFuel 0 m = .found m' ∧ AtPage m' ∧ isfree s e m' n = true) ∨
      seek s e n seekFuel 0 m = .full := by
  refine Malloc.seek_cases _ 0 m hm (Nat.zero_le 1) ?_
  have hlo := hm.lo
  simp only [mend, mbegin, PGSIZE, seekFuel] at hlo ⊢
  omega

end Seek

namespace View

/-- `k` new pages from `pn` on, for a block of `n` bytes. -/
def fill (V : View) (pn n k : ℕ) : View where
  words q := if pn ≤ q ∧ q < pn + k then some fun _ => 0#32 else V.words q
  cont q := if pn ≤ q ∧ q < pn + k then decide ((q - pn) * PGSIZE + PGSIZE < n) else V.cont q

theorem fill_words (V : View) (pn n k q : ℕ) : (V.fill pn n k).words q
    = if pn ≤ q ∧ q < pn + k then some fun _ => 0#32 else V.words q := rfl

theorem fill_cont (V : View) (pn n k q : ℕ) : (V.fill pn n k).cont q
    = if pn ≤ q ∧ q < pn + k then decide ((q - pn) * PGSIZE + PGSIZE < n) else V.cont q := rfl

theorem fill_zero (V : View) (pn n : ℕ) : V.fill pn n 0 = V := by
  ext1 <;> funext q <;> exact if_neg (by omega)

/-- One page more. -/
theorem fill_map (V : View) (pn n k : ℕ) :
    (V.fill pn n k).map (pn + k) (decide (k * PGSIZE + PGSIZE < n)) (fun _ => 0#32)
      = V.fill pn n (k + 1) := by
  have hout : ∀ q, q ≠ pn + k → ((pn ≤ q ∧ q < pn + k) ↔ (pn ≤ q ∧ q < pn + (k + 1))) := by
    intro q hq
    omega
  have hself : pn ≤ pn + k ∧ pn + k < pn + (k + 1) := by omega
  ext1 <;> funext q
  · show update (V.fill pn n k).words (pn + k) _ q = _
    rw [fill_words]
    by_cases hq : q = pn + k
    · rw [hq, update_self, if_pos hself]
    · rw [update_of_ne hq, fill_words]
      exact if_congr (hout q hq) rfl rfl
  · show update (V.fill pn n k).cont (pn + k) _ q = _
    rw [fill_cont]
    by_cases hq : q = pn + k
    · rw [hq, update_self, if_pos hself, Nat.add_sub_cancel_left]
    · rw [update_of_ne hq, fill_cont]
      exact if_congr (hout q hq) rfl rfl

/-- What was mapped is unmapped again. -/
theorem fill_release {V : View}
    (h : ∀ j < k + 1, V.words (pn + j) = none ∧ V.cont (pn + j) = false) :
    (V.fill pn n k).release pn (k + 1) = V := by
  ext1 <;> funext q
  · rw [release_words]
    by_cases hq : pn ≤ q ∧ q < pn + (k + 1)
    · have hnone := (h (q - pn) (by omega)).1
      rw [Nat.add_sub_cancel' hq.1] at hnone
      rw [if_pos hq, hnone]
    · rw [if_neg hq, fill_words, if_neg (by omega)]
  · rw [release_cont]
    by_cases hq : pn ≤ q ∧ q < pn + (k + 1)
    · have hnone := (h (q - pn) (by omega)).2
      rw [Nat.add_sub_cancel' hq.1] at hnone
      rw [if_pos hq, hnone]
    · rw [if_neg hq, fill_cont, if_neg (by omega)]

end View

section Malloc

variable {e : EnvIdx}

/-- The loop that gives pages back. -/
theorem unmapAll_acts : ∀ (k pn : ℕ) {s : Sys}, Good s → pn + k ≤ utopPage →
    ∃ s', ((List.range k).reverse.forM fun j => sysPageUnmap e (pn + j)) s = .ok ⟨⟩ s' ∧
      Acts e s s' ((s.view e).release pn k) (s.mptr e) := by
  intro k
  induction k with
  | zero =>
    intro pn s h _
    refine ⟨s, rfl, ?_⟩
    rw [View.release_zero]
    exact .refl h
  | succ k ih =>
    intro pn s h htop
    have hun := acts_unmap h e (pn + k)
    obtain ⟨s', hrun, hacts⟩ := ih pn hun.good (by omega)
    have hrel : ((s.view e).unmap (pn + k)).release pn k = (s.view e).release pn (k + 1) :=
      View.release_unmap _ fun q => by omega
    rw [hun.view, hun.mptr, hrel] at hacts
    refine ⟨s', ?_, hun.trans hacts⟩
    rw [List.range_succ, List.reverse_append]
    exact (run_bind_ok (sysPageUnmap_eq s e (by omega))).trans hrun

/-- The pages of a block are all mapped, or none of them is. -/
theorem mapPages_acts {V : View} : ∀ (left k : ℕ) {s : Sys}, Good s →
    s.view e = V.fill pn n k → (∀ j < k + left, V.words (pn + j) = none ∧ V.cont (pn + j) = false) →
    pn + k + left ≤ utopPage →
    ∃ ok s', mapPages e pn n left k s = .ok ok s' ∧
      Acts e s s' (if ok then V.fill pn n (k + left) else V) (s.mptr e) := by
  intro left
  induction left with
  | zero =>
    intro k s h hview _ _
    refine ⟨true, s, rfl, ?_⟩
    rw [if_pos rfl, Nat.add_zero, ← hview]
    exact .refl h
  | succ left ih =>
    intro k s h hview hnone htop
    have hk : pn + k < utopPage := by omega
    rw [mapPages]
    rcases sysPageAlloc_acts (e := e) h hk (decide (k * PGSIZE + PGSIZE < n)) with
      ⟨s₁, hrun, hacts⟩ | hrun
    · rw [hview, View.fill_map] at hacts
      have hsum : k + 1 + left = k + (left + 1) := by omega
      obtain ⟨ok, s', hrest, hacts'⟩ := ih (k + 1) hacts.good hacts.view
        (fun j hj => hnone j (by omega)) (by omega)
      rw [hsum, hacts.mptr] at hacts'
      refine ⟨ok, s', ?_, hacts.trans hacts'⟩
      rw [run_bind_ok hrun, if_pos rfl]
      exact hrest
    · obtain ⟨s', hun, hacts⟩ := unmapAll_acts (k + 1) pn (e := e) h (by omega)
      rw [hview, View.fill_release fun j hj => hnone j (by omega)] at hacts
      refine ⟨false, s', ?_, hacts⟩
      rw [run_bind_ok hrun, if_neg Bool.false_ne_true, run_bind_ok hun]
      rfl

/-- Pages have been found that are not mapped: they are mapped and get a count on the
last one; or a null pointer is returned, or `malloc` panics. -/
theorem mallocFound_acts {v : ℕ} (h : Good s) (hv : AtPage v) (hfree : isfree s e v (n + 4) = true)
    (hn : n < MAXMALLOC) :
    (∃ s', mallocFound e n (.found v) s = .ok 0 s' ∧ Acts e s s' (s.view e) v) ∨
    (∃ s', mallocFound e n (.found v) s = .ok v s' ∧
      (∀ j < pagesFor (n + 4), Arena (v / PGSIZE + j) ∧ s.pt (e, v / PGSIZE + j) = none) ∧
      Acts e s s' (((s.view e).fill (v / PGSIZE) (n + 4) (pagesFor (n + 4))).store
        (v / PGSIZE + pagesFor (n + 4) - 1) (update (fun _ => 0#32) refIdx 2#32)) (v + n)) ∨
    ∃ s', mallocFound e n (.found v) s = .error .noMem s' ∧ Good s' ∧ Only e s s' := by
  have hn4 : n + 4 < 2 ^ 21 := by
    simp only [MAXMALLOC] at hn
    omega
  rw [mallocFound, run_modify_bind]
  have hpages := fun j hj => isfree_pages hfree hv hn4 (j := j) hj
  have hset := acts_setMptr h e v
  have hcount : 0 < pagesFor (n + 4) := by
    simp only [pagesFor, PGSIZE]
    omega
  have hlast := hpages (pagesFor (n + 4) - 1) (by omega)
  have htop : v / PGSIZE + 0 + pagesFor (n + 4) ≤ utopPage := by
    have hend : v / PGSIZE + (pagesFor (n + 4) - 1) < 0x10000 := hlast.1.2
    have hutop : 0x10000 ≤ utopPage := by decide
    omega
  have hnone : ∀ j < 0 + pagesFor (n + 4), (s.view e).words (v / PGSIZE + j) = none ∧
      (s.view e).cont (v / PGSIZE + j) = false := by
    intro j hj
    have hpt := (hpages j (by omega)).2
    refine ⟨words_eq_none.2 hpt, ?_⟩
    show (s.pt _).any _ = false
    rw [hpt]
    rfl
  obtain ⟨ok, s₁, hmap, hacts⟩ := mapPages_acts (n := n + 4) (pagesFor (n + 4)) 0 hset.good
    (by rw [View.fill_zero]; exact hset.view) hnone htop
  rw [hset.mptr, Nat.zero_add] at hacts
  rw [run_bind_ok hmap]
  cases ok with
  | false => exact Or.inl ⟨s₁, rfl, hset.trans hacts⟩
  | true =>
    rw [← Nat.add_sub_assoc (Nat.succ_le_of_lt hcount)] at hlast
    have hw₁ : s₁.words (e, v / PGSIZE + pagesFor (n + 4) - 1) = some fun _ => 0#32 := by
      have hview := congrFun (congrArg View.words hacts.view)
        (v / PGSIZE + pagesFor (n + 4) - 1)
      have hin : ∀ q, q ≤ q + pagesFor (n + 4) - 1 ∧
          q + pagesFor (n + 4) - 1 < q + pagesFor (n + 4) := fun q => by omega
      rw [if_pos rfl, View.fill_words, if_pos (hin _)] at hview
      exact hview
    have hboth := hset.trans hacts
    rw [if_pos rfl]
    rcases storeWord_acts hacts.good hlast.1 hw₁ refIdx 2#32 with ⟨s₂, hst, hst'⟩ | ⟨-, -, hst⟩
    · right; left
      rw [run_bind_ok hst]
      have hmp := acts_setMptr hst'.good e (v + n)
      rw [hst'.view, hacts.view, if_pos rfl] at hmp
      exact ⟨_, rfl, hpages, (hboth.trans hst').trans hmp⟩
    · right; right
      rw [run_bind_error hst]
      exact ⟨s₁, rfl, hacts.good, hboth.only⟩

end Malloc

end Jos.Malloc
