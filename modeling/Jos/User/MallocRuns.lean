import Jos.User.MallocCalls

/-!
# What `free` gives back

The invariant of the heap along the runs of a program that calls `malloc`, `free`
and `fork`.

* `malloc_inv` — `malloc`, with few blocks.
* `Inv.step`, `Inv.run` — all steps, and all runs.
* `free_exact` — what `free` gives back in these runs.
* `free_after_fork`, `not_exact_of_page_end`, `seek_from_mend` — what happens in
  others.
-/

namespace Jos.Malloc

open Jos.User Function

/-! ## The calls -/

section Calls

variable {s : Sys} {e : EnvIdx} {L : List Block} {n : ℕ}

/-- What `malloc` leaves when it returns `v`. -/
structure Mallocs (e : EnvIdx) (n : ℕ) (L : List Block) (s : Sys) (v : ℕ) (s' : Sys) : Prop where
  good : Good s'
  only : Only e s s'
  heap : HeapInv (s'.view e) (s'.mptr e) (if v = 0 then L else ⟨v, n, false⟩ :: L)
  /-- What is mapped now and was not before is for the new block. -/
  maps : ∀ q, s'.words (e, q) ≠ none →
    s.words (e, q) ≠ none ∨ v ≠ 0 ∧ (⟨v, n, false⟩ : Block).Covers q

/-- **`malloc`** keeps the heap in order. -/
theorem malloc_inv {n : Word} (h : Good s) (hi : HeapInv (s.view e) (s.mptr e) L)
    (hc : roundUp4 n < MAXMALLOC → L.length + 1 < 2 ^ 31 - 1 ∧
      (s.mptr e % PGSIZE = 0 ∨ Fits (s.mptr e) (roundUp4 n) ∨
        s.mptr e / PGSIZE + 1 < mend / PGSIZE)) :
    (∃ v s', malloc e n s = .ok v s' ∧ Mallocs e (roundUp4 n) L s v s') ∨
      Fails e (malloc e n) s := by
  rcases malloc_ends h hi.toHeap fun hn => (hc hn).2 with
    ⟨v, s', V', m', hrun, ha, hout, -⟩ | ⟨-, hfail⟩
  · refine Or.inl ⟨v, s', hrun, ha.good, ha.only, ?_, fun q hq => ?_⟩
    · have hheap := hi.toHeap.outcome (Nat.mul_mod_left _ _) (fun _ _ => hi.noWrap _) hout
      rw [ha.view, ha.mptr]
      refine ⟨hheap, ?_⟩
      by_cases hv : v = 0
      · rw [if_pos hv]
        exact hi.few
      · rw [if_neg hv, List.length_cons]
        exact (hc (hout.small hv)).1
    · rw [show s'.words (e, q) = V'.words q from congrFun (congrArg View.words ha.view) q] at hq
      exact hout.maps hq
  · exact Or.inr hfail

end Calls

/-! ## Runs -/

/-- What holds in every run. -/
structure Inv (s : Sys) : Prop where
  good : Good s
  heap : ∀ e, s.life e = .running → HeapInv (s.view e) (s.mptr e) (s.live e)
  idle : ∀ e, s.life e ≠ .running → s.live e = []

variable {s : Sys} {l : List ℕ} {x : Site} {e : EnvIdx} {n : ℕ}

theorem Inv.start (h : s.Start) : Inv s := by
  have hnone : ∀ e q, Arena q → s.words (e, q) = none := fun e q hq =>
    words_eq_none.2 (h.arena e q hq)
  refine ⟨⟨?_, ⟨?_, ?_⟩, ?_, h.cow⟩, fun e _ => ?_, fun e _ => h.live e⟩
  · rintro x y f ⟨p, hp, hw, hs⟩ hx hy
    obtain ⟨q, hq, rfl⟩ := Option.map_eq_some_iff.1 hy
    obtain ⟨p', hp', hf⟩ := Option.map_eq_some_iff.1 hx
    rw [hp] at hp'
    cases hp'
    exact h.alone x y p q hp hq hw hs hf
  · rw [h.free]
    exact fun f hf => absurd hf List.not_mem_nil
  · rw [h.free]
    exact List.nodup_nil
  · intro e q p hq hp
    rw [h.arena e q hq] at hp
    cases hp
  · rw [h.live, h.mptr]
    refine ⟨⟨Or.inl rfl, rfl, fun hne => absurd rfl hne, ?_, .nil, ?_, ?_⟩, by decide⟩
    · exact fun b hb => absurd hb List.not_mem_nil
    · intro q hq hc
      change (s.pt (e, q)).any _ = true at hc
      rw [h.arena e q hq] at hc
      cases hc
    · intro q c hq hc
      rw [show (s.view e).words q = none from hnone e q hq] at hc
      cases hc

section Steps

variable {s s' : Sys} {e : EnvIdx}

theorem Good.refill (h : Good s) (hl : s.Supply l) : Good { s with free := l } :=
  ⟨h.priv, ⟨hl.fresh, hl.nodup⟩, h.usable, h.cow⟩

theorem setLive_self (s : Sys) (e : EnvIdx) (L : List Block) : (s.setLive e L).live e = L :=
  update_self ..

theorem setLive_of_ne {e' : EnvIdx} (he : e' ≠ e) (L : List Block) :
    (s.setLive e L).live e' = s.live e' := update_of_ne he _ _

/-- A call that returns. -/
theorem Inv.returns (h : Inv s) (hrun : s.life e = .running) (hg : Good s') (ho : Only e s s')
    {L : List Block} (hi : HeapInv (s'.view e) (s'.mptr e) L) : Inv (s'.setLive e L) := by
  refine ⟨hg.mono (fun _ _ hq => hq) rfl, fun e' he' => ?_, fun e' he' => ?_⟩
  · by_cases heq : e' = e
    · rw [heq, setLive_self]
      exact hi
    · have hold := h.heap e' (ho.life ▸ he')
      rw [← ho.view e' heq, ← ho.mptr e' heq, ← ho.live] at hold
      rw [setLive_of_ne heq]
      exact hold
  · have heq : e' ≠ e := by
      rintro rfl
      exact he' (ho.life.symm ▸ hrun)
    rw [setLive_of_ne heq, ho.live]
    exact h.idle e' (ho.life ▸ he')

/-- The mappings of an environment that exits go, and no others. -/
theorem pt_of_exit {q : Pte} (hq : (s.exit e).pt x = some q) : s.pt x = some q := by
  change (if x.1 = e then none else s.pt x) = some q at hq
  split at hq
  · cases hq
  · exact hq

section Others

variable {e' : EnvIdx}

theorem exit_pt (he : e' ≠ e) (pn : ℕ) : (s.exit e).pt (e', pn) = s.pt (e', pn) := if_neg he

theorem exit_view (he : e' ≠ e) : (s.exit e).view e' = s.view e' := by
  ext1 <;> funext q
  · show ((((s.exit e).pt (e', q)).map Pte.frame).map s.mem) = _
    rw [exit_pt he]
    rfl
  · show ((s.exit e).pt (e', q)).any _ = _
    rw [exit_pt he]
    rfl

theorem exit_live (he : e' ≠ e) : (s.exit e).live e' = s.live e' := update_of_ne he _ _

theorem exit_life (he : e' ≠ e) : (s.exit e).life e' = s.life e' := update_of_ne he _ _

theorem ne_of_exit (h : (s.exit e).life e' = .running) : e' ≠ e := by
  rintro rfl
  rw [show (s.exit e').life e' = .free from update_self ..] at h
  cases h

end Others

/-- An environment that is gone. -/
theorem Inv.exit (h : Inv s) (hg : Good s') (ho : Only e s s') : Inv (s'.exit e) := by
  refine ⟨hg.mono (fun x q hq => pt_of_exit hq) rfl, fun e' he' => ?_, fun e' he' => ?_⟩
  · have heq : e' ≠ e := ne_of_exit he'
    rw [exit_life heq, ho.life] at he'
    have hold := h.heap e' he'
    rw [← ho.view e' heq, ← ho.mptr e' heq, ← ho.live, ← exit_view heq] at hold
    rw [exit_live heq]
    exact hold
  · by_cases heq : e' = e
    · rw [heq]
      exact update_self ..
    · rw [exit_live heq, ho.live]
      refine h.idle e' fun hrun => he' ?_
      rw [exit_life heq, ho.life]
      exact hrun

end Steps

/-! ### `fork` -/

section Fork

variable {s : Sys} {e c : EnvIdx} {k : ℕ} {ok : Bool} {p : Pte}

theorem Pte.forChild_frame (p : Pte) : p.forChild.frame = p.frame := by
  rw [Pte.forChild]
  split
  · rfl
  · split <;> rfl

theorem Pte.forParent_frame (p : Pte) : p.forParent.frame = p.frame := by
  rw [Pte.forParent]
  split
  · rfl
  · split <;> rfl

/-- Neither of the two may write to the page alone. -/
theorem Pte.fork_not_writable (p : Pte) :
    (p.forChild.writable = true → p.forChild.share = true) ∧
      (p.forParent.writable = true → p.forParent.share = true) := by
  obtain ⟨f, w, cow, share, cont⟩ := p
  cases w <;> cases cow <;> cases share <;> simp [Pte.forChild, Pte.forParent]

/-- A page of the arena loses its mark. -/
theorem Pte.fork_usable (hu : (p.writable = true ∨ p.cow = true) ∧ p.share = false) :
    p.forChild = ⟨p.frame, false, true, false, false⟩ ∧
      p.forParent = ⟨p.frame, false, true, false, false⟩ := by
  have hor : (p.writable || p.cow) = true := by
    rw [Bool.or_eq_true]
    exact hu.1
  rw [Pte.forChild, Pte.forParent, hu.2, hor]
  exact ⟨rfl, rfl⟩

theorem Pte.fork_cow (h : p.cow = true → p.continued = false) :
    (p.forChild.cow = true → p.forChild.continued = false) ∧
      (p.forParent.cow = true → p.forParent.continued = false) := by
  obtain ⟨f, w, cow, share, cont⟩ := p
  cases w <;> cases cow <;> cases share <;> cases cont <;> simp_all [Pte.forChild, Pte.forParent]

theorem fork_pt_child (s : Sys) (e c : EnvIdx) (k : ℕ) (ok : Bool) (q : ℕ) :
    (s.fork e c k ok).pt (c, q) = if Duped k q then (s.pt (e, q)).map Pte.forChild else none :=
  if_pos rfl

theorem fork_pt_other {e' : EnvIdx} (he : e' ≠ c) (q : ℕ) :
    (s.fork e c k ok).pt (e', q) =
      if e' = e ∧ Duped k q then (s.pt (e', q)).map Pte.forParent else s.pt (e', q) :=
  if_neg he

/-- Where an entry comes from. -/
theorem fork_pt_cases (h : (s.fork e c k ok).pt x = some p) :
    (∃ q, x.1 = c ∧ s.pt (e, x.2) = some q ∧ Duped k x.2 ∧ p = q.forChild) ∨
    (∃ q, x.1 = e ∧ x.1 ≠ c ∧ s.pt x = some q ∧ Duped k x.2 ∧ p = q.forParent) ∨
    (x.1 ≠ c ∧ ¬ (x.1 = e ∧ Duped k x.2) ∧ s.pt x = some p) := by
  obtain ⟨e', q⟩ := x
  by_cases hc : e' = c
  · subst hc
    rw [fork_pt_child] at h
    split at h
    · next hd =>
        obtain ⟨p₀, hp₀, rfl⟩ := Option.map_eq_some_iff.1 h
        exact Or.inl ⟨p₀, rfl, hp₀, hd, rfl⟩
    · cases h
  · rw [fork_pt_other hc] at h
    split at h
    · next hd =>
        obtain ⟨p₀, hp₀, rfl⟩ := Option.map_eq_some_iff.1 h
        exact Or.inr (Or.inl ⟨p₀, hd.1, hc, hp₀, hd.2, rfl⟩)
    · next hd => exact Or.inr (Or.inr ⟨hc, hd, h⟩)

theorem Good.fork (h : Good s) (hec : c ≠ e) : Good (s.fork e c k ok) := by
  have hframe : ∀ x f, (s.fork e c k ok).frame x = some f →
      s.frame x = some f ∨ ∃ y, ¬ (s.fork e c k ok).Writes y ∧ s.frame y = some f := by
    intro x f hx
    obtain ⟨p, hp, rfl⟩ := Option.map_eq_some_iff.1 hx
    rcases fork_pt_cases hp with ⟨q, hxc, hq, hd, rfl⟩ | ⟨q, hxe, hxc, hq, hd, rfl⟩ | ⟨-, -, hq⟩
    · -- the child's frame is the parent's, who may not write to it now
      refine Or.inr ⟨(e, x.2), ?_, Option.map_eq_some_iff.2 ⟨q, hq, (Pte.forChild_frame q).symm⟩⟩
      rintro ⟨r, hr, hw, hs⟩
      rw [fork_pt_other hec.symm, if_pos ⟨rfl, hd⟩, hq] at hr
      cases hr
      rw [q.fork_not_writable.2 hw] at hs
      cases hs
    · exact Or.inl (Option.map_eq_some_iff.2 ⟨q, hq, (Pte.forParent_frame q).symm⟩)
    · exact Or.inl (Option.map_eq_some_iff.2 ⟨p, hq, rfl⟩)
  refine ⟨h.priv.share ?_ hframe, ⟨fun f hf => ?_, h.supply.nodup⟩, ?_, ?_⟩
  · rintro y ⟨p, hp, hw, hs⟩
    rcases fork_pt_cases hp with ⟨q, -, -, -, rfl⟩ | ⟨q, -, -, -, -, rfl⟩ | ⟨-, -, hq⟩
    · rw [q.fork_not_writable.1 hw] at hs
      cases hs
    · rw [q.fork_not_writable.2 hw] at hs
      cases hs
    · refine ⟨⟨p, hq, hw, hs⟩, ?_⟩
      rw [Sys.frame, Sys.frame, hp, hq]
  · refine (h.supply.fresh f hf).mono fun y g hy => ?_
    rcases hframe y g hy with hg | ⟨z, -, hg⟩
    · exact ⟨y, hg⟩
    · exact ⟨z, hg⟩
  · intro e' q p hq hp
    rcases fork_pt_cases hp with ⟨r, -, hr, -, rfl⟩ | ⟨r, -, -, hr, -, rfl⟩ | ⟨-, -, hr⟩
    · rw [(Pte.fork_usable (h.usable e q r hq hr)).1]
      exact ⟨Or.inr rfl, rfl⟩
    · rw [(Pte.fork_usable (h.usable e' q r hq hr)).2]
      exact ⟨Or.inr rfl, rfl⟩
    · exact h.usable e' q p hq hr
  · intro x p hp
    rcases fork_pt_cases hp with ⟨r, -, hr, -, rfl⟩ | ⟨r, -, -, hr, -, rfl⟩ | ⟨-, -, hr⟩
    · exact (Pte.fork_cow (h.cow _ r hr)).1
    · exact (Pte.fork_cow (h.cow _ r hr)).2
    · exact h.cow x p hr

/-- Each of the two sees the pages the parent saw. -/
theorem fork_words_parent (h : Good s) (hec : c ≠ e) {q : ℕ} (hq : Arena q) :
    ((s.fork e c k ok).view e).words q = (s.view e).words q ∧
      (((s.fork e c k ok).view e).cont q = true → (s.view e).cont q = true) := by
  have hpt := @fork_pt_other s e c k ok e hec.symm q
  constructor
  · show ((((s.fork e c k ok).pt (e, q)).map Pte.frame).map s.mem) = ((s.pt (e, q)).map _).map _
    rw [hpt]
    split
    · cases s.pt (e, q) with
      | none => rfl
      | some p => rw [Option.map_some, Option.map_some, Pte.forParent_frame]; rfl
    · rfl
  · intro hc
    change ((s.fork e c k ok).pt (e, q)).any _ = true at hc
    rw [hpt] at hc
    split at hc
    · cases hp : s.pt (e, q) with
      | none => rw [hp] at hc; cases hc
      | some p =>
        rw [hp, Option.map_some, (Pte.fork_usable (h.usable e q p hq hp)).2] at hc
        cases hc
    · exact hc

theorem fork_words_child (h : Good s) {q : ℕ} (hq : Arena q) :
    ((s.fork e c ustacktopPage ok).view c).words q = (s.view e).words q ∧
      (((s.fork e c ustacktopPage ok).view c).cont q = true → (s.view e).cont q = true) := by
  have hd : Duped ustacktopPage q :=
    ⟨le_trans (by decide) hq.1, lt_of_lt_of_le hq.2 (by decide)⟩
  have hpt := fork_pt_child s e c ustacktopPage ok q
  rw [if_pos hd] at hpt
  constructor
  · show ((((s.fork e c ustacktopPage ok).pt (c, q)).map Pte.frame).map s.mem)
      = ((s.pt (e, q)).map _).map _
    rw [hpt]
    cases s.pt (e, q) with
    | none => rfl
    | some p => rw [Option.map_some, Option.map_some, Pte.forChild_frame]; rfl
  · intro hc
    change ((s.fork e c ustacktopPage ok).pt (c, q)).any _ = true at hc
    rw [hpt] at hc
    cases hp : s.pt (e, q) with
    | none => rw [hp] at hc; cases hc
    | some p =>
      rw [hp, Option.map_some, (Pte.fork_usable (h.usable e q p hq hp)).1] at hc
      cases hc

theorem Inv.fork (h : Inv s) (he : s.life e = .running) (hc : s.life c = .free)
    (hk : ok = true → k = ustacktopPage) : Inv (s.fork e c k ok) := by
  have hec : c ≠ e := by
    rintro rfl
    rw [he] at hc
    cases hc
  have hheap := h.heap e he
  refine ⟨h.good.fork hec, fun e' he' => ?_, fun e' he' => ?_⟩
  · by_cases h1 : e' = c
    · subst h1
      cases ok with
      | false =>
        rw [show (s.fork e e' k false).life e' = .embryo from update_self ..] at he'
        cases he'
      | true =>
        rw [hk rfl,
          show (s.fork e e' ustacktopPage true).live e' = (s.live e).map Block.fork from
            update_self ..,
          show (s.fork e e' ustacktopPage true).mptr e' = s.mptr e from update_self ..]
        exact hheap.fork (fun q hq => (fork_words_child h.good hq).1)
          fun q hq => (fork_words_child h.good hq).2
    · rw [show (s.fork e c k ok).mptr e' = s.mptr e' from update_of_ne h1 _ _]
      by_cases h2 : e' = e
      · subst h2
        rw [show (s.fork e' c k ok).live e' = (s.live e').map Block.fork from
          (update_of_ne h1 _ _).trans (update_self ..)]
        exact hheap.fork (fun q hq => (fork_words_parent h.good hec hq).1)
          fun q hq => (fork_words_parent h.good hec hq).2
      · have hpt : ∀ q, (s.fork e c k ok).pt (e', q) = s.pt (e', q) := fun q =>
          (fork_pt_other h1 q).trans (if_neg fun hd => h2 hd.1)
        have hview : (s.fork e c k ok).view e' = s.view e' := by
          ext1 <;> funext q
          · show ((((s.fork e c k ok).pt (e', q)).map Pte.frame).map s.mem) = _
            rw [hpt]
            rfl
          · show ((s.fork e c k ok).pt (e', q)).any _ = _
            rw [hpt]
            rfl
        rw [hview, show (s.fork e c k ok).live e' = s.live e' from
          (update_of_ne h1 _ _).trans (update_of_ne h2 _ _)]
        refine h.heap e' ?_
        rw [← he']
        exact (update_of_ne h1 _ _).symm
  · by_cases h1 : e' = c
    · subst h1
      cases ok with
      | false => exact update_self ..
      | true => exact absurd (update_self ..) he'
    · have h2 : e' ≠ e := by
        rintro rfl
        exact he' ((update_of_ne h1 _ _).trans he)
      rw [show (s.fork e c k ok).live e' = s.live e' from
        (update_of_ne h1 _ _).trans (update_of_ne h2 _ _)]
      refine h.idle e' fun hrun => he' ?_
      exact (update_of_ne h1 _ _).trans hrun

end Fork

/-! ### All steps -/

section AllSteps

variable {s s' : Sys} {e : EnvIdx} {b : Block} {l : List ℕ}

/-- A call starts with the frames the kernel has for it. -/
theorem Only.refilled (h : Only e { s with free := l } s') : Only e s s' :=
  ⟨h.view, h.mptr, h.life, h.live⟩

theorem setLive_live (s : Sys) (e : EnvIdx) : s.setLive e (s.live e) = s := by
  rw [Sys.setLive, update_eq_self]

/-- What `free` does in the runs. -/
theorem free_returns (h : Inv s) (hrun : s.life e = .running) (hl : s.Supply l)
    (hb : b ∈ s.live e) (hc : Careful s (.free e b l)) :
    ∃ c s₁, s.words (e, b.last) = some c ∧ free e b.addr { s with free := l } = .ok () s₁ ∧
      Good s₁ ∧ Only e s s₁ ∧ s₁.mptr e = s.mptr e ∧
      s₁.view e = (s.view e).freed b c := by
  obtain ⟨c, hw, hor⟩ := free_inv (h.good.refill hl) (h.heap e hrun).toHeap hb hc.1
  rcases hor with ⟨s₁, hok, ha⟩ | ⟨hno, hempty, -⟩
  · exact ⟨c, s₁, hw, hok, ha.good, ha.only.refilled, ha.mptr, ha.view⟩
  · rcases hc.2.2 with hwr | hne
    · exact absurd hwr hno
    · exact absurd hempty hne

/-- A word of a block in use can be stored to, unless there is no frame for `pgfault`. -/
theorem write_cases (h : Inv s) (hrun : s.life e = .running) (hl : s.Supply l) (hb : b ∈ s.live e)
    {a : ℕ} (hlo : b.addr ≤ a) (hhi : a < b.addr + b.size) (w : Word) :
    (∃ s₁, storeWord e (a / PGSIZE) (wordIdx a) w { s with free := l } = .ok () s₁ ∧
      Good s₁ ∧ Only e s s₁ ∧ HeapInv (s₁.view e) (s₁.mptr e) (s.live e)) ∨
    ∃ x s₁, storeWord e (a / PGSIZE) (wordIdx a) w { s with free := l } = .error x s₁ ∧
      Good s₁ ∧ Only e s s₁ := by
  have hi := h.heap e hrun
  have hok := hi.block b hb
  obtain ⟨hcov, hidx⟩ := hok.wordIdx_ne hlo hhi
  obtain ⟨c, hc⟩ := Option.ne_none_iff_exists'.1 (hok.mapped _ hcov)
  have hg := h.good.refill hl
  rcases storeWord_acts hg (hok.arena hcov) hc (wordIdx a) w with ⟨s₁, hst, ha⟩ | ⟨-, -, hst⟩
  · refine Or.inl ⟨s₁, hst, ha.good, ha.only.refilled, ?_⟩
    rw [ha.view, ha.mptr]
    refine hi.write hc fun hno => hidx ?_
    exact (Block.covers_iff.1 hcov).resolve_left (hno b hb)
  · exact Or.inr ⟨_, _, hst, hg, Only.refilled (.refl e _)⟩

theorem Inv.step (h : Inv s) {ev : Event} (hc : Careful s ev) (hs : Step s ev s') : Inv s' := by
  cases hs with
  | malloc hrun hl hok =>
    rcases malloc_inv (h.good.refill hl) (h.heap _ hrun) hc with
      ⟨v, s₁, hm, hres⟩ | ⟨x, s₁, hm, -⟩
    · rw [hm] at hok
      cases hok
      have hheap := hres.heap
      rw [Sys.enter, hres.only.live]
      exact h.returns hrun hres.good hres.only.refilled hheap
    · rw [hm] at hok
      cases hok
  | mallocPanic hrun hl hok =>
    rcases malloc_inv (h.good.refill hl) (h.heap _ hrun) hc with
      ⟨v, s₁, hm, -⟩ | ⟨x, s₁, hm, hg, ho⟩
    · rw [hm] at hok
      cases hok
    · rw [hm] at hok
      cases hok
      exact h.exit hg ho.refilled
  | free hrun hl hb hok =>
    obtain ⟨c, s₁, hw, hf, hg, ho, hm, hv⟩ := free_returns h hrun hl hb hc
    rw [hf] at hok
    cases hok
    rw [Sys.strike, ho.live]
    refine h.returns hrun hg ho ?_
    rw [hv, hm]
    exact (h.heap _ hrun).free hb hc.2.1 hw
  | freePanic hrun hl hb hok =>
    obtain ⟨c, s₁, -, hf, -⟩ := free_returns h hrun hl hb hc
    rw [hf] at hok
    cases hok
  | @write e b a w l s' hrun hl hb hlo hhi hok =>
    rcases write_cases h hrun hl hb hlo hhi w with ⟨s₁, hst, hg, ho, hi⟩ | ⟨x, s₁, hst, -⟩
    · rw [hst] at hok
      cases hok
      have hres := h.returns hrun hg ho hi
      rwa [← ho.live, setLive_live] at hres
    · rw [hst] at hok
      cases hok
  | @writePanic e b a w l x s' hrun hl hb hlo hhi hok =>
    rcases write_cases h hrun hl hb hlo hhi w with ⟨s₁, hst, -⟩ | ⟨x, s₁, hst, hg, ho⟩
    · rw [hst] at hok
      cases hok
    · rw [hst] at hok
      cases hok
      exact h.exit hg ho
  | fork he hcf _ hk => exact h.fork he hcf hk
  | exit hrun => exact h.exit h.good (.refl _ s)

theorem Inv.run {s₀ : Sys} (h₀ : s₀.Start) (hrun : Lts.Run Step Careful s₀ s) : Inv s :=
  hrun.inv (Inv.start h₀) fun _ _ _ hi hc hs => hi.step hc hs

/-- **What `malloc` maps, it maps for the block.** -/
theorem malloc_maps {s₀ : Sys} (h₀ : s₀.Start) (hrun : Lts.Run Step Careful s₀ s) {n : Word}
    (hc : Careful s (.malloc e n l)) (hs : Step s (.malloc e n l) s') {q : ℕ}
    (hq : s.words (e, q) = none) (hq' : s'.words (e, q) ≠ none) :
    ∃ b, s'.live e = b :: s.live e ∧ b.Covers q := by
  have h := Inv.run h₀ hrun
  cases hs with
  | malloc hlife hl hok =>
    rcases malloc_inv (h.good.refill hl) (h.heap _ hlife) hc with
      ⟨v, s₁, hm, hres⟩ | ⟨x, s₁, hm, -⟩
    · rw [hm] at hok
      cases hok
      rcases hres.maps q hq' with h0 | ⟨hv, hcov⟩
      · exact absurd hq h0
      · refine ⟨_, ?_, hcov⟩
        rw [Sys.enter, setLive_self, if_neg hv, hres.only.live]
    · rw [hm] at hok
      cases hok
  | mallocPanic hlife hl hok =>
    -- the pages of an environment that panics are gone
    refine absurd (words_eq_none.2 ?_) hq'
    exact if_pos rfl

/-- **`free` gives back what `malloc` mapped.**  In a run in which `malloc` does not
leave the last page below `mend` and no count overflows, and in which `free` is
called for blocks that have no page with a lost mark, do not end with a page and
whose count can be written to, every `free` unmaps the pages that are there for the
block alone, takes one from the count on its last page, and leaves all else. -/
theorem free_exact {s₀ : Sys} (h₀ : s₀.Start) (hrun : Lts.Run Step Careful s₀ s)
    (hc : Careful s (.free e b l)) (hs : Step s (.free e b l) s') : FreeExact s s' e b := by
  have h := Inv.run h₀ hrun
  have h' := h.step hc hs
  cases hs with
  | freePanic hlife hl hb hok =>
    obtain ⟨c, s₁, -, hf, -⟩ := free_returns h hlife hl hb hc
    rw [hf] at hok
    cases hok
  | @free _ _ _ t hlife hl hb hok =>
    obtain ⟨c, s₁, hw, hf, hg, ho, hm, hv⟩ := free_returns h hlife hl hb hc
    obtain rfl : s₁ = t := by
      rw [hf] at hok
      cases hok
      rfl
    have hi := h.heap e hlife
    have hwords : ∀ q, s₁.words (e, q)
        = ((s.view e).freed b c).words q := fun q =>
      congrFun (congrArg View.words hv) q
    have hkeep : ∀ q i d d', s.words (e, q) = some d → s₁.words (e, q) = some d' →
        (q, i) ≠ (b.last, refIdx) → d' i = d i := by
      intro q i d d' hd hd' hne
      rw [hwords, Heap.freed_words] at hd'
      split at hd'
      · next hq =>
          split at hd'
          · cases hd'
          · rw [hq, hw] at hd
            cases hd
            cases hd'
            exact update_of_ne (fun hi => hne (by rw [hq, hi])) _ _
      · split at hd'
        · cases hd'
        · have heq : some d = some d' := hd.symm.trans hd'
          cases heq
          rfl
    refine ⟨⟨?_, ?_⟩, fun q => ?_, fun d d' hd hd' => ?_, hkeep, fun e' q he => ⟨?_, ?_⟩, ?_⟩
    · show s₁.life e = .running
      rw [ho.life, hlife]
    · rw [Sys.strike, setLive_self, ho.live]
    · show s₁.words (e, q) = none ↔ _
      rw [hwords]
      exact hi.freed_none hb hc.2.1 hw q
    · change s₁.words (e, b.last) = some d' at hd'
      rw [hwords, Heap.freed_words, if_pos rfl] at hd'
      rw [hw] at hd
      cases hd
      split at hd'
      · cases hd'
      · cases hd'
        exact update_self ..
    · exact congrFun (congrArg View.words (ho.view e' he)) q
    · rw [Sys.strike, setLive_of_ne he, ho.live]
    · intro e' b' hb' a hlo hhi
      have hlife' : (s₁.strike e b).life e' = .running := by
        by_contra hne
        rw [h'.idle e' hne] at hb'
        exact absurd hb' List.not_mem_nil
      have hok' := (h'.heap e' hlife').block b' hb'
      obtain ⟨hcov, hidx⟩ := hok'.wordIdx_ne hlo hhi
      obtain ⟨d', hd'⟩ := Option.ne_none_iff_exists'.1 (hok'.mapped _ hcov)
      have hd₁ : s₁.words (e', a / PGSIZE) = some d' := hd'
      refine ⟨d' (wordIdx a), ?_, by rw [Sys.wordAt]; exact congrArg _ hd₁⟩
      by_cases he : e' = e
      · subst he
        rw [Sys.strike, setLive_self, ho.live] at hb'
        have hbL : b' ∈ s.live e' := List.mem_of_mem_erase hb'
        obtain ⟨d, hd⟩ := Option.ne_none_iff_exists'.1 ((hi.block b' hbL).mapped _ hcov)
        have hd₀ : s.words (e', a / PGSIZE) = some d := hd
        rw [Sys.wordAt, hd₀, Option.map_some, hkeep _ (wordIdx a) d d' hd₀ hd₁]
        intro heq
        obtain ⟨hpage, hword⟩ := Prod.mk.inj heq
        refine hidx ?_ hword
        -- the last page of one block is an inner page of no other
        refine (Block.covers_iff.1 hcov).resolve_left ?_
        rw [hpage]
        exact hi.toHeap.last_not_inner hb b' hbL
      · have hsame : s₁.words (e', a / PGSIZE) = s.words (e', a / PGSIZE) :=
          congrFun (congrArg View.words (ho.view e' he)) _
        rw [Sys.wordAt, ← hsame, hd₁]
        rfl

end AllSteps

/-! ### A block of two pages -/

/-- The state a call ends in. -/
def Sys.after {α : Type} : EStateM.Result Stop Sys α → Sys
  | .ok _ s => s
  | .error _ s => s

/-- The first environment. -/
def env0 : EnvIdx := 0

/-- The second one. -/
def env1 : EnvIdx := 1

/-- One environment that has nothing mapped. -/
def lone : Sys where
  mem _ _ := 0#32
  pt _ := none
  mptr _ := 0
  free := []
  life e := if e = env0 then .running else .free
  live _ := []

theorem lone_start : lone.Start where
  mptr _ := rfl
  live _ := rfl
  arena _ _ _ := rfl
  alone _ _ _ _ h := by cases h
  cow _ _ h := by cases h
  free := rfl

theorem seek_free {m : ℕ} (fuel nwrap : ℕ) (h : isfree s e m n = true) :
    seek s e n (fuel + 1) nwrap m = .found m := by
  rw [seek, if_pos h]

/-- The first `malloc` takes its pages at `mbegin`. -/
theorem malloc_first {n : Word} (h0 : s.mptr e = 0) (hn : roundUp4 n < MAXMALLOC)
    (hfree : isfree (s.setMptr e mbegin) e mbegin (roundUp4 n + 4) = true) :
    malloc e n s = mallocFound e (roundUp4 n) (.found mbegin) (s.setMptr e mbegin) := by
  have hm : (s.setMptr e mbegin).mptr e = mbegin := update_self ..
  rw [malloc, run_modify_bind, run_get_bind, if_pos h0, if_neg (Nat.not_le.2 hn), hm, mallocAt,
    if_neg (by decide), mallocNew, run_get_bind, hm]
  exact congrFun (congrArg (mallocFound e (roundUp4 n)) (seek_free 0x10FFFF 0 hfree)) _

/-- After `malloc(5000)`, which takes two pages. -/
def twoPages : Sys :=
  (Sys.after (mallocFound env0 5000 (.found mbegin)
    ({ lone with free := [1, 2] }.setMptr env0 mbegin))).enter env0 mbegin 5000

theorem supply_of_empty (h : ∀ x, s.pt x = none) (hl : l.Nodup) : s.Supply l := by
  refine ⟨fun f _ x hx => ?_, hl⟩
  rw [Sys.frame, h x] at hx
  cases hx

theorem twoPages_step : Step lone (.malloc env0 5000#32 [1, 2]) twoPages := by
  have hsize : roundUp4 5000#32 = 5000 := by decide
  have hrun := malloc_first (s := { lone with free := [1, 2] }) (e := env0) (n := 5000#32) rfl
    (by decide) (by decide)
  have hsup : lone.Supply [1, 2] := supply_of_empty (fun _ => rfl) (by decide)
  have hstep := Step.malloc (v := mbegin) rfl hsup (hrun.trans (by rw [hsize]; rfl))
  rwa [hsize] at hstep

theorem twoPages_run : Lts.Run Step Careful lone twoPages := by
  refine .snoc .nil ?_ twoPages_step
  exact fun _ => ⟨by decide, Or.inl rfl⟩

theorem malloc_maps_twoPages : ∃ b, twoPages.live env0 = [b] ∧ b.Covers 0x8001 :=
  malloc_maps lone_start .nil (fun _ => ⟨by decide, Or.inl rfl⟩) twoPages_step rfl
    (fun h => by cases h)

/-- Without a `fork` the block is given back. -/
theorem free_exact_twoPages :
    ∃ s', Step twoPages (.free env0 ⟨mbegin, 5000, false⟩ []) s' ∧
      FreeExact twoPages s' env0 ⟨mbegin, 5000, false⟩ := by
  have hstep : Step twoPages (.free env0 ⟨mbegin, 5000, false⟩ []) _ :=
    .free rfl ⟨fun f hf => absurd hf List.not_mem_nil, List.nodup_nil⟩ (List.mem_cons_self ..) rfl
  exact ⟨_, hstep, free_exact lone_start twoPages_run
    ⟨Or.inr rfl, by decide, Or.inl ⟨⟨2, true, false, false, false⟩, rfl, rfl, rfl⟩⟩ hstep⟩

/-- The same after a `fork`. -/
def forkedPages : Sys := twoPages.fork env0 env1 ustacktopPage true

theorem twoPages_frame {p : Pte} (h : twoPages.pt x = some p) : p.frame = 1 ∨ p.frame = 2 := by
  change update (update (fun _ => none) (env0, 0x8000) (some ⟨1, true, false, false, true⟩))
    (env0, 0x8001) (some ⟨2, true, false, false, false⟩) x = some p at h
  by_cases h1 : x = (env0, 0x8001)
  · rw [h1, update_self] at h
    cases h
    exact Or.inr rfl
  · rw [update_of_ne h1] at h
    by_cases h2 : x = (env0, 0x8000)
    · rw [h2, update_self] at h
      cases h
      exact Or.inl rfl
    · rw [update_of_ne h2] at h
      cases h

theorem forkedPages_supply : forkedPages.Supply [3] := by
  refine ⟨fun f hf x hx => ?_, List.nodup_singleton 3⟩
  obtain rfl := List.mem_singleton.1 hf
  obtain ⟨p, hp, hframe⟩ := Option.map_eq_some_iff.1 hx
  rcases fork_pt_cases hp with ⟨q, -, hq, -, rfl⟩ | ⟨q, -, -, hq, -, rfl⟩ | ⟨-, -, hq⟩
  · rw [Pte.forChild_frame] at hframe
    have := twoPages_frame hq
    omega
  · rw [Pte.forParent_frame] at hframe
    have := twoPages_frame hq
    omega
  · have := twoPages_frame hq
    omega

/-- After a `fork` it is not: both pages stay, and what goes down by one is a word
of the block's own data, not the count. -/
theorem free_after_fork :
    ∃ s', Lts.Run Step Lts.anyEvent lone forkedPages ∧
      Step forkedPages (.free env0 ⟨mbegin, 5000, true⟩ [3]) s' ∧
      ¬ FreeExact forkedPages s' env0 ⟨mbegin, 5000, true⟩ ∧
      forkedPages.wordAt env0 0x08000FFC = some 0#32 ∧
      s'.wordAt env0 0x08000FFC = some 0xFFFFFFFF#32 ∧
      forkedPages.wordAt env0 0x08001FFC = some 2#32 ∧
      s'.wordAt env0 0x08001FFC = some 2#32 := by
  have hfork : Step twoPages (.fork env0 env1 ustacktopPage true) forkedPages :=
    .fork rfl rfl (le_refl _) fun _ => rfl
  have hrun : Lts.Run Step Lts.anyEvent lone forkedPages :=
    .snoc (twoPages_run.mono fun _ _ _ => trivial) trivial hfork
  have hstep : Step forkedPages (.free env0 ⟨mbegin, 5000, true⟩ [3]) _ :=
    .free rfl forkedPages_supply (List.mem_cons_self ..) rfl
  refine ⟨_, hrun, hstep, fun hex => ?_, by decide, by decide, by decide, by decide⟩
  have halone : Alone forkedPages env0 ⟨mbegin, 5000, true⟩ 0x8000 :=
    ⟨by decide, by decide, by decide⟩
  have hgone := (hex.unmaps 0x8000).2 (Or.inr halone)
  cases hgone

/-! ### The other two conditions -/

/-- **A block that ends with a page.**  `malloc` has counted itself in on the last
page and will not take that back, so `free` never unmaps it, even when nothing
else is there. -/
theorem not_exact_of_page_end {s' : Sys} {b : Block} (h : Inv s)
    (hfork : b.first = b.last ∨ b.forked = false) (hend : (b.addr + b.size) % PGSIZE = 0)
    (halone : Alone s e b b.last) (hs : Step s (.free e b l) s') : ¬ FreeExact s s' e b := by
  intro hex
  cases hs with
  | @freePanic _ _ _ _ t hlife hl hb hok =>
    have hgone : (t.exit e).life e = .free := update_self ..
    rw [hex.returns.1] at hgone
    cases hgone
  | @free _ _ _ t hlife hl hb hok =>
    have hi := h.heap e hlife
    obtain ⟨c, hw, ⟨s₁, hf, ha⟩ | ⟨-, -, x, s₁, hf, -⟩⟩ := free_inv (h.good.refill hl) hi.toHeap hb hfork
    · obtain rfl : s₁ = t := by
        rw [hf] at hok
        cases hok
        rfl
      have hnone : s₁.words (e, b.last) = none := (hex.unmaps b.last).2 (Or.inr halone)
      have hwords := congrFun (congrArg View.words ha.view) b.last
      rw [show (s₁.view e).words b.last = none from hnone, Heap.freed_words,
        if_pos rfl] at hwords
      -- the count was at least two
      have hne : c refIdx - 1#32 ≠ 0#32 := by
        rw [hi.toHeap.count_freed hb hw, Ne, (hi.noWrap_freed hb).ofNat_eq_zero, Nat.add_eq_zero_iff,
          refs_eq_zero]
        intro hzero
        have hg : (⟨b.last * PGSIZE + 4, 0, false⟩ : Block) ∈ b.rest := by
          rw [Block.rest, if_pos hend]
          exact List.mem_singleton_self _
        exact hzero.1 _ (List.mem_append_left _ hg) (Block.first_last_of_mem_rest hg).2
      rw [if_neg hne] at hwords
      cases hwords
    · rw [hf] at hok
      cases hok

/-- Above `mend` the search finds nothing until `mptr` has gone round to address 0. -/
theorem seek_above (hn : 0 < n) (hn' : n < 4096) (fuel nwrap : ℕ) :
    ∀ k m, m = 2 ^ 32 - k * 4096 → 0 < k → k ≤ 0xF0000 →
      seek s e n (fuel + k) nwrap m = seek s e n fuel nwrap 0 := by
  intro k
  induction k with
  | zero => exact fun m _ h0 => absurd h0 (Nat.lt_irrefl 0)
  | succ k ih =>
    intro m hm _ hk
    have hfull : isfree s e m n = false := by
      have hcount : ((m + n) % 2 ^ 32 - m + (PGSIZE - 1)) / PGSIZE = 1 := by
        rw [PGSIZE]
        omega
      have hend : ¬ m < mend := by
        rw [mend]
        omega
      rw [isfree, hcount]
      simp [hend]
    have hnext : (m + PGSIZE) % 2 ^ 32 = if k = 0 then 0 else 2 ^ 32 - k * 4096 := by
      rw [PGSIZE]
      split <;> omega
    rw [← Nat.add_assoc, seek, hfull, if_neg Bool.false_ne_true, hnext]
    by_cases h0 : k = 0
    · subst h0
      rw [if_pos rfl, if_neg (by decide)]
      rfl
    · have hne : ¬ 2 ^ 32 - k * 4096 = mend := by
        rw [mend]
        omega
      rw [if_neg h0, if_neg hne]
      exact ih _ rfl (Nat.pos_of_ne_zero h0) (by omega)

/-- **Past `mend`.**  When `malloc` has left the last page, the next small block is
put at address 0, if nothing is mapped there. -/
theorem seek_from_mend (hn : 0 < n) (hn' : n < 4096) (h0 : s.pt (e, 0) = none) :
    seek s e n seekFuel 0 mend = .found 0 := by
  have hfree : isfree s e 0 n = true := by
    have hcount : ((0 + n) % 2 ^ 32 - 0 + (PGSIZE - 1)) / PGSIZE = 1 := by
      rw [PGSIZE]
      omega
    have hend : 0 < mend := by decide
    rw [isfree, hcount]
    simp [hend, h0]
  have habove := seek_above (s := s) (e := e) hn hn' 0x20000 0 0xF0000 mend (by decide) (by decide)
    (le_refl _)
  exact habove.trans (seek_free 0x1FFFF 0 hfree)

end Jos.Malloc
