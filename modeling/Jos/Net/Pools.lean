import Jos.Lib.Lts
import Jos.Lib.Wp

/-!
# The semaphore and mailbox pools of the network server

`sys_sem_new`, `sys_sem_free`, `sys_mbox_new` and `sys_mbox_free` of `net/lwip/jos/arch/sys_arch.c`.
Each pool is an array of entries, with a mark on those that are free and a list of them.  An index
outside of `sems[]` or `mboxes[]` ends a run (`Fault.index`), and so does an assertion that fails.

When `sys_mbox_new` cannot get its semaphores it calls `sys_mbox_free` on what it has built so far,
and that frees both semaphores, the one that is `SYS_SEM_NULL` too.

* `Exact` — a free list holds exactly the entries marked free, without duplicates; `Exact.take` and
  `Exact.give` are what taking and giving back an entry does to it.
* `Inv.run` — a run of calls keeps that for both pools.
* `sysMboxNew_lacks` — without two semaphores `sys_mbox_new` uses the index -1.
* `pools_iff` — that a `sys_mbox_new` which fails leaves both pools as they were is true exactly
  where it does not run short of semaphores.
-/

namespace Jos.SysArch

open Function (update update_eq_self update_of_ne)

def NSEM : ℕ := 256
def NMBOX : ℕ := 128
def MBOXSLOTS : ℕ := 32

/-- `SYS_SEM_NULL` and `SYS_MBOX_NULL`. -/
def NULL : ℤ := -1

/-- `struct sys_sem_entry`. -/
structure SemEntry where
  freed : Bool
  gen : BitVec 32
  counter : BitVec 16
  waiters : BitVec 16

/-- `struct sys_mbox_entry`, but for the slots. -/
structure MboxEntry where
  freed : Bool
  head : ℤ
  nextq : ℤ
  queuedMsg : ℤ
  freeMsg : ℤ

structure Pools where
  sems : ℕ → SemEntry
  semFree : List ℕ
  mboxes : ℕ → MboxEntry
  mboxFree : List ℕ

/-- How a call does not return. -/
inductive Fault
  | assertion
  | index
  deriving DecidableEq

abbrev PoolM := EStateM Fault Pools

/-! ## The code -/

/-- `sys_init`, which puts every entry at the head of its list. -/
def sysInit : Pools where
  sems := fun _ => ⟨true, 0#32, 0#16, 0#16⟩
  semFree := (List.range NSEM).reverse
  mboxes := fun _ => ⟨true, 0, 0, 0, 0⟩
  mboxFree := (List.range NMBOX).reverse

/-- `sys_sem_new`. -/
def sysSemNew (count : BitVec 8) : PoolM ℤ := fun s =>
  match s.semFree with
  | [] => .ok NULL s
  | se :: rest =>
    if (s.sems se).freed then
      .ok se { s with
        semFree := rest
        sems := update s.sems se { s.sems se with
          freed := false, counter := count.setWidth 16, gen := (s.sems se).gen + 1#32 } }
    else .error .assertion s

/-- `sys_sem_free`. -/
def sysSemFree (sem : ℤ) : PoolM Unit := fun s =>
  if 0 ≤ sem ∧ sem < NSEM then
    if (s.sems sem.toNat).freed then .error .assertion s
    else .ok () { s with
      sems := update s.sems sem.toNat
        { s.sems sem.toNat with freed := true, gen := (s.sems sem.toNat).gen + 1#32 }
      semFree := sem.toNat :: s.semFree }
  else .error .index s

/-- Write to a mailbox. -/
def setMbox (i : ℕ) (f : MboxEntry → MboxEntry) (s : Pools) : Pools :=
  { s with mboxes := update s.mboxes i (f (s.mboxes i)) }

/-- The end of `sys_mbox_free`. -/
def mboxGive (i : ℕ) (s : Pools) : Pools :=
  setMbox i (fun m => { m with freed := true }) { s with mboxFree := i :: s.mboxFree }

/-- `sys_mbox_free`. -/
def sysMboxFree (mbox : ℤ) : PoolM Unit := do
  let s ← get
  if 0 ≤ mbox ∧ mbox < NMBOX then
    if (s.mboxes mbox.toNat).freed then throw .assertion
    else
      sysSemFree (s.mboxes mbox.toNat).queuedMsg
      sysSemFree (s.mboxes mbox.toNat).freeMsg
      modify (mboxGive mbox.toNat)
  else throw .index

/-- `sys_mbox_new`, once it has entry `i` of the pool. -/
def mboxBuild (i : ℕ) : PoolM ℤ := do
  modify (setMbox i fun m => { m with head := -1, nextq := 0 })
  let queued ← sysSemNew 0#8
  modify (setMbox i fun m => { m with queuedMsg := queued })
  let free ← sysSemNew (BitVec.ofNat 8 MBOXSLOTS)
  modify (setMbox i fun m => { m with freeMsg := free })
  if queued = NULL ∨ free = NULL then
    sysMboxFree i
    pure NULL
  else pure (i : ℤ)

/-- `sys_mbox_new`. -/
def sysMboxNew (size : ℤ) : PoolM ℤ := fun s =>
  if size < MBOXSLOTS then
    match s.mboxFree with
    | [] => .ok NULL s
    | mbe :: rest =>
      if (s.mboxes mbe).freed then
        mboxBuild mbe (setMbox mbe (fun m => { m with freed := false }) { s with mboxFree := rest })
      else .error .assertion s
  else .error .assertion s

/-- The calls. -/
inductive Op
  | semNew (count : BitVec 8)
  | semFree (sem : ℤ)
  | mboxNew (size : ℤ)
  | mboxFree (mbox : ℤ)

/-- A call that returns. -/
def Step (s : Pools) : Op → Pools → Prop
  | .semNew count, s' => ∃ r, sysSemNew count s = .ok r s'
  | .semFree sem, s' => sysSemFree sem s = .ok () s'
  | .mboxNew size, s' => ∃ r, sysMboxNew size s = .ok r s'
  | .mboxFree mbox, s' => sysMboxFree mbox s = .ok () s'

/-- The states that calls lead to. -/
def Reachable (s : Pools) : Prop := Lts.Run Step Lts.anyEvent sysInit s

/-! ## Free lists -/

/-- The list holds exactly the entries marked free, without duplicates. -/
structure Exact (n : ℕ) (free : List ℕ) (freed : ℕ → Bool) : Prop where
  nodup : free.Nodup
  mem_iff : ∀ i, i ∈ free ↔ i < n ∧ freed i = true

namespace Exact

variable {n i : ℕ} {free : List ℕ} {freed : ℕ → Bool}

theorem all (n : ℕ) : Exact n (List.range n).reverse fun _ => true :=
  ⟨List.nodup_reverse.2 List.nodup_range, fun i => by simp⟩

/-- The first entry is taken. -/
theorem take (h : Exact n (i :: free) freed) : Exact n free (update freed i false) := by
  obtain ⟨hni, hnd⟩ := List.nodup_cons.1 h.nodup
  refine ⟨hnd, fun j => ?_⟩
  by_cases hj : j = i
  · subst hj
    simp [hni]
  · rw [update_of_ne hj, ← h.mem_iff, List.mem_cons]
    simp [hj]

/-- An entry is given back. -/
theorem give (h : Exact n free freed) (hi : i < n) (hfreed : freed i = false) :
    Exact n (i :: free) (update freed i true) := by
  have hni : i ∉ free := fun hmem => by simpa [hfreed] using (h.mem_iff i).1 hmem
  refine ⟨List.nodup_cons.2 ⟨hni, h.nodup⟩, fun j => ?_⟩
  rw [List.mem_cons]
  by_cases hj : j = i
  · subst hj
    simp [hi]
  · rw [update_of_ne hj, h.mem_iff]
    simp [hj]

end Exact

/-! ## The invariant -/

/-- Both free lists are right. -/
structure Inv (s : Pools) : Prop where
  sems : Exact NSEM s.semFree fun i => (s.sems i).freed
  mboxes : Exact NMBOX s.mboxFree fun i => (s.mboxes i).freed

/-- Code that keeps the invariant, if it returns. -/
def Keeps {α : Type} (x : PoolM α) : Prop := ∀ s a s', Inv s → x s = .ok a s' → Inv s'

variable {i : ℕ} {s : Pools}

section Keeps

variable {s s' : Pools} {α β : Type}

theorem Keeps.bind {x : PoolM α} {f : α → PoolM β} (hx : Keeps x) (hf : ∀ a, Keeps (f a)) :
    Keeps (x >>= f) := by
  intro s b s' hs hrun
  obtain ⟨a, s₁, hx₁, hf₁⟩ := run_bind_inv hrun
  exact hf a s₁ b s' (hx s a s₁ hs hx₁) hf₁

/-- The marks of an array in which an entry was changed. -/
theorem freed_update {E : Type} (freed : E → Bool) (a : ℕ → E) (i : ℕ) (e : E) :
    (fun j => freed (update a i e j)) = update (fun j => freed (a j)) i (freed e) :=
  Function.comp_update freed a i e

variable {f : MboxEntry → MboxEntry}

theorem inv_setMbox (h : Inv s) (hf : ∀ m, (f m).freed = m.freed) : Inv (setMbox i f s) := by
  refine ⟨h.sems, ?_⟩
  have hsame : (fun j => ((setMbox i f s).mboxes j).freed) = fun j => (s.mboxes j).freed := by
    rw [setMbox, freed_update MboxEntry.freed, hf]
    exact update_eq_self i fun j => (s.mboxes j).freed
  exact hsame ▸ h.mboxes

theorem Keeps.setMbox (hf : ∀ m, (f m).freed = m.freed) : Keeps (modify (setMbox i f)) := by
  rintro s a s' hs ⟨⟩
  exact inv_setMbox hs hf

theorem keeps_sysSemNew (count : BitVec 8) : Keeps (sysSemNew count) := by
  intro s r s' hs hrun
  unfold sysSemNew at hrun
  cases hfree : s.semFree with
  | nil =>
    simp only [hfree] at hrun
    cases hrun
    exact hs
  | cons se rest =>
    simp only [hfree] at hrun
    split at hrun
    · cases hrun
      refine ⟨?_, hs.mboxes⟩
      have htake := (hfree ▸ hs.sems).take
      rwa [freed_update SemEntry.freed]
    · cases hrun

theorem keeps_sysSemFree (sem : ℤ) : Keeps (sysSemFree sem) := by
  intro s r s' hs hrun
  unfold sysSemFree at hrun
  split at hrun
  · next hrange =>
      split at hrun
      · cases hrun
      · next hused =>
          cases hrun
          refine ⟨?_, hs.mboxes⟩
          rw [freed_update SemEntry.freed]
          exact hs.sems.give (by omega) (by simpa using hused)
  · cases hrun

/-- Freeing a semaphore leaves the mailboxes alone. -/
theorem sysSemFree_mboxes {sem : ℤ} {u : Unit} (hrun : sysSemFree sem s = .ok u s') :
    s'.mboxes = s.mboxes ∧ s'.mboxFree = s.mboxFree := by
  unfold sysSemFree at hrun
  split at hrun
  · split at hrun
    · cases hrun
    · cases hrun
      exact ⟨rfl, rfl⟩
  · cases hrun

theorem keeps_sysMboxFree (mbox : ℤ) : Keeps (sysMboxFree mbox) := by
  intro s u s' hs hrun
  rw [sysMboxFree, run_get_bind] at hrun
  split at hrun
  · next hrange =>
      split at hrun
      · cases hrun
      · next hused =>
          obtain ⟨_, s₁, hq, hrun⟩ := run_bind_inv hrun
          obtain ⟨_, s₂, hf, hrun⟩ := run_bind_inv hrun
          cases hrun
          have hs₂ : Inv s₂ := keeps_sysSemFree _ _ _ _ (keeps_sysSemFree _ _ _ _ hs hq) hf
          have hmb : s₂.mboxes = s.mboxes := (sysSemFree_mboxes hf).1.trans (sysSemFree_mboxes hq).1
          refine ⟨hs₂.sems, ?_⟩
          show Exact NMBOX (mbox.toNat :: s₂.mboxFree) fun j =>
            ((setMbox mbox.toNat _ _).mboxes j).freed
          rw [setMbox, freed_update MboxEntry.freed]
          exact hs₂.mboxes.give (by omega) (by rw [hmb]; simpa using hused)
  · cases hrun

theorem keeps_mboxBuild (i : ℕ) : Keeps (mboxBuild i) := by
  refine Keeps.bind (.setMbox fun _ => rfl) fun _ => Keeps.bind (keeps_sysSemNew _) fun q => ?_
  refine Keeps.bind (.setMbox fun _ => rfl) fun _ => Keeps.bind (keeps_sysSemNew _) fun f => ?_
  refine Keeps.bind (.setMbox fun _ => rfl) fun _ => ?_
  split
  · refine Keeps.bind (keeps_sysMboxFree i) fun _ => ?_
    rintro s a s' hs ⟨⟩
    exact hs
  · rintro s a s' hs ⟨⟩
    exact hs

theorem keeps_sysMboxNew (size : ℤ) : Keeps (sysMboxNew size) := by
  intro s r s' hs hrun
  unfold sysMboxNew at hrun
  split at hrun
  · cases hfree : s.mboxFree with
    | nil =>
      simp only [hfree] at hrun
      cases hrun
      exact hs
    | cons mbe rest =>
      simp only [hfree] at hrun
      split at hrun
      · refine keeps_mboxBuild mbe _ _ _ ?_ hrun
        have htake := (hfree ▸ hs.mboxes).take
        refine ⟨hs.sems, ?_⟩
        rwa [setMbox, freed_update MboxEntry.freed]
      · cases hrun
  · cases hrun

theorem Inv.init : Inv sysInit where
  sems := by
    simp only [sysInit]
    exact Exact.all NSEM
  mboxes := by
    simp only [sysInit]
    exact Exact.all NMBOX

/-- **A run of calls keeps the free lists right.** -/
theorem Inv.run (h : Reachable s) : Inv s := by
  refine Lts.Run.inv Inv.init (fun s₁ op s₂ hs _ hstep => ?_) h
  cases op with
  | semNew count =>
    obtain ⟨r, hrun⟩ := hstep
    exact keeps_sysSemNew count _ _ _ hs hrun
  | semFree sem => exact keeps_sysSemFree sem _ _ _ hs hstep
  | mboxNew size =>
    obtain ⟨r, hrun⟩ := hstep
    exact keeps_sysMboxNew size _ _ _ hs hrun
  | mboxFree mbox => exact keeps_sysMboxFree mbox _ _ _ hs hstep

end Keeps

/-! ## Failing -/

/-- `sys_mbox_new` cannot get both of its semaphores. -/
def Lacks (s : Pools) (size : ℤ) : Prop :=
  size < MBOXSLOTS ∧ s.mboxFree ≠ [] ∧ s.semFree.length < 2

/-- If it cannot, it fails and leaves both pools as they were. -/
def FailsClean (s : Pools) (size : ℤ) : Prop :=
  Lacks s size → ∃ s', sysMboxNew size s = .ok NULL s' ∧
    s'.semFree = s.semFree ∧ s'.mboxFree = s.mboxFree ∧
    (∀ i, (s'.sems i).freed = (s.sems i).freed) ∧ ∀ i, (s'.mboxes i).freed = (s.mboxes i).freed

/-- Half a mailbox cannot be freed. -/
theorem sysMboxFree_null (hi : i < NMBOX) (hused : (s.mboxes i).freed = false)
    (hnull : (s.mboxes i).queuedMsg = NULL ∨
      (∃ a : ℕ, (s.mboxes i).queuedMsg = a ∧ a < NSEM ∧ (s.sems a).freed = false) ∧
        (s.mboxes i).freeMsg = NULL) : ∃ s', sysMboxFree i s = .error .index s' := by
  have hrange : 0 ≤ (i : ℤ) ∧ (i : ℤ) < NMBOX := by omega
  have hnone : ∀ s, sysSemFree NULL s = .error .index s := fun s => if_neg (by decide)
  rw [sysMboxFree, run_get_bind, if_pos hrange, Int.toNat_natCast, hused, if_neg (by decide)]
  obtain hq | ⟨⟨a, hq, ha, hsem⟩, hf⟩ := hnull
  · rw [hq, run_bind_error (hnone s)]
    exact ⟨s, rfl⟩
  · have hfirst : ∃ s₁, sysSemFree a s = .ok () s₁ := by
      unfold sysSemFree
      rw [if_pos (by omega), Int.toNat_natCast, hsem]
      exact ⟨_, rfl⟩
    obtain ⟨s₁, hs₁⟩ := hfirst
    rw [hq, hf, run_bind_ok hs₁, run_bind_error (hnone s₁)]
    exact ⟨s₁, rfl⟩

theorem sysSemNew_nil (h : s.semFree = []) (count : BitVec 8) : sysSemNew count s = .ok NULL s := by
  unfold sysSemNew
  simp only [h]

theorem sysSemNew_cons {a : ℕ} {rest : List ℕ} (h : s.semFree = a :: rest)
    (hfreed : (s.sems a).freed = true) (count : BitVec 8) :
    sysSemNew count s = .ok (a : ℤ) { s with
      semFree := rest
      sems := update s.sems a { s.sems a with
        freed := false, counter := count.setWidth 16, gen := (s.sems a).gen + 1#32 } } := by
  unfold sysSemNew
  simp only [h, if_pos hfreed]

/-- `sys_mbox_new` without one of its semaphores. -/
theorem mboxBuild_null {s₁ s₂ : Pools} {q f : ℤ}
    (hq : sysSemNew 0#8 (setMbox i (fun m => { m with head := -1, nextq := 0 }) s) = .ok q s₁)
    (hf : sysSemNew (BitVec.ofNat 8 MBOXSLOTS)
      (setMbox i (fun m => { m with queuedMsg := q }) s₁) = .ok f s₂)
    (hnull : q = NULL ∨ f = NULL) :
    mboxBuild i s = (do sysMboxFree i; pure NULL : PoolM ℤ)
      (setMbox i (fun m => { m with freeMsg := f }) s₂) := by
  rw [mboxBuild, run_modify_bind, run_bind_ok hq, run_modify_bind, run_bind_ok hf,
    run_modify_bind, if_pos hnull]

theorem mboxBuild_lacks (hi : i < NMBOX) (hused : (s.mboxes i).freed = false)
    (hsem : Exact NSEM s.semFree fun i => (s.sems i).freed) (hlen : s.semFree.length < 2) :
    ∃ s', mboxBuild i s = .error .index s' := by
  -- the first semaphore, if there is one, is given back before the index is used
  generalize hs₀ : setMbox i (fun m => { m with head := -1, nextq := 0 }) s = s₀
  have hused₀ : (s₀.mboxes i).freed = false := by
    rw [← hs₀]
    simpa [setMbox] using hused
  have hfree₀ : s₀.semFree = s.semFree := hs₀ ▸ rfl
  have hsems₀ : s₀.sems = s.sems := hs₀ ▸ rfl
  cases hfree : s.semFree with
  | nil =>
    have hq : sysSemNew 0#8 s₀ = .ok NULL s₀ := sysSemNew_nil (hfree₀.trans hfree) _
    have hf := sysSemNew_nil (s := setMbox i (fun m => { m with queuedMsg := NULL }) s₀)
      (hfree₀.trans hfree) (BitVec.ofNat 8 MBOXSLOTS)
    rw [mboxBuild_null (hs₀ ▸ hq) hf (Or.inl rfl)]
    refine (sysMboxFree_null hi ?_ (Or.inl ?_)).imp fun s' hs' => run_bind_error hs'
    · simpa [setMbox] using hused₀
    · simp [setMbox]
  | cons a rest =>
    obtain ⟨ha, hfreed⟩ := (hsem.mem_iff a).1 (by rw [hfree]; exact List.mem_cons_self)
    obtain rfl : rest = [] := by
      rw [hfree, List.length_cons] at hlen
      exact List.eq_nil_of_length_eq_zero (by omega)
    have hq := sysSemNew_cons (hfree₀.trans hfree) (hsems₀ ▸ hfreed) 0#8
    generalize hs₁ : ({ s₀ with
      semFree := []
      sems := update s₀.sems a { s₀.sems a with
        freed := false, counter := (0#8).setWidth 16, gen := (s₀.sems a).gen + 1#32 } } : Pools) =
      s₁ at hq
    have hf := sysSemNew_nil (s := setMbox i (fun m => { m with queuedMsg := a }) s₁)
      (hs₁ ▸ rfl) (BitVec.ofNat 8 MBOXSLOTS)
    rw [mboxBuild_null (hs₀ ▸ hq) hf (Or.inr rfl)]
    refine (sysMboxFree_null hi ?_ (Or.inr ⟨⟨a, ?_, ha, ?_⟩, ?_⟩)).imp
      fun s' hs' => run_bind_error hs'
    · simpa [setMbox, ← hs₁] using hused₀
    · simp [setMbox]
    · simp [setMbox, ← hs₁]
    · simp [setMbox]

/-- **Without two semaphores** `sys_mbox_new` frees one with the index -1. -/
theorem sysMboxNew_lacks {size : ℤ} (h : Inv s) (hl : Lacks s size) :
    ∃ s', sysMboxNew size s = .error .index s' := by
  obtain ⟨hsize, hmb, hsem⟩ := hl
  obtain ⟨mbe, rest, hfree⟩ := List.exists_cons_of_ne_nil hmb
  obtain ⟨hlt, hfreed⟩ := (h.mboxes.mem_iff mbe).1 (by rw [hfree]; exact List.mem_cons_self)
  unfold sysMboxNew
  simp only [if_pos hsize, hfree, if_pos hfreed]
  exact mboxBuild_lacks hlt (by simp [setMbox]) h.sems hsem

/-- **`sys_mbox_new` fails cleanly** exactly in the states in which it does not have to: with two
semaphores left, or without a mailbox.  The free lists are right in every state that calls lead
to. -/
theorem pools_iff (s : Pools) (h : Reachable s) (size : ℤ) :
    FailsClean s size ∧ Inv s ↔ ¬ Lacks s size := by
  have hinv := Inv.run h
  constructor
  · rintro ⟨hclean, -⟩ hl
    obtain ⟨s₁, hok, -⟩ := hclean hl
    obtain ⟨s₂, herr⟩ := sysMboxNew_lacks hinv hl
    rw [hok] at herr
    cases herr
  · exact fun hl => ⟨fun h => absurd h hl, hinv⟩

/-- The semaphores can be taken one by one. -/
theorem exists_taken (n : ℕ) (hn : n ≤ NSEM) :
    ∃ s, Reachable s ∧ s.semFree.length = NSEM - n ∧ s.mboxFree = sysInit.mboxFree := by
  induction n with
  | zero =>
    refine ⟨sysInit, .nil, ?_, rfl⟩
    simp only [sysInit, List.length_reverse, List.length_range, Nat.sub_zero]
  | succ n ih =>
    obtain ⟨s, hs, hlen, hmb⟩ := ih (by omega)
    cases hfree : s.semFree with
    | nil =>
      rw [hfree, List.length_nil] at hlen
      omega
    | cons a rest =>
      obtain ⟨-, hfreed⟩ := ((Inv.run hs).sems.mem_iff a).1 (by rw [hfree]; exact List.mem_cons_self)
      have hnew := sysSemNew_cons hfree hfreed 0#8
      refine ⟨_, .snoc hs trivial (show Step s (.semNew 0#8) _ from ⟨a, hnew⟩), ?_, hmb⟩
      rw [hfree, List.length_cons] at hlen
      show rest.length = NSEM - (n + 1)
      omega

/-- As after three calls of `sys_sem_new`. -/
theorem pools_taken : ∃ s, Reachable s ∧ s.semFree.length = 253 ∧ FailsClean s 8 ∧ Inv s := by
  obtain ⟨s, hs, hlen, -⟩ := exists_taken 3 (by decide)
  have henough : ¬ Lacks s 8 := fun hl => absurd hl.2.2 (by rw [hlen]; decide)
  exact ⟨s, hs, hlen, (pools_iff s hs 8).2 henough⟩

/-- One semaphore is left: `sys_mbox_new` uses the index -1. -/
theorem sysMboxNew_last : ∃ s s', Reachable s ∧ s.semFree.length = 1 ∧
    sysMboxNew 8 s = .error .index s' ∧ ¬ FailsClean s 8 := by
  obtain ⟨s, hs, hlen, hmb⟩ := exists_taken 255 (by decide)
  have hne : s.mboxFree ≠ [] := by
    rw [hmb]
    simp [sysInit, NMBOX]
  have hl : Lacks s 8 := ⟨by decide, hne, by rw [hlen]; decide⟩
  obtain ⟨s', hs'⟩ := sysMboxNew_lacks (Inv.run hs) hl
  refine ⟨s, s', hs, hlen, hs', fun hclean => ?_⟩
  obtain ⟨s₁, hok, -⟩ := hclean hl
  rw [hok] at hs'
  cases hs'

end Jos.SysArch
