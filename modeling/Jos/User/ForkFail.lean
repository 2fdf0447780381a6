import Jos.User.Spawn

/-!
# What a failed `fork` leaves

`fork` of `lib/fork.c` from its first system call to its last, for a parent that
runs alone, where the kernel may be out of memory at any point.

* `ask` — a request for memory.  A page table of the child is asked for when the
  first page is mapped through it; `pgfault` asks for a page when the parent
  writes to a page that is marked copy-on-write.
* `Run` — where the parent's code writes while it is in `fork`: to the page its
  stack pointer is in, and to the page of `_pgfault_handler`.
* `Req`, `forkRequests` — the requests that a `fork` makes, in order.  What becomes
  of the call is decided by the first one that is refused: `fork_outcome`.
* `fork_clean_iff` — a negative return value leaves no child exactly if there is
  no such return: the code never destroys the environment it has made.
-/

namespace Jos.ForkFail

open Jos.User Function
open Jos.Spawn (Perm UPage Space)

/-! ## The state -/

inductive Life where
  /-- Not there, or destroyed. -/
  | free
  /-- Made by `sys_exofork`. -/
  | embryo
  | runnable
  deriving DecidableEq

structure Sys where
  parent : Space
  child : Space
  /-- The page tables of the child. -/
  tables : ℕ → Bool
  life : Life
  /-- `_pgfault_handler` is set. -/
  handler : Bool
  /-- Whether there is memory, for this request and those to come. -/
  memory : ℕ → Bool

/-- `panic`. -/
inductive Stop where
  | panic
  deriving DecidableEq

abbrev M := EStateM Stop Sys

/-- The pages the parent writes to while it is in `fork`. -/
structure Run where
  /-- The page of the stack pointer. -/
  stack : ℕ
  /-- The page of `_pgfault_handler`. -/
  var : ℕ

/-- The pages `fork` looks at. -/
def dupRange : List ℕ := List.range' utextPage (ustacktopPage - utextPage)

/-- The page of `UXSTACKTOP - PGSIZE`. -/
def xstackPage : ℕ := 0xEEBFF

/-- The page table a page is mapped through. -/
def dir (n : ℕ) : ℕ := n / 1024

def Sys.setParent (s : Sys) (n : ℕ) (p : UPage) : Sys :=
  { s with parent := update s.parent n (some p) }

/-- `page_insert` into the child. -/
def Sys.setChild (s : Sys) (n : ℕ) (p : UPage) : Sys :=
  { s with child := update s.child n (some p), tables := update s.tables (dir n) true }

/-! ## System calls and faults -/

/-- Does the kernel find memory? -/
def ask : M Bool := do
  let s ← get
  modify fun s => { s with memory := fun n => s.memory (n + 1) }
  pure (s.memory 0)

/-- `pgfault`: a page of one's own, with the same bytes. -/
def pgfault (n : ℕ) (p : UPage) : M Unit := do
  if ← ask then
    modify fun s => s.setParent n ⟨p.bytes, .ofWritable true⟩
  else
    throw .panic

/-- A write to the page is a fault that `pgfault` serves. -/
def faults (p : UPage) : Bool := !p.perm.writable && p.perm.cow

/-- The parent writes to a page of its own. -/
def touch (n : ℕ) : M Unit := do
  let s ← get
  match s.parent n with
  | none => pure ()
  | some p => if faults p then pgfault n p else pure ()

/-- The exception stack of the parent, the first time. -/
def allocXstack : M Unit := do
  let s ← get
  if s.handler then
    pure ()
  else if ← ask then
    modify fun s => s.setParent xstackPage ⟨fun _ => 0#8, .ofWritable true⟩
  else
    throw .panic

/-- `set_pgfault_handler(pgfault)`. -/
def setPgfaultHandler (run : Run) : M Unit := do
  allocXstack
  touch run.var
  modify fun s => { s with handler := true }

/-- `sys_exofork`. -/
def sysExofork : M (Except Errno Unit) := do
  if ← ask then
    modify fun s => { s with child := fun _ => none, tables := fun _ => false, life := .embryo }
    pure (.ok ())
  else
    pure (.error .noMem)

/-- `sys_page_map(0, addr, envid, addr, perm)`, for a page `p` that is there. -/
def sysPageMapChild (n : ℕ) (p : UPage) (perm : Perm) : M (Except Errno Unit) := do
  let s ← get
  if s.tables (dir n) then
    modify fun s => s.setChild n ⟨p.bytes, perm⟩
    pure (.ok ())
  else if ← ask then
    modify fun s => s.setChild n ⟨p.bytes, perm⟩
    pure (.ok ())
  else
    pure (.error .noMem)

/-- `PTE_P | PTE_U | PTE_COW`. -/
def cowPerm : Perm := ⟨false, false, true, false⟩

/-- `duppage`.  The second mapping of a page is to itself and needs no memory. -/
def duppage (n : ℕ) (p : UPage) : M (Except Errno Unit) :=
  if p.perm.share then
    sysPageMapChild n p p.perm
  else if p.perm.writable || p.perm.cow then do
    match ← sysPageMapChild n p cowPerm with
    | .error x => pure (.error x)
    | .ok () => do
        modify fun s => s.setParent n ⟨p.bytes, cowPerm⟩
        pure (.ok ())
  else
    sysPageMapChild n p (.ofWritable false)

/-- The loop of `fork` over the pages in the list.  After `duppage` the next call, whichever it
is, writes to the stack. -/
def dupLoop (run : Run) : List ℕ → M (Except Errno Unit)
  | [] => pure (.ok ())
  | n :: l => do
      let s ← get
      match s.parent n with
      | none => dupLoop run l
      | some p => do
          match ← duppage n p with
          | .error x => pure (.error x)
          | .ok () => do
              touch run.stack
              dupLoop run l

/-- `sys_page_alloc(eid, UXSTACKTOP - PGSIZE, …)`: a page, and a page table if there is none. -/
def sysPageAllocChild : M (Except Errno Unit) := do
  if ← ask then
    sysPageMapChild xstackPage ⟨fun _ => 0#8, .ofWritable true⟩ (.ofWritable true)
  else
    pure (.error .noMem)

/-- The end of `fork`: the exception stack of the child, and then
`sys_env_set_pgfault_upcall` and `sys_env_set_status`, which find the child. -/
def startChild : M (Except Errno Unit) := do
  match ← sysPageAllocChild with
  | .error x => pure (.error x)
  | .ok () => do
      modify fun s => { s with life := .runnable }
      pure (.ok ())

/-- `fork`, from the loop over the pages in the list on. -/
def forkFrom (run : Run) (l : List ℕ) : M (Except Errno Unit) := do
  match ← dupLoop run l with
  | .error x => pure (.error x)
  | .ok () => startChild

/-- `fork`, once the handler is set. -/
def forkChild (run : Run) : M (Except Errno Unit) := do
  match ← sysExofork with
  | .error _ => throw .panic
  | .ok () => forkFrom run dupRange

/-- `fork`, in the parent.  The call itself writes to the stack. -/
def fork (run : Run) : M (Except Errno Unit) := do
  touch run.stack
  setPgfaultHandler run
  forkChild run

/-! ## The requests -/

/-- What memory is asked for. -/
inductive Req where
  /-- for the exception stack of the parent -/
  | handler
  /-- for the copy of a page, in `pgfault` -/
  | fault
  | exofork
  /-- for a page table of the child -/
  | table
  /-- for the exception stack of the child -/
  | xstack
  deriving DecidableEq

/-- Does the call return an error if it is refused?  It panics otherwise. -/
def Req.returns : Req → Bool
  | .table => true
  | .xstack => true
  | _ => false

/-- The first request that is refused. -/
def firstRefused (memory : ℕ → Bool) : List Req → Option Req
  | [] => none
  | r :: l => if memory 0 then firstRefused (fun n => memory (n + 1)) l else some r

/-- `duppage` marks the page copy-on-write. -/
def dupCow (p : UPage) : Bool := !p.perm.share && (p.perm.writable || p.perm.cow)

/-- The requests from the loop on, where the parent has the pages `m`. -/
def loopRequests (m : Space) (stack : ℕ) (tables : ℕ → Bool) : List ℕ → List Req
  | [] => .xstack :: if tables (dir xstackPage) then [] else [.table]
  | n :: l =>
    match m n with
    | none => loopRequests m stack tables l
    | some p =>
      (if tables (dir n) then [] else [.table]) ++
        ((if n = stack ∧ dupCow p then [.fault] else []) ++
          loopRequests m stack (update tables (dir n) true) l)

/-- The pages after a write to one of them. -/
def touched (m : Space) (n : ℕ) : Space :=
  match m n with
  | none => m
  | some p => if faults p then update m n (some ⟨p.bytes, .ofWritable true⟩) else m

/-- The pages once there is an exception stack. -/
def withXstack (s : Sys) (m : Space) : Space :=
  if s.handler then m else update m xstackPage (some ⟨fun _ => 0#8, .ofWritable true⟩)

/-- The request of a write. -/
def touchRequests (m : Space) (n : ℕ) : List Req := if (m n).any faults then [.fault] else []

/-- The requests of `fork`. -/
def forkRequests (run : Run) (s : Sys) : List Req :=
  let m := withXstack s (touched s.parent run.stack)
  touchRequests s.parent run.stack ++ ((if s.handler then [] else [.handler]) ++
    (touchRequests m run.var ++ (.exofork ::
      loopRequests (touched m run.var) run.stack (fun _ => false) dupRange)))

/-! ## What becomes of them -/

variable {f : Unit → M (Except Errno Unit)}

section Outcomes

variable {s s₁ s' : Sys} {run : Run} {n : ℕ} {p : UPage} {l : List ℕ} {m : Space}

/-- The memory of the parent reads as before. -/
def SameBytes (m m' : Space) : Prop := ∀ n, (m' n).map UPage.bytes = (m n).map UPage.bytes

theorem SameBytes.refl (m : Space) : SameBytes m m := fun _ => rfl

theorem SameBytes.trans {m₁ m₂ m₃ : Space} (h : SameBytes m₁ m₂) (h' : SameBytes m₂ m₃) :
    SameBytes m₁ m₃ := fun n => (h' n).trans (h n)

theorem SameBytes.update {perm : Perm} (hp : m n = some p) :
    SameBytes m (update m n (some ⟨p.bytes, perm⟩)) := by
  intro k
  by_cases hk : k = n
  · rw [hk, update_self, hp]
    rfl
  · rw [update_of_ne hk]

/-- What a refusal leads to, and what it leaves. -/
def Outcome (x : EStateM.Result Stop Sys (Except Errno Unit)) (s : Sys) : Option Req → Prop
  | none => ∃ s', x = .ok (.ok ()) s'
  | some r =>
    if r.returns then
      ∃ s', x = .ok (.error .noMem) s' ∧ s'.life = s.life ∧ SameBytes s.parent s'.parent
    else
      ∃ s', x = .error .panic s'

theorem Outcome.mono {x : EStateM.Result Stop Sys (Except Errno Unit)} {o : Option Req}
    (h : Outcome x s₁ o) (hlife : s₁.life = s.life) (hbytes : SameBytes s.parent s₁.parent) :
    Outcome x s o := by
  cases o with
  | none => exact h
  | some r =>
    rw [Outcome] at h ⊢
    split at h
    · next hr =>
        obtain ⟨s', hx, hl, hb⟩ := h
        rw [if_pos hr]
        exact ⟨s', hx, hl.trans hlife, hbytes.trans hb⟩
    · next hr =>
        rw [if_neg hr]
        exact h

/-- The state after a request. -/
def Sys.asked (s : Sys) : Sys := { s with memory := fun n => s.memory (n + 1) }

theorem ask_run (s : Sys) : ask s = .ok (s.memory 0) s.asked := rfl

variable {rs : List Req}

theorem firstRefused_granted {memory : ℕ → Bool} {r : Req} (h : memory 0 = true) :
    firstRefused memory (r :: rs) = firstRefused (fun n => memory (n + 1)) rs := by
  rw [firstRefused, if_pos h]

theorem firstRefused_refused {memory : ℕ → Bool} {r : Req} (h : memory 0 = false) :
    firstRefused memory (r :: rs) = some r := by
  rw [firstRefused, if_neg (by rw [h]; exact Bool.false_ne_true)]

/-! ### Writes -/

theorem touch_quiet (h : (s.parent n).any faults = false) : touch n s = .ok () s := by
  rw [touch, run_get_bind]
  cases hp : s.parent n with
  | none => rfl
  | some p =>
    rw [hp, Option.any_some] at h
    simp only [h]
    rfl

theorem touch_granted (hp : s.parent n = some p) (hf : faults p = true)
    (hm : s.memory 0 = true) :
    touch n s = .ok () (s.asked.setParent n ⟨p.bytes, .ofWritable true⟩) := by
  rw [touch, run_get_bind]
  simp only [hp, hf, if_true]
  rw [pgfault, run_bind_ok (ask_run s), hm]
  rfl

theorem touch_refused (hp : s.parent n = some p) (hf : faults p = true)
    (hm : s.memory 0 = false) : touch n s = .error .panic s.asked := by
  rw [touch, run_get_bind]
  simp only [hp, hf, if_true]
  rw [pgfault, run_bind_ok (ask_run s), hm]
  rfl

theorem touched_of_ne {k : ℕ} (h : k ≠ n) : touched m n k = m k := by
  rw [touched]
  cases m n with
  | none => rfl
  | some p =>
    show (if faults p = true then _ else m) k = m k
    split
    · exact update_of_ne h ..
    · rfl

theorem touched_quiet (h : (m n).any faults = false) : touched m n = m := by
  rw [touched]
  cases hp : m n with
  | none => rfl
  | some p =>
    rw [hp, Option.any_some] at h
    simp only [h]
    rfl

/-- After a write there is no fault. -/
theorem touched_self : (touched m n n).any faults = false := by
  cases hany : (m n).any faults with
  | false => rwa [touched_quiet hany]
  | true =>
    cases hp : m n with
    | none => rw [hp] at hany; cases hany
    | some p =>
      rw [hp, Option.any_some] at hany
      simp only [touched, hp, hany, if_true, update_self]
      rfl

theorem sameBytes_touched : SameBytes m (touched m n) := by
  rw [touched]
  split
  · exact .refl m
  · next hp =>
      split
      · exact .update hp
      · exact .refl m

/-- **A write**, and then the rest of the call. -/
theorem touch_outcome
    (hgo : ∀ s₁ : Sys, s₁ = { s with parent := touched s.parent n, memory := s₁.memory } →
      Outcome (f () s₁) s' (firstRefused s₁.memory rs)) :
    Outcome ((touch n >>= f) s) s' (firstRefused s.memory (touchRequests s.parent n ++ rs)) := by
  cases hany : (s.parent n).any faults with
  | false =>
    rw [run_bind_ok (touch_quiet hany), touchRequests, hany, if_neg Bool.false_ne_true,
      List.nil_append]
    exact hgo s (by rw [touched_quiet hany])
  | true =>
    obtain ⟨p, hp, hf⟩ : ∃ p, s.parent n = some p ∧ faults p = true := by
      cases hp : s.parent n with
      | none => rw [hp] at hany; cases hany
      | some p => exact ⟨p, rfl, by rwa [hp] at hany⟩
    rw [touchRequests, hany, if_pos rfl, List.singleton_append]
    cases hm : s.memory 0 with
    | false =>
      rw [run_bind_error (touch_refused hp hf hm), firstRefused_refused hm]
      exact ⟨_, rfl⟩
    | true =>
      rw [run_bind_ok (touch_granted hp hf hm), firstRefused_granted hm]
      have htouched : touched s.parent n
          = update s.parent n (some ⟨p.bytes, .ofWritable true⟩) := by
        rw [touched]
        simp only [hp, hf, if_true]
      refine hgo (s.asked.setParent n ⟨p.bytes, .ofWritable true⟩) ?_
      rw [htouched]
      rfl

/-! ### The loop -/

/-- What the child is mapped. -/
def childPerm (p : UPage) : Perm :=
  if p.perm.share then p.perm
  else if p.perm.writable || p.perm.cow then cowPerm else .ofWritable false

/-- The state after `duppage`. -/
def Sys.duped (s : Sys) (n : ℕ) (p : UPage) : Sys :=
  if dupCow p then (s.setChild n ⟨p.bytes, childPerm p⟩).setParent n ⟨p.bytes, cowPerm⟩
  else s.setChild n ⟨p.bytes, childPerm p⟩

theorem sysPageMapChild_present (h : s.tables (dir n) = true) (perm : Perm) :
    sysPageMapChild n p perm s = .ok (.ok ()) (s.setChild n ⟨p.bytes, perm⟩) := by
  rw [sysPageMapChild, run_get_bind, if_pos h]
  rfl

theorem sysPageMapChild_granted (h : s.tables (dir n) = false) (hm : s.memory 0 = true)
    (perm : Perm) :
    sysPageMapChild n p perm s = .ok (.ok ()) (s.asked.setChild n ⟨p.bytes, perm⟩) := by
  rw [sysPageMapChild, run_get_bind, h, if_neg Bool.false_ne_true, run_bind_ok (ask_run s), hm]
  rfl

theorem sysPageMapChild_refused (h : s.tables (dir n) = false) (hm : s.memory 0 = false)
    (perm : Perm) : sysPageMapChild n p perm s = .ok (.error .noMem) s.asked := by
  rw [sysPageMapChild, run_get_bind, h, if_neg Bool.false_ne_true, run_bind_ok (ask_run s), hm]
  rfl

/-- `duppage` is one mapping into the child, and does the rest only if that succeeds. -/
theorem duppage_of_ok (h : ∀ perm, sysPageMapChild n p perm s
      = .ok (.ok ()) (s₁.setChild n ⟨p.bytes, perm⟩)) :
    duppage n p s = .ok (.ok ()) (s₁.duped n p) := by
  rw [duppage, Sys.duped, childPerm, dupCow]
  cases p.perm.share with
  | true => exact h _
  | false =>
    cases p.perm.writable || p.perm.cow with
    | true => exact run_bind_ok (h _)
    | false => exact h _

theorem duppage_of_error (h : ∀ perm, sysPageMapChild n p perm s = .ok (.error .noMem) s₁) :
    duppage n p s = .ok (.error .noMem) s₁ := by
  rw [duppage]
  cases p.perm.share with
  | true => exact h _
  | false =>
    cases p.perm.writable || p.perm.cow with
    | true => exact run_bind_ok (h _)
    | false => exact h _

theorem duped_tables : (s.duped n p).tables = update s.tables (dir n) true := by
  rw [Sys.duped]
  split <;> rfl

theorem duped_life : (s.duped n p).life = s.life := by
  rw [Sys.duped]
  split <;> rfl

theorem duped_memory : (s.duped n p).memory = s.memory := by
  rw [Sys.duped]
  split <;> rfl

theorem duped_parent : (s.duped n p).parent =
    if dupCow p then update s.parent n (some ⟨p.bytes, cowPerm⟩) else s.parent := by
  rw [Sys.duped]
  split <;> rfl

theorem duped_parent_of_ne {k : ℕ} (h : k ≠ n) : (s.duped n p).parent k = s.parent k := by
  rw [duped_parent]
  split
  · exact update_of_ne h ..
  · rfl

theorem sameBytes_duped (hp : s.parent n = some p) : SameBytes s.parent (s.duped n p).parent := by
  rw [duped_parent]
  split
  · exact .update hp
  · exact .refl _

/-- The stack is written to after `duppage`: it faults if that was its page. -/
theorem touchRequests_duped (run : Run)
    (hquiet : (s.parent run.stack).any faults = false) :
    touchRequests (s.duped n p).parent run.stack =
      if n = run.stack ∧ dupCow p then [.fault] else [] := by
  have hany : ((s.duped n p).parent run.stack).any faults = true ↔
      n = run.stack ∧ dupCow p = true := by
    rw [duped_parent]
    by_cases hcow : dupCow p = true
    · rw [if_pos hcow]
      by_cases hn : n = run.stack
      · rw [hn, update_self]
        exact iff_of_true rfl ⟨rfl, hcow⟩
      · rw [update_of_ne (Ne.symm hn), hquiet]
        simp [hn]
    · rw [if_neg hcow, hquiet]
      simp [hcow]
  rw [touchRequests]
  exact if_congr hany rfl rfl

theorem forkFrom_none (h : s.parent n = none) : forkFrom run (n :: l) s = forkFrom run l s := by
  have hloop : dupLoop run (n :: l) s = dupLoop run l s := by
    rw [dupLoop, run_get_bind]
    simp only [h]
  rw [forkFrom, forkFrom]
  show EStateM.bind _ _ s = EStateM.bind _ _ s
  simp only [EStateM.bind, hloop]

theorem forkFrom_error {x : Errno} (h : s.parent n = some p)
    (hdup : duppage n p s = .ok (.error x) s₁) : forkFrom run (n :: l) s = .ok (.error x) s₁ := by
  have hloop : dupLoop run (n :: l) s = .ok (.error x) s₁ := by
    rw [dupLoop, run_get_bind]
    simp only [h]
    exact run_bind_ok hdup
  rw [forkFrom, run_bind_ok hloop]
  rfl

theorem forkFrom_ok (h : s.parent n = some p) (hdup : duppage n p s = .ok (.ok ()) s₁) :
    forkFrom run (n :: l) s = (touch run.stack >>= fun _ => forkFrom run l) s₁ := by
  have hloop : dupLoop run (n :: l) s = (touch run.stack >>= fun _ => dupLoop run l) s₁ := by
    rw [dupLoop, run_get_bind]
    simp only [h]
    exact run_bind_ok hdup
  have hassoc : (touch run.stack >>= fun _ => forkFrom run l) =
      ((touch run.stack >>= fun _ => dupLoop run l) >>= _) := (bind_assoc ..).symm
  rw [hassoc, forkFrom]
  show EStateM.bind _ _ s = EStateM.bind _ _ s₁
  simp only [EStateM.bind, hloop]

/-- The page for the exception stack of the child. -/
def xstack : UPage := ⟨fun _ => 0#8, .ofWritable true⟩

theorem startChild_refused (h : s.memory 0 = false) :
    startChild s = .ok (.error .noMem) s.asked := by
  have halloc : sysPageAllocChild s = .ok (.error .noMem) s.asked := by
    rw [sysPageAllocChild, run_bind_ok (ask_run s), h]
    rfl
  exact run_bind_ok halloc

theorem sysPageAllocChild_granted (h : s.memory 0 = true) :
    sysPageAllocChild s = sysPageMapChild xstackPage xstack xstack.perm s.asked := by
  rw [sysPageAllocChild, run_bind_ok (ask_run s), h]
  rfl

/-- The end of `fork`. -/
theorem startChild_outcome (s : Sys) : Outcome (startChild s) s
    (firstRefused s.memory (.xstack :: if s.tables (dir xstackPage) then [] else [.table])) := by
  cases hm : s.memory 0 with
  | false =>
    rw [startChild_refused hm, firstRefused_refused hm]
    exact ⟨_, rfl, rfl, .refl _⟩
  | true =>
    have halloc := sysPageAllocChild_granted hm
    rw [firstRefused_granted hm]
    cases htab : s.tables (dir xstackPage) with
    | true =>
      rw [sysPageMapChild_present (s := s.asked) htab] at halloc
      exact ⟨_, run_bind_ok halloc⟩
    | false =>
      rw [if_neg Bool.false_ne_true]
      cases hm₁ : s.memory 1 with
      | false =>
        rw [sysPageMapChild_refused (s := s.asked) htab hm₁] at halloc
        rw [firstRefused_refused hm₁]
        exact ⟨_, run_bind_ok halloc, rfl, .refl _⟩
      | true =>
        rw [sysPageMapChild_granted (s := s.asked) htab hm₁] at halloc
        rw [firstRefused_granted hm₁]
        exact ⟨_, run_bind_ok halloc⟩

/-- **The loop and the end of `fork`.** -/
theorem forkFrom_outcome (l : List ℕ) : ∀ {s : Sys}, l.Nodup → (∀ k ∈ l, s.parent k = m k) →
    (s.parent run.stack).any faults = false →
    Outcome (forkFrom run l s) s
      (firstRefused s.memory (loopRequests m run.stack s.tables l)) := by
  -- on the pages to go: those are as they were, and the stack can be written to
  induction l with
  | nil => exact fun _ _ _ => startChild_outcome _
  | cons n l ih =>
    intro s hnodup hsame hquiet
    obtain ⟨hn, hnodup⟩ := List.nodup_cons.1 hnodup
    have hpn := hsame n (List.mem_cons_self ..)
    cases hp : m n with
    | none =>
      rw [forkFrom_none (hpn.trans hp), loopRequests]
      simp only [hp]
      exact ih hnodup (fun k hk => hsame k (List.mem_cons_of_mem _ hk)) hquiet
    | some p =>
      rw [hp] at hpn
      rw [loopRequests]
      simp only [hp]
      -- once the page is mapped into the child
      have hrest : ∀ t : Sys, t.parent = s.parent → t.tables = s.tables → t.life = s.life →
          Outcome ((touch run.stack >>= fun _ => forkFrom run l) (t.duped n p)) s
            (firstRefused t.memory ((if n = run.stack ∧ dupCow p then [.fault] else []) ++
              loopRequests m run.stack (update s.tables (dir n) true) l)) := by
        intro t hpar htab hlife
        have hreq := touchRequests_duped run (s := t) (n := n) (p := p)
          (hpar ▸ hquiet)
        rw [← hreq, ← duped_memory (s := t) (n := n) (p := p), ← htab]
        refine touch_outcome fun s₁ hs₁ => ?_
        have hpar₁ : s₁.parent = touched (t.duped n p).parent run.stack := by rw [hs₁]
        have htab₁ : s₁.tables = update t.tables (dir n) true := by
          rw [hs₁, ← duped_tables]
        have hlife₁ : s₁.life = s.life := by
          rw [hs₁, ← hlife]
          exact duped_life
        have hbytes : SameBytes s.parent s₁.parent := by
          rw [hpar₁, ← hpar]
          exact (sameBytes_duped (hpar ▸ hpn)).trans sameBytes_touched
        rw [← htab₁]
        refine (ih hnodup (fun k hk => ?_) ?_).mono hlife₁ hbytes
        · have hkn : k ≠ n := fun h => hn (h ▸ hk)
          rw [hpar₁, ← hsame k (List.mem_cons_of_mem _ hk), ← hpar]
          by_cases hks : k = run.stack
          · have hq : ((t.duped n p).parent run.stack).any faults = false := by
              rw [duped_parent_of_ne (hks ▸ hkn), hpar]
              exact hquiet
            rw [touched_quiet hq, duped_parent_of_ne hkn]
          · rw [touched_of_ne hks, duped_parent_of_ne hkn]
        · rw [hpar₁]
          exact touched_self
      cases htab : s.tables (dir n) with
      | true =>
        rw [if_pos rfl, List.nil_append,
          forkFrom_ok hpn (duppage_of_ok fun perm => sysPageMapChild_present htab perm)]
        exact hrest s rfl rfl rfl
      | false =>
        rw [if_neg Bool.false_ne_true, List.singleton_append]
        cases hm : s.memory 0 with
        | false =>
          rw [firstRefused_refused hm, forkFrom_error hpn
            (duppage_of_error fun perm => sysPageMapChild_refused htab hm perm)]
          exact ⟨_, rfl, rfl, .refl _⟩
        | true =>
          rw [firstRefused_granted hm, forkFrom_ok hpn
            (duppage_of_ok fun perm => sysPageMapChild_granted htab hm perm)]
          exact hrest s.asked rfl rfl rfl

end Outcomes

/-! ## `fork` -/

section Fork

variable {s s₁ s' : Sys} {run : Run} {m m' : Space}

theorem SameBytes.withXstack (h : SameBytes m m') :
    SameBytes (withXstack s m) (withXstack s m') := by
  intro n
  rw [ForkFail.withXstack, ForkFail.withXstack]
  split
  · exact h n
  · by_cases hn : n = xstackPage
    · rw [hn, update_self, update_self]
    · rw [update_of_ne hn, update_of_ne hn]
      exact h n

/-- At the loop the stack can be written to. -/
theorem stack_quiet (s : Sys) (run : Run) : (touched (withXstack s (touched s.parent run.stack)) run.var
    run.stack).any faults = false := by
  have hquiet : (withXstack s (touched s.parent run.stack) run.stack).any faults = false := by
    rw [withXstack]
    split
    · exact touched_self
    · by_cases hn : run.stack = xstackPage
      · rw [hn, update_self]
        rfl
      · rw [update_of_ne hn]
        exact touched_self
  by_cases hn : run.stack = run.var
  · rw [hn]
    exact touched_self
  · rwa [touched_of_ne hn]

theorem dupRange_nodup : dupRange.Nodup := List.nodup_range'

/-- The state after `sys_exofork`. -/
def Sys.forked (s : Sys) : Sys :=
  { s with child := fun _ => none, tables := fun _ => false, life := .embryo }

/-- The child is made, and the pages are copied. -/
theorem forkChild_outcome (hquiet : (s.parent run.stack).any faults = false) :
    Outcome (forkChild run s) { s with life := .embryo }
      (firstRefused s.memory
        (.exofork :: loopRequests s.parent run.stack (fun _ => false) dupRange)) := by
  cases hm : s.memory 0 with
  | false =>
    have hrun : sysExofork s = .ok (.error .noMem) s.asked := by
      rw [sysExofork, run_bind_ok (ask_run s), hm]
      rfl
    rw [firstRefused_refused hm]
    exact ⟨_, run_bind_ok hrun⟩
  | true =>
    have hrun : sysExofork s = .ok (.ok ()) s.asked.forked := by
      rw [sysExofork, run_bind_ok (ask_run s), hm]
      rfl
    rw [firstRefused_granted hm, show forkChild run s = forkFrom run dupRange
      s.asked.forked from run_bind_ok hrun]
    exact (forkFrom_outcome (s := s.asked.forked) (m := s.parent) _ dupRange_nodup
      (fun _ _ => rfl) hquiet).mono rfl (.refl _)

/-- From the write to `_pgfault_handler` on. -/
theorem var_outcome (hquiet : (touched s.parent run.var run.stack).any faults = false) :
    Outcome ((touch run.var >>= fun _ => (modify fun s : Sys => { s with handler := true }) >>=
        fun _ => forkChild run) s) { s with life := .embryo }
      (firstRefused s.memory (touchRequests s.parent run.var ++ (.exofork ::
        loopRequests (touched s.parent run.var) run.stack (fun _ => false)
          dupRange))) := by
  refine touch_outcome fun s₁ hs₁ => ?_
  have hpar : s₁.parent = touched s.parent run.var := by rw [hs₁]
  rw [run_modify_bind, ← hpar]
  rw [← hpar] at hquiet
  refine (forkChild_outcome (s := { s₁ with handler := true }) hquiet).mono rfl ?_
  show SameBytes s.parent s₁.parent
  rw [hpar]
  exact sameBytes_touched

theorem setPgfaultHandler_bind :
    (setPgfaultHandler run >>= f) = allocXstack >>= fun _ => touch run.var >>= fun _ =>
      (modify fun s : Sys => { s with handler := true }) >>= f := by
  rw [setPgfaultHandler]
  simp only [bind_assoc]

/-- **What becomes of `fork`** is decided by the first request that is refused.  If it returns an
error, the child is there. -/
theorem fork_outcome (run : Run) (s : Sys) :
    Outcome (fork run s) { s with parent := withXstack s s.parent, life := .embryo }
      (firstRefused s.memory (forkRequests run s)) := by
  refine touch_outcome fun s₁ hs₁ => ?_
  have hpar : s₁.parent = touched s.parent run.stack := by rw [hs₁]
  have hhandler : s₁.handler = s.handler := by rw [hs₁]
  have hbytes : SameBytes (withXstack s s.parent) (withXstack s s₁.parent) := by
    rw [hpar]
    exact sameBytes_touched.withXstack
  have hquiet := stack_quiet s run
  rw [← hpar] at hquiet ⊢
  rw [setPgfaultHandler_bind]
  cases hset : s.handler with
  | true =>
    have hx : withXstack s s₁.parent = s₁.parent := if_pos hset
    have hrun : allocXstack s₁ = .ok () s₁ := by
      rw [allocXstack, run_get_bind, if_pos (hhandler.trans hset)]
      rfl
    rw [hx] at hquiet hbytes ⊢
    rw [run_bind_ok hrun]
    exact (var_outcome hquiet).mono rfl hbytes
  | false =>
    have hx : withXstack s s₁.parent = (s₁.asked.setParent xstackPage xstack).parent :=
      if_neg (by rw [hset]; exact Bool.false_ne_true)
    have hfirst : ¬ s₁.handler = true := by
      rw [hhandler, hset]
      exact Bool.false_ne_true
    rw [if_neg Bool.false_ne_true, List.singleton_append]
    cases hm : s₁.memory 0 with
    | false =>
      have hrun : allocXstack s₁ = .error .panic s₁.asked := by
        rw [allocXstack, run_get_bind, if_neg hfirst, run_bind_ok (ask_run s₁), hm]
        rfl
      rw [firstRefused_refused hm]
      exact ⟨_, run_bind_error hrun⟩
    | true =>
      have hrun : allocXstack s₁ = .ok () (s₁.asked.setParent xstackPage xstack) := by
        rw [allocXstack, run_get_bind, if_neg hfirst, run_bind_ok (ask_run s₁), hm]
        rfl
      rw [firstRefused_granted hm, run_bind_ok hrun, hx]
      rw [hx] at hquiet hbytes
      exact (var_outcome hquiet).mono rfl hbytes

/-- **A negative return value leaves nothing behind**: no child, and the memory of the parent as
it was. -/
def Clean (run : Run) (s : Sys) : Prop :=
  ∀ x s', fork run s = .ok (.error x) s' → s'.life = .free ∧ SameBytes s.parent s'.parent

/-- The child is left behind whenever `fork` returns a negative value: it does so if a page table
or the exception stack of the child is refused, and panics if anything else is refused before. -/
theorem fork_clean_iff (run : Run) (s : Sys) :
    Clean run s ↔ ∀ r, firstRefused s.memory (forkRequests run s) = some r → r.returns = false := by
  have hout := fork_outcome run s
  constructor
  · intro hclean r hr
    rw [hr, Outcome] at hout
    by_contra hret
    rw [Bool.not_eq_false] at hret
    rw [if_pos hret] at hout
    obtain ⟨s', hrun, hlife, -⟩ := hout
    have hfree := (hclean _ s' hrun).1
    rw [hlife] at hfree
    cases hfree
  · intro hno x s' hrun
    cases hr : firstRefused s.memory (forkRequests run s) with
    | none =>
      rw [hr] at hout
      obtain ⟨t, ht⟩ := hout
      rw [hrun] at ht
      cases ht
    | some r =>
      rw [hr, Outcome, hno r hr, if_neg Bool.false_ne_true] at hout
      obtain ⟨t, ht⟩ := hout
      rw [hrun] at ht
      cases ht

/-- What a negative return value does leave as it was: the bytes of the parent, but for the
exception stack it may have been given. -/
theorem fork_error_bytes {x : Errno} (h : fork run s = .ok (.error x) s') :
    s'.life = .embryo ∧ SameBytes (withXstack s s.parent) s'.parent := by
  have hout := fork_outcome run s
  cases hr : firstRefused s.memory (forkRequests run s) with
  | none =>
    rw [hr] at hout
    obtain ⟨t, ht⟩ := hout
    rw [h] at ht
    cases ht
  | some r =>
    rw [hr, Outcome] at hout
    split at hout
    · obtain ⟨t, ht, hlife, hbytes⟩ := hout
      rw [h] at ht
      cases ht
      exact ⟨hlife, hbytes⟩
    · obtain ⟨t, ht⟩ := hout
      rw [h] at ht
      cases ht

/-- A program with a page of text, a page of data and a stack, and memory for two requests. -/
def scarce : Sys where
  parent n :=
    if n = utextPage then some ⟨fun _ => 0#8, .ofWritable false⟩
    else if n = utextPage + 1 ∨ n = ustacktopPage - 1 then some ⟨fun _ => 0#8, .ofWritable true⟩
    else none
  child _ := none
  tables _ := false
  life := .free
  handler := false
  memory n := decide (n < 2)

def scarceRun : Run := ⟨ustacktopPage - 1, utextPage + 1⟩

/-- **A child is left behind**: there is no memory for its first page table. -/
theorem fork_leaves_child : ∃ s', fork scarceRun scarce = .ok (.error .noMem) s' ∧
    s'.life = .embryo ∧ ¬ Clean scarceRun scarce := by
  have hreq : firstRefused scarce.memory (forkRequests scarceRun scarce) = some .table := rfl
  have hout := fork_outcome scarceRun scarce
  rw [hreq] at hout
  obtain ⟨s', hrun, hlife, -⟩ := hout
  refine ⟨s', hrun, hlife, fun hclean => ?_⟩
  have hfree := (hclean _ s' hrun).1
  rw [hlife] at hfree
  cases hfree

end Fork

end Jos.ForkFail
