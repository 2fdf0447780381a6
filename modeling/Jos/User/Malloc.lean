import Jos.Lib.Cow
import Jos.Lib.Lts
import Jos.Lib.Wp
import Jos.User.Fd

/-!
# `malloc`, `free` and `fork`

`lib/malloc.c` over page table entries and frames, with what `lib/fork.c` does to
them.  `malloc` hands out memory between `mbegin` and `mend`.  Small requests are
cut off the page it is working on, and the last word of that page counts the
pieces; a larger request gets pages of its own, and all of them but the last are
marked `PTE_CONTINUED`, so that `free` finds the last one.

* Addresses are numbers below `2 ^ 32`.  A frame is an array of words; everything
  here is a multiple of four, so a byte that user code writes lies in a word of
  the same block.
* A call of `malloc` or `free` is one step.  It works on the pages of one
  environment, and no step of another one maps or writes them: the other has
  frames of its own, or has to make them its own first.
* `sys_page_alloc` takes the next frame of `free`, and has none when that is
  empty.  Every call starts with a list of frames that nobody has mapped; which
  of them it gets makes no difference to any step, so a frame that the call
  itself gives back need not be considered.
* A store to a page marked copy-on-write goes through `pgfault`, which panics if
  it gets no frame.  `PFTEMP` is mapped only in between.
* What `fork` does to the rest of the address space is not followed here.

The blocks that are in use are not part of the program: `live` is the ledger of
the runs.
-/

namespace Jos.Malloc

open Jos.User Function

/-! ## The state -/

/-- A present page table entry. -/
structure Pte where
  frame : ℕ
  writable : Bool
  cow : Bool
  share : Bool
  /-- `PTE_CONTINUED`. -/
  continued : Bool
  deriving DecidableEq

inductive Life where
  /-- Not one of these environments. -/
  | free
  /-- Made by `sys_exofork` and not yet runnable. -/
  | embryo
  | running
  deriving DecidableEq

/-- A block that `malloc` has handed out. -/
structure Block where
  addr : ℕ
  /-- The size, rounded up as `malloc` does. -/
  size : ℕ
  /-- Whether `fork` was called since. -/
  forked : Bool
  deriving DecidableEq

/-- A page of an environment. -/
abbrev Site := EnvIdx × ℕ

structure Sys where
  mem : ℕ → Idx → Word
  pt : Site → Option Pte
  mptr : EnvIdx → ℕ
  /-- What `page_alloc` hands out. -/
  free : List ℕ
  life : EnvIdx → Life
  /-- The blocks in use. -/
  live : EnvIdx → List Block

/-- Why an environment panics. -/
inductive Stop where
  /-- A failed `assert`. -/
  | assertion
  /-- `pgfault:not writabled or a COW page!`. -/
  | pgfault
  /-- `pgfault:page allocation failed`. -/
  | noMem
  deriving DecidableEq

abbrev M := EStateM Stop Sys

/-- Max size of one allocated chunk. -/
def MAXMALLOC : ℕ := 1024 * 1024

def mbegin : ℕ := 0x08000000
def mend : ℕ := 0x10000000

/-- The pages from `mbegin` to `mend`. -/
def Arena (pn : ℕ) : Prop := 0x8000 ≤ pn ∧ pn < 0x10000

instance (pn : ℕ) : Decidable (Arena pn) := inferInstanceAs (Decidable (_ ∧ _))

/-- The last word of a page, where `malloc` keeps its count. -/
def refIdx : Idx := ⟨1023, Nat.lt_succ_self 1023⟩

/-! ## System calls and memory accesses -/

def Sys.setPte (s : Sys) (x : Site) (p : Option Pte) : Sys := { s with pt := update s.pt x p }

def Sys.setWord (s : Sys) (f : ℕ) (i : Idx) (w : Word) : Sys :=
  { s with mem := update s.mem f (update (s.mem f) i w) }

def Sys.setMptr (s : Sys) (e : EnvIdx) (m : ℕ) : Sys := { s with mptr := update s.mptr e m }

/-- A frame with the given contents, mapped at a site. -/
def Sys.install (s : Sys) (x : Site) (p : Pte) (c : Idx → Word) (r : List ℕ) : Sys :=
  { s with mem := update s.mem p.frame c, pt := update s.pt x (some p), free := r }

/-- `sys_page_alloc(0, pn * PGSIZE, PTE_P|PTE_U|PTE_W|cont)`: whether it succeeds. -/
def sysPageAlloc (e : EnvIdx) (pn : ℕ) (cont : Bool) : M Bool := do
  let s ← get
  if pn ≥ utopPage then
    pure false
  else
    match s.free with
    | [] => pure false
    | f :: r => do
        modify fun s => s.install (e, pn) ⟨f, true, false, false, cont⟩ (fun _ => 0#32) r
        pure true

/-- `sys_page_unmap(0, pn * PGSIZE)`. -/
def sysPageUnmap (e : EnvIdx) (pn : ℕ) : M Unit :=
  if pn ≥ utopPage then pure () else modify fun s => s.setPte (e, pn) none

/-- A word is read. -/
def loadWord (e : EnvIdx) (pn : ℕ) (i : Idx) : M Word := do
  let s ← get
  match s.pt (e, pn) with
  | none => throw .pgfault
  | some p => pure (s.mem p.frame i)

/-- A word is written, after `pgfault` if the page is marked copy-on-write. -/
def storeWord (e : EnvIdx) (pn : ℕ) (i : Idx) (w : Word) : M Unit := do
  let s ← get
  match s.pt (e, pn) with
  | none => throw .pgfault
  | some p =>
    if p.writable then
      modify fun s => s.setWord p.frame i w
    else if p.cow then
      match s.free with
      | [] => throw .noMem
      | f :: r =>
        modify fun s =>
          (s.install (e, pn) ⟨f, true, false, false, false⟩ (s.mem p.frame) r).setWord f i w
    else
      throw .pgfault

/-- `uvpt[pn] & PTE_CONTINUED`. -/
def Sys.continued (s : Sys) (e : EnvIdx) (pn : ℕ) : Bool := (s.pt (e, pn)).any Pte.continued

/-! ## `free` -/

/-- The loop of `free`.  The fuel is the distance to `mend`, where the assertion
in the loop fails. -/
def freeLoop (e : EnvIdx) : ℕ → ℕ → M ℕ
  | 0, _ => throw .assertion
  | fuel + 1, c => do
      let s ← get
      if s.continued e c then do
        sysPageUnmap e c
        freeLoop e fuel (c + 1)
      else
        pure c

/-- What `free` does with the last page of a block. -/
def freeRef (e : EnvIdx) (c : ℕ) : M Unit := do
  let w ← loadWord e c refIdx
  storeWord e c refIdx (w - 1#32)
  if w - 1#32 = 0#32 then sysPageUnmap e c else pure ()

/-- `free`. -/
def free (e : EnvIdx) (v : ℕ) : M Unit :=
  if v = 0 then
    pure ()
  else if mbegin ≤ v ∧ v < mend then do
    let c ← freeLoop e (mend / PGSIZE - v / PGSIZE) (v / PGSIZE)
    freeRef e c
  else
    throw .assertion

/-! ## `malloc` -/

/-- `isfree`. -/
def isfree (s : Sys) (e : EnvIdx) (v n : ℕ) : Bool :=
  (List.range (((v + n) % 2 ^ 32 - v + (PGSIZE - 1)) / PGSIZE)).all fun k =>
    decide (v + k * PGSIZE < mend) && (s.pt (e, v / PGSIZE + k)).isNone

/-- How the search for address space ends. -/
inductive Seek where
  | found (m : ℕ)
  | full
  | fuel
  deriving DecidableEq

/-- Enough for `mptr` to come to `mend` from anywhere, and to go from `mbegin` to
`mend` once more. -/
def seekFuel : ℕ := 0x110000

/-- The `while (1)` loop of `malloc`. -/
def seek (s : Sys) (e : EnvIdx) (n : ℕ) : ℕ → ℕ → ℕ → Seek
  | 0, _, _ => .fuel
  | fuel + 1, nwrap, m =>
    if isfree s e m n then
      .found m
    else if (m + PGSIZE) % 2 ^ 32 = mend then
      if nwrap + 1 = 2 then .full else seek s e n fuel (nwrap + 1) mbegin
    else
      seek s e n fuel nwrap ((m + PGSIZE) % 2 ^ 32)

/-- The loop that allocates the pages of a block of `n` bytes at page `pn`, with
`k` of them done and `left` to do; if one cannot be had, all are given back. -/
def mapPages (e : EnvIdx) (pn n : ℕ) : ℕ → ℕ → M Bool
  | 0, _ => pure true
  | left + 1, k => do
      let ok ← sysPageAlloc e (pn + k) (decide (k * PGSIZE + PGSIZE < n))
      if ok then
        mapPages e pn n left (k + 1)
      else do
        (List.range (k + 1)).reverse.forM fun j => sysPageUnmap e (pn + j)
        pure false

/-- The pages for `n` bytes. -/
def pagesFor (n : ℕ) : ℕ := (n + (PGSIZE - 1)) / PGSIZE

/-- What `malloc` does after the search. -/
def mallocFound (e : EnvIdx) (n : ℕ) : Seek → M ℕ
  | .found m => do
      modify fun s => s.setMptr e m
      let ok ← mapPages e (m / PGSIZE) (n + 4) (pagesFor (n + 4)) 0
      if ok then do
        storeWord e (m / PGSIZE + pagesFor (n + 4) - 1) refIdx 2#32
        modify fun s => s.setMptr e (m + n)
        pure m
      else
        pure 0
  | .full => do
      modify fun s => s.setMptr e mbegin
      pure 0
  | .fuel => pure 0

/-- `malloc`, from where it needs address space for a chunk. -/
def mallocNew (e : EnvIdx) (n : ℕ) : M ℕ := do
  let s ← get
  mallocFound e n (seek s e (n + 4) seekFuel 0 (s.mptr e))

/-- `malloc`, once `n` has been rounded up; `m` is `mptr`. -/
def mallocAt (e : EnvIdx) (n m : ℕ) : M ℕ :=
  if m % PGSIZE ≠ 0 then
    if m / PGSIZE = (m + n + 3) % 2 ^ 32 / PGSIZE then do
      let w ← loadWord e (m / PGSIZE) refIdx
      storeWord e (m / PGSIZE) refIdx (w + 1#32)
      modify fun s => s.setMptr e ((m + n) % 2 ^ 32)
      pure m
    else do
      free e m
      modify fun s => s.setMptr e ((m + PGSIZE) % 2 ^ 32 / PGSIZE * PGSIZE)
      mallocNew e n
  else
    mallocNew e n

/-- `ROUNDUP(n, 4)`. -/
def roundUp4 (n : Word) : ℕ := (n.toNat + 3) % 2 ^ 32 / 4 * 4

/-- `malloc`. -/
def malloc (e : EnvIdx) (n : Word) : M ℕ := do
  modify fun s => if s.mptr e = 0 then s.setMptr e mbegin else s
  let s ← get
  if roundUp4 n ≥ MAXMALLOC then pure 0 else mallocAt e (roundUp4 n) (s.mptr e)

/-! ## `fork` -/

/-- The entry that `duppage` makes in the child. -/
def Pte.forChild (p : Pte) : Pte :=
  if p.share then p
  else if p.writable || p.cow then ⟨p.frame, false, true, false, false⟩
  else ⟨p.frame, false, false, false, false⟩

/-- The entry that `duppage` leaves in the parent. -/
def Pte.forParent (p : Pte) : Pte :=
  if p.share then p
  else if p.writable || p.cow then ⟨p.frame, false, true, false, false⟩
  else p

/-- The loop of `fork` has been through the page when it stops before page `k`. -/
def Duped (k pn : ℕ) : Prop := utextPage ≤ pn ∧ pn < k

instance (k pn : ℕ) : Decidable (Duped k pn) := inferInstanceAs (Decidable (_ ∧ _))

def Block.fork (b : Block) : Block := { b with forked := true }

/-- `fork`, whose loop stops before page `k`.  It comes to the end and makes the
child runnable, or fails for lack of memory and leaves the child as it is. -/
def Sys.fork (s : Sys) (e c : EnvIdx) (k : ℕ) (ok : Bool) : Sys :=
  { s with
    pt := fun x =>
      if x.1 = c then if Duped k x.2 then (s.pt (e, x.2)).map Pte.forChild else none
      else if x.1 = e ∧ Duped k x.2 then (s.pt x).map Pte.forParent
      else s.pt x
    mptr := update s.mptr c (s.mptr e)
    life := update s.life c (if ok then .running else .embryo)
    live := update (update s.live e ((s.live e).map Block.fork)) c
      (if ok then (s.live e).map Block.fork else []) }

/-! ## Runs -/

/-- The environment exits, or panics. -/
def Sys.exit (s : Sys) (e : EnvIdx) : Sys :=
  { s with
    pt := fun x => if x.1 = e then none else s.pt x
    life := update s.life e .free
    live := update s.live e [] }

def Sys.setLive (s : Sys) (e : EnvIdx) (L : List Block) : Sys :=
  { s with live := update s.live e L }

/-- A block is entered into the ledger, unless `malloc` has returned a null pointer. -/
def Sys.enter (s : Sys) (e : EnvIdx) (v n : ℕ) : Sys :=
  s.setLive e (if v = 0 then s.live e else ⟨v, n, false⟩ :: s.live e)

/-- A block is struck off the ledger. -/
def Sys.strike (s : Sys) (e : EnvIdx) (b : Block) : Sys := s.setLive e ((s.live e).erase b)

/-- The frame of a site. -/
def Sys.frame (s : Sys) (x : Site) : Option ℕ := (s.pt x).map Pte.frame

/-- The frames nobody has mapped that the kernel has for a call. -/
structure Sys.Supply (s : Sys) (l : List ℕ) : Prop where
  fresh : ∀ f ∈ l, Cow.Fresh s.frame f
  nodup : l.Nodup

inductive Event where
  | malloc (e : EnvIdx) (n : Word) (l : List ℕ)
  | free (e : EnvIdx) (b : Block) (l : List ℕ)
  /-- User code writes to the word at `a` in a block. -/
  | write (e : EnvIdx) (b : Block) (a : ℕ) (w : Word) (l : List ℕ)
  | fork (e c : EnvIdx) (k : ℕ) (ok : Bool)
  | exit (e : EnvIdx)

/-- The word of a page an address lies in. -/
def wordIdx (a : ℕ) : Idx := ⟨a / 4 % 1024, Nat.mod_lt _ (by decide)⟩

inductive Step (s : Sys) : Event → Sys → Prop
  | malloc {e n l v s'} : s.life e = .running → s.Supply l →
      malloc e n { s with free := l } = .ok v s' →
      Step s (.malloc e n l) (s'.enter e v (roundUp4 n))
  | mallocPanic {e n l x s'} : s.life e = .running → s.Supply l →
      malloc e n { s with free := l } = .error x s' → Step s (.malloc e n l) (s'.exit e)
  | free {e b l s'} : s.life e = .running → s.Supply l → b ∈ s.live e →
      free e b.addr { s with free := l } = .ok () s' → Step s (.free e b l) (s'.strike e b)
  | freePanic {e b l x s'} : s.life e = .running → s.Supply l → b ∈ s.live e →
      free e b.addr { s with free := l } = .error x s' → Step s (.free e b l) (s'.exit e)
  | write {e b a w l s'} : s.life e = .running → s.Supply l → b ∈ s.live e →
      b.addr ≤ a → a < b.addr + b.size →
      storeWord e (a / PGSIZE) (wordIdx a) w { s with free := l } = .ok () s' →
      Step s (.write e b a w l) s'
  | writePanic {e b a w l x s'} : s.life e = .running → s.Supply l → b ∈ s.live e →
      b.addr ≤ a → a < b.addr + b.size →
      storeWord e (a / PGSIZE) (wordIdx a) w { s with free := l } = .error x s' →
      Step s (.write e b a w l) (s'.exit e)
  | fork {e c k ok} : s.life e = .running → s.life c = .free → k ≤ ustacktopPage →
      (ok = true → k = ustacktopPage) → Step s (.fork e c k ok) (s.fork e c k ok)
  | exit {e} : s.life e = .running → Step s (.exit e) (s.exit e)

/-- Before the first `malloc`: nothing is mapped between `mbegin` and `mend`, and a
page that can be written to is shared only if it is marked so. -/
structure Sys.Start (s : Sys) : Prop where
  mptr : ∀ e, s.mptr e = 0
  live : ∀ e, s.live e = []
  arena : ∀ e pn, Arena pn → s.pt (e, pn) = none
  alone : ∀ x y p q, s.pt x = some p → s.pt y = some q → p.writable = true → p.share = false →
    p.frame = q.frame → y = x
  cow : ∀ x p, s.pt x = some p → p.cow = true → p.continued = false
  free : s.free = []

/-! ## What the calls are for -/

/-- The pages of a block, up to the one with its count. -/
def Block.first (b : Block) : ℕ := b.addr / PGSIZE

def Block.last (b : Block) : ℕ := (b.addr + b.size + 3) / PGSIZE

def Block.Covers (b : Block) (pn : ℕ) : Prop := b.first ≤ pn ∧ pn ≤ b.last

instance (b : Block) (pn : ℕ) : Decidable (b.Covers pn) := inferInstanceAs (Decidable (_ ∧ _))

/-- `malloc` is in the middle of the page. -/
def Open (m pn : ℕ) : Prop := m % PGSIZE ≠ 0 ∧ m / PGSIZE = pn

instance (m pn : ℕ) : Decidable (Open m pn) := inferInstanceAs (Decidable (_ ∧ _))

/-- The page is there for the block alone: no other block has a piece of it, and
`malloc` will not cut any more off it. -/
def Alone (s : Sys) (e : EnvIdx) (b : Block) (pn : ℕ) : Prop :=
  b.Covers pn ∧ (∀ b' ∈ (s.live e).erase b, ¬ b'.Covers pn) ∧ ¬ Open (s.mptr e) pn

/-- What an environment sees at a page. -/
def Sys.words (s : Sys) (x : Site) : Option (Idx → Word) := Cow.view s.mem s.frame x

/-- The word at an address. -/
def Sys.wordAt (s : Sys) (e : EnvIdx) (a : ℕ) : Option Word :=
  (s.words (e, a / PGSIZE)).map fun c => c (wordIdx a)

/-- The request is met from the page `malloc` works on. -/
def Fits (m n : ℕ) : Prop := m % PGSIZE ≠ 0 ∧ m / PGSIZE = (m + n + 3) % 2 ^ 32 / PGSIZE

/-- The site may write to its frame, and nobody is meant to see it. -/
def Sys.Writes (s : Sys) (x : Site) : Prop :=
  ∃ p, s.pt x = some p ∧ p.writable = true ∧ p.share = false

/-- When the calls do what they are for.

* `malloc` does not have to leave the last page below `mend`, and the count of a
  page does not overflow.
* `free` gets a block of one page, or one that no `fork` has seen; the block does
  not end with a page; and there is a frame for `pgfault` if the count lies on a
  page marked copy-on-write. -/
def Careful (s : Sys) : Event → Prop
  | .malloc e n _ => roundUp4 n < MAXMALLOC →
      (s.live e).length + 1 < 2 ^ 31 - 1 ∧
      (s.mptr e % PGSIZE = 0 ∨ Fits (s.mptr e) (roundUp4 n) ∨
        s.mptr e / PGSIZE + 1 < mend / PGSIZE)
  | .free e b l => (b.first = b.last ∨ b.forked = false) ∧ (b.addr + b.size) % PGSIZE ≠ 0 ∧
      (s.Writes (e, b.last) ∨ l ≠ [])
  | _ => True

/-- What `free` has to do, from the state before to the state after. -/
structure FreeExact (s s' : Sys) (e : EnvIdx) (b : Block) : Prop where
  /-- It returns, and the block is no longer in use. -/
  returns : s'.life e = .running ∧ s'.live e = (s.live e).erase b
  /-- The pages of the block alone are unmapped, and no others. -/
  unmaps : ∀ pn, s'.words (e, pn) = none ↔ s.words (e, pn) = none ∨ Alone s e b pn
  /-- The count on the last page goes down by one. -/
  count : ∀ c c', s.words (e, b.last) = some c → s'.words (e, b.last) = some c' →
    c' refIdx = c refIdx - 1#32
  /-- No other word changes, -/
  keeps : ∀ pn i c c', s.words (e, pn) = some c → s'.words (e, pn) = some c' →
    (pn, i) ≠ (b.last, refIdx) → c' i = c i
  /-- nor does any word of another environment. -/
  elsewhere : ∀ e' pn, e' ≠ e → s'.words (e', pn) = s.words (e', pn) ∧ s'.live e' = s.live e'
  /-- All blocks that are still in use are as they were. -/
  blocks : ∀ e', ∀ b' ∈ s'.live e', ∀ a, b'.addr ≤ a → a < b'.addr + b'.size →
    ∃ w, s.wordAt e' a = some w ∧ s'.wordAt e' a = some w

end Jos.Malloc
