import Jos.Lib.Lts
import Jos.Lib.Ring

/-!
# Mailboxes of the network server

`sys_mbox_post`, `sys_mbox_trypost` and `sys_arch_mbox_fetch` of `net/lwip/jos/arch/sys_arch.c`, on
a mailbox that is not freed, with the semaphores under it and `thread_wait` of
`net/lwip/jos/arch/thread.c`.

Any number of threads call these.  A thread runs on until it waits for a semaphore, where it reads
the clock, may give up the processor, and reads the clock again; each stretch of code between two
such points is one step here (`Sys.next`), and the threads take their steps in any order, so that
they switch at least wherever the real ones can.  The clock goes on between any two steps.

* `RingInv.put`, `RingInv.get` — the ring, when a message is queued or fetched.
* `Inv.next`, `Inv.run` — a step and a run: the two counters, the ring and the threads agree.
* `mbox_fifo` — the mailbox is a FIFO that loses nothing, and nobody panics.
* `trypost_iff` — `sys_mbox_trypost` returns without switching threads unless the mailbox is full;
  then it waits.
-/

namespace Jos.Mbox

open Function (update update_of_ne update_self)

abbrev Word := BitVec 32

def MBOXSLOTS : ℕ := 32
def SYS_ARCH_TIMEOUT : Word := 0xffffffff#32
def SYS_ARCH_NOWAIT : Word := 0xfffffffe#32

/-- A semaphore; the two halves are compared together, as `v`. -/
structure Sem where
  counter : BitVec 16
  waiters : BitVec 16
  deriving DecidableEq

/-- The two semaphores of a mailbox. -/
inductive Which
  | queuedMsg
  | freeMsg
  deriving DecidableEq

variable {T α : Type}

/-- The calls. -/
inductive Op (α : Type)
  | post (m : α)
  | trypost (m : α)
  | fetch (tmMsec : Word)

/-- The semaphore that a call waits for, and for how long; 0 is for ever. -/
def Op.sem : Op α → Which
  | .post _ => .freeMsg
  | .trypost _ => .freeMsg
  | .fetch _ => .queuedMsg

def Op.tmMsec : Op α → Word
  | .post _ => 0#32
  | .trypost _ => 0#32
  | .fetch tmMsec => tmMsec

/-- What a call returns; `got` has the message a fetch stores for its caller. -/
inductive Ret (α : Type)
  | ok
  | got (m : α)
  | errMem
  | timeout

/-- Where a thread is in a call, with the local variables. -/
inductive Pc (α : Type)
  /-- not in a call -/
  | idle
  /-- at the `while` of `sys_arch_sem_wait` -/
  | test (op : Op α) (waited : Word)
  /-- `a` has been read from the clock -/
  | block (op : Op α) (waited a : Word)
  /-- at the `while` of `thread_wait`, with its arguments and its `s` and `p` -/
  | poll (op : Op α) (waited a : Word) (val : Sem) (msec s p : Word)
  /-- in `thread_yield` -/
  | yielded (op : Op α) (waited a : Word) (val : Sem) (msec s : Word)
  /-- `thread_wait` has returned -/
  | woken (op : Op α) (waited a : Word)

/-- The call a thread is in. -/
def Pc.op? : Pc α → Option (Op α)
  | .idle => none
  | .test op _ | .block op _ _ | .poll op _ _ _ _ _ _ | .yielded op _ _ _ _ _ | .woken op _ _ =>
    some op

/-- A mailbox and its threads; `posted` and `fetched` are the messages so far, in order. -/
structure Sys (T α : Type) where
  head : ℤ
  nextq : ℤ
  msg : ℕ → α
  sem : Which → Sem
  pc : T → Pc α
  ret : T → Ret α
  tcWaitAddr : T → Option Which
  tcWakeup : T → Bool
  ticks : ℕ
  posted : List α
  fetched : List α

/-- What the code says cannot happen. -/
inductive Panic
  | noMessage
  | assertion

namespace Sys

variable [DecidableEq T]

/-- `sys_time_msec`. -/
def now (s : Sys T α) : Word := BitVec.ofNat 32 (10 * s.ticks)

def goto (s : Sys T α) (t : T) (pc : Pc α) : Sys T α := { s with pc := update s.pc t pc }

def returns (s : Sys T α) (t : T) (r : Ret α) : Sys T α :=
  { s with pc := update s.pc t .idle, ret := update s.ret t r }

/-- `sys_sem_signal`, with `thread_wakeup`. -/
def signal (s : Sys T α) (w : Which) : Sys T α :=
  { s with
    sem := update s.sem w ⟨(s.sem w).counter + 1#16, 0#16⟩
    tcWakeup := fun t =>
      s.tcWakeup t || ((s.sem w).waiters ≠ 0#16 && s.tcWaitAddr t = some w) }

/-- The semaphore is taken. -/
def take (s : Sys T α) (w : Which) : Sys T α :=
  { s with sem := update s.sem w { s.sem w with counter := (s.sem w).counter - 1#16 } }

/-- The end of `sys_mbox_trypost`. -/
def put (s : Sys T α) (m : α) : Sys T α :=
  signal { s with
    nextq := (s.nextq + 1) % MBOXSLOTS
    msg := update s.msg s.nextq.toNat m
    head := if s.head = -1 then s.nextq else s.head
    posted := s.posted ++ [m] } .queuedMsg

/-- The end of `sys_arch_mbox_fetch`. -/
def get (s : Sys T α) : Sys T α :=
  signal { s with
    head := if (s.head + 1) % MBOXSLOTS = s.nextq then -1 else (s.head + 1) % MBOXSLOTS
    fetched := s.fetched ++ [s.msg s.head.toNat] } .freeMsg

/-- The call goes on with its semaphore. -/
def finish (s : Sys T α) (t : T) (waited : Word) : Op α → Except Panic (Sys T α)
  | .post m =>
    if s.nextq = s.head then .error .assertion else .ok ((s.put m).returns t .ok)
  | .trypost m =>
    if s.nextq = s.head then .ok (s.returns t .errMem) else .ok ((s.put m).returns t .ok)
  | .fetch _ =>
    if waited = SYS_ARCH_TIMEOUT then .ok (s.returns t .timeout)
    else if s.head = -1 then .error .noMessage
    else .ok (s.get.returns t (.got (s.msg s.head.toNat)))

/-- `thread_wait` goes on waiting. -/
def keepsWaiting (s : Sys T α) (t : T) (w : Which) (val : Sem) (msec st p : Word) : Bool :=
  p < msec && !(p < st) && s.sem w = val && !s.tcWakeup t

/-- The next step of a thread. -/
def next (s : Sys T α) (t : T) : Except Panic (Sys T α) :=
  match s.pc t with
  | .idle => .ok s
  | .test op waited =>
    if op.tmMsec = 0#32 ∨ waited < op.tmMsec then
      if 0#16 < (s.sem op.sem).counter then (s.take op.sem).finish t waited op
      else if op.tmMsec = SYS_ARCH_NOWAIT then .ok (s.returns t .timeout)
      else .ok (s.goto t (.block op waited s.now))
    else .ok (s.returns t .timeout)
  | .block op waited a =>
    let msec := if op.tmMsec ≠ 0#32 then a + (op.tmMsec - waited) else 0xffffffff#32
    let val : Sem := { s.sem op.sem with waiters := 1#16 }
    .ok (goto { s with
      sem := update s.sem op.sem val
      tcWaitAddr := update s.tcWaitAddr t (some op.sem)
      tcWakeup := update s.tcWakeup t false } t
        (.poll op waited a val msec s.now s.now))
  | .poll op waited a val msec st p =>
    if s.keepsWaiting t op.sem val msec st p then .ok (s.goto t (.yielded op waited a val msec st))
    else .ok (goto { s with
      tcWaitAddr := update s.tcWaitAddr t none
      tcWakeup := update s.tcWakeup t false } t (.woken op waited a))
  | .yielded op waited a val msec st => .ok (s.goto t (.poll op waited a val msec st s.now))
  | .woken op waited a => .ok (s.goto t (.test op (waited + (s.now - a))))

/-- The messages in the ring, from `head` up to `nextq`. -/
def ring (s : Sys T α) : List α :=
  if s.head = -1 then []
  else (List.range (((s.nextq - s.head - 1) % MBOXSLOTS).toNat + 1)).map fun i =>
    s.msg ((s.head.toNat + i) % MBOXSLOTS)

end Sys

/-- What happens: a thread makes a call or takes a step, or the clock goes on.  The kernel panics
when the milliseconds do not fit into a word any more. -/
inductive Event (T α : Type)
  | call (t : T) (op : Op α)
  | step (t : T)
  | tick

variable [DecidableEq T]

inductive Step (s : Sys T α) : Event T α → Sys T α → Prop
  | call {t : T} {op : Op α} : s.pc t = .idle → Step s (.call t op) (s.goto t (.test op 0#32))
  | step {t : T} {s' : Sys T α} : s.next t = .ok s' → Step s (.step t) s'
  | tick : 10 * (s.ticks + 1) < 2 ^ 32 → Step s .tick { s with ticks := s.ticks + 1 }

/-- What a step of `t` does about messages.  A call that posts returns with its message queued, and
nothing else; a fetch returns the message at the head of the ring, or times out. -/
inductive Does (t : T) (s s' : Sys T α) : Prop
  /-- the call, if there is one, goes on -/
  | goes : (s'.pc t).op? = (s.pc t).op? → s'.posted = s.posted → s'.fetched = s.fetched →
      Does t s s'
  | posts {m : α} : (s.pc t).op? = some (.post m) ∨ (s.pc t).op? = some (.trypost m) →
      s'.pc t = .idle → s'.ret t = .ok → s'.posted = s.posted ++ [m] → s'.fetched = s.fetched →
      Does t s s'
  | fetches {tm : Word} {m : α} : (s.pc t).op? = some (.fetch tm) → s.ring.head? = some m →
      s'.pc t = .idle → s'.ret t = .got m → s'.posted = s.posted → s'.fetched = s.fetched ++ [m] →
      Does t s s'
  | timesOut {tm : Word} : (s.pc t).op? = some (.fetch tm) → s'.pc t = .idle →
      s'.ret t = .timeout → s'.posted = s.posted → s'.fetched = s.fetched → Does t s s'

/-- As `sys_mbox_new` leaves a mailbox. -/
structure Init (s : Sys T α) : Prop where
  head : s.head = -1
  nextq : s.nextq = 0
  queued : (s.sem .queuedMsg).counter = 0#16
  free : (s.sem .freeMsg).counter = BitVec.ofNat 16 MBOXSLOTS
  idle : ∀ t, s.pc t = .idle
  clock : 10 * s.ticks < 2 ^ 32
  posted : s.posted = []
  fetched : s.fetched = []

/-- The states that calls and steps lead to. -/
def Reachable (s : Sys T α) : Prop := ∃ s₀, Init s₀ ∧ Lts.Run Step Lts.anyEvent s₀ s

section Reachable

variable {s s' : Sys T α}

theorem Reachable.call (h : Reachable s) (t : T) (op : Op α) (hidle : s.pc t = .idle) :
    Reachable (s.goto t (.test op 0#32)) := by
  obtain ⟨s₀, h₀, hrun⟩ := h
  exact ⟨s₀, h₀, hrun.snoc trivial (.call hidle)⟩

theorem Reachable.step (h : Reachable s) (t : T) (hnext : s.next t = .ok s') : Reachable s' := by
  obtain ⟨s₀, h₀, hrun⟩ := h
  exact ⟨s₀, h₀, hrun.snoc trivial (.step hnext)⟩

end Reachable

/-! ## The ring -/

/-- The ring holds the messages from number `fetched.length` on. -/
structure RingInv (head nextq : ℤ) (msg : ℕ → α) (posted fetched : List α) : Prop where
  isPrefix : fetched <+: posted
  room : posted.length ≤ fetched.length + MBOXSLOTS
  nextq : nextq = (posted.length % MBOXSLOTS : ℕ)
  head : head = if posted.length = fetched.length then -1 else ((fetched.length % MBOXSLOTS : ℕ) : ℤ)
  holds : Ring.Holds MBOXSLOTS msg posted fetched.length posted.length

namespace RingInv

variable {head nextq : ℤ} {msg : ℕ → α} {posted fetched : List α}

/-- `(slot + 1) % MBOXSLOTS`. -/
theorem slot_succ (n : ℕ) :
    (((n % MBOXSLOTS : ℕ) : ℤ) + 1) % MBOXSLOTS = ((n + 1) % MBOXSLOTS : ℕ) := by
  unfold MBOXSLOTS
  omega

/-- There is room: `nextq` is not `head`. -/
theorem put (h : RingInv head nextq msg posted fetched)
    (hroom : posted.length < fetched.length + MBOXSLOTS) (m : α) :
    nextq ≠ head ∧ RingInv (if head = -1 then nextq else head) ((nextq + 1) % MBOXSLOTS)
      (update msg nextq.toNat m) (posted ++ [m]) fetched := by
  have hle := h.isPrefix.length_le
  have hlen : (posted ++ [m]).length = posted.length + 1 := List.length_append
  have hslots : MBOXSLOTS = 32 := rfl
  by_cases hempty : posted.length = fetched.length
  · have hhead : head = -1 := by rw [h.head, if_pos hempty]
    refine ⟨by rw [hhead, h.nextq]; omega, ⟨h.isPrefix.trans (List.prefix_append ..), ?_, ?_, ?_, ?_⟩⟩
    · omega
    · rw [hlen, h.nextq, slot_succ]
    · rw [if_pos hhead, hlen, if_neg (by omega), h.nextq, hempty]
    · rw [hlen, h.nextq, Int.toNat_natCast]
      exact h.holds.put rfl hroom m
  · have hhead : head = (fetched.length % MBOXSLOTS : ℕ) := by rw [h.head, if_neg hempty]
    have hne := Ring.mod_ne_of_room le_rfl (lt_of_le_of_ne hle (Ne.symm hempty)) hroom
    refine ⟨by rw [hhead, h.nextq]; omega, ⟨h.isPrefix.trans (List.prefix_append ..), ?_, ?_, ?_, ?_⟩⟩
    · omega
    · rw [hlen, h.nextq, slot_succ]
    · rw [if_neg (by omega), hlen, if_neg (by omega), hhead]
    · rw [hlen, h.nextq, Int.toNat_natCast]
      exact h.holds.put rfl hroom m

/-- There is a message: the ring has a head. -/
theorem get (h : RingInv head nextq msg posted fetched) (hsome : fetched.length < posted.length) :
    head ≠ -1 ∧ RingInv (if (head + 1) % MBOXSLOTS = nextq then -1 else (head + 1) % MBOXSLOTS) nextq
      msg posted (fetched ++ [msg head.toNat]) := by
  have hlen : (fetched ++ [msg head.toNat]).length = fetched.length + 1 := List.length_append
  have hslots : MBOXSLOTS = 32 := rfl
  have hroom := h.room
  have hhead : head = (fetched.length % MBOXSLOTS : ℕ) := by rw [h.head, if_neg (by omega)]
  have hmsg := h.holds fetched.length le_rfl hsome
  refine ⟨by omega, ⟨?_, by omega, h.nextq, ?_, ?_⟩⟩
  · rw [hhead, Int.toNat_natCast]
    exact Ring.prefix_concat h.isPrefix hmsg
  · rw [hlen, h.nextq, hhead, slot_succ]
    by_cases hlast : posted.length = fetched.length + 1
    · rw [if_pos (by rw [hlast]), if_pos hlast]
    · have hne := Ring.mod_ne_of_room (N := MBOXSLOTS) (le_refl (fetched.length + 1))
        (by omega : fetched.length + 1 < posted.length) (by omega)
      rw [if_neg (by omega), if_neg hlast]
  · rw [hlen]
    exact h.holds.advance (Nat.le_succ _)

omit [DecidableEq T] in
/-- What the ring holds has been posted and not fetched. -/
theorem ring_eq {s : Sys T α} (h : RingInv s.head s.nextq s.msg s.posted s.fetched) :
    s.ring = s.posted.drop s.fetched.length := by
  have hle := h.isPrefix.length_le
  have hroom := h.room
  unfold Sys.ring
  by_cases hempty : s.posted.length = s.fetched.length
  · rw [if_pos (by rw [h.head, if_pos hempty]), List.drop_of_length_le hempty.le]
  · have hhead : s.head = (s.fetched.length % MBOXSLOTS : ℕ) := by rw [h.head, if_neg hempty]
    have hcount : ((s.nextq - s.head - 1) % MBOXSLOTS).toNat + 1 =
        s.posted.length - s.fetched.length := by
      rw [h.nextq, hhead]
      unfold MBOXSLOTS at hroom ⊢
      omega
    rw [if_neg (by omega), hcount, ← h.holds.window]
    refine List.map_congr_left fun i _ => ?_
    rw [hhead, Int.toNat_natCast, Nat.mod_add_mod]

end RingInv

/-! ## The invariant -/

/-- The time waited is over by now. -/
def Pc.Ok (now : ℕ) : Pc α → Prop
  | .idle => True
  | .test _ waited => waited.toNat ≤ now
  | .block _ waited a => waited.toNat ≤ a.toNat ∧ a.toNat ≤ now
  | .poll _ waited a _ _ _ _ => waited.toNat ≤ a.toNat ∧ a.toNat ≤ now
  | .yielded _ waited a _ _ _ => waited.toNat ≤ a.toNat ∧ a.toNat ≤ now
  | .woken _ waited a => waited.toNat ≤ a.toNat ∧ a.toNat ≤ now

theorem Pc.Ok.mono {n n' : ℕ} (hn : n ≤ n') {pc : Pc α} (h : pc.Ok n) : pc.Ok n' := by
  cases pc with
  | idle => trivial
  | test op waited => exact le_trans h hn
  | block | poll | yielded | woken => exact ⟨h.1, le_trans h.2 hn⟩

/-- The counters count what is in the ring, and what is free. -/
structure Inv (s : Sys T α) : Prop where
  ring : RingInv s.head s.nextq s.msg s.posted s.fetched
  queued : (s.sem .queuedMsg).counter.toNat = s.posted.length - s.fetched.length
  free : (s.sem .freeMsg).counter.toNat = MBOXSLOTS - (s.posted.length - s.fetched.length)
  clock : 10 * s.ticks < 2 ^ 32
  pcs : ∀ t, (s.pc t).Ok (10 * s.ticks)

namespace Inv

variable {s s' : Sys T α} {t : T}

omit [DecidableEq T] in
theorem init (h : Init s) : Inv s where
  ring := by
    rw [h.head, h.nextq, h.posted, h.fetched]
    exact ⟨List.prefix_rfl, Nat.zero_le _, rfl, rfl, .empty⟩
  queued := by
    rw [h.queued, h.posted, h.fetched]
    rfl
  free := by
    rw [h.free, h.posted, h.fetched]
    rfl
  clock := h.clock
  pcs t := by
    rw [h.idle t]
    trivial

omit [DecidableEq T] in
theorem toNat_now (h : Inv s) : s.now.toNat = 10 * s.ticks := by
  rw [Sys.now, BitVec.toNat_ofNat]
  exact Nat.mod_eq_of_lt h.clock

theorem pcs_update (h : Inv s) {pc : Pc α} (hpc : pc.Ok (10 * s.ticks)) (t' : T) :
    (update s.pc t pc t').Ok (10 * s.ticks) := by
  by_cases ht : t' = t
  · subst ht
    rwa [update_self]
  · rw [update_of_ne ht]
    exact h.pcs t'

theorem goto (h : Inv s) {pc : Pc α} (hpc : pc.Ok (10 * s.ticks)) : Inv (s.goto t pc) :=
  ⟨h.ring, h.queued, h.free, h.clock, h.pcs_update hpc⟩

theorem returns (h : Inv s) (r : Ret α) : Inv (s.returns t r) :=
  ⟨h.ring, h.queued, h.free, h.clock, h.pcs_update trivial⟩

omit [DecidableEq T] in
/-- A message is queued by a call that has taken a free slot. -/
theorem post (h : Inv s) (hfree : 0#16 < (s.sem .freeMsg).counter) (m : α) :
    (s.take .freeMsg).nextq ≠ (s.take .freeMsg).head ∧ Inv ((s.take .freeMsg).put m) := by
  have hpos : 0 < (s.sem .freeMsg).counter.toNat := hfree
  have hle := h.ring.isPrefix.length_le
  have hfr := h.free
  have hq := h.queued
  have hslots : MBOXSLOTS = 32 := rfl
  obtain ⟨hne, hring⟩ := h.ring.put (by omega) m
  refine ⟨hne, ⟨hring, ?_, ?_, h.clock, h.pcs⟩⟩
  · show ((s.sem .queuedMsg).counter + 1#16).toNat = (s.posted ++ [m]).length - s.fetched.length
    rw [List.length_append, List.length_singleton]
    bv_omega
  · show ((s.sem .freeMsg).counter - 1#16).toNat =
      MBOXSLOTS - ((s.posted ++ [m]).length - s.fetched.length)
    rw [List.length_append, List.length_singleton]
    bv_omega

omit [DecidableEq T] in
/-- A message is fetched by a call that has taken one of those queued. -/
theorem fetch (h : Inv s) (hqueued : 0#16 < (s.sem .queuedMsg).counter) :
    (s.take .queuedMsg).head ≠ -1 ∧ Inv (s.take .queuedMsg).get := by
  have hpos : 0 < (s.sem .queuedMsg).counter.toNat := hqueued
  have hroom := h.ring.room
  have hfr := h.free
  have hq := h.queued
  have hslots : MBOXSLOTS = 32 := rfl
  obtain ⟨hne, hring⟩ := h.ring.get (by omega)
  refine ⟨hne, ⟨hring, ?_, ?_, h.clock, h.pcs⟩⟩
  · show ((s.sem .queuedMsg).counter - 1#16).toNat =
      s.posted.length - (s.fetched ++ [s.msg s.head.toNat]).length
    rw [List.length_append, List.length_singleton]
    bv_omega
  · show ((s.sem .freeMsg).counter + 1#16).toNat =
      MBOXSLOTS - (s.posted.length - (s.fetched ++ [s.msg s.head.toNat]).length)
    rw [List.length_append, List.length_singleton]
    bv_omega

/-- A thread that has its semaphore does not panic: it has waited for less than
`SYS_ARCH_TIMEOUT`, and there is a slot or a message for it. -/
theorem finish (h : Inv s) {op : Op α} {waited : Word} (hop : (s.pc t).op? = some op)
    (hw : waited.toNat ≤ 10 * s.ticks) (hpos : 0#16 < (s.sem op.sem).counter) :
    ∃ s', (s.take op.sem).finish t waited op = .ok s' ∧ Inv s' ∧ Does t s s' := by
  cases op with
  | post m =>
    obtain ⟨hne, hinv⟩ := h.post hpos m
    exact ⟨_, if_neg hne, hinv.returns .ok,
      .posts (.inl hop) (update_self ..) (update_self ..) rfl rfl⟩
  | trypost m =>
    obtain ⟨hne, hinv⟩ := h.post hpos m
    exact ⟨_, if_neg hne, hinv.returns .ok,
      .posts (.inr hop) (update_self ..) (update_self ..) rfl rfl⟩
  | fetch tm =>
    obtain ⟨hne, hinv⟩ := h.fetch hpos
    have htime : waited ≠ SYS_ARCH_TIMEOUT := by
      rintro rfl
      have hclock := h.clock
      have hmax : SYS_ARCH_TIMEOUT.toNat = 2 ^ 32 - 1 := rfl
      omega
    have hhead : s.ring.head? = some (s.msg s.head.toNat) := by
      obtain ⟨rest, hrest⟩ : s.fetched ++ [s.msg s.head.toNat] <+: s.posted := hinv.ring.isPrefix
      rw [h.ring.ring_eq, ← hrest, List.append_assoc, List.drop_left]
      rfl
    exact ⟨(s.take .queuedMsg).get.returns t (.got _), (if_neg htime).trans (if_neg hne),
      hinv.returns _, .fetches hop hhead (update_self ..) (update_self ..) rfl rfl⟩

omit [DecidableEq T] in
/-- Setting the flag of a semaphore leaves the counters alone. -/
theorem block (h : Inv s) (w : Which) (addr : T → Option Which) (wake : T → Bool) :
    Inv { s with
      sem := update s.sem w { s.sem w with waiters := 1#16 }
      tcWaitAddr := addr
      tcWakeup := wake } := by
  have hsame : ∀ w', (update s.sem w { s.sem w with waiters := 1#16 } w').counter =
      (s.sem w').counter := by
    intro w'
    by_cases hw : w' = w
    · subst hw
      rw [update_self]
    · rw [update_of_ne hw]
  exact ⟨h.ring, (congrArg _ (hsame _)).trans h.queued, (congrArg _ (hsame _)).trans h.free,
    h.clock, h.pcs⟩

/-- Only a fetch can time out. -/
theorem timesOut (h : Inv s) {op : Op α} (hop : (s.pc t).op? = some op) (htm : op.tmMsec ≠ 0#32) :
    ∃ s', Except.ok (s.returns t .timeout) = (.ok s' : Except Panic (Sys T α)) ∧ Inv s' ∧
      Does t s s' := by
  cases op with
  | post m => exact absurd rfl htm
  | trypost m => exact absurd rfl htm
  | fetch tm =>
    exact ⟨_, rfl, h.returns .timeout, .timesOut hop (update_self ..) (update_self ..) rfl rfl⟩

/-- **A step** keeps the invariant, and is not a panic. -/
theorem next (h : Inv s) (t : T) : ∃ s', s.next t = .ok s' ∧ Inv s' ∧ Does t s s' := by
  have hok := h.pcs t
  have hnow := h.toNat_now
  have goes : ∀ {s' : Sys T α} {pc : Pc α}, pc.op? = (s.pc t).op? → s'.posted = s.posted →
      s'.fetched = s.fetched → Does t s (s'.goto t pc) := fun hop hp hf =>
    .goes (by simpa [Sys.goto] using hop) hp hf
  unfold Sys.next
  cases hpc : s.pc t with
  | idle => exact ⟨s, rfl, h, .goes rfl rfl rfl⟩
  | test op waited =>
    have hop : (s.pc t).op? = some op := congrArg Pc.op? hpc
    rw [hpc] at hok
    simp only
    split
    · split
      · next hpos => exact h.finish hop hok hpos
      · split
        · next hno => exact h.timesOut hop (by rw [hno]; decide)
        · refine ⟨_, rfl, h.goto ⟨?_, hnow.le⟩, goes hop.symm rfl rfl⟩
          rw [hnow]
          exact hok
    · next hover => exact h.timesOut hop (not_or.1 hover).1
  | block op waited a =>
    rw [hpc] at hok
    exact ⟨_, rfl, (h.block op.sem _ _).goto hok, goes (congrArg Pc.op? hpc).symm rfl rfl⟩
  | poll op waited a val msec st p =>
    have hop : (s.pc t).op? = some op := congrArg Pc.op? hpc
    rw [hpc] at hok
    simp only
    split
    · exact ⟨_, rfl, h.goto hok, goes hop.symm rfl rfl⟩
    · refine ⟨_, rfl, Inv.goto (s := { s with
        tcWaitAddr := update s.tcWaitAddr t none
        tcWakeup := update s.tcWakeup t false }) ?_ hok, goes hop.symm rfl rfl⟩
      exact ⟨h.ring, h.queued, h.free, h.clock, h.pcs⟩
  | yielded op waited a val msec st =>
    rw [hpc] at hok
    exact ⟨_, rfl, h.goto hok, goes (congrArg Pc.op? hpc).symm rfl rfl⟩
  | woken op waited a =>
    have hop : (s.pc t).op? = some op := congrArg Pc.op? hpc
    rw [hpc] at hok
    obtain ⟨hw, ha⟩ := hok
    refine ⟨_, rfl, h.goto ?_, goes hop.symm rfl rfl⟩
    show (waited + (s.now - a)).toNat ≤ 10 * s.ticks
    bv_omega

/-- **A run** keeps the invariant. -/
theorem run (h : Reachable s) : Inv s := by
  obtain ⟨s₀, h₀, hrun⟩ := h
  refine Lts.Run.inv (init h₀) (fun s₁ ev s₂ h₁ _ hstep => ?_) hrun
  cases hstep with
  | call hidle => exact h₁.goto (Nat.zero_le _)
  | @step t _ hnext =>
    obtain ⟨s', hs', hinv, -⟩ := h₁.next t
    rw [hs'] at hnext
    cases hnext
    exact hinv
  | tick hlt =>
    exact ⟨h₁.ring, h₁.queued, h₁.free, hlt, fun t => (h₁.pcs t).mono (by simp)⟩

end Inv

/-- **The mailbox is a FIFO that loses nothing.**  Whatever the threads do and however they are
interleaved, the messages fetched and those in the ring are together the messages posted, in order;
the two counters count the messages in the ring and the slots that are free; no thread runs into
the panic or the assertion; and what has been posted and fetched is what calls were given and
returned. -/
theorem mbox_fifo (s : Sys T α) (h : Reachable s) :
    s.fetched ++ s.ring = s.posted ∧ (s.sem .queuedMsg).counter.toNat = s.ring.length ∧
      (s.sem .freeMsg).counter.toNat = MBOXSLOTS - s.ring.length ∧
      ∀ t, ∃ s', s.next t = .ok s' ∧ Does t s s' := by
  have hinv := Inv.run h
  have hring := hinv.ring.ring_eq
  refine ⟨?_, ?_, ?_, fun t => ?_⟩
  · rw [hring]
    exact List.prefix_iff_eq_append.1 hinv.ring.isPrefix
  · rw [hring, List.length_drop]
    exact hinv.queued
  · rw [hring, List.length_drop]
    exact hinv.free
  · obtain ⟨s', hs', -, hdoes⟩ := hinv.next t
    exact ⟨s', hs', hdoes⟩

/-- A mailbox as it starts, for two threads. -/
def fresh : Sys Bool ℕ where
  head := -1
  nextq := 0
  msg := fun _ => 0
  sem := fun w => if w = .queuedMsg then ⟨0#16, 0#16⟩ else ⟨32#16, 0#16⟩
  pc := fun _ => .idle
  ret := fun _ => .ok
  tcWaitAddr := fun _ => none
  tcWakeup := fun _ => false
  ticks := 0
  posted := []
  fetched := []

theorem reachable_fresh : Reachable fresh :=
  ⟨fresh, ⟨rfl, rfl, rfl, rfl, fun _ => rfl, by decide, rfl, rfl⟩, .nil⟩

/-- One thread waits for a message; the other posts 7, which the first fetches; it waits again, and
8 is posted. -/
theorem reachable_talk : ∃ s : Sys Bool ℕ, Reachable s ∧ s.posted = [7, 8] ∧ s.ret true = .got 7 ∧
    (s.pc true).op? = some (.fetch 0#32) := by
  have hfetch := reachable_fresh.call true (.fetch 0#32) rfl
  -- the clock, the semaphore, and the switch in `thread_wait`
  have hwaits := ((hfetch.step true rfl).step true rfl).step true rfl
  have hposts := (hwaits.call false (.post 7) rfl).step false rfl
  have hwoken := ((hposts.step true rfl).step true rfl).step true rfl
  have hagain := (hwoken.step true rfl).call true (.fetch 0#32) rfl
  have hwaits' := ((hagain.step true rfl).step true rfl).step true rfl
  exact ⟨_, (hwaits'.call false (.post 8) rfl).step false rfl, rfl, rfl, rfl⟩

theorem mbox_fifo_talk : ∃ s : Sys Bool ℕ, Reachable s ∧ s.posted = [7, 8] ∧ s.ret true = .got 7 ∧
    (s.pc true).op? = some (.fetch 0#32) ∧
    s.fetched ++ s.ring = s.posted ∧ (s.sem .queuedMsg).counter.toNat = s.ring.length ∧
    (s.sem .freeMsg).counter.toNat = MBOXSLOTS - s.ring.length ∧
    ∀ t, ∃ s', s.next t = .ok s' ∧ Does t s s' := by
  obtain ⟨s, hs, hposted, hret, hop⟩ := reachable_talk
  exact ⟨s, hs, hposted, hret, hop, mbox_fifo s hs⟩

/-! ## `sys_mbox_trypost` -/

/-- The next step of the thread gives up the processor. -/
def Sys.switches (s : Sys T α) (t : T) : Bool :=
  match s.pc t with
  | .poll op _ _ val msec st p => s.keepsWaiting t op.sem val msec st p
  | _ => false

/-- The thread runs on, without a switch. -/
inductive Solo (t : T) (s : Sys T α) : Sys T α → Prop
  | nil : Solo t s s
  | snoc {s₁ s₂ : Sys T α} :
      Solo t s s₁ → s₁.switches t = false → s₁.next t = .ok s₂ → Solo t s s₂

/-- `sys_mbox_trypost` does not block: it returns without a switch, with `ERR_MEM` and nothing
changed if all slots are in use, else with the message queued. -/
def TrypostOk (s : Sys T α) (t : T) (m : α) : Prop :=
  ∃ s', Solo t (s.goto t (.test (.trypost m) 0#32)) s' ∧ s'.pc t = .idle ∧
    if s.ring.length = MBOXSLOTS then s'.ret t = .errMem ∧ s'.ring = s.ring ∧ s'.sem = s.sem
    else s'.ret t = .ok ∧ s'.ring = s.ring ++ [m]

section Trypost

variable {s : Sys T α} {t : T} {m : α}

/-- The first step of `sys_mbox_trypost`: it takes a slot, or reads the clock. -/
theorem next_trypost (hpc : s.pc t = .test (.trypost m) 0#32) :
    s.next t = if 0#16 < (s.sem .freeMsg).counter then (s.take .freeMsg).finish t 0#32 (.trypost m)
      else .ok (s.goto t (.block (.trypost m) 0#32 s.now)) := by
  unfold Sys.next
  simp only [hpc]
  rfl

/-- With a slot to spare it returns at once. -/
theorem trypost_ok (h : Inv s) (hroom : s.ring.length < MBOXSLOTS) :
    ∃ s', (s.goto t (.test (.trypost m) 0#32)).next t = .ok s' ∧ Inv s' ∧ s'.pc t = .idle ∧
      s'.ret t = .ok ∧ s'.ring = s.ring ++ [m] := by
  have hcall : Inv (s.goto t (.test (.trypost m) 0#32)) := h.goto (Nat.zero_le _)
  have hpos : 0#16 < (s.sem .freeMsg).counter := by
    have hfree := h.free
    have hslots : MBOXSLOTS = 32 := rfl
    rw [h.ring.ring_eq, List.length_drop] at hroom
    show 0 < (s.sem .freeMsg).counter.toNat
    omega
  obtain ⟨hne, hinv⟩ := hcall.post hpos m
  refine ⟨_, ?_, hinv.returns (t := t) .ok, ?_, ?_, ?_⟩
  · rw [next_trypost (update_self ..)]
    exact (if_pos hpos).trans (if_neg hne)
  · exact update_self ..
  · exact update_self ..
  · rw [(hinv.returns (t := t) .ok).ring.ring_eq, h.ring.ring_eq]
    exact List.drop_append_of_le_length h.ring.isPrefix.length_le

/-- With none it comes to a switch, and not to its end before. -/
theorem trypost_full (h : Inv s) (hfull : s.ring.length = MBOXSLOTS) {s' : Sys T α}
    (hsolo : Solo t (s.goto t (.test (.trypost m) 0#32)) s') : s'.pc t ≠ .idle := by
  have hzero : (s.sem .freeMsg).counter = 0#16 := by
    have hfree := h.free
    rw [h.ring.ring_eq, List.length_drop] at hfull
    exact BitVec.eq_of_toNat_eq (by rw [hfree, hfull]; rfl)
  have hnow := h.toNat_now
  -- the three states before the switch
  have hthree : s' = s.goto t (.test (.trypost m) 0#32) ∨
      s' = (s.goto t (.test (.trypost m) 0#32)).goto t (.block (.trypost m) 0#32 s.now) ∨
      s'.switches t = true ∧ s'.pc t ≠ .idle := by
    induction hsolo with
    | nil => exact Or.inl rfl
    | snoc _ hno hnext ih =>
      obtain rfl | rfl | ⟨hyes, -⟩ := ih
      · rw [next_trypost (update_self ..)] at hnext
        have hempty : ¬ 0#16 < (s.sem .freeMsg).counter := by
          rw [hzero]
          decide
        have hblock := (if_neg hempty).symm.trans hnext
        cases hblock
        exact Or.inr (Or.inl rfl)
      · unfold Sys.next at hnext
        simp only [Sys.goto, update_self] at hnext
        cases hnext
        refine Or.inr (Or.inr ⟨?_, by simp⟩)
        have hlt : s.now < 0xffffffff#32 := by
          show s.now.toNat < 4294967295
          omega
        simp [Sys.switches, Sys.keepsWaiting, Op.sem, Op.tmMsec, Sys.now] at hlt ⊢
        exact hlt
      · rw [hyes] at hno
        cases hno
  obtain rfl | rfl | ⟨-, hne⟩ := hthree
  · simp [Sys.goto]
  · simp [Sys.goto]
  · exact hne

end Trypost

/-- **`sys_mbox_trypost` does not block** exactly if a slot is free. -/
theorem trypost_iff (s : Sys T α) (h : Reachable s) (t : T) (m : α) :
    TrypostOk s t m ↔ s.ring.length < MBOXSLOTS := by
  have hinv := Inv.run h
  constructor
  · rintro ⟨s', hsolo, hidle, -⟩
    have hle : s.ring.length ≤ MBOXSLOTS := by
      have hroom := hinv.ring.room
      rw [hinv.ring.ring_eq, List.length_drop]
      omega
    exact lt_of_le_of_ne hle fun hfull => trypost_full hinv hfull hsolo hidle
  · intro hroom
    obtain ⟨s', hnext, -, hidle, hret, hring⟩ := trypost_ok (t := t) (m := m) hinv hroom
    have hquiet : (s.goto t (.test (.trypost m) 0#32)).switches t = false := by
      simp [Sys.switches, Sys.goto]
    refine ⟨s', .snoc .nil hquiet hnext, hidle, ?_⟩
    rw [if_neg hroom.ne]
    exact ⟨hret, hring⟩

/-- A mailbox can be filled. -/
theorem exists_filled (n : ℕ) (hn : n ≤ MBOXSLOTS) : ∃ s : Sys Bool ℕ, Reachable s ∧
    s.pc true = .idle ∧ s.ring.length = n := by
  induction n with
  | zero => exact ⟨fresh, reachable_fresh, rfl, rfl⟩
  | succ n ih =>
    obtain ⟨s, hs, hidle, hlen⟩ := ih (by omega)
    obtain ⟨s', hnext, -, hidle', -, hring⟩ :=
      trypost_ok (t := true) (m := n) (Inv.run hs) (by omega)
    refine ⟨s', (hs.call true _ hidle).step true hnext, hidle', ?_⟩
    rw [hring, List.length_append, hlen, List.length_singleton]

theorem trypost_three : ∃ s : Sys Bool ℕ, Reachable s ∧ s.ring.length = 3 ∧ TrypostOk s true 7 := by
  obtain ⟨s, hs, -, hlen⟩ := exists_filled 3 (by decide)
  refine ⟨s, hs, hlen, (trypost_iff s hs true 7).2 ?_⟩
  rw [hlen]
  decide

/-- All slots are in use: `sys_mbox_trypost` waits. -/
theorem trypost_blocks : ∃ s : Sys Bool ℕ, Reachable s ∧ s.pc true = .idle ∧
    s.ring.length = MBOXSLOTS ∧ ¬ TrypostOk s true 7 := by
  obtain ⟨s, hs, hidle, hlen⟩ := exists_filled MBOXSLOTS le_rfl
  refine ⟨s, hs, hidle, hlen, ?_⟩
  rintro ⟨s', hsolo, hend, -⟩
  exact trypost_full (Inv.run hs) hlen hsolo hend

end Jos.Mbox
