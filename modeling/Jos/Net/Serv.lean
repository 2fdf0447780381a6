import Jos.Inc.Mmu

/-!
# The request buffers of the network server

The main loop of `net/serv.c` takes a buffer before it knows what the next
message is: `get_buffer` marks it in `buse`, `ipc_recv` maps the message's page
there, and `put_buffer` takes the mark away when the request is done, which may
be much later, at the end of a thread of its own.

* `step` — the server and its threads; a thread may finish whenever the server
  yields.
* `Exact` — `buse` marks the buffers in use, and no others.
* `Tracks` — with the buffers that have been lost counted in, it always does.
* `buffers_iff` — a run keeps `buse` exact if nothing is lost in it.

A buffer is lost with a message that is no timer message and has no page, and
with a thread that could not be created.  Twenty such messages, from anybody,
stop the server (`serve_overflows`).
-/

namespace Jos.Serv

open Function (update update_of_ne)

def QUEUE_SIZE : ℕ := 20

/-- `0x0ffff000 - QUEUE_SIZE * PGSIZE`. -/
def REQVA : Word := 0x0ffeb000#32

def NSREQ_TIMER : Word := 12#32

/-! ## The code -/

/-- `struct st_args`. -/
structure StArgs where
  reqno : Word
  whom : Word
  req : Word

/-- What `ipc_recv` gives. -/
structure Message where
  whom : Word
  reqno : Word
  perm : Word

/-- Where `serve` is: in its loop with no buffer, in `ipc_recv`, or in the yield of
`process_timer`. -/
inductive Place
  | idle
  | receiving (va : Word)
  | timer (va : Word)

structure State where
  buse : ℕ → Bool
  place : Place
  threads : List StArgs

/-- What happens next.  `args` and `thread` say whether `malloc` and `thread_create` succeed. -/
inductive Event
  | get
  | message (m : Message) (args thread : Bool)
  | timerDone
  | finish (k : ℕ)

/-- A panic, or an event that cannot happen. -/
inductive Stop
  | overflow
  | noArgs
  | never

/-- The address of a buffer. -/
def bufferVa (i : ℕ) : Word := REQVA + BitVec.ofNat 32 i * 4096#32

/-- `((uint32_t)va - REQVA) / PGSIZE`. -/
def bufferIndex (va : Word) : ℕ := ((va - REQVA) / 4096#32).toNat

/-- The loop of `get_buffer`. -/
def freeBuffer (buse : ℕ → Bool) : Option ℕ := (List.range QUEUE_SIZE).find? fun i => !buse i

/-- `get_buffer`. -/
def getBuffer (s : State) : Except Stop (Word × State) :=
  match freeBuffer s.buse with
  | none => .error .overflow
  | some i => .ok (bufferVa i, { s with buse := update s.buse i true })

/-- `put_buffer`. -/
def putBuffer (va : Word) (s : State) : State :=
  { s with buse := update s.buse (bufferIndex va) false }

/-- `serve`, from the return of `ipc_recv` on. -/
def dispatch (timerEnvid va : Word) (m : Message) (args thread : Bool) (s : State) :
    Except Stop State :=
  if m.reqno = NSREQ_TIMER then
    -- `process_timer` yields only for the timer environment
    if m.whom ≠ timerEnvid then .ok { putBuffer va s with place := .idle }
    else .ok { s with place := .timer va }
  else if m.perm &&& PTE_P = 0#32 then .ok { s with place := .idle }
  else if !args then .error .noArgs
  else if thread then
    .ok { s with place := .idle, threads := s.threads ++ [⟨m.reqno, m.whom, va⟩] }
  -- the result of `thread_create` is not looked at
  else .ok { s with place := .idle }

/-- The end of `serve_thread`, for the `k`th of the threads there are. -/
def finish (k : ℕ) (s : State) : Except Stop State :=
  match s.threads[k]? with
  | none => .error .never
  | some t => .ok { putBuffer t.req s with threads := s.threads.eraseIdx k }

/-- One step of the server or of a thread.  While the server is in `ipc_recv`, nothing else runs. -/
def step (timerEnvid : Word) (s : State) : Event → Except Stop State
  | .get =>
    match s.place with
    | .idle => (getBuffer s).map fun r => { r.2 with place := .receiving r.1 }
    | _ => .error .never
  | .message m args thread =>
    match s.place with
    | .receiving va => dispatch timerEnvid va m args thread s
    | _ => .error .never
  | .timerDone =>
    match s.place with
    | .timer va => .ok { putBuffer va s with place := .idle }
    | _ => .error .never
  | .finish k =>
    match s.place with
    | .receiving _ => .error .never
    | _ => finish k s

def start : State := ⟨fun _ => false, .idle, []⟩

def run (timerEnvid : Word) (s : State) (evs : List Event) : Except Stop State :=
  evs.foldlM (step timerEnvid) s

/-! ## Buffers in use -/

/-- The buffer `serve` itself holds. -/
def Place.buffer : Place → List ℕ
  | .idle => []
  | .receiving va => [bufferIndex va]
  | .timer va => [bufferIndex va]

/-- The buffer that is being received into, and those of the requests in progress. -/
def State.inUse (s : State) : List ℕ := s.place.buffer ++ s.threads.map fun t => bufferIndex t.req

/-- `buse` marks the buffers in use. -/
def Exact (s : State) : Prop := ∀ i < QUEUE_SIZE, s.buse i = true ↔ i ∈ s.inUse

/-- An event that loses a buffer. -/
def Event.loses : Event → Bool
  | .message m args thread =>
    m.reqno ≠ NSREQ_TIMER && (m.perm &&& PTE_P = 0#32 || args && !thread)
  | _ => false

/-- `buse` marks the buffers of a list, each of which is in it once. -/
structure Tracks (buse : ℕ → Bool) (l : List ℕ) : Prop where
  nodup : l.Nodup
  lt : ∀ i ∈ l, i < QUEUE_SIZE
  marked : ∀ i < QUEUE_SIZE, buse i = true ↔ i ∈ l

section Tracks

variable {buse : ℕ → Bool} {l l' : List ℕ} {i : ℕ}

theorem Tracks.perm (h : Tracks buse l) (hp : l.Perm l') : Tracks buse l' :=
  ⟨hp.nodup_iff.1 h.nodup, fun j hj => h.lt j (hp.mem_iff.2 hj),
    fun j hj => (h.marked j hj).trans hp.mem_iff⟩

theorem Tracks.take (h : Tracks buse l) (hi : i < QUEUE_SIZE) (hfree : buse i = false) :
    Tracks (update buse i true) (i :: l) := by
  have hnot : i ∉ l := fun hmem => by
    rw [(h.marked i hi).2 hmem] at hfree
    cases hfree
  refine ⟨List.nodup_cons.2 ⟨hnot, h.nodup⟩, List.forall_mem_cons.2 ⟨hi, h.lt⟩, fun j hj => ?_⟩
  rw [List.mem_cons]
  by_cases hji : j = i
  · subst hji
    simp
  · rw [update_of_ne hji, h.marked j hj]
    simp [hji]

theorem Tracks.give (h : Tracks buse (i :: l)) : Tracks (update buse i false) l := by
  obtain ⟨hnot, hnodup⟩ := List.nodup_cons.1 h.nodup
  refine ⟨hnodup, fun j hj => h.lt j (List.mem_cons_of_mem i hj), fun j hj => ?_⟩
  by_cases hji : j = i
  · subst hji
    simp [hnot]
  · rw [update_of_ne hji, h.marked j hj, List.mem_cons]
    simp [hji]

end Tracks

theorem bufferIndex_bufferVa {i : ℕ} (h : i < QUEUE_SIZE) : bufferIndex (bufferVa i) = i := by
  have hall : ∀ k : Fin 20, bufferIndex (bufferVa k.val) = k.val := by decide
  exact hall ⟨i, h⟩

theorem freeBuffer_some {buse : ℕ → Bool} {i : ℕ} (h : freeBuffer buse = some i) :
    i < QUEUE_SIZE ∧ buse i = false := by
  refine ⟨List.mem_range.1 (List.mem_of_find?_eq_some h), ?_⟩
  simpa using List.find?_some h

theorem freeBuffer_none {buse : ℕ → Bool} (h : freeBuffer buse = none) {i : ℕ}
    (hi : i < QUEUE_SIZE) : buse i = true := by
  simpa using List.find?_eq_none.1 h i (List.mem_range.2 hi)

/-! ## Steps and runs -/

/-- After an event the lost buffers are as many more as the event says. -/
def Accounts (ev : Event) (lost : List ℕ) (s : State) : Prop :=
  ∃ lost', Tracks s.buse (s.inUse ++ lost') ∧ lost'.length = lost.length + ev.loses.toNat

section Steps

variable {timerEnvid : Word} {s s' : State} {lost : List ℕ} {ev : Event}

theorem Accounts.kept (h : ev.loses = false) (ht : Tracks s.buse (s.inUse ++ lost)) :
    Accounts ev lost s :=
  ⟨lost, ht, by rw [h]; rfl⟩

theorem Accounts.more {i : ℕ} (h : ev.loses = true) (ht : Tracks s.buse (i :: (s.inUse ++ lost))) :
    Accounts ev lost s :=
  ⟨i :: lost, ht.perm List.perm_middle.symm, by rw [h]; rfl⟩

/-- A message: its buffer goes on being used, is given back, or is lost. -/
theorem dispatch_accounts {va : Word} {m : Message} {args thread : Bool}
    (h : dispatch timerEnvid va m args thread s = .ok s') (hp : s.place = .receiving va)
    (ht : Tracks s.buse (s.inUse ++ lost)) : Accounts (.message m args thread) lost s' := by
  rw [State.inUse, hp] at ht
  rw [dispatch] at h
  split_ifs at h with htimer hwho hpage hargs hthread
  · cases h
    exact .kept (by simp [Event.loses, htimer]) ht.give
  · cases h
    exact .kept (by simp [Event.loses, htimer]) ht
  · cases h
    exact .more (by simp [Event.loses, htimer, hpage]) ht
  · cases h
    refine .kept (by simp [Event.loses, hpage, hthread]) (ht.perm ?_)
    show List.Perm (bufferIndex va :: (s.threads.map (fun t => bufferIndex t.req) ++ lost))
      ((s.threads ++ [(⟨m.reqno, m.whom, va⟩ : StArgs)]).map (fun t => bufferIndex t.req) ++ lost)
    rw [List.map_append, List.append_assoc]
    exact List.perm_middle.symm
  · cases h
    have hgot : args = true := by simpa using hargs
    exact .more (by simp [Event.loses, htimer, hgot, hthread]) ht

theorem finish_accounts {k : ℕ} (h : finish k s = .ok s') (ht : Tracks s.buse (s.inUse ++ lost)) :
    Accounts (.finish k) lost s' := by
  rw [finish] at h
  split at h
  · cases h
  · rename_i t hk
    cases h
    obtain ⟨hlt, rfl⟩ := List.getElem?_eq_some_iff.1 hk
    refine .kept rfl (Tracks.give (ht.perm ?_))
    have hperm := ((List.getElem_cons_eraseIdx_perm hlt).map fun t => bufferIndex t.req).symm
    exact ((hperm.append_left s.place.buffer).trans List.perm_middle).append_right lost

/-- **One step**, whatever it is. -/
theorem step_accounts (h : step timerEnvid s ev = .ok s') (ht : Tracks s.buse (s.inUse ++ lost)) :
    Accounts ev lost s' := by
  rw [step.eq_def] at h
  cases ev with
  | get =>
    dsimp only at h
    split at h
    · rename_i hp
      rw [getBuffer] at h
      split at h
      · cases h
      · rename_i i hfree
        cases h
        obtain ⟨hi, hmark⟩ := freeBuffer_some hfree
        have htake := ht.take hi hmark
        rw [State.inUse, hp] at htake
        refine .kept rfl ?_
        show Tracks _ (bufferIndex (bufferVa i) :: _)
        rw [bufferIndex_bufferVa hi]
        exact htake
    · cases h
  | message m args thread =>
    dsimp only at h
    split at h
    · exact dispatch_accounts h ‹_› ht
    · cases h
  | timerDone =>
    dsimp only at h
    split at h
    · rename_i va hp
      cases h
      rw [State.inUse, hp] at ht
      exact .kept rfl ht.give
    · cases h
  | finish k =>
    dsimp only at h
    split at h
    · cases h
    · exact finish_accounts h ht

/-- **A whole run**: what `buse` marks is in use, or has been lost. -/
theorem run_tracks : ∀ (evs : List Event) {s s' : State} {lost : List ℕ},
    run timerEnvid s evs = .ok s' → Tracks s.buse (s.inUse ++ lost) →
      ∃ lost', Tracks s'.buse (s'.inUse ++ lost') ∧
        lost'.length = lost.length + evs.countP Event.loses := by
  intro evs
  induction evs with
  | nil =>
    intro s s' lost h ht
    cases h
    exact ⟨lost, ht, rfl⟩
  | cons ev evs ih =>
    intro s s' lost h ht
    rw [run, List.foldlM_cons] at h
    cases hstep : step timerEnvid s ev with
    | error e => rw [hstep] at h; cases h
    | ok s1 =>
      rw [hstep] at h
      obtain ⟨lost1, ht1, hlen1⟩ := step_accounts hstep ht
      obtain ⟨lost2, ht2, hlen2⟩ := ih h ht1
      refine ⟨lost2, ht2, ?_⟩
      rw [hlen2, hlen1, List.countP_cons]
      cases ev.loses with
      | false => rfl
      | true =>
        show lost.length + 1 + _ = lost.length + (_ + 1)
        omega

theorem start_tracks : Tracks start.buse (start.inUse ++ []) :=
  ⟨List.nodup_nil, fun _ h => absurd h List.not_mem_nil,
    fun _ _ => ⟨fun h => Bool.noConfusion h, fun h => absurd h List.not_mem_nil⟩⟩

/-- `buse` is exact when nothing has been lost. -/
theorem exact_iff (ht : Tracks s.buse (s.inUse ++ lost)) : Exact s ↔ lost = [] := by
  constructor
  · intro h
    refine List.eq_nil_iff_forall_not_mem.2 fun i hi => ?_
    have hlt := ht.lt i (List.mem_append_right _ hi)
    have huse := (h i hlt).1 ((ht.marked i hlt).2 (List.mem_append_right _ hi))
    exact (List.nodup_append.1 ht.nodup).2.2 i huse i hi rfl
  · rintro rfl
    rw [List.append_nil] at ht
    exact ht.marked

theorem exact_run_iff {evs : List Event} (h : run timerEnvid start evs = .ok s) :
    Exact s ↔ ∀ ev ∈ evs, ev.loses = false := by
  obtain ⟨lost, ht, hlen⟩ := run_tracks evs h start_tracks
  rw [exact_iff ht, ← List.length_eq_zero_iff, hlen, List.length_nil, Nat.zero_add,
    List.countP_eq_zero]
  simp

/-- If `buse` is exact, `get_buffer` panics only when every buffer belongs to a request. -/
theorem overflow_busy (h : Exact s) (hget : step timerEnvid s .get = .error .overflow) :
    QUEUE_SIZE ≤ s.threads.length := by
  rw [step] at hget
  split at hget
  · rename_i hp
    have hall : List.range QUEUE_SIZE ⊆ s.threads.map fun t => bufferIndex t.req := by
      intro i hi
      have hfree : freeBuffer s.buse = none := by
        rw [getBuffer] at hget
        split at hget
        · assumption
        · cases hget
      have huse := (h i (List.mem_range.1 hi)).1 (freeBuffer_none hfree (List.mem_range.1 hi))
      rw [State.inUse, hp] at huse
      exact huse
    have hlen := (List.nodup_range.subperm hall).length_le
    rw [List.length_range, List.length_map] at hlen
    exact hlen
  · cases hget

end Steps

/-- At every point of a run `buse` is exact, and `get_buffer` panics only with
`QUEUE_SIZE` requests in progress. -/
def Right (timerEnvid : Word) (evs : List Event) : Prop :=
  ∀ before s, before <+: evs → run timerEnvid start before = .ok s →
    Exact s ∧ (step timerEnvid s .get = .error .overflow → QUEUE_SIZE ≤ s.threads.length)

/-- **When the server keeps track of its buffers.**  For every run, of any
messages from anybody and with the threads finishing in any order: at every
point of it `buse` marks the buffers in use and no others, exactly if no
message loses its buffer. -/
theorem buffers_iff (timerEnvid : Word) (evs : List Event) (s : State)
    (h : run timerEnvid start evs = .ok s) :
    Right timerEnvid evs ↔ ∀ ev ∈ evs, ev.loses = false := by
  constructor
  · intro hright
    exact (exact_run_iff h).1 (hright evs s (List.prefix_refl _) h).1
  · intro hnone before s1 hpre hrun
    have hexact : Exact s1 := (exact_run_iff hrun).2 fun ev hev => hnone ev (hpre.subset hev)
    exact ⟨hexact, overflow_busy hexact⟩

/-- A request with a page, answered. -/
theorem buffers_one : Right 0x1002#32 [.get, .message ⟨0x1005#32, 9#32, 7#32⟩ true true, .finish 0] :=
  (buffers_iff 0x1002#32 [.get, .message ⟨0x1005#32, 9#32, 7#32⟩ true true, .finish 0] _ rfl).2
    (by decide)

/-- Twenty messages without a page, and the server panics with no request in progress. -/
theorem serve_overflows : ∃ s, run 0x1002#32 start ((List.range 20).flatMap fun _ =>
      [.get, .message ⟨0x1005#32, 9#32, 0#32⟩ true true]) = .ok s ∧
    s.threads = [] ∧ step 0x1002#32 s .get = .error .overflow :=
  ⟨_, rfl, rfl, rfl⟩

end Jos.Serv
