import Jos.User.Gettoken

/-!
# The shell's command loop

`runcmd` of `user/sh.c`, from a line to the call of `spawn`.  The arguments of a command are
collected in `argv[MAXARGS]`; a command name that does not start with a slash is copied to
`argv0buf[BUFSIZ]`, behind a slash.

* `cmdLoop`, `runit`, `runcmd` — the code.  What the system answers (to `open`, `pipe`, `fork`,
  `spawn`) is a list that the run consumes; what the run does is a list of events.
* `commands` — the argument lists with which `runit` can be reached, from the tokens of the line.
* `runit_spec` — the stores of one command are in bounds exactly if `CommandOk`.
* `runcmd_inBounds_iff` — so it is for the line: there must be no command with exactly `MAXARGS`
  words, and none with a name of `BUFSIZ - 1` characters that does not start with a slash.
-/

namespace Jos.Sh

open Readline (Byte)

/-! ## The code -/

def MAXARGS : ℕ := 16

def BUFSIZ : ℕ := 1024

/-- A pointer in `argv`. -/
inductive Arg
  | null
  | line (a : ℕ)
  | argv0buf
  deriving DecidableEq

def Arg.ofPtr : Option ℕ → Arg
  | none => .null
  | some a => .line a

/-- The messages of `runcmd`. -/
inductive Msg
  | tooMany | syntaxIn | noFile | syntaxOut | openForWrite | pipe | fork | spawn
  deriving DecidableEq

/-- What a run does: stores into the two arrays, messages, and calls. -/
inductive Event
  | argv (i : ℕ) (p : Arg)
  | argv0buf (i : ℕ) (c : Byte)
  | message (msg : Msg)
  | opening (path : Option ℕ) (mode : ℕ)
  | dup (fd newfd : ℕ)
  | close (fd : ℕ)
  | pipe
  | fork
  | spawn (prog : Arg)
  | closeAll
  | wait (id : ℕ)
  deriving DecidableEq

/-- The answer to a call; `none` is an error. -/
structure Answer where
  openFd : Option ℕ
  pipeFds : Option (ℕ × ℕ)
  /-- of `fork` and `spawn` -/
  child : Option ℕ

/-- How `runcmd` ends. -/
inductive Outcome
  | exited
  | returned
  /-- `panic("bad return %d from gettoken", c)` -/
  | panicked (c : Byte)
  deriving DecidableEq

structure Run where
  st : Statics
  argc : ℕ
  argv : ℕ → Arg
  pipeChild : ℕ
  /-- the answers to come -/
  world : List Answer
  trace : List Event

namespace Run

def log (r : Run) (es : List Event) : Run := { r with trace := r.trace ++ es }

/-- `argv[i] = p;` -/
def setArgv (r : Run) (i : ℕ) (p : Arg) : Run :=
  { r.log [.argv i p] with argv := Function.update r.argv i p }

/-- The answer to the next call. -/
def ask {α : Type} (r : Run) (f : Answer → Option α) : Option α := r.world.head?.bind f

/-- After that call. -/
def next (r : Run) (es : List Event) : Run := { r.log es with world := r.world.tail }

end Run

/-- `<` and `>`: the word behind it is opened, as descriptor `target`. -/
def redirect (fuel mode target : ℕ) (bad failed : Msg) (r : Run) :
    Option (Except (Outcome × Run) Run) := do
  let ((c, t), st) ← gettoken fuel r.st
  let r := { r with st := st }
  if c ≠ WORD then return .error (.exited, r.log [.message bad])
  match r.ask Answer.openFd with
  | none => return .error (.exited, r.next [.opening t mode, .message failed])
  | some fd =>
    if fd ≠ target then return .ok (r.next [.opening t mode, .dup fd target, .close fd])
    else return .ok (r.next [.opening t mode])

/-- Where a `|` leads to. -/
inductive Piped
  | failed (r : Run)
  | child (r : Run)
  | parent (r : Run)

/-- `|`: a pipe and a fork. -/
def startPipe (r : Run) : Piped :=
  match r.ask Answer.pipeFds with
  | none => .failed (r.next [.pipe, .message .pipe])
  | some (p0, p1) =>
    let r := r.next [.pipe]
    match r.ask Answer.child with
    | none => .failed (r.next [.fork, .message .fork])
    | some 0 =>
      .child (r.next ([.fork] ++ (if p0 ≠ 0 then [.dup p0 0, .close p0] else []) ++
        [.close p1]))
    | some (k + 1) =>
      .parent { r.next ([.fork] ++ (if p1 ≠ 1 then [.dup p1 1, .close p1] else []) ++
        [.close p0]) with pipeChild := k + 1 }

/-- `strcpy(argv0buf + i, src)`. -/
def strcpy : ℕ → Memory → ℕ → ℕ → Option (List Event)
  | 0, _, _, _ => none
  | fuel + 1, m, src, i =>
    if m src = 0#8 then some [.argv0buf i 0#8]
    else (strcpy fuel m (src + 1) (i + 1)).map (.argv0buf i (m src) :: ·)

/-- `if (argv[0][0] != '/')`, and the copy of the name; `none` for a pointer that is not one. -/
def prependSlash (fuel : ℕ) (r : Run) : Option Run :=
  match r.argv 0 with
  | .line a =>
    if r.st.mem a ≠ 0x2F#8 then do
      let es ← strcpy fuel r.st.mem a 1
      return (r.log (.argv0buf 0 0x2F#8 :: es)).setArgv 0 .argv0buf
    else some r
  | _ => none

/-- From the call of `spawn` on. -/
def finish (r : Run) : Run :=
  let waits := if r.pipeChild ≠ 0 then [Event.wait r.pipeChild] else []
  match r.ask Answer.child with
  | none => r.next ([.spawn (r.argv 0), .message .spawn, .closeAll] ++ waits)
  | some id => r.next ([.spawn (r.argv 0), .closeAll, .wait id] ++ waits)

/-- `runit:` -/
def runit (fuel : ℕ) (r : Run) : Option (Outcome × Run) :=
  if r.argc = 0 then some (.returned, r)
  else do
    let r ← prependSlash fuel r
    return (.exited, finish (r.setArgv r.argc .null))

/-- `O_RDONLY`, and `O_WRONLY | O_CREAT | O_TRUNC`. -/
def O_RDONLY : ℕ := 0

def O_OUTPUT : ℕ := 0x301

/-- The loop over the tokens, from `again:` on. -/
def cmdLoop (fuel : ℕ) : ℕ → Run → Option (Outcome × Run)
  | 0, _ => none
  | n + 1, r => do
      let ((c, t), st) ← gettoken fuel r.st
      let r := { r with st := st }
      if c = WORD then
        if r.argc = MAXARGS then return (.exited, r.log [.message .tooMany])
        else cmdLoop fuel n { r.setArgv r.argc (.ofPtr t) with argc := r.argc + 1 }
      else if c = 0x3C#8 then
        match ← redirect fuel O_RDONLY 0 .syntaxIn .noFile r with
        | .error out => return out
        | .ok r => cmdLoop fuel n r
      else if c = 0x3E#8 then
        match ← redirect fuel O_OUTPUT 1 .syntaxOut .openForWrite r with
        | .error out => return out
        | .ok r => cmdLoop fuel n r
      else if c = 0x7C#8 then
        match startPipe r with
        | .failed r => return (.exited, r)
        | .child r => cmdLoop fuel n { r with argc := 0 }
        | .parent r => runit fuel r
      else if c = 0#8 then runit fuel r
      else return (.panicked c, r)

/-- `runcmd(s)`; `argv` has whatever was on the stack. -/
def runcmd (fuel s : ℕ) (st : Statics) (argv : ℕ → Arg) (world : List Answer) :
    Option (Outcome × Run) := do
  let st ← gettokenInit fuel s st
  cmdLoop fuel fuel ⟨st, 0, argv, 0, world, []⟩

/-! ## The commands of a line -/

def Event.InBounds : Event → Prop
  | .argv i _ => i < MAXARGS
  | .argv0buf i _ => i < BUFSIZ
  | _ => True

/-- All stores so far were in bounds. -/
def Run.Clean (r : Run) : Prop := ∀ e ∈ r.trace, e.InBounds

/-- The argument lists with which `runit` can be reached, if `args` have been collected and
the tokens `ts` are to come. -/
def commands : List Token → List Token → List (List Token)
  | args, [] => [args]
  | args, .word a w :: ts =>
    if args.length = MAXARGS then [] else commands (args ++ [.word a w]) ts
  | args, .symbol _ c :: ts =>
    if c = 0x3C#8 ∨ c = 0x3E#8 then
      match ts with
      | .word _ _ :: ts => commands args ts
      | _ => []
    else if c = 0x7C#8 then args :: commands [] ts
    else []

theorem commands_pipe (args ts : List Token) (a : ℕ) :
    commands args (.symbol a 0x7C#8 :: ts) = args :: commands [] ts := by
  rcases ts with _ | ⟨⟨b, w⟩ | ⟨b, c⟩, ts⟩ <;> simp [commands]

variable {a : ℕ} {c : Byte}

theorem commands_other {args ts : List Token} (h : ¬ (c = 0x3C#8 ∨ c = 0x3E#8)) (h' : c ≠ 0x7C#8) :
    commands args (.symbol a c :: ts) = [] := by
  rcases ts with _ | ⟨⟨b, w⟩ | ⟨b, d⟩, ts⟩ <;> rw [commands] <;> simp [h, h']

/-- Induction along `commands`: one case for each way the next token is taken. -/
theorem commands_induction {motive : List Token → List Token → Prop}
    (nil : ∀ args, motive args [])
    (full : ∀ args a w ts, args.length = MAXARGS → motive args (.word a w :: ts))
    (word : ∀ args a w ts, args.length ≠ MAXARGS → motive (args ++ [.word a w]) ts →
      motive args (.word a w :: ts))
    (redirect : ∀ args a c b w ts, c = 0x3C#8 ∨ c = 0x3E#8 → motive args ts →
      motive args (.symbol a c :: .word b w :: ts))
    (stray : ∀ args a c ts, c = 0x3C#8 ∨ c = 0x3E#8 → (∀ b w ts', ts = .word b w :: ts' → False) →
      motive args (.symbol a c :: ts))
    (pipe : ∀ args a ts, motive [] ts → motive args (.symbol a 0x7C#8 :: ts))
    (other : ∀ args a c ts, ¬ (c = 0x3C#8 ∨ c = 0x3E#8) → c ≠ 0x7C#8 →
      motive args (.symbol a c :: ts))
    (args ts : List Token) : motive args ts := by
  induction hlen : ts.length using Nat.strong_induction_on generalizing args ts with
  | _ n ih =>
  subst hlen
  rcases ts with _ | ⟨⟨a, w⟩ | ⟨a, c⟩, ts⟩
  · exact nil args
  · by_cases hfull : args.length = MAXARGS
    · exact full args a w ts hfull
    · exact word args a w ts hfull (ih _ (Nat.lt_succ_self _) _ ts rfl)
  · by_cases hredir : c = 0x3C#8 ∨ c = 0x3E#8
    · rcases ts with _ | ⟨⟨b, w⟩ | ⟨b, d⟩, ts⟩
      · exact stray args a c [] hredir (by simp)
      · exact redirect args a c b w ts hredir (ih _ (by simp) args ts rfl)
      · exact stray args a c _ hredir (by simp)
    · by_cases hpipe : c = 0x7C#8
      · subst hpipe
        exact pipe args a ts (ih _ (Nat.lt_succ_self _) [] ts rfl)
      · exact other args a c ts hredir hpipe

/-- The command fits into the two arrays. -/
def CommandOk (args : List Token) : Prop :=
  args.length ≠ MAXARGS ∧
    ∀ t ∈ args.head?, t.text.head? = some 0x2F#8 ∨ t.text.length < BUFSIZ - 1

/-! ## One command -/

section Command

variable {m : Memory} {a i fuel : ℕ} {w : List Byte}

/-- The copy of a name of `w.length` characters. -/
theorem strcpy_spec (h : Text m a w) (hfuel : w.length < fuel) :
    ∃ es, strcpy fuel m a i = some es ∧ ((∀ e ∈ es, e.InBounds) ↔ i + w.length < BUFSIZ) := by
  induction w generalizing a i fuel with
  | nil =>
    obtain ⟨f, rfl⟩ : ∃ f, fuel = f + 1 := ⟨fuel - 1, by simp at hfuel; omega⟩
    refine ⟨_, by rw [strcpy, if_pos h.end], ?_⟩
    simp [Event.InBounds]
  | cons c w ih =>
    rw [List.length_cons] at hfuel
    obtain ⟨f, rfl⟩ : ∃ f, fuel = f + 1 := ⟨fuel - 1, by omega⟩
    have hne : m a ≠ 0#8 := by
      rw [h.head]
      rintro rfl
      exact h.1 List.mem_cons_self
    obtain ⟨es, hes, hiff⟩ := ih (i := i + 1) h.tail (show w.length < f by omega)
    refine ⟨_, by rw [strcpy, if_neg hne, hes]; rfl, ?_⟩
    rw [List.forall_mem_cons, hiff, List.length_cons]
    simp only [Event.InBounds]
    omega

end Command

/-- `runcmd` has collected `args`, the words among the tokens `done`, and the tokens `ts` of
the line `l` are to come. -/
structure Parsing (m : Memory) (s : ℕ) (l : List Byte) (done args ts : List Token) (r : Run) :
    Prop where
  text : Text m s l
  ahead : Ahead m s (s + l.length) ts r.st
  all : done ++ ts = tokens s l
  argc : r.argc = args.length
  argv : ∀ k (h : k < args.length), r.argv k = .line args[k].start
  sub : ∀ t ∈ args, t ∈ done
  words : ∀ t ∈ args, t.isWord = true
  le : args.length ≤ MAXARGS

section Parsing

variable {m : Memory} {s fuel n : ℕ} {l : List Byte} {done args ts : List Token} {r : Run}

variable {es : List Event} {w : List Byte} {st : Statics}

theorem Run.Clean.log (h : r.Clean) (hes : ∀ e ∈ es, e.InBounds) : (r.log es).Clean := by
  intro e he
  rcases List.mem_append.1 he with he | he
  · exact h e he
  · exact hes e he

theorem clean_log_iff (h : r.Clean) : (r.log es).Clean ↔ ∀ e ∈ es, e.InBounds :=
  ⟨fun hc e he => hc e (List.mem_append_right _ he), h.log⟩

/-- What comes from the call of `spawn` on stores nothing. -/
theorem clean_finish_iff : (finish r).Clean ↔ r.Clean := by
  have hstores : ∃ es, (finish r).trace = r.trace ++ es ∧ ∀ e ∈ es, e.InBounds := by
    unfold finish
    cases r.ask Answer.child with
    | none =>
      refine ⟨_, rfl, ?_⟩
      split_ifs <;> simp [Event.InBounds]
    | some id =>
      refine ⟨_, rfl, ?_⟩
      split_ifs <;> simp [Event.InBounds]
  obtain ⟨es, htrace, hes⟩ := hstores
  constructor
  · intro h e he
    exact h e (by rw [htrace]; exact List.mem_append_left _ he)
  · intro h e he
    rw [htrace] at he
    rcases List.mem_append.1 he with he | he
    · exact h e he
    · exact hes e he

theorem clean_setArgv_iff {i : ℕ} {p : Arg} : (r.setArgv i p).Clean ↔ r.Clean ∧ i < MAXARGS := by
  constructor
  · intro h
    refine ⟨fun e he => h e (List.mem_append_left _ he), h (.argv i p) ?_⟩
    exact List.mem_append_right _ (List.mem_singleton_self _)
  · rintro ⟨h, hi⟩
    have hlog : (r.log [.argv i p]).Clean := h.log (by simpa [Event.InBounds] using hi)
    exact hlog

/-- The name of the command is in memory. -/
theorem Parsing.name {t : Token} (h : Parsing m s l done (t :: args) ts r) :
    Text r.st.mem t.start t.text ∧ t.text ≠ [] := by
  have hdone := h.sub t List.mem_cons_self
  refine ⟨h.ahead.text_done h.text h.all hdone (h.words t List.mem_cons_self), fun hnil => ?_⟩
  have hmem : t ∈ tokens s l := h.all ▸ List.mem_append_left _ hdone
  have := ((tokens_sorted s l).1 t hmem).2.1
  rw [Token.stop, hnil, List.length_nil] at this
  omega

/-- **One command**: its stores are in bounds exactly if the command fits. -/
theorem runit_spec (h : Parsing m s l done args ts r) (hclean : r.Clean)
    (hfuel : l.length < fuel) :
    ∃ o r', runit fuel r = some (o, r') ∧ (r'.Clean ↔ CommandOk args) := by
  have hle := h.le
  cases args with
  | nil =>
    have hargc : r.argc = 0 := h.argc
    exact ⟨_, r, by rw [runit, if_pos hargc], iff_of_true hclean ⟨by decide, by simp⟩⟩
  | cons t args =>
    obtain ⟨htext, hne⟩ := h.name
    obtain ⟨c, w, hw⟩ := List.exists_cons_of_ne_nil hne
    have hargc : r.argc ≠ 0 := by
      rw [h.argc]
      simp
    have hargv : r.argv 0 = .line t.start := h.argv 0 (by simp)
    have hchar : r.st.mem t.start = c := by
      rw [hw] at htext
      exact htext.head
    -- the name is not longer than the line
    have hlen : t.text.length ≤ l.length := by
      have hmem : t ∈ tokens s l := h.all ▸ List.mem_append_left _ (h.sub t List.mem_cons_self)
      have := (tokens_sorted s l).1 t hmem
      rw [Token.stop] at this
      omega
    have hcount : (t :: args).length < MAXARGS ↔ (t :: args).length ≠ MAXARGS := by omega
    rw [runit, if_neg hargc, prependSlash, hargv]
    by_cases hslash : c = 0x2F#8
    · -- the name stays where it is
      simp only [hchar, hslash, ne_eq, not_true_eq_false, if_false]
      refine ⟨_, _, rfl, ?_⟩
      rw [clean_finish_iff, clean_setArgv_iff, h.argc, hcount, CommandOk]
      simp [hclean, hw, hslash]
    · obtain ⟨es, hes, hiff⟩ := strcpy_spec (i := 1) htext (hlen.trans_lt hfuel)
      simp only [hchar, ne_eq, hslash, not_false_eq_true, if_true, hes]
      refine ⟨_, _, rfl, ?_⟩
      have hcopy : (∀ e ∈ Event.argv0buf 0 0x2F#8 :: es, e.InBounds) ↔
          t.text.length < BUFSIZ - 1 := by
        rw [List.forall_mem_cons, hiff]
        simp only [Event.InBounds, BUFSIZ]
        omega
      have hargc' : ((r.log (.argv0buf 0 0x2F#8 :: es)).setArgv 0 .argv0buf).argc =
          (t :: args).length := h.argc
      rw [clean_finish_iff, clean_setArgv_iff, hargc', hcount, clean_setArgv_iff,
        clean_log_iff hclean, hcopy, CommandOk]
      simp [hw, hslash, show 0 < MAXARGS by decide, and_comm]

/-! ## The loop -/

/-- Only tokens have been read since. -/
theorem Parsing.advance {us ts' : List Token} {r' : Run} (h : Parsing m s l done args ts r)
    (hts : ts = us ++ ts') (hst : Ahead m s (s + l.length) ts' r'.st) (hargc : r'.argc = r.argc)
    (hargv : r'.argv = r.argv) : Parsing m s l (done ++ us) args ts' r' where
  text := h.text
  ahead := hst
  all := by rw [List.append_assoc, ← hts, h.all]
  argc := hargc.trans h.argc
  argv k hk := by rw [hargv, h.argv k hk]
  sub t ht := List.mem_append_left _ (h.sub t ht)
  words := h.words
  le := h.le

/-- Nothing has been read or stored since. -/
theorem Parsing.of_same {r' : Run} (h : Parsing m s l done args ts r) (hst : r'.st = r.st)
    (hargc : r'.argc = r.argc) (hargv : r'.argv = r.argv) : Parsing m s l done args ts r' where
  text := h.text
  ahead := hst ▸ h.ahead
  all := h.all
  argc := hargc.trans h.argc
  argv k hk := by rw [hargv, h.argv k hk]
  sub := h.sub
  words := h.words
  le := h.le

/-- One more argument. -/
theorem Parsing.push (h : Parsing m s l done args (.word a w :: ts) r)
    (hst : Ahead m s (s + l.length) ts st) (hlt : args.length ≠ MAXARGS) :
    Parsing m s l (done ++ [.word a w]) (args ++ [.word a w]) ts
      { ({ r with st := st }.setArgv r.argc (.line a)) with argc := r.argc + 1 } := by
  have hle := h.le
  refine ⟨h.text, hst, by rw [List.append_assoc]; exact h.all, by simp [h.argc], fun k hk => ?_,
    fun t ht => ?_, fun t ht => ?_, ?_⟩
  · rw [List.length_append, List.length_singleton] at hk
    by_cases hlast : k = args.length
    · subst hlast
      rw [List.getElem_concat_length rfl]
      simp only [Run.setArgv, h.argc, Function.update_self]
      rfl
    · rw [List.getElem_append_left (by omega)]
      simp only [Run.setArgv, h.argc, Function.update_of_ne hlast]
      exact h.argv k (by omega)
  · rcases List.mem_append.1 ht with ht | ht
    · exact List.mem_append_left _ (h.sub t ht)
    · exact List.mem_append_right _ ht
  · rcases List.mem_append.1 ht with ht | ht
    · exact h.words t ht
    · rw [List.mem_singleton.1 ht]
      rfl
  · rw [List.length_append, List.length_singleton]
    omega

/-- `goto again;` -/
theorem Parsing.again (h : Parsing m s l done args ts r) :
    Parsing m s l done [] ts { r with argc := 0 } :=
  ⟨h.text, h.ahead, h.all, rfl, by simp, by simp, by simp, Nat.zero_le _⟩

/-- The next token. -/
theorem Parsing.gettoken (h : Parsing m s l done args ts r) (hfuel : l.length < fuel) :
    ∃ st', gettoken fuel r.st = some (answer ts.head?, st') ∧
      Ahead m s (s + l.length) ts.tail st' := by
  have hlen : s + l.length - s < fuel := by omega
  exact gettoken_step h.ahead hlen

theorem clean_next (h : r.Clean) (hes : ∀ e ∈ es, e.InBounds) : (r.next es).Clean := h.log hes

/-- A redirection to a word. -/
theorem redirect_word (mode target : ℕ) (bad failed : Msg)
    (h : Parsing m s l done args (.word a w :: ts) r) (hclean : r.Clean) (hfuel : l.length < fuel) :
    (r.ask Answer.openFd = none →
      ∃ r', redirect fuel mode target bad failed r = some (.error (.exited, r')) ∧ r'.Clean) ∧
    ∀ fd, r.ask Answer.openFd = some fd →
      ∃ r', redirect fuel mode target bad failed r = some (.ok r') ∧
        Parsing m s l (done ++ [.word a w]) args ts r' ∧ r'.Clean ∧ r'.world = r.world.tail := by
  obtain ⟨st, hget, hst⟩ := h.gettoken hfuel
  have hmove : ∀ es, Parsing m s l (done ++ [.word a w]) args ts ({ r with st := st }.next es) :=
    fun es => h.advance rfl hst rfl rfl
  constructor
  · intro hask
    refine ⟨{ r with st := st }.next [.opening (some a) mode, .message failed], ?_, ?_⟩
    · rw [redirect, hget]
      have hask' : ({ r with st := st } : Run).ask Answer.openFd = none := hask
      simp only [Option.bind_eq_bind, Option.bind_some, answer, List.head?_cons, Token.id,
        ne_eq, not_true_eq_false, if_false, hask', Token.start]
      rfl
    · exact clean_next (r := { r with st := st }) hclean (by simp [Event.InBounds])
  · intro fd hask
    have hask' : ({ r with st := st } : Run).ask Answer.openFd = some fd := hask
    by_cases hfd : fd = target
    · refine ⟨{ r with st := st }.next [.opening (some a) mode], ?_, hmove _, ?_, rfl⟩
      · rw [redirect, hget]
        simp only [Option.bind_eq_bind, Option.bind_some, answer, List.head?_cons, Token.id,
          ne_eq, not_true_eq_false, if_false, hask', Token.start, hfd]
        rfl
      · exact clean_next (r := { r with st := st }) hclean (by simp [Event.InBounds])
    · refine ⟨{ r with st := st }.next [.opening (some a) mode, .dup fd target, .close fd], ?_,
        hmove _, ?_, rfl⟩
      · rw [redirect, hget]
        simp only [Option.bind_eq_bind, Option.bind_some, answer, List.head?_cons, Token.id,
          ne_eq, not_true_eq_false, if_false, hask', Token.start, hfd, not_false_eq_true, if_true]
        rfl
      · exact clean_next (r := { r with st := st }) hclean (by simp [Event.InBounds])

/-- What `gettoken` returns for a symbol is neither 0 nor a `w`. -/
theorem Parsing.symbol (h : Parsing m s l done args (.symbol a c :: ts) r) :
    c ≠ WORD ∧ c ≠ 0#8 := by
  have hmem : Token.symbol a c ∈ tokens s l := h.all ▸ by simp
  have hsym := isSymbol_of_mem s l hmem
  constructor
  · rintro rfl
    exact absurd hsym (by decide)
  · rintro rfl
    exact absurd hsym (by decide)

/-- A redirection to anything else. -/
theorem redirect_other (mode target : ℕ) (bad failed : Msg) (h : Parsing m s l done args ts r)
    (hclean : r.Clean) (hfuel : l.length < fuel) (hno : ∀ a w ts', ts = .word a w :: ts' → False) :
    ∃ r', redirect fuel mode target bad failed r = some (.error (.exited, r')) ∧ r'.Clean := by
  obtain ⟨st, hget, hst⟩ := h.gettoken hfuel
  have hc : (answer ts.head?).1 ≠ WORD := by
    rcases ts with _ | ⟨⟨a, w⟩ | ⟨a, c⟩, ts⟩
    · decide
    · exact (hno a w ts rfl).elim
    · exact h.symbol.1
  refine ⟨{ r with st := st }.log [.message bad], ?_, ?_⟩
  · rw [redirect, hget]
    simp only [Option.bind_eq_bind, Option.bind_some, if_pos hc]
    rfl
  · exact Run.Clean.log (r := { r with st := st }) hclean (by simp [Event.InBounds])

/-- Whatever the system answers to a `|`, nothing is stored. -/
theorem startPipe_clean (hclean : r.Clean) :
    match startPipe r with
    | .failed r' => r'.Clean
    | .child r' => r'.Clean ∧ r'.st = r.st ∧ r'.argv = r.argv ∧ r'.argc = r.argc
    | .parent r' => r'.Clean ∧ r'.st = r.st ∧ r'.argv = r.argv ∧ r'.argc = r.argc := by
  unfold startPipe
  cases r.ask Answer.pipeFds with
  | none => exact clean_next hclean (by simp [Event.InBounds])
  | some p =>
    obtain ⟨p0, p1⟩ := p
    have hpipe : (r.next [.pipe]).Clean := clean_next hclean (by simp [Event.InBounds])
    simp only
    rcases (r.next [.pipe]).ask Answer.child with _ | k
    · exact clean_next hpipe (by simp [Event.InBounds])
    · cases k with
      | zero =>
        refine ⟨clean_next hpipe ?_, rfl, rfl, rfl⟩
        split_ifs <;> simp [Event.InBounds]
      | succ k =>
        refine ⟨clean_next hpipe ?_, rfl, rfl, rfl⟩
        split_ifs <;> simp [Event.InBounds]

/-! ### One turn -/

theorem cmdLoop_nil (h : Parsing m s l done args [] r) (hclean : r.Clean)
    (hfuel : l.length < fuel) :
    ∃ r', cmdLoop fuel (n + 1) r = runit fuel r' ∧ Parsing m s l done args [] r' ∧ r'.Clean := by
  obtain ⟨st, hget, hst⟩ := h.gettoken hfuel
  refine ⟨{ r with st := st }, ?_, ?_, hclean⟩
  · rw [cmdLoop, hget]
    rfl
  · have hmove : Parsing m s l (done ++ []) args [] { r with st := st } :=
      h.advance rfl hst rfl rfl
    rwa [List.append_nil] at hmove

theorem cmdLoop_word (h : Parsing m s l done args (.word a w :: ts) r) (hclean : r.Clean)
    (hfuel : l.length < fuel) :
    (args.length = MAXARGS →
      ∃ r', cmdLoop fuel (n + 1) r = some (.exited, r') ∧ r'.Clean) ∧
    (args.length ≠ MAXARGS →
      ∃ r', cmdLoop fuel (n + 1) r = cmdLoop fuel n r' ∧
        Parsing m s l (done ++ [.word a w]) (args ++ [.word a w]) ts r' ∧ r'.Clean ∧
        r'.world = r.world) := by
  obtain ⟨st, hget, hst⟩ := h.gettoken hfuel
  have hle := h.le
  constructor
  · intro hfull
    have hargc : r.argc = MAXARGS := h.argc.trans hfull
    refine ⟨{ r with st := st }.log [.message .tooMany], ?_, ?_⟩
    · rw [cmdLoop, hget]
      simp only [Option.bind_eq_bind, Option.bind_some, answer, List.head?_cons, Token.id, if_pos,
        hargc]
      rfl
    · exact Run.Clean.log (r := { r with st := st }) hclean (by simp [Event.InBounds])
  · intro hroom
    have hargc : r.argc ≠ MAXARGS := fun heq => hroom (h.argc.symm.trans heq)
    refine ⟨_, ?_, h.push hst hroom, ?_, rfl⟩
    · rw [cmdLoop, hget]
      simp only [Option.bind_eq_bind, Option.bind_some, answer, List.head?_cons, Token.id, if_pos,
        if_neg hargc]
      rfl
    · have hset : ({ r with st := st }.setArgv r.argc (.line a)).Clean :=
        clean_setArgv_iff.2 ⟨hclean, by rw [h.argc]; omega⟩
      exact hset

/-- The symbols that `runcmd` does not know. -/
theorem cmdLoop_other (h : Parsing m s l done args (.symbol a c :: ts) r) (hclean : r.Clean)
    (hfuel : l.length < fuel) (hredir : ¬ (c = 0x3C#8 ∨ c = 0x3E#8)) (hpipe : c ≠ 0x7C#8) :
    ∃ r', cmdLoop fuel (n + 1) r = some (.panicked c, r') ∧ r'.Clean := by
  obtain ⟨st, hget, hst⟩ := h.gettoken hfuel
  obtain ⟨hword, h0⟩ := h.symbol
  rw [not_or] at hredir
  refine ⟨{ r with st := st }, ?_, hclean⟩
  rw [cmdLoop, hget]
  simp only [Option.bind_eq_bind, Option.bind_some, answer, List.head?_cons, Token.id,
    if_neg hword, if_neg hredir.1, if_neg hredir.2, if_neg hpipe, if_neg h0]
  rfl

/-- The turn that reads a `<` or `>` goes on with `redirect`. -/
theorem cmdLoop_redirect (h : Parsing m s l done args (.symbol a c :: ts) r) (hclean : r.Clean)
    (hfuel : l.length < fuel) (hredir : c = 0x3C#8 ∨ c = 0x3E#8) :
    ∃ mode target bad failed r₁, Parsing m s l (done ++ [.symbol a c]) args ts r₁ ∧ r₁.Clean ∧
      r₁.world = r.world ∧
      cmdLoop fuel (n + 1) r = (redirect fuel mode target bad failed r₁).bind fun x =>
        match x with
        | .error out => some out
        | .ok r => cmdLoop fuel n r := by
  obtain ⟨st, hget, hst⟩ := h.gettoken hfuel
  have hmove : Parsing m s l (done ++ [.symbol a c]) args ts { r with st := st } :=
    h.advance rfl hst rfl rfl
  rcases hredir with rfl | rfl
  · refine ⟨O_RDONLY, 0, .syntaxIn, .noFile, { r with st := st }, hmove, hclean, rfl, ?_⟩
    rw [cmdLoop, hget]
    rfl
  · refine ⟨O_OUTPUT, 1, .syntaxOut, .openForWrite, { r with st := st }, hmove, hclean, rfl, ?_⟩
    rw [cmdLoop, hget]
    rfl

/-- The turn that reads a `|` goes on with `startPipe`. -/
theorem cmdLoop_pipe (h : Parsing m s l done args (.symbol a 0x7C#8 :: ts) r) (hclean : r.Clean)
    (hfuel : l.length < fuel) :
    ∃ r₁, Parsing m s l (done ++ [.symbol a 0x7C#8]) args ts r₁ ∧ r₁.Clean ∧ r₁.world = r.world ∧
      cmdLoop fuel (n + 1) r =
        match startPipe r₁ with
        | .failed r => some (.exited, r)
        | .child r => cmdLoop fuel n { r with argc := 0 }
        | .parent r => runit fuel r := by
  obtain ⟨st, hget, hst⟩ := h.gettoken hfuel
  refine ⟨{ r with st := st }, h.advance rfl hst rfl rfl, hclean, rfl, ?_⟩
  rw [cmdLoop, hget]
  rfl

/-! ### The whole loop -/

/-- If all commands that can be reached fit, every run stays in bounds. -/
theorem cmdLoop_sound (hfuel : l.length < fuel) (args ts : List Token) :
    ∀ {done r n}, Parsing m s l done args ts r → r.Clean →
      (∀ c ∈ commands args ts, CommandOk c) → ts.length < n →
      ∃ o r', cmdLoop fuel n r = some (o, r') ∧ r'.Clean := by
  induction args, ts using commands_induction with
  | nil args =>
    intro done r n h hclean hok hn
    obtain ⟨k, rfl⟩ : ∃ k, n = k + 1 := ⟨n - 1, by omega⟩
    obtain ⟨r₁, heq, h₁, hclean₁⟩ := cmdLoop_nil (n := k) h hclean hfuel
    obtain ⟨o, r', hrun, hiff⟩ := runit_spec h₁ hclean₁ hfuel
    exact ⟨o, r', heq.trans hrun, hiff.2 (hok args (by simp [commands]))⟩
  | full args a w ts hfull =>
    intro done r n h hclean hok hn
    obtain ⟨k, rfl⟩ : ∃ k, n = k + 1 := ⟨n - 1, by omega⟩
    obtain ⟨r', heq, hclean'⟩ := (cmdLoop_word (n := k) h hclean hfuel).1 hfull
    exact ⟨_, r', heq, hclean'⟩
  | word args a w ts hroom ih =>
    intro done r n h hclean hok hn
    obtain ⟨k, rfl⟩ : ∃ k, n = k + 1 := ⟨n - 1, by omega⟩
    obtain ⟨r₁, heq, h₁, hclean₁, -⟩ := (cmdLoop_word (n := k) h hclean hfuel).2 hroom
    rw [heq]
    refine ih h₁ hclean₁ (fun c hc => hok c ?_) (by simpa using hn)
    rwa [commands, if_neg hroom]
  | redirect args a c b w ts hredir ih =>
    intro done r n h hclean hok hn
    obtain ⟨k, rfl⟩ : ∃ k, n = k + 1 := ⟨n - 1, by omega⟩
    obtain ⟨mode, target, bad, failed, r₁, h₁, hclean₁, -, heq⟩ :=
      cmdLoop_redirect (n := k) h hclean hfuel hredir
    obtain ⟨hnone, hsome⟩ := redirect_word mode target bad failed h₁ hclean₁ hfuel
    rw [heq]
    cases hask : r₁.ask Answer.openFd with
    | none =>
      obtain ⟨r', hred, hclean'⟩ := hnone hask
      exact ⟨_, r', by rw [hred]; rfl, hclean'⟩
    | some fd =>
      obtain ⟨r', hred, h', hclean', -⟩ := hsome fd hask
      rw [hred]
      simp only [List.length_cons] at hn
      refine ih h' hclean' (fun c hc => hok c ?_) (by omega)
      rwa [commands, if_pos hredir]
  | stray args a c ts hredir hno =>
    intro done r n h hclean hok hn
    obtain ⟨k, rfl⟩ : ∃ k, n = k + 1 := ⟨n - 1, by omega⟩
    obtain ⟨mode, target, bad, failed, r₁, h₁, hclean₁, -, heq⟩ :=
      cmdLoop_redirect (n := k) h hclean hfuel hredir
    obtain ⟨r', hred, hclean'⟩ := redirect_other mode target bad failed h₁ hclean₁ hfuel hno
    exact ⟨_, r', by rw [heq, hred]; rfl, hclean'⟩
  | pipe args a ts ih =>
    intro done r n h hclean hok hn
    obtain ⟨k, rfl⟩ : ∃ k, n = k + 1 := ⟨n - 1, by omega⟩
    rw [commands_pipe] at hok
    obtain ⟨r₁, h₁, hclean₁, -, heq⟩ := cmdLoop_pipe (n := k) h hclean hfuel
    have hpipe := startPipe_clean hclean₁
    rw [heq]
    cases hstart : startPipe r₁ with
    | failed r' =>
      rw [hstart] at hpipe
      exact ⟨_, r', rfl, hpipe⟩
    | child r' =>
      rw [hstart] at hpipe
      obtain ⟨hclean', hst, hargv, hargc⟩ := hpipe
      have h' := (h₁.of_same hst hargc hargv).again
      exact ih h' hclean' (fun c hc => hok c (List.mem_cons_of_mem _ hc)) (by simpa using hn)
    | parent r' =>
      rw [hstart] at hpipe
      obtain ⟨hclean', hst, hargv, hargc⟩ := hpipe
      have h' := h₁.of_same hst hargc hargv
      obtain ⟨o, r'', hrun, hiff⟩ := runit_spec h' hclean' hfuel
      exact ⟨o, r'', hrun, hiff.2 (hok args List.mem_cons_self)⟩
  | other args a c ts hredir hpipe =>
    intro done r n h hclean hok hn
    obtain ⟨k, rfl⟩ : ∃ k, n = k + 1 := ⟨n - 1, by omega⟩
    obtain ⟨r', heq, hclean'⟩ := cmdLoop_other (n := k) h hclean hfuel hredir hpipe
    exact ⟨_, r', heq, hclean'⟩

/-- The system can answer so that a given one of the commands is reached. -/
theorem cmdLoop_reaches (hfuel : l.length < fuel) (c : List Token) (args ts : List Token) :
    c ∈ commands args ts → ∃ world, ∀ {done r n}, Parsing m s l done args ts r → r.Clean →
      r.world = world → ts.length < n →
      ∃ o r', cmdLoop fuel n r = some (o, r') ∧ (r'.Clean ↔ CommandOk c) := by
  induction args, ts using commands_induction with
  | nil args =>
    intro hc
    obtain rfl : c = args := by simpa [commands] using hc
    refine ⟨[], fun {done r n} h hclean hworld hn => ?_⟩
    obtain ⟨k, rfl⟩ : ∃ k, n = k + 1 := ⟨n - 1, by omega⟩
    obtain ⟨r₁, heq, h₁, hclean₁⟩ := cmdLoop_nil (n := k) h hclean hfuel
    obtain ⟨o, r', hrun, hiff⟩ := runit_spec h₁ hclean₁ hfuel
    exact ⟨o, r', heq.trans hrun, hiff⟩
  | full args a w ts hfull =>
    intro hc
    rw [commands, if_pos hfull] at hc
    cases hc
  | word args a w ts hroom ih =>
    intro hc
    rw [commands, if_neg hroom] at hc
    obtain ⟨world, hreach⟩ := ih hc
    refine ⟨world, fun {done r n} h hclean hworld hn => ?_⟩
    obtain ⟨k, rfl⟩ : ∃ k, n = k + 1 := ⟨n - 1, by omega⟩
    obtain ⟨r₁, heq, h₁, hclean₁, hw⟩ := (cmdLoop_word (n := k) h hclean hfuel).2 hroom
    rw [heq]
    exact hreach h₁ hclean₁ (hw.trans hworld) (by simpa using hn)
  | redirect args a d b w ts hredir ih =>
    intro hc
    rw [commands, if_pos hredir] at hc
    obtain ⟨world, hreach⟩ := ih hc
    -- the file can be opened
    refine ⟨⟨some 0, none, none⟩ :: world, fun {done r n} h hclean hworld hn => ?_⟩
    obtain ⟨k, rfl⟩ : ∃ k, n = k + 1 := ⟨n - 1, by omega⟩
    obtain ⟨mode, target, bad, failed, r₁, h₁, hclean₁, hw₁, heq⟩ :=
      cmdLoop_redirect (n := k) h hclean hfuel hredir
    have hask : r₁.ask Answer.openFd = some 0 := by rw [Run.ask, hw₁, hworld]; rfl
    obtain ⟨r', hred, h', hclean', hw'⟩ :=
      (redirect_word mode target bad failed h₁ hclean₁ hfuel).2 0 hask
    rw [heq, hred]
    simp only [List.length_cons] at hn
    exact hreach h' hclean' (by rw [hw', hw₁, hworld]; rfl) (by omega)
  | stray args a d ts hredir hno =>
    intro hc
    rw [commands, if_pos hredir] at hc
    · cases hc
    · exact hno
  | pipe args a ts ih =>
    intro hc
    rw [commands_pipe] at hc
    rcases List.mem_cons.1 hc with rfl | hc
    · -- the command in front of the `|`: the parent runs it
      refine ⟨[⟨none, some (0, 1), none⟩, ⟨none, none, some 1⟩],
        fun {done r n} h hclean hworld hn => ?_⟩
      obtain ⟨k, rfl⟩ : ∃ k, n = k + 1 := ⟨n - 1, by omega⟩
      obtain ⟨r₁, h₁, hclean₁, hw₁, heq⟩ := cmdLoop_pipe (n := k) h hclean hfuel
      have hpipe := startPipe_clean hclean₁
      rw [hworld] at hw₁
      obtain ⟨r', hstart⟩ : ∃ r', startPipe r₁ = .parent r' := by
        simp only [startPipe, Run.ask, Run.next, hw₁]
        exact ⟨_, rfl⟩
      rw [hstart] at hpipe
      obtain ⟨hclean', hst, hargv, hargc⟩ := hpipe
      rw [heq, hstart]
      have h' := h₁.of_same hst hargc hargv
      exact runit_spec h' hclean' hfuel
    · -- a later one: the child goes on
      obtain ⟨world, hreach⟩ := ih hc
      refine ⟨⟨none, some (0, 1), none⟩ :: ⟨none, none, some 0⟩ :: world,
        fun {done r n} h hclean hworld hn => ?_⟩
      obtain ⟨k, rfl⟩ : ∃ k, n = k + 1 := ⟨n - 1, by omega⟩
      obtain ⟨r₁, h₁, hclean₁, hw₁, heq⟩ := cmdLoop_pipe (n := k) h hclean hfuel
      have hpipe := startPipe_clean hclean₁
      rw [hworld] at hw₁
      obtain ⟨r', hstart, hw'⟩ : ∃ r', startPipe r₁ = .child r' ∧ r'.world = world := by
        simp only [startPipe, Run.ask, Run.next, hw₁]
        exact ⟨_, rfl, rfl⟩
      rw [hstart] at hpipe
      obtain ⟨hclean', hst, hargv, hargc⟩ := hpipe
      rw [heq, hstart]
      have h' := (h₁.of_same hst hargc hargv).again
      exact hreach h' hclean' hw' (by simpa using hn)
  | other args a d ts hredir hpipe =>
    intro hc
    rw [commands_other hredir hpipe] at hc
    cases hc

/-- The start of `runcmd`. -/
theorem runcmd_eq (argv : ℕ → Arg) (h : Text st.mem s l) (hfuel : l.length < fuel) :
    ∃ st₀, ∀ world,
      runcmd fuel s st argv world = cmdLoop fuel fuel ⟨st₀, 0, argv, 0, world, []⟩ ∧
      Parsing st.mem s l [] [] (tokens s l) ⟨st₀, 0, argv, 0, world, []⟩ := by
  obtain ⟨st₀, hinit, hst₀⟩ := gettokenInit_ahead h hfuel
  refine ⟨st₀, fun world => ⟨?_, h, hst₀, rfl, rfl, by simp, by simp, by simp, Nat.zero_le _⟩⟩
  rw [runcmd, hinit]
  rfl

/-- A command that does not fit is a store out of bounds in some run. -/
theorem runcmd_overruns {c : List Token} (argv : ℕ → Arg) (h : Text st.mem s l)
    (hfuel : l.length < fuel) (hc : c ∈ commands [] (tokens s l)) (hbad : ¬ CommandOk c) :
    ∃ world o r', runcmd fuel s st argv world = some (o, r') ∧ ¬ r'.Clean := by
  obtain ⟨st₀, hrun⟩ := runcmd_eq argv h hfuel
  obtain ⟨world, hreach⟩ := cmdLoop_reaches (m := st.mem) (s := s) hfuel c _ _ hc
  obtain ⟨heq, hpars⟩ := hrun world
  obtain ⟨o, r', hloop, hiff⟩ := hreach hpars (by simp [Run.Clean]) rfl
    ((length_tokens_le s l).trans_lt hfuel)
  exact ⟨world, o, r', heq.trans hloop, fun hclean => hbad (hiff.1 hclean)⟩

end Parsing

/-- **Bounds.**  Whatever the system answers, `runcmd` stores within `argv` and `argv0buf`
exactly if every command of the line that can be reached fits. -/
theorem runcmd_inBounds_iff {fuel s : ℕ} {l : List Byte} {st : Statics} {argv : ℕ → Arg}
    (h : Text st.mem s l) (hfuel : l.length < fuel) :
    (∀ world, ∃ o r', runcmd fuel s st argv world = some (o, r') ∧ ∀ e ∈ r'.trace, e.InBounds) ↔
      ∀ c ∈ commands [] (tokens s l), CommandOk c := by
  constructor
  · intro hall c hc
    by_contra hbad
    obtain ⟨world, o, r', hrun, hclean⟩ := runcmd_overruns argv h hfuel hc hbad
    obtain ⟨o₁, r₁, hrun₁, hclean₁⟩ := hall world
    rw [hrun] at hrun₁
    cases hrun₁
    exact hclean hclean₁
  · intro hok world
    obtain ⟨st₀, hrun⟩ := runcmd_eq argv h hfuel
    obtain ⟨heq, hpars⟩ := hrun world
    rw [heq]
    exact cmdLoop_sound hfuel _ _ hpars (by simp [Run.Clean]) hok
      ((length_tokens_le s l).trans_lt hfuel)

theorem runcmd_inBounds_iff_pipeLine :
    Text pipeLine.mem 16 [0x61#8, 0x7C#8] ∧
      ((∀ world, ∃ o r', runcmd 3 16 pipeLine (fun _ => .null) world = some (o, r') ∧
        ∀ e ∈ r'.trace, e.InBounds) ↔
      ∀ c ∈ commands [] (tokens 16 [0x61#8, 0x7C#8]), CommandOk c) :=
  ⟨text_pipeLine, runcmd_inBounds_iff text_pipeLine (by decide)⟩

/-- `a` sixteen times, with blanks between. -/
def sixteenWords : List Byte := (List.replicate 16 [0x61#8, 0x20#8]).flatten

/-- A name as long as a line can be. -/
def longWord : List Byte := List.replicate 1023 0x61#8

theorem commands_longWord : commands [] (tokens 16 longWord) = [[.word 16 longWord]] := by
  have hw : ∀ c ∈ longWord, isWordChar c = true := by
    intro c hc
    rw [List.eq_of_mem_replicate hc]
    rfl
  have hne : longWord ≠ [] := by
    rw [longWord, List.replicate_succ]
    exact List.cons_ne_nil _ _
  have htok := tokens_word (a := 16) (r := []) hne hw (by simp [Ends])
  rw [List.append_nil] at htok
  rw [htok]
  rfl

/-- Two lines that `readline` can return: one with sixteen words, which makes `runcmd` store
`argv[16]`, and one with a name of 1023 characters, which makes it store `argv0buf[1024]`. -/
theorem runcmd_overruns_lines :
    (Readline.Returned sixteenWords ∧ ∃ world o r',
      runcmd 33 16 ⟨0#8, 0#8, none, none, lineAt 16 sixteenWords⟩ (fun _ => .null) world =
        some (o, r') ∧ ¬ ∀ e ∈ r'.trace, e.InBounds) ∧
    Readline.Returned longWord ∧ ∃ world o r',
      runcmd 1024 16 ⟨0#8, 0#8, none, none, lineAt 16 longWord⟩ (fun _ => .null) world =
        some (o, r') ∧ ¬ ∀ e ∈ r'.trace, e.InBounds := by
  have hprint : ∀ x ∈ longWord, ¬ Readline.IsControl x := by
    intro x hx
    rw [List.eq_of_mem_replicate hx, Readline.IsControl]
    decide
  have hlen : longWord.length = 1023 := List.length_replicate
  refine ⟨⟨Readline.returned_of_printable (by decide) (by unfold Readline.IsControl; decide), ?_⟩,
    Readline.returned_of_printable hlen.le hprint, ?_⟩
  · have hcmd : commands [] (tokens 16 sixteenWords) =
        [tokens 16 sixteenWords] := by decide
    exact runcmd_overruns _ (text_lineAt (by decide) 16) (by decide)
      (by rw [hcmd]; exact List.mem_singleton_self _) (fun hok => hok.1 (by decide))
  · refine runcmd_overruns _ (text_lineAt (fun h0 => hprint _ h0 (.inl (by decide))) 16)
      (by rw [hlen]; decide) (by rw [commands_longWord]; exact List.mem_singleton_self _)
      fun hok => ?_
    rcases hok.2 (.word 16 longWord) rfl with hslash | hshort
    · exact absurd hslash (by decide)
    · have : longWord.length < 1023 := hshort
      omega

end Jos.Sh
