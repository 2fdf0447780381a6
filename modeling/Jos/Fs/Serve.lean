import Jos.Fs.OpenFile
import Jos.Lib.Lts
import Jos.User.Mail

/-!
# The file server and its clients

The loop of `serve` in `fs/serv.c`, and `fsipc` of `lib/file.c`, through which clients call
it.  A client sends its request, then waits for a message, and takes the first that comes
for the reply.  The server takes one request after the other, and tries to send its reply
until the client takes it; `ipc_send` panics if that fails for any other reason than that the
client does not wait.

* `Sys`, `Step` — the server, clients in `fsipc`, and environments that send and receive
  messages as they like; environments come and go.
* `send_ok` — what a message that gets through does.
-/

namespace Jos.Serve

open Function (update update_eq_self update_of_ne update_self)

open User Fs

/-! ## The system -/

/-- The address at which the server takes requests. -/
def FSREQ : Word := 0x0ffff000#32

/-- Where the server is in `serve`. -/
inductive Pc
  | recv
  | waiting
  /-- in `ipc_send(whom, r, pg, perm)`; `req` is the number of the request, if it is one of
  `fsipc` -/
  | reply (whom r : Word) (pg : Option ℕ) (req : Option ℕ)
  | unmap
  | panicked

/-- What an environment is doing. -/
inductive Prog
  /-- there is no such environment -/
  | none
  /-- code of its own -/
  | code
  /-- `fsipc`, call number `n`: in `ipc_send`, before `ipc_recv`, and in it -/
  | sending (n : ℕ) (dstva : Word)
  | sent (n : ℕ) (dstva : Word)
  | waiting (n : ℕ)
  /-- `fsipc` has returned -/
  | returned (n : ℕ) (value : Word) (page : Option ℕ)
  /-- in a `sys_ipc_recv` of its own -/
  | listening
  /-- it will make no more system calls, or has called `panic` -/
  | stopped

/-- More about the last message an environment got. -/
structure Mail where
  /-- the page that came with it -/
  page : Option ℕ
  /-- the call of `fsipc` it comes from -/
  req : Option ℕ

/-- The environments. -/
structure Sys where
  box : Boxes
  mail : EnvIdx → Mail
  prog : EnvIdx → Prog
  pc : Pc
  /-- is a page mapped at `fsreq`? -/
  fsreq : Bool
  tab : Opentab
  /-- calls of `fsipc` so far -/
  next : ℕ
  /-- what the server has answered to them -/
  answers : ℕ → Option (Word × Option ℕ)

variable (srv : EnvIdx)

namespace Sys

def goto (s : Sys) (c : EnvIdx) (p : Prog) : Sys := { s with prog := update s.prog c p }

def setBox (s : Sys) (c : EnvIdx) (b : Box) : Sys := { s with box := update s.box c b }

def setPc (s : Sys) (pc : Pc) : Sys := { s with pc := pc }

section Local

variable {s : Sys} {c x : EnvIdx} {b : Box} {p : Prog}

theorem setBox_box : s.setBox c (s.box c) = s := by rw [setBox, update_eq_self]

theorem box_self : ((s.setBox c b).goto c p).box c = b := update_self ..

theorem box_of_ne (h : x ≠ c) : ((s.setBox c b).goto c p).box x = s.box x := update_of_ne h _ _

theorem prog_self : ((s.setBox c b).goto c p).prog c = p := update_self ..

theorem prog_of_ne (h : x ≠ c) : ((s.setBox c b).goto c p).prog x = s.prog x := update_of_ne h _ _

end Local

/-- A message gets through to `e`, with `page` if one is mapped. -/
def deliver (s : Sys) (e : EnvIdx) (b : Boxes) (mapped : Bool) (page req : Option ℕ) : Sys :=
  { s with
    box := b
    mail := update s.mail e ⟨if mapped then page else none, req⟩
    fsreq := s.fsreq || (decide (e = srv) && mapped) }

/-- `sys_ipc_try_send(envid, value, …)` by `c`; the page is number `pg`. -/
def send (s : Sys) (c : EnvIdx) (envid value : Word) (page : Attached) (pg req : Option ℕ) :
    Except Errno Sys :=
  match trySend s.box (s.box c).id envid value page with
  | .error r => .error r
  | .ok b =>
    .ok (s.deliver srv (envx envid) b (transferred (s.box (envx envid)) page).isSome pg req)

/-- A request is in the server's box. -/
def HasRequest (s : Sys) : Prop := s.pc = .waiting ∧ (s.box srv).recving = false

/-- The server has a request of the environment with this id, and has not answered. -/
def Owes (s : Sys) (id : Word) : Prop :=
  (s.HasRequest srv ∧ (s.box srv).sender = id) ∨ ∃ r pg req, s.pc = .reply id r pg req

/-- A page goes to the environment `envid` only if that waits for it below `UTOP`.  The kernel
would map it anywhere: `ipc_recv` without a page waits at `UTOP`, where `UENVS` begins, in a table
that all environments share. -/
def Below (s : Sys) (envid : Word) (page : Attached) : Prop :=
  page ≠ none → (s.box (envx envid)).dstva < UTOP

/-- Before the first request. -/
structure Start (s : Sys) : Prop where
  live : (s.box srv).live = true
  pc : s.pc = .recv
  prog : ∀ c, c ≠ srv → ((s.box c).live = true → s.prog c = .code) ∧
    ((s.box c).live = false → s.prog c = .none)
  ident : ∀ c, (s.box c).live = true → envx (s.box c).id = c ∧ (s.box c).id ≠ 0#32
  recving : ∀ c, (s.box c).recving = false
  next : s.next = 0
  answers : ∀ n, s.answers n = none

end Sys

/-- What happens. -/
inductive Event
  | create (c : EnvIdx) (id : Word)
  | destroy (c : EnvIdx)
  | stop (c : EnvIdx)
  /-- `fsipc` -/
  | call (c : EnvIdx) (dstva : Word)
  | request (c : EnvIdx) (type : Word) (page : Attached)
  | receive (c : EnvIdx)
  | wake (c : EnvIdx)
  | back (c : EnvIdx)
  /-- messages of other code -/
  | send (c : EnvIdx) (envid value : Word) (page : Attached)
  | listen (c : EnvIdx) (dstva : Word)
  | heard (c : EnvIdx)
  /-- the server -/
  | recv
  | ignore
  | handle
  | fault
  | reply (page : Attached)
  | unmap

/-- One step.  A system call that fails and changes nothing is no step of its own. -/
inductive Step (s : Sys) : Event → Sys → Prop
  | create {c : EnvIdx} {id : Word} : s.prog c = .none → c ≠ srv → envx id = c → id ≠ 0#32 →
      Step s (.create c id)
        ((s.setBox c { s.box c with live := true, id := id, recving := false }).goto c .code)
  | destroy {c : EnvIdx} : s.prog c ≠ .none → c ≠ srv →
      Step s (.destroy c) ((s.setBox c { s.box c with live := false }).goto c .none)
  | stop {c : EnvIdx} : c ≠ srv → s.prog c ≠ .none → s.prog c ≠ .listening →
      (∀ n, s.prog c ≠ .waiting n) → Step s (.stop c) (s.goto c .stopped)
  | call {c : EnvIdx} {dstva : Word} : s.prog c = .code → c ≠ srv → pgoff dstva = 0#32 →
      Step s (.call c dstva) ({ s with next := s.next + 1 }.goto c (.sending s.next dstva))
  | request {c : EnvIdx} {n : ℕ} {dstva type : Word} {pg : ℕ} {s' : Sys} :
      s.prog c = .sending n dstva → c ≠ srv →
      s.send srv c (s.box srv).id type (some (.ok 7#32)) (some pg) (some n) = .ok s' →
      Step s (.request c type (some (.ok 7#32))) (s'.goto c (.sent n dstva))
  | requestFail {c : EnvIdx} {n : ℕ} {dstva type : Word} {page : Attached} {r : Errno} :
      s.prog c = .sending n dstva → c ≠ srv →
      s.send srv c (s.box srv).id type page none (some n) = .error r → r ≠ .ipcNotRecv →
      Step s (.request c type page) (s.goto c .stopped)
  | receive {c : EnvIdx} {n : ℕ} {d : Word} : s.prog c = .sent n d → c ≠ srv →
      Step s (.receive c)
        ((s.setBox c ((s.box c).listen (if d = 0#32 then UTOP else d))).goto c (.waiting n))
  | wake {c : EnvIdx} {n : ℕ} : s.prog c = .waiting n → c ≠ srv → (s.box c).recving = false →
      Step s (.wake c) (s.goto c (.returned n (s.box c).value (s.mail c).page))
  | back {c : EnvIdx} {n : ℕ} {value : Word} {page : Option ℕ} :
      s.prog c = .returned n value page → c ≠ srv → Step s (.back c) (s.goto c .code)
  | send {c : EnvIdx} {envid value : Word} {page : Attached} {pg : Option ℕ} {s' : Sys} :
      s.prog c = .code → c ≠ srv → (∀ p, page = some (.ok p) → serveAccepts p = true) →
      s.send srv c envid value page pg none = .ok s' → Step s (.send c envid value page) s'
  | listen {c : EnvIdx} {dstva : Word} : s.prog c = .code → c ≠ srv →
      Step s (.listen c dstva) ((s.setBox c ((s.box c).listen dstva)).goto c .listening)
  | heard {c : EnvIdx} : s.prog c = .listening → c ≠ srv → (s.box c).recving = false →
      Step s (.heard c) (s.goto c .code)
  | recv : s.pc = .recv → Step s .recv ((s.setBox srv ((s.box srv).listen FSREQ)).setPc .waiting)
  | ignore : s.HasRequest srv → serveAccepts (s.box srv).perm = false →
      Step s .ignore (s.setPc .recv)
  -- whatever the handler answers, and does to the table
  | handle {r : Word} {pg : Option ℕ} {tab : Opentab} : s.HasRequest srv →
      serveAccepts (s.box srv).perm = true →
      Step s .handle
        { s with
          pc := .reply (s.box srv).sender r pg (s.mail srv).req
          tab := tab
          answers := match (s.mail srv).req with
            | none => s.answers
            | some n => update s.answers n (some (r, pg)) }
  -- a handler that reads its argument where no page is mapped
  | fault : s.HasRequest srv → serveAccepts (s.box srv).perm = true → s.fsreq = false →
      Step s .fault (s.setPc .panicked)
  | reply {whom r : Word} {pg req : Option ℕ} {page : Attached} {s' : Sys} :
      s.pc = .reply whom r pg req → (page = none ↔ pg = none) →
      s.send srv srv whom r page pg none = .ok s' → Step s (.reply page) (s'.setPc .unmap)
  | replyFail {whom r : Word} {pg req : Option ℕ} {page : Attached} {e : Errno} :
      s.pc = .reply whom r pg req → (page = none ↔ pg = none) →
      s.send srv srv whom r page pg none = .error e → e ≠ .ipcNotRecv →
      Step s (.reply page) (s.setPc .panicked)
  | unmap : s.pc = .unmap → Step s .unmap { s with pc := .recv, fsreq := false }

/-! ## What a message does -/

variable {srv} {s s' : Sys} {c e : EnvIdx} {envid value : Word} {page : Attached}
  {pg req : Option ℕ}

/-- The state after a message has reached `e`. -/
def Sys.delivered (srv : EnvIdx) (s : Sys) (c e : EnvIdx) (value : Word) (page : Attached)
    (pg req : Option ℕ) : Sys :=
  s.deliver srv e (update s.box e
    ((s.box e).deliver (s.box c).id value (transferred (s.box e) page)))
    (transferred (s.box e) page).isSome pg req

theorem send_ok (h : s.send srv c envid value page pg req = .ok s') :
    ∃ e, (s.box e).live = true ∧ (s.box e).id = envid ∧ e = envx envid ∧ (s.box e).Receiving ∧
      (∀ r, page ≠ some (.error r)) ∧ s' = s.delivered srv c e value page pg req := by
  unfold Sys.send at h
  split at h
  · cases h
  · next b hb =>
    obtain ⟨hlive, hid, hrecv, hpage, rfl⟩ := trySend_ok.1 hb
    cases h
    exact ⟨envx envid, hlive, hid, rfl, hrecv, hpage, rfl⟩

theorem send_eq (hlive : (s.box (envx envid)).live = true) (hid : (s.box (envx envid)).id = envid)
    (hrecv : (s.box (envx envid)).Receiving) (hpage : ∀ r, page ≠ some (.error r)) :
    s.send srv c envid value page pg req =
      .ok (s.delivered srv c (envx envid) value page pg req) := by
  unfold Sys.send
  rw [trySend_ok.2 ⟨hlive, hid, hrecv, hpage, rfl⟩]
  rfl

theorem delivered_box_self :
    (s.delivered srv c e value page pg req).box e =
      (s.box e).deliver (s.box c).id value (transferred (s.box e) page) :=
  update_self ..

theorem delivered_box_of_ne {x : EnvIdx} (h : x ≠ e) :
    (s.delivered srv c e value page pg req).box x = s.box x :=
  update_of_ne h _ _

theorem delivered_mail_self :
    (s.delivered srv c e value page pg req).mail e =
      ⟨if (transferred (s.box e) page).isSome then pg else none, req⟩ :=
  update_self ..

theorem delivered_mail_of_ne {x : EnvIdx} (h : x ≠ e) :
    (s.delivered srv c e value page pg req).mail x = s.mail x :=
  update_of_ne h _ _

/-! ## The first request -/

/-- The server, a client and a third environment. -/
def fs : EnvIdx := 0
def client : EnvIdx := 1
def third : EnvIdx := 2

/-- Three environments, before anything has been sent. -/
def quiet : Sys where
  box := fun e =>
    ⟨decide (e.val < 3), BitVec.ofNat 32 (4096 + e.val), false, 0#32, 0#32, 0#32, 0#32⟩
  mail := fun _ => ⟨none, none⟩
  prog := fun e => if e.val < 3 then .code else .none
  pc := .recv
  fsreq := false
  tab := serveInit opentab
  next := 0
  answers := fun _ => none

theorem quiet_start : quiet.Start fs where
  live := rfl
  pc := rfl
  prog := by
    intro c _
    refine ⟨fun hlive => if_pos (of_decide_eq_true hlive), fun hdead => if_neg ?_⟩
    exact of_decide_eq_false hdead
  ident := by
    intro c _
    have hc := c.isLt
    have hval : (BitVec.ofNat 32 (4096 + c.val)).toNat = 4096 + c.val := by
      rw [BitVec.toNat_ofNat]
      omega
    refine ⟨Fin.ext ?_, fun h0 => ?_⟩
    · show (BitVec.ofNat 32 (4096 + c.val)).toNat % 1024 = c.val
      omega
    · have : (BitVec.ofNat 32 (4096 + c.val)).toNat = 0 := congrArg BitVec.toNat h0
      omega
  recving := fun _ => rfl
  next := rfl
  answers := fun _ => rfl

/-- The server waits for a request. -/
def ready : Sys := (quiet.setBox fs ((quiet.box fs).listen FSREQ)).setPc .waiting

/-- The client calls `fsipc`. -/
def calling : Sys := { ready with next := 1 }.goto client (.sending 0 0#32)

/-- It has sent its request. -/
def asked : Sys :=
  (calling.delivered fs client fs 2#32 (some (.ok 7#32)) (some 0) (some 0)).goto client
    (.sent 0 0#32)

theorem run_asked {C : Sys → Event → Prop} (hrecv : C quiet .recv)
    (hcall : C ready (.call client 0#32))
    (hreq : C calling (.request client 2#32 (some (.ok 7#32)))) :
    Lts.Run (Step fs) C quiet asked := by
  have h₁ : Lts.Run (Step fs) C quiet ready := Lts.Run.nil.snoc hrecv (Step.recv rfl)
  have h₂ : Lts.Run (Step fs) C quiet calling :=
    h₁.snoc hcall (Step.call rfl (by decide) (by decide))
  have hsend : calling.send fs client (calling.box fs).id 2#32 (some (.ok 7#32)) (some 0) (some 0)
      = .ok (calling.delivered fs client fs 2#32 (some (.ok 7#32)) (some 0) (some 0)) :=
    send_eq rfl rfl ⟨rfl, rfl⟩ (by simp)
  exact h₂.snoc hreq (Step.request rfl (by decide) hsend)

end Jos.Serve
