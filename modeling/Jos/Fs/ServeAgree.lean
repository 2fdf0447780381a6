import Jos.Fs.Serve

/-!
# Requests and replies

`fsipc` takes the first message that arrives for the reply.  The server answers one request
at a time, so that there is only one client that can be past its `ipc_send` and without an
answer; what else could arrive there is a message of a third environment.

* `Inv` — where each client is, seen together with what the server has in hand.
* `agrees` — the value and the page `fsipc` returns are the server's answer to this request.
* `third_party` — they are not if a third environment sends at the right moment.
-/

namespace Jos.Serve

open Function (update update_idem update_of_ne update_self)

open User Fs

variable (srv : EnvIdx)

/-- `fsipc` returns the server's answer to its own request. -/
def Agrees (s : Sys) : Prop :=
  ∀ c n value page, c ≠ srv → s.prog c = .returned n value page → s.answers n = some (value, page)

/-- Nobody but the server sends to an environment that waits in `fsipc`, and nobody sends a page
to one that waits at `UTOP` or above. -/
def Sys.Undisturbed (s : Sys) : Event → Prop
  | .send _ envid _ page => (∀ n, s.prog (envx envid) ≠ .waiting n) ∧ s.Below envid page
  | .reply page => ∀ whom r pg req, s.pc = .reply whom r pg req → s.Below whom page
  | _ => True

variable {srv} {s s' : Sys} {c e : EnvIdx} {value : Word} {page : Attached} {pg req : Option ℕ}

/-! ## The invariant -/

/-- What of the server and of past requests matters to a client. -/
structure View where
  pc : Pc
  box : Box
  req : Option ℕ
  answers : ℕ → Option (Word × Option ℕ)
  next : ℕ

variable (srv) in
def Sys.view (s : Sys) : View := ⟨s.pc, s.box srv, (s.mail srv).req, s.answers, s.next⟩

namespace View

/-- Request `n` is in the server's box. -/
def InBox (v : View) (n : ℕ) : Prop :=
  v.pc = .waiting ∧ v.box.recving = false ∧ v.req = some n

/-- The server has request `n` of `id` in hand, or is dead. -/
def Pending (v : View) (n : ℕ) (id : Word) : Prop :=
  (v.InBox n ∧ serveAccepts v.box.perm = true ∧ v.box.sender = id) ∨
    (∃ r pg, v.pc = .reply id r pg (some n) ∧ v.answers n = some (r, pg)) ∨ v.pc = .panicked

/-- Where an environment can be, given what the server does. -/
def Ok (v : View) (b : Box) (m : Mail) : Prog → Prop
  | .code => b.recving = false
  | .sending n _ => b.recving = false ∧ n < v.next ∧ v.answers n = none ∧ ¬ v.InBox n
  | .sent n _ => b.recving = false ∧ v.Pending n b.id
  | .waiting n => b.dstva ≠ 0#32 ∧ (b.recving = true → v.Pending n b.id) ∧
      (b.recving = false → v.answers n = some (b.value, m.page))
  | .returned n value page => b.recving = false ∧ v.answers n = some (value, page)
  | _ => True

/-- An environment that has sent request `n` has no answer yet. -/
def Waits (b : Box) (p : Prog) (n : ℕ) : Prop :=
  (∃ d, p = .sent n d) ∨ p = .waiting n ∧ b.recving = true

/-- The server moves on, and an environment is where it was. -/
theorem Ok.mono {v v' : View} {b : Box} {m : Mail} {p : Prog} (h : v.Ok b m p)
    (hpend : ∀ n, Waits b p n → v.Pending n b.id → v'.Pending n b.id)
    (hans : ∀ n x, v.answers n = some x → v'.answers n = some x)
    (hnew : ∀ n d, p = .sending n d → n < v.next → v.answers n = none → ¬ v.InBox n →
      n < v'.next ∧ v'.answers n = none ∧ ¬ v'.InBox n) : v'.Ok b m p := by
  cases p with
  | sending n d => exact ⟨h.1, hnew n d rfl h.2.1 h.2.2.1 h.2.2.2⟩
  | sent n d => exact ⟨h.1, hpend n (.inl ⟨d, rfl⟩) h.2⟩
  | waiting n =>
    exact ⟨h.1, fun hr => hpend n (.inr ⟨rfl, hr⟩) (h.2.1 hr), fun hr => hans n _ (h.2.2 hr)⟩
  | returned n value page => exact ⟨h.1, hans n _ h.2⟩
  | code => exact h
  | none => trivial
  | listening => trivial
  | stopped => trivial

theorem not_pending_of_recving {v : View} {n : ℕ} {id : Word} (hpc : v.pc = .waiting)
    (hrecv : v.box.recving = true) : ¬ v.Pending n id := by
  rintro (⟨⟨-, h, -⟩, -⟩ | ⟨r, pg, h, -⟩ | h)
  · exact Bool.false_ne_true (h.symm.trans hrecv)
  · rw [hpc] at h
    cases h
  · rw [hpc] at h
    cases h

end View

variable (srv) in
/-- The invariant. -/
structure Inv (s : Sys) : Prop where
  ok : ∀ x, x ≠ srv → (s.view srv).Ok (s.box x) (s.mail x) (s.prog x)
  ident : ∀ x, x ≠ srv → s.prog x ≠ .none → envx (s.box x).id = x
  /-- calls have different numbers -/
  uniq : ∀ x x' n d d', x ≠ srv → x' ≠ srv → s.prog x = .sending n d →
    s.prog x' = .sending n d' → x = x'
  inbox : ∀ n, (s.view srv).InBox n → s.answers n = none ∧ n < s.next
  ans : ∀ n, s.answers n ≠ none → n < s.next
  srvRecv : (s.box srv).recving = true → s.pc = .waiting ∧ (s.box srv).dstva = FSREQ
  srvId : envx (s.box srv).id = srv

namespace Inv

theorem of_start (h : s.Start srv) : Inv srv s := by
  have hprog : ∀ x, x ≠ srv → s.prog x = .code ∨ s.prog x = .none := by
    intro x hx
    cases hlive : (s.box x).live with
    | true => exact .inl ((h.prog x hx).1 hlive)
    | false => exact .inr ((h.prog x hx).2 hlive)
  refine ⟨?_, ?_, ?_, ?_, ?_, ?_, (h.ident srv h.live).1⟩
  · intro x hx
    rcases hprog x hx with hp | hp <;> rw [hp]
    · exact h.recving x
    · trivial
  · intro x hx hp
    refine (h.ident x ?_).1
    by_contra hdead
    exact hp ((h.prog x hx).2 (by simpa using hdead))
  · intro x x' n d d' hxs _ hx
    rcases hprog x hxs with hp | hp <;> rw [hp] at hx <;> cases hx
  · rintro n ⟨hpc, -⟩
    have : s.pc = .waiting := hpc
    rw [h.pc] at this
    cases this
  · intro n hn
    exact absurd (h.answers n) hn
  · intro hrecv
    rw [h.recving] at hrecv
    cases hrecv

/-- A step of `c` on its own. -/
theorem local_step (h : Inv srv s) (hc : c ≠ srv) {b : Box} {p : Prog}
    (hok : (s.view srv).Ok b (s.mail c) p) (hid : p ≠ .none → envx b.id = c)
    (hsend : ∀ n d, p ≠ .sending n d) : Inv srv ((s.setBox c b).goto c p) := by
  have hsrv : ((s.setBox c b).goto c p).box srv = s.box srv := Sys.box_of_ne hc.symm
  have hview : ((s.setBox c b).goto c p).view srv = s.view srv := by
    unfold Sys.view
    rw [hsrv]
    rfl
  refine ⟨?_, ?_, ?_, ?_, h.ans, ?_, ?_⟩
  · intro x hx
    rw [hview]
    by_cases hxc : x = c
    · subst hxc
      rw [Sys.box_self, Sys.prog_self]
      exact hok
    · rw [Sys.box_of_ne hxc, Sys.prog_of_ne hxc]
      exact h.ok x hx
  · intro x hx
    by_cases hxc : x = c
    · subst hxc
      rw [Sys.box_self, Sys.prog_self]
      exact hid
    · rw [Sys.box_of_ne hxc, Sys.prog_of_ne hxc]
      exact h.ident x hx
  · intro x x' n d d' hxs hxs' hx hx'
    by_cases hxc : x = c
    · subst hxc
      exact absurd (Sys.prog_self.symm.trans hx) (hsend n d)
    by_cases hxc' : x' = c
    · subst hxc'
      exact absurd (Sys.prog_self.symm.trans hx') (hsend n d')
    rw [Sys.prog_of_ne hxc] at hx
    rw [Sys.prog_of_ne hxc'] at hx'
    exact h.uniq x x' n d d' hxs hxs' hx hx'
  · rw [hview]
    exact h.inbox
  · rw [hsrv]
    exact h.srvRecv
  · rw [hsrv]
    exact h.srvId

/-- A step of `c` that only changes where it is. -/
theorem goto_step (h : Inv srv s) (hc : c ≠ srv) {p : Prog} (hlive : s.prog c ≠ .none)
    (hok : (s.view srv).Ok (s.box c) (s.mail c) p) (hsend : ∀ n d, p ≠ .sending n d) :
    Inv srv (s.goto c p) := by
  have h' := h.local_step hc hok (fun _ => h.ident c hc hlive) hsend
  rwa [Sys.setBox_box] at h'

/-- A step of the server on its own: nobody who waits for it is left behind. -/
theorem server_step (h : Inv srv s) (hprog : s'.prog = s.prog) (hmail : s'.mail = s.mail)
    (hbox : ∀ x, x ≠ srv → s'.box x = s.box x) (hnext : s'.next = s.next)
    (hpend : ∀ x n, x ≠ srv → View.Waits (s.box x) (s.prog x) n →
      (s.view srv).Pending n (s.box x).id → (s'.view srv).Pending n (s.box x).id)
    (hans : ∀ n x, s.answers n = some x → s'.answers n = some x)
    (hnew : ∀ n, s.answers n = none → ¬ (s.view srv).InBox n → s'.answers n = none)
    (hinbox : ∀ n, ¬ (s'.view srv).InBox n) (hbound : ∀ n, s'.answers n ≠ none → n < s.next)
    (hrecv : (s'.box srv).recving = true → s'.pc = .waiting ∧ (s'.box srv).dstva = FSREQ)
    (hid : (s'.box srv).id = (s.box srv).id) : Inv srv s' := by
  refine ⟨?_, ?_, ?_, fun n hn => absurd hn (hinbox n), ?_, hrecv, hid ▸ h.srvId⟩
  · intro x hx
    rw [hprog, hmail, hbox x hx]
    refine (h.ok x hx).mono (fun n => hpend x n hx) hans fun n d _ hlt hnone hnot => ?_
    exact ⟨lt_of_lt_of_eq hlt hnext.symm, hnew n hnone hnot, hinbox n⟩
  · intro x hx
    rw [hprog, hbox x hx]
    exact h.ident x hx
  · rw [hprog]
    exact h.uniq
  · rw [hnext]
    exact hbound

/-- Another call of `fsipc`. -/
theorem call (h : Inv srv s) (hc : c ≠ srv) (hp : s.prog c = .code) (d : Word) :
    Inv srv ({ s with next := s.next + 1 }.goto c (.sending s.next d)) := by
  have hprog : ∀ x, x ≠ c → ({ s with next := s.next + 1 }.goto c (.sending s.next d)).prog x
      = s.prog x := fun x hx => update_of_ne hx _ _
  have hprogc : ({ s with next := s.next + 1 }.goto c (.sending s.next d)).prog c
      = .sending s.next d := update_self ..
  have hold : ∀ x n d', x ≠ srv → s.prog x = .sending n d' → n < s.next := by
    intro x n d' hx hx'
    have hok := h.ok x hx
    rw [hx'] at hok
    exact hok.2.1
  refine ⟨?_, ?_, ?_, ?_, fun n hn => Nat.lt_succ_of_lt (h.ans n hn), h.srvRecv, h.srvId⟩
  · intro x hx
    by_cases hxc : x = c
    · subst hxc
      rw [hprogc]
      have hrecv := h.ok x hx
      rw [hp] at hrecv
      refine ⟨hrecv, Nat.lt_succ_self _, ?_, fun hin => ?_⟩
      · by_contra hne
        exact lt_irrefl _ (h.ans _ hne)
      · exact lt_irrefl _ (h.inbox _ hin).2
    · rw [hprog x hxc]
      exact (h.ok x hx).mono (fun _ _ hn => hn) (fun _ _ hn => hn)
        fun n _ _ hlt hnone hnot => ⟨Nat.lt_succ_of_lt hlt, hnone, hnot⟩
  · intro x hx hlive
    by_cases hxc : x = c
    · subst hxc
      exact h.ident x hx (by rw [hp]; simp)
    · rw [hprog x hxc] at hlive
      exact h.ident x hx hlive
  · intro x x' n d₁ d₂ hxs hxs' hx hx'
    by_cases hxc : x = c
    · by_cases hxc' : x' = c
      · rw [hxc, hxc']
      · rw [hprog x' hxc'] at hx'
        rw [hxc, hprogc] at hx
        cases hx
        exact absurd (hold x' _ _ hxs' hx') (lt_irrefl _)
    · rw [hprog x hxc] at hx
      by_cases hxc' : x' = c
      · rw [hxc', hprogc] at hx'
        cases hx'
        exact absurd (hold x _ _ hxs hx) (lt_irrefl _)
      · rw [hprog x' hxc'] at hx'
        exact h.uniq x x' n d₁ d₂ hxs hxs' hx hx'
  · intro n hn
    exact ⟨(h.inbox n hn).1, Nat.lt_succ_of_lt (h.inbox n hn).2⟩

/-- A message to the server, which is nobody's request but the sender's. -/
theorem toServer (h : Inv srv s) (hrecv : (s.box srv).recving = true)
    (hreq : ∀ n, req = some n → s.answers n = none ∧ n < s.next)
    (hother : ∀ x n d, x ≠ srv → s.prog x = .sending n d → req ≠ some n) :
    Inv srv (s.delivered srv c srv value page pg req) := by
  obtain ⟨hpc, -⟩ := h.srvRecv hrecv
  have hnone : ∀ n id, ¬ (s.view srv).Pending n id := fun n id =>
    View.not_pending_of_recving hpc hrecv
  have hin : ∀ n, ((s.delivered srv c srv value page pg req).view srv).InBox n → req = some n := by
    rintro n ⟨-, -, hn⟩
    have hn' : ((s.delivered srv c srv value page pg req).mail srv).req = some n := hn
    rwa [delivered_mail_self] at hn'
  refine ⟨?_, ?_, h.uniq, fun n hn => hreq n (hin n hn), h.ans, fun hr => ?_, ?_⟩
  · intro x hx
    rw [delivered_box_of_ne hx, delivered_mail_of_ne hx]
    refine (h.ok x hx).mono (fun n _ hn => absurd hn (hnone n _)) (fun _ _ hn => hn) ?_
    intro n d hp hlt hans _
    exact ⟨hlt, hans, fun hin' => hother x n d hx hp (hin n hin')⟩
  · intro x hx
    rw [delivered_box_of_ne hx]
    exact h.ident x hx
  · rw [delivered_box_self] at hr
    cases hr
  · rw [delivered_box_self]
    exact h.srvId

/-- A message to another environment: it does not wait in `fsipc`, or this is its answer. -/
theorem toClient (h : Inv srv s) (he : e ≠ srv)
    (hwait : ∀ n, s.prog e = .waiting n → s.answers n =
      some (value, if (transferred (s.box e) page).isSome then pg else none)) :
    Inv srv (s.delivered srv c e value page pg req) := by
  have hview : (s.delivered srv c e value page pg req).view srv = s.view srv := by
    unfold Sys.view
    rw [delivered_box_of_ne he.symm, delivered_mail_of_ne he.symm]
    rfl
  refine ⟨?_, ?_, h.uniq, ?_, h.ans, ?_, ?_⟩
  · intro x hx
    rw [hview]
    by_cases hxe : x = e
    · subst hxe
      have hok := h.ok x hx
      show (s.view srv).Ok _ _ (s.prog x)
      rw [delivered_box_self, delivered_mail_self]
      cases hp : s.prog x with
      | code => rfl
      | sending n d =>
        rw [hp] at hok
        exact ⟨rfl, hok.2⟩
      | sent n d =>
        rw [hp] at hok
        exact ⟨rfl, hok.2⟩
      | waiting n =>
        rw [hp] at hok
        exact ⟨hok.1, fun hr => absurd hr Bool.false_ne_true, fun _ => hwait n hp⟩
      | returned n value page =>
        rw [hp] at hok
        exact ⟨rfl, hok.2⟩
      | none => trivial
      | listening => trivial
      | stopped => trivial
    · rw [delivered_box_of_ne hxe, delivered_mail_of_ne hxe]
      exact h.ok x hx
  · intro x hx
    by_cases hxe : x = e
    · subst hxe
      rw [delivered_box_self]
      exact h.ident x hx
    · rw [delivered_box_of_ne hxe]
      exact h.ident x hx
  · rw [hview]
    exact h.inbox
  · rw [delivered_box_of_ne he.symm]
    exact h.srvRecv
  · rw [delivered_box_of_ne he.symm]
    exact h.srvId

/-- A request of `fsipc` reaches the server. -/
theorem request (h : Inv srv s) {n : ℕ} {d : Word} (hc : c ≠ srv) (hp : s.prog c = .sending n d)
    (hrecv : (s.box srv).recving = true) :
    Inv srv ((s.delivered srv c srv value (some (.ok 7#32)) pg (some n)).goto c (.sent n d)) := by
  obtain ⟨hbox, hlt, hnone, -⟩ : (s.box c).recving = false ∧ n < s.next ∧ s.answers n = none ∧
      ¬ (s.view srv).InBox n := by
    have hok := h.ok c hc
    rwa [hp] at hok
  obtain ⟨hpc, hdst⟩ := h.srvRecv hrecv
  -- between its call and the delivery the sender counts as running code of its own
  have h₁ : Inv srv (s.goto c .code) := h.goto_step hc (by rw [hp]; simp) hbox (by simp)
  have h₂ : Inv srv ((s.goto c .code).delivered srv c srv value (some (.ok 7#32)) pg (some n)) := by
    refine h₁.toServer hrecv ?_ ?_
    · rintro m ⟨⟩
      exact ⟨hnone, hlt⟩
    · rintro x m d' hx hxp ⟨⟩
      have hxc : x ≠ c := by
        rintro rfl
        rw [show (s.goto x .code).prog x = .code from update_self ..] at hxp
        cases hxp
      rw [show (s.goto c .code).prog x = s.prog x from update_of_ne hxc _ _] at hxp
      exact hxc (h.uniq x c _ d' d hx hc hxp hp)
  have h₃ := h₂.goto_step (p := .sent n d) hc ?_ ?_ (by simp)
  · have hidem : ((s.goto c .code).delivered srv c srv value (some (.ok 7#32)) pg (some n)).goto c
        (.sent n d) = (s.delivered srv c srv value (some (.ok 7#32)) pg (some n)).goto c
        (.sent n d) := by
      unfold Sys.goto
      exact congrArg (fun p => { s.delivered srv c srv value (some (.ok 7#32)) pg (some n) with
        prog := p }) (update_idem ..)
    rwa [hidem] at h₃
  · rw [show ((s.goto c .code).delivered srv c srv value (some (.ok 7#32)) pg (some n)).prog c
      = .code from update_self ..]
    simp
  · have hperm : transferred (s.box srv) (some (.ok 7#32)) = some 7#32 := by
      rw [transferred, hdst, if_neg (by decide)]
    have hself : (((s.goto c .code).delivered srv c srv value (some (.ok 7#32)) pg
        (some n)).view srv).box = (s.box srv).deliver (s.box c).id value (some 7#32) := by
      show ((s.goto c .code).delivered srv c srv value (some (.ok 7#32)) pg (some n)).box srv = _
      rw [delivered_box_self]
      show (s.box srv).deliver _ _ (transferred (s.box srv) _) = _
      rw [hperm]
      rfl
    have hcbox : ((s.goto c .code).delivered srv c srv value (some (.ok 7#32)) pg (some n)).box c
        = s.box c := delivered_box_of_ne hc
    rw [hcbox]
    refine ⟨hbox, .inl ⟨⟨hpc, ?_, ?_⟩, ?_, ?_⟩⟩
    · rw [hself]
      rfl
    · show (Sys.mail _ srv).req = some n
      rw [delivered_mail_self]
    · rw [hself]
      show serveAccepts 7#32 = true
      decide
    · rw [hself]
      rfl

/-- The server's reply reaches the client. -/
theorem reply (h : Inv srv s) {whom r : Word} {q : Option ℕ} (hpc : s.pc = .reply whom r pg q)
    (hpage : page = none ↔ pg = none) (herr : ∀ x, page ≠ some (.error x))
    (hid : (s.box e).id = whom) (he : e = envx whom) (hrecv : (s.box e).recving = true) :
    Inv srv ((s.delivered srv srv e r page pg none).setPc .unmap) := by
  have hne : e ≠ srv := by
    rintro rfl
    have := (h.srvRecv hrecv).1
    rw [hpc] at this
    cases this
  -- the only request in hand is the one that is answered
  have hpend : ∀ {n id}, (s.view srv).Pending n id →
      id = whom ∧ q = some n ∧ s.answers n = some (r, pg) := by
    rintro n id (⟨⟨hw, -⟩, -⟩ | ⟨r', pg', hw, hans⟩ | hw)
    · exact absurd (hpc.symm.trans hw) (by simp)
    · have heq := hpc.symm.trans hw
      cases heq
      exact ⟨rfl, rfl, hans⟩
    · exact absurd (hpc.symm.trans hw) (by simp)
  have h₁ : Inv srv (s.delivered srv srv e r page pg none) := by
    refine h.toClient hne fun n hp => ?_
    have hok := h.ok e hne
    rw [hp] at hok
    obtain ⟨-, -, hans⟩ := hpend (hok.2.1 hrecv)
    have harrived : (if (transferred (s.box e) page).isSome then pg else none) = pg := by
      rcases page with _ | x | p
      · exact (hpage.1 rfl).symm
      · exact absurd rfl (herr x)
      · rw [transferred, if_neg hok.1]
        rfl
    rw [harrived]
    exact hans
  refine h₁.server_step rfl rfl (fun _ _ => rfl) rfl ?_ (fun _ _ hn => hn) (fun _ hn _ => hn) ?_
    h₁.ans (fun hr => absurd (h₁.srvRecv hr).1 (by
      show s.pc ≠ .waiting
      rw [hpc]
      simp)) rfl
  · -- nobody else waits: whoever does has the id the answer went to
    intro x n hx hwaits hpx
    exfalso
    have hpx' : (s.view srv).Pending n ((s.delivered srv srv e r page pg none).box x).id := by
      have hview : (s.delivered srv srv e r page pg none).view srv = s.view srv := by
        unfold Sys.view
        rw [delivered_box_of_ne hne.symm, delivered_mail_of_ne hne.symm]
        rfl
      rwa [hview] at hpx
    have hxid := (hpend hpx').1
    have hlive : (s.delivered srv srv e r page pg none).prog x ≠ .none := by
      rcases hwaits with ⟨d, hp⟩ | ⟨hp, -⟩ <;> rw [hp] <;> simp
    have hxe : x = e := by
      rw [he, ← hxid]
      exact (h₁.ident x hx hlive).symm
    subst hxe
    rw [delivered_box_self] at hwaits
    rcases hwaits with ⟨d, hp⟩ | ⟨-, hr⟩
    · have hok := h.ok x hx
      rw [show s.prog x = .sent n d from hp] at hok
      exact Bool.false_ne_true (hok.1.symm.trans hrecv)
    · cases hr
  · rintro n ⟨hw, -⟩
    cases hw

/-- The server answers the request in its box. -/
theorem handle (h : Inv srv s) (hreq : s.HasRequest srv) (r : Word) (tab : Opentab) :
    Inv srv { s with
      pc := .reply (s.box srv).sender r pg (s.mail srv).req
      tab := tab
      answers := match (s.mail srv).req with
        | none => s.answers
        | some n => update s.answers n (some (r, pg)) } := by
  obtain ⟨hpc, hrecv⟩ := hreq
  have hpend : ∀ {n id}, (s.view srv).Pending n id →
      (s.mail srv).req = some n ∧ (s.box srv).sender = id := by
    rintro n id (⟨⟨-, -, hn⟩, -, hid⟩ | ⟨r', pg', hw, -⟩ | hw)
    · exact ⟨hn, hid⟩
    · exact absurd (hpc.symm.trans hw) (by simp)
    · exact absurd (hpc.symm.trans hw) (by simp)
  cases hq : (s.mail srv).req with
  | none =>
    refine h.server_step rfl rfl (fun _ _ => rfl) rfl ?_ (fun _ _ hn => hn) (fun _ hn _ => hn) ?_
      h.ans (fun hr => absurd (hrecv.symm.trans hr) Bool.false_ne_true) rfl
    · intro x n _ _ hp
      rw [hq] at hpend
      exact absurd (hpend hp).1 (by simp)
    · rintro n ⟨hw, -⟩
      cases hw
  | some n =>
    have hin : (s.view srv).InBox n := ⟨hpc, hrecv, hq⟩
    obtain ⟨hnone, hlt⟩ := h.inbox n hin
    have hother : ∀ m, m ≠ n → update s.answers n (some (r, pg)) m = s.answers m :=
      fun m hm => update_of_ne hm _ _
    refine h.server_step rfl rfl (fun _ _ => rfl) rfl ?_ ?_ ?_ ?_ ?_
      (fun hr => absurd (hrecv.symm.trans hr) Bool.false_ne_true) rfl
    · intro x m _ _ hp
      obtain ⟨hm, hid⟩ := hpend hp
      obtain rfl : n = m := Option.some.inj (hq.symm.trans hm)
      refine .inr (.inl ⟨r, pg, ?_, update_self ..⟩)
      rw [← hid]
      rfl
    · intro m y hm
      have hmn : m ≠ n := by
        rintro rfl
        rw [hnone] at hm
        cases hm
      exact (hother m hmn).trans hm
    · intro m hm hnot
      refine (hother m ?_).trans hm
      rintro rfl
      exact hnot hin
    · rintro m ⟨hw, -⟩
      cases hw
    · intro m hm
      by_cases hmn : m = n
      · rw [hmn]
        exact hlt
      · exact h.ans m fun hnone' => hm ((hother m hmn).trans hnone')

/-- The server stops, for good or for a moment, where nobody waits for it any more. -/
theorem setPc (h : Inv srv s) {pc : Pc} (hpc : s.pc ≠ .waiting ∨ (s.box srv).recving = false)
    (hnone : pc = .panicked ∨ ∀ n id, ¬ (s.view srv).Pending n id) (hnew : pc ≠ .waiting) :
    Inv srv (s.setPc pc) := by
  refine h.server_step rfl rfl (fun _ _ => rfl) rfl ?_ (fun _ _ hn => hn) (fun _ hn _ => hn) ?_
    h.ans (fun hr => ?_) rfl
  · intro x n _ _ hp
    rcases hnone with rfl | hno
    · exact .inr (.inr rfl)
    · exact absurd hp (hno n _)
  · rintro n ⟨hw, -⟩
    exact hnew hw
  · rcases hpc with hw | hr'
    · exact absurd (h.srvRecv hr).1 hw
    · exact absurd (hr'.symm.trans hr) Bool.false_ne_true

theorem step {ev : Event} (h : Inv srv s) (hcare : s.Undisturbed ev) (hstep : Step srv s ev s') :
    Inv srv s' := by
  have hnot : ∀ {pc}, s.pc = pc → pc ≠ .waiting → pc ≠ .panicked →
      (∀ w r pg q, pc ≠ .reply w r pg q) → ∀ n id, ¬ (s.view srv).Pending n id := by
    rintro pc rfl hw hp hr n id (⟨⟨hw', -⟩, -⟩ | ⟨r, pg, hr', -⟩ | hp')
    · exact hw hw'
    · exact hr _ _ _ _ hr'
    · exact hp hp'
  cases hstep with
  | create hp hc hid _ => exact h.local_step hc rfl (fun _ => hid) (by simp)
  | destroy _ hc => exact h.local_step hc trivial (fun hne => absurd rfl hne) (by simp)
  | stop hc hp _ _ => exact h.goto_step hc hp trivial (by simp)
  | call hp hc _ => exact h.call hc hp _
  | @request c n d type pg s₁ hp hc hsend =>
    obtain ⟨e, -, -, he, hrecv, -, rfl⟩ := send_ok hsend
    obtain rfl : e = srv := he.trans h.srvId
    exact h.request hc hp hrecv.1
  | requestFail hp hc _ _ => exact h.goto_step hc (by rw [hp]; simp) trivial (by simp)
  | @receive c n d hp hc =>
    have hok := h.ok c hc
    rw [hp] at hok
    refine h.local_step hc ⟨?_, fun _ => hok.2, fun hr => absurd hr (by simp [Box.listen])⟩
      (fun _ => h.ident c hc (by rw [hp]; simp)) (by simp)
    show (if d = 0#32 then UTOP else d) ≠ 0#32
    split
    · decide
    · assumption
  | @wake c n hp hc hr =>
    have hok := h.ok c hc
    rw [hp] at hok
    exact h.goto_step hc (by rw [hp]; simp) ⟨hr, hok.2.2 hr⟩ (by simp)
  | @back c n value page hp hc =>
    have hok := h.ok c hc
    rw [hp] at hok
    exact h.goto_step hc (by rw [hp]; simp) hok.1 (by simp)
  | @send c envid value page pg s₁ hp hc _ hsend =>
    obtain ⟨e, -, -, he, hrecv, -, rfl⟩ := send_ok hsend
    by_cases hes : e = srv
    · rw [hes] at hrecv ⊢
      exact h.toServer hrecv.1 (by simp) (by simp)
    · refine h.toClient hes fun n hw => absurd hw ?_
      rw [he]
      exact hcare.1 n
  | @listen c dstva hp hc =>
    exact h.local_step hc trivial (fun _ => h.ident c hc (by rw [hp]; simp)) (by simp)
  | @heard c hp hc hr => exact h.goto_step hc (by rw [hp]; simp) hr (by simp)
  | recv hpc =>
    refine h.server_step rfl rfl (fun x hx => update_of_ne hx _ _) rfl ?_
      (fun _ _ hn => hn) (fun _ hn _ => hn) ?_ h.ans (fun _ => ⟨rfl, ?_⟩) ?_
    · intro x n _ _ hp
      exact absurd hp (hnot hpc (by simp) (by simp) (by simp) n _)
    · rintro n ⟨-, hr, -⟩
      have hr' : (update s.box srv ((s.box srv).listen FSREQ) srv).recving = false := hr
      rw [update_self] at hr'
      cases hr'
    · show (update s.box srv ((s.box srv).listen FSREQ) srv).dstva = FSREQ
      rw [update_self]
      rfl
    · show (update s.box srv ((s.box srv).listen FSREQ) srv).id = _
      rw [update_self]
      rfl
  | ignore hreq hacc =>
    refine h.setPc (.inr hreq.2) (.inr ?_) (by simp)
    rintro n id (⟨-, hacc', -⟩ | ⟨r, pg, hw, -⟩ | hw)
    · exact Bool.false_ne_true (hacc.symm.trans hacc')
    · exact absurd (hreq.1.symm.trans hw) (by simp)
    · exact absurd (hreq.1.symm.trans hw) (by simp)
  | handle hreq _ => exact h.handle hreq _ _
  | fault hreq _ _ => exact h.setPc (.inr hreq.2) (.inl rfl) (by simp)
  | @reply whom r pg q page s₁ hpc hpage hsend =>
    obtain ⟨e, -, hid, he, hrecv, herr, rfl⟩ := send_ok hsend
    exact h.reply hpc hpage herr hid he hrecv.1
  | replyFail hpc _ _ _ => exact h.setPc (.inl (by rw [hpc]; simp)) (.inl rfl) (by simp)
  | unmap hpc =>
    have h' : Inv srv (s.setPc .recv) := h.setPc (.inl (by rw [hpc]; simp))
      (.inr (hnot hpc (by simp) (by simp) (by simp))) (by simp)
    exact ⟨h'.ok, h'.ident, h'.uniq, h'.inbox, h'.ans, h'.srvRecv, h'.srvId⟩

end Inv

/-- **A client gets the answer to its request**, in every run in which nobody but the server sends
to an environment that waits in `fsipc`, and pages go below `UTOP` only. -/
theorem agrees {s₀ : Sys} (h0 : s₀.Start srv) (hrun : Lts.Run (Step srv) Sys.Undisturbed s₀ s) :
    Agrees srv s := by
  have hinv : Inv srv s := hrun.inv (.of_start h0) fun _ _ _ h hc hstep => h.step hc hstep
  intro c n value page hc hp
  have hok := hinv.ok c hc
  rw [hp] at hok
  exact hok.2

/-! ## Two runs -/

/-- It waits for the reply. -/
def pending : Sys := (asked.setBox client ((asked.box client).listen UTOP)).goto client (.waiting 0)

theorem run_pending : Lts.Run (Step fs) Sys.Undisturbed quiet pending := by
  have hne : client ≠ fs := by decide
  have hstep : Step fs asked (.receive client) pending := Step.receive (d := 0#32) rfl hne
  refine (run_asked trivial trivial trivial).snoc ?_ hstep
  trivial

/-- The server has answered, with 5. -/
def answered : Sys :=
  { pending with
    pc := .reply (pending.box fs).sender 5#32 none (pending.mail fs).req
    tab := pending.tab
    answers := update pending.answers 0 (some (5#32, none)) }

/-- The client has the reply. -/
def served : Sys :=
  ((answered.delivered fs fs client 5#32 none none none).setPc .unmap).goto client
    (.returned 0 5#32 none)

theorem run_served : Lts.Run (Step fs) Sys.Undisturbed quiet served := by
  have h₁ : Lts.Run (Step fs) Sys.Undisturbed quiet answered := by
    refine run_pending.snoc ?_ (Step.handle (r := 5#32) ⟨rfl, rfl⟩ (by decide))
    trivial
  have hsend : answered.send fs fs (pending.box fs).sender 5#32 none none none
      = .ok (answered.delivered fs fs client 5#32 none none none) :=
    send_eq rfl rfl ⟨rfl, rfl⟩ (by simp)
  have h₂ : Lts.Run (Step fs) Sys.Undisturbed quiet
      ((answered.delivered fs fs client 5#32 none none none).setPc .unmap) := by
    refine h₁.snoc ?_ (Step.reply rfl (by simp) hsend)
    exact fun _ _ _ _ _ hpage => absurd rfl hpage
  refine h₂.snoc ?_ (Step.wake rfl (by decide) rfl)
  trivial

theorem agrees_served : quiet.Start fs ∧ Lts.Run (Step fs) Sys.Undisturbed quiet served ∧
    served.prog client = .returned 0 5#32 none ∧ served.answers 0 = some (5#32, none) :=
  ⟨quiet_start, run_served, rfl, agrees quiet_start run_served client 0 _ _ (by decide) rfl⟩

/-- The third environment has sent 9 to the client that waits for the server. -/
def disturbed : Sys :=
  (pending.delivered fs third client 9#32 none none none).goto client (.returned 0 9#32 none)

/-- **`fsipc` returns what a third environment sent**, while the server has not even looked at
the request. -/
theorem third_party : ∃ s, quiet.Start fs ∧ Lts.Run (Step fs) Lts.anyEvent quiet s ∧
    s.prog client = .returned 0 9#32 none ∧ s.answers 0 = none ∧ ¬ Agrees fs s := by
  have hsend : pending.send fs third (pending.box client).id 9#32 none none none
      = .ok (pending.delivered fs third client 9#32 none none none) :=
    send_eq rfl rfl ⟨rfl, rfl⟩ (by simp)
  have h₁ := (run_pending.mono fun _ _ _ => trivial : Lts.Run (Step fs) Lts.anyEvent quiet pending)
  have h₂ := h₁.snoc trivial (Step.send rfl (by decide) (by simp) hsend)
  have h₃ : Lts.Run (Step fs) Lts.anyEvent quiet disturbed :=
    h₂.snoc trivial (Step.wake (c := client) rfl (by decide) rfl)
  refine ⟨disturbed, quiet_start, h₃, rfl, rfl, fun hagrees => ?_⟩
  have := hagrees client 0 9#32 none (by decide) rfl
  cases this

end Jos.Serve
