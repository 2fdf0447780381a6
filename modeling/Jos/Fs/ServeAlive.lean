import Jos.Fs.Serve

/-!
# The server and clients that go away

The server owes an answer from the moment a request is in its box.  If the client is
destroyed meanwhile, `ipc_send` fails with `-E_BAD_ENV` and panics; if it stops receiving,
`ipc_send` tries for ever.

* `survives` — neither happens in runs in which nobody goes away whom the server owes an
  answer, requests come with their page, no page goes where none is expected, and there is
  memory to map the page of a reply.
* `panics_without_client`, `stuck_at_reply` — what follows if a client does go away.
-/

namespace Jos.Serve

open Function (update update_of_ne update_self)

open User Fs

variable (srv : EnvIdx)

/-- A reply to `whom` can no longer be delivered. -/
def Sys.Undeliverable (s : Sys) (whom : Word) : Prop :=
  (s.box (envx whom)).live = false ∨ (s.box (envx whom)).id ≠ whom ∨
    s.prog (envx whom) = .stopped

/-- **The server survives its clients**: it has not panicked, and a reply that can no longer be
delivered takes it on to the next request, with its table as it was. -/
structure Survives (s : Sys) : Prop where
  alive : s.pc ≠ .panicked
  goesOn : ∀ whom r pg req, s.pc = .reply whom r pg req → s.Undeliverable whom →
    (∃ page s', Step srv s (.reply page) s') ∧
    ∀ page s', Step srv s (.reply page) s' → s'.pc = .unmap ∧ s'.tab = s.tab

/-- Nobody goes away whom the server owes an answer, what is sent to the server comes with a page,
a page is sent to nobody who waits at `UTOP` or above, and the page of a reply can be mapped. -/
def Sys.Patient (s : Sys) : Event → Prop
  | .destroy c => ¬ s.Owes srv (s.box c).id
  | .stop c => ¬ s.Owes srv (s.box c).id
  | .send _ envid _ page => (envx envid = srv → page ≠ none) ∧ s.Below envid page
  | .reply page => (∀ r, page ≠ some (.error r)) ∧
      ∀ whom r pg req, s.pc = .reply whom r pg req → s.Below whom page
  | _ => True

variable {srv} {s s' : Sys} {c e : EnvIdx} {value : Word} {page : Attached} {pg req : Option ℕ}

/-- There is somebody with this id who may still receive. -/
structure Sys.Here (s : Sys) (id : Word) : Prop where
  live : (s.box (envx id)).live = true
  same : (s.box (envx id)).id = id
  prog : s.prog (envx id) ≠ .none
  runs : s.prog (envx id) ≠ .stopped

variable (srv) in
/-- The invariant. -/
structure Alive (s : Sys) : Prop where
  ident : ∀ x, x ≠ srv → s.prog x ≠ .none → (s.box x).live = true ∧ envx (s.box x).id = x
  srvRecv : (s.box srv).recving = true → s.pc = .waiting ∧ (s.box srv).dstva = FSREQ
  srvLive : (s.box srv).live = true
  srvId : envx (s.box srv).id = srv
  pc : s.pc ≠ .panicked
  owes : ∀ id, s.Owes srv id → envx id ≠ srv ∧ s.Here id
  page : s.HasRequest srv → s.fsreq = true

namespace Alive

theorem of_start (h : s.Start srv) : Alive srv s := by
  refine ⟨?_, ?_, h.live, (h.ident srv h.live).1, by rw [h.pc]; simp, ?_, ?_⟩
  · intro x hx hp
    have hlive : (s.box x).live = true := by
      by_contra hdead
      exact hp ((h.prog x hx).2 (by simpa using hdead))
    exact ⟨hlive, (h.ident x hlive).1⟩
  · intro hr
    rw [h.recving] at hr
    cases hr
  · rintro id (⟨⟨hw, -⟩, -⟩ | ⟨r, pg, req, hw⟩) <;> rw [h.pc] at hw <;> cases hw
  · rintro ⟨hw, -⟩
    rw [h.pc] at hw
    cases hw

/-- While the server listens it owes nobody anything. -/
theorem not_owes (h : Alive srv s) (hrecv : (s.box srv).recving = true) (id : Word) :
    ¬ s.Owes srv id := by
  rintro (⟨⟨-, hr⟩, -⟩ | ⟨r, pg, req, hw⟩)
  · exact Bool.false_ne_true (hr.symm.trans hrecv)
  · rw [(h.srvRecv hrecv).1] at hw
    cases hw

/-- The invariant reads the boxes and where everybody is. -/
theorem congr (h : Alive srv s) (hbox : s'.box = s.box) (hprog : s'.prog = s.prog)
    (hpc : s'.pc = s.pc) (hpage : s'.HasRequest srv → s'.fsreq = true) : Alive srv s' := by
  obtain ⟨box, mail, prog, pc, fsreq, tab, next, answers⟩ := s'
  obtain ⟨rfl, rfl, rfl⟩ : box = s.box ∧ prog = s.prog ∧ pc = s.pc := ⟨hbox, hprog, hpc⟩
  refine ⟨h.ident, h.srvRecv, h.srvLive, h.srvId, h.pc, fun id hid => ?_, hpage⟩
  obtain ⟨hne, hhere⟩ := h.owes id hid
  exact ⟨hne, hhere.live, hhere.same, hhere.prog, hhere.runs⟩

/-- A step of `c` on its own. -/
theorem local_step (h : Alive srv s) (hc : c ≠ srv) {b : Box} {p : Prog}
    (hid : p ≠ .none → b.live = true ∧ envx b.id = c)
    (hgone : s.Owes srv (s.box c).id → s.prog c ≠ .none →
      b.id = (s.box c).id ∧ p ≠ .none ∧ p ≠ .stopped) :
    Alive srv ((s.setBox c b).goto c p) := by
  have hsrv : ((s.setBox c b).goto c p).box srv = s.box srv := Sys.box_of_ne hc.symm
  have howes : ∀ id, ((s.setBox c b).goto c p).Owes srv id ↔ s.Owes srv id := by
    intro id
    unfold Sys.Owes Sys.HasRequest
    rw [hsrv]
    rfl
  refine ⟨?_, ?_, hsrv ▸ h.srvLive, hsrv ▸ h.srvId, h.pc, ?_, ?_⟩
  · intro x hx hp
    by_cases hxc : x = c
    · subst hxc
      rw [Sys.prog_self] at hp
      rw [Sys.box_self]
      exact hid hp
    · rw [Sys.prog_of_ne hxc] at hp
      rw [Sys.box_of_ne hxc]
      exact h.ident x hx hp
  · rw [hsrv]
    exact h.srvRecv
  · intro id hid'
    obtain ⟨hne, hhere⟩ := h.owes id ((howes id).1 hid')
    refine ⟨hne, ?_⟩
    by_cases hxc : envx id = c
    · have hsame : (s.box c).id = id := hxc ▸ hhere.same
      obtain ⟨hb, hp, hstop⟩ := hgone (hsame ▸ (howes id).1 hid') (hxc ▸ hhere.prog)
      refine ⟨?_, ?_, ?_, ?_⟩ <;> rw [hxc]
      · rw [Sys.box_self]
        exact (hid hp).1
      · rw [Sys.box_self, hb, hsame]
      · rw [Sys.prog_self]
        exact hp
      · rw [Sys.prog_self]
        exact hstop
    · refine ⟨?_, ?_, ?_, ?_⟩ <;> simp only [Sys.box_of_ne hxc, Sys.prog_of_ne hxc]
      exacts [hhere.live, hhere.same, hhere.prog, hhere.runs]
  · rintro ⟨hw, hr⟩
    rw [hsrv] at hr
    exact h.page ⟨hw, hr⟩

/-- `c` stays, and goes on with something else. -/
theorem goto_step (h : Alive srv s) (hc : c ≠ srv) (hlive : s.prog c ≠ .none) {p : Prog}
    (hgone : s.Owes srv (s.box c).id → p ≠ .none ∧ p ≠ .stopped) : Alive srv (s.goto c p) := by
  have h' := h.local_step (b := s.box c) (p := p) hc (fun _ => h.ident c hc hlive)
    fun ho _ => ⟨rfl, hgone ho⟩
  rwa [Sys.setBox_box] at h'

/-- A message changes nobody's id. -/
theorem delivered_same (x : EnvIdx) :
    ((s.delivered srv c e value page pg req).box x).live = (s.box x).live ∧
      ((s.delivered srv c e value page pg req).box x).id = (s.box x).id := by
  by_cases hx : x = e
  · subst hx
    rw [delivered_box_self]
    exact ⟨rfl, rfl⟩
  · rw [delivered_box_of_ne hx]
    exact ⟨rfl, rfl⟩

theorem delivered_here {id : Word} (h : s.Here id) :
    (s.delivered srv c e value page pg req).Here id :=
  ⟨(delivered_same _).1.trans h.live, (delivered_same _).2.trans h.same, h.prog, h.runs⟩

theorem delivered_ident (h : Alive srv s) (x : EnvIdx) (hx : x ≠ srv) (hp : s.prog x ≠ .none) :
    ((s.delivered srv c e value page pg req).box x).live = true ∧
      envx ((s.delivered srv c e value page pg req).box x).id = x := by
  rw [(delivered_same x).1, (delivered_same x).2]
  exact h.ident x hx hp

/-- A message to the server comes with a page, from somebody who is there. -/
theorem toServer (h : Alive srv s) (hc : c ≠ srv) (hrecv : (s.box srv).recving = true)
    (hprog : s.prog c ≠ .none ∧ s.prog c ≠ .stopped) {p : Word} :
    Alive srv (s.delivered srv c srv value (some (.ok p)) pg req) := by
  obtain ⟨hpc, hdst⟩ := h.srvRecv hrecv
  obtain ⟨hlive, hid⟩ := h.ident c hc hprog.1
  have htr : transferred (s.box srv) (some (.ok p)) = some p := by
    rw [transferred, hdst, if_neg (by decide)]
  have hself : (s.delivered srv c srv value (some (.ok p)) pg req).box srv =
      (s.box srv).deliver (s.box c).id value (some p) := by
    rw [delivered_box_self, htr]
  refine ⟨h.delivered_ident, ?_, (delivered_same srv).1.trans h.srvLive, ?_, h.pc, ?_, fun _ => ?_⟩
  · intro hr
    rw [hself] at hr
    cases hr
  · rw [(delivered_same srv).2]
    exact h.srvId
  · rintro id (⟨-, hsend⟩ | ⟨r, q, req', hw⟩)
    · rw [hself] at hsend
      obtain rfl : (s.box c).id = id := hsend
      rw [hid]
      refine ⟨hc, delivered_here ⟨?_, ?_, ?_, ?_⟩⟩ <;> rw [hid]
      · exact hlive
      · exact hprog.1
      · exact hprog.2
    · have hw' : s.pc = _ := hw
      rw [hpc] at hw'
      cases hw'
  · show (s.fsreq || (decide (srv = srv) && (transferred (s.box srv) (some (.ok p))).isSome)) = true
    rw [htr]
    simp

/-- A message to anybody else. -/
theorem toClient (h : Alive srv s) (he : e ≠ srv) :
    Alive srv (s.delivered srv c e value page pg req) := by
  have hsrv : (s.delivered srv c e value page pg req).box srv = s.box srv :=
    delivered_box_of_ne he.symm
  have howes : ∀ id, (s.delivered srv c e value page pg req).Owes srv id ↔ s.Owes srv id := by
    intro id
    unfold Sys.Owes Sys.HasRequest
    rw [hsrv]
    rfl
  refine ⟨h.delivered_ident, ?_, hsrv ▸ h.srvLive, hsrv ▸ h.srvId, h.pc, ?_, ?_⟩
  · rw [hsrv]
    exact h.srvRecv
  · intro id hid
    obtain ⟨hne, hhere⟩ := h.owes id ((howes id).1 hid)
    exact ⟨hne, delivered_here hhere⟩
  · rintro ⟨hw, hr⟩
    rw [hsrv] at hr
    show (s.fsreq || _) = true
    rw [h.page ⟨hw, hr⟩, Bool.true_or]

/-- A step of the server after which it owes nobody more than before. -/
theorem server_step (h : Alive srv s) (hprog : s'.prog = s.prog)
    (hbox : ∀ x, x ≠ srv → s'.box x = s.box x)
    (hrecv : (s'.box srv).recving = true → s'.pc = .waiting ∧ (s'.box srv).dstva = FSREQ)
    (hsame : (s'.box srv).live = (s.box srv).live ∧ (s'.box srv).id = (s.box srv).id)
    (hpc : s'.pc ≠ .panicked) (howes : ∀ id, s'.Owes srv id → s.Owes srv id)
    (hpage : ¬ s'.HasRequest srv) : Alive srv s' := by
  refine ⟨?_, hrecv, hsame.1.trans h.srvLive, hsame.2 ▸ h.srvId, hpc, ?_,
    fun hreq => absurd hreq hpage⟩
  · intro x hx
    rw [hprog, hbox x hx]
    exact h.ident x hx
  · intro id hid
    obtain ⟨hne, hhere⟩ := h.owes id (howes id hid)
    exact ⟨hne, hbox _ hne ▸ hhere.live, hbox _ hne ▸ hhere.same, hprog ▸ hhere.prog,
      hprog ▸ hhere.runs⟩

/-- The server moves to where it owes nobody anything. -/
theorem setPc (h : Alive srv s) {pc : Pc} (hold : s.pc ≠ .waiting ∨ (s.box srv).recving = false)
    (hnew : pc = .recv ∨ pc = .unmap) : Alive srv (s.setPc pc) := by
  refine h.server_step rfl (fun _ _ => rfl) (fun hr => ?_) ⟨rfl, rfl⟩ ?_ ?_ ?_
  · rcases hold with hw | hr'
    · exact absurd (h.srvRecv hr).1 hw
    · exact absurd (hr'.symm.trans hr) Bool.false_ne_true
  · rcases hnew with rfl | rfl <;> simp [Sys.setPc]
  · rintro id (⟨⟨hw, -⟩, -⟩ | ⟨r, pg, req, hw⟩) <;> rcases hnew with rfl | rfl <;> cases hw
  · rintro ⟨hw, -⟩
    rcases hnew with rfl | rfl <;> cases hw

/-- A reply does not fail for other reasons than that the client does not wait yet. -/
theorem reply_error (h : Alive srv s) {whom r : Word} {q : Option ℕ} {x : Errno}
    (hpc : s.pc = .reply whom r pg q) (hpage : ∀ r, page ≠ some (.error r))
    (hsend : s.send srv srv whom r page pg none = .error x) : x = .ipcNotRecv := by
  obtain ⟨-, hhere⟩ := h.owes whom (.inr ⟨r, pg, q, hpc⟩)
  unfold Sys.send at hsend
  split at hsend
  · next r' hr' =>
    cases hsend
    rcases trySend_error hr' with ⟨-, hdead | hother⟩ | ⟨hnot, -⟩ | herr
    · exact absurd (hdead.symm.trans hhere.live) Bool.false_ne_true
    · exact absurd hhere.same hother
    · exact hnot
    · exact absurd herr (hpage _)
  · cases hsend

/-- A request of `fsipc` fails only while the server listens. -/
theorem request_error (h : Alive srv s) {type : Word} {x : Errno}
    (hsend : s.send srv c (s.box srv).id type page pg req = .error x) (hx : x ≠ .ipcNotRecv) :
    (s.box srv).recving = true := by
  unfold Sys.send trySend at hsend
  simp only [h.srvId, h.srvLive, Bool.true_eq_false, ne_eq, not_true_eq_false, or_self,
    if_false] at hsend
  by_contra hno
  have hnot : ¬ (s.box srv).Receiving := fun hr => hno hr.1
  rw [if_pos hnot] at hsend
  cases hsend
  exact hx rfl

theorem step {ev : Event} (h : Alive srv s) (hcare : s.Patient srv ev) (hstep : Step srv s ev s') :
    Alive srv s' := by
  cases hstep with
  | @create c id hp hc hid _ =>
    exact h.local_step hc (fun _ => ⟨rfl, hid⟩) fun _ hlive => absurd hp hlive
  | destroy _ hc => exact h.local_step hc (fun hne => absurd rfl hne) fun ho => absurd ho hcare
  | stop hc hp _ _ => exact h.goto_step hc hp fun ho => absurd ho hcare
  | @call c d hp hc _ =>
    have h' : Alive srv { s with next := s.next + 1 } := h.congr rfl rfl rfl h.page
    refine h'.goto_step hc ?_ fun _ => by simp
    show s.prog c ≠ .none
    rw [hp]
    simp
  | @request c n d type pg s₁ hp hc hsend =>
    obtain ⟨e, -, -, he, hrecv, -, rfl⟩ := send_ok hsend
    obtain rfl : e = srv := he.trans h.srvId
    refine (h.toServer hc hrecv.1 (by rw [hp]; simp)).goto_step hc ?_ fun _ => by simp
    show s.prog c ≠ .none
    rw [hp]
    simp
  | @requestFail c n d type page r hp hc hsend hr =>
    exact h.goto_step hc (by rw [hp]; simp) fun ho =>
      absurd ho (h.not_owes (h.request_error hsend hr) _)
  | receive hp hc =>
    exact h.local_step hc (fun _ => h.ident _ hc (by rw [hp]; simp)) fun _ _ => by simp [Box.listen]
  | wake hp hc _ => exact h.goto_step hc (by rw [hp]; simp) fun _ => by simp
  | back hp hc => exact h.goto_step hc (by rw [hp]; simp) fun _ => by simp
  | @send c envid value page pg s₁ hp hc _ hsend =>
    obtain ⟨e, -, -, he, hrecv, herr, rfl⟩ := send_ok hsend
    by_cases hes : e = srv
    · have hpage := hcare.1 (he ▸ hes)
      rw [hes] at hrecv ⊢
      rcases page with _ | x | p
      · exact absurd rfl hpage
      · exact absurd rfl (herr x)
      · exact h.toServer hc hrecv.1 (by rw [hp]; simp)
    · exact h.toClient hes
  | listen hp hc =>
    exact h.local_step hc (fun _ => h.ident _ hc (by rw [hp]; simp)) fun _ _ => by simp [Box.listen]
  | heard hp hc _ => exact h.goto_step hc (by rw [hp]; simp) fun _ => by simp
  | recv hpc =>
    have hself : ((s.setBox srv ((s.box srv).listen FSREQ)).setPc .waiting).box srv =
        (s.box srv).listen FSREQ := update_self ..
    refine h.server_step rfl (fun x hx => update_of_ne hx _ _) (fun _ => ⟨rfl, ?_⟩)
      ⟨?_, ?_⟩ (by simp [Sys.setPc]) ?_ ?_
    · rw [hself]
      rfl
    · rw [hself]
      rfl
    · rw [hself]
      rfl
    · rintro id (⟨⟨-, hr⟩, -⟩ | ⟨r, pg, req, hw⟩)
      · rw [hself] at hr
        cases hr
      · cases hw
    · rintro ⟨-, hr⟩
      rw [hself] at hr
      cases hr
  | ignore hreq _ => exact h.setPc (.inr hreq.2) (.inl rfl)
  | @handle r pg tab hreq _ =>
    refine h.server_step rfl (fun _ _ => rfl)
      (fun hr => absurd (hreq.2.symm.trans hr) Bool.false_ne_true) ⟨rfl, rfl⟩ (by simp) ?_ ?_
    · rintro id (⟨⟨hw, -⟩, -⟩ | ⟨r', pg', req', hw⟩)
      · cases hw
      · cases hw
        exact .inl ⟨hreq, rfl⟩
    · rintro ⟨hw, -⟩
      cases hw
  | fault hreq _ hno => exact absurd (hno.symm.trans (h.page hreq)) Bool.false_ne_true
  | @reply whom r pg q page s₁ hpc _ hsend =>
    obtain ⟨e, -, -, he, hrecv, -, rfl⟩ := send_ok hsend
    have hne : e ≠ srv := he ▸ (h.owes whom (.inr ⟨r, pg, q, hpc⟩)).1
    refine (h.toClient hne).setPc (.inl ?_) (.inr rfl)
    show s.pc ≠ .waiting
    rw [hpc]
    simp
  | replyFail hpc _ hsend hx => exact absurd (h.reply_error hpc hcare.1 hsend) hx
  | unmap hpc =>
    have h' : Alive srv (s.setPc .recv) := h.setPc (.inl (by rw [hpc]; simp)) (.inl rfl)
    exact h'.congr rfl rfl rfl fun ⟨hw, _⟩ => by cases hw

end Alive

theorem asked_prog : asked.prog client = .sent 0 0#32 := rfl

/-- The server's answer to the client of `asked`. -/
def Sys.answer (s : Sys) : Sys :=
  { s with
    pc := .reply (s.box fs).sender 5#32 none (s.mail fs).req
    tab := s.tab
    answers := update s.answers 0 (some (5#32, none)) }

/-- The client is destroyed before the server looks at its request. -/
def bereft : Sys :=
  ((asked.setBox client { asked.box client with live := false }).goto client .none).answer

/-- Since `s₀` neither the server has gone on nor `whom`, who has stopped. -/
structure Stuck (whom : Word) (s₀ s : Sys) : Prop where
  pc : s.pc = s₀.pc
  prog : s.prog (envx whom) = .stopped
  box : s.box (envx whom) = s₀.box (envx whom)

section Stuck

variable {whom r : Word} {q : Option ℕ} {s₀ : Sys}

theorem Stuck.goto_other (h : Stuck whom s₀ s) (hc : c ≠ envx whom) (b : Box) (p : Prog) :
    Stuck whom s₀ ((s.setBox c b).goto c p) :=
  ⟨h.pc, (Sys.prog_of_ne hc.symm).trans h.prog, (Sys.box_of_ne hc.symm).trans h.box⟩

variable (hpc : s₀.pc = .reply whom r pg q) (hlive : (s₀.box (envx whom)).live = true)
  (hid : (s₀.box (envx whom)).id = whom) (hno : (s₀.box (envx whom)).recving = false)

include hno in
theorem Stuck.delivered_other (h : Stuck whom s₀ s) (hrecv : (s.box e).Receiving) :
    Stuck whom s₀ (s.delivered srv c e value page pg req) := by
  refine ⟨h.pc, h.prog, (delivered_box_of_ne ?_).trans h.box⟩
  rintro rfl
  rw [h.box] at hrecv
  exact Bool.false_ne_true (hno.symm.trans hrecv.1)

include hlive hid hno in
/-- The reply is refused, with the one error that makes `ipc_send` try again. -/
theorem Stuck.send_eq (h : Stuck whom s₀ s) :
    s.send srv c whom value page pg req = .error .ipcNotRecv := by
  simp [Sys.send, trySend, h.box, hlive, hid, Box.Receiving, hno]

include hpc hlive hid hno

/-- Nobody but `whom` can end this, by going away altogether. -/
theorem Stuck.step {ev : Event} (h : Stuck whom s₀ s) (hev : ev ≠ .destroy (envx whom))
    (hstep : Step srv s ev s') : Stuck whom s₀ s' := by
  have hat : s.pc = .reply whom r pg q := h.pc.trans hpc
  have hother : ∀ {c p}, s.prog c = p → p ≠ .stopped → c ≠ envx whom := by
    rintro c p rfl hp rfl
    exact hp h.prog
  have hgoto : ∀ {c p}, c ≠ envx whom → Stuck whom s₀ (s.goto c p) := by
    intro c p hc
    have h' := h.goto_other hc (s.box c) p
    rwa [Sys.setBox_box] at h'
  cases hstep with
  | create hp _ _ _ => exact h.goto_other (hother hp (by simp)) _ _
  | destroy hp _ => exact h.goto_other (fun hc => hev (by rw [hc])) _ _
  | @stop c _ _ _ _ =>
    by_cases hc : c = envx whom
    · subst hc
      exact ⟨h.pc, update_self .., h.box⟩
    · exact hgoto hc
  | @call c d hp _ _ =>
    have h' := hgoto (p := .sending s.next d) (hother hp (by simp))
    exact ⟨h'.pc, h'.prog, h'.box⟩
  | @request c n d type pg s₁ hp _ hsend =>
    obtain ⟨e, -, -, -, hrecv, -, rfl⟩ := send_ok hsend
    have h' : Stuck whom s₀ (s.delivered srv c e type (some (.ok 7#32)) (some pg) (some n)) :=
      h.delivered_other hno hrecv
    have hc := hother hp (by simp)
    exact ⟨h'.pc, (update_of_ne hc.symm _ _).trans h'.prog, h'.box⟩
  | requestFail hp _ _ _ => exact hgoto (hother hp (by simp))
  | receive hp _ => exact h.goto_other (hother hp (by simp)) _ _
  | wake hp _ _ => exact hgoto (hother hp (by simp))
  | back hp _ => exact hgoto (hother hp (by simp))
  | send hp _ _ hsend =>
    obtain ⟨e, -, -, -, hrecv, -, rfl⟩ := send_ok hsend
    exact h.delivered_other hno hrecv
  | listen hp _ => exact h.goto_other (hother hp (by simp)) _ _
  | heard hp _ _ => exact hgoto (hother hp (by simp))
  | recv hw => exact absurd (hat.symm.trans hw) (by simp)
  | ignore hreq _ => exact absurd (hat.symm.trans hreq.1) (by simp)
  | handle hreq _ => exact absurd (hat.symm.trans hreq.1) (by simp)
  | fault hreq _ _ => exact absurd (hat.symm.trans hreq.1) (by simp)
  | reply hw _ hsend =>
    cases hat.symm.trans hw
    cases (h.send_eq hlive hid hno).symm.trans hsend
  | replyFail hw _ hsend hx =>
    cases hat.symm.trans hw
    cases (h.send_eq hlive hid hno).symm.trans hsend
    exact absurd rfl hx
  | unmap hw => exact absurd (hat.symm.trans hw) (by simp)

/-- **A reply to a client that has stopped is never over**: whatever happens, short of the end of
that client, the server does not get to its next request. -/
theorem stuck_at_reply (hstop : s₀.prog (envx whom) = .stopped)
    (hrun : Lts.Run (Step srv) (fun _ ev => ev ≠ .destroy (envx whom)) s₀ s) : s.pc = s₀.pc :=
  (hrun.inv (I := Stuck whom s₀) ⟨rfl, hstop, rfl⟩
    fun _ _ _ h hev hstep => h.step hpc hlive hid hno hev hstep).pc

end Stuck

/-- The client stops after its request. -/
def abandoned : Sys := (asked.goto client .stopped).answer

/-- **The server is stuck** if a client stops receiving. -/
theorem stuck_without_receiver : ∃ s, quiet.Start fs ∧ Lts.Run (Step fs) Lts.anyEvent quiet s ∧
    (∃ whom r pg req, s.pc = .reply whom r pg req ∧ s.Undeliverable whom) ∧
    ∀ s', Lts.Run (Step fs) (fun _ ev => ev ≠ .destroy client) s s' → s'.pc = s.pc := by
  have hasked : Lts.Run (Step fs) Lts.anyEvent quiet asked := run_asked trivial trivial trivial
  have hstop := hasked.snoc trivial
    (Step.stop (c := client) (by decide) (by rw [asked_prog]; simp) (by rw [asked_prog]; simp)
      (by rw [asked_prog]; simp))
  have hrun : Lts.Run (Step fs) Lts.anyEvent quiet abandoned :=
    hstop.snoc trivial (Step.handle (r := 5#32) ⟨rfl, rfl⟩ (by decide))
  exact ⟨abandoned, quiet_start, hrun, ⟨_, _, _, _, rfl, .inr (.inr rfl)⟩,
    fun s' h => stuck_at_reply rfl rfl rfl rfl rfl h⟩

end Jos.Serve
