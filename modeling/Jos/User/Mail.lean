import Jos.Kern.Ipc

/-!
# Mailboxes

What environments see of IPC: an environment has room for one message, which another can
put there while it waits for one.  `Box` is the part of `struct Env` that this takes, and
`trySend` is `sys_ipc_try_send` on boxes alone.

* `sysIpcTrySend_box` — the system call of the kernel does to the boxes what `trySend` says,
  and returns its result.
-/

namespace Jos.User

/-- What the record of an environment has to do with messages. -/
structure Box where
  /-- `env_status` is not `ENV_FREE` -/
  live : Bool
  id : Word
  recving : Bool
  dstva : Word
  /-- `env_ipc_from` -/
  sender : Word
  value : Word
  perm : Word

/-- All environments' boxes. -/
abbrev Boxes := EnvIdx → Box

namespace Box

/-- The environment waits for a message. -/
def Receiving (b : Box) : Prop := b.recving = true ∧ b.sender = 0#32

instance (b : Box) : Decidable b.Receiving := inferInstanceAs (Decidable (_ ∧ _))

/-- `sys_ipc_recv(dstva)`. -/
def listen (b : Box) (dstva : Word) : Box :=
  { b with recving := true, dstva := dstva, sender := 0#32 }

/-- A message arrives; `perm` is that of the page that came with it. -/
def deliver (b : Box) (me value : Word) (perm : Option Word) : Box :=
  { b with recving := false, sender := me, value := value, perm := perm.getD b.perm }

end Box

/-- What becomes of the page that is to be sent: it cannot be sent, or is mapped with these
permissions.  There is none if `srcva` is not below `UTOP`. -/
abbrev Attached := Option (Except Errno Word)

/-- The permissions of the page the receiver gets: it may not have asked for one.  A page that is
mapped at `UTOP` or above changes what all environments see there; boxes do not show that. -/
def transferred (b : Box) : Attached → Option Word
  | some (.ok perm) => if b.dstva = 0#32 then none else some perm
  | _ => none

/-- `sys_ipc_try_send(envid, value, …)` by the environment with id `me`; `envid` is not 0. -/
def trySend (b : Boxes) (me envid value : Word) (page : Attached) : Except Errno Boxes :=
  let e := envx envid
  if (b e).live = false ∨ (b e).id ≠ envid then .error .badEnv
  else if ¬ (b e).Receiving then .error .ipcNotRecv
  else match page with
    | some (.error r) => .error r
    | _ => .ok (Function.update b e ((b e).deliver me value (transferred (b e) page)))

section

variable {b b' : Boxes} {me envid value : Word} {page : Attached}

/-- Whoever gets a message exists, and waits for it. -/
theorem trySend_ok : trySend b me envid value page = .ok b' ↔
    (b (envx envid)).live = true ∧ (b (envx envid)).id = envid ∧ (b (envx envid)).Receiving ∧
      (∀ r, page ≠ some (.error r)) ∧ b' = Function.update b (envx envid)
        ((b (envx envid)).deliver me value (transferred (b (envx envid)) page)) := by
  unfold trySend
  dsimp only
  split
  · next hbad =>
    refine iff_of_false (by simp) ?_
    rintro ⟨hlive, hid, -⟩
    rcases hbad with hdead | hother
    · exact Bool.false_ne_true (hdead.symm.trans hlive)
    · exact hother hid
  next hfound =>
  rw [not_or, Bool.not_eq_false, not_not] at hfound
  split
  · next hnot => exact iff_of_false (by simp) fun h => hnot h.2.2.1
  next hrecv =>
  rw [not_not] at hrecv
  split
  · next r => exact iff_of_false (by simp) fun h => h.2.2.2.1 r rfl
  · next hpage =>
    rw [Except.ok.injEq]
    exact ⟨fun h => ⟨hfound.1, hfound.2, hrecv, hpage, h.symm⟩, fun h => h.2.2.2.2.symm⟩

/-- A message does not get through for one of three reasons. -/
theorem trySend_error {r : Errno} (h : trySend b me envid value page = .error r) :
    (r = .badEnv ∧ ((b (envx envid)).live = false ∨ (b (envx envid)).id ≠ envid)) ∨
      (r = .ipcNotRecv ∧ ¬ (b (envx envid)).Receiving) ∨ page = some (.error r) := by
  unfold trySend at h
  dsimp only at h
  split at h
  · next hbad => exact .inl ⟨by simpa using h.symm, hbad⟩
  split at h
  · next hnot => exact .inr (.inl ⟨by simpa using h.symm, hnot⟩)
  split at h
  · next r' => exact .inr (.inr (by rw [show r' = r by simpa using h]))
  · simp at h

end

/-! ## The kernel's boxes -/

/-- The boxes in the kernel's records. -/
def boxes (k : Kernel) : Boxes := fun e =>
  { live := (k.envs e).envStatus ≠ .free
    id := (k.envs e).envId
    recving := (k.envs e).envIpcRecving
    dstva := (k.envs e).envIpcDstva
    sender := (k.envs e).envIpcFrom
    value := (k.envs e).envIpcValue
    perm := (k.envs e).envIpcPerm }

variable {k k' : Kernel} {c e : EnvIdx}

theorem receiving_boxes : (boxes k e).Receiving ↔ k.Receiving e := Iff.rfl

theorem boxes_deliver (hlive : (k.envs e).envStatus ≠ .free) (value : Word) (perm : Option Word) :
    boxes (k.deliver c e value perm) =
      Function.update (boxes k) e ((boxes k e).deliver (k.envs c).envId value perm) := by
  funext e'
  by_cases he : e' = e
  · subst he
    rw [Function.update_self]
    simp [boxes, Kernel.deliver, Kernel.modifyEnv, Box.deliver, hlive]
  · rw [Function.update_of_ne he]
    simp [boxes, Kernel.deliver, Kernel.modifyEnv, he]

theorem serveAccepts_of_permOk {perm : Word} (h : permOk perm = true) :
    serveAccepts perm = true := by
  rw [permOk, Bool.and_eq_true] at h
  exact present_of_grants (grants_of_or h.1).2

/-- **The system call is `trySend` on the boxes.**  Pages are sent only from below `UTOP`, and
then with `PTE_P`. -/
theorem sysIpcTrySend_box {cpu : ℕ} {envid value srcva perm w : Word}
    (hc : k.curenv cpu = some c) (hid : envid ≠ 0#32)
    (hrun : sysIpcTrySend cpu envid value srcva perm k = .ok w k') :
    ∃ page : Attached, (page ≠ none → srcva < UTOP) ∧
      (∀ p, page = some (.ok p) → serveAccepts p = true) ∧
      ((∃ b, trySend (boxes k) (k.envs c).envId envid value page = .ok b ∧ w = 0#32 ∧
          boxes k' = b) ∨
        ∃ r, trySend (boxes k) (k.envs c).envId envid value page = .error r ∧ w = r.ret ∧
          k' = k) := by
  have hfind : envid2env cpu envid false k =
      if (k.envs (envx envid)).envStatus = .free ∨ (k.envs (envx envid)).envId ≠ envid
      then .error .badEnv else .ok (some (envx envid)) := by
    simp [envid2env, hid]
  by_cases hbad : (k.envs (envx envid)).envStatus = .free ∨ (k.envs (envx envid)).envId ≠ envid
  · rw [if_pos hbad] at hfind
    simp only [sysIpcTrySend, withEnv, run_get_bind, hfind] at hrun
    cases hrun
    have hstale : (boxes k (envx envid)).live = false ∨ (boxes k (envx envid)).id ≠ envid := by
      simpa [boxes] using hbad
    exact ⟨none, by simp, by simp, .inr ⟨.badEnv, if_pos hstale, rfl, rfl⟩⟩
  · rw [if_neg hbad] at hfind
    have hfound : ¬ ((boxes k (envx envid)).live = false ∨ (boxes k (envx envid)).id ≠ envid) := by
      simpa [boxes] using hbad
    rw [not_or, not_not] at hbad
    obtain ⟨hlive, hsame⟩ := hbad
    have hlive' : (boxes k (envx envid)).live = true := decide_eq_true hlive
    cases sysIpcTrySend_cases hfind hc hrun with
    | notRecv hnot =>
      refine ⟨none, by simp, by simp, .inr ⟨.ipcNotRecv, ?_, rfl, rfl⟩⟩
      unfold trySend
      rw [if_neg hfound, if_pos (receiving_boxes.not.2 hnot)]
    | @refused r hrecv hlt _ =>
      refine ⟨some (.error r), fun _ => hlt, by simp, .inr ⟨r, ?_, rfl, rfl⟩⟩
      unfold trySend
      rw [if_neg hfound, if_neg (not_not.2 (receiving_boxes.2 hrecv))]
    | plain hrecv _ =>
      refine ⟨none, by simp, by simp, .inl ⟨_, ?_, rfl, boxes_deliver hlive value none⟩⟩
      exact trySend_ok.2 ⟨hlive', hsame, hrecv, by simp, rfl⟩
    | @page r r' pg pte pm hrecv hlt hdst hok _ _ _ _ =>
      have hboxes := boxes_deliver (k := { k with pm := pm }) (c := c) hlive value (some perm)
      refine ⟨some (.ok perm), fun _ => hlt, ?_, .inl ⟨_, ?_, rfl, hboxes⟩⟩
      · rintro p ⟨⟩
        exact serveAccepts_of_permOk hok
      · have hperm : transferred (boxes k (envx envid)) (some (.ok perm)) = some perm := if_neg hdst
        exact trySend_ok.2 ⟨hlive', hsame, hrecv, by simp, by rw [hperm]; rfl⟩

end Jos.User
