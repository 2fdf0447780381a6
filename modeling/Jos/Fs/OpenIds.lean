import Jos.Fs.OpenFile
import Jos.Lib.Lts

/-!
# Ids of open files

The file server hands out ids and shares a descriptor page for each open; what the
clients do with the page afterwards (`dup`, `fork`, `close`) it never hears of.  It reads
from the reference count of the page whether the open is still in use, and the kernel
keeps that count in 16 bits.

* `Sys`, `Step` — the server at each read of a count in `openfile_alloc`, and the clients,
  one system call at a time.  `live` has the opens whose page has been mapped by a client
  ever since, `closed` the ids of those for which this is over.
* `Unambiguous` — an id resolves exactly while its open is live, and to that open.
* `unambiguous` — so it is in all runs in which no page is mapped a 65536th time and none
  comes back as the page of a request, which the server maps too;
  `lookup_fails_while_mapped` is a run of the first kind.
-/

namespace Jos.Opens

open Function (update update_apply update_eq_self update_of_ne update_self)

open User Fs

/-! ## The server and its clients -/

/-- Where the server is in `serve_open`. -/
inductive Pc
  | idle
  /-- the loop of `openfile_alloc`, at entry `i` -/
  | scan (i : ℕ)
  /-- after `openfile_alloc` -/
  | opening (i : Slot)
  /-- `serve_open` has succeeded, and the page is about to be sent -/
  | reply (i : Slot)

/-- An open that succeeded: the id and the page the client got, and the file. -/
structure Open where
  fileid : Word
  page : ℕ
  file : ℕ

/-- The descriptor pages, the server's table, and what has happened so far. -/
structure Sys where
  /-- pages are numbered in the order they were allocated -/
  map : Spaces ℕ
  next : ℕ
  /-- what the pages hold -/
  fds : ℕ → Fd
  tab : Opentab
  pc : Pc
  /-- how often an entry has been taken -/
  uses : Slot → ℕ
  /-- the opens whose page has been mapped by a client ever since -/
  live : Set Open
  /-- the ids of the opens that were live once -/
  closed : Set Word

variable (srv : EnvIdx)

/-- An environment other than the server maps the page. -/
def ClientMaps (m : Spaces ℕ) (p : ℕ) : Prop := ∃ e v, e ≠ srv ∧ m (e, v) = some p

namespace Sys

/-- The server goes on at `pc`. -/
def goto (s : Sys) (pc : Pc) : Sys := { s with pc := pc }

/-- Other mappings, which may end some opens. -/
def setMap (s : Sys) (m : Spaces ℕ) : Sys :=
  { s with
    map := m
    live := {o | o ∈ s.live ∧ ClientMaps srv m o.page}
    closed := {id | id ∈ s.closed ∨ ∃ o ∈ s.live, o.fileid = id ∧ ¬ ClientMaps srv m o.page} }

/-- `sys_page_alloc(0, opentab[i].o_fd, …)`. -/
def allocPage (s : Sys) (i : Slot) : Sys :=
  { s.setMap srv (update s.map (srv, fdPage i) (some s.next)) with next := s.next + 1 }

/-- The end of `openfile_alloc`; its result is an `int`, and an error if negative. -/
def take (s : Sys) (i : Slot) (p : ℕ) : Sys :=
  { s with
    tab := takeEntry s.tab i
    fds := update s.fds p .zero
    uses := update s.uses i (s.uses i + 1)
    pc := if (takeEntry s.tab i i).fileid.toInt < 0 then .idle else .opening i }

theorem take_pc {s : Sys} {i : Slot} {p : ℕ} (h : ¬ (takeEntry s.tab i i).fileid.toInt < 0) :
    (s.take i p).pc = .opening i :=
  if_neg h

/-- The end of `serve_open`: save the file, and fill out the `struct Fd`. -/
def fill (s : Sys) (i : Slot) (p : ℕ) (f : ℕ) (omode : Word) : Sys :=
  { s with
    tab := update s.tab i { s.tab i with file := f, mode := omode }
    fds := update s.fds p
      { s.fds p with id := (s.tab i).fileid, omode := omode &&& 3#32, devId := 0x66#32 }
    pc := .reply i }

/-- The client that asked maps the page at `(c, v)`, with the id that is in it. -/
def deliver (s : Sys) (i : Slot) (p : ℕ) (c : EnvIdx) (v : Vpn) : Sys :=
  let s' := s.setMap srv (update s.map (c, v) (some p))
  { s' with
    live := insert ⟨(s.fds p).id, p, (s.tab i).file⟩ s'.live
    pc := .idle }

/-- The reference counts of the entries' pages. -/
def ref (s : Sys) (i : Slot) : ℕ := s.map.pageref srv (fdPage i)

/-- `openfile_lookup` in this state. -/
def lookup (s : Sys) (fileid : Word) : Except Errno Slot := openfileLookup (s.ref srv) s.tab fileid

/-- After `serve_init`. -/
structure Start (s : Sys) : Prop where
  map : ∀ x, s.map x = none
  tab : s.tab = serveInit opentab
  pc : s.pc = .idle
  uses : ∀ i, s.uses i = 0
  live : s.live = ∅
  closed : s.closed = ∅

end Sys

/-- What happens. -/
inductive Event
  /-- a request to open a file, and what the server does about it -/
  | request
  | turn (i : Slot)
  | full
  | noMem (i : Slot)
  | refuse (i : Slot)
  | fill (i : Slot) (f : ℕ) (omode : Word)
  | deliver (i : Slot) (c : EnvIdx) (v : Vpn)
  /-- the client did not ask for a page -/
  | drop (i : Slot)
  /-- a client maps its page at `(e, v)` at `(e', v')` too: `dup`, `fork` -/
  | share (e : EnvIdx) (v : Vpn) (e' : EnvIdx) (v' : Vpn)
  /-- a client unmaps a page: `close`, its end -/
  | unmap (e : EnvIdx) (v : Vpn)
  /-- a client sends the page it has at `(e, v)` along with a request of any kind -/
  | argument (e : EnvIdx) (v : Vpn)
  /-- the server is done with that request -/
  | done

/-- One step. -/
inductive Step (s : Sys) : Event → Sys → Prop
  | request : s.pc = .idle → Step s .request (s.goto (.scan 0))
  | busy {i : Slot} : s.pc = .scan i.val → turn (s.ref srv i) = .next →
      Step s (.turn i) (s.goto (.scan (i.val + 1)))
  | alloc {i : Slot} : s.pc = .scan i.val → turn (s.ref srv i) = .alloc →
      Step s (.turn i) ((s.allocPage srv i).take i s.next)
  | take {i : Slot} {p : ℕ} : s.pc = .scan i.val → turn (s.ref srv i) = .take →
      s.map (srv, fdPage i) = some p → Step s (.turn i) (s.take i p)
  | full : s.pc = .scan MAXOPEN → Step s .full (s.goto .idle)
  | noMem {i : Slot} : s.pc = .scan i.val → turn (s.ref srv i) = .alloc →
      Step s (.noMem i) (s.goto .idle)
  -- `file_create`, `file_open` or `file_set_size` failed
  | refuse {i : Slot} : s.pc = .opening i → Step s (.refuse i) (s.goto .idle)
  | fill {i : Slot} {p f : ℕ} {omode : Word} : s.pc = .opening i →
      s.map (srv, fdPage i) = some p → Step s (.fill i f omode) (s.fill i p f omode)
  | deliver {i : Slot} {p : ℕ} {c : EnvIdx} {v : Vpn} : s.pc = .reply i → c ≠ srv →
      v.val < utopPage → s.map (srv, fdPage i) = some p →
      Step s (.deliver i c v) (s.deliver srv i p c v)
  | drop {i : Slot} : s.pc = .reply i → Step s (.drop i) (s.goto .idle)
  | share {e e' : EnvIdx} {v v' : Vpn} {p : ℕ} : e ≠ srv → e' ≠ srv → v'.val < utopPage →
      s.map (e, v) = some p →
      Step s (.share e v e' v') (s.setMap srv (update s.map (e', v') (some p)))
  | unmap {e : EnvIdx} {v : Vpn} : e ≠ srv →
      Step s (.unmap e v) (s.setMap srv (update s.map (e, v) none))
  -- the page stays at `fsreq` while the server handles the request
  | argument {e : EnvIdx} {v : Vpn} {p : ℕ} : s.pc = .idle → e ≠ srv → s.map (e, v) = some p →
      Step s (.argument e v) (s.setMap srv (update s.map (srv, fsreqPage) (some p)))
  | done : s.pc = .idle → Step s .done (s.setMap srv (update s.map (srv, fsreqPage) none))

/-- Clients do not map a page that is mapped 65535 times already, and do not send a descriptor
page as the page of a request. -/
def Sys.Careful (s : Sys) : Event → Prop
  | .share e v _ _ => ∀ p, s.map (e, v) = some p → refs s.map p < 65535
  | .argument _ _ => False
  | _ => True

/-- **Ids are unambiguous**: an id resolves exactly while its open is live, to the entry with that
open's page and file; no entry is taken while a client maps its page; a closed id does not
resolve. -/
structure Unambiguous (s : Sys) : Prop where
  lookup_iff : ∀ id, (∃ i, s.lookup srv id = .ok i) ↔ ∃ o ∈ s.live, o.fileid = id
  lookup_live : ∀ o ∈ s.live, ∃ i, s.lookup srv o.fileid = .ok i ∧ (s.tab i).file = o.file ∧
    s.map (srv, fdPage i) = some o.page
  take : ∀ (i : Slot) (p : ℕ), s.pc = .scan i.val → turn (s.ref srv i) ≠ .next →
    s.map (srv, fdPage i) = some p → ¬ ClientMaps srv s.map p
  closed : ∀ id ∈ s.closed, ∀ i, s.lookup srv id ≠ .ok i

/-! ## What every step keeps -/

variable {srv} {s s' : Sys}

/-- The server is between `openfile_alloc` and its reply for entry `i`. -/
def Pc.Busy (i : Slot) (pc : Pc) : Prop := pc = .opening i ∨ pc = .reply i

variable (srv) in
/-- The invariant. -/
structure Inv (s : Sys) : Prop where
  /-- the server maps descriptor pages only, and each once -/
  own : ∀ v p, s.map (srv, v) = some p → ∃ i, v = fdPage i
  once : ∀ v v' p, s.map (srv, v) = some p → s.map (srv, v') = some p → v = v'
  /-- what clients map, they have from the server -/
  client : ∀ p, ClientMaps srv s.map p → ∃ i, s.map (srv, fdPage i) = some p
  fresh : ∀ v p, s.map (srv, v) = some p → p < s.next
  small : ∀ p, refs s.map p < 65536
  fileid : ∀ i, (s.tab i).fileid.toNat = i.val + 1024 * s.uses i
  busy : ∀ i, s.pc.Busy i → ∃ p, s.map (srv, fdPage i) = some p ∧ ¬ ClientMaps srv s.map p
  filled : ∀ i p, s.pc = .reply i → s.map (srv, fdPage i) = some p →
    (s.fds p).id = (s.tab i).fileid
  live : ∀ o, o ∈ s.live ↔ ∃ i, s.map (srv, fdPage i) = some o.page ∧
    (s.tab i).fileid = o.fileid ∧ (s.tab i).file = o.file ∧ ClientMaps srv s.map o.page
  /-- a closed id is older than the entry's id, or the entry waits for its next use -/
  closed : ∀ id ∈ s.closed, ∃ i : Slot, id.toNat % 1024 = i.val ∧
    (id.toNat < (s.tab i).fileid.toNat ∨
      id = (s.tab i).fileid ∧ ¬ s.pc.Busy i ∧
        ∀ p, s.map (srv, fdPage i) = some p → ¬ ClientMaps srv s.map p)

namespace Inv

variable {i j : Slot} {p q : ℕ}

theorem of_start (h : s.Start) : Inv srv s := by
  have hno : ∀ p, ¬ ClientMaps srv s.map p := by
    rintro p ⟨e, v, -, hv⟩
    rw [h.map] at hv
    exact Option.some_ne_none _ hv.symm
  have hnone : ∀ {v p}, s.map (srv, v) ≠ some p := by
    intro v p
    rw [h.map]
    simp
  refine ⟨fun _ _ hv => absurd hv hnone, fun _ _ _ hv => absurd hv hnone,
    fun p hp => absurd hp (hno p), fun _ _ hv => absurd hv hnone, ?_, ?_, ?_, ?_, ?_, ?_⟩
  · intro p
    rw [refs_eq_zero.2 fun x => by rw [h.map]; simp]
    decide
  · intro i
    have := i.isLt
    rw [h.tab, h.uses]
    simp only [serveInit, BitVec.toNat_ofNat]
    omega
  · rintro i (hpc | hpc) <;> rw [h.pc] at hpc <;> cases hpc
  · intro i p hpc
    rw [h.pc] at hpc
    cases hpc
  · intro o
    rw [h.live]
    refine iff_of_false (Set.notMem_empty o) ?_
    rintro ⟨i, hi, -⟩
    exact hnone hi
  · intro id hid
    rw [h.closed] at hid
    exact absurd hid (Set.notMem_empty id)

/-- The server's page of an entry is no other entry's. -/
theorem slot_unique (h : Inv srv s) (hi : s.map (srv, fdPage i) = some p)
    (hj : s.map (srv, fdPage j) = some p) : i = j :=
  fdPage_injective (h.once _ _ _ hi hj)

/-! ### What the counts say -/

theorem ref_eq_one (h : Inv srv s) (hi : s.map (srv, fdPage i) = some p)
    (hno : ¬ ClientMaps srv s.map p) : refs s.map p = 1 := by
  refine refs_eq_one hi ?_
  rintro ⟨e, v⟩ hv
  by_cases he : e = srv
  · subst he
    rw [h.once _ _ _ hv hi]
  · exact absurd ⟨e, v, he, hv⟩ hno

theorem one_lt_ref (h : Inv srv s) (hi : s.map (srv, fdPage i) = some p) :
    1 < s.ref srv i ↔ ClientMaps srv s.map p := by
  rw [Sys.ref, Spaces.pageref_of_some hi (h.small p)]
  constructor
  · intro hlt
    by_contra hno
    rw [h.ref_eq_one hi hno] at hlt
    exact absurd hlt (lt_irrefl 1)
  · rintro ⟨e, v, he, hv⟩
    have h0 := refs_ne_zero hi
    have h1 : refs s.map p ≠ 1 := fun h1 =>
      he (congrArg Prod.fst (eq_of_refs_eq_one h1 hv hi))
    omega

theorem ref_eq_zero (h : Inv srv s) : s.ref srv i = 0 ↔ s.map (srv, fdPage i) = none := by
  constructor
  · intro h0
    by_contra hne
    obtain ⟨p, hp⟩ := Option.ne_none_iff_exists'.1 hne
    rw [Sys.ref, Spaces.pageref_of_some hp (h.small p)] at h0
    exact refs_ne_zero hp h0
  · intro hnone
    rw [Sys.ref, Spaces.pageref, hnone]

/-! ### Steps of the server -/

/-- A move of the server to where it has no page in hand. -/
theorem goto (h : Inv srv s) {pc : Pc} (hpc : ∀ i, ¬ pc.Busy i) : Inv srv (s.goto pc) where
  own := h.own
  once := h.once
  client := h.client
  fresh := h.fresh
  small := h.small
  fileid := h.fileid
  busy := fun i hi => absurd hi (hpc i)
  filled := fun i _ hi => absurd (.inr hi) (hpc i)
  live := h.live
  closed := by
    intro id hid
    obtain ⟨i, hi, hold⟩ := h.closed id hid
    exact ⟨i, hi, hold.imp_right fun ⟨heq, _, hno⟩ => ⟨heq, hpc i, hno⟩⟩

theorem not_busy_idle (i : Slot) : ¬ Pc.Busy i .idle := by
  rintro (h | h) <;> cases h

theorem not_busy_scan (n : ℕ) (i : Slot) : ¬ Pc.Busy i (.scan n) := by
  rintro (h | h) <;> cases h

/-- The server, with the page of entry `i` in hand, which no client maps, writes to the entry and
to the page: the id stays or grows. -/
theorem entry (h : Inv srv s) (hi : s.map (srv, fdPage i) = some p)
    (hno : ¬ ClientMaps srv s.map p) {tab : Opentab} {fds : ℕ → Fd} {uses : Slot → ℕ} {pc : Pc}
    (htab : ∀ j, j ≠ i → tab j = s.tab j)
    (hfileid : ∀ j, (tab j).fileid.toNat = j.val + 1024 * uses j)
    (hbusy : ∀ j, pc.Busy j → j = i) (hfilled : pc = .reply i → (fds p).id = (tab i).fileid)
    (hid : (s.tab i).fileid.toNat < (tab i).fileid.toNat ∨
      (tab i).fileid = (s.tab i).fileid ∧ s.pc.Busy i) :
    Inv srv { s with tab := tab, fds := fds, uses := uses, pc := pc } := by
  refine ⟨h.own, h.once, h.client, h.fresh, h.small, hfileid, ?_, ?_, ?_, ?_⟩
  · intro j hj
    rw [hbusy j hj]
    exact ⟨p, hi, hno⟩
  · intro j q hj hq
    obtain rfl := hbusy j (.inr hj)
    obtain rfl := Option.some.inj (hi.symm.trans hq)
    exact hfilled hj
  · -- the entry's page belongs to no open, so that its new contents do not show
    intro o
    refine (h.live o).trans (exists_congr fun j => and_congr_right fun hj => ?_)
    by_cases hc : ClientMaps srv s.map o.page
    · have hji : j ≠ i := by
        rintro rfl
        exact hno (Option.some.inj (hj.symm.trans hi) ▸ hc)
      simp only [htab j hji]
    · exact iff_of_false (fun hr => hc hr.2.2) fun hr => hc hr.2.2
  · intro id hclosed
    obtain ⟨j, hj, hcases⟩ := h.closed id hclosed
    refine ⟨j, hj, ?_⟩
    by_cases hji : j = i
    · subst hji
      left
      rcases hid with hlt | ⟨hsame, hb⟩
      · exact lt_of_le_of_lt (hcases.elim le_of_lt fun hr => le_of_eq (congrArg _ hr.1)) hlt
      · exact hsame ▸ hcases.resolve_right fun hr => hr.2.1 hb
    · simp only [htab j hji]
      exact hcases.imp_right fun ⟨heq, _, hq⟩ => ⟨heq, fun hb => hji (hbusy j hb), hq⟩

/-- An entry gets its next id. -/
theorem take (h : Inv srv s) (hi : s.map (srv, fdPage i) = some p)
    (hno : ¬ ClientMaps srv s.map p) (huses : s.uses i + 1 < 2 ^ 21) : Inv srv (s.take i p) := by
  have hlt := i.isLt
  have hold := h.fileid i
  have hnew : (takeEntry s.tab i i).fileid.toNat = i.val + 1024 * (s.uses i + 1) := by
    simp only [takeEntry, update_self, BitVec.toNat_add, BitVec.toNat_ofNat, MAXOPEN]
    omega
  have hpos : ¬ (takeEntry s.tab i i).fileid.toInt < 0 := by
    rw [BitVec.toInt_eq_toNat_of_lt (by omega)]
    omega
  have htab : ∀ j, j ≠ i → takeEntry s.tab i j = s.tab j := fun j hj =>
    update_of_ne hj _ _
  refine h.entry hi hno htab ?_ ?_ ?_ (.inl (by omega))
  · intro j
    by_cases hj : j = i
    · subst hj
      rw [hnew, update_self]
    · rw [htab j hj, update_of_ne hj]
      exact h.fileid j
  · intro j hj
    rw [if_neg hpos] at hj
    rcases hj with hj | hj <;> cases hj
    rfl
  · intro hj
    rw [if_neg hpos] at hj
    cases hj

/-- A page for an entry that has none. -/
theorem allocPage (h : Inv srv s) (hpc : ∀ j, ¬ s.pc.Busy j)
    (hnone : s.map (srv, fdPage i) = none) : Inv srv (s.allocPage srv i) ∧
      (s.allocPage srv i).map (srv, fdPage i) = some s.next ∧
      ¬ ClientMaps srv (s.allocPage srv i).map s.next := by
  have hself : (s.allocPage srv i).map (srv, fdPage i) = some s.next := update_self ..
  have hne : ∀ x, x ≠ (srv, fdPage i) → (s.allocPage srv i).map x = s.map x := fun x hx =>
    update_of_ne hx _ _
  have hclient : ∀ q, ClientMaps srv (s.allocPage srv i).map q ↔ ClientMaps srv s.map q := by
    intro q
    refine exists_congr fun e => exists_congr fun v => and_congr_right fun he => ?_
    rw [hne _ fun heq => he (congrArg Prod.fst heq)]
  have hsrv : ∀ v q, (s.allocPage srv i).map (srv, v) = some q →
      v = fdPage i ∧ q = s.next ∨ v ≠ fdPage i ∧ s.map (srv, v) = some q := by
    intro v q hv
    by_cases heq : v = fdPage i
    · subst heq
      exact .inl ⟨rfl, Option.some.inj (hv.symm.trans hself)⟩
    · rw [hne _ fun hx => heq (congrArg Prod.snd hx)] at hv
      exact .inr ⟨heq, hv⟩
  have hkeep : ∀ v q, s.map (srv, v) = some q → (s.allocPage srv i).map (srv, v) = some q := by
    intro v q hv
    rw [hne _ ?_, hv]
    rintro ⟨⟩
    exact Option.some_ne_none q (hv.symm.trans hnone)
  have hnew : ¬ ClientMaps srv s.map s.next := by
    intro hc
    obtain ⟨j, hj⟩ := h.client _ hc
    exact lt_irrefl _ (h.fresh _ _ hj)
  have hlive : ∀ o, o ∈ (s.allocPage srv i).live ↔ o ∈ s.live := by
    intro o
    refine ⟨And.left, fun ho => ⟨ho, (hclient _).2 ?_⟩⟩
    obtain ⟨j, -, -, -, hc⟩ := (h.live o).1 ho
    exact hc
  refine ⟨⟨?_, ?_, ?_, ?_, ?_, h.fileid, fun j hj => absurd hj (hpc j),
    fun j _ hj => absurd (.inr hj) (hpc j), ?_, ?_⟩, hself, (hclient _).not.2 hnew⟩
  · intro v q hv
    rcases hsrv v q hv with ⟨rfl, -⟩ | ⟨-, hold⟩
    · exact ⟨i, rfl⟩
    · exact h.own v q hold
  · intro v v' q hv hv'
    rcases hsrv v q hv with ⟨rfl, rfl⟩ | ⟨-, hold⟩ <;>
      rcases hsrv v' _ hv' with ⟨rfl, hq⟩ | ⟨-, hold'⟩
    · rfl
    · exact absurd (h.fresh _ _ hold') (lt_irrefl _)
    · exact absurd (h.fresh _ _ hold) (hq ▸ lt_irrefl _)
    · exact h.once _ _ _ hold hold'
  · intro q hq
    obtain ⟨j, hj⟩ := h.client q ((hclient q).1 hq)
    exact ⟨j, hkeep _ _ hj⟩
  · intro v q hv
    show q < s.next + 1
    rcases hsrv v q hv with ⟨-, rfl⟩ | ⟨-, hold⟩
    · omega
    · have := h.fresh _ _ hold
      omega
  · intro q
    by_cases hq : q = s.next
    · have h0 : refs s.map q = 0 := by
        refine refs_eq_zero.2 ?_
        rintro ⟨e, v⟩ hv
        subst hq
        by_cases he : e = srv
        · subst he
          exact lt_irrefl _ (h.fresh _ _ hv)
        · exact hnew ⟨e, v, he, hv⟩
      have := refs_update_le s.map (srv, fdPage i) (some s.next) q
      show refs (update s.map (srv, fdPage i) (some s.next)) q < 65536
      omega
    · refine lt_of_le_of_lt (refs_update_le_of_ne _ _ ?_) (h.small q)
      exact fun heq => hq (Option.some.inj heq).symm
  · intro o
    rw [hlive, h.live o]
    refine exists_congr fun j => ?_
    constructor
    · rintro ⟨hj, hid, hf, hc⟩
      exact ⟨hkeep _ _ hj, hid, hf, (hclient _).2 hc⟩
    · rintro ⟨hj, hid, hf, hc⟩
      refine ⟨?_, hid, hf, (hclient _).1 hc⟩
      rcases hsrv _ _ hj with ⟨-, hnext⟩ | ⟨-, hold⟩
      · exact absurd ((hclient _).1 hc) (hnext ▸ hnew)
      · exact hold
  · rintro id (hid | ⟨o, ho, -, hc⟩)
    · obtain ⟨j, hj, hcases⟩ := h.closed id hid
      refine ⟨j, hj, hcases.imp_right fun ⟨heq, hb, hno⟩ => ⟨heq, hb, fun q hq => ?_⟩⟩
      rw [hclient]
      rcases hsrv _ _ hq with ⟨-, rfl⟩ | ⟨-, hold⟩
      · exact hnew
      · exact hno q hold
    · exact absurd ((hlive o).2 ho).2 hc

/-- The `struct Fd` is filled out. -/
theorem fill (h : Inv srv s) (hpc : s.pc = .opening i) (hi : s.map (srv, fdPage i) = some p)
    (f : ℕ) (omode : Word) : Inv srv (s.fill i p f omode) := by
  have hid : ∀ j, (update s.tab i { s.tab i with file := f, mode := omode } j).fileid =
      (s.tab j).fileid := by
    intro j
    by_cases hj : j = i
    · subst hj
      rw [update_self]
    · rw [update_of_ne hj]
  have hno : ¬ ClientMaps srv s.map p := by
    obtain ⟨q, hq, hno⟩ := h.busy i (.inl hpc)
    rwa [Option.some.inj (hi.symm.trans hq)]
  refine h.entry hi hno (fun j hj => update_of_ne hj _ _) ?_ ?_ ?_ (.inr ⟨hid i, .inl hpc⟩)
  · intro j
    rw [hid]
    exact h.fileid j
  · rintro j (hj | hj) <;> cases hj
    rfl
  · intro _
    rw [hid, update_self]

/-! ### Steps that change what clients map -/

/-- A change of mappings in which no page comes to a client that had none. -/
theorem setMap (h : Inv srv s) {m : Spaces ℕ} (hsrv : ∀ v, m (srv, v) = s.map (srv, v))
    (hclient : ∀ q, ClientMaps srv m q → ClientMaps srv s.map q)
    (hsmall : ∀ q, refs m q < 65536) : Inv srv (s.setMap srv m) := by
  refine ⟨?_, ?_, ?_, ?_, hsmall, h.fileid, ?_, ?_, ?_, ?_⟩
  · intro v p hv
    exact h.own v p ((hsrv v).symm.trans hv)
  · intro v v' p hv hv'
    exact h.once v v' p ((hsrv v).symm.trans hv) ((hsrv v').symm.trans hv')
  · intro p hp
    obtain ⟨i, hi⟩ := h.client p (hclient p hp)
    exact ⟨i, (hsrv _).trans hi⟩
  · intro v p hv
    exact h.fresh v p ((hsrv v).symm.trans hv)
  · intro i hi
    obtain ⟨p, hp, hno⟩ := h.busy i hi
    exact ⟨p, (hsrv _).trans hp, fun hc => hno (hclient p hc)⟩
  · intro i p hi hp
    exact h.filled i p hi ((hsrv _).symm.trans hp)
  · intro o
    constructor
    · rintro ⟨ho, hc⟩
      obtain ⟨i, hi, hid, hf, -⟩ := (h.live o).1 ho
      exact ⟨i, (hsrv _).trans hi, hid, hf, hc⟩
    · rintro ⟨i, hi, hid, hf, hc⟩
      exact ⟨(h.live o).2 ⟨i, (hsrv _).symm.trans hi, hid, hf, hclient _ hc⟩, hc⟩
  · rintro id (hid | ⟨o, ho, rfl, hc⟩)
    · obtain ⟨i, hi, hcases⟩ := h.closed id hid
      refine ⟨i, hi, hcases.imp_right fun ⟨heq, hb, hno⟩ => ⟨heq, hb, fun p hp => ?_⟩⟩
      exact fun hc => hno p ((hsrv _).symm.trans hp) (hclient p hc)
    · -- the open ends here: the entry keeps its id until it is taken again
      obtain ⟨i, hi, hid, -, hold⟩ := (h.live o).1 ho
      have hfileid := h.fileid i
      refine ⟨i, ?_, .inr ⟨hid.symm, fun hb => ?_, fun p hp => ?_⟩⟩
      · rw [← hid]
        omega
      · obtain ⟨q, hq, hno⟩ := h.busy i hb
        exact hno (Option.some.inj (hi.symm.trans hq) ▸ hold)
      · rwa [← Option.some.inj (hi.symm.trans ((hsrv _).symm.trans hp))]

theorem setMap_srv {e : EnvIdx} {v : Vpn} {x : Option ℕ} (he : e ≠ srv) (u : Vpn) :
    update s.map (e, v) x (srv, u) = s.map (srv, u) :=
  update_of_ne (fun heq => he (congrArg Prod.fst heq).symm) _ _

/-- A client maps a page it has once more, or unmaps one. -/
theorem clientUpdate (h : Inv srv s) {e : EnvIdx} {v : Vpn} {x : Option ℕ} (he : e ≠ srv)
    (hx : ∀ p, x = some p → ClientMaps srv s.map p ∧ refs s.map p < 65535) :
    Inv srv (s.setMap srv (update s.map (e, v) x)) := by
  refine h.setMap (setMap_srv he) ?_ ?_
  · rintro q ⟨e', v', he', hq⟩
    by_cases heq : (e', v') = (e, v)
    · rw [heq, update_self] at hq
      exact (hx q hq).1
    · rw [update_of_ne heq] at hq
      exact ⟨e', v', he', hq⟩
  · intro q
    by_cases hq : x = some q
    · have := refs_update_le s.map (e, v) x q
      have := (hx q hq).2
      omega
    · exact lt_of_le_of_lt (refs_update_le_of_ne _ _ hq) (h.small q)

/-- The page of an open reaches the client. -/
theorem deliver (h : Inv srv s) (hpc : s.pc = .reply i) (hi : s.map (srv, fdPage i) = some p)
    {c : EnvIdx} (hc : c ≠ srv) (v : Vpn) : Inv srv (s.deliver srv i p c v) := by
  -- first what was at that place goes, as with `unmap`, and then the page comes
  have hno : ¬ ClientMaps srv s.map p := by
    obtain ⟨q, hq, hno⟩ := h.busy i (.inr hpc)
    rwa [Option.some.inj (hi.symm.trans hq)]
  have h' := h.clientUpdate (v := v) (x := none) hc fun p hp => absurd hp.symm (by simp)
  have hne : ∀ x, x ≠ (c, v) → (s.deliver srv i p c v).map x = s.map x := fun x hx =>
    update_of_ne hx _ _
  have hsrv : ∀ u, (s.deliver srv i p c v).map (srv, u) = s.map (srv, u) := setMap_srv hc
  have hself : (s.deliver srv i p c v).map (c, v) = some p := update_self ..
  have hnew : ClientMaps srv (s.deliver srv i p c v).map p := ⟨c, v, hc, hself⟩
  have hclient : ∀ q, q ≠ p → (ClientMaps srv (s.deliver srv i p c v).map q ↔
      ClientMaps srv (update s.map (c, v) none) q) := by
    intro q hq
    refine exists_congr fun e => exists_congr fun u => and_congr_right fun _ => ?_
    by_cases heq : (e, u) = (c, v)
    · rw [heq, hself, update_self]
      exact iff_of_false (fun hp => hq (Option.some.inj hp).symm) (by simp)
    · rw [hne _ heq, update_of_ne heq]
  have hpage : ∀ o ∈ s.live, o.page ≠ p := by
    rintro o ho rfl
    obtain ⟨j, -, -, -, hold⟩ := (h.live o).1 ho
    exact hno hold
  refine ⟨?_, ?_, ?_, ?_, ?_, h.fileid, fun j hj => absurd hj (not_busy_idle j), ?_, ?_, ?_⟩
  · intro u q hu
    exact h.own u q ((hsrv u).symm.trans hu)
  · intro u u' q hu hu'
    exact h.once u u' q ((hsrv u).symm.trans hu) ((hsrv u').symm.trans hu')
  · intro q hq
    by_cases hqp : q = p
    · exact ⟨i, (hsrv _).trans (hqp ▸ hi)⟩
    · obtain ⟨j, hj⟩ := h'.client q ((hclient q hqp).1 hq)
      exact ⟨j, (hsrv _).trans ((setMap_srv hc _).symm.trans hj)⟩
  · intro u q hu
    exact h.fresh u q ((hsrv u).symm.trans hu)
  · intro q
    by_cases hqp : q = p
    · have hone := h.ref_eq_one hi hno
      have hle := refs_update_le s.map (c, v) (some p) p
      show refs (update s.map (c, v) (some p)) q < 65536
      rw [hqp]
      omega
    · exact lt_of_le_of_lt (refs_update_le_of_ne _ _ fun heq => hqp (Option.some.inj heq).symm)
        (h.small q)
  · rintro j q ⟨⟩
  · intro o
    constructor
    · rintro (rfl | ⟨ho, hcm⟩)
      · exact ⟨i, (hsrv _).trans hi, (h.filled i p hpc hi).symm, rfl, hnew⟩
      · obtain ⟨j, hj, hid, hf, -⟩ := (h.live o).1 ho
        exact ⟨j, (hsrv _).trans hj, hid, hf, hcm⟩
    · rintro ⟨j, hj, hid, hf, hcm⟩
      rw [hsrv] at hj
      by_cases hop : o.page = p
      · obtain rfl := h.slot_unique hi (hop ▸ hj)
        left
        obtain ⟨oid, opage, ofile⟩ := o
        obtain rfl : opage = p := hop
        rw [h.filled i opage hpc hi]
        exact congrArg₂ (fun a b => Open.mk a opage b) hid.symm hf.symm
      · right
        have hlive := (h'.live o).2 ⟨j, (setMap_srv hc _).trans hj, hid, hf, (hclient _ hop).1 hcm⟩
        exact ⟨hlive.1, hcm⟩
  · intro id hid
    have hid' : id ∈ (s.setMap srv (update s.map (c, v) none)).closed := by
      rcases hid with hid | ⟨o, ho, hoid, hcm⟩
      · exact .inl hid
      · exact .inr ⟨o, ho, hoid, (hclient _ (hpage o ho)).not.1 hcm⟩
    obtain ⟨j, hj, hcases⟩ := h'.closed id hid'
    refine ⟨j, hj, hcases.imp_right fun ⟨heq, hb, hq⟩ => ⟨heq, not_busy_idle j, fun q hjq => ?_⟩⟩
    rw [hsrv] at hjq
    have hqp : q ≠ p := by
      rintro rfl
      exact hb (h.slot_unique hjq hi ▸ .inr hpc)
    exact (hclient q hqp).not.2 (hq q ((setMap_srv hc _).trans hjq))

/-! ### Runs -/

/-- Entries are taken more and more often. -/
theorem uses_le {ev : Event} (hstep : Step srv s ev s') (j : Slot) : s.uses j ≤ s'.uses j := by
  have hle : ∀ (s : Sys) (i : Slot) (p : ℕ), s.uses j ≤ (s.take i p).uses j := by
    intro s i p
    by_cases hj : j = i
    · subst hj
      show s.uses j ≤ update s.uses j _ j
      rw [update_self]
      omega
    · show s.uses j ≤ update s.uses i _ j
      rw [update_of_ne hj]
  cases hstep with
  | alloc => exact hle (s.allocPage srv _) _ _
  | take => exact hle s _ _
  | _ => exact le_refl _

theorem take_uses (s : Sys) (i : Slot) (p : ℕ) : (s.take i p).uses i = s.uses i + 1 :=
  update_self ..

theorem step {ev : Event} (h : Inv srv s) (hc : s.Careful ev) (hstep : Step srv s ev s')
    (huses : ∀ i, s'.uses i < 2 ^ 21) : Inv srv s' := by
  cases hstep with
  | request _ => exact h.goto (not_busy_scan 0)
  | busy _ _ => exact h.goto (not_busy_scan _)
  | full _ => exact h.goto not_busy_idle
  | noMem _ _ => exact h.goto not_busy_idle
  | refuse _ => exact h.goto not_busy_idle
  | drop _ => exact h.goto not_busy_idle
  | @alloc i hpc hturn =>
    have hfree : ∀ j, ¬ s.pc.Busy j := fun j => hpc ▸ not_busy_scan _ j
    obtain ⟨h', hmap, hno⟩ := h.allocPage hfree (h.ref_eq_zero.1 (turn_eq_alloc.1 hturn))
    have := huses i
    rw [take_uses] at this
    exact h'.take hmap hno this
  | @take i p hpc hturn hmap =>
    have hone := turn_eq_take.1 hturn
    have := huses i
    rw [take_uses] at this
    refine h.take hmap ((h.one_lt_ref hmap).not.1 ?_) this
    omega
  | fill hpc hmap => exact h.fill hpc hmap _ _
  | deliver hpc hne _ hmap => exact h.deliver hpc hmap hne _
  | @share e e' v v' p he he' _ hmap =>
    refine h.clientUpdate he' fun q hq => ?_
    obtain rfl := Option.some.inj hq
    exact ⟨⟨e, v, he, hmap⟩, hc p hmap⟩
  | unmap he => exact h.clientUpdate he fun q hq => absurd hq.symm (by simp)
  | argument _ _ _ => exact hc.elim
  | done _ =>
    -- no descriptor page is there
    have hnone : s.map (srv, fsreqPage) = none := by
      by_contra hne
      obtain ⟨p, hp⟩ := Option.ne_none_iff_exists'.1 hne
      obtain ⟨i, hi⟩ := h.own _ p hp
      exact fdPage_ne_fsreqPage i hi.symm
    rw [← hnone, update_eq_self]
    exact h.setMap (fun _ => rfl) (fun _ hq => hq) h.small

/-- The invariant is the whole property. -/
theorem resolves (h : Inv srv s) : Unambiguous srv s := by
  have hlive : ∀ o ∈ s.live, ∃ i, s.lookup srv o.fileid = .ok i ∧ (s.tab i).file = o.file ∧
      s.map (srv, fdPage i) = some o.page := by
    intro o ho
    obtain ⟨i, hi, hid, hf, hc⟩ := (h.live o).1 ho
    have hfileid := h.fileid i
    refine ⟨i, openfileLookup_ok.2 ⟨Fin.ext ?_, (h.one_lt_ref hi).2 hc, hid⟩, hf, hi⟩
    show o.fileid.toNat % 1024 = i.val
    rw [← hid]
    omega
  refine ⟨fun id => ⟨?_, ?_⟩, hlive, ?_, ?_⟩
  · rintro ⟨i, hi⟩
    obtain ⟨-, href, hid⟩ := openfileLookup_ok.1 hi
    have hmap : s.map (srv, fdPage i) ≠ none := fun hnone =>
      absurd (h.ref_eq_zero.2 hnone) (by omega)
    obtain ⟨p, hp⟩ := Option.ne_none_iff_exists'.1 hmap
    exact ⟨⟨id, p, (s.tab i).file⟩, (h.live _).2 ⟨i, hp, hid, rfl, (h.one_lt_ref hp).1 href⟩, rfl⟩
  · rintro ⟨o, ho, rfl⟩
    obtain ⟨i, hi, -⟩ := hlive o ho
    exact ⟨i, hi⟩
  · intro i p _ hturn hp hc
    exact hturn (turn_eq_next.2 ((h.one_lt_ref hp).2 hc))
  · intro id hid i hi
    obtain ⟨hslot, href, heq⟩ := openfileLookup_ok.1 hi
    obtain ⟨j, hj, hcases⟩ := h.closed id hid
    obtain rfl : j = i := Fin.ext (hj.symm.trans (congrArg Fin.val hslot))
    rcases hcases with hlt | ⟨-, -, hno⟩
    · rw [heq] at hlt
      exact lt_irrefl _ hlt
    · have hmap : s.map (srv, fdPage j) ≠ none := fun hnone =>
        absurd (h.ref_eq_zero.2 hnone) (by omega)
      obtain ⟨p, hp⟩ := Option.ne_none_iff_exists'.1 hmap
      exact hno p hp ((h.one_lt_ref hp).1 href)

end Inv

/-- **Ids of open files are unambiguous** in every run in which each entry is taken less than
`2^21` times, clients do not map a page that is mapped 65535 times already, and none sends a
descriptor page with a request. -/
theorem unambiguous {s₀ : Sys} (h0 : s₀.Start) (hrun : Lts.Run (Step srv) Sys.Careful s₀ s)
    (huses : ∀ i, s.uses i < 2 ^ 21) : Unambiguous srv s := by
  refine Inv.resolves (hrun.inv (I := fun s => (∀ i, s.uses i < 2 ^ 21) → Inv srv s) ?_ ?_ huses)
  · exact fun _ => .of_start h0
  · intro s₁ ev s₂ ih hc hstep hu
    -- the bound holds in all earlier states too
    have hu₁ : ∀ i, s₁.uses i < 2 ^ 21 := fun i => lt_of_le_of_lt (Inv.uses_le hstep i) (hu i)
    exact (ih hu₁).step hc hstep hu

/-! ## Two runs -/

/-- The server, and a client. -/
def server : EnvIdx := 0
def reader : EnvIdx := 1

theorem reader_ne_server : reader ≠ server := by decide

/-- Page `k` of an address space. -/
def pageAt (k : ℕ) : Vpn := ⟨k % 1048576, Nat.mod_lt _ (by decide)⟩

/-- After `serve_init`. -/
def booted : Sys where
  map := fun _ => none
  next := 0
  fds := fun _ => .zero
  tab := serveInit opentab
  pc := .idle
  uses := fun _ => 0
  live := ∅
  closed := ∅

theorem booted_start : booted.Start := ⟨fun _ => rfl, rfl, rfl, fun _ => rfl, rfl, rfl⟩

/-- The first entry, taken for the first time. -/
def taken : Sys := ((booted.goto (.scan 0)).allocPage server 0).take 0 0

/-- The client has opened file 7. -/
def opened : Sys :=
  (taken.fill 0 0 7 0#32).deliver server 0 0 reader (pageAt 0)

theorem run_opened : Lts.Run (Step server) Sys.Careful booted opened := by
  have hpc : taken.pc = .opening 0 :=
    Sys.take_pc (s := (booted.goto (.scan 0)).allocPage server 0) (by decide)
  have h₁ : Lts.Run (Step server) Sys.Careful booted (booted.goto (.scan 0)) := by
    refine Lts.Run.nil.snoc ?_ (Step.request rfl)
    trivial
  have h₂ : Lts.Run (Step server) Sys.Careful booted taken := by
    refine h₁.snoc ?_ (Step.alloc (i := 0) rfl rfl)
    trivial
  have h₃ : Lts.Run (Step server) Sys.Careful booted (taken.fill 0 0 7 0#32) := by
    refine h₂.snoc ?_ (Step.fill hpc rfl)
    trivial
  refine h₃.snoc ?_ (Step.deliver rfl (by decide) (by decide) rfl)
  trivial

theorem opened_map : opened.map = update (update (fun _ => none)
    (server, fdPage 0) (some 0)) (reader, pageAt 0) (some 0) :=
  rfl

theorem opened_live : ⟨1024#32, 0, 7⟩ ∈ opened.live := Set.mem_insert ..

theorem opened_uses (i : Slot) : opened.uses i < 2 ^ 21 := by
  show update (fun _ => 0) _ (0 + 1) i < _
  rw [update_apply]
  split <;> decide

theorem unambiguous_opened : booted.Start ∧ Lts.Run (Step server) Sys.Careful booted opened ∧
    (∀ i, opened.uses i < 2 ^ 21) ∧ Unambiguous server opened ∧
    ∃ i, opened.lookup server 1024#32 = .ok i := by
  have h := unambiguous booted_start run_opened opened_uses
  exact ⟨booted_start, run_opened, opened_uses, h, (h.lookup_iff _).2 ⟨_, opened_live, rfl⟩⟩

/-- The client has mapped its descriptor at `k` more pages. -/
def shared : ℕ → Sys
  | 0 => opened
  | k + 1 => (shared k).setMap server
      (update (shared k).map (reader, pageAt (k + 1)) (some 0))

theorem pageAt_val {k : ℕ} (h : k < 1048576) : (pageAt k).val = k := Nat.mod_eq_of_lt h

theorem shared_succ_of_ne {k : ℕ} {x : EnvIdx × Vpn} (h : x ≠ (reader, pageAt (k + 1))) :
    (shared (k + 1)).map x = (shared k).map x :=
  update_of_ne h _ _

/-- The pages from `k + 1` on are still free. -/
theorem shared_free (k : ℕ) (hk : k < 65535) (u : Vpn) (hu : k < u.val) :
    (shared k).map (reader, u) = none := by
  induction k with
  | zero =>
    have hne : (reader, u) ≠ (reader, pageAt 0) := by
      intro heq
      have : u.val = (pageAt 0).val := congrArg (fun x => x.2.val) heq
      rw [pageAt_val (by omega)] at this
      omega
    rw [shared, opened_map, update_of_ne hne,
      update_of_ne fun heq => reader_ne_server (congrArg Prod.fst heq)]
  | succ k ih =>
    rw [shared_succ_of_ne, ih (by omega) (by omega)]
    intro heq
    have := congrArg (fun x => x.2.val) heq
    simp only [pageAt_val (show k + 1 < 1048576 by omega)] at this
    omega

/-- The places the open came with stay. -/
theorem shared_first (k : ℕ) (hk : k < 65535) : (shared k).map (reader, pageAt 0) = some 0 ∧
    (shared k).map (server, fdPage 0) = some 0 := by
  induction k with
  | zero => exact ⟨rfl, rfl⟩
  | succ k ih =>
    obtain ⟨h₁, h₂⟩ := ih (by omega)
    rw [shared_succ_of_ne, shared_succ_of_ne, h₁, h₂]
    · exact ⟨rfl, rfl⟩
    · exact fun heq => reader_ne_server (congrArg Prod.fst heq).symm
    · intro heq
      have := congrArg (fun x => x.2.val) heq
      simp only [pageAt_val (show k + 1 < 1048576 by omega), pageAt_val (show 0 < 1048576 by omega)]
        at this
      omega

theorem shared_refs (k : ℕ) (hk : k < 65535) : refs (shared k).map 0 = k + 2 := by
  induction k with
  | zero =>
    have h₀ : refs (fun _ => none : Spaces ℕ) 0 = 0 := refs_eq_zero.2 fun _ => by simp
    rw [shared, opened_map, refs_update_some, refs_update_some rfl, h₀]
    · rfl
    · exact update_of_ne (fun heq => reader_ne_server (congrArg Prod.fst heq)) _ _
  | succ k ih =>
    have hfree := shared_free k (by omega) (pageAt (k + 1))
      (by rw [pageAt_val (by omega)]; omega)
    have h := refs_update_some hfree 0 0
    rw [ih (by omega)] at h
    exact h

theorem shared_live (k : ℕ) (hk : k < 65535) : ⟨1024#32, 0, 7⟩ ∈ (shared k).live := by
  induction k with
  | zero => exact opened_live
  | succ k ih => exact ⟨ih (by omega), reader, pageAt 0, by decide, (shared_first (k + 1) hk).1⟩

theorem run_shared (k : ℕ) (hk : k < 65535) :
    Lts.Run (Step server) Lts.anyEvent booted (shared k) := by
  induction k with
  | zero => exact run_opened.mono fun _ _ _ => trivial
  | succ k ih =>
    refine (ih (by omega)).snoc trivial
      (Step.share (e := reader) (v := pageAt 0) (by decide) (by decide) ?_
        (shared_first k (by omega)).1)
    rw [pageAt_val (by omega), utopPage]
    omega

theorem shared_uses (k : ℕ) : (shared k).uses = opened.uses := by
  induction k with
  | zero => rfl
  | succ k ih => exact ih

/-- **A client can lose its file.**  With its descriptor mapped at 65535 pages, the count of the
page is back at zero, and the id the client got does not resolve. -/
theorem lookup_fails_while_mapped : ∃ s, booted.Start ∧
    Lts.Run (Step server) Lts.anyEvent booted s ∧ (∀ i, s.uses i < 2 ^ 21) ∧
    ⟨1024#32, 0, 7⟩ ∈ s.live ∧ ∀ i, s.lookup server 1024#32 ≠ .ok i := by
  obtain ⟨k, hk⟩ : ∃ k, k + 2 = 65536 := ⟨65534, rfl⟩
  have hlt : k < 65535 := by omega
  refine ⟨shared k, booted_start, run_shared k hlt, ?_, shared_live k hlt, ?_⟩
  · rw [shared_uses]
    exact opened_uses
  · intro i hi
    obtain ⟨hslot, href, -⟩ := openfileLookup_ok.1 hi
    rw [← hslot] at href
    have hpage : (shared k).map (server, fdPage (slotOf 1024#32)) = some 0 :=
      (shared_first k hlt).2
    rw [Sys.ref, Spaces.pageref, hpage] at href
    simp only [shared_refs k hlt, hk] at href
    omega

end Jos.Opens
