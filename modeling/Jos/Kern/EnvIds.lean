import Jos.Kern.BootSpec
import Jos.Kern.EnvActs
import Jos.Lib.Lts

/-!
# Environment ids

An id is a generation above the index of a slot: bits 0 to 9 are the index, 10
and 11 are zero, 12 to 30 the generation, and the sign bit is clear.
`env_alloc` computes the next id of a slot from the last one.

* `nextEnvId_eq` — the generation goes up by one, from `2 ^ 19 - 1` back to 1.
* `IdStep` — what can happen to the table: `env_alloc`, `env_free`, and
  whatever else the kernel does, which keeps ids and takes no slot into use.
  What a run shows is the slots taken into use, with the ids they got.
* `Ids.run` — along every run the ids of a slot are `idAt e 1`, `idAt e 2`, …,
  and a slot that is in use has the last of them.
* `Booted.ids_run` — the runs of the machine are such runs.
* `env_ids` — so ids in use are positive, say which slot they belong to and
  are found by `envid2env`; and an id comes back after `2 ^ 19 - 1`
  environments in its slot, not before.
-/

namespace Jos

/-! ## The arithmetic of an id -/

/-- The generations there are: 19 bits, without 0. -/
def generations : ℕ := 2 ^ 19 - 1

/-- The id of generation `g` in slot `e`. -/
def mkEnvId (g : ℕ) (e : EnvIdx) : Word := BitVec.ofNat 32 (g * 2 ^ 12 + e.val)

section Arithmetic

variable {g g' : ℕ} {e : EnvIdx}

theorem toNat_mkEnvId (hg : g ≤ generations) : (mkEnvId g e).toNat = g * 2 ^ 12 + e.val := by
  have he := e.isLt
  rw [generations] at hg
  rw [mkEnvId, BitVec.toNat_ofNat, Nat.mod_eq_of_lt (by omega)]

theorem mkEnvId_inj (hg : g ≤ generations) (hg' : g' ≤ generations) :
    mkEnvId g e = mkEnvId g' e ↔ g = g' := by
  constructor
  · intro h
    have hn := congrArg BitVec.toNat h
    rw [toNat_mkEnvId hg, toNat_mkEnvId hg'] at hn
    omega
  · rintro rfl
    rfl

theorem envx_mkEnvId (hg : g ≤ generations) : envx (mkEnvId g e) = e := by
  apply Fin.ext
  have he := e.isLt
  have hmod : (envx (mkEnvId g e)).val = (mkEnvId g e).toNat % 1024 := rfl
  rw [hmod, toNat_mkEnvId hg]
  omega

/-- An id is positive, as the signed number the source takes it for. -/
theorem mkEnvId_pos (hpos : 0 < g) (hg : g ≤ generations) : 0 < (mkEnvId g e).toInt := by
  have he := e.isLt
  have hn := toNat_mkEnvId (e := e) hg
  rw [generations] at hg
  rw [BitVec.toInt_eq_toNat_of_lt (by omega), hn]
  omega

/-- **The next id**: the generation goes up by one, and starts again at 1. -/
theorem nextEnvId_eq {old : Word} {r : ℕ} (hold : old.toNat = g * 2 ^ 12 + r) (hr : r < 1024)
    (hg : g ≤ generations) : nextEnvId old e = mkEnvId (g % generations + 1) e := by
  have he := e.isLt
  have hidx : (BitVec.ofNat 32 e.val).toNat = e.val := by
    rw [BitVec.toNat_ofNat, Nat.mod_eq_of_lt (by omega)]
  rw [generations] at hg
  -- what is left of the old id once its index is masked out
  have hsum : (old + 0x1000#32).toNat = (g + 1) * 2 ^ 12 + r := by
    rw [BitVec.toNat_add, hold]
    change (g * 2 ^ 12 + r + 4096) % 2 ^ 32 = _
    omega
  have hgen : ((old + 0x1000#32) &&& ~~~0x3ff#32).toNat = (g + 1) * 2 ^ 12 := by
    rw [show (0x3ff#32 : Word) = BitVec.ofNat 32 (2 ^ 10 - 1) from rfl, toNat_clearLow, hsum]
    omega
  apply BitVec.eq_of_toNat_eq
  rw [toNat_mkEnvId (by rw [generations]; omega), generations, nextEnvId]
  by_cases hlast : g = 2 ^ 19 - 1
  · -- the sign bit is set: the generations are used up
    have hneg : ((old + 0x1000#32) &&& ~~~0x3ff#32).sle 0#32 = true := by
      rw [BitVec.sle_iff_toInt_le, BitVec.toInt_eq_toNat_cond, hgen]
      norm_num [hlast]
    rw [if_pos hneg, toNat_or_of_low (g := 1) (n := 12) rfl (by omega), hidx, hlast]
    rfl
  · have hpos : ¬ ((old + 0x1000#32) &&& ~~~0x3ff#32).sle 0#32 = true := by
      rw [BitVec.sle_iff_toInt_le, BitVec.toInt_eq_toNat_of_lt (by omega), hgen]
      simp
    rw [if_neg hpos, toNat_or_of_low hgen (by omega), hidx, Nat.mod_eq_of_lt (by omega)]

end Arithmetic

/-- The id of the `n`-th environment in slot `e`, counted from 1; 0 is what
`env_init` leaves in a slot that has not been used. -/
def idAt (e : EnvIdx) : ℕ → Word
  | 0 => 0#32
  | n + 1 => mkEnvId (n % generations + 1) e

theorem generation_le (n : ℕ) : n % generations + 1 ≤ generations :=
  Nat.mod_lt n (by decide)

theorem nextEnvId_idAt (e : EnvIdx) (n : ℕ) : nextEnvId (idAt e n) e = idAt e (n + 1) := by
  cases n with
  | zero => exact nextEnvId_eq (g := 0) (r := 0) rfl (by decide) (Nat.zero_le _)
  | succ n =>
    rw [idAt, nextEnvId_eq (toNat_mkEnvId (generation_le n)) e.isLt (generation_le n), idAt,
      Nat.mod_add_mod]

/-- **The period of the ids of a slot.** -/
theorem idAt_eq_iff (e : EnvIdx) (i j : ℕ) :
    idAt e (i + 1) = idAt e (j + 1) ↔ i ≡ j [MOD generations] := by
  rw [idAt, idAt, mkEnvId_inj (generation_le i) (generation_le j), Nat.add_right_cancel_iff]
  rfl

/-! ## Runs -/

/-- The kernel does something else: ids stay, and no slot is taken into use. -/
structure KeepsIds (k k' : Kernel) : Prop where
  id : ∀ e, (k'.envs e).envId = (k.envs e).envId
  free : ∀ e, (k.envs e).envStatus = .free → (k'.envs e).envStatus = .free

/-- What can happen to the table of environments.  A successful `env_alloc`
shows the slot and its id. -/
inductive IdStep (k : Kernel) : Option (EnvIdx × Word) → Kernel → Prop
  | alloc {parentId : Word} {e : EnvIdx} {k' : Kernel} :
      envAlloc parentId k = .ok (.ok e) k' → IdStep k (some (e, (k'.envs e).envId)) k'
  | full {parentId : Word} {x : Errno} {k' : Kernel} :
      envAlloc parentId k = .ok (.error x) k' → IdStep k none k'
  | free {cpu : ℕ} {e : EnvIdx} {k' : Kernel} : envFree cpu e k = .ok () k' → IdStep k none k'
  | other {k' : Kernel} : KeepsIds k k' → IdStep k none k'

/-- The runs of the table of environments. -/
abbrev IdRun : Kernel → List (EnvIdx × Word) → Kernel → Prop := Lts.Trace IdStep

/-- The ids a slot had, in order. -/
def incarnations (e : EnvIdx) (l : List (EnvIdx × Word)) : List Word :=
  (l.filter fun x => x.1 = e).map Prod.snd

theorem incarnations_append_self (e : EnvIdx) (l : List (EnvIdx × Word)) (id : Word) :
    incarnations e (l ++ [(e, id)]) = incarnations e l ++ [id] := by
  simp [incarnations, List.filter_append]

variable {e : EnvIdx} {parentId : Word} {k k' : Kernel} {u : Unit}

theorem incarnations_append_of_ne {e' : EnvIdx} (l : List (EnvIdx × Word)) (id : Word)
    (h : e' ≠ e) : incarnations e (l ++ [(e', id)]) = incarnations e l := by
  simp [incarnations, List.filter_append, h]

/-- **The ids after a run** in which the slots of `l` were taken into use. -/
structure Ids (l : List (EnvIdx × Word)) (k : Kernel) : Prop where
  /-- The ids a slot had are the first ones of its sequence … -/
  past : ∀ e, incarnations e l = (List.range (incarnations e l).length).map fun n => idAt e (n + 1)
  /-- … it has the last of them … -/
  last : ∀ e, (k.envs e).envId = idAt e (incarnations e l).length
  /-- … and there is one, if the slot is in use. -/
  used : ∀ e, (k.envs e).envStatus ≠ .free → incarnations e l ≠ []

namespace Ids

variable {l : List (EnvIdx × Word)} {k k' : Kernel}

theorem keeps (h : Ids l k) (hk : KeepsIds k k') : Ids l k' where
  past := h.past
  last e := (hk.id e).trans (h.last e)
  used e he := h.used e fun hf => he (hk.free e hf)

/-- A slot is taken into use. -/
theorem allocated {p : ℕ} {pm : PhysMem} (h : Ids l k) :
    Ids (l ++ [(e, ((k.allocated e p pm parentId).envs e).envId)])
      (k.allocated e p pm parentId) := by
  have hid : ((k.allocated e p pm parentId).envs e).envId
      = idAt e ((incarnations e l).length + 1) := by
    rw [← nextEnvId_idAt, ← h.last e]
    simp [Kernel.allocated, Kernel.modifyEnv]
  have hother : ∀ e', e' ≠ e → (k.allocated e p pm parentId).envs e' = k.envs e' := by
    intro e' he
    simp [Kernel.allocated, Kernel.modifyEnv, he]
  refine ⟨fun e' => ?_, fun e' => ?_, fun e' hlive => ?_⟩
  · by_cases he : e' = e
    · subst he
      rw [incarnations_append_self, List.length_append, List.length_singleton, List.range_succ,
        List.map_append, ← h.past, hid]
      rfl
    · rw [incarnations_append_of_ne _ _ (Ne.symm he)]
      exact h.past e'
  · by_cases he : e' = e
    · subst he
      rw [incarnations_append_self, List.length_append, hid]
      rfl
    · rw [incarnations_append_of_ne _ _ (Ne.symm he), hother e' he]
      exact h.last e'
  · by_cases he : e' = e
    · subst he
      rw [incarnations_append_self]
      simp
    · rw [incarnations_append_of_ne _ _ (Ne.symm he)]
      rw [hother e' he] at hlive
      exact h.used e' hlive

end Ids

/-- `env_free` changes no id. -/
theorem keepsIds_freed (k : Kernel) (e : EnvIdx) (pm : PhysMem) : KeepsIds k (k.freed e pm) := by
  constructor
  · intro e'
    by_cases he : e' = e
    · subst he
      simp [Kernel.freed, Kernel.modifyEnv]
    · rw [freed_of_ne he]
  · intro e' hf
    by_cases he : e' = e
    · subst he
      exact freed_self
    · rw [freed_of_ne he]
      exact hf

/-- An `env_alloc` that fails has at most touched memory. -/
theorem envAlloc_error_inv {x : Errno} (h : envAlloc parentId k = .ok (.error x) k') :
    OnlyPm k k' := by
  rw [envAlloc, run_get_bind] at h
  cases hf : k.envFreeList with
  | none =>
    simp only [hf] at h
    cases h
    exact .refl k
  | some e =>
    simp only [hf] at h
    obtain ⟨res, k₁, h₁, h⟩ := run_bind_inv h
    cases res with
    | ok u => cases h
    | error y =>
      cases h
      obtain ⟨o, pm, -, h₁⟩ := onPm_bind_inv h₁
      cases o with
      | none =>
        cases h₁
        exact ⟨pm, rfl⟩
      | some p =>
        -- past `page_alloc`, `env_setup_vm` does not fail
        obtain ⟨kva, k₃, -, h₁⟩ := run_bind_inv h₁
        rw [run_modify_bind] at h₁
        obtain ⟨_, k₄, -, h₁⟩ := run_bind_inv h₁
        obtain ⟨_, k₅, -, h₁⟩ := run_bind_inv h₁
        cases h₁

theorem OnlyPm.keepsIds (h : OnlyPm k k') : KeepsIds k k' := by
  obtain ⟨pm, rfl⟩ := h
  exact ⟨fun _ => rfl, fun _ hf => hf⟩

/-- **Along every run** the ids follow the sequence of their slot. -/
theorem Ids.run {k₀ : Kernel} {l : List (EnvIdx × Word)} (h0 : Ids [] k₀) (hr : IdRun k₀ l k) :
    Ids l k := by
  induction hr with
  | nil => exact h0
  | silent _ hs ih =>
    cases hs with
    | full hx => exact ih.keeps (envAlloc_error_inv hx).keepsIds
    | free hx =>
      obtain ⟨pm, rfl⟩ := envFree_inv hx
      exact ih.keeps (keepsIds_freed _ _ pm)
    | other hk => exact ih.keeps hk
  | snoc _ hs ih =>
    cases hs with
    | alloc hx =>
      obtain ⟨-, p, pm, rfl⟩ := envAlloc_ok_inv hx
      exact ih.allocated

/-- The loop of `env_init`: only the slots still to come may hold something. -/
theorem initSlots_spec (l : List EnvIdx) (k : Kernel)
    (h : ∀ e, e ∈ l ∨ (k.envs e).envId = 0#32 ∧ (k.envs e).envStatus = .free) :
    wp (l.forM fun e => do
        modify fun k => k.modifyEnv e fun env =>
          { env with envId := 0#32, envStatus := .free, envLink := k.envFreeList }
        modify fun k => { k with envFreeList := some e } : KernelM Unit)
      (fun _ k' => ∀ e, (k'.envs e).envId = 0#32 ∧ (k'.envs e).envStatus = .free)
      (fun _ _ => True) k := by
  refine (wp_forM
    (fun l k => ∀ e, e ∈ l ∨ (k.envs e).envId = 0#32 ∧ (k.envs e).envStatus = .free)
    (fun a l k hI => ?_) l k h).mono (fun _ k' hI e => (hI e).resolve_left (by simp))
    (fun _ _ h => h)
  rw [wp_bind, wp_modify, wp_modify]
  intro e
  by_cases he : e = a
  · subst he
    simp [Kernel.modifyEnv]
  · rcases hI e with hin | hin
    · exact Or.inl ((List.mem_cons.1 hin).resolve_left he)
    · exact Or.inr (by simpa [Kernel.modifyEnv, he] using hin)

/-- `env_init` clears all ids and frees all slots, whatever was there. -/
theorem envInit_ids (h : envInit k = .ok u k') : Ids [] k' := by
  rw [envInit, run_modify_bind] at h
  have hin : ∀ e : EnvIdx, e ∈ (List.finRange 1024).reverse := fun e => by simp
  -- a variable for the list of all slots, which nothing below should unfold
  generalize (List.finRange 1024).reverse = l at h hin
  have hall := (wp_of_ok h).1 (initSlots_spec l _ fun e => Or.inl (hin e))
  exact ⟨fun _ => rfl, fun e => (hall e).1, fun e he => absurd (hall e).2 he⟩

/-! ## What the ids are good for -/

/-- The slot is in use. -/
def Kernel.Live (k : Kernel) (e : EnvIdx) : Prop := (k.envs e).envStatus ≠ .free

namespace Ids

variable {l : List (EnvIdx × Word)} {k : Kernel} {e e' : EnvIdx} {id : Word}

theorem id_of_live (h : Ids l k) (he : k.Live e) :
    ∃ n, (incarnations e l).length = n + 1 ∧ (k.envs e).envId = mkEnvId (n % generations + 1) e := by
  obtain ⟨n, hn⟩ := Nat.exists_eq_succ_of_ne_zero (List.length_eq_zero_iff.not.2 (h.used e he))
  exact ⟨n, hn, by rw [h.last e, hn, idAt]⟩

theorem pos_of_live (h : Ids l k) (he : k.Live e) : 0 < (k.envs e).envId.toInt := by
  obtain ⟨n, -, hid⟩ := h.id_of_live he
  rw [hid]
  exact mkEnvId_pos (Nat.succ_pos _) (generation_le n)

theorem envx_of_live (h : Ids l k) (he : k.Live e) : envx (k.envs e).envId = e := by
  obtain ⟨n, -, hid⟩ := h.id_of_live he
  rw [hid, envx_mkEnvId (generation_le n)]

theorem live_inj (h : Ids l k) (he : k.Live e) (he' : k.Live e')
    (hid : (k.envs e).envId = (k.envs e').envId) : e = e' := by
  rw [← h.envx_of_live he, hid, h.envx_of_live he']

/-- `envid2env` finds a live environment by its id … -/
theorem envid2env_live (h : Ids l k) (he : k.Live e) (cpu : ℕ) :
    envid2env cpu (k.envs e).envId false k = .ok (some e) := by
  have hne : (k.envs e).envId ≠ 0#32 := by
    intro h0
    have hpos := h.pos_of_live he
    rw [h0] at hpos
    exact absurd hpos (by decide)
  have hst : (k.envs e).envStatus ≠ .free := he
  simp [envid2env, hne, h.envx_of_live he, hst]

/-- … and nothing else. -/
theorem envid2env_error (hid : id ≠ 0#32) (hnone : ∀ e, k.Live e → (k.envs e).envId ≠ id)
    (cpu : ℕ) : envid2env cpu id false k = .error .badEnv := by
  have hbad : (k.envs (envx id)).envStatus = .free ∨ (k.envs (envx id)).envId ≠ id := by
    by_cases hf : (k.envs (envx id)).envStatus = .free
    · exact Or.inl hf
    · exact Or.inr (hnone _ hf)
  rw [envid2env, if_neg hid]
  exact if_pos hbad

theorem getElem_incarnations (h : Ids l k) {i : ℕ} (hi : (incarnations e l)[i]? = some id) :
    i < (incarnations e l).length ∧ id = idAt e (i + 1) := by
  obtain ⟨hlt, -⟩ := List.getElem?_eq_some_iff.1 hi
  rw [h.past e, List.getElem?_map, List.getElem?_range hlt] at hi
  exact ⟨hlt, by simpa using hi.symm⟩

/-- An id that resolves is that of the last environment in its slot, or old by
a whole period. -/
theorem stale (h : Ids l k) {i cpu : ℕ} (hi : (incarnations e l)[i]? = some id)
    (hfound : envid2env cpu id false k = .ok (some e)) :
    i + 1 = (incarnations e l).length ∨ i + 1 + generations ≤ (incarnations e l).length := by
  obtain ⟨hlt, rfl⟩ := h.getElem_incarnations hi
  have hne : idAt e (i + 1) ≠ 0#32 := by
    intro h0
    have hpos := mkEnvId_pos (e := e) (Nat.succ_pos _) (generation_le i)
    rw [idAt] at h0
    rw [h0] at hpos
    exact absurd hpos (by decide)
  have hx : envx (idAt e (i + 1)) = e := envx_mkEnvId (generation_le i)
  have hcur : (k.envs e).envId = idAt e (i + 1) := by
    by_contra hc
    rw [envid2env, if_neg hne, hx] at hfound
    simp [hc] at hfound
  obtain ⟨n, hn⟩ := Nat.exists_eq_succ_of_ne_zero (Nat.ne_of_gt (Nat.zero_lt_of_lt hlt))
  rw [h.last e, hn, idAt_eq_iff] at hcur
  -- congruent and not larger: equal, or a period apart
  rcases eq_or_ne n i with rfl | hni
  · exact Or.inl hn.symm
  · have hle : i ≤ n := by omega
    have hdvd := (Nat.modEq_iff_dvd' hle).1 hcur.symm
    have := Nat.le_of_dvd (by omega) hdvd
    exact Or.inr (by omega)

end Ids

/-! ## The runs of the machine -/

namespace KeepsIds

variable {k k' : Kernel}

theorem refl (k : Kernel) : KeepsIds k k := ⟨fun _ => rfl, fun _ hf => hf⟩

/-- Only records count. -/
theorem of_envs (h : k'.envs = k.envs) : KeepsIds k k' :=
  ⟨fun e => by rw [h], fun e hf => by rw [h]; exact hf⟩

theorem modifyEnv {f : Env → Env} (hid : (f (k.envs e)).envId = (k.envs e).envId)
    (hfree : (k.envs e).envStatus = .free → (f (k.envs e)).envStatus = .free) :
    KeepsIds k (k.modifyEnv e f) := by
  constructor <;> intro e'
  · by_cases he : e' = e
    · subst he
      simpa [Kernel.modifyEnv] using hid
    · simp [Kernel.modifyEnv, he]
  · by_cases he : e' = e
    · subst he
      simpa [Kernel.modifyEnv] using hfree
    · simp [Kernel.modifyEnv, he]

theorem run (h : KeepsIds k k') : IdRun k [] k' := .silent .nil (.other h)

end KeepsIds

/-- Some run leads from one state to another. -/
def IdReaches (k k' : Kernel) : Prop := ∃ l, IdRun k l k'

theorem IdReaches.trans {k'' : Kernel} (h : IdReaches k k') (h' : IdReaches k' k'') :
    IdReaches k k'' := by
  obtain ⟨l, hl⟩ := h
  obtain ⟨l', hl'⟩ := h'
  exact ⟨l ++ l', hl.trans hl'⟩

theorem KeepsIds.reaches (h : KeepsIds k k') : IdReaches k k' := ⟨[], h.run⟩

theorem idReaches_of_envs (h : k'.envs = k.envs) : IdReaches k k' :=
  (KeepsIds.of_envs h).reaches

theorem idReaches_envFree {cpu : ℕ} (h : envFree cpu e k = .ok () k') :
    IdReaches k k' := ⟨[], .silent .nil (.free h)⟩

theorem idReaches_envAlloc (h : envAlloc parentId k = .ok (.ok e) k') :
    IdReaches k k' := ⟨_, .snoc .nil (.alloc h)⟩

section Machine

variable {k k' : Kernel} {held : Finset ℕ} {cpu : ℕ}

/-- A system call is a run. -/
theorem Act.idReaches (h : KernelInv held (some cpu) k) (ha : Act True cpu k k') :
    IdReaches k k' := by
  cases ha with
  | scratch hu => exact idReaches_of_envs hu.envs
  | write | tick | mapNew | map | unmap => exact idReaches_of_envs rfl
  | setStatus _ huse => exact (KeepsIds.modifyEnv rfl fun hf => absurd hf (h.inUse huse)).reaches
  | setTf | setUpcall => exact (KeepsIds.modifyEnv rfl fun hf => hf).reaches
  | deliver _ huse => exact (KeepsIds.modifyEnv rfl fun hf => absurd hf (h.inUse huse)).reaches
  | recv hc => exact (KeepsIds.modifyEnv rfl fun hf => absurd hf (h.cur_live _ _ hc)).reaches
  | @fork c e k₁ hc hrun =>
    refine (idReaches_envAlloc hrun).trans (KeepsIds.modifyEnv rfl fun hf => ?_).reaches
    obtain ⟨-, p, pm, rfl⟩ := envAlloc_ok_inv hrun
    simp [Kernel.allocated, Kernel.modifyEnv] at hf
  | mark _ hst => exact (KeepsIds.modifyEnv rfl fun hf => by rw [hst] at hf; cases hf).reaches
  | free _ _ _ hrun => exact idReaches_envFree hrun
  | exit _ hrun => exact (idReaches_envFree hrun).trans (idReaches_of_envs rfl)

theorem idReaches_acts (h : KernelInv held (some cpu) k)
    (ha : Relation.ReflTransGen (Act True cpu) k k') : IdReaches k k' := by
  induction ha with
  | refl => exact (KeepsIds.refl k).reaches
  | tail ha hact ih => exact ih.trans (hact.idReaches (h.acts ha))

theorem Switches.keepsIds (h : KernelInv held (some cpu) k) (hs : Switches cpu k k') :
    KeepsIds k k' := by
  constructor <;> intro e
  · rw [hs.env e]
  · intro hf
    rcases hs.status e with heq | ⟨hrun, -⟩ | ⟨hrun | hc, -⟩
    · rw [heq, hf]
    · exact absurd (hrun.symm.trans hf) (by decide)
    · exact absurd (hrun.symm.trans hf) (by decide)
    · exact absurd hf (h.cur_live _ _ hc)

/-- A step of the machine is a run … -/
theorem Step.idReaches {ev : Event} (h : KernelInv held none k) (hs : Step k ev k')
    (hc : Careful k ev) : IdReaches k k' := by
  rcases step_cases h.mem hs (fun _ : True => hc.env) (fun _ => hc.dst) (fun _ => Or.inl hc.room)
    with ⟨c, k₁, -, ha, hr⟩ | ⟨t, -, hl⟩ | ⟨c, m, -, -, rfl⟩
  · have h₁ := (h.enter ev.cpu).acts ha
    exact (idReaches_acts (h.enter ev.cpu) ha).trans (hr.switches.keepsIds h₁).reaches
  · have hk : KernelInv held none { k.setCpuStatus ev.cpu .started with ticks := t } :=
      h.congr h.mem rfl rfl (Kernel.curenv_setCpuStatus ..)
    have hreach : IdReaches k { k.setCpuStatus ev.cpu .started with ticks := t } :=
      idReaches_of_envs rfl
    exact hreach.trans ((switches_schedYield hl).keepsIds (hk.enter ev.cpu)).reaches
  · exact idReaches_of_envs rfl

/-- … and so is a run of the machine. -/
theorem Runs.idReaches (h : KernelInv held none k) (hr : Runs Careful k k') : IdReaches k k' := by
  induction hr with
  | nil => exact (KeepsIds.refl k).reaches
  | step hr hc hs ih => exact ih.trans (hs.idReaches (h.run hr) hc)

/-! ### Boot -/

theorem idReaches_loadIcode {binary : Elf} (h : loadIcode e binary k = .ok u k') :
    IdReaches k k' := by
  rw [loadIcode] at h
  split at h
  · cases h
  · split at h
    · cases h
    · rw [run_modify_bind] at h
      obtain ⟨r, pm, -, -, rfl⟩ := withPgdir_inv h
      have hkeeps : KeepsIds k (k.modifyEnv e fun env =>
          { env with envTf := { env.envTf with tfEip := binary.eEntry } }) :=
        .modifyEnv rfl fun hf => hf
      exact hkeeps.reaches.trans (idReaches_of_envs rfl)

theorem idReaches_envCreate {binary : Elf} {type : EnvType}
    (h : envCreate binary type k = .ok u k') : IdReaches k k' := by
  obtain ⟨res, k₁, halloc, h⟩ := run_bind_inv h
  cases res with
  | error x => cases h
  | ok e =>
    obtain ⟨_, k₂, hload, h⟩ := run_bind_inv h
    cases h
    exact ((idReaches_envAlloc halloc).trans (idReaches_loadIcode hload)).trans
      (KeepsIds.modifyEnv rfl fun hf => hf).reaches

variable {cfg : BootConfig}

theorem idReaches_bootAps (h : bootAps cfg k = .ok u k') : IdReaches k k' := by
  obtain ⟨code, pm₁, -, h⟩ := onPm_bind_inv h
  obtain ⟨_, pm₂, -, h⟩ := onPm_bind_inv h
  have hspec := wp_forM (E := fun _ _ => True) (f := fun cpu => (modify fun k : Kernel =>
      k.setCpuStatus cpu .started : KernelM PUnit)) (fun _ s => s.envs = k.envs)
    (fun _ _ _ hI => hI) cfg.aps { k with pm := pm₂ } rfl
  exact idReaches_of_envs ((wp_of_ok h).1 hspec)

/-- Boot is a run that starts with `env_init`. -/
theorem Booted.idReaches (hb : Booted cfg k) :
    ∃ k₀ k₁, envInit k₀ = .ok () k₁ ∧ IdReaches k₁ k := by
  obtain ⟨b, -, h⟩ := hb
  obtain ⟨base, k₀, -, h⟩ := run_bind_inv h
  obtain ⟨⟨⟩, k₁, hinit, h⟩ := run_bind_inv h
  rw [run_modify_bind, run_get_bind] at h
  obtain ⟨_, pm, -, h⟩ := onPm_bind_inv h
  obtain ⟨_, k₃, haps, h⟩ := run_bind_inv h
  obtain ⟨_, k₄, hfs, h⟩ := run_bind_inv h
  obtain ⟨_, k₅, hns, huser⟩ := run_bind_inv h
  have hstart : IdReaches k₁ { k₁.setCpuStatus cfg.bootcpu .started with pm := pm } :=
    idReaches_of_envs rfl
  refine ⟨k₀, k₁, hinit, hstart.trans ((idReaches_bootAps haps).trans ?_)⟩
  exact (idReaches_envCreate hfs).trans ((idReaches_envCreate hns).trans (idReaches_envCreate huser))

/-- **The ids of the machine**: every run of the machine from boot is a run of
the table of environments from `env_init`. -/
theorem Booted.ids_run (hb : Booted cfg k) (hr : Runs Careful k k') :
    ∃ k₀ k₁ l, envInit k₀ = .ok () k₁ ∧ IdRun k₁ l k' ∧ Ids l k' := by
  obtain ⟨held, hinv⟩ := hb.spec.inv
  obtain ⟨k₀, k₁, hinit, hboot⟩ := hb.idReaches
  obtain ⟨l, hl⟩ := hboot.trans (Runs.idReaches hinv hr)
  exact ⟨k₀, k₁, l, hinit, hl, (envInit_ids hinit).run hl⟩

end Machine

/-! ## The result -/

/-- **Environment ids.**  In every run of `env_alloc` and `env_free`: the ids of
live environments are positive, name their slot and are distinct; `envid2env`
finds a live environment by its id and nothing by any other (0 stands for the
caller); two environments of one slot have the same id exactly when there is a
whole number of periods between them. -/
theorem env_ids {k₀ k₁ k : Kernel} {l : List (EnvIdx × Word)} (h0 : envInit k₀ = .ok () k₁)
    (hr : IdRun k₁ l k) :
    (∀ e, k.Live e → 0 < (k.envs e).envId.toInt ∧ envx (k.envs e).envId = e) ∧
    (∀ e e', k.Live e → k.Live e' → (k.envs e).envId = (k.envs e').envId → e = e') ∧
    (∀ cpu e, k.Live e → envid2env cpu (k.envs e).envId false k = .ok (some e)) ∧
    (∀ cpu id, id ≠ 0#32 → (∀ e, k.Live e → (k.envs e).envId ≠ id) →
      envid2env cpu id false k = .error .badEnv) ∧
    (∀ cpu, envid2env cpu 0#32 false k = .ok (k.curenv cpu)) ∧
    (∀ e i j id id', (incarnations e l)[i]? = some id → (incarnations e l)[j]? = some id' →
      (id = id' ↔ i ≡ j [MOD 2 ^ 19 - 1])) ∧
    ∀ cpu e i id, (incarnations e l)[i]? = some id → envid2env cpu id false k = .ok (some e) →
      i + 1 = (incarnations e l).length ∨ i + 1 + 524287 ≤ (incarnations e l).length := by
  have h : Ids l k := (envInit_ids h0).run hr
  refine ⟨fun e he => ⟨h.pos_of_live he, h.envx_of_live he⟩, fun _ _ => h.live_inj,
    fun cpu e he => h.envid2env_live he cpu, fun cpu id hid hnone => Ids.envid2env_error hid hnone cpu,
    fun cpu => rfl, fun e i j id id' hi hj => ?_, fun cpu e i id hi hfound => h.stale hi hfound⟩
  obtain ⟨-, rfl⟩ := h.getElem_incarnations hi
  obtain ⟨-, rfl⟩ := h.getElem_incarnations hj
  exact idAt_eq_iff e i j

/-- The file server's id on a machine that has just booted. -/
theorem env_ids_booted : ∃ k₀ k₁ k l, envInit k₀ = .ok () k₁ ∧ IdRun k₁ l k ∧
    Booted plainConfig k ∧ k.Live 0 ∧
    envx (k.envs 0).envId = 0 ∧
    envid2env 0 (k.envs 0).envId false k = .ok (some 0) := by
  obtain ⟨k, held, hb, -⟩ := plainConfig_boots
  obtain ⟨k₀, k₁, l, hinit, hl, -⟩ := hb.ids_run .nil
  have hlive : k.Live 0 := by
    rw [Kernel.Live, hb.spec.envs]
    exact fun h => by cases h
  obtain ⟨hpos, -, hfind, -⟩ := env_ids hinit hl
  exact ⟨k₀, k₁, k, l, hinit, hl, hb, hlive, (hpos _ hlive).2, hfind 0 _ hlive⟩

end Jos
