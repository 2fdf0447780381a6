import Jos.Kern.Boot

/-!
# The processors of the machine

`mp_init` of `kern/mpconfig.c`: the BIOS leaves a table of the machine's processors, buses and
interrupt lines in memory, found through a floating pointer structure, and the kernel counts the
processors in it.  The loop goes by the table's own count of entries, while the checksum goes by
its length; and the boot processor is taken down before the count is compared with `NCPU`.

* `mpsearch`, `mpconfig`, `mpInit` — the search, the checks and the loop.
* `visited` — the entries the loop comes to.
* `walk_inv`, `walk_reads`, `walk_bootcpu` — what the loop writes, reads and finds.
* `mpInit_iff` — the tables that keep `mp_init` inside the table and inside `cpus`.
-/

namespace Jos.Mpconfig

abbrev Byte := BitVec 8

/-- Physical memory, byte by byte. -/
abbrev Mem := ℕ → Byte

def le16 (mem : Mem) (a : ℕ) : ℕ := (mem a).toNat + 2 ^ 8 * (mem (a + 1)).toNat

def le32 (mem : Mem) (a : ℕ) : ℕ := le16 mem a + 2 ^ 16 * le16 mem (a + 2)

/-- `KADDR`, which panics on an address behind the end of memory. -/
def kaddr (npages pa : ℕ) : Option ℕ := if pa / 4096 < npages then some pa else none

/-- `sum`. -/
def sum (mem : Mem) (a : ℕ) : ℕ → Byte
  | 0 => 0#8
  | n + 1 => sum mem a n + mem (a + n)

/-- `memcmp(.., 4) == 0`. -/
def signed (mem : Mem) (a : ℕ) (sig : List Byte) : Bool :=
  [mem a, mem (a + 1), mem (a + 2), mem (a + 3)] = sig

/-- `mpsearch1`; `none` is a panic. -/
def mpsearch1 (npages : ℕ) (mem : Mem) (a len : ℕ) : Option (Option ℕ) := do
  let mp ← kaddr npages a
  let stop ← kaddr npages ((a + len) % 2 ^ 32)
  return ((List.range ((stop - mp) / 16)).map (mp + 16 * ·)).find? fun p =>
    signed mem p [0x5F#8, 0x4D#8, 0x50#8, 0x5F#8] && sum mem p 16 = 0#8

/-- `mpsearch`. -/
def mpsearch (npages : ℕ) (mem : Mem) : Option (Option ℕ) := do
  let bda ← kaddr npages 0x400
  let p := le16 mem (bda + 0x0E)
  let mp ←
    if p ≠ 0 then mpsearch1 npages mem (p * 16) 1024
    else mpsearch1 npages mem ((le16 mem (bda + 0x13) * 1024 + 2 ^ 32 - 1024) % 2 ^ 32) 1024
  match mp with
  | some mp => return some mp
  | none => mpsearch1 npages mem 0xF0000 0x10000

/-- The checks that `mpconfig` makes of the table at `conf`. -/
def accepts (mem : Mem) (conf : ℕ) : Bool :=
  signed mem conf [0x50#8, 0x43#8, 0x4D#8, 0x50#8] &&
    sum mem conf (le16 mem (conf + 4)) = 0#8 &&
    (mem (conf + 6) = 1#8 || mem (conf + 6) = 4#8) &&
    sum mem (conf + le16 mem (conf + 4)) (le16 mem (conf + 40)) + mem (conf + 42) = 0#8

/-- `mpconfig`: the address of the table, if there is one that is accepted. -/
def mpconfig (npages : ℕ) (mem : Mem) : Option (Option ℕ) := do
  match ← mpsearch npages mem with
  | none => return none
  | some mp =>
    if le32 mem (mp + 4) = 0 ∨ mem (mp + 11) ≠ 0#8 then return none
    else
      let conf ← kaddr npages (le32 mem (mp + 4))
      return if accepts mem conf then some conf else none

/-! ## The loop -/

def MPPROC : Byte := 0x00#8
def MPBUS : Byte := 0x01#8
def MPIOAPIC : Byte := 0x02#8
def MPIOINTR : Byte := 0x03#8
def MPLINTR : Byte := 0x04#8
def MPPROC_BOOT : Byte := 0x02#8

/-- What `mp_init` sets, with the places of the table's entries it has read and the indices into
`cpus` it has written at.  `bootcpu` is an index; at `NCPU` and above it is behind the array. -/
structure Found where
  ismp : Bool := false
  ncpu : ℕ := 0
  bootcpu : ℕ := 0
  lapicaddr : ℕ := 0
  cpuId : ℕ → Byte := fun _ => 0#8
  cpuStatus : ℕ → CpuStatus := fun _ => .unused
  reads : List ℕ := []
  writes : List ℕ := []

def Found.read (s : Found) (a : ℕ) : Found := { s with reads := s.reads ++ [a] }

/-- `proc->flags & MPPROC_BOOT`. -/
def boots (mem : Mem) (p : ℕ) : Bool := mem (p + 3) &&& MPPROC_BOOT ≠ 0#8

/-- `bootcpu = &cpus[ncpu]`, for an entry that says so. -/
def Found.noteBoot (mem : Mem) (p : ℕ) (s : Found) : Found :=
  { s.read (p + 3) with bootcpu := if boots mem p then s.ncpu else s.bootcpu }

/-- A processor is counted, or disabled, with a message that names its `apicid`. -/
def Found.count (p : ℕ) (s : Found) : Found :=
  if s.ncpu < NCPU then
    { s with cpuId := Function.update s.cpuId s.ncpu (BitVec.ofNat 8 s.ncpu)
             ncpu := s.ncpu + 1
             writes := s.writes ++ [s.ncpu] }
  else s.read (p + 1)

/-- The entries that are stepped over. -/
def skipped (b : Byte) : Bool := b = MPBUS || b = MPIOAPIC || b = MPIOINTR || b = MPLINTR

/-- The loop, from the entry at `p` on, with `n` entries to go. -/
def walk (mem : Mem) : ℕ → ℕ → Found → Found
  | 0, _, s => s
  | n + 1, p, s =>
    if mem p = MPPROC then walk mem n (p + 20) (((s.read p).noteBoot mem p).count p)
    else if skipped (mem p) then walk mem n (p + 8) (s.read p)
    -- an entry of another type ends the loop
    else { s.read p with ismp := false }

/-- From `bootcpu->cpu_status = CPU_STARTED` on. -/
def finish (s : Found) : Found :=
  let s := { s with cpuStatus := Function.update s.cpuStatus s.bootcpu .started
                    writes := s.writes ++ [s.bootcpu] }
  if s.ismp then s else { s with ncpu := 1, lapicaddr := 0 }

/-- The number of entries, and the length of the table. -/
def entryCount (mem : Mem) (conf : ℕ) : ℕ := le16 mem (conf + 34)

def tableEnd (mem : Mem) (conf : ℕ) : ℕ := conf + le16 mem (conf + 4)

/-- `mp_init`; `none` is a panic. -/
def mpInit (npages : ℕ) (mem : Mem) : Option Found := do
  match ← mpconfig npages mem with
  | none => return {}
  | some conf =>
    return finish (walk mem (entryCount mem conf) (conf + 44)
      { ismp := true, lapicaddr := le32 mem (conf + 36) })

/-! ## What should happen -/

/-- The count and the boot processor fit `cpus`, the writes do, and the entries were read inside
`[start, stop)`. -/
structure Found.Ok (s : Found) (start stop : ℕ) : Prop where
  ncpu : s.ncpu ≤ NCPU
  bootcpu : s.bootcpu < NCPU
  writes : ∀ i ∈ s.writes, i < NCPU
  reads : ∀ a ∈ s.reads, start ≤ a ∧ a < stop

/-- `mp_init` comes to an end, and well, on the table at `conf`. -/
def MpInitOk (npages : ℕ) (mem : Mem) (conf : ℕ) : Prop :=
  ∃ s, mpInit npages mem = some s ∧ s.Ok conf (tableEnd mem conf)

/-- The entries the loop comes to, with `n` to go. -/
def visited (mem : Mem) : ℕ → ℕ → List ℕ
  | 0, _ => []
  | n + 1, p =>
    if mem p = MPPROC then p :: visited mem n (p + 20)
    else if skipped (mem p) then p :: visited mem n (p + 8)
    else [p]

def processors (mem : Mem) (n p : ℕ) : List ℕ := (visited mem n p).filter (mem · = MPPROC)

/-- What is read of an entry lies in front of `stop`. -/
def EntryFits (mem : Mem) (stop p : ℕ) : Prop := p < stop ∧ (mem p = MPPROC → p + 3 < stop)

/-- The entries that are come to lie inside the table, and none of the processors after the first
`NCPU` is the boot processor. -/
def Fits (mem : Mem) (conf : ℕ) : Prop :=
  (∀ p ∈ visited mem (entryCount mem conf) (conf + 44), EntryFits mem (tableEnd mem conf) p) ∧
    ∀ p ∈ (processors mem (entryCount mem conf) (conf + 44)).drop NCPU, boots mem p = false

/-! ## One entry -/

section Step

variable {mem : Mem} {n p start stop : ℕ} {s : Found}

theorem walk_proc (h : mem p = MPPROC) :
    walk mem (n + 1) p s = walk mem n (p + 20) (((s.read p).noteBoot mem p).count p) := by
  rw [walk, if_pos h]

theorem walk_skip (h : mem p ≠ MPPROC) (hs : skipped (mem p) = true) :
    walk mem (n + 1) p s = walk mem n (p + 8) (s.read p) := by
  rw [walk, if_neg h, if_pos hs]

theorem walk_stop (h : mem p ≠ MPPROC) (hs : ¬ skipped (mem p) = true) :
    walk mem (n + 1) p s = { s.read p with ismp := false } := by
  rw [walk, if_neg h, if_neg hs]

theorem visited_proc (h : mem p = MPPROC) :
    visited mem (n + 1) p = p :: visited mem n (p + 20) := by
  rw [visited, if_pos h]

theorem visited_skip (h : mem p ≠ MPPROC) (hs : skipped (mem p) = true) :
    visited mem (n + 1) p = p :: visited mem n (p + 8) := by
  rw [visited, if_neg h, if_pos hs]

theorem visited_stop (h : mem p ≠ MPPROC) (hs : ¬ skipped (mem p) = true) :
    visited mem (n + 1) p = [p] := by
  rw [visited, if_neg h, if_neg hs]

theorem processors_proc (h : mem p = MPPROC) :
    processors mem (n + 1) p = p :: processors mem n (p + 20) := by
  rw [processors, visited_proc h, List.filter_cons_of_pos (by simpa using h)]
  rfl

theorem processors_skip (h : mem p ≠ MPPROC) (hs : skipped (mem p) = true) :
    processors mem (n + 1) p = processors mem n (p + 8) := by
  rw [processors, visited_skip h hs, List.filter_cons_of_neg (by simpa using h)]
  rfl

theorem processors_stop (h : mem p ≠ MPPROC) (hs : ¬ skipped (mem p) = true) :
    processors mem (n + 1) p = [] := by
  rw [processors, visited_stop h hs, List.filter_cons_of_neg (by simpa using h)]
  rfl

/-- The count and the boot processor so far: neither is beyond the other's reach. -/
structure Found.Inv (s : Found) : Prop where
  ncpu : s.ncpu ≤ NCPU
  bootcpu : s.bootcpu ≤ s.ncpu
  writes : ∀ i ∈ s.writes, i < NCPU

theorem Found.Inv.read (h : s.Inv) (a : ℕ) : (s.read a).Inv := ⟨h.ncpu, h.bootcpu, h.writes⟩

theorem Found.Inv.noteBoot (h : s.Inv) : (s.noteBoot mem p).Inv := by
  refine ⟨h.ncpu, ?_, h.writes⟩
  show (if boots mem p then s.ncpu else s.bootcpu) ≤ s.ncpu
  split
  · exact le_rfl
  · exact h.bootcpu

theorem Found.Inv.count (h : s.Inv) : (s.count p).Inv := by
  unfold Found.count
  split
  · next hlt =>
      refine ⟨hlt, Nat.le_succ_of_le h.bootcpu, fun i hi => ?_⟩
      obtain hi | hi := List.mem_append.1 hi
      · exact h.writes i hi
      · rw [List.mem_singleton.1 hi]
        exact hlt
  · exact h.read _

theorem count_ncpu : (s.count p).ncpu = if s.ncpu < NCPU then s.ncpu + 1 else s.ncpu := by
  unfold Found.count
  split <;> rfl

theorem count_bootcpu : (s.count p).bootcpu = s.bootcpu := by
  unfold Found.count
  split <;> rfl

/-- What is read of a processor's entry behind its type. -/
theorem count_reads (hfit : p + 3 < stop) (hlo : start ≤ p) :
    (∀ a ∈ (s.count p).reads, start ≤ a ∧ a < stop) ↔ ∀ a ∈ s.reads, start ≤ a ∧ a < stop := by
  unfold Found.count
  split
  · rfl
  · simp only [Found.read, List.forall_mem_append, List.forall_mem_singleton]
    exact and_iff_left ⟨by omega, by omega⟩

theorem reads_sub_count : s.reads ⊆ (s.count p).reads := by
  unfold Found.count
  split
  · exact List.Subset.refl _
  · exact List.subset_append_left _ _

end Step

/-! ## The whole loop -/

section Run

variable {mem : Mem} {start stop : ℕ}

theorem walk_inv (n p : ℕ) {s : Found} (h : s.Inv) : (walk mem n p s).Inv := by
  induction n generalizing p s with
  | zero => exact h
  | succ n ih =>
    by_cases hp : mem p = MPPROC
    · rw [walk_proc hp]
      exact ih _ (h.read p).noteBoot.count
    · by_cases hs : skipped (mem p) = true
      · rw [walk_skip hp hs]
        exact ih _ (h.read p)
      · rw [walk_stop hp hs]
        exact ⟨h.ncpu, h.bootcpu, h.writes⟩

theorem walk_reads (n p : ℕ) (s : Found) (hlo : start ≤ p) :
    (∀ a ∈ (walk mem n p s).reads, start ≤ a ∧ a < stop) ↔
      (∀ a ∈ s.reads, start ≤ a ∧ a < stop) ∧ ∀ q ∈ visited mem n p, EntryFits mem stop q := by
  induction n generalizing p s with
  | zero => simp [walk, visited]
  | succ n ih =>
    by_cases hp : mem p = MPPROC
    · rw [walk_proc hp, visited_proc hp, ih (p + 20) _ (by omega), List.forall_mem_cons,
        ← and_assoc]
      refine and_congr_left fun _ => ?_
      have hread : ((s.read p).noteBoot mem p).reads = s.reads ++ [p] ++ [p + 3] := rfl
      constructor
      · intro h
        have hbefore := fun a ha => h a (reads_sub_count ha)
        rw [hread, List.forall_mem_append, List.forall_mem_append] at hbefore
        obtain ⟨⟨hs, hp0⟩, hp3⟩ := hbefore
        exact ⟨hs, (hp0 p (by simp)).2, fun _ => (hp3 (p + 3) (by simp)).2⟩
      · rintro ⟨hs, -, hfit⟩
        have hp3 : p + 3 < stop := hfit hp
        rw [count_reads hp3 hlo, hread, List.forall_mem_append, List.forall_mem_append,
          List.forall_mem_singleton, List.forall_mem_singleton]
        exact ⟨⟨hs, hlo, by omega⟩, by omega, hp3⟩
    · have hone : (∀ a ∈ (s.read p).reads, start ≤ a ∧ a < stop) ↔
          (∀ a ∈ s.reads, start ≤ a ∧ a < stop) ∧ EntryFits mem stop p := by
        simp only [Found.read, List.forall_mem_append, List.forall_mem_singleton, EntryFits]
        exact and_congr_right fun _ => ⟨fun h => ⟨h.2, fun h0 => absurd h0 hp⟩,
          fun h => ⟨hlo, h.1⟩⟩
      by_cases hs : skipped (mem p) = true
      · rw [walk_skip hp hs, visited_skip hp hs, ih (p + 8) _ (by omega), hone,
          List.forall_mem_cons, and_assoc]
      · rw [walk_stop hp hs, visited_stop hp hs, List.forall_mem_singleton, ← hone]

/-- Once `NCPU` processors are counted, another boot processor takes `bootcpu` behind the array,
and it stays there. -/
theorem walk_bootcpu (n p : ℕ) {s : Found} (h : s.Inv) :
    (walk mem n p s).bootcpu < NCPU ↔
      s.bootcpu < NCPU ∧
        ∀ q ∈ (processors mem n p).drop (NCPU - s.ncpu), boots mem q = false := by
  induction n generalizing p s with
  | zero => simp [walk, processors, visited]
  | succ n ih =>
    by_cases hp : mem p = MPPROC
    · rw [walk_proc hp, processors_proc hp, ih (p + 20) (h.read p).noteBoot.count, count_bootcpu,
        count_ncpu]
      have hnote : ((s.read p).noteBoot mem p).bootcpu
          = if boots mem p then s.ncpu else s.bootcpu := rfl
      have hncpu : ((s.read p).noteBoot mem p).ncpu = s.ncpu := rfl
      have hle := h.bootcpu
      rw [hnote, hncpu]
      by_cases hlt : s.ncpu < NCPU
      · -- there is room: whichever index is taken is inside the array
        have hdrop : NCPU - s.ncpu = NCPU - (s.ncpu + 1) + 1 := by omega
        rw [if_pos hlt, hdrop, List.drop_succ_cons]
        refine and_congr_left fun _ => ?_
        split
        · exact ⟨fun _ => by omega, fun _ => hlt⟩
        · rfl
      · have hfull : s.ncpu = NCPU := le_antisymm h.ncpu (not_lt.1 hlt)
        rw [if_neg hlt, hfull, Nat.sub_self, List.drop_zero, List.drop_zero, List.forall_mem_cons,
          ← and_assoc]
        refine and_congr_left fun _ => ?_
        cases boots mem p <;> simp
    · by_cases hs : skipped (mem p) = true
      · rw [walk_skip hp hs, processors_skip hp hs, ih (p + 8) (h.read p)]
        rfl
      · rw [walk_stop hp hs, processors_stop hp hs]
        simp [Found.read]

theorem finish_ok {s : Found} (h : s.Inv) :
    (finish s).Ok start stop ↔
      s.bootcpu < NCPU ∧ ∀ a ∈ s.reads, start ≤ a ∧ a < stop := by
  have hb : (finish s).bootcpu = s.bootcpu := by
    unfold finish
    dsimp only
    split <;> rfl
  have hr : (finish s).reads = s.reads := by
    unfold finish
    dsimp only
    split <;> rfl
  have hw : (finish s).writes = s.writes ++ [s.bootcpu] := by
    unfold finish
    dsimp only
    split <;> rfl
  have hn : (finish s).ncpu ≤ NCPU := by
    unfold finish
    dsimp only
    split
    · exact h.ncpu
    · exact (by decide : 1 ≤ NCPU)
  constructor
  · intro ok
    exact ⟨hb ▸ ok.bootcpu, hr ▸ ok.reads⟩
  · rintro ⟨hboot, hreads⟩
    refine ⟨hn, hb ▸ hboot, ?_, hr ▸ hreads⟩
    rw [hw, List.forall_mem_append, List.forall_mem_singleton]
    exact ⟨h.writes, hboot⟩

end Run

/-! ## Tables -/

/-- Of the tables that `mpconfig` accepts, exactly those that fit keep `mp_init` inside the table
and inside `cpus`. -/
theorem mpInit_iff (npages : ℕ) (mem : Mem) (conf : ℕ)
    (h : mpconfig npages mem = some (some conf)) :
    MpInitOk npages mem conf ↔ Fits mem conf := by
  have hinit : mpInit npages mem = some (finish (walk mem (entryCount mem conf) (conf + 44)
      { ismp := true, lapicaddr := le32 mem (conf + 36) })) := by
    rw [mpInit, h]
    rfl
  have hinv : ({ ismp := true, lapicaddr := le32 mem (conf + 36) } : Found).Inv :=
    ⟨Nat.zero_le _, le_rfl, by simp⟩
  have hok : MpInitOk npages mem conf ↔ (finish (walk mem (entryCount mem conf) (conf + 44)
      { ismp := true, lapicaddr := le32 mem (conf + 36) })).Ok conf (tableEnd mem conf) := by
    unfold MpInitOk
    rw [hinit]
    exact ⟨fun ⟨s, hs, ok⟩ => Option.some.inj hs ▸ ok, fun ok => ⟨_, rfl, ok⟩⟩
  rw [hok, finish_ok (walk_inv _ _ hinv), walk_bootcpu _ _ hinv,
    walk_reads _ _ _ (Nat.le_add_right conf 44)]
  unfold Fits
  simp only [List.not_mem_nil, false_imp_iff, implies_true, true_and, Nat.sub_zero]
  have hzero : 0 < NCPU := by decide
  exact ⟨fun ok => ⟨ok.2, ok.1.2⟩, fun ok => ⟨⟨hzero, ok.2⟩, ok.1⟩⟩

/-- The header of a table of less than 256 bytes. -/
def header (length entry checksum : Byte) : List Byte :=
  [0x50#8, 0x43#8, 0x4D#8, 0x50#8, length, 0#8, 4#8, checksum] ++ List.replicate 26 0#8 ++
    [entry, 0#8, 0#8, 0#8, 0xE0#8, 0xFE#8, 0#8, 0#8, 0#8, 0#8]

def processor (flags : Byte) : List Byte := [MPPROC, 0#8, 0x14#8, flags] ++ List.replicate 16 0#8

/-- Memory with a table at `0x1000` and the floating pointer structure at the start of the EBDA. -/
def bios (table : List Byte) : Mem := fun a =>
  if a = 0x40E then 0xC0#8
  else if a = 0x40F then 0x9F#8
  else if 0x9FC00 ≤ a then
    [0x5F#8, 0x4D#8, 0x50#8, 0x5F#8, 0#8, 0x10#8, 0#8, 0#8, 1#8, 4#8, 0x90#8].getD (a - 0x9FC00) 0#8
  else if 0x1000 ≤ a then table.getD (a - 0x1000) 0#8
  else 0#8

/-- A machine of one processor. -/
theorem mpInit_one : MpInitOk 1024 (bios (header 64#8 1#8 0x96#8 ++ processor 3#8)) 0x1000 := by
  refine (mpInit_iff 1024 _ 0x1000 (by decide +kernel)).2 ?_
  unfold Fits EntryFits
  decide +kernel

/-- Nine processors, the last of which is the boot processor, take `bootcpu` behind the array; and
a table that counts one entry more than its length has room for is read behind its end. -/
theorem mpInit_strays :
    (∃ mem, mpconfig 1024 mem = some (some 0x1000) ∧
      (mpInit 1024 mem).map Found.bootcpu = some NCPU ∧ ¬ MpInitOk 1024 mem 0x1000) ∧
    ∃ mem, mpconfig 1024 mem = some (some 0x1000) ∧
      (mpInit 1024 mem).map Found.reads = some [tableEnd mem 0x1000, tableEnd mem 0x1000 + 3] ∧
        ¬ MpInitOk 1024 mem 0x1000 := by
  constructor
  · refine ⟨bios (header 224#8 9#8 0x46#8 ++ (List.replicate 8 (processor 1#8)).flatten
      ++ processor 3#8), by decide +kernel, ?_⟩
    have hboot : (mpInit 1024 (bios (header 224#8 9#8 0x46#8 ++
        (List.replicate 8 (processor 1#8)).flatten ++ processor 3#8))).map Found.bootcpu
        = some NCPU := by decide +kernel
    refine ⟨hboot, ?_⟩
    rintro ⟨s, hs, ok⟩
    rw [hs] at hboot
    exact absurd ok.bootcpu (Option.some.inj hboot).ge.not_gt
  · refine ⟨bios (header 44#8 1#8 0xC1#8), by decide +kernel, ?_⟩
    have hreads : (mpInit 1024 (bios (header 44#8 1#8 0xC1#8))).map Found.reads
        = some [tableEnd (bios (header 44#8 1#8 0xC1#8)) 0x1000,
          tableEnd (bios (header 44#8 1#8 0xC1#8)) 0x1000 + 3] := by decide +kernel
    refine ⟨hreads, ?_⟩
    rintro ⟨s, hs, ok⟩
    rw [hs] at hreads
    have hmem : tableEnd (bios (header 44#8 1#8 0xC1#8)) 0x1000 ∈ s.reads := by
      rw [Option.some.inj hreads]
      exact List.mem_cons_self
    exact lt_irrefl _ (ok.reads _ hmem).2

end Jos.Mpconfig
