import Jos.Kern.Boot
import Jos.User.Pfentry

/-!
# What a page fault handler is told

`page_fault_handler` of `kern/trap.c` writes a `struct UTrapframe` to the
exception stack, and the handler of the environment, `pgfault` of `lib/fork.c`
for one, reads it.

* `readUtf` — the frame as user code reads it back from its memory.
* `faultRecord` — what the frame is meant to say.
* `readUtf_pushed` — what it says: all of that, except that `utf_err` is the
  number of the trap.  The frame may lie anywhere, also across two pages.
* `utf_faithful_iff` — so the frame is right exactly for the error code 14,
  which no processor reports.  `pgfault` takes every fault for a write, since
  14 has the bit `FEC_WR`.
-/

namespace Jos.Pfentry

/-- `struct UTrapframe`. -/
structure UTrapframe where
  utfFaultVa : Word
  utfErr : Word
  utfRegs : PushRegs
  utfEip : Word
  utfEflags : Word
  utfEsp : Word
  deriving DecidableEq

/-- `struct PushRegs` in memory. -/
def readRegs (m : ByteMem) (a : Word) : PushRegs where
  regEdi := load32 m a
  regEsi := load32 m (a + 4#32)
  regEbp := load32 m (a + 8#32)
  regOesp := load32 m (a + 12#32)
  regEbx := load32 m (a + 16#32)
  regEdx := load32 m (a + 20#32)
  regEcx := load32 m (a + 24#32)
  regEax := load32 m (a + 28#32)

/-- The frame at `a`, field by field. -/
def readUtf (m : ByteMem) (a : Word) : UTrapframe where
  utfFaultVa := load32 m a
  utfErr := load32 m (a + 4#32)
  utfRegs := readRegs m (a + 8#32)
  utfEip := load32 m (a + 40#32)
  utfEflags := load32 m (a + 44#32)
  utfEsp := load32 m (a + 48#32)

/-- A faithful record of a fault at address `cr2` with trap frame `tf`. -/
def faultRecord (cr2 : Word) (tf : Trapframe) : UTrapframe where
  utfFaultVa := cr2
  utfErr := tf.tfErr
  utfRegs := tf.tfRegs
  utfEip := tf.tfEip
  utfEflags := tf.tfEflags
  utfEsp := tf.tfEsp

/-- Page fault error code: the access was a write. -/
def FEC_WR : Word := 2#32

/-- The mark of a page that is copied when it is written to. -/
def PTE_COW : Word := 0x800#32

/-- The test at the start of `pgfault`: the fault is taken for a write to a page
marked copy-on-write, whose entry is `pte`. -/
def pgfaultAccepts (utf : UTrapframe) (pte : Word) : Prop :=
  utf.utfErr &&& FEC_WR ≠ 0#32 ∧ pte &&& PTE_COW ≠ 0#32

/-- The frame tells the handler what happened, and `pgfault` takes no read for a
write. -/
structure Faithful (cr2 : Word) (tf : Trapframe) (utf : UTrapframe) : Prop where
  record : utf = faultRecord cr2 tf
  write : utf.utfErr &&& FEC_WR ≠ 0#32 ↔ tf.tfErr &&& FEC_WR ≠ 0#32
  handler : tf.tfErr &&& FEC_WR = 0#32 → ∀ pte, ¬ pgfaultAccepts utf pte

theorem faithful_iff {cr2 : Word} {tf : Trapframe} {utf : UTrapframe} :
    Faithful cr2 tf utf ↔ utf = faultRecord cr2 tf := by
  refine ⟨fun h => h.record, ?_⟩
  rintro rfl
  exact ⟨rfl, Iff.rfl, fun hread pte hacc => hacc.1 hread⟩

/-! ## The frame in memory -/

section Frame

variable {pm pm' : PhysMem} {r : ℕ} {utf : Word} {ws : List Word}

/-- A word of the frame. -/
theorem load32_frame (hap : FrameApart pm r utf) (hlen : ws.length = 13)
    (hrun : storeUser r utf (ws.flatMap wordBytes) pm = .ok () pm') (j : ℕ) (hj : j < 13) :
    load32 (userByte pm' r) (utf + BitVec.ofNat 32 (4 * j)) = ws.getD j 0#32 := by
  rw [List.getD_eq_getElem _ _ (hlen.symm ▸ hj),
    ← load32_storeWords ws (userByte pm r) utf j (hlen.symm ▸ hj) (by rw [hlen]; decide)]
  refine load32_congr fun x hx => userByte_frame hap hlen hrun ?_
  have hoff : (BitVec.ofNat 32 (4 * j)).toNat = 4 * j := by
    rw [BitVec.toNat_ofNat]
    omega
  bv_omega

/-- **The frame that was pushed.** -/
theorem readUtf_pushed {cr2 : Word} {tf : Trapframe} (hap : FrameApart pm r utf)
    (hrun : storeUser r utf ((utfWords cr2 tf).flatMap wordBytes) pm = .ok () pm') :
    readUtf (userByte pm' r) utf = { faultRecord cr2 tf with utfErr := tf.tfTrapno } := by
  have hw := load32_frame hap rfl hrun
  have h0 := hw 0 (by decide)
  rw [BitVec.add_zero] at h0
  have hadd : ∀ a b : ℕ, utf + BitVec.ofNat 32 a + BitVec.ofNat 32 b
      = utf + BitVec.ofNat 32 (a + b) := fun a b => by rw [BitVec.add_assoc, ← BitVec.ofNat_add]
  rw [readUtf, readRegs, UTrapframe.mk.injEq, PushRegs.mk.injEq]
  refine ⟨h0, hw 1 (by decide), ⟨hw 2 (by decide), ?_, ?_, ?_, ?_, ?_, ?_, ?_⟩, hw 10 (by decide),
    hw 11 (by decide), hw 12 (by decide)⟩
  · exact (congrArg _ (hadd 8 4)).trans (hw 3 (by decide))
  · exact (congrArg _ (hadd 8 8)).trans (hw 4 (by decide))
  · exact (congrArg _ (hadd 8 12)).trans (hw 5 (by decide))
  · exact (congrArg _ (hadd 8 16)).trans (hw 6 (by decide))
  · exact (congrArg _ (hadd 8 20)).trans (hw 7 (by decide))
  · exact (congrArg _ (hadd 8 24)).trans (hw 8 (by decide))
  · exact (congrArg _ (hadd 8 28)).trans (hw 9 (by decide))

end Frame

/-- **What the handler is told.**  In every field but `utf_err` the frame is
right; `utf_err` is 14, so the frame is faithful exactly when the processor's
error code is. -/
theorem utf_faithful_iff {k k₁ k' : Kernel} {cpu r : ℕ} {c : EnvIdx} {inp : Input}
    {tf : Trapframe} (hc : k.curenv cpu = some c) (hr : (k.envs c).envPgdir = some r)
    (hup : (k.envs c).envPgfaultUpcall ≠ 0#32) (htrap : tf.tfTrapno = T_PGFLT)
    (hap : FrameApart k.pm r (utfAddr tf.tfEsp))
    (hok : userMemAssert cpu c (utfAddr tf.tfEsp) 52#32 (PTE_P ||| PTE_W ||| PTE_U) k = .ok () k₁)
    (hrun : pageFaultHandler cpu inp tf k = .error .user k') :
    readUtf (userByte k'.pm r) (k'.envs c).envTf.tfEsp
        = { faultRecord inp.cr2 tf with utfErr := T_PGFLT } ∧
      (Faithful inp.cr2 tf (readUtf (userByte k'.pm r) (k'.envs c).envTf.tfEsp) ↔
        tf.tfErr = T_PGFLT) := by
  obtain ⟨-, htf, b, hst⟩ := pageFaultHandler_stores hc hr hup hok hrun
  have hutf : readUtf (userByte k'.pm r) (k'.envs c).envTf.tfEsp
      = { faultRecord inp.cr2 tf with utfErr := T_PGFLT } := by
    have hap₀ : FrameApart { k.pm with userMemCheckAddr := b } r (utfAddr tf.tfEsp) := hap
    have hpushed := readUtf_pushed hap₀ hst
    rw [htrap] at hpushed
    rw [htf]
    exact hpushed
  refine ⟨hutf, ?_⟩
  rw [faithful_iff, hutf]
  refine ⟨fun h => (congrArg UTrapframe.utfErr h).symm, fun h => ?_⟩
  rw [faultRecord, h]

/-! ## A read fault -/

/-- An environment with a page for its exception stack, in page 502, and a page
fault upcall, on CPU 0. -/
def faultKernel : Kernel where
  pm :=
    { boot := ⟨32768, 160, 0x1E0000, 384⟩
      pages := fun _ => ⟨none, 0#16⟩
      pageFreeList := none
      mem := fun p i =>
        if p = 500 ∧ i = pdx (UXSTACKTOP - 1#32) then 0x1F5007#32
        else if p = 501 ∧ i = ptx (UXSTACKTOP - 1#32) then 0x1F6007#32
        else 0#32
      userMemCheckAddr := 0#32 }
  envs := fun _ =>
    { Env.zero with
      envId := 0x1000#32
      envStatus := .running
      envPgdir := some 500
      envPgfaultUpcall := 0x800020#32 }
  envFreeList := none
  cpus := fun _ => ⟨.started, some 0⟩
  ticks := 0#32

/-- A read of an address where nothing is mapped: only the bit for user mode is
set in the error code. -/
def readTf : Trapframe :=
  { freshTf with tfTrapno := T_PGFLT, tfErr := 4#32, tfEip := 0x800100#32 }

/-- The same fault with the error code 14. -/
def luckyTf : Trapframe := { readTf with tfErr := T_PGFLT }

/-- A fault at address 4. -/
def faultInput : Input := ⟨0#32, readTf, 0, 4#32⟩

theorem frameApart_faultKernel : FrameApart faultKernel.pm 500 (utfAddr USTACKTOP) := by
  intro i hi j hj
  have hroom : 0xEEBFF008 ≤ (utfAddr USTACKTOP).toNat := by decide
  obtain ⟨hdi, hti⟩ := indexes_of_pgnum_eq
    ((pgnum_frame hroom hi).trans (show 0xEEBFF = pgnum (UXSTACKTOP - 1#32) by decide))
  obtain ⟨hdj, -⟩ := indexes_of_pgnum_eq
    ((pgnum_frame hroom hj).trans (show 0xEEBFF = pgnum (UXSTACKTOP - 1#32) by decide))
  have hpage : (wordAt faultKernel.pm 500 (utfAddr USTACKTOP + BitVec.ofNat 32 i)).page = 502 := by
    rw [wordAt, hdi, hti]
    rfl
  rw [Apart, hpage, hdj]
  decide

/-- `user_mem_assert` accepts the exception stack. -/
theorem faultKernel_assert : userMemAssert 0 0 (utfAddr USTACKTOP) 52#32
    (PTE_P ||| PTE_W ||| PTE_U) faultKernel = .ok () faultKernel := by
  rw [userMemAssert]
  have hcheck : withPgdir 0 (fun pgdir => onPm (userMemCheck pgdir (utfAddr USTACKTOP) 52#32
      (PTE_P ||| PTE_W ||| PTE_U ||| PTE_U))) faultKernel = .ok (.ok ()) faultKernel := rfl
  rw [run_bind_ok hcheck]
  rfl

/-- The frame is pushed, and the upcall runs. -/
theorem faultKernel_runs (tf : Trapframe) (hesp : tf.tfEsp = USTACKTOP)
    (hcs : tf.tfCs &&& 3#16 ≠ 0#16) :
    ∃ k', pageFaultHandler 0 faultInput tf faultKernel = .error .user k' := by
  have hall : (List.range 52).all (fun i => translates faultKernel.pm 500
      (utfAddr USTACKTOP + BitVec.ofNat 32 i) (PTE_P ||| PTE_W)) = true := by decide
  have hst : ∃ pm, storeUser 500 (utfAddr USTACKTOP)
      ((utfWords faultInput.cr2 tf).flatMap wordBytes) faultKernel.pm = .ok () pm := by
    rw [storeUser, run_get_bind, length_flatMap_wordBytes]
    exact ⟨_, congrFun (if_pos hall) _⟩
  obtain ⟨pm, hst⟩ := hst
  have hpush : pushUtf 0 (utfAddr USTACKTOP) (utfWords faultInput.cr2 tf) faultKernel
      = .ok () { faultKernel with pm := pm } := onPm_ok hst
  have hcur : faultKernel.curenv 0 = some 0 := rfl
  have hup : (faultKernel.envs 0).envPgfaultUpcall ≠ 0#32 := by decide
  rw [pageFaultHandler, if_neg hcs, run_get_bind, hesp]
  simp only [hcur, if_pos hup]
  rw [run_bind_ok faultKernel_assert, run_bind_ok hpush, run_modify_bind, envRun_some (r := 500) rfl]
  exact ⟨_, rfl⟩

/-- The exception stack of a fault on the ordinary stack. -/
theorem faultKernel_stack (tf : Trapframe) (hesp : tf.tfEsp = USTACKTOP) :
    FrameApart faultKernel.pm 500 (utfAddr tf.tfEsp) ∧
      userMemAssert 0 0 (utfAddr tf.tfEsp) 52#32 (PTE_P ||| PTE_W ||| PTE_U) faultKernel
        = .ok () faultKernel := by
  rw [hesp]
  exact ⟨frameApart_faultKernel, faultKernel_assert⟩

/-- With the one error code that equals the trap number, the frame is faithful. -/
theorem utf_faithful_lucky : ∃ k', pageFaultHandler 0 faultInput luckyTf faultKernel
      = .error .user k' ∧
    Faithful faultInput.cr2 luckyTf (readUtf (userByte k'.pm 500) (k'.envs 0).envTf.tfEsp) := by
  obtain ⟨k', hrun⟩ := faultKernel_runs luckyTf rfl (by decide)
  obtain ⟨hap, hok⟩ := faultKernel_stack luckyTf rfl
  exact ⟨k', hrun, (utf_faithful_iff rfl rfl (by decide) rfl hap hok hrun).2.2 rfl⟩

/-- A read fault is reported as a write: `utf_err` is 14, and `pgfault` goes on
to copy the page if it is marked copy-on-write. -/
theorem read_fault_reported_as_write :
    ∃ k', pageFaultHandler 0 faultInput readTf faultKernel = .error .user k' ∧
      readTf.tfErr &&& FEC_WR = 0#32 ∧
      (readUtf (userByte k'.pm 500) (k'.envs 0).envTf.tfEsp).utfErr = 14#32 ∧
      pgfaultAccepts (readUtf (userByte k'.pm 500) (k'.envs 0).envTf.tfEsp) PTE_COW ∧
      ¬ Faithful faultInput.cr2 readTf
        (readUtf (userByte k'.pm 500) (k'.envs 0).envTf.tfEsp) := by
  obtain ⟨k', hrun⟩ := faultKernel_runs readTf rfl (by decide)
  obtain ⟨hap, hok⟩ := faultKernel_stack readTf rfl
  obtain ⟨-, htf, b, hst⟩ := pageFaultHandler_stores (r := 500) rfl rfl (by decide) hok hrun
  have hap₀ : FrameApart { faultKernel.pm with userMemCheckAddr := b } 500
      (utfAddr readTf.tfEsp) := hap
  have herr : (readUtf (userByte k'.pm 500) (k'.envs 0).envTf.tfEsp).utfErr = 14#32 := by
    rw [htf]
    exact congrArg UTrapframe.utfErr (readUtf_pushed hap₀ hst)
  have hacc : pgfaultAccepts (readUtf (userByte k'.pm 500) (k'.envs 0).envTf.tfEsp) PTE_COW := by
    rw [pgfaultAccepts, herr]
    decide
  exact ⟨k', hrun, by decide, herr, hacc, fun h => h.handler (by decide) _ hacc⟩

end Jos.Pfentry
