import Mathlib
import Jos.Lib.ByteMem
import Jos.Kern.PmapRefine
import Jos.Kern.Steps

/-!
# Page-fault upcalls

`lib/pfentry.S` and the part of `page_fault_handler` it depends on.  When user
code faults, the kernel pushes a `struct UTrapframe` on the exception stack and
continues at `_pgfault_upcall`, which calls a handler in C and then returns to
the instruction that faulted.  It cannot jump there, since all registers must
have their old values, so it writes the old `eip` below the old stack pointer
and executes `ret` on the old stack.

The upcall may fault itself, at any of its instructions, and so may the handler:
the trap-time state of such a fault is on the exception stack.  `Run` describes
all executions of this kind, to any depth.

* `Instr`, `exec`, `upcallCode` — the instructions.
* `pushFrame` — what the kernel does.
* `Run` — executions: of one fault, of the code of the upcall, of a handler.
* `At` — what holds at each instruction of the upcall (`Pt`).
* `run_sound` — every fault is transparent but for one trap-time stack pointer.
* `transparent_iff` — that stack pointer is `UXSTACKTOP`; the upcall gets back wherever the
  word below the stack pointer is user memory.
-/

namespace Jos.Pfentry

/-! ## The machine -/

/-- The general registers, without the stack pointer. -/
structure Gpr where
  edi : Word
  esi : Word
  ebp : Word
  ebx : Word
  edx : Word
  ecx : Word
  eax : Word
  deriving DecidableEq

/-- What user code sees of the machine. -/
structure Machine where
  gpr : Gpr
  eflags : Word
  eip : Word
  esp : Word
  mem : ByteMem

/-- The arithmetic flags: `CF`, `PF`, `AF`, `ZF`, `SF`, `OF`. -/
def FL_ARITH : Word := 0x8D5#32

/-- The flags `popfl` sets in user mode. -/
def FL_POPF : Word := 0x244DD5#32

/-- The instructions of `_pgfault_upcall`. -/
inductive Instr
  /-- `pushl %esp` -/
  | pushEsp
  /-- `movl _pgfault_handler, %eax` -/
  | loadHandler
  /-- `call *%eax` -/
  | callEax
  /-- `addl $n, %esp` -/
  | addEsp (n : Word)
  /-- `movl d(%esp), %eax` -/
  | espToEax (d : Word)
  /-- `subl $n, %eax` -/
  | subEax (n : Word)
  /-- `movl %eax, d(%esp)` -/
  | eaxToEsp (d : Word)
  /-- `movl d(%esp), %ebx` -/
  | espToEbx (d : Word)
  /-- `movl %ebx, (%eax)` -/
  | storeEbx
  | popal
  | popfl
  /-- `popl %esp` -/
  | popEsp
  | ret
  deriving DecidableEq

/-- The length of an instruction in bytes. -/
def Instr.length : Instr → ℕ
  | .pushEsp | .popal | .popfl | .popEsp | .ret => 1
  | .callEax | .storeEbx => 2
  | .addEsp _ | .subEax _ => 3
  | .espToEax _ | .eaxToEsp _ | .espToEbx _ => 4
  | .loadHandler => 5

/-- `_pgfault_upcall`. -/
def upcallCode : List Instr :=
  [.pushEsp, .loadHandler, .callEax, .addEsp 4#32,
    .espToEax 48#32, .subEax 4#32, .eaxToEsp 48#32, .espToEbx 40#32, .storeEbx,
    .addEsp 8#32, .popal, .addEsp 4#32, .popfl, .popEsp, .ret]

/-- The instruction at an offset. -/
def fetch : List Instr → ℕ → Option Instr
  | [], _ => none
  | i :: _, 0 => some i
  | i :: is, n + 1 => if i.length ≤ n + 1 then fetch is (n + 1 - i.length) else none

/-- A store of user code, which can only succeed below `UTOP`. -/
def userStore (m : ByteMem) (a w : Word) : Option ByteMem :=
  if a.toNat + 4 ≤ UTOP.toNat then some (store32 m a w) else none

/-- The registers `popal` loads. -/
def popGpr (m : ByteMem) (a : Word) : Gpr where
  edi := load32 m a
  esi := load32 m (a + 4#32)
  ebp := load32 m (a + 8#32)
  ebx := load32 m (a + 16#32)
  edx := load32 m (a + 20#32)
  ecx := load32 m (a + 24#32)
  eax := load32 m (a + 28#32)

/-- One instruction.  `handler` is the address of `_pgfault_handler`, and `alu`
what arithmetic does to the flags.  There is no result if a store faults. -/
def exec (handler : Word) (alu : Word → Word → Word → Word) (i : Instr) (s : Machine) :
    Option Machine :=
  let s' := { s with eip := s.eip + BitVec.ofNat 32 i.length }
  match i with
  | .pushEsp =>
    (userStore s.mem (s.esp - 4#32) s.esp).map fun m => { s' with esp := s.esp - 4#32, mem := m }
  | .loadHandler => some { s' with gpr := { s.gpr with eax := load32 s.mem handler } }
  | .callEax =>
    (userStore s.mem (s.esp - 4#32) s'.eip).map fun m =>
      { s with eip := s.gpr.eax, esp := s.esp - 4#32, mem := m }
  | .addEsp n => some { s' with esp := s.esp + n, eflags := alu s.esp n s.eflags }
  | .espToEax d => some { s' with gpr := { s.gpr with eax := load32 s.mem (s.esp + d) } }
  | .subEax n =>
    some { s' with
      gpr := { s.gpr with eax := s.gpr.eax - n }, eflags := alu s.gpr.eax n s.eflags }
  | .eaxToEsp d => (userStore s.mem (s.esp + d) s.gpr.eax).map fun m => { s' with mem := m }
  | .espToEbx d => some { s' with gpr := { s.gpr with ebx := load32 s.mem (s.esp + d) } }
  | .storeEbx => (userStore s.mem s.gpr.eax s.gpr.ebx).map fun m => { s' with mem := m }
  | .popal => some { s' with gpr := popGpr s.mem s.esp, esp := s.esp + 32#32 }
  | .popfl =>
    some { s' with
      eflags := (s.eflags &&& ~~~FL_POPF) ||| (load32 s.mem s.esp &&& FL_POPF)
      esp := s.esp + 4#32 }
  | .popEsp => some { s' with esp := load32 s.mem s.esp }
  | .ret => some { s with eip := load32 s.mem s.esp, esp := s.esp + 4#32 }

/-! ## The kernel -/

/-- The trap frame holds the registers of the machine. -/
structure Trapped (s : Machine) (tf : Trapframe) : Prop where
  gpr : s.gpr = ⟨tf.tfRegs.regEdi, tf.tfRegs.regEsi, tf.tfRegs.regEbp, tf.tfRegs.regEbx,
    tf.tfRegs.regEdx, tf.tfRegs.regEcx, tf.tfRegs.regEax⟩
  eip : s.eip = tf.tfEip
  eflags : s.eflags = tf.tfEflags
  esp : s.esp = tf.tfEsp

/-- The machine when the kernel starts the upcall. -/
def pushFrame (upcall va : Word) (tf : Trapframe) (s : Machine) : Machine :=
  { s with
    eip := upcall
    esp := utfAddr s.esp
    mem := storeWords s.mem (utfAddr s.esp) (utfWords va tf) }

/-- Addresses on the exception stack. -/
def OnXstack (a : Word) : Prop := UXSTACKTOP.toNat - PGSIZE ≤ a.toNat ∧ a.toNat < UXSTACKTOP.toNat

/-- The exception stack has room for the frame, the argument of the handler and
its return address. -/
def Room (s : Machine) : Prop := UXSTACKTOP.toNat - PGSIZE + 8 ≤ (utfAddr s.esp).toNat

/-- Memory a fault needs while it is handled: its frame, and the word below the
trap-time stack pointer. -/
def Pending (esp : Word) : Set Word :=
  {a | (a - utfAddr esp).toNat < 52 ∨ (a - (esp - 4#32)).toNat < 4}

/-! ## Executions -/

/-- Parts of an execution. -/
inductive Part
  /-- From a fault to the return to the instruction that faulted. -/
  | fault
  /-- Code of the upcall. -/
  | code
  /-- The handler, called with stack pointer `base`. -/
  | handler (base : Word)

/-- `Run u h alu k live s s' w`: an execution of kind `k` from `s` to `s'`, with
`_pgfault_upcall` at `u`.  The handlers write the bytes in `w`, none of which is
in `live`, the memory needed by the faults being handled. -/
inductive Run (u h : Word) (alu : Word → Word → Word → Word) :
    Part → Set Word → Machine → Machine → Set Word → Prop
  /-- The kernel pushes a frame, the upcall runs up to its last instruction, and
  that is `ret`. -/
  | fault {live s s' t w va tf} (htf : Trapped s tf) (hroom : Room s)
      (hrun : Run u h alu .code (live ∪ Pending s.esp) (pushFrame u va tf s) t w)
      (hat : fetch upcallCode (t.eip - u).toNat = some .ret)
      (hret : exec h alu .ret t = some s') : Run u h alu .fault live s s' w
  | start {live t} : Run u h alu .code live t t ∅
  /-- An instruction other than `call` and `ret`. -/
  | instr {live t t₁ t₂ w i} (hrun : Run u h alu .code live t t₁ w)
      (hat : fetch upcallCode (t₁.eip - u).toNat = some i) (hcall : i ≠ .callEax)
      (hret : i ≠ .ret) (hexec : exec h alu i t₁ = some t₂) : Run u h alu .code live t t₂ w
  /-- The handler is called, and returns to the next instruction. -/
  | call {live t t₁ t₂ t₃ w w'} (hrun : Run u h alu .code live t t₁ w)
      (hat : fetch upcallCode (t₁.eip - u).toNat = some .callEax)
      (hexec : exec h alu .callEax t₁ = some t₂)
      (hbody : Run u h alu (.handler t₂.esp) live t₂ t₃ w')
      (heip : t₃.eip = t₁.eip + 2#32) (hesp : t₃.esp = t₁.esp) :
      Run u h alu .code live t t₃ (w ∪ w')
  /-- An instruction faults, and is then tried again. -/
  | again {live t t₁ t₂ w w'} (hrun : Run u h alu .code live t t₁ w)
      (hfault : Run u h alu .fault live t₁ t₂ w') : Run u h alu .code live t t₂ (w ∪ w')
  | enter {live base t} : Run u h alu (.handler base) live t t ∅
  /-- The handler does something: registers change, and memory in `w'`. -/
  | own {live base t t₁ t₂ w w'} (hrun : Run u h alu (.handler base) live t t₁ w)
      (hmem : ∀ a, a ∉ w' → t₂.mem a = t₁.mem a) (hlive : Disjoint w' live) :
      Run u h alu (.handler base) live t t₂ (w ∪ w')
  /-- The handler faults, on the stack it was given. -/
  | nested {live base t t₁ t₂ w w'} (hrun : Run u h alu (.handler base) live t t₁ w)
      (hon : OnXstack t₁.esp) (hle : t₁.esp.toNat ≤ base.toNat)
      (hfault : Run u h alu .fault live t₁ t₂ w') :
      Run u h alu (.handler base) live t t₂ (w ∪ w')

/-- Handling the fault is transparent: registers and arithmetic flags are
restored, and memory from the trap-time stack pointer on is as the handlers left
it.  If the fault happened elsewhere than on the exception stack, that stack may
be used. -/
structure Transparent (s s' : Machine) (w : Set Word) : Prop where
  gpr : s'.gpr = s.gpr
  flags : s'.eflags &&& FL_ARITH = s.eflags &&& FL_ARITH
  eip : s'.eip = s.eip
  esp : s'.esp = s.esp
  mem : ∀ a, s.esp.toNat ≤ a.toNat → a ∉ w → (OnXstack s.esp ∨ ¬ OnXstack a) →
    s'.mem a = s.mem a

/-! ## Addresses -/

/-- The memory handling a fault may change, apart from what handlers write: the
part of the exception stack that is not in use, and whatever is below the stack
pointer. -/
def Scratch (esp a : Word) : Prop :=
  (OnXstack esp ∧ OnXstack a ∧ a.toNat < esp.toNat) ∨
    (¬ OnXstack esp ∧ (OnXstack a ∨ a.toNat < esp.toNat))

variable {a utf x : Word} {m : ByteMem} {n i : ℕ}

theorem onXstack_iff : OnXstack a ↔ 0xEEBFF000 ≤ a.toNat ∧ a.toNat < 0xEEC00000 :=
  Iff.rfl

theorem utfAddr_on {esp : Word} (h : OnXstack esp) : utfAddr esp = esp - 52#32 - 4#32 := by
  rw [onXstack_iff] at h
  refine if_pos ⟨?_, ?_⟩
  · show (0xEEBFF000#32).toNat ≤ esp.toNat
    exact h.1
  · exact h.2

theorem utfAddr_off {esp : Word} (h : ¬ OnXstack esp) : utfAddr esp = 0xEEBFFFCC#32 := by
  refine if_neg fun hon => h ⟨?_, ?_⟩
  · exact hon.1
  · exact hon.2

/-- Where the frame is, as numbers. -/
theorem frame_toNat (esp : Word) :
    ((0xEEBFF000 ≤ esp.toNat ∧ esp.toNat < 0xEEC00000) ∧ (utfAddr esp).toNat + 56 = esp.toNat) ∨
      (¬ (0xEEBFF000 ≤ esp.toNat ∧ esp.toNat < 0xEEC00000) ∧ (utfAddr esp).toNat = 0xEEBFFFCC) := by
  by_cases hon : OnXstack esp
  · refine Or.inl ⟨hon, ?_⟩
    rw [utfAddr_on hon]
    rw [onXstack_iff] at hon
    bv_omega
  · exact Or.inr ⟨hon, by rw [utfAddr_off hon]; rfl⟩

theorem frame_le (esp : Word) : (utfAddr esp).toNat ≤ 0xEEBFFFCC := by
  have hframe := frame_toNat esp
  omega

theorem room_iff {s : Machine} : Room s ↔ 0xEEBFF008 ≤ (utfAddr s.esp).toNat := Iff.rfl

/-! ## What holds at each instruction -/

/-- The instructions of the upcall, in order. -/
inductive Pt
  | pushEsp | loadHandler | callEax | popArg | getEsp | subEsp | putEsp | getEip | storeEip
  | skipInfo | popal | skipEip | popfl | popEsp | ret

namespace Pt

def offset : Pt → ℕ
  | pushEsp => 0 | loadHandler => 1 | callEax => 6 | popArg => 8 | getEsp => 11 | subEsp => 15
  | putEsp => 18 | getEip => 22 | storeEip => 26 | skipInfo => 28 | popal => 31 | skipEip => 32
  | popfl => 35 | popEsp => 36 | ret => 37

def instr : Pt → Instr
  | pushEsp => .pushEsp | loadHandler => .loadHandler | callEax => .callEax
  | popArg => .addEsp 4#32 | getEsp => .espToEax 48#32 | subEsp => .subEax 4#32
  | putEsp => .eaxToEsp 48#32 | getEip => .espToEbx 40#32 | storeEip => .storeEbx
  | skipInfo => .addEsp 8#32 | popal => .popal | skipEip => .addEsp 4#32 | popfl => .popfl
  | popEsp => .popEsp | ret => .ret

def next : Pt → Pt
  | pushEsp => loadHandler | loadHandler => callEax | callEax => popArg | popArg => getEsp
  | getEsp => subEsp | subEsp => putEsp | putEsp => getEip | getEip => storeEip
  | storeEip => skipInfo | skipInfo => popal | popal => skipEip | skipEip => popfl
  | popfl => popEsp | popEsp => ret | ret => ret

theorem fetch_offset (p : Pt) : fetch upcallCode p.offset = some p.instr := by
  cases p <;> rfl

/-- The stack pointer `popl %esp` loads.  If the fault happened at `UXSTACKTOP`,
the old `eip` was stored over it. -/
def retEsp (s : Machine) : Word := if s.esp = UXSTACKTOP then s.eip else s.esp - 4#32

/-- The stack pointer. -/
def esp (s : Machine) : Pt → Word
  | loadHandler | callEax | popArg => utfAddr s.esp - 4#32
  | popal => utfAddr s.esp + 8#32
  | skipEip => utfAddr s.esp + 40#32
  | popfl => utfAddr s.esp + 44#32
  | popEsp => utfAddr s.esp + 48#32
  | ret => retEsp s
  | _ => utfAddr s.esp

/-- The first word of the frame that is still needed. -/
def first : Pt → ℕ
  | skipEip | popfl => 11
  | popEsp => 12
  | ret => 13
  | _ => 2

/-- The last word of the frame. -/
def last (s : Machine) : Pt → Word
  | getEip | storeEip => s.esp - 4#32
  | skipInfo | popal | skipEip | popfl | popEsp | ret => retEsp s
  | _ => s.esp

/-- Has the old `eip` been stored on the trap-time stack? -/
def stored : Pt → Bool
  | skipInfo | popal | skipEip | popfl | popEsp | ret => true
  | _ => false

/-- What the registers hold. -/
def Regs (s : Machine) (r : Gpr) (flags : Word) : Pt → Prop
  | subEsp => r.eax = s.esp
  | putEsp | getEip => r.eax = s.esp - 4#32
  | storeEip => r.eax = s.esp - 4#32 ∧ r.ebx = s.eip
  | skipEip | popfl => r = s.gpr
  | popEsp | ret => r = s.gpr ∧ flags &&& FL_ARITH = s.eflags &&& FL_ARITH
  | _ => True

end Pt

/-- The words of the frame at `utf` from number `n` on. -/
def Words (m : ByteMem) (utf : Word) (ws : List Word) (n : ℕ) : Prop :=
  ∀ j, n ≤ j → j < 13 → load32 m (utf + BitVec.ofNat 32 (4 * j)) = ws.getD j 0#32

theorem Words.mono {ws : List Word} {n' : ℕ} (h : Words m utf ws n) (hn : n ≤ n') :
    Words m utf ws n' :=
  fun j hj hj' => h j (hn.trans hj) hj'

theorem Words.congr {m' : ByteMem} {ws : List Word} (h : Words m utf ws n)
    (hm : ∀ a, 4 * n ≤ (a - utf).toNat → (a - utf).toNat < 52 → m' a = m a) :
    Words m' utf ws n := by
  intro j hj hj'
  rw [← h j hj hj']
  refine load32_congr fun a ha => hm a ?_ ?_
  · have hoff : (BitVec.ofNat 32 (4 * j)).toNat = 4 * j := by
      rw [BitVec.toNat_ofNat]
      omega
    bv_omega
  · have hoff : (BitVec.ofNat 32 (4 * j)).toNat = 4 * j := by
      rw [BitVec.toNat_ofNat]
      omega
    bv_omega

section Points

variable (u : Word) (s : Machine) (va : Word) (tf : Trapframe)

/-- The state at instruction `p` while the fault at `s` is handled. -/
structure At (p : Pt) (t : Machine) (w : Set Word) : Prop where
  eip : t.eip = u + BitVec.ofNat 32 p.offset
  esp : t.esp = p.esp s
  words : Words t.mem (utfAddr s.esp) (utfWords va { tf with tfEsp := p.last s }) p.first
  slot : p.stored = true →
    load32 t.mem (s.esp - 4#32) = s.eip ∧ 4 ≤ s.esp.toNat ∧ s.esp.toNat ≤ UXSTACKTOP.toNat
  regs : p.Regs s t.gpr t.eflags
  mem : ∀ a, a ∉ w → ¬ Scratch s.esp a → t.mem a = s.mem a

variable {u s va tf} {h : Word} {alu : Word → Word → Word → Word} {p : Pt} {t t' : Machine}
  {w : Set Word}

/-- An instruction that leaves memory alone. -/
theorem At.keep (hat : At u s va tf p t w) (q : Pt) (hmem : t'.mem = t.mem)
    (heip : t'.eip = u + BitVec.ofNat 32 q.offset) (hesp : t'.esp = q.esp s)
    (hregs : q.Regs s t'.gpr t'.eflags) (hfirst : p.first ≤ q.first) (hlast : q.last s = p.last s)
    (hstored : q.stored = p.stored) : At u s va tf q t' w where
  eip := heip
  esp := hesp
  words := by
    rw [hmem, hlast]
    exact hat.words.mono hfirst
  slot := by
    rw [hmem, hstored]
    exact hat.slot
  regs := hregs
  mem := by
    rw [hmem]
    exact hat.mem

/-- The next instruction. -/
theorem At.eip_next (hat : At u s va tf p t w) (hp : p ≠ .ret) :
    t.eip + BitVec.ofNat 32 p.instr.length = u + BitVec.ofNat 32 p.next.offset := by
  have hoff : p.offset + p.instr.length = p.next.offset := by
    cases p <;> first | rfl | exact absurd rfl hp
  rw [hat.eip, BitVec.add_assoc, ← BitVec.ofNat_add, hoff]

/-- A store of the upcall to memory that is free. -/
theorem store_scratch {b v : Word} (hm : ∀ a, a ∉ w → ¬ Scratch s.esp a → m a = s.mem a)
    (hb : ∀ a, (a - b).toNat < 4 → Scratch s.esp a) :
    ∀ a, a ∉ w → ¬ Scratch s.esp a → store32 m b v a = s.mem a := by
  intro a ha hs
  have hout : 4 ≤ (a - b).toNat := by
    by_contra hlt
    exact hs (hb a (by omega))
  rw [store32_of_le hout]
  exact hm a ha hs

/-- The memory below the frame and the frame itself are free. -/
theorem scratch_frame (hroom : Room s) (hlo : (utfAddr s.esp).toNat ≤ a.toNat + 8)
    (hhi : a.toNat < (utfAddr s.esp).toNat + 52) : Scratch s.esp a := by
  have hframe := frame_toNat s.esp
  rw [room_iff] at hroom
  simp only [Scratch, onXstack_iff]
  omega

/-- The word below the trap-time stack pointer is free. -/
theorem scratch_slot (hroom : Room s) (hlo : 4 ≤ s.esp.toNat)
    (ha : (a - (s.esp - 4#32)).toNat < 4) : Scratch s.esp a := by
  have hlt : a.toNat < s.esp.toNat ∧ s.esp.toNat ≤ a.toNat + 4 := by bv_omega
  have hframe := frame_toNat s.esp
  rw [room_iff] at hroom
  simp only [Scratch, onXstack_iff]
  omega

theorem userStore_eq {b v : Word} (hb : b.toNat + 4 ≤ 0xEEC00000) :
    userStore m b v = some (store32 m b v) := if_pos hb

theorem exec_pushEsp (hroom : Room s) (hat : At u s va tf .pushEsp t w) :
    ∃ t', exec h alu .pushEsp t = some t' ∧ At u s va tf .loadHandler t' w := by
  have hesp : t.esp = utfAddr s.esp := hat.esp
  have hlo := room_iff.1 hroom
  have hhi := frame_le s.esp
  have hexec : exec h alu .pushEsp t = some { t with
      eip := t.eip + 1#32, esp := t.esp - 4#32, mem := store32 t.mem (t.esp - 4#32) t.esp } := by
    rw [exec, userStore_eq (by bv_omega)]
    rfl
  refine ⟨_, hexec, hat.eip_next (by simp), ?_, ?_, fun hs => absurd hs (by decide), trivial, ?_⟩
  · show t.esp - 4#32 = utfAddr s.esp - 4#32
    rw [hesp]
  · refine hat.words.congr fun a ha ha' => store32_of_le ?_
    simp only [Pt.first] at ha
    bv_omega
  · refine store_scratch hat.mem fun a ha => scratch_frame hroom ?_ ?_
    · bv_omega
    · bv_omega

theorem exec_popArg (hat : At u s va tf .popArg t w) :
    ∃ t', exec h alu (.addEsp 4#32) t = some t' ∧ At u s va tf .getEsp t' w := by
  have hesp : t.esp = utfAddr s.esp - 4#32 := hat.esp
  refine ⟨_, rfl, hat.keep .getEsp rfl (hat.eip_next (by simp)) ?_ trivial le_rfl rfl rfl⟩
  show t.esp + 4#32 = utfAddr s.esp
  rw [hesp, BitVec.sub_add_cancel]

/-- The word of the frame at `d(%esp)`. -/
theorem At.load {j : ℕ} (hat : At u s va tf p t w) (hesp : p.esp s = utfAddr s.esp)
    (hfirst : p.first ≤ j) (hj : j < 13) :
    load32 t.mem (t.esp + BitVec.ofNat 32 (4 * j))
      = (utfWords va { tf with tfEsp := p.last s }).getD j 0#32 := by
  rw [hat.esp, hesp]
  exact hat.words j hfirst hj

theorem exec_getEsp (hat : At u s va tf .getEsp t w) :
    ∃ t', exec h alu (.espToEax 48#32) t = some t' ∧ At u s va tf .subEsp t' w := by
  refine ⟨_, rfl, hat.keep .subEsp rfl (hat.eip_next (by simp)) hat.esp ?_ le_rfl rfl rfl⟩
  exact hat.load (j := 12) rfl (by decide) (by decide)

theorem exec_subEsp (hat : At u s va tf .subEsp t w) :
    ∃ t', exec h alu (.subEax 4#32) t = some t' ∧ At u s va tf .putEsp t' w := by
  refine ⟨_, rfl, hat.keep .putEsp rfl (hat.eip_next (by simp)) hat.esp ?_ le_rfl rfl rfl⟩
  have heax : t.gpr.eax = s.esp := hat.regs
  show t.gpr.eax - 4#32 = s.esp - 4#32
  rw [heax]

/-- Storing over the last word of the frame. -/
theorem Words.store_last {y : Word} (hw : Words m utf (utfWords va { tf with tfEsp := x }) n) :
    Words (store32 m (utf + 48#32) y) utf (utfWords va { tf with tfEsp := y }) n := by
  intro j hj hj'
  by_cases hlast : j = 12
  · subst hlast
    exact load32_store32_self
  · have hoff : (BitVec.ofNat 32 (4 * j)).toNat = 4 * j := by
      rw [BitVec.toNat_ofNat]
      omega
    rw [load32_store32_of_disjoint (by bv_omega) (by bv_omega), hw j hj hj']
    have hsame : ∀ z : Word, (utfWords va { tf with tfEsp := z }).getD j 0#32
        = (utfWords va tf).getD j 0#32 := by
      intro z
      have hlt : j < 12 := by omega
      interval_cases j <;> rfl
    exact (hsame x).trans (hsame y).symm

theorem exec_putEsp (hroom : Room s) (hat : At u s va tf .putEsp t w) :
    ∃ t', exec h alu (.eaxToEsp 48#32) t = some t' ∧ At u s va tf .getEip t' w := by
  have hesp : t.esp = utfAddr s.esp := hat.esp
  have heax : t.gpr.eax = s.esp - 4#32 := hat.regs
  have hlo := room_iff.1 hroom
  have hhi := frame_le s.esp
  have hexec : exec h alu (.eaxToEsp 48#32) t = some { t with
      eip := t.eip + 4#32, mem := store32 t.mem (t.esp + 48#32) t.gpr.eax } := by
    rw [exec, userStore_eq (by bv_omega)]
    rfl
  refine ⟨_, hexec, hat.eip_next (by simp), hat.esp, ?_, fun hs => absurd hs (by decide), heax, ?_⟩
  · show Words (store32 t.mem (t.esp + 48#32) t.gpr.eax) _ _ _
    rw [hesp, heax]
    exact hat.words.store_last
  · refine store_scratch hat.mem fun a ha => scratch_frame hroom ?_ ?_
    · bv_omega
    · bv_omega

theorem exec_getEip (htf : Trapped s tf) (hat : At u s va tf .getEip t w) :
    ∃ t', exec h alu (.espToEbx 40#32) t = some t' ∧ At u s va tf .storeEip t' w := by
  refine ⟨_, rfl, hat.keep .storeEip rfl (hat.eip_next (by simp)) hat.esp ⟨hat.regs, ?_⟩ le_rfl rfl
    rfl⟩
  have hload := hat.load (j := 10) rfl (by decide) (by decide)
  exact hload.trans htf.eip.symm

/-- The store fails if the word below the stack pointer is not user memory. -/
theorem exec_storeEip_bounds (hat : At u s va tf .storeEip t w)
    (hexec : exec h alu .storeEbx t = some t') :
    4 ≤ s.esp.toNat ∧ s.esp.toNat ≤ UXSTACKTOP.toNat := by
  have heax : t.gpr.eax = s.esp - 4#32 := hat.regs.1
  simp only [exec, userStore, heax] at hexec
  split at hexec
  · next hle =>
      have htop : UTOP.toNat = 0xEEC00000 := rfl
      have hx : UXSTACKTOP.toNat = 0xEEC00000 := rfl
      rw [htop] at hle
      rw [hx]
      bv_omega
  · cases hexec

theorem exec_storeEip (hroom : Room s) (hlo : 4 ≤ s.esp.toNat)
    (hhi : s.esp.toNat ≤ UXSTACKTOP.toNat) (hat : At u s va tf .storeEip t w) :
    ∃ t', exec h alu .storeEbx t = some t' ∧ At u s va tf .skipInfo t' w := by
  have hesp : t.esp = utfAddr s.esp := hat.esp
  have heax : t.gpr.eax = s.esp - 4#32 := hat.regs.1
  have hebx : t.gpr.ebx = s.eip := hat.regs.2
  have hx : UXSTACKTOP.toNat = 0xEEC00000 := rfl
  rw [hx] at hhi
  have hexec : exec h alu .storeEbx t = some { t with
      eip := t.eip + 2#32, mem := store32 t.mem (s.esp - 4#32) s.eip } := by
    rw [exec, heax, hebx, userStore_eq (by bv_omega)]
    rfl
  refine ⟨_, hexec, hat.eip_next (by simp), hat.esp, ?_, fun _ => ⟨load32_store32_self, hlo, hhi⟩,
    trivial, ?_⟩
  · -- the slot is apart from the frame, unless the fault happened at `UXSTACKTOP`
    show Words (store32 t.mem (s.esp - 4#32) s.eip) _ _ _
    by_cases htop : s.esp = UXSTACKTOP
    · have hslot : s.esp - 4#32 = utfAddr s.esp + 48#32 := by
        rw [htop]
        decide
      have hlast : Pt.last s .skipInfo = s.eip := if_pos htop
      rw [hslot, hlast]
      exact hat.words.store_last
    · have hlast : Pt.last s .skipInfo = s.esp - 4#32 := if_neg htop
      rw [hlast]
      refine hat.words.congr fun a ha ha' => store32_of_le ?_
      have hr := room_iff.1 hroom
      have hframe := frame_toNat s.esp
      bv_omega
  · exact store_scratch hat.mem fun a ha => scratch_slot hroom hlo ha

theorem exec_skipInfo (hat : At u s va tf .skipInfo t w) :
    ∃ t', exec h alu (.addEsp 8#32) t = some t' ∧ At u s va tf .popal t' w := by
  have hesp : t.esp = utfAddr s.esp := hat.esp
  refine ⟨_, rfl, hat.keep .popal rfl (hat.eip_next (by simp)) ?_ trivial le_rfl rfl rfl⟩
  show t.esp + 8#32 = utfAddr s.esp + 8#32
  rw [hesp]

theorem exec_popal (htf : Trapped s tf) (hat : At u s va tf .popal t w) :
    ∃ t', exec h alu .popal t = some t' ∧ At u s va tf .skipEip t' w := by
  have hesp : t.esp = utfAddr s.esp + 8#32 := hat.esp
  have hword : ∀ (j : ℕ) (d : Word), 2 ≤ j → j < 13 → 8#32 + d = BitVec.ofNat 32 (4 * j) →
      load32 t.mem (t.esp + d) = (utfWords va { tf with tfEsp := Pt.retEsp s }).getD j 0#32 := by
    intro j d hj hj' hd
    rw [hesp, BitVec.add_assoc, hd]
    exact hat.words j hj hj'
  have hfirst : load32 t.mem t.esp = tf.tfRegs.regEdi := by
    have := hword 2 0#32 (by decide) (by decide) (by decide)
    rwa [BitVec.add_zero] at this
  refine ⟨_, rfl, hat.keep .skipEip rfl (hat.eip_next (by simp)) ?_ ?_ (by decide) rfl rfl⟩
  · show t.esp + 32#32 = utfAddr s.esp + 40#32
    rw [hesp, BitVec.add_assoc]
    rfl
  · show popGpr t.mem t.esp = s.gpr
    rw [htf.gpr, popGpr, hfirst, hword 3 4#32 (by decide) (by decide) (by decide),
      hword 4 8#32 (by decide) (by decide) (by decide),
      hword 6 16#32 (by decide) (by decide) (by decide),
      hword 7 20#32 (by decide) (by decide) (by decide),
      hword 8 24#32 (by decide) (by decide) (by decide),
      hword 9 28#32 (by decide) (by decide) (by decide)]
    rfl

theorem exec_skipEip (hat : At u s va tf .skipEip t w) :
    ∃ t', exec h alu (.addEsp 4#32) t = some t' ∧ At u s va tf .popfl t' w := by
  have hesp : t.esp = utfAddr s.esp + 40#32 := hat.esp
  refine ⟨_, rfl, hat.keep .popfl rfl (hat.eip_next (by simp)) ?_ hat.regs le_rfl rfl rfl⟩
  show t.esp + 4#32 = utfAddr s.esp + 44#32
  rw [hesp, BitVec.add_assoc]
  rfl

/-- `popfl` sets all arithmetic flags. -/
theorem popfl_arith (old new : Word) :
    ((old &&& ~~~FL_POPF) ||| (new &&& FL_POPF)) &&& FL_ARITH = new &&& FL_ARITH := by
  have hsub : FL_POPF &&& FL_ARITH = FL_ARITH := by decide
  have hout : ~~~FL_POPF &&& FL_ARITH = 0#32 := by decide
  rw [and_or_right, BitVec.and_assoc, hout, BitVec.and_assoc, hsub, BitVec.and_zero,
    BitVec.zero_or]

theorem exec_popfl (htf : Trapped s tf) (hat : At u s va tf .popfl t w) :
    ∃ t', exec h alu .popfl t = some t' ∧ At u s va tf .popEsp t' w := by
  have hesp : t.esp = utfAddr s.esp + 44#32 := hat.esp
  have hload : load32 t.mem t.esp = s.eflags := by
    rw [hesp, htf.eflags]
    exact hat.words 11 (by decide) (by decide)
  refine ⟨_, rfl, hat.keep .popEsp rfl (hat.eip_next (by simp)) ?_ ⟨hat.regs, ?_⟩ (by decide) rfl
    rfl⟩
  · show t.esp + 4#32 = utfAddr s.esp + 48#32
    rw [hesp, BitVec.add_assoc]
    rfl
  · rw [← hload]
    exact popfl_arith _ _

theorem exec_popEsp (hat : At u s va tf .popEsp t w) :
    ∃ t', exec h alu .popEsp t = some t' ∧ At u s va tf .ret t' w := by
  have hesp : t.esp = utfAddr s.esp + 48#32 := hat.esp
  refine ⟨_, rfl, hat.keep .ret rfl (hat.eip_next (by simp)) ?_ hat.regs (by decide) rfl rfl⟩
  show load32 t.mem t.esp = Pt.retEsp s
  rw [hesp]
  exact hat.words 12 (by decide) (by decide)

/-- The instructions other than `call` and `ret` lead from one to the next. -/
theorem At.step (htf : Trapped s tf) (hroom : Room s) (hat : At u s va tf p t w)
    (hcall : p ≠ .callEax) (hret : p ≠ .ret)
    (hesp : p = .storeEip → 4 ≤ s.esp.toNat ∧ s.esp.toNat ≤ UXSTACKTOP.toNat) :
    ∃ t', exec h alu p.instr t = some t' ∧ At u s va tf p.next t' w := by
  cases p with
  | pushEsp => exact exec_pushEsp hroom hat
  | loadHandler =>
    exact ⟨_, rfl, hat.keep .callEax rfl (hat.eip_next (by simp)) hat.esp trivial le_rfl rfl rfl⟩
  | callEax => exact absurd rfl hcall
  | popArg => exact exec_popArg hat
  | getEsp => exact exec_getEsp hat
  | subEsp => exact exec_subEsp hat
  | putEsp => exact exec_putEsp hroom hat
  | getEip => exact exec_getEip htf hat
  | storeEip => exact exec_storeEip hroom (hesp rfl).1 (hesp rfl).2 hat
  | skipInfo => exact exec_skipInfo hat
  | popal => exact exec_popal htf hat
  | skipEip => exact exec_skipEip hat
  | popfl => exact exec_popfl htf hat
  | popEsp => exact exec_popEsp hat
  | ret => exact absurd rfl hret

/-- If an instruction did not fault, it led to the next. -/
theorem At.of_exec (htf : Trapped s tf) (hroom : Room s) (hat : At u s va tf p t w)
    (hcall : p ≠ .callEax) (hret : p ≠ .ret) (hexec : exec h alu p.instr t = some t') :
    At u s va tf p.next t' w := by
  have hesp : p = .storeEip → 4 ≤ s.esp.toNat ∧ s.esp.toNat ≤ UXSTACKTOP.toNat := by
    rintro rfl
    exact exec_storeEip_bounds hat hexec
  obtain ⟨t₁, hexec', hat'⟩ : ∃ t₁, exec h alu p.instr t = some t₁ ∧ At u s va tf p.next t₁ w :=
    hat.step htf hroom hcall hret hesp
  rw [hexec] at hexec'
  obtain rfl := Option.some.inj hexec'
  exact hat'

/-- The instruction pointer tells which instruction is next. -/
theorem At.fetch (hat : At u s va tf p t w) :
    fetch upcallCode (t.eip - u).toNat = some p.instr := by
  have hoff : (t.eip - u).toNat = p.offset := by
    rw [hat.eip, add_sub_self, BitVec.toNat_ofNat]
    cases p <;> rfl
  rw [hoff]
  exact p.fetch_offset

/-- When the upcall starts. -/
theorem at_pushFrame (htf : Trapped s tf) (hroom : Room s) :
    At u s va tf .pushEsp (pushFrame u va tf s) ∅ where
  eip := by simp [pushFrame, Pt.offset]
  esp := rfl
  words := by
    have hws : utfWords va { tf with tfEsp := s.esp } = utfWords va tf := by rw [htf.esp]
    intro j _ hj
    have hj' : j < (utfWords va tf).length := hj
    show load32 (storeWords s.mem (utfAddr s.esp) (utfWords va tf)) _
      = (utfWords va { tf with tfEsp := s.esp }).getD j 0#32
    rw [load32_storeWords _ _ _ j hj' (by simp [utfWords]), hws,
      List.getD_eq_getElem?_getD, List.getElem?_eq_getElem hj', Option.getD_some]
  slot := fun hs => absurd hs (by decide)
  regs := trivial
  mem := by
    intro a _ hs
    refine storeWords_of_le _ _ _ ?_
    have hlen : 4 * (utfWords va tf).length = 52 := rfl
    rw [hlen]
    by_contra hlt
    have hle := frame_le s.esp
    exact hs (scratch_frame hroom (by bv_omega) (by bv_omega))

/-- A fault at `s` that ends at `s'`, seen from the code that faulted. -/
structure Restores (s s' : Machine) (w : Set Word) : Prop where
  gpr : s'.gpr = s.gpr
  flags : s'.eflags &&& FL_ARITH = s.eflags &&& FL_ARITH
  eip : s'.eip = s.eip
  esp : s'.esp = s.esp
  mem : ∀ a, a ∉ w → ¬ Scratch s.esp a → s'.mem a = s.mem a
  /-- the word below the stack pointer is user memory -/
  range : 4 ≤ s.esp.toNat ∧ s.esp.toNat ≤ UXSTACKTOP.toNat

/-- The trap-time states from which the upcall returns properly. -/
def Benign (s : Machine) : Prop := s.esp ≠ UXSTACKTOP ∨ s.eip = UXSTACKTOP - 4#32

theorem retEsp_eq (hb : Benign s) : Pt.retEsp s = s.esp - 4#32 := by
  rw [Pt.retEsp]
  split
  · next htop =>
      rcases hb with hne | heip
      · exact absurd htop hne
      · rw [heip, htop]
  · rfl

/-- Up to `ret` the stack pointer is on the exception stack, and the words that
are still needed are above it. -/
theorem Pt.esp_onXstack (hroom : Room s) (hp : p ≠ .ret) :
    OnXstack (p.esp s) ∧ (utfAddr s.esp).toNat ≤ (p.esp s).toNat + 4 ∧
      (p.esp s).toNat ≤ (utfAddr s.esp).toNat + 4 * p.first ∧
      (p.esp s).toNat ≤ (utfAddr s.esp).toNat + 48 := by
  have hlo := room_iff.1 hroom
  have hhi := frame_le s.esp
  rw [onXstack_iff]
  cases p <;> simp only [Pt.esp, Pt.first] <;> first | bv_omega | exact absurd rfl hp

/-- Where a nested fault finds the stack pointer: at `ret` it is on the old stack. -/
theorem At.esp_cases (hroom : Room s) (hb : Benign s) (hat : At u s va tf p t w) :
    ((0xEEBFF000 ≤ t.esp.toNat ∧ t.esp.toNat < 0xEEC00000) ∧
        t.esp.toNat ≤ (utfAddr s.esp).toNat + 48) ∨
      (t.esp.toNat + 4 = s.esp.toNat ∧ s.esp.toNat ≤ 0xEEC00000) := by
  by_cases hp : p = .ret
  · subst hp
    obtain ⟨-, hmin, hmax⟩ := hat.slot rfl
    have hesp : t.esp = s.esp - 4#32 := hat.esp.trans (retEsp_eq hb)
    exact Or.inr ⟨by bv_omega, hmax⟩
  · obtain ⟨hon, -, -, hle⟩ := Pt.esp_onXstack hroom hp
    rw [← hat.esp] at hon hle
    exact Or.inl ⟨hon, hle⟩

/-- What a nested fault may change was free already. -/
theorem scratch_of_nested (hroom : Room s) (hb : Benign s) (hat : At u s va tf p t w)
    (ha : Scratch t.esp a) : Scratch s.esp a := by
  have hlo := room_iff.1 hroom
  have hframe := frame_toNat s.esp
  have hesp := hat.esp_cases hroom hb
  simp only [Scratch, onXstack_iff] at ha ⊢
  omega

/-- The word below the trap-time stack pointer survives nested faults. -/
theorem slot_of_nested (hroom : Room s) (hb : Benign s) (hat : At u s va tf p t w)
    (hs : p.stored = true) (ha : (a - (s.esp - 4#32)).toNat < 4) : ¬ Scratch t.esp a := by
  obtain ⟨-, hmin, -⟩ := hat.slot hs
  have hlo := room_iff.1 hroom
  have hframe := frame_toNat s.esp
  have hesp := hat.esp_cases hroom hb
  have hrange : s.esp.toNat ≤ a.toNat + 4 ∧ a.toNat < s.esp.toNat := by bv_omega
  simp only [Scratch, onXstack_iff]
  omega

/-- An instruction faults, and the fault is handled. -/
theorem At.again {w' : Set Word} (hroom : Room s) (hb : Benign s) (hat : At u s va tf p t w)
    (hr : Restores t t' w') (hw : Disjoint w' (Pending s.esp)) : At u s va tf p t' (w ∪ w') := by
  have hout : ∀ a, a ∈ Pending s.esp → a ∉ w' := fun a ha ha' => Set.disjoint_left.1 hw ha' ha
  refine ⟨hr.eip.trans hat.eip, hr.esp.trans hat.esp, ?_, fun hs => ?_, ?_, fun a ha hs => ?_⟩
  · refine hat.words.congr fun a ha ha' => hr.mem a (hout a (Or.inl ha')) fun hscr => ?_
    have hp : p ≠ .ret := by
      rintro rfl
      simp only [Pt.first] at ha
      omega
    obtain ⟨hon, -, hle, -⟩ := Pt.esp_onXstack hroom hp
    have hhi := frame_le s.esp
    rw [← hat.esp] at hon hle
    have hge : (utfAddr s.esp).toNat + 4 * p.first ≤ a.toNat := by
      bv_omega
    simp only [Scratch, onXstack_iff] at hscr hon
    omega
  · obtain ⟨hload, hmin, hmax⟩ := hat.slot hs
    refine ⟨?_, hmin, hmax⟩
    rw [← hload]
    exact load32_congr fun a ha =>
      hr.mem a (hout a (Or.inr ha)) (slot_of_nested hroom hb hat hs ha)
  · have hregs := hat.regs
    rw [← hr.gpr] at hregs
    cases p <;> first | exact hregs | exact ⟨hregs.1, hr.flags.trans hregs.2⟩
  · rw [Set.mem_union, not_or] at ha
    rw [hr.mem a ha.2 fun hscr => hs (scratch_of_nested hroom hb hat hscr)]
    exact hat.mem a ha.1 hs

/-- What the handler called at `base` leaves alone. -/
def Keeps (base : Word) (w : Set Word) (t t' : Machine) : Prop :=
  ∀ a, a ∉ w → ¬ (OnXstack a ∧ a.toNat < base.toNat) → t'.mem a = t.mem a

/-- The state in which the handler starts. -/
def called (t : Machine) : Machine :=
  { t with
    eip := t.gpr.eax
    esp := t.esp - 4#32
    mem := store32 t.mem (t.esp - 4#32) (t.eip + 2#32) }

theorem exec_callEax (hroom : Room s) (hat : At u s va tf .callEax t w) :
    exec h alu .callEax t = some (called t) := by
  have hlo := room_iff.1 hroom
  have hhi := frame_le s.esp
  have hsp : t.esp = utfAddr s.esp - 4#32 := hat.esp
  rw [exec, userStore_eq (by bv_omega)]
  rfl

/-- The handler is called and returns. -/
theorem At.call {w' : Set Word} (hroom : Room s) (hat : At u s va tf .callEax t w)
    (hk : Keeps (t.esp - 4#32) w' (called t) t') (heip : t'.eip = t.eip + 2#32)
    (hesp : t'.esp = t.esp) (hw : Disjoint w' (Pending s.esp)) :
    At u s va tf .popArg t' (w ∪ w') := by
  have hlo := room_iff.1 hroom
  have hhi := frame_le s.esp
  have hsp : t.esp = utfAddr s.esp - 4#32 := hat.esp
  have hbase : (t.esp - 4#32).toNat + 8 = (utfAddr s.esp).toNat := by bv_omega
  have hkeep : ∀ a, a ∉ w' → ¬ (OnXstack a ∧ a.toNat < (t.esp - 4#32).toNat) →
      t'.mem a = store32 t.mem (t.esp - 4#32) (t.eip + 2#32) a := hk
  refine ⟨heip.trans (hat.eip_next (by simp)), hesp.trans hat.esp, ?_,
    fun hs => absurd hs (by decide), trivial, fun a ha hs => ?_⟩
  · refine hat.words.congr fun a ha ha' => ?_
    simp only [Pt.first] at ha
    rw [hkeep a (fun hin => Set.disjoint_left.1 hw hin (Or.inl ha')) (fun hin => by bv_omega),
      store32_of_le (by bv_omega)]
  · rw [Set.mem_union, not_or] at ha
    have hfree : ¬ (OnXstack a ∧ a.toNat < (t.esp - 4#32).toNat) := by
      rintro ⟨hon, hlt⟩
      have hframe := frame_toNat s.esp
      rw [onXstack_iff] at hon
      refine hs ?_
      simp only [Scratch, onXstack_iff]
      omega
    rw [hkeep a ha.2 hfree]
    refine store_scratch hat.mem (fun x hx => scratch_frame hroom ?_ ?_) a ha.1 hs
    · bv_omega
    · bv_omega

end Points

/-! ## Every execution -/

section Soundness

variable {u h : Word} {alu : Word → Word → Word → Word}

/-- What each part of an execution guarantees. -/
def Sound (u : Word) : Part → Set Word → Machine → Machine → Set Word → Prop
  | .fault, live, s, s', w => Disjoint w live ∧ (Benign s → Restores s s' w)
  | .code, live, t, t', w => Disjoint w live ∧ ∀ s va tf, Trapped s tf → Room s → Benign s →
      Pending s.esp ⊆ live → t = pushFrame u va tf s → ∃ p, At u s va tf p t' w
  | .handler base, live, t, t', w => Disjoint w live ∧
      (base.toNat < UXSTACKTOP.toNat → Keeps base w t t')

variable {w : Set Word} {s' : Machine}

/-- Nested faults happen below `UXSTACKTOP`. -/
theorem At.benign {s t : Machine} {va : Word} {tf : Trapframe} {p : Pt} (hroom : Room s)
    (hb : Benign s) (hat : At u s va tf p t w) : Benign t := by
  refine Or.inl fun heq => ?_
  have hx : t.esp.toNat = 0xEEC00000 := congrArg BitVec.toNat heq
  have hesp := hat.esp_cases hroom hb
  omega

/-- The last instruction. -/
theorem At.ret {s t : Machine} {va : Word} {tf : Trapframe} (hb : Benign s)
    (hat : At u s va tf .ret t w) (hexec : exec h alu .ret t = some s') : Restores s s' w := by
  have hesp : t.esp = s.esp - 4#32 := hat.esp.trans (retEsp_eq hb)
  obtain rfl := Option.some.inj hexec
  refine ⟨hat.regs.1, hat.regs.2, ?_, ?_, hat.mem, (hat.slot rfl).2⟩
  · show load32 t.mem t.esp = s.eip
    rw [hesp]
    exact (hat.slot rfl).1
  · show t.esp + 4#32 = s.esp
    rw [hesp, BitVec.sub_add_cancel]

/-- **Every fault is transparent**, whatever faults are nested in it, if it does
not happen with the stack pointer at `UXSTACKTOP`. -/
theorem run_sound {k : Part} {live : Set Word} {s : Machine} (hrun : Run u h alu k live s s' w) :
    Sound u k live s s' w := by
  induction hrun with
  | @fault live s s' t w va tf htf hroom _ hat hret ih =>
    refine ⟨ih.1.mono_right Set.subset_union_left, fun hb => ?_⟩
    obtain ⟨p, hp⟩ := ih.2 s va tf htf hroom hb Set.subset_union_right rfl
    have hinstr : p.instr = .ret := Option.some.inj (hp.fetch.symm.trans hat)
    have hpt : p = .ret := by cases p <;> first | rfl | cases hinstr
    subst hpt
    exact hp.ret hb hret
  | start =>
    refine ⟨Set.empty_disjoint _, fun s va tf htf hroom _ _ heq => ?_⟩
    subst heq
    exact ⟨.pushEsp, at_pushFrame htf hroom⟩
  | instr _ hat hcall hret hexec ih =>
    refine ⟨ih.1, fun s va tf htf hroom hb hlive heq => ?_⟩
    obtain ⟨p, hp⟩ := ih.2 s va tf htf hroom hb hlive heq
    have hinstr := Option.some.inj (hp.fetch.symm.trans hat)
    subst hinstr
    exact ⟨p.next, hp.of_exec htf hroom (fun heq => hcall (heq ▸ rfl)) (fun heq => hret (heq ▸ rfl))
      hexec⟩
  | @call live t t₁ t₂ t₃ w w' _ hat hexec _ heip hesp ih ihbody =>
    refine ⟨Set.disjoint_union_left.2 ⟨ih.1, ihbody.1⟩,
      fun s va tf htf hroom hb hlive heq => ?_⟩
    obtain ⟨p, hp⟩ := ih.2 s va tf htf hroom hb hlive heq
    have hinstr : p.instr = .callEax := Option.some.inj (hp.fetch.symm.trans hat)
    have hpt : p = .callEax := by cases p <;> first | rfl | cases hinstr
    subst hpt
    rw [exec_callEax hroom hp] at hexec
    obtain rfl := Option.some.inj hexec
    have hlow : (called t₁).esp.toNat < UXSTACKTOP.toNat := by
      have hlo := room_iff.1 hroom
      have hhi := frame_le s.esp
      have hsp : t₁.esp = utfAddr s.esp - 4#32 := hp.esp
      have htop : UXSTACKTOP.toNat = 0xEEC00000 := rfl
      show (t₁.esp - 4#32).toNat < _
      rw [htop]
      bv_omega
    exact ⟨.popArg, hp.call hroom (ihbody.2 hlow) heip hesp (ihbody.1.mono_right hlive)⟩
  | again _ _ ih ihfault =>
    refine ⟨Set.disjoint_union_left.2 ⟨ih.1, ihfault.1⟩,
      fun s va tf htf hroom hb hlive heq => ?_⟩
    obtain ⟨p, hp⟩ := ih.2 s va tf htf hroom hb hlive heq
    exact ⟨p, hp.again hroom hb (ihfault.2 (hp.benign hroom hb)) (ihfault.1.mono_right hlive)⟩
  | enter => exact ⟨Set.empty_disjoint _, fun _ _ _ _ => rfl⟩
  | own _ hmem hlive ih =>
    refine ⟨Set.disjoint_union_left.2 ⟨ih.1, hlive⟩, fun hbase a ha hout => ?_⟩
    rw [Set.mem_union, not_or] at ha
    rw [hmem a ha.2, ih.2 hbase a ha.1 hout]
  | @nested live base t t₁ t₂ w w' _ hon hle _ ih ihfault =>
    refine ⟨Set.disjoint_union_left.2 ⟨ih.1, ihfault.1⟩, fun hbase a ha hout => ?_⟩
    rw [Set.mem_union, not_or] at ha
    have hb : Benign t₁ := Or.inl fun heq => by
      rw [heq] at hle
      omega
    rw [(ihfault.2 hb).mem a ha.2, ih.2 hbase a ha.1 hout]
    rintro (⟨-, hon', hlt⟩ | ⟨hoff, -⟩)
    · exact hout ⟨hon', by omega⟩
    · exact hoff hon

section Progress

variable {s t : Machine} {va : Word} {tf : Trapframe} {p : Pt} {live w : Set Word}
  (htf : Trapped s tf) (hroom : Room s)
  (hesp : 4 ≤ s.esp.toNat ∧ s.esp.toNat ≤ UXSTACKTOP.toNat)

include htf hroom hesp

/-- With idle handlers each instruction leads to the next. -/
theorem reach_next (hrun : Run u h alu .code live (pushFrame u va tf s) t w)
    (hat : At u s va tf p t w) :
    ∃ t', Run u h alu .code live (pushFrame u va tf s) t' w ∧ At u s va tf p.next t' w := by
  by_cases hret : p = .ret
  · subst hret
    exact ⟨t, hrun, hat⟩
  by_cases hcall : p = .callEax
  · subst hcall
    -- a handler that returns at once
    set t' : Machine := { called t with eip := t.eip + 2#32, esp := t.esp } with ht'
    have hidle : Run u h alu (.handler (called t).esp) live (called t) t' (∅ ∪ ∅) :=
      .own .enter (fun a _ => rfl) (Set.empty_disjoint _)
    have hafter := hrun.call hat.fetch (exec_callEax hroom hat) hidle rfl rfl
    have hkeep : At u s va tf .popArg t' (w ∪ ∅) :=
      hat.call hroom (fun a _ _ => rfl) rfl rfl (Set.empty_disjoint _)
    simp only [Set.union_empty] at hafter hkeep
    exact ⟨t', hafter, hkeep⟩
  · obtain ⟨t', hexec, hat'⟩ : ∃ t', exec h alu p.instr t = some t' ∧ At u s va tf p.next t' w :=
      hat.step htf hroom hcall hret fun _ => hesp
    refine ⟨t', hrun.instr hat.fetch (fun heq => ?_) (fun heq => ?_) hexec, hat'⟩
    · exact hcall (by cases p <;> first | rfl | cases heq)
    · exact hret (by cases p <;> first | rfl | cases heq)

/-- With idle handlers the upcall gets to its `ret`, from wherever it is. -/
theorem reach_ret (hrun : Run u h alu .code live (pushFrame u va tf s) t w)
    (hat : At u s va tf p t w) :
    ∃ t', Run u h alu .code live (pushFrame u va tf s) t' w ∧ At u s va tf .ret t' w := by
  have hiter : ∀ k, ∃ t', Run u h alu .code live (pushFrame u va tf s) t' w ∧
      At u s va tf (Pt.next^[k] p) t' w := by
    intro k
    induction k with
    | zero => exact ⟨t, hrun, hat⟩
    | succ k ih =>
      obtain ⟨t₁, hrun₁, hat₁⟩ := ih
      rw [Function.iterate_succ_apply']
      exact reach_next htf hroom hesp hrun₁ hat₁
  have hlast : Pt.next^[14] p = .ret := by cases p <;> rfl
  exact hlast ▸ hiter 14

/-- **A fault can be handled** from wherever the upcall is, if there is room on the exception
stack, and the word below the stack pointer is user memory. -/
theorem exists_run
    (hrun : Run u h alu .code (live ∪ Pending s.esp) (pushFrame u va tf s) t w)
    (hat : At u s va tf p t w) :
    ∃ s', Run u h alu .fault live s s' w ∧ s'.esp = Pt.retEsp s + 4#32 := by
  obtain ⟨t', hrun', hat'⟩ := reach_ret htf hroom hesp hrun hat
  refine ⟨_, .fault htf hroom hrun' hat'.fetch rfl, ?_⟩
  show t'.esp + 4#32 = Pt.retEsp s + 4#32
  rw [hat'.esp]
  rfl

end Progress

/-- A trap frame for any trap-time state. -/
def trapframeOf (s : Machine) : Trapframe where
  tfRegs := ⟨s.gpr.edi, s.gpr.esi, s.gpr.ebp, 0#32, s.gpr.ebx, s.gpr.edx, s.gpr.ecx, s.gpr.eax⟩
  tfEs := 0x23#16
  tfPadding1 := 0#16
  tfDs := 0x23#16
  tfPadding2 := 0#16
  tfTrapno := T_PGFLT
  tfErr := 0#32
  tfEip := s.eip
  tfCs := 0x1B#16
  tfPadding3 := 0#16
  tfEflags := s.eflags
  tfEsp := s.esp
  tfSs := 0x23#16
  tfPadding4 := 0#16

theorem trapped_trapframeOf (s : Machine) : Trapped s (trapframeOf s) := ⟨rfl, rfl, rfl, rfl⟩

theorem Restores.transparent {s : Machine} (hr : Restores s s' w) : Transparent s s' w := by
  refine ⟨hr.gpr, hr.flags, hr.eip, hr.esp, fun a hle ha hon => hr.mem a ha ?_⟩
  rintro (⟨-, -, hlt⟩ | ⟨hoff, hfree⟩)
  · omega
  · rcases hon with hon | hout
    · exact hoff hon
    · exact hfree.elim hout fun hlt => by omega

/-- However far the upcall has got, it can get back to the code that faulted. -/
def Returns (u h : Word) (alu : Word → Word → Word → Word) (live : Set Word) (s : Machine) : Prop :=
  ∀ va tf t w, Trapped s tf →
    Run u h alu .code (live ∪ Pending s.esp) (pushFrame u va tf s) t w →
    ∃ s', Run u h alu .fault live s s' w

/-- **When page faults are transparent.**  The upcall can always get back, and all executions that
handle a fault, to any depth of nesting, restore its trap-time state, if and only if there is room
for the frame, the word below the stack pointer is user memory, and the stack pointer was not at
`UXSTACKTOP`.  (There the old `eip` is written over the stack pointer in the frame; it does no harm
only if it is the same word.) -/
theorem transparent_iff (u h : Word) (alu : Word → Word → Word → Word) (live : Set Word)
    (s : Machine) :
    (Returns u h alu live s ∧ ∀ s' w, Run u h alu .fault live s s' w → Transparent s s' w) ↔
      Room s ∧ (4 ≤ s.esp.toNat ∧ s.esp.toNat ≤ UXSTACKTOP.toNat) ∧
        (s.esp ≠ UXSTACKTOP ∨ s.eip = UXSTACKTOP - 4#32) := by
  constructor
  · rintro ⟨hreturns, hall⟩
    obtain ⟨s', hrun⟩ := hreturns 0#32 _ _ _ (trapped_trapframeOf s) .start
    have hroom : Room s := by
      cases hrun
      assumption
    by_cases htop : s.esp = UXSTACKTOP
    · have hrange : 4 ≤ s.esp.toNat ∧ s.esp.toNat ≤ UXSTACKTOP.toNat := by
        rw [htop]
        decide
      have htf := trapped_trapframeOf s
      obtain ⟨s₁, hrun₁, hesp⟩ : ∃ s', Run u h alu .fault live s s' ∅ ∧
          s'.esp = Pt.retEsp s + 4#32 :=
        exists_run htf hroom hrange .start (show At u s 0#32 _ _ _ _ from at_pushFrame htf hroom)
      have hret : Pt.retEsp s = s.eip := if_pos htop
      have hsame := (hall s₁ ∅ hrun₁).esp
      rw [hesp, hret, htop] at hsame
      exact ⟨hroom, hrange, Or.inr (by rw [← hsame, BitVec.add_sub_cancel])⟩
    · exact ⟨hroom, ((run_sound hrun).2 (Or.inl htop)).range, Or.inl htop⟩
  · rintro ⟨hroom, hrange, hb⟩
    refine ⟨fun va tf t w htf hrun => ?_, fun s' w hrun => ((run_sound hrun).2 hb).transparent⟩
    obtain ⟨p, hp⟩ := (run_sound hrun).2 s va tf htf hroom hb Set.subset_union_right rfl
    obtain ⟨s', hs', -⟩ := exists_run htf hroom hrange hrun hp
    exact ⟨s', hs'⟩

/-- A program that has its stack pointer at `UXSTACKTOP` and faults at `0x800020`. -/
def topMachine : Machine where
  gpr := ⟨0#32, 0#32, 0#32, 0#32, 0#32, 0#32, 0#32⟩
  eflags := 0x202#32
  eip := 0x800020#32
  esp := UXSTACKTOP
  mem := fun _ => 0#8

/-- It continues with the stack pointer at `0x800024`. -/
theorem upcall_loses_esp :
    ∃ s', Run 0x800D00#32 0x804000#32 (fun _ _ flags => flags) .fault ∅ topMachine s' ∅ ∧
      s'.esp = 0x800024#32 ∧ ¬ Transparent topMachine s' ∅ := by
  have htf := trapped_trapframeOf topMachine
  have hroom : Room topMachine := by
    rw [Room]
    decide
  obtain ⟨s', hrun, hesp⟩ := exists_run htf hroom (by decide) .start
    (show At 0x800D00#32 topMachine 0#32 _ _ _ _ from at_pushFrame htf hroom)
  have hret : Pt.retEsp topMachine + 4#32 = 0x800024#32 := by decide
  rw [hret] at hesp
  refine ⟨s', hrun, hesp, fun htr => ?_⟩
  have hsame := htr.esp
  rw [hesp] at hsame
  exact absurd hsame (by decide)

end Soundness

/-! ## The kernel's side -/

/-- The byte user code sees at `va`. -/
def userByte (pm : PhysMem) (pgdir : ℕ) (va : Word) : BitVec 8 :=
  byteOf (pm.read (wordAt pm pgdir va)) (va.toNat % 4)

theorem byteOf_setByte (w : Word) (b : BitVec 8) {j : ℕ} (hi : i < 4) (hj : j < 4) :
    byteOf (setByte w i b) j = if j = i then b else byteOf w j := by
  ext n hn
  have hmask : ∀ m, m < 32 → (0xff#32 <<< (8 * i)).getLsbD m = decide (8 * i ≤ m ∧ m < 8 * i + 8) := by
    intro m hm
    interval_cases i <;> interval_cases m <;> rfl
  have hbit : (byteOf (setByte w i b) j)[n]
      = (w.getLsbD (8 * j + n) && !decide (8 * i ≤ 8 * j + n ∧ 8 * j + n < 8 * i + 8) ||
          (!decide (8 * j + n < 8 * i) && b.getLsbD (8 * j + n - 8 * i))) := by
    have h32 : 8 * j + n < 32 := by omega
    simp only [byteOf, setByte, BitVec.getElem_extractLsb', BitVec.getLsbD_or, BitVec.getLsbD_and,
      BitVec.getLsbD_not, hmask (8 * j + n) h32, BitVec.getLsbD_shiftLeft, BitVec.getLsbD_setWidth]
    simp [h32, show 8 * j + n - 8 * i < 32 by omega]
  rw [hbit]
  by_cases hji : j = i
  · subst hji
    have hin : 8 * j ≤ 8 * j + n ∧ 8 * j + n < 8 * j + 8 := by omega
    have hlow : ¬ 8 * j + n < 8 * j := by omega
    rw [if_pos rfl, decide_eq_true hin, decide_eq_false hlow, Nat.add_sub_cancel_left,
      BitVec.getLsbD_eq_getElem hn]
    simp
  · have hout : ¬ (8 * i ≤ 8 * j + n ∧ 8 * j + n < 8 * i + 8) := by omega
    have hzero : (!decide (8 * j + n < 8 * i) && b.getLsbD (8 * j + n - 8 * i)) = false := by
      by_cases hlt : 8 * j + n < 8 * i
      · simp [hlt]
      · rw [BitVec.getLsbD_of_ge b _ (by omega), Bool.and_false]
    rw [if_neg hji, decide_eq_false hout, hzero]
    simp [byteOf]
section Kernel

variable {pm pm' : PhysMem} {roots : EnvIdx → Option ℕ} {held : Finset ℕ} {c : EnvIdx} {r : ℕ}
  {va a : Word}

/-- There is a page table for `a`. -/
def HasTable (pm : PhysMem) (r : ℕ) (a : Word) : Prop :=
  a < UTOP ∧ present (pm.mem r (pdx a)) = true

/-- What is stored at `va` does not go to a table that translates `a`. -/
def Apart (pm : PhysMem) (r : ℕ) (va a : Word) : Prop :=
  (wordAt pm r va).page ≠ r ∧ (wordAt pm r va).page ≠ pgnum (pm.mem r (pdx a))

/-- The pages an environment may write to hold no tables. -/
theorem apart_of_translates (hinv : MemInv pm roots held) (hr : roots c = some r)
    (hva : va < UTOP) (ht : translates pm r va (PTE_P ||| PTE_W) = true) (ha : HasTable pm r a) :
    Apart pm r va a := by
  obtain ⟨-, w, hw, -, hval⟩ := entry_of_translates hr hva ht
  have hpage : target pm roots (.pte c (pdx va) (ptx va)) = some (wordAt pm r va).page := by
    rw [target, hw, hval]
    rfl
  have hnt := hinv.not_isTablePage_of_pte hpage
  have hq : target pm roots (.pde c (pdx a)) = some (pgnum (pm.mem r (pdx a))) := by
    rw [target_pde hr (pdx_lt_utopDx.2 ha.1), pageOf, if_pos ha.2]
  refine ⟨fun h => hnt ?_, fun h => hnt ?_⟩ <;> rw [h]
  · exact Or.inr ⟨.dir c, trivial, hr⟩
  · exact Or.inr ⟨.pde c (pdx a), trivial, hq⟩

section Store

variable {b : BitVec 8}

theorem Apart.dir (h : Apart pm r va a) : (storeByte pm r va b).mem r = pm.mem r := by
  simp [storeByte, PhysMem.write, Function.update_of_ne h.1.symm]

/-- Such a store does not change how `a` is translated … -/
theorem Apart.wordAt (h : Apart pm r va a) :
    Jos.wordAt (storeByte pm r va b) r a = Jos.wordAt pm r a := by
  have htab : (storeByte pm r va b).mem (pgnum (pm.mem r (pdx a)))
      = pm.mem (pgnum (pm.mem r (pdx a))) := by
    simp [storeByte, PhysMem.write, Function.update_of_ne h.2.symm]
  simp only [Jos.wordAt, h.dir, htab]

/-- … nor whether another store does. -/
theorem Apart.storeByte (h : Apart pm r va x) (h' : Apart pm r x a) :
    Apart (Jos.storeByte pm r va b) r x a := by
  rw [Apart, h.wordAt, h.dir]
  exact h'

/-- A stored byte is seen at the addresses of the same byte of physical memory. -/
theorem userByte_storeByte (h : Apart pm r va a) :
    userByte (storeByte pm r va b) r a =
      if (wordAt pm r a).page = (wordAt pm r va).page ∧ a.toNat % 4096 = va.toNat % 4096 then b
      else userByte pm r a := by
  have hidx : (wordAt pm r a).idx = (wordAt pm r va).idx ↔
      a.toNat / 4 % 1024 = va.toNat / 4 % 1024 := Fin.ext_iff
  rw [userByte, h.wordAt]
  by_cases hsame : wordAt pm r a = wordAt pm r va
  · -- the same word, so the bytes are compared
    have hi := hidx.1 (congrArg PtePtr.idx hsame)
    have hread : (storeByte pm r va b).read (wordAt pm r va)
        = setByte (pm.read (wordAt pm r va)) (va.toNat % 4) b := by
      simp [storeByte, PhysMem.read, PhysMem.write]
    rw [userByte, hsame, hread, byteOf_setByte _ _ (Nat.mod_lt _ (by decide))
      (Nat.mod_lt _ (by decide))]
    by_cases hbyte : a.toNat % 4 = va.toNat % 4
    · rw [if_pos hbyte, if_pos ⟨rfl, by omega⟩]
    · rw [if_neg hbyte, if_neg fun h => hbyte (by omega)]
  · have hother : (storeByte pm r va b).read (wordAt pm r a) = pm.read (wordAt pm r a) := by
      simp only [storeByte, PhysMem.read, PhysMem.write]
      by_cases hpage : (wordAt pm r a).page = (wordAt pm r va).page
      · have hne : (wordAt pm r a).idx ≠ (wordAt pm r va).idx := fun hi =>
          hsame (by cases hwa : wordAt pm r a; cases hwv : wordAt pm r va; simp_all)
        rw [hpage]
        simp [hne]
      · simp [hpage]
    have hdiff : ¬ ((wordAt pm r a).page = (wordAt pm r va).page ∧
        a.toNat % 4096 = va.toNat % 4096) := by
      rintro ⟨hpage, hoff⟩
      have hi := hidx.2 (by omega)
      exact hsame (by cases hwa : wordAt pm r a; cases hwv : wordAt pm r va; simp_all)
    rw [hother, if_neg hdiff, userByte]

end Store

/-- `bs` was stored at `va`, as far as `x` is concerned. -/
def Stored (bs : List (BitVec 8)) (va x : Word) (old new : BitVec 8) : Prop :=
  new = if (x - va).toNat < bs.length then bs.getD (x - va).toNat 0#8 else old

variable {bs : List (BitVec 8)}

/-- One byte, and then the others. -/
theorem Stored.cons {b : BitVec 8} {old mid new : BitVec 8} (hlen : bs.length + 1 < 2 ^ 32)
    (h₁ : mid = if x = va then b else old) (h₂ : Stored bs (va + 1#32) x mid new) :
    Stored (b :: bs) va x old new := by
  rw [Stored] at h₂ ⊢
  rw [h₂, h₁, List.length_cons]
  by_cases hx : x = va
  · subst hx
    have hself : (x - x).toNat = 0 := by rw [BitVec.sub_self]; rfl
    have hback : (x - (x + 1#32)).toNat = 2 ^ 32 - 1 := by bv_omega
    rw [if_pos rfl, hself, hback, if_neg (by omega), if_pos (by omega)]
    rfl
  · have hpos : 0 < (x - va).toNat := by
      bv_omega
    have hnext : (x - va).toNat = (x - (va + 1#32)).toNat + 1 := by bv_omega
    rw [if_neg hx, hnext]
    by_cases hin : (x - (va + 1#32)).toNat < bs.length
    · rw [if_pos hin, if_pos (by omega)]
      rfl
    · rw [if_neg hin, if_neg (by omega)]

/-- The words of a list, byte by byte. -/
theorem stored_storeWords (ws : List Word) :
    ∀ (m : ByteMem) (va x : Word), 4 * ws.length < 2 ^ 32 →
      Stored (ws.flatMap wordBytes) va x (m x) (storeWords m va ws x) := by
  induction ws with
  | nil =>
    intro m va x _
    simp [Stored, storeWords]
  | cons w ws ih =>
    intro m va x hlen
    rw [List.length_cons] at hlen
    have hrest := ih (store32 m va w) (va + 4#32) x (by omega)
    rw [storeWords]
    generalize storeWords (store32 m va w) (va + 4#32) ws x = new at hrest ⊢
    have hcount : (ws.flatMap wordBytes).length = 4 * ws.length := by
      rw [List.length_flatMap]
      simp [wordBytes, Nat.mul_comm]
    have hadd : ∀ k : ℕ, va + BitVec.ofNat 32 k + 1#32 = va + BitVec.ofNat 32 (k + 1) := by
      intro k
      rw [BitVec.ofNat_add, BitVec.add_assoc]
    have h2 : va + 1#32 + 1#32 = va + 2#32 := hadd 1
    have h3 : va + 2#32 + 1#32 = va + 3#32 := hadd 2
    have h4 : va + 3#32 + 1#32 = va + 4#32 := hadd 3
    rw [← h4, ← h3, ← h2] at hrest
    -- the four bytes of the first word
    show Stored (byteOf w 0 :: byteOf w 1 :: byteOf w 2 :: byteOf w 3 :: ws.flatMap wordBytes)
      va x (m x) new
    refine .cons ?_ rfl (.cons ?_ rfl (.cons ?_ rfl (.cons ?_ ?_ hrest)))
    · simp only [List.length_cons, hcount]
      omega
    · simp only [List.length_cons, hcount]
      omega
    · simp only [List.length_cons, hcount]
      omega
    · omega
    · rw [store32_apply, h2, h3]

theorem add_ofNat_succ (va : Word) (i : ℕ) :
    va + 1#32 + BitVec.ofNat 32 i = va + BitVec.ofNat 32 (i + 1) := by
  rw [BitVec.add_assoc, BitVec.ofNat_add, BitVec.add_comm (BitVec.ofNat 32 i)]

/-- **What stores look like to user code**, at an address that is no other name
for a byte that is stored. -/
theorem userByte_storeBytes (bs : List (BitVec 8)) :
    ∀ (va : Word) (pm : PhysMem), bs.length < 2 ^ 32 →
      (∀ i < bs.length, Apart pm r (va + BitVec.ofNat 32 i) a ∧
        ∀ j < bs.length, Apart pm r (va + BitVec.ofNat 32 i) (va + BitVec.ofNat 32 j)) →
      (∀ i < bs.length, (wordAt pm r a).page = (wordAt pm r (va + BitVec.ofNat 32 i)).page →
        a.toNat % 4096 = (va + BitVec.ofNat 32 i).toNat % 4096 → a = va + BitVec.ofNat 32 i) →
      Stored bs va a (userByte pm r a) (userByte (storeBytes r va bs pm) r a) := by
  -- on the bytes: the first store changes neither the translations nor what is apart
  induction bs with
  | nil =>
    intro va pm _ _ _
    simp [Stored, storeBytes]
  | cons b bs ih =>
    intro va pm hlen hap halias
    rw [List.length_cons] at hlen
    have h0 := hap 0 (by simp)
    have halias0 := halias 0 (by simp)
    rw [BitVec.add_zero] at h0 halias0
    have hfirst : ∀ j, j < bs.length → Apart pm r va (va + BitVec.ofNat 32 (j + 1)) :=
      fun j hj => h0.2 (j + 1) (by simpa using hj)
    refine Stored.cons hlen ?_ (ih (va + 1#32) (storeByte pm r va b) (by omega)
      (fun i hi => ?_) fun i hi => ?_)
    · rw [userByte_storeByte h0.1]
      by_cases hx : a = va
      · subst hx
        rw [if_pos ⟨rfl, rfl⟩, if_pos rfl]
      · rw [if_neg hx, if_neg fun h => hx (halias0 h.1 h.2)]
    · obtain ⟨ha, hrest⟩ := hap (i + 1) (by simpa using hi)
      rw [add_ofNat_succ]
      refine ⟨(hfirst i hi).storeByte ha, fun j hj => ?_⟩
      rw [add_ofNat_succ]
      exact (hfirst i hi).storeByte (hrest (j + 1) (by simpa using hj))
    · rw [add_ofNat_succ, h0.1.wordAt, (hfirst i hi).wordAt]
      exact halias (i + 1) (by simpa using hi)

/-- The frame of a fault with room lies in the page of the exception stack. -/
theorem pgnum_frame {esp : Word} (h : 0xEEBFF008 ≤ (utfAddr esp).toNat) (hi : i < 52) :
    pgnum (utfAddr esp + BitVec.ofNat 32 i) = 0xEEBFF := by
  have hle := frame_le esp
  have hoff : (BitVec.ofNat 32 i).toNat = i := by
    rw [BitVec.toNat_ofNat]
    omega
  rw [pgnum_eq, BitVec.toNat_add, hoff]
  omega

variable {k k₁ k' : Kernel} {cpu : ℕ} {inp : Input} {tf : Trapframe}

/-- The stores of the frame do not get in the way of each other's translation. -/
def FrameApart (pm : PhysMem) (r : ℕ) (utf : Word) : Prop :=
  ∀ i < 52, ∀ j < 52, Apart pm r (utf + BitVec.ofNat 32 i) (utf + BitVec.ofNat 32 j)

section Frame

variable {esp : Word} {ws : List Word}

theorem length_flatMap_wordBytes (ws : List Word) :
    (ws.flatMap wordBytes).length = 4 * ws.length := by
  rw [List.length_flatMap]
  simp [wordBytes, Nat.mul_comm]

/-- `storeUser` found everything mapped. -/
theorem storeUser_inv (hrun : storeUser r utf bs pm = .ok () pm') :
    (∀ i < bs.length, translates pm r (utf + BitVec.ofNat 32 i) (PTE_P ||| PTE_W) = true) ∧
      pm' = storeBytes r utf bs pm := by
  rw [storeUser, run_get_bind] at hrun
  split at hrun
  · next hall =>
      rw [List.all_eq_true] at hall
      rw [run_modify] at hrun
      cases hrun
      exact ⟨fun i hi => hall i (List.mem_range.2 hi), rfl⟩
  · cases hrun

/-- The tables of the frame's page and the page itself are different pages. -/
theorem apart_frame (hinv : MemInv pm roots held) (hr : roots c = some r)
    (ht : ∀ i < 52, translates pm r (utfAddr esp + BitVec.ofNat 32 i) (PTE_P ||| PTE_W) = true)
    (ha : HasTable pm r a) (hi : i < 52) : Apart pm r (utfAddr esp + BitVec.ofNat 32 i) a :=
  apart_of_translates hinv hr (utfAddr_lt_UTOP esp hi) (ht i hi) ha

theorem hasTable_frame
    (ht : ∀ i < 52, translates pm r (utfAddr esp + BitVec.ofNat 32 i) (PTE_P ||| PTE_W) = true)
    (hi : i < 52) : HasTable pm r (utfAddr esp + BitVec.ofNat 32 i) := by
  have hti := ht i hi
  rw [translates, Bool.and_eq_true] at hti
  exact ⟨utfAddr_lt_UTOP esp hi, present_of_grants (grants_of_or hti.1).1⟩

/-- The kernel's invariant keeps tables and user pages apart. -/
theorem frameApart_of_inv (hinv : MemInv pm roots held) (hr : roots c = some r)
    (ht : ∀ i < 52, translates pm r (utfAddr esp + BitVec.ofNat 32 i) (PTE_P ||| PTE_W) = true) :
    FrameApart pm r (utfAddr esp) :=
  fun _ hi _ hj => apart_frame hinv hr ht (hasTable_frame ht hj) hi

/-- The stores of the kernel, seen from user code. -/
theorem userByte_pushUtf (hinv : MemInv pm roots held) (hr : roots c = some r)
    (hlen : ws.length = 13) (hroom : 0xEEBFF008 ≤ (utfAddr esp).toNat)
    (hrun : storeUser r (utfAddr esp) (ws.flatMap wordBytes) pm = .ok () pm')
    (ha : HasTable pm r a)
    (halias : (wordAt pm r a).page = (wordAt pm r (UXSTACKTOP - 1#32)).page → pgnum a = 0xEEBFF) :
    userByte pm' r a = storeWords (userByte pm r) (utfAddr esp) ws a := by
  obtain ⟨ht, rfl⟩ := storeUser_inv hrun
  have hcount : (ws.flatMap wordBytes).length = 52 := by rw [length_flatMap_wordBytes, hlen]
  rw [hcount] at ht
  -- the frame is in one page, so all its bytes are translated alike
  have hpage : ∀ i < 52, (wordAt pm r (utfAddr esp + BitVec.ofNat 32 i)).page
      = (wordAt pm r (UXSTACKTOP - 1#32)).page := by
    intro i hi
    have hsame : pgnum (utfAddr esp + BitVec.ofNat 32 i) = pgnum (UXSTACKTOP - 1#32) :=
      pgnum_frame hroom hi
    obtain ⟨hd, ht⟩ := indexes_of_pgnum_eq hsame
    simp only [wordAt, hd, ht]
  have hbytes := userByte_storeBytes (r := r) (a := a) (ws.flatMap wordBytes) (utfAddr esp) pm
    (by rw [hcount]; decide) (fun i hi => ?_) fun i hi hpg hoff => ?_
  · have hwords := stored_storeWords ws (userByte pm r) (utfAddr esp) a (by rw [hlen]; decide)
    exact hbytes.trans hwords.symm
  · rw [hcount] at hi ⊢
    exact ⟨apart_frame hinv hr ht ha hi, frameApart_of_inv hinv hr ht i hi⟩
  · rw [hcount] at hi
    have hn := (halias (hpg.trans (hpage i hi))).trans (pgnum_frame hroom hi).symm
    rw [pgnum_eq, pgnum_eq] at hn
    exact BitVec.eq_of_toNat_eq (by omega)

/-- The bytes of the frame itself: no two of them share a byte of physical
memory, wherever its pages are. -/
theorem userByte_frame (hap : FrameApart pm r utf) (hlen : ws.length = 13)
    (hrun : storeUser r utf (ws.flatMap wordBytes) pm = .ok () pm') (hx : (x - utf).toNat < 52) :
    userByte pm' r x = storeWords (userByte pm r) utf ws x := by
  obtain ⟨-, rfl⟩ := storeUser_inv hrun
  have hcount : (ws.flatMap wordBytes).length = 52 := by rw [length_flatMap_wordBytes, hlen]
  obtain ⟨n, hn, rfl⟩ : ∃ n, n < 52 ∧ x = utf + BitVec.ofNat 32 n :=
    ⟨(x - utf).toNat, hx, by rw [BitVec.ofNat_toNat, BitVec.setWidth_eq, BitVec.add_comm,
      BitVec.sub_add_cancel]⟩
  have hbytes := userByte_storeBytes (r := r) (a := utf + BitVec.ofNat 32 n) (ws.flatMap wordBytes)
    utf pm (by rw [hcount]; decide) (fun i hi => ?_) fun i hi _ hoff => ?_
  · have hwords := stored_storeWords ws (userByte pm r) utf (utf + BitVec.ofNat 32 n)
      (by rw [hlen]; decide)
    exact hbytes.trans hwords.symm
  · rw [hcount] at hi ⊢
    exact ⟨hap i hi n hn, hap i hi⟩
  · -- 52 bytes in a row have different places in their pages
    rw [hcount] at hi
    have hvn : (BitVec.ofNat 32 n).toNat = n := by rw [BitVec.toNat_ofNat]; omega
    have hvi : (BitVec.ofNat 32 i).toNat = i := by rw [BitVec.toNat_ofNat]; omega
    rw [BitVec.toNat_add, BitVec.toNat_add, hvn, hvi] at hoff
    have hni : n = i := by omega
    rw [hni]

end Frame

section Handler

variable (hc : k.curenv cpu = some c) (hr : (k.envs c).envPgdir = some r)
  (hup : (k.envs c).envPgfaultUpcall ≠ 0#32)
  (hok : userMemAssert cpu c (utfAddr tf.tfEsp) 52#32 (PTE_P ||| PTE_W ||| PTE_U) k = .ok () k₁)
  (hrun : pageFaultHandler cpu inp tf k = .error .user k')

include hc hr hup hok hrun

/-- **The stores of `page_fault_handler`**, once `user_mem_assert` has accepted
the exception stack: the frame, and then user code continues at the upcall. -/
theorem pageFaultHandler_stores :
    k'.curenv cpu = some c ∧
      (k'.envs c).envTf = { (k.envs c).envTf with
        tfEip := (k.envs c).envPgfaultUpcall, tfEsp := utfAddr tf.tfEsp } ∧
      ∃ b, storeUser r (utfAddr tf.tfEsp) ((utfWords inp.cr2 tf).flatMap wordBytes)
        { k.pm with userMemCheckAddr := b } = .ok () k'.pm := by
  rw [pageFaultHandler] at hrun
  split at hrun
  · cases hrun
  rw [run_get_bind] at hrun
  simp only [hc, if_pos hup] at hrun
  rw [run_bind_ok hok] at hrun
  obtain ⟨b, rfl⟩ := userMemAssert_self hc hok
  set pm₀ : PhysMem := { k.pm with userMemCheckAddr := b } with hpm₀
  have hr₀ : ({ k with pm := pm₀ } : Kernel).roots c = some r := hr
  have hpush : pushUtf c (utfAddr tf.tfEsp) (utfWords inp.cr2 tf) { k with pm := pm₀ }
      = onPm (storeUser r (utfAddr tf.tfEsp) ((utfWords inp.cr2 tf).flatMap wordBytes))
          { k with pm := pm₀ } := withPgdir_some hr₀ _
  cases hst : storeUser r (utfAddr tf.tfEsp) ((utfWords inp.cr2 tf).flatMap wordBytes) pm₀ with
  | error x pm₁ =>
    rw [run_bind_error (hpush.trans (onPm_error hst))] at hrun
    cases hrun
  | ok u pm₁ =>
    rw [run_bind_ok (hpush.trans (onPm_ok hst)), run_modify_bind, envRun_some (r := r)] at hrun
    · cases hrun
      refine ⟨by rw [curenv_switched, if_pos rfl], ?_, b, ?_⟩
      · rw [tf_switched]
        simp [Kernel.modifyEnv]
      · rw [pm_switched]
        exact hst
    · simp [Kernel.roots, Kernel.modifyEnv, hr]

/-- **What `page_fault_handler` does** to the memory of user code: the frame is
pushed, as `pushFrame` says, at all addresses that are not another name for the
page of the exception stack. -/
theorem pageFaultHandler_pushFrame (hinv : MemInv k.pm k.roots held)
    (hroom : 0xEEBFF008 ≤ (utfAddr tf.tfEsp).toNat) :
    k'.curenv cpu = some c ∧
      (k'.envs c).envTf = { (k.envs c).envTf with
        tfEip := (k.envs c).envPgfaultUpcall, tfEsp := utfAddr tf.tfEsp } ∧
      ∀ a, HasTable k.pm r a →
        ((wordAt k.pm r a).page = (wordAt k.pm r (UXSTACKTOP - 1#32)).page → pgnum a = 0xEEBFF) →
        userByte k'.pm r a
          = storeWords (userByte k.pm r) (utfAddr tf.tfEsp) (utfWords inp.cr2 tf) a := by
  obtain ⟨hcur, htf, b, hst⟩ := pageFaultHandler_stores hc hr hup hok hrun
  have hinv₀ : MemInv { k.pm with userMemCheckAddr := b } k.roots held :=
    hinv.congr_tables rfl (fun _ _ => rfl) hinv.alloc
  refine ⟨hcur, htf, fun a ha halias => ?_⟩
  have hbyte := userByte_pushUtf (a := a) hinv₀ hr rfl hroom hst ha halias
  exact hbyte

end Handler

end Kernel

end Jos.Pfentry
