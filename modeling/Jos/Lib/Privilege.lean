import Jos.Lib.Stack

/-!
# The way into a kernel and out of it

What a kernel sees of the processor and a user program does not: the segment registers with the
privilege levels of their descriptors, interrupt gates, the switch to the stack of an inner ring,
and `iret`.  Segments are flat, so a descriptor is its type and its privilege level.

Where the processor would take a second exception while it delivers one, and where a gate leads to
a task, there is no result.
-/

namespace Jos.Lib.X86

/-- The segment registers. -/
inductive SReg where
  | cs | ss | ds | es | fs | gs
deriving DecidableEq

abbrev Selector := BitVec 16

/-- A segment descriptor: its type, whether it is for an application segment, its privilege level
and whether the segment is present. -/
structure SegDesc where
  type : BitVec 4
  app : Bool
  dpl : ℕ
  present : Bool

namespace SegDesc

def code (d : SegDesc) : Bool := d.type.getLsbD 3

/-- Code that runs in the ring of its caller. -/
def conforming (d : SegDesc) : Bool := d.code && d.type.getLsbD 2

/-- Data that may be written, or code that may be read. -/
def rw (d : SegDesc) : Bool := d.type.getLsbD 1

end SegDesc

namespace Selector

/-- The privilege level that a selector asks for. -/
def rpl (s : Selector) : ℕ := s.toNat % 4

def null (s : Selector) : Bool := s.toNat < 4

/-- The same segment in ring `n`. -/
def withRpl (s : Selector) (n : ℕ) : Selector := BitVec.ofNat 16 (s.toNat / 4 * 4 + n)

end Selector

/-- An entry of the interrupt descriptor table, as the processor reads its 64 bits. -/
structure Gate where
  offset : Word32
  sel : Selector
  type : BitVec 4
  app : Bool
  dpl : ℕ
  present : Bool
deriving DecidableEq

def Gate.ofBits (b : BitVec 64) : Gate where
  offset := b.extractLsb' 48 16 ++ b.extractLsb' 0 16
  sel := b.extractLsb' 16 16
  type := b.extractLsb' 40 4
  app := b.getLsbD 44
  dpl := (b.extractLsb' 45 2).toNat
  present := b.getLsbD 47

/-- A 32-bit interrupt gate, which disables interrupts. -/
def interruptGate : BitVec 4 := 0xE

/-- A 32-bit trap gate. -/
def trapGate : BitVec 4 := 0xF

/-- What the processor takes from its tables: descriptors by their index, the interrupt descriptor
table, and the stack of ring 0 from the task state segment.  `wide` says whether the push of a
selector writes a whole word or its lower half only. -/
structure DescTables where
  gdt : ℕ → Option SegDesc
  idt : BitVec 8 → BitVec 64
  esp0 : Word32
  ss0 : Selector
  wide : Bool

/-- The processor.  `readable` and `writable` are about accesses in ring 0. -/
structure Processor extends State where
  sreg : SReg → Selector

namespace DescTables

variable (t : DescTables)

/-- The descriptor of a selector; there is no local table. -/
def desc (s : Selector) : Option SegDesc :=
  if s.getLsbD 2 ∨ s.null then none else t.gdt (s.toNat / 8)

/-- Whether `%ds` or a register like it may be loaded with the selector in ring `cpl`. -/
def loadable (cpl : ℕ) (s : Selector) : Bool :=
  s.null || (t.desc s).any fun d ↦
    d.app && (!d.code || d.rw) && (d.conforming || (s.rpl ≤ d.dpl && cpl ≤ d.dpl)) && d.present

/-- Whether the selector is for the stack of ring `cpl`. -/
def stack (cpl : ℕ) (s : Selector) : Bool :=
  s.rpl == cpl && (t.desc s).any fun d ↦ d.app && !d.code && d.rw && d.dpl == cpl && d.present

/-- Whether `iret` may return to the code segment, in the ring that its selector says. -/
def returnable (s : Selector) : Bool :=
  (t.desc s).any fun d ↦
    d.app && d.code && (if d.conforming then d.dpl ≤ s.rpl else d.dpl == s.rpl) && d.present

/-- What a return to ring `cpl` leaves of a selector in `%ds` or a register like it. -/
def cleared (cpl : ℕ) (s : Selector) : Selector :=
  if s.null || (t.desc s).any fun d ↦ d.dpl < cpl && !d.conforming then 0 else s

end DescTables

/-! ## Flags -/

def TF : ℕ := 8
def IF : ℕ := 9
def NT : ℕ := 14
def RF : ℕ := 16
def VM : ℕ := 17

/-- The flags on the way through a gate. -/
def gateFlags (type : BitVec 4) (f : Word32) : Word32 :=
  let bit (i : ℕ) : Word32 := 1 <<< i
  f &&& ~~~(bit TF ||| bit NT ||| bit RF ||| bit VM ||| if type = interruptGate then bit IF else 0)

/-! ## Interrupts and exceptions -/

/-- What makes the processor leave the program: an exception with the error code that it has if it
has one, `int` with the address of the next instruction, or an interrupt from outside. -/
inductive Event where
  | fault (n : BitVec 8) (err : Word32)
  | int (n : BitVec 8) (next : Word32)
  | external (n : BitVec 8)

/-- The exceptions with an error code. -/
def hasErrorCode (n : BitVec 8) : Bool := n ∈ [8, 10, 11, 12, 13, 14, 17]

namespace Processor

variable (t : DescTables) (c : Processor)

/-- The ring that the processor is in. -/
def cpl : ℕ := (c.sreg .cs).rpl

/-- A selector as it is pushed. -/
def selWord (s : Selector) : Word32 :=
  (if t.wide then 0 else (word c.mem (c.reg .esp - 4)).extractLsb' 16 16) ++ s

def push (w : Word32) : Option Processor := (c.toState.push w).map fun s ↦ { c with toState := s }

def pop : Option (Word32 × Processor) := c.toState.pop.map fun (w, s) ↦ (w, { c with toState := s })

def pushSel (s : Selector) : Option Processor := c.push (c.selWord t s)

def setReg (r : Reg) (w : Word32) : Processor := { c with toState := c.toState.setReg r w }

def setSReg (r : SReg) (s : Selector) : Processor := { c with sreg := Function.update c.sreg r s }

/-- What is wrong with the gate of vector `n`: the vector and the error code of the exception.
`soft` is for `int`, which needs the privilege of the gate. -/
def refused (n : BitVec 8) (soft : Bool) : Option (BitVec 8 × Word32) :=
  let g := Gate.ofBits (t.idt n)
  let code := 8 * n.setWidth 32 + 2 + if soft then 0 else 1
  if g.app ∨ g.type ≠ interruptGate ∧ g.type ≠ trapGate then some (13, code)
  else if soft ∧ g.dpl < c.cpl then some (13, code)
  else if ¬ g.present then some (11, code)
  else none

/-- Through the gate of vector `n` to the handler in an inner ring. -/
def enter (n : BitVec 8) (eip : Word32) (err : Option Word32) : Option Processor := do
  let g := Gate.ofBits (t.idt n)
  let d ← t.desc g.sel
  if d.app ∧ d.code ∧ ¬ d.conforming ∧ d.present ∧ d.dpl < c.cpl ∧ t.stack d.dpl t.ss0 then
    let c' : Processor := { c with reg := Function.update c.reg .esp t.esp0 }
    let c' ← c'.pushSel t (c.sreg .ss)
    let c' ← c'.push (c.reg .esp)
    let c' ← c'.push c.eflags
    let c' ← c'.pushSel t (c.sreg .cs)
    let c' ← c'.push eip
    let c' ← match err with
      | some e => c'.push e
      | none => some c'
    let c' := (c'.setSReg .ss t.ss0).setSReg .cs (g.sel.withRpl d.dpl)
    return { c' with eflags := gateFlags g.type c.eflags, eip := g.offset }
  else none

/-- The processor takes an event in an outer ring. -/
def take (e : Event) : Option Processor :=
  let (n, soft, eip, err) := match e with
    | .fault n err => (n, false, c.eip, if hasErrorCode n then some err else none)
    | .int n next => (n, true, next, none)
    | .external n => (n, false, c.eip, none)
  match c.refused t n soft with
  | none => c.enter t n eip err
  | some (n', code) =>
      if (c.refused t n' false).isNone then c.enter t n' c.eip (some code) else none

/-- The processor after a return to an outer ring. -/
def returned (eip : Word32) (cs : Selector) (eflags esp : Word32) (ss : Selector) : Processor :=
  { c with
    reg := Function.update c.reg .esp esp
    eip := eip
    eflags := eflags
    sreg
      | .cs => cs
      | .ss => ss
      | r => t.cleared cs.rpl (c.sreg r) }

/-- `iret`, to an outer ring or in the same one. -/
def iret : Option Processor := do
  if c.eflags.getLsbD NT then none
  else
    let (eip, c') ← c.pop
    let (cs, c') ← c'.pop
    let (eflags, c') ← c'.pop
    let cs : Selector := cs.setWidth 16
    if eflags.getLsbD VM ∨ ¬ t.returnable cs ∨ cs.rpl < c.cpl then none
    else if cs.rpl = c.cpl then
      return { c'.setSReg .cs cs with eip := eip, eflags := eflags }
    else
      let (esp, c') ← c'.pop
      let (ss, c') ← c'.pop
      let ss : Selector := ss.setWidth 16
      if ¬ t.stack cs.rpl ss then none
      else return c'.returned t eip cs eflags esp ss

end Processor

/-! ## Kernel code -/

/-- The instructions that a user program does not need. -/
inductive KernInstr where
  | user (i : Instr)
  | pushImm (imm : Word32)
  | pushSeg (src : SReg)
  | popSeg (dst : SReg)
  | pushal
  | movImm (imm : Word32) (dst : Reg)
  | movSeg (src : Reg) (dst : SReg)
  | jmp (target : Word32)
  | call (target next : Word32)
  | iret

/-- Load a segment register that is not for code or the stack. -/
def Processor.loadSeg (t : DescTables) (c : Processor) (r : SReg) (s : Selector) :
    Option Processor :=
  if r ≠ .cs ∧ r ≠ .ss ∧ t.loadable c.cpl s then some (c.setSReg r s) else none

/-- One instruction in ring 0. -/
def KernInstr.exec (t : DescTables) (c : Processor) : KernInstr → Option Processor
  | .user i => (i.exec c.toState).map fun s ↦ { c with toState := s }
  | .pushImm imm => c.push imm
  | .pushSeg src => c.pushSel t (c.sreg src)
  | .popSeg dst => do
      let (w, c) ← c.pop
      c.loadSeg t dst (w.setWidth 16)
  | .pushal => do
      let esp := c.reg .esp
      let c ← c.push (c.reg .eax)
      let c ← c.push (c.reg .ecx)
      let c ← c.push (c.reg .edx)
      let c ← c.push (c.reg .ebx)
      let c ← c.push esp
      let c ← c.push (c.reg .ebp)
      let c ← c.push (c.reg .esi)
      c.push (c.reg .edi)
  | .movImm imm dst => some (c.setReg dst imm)
  | .movSeg src dst => c.loadSeg t dst ((c.reg src).setWidth 16)
  | .jmp target => some { c with eip := target }
  | .call target next => do
      let c ← c.push next
      return { c with eip := target }
  | .iret => c.iret t

/-! ## What they leave -/

namespace Processor

variable {t : DescTables} {c : Processor} {ws : List Word32} {w : Word32} {n : ℕ}

@[simp] theorem reg_setReg_self {r : Reg} : (c.setReg r w).reg r = w := by
  simp [setReg, State.setReg]

theorem reg_setReg_of_ne {r r' : Reg} (hr : r' ≠ r) : (c.setReg r w).reg r' = c.reg r' := by
  simp [setReg, State.setReg, hr]

/-- The processor after words were pushed. -/
def pushed (c : Processor) (ws : List Word32) : Processor :=
  { c with toState := c.toState.pushed ws }

@[simp] theorem toState_pushed : (c.pushed ws).toState = c.toState.pushed ws := rfl
@[simp] theorem sreg_pushed : (c.pushed ws).sreg = c.sreg := rfl
@[simp] theorem pushed_nil : c.pushed [] = c := by simp [pushed]

theorem push_pushed (hroom : Below c.writable (c.reg .esp) n) (hn : 4 * (ws.length + 1) ≤ n)
    (hn' : n ≤ 2 ^ 32) : (c.pushed ws).push w = some (c.pushed (ws ++ [w])) := by
  rw [push, toState_pushed, State.push_pushed hroom hn hn']
  rfl

theorem setReg_pushed {r : Reg} (hr : r ≠ .esp) : (c.pushed ws).setReg r w =
    (c.setReg r w).pushed ws := by
  have hesp : (Function.update c.reg r w) .esp = c.reg .esp := Function.update_of_ne hr.symm ..
  simp only [setReg, pushed, State.setReg, State.pushed, hesp]
  rw [Function.update_comm hr]

/-- `pushal`. -/
theorem pushal_pushed (t : DescTables) (ws : List Word32) (hroom : Below c.writable (c.reg .esp) n)
    (hn : 4 * (ws.length + 8) ≤ n) (hn' : n ≤ 2 ^ 32) :
    KernInstr.pushal.exec t (c.pushed ws) = some (c.pushed (ws ++
      [c.reg .eax, c.reg .ecx, c.reg .edx, c.reg .ebx,
        c.reg .esp - BitVec.ofNat 32 (4 * ws.length), c.reg .ebp, c.reg .esi, c.reg .edi])) := by
  have hpush : ∀ vs w, vs.length ≤ ws.length + 7 →
      (c.pushed vs).push w = some (c.pushed (vs ++ [w])) := fun vs w hlen ↦
    push_pushed hroom (by omega) hn'
  simp (disch := simp) only [KernInstr.exec, toState_pushed, State.esp_pushed, State.reg_pushed,
    hpush, Option.bind_eq_bind, Option.bind_some, List.append_assoc, List.cons_append,
    List.nil_append]

/-- The upper half of the word depends on the processor. -/
theorem pushSel_pushed (t : DescTables) (ws : List Word32) (hroom : Below c.writable (c.reg .esp) n)
    (hn : 4 * (ws.length + 1) ≤ n) (hn' : n ≤ 2 ^ 32) (s : Selector) : ∃ pad : BitVec 16,
      (c.pushed ws).pushSel t s = some (c.pushed (ws ++ [pad ++ s])) :=
  ⟨_, push_pushed hroom hn hn'⟩

/-- `popal`, on its own. -/
theorem popal_eq (h : ∀ i : Word32, i.toNat ≤ 28 → State.Bytes c.readable (c.reg .esp + i)) :
    KernInstr.exec t c (.user .popal) = some { c with reg := popalRegs c.mem (c.reg .esp) } := by
  obtain ⟨s', hrun, rfl⟩ := wp_popal (s := c.toState) (Q := (· = _)) h (wp_nil rfl)
  rw [run, List.foldlM_cons, Option.bind_eq_bind, Option.bind_eq_some_iff] at hrun
  obtain ⟨s, hexec, hs⟩ := hrun
  rw [KernInstr.exec, hexec, Option.map_some]
  exact congrArg (fun s ↦ some { c with toState := s }) (Option.some.inj hs)

theorem pop_eq (h : State.Bytes c.readable (c.reg .esp)) :
    c.pop = some (word c.mem (c.reg .esp), c.setReg .esp (c.reg .esp + 4)) := by
  rw [pop, State.pop_eq h]
  rfl

@[simp] theorem setReg_setReg {r : Reg} {v : Word32} :
    (c.setReg r v).setReg r w = c.setReg r w := by
  simp [setReg, State.setReg]

theorem popSeg_eq {r : SReg} (h : State.Bytes c.readable (c.reg .esp)) (hr : r ≠ .cs ∧ r ≠ .ss)
    (hload : t.loadable c.cpl ((word c.mem (c.reg .esp)).setWidth 16)) :
    KernInstr.exec t c (.popSeg r) = some
      ((c.setReg .esp (c.reg .esp + 4)).setSReg r ((word c.mem (c.reg .esp)).setWidth 16)) := by
  rw [KernInstr.exec, pop_eq h, Option.bind_eq_bind, Option.bind_some]
  exact if_pos ⟨hr.1, hr.2, hload⟩

/-- `iret` to an outer ring. -/
theorem iret_outer {a eip cs eflags esp ss : Word32} (hesp : c.reg .esp = a)
    (hstack : StackAt c.mem a [eip, cs, eflags, esp, ss])
    (hread : ∀ x : Word32, x.toNat < 20 → c.readable (a + x)) (hnt : c.eflags.getLsbD NT = false)
    (hvm : eflags.getLsbD VM = false) (hcs : t.returnable (cs.setWidth 16))
    (hring : c.cpl < Selector.rpl (cs.setWidth 16))
    (hss : t.stack (Selector.rpl (cs.setWidth 16)) (ss.setWidth 16)) :
    c.iret t = some (c.returned t eip (cs.setWidth 16) eflags esp (ss.setWidth 16)) := by
  have hbytes : ∀ x : Word32, x.toNat ≤ 16 → State.Bytes c.readable (a + x) := by
    intro x hx
    have key : ∀ j : Word32, j.toNat < 4 → c.readable (a + x + j) := by
      intro j hj
      rw [BitVec.add_assoc]
      exact hread (x + j) (by bv_omega)
    exact ⟨hread x (by omega), key 1 (by decide), key 2 (by decide), key 3 (by decide)⟩
  have hpop : ∀ x w : Word32, x.toNat ≤ 16 → word c.mem (a + x) = w →
      (c.setReg .esp (a + x)).pop = some (w, c.setReg .esp (a + x + 4)) := by
    intro x w hx hw
    have hx' : State.Bytes (c.setReg .esp (a + x)).readable ((c.setReg .esp (a + x)).reg .esp) := by
      rw [reg_setReg_self]
      exact hbytes x hx
    rw [pop_eq hx', reg_setReg_self, setReg_setReg, ← hw]
    rfl
  simp only [StackAt, BitVec.add_assoc, BitVec.ofNat_eq_ofNat, BitVec.reduceAdd] at hstack
  obtain ⟨h0, h4, h8, h12, h16, -⟩ := hstack
  have hpop0 : c.pop = some (eip, c.setReg .esp (a + 4#32)) := by
    rw [← h0, ← hesp]
    exact pop_eq (by simpa [hesp] using hbytes 0 (by decide))
  have hpop4 := hpop 4 cs (by decide) h4
  have hpop8 := hpop 8 eflags (by decide) h8
  have hpop12 := hpop 12 esp (by decide) h12
  have hpop16 := hpop 16 ss (by decide) h16
  simp only [BitVec.add_assoc, BitVec.ofNat_eq_ofNat, BitVec.reduceAdd] at hpop4 hpop8 hpop12 hpop16
  rw [iret, hnt, if_neg (by decide)]
  simp only [hpop0, hpop4, hpop8, hpop12, hpop16, Option.bind_eq_bind, Option.bind_some]
  have hok : ¬ (eflags.getLsbD VM ∨ ¬ t.returnable (cs.setWidth 16) ∨
      Selector.rpl (cs.setWidth 16) < c.cpl) := by
    rw [hvm, hcs]
    simpa using hring.le
  rw [if_neg hok, if_neg hring.ne', if_neg (not_not.mpr hss)]
  simp [returned, setReg, State.setReg]

end Processor

namespace DescTables

variable {t : DescTables} {cpl : ℕ} {s : Selector}

/-- An inner ring may load what an outer one may. -/
theorem loadable_mono {n : ℕ} (h : t.loadable cpl s) (hn : n ≤ cpl) : t.loadable n s := by
  rw [loadable, Bool.or_eq_true, Option.any_eq_true] at h ⊢
  apply h.imp_right
  rintro ⟨d, hd, hok⟩
  refine ⟨d, hd, ?_⟩
  simp only [Bool.and_eq_true, Bool.or_eq_true, decide_eq_true_eq] at hok ⊢
  obtain ⟨⟨happ, hpriv⟩, hp⟩ := hok
  exact ⟨⟨happ, hpriv.imp_right fun h ↦ ⟨h.1, hn.trans h.2⟩⟩, hp⟩

/-- A return clears null selectors only, among those that the outer ring may load. -/
theorem cleared_of_loadable (h : t.loadable cpl s) :
    t.cleared cpl s = if s.null then 0 else s := by
  by_cases hnull : s.null
  · rw [cleared, hnull, Bool.true_or, if_pos rfl]
  · rw [loadable, Bool.or_eq_true, or_iff_right hnull, Option.any_eq_true] at h
    obtain ⟨d, hd, hok⟩ := h
    simp only [Bool.and_eq_true, Bool.or_eq_true, decide_eq_true_eq] at hok
    rw [cleared, hd, if_neg hnull, if_neg]
    simp only [Option.any_some, Bool.or_eq_true, Bool.and_eq_true, decide_eq_true_eq,
      Bool.not_eq_true']
    rintro (hc | ⟨hlt, hc⟩)
    · exact hnull hc
    · rcases hok.1.2 with hok | ⟨-, hle⟩
      · rw [hc] at hok
        cases hok
      · exact absurd hlt (Nat.not_lt.mpr hle)

end DescTables

end Jos.Lib.X86
