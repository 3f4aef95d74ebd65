import Jos.Lib.Loop
import Jos.Lib.Privilege
import Jos.Kern.KernStack
import Jos.Kern.Trap

/-!
# Into the kernel and back (`kern/trapentry.S`, `trap_init`, `env_pop_tf`)

Every gate leads to a stub that pushes the number of the trap, and a 0 where the processor has
pushed no error code, so that what is on the stack when `trap` is called is a `struct Trapframe`.
`env_pop_tf` takes the registers out of such a frame again.
-/

namespace Jos

open Jos.Lib Jos.Lib.X86

/-! ## The descriptor tables -/

def STA_X : BitVec 4 := 0x8
def STA_W : BitVec 4 := 0x2
def STA_R : BitVec 4 := 0x2

/-- `SEG`. -/
def seg (type : BitVec 4) (base lim : Word) (dpl : BitVec 2) : Segdesc :=
  ⟨((lim >>> 12) &&& 0xffff).setWidth 16, (base &&& 0xffff).setWidth 16,
    ((base >>> 16) &&& 0xff).setWidth 8, type, 1, dpl, 1, (lim >>> 28).setWidth 4, 0, 0, 1, 1,
    (base >>> 24).setWidth 8⟩

/-- `SEG_NULL`. -/
def segNull : Segdesc := ⟨0, 0, 0, 0, 0, 0, 0, 0, 0, 0, 0, 0, 0⟩

/-- `gdt` as `kern/env.c` initialises it. -/
def bootGdt : ℕ → Segdesc
  | 1 => seg (STA_X ||| STA_R) 0 0xffffffff 0
  | 2 => seg STA_W 0 0xffffffff 0
  | 3 => seg (STA_X ||| STA_R) 0 0xffffffff 3
  | 4 => seg STA_W 0 0xffffffff 3
  | _ => segNull

/-- What the processor makes of a descriptor.  Those that are used have base 0 and no limit. -/
def Segdesc.desc (sd : Segdesc) : SegDesc :=
  ⟨sd.sdType, sd.sdS = 1, sd.sdDpl.toNat, sd.sdP = 1⟩

def STS_IG32 : BitVec 4 := 0xE
def STS_TG32 : BitVec 4 := 0xF

/-- `struct Gatedesc`. -/
structure Gatedesc where
  gdOff15_0 : BitVec 16
  gdSel : BitVec 16
  gdArgs : BitVec 5
  gdRsv1 : BitVec 3
  gdType : BitVec 4
  gdS : BitVec 1
  gdDpl : BitVec 2
  gdP : BitVec 1
  gdOff31_16 : BitVec 16

/-- The bit fields from the lowest bit on. -/
def Gatedesc.bits (g : Gatedesc) : BitVec 64 :=
  g.gdOff31_16 ++ (g.gdP ++ (g.gdDpl ++ (g.gdS ++ (g.gdType ++ (g.gdRsv1 ++ (g.gdArgs ++
    (g.gdSel ++ g.gdOff15_0)))))))

/-- `SETGATE`. -/
def setgate (istrap : Bool) (sel : BitVec 16) (off : Word) (dpl : BitVec 2) : Gatedesc where
  gdOff15_0 := (off &&& 0xffff).setWidth 16
  gdSel := sel
  gdArgs := 0
  gdRsv1 := 0
  gdType := if istrap then STS_TG32 else STS_IG32
  gdS := 0
  gdDpl := dpl
  gdP := 1
  gdOff31_16 := (off >>> 16).setWidth 16

theorem setWidth_append (off : Word) :
    (off >>> 16).setWidth 16 ++ (off &&& 0xffff).setWidth 16 = off := by
  have hlo : ∀ i < 16, (0xffff : Word).getLsbD i = true := by decide
  ext i hi
  simp only [BitVec.getElem_append, BitVec.getElem_setWidth, BitVec.getLsbD_and,
    BitVec.getLsbD_ushiftRight]
  rw [← BitVec.getLsbD_eq_getElem]
  split
  · next h => rw [hlo i h, Bool.and_true]
  · next h => rw [Nat.add_sub_cancel' (Nat.le_of_not_lt h)]

/-- The processor finds in a gate what `SETGATE` has put there. -/
theorem gate_setgate (istrap : Bool) (sel : BitVec 16) (off : Word) (dpl : BitVec 2) :
    Gate.ofBits (setgate istrap sel off dpl).bits =
      ⟨off, sel, if istrap then STS_TG32 else STS_IG32, false, dpl.toNat, true⟩ := by
  generalize hg : setgate istrap sel off dpl = g
  have hhigh : g.bits.extractLsb' 48 16 = g.gdOff31_16 := by
    rw [Gatedesc.bits, BitVec.extractLsb'_append_eq_of_le (by decide)]
    exact BitVec.extractLsb'_eq_self
  have hlow : g.bits.extractLsb' 0 16 = g.gdOff15_0 := by
    rw [Gatedesc.bits]
    iterate 8 rw [BitVec.extractLsb'_append_eq_of_add_le (by decide)]
    exact BitVec.extractLsb'_eq_self
  have hsel : g.bits.extractLsb' 16 16 = g.gdSel := by
    rw [Gatedesc.bits]
    iterate 7 rw [BitVec.extractLsb'_append_eq_of_add_le (by decide)]
    rw [BitVec.extractLsb'_append_eq_of_le (by decide)]
    exact BitVec.extractLsb'_eq_self
  have htype : g.bits.extractLsb' 40 4 = g.gdType := by
    rw [Gatedesc.bits]
    iterate 4 rw [BitVec.extractLsb'_append_eq_of_add_le (by decide)]
    rw [BitVec.extractLsb'_append_eq_of_le (by decide)]
    exact BitVec.extractLsb'_eq_self
  have hs : g.bits.getLsbD 44 = g.gdS.getLsbD 0 := by
    rw [Gatedesc.bits]
    iterate 4 rw [BitVec.getLsbD_append]
    rfl
  have hdpl : g.bits.extractLsb' 45 2 = g.gdDpl := by
    rw [Gatedesc.bits]
    iterate 2 rw [BitVec.extractLsb'_append_eq_of_add_le (by decide)]
    rw [BitVec.extractLsb'_append_eq_of_le (by decide)]
    exact BitVec.extractLsb'_eq_self
  have hp : g.bits.getLsbD 47 = g.gdP.getLsbD 0 := by
    rw [Gatedesc.bits]
    iterate 2 rw [BitVec.getLsbD_append]
    rfl
  rw [Gate.ofBits, hhigh, hlow, hsel, htype, hs, hdpl, hp, ← hg]
  simp only [setgate, setWidth_append]
  rfl

/-! ## The stubs -/

/-- The entry points of `kern/trapentry.S`. -/
inductive Stub where
  | tPgflt | tDivide | tDebug | tNmi | tBrkpt | tOflow | tBound | tIllop | tDevice | tDblflt | tTss
  | tSegnp | tStack | tGpflt | tFperr | tAlign | tMchk | tSimderr | tSyscall | irqTimer | irqKbd
  | irqSerial | irqSpurious | irqIde | irqError
deriving DecidableEq

namespace Stub

/-- All of them, in the order of the file. -/
def all : List Stub :=
  [tPgflt, tDivide, tDebug, tNmi, tBrkpt, tOflow, tBound, tIllop, tDevice, tDblflt, tTss, tSegnp,
    tStack, tGpflt, tFperr, tAlign, tMchk, tSimderr, tSyscall, irqTimer, irqKbd, irqSerial,
    irqSpurious, irqIde, irqError]

/-- The number that the stub pushes, and whether it is a `TRAPHANDLER_NOEC`. -/
def params : Stub → Word × Bool
  | tPgflt => (14, false)
  | tDivide => (0, true)
  | tDebug => (1, true)
  | tNmi => (2, true)
  | tBrkpt => (3, true)
  | tOflow => (4, true)
  | tBound => (5, true)
  | tIllop => (6, true)
  | tDevice => (7, true)
  | tDblflt => (8, false)
  | tTss => (10, false)
  | tSegnp => (11, false)
  | tStack => (12, false)
  | tGpflt => (13, false)
  | tFperr => (16, true)
  | tAlign => (17, false)
  | tMchk => (18, true)
  | tSimderr => (19, true)
  | tSyscall => (48, true)
  | irqTimer => (0 + 32, true)
  | irqKbd => (1 + 32, true)
  | irqSerial => (4 + 32, true)
  | irqSpurious => (7 + 32, true)
  | irqIde => (14 + 32, true)
  | irqError => (19 + 32, true)

/-- `TRAPHANDLER` and `TRAPHANDLER_NOEC`. -/
def code (alltraps : Word) (s : Stub) : List KernInstr :=
  (if s.params.2 then [.pushImm 0] else []) ++ [.pushImm s.params.1, .jmp alltraps]

end Stub

/-- Where the linker puts the code. -/
structure Symbols where
  stub : Stub → Word
  alltraps : Word
  trap : Word
  /-- the address after the call of `trap` -/
  next : Word
  inj : Function.Injective stub
  apart : ∀ s, stub s ≠ alltraps

namespace Symbols

variable (S : Symbols)

/-- `_alltraps`. -/
def alltrapsCode : List KernInstr :=
  [.pushSeg .ds, .pushSeg .es, .pushal,
    .movImm (GD_KD.setWidth 32) .eax, .movSeg .eax .ds, .movSeg .eax .es,
    .user (.pushl .esp), .call S.trap S.next]

/-- The code at an address. -/
def text (a : Word) : Option (List KernInstr) :=
  if a = S.alltraps then some S.alltrapsCode
  else (Stub.all.find? (S.stub · = a)).map (Stub.code S.alltraps)

/-- The processor runs the code where it is. -/
def run (t : DescTables) (c : Processor) : Option Processor := do
  (← S.text c.eip).foldlM (KernInstr.exec t) c

end Symbols

/-- The gates of `trap_init`: vector, stub and privilege level. -/
def trapInit : List (BitVec 8 × Stub × BitVec 2) :=
  [(0, .tDivide, 0), (1, .tDebug, 0), (2, .tNmi, 0), (3, .tBrkpt, 3), (4, .tOflow, 0),
    (5, .tBound, 0), (6, .tIllop, 0), (7, .tDevice, 0), (8, .tDblflt, 0), (10, .tTss, 0),
    (11, .tSegnp, 0), (12, .tStack, 0), (13, .tGpflt, 0), (14, .tPgflt, 0), (16, .tFperr, 0),
    (17, .tAlign, 0), (18, .tMchk, 0), (19, .tSimderr, 0), (48, .tSyscall, 3),
    (32 + 0, .irqTimer, 0), (32 + 1, .irqKbd, 0), (32 + 4, .irqSerial, 0),
    (7 + 32, .irqSpurious, 0), (14 + 32, .irqIde, 0), (19 + 32, .irqError, 0)]

/-- The entry of `trap_init` for a vector. -/
def gateOf (n : BitVec 8) : Option (Stub × BitVec 2) :=
  (trapInit.find? (·.1 = n)).map Prod.snd

/-- `idt` after `trap_init`. -/
def Symbols.idt (S : Symbols) : BitVec 8 → BitVec 64 :=
  trapInit.foldl (fun idt (n, s, dpl) ↦
    Function.update idt n (setgate false GD_KT (S.stub s) dpl).bits) fun _ ↦ 0

/-- What CPU `n` has in its registers. -/
def trapTables (S : Symbols) (segs : TaskSegs) (n : CpuId) (wide : Bool) : DescTables where
  gdt i := if i < NCPU + 5 then some (segs.gdt i).desc else none
  idt := S.idt
  esp0 := (segs.cpus n).cpuTs.tsEsp0
  ss0 := (segs.cpus n).cpuTs.tsSs0
  wide := wide

/-- From the event to the first instruction of `trap`. -/
def Symbols.trapEntry (S : Symbols) (t : DescTables) (c : Processor) (e : Event) :
    Option Processor := do
  let c ← c.take t e
  let c ← S.run t c
  S.run t c

/-- `env_pop_tf`. -/
def envPopTf (tf : Word) : List KernInstr :=
  [.movImm tf .esp, .user .popal, .popSeg .es, .popSeg .ds, .user (.addl 8 .esp), .iret]

/-- The `struct Trapframe` at an address. -/
def trapframeAt (m : Word → BitVec 8) (a : Word) : Trapframe where
  regs :=
    { edi := word m a
      esi := word m (a + 4)
      ebp := word m (a + 8)
      oesp := word m (a + 12)
      ebx := word m (a + 16)
      edx := word m (a + 20)
      ecx := word m (a + 24)
      eax := word m (a + 28) }
  es := (word m (a + 32)).setWidth 16
  ds := (word m (a + 36)).setWidth 16
  trapno := word m (a + 40)
  err := word m (a + 44)
  eip := word m (a + 48)
  cs := (word m (a + 52)).setWidth 16
  eflags := word m (a + 56)
  esp := word m (a + 60)
  ss := (word m (a + 64)).setWidth 16

/-! ## The gates -/

theorem gateOf_cases : ∀ n : BitVec 8, ∀ x ∈ gateOf n,
    x.1.params = (n.setWidth 32, !hasErrorCode n) ∧
      x.2 = if n = 3 ∨ n = 48 then 3 else 0 := by
  decide

section

variable {S : Symbols} {segs : TaskSegs} {i : CpuId} {wide : Bool} {n : BitVec 8} {s : Stub}
  {dpl : BitVec 2} {c : Processor}

theorem idt_eq : S.idt n =
    ((gateOf n).map fun x ↦ (setgate false GD_KT (S.stub x.1) x.2).bits).getD 0 := by
  rw [Symbols.idt, gateOf, Option.map_map]
  exact foldl_update (fun x : Stub × BitVec 2 ↦ (setgate false GD_KT (S.stub x.1) x.2).bits)
    trapInit (fun _ ↦ 0) (by decide) n

theorem gate_some (h : gateOf n = some (s, dpl)) :
    Gate.ofBits ((trapTables S segs i wide).idt n) =
      ⟨S.stub s, GD_KT, interruptGate, false, dpl.toNat, true⟩ := by
  show Gate.ofBits (S.idt n) = _
  rw [idt_eq, h, Option.map_some, Option.getD_some, gate_setgate]
  rfl

theorem gate_none (h : gateOf n = none) :
    Gate.ofBits ((trapTables S segs i wide).idt n) = ⟨0, 0, 0, false, 0, false⟩ := by
  show Gate.ofBits (S.idt n) = _
  rw [idt_eq, h, Option.map_none, Option.getD_none]
  decide

/-- `int` is refused but for the gates of ring 3. -/
theorem refused_some {soft : Bool} (h : gateOf n = some (s, dpl)) (hc : c.cpl = 3) :
    c.refused (trapTables S segs i wide) n soft =
      if soft ∧ dpl ≠ 3 then some (13, 8 * n.setWidth 32 + 2) else none := by
  have hdpl : dpl.toNat < 3 ↔ dpl ≠ 3 := by
    constructor
    · rintro h rfl
      exact absurd h (by decide)
    · intro h
      bv_omega
  rw [Processor.refused, gate_some h]
  simp only [hc, hdpl]
  cases soft <;> simp

theorem refused_none {soft : Bool} (h : gateOf n = none) :
    c.refused (trapTables S segs i wide) n soft =
      some (13, 8 * n.setWidth 32 + 2 + if soft then 0 else 1) := by
  rw [Processor.refused, gate_none h]
  exact if_pos (by decide)

/-- The processor in ring 0, on the stack that ends at `esp0`. -/
def entered (c : Processor) (esp0 eip : Word) : Processor :=
  { c with
    reg := Function.update c.reg .esp esp0
    sreg := Function.update (Function.update c.sreg .ss GD_KD) .cs GD_KT
    eflags := gateFlags interruptGate c.eflags
    eip := eip }

theorem reg_entered {esp0 eip : Word} {r : Reg} (hr : r ≠ .esp) :
    (entered c esp0 eip).reg r = c.reg r := Function.update_of_ne hr ..

@[simp] theorem esp_entered {esp0 eip : Word} : (entered c esp0 eip).reg .esp = esp0 := by
  simp [entered]

theorem cs_entered {esp0 eip : Word} : (entered c esp0 eip).sreg .cs = GD_KT := by
  simp [entered]

theorem cpl_entered {esp0 eip : Word} : (entered c esp0 eip).cpl = 0 := by
  rw [Processor.cpl, cs_entered]
  decide

/-- `env_init_percpu` has loaded `gdt`, and `trap_init_percpu` has run on the CPU. -/
structure TaskSegs.Ready (segs : TaskSegs) (i : CpuId) : Prop where
  gdt : ∀ j < 5, segs.gdt j = bootGdt j
  ss0 : (segs.cpus i).cpuTs.tsSs0 = GD_KD

namespace TaskSegs.Ready

variable (h : segs.Ready i)

include h

theorem desc {sel : Selector} (hlt : sel.toNat / 8 < 5) (hnull : ¬ sel.null)
    (hti : sel.getLsbD 2 = false) :
    (trapTables S segs i wide).desc sel = some (bootGdt (sel.toNat / 8)).desc := by
  rw [DescTables.desc, if_neg (by rw [hti]; simpa using hnull)]
  show (if _ then _ else _) = _
  rw [if_pos (hlt.trans (by decide)), h.gdt _ hlt]

theorem desc_KT : (trapTables S segs i wide).desc GD_KT = some ⟨0xA, true, 0, true⟩ :=
  h.desc (by decide) (by decide) (by decide)

theorem desc_KD : (trapTables S segs i wide).desc GD_KD = some ⟨0x2, true, 0, true⟩ :=
  h.desc (by decide) (by decide) (by decide)

theorem desc_UT : (trapTables S segs i wide).desc (GD_UT ||| 3) = some ⟨0xA, true, 3, true⟩ :=
  h.desc (by decide) (by decide) (by decide)

theorem desc_UD : (trapTables S segs i wide).desc (GD_UD ||| 3) = some ⟨0x2, true, 3, true⟩ :=
  h.desc (by decide) (by decide) (by decide)

theorem stack_KD : (trapTables S segs i wide).stack 0 (segs.cpus i).cpuTs.tsSs0 := by
  rw [h.ss0, DescTables.stack, h.desc_KD]
  decide

/-- What the processor leaves for the stub. -/
theorem enter (S : Symbols) (wide : Bool) (eip : Word) (err : Option Word)
    (hg : gateOf n = some (s, dpl)) (hc : c.cpl = 3)
    (hroom : Below c.writable (segs.cpus i).cpuTs.tsEsp0 76) : ∃ p q : BitVec 16,
    c.enter (trapTables S segs i wide) n eip err =
      some ((entered c (segs.cpus i).cpuTs.tsEsp0 (S.stub s)).pushed
        ([p ++ c.sreg .ss, c.reg .esp, c.eflags, q ++ c.sreg .cs, eip] ++ err.toList)) := by
  generalize hc₀ : ({ c with
    reg := Function.update c.reg .esp (segs.cpus i).cpuTs.tsEsp0 } : Processor) = c₀
  have hroom₀ : Below c₀.writable (c₀.reg .esp) 76 := by
    rw [← hc₀]
    simpa using hroom
  obtain ⟨p, hp⟩ := Processor.pushSel_pushed (trapTables S segs i wide) [] hroom₀ (by decide)
    (by decide) (c.sreg .ss)
  obtain ⟨q, hq⟩ := Processor.pushSel_pushed (trapTables S segs i wide)
    [p ++ c.sreg .ss, c.reg .esp, c.eflags] hroom₀ (by simp) (by decide) (c.sreg .cs)
  rw [Processor.pushed_nil] at hp
  have hpush : ∀ ws w, ws.length ≤ 18 → (c₀.pushed ws).push w = some (c₀.pushed (ws ++ [w])) :=
    fun ws w hlen ↦ Processor.push_pushed hroom₀ (by omega) (by decide)
  refine ⟨p, q, ?_⟩
  simp only [Processor.enter, gate_some hg, h.desc_KT, Option.bind_eq_bind, Option.bind_some]
  rw [if_pos ⟨trivial, by decide, by decide, trivial, by rw [hc]; decide, h.stack_KD⟩]
  have hinit : ({ c with
      reg := Function.update c.reg .esp (trapTables S segs i wide).esp0 } : Processor) = c₀ := hc₀
  rw [hinit, hp, Option.bind_some, List.nil_append, hpush _ _ (by simp), Option.bind_some,
    hpush _ _ (by simp), Option.bind_some]
  simp only [List.cons_append, List.nil_append]
  rw [hq, Option.bind_some, List.cons_append, List.cons_append, List.cons_append, List.nil_append,
    hpush _ _ (by simp), Option.bind_some]
  have hss : (trapTables S segs i wide).ss0 = GD_KD := h.ss0
  have hcs : Selector.withRpl GD_KT 0 = GD_KT := by decide
  rw [hss, hcs]
  cases err with
  | none =>
      rw [← hc₀]
      rfl
  | some e =>
      simp only
      rw [hpush _ _ (by simp), ← hc₀]
      rfl

end TaskSegs.Ready

end

end Jos
