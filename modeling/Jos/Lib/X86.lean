import Mathlib.Data.BitVec

/-!
# A user program on an x86

A few instructions of the 32-bit instruction set, with the memory that a user program sees: a byte
at every address, some of which it may read and some of which it may also write.  Registers are a
function, so that reading back what was written is `Function.update`; memory is read and written in
words, little end first.

Instructions are not fetched from memory, and an access that is not allowed has no result.
-/

namespace Jos.Lib.X86

/-- The general registers. -/
inductive Reg where
  | eax | ecx | edx | ebx | esp | ebp | esi | edi
deriving DecidableEq

/-- Addresses and words. -/
abbrev Word32 := BitVec 32

/-! ## Memory -/

/-- The word at an address. -/
def word (m : Word32 → BitVec 8) (a : Word32) : Word32 := m (a + 3) ++ m (a + 2) ++ m (a + 1) ++ m a

/-- Memory after a word was stored. -/
def setWord (m : Word32 → BitVec 8) (a w : Word32) (x : Word32) : BitVec 8 :=
  if (x - a).toNat < 4 then w.extractLsb' (8 * (x - a).toNat) 8 else m x

/-- The words at `a` and `b` have no byte in common. -/
def Apart (a b : Word32) : Prop := 4 ≤ (b - a).toNat ∧ (b - a).toNat ≤ 2 ^ 32 - 4

section Memory

variable (m : Word32 → BitVec 8) {a b w x : Word32}

theorem setWord_of_le (h : 4 ≤ (x - a).toNat) : setWord m a w x = m x :=
  if_neg (Nat.not_lt.mpr h)

theorem bytes_append (w : Word32) :
    w.extractLsb' 24 8 ++ w.extractLsb' 16 8 ++ w.extractLsb' 8 8 ++ w.extractLsb' 0 8 = w := by
  ext i hi
  simp only [BitVec.getElem_append, BitVec.getElem_extractLsb']
  split
  · rw [Nat.zero_add, BitVec.getLsbD_eq_getElem hi]
  split
  · rw [show 8 + (i - 8) = i by omega, BitVec.getLsbD_eq_getElem hi]
  split
  · rw [show 16 + (i - 8 - 8) = i by omega, BitVec.getLsbD_eq_getElem hi]
  · rw [show 24 + (i - 8 - 8 - 8) = i by omega, BitVec.getLsbD_eq_getElem hi]

/-- What was stored is read back. -/
@[simp] theorem word_setWord_self : word (setWord m a w) a = w := by
  have h : ∀ i : Word32, i.toNat < 4 →
      setWord m a w (a + i) = w.extractLsb' (8 * i.toNat) 8 := by
    intro i hi
    rw [setWord, BitVec.add_comm, BitVec.add_sub_cancel, if_pos hi]
  have h0 : setWord m a w a = w.extractLsb' 0 8 := by
    rw [setWord, BitVec.sub_self]
    rfl
  rw [word, h0, h 1 (by decide), h 2 (by decide), h 3 (by decide)]
  exact bytes_append w

/-- A store elsewhere does not matter. -/
theorem word_setWord_of_apart (h : Apart a b) : word (setWord m a w) b = word m b := by
  obtain ⟨h1, h2⟩ := h
  have hi : ∀ i : Word32, i.toNat < 4 → setWord m a w (b + i) = m (b + i) := by
    intro i hi
    refine setWord_of_le m ?_
    bv_omega
  rw [word, word, setWord_of_le m h1, hi 1 (by decide), hi 2 (by decide), hi 3 (by decide)]

end Memory

/-! ## The processor -/

/-- The state of a user program. -/
structure State where
  reg : Reg → Word32
  eflags : Word32
  eip : Word32
  mem : Word32 → BitVec 8
  readable : Word32 → Bool
  writable : Word32 → Bool

namespace State

/-- The bytes of a word have a property. -/
def Bytes (f : Word32 → Bool) (a : Word32) : Prop := f a ∧ f (a + 1) ∧ f (a + 2) ∧ f (a + 3)

instance (f : Word32 → Bool) (a : Word32) : Decidable (Bytes f a) :=
  inferInstanceAs (Decidable (_ ∧ _))

def setReg (s : State) (r : Reg) (w : Word32) : State := { s with reg := Function.update s.reg r w }

def load (s : State) (a : Word32) : Option Word32 :=
  if Bytes s.readable a then some (word s.mem a) else none

def store (s : State) (a w : Word32) : Option State :=
  if Bytes s.writable a then some { s with mem := setWord s.mem a w } else none

def push (s : State) (w : Word32) : Option State := do
  let s ← s.store (s.reg .esp - 4) w
  return s.setReg .esp (s.reg .esp - 4)

def pop (s : State) : Option (Word32 × State) := do
  let w ← s.load (s.reg .esp)
  return (w, s.setReg .esp (s.reg .esp + 4))

/-- `popl`: the stack pointer moves first, so `popl %esp` ends with the word that was popped. -/
def popReg (s : State) (r : Reg) : Option State := do
  let (w, s) ← s.pop
  return s.setReg r w

end State

/-- The flags after an addition: carry, parity, adjust, zero, sign and overflow. -/
def addFlags (old a b : Word32) : Word32 :=
  let r := a + b
  let flag (i : ℕ) (c : Bool) : Word32 := if c then 1 <<< i else 0
  let parity := (List.range 8).foldl (fun c i ↦ xor c (r.getLsbD i)) true
  (old &&& ~~~(0x8D5 : Word32)) ||| flag 0 (2 ^ 32 ≤ a.toNat + b.toNat) ||| flag 2 parity |||
    flag 4 (16 ≤ a.toNat % 16 + b.toNat % 16) ||| flag 6 (r = 0) ||| flag 7 r.msb |||
    flag 11 (a.msb = b.msb ∧ r.msb ≠ a.msb)

/-- Instructions, with the operands in the order of the assembler. -/
inductive Instr where
  | pushl (src : Reg)
  | popl (dst : Reg)
  | movl (src dst : Reg)
  | loadl (disp : Word32) (base dst : Reg)
  | loadAbs (addr : Word32) (dst : Reg)
  | storel (src : Reg) (disp : Word32) (base : Reg)
  | addl (imm : Word32) (dst : Reg)
  | popal
  | popfl
  | call (target : Reg) (next : Word32)
  | ret

/-- One instruction.  `popal` skips the word where the stack pointer would be, and `popfl` restores
all flags. -/
def Instr.exec (s : State) : Instr → Option State
  | .pushl src => s.push (s.reg src)
  | .popl dst => s.popReg dst
  | .movl src dst => some (s.setReg dst (s.reg src))
  | .loadl disp base dst => (s.load (s.reg base + disp)).map (s.setReg dst)
  | .loadAbs addr dst => (s.load addr).map (s.setReg dst)
  | .storel src disp base => s.store (s.reg base + disp) (s.reg src)
  | .addl imm dst => some
      { s.setReg dst (s.reg dst + imm) with eflags := addFlags s.eflags (s.reg dst) imm }
  | .popal => do
      let s ← s.popReg .edi
      let s ← s.popReg .esi
      let s ← s.popReg .ebp
      let s := s.setReg .esp (s.reg .esp + 4)
      let s ← s.popReg .ebx
      let s ← s.popReg .edx
      let s ← s.popReg .ecx
      s.popReg .eax
  | .popfl => do
      let (w, s) ← s.pop
      return { s with eflags := w }
  | .call target next => do
      let s' ← s.push next
      return { s' with eip := s.reg target }
  | .ret => do
      let (w, s) ← s.pop
      return { s with eip := w }

/-- Instructions one after the other. -/
def run (is : List Instr) (s : State) : Option State := is.foldlM Instr.exec s

/-! ## Rules

`WP is s Q`: the instructions run to their end from `s`, and the state they leave has property `Q`.
There is one rule for each instruction. -/

/-- The weakest precondition of a list of instructions. -/
def WP (is : List Instr) (s : State) (Q : State → Prop) : Prop := ∃ s', run is s = some s' ∧ Q s'

section Rules

variable {s s' : State} {is : List Instr} {Q : State → Prop} {r src dst base : Reg}
  {a w imm disp next : Word32}

theorem wp_nil (h : Q s) : WP [] s Q := ⟨s, rfl, h⟩

theorem WP.mono {Q' : State → Prop} (h : WP is s Q) (hQ : ∀ s, Q s → Q' s) : WP is s Q' := by
  obtain ⟨s', hrun, h⟩ := h
  exact ⟨s', hrun, hQ s' h⟩

theorem wp_step {i : Instr} (h : i.exec s = some s') (k : WP is s' Q) : WP (i :: is) s Q := by
  obtain ⟨s₁, hrun, hQ⟩ := k
  refine ⟨s₁, ?_, hQ⟩
  rw [run, List.foldlM_cons, h]
  exact hrun

theorem State.load_eq (h : State.Bytes s.readable a) : s.load a = some (word s.mem a) := if_pos h

theorem State.store_eq (h : State.Bytes s.writable a) :
    s.store a w = some { s with mem := setWord s.mem a w } := if_pos h

theorem State.push_eq (h : State.Bytes s.writable (s.reg .esp - 4)) : s.push w =
    some ({ s with mem := setWord s.mem (s.reg .esp - 4) w }.setReg .esp (s.reg .esp - 4)) := by
  rw [State.push, State.store_eq h]
  rfl

theorem State.pop_eq (h : State.Bytes s.readable (s.reg .esp)) :
    s.pop = some (word s.mem (s.reg .esp), s.setReg .esp (s.reg .esp + 4)) := by
  simp [State.pop, State.load_eq h]

/-- The registers that `popal` leaves. -/
def popalRegs (m : Word32 → BitVec 8) (esp : Word32) : Reg → Word32
  | .edi => word m esp
  | .esi => word m (esp + 4)
  | .ebp => word m (esp + 8)
  | .ebx => word m (esp + 16)
  | .edx => word m (esp + 20)
  | .ecx => word m (esp + 24)
  | .eax => word m (esp + 28)
  | .esp => esp + 32

theorem wp_popal (h : ∀ i : Word32, i.toNat ≤ 28 → State.Bytes s.readable (s.reg .esp + i))
    (k : WP is { s with reg := popalRegs s.mem (s.reg .esp) } Q) : WP (.popal :: is) s Q := by
  refine wp_step ?_ k
  have h0 : State.Bytes s.readable (s.reg .esp) := by simpa using h 0 (by decide)
  have h4 : State.Bytes s.readable (s.reg .esp + 4#32) := h 4 (by decide)
  have h8 : State.Bytes s.readable (s.reg .esp + 8#32) := h 8 (by decide)
  have h16 : State.Bytes s.readable (s.reg .esp + 16#32) := h 16 (by decide)
  have h20 : State.Bytes s.readable (s.reg .esp + 20#32) := h 20 (by decide)
  have h24 : State.Bytes s.readable (s.reg .esp + 24#32) := h 24 (by decide)
  have h28 : State.Bytes s.readable (s.reg .esp + 28#32) := h 28 (by decide)
  simp [Instr.exec, State.popReg, State.pop, State.load, State.setReg, BitVec.add_assoc, h0, h4, h8,
    h16, h20, h24, h28]
  funext r
  cases r <;> simp [popalRegs]

end Rules

end Jos.Lib.X86
