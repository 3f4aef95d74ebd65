import Jos.Lib.X86
import Jos.Kern.Effect
import Jos.Kern.Content

/-!
# The return from a page fault

`_pgfault_upcall` calls the C handler with a pointer to the frame that the kernel left on the
exception stack, and then restores every register from the frame.  It has no register to spare for
the address it returns to, so it pushes the trap-time `%eip` onto the trap-time stack, stores the
moved stack pointer into the frame, and ends with `popl %esp` and `ret`.

In a fault on the exception stack the trap-time stack is the exception stack itself, and the word
pushed is the one that `page_fault_handler` leaves free between two frames.
-/

namespace Jos

open Jos.Lib.X86

variable {s : State} {u t : Word}

/-- The fields of a `struct UTrapframe` at `u`. -/
structure UTrapframe where
  edi : Word
  esi : Word
  ebp : Word
  ebx : Word
  edx : Word
  ecx : Word
  eax : Word
  eip : Word
  eflags : Word
  esp : Word

def utfAt (m : Word → BitVec 8) (u : Word) : UTrapframe where
  edi := word m (u + 8)
  esi := word m (u + 12)
  ebp := word m (u + 16)
  ebx := word m (u + 24)
  edx := word m (u + 28)
  ecx := word m (u + 32)
  eax := word m (u + 36)
  eip := word m (u + 40)
  eflags := word m (u + 44)
  esp := word m (u + 48)

/-- The word below the trap-time stack pointer `t` is not part of the frame at `u`. -/
def Clear (u t : Word) : Prop := 52 ≤ (t - 4 - u).toNat ∧ (t - 4 - u).toNat ≤ 2 ^ 32 - 4

theorem Clear.apart (h : Clear u t) {i : Word} (hi : i.toNat ≤ 48) : Apart (t - 4) (u + i) := by
  obtain ⟨h1, h2⟩ := h
  constructor <;> bv_omega

/-- The bytes of the frame have a property. -/
def FrameBytes (f : Word → Bool) (u : Word) : Prop := ∀ i : Word, i.toNat < 52 → f (u + i)

theorem FrameBytes.word {f : Word → Bool} (h : FrameBytes f u) {i : Word} (hi : i.toNat ≤ 48) :
    State.Bytes f (u + i) := by
  have key : ∀ j : Word, j.toNat < 4 → f (u + i + j) := by
    intro j hj
    rw [BitVec.add_assoc]
    exact h (i + j) (by bv_omega)
  exact ⟨h i (by omega), key 1 (by decide), key 2 (by decide), key 3 (by decide)⟩

/-- What `page_fault_handler` saves of a trap frame. -/
def Trapframe.utf (tf : Trapframe) : UTrapframe where
  edi := tf.regs.edi
  esi := tf.regs.esi
  ebp := tf.regs.ebp
  ebx := tf.regs.ebx
  edx := tf.regs.edx
  ecx := tf.regs.ecx
  eax := tf.regs.eax
  eip := tf.eip
  eflags := tf.eflags
  esp := tf.esp

theorem getByte_eq_extractLsb' (w : Word) (i : ℕ) : Mem.getByte w i = w.extractLsb' (8 * i) 8 := by
  ext j hj
  rw [Mem.getByte, BitVec.getElem_setWidth, BitVec.getLsbD_ushiftRight, BitVec.getElem_extractLsb']

theorem word_of_bytes {m : Word → BitVec 8} {a w : Word} (h0 : m a = Mem.getByte w 0)
    (h1 : m (a + 1) = Mem.getByte w 1) (h2 : m (a + 2) = Mem.getByte w 2)
    (h3 : m (a + 3) = Mem.getByte w 3) : word m a = w := by
  rw [word, h0, h1, h2, h3]
  simp only [getByte_eq_extractLsb']
  exact bytes_append w

/-- The frame holds the trap-time registers. -/
theorem utfAt_of_bytes {m : Word → BitVec 8} (cr2 : Word) {tf : Trapframe}
    (h : ∀ i (hi : i < 52), m (u + BitVec.ofNat 32 i) = (utfBytes cr2 tf).get ⟨i, hi⟩) :
    utfAt m u = tf.utf := by
  have key : ∀ (i : ℕ) (w : Word) (hi : i + 3 < 52),
      (utfBytes cr2 tf).get ⟨i, by rw [length_utfBytes]; omega⟩ = Mem.getByte w 0 →
      (utfBytes cr2 tf).get ⟨i + 1, by rw [length_utfBytes]; omega⟩ = Mem.getByte w 1 →
      (utfBytes cr2 tf).get ⟨i + 2, by rw [length_utfBytes]; omega⟩ = Mem.getByte w 2 →
      (utfBytes cr2 tf).get ⟨i + 3, by rw [length_utfBytes]; omega⟩ = Mem.getByte w 3 →
      word m (u + BitVec.ofNat 32 i) = w := by
    intro i w hi h0 h1 h2 h3
    have hadd : ∀ n, u + BitVec.ofNat 32 i + BitVec.ofNat 32 n = u + BitVec.ofNat 32 (i + n) := by
      intro n
      rw [BitVec.ofNat_add, BitVec.add_assoc]
    refine word_of_bytes ((h i (by omega)).trans h0) ?_ ?_ ?_
    · exact (congrArg m (hadd 1)).trans ((h (i + 1) (by omega)).trans h1)
    · exact (congrArg m (hadd 2)).trans ((h (i + 2) (by omega)).trans h2)
    · exact (congrArg m (hadd 3)).trans ((h (i + 3) (by omega)).trans h3)
  rw [utfAt, Trapframe.utf, UTrapframe.mk.injEq]
  exact ⟨key 8 tf.regs.edi (by decide) rfl rfl rfl rfl,
    key 12 tf.regs.esi (by decide) rfl rfl rfl rfl,
    key 16 tf.regs.ebp (by decide) rfl rfl rfl rfl, key 24 tf.regs.ebx (by decide) rfl rfl rfl rfl,
    key 28 tf.regs.edx (by decide) rfl rfl rfl rfl, key 32 tf.regs.ecx (by decide) rfl rfl rfl rfl,
    key 36 tf.regs.eax (by decide) rfl rfl rfl rfl, key 40 tf.eip (by decide) rfl rfl rfl rfl,
    key 44 tf.eflags (by decide) rfl rfl rfl rfl, key 48 tf.esp (by decide) rfl rfl rfl rfl⟩

theorem esp_of_pageFaultHandler {B : Machine} {k k' : Kern} {cur : Slot} {cr2 : Word}
    (h : pageFaultHandler B k cur cr2 = some (.run, k')) :
    (k'.envs cur).envTf.esp = faultEsp (k.envs cur).envTf.esp := by
  rcases pageFaultHandler_cases h with ⟨hc, -⟩ | ⟨-, -, d, m, -, -, -, rfl⟩
  · cases hc
  · simp [Kern.setTf, upcallTf]

/-- When the upcall starts, the program finds the trap-time registers in the frame. -/
theorem utfAt_of_pageFaultHandler {B : Machine} {M : Pool B} {k k' : Kern} {l : List ℕ}
    {el : List Slot} {cur : Slot} {cr2 : Word} {d : ℕ} (h : Inv B M k l el) (live : k.Live cur)
    (enter : pageFaultHandler B k cur cr2 = some (.run, k'))
    (dir : (k'.envs cur).envPgdir = some d)
    (view : ∀ a b, k'.mem.loadByte d a = some b → s.mem a = b) :
    utfAt s.mem (k'.envs cur).envTf.esp = (k.envs cur).envTf.utf := by
  rw [esp_of_pageFaultHandler enter]
  rcases pageFaultHandler_cases enter with ⟨hc, -⟩ | ⟨-, -, d', m, hd', -, hstore, rfl⟩
  · cases hc
  obtain rfl : d' = d := by
    have : (k.envs cur).envPgdir = some d := by simpa [Kern.setTf] using dir
    exact Option.some.inj (hd'.symm.trans this)
  have hlen := length_utfBytes cr2 (k.envs cur).envTf
  refine utfAt_of_bytes cr2 fun i hi ↦ view _ _ ?_
  exact h.loadByte_storeBytes (by rw [hlen]; decide) (live.dirs_eq.trans hd')
    (hlen.symm ▸ faultEsp_le _) hstore (i := i) (by rw [hlen]; exact hi)

/-! ## The whole return -/

end Jos
