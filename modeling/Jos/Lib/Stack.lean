import Jos.Lib.X86

/-!
# Words on a stack

Pushing a list of words is one step: `State.pushed` is the state that the pushes leave, and it is
read back with `StackAt`.
-/

namespace Jos.Lib.X86

/-- The words of the list are in memory, from address `a` on. -/
def StackAt (m : Word32 → BitVec 8) : Word32 → List Word32 → Prop
  | _, [] => True
  | a, w :: ws => word m a = w ∧ StackAt m (a + 4) ws

/-- Memory after words were pushed on the stack that ends at `a`; the first one is pushed first. -/
def stacked (m : Word32 → BitVec 8) (a : Word32) : List Word32 → Word32 → BitVec 8
  | [] => m
  | w :: ws => stacked (setWord m (a - 4) w) (a - 4) ws

/-- The bytes between `a - n` and `a` have a property. -/
def Below (f : Word32 → Bool) (a : Word32) (n : ℕ) : Prop :=
  ∀ x : Word32, (a - 1 - x).toNat < n → f x

variable {m : Word32 → BitVec 8} {a b w : Word32} {ws vs : List Word32}

/-- A store elsewhere leaves the stack alone. -/
theorem StackAt.of_apart (h : StackAt m a ws)
    (hb : ∀ i < ws.length, Apart b (a + BitVec.ofNat 32 (4 * i))) :
    StackAt (setWord m b w) a ws := by
  induction ws generalizing a with
  | nil => trivial
  | cons v ws ih =>
      obtain ⟨hv, hrest⟩ := h
      constructor
      · rw [word_setWord_of_apart m, hv]
        simpa using hb 0 (Nat.succ_pos _)
      · apply ih hrest
        intro i hi
        have := hb (i + 1) (Nat.succ_lt_succ hi)
        rwa [show a + BitVec.ofNat 32 (4 * (i + 1)) = a + 4 + BitVec.ofNat 32 (4 * i) by
          bv_omega] at this

/-- A push puts a word in front. -/
theorem StackAt.push (h : StackAt m a ws) (hn : 4 * (ws.length + 1) ≤ 2 ^ 32) :
    StackAt (setWord m (a - 4) w) (a - 4) (w :: ws) := by
  constructor
  · exact word_setWord_self m
  · rw [BitVec.sub_add_cancel]
    apply h.of_apart
    intro i hi
    constructor <;> bv_omega

/-- The words that were pushed, the last one in front. -/
theorem StackAt.stacked (h : StackAt m a vs) (hn : 4 * (ws.length + vs.length) ≤ 2 ^ 32) :
    StackAt (stacked m a ws) (a - BitVec.ofNat 32 (4 * ws.length)) (ws.reverse ++ vs) := by
  induction ws generalizing m a vs with
  | nil => simpa [X86.stacked] using h
  | cons w ws ih =>
      rw [List.length_cons] at hn
      have := ih (h.push (w := w) (by omega)) (by rw [List.length_cons]; omega)
      rw [List.reverse_cons, List.append_assoc, List.length_cons, X86.stacked]
      rwa [show a - BitVec.ofNat 32 (4 * (ws.length + 1)) =
        a - 4 - BitVec.ofNat 32 (4 * ws.length) by bv_omega]

/-- Pushes change nothing but the bytes below the stack pointer. -/
theorem stacked_of_le {x : Word32} (hx : 4 * ws.length ≤ (a - 1 - x).toNat)
    (hn : 4 * ws.length ≤ 2 ^ 32) : stacked m a ws x = m x := by
  induction ws generalizing m a with
  | nil => rfl
  | cons w ws ih =>
      rw [List.length_cons] at hx hn
      rw [stacked, ih (by bv_omega) (by omega), setWord_of_le]
      bv_omega

theorem stacked_append : stacked m a (ws ++ vs) =
    stacked (stacked m a ws) (a - BitVec.ofNat 32 (4 * ws.length)) vs := by
  induction ws generalizing m a with
  | nil => simp [stacked]
  | cons w ws ih =>
      rw [List.cons_append, stacked, ih, stacked, List.length_cons]
      congr 1
      bv_omega

namespace State

variable {s : State}

/-- The state after the words were pushed. -/
def pushed (s : State) (ws : List Word32) : State :=
  { s with
    mem := stacked s.mem (s.reg .esp) ws
    reg := Function.update s.reg .esp (s.reg .esp - BitVec.ofNat 32 (4 * ws.length)) }

@[simp] theorem pushed_nil : s.pushed [] = s := by
  simp [pushed, stacked]

@[simp] theorem eflags_pushed : (s.pushed ws).eflags = s.eflags := rfl
@[simp] theorem eip_pushed : (s.pushed ws).eip = s.eip := rfl
@[simp] theorem readable_pushed : (s.pushed ws).readable = s.readable := rfl
@[simp] theorem writable_pushed : (s.pushed ws).writable = s.writable := rfl

@[simp] theorem esp_pushed :
    (s.pushed ws).reg .esp = s.reg .esp - BitVec.ofNat 32 (4 * ws.length) := by
  simp [pushed]

theorem reg_pushed {r : Reg} (hr : r ≠ .esp) : (s.pushed ws).reg r = s.reg r :=
  Function.update_of_ne hr ..

theorem pushed_pushed : (s.pushed ws).pushed vs = s.pushed (ws ++ vs) := by
  have hesp : s.reg .esp - BitVec.ofNat 32 (4 * ws.length) - BitVec.ofNat 32 (4 * vs.length) =
      s.reg .esp - BitVec.ofNat 32 (4 * (ws ++ vs).length) := by
    rw [List.length_append]
    bv_omega
  simp only [pushed, Function.update_self, stacked_append, hesp, Function.update_idem]

/-- One push. -/
theorem push_pushed {n : ℕ} (hroom : Below s.writable (s.reg .esp) n)
    (hn : 4 * (ws.length + 1) ≤ n) (hn' : n ≤ 2 ^ 32) :
    (s.pushed ws).push w = some (s.pushed (ws ++ [w])) := by
  have hword : Bytes s.writable ((s.pushed ws).reg .esp - 4) := by
    rw [esp_pushed]
    refine ⟨hroom _ ?_, hroom _ ?_, hroom _ ?_, hroom _ ?_⟩ <;> bv_omega
  rw [push_eq hword, ← pushed_pushed]
  rfl

end State

end Jos.Lib.X86
