import Jos.Lib.X86
import Mathlib.Logic.Function.Iterate
import Mathlib.Tactic.Ring

/-!
# The string instruction `movs`

`rep movs` copies from one range of memory to another, unit by unit, upwards or downwards.  As long
as no unit is stored over bytes that are still to be read, memory ends as if all bytes were read
before the first is stored (`copied`), whatever the size of a unit and however the ranges overlap.
-/

namespace Jos.Lib.X86

/-- Memory after the `n` bytes from `src` on are copied to `dst`, all at once. -/
def copied (m : Word32 → BitVec 8) (dst src : Word32) (n : ℕ) (a : Word32) : BitVec 8 :=
  if (a - dst).toNat < n then m (src + (a - dst)) else m a

/-- The registers that `movs` uses, the direction flag, and memory. -/
structure Movs where
  esi : Word32
  edi : Word32
  df : Bool
  mem : Word32 → BitVec 8

namespace Movs

/-- The pointers move on, by the size of a unit. -/
def advance (s : Movs) (w : Word32) : Movs :=
  if s.df then { s with esi := s.esi - w, edi := s.edi - w }
  else { s with esi := s.esi + w, edi := s.edi + w }

/-- `movsb` -/
def movsb (s : Movs) : Movs :=
  { s with mem := Function.update s.mem s.edi (s.mem s.esi) }.advance 1

/-- `movsl` -/
def movsl (s : Movs) : Movs :=
  { s with mem := setWord s.mem s.edi (word s.mem s.esi) }.advance 4

/-- An instruction with the prefix `rep` -/
def rep (instr : Movs → Movs) (ecx : Word32) (s : Movs) : Movs := instr^[ecx.toNat] s

/-- `movs` with a unit of `w` bytes -/
def movs (w : ℕ) (s : Movs) : Movs :=
  { s with mem := copied s.mem s.edi s.esi w }.advance (BitVec.ofNat 32 w)

end Movs

section

variable {m : Word32 → BitVec 8} {dst src d s a : Word32} {w k n : ℕ}

/-! ## Copies -/

theorem toNat_sub_ofNat (a : Word32) (hk : k ≤ 2 ^ 32) : (a - BitVec.ofNat 32 k).toNat =
    if k ≤ a.toNat then a.toNat - k else 2 ^ 32 + a.toNat - k := by
  have ha := a.isLt
  rw [BitVec.toNat_sub, BitVec.toNat_ofNat]
  split <;> omega

theorem toNat_add_ofNat (a : Word32) (h : a.toNat + k < 2 ^ 32) :
    (a + BitVec.ofNat 32 k).toNat = a.toNat + k := by
  rw [BitVec.toNat_add, BitVec.toNat_ofNat]
  omega

/-- A copy and one more, of bytes that the first one does not store. -/
theorem copied_copied (h : ∀ j < w, k ≤ (s + BitVec.ofNat 32 j - dst).toNat) :
    copied (copied m dst src k) d s w = fun a ↦
      if (a - d).toNat < w then m (s + (a - d)) else copied m dst src k a := by
  funext a
  rw [copied]
  refine if_ctx_congr Iff.rfl (fun ha ↦ ?_) fun _ ↦ rfl
  have hj := h _ ha
  rw [BitVec.ofNat_toNat, BitVec.setWidth_eq] at hj
  exact if_neg (Nat.not_lt.mpr hj)

/-- Upwards, from `k` bytes on. -/
theorem copied_up (h : (src - dst).toNat + (k + w) ≤ 2 ^ 32) :
    copied (copied m dst src k) (dst + BitVec.ofNat 32 k) (src + BitVec.ofNat 32 k) w =
      copied m dst src (k + w) := by
  have hread : ∀ j < w, k ≤ (src + BitVec.ofNat 32 k + BitVec.ofNat 32 j - dst).toNat := by
    intro j hj
    have hsum : src + BitVec.ofNat 32 k + BitVec.ofNat 32 j - dst =
        src - dst + BitVec.ofNat 32 (k + j) := by
      rw [BitVec.ofNat_add]
      ring
    rw [hsum, toNat_add_ofNat _ (by omega)]
    omega
  rw [copied_copied hread]
  funext a
  have hoff : a - (dst + BitVec.ofNat 32 k) = a - dst - BitVec.ofNat 32 k := by ring
  have hsub := toNat_sub_ofNat (a - dst) (k := k) (by omega)
  rw [copied, copied, hoff, hsub]
  by_cases hk : k ≤ (a - dst).toNat
  · rw [if_pos hk, if_neg (by omega : ¬ (a - dst).toNat < k)]
    refine if_ctx_congr (by omega) (fun _ ↦ congrArg m ?_) fun _ ↦ rfl
    ring
  · rw [if_neg hk, if_neg (by omega), if_pos (by omega), if_pos (by omega)]

/-- Downwards, to `w` bytes before. -/
theorem copied_down (h : (dst - src).toNat + (k + w) ≤ 2 ^ 32) :
    copied (copied m (dst + BitVec.ofNat 32 w) (src + BitVec.ofNat 32 w) k) dst src w =
      copied m dst src (k + w) := by
  have hread : ∀ j < w, k ≤ (src + BitVec.ofNat 32 j - (dst + BitVec.ofNat 32 w)).toNat := by
    intro j hj
    have hdiff : src + BitVec.ofNat 32 j - (dst + BitVec.ofNat 32 w) =
        src - dst - BitVec.ofNat 32 (w - j) := by
      rw [show w = w - j + j by omega, BitVec.ofNat_add, Nat.add_sub_cancel]
      ring
    have h1 := BitVec.toNat_sub src dst
    have h2 := BitVec.toNat_sub dst src
    rw [hdiff, toNat_sub_ofNat _ (by omega)]
    split <;> omega
  rw [copied_copied hread]
  funext a
  have hoff : a - (dst + BitVec.ofNat 32 w) = a - dst - BitVec.ofNat 32 w := by ring
  have hsub := toNat_sub_ofNat (a - dst) (k := w) (by omega)
  rw [copied, copied, hoff, hsub]
  by_cases hw : w ≤ (a - dst).toNat
  · rw [if_neg (by omega), if_pos hw]
    refine if_ctx_congr (by omega) (fun _ ↦ congrArg m ?_) fun _ ↦ rfl
    ring
  · rw [if_pos (by omega), if_pos (by omega)]

/-! ## Units -/

theorem copied_zero (m : Word32 → BitVec 8) (dst src : Word32) : copied m dst src 0 = m := by
  funext a
  exact if_neg (Nat.not_lt_zero _)

theorem copied_one (m : Word32 → BitVec 8) (dst src : Word32) :
    copied m dst src 1 = Function.update m dst (m src) := by
  funext a
  by_cases ha : a = dst
  · rw [ha, Function.update_self, copied, BitVec.sub_self, if_pos (by decide)]
    exact congrArg m (BitVec.add_zero src)
  · rw [Function.update_of_ne ha, copied, if_neg]
    intro hc
    have hzero : a - dst = 0 := BitVec.eq_of_toNat_eq (Nat.lt_one_iff.mp hc)
    exact ha (sub_eq_zero.mp hzero)

theorem extract_append (b3 b2 b1 b0 : BitVec 8) :
    (b3 ++ b2 ++ b1 ++ b0 : Word32).extractLsb' 0 8 = b0 ∧
      (b3 ++ b2 ++ b1 ++ b0 : Word32).extractLsb' 8 8 = b1 ∧
      (b3 ++ b2 ++ b1 ++ b0 : Word32).extractLsb' 16 8 = b2 ∧
      (b3 ++ b2 ++ b1 ++ b0 : Word32).extractLsb' 24 8 = b3 := by
  refine ⟨?_, ?_, ?_, ?_⟩
  all_goals
    ext j hj
    simp only [BitVec.getElem_extractLsb', BitVec.getLsbD_append]
  · rw [if_pos (by omega), Nat.zero_add, BitVec.getLsbD_eq_getElem hj]
  · rw [if_neg (by omega), if_pos (by omega), Nat.add_sub_cancel_left,
      BitVec.getLsbD_eq_getElem hj]
  · rw [if_neg (by omega), if_neg (by omega), if_pos (by omega),
      show 16 + j - 8 - 8 = j by omega, BitVec.getLsbD_eq_getElem hj]
  · rw [if_neg (by omega), if_neg (by omega), if_neg (by omega),
      show 24 + j - 8 - 8 - 8 = j by omega, BitVec.getLsbD_eq_getElem hj]

/-- A byte of a word in memory -/
theorem extract_word (m : Word32 → BitVec 8) (a : Word32) {i : Word32} (hi : i.toNat < 4) :
    (word m a).extractLsb' (8 * i.toNat) 8 = m (a + i) := by
  obtain ⟨h0, h1, h2, h3⟩ := extract_append (m (a + 3)) (m (a + 2)) (m (a + 1)) (m a)
  have hof : i = BitVec.ofNat 32 i.toNat := by rw [BitVec.ofNat_toNat, BitVec.setWidth_eq]
  rw [word]
  generalize i.toNat = k at hi hof
  subst hof
  rcases k with _ | _ | _ | _ | k
  · rw [h0, show BitVec.ofNat 32 0 = 0 from rfl, add_zero]
  · exact h1
  · exact h2
  · exact h3
  · omega

theorem copied_four (m : Word32 → BitVec 8) (dst src : Word32) :
    copied m dst src 4 = setWord m dst (word m src) := by
  funext a
  rw [copied, setWord]
  split
  · next h => exact (extract_word m src h).symm
  · rfl

/-! ## Runs -/

namespace Movs

theorem df_advance (s : Movs) (w : Word32) : (s.advance w).df = s.df := by
  rw [advance]
  split <;> rfl

/-- `rep` does not touch the direction flag. -/
theorem df_iterate (w k : ℕ) (s : Movs) : ((movs w)^[k] s).df = s.df := by
  induction k with
  | zero => rfl
  | succ k ih => rw [Function.iterate_succ_apply', movs, df_advance, ih]

theorem movsb_eq (s : Movs) : movsb s = movs 1 s := by
  rw [movsb, movs, copied_one]
  rfl

theorem movsl_eq (s : Movs) : movsl s = movs 4 s := by
  rw [movsl, movs, copied_four]
  rfl

/-- `k` units upwards -/
theorem iterate_up (h : (src - dst).toNat + w * n ≤ 2 ^ 32) (hk : k ≤ n) :
    (movs w)^[k] ⟨src, dst, false, m⟩ = ⟨src + BitVec.ofNat 32 (w * k),
      dst + BitVec.ofNat 32 (w * k), false, copied m dst src (w * k)⟩ := by
  induction k with
  | zero => simp [copied_zero]
  | succ k ih =>
      have hle : w * k + w ≤ w * n := by
        rw [← Nat.mul_succ]
        exact Nat.mul_le_mul_left w hk
      rw [Function.iterate_succ_apply', ih (Nat.le_of_succ_le hk), movs,
        copied_up (by omega), Nat.mul_succ]
      simp only [advance, Bool.false_eq_true, if_false, BitVec.add_assoc, BitVec.ofNat_add]

/-- `k` units downwards, from the last of `n` -/
theorem iterate_down (h : (dst - src).toNat + w * n ≤ 2 ^ 32) (hk : k ≤ n) :
    (movs w)^[k] ⟨src + BitVec.ofNat 32 (w * n) - BitVec.ofNat 32 w,
        dst + BitVec.ofNat 32 (w * n) - BitVec.ofNat 32 w, true, m⟩ =
      ⟨src + BitVec.ofNat 32 (w * (n - k)) - BitVec.ofNat 32 w,
        dst + BitVec.ofNat 32 (w * (n - k)) - BitVec.ofNat 32 w, true,
        copied m (dst + BitVec.ofNat 32 (w * (n - k))) (src + BitVec.ofNat 32 (w * (n - k)))
          (w * k)⟩ := by
  induction k with
  | zero => simp [copied_zero]
  | succ k ih =>
      have hle : w * k + w ≤ w * n := by
        rw [← Nat.mul_succ]
        exact Nat.mul_le_mul_left w hk
      have hsub : w * (n - k) = w * (n - (k + 1)) + w := by
        rw [← Nat.mul_succ]
        congr 1
        omega
      have hfront : ∀ a : Word32, a + BitVec.ofNat 32 (w * (n - k)) =
          a + BitVec.ofNat 32 (w * (n - (k + 1))) + BitVec.ofNat 32 w := fun a ↦ by
        rw [hsub, BitVec.ofNat_add]
        ring
      rw [Function.iterate_succ_apply', ih (Nat.le_of_succ_le hk), movs]
      simp only [hfront, advance, if_true, add_sub_cancel_right]
      rw [copied_down, Nat.mul_succ]
      have hdiff : dst + BitVec.ofNat 32 (w * (n - (k + 1))) -
          (src + BitVec.ofNat 32 (w * (n - (k + 1)))) = dst - src := by ring
      rw [hdiff]
      omega

/-- A run upwards copies, unless the destination begins within the source. -/
theorem run_up (h : (src - dst).toNat + w * n ≤ 2 ^ 32) :
    ((movs w)^[n] ⟨src, dst, false, m⟩).mem = copied m dst src (w * n) := by
  rw [iterate_up h le_rfl]

/-- A run downwards copies, unless the source begins within the destination. -/
theorem run_down (h : (dst - src).toNat + w * n ≤ 2 ^ 32) :
    ((movs w)^[n] ⟨src + BitVec.ofNat 32 (w * n) - BitVec.ofNat 32 w,
      dst + BitVec.ofNat 32 (w * n) - BitVec.ofNat 32 w, true, m⟩).mem =
      copied m dst src (w * n) := by
  rw [iterate_down h le_rfl, Nat.sub_self, Nat.mul_zero, show BitVec.ofNat 32 0 = 0 from rfl,
    add_zero, add_zero]

end Movs

end

end Jos.Lib.X86
