import Jos.Inc.Mmu
import Jos.Lib.Movs

/-!
# `memmove` (`lib/string.c`)

There are two versions.  The one in use has the processor copy, downwards if the destination begins
within the source, and in words if the pointers and the size allow it; the other one is a loop over
the bytes.  Memory is flat, as the processor addresses it.
-/

namespace Jos

open Jos.Lib.X86

/-- `(int)s%4 == 0 && (int)d%4 == 0 && n%4 == 0` -/
def wordwise (s d n : Word) : Prop := s.srem 4 = 0 ∧ d.srem 4 = 0 ∧ n % 4 = 0

instance (s d n : Word) : Decidable (wordwise s d n) := inferInstanceAs (Decidable (_ ∧ _ ∧ _))

/-- `memmove`, with the state of the processor after it. -/
def memmove (m : Word → BitVec 8) (dst src n : Word) : Word × Movs :=
  let s := src
  let d := dst
  if s < d ∧ d < s + n then
    let s := s + n
    let d := d + n
    let c :=
      if wordwise s d n then Movs.rep Movs.movsl (n / 4) ⟨s - 4, d - 4, true, m⟩
      else Movs.rep Movs.movsb n ⟨s - 1, d - 1, true, m⟩
    -- `cld`
    (dst, { c with df := false })
  else
    let c :=
      if wordwise s d n then Movs.rep Movs.movsl (n / 4) ⟨s, d, false, m⟩
      else Movs.rep Movs.movsb n ⟨s, d, false, m⟩
    (dst, c)

namespace Fallback

/-- `while (n-- > 0) *--d = *--s;` -/
def copyDown : ℕ → Word → Word → (Word → BitVec 8) → Word → BitVec 8
  | 0, _, _, m => m
  | n + 1, d, s, m =>
      let d := d - 1
      let s := s - 1
      copyDown n d s (Function.update m d (m s))

/-- `while (n-- > 0) *d++ = *s++;` -/
def copyUp : ℕ → Word → Word → (Word → BitVec 8) → Word → BitVec 8
  | 0, _, _, m => m
  | n + 1, d, s, m => copyUp n (d + 1) (s + 1) (Function.update m d (m s))

/-- `memmove`, without the string instructions -/
def memmove (m : Word → BitVec 8) (dst src n : Word) : Word × (Word → BitVec 8) :=
  if src < dst ∧ dst < src + n then (dst, copyDown n.toNat (dst + n) (src + n) m)
  else (dst, copyUp n.toNat dst src m)

end Fallback

variable {m : Word → BitVec 8} {dst src n : Word}

/-! ## The loops of the bytes -/

theorem Fallback.copyUp_eq (k : ℕ) (d s : Word) (m : Word → BitVec 8) :
    copyUp k d s m = ((Movs.movs 1)^[k] ⟨s, d, false, m⟩).mem := by
  induction k generalizing d s m with
  | zero => rfl
  | succ k ih =>
      rw [copyUp, ih, Function.iterate_succ_apply, ← Movs.movsb_eq]
      rfl

theorem Fallback.copyDown_eq (k : ℕ) (d s : Word) (m : Word → BitVec 8) :
    copyDown k d s m = ((Movs.movs 1)^[k] ⟨s - 1, d - 1, true, m⟩).mem := by
  induction k generalizing d s m with
  | zero => rfl
  | succ k ih =>
      rw [copyDown, ih, Function.iterate_succ_apply, ← Movs.movsb_eq]
      rfl

/-! ## The four paths -/

/-- Upwards, no unit is stored over bytes that are still to be read. -/
theorem up_safe (hs : src.toNat + n.toNat ≤ 2 ^ 32) (hd : dst.toNat + n.toNat ≤ 2 ^ 32)
    (h : ¬ (src < dst ∧ dst < src + n)) : (src - dst).toNat + n.toNat ≤ 2 ^ 32 := by
  rw [BitVec.lt_def, BitVec.lt_def, BitVec.toNat_add] at h
  rw [BitVec.toNat_sub]
  omega

/-- Nor downwards. -/
theorem down_safe (hd : dst.toNat + n.toNat ≤ 2 ^ 32) (h : src < dst) :
    (dst - src).toNat + n.toNat ≤ 2 ^ 32 := by
  rw [BitVec.lt_def] at h
  rw [BitVec.toNat_sub]
  omega

theorem words_of_wordwise {s d : Word} (h : wordwise s d n) : 4 * (n / 4).toNat = n.toNat := by
  have hn := congrArg BitVec.toNat h.2.2
  rw [BitVec.toNat_umod] at hn
  rw [BitVec.toNat_udiv]
  exact Nat.mul_div_cancel' (Nat.dvd_of_mod_eq_zero hn)

/-- Whatever the unit, `movs` copies upwards. -/
theorem rep_up (h : (src - dst).toNat + n.toNat ≤ 2 ^ 32) (s d : Word) :
    (if wordwise s d n then Movs.rep Movs.movsl (n / 4) ⟨src, dst, false, m⟩
      else Movs.rep Movs.movsb n ⟨src, dst, false, m⟩).mem = copied m dst src n.toNat ∧
    (if wordwise s d n then Movs.rep Movs.movsl (n / 4) ⟨src, dst, false, m⟩
      else Movs.rep Movs.movsb n ⟨src, dst, false, m⟩).df = false := by
  split
  · next hw =>
      have hn := words_of_wordwise hw
      rw [Movs.rep, show Movs.movsl = Movs.movs 4 from funext Movs.movsl_eq,
        Movs.run_up (by rwa [hn]), hn]
      exact ⟨rfl, Movs.df_iterate _ _ _⟩
  · rw [Movs.rep, show Movs.movsb = Movs.movs 1 from funext Movs.movsb_eq,
      Movs.run_up (by rwa [Nat.one_mul]), Nat.one_mul]
    exact ⟨rfl, Movs.df_iterate _ _ _⟩

/-- And downwards. -/
theorem rep_down (h : (dst - src).toNat + n.toNat ≤ 2 ^ 32) (s d : Word) :
    (if wordwise s d n then Movs.rep Movs.movsl (n / 4) ⟨src + n - 4, dst + n - 4, true, m⟩
      else Movs.rep Movs.movsb n ⟨src + n - 1, dst + n - 1, true, m⟩).mem =
      copied m dst src n.toNat := by
  have hof : BitVec.ofNat 32 n.toNat = n := by rw [BitVec.ofNat_toNat, BitVec.setWidth_eq]
  split
  · next hw =>
      have hn := words_of_wordwise hw
      have hrun := Movs.run_down (m := m) (w := 4) (n := (n / 4).toNat) (by rwa [hn])
      rw [hn, hof] at hrun
      rw [Movs.rep, show Movs.movsl = Movs.movs 4 from funext Movs.movsl_eq]
      exact hrun
  · have hrun := Movs.run_down (m := m) (w := 1) (n := n.toNat) (by rwa [Nat.one_mul])
    rw [Nat.one_mul, hof] at hrun
    rw [Movs.rep, show Movs.movsb = Movs.movs 1 from funext Movs.movsb_eq]
    exact hrun

/-- Both versions copy as if the whole source were read first. -/
theorem memmove_eq (m : Word → BitVec 8) (hs : src.toNat + n.toNat ≤ 2 ^ 32)
    (hd : dst.toNat + n.toNat ≤ 2 ^ 32) :
    (memmove m dst src n).1 = dst ∧ (memmove m dst src n).2.mem = copied m dst src n.toNat ∧
      (memmove m dst src n).2.df = false ∧
      Fallback.memmove m dst src n = (dst, copied m dst src n.toNat) := by
  have hof : BitVec.ofNat 32 n.toNat = n := by rw [BitVec.ofNat_toNat, BitVec.setWidth_eq]
  rw [memmove, Fallback.memmove]
  by_cases h : src < dst ∧ dst < src + n
  · have hsafe := down_safe hd h.1
    have hrun := Movs.run_down (m := m) (w := 1) (n := n.toNat) (by rwa [Nat.one_mul])
    rw [Nat.one_mul, hof] at hrun
    rw [if_pos h, if_pos h, Fallback.copyDown_eq]
    exact ⟨rfl, rep_down hsafe _ _, rfl, congrArg (dst, ·) hrun⟩
  · have hsafe := up_safe hs hd h
    have hrun := Movs.run_up (m := m) (w := 1) (n := n.toNat) (by rwa [Nat.one_mul])
    rw [Nat.one_mul] at hrun
    obtain ⟨hmem, hdf⟩ := rep_up (m := m) hsafe src dst
    rw [if_neg h, if_neg h, Fallback.copyUp_eq]
    exact ⟨rfl, hmem, hdf, congrArg (dst, ·) hrun⟩

theorem copied_inside {i : Word} (hi : i < n) :
    copied m dst src n.toNat (dst + i) = m (src + i) := by
  have hoff : dst + i - dst = i := by ring
  rw [copied, hoff]
  exact if_pos hi

theorem copied_outside {a : Word} (ha : ∀ i < n, a ≠ dst + i) :
    copied m dst src n.toNat a = m a := by
  refine if_neg fun hc ↦ ha (a - dst) hc ?_
  ring

/-- `memmove` moves the bytes, however the ranges overlap, and does what the version without string
instructions does. -/
theorem memmove_moves (m : Word → BitVec 8) (hs : src.toNat + n.toNat ≤ 2 ^ 32)
    (hd : dst.toNat + n.toNat ≤ 2 ^ 32) :
    (∀ i < n, (memmove m dst src n).2.mem (dst + i) = m (src + i)) ∧
      (∀ a, (∀ i < n, a ≠ dst + i) → (memmove m dst src n).2.mem a = m a) ∧
      (memmove m dst src n).2.df = false ∧
      ((memmove m dst src n).1, (memmove m dst src n).2.mem) = Fallback.memmove m dst src n := by
  obtain ⟨hret, hmem, hdf, hfallback⟩ := memmove_eq m hs hd
  rw [hmem, hret, hfallback]
  exact ⟨fun i hi ↦ copied_inside hi, fun a ha ↦ copied_outside ha, hdf, rfl⟩

/-- Every byte is the last digit of its address. -/
def digits (a : Word) : BitVec 8 := a.setWidth 8

theorem memmove_moves_demo :
    (∀ i < (10 : Word), (memmove digits 0x1003 0x1000 10).2.mem (0x1003 + i) =
        digits (0x1000 + i)) ∧
      (∀ a, (∀ i < (10 : Word), a ≠ 0x1003 + i) →
        (memmove digits 0x1003 0x1000 10).2.mem a = digits a) ∧
      (memmove digits 0x1003 0x1000 10).2.df = false ∧
      ((memmove digits 0x1003 0x1000 10).1, (memmove digits 0x1003 0x1000 10).2.mem) =
        Fallback.memmove digits 0x1003 0x1000 10 :=
  memmove_moves digits (by decide) (by decide)

end Jos
