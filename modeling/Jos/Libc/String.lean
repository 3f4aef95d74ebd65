import Jos.Inc.Mmu
import Jos.Lib.CString
import Mathlib.Data.BitVec

/-!
# Strings (`lib/string.c`)

A function that is given a string reads it byte by byte.  The memory is partial: it has the bytes
that the function may read, and a read of any other byte ends the run.  A loop is given the number
of rounds that it may make.
-/

namespace Jos

open Jos.Lib

/-- Why a run ends early: the kernel panics, a byte is read that must not be, or there are more
rounds than allowed. -/
inductive Stop where
  | panic
  | stray
  | timeout
deriving DecidableEq

abbrev Text := ℕ → Option (BitVec 8)

/-- The code of a character constant. -/
def chr (c : Char) : BitVec 8 := BitVec.ofNat 8 c.toNat

/-- The bytes of a string constant. -/
def bytes (s : String) : List (BitVec 8) := s.toList.map chr

/-- `*s` -/
def Text.load (m : Text) (s : ℕ) : Except Stop (BitVec 8) :=
  match m s with
  | none => .error .stray
  | some c => .ok c

/-- `*s = c` -/
def Text.store (m : Text) (s : ℕ) (c : BitVec 8) : Except Stop Text :=
  match m s with
  | none => .error .stray
  | some _ => .ok (Function.update m s (some c))

/-- `strchr`, in a string constant. -/
def strchr : List (BitVec 8) → BitVec 8 → Option ℕ
  | [], _ => none
  | x :: s, c => if x = c then some 0 else (strchr s c).map (· + 1)

/-- `strcmp(p, q)`, where `q` is a string constant. -/
def strcmp (m : Text) : ℕ → List (BitVec 8) → Except Stop ℤ
  | p, [] => do return (← m.load p).toNat
  | p, q :: qs => do
      let c ← m.load p
      if c ≠ 0 ∧ c = q then strcmp m (p + 1) qs else return (c.toNat : ℤ) - q.toNat

/-- The value of a digit in `strtol`. -/
def strtolDig (c : BitVec 8) : Option ℕ :=
  if chr '0' ≤ c ∧ c ≤ chr '9' then some (c.toNat - '0'.toNat)
  else if chr 'a' ≤ c ∧ c ≤ chr 'z' then some (c.toNat - 'a'.toNat + 10)
  else if chr 'A' ≤ c ∧ c ≤ chr 'Z' then some (c.toNat - 'A'.toNat + 10)
  else none

/-- `while (*s == ' ' || *s == '\t') s++;` -/
def strtolBlanks (m : Text) : ℕ → ℕ → Except Stop ℕ
  | 0, _ => .error .timeout
  | fuel + 1, s => do
      let c ← m.load s
      if c = chr ' ' ∨ c = chr '\t' then strtolBlanks m fuel (s + 1) else return s

/-- The loop of `strtol` over the digits.  A `long` has 32 bits. -/
def strtolDigits (m : Text) (base : ℕ) : ℕ → ℕ → Word → Except Stop (Word × ℕ)
  | 0, _, _ => .error .timeout
  | fuel + 1, s, val => do
      match strtolDig (← m.load s) with
      | none => return (val, s)
      | some dig =>
          if base ≤ dig then return (val, s)
          else strtolDigits m base fuel (s + 1) (val * BitVec.ofNat 32 base + BitVec.ofNat 32 dig)

/-- The prefix of `strtol` that tells the base. -/
def strtolBase (m : Text) (s base : ℕ) : Except Stop (ℕ × ℕ) := do
  if base = 0 ∨ base = 16 then
    if (← m.load s) = chr '0' then
      if (← m.load (s + 1)) = chr 'x' then return (s + 2, 16)
      else if base = 0 then return (s + 1, 8)
      else return (s, base)
    else if base = 0 then return (s, 10)
    else return (s, base)
  else return (s, base)

/-- `strtol(s, endptr, base)`: the value and `*endptr`. -/
def strtol (m : Text) (fuel s base : ℕ) : Except Stop (Word × ℕ) := do
  let s ← strtolBlanks m fuel s
  let c ← m.load s
  let neg := c = chr '-'
  let s := if c = chr '+' ∨ neg then s + 1 else s
  let (s, base) ← strtolBase m s base
  let (val, s) ← strtolDigits m base fuel s 0
  return (if neg then -val else val, s)

/-! ## On a string -/

section

variable {α β : Type} {m : Text} {p fuel base : ℕ} {c : BitVec 8} {cs : List (BitVec 8)}

theorem ok_bind (a : α) (f : α → Except Stop β) : (.ok a >>= f) = f a := rfl

theorem error_bind (e : Stop) (f : α → Except Stop β) : (.error e >>= f) = .error e := rfl

theorem Text.load_eq (h : m p = some c) : m.load p = .ok c := by rw [load, h]

/-- The string starts with its first byte, or with the NUL. -/
theorem Text.load_head (h : CStr m p cs) : m.load p = .ok (cs.headD 0) := load_eq h.head

/-- `strcmp` is 0 at the same string only. -/
theorem strcmp_spec (h : CStr m p cs) {q : List (BitVec 8)} (hq : ∀ x ∈ q, x ≠ 0) :
    ∃ r, strcmp m p q = .ok r ∧ (r = 0 ↔ cs = q) := by
  induction q generalizing p cs with
  | nil =>
      refine ⟨(cs.headD 0).toNat, by rw [strcmp, Text.load_head h]; rfl, ?_⟩
      cases h with
      | nil _ => exact iff_of_true rfl rfl
      | cons _ hne _ =>
          refine iff_of_false (fun hc ↦ hne ?_) (List.cons_ne_nil _ _)
          exact BitVec.eq_of_toNat_eq (Int.ofNat.inj hc)
  | cons x q ih =>
      obtain ⟨hx, hqs⟩ := List.forall_mem_cons.mp hq
      rw [strcmp, Text.load_head h, ok_bind]
      cases h with
      | nil _ =>
          refine ⟨_, if_neg fun hc ↦ hc.1 rfl, iff_of_false (fun hc ↦ hx ?_)
            (List.cons_ne_nil _ _).symm⟩
          exact BitVec.eq_of_toNat_eq (Int.ofNat.inj (Int.sub_eq_zero.mp hc)).symm
      | @cons _ c cs _ hne hrest =>
          by_cases hc : c = x
          · subst hc
            obtain ⟨r, hr, hiff⟩ := ih hrest hqs
            refine ⟨r, by rw [List.headD_cons, if_pos ⟨hne, rfl⟩, hr], hiff.trans ?_⟩
            rw [List.cons.injEq, and_iff_right rfl]
          · refine ⟨_, if_neg fun h ↦ hc h.2, iff_of_false (fun h ↦ hc ?_) fun h ↦ hc ?_⟩
            · exact BitVec.eq_of_toNat_eq (Int.ofNat.inj (Int.sub_eq_zero.mp h))
            · exact (List.cons.inj h).1

/-- The digits that `strtol` reads. -/
def strtolNumeral (base : ℕ) : List (BitVec 8) → List ℕ
  | [] => []
  | c :: cs =>
      match strtolDig c with
      | none => []
      | some dig => if base ≤ dig then [] else dig :: strtolNumeral base cs

/-- The number that they stand for. -/
def strtolNumber (base : ℕ) (val : Word) (ds : List ℕ) : Word :=
  ds.foldl (fun val dig ↦ val * BitVec.ofNat 32 base + BitVec.ofNat 32 dig) val

/-- The string without a prefix that tells the base, and the base. -/
def strtolPrefix (cs : List (BitVec 8)) (base : ℕ) : List (BitVec 8) × ℕ :=
  if (base = 0 ∨ base = 16) ∧ cs.headD 0 = chr '0' ∧ cs.tail.headD 0 = chr 'x' then
    (cs.tail.tail, 16)
  else if base = 0 ∧ cs.headD 0 = chr '0' then (cs.tail, 8)
  else if base = 0 then (cs, 10)
  else (cs, base)

/-- What `strtol` makes of a string without blanks and a sign. -/
def strtolUnsigned (cs : List (BitVec 8)) (base : ℕ) : Word × List (BitVec 8) :=
  let (cs, base) := strtolPrefix cs base
  let ds := strtolNumeral base cs
  (strtolNumber base 0 ds, cs.drop ds.length)

/-- What `strtol` makes of a string: the value, and the string at `*endptr`. -/
def strtolString (cs : List (BitVec 8)) (base : ℕ) : Word × List (BitVec 8) :=
  let cs := cs.dropWhile fun c ↦ c = chr ' ' ∨ c = chr '\t'
  if cs.headD 0 = chr '-' then
    (-(strtolUnsigned cs.tail base).1, (strtolUnsigned cs.tail base).2)
  else if cs.headD 0 = chr '+' then strtolUnsigned cs.tail base
  else strtolUnsigned cs base

variable {e : ℕ}

theorem strtolBlanks_spec (h : StrTo m e p cs) (hfuel : cs.length < fuel) :
    ∃ q, strtolBlanks m fuel p = .ok q ∧
      StrTo m e q (cs.dropWhile fun c ↦ c = chr ' ' ∨ c = chr '\t') := by
  induction fuel generalizing p cs with
  | zero => exact absurd hfuel (Nat.not_lt_zero _)
  | succ fuel ih =>
      rw [strtolBlanks, Text.load_head h.str, ok_bind]
      cases cs with
      | nil => exact ⟨p, if_neg (by decide), h⟩
      | cons c cs =>
          rw [List.headD_cons, List.dropWhile_cons]
          by_cases hc : c = chr ' ' ∨ c = chr '\t'
          · rw [if_pos hc, if_pos (decide_eq_true hc)]
            exact ih (StrTo.cons_iff.mp h).2.2 (Nat.lt_of_succ_lt_succ hfuel)
          · rw [if_neg hc, if_neg (by simpa using hc)]
            exact ⟨p, rfl, h⟩

theorem length_strtolPrefix_le (cs : List (BitVec 8)) (base : ℕ) :
    (strtolPrefix cs base).1.length ≤ cs.length := by
  have ht : cs.tail.length ≤ cs.length := cs.tail_sublist.length_le
  rw [strtolPrefix]
  split
  · exact cs.tail.tail_sublist.length_le.trans ht
  · split
    · exact ht
    · split <;> exact le_rfl

theorem strtolBase_spec (base : ℕ) (h : StrTo m e p cs) : ∃ q,
    strtolBase m p base = .ok (q, (strtolPrefix cs base).2) ∧
      StrTo m e q (strtolPrefix cs base).1 := by
  rw [strtolBase, strtolPrefix]
  by_cases hb : base = 0 ∨ base = 16
  · simp only [hb, if_true, true_and, Text.load_head h.str, ok_bind]
    by_cases hc : cs.headD 0 = chr '0'
    · have ht := h.tail (by decide) hc
      simp only [hc, if_true, true_and, Text.load_head ht.str, ok_bind]
      by_cases hc' : cs.tail.headD 0 = chr 'x'
      · simp only [hc', if_true]
        exact ⟨p + 2, rfl, ht.tail (by decide) hc'⟩
      · by_cases hb0 : base = 0
        · simp only [hc', hb0, if_true, if_false, and_true]
          exact ⟨p + 1, rfl, ht⟩
        · simp only [hc', hb0, if_false, and_true]
          exact ⟨p, rfl, h⟩
    · by_cases hb0 : base = 0
      · simp only [hc, hb0, if_true, if_false, false_and, and_false]
        exact ⟨p, rfl, h⟩
      · simp only [hc, hb0, if_false, false_and]
        exact ⟨p, rfl, h⟩
  · obtain ⟨hb0, hb16⟩ := not_or.mp hb
    simp only [hb0, hb16, or_self, if_false, false_and]
    exact ⟨p, rfl, h⟩

theorem strtolDigits_spec (base : ℕ) (val : Word) (h : StrTo m e p cs) (hfuel : cs.length < fuel) :
    ∃ q, strtolDigits m base fuel p val =
        .ok (strtolNumber base val (strtolNumeral base cs), q) ∧
      StrTo m e q (cs.drop (strtolNumeral base cs).length) := by
  induction fuel generalizing p cs val with
  | zero => exact absurd hfuel (Nat.not_lt_zero _)
  | succ fuel ih =>
      rw [strtolDigits, Text.load_head h.str, ok_bind]
      cases cs with
      | nil => exact ⟨p, rfl, h⟩
      | cons c cs =>
          rw [List.headD_cons, strtolNumeral]
          cases strtolDig c with
          | none => exact ⟨p, rfl, h⟩
          | some dig =>
              by_cases hdig : base ≤ dig
              · simp only [if_pos hdig]
                exact ⟨p, rfl, h⟩
              · simp only [if_neg hdig]
                exact ih _ (StrTo.cons_iff.mp h).2.2 (Nat.lt_of_succ_lt_succ hfuel)

theorem strtolUnsigned_spec (base : ℕ) (h : StrTo m e p cs) (hfuel : cs.length < fuel) :
    ∃ p' base' q, strtolBase m p base = .ok (p', base') ∧
      strtolDigits m base' fuel p' 0 = .ok ((strtolUnsigned cs base).1, q) ∧
        StrTo m e q (strtolUnsigned cs base).2 := by
  obtain ⟨p', hbase, h'⟩ := strtolBase_spec base h
  obtain ⟨q, hdigits, hq⟩ := strtolDigits_spec (strtolPrefix cs base).2 0 h'
    ((length_strtolPrefix_le cs base).trans_lt hfuel)
  exact ⟨p', _, q, hbase, hdigits, hq⟩

/-- On a string `strtol` reads no further than the NUL. -/
theorem strtol_spec (base : ℕ) (h : StrTo m e p cs) (hfuel : cs.length < fuel) :
    ∃ q, strtol m fuel p base = .ok ((strtolString cs base).1, q) ∧
      StrTo m e q (strtolString cs base).2 := by
  obtain ⟨q, hblanks, hq⟩ := strtolBlanks_spec h hfuel
  have hlen := (cs.dropWhile_suffix fun c ↦ decide (c = chr ' ' ∨ c = chr '\t')).length_le
  rw [strtol, strtolString, hblanks, ok_bind, Text.load_head hq.str, ok_bind]
  generalize cs.dropWhile (fun c ↦ decide (c = chr ' ' ∨ c = chr '\t')) = cs' at *
  have hfuel' : cs'.length < fuel := hlen.trans_lt hfuel
  have htail : cs'.tail.length < fuel := cs'.tail_sublist.length_le.trans_lt hfuel'
  by_cases hminus : cs'.headD 0 = chr '-'
  · obtain ⟨p', base', q', hbase, hdigits, hq'⟩ :=
      strtolUnsigned_spec base (hq.tail (by decide) hminus) htail
    simp only [hminus, or_true, if_true, hbase, hdigits, ok_bind]
    exact ⟨q', rfl, hq'⟩
  · by_cases hplus : cs'.headD 0 = chr '+'
    · obtain ⟨p', base', q', hbase, hdigits, hq'⟩ :=
        strtolUnsigned_spec base (hq.tail (by decide) hplus) htail
      simp only [hplus, true_or, if_true, hbase, hdigits, ok_bind]
      exact ⟨q', rfl, hq'⟩
    · obtain ⟨p', base', q', hbase, hdigits, hq'⟩ :=
        strtolUnsigned_spec base hq hfuel'
      simp only [hplus, hminus, or_self, if_false, hbase, hdigits, ok_bind]
      exact ⟨q', rfl, hq'⟩

end

end Jos
