import Mathlib.Data.List.Basic
import Mathlib.Data.Nat.Notation
import Mathlib.Logic.Function.Basic

/-!
# Strings that end at a zero

A memory gives the characters that may be read; it holds a string at an address if it has its
characters there, none of them zero, and a zero after the last.
-/

namespace Jos.Lib

universe u

variable {α : Type u} [Zero α]

/-- `m` holds the string `cs` at `p`. -/
inductive CStr (m : ℕ → Option α) : ℕ → List α → Prop
  | nil {p : ℕ} (stop : m p = some 0) : CStr m p []
  | cons {p : ℕ} {c : α} {cs : List α} (char : m p = some c) (ne : c ≠ 0)
      (rest : CStr m (p + 1) cs) : CStr m p (c :: cs)

namespace CStr

variable {m m' : ℕ → Option α} {p : ℕ} {c : α} {cs xs ys : List α}

theorem nil_iff : CStr m p [] ↔ m p = some 0 := by
  constructor
  · rintro ⟨h⟩
    exact h
  · exact .nil

theorem cons_iff : CStr m p (c :: cs) ↔ m p = some c ∧ c ≠ 0 ∧ CStr m (p + 1) cs := by
  constructor
  · rintro (_ | ⟨h, hc, hrest⟩)
    exact ⟨h, hc, hrest⟩
  · rintro ⟨h, hc, hrest⟩
    exact .cons h hc hrest

/-- The first character, or the zero. -/
theorem head (h : CStr m p cs) : m p = some (cs.headD 0) := by
  cases h with
  | nil h => exact h
  | cons h _ _ => exact h

theorem ne_zero (h : CStr m p cs) : ∀ x ∈ cs, x ≠ 0 := by
  induction h with
  | nil _ => simp
  | cons _ hc _ ih => exact List.forall_mem_cons.mpr ⟨hc, ih⟩

/-- What comes after the first characters is a string too. -/
theorem drop (h : CStr m p (xs ++ ys)) : CStr m (p + xs.length) ys := by
  induction xs generalizing p with
  | nil => exact h
  | cons x xs ih =>
      have htail := ih (cons_iff.mp h).2.2
      rwa [Nat.add_assoc, Nat.add_comm 1] at htail

theorem char_eq (h : CStr m p (xs ++ c :: ys)) : m (p + xs.length) = some c :=
  (cons_iff.mp h.drop).1

theorem stop_eq (h : CStr m p cs) : m (p + cs.length) = some 0 := by
  have hnil : CStr m p (cs ++ []) := by rwa [List.append_nil]
  exact nil_iff.mp hnil.drop

/-- A string depends on its own characters only. -/
theorem congr (h : CStr m p cs) (hm : ∀ a, p ≤ a → a ≤ p + cs.length → m' a = m a) :
    CStr m' p cs := by
  induction h with
  | nil h => exact .nil ((hm _ (Nat.le_refl _) (Nat.le_refl _)).trans h)
  | @cons p c cs h hc _ ih =>
      refine .cons ((hm p (Nat.le_refl _) (Nat.le_add_right _ _)).trans h) hc (ih fun a h1 h2 ↦ ?_)
      refine hm a (by omega) ?_
      rw [List.length_cons]
      omega

/-- If a zero is put after the first characters, the string ends there. -/
theorem take (h : CStr m p (xs ++ ys)) (hm : ∀ a, p ≤ a → a < p + xs.length → m' a = m a)
    (hstop : m' (p + xs.length) = some 0) : CStr m' p xs := by
  induction xs generalizing p with
  | nil => exact .nil hstop
  | cons x xs ih =>
      obtain ⟨hx, hne, hrest⟩ := cons_iff.mp h
      rw [List.length_cons] at hm hstop
      refine .cons ((hm p (Nat.le_refl _) (by omega)).trans hx) hne (ih hrest (fun a h1 h2 ↦ ?_) ?_)
      · exact hm a (by omega) (by omega)
      · rwa [Nat.add_assoc, Nat.add_comm 1]

theorem of_getElem? (h : ∀ i c, cs[i]? = some c → m (p + i) = some c ∧ c ≠ 0)
    (hstop : m (p + cs.length) = some 0) : CStr m p cs := by
  induction cs generalizing p with
  | nil => exact .nil hstop
  | cons c cs ih =>
      obtain ⟨hc, hne⟩ := h 0 c rfl
      refine .cons hc hne (ih (fun i x hx ↦ ?_) ?_)
      · rw [Nat.add_assoc, Nat.add_comm 1]
        exact h (i + 1) x hx
      · rw [Nat.add_assoc, Nat.add_comm 1]
        exact hstop

/-- At an address there is one string at most. -/
theorem unique (h : CStr m p xs) (h' : CStr m p ys) : xs = ys := by
  induction h generalizing ys with
  | nil h =>
      cases h' with
      | nil _ => rfl
      | cons hc hne _ => exact absurd (Option.some.inj (hc.symm.trans h)) hne
  | cons hc hne _ ih =>
      cases h' with
      | nil h => exact absurd (Option.some.inj (hc.symm.trans h)) hne
      | cons hc' _ hrest =>
          rw [Option.some.inj (hc.symm.trans hc'), ih hrest]

end CStr

/-- `m` holds the string `cs` at `p`, and its zero at `e`. -/
structure StrTo (m : ℕ → Option α) (e p : ℕ) (cs : List α) : Prop where
  str : CStr m p cs
  stop : p + cs.length = e

namespace StrTo

variable {m : ℕ → Option α} {e p : ℕ} {c : α} {cs xs ys : List α}

theorem cons_iff : StrTo m e p (c :: cs) ↔ m p = some c ∧ c ≠ 0 ∧ StrTo m e (p + 1) cs := by
  constructor
  · rintro ⟨h, rfl⟩
    obtain ⟨hc, hne, hrest⟩ := CStr.cons_iff.mp h
    exact ⟨hc, hne, hrest, by rw [List.length_cons]; omega⟩
  · rintro ⟨hc, hne, h, rfl⟩
    exact ⟨.cons hc hne h, by rw [List.length_cons]; omega⟩

theorem drop (h : StrTo m e p (xs ++ ys)) : StrTo m e (p + xs.length) ys :=
  ⟨h.str.drop, by rw [← h.stop, List.length_append, Nat.add_assoc]⟩

/-- A string whose first character is not the zero has a rest. -/
theorem tail (h : StrTo m e p cs) (hc : c ≠ 0) (hhead : cs.headD 0 = c) :
    StrTo m e (p + 1) cs.tail := by
  cases cs with
  | nil => exact absurd hhead.symm hc
  | cons x cs => exact (cons_iff.mp h).2.2

end StrTo

/-- The part of `m` that has the string at `p`, up to its zero. -/
def strAt [DecidableEq α] (m : ℕ → Option α) (p a : ℕ) : Option α :=
  if p ≤ a ∧ ∀ i < a - p, m (p + i) ≠ some 0 then m a else none

section

variable [DecidableEq α] {m : ℕ → Option α} {p a : ℕ} {cs : List α}

theorem CStr.strAt_eq (h : CStr m p cs) (ha : p ≤ a) (hle : a ≤ p + cs.length) :
    strAt m p a = m a := by
  refine if_pos ⟨ha, fun i hi hc ↦ ?_⟩
  obtain ⟨xs, c, ys, rfl, hlen⟩ : ∃ xs c ys, cs = xs ++ c :: ys ∧ xs.length = i :=
    ⟨cs.take i, cs.get ⟨i, by omega⟩, cs.drop (i + 1), by simp, by simp; omega⟩
  have hchar := h.char_eq
  rw [hlen, hc] at hchar
  exact h.ne_zero c (by simp) (Option.some.inj hchar).symm

/-- It has that string. -/
theorem CStr.cstr_strAt (h : CStr m p cs) : CStr (strAt m p) p cs :=
  h.congr fun _ h1 h2 ↦ h.strAt_eq h1 h2

/-- It has nothing after the zero. -/
theorem CStr.strAt_eq_none (h : CStr m p cs) (ha : p + cs.length < a) : strAt m p a = none := by
  exact if_neg fun hc ↦ hc.2 cs.length (by omega) h.stop_eq

end

/-- The memory that has the string `cs` at 0, and nothing else. -/
def onlyStr (cs : List α) (p : ℕ) : Option α := (cs ++ [0])[p]?

theorem onlyStr_cons (c : α) (cs : List α) (p : ℕ) : onlyStr (c :: cs) (p + 1) = onlyStr cs p := rfl

theorem CStr.shift {m : ℕ → Option α} {p k : ℕ} {cs : List α} (h : CStr (fun a ↦ m (a + k)) p cs) :
    CStr m (p + k) cs := by
  induction h with
  | nil h => exact .nil h
  | @cons p _ _ h hc _ ih => exact .cons h hc (by rwa [Nat.add_right_comm] at ih)

theorem cstr_onlyStr {cs : List α} (h : ∀ c ∈ cs, c ≠ 0) : CStr (onlyStr cs) 0 cs := by
  induction cs with
  | nil => exact .nil rfl
  | cons c cs ih =>
      obtain ⟨hc, hcs⟩ := List.forall_mem_cons.mp h
      exact .cons rfl hc (CStr.shift (k := 1) (ih hcs))

theorem onlyStr_eq_none_iff {cs : List α} {p : ℕ} : onlyStr cs p = none ↔ cs.length < p := by
  rw [onlyStr, List.getElem?_eq_none_iff, List.length_append, List.length_singleton]
  omega

end Jos.Lib
