import Mathlib.Logic.Basic

/-!
# Private views of shared pages

Pages are mapped at places, and several places may share a page.  As long as a page that can be
written at one place is mapped at no other, nobody sees the stores of another place: a store changes
what is read at one place only, and it does not matter which pages are shared.  A pair of places may
be excused for a while.
-/

namespace Jos.Lib

universe u v w

variable {ι : Type u} {P : Type v} {C : Type w}

/-- Which page is mapped at a place, and where one can write. -/
structure Sharing (ι : Type u) (P : Type v) where
  page : ι → Option P
  writes : ι → Prop

namespace Sharing

/-- What is read at a place, when the pages hold `c`. -/
def view (σ : Sharing ι P) (c : P → C) (x : ι) : Option C := (σ.page x).map c

/-- A page that can be written at `x` is mapped at no other place than `x` and those excused. -/
def Apart (σ : Sharing ι P) (excused : ι → ι → Prop) : Prop :=
  ∀ x y p, σ.writes x → σ.page x = some p → σ.page y = some p → y = x ∨ excused x y

variable {σ σ' : Sharing ι P} {excused excused' : ι → ι → Prop} {c c' : P → C} {x y : ι} {p : P}

theorem view_eq (h : σ.page x = some p) : σ.view c x = some (c p) := by
  rw [view, h, Option.map_some]

/-- A place sees the same as before if it has the same page and the page holds the same. -/
theorem view_congr (hpage : σ'.page x = σ.page x) (hc : ∀ p, σ.page x = some p → c' p = c p) :
    σ'.view c' x = σ.view c x := by
  rw [view, view, hpage]
  cases h : σ.page x with
  | none => rfl
  | some p => rw [Option.map_some, Option.map_some, hc p h]

namespace Apart

theorem mono (h : σ.Apart excused) (hsub : ∀ x y, excused x y → excused' x y) :
    σ.Apart excused' :=
  fun x y p hw hx hy ↦ (h x y p hw hx hy).imp_right (hsub x y)

/-- A place that is not excused has another page than a place where one can write. -/
theorem page_ne (h : σ.Apart excused) (hw : σ.writes x) (hx : σ.page x = some p) (hyx : y ≠ x)
    (hno : ¬ excused x y) : σ.page y ≠ some p :=
  fun hy ↦ (h x y p hw hx hy).elim hyx hno

/-- Another page is mapped at `x`.  If somebody has it already, neither may write to it, or they are
excused. -/
theorem remap (h : σ.Apart excused) (hpage : ∀ y, y ≠ x → σ'.page y = σ.page y)
    (hwrites : ∀ y, y ≠ x → σ'.writes y → σ.writes y)
    (hnew : ∀ y p, y ≠ x → σ'.page x = some p → σ.page y = some p →
      (σ.writes y → excused' y x) ∧ (σ'.writes x → excused' x y))
    (hex : ∀ y z, y ≠ x → z ≠ x → excused y z → excused' y z) : σ'.Apart excused' := by
  intro y z p hw hy hz
  by_cases hyx : y = x
  · subst hyx
    by_cases hzy : z = y
    · exact .inl hzy
    · rw [hpage z hzy] at hz
      exact .inr ((hnew z p hzy hy hz).2 hw)
  · rw [hpage y hyx] at hy
    by_cases hzx : z = x
    · subst hzx
      exact .inr ((hnew y p hyx hz hy).1 (hwrites y hyx hw))
    · rw [hpage z hzx] at hz
      exact (h y z p (hwrites y hyx hw) hy hz).imp_right (hex y z hyx hzx)

/-- A store at `x` is not seen at a place that is not excused. -/
theorem view_store (h : σ.Apart excused) (hw : σ.writes x) (hx : σ.page x = some p)
    (hc : ∀ q, q ≠ p → c' q = c q) (hyx : y ≠ x) (hno : ¬ excused x y) :
    σ.view c' y = σ.view c y := by
  refine view_congr rfl fun q hq ↦ hc q ?_
  rintro rfl
  exact h.page_ne hw hx hyx hno hq

end Apart

end Sharing

end Jos.Lib
