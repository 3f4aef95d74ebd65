import Mathlib.Data.Fintype.Card
import Mathlib.Data.Set.Basic
import Mathlib.Logic.Function.Basic

/-!
# Counting references

A finite family of *slots* `K`, each holding at most one reference to an object of `P`, is a
function `f : K → Option P`.  `owners f p` is the number of slots that refer to `p`.

The lemmas say how the count moves when one slot is filled or cleared, which is all that a
reference-counting argument needs: `owners_set` and `owners_clear`.  A slot of a set `S` is
*exclusive* when what it refers to has no other reference (`Exclusive`).
-/

namespace Jos.Lib

universe u v

variable {K : Type u} {P : Type v} [Fintype K] [DecidableEq P]

/-- The number of slots of `f` that refer to `p`. -/
def owners (f : K → Option P) (p : P) : ℕ :=
  (Finset.univ.filter fun k ↦ f k = some p).card

theorem owners_pos_iff {f : K → Option P} {p : P} : 0 < owners f p ↔ ∃ k, f k = some p := by
  simp only [owners, Finset.card_pos]
  constructor
  · rintro ⟨k, hk⟩
    exact ⟨k, (Finset.mem_filter.mp hk).2⟩
  · rintro ⟨k, hk⟩
    exact ⟨k, Finset.mem_filter.mpr ⟨Finset.mem_univ k, hk⟩⟩

theorem owners_pos {f : K → Option P} {p : P} {k : K} (h : f k = some p) : 0 < owners f p :=
  owners_pos_iff.mpr ⟨k, h⟩

/-- What references can be told apart by is no more than the references are. -/
theorem card_le_owners {A : Type*} [DecidableEq A] {f : K → Option P} {p : P} {s : Finset A}
    {g : K → A} (h : ∀ a ∈ s, ∃ k, f k = some p ∧ g k = a) : s.card ≤ owners f p := by
  have hsub : s ⊆ (Finset.univ.filter fun k ↦ f k = some p).image g := fun a ha ↦ by
    obtain ⟨k, hk, rfl⟩ := h a ha
    exact Finset.mem_image_of_mem g (Finset.mem_filter.mpr ⟨Finset.mem_univ k, hk⟩)
  exact (Finset.card_le_card hsub).trans Finset.card_image_le

theorem owners_eq_zero_iff {f : K → Option P} {p : P} : owners f p = 0 ↔ ∀ k, f k ≠ some p := by
  rw [← not_iff_not, ← ne_eq, ← Nat.pos_iff_ne_zero, owners_pos_iff]
  push Not
  rfl

/-- An object with a single reference is referred to from one slot only. -/
theorem eq_of_owners_eq_one {f : K → Option P} {p : P} (h : owners f p = 1) {k k' : K}
    (hk : f k = some p) (hk' : f k' = some p) : k = k' := by
  obtain ⟨a, ha⟩ := Finset.card_eq_one.mp h
  have key : ∀ {x : K}, f x = some p → x = a := by
    intro x hx
    have : x ∈ Finset.univ.filter fun k ↦ f k = some p :=
      Finset.mem_filter.mpr ⟨Finset.mem_univ x, hx⟩
    rw [ha] at this
    exact Finset.mem_singleton.mp this
  rw [key hk, key hk']

/-- With one owner only, an owner is the owner. -/
theorem eq_of_owners_le_one {f : K → Option P} {p : P} (h : owners f p ≤ 1) {k k' : K}
    (hk : f k = some p) (hk' : f k' = some p) : k' = k :=
  Finset.card_le_one.mp h k' (by simpa using hk') k (by simpa using hk)

theorem owners_congr {f g : K → Option P} {p : P} (h : ∀ k, f k = some p ↔ g k = some p) :
    owners f p = owners g p := by
  simp only [owners, h]

/-- Slots that never refer to `p` need not be counted. -/
theorem owners_comp {J : Type*} [Fintype J] {f : K → Option P} {p : P} (g : J → K)
    (hg : Function.Injective g) (h : ∀ k, f k = some p → ∃ j, g j = k) :
    owners (fun j ↦ f (g j)) p = owners f p := by
  have himage : (Finset.univ.filter fun j ↦ f (g j) = some p).map ⟨g, hg⟩ =
      Finset.univ.filter fun k ↦ f k = some p := by
    ext k
    simp only [Finset.mem_map, Finset.mem_filter, Finset.mem_univ, true_and,
      Function.Embedding.coeFn_mk]
    constructor
    · rintro ⟨j, hj, rfl⟩
      exact hj
    · intro hk
      obtain ⟨j, rfl⟩ := h k hk
      exact ⟨j, hk, rfl⟩
  rw [owners, owners, ← himage, Finset.card_map]

/-- The references from the slots with property `S`, and those from the others. -/
theorem owners_split (S : K → Prop) [DecidablePred S] (f : K → Option P) (p : P) :
    owners f p = owners (fun k ↦ if S k then none else f k) p +
      owners (fun k ↦ if S k then f k else none) p := by
  rw [owners, ← Finset.card_filter_add_card_filter_not fun k ↦ ¬ S k]
  congr 1 <;> refine congrArg Finset.card (Finset.ext fun k ↦ ?_) <;>
    by_cases hk : S k <;> simp [hk]

variable [DecidableEq K]

/-- Filling an empty slot adds one reference to what it now holds. -/
theorem owners_set {f : K → Option P} {k : K} (h : f k = none) (p x : P) :
    owners (Function.update f k (some p)) x = owners f x + if x = p then 1 else 0 := by
  have hk : k ∉ Finset.univ.filter fun i ↦ f i = some x := by simp [h]
  by_cases hx : x = p
  · subst hx
    have : (Finset.univ.filter fun i ↦ Function.update f k (some x) i = some x) =
        insert k (Finset.univ.filter fun i ↦ f i = some x) := by
      ext i
      by_cases hi : i = k <;> simp [hi]
    rw [owners, this, Finset.card_insert_of_notMem hk]
    simp [owners]
  · have : (Finset.univ.filter fun i ↦ Function.update f k (some p) i = some x) =
        Finset.univ.filter fun i ↦ f i = some x := by
      ext i
      by_cases hi : i = k
      · subst hi
        simp [h, Ne.symm hx]
      · simp [hi]
    rw [owners, this]
    simp [owners, hx]

/-- Clearing a slot takes one reference from what it held. -/
theorem owners_clear {f : K → Option P} {k : K} {q : P} (h : f k = some q) (x : P) :
    owners (Function.update f k none) x = owners f x - if x = q then 1 else 0 := by
  have hf : f = Function.update (Function.update f k none) k (some q) := by
    rw [Function.update_idem, ← h, Function.update_eq_self]
  have := owners_set (f := Function.update f k none) (k := k)
    (Function.update_self k none f) q x
  rw [← hf] at this
  omega

/-- Overwriting a slot drops the reference it held and adds the new one. -/
theorem owners_replace (f : K → Option P) (k : K) (o : Option P) (x : P) :
    owners (Function.update f k o) x =
      (owners f x - if f k = some x then 1 else 0) + if o = some x then 1 else 0 := by
  have hclear : owners (Function.update f k none) x =
      owners f x - if f k = some x then 1 else 0 := by
    cases hk : f k with
    | none =>
        rw [show Function.update f k none = f by rw [← hk, Function.update_eq_self]]
        simp
    | some q =>
        rw [owners_clear hk]
        simp [eq_comm]
  cases o with
  | none => simpa using hclear
  | some p =>
      rw [show Function.update f k (some p) = Function.update (Function.update f k none) k (some p)
        by rw [Function.update_idem], owners_set (Function.update_self k none f), hclear]
      simp [eq_comm]

/-- Clearing a slot never adds references. -/
theorem owners_clear_le (f : K → Option P) (k : K) (x : P) :
    owners (Function.update f k none) x ≤ owners f x := by
  apply Finset.card_le_card
  intro i hi
  by_cases hik : i = k
  · subst hik
    simp at hi
  · simpa [hik] using hi

/-! ## Exclusive slots -/

/-- What an exclusive slot refers to has no other reference. -/
def Exclusive (S : Set K) (f : K → Option P) : Prop :=
  ∀ k ∈ S, ∀ p, f k = some p → owners f p = 1

namespace Exclusive

variable {S : Set K} {f : K → Option P} {k k' : K} {p : P}

omit [DecidableEq K] in
theorem eq_of_eq_some (h : Exclusive S f) (hk : k ∈ S) (hp : f k = some p)
    (hp' : f k' = some p) : k' = k :=
  eq_of_owners_eq_one (h k hk p hp) hp' hp

theorem clear (h : Exclusive S f) (k : K) : Exclusive S (Function.update f k none) := by
  intro k' hk' p hp
  have hne : k' ≠ k := by
    rintro rfl
    rw [Function.update_self] at hp
    cases hp
  rw [Function.update_of_ne hne] at hp
  cases hfk : f k with
  | none =>
      have : Function.update f k none = f := by rw [← hfk, Function.update_eq_self]
      rw [this]
      exact h k' hk' p hp
  | some q =>
      have hpq : p ≠ q := by
        rintro rfl
        exact hne (h.eq_of_eq_some hk' hp hfk).symm
      rw [owners_clear hfk, if_neg hpq]
      exact h k' hk' p hp

/-- Filling an empty slot with an object no exclusive slot refers to; if the slot is itself
exclusive, with an object nothing refers to. -/
theorem set (h : Exclusive S f) (hk : f k = none) (hp : ∀ k' ∈ S, f k' ≠ some p)
    (hkS : k ∈ S → owners f p = 0) : Exclusive S (Function.update f k (some p)) := by
  intro k' hk' q hq
  rw [owners_set hk]
  by_cases e : k' = k
  · subst e
    rw [Function.update_self] at hq
    obtain rfl := Option.some.inj hq
    simp [hkS hk']
  · rw [Function.update_of_ne e] at hq
    have hqp : q ≠ p := by
      rintro rfl
      exact hp k' hk' hq
    rw [if_neg hqp]
    exact h k' hk' q hq

/-- Overwriting a slot that is not exclusive with an object no exclusive slot refers to. -/
theorem replace (h : Exclusive S f) (hk : k ∉ S) (hp : ∀ k' ∈ S, f k' ≠ some p) :
    Exclusive S (Function.update f k (some p)) := by
  rw [show Function.update f k (some p) = Function.update (Function.update f k none) k (some p) by
    rw [Function.update_idem]]
  refine (h.clear k).set (Function.update_self k none f) (fun k' hk' ↦ ?_) fun hc ↦ absurd hc hk
  rw [Function.update_of_ne (fun e : k' = k ↦ hk (e ▸ hk'))]
  exact hp k' hk'

end Exclusive

end Jos.Lib
