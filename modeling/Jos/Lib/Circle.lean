import Mathlib.Data.Fin.Basic
import Mathlib.Data.List.Range
import Mathlib.Order.Fin.Basic

/-!
# Searching around a circle

A table of `n` slots is searched in circular order.  `dist a b` is the number of steps from `a` to
`b`, and a search from `a` on finds the slot at the least distance.
-/

namespace Jos.Lib.Circle

variable {n : ℕ} {a b c : Fin n} {p : Fin n → Prop}

/-- The number of steps from `a` to `b`. -/
def dist (a b : Fin n) : ℕ := if a ≤ b then b.val - a.val else b.val + n - a.val

/-- The slot after `a`. -/
def next (a : Fin n) : Fin n := ⟨(a.val + 1) % n, Nat.mod_lt _ (Nat.zero_lt_of_lt a.isLt)⟩

/-- The slots in the order in which a search from `a` on visits them. -/
def order (a : Fin n) : List (Fin n) :=
  (List.range n).map fun i ↦ ⟨(a.val + i) % n, Nat.mod_lt _ (Nat.zero_lt_of_lt a.isLt)⟩

/-! ## Distances -/

theorem dist_lt (a b : Fin n) : dist a b < n := by
  have ha := a.isLt
  have hb := b.isLt
  rw [dist]
  split
  · omega
  · next h =>
      rw [Fin.le_def] at h
      omega

@[simp] theorem dist_self (a : Fin n) : dist a a = 0 := by
  rw [dist, if_pos (le_refl a), Nat.sub_self]

theorem dist_inj (h : dist a b = dist a c) : b = c := by
  have ha := a.isLt
  have hb := b.isLt
  have hc := c.isLt
  refine Fin.ext ?_
  simp only [dist, Fin.le_def] at h
  split at h <;> split at h <;> omega

theorem dist_next (a b : Fin n) :
    dist (next a) b = if a < b then b.val - a.val - 1 else b.val + n - a.val - 1 := by
  have ha := a.isLt
  have hb := b.isLt
  have hval : (next a).val = if a.val + 1 = n then 0 else a.val + 1 := by
    split
    · next h => exact (congrArg (· % n) h).trans (Nat.mod_self n)
    · next h => exact Nat.mod_eq_of_lt (by omega)
  simp only [dist, Fin.le_def, Fin.lt_def, hval]
  split_ifs <;> omega

/-- The slot at a distance. -/
theorem dist_mk {i : ℕ} (hi : i < n) :
    dist a ⟨(a.val + i) % n, Nat.mod_lt _ (Nat.zero_lt_of_lt a.isLt)⟩ = i := by
  have ha := a.isLt
  have hmod : (a.val + i) % n = if a.val + i < n then a.val + i else a.val + i - n := by
    split
    · next h => exact Nat.mod_eq_of_lt h
    · next h =>
        rw [Nat.mod_eq_sub_mod (Nat.le_of_not_lt h)]
        exact Nat.mod_eq_of_lt (by omega)
  simp only [dist, Fin.le_def, hmod]
  split <;> split <;> omega

/-- A search visits every slot. -/
theorem mem_order (a b : Fin n) : b ∈ order a := by
  rw [order, List.mem_map]
  exact ⟨dist a b, List.mem_range.mpr (dist_lt a b), dist_inj (dist_mk (dist_lt a b))⟩

/-! ## The first slot -/

/-- A search from `a` on for a slot with `p` finds `b`. -/
structure First (p : Fin n → Prop) (a b : Fin n) : Prop where
  holds : p b
  least : ∀ c, p c → dist a b ≤ dist a c

namespace First

theorem self (ha : p a) : First p a a := ⟨ha, fun c _ ↦ by rw [dist_self]; exact Nat.zero_le _⟩

/-- It is `a` itself if that has `p`. -/
theorem eq_self (h : First p a b) (ha : p a) : b = a := by
  have hle := h.least a ha
  rw [dist_self, Nat.le_zero] at hle
  exact dist_inj (hle.trans (dist_self a).symm)

end First

theorem find?_order [DecidablePred p] :
    (order a).find? (fun x ↦ decide (p x)) = some b ↔ First p a b := by
  have hget : ∀ i (hi : i < (order a).length), dist a (order a)[i] = i := by
    intro i hi
    have hin : i < n := by simpa [order] using hi
    simpa [order] using dist_mk (a := a) hin
  rw [List.find?_eq_some_iff_getElem]
  constructor
  · rintro ⟨hb, i, hi, rfl, hbefore⟩
    refine ⟨of_decide_eq_true hb, fun c hc ↦ ?_⟩
    by_contra hlt
    rw [hget i hi, Nat.not_le] at hlt
    have hj : dist a c < (order a).length := hlt.trans hi
    have hno := hbefore (dist a c) hlt
    rw [dist_inj (hget (dist a c) hj)] at hno
    simp [hc] at hno
  · intro h
    have hi : dist a b < (order a).length := by simpa [order] using dist_lt a b
    refine ⟨decide_eq_true h.holds, dist a b, hi, dist_inj (hget _ hi), fun j hj ↦ ?_⟩
    rw [Bool.not_eq_true', decide_eq_false_iff_not]
    intro hc
    have hle := h.least _ hc
    rw [hget j (hj.trans hi)] at hle
    omega

/-! ## Where the search starts -/

/-- A search from `a` on finds what one from the slot after `a` finds, unless it finds `a` and there
is another one. -/
theorem First.next_iff (h : First p a b) : First p (next a) b ↔ (p a → ∀ c, p c → c = a) := by
  have ha := a.isLt
  constructor
  · intro hnext hpa c hc
    obtain rfl := h.eq_self hpa
    have hle := hnext.least c hc
    have hcn := c.isLt
    rw [dist_next, dist_next, if_neg (lt_irrefl b)] at hle
    refine Fin.ext ?_
    split at hle
    · omega
    · next hlt =>
        rw [Fin.lt_def] at hlt
        omega
  · intro honly
    refine ⟨h.holds, fun c hc ↦ ?_⟩
    by_cases hpa : p a
    · rw [honly hpa b h.holds, honly hpa c hc]
    · have hba : b ≠ a := fun hba ↦ hpa (hba ▸ h.holds)
      have hca : c ≠ a := fun hca ↦ hpa (hca ▸ hc)
      -- both are one step nearer
      have hstep : ∀ x : Fin n, x ≠ a → dist (next a) x = dist a x - 1 := by
        intro x hx
        have hxn := x.isLt
        have hne : x.val ≠ a.val := fun hc ↦ hx (Fin.ext hc)
        rw [dist_next]
        simp only [dist, Fin.lt_def, Fin.le_def]
        split_ifs <;> omega
      rw [hstep b hba, hstep c hca]
      exact Nat.sub_le_sub_right (h.least c hc) 1

/-- A search from the start of the table finds what one from the slot after `a` finds, if all that
have `p` are on one side. -/
theorem First.zero_next_iff {o : Fin n} (ho : o.val = 0) (h : First p o b) :
    First p (next a) b ↔ (∀ c, p c → a < c) ∨ ∀ c, p c → c ≤ a := by
  have ha := a.isLt
  have hle : ∀ c, p c → b.val ≤ c.val := by
    intro c hc
    have := h.least c hc
    rwa [dist, dist, if_pos (Fin.le_def.mpr (by omega)), if_pos (Fin.le_def.mpr (by omega)), ho,
      Nat.sub_zero, Nat.sub_zero] at this
  constructor
  · intro hnext
    by_contra hc
    simp only [not_or, not_forall, not_lt, not_le] at hc
    obtain ⟨⟨c₁, hc₁, h₁⟩, c₂, hc₂, h₂⟩ := hc
    have hb := hle c₁ hc₁
    have hd := hnext.least c₂ hc₂
    have hn := c₂.isLt
    rw [Fin.le_def] at h₁
    rw [dist_next, dist_next, if_pos h₂, if_neg (by rw [Fin.lt_def]; omega)] at hd
    rw [Fin.lt_def] at h₂
    omega
  · rintro (hall | hall)
    · refine ⟨h.holds, fun c hc ↦ ?_⟩
      rw [dist_next, dist_next, if_pos (hall b h.holds), if_pos (hall c hc)]
      have := hle c hc
      omega
    · refine ⟨h.holds, fun c hc ↦ ?_⟩
      rw [dist_next, dist_next, if_neg (not_lt.mpr (hall b h.holds)),
        if_neg (not_lt.mpr (hall c hc))]
      have := hle c hc
      omega

end Jos.Lib.Circle
