import Mathlib.Data.List.Basic
import Mathlib.Data.Nat.Notation

/-!
# Loops with an invariant

A counting loop whose body may fail is `foldlM` over a range in `Option`.  If the invariant
`P i` at the start of round `i` lets the body succeed and gives `P (i + 1)`, the loop succeeds
and ends with `P n`.  Over an arbitrary list the invariant does not count the rounds.
-/

namespace Jos.Lib

universe u v

theorem foldlM_range_some {σ : Type u} {f : σ → ℕ → Option σ} {P : ℕ → σ → Prop} {n : ℕ}
    (step : ∀ i < n, ∀ s, P i s → ∃ s', f s i = some s' ∧ P (i + 1) s') {s : σ} (h : P 0 s) :
    ∃ s', (List.range n).foldlM f s = some s' ∧ P n s' := by
  induction n with
  | zero => exact ⟨s, rfl, h⟩
  | succ n ih =>
      obtain ⟨s₁, hrun, h₁⟩ := ih fun i hi ↦ step i (Nat.lt_succ_of_lt hi)
      obtain ⟨s₂, hstep, h₂⟩ := step n n.lt_succ_self s₁ h₁
      refine ⟨s₂, ?_, h₂⟩
      rw [List.range_succ, List.foldlM_append, hrun]
      simp [hstep]

/-- Of a counting loop that succeeds, what every round keeps up holds after all of them. -/
theorem foldlM_range_keeps {σ : Type u} {f : σ → ℕ → Option σ} {P : ℕ → σ → Prop} {n : ℕ}
    (step : ∀ i < n, ∀ s s', P i s → f s i = some s' → P (i + 1) s') {s s' : σ} (h : P 0 s)
    (run : (List.range n).foldlM f s = some s') : P n s' := by
  induction n generalizing s' with
  | zero => exact Option.some.inj run ▸ h
  | succ n ih =>
      rw [List.range_succ, List.foldlM_append, Option.bind_eq_bind, Option.bind_eq_some_iff] at run
      obtain ⟨s₁, hrun, hlast⟩ := run
      have h₁ := ih (fun i hi ↦ step i (Nat.lt_succ_of_lt hi)) hrun
      exact step n n.lt_succ_self s₁ s' h₁ (by simpa using hlast)

section

variable {σ : Type u} {α : Type v} {f : σ → α → Option σ} {P : σ → Prop} {xs : List α}

/-- A loop that succeeds keeps what its rounds keep. -/
theorem foldlM_keeps (step : ∀ x ∈ xs, ∀ s s', P s → f s x = some s' → P s') {s s' : σ} (h : P s)
    (run : xs.foldlM f s = some s') : P s' := by
  induction xs generalizing s with
  | nil => exact Option.some.inj run ▸ h
  | cons x xs ih =>
      rw [List.foldlM_cons, Option.bind_eq_bind, Option.bind_eq_some_iff] at run
      obtain ⟨s₁, hx, hxs⟩ := run
      exact ih (fun y hy ↦ step y (List.mem_cons_of_mem x hy))
        (step x List.mem_cons_self s s₁ h hx) hxs

/-- A loop commutes with a map if its rounds do. -/
theorem foldlM_comm {φ : σ → σ} (comm : ∀ x ∈ xs, ∀ s, P s → f (φ s) x = (f s x).map φ)
    (keeps : ∀ x ∈ xs, ∀ s s', P s → f s x = some s' → P s') {s : σ} (h : P s) :
    xs.foldlM f (φ s) = (xs.foldlM f s).map φ := by
  induction xs generalizing s with
  | nil => rfl
  | cons x xs ih =>
      rw [List.foldlM_cons, List.foldlM_cons, comm x List.mem_cons_self s h]
      cases hx : f s x with
      | none => rfl
      | some s' =>
          exact ih (fun y hy ↦ comm y (List.mem_cons_of_mem x hy))
            (fun y hy ↦ keeps y (List.mem_cons_of_mem x hy))
            (keeps x List.mem_cons_self s s' h hx)

/-- A loop whose rounds succeed under the invariant succeeds. -/
theorem foldlM_some (step : ∀ x ∈ xs, ∀ s, P s → ∃ s', f s x = some s' ∧ P s') {s : σ} (h : P s) :
    ∃ s', xs.foldlM f s = some s' ∧ P s' := by
  induction xs generalizing s with
  | nil => exact ⟨s, rfl, h⟩
  | cons x xs ih =>
      obtain ⟨s₁, hx, h₁⟩ := step x List.mem_cons_self s h
      obtain ⟨s₂, hxs, h₂⟩ := ih (fun y hy ↦ step y (List.mem_cons_of_mem x hy)) h₁
      exact ⟨s₂, by rw [List.foldlM_cons, hx]; exact hxs, h₂⟩

end

/-- A table whose entries are written one after the other, each once. -/
theorem foldl_update {α β γ : Type*} [DecidableEq α] (g : β → γ) (l : List (α × β)) (f : α → γ)
    (h : (l.map Prod.fst).Nodup) (a : α) :
    l.foldl (fun f x ↦ Function.update f x.1 (g x.2)) f a =
      ((l.find? (·.1 = a)).map fun x ↦ g x.2).getD (f a) := by
  induction l generalizing f with
  | nil => rfl
  | cons x l ih =>
      rw [List.map_cons, List.nodup_cons] at h
      rw [List.foldl_cons, ih _ h.2]
      by_cases hx : x.1 = a
      · have hnone : l.find? (·.1 = a) = none := by
          rw [List.find?_eq_none]
          intro y hy hya
          exact h.1 (List.mem_map.mpr ⟨y, hy, (of_decide_eq_true hya).trans hx.symm⟩)
        rw [hnone, List.find?_cons_of_pos (by simpa using hx), ← hx]
        simp
      · rw [List.find?_cons_of_neg (by simpa using hx), Function.update_of_ne (Ne.symm hx)]

end Jos.Lib
