import Mathlib.Data.Nat.Notation

/-!
# Numerals

The numeral of a number as a list of digits: its length, its first digit, and its value.
-/

namespace Jos.Lib

variable {b n : ℕ}

/-- A numeral consists of digits that are less than the base, and they stand for the number. -/
theorem exists_digits (hb : 1 < b) (n : ℕ) : ∃ ds : List ℕ,
    Nat.toDigits b n = ds.map Nat.digitChar ∧ (∀ d ∈ ds, d < b) ∧
      ds.foldl (fun v d ↦ b * v + d) 0 = n := by
  induction n using Nat.strongRecOn with
  | ind n ih =>
      by_cases hn : n < b
      · refine ⟨[n], Nat.toDigits_of_lt_base hn, ?_, by simp⟩
        simpa using hn
      · obtain ⟨ds, htext, hlt, hval⟩ := ih (n / b) (Nat.div_lt_self (by omega) hb)
        refine ⟨ds ++ [n % b], ?_, ?_, ?_⟩
        · rw [Nat.toDigits_of_base_le hb (Nat.le_of_not_lt hn), htext, List.map_append]
          rfl
        · intro d hd
          rcases List.mem_append.mp hd with hd | hd
          · exact hlt d hd
          · rw [List.mem_singleton.mp hd]
            exact Nat.mod_lt n (by omega)
        · rw [List.foldl_append, hval]
          exact Nat.div_add_mod n b

theorem mem_toDigits (hb : 1 < b) {c : Char} (hc : c ∈ Nat.toDigits b n) :
    ∃ d < b, c = Nat.digitChar d := by
  obtain ⟨ds, htext, hlt, -⟩ := exists_digits hb n
  rw [htext] at hc
  obtain ⟨d, hd, rfl⟩ := List.mem_map.mp hc
  exact ⟨d, hlt d hd, rfl⟩

/-- The numeral of a positive number does not start with 0. -/
theorem exists_toDigits_eq_cons (hb : 1 < b) (hn : 0 < n) :
    ∃ d ds, Nat.toDigits b n = Nat.digitChar d :: ds ∧ 0 < d ∧ d < b := by
  induction n using Nat.strongRecOn with
  | ind n ih =>
      by_cases hlt : n < b
      · exact ⟨n, [], Nat.toDigits_of_lt_base hlt, hn, hlt⟩
      · have hle : b ≤ n := Nat.le_of_not_lt hlt
        obtain ⟨d, ds, htext, hd, hdb⟩ :=
          ih (n / b) (Nat.div_lt_self hn hb) (Nat.div_pos hle (by omega))
        refine ⟨d, ds ++ [Nat.digitChar (n % b)], ?_, hd, hdb⟩
        rw [Nat.toDigits_of_base_le hb hle, htext]
        rfl

end Jos.Lib
