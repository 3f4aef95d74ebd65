import Jos.Kern.Env

/-!
# Environment ids

An id is a generation, counted in steps of `1 << ENVGENSHIFT`, and the index of the slot.
`env_alloc` gives a slot a new id each time; as long as the generations do not run out, no two
environments ever have the same one.
-/

namespace Jos

/-- The id of the `n`-th environment in slot `e`. -/
def genId (n : ℕ) (e : Slot) : Word := BitVec.ofNat 32 (n * 4096 + e.val)

theorem nextEnvId_toNat (id : Word) (e : Slot) :
    ∃ g, (nextEnvId id e).toNat = g * 1024 + e.val ∧ 0 < g ∧ g < 2097152 ∧
      (g = ((id.toNat + 4096) % 2 ^ 32) / 1024 ∨
        g = 4 ∧ (((id.toNat + 4096) % 2 ^ 32) / 1024 = 0 ∨
          2097152 ≤ ((id.toNat + 4096) % 2 ^ 32) / 1024)) := by
  have he : e.val < 1024 := e.isLt
  have hw : ((id + (1 <<< ENVGENSHIFT)) &&& ~~~(1023 : Word)).toNat =
      ((id.toNat + 4096) % 2 ^ 32) / 1024 * 1024 := by
    rw [show ~~~(1023 : Word) = BitVec.allOnes 32 <<< 10 by decide]
    refine (and_high_toNat _ 10).trans ?_
    rw [BitVec.toNat_add]
    rfl
  have hor : ∀ w : Word, w.toNat % 1024 = 0 → (w ||| BitVec.ofNat 32 e).toNat =
      w.toNat + e.val := by
    intro w hwm
    obtain ⟨g, hg⟩ := Nat.dvd_of_mod_eq_zero hwm
    rw [BitVec.toNat_or, BitVec.toNat_ofNat, Nat.mod_eq_of_lt (by omega : e.val < 2 ^ 32), hg]
    exact (Nat.two_pow_add_eq_or_of_lt (i := 10) he g).symm
  have hsign : ((id + (1 <<< ENVGENSHIFT)) &&& ~~~(1023 : Word)).toInt ≤ 0 ↔
      ((id.toNat + 4096) % 2 ^ 32) / 1024 = 0 ∨
        2097152 ≤ ((id.toNat + 4096) % 2 ^ 32) / 1024 := by
    rw [BitVec.toInt_eq_toNat_cond, hw]
    split <;> omega
  simp only [nextEnvId]
  by_cases hle : ((id + (1 <<< ENVGENSHIFT)) &&& ~~~(1023 : Word)).toInt ≤ 0
  · rw [if_pos hle, hor _ (by decide)]
    exact ⟨4, rfl, by decide, by decide, .inr ⟨rfl, hsign.mp hle⟩⟩
  · rw [if_neg hle, hor _ (by omega), hw]
    have := mt hsign.mpr hle
    exact ⟨_, rfl, by omega, by omega, .inl rfl⟩

/-- An id names its slot. -/
@[simp] theorem envx_nextEnvId (id : Word) (e : Slot) : envx (nextEnvId id e) = e := by
  obtain ⟨g, hg, -⟩ := nextEnvId_toNat id e
  have he : e.val < 1024 := e.isLt
  refine Fin.ext ?_
  show (nextEnvId id e).toNat % 1024 = e.val
  omega

theorem nextEnvId_pos (id : Word) (e : Slot) : 0 < (nextEnvId id e).toInt := by
  obtain ⟨g, hg, hpos, hlt, -⟩ := nextEnvId_toNat id e
  have he : e.val < 1024 := e.isLt
  rw [BitVec.toInt_eq_toNat_cond]
  split <;> omega

theorem nextEnvId_ne_zero (id : Word) (e : Slot) : nextEnvId id e ≠ 0 := by
  intro hc
  have := nextEnvId_pos id e
  rw [hc] at this
  exact absurd this (by decide)

/-- The generations count up. -/
theorem nextEnvId_genId {n : ℕ} (hn : n + 1 < 524288) (e : Slot) :
    nextEnvId (genId n e) e = genId (n + 1) e := by
  obtain ⟨g, hg, -, -, hcase⟩ := nextEnvId_toNat (genId n e) e
  have he : e.val < 1024 := e.isLt
  refine BitVec.eq_of_toNat_eq ?_
  rw [hg, genId, BitVec.toNat_ofNat]
  rw [genId, BitVec.toNat_ofNat] at hcase
  omega

/-- Ids of different generations or slots are different. -/
theorem genId_inj {n n' : ℕ} {e e' : Slot} (hn : n < 524288) (hn' : n' < 524288)
    (h : genId n e = genId n' e') : n = n' ∧ e = e' := by
  have he : e.val < 1024 := e.isLt
  have he' : e'.val < 1024 := e'.isLt
  have heq := congrArg BitVec.toNat h
  rw [genId, genId, BitVec.toNat_ofNat, BitVec.toNat_ofNat] at heq
  refine ⟨by omega, Fin.ext (by omega)⟩

theorem genId_ne_zero {n : ℕ} (e : Slot) (h0 : 0 < n) (hn : n < 524288) : genId n e ≠ 0 := by
  intro hc
  have he : e.val < 1024 := e.isLt
  have heq := congrArg BitVec.toNat hc
  rw [genId, BitVec.toNat_ofNat, show (0 : Word).toNat = 0 from rfl] at heq
  omega

/-- The first environment of a slot. -/
theorem nextEnvId_zero (e : Slot) : nextEnvId 0 e = genId 1 e := by
  obtain ⟨g, hg, -, -, hcase⟩ := nextEnvId_toNat 0 e
  have he : e.val < 1024 := e.isLt
  refine BitVec.eq_of_toNat_eq ?_
  rw [hg, genId, BitVec.toNat_ofNat]
  have h0 : (0 : Word).toNat = 0 := rfl
  omega

end Jos
