import Mathlib.NumberTheory.PrimeCounting

/-!
# The sieve of Eratosthenes

Stage `n` of the sieve lets through what the first `n` primes do not divide.  The first number that
gets there is the next prime, and what it does not divide gets to the next stage.
-/

namespace Jos.Lib

/-- `i` gets to stage `n` of the sieve. -/
def Survives (n i : ℕ) : Prop := 2 ≤ i ∧ ∀ j < n, ¬ Nat.nth Nat.Prime j ∣ i

noncomputable instance (n i : ℕ) : Decidable (Survives n i) := Classical.dec _

/-- The numbers below `N` that get to stage `n`, in order. -/
noncomputable def sieved (n N : ℕ) : List ℕ := (List.range N).filter (Survives n ·)

variable {n N i p : ℕ} {l : List ℕ}

theorem prime_nth (n : ℕ) : (Nat.nth Nat.Prime n).Prime := Nat.prime_nth_prime n

theorem mem_sieved : i ∈ sieved n N ↔ i < N ∧ Survives n i := by simp [sieved]

theorem sieved_pairwise (n N : ℕ) : (sieved n N).Pairwise (· < ·) :=
  List.pairwise_lt_range.filter _

/-- The next prime gets through. -/
theorem survives_nth (n : ℕ) : Survives n (Nat.nth Nat.Prime n) := by
  refine ⟨(prime_nth n).two_le, fun j hj hdvd ↦ ?_⟩
  have heq := (Nat.prime_dvd_prime_iff_eq (prime_nth j) (prime_nth n)).mp hdvd
  exact hj.ne (Nat.nth_injective Nat.infinite_setOfPred_prime heq)

/-- Nothing that gets through is smaller. -/
theorem Survives.nth_le (h : Survives n i) : Nat.nth Nat.Prime n ≤ i := by
  obtain ⟨h2, hdvd⟩ := h
  have hp : (Nat.minFac i).Prime := Nat.minFac_prime (by omega)
  obtain ⟨j, hj⟩ : ∃ j, Nat.nth Nat.Prime j = Nat.minFac i :=
    ⟨_, Nat.nth_count hp⟩
  have hnj : n ≤ j := by
    by_contra hlt
    exact hdvd j (not_le.mp hlt) (hj ▸ Nat.minFac_dvd i)
  calc Nat.nth Nat.Prime n ≤ Nat.nth Nat.Prime j :=
        (Nat.nth_le_nth Nat.infinite_setOfPred_prime).mpr hnj
    _ = Nat.minFac i := hj
    _ ≤ i := Nat.minFac_le (by omega)

/-- The first number of a stage is the next prime. -/
theorem sieved_head (h : p :: l = sieved n N) : p = Nat.nth Nat.Prime n := by
  have hp := mem_sieved.mp (h ▸ List.mem_cons_self : p ∈ sieved n N)
  refine le_antisymm ?_ hp.2.nth_le
  have hmem : Nat.nth Nat.Prime n ∈ p :: l :=
    h ▸ mem_sieved.mpr ⟨hp.2.nth_le.trans_lt hp.1, survives_nth n⟩
  have hsorted := h ▸ sieved_pairwise n N
  rcases List.mem_cons.mp hmem with heq | hl
  · exact heq.ge
  · exact ((List.pairwise_cons.mp hsorted).1 _ hl).le

theorem survives_succ : Survives (n + 1) i ↔ ¬ Nat.nth Nat.Prime n ∣ i ∧ Survives n i := by
  constructor
  · rintro ⟨h2, hdvd⟩
    exact ⟨hdvd n n.lt_succ_self, h2, fun j hj ↦ hdvd j (hj.trans n.lt_succ_self)⟩
  · rintro ⟨hn, h2, hdvd⟩
    refine ⟨h2, fun j hj ↦ ?_⟩
    rcases Nat.lt_succ_iff_lt_or_eq.mp hj with hlt | rfl
    · exact hdvd j hlt
    · exact hn

/-- What the first number does not divide gets to the next stage. -/
theorem sieved_tail (h : p :: l = sieved n N) : l.filter (¬ p ∣ ·) = sieved (n + 1) N := by
  obtain rfl := sieved_head h
  calc l.filter (¬ Nat.nth Nat.Prime n ∣ ·)
      = (Nat.nth Nat.Prime n :: l).filter (¬ Nat.nth Nat.Prime n ∣ ·) := by simp
    _ = (sieved n N).filter (¬ Nat.nth Nat.Prime n ∣ ·) := by rw [h]
    _ = sieved (n + 1) N := by
        rw [sieved, List.filter_filter, sieved]
        refine List.filter_congr fun i _ ↦ ?_
        rw [Bool.eq_iff_iff, Bool.and_eq_true, decide_eq_true_eq, decide_eq_true_eq,
          decide_eq_true_eq]
        exact survives_succ.symm

/-- All numbers from 2 on get to the first stage. -/
theorem sieved_zero (N : ℕ) : sieved 0 (N + 2) = List.range' 2 N := by
  have hsurvives : ∀ i, Survives 0 i ↔ 2 ≤ i := fun i ↦
    ⟨fun h ↦ h.1, fun h ↦ ⟨h, fun j hj ↦ absurd hj j.not_lt_zero⟩⟩
  rw [sieved, List.range_eq_range', Nat.add_comm, ← List.range'_append_1, List.filter_append,
    List.filter_eq_nil_iff.mpr, List.filter_eq_self.mpr, List.nil_append, Nat.zero_add]
  · intro i hi
    exact decide_eq_true ((hsurvives i).mpr (by simpa using (List.mem_range'_1.mp hi).1))
  · intro i hi
    have hlt := (List.mem_range'_1.mp hi).2
    rw [decide_eq_true_eq, hsurvives]
    omega

/-! ## Pipelines -/

/-- A stage passes on, in order, what the first number that it got does not divide.  If it has got
the first numbers of its stage, then what it passes on are the first numbers of the next one. -/
theorem passed_sieved (h : p :: l <+: sieved n N) : l.filter (¬ p ∣ ·) <+: sieved (n + 1) N := by
  obtain ⟨r, hr⟩ := h
  rw [List.cons_append] at hr
  rw [← sieved_tail hr, List.filter_append]
  exact List.prefix_append _ _

theorem head_sieved (h : p :: l <+: sieved n N) : p = Nat.nth Nat.Prime n := by
  obtain ⟨r, hr⟩ := h
  exact sieved_head hr

theorem pairwise_of_sieved (h : l <+: sieved n N) : l.Pairwise (· < ·) :=
  (sieved_pairwise n N).sublist h.sublist

/-- Nothing is left out. -/
theorem mem_of_sieved {j : ℕ} (h : l <+: sieved n N) (hi : i ∈ l) :
    Survives n i ∧ (j < i → Survives n j → j ∈ l) := by
  obtain ⟨r, hr⟩ := h
  have hmem : i ∈ sieved n N := hr ▸ List.mem_append_left r hi
  obtain ⟨hN, hs⟩ := mem_sieved.mp hmem
  refine ⟨hs, fun hji hj ↦ ?_⟩
  have hj : j ∈ l ++ r := hr ▸ mem_sieved.mpr ⟨hji.trans hN, hj⟩
  rcases List.mem_append.mp hj with hl | hr'
  · exact hl
  · have hsorted := hr ▸ sieved_pairwise n N
    exact absurd ((List.pairwise_append.mp hsorted).2.2 i hi j hr') hji.asymm

end Jos.Lib
