import Jos.Kern.Booted

/-!
# The check of user memory (`user_mem_check`)

The loop of `user_mem_check` runs over the pages from `va`, rounded down, to `va + len`, rounded up.
The sum and the rounding are 32-bit arithmetic: if the range ends in the last page of the address
space or beyond it, the end wraps around, and the loop sees few pages of the range or none at all.
-/

namespace Jos

variable {B : Machine} {m : Mem} {d n : ℕ} {va len perm start : Word}

/-- A user program may access `a` with permissions `perm`: the address is below `ULIM`, and the page
table entry is present and has all bits of `perm`. -/
def Accessible (m : Mem) (d : ℕ) (perm a : Word) : Prop :=
  a < ULIM ∧ ∃ pde pte, m.walk d a = some (pde, pte) ∧ pte &&& perm = perm

/-- What a result 0 of `user_mem_check` promises: all bytes of the range, which does not wrap
around, are accessible. -/
def RangeAccessible (m : Mem) (d : ℕ) (va len perm : Word) : Prop :=
  ∀ a, va.toNat ≤ a → a < va.toNat + len.toNat →
    a < ULIM.toNat ∧ Accessible m d perm (BitVec.ofNat 32 a)

/-- The page of `va` passes the tests in the loop. -/
def PagePasses (B : Machine) (m : Mem) (d : ℕ) (perm va : Word) : Prop :=
  ∃ t j, pgdirWalk B m d va false = some (some (t, j), m) ∧ va < ULIM ∧ isSet (m.phys t j) PTE_P ∧
    m.phys t j &&& perm = perm

/-- The number of pages that the loop visits. -/
def checkedPages (va len : Word) : ℕ :=
  ((roundup (va + len) 0x1000).toNat - (rounddown va 0x1000).toNat) / PGSIZE

/-! ## The loop -/

theorem pgdirWalk_false_mem {x : Option (ℕ × ℕ)} {m' : Mem}
    (h : pgdirWalk B m d va false = some (x, m')) : m' = m := by
  simp only [pgdirWalk, Bool.false_eq_true, if_false] at h
  split at h
  · simp only [Option.bind_eq_bind, Option.bind_eq_some_iff] at h
    obtain ⟨holder, -, h⟩ := h
    exact (Prod.mk.inj (Option.some.inj h)).2.symm
  · exact (Prod.mk.inj (Option.some.inj h)).2.symm

/-- The tests find out whether the page is accessible. -/
theorem PagePasses.accessible (h : PagePasses B m d perm va) : Accessible m d perm va := by
  obtain ⟨t, j, hwalk, hlim, hP, hperm⟩ := h
  refine ⟨hlim, m.phys d (pdx va), m.phys t j, ?_, hperm⟩
  simp only [pgdirWalk, Bool.false_eq_true, if_false] at hwalk
  split at hwalk
  swap
  · cases hwalk
  next hpde =>
  simp only [Option.bind_eq_bind, Option.bind_eq_some_iff, kaddr] at hwalk
  obtain ⟨holder, hk, hwalk⟩ := hwalk
  split at hk
  · cases hk
  obtain rfl := Option.some.inj hk
  obtain ⟨rfl, rfl⟩ := Prod.mk.inj (Option.some.inj (Prod.mk.inj (Option.some.inj hwalk)).1)
  simp only [Mem.walk, hpde, not_true_eq_false, if_false]
  exact if_neg (not_not.mpr hP)

/-- The entry of an address is that of its page. -/
theorem Mem.walk_of_page {a : Word} (hpage : pgnum a = pgnum va) : m.walk d a = m.walk d va := by
  rw [pgnum_eq_pdx_ptx, pgnum_eq_pdx_ptx] at hpage
  have ha := ptx_lt a
  have hva := ptx_lt va
  have hpdx : pdx a = pdx va := by omega
  have hptx : ptx a = ptx va := by omega
  rw [Mem.walk, Mem.walk, hpdx, hptx]

theorem Accessible.of_page {a : Word} (h : Accessible m d perm va) (hpage : pgnum a = pgnum va)
    (hlim : a < ULIM) : Accessible m d perm a := by
  obtain ⟨-, pde, pte, hw, hperm⟩ := h
  exact ⟨hlim, pde, pte, (Mem.walk_of_page hpage).trans hw, hperm⟩

/-- The loop returns 0 if the first page passes and the rest of the loop returns 0. -/
theorem userMemCheckLoop_succ : userMemCheckLoop B m d va perm (n + 1) start = some none ↔
    PagePasses B m d perm start ∧
      userMemCheckLoop B m d va perm n (start + 0x1000) = some none := by
  rw [userMemCheckLoop]
  cases hwalk : pgdirWalk B m d start false with
  | none => simp [PagePasses, hwalk]
  | some x =>
      obtain ⟨pp, m'⟩ := x
      obtain rfl := pgdirWalk_false_mem hwalk
      cases pp with
      | none => simp [PagePasses, hwalk]
      | some tj =>
          obtain ⟨t, j⟩ := tj
          have hpass : PagePasses B m' d perm start ↔
              start < ULIM ∧ isSet (m'.phys t j) PTE_P ∧ m'.phys t j &&& perm = perm := by
            simp [PagePasses, hwalk]
          rw [hpass]
          simp only [Option.bind_eq_bind, Option.bind_some, decide_eq_true_eq]
          split
          · next hbad =>
              refine iff_of_false (by simp) fun hc ↦ ?_
              rcases hbad with h | h | h
              · exact absurd hc.1.1 (BitVec.not_lt.mpr h)
              · exact h hc.1.2.1
              · exact h hc.1.2.2
          · next hbad =>
              simp only [not_or, not_not, BitVec.not_le] at hbad
              simp [hbad]

theorem userMemCheckLoop_eq : userMemCheckLoop B m d va perm n start = some none ↔
    ∀ i < n, PagePasses B m d perm (start + BitVec.ofNat 32 (i * 4096)) := by
  induction n generalizing start with
  | zero => simp [userMemCheckLoop]
  | succ n ih =>
      have hnext : ∀ i, start + 0x1000 + BitVec.ofNat 32 (i * 4096) =
          start + BitVec.ofNat 32 ((i + 1) * 4096) := by
        intro i
        rw [show (i + 1) * 4096 = 4096 + i * 4096 by omega, BitVec.ofNat_add, BitVec.add_assoc]
        rfl
      rw [userMemCheckLoop_succ, ih]
      constructor
      · rintro ⟨hfirst, hrest⟩ i hi
        cases i with
        | zero => simpa using hfirst
        | succ i =>
            rw [← hnext]
            exact hrest i (by omega)
      · intro h
        refine ⟨by simpa using h 0 n.succ_pos, fun i hi ↦ ?_⟩
        rw [hnext]
        exact h (i + 1) (by omega)

/-! ## The range -/

theorem roundup_sum_toNat (va len : Word) : (roundup (va + len) 0x1000).toNat =
    (va.toNat + len.toNat + 4095) % 4294967296 / 4096 * 4096 := by
  rw [roundup_toNat, BitVec.toNat_add]
  omega

/-- A result 0 means that all visited pages pass. -/
theorem userMemCheck_eq : userMemCheck B m d va len perm = some none ↔
    ∀ i < checkedPages va len,
      PagePasses B m d perm (rounddown va 0x1000 + BitVec.ofNat 32 (i * 4096)) :=
  userMemCheckLoop_eq

/-- Without wrap-around the loop visits every page of the range. -/
theorem rangeAccessible_of_check (hfit : va.toNat + len.toNat ≤ 4294963200)
    (h : userMemCheck B m d va len perm = some none) : RangeAccessible m d va len perm := by
  intro a hva ha
  have hstart := rounddown_toNat va
  have hend := roundup_sum_toNat va len
  have hva' := va.isLt
  -- the page of `a`
  have hpage := userMemCheck_eq.mp h (a / 4096 - va.toNat / 4096) (by
    rw [checkedPages, hstart, hend, PGSIZE]
    omega)
  have hnum : (rounddown va 0x1000 + BitVec.ofNat 32 ((a / 4096 - va.toNat / 4096) * 4096)).toNat =
      a / 4096 * 4096 := by
    rw [BitVec.toNat_add, hstart, BitVec.toNat_ofNat]
    omega
  have hacc := hpage.accessible
  have hlim : a < ULIM.toNat := by
    have hlt := hacc.1
    rw [BitVec.lt_def, hnum] at hlt
    have hu : ULIM.toNat = 4018143232 := rfl
    omega
  have haw : (BitVec.ofNat 32 a).toNat = a := by
    rw [BitVec.toNat_ofNat]
    omega
  refine ⟨hlim, hacc.of_page ?_ ?_⟩
  · rw [pgnum_eq, pgnum_eq, haw, hnum]
    omega
  · rw [BitVec.lt_def, haw]
    exact hlim

/-- The last byte of a range that reaches the last page is no user address. -/
theorem not_rangeAccessible (hlen : len ≠ 0) (hfit : 4294963200 < va.toNat + len.toNat) :
    ¬ RangeAccessible m d va len perm := by
  intro h
  have hpos : 0 < len.toNat := by
    rw [Nat.pos_iff_ne_zero]
    intro hc
    exact hlen (BitVec.eq_of_toNat_eq hc)
  have hlast := (h (va.toNat + len.toNat - 1) (by omega) (by omega)).1
  have hu : ULIM.toNat = 4018143232 := rfl
  omega

/-- A result 0 of `user_mem_check` is right if and only if the range is empty, or it ends below the
last page of the address space, or one of the pages that are left to check fails the tests. -/
theorem user_mem_check_sound_iff :
    (userMemCheck B m d va len perm = some none → RangeAccessible m d va len perm) ↔
      len = 0 ∨ va.toNat + len.toNat ≤ 4294963200 ∨
      ∃ i < checkedPages va len,
        ¬ PagePasses B m d perm (rounddown va 0x1000 + BitVec.ofNat 32 (i * 4096)) := by
  constructor
  · intro h
    by_contra hc
    simp only [not_or, not_exists, not_and, not_not] at hc
    obtain ⟨hlen, hfit, hpass⟩ := hc
    exact not_rangeAccessible hlen (Nat.lt_of_not_le hfit) (h (userMemCheck_eq.mpr hpass))
  · rintro (rfl | hfit | ⟨i, hi, hfail⟩) hcheck
    · intro a hva ha
      rw [show (0 : Word).toNat = 0 from rfl] at ha
      omega
    · exact rangeAccessible_of_check hfit hcheck
    · exact absurd (userMemCheck_eq.mp hcheck i hi) hfail

/-- The last two bytes of the address space pass the check. -/
theorem user_mem_check_wraps : ∃ s e d, Booted demoConfig s ∧ s.dirs e = some d ∧
    userMemCheck demoConfig.machine s.mem d 0xFFFFFFFE 2 (PTE_U ||| PTE_P) = some none ∧
    ¬ RangeAccessible s.mem d 0xFFFFFFFE 2 (PTE_U ||| PTE_P) := by
  obtain ⟨s, l, el, e₁, e₂, env₁, env₂, d₁, d₂, boot, -, -, -, -, henv, -⟩ := exists_booted
  refine ⟨s, e₁, d₁, boot, ?_, ?_, not_rangeAccessible (by decide) (by decide)⟩
  · rw [Kern.dirs, henv]
    rfl
  · refine userMemCheck_eq.mpr fun i hi ↦ absurd hi ?_
    rw [show checkedPages 0xFFFFFFFE 2 = 0 by decide]
    exact Nat.not_lt_zero i

end Jos
