import Jos.Kern.Ownership
import Jos.Kern.PageOps
import Jos.Kern.UserCheck

/-!
# The check of user memory and the hardware (`user_mem_check`, `env_setup_vm`)

On a range that ends below the last page of the address space, `user_mem_check` finds the first
address that fails its tests.  The tests look at page table entries only.  The hardware also asks
the directory, and agrees, because `pgdir_walk` makes directory entries that allow everything; but
not in the window at `UVPT`, where directory entries are read as page table entries.
-/

namespace Jos

open Jos.Lib

variable {B : Machine} {M : Pool B} {m : Mem} {d n p : ℕ} {va len perm start : Word}

/-- Every page table that a directory refers to is in memory. -/
def TablesInMemory (B : Machine) (m : Mem) (d : ℕ) : Prop :=
  ∀ i < NPDENTRIES, isSet (m.phys d i) PTE_P → frame (m.phys d i) < B.npages

/-- So it is for the environments. -/
theorem Inv.tablesInMemory {s : Kern} {l : List ℕ} {el : List Slot} (h : Inv B M s l el) {e : Slot}
    (hd : s.dirs e = some d) : TablesInMemory B s.mem d := by
  intro i hi hP
  obtain ⟨k, hk⟩ := h.target_of_pdeAt hi ⟨d, hd, entryFrame_of_isSet hP⟩
  exact M.lt _ (h.own.valid k _ hk)

/-! ## The loop -/

/-- Whether an address is accessible depends on its page. -/
theorem accessible_rounddown (a : Word) :
    Accessible m d perm (rounddown a 0x1000) ↔ Accessible m d perm a := by
  have hnum : pgnum (rounddown a 0x1000) = pgnum a := by
    rw [pgnum_eq, pgnum_eq, rounddown_toNat]
    omega
  have hlim : rounddown a 0x1000 < ULIM ↔ a < ULIM := by
    rw [BitVec.lt_def, BitVec.lt_def, rounddown_toNat, show ULIM.toNat = 4018143232 from rfl]
    omega
  exact ⟨fun h ↦ h.of_page hnum.symm (hlim.mp h.1), fun h ↦ h.of_page hnum (hlim.mpr h.1)⟩

theorem accessible_page (a : Word) :
    Accessible m d perm (BitVec.ofNat 32 (a.toNat / 4096 * 4096)) ↔ Accessible m d perm a := by
  have hpage : BitVec.ofNat 32 (a.toNat / 4096 * 4096) = rounddown a 0x1000 := by
    refine BitVec.eq_of_toNat_eq ?_
    have := a.isLt
    rw [rounddown_toNat, BitVec.toNat_ofNat]
    omega
  rw [hpage, accessible_rounddown]

section

variable (ht : TablesInMemory B m d)

include ht

theorem TablesInMemory.pgdirWalk (va : Word) : pgdirWalk B m d va false =
    some (if isSet (m.phys d (pdx va)) PTE_P then some (frame (m.phys d (pdx va)), ptx va)
      else none, m) := by
  rw [Jos.pgdirWalk]
  by_cases hP : isSet (m.phys d (pdx va)) PTE_P
  · have hlt := ht (pdx va) (pdx_lt va) hP
    have hk : kaddr B (pteAddr (m.phys d (pdx va))) = some (frame (m.phys d (pdx va))) :=
      if_neg (Nat.not_le.mpr hlt)
    simp [hP, hk]
  · simp [hP]

/-- The tests decide whether the page is accessible. -/
theorem TablesInMemory.passes_iff : PagePasses B m d perm va ↔ Accessible m d perm va := by
  refine ⟨PagePasses.accessible, fun ⟨hlim, pde, pte, hw, hperm⟩ ↦ ?_⟩
  simp only [Mem.walk] at hw
  split at hw
  · cases hw
  next hP =>
  split at hw
  · cases hw
  next hP' =>
  obtain ⟨rfl, rfl⟩ := Prod.mk.inj (Option.some.inj hw)
  exact ⟨_, _, by rw [ht.pgdirWalk, if_pos (not_not.mp hP)], hlim, not_not.mp hP', hperm⟩

/-- A round of the loop. -/
theorem TablesInMemory.loop_succ : userMemCheckLoop B m d va perm (n + 1) start =
    if ULIM ≤ start ∨ m.walk d start = none ∨
        ∃ pde pte, m.walk d start = some (pde, pte) ∧ pte &&& perm ≠ perm then
      some (some (if start < va then va else start))
    else userMemCheckLoop B m d va perm n (start + 0x1000) := by
  rw [userMemCheckLoop, ht.pgdirWalk]
  by_cases hP : isSet (m.phys d (pdx start)) PTE_P
  · by_cases hP' : isSet (m.phys (frame (m.phys d (pdx start))) (ptx start)) PTE_P
    · simp [Mem.walk, hP, hP']
    · simp [Mem.walk, hP, hP']
  · simp [Mem.walk, hP]

theorem TablesInMemory.loop_pass (hacc : Accessible m d perm start) :
    userMemCheckLoop B m d va perm (n + 1) start =
      userMemCheckLoop B m d va perm n (start + 0x1000) := by
  obtain ⟨hlim, pde, pte, hw, hperm⟩ := hacc
  rw [ht.loop_succ, if_neg]
  rintro (hge | hnone | ⟨pde', pte', hw', hperm'⟩)
  · exact absurd hlim (BitVec.not_lt.mpr hge)
  · rw [hw] at hnone
    cases hnone
  · obtain ⟨rfl, rfl⟩ := Prod.mk.inj (Option.some.inj (hw.symm.trans hw'))
    exact hperm' hperm

theorem TablesInMemory.loop_fault (hacc : ¬ Accessible m d perm start) :
    userMemCheckLoop B m d va perm (n + 1) start =
      some (some (if start < va then va else start)) := by
  rw [ht.loop_succ, if_pos]
  by_contra hc
  simp only [not_or, not_exists, not_and, not_not, BitVec.not_le] at hc
  obtain ⟨hlim, hsome, hperm⟩ := hc
  obtain ⟨⟨pde, pte⟩, hw⟩ := Option.ne_none_iff_exists'.mp hsome
  exact hacc ⟨hlim, pde, pte, hw, hperm pde pte hw⟩

/-- The loop comes to an end. -/
theorem TablesInMemory.exists_loop (n : ℕ) (start : Word) :
    ∃ r, userMemCheckLoop B m d va perm n start = some r := by
  induction n generalizing start with
  | zero => exact ⟨none, rfl⟩
  | succ n ih =>
      rw [ht.loop_succ]
      split
      · exact ⟨_, rfl⟩
      · exact ih _

/-- The loop over `n` pages from page number `p` on ends at the first page that fails. -/
theorem TablesInMemory.loop_exact (va perm : Word) (hstart : start.toNat = p * 4096)
    (hfit : p + n < 1048576) :
    (userMemCheckLoop B m d va perm n start = some none ∧
      ∀ q, p ≤ q → q < p + n → Accessible m d perm (BitVec.ofNat 32 (q * 4096))) ∨
    ∃ q a, p ≤ q ∧ q < p + n ∧ userMemCheckLoop B m d va perm n start = some (some a) ∧
      a.toNat = max va.toNat (q * 4096) ∧ ¬ Accessible m d perm (BitVec.ofNat 32 (q * 4096)) ∧
      ∀ q', p ≤ q' → q' < q → Accessible m d perm (BitVec.ofNat 32 (q' * 4096)) := by
  induction n generalizing start p with
  | zero => exact .inl ⟨rfl, fun q h1 h2 ↦ by omega⟩
  | succ n ih =>
      have hpage : start = BitVec.ofNat 32 (p * 4096) := by
        refine BitVec.eq_of_toNat_eq ?_
        rw [hstart, BitVec.toNat_ofNat]
        omega
      by_cases hacc : Accessible m d perm start
      · have hnext : (start + 0x1000).toNat = (p + 1) * 4096 := by
          rw [BitVec.toNat_add, hstart, show (0x1000 : Word).toNat = 4096 from rfl]
          omega
        have hfirst : ∀ q, p ≤ q → q < p + 1 → Accessible m d perm
            (BitVec.ofNat 32 (q * 4096)) := by
          intro q h1 h2
          obtain rfl : q = p := by omega
          exact hpage ▸ hacc
        rw [ht.loop_pass hacc]
        rcases ih hnext (by omega) with ⟨hrun, hall⟩ | ⟨q, a, h1, h2, hrun, ha, hbad, hall⟩
        · refine .inl ⟨hrun, fun q h1 h2 ↦ ?_⟩
          rcases Nat.lt_or_ge q (p + 1) with hq | hq
          · exact hfirst q h1 hq
          · exact hall q hq (by omega)
        · refine .inr ⟨q, a, by omega, by omega, hrun, ha, hbad, fun q' h1' h2' ↦ ?_⟩
          rcases Nat.lt_or_ge q' (p + 1) with hq | hq
          · exact hfirst q' h1' hq
          · exact hall q' hq h2'
      · refine .inr ⟨p, _, le_rfl, by omega, ht.loop_fault hacc, ?_, hpage ▸ hacc,
          fun q' h1 h2 ↦ by omega⟩
        split
        · next hlt =>
            rw [BitVec.lt_def] at hlt
            omega
        · next hge =>
            rw [BitVec.not_lt, BitVec.le_def] at hge
            omega

/-! ## The range -/

/-- On a range that ends below the last page of the address space, `user_mem_check` returns 0 if and
only if all addresses are accessible, and otherwise reports the first that is not. -/
theorem user_mem_check_exact (hlen : len ≠ 0) (hfit : va.toNat + len.toNat ≤ 4294963200) :
    ∃ r, userMemCheck B m d va len perm = some r ∧
      (r = none ↔ RangeAccessible m d va len perm) ∧
      ∀ f, r = some f → va ≤ f ∧ f.toNat < va.toNat + len.toNat ∧ ¬ Accessible m d perm f ∧
        ∀ a, va ≤ a → a < f → Accessible m d perm a := by
  have hstart := rounddown_toNat va
  have hend := roundup_sum_toNat va len
  have hva := va.isLt
  have hpos : 0 < len.toNat := Nat.pos_of_ne_zero fun hc ↦ hlen (BitVec.eq_of_toNat_eq hc)
  have hlast : va.toNat / 4096 + checkedPages va len = (va.toNat + len.toNat + 4095) / 4096 := by
    rw [checkedPages, hstart, hend, PGSIZE]
    omega
  -- the bytes of the range are in the pages that the loop visits
  have hbyte : ∀ a : Word, va ≤ a → a.toNat < va.toNat + len.toNat → ∀ {q},
      (∀ q', va.toNat / 4096 ≤ q' → q' < q → Accessible m d perm (BitVec.ofNat 32 (q' * 4096))) →
      a.toNat / 4096 < q → Accessible m d perm a := by
    intro a h1 h2 q hall hq
    rw [BitVec.le_def] at h1
    exact (accessible_page a).mp (hall _ (by omega) hq)
  rcases ht.loop_exact va perm hstart (n := checkedPages va len) (by omega) with
    ⟨hrun, hall⟩ | ⟨q, f, h1, h2, hrun, hf, hbad, hall⟩
  · refine ⟨none, hrun, ⟨fun _ a ha ha' ↦ ?_, fun _ ↦ rfl⟩,
      fun f hf ↦ absurd hf.symm (Option.some_ne_none f)⟩
    have haw : (BitVec.ofNat 32 a).toNat = a := by
      rw [BitVec.toNat_ofNat]
      omega
    have hacc : Accessible m d perm (BitVec.ofNat 32 a) :=
      hbyte _ (by rw [BitVec.le_def, haw]; exact ha) (by rw [haw]; exact ha') hall
        (by rw [haw]; omega)
    have hlim := hacc.1
    rw [BitVec.lt_def, haw] at hlim
    exact ⟨hlim, hacc⟩
  · have hfva : va ≤ f := by
      rw [BitVec.le_def]
      omega
    have hfend : f.toNat < va.toNat + len.toNat := by omega
    have hfq : f.toNat / 4096 = q := by omega
    have hnot : ¬ Accessible m d perm f := by
      rw [← accessible_page, hfq]
      exact hbad
    refine ⟨some f, hrun, iff_of_false (Option.some_ne_none f) fun hacc ↦ hnot ?_, fun f' hf' ↦ ?_⟩
    · have := (hacc f.toNat hfva hfend).2
      rwa [BitVec.ofNat_toNat, BitVec.setWidth_eq] at this
    · obtain rfl := Option.some.inj hf'
      refine ⟨hfva, hfend, hnot, fun a ha haf ↦ ?_⟩
      rw [BitVec.lt_def] at haf
      have hva' := BitVec.le_def.mp ha
      exact hbyte a ha (by omega) hall (by omega)

/-- A range in one page. -/
theorem TablesInMemory.check_page (hva : va < ULIM) (hlen : 0 < len.toNat)
    (hone : va.toNat % 4096 + len.toNat ≤ 4096) :
    userMemCheck B m d va len perm = some none ↔ Accessible m d perm va := by
  have hpages : checkedPages va len = 1 := by
    rw [BitVec.lt_def, show ULIM.toNat = 4018143232 from rfl] at hva
    rw [checkedPages, rounddown_toNat, roundup_sum_toNat, PGSIZE]
    omega
  have hzero : rounddown va 0x1000 + BitVec.ofNat 32 (0 * 4096) = rounddown va 0x1000 :=
    BitVec.add_zero _
  rw [userMemCheck_eq, hpages]
  constructor
  · intro h
    have hpass := h 0 Nat.one_pos
    rw [hzero] at hpass
    exact (accessible_rounddown va).mp (ht.passes_iff.mp hpass)
  · intro hacc i hi
    obtain rfl := Nat.lt_one_iff.mp hi
    rw [hzero]
    exact ht.passes_iff.mpr ((accessible_rounddown va).mpr hacc)

end

theorem user_mem_check_exact_demo : ∃ s e d, Booted demoConfig s ∧ s.dirs e = some d ∧
    ∃ r, userMemCheck demoConfig.machine s.mem d 0 1 PTE_U = some r ∧
      (r = none ↔ RangeAccessible s.mem d 0 1 PTE_U) ∧
      ∀ f, r = some f → 0 ≤ f ∧ f.toNat < (0 : Word).toNat + (1 : Word).toNat ∧
        ¬ Accessible s.mem d PTE_U f ∧ ∀ a, 0 ≤ a → a < f → Accessible s.mem d PTE_U a := by
  obtain ⟨s, l, el, e₁, e₂, env₁, env₂, d₁, d₂, boot, hb, -, -, -, henv, -⟩ := exists_booted
  have hd : s.dirs e₁ = some d₁ := by
    rw [Kern.dirs, henv]
    rfl
  exact ⟨s, e₁, d₁, boot, hd, user_mem_check_exact (hb.inv.tablesInMemory hd) (by decide)
    (by decide)⟩

/-! ## The hardware -/

/-- The hardware grants an access with the permissions `perm`. -/
def HardwareAllows (m : Mem) (d : ℕ) (perm va : Word) : Prop :=
  m.UserReadable d va ∧ (isSet perm PTE_W → m.UserWritable d va)

/-- `perm` has no other bits than these, and `PTE_U`. -/
def AccessPerm (perm : Word) : Prop :=
  isSet perm PTE_U ∧ perm &&& (PTE_U ||| PTE_W ||| PTE_P) = perm

/-- The test of the permissions, for an entry that is present. -/
theorem AccessPerm.test (h : AccessPerm perm) {pte : Word} (hP : isSet pte PTE_P) :
    pte &&& perm = perm ↔ isSet pte PTE_U ∧ (isSet perm PTE_W → isSet pte PTE_W) := by
  obtain ⟨hU, hbits⟩ := h
  rw [isSet_P] at hP
  rw [isSet_U] at hU
  rw [isSet_U, isSet_W, isSet_W]
  constructor
  · intro htest
    have hbit : ∀ i, perm.getLsbD i = true → pte.getLsbD i = true := by
      intro i hi
      rw [← htest, BitVec.getLsbD_and, Bool.and_eq_true] at hi
      exact hi.1
    exact ⟨hbit 2 hU, hbit 1⟩
  · rintro ⟨hU', hW'⟩
    refine BitVec.eq_of_getLsbD_eq fun i _ ↦ ?_
    rw [BitVec.getLsbD_and, Bool.and_eq_right_iff_imp]
    intro hi
    have hmask : (PTE_U ||| PTE_W ||| PTE_P).getLsbD i = true := by
      rw [← hbits, BitVec.getLsbD_and, Bool.and_eq_true] at hi
      exact hi.2
    rcases i with _ | _ | _ | i
    · exact hP
    · exact hW' hi
    · exact hU'
    · have hlt : 7 < 2 ^ (i + 3) :=
        (by decide : 7 < 2 ^ 3).trans_le (Nat.pow_le_pow_right (by decide) (Nat.le_add_left 3 i))
      have hhigh : (PTE_U ||| PTE_W ||| PTE_P).getLsbD (i + 3) = false :=
        Nat.testBit_lt_two_pow hlt
      cases hhigh.symm.trans hmask

/-- What `user_mem_check` finds out about a page, entry by entry. -/
theorem accessible_iff_walk (h : AccessPerm perm) (hlim : va < ULIM) :
    Accessible m d perm va ↔ ∃ pde pte, m.walk d va = some (pde, pte) ∧ isSet pte PTE_U ∧
      (isSet perm PTE_W → isSet pte PTE_W) := by
  constructor
  · rintro ⟨-, pde, pte, hw, hperm⟩
    exact ⟨pde, pte, hw, (h.test (Mem.walk_eq_some.mp hw).2.2).mp hperm⟩
  · rintro ⟨pde, pte, hw, hperm⟩
    exact ⟨hlim, pde, pte, hw, (h.test (Mem.walk_eq_some.mp hw).2.2).mpr hperm⟩

/-- The hardware asks the directory entry, too. -/
theorem hardwareAllows_iff_walk : HardwareAllows m d perm va ↔
    ∃ pde pte, m.walk d va = some (pde, pte) ∧ (isSet pte PTE_U ∧
      (isSet perm PTE_W → isSet pte PTE_W)) ∧ isSet pde PTE_U ∧ (isSet perm PTE_W → isSet pde PTE_W)
    := by
  constructor
  · rintro ⟨⟨pde, pte, hw, hU, hU'⟩, hwrite⟩
    refine ⟨pde, pte, hw, ⟨hU', fun hW ↦ ?_⟩, hU, fun hW ↦ ?_⟩
    all_goals
      obtain ⟨pde', pte', hw', -, hW₁, hW₂⟩ := hwrite hW
      obtain ⟨rfl, rfl⟩ := Prod.mk.inj (Option.some.inj (hw.symm.trans hw'))
      assumption
  · rintro ⟨pde, pte, hw, ⟨hU', hW'⟩, hU, hW⟩
    exact ⟨⟨pde, pte, hw, hU, hU'⟩, fun hp ↦ ⟨pde, pte, hw, ⟨hU, hU'⟩, hW hp, hW' hp⟩⟩

/-- Where the directory entry is open, the two agree. -/
theorem accessible_iff_of_openPde (h : AccessPerm perm) (hlim : va < ULIM)
    (hopen : OpenPde (m.phys d (pdx va))) : Accessible m d perm va ↔
      HardwareAllows m d perm va := by
  rw [accessible_iff_walk h hlim, hardwareAllows_iff_walk]
  refine exists_congr fun pde ↦ exists_congr fun pte ↦ and_congr_right fun hw ↦ ?_
  obtain ⟨⟨rfl, hP⟩, -⟩ := Mem.walk_eq_some.mp hw
  exact (and_iff_left ⟨(hopen hP).1, fun _ ↦ (hopen hP).2⟩).symm

/-- In the window at `UVPT` the directory entry does not allow writing, and directory entries are
read as page table entries. -/
theorem accessible_iff_window (h : AccessPerm perm) (hlim : va < ULIM)
    (hent : m.phys d (pdx UVPT) = uvptEntry d) (hd : d < 2 ^ 20) (hwin : pdx va = pdx UVPT)
    (hopen : ptx va ≠ pdx UVPT → OpenPde (m.phys d (ptx va))) :
    (Accessible m d perm va ↔ HardwareAllows m d perm va) ↔
      ¬ (isSet perm PTE_W ∧ ptx va ≠ pdx UVPT ∧ isSet (m.phys d (ptx va)) PTE_P) := by
  have hP : isSet (uvptEntry d) PTE_P := (isSet_of_entryFrame (entryFrame_uvptEntry hd)).1
  have hfr : frame (uvptEntry d) = d := (isSet_of_entryFrame (entryFrame_uvptEntry hd)).2
  have hU : isSet (uvptEntry d) PTE_U := by
    rw [isSet_U]
    simp [uvptEntry, PTE_U]
  have hW : ¬ isSet (uvptEntry d) PTE_W := by
    rw [isSet_W]
    simp [uvptEntry, page2pa, PTE_P, PTE_U]
  -- the walk ends at the directory entry
  have hwalk : ∀ pde pte, m.walk d va = some (pde, pte) ↔
      pde = uvptEntry d ∧ pte = m.phys d (ptx va) ∧ isSet (m.phys d (ptx va)) PTE_P := by
    intro pde pte
    rw [Mem.walk_eq_some, hwin, hent]
    constructor
    · rintro ⟨⟨rfl, -⟩, rfl, hp⟩
      rw [hfr] at hp ⊢
      exact ⟨rfl, rfl, hp⟩
    · rintro ⟨rfl, rfl, hp⟩
      rw [hfr]
      exact ⟨⟨rfl, hP⟩, rfl, hp⟩
  have hsoft : Accessible m d perm va ↔ isSet (m.phys d (ptx va)) PTE_P ∧
      isSet (m.phys d (ptx va)) PTE_U ∧ (isSet perm PTE_W → isSet (m.phys d (ptx va)) PTE_W) := by
    rw [accessible_iff_walk h hlim]
    constructor
    · rintro ⟨pde, pte, hw, hperm⟩
      obtain ⟨-, rfl, hp⟩ := (hwalk pde pte).mp hw
      exact ⟨hp, hperm⟩
    · rintro ⟨hp, hperm⟩
      exact ⟨_, _, (hwalk _ _).mpr ⟨rfl, rfl, hp⟩, hperm⟩
  have hhard : HardwareAllows m d perm va ↔ isSet (m.phys d (ptx va)) PTE_P ∧
      isSet (m.phys d (ptx va)) PTE_U ∧ ¬ isSet perm PTE_W := by
    rw [hardwareAllows_iff_walk]
    constructor
    · rintro ⟨pde, pte, hw, hperm, -, hpde⟩
      obtain ⟨rfl, rfl, hp⟩ := (hwalk pde pte).mp hw
      exact ⟨hp, hperm.1, fun hc ↦ hW (hpde hc)⟩
    · rintro ⟨hp, hpteU, hno⟩
      exact ⟨_, _, (hwalk _ _).mpr ⟨rfl, rfl, hp⟩, ⟨hpteU, fun hc ↦ absurd hc hno⟩, hU,
        fun hc ↦ absurd hc hno⟩
  rw [hsoft, hhard]
  by_cases hself : ptx va = pdx UVPT
  · rw [hself, hent]
    simp [hP, hU, hW]
  · by_cases hp : isSet (m.phys d (ptx va)) PTE_P
    · obtain ⟨hpU, hpW⟩ := hopen hself hp
      simp [hp, hpU, hpW, hself]
    · simp [hp]

/-- A directory that is in order: the tables are in memory, the kernel's half is that of
`kern_pgdir`, and the entries leave the permissions to the tables. -/
structure Built (B : Machine) (m : Mem) (d : ℕ) : Prop where
  tables : TablesInMemory B m d
  half : KernHalf B m d
  lt : d < 2 ^ 20
  kern : KOpen B m
  user : ∀ i < NUPDE, OpenPde (m.phys d i)

namespace Built

variable (hb : Built B m d)

include hb

theorem openPde {i : ℕ} (hi : i < NPDENTRIES) (hne : i ≠ pdx UVPT) : OpenPde (m.phys d i) := by
  rcases Nat.lt_or_ge i NUPDE with hlt | hge
  · exact hb.user i hlt
  · rw [hb.half i hge hi, if_neg hne]
    exact hb.kern i hge hi hne

theorem window : m.phys d (pdx UVPT) = uvptEntry d := by
  rw [hb.half (pdx UVPT) (by decide) (by decide), if_pos rfl]

/-- The check of a page and the hardware. -/
theorem check_agrees_iff (h : AccessPerm perm) (hlim : va < ULIM) (hlen : 0 < len.toNat)
    (hone : va.toNat % 4096 + len.toNat ≤ 4096) :
    (userMemCheck B m d va len perm = some none ↔ HardwareAllows m d perm va) ↔
      ¬ (isSet perm PTE_W ∧ pdx va = pdx UVPT ∧ ptx va ≠ pdx UVPT ∧
        isSet (m.phys d (ptx va)) PTE_P) := by
  rw [hb.tables.check_page hlim hlen hone]
  by_cases hwin : pdx va = pdx UVPT
  · rw [accessible_iff_window h hlim hb.window hb.lt hwin fun hne ↦ hb.openPde (ptx_lt va) hne]
    simp [hwin]
  · refine iff_of_true (accessible_iff_of_openPde h hlim (hb.openPde (pdx_lt va) hwin)) ?_
    rintro ⟨-, hc, -⟩
    exact hwin hc

/-- The window is not writable. -/
theorem not_hardwareAllows (hwin : pdx va = pdx UVPT) (hW : isSet perm PTE_W) :
    ¬ HardwareAllows m d perm va := by
  rintro ⟨-, hwrite⟩
  obtain ⟨pde, pte, hw, -, hpde, -⟩ := hwrite hW
  obtain ⟨⟨rfl, -⟩, -⟩ := Mem.walk_eq_some.mp hw
  rw [hwin, hb.window, isSet_W] at hpde
  simp [uvptEntry, page2pa, PTE_P, PTE_U] at hpde

end Built

theorem Penned.tablesInMemory {dirs : Slot → Option ℕ} {e : Slot} (h : Penned M m dirs)
    (hd : dirs e = some d) (half : KernHalf B m d)
    (hk : ∀ i t, NUPDE ≤ i → i < NPDENTRIES → i ≠ pdx UVPT → tableOf m B.kernPgdir i = some t →
      t ∈ M.carrier) : TablesInMemory B m d := by
  intro i hi hP
  have ht := entryFrame_of_isSet hP
  rcases Nat.lt_or_ge i NUPDE with hlt | hge
  · exact M.lt _ (h.table e d i _ hd hlt ht).1
  · rcases half.tableOf_cases (M.lt_two_pow (h.dir e d hd)) hge hi ht with hself | ⟨hu, hkern⟩
    · rw [hself]
      exact M.lt d (h.dir e d hd)
    · exact M.lt _ (hk i _ hge hi hu hkern)

section

variable {cfg : BootConfig} {s₀ s : Kern} {e : Slot} {m' : Mem} (boot : Booted cfg s₀)
  (run : Run cfg.machine (Kern.Bounded cfg.machine) s₀ s) (free : s.dirs e = none)
  (setup : envSetupVm cfg.machine s.mem = some (.ok d, m))
  (ops : PageOps cfg.pool (Function.update s.dirs e (some d)) m m')

include boot run free setup ops

/-- What `env_setup_vm` builds is in order, and stays so. -/
theorem built_of_pageOps : Built cfg.machine m' d := by
  obtain ⟨hinv, hb⟩ := boot.runInv
  obtain ⟨⟨l, el, h⟩, -⟩ := run.runInv (fun _ hs ↦ hs) hinv hb
  have hopen := run.pdesOpen (fun _ hs ↦ hs) hinv hb boot.pdesOpen
  rcases h.inv.own.envSetupVm_spec free with ⟨-, hfail⟩ | ⟨p, l', m₁, hl, hset, hown, hsu, -⟩
  · cases hfail.symm.trans setup
  obtain ⟨hp, rfl⟩ := Prod.mk.inj (Option.some.inj (hset.symm.trans setup))
  obtain rfl : p = d := Except.ok.inj hp
  have hd : Function.update s.dirs e (some p) e = some p := Function.update_self ..
  obtain ⟨hpen, hkept⟩ := ops.kept hown.penned
  have half : KernHalf cfg.machine m' p :=
    hsu.half.of_upper hkept.kern fun i hi ↦ hkept.upper e p i hd hi
  refine ⟨hpen.tablesInMemory hd half fun i t h1 h2 h3 ht ↦ ?_, half,
    cfg.pool.lt_two_pow (hown.dir_mem hd), fun i h1 h2 h3 ↦ ?_, fun i hi ↦ ?_⟩
  · rw [tableOf, hkept.kern] at ht
    exact hown.valid _ t (target_kern h1 h2 h3 ht)
  · rw [hkept.kern, hsu.other _ (hown.dir_ne_kern hd)]
    exact hopen.kern i h1 h2 h3
  · rcases hkept.lower e p i hd hi with heq | ho
    · rw [heq, hsu.empty i hi]
      exact openPde_zero
    · exact ho

/-- In a directory that `env_setup_vm` built and any calls of `page_insert` and `page_remove`
changed, the check of a page agrees with the hardware, but for writing in the window at `UVPT`:
there every page table that is present passes, though the hardware lets no user write to it. -/
theorem user_mem_check_hardware_iff (hperm : AccessPerm perm) (hlim : va < ULIM)
    (hlen : 0 < len.toNat) (hone : va.toNat % 4096 + len.toNat ≤ 4096) :
    (userMemCheck cfg.machine m' d va len perm = some none ↔ HardwareAllows m' d perm va) ↔
      ¬ (isSet perm PTE_W ∧ pdx va = pdx UVPT ∧ ptx va ≠ pdx UVPT ∧
        isSet (m'.phys d (ptx va)) PTE_P) :=
  (built_of_pageOps boot run free setup ops).check_agrees_iff hperm hlim hlen hone

end

/-- A new directory is another page than those that are mapped. -/
theorem Unstructured.newDir {dirs : Slot → Option ℕ} {e : Slot} {p : ℕ} {m₁ : Mem}
    (h : Unstructured B m dirs p) (htar : target B m₁ (Function.update dirs e (some d)) =
      Function.update (target B m dirs) (.dir e) (some d)) (hne : p ≠ d) :
    Unstructured B m₁ (Function.update dirs e (some d)) p := by
  intro k hk hp
  rw [htar] at hp
  by_cases hke : k = .dir e
  · rw [hke, Function.update_self] at hp
    exact hne (Option.some.inj hp).symm
  · rw [Function.update_of_ne hke] at hp
    exact h k hk hp

/-- A new address space with one page, mapped at 0. -/
theorem exists_fresh_page : ∃ s e d m m', Booted demoConfig s ∧ s.dirs e = none ∧
    envSetupVm demoConfig.machine s.mem = some (.ok d, m) ∧
    PageOps demoConfig.pool (Function.update s.dirs e (some d)) m m' ∧
    isSet (m'.phys d 0) PTE_P := by
  obtain ⟨s, l, el, e₁, e₂, env₁, env₂, d₁, d₂, boot, hb, hlen, -, -, henv₁, -, henv₂, hfree,
    hs₁, -⟩ :=
    exists_booted
  obtain ⟨e, he₁, he₂⟩ := exists_slot_ne e₁ e₂
  have free : s.dirs e = none := if_pos (hfree e he₁ he₂).1
  rcases hb.inv.own.envSetupVm_spec free with ⟨rfl, -⟩ | ⟨d, l', m, rfl, setup, hown, hsu, htar⟩
  · simp at hlen
  have hd : Function.update s.dirs e (some d) e = some d := Function.update_self ..
  -- the page of the stack of the first environment
  obtain ⟨pp, hstack⟩ := hs₁
  obtain ⟨hppM, hppl, hppu⟩ := hb.inv.mapped ((hstack _).trans (if_pos rfl))
  have hppd : pp ≠ d := by
    rintro rfl
    exact hppl List.mem_cons_self
  have hunstr := hppu.newDir htar hppd
  have hcommon : pp ∈ Common demoConfig.pool (Function.update s.dirs e (some d)) :=
    ⟨hppM, fun e' he' ↦ hunstr.ne_dir he' rfl⟩
  have hva : (0 : Word) < UTOP := by decide
  have hnone : tableOf m d 0 = none := by
    rw [tableOf, hsu.empty 0 (by decide)]
    exact entryFrame_zero
  have hunmapped : target demoConfig.machine m (Function.update s.dirs e (some d))
      (.page e (upn hva)) = none := by
    rw [upn, target_page hd, pteOf_of_no_table hnone]
    exact entryFrame_zero
  rcases hown.pageInsert_spec hd hva hppM (fun hc ↦ hppl (List.mem_cons_of_mem d hc)) hunstr
    (show (PTE_U ||| PTE_W : Word).toNat < 4096 by decide) (fun q hq ↦ by
      cases hunmapped.symm.trans hq) with ⟨-, rfl, -⟩ | ⟨m', l'', hins, -, hre, -⟩
  · simp at hlen
  · have hexec : (MapOp.insert e pp 0 (PTE_U ||| PTE_W)).exec demoConfig.machine
        (Function.update s.dirs e (some d)) m = some (.code 0, m') := by
      simp only [MapOp.exec, hd, Option.bind_eq_bind, Option.bind_some]
      rw [hins]
      rfl
    refine ⟨s, e, d, m, m', boot, free, setup,
      .single ⟨.insert e pp 0 (PTE_U ||| PTE_W), _, ⟨hva, by decide, hcommon⟩, hexec⟩, ?_⟩
    have htr := hre.translate e d 0 hd (by decide)
    rw [if_pos ⟨rfl, rfl⟩] at htr
    by_contra hP
    have hno : tableOf m' d (0 / 1024) = none := tableOf_eq_none.mpr hP
    rw [translate, pteOf_of_no_table hno] at htr
    cases htr.symm.trans entry_zero

/-- A page table passes the check for writing. -/
theorem user_mem_check_window : ∃ s e d m m', Booted demoConfig s ∧ s.dirs e = none ∧
    envSetupVm demoConfig.machine s.mem = some (.ok d, m) ∧
    PageOps demoConfig.pool (Function.update s.dirs e (some d)) m m' ∧
    userMemCheck demoConfig.machine m' d UVPT 0x1000 (PTE_U ||| PTE_W) = some none ∧
    ¬ HardwareAllows m' d (PTE_U ||| PTE_W) UVPT := by
  obtain ⟨s, e, d, m, m', boot, free, setup, ops, hP⟩ := exists_fresh_page
  have hb := built_of_pageOps boot .refl free setup ops
  have hno : ¬ HardwareAllows m' d (PTE_U ||| PTE_W) UVPT := hb.not_hardwareAllows rfl (by decide)
  refine ⟨s, e, d, m, m', boot, free, setup, ops, ?_, hno⟩
  by_contra hcheck
  have hperm : AccessPerm (PTE_U ||| PTE_W) := ⟨by decide, by decide⟩
  have hagree := hb.check_agrees_iff hperm (show UVPT < ULIM by decide)
    (show 0 < (0x1000 : Word).toNat by decide) (by decide)
  exact hagree.mp (iff_of_false hcheck hno) ⟨by decide, rfl, by decide, hP⟩

theorem user_mem_check_hardware_iff_demo : ∃ s e d m m', Booted demoConfig s ∧ s.dirs e = none ∧
    envSetupVm demoConfig.machine s.mem = some (.ok d, m) ∧
    PageOps demoConfig.pool (Function.update s.dirs e (some d)) m m' ∧
    ((userMemCheck demoConfig.machine m' d 0 0x1000 (PTE_U ||| PTE_W) = some none ↔
        HardwareAllows m' d (PTE_U ||| PTE_W) 0) ↔
      ¬ (isSet (PTE_U ||| PTE_W) PTE_W ∧ pdx 0 = pdx UVPT ∧ ptx 0 ≠ pdx UVPT ∧
        isSet (m'.phys d (ptx 0)) PTE_P)) := by
  obtain ⟨s, e, d, m, m', boot, free, setup, ops, -⟩ := exists_fresh_page
  exact ⟨s, e, d, m, m', boot, free, setup, ops, user_mem_check_hardware_iff boot .refl free setup
    ops ⟨by decide, by decide⟩ (by decide) (by decide) (by decide)⟩

end Jos
