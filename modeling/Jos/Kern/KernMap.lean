import Jos.Kern.BootSpec

/-!
# What the kernel's page tables say

The entries of `kern_pgdir` are a function of the page number.  `boot_map_region` lays entries over
it, and changes no other: a new table is empty, and no table is behind two directory entries.
-/

namespace Jos

open Jos.Lib

/-- The physical address that the hardware finds for `va`. -/
def Mem.va2pa (m : Mem) (d : ℕ) (va : Word) : Option Word :=
  (m.walk d va).map fun w ↦ pteAddr w.2 + pgoff va

/-- A page of the kernel's half, but for the window at `UVPT`. -/
structure KernPage (v : ℕ) : Prop where
  ge : NUPDE ≤ v / 1024
  lt : v < 1048576
  ne : v / 1024 ≠ pdx UVPT

/-- From `m` to `m'` the entries `g` were laid over those of `kern_pgdir`. -/
structure Laid (B : Machine) (m m' : Mem) (g : ℕ → Option Word) : Prop where
  entry : ∀ v, KernPage v → pteOf m' B.kernPgdir v = (g v).getD (pteOf m B.kernPgdir v)
  other : ∀ i, i < NUPDE ∨ i = pdx UVPT → m'.phys B.kernPgdir i = m.phys B.kernPgdir i
  grows : Grows B m m'

/-- The entries of `boot_map_region`. -/
def regionEntries (va pa perm : Word) (n v : ℕ) : Option Word :=
  if pgnum va ≤ v ∧ v < pgnum va + n then
    some (pteAddr (pa + BitVec.ofNat 32 ((v - pgnum va) * 4096)) ||| perm ||| PTE_P)
  else none

variable {B : Machine} {M : Pool B} {m m' m'' : Mem} {l : List ℕ} {d v n t : ℕ} {va pa perm : Word}
  {g g' : ℕ → Option Word}

/-! ## Reading the entries -/

theorem Mem.walk_eq_pteOf (m : Mem) (d : ℕ) (va : Word) : m.walk d va =
    if isSet (pteOf m d (pgnum va)) PTE_P then
      some (m.phys d (pdx va), pteOf m d (pgnum va)) else none := by
  cases ht : tableOf m d (pdx va) with
  | none =>
      rw [pteOf_of_no_table (by rwa [pgnum_div]), walk,
        if_neg (show ¬ isSet 0 PTE_P from not_isSet_zero _)]
      simp [entryFrame_eq_none.mp ht]
  | some t =>
      obtain ⟨hP, rfl⟩ := isSet_of_entryFrame ht
      rw [pteOf_of_table (by rwa [pgnum_div]), pgnum_mod, walk]
      simp [hP, ite_not]

theorem Mem.pteOf_of_walk {m : Mem} {pde pte : Word} (h : m.walk d va = some (pde, pte)) :
    pteOf m d (pgnum va) = pte := by
  rw [walk_eq_pteOf] at h
  split at h
  · exact congrArg Prod.snd (Option.some.inj h)
  · cases h

theorem Mem.va2pa_eq (m : Mem) (d : ℕ) (va : Word) : m.va2pa d va =
    if isSet (pteOf m d (pgnum va)) PTE_P then some (pteAddr (pteOf m d (pgnum va)) + pgoff va)
    else none := by
  rw [va2pa, walk_eq_pteOf]
  split <;> rfl

/-- The page that an entry of `boot_map_region` refers to. -/
theorem pteAddr_entry (hperm : perm.toNat < 4096) :
    pteAddr (pteAddr pa ||| perm ||| PTE_P) = pteAddr pa := by
  refine BitVec.eq_of_getLsbD_eq fun i hi ↦ ?_
  have hlow : ∀ w : Word, w.toNat < 4096 → 12 ≤ i → w.getLsbD i = false := fun w hw h ↦
    Nat.testBit_lt_two_pow (hw.trans_le
      ((by decide : 4096 ≤ 2 ^ 12).trans (Nat.pow_le_pow_right (by decide) h)))
  have hmask : (~~~(0xFFF : Word)).getLsbD i = decide (12 ≤ i) := by
    have hall : ∀ j : Fin 32, (~~~(0xFFF : Word)).getLsbD j = decide (12 ≤ j.val) := by decide
    exact hall ⟨i, hi⟩
  simp only [pteAddr, BitVec.getLsbD_or, BitVec.getLsbD_and, hmask]
  by_cases h : 12 ≤ i
  · simp [h, hlow perm hperm h, hlow PTE_P (by decide) h]
  · simp [h]

/-- The entries of a mapping translate its addresses one by one. -/
theorem Mem.va2pa_of_region {m : Mem} {i : ℕ} (hva : pgoff va = 0) (hpa : pgoff pa = 0)
    (hperm : perm.toNat < 4096) (hi : i < n * 4096) (hfit : va.toNat + i < 4294967296)
    (h : some (pteOf m d (pgnum (va + BitVec.ofNat 32 i))) =
      regionEntries va pa perm n (pgnum (va + BitVec.ofNat 32 i))) :
    m.va2pa d (va + BitVec.ofNat 32 i) = some (pa + BitVec.ofNat 32 i) := by
  have hoff : ∀ w : Word, (pgoff w).toNat = w.toNat % 4096 := flags_toNat
  have hva' := hoff va
  have hpa' := hoff pa
  rw [hva, show (0 : Word).toNat = 0 from rfl] at hva'
  rw [hpa, show (0 : Word).toNat = 0 from rfl] at hpa'
  have hadd : (va + BitVec.ofNat 32 i).toNat = va.toNat + i := by
    rw [BitVec.toNat_add, BitVec.toNat_ofNat]
    omega
  have hpg : pgnum (va + BitVec.ofNat 32 i) = pgnum va + i / 4096 := by
    rw [pgnum_eq, pgnum_eq, hadd]
    omega
  rw [hpg, regionEntries, if_pos ⟨by omega, by omega⟩, Option.some.injEq,
    Nat.add_sub_cancel_left] at h
  have hP : isSet (pteAddr (pa + BitVec.ofNat 32 (i / 4096 * 4096)) ||| perm ||| PTE_P) PTE_P :=
    isSet_P.mpr (by simp [PTE_P])
  rw [va2pa_eq, hpg, h, if_pos hP, pteAddr_entry hperm]
  congr 1
  apply BitVec.eq_of_toNat_eq
  rw [BitVec.toNat_add, pteAddr_toNat, hoff, hadd, BitVec.toNat_add, BitVec.toNat_ofNat,
    BitVec.toNat_add, BitVec.toNat_ofNat]
  omega

theorem Mem.va2pa_eq_none {m : Mem} (h : pteOf m d (pgnum va) = 0) : m.va2pa d va = none := by
  rw [va2pa_eq, h, if_neg (show ¬ isSet 0 PTE_P from not_isSet_zero _)]

theorem Mem.va2pa_eq_none_of_pde {m : Mem} (h : m.phys d (pdx va) = 0) : m.va2pa d va = none := by
  rw [va2pa, walk, h]
  rfl

/-! ## Laying entries over others -/

theorem Laid.refl (B : Machine) (m : Mem) : Laid B m m fun _ ↦ none :=
  ⟨fun _ _ ↦ rfl, fun _ _ ↦ rfl, fun _ ↦ id⟩

theorem Laid.trans (h : Laid B m m' g) (h' : Laid B m' m'' g') :
    Laid B m m'' fun v ↦ (g' v).or (g v) where
  entry v hv := by
    rw [h'.entry v hv, h.entry v hv]
    cases g' v <;> rfl
  other i hi := (h'.other i hi).trans (h.other i hi)
  grows i hi := h'.grows i (h.grows i hi)

theorem Laid.congr (h : Laid B m m' g) (hg : ∀ v, KernPage v → g' v = g v) : Laid B m m' g' :=
  ⟨fun v hv ↦ by rw [h.entry v hv, hg v hv], h.other, h.grows⟩

theorem regionEntries_of_notMem (h : ¬ (pgnum va ≤ v ∧ v < pgnum va + n)) :
    regionEntries va pa perm n v = none := if_neg h

theorem regionEntries_zero (va pa perm : Word) : regionEntries va pa perm 0 = fun _ ↦ none := by
  funext v
  exact if_neg fun h ↦ absurd h.2 (Nat.not_lt.mpr h.1)

theorem regionEntries_succ (va pa perm : Word) (n v : ℕ) : regionEntries va pa perm (n + 1) v =
    ((if v = pgnum va + n then
      some (pteAddr (pa + BitVec.ofNat 32 (n * 4096)) ||| perm ||| PTE_P) else none).or
      (regionEntries va pa perm n v)) := by
  by_cases hv : v = pgnum va + n
  · subst hv
    rw [if_pos rfl, regionEntries, if_pos ⟨by omega, by omega⟩, Nat.add_sub_cancel_left,
      Option.some_or]
  · rw [if_neg hv, Option.none_or, regionEntries, regionEntries]
    exact if_congr (by omega) rfl rfl

namespace KernBoot

variable (h : KernBoot B M m l)

include h

/-- What the entries may allow. -/
theorem kernPerm_pteOf (hv : KernPage v) : KernPerm (v / 1024) (pteOf m B.kernPgdir v) := by
  cases hT : tableOf m B.kernPgdir (v / 1024) with
  | none =>
      rw [pteOf_of_no_table hT]
      exact kernPerm_zero _
  | some t =>
      rw [pteOf_of_table hT]
      exact h.prot _ t hv.ge (Nat.div_lt_of_lt_mul hv.lt) hv.ne hT _

/-- A store into one of the kernel's tables lays one entry. -/
theorem laid_write (hi : NUPDE ≤ pdx va) (hu : pdx va ≠ pdx UVPT)
    (ht : tableOf m B.kernPgdir (pdx va) = some t) (w : Word) :
    Laid B m (m.write t (ptx va) w) fun v ↦ if v = pgnum va then some w else none := by
  have hi' : pdx va < NPDENTRIES := pdx_lt va
  have htk : t ≠ B.kernPgdir := M.ne_kern (h.table_mem hi hi' hu ht)
  have hk : (m.write t (ptx va) w).phys B.kernPgdir = m.phys B.kernPgdir :=
    Mem.phys_write_of_ne_frame _ _ _ htk.symm
  refine ⟨fun v hv ↦ ?_, fun i _ ↦ by rw [hk], grows_of_eq hk⟩
  rw [pteOf_write_of_ne htk, apply_ite (Option.getD · _), Option.getD_some, Option.getD_none]
  refine if_congr ⟨?_, ?_⟩ rfl rfl
  · rintro ⟨hT, hmod⟩
    -- an entry of the same table
    have hlt : v / 1024 < NPDENTRIES := Nat.div_lt_of_lt_mul hv.lt
    have hkey := h.own.excl.eq_of_eq_some (Key.kern_structural (ι := Slot) _)
      (target_kern hv.ge hlt hv.ne hT) (target_kern hi hi' hu ht)
    have hdir : v / 1024 = pdx va := by simpa using hkey.symm
    rw [pgnum_eq_pdx_ptx]
    omega
  · rintro rfl
    rw [pgnum_div, pgnum_mod]
    exact ⟨ht, rfl⟩

/-- A new table is empty. -/
theorem laid_tabled (hu : pdx va ≠ pdx UVPT) (hi : NUPDE ≤ pdx va)
    (hT : tableOf m B.kernPgdir (pdx va) = none) (hpl : t ∈ l) :
    Laid B m (m.tabled B.kernPgdir (pdx va) t) fun _ ↦ none := by
  have htk : t ≠ B.kernPgdir := M.ne_kern (h.own.list_sub hpl)
  have ht := M.lt_two_pow (h.own.list_sub hpl)
  refine ⟨fun v hv ↦ ?_, fun i hi' ↦ Mem.phys_tabled_dir htk ?_, fun i hi' ↦ ?_⟩
  · have hlt : v / 1024 < NPDENTRIES := Nat.div_lt_of_lt_mul hv.lt
    rw [Option.getD_none]
    refine pteOf_tabled htk ht hT (fun hc ↦ ?_) fun hc ↦ ?_
    · exact M.ne_kern (h.table_mem hv.ge hlt hv.ne hc) rfl
    · exact h.table_notMem hv.ge hlt hv.ne hc hpl
  · rintro rfl
    rcases hi' with hlt | heq
    · omega
    · exact hu heq
  · rw [tableOf_tabled htk ht]
    split
    · exact Option.some_ne_none t
    · exact hi'

/-- Where there is a table, `pgdir_walk` finds it. -/
theorem pgdirWalk_of_table (hi : NUPDE ≤ pdx va) (hu : pdx va ≠ pdx UVPT)
    (hT : tableOf m B.kernPgdir (pdx va) = some t) :
    Jos.pgdirWalk B m B.kernPgdir va true = some (some (t, ptx va), m) := by
  simp [Jos.pgdirWalk, (isSet_of_entryFrame hT).1,
    kaddr_pteAddr hT (h.table_mem hi (pdx_lt va) hu hT)]

/-- `pgdir_walk` changes no entry. -/
theorem laid_pgdirWalk (hi : NUPDE ≤ pdx va) (hu : pdx va ≠ pdx UVPT) {x : ℕ × ℕ}
    (hrun : Jos.pgdirWalk B m B.kernPgdir va true = some (some x, m')) :
    Laid B m m' (fun _ ↦ none) ∧ x.2 = ptx va ∧ tableOf m' B.kernPgdir (pdx va) = some x.1 ∧
      ∃ l', KernBoot B M m' l' := by
  rcases h.pgdirWalk hi hu with ⟨-, -, hno⟩ | ⟨t, m₁, l', hwalk, hb, ht, -⟩
  · cases hno.symm.trans hrun
  obtain ⟨hx, rfl⟩ := Prod.mk.inj (Option.some.inj (hwalk.symm.trans hrun))
  obtain rfl := Option.some.inj hx
  refine ⟨?_, rfl, ht, l', hb⟩
  cases hT : tableOf m B.kernPgdir (pdx va) with
  | some t' =>
      obtain ⟨-, rfl⟩ := Prod.mk.inj (Option.some.inj
        ((h.pgdirWalk_of_table hi hu hT).symm.trans hrun))
      exact .refl B _
  | none =>
      cases hl : l with
      | nil => cases (h.own.pgdirWalk_no_mem hT hl).symm.trans hrun
      | cons p l'' =>
          obtain ⟨-, rfl⟩ := Prod.mk.inj (Option.some.inj
            ((h.own.pgdirWalk_fresh_eq hT hl).symm.trans hrun))
          exact h.laid_tabled hu hi hT (by simp [hl])

/-- A round of `boot_map_region`. -/
theorem laid_bootMapPage (hi : NUPDE ≤ pdx va) (hu : pdx va ≠ pdx UVPT)
    (hp : KernPerm (pdx va) perm)
    (hrun : Jos.bootMapPage B m B.kernPgdir va pa perm = some m') :
    Laid B m m' (fun v ↦ if v = pgnum va then some (pteAddr pa ||| perm ||| PTE_P) else none) ∧
      ∃ l', KernBoot B M m' l' := by
  simp only [Jos.bootMapPage, Option.bind_eq_bind, Option.bind_eq_some_iff, Option.pure_def,
    Option.some.injEq, Prod.exists] at hrun
  obtain ⟨x, m₁, hwalk, t, j, rfl, rfl⟩ := hrun
  obtain ⟨hlaid, rfl, ht, l', hb⟩ := h.laid_pgdirWalk hi hu hwalk
  refine ⟨(hlaid.trans (hb.laid_write hi hu ht _)).congr fun v _ ↦ ?_, l',
    hb.write hi (pdx_lt va) hu ht _ (hp.entry pa)⟩
  rw [Option.or_none]

/-- Where there are tables already, `boot_map_region` leaves `kern_pgdir` as it is. -/
theorem pgdir_bootMapRegion {size : Word} (hok : MapOk va size perm)
    (htab : ∀ k < (size.toNat + (PGSIZE - 1)) / PGSIZE,
      tableOf m B.kernPgdir (pdx (va + BitVec.ofNat 32 (k * PGSIZE))) ≠ none)
    (hrun : Jos.bootMapRegion B m B.kernPgdir va size pa perm = some m') :
    m'.phys B.kernPgdir = m.phys B.kernPgdir := by
  refine (foldlM_keeps (P := fun m' ↦ m'.phys B.kernPgdir = m.phys B.kernPgdir ∧
    ∃ l', KernBoot B M m' l') ?_ ⟨rfl, l, h⟩ hrun).1
  rintro k hk m₁ m₂ ⟨heq, l₁, h₁⟩ hround
  have hk' := List.mem_range.mp hk
  obtain ⟨h1, h2, h3⟩ := hok k hk'
  obtain ⟨t, hT⟩ := Option.ne_none_iff_exists'.mp (htab k hk')
  rw [tableOf, ← heq] at hT
  simp only [Jos.bootMapPage, h₁.pgdirWalk_of_table h1 h2 hT, Option.bind_eq_bind,
    Option.bind_some, Option.pure_def, Option.some.injEq] at hround
  subst hround
  have hne := (M.ne_kern (h₁.table_mem h1 (pdx_lt _) h2 hT)).symm
  exact ⟨(Mem.phys_write_of_ne_frame _ _ _ hne).trans heq, l₁,
    h₁.write h1 (pdx_lt _) h2 hT _ (h3.entry _)⟩

/-- `boot_map_region`, where it does not wrap around. -/
theorem laid_bootMapRegion {size : Word} (hok : MapOk va size perm)
    (hfit : pgnum va + (size.toNat + (PGSIZE - 1)) / PGSIZE ≤ 1048576)
    (hrun : Jos.bootMapRegion B m B.kernPgdir va size pa perm = some m') :
    Laid B m m' (regionEntries va pa perm ((size.toNat + (PGSIZE - 1)) / PGSIZE)) ∧
      ∃ l', KernBoot B M m' l' := by
  refine foldlM_range_keeps (P := fun n m' ↦ Laid B m m' (regionEntries va pa perm n) ∧
    ∃ l', KernBoot B M m' l') ?_ ⟨?_, l, h⟩ hrun
  · rintro k hk m₁ m₂ ⟨hlaid, l₁, h₁⟩ hround
    obtain ⟨h1, h2, h3⟩ := hok k hk
    obtain ⟨hpage, hb⟩ := h₁.laid_bootMapPage h1 h2 h3 hround
    refine ⟨(hlaid.trans hpage).congr fun v _ ↦ ?_, hb⟩
    have hpg : pgnum (va + BitVec.ofNat 32 (k * PGSIZE)) = pgnum va + k := by
      have := va.isLt
      rw [pgnum_eq] at hfit
      rw [pgnum_eq, pgnum_eq, BitVec.toNat_add, BitVec.toNat_ofNat]
      simp only [PGSIZE] at hfit hk ⊢
      omega
    rw [regionEntries_succ, hpg]
    rfl
  · rw [regionEntries_zero]
    exact .refl B m

/-- The self-tests leave no entries behind. -/
theorem laid_selfTested (ht : SelfTested m m') : Laid B m m' fun _ ↦ none := by
  obtain ⟨l₀, l', hl₀, -, -, hoff⟩ := ht.list
  obtain rfl := h.own.ledger.chain.unique hl₀
  have hk : m'.phys B.kernPgdir = m.phys B.kernPgdir :=
    (hoff _ fun hc ↦ M.kern (h.own.list_sub hc)).2
  refine ⟨fun v hv ↦ ?_, fun i _ ↦ by rw [hk], grows_of_eq hk⟩
  have htab : tableOf m' B.kernPgdir (v / 1024) = tableOf m B.kernPgdir (v / 1024) := by
    rw [tableOf, tableOf, hk]
  cases hT : tableOf m B.kernPgdir (v / 1024) with
  | none => rw [pteOf_of_no_table hT, pteOf_of_no_table (htab.trans hT)]; rfl
  | some t =>
      have hlt : v / 1024 < NPDENTRIES := Nat.div_lt_of_lt_mul hv.lt
      rw [pteOf_of_table hT, pteOf_of_table (htab.trans hT),
        (hoff t (h.table_notMem hv.ge hlt hv.ne hT)).2]
      rfl

/-- `*pgdir_walk(kern_pgdir, va, 0) = 0` lays an empty entry. -/
theorem laid_clear (hi : NUPDE ≤ pdx va) (hu : pdx va ≠ pdx UVPT)
    (hrun : clearKernPte B m va = some m') :
    Laid B m m' (fun v ↦ if v = pgnum va then some 0 else none) ∧ KernBoot B M m' l := by
  cases hT : tableOf m B.kernPgdir (pdx va) with
  | none => simp [clearKernPte, Jos.pgdirWalk, tableOf_eq_none.mp hT] at hrun
  | some t =>
      have htM := h.table_mem hi (pdx_lt va) hu hT
      simp only [clearKernPte, Jos.pgdirWalk, (isSet_of_entryFrame hT).1, if_true,
        kaddr_pteAddr hT htM, Option.bind_eq_bind, Option.bind_some, Option.pure_def,
        Option.some.injEq] at hrun
      subst hrun
      exact ⟨h.laid_write hi hu hT 0, h.write hi (pdx_lt va) hu hT _ (kernPerm_zero _)⟩

end KernBoot

/-- A loop whose rounds lay entries: later rounds lie over earlier ones. -/
theorem KernBoot.laid_foldlM {α : Type} {f : Mem → α → Option Mem} {g : α → ℕ → Option Word}
    (step : ∀ a {m m' : Mem} {l : List ℕ}, KernBoot B M m l → f m a = some m' →
      Laid B m m' (g a) ∧ ∃ l', KernBoot B M m' l')
    (xs : List α) (h : KernBoot B M m l) (hrun : xs.foldlM f m = some m') :
    Laid B m m' (fun v ↦ xs.reverse.findSome? (g · v)) ∧ ∃ l', KernBoot B M m' l' := by
  induction xs generalizing m l with
  | nil =>
      obtain rfl := Option.some.inj hrun
      exact ⟨.refl B m, l, h⟩
  | cons x xs ih =>
      rw [List.foldlM_cons, Option.bind_eq_bind, Option.bind_eq_some_iff] at hrun
      obtain ⟨m₁, hx, hrest⟩ := hrun
      obtain ⟨laid₁, l₁, h₁⟩ := step x h hx
      obtain ⟨laid₂, hb⟩ := ih h₁ hrest
      refine ⟨(laid₁.trans laid₂).congr fun v _ ↦ ?_, hb⟩
      rw [List.reverse_cons, List.findSome?_append, List.findSome?_singleton]

end Jos
