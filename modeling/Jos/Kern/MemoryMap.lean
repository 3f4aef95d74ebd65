import Jos.Kern.Bench
import Jos.Kern.Booted
import Jos.Kern.MemInit

/-!
# `mem_init` with its self-tests (`kern/pmap.c`)

The tests leave nothing behind that anybody looks at later, and with memory enough they pass: so
`mem_init` returns, and leaves the memory map behind.
-/

namespace Jos

open Jos.Lib

variable {B : Machine} {M : Pool B} {m m' : Mem} {l : List ℕ} {va : Word}

/-! ## `check_va2pa` -/

theorem Mem.isSet_pde_of_va2pa {d : ℕ} {pa : Word} (h : m.va2pa d va = some pa) :
    isSet (m.phys d (pdx va)) PTE_P := by
  rw [Mem.va2pa, Option.map_eq_some_iff] at h
  obtain ⟨⟨pde, pte⟩, hw, -⟩ := h
  obtain ⟨⟨rfl, hP⟩, -⟩ := Mem.walk_eq_some.mp hw
  exact hP

/-- For the start of a page `check_va2pa` finds what the hardware finds. -/
theorem KernBoot.checkVa2pa (h : KernBoot B M m l) (hi : NUPDE ≤ pdx va) (hu : pdx va ≠ pdx UVPT)
    (hoff : pgoff va = 0) :
    Jos.checkVa2pa B m B.kernPgdir va = some ((m.va2pa B.kernPgdir va).getD (~~~0)) := by
  cases hT : tableOf m B.kernPgdir (pdx va) with
  | none =>
      have hP := entryFrame_eq_none.mp hT
      simp [Jos.checkVa2pa, Mem.va2pa, Mem.walk, hP]
  | some t =>
      obtain ⟨hP, rfl⟩ := isSet_of_entryFrame hT
      have hkaddr := kaddr_pteAddr hT (h.table_mem hi (pdx_lt va) hu hT)
      by_cases hpte : isSet (m.phys (frame (m.phys B.kernPgdir (pdx va))) (ptx va)) PTE_P
      · simp [Jos.checkVa2pa, Mem.va2pa, Mem.walk, hP, hkaddr, hpte, hoff]
      · simp [Jos.checkVa2pa, Mem.va2pa, Mem.walk, hP, hkaddr, hpte]

/-! ## The tests on three pages -/

/-- The free list is not longer than `pages`. -/
theorem KernBoot.length_le (h : KernBoot B M m l) : l.length ≤ B.npages := by
  have hrange : l ⊆ List.range B.npages := fun p hp ↦
    List.mem_range.mpr (M.lt p (h.own.list_sub hp))
  have hle := (List.subperm_of_subset h.own.ledger.chain.nodup hrange).length_le
  rwa [List.length_range] at hle

section

variable (h : KernBoot B M m l) (hpde : ∀ i < 2, m.phys B.kernPgdir i = 0)

include h hpde

theorem checkPageAlloc_keeps (hrun : checkPageAlloc B m = some m') : SelfTested m m' := by
  simp only [checkPageAlloc, Option.bind_eq_bind, Option.bind_eq_some_iff,
    assertThat_eq_some] at hrun
  obtain ⟨-, -, s, hs, -, -, -, rfl⟩ := hrun
  exact restoring_checkPageAllocBody.keeps h hpde hs

theorem checkPageAlloc_some (h3 : 3 ≤ l.length) :
    ∃ m', checkPageAlloc B m = some m' ∧ SelfTested m m' := by
  obtain ⟨s, hs, ht⟩ := restoring_checkPageAllocBody.run h hpde h3
  refine ⟨s.mem, ?_, ht⟩
  obtain ⟨l', hperm, h', -⟩ := h.selfTested ht
  have hwalk := Mem.listFrom_of_chain h.own.ledger.chain h.length_le
  have hwalk' := Mem.listFrom_of_chain h'.own.ledger.chain h'.length_le
  simp only [checkPageAlloc, hwalk, hs, hwalk', Option.bind_eq_bind, Option.bind_some]
  exact assertThat_of hperm.length_eq s.mem

theorem checkPageInstalledPgdir_keeps (hrun : checkPageInstalledPgdir B m = some m') :
    SelfTested m m' := by
  simp only [checkPageInstalledPgdir, Option.bind_eq_bind, Option.bind_eq_some_iff,
    Option.pure_def, Option.some.injEq] at hrun
  obtain ⟨s, hs, rfl⟩ := hrun
  exact restoring_checkPageInstalledBody.keeps h hpde hs

theorem checkPageInstalledPgdir_some (h3 : 3 ≤ l.length) :
    ∃ m', checkPageInstalledPgdir B m = some m' := by
  obtain ⟨s, hs, -⟩ := restoring_checkPageInstalledBody.run h hpde h3
  refine ⟨s.mem, ?_⟩
  simp only [checkPageInstalledPgdir, hs, Option.bind_eq_bind, Option.bind_some, Option.pure_def]

end

/-! ## The test of `mmio_map_region` -/

theorem checkPageMmio_keeps {base : Word} (hrun : checkPageMmio B m = some (base, m')) :
    checkMmio B m = some (base, m') := by
  simp only [checkPageMmio, Option.bind_eq_bind, Option.bind_eq_some_iff, Prod.exists] at hrun
  obtain ⟨mm1, base₁, m₁, h₁, mm2, base₂, m₂, h₂, -, -, m₃, h₃, m₄, h₄, m₅, h₅, heq⟩ := hrun
  simp only [checkMmio, h₁, h₂, h₃, h₄, h₅, Option.bind_eq_bind, Option.bind_some]
  exact heq

/-- The entries of the two regions, if there were none. -/
theorem KernBoot.assertMmio (h : KernBoot B M m l) (hempty : tableOf m B.kernPgdir 958 = none)
    {base₁ base₂ mm1 mm2 : Word} {m₁ m₂ : Mem}
    (h₁ : mmioMapRegion B m MMIOBASE 0 4097 = some (mm1, base₁, m₁))
    (h₂ : mmioMapRegion B m₁ base₁ 0 4096 = some (mm2, base₂, m₂)) :
    Jos.assertMmio B m₂ mm1 mm2 = some () := by
  obtain ⟨rfl, rfl, laid₁, l₁, hb₁⟩ := h.laid_mmioMapRegion (by decide) (by decide) h₁
  obtain ⟨rfl, rfl, laid₂, l₂, hb₂⟩ := hb₁.laid_mmioMapRegion (by decide) (by decide) h₂
  have hlaid := laid₁.trans laid₂
  have hentry : ∀ v, 958 * 1024 ≤ v → v < 959 * 1024 → pteOf m₂ B.kernPgdir v =
      ((mmioEntries (MMIOBASE + roundup 4097 0x1000) 0 4096 v).or
        (mmioEntries MMIOBASE 0 4097 v)).getD 0 := by
    intro v h1 h2
    have hUVPT : pdx UVPT = 957 := by decide
    rw [hlaid.entry v ⟨by rw [NUPDE]; omega, by omega, by omega⟩,
      pteOf_of_no_table (by rw [show v / 1024 = 958 by omega]; exact hempty)]
  have hva : ∀ va : Word, pgoff va = 0 → pdx va = 958 → Jos.checkVa2pa B m₂ B.kernPgdir va =
      some ((if isSet (pteOf m₂ B.kernPgdir (pgnum va)) PTE_P then
        some (pteAddr (pteOf m₂ B.kernPgdir (pgnum va)) + 0) else none).getD (~~~0)) := by
    intro va hoff hpdx
    rw [hb₂.checkVa2pa (by rw [hpdx]; decide) (by rw [hpdx]; decide) hoff, Mem.va2pa_eq, hoff]
  have hpte : ∀ v w, 958 * 1024 ≤ v → v < 959 * 1024 →
      ((mmioEntries (MMIOBASE + roundup 4097 0x1000) 0 4096 v).or
        (mmioEntries MMIOBASE 0 4097 v)).getD 0 = w → pteOf m₂ B.kernPgdir v = w :=
    fun v w h1 h2 hw ↦ (hentry v h1 h2).trans hw
  have h0 : pteOf m₂ B.kernPgdir (pgnum MMIOBASE) = 0x1B :=
    hpte _ _ (by decide) (by decide) (by decide)
  have h1 : pteOf m₂ B.kernPgdir (pgnum (MMIOBASE + 0x1000)) = 0x101B :=
    hpte _ _ (by decide) (by decide) (by decide)
  have h2 : pteOf m₂ B.kernPgdir (pgnum (MMIOBASE + roundup 4097 0x1000)) = 0x1B :=
    hpte _ _ (by decide) (by decide) (by decide)
  have h3 : pteOf m₂ B.kernPgdir (pgnum (MMIOBASE + roundup 4097 0x1000 + 0x1000)) = 0 :=
    hpte _ _ (by decide) (by decide) (by decide)
  have e0 := hva MMIOBASE (by decide) (by decide)
  have e1 := hva (MMIOBASE + 0x1000) (by decide) (by decide)
  have e2 := hva (MMIOBASE + roundup 4097 0x1000) (by decide) (by decide)
  have e3 := hva (MMIOBASE + roundup 4097 0x1000 + 0x1000) (by decide) (by decide)
  rw [h0] at e0
  rw [h1] at e1
  rw [h2] at e2
  rw [h3] at e3
  have hpdx : pdx MMIOBASE = 958 := by decide
  obtain ⟨t, hT⟩ : ∃ t, tableOf m₂ B.kernPgdir (pdx MMIOBASE) = some t := by
    refine Option.ne_none_iff_exists'.mp fun hno ↦ ?_
    rw [pteOf_of_no_table (by rwa [pgnum_div])] at h0
    exact absurd h0 (by decide)
  have hkaddr := kaddr_pteAddr hT
    (hb₂.table_mem (by rw [hpdx]; decide) (pdx_lt _) (by rw [hpdx]; decide) hT)
  have hwalk : Jos.pgdirWalk B m₂ B.kernPgdir MMIOBASE false =
      some (some (t, ptx MMIOBASE), m₂) := by
    simp [Jos.pgdirWalk, (isSet_of_entryFrame hT).1, hkaddr]
  rw [pteOf_of_table (by rwa [pgnum_div]), pgnum_mod] at h0
  simp only [Jos.assertMmio, e0, e1, e2, e3, hwalk, h0, Option.bind_eq_bind, Option.bind_some]
  rfl

theorem KernBoot.checkPageMmio_some (h : KernBoot B M m l)
    (hempty : tableOf m B.kernPgdir 958 = none) (hroom : missing B m ≤ l.length) :
    ∃ base m' l', checkPageMmio B m = some (base, m') ∧ KernBoot B M m' l' ∧
      l.length + missing B m' ≤ l'.length + missing B m := by
  obtain ⟨base, m', l', hrun, -, hb, hroom'⟩ := h.checkMmio_succeeds hroom
  refine ⟨base, m', l', ?_, hb, hroom'⟩
  simp only [checkMmio, Option.bind_eq_bind, Option.bind_eq_some_iff, Prod.exists] at hrun
  obtain ⟨mm1, base₁, m₁, h₁, mm2, base₂, m₂, h₂, m₃, h₃, m₄, h₄, m₅, h₅, heq⟩ := hrun
  simp only [checkPageMmio, h₁, h₂, h.assertMmio hempty h₁ h₂, h₃, h₄, h₅, Option.bind_eq_bind,
    Option.bind_some]
  exact heq

/-! ## `check_kern_pgdir` -/

theorem forM_some {α : Type} {f : α → Option Unit} (xs : List α) (h : ∀ x, f x = some ()) :
    xs.forM f = some () := by
  induction xs with
  | nil => rfl
  | cons x xs ih =>
      change (f x >>= fun _ ↦ xs.forM f) = some ()
      rw [h x]
      exact ih

namespace BootConfig

variable {cfg : BootConfig} {base : Word}

section

variable {n pa : Word} (h : KernBoot cfg.machine cfg.pool m l) (hva : pgoff va = 0)
  (hin : ∀ k < (n.toNat + (PGSIZE - 1)) / PGSIZE,
    NUPDE ≤ pdx (va + BitVec.ofNat 32 (k * PGSIZE)) ∧
      pdx (va + BitVec.ofNat 32 (k * PGSIZE)) ≠ pdx UVPT)

include h hva hin

theorem checkVa2pa_add {k : ℕ} (hk : k < (n.toNat + (PGSIZE - 1)) / PGSIZE) :
    checkVa2pa cfg.machine m cfg.machine.kernPgdir (va + BitVec.ofNat 32 (k * PGSIZE)) =
      some ((m.va2pa cfg.machine.kernPgdir (va + BitVec.ofNat 32 (k * PGSIZE))).getD (~~~0)) := by
  refine h.checkVa2pa (hin k hk).1 (hin k hk).2 (BitVec.eq_of_toNat_eq ?_)
  have hoff : ∀ w : Word, (pgoff w).toNat = w.toNat % 4096 := flags_toNat
  have hva' := hoff va
  rw [hva, show (0 : Word).toNat = 0 from rfl] at hva'
  rw [hoff, BitVec.toNat_add, BitVec.toNat_ofNat, PGSIZE, show (0 : Word).toNat = 0 from rfl]
  omega

theorem checkRegion_some (hmap : ∀ k < (n.toNat + (PGSIZE - 1)) / PGSIZE,
    m.va2pa cfg.machine.kernPgdir (va + BitVec.ofNat 32 (k * PGSIZE)) =
      some (pa + BitVec.ofNat 32 (k * PGSIZE))) : cfg.checkRegion m va n pa = some () := by
  refine assertThat_of (fun k hk ↦ ?_) ()
  rw [checkVa2pa_add h hva hin hk, hmap k hk, Option.getD_some]

theorem checkGap_some (hmap : ∀ k < (n.toNat + (PGSIZE - 1)) / PGSIZE,
    m.va2pa cfg.machine.kernPgdir (va + BitVec.ofNat 32 (k * PGSIZE)) = none) :
    cfg.checkGap m va n = some () := by
  refine assertThat_of (fun k hk ↦ ?_) ()
  rw [checkVa2pa_add h hva hin hk, hmap k hk, Option.getD_none]

end

/-- The addresses `va + k * PGSIZE` are in one part of the kernel's half. -/
theorem pdx_add (va : Word) (k lo hi : ℕ) (hlo : lo * 4194304 ≤ va.toNat)
    (hhi : va.toNat + k * 4096 < hi * 4194304) (hle : hi ≤ 1024) :
    lo ≤ pdx (va + BitVec.ofNat 32 (k * PGSIZE)) ∧
      pdx (va + BitVec.ofNat 32 (k * PGSIZE)) < hi := by
  rw [pdx_eq, BitVec.toNat_add, BitVec.toNat_ofNat, PGSIZE]
  omega

/-- The directory entries of the map. -/
theorem MemoryMap.pdeOk (hmap : cfg.MemoryMap m) (hb : KernBoot cfg.machine cfg.pool m l)
    (huser : ∀ i < NUPDE, m.phys cfg.machine.kernPgdir i = 0)
    (huvpt : isSet (m.phys cfg.machine.kernPgdir (pdx UVPT)) PTE_P)
    (hmmio : tableOf m cfg.machine.kernPgdir (pdx MMIOBASE) ≠ none) {i : ℕ} (hi : i < NPDENTRIES) :
    cfg.PdeOk m i := by
  have hn := cfg.kernel_lt
  have hpde : ∀ {va pa : Word}, m.va2pa cfg.machine.kernPgdir va = some pa → pdx va = i →
      isSet (m.phys cfg.machine.kernPgdir i) PTE_P :=
    fun hva hpdx ↦ hpdx ▸ Mem.isSet_pde_of_va2pa hva
  have h955 : pdx UENVS = 955 := by decide
  have h956 : pdx UPAGES = 956 := by decide
  have h957 : pdx UVPT = 957 := by decide
  have h958 : pdx MMIOBASE = 958 := by decide
  have h959 : pdx (KSTACKTOP - 1) = 959 := by decide
  have h960 : pdx KERNBASE = 960 := by decide
  rw [PdeOk, h955, h956, h957, h958, h959, h960]
  rw [NPDENTRIES] at hi
  rcases (by omega : i < 955 ∨ i = 955 ∨ i = 956 ∨ i = 957 ∨ i = 958 ∨ i = 959 ∨ 960 ≤ i) with
    hlt | rfl | rfl | rfl | rfl | rfl | hge
  · rw [if_neg (by omega), if_neg (by omega)]
    exact huser i hlt
  · rw [if_pos (by decide)]
    obtain ⟨pa, -, hva⟩ := hmap.uenvs 0 (by decide)
    exact hpde hva (by decide)
  · rw [if_pos (by decide)]
    obtain ⟨pa, -, hva⟩ := hmap.upages 0 (by rw [sizeofPageInfo]; omega)
    exact hpde hva (by decide)
  · rw [if_pos (by decide)]
    exact h957 ▸ huvpt
  · rw [if_pos (by decide)]
    obtain ⟨t, ht⟩ := Option.ne_none_iff_exists'.mp hmmio
    exact (isSet_of_entryFrame (h958 ▸ ht)).1
  · rw [if_pos (by decide)]
    obtain ⟨pa, -, hva⟩ := hmap.kstacks ⟨0, by decide⟩ 0 (by decide)
    exact hpde hva (by decide)
  · rw [if_neg (by omega), if_pos hge]
    have hlen : (-KERNBASE).toNat = 64 * 4194304 := by decide
    have hva := hmap.kernbase ((i - 960) * 4194304) (by omega)
    have hpdx : pdx (KERNBASE + BitVec.ofNat 32 ((i - 960) * 4194304)) = i := by
      rw [pdx_eq, BitVec.toNat_add, BitVec.toNat_ofNat, show KERNBASE.toNat = 4026531840 from rfl]
      omega
    have hP := hpde hva hpdx
    exact ⟨hP, (hb.entries i (by rw [NUPDE]; omega) hi (by omega) hP).2⟩

/-! ### The regions -/

theorem paddr_of_le {kva : Word} (hkva : KERNBASE ≤ kva) : paddr kva = some (kva - KERNBASE) :=
  if_neg (BitVec.not_lt.mpr hkva)

section

variable (hmap : cfg.MemoryMap m) (hb : KernBoot cfg.machine cfg.pool m l)

include hmap hb

theorem MemoryMap.checkUpages : cfg.checkRegion m UPAGES
    (roundup (BitVec.ofNat 32 (cfg.npages * sizeofPageInfo)) 0x1000)
    (cfg.layout.pages - KERNBASE) = some () := by
  have hn := cfg.npages_le
  have hUVPT : pdx UVPT = 957 := by decide
  have hUPAGES : UPAGES.toNat = 956 * 4194304 := rfl
  have hsize : (roundup (BitVec.ofNat 32 (cfg.npages * sizeofPageInfo)) 0x1000).toNat =
      (cfg.npages * 8 + 4095) / 4096 * 4096 := by
    rw [roundup_toNat, cfg.pagesSize_toNat, Nat.mod_eq_of_lt (by omega)]
  refine checkRegion_some hb (by decide) (fun k hk ↦ ?_) fun k hk ↦ ?_
  · rw [hsize, PGSIZE] at hk
    obtain ⟨h1, h2⟩ := pdx_add UPAGES k 956 957
      (by omega) (by omega) (by omega)
    rw [NUPDE]
    omega
  · rw [hsize, PGSIZE] at hk
    obtain ⟨pa, hpa, hva⟩ := hmap.upages (k * PGSIZE) (by rw [sizeofPageInfo, PGSIZE]; omega)
    obtain rfl := Option.some.inj (hpa.symm.trans (paddr_of_le cfg.layout_bounds.2.2.1))
    exact hva

theorem MemoryMap.checkUenvs : cfg.checkRegion m UENVS (roundup (BitVec.ofNat 32 sizeofEnvs) 0x1000)
    (cfg.layout.envs - KERNBASE) = some () := by
  have hUVPT : pdx UVPT = 957 := by decide
  have hUENVS : UENVS.toNat = 955 * 4194304 := rfl
  have hsize : (roundup (BitVec.ofNat 32 sizeofEnvs) 0x1000).toNat = 31 * 4096 := by decide
  refine checkRegion_some hb (by decide) (fun k hk ↦ ?_) fun k hk ↦ ?_
  · rw [hsize, PGSIZE] at hk
    obtain ⟨h1, h2⟩ := pdx_add UENVS k 955 956
      (by omega) (by omega) (by omega)
    rw [NUPDE]
    omega
  · rw [hsize, PGSIZE] at hk
    obtain ⟨pa, hpa, hva⟩ := hmap.uenvs (k * PGSIZE) (by rw [sizeofEnvs, sizeofEnv, PGSIZE]; omega)
    obtain rfl := Option.some.inj (hpa.symm.trans (paddr_of_le cfg.layout_bounds.2.2.2))
    exact hva

theorem MemoryMap.checkKernbase :
    cfg.checkRegion m KERNBASE (BitVec.ofNat 32 (cfg.npages * PGSIZE)) 0 = some () := by
  have hn := cfg.npages_le
  have hUVPT : pdx UVPT = 957 := by decide
  have hKERNBASE : KERNBASE.toNat = 960 * 4194304 := rfl
  have hsize : (BitVec.ofNat 32 (cfg.npages * PGSIZE)).toNat = cfg.npages * 4096 := by
    rw [BitVec.toNat_ofNat, PGSIZE]
    omega
  refine checkRegion_some hb (by decide) (fun k hk ↦ ?_) fun k hk ↦ ?_
  · rw [hsize, PGSIZE] at hk
    obtain ⟨h1, h2⟩ := pdx_add KERNBASE k 960 1024
      (by omega) (by omega) (by omega)
    rw [NUPDE]
    omega
  · rw [hsize, PGSIZE] at hk
    have hlt : k * PGSIZE < (-KERNBASE).toNat := by
      rw [show (-KERNBASE).toNat = 65536 * 4096 from rfl, PGSIZE]
      omega
    rw [hmap.kernbase (k * PGSIZE) hlt]
    exact congrArg some (BitVec.zero_add _).symm

theorem MemoryMap.checkKstack (n : CpuId) (hoff : pgoff (kstackBase n) = 0) :
    cfg.checkRegion m (kstackBase n) KSTKSIZE (cfg.percpuKstacks n - KERNBASE) = some () := by
  have hUVPT : pdx UVPT = 957 := by decide
  have hbase := kstackBase_toNat n
  have hn8 : n.val < 8 := n.isLt
  have hsize : KSTKSIZE.toNat = 8 * 4096 := rfl
  refine checkRegion_some hb hoff (fun k hk ↦ ?_) fun k hk ↦ ?_
  · rw [hsize, PGSIZE] at hk
    obtain ⟨h1, h2⟩ := pdx_add (kstackBase n) k 959 960
      (by omega) (by omega) (by omega)
    rw [NUPDE]
    omega
  · rw [hsize, PGSIZE] at hk
    obtain ⟨pa, hpa, hva⟩ := hmap.kstacks n (k * PGSIZE) (by rw [hsize, PGSIZE]; omega)
    obtain rfl := Option.some.inj (hpa.symm.trans (paddr_of_le (cfg.le_percpuKstacks n)))
    exact hva

theorem MemoryMap.checkKstkgap (n : CpuId) (hoff : pgoff (kstackBase n - KSTKGAP) = 0)
    (hbase : (kstackBase n - KSTKGAP).toNat = (0xEFFF0 - 16 * n.val) * 4096) :
    cfg.checkGap m (kstackBase n - KSTKGAP) KSTKGAP = some () := by
  have hUVPT : pdx UVPT = 957 := by decide
  have hn8 : n.val < 8 := n.isLt
  have hsize : KSTKGAP.toNat = 8 * 4096 := rfl
  refine checkGap_some hb hoff (fun k hk ↦ ?_) fun k hk ↦ ?_
  · rw [hsize, PGSIZE] at hk
    obtain ⟨h1, h2⟩ := pdx_add (kstackBase n - KSTKGAP) k 959 960
      (by omega) (by omega) (by omega)
    rw [NUPDE]
    omega
  · rw [hsize, PGSIZE] at hk
    exact hmap.gaps n (k * PGSIZE) (by rw [hsize, PGSIZE]; omega)

/-- The map passes the check. -/
theorem MemoryMap.checkKernPgdir (huser : ∀ i < NUPDE, m.phys cfg.machine.kernPgdir i = 0)
    (huvpt : isSet (m.phys cfg.machine.kernPgdir (pdx UVPT)) PTE_P)
    (hmmio : tableOf m cfg.machine.kernPgdir (pdx MMIOBASE) ≠ none) :
    cfg.checkKernPgdir m = some () := by
  obtain ⟨-, -, hpages, henvs⟩ := cfg.layout_bounds
  -- the loop of the check counts the stacks from their lower ends
  have hstack : ∀ n : CpuId, KSTACKTOP - (KSTKSIZE + KSTKGAP) * BitVec.ofNat 32 (n.val + 1) =
      kstackBase n - KSTKGAP ∧ kstackBase n - KSTKGAP + KSTKGAP = kstackBase n ∧
      pgoff (kstackBase n) = 0 ∧ pgoff (kstackBase n - KSTKGAP) = 0 ∧
      (kstackBase n - KSTKGAP).toNat = (0xEFFF0 - 16 * n.val) * 4096 := by decide
  have hloop : ((List.finRange NCPU).forM fun (n : CpuId) ↦ do
      cfg.checkRegion m (KSTACKTOP - (KSTKSIZE + KSTKGAP) * BitVec.ofNat 32 (n.val + 1) + KSTKGAP)
        KSTKSIZE (← paddr (cfg.percpuKstacks n))
      cfg.checkGap m (KSTACKTOP - (KSTKSIZE + KSTKGAP) * BitVec.ofNat 32 (n.val + 1)) KSTKGAP) =
      some () := by
    refine forM_some _ fun n ↦ ?_
    obtain ⟨h1, h2, hoff, hoff', hbase⟩ := hstack n
    rw [h1, h2]
    simp only [paddr_of_le (cfg.le_percpuKstacks n), hmap.checkKstack hb n hoff,
      hmap.checkKstkgap hb n hoff' hbase, Option.bind_eq_bind, Option.bind_some]
  simp only [BootConfig.checkKernPgdir, paddr_of_le hpages, paddr_of_le henvs,
    hmap.checkUpages hb, hmap.checkUenvs hb, hmap.checkKernbase hb, Option.bind_eq_bind,
    Option.bind_some] at hloop ⊢
  rw [hloop, Option.bind_some]
  exact assertThat_of (fun i hi ↦ hmap.pdeOk hb huser huvpt hmmio hi) ()

end

/-! ## `mem_init` -/

/-- Entries of `kern_pgdir` are empty when the tests start. -/
theorem phys_pageInit {m₀ : Mem} (hm : m₀.pageFreeList = none) {i : ℕ} (hi : i ≠ pdx UVPT) :
    (pageInit cfg.npages cfg.npagesBasemem cfg.kernel (cfg.initPgdir m₀)).phys
      cfg.machine.kernPgdir i = 0 := by
  rw [(cfg.pageInit_spec (m := cfg.initPgdir m₀) hm).1, phys_initPgdir hi]

/-- `mem_init` with its tests is `mem_init` without. -/
theorem memInit_eq_some {pp : Bool → Option ℕ} {m₀ : Mem} (hm : m₀.pageFreeList = none)
    (hrun : cfg.memInit pp m₀ = some (base, m)) : cfg.MemInit m₀ base m := by
  have h957 : pdx UVPT = 957 := by decide
  simp only [memInit, checkPage, Option.bind_eq_bind, Option.bind_eq_some_iff, Option.pure_def,
    Prod.exists, Option.some.injEq, Prod.mk.injEq] at hrun
  obtain ⟨m₁, h₁, m₂, h₂, base, m₃, ⟨s, hs, hmmio⟩, m₄, hmap, -, -, m₅, h₅, m₆, h₆, rfl, rfl⟩ :=
    hrun
  obtain ⟨l₀, hb₀, -⟩ := cfg.kernBoot_pageInit hm
  have hpde₀ : ∀ i < 2, (pageInit cfg.npages cfg.npagesBasemem cfg.kernel (cfg.initPgdir m₀)).phys
      cfg.machine.kernPgdir i = 0 := fun i hi ↦ phys_pageInit hm (by omega)
  have ht₁ := checkPageFreeList_keeps hb₀ h₁
  obtain ⟨l₁, -, hb₁, hk₁⟩ := hb₀.selfTested ht₁
  have hpde₁ : ∀ i < 2, m₁.phys cfg.machine.kernPgdir i = 0 := by rwa [hk₁]
  have ht₂ := checkPageAlloc_keeps hb₁ hpde₁ h₂
  obtain ⟨l₂, -, hb₂, hk₂⟩ := hb₁.selfTested ht₂
  have hpde₂ : ∀ i < 2, m₂.phys cfg.machine.kernPgdir i = 0 := by rwa [hk₂]
  have ht₃ := restoring_checkPageBody.keeps hb₂ hpde₂ hs
  obtain ⟨l₃, -, hb₃, -⟩ := hb₂.selfTested ht₃
  obtain ⟨-, l₃', hb₃'⟩ := hb₃.checkMmio_keeps (checkPageMmio_keeps hmmio)
  obtain ⟨l₄, hb₄⟩ := cfg.bootStep_mapKernel.keeps hb₃' hmap
  have htests := (ht₁.trans ht₂).trans ht₃
  have hmem₄ : cfg.MemInit m₀ base m₄ :=
    ⟨s.mem, m₃, m₄, htests, checkPageMmio_keeps hmmio, hmap, selfTested_refl hb₄⟩
  obtain ⟨-, hzero, -, -⟩ := hmem₄.entries hm
  have ht₅ := checkPageFreeList_keeps hb₄ h₅
  obtain ⟨l₅, -, hb₅, hk₅⟩ := hb₄.selfTested ht₅
  have hpde₅ : ∀ i < 2, m₅.phys cfg.machine.kernPgdir i = 0 := by
    intro i hi
    rw [hk₅]
    exact hzero i (by rw [NUPDE]; omega)
  exact ⟨s.mem, m₃, m₄, htests, checkPageMmio_keeps hmmio, hmap,
    ht₅.trans (checkPageInstalledPgdir_keeps hb₅ hpde₅ h₆)⟩

/-- Free pages on either side of the hole: the kernel takes 69 at most for its page tables, and the
second `check_page_free_list` wants to see one of either kind. -/
def EnoughMemory (cfg : BootConfig) : Prop :=
  72 ≤ cfg.npagesBasemem ∧ 256 + cfg.kernel + 70 ≤ cfg.npages

/-- Of many pages with a property one is left if few are gone. -/
theorem exists_mem_of_length {l l' xs : List ℕ} {q : ℕ → Prop} (hnd : l'.Nodup) (hxs : xs.Nodup)
    (hq : ∀ p ∈ xs, p ∈ l ∧ q p) (hsub : ∀ p ∈ l', p ∈ l)
    (hlen : l.length < l'.length + xs.length) : ∃ p ∈ l', q p := by
  by_contra hno
  have hdis : ∀ p ∈ l', ∀ x ∈ xs, p ≠ x := fun p hp x hx hpx ↦
    hno ⟨p, hp, hpx ▸ (hq x hx).2⟩
  have hall : l' ++ xs ⊆ l := fun p hp ↦ by
    rcases List.mem_append.mp hp with hp | hp
    · exact hsub p hp
    · exact (hq p hp).1
  have hle := (List.subperm_of_subset (List.nodup_append.mpr ⟨hnd, hxs, hdis⟩) hall).length_le
  rw [List.length_append] at hle
  omega

/-- Seventy pages below the hole, and seventy after the kernel. -/
theorem EnoughMemory.pages (h : cfg.EnoughMemory) : ∃ xs ys : List ℕ, xs.Nodup ∧ ys.Nodup ∧
    70 ≤ xs.length ∧ 70 ≤ ys.length ∧
    (∀ p ∈ xs, p ∈ cfg.pool.carrier ∧ page2pa p < EXTPHYSMEM) ∧
    ∀ p ∈ ys, p ∈ cfg.pool.carrier ∧ ¬ page2pa p < EXTPHYSMEM := by
  obtain ⟨hlo, hhi⟩ := h
  have hb := cfg.npagesBasemem_le
  have hn := cfg.npages_le
  have hext : EXTPHYSMEM.toNat = 256 * 4096 := rfl
  have hmp : pgnum MPENTRY_PADDR = 7 := by decide
  refine ⟨List.range' 1 6 ++ List.range' 8 (cfg.npagesBasemem - 8),
    List.range' (256 + cfg.kernel) 70, ?_, List.nodup_range', ?_, ?_, fun p hp ↦ ?_, fun p hp ↦ ?_⟩
  · refine List.nodup_append.mpr ⟨List.nodup_range', List.nodup_range', fun p hp q hq ↦ ?_⟩
    rw [List.mem_range'_1] at hp hq
    omega
  · rw [List.length_append, List.length_range', List.length_range']
    omega
  · rw [List.length_range']
  · rw [List.mem_append, List.mem_range'_1, List.mem_range'_1] at hp
    refine ⟨.inl ⟨by omega, by omega, by omega⟩, ?_⟩
    rw [BitVec.lt_def, page2pa_toNat (by omega), hext]
    omega
  · rw [List.mem_range'_1] at hp
    refine ⟨.inr ⟨by omega, by omega⟩, ?_⟩
    rw [BitVec.lt_def, page2pa_toNat (by omega), hext]
    omega

/-- With memory enough all tests pass, whatever was in memory before. -/
theorem memInit_some {start : Word} (hk : PercpuKstacks cfg start) (henough : cfg.EnoughMemory)
    (pp : Bool → Option ℕ) {m₀ : Mem} (hm : m₀.pageFreeList = none) :
    ∃ base m, cfg.memInit pp m₀ = some (base, m) := by
  have h957 : pdx UVPT = 957 := by decide
  obtain ⟨xs, ys, hxs, hys, hxlen, hylen, hxmem, hymem⟩ := henough.pages
  obtain ⟨l₀, hb₀, hl₀⟩ := cfg.kernBoot_pageInit hm
  have hxmem₀ : ∀ p ∈ xs, p ∈ l₀ ∧ page2pa p < EXTPHYSMEM := fun p hp ↦
    ⟨(hl₀ p).mpr (hxmem p hp).1, (hxmem p hp).2⟩
  have hymem₀ : ∀ p ∈ ys, p ∈ l₀ ∧ ¬ page2pa p < EXTPHYSMEM := fun p hp ↦
    ⟨(hl₀ p).mpr (hymem p hp).1, (hymem p hp).2⟩
  have hlen₀ : 70 ≤ l₀.length :=
    hxlen.trans (List.subperm_of_subset hxs fun p hp ↦ (hxmem₀ p hp).1).length_le
  -- after the kernel has taken its pages some are left on either side
  have hleft : ∀ {m : Mem} {l : List ℕ}, KernBoot cfg.machine cfg.pool m l →
      l₀.length ≤ l.length + 69 →
      (∃ p ∈ l, page2pa p < EXTPHYSMEM) ∧ ∃ p ∈ l, ¬ page2pa p < EXTPHYSMEM := by
    intro m l hb hlen
    have hsub : ∀ p ∈ l, p ∈ l₀ := fun p hp ↦ (hl₀ p).mpr (hb.own.list_sub hp)
    exact ⟨exists_mem_of_length hb.own.ledger.chain.nodup hxs hxmem₀ hsub (by omega),
      exists_mem_of_length hb.own.ledger.chain.nodup hys hymem₀ hsub (by omega)⟩
  obtain ⟨hlo₀, hhi₀⟩ := hleft hb₀ (by omega)
  obtain ⟨m₁, h₁, ht₁⟩ := checkPageFreeList_some hb₀ hlo₀ hhi₀ true pp
  obtain ⟨l₁, hperm₁, hb₁, hk₁⟩ := hb₀.selfTested ht₁
  have hlen₁ := hperm₁.length_eq
  have hpde₁ : ∀ i < 2, m₁.phys cfg.machine.kernPgdir i = 0 := fun i hi ↦ by
    rw [hk₁]
    exact phys_pageInit hm (by omega)
  obtain ⟨m₂, h₂, ht₂⟩ := checkPageAlloc_some hb₁ hpde₁ (by omega)
  obtain ⟨l₂, hperm₂, hb₂, hk₂⟩ := hb₁.selfTested ht₂
  have hlen₂ := hperm₂.length_eq
  obtain ⟨s, hs, ht₃⟩ := restoring_checkPageBody.run hb₂ (by rwa [hk₂]) (by omega)
  obtain ⟨l₃, hperm₃, hb₃, hk₃⟩ := hb₂.selfTested ht₃
  have hlen₃ := hperm₃.length_eq
  have hempty : tableOf s.mem cfg.machine.kernPgdir 958 = none := by
    rw [tableOf, hk₃, hk₂, hk₁, phys_pageInit hm (by omega)]
    exact entryFrame_zero
  have hmiss := missing_le cfg.machine s.mem
  obtain ⟨base, m₄, l₄, hmmio, hb₄, hroom₄⟩ := hb₃.checkPageMmio_some hempty (by omega)
  obtain ⟨m₅, l₅, hmap, hb₅, hroom₅⟩ := cfg.bootStep_mapKernel.succeeds hb₄ (by omega)
  have hinit : cfg.MemInit m₀ base m₅ := ⟨s.mem, m₄, m₅, (ht₁.trans ht₂).trans ht₃,
    checkPageMmio_keeps hmmio, hmap, selfTested_refl hb₅⟩
  obtain ⟨-, huser, huvpt, htab⟩ := hinit.entries hm
  have hcheck : cfg.checkKernPgdir m₅ = some () := by
    refine (hinit.memoryMap hk hm).checkKernPgdir hb₅ huser ?_ htab
    rw [huvpt, isSet_P]
    simp [PTE_P]
  obtain ⟨hlo₅, hhi₅⟩ := hleft hb₅ (by omega)
  obtain ⟨m₆, h₆, ht₆⟩ := checkPageFreeList_some hb₅ hlo₅ hhi₅ false pp
  obtain ⟨l₆, hperm₆, hb₆, hk₆⟩ := hb₅.selfTested ht₆
  have hlen₆ := hperm₆.length_eq
  have hpde₆ : ∀ i < 2, m₆.phys cfg.machine.kernPgdir i = 0 := by
    intro i hi
    rw [hk₆]
    exact huser i (by rw [NUPDE]; omega)
  have hmany : 140 ≤ l₀.length := by
    have hdis : ∀ p ∈ xs, ∀ q ∈ ys, p ≠ q := fun p hp q hq hpq ↦
      (hymem q hq).2 (hpq ▸ (hxmem p hp).2)
    have hsub : xs ++ ys ⊆ l₀ := fun p hp ↦ by
      rcases List.mem_append.mp hp with hp | hp
      · exact (hxmem₀ p hp).1
      · exact (hymem₀ p hp).1
    have hle := (List.subperm_of_subset (List.nodup_append.mpr ⟨hxs, hys, hdis⟩) hsub).length_le
    rw [List.length_append] at hle
    omega
  obtain ⟨m₇, h₇⟩ := checkPageInstalledPgdir_some hb₆ hpde₆ (by omega)
  refine ⟨base, m₇, ?_⟩
  simp only [memInit, checkPage, h₁, h₂, hs, hmmio, hmap, hcheck, h₆, h₇, Option.bind_eq_bind,
    Option.bind_some, Option.pure_def]

end BootConfig

/-- With enough memory `mem_init` returns, and whenever it returns the memory map is in place. -/
theorem mem_init_memory_map {cfg : BootConfig} {start : Word} {m₀ : Mem}
    (hk : cfg.PercpuKstacks start) (hm : m₀.pageFreeList = none) (pp : Bool → Option ℕ) :
    (cfg.EnoughMemory → ∃ base m, cfg.memInit pp m₀ = some (base, m)) ∧
      ∀ base m, cfg.memInit pp m₀ = some (base, m) → cfg.MemoryMap m :=
  ⟨fun henough ↦ BootConfig.memInit_some hk henough pp hm, fun _ _ hrun ↦
    (BootConfig.memInit_eq_some hm hrun).memoryMap hk hm⟩

theorem demoConfig_percpuKstacks : demoConfig.PercpuKstacks 0xF0120000 :=
  ⟨by decide, by decide, by decide, fun _ ↦ rfl⟩

theorem demoConfig_enoughMemory : demoConfig.EnoughMemory := by
  constructor <;> decide

theorem mem_init_memory_map_demo : ∃ m₀ base m,
    demoConfig.memInit (fun _ ↦ none) m₀ = some (base, m) ∧ demoConfig.MemoryMap m := by
  let m₀ : Mem := ⟨fun _ ↦ ⟨none, 0⟩, none, fun _ _ ↦ 0, []⟩
  have hm : m₀.pageFreeList = none := rfl
  obtain ⟨hruns, hmap⟩ := mem_init_memory_map demoConfig_percpuKstacks hm fun _ ↦ none
  obtain ⟨base, m, hrun⟩ := hruns demoConfig_enoughMemory
  exact ⟨m₀, base, m, hrun, hmap base m hrun⟩

end Jos
