import Jos.Kern.KernMap

/-!
# The memory map (`kern/pmap.c`)

`mem_init` lays its mappings one over another into `kern_pgdir`, which was empty before.  What
remains is the map of `inc/memlayout.h`.
-/

namespace Jos

open Jos.Lib

variable {B : Machine} {M : Pool B} {m m' : Mem} {l : List ℕ} {base r pa size : Word}

/-- What `mmio_map_region` lays. -/
def mmioEntries (base pa size : Word) : ℕ → Option Word :=
  regionEntries base pa (PTE_PCD ||| PTE_PWT ||| PTE_W)
    (((roundup size 0x1000).toNat + (PGSIZE - 1)) / PGSIZE)

/-- A call of `mmio_map_region` that does not go past `MMIOLIM`, where the sum is exact. -/
theorem KernBoot.laid_mmioMapRegion (h : KernBoot B M m l) (hb : MMIOBASE ≤ base)
    (hsum : base.toNat + (roundup size 0x1000).toNat ≤ MMIOLIM.toNat) {base' : Word}
    (hrun : mmioMapRegion B m base pa size = some (r, base', m')) :
    r = base ∧ base' = base + roundup size 0x1000 ∧ Laid B m m' (mmioEntries base pa size) ∧
      ∃ l', KernBoot B M m' l' := by
  have hlim : MMIOLIM.toNat = 4022337536 := rfl
  have hbase : MMIOBASE.toNat = 4018143232 := rfl
  rw [BitVec.le_def] at hb
  obtain ⟨rfl, rfl, -, hmap⟩ := mmioMapRegion_some hrun
  have hok : MapOk r (roundup size 0x1000) (PTE_PCD ||| PTE_PWT ||| PTE_W) :=
    mapOk_kernel 958 959 (by omega) (by omega) (by decide) (by decide) (by decide)
  have hfit : pgnum r + ((roundup size 0x1000).toNat + (PGSIZE - 1)) / PGSIZE ≤ 1048576 := by
    rw [pgnum_eq, PGSIZE]
    omega
  exact ⟨rfl, rfl, h.laid_bootMapRegion hok hfit hmap⟩

/-- The three pages that `check_page` maps at `MMIOBASE` are cleared; their table stays. -/
theorem KernBoot.laid_checkMmio (h : KernBoot B M m l) (hrun : checkMmio B m = some (base, m')) :
    Laid B m m' (fun v ↦ if 0xEF800 ≤ v ∧ v < 0xEF803 then some 0 else none) ∧
      tableOf m' B.kernPgdir (pdx MMIOBASE) ≠ none := by
  simp only [checkMmio, Option.bind_eq_bind, Option.bind_eq_some_iff, Option.pure_def,
    Option.some.injEq, Prod.exists, Prod.mk.injEq] at hrun
  obtain ⟨mm1, base₁, m₁, hm₁, mm2, base₂, m₂, hm₂, m₃, hm₃, m₄, hm₄, m₅, hm₅, rfl, rfl⟩ := hrun
  obtain ⟨rfl, rfl, laid₁, l₁, h₁⟩ := h.laid_mmioMapRegion (by decide) (by decide) hm₁
  obtain ⟨rfl, rfl, laid₂, l₂, h₂⟩ := h₁.laid_mmioMapRegion (by decide) (by decide) hm₂
  obtain ⟨laid₃, h₃⟩ := h₂.laid_clear (by decide) (by decide) hm₃
  obtain ⟨laid₄, h₄⟩ := h₃.laid_clear (by decide) (by decide) hm₄
  obtain ⟨laid₅, -⟩ := h₄.laid_clear (by decide) (by decide) hm₅
  refine ⟨((((laid₁.trans laid₂).trans laid₃).trans laid₄).trans laid₅).congr fun v _ ↦ ?_,
    laid₅.grows _ fun hno ↦ ?_⟩
  swap
  · have hpdx : pdx (MMIOBASE + roundup 4097 0x1000) = pdx MMIOBASE := by decide
    rw [← hpdx] at hno
    generalize MMIOBASE + roundup 4097 0x1000 = va at hno hm₅
    simp [clearKernPte, Jos.pgdirWalk, tableOf_eq_none.mp hno] at hm₅
  have hn₁ : ((roundup 4097 0x1000).toNat + (PGSIZE - 1)) / PGSIZE = 2 := by decide
  have hn₂ : ((roundup 4096 0x1000).toNat + (PGSIZE - 1)) / PGSIZE = 1 := by decide
  have hv₁ : pgnum MMIOBASE = 0xEF800 := by decide
  have hv₂ : pgnum (MMIOBASE + 0x1000) = 0xEF801 := by decide
  have hv₃ : pgnum (MMIOBASE + roundup 4097 0x1000) = 0xEF802 := by decide
  simp only [mmioEntries, regionEntries, hn₁, hn₂, hv₁, hv₂, hv₃]
  by_cases hv : 0xEF800 ≤ v ∧ v < 0xEF803
  · rw [if_pos hv]
    rcases (by omega : v = 0xEF800 ∨ v = 0xEF801 ∨ v = 0xEF802) with rfl | rfl | rfl <;> rfl
  · rw [if_neg hv, if_neg (by omega), if_neg (by omega), if_neg (by omega), if_neg (by omega),
      if_neg (by omega)]
    rfl

/-! ## The mappings of the kernel -/

/-- The lowest address of a CPU's kernel stack. -/
def kstackBase (i : CpuId) : Word :=
  KSTACKTOP - BitVec.ofNat 32 i.val * (KSTKSIZE + KSTKGAP) - KSTKSIZE

theorem kstackBase_toNat : ∀ i : CpuId, (kstackBase i).toNat = (0xEFFF8 - 16 * i.val) * 4096 := by
  decide

theorem pgnum_kstackBase (i : CpuId) : pgnum (kstackBase i) = 0xEFFF8 - 16 * i.val := by
  rw [pgnum_eq, kstackBase_toNat, Nat.mul_div_cancel _ (by decide)]

namespace BootConfig

variable (cfg : BootConfig)

/-- The entries of `pages` at one of its two addresses. -/
def pagesEntries (va perm : Word) : ℕ → Option Word :=
  regionEntries va (cfg.layout.pages - KERNBASE) (perm ||| PTE_P) ((cfg.npages * 8 + 4095) / 4096)

/-- The entries of a CPU's kernel stack. -/
def kstackEntries (i : CpuId) : ℕ → Option Word :=
  regionEntries (kstackBase i) (cfg.percpuKstacks i - KERNBASE) (PTE_W ||| PTE_P) 8

/-- The entries of `kern_pgdir` after `mem_init`, where there are some. -/
def entries (v : ℕ) : Option Word :=
  (regionEntries KERNBASE 0 (PTE_W ||| PTE_P) 65536 v).or <|
  ((List.finRange NCPU).reverse.findSome? (cfg.kstackEntries · v)).or <|
  (regionEntries (KSTACKTOP - KSTKSIZE) (cfg.bootstack - KERNBASE) (PTE_W ||| PTE_P) 8 v).or <|
  (regionEntries UENVS (cfg.layout.envs - KERNBASE) (PTE_U ||| PTE_P) 31 v).or <|
  (cfg.pagesEntries cfg.layout.pages PTE_W v).or (cfg.pagesEntries UPAGES PTE_U v)

variable {cfg}

theorem laid_mapKernel (h : KernBoot cfg.machine cfg.pool m l) (hrun : cfg.mapKernel m = some m') :
    Laid cfg.machine m m' cfg.entries := by
  obtain ⟨-, -, hpages, henvs⟩ := cfg.layout_bounds
  have hpaddr : ∀ {kva : Word}, KERNBASE ≤ kva → paddr kva = some (kva - KERNBASE) :=
    fun hkva ↦ if_neg (BitVec.not_lt.mpr hkva)
  have hn := cfg.npages_le
  have hsize : ((BitVec.ofNat 32 (cfg.npages * sizeofPageInfo)).toNat + (PGSIZE - 1)) / PGSIZE =
      (cfg.npages * 8 + 4095) / 4096 := by rw [cfg.pagesSize_toNat, PGSIZE]
  have hfit : pgnum cfg.layout.pages + (cfg.npages * 8 + 4095) / 4096 ≤ 1048576 := by
    have hmap := cfg.pages_mapped
    rw [show KERNBASE.toNat = 4026531840 from rfl, PTSIZE, PGSIZE, NPTENTRIES,
      sizeofPageInfo] at hmap
    rw [pgnum_eq]
    omega
  simp only [mapKernel, hpaddr hpages, hpaddr henvs, hpaddr cfg.le_bootstack, Option.bind_eq_bind,
    Option.bind_some, Option.bind_eq_some_iff] at hrun
  obtain ⟨m₁, hm₁, m₂, hm₂, m₃, hm₃, m₄, hm₄, m₅, hm₅, hm₆⟩ := hrun
  obtain ⟨laid₁, l₁, h₁⟩ := h.laid_bootMapRegion cfg.mapOk_upages
    (by rw [hsize, show pgnum UPAGES = 978944 from by decide]; omega) hm₁
  obtain ⟨laid₂, l₂, h₂⟩ := h₁.laid_bootMapRegion cfg.mapOk_pages (by rwa [hsize]) hm₂
  obtain ⟨laid₃, l₃, h₃⟩ := h₂.laid_bootMapRegion mapOk_uenvs (by decide) hm₃
  obtain ⟨laid₄, l₄, h₄⟩ := h₃.laid_bootMapRegion mapOk_bootstack (by decide) hm₄
  obtain ⟨laid₅, l₅, h₅⟩ := h₄.laid_foldlM (g := cfg.kstackEntries) (fun i m m' l hb hrun ↦ by
    simp only [hpaddr (cfg.le_percpuKstacks i)] at hrun
    refine hb.laid_bootMapRegion (mapOk_kstack i) ?_ hrun
    rw [← kstackBase, pgnum_kstackBase, show (KSTKSIZE.toNat + (PGSIZE - 1)) / PGSIZE = 8 from rfl]
    omega) _ hm₅
  obtain ⟨laid₆, -⟩ := h₅.laid_bootMapRegion mapOk_kernbase (by decide) hm₆
  refine (((((laid₁.trans laid₂).trans laid₃).trans laid₄).trans laid₅).trans laid₆).congr
    fun v _ ↦ ?_
  rw [hsize]
  rfl

theorem phys_initPgdir {m₀ : Mem} {i : ℕ} (hi : i ≠ pdx UVPT) :
    (cfg.initPgdir m₀).phys cfg.machine.kernPgdir i = 0 := by
  rw [initPgdir, Mem.phys_write_of_ne_index _ _ _ hi, Mem.phys_zero_self]

/-- All entries that `mem_init` leaves: those of the kernel's half are the ones it lays, the user's
half of `kern_pgdir` is empty, and the window at `UVPT` is as it was; and the window for devices has
a table. -/
theorem MemInit.entries {m₀ : Mem} (hm : m₀.pageFreeList = none) (h : cfg.MemInit m₀ base m) :
    (∀ v, KernPage v → pteOf m cfg.machine.kernPgdir v = (cfg.entries v).getD 0) ∧
      (∀ i < NUPDE, m.phys cfg.machine.kernPgdir i = 0) ∧
      m.phys cfg.machine.kernPgdir (pdx UVPT) =
        (cfg.layout.kernPgdir - KERNBASE) ||| PTE_U ||| PTE_P ∧
      tableOf m cfg.machine.kernPgdir (pdx MMIOBASE) ≠ none := by
  obtain ⟨m₁, m₂, m₃, ht₁, hmmio, hmap, ht₂⟩ := h
  obtain ⟨l₀, h₀, -⟩ := cfg.kernBoot_pageInit hm
  have hphys := (cfg.pageInit_spec (m := cfg.initPgdir m₀) hm).1
  obtain ⟨l₁, -, h₁, -⟩ := h₀.selfTested ht₁
  obtain ⟨-, l₂, h₂⟩ := h₁.checkMmio_keeps hmmio
  obtain ⟨l₃, h₃⟩ := cfg.bootStep_mapKernel.keeps h₂ hmap
  have hlaid := (((h₀.laid_selfTested ht₁).trans (h₁.laid_checkMmio hmmio).1).trans
    (laid_mapKernel h₂ hmap)).trans (h₃.laid_selfTested ht₂)
  have hUVPT : pdx UVPT = 957 := by decide
  refine ⟨fun v hv ↦ ?_, fun i hi ↦ ?_, ?_, ?_⟩
  · have hnone : tableOf (pageInit cfg.npages cfg.npagesBasemem cfg.kernel (cfg.initPgdir m₀))
        cfg.machine.kernPgdir (v / 1024) = none := by
      rw [tableOf, hphys, phys_initPgdir hv.ne]
      exact entryFrame_zero
    rw [hlaid.entry v hv, pteOf_of_no_table hnone, Option.none_or, Option.or_none]
    cases cfg.entries v with
    | some w => rfl
    | none =>
        rw [Option.none_or]
        split <;> rfl
  · rw [hlaid.other i (.inl hi), hphys, phys_initPgdir]
    rw [NUPDE] at hi
    omega
  · rw [hlaid.other _ (.inr rfl), hphys, initPgdir, Mem.phys_write_self]
  · exact (h₃.laid_selfTested ht₂).grows _ ((laid_mapKernel h₂ hmap).grows _
      (h₁.laid_checkMmio hmmio).2)

/-! ## The map -/

/-- Where `mpconfig.c` has the linker place the stacks: page-aligned, one after another, in the
image of the kernel. -/
structure PercpuKstacks (cfg : BootConfig) (start : Word) : Prop where
  aligned : pgoff start = 0
  ge : 0xF0100000 ≤ start
  le : start.toNat + NCPU * KSTKSIZE.toNat ≤ cfg.kend.toNat
  eq : ∀ i, cfg.percpuKstacks i = start + BitVec.ofNat 32 i.val * KSTKSIZE

/-- The memory map of `inc/memlayout.h` in `kern_pgdir`. -/
structure MemoryMap (cfg : BootConfig) (m : Mem) : Prop where
  upages : ∀ i < cfg.npages * sizeofPageInfo, ∃ pa, paddr cfg.layout.pages = some pa ∧
    m.va2pa cfg.machine.kernPgdir (UPAGES + BitVec.ofNat 32 i) = some (pa + BitVec.ofNat 32 i)
  uenvs : ∀ i < sizeofEnvs, ∃ pa, paddr cfg.layout.envs = some pa ∧
    m.va2pa cfg.machine.kernPgdir (UENVS + BitVec.ofNat 32 i) = some (pa + BitVec.ofNat 32 i)
  kernbase : ∀ i < (-KERNBASE).toNat,
    m.va2pa cfg.machine.kernPgdir (KERNBASE + BitVec.ofNat 32 i) = some (BitVec.ofNat 32 i)
  kstacks : ∀ n : CpuId, ∀ i < KSTKSIZE.toNat, ∃ pa, paddr (cfg.percpuKstacks n) = some pa ∧
    m.va2pa cfg.machine.kernPgdir (kstackBase n + BitVec.ofNat 32 i) =
      some (pa + BitVec.ofNat 32 i)
  gaps : ∀ n : CpuId, ∀ i < KSTKGAP.toNat,
    m.va2pa cfg.machine.kernPgdir (kstackBase n - KSTKGAP + BitVec.ofNat 32 i) = none
  mmio : ∀ va, MMIOBASE ≤ va → va < MMIOLIM → m.va2pa cfg.machine.kernPgdir va = none
  user : ∀ va, va < UTOP → m.va2pa cfg.machine.kernPgdir va = none
  readOnly : ∀ va pde pte, UENVS ≤ va → va < UVPT →
    m.walk cfg.machine.kernPgdir va = some (pde, pte) → ¬ isSet pte PTE_W
  kernelOnly : ∀ va pde pte, ULIM ≤ va →
    m.walk cfg.machine.kernPgdir va = some (pde, pte) → ¬ isSet pte PTE_U

section

variable {v : ℕ}

theorem kstacks_eq_none (h : ∀ i : CpuId, ¬ (0xEFFF8 - 16 * i.val ≤ v ∧ v < 0xF0000 - 16 * i.val)) :
    (List.finRange NCPU).reverse.findSome? (cfg.kstackEntries · v) = none := by
  rw [List.findSome?_eq_none_iff]
  intro i _
  refine regionEntries_of_notMem ?_
  have hi : i.val < 8 := i.isLt
  have := h i
  rw [pgnum_kstackBase]
  omega

theorem pgnum_pages (cfg : BootConfig) : 0xF0000 ≤ pgnum cfg.layout.pages := by
  obtain ⟨-, -, hpages, -⟩ := cfg.layout_bounds
  have hge : KERNBASE.toNat ≤ cfg.layout.pages.toNat := hpages
  rw [show KERNBASE.toNat = 0xF0000 * 4096 from rfl] at hge
  rw [pgnum_eq]
  omega

theorem entries_kernbase (h : 0xF0000 ≤ v) (h' : v < 0x100000) :
    cfg.entries v = regionEntries KERNBASE 0 (PTE_W ||| PTE_P) 65536 v := by
  rw [BootConfig.entries, regionEntries, show pgnum KERNBASE = 0xF0000 by decide,
    if_pos ⟨h, by omega⟩, Option.some_or]

/-- Below `KERNBASE` the stacks come first. -/
theorem entries_of_lt (h : v < 0xF0000) : cfg.entries v =
    ((List.finRange NCPU).reverse.findSome? (cfg.kstackEntries · v)).or
      ((regionEntries (KSTACKTOP - KSTKSIZE) (cfg.bootstack - KERNBASE) (PTE_W ||| PTE_P) 8 v).or
        ((regionEntries UENVS (cfg.layout.envs - KERNBASE) (PTE_U ||| PTE_P) 31 v).or
          (cfg.pagesEntries UPAGES PTE_U v))) := by
  have := pgnum_pages cfg
  have hpages : cfg.pagesEntries cfg.layout.pages PTE_W v = none :=
    regionEntries_of_notMem (by omega)
  have hbase : regionEntries KERNBASE 0 (PTE_W ||| PTE_P) 65536 v = none :=
    regionEntries_of_notMem (by rw [show pgnum KERNBASE = 0xF0000 by decide]; omega)
  rw [BootConfig.entries, hpages, hbase, Option.none_or, Option.none_or]

theorem entries_kstack {n : CpuId} (h : 0xEFFF8 - 16 * n.val ≤ v) (h' : v < 0xF0000 - 16 * n.val) :
    cfg.entries v = cfg.kstackEntries n v := by
  have hn : n.val < 8 := n.isLt
  obtain ⟨w, hw⟩ : ∃ w, cfg.kstackEntries n v = some w := by
    rw [kstackEntries, regionEntries, pgnum_kstackBase, if_pos ⟨h, by omega⟩]
    exact ⟨_, rfl⟩
  have hsome : (List.finRange NCPU).reverse.findSome? (cfg.kstackEntries · v) = some w := by
    cases hfind : (List.finRange NCPU).reverse.findSome? (cfg.kstackEntries · v) with
    | none =>
        rw [List.findSome?_eq_none_iff] at hfind
        exact absurd (hfind n (by simp)) (by rw [hw]; exact Option.some_ne_none w)
    | some w' =>
        -- no other stack has the page
        obtain ⟨i, -, hi⟩ := List.exists_of_findSome?_eq_some hfind
        have hmem : i = n := by
          by_contra hne
          have hne' : i.val ≠ n.val := fun hc ↦ hne (Fin.ext hc)
          have hi' : i.val < 8 := i.isLt
          rw [kstackEntries, regionEntries_of_notMem (by rw [pgnum_kstackBase]; omega)] at hi
          cases hi
        rw [← hi, hmem, hw]
  rw [entries_of_lt (by omega), hsome, hw, Option.some_or]

theorem pgnum_KSTACKTOP : pgnum (KSTACKTOP - KSTKSIZE) = 0xEFFF8 := by decide
theorem pgnum_UENVS : pgnum UENVS = 0xEEC00 := by decide
theorem pgnum_UPAGES : pgnum UPAGES = 0xEF000 := by decide

/-- Below the lowest stack. -/
theorem entries_of_lt_kstacks (h : v < 0xEFF88) : cfg.entries v =
    (regionEntries UENVS (cfg.layout.envs - KERNBASE) (PTE_U ||| PTE_P) 31 v).or
      (cfg.pagesEntries UPAGES PTE_U v) := by
  have hstacks : (List.finRange NCPU).reverse.findSome? (cfg.kstackEntries · v) = none :=
    kstacks_eq_none fun i ↦ by
      have hi : i.val < 8 := i.isLt
      omega
  rw [entries_of_lt (by omega), hstacks, Option.none_or,
    regionEntries_of_notMem (by rw [pgnum_KSTACKTOP]; omega), Option.none_or]

theorem entries_uenvs (h : 0xEEC00 ≤ v) (h' : v < 0xEEC1F) : cfg.entries v =
    regionEntries UENVS (cfg.layout.envs - KERNBASE) (PTE_U ||| PTE_P) 31 v := by
  rw [entries_of_lt_kstacks (by omega), regionEntries, pgnum_UENVS, if_pos ⟨h, by omega⟩,
    Option.some_or]

theorem entries_upages (h : 0xEF000 ≤ v) (h' : v < 0xEF000 + (cfg.npages * 8 + 4095) / 4096) :
    cfg.entries v = cfg.pagesEntries UPAGES PTE_U v := by
  have hn := cfg.npages_le
  rw [entries_of_lt_kstacks (by omega), regionEntries_of_notMem (by rw [pgnum_UENVS]; omega),
    Option.none_or]

theorem entries_eq_none (h : 0xEF080 ≤ v) (h' : v < 0xF0000)
    (hno : ∀ i : CpuId, ¬ (0xEFFF8 - 16 * i.val ≤ v ∧ v < 0xF0000 - 16 * i.val)) :
    cfg.entries v = none := by
  have hn := cfg.npages_le
  have h0 := hno ⟨0, by decide⟩
  have hpages : cfg.pagesEntries UPAGES PTE_U v = none :=
    regionEntries_of_notMem (by rw [pgnum_UPAGES]; omega)
  rw [entries_of_lt h', kstacks_eq_none hno, hpages,
    regionEntries_of_notMem (by rw [pgnum_KSTACKTOP]; omega),
    regionEntries_of_notMem (by rw [pgnum_UENVS]; omega)]
  rfl

/-- A range of pages for which one mapping is on top. -/
theorem va2pa_of_entries {start pa : Word} (perm : Word) (n : ℕ) {i : ℕ}
    (he : ∀ v, KernPage v → pteOf m cfg.machine.kernPgdir v = (cfg.entries v).getD 0)
    (hstart : pgoff start = 0) (hpa : pgoff pa = 0) (hperm : perm.toNat < 4096)
    (hlo : 0xEEC00 ≤ pgnum start) (hfit : start.toNat + n * 4096 ≤ 4294967296)
    (hent : ∀ v, pgnum start ≤ v → v < pgnum start + n →
      v / 1024 ≠ 957 ∧ cfg.entries v = regionEntries start pa perm n v) (hi : i < n * 4096) :
    m.va2pa cfg.machine.kernPgdir (start + BitVec.ofNat 32 i) = some (pa + BitVec.ofNat 32 i) := by
  have hUVPT : pdx UVPT = 957 := by decide
  have hpg : pgnum (start + BitVec.ofNat 32 i) = pgnum start + i / 4096 := by
    have hoff := flags_toNat start
    rw [show flags start = 0 from hstart, show (0 : Word).toNat = 0 from rfl] at hoff
    rw [pgnum_eq, pgnum_eq, BitVec.toNat_add, BitVec.toNat_ofNat]
    omega
  have hge : pgnum start ≤ pgnum (start + BitVec.ofNat 32 i) := by omega
  have hlt : pgnum (start + BitVec.ofNat 32 i) < pgnum start + n := by omega
  obtain ⟨hne, hv⟩ := hent _ hge hlt
  have hkern : KernPage (pgnum (start + BitVec.ofNat 32 i)) := by
    have hps := pgnum_eq start
    exact ⟨by rw [NUPDE]; omega, by omega, by rwa [hUVPT]⟩
  refine Mem.va2pa_of_region hstart hpa hperm hi (by omega) ?_
  rw [he _ hkern, hv, regionEntries, if_pos ⟨hge, hlt⟩]
  rfl

end

/-- `mem_init` leaves the memory map behind. -/
theorem MemInit.memoryMap {m₀ : Mem} {start : Word} (hk : PercpuKstacks cfg start)
    (hm : m₀.pageFreeList = none) (h : cfg.MemInit m₀ base m) : cfg.MemoryMap m := by
  obtain ⟨he, huser, -, -⟩ := h.entries hm
  obtain ⟨-, -, hpages, henvs⟩ := cfg.layout_bounds
  obtain ⟨-, l, hboot⟩ := cfg.memInit_spec hm h
  obtain ⟨first, hfirst, -, -, -, -, hPn, hP, hEn, hE, -⟩ :=
    bootLayout_some cfg.npages_le cfg.layout_eq
  have hn := cfg.npages_le
  have hpaddr : ∀ {kva : Word}, KERNBASE ≤ kva → paddr kva = some (kva - KERNBASE) :=
    fun hkva ↦ if_neg (BitVec.not_lt.mpr hkva)
  have halign : ∀ w : Word, w.toNat % 4096 = 0 → pgoff w = 0 := fun w hw ↦
    BitVec.eq_of_toNat_eq (by rw [show (pgoff w).toNat = _ from flags_toNat w, hw]; rfl)
  have hKB : KERNBASE.toNat = 4026531840 := rfl
  have hkva : ∀ {kva : Word}, KERNBASE ≤ kva → (kva - KERNBASE).toNat = kva.toNat - 4026531840 :=
    fun hle ↦ by rw [BitVec.toNat_sub_of_le hle, hKB]
  have hkva' : ∀ {kva : Word}, KERNBASE ≤ kva → 4026531840 ≤ kva.toNat := fun hle ↦ hle
  have hUVPT : pdx UVPT = 957 := by decide
  have hULIM : pdx ULIM = 958 := by decide
  have hnone : ∀ {va : Word}, 0xEF800 ≤ pgnum va → pgnum va < 0xF0000 →
      (∀ j : CpuId, ¬ (0xEFFF8 - 16 * j.val ≤ pgnum va ∧ pgnum va < 0xF0000 - 16 * j.val)) →
      m.va2pa cfg.machine.kernPgdir va = none := fun h1 h2 hno ↦ by
    refine Mem.va2pa_eq_none ?_
    rw [he _ ⟨by rw [NUPDE]; omega, by omega, by omega⟩, entries_eq_none (by omega) h2 hno]
    rfl
  constructor
  case upages =>
    intro i hi
    rw [sizeofPageInfo] at hi
    have hpn := pgnum_UPAGES
    refine ⟨_, hpaddr hpages, va2pa_of_entries (PTE_U ||| PTE_P)
      ((cfg.npages * 8 + 4095) / 4096) he (by decide) (halign _ ?_) (by decide)
      (by decide) ?_ (fun v h1 h2 ↦ ⟨?_, entries_upages ?_ ?_⟩) ?_⟩
    · have := hkva' hpages
      rw [hkva hpages, hPn]
      omega
    · rw [show UPAGES.toNat = 4009754624 from rfl]
      omega
    all_goals omega
  case uenvs =>
    intro i hi
    rw [sizeofEnvs, sizeofEnv] at hi
    have hpn := pgnum_UENVS
    refine ⟨_, hpaddr henvs, va2pa_of_entries (PTE_U ||| PTE_P) 31 he (by decide)
      (halign _ ?_) (by decide) (by decide) (by decide)
      (fun v h1 h2 ↦ ⟨?_, entries_uenvs ?_ ?_⟩) ?_⟩
    · have := hkva' henvs
      rw [hkva henvs, hEn]
      omega
    all_goals omega
  case kernbase =>
    intro i hi
    rw [show (-KERNBASE).toNat = 65536 * 4096 from rfl] at hi
    have hpn : pgnum KERNBASE = 0xF0000 := by decide
    have hva : m.va2pa cfg.machine.kernPgdir (KERNBASE + BitVec.ofNat 32 i) =
        some (0 + BitVec.ofNat 32 i) :=
      va2pa_of_entries (PTE_W ||| PTE_P) 65536 he (by decide) (by decide) (by decide) (by decide)
        (by decide)
        (fun v h1 h2 ↦ ⟨by omega, entries_kernbase (by omega) (by omega)⟩) hi
    exact hva.trans (congrArg some (BitVec.zero_add _))
  case kstacks =>
    intro n i hi
    rw [show KSTKSIZE.toNat = 8 * 4096 from rfl] at hi
    have hpn := pgnum_kstackBase n
    have hbase := kstackBase_toNat n
    have hn8 : n.val < 8 := n.isLt
    have hle := cfg.le_percpuKstacks n
    refine ⟨_, hpaddr hle, va2pa_of_entries (PTE_W ||| PTE_P) 8 he (halign _ ?_)
      (halign _ ?_) (by decide) ?_ ?_ (fun v h1 h2 ↦ ⟨?_, entries_kstack ?_ ?_⟩) hi⟩
    · omega
    · have := hkva' hle
      have hoff := flags_toNat start
      rw [show flags start = 0 from hk.aligned, show (0 : Word).toNat = 0 from rfl] at hoff
      rw [hkva hle, hk.eq, BitVec.toNat_add, BitVec.toNat_mul, BitVec.toNat_ofNat,
        show KSTKSIZE.toNat = 8 * 4096 from rfl]
      omega
    all_goals omega
  case gaps =>
    intro n i hi
    rw [show KSTKGAP.toNat = 8 * 4096 from rfl] at hi
    have hbase := kstackBase_toNat n
    have hn8 : n.val < 8 := n.isLt
    have hpg : pgnum (kstackBase n - KSTKGAP + BitVec.ofNat 32 i) =
        0xEFFF0 - 16 * n.val + i / 4096 := by
      rw [pgnum_eq, BitVec.toNat_add, BitVec.toNat_sub, BitVec.toNat_ofNat, hbase,
        show KSTKGAP.toNat = 8 * 4096 from rfl]
      omega
    refine hnone ?_ ?_ fun j ↦ ?_
    · omega
    · omega
    · have hj8 : j.val < 8 := j.isLt
      omega
  case mmio =>
    intro va h1 h2
    have h1' : 0xEF800 * 4096 ≤ va.toNat := h1
    have h2' : va.toNat < 0xEFC00 * 4096 := h2
    have hpg := pgnum_eq va
    refine hnone (by omega) (by omega) fun j ↦ ?_
    have hj8 : j.val < 8 := j.isLt
    omega
  case user =>
    intro va hva
    exact Mem.va2pa_eq_none_of_pde (huser _ (pdx_lt_of_lt_UTOP hva))
  case readOnly =>
    intro va pde pte h1 h2 hw
    have h1' : 955 * 4194304 ≤ va.toNat := h1
    have h2' : va.toNat < 957 * 4194304 := h2
    have hpg := pgnum_eq va
    rw [← Mem.pteOf_of_walk hw]
    exact (hboot.kernPerm_pteOf ⟨by rw [NUPDE]; omega, by omega, by omega⟩).1 (by omega)
  case kernelOnly =>
    intro va pde pte h1 hw
    have h1' : 958 * 4194304 ≤ va.toNat := h1
    have hpg := pgnum_eq va
    have hva := va.isLt
    rw [← Mem.pteOf_of_walk hw]
    exact (hboot.kernPerm_pteOf ⟨by rw [NUPDE]; omega, by omega, by omega⟩).2 (by omega)

end BootConfig

end Jos
