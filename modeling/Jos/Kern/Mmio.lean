import Jos.Kern.Booted
import Jos.Kern.MemInit

/-!
# The window for devices (`mmio_map_region`)

`mmio_map_region` reserves one region after the other.  `ROUNDUP` and the sum that is compared with
`MMIOLIM` are 32-bit arithmetic, and wrap around.  An entry holds a page's address, so a region of
physical memory that does not start at a page is not mapped byte by byte.  A call that needs a new
page table changes what is seen at `UVPT`, too.
-/

namespace Jos

open Jos.Lib

variable {B : Machine} {M : Pool B} {m m' : Mem} {base base' r pa size va : Word}
  {rs : List (Word × Word)}

/-- Memory when `mmio_map_region` is called: the kernel boots, and the user's half of `kern_pgdir`
is empty. -/
structure MmioReady (B : Machine) (M : Pool B) (m : Mem) : Prop where
  boot : ∃ l, KernBoot B M m l
  user : ∀ i < NUPDE, m.phys B.kernPgdir i = 0
  window : tableOf m B.kernPgdir (pdx UVPT) = some B.kernPgdir

/-- Calls of `mmio_map_region` while the kernel boots: the sizes and addresses of the regions so
far, the static variable `base`, and memory.  In between memory may change.  No call so far made the
arithmetic wrap around. -/
inductive MmioRun (B : Machine) (M : Pool B) : List (Word × Word) → Word → Mem → Prop
  | start {m : Mem} (ready : MmioReady B M m) : MmioRun B M [] MMIOBASE m
  | other {rs : List (Word × Word)} {base : Word} {m m' : Mem} (run : MmioRun B M rs base m)
      (ready : MmioReady B M m') : MmioRun B M rs base m'
  | call {rs : List (Word × Word)} {base base' r pa size : Word} {m m' : Mem}
      (run : MmioRun B M rs base m) (fits : base.toNat + size.toNat ≤ 0xFFFFF000)
      (call : mmioMapRegion B m base pa size = some (r, base', m')) :
      MmioRun B M ((size, r) :: rs) base' m'

/-- What a call promises. -/
structure Reserved (B : Machine) (rs : List (Word × Word)) (m m' : Mem) (r pa size : Word) :
    Prop where
  within : MMIOBASE ≤ r ∧ r.toNat + size.toNat ≤ MMIOLIM.toNat
  disjoint : ∀ c ∈ rs, Disjoint (chunk c) (chunk (size, r))
  mapped : ∀ k < size.toNat, m'.va2pa B.kernPgdir (r + BitVec.ofNat 32 k) =
      some (pa + BitVec.ofNat 32 k) ∧
    ∃ pde pte, m'.walk B.kernPgdir (r + BitVec.ofNat 32 k) = some (pde, pte) ∧
      isSet pte PTE_W ∧ isSet pte PTE_PCD ∧ isSet pte PTE_PWT ∧ ¬ isSet pte PTE_U
  frame : ∀ va, (∀ k < size.toNat, pgnum va ≠ pgnum (r + BitVec.ofNat 32 k)) →
    m'.walk B.kernPgdir va = m.walk B.kernPgdir va

/-- When a call keeps the promise: nothing wraps around, and if there is anything to map, it starts
at a page, and the window has its page table already. -/
def MmioMeets (B : Machine) (m : Mem) (base pa size : Word) : Prop :=
  base.toNat + size.toNat ≤ 0xFFFFF000 ∧
    (size = 0 ∨ pgoff pa = 0 ∧ tableOf m B.kernPgdir (pdx MMIOBASE) ≠ none)

/-! ## Runs -/

/-- What holds of `base` and of the regions. -/
structure MmioInv (rs : List (Word × Word)) (base : Word) : Prop where
  aligned : base.toNat % 4096 = 0
  ge : MMIOBASE ≤ base
  le : base ≤ MMIOLIM
  below : ∀ c ∈ rs, c.2.toNat + c.1.toNat ≤ base.toNat

theorem roundup_toNat_of_le (size : Word) (hsize : size.toNat ≤ 0xFFFFF000) :
    (roundup size 0x1000).toNat = (size.toNat + 4095) / 4096 * 4096 := by
  rw [roundup_toNat]
  omega

/-- A call that returns without wrapping around ends in the window. -/
theorem MmioInv.sum_le (h : MmioInv rs base) (hfits : base.toNat + size.toNat ≤ 0xFFFFF000)
    (hrun : mmioMapRegion B m base pa size = some (r, base', m')) :
    base.toNat + (roundup size 0x1000).toNat ≤ MMIOLIM.toNat := by
  have hround := roundup_toNat_of_le size (by omega)
  have haligned := h.aligned
  have hsum : (base + roundup size 0x1000).toNat = base.toNat + (roundup size 0x1000).toNat := by
    rw [BitVec.toNat_add, Nat.mod_eq_of_lt (by omega)]
  obtain ⟨-, -, hle, -⟩ := mmioMapRegion_some hrun
  rw [BitVec.not_lt, BitVec.le_def, hsum] at hle
  exact hle

theorem MmioReady.call (h : MmioReady B M m) (hinv : MmioInv rs base)
    (hfits : base.toNat + size.toNat ≤ 0xFFFFF000)
    (hrun : mmioMapRegion B m base pa size = some (r, base', m')) :
    r = base ∧ Laid B m m' (mmioEntries base pa size) ∧ MmioReady B M m' ∧
      MmioInv ((size, r) :: rs) base' := by
  obtain ⟨l, hboot⟩ := h.boot
  have hsum := hinv.sum_le hfits hrun
  have hround := roundup_toNat_of_le size (by omega)
  have haligned := hinv.aligned
  have hlim : MMIOLIM.toNat = 4022337536 := rfl
  have hadd : (base + roundup size 0x1000).toNat = base.toNat + (roundup size 0x1000).toNat := by
    rw [BitVec.toNat_add, Nat.mod_eq_of_lt (by omega)]
  obtain ⟨rfl, rfl, hlaid, hboot'⟩ := hboot.laid_mmioMapRegion hinv.ge hsum hrun
  have hge := BitVec.le_def.mp hinv.ge
  refine ⟨rfl, hlaid, ⟨hboot', fun i hi ↦ ?_, ?_⟩, ?_, ?_, ?_, fun c hc ↦ ?_⟩
  · rw [hlaid.other i (.inl hi), h.user i hi]
  · rw [tableOf, hlaid.other _ (.inr rfl)]
    exact h.window
  · omega
  · rw [BitVec.le_def]
    omega
  · rw [BitVec.le_def]
    omega
  · rcases List.mem_cons.mp hc with rfl | hc
    · simp only
      omega
    · have := hinv.below c hc
      omega

theorem MmioRun.spec (h : MmioRun B M rs base m) : MmioReady B M m ∧ MmioInv rs base := by
  induction h with
  | start ready => exact ⟨ready, rfl, by decide, by decide, nofun⟩
  | other _ ready ih => exact ⟨ready, ih.2⟩
  | call _ fits hrun ih =>
      obtain ⟨-, -, hready, hinv⟩ := ih.1.call ih.2 fits hrun
      exact ⟨hready, hinv⟩

/-! ## One call -/

/-- What the entries of the window allow. -/
theorem mmioEntry_perm (w : Word) :
    isSet (pteAddr w ||| (PTE_PCD ||| PTE_PWT ||| PTE_W) ||| PTE_P) PTE_W ∧
      isSet (pteAddr w ||| (PTE_PCD ||| PTE_PWT ||| PTE_W) ||| PTE_P) PTE_PCD ∧
      isSet (pteAddr w ||| (PTE_PCD ||| PTE_PWT ||| PTE_W) ||| PTE_P) PTE_PWT ∧
      ¬ isSet (pteAddr w ||| (PTE_PCD ||| PTE_PWT ||| PTE_W) ||| PTE_P) PTE_U := by
  have hPCD : ∀ {x : Word}, isSet x PTE_PCD ↔ x.getLsbD 4 = true :=
    isSet_twoPow (i := 4) (by decide)
  have hPWT : ∀ {x : Word}, isSet x PTE_PWT ↔ x.getLsbD 3 = true :=
    isSet_twoPow (i := 3) (by decide)
  rw [isSet_W, hPCD, hPWT, isSet_U]
  simp [pteAddr, PTE_P, PTE_W, PTE_PCD, PTE_PWT]

theorem pgoff_eq_zero {w : Word} : pgoff w = 0 ↔ w.toNat % 4096 = 0 := by
  rw [← flags_toNat]
  exact ⟨fun h ↦ congrArg BitVec.toNat h, fun h ↦ BitVec.eq_of_toNat_eq h⟩

/-- The pages of a region in the window. -/
theorem MmioInv.pgnum_add (h : MmioInv rs base) {k : ℕ} (hk : base.toNat + k ≤ MMIOLIM.toNat) :
    pgnum (base + BitVec.ofNat 32 k) = pgnum base + k / 4096 := by
  have haligned := h.aligned
  have hlim : MMIOLIM.toNat = 4022337536 := rfl
  rw [pgnum_eq, pgnum_eq, BitVec.toNat_add, BitVec.toNat_ofNat]
  omega

theorem MmioInv.pgnum_base (h : MmioInv rs base) : 0xEF800 ≤ pgnum base := by
  have hge : 0xEF800 * 4096 ≤ base.toNat := h.ge
  rw [pgnum_eq]
  omega

/-- The window at `UVPT` shows `kern_pgdir`. -/
theorem MmioReady.walk_window (h : MmioReady B M m) (hva : pdx va = pdx UVPT) :
    m.walk B.kernPgdir va = if isSet (m.phys B.kernPgdir (ptx va)) PTE_P then
      some (m.phys B.kernPgdir (pdx UVPT), m.phys B.kernPgdir (ptx va)) else none := by
  rw [Mem.walk_eq_pteOf, pteOf_of_table (by rw [pgnum_div, hva]; exact h.window), pgnum_mod, hva]

theorem MmioReady.walk_user (h : MmioReady B M m) (hva : pdx va < NUPDE) :
    m.walk B.kernPgdir va = none := by
  rw [Mem.walk, h.user _ hva]
  rfl

section

variable (h : MmioReady B M m) (hinv : MmioInv rs base)
  (hrun : mmioMapRegion B m base pa size = some (r, base', m'))

include h hinv hrun

/-- Where the window has its table, `kern_pgdir` stays as it is. -/
theorem MmioReady.pgdir (hmeets : MmioMeets B m base pa size) :
    m'.phys B.kernPgdir = m.phys B.kernPgdir := by
  obtain ⟨hfits, hmeets⟩ := hmeets
  obtain ⟨l, hboot⟩ := h.boot
  have hsum := hinv.sum_le hfits hrun
  have hround := roundup_toNat_of_le size (by omega)
  have hlim : MMIOLIM.toNat = 4022337536 := rfl
  have hge : 4018143232 ≤ base.toNat := hinv.ge
  obtain ⟨-, -, -, hmap⟩ := mmioMapRegion_some hrun
  refine hboot.pgdir_bootMapRegion
    (mapOk_kernel 958 959 (by omega) (by omega) (by decide) (by decide) (by decide))
    (fun k hk ↦ ?_) hmap
  rw [hround, PGSIZE] at hk
  have hdir : pdx (base + BitVec.ofNat 32 (k * PGSIZE)) = pdx MMIOBASE := by
    rw [pdx_eq, BitVec.toNat_add, BitVec.toNat_ofNat, PGSIZE, show pdx MMIOBASE = 958 by decide]
    omega
  rw [hdir]
  rcases hmeets with rfl | ⟨-, htab⟩
  · rw [show (0 : Word).toNat = 0 from rfl] at hk
    omega
  · exact htab

/-- What the call leaves of the other translations. -/
theorem MmioReady.frame (hmeets : MmioMeets B m base pa size)
    (hva : ∀ k < size.toNat, pgnum va ≠ pgnum (base + BitVec.ofNat 32 k)) :
    m'.walk B.kernPgdir va = m.walk B.kernPgdir va := by
  have hpgdir := h.pgdir hinv hrun hmeets
  have hsum := hinv.sum_le hmeets.1 hrun
  have hround := roundup_toNat_of_le size (by have := hmeets.1; omega)
  obtain ⟨-, hlaid, h', -⟩ := h.call hinv hmeets.1 hrun
  rcases Nat.lt_or_ge (pdx va) NUPDE with hu | hk
  · rw [h'.walk_user hu, h.walk_user hu]
  by_cases hw : pdx va = pdx UVPT
  · rw [h'.walk_window hw, h.walk_window hw, hpgdir]
  · -- one of the kernel's pages, but not of the region
    have hkern : KernPage (pgnum va) := by
      have := va.isLt
      refine ⟨by rwa [pgnum_div], ?_, by rwa [pgnum_div]⟩
      rw [pgnum_eq]
      omega
    have hnone : mmioEntries base pa size (pgnum va) = none := by
      refine regionEntries_of_notMem ?_
      rintro ⟨h1, h2⟩
      rw [hround, PGSIZE] at h2
      have hpg := hinv.pgnum_add (k := (pgnum va - pgnum base) * 4096) (by omega)
      exact hva ((pgnum va - pgnum base) * 4096) (by omega) (by omega)
    rw [Mem.walk_eq_pteOf, Mem.walk_eq_pteOf, hlaid.entry _ hkern, hnone, hpgdir]
    rfl

/-- The region is mapped. -/
theorem MmioReady.mapped (hfits : base.toNat + size.toNat ≤ 0xFFFFF000) (hpa : pgoff pa = 0)
    {k : ℕ} (hk : k < size.toNat) :
    m'.va2pa B.kernPgdir (base + BitVec.ofNat 32 k) = some (pa + BitVec.ofNat 32 k) ∧
    ∃ pde pte, m'.walk B.kernPgdir (base + BitVec.ofNat 32 k) = some (pde, pte) ∧
      isSet pte PTE_W ∧ isSet pte PTE_PCD ∧ isSet pte PTE_PWT ∧ ¬ isSet pte PTE_U := by
  have hsum := hinv.sum_le hfits hrun
  have hround := roundup_toNat_of_le size (by omega)
  have hlim : MMIOLIM.toNat = 4022337536 := rfl
  have hbase := hinv.pgnum_base
  have hpg := hinv.pgnum_add (k := k) (by omega)
  have hpn := pgnum_eq base
  obtain ⟨-, hlaid, -, -⟩ := h.call hinv hfits hrun
  have hkern : KernPage (pgnum (base + BitVec.ofNat 32 k)) :=
    ⟨by rw [NUPDE]; omega, by omega, by rw [show pdx UVPT = 957 by decide]; omega⟩
  -- the entry of the page
  have hmem : pgnum base ≤ pgnum (base + BitVec.ofNat 32 k) ∧ pgnum (base + BitVec.ofNat 32 k) <
      pgnum base + ((roundup size 0x1000).toNat + (PGSIZE - 1)) / PGSIZE := by
    rw [hround, PGSIZE]
    omega
  have hpte := hlaid.entry _ hkern
  rw [mmioEntries, regionEntries, if_pos hmem, Option.getD_some] at hpte
  obtain ⟨hW, hPCD, hPWT, hU⟩ := mmioEntry_perm
    (pa + BitVec.ofNat 32 ((pgnum (base + BitVec.ofNat 32 k) - pgnum base) * 4096))
  refine ⟨Mem.va2pa_of_region (pgoff_eq_zero.mpr hinv.aligned) hpa
    (by decide : (PTE_PCD ||| PTE_PWT ||| PTE_W).toNat < 4096)
    (n := ((roundup size 0x1000).toNat + (PGSIZE - 1)) / PGSIZE) ?_ (by omega) ?_, ?_⟩
  · rw [hround, PGSIZE]
    omega
  · rw [hpte, regionEntries, if_pos hmem]
  · have hP : isSet (pteOf m' B.kernPgdir (pgnum (base + BitVec.ofNat 32 k))) PTE_P := by
      rw [hpte]
      exact isSet_P.mpr (by simp [PTE_P])
    exact ⟨_, _, by rw [Mem.walk_eq_pteOf, if_pos hP, hpte], hW, hPCD, hPWT, hU⟩

end

/-- A new page table is seen in the window at `UVPT`. -/
theorem MmioReady.table_of_frame (h : MmioReady B M m) (h' : MmioReady B M m')
    (hframe : m'.walk B.kernPgdir (UVPT + 0x3BE000) = m.walk B.kernPgdir (UVPT + 0x3BE000))
    (htab : tableOf m' B.kernPgdir (pdx MMIOBASE) ≠ none) :
    tableOf m B.kernPgdir (pdx MMIOBASE) ≠ none := by
  intro hnone
  have hva : pdx (UVPT + 0x3BE000) = pdx UVPT := by decide
  have hix : ptx (UVPT + 0x3BE000) = pdx MMIOBASE := by decide
  have hP : isSet (m'.phys B.kernPgdir (pdx MMIOBASE)) PTE_P :=
    not_not.mp fun hc ↦ htab (tableOf_eq_none.mpr hc)
  rw [h'.walk_window hva, h.walk_window hva, hix, if_pos hP, if_neg (tableOf_eq_none.mp hnone)]
    at hframe
  cases hframe

/-- A call that returns keeps its promise if and only if neither the rounding nor the sum wraps
around, and, for a region that is not empty, the physical address is that of a page and the page
table is there. -/
theorem mmio_map_region_iff (run : MmioRun B M rs base m)
    (call : mmioMapRegion B m base pa size = some (r, base', m')) :
    Reserved B rs m m' r pa size ↔ MmioMeets B m base pa size := by
  obtain ⟨h, hinv⟩ := run.spec
  have hlim : MMIOLIM.toNat = 4022337536 := rfl
  obtain ⟨rfl, -, -, -⟩ := mmioMapRegion_some call
  constructor
  · intro hres
    have hfits : r.toNat + size.toNat ≤ 0xFFFFF000 := by
      have := hres.within.2
      omega
    refine ⟨hfits, ?_⟩
    by_cases hsize : size = 0
    · exact .inl hsize
    have hpos : 0 < size.toNat :=
      Nat.pos_of_ne_zero fun hc ↦ hsize (BitVec.eq_of_toNat_eq hc)
    obtain ⟨hva, pde, pte, hw, -⟩ := hres.mapped 0 hpos
    rw [BitVec.add_zero] at hva hw
    refine .inr ⟨?_, ?_⟩
    · -- the first byte is where its page begins
      have hoff : pgoff r = 0#32 := pgoff_eq_zero.mpr hinv.aligned
      rw [Mem.va2pa, hw, Option.map_some, Option.some.injEq, hoff, BitVec.add_zero,
        BitVec.add_zero] at hva
      rw [pgoff_eq_zero, ← hva, pteAddr_toNat, Nat.mul_mod_left]
    · obtain ⟨-, -, h', -⟩ := h.call hinv hfits call
      refine h.table_of_frame h' (hres.frame _ fun k hk ↦ ?_) ?_
      · have hpg := hinv.pgnum_add (k := k) (by have := hres.within.2; omega)
        have hbase := hinv.pgnum_base
        rw [hpg, show pgnum (UVPT + 0x3BE000) = 0xEF7BE by decide]
        omega
      · obtain ⟨⟨-, hP⟩, -⟩ := Mem.walk_eq_some.mp hw
        have hdir : pdx r = pdx MMIOBASE := by
          have := hres.within.2
          have hge : 4018143232 ≤ r.toNat := hinv.ge
          rw [pdx_eq, show pdx MMIOBASE = 958 by decide]
          omega
        rw [← hdir]
        exact fun hc ↦ tableOf_eq_none.mp hc (by rwa [← (Mem.walk_eq_some.mp hw).1.1])
  · intro hmeets
    have hsum := hinv.sum_le hmeets.1 call
    have hround := roundup_toNat_of_le size (by have := hmeets.1; omega)
    refine ⟨⟨hinv.ge, by omega⟩, fun c hc ↦ ?_, fun k hk ↦ ?_, fun va hva ↦
      h.frame hinv call hmeets hva⟩
    · have hle := hinv.below c hc
      rw [Set.disjoint_left]
      rintro x ⟨-, h1⟩ ⟨h2, -⟩
      simp only at h1 h2
      omega
    · rcases hmeets.2 with rfl | ⟨hpa, -⟩
      · exact absurd hk (Nat.not_lt_zero k)
      · exact h.mapped hinv call hmeets.1 hpa hk

/-! ## The calls of the kernel -/

theorem MmioReady.of_laid (h : MmioReady B M m) {g : ℕ → Option Word} (hlaid : Laid B m m' g)
    (hboot : ∃ l, KernBoot B M m' l) : MmioReady B M m' where
  boot := hboot
  user i hi := by rw [hlaid.other i (.inl hi), h.user i hi]
  window := by
    rw [tableOf, hlaid.other _ (.inr rfl)]
    exact h.window

namespace BootConfig

variable {cfg : BootConfig} {m₀ : Mem}

theorem mmioReady_pageInit (hm : m₀.pageFreeList = none) : MmioReady cfg.machine cfg.pool
    (pageInit cfg.npages cfg.npagesBasemem cfg.kernel (cfg.initPgdir m₀)) := by
  obtain ⟨l, hboot, -⟩ := cfg.kernBoot_pageInit hm
  have hphys := (cfg.pageInit_spec (m := cfg.initPgdir m₀) hm).1
  have hUVPT : pdx UVPT = 957 := by decide
  refine ⟨⟨l, hboot⟩, fun i hi ↦ ?_, ?_⟩
  · rw [hphys, phys_initPgdir]
    rw [NUPDE] at hi
    omega
  · -- the directory is at the start of a page
    obtain ⟨first, -, -, -, hK, -⟩ := bootLayout_some cfg.npages_le cfg.layout_eq
    have haddr : pteAddr (cfg.layout.kernPgdir - KERNBASE) = cfg.layout.kernPgdir - KERNBASE := by
      apply BitVec.eq_of_toNat_eq
      rw [pteAddr_toNat, BitVec.toNat_sub, hK, show KERNBASE.toNat = 983040 * 4096 from rfl]
      omega
    have hw : (cfg.initPgdir m₀).phys cfg.machine.kernPgdir (pdx UVPT) =
        pteAddr (cfg.layout.kernPgdir - KERNBASE) ||| PTE_U ||| PTE_P := by
      rw [initPgdir, Mem.phys_write_self, haddr]
    rw [tableOf, hphys, hw, entryFrame_of_isSet (isSet_P.mpr (by simp [PTE_P])), frame,
      pteAddr_entry (by decide), haddr]
    rfl

/-- `mem_init` calls `mmio_map_region` twice. -/
theorem MemInit.mmioRun (hm : m₀.pageFreeList = none) (h : cfg.MemInit m₀ base m) :
    ∃ rs, MmioRun cfg.machine cfg.pool rs base m := by
  obtain ⟨-, hboot⟩ := cfg.memInit_spec hm h
  obtain ⟨m₁, m₂, m₃, ht₁, hmmio, hmap, ht₂⟩ := h
  obtain ⟨l₀, h₀, -⟩ := cfg.kernBoot_pageInit hm
  obtain ⟨l₁, -, h₁, -⟩ := h₀.selfTested ht₁
  obtain ⟨-, l₂, h₂⟩ := h₁.checkMmio_keeps hmmio
  obtain ⟨l₃, h₃⟩ := cfg.bootStep_mapKernel.keeps h₂ hmap
  have ready₁ := (mmioReady_pageInit hm).of_laid (h₀.laid_selfTested ht₁) ⟨l₁, h₁⟩
  have ready₂ := ready₁.of_laid (h₁.laid_checkMmio hmmio).1 ⟨l₂, h₂⟩
  have ready₃ := ready₂.of_laid (laid_mapKernel h₂ hmap) ⟨l₃, h₃⟩
  have ready := ready₃.of_laid (h₃.laid_selfTested ht₂) hboot
  simp only [checkMmio, Option.bind_eq_bind, Option.bind_eq_some_iff, Option.pure_def,
    Option.some.injEq, Prod.exists, Prod.mk.injEq] at hmmio
  obtain ⟨mm1, base₁, m₄, hm₄, mm2, base₂, m₅, hm₅, _, -, _, -, _, -, rfl, -⟩ := hmmio
  obtain ⟨-, rfl, -, -⟩ := mmioMapRegion_some hm₄
  exact ⟨_, (((MmioRun.start ready₁).call (by decide) hm₄).call (by decide) hm₅).other ready⟩

end BootConfig

/-- The CPUs call it before there is an environment. -/
theorem Inited.mmioRun {cfg : BootConfig} {s : Kern} (h : Inited cfg base s) :
    ∃ rs, MmioRun cfg.machine cfg.pool rs base s.mem := by
  induction h with
  | @envInit m₀ m base envs o hempty hmem =>
      rw [(envInit_spec ⟨m, envs, o⟩).1]
      exact hmem.mmioRun hempty
  | lapicInit hinit hmap ih =>
      obtain ⟨rs, hrun⟩ := ih
      have hle := BitVec.le_def.mp hinit.spec.1.2
      rw [show MMIOLIM.toNat = 4022337536 from rfl] at hle
      refine ⟨_, hrun.call ?_ hmap⟩
      rw [show (4096 : Word).toNat = 4096 from rfl]
      omega

/-- The window is empty, and there are pages for its table. -/
theorem exists_mmioReady : ∃ m l, MmioReady demoConfig.machine demoConfig.pool m ∧
    KernBoot demoConfig.machine demoConfig.pool m l ∧ missing demoConfig.machine m ≤ l.length := by
  obtain ⟨base, m, l, el, hinit, hboot, hlen, -⟩ := exists_inited
  obtain ⟨rs, hrun⟩ := hinit.mmioRun
  obtain ⟨-, ⟨l', hb⟩, -⟩ := hinit.spec
  obtain rfl := hb.own.ledger.chain.unique hboot.inv.own.ledger.chain
  exact ⟨_, l', hrun.spec.1, hb, (BootConfig.missing_le _ _).trans (by omega)⟩

theorem mmio_map_region_iff_demo : ∃ m m',
    MmioRun demoConfig.machine demoConfig.pool [] MMIOBASE m ∧
    mmioMapRegion demoConfig.machine m MMIOBASE 0 4096 =
      some (MMIOBASE, MMIOBASE + 4096, m') ∧
    (Reserved demoConfig.machine [] m m' MMIOBASE 0 4096 ↔
      MmioMeets demoConfig.machine m MMIOBASE 0 4096) := by
  obtain ⟨m, l, hready, hboot, hroom⟩ := exists_mmioReady
  obtain ⟨m', -, call, -⟩ := hboot.mmioMapRegion_succeeds 0 4096
    (show MmioBase MMIOBASE from ⟨by decide, by decide⟩) (by decide) (by decide) (by decide) hroom
  exact ⟨m, m', .start hready, call, mmio_map_region_iff (.start hready) call⟩

/-- A size that is rounded up to 0. -/
theorem mmio_map_region_wraps : ∃ m m' r pa size,
    MmioRun demoConfig.machine demoConfig.pool [] MMIOBASE m ∧
    mmioMapRegion demoConfig.machine m MMIOBASE pa size = some (r, MMIOBASE, m') ∧
    ¬ Reserved demoConfig.machine [] m m' r pa size := by
  obtain ⟨m, l, hready, -⟩ := exists_mmioReady
  have hzero : roundup 0xFFFFFFFF 0x1000 = 0 := by decide
  refine ⟨m, m, MMIOBASE, 0, 0xFFFFFFFF, .start hready, ?_, fun hres ↦
    absurd hres.within.2 (by decide)⟩
  have hsum : MMIOBASE + roundup 0xFFFFFFFF 0x1000 = MMIOBASE := by decide
  have hmap : bootMapRegion demoConfig.machine m demoConfig.machine.kernPgdir MMIOBASE
      (roundup 0xFFFFFFFF 0x1000) 0 (PTE_PCD ||| PTE_PWT ||| PTE_W) = some m := by
    rw [hzero, bootMapRegion, show ((0 : Word).toNat + (PGSIZE - 1)) / PGSIZE = 0 from rfl]
    rfl
  simp only [mmioMapRegion, hsum, hmap]
  rfl

end Jos
