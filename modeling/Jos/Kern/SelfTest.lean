import Jos.Kern.Boot

/-!
# The self-tests of `mem_init` (`kern/pmap.c`)

`check_page_free_list`, `check_page_alloc`, `check_page`, `check_kern_pgdir` and
`check_page_installed_pgdir`, and `mem_init` as it calls them.  An assertion that fails is a panic.

Three of the tests are straight lines about a few pages.  They are lists of `Check`s, in the order
of the source, where an `assert` and the call inside it are one `Check` or two.
-/

namespace Jos

open Jos.Lib

/-- `assert`. -/
def assertThat {σ : Type} (p : Prop) [Decidable p] (s : σ) : Option σ := if p then some s else none

/-- The pages that a loop `for (pp = head; pp; pp = pp->pp_link)` visits; none if there are more
than `n`. -/
def Mem.listFrom (m : Mem) : ℕ → Option ℕ → Option (List ℕ)
  | _, none => some []
  | 0, some _ => none
  | n + 1, some pp => (m.listFrom n (m.link pp)).map (pp :: ·)

/-- `memset(page2kva(pp), c, n)`, for a multiple `n` of 4. -/
def Mem.memset (m : Mem) (f : ℕ) (c : BitVec 8) (n : ℕ) : Mem :=
  { m with phys := Function.update m.phys f fun i ↦
      if 4 * i < n then BitVec.ofNat 32 (c.toNat * 0x01010101) else m.phys f i }

section

variable (B : Machine)

/-- `check_va2pa`; `KADDR` panics past the end of memory. -/
def checkVa2pa (m : Mem) (pgdir : ℕ) (va : Word) : Option Word :=
  let pde := m.phys pgdir (pdx va)
  if ¬ isSet pde PTE_P then some (~~~0)
  else do
    let p ← kaddr B (pteAddr pde)
    if ¬ isSet (m.phys p (ptx va)) PTE_P then return ~~~0
    else return pteAddr (m.phys p (ptx va))

/-! ## The statements of the tests -/

/-- The variables of the tests that point to pages. -/
inductive Var
  | pp0 | pp1 | pp2 | pp
  deriving DecidableEq

/-- What a test works on: memory, its variables, the stolen free list, and `ptep`. -/
structure Bench where
  mem : Mem
  var : Var → Option ℕ := fun _ ↦ none
  fl : Option ℕ := none
  ptep : Option (ℕ × ℕ) := none

/-- A statement of a test.  The page tables are those of `kern_pgdir`. -/
inductive Check
  /-- `assert((x = page_alloc(flags)))` -/
  | alloc (x : Var) (zero : Bool)
  /-- `assert(!page_alloc(0))` -/
  | noMem
  /-- `assert(x && x != y && ..)` -/
  | distinct (x : Var) (ys : List Var)
  /-- `assert(x && y == x)` -/
  | same (x y : Var)
  /-- `assert(page2pa(x) < npages*PGSIZE)` -/
  | inMemory (x : Var)
  /-- `fl = page_free_list; page_free_list = 0` -/
  | steal
  /-- `page_free_list = fl` -/
  | giveBack
  /-- `pp0 = pp1 = pp2 = 0` -/
  | forget
  /-- `page_free(x)` -/
  | free (x : Var)
  /-- `memset(page2kva(x), c, PGSIZE)` -/
  | memset (x : Var) (c : BitVec 8)
  /-- `assert` that all bytes of the page are 0 -/
  | zeroed (x : Var)
  /-- `assert` that no word of the page has `PTE_P` -/
  | notPresent (x : Var)
  /-- `assert(page_lookup(kern_pgdir, va, &ptep) == NULL)` -/
  | lookupNull (va : Word)
  /-- `page_insert(kern_pgdir, x, va, perm)`, with the assertion that the result is or is not 0,
  or none -/
  | insert (x : Var) (va perm : Word) (ok : Option Bool)
  /-- `page_remove(kern_pgdir, va)` -/
  | remove (va : Word)
  /-- `ptep = pgdir_walk(kern_pgdir, va, create)` -/
  | walk (va : Word) (create : Bool)
  /-- `assert(ptep == (pte_t *) KADDR(PTE_ADDR(kern_pgdir[PDX(va)])) + PTX(va))` -/
  | ptepIs (va : Word)
  /-- `assert(check_va2pa(kern_pgdir, va) == page2pa(x))`, or `== ~0` -/
  | va2pa (va : Word) (x : Option Var)
  /-- `assert(PTE_ADDR(kern_pgdir[i]) == page2pa(x))` -/
  | pdeIs (i : ℕ) (x : Var)
  /-- `assert(kern_pgdir[i] & perm)` -/
  | pdeHas (i : ℕ) (perm : Word)
  /-- `assert(*pgdir_walk(kern_pgdir, va, 0) & perm)`, or the negation -/
  | pteHas (va perm : Word) (has : Bool)
  /-- `kern_pgdir[i] = 0` -/
  | clearPde (i : ℕ)
  /-- `assert(x->pp_ref == n)` -/
  | refIs (x : Var) (n : BitVec 16)
  /-- `assert(x->pp_ref)` -/
  | refPos (x : Var)
  /-- `assert(x->pp_link == NULL)` -/
  | linkNull (x : Var)
  /-- `x->pp_ref = 0` -/
  | clearRef (x : Var)
  /-- `assert(*(uint32_t *)va == w)` -/
  | loads (va w : Word)
  /-- `*(uint32_t *)va = w` -/
  | store (va w : Word)
  /-- `assert(*(uint32_t *)page2kva(x) == w)` -/
  | holds (x : Var) (w : Word)

/-- What a statement does.  Through a null pointer, or at an address that is not mapped, the kernel
faults. -/
def Check.exec (s : Bench) : Check → Option Bench
  | alloc x zero => do
      let (pp, m) ← pageAlloc B s.mem zero
      assertThat (pp ≠ none) { s with mem := m, var := Function.update s.var x pp }
  | noMem => do
      let (pp, m) ← pageAlloc B s.mem false
      assertThat (pp = none) { s with mem := m }
  | distinct x ys => assertThat (s.var x ≠ none ∧ ∀ y ∈ ys, s.var x ≠ s.var y) s
  | same x y => assertThat (s.var x ≠ none ∧ s.var y = s.var x) s
  | inMemory x => do
      let pp ← s.var x
      assertThat (page2pa pp < BitVec.ofNat 32 (B.npages * PGSIZE)) s
  | steal => some { s with mem := s.mem.setFreeList none, fl := s.mem.pageFreeList }
  | giveBack => some { s with mem := s.mem.setFreeList s.fl }
  | forget => some { s with var := fun x ↦ if x = .pp then s.var .pp else none }
  | free x => do
      let m ← pageFree s.mem (← s.var x)
      return { s with mem := m }
  | memset x c => do
      let f ← kaddr B (page2pa (← s.var x))
      return { s with mem := s.mem.memset f c PGSIZE }
  | zeroed x => do
      let f ← kaddr B (page2pa (← s.var x))
      assertThat (∀ i < NPTENTRIES, s.mem.phys f i = 0) s
  | notPresent x => do
      let f ← kaddr B (page2pa (← s.var x))
      assertThat (∀ i < NPTENTRIES, ¬ isSet (s.mem.phys f i) PTE_P) s
  | lookupNull va => do
      let pp ← pageLookup B s.mem B.kernPgdir va
      assertThat (pp = none) s
  | insert x va perm ok => do
      let (r, m) ← pageInsert B s.mem B.kernPgdir (← s.var x) va perm
      assertThat (∀ b, ok = some b → (b = true ↔ r = 0)) { s with mem := m }
  | remove va => do
      let m ← pageRemove B s.mem B.kernPgdir va
      return { s with mem := m }
  | walk va create => do
      let (ptep, m) ← pgdirWalk B s.mem B.kernPgdir va create
      return { s with mem := m, ptep := ptep }
  | ptepIs va => do
      let t ← kaddr B (pteAddr (s.mem.phys B.kernPgdir (pdx va)))
      assertThat (s.ptep = some (t, ptx va)) s
  | va2pa va x => do
      let pa ← checkVa2pa B s.mem B.kernPgdir va
      match x with
      | none => assertThat (pa = ~~~0) s
      | some x => do
          let pp ← s.var x
          assertThat (pa = page2pa pp) s
  | pdeIs i x => do
      let pp ← s.var x
      assertThat (pteAddr (s.mem.phys B.kernPgdir i) = page2pa pp) s
  | pdeHas i perm => assertThat (isSet (s.mem.phys B.kernPgdir i) perm) s
  | pteHas va perm has => do
      let (pte, _) ← pgdirWalk B s.mem B.kernPgdir va false
      let (t, j) ← pte
      assertThat (has = true ↔ isSet (s.mem.phys t j) perm) s
  | clearPde i => some { s with mem := s.mem.write B.kernPgdir i 0 }
  | refIs x n => do
      let pp ← s.var x
      assertThat (s.mem.ref pp = n) s
  | refPos x => do
      let pp ← s.var x
      assertThat (s.mem.ref pp ≠ 0) s
  | linkNull x => do
      let pp ← s.var x
      assertThat (s.mem.link pp = none) s
  | clearRef x => do
      let pp ← s.var x
      return { s with mem := s.mem.setRef pp 0 }
  | loads va w => do
      let (_, pte) ← s.mem.walk B.kernPgdir va
      assertThat (s.mem.phys (frame pte) ((pgoff va).toNat / 4) = w) s
  | store va w => do
      let (pde, pte) ← s.mem.walk B.kernPgdir va
      assertThat (isSet pde PTE_W ∧ isSet pte PTE_W)
        { s with mem := s.mem.write (frame pte) ((pgoff va).toNat / 4) w }
  | holds x w => do
      let f ← kaddr B (page2pa (← s.var x))
      assertThat (s.mem.phys f 0 = w) s

/-! ## The tests -/

/-- The statements of `check_page_alloc` between the two counts of the free pages. -/
def checkPageAllocBody : List Check :=
  [.alloc .pp0 false, .alloc .pp1 false, .alloc .pp2 false,
   .distinct .pp0 [], .distinct .pp1 [.pp0], .distinct .pp2 [.pp1, .pp0],
   .inMemory .pp0, .inMemory .pp1, .inMemory .pp2,
   .steal,
   .noMem,
   .free .pp0, .free .pp1, .free .pp2,
   .forget,
   .alloc .pp0 false, .alloc .pp1 false, .alloc .pp2 false,
   .distinct .pp0 [], .distinct .pp1 [.pp0], .distinct .pp2 [.pp1, .pp0],
   .noMem,
   .memset .pp0 1, .free .pp0, .alloc .pp true, .same .pp .pp0, .zeroed .pp,
   .giveBack,
   .free .pp0, .free .pp1, .free .pp2]

/-- `check_page_alloc`. -/
def checkPageAlloc (m : Mem) : Option Mem := do
  let nfree ← m.listFrom B.npages m.pageFreeList
  let s ← checkPageAllocBody.foldlM (Check.exec B) { mem := m }
  let nfree' ← s.mem.listFrom B.npages s.mem.pageFreeList
  assertThat (nfree'.length = nfree.length) s.mem

/-- The statements of `check_page` before the test of `mmio_map_region`.  `PGSIZE` is `0x1000`,
`PTSIZE` is `0x400000`, and `va` near the end is `0x401000`. -/
def checkPageBody : List Check :=
  [.alloc .pp0 false, .alloc .pp1 false, .alloc .pp2 false,
   .distinct .pp0 [], .distinct .pp1 [.pp0], .distinct .pp2 [.pp1, .pp0],
   .steal,
   .noMem,
   .lookupNull 0,
   .insert .pp1 0 PTE_W (some false),
   .free .pp0, .insert .pp1 0 PTE_W (some true), .pdeIs 0 .pp0, .va2pa 0 (some .pp1),
   .refIs .pp1 1, .refIs .pp0 1,
   .insert .pp2 0x1000 PTE_W (some true), .va2pa 0x1000 (some .pp2), .refIs .pp2 1,
   .noMem,
   .insert .pp2 0x1000 PTE_W (some true), .va2pa 0x1000 (some .pp2), .refIs .pp2 1,
   .noMem,
   .walk 0x1000 false, .ptepIs 0x1000,
   .insert .pp2 0x1000 (PTE_W ||| PTE_U) (some true), .va2pa 0x1000 (some .pp2), .refIs .pp2 1,
   .pteHas 0x1000 PTE_U true, .pdeHas 0 PTE_U,
   .insert .pp2 0x1000 PTE_W (some true), .pteHas 0x1000 PTE_W true, .pteHas 0x1000 PTE_U false,
   .insert .pp0 0x400000 PTE_W (some false),
   .insert .pp1 0x1000 PTE_W (some true), .pteHas 0x1000 PTE_U false,
   .va2pa 0 (some .pp1), .va2pa 0x1000 (some .pp1), .refIs .pp1 2, .refIs .pp2 0,
   .alloc .pp false, .same .pp .pp2,
   .remove 0, .va2pa 0 none, .va2pa 0x1000 (some .pp1), .refIs .pp1 1, .refIs .pp2 0,
   .insert .pp1 0x1000 0 (some true), .refPos .pp1, .linkNull .pp1,
   .remove 0x1000, .va2pa 0 none, .va2pa 0x1000 none, .refIs .pp1 0, .refIs .pp2 0,
   .alloc .pp false, .same .pp .pp1,
   .noMem,
   .pdeIs 0 .pp0, .clearPde 0, .refIs .pp0 1, .clearRef .pp0,
   .free .pp0, .walk 0x401000 true, .ptepIs 0x401000, .clearPde (pdx 0x401000), .clearRef .pp0,
   .memset .pp0 0xFF, .free .pp0, .walk 0 true, .notPresent .pp0, .clearPde 0, .clearRef .pp0,
   .giveBack,
   .free .pp0, .free .pp1, .free .pp2]

/-- The assertions of `check_page` about the two regions that it mapped. -/
def assertMmio (m : Mem) (mm1 mm2 : Word) : Option Unit := do
  assertThat (MMIOBASE ≤ mm1 ∧ mm1 + 8192 < MMIOLIM) ()
  assertThat (MMIOBASE ≤ mm2 ∧ mm2 + 8192 < MMIOLIM) ()
  assertThat (mm1 % 0x1000 = 0 ∧ mm2 % 0x1000 = 0) ()
  assertThat (mm1 + 8192 ≤ mm2) ()
  assertThat (checkVa2pa B m B.kernPgdir mm1 = some 0) ()
  assertThat (checkVa2pa B m B.kernPgdir (mm1 + 0x1000) = some 0x1000) ()
  assertThat (checkVa2pa B m B.kernPgdir mm2 = some 0) ()
  assertThat (checkVa2pa B m B.kernPgdir (mm2 + 0x1000) = some (~~~0)) ()
  let (pte, _) ← pgdirWalk B m B.kernPgdir mm1 false
  let (t, j) ← pte
  assertThat (isSet (m.phys t j) (PTE_W ||| PTE_PWT ||| PTE_PCD)) ()
  assertThat (¬ isSet (m.phys t j) PTE_U) ()

/-- The test of `mmio_map_region` at the end of `check_page`. -/
def checkPageMmio (m : Mem) : Option (Word × Mem) := do
  let (mm1, base, m) ← mmioMapRegion B m MMIOBASE 0 4097
  let (mm2, base, m) ← mmioMapRegion B m base 0 4096
  assertMmio B m mm1 mm2
  let m ← clearKernPte B m mm1
  let m ← clearKernPte B m (mm1 + 0x1000)
  let m ← clearKernPte B m mm2
  return (base, m)

/-- `check_page`, with the new value of the static variable of `mmio_map_region`. -/
def checkPage (m : Mem) : Option (Word × Mem) := do
  let s ← checkPageBody.foldlM (Check.exec B) { mem := m }
  checkPageMmio B s.mem

/-- The statements of `check_page_installed_pgdir`. -/
def checkPageInstalledBody : List Check :=
  [.alloc .pp0 false, .alloc .pp1 false, .alloc .pp2 false,
   .free .pp0,
   .memset .pp1 1, .memset .pp2 2,
   .insert .pp1 0x1000 PTE_W none, .refIs .pp1 1, .loads 0x1000 0x01010101,
   .insert .pp2 0x1000 PTE_W none, .loads 0x1000 0x02020202, .refIs .pp2 1, .refIs .pp1 0,
   .store 0x1000 0x03030303, .holds .pp2 0x03030303,
   .remove 0x1000, .refIs .pp2 0,
   .pdeIs 0 .pp0, .clearPde 0, .refIs .pp0 1, .clearRef .pp0,
   .free .pp0]

/-- `check_page_installed_pgdir`. -/
def checkPageInstalledPgdir (m : Mem) : Option Mem := do
  let s ← checkPageInstalledBody.foldlM (Check.exec B) { mem := m }
  return s.mem

end

/-! ## `check_page_free_list` -/

/-- What `tp[t]` points to: the variable `pp1` or `pp2`, or the link of a page. -/
inductive Place
  | pp (t : Bool)
  | link (pp : ℕ)

/-- The state of the loop that moves the pages with lower addresses first: `pp1` and `pp2`, and
`tp`. -/
structure Sorting where
  mem : Mem
  pp : Bool → Option ℕ
  tp : Bool → Place

/-- `*tp[t] = n`. -/
def Sorting.store (s : Sorting) (t : Bool) (n : Option ℕ) : Sorting :=
  match s.tp t with
  | .pp t' => { s with pp := Function.update s.pp t' n }
  | .link q => { s with mem := s.mem.setLink q n }

/-- `pagetype`: whether the page is beyond the first 4 MB. -/
def pagetype (pp : ℕ) : Bool := decide (1 ≤ pdx (page2pa pp))

/-- A round of the loop. -/
def Sorting.round (s : Sorting) (pp : ℕ) : Sorting :=
  let s := s.store (pagetype pp) (some pp)
  { s with tp := Function.update s.tp (pagetype pp) (.link pp) }

/-- The loop, within `n` rounds. -/
def Sorting.loop : ℕ → Option ℕ → Sorting → Option Sorting
  | _, none, s => some s
  | 0, some _, _ => none
  | n + 1, some pp, s =>
      let s := s.round pp
      loop n (s.mem.link pp) s

/-- The pages with lower addresses first.  `pp1` and `pp2` are not initialised. -/
def sortFreeList (npages : ℕ) (pp : Bool → Option ℕ) (m : Mem) : Option Mem := do
  let s ← Sorting.loop npages m.pageFreeList ⟨m, pp, .pp⟩
  let s := s.store true none
  let s := s.store false (s.pp true)
  return s.mem.setFreeList (s.pp false)

namespace BootConfig

variable (cfg : BootConfig)

/-- The assertions about a page of the free list.  A page is an index into `pages`. -/
def PageOk (pp : ℕ) : Prop :=
  pp < cfg.npages ∧ page2pa pp ≠ 0 ∧ page2pa pp ≠ IOPHYSMEM ∧ page2pa pp ≠ EXTPHYSMEM - 0x1000 ∧
    page2pa pp ≠ EXTPHYSMEM ∧
    (page2pa pp < EXTPHYSMEM ∨ cfg.layout.nextfree ≤ page2pa pp + KERNBASE) ∧
    page2pa pp ≠ MPENTRY_PADDR

instance (pp : ℕ) : Decidable (cfg.PageOk pp) := inferInstanceAs (Decidable (_ ∧ _))

/-- `check_page_free_list`; `pp` is what the variables `pp1` and `pp2` start with. -/
def checkPageFreeList (onlyLowMemory : Bool) (pp : Bool → Option ℕ) (m : Mem) : Option Mem := do
  let pdxLimit := if onlyLowMemory then 1 else NPDENTRIES
  let m ← assertThat (m.pageFreeList ≠ none) m
  let m ← (if onlyLowMemory then sortFreeList cfg.npages pp m else some m)
  let pps ← m.listFrom cfg.npages m.pageFreeList
  let m ← pps.foldlM (fun m pp ↦
    if pdx (page2pa pp) < pdxLimit then
      (kaddr cfg.machine (page2pa pp)).map fun f ↦ m.memset f 0x97 128
    else some m) m
  let m ← assertThat (∀ pp ∈ pps, cfg.PageOk pp) m
  let m ← assertThat (0 < pps.countP fun pp ↦ page2pa pp < EXTPHYSMEM) m
  assertThat (0 < pps.countP fun pp ↦ ¬ page2pa pp < EXTPHYSMEM) m

/-! ## `check_kern_pgdir` -/

/-- A loop that asserts that `check_va2pa` finds `pa + i` at `va + i`, for `i` from 0 to `n` in
steps of `PGSIZE`. -/
def checkRegion (m : Mem) (va n pa : Word) : Option Unit :=
  assertThat (∀ k < (n.toNat + (PGSIZE - 1)) / PGSIZE,
    checkVa2pa cfg.machine m cfg.machine.kernPgdir (va + BitVec.ofNat 32 (k * PGSIZE)) =
      some (pa + BitVec.ofNat 32 (k * PGSIZE))) ()

/-- The loop that asserts that nothing is mapped. -/
def checkGap (m : Mem) (va n : Word) : Option Unit :=
  assertThat (∀ k < (n.toNat + (PGSIZE - 1)) / PGSIZE,
    checkVa2pa cfg.machine m cfg.machine.kernPgdir (va + BitVec.ofNat 32 (k * PGSIZE)) =
      some (~~~0)) ()

/-- The assertion about entry `i` of the directory. -/
def PdeOk (m : Mem) (i : ℕ) : Prop :=
  let pde := m.phys cfg.machine.kernPgdir i
  if i = pdx UVPT ∨ i = pdx (KSTACKTOP - 1) ∨ i = pdx UPAGES ∨ i = pdx UENVS ∨ i = pdx MMIOBASE then
    isSet pde PTE_P
  else if pdx KERNBASE ≤ i then isSet pde PTE_P ∧ isSet pde PTE_W
  else pde = 0

instance (m : Mem) (i : ℕ) : Decidable (cfg.PdeOk m i) := by
  unfold PdeOk
  infer_instance

/-- `check_kern_pgdir`. -/
def checkKernPgdir (m : Mem) : Option Unit := do
  cfg.checkRegion m UPAGES (roundup (BitVec.ofNat 32 (cfg.npages * sizeofPageInfo)) 0x1000)
    (← paddr cfg.layout.pages)
  cfg.checkRegion m UENVS (roundup (BitVec.ofNat 32 sizeofEnvs) 0x1000) (← paddr cfg.layout.envs)
  cfg.checkRegion m KERNBASE (BitVec.ofNat 32 (cfg.npages * PGSIZE)) 0
  (List.finRange NCPU).forM fun (n : CpuId) ↦ do
    let base := KSTACKTOP - (KSTKSIZE + KSTKGAP) * BitVec.ofNat 32 (n.val + 1)
    cfg.checkRegion m (base + KSTKGAP) KSTKSIZE (← paddr (cfg.percpuKstacks n))
    cfg.checkGap m base KSTKGAP
  assertThat (∀ i < NPDENTRIES, cfg.PdeOk m i) ()

/-! ## `mem_init` -/

/-- `mem_init`, with the new value of the static variable of `mmio_map_region`.  The kernel writes
to free pages below 4 MB only until `kern_pgdir` is installed, as `entry_pgdir` maps no more: the
first call of `check_page_free_list` puts these pages first.  `pp` is what two of its variables
start with. -/
def memInit (pp : Bool → Option ℕ) (m₀ : Mem) : Option (Word × Mem) := do
  let m := pageInit cfg.npages cfg.npagesBasemem cfg.kernel (cfg.initPgdir m₀)
  let m ← cfg.checkPageFreeList true pp m
  let m ← checkPageAlloc cfg.machine m
  let (base, m) ← checkPage cfg.machine m
  let m ← cfg.mapKernel m
  cfg.checkKernPgdir m
  let m ← cfg.checkPageFreeList false pp m
  let m ← checkPageInstalledPgdir cfg.machine m
  return (base, m)

end BootConfig

end Jos
