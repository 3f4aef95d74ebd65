import Jos.Kern.BootAlloc
import Jos.Kern.Trap
import Jos.Lib.Chain

/-!
# Booting (`kern/pmap.c`, `kern/env.c`, `kern/init.c`)

From the machine's memory as the boot loader leaves it to the first environments: `mem_init`
with `page_init` and the mappings of the kernel, `env_init`, `lapic_init` on each CPU, and the
calls of `env_create`.

The arrays `pages` and `envs` are objects of their own, as everywhere in this development; where
`mem_init` places them is the subject of `Jos.Kern.BootAlloc`.  What was in memory before is
arbitrary.
-/

namespace Jos

open Jos.Lib

/-- `PADDR(kva)`. -/
def paddr (kva : Word) : Option Word := if kva < KERNBASE then none else some (kva - KERNBASE)

/-- What the BIOS, the linker and the boot loader decide, on a machine on which `mem_init` gets
past `page_init`.  Base memory ends at the hole for I/O at 640 KB; the kernel is linked at
`0xF0100000`, with its stacks; `entry_pgdir` maps 4 MB only, and `page_init` stores into all of
`pages`; `check_page_free_list` asserts that there are free pages after the kernel. -/
structure BootConfig where
  npages : ℕ
  npagesBasemem : ℕ
  kend : Word
  bootstack : Word
  percpuKstacks : CpuId → Word
  lapicaddr : Word
  layout : Layout
  npages_le : npages ≤ 65536
  npagesBasemem_le : npagesBasemem ≤ 160
  le_kend : 0xF0100000 ≤ kend
  le_bootstack : KERNBASE ≤ bootstack
  le_percpuKstacks : ∀ i, KERNBASE ≤ percpuKstacks i
  layout_eq : bootLayout npages kend = some layout
  pages_mapped : layout.pages.toNat + npages * sizeofPageInfo ≤ KERNBASE.toNat + PTSIZE
  extmem : 256 + (layout.nextfree - KERNBASE).toNat / PGSIZE < npages

namespace BootConfig

variable (cfg : BootConfig)

/-- The machine that `mem_init` sets up. -/
def machine : Machine :=
  ⟨cfg.npages, pgnum (cfg.layout.kernPgdir - KERNBASE), cfg.npages_le⟩

/-- `((size_t)boot_alloc(0) - KERNBASE) / PGSIZE` in `page_init`. -/
def kernel : ℕ := (cfg.layout.nextfree - KERNBASE).toNat / PGSIZE

end BootConfig

/-! ## `page_init` -/

/-- Put a page on the free list. -/
def Mem.pushFree (m : Mem) (i : ℕ) : Mem :=
  ((m.setRef i 0).setLink i m.pageFreeList).setFreeList (some i)

/-- `page_init`. -/
def pageInit (npages npagesBasemem kernel : ℕ) (m : Mem) : Mem :=
  let markMP := pgnum MPENTRY_PADDR
  let m := m.setRef 0 1
  let m := (List.range' 1 (npagesBasemem - 1)).foldl
    (fun m i ↦ if i = markMP then m.setRef i 1 else m.pushFree i) m
  let m := (List.range' 160 (256 - 160)).foldl (fun m i ↦ m.setRef i 1) m
  let m := (List.range' 256 kernel).foldl (fun m i ↦ m.setRef i 1) m
  (List.range' (256 + kernel) (npages - (256 + kernel))).foldl Mem.pushFree m

section

variable (B : Machine)

/-! ## `boot_map_region` and `mmio_map_region` -/

/-- A round of the loop of `boot_map_region`. -/
def bootMapPage (m : Mem) (pgdir : ℕ) (va pa perm : Word) : Option Mem := do
  let (result, m) ← pgdirWalk B m pgdir va true
  let (t, j) ← result
  return m.write t j (pteAddr pa ||| perm ||| PTE_P)

/-- `boot_map_region`.  Its callers' sizes are at most 256 MB, so the offset does not overflow. -/
def bootMapRegion (m : Mem) (pgdir : ℕ) (va size pa perm : Word) : Option Mem :=
  (List.range ((size.toNat + (PGSIZE - 1)) / PGSIZE)).foldlM (fun m k ↦
    let i := BitVec.ofNat 32 (k * PGSIZE)
    bootMapPage B m pgdir (va + i) (pa + i) perm) m

/-- `mmio_map_region`, with `base` its static variable: the address of the region and the new
`base`. -/
def mmioMapRegion (m : Mem) (base pa size : Word) : Option (Word × Word × Mem) :=
  let fixed := roundup size 0x1000
  if MMIOLIM < base + fixed then none
  else do
    let m ← bootMapRegion B m B.kernPgdir base fixed pa (PTE_PCD ||| PTE_PWT ||| PTE_W)
    return (base, base + fixed, m)

/-- `*pgdir_walk(kern_pgdir, va, 0) = 0`. -/
def clearKernPte (m : Mem) (va : Word) : Option Mem := do
  let (result, m) ← pgdirWalk B m B.kernPgdir va false
  let (t, j) ← result
  return m.write t j 0

/-- The calls of `mmio_map_region` in `check_page`, which clears the mappings but leaves the
page table, and `base` where it is. -/
def checkMmio (m : Mem) : Option (Word × Mem) := do
  let (mm1, base, m) ← mmioMapRegion B m MMIOBASE 0 4097
  let (mm2, base, m) ← mmioMapRegion B m base 0 4096
  let m ← clearKernPte B m mm1
  let m ← clearKernPte B m (mm1 + 0x1000)
  let m ← clearKernPte B m mm2
  return (base, m)

end

/-! ## `mem_init` -/

/-- What the rest of `check_page_free_list`, `check_page_alloc`, `check_page`, `check_kern_pgdir`
and `check_page_installed_pgdir` leaves behind: the pages on the free list are the same, in some
order and with some contents; the counters, `kern_pgdir` and every other page are as before. -/
structure SelfTested (m m' : Mem) : Prop where
  ref : m'.ref = m.ref
  list : ∃ l l' : List ℕ, Chain m.link m.pageFreeList l ∧ Chain m'.link m'.pageFreeList l' ∧
    l'.Perm l ∧ ∀ p, p ∉ l → m'.link p = m.link p ∧ m'.phys p = m.phys p

namespace BootConfig

variable (cfg : BootConfig)

/-- The page directory that `mem_init` starts with. -/
def initPgdir (m : Mem) : Mem :=
  (m.zero cfg.machine.kernPgdir).write cfg.machine.kernPgdir (pdx UVPT)
    ((cfg.layout.kernPgdir - KERNBASE) ||| PTE_U ||| PTE_P)

/-- `mem_init_mp`. -/
def memInitMp (m : Mem) : Option Mem :=
  (List.finRange NCPU).foldlM (fun m (i : CpuId) ↦ do
    let kstacktopI := KSTACKTOP - BitVec.ofNat 32 i.val * (KSTKSIZE + KSTKGAP)
    bootMapRegion cfg.machine m cfg.machine.kernPgdir (kstacktopI - KSTKSIZE) KSTKSIZE
      (← paddr (cfg.percpuKstacks i)) (PTE_W ||| PTE_P)) m

/-- The calls of `boot_map_region` in `mem_init`. -/
def mapKernel (m : Mem) : Option Mem := do
  let map := fun (m : Mem) (va size pa perm : Word) ↦
    bootMapRegion cfg.machine m cfg.machine.kernPgdir va size pa perm
  let pagesSize := BitVec.ofNat 32 (cfg.npages * sizeofPageInfo)
  let m ← map m UPAGES pagesSize (← paddr cfg.layout.pages) (PTE_U ||| PTE_P)
  let m ← map m cfg.layout.pages pagesSize (← paddr cfg.layout.pages) (PTE_W ||| PTE_P)
  let envSize := BitVec.ofNat 32 sizeofEnvs
  let m ← map m UENVS envSize (← paddr cfg.layout.envs) (PTE_U ||| PTE_P)
  let m ← map m (KSTACKTOP - KSTKSIZE) KSTKSIZE (← paddr cfg.bootstack) (PTE_W ||| PTE_P)
  let m ← cfg.memInitMp m
  map m KERNBASE (-KERNBASE) 0 (PTE_W ||| PTE_P)

/-- `mem_init`, from memory `m₀`.  `base` is the static variable of `mmio_map_region`. -/
def MemInit (m₀ : Mem) (base : Word) (m : Mem) : Prop :=
  ∃ m₁ m₂ m₃, SelfTested (pageInit cfg.npages cfg.npagesBasemem cfg.kernel (cfg.initPgdir m₀)) m₁ ∧
    checkMmio cfg.machine m₁ = some (base, m₂) ∧ cfg.mapKernel m₂ = some m₃ ∧ SelfTested m₃ m

end BootConfig

/-! ## `env_create` -/

/-- A loadable segment of a program.  Programs are linked below `UTOP` (`user/user.ld`), and the
linker makes no segment larger in the file than in memory. -/
structure Segment where
  va : Word
  memsz : Word
  data : List (BitVec 8)
  below : va.toNat + memsz.toNat ≤ UTOP.toNat
  data_le : data.length ≤ memsz.toNat

/-- A program, as its ELF headers describe it. -/
structure Binary where
  segments : List Segment
  entry : Word

section

variable (B : Machine)

/-- The loop of `region_alloc` over `n` pages.  The result of `page_insert` is not looked at; here
it is kept, to tell whether memory ran out. -/
def regionAllocLoop (d : ℕ) : ℕ → Word → Mem → Option (Bool × Mem)
  | 0, _, m => some (true, m)
  | n + 1, y, m => do
      let (pp, m) ← pageAlloc B m true
      let pp ← pp
      let (r, m) ← pageInsert B m d pp y (PTE_U ||| PTE_W)
      let (ok, m) ← regionAllocLoop d n (y + 0x1000) m
      return (decide (r = 0) && ok, m)

/-- `region_alloc`. -/
def regionAlloc (m : Mem) (d : ℕ) (va len : Word) : Option (Bool × Mem) :=
  let y := rounddown va 0x1000
  let x := roundup (va + len) 0x1000
  regionAllocLoop B d ((x.toNat - y.toNat) / PGSIZE) y m

/-- One round of the loop of `load_icode`, with `d` the page directory in force. -/
def loadSegment (d : ℕ) (m : Mem) (ph : Segment) : Option (Bool × Mem) := do
  let (ok, m) ← regionAlloc B m d ph.va ph.memsz
  let m ← storeBytes m d ph.va (List.replicate ph.memsz.toNat 0)
  let m ← storeBytes m d ph.va ph.data
  return (ok, m)

/-- The loop of `load_icode` over the program headers. -/
def loadSegments (d : ℕ) : List Segment → Mem → Option (Bool × Mem)
  | [], m => some (true, m)
  | ph :: phs, m => do
      let (ok, m) ← loadSegment B d m ph
      let (ok', m) ← loadSegments d phs m
      return (ok && ok', m)

/-- The stack that `load_icode` maps.  `page_insert` looks for the entry before it touches the
page, so a null page only matters if there is a page table. -/
def loadStack (d : ℕ) (m : Mem) : Option (Bool × Mem) := do
  let (pp, m) ← pageAlloc B m false
  match pp with
  | some pp =>
      let (r, m) ← pageInsert B m d pp (USTACKTOP - 0x1000) (PTE_W ||| PTE_U ||| PTE_P)
      return (decide (r = 0), m)
  | none =>
      match ← pgdirWalk B m d (USTACKTOP - 0x1000) true with
      | (none, m) => return (false, m)
      | (some _, _) => none

/-- `env_create`.  The result tells whether all allocations succeeded. -/
def envCreate (s : Kern) (binary : Binary) : Option (Bool × Kern) := do
  match ← envAlloc B s 0 with
  | (.error _, _) => none
  | (.ok e, s) =>
      let d ← (s.envs e).envPgdir
      let (ok, m) ← loadSegments B d binary.segments s.mem
      let (ok', m) ← loadStack B d m
      return (ok && ok', (s.setMem m).modEnv e fun env ↦
        { env with envTf := { env.envTf with eip := binary.entry } })

end

/-! ## `i386_init` -/

/-- The state of the kernel after `mem_init`, `env_init` and some calls of `lapic_init`, and the
static variable of `mmio_map_region`. -/
inductive Inited (cfg : BootConfig) : Word → Kern → Prop
  | envInit {m₀ m : Mem} {base : Word} (envs : Slot → Env) (o : Option Slot)
      (empty : m₀.pageFreeList = none) (mem : cfg.MemInit m₀ base m) :
      Inited cfg base (envInit ⟨m, envs, o⟩)
  | lapicInit {base base' lapic : Word} {s : Kern} {m : Mem} (inited : Inited cfg base s)
      (map : mmioMapRegion cfg.machine s.mem base cfg.lapicaddr 4096 = some (lapic, base', m)) :
      Inited cfg base' (s.setMem m)

/-- The state after some calls of `env_create`, none of which ran out of memory. -/
inductive Booted (cfg : BootConfig) : Kern → Prop
  | inited {base : Word} {s : Kern} (h : Inited cfg base s) : Booted cfg s
  | envCreate {s s' : Kern} {binary : Binary} (h : Booted cfg s)
      (create : envCreate cfg.machine s binary = some (true, s')) : Booted cfg s'

end Jos
