import Jos.Inc.Mmu
import Mathlib.Data.Set.Basic
import Mathlib.Data.Set.Disjoint
import Mathlib.Order.Interval.Set.Defs
import Mathlib.Order.CompletePartialOrder
import Mathlib.Data.Set.BooleanAlgebra

/-!
# The boot-time allocator and the layout of the kernel's data (`kern/pmap.c`)

`boot_alloc` hands out memory after the kernel image before there is a page allocator.  It moves
`nextfree` and then returns it, so a caller gets the address *after* the chunk it asked for, and
what it may use reaches only as far as the size of the next request.  `mem_init` asks for
`npages * sizeof(struct PageInfo *)` bytes for an array of `struct PageInfo`, and for the array
`envs` next.
-/

namespace Jos

/-- `boot_alloc(n)`, with `nextfree` its static variable and `kend` the linker's `end`: the result
and the new `nextfree`.  `none` is the panic. -/
def bootAlloc (npages : ℕ) (kend nextfree n : Word) : Option (Word × Word) :=
  let nextfree := if nextfree = 0 then roundup (kend + 1) 0x1000 else nextfree
  if n = 0 then some (nextfree, nextfree)
  else
    let nextfree := roundup (nextfree + n) 0x1000
    if BitVec.ofNat 32 (npages * PGSIZE) < nextfree - KERNBASE then none
    else some (nextfree, nextfree)

/-- The sizes of `struct PageInfo`, of a pointer to one, and of `struct Env`, in bytes. -/
def sizeofPageInfo : ℕ := 8
def sizeofPageInfoPtr : ℕ := 4
def sizeofEnv : ℕ := 124
def sizeofEnvs : ℕ := 1024 * sizeofEnv

/-- The addresses that `mem_init` stores, and `nextfree` after it. -/
structure Layout where
  kernPgdir : Word
  pages : Word
  envs : Word
  nextfree : Word

/-- The calls of `boot_alloc` in `mem_init`. -/
def bootLayout (npages : ℕ) (kend : Word) : Option Layout := do
  let (kernPgdir, nextfree) ← bootAlloc npages kend 0 0x1000
  let (pages, nextfree) ←
    bootAlloc npages kend nextfree (BitVec.ofNat 32 (npages * sizeofPageInfoPtr))
  let (envs, nextfree) ← bootAlloc npages kend nextfree (BitVec.ofNat 32 sizeofEnvs)
  return ⟨kernPgdir, pages, envs, nextfree⟩

/-- The `size` bytes from `start` on. -/
def region (start : Word) (size : ℕ) : Set Word := {a | (a - start).toNat < size}

theorem mem_region {a start : Word} {size : ℕ} :
    a ∈ region start size ↔ (a - start).toNat < size := Iff.rfl

/-- What the kernel uses of `kern_pgdir`, `pages` and `envs` does not overlap. -/
structure Layout.Separate (L : Layout) (npages : ℕ) : Prop where
  pgdir_pages : Disjoint (region L.kernPgdir PGSIZE) (region L.pages (npages * sizeofPageInfo))
  pgdir_envs : Disjoint (region L.kernPgdir PGSIZE) (region L.envs sizeofEnvs)
  pages_envs : Disjoint (region L.pages (npages * sizeofPageInfo)) (region L.envs sizeofEnvs)

/-! ## Where the chunks are -/

theorem rounddown_toNat (a : Word) : (rounddown a 0x1000).toNat = a.toNat / 4096 * 4096 := by
  have hm : a % 0x1000 ≤ a := by
    rw [BitVec.le_def, BitVec.toNat_umod]
    exact Nat.mod_le _ _
  rw [rounddown, BitVec.toNat_sub_of_le hm, BitVec.toNat_umod,
    show (0x1000 : Word).toNat = 4096 from rfl]
  omega

theorem roundup_toNat (a : Word) :
    (roundup a 0x1000).toNat = (a.toNat + 4095) % 4294967296 / 4096 * 4096 := by
  have h : (a + 0x1000 - 1).toNat = (a.toNat + 4095) % 4294967296 := by
    rw [BitVec.toNat_sub, BitVec.toNat_add, show (0x1000 : Word).toNat = 4096 from rfl,
      show (1 : Word).toNat = 1 from rfl]
    omega
  rw [roundup, rounddown_toNat, h]

/-- A region that ends before another one starts. -/
theorem region_disjoint {a b : Word} {n k : ℕ} (h : a.toNat + n ≤ b.toNat)
    (hb : b.toNat + k ≤ 4294967296) : Disjoint (region a n) (region b k) := by
  rw [Set.disjoint_left]
  intro x hx hx'
  have := x.isLt
  simp only [mem_region, BitVec.toNat_sub] at hx hx'
  omega

/-- A chunk after an aligned address, in page numbers. -/
theorem roundup_add_toNat {a n : Word} {p : ℕ} (ha : a.toNat = p * 4096) :
    (roundup (a + n) 0x1000).toNat = (p + (n.toNat + 4095) / 4096) % 1048576 * 4096 := by
  have := a.isLt
  rw [roundup_toNat, BitVec.toNat_add, ha]
  omega

section

variable {npages : ℕ} {kend nextfree n r nextfree' : Word} {L : Layout}

/-- A chunk that was granted: the address returned is the new `nextfree`, within memory. -/
theorem bootAlloc_some (hn : npages ≤ 65536) (hne : n ≠ 0)
    (h : bootAlloc npages kend nextfree n = some (r, nextfree')) :
    r = nextfree' ∧ (r - KERNBASE).toNat ≤ npages * 4096 ∧
      r = roundup ((if nextfree = 0 then roundup (kend + 1) 0x1000 else nextfree) + n) 0x1000 := by
  simp only [bootAlloc, hne, if_false] at h
  generalize hx : roundup ((if nextfree = 0 then roundup (kend + 1) 0x1000 else nextfree) + n)
    0x1000 = x at h ⊢
  by_cases hlt : BitVec.ofNat 32 (npages * PGSIZE) < x - KERNBASE
  · rw [if_pos hlt] at h
    cases h
  · rw [if_neg hlt] at h
    simp only [Option.some.injEq, Prod.mk.injEq] at h
    obtain ⟨rfl, rfl⟩ := h
    refine ⟨rfl, ?_, rfl⟩
    rw [BitVec.not_lt, BitVec.le_def, BitVec.toNat_ofNat, PGSIZE] at hlt
    omega

/-- The address a chunk starts from, in page numbers. -/
theorem nextfree_toNat {first p : ℕ} (hfirst : (roundup (kend + 1) 0x1000).toNat = first * 4096)
    (hp : nextfree.toNat = p * 4096) :
    (if nextfree = 0 then roundup (kend + 1) 0x1000 else nextfree).toNat =
      (if nextfree.toNat = 0 then first else nextfree.toNat / 4096) * 4096 := by
  by_cases h0 : nextfree = 0
  · rw [if_pos h0, if_pos (by rw [h0]; rfl), hfirst]
  · have h0' : nextfree.toNat ≠ 0 := fun hc ↦ h0 (BitVec.eq_of_toNat_eq hc)
    rw [if_neg h0, if_neg h0', hp, Nat.mul_div_cancel p (by decide)]

theorem bootAlloc_zero (npages : ℕ) (kend nextfree : Word) :
    bootAlloc npages kend nextfree (BitVec.ofNat 32 0) =
      some (if nextfree = 0 then roundup (kend + 1) 0x1000 else nextfree,
        if nextfree = 0 then roundup (kend + 1) 0x1000 else nextfree) := by
  simp [bootAlloc]

/-- The layout in page numbers.  `first` is the page of the first address after the kernel image;
a `nextfree` that wrapped around to 0 is initialised again. -/
theorem bootLayout_some (hn : npages ≤ 65536) (h : bootLayout npages kend = some L) :
    ∃ first < 1048576, (roundup (kend + 1) 0x1000).toNat = first * 4096 ∧ 0 < npages ∧
      L.kernPgdir.toNat = (first + 1) * 4096 ∧
      (L.kernPgdir - KERNBASE).toNat ≤ npages * 4096 ∧
      L.pages.toNat = (first + 1 + (npages + 1023) / 1024) % 1048576 * 4096 ∧
      (L.pages - KERNBASE).toNat ≤ npages * 4096 ∧
      L.envs.toNat = ((if L.pages.toNat = 0 then first else L.pages.toNat / 4096) + 31) %
        1048576 * 4096 ∧
      (L.envs - KERNBASE).toNat ≤ npages * 4096 ∧ L.nextfree = L.envs := by
  simp only [bootLayout, Option.bind_eq_bind, Option.bind_eq_some_iff, Option.pure_def,
    Option.some.injEq, Prod.exists] at h
  obtain ⟨kernPgdir, nf₁, h₁, pages, nf₂, h₂, envs, nf₃, h₃, rfl⟩ := h
  obtain ⟨rfl, hK, hK'⟩ := bootAlloc_some hn (by decide) h₁
  obtain ⟨rfl, hE, hE'⟩ := bootAlloc_some hn (by decide) h₃
  have hk := roundup_toNat (kend + 1)
  have hlt := (roundup (kend + 1) 0x1000).isLt
  obtain ⟨first, hfirst⟩ : ∃ first, (roundup (kend + 1) 0x1000).toNat = first * 4096 := ⟨_, hk⟩
  have hfirst' : first < 1048576 := by
    rw [hfirst] at hlt
    omega
  have hKn : kernPgdir.toNat = (first + 1) % 1048576 * 4096 := by
    rw [hK', if_pos rfl, roundup_add_toNat hfirst]
    rfl
  have hpos : 0 < npages := by
    rcases Nat.eq_zero_or_pos npages with rfl | hp
    · rw [Nat.zero_mul, bootAlloc_zero, Option.some.injEq, Prod.mk.injEq] at h₂
      have hPn := congrArg BitVec.toNat h₂.2.symm
      have hEn := congrArg BitVec.toNat hE'
      rw [BitVec.toNat_sub, show KERNBASE.toNat = 4026531840 from rfl] at hK hE
      rw [nextfree_toNat hfirst hKn, if_neg (by omega)] at hPn
      rw [roundup_add_toNat (nextfree_toNat hfirst hPn), if_neg (by omega),
        show (BitVec.ofNat 32 sizeofEnvs).toNat = 126976 from rfl] at hEn
      omega
    · exact hp
  have hlen : (BitVec.ofNat 32 (npages * sizeofPageInfoPtr)).toNat = npages * 4 := by
    rw [BitVec.toNat_ofNat, sizeofPageInfoPtr]
    omega
  have hne : BitVec.ofNat 32 (npages * sizeofPageInfoPtr) ≠ 0 := by
    intro hc
    rw [hc] at hlen
    have : (0 : Word).toNat = 0 := rfl
    omega
  obtain ⟨rfl, hP, hP'⟩ := bootAlloc_some hn hne h₂
  have hPn := congrArg BitVec.toNat hP'
  rw [roundup_add_toNat (nextfree_toNat hfirst hKn), hlen,
    show (npages * 4 + 4095) / 4096 = (npages + 1023) / 1024 by omega] at hPn
  have hEn := congrArg BitVec.toNat hE'
  rw [roundup_add_toNat (nextfree_toNat hfirst hPn)] at hEn
  have hsub : (pages - KERNBASE).toNat = (268435456 + pages.toNat) % 4294967296 :=
    BitVec.toNat_sub pages KERNBASE
  -- a directory at address 0 would leave no room for `pages`
  have hK0 : kernPgdir.toNat ≠ 0 := by
    intro hc
    rw [if_pos hc] at hPn
    clear hk hK hE hE' hEn hP' hK'
    omega
  have hKn' : kernPgdir.toNat = (first + 1) * 4096 := by
    have hne' : first + 1 ≠ 1048576 := by
      intro hc
      exact hK0 (by rw [hKn, hc, Nat.mod_self, Nat.zero_mul])
    rw [hKn, Nat.mod_eq_of_lt (by omega)]
  rw [if_neg hK0, hKn', Nat.mul_div_cancel _ (by decide)] at hPn
  exact ⟨first, hfirst', hfirst, hpos, hKn', hK, hPn, hP, hEn, hE, rfl⟩

/-- `kern_pgdir`, `pages` and `envs` are disjoint for at most 15872 pages of memory: then the 31
pages between `pages` and `envs` hold the array.  (With 256 MB and an image that ends at
`0xFFFBF000` the second chunk ends at the top of the address space, and `nextfree` starts over.) -/
theorem boot_layout_separate_iff (hn : npages ≤ 65536) (h : bootLayout npages kend = some L) :
    L.Separate npages ↔
      npages ≤ 15872 ∨ npages = 65536 ∧ roundup (kend + 1) 0x1000 = 0xFFFBF000 := by
  obtain ⟨first, hlt, hfirst, hpos, hKn, hK, hPn, hP, hEn, hE, -⟩ := bootLayout_some hn h
  rw [BitVec.toNat_sub, show KERNBASE.toNat = 4026531840 from rfl] at hK hP hE
  by_cases hP0 : L.pages.toNat = 0
  · -- the corner: `nextfree` is initialised again for `envs`
    rw [if_pos hP0] at hEn
    obtain ⟨rfl, rfl⟩ : npages = 65536 ∧ first = 1048511 := by omega
    have hend : roundup (kend + 1) 0x1000 = 0xFFFBF000 := BitVec.eq_of_toNat_eq hfirst
    refine iff_of_true ⟨?_, ?_, ?_⟩ (.inr ⟨rfl, hend⟩)
    · refine (region_disjoint ?_ ?_).symm <;> simp only [sizeofPageInfo, PGSIZE] <;> omega
    · refine region_disjoint ?_ ?_ <;> simp only [sizeofEnvs, sizeofEnv, PGSIZE] <;> omega
    · refine region_disjoint ?_ ?_ <;> simp only [sizeofEnvs, sizeofEnv, sizeofPageInfo] <;> omega
  · rw [if_neg hP0] at hEn
    have hno : ¬ (npages = 65536 ∧ roundup (kend + 1) 0x1000 = 0xFFFBF000) := by
      rintro ⟨h1, h2⟩
      rw [h2, show (0xFFFBF000 : Word).toNat = 4294701056 from rfl] at hfirst
      omega
    rw [or_iff_left hno]
    constructor
    · -- `envs` starts within the array `pages`
      intro hsep
      by_contra hc
      have hoff : (L.envs - L.pages).toNat = 126976 := by
        rw [BitVec.toNat_sub]
        omega
      have hpages : L.envs ∈ region L.pages (npages * sizeofPageInfo) := by
        rw [mem_region, hoff, sizeofPageInfo]
        omega
      have henvs : L.envs ∈ region L.envs sizeofEnvs := by
        simp [mem_region, sizeofEnvs, sizeofEnv]
      exact Set.disjoint_left.mp hsep.pages_envs hpages henvs
    · intro hle
      refine ⟨?_, ?_, ?_⟩ <;> refine region_disjoint ?_ ?_ <;>
        simp only [sizeofEnvs, sizeofEnv, sizeofPageInfo, PGSIZE] <;> omega

theorem boot_layout_separate_small :
    ∃ L, bootLayout 4096 0xF0180000 = some L ∧ L.Separate 4096 := by
  have h : bootLayout 4096 0xF0180000 =
      some ⟨0xF0182000, 0xF0186000, 0xF01A5000, 0xF01A5000⟩ := rfl
  exact ⟨_, h, (boot_layout_separate_iff (by omega) h).mpr (.inl (by omega))⟩

/-- With 128 MB of memory and an image of 1.5 MB, `envs` starts within `pages`. -/
theorem boot_layout_overlap : ∃ L, bootLayout 32768 0xF0180000 = some L ∧ ¬ L.Separate 32768 := by
  refine ⟨⟨0xF0182000, 0xF01A2000, 0xF01C1000, 0xF01C1000⟩, rfl, fun h ↦ ?_⟩
  have hmem : (0xF01C1000 : Word) ∈ region 0xF01A2000 (32768 * sizeofPageInfo) ∩
      region 0xF01C1000 sizeofEnvs := by
    constructor <;> rw [mem_region] <;> decide
  exact Set.disjoint_left.mp h.pages_envs hmem.1 hmem.2

end

/-! ## Any sequence of calls -/

/-- `boot_alloc` of each size in turn: the sizes with the results, and the last `nextfree`. -/
def bootAllocs (npages : ℕ) (kend : Word) : Word → List Word → Option (List (Word × Word) × Word)
  | nextfree, [] => some ([], nextfree)
  | nextfree, n :: ns => do
      let (r, nextfree) ← bootAlloc npages kend nextfree n
      let (calls, nextfree) ← bootAllocs npages kend nextfree ns
      return ((n, r) :: calls, nextfree)

/-- The addresses that the caller who asked for `c.1` bytes takes `c.2` to be the start of. -/
def chunk (c : Word × Word) : Set ℕ := Set.Ico c.2.toNat (c.2.toNat + c.1.toNat)

/-- What a bump allocator does: `calls` are the sizes and results of all calls so far. -/
structure Bumps (npages : ℕ) (kend : Word) (calls : List (Word × Word)) (nextfree : Word) :
    Prop where
  aligned : ∀ c ∈ calls, pgoff c.2 = 0
  disjoint : calls.Pairwise fun c c' ↦ Disjoint (chunk c) (chunk c')
  above : ∀ c ∈ calls, c.1 ≠ 0 → kend ≤ c.2
  within : ∀ c ∈ calls, c.1 ≠ 0 → c.2.toNat + c.1.toNat ≤ KERNBASE.toNat + npages * PGSIZE
  passed : calls.Pairwise fun c c' ↦ c.1 ≠ 0 → c'.1 = 0 → c.2.toNat + c.1.toNat ≤ c'.2.toNat
  next : ∀ r nextfree', bootAlloc npages kend nextfree 0 = some (r, nextfree') →
    ∀ c ∈ calls, c.1 ≠ 0 → c.2.toNat + c.1.toNat ≤ r.toNat

/-- `nextfree` after the first lines of `boot_alloc`. -/
def bumpStart (kend nextfree : Word) : Word :=
  if nextfree = 0 then roundup (kend + 1) 0x1000 else nextfree

section

variable {npages : ℕ} {kend nextfree nextfree' n r : Word} {ns : List Word}
  {calls : List (Word × Word)}

@[simp] theorem bumpStart_bumpStart (kend nextfree : Word) :
    bumpStart kend (bumpStart kend nextfree) = bumpStart kend nextfree := by
  by_cases h : nextfree = 0
  · simp [bumpStart, h]
  · rw [bumpStart, if_neg (by rwa [bumpStart, if_neg h])]

/-- The result of a call is the new `nextfree`. -/
theorem bootAlloc_eq (h : bootAlloc npages kend nextfree n = some (r, nextfree')) :
    nextfree' = r ∧ r = if n = 0 then bumpStart kend nextfree
      else roundup (bumpStart kend nextfree + n) 0x1000 := by
  rw [bootAlloc, ← bumpStart] at h
  by_cases hn : n = 0
  · rw [if_pos hn, Option.some.injEq, Prod.mk.injEq] at h
    rw [if_pos hn]
    exact ⟨h.2.symm.trans h.1, h.1.symm⟩
  rw [if_neg hn] at h
  rw [if_neg hn]
  generalize roundup (bumpStart kend nextfree + n) 0x1000 = x at h ⊢
  by_cases hlt : BitVec.ofNat 32 (npages * PGSIZE) < x - KERNBASE
  · rw [if_pos hlt] at h
    cases h
  · rw [if_neg hlt, Option.some.injEq, Prod.mk.injEq] at h
    exact ⟨h.2.symm.trans h.1, h.1.symm⟩

theorem bootAllocs_cons
    (h : bootAllocs npages kend nextfree (n :: ns) = some (calls, nextfree')) :
    ∃ r calls', bootAlloc npages kend nextfree n = some (r, r) ∧
      bootAllocs npages kend r ns = some (calls', nextfree') ∧ calls = (n, r) :: calls' := by
  simp only [bootAllocs, Option.bind_eq_bind, Option.bind_eq_some_iff, Prod.exists,
    Option.pure_def, Option.some.injEq, Prod.mk.injEq] at h
  obtain ⟨r, next, hr, calls', next', hrest, rfl, rfl⟩ := h
  obtain rfl := (bootAlloc_eq hr).1
  exact ⟨_, calls', hr, hrest, rfl⟩

/-- Every call returns a page boundary, if `nextfree` is one. -/
theorem bootAllocs_aligned (h : bootAllocs npages kend nextfree ns = some (calls, nextfree'))
    (halign : nextfree.toNat % 4096 = 0) : ∀ c ∈ calls, c.2.toNat % 4096 = 0 := by
  induction ns generalizing nextfree calls with
  | nil =>
      simp only [bootAllocs, Option.some.injEq, Prod.mk.injEq] at h
      simp [← h.1]
  | cons n ns ih =>
      obtain ⟨r, calls', hr, hrest, rfl⟩ := bootAllocs_cons h
      have hr' : r.toNat % 4096 = 0 := by
        rw [(bootAlloc_eq hr).2, bumpStart]
        split
        · split
          · rw [roundup_toNat, Nat.mul_mod_left]
          · exact halign
        · rw [roundup_toNat, Nat.mul_mod_left]
      intro c hc
      rcases List.mem_cons.mp hc with rfl | hc
      · exact hr'
      · exact ih hrest hr' c hc

/-- Calls for nothing leave `nextfree` where it is. -/
theorem bootAllocs_idle (h : bootAllocs npages kend nextfree ns = some (calls, nextfree'))
    (hns : ∀ n ∈ ns, n = 0) :
    bumpStart kend nextfree' = bumpStart kend nextfree ∧ ∀ c ∈ calls, c.1 = 0 := by
  induction ns generalizing nextfree calls with
  | nil =>
      simp only [bootAllocs, Option.some.injEq, Prod.mk.injEq] at h
      obtain ⟨rfl, rfl⟩ := h
      simp
  | cons n ns ih =>
      obtain ⟨r, calls', hr, hrest, rfl⟩ := bootAllocs_cons h
      have hn := hns n List.mem_cons_self
      obtain ⟨hnext, hcalls⟩ := ih hrest fun m hm ↦ hns m (List.mem_cons_of_mem n hm)
      refine ⟨?_, ?_⟩
      · rw [hnext, (bootAlloc_eq hr).2, if_pos hn, bumpStart_bumpStart]
      · intro c hc
        rcases List.mem_cons.mp hc with rfl | hc
        · exact hn
        · exact hcalls c hc

/-- The last call for memory decides what follows: `nextfree` is its own result. -/
theorem bootAllocs_last (h : bootAllocs npages kend nextfree ns = some (calls, nextfree'))
    (hns : ¬ ∀ n ∈ ns, n = 0) :
    ∃ c ∈ calls, c.1 ≠ 0 ∧ bumpStart kend nextfree' = bumpStart kend c.2 := by
  induction ns generalizing nextfree calls with
  | nil => simp at hns
  | cons n ns ih =>
      obtain ⟨r, calls', hr, hrest, rfl⟩ := bootAllocs_cons h
      by_cases hrest0 : ∀ m ∈ ns, m = 0
      · refine ⟨(n, r), List.mem_cons_self, fun hn ↦ hns fun m hm ↦ ?_,
          (bootAllocs_idle hrest hrest0).1⟩
        rcases List.mem_cons.mp hm with rfl | hm
        · exact hn
        · exact hrest0 m hm
      · obtain ⟨c, hc, hne, heq⟩ := ih hrest hrest0
        exact ⟨c, List.mem_cons_of_mem _ hc, hne, heq⟩

/-- The first call for memory starts after the kernel. -/
theorem bootAllocs_first (h : bootAllocs npages kend nextfree ns = some (calls, nextfree'))
    (hns : ¬ ∀ n ∈ ns, n = 0) (hstart : bumpStart kend nextfree = roundup (kend + 1) 0x1000) :
    ∃ c ∈ calls, c.1 ≠ 0 ∧ c.2 = roundup (roundup (kend + 1) 0x1000 + c.1) 0x1000 := by
  induction ns generalizing nextfree calls with
  | nil => simp at hns
  | cons n ns ih =>
      obtain ⟨r, calls', hr, hrest, rfl⟩ := bootAllocs_cons h
      have hres := (bootAlloc_eq hr).2
      rw [hstart] at hres
      by_cases hn : n = 0
      · rw [if_pos hn] at hres
        have hns' : ¬ ∀ m ∈ ns, m = 0 := by
          intro hc
          refine hns fun m hm ↦ ?_
          rcases List.mem_cons.mp hm with rfl | hm
          · exact hn
          · exact hc m hm
        have hstart' : bumpStart kend r = roundup (kend + 1) 0x1000 := by
          rw [hres, ← hstart, bumpStart_bumpStart]
        obtain ⟨c, hc, hne, heq⟩ := ih hrest hns' hstart'
        exact ⟨c, List.mem_cons_of_mem _ hc, hne, heq⟩
      · rw [if_neg hn] at hres
        exact ⟨(n, r), List.mem_cons_self, hn, hres⟩

/-- `boot_alloc` is a bump allocator as long as nobody asks it for memory: the caller gets the end
of the chunk that was reserved, so what it takes for its chunk has not been. -/
theorem boot_alloc_bumps_iff (h : bootAllocs npages kend 0 ns = some (calls, nextfree)) :
    Bumps npages kend calls nextfree ↔ ∀ n ∈ ns, n = 0 := by
  constructor
  · intro hb
    by_contra hns
    have hnext : bootAlloc npages kend nextfree 0 =
        some (bumpStart kend nextfree, bumpStart kend nextfree) :=
          bootAlloc_zero npages kend nextfree
    obtain ⟨c, hc, hne, heq⟩ := bootAllocs_last h hns
    have hend := hb.next _ _ hnext c hc hne
    have hpos : 0 < c.1.toNat := Nat.pos_of_ne_zero fun h0 ↦ hne (BitVec.eq_of_toNat_eq h0)
    rw [heq, bumpStart] at hend
    split at hend
    swap
    · omega
    next hzero =>
    -- `nextfree` has wrapped around, and the kernel ends at address 0
    have hkend : kend = 0 := by
      have hle := hb.above c hc hne
      rw [hzero] at hle
      exact BitVec.eq_of_toNat_eq (Nat.le_zero.mp hle)
    subst hkend
    have hstart : roundup (0 + 1) 0x1000 = 0x1000 := by decide
    obtain ⟨c', hc', hne', heq'⟩ := bootAllocs_first h hns rfl
    have hend' := hb.next _ _ hnext c' hc' hne'
    have hpos' : 0 < c'.1.toNat := Nat.pos_of_ne_zero fun h0 ↦ hne' (BitVec.eq_of_toNat_eq h0)
    rw [heq, bumpStart, if_pos hzero, hstart, heq', hstart, roundup_toNat, BitVec.toNat_add,
      show (0x1000 : Word).toNat = 4096 from rfl] at hend'
    omega
  · intro hns
    have hzero := (bootAllocs_idle h hns).2
    have hchunk : ∀ c ∈ calls, chunk c = ∅ := by
      intro c hc
      ext a
      simp [chunk, hzero c hc, Set.Ico]
    refine ⟨fun c hc ↦ ?_, ?_, fun c hc hne ↦ absurd (hzero c hc) hne,
      fun c hc hne ↦ absurd (hzero c hc) hne, ?_, fun _ _ _ c hc hne ↦ absurd (hzero c hc) hne⟩
    · have halign := bootAllocs_aligned h rfl c hc
      refine BitVec.eq_of_toNat_eq ?_
      rw [pgoff, BitVec.toNat_and, show (0xFFF : Word).toNat = 2 ^ 12 - 1 from rfl,
        Nat.and_two_pow_sub_one_eq_mod]
      exact halign
    · refine List.Pairwise.imp_of_mem (fun {c c'} hc _ _ ↦ ?_)
        (List.pairwise_of_forall fun _ _ ↦ trivial)
      rw [hchunk c hc]
      exact Set.empty_disjoint _
    · refine List.Pairwise.imp_of_mem (fun {c c'} hc _ _ hne ↦ absurd (hzero c hc) hne)
        (List.pairwise_of_forall fun _ _ ↦ trivial)

theorem boot_alloc_bumps_idle : ∃ calls nextfree,
    bootAllocs 65536 0xF0180000 0 [0, 0] = some (calls, nextfree) ∧
      Bumps 65536 0xF0180000 calls nextfree := by
  have h : bootAllocs 65536 0xF0180000 0 [0, 0] =
      some ([(0, 0xF0181000), (0, 0xF0181000)], 0xF0181000) := rfl
  exact ⟨_, _, h, (boot_alloc_bumps_iff h).mpr (by simp)⟩

/-- Two chunks that overlap. -/
theorem boot_alloc_overlap : ∃ calls nextfree,
    bootAllocs 65536 0xF0180000 0 [0x2000, 0x1000] = some (calls, nextfree) ∧
      ¬ Bumps 65536 0xF0180000 calls nextfree := by
  refine ⟨[(0x2000, 0xF0183000), (0x1000, 0xF0184000)], 0xF0184000, rfl, fun h ↦ ?_⟩
  have hdis := List.rel_of_pairwise_cons h.disjoint List.mem_cons_self
  have hmem : 0xF0184000 ∈ chunk (0x2000, 0xF0183000) ∩ chunk (0x1000, 0xF0184000) :=
    ⟨⟨by decide, by decide⟩, by decide, by decide⟩
  exact Set.disjoint_left.mp hdis hmem.1 hmem.2

end

end Jos
