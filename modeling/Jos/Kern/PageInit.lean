import Jos.Kern.Ownership

/-!
# What `page_init` frees (`kern/pmap.c`)

`page_init` frees the pages from `256 + kernel` on, where `kernel` is the page number of
`boot_alloc(0)`, which is a physical page number already: it counts the first megabyte twice.
So 256 pages are left unused.  They are needed, though: `boot_alloc` returns the end of each
chunk, so `pages` and `envs` reach past what was reserved for them, by less than 256 pages.
-/

namespace Jos

open Jos.Lib

/-- Where the kernel is linked (`kern/kernel.ld`). -/
def linkAddr : Word := 0xF0100000

/-- `((size_t)boot_alloc(0) - KERNBASE) / PGSIZE`, with `next` the result of `boot_alloc(0)`. -/
def kernelPage (next : Word) : ℕ := (next - KERNBASE).toNat / PGSIZE

/-- The physical pages behind some addresses of the kernel. -/
def pagesBehind (S : Set Word) : Set ℕ := {i | ∃ a ∈ S, pgnum (a - KERNBASE) = i}

/-- The pages that must never be handed out: page 0, the page of the entry code of the other CPUs,
the hole for I/O, the kernel image, and what the kernel uses as `kern_pgdir`, `pages` and
`envs`. -/
inductive InUse (npages : ℕ) (kend : Word) (L : Layout) (i : ℕ) : Prop
  | zero (h : i = 0)
  | mpentry (h : i = pgnum MPENTRY_PADDR)
  | io (h : pgnum IOPHYSMEM ≤ i) (h' : i < pgnum EXTPHYSMEM)
  | kernel (h : i ∈ pagesBehind (region linkAddr (kend - linkAddr).toNat))
  | kernPgdir (h : i ∈ pagesBehind (region L.kernPgdir PGSIZE))
  | pages (h : i ∈ pagesBehind (region L.pages (npages * sizeofPageInfo)))
  | envs (h : i ∈ pagesBehind (region L.envs sizeofEnvs))

section

variable {npages npagesBasemem i : ℕ} {kend next nextfree : Word} {L : Layout} {m m' m₀ : Mem}

/-- The pages of a region that does not wrap around. -/
theorem mem_pagesBehind {start : Word} {size : ℕ} (hs : KERNBASE ≤ start)
    (hw : start.toNat + size ≤ 4294967296) (h : i ∈ pagesBehind (region start size)) :
    (start.toNat - 4026531840) / 4096 ≤ i ∧ i * 4096 + 4026531840 < start.toNat + size := by
  obtain ⟨a, ha, rfl⟩ := h
  have hk : KERNBASE.toNat = 4026531840 := rfl
  have hlt := a.isLt
  rw [BitVec.le_def, hk] at hs
  rw [mem_region, BitVec.toNat_sub] at ha
  rw [pgnum_eq, BitVec.toNat_sub, hk]
  have hstart : start.toNat ≤ a.toNat ∧ a.toNat < start.toNat + size := by omega
  omega

/-- An address that `boot_alloc` takes to be within memory: it is, but for address 0. -/
theorem within_kernbase {a : Word} (hn : npages ≤ 65536) (ha : a.toNat ≠ 0)
    (h : (a - KERNBASE).toNat ≤ npages * 4096) :
    4026531840 ≤ a.toNat ∧ (a - KERNBASE).toNat = a.toNat - 4026531840 := by
  have hlt := a.isLt
  rw [BitVec.toNat_sub, show KERNBASE.toNat = 4026531840 from rfl] at *
  omega

/-- A page number that is above `KERNBASE` after all has not wrapped around. -/
theorem mod_eq_of_kernbase {a : ℕ} (ha : a < 2031616) (h : 4026531840 ≤ a % 1048576 * 4096) :
    a % 1048576 = a := by
  omega

/-- Where the boot allocations are, if `page_init` finds room: nothing wraps around, and `pages`
lies 31 pages below `envs`, where the pages for `page_init` start. -/
theorem boot_layout_below (hn : npages ≤ 65536) (hkend : linkAddr ≤ kend)
    (hL : bootLayout npages kend = some L)
    (hnext : bootAlloc npages kend L.nextfree 0 = some (next, nextfree))
    (hroom : 256 + kernelPage next ≤ npages) :
    ∃ p k : ℕ, L.kernPgdir.toNat = 4026531840 + p * 4096 ∧ kend.toNat < L.kernPgdir.toNat ∧
      L.pages.toNat + 126976 = 4026531840 + k * 4096 ∧ L.envs.toNat = 4026531840 + k * 4096 ∧
      256 ≤ p ∧ p + 32 ≤ k ∧ k = kernelPage next := by
  obtain ⟨first, hlt, hfirst, hpos, hKn, hK, hPn, hP, hEn, hE, hnf⟩ := bootLayout_some hn hL
  have hnext' := (bootAlloc_eq hnext).2
  rw [if_pos rfl, bumpStart, hnf] at hnext'
  have hlink : linkAddr.toNat = 4027580416 := rfl
  have hk := kend.isLt
  rw [BitVec.le_def, hlink] at hkend
  rw [roundup_toNat, BitVec.toNat_add, show (1 : Word).toNat = 1 from rfl] at hfirst
  obtain ⟨hKlo, hKsub⟩ := within_kernbase hn (by omega) hK
  have hfirst' : first = (kend.toNat + 4096) / 4096 := by omega
  have hfirstSub : (roundup (kend + 1) 0x1000 - KERNBASE).toNat = first * 4096 - 4026531840 := by
    rw [BitVec.toNat_sub, roundup_toNat, BitVec.toNat_add, show (1 : Word).toNat = 1 from rfl,
      show KERNBASE.toNat = 4026531840 from rfl]
    omega
  rw [kernelPage, PGSIZE] at hroom
  rw [hKsub] at hK
  have hE0 : L.envs.toNat ≠ 0 := by
    intro hc
    rw [if_pos (BitVec.eq_of_toNat_eq hc)] at hnext'
    rw [hnext', hfirstSub] at hroom
    split at hEn <;> omega
  obtain ⟨hElo, hEsub⟩ := within_kernbase hn hE0 hE
  rw [if_neg fun hc ↦ hE0 (by rw [hc]; rfl)] at hnext'
  rw [hnext', hEsub] at hroom
  rw [hEsub] at hE
  have hP0 : L.pages.toNat ≠ 0 := by
    intro hc
    rw [if_pos hc] at hEn
    omega
  obtain ⟨hPlo, -⟩ := within_kernbase hn hP0 hP
  rw [if_neg hP0] at hEn
  have hroom' : L.envs.toNat + 1048576 ≤ 4026531840 + npages * 4096 := by omega
  -- the chunk for `pages` takes at most 64 pages
  obtain ⟨c, hc, hc'⟩ : ∃ c, (npages + 1023) / 1024 = c ∧ 0 < c ∧ c ≤ 64 := ⟨_, rfl, by omega⟩
  have hfirstLt : first + 1 + c < 2031616 := by
    clear hEn hnext' hfirst hfirstSub hKn hPn
    omega
  rw [hc] at hPn
  rw [hPn] at hPlo
  rw [mod_eq_of_kernbase hfirstLt hPlo] at hPn
  refine ⟨first + 1 - 983040, (L.envs.toNat - 4026531840) / 4096, ?_, ?_, ?_, ?_, ?_, ?_, ?_⟩
  · omega
  · omega
  · omega
  · omega
  · omega
  · omega
  · rw [hnext', kernelPage, hEsub, PGSIZE]

/-- What is in use lies in the first megabyte or below the pages that `page_init` frees after the
kernel. -/
theorem InUse.below (hn : npages ≤ 65536) (hkend : linkAddr ≤ kend)
    (hL : bootLayout npages kend = some L)
    (hnext : bootAlloc npages kend L.nextfree 0 = some (next, nextfree))
    (hroom : 256 + kernelPage next ≤ npages) (h : InUse npages kend L i) :
    i = 0 ∨ i = pgnum MPENTRY_PADDR ∨ 160 ≤ i ∧ i < 256 + kernelPage next := by
  obtain ⟨p, k, hK, hend, hP, hE, hp, hpk, hk⟩ := boot_layout_below hn hkend hL hnext hroom
  have hkb : KERNBASE.toNat = 4026531840 := rfl
  have hlink : linkAddr.toNat = 4027580416 := rfl
  have hlt := kend.isLt
  rw [← hk] at hroom ⊢
  cases h with
  | zero h => exact .inl h
  | mpentry h => exact .inr (.inl h)
  | io h h' =>
      have hio : pgnum IOPHYSMEM = 160 := by decide
      have hext : pgnum EXTPHYSMEM = 256 := by decide
      omega
  | kernel h =>
      have hsize : linkAddr.toNat + (kend - linkAddr).toNat = kend.toNat := by
        rw [BitVec.toNat_sub_of_le hkend]
        rw [BitVec.le_def] at hkend
        omega
      have := mem_pagesBehind (by decide) (by omega) h
      omega
  | kernPgdir h =>
      have := mem_pagesBehind (by rw [BitVec.le_def]; omega) (by rw [PGSIZE]; omega) h
      rw [PGSIZE] at this
      omega
  | pages h =>
      have := mem_pagesBehind (by rw [BitVec.le_def]; omega) (by rw [sizeofPageInfo]; omega) h
      rw [sizeofPageInfo] at this
      omega
  | envs h =>
      have := mem_pagesBehind (by rw [BitVec.le_def]; omega)
        (by rw [sizeofEnvs, sizeofEnv]; omega) h
      rw [sizeofEnvs, sizeofEnv] at this
      omega

/-- `page_init` frees no page that is in use: the 256 pages it leaves out hold the ends of `pages`
and `envs`. -/
theorem page_init_safe (hn : npages ≤ 65536) (hb : npagesBasemem ≤ 160) (hkend : linkAddr ≤ kend)
    (hL : bootLayout npages kend = some L)
    (hnext : bootAlloc npages kend L.nextfree 0 = some (next, nextfree))
    (hroom : 256 + kernelPage next ≤ npages) (hm : m₀.pageFreeList = none)
    (hinit : pageInit npages npagesBasemem (kernelPage next) m₀ = m) :
    ∃ l, Chain m.link m.pageFreeList l ∧ l.Nodup ∧ ∀ i ∈ l, ¬ InUse npages kend L i := by
  subst hinit
  obtain ⟨-, l, ⟨hchain, -⟩, hl⟩ := pageInit_free npages (kernelPage next) hb hm
  refine ⟨l, hchain, hchain.nodup, fun i hi hused ↦ ?_⟩
  have hmp : pgnum MPENTRY_PADDR = 7 := by decide
  rcases (hl i).mp hi with ⟨hpos, hlow, hne⟩ | ⟨hhigh, -⟩
  · rcases hused.below hn hkend hL hnext hroom with rfl | hi' | ⟨hge, -⟩
    · omega
    · exact hne hi'
    · omega
  · rcases hused.below hn hkend hL hnext hroom with rfl | hi' | ⟨-, hlt⟩ <;> omega

/-- 128 MB of memory and an image of 1.5 MB. -/
theorem page_init_safe_demo : ∃ L l, ∃ m : Mem, bootLayout 32768 0xF0180000 = some L ∧
    Chain m.link m.pageFreeList l ∧ l.Nodup ∧ ∀ i ∈ l, ¬ InUse 32768 0xF0180000 L i := by
  have hL : bootLayout 32768 0xF0180000 =
      some ⟨0xF0182000, 0xF01A2000, 0xF01C1000, 0xF01C1000⟩ := rfl
  have hnext : bootAlloc 32768 0xF0180000 0xF01C1000 0 = some (0xF01C1000, 0xF01C1000) := rfl
  obtain ⟨l, h⟩ := page_init_safe (by decide) (le_refl 160) (by decide) hL hnext (by decide)
    (show (⟨fun _ ↦ ⟨none, 0⟩, none, fun _ _ ↦ 0, []⟩ : Mem).pageFreeList = none from rfl) rfl
  exact ⟨_, l, _, hL, h⟩

/-! ## Which pages are left out -/

/-- The pages that `page_init` stores into, in order, and whether it frees them. -/
def pageInitStores (npages npagesBasemem kernel : ℕ) : List (ℕ × Bool) :=
  (0, false) :: ((List.range' 1 (npagesBasemem - 1)).map fun i ↦
      (i, decide (i ≠ pgnum MPENTRY_PADDR))) ++
    (List.range' 160 (256 - 160)).map (·, false) ++ (List.range' 256 kernel).map (·, false) ++
    (List.range' (256 + kernel) (npages - (256 + kernel))).map (·, true)

/-- One of the stores. -/
def pageInitStore (m : Mem) (x : ℕ × Bool) : Mem :=
  if x.2 then m.pushFree x.1 else m.setRef x.1 1

/-- `page_init` makes these stores and no others. -/
theorem pageInit_eq_foldl (npages npagesBasemem kernel : ℕ) (m : Mem) :
    pageInit npages npagesBasemem kernel m =
      (pageInitStores npages npagesBasemem kernel).foldl pageInitStore m := by
  simp only [pageInit, pageInitStores, List.foldl_append, List.foldl_cons, List.foldl_map,
    pageInitStore, decide_eq_true_eq, ite_not, if_true, Bool.false_eq_true, if_false]

/-- The comment in `page_init` says which pages are free: base memory but for page 0 and the page
at `MPENTRY_PADDR`, and extended memory from `boot_alloc(0)` on. -/
def Available (npages npagesBasemem : ℕ) (next : Word) (i : ℕ) : Prop :=
  (1 ≤ i ∧ i < npagesBasemem ∧ i ≠ pgnum MPENTRY_PADDR ∨
    pgnum EXTPHYSMEM ≤ i ∧ kernelPage next ≤ i) ∧ i < npages

/-- `page_init` stays within `pages`, and frees what is available. -/
structure PageInitExact (npages npagesBasemem : ℕ) (next : Word) (m : Mem) : Prop where
  within : ∀ x ∈ pageInitStores npages npagesBasemem (kernelPage next), x.1 < npages
  exact : ∀ i, (pageInit npages npagesBasemem (kernelPage next) m).IsFree i ↔
    Available npages npagesBasemem next i

theorem isFree_pageInit (hb : npagesBasemem ≤ 160) (hm : m.pageFreeList = none) {kernel : ℕ} :
    (pageInit npages npagesBasemem kernel m).IsFree i ↔
      1 ≤ i ∧ i < npagesBasemem ∧ i ≠ pgnum MPENTRY_PADDR ∨ 256 + kernel ≤ i ∧ i < npages := by
  obtain ⟨-, l, ⟨hchain, -⟩, hl⟩ := pageInit_free npages kernel hb hm
  rw [← hl i]
  constructor
  · rintro ⟨l', hl', hi⟩
    rwa [hl'.unique hchain] at hi
  · exact fun hi ↦ ⟨l, hchain, hi⟩

/-- Pages are left out, or stored to behind the end of `pages`, unless `boot_alloc(0)` is the first
page of memory. -/
theorem PageInitExact.first (h : PageInitExact npages npagesBasemem next m)
    (hb : npagesBasemem ≤ 160) (hm : m.pageFreeList = none) :
    kernelPage next = 0 ∧ 256 ≤ npages := by
  have hext : pgnum EXTPHYSMEM = 256 := by decide
  -- the pages from the hole for I/O up to the end of the kernel are marked
  have hin : 255 + kernelPage next < npages := by
    refine h.within (255 + kernelPage next, false) ?_
    simp only [pageInitStores, List.mem_append, List.mem_map, List.mem_range'_1, Prod.mk.injEq,
      and_true, exists_eq_right]
    refine .inl ?_
    rcases Nat.eq_zero_or_pos (kernelPage next) with h0 | hpos
    · exact .inl (.inr (by omega))
    · exact .inr (by omega)
  refine ⟨?_, by omega⟩
  by_contra hpos
  -- a page that is available, but before the last loop starts
  have hfree : (pageInit npages npagesBasemem (kernelPage next) m).IsFree
      (max 256 (kernelPage next)) :=
    (h.exact _).mpr ⟨.inr ⟨by omega, by omega⟩, by omega⟩
  rcases (isFree_pageInit hb hm).mp hfree with ⟨-, hlt, -⟩ | ⟨hge, -⟩ <;> omega

/-- `page_init` is exact if and only if `boot_alloc(0)` is the first page of memory, and there are
at least 256 pages. -/
theorem page_init_exact_iff (hb : npagesBasemem ≤ 160) (hm : m.pageFreeList = none) :
    PageInitExact npages npagesBasemem next m ↔ kernelPage next = 0 ∧ 256 ≤ npages := by
  constructor
  · exact fun h ↦ h.first hb hm
  · rintro ⟨h0, hn⟩
    have hext : pgnum EXTPHYSMEM = 256 := by decide
    refine ⟨fun x hx ↦ ?_, fun i ↦ ?_⟩
    · simp only [pageInitStores, h0, List.mem_append, List.mem_cons, List.mem_map,
        List.mem_range'_1] at hx
      rcases hx with (((rfl | ⟨i, hi, rfl⟩) | ⟨i, hi, rfl⟩) | ⟨i, hi, rfl⟩) | ⟨i, hi, rfl⟩ <;>
        dsimp only <;> omega
    · rw [isFree_pageInit hb hm, Available, hext, h0]
      omega

theorem page_init_exact_first : ∃ m : Mem, PageInitExact 256 160 KERNBASE m :=
  ⟨⟨fun _ ↦ ⟨none, 0⟩, none, fun _ _ ↦ 0, []⟩,
    (page_init_exact_iff (by decide) rfl).mpr ⟨by decide, by decide⟩⟩

/-- So with a kernel at its address and at most 256 MB of memory it never is. -/
theorem not_pageInitExact (hn : npages ≤ 65536) (hb : npagesBasemem ≤ 160)
    (hkend : linkAddr ≤ kend) (hL : bootLayout npages kend = some L)
    (hnext : bootAlloc npages kend L.nextfree 0 = some (next, nextfree))
    (hm : m.pageFreeList = none) : ¬ PageInitExact npages npagesBasemem next m := by
  intro h
  obtain ⟨h0, hge⟩ := h.first hb hm
  obtain ⟨p, k, -, -, -, -, hp, hpk, hk⟩ :=
    boot_layout_below hn hkend hL hnext (by rw [h0]; exact hge)
  omega

/-- With 128 MB of memory and an image of 1.5 MB, pages 449 to 704 are left out. -/
theorem page_init_loses_pages : ∃ L next, bootLayout 32768 0xF0180000 = some L ∧
    bootAlloc 32768 0xF0180000 L.nextfree 0 = some (next, next) ∧
    ∀ m : Mem, m.pageFreeList = none → Available 32768 160 next 449 ∧
      ¬ (pageInit 32768 160 (kernelPage next) m).IsFree 449 := by
  refine ⟨⟨0xF0182000, 0xF01A2000, 0xF01C1000, 0xF01C1000⟩, 0xF01C1000, rfl, rfl, fun m hm ↦ ?_⟩
  have hkernel : kernelPage 0xF01C1000 = 449 := by decide
  refine ⟨⟨.inr ⟨by decide, hkernel.le⟩, by decide⟩, fun hfree ↦ ?_⟩
  rcases (isFree_pageInit (by decide) hm).mp hfree with ⟨-, hlt, -⟩ | ⟨hge, -⟩
  · omega
  · rw [hkernel] at hge
    omega

end

end Jos
