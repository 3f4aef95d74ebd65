import Jos.Kern.PageInit

/-!
# How much memory the kernel takes (`kern/pmap.c`)

`i386_detect_memory` takes as many pages as the CMOS registers report, and `page_init` frees them,
also where there are more than the window at `KERNBASE` has room for.  `page2kva` of such a page
wraps around.
-/

namespace Jos

/-- `i386_detect_memory`: `npages` and `npages_basemem`, from what `nvram_read` returns for base
memory and extended memory, in kilobytes, and for memory above 16 MB, in units of 64 KB. -/
def i386DetectMemory (baselo extlo ext16lo : BitVec 16) : ℕ × ℕ :=
  let basemem := baselo.toNat
  let extmem := extlo.toNat
  let ext16mem := ext16lo.toNat * 64
  let totalmem :=
    if ext16mem ≠ 0 then 16 * 1024 + ext16mem
    else if extmem ≠ 0 then 1 * 1024 + extmem
    else basemem
  (totalmem / (PGSIZE / 1024), basemem / (PGSIZE / 1024))

/-- `page2kva`, without the check of `KADDR`. -/
def page2kva (pp : ℕ) : Word := page2pa pp + KERNBASE

/-- `page2kva` does not wrap around, and is an address of the page in the window at `KERNBASE`. -/
structure HasKva (pp : ℕ) : Prop where
  lt : (page2pa pp).toNat + KERNBASE.toNat < 2 ^ 32
  ge : KERNBASE ≤ page2kva pp
  page : pgnum (page2kva pp - KERNBASE) = pp

/-- The pages that one finds from `page_free_list` on. -/
inductive Listed (m : Mem) : ℕ → Prop
  | head {p : ℕ} (h : m.pageFreeList = some p) : Listed m p
  | next {p q : ℕ} (hp : Listed m p) (h : m.link p = some q) : Listed m q

variable {m : Mem} {npages npagesBasemem p i : ℕ}

/-- The pages with a kernel address are those of the first 256 MB. -/
theorem hasKva_iff : HasKva p ↔ p < 65536 := by
  have hk : KERNBASE.toNat = 4026531840 := rfl
  have hpa : (page2pa p).toNat = p * 4096 % 4294967296 := by
    rw [page2pa, BitVec.toNat_shiftLeft, BitVec.toNat_ofNat, Nat.shiftLeft_eq]
    omega
  constructor
  · intro h
    have hlt := h.lt
    have hpage := h.page
    rw [page2kva, BitVec.add_sub_cancel, pgnum_eq] at hpage
    omega
  · intro h
    refine ⟨by omega, ?_, ?_⟩
    · rw [BitVec.le_def, page2kva, BitVec.toNat_add]
      omega
    · rw [page2kva, BitVec.add_sub_cancel, pgnum_eq]
      omega

/-- A page that is put on the list is in front of the others. -/
theorem Listed.of_pushFree (h : Listed (m.pushFree i) p) : p = i ∨ Listed m p := by
  induction h with
  | head h => exact .inl (Option.some.inj h).symm
  | @next p q _ h ih =>
      by_cases hpi : p = i
      · rw [hpi] at h
        simp only [Mem.pushFree, Mem.link_setFreeList, Mem.link_setLink, Function.update_self] at h
        exact .inr (.head h)
      · simp only [Mem.pushFree, Mem.link_setFreeList, Mem.link_setLink, Mem.link_setRef,
          Function.update_of_ne hpi] at h
        exact .inr (.next (ih.resolve_left hpi) h)

theorem Listed.of_setRef {r : BitVec 16} (h : Listed (m.setRef i r) p) : Listed m p := by
  induction h with
  | head h => exact .head h
  | next _ h ih => exact .next ih (by rwa [Mem.link_setRef] at h)

/-- Only pages that `page_init` frees are on the list after it. -/
theorem Listed.of_stores {xs : List (ℕ × Bool)} (h : Listed (xs.foldl pageInitStore m) p) :
    (p, true) ∈ xs ∨ Listed m p := by
  induction xs generalizing m with
  | nil => exact .inr h
  | cons x xs ih =>
      rcases ih h with hx | hx
      · exact .inl (List.mem_cons_of_mem x hx)
      · obtain ⟨i, b⟩ := x
        cases b with
        | false => exact .inr hx.of_setRef
        | true =>
            rcases hx.of_pushFree with rfl | hm
            · exact .inl List.mem_cons_self
            · exact .inr hm

theorem not_listed (hm : m.pageFreeList = none) : ¬ Listed m p := by
  intro h
  induction h with
  | head h => cases hm.symm.trans h
  | next _ _ ih => exact ih

theorem pageFreeList_foldl_pushFree (start n : ℕ) (m : Mem) :
    ((List.range' start (n + 1)).foldl Mem.pushFree m).pageFreeList = some (start + n) := by
  rw [List.range'_concat, List.foldl_append, Nat.one_mul]
  rfl

/-- The last page of memory is in front of the list, if the last loop gets to it. -/
theorem listed_last {kernel : ℕ} (h : 256 + kernel < npages) :
    Listed (pageInit npages npagesBasemem kernel m) (npages - 1) := by
  obtain ⟨n, rfl⟩ := Nat.exists_eq_add_of_lt h
  have hlast : 256 + kernel + n + 1 - (256 + kernel) = n + 1 := by omega
  refine .head ?_
  simp only [pageInit, hlast]
  exact pageFreeList_foldl_pushFree _ _ _

/-- With `next` the result of `boot_alloc(0)`, every free page has a kernel address if and only if
there is no more memory than fits into the window, or `page_init` frees nothing after the kernel. -/
theorem free_pages_kva_iff {baselo extlo ext16lo : BitVec 16} (next : Word)
    (hdetect : i386DetectMemory baselo extlo ext16lo = (npages, npagesBasemem))
    (hm : m.pageFreeList = none) :
    (∀ p, Listed (pageInit npages npagesBasemem (kernelPage next) m) p → HasKva p) ↔
      npages ≤ 65536 ∨ npages ≤ 256 + kernelPage next := by
  have hbase : npagesBasemem < 65536 := by
    obtain ⟨-, rfl⟩ := Prod.mk.inj hdetect
    exact (Nat.div_le_self _ _).trans_lt baselo.isLt
  constructor
  · intro h
    by_contra hc
    have := hasKva_iff.mp (h _ (listed_last (by omega)))
    omega
  · intro h p hp
    rw [pageInit_eq_foldl] at hp
    rcases hp.of_stores with hmem | hp
    · have hstore : p < npagesBasemem ∨ 256 + kernelPage next ≤ p ∧ p < npages := by
        simp only [pageInitStores, List.mem_append, List.mem_cons, List.mem_map, List.mem_range'_1,
          Prod.mk.injEq, Bool.true_eq_false, Bool.false_eq_true, and_false, exists_false, or_false,
          false_or] at hmem
        rcases hmem with ⟨i, hi, rfl, -⟩ | ⟨i, hi, rfl, -⟩
        · exact .inl (by omega)
        · exact .inr (by omega)
      rw [hasKva_iff]
      omega
    · exact absurd hp (not_listed hm)

theorem free_pages_kva_iff_demo : ∃ L next, ∃ m : Mem, bootLayout 32768 0xF0180000 = some L ∧
    bootAlloc 32768 0xF0180000 L.nextfree 0 = some (next, next) ∧
    ∀ p, Listed (pageInit 32768 160 (kernelPage next) m) p → HasKva p :=
  ⟨_, _, ⟨fun _ ↦ ⟨none, 0⟩, none, fun _ _ ↦ 0, []⟩, rfl, rfl, (free_pages_kva_iff _
    (show i386DetectMemory 640 0xFFFF 1792 = (32768, 160) from rfl) rfl).mpr (.inl (by decide))⟩

/-- One megabyte more than the window has room for. -/
theorem free_page_without_kva :
    ∃ baselo extlo ext16lo : BitVec 16, ∃ npages npagesBasemem, ∃ L next,
    i386DetectMemory baselo extlo ext16lo = (npages, npagesBasemem) ∧
    bootLayout npages 0xF0180000 = some L ∧
    bootAlloc npages 0xF0180000 L.nextfree 0 = some (next, next) ∧
    ∀ m : Mem, ∃ p, Listed (pageInit npages npagesBasemem (kernelPage next) m) p ∧ ¬ HasKva p := by
  refine ⟨640, 0xFFFF, 3856, 65792, 160, _, _, rfl, rfl, rfl, fun m ↦ ⟨65791, ?_, ?_⟩⟩
  · exact listed_last (by decide)
  · rw [hasKva_iff]
    decide

end Jos
