import Jos.Inc.Mmu
import Mathlib.Logic.Function.Basic

/-!
# The page allocator and the page tables (`kern/pmap.c`)

The state of `pmap.c` is the array `pages`, the head of the free list, and physical memory.
A `struct PageInfo *` is the index of the page, a `pde_t *` is the frame the directory lives in,
and a `pte_t *` is a frame together with a word index: the kernel reaches physical memory
through its window at `KERNBASE`, so `KADDR` of a physical address is the frame itself.  Tables
and directories are ordinary frames, read and written word by word.

A function that can panic returns an `Option`, and `none` is the panic.
-/

namespace Jos

/-- `struct PageInfo`. -/
structure PageInfo where
  ppLink : Option ℕ
  ppRef : BitVec 16

/-- What `mem_init` fixes once and for all: the size of physical memory in pages and the frame of
`kern_pgdir`.  The kernel window holds 256 MB (`kern/pmap.h`). -/
structure Machine where
  npages : ℕ
  kernPgdir : ℕ
  npages_le : npages ≤ 65536

/-- The state of `pmap.c`.  `tlbLog` lists the calls of `tlb_invalidate`, latest first. -/
structure Mem where
  pages : ℕ → PageInfo
  pageFreeList : Option ℕ
  phys : ℕ → ℕ → Word
  tlbLog : List (ℕ × Word)

namespace Mem

def link (m : Mem) (pp : ℕ) : Option ℕ := (m.pages pp).ppLink
def ref (m : Mem) (pp : ℕ) : BitVec 16 := (m.pages pp).ppRef

def setLink (m : Mem) (pp : ℕ) (n : Option ℕ) : Mem :=
  { m with pages := Function.update m.pages pp { m.pages pp with ppLink := n } }

def setRef (m : Mem) (pp : ℕ) (r : BitVec 16) : Mem :=
  { m with pages := Function.update m.pages pp { m.pages pp with ppRef := r } }

def setFreeList (m : Mem) (n : Option ℕ) : Mem := { m with pageFreeList := n }

/-- Store a word of physical memory. -/
def write (m : Mem) (f i : ℕ) (w : Word) : Mem :=
  { m with phys := Function.update m.phys f (Function.update (m.phys f) i w) }

/-- `memset(page2kva(pp), 0, PGSIZE)`. -/
def zero (m : Mem) (f : ℕ) : Mem := { m with phys := Function.update m.phys f fun _ ↦ 0 }

@[simp] theorem link_setLink (m : Mem) (pp : ℕ) (n : Option ℕ) :
    (m.setLink pp n).link = Function.update m.link pp n := by
  funext q
  by_cases h : q = pp
  · subst h
    simp [link, setLink]
  · simp [link, setLink, h]

@[simp] theorem ref_setLink (m : Mem) (pp : ℕ) (n : Option ℕ) : (m.setLink pp n).ref = m.ref := by
  funext q
  by_cases h : q = pp
  · subst h
    simp [ref, setLink]
  · simp [ref, setLink, h]

@[simp] theorem link_setRef (m : Mem) (pp : ℕ) (r : BitVec 16) :
    (m.setRef pp r).link = m.link := by
  funext q
  by_cases h : q = pp
  · subst h
    simp [link, setRef]
  · simp [link, setRef, h]

@[simp] theorem ref_setRef (m : Mem) (pp : ℕ) (r : BitVec 16) :
    (m.setRef pp r).ref = Function.update m.ref pp r := by
  funext q
  by_cases h : q = pp
  · subst h
    simp [ref, setRef]
  · simp [ref, setRef, h]

@[simp] theorem phys_setLink (m : Mem) (pp : ℕ) (n : Option ℕ) :
    (m.setLink pp n).phys = m.phys := rfl
@[simp] theorem phys_setRef (m : Mem) (pp : ℕ) (r : BitVec 16) :
    (m.setRef pp r).phys = m.phys := rfl
@[simp] theorem phys_setFreeList (m : Mem) (n : Option ℕ) : (m.setFreeList n).phys = m.phys := rfl
@[simp] theorem pageFreeList_setLink (m : Mem) (pp : ℕ) (n : Option ℕ) :
    (m.setLink pp n).pageFreeList = m.pageFreeList := rfl
@[simp] theorem pageFreeList_setRef (m : Mem) (pp : ℕ) (r : BitVec 16) :
    (m.setRef pp r).pageFreeList = m.pageFreeList := rfl
@[simp] theorem pageFreeList_setFreeList (m : Mem) (n : Option ℕ) :
    (m.setFreeList n).pageFreeList = n := rfl
@[simp] theorem link_setFreeList (m : Mem) (n : Option ℕ) : (m.setFreeList n).link = m.link := rfl
@[simp] theorem ref_setFreeList (m : Mem) (n : Option ℕ) : (m.setFreeList n).ref = m.ref := rfl
@[simp] theorem link_write (m : Mem) (f i : ℕ) (w : Word) : (m.write f i w).link = m.link := rfl
@[simp] theorem ref_write (m : Mem) (f i : ℕ) (w : Word) : (m.write f i w).ref = m.ref := rfl
@[simp] theorem pageFreeList_write (m : Mem) (f i : ℕ) (w : Word) :
    (m.write f i w).pageFreeList = m.pageFreeList := rfl
@[simp] theorem link_zero (m : Mem) (f : ℕ) : (m.zero f).link = m.link := rfl
@[simp] theorem ref_zero (m : Mem) (f : ℕ) : (m.zero f).ref = m.ref := rfl
@[simp] theorem pageFreeList_zero (m : Mem) (f : ℕ) :
    (m.zero f).pageFreeList = m.pageFreeList := rfl

@[simp] theorem phys_write_self (m : Mem) (f i : ℕ) (w : Word) :
    (m.write f i w).phys f i = w := by
  simp [write]

theorem phys_write_of_ne_frame (m : Mem) {f g : ℕ} (i : ℕ) (w : Word) (h : g ≠ f) :
    (m.write f i w).phys g = m.phys g := by
  simp [write, h]

theorem phys_write_of_ne_index (m : Mem) (f : ℕ) {i j : ℕ} (w : Word) (h : j ≠ i) :
    (m.write f i w).phys f j = m.phys f j := by
  simp [write, h]

@[simp] theorem phys_zero_self (m : Mem) (f i : ℕ) : (m.zero f).phys f i = 0 := by
  simp [zero]

theorem phys_zero_of_ne (m : Mem) {f g : ℕ} (h : g ≠ f) : (m.zero f).phys g = m.phys g := by
  simp [zero, h]

end Mem

/-! ## The functions of `pmap.c` -/

section

variable (B : Machine)

/-- `KADDR(pa)`: the frame behind the kernel's window, or a panic past the end of memory. -/
def kaddr (pa : Word) : Option ℕ := if B.npages ≤ pgnum pa then none else some (pgnum pa)

/-- `pa2page(pa)`: the index of the page in `pages`, or a panic past the end of memory. -/
def pa2page (pa : Word) : Option ℕ := if B.npages ≤ pgnum pa then none else some (pgnum pa)

/-- `page_alloc`: `none` as the returned page means that no memory is left. -/
def pageAlloc (m : Mem) (allocZero : Bool) : Option (Option ℕ × Mem) :=
  match m.pageFreeList with
  | none => some (none, m)
  | some pp => do
      let m ← if allocZero then (kaddr B (page2pa pp)).map m.zero else some m
      let m := m.setFreeList (m.link pp)
      let m := m.setLink pp none
      return (some pp, m)

/-- `page_free`: panics when the page is referenced or still linked. -/
def pageFree (m : Mem) (pp : ℕ) : Option Mem :=
  if m.ref pp ≠ 0 ∨ m.link pp ≠ none then none
  else some ((m.setLink pp m.pageFreeList).setFreeList (some pp))

/-- `page_decref`. -/
def pageDecref (m : Mem) (pp : ℕ) : Option Mem :=
  let m := m.setRef pp (m.ref pp - 1)
  if m.ref pp = 0 then pageFree m pp else some m

/-- `pgdir_walk`: a pointer to the entry of `va`, as a frame and a word index. -/
def pgdirWalk (m : Mem) (pgdir : ℕ) (va : Word) (create : Bool) :
    Option (Option (ℕ × ℕ) × Mem) :=
  let pde := m.phys pgdir (pdx va)
  if isSet pde PTE_P then do
    let holder ← kaddr B (pteAddr pde)
    return (some (holder, ptx va), m)
  else if create then do
    let (pNew, m) ← pageAlloc B m true
    match pNew with
    | none => return (none, m)
    | some pNew =>
        let m := m.setRef pNew (m.ref pNew + 1)
        let m := m.write pgdir (pdx va) (page2pa pNew ||| PTE_P ||| PTE_U ||| PTE_W)
        let holder ← kaddr B (page2pa pNew)
        return (some (holder, ptx va), m)
  else return (none, m)

/-- `page_lookup`: the page mapped at `va` and a pointer to its entry. -/
def pageLookup (m : Mem) (pgdir : ℕ) (va : Word) : Option (Option (ℕ × ℕ × ℕ)) := do
  let (pp, _) ← pgdirWalk B m pgdir va false
  match pp with
  | none => return none
  | some (t, j) =>
      if ¬ isSet (m.phys t j) PTE_P then return none
      else
        let pg ← pa2page B (pteAddr (m.phys t j))
        return some (pg, t, j)

/-- `tlb_invalidate`: the call is logged.  Whether it flushes an entry of a TLB depends on the
CPU it runs on. -/
def tlbInvalidate (m : Mem) (pgdir : ℕ) (va : Word) : Mem :=
  { m with tlbLog := (pgdir, va) :: m.tlbLog }

/-- `page_remove`. -/
def pageRemove (m : Mem) (pgdir : ℕ) (va : Word) : Option Mem := do
  match ← pageLookup B m pgdir va with
  | none => return m
  | some (got, t, j) =>
      if isSet (m.phys t j) PTE_P then
        let m ← pageDecref m got
        let m := m.write t j 0
        return tlbInvalidate m pgdir va
      else return m

/-- `page_insert`. -/
def pageInsert (m : Mem) (pgdir pp : ℕ) (va perm : Word) : Option (Word × Mem) := do
  let (pte, m) ← pgdirWalk B m pgdir va true
  match pte with
  | none => return (-E_NO_MEM, m)
  | some (t, j) =>
      let m := m.setRef pp (m.ref pp + 1)
      let m ← if isSet (m.phys t j) PTE_P then pageRemove B m pgdir va else some m
      let m := m.write t j (page2pa pp ||| perm ||| PTE_P)
      return (0, m)

/-- The loop of `user_mem_check` over the `n` pages from `start` on.  The address returned is
`user_mem_check_addr`. -/
def userMemCheckLoop (m : Mem) (pgdir : ℕ) (va perm : Word) : ℕ → Word → Option (Option Word)
  | 0, _ => some none
  | n + 1, start => do
      let (pp, _) ← pgdirWalk B m pgdir start false
      let bad := match pp with
        | none => true
        | some (t, j) => decide (ULIM ≤ start ∨ ¬ isSet (m.phys t j) PTE_P ∨
            m.phys t j &&& perm ≠ perm)
      if bad then return some (if start < va then va else start)
      else userMemCheckLoop m pgdir va perm n (start + 0x1000)

/-- `user_mem_check`: `some none` is the result 0, `some (some a)` is `-E_FAULT` with
`user_mem_check_addr = a`.  The loop runs from `start_va` while it is below `end_va`; both are
multiples of `PGSIZE`. -/
def userMemCheck (m : Mem) (pgdir : ℕ) (va len perm : Word) : Option (Option Word) :=
  let startVa := rounddown va 0x1000
  let endVa := roundup (va + len) 0x1000
  userMemCheckLoop B m pgdir va perm ((endVa.toNat - startVa.toNat) / PGSIZE) startVa

end

end Jos
