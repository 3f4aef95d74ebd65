import Jos.Kern.FreeListCheck

/-!
# The self-tests on three pages

The tests only look at three pages of the free list and at two entries of `kern_pgdir`.  A `Sketch`
describes these with numbers for the pages, `Sketch.Models` says that memory is as it shows, and a
statement that succeeds on a sketch does on memory.  So a run of a test on its first sketch, which
is a finite computation, tells what the test does on every memory.
-/

namespace Jos

open Jos.Lib

/-! ## Sketches -/

/-- A word: a number, or an entry for one of the three pages. -/
inductive Cell
  | num (w : Word)
  | pte (k : Fin 3) (perm : Word)
  deriving DecidableEq

/-- The words of a page: the first two, and all others. -/
structure Cells where
  c0 : Cell
  c1 : Cell
  rest : Cell
  deriving DecidableEq

namespace Cells

/-- A page of equal words. -/
def all (x : Cell) : Cells := ⟨x, x, x⟩

def get (c : Cells) : ℕ → Cell
  | 0 => c.c0
  | 1 => c.c1
  | _ => c.rest

/-- Store one of the first two words. -/
def set (c : Cells) (j : ℕ) (x : Cell) : Cells :=
  if j = 0 then { c with c0 := x } else { c with c1 := x }

@[simp] theorem get_all (x : Cell) (i : ℕ) : (all x).get i = x := by
  rcases i with _ | _ | i <;> rfl

theorem get_set (c : Cells) {j : ℕ} (hj : j < 2) (x : Cell) (i : ℕ) :
    (c.set j x).get i = if i = j then x else c.get i := by
  rcases (by omega : j = 0 ∨ j = 1) with rfl | rfl <;> rcases i with _ | _ | i <;> rfl

end Cells

/-- What the tests see of memory: the free list, without the pages beyond the three, whether these
have been taken off it, the reference counts, the first directory entries, and the contents of the
three pages as far as they are known. -/
structure Sketch where
  free : List (Fin 3) := [0, 1, 2]
  stolen : Bool := false
  ref : Fin 3 → BitVec 16 := fun _ ↦ 0
  pde : ℕ → Option (Fin 3) := fun _ ↦ none
  cells : Fin 3 → Option Cells := fun _ ↦ none

/-- What they see of their variables; `fl` says whether it is set. -/
structure BenchSketch where
  mem : Sketch := {}
  var : Var → Option (Fin 3) := fun _ ↦ none
  fl : Bool := false
  ptep : Option (Fin 3 × ℕ) := none

namespace Sketch

variable (a : Sketch)

/-- `page_alloc`. -/
def alloc (zero : Bool) : Option (Option (Fin 3) × Sketch) :=
  match a.free with
  | [] => assertThat (a.stolen = true) (none, a)
  | k :: ks => some (some k, { a with
      free := ks
      cells := if zero then Function.update a.cells k (some (.all (.num 0))) else a.cells })

/-- New contents of a page. -/
def setCells (k : Fin 3) (c : Cells) : Sketch :=
  { a with cells := Function.update a.cells k (some c) }

/-- `page_free`. -/
def freePage (k : Fin 3) : Option Sketch :=
  assertThat (a.ref k = 0 ∧ k ∉ a.free) { a with free := k :: a.free }

/-- A change of `pp_ref`. -/
def setRef (k : Fin 3) (r : BitVec 16) : Sketch := { a with ref := Function.update a.ref k r }

/-- `page_decref`. -/
def decref (k : Fin 3) : Option Sketch :=
  let a := a.setRef k (a.ref k - 1)
  if a.ref k = 0 then a.freePage k else some a

/-- `pgdir_walk`. -/
def walk (va : Word) (create : Bool) : Option (Option (Fin 3 × ℕ) × Sketch) :=
  if pdx va < 2 ∧ ptx va < 2 then
    match a.pde (pdx va) with
    | some t => some (some (t, ptx va), a)
    | none =>
        if create then do
          let (k, a) ← a.alloc true
          match k with
          | none => some (none, a)
          | some k =>
              let a := a.setRef k (a.ref k + 1)
              some (some (k, ptx va), { a with pde := Function.update a.pde (pdx va) (some k) })
        else some (none, a)
  else none

/-- The entry that a pointer points to. -/
def cell (t : Fin 3) (j : ℕ) : Option Cell := (a.cells t).map (·.get j)

/-- A store of an entry. -/
def setCell (t : Fin 3) (j : ℕ) (x : Cell) : Option Sketch := do
  let c ← a.cells t
  assertThat (j < 2) (a.setCells t (c.set j x))

/-- `page_lookup`. -/
def lookup (va : Word) : Option (Option (Fin 3 × Fin 3 × ℕ)) := do
  match ← a.walk va false with
  | (none, _) => some none
  | (some (t, j), _) =>
      match ← a.cell t j with
      | .num w => assertThat (¬ isSet w PTE_P) none
      | .pte k perm => assertThat (perm.toNat < 4096) (some (k, t, j))

/-- `page_remove`. -/
def remove (va : Word) : Option Sketch := do
  match ← a.lookup va with
  | none => some a
  | some (k, t, j) => (← a.decref k).setCell t j (.num 0)

/-- What `page_insert` does about the entry that it finds. -/
def vacate (va : Word) : Cell → Option Sketch
  | .num w => assertThat (¬ isSet w PTE_P) a
  | .pte _ _ => a.remove va

/-- `page_insert`, and whether its result is 0. -/
def insert (k : Fin 3) (va perm : Word) : Option (Bool × Sketch) := do
  match ← a.walk va true with
  | (none, a) => some (false, a)
  | (some (t, j), a) => do
      let a := a.setRef k (a.ref k + 1)
      let a ← a.vacate va (← a.cell t j)
      return (true, ← a.setCell t j (.pte k perm))

end Sketch

/-- What a statement does to a sketch; none if the sketch does not tell, or an assertion fails. -/
def Check.sketch (b : BenchSketch) : Check → Option BenchSketch
  | alloc x zero => do
      let (k, a) ← b.mem.alloc zero
      assertThat (k ≠ none) { b with mem := a, var := Function.update b.var x k }
  | noMem => do
      let (k, a) ← b.mem.alloc false
      assertThat (k = none) { b with mem := a }
  | distinct x ys => assertThat (b.var x ≠ none ∧ ∀ y ∈ ys, b.var x ≠ b.var y) b
  | same x y => assertThat (b.var x ≠ none ∧ b.var y = b.var x) b
  | inMemory x => assertThat (b.var x ≠ none) b
  | steal => assertThat (b.mem.stolen = false ∧ b.mem.free = [])
      { b with mem := { b.mem with stolen := true }, fl := true }
  | giveBack => assertThat (b.fl = true ∧ b.mem.free = [])
      { b with mem := { b.mem with stolen := false } }
  | forget => some { b with var := fun x ↦ if x = .pp then b.var .pp else none }
  | free x => do
      let a ← b.mem.freePage (← b.var x)
      return { b with mem := a }
  | memset x c => do
      let k ← b.var x
      let w := BitVec.ofNat 32 (c.toNat * 0x01010101)
      return { b with mem := b.mem.setCells k (.all (.num w)) }
  | zeroed x => do
      let c ← b.mem.cells (← b.var x)
      assertThat (c = .all (.num 0)) b
  | notPresent x => do
      let c ← b.mem.cells (← b.var x)
      assertThat (c = .all (.num 0)) b
  | lookupNull va => do
      let r ← b.mem.lookup va
      assertThat (r = none) b
  | insert x va perm ok => do
      let (r, a) ← b.mem.insert (← b.var x) va perm
      assertThat (∀ b, ok = some b → b = r) { b with mem := a }
  | remove va => do
      let a ← b.mem.remove va
      return { b with mem := a }
  | walk va create => do
      let (ptep, a) ← b.mem.walk va create
      return { b with mem := a, ptep := ptep }
  | ptepIs va => do
      let t ← b.mem.pde (pdx va)
      assertThat (pdx va < 2 ∧ b.ptep = some (t, ptx va)) b
  | va2pa va x => do
      let r ← b.mem.lookup va
      match x with
      | none => assertThat (r = none) b
      | some x => do
          let k ← b.var x
          assertThat (r.map Prod.fst = some k) b
  | pdeIs i x => do
      let k ← b.var x
      assertThat (i < 2 ∧ b.mem.pde i = some k) b
  | pdeHas i perm => assertThat (i < 2 ∧ b.mem.pde i ≠ none ∧ perm = PTE_U) b
  | pteHas va perm has => do
      let (_, t, j) ← (← b.mem.lookup va)
      match ← b.mem.cell t j with
      | .num _ => none
      | .pte _ q => assertThat (perm.toNat < 4096 ∧ (has = true ↔ isSet (q ||| PTE_P) perm)) b
  | clearPde i => assertThat (i < 2)
      { b with mem := { b.mem with pde := Function.update b.mem.pde i none } }
  | refIs x n => do
      let k ← b.var x
      assertThat (b.mem.ref k = n) b
  | refPos x => do
      let k ← b.var x
      assertThat (b.mem.ref k ≠ 0) b
  | linkNull x => do
      let k ← b.var x
      assertThat (k ∉ b.mem.free) b
  | clearRef x => do
      let k ← b.var x
      return { b with mem := b.mem.setRef k 0 }
  | loads va w => do
      let (k, _) ← (← b.mem.lookup va)
      let c ← b.mem.cells k
      assertThat (c.get ((pgoff va).toNat / 4) = .num w) b
  | store va w => do
      let (k, t, j) ← (← b.mem.lookup va)
      let a ← b.mem.setCell k ((pgoff va).toNat / 4) (.num w)
      match ← b.mem.cell t j with
      | .num _ => none
      | .pte _ q => assertThat (isSet q PTE_W) { b with mem := a }
  | holds x w => do
      let c ← b.mem.cells (← b.var x)
      assertThat (c.c0 = .num w) b

/-! ## What a sketch says about memory -/

/-- Three pages that come first on the free list, with the others after them. -/
structure Bed (B : Machine) (m₀ : Mem) where
  p : Fin 3 → ℕ
  rest : List ℕ
  inj : Function.Injective p
  notMem : ∀ k, p k ∉ rest
  lt : ∀ k, p k < B.npages
  ne_kern : ∀ k, p k ≠ B.kernPgdir
  chain : Chain m₀.link rest.head? rest

/-- The three pages. -/
def Bed.pool {B : Machine} {m₀ : Mem} (bed : Bed B m₀) : Pool B where
  carrier := Set.range bed.p
  lt := by
    rintro _ ⟨k, rfl⟩
    exact bed.lt k
  kern := by
    rintro ⟨k, hk⟩
    exact bed.ne_kern k hk

/-- The word that a cell stands for. -/
def Cell.word (p : Fin 3 → ℕ) : Cell → Word
  | num w => w
  | pte k perm => mkPte (p k) perm

variable {B : Machine} {m₀ : Mem}

/-- The sketch shows the state as it is; beyond the three pages and the first two entries of
`kern_pgdir` nothing has changed. -/
structure Sketch.Models (bed : Bed B m₀) (a : Sketch) (m : Mem) : Prop where
  list : Chain m.link m.pageFreeList (a.free.map bed.p ++ if a.stolen then [] else bed.rest)
  link : ∀ k ∉ a.free, m.link (bed.p k) = none
  ref : ∀ k, m.ref (bed.p k) = a.ref k
  pde : ∀ i < 2, m.phys B.kernPgdir i =
    (a.pde i).elim 0 fun k ↦ mkPte (bed.p k) (PTE_U ||| PTE_W)
  cells : ∀ k c, a.cells k = some c → ∀ i < NPTENTRIES, m.phys (bed.p k) i = (c.get i).word bed.p
  off : ∀ q, (∀ k, q ≠ bed.p k) → m.ref q = m₀.ref q ∧ m.link q = m₀.link q ∧
    (q ≠ B.kernPgdir → m.phys q = m₀.phys q)
  kern : ∀ i, 2 ≤ i → m.phys B.kernPgdir i = m₀.phys B.kernPgdir i

/-- And the variables are as the sketch shows them. -/
structure BenchSketch.Models (bed : Bed B m₀) (b : BenchSketch) (s : Bench) : Prop where
  mem : b.mem.Models bed s.mem
  var : ∀ x, s.var x = (b.var x).map bed.p
  fl : b.fl = true → s.fl = bed.rest.head?
  ptep : s.ptep = b.ptep.map fun x ↦ (bed.p x.1, x.2)

namespace Sketch.Models

variable {bed : Bed B m₀} {a a' : Sketch} {m : Mem} {k t : Fin 3} {i j : ℕ}

/-! ### Single stores -/

theorem setRef (h : a.Models bed m) (k : Fin 3) (r : BitVec 16) :
    (a.setRef k r).Models bed (m.setRef (bed.p k) r) where
  list := by
    rw [Mem.link_setRef]
    exact h.list
  link k' hk' := by
    rw [Mem.link_setRef]
    exact h.link k' hk'
  ref k' := by
    rw [Mem.ref_setRef]
    change _ = Function.update a.ref k r k'
    by_cases hk : k' = k
    · rw [hk, Function.update_self, Function.update_self]
    · rw [Function.update_of_ne (bed.inj.ne hk), Function.update_of_ne hk]
      exact h.ref k'
  pde := h.pde
  cells := h.cells
  off q hq := by
    rw [Mem.ref_setRef, Mem.link_setRef, Function.update_of_ne (hq k)]
    exact h.off q hq
  kern := h.kern

/-- A store of words of a page. -/
theorem update (h : a.Models bed m) (k : Fin 3) {c : Cells} {g : ℕ → Word}
    (hg : ∀ i < NPTENTRIES, g i = (c.get i).word bed.p) :
    (a.setCells k c).Models bed { m with phys := Function.update m.phys (bed.p k) g } where
  list := h.list
  link := h.link
  ref := h.ref
  pde i hi := by
    change Function.update m.phys (bed.p k) g B.kernPgdir i = _
    rw [Function.update_of_ne (bed.ne_kern k).symm]
    exact h.pde i hi
  cells k' c' hc' i hi := by
    change Function.update m.phys (bed.p k) g (bed.p k') i = _
    change Function.update a.cells k (some c) k' = some c' at hc'
    by_cases hk : k' = k
    · subst hk
      rw [Function.update_self, Option.some.injEq] at hc'
      rw [Function.update_self, ← hc']
      exact hg i hi
    · rw [Function.update_of_ne hk] at hc'
      rw [Function.update_of_ne (bed.inj.ne hk)]
      exact h.cells k' c' hc' i hi
  off q hq := ⟨(h.off q hq).1, (h.off q hq).2.1, fun hne ↦
    (Function.update_of_ne (hq k) _ _).trans ((h.off q hq).2.2 hne)⟩
  kern i hi := by
    change Function.update m.phys (bed.p k) g B.kernPgdir i = _
    rw [Function.update_of_ne (bed.ne_kern k).symm]
    exact h.kern i hi

theorem setCell (h : a.Models bed m) {x : Cell} (ha : a.setCell t j x = some a') :
    a'.Models bed (m.write (bed.p t) j (x.word bed.p)) := by
  simp only [Sketch.setCell, Option.bind_eq_bind, Option.bind_eq_some_iff, assertThat_eq_some] at ha
  obtain ⟨c, hc, hj, rfl⟩ := ha
  refine h.update t fun i hi ↦ ?_
  rw [Cells.get_set c hj]
  by_cases hij : i = j
  · rw [hij, if_pos rfl, Function.update_self]
  · rw [if_neg hij, Function.update_of_ne hij]
    exact h.cells t c hc i hi

/-- A store of a directory entry. -/
theorem setPde (h : a.Models bed m) (hi : i < 2) (o : Option (Fin 3)) :
    Sketch.Models bed { a with pde := Function.update a.pde i o }
      (m.write B.kernPgdir i (o.elim 0 fun k ↦ mkPte (bed.p k) (PTE_U ||| PTE_W))) where
  list := h.list
  link := h.link
  ref := h.ref
  pde i' hi' := by
    change _ = (Function.update a.pde i o i').elim _ _
    by_cases hii : i' = i
    · rw [hii, Mem.phys_write_self, Function.update_self]
    · rw [Mem.phys_write_of_ne_index _ _ _ hii, Function.update_of_ne hii]
      exact h.pde i' hi'
  cells k c hc i' hi' := by
    rw [Mem.phys_write_of_ne_frame _ _ _ (bed.ne_kern k)]
    exact h.cells k c hc i' hi'
  off q hq := ⟨(h.off q hq).1, (h.off q hq).2.1, fun hne ↦ by
    rw [Mem.phys_write_of_ne_frame _ _ _ hne]
    exact (h.off q hq).2.2 hne⟩
  kern i' hi' := by
    rw [Mem.phys_write_of_ne_index _ _ _ (by omega)]
    exact h.kern i' hi'

/-- A page of the three that is not on the free list, whoever has the others. -/
theorem notMem (h : k ∉ a.free) :
    bed.p k ∉ a.free.map bed.p ++ if a.stolen then [] else bed.rest := by
  rw [List.mem_append, List.mem_map]
  rintro (⟨k', hk', heq⟩ | hrest)
  · exact h (bed.inj heq ▸ hk')
  · split at hrest
    · exact List.not_mem_nil hrest
    · exact bed.notMem k hrest

/-! ### The functions of `pmap.c` -/

theorem alloc (h : a.Models bed m) {z : Bool} {o : Option (Fin 3)}
    (ha : a.alloc z = some (o, a')) :
    ∃ m', pageAlloc B m z = some (o.map bed.p, m') ∧ a'.Models bed m' := by
  have hlist := h.list
  rw [Sketch.alloc] at ha
  cases hfree : a.free with
  | nil =>
      simp only [hfree, assertThat_eq_some, Prod.mk.injEq] at ha
      obtain ⟨hst, rfl, rfl⟩ := ha
      rw [hfree, hst] at hlist
      have hnone : m.pageFreeList = none := hlist.head_eq
      exact ⟨m, by simp [pageAlloc, hnone], h⟩
  | cons k ks =>
      simp only [hfree, Option.some.injEq, Prod.mk.injEq] at ha
      obtain ⟨rfl, rfl⟩ := ha
      rw [hfree] at hlist
      have hhead : m.pageFreeList = some (bed.p k) := hlist.head_eq
      have hkaddr : kaddr B (page2pa (bed.p k)) = some (bed.p k) :=
        kaddr_page2pa (M := bed.pool) ⟨k, rfl⟩
      rw [hhead] at hlist
      -- the page is taken off the list
      have hpop : Sketch.Models bed { a with free := ks }
          ((m.setFreeList (m.link (bed.p k))).setLink (bed.p k) none) :=
        { list := by simpa using hlist.unlink none
          link := fun k' hk' ↦ by
            rw [Mem.link_setLink, Mem.link_setFreeList]
            by_cases hkk : k' = k
            · rw [hkk, Function.update_self]
            · rw [Function.update_of_ne (bed.inj.ne hkk)]
              exact h.link k' (by simp [hfree, hkk, hk'])
          ref := by simpa using h.ref
          pde := h.pde
          cells := h.cells
          off := fun q hq ↦ by
            rw [Mem.ref_setLink, Mem.link_setLink, Mem.link_setFreeList,
              Function.update_of_ne (hq k)]
            exact h.off q hq
          kern := h.kern }
      cases z with
      | false => exact ⟨_, by simp [pageAlloc, hhead], hpop⟩
      | true =>
          refine ⟨_, by simp [pageAlloc, hhead, hkaddr]; rfl, ?_⟩
          exact hpop.update k fun i _ ↦ by simp [Cell.word]

theorem freePage (h : a.Models bed m) (ha : a.freePage k = some a') :
    ∃ m', pageFree m (bed.p k) = some m' ∧ a'.Models bed m' := by
  rw [Sketch.freePage, assertThat_eq_some] at ha
  obtain ⟨⟨href, hk⟩, rfl⟩ := ha
  have hnone : ¬ (m.ref (bed.p k) ≠ 0 ∨ m.link (bed.p k) ≠ none) := by
    rw [h.ref, href, h.link k hk]
    simp
  refine ⟨_, if_neg hnone, ⟨?_, fun k' hk' ↦ ?_, by simpa using h.ref, h.pde, h.cells,
    fun q hq ↦ ?_, h.kern⟩⟩
  · have hnot : bed.p k ∉ a.free.map bed.p ++ if a.stolen then [] else bed.rest := notMem hk
    simpa using h.list.push hnot
  · obtain ⟨hkk, hk'⟩ : k' ≠ k ∧ k' ∉ a.free := by simpa using hk'
    rw [Mem.link_setFreeList, Mem.link_setLink, Function.update_of_ne (bed.inj.ne hkk)]
    exact h.link k' hk'
  · rw [Mem.ref_setFreeList, Mem.ref_setLink, Mem.link_setFreeList, Mem.link_setLink,
      Function.update_of_ne (hq k)]
    exact h.off q hq

theorem decref (h : a.Models bed m) (ha : a.decref k = some a') :
    ∃ m', pageDecref m (bed.p k) = some m' ∧ a'.Models bed m' := by
  have h' := h.setRef k (a.ref k - 1)
  rw [Sketch.decref] at ha
  rw [pageDecref, h.ref k, h'.ref k]
  split at ha
  · next hz =>
      rw [if_pos hz]
      exact h'.freePage ha
  · next hz =>
      rw [if_neg hz]
      obtain rfl := Option.some.inj ha
      exact ⟨_, rfl, h'⟩

/-- Where the pages of a table are known to be. -/
theorem table (h : a.Models bed m) (hi : i < 2) (ht : a.pde i = some t) :
    isSet (m.phys B.kernPgdir i) PTE_P ∧ isSet (m.phys B.kernPgdir i) PTE_W ∧
      entryFrame (m.phys B.kernPgdir i) = some (bed.p t) ∧
      kaddr B (pteAddr (m.phys B.kernPgdir i)) = some (bed.p t) := by
  have hpde := h.pde i hi
  rw [ht, Option.elim_some] at hpde
  have hframe : entryFrame (m.phys B.kernPgdir i) = some (bed.p t) := by
    rw [hpde]
    exact entryFrame_mkPte (bed.pool.lt_two_pow ⟨t, rfl⟩) (by decide)
  refine ⟨(isSet_of_entryFrame hframe).1, ?_, hframe, kaddr_pteAddr (M := bed.pool) hframe ⟨t, rfl⟩⟩
  rw [hpde, isSet_mkPte_W]
  decide

theorem no_table (h : a.Models bed m) (hi : i < 2) (ht : a.pde i = none) :
    m.phys B.kernPgdir i = 0 := by
  have hpde := h.pde i hi
  rwa [ht] at hpde

theorem walk (h : a.Models bed m) {va : Word} {create : Bool} {o : Option (Fin 3 × ℕ)}
    (ha : a.walk va create = some (o, a')) :
    ∃ m', pgdirWalk B m B.kernPgdir va create = some (o.map fun x ↦ (bed.p x.1, x.2), m') ∧
      a'.Models bed m' ∧ ∀ t j, o = some (t, j) → j = ptx va ∧ j < 2 ∧ pdx va < 2 ∧
        a'.pde (pdx va) = some t := by
  rw [Sketch.walk] at ha
  split at ha
  swap
  · cases ha
  next hva =>
  obtain ⟨hpdx, hptx⟩ := hva
  cases htab : a.pde (pdx va) with
  | some t =>
      simp only [htab, Option.some.injEq, Prod.mk.injEq] at ha
      obtain ⟨rfl, rfl⟩ := ha
      obtain ⟨hP, -, -, hkaddr⟩ := h.table hpdx htab
      refine ⟨m, by simp [pgdirWalk, hP, hkaddr], h, ?_⟩
      rintro t' j heq
      obtain ⟨rfl, rfl⟩ := Prod.mk.inj (Option.some.inj heq)
      exact ⟨rfl, hptx, hpdx, htab⟩
  | none =>
      have hzero := h.no_table hpdx htab
      simp only [htab] at ha
      cases create with
      | false =>
          obtain ⟨rfl, rfl⟩ : o = none ∧ a' = a := by simpa [eq_comm] using ha
          refine ⟨m, by simp [pgdirWalk, hzero], h, ?_⟩
          intro t j htj
          cases htj
      | true =>
          simp only [if_true, Option.bind_eq_bind, Option.bind_eq_some_iff, Prod.exists] at ha
          obtain ⟨k, a₁, halloc, ha⟩ := ha
          obtain ⟨m₁, hrun, h₁⟩ := h.alloc halloc
          cases k with
          | none =>
              simp only [Option.some.injEq, Prod.mk.injEq] at ha
              obtain ⟨rfl, rfl⟩ := ha
              refine ⟨m₁, by simp [pgdirWalk, hzero, hrun], h₁, ?_⟩
              intro t j htj
              cases htj
          | some k =>
              simp only [Option.some.injEq, Prod.mk.injEq] at ha
              obtain ⟨rfl, rfl⟩ := ha
              have hkaddr : kaddr B (page2pa (bed.p k)) = some (bed.p k) :=
                kaddr_page2pa (M := bed.pool) ⟨k, rfl⟩
              have hword : page2pa (bed.p k) ||| PTE_P ||| PTE_U ||| PTE_W =
                  mkPte (bed.p k) (PTE_U ||| PTE_W) := by
                rw [mkPte]
                simp only [BitVec.or_assoc]
                rfl
              have h₂ := (h₁.setRef k (a₁.ref k + 1)).setPde hpdx (some k)
              refine ⟨_, ?_, h₂, ?_⟩
              · simp [pgdirWalk, hzero, hrun, hkaddr, hword, h₁.ref k]
              · rintro t' j heq
                obtain ⟨rfl, rfl⟩ := Prod.mk.inj (Option.some.inj heq)
                exact ⟨rfl, hptx, hpdx, Function.update_self _ _ _⟩

/-- Reading an entry. -/
theorem cell (h : a.Models bed m) {x : Cell} (hj : j < 2) (ha : a.cell t j = some x) :
    m.phys (bed.p t) j = x.word bed.p := by
  rw [Sketch.cell, Option.map_eq_some_iff] at ha
  obtain ⟨c, hc, rfl⟩ := ha
  exact h.cells t c hc j (hj.trans (by decide))

/-- What is behind an address. -/
theorem lookup_cases (h : a.Models bed m) {va : Word} {r : Option (Fin 3 × Fin 3 × ℕ)}
    (ha : a.lookup va = some r) :
    (r = none ∧ pgdirWalk B m B.kernPgdir va false = some (none, m) ∧
      m.phys B.kernPgdir (pdx va) = 0) ∨
    ∃ t, a.pde (pdx va) = some t ∧ pdx va < 2 ∧ ptx va < 2 ∧
      pgdirWalk B m B.kernPgdir va false = some (some (bed.p t, ptx va), m) ∧
      ((r = none ∧ ¬ isSet (m.phys (bed.p t) (ptx va)) PTE_P) ∨
        ∃ k q, r = some (k, t, ptx va) ∧ a.cell t (ptx va) = some (.pte k q) ∧ q.toNat < 4096 ∧
          m.phys (bed.p t) (ptx va) = mkPte (bed.p k) q) := by
  simp only [Sketch.lookup, Option.bind_eq_bind, Option.bind_eq_some_iff, Prod.exists] at ha
  obtain ⟨o, a', hwalk, ha⟩ := ha
  obtain ⟨m', hrun, -, hsome⟩ := h.walk hwalk
  -- without `create` nothing changes
  have hm : m' = m := by
    simp only [pgdirWalk, Bool.false_eq_true, if_false] at hrun
    split at hrun
    · simp only [Option.bind_eq_bind, Option.bind_eq_some_iff, Option.pure_def,
        Option.some.injEq, Prod.mk.injEq] at hrun
      obtain ⟨-, -, -, rfl⟩ := hrun
      rfl
    · exact (Prod.mk.inj (Option.some.inj hrun)).2.symm
  subst hm
  have ha' : a' = a := by
    rw [Sketch.walk] at hwalk
    split at hwalk
    · split at hwalk
      · exact (Prod.mk.inj (Option.some.inj hwalk)).2.symm
      · rw [if_neg Bool.false_ne_true] at hwalk
        exact (Prod.mk.inj (Option.some.inj hwalk)).2.symm
    · cases hwalk
  subst ha'
  cases o with
  | none =>
      simp only [Option.some.injEq] at ha
      refine .inl ⟨ha.symm, hrun, ?_⟩
      rw [Sketch.walk] at hwalk
      split at hwalk
      · next hva =>
          cases htab : a'.pde (pdx va) with
          | none => exact h.no_table hva.1 htab
          | some t => simp [htab] at hwalk
      · cases hwalk
  | some x =>
      obtain ⟨t, j⟩ := x
      obtain ⟨rfl, hj, hi, ht⟩ := hsome t j rfl
      refine .inr ⟨t, ht, hi, hj, hrun, ?_⟩
      simp only [Option.bind_eq_some_iff] at ha
      obtain ⟨x, hx, ha⟩ := ha
      have hword := h.cell hj hx
      cases x with
      | num w =>
          obtain ⟨hP, rfl⟩ := assertThat_eq_some.mp ha
          exact .inl ⟨rfl, by rwa [hword]⟩
      | pte k q =>
          obtain ⟨hq, rfl⟩ := assertThat_eq_some.mp ha
          exact .inr ⟨k, q, rfl, hx, hq, hword⟩

theorem frame_entry (bed : Bed B m₀) (k : Fin 3) {q : Word} (hq : q.toNat < 4096) :
    entryFrame (mkPte (bed.p k) q) = some (bed.p k) :=
  entryFrame_mkPte (bed.pool.lt_two_pow ⟨k, rfl⟩) hq

theorem lookup (h : a.Models bed m) {va : Word} {r : Option (Fin 3 × Fin 3 × ℕ)}
    (ha : a.lookup va = some r) :
    pageLookup B m B.kernPgdir va = some (r.map fun x ↦ (bed.p x.1, bed.p x.2.1, x.2.2)) := by
  rcases h.lookup_cases ha with ⟨rfl, hrun, -⟩ |
    ⟨t, -, -, -, hrun, ⟨rfl, hP⟩ | ⟨k, q, rfl, -, hq, hw⟩⟩
  · simp [pageLookup, hrun]
  · simp [pageLookup, hrun, hP]
  · have hpage : pa2page B (pteAddr (mkPte (bed.p k) q)) = some (bed.p k) :=
      pa2page_pteAddr (M := bed.pool) (frame_entry bed k hq) ⟨k, rfl⟩
    simp [pageLookup, hrun, hw, hpage]

theorem va2pa (h : a.Models bed m) {va : Word} {r : Option (Fin 3 × Fin 3 × ℕ)}
    (ha : a.lookup va = some r) :
    checkVa2pa B m B.kernPgdir va = some (r.elim (~~~0) fun x ↦ page2pa (bed.p x.1)) := by
  rcases h.lookup_cases ha with ⟨rfl, -, hzero⟩ | ⟨t, ht, hi, -, -, hr⟩
  · simp [checkVa2pa, hzero]
  obtain ⟨hP, -, -, hkaddr⟩ := h.table hi ht
  rcases hr with ⟨rfl, hno⟩ | ⟨k, q, rfl, -, hq, hw⟩
  · simp [checkVa2pa, hP, hkaddr, hno]
  · simp [checkVa2pa, hP, hkaddr, hw, pteAddr_mkPte (bed.pool.lt_two_pow ⟨k, rfl⟩) hq]

theorem remove (h : a.Models bed m) {va : Word} (ha : a.remove va = some a') :
    ∃ m', pageRemove B m B.kernPgdir va = some m' ∧ a'.Models bed m' := by
  simp only [Sketch.remove, Option.bind_eq_bind, Option.bind_eq_some_iff] at ha
  obtain ⟨r, hr, ha⟩ := ha
  have hlook := h.lookup hr
  rcases h.lookup_cases hr with ⟨rfl, -, -⟩ | ⟨t, -, -, -, -, ⟨rfl, -⟩ | ⟨k, q, rfl, -, -, hw⟩⟩
  · obtain rfl := Option.some.inj ha
    exact ⟨m, by simp [pageRemove, hlook], h⟩
  · obtain rfl := Option.some.inj ha
    exact ⟨m, by simp [pageRemove, hlook], h⟩
  · simp only [Option.bind_eq_some_iff] at ha
    obtain ⟨a₁, hdec, ha⟩ := ha
    obtain ⟨m₁, hrun, h₁⟩ := h.decref hdec
    have h₂ := h₁.setCell ha
    refine ⟨tlbInvalidate (m₁.write (bed.p t) (ptx va) 0) B.kernPgdir va, ?_, ⟨h₂.list, h₂.link,
      h₂.ref, h₂.pde, h₂.cells, h₂.off, h₂.kern⟩⟩
    simp [pageRemove, hlook, hw, hrun]

/-- What the hardware finds. -/
theorem hwWalk (h : a.Models bed m) {va : Word} (ha : a.lookup va = some (some (k, t, j))) :
    ∃ pde q, a.cell t j = some (.pte k q) ∧ frame (mkPte (bed.p k) q) = bed.p k ∧
      m.walk B.kernPgdir va = some (pde, mkPte (bed.p k) q) ∧ isSet pde PTE_W := by
  rcases h.lookup_cases ha with ⟨hc, -, -⟩ |
    ⟨t', ht, hi, -, -, ⟨hc, -⟩ | ⟨k', q, heq, hcell, hq, hw⟩⟩
  · cases hc
  · cases hc
  obtain ⟨rfl, rfl, rfl⟩ : k = k' ∧ t = t' ∧ j = ptx va := by simpa using heq
  obtain ⟨hP, hW, hframe, -⟩ := h.table hi ht
  refine ⟨_, q, hcell, (isSet_of_entryFrame (frame_entry bed k hq)).2, ?_, hW⟩
  rw [Mem.walk_eq_some]
  refine ⟨⟨rfl, hP⟩, ?_, isSet_mkPte_P _ _⟩
  rw [(isSet_of_entryFrame hframe).2, hw]

theorem insert (h : a.Models bed m) {va perm : Word} {b : Bool}
    (ha : a.insert k va perm = some (b, a')) :
    ∃ r m', pageInsert B m B.kernPgdir (bed.p k) va perm = some (r, m') ∧ (b = true ↔ r = 0) ∧
      a'.Models bed m' := by
  simp only [Sketch.insert, Option.bind_eq_bind, Option.bind_eq_some_iff, Prod.exists] at ha
  obtain ⟨o, a₁, hwalk, ha⟩ := ha
  obtain ⟨m₁, hrun, h₁, hsome⟩ := h.walk hwalk
  cases o with
  | none =>
      simp only [Option.some.injEq, Prod.mk.injEq] at ha
      obtain ⟨rfl, rfl⟩ := ha
      exact ⟨-E_NO_MEM, m₁, by simp [pageInsert, hrun], by decide, h₁⟩
  | some x =>
      obtain ⟨t, j⟩ := x
      obtain ⟨-, hj, -, -⟩ := hsome t j rfl
      have h₂ := h₁.setRef k (a₁.ref k + 1)
      simp only [Option.bind_eq_some_iff, Option.pure_def, Option.some.injEq, Prod.mk.injEq] at ha
      obtain ⟨x, hx, a₃, ha₃, a₄, hset, rfl, rfl⟩ := ha
      have hword := h₂.cell hj hx
      rw [Mem.phys_setRef] at hword
      -- the old entry, if there is one, is removed
      obtain ⟨m₃, hrun₃, h₃⟩ : ∃ m₃, (if isSet (m₁.phys (bed.p t) j) PTE_P then
          pageRemove B (m₁.setRef (bed.p k) (a₁.ref k + 1)) B.kernPgdir va
          else some (m₁.setRef (bed.p k) (a₁.ref k + 1))) = some m₃ ∧ a₃.Models bed m₃ := by
        rw [hword]
        cases x with
        | num w =>
            obtain ⟨hP, rfl⟩ := assertThat_eq_some.mp ha₃
            exact ⟨_, if_neg hP, h₂⟩
        | pte k' q =>
            obtain ⟨m₃, hrun₃, h₃⟩ := h₂.remove ha₃
            exact ⟨m₃, (if_pos (isSet_mkPte_P _ _)).trans hrun₃, h₃⟩
      refine ⟨0, _, ?_, by simp, h₃.setCell hset⟩
      simp only [pageInsert, hrun, Option.map_some, Option.bind_eq_bind, Option.bind_some,
        h₁.ref k, Mem.phys_setRef]
      split at hrun₃
      · next hP =>
          rw [if_pos hP, hrun₃]
          rfl
      · next hP =>
          rw [if_neg hP, Option.some.inj hrun₃]
          rfl

end Sketch.Models

/-! ### The statements -/

namespace BenchSketch.Models

variable {bed : Bed B m₀} {b b' : BenchSketch} {a : Sketch} {s : Bench}

theorem setMem (h : b.Models bed s) {m : Mem} (hm : a.Models bed m) :
    Models bed { b with mem := a } { s with mem := m } := ⟨hm, h.var, h.fl, h.ptep⟩

theorem var_some (h : b.Models bed s) {x : Var} {k : Fin 3} (hk : b.var x = some k) :
    s.var x = some (bed.p k) := by rw [h.var, hk, Option.map_some]

theorem kaddr_page (bed : Bed B m₀) (k : Fin 3) : kaddr B (page2pa (bed.p k)) = some (bed.p k) :=
  kaddr_page2pa (M := bed.pool) ⟨k, rfl⟩

/-- Two variables are equal in the sketch if they are. -/
theorem var_eq_iff (h : b.Models bed s) (x y : Var) : s.var x = s.var y ↔ b.var x = b.var y := by
  rw [h.var, h.var, (Option.map_injective bed.inj).eq_iff]

theorem var_eq_none_iff (h : b.Models bed s) (x : Var) : s.var x = none ↔ b.var x = none := by
  rw [h.var, Option.map_eq_none_iff]

theorem alloc (h : b.Models bed s) {x : Var} {zero : Bool}
    (hc : (Check.alloc x zero).sketch b = some b') :
    ∃ s', (Check.alloc x zero).exec B s = some s' ∧ b'.Models bed s' := by
  simp only [Check.sketch, Option.bind_eq_bind, Option.bind_eq_some_iff, Prod.exists,
    assertThat_eq_some] at hc
  obtain ⟨k, a, ha, hk, rfl⟩ := hc
  obtain ⟨m, hrun, hm⟩ := h.mem.alloc ha
  refine ⟨{ s with mem := m, var := Function.update s.var x (k.map bed.p) }, ?_, hm, fun y ↦ ?_,
    h.fl, h.ptep⟩
  · simp only [Check.exec, hrun, Option.bind_eq_bind, Option.bind_some]
    exact assertThat_of (by simpa using hk) _
  · by_cases hy : y = x
    · subst hy
      simp
    · simpa [hy] using h.var y

theorem noMem (h : b.Models bed s) (hc : Check.noMem.sketch b = some b') :
    ∃ s', Check.noMem.exec B s = some s' ∧ b'.Models bed s' := by
  simp only [Check.sketch, Option.bind_eq_bind, Option.bind_eq_some_iff, Prod.exists,
    assertThat_eq_some] at hc
  obtain ⟨k, a, ha, rfl, rfl⟩ := hc
  obtain ⟨m, hrun, hm⟩ := h.mem.alloc ha
  refine ⟨_, ?_, h.setMem hm⟩
  simp only [Check.exec, hrun, Option.bind_eq_bind, Option.bind_some]
  exact assertThat_of rfl _

theorem free (h : b.Models bed s) {x : Var} (hc : (Check.free x).sketch b = some b') :
    ∃ s', (Check.free x).exec B s = some s' ∧ b'.Models bed s' := by
  simp only [Check.sketch, Option.bind_eq_bind, Option.bind_eq_some_iff, Option.pure_def,
    Option.some.injEq] at hc
  obtain ⟨k, hk, a, ha, rfl⟩ := hc
  obtain ⟨m, hrun, hm⟩ := h.mem.freePage ha
  exact ⟨_, by simp [Check.exec, h.var_some hk, hrun], h.setMem hm⟩

theorem memset (h : b.Models bed s) {x : Var} {c : BitVec 8}
    (hc : (Check.memset x c).sketch b = some b') :
    ∃ s', (Check.memset x c).exec B s = some s' ∧ b'.Models bed s' := by
  simp only [Check.sketch, Option.bind_eq_bind, Option.bind_eq_some_iff, Option.pure_def,
    Option.some.injEq] at hc
  obtain ⟨k, hk, rfl⟩ := hc
  refine ⟨_, by simp [Check.exec, h.var_some hk, kaddr_page]; rfl, h.setMem ?_⟩
  refine h.mem.update k fun i hi ↦ ?_
  have hi' : 4 * i < PGSIZE := by
    rw [NPTENTRIES] at hi
    rw [PGSIZE]
    omega
  rw [if_pos hi', Cells.get_all]
  rfl

/-- After `steal` no page is free. -/
theorem steal (h : b.Models bed s) (hc : Check.steal.sketch b = some b') :
    ∃ s', Check.steal.exec B s = some s' ∧ b'.Models bed s' := by
  obtain ⟨⟨hst, hfree⟩, rfl⟩ := assertThat_eq_some.mp hc
  have hlist := h.mem.list
  rw [hst, hfree] at hlist
  refine ⟨_, rfl, ⟨?_, h.mem.link, h.mem.ref, h.mem.pde, h.mem.cells, h.mem.off, h.mem.kern⟩,
    h.var, fun _ ↦ hlist.head_eq, h.ptep⟩
  rw [hfree]
  exact .nil

/-- The other pages are still linked to each other. -/
theorem giveBack (h : b.Models bed s) (hc : Check.giveBack.sketch b = some b') :
    ∃ s', Check.giveBack.exec B s = some s' ∧ b'.Models bed s' := by
  obtain ⟨⟨hfl, hfree⟩, rfl⟩ := assertThat_eq_some.mp hc
  refine ⟨_, rfl, ⟨?_, h.mem.link, h.mem.ref, h.mem.pde, h.mem.cells, h.mem.off, h.mem.kern⟩,
    h.var, h.fl, h.ptep⟩
  rw [hfree]
  change Chain s.mem.link s.fl bed.rest
  rw [h.fl hfl]
  refine bed.chain.congr fun q hq ↦ (h.mem.off q fun k hk ↦ ?_).2.1
  exact bed.notMem k (hk ▸ hq)

theorem forget (h : b.Models bed s) (hc : Check.forget.sketch b = some b') :
    ∃ s', Check.forget.exec B s = some s' ∧ b'.Models bed s' := by
  obtain rfl := Option.some.inj hc
  refine ⟨_, rfl, h.mem, fun x ↦ ?_, h.fl, h.ptep⟩
  by_cases hx : x = .pp
  · simpa [hx] using h.var .pp
  · simp [hx]

theorem insert (h : b.Models bed s) {x : Var} {va perm : Word} {ok : Option Bool}
    (hc : (Check.insert x va perm ok).sketch b = some b') :
    ∃ s', (Check.insert x va perm ok).exec B s = some s' ∧ b'.Models bed s' := by
  simp only [Check.sketch, Option.bind_eq_bind, Option.bind_eq_some_iff, Prod.exists,
    assertThat_eq_some] at hc
  obtain ⟨k, hk, o, a, ha, ho, rfl⟩ := hc
  obtain ⟨r, m, hrun, hr, hm⟩ := h.mem.insert ha
  refine ⟨_, ?_, h.setMem hm⟩
  simp only [Check.exec, h.var_some hk, hrun, Option.bind_eq_bind, Option.bind_some]
  exact assertThat_of (fun y hy ↦ by rw [ho y hy, hr]) _

theorem remove (h : b.Models bed s) {va : Word} (hc : (Check.remove va).sketch b = some b') :
    ∃ s', (Check.remove va).exec B s = some s' ∧ b'.Models bed s' := by
  simp only [Check.sketch, Option.bind_eq_bind, Option.bind_eq_some_iff, Option.pure_def,
    Option.some.injEq] at hc
  obtain ⟨a, ha, rfl⟩ := hc
  obtain ⟨m, hrun, hm⟩ := h.mem.remove ha
  exact ⟨_, by simp [Check.exec, hrun], h.setMem hm⟩

theorem walk (h : b.Models bed s) {va : Word} {create : Bool}
    (hc : (Check.walk va create).sketch b = some b') :
    ∃ s', (Check.walk va create).exec B s = some s' ∧ b'.Models bed s' := by
  simp only [Check.sketch, Option.bind_eq_bind, Option.bind_eq_some_iff, Prod.exists,
    Option.pure_def, Option.some.injEq] at hc
  obtain ⟨o, a, ha, rfl⟩ := hc
  obtain ⟨m, hrun, hm, -⟩ := h.mem.walk ha
  refine ⟨{ s with mem := m, ptep := o.map fun x ↦ (bed.p x.1, x.2) }, ?_, hm, h.var, h.fl, rfl⟩
  simp [Check.exec, hrun]

theorem clearRef (h : b.Models bed s) {x : Var} (hc : (Check.clearRef x).sketch b = some b') :
    ∃ s', (Check.clearRef x).exec B s = some s' ∧ b'.Models bed s' := by
  simp only [Check.sketch, Option.bind_eq_bind, Option.bind_eq_some_iff, Option.pure_def,
    Option.some.injEq] at hc
  obtain ⟨k, hk, rfl⟩ := hc
  exact ⟨_, by simp [Check.exec, h.var_some hk], h.setMem (h.mem.setRef k 0)⟩

theorem clearPde (h : b.Models bed s) {i : ℕ} (hc : (Check.clearPde i).sketch b = some b') :
    ∃ s', (Check.clearPde i).exec B s = some s' ∧ b'.Models bed s' := by
  obtain ⟨hi, rfl⟩ := assertThat_eq_some.mp hc
  exact ⟨_, rfl, h.setMem (h.mem.setPde hi none)⟩

/-- A store through the page tables goes to the page that the sketch shows. -/
theorem store (h : b.Models bed s) {va w : Word} (hc : (Check.store va w).sketch b = some b') :
    ∃ s', (Check.store va w).exec B s = some s' ∧ b'.Models bed s' := by
  simp only [Check.sketch, Option.bind_eq_bind, Option.bind_eq_some_iff, Prod.exists] at hc
  obtain ⟨_, hr, k, t, j, rfl, a, ha, x, hx, hc⟩ := hc
  obtain ⟨pde, q, hcell, hframe, hwalk, hW⟩ := h.mem.hwWalk hr
  obtain rfl := Option.some.inj (hx.symm.trans hcell)
  obtain ⟨hW', rfl⟩ := assertThat_eq_some.mp hc
  refine ⟨_, ?_, h.setMem (h.mem.setCell ha)⟩
  simp only [Check.exec, hwalk, Option.bind_eq_bind, Option.bind_some, hframe]
  exact assertThat_of ⟨hW, (isSet_mkPte_W _ _).mpr hW'⟩ _

/-! ### The assertions -/

theorem distinct (h : b.Models bed s) {x : Var} {ys : List Var}
    (hc : (Check.distinct x ys).sketch b = some b') :
    (Check.distinct x ys).exec B s = some s ∧ b' = b := by
  obtain ⟨⟨hx, hys⟩, rfl⟩ := assertThat_eq_some.mp hc
  exact ⟨assertThat_of ⟨(h.var_eq_none_iff x).not.mpr hx,
    fun y hy ↦ (h.var_eq_iff x y).not.mpr (hys y hy)⟩ s, rfl⟩

theorem same (h : b.Models bed s) {x y : Var} (hc : (Check.same x y).sketch b = some b') :
    (Check.same x y).exec B s = some s ∧ b' = b := by
  obtain ⟨⟨hx, hy⟩, rfl⟩ := assertThat_eq_some.mp hc
  exact ⟨assertThat_of ⟨(h.var_eq_none_iff x).not.mpr hx, (h.var_eq_iff y x).mpr hy⟩ s, rfl⟩

theorem inMemory (h : b.Models bed s) {x : Var} (hc : (Check.inMemory x).sketch b = some b') :
    (Check.inMemory x).exec B s = some s ∧ b' = b := by
  obtain ⟨hx, rfl⟩ := assertThat_eq_some.mp hc
  obtain ⟨k, hk⟩ := Option.ne_none_iff_exists'.mp hx
  refine ⟨?_, rfl⟩
  simp only [Check.exec, h.var_some hk, Option.bind_eq_bind, Option.bind_some]
  refine assertThat_of ?_ s
  have hlt := bed.lt k
  have hn := B.npages_le
  rw [BitVec.lt_def, page2pa_toNat (by omega), BitVec.toNat_ofNat, PGSIZE]
  omega

/-- A page that the sketch knows to be clear. -/
theorem clear (h : b.Models bed s) {c : Cells} {k : Fin 3}
    (hc : b.mem.cells k = some c) (hall : c = .all (.num 0)) {i : ℕ} (hi : i < NPTENTRIES) :
    s.mem.phys (bed.p k) i = 0 := by
  rw [h.mem.cells k c hc i hi, hall, Cells.get_all]
  rfl

theorem zeroed (h : b.Models bed s) {x : Var} (hc : (Check.zeroed x).sketch b = some b') :
    (Check.zeroed x).exec B s = some s ∧ b' = b := by
  simp only [Check.sketch, Option.bind_eq_bind, Option.bind_eq_some_iff, assertThat_eq_some] at hc
  obtain ⟨k, hk, c, hcells, hall, rfl⟩ := hc
  refine ⟨?_, rfl⟩
  simp only [Check.exec, h.var_some hk, kaddr_page, Option.bind_eq_bind, Option.bind_some]
  exact assertThat_of (fun i hi ↦ h.clear hcells hall hi) s

theorem notPresent (h : b.Models bed s) {x : Var} (hc : (Check.notPresent x).sketch b = some b') :
    (Check.notPresent x).exec B s = some s ∧ b' = b := by
  simp only [Check.sketch, Option.bind_eq_bind, Option.bind_eq_some_iff, assertThat_eq_some] at hc
  obtain ⟨k, hk, c, hcells, hall, rfl⟩ := hc
  refine ⟨?_, rfl⟩
  simp only [Check.exec, h.var_some hk, kaddr_page, Option.bind_eq_bind, Option.bind_some]
  refine assertThat_of (fun i hi ↦ ?_) s
  rw [h.clear hcells hall hi]
  exact not_isSet_zero _

theorem lookupNull (h : b.Models bed s) {va : Word}
    (hc : (Check.lookupNull va).sketch b = some b') :
    (Check.lookupNull va).exec B s = some s ∧ b' = b := by
  simp only [Check.sketch, Option.bind_eq_bind, Option.bind_eq_some_iff, assertThat_eq_some] at hc
  obtain ⟨r, hr, rfl, rfl⟩ := hc
  refine ⟨?_, rfl⟩
  simp only [Check.exec, h.mem.lookup hr, Option.bind_eq_bind, Option.bind_some]
  exact assertThat_of rfl s

theorem ptepIs (h : b.Models bed s) {va : Word} (hc : (Check.ptepIs va).sketch b = some b') :
    (Check.ptepIs va).exec B s = some s ∧ b' = b := by
  simp only [Check.sketch, Option.bind_eq_bind, Option.bind_eq_some_iff, assertThat_eq_some] at hc
  obtain ⟨t, ht, ⟨hi, hptep⟩, rfl⟩ := hc
  refine ⟨?_, rfl⟩
  simp only [Check.exec, (h.mem.table hi ht).2.2.2, Option.bind_eq_bind, Option.bind_some]
  exact assertThat_of (by rw [h.ptep, hptep, Option.map_some]) s

theorem va2pa (h : b.Models bed s) {va : Word} {x : Option Var}
    (hc : (Check.va2pa va x).sketch b = some b') :
    (Check.va2pa va x).exec B s = some s ∧ b' = b := by
  simp only [Check.sketch, Option.bind_eq_bind, Option.bind_eq_some_iff] at hc
  obtain ⟨r, hr, hc⟩ := hc
  have hrun := h.mem.va2pa hr
  cases x with
  | none =>
      obtain ⟨rfl, rfl⟩ := assertThat_eq_some.mp hc
      refine ⟨?_, rfl⟩
      simp only [Check.exec, hrun, Option.bind_eq_bind, Option.bind_some]
      exact assertThat_of rfl s
  | some x =>
      simp only [Option.bind_eq_some_iff, assertThat_eq_some, Option.map_eq_some_iff] at hc
      obtain ⟨k, hk, ⟨y, rfl, rfl⟩, rfl⟩ := hc
      refine ⟨?_, rfl⟩
      simp only [Check.exec, hrun, h.var_some hk, Option.bind_eq_bind, Option.bind_some]
      exact assertThat_of rfl s

theorem pdeIs (h : b.Models bed s) {i : ℕ} {x : Var} (hc : (Check.pdeIs i x).sketch b = some b') :
    (Check.pdeIs i x).exec B s = some s ∧ b' = b := by
  simp only [Check.sketch, Option.bind_eq_bind, Option.bind_eq_some_iff, assertThat_eq_some] at hc
  obtain ⟨k, hk, ⟨hi, hpde⟩, rfl⟩ := hc
  refine ⟨?_, rfl⟩
  simp only [Check.exec, h.var_some hk, Option.bind_eq_bind, Option.bind_some]
  refine assertThat_of ?_ s
  rw [h.mem.pde i hi, hpde]
  exact pteAddr_mkPte (bed.pool.lt_two_pow ⟨k, rfl⟩) (by decide)

theorem pdeHas (h : b.Models bed s) {i : ℕ} {perm : Word}
    (hc : (Check.pdeHas i perm).sketch b = some b') :
    (Check.pdeHas i perm).exec B s = some s ∧ b' = b := by
  obtain ⟨⟨hi, hpde, rfl⟩, rfl⟩ := assertThat_eq_some.mp hc
  obtain ⟨t, ht⟩ := Option.ne_none_iff_exists'.mp hpde
  refine ⟨assertThat_of ?_ s, rfl⟩
  rw [h.mem.pde i hi, ht, Option.elim_some, isSet_mkPte_U]
  decide

theorem pteHas (h : b.Models bed s) {va perm : Word} {has : Bool}
    (hc : (Check.pteHas va perm has).sketch b = some b') :
    (Check.pteHas va perm has).exec B s = some s ∧ b' = b := by
  simp only [Check.sketch, Option.bind_eq_bind, Option.bind_eq_some_iff, Prod.exists] at hc
  obtain ⟨_, hr, k, t, j, rfl, x, hx, hc⟩ := hc
  rcases h.mem.lookup_cases hr with ⟨hno, -, -⟩ | ⟨t', -, -, -, hrun, ⟨hno, -⟩ |
    ⟨k', q, heq, hcell, hq, hw⟩⟩
  · cases hno
  · cases hno
  obtain ⟨rfl, rfl, rfl⟩ : k = k' ∧ t = t' ∧ j = ptx va := by simpa using heq
  obtain rfl := Option.some.inj (hx.symm.trans hcell)
  obtain ⟨⟨hperm, hhas⟩, rfl⟩ := assertThat_eq_some.mp hc
  refine ⟨?_, rfl⟩
  simp only [Check.exec, hrun, hw, Option.bind_eq_bind, Option.bind_some]
  refine assertThat_of ?_ s
  rw [hhas, isSet_mkPte _ _ hperm]

theorem refIs (h : b.Models bed s) {x : Var} {n : BitVec 16}
    (hc : (Check.refIs x n).sketch b = some b') :
    (Check.refIs x n).exec B s = some s ∧ b' = b := by
  simp only [Check.sketch, Option.bind_eq_bind, Option.bind_eq_some_iff, assertThat_eq_some] at hc
  obtain ⟨k, hk, href, rfl⟩ := hc
  refine ⟨?_, rfl⟩
  simp only [Check.exec, h.var_some hk, Option.bind_eq_bind, Option.bind_some]
  exact assertThat_of (by rw [h.mem.ref, href]) s

theorem refPos (h : b.Models bed s) {x : Var} (hc : (Check.refPos x).sketch b = some b') :
    (Check.refPos x).exec B s = some s ∧ b' = b := by
  simp only [Check.sketch, Option.bind_eq_bind, Option.bind_eq_some_iff, assertThat_eq_some] at hc
  obtain ⟨k, hk, href, rfl⟩ := hc
  refine ⟨?_, rfl⟩
  simp only [Check.exec, h.var_some hk, Option.bind_eq_bind, Option.bind_some]
  exact assertThat_of (by rwa [h.mem.ref]) s

theorem linkNull (h : b.Models bed s) {x : Var} (hc : (Check.linkNull x).sketch b = some b') :
    (Check.linkNull x).exec B s = some s ∧ b' = b := by
  simp only [Check.sketch, Option.bind_eq_bind, Option.bind_eq_some_iff, assertThat_eq_some] at hc
  obtain ⟨k, hk, hfree, rfl⟩ := hc
  refine ⟨?_, rfl⟩
  simp only [Check.exec, h.var_some hk, Option.bind_eq_bind, Option.bind_some]
  exact assertThat_of (h.mem.link k hfree) s

theorem loads (h : b.Models bed s) {va w : Word} (hc : (Check.loads va w).sketch b = some b') :
    (Check.loads va w).exec B s = some s ∧ b' = b := by
  simp only [Check.sketch, Option.bind_eq_bind, Option.bind_eq_some_iff, Prod.exists,
    assertThat_eq_some] at hc
  obtain ⟨_, hr, k, t, j, rfl, c, hcells, hget, rfl⟩ := hc
  obtain ⟨pde, q, -, hframe, hwalk, -⟩ := h.mem.hwWalk hr
  refine ⟨?_, rfl⟩
  simp only [Check.exec, hwalk, Option.bind_eq_bind, Option.bind_some, hframe]
  refine assertThat_of ?_ s
  have hoff : (pgoff va).toNat = va.toNat % 4096 := flags_toNat va
  rw [h.mem.cells k c hcells _ (by rw [NPTENTRIES]; omega), hget]
  rfl

theorem holds (h : b.Models bed s) {x : Var} {w : Word}
    (hc : (Check.holds x w).sketch b = some b') :
    (Check.holds x w).exec B s = some s ∧ b' = b := by
  simp only [Check.sketch, Option.bind_eq_bind, Option.bind_eq_some_iff, assertThat_eq_some] at hc
  obtain ⟨k, hk, c, hcells, hget, rfl⟩ := hc
  refine ⟨?_, rfl⟩
  simp only [Check.exec, h.var_some hk, kaddr_page, Option.bind_eq_bind, Option.bind_some]
  refine assertThat_of ?_ s
  rw [h.mem.cells k c hcells 0 (by decide), show c.get 0 = c.c0 from rfl, hget]
  rfl

/-- A statement that succeeds on the sketch does what it shows. -/
theorem exec (h : b.Models bed s) {c : Check} (hc : c.sketch b = some b') :
    ∃ s', c.exec B s = some s' ∧ b'.Models bed s' := by
  have look : c.exec B s = some s ∧ b' = b → ∃ s', c.exec B s = some s' ∧ b'.Models bed s' :=
    fun ⟨hrun, heq⟩ ↦ ⟨s, hrun, heq ▸ h⟩
  cases c with
  | alloc x zero => exact h.alloc hc
  | noMem => exact h.noMem hc
  | distinct x ys => exact look (h.distinct hc)
  | same x y => exact look (h.same hc)
  | inMemory x => exact look (h.inMemory hc)
  | steal => exact h.steal hc
  | giveBack => exact h.giveBack hc
  | forget => exact h.forget hc
  | free x => exact h.free hc
  | memset x c => exact h.memset hc
  | zeroed x => exact look (h.zeroed hc)
  | notPresent x => exact look (h.notPresent hc)
  | lookupNull va => exact look (h.lookupNull hc)
  | insert x va perm ok => exact h.insert hc
  | remove va => exact h.remove hc
  | walk va create => exact h.walk hc
  | ptepIs va => exact look (h.ptepIs hc)
  | va2pa va x => exact look (h.va2pa hc)
  | pdeIs i x => exact look (h.pdeIs hc)
  | pdeHas i perm => exact look (h.pdeHas hc)
  | pteHas va perm has => exact look (h.pteHas hc)
  | clearPde i => exact h.clearPde hc
  | refIs x n => exact look (h.refIs hc)
  | refPos x => exact look (h.refPos hc)
  | linkNull x => exact look (h.linkNull hc)
  | clearRef x => exact h.clearRef hc
  | loads va w => exact look (h.loads hc)
  | store va w => exact h.store hc
  | holds x w => exact look (h.holds hc)

/-- And so does a list of statements. -/
theorem run (h : b.Models bed s) {cs : List Check} (hcs : cs.foldlM Check.sketch b = some b') :
    ∃ s', cs.foldlM (Check.exec B) s = some s' ∧ b'.Models bed s' := by
  induction cs generalizing b s with
  | nil => exact ⟨s, rfl, Option.some.inj hcs ▸ h⟩
  | cons c cs ih =>
      rw [List.foldlM_cons, Option.bind_eq_bind, Option.bind_eq_some_iff] at hcs
      obtain ⟨b₁, hc, hcs⟩ := hcs
      obtain ⟨s₁, hrun, h₁⟩ := h.exec hc
      obtain ⟨s', hruns, h'⟩ := ih h₁ hcs
      exact ⟨s', by rw [List.foldlM_cons, hrun]; exact hruns, h'⟩

end BenchSketch.Models

/-! ## From the first sketch to the last -/

/-- Everything is back: the three pages are free, and the entries of `kern_pgdir` empty. -/
def BenchSketch.done (b : BenchSketch) : Bool :=
  decide (b.mem.free.Perm [0, 1, 2] ∧ b.mem.stolen = false ∧ (∀ k, b.mem.ref k = 0) ∧
    b.mem.pde 0 = none ∧ b.mem.pde 1 = none)

/-- The statements work with three pages, and give them back. -/
structure Restoring (cs : List Check) : Prop where
  allocs : [.alloc .pp0 false, .alloc .pp1 false, .alloc .pp2 false] <+: cs
  done : (cs.foldlM Check.sketch {}).any BenchSketch.done = true

theorem restoring_checkPageAllocBody : Restoring checkPageAllocBody :=
  ⟨⟨_, rfl⟩, by decide +kernel⟩

theorem restoring_checkPageBody : Restoring checkPageBody :=
  ⟨⟨_, rfl⟩, by decide +kernel⟩

theorem restoring_checkPageInstalledBody : Restoring checkPageInstalledBody :=
  ⟨⟨_, rfl⟩, by decide +kernel⟩

theorem mem_three : ∀ k : Fin 3, k ∈ [0, 1, 2] := by decide

theorem Bed.mem {B : Machine} {m₀ : Mem} (bed : Bed B m₀) (k : Fin 3) :
    bed.p k ∈ [0, 1, 2].map bed.p ++ bed.rest :=
  List.mem_append_left _ (List.mem_map_of_mem (mem_three k))

/-- The first three pages of a list. -/
theorem Bed.exists_of_chain {B : Machine} {M : Pool B} {m : Mem} {l : List ℕ}
    (hchain : Chain m.link m.pageFreeList l) (hM : ∀ p ∈ l, p ∈ M.carrier) (h3 : 3 ≤ l.length) :
    ∃ bed : Bed B m, l = [0, 1, 2].map bed.p ++ bed.rest := by
  obtain ⟨p, q, r, rest, rfl⟩ : ∃ p q r rest, l = p :: q :: r :: rest := by
    match l, h3 with
    | p :: q :: r :: rest, _ => exact ⟨p, q, r, rest, rfl⟩
  let l := p :: q :: r :: rest
  have hinj : Function.Injective l.get := List.nodup_iff_injective_get.mp hchain.nodup
  have hmem : ∀ k : Fin 3, l.get (k.castLE h3) ∈ [p, q, r] := by
    have hall : ∀ k : Fin 3, l.get (k.castLE h3) = [p, q, r].get k := fun k ↦ by
      match k with
      | 0 => rfl
      | 1 => rfl
      | 2 => rfl
    exact fun k ↦ hall k ▸ List.get_mem _ _
  have hdis := (List.nodup_append.mp (show ([p, q, r] ++ rest).Nodup from hchain.nodup)).2.2
  -- what follows the third page
  obtain ⟨l₁, heq₁, h₁⟩ := (hchain.head_eq ▸ hchain).pop
  obtain rfl := (List.cons.inj heq₁).2
  obtain ⟨l₂, heq₂, h₂⟩ := (h₁.head_eq ▸ h₁).pop
  obtain rfl := (List.cons.inj heq₂).2
  obtain ⟨l₃, heq₃, h₃⟩ := (h₂.head_eq ▸ h₂).pop
  obtain rfl := (List.cons.inj heq₃).2
  exact ⟨⟨fun k ↦ l.get (k.castLE h3), rest, hinj.comp (Fin.castLE_injective h3),
    fun k hc ↦ hdis _ (hmem k) _ hc rfl, fun k ↦ M.lt _ (hM _ (List.get_mem _ _)),
    fun k ↦ M.ne_kern (hM _ (List.get_mem _ _)), h₃.head_eq ▸ h₃⟩, rfl⟩

/-- The first sketch shows any memory in which the three pages are not referred to. -/
theorem Sketch.models_start {bed : Bed B m₀}
    (hchain : Chain m₀.link m₀.pageFreeList ([0, 1, 2].map bed.p ++ bed.rest))
    (href : ∀ k, m₀.ref (bed.p k) = 0) (hpde : ∀ i < 2, m₀.phys B.kernPgdir i = 0) :
    Sketch.Models bed {} m₀ where
  list := hchain
  link k hk := absurd (mem_three k) hk
  ref := href
  pde := hpde
  cells := nofun
  off _ _ := ⟨rfl, rfl, fun _ ↦ rfl⟩
  kern _ _ := rfl

/-- The last one says that it is as before, but for the order of the free pages and what is in
them. -/
theorem Sketch.Models.selfTested {bed : Bed B m₀} {b : BenchSketch} {m : Mem}
    (h : b.mem.Models bed m) (hdone : b.done = true)
    (hchain : Chain m₀.link m₀.pageFreeList ([0, 1, 2].map bed.p ++ bed.rest))
    (href : ∀ k, m₀.ref (bed.p k) = 0) (hpde : ∀ i < 2, m₀.phys B.kernPgdir i = 0) :
    SelfTested m₀ m := by
  obtain ⟨hfree, hst, hzero, h0, h1⟩ := of_decide_eq_true hdone
  have hlist := h.list
  rw [hst] at hlist
  refine ⟨funext fun q ↦ ?_, _, _, hchain, hlist, (hfree.map bed.p).append_right _, fun q hq ↦ ?_⟩
  · by_cases hq : ∃ k, q = bed.p k
    · obtain ⟨k, rfl⟩ := hq
      rw [h.ref, hzero, href]
    · exact (h.off q fun k hk ↦ hq ⟨k, hk⟩).1
  · have hq' : ∀ k, q ≠ bed.p k := by
      rintro k rfl
      exact hq (bed.mem k)
    refine ⟨(h.off q hq').2.1, ?_⟩
    by_cases hk : q = B.kernPgdir
    · subst hk
      funext i
      rcases (by omega : i = 0 ∨ i = 1 ∨ 2 ≤ i) with rfl | rfl | hi
      · rw [h.no_table (by decide) h0, hpde 0 (by decide)]
      · rw [h.no_table (by decide) h1, hpde 1 (by decide)]
      · exact h.kern i hi
    · exact (h.off q hq').2.2 hk

/-- An allocation that succeeds takes a page off the list. -/
theorem Check.alloc_some {s s' : Bench} {x : Var} {l : List ℕ}
    (hchain : Chain s.mem.link s.mem.pageFreeList l)
    (hrun : (Check.alloc x false).exec B s = some s') :
    ∃ p l', l = p :: l' ∧ Chain s'.mem.link s'.mem.pageFreeList l' := by
  cases l with
  | nil =>
      have hnone : s.mem.pageFreeList = none := hchain.head_eq
      simp [Check.exec, pageAlloc, hnone, assertThat] at hrun
  | cons p l =>
      have hhead : s.mem.pageFreeList = some p := hchain.head_eq
      simp only [Check.exec, pageAlloc, hhead, Bool.false_eq_true, if_false, Option.bind_eq_bind,
        Option.bind_some, Option.pure_def, assertThat_eq_some] at hrun
      obtain ⟨-, rfl⟩ := hrun
      rw [hhead] at hchain
      exact ⟨p, l, rfl, by simpa using hchain.unlink none⟩

section

variable {M : Pool B} {l : List ℕ} {cs : List Check}

/-- Without three pages a test fails. -/
theorem Restoring.length_le (hcs : Restoring cs) {s s' : Bench}
    (hchain : Chain s.mem.link s.mem.pageFreeList l)
    (hrun : cs.foldlM (Check.exec B) s = some s') : 3 ≤ l.length := by
  obtain ⟨cs, rfl⟩ := hcs.allocs
  simp only [List.cons_append, List.nil_append, List.foldlM_cons, Option.bind_eq_bind,
    Option.bind_eq_some_iff] at hrun
  obtain ⟨s₁, h₁, s₂, h₂, s₃, h₃, -⟩ := hrun
  obtain ⟨p₁, l₁, rfl, hchain₁⟩ := Check.alloc_some hchain h₁
  obtain ⟨p₂, l₂, rfl, hchain₂⟩ := Check.alloc_some hchain₁ h₂
  obtain ⟨p₃, l₃, rfl, -⟩ := Check.alloc_some hchain₂ h₃
  simp

/-- With three pages it succeeds, and leaves what a self-test may leave. -/
theorem Restoring.run (hcs : Restoring cs) (h : KernBoot B M m₀ l)
    (hpde : ∀ i < 2, m₀.phys B.kernPgdir i = 0) (h3 : 3 ≤ l.length) :
    ∃ s, cs.foldlM (Check.exec B) { mem := m₀ } = some s ∧ SelfTested m₀ s.mem := by
  have hchain := h.own.ledger.chain
  obtain ⟨bed, rfl⟩ := Bed.exists_of_chain (M := M) hchain (fun p hp ↦ h.own.list_sub hp) h3
  have href : ∀ k, m₀.ref (bed.p k) = 0 := by
    intro k
    have hk := bed.mem k
    rw [h.own.ledger.ref_eq _ (h.own.list_sub hk), ((h.own.ledger.mem_iff _).mp hk).2.1]
    rfl
  obtain ⟨b, hb, hdone⟩ := (Option.any_eq_true _ _).mp hcs.done
  have hstart : BenchSketch.Models bed {} { mem := m₀ } :=
    ⟨Sketch.models_start hchain href hpde, fun _ ↦ rfl, nofun, rfl⟩
  obtain ⟨s, hrun, hs⟩ := hstart.run hb
  exact ⟨s, hrun, hs.mem.selfTested hdone hchain href hpde⟩

/-- Whenever a test succeeds, it leaves that. -/
theorem Restoring.keeps (hcs : Restoring cs) (h : KernBoot B M m₀ l)
    (hpde : ∀ i < 2, m₀.phys B.kernPgdir i = 0) {s : Bench}
    (hrun : cs.foldlM (Check.exec B) { mem := m₀ } = some s) : SelfTested m₀ s.mem := by
  obtain ⟨s', hrun', ht⟩ := hcs.run h hpde (hcs.length_le h.own.ledger.chain hrun)
  obtain rfl := Option.some.inj (hrun'.symm.trans hrun)
  exact ht

end

end Jos
