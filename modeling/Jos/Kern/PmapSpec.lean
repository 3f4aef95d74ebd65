import Jos.Kern.Store

/-!
# What the functions of `pmap.c` do to an owned memory

One specification for each function, under the ownership invariant `Own`: the result it returns,
that it does not panic, that it keeps `Own`, and which entries and frames it changes.  Callers
use these and never unfold the functions.

`pageDecref` is the only place where the width of `pp_ref` matters: its hypothesis
`tot q ≤ 2 ^ 16` says that the counter has not wrapped around.
-/

namespace Jos

open Jos.Lib

section Allocator

variable {B : Machine} {M : Pool B} {m : Mem} {tot : ℕ → ℕ} {loose : Set ℕ} {l : List ℕ}

theorem kaddr_page2pa {p : ℕ} (hp : p ∈ M.carrier) : kaddr B (page2pa p) = some p := by
  rw [kaddr, pgnum_page2pa (M.lt_two_pow hp), if_neg (by have := M.lt p hp; omega)]

theorem kaddr_pteAddr {w : Word} {p : ℕ} (hw : entryFrame w = some p) (hp : p ∈ M.carrier) :
    kaddr B (pteAddr w) = some p := by
  obtain ⟨_, rfl⟩ := isSet_of_entryFrame hw
  exact if_neg (by have := M.lt _ hp; rw [frame] at this; omega)

theorem pa2page_pteAddr {w : Word} {p : ℕ} (hw : entryFrame w = some p) (hp : p ∈ M.carrier) :
    pa2page B (pteAddr w) = some p := kaddr_pteAddr hw hp

/-- The state after `page_alloc(ALLOC_ZERO)` took `p` from the free list. -/
def Mem.taken (m : Mem) (p : ℕ) : Mem := ((m.zero p).setFreeList (m.link p)).setLink p none

/-- The state after `page_alloc(0)` took `p` from the free list. -/
def Mem.handed (m : Mem) (p : ℕ) : Mem := (m.setFreeList (m.link p)).setLink p none

theorem pageAlloc_nil (h : Ledger M.carrier m.link m.pageFreeList m.ref tot loose []) (z : Bool) :
    pageAlloc B m z = some (none, m) := by
  have : m.pageFreeList = none := h.chain.head_eq
  simp [pageAlloc, this]

theorem pageAlloc_cons {p : ℕ}
    (h : Ledger M.carrier m.link m.pageFreeList m.ref tot loose (p :: l)) :
    pageAlloc B m true = some (some p, m.taken p) ∧
      Ledger M.carrier (m.taken p).link (m.taken p).pageFreeList (m.taken p).ref tot
        (insert p loose) l := by
  have hhead : m.pageFreeList = some p := h.chain.head_eq
  have hp := ((h.mem_iff p).mp List.mem_cons_self).1
  rw [hhead] at h
  obtain ⟨t, ht, hl⟩ := h.alloc
  obtain rfl : l = t := (List.cons.inj ht).2
  refine ⟨?_, by simpa [Mem.taken] using hl⟩
  simp [pageAlloc, hhead, kaddr_page2pa hp, Mem.taken]

theorem pageFree_of_loose (h : Ledger M.carrier m.link m.pageFreeList m.ref tot loose l) {p : ℕ}
    (hp : p ∈ loose) : ∃ m', pageFree m p = some m' ∧ m'.phys = m.phys ∧
      Ledger M.carrier m'.link m'.pageFreeList m'.ref tot (loose \ {p}) (p :: l) := by
  obtain ⟨hM, hz⟩ := h.loose_sub p hp
  have href : m.ref p = 0#16 := by rw [h.ref_eq p hM, hz]
  have hlink : m.link p = none := h.next_none p hM (h.notMem_of_loose hp)
  refine ⟨(m.setLink p m.pageFreeList).setFreeList (some p), ?_, rfl, by simpa using h.free hp⟩
  simp [pageFree, href, hlink]

/-- `page_decref` drops one reference, and frees the page with the last one. -/
theorem pageDecref_spec (h : Ledger M.carrier m.link m.pageFreeList m.ref tot loose l) {q : ℕ}
    (hq : q ∈ M.carrier) (hpos : 0 < tot q) (hle : tot q ≤ 2 ^ 16) :
    ∃ m', pageDecref m q = some m' ∧ m'.phys = m.phys ∧
      Ledger M.carrier m'.link m'.pageFreeList m'.ref (Function.update tot q (tot q - 1)) loose
        (if tot q = 1 then q :: l else l) := by
  have hiff : m.ref q - 1#16 = 0#16 ↔ tot q = 1 := h.ref_sub_one_eq_zero_iff hq hpos hle
  by_cases h1 : tot q = 1
  · have hlink : m.link q = none := h.next_none q hq (h.notMem_of_pos hpos)
    refine ⟨((m.setRef q (m.ref q - 1)).setLink q m.pageFreeList).setFreeList (some q), ?_, rfl, ?_⟩
    · simp [pageDecref, hiff.mpr h1, pageFree, hlink]
    · simpa [h1] using h.release hq h1
  · refine ⟨m.setRef q (m.ref q - 1), ?_, rfl, ?_⟩
    · simp [pageDecref, mt hiff.mp h1]
    · simpa [h1] using h.dec hq (by omega)

end Allocator

section Tables

variable {ι : Type} {B : Machine} {m m' : Mem} {dirs : ι → Option ℕ}

/-- References and entries only depend on physical memory. -/
theorem target_congr (h : m'.phys = m.phys) : target B m' dirs = target B m dirs := by
  funext k
  cases k <;> simp only [target, pteOf, tableOf, h]

theorem tableOf_congr (h : m'.phys = m.phys) (d i : ℕ) : tableOf m' d i = tableOf m d i := by
  simp only [tableOf, h]

theorem pteOf_congr (h : m'.phys = m.phys) (d v : ℕ) : pteOf m' d v = pteOf m d v := by
  simp only [pteOf, tableOf, h]

/-- A directory entry that leaves the permissions to the table. -/
def OpenPde (w : Word) : Prop := isSet w PTE_P → isSet w PTE_U ∧ isSet w PTE_W

theorem openPde_zero : OpenPde 0 := fun h ↦ absurd h (not_isSet_zero _)

/-- Outside the free pages, the directories and the user tables, memory is as before; so is the
kernel's half of every directory, tables are only added from the free pages, and new directory
entries leave the permissions to them. -/
structure Frame (m m' : Mem) (dirs : ι → Option ℕ) (l : List ℕ) : Prop where
  other : ∀ x, x ∉ l → (∀ e d, dirs e = some d → d ≠ x) →
    (∀ e d i t, dirs e = some d → i < NUPDE → tableOf m d i = some t → t ≠ x) →
    m'.phys x = m.phys x
  upper : ∀ e d, dirs e = some d → ∀ i, NUPDE ≤ i → m'.phys d i = m.phys d i
  tables : ∀ e d i t, dirs e = some d → i < NUPDE → tableOf m' d i = some t →
    t ∈ l ∨ tableOf m d i = some t
  entries : ∀ e d i, dirs e = some d → i < NUPDE →
    m'.phys d i = m.phys d i ∨ OpenPde (m'.phys d i)

namespace Frame

theorem refl (m : Mem) (dirs : ι → Option ℕ) (l : List ℕ) : Frame m m dirs l :=
  ⟨fun _ _ _ _ ↦ rfl, fun _ _ _ _ _ ↦ rfl, fun _ _ _ _ _ _ ht ↦ .inr ht,
    fun _ _ _ _ _ ↦ .inl rfl⟩

theorem trans {m'' : Mem} {l l' : List ℕ} (h : Frame m m' dirs l) (h' : Frame m' m'' dirs l')
    (hl : ∀ x ∈ l', x ∈ l) : Frame m m'' dirs l where
  other x hx hdirs htabs := by
    rw [h'.other x (fun hc ↦ hx (hl x hc)) hdirs, h.other x hx hdirs htabs]
    rintro e d i t hd hi ht rfl
    rcases h.tables e d i t hd hi ht with hc | hc
    · exact hx hc
    · exact htabs e d i t hd hi hc rfl
  upper e d hd i hi := by rw [h'.upper e d hd i hi, h.upper e d hd i hi]
  tables e d i t hd hi ht := by
    rcases h'.tables e d i t hd hi ht with hc | hc
    · exact .inl (hl t hc)
    · exact h.tables e d i t hd hi hc
  entries e d i hd hi := by
    rcases h'.entries e d i hd hi with heq | hopen
    · rw [heq]
      exact h.entries e d i hd hi
    · exact .inr hopen

end Frame

variable [Fintype ι] [DecidableEq ι] {M : Pool B} {loose : Set ℕ} {l : List ℕ}

namespace Own

variable (h : Own B M m dirs loose l)

include h

/-- An invariant of the references and of the allocator, so a change of neither is harmless. -/
theorem of_eq (hl : m'.link = m.link) (hf : m'.pageFreeList = m.pageFreeList)
    (hr : m'.ref = m.ref) (ht : target B m' dirs = target B m dirs) :
    Own B M m' dirs loose l where
  ledger := by rw [hl, hf, hr, ht]; exact h.ledger
  valid := by rw [ht]; exact h.valid
  excl := by rw [ht]; exact h.excl

theorem list_sub {p : ℕ} (hp : p ∈ l) : p ∈ M.carrier := ((h.ledger.mem_iff p).mp hp).1

theorem inert_of_mem_list {x : ℕ} (hx : x ∈ l) : Inert B m dirs x :=
  (h.unstructured_of_mem_list hx).inert (h.list_sub hx)

/-! ## `page_alloc` and `page_free` -/

theorem pageAlloc_empty (hl : l = []) (z : Bool) : pageAlloc B m z = some (none, m) := by
  subst hl
  exact pageAlloc_nil h.ledger z

/-- `page_alloc` hands out a cleared page. -/
theorem pageAlloc_cons {p : ℕ} {t : List ℕ} (hl : l = p :: t) :
    pageAlloc B m true = some (some p, m.taken p) ∧
      Own B M (m.taken p) dirs (insert p loose) t ∧
      target B (m.taken p) dirs = target B m dirs := by
  subst hl
  have hin := h.inert_of_mem_list List.mem_cons_self
  have ht : target B (m.taken p) dirs = target B m dirs :=
    hin.target_eq fun y hy ↦ m.phys_zero_of_ne hy
  obtain ⟨heq, hled⟩ := Jos.pageAlloc_cons h.ledger
  refine ⟨heq, ⟨?_, ?_, ?_⟩, ht⟩
  · rw [ht]; exact hled
  · rw [ht]; exact h.valid
  · rw [ht]; exact h.excl

/-- `page_alloc(0)` hands out a page as it is. -/
theorem pageAlloc_plain {p : ℕ} {t : List ℕ} (hl : l = p :: t) :
    pageAlloc B m false = some (some p, m.handed p) ∧
      Own B M (m.handed p) dirs (insert p loose) t := by
  subst hl
  have hhead : m.pageFreeList = some p := h.ledger.chain.head_eq
  obtain ⟨-, hled⟩ := Jos.pageAlloc_cons h.ledger
  have ht : target B (m.handed p) dirs = target B m dirs := target_congr rfl
  refine ⟨by simp [pageAlloc, hhead, Mem.handed], ⟨?_, ?_, ?_⟩⟩
  · rw [ht]; simpa [Mem.handed, Mem.taken] using hled
  · rw [ht]; exact h.valid
  · rw [ht]; exact h.excl

theorem pageFree_loose {p : ℕ} (hp : p ∈ loose) : ∃ m', pageFree m p = some m' ∧
    m'.phys = m.phys ∧ Own B M m' dirs (loose \ {p}) (p :: l) := by
  obtain ⟨m', heq, hphys, hled⟩ := pageFree_of_loose h.ledger hp
  have ht : target B m' dirs = target B m dirs := target_congr hphys
  refine ⟨m', heq, hphys, ?_, ?_, ?_⟩
  · rw [ht]; exact hled
  · rw [ht]; exact h.valid
  · rw [ht]; exact h.excl

/-! ## Linking a fresh page under a key -/

/-- A page just taken from the free list gets its first reference from an empty key. -/
theorem linkFresh (dirs' : ι → Option ℕ) {p : ℕ} {t : List ℕ}
    (hl : l = p :: t) {k : Key ι} (hk : target B m dirs k = none)
    (hlink : m'.link = (m.taken p).link) (hfree : m'.pageFreeList = (m.taken p).pageFreeList)
    (href : m'.ref = Function.update m.ref p (m.ref p + 1))
    (ht : target B m' dirs' = Function.update (target B m dirs) k (some p)) :
    Own B M m' dirs' loose t := by
  subst hl
  have hp := (h.ledger.mem_iff p).mp List.mem_cons_self
  obtain ⟨-, hled⟩ := Jos.pageAlloc_cons h.ledger
  have hpt : p ∉ t := (List.nodup_cons.mp h.ledger.chain.nodup).1
  have hinc := hled.inc hp.1 hpt
  have hloose : insert p loose \ {p} = loose := by
    rw [Set.insert_sdiff_of_mem _ (Set.mem_singleton p), Set.sdiff_singleton_eq_self hp.2.2]
  have howners : owners (Function.update (target B m dirs) k (some p)) =
      Function.update (owners (target B m dirs)) p (owners (target B m dirs) p + 1) := by
    funext x
    rw [owners_set hk]
    by_cases hx : x = p
    · subst hx; simp
    · simp [hx]
  refine ⟨?_, fun k' q hq ↦ ?_, ?_⟩
  · rw [ht, howners, hlink, hfree, href]
    rw [hloose] at hinc
    simpa [Mem.taken] using hinc
  · rw [ht] at hq
    by_cases e : k' = k
    · subst e
      rw [Function.update_self] at hq
      exact Option.some.inj hq ▸ hp.1
    · rw [Function.update_of_ne e] at hq
      exact h.valid k' q hq
  · rw [ht]
    exact h.excl.set hk (fun k' _ ↦ owners_eq_zero_iff.mp hp.2.1 k') fun _ ↦ hp.2.1

/-! ## `pgdir_walk` -/

section Walk

variable {e : ι} {d : ℕ} (hd : dirs e = some d) {va : Word} (hi : pdx va < NUPDE)

include hd hi

theorem pgdirWalk_of_table {t : ℕ} (ht : tableOf m d (pdx va) = some t) (create : Bool) :
    pgdirWalk B m d va create = some (some (t, ptx va), m) := by
  have hP := (isSet_of_entryFrame ht).1
  simp [pgdirWalk, hP, kaddr_pteAddr ht (h.table_mem hd hi ht)]

theorem pgdirWalk_lookup :
    pgdirWalk B m d va false = some ((tableOf m d (pdx va)).map (·, ptx va), m) := by
  cases ht : tableOf m d (pdx va) with
  | none => simp [pgdirWalk, tableOf_eq_none.mp ht]
  | some t => exact h.pgdirWalk_of_table hd hi ht false

omit hd hi in
theorem pgdirWalk_no_mem (ht : tableOf m d (pdx va) = none) (hl : l = []) :
    pgdirWalk B m d va true = some (none, m) := by
  simp [pgdirWalk, tableOf_eq_none.mp ht, h.pageAlloc_empty hl]

end Walk

end Own

/-- The state after `pgdir_walk` entered the fresh table `t` at entry `i` of `d`. -/
def Mem.tabled (m : Mem) (d i t : ℕ) : Mem :=
  ((m.taken t).setRef t (m.ref t + 1)).write d i (mkPte t (PTE_U ||| PTE_W))

section

variable {d i j t v : ℕ}

theorem Mem.phys_tabled_dir (htd : t ≠ d) (hj : j ≠ i) :
    (m.tabled d i t).phys d j = m.phys d j := by
  rw [tabled, phys_write_of_ne_index _ _ _ hj]
  exact congrFun (m.phys_zero_of_ne htd.symm) j

theorem Mem.phys_tabled_self (htd : t ≠ d) : (m.tabled d i t).phys t j = 0 := by
  rw [tabled, phys_write_of_ne_frame _ _ _ htd]
  exact m.phys_zero_self t j

theorem Mem.phys_tabled_of_ne {x : ℕ} (hd : x ≠ d) (ht : x ≠ t) :
    (m.tabled d i t).phys x = m.phys x := by
  rw [tabled, phys_write_of_ne_frame _ _ _ hd]
  exact m.phys_zero_of_ne ht

theorem tableOf_tabled (htd : t ≠ d) (ht : t < 2 ^ 20) :
    tableOf (m.tabled d i t) d j = if j = i then some t else tableOf m d j := by
  by_cases hj : j = i
  · rw [if_pos hj, hj, tableOf, Mem.tabled, Mem.phys_write_self]
    exact entryFrame_mkPte ht (by decide)
  · rw [if_neg hj, tableOf, Mem.phys_tabled_dir htd hj, tableOf]

/-- The table is empty, so no entry changes, but for those behind an entry for the directory
itself. -/
theorem pteOf_tabled (htd : t ≠ d) (ht : t < 2 ^ 20) (hT : tableOf m d i = none)
    (hself : tableOf m d (v / 1024) ≠ some d) (hnew : tableOf m d (v / 1024) ≠ some t) :
    pteOf (m.tabled d i t) d v = pteOf m d v := by
  have hT' : tableOf (m.tabled d i t) d (v / 1024) = _ := tableOf_tabled htd ht
  by_cases hvi : v / 1024 = i
  · rw [if_pos hvi] at hT'
    rw [pteOf_of_table hT', Mem.phys_tabled_self htd, pteOf_of_no_table (hvi ▸ hT)]
  · rw [if_neg hvi] at hT'
    cases hold : tableOf m d (v / 1024) with
    | none => rw [pteOf_of_no_table hold, pteOf_of_no_table (hT'.trans hold)]
    | some t' =>
        rw [hold, Ne, Option.some.injEq] at hself hnew
        rw [pteOf_of_table hold, pteOf_of_table (hT'.trans hold), Mem.phys_tabled_of_ne hself hnew]

end

/-- What entering a table leaves alone: every entry below `UTOP`, and the references to every
page that was not free. -/
structure Tabled (B : Machine) (m m' : Mem) (dirs : ι → Option ℕ) (l : List ℕ) : Prop where
  pte : ∀ {e d v}, dirs e = some d → v < NUPG → pteOf m' d v = pteOf m d v
  target : ∀ {k x}, x ∉ l → (target B m' dirs k = some x ↔ target B m dirs k = some x)
  fresh : ∀ x ∈ l, owners (Jos.target B m' dirs) x ≤ 1
  frame : Frame m m' dirs l

namespace Tabled

omit [DecidableEq ι] in
theorem owners (h : Tabled B m m' dirs l) {x : ℕ} (hx : x ∉ l) :
    owners (Jos.target B m' dirs) x = owners (Jos.target B m dirs) x :=
  owners_congr fun _ ↦ h.target hx

omit [DecidableEq ι] in
/-- Only physical memory matters. -/
theorem congr {m'' : Mem} (h : Tabled B m m' dirs l) (hphys : m''.phys = m'.phys) :
    Tabled B m m'' dirs l where
  pte hd hv := (pteOf_congr hphys _ _).trans (h.pte hd hv)
  target hx := by rw [target_congr hphys]; exact h.target hx
  fresh x hx := by rw [target_congr hphys]; exact h.fresh x hx
  frame :=
    { other := fun x h1 h2 h3 ↦ by rw [hphys]; exact h.frame.other x h1 h2 h3
      upper := fun e d hd i hi ↦ by rw [hphys]; exact h.frame.upper e d hd i hi
      tables := fun e d i t hd hi ht ↦
        h.frame.tables e d i t hd hi (by rwa [tableOf_congr hphys] at ht)
      entries := fun e d i hd hi ↦ by rw [hphys]; exact h.frame.entries e d i hd hi }

omit [DecidableEq ι] in
theorem unstructured (h : Tabled B m m' dirs l) {x : ℕ} (hx : x ∉ l)
    (hu : Unstructured B m dirs x) : Unstructured B m' dirs x :=
  fun k hk hc ↦ hu k hk ((h.target hx).mp hc)

omit [DecidableEq ι] in
theorem target_page (h : Tabled B m m' dirs l) (e : ι) (v : Fin NUPG) :
    Jos.target B m' dirs (.page e v) = Jos.target B m dirs (.page e v) := by
  cases hd : dirs e with
  | none => simp [Jos.target, hd]
  | some d => rw [Jos.target_page hd v.isLt, Jos.target_page hd v.isLt, h.pte hd v.isLt]

end Tabled

theorem openPde_mkPte (t : ℕ) : OpenPde (mkPte t (PTE_U ||| PTE_W)) := by
  intro _
  rw [isSet_U, isSet_W]
  simp [mkPte, PTE_U, PTE_W]

theorem mkPte_table (t : ℕ) :
    page2pa t ||| PTE_P ||| PTE_U ||| PTE_W = mkPte t (PTE_U ||| PTE_W) := by
  rw [mkPte, BitVec.or_assoc, BitVec.or_assoc, BitVec.or_assoc, BitVec.or_comm PTE_P,
    BitVec.or_assoc]

namespace Own

variable (h : Own B M m dirs loose l)

include h

theorem tabled_refl : Tabled B m m dirs l :=
  ⟨fun _ _ ↦ rfl, fun _ ↦ Iff.rfl, fun _ hx ↦ by rw [h.owners_of_mem_list hx]; decide,
    Frame.refl m dirs l⟩

/-- Taking a page from the free list shows nowhere. -/
theorem tabled_taken {p : ℕ} {t : List ℕ} (hl : l = p :: t) :
    Tabled B m (m.taken p) dirs l := by
  have hpl : p ∈ l := by simp [hl]
  have hin := h.inert_of_mem_list hpl
  have hphys : ∀ y, y ≠ p → (m.taken p).phys y = m.phys y := fun y hy ↦ m.phys_zero_of_ne hy
  have htar := hin.target_eq hphys
  refine ⟨fun hd hv ↦ hin.pteOf_eq hphys hd hv, fun _ ↦ by rw [htar], fun x hx ↦ ?_,
    fun x hx _ _ ↦ hphys x fun hc ↦ hx (hc ▸ hpl), fun e d hd i _ ↦ ?_, fun e d i t hd _ ht ↦ ?_,
    fun e d i hd _ ↦ .inl (by rw [hphys d (hin.ne_dir hd)])⟩
  · rw [htar, h.owners_of_mem_list hx]
    exact Nat.zero_le 1
  · rw [hphys d (hin.ne_dir hd)]
  · rw [hin.tableOf_eq hphys hd] at ht
    exact .inr ht

theorem pgdirWalk_fresh_eq {d : ℕ} {va : Word} (hnone : tableOf m d (pdx va) = none) {t : ℕ}
    {l' : List ℕ} (hl : l = t :: l') :
    pgdirWalk B m d va true = some (some (t, ptx va), m.tabled d (pdx va) t) := by
  have ht : t ∈ M.carrier := h.list_sub (by simp [hl])
  obtain ⟨halloc, -, -⟩ := h.pageAlloc_cons hl
  have href : (m.taken t).ref t = m.ref t := by simp [Mem.taken]
  simp [pgdirWalk, tableOf_eq_none.mp hnone, halloc, kaddr_page2pa ht, mkPte_table, href,
    Mem.tabled]

/-- The table that `pgdir_walk` enters is empty, so no translation changes. -/
theorem tabled {e : ι} {d i : ℕ} (hd : dirs e = some d) (hi : i < NUPDE)
    (hnone : tableOf m d i = none) {t : ℕ} {l' : List ℕ} (hl : l = t :: l') :
    Own B M (m.tabled d i t) dirs loose l' ∧ Tabled B m (m.tabled d i t) dirs l ∧
      tableOf (m.tabled d i t) d i = some t := by
  have htl : t ∈ l := by simp [hl]
  have htM := h.list_sub htl
  have hin := h.inert_of_mem_list htl
  have hw : entryFrame (mkPte t (PTE_U ||| PTE_W)) = some t :=
    entryFrame_mkPte (M.lt_two_pow htM) (by decide)
  obtain ⟨-, hown, htar⟩ := h.pageAlloc_cons hl
  have htd : t ≠ d := (hin.ne_dir hd).symm
  have hz : ∀ j, ((m.taken t).setRef t (m.ref t + 1)).phys t j = 0 := fun j ↦
    Mem.phys_zero_self m t j
  have hown1 : Own B M (m.taken t) dirs (insert t loose) l' := hown
  have hnone1 : tableOf (m.taken t) d i = none := by
    have hsame : ∀ y, y ≠ t → (m.taken t).phys y = m.phys y := fun y hy ↦ m.phys_zero_of_ne hy
    rw [hin.tableOf_eq hsame hd, hnone]
  -- the store of the directory entry, on memory with the page cleared
  have htar1 : target B ((m.taken t).write d i (mkPte t (PTE_U ||| PTE_W))) dirs =
      Function.update (target B m dirs) (.table e ⟨i, hi⟩) (some t) := by
    rw [target_write_pde_fresh hown1 hd hi _ hw hnone1 hz htd, htar]
  have htar2 : target B (m.tabled d i t) dirs =
      Function.update (target B m dirs) (.table e ⟨i, hi⟩) (some t) := by
    rw [← htar1]
    exact target_congr rfl
  have hk : target B m dirs (.table e ⟨i, hi⟩) = none := by rw [target_table hd hi, hnone]
  refine ⟨?_, ⟨?_, ?_, ?_, ?_, ?_, ?_, ?_⟩, ?_⟩
  · exact h.linkFresh dirs hl hk (by simp [Mem.tabled]) (by simp [Mem.tabled])
      (by simp [Mem.tabled, Mem.taken]) htar2
  · intro e' d' v hd' hv
    calc pteOf (m.tabled d i t) d' v
        = pteOf ((m.taken t).write d i (mkPte t (PTE_U ||| PTE_W))) d' v := pteOf_congr rfl d' v
      _ = pteOf (m.taken t) d' v := pteOf_write_pde_fresh hown1 hd _ hw hnone1 hz htd hd' hv
      _ = pteOf m d' v := hin.pteOf_eq (fun y hy ↦ m.phys_zero_of_ne hy) hd' hv
  · intro k x hx
    rw [htar2]
    by_cases hc : k = .table e ⟨i, hi⟩
    · subst hc
      have hne : t ≠ x := by
        rintro rfl
        exact hx htl
      simp [hk, hne]
    · rw [Function.update_of_ne hc]
  · intro x hx
    rw [htar2, owners_set hk, h.owners_of_mem_list hx]
    split <;> decide
  · intro x hx hdirs _
    have h1 : x ≠ d := fun e' ↦ hdirs e d hd e'.symm
    have h2 : x ≠ t := fun e' ↦ hx (e' ▸ htl)
    calc (m.tabled d i t).phys x = (m.taken t).phys x := Mem.phys_write_of_ne_frame _ i _ h1
      _ = m.phys x := m.phys_zero_of_ne h2
  · intro e' d' hd' i' hi'
    have hdt : d' ≠ t := hin.ne_dir hd'
    have hz' : (m.taken t).phys d' = m.phys d' := m.phys_zero_of_ne hdt
    by_cases hdd : d' = d
    · subst hdd
      have hne : i' ≠ i := by omega
      rw [← hz']
      exact Mem.phys_write_of_ne_index _ d' _ hne
    · rw [← hz']
      exact congrFun (Mem.phys_write_of_ne_frame _ i _ hdd) i'
  · intro e' d' i' t' hd' hi' ht'
    have hk' : target B (m.tabled d i t) dirs (.table e' ⟨i', hi'⟩) = some t' := by
      rw [target_table hd' hi', ht']
    rw [htar2] at hk'
    by_cases hc : (Key.table e' ⟨i', hi'⟩ : Key ι) = .table e ⟨i, hi⟩
    · rw [hc, Function.update_self] at hk'
      exact .inl (Option.some.inj hk' ▸ htl)
    · rw [Function.update_of_ne hc, target_table hd' hi'] at hk'
      exact .inr hk'
  · intro e' d' i' hd' _
    by_cases hentry : d' = d ∧ i' = i
    · obtain ⟨rfl, rfl⟩ := hentry
      refine .inr ?_
      rw [Mem.tabled, Mem.phys_write_self]
      exact openPde_mkPte t
    · refine .inl ?_
      rw [← m.phys_zero_of_ne (hin.ne_dir hd')]
      by_cases hdd : d' = d
      · subst hdd
        exact Mem.phys_write_of_ne_index _ d' _ fun hc ↦ hentry ⟨rfl, hc⟩
      · exact congrFun (Mem.phys_write_of_ne_frame _ i _ hdd) i'
  · rw [← hw]
    exact congrArg entryFrame (Mem.phys_write_self _ d i _)

/-- `pgdir_walk` with `create` returns the entry, unless it needs a table and there is no free
page; then it changes nothing. -/
theorem pgdirWalk_create {e : ι} {d : ℕ} (hd : dirs e = some d) {va : Word}
    (hi : pdx va < NUPDE) :
    (tableOf m d (pdx va) = none ∧ l = [] ∧ pgdirWalk B m d va true = some (none, m)) ∨
    ∃ t m' l', pgdirWalk B m d va true = some (some (t, ptx va), m') ∧
      tableOf m' d (pdx va) = some t ∧ Own B M m' dirs loose l' ∧ Tabled B m m' dirs l ∧
      (tableOf m d (pdx va) = none ∧ l = t :: l' ∨ tableOf m d (pdx va) ≠ none ∧ m' = m ∧ l' = l)
    := by
  cases hT : tableOf m d (pdx va) with
  | some t =>
      exact .inr ⟨t, m, l, h.pgdirWalk_of_table hd hi hT true, hT, h, h.tabled_refl,
        .inr ⟨by simp, rfl, rfl⟩⟩
  | none =>
      cases hl : l with
      | nil => exact .inl ⟨rfl, rfl, h.pgdirWalk_no_mem hT hl⟩
      | cons t l' =>
          obtain ⟨hown, htab, htt⟩ := h.tabled hd hi hT hl
          rw [hl] at htab
          exact .inr ⟨t, _, l', h.pgdirWalk_fresh_eq hT hl, htt, hown, htab, .inl ⟨rfl, rfl⟩⟩

/-! ## `page_lookup` -/

/-- `page_lookup` reads the translation of `va`. -/
theorem pageLookup_eq {e : ι} {d : ℕ} (hd : dirs e = some d) {va : Word} (hva : va < UTOP) :
    (entryFrame (pteOf m d (pgnum va)) = none ∧ pageLookup B m d va = some none) ∨
    ∃ p t, entryFrame (pteOf m d (pgnum va)) = some p ∧ tableOf m d (pdx va) = some t ∧
      m.phys t (ptx va) = pteOf m d (pgnum va) ∧
      pageLookup B m d va = some (some (p, t, ptx va)) := by
  have hi := pdx_lt_of_lt_UTOP hva
  have hdiv : pgnum va / 1024 = pdx va := by
    have := ptx_lt va
    rw [pgnum_eq_pdx_ptx]
    omega
  have hmod : pgnum va % 1024 = ptx va := by
    have := ptx_lt va
    rw [pgnum_eq_pdx_ptx]
    omega
  have hwalk := h.pgdirWalk_lookup hd hi
  cases hT : tableOf m d (pdx va) with
  | none =>
      rw [hT] at hwalk
      refine .inl ⟨?_, by simp [pageLookup, hwalk]⟩
      rw [pteOf_of_no_table (by rw [hdiv]; exact hT)]
      exact entryFrame_zero
  | some t =>
      rw [hT] at hwalk
      have hpte : pteOf m d (pgnum va) = m.phys t (ptx va) := by
        rw [pteOf_of_table (t := t) (by rw [hdiv]; exact hT), hmod]
      rw [hpte]
      cases hp : entryFrame (m.phys t (ptx va)) with
      | none =>
          refine .inl ⟨rfl, ?_⟩
          simp [pageLookup, hwalk, entryFrame_eq_none.mp hp]
      | some p =>
          have hpM := h.page_mem hd (pgnum_lt_of_lt_UTOP hva) (hpte ▸ hp)
          refine .inr ⟨p, t, rfl, rfl, rfl, ?_⟩
          simp [pageLookup, hwalk, (isSet_of_entryFrame hp).1, pa2page_pteAddr hp hpM]

end Own

end Tables

end Jos
