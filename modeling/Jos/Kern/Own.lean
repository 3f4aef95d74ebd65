import Jos.Kern.Pmap
import Jos.Lib.Count
import Jos.Lib.Ledger
import Mathlib.Data.Fintype.Prod
import Mathlib.Data.Fintype.Sum

/-!
# Who owns a page

The references that `pp_ref` counts are listed by a finite type of *keys*: the page directory of
an address space, its directory entries below `UTOP`, its page table entries below `UTOP`, and
the kernel's own directory entries above.  `target` reads from physical memory which page a key
refers to; two-level tables are thereby a finite function from keys to pages, and
`Jos.Lib.owners` counts the references to a page.

`Own` is the memory ownership invariant: the machine's counters and free list represent the
true reference counts (`Jos.Lib.Ledger`), every reference is to a page of the pool, and
directories and tables are referred to exactly once.  The last condition is what makes the
tables behave like a function: a store into one table cannot be seen through another one
(`pteOf_write_pte`).

The family of directories is an arbitrary function `dirs : ι → Option ℕ`; the kernel uses the
live environments.
-/

namespace Jos

open Jos.Lib

/-- The places that hold a counted reference to a page. -/
inductive Key (ι : Type) where
  | dir (e : ι)
  | table (e : ι) (i : Fin NUPDE)
  | page (e : ι) (v : Fin NUPG)
  | kern (i : Fin NPDENTRIES)
deriving DecidableEq

instance {ι : Type} [Fintype ι] : Fintype (Key ι) :=
  Fintype.ofEquiv ((ι ⊕ ι × Fin NUPDE) ⊕ (ι × Fin NUPG) ⊕ Fin NPDENTRIES)
    { toFun := Sum.elim (Sum.elim .dir fun a ↦ .table a.1 a.2)
        (Sum.elim (fun a ↦ .page a.1 a.2) .kern)
      invFun := fun
        | .dir e => .inl (.inl e)
        | .table e i => .inl (.inr (e, i))
        | .page e v => .inr (.inl (e, v))
        | .kern i => .inr (.inr i)
      left_inv := by rintro ((_ | _) | (_ | _)) <;> rfl
      right_inv := by rintro (_ | _ | _ | _) <;> rfl }

/-- The pages that page tables and directories live in are referred to by these keys. -/
def Key.structural {ι : Type} : Set (Key ι) :=
  {k | ∀ e v, k ≠ .page e v}

/-- The frame an entry refers to, if it is present. -/
def entryFrame (pte : Word) : Option ℕ := if isSet pte PTE_P then some (frame pte) else none

/-- The page table behind directory entry `i`. -/
def tableOf (m : Mem) (d i : ℕ) : Option ℕ := entryFrame (m.phys d i)

/-- The page table entry of page number `v`, or 0 where there is no table. -/
def pteOf (m : Mem) (d v : ℕ) : Word :=
  match tableOf m d (v / 1024) with
  | none => 0
  | some t => m.phys t (v % 1024)

/-- The page and the permission bits of an entry, if it is present. -/
def entry (pte : Word) : Option (ℕ × Word) :=
  if isSet pte PTE_P then some (frame pte, flags pte) else none

/-- The translation of page number `v`: the page it is mapped to and the permission bits. -/
def translate (m : Mem) (d v : ℕ) : Option (ℕ × Word) := entry (pteOf m d v)

/-- What a key refers to. -/
def target {ι : Type} (B : Machine) (m : Mem) (dirs : ι → Option ℕ) : Key ι → Option ℕ
  | .dir e => dirs e
  | .table e i => (dirs e).bind fun d ↦ tableOf m d i
  | .page e v => (dirs e).bind fun d ↦ entryFrame (pteOf m d v)
  | .kern i => if NUPDE ≤ i.val ∧ i.val ≠ pdx UVPT then tableOf m B.kernPgdir i else none

/-- The pages the allocator manages: real pages, and not the one `kern_pgdir` lives in. -/
structure Pool (B : Machine) where
  carrier : Set ℕ
  lt : ∀ p ∈ carrier, p < B.npages
  kern : B.kernPgdir ∉ carrier

/-- The memory ownership invariant, with the pages of `loose` handed out but not mapped yet and
`l` the free list. -/
structure Own {ι : Type} [Fintype ι] [DecidableEq ι] (B : Machine) (M : Pool B) (m : Mem)
    (dirs : ι → Option ℕ) (loose : Set ℕ) (l : List ℕ) : Prop where
  ledger : Ledger M.carrier m.link m.pageFreeList m.ref (owners (target B m dirs)) loose l
  valid : ∀ k p, target B m dirs k = some p → p ∈ M.carrier
  excl : Exclusive Key.structural (target B m dirs)

/-! ## Reading entries -/

section Entries

variable {m : Mem} {d i t v : ℕ}

@[simp] theorem entryFrame_zero : entryFrame 0#32 = none := by
  simp [entryFrame]

theorem entryFrame_of_isSet {w : Word} (h : isSet w PTE_P) : entryFrame w = some (frame w) := by
  simp [entryFrame, h]

theorem entryFrame_eq_none {w : Word} : entryFrame w = none ↔ ¬ isSet w PTE_P := by
  by_cases h : isSet w PTE_P <;> simp [entryFrame, h]

theorem isSet_of_entryFrame {w : Word} {p : ℕ} (h : entryFrame w = some p) :
    isSet w PTE_P ∧ frame w = p := by
  by_cases hs : isSet w PTE_P
  · rw [entryFrame_of_isSet hs] at h
    exact ⟨hs, Option.some.inj h⟩
  · rw [entryFrame_eq_none.mpr hs] at h
    cases h

theorem entryFrame_mkPte {p : ℕ} (hp : p < 2 ^ 20) {perm : Word} (hperm : perm.toNat < 4096) :
    entryFrame (mkPte p perm) = some p := by
  rw [entryFrame_of_isSet (isSet_mkPte_P p perm), frame_mkPte hp hperm]

@[simp] theorem entry_zero : entry 0#32 = none := by
  simp [entry]

theorem entry_of_isSet {w : Word} (h : isSet w PTE_P) : entry w = some (frame w, flags w) := by
  simp [entry, h]

theorem entry_eq_none {w : Word} : entry w = none ↔ ¬ isSet w PTE_P := by
  by_cases h : isSet w PTE_P <;> simp [entry, h]

theorem entryFrame_eq (w : Word) : entryFrame w = (entry w).map Prod.fst := by
  by_cases h : isSet w PTE_P <;> simp [entry, entryFrame, h]

theorem entry_mkPte {p : ℕ} (hp : p < 2 ^ 20) {perm : Word} (hperm : perm.toNat < 4096) :
    entry (mkPte p perm) = some (p, perm ||| PTE_P) := by
  rw [entry_of_isSet (isSet_mkPte_P p perm), frame_mkPte hp hperm, flags_mkPte hp hperm]

theorem entryFrame_pteOf (m : Mem) (d v : ℕ) :
    entryFrame (pteOf m d v) = (translate m d v).map Prod.fst := entryFrame_eq _

theorem pteOf_of_table (h : tableOf m d (v / 1024) = some t) :
    pteOf m d v = m.phys t (v % 1024) := by
  simp [pteOf, h]

theorem pteOf_of_no_table (h : tableOf m d (v / 1024) = none) : pteOf m d v = 0 := by
  simp [pteOf, h]

end Entries

theorem Pool.lt_two_pow {B : Machine} (M : Pool B) {p : ℕ} (hp : p ∈ M.carrier) : p < 2 ^ 20 := by
  have h1 := M.lt p hp
  have h2 := B.npages_le
  omega

theorem Pool.ne_kern {B : Machine} (M : Pool B) {p : ℕ} (hp : p ∈ M.carrier) :
    p ≠ B.kernPgdir := by
  rintro rfl
  exact M.kern hp

/-! ## Separation

Directories and tables are pages of the pool that are referred to once, so they are pairwise
distinct, distinct from mapped pages, and not free. -/

section Separation

variable {ι : Type} {B : Machine} {M : Pool B} {m : Mem} {dirs : ι → Option ℕ} {loose : Set ℕ}
  {l : List ℕ}

@[simp] theorem Key.dir_structural (e : ι) : Key.dir e ∈ Key.structural (ι := ι) := by
  intro e' v h
  cases h

@[simp] theorem Key.table_structural (e : ι) (i : Fin NUPDE) :
    Key.table e i ∈ Key.structural (ι := ι) := by
  intro e' v h
  cases h

@[simp] theorem Key.kern_structural (i : Fin NPDENTRIES) :
    Key.kern i ∈ Key.structural (ι := ι) := by
  intro e' v h
  cases h

theorem Key.page_not_structural (e : ι) (v : Fin NUPG) :
    Key.page e v ∉ Key.structural (ι := ι) := fun h ↦ h e v rfl

theorem target_table {e : ι} {d i : ℕ} (hd : dirs e = some d) (hi : i < NUPDE) :
    target B m dirs (.table e ⟨i, hi⟩) = tableOf m d i := by
  simp [target, hd]

theorem target_page {e : ι} {d v : ℕ} (hd : dirs e = some d) (hv : v < NUPG) :
    target B m dirs (.page e ⟨v, hv⟩) = entryFrame (pteOf m d v) := by
  simp [target, hd]

/-- No structural key refers to `x`: it holds no directory and no table. -/
def Unstructured (B : Machine) (m : Mem) (dirs : ι → Option ℕ) (x : ℕ) : Prop :=
  ∀ k ∈ Key.structural, target B m dirs k ≠ some x

theorem Unstructured.ne_dir {x : ℕ} (hx : Unstructured B m dirs x) {e : ι} {d : ℕ}
    (hd : dirs e = some d) : d ≠ x := by
  rintro rfl
  exact hx (.dir e) (Key.dir_structural e) hd

theorem Unstructured.ne_table {x : ℕ} (hx : Unstructured B m dirs x) {e : ι} {d i t : ℕ}
    (hd : dirs e = some d) (hi : i < NUPDE) (ht : tableOf m d i = some t) : t ≠ x := by
  rintro rfl
  exact hx (.table e ⟨i, hi⟩) (Key.table_structural e _) (by rw [target_table hd hi, ht])

variable [Fintype ι]

theorem unstructured_of_owners_zero {x : ℕ} (hx : owners (target B m dirs) x = 0) :
    Unstructured B m dirs x := fun k _ ↦ owners_eq_zero_iff.mp hx k

variable [DecidableEq ι]

namespace Own

variable (h : Own B M m dirs loose l)

include h

theorem dir_mem {e : ι} {d : ℕ} (hd : dirs e = some d) : d ∈ M.carrier := h.valid (.dir e) d hd

theorem table_mem {e : ι} {d i t : ℕ} (hd : dirs e = some d) (hi : i < NUPDE)
    (ht : tableOf m d i = some t) : t ∈ M.carrier :=
  h.valid (.table e ⟨i, hi⟩) t (by rw [target_table hd hi, ht])

theorem page_mem {e : ι} {d v p : ℕ} (hd : dirs e = some d) (hv : v < NUPG)
    (hp : entryFrame (pteOf m d v) = some p) : p ∈ M.carrier :=
  h.valid (.page e ⟨v, hv⟩) p (by rw [target_page hd hv, hp])

theorem dir_inj {e e' : ι} {d : ℕ} (hd : dirs e = some d) (hd' : dirs e' = some d) : e' = e := by
  have hk : target B m dirs (.dir e) = some d := hd
  have hk' : target B m dirs (.dir e') = some d := hd'
  exact Key.dir.inj (h.excl.eq_of_eq_some (Key.dir_structural e) hk hk')

theorem table_ne_dir {e e' : ι} {d d' i t : ℕ} (hd : dirs e = some d) (hi : i < NUPDE)
    (ht : tableOf m d i = some t) (hd' : dirs e' = some d') : d' ≠ t := by
  rintro rfl
  have hk : target B m dirs (.dir e') = some d' := hd'
  have hk' : target B m dirs (.table e ⟨i, hi⟩) = some d' := by rw [target_table hd hi, ht]
  cases h.excl.eq_of_eq_some (Key.dir_structural e') hk hk'

theorem table_inj {e e' : ι} {d d' i i' t : ℕ} (hd : dirs e = some d) (hi : i < NUPDE)
    (ht : tableOf m d i = some t) (hd' : dirs e' = some d') (hi' : i' < NUPDE)
    (ht' : tableOf m d' i' = some t) : e' = e ∧ i' = i := by
  have hk : target B m dirs (.table e ⟨i, hi⟩) = some t := by rw [target_table hd hi, ht]
  have hk' : target B m dirs (.table e' ⟨i', hi'⟩) = some t := by rw [target_table hd' hi', ht']
  simpa using h.excl.eq_of_eq_some (Key.table_structural e ⟨i, hi⟩) hk hk'

theorem dir_ne_kern {e : ι} {d : ℕ} (hd : dirs e = some d) : B.kernPgdir ≠ d :=
  (M.ne_kern (h.dir_mem hd)).symm

theorem owners_of_mem_list {x : ℕ} (hx : x ∈ l) : owners (target B m dirs) x = 0 :=
  ((h.ledger.mem_iff x).mp hx).2.1

theorem unstructured_of_mem_list {x : ℕ} (hx : x ∈ l) : Unstructured B m dirs x :=
  unstructured_of_owners_zero (h.owners_of_mem_list hx)

/-- A mapped page holds no table and no directory. -/
theorem unstructured_of_page {e : ι} {d v p : ℕ} (hd : dirs e = some d) (hv : v < NUPG)
    (hp : entryFrame (pteOf m d v) = some p) : Unstructured B m dirs p := by
  intro k hk hkp
  have hk' : target B m dirs (.page e ⟨v, hv⟩) = some p := by rw [target_page hd hv, hp]
  exact hk e ⟨v, hv⟩ (h.excl.eq_of_eq_some hk hkp hk').symm

end Own

end Separation

end Jos
