import Jos.Kern.Insert
import Mathlib.Logic.Relation

/-!
# Address spaces as a finite map

What two-level page tables are for: a map from directories and page numbers to pages with
permission bits.  `AddrSpaces` is that map, `MapOp.spec` says what `page_insert`, `page_remove`
and `page_lookup` mean for it, and `MapOp.exec` is what the functions of `pmap.c` do to the
machine's memory.  `addrSpaces` abstracts a memory to the map.
-/

namespace Jos

open Jos.Lib

variable {ι : Type}

/-- The abstract address spaces of a family of directories. -/
def AddrSpaces (ι : Type) : Type := ι → ℕ → Option (ℕ × Word)

/-- The operations on address spaces, on the directory of `e`. -/
inductive MapOp (ι : Type) where
  | insert (e : ι) (pp : ℕ) (va perm : Word)
  | remove (e : ι) (va : Word)
  | lookup (e : ι) (va : Word)

/-- What an operation returns: an error code, nothing, or a page and the entry found. -/
inductive MapResult where
  | code (r : Word)
  | unit
  | found (o : Option (ℕ × Word))
deriving DecidableEq

namespace AddrSpaces

/-- Set one entry of one address space. -/
def set [DecidableEq ι] (A : AddrSpaces ι) (e : ι) (v : ℕ) (o : Option (ℕ × Word)) :
    AddrSpaces ι := fun e' v' ↦ if e' = e ∧ v' = v then o else A e' v'

end AddrSpaces

/-- The meaning of an operation on the map. -/
def MapOp.spec [DecidableEq ι] (A : AddrSpaces ι) : MapOp ι → MapResult → AddrSpaces ι → Prop
  | .insert e pp va perm, r, A' =>
      (r = .code 0 ∧ A' = A.set e (pgnum va) (some (pp, perm ||| PTE_P))) ∨
      (r = .code (-E_NO_MEM) ∧ A' = A)
  | .remove e va, r, A' => r = .unit ∧ A' = A.set e (pgnum va) none
  | .lookup e va, r, A' => r = .found (A e (pgnum va)) ∧ A' = A

/-- What the functions of `pmap.c` do; `none` is a panic. -/
def MapOp.exec (B : Machine) (dirs : ι → Option ℕ) (m : Mem) :
    MapOp ι → Option (MapResult × Mem)
  | .insert e pp va perm => do
      let d ← dirs e
      let (r, m) ← pageInsert B m d pp va perm
      return (.code r, m)
  | .remove e va => do
      let d ← dirs e
      let m ← pageRemove B m d va
      return (.unit, m)
  | .lookup e va => do
      let d ← dirs e
      match ← pageLookup B m d va with
      | none => return (.found none, m)
      | some (pp, t, j) => return (.found (some (pp, flags (m.phys t j))), m)

/-- The address spaces a memory implements.  Only addresses below `UTOP` belong to them. -/
def addrSpaces (m : Mem) (dirs : ι → Option ℕ) : AddrSpaces ι := fun e v ↦
  if v < NUPG then (dirs e).bind fun d ↦ translate m d v else none

/-- An operation at a user address of a directory of the family; a page to be inserted is a user
page, off the free list `l` and neither a table nor a directory. -/
def MapOp.Allowed (B : Machine) (M : Pool B) (dirs : ι → Option ℕ) (m : Mem) (l : List ℕ) :
    MapOp ι → Prop
  | .insert e pp va perm => dirs e ≠ none ∧ va < UTOP ∧ perm.toNat < 4096 ∧ pp ∈ M.carrier ∧
      pp ∉ l ∧ Unstructured B m dirs pp
  | .remove e va => dirs e ≠ none ∧ va < UTOP
  | .lookup e va => dirs e ≠ none ∧ va < UTOP

section Refinement

variable [Fintype ι] [DecidableEq ι] {B : Machine} {M : Pool B} {m m' : Mem}
  {dirs : ι → Option ℕ} {loose : Set ℕ} {l l' : List ℕ}

/-- No page is mapped by more entries than its counter can hold. -/
def Bounded (B : Machine) (m : Mem) (dirs : ι → Option ℕ) : Prop :=
  ∀ x, owners (target B m dirs) x ≤ 65535

theorem Remapped.addrSpaces_eq {e : ι} {v : Fin NUPG} {o : Option (ℕ × Word)}
    (h : Remapped B m m' dirs l l' e v o) (he : dirs e ≠ none) :
    addrSpaces m' dirs = (addrSpaces m dirs).set e v o := by
  funext e' v'
  rw [AddrSpaces.set, addrSpaces, addrSpaces]
  by_cases hv : v' < NUPG
  · cases hd : dirs e' with
    | none =>
        have hne : e' ≠ e := by
          rintro rfl
          exact he hd
        simp [hne]
    | some d => simp [hv, h.translate e' d v' hd hv]
  · have hne : ¬ (e' = e ∧ v' = v) := fun hc ↦ hv (hc.2 ▸ v.isLt)
    simp [hv, hne]

/-- One operation does to the machine's memory what it means for the map. -/
theorem Own.exec_spec (h : Own B M m dirs loose l) (hb : Bounded B m dirs) {op : MapOp ι}
    (hop : op.Allowed B M dirs m l) : ∃ r m' loose' l', op.exec B dirs m = some (r, m') ∧
      Own B M m' dirs loose' l' ∧ op.spec (addrSpaces m dirs) r (addrSpaces m' dirs) ∧
      (r = .code (-E_NO_MEM) → m' = m) := by
  cases op with
  | insert e pp va perm =>
      obtain ⟨he, hva, hperm, hpM, hpl, hpu⟩ := hop
      obtain ⟨d, hd⟩ := Option.ne_none_iff_exists'.mp he
      rcases h.pageInsert_spec hd hva hpM hpl hpu hperm (fun q _ ↦ Nat.lt_succ_of_le (hb q)) with
        ⟨-, -, hins⟩ | ⟨m', l', hins, hown, hre, -⟩
      · exact ⟨_, m, loose, l, by simp [MapOp.exec, hd, hins], h, .inr ⟨rfl, rfl⟩, fun _ ↦ rfl⟩
      · refine ⟨.code 0, m', _, l', by simp [MapOp.exec, hd, hins], hown,
          .inl ⟨rfl, hre.addrSpaces_eq he⟩, fun hc ↦ ?_⟩
        exact absurd hc (by decide)
  | remove e va =>
      obtain ⟨he, hva⟩ := hop
      obtain ⟨d, hd⟩ := Option.ne_none_iff_exists'.mp he
      obtain ⟨m', l', hrem, hown, hre, -⟩ :=
        h.pageRemove_spec hd hva fun q _ ↦ (hb q).trans (by decide)
      exact ⟨.unit, m', loose, l', by simp [MapOp.exec, hd, hrem], hown,
        ⟨rfl, hre.toRemapped.addrSpaces_eq he⟩, by simp⟩
  | lookup e va =>
      obtain ⟨he, hva⟩ := hop
      obtain ⟨d, hd⟩ := Option.ne_none_iff_exists'.mp he
      have hA : addrSpaces m dirs e (pgnum va) = translate m d (pgnum va) := by
        simp [addrSpaces, hd, pgnum_lt_of_lt_UTOP hva]
      rcases h.pageLookup_eq hd hva with ⟨hnone, hlook⟩ | ⟨p, t, hp, -, hword, hlook⟩
      · refine ⟨.found none, m, loose, l, by simp [MapOp.exec, hd, hlook], h, ⟨?_, rfl⟩, by simp⟩
        rw [hA, translate, entry_eq_none.mpr (entryFrame_eq_none.mp hnone)]
      · obtain ⟨hP, rfl⟩ := isSet_of_entryFrame hp
        refine ⟨.found (some (frame (pteOf m d (pgnum va)), flags (m.phys t (ptx va)))), m, loose,
          l, by simp [MapOp.exec, hd, hlook], h, ⟨?_, rfl⟩, by simp⟩
        rw [hA, translate, entry_of_isSet hP, hword]

/-- A run of allowed operations on the machine's memory, with no page ever referred to by more
than 65535 entries.  `log` lists the operations with their results. -/
inductive MapRun (B : Machine) (M : Pool B) (dirs : ι → Option ℕ) :
    Mem → List (MapOp ι × MapResult) → Mem → Prop
  | nil (m : Mem) : MapRun B M dirs m [] m
  | snoc {m m₁ m₂ : Mem} {log : List (MapOp ι × MapResult)} {op : MapOp ι} {r : MapResult}
      {l : List ℕ} (run : MapRun B M dirs m log m₁)
      (bounded : Bounded B m₁ dirs) (list : Chain m₁.link m₁.pageFreeList l)
      (allowed : op.Allowed B M dirs m₁ l) (exec : op.exec B dirs m₁ = some (r, m₂)) :
      MapRun B M dirs m (log ++ [(op, r)]) m₂

/-- A run of the abstract address spaces. -/
inductive AbsRun : AddrSpaces ι → List (MapOp ι × MapResult) → AddrSpaces ι → Prop
  | nil (A : AddrSpaces ι) : AbsRun A [] A
  | snoc {A A₁ A₂ : AddrSpaces ι} {log : List (MapOp ι × MapResult)} {op : MapOp ι}
      {r : MapResult} (run : AbsRun A log A₁) (spec : op.spec A₁ r A₂) :
      AbsRun A (log ++ [(op, r)]) A₂

theorem MapRun.refines {log : List (MapOp ι × MapResult)} (run : MapRun B M dirs m log m')
    (h : Own B M m dirs loose l) : AbsRun (addrSpaces m dirs) log (addrSpaces m' dirs) ∧
      ∃ loose' l', Own B M m' dirs loose' l' := by
  induction run with
  | nil => exact ⟨.nil _, loose, l, h⟩
  | snoc run hb hlist hop hexec ih =>
      obtain ⟨habs, loose₁, l₁, hown⟩ := ih
      obtain rfl := hown.ledger.chain.unique hlist
      obtain ⟨r', m₂', loose', l', hexec', hown', hspec, -⟩ := hown.exec_spec hb hop
      rw [hexec] at hexec'
      obtain ⟨rfl, rfl⟩ := Prod.mk.inj (Option.some.inj hexec')
      exact ⟨habs.snoc hspec, loose', l', hown'⟩

/-- Two-level page tables refine a finite map: a run of operations is a run of the map with the
same results, no allowed operation panics, and one that reports `-E_NO_MEM` changes nothing. -/
theorem page_tables_refine_map {log : List (MapOp ι × MapResult)} (h : Own B M m dirs loose l)
    (run : MapRun B M dirs m log m') :
    AbsRun (addrSpaces m dirs) log (addrSpaces m' dirs) ∧
    ∀ l', Chain m'.link m'.pageFreeList l' → Bounded B m' dirs → ∀ op : MapOp ι,
      op.Allowed B M dirs m' l' → ∃ r m'', op.exec B dirs m' = some (r, m'') ∧
        op.spec (addrSpaces m' dirs) r (addrSpaces m'' dirs) ∧
        (r = .code (-E_NO_MEM) → m'' = m') := by
  obtain ⟨habs, loose₁, l₁, hown⟩ := run.refines h
  refine ⟨habs, fun l' hl' hb op hop ↦ ?_⟩
  obtain rfl := hown.ledger.chain.unique hl'
  obtain ⟨r, m'', -, -, hexec, -, hspec, hnm⟩ := hown.exec_spec hb hop
  exact ⟨r, m'', hexec, hspec, hnm⟩

/-- A directory, a page handed out and a free page. -/
def tinyMachine : Machine := ⟨4, 0, by decide⟩

def tinyPool : Pool tinyMachine :=
  ⟨{1, 2, 3}, by rintro p (rfl | rfl | rfl) <;> decide, by simp [tinyMachine]⟩

def tinyMem : Mem :=
  ⟨fun p ↦ ⟨none, if p = 1 then 1 else 0⟩, some 3, fun _ _ ↦ 0, []⟩

theorem tinyMem_owners (x : ℕ) : owners (target tinyMachine tinyMem fun _ : Unit ↦ some 1) x =
    if x = 1 then 1 else 0 := by
  have htar : target tinyMachine tinyMem (fun _ : Unit ↦ some 1) =
      Function.update (fun _ ↦ none) (.dir ()) (some 1) := by
    funext k
    cases k <;> simp [target, tableOf, pteOf, tinyMem]
  have hzero : owners (fun _ : Key Unit ↦ (none : Option ℕ)) x = 0 := by
    simp [owners_eq_zero_iff]
  rw [htar, owners_set rfl, hzero, Nat.zero_add]

theorem tinyMem_own : Own tinyMachine tinyPool tinyMem (fun _ : Unit ↦ some 1) {2} [3] := by
  refine ⟨⟨.cons .nil, fun p ↦ ?_, fun p hp ↦ ?_, fun p hp hpl ↦ rfl, ?_⟩, fun k p hk ↦ ?_,
    fun k hk p hp ↦ ?_⟩
  · rw [tinyMem_owners]
    by_cases h1 : p = 1
    · simp [h1]
    · by_cases h2 : p = 2
      · simp [h2]
      · simp [h1, h2, tinyPool]
  · rw [tinyMem_owners]
    by_cases h1 : p = 1
    · simp [h1, Mem.ref, tinyMem]
    · simp [h1, Mem.ref, tinyMem]
  · rintro p rfl
    rw [tinyMem_owners]
    simp [tinyPool]
  · have hpos := owners_pos hk
    rw [tinyMem_owners] at hpos
    by_cases h1 : p = 1
    · simp [h1, tinyPool]
    · simp [h1] at hpos
  · have hpos := owners_pos hp
    rw [tinyMem_owners] at hpos ⊢
    by_cases h1 : p = 1
    · simp [h1]
    · simp [h1] at hpos

theorem page_tables_refine_map_tiny : ∃ r m', (MapOp.insert () 2 0 PTE_W).exec tinyMachine
      (fun _ ↦ some 1) tinyMem = some (r, m') ∧
    AbsRun (addrSpaces tinyMem fun _ : Unit ↦ some 1) [(.insert () 2 0 PTE_W, r)]
      (addrSpaces m' fun _ ↦ some 1) := by
  have hb : Bounded tinyMachine tinyMem fun _ : Unit ↦ some 1 := by
    intro x
    rw [tinyMem_owners]
    split <;> decide
  have hop : (MapOp.insert () 2 0 PTE_W).Allowed tinyMachine tinyPool (fun _ : Unit ↦ some 1)
      tinyMem [3] :=
    ⟨by simp, by decide, by decide, by simp [tinyPool], by simp,
      unstructured_of_owners_zero (by rw [tinyMem_owners]; decide)⟩
  obtain ⟨r, m', -, -, hexec, -⟩ := tinyMem_own.exec_spec hb hop
  have run : MapRun tinyMachine tinyPool (fun _ : Unit ↦ some 1) tinyMem
      ([] ++ [(.insert () 2 0 PTE_W, r)]) m' :=
    (MapRun.nil tinyMem).snoc hb tinyMem_own.ledger.chain hop hexec
  exact ⟨r, m', hexec, (page_tables_refine_map tinyMem_own run).1⟩

end Refinement

end Jos
