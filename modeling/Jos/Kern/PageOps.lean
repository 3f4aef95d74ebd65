import Jos.Kern.AddrSpace
import Jos.Kern.EnvSpec

/-!
# What page operations write, whatever the counters say

`Own` needs reference counts that fit into their counters.  Where a count wraps around, a page may
be freed while it is mapped, and handed out again; but it is a page of the allocator still, and not
a directory.  This is enough to know what `page_insert` and `page_remove` do to directories.
-/

namespace Jos

open Jos.Lib

variable {ι : Type} {B : Machine} {M : Pool B} {m m' : Mem} {dirs : ι → Option ℕ} {d i j p t : ℕ}
  {va : Word} {e : ι}

/-- The pages of the allocator that are no directories. -/
def Common (M : Pool B) (dirs : ι → Option ℕ) : Set ℕ :=
  {p | p ∈ M.carrier ∧ ∀ e, dirs e ≠ some p}

/-- Free pages, page tables and mapped pages are such pages. -/
structure Penned (M : Pool B) (m : Mem) (dirs : ι → Option ℕ) : Prop where
  dir : ∀ e d, dirs e = some d → d ∈ M.carrier
  head : ∀ p, m.pageFreeList = some p → p ∈ Common M dirs
  link : ∀ p ∈ Common M dirs, ∀ q, m.link p = some q → q ∈ Common M dirs
  table : ∀ e d i t, dirs e = some d → i < NUPDE → tableOf m d i = some t → t ∈ Common M dirs
  page : ∀ e d i t j p, dirs e = some d → i < NUPDE → tableOf m d i = some t → j < 1024 →
    entryFrame (m.phys t j) = some p → p ∈ Common M dirs

/-- `kern_pgdir` and the kernel's half of the directories are as before, and new entries below leave
the permissions to the tables. -/
structure DirsKept (B : Machine) (m m' : Mem) (dirs : ι → Option ℕ) : Prop where
  kern : m'.phys B.kernPgdir = m.phys B.kernPgdir
  upper : ∀ e d i, dirs e = some d → NUPDE ≤ i → m'.phys d i = m.phys d i
  lower : ∀ e d i, dirs e = some d → i < NUPDE →
    m'.phys d i = m.phys d i ∨ OpenPde (m'.phys d i)

namespace DirsKept

theorem of_phys (h : m'.phys = m.phys) : DirsKept B m m' dirs :=
  ⟨by rw [h], fun _ _ _ _ _ ↦ by rw [h], fun _ _ _ _ _ ↦ .inl (by rw [h])⟩

theorem trans {m'' : Mem} (h : DirsKept B m m' dirs) (h' : DirsKept B m' m'' dirs) :
    DirsKept B m m'' dirs where
  kern := h'.kern.trans h.kern
  upper e d i hd hi := by rw [h'.upper e d i hd hi, h.upper e d i hd hi]
  lower e d i hd hi := by
    rcases h'.lower e d i hd hi with heq | hopen
    · rw [heq]
      exact h.lower e d i hd hi
    · exact .inr hopen

end DirsKept

namespace Penned

variable (h : Penned M m dirs)

include h

theorem of_same (hphys : m'.phys = m.phys) (hlink : m'.link = m.link)
    (hlist : m'.pageFreeList = m.pageFreeList) : Penned M m' dirs where
  dir := h.dir
  head := hlist ▸ h.head
  link := hlink ▸ h.link
  table e d i t hd hi ht := by
    rw [tableOf_congr hphys] at ht
    exact h.table e d i t hd hi ht
  page e d i t j p hd hi ht hj hp := by
    rw [tableOf_congr hphys] at ht
    rw [hphys] at hp
    exact h.page e d i t j p hd hi ht hj hp

theorem setRef (q : ℕ) (r : BitVec 16) : Penned M (m.setRef q r) dirs :=
  h.of_same rfl (Mem.link_setRef m q r) rfl

/-- A store into a page that is no directory. -/
theorem write (ht : t ∈ Common M dirs) (j : ℕ) {w : Word}
    (hw : ∀ p, entryFrame w = some p → p ∈ Common M dirs) :
    Penned M (m.write t j w) dirs ∧ DirsKept B m (m.write t j w) dirs := by
  have hdir : ∀ e d, dirs e = some d → (m.write t j w).phys d = m.phys d := by
    rintro e d hd
    refine Mem.phys_write_of_ne_frame m j w ?_
    rintro rfl
    exact ht.2 e hd
  have htab : ∀ e d i, dirs e = some d → tableOf (m.write t j w) d i = tableOf m d i := by
    intro e d i hd
    rw [tableOf, tableOf, hdir e d hd]
  refine ⟨⟨h.dir, h.head, h.link, fun e d i t' hd hi ht' ↦ ?_,
      fun e d i t' j' p hd hi ht' hj hp ↦ ?_⟩,
    Mem.phys_write_of_ne_frame m j w (M.ne_kern ht.1).symm, fun e d i hd _ ↦ by rw [hdir e d hd],
    fun e d i hd _ ↦ .inl (by rw [hdir e d hd])⟩
  · rw [htab e d i hd] at ht'
    exact h.table e d i t' hd hi ht'
  · rw [htab e d i hd] at ht'
    by_cases hc : t' = t ∧ j' = j
    · obtain ⟨rfl, rfl⟩ := hc
      rw [Mem.phys_write_self] at hp
      exact hw p hp
    · have hsame : (m.write t j w).phys t' j' = m.phys t' j' := by
        by_cases htt : t' = t
        · subst htt
          exact Mem.phys_write_of_ne_index m t' w fun hj' ↦ hc ⟨rfl, hj'⟩
        · rw [Mem.phys_write_of_ne_frame m j w htt]
      rw [hsame] at hp
      exact h.page e d i t' j' p hd hi ht' hj hp

/-- A page on the free list. -/
theorem setLink (q : ℕ) {o : Option ℕ} (ho : ∀ p, o = some p → p ∈ Common M dirs) :
    Penned M (m.setLink q o) dirs where
  dir := h.dir
  head := h.head
  link p hp r hr := by
    rw [Mem.link_setLink] at hr
    by_cases hpq : p = q
    · rw [hpq, Function.update_self] at hr
      exact ho r hr
    · rw [Function.update_of_ne hpq] at hr
      exact h.link p hp r hr
  table := h.table
  page := h.page

theorem setFreeList {o : Option ℕ} (ho : ∀ p, o = some p → p ∈ Common M dirs) :
    Penned M (m.setFreeList o) dirs where
  dir := h.dir
  head := ho
  link := h.link
  table := h.table
  page := h.page

theorem pageDecref (hp : p ∈ Common M dirs) (hrun : Jos.pageDecref m p = some m') :
    Penned M m' dirs ∧ m'.phys = m.phys := by
  have h₁ := h.setRef p (m.ref p - 1)
  simp only [Jos.pageDecref, pageFree] at hrun
  split at hrun
  · split at hrun
    · cases hrun
    · obtain rfl := Option.some.inj hrun
      exact ⟨(h₁.setLink p h.head).setFreeList fun q hq ↦ Option.some.inj hq ▸ hp, rfl⟩
  · obtain rfl := Option.some.inj hrun
    exact ⟨h₁, rfl⟩

/-- Clearing a page that is no directory. -/
theorem zero (ht : t ∈ Common M dirs) :
    Penned M (m.zero t) dirs ∧ DirsKept B m (m.zero t) dirs := by
  have hdir : ∀ e d, dirs e = some d → (m.zero t).phys d = m.phys d := by
    intro e d hd
    refine Mem.phys_zero_of_ne m ?_
    rintro rfl
    exact ht.2 e hd
  refine ⟨⟨h.dir, h.head, h.link, fun e d i t' hd hi ht' ↦ ?_,
      fun e d i t' j p hd hi ht' hj hp ↦ ?_⟩, Mem.phys_zero_of_ne m (M.ne_kern ht.1).symm,
    fun e d i hd _ ↦ by rw [hdir e d hd], fun e d i hd _ ↦ .inl (by rw [hdir e d hd])⟩
  · rw [tableOf, hdir e d hd] at ht'
    exact h.table e d i t' hd hi ht'
  · rw [tableOf, hdir e d hd] at ht'
    by_cases htt : t' = t
    · rw [htt, Mem.phys_zero_self] at hp
      cases hp.symm.trans entryFrame_zero
    · rw [Mem.phys_zero_of_ne m htt] at hp
      exact h.page e d i t' j p hd hi ht' hj hp

/-- Entering a table into a directory. -/
theorem enter (hd : dirs e = some d) (hi : i < NUPDE) (ht : t ∈ Common M dirs)
    (hempty : ∀ j, m.phys t j = 0) :
    Penned M (m.write d i (mkPte t (PTE_U ||| PTE_W))) dirs ∧
      DirsKept B m (m.write d i (mkPte t (PTE_U ||| PTE_W))) dirs := by
  have hw : entryFrame (mkPte t (PTE_U ||| PTE_W)) = some t :=
    entryFrame_mkPte (M.lt_two_pow ht.1) (by decide)
  have hother : ∀ x, x ∈ Common M dirs →
      (m.write d i (mkPte t (PTE_U ||| PTE_W))).phys x = m.phys x := by
    intro x hx
    refine Mem.phys_write_of_ne_frame m i _ ?_
    rintro rfl
    exact hx.2 e hd
  -- an entry of a directory is the new one, or as before
  have hcase : ∀ d' i', (m.write d i (mkPte t (PTE_U ||| PTE_W))).phys d' i' = m.phys d' i' ∨
      (d' = d ∧ i' = i) := by
    intro d' i'
    by_cases hdd : d' = d
    · by_cases hii : i' = i
      · exact .inr ⟨hdd, hii⟩
      · exact .inl (hdd ▸ Mem.phys_write_of_ne_index m d _ hii)
    · exact .inl (congrFun (Mem.phys_write_of_ne_frame m i _ hdd) i')
  have htab : ∀ e' d' i' t', dirs e' = some d' → i' < NUPDE →
      tableOf (m.write d i (mkPte t (PTE_U ||| PTE_W))) d' i' = some t' →
      t' = t ∨ tableOf m d' i' = some t' := by
    intro e' d' i' t' hd' hi' ht'
    rcases hcase d' i' with heq | ⟨rfl, rfl⟩
    · rw [tableOf, heq] at ht'
      exact .inr ht'
    · rw [tableOf, Mem.phys_write_self, hw] at ht'
      exact .inl (Option.some.inj ht').symm
  refine ⟨⟨h.dir, h.head, h.link, fun e' d' i' t' hd' hi' ht' ↦ ?_,
    fun e' d' i' t' j p hd' hi' ht' hj hp ↦ ?_⟩,
    Mem.phys_write_of_ne_frame m i _ (M.ne_kern (h.dir e d hd)).symm, fun e' d' i' hd' hi' ↦ ?_,
    fun e' d' i' hd' hi' ↦ ?_⟩
  · rcases htab e' d' i' t' hd' hi' ht' with rfl | ht'
    · exact ht
    · exact h.table e' d' i' t' hd' hi' ht'
  · rcases htab e' d' i' t' hd' hi' ht' with rfl | ht'
    · rw [hother t' ht, hempty j] at hp
      cases hp.symm.trans entryFrame_zero
    · rw [hother t' (h.table e' d' i' t' hd' hi' ht')] at hp
      exact h.page e' d' i' t' j p hd' hi' ht' hj hp
  · rcases hcase d' i' with heq | ⟨-, rfl⟩
    · exact heq
    · omega
  · rcases hcase d' i' with heq | ⟨rfl, rfl⟩
    · exact .inl heq
    · exact .inr (by rw [Mem.phys_write_self]; exact openPde_mkPte t)

/-- `page_alloc(ALLOC_ZERO)`. -/
theorem pageAlloc {o : Option ℕ} (hrun : Jos.pageAlloc B m true = some (o, m')) :
    Penned M m' dirs ∧ DirsKept B m m' dirs ∧
      ∀ p, o = some p → p ∈ Common M dirs ∧ ∀ j, m'.phys p j = 0 := by
  simp only [Jos.pageAlloc, if_true] at hrun
  split at hrun
  · obtain ⟨rfl, rfl⟩ := Prod.mk.inj (Option.some.inj hrun)
    refine ⟨h, .of_phys rfl, ?_⟩
    intro p hp
    cases hp
  · next p hp =>
      have hpC := h.head p hp
      rw [kaddr_page2pa hpC.1] at hrun
      obtain ⟨rfl, rfl⟩ := Prod.mk.inj (Option.some.inj hrun)
      obtain ⟨hz, hk⟩ := h.zero (B := B) hpC
      refine ⟨(hz.setFreeList (h.link p hpC)).setLink p ?_, hk.trans (.of_phys rfl), ?_⟩
      · intro q hq
        cases hq
      · intro q hq
        obtain rfl := Option.some.inj hq
        exact ⟨hpC, fun j ↦ Mem.phys_zero_self m p j⟩

variable (hd : dirs e = some d) (hva : va < UTOP)

include hd hva

/-- `pgdir_walk` at a user address. -/
theorem pgdirWalk {create : Bool} {o : Option (ℕ × ℕ)}
    (hrun : Jos.pgdirWalk B m d va create = some (o, m')) :
    Penned M m' dirs ∧ DirsKept B m m' dirs ∧
      ∀ t j, o = some (t, j) → j = ptx va ∧ tableOf m' d (pdx va) = some t := by
  have hi := pdx_lt_of_lt_UTOP hva
  simp only [Jos.pgdirWalk] at hrun
  split at hrun
  · next hP =>
      have ht := entryFrame_of_isSet hP
      rw [kaddr_pteAddr ht (h.table e d (pdx va) _ hd hi ht).1] at hrun
      obtain ⟨rfl, rfl⟩ := Prod.mk.inj (Option.some.inj hrun)
      refine ⟨h, .of_phys rfl, fun t j htj ↦ ?_⟩
      obtain ⟨rfl, rfl⟩ := Prod.mk.inj (Option.some.inj htj)
      exact ⟨rfl, ht⟩
  · split at hrun
    · simp only [Option.bind_eq_bind, Option.bind_eq_some_iff] at hrun
      obtain ⟨⟨pNew, m₁⟩, halloc, hrun⟩ := hrun
      obtain ⟨h₁, hk₁, hnew⟩ := h.pageAlloc halloc
      cases pNew with
      | none =>
          obtain ⟨rfl, rfl⟩ := Prod.mk.inj (Option.some.inj hrun)
          refine ⟨h₁, hk₁, ?_⟩
          intro t j htj
          cases htj
      | some pNew =>
          obtain ⟨hC, hzero⟩ := hnew pNew rfl
          simp only [kaddr_page2pa hC.1, mkPte_table, Option.bind_some, Option.pure_def,
            Option.some.injEq, Prod.mk.injEq] at hrun
          obtain ⟨rfl, rfl⟩ := hrun
          obtain ⟨h₂, hk₂⟩ := (h₁.setRef pNew (m₁.ref pNew + 1)).enter (B := B) hd hi hC hzero
          have hk₁' : DirsKept B m₁ (m₁.setRef pNew (m₁.ref pNew + 1)) dirs := .of_phys rfl
          refine ⟨h₂, hk₁.trans (hk₁'.trans hk₂), fun t j htj ↦ ?_⟩
          obtain ⟨rfl, rfl⟩ := Prod.mk.inj (Option.some.inj htj)
          refine ⟨rfl, ?_⟩
          rw [tableOf, Mem.phys_write_self]
          exact entryFrame_mkPte (M.lt_two_pow hC.1) (by decide)
    · obtain ⟨rfl, rfl⟩ := Prod.mk.inj (Option.some.inj hrun)
      refine ⟨h, .of_phys rfl, ?_⟩
      intro t j htj
      cases htj

/-- `page_remove` at a user address. -/
theorem pageRemove (hrun : Jos.pageRemove B m d va = some m') :
    Penned M m' dirs ∧ DirsKept B m m' dirs := by
  have hi := pdx_lt_of_lt_UTOP hva
  simp only [Jos.pageRemove, Option.bind_eq_bind, Option.bind_eq_some_iff] at hrun
  obtain ⟨found, hlook, hrun⟩ := hrun
  rcases found with _ | ⟨got, t, j⟩
  · obtain rfl := Option.some.inj hrun
    exact ⟨h, .of_phys rfl⟩
  · next =>
      obtain ⟨ht, rfl, hgot⟩ := pageLookup_found hlook
      have htC := h.table e d (pdx va) t hd hi ht
      have hgotC := h.page e d (pdx va) t (ptx va) got hd hi ht (ptx_lt va) hgot
      simp only [(isSet_of_entryFrame hgot).1, if_true, Option.bind_eq_some_iff] at hrun
      obtain ⟨m₁, hdec, hrun⟩ := hrun
      obtain rfl := Option.some.inj hrun
      obtain ⟨h₁, hphys⟩ := h.pageDecref hgotC hdec
      obtain ⟨h₂, hk₂⟩ := h₁.write (B := B) htC (ptx va) (w := 0)
        fun p hp ↦ absurd (hp.symm.trans entryFrame_zero) (Option.some_ne_none p)
      exact ⟨h₂.of_same rfl rfl rfl, (DirsKept.of_phys hphys).trans (hk₂.trans (.of_phys rfl))⟩

/-- `page_insert` at a user address. -/
theorem pageInsert {pp : ℕ} (hpp : pp ∈ Common M dirs) {perm r : Word} (hperm : perm.toNat < 4096)
    (hrun : Jos.pageInsert B m d pp va perm = some (r, m')) :
    Penned M m' dirs ∧ DirsKept B m m' dirs := by
  have hi := pdx_lt_of_lt_UTOP hva
  simp only [Jos.pageInsert, Option.bind_eq_bind, Option.bind_eq_some_iff] at hrun
  obtain ⟨⟨pte, m₁⟩, hwalk, hrun⟩ := hrun
  obtain ⟨h₁, hk₁, hpte⟩ := h.pgdirWalk hd hva hwalk
  rcases pte with _ | ⟨t, j⟩
  · obtain ⟨-, rfl⟩ := Prod.mk.inj (Option.some.inj hrun)
    exact ⟨h₁, hk₁⟩
  · next =>
      obtain ⟨rfl, ht⟩ := hpte t j rfl
      have h₁' := h₁.setRef pp (m₁.ref pp + 1)
      have hk₁' : DirsKept B m₁ (m₁.setRef pp (m₁.ref pp + 1)) dirs := .of_phys rfl
      obtain ⟨m₂, ⟨h₂, hk₂⟩, rfl⟩ : ∃ m₂, (Penned M m₂ dirs ∧ DirsKept B m₁ m₂ dirs) ∧
          m' = m₂.write t (ptx va) (mkPte pp perm) := by
        dsimp only at hrun
        split at hrun
        · obtain ⟨m₂, hrem, hrun⟩ := Option.bind_eq_some_iff.mp hrun
          obtain ⟨h₂, hk₂⟩ := h₁'.pageRemove hd hva hrem
          exact ⟨m₂, ⟨h₂, hk₁'.trans hk₂⟩, (Prod.mk.inj (Option.some.inj hrun)).2.symm⟩
        · exact ⟨_, ⟨h₁', hk₁'⟩, (Prod.mk.inj (Option.some.inj hrun)).2.symm⟩
      obtain ⟨h₃, hk₃⟩ := h₂.write (B := B) (h₁.table e d (pdx va) t hd hi ht) (ptx va)
        (w := mkPte pp perm) fun p hp ↦ by
          rw [entryFrame_mkPte (M.lt_two_pow hpp.1) hperm] at hp
          exact Option.some.inj hp ▸ hpp
      exact ⟨h₃, (hk₁.trans hk₂).trans hk₃⟩

end Penned

/-! ## Any number of calls -/

/-- A call at a user address; a page to be inserted is of the allocator, and no directory. -/
def MapOp.Common (M : Pool B) (dirs : ι → Option ℕ) : MapOp ι → Prop
  | .insert _ pp va perm => va < UTOP ∧ perm.toNat < 4096 ∧ pp ∈ Jos.Common M dirs
  | .remove _ va => va < UTOP
  | .lookup _ va => va < UTOP

/-- Calls of `page_insert`, `page_remove` and `page_lookup` on a family of directories, of any
number and in any order. -/
def PageOps (M : Pool B) (dirs : ι → Option ℕ) : Mem → Mem → Prop :=
  Relation.ReflTransGen fun m m' ↦
    ∃ (op : MapOp ι) (r : MapResult), op.Common M dirs ∧ op.exec B dirs m = some (r, m')

theorem Penned.exec (h : Penned M m dirs) {op : MapOp ι} {r : MapResult} (hop : op.Common M dirs)
    (hrun : op.exec B dirs m = some (r, m')) : Penned M m' dirs ∧ DirsKept B m m' dirs := by
  cases op with
  | insert e pp va perm =>
      obtain ⟨hva, hperm, hpp⟩ := hop
      simp only [MapOp.exec, Option.bind_eq_bind, Option.bind_eq_some_iff] at hrun
      obtain ⟨d, hd, ⟨r', m₁⟩, hins, hrun⟩ := hrun
      obtain ⟨-, rfl⟩ := Prod.mk.inj (Option.some.inj hrun)
      exact h.pageInsert hd hva hpp hperm hins
  | remove e va =>
      simp only [MapOp.exec, Option.bind_eq_bind, Option.bind_eq_some_iff] at hrun
      obtain ⟨d, hd, m₁, hrem, hrun⟩ := hrun
      obtain ⟨-, rfl⟩ := Prod.mk.inj (Option.some.inj hrun)
      exact h.pageRemove hd hop hrem
  | lookup e va =>
      simp only [MapOp.exec, Option.bind_eq_bind, Option.bind_eq_some_iff] at hrun
      obtain ⟨d, hd, found, hlook, hrun⟩ := hrun
      obtain rfl : m' = m := by
        split at hrun
        · exact (Prod.mk.inj (Option.some.inj hrun)).2.symm
        · exact (Prod.mk.inj (Option.some.inj hrun)).2.symm
      exact ⟨h, .of_phys rfl⟩

theorem PageOps.kept (run : PageOps M dirs m m') (h : Penned M m dirs) :
    Penned M m' dirs ∧ DirsKept B m m' dirs := by
  induction run with
  | refl => exact ⟨h, .of_phys rfl⟩
  | tail _ hstep ih =>
      obtain ⟨op, r, hop, hrun⟩ := hstep
      obtain ⟨h₁, hk₁⟩ := ih
      obtain ⟨h₂, hk₂⟩ := h₁.exec hop hrun
      exact ⟨h₂, hk₁.trans hk₂⟩

/-- The memory ownership invariant is a place to start from. -/
theorem Own.penned [Fintype ι] [DecidableEq ι] {loose : Set ℕ} {l : List ℕ}
    (h : Own B M m dirs loose l) : Penned M m dirs := by
  have hlist : ∀ p ∈ l, p ∈ Common M dirs := fun p hp ↦
    ⟨h.list_sub hp, fun e hd ↦ (h.inert_of_mem_list hp).ne_dir hd rfl⟩
  refine ⟨fun e d hd ↦ h.dir_mem hd, fun p hp ↦ ?_, fun p hp q hq ↦ ?_, fun e d i t hd hi ht ↦ ?_,
    fun e d i t j p hd hi ht hj hp ↦ ?_⟩
  · have hchain := h.ledger.chain
    rw [hp] at hchain
    obtain ⟨t, rfl, -⟩ := hchain.pop
    exact hlist p List.mem_cons_self
  · have hpl : p ∈ l := by
      by_contra hpl
      cases (h.ledger.next_none p hp.1 hpl).symm.trans hq
    exact hlist q (h.ledger.chain.next_mem hpl hq)
  · exact ⟨h.table_mem hd hi ht, fun e' hd' ↦ h.table_ne_dir hd hi ht hd' rfl⟩
  · have hv := vpn_lt_NUPG hi hj
    have hpte : entryFrame (pteOf m d (i * 1024 + j)) = some p := by
      rw [pteOf_of_table (t := t) (by rw [show (i * 1024 + j) / 1024 = i by omega]; exact ht),
        show (i * 1024 + j) % 1024 = j by omega]
      exact hp
    exact ⟨h.page_mem hd hv hpte, fun e' hd' ↦ (h.unstructured_of_page hd hv hpte).ne_dir hd' rfl⟩

end Jos
