import Jos.Kern.PmapSpec

/-!
# `page_remove` and `page_insert`

Both end in one store into a page table, and both reach it with the counters and the free list
already moved: `page_insert` counts the new reference before it removes the old one, and
`page_remove` gives the page back before it clears the entry.  `Own.store` is the common part: a
memory whose allocator represents the counts *after* the store is owned after the store.

`Remapped` says what such an operation did: it changed one translation, the count of the page
mapped before and of the page mapped after, and nothing of the kernel's half.
-/

namespace Jos

open Jos.Lib

variable {ι : Type} [Fintype ι] [DecidableEq ι] {B : Machine} {M : Pool B} {m m' m'' : Mem}
  {dirs : ι → Option ℕ} {loose : Set ℕ} {l l' l'' : List ℕ}

/-- From `m` to `m'` the translation of page number `v` of `e` became `o`. -/
structure Remapped (B : Machine) (m m' : Mem) (dirs : ι → Option ℕ) (l l' : List ℕ) (e : ι)
    (v : Fin NUPG) (o : Option (ℕ × Word)) : Prop where
  translate : ∀ e' d' v', dirs e' = some d' → v' < NUPG →
    translate m' d' v' = if e' = e ∧ v' = v then o else translate m d' v'
  owners : ∀ x, x ∉ l → owners (target B m' dirs) x =
    (owners (target B m dirs) x - if target B m dirs (.page e v) = some x then 1 else 0) +
      if o.map Prod.fst = some x then 1 else 0
  fresh : ∀ x ∈ l, Jos.Lib.owners (target B m' dirs) x ≤ 1
  frame : Frame m m' dirs l
  list : ∀ x ∈ l', x ∈ l ∨ target B m dirs (.page e v) = some x

/-- `page_remove` takes a translation away, and nothing else. -/
structure Unmapped (B : Machine) (m m' : Mem) (dirs : ι → Option ℕ) (l l' : List ℕ) (e : ι)
    (v : Fin NUPG) : Prop extends Remapped B m m' dirs l l' e v none where
  dir : ∀ e' d', dirs e' = some d' → m'.phys d' = m.phys d'
  list_sub : ∀ x ∈ l, x ∈ l'

theorem pgnum_div (va : Word) : pgnum va / 1024 = pdx va := by
  have := ptx_lt va
  rw [pgnum_eq_pdx_ptx]
  omega

theorem pgnum_mod (va : Word) : pgnum va % 1024 = ptx va := by
  have := ptx_lt va
  rw [pgnum_eq_pdx_ptx]
  omega

/-- `page_decref` touches the page it is called for, and the free list. -/
theorem pageDecref_frame {q : ℕ} (h : pageDecref m q = some m') :
    m'.phys = m.phys ∧ ∀ p, p ≠ q → m'.ref p = m.ref p := by
  have href : ∀ p, p ≠ q → (m.setRef q (m.ref q - 1)).ref p = m.ref p := by
    intro p hp
    rw [Mem.ref_setRef, Function.update_of_ne hp]
  simp only [pageDecref, pageFree] at h
  split at h
  · split at h
    · cases h
    · obtain rfl := Option.some.inj h
      exact ⟨rfl, fun p hp ↦ by simpa using href p hp⟩
  · obtain rfl := Option.some.inj h
    exact ⟨rfl, href⟩

/-- What `page_lookup` finds. -/
theorem pageLookup_found {d got t j : ℕ} {va : Word}
    (h : pageLookup B m d va = some (some (got, t, j))) :
    tableOf m d (pdx va) = some t ∧ j = ptx va ∧ entryFrame (m.phys t j) = some got := by
  simp only [pageLookup, Option.bind_eq_bind, Option.bind_eq_some_iff, Prod.exists] at h
  obtain ⟨pp, m₁, hwalk, h⟩ := h
  simp only [pgdirWalk, Bool.false_eq_true, if_false] at hwalk
  split at hwalk
  swap
  · obtain ⟨rfl, rfl⟩ := Prod.mk.inj (Option.some.inj hwalk)
    cases h
  next hpde =>
  simp only [Option.bind_eq_bind, Option.bind_eq_some_iff, kaddr] at hwalk
  obtain ⟨holder, hk, hwalk⟩ := hwalk
  split at hk
  · cases hk
  obtain rfl := Option.some.inj hk
  obtain ⟨rfl, rfl⟩ := Prod.mk.inj (Option.some.inj hwalk)
  dsimp only at h
  split at h
  · cases h
  next hpte =>
  simp only [Option.bind_eq_some_iff, Option.pure_def, Option.some.injEq, Prod.mk.injEq, pa2page,
    Option.ite_none_left_eq_some] at h
  obtain ⟨pg, ⟨-, rfl⟩, rfl, rfl, rfl⟩ := h
  exact ⟨entryFrame_of_isSet hpde, rfl, entryFrame_of_isSet (not_not.mp hpte)⟩

/-- `page_remove` touches the table of `va` and the page that was mapped there. -/
theorem pageRemove_frame {d : ℕ} {va : Word} (h : pageRemove B m d va = some m') :
    (∀ x, tableOf m d (pdx va) ≠ some x → m'.phys x = m.phys x) ∧
      ∀ p, entryFrame (pteOf m d (pgnum va)) ≠ some p → m'.ref p = m.ref p := by
  simp only [pageRemove, Option.bind_eq_bind, Option.bind_eq_some_iff] at h
  obtain ⟨found, hlook, h⟩ := h
  split at h
  · obtain rfl := Option.some.inj h
    exact ⟨fun _ _ ↦ rfl, fun _ _ ↦ rfl⟩
  · next got t j =>
      split at h
      swap
      · obtain rfl := Option.some.inj h
        exact ⟨fun _ _ ↦ rfl, fun _ _ ↦ rfl⟩
      simp only [Option.bind_eq_some_iff, Option.pure_def, Option.some.injEq] at h
      obtain ⟨m₁, hdec, rfl⟩ := h
      obtain ⟨hphys, href⟩ := pageDecref_frame hdec
      obtain ⟨htab, rfl, hgot⟩ := pageLookup_found hlook
      refine ⟨fun x hx ↦ ?_, fun p hp ↦ href p ?_⟩
      · have hxt : x ≠ t := by
          rintro rfl
          exact hx htab
        exact (Mem.phys_write_of_ne_frame m₁ _ _ hxt).trans (congrFun hphys x)
      · rintro rfl
        rw [pteOf_of_table (by rw [pgnum_div]; exact htab), pgnum_mod] at hp
        exact hp hgot

/-- `page_insert` fails only where `pgdir_walk` does. -/
theorem pageInsert_cases {d p : ℕ} {va perm w : Word}
    (h : pageInsert B m d p va perm = some (w, m')) :
    (w = -E_NO_MEM ∧ pgdirWalk B m d va true = some (none, m')) ∨ w = 0 := by
  simp only [pageInsert, Option.bind_eq_bind, Option.bind_eq_some_iff, Prod.exists] at h
  obtain ⟨pte, m₁, hwalk, h⟩ := h
  cases pte with
  | none =>
      obtain ⟨rfl, rfl⟩ := Prod.mk.inj (Option.some.inj h)
      exact .inl ⟨rfl, hwalk⟩
  | some x =>
      right
      dsimp only at h
      split at h
      all_goals
        obtain ⟨m₂, -, h⟩ := Option.bind_eq_some_iff.mp h
        exact (Prod.mk.inj (Option.some.inj h)).1.symm

namespace Own

variable (h : Own B M m dirs loose l) {e : ι} {d i t j : ℕ} (hd : dirs e = some d)
  (hi : i < NUPDE) (ht : tableOf m d i = some t) (hj : j < 1024) {w : Word}

include h hd hi ht

/-- The store that ends `page_insert` and `page_remove`. -/
theorem store {loose' : Set ℕ}
    (hphys : m'.phys = (m.write t j w).phys)
    (hw : ∀ p, entryFrame w = some p → p ∈ M.carrier ∧ Unstructured B m dirs p)
    (hled : Ledger M.carrier m'.link m'.pageFreeList m'.ref (owners (Function.update
      (target B m dirs) (.page e ⟨i * 1024 + j, vpn_lt_NUPG hi hj⟩) (entryFrame w))) loose' l') :
    Own B M m' dirs loose' l' := by
  have htar : target B m' dirs = Function.update (target B m dirs)
      (.page e ⟨i * 1024 + j, vpn_lt_NUPG hi hj⟩) (entryFrame w) := by
    rw [target_congr hphys, target_write_pte h hd hi ht j w hj]
  refine ⟨?_, ?_, ?_⟩
  · rw [htar]
    exact hled
  · intro k p hk
    rw [htar] at hk
    by_cases hc : k = .page e ⟨i * 1024 + j, vpn_lt_NUPG hi hj⟩
    · rw [hc, Function.update_self] at hk
      exact (hw p hk).1
    · rw [Function.update_of_ne hc] at hk
      exact h.valid k p hk
  · rw [htar]
    cases hf : entryFrame w with
    | none => exact h.excl.clear _
    | some p => exact h.excl.replace (Key.page_not_structural e _) (hw p hf).2

theorem remapped_store (hphys : m'.phys = (m.write t j w).phys)
    (hlist : ∀ x ∈ l', x ∈ l ∨
      target B m dirs (.page e ⟨i * 1024 + j, vpn_lt_NUPG hi hj⟩) = some x) :
    Remapped B m m' dirs l l' e ⟨i * 1024 + j, vpn_lt_NUPG hi hj⟩ (entry w) := by
  have howners : ∀ x, owners (target B m' dirs) x = (owners (target B m dirs) x -
      if target B m dirs (.page e ⟨i * 1024 + j, vpn_lt_NUPG hi hj⟩) = some x then 1 else 0) +
      if (entry w).map Prod.fst = some x then 1 else 0 := fun x ↦ by
    rw [target_congr hphys, target_write_pte h hd hi ht j w hj, ← entryFrame_eq, owners_replace]
  refine ⟨fun e' d' v' hd' hv' ↦ ?_, fun x _ ↦ howners x, fun x hx ↦ ?_,
    ⟨fun x _ hdirs htabs ↦ ?_, fun e' d' hd' i' hi' ↦ ?_, fun e' d' i' t' hd' hi' ht' ↦ ?_,
      fun e' d' i' hd' _ ↦ .inl ?_⟩, hlist⟩
  · rw [Jos.translate, pteOf_congr hphys, pteOf_write_pte h hd hi ht j w hd' hv' hj]
    split <;> rfl
  · rw [howners, h.owners_of_mem_list hx, Nat.zero_sub, Nat.zero_add]
    split <;> decide
  · rw [hphys, m.phys_write_of_ne_frame j w (htabs e d i t hd hi ht).symm]
  · rw [hphys, m.phys_write_of_ne_frame j w (h.table_ne_dir hd hi ht hd')]
  · rw [tableOf_congr hphys, tableOf_write_pte h hd hi ht j w hd'] at ht'
    exact .inr ht'
  · rw [hphys, m.phys_write_of_ne_frame j w (h.table_ne_dir hd hi ht hd')]

end Own

/-- The page number of a user address. -/
def upn {va : Word} (hva : va < UTOP) : Fin NUPG := ⟨pgnum va, pgnum_lt_of_lt_UTOP hva⟩

theorem upn_eq {va : Word} (hva : va < UTOP) :
    (⟨pdx va * 1024 + ptx va, vpn_lt_NUPG (pdx_lt_of_lt_UTOP hva) (ptx_lt va)⟩ : Fin NUPG) =
      upn hva := Fin.ext (pgnum_eq_pdx_ptx va).symm

/-- `page_lookup` reads physical memory only. -/
theorem pageLookup_congr (hphys : m'.phys = m.phys) (d : ℕ) (va : Word) :
    pageLookup B m' d va = pageLookup B m d va := by
  simp only [pageLookup, pgdirWalk, hphys]
  split
  · cases kaddr B (pteAddr (m.phys d (pdx va))) <;> rfl
  · rfl

/-- The list after a page lost one of its `n` references. -/
def released (l : List ℕ) (q n : ℕ) : List ℕ := if n = 1 then q :: l else l

theorem mem_released {l : List ℕ} {q n x : ℕ} (hx : x ∈ released l q n) : x ∈ l ∨ q = x := by
  rw [released] at hx
  split at hx
  · rcases List.mem_cons.mp hx with rfl | hx
    · exact .inr rfl
    · exact .inl hx
  · exact .inl hx

/-- The list after `p` took the place of the page that was mapped there. -/
def replaced (B : Machine) (m : Mem) (dirs : ι → Option ℕ) (l : List ℕ) (e : ι) (v : Fin NUPG)
    (p : ℕ) : List ℕ :=
  match target B m dirs (.page e v) with
  | none => l
  | some q => if q = p then l else released l q (owners (target B m dirs) q)

omit [DecidableEq ι] in
theorem length_le_replaced {e : ι} {v : Fin NUPG} {p : ℕ} :
    l.length ≤ (replaced B m dirs l e v p).length := by
  rw [replaced]
  split
  · exact le_rfl
  · rw [released]
    split
    · exact le_rfl
    · split
      · exact Nat.le_succ _
      · exact le_rfl

/-- Entering a table first does not show in what an operation did. -/
theorem Remapped.of_tabled {e : ι} {v : Fin NUPG} {o : Option (ℕ × Word)}
    (h : Tabled B m m' dirs l) (h' : Remapped B m' m'' dirs l' l'' e v o)
    (hl : ∀ x ∈ l', x ∈ l)
    (ho : ∀ x ∈ l, o.map Prod.fst = some x → Jos.Lib.owners (target B m' dirs) x = 0) :
    Remapped B m m'' dirs l l'' e v o where
  translate e' d' v' hd' hv' := by
    rw [h'.translate e' d' v' hd' hv', Jos.translate, h.pte hd' hv']
    rfl
  owners x hx := by
    rw [h'.owners x fun hc ↦ hx (hl x hc), h.owners hx, h.target_page]
  fresh x hx := by
    by_cases hx' : x ∈ l'
    · exact h'.fresh x hx'
    · rw [h'.owners x hx']
      by_cases hox : o.map Prod.fst = some x
      · rw [ho x hx hox]
        simp [hox]
      · have := h.fresh x hx
        simp only [hox, if_false]
        omega
  frame := h.frame.trans h'.frame hl
  list x hx := by
    rcases h'.list x hx with hc | hc
    · exact .inl (hl x hc)
    · exact .inr (by rwa [h.target_page] at hc)

namespace Own

variable (h : Own B M m dirs loose l) {e : ι} {d : ℕ} (hd : dirs e = some d) {va : Word}
  (hva : va < UTOP)

include h hd

/-- `page_remove` of a mapped page, in a memory that has the tables of `m` but may have counted
a reference already. -/
theorem pageRemove_mapped {q : ℕ} (hq : target B m dirs (.page e (upn hva)) = some q)
    {tot : ℕ → ℕ} {loose' : Set ℕ} (hphys : m'.phys = m.phys)
    (hled : Ledger M.carrier m'.link m'.pageFreeList m'.ref tot loose' l) (hpos : 0 < tot q)
    (hle : tot q ≤ 2 ^ 16) :
    ∃ m'' t, tableOf m d (pdx va) = some t ∧ pageRemove B m' d va = some m'' ∧
      m''.phys = (m.write t (ptx va) 0).phys ∧
      Ledger M.carrier m''.link m''.pageFreeList m''.ref (Function.update tot q (tot q - 1)) loose'
        (released l q (tot q)) := by
  have hqe : entryFrame (pteOf m d (pgnum va)) = some q := by
    rwa [upn, target_page hd] at hq
  have hqM := h.page_mem hd (pgnum_lt_of_lt_UTOP hva) hqe
  rcases h.pageLookup_eq hd hva with ⟨hnone, -⟩ | ⟨q', t, hq', htab, hword, hlook⟩
  · rw [hqe] at hnone
    cases hnone
  obtain rfl : q = q' := Option.some.inj (hqe.symm.trans hq')
  obtain ⟨m1, hdec, hphys1, hled1⟩ := pageDecref_spec hled hqM hpos hle
  have hP : isSet (m'.phys t (ptx va)) PTE_P := by
    rw [hphys, hword]
    exact (isSet_of_entryFrame hqe).1
  refine ⟨tlbInvalidate (m1.write t (ptx va) 0) d va, t, htab, ?_, ?_, hled1⟩
  · simp [pageRemove, pageLookup_congr hphys, hlook, hP, hdec]
  · simp [tlbInvalidate, Mem.write, hphys1, hphys]

/-- `page_remove` deletes the translation of `va`, and frees the page with its last
reference. -/
theorem pageRemove_spec
    (hle : ∀ q, target B m dirs (.page e (upn hva)) = some q →
      owners (target B m dirs) q ≤ 2 ^ 16) :
    ∃ m' l', pageRemove B m d va = some m' ∧ Own B M m' dirs loose l' ∧
      Unmapped B m m' dirs l l' e (upn hva) ∧
      ∀ q, target B m dirs (.page e (upn hva)) = some q →
        l' = released l q (owners (target B m dirs) q) := by
  have hi := pdx_lt_of_lt_UTOP hva
  have hj := ptx_lt va
  cases hq : target B m dirs (.page e (upn hva)) with
  | none =>
      have hqe : entryFrame (pteOf m d (pgnum va)) = none := by
        rwa [upn, target_page hd] at hq
      rcases h.pageLookup_eq hd hva with ⟨-, hlook⟩ | ⟨q', t, hq', -⟩
      · refine ⟨m, l, by simp [pageRemove, hlook], h, ⟨⟨fun e' d' v' hd' hv' ↦ ?_, fun x _ ↦ ?_,
          h.tabled_refl.fresh, Frame.refl m dirs l, fun x hx ↦ .inl hx⟩, fun _ _ _ ↦ rfl,
          fun _ hx ↦ hx⟩, by simp⟩
        · split
          · next hc =>
              obtain ⟨rfl, rfl⟩ := hc
              obtain rfl : d = d' := Option.some.inj (hd.symm.trans hd')
              exact entry_eq_none.mpr (entryFrame_eq_none.mp hqe)
          · rfl
        · simp [hq]
      · rw [hqe] at hq'
        cases hq'
  | some q =>
      obtain ⟨m', t, htab, hrem, hphys, hled⟩ :=
        h.pageRemove_mapped hd hva hq rfl h.ledger (owners_pos hq) (hle q hq)
      have howners : owners (Function.update (target B m dirs) (.page e (upn hva)) none) =
          Function.update (owners (target B m dirs)) q (owners (target B m dirs) q - 1) := by
        funext x
        rw [owners_clear hq]
        by_cases hx : x = q
        · subst hx; simp
        · simp [hx]
      refine ⟨m', released l q (owners (target B m dirs) q), hrem, ?_, ?_, fun q' hq' ↦ by
        rw [Option.some.inj hq']⟩
      · refine h.store hd hi htab hj hphys (by simp) ?_
        rw [upn_eq hva, show entryFrame 0 = none from entryFrame_zero, howners]
        exact hled
      · have hlist : ∀ x ∈ released l q (owners (target B m dirs) q), x ∈ l ∨
            target B m dirs (.page e ⟨pdx va * 1024 + ptx va, vpn_lt_NUPG hi hj⟩) = some x := by
          intro x hx
          rw [upn_eq hva, hq]
          exact (mem_released hx).imp_right (congrArg some)
        have hre := h.remapped_store hd hi htab hj hphys hlist
        rw [upn_eq hva, show entry 0 = none from entry_zero] at hre
        refine ⟨hre, fun e' d' hd' ↦ ?_, fun x hx ↦ ?_⟩
        · rw [hphys, m.phys_write_of_ne_frame _ _ (h.table_ne_dir hd hi htab hd')]
        · rw [released]
          split
          · exact List.mem_cons_of_mem q hx
          · exact hx

/-- `page_insert` in a memory where the table is there. -/
theorem pageInsert_tabled {p t : ℕ} (htab : tableOf m d (pdx va) = some t)
    (hpM : p ∈ M.carrier) (hpl : p ∉ l) (hpu : Unstructured B m dirs p) {perm : Word}
    (hperm : perm.toNat < 4096)
    (hle : ∀ q, target B m dirs (.page e (upn hva)) = some q →
      owners (target B m dirs) q < 2 ^ 16)
    (hwalk : pgdirWalk B m'' d va true = some (some (t, ptx va), m)) :
    ∃ m' l', pageInsert B m'' d p va perm = some (0, m') ∧ Own B M m' dirs (loose \ {p}) l' ∧
      Remapped B m m' dirs l l' e (upn hva) (some (p, perm ||| PTE_P)) ∧
      l' = replaced B m dirs l e (upn hva) p := by
  have hi := pdx_lt_of_lt_UTOP hva
  have hj := ptx_lt va
  have hp20 := M.lt_two_pow hpM
  have hkey : target B m dirs (.page e (upn hva)) = entryFrame (m.phys t (ptx va)) := by
    rw [upn, target_page hd, pteOf_of_table (by rw [pgnum_div]; exact htab), pgnum_mod]
  have hinc : Ledger M.carrier (m.setRef p (m.ref p + 1)).link
      (m.setRef p (m.ref p + 1)).pageFreeList (m.setRef p (m.ref p + 1)).ref
      (Function.update (owners (target B m dirs)) p (owners (target B m dirs) p + 1))
      (loose \ {p}) l := by
    simpa using h.ledger.inc hpM hpl
  -- it is enough to reach the store with the right counts
  suffices hs : ∃ m1 l' tot,
      (if isSet (m.phys t (ptx va)) PTE_P then pageRemove B (m.setRef p (m.ref p + 1)) d va
        else some (m.setRef p (m.ref p + 1))) = some m1 ∧
      (m1.write t (ptx va) (mkPte p perm)).phys = (m.write t (ptx va) (mkPte p perm)).phys ∧
      Ledger M.carrier m1.link m1.pageFreeList m1.ref tot (loose \ {p}) l' ∧
      (∀ x, tot x = owners (Function.update (target B m dirs) (.page e (upn hva)) (some p)) x) ∧
      (∀ x ∈ l', x ∈ l ∨ target B m dirs (.page e (upn hva)) = some x) ∧
      l' = replaced B m dirs l e (upn hva) p by
    obtain ⟨m1, l', tot, hrun, hphys, hled, htot, hlist, hlen⟩ := hs
    have hfr := entryFrame_mkPte hp20 hperm
    refine ⟨m1.write t (ptx va) (mkPte p perm), l', ?_, ?_, ?_, hlen⟩
    · by_cases hP : isSet (m.phys t (ptx va)) PTE_P
      · rw [if_pos hP, show (1 : BitVec 16) = 1#16 from rfl] at hrun
        simp [pageInsert, hwalk, hP, hrun, mkPte]
      · rw [if_neg hP] at hrun
        obtain rfl := Option.some.inj hrun
        simp [pageInsert, hwalk, hP, mkPte]
    · refine h.store hd hi htab hj hphys ?_ ?_
      · intro p' hp'
        rw [hfr] at hp'
        exact Option.some.inj hp' ▸ ⟨hpM, hpu⟩
      · rw [upn_eq hva, hfr, ← funext htot]
        exact hled
    · rw [← upn_eq hva] at hlist
      have := h.remapped_store hd hi htab hj hphys hlist
      rwa [upn_eq hva, entry_mkPte hp20 hperm] at this
  cases hq : target B m dirs (.page e (upn hva)) with
  | none =>
      have hP : ¬ isSet (m.phys t (ptx va)) PTE_P := by
        rw [← entryFrame_eq_none, ← hkey, hq]
      refine ⟨m.setRef p (m.ref p + 1), l, _, if_neg hP, rfl, hinc, fun x ↦ ?_,
        fun x hx ↦ .inl hx, by rw [replaced, hq]⟩
      rw [owners_set hq]
      by_cases hx : x = p
      · subst hx; simp
      · simp [hx]
  | some q =>
      have hP : isSet (m.phys t (ptx va)) PTE_P := by
        rw [hkey] at hq
        exact (isSet_of_entryFrame hq).1
      have hpos := owners_pos hq
      have hlt := hle q hq
      -- the counter of `p` has moved already, and `p` may be the page that is replaced
      have hphys0 : (m.setRef p (m.ref p + 1)).phys = m.phys := rfl
      obtain ⟨m1, t', htab', hrem, hphys1, hled1⟩ := h.pageRemove_mapped hd hva hq hphys0 hinc
        (by by_cases hqp : q = p
            · subst hqp; simp
            · simpa [hqp] using hpos)
        (by by_cases hqp : q = p
            · subst hqp; simp; omega
            · simp [hqp]; omega)
      obtain rfl : t = t' := Option.some.inj (htab.symm.trans htab')
      refine ⟨m1, _, _, (if_pos hP).trans hrem, ?_, hled1, fun x ↦ ?_, fun x hx ↦
        (mem_released hx).imp_right (congrArg some), ?_⟩
      · simp [Mem.write, hphys1]
      · rw [owners_replace, hq]
        by_cases hqp : q = p
        · subst hqp
          by_cases hx : x = q
          · subst hx; simp; omega
          · simp [hx, Ne.symm hx]
        · by_cases hx : x = q
          · subst hx; simp [hqp, Ne.symm hqp]
          · by_cases hxp : x = p
            · subst hxp; simp [hx, Ne.symm hx]
            · simp [hx, hxp, Ne.symm hx, Ne.symm hxp]
      · rw [replaced, hq]
        by_cases hqp : q = p
        · subst hqp
          simp [released, hpos.ne']
        · simp [hqp]

/-- `page_insert` maps the page, unless it needs a table and there is no free page; then it
changes nothing.  What becomes of the free list is known exactly. -/
theorem pageInsert_exact {p : ℕ} (hpM : p ∈ M.carrier) (hpl : p ∉ l)
    (hpu : Unstructured B m dirs p) {perm : Word} (hperm : perm.toNat < 4096)
    (hle : ∀ q, target B m dirs (.page e (upn hva)) = some q →
      owners (target B m dirs) q < 2 ^ 16) :
    (tableOf m d (pdx va) = none ∧ l = [] ∧
      pageInsert B m d p va perm = some (-E_NO_MEM, m)) ∨
    ∃ m' l', pageInsert B m d p va perm = some (0, m') ∧ Own B M m' dirs (loose \ {p}) l' ∧
      Remapped B m m' dirs l l' e (upn hva) (some (p, perm ||| PTE_P)) ∧
      (tableOf m d (pdx va) = none ∧ (∃ t, l = t :: l') ∨
        tableOf m d (pdx va) ≠ none ∧ l' = replaced B m dirs l e (upn hva) p) := by
  have hi := pdx_lt_of_lt_UTOP hva
  rcases h.pgdirWalk_create hd hi with ⟨htab, hl, hwalk⟩ | ⟨t, m1, l1, hwalk, htab, hown, hT, hc⟩
  · exact .inl ⟨htab, hl, by simp [pageInsert, hwalk]⟩
  · have hsub : ∀ x ∈ l1, x ∈ l := by
      rcases hc with ⟨-, rfl⟩ | ⟨-, -, rfl⟩
      · exact fun x hx ↦ List.mem_cons_of_mem _ hx
      · exact fun x hx ↦ hx
    obtain ⟨m', l', hins, hown', hre, hlist⟩ := hown.pageInsert_tabled hd hva htab hpM
      (fun hm ↦ hpl (hsub p hm)) (hT.unstructured hpl hpu) hperm (fun q hq ↦ by
        rw [hT.target_page] at hq
        have hql : q ∉ l := h.ledger.notMem_of_pos (owners_pos hq)
        rw [hT.owners hql]
        exact hle q hq) hwalk
    refine .inr ⟨m', l', hins, hown', hre.of_tabled hT hsub fun x hx hxp ↦ ?_, ?_⟩
    · obtain rfl : p = x := by simpa using hxp
      exact absurd hx hpl
    rcases hc with ⟨hnone, rfl⟩ | ⟨hne, rfl, rfl⟩
    · have hno : target B m dirs (.page e (upn hva)) = none := by
        rw [upn, target_page hd, pteOf_of_no_table (by rw [pgnum_div]; exact hnone)]
        exact entryFrame_zero
      rw [replaced, hT.target_page, hno] at hlist
      exact .inl ⟨hnone, t, by rw [hlist]⟩
    · exact .inr ⟨hne, hlist⟩

/-- `page_insert` maps the page, unless it needs a table and there is no free page; then it
changes nothing. -/
theorem pageInsert_spec {p : ℕ} (hpM : p ∈ M.carrier) (hpl : p ∉ l)
    (hpu : Unstructured B m dirs p) {perm : Word} (hperm : perm.toNat < 4096)
    (hle : ∀ q, target B m dirs (.page e (upn hva)) = some q →
      owners (target B m dirs) q < 2 ^ 16) :
    (tableOf m d (pdx va) = none ∧ l = [] ∧
      pageInsert B m d p va perm = some (-E_NO_MEM, m)) ∨
    ∃ m' l', pageInsert B m d p va perm = some (0, m') ∧ Own B M m' dirs (loose \ {p}) l' ∧
      Remapped B m m' dirs l l' e (upn hva) (some (p, perm ||| PTE_P)) ∧
      l.length ≤ l'.length + if tableOf m d (pdx va) = none then 1 else 0 := by
  rcases h.pageInsert_exact hd hva hpM hpl hpu hperm hle with hno | ⟨m', l', hins, hown, hre, hlist⟩
  · exact .inl hno
  · refine .inr ⟨m', l', hins, hown, hre, ?_⟩
    rcases hlist with ⟨hnone, t, rfl⟩ | ⟨hne, rfl⟩
    · rw [if_pos hnone, List.length_cons]
    · rw [if_neg hne]
      exact length_le_replaced

/-- The free list after a call of `page_insert` that mapped the page. -/
theorem pageInsert_list {p : ℕ} (hpM : p ∈ M.carrier) (hpl : p ∉ l)
    (hpu : Unstructured B m dirs p) {perm : Word} (hperm : perm.toNat < 4096)
    (hle : ∀ q, target B m dirs (.page e (upn hva)) = some q →
      owners (target B m dirs) q < 2 ^ 16)
    {loose' : Set ℕ} (hins : pageInsert B m d p va perm = some (0, m'))
    (hown' : Own B M m' dirs loose' l') :
    tableOf m d (pdx va) = none ∧ (∃ t, l = t :: l') ∨
      tableOf m d (pdx va) ≠ none ∧ l' = replaced B m dirs l e (upn hva) p := by
  rcases h.pageInsert_exact hd hva hpM hpl hpu hperm hle with
    ⟨-, -, hno⟩ | ⟨m₁, l₁, hins₁, hown₁, -, hlist⟩
  · have hr : -E_NO_MEM = 0 := congrArg Prod.fst (Option.some.inj (hno.symm.trans hins))
    exact absurd hr (by decide)
  · obtain ⟨-, rfl⟩ := Prod.mk.inj (Option.some.inj (hins₁.symm.trans hins))
    rwa [hown'.ledger.chain.unique hown₁.ledger.chain]

include hva in
/-- `pgdir_walk` changes one directory entry at most. -/
theorem pgdirWalk_dir {o : Option (ℕ × ℕ)} (hwalk : pgdirWalk B m d va true = some (o, m'))
    {i : ℕ} (hne : i ≠ pdx va) : m'.phys d i = m.phys d i := by
  have hi := pdx_lt_of_lt_UTOP hva
  cases hT : tableOf m d (pdx va) with
  | some t =>
      obtain ⟨-, rfl⟩ := Prod.mk.inj (Option.some.inj
        ((h.pgdirWalk_of_table hd hi hT true).symm.trans hwalk))
      rfl
  | none =>
      cases hl : l with
      | nil =>
          obtain ⟨-, rfl⟩ := Prod.mk.inj (Option.some.inj ((h.pgdirWalk_no_mem hT hl).symm.trans
            hwalk))
          rfl
      | cons t l' =>
          obtain ⟨-, rfl⟩ := Prod.mk.inj (Option.some.inj ((h.pgdirWalk_fresh_eq hT hl).symm.trans
            hwalk))
          have htd : d ≠ t := (h.unstructured_of_mem_list (hl ▸ List.mem_cons_self)).ne_dir hd
          calc (m.tabled d (pdx va) t).phys d i
              = (m.taken t).phys d i := Mem.phys_write_of_ne_index _ d _ hne
            _ = m.phys d i := congrFun (m.phys_zero_of_ne htd) i

include hva in
/-- `page_insert` adds one page table at most. -/
theorem tableOf_pageInsert {p : ℕ} {perm r : Word}
    (hins : pageInsert B m d p va perm = some (r, m')) {i : ℕ} (hne : i ≠ pdx va) :
    tableOf m' d i = tableOf m d i := by
  have hi := pdx_lt_of_lt_UTOP hva
  simp only [pageInsert, Option.bind_eq_bind, Option.bind_eq_some_iff, Prod.exists] at hins
  obtain ⟨o, m₁, hwalk, hins⟩ := hins
  have hdir := h.pgdirWalk_dir hd hva hwalk hne
  cases o with
  | none =>
      obtain ⟨-, rfl⟩ := Prod.mk.inj (Option.some.inj hins)
      rw [tableOf, hdir, tableOf]
  | some x =>
      rcases h.pgdirWalk_create hd hi with ⟨-, -, hno⟩ | ⟨t, m₂, l₂, hwalk', htab, hown, -⟩
      · cases hno.symm.trans hwalk
      obtain ⟨hx, rfl⟩ := Prod.mk.inj (Option.some.inj (hwalk'.symm.trans hwalk))
      obtain rfl := Option.some.inj hx
      have htd : t ≠ d := (hown.table_ne_dir hd hi htab hd).symm
      dsimp only at hins
      obtain ⟨m₃, hphys, rfl⟩ : ∃ m₃ : Mem, m₃.phys d = m₂.phys d ∧
          m' = m₃.write t (ptx va) (page2pa p ||| perm ||| PTE_P) := by
        split at hins
        all_goals
          obtain ⟨m₃, hrem, hret⟩ := Option.bind_eq_some_iff.mp hins
          refine ⟨m₃, ?_, (Prod.mk.inj (Option.some.inj hret)).2.symm⟩
        · exact (pageRemove_frame hrem).1 d fun hc ↦ htd (Option.some.inj (htab.symm.trans hc))
        · rw [← Option.some.inj hrem]
          rfl
      rw [tableOf, Mem.phys_write_of_ne_frame _ _ _ htd.symm, hphys, hdir, tableOf]

end Own

end Jos
