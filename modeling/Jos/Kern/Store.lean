import Jos.Kern.Own

/-!
# Stores into tables and directories

How one store into physical memory moves `tableOf`, `pteOf` and `target`.  Each store the kernel
makes into its tables changes `target` at one key only:

* an entry of a page table (`target_write_pte`);
* a directory entry that gets a cleared table, or loses a table with no entries
  (`target_write_pde`, `target_clear_pde`);
* a directory that is added to or taken from the family `dirs` (`target_add_dir`,
  `target_drop_dir`);
* a directory entry of the kernel (`target_write_kern`).

Stores into a frame that holds no directory and no user table leave all of it alone (`Inert`).
-/

namespace Jos

open Jos.Lib

theorem div_lt_NUPDE {v : ℕ} (hv : v < NUPG) : v / 1024 < NUPDE := by
  simp only [NUPG, NUPDE, NPTENTRIES] at *
  omega

theorem vpn_lt_NUPG {i j : ℕ} (hi : i < NUPDE) (hj : j < 1024) : i * 1024 + j < NUPG := by
  simp only [NUPG, NUPDE, NPTENTRIES] at *
  omega

theorem tableOf_eq_none {m : Mem} {d i : ℕ} : tableOf m d i = none ↔ ¬ isSet (m.phys d i) PTE_P :=
  entryFrame_eq_none

section

variable {m : Mem} {d t v : ℕ}

theorem tableOf_write_of_ne (ht : t ≠ d) (j : ℕ) (w : Word) (i : ℕ) :
    tableOf (m.write t j w) d i = tableOf m d i := by
  rw [tableOf, tableOf, m.phys_write_of_ne_frame j w ht.symm]

/-- A store into another frame is seen behind the entries that refer to it. -/
theorem pteOf_write_of_ne (ht : t ≠ d) (j : ℕ) (w : Word) (v : ℕ) : pteOf (m.write t j w) d v =
    if tableOf m d (v / 1024) = some t ∧ v % 1024 = j then w else pteOf m d v := by
  have htab := tableOf_write_of_ne (m := m) ht j w (v / 1024)
  cases hT : tableOf m d (v / 1024) with
  | none =>
      rw [pteOf_of_no_table (htab.trans hT), pteOf_of_no_table hT, if_neg]
      rintro ⟨hc, -⟩
      cases hc
  | some t' =>
      rw [pteOf_of_table (htab.trans hT), pteOf_of_table hT]
      by_cases htt : t' = t
      · rw [htt]
        by_cases hj : v % 1024 = j
        · rw [if_pos ⟨rfl, hj⟩, hj, Mem.phys_write_self]
        · rw [if_neg fun hc ↦ hj hc.2, Mem.phys_write_of_ne_index _ _ _ hj]
      · rw [if_neg fun hc ↦ htt (Option.some.inj hc.1), Mem.phys_write_of_ne_frame _ _ _ htt]

end

/-- Frame `x` holds no directory of the family, none of their page tables, and not
`kern_pgdir`. -/
structure Inert {ι : Type} (B : Machine) (m : Mem) (dirs : ι → Option ℕ) (x : ℕ) : Prop where
  ne_dir : ∀ {e d}, dirs e = some d → d ≠ x
  ne_table : ∀ {e d i t}, dirs e = some d → i < NUPDE → tableOf m d i = some t → t ≠ x
  ne_kern : B.kernPgdir ≠ x

section

variable {ι : Type} {B : Machine} {M : Pool B} {m m' : Mem} {dirs : ι → Option ℕ}
  {loose : Set ℕ} {l : List ℕ} {x : ℕ}

theorem Unstructured.inert (hx : Unstructured B m dirs x) (hM : x ∈ M.carrier) :
    Inert B m dirs x where
  ne_dir := hx.ne_dir
  ne_table := hx.ne_table
  ne_kern := (M.ne_kern hM).symm

namespace Inert

variable (hx : Inert B m dirs x) (heq : ∀ y, y ≠ x → m'.phys y = m.phys y)

include hx heq

theorem tableOf_eq {e : ι} {d : ℕ} (hd : dirs e = some d) (i : ℕ) :
    tableOf m' d i = tableOf m d i := by
  rw [tableOf, tableOf, heq d (hx.ne_dir hd)]

theorem pteOf_eq {e : ι} {d v : ℕ} (hd : dirs e = some d) (hv : v < NUPG) :
    pteOf m' d v = pteOf m d v := by
  have htab := hx.tableOf_eq heq hd (v / 1024)
  cases ht : tableOf m d (v / 1024) with
  | none => rw [pteOf_of_no_table ht, pteOf_of_no_table (htab.trans ht)]
  | some t =>
      rw [pteOf_of_table ht, pteOf_of_table (htab.trans ht),
        heq t (hx.ne_table hd (div_lt_NUPDE hv) ht)]

/-- A store into an inert frame changes no reference. -/
theorem target_eq : target B m' dirs = target B m dirs := by
  funext k
  cases k with
  | dir e => rfl
  | table e i =>
      cases hd : dirs e with
      | none => simp [target, hd]
      | some d => rw [target_table hd i.isLt, target_table hd i.isLt, hx.tableOf_eq heq hd]
  | page e v =>
      cases hd : dirs e with
      | none => simp [target, hd]
      | some d => rw [target_page hd v.isLt, target_page hd v.isLt, hx.pteOf_eq heq hd v.isLt]
  | kern i => simp only [target, tableOf, heq _ hx.ne_kern]

end Inert

variable [Fintype ι] [DecidableEq ι]

/-! ## An entry of a page table -/

section WritePte

variable (h : Own B M m dirs loose l) {e : ι} {d i t : ℕ} (hd : dirs e = some d) (hi : i < NUPDE)
  (ht : tableOf m d i = some t) (j : ℕ) (w : Word)

include h hd hi ht

theorem tableOf_write_pte {e' : ι} {d' : ℕ} (hd' : dirs e' = some d') (i' : ℕ) :
    tableOf (m.write t j w) d' i' = tableOf m d' i' := by
  exact tableOf_write_of_ne (h.table_ne_dir hd hi ht hd').symm j w i'

/-- A store into the page table of `e` at entry `i` is seen through that entry only. -/
theorem pteOf_write_pte {e' : ι} {d' v : ℕ} (hd' : dirs e' = some d') (hv : v < NUPG)
    (hj : j < 1024) : pteOf (m.write t j w) d' v =
      if e' = e ∧ v = i * 1024 + j then w else pteOf m d' v := by
  rw [pteOf_write_of_ne (h.table_ne_dir hd hi ht hd').symm]
  refine if_congr ⟨?_, ?_⟩ rfl rfl
  · rintro ⟨hT, rfl⟩
    obtain ⟨he, hi'⟩ := h.table_inj hd hi ht hd' (div_lt_NUPDE hv) hT
    exact ⟨he, by omega⟩
  · rintro ⟨rfl, rfl⟩
    obtain rfl : d = d' := Option.some.inj (hd.symm.trans hd')
    rw [show (i * 1024 + j) / 1024 = i by omega]
    exact ⟨ht, by omega⟩

theorem target_write_pte (hj : j < 1024) : target B (m.write t j w) dirs =
    Function.update (target B m dirs) (.page e ⟨i * 1024 + j, vpn_lt_NUPG hi hj⟩)
      (entryFrame w) := by
  funext k
  cases k with
  | dir e' => rw [Function.update_of_ne (by simp)]; rfl
  | table e' i' =>
      rw [Function.update_of_ne (by simp)]
      cases hd' : dirs e' with
      | none => simp [target, hd']
      | some d' =>
          rw [target_table hd' i'.isLt, target_table hd' i'.isLt,
            tableOf_write_pte h hd hi ht j w hd']
  | page e' v =>
      cases hd' : dirs e' with
      | none =>
          rw [Function.update_of_ne (by rintro ⟨⟩; simp [hd] at hd')]
          simp [target, hd']
      | some d' =>
          rw [target_page hd' v.isLt, pteOf_write_pte h hd hi ht j w hd' v.isLt hj]
          by_cases hc : e' = e ∧ v.val = i * 1024 + j
          · obtain ⟨rfl, hv⟩ := hc
            have : v = ⟨i * 1024 + j, vpn_lt_NUPG hi hj⟩ := Fin.ext hv
            rw [this, Function.update_self]
            simp
          · rw [if_neg hc, Function.update_of_ne (fun hk ↦ hc (by simpa [Fin.ext_iff] using hk)),
              target_page hd' v.isLt]
  | kern i' =>
      rw [Function.update_of_ne (by simp)]
      simp only [target, tableOf,
        m.phys_write_of_ne_frame j w (M.ne_kern (h.table_mem hd hi ht)).symm]

end WritePte

/-! ## A directory entry -/

section WritePde

variable (h : Own B M m dirs loose l) {e : ι} {d i : ℕ} (hd : dirs e = some d) (hi : i < NUPDE)
  (w : Word)

include h hd

theorem phys_write_pde {e' : ι} {d' : ℕ} (hd' : dirs e' = some d') (hne : e' ≠ e) :
    (m.write d i w).phys d' = m.phys d' := by
  refine m.phys_write_of_ne_frame i w fun hc ↦ hne ?_
  rw [hc] at hd'
  exact h.dir_inj hd hd'

theorem tableOf_write_pde {e' : ι} {d' : ℕ} (hd' : dirs e' = some d') (i' : ℕ) :
    tableOf (m.write d i w) d' i' =
      if e' = e ∧ i' = i then entryFrame w else tableOf m d' i' := by
  by_cases he : e' = e
  · subst he
    obtain rfl : d = d' := Option.some.inj (hd.symm.trans hd')
    by_cases hii : i' = i
    · subst hii
      simp [tableOf]
    · simp [tableOf, m.phys_write_of_ne_index d w hii, hii]
  · rw [tableOf, phys_write_pde h hd w hd' he]
    simp [he, tableOf]

/-- Entries behind other directory entries are not affected by a store into the directory. -/
theorem pteOf_write_pde {e' : ι} {d' v : ℕ} (hd' : dirs e' = some d') (hv : v < NUPG)
    (hne : ¬ (e' = e ∧ v / 1024 = i)) : pteOf (m.write d i w) d' v = pteOf m d' v := by
  have htab := tableOf_write_pde h hd (i := i) w hd' (v / 1024)
  rw [if_neg hne] at htab
  cases hT : tableOf m d' (v / 1024) with
  | none => rw [pteOf_of_no_table (htab.trans hT), pteOf_of_no_table hT]
  | some t =>
      have hdt := h.table_ne_dir hd' (div_lt_NUPDE hv) hT hd
      rw [pteOf_of_table (htab.trans hT), pteOf_of_table hT, m.phys_write_of_ne_frame i w hdt.symm]

include hi

/-- If no entry behind the directory entry is present before or after, only the reference to the
table changes. -/
theorem target_write_pde (hold : ∀ j < 1024, ¬ isSet (pteOf m d (i * 1024 + j)) PTE_P)
    (hnew : ∀ j < 1024, ¬ isSet (pteOf (m.write d i w) d (i * 1024 + j)) PTE_P) :
    target B (m.write d i w) dirs =
      Function.update (target B m dirs) (.table e ⟨i, hi⟩) (entryFrame w) := by
  funext k
  cases k with
  | dir e' => rw [Function.update_of_ne (by simp)]; rfl
  | table e' i' =>
      cases hd' : dirs e' with
      | none =>
          rw [Function.update_of_ne (by rintro ⟨⟩; simp [hd] at hd')]
          simp [target, hd']
      | some d' =>
          rw [target_table hd' i'.isLt, tableOf_write_pde h hd w hd']
          by_cases hc : e' = e ∧ i'.val = i
          · obtain ⟨rfl, hii⟩ := hc
            have : i' = ⟨i, hi⟩ := Fin.ext hii
            rw [this, Function.update_self]
            simp
          · rw [if_neg hc, Function.update_of_ne (fun hk ↦ hc (by simpa [Fin.ext_iff] using hk)),
              target_table hd' i'.isLt]
  | page e' v =>
      rw [Function.update_of_ne (by simp)]
      cases hd' : dirs e' with
      | none => simp [target, hd']
      | some d' =>
          rw [target_page hd' v.isLt, target_page hd' v.isLt]
          by_cases hc : e' = e ∧ v.val / 1024 = i
          · obtain ⟨rfl, hvi⟩ := hc
            obtain rfl : d = d' := Option.some.inj (hd.symm.trans hd')
            have hv : v.val = i * 1024 + v.val % 1024 := by omega
            have hj : v.val % 1024 < 1024 := by omega
            rw [hv, entryFrame_eq_none.mpr (hold _ hj), entryFrame_eq_none.mpr (hnew _ hj)]
          · rw [pteOf_write_pde h hd w hd' v.isLt hc]
  | kern i' =>
      rw [Function.update_of_ne (by simp)]
      simp only [target, tableOf, m.phys_write_of_ne_frame i w (h.dir_ne_kern hd)]

omit hi in
/-- Entering a cleared table that nothing refers to. -/
theorem pteOf_write_pde_fresh {t : ℕ} (hw : entryFrame w = some t)
    (hnone : tableOf m d i = none) (hz : ∀ j, m.phys t j = 0)
    (htd : t ≠ d) {e' : ι} {d' v : ℕ} (hd' : dirs e' = some d') (hv : v < NUPG) :
    pteOf (m.write d i w) d' v = pteOf m d' v := by
  by_cases hc : e' = e ∧ v / 1024 = i
  · obtain ⟨rfl, hvi⟩ := hc
    obtain rfl : d = d' := Option.some.inj (hd.symm.trans hd')
    have htab := tableOf_write_pde h hd (i := i) w hd (v / 1024)
    rw [if_pos ⟨rfl, hvi⟩, hw] at htab
    rw [pteOf_of_table htab, m.phys_write_of_ne_frame i w htd, hz,
      pteOf_of_no_table (by rw [hvi]; exact hnone)]
  · exact pteOf_write_pde h hd w hd' hv hc

theorem target_write_pde_fresh {t : ℕ} (hw : entryFrame w = some t)
    (hnone : tableOf m d i = none) (hz : ∀ j, m.phys t j = 0) (htd : t ≠ d) :
    target B (m.write d i w) dirs =
      Function.update (target B m dirs) (.table e ⟨i, hi⟩) (some t) := by
  have hold : ∀ j < 1024, ¬ isSet (pteOf m d (i * 1024 + j)) PTE_P := by
    intro j hj
    rw [pteOf_of_no_table (by rw [show (i * 1024 + j) / 1024 = i by omega]; exact hnone)]
    exact not_isSet_zero _
  rw [← hw]
  refine target_write_pde h hd hi w hold fun j hj ↦ ?_
  rw [pteOf_write_pde_fresh h hd w hw hnone hz htd hd (vpn_lt_NUPG hi hj)]
  exact hold j hj

/-- Clearing the entry of a table with no present entries. -/
theorem target_clear_pde {t : ℕ} (ht : tableOf m d i = some t)
    (hempty : ∀ j < 1024, ¬ isSet (m.phys t j) PTE_P) :
    target B (m.write d i 0) dirs =
      Function.update (target B m dirs) (.table e ⟨i, hi⟩) none := by
  rw [← entryFrame_zero]
  refine target_write_pde h hd hi 0 (fun j hj ↦ ?_) fun j hj ↦ ?_
  · rw [pteOf_of_table (t := t) (by rw [show (i * 1024 + j) / 1024 = i by omega]; exact ht)]
    rw [show (i * 1024 + j) % 1024 = j by omega]
    exact hempty j hj
  · have htab := tableOf_write_pde h hd (i := i) 0 hd ((i * 1024 + j) / 1024)
    rw [if_pos ⟨rfl, by omega⟩] at htab
    rw [pteOf_of_no_table (htab.trans entryFrame_zero)]
    exact not_isSet_zero _

end WritePde

/-! ## A directory of the family -/

omit [Fintype ι] in
theorem target_update_dirs {e : ι} {o o' : Option ℕ} (ho : ∀ d, o = some d → ∀ i < NUPDE,
    ¬ isSet (m.phys d i) PTE_P) (ho' : ∀ d, o' = some d → ∀ i < NUPDE,
    ¬ isSet (m.phys d i) PTE_P) (hd : dirs e = o) :
    target B m (Function.update dirs e o') =
      Function.update (target B m dirs) (.dir e) o' := by
  have empty : ∀ {o : Option ℕ}, (∀ d, o = some d → ∀ i < NUPDE, ¬ isSet (m.phys d i) PTE_P) →
      ∀ i < NUPDE, (o.bind fun d ↦ tableOf m d i) = none := by
    intro o ho i hi
    cases o with
    | none => rfl
    | some d => exact tableOf_eq_none.mpr (ho d rfl i hi)
  have emptyPage : ∀ {o : Option ℕ},
      (∀ d, o = some d → ∀ i < NUPDE, ¬ isSet (m.phys d i) PTE_P) →
      ∀ v < NUPG, (o.bind fun d ↦ entryFrame (pteOf m d v)) = none := by
    intro o ho v hv
    cases o with
    | none => rfl
    | some d =>
        have := tableOf_eq_none.mpr (ho d rfl (v / 1024) (div_lt_NUPDE hv))
        simp [pteOf_of_no_table this]
  funext k
  cases k with
  | dir e' =>
      by_cases he : e' = e
      · subst he
        simp [target]
      · rw [Function.update_of_ne (by simpa using he)]
        simp [target, he]
  | table e' i =>
      rw [Function.update_of_ne (by simp)]
      by_cases he : e' = e
      · subst he
        simp only [target, Function.update_self, hd]
        rw [empty ho' i i.isLt, empty ho i i.isLt]
      · simp [target, he]
  | page e' v =>
      rw [Function.update_of_ne (by simp)]
      by_cases he : e' = e
      · subst he
        simp only [target, Function.update_self, hd]
        rw [emptyPage ho' v v.isLt, emptyPage ho v v.isLt]
      · simp [target, he]
  | kern i => rw [Function.update_of_ne (by simp)]; rfl

/-! ## The kernel's own directory -/

theorem pteOf_write_kern (h : Own B M m dirs loose l) (i : ℕ) (w : Word) {e : ι} {d v : ℕ}
    (hd : dirs e = some d) (hv : v < NUPG) :
    pteOf (m.write B.kernPgdir i w) d v = pteOf m d v := by
  have htab : tableOf (m.write B.kernPgdir i w) d (v / 1024) = tableOf m d (v / 1024) := by
    rw [tableOf, tableOf, m.phys_write_of_ne_frame i w (h.dir_ne_kern hd).symm]
  cases hT : tableOf m d (v / 1024) with
  | none => rw [pteOf_of_no_table (htab.trans hT), pteOf_of_no_table hT]
  | some t =>
      rw [pteOf_of_table (htab.trans hT), pteOf_of_table hT,
        m.phys_write_of_ne_frame i w (M.ne_kern (h.table_mem hd (div_lt_NUPDE hv) hT))]

theorem target_write_kern (h : Own B M m dirs loose l) {i : ℕ} (hi : NUPDE ≤ i)
    (hi' : i < NPDENTRIES) (hu : i ≠ pdx UVPT) (w : Word) :
    target B (m.write B.kernPgdir i w) dirs =
      Function.update (target B m dirs) (.kern ⟨i, hi'⟩) (entryFrame w) := by
  funext k
  cases k with
  | dir e => rw [Function.update_of_ne (by simp)]; rfl
  | table e i' =>
      rw [Function.update_of_ne (by simp)]
      cases hd : dirs e with
      | none => simp [target, hd]
      | some d =>
          rw [target_table hd i'.isLt, target_table hd i'.isLt, tableOf, tableOf,
            m.phys_write_of_ne_frame i w (h.dir_ne_kern hd).symm]
  | page e v =>
      rw [Function.update_of_ne (by simp)]
      cases hd : dirs e with
      | none => simp [target, hd]
      | some d =>
          rw [target_page hd v.isLt, target_page hd v.isLt, pteOf_write_kern h i w hd v.isLt]
  | kern i' =>
      by_cases hii : i'.val = i
      · have : i' = ⟨i, hi'⟩ := Fin.ext hii
        subst this
        simp [target, tableOf, hi, hu]
      · rw [Function.update_of_ne (fun hc ↦ hii (by simpa [Fin.ext_iff] using hc))]
        simp only [target, tableOf, m.phys_write_of_ne_index B.kernPgdir w hii]

end

end Jos
