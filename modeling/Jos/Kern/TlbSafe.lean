import Jos.Kern.TlbSpec

/-!
# Which stores change a translation

A walk from directory `d` reads frames of `Walked P d` only: the directory, its page tables and
those of the kernel.  The kernel's own bookkeeping keeps the frames of different environments apart,
so what it stores for one of them is quiet for all others.  For the environment itself, what is
stored over an entry that was not present adds a translation at most; the store of `page_remove`
takes one away, and `tlb_invalidate` follows.
-/

namespace Jos

open Jos.Lib

variable {P P' : Phys} {d v x : ℕ}

/-! ## Walks -/

/-- The frames that a walk from `d` may read. -/
def Walked (P : Phys) (d : ℕ) : Set ℕ :=
  {x | x = d ∨ ∃ i < NPDENTRIES, isSet (P d i) PTE_P ∧ frame (P d i) = x}

theorem mem_walked_self (P : Phys) (d : ℕ) : d ∈ Walked P d := .inl rfl

theorem walked_congr (h : P' d = P d) : Walked P' d = Walked P d := by
  simp only [Walked, h]

theorem translation_congr (h : ∀ x ∈ Walked P d, P' x = P x) (v : ℕ) :
    translation P' d v = translation P d v := by
  have hdir : P' d = P d := h d (mem_walked_self P d)
  simp only [translation, hdir]
  by_cases hv : v / 1024 < NPDENTRIES
  · by_cases hP : isSet (P d (v / 1024)) PTE_P
    · rw [h _ (.inr ⟨_, hv, hP, rfl⟩)]
    · simp [hP]
  · simp [hv]

theorem extends_of_walked (h : ∀ x ∈ Walked P d, P' x = P x) : Extends translation d P P' :=
  .of_eq (translation_congr h)

theorem translation_eq_some {t : Translation} (h : translation P d v = some t) :
    v / 1024 < NPDENTRIES ∧ isSet (P d (v / 1024)) PTE_P ∧
      isSet (P (frame (P d (v / 1024))) (v % 1024)) PTE_P ∧
      t = mkTranslation (P d (v / 1024)) (P (frame (P d (v / 1024))) (v % 1024)) := by
  simp only [translation] at h
  split at h
  · next hc => exact ⟨hc.1, hc.2.1, hc.2.2, (Option.some.inj h).symm⟩
  · cases h

/-- What is stored over an entry that was not present changes no translation of any directory. -/
theorem extends_absent {m : Mem} {j : ℕ} (habs : ¬ isSet (m.phys x j) PTE_P) (w : Word) (d : ℕ) :
    Extends translation d m.phys (m.write x j w).phys := by
  have hkeep : ∀ y i, isSet (m.phys y i) PTE_P → (m.write x j w).phys y i = m.phys y i := by
    intro y i hP
    by_cases hy : y = x
    · subst hy
      exact m.phys_write_of_ne_index y w fun hi ↦ habs (hi ▸ hP)
    · rw [m.phys_write_of_ne_frame j w hy]
  intro v
  cases ht : translation m.phys d v with
  | none => exact .inl rfl
  | some t =>
      obtain ⟨hv, hP, hP', rfl⟩ := translation_eq_some ht
      right
      simp only [translation, hkeep _ _ hP, hkeep _ _ hP']
      rw [if_pos ⟨hv, hP, hP'⟩]

/-- The translation and the entry that the kernel looks up are the same. -/
theorem translation_eq_none {m : Mem} (h : entryFrame (pteOf m d v) = none) :
    translation m.phys d v = none := by
  cases ht : translation m.phys d v with
  | none => rfl
  | some t =>
      obtain ⟨-, hP, hP', -⟩ := translation_eq_some ht
      rw [pteOf_of_table (entryFrame_of_isSet hP), entryFrame_of_isSet hP'] at h
      cases h

/-- What the hardware makes of an entry. -/
theorem translation_of_entry {m : Mem} {t p : ℕ} {f : Word} (hv : v / 1024 < NPDENTRIES)
    (ht : tableOf m d (v / 1024) = some t) (he : entry (m.phys t (v % 1024)) = some (p, f)) :
    translation m.phys d v = some ⟨p, isSet (m.phys d (v / 1024)) PTE_U ∧ isSet f PTE_U,
      isSet (m.phys d (v / 1024)) PTE_W ∧ isSet f PTE_W⟩ := by
  obtain ⟨hP, hframe⟩ := isSet_of_entryFrame ht
  rw [entry] at he
  split at he
  swap
  · cases he
  next hP' =>
  obtain ⟨rfl, rfl⟩ := Prod.mk.inj (Option.some.inj he)
  simp only [translation, hframe, hv, hP, hP', true_and, if_true, mkTranslation, isSet_flags_U,
    isSet_flags_W]

/-! ## Frames of different environments -/

/-- The kernel's half of every directory is in place. -/
def Halves (B : Machine) (m : Mem) (dirs : Slot → Option ℕ) : Prop :=
  ∀ e d, dirs e = some d → KernHalf B m d

section

variable {B : Machine} {M : Pool B} {m m' : Mem} {dirs : Slot → Option ℕ} {loose : Set ℕ}
  {l : List ℕ} {e e' : Slot} {d' pp : ℕ} {va perm : Word} {flush : ℕ → Bool} {evs : List Ev}

theorem Halves.of_frame (hh : Halves B m dirs) (h : Own B M m dirs loose l)
    (hf : Frame m m' dirs l) : Halves B m' dirs := fun e d hd ↦
  (hh e d hd).of_upper (h.kernSame hf).pgdir (hf.upper e d hd)

/-- What a walk from the directory of `e` reads, is its directory, its tables and the kernel's. -/
theorem Own.walked (h : Own B M m dirs loose l) (hh : Halves B m dirs) (hd : dirs e = some d)
    (hx : x ∈ Walked m.phys d) : x = d ∨ (∃ i < NUPDE, tableOf m d i = some x) ∨
      ∃ i, target B m dirs (.kern i) = some x := by
  rcases hx with rfl | ⟨i, hi, hP, rfl⟩
  · exact .inl rfl
  rcases Nat.lt_or_ge i NUPDE with hlt | hge
  · exact .inr (.inl ⟨i, hlt, entryFrame_of_isSet hP⟩)
  rcases (hh e d hd).tableOf_cases (M.lt_two_pow (h.dir_mem hd)) hge hi (entryFrame_of_isSet hP)
    with hself | ⟨hu, ht⟩
  · exact .inl hself
  · exact .inr (.inr ⟨⟨i, hi⟩, target_kern hge hi hu ht⟩)

namespace Own

variable (h : Own B M m dirs loose l) (hh : Halves B m dirs) (hd : dirs e = some d)

include h hh hd

/-- A walk reads no free page and no mapped one. -/
theorem notMem_walked (hx : Unstructured B m dirs x) : x ∉ Walked m.phys d := by
  intro hc
  rcases h.walked hh hd hc with rfl | ⟨i, hi, ht⟩ | ⟨i, hk⟩
  · exact hx.ne_dir hd rfl
  · exact hx.ne_table hd hi ht rfl
  · exact hx (.kern i) (Key.kern_structural i) hk

/-- A walk reads no directory but the one it starts from. -/
theorem dir_notMem_walked (hd' : dirs e' = some d') (hne : e' ≠ e) : d' ∉ Walked m.phys d := by
  intro hc
  have hk' : target B m dirs (.dir e') = some d' := hd'
  rcases h.walked hh hd hc with rfl | ⟨i, hi, ht⟩ | ⟨i, hk⟩
  · exact hne (h.dir_inj hd hd')
  · exact h.table_ne_dir hd hi ht hd' rfl
  · cases h.excl.eq_of_eq_some (Key.kern_structural i) hk hk'

/-- The tables that a walk reads below `UTOP` are those of its own directory. -/
theorem table_of_walked (hd' : dirs e' = some d') {j t : ℕ} (hj : j < NUPDE)
    (ht : tableOf m d' j = some t) (hc : t ∈ Walked m.phys d) :
    e' = e ∧ ∀ i < NPDENTRIES, isSet (m.phys d i) PTE_P → frame (m.phys d i) = t → i = j := by
  have hk' : target B m dirs (.table e' ⟨j, hj⟩) = some t := by rw [target_table hd' hj, ht]
  have hnotkern : ∀ i, target B m dirs (.kern i) ≠ some t := fun i hk ↦ by
    cases h.excl.eq_of_eq_some (Key.kern_structural i) hk hk'
  have hself : e' = e := by
    rcases h.walked hh hd hc with rfl | ⟨i, hi, ht'⟩ | ⟨i, hk⟩
    · exact absurd rfl (h.table_ne_dir hd' hj ht hd)
    · exact (h.table_inj hd hi ht' hd' hj ht).1
    · exact absurd hk (hnotkern i)
  refine ⟨hself, fun i hi hP hf ↦ ?_⟩
  subst hself
  obtain rfl := Option.some.inj (hd.symm.trans hd')
  rcases Nat.lt_or_ge i NUPDE with hlt | hge
  · exact (h.table_inj hd hj ht hd hlt (hf ▸ entryFrame_of_isSet hP)).2
  rcases (hh e' d hd).tableOf_cases (M.lt_two_pow (h.dir_mem hd)) hge hi
    (hf ▸ entryFrame_of_isSet hP) with hself | ⟨hu, hk⟩
  · exact absurd hself.symm (h.table_ne_dir hd hj ht hd)
  · exact absurd (target_kern hge hi hu hk) (hnotkern ⟨i, hi⟩)

/-- A store into a table of `e'` changes no translation but that of one page of `e'`. -/
theorem translation_write_pte (hd' : dirs e' = some d') {j t : ℕ} (hj : j < NUPDE)
    (ht : tableOf m d' j = some t) (n : ℕ) (w : Word) (hv : e' = e → v ≠ j * 1024 + n) :
    translation (m.write t n w).phys d v = translation m.phys d v := by
  have hdt : d ≠ t := h.table_ne_dir hd' hj ht hd
  have hdir : (m.write t n w).phys d = m.phys d := m.phys_write_of_ne_frame n w hdt
  simp only [translation, hdir]
  by_cases hi : v / 1024 < NPDENTRIES
  swap
  · simp [hi]
  by_cases hP : isSet (m.phys d (v / 1024)) PTE_P
  swap
  · simp [hP]
  by_cases hf : frame (m.phys d (v / 1024)) = t
  · obtain ⟨hself, huniq⟩ := h.table_of_walked hh hd hd' hj ht (.inr ⟨_, hi, hP, hf⟩)
    have hij := huniq _ hi hP hf
    have hn : v % 1024 ≠ n := fun hn ↦ hv hself (by omega)
    rw [hf, m.phys_write_of_ne_index t w hn]
  · rw [m.phys_write_of_ne_frame n w hf]

end Own

/-! ## The page allocator and the page tables -/

section Tables

variable (h : Own B M m dirs loose l)

include h

theorem Own.pageAllocEvs_eq : l = [] ∧ pageAllocEvs B m true = [] ∨
    ∃ p l', l = p :: l' ∧ pageAllocEvs B m true = [.store (m.zero p).phys] := by
  cases l with
  | nil =>
      have hhead : m.pageFreeList = none := h.ledger.chain.head_eq
      exact .inl ⟨rfl, by simp [pageAllocEvs, hhead]⟩
  | cons p l' =>
      have hhead : m.pageFreeList = some p := h.ledger.chain.head_eq
      have hk := kaddr_page2pa (h.list_sub (p := p) List.mem_cons_self)
      exact .inr ⟨p, l', rfl, by simp [pageAllocEvs, hhead, hk]⟩

variable (hh : Halves B m dirs) (hd : dirs e = some d)

include hh hd

/-- Clearing a free page. -/
theorem Own.extends_zero {p : ℕ} (hp : p ∈ l) :
    Extends translation d m.phys (m.zero p).phys := by
  have hp' := h.notMem_walked hh hd (h.unstructured_of_mem_list hp)
  exact extends_of_walked fun x hx ↦ m.phys_zero_of_ne fun hc ↦ hp' (hc ▸ hx)

theorem Own.pageAllocEvs_quiet : Quiet translation d m.phys (pageAllocEvs B m true) := by
  rcases h.pageAllocEvs_eq with ⟨-, hevs⟩ | ⟨p, l', rfl, hevs⟩
  · rw [hevs]
    trivial
  · rw [hevs]
    exact ⟨h.extends_zero hh hd List.mem_cons_self, trivial⟩

/-- Entering a table is quiet for everybody. -/
theorem Own.pgdirWalkEvs_quiet (hd' : dirs e' = some d') (create : Bool) :
    Quiet translation d m.phys (pgdirWalkEvs B m d' va create) := by
  rw [pgdirWalkEvs]
  split
  · trivial
  next habs =>
  cases create with
  | false => trivial
  | true =>
      rw [if_pos rfl]
      rcases h.pageAllocEvs_eq with ⟨rfl, hevs⟩ | ⟨p, l', rfl, hevs⟩
      · rw [hevs, h.pageAlloc_empty rfl]
        trivial
      · obtain ⟨halloc, -, -⟩ := h.pageAlloc_cons rfl
        rw [hevs, halloc]
        refine ⟨h.extends_zero hh hd List.mem_cons_self, ?_, trivial⟩
        refine extends_absent (m := m.taken p) ?_ _ d
        show ¬ isSet ((m.zero p).phys d' (pdx va)) PTE_P
        have hne : d' ≠ p := (h.unstructured_of_mem_list List.mem_cons_self).ne_dir hd'
        rwa [m.phys_zero_of_ne hne]

omit hh hd in
theorem Own.pageRemoveEvs_eq (flush : ℕ → Bool) (hd' : dirs e' = some d') (hva : va < UTOP) :
    entryFrame (pteOf m d' (pgnum va)) = none ∧ pageRemoveEvs B flush m d' va = [] ∨
    ∃ t, entryFrame (pteOf m d' (pgnum va)) ≠ none ∧ tableOf m d' (pdx va) = some t ∧
      pageRemoveEvs B flush m d' va =
        .store (m.write t (ptx va) 0).phys :: tlbInvalidateEvs flush d' va := by
  rcases h.pageLookup_eq hd' hva with ⟨hnone, hlook⟩ | ⟨p, t, hp, ht, hpte, hlook⟩
  · exact .inl ⟨hnone, by rw [pageRemoveEvs, hlook]⟩
  · refine .inr ⟨t, by rw [hp]; simp, ht, ?_⟩
    simp only [pageRemoveEvs, hlook]
    rw [if_pos (hpte ▸ (isSet_of_entryFrame hp).1)]

/-- `page_remove` is quiet for other environments and where nothing is mapped; the CPU whose
directory it is drops the page that it unmaps. -/
theorem Own.pageRemoveEvs_tidy {r : Role} (hd' : dirs e' = some d') (hva : va < UTOP)
    (hG : e' = e → r = .self ∧ flush d = true ∨ entryFrame (pteOf m d (pgnum va)) = none) :
    Tidy translation d m.phys (pageRemoveEvs B flush m d' va) r := by
  rcases h.pageRemoveEvs_eq flush hd' hva with ⟨-, hevs⟩ | ⟨t, hmapped, ht, hevs⟩
  · rw [hevs]
    exact .of_quiet trivial
  have hi := pdx_lt_of_lt_UTOP hva
  rw [hevs, tlbInvalidateEvs]
  by_cases hself : e' = e
  · subst hself
    obtain rfl := Option.some.inj (hd.symm.trans hd')
    obtain ⟨rfl, hflush⟩ := (hG rfl).resolve_right hmapped
    rw [if_pos hflush]
    refine fun _ ↦ .store_drop (fun v hv ↦ .inr ?_) .nil
    refine h.translation_write_pte hh hd hd hi ht _ _ fun _ ↦ ?_
    rwa [← pgnum_eq_pdx_ptx]
  · refine .of_quiet ⟨.of_eq fun v ↦ h.translation_write_pte hh hd hd' hi ht _ _
      fun hc ↦ absurd hc hself, ?_⟩
    split <;> trivial

omit h hh hd in
theorem pageRemoveEvs_congr (flush : ℕ → Bool) (hphys : m'.phys = m.phys) (d : ℕ) (va : Word) :
    pageRemoveEvs B flush m' d va = pageRemoveEvs B flush m d va := by
  simp only [pageRemoveEvs, pageLookup_congr hphys, hphys, Mem.write]

omit hd in
/-- `page_insert` walks, removes what is mapped, and stores over an entry that is not present. -/
theorem Own.pageInsertEvs_eq (flush : ℕ → Bool) (pp : ℕ) (perm : Word) (hd' : dirs e' = some d')
    (hva : va < UTOP) :
    ∃ m₁ l₁ rem fin, pageInsertEvs B flush m d' pp va perm =
        pgdirWalkEvs B m d' va true ++ (rem ++ fin) ∧
      memAfter m.phys (pgdirWalkEvs B m d' va true) = m₁.phys ∧
      Own B M m₁ dirs loose l₁ ∧ Halves B m₁ dirs ∧
      pteOf m₁ d' (pgnum va) = pteOf m d' (pgnum va) ∧
      (rem = [] ∨ rem = pageRemoveEvs B flush m₁ d' va) ∧
      ∀ d, Quiet translation d (memAfter m₁.phys rem) fin := by
  rcases h.pgdirWalk_create hd' (pdx_lt_of_lt_UTOP hva) with
    ⟨-, -, hwalk⟩ | ⟨t, m₁, l₁, hwalk, ht, hown, htab, -⟩
  · refine ⟨m, l, [], [], ?_, (pgdirWalk_traces hwalk).mem, h, hh, rfl, .inl rfl, fun d ↦ trivial⟩
    simp only [pageInsertEvs, hwalk, List.append_nil]
  let m₂ := m₁.setRef pp (m₁.ref pp + 1)
  have hrest : ∃ rem fin, pageInsertEvs B flush m d' pp va perm =
      pgdirWalkEvs B m d' va true ++ (rem ++ fin) ∧
      (rem = [] ∨ rem = pageRemoveEvs B flush m₁ d' va) ∧
      ∀ d, Quiet translation d (memAfter m₁.phys rem) fin := by
    by_cases hP : isSet (m₂.phys t (ptx va)) PTE_P
    swap
    · refine ⟨[], [.store (m₂.write t (ptx va) (page2pa pp ||| perm ||| PTE_P)).phys], ?_, .inl rfl,
        fun d ↦ ⟨extends_absent (m := m₂) hP _ d, trivial⟩⟩
      simp only [pageInsertEvs, hwalk]
      rw [if_neg hP]
      rfl
    have hcongr : pageRemoveEvs B flush m₂ d' va = pageRemoveEvs B flush m₁ d' va :=
      pageRemoveEvs_congr flush (show m₂.phys = m₁.phys from rfl) d' va
    cases hrem : pageRemove B m₂ d' va with
    | none =>
        refine ⟨pageRemoveEvs B flush m₂ d' va, [], ?_, .inr hcongr, fun d ↦ trivial⟩
        simp only [pageInsertEvs, hwalk]
        rw [if_pos hP, hrem]
    | some m₃ =>
        refine ⟨pageRemoveEvs B flush m₂ d' va,
          [.store (m₃.write t (ptx va) (page2pa pp ||| perm ||| PTE_P)).phys], ?_, .inr hcongr,
          fun d ↦ ?_⟩
        · simp only [pageInsertEvs, hwalk]
          rw [if_pos hP, hrem]
        -- `page_remove` has cleared the entry
        have hmem := (pageRemove_traces flush hrem).mem
        rw [show memAfter m₁.phys (pageRemoveEvs B flush m₂ d' va) = m₃.phys from hmem]
        refine ⟨extends_absent (m := m₃) ?_ _ d, trivial⟩
        rw [hcongr] at hmem
        rcases hown.pageRemoveEvs_eq flush hd' hva with ⟨hnone, -⟩ | ⟨t', -, ht', hevs⟩
        · rw [pteOf_of_table (by rw [pgnum_div]; exact ht), pgnum_mod,
            entryFrame_eq_none] at hnone
          exact absurd hP hnone
        · obtain rfl := Option.some.inj (ht.symm.trans ht')
          have hphys : m₃.phys = (m₁.write t (ptx va) 0).phys := by
            rw [← hmem, hevs, tlbInvalidateEvs]
            split <;> rfl
          rw [hphys, Mem.phys_write_self]
          decide
  obtain ⟨rem, fin, hevs, hrem, hfin⟩ := hrest
  exact ⟨m₁, l₁, rem, fin, hevs, (pgdirWalk_traces hwalk).mem, hown, hh.of_frame h htab.frame,
    htab.pte hd' (pgnum_lt_of_lt_UTOP hva), hrem, hfin⟩

/-- `page_insert` is quiet for other environments and where nothing is mapped; the CPU whose
directory it is drops the page whose mapping it replaces. -/
theorem Own.pageInsertEvs_tidy {r : Role} (hd' : dirs e' = some d') (hva : va < UTOP)
    (hG : e' = e → r = .self ∧ flush d = true ∨ entryFrame (pteOf m d (pgnum va)) = none) :
    Tidy translation d m.phys (pageInsertEvs B flush m d' pp va perm) r := by
  obtain ⟨m₁, l₁, rem, fin, hevs, hmem, hown, hh₁, hpte, hrem, hfin⟩ :=
    h.pageInsertEvs_eq hh flush pp perm hd' hva
  rw [hevs]
  refine .append (.of_quiet (h.pgdirWalkEvs_quiet hh hd hd' true)) ?_
  rw [hmem]
  refine .append ?_ (.of_quiet (hfin d))
  rcases hrem with rfl | rfl
  · exact .of_quiet trivial
  · refine hown.pageRemoveEvs_tidy hh₁ hd hd' hva fun hself ↦ (hG hself).imp_right fun hnone ↦ ?_
    subst hself
    obtain rfl := Option.some.inj (hd.symm.trans hd')
    rw [hpte]
    exact hnone

end Tables

/-! ## Whole address spaces -/

/-- Every store of the trace leaves the frames outside `X` alone. -/
def Confined (X : Set ℕ) : Phys → List Ev → Prop
  | _, [] => True
  | P, .store P' :: evs => (∀ x, x ∉ X → P' x = P x) ∧ Confined X P' evs
  | P, _ :: evs => Confined X P evs

namespace Confined

variable {X : Set ℕ} {evs' : List Ev}

theorem append (h : Confined X P evs) (h' : Confined X (memAfter P evs) evs') :
    Confined X P (evs ++ evs') := by
  induction evs generalizing P with
  | nil => exact h'
  | cons ev evs ih =>
      cases ev with
      | store P' => exact ⟨h.1, ih h.2 h'⟩
      | drop v => exact ih (show Confined X P evs from h) h'
      | load d => exact ih (show Confined X P evs from h) h'

theorem mono {X' : Set ℕ} (h : Confined X P evs) (hX : X ⊆ X') : Confined X' P evs := by
  induction evs generalizing P with
  | nil => trivial
  | cons ev evs ih =>
      cases ev with
      | store P' => exact ⟨fun x hx ↦ h.1 x fun hc ↦ hx (hX hc), ih h.2⟩
      | drop v => exact ih (show Confined X P evs from h)
      | load d => exact ih (show Confined X P evs from h)

theorem mem_eq (h : Confined X P evs) (hx : x ∉ X) : memAfter P evs x = P x := by
  induction evs generalizing P with
  | nil => rfl
  | cons ev evs ih =>
      cases ev with
      | store P' => exact (ih h.2).trans (h.1 x hx)
      | drop v => exact ih (show Confined X P evs from h)
      | load d => exact ih (show Confined X P evs from h)

/-- A walk that reads none of the frames does not see the stores. -/
theorem quiet (h : Confined X P evs) (hX : ∀ x ∈ Walked P d, x ∉ X) :
    Quiet translation d P evs := by
  induction evs generalizing P with
  | nil => trivial
  | cons ev evs ih =>
      cases ev with
      | store P' =>
          have hw : Walked P' d = Walked P d := walked_congr (h.1 d (hX d (mem_walked_self P d)))
          exact ⟨extends_of_walked fun x hx ↦ h.1 x (hX x hx), ih h.2 (by rwa [hw])⟩
      | drop v => exact ih (show Confined X P evs from h) hX
      | load d' => exact ih (show Confined X P evs from h) hX

end Confined

theorem confined_write (m : Mem) (x j : ℕ) (w : Word) :
    Confined {x} m.phys [.store (m.write x j w).phys] :=
  ⟨fun _ hy ↦ m.phys_write_of_ne_frame j w hy, trivial⟩

theorem copyKernPdesEvs_confined (m : Mem) (d : ℕ) (xs : List ℕ) :
    Confined {d} m.phys (copyKernPdesEvs B m d xs) := by
  induction xs generalizing m with
  | nil => trivial
  | cons x xs ih => exact ⟨fun _ hy ↦ m.phys_write_of_ne_frame _ _ hy, ih _⟩

theorem memAfter_copyKernPdes (m : Mem) (d : ℕ) :
    memAfter m.phys (copyKernPdesEvs B m d ((List.range NPDENTRIES).filter (pdx UTOP ≤ ·))) =
      (copyKernPdes B m d).phys := (copyKernPdes_traces m d _).mem

/-- A new directory is made in a free page. -/
theorem Own.envSetupVmEvs_quiet (h : Own B M m dirs loose l) (hh : Halves B m dirs)
    (hd : dirs e = some d) : Quiet translation d m.phys (envSetupVmEvs B m) := by
  rw [envSetupVmEvs]
  rcases h.pageAllocEvs_eq with ⟨rfl, hevs⟩ | ⟨p, l', rfl, hevs⟩
  · rw [hevs, h.pageAlloc_empty rfl]
    trivial
  obtain ⟨halloc, -, -⟩ := h.pageAlloc_cons rfl
  have hk := kaddr_page2pa (h.list_sub (p := p) List.mem_cons_self)
  simp only [hevs, halloc, hk, List.cons_append, List.nil_append]
  have hp := h.notMem_walked hh hd (h.unstructured_of_mem_list List.mem_cons_self)
  refine Confined.quiet (X := {p}) ?_ fun x hx hc ↦ hp (Set.mem_singleton_iff.mp hc ▸ hx)
  refine ⟨fun x hx ↦ m.phys_zero_of_ne hx, ?_⟩
  generalize hm₁ : (m.taken p).setRef p ((m.taken p).ref p + 1) = m₁
  have hphys : (m.zero p).phys = m₁.phys := by
    rw [← hm₁]
    rfl
  rw [hphys]
  refine (copyKernPdesEvs_confined m₁ p _).append ?_
  rw [memAfter_copyKernPdes]
  exact confined_write _ p _ _

/-! ## `env_free` -/

theorem pageLookup_table {q t j : ℕ} (h : pageLookup B m d va = some (some (q, t, j))) :
    tableOf m d (pdx va) = some t := by
  simp only [pageLookup, pgdirWalk, Option.bind_eq_bind, Option.bind_eq_some_iff,
    Prod.exists] at h
  obtain ⟨pp, m₁, hwalk, h⟩ := h
  split at hwalk
  · next hP =>
      simp only [Option.bind_eq_some_iff, Option.pure_def, Option.some.injEq,
        Prod.mk.injEq] at hwalk
      obtain ⟨t', hk, rfl, -⟩ := hwalk
      simp only at h
      split at h
      · cases h
      · obtain ⟨q', -, h⟩ := Option.bind_eq_some_iff.mp h
        simp only [Option.pure_def, Option.some.injEq, Prod.mk.injEq] at h
        obtain ⟨-, rfl, -⟩ := h
        rw [kaddr] at hk
        split at hk
        · cases hk
        · rw [tableOf, entryFrame_of_isSet hP]
          exact hk
  · simp only [Bool.false_eq_true, if_false, Option.pure_def, Option.some.injEq,
      Prod.mk.injEq] at hwalk
    obtain ⟨rfl, -⟩ := hwalk
    cases h

theorem pageRemoveEvs_confined (flush : ℕ → Bool) {t : ℕ} (ht : tableOf m d (pdx va) = some t) :
    Confined {t} m.phys (pageRemoveEvs B flush m d va) := by
  rw [pageRemoveEvs]
  split
  · next q t' j hlook =>
      obtain rfl := Option.some.inj ((pageLookup_table hlook).symm.trans ht)
      split
      · refine (confined_write m t' j 0).append
          (show Confined _ _ (tlbInvalidateEvs flush d va) from ?_)
        rw [tlbInvalidateEvs]
        split <;> trivial
      · trivial
  · trivial

theorem envFreePtesEvs_confined (flush : ℕ → Bool) {pt t i : ℕ} (xs : List ℕ)
    (hxs : ∀ x ∈ xs, x < 1024) (hi : i < 1024) (ht : tableOf m d i = some t) (hne : d ≠ t) :
    Confined {t} m.phys (envFreePtesEvs B flush d pt i m xs) := by
  induction xs generalizing m with
  | nil => trivial
  | cons x xs ih =>
      have hpdx : pdx (pgaddr i x 0) = i := by
        rw [← pgnum_div, pgnum_pgaddr hi (hxs x List.mem_cons_self)]
        have := hxs x List.mem_cons_self
        omega
      have hxs' : ∀ y ∈ xs, y < 1024 := fun y hy ↦ hxs y (List.mem_cons_of_mem _ hy)
      rw [envFreePtesEvs]
      split
      swap
      · exact ih hxs' ht
      have hconf : Confined {t} m.phys (pageRemoveEvs B flush m d (pgaddr i x 0)) :=
        pageRemoveEvs_confined flush (by rw [hpdx]; exact ht)
      refine hconf.append ?_
      cases hrem : pageRemove B m d (pgaddr i x 0) with
      | none => trivial
      | some m' =>
          have hmem := (pageRemove_traces flush hrem).mem
          simp only
          rw [hmem]
          refine ih hxs' ?_
          rw [tableOf, ← hmem, hconf.mem_eq hne]
          exact ht

/-- The tables of directory `d` lie in `X`, and so does `d`, which is none of them. -/
structure Holds (X : Set ℕ) (m : Mem) (d : ℕ) : Prop where
  dir : d ∈ X
  table : ∀ i < NUPDE, ∀ t, tableOf m d i = some t → t ∈ X ∧ d ≠ t

/-- Directory entries may be cleared. -/
theorem Holds.of_phys {X : Set ℕ} (h : Holds X m d)
    (hphys : ∀ i, m'.phys d i = m.phys d i ∨ m'.phys d i = 0) : Holds X m' d where
  dir := h.dir
  table i hi t ht := by
    rw [tableOf] at ht
    rcases hphys i with heq | heq
    · exact h.table i hi t (by rwa [heq] at ht)
    · rw [heq] at ht
      cases ht

section

-- the ranges of the loops are not to be evaluated
attribute [local irreducible] List.range

theorem Holds.envFreePdeEvs_confined {X : Set ℕ} (h : Holds X m d) {i : ℕ} (hi : i < NUPDE) :
    Confined X m.phys (envFreePdeEvs B flush d m i) := by
  rw [envFreePdeEvs]
  split
  · trivial
  next hP =>
  have ht : tableOf m d i = some (frame (m.phys d i)) := entryFrame_of_isSet (not_not.mp hP)
  obtain ⟨htX, hne⟩ := h.table i hi _ ht
  split
  swap
  · trivial
  next pt hk =>
  have hptes : Confined X m.phys (envFreePtesEvs B flush d pt i m (List.range NPTENTRIES)) := by
    refine Confined.mono (envFreePtesEvs_confined _ _ (fun x hx ↦ List.mem_range.mp hx)
      (by simp only [NUPDE] at hi; omega) ht hne) ?_
    rintro _ rfl
    exact htX
  refine hptes.append ?_
  split
  · next m₁ hm₁ =>
      rw [(envFreePtes_traces _ _ hm₁).mem]
      exact (confined_write m₁ d i 0).mono fun x hx ↦ Set.mem_singleton_iff.mp hx ▸ h.dir
  · trivial

theorem Holds.envFreePde {X : Set ℕ} (h : Holds X m d) {i : ℕ} (hi : i < NUPDE)
    (hrun : envFreePde B d m i = some m') : Holds X m' d := by
  have htr := envFreePde_traces (fun _ ↦ false) hrun
  rw [Jos.envFreePde] at hrun
  split at hrun
  · rw [← Option.some.inj hrun]
    exact h
  next hP =>
  have ht : tableOf m d i = some (frame (m.phys d i)) := entryFrame_of_isSet (not_not.mp hP)
  simp only [Option.bind_eq_bind, Option.bind_eq_some_iff] at hrun
  obtain ⟨pt, -, m₁, hptes, p, -, hdec⟩ := hrun
  have hconf : Confined {frame (m.phys d i)} m.phys
      (envFreePtesEvs B (fun _ ↦ false) d pt i m (List.range NPTENTRIES)) :=
    envFreePtesEvs_confined _ _ (fun x hx ↦ List.mem_range.mp hx)
      (by simp only [NUPDE] at hi; omega) ht (h.table i hi _ ht).2
  have hdir : m₁.phys d = m.phys d := by
    rw [← (envFreePtes_traces (fun _ ↦ false) _ hptes).mem]
    exact hconf.mem_eq (h.table i hi _ ht).2
  refine h.of_phys fun i' ↦ ?_
  rw [(pageDecref_frame hdec).1]
  by_cases hii : i' = i
  · subst hii
    exact .inr (m₁.phys_write_self d i' 0)
  · rw [m₁.phys_write_of_ne_index d 0 hii, hdir]
    exact .inl rfl

theorem Holds.envFreePdesEvs_confined {X : Set ℕ} (h : Holds X m d) (xs : List ℕ)
    (hxs : ∀ i ∈ xs, i < NUPDE) : Confined X m.phys (envFreePdesEvs B flush d m xs) := by
  induction xs generalizing m with
  | nil => trivial
  | cons i xs ih =>
      have hi := hxs i List.mem_cons_self
      rw [envFreePdesEvs]
      refine (h.envFreePdeEvs_confined hi).append ?_
      split
      · next m₁ hm₁ =>
          rw [(envFreePde_traces _ hm₁).mem]
          exact ih (h.envFreePde hi hm₁) fun j hj ↦ hxs j (List.mem_cons_of_mem _ hj)
      · trivial

end

end

/-! ## The kernel's state -/

section

variable {B : Machine} {M : Pool B} {k k' : Kern} {l : List ℕ} {el : List Slot} {cur e e' : Slot}
  {d' : ℕ} {m' : Mem}

section

attribute [local irreducible] List.range

/-- `env_free` is quiet for other environments. -/
theorem Inv.envFreeEvs_quiet (h : Inv B M k l el) (hd : k.dirs e = some d) (hlive : k.Live e')
    (hne : e' ≠ e) (o : Option Slot) : Quiet translation d k.mem.phys (envFreeEvs B k o e') := by
  obtain ⟨d', hd', hpg⟩ := h.live_dir hlive
  have hX : Holds ({d'} ∪ {t | ∃ i < NUPDE, tableOf k.mem d' i = some t}) k.mem d' :=
    ⟨.inl rfl, fun i hi t ht ↦ ⟨.inr ⟨i, hi, ht⟩, h.own.table_ne_dir hd' hi ht hd'⟩⟩
  have hpdes : Quiet translation d k.mem.phys
      (envFreePdesEvs B (flushes k o) d' k.mem (List.range (pdx UTOP))) := by
    refine (hX.envFreePdesEvs_confined _ fun i hi ↦ List.mem_range.mp hi).quiet fun x hx hc ↦ ?_
    rcases hc with rfl | ⟨i, hi, ht⟩
    · exact h.own.dir_notMem_walked h.half hd hd' hne hx
    · exact hne (h.own.table_of_walked h.half hd hd' hi ht hx).1
  rw [envFreeEvs, hpg]
  split
  · exact hpdes
  · exact hpdes

end

/-- Stores into mapped pages are quiet. -/
theorem Inv.extends_stored (h : Inv B M k l el) (hd : k.dirs e = some d) (hs : Stored k m') :
    Extends translation d k.mem.phys m'.phys := by
  refine extends_of_walked fun x hx ↦ ?_
  rcases hs.phys x with heq | ⟨e₁, v, f, hp⟩
  · exact heq
  · exact absurd hx (h.own.notMem_walked h.half hd (h.mapped hp).2.2)

theorem Inv.storeBytesEvs_quiet (h : Inv B M k l el) (hd : k.dirs e = some d)
    (hd' : k.dirs e' = some d') {bs : List (BitVec 8)} {va : Word}
    (hva : va.toNat + bs.length ≤ UTOP.toNat) :
    Quiet translation d k.mem.phys (storeBytesEvs k.mem d' va bs) := by
  induction bs generalizing k va with
  | nil => trivial
  | cons b bs ih =>
      rw [storeBytesEvs]
      split
      swap
      · trivial
      next m₁ hb =>
      have hu : UTOP.toNat = 4005560320 := rfl
      rw [List.length_cons] at hva
      have hlt : va < UTOP := by
        rw [BitVec.lt_def]
        omega
      have hs := Kern.storeByte_stored hd' hlt hb
      refine ⟨h.extends_stored hd hs, ih (k := k.setMem m₁) (h.stored_inv hs) hd hd' ?_⟩
      rw [BitVec.toNat_add, show (1 : Word).toNat = 1 from rfl]
      omega

end

end Jos
