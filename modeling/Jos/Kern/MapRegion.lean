import Jos.Kern.KernMap
import Jos.Kern.Ownership

/-!
# `boot_map_region` on any directory (`kern/pmap.c`)

`KernMap` follows `kern_pgdir` while the kernel boots.  Here the directory is any one whose tables
are its own: different entries have different tables, and none of them is free.

An entry may refer to the directory itself, as the one at `UVPT` does.  The pages behind it are not
ordinary ones: what is mapped there are the tables, and a store to their entries is one into the
directory.
-/

namespace Jos

open Jos.Lib

section

variable (B : Machine)

/-- The loop of `boot_map_region` from the offset `i` on, for at most `fuel` rounds. -/
def mapRegionFrom (pgdir : ℕ) (va size pa perm : Word) : ℕ → Word → Mem → Option Mem
  | 0, _, _ => none
  | fuel + 1, i, m =>
      if i < size then do
        let m ← bootMapPage B m pgdir (va + i) (pa + i) perm
        mapRegionFrom pgdir va size pa perm fuel (i + 0x1000) m
      else return m

/-- The page tables of `d` are its own, and `l` is the free list. -/
structure OwnsTables (m : Mem) (d : ℕ) (l : List ℕ) : Prop where
  chain : Chain m.link m.pageFreeList l
  free : ∀ p ∈ l, p < B.npages ∧ p ≠ d ∧ m.ref p = 0
  table : ∀ i < NPDENTRIES, ∀ t, tableOf m d i = some t → t ≠ d → t < B.npages ∧ t ∉ l
  inj : ∀ i < NPDENTRIES, ∀ j < NPDENTRIES, ∀ t, tableOf m d i = some t → tableOf m d j = some t →
    t ≠ d → i = j

end

variable {B : Machine} {M : Pool B} {m m' : Mem} {l l' : List ℕ} {d i j t v : ℕ}
  {va pa size perm w : Word}

/-! ## Memory -/

theorem lt_two_pow_of_lt_npages (h : t < B.npages) : t < 2 ^ 20 := by
  have := B.npages_le
  omega

theorem kaddr_page2pa_of_lt (h : t < B.npages) : kaddr B (page2pa t) = some t := by
  rw [kaddr, pgnum_page2pa (lt_two_pow_of_lt_npages h), if_neg (Nat.not_le.mpr h)]

theorem pgnum_lt (va : Word) : pgnum va < 2 ^ 20 := by
  rw [pgnum_eq]
  omega

/-! ## A round -/

namespace OwnsTables

variable (h : OwnsTables B m d l)

include h

theorem pgdirWalk_of_table (hT : tableOf m d (pdx va) = some t) (ht : t ≠ d) :
    pgdirWalk B m d va true = some (some (t, ptx va), m) := by
  obtain ⟨hP, hframe⟩ := isSet_of_entryFrame hT
  have hlt := (h.table _ (pdx_lt va) t hT ht).1
  have hkaddr : kaddr B (pteAddr (m.phys d (pdx va))) = some t := by
    rw [← hframe] at hlt ⊢
    exact if_neg (Nat.not_le.mpr hlt)
  simp [pgdirWalk, hP, hkaddr]

theorem pgdirWalk_fresh (hT : tableOf m d (pdx va) = none) (hl : l = t :: l') :
    pgdirWalk B m d va true = some (some (t, ptx va), m.tabled d (pdx va) t) := by
  have hhead : m.pageFreeList = some t := by rw [h.chain.head_eq, hl, List.head?_cons]
  have hkaddr := kaddr_page2pa_of_lt (h.free t (by simp [hl])).1
  have href : (m.taken t).ref t = m.ref t := by simp [Mem.taken]
  have halloc : pageAlloc B m true = some (some t, m.taken t) := by
    simp [pageAlloc, hhead, hkaddr, Mem.taken]
  simp [pgdirWalk, tableOf_eq_none.mp hT, halloc, hkaddr, mkPte_table, href, Mem.tabled]

/-- A store into a table -/
theorem write (ht : t ≠ d) (j : ℕ) (w : Word) : OwnsTables B (m.write t j w) d l where
  chain := h.chain
  free := h.free
  table i hi x := by
    rw [tableOf_write_of_ne ht]
    exact h.table i hi x
  inj i hi j hj x := by
    rw [tableOf_write_of_ne ht, tableOf_write_of_ne ht]
    exact h.inj i hi j hj x

/-- It is seen through the entry of the table only. -/
theorem pteOf_write (hi : i < NPDENTRIES) (hT : tableOf m d i = some t) (ht : t ≠ d) (hj : j < 1024)
    (hv : v < 2 ^ 20) (w : Word) :
    pteOf (m.write t j w) d v = if v = i * 1024 + j then w else pteOf m d v := by
  rw [pteOf_write_of_ne ht]
  refine if_congr ⟨?_, ?_⟩ rfl rfl
  · rintro ⟨hT', rfl⟩
    have hdir : v / 1024 = i := h.inj _ (Nat.div_lt_of_lt_mul hv) _ hi t hT' hT ht
    omega
  · rintro rfl
    rw [show (i * 1024 + j) / 1024 = i by omega]
    exact ⟨hT, by omega⟩

variable (hl : l = t :: l')

include hl

theorem head : t < B.npages ∧ t ≠ d ∧ m.ref t = 0 := h.free t (by simp [hl])

/-- A new table -/
theorem tabled (i : ℕ) : OwnsTables B (m.tabled d i t) d l' := by
  obtain ⟨htn, htd, -⟩ := h.head hl
  subst hl
  have hchain := h.chain
  rw [h.chain.head_eq] at hchain
  obtain ⟨htl, -⟩ := List.nodup_cons.mp h.chain.nodup
  obtain ⟨l'', heq, htail⟩ := hchain.pop
  obtain rfl : l' = l'' := (List.cons.inj heq).2
  have hother : ∀ k < NPDENTRIES, ∀ x, tableOf m d k = some x → x ≠ d → x ≠ t := by
    rintro k hk x hx hxd rfl
    exact (h.table k hk x hx hxd).2 List.mem_cons_self
  refine ⟨?_, fun p hp ↦ ?_, fun k hk x hx hxd ↦ ?_, fun k hk k' hk' x hx hx' hxd ↦ ?_⟩
  · have hlink : (m.tabled d i t).link = Function.update m.link t none := by
      simp [Mem.tabled, Mem.taken]
    have hfree : (m.tabled d i t).pageFreeList = m.link t := by simp [Mem.tabled, Mem.taken]
    rw [hlink, hfree]
    refine htail.congr fun q hq ↦ Function.update_of_ne ?_ _ _
    rintro rfl
    exact htl hq
  · have hpt : p ≠ t := by
      rintro rfl
      exact htl hp
    obtain ⟨h1, h2, h3⟩ := h.free p (List.mem_cons_of_mem t hp)
    refine ⟨h1, h2, ?_⟩
    simpa [Mem.tabled, Mem.taken, hpt] using h3
  · rw [tableOf_tabled htd (lt_two_pow_of_lt_npages htn)] at hx
    split at hx
    · obtain rfl := Option.some.inj hx
      exact ⟨htn, htl⟩
    · obtain ⟨h1, h2⟩ := h.table k hk x hx hxd
      exact ⟨h1, fun hc ↦ h2 (List.mem_cons_of_mem t hc)⟩
  · rw [tableOf_tabled htd (lt_two_pow_of_lt_npages htn)] at hx hx'
    split at hx
    · next hki =>
        obtain rfl := Option.some.inj hx
        split at hx'
        · next hki' => rw [hki, hki']
        · exact absurd rfl (hother k' hk' _ hx' hxd)
    · split at hx'
      · obtain rfl := Option.some.inj hx'
        exact absurd rfl (hother k hk _ hx hxd)
      · exact h.inj k hk k' hk' x hx hx' hxd

/-- It is empty, so no entry changes, but for those behind an entry for the directory itself. -/
theorem pteOf_tabled (hT : tableOf m d i = none) (hv : v < 2 ^ 20)
    (hself : tableOf m d (v / 1024) ≠ some d) : pteOf (m.tabled d i t) d v = pteOf m d v := by
  obtain ⟨htn, htd, -⟩ := h.head hl
  refine Jos.pteOf_tabled htd (lt_two_pow_of_lt_npages htn) hT hself fun hnew ↦ ?_
  exact (h.table _ (Nat.div_lt_of_lt_mul hv) t hnew htd).2 (by simp [hl])

end OwnsTables

/-- What a call of `pgdir_walk` for the entry `i` does: nothing, or there is a new table. -/
inductive TableWalk (m : Mem) (d i : ℕ) (l : List ℕ) : Mem → List ℕ → Prop
  | found {t : ℕ} (table : tableOf m d i = some t) : TableWalk m d i l m l
  | fresh {t : ℕ} {l' : List ℕ} (none : tableOf m d i = none) (cons : l = t :: l') :
      TableWalk m d i l (m.tabled d i t) l'

/-- A round of the loop of `boot_map_region` -/
theorem OwnsTables.bootMapPage (h : OwnsTables B m d l) (hself : tableOf m d (pdx va) ≠ some d)
    (hroom : tableOf m d (pdx va) = none → l ≠ []) (pa perm : Word) : ∃ m₁ l' t,
      TableWalk m d (pdx va) l m₁ l' ∧ tableOf m₁ d (pdx va) = some t ∧ t ≠ d ∧
      Jos.bootMapPage B m d va pa perm =
        some (m₁.write t (ptx va) (pteAddr pa ||| perm ||| PTE_P)) := by
  cases hT : tableOf m d (pdx va) with
  | some t =>
      have htd : t ≠ d := fun hc ↦ hself (hc ▸ hT)
      refine ⟨m, l, t, .found hT, hT, htd, ?_⟩
      simp [Jos.bootMapPage, h.pgdirWalk_of_table hT htd]
  | none =>
      obtain ⟨t, l', hl⟩ := List.exists_cons_of_ne_nil (hroom hT)
      obtain ⟨htn, htd, -⟩ := h.head hl
      refine ⟨_, l', t, .fresh hT hl, ?_, htd, ?_⟩
      · rw [tableOf_tabled htd (lt_two_pow_of_lt_npages htn), if_pos rfl]
      · simp [Jos.bootMapPage, h.pgdirWalk_fresh hT hl]

/-! ## The loop -/

/-- The number of rounds for a region of `size` bytes -/
def pages (size : Word) : ℕ := (size.toNat + (PGSIZE - 1)) / PGSIZE

/-- The `k`-th page from `va` on -/
def nthPage (va : Word) (k : ℕ) : Word := va + BitVec.ofNat 32 (k * PGSIZE)

/-- As long as the offset does not wrap around, the loop makes `pages size` rounds. -/
theorem mapRegionFrom_eq (hsize : size.toNat ≤ 2 ^ 32 - PGSIZE) {fuel k : ℕ} (hk : k ≤ pages size)
    (hfuel : pages size - k < fuel) (m : Mem) :
    mapRegionFrom B d va size pa perm fuel (BitVec.ofNat 32 (k * PGSIZE)) m =
      (List.range' k (pages size - k)).foldlM
        (fun m k ↦ bootMapPage B m d (nthPage va k) (nthPage pa k) perm) m := by
  induction fuel generalizing k m with
  | zero => cases hfuel
  | succ fuel ih =>
      rw [mapRegionFrom]
      have hlt : BitVec.ofNat 32 (k * PGSIZE) < size ↔ k < pages size := by
        rw [BitVec.lt_def, BitVec.toNat_ofNat]
        simp only [pages, PGSIZE] at *
        omega
      by_cases hk' : k < pages size
      · rw [if_pos (hlt.mpr hk'), show pages size - k = pages size - (k + 1) + 1 by omega,
          List.range'_succ, List.foldlM_cons]
        have hnext : BitVec.ofNat 32 (k * PGSIZE) + 0x1000 =
            BitVec.ofNat 32 ((k + 1) * PGSIZE) := by
          rw [Nat.add_mul, BitVec.ofNat_add]
          rfl
        refine congrArg _ (funext fun m' ↦ ?_)
        rw [hnext]
        exact ih hk' (by omega) m'
      · rw [if_neg (mt hlt.mp hk'), show pages size - k = 0 by omega]
        rfl

/-- The pages of a region are different. -/
theorem nthPage_inj {k k' : ℕ} (hk : k < 2 ^ 20) (hk' : k' < 2 ^ 20)
    (h : pgnum (nthPage va k) = pgnum (nthPage va k')) : k = k' := by
  rw [pgnum_eq, pgnum_eq, nthPage, nthPage, BitVec.toNat_add, BitVec.toNat_add, BitVec.toNat_ofNat,
    BitVec.toNat_ofNat] at h
  simp only [PGSIZE] at h
  omega

/-- The number of tables that `n` pages from `va` on still need -/
def missingTables (m : Mem) (d : ℕ) (va : Word) (n : ℕ) : ℕ :=
  (Finset.univ.filter fun i : Fin NPDENTRIES ↦
    tableOf m d i = none ∧ ∃ k < n, pdx (nthPage va k) = i).card

theorem missingTables_pos {k n : ℕ} (hk : k < n) (hT : tableOf m d (pdx (nthPage va k)) = none) :
    0 < missingTables m d va n := by
  refine Finset.card_pos.mpr ⟨⟨pdx (nthPage va k), pdx_lt _⟩, ?_⟩
  exact Finset.mem_filter.mpr ⟨Finset.mem_univ _, hT, k, hk, rfl⟩

/-- A free page for each page of the region is enough. -/
theorem missingTables_le (m : Mem) (d : ℕ) (va : Word) (n : ℕ) : missingTables m d va n ≤ n := by
  have hsub : (Finset.univ.filter fun i : Fin NPDENTRIES ↦
      tableOf m d i = none ∧ ∃ k < n, pdx (nthPage va k) = i) ⊆
      (Finset.range n).image fun k ↦ (⟨pdx (nthPage va k), pdx_lt _⟩ : Fin NPDENTRIES) := by
    intro i hi
    obtain ⟨-, -, k, hk, heq⟩ := Finset.mem_filter.mp hi
    exact Finset.mem_image.mpr ⟨k, Finset.mem_range.mpr hk, Fin.ext heq⟩
  calc missingTables m d va n
    _ ≤ ((Finset.range n).image _).card := Finset.card_le_card hsub
    _ ≤ (Finset.range n).card := Finset.card_image_le
    _ = n := Finset.card_range n

theorem missingTables_congr (h : ∀ i, tableOf m' d i = tableOf m d i) (va : Word) (n : ℕ) :
    missingTables m' d va n = missingTables m d va n := by
  simp only [missingTables, h]

/-- A table that is entered is not missing any more. -/
theorem missingTables_lt {k n : ℕ} (hk : k < n) (hT : tableOf m d (pdx (nthPage va k)) = none)
    (htab : ∀ j, tableOf m' d j = if j = pdx (nthPage va k) then some t else tableOf m d j) :
    missingTables m' d va n < missingTables m d va n := by
  have hnew : tableOf m' d (pdx (nthPage va k)) ≠ none := by
    rw [htab, if_pos rfl]
    exact Option.some_ne_none t
  refine Finset.card_lt_card ((Finset.ssubset_iff_of_subset fun i hi ↦ ?_).mpr
    ⟨⟨pdx (nthPage va k), pdx_lt _⟩, ?_, ?_⟩)
  · obtain ⟨-, hnone, hin⟩ := Finset.mem_filter.mp hi
    rw [htab] at hnone
    split at hnone
    · cases hnone
    · exact Finset.mem_filter.mpr ⟨Finset.mem_univ _, hnone, hin⟩
  · exact Finset.mem_filter.mpr ⟨Finset.mem_univ _, hT, k, hk, rfl⟩
  · exact fun hc ↦ hnew (Finset.mem_filter.mp hc).2.1

/-- From `m` on, `k` pages of the region of `n` pages have been mapped. -/
structure MapsTo (B : Machine) (m : Mem) (d : ℕ) (va pa perm : Word) (l : List ℕ) (n k : ℕ)
    (m' : Mem) (l' : List ℕ) : Prop where
  owns : OwnsTables B m' d l'
  room : l.length + missingTables m' d va n ≤ l'.length + missingTables m d va n
  entry : ∀ j < k, pteOf m' d (pgnum (nthPage va j)) = pteAddr (nthPage pa j) ||| perm ||| PTE_P
  other : ∀ v < 2 ^ 20, tableOf m d (v / 1024) ≠ some d → (∀ j < k, v ≠ pgnum (nthPage va j)) →
    pteOf m' d v = pteOf m d v
  kept : ∀ i t, tableOf m d i = some t → tableOf m' d i = some t
  dir : ∀ i, tableOf m' d i = tableOf m d i → m'.phys d i = m.phys d i
  self : ∀ i, tableOf m' d i = some d → tableOf m d i = some d
  ref : ∀ p, m'.ref p = if ∃ i < NPDENTRIES, tableOf m d i = none ∧ tableOf m' d i = some p then 1
    else m.ref p

namespace MapsTo

variable {n k : ℕ} {m₁ m₂ : Mem} {l₁ l₂ : List ℕ}

theorem init (h : OwnsTables B m d l) : MapsTo B m d va pa perm l n 0 m l where
  owns := h
  room := le_rfl
  entry := nofun
  other _ _ _ _ := rfl
  kept _ _ := id
  dir _ _ := rfl
  self _ := id
  ref p := by
    refine (if_neg ?_).symm
    rintro ⟨i, -, hnone, hsome⟩
    cases hnone.symm.trans hsome

/-- The tables for the region, while the region is not behind an entry for the directory itself. -/
theorem walked (h : MapsTo B m d va pa perm l n k m₁ l₁) (hk : k < n)
    (hself : ∀ j < n, tableOf m d (pdx (nthPage va j)) ≠ some d)
    (hw : TableWalk m₁ d (pdx (nthPage va k)) l₁ m₂ l₂) : MapsTo B m d va pa perm l n k m₂ l₂ := by
  cases hw with
  | found table => exact h
  | @fresh t l₂ hnone hl =>
      obtain ⟨htn, htd, hzero⟩ := h.owns.head hl
      have htab : ∀ j, tableOf (m₁.tabled d (pdx (nthPage va k)) t) d j =
          if j = pdx (nthPage va k) then some t else tableOf m₁ d j :=
        fun j ↦ tableOf_tabled htd (lt_two_pow_of_lt_npages htn)
      have hpte : ∀ v < 2 ^ 20, tableOf m d (v / 1024) ≠ some d →
          pteOf (m₁.tabled d (pdx (nthPage va k)) t) d v = pteOf m₁ d v :=
        fun v hv hv' ↦ h.owns.pteOf_tabled hl hnone hv (mt (h.self _) hv')
      have hold : tableOf m d (pdx (nthPage va k)) = none := by
        cases hT : tableOf m d (pdx (nthPage va k)) with
        | none => rfl
        | some x => cases hnone.symm.trans (h.kept _ x hT)
      refine ⟨h.owns.tabled hl _, ?_, fun j hj ↦ ?_, fun v hv hv' hne ↦ ?_, fun j x hx ↦ ?_,
        fun j hj ↦ ?_, fun j hj ↦ ?_, fun p ↦ ?_⟩
      · have hlt := missingTables_lt hk hnone htab
        have hroom := h.room
        rw [hl, List.length_cons] at hroom
        omega
      · rw [hpte _ (pgnum_lt _) (by rw [pgnum_div]; exact hself j (hj.trans hk)), h.entry j hj]
      · rw [hpte v hv hv', h.other v hv hv' hne]
      · have hx' := h.kept j x hx
        rw [htab, if_neg, hx']
        rintro rfl
        cases hnone.symm.trans hx'
      · rw [htab] at hj
        split at hj
        · next hjk =>
            rw [hjk, hold] at hj
            cases hj
        · next hjk =>
            rw [Mem.phys_tabled_dir htd hjk]
            exact h.dir j hj
      · rw [htab] at hj
        split at hj
        · exact absurd (Option.some.inj hj) htd
        · exact h.self j hj
      · have href : (m₁.tabled d (pdx (nthPage va k)) t).ref = Function.update m₁.ref t 1 := by
          simp [Mem.tabled, Mem.taken, hzero]
        rw [href]
        by_cases hpt : p = t
        · have hnew := (htab (pdx (nthPage va k))).trans (if_pos rfl)
          rw [hpt, Function.update_self, if_pos ⟨pdx (nthPage va k), pdx_lt _, hold, hnew⟩]
        · rw [Function.update_of_ne hpt, h.ref p]
          refine if_congr (exists_congr fun j ↦ and_congr_right fun _ ↦ and_congr_right fun _ ↦ ?_)
            rfl rfl
          rw [htab]
          split
          · next hj =>
              rw [hj, hnone]
              exact iff_of_false (Option.some_ne_none p).symm fun hc ↦ hpt (Option.some.inj hc).symm
          · exact Iff.rfl

/-- The entry of the next page -/
theorem write (h : MapsTo B m d va pa perm l n k m₁ l₁) (hk : k < n) (hn : n < 2 ^ 20)
    (hT : tableOf m₁ d (pdx (nthPage va k)) = some t) (ht : t ≠ d) :
    MapsTo B m d va pa perm l n (k + 1)
      (m₁.write t (ptx (nthPage va k)) (pteAddr (nthPage pa k) ||| perm ||| PTE_P)) l₁ := by
  have hpte : ∀ v < 2 ^ 20, pteOf (m₁.write t (ptx (nthPage va k))
      (pteAddr (nthPage pa k) ||| perm ||| PTE_P)) d v = if v = pgnum (nthPage va k) then
        pteAddr (nthPage pa k) ||| perm ||| PTE_P else pteOf m₁ d v := by
    intro v hv
    rw [h.owns.pteOf_write (pdx_lt _) hT ht (ptx_lt _) hv, pgnum_eq_pdx_ptx]
  refine ⟨h.owns.write ht _ _, ?_, fun j hj ↦ ?_, fun v hv hv' hne ↦ ?_, fun j x hx ↦ ?_,
    fun j hj ↦ ?_, fun j hj ↦ ?_, fun p ↦ ?_⟩
  · rw [missingTables_congr fun _ ↦ tableOf_write_of_ne ht _ _ _]
    exact h.room
  · rw [hpte _ (pgnum_lt _)]
    split
    · next heq => rw [nthPage_inj (by omega) (by omega) heq]
    · next hne => exact h.entry j (lt_of_le_of_ne (Nat.lt_succ_iff.mp hj) fun hc ↦ hne (hc ▸ rfl))
  · rw [hpte v hv, if_neg (hne k k.lt_succ_self)]
    exact h.other v hv hv' fun j hj ↦ hne j (Nat.lt_succ_of_lt hj)
  · rw [tableOf_write_of_ne ht]
    exact h.kept j x hx
  · rw [tableOf_write_of_ne ht] at hj
    rw [Mem.phys_write_of_ne_frame _ _ _ ht.symm]
    exact h.dir j hj
  · rw [tableOf_write_of_ne ht] at hj
    exact h.self j hj
  · rw [Mem.ref_write, h.ref p]
    simp only [tableOf_write_of_ne ht]

/-- The pages outside of the region keep their entries.  Behind an entry for the directory itself,
the page of a new table appears. -/
theorem pteOf_eq (h : MapsTo B m d va pa perm l n k m₁ l₁) (hv : v < 2 ^ 20)
    (hne : ∀ j < k, v ≠ pgnum (nthPage va j))
    (hself : tableOf m d (v / 1024) = some d →
      tableOf m₁ d (v % 1024) = tableOf m d (v % 1024)) : pteOf m₁ d v = pteOf m d v := by
  by_cases hdir : tableOf m d (v / 1024) = some d
  · rw [pteOf_of_table hdir, pteOf_of_table (h.kept _ d hdir)]
    exact h.dir _ (hself hdir)
  · exact h.other v hv hdir hne

/-- A round finds a free page if it needs one. -/
theorem step (h : MapsTo B m d va pa perm l n k m₁ l₁) (hk : k < n) (hn : n < 2 ^ 20)
    (hself : ∀ j < n, tableOf m d (pdx (nthPage va j)) ≠ some d)
    (hroom : missingTables m d va n ≤ l.length) : ∃ m₂ l₂,
      bootMapPage B m₁ d (nthPage va k) (nthPage pa k) perm = some m₂ ∧
      MapsTo B m d va pa perm l n (k + 1) m₂ l₂ := by
  have hfree : tableOf m₁ d (pdx (nthPage va k)) = none → l₁ ≠ [] := by
    rintro hnone rfl
    have hpos := missingTables_pos hk hnone
    have hle := h.room
    rw [List.length_nil] at hle
    omega
  obtain ⟨m', l', t, hw, hT, htd, hrun⟩ :=
    h.owns.bootMapPage (mt (h.self _) (hself k hk)) hfree (nthPage pa k) perm
  exact ⟨_, l', hrun, (h.walked hk hself hw).write hk hn hT htd⟩

end MapsTo

theorem OwnsTables.bootMapRegion (h : OwnsTables B m d l) (hsize : size.toNat ≤ 2 ^ 32 - PGSIZE)
    (hself : ∀ k < pages size, tableOf m d (pdx (nthPage va k)) ≠ some d)
    (hroom : missingTables m d va (pages size) ≤ l.length) (pa perm : Word) : ∃ m' l',
      Jos.bootMapRegion B m d va size pa perm = some m' ∧
      MapsTo B m d va pa perm l (pages size) (pages size) m' l' := by
  have hn : pages size < 2 ^ 20 := by
    simp only [pages, PGSIZE] at *
    omega
  obtain ⟨m', hrun, l', hmaps⟩ := foldlM_range_some
    (P := fun k m' ↦ ∃ l', MapsTo B m d va pa perm l (pages size) k m' l')
    (f := fun m k ↦ Jos.bootMapPage B m d (nthPage va k) (nthPage pa k) perm) (n := pages size)
    (fun k hk m₁ hm₁ ↦ by
      obtain ⟨l₁, h₁⟩ := hm₁
      obtain ⟨m₂, l₂, hround, h₂⟩ := h₁.step hk hn hself hroom
      exact ⟨m₂, hround, l₂, h₂⟩) (s := m) ⟨l, .init h⟩
  exact ⟨m', l', hrun, hmaps⟩

/-- `boot_map_region` sets the entries of its region and no others, and only new tables get a
reference.  The region is not behind an entry for the directory itself; what is behind such an entry
shows the new tables. -/
theorem boot_map_region_exact (h : OwnsTables B m d l) (hsize : size.toNat ≤ 2 ^ 32 - PGSIZE)
    (hself : ∀ k < pages size, tableOf m d (pdx (nthPage va k)) ≠ some d)
    (hroom : missingTables m d va (pages size) ≤ l.length) (pa perm : Word) : ∃ m',
      (∀ fuel, pages size < fuel → mapRegionFrom B d va size pa perm fuel 0 m = some m') ∧
      (∀ k < pages size,
        pteOf m' d (pgnum (nthPage va k)) = pteAddr (nthPage pa k) ||| perm ||| PTE_P) ∧
      (∀ v < 2 ^ 20, (∀ k < pages size, v ≠ pgnum (nthPage va k)) →
        (tableOf m d (v / 1024) = some d →
          tableOf m' d (v % 1024) = tableOf m d (v % 1024)) → pteOf m' d v = pteOf m d v) ∧
      (∀ p, m'.ref p = if ∃ i < NPDENTRIES, tableOf m d i = none ∧ tableOf m' d i = some p then 1
        else m.ref p) ∧
      ∃ l', OwnsTables B m' d l' := by
  obtain ⟨m', l', hrun, hmaps⟩ := h.bootMapRegion hsize hself hroom pa perm
  refine ⟨m', fun fuel hfuel ↦ ?_, hmaps.entry, fun v hv ↦ hmaps.pteOf_eq hv, hmaps.ref, l',
    hmaps.owns⟩
  have hloop := @mapRegionFrom_eq B d va pa size perm hsize fuel 0 (Nat.zero_le _) hfuel m
  rw [Nat.sub_zero, ← List.range_eq_range'] at hloop
  exact hloop.trans hrun

/-! ## The directories of the system -/

/-- A directory whose tables are counted references owns them. -/
theorem Own.ownsTables {ι : Type} [Fintype ι] [DecidableEq ι] {dirs : ι → Option ℕ}
    {loose : Set ℕ} (h : Own B M m dirs loose l) (hdl : d ∉ l) (key : Fin NPDENTRIES → Key ι)
    (hinj : Function.Injective key)
    (hkey : ∀ i : Fin NPDENTRIES, ∀ t, tableOf m d i = some t → t ≠ d →
      key i ∈ Key.structural ∧ target B m dirs (key i) = some t) : OwnsTables B m d l where
  chain := h.ledger.chain
  free p hp := by
    refine ⟨M.lt p (h.list_sub hp), ?_, ?_⟩
    · rintro rfl
      exact hdl hp
    · rw [h.ledger.ref_eq p (h.list_sub hp), h.owners_of_mem_list hp]
      rfl
  table i hi t ht htd := by
    obtain ⟨-, htarget⟩ := hkey ⟨i, hi⟩ t ht htd
    exact ⟨M.lt t (h.valid _ t htarget), h.ledger.notMem_of_pos (owners_pos htarget)⟩
  inj i hi j hj t ht ht' htd := by
    obtain ⟨hstruct, htarget⟩ := hkey ⟨i, hi⟩ t ht htd
    obtain ⟨-, htarget'⟩ := hkey ⟨j, hj⟩ t ht' htd
    exact (Fin.mk.inj (hinj (h.excl.eq_of_eq_some hstruct htarget htarget'))).symm

/-- What the entries of a directory are in the ledger -/
def dirKey (e : Slot) (i : Fin NPDENTRIES) : Key Slot :=
  if hi : i.val < NUPDE then .table e ⟨i, hi⟩ else .kern i

theorem dirKey_injective (e : Slot) : Function.Injective (dirKey e) := by
  intro i j h
  rw [dirKey, dirKey] at h
  split at h
  · split at h
    · exact Fin.ext (Fin.mk.inj (Key.table.inj h).2)
    · cases h
  · split at h
    · cases h
    · exact Key.kern.inj h

/-- The directory of an address space owns its tables. -/
theorem Inv.ownsTables {s : Kern} {el : List Slot} (h : Inv B M s l el) {e : Slot}
    (hd : s.dirs e = some d) : OwnsTables B s.mem d l := by
  have hdl : d ∉ l := h.own.ledger.notMem_of_pos (owners_pos (k := Key.dir e) hd)
  refine h.own.ownsTables hdl (dirKey e) (dirKey_injective e) fun i t ht htd ↦ ?_
  rw [dirKey]
  by_cases hlow : i.val < NUPDE
  · rw [dif_pos hlow, target_table hd hlow]
    exact ⟨Key.table_structural e _, ht⟩
  · rw [dif_neg hlow]
    have hge := Nat.not_lt.mp hlow
    have hentry := h.half e d hd i hge i.isLt
    by_cases hu : i.val = pdx UVPT
    · rw [tableOf, hentry, if_pos hu,
        entryFrame_uvptEntry (M.lt_two_pow (h.own.dir_mem hd))] at ht
      exact absurd (Option.some.inj ht).symm htd
    · rw [if_neg hu] at hentry
      rw [tableOf, hentry] at ht
      exact ⟨Key.kern_structural _, target_kern hge i.isLt hu ht⟩

/-- So does `kern_pgdir`, which maps nothing below `UTOP`. -/
theorem KernBoot.ownsTables (h : KernBoot B M m l)
    (hlow : ∀ i < NUPDE, tableOf m B.kernPgdir i = none)
    (huvpt : tableOf m B.kernPgdir (pdx UVPT) = some B.kernPgdir) :
    OwnsTables B m B.kernPgdir l := by
  refine h.own.ownsTables (fun hc ↦ M.kern (h.own.list_sub hc)) .kern (fun i j ↦ Key.kern.inj)
    fun i t ht htd ↦ ⟨Key.kern_structural _, ?_⟩
  have hge : NUPDE ≤ i.val := by
    by_contra hc
    cases (hlow i (Nat.not_le.mp hc)).symm.trans ht
  have hne : i.val ≠ pdx UVPT := by
    intro hc
    rw [hc, huvpt] at ht
    exact htd (Option.some.inj ht).symm
  exact target_kern hge i.isLt hne ht

/-! ## The window of a directory on itself -/

/-- Page 1 is a directory with the window at `UVPT` and no tables.  The pages 2 and 3 are free. -/
def windowMem : Mem where
  pages p := ⟨if p = 2 then some 3 else none, 0⟩
  pageFreeList := some 2
  phys p i := if p = 1 ∧ i = pdx UVPT then uvptEntry 1 else 0
  tlbLog := []

def windowMachine : Machine := ⟨8, 1, by decide⟩

theorem tableOf_windowMem (i : ℕ) :
    tableOf windowMem 1 i = if i = pdx UVPT then some 1 else none := by
  show entryFrame (if 1 = 1 ∧ i = pdx UVPT then uvptEntry 1 else 0) = _
  by_cases hi : i = pdx UVPT
  · rw [if_pos ⟨rfl, hi⟩, if_pos hi, entryFrame_uvptEntry (by decide)]
  · rw [if_neg fun hc ↦ hi hc.2, if_neg hi]
    exact entryFrame_zero

theorem ownsTables_windowMem : OwnsTables windowMachine windowMem 1 [2, 3] where
  chain := .cons (.cons .nil)
  free := by decide
  table i hi t ht htd := by
    rw [tableOf_windowMem] at ht
    split at ht
    · exact absurd (Option.some.inj ht).symm htd
    · cases ht
  inj i hi j hj t ht ht' htd := by
    rw [tableOf_windowMem] at ht
    split at ht
    · exact absurd (Option.some.inj ht).symm htd
    · cases ht

/-- Two pages at the end of the address space and at its start -/
theorem boot_map_region_exact_demo : ∃ m',
    (∀ fuel, pages 0x2000 < fuel →
      mapRegionFrom windowMachine 1 0xFFFFF000 0x2000 0x5000 PTE_W fuel 0 windowMem = some m') ∧
    (∀ k < pages 0x2000, pteOf m' 1 (pgnum (nthPage 0xFFFFF000 k)) =
      pteAddr (nthPage 0x5000 k) ||| PTE_W ||| PTE_P) ∧
    (∀ v < 2 ^ 20, (∀ k < pages 0x2000, v ≠ pgnum (nthPage 0xFFFFF000 k)) →
      (tableOf windowMem 1 (v / 1024) = some 1 →
        tableOf m' 1 (v % 1024) = tableOf windowMem 1 (v % 1024)) →
      pteOf m' 1 v = pteOf windowMem 1 v) ∧
    (∀ p, m'.ref p = if ∃ i < NPDENTRIES, tableOf windowMem 1 i = none ∧ tableOf m' 1 i = some p
      then 1 else windowMem.ref p) ∧
    ∃ l', OwnsTables windowMachine m' 1 l' :=
  boot_map_region_exact ownsTables_windowMem (by decide) (by decide)
    (missingTables_le _ _ _ _) 0x5000 PTE_W

/-- A new table appears at a page outside of the region.  And what is mapped at the directory's own
page, in the window, replaces the window. -/
theorem boot_map_region_window : OwnsTables windowMachine windowMem 1 [2, 3] ∧
    (∃ m', mapRegionFrom windowMachine 1 0xFFFFF000 0x1000 0x5000 PTE_W 2 0 windowMem = some m' ∧
      ∃ v < 2 ^ 20, v ≠ pgnum 0xFFFFF000 ∧ translate m' 1 v ≠ translate windowMem 1 v) ∧
    ∃ m', mapRegionFrom windowMachine 1 0xEF7BD000 0x1000 0x5000 PTE_W 2 0 windowMem = some m' ∧
      pteOf m' 1 (pgnum 0xEF7BD000) ≠ pteAddr 0x5000 ||| PTE_W ||| PTE_P :=
  ⟨ownsTables_windowMem,
    ⟨(windowMem.tabled 1 1023 2).write 2 1023 0x5003, rfl, 957 * 1024 + 1023, by decide, by decide,
      by decide⟩,
    windowMem.write 1 957 0x5003, rfl, by decide⟩

end Jos
