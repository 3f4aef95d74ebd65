import Jos.Kern.Boot
import Jos.Kern.LifeSpec
import Jos.Kern.UserMem
import Mathlib.Order.Interval.Finset.Nat

/-!
# The kernel boots into its invariant

`mem_init` is followed from the memory that `page_init` leaves, where nothing refers to a page
of the pool, through the mappings of the kernel, each of which may take one page for a table.
`KProt` is what protects the kernel's half of an address space: the entries below `ULIM` are not
writable, and those above are not for the user.
-/

namespace Jos

open Jos.Lib

/-! ## The pool -/

namespace BootConfig

variable (cfg : BootConfig)

/-- Where `kern_pgdir` lies: after the start of the kernel, and before the first page that
`page_init` frees above it.  The arrays are in the kernel's window. -/
theorem layout_bounds :
    256 ≤ cfg.machine.kernPgdir ∧ cfg.machine.kernPgdir < 256 + cfg.kernel ∧
      KERNBASE ≤ cfg.layout.pages ∧ KERNBASE ≤ cfg.layout.envs := by
  obtain ⟨first, hlt, hfirst, hpos, hKn, hK, hPn, hP, hEn, hE, hnf⟩ :=
    bootLayout_some cfg.npages_le cfg.layout_eq
  have hend : 0xF0100000 ≤ cfg.kend.toNat := cfg.le_kend
  have hext := cfg.extmem
  have hmap := cfg.pages_mapped
  have hkend := cfg.kend.isLt
  have hn := cfg.npages_le
  rw [roundup_toNat, BitVec.toNat_add, show (1 : Word).toNat = 1 from rfl] at hfirst
  simp only [hnf, PGSIZE, PTSIZE, NPTENTRIES, sizeofPageInfo] at hext hmap
  simp only [machine, kernel, pgnum_eq, BitVec.le_def, hnf, PGSIZE]
  simp only [BitVec.toNat_sub, show KERNBASE.toNat = 4026531840 from rfl] at *
  have hP0 : cfg.layout.pages.toNat ≠ 0 := by
    intro hc
    rw [if_pos hc] at hEn
    omega
  rw [if_neg hP0] at hEn
  have hPk : 4026531840 ≤ cfg.layout.pages.toNat := by
    clear hPn hEn hfirst hmap hext
    omega
  -- nothing wraps around
  have hP1 : first + 1 + (cfg.npages + 1023) / 1024 < 1048576 := by
    clear hEn hE hfirst hext hK
    omega
  rw [Nat.mod_eq_of_lt hP1] at hPn
  rw [Nat.mod_eq_of_lt (by clear hE hfirst hext hK; omega)] at hEn
  have hKk : 4026531840 ≤ cfg.layout.kernPgdir.toNat := by
    clear hPn hEn hE hext hmap hP hfirst
    omega
  have hfirst' : 983297 ≤ first := by
    clear hPn hEn hE hext hK hmap hP
    omega
  have hsub : ∀ x, 4026531840 ≤ x → x < 4294967296 →
      (2 ^ 32 - 4026531840 + x) % 2 ^ 32 = x - 4026531840 := by
    intro x h1 h2
    omega
  rw [hsub _ (by omega) (by omega), hsub _ (by omega) (by omega)]
  refine ⟨?_, ?_, hPk, ?_⟩ <;> omega

theorem kernel_lt : 256 + cfg.kernel < cfg.npages := cfg.extmem

/-- The pages that `page_init` puts on the free list. -/
def pool : Pool cfg.machine where
  carrier := {p | 1 ≤ p ∧ p < cfg.npagesBasemem ∧ p ≠ pgnum MPENTRY_PADDR ∨
    256 + cfg.kernel ≤ p ∧ p < cfg.npages}
  lt p hp := by
    have h1 := cfg.npagesBasemem_le
    have h2 := cfg.kernel_lt
    show p < cfg.npages
    rcases hp with ⟨-, hp, -⟩ | ⟨-, hp⟩ <;> omega
  kern hp := by
    have h1 := cfg.npagesBasemem_le
    obtain ⟨h2, h3, -, -⟩ := cfg.layout_bounds
    rcases hp with ⟨-, hp, -⟩ | ⟨hp, -⟩ <;> omega

end BootConfig

/-! ## `page_init` -/

/-- The free list is `l`, and nothing on it is referred to. -/
def FreePages (m : Mem) (l : List ℕ) : Prop :=
  Chain m.link m.pageFreeList l ∧ ∀ p ∈ l, m.ref p = 0

namespace FreePages

variable {m : Mem} {l : List ℕ} {p : ℕ}

theorem setRef (h : FreePages m l) (hp : p ∉ l) (r : BitVec 16) : FreePages (m.setRef p r) l := by
  refine ⟨by simpa using h.1, fun q hq ↦ ?_⟩
  have hne : q ≠ p := fun e ↦ hp (e ▸ hq)
  rw [Mem.ref_setRef, Function.update_of_ne hne]
  exact h.2 q hq

theorem pushFree (h : FreePages m l) (hp : p ∉ l) : FreePages (m.pushFree p) (p :: l) := by
  refine ⟨by simpa [Mem.pushFree] using h.1.push hp, fun q hq ↦ ?_⟩
  rcases List.mem_cons.mp hq with rfl | hq
  · simp [Mem.pushFree]
  · have hne : q ≠ p := fun e ↦ hp (e ▸ hq)
    simpa [Mem.pushFree, hne] using h.2 q hq

/-- A loop of `page_init`: the pages with `q` go on the free list, the others are marked as
used. -/
theorem foldl {f : Mem → ℕ → Mem} {q : ℕ → Prop} [DecidablePred q]
    (hf : ∀ m i, f m i = if q i then m.pushFree i else m.setRef i 1) (xs : List ℕ)
    (h : FreePages m l) (hnd : xs.Nodup) (hdis : ∀ x ∈ xs, x ∉ l) :
    (xs.foldl f m).phys = m.phys ∧
      ∃ l', FreePages (xs.foldl f m) l' ∧ ∀ p, p ∈ l' ↔ p ∈ l ∨ p ∈ xs ∧ q p := by
  induction xs generalizing m l with
  | nil => exact ⟨rfl, l, h, by simp⟩
  | cons x xs ih =>
      rw [List.nodup_cons] at hnd
      have hx : x ∉ l := hdis x List.mem_cons_self
      rw [List.foldl_cons, hf]
      by_cases hq : q x
      · rw [if_pos hq]
        obtain ⟨hphys, l', hl', hmem⟩ := ih (h.pushFree hx) hnd.2 fun y hy hc ↦ by
          rcases List.mem_cons.mp hc with rfl | hc
          · exact hnd.1 hy
          · exact hdis y (List.mem_cons_of_mem x hy) hc
        refine ⟨hphys, l', hl', fun p ↦ ?_⟩
        rw [hmem, List.mem_cons, List.mem_cons]
        constructor
        · rintro ((rfl | hp) | ⟨hp, hqp⟩)
          · exact .inr ⟨.inl rfl, hq⟩
          · exact .inl hp
          · exact .inr ⟨.inr hp, hqp⟩
        · rintro (hp | ⟨rfl | hp, hqp⟩)
          · exact .inl (.inr hp)
          · exact .inl (.inl rfl)
          · exact .inr ⟨hp, hqp⟩
      · rw [if_neg hq]
        obtain ⟨hphys, l', hl', hmem⟩ := ih (h.setRef hx 1) hnd.2 fun y hy ↦
          hdis y (List.mem_cons_of_mem x hy)
        refine ⟨hphys, l', hl', fun p ↦ ?_⟩
        rw [hmem, List.mem_cons]
        constructor
        · rintro (hp | ⟨hp, hqp⟩)
          · exact .inl hp
          · exact .inr ⟨.inr hp, hqp⟩
        · rintro (hp | ⟨rfl | hp, hqp⟩)
          · exact .inl hp
          · exact absurd hqp hq
          · exact .inr ⟨hp, hqp⟩

end FreePages

/-- The pages that `page_init` frees, with `kernel` the page number of `boot_alloc(0)`. -/
theorem pageInit_free (npages kernel : ℕ) {npagesBasemem : ℕ} (hb : npagesBasemem ≤ 160) {m : Mem}
    (hm : m.pageFreeList = none) :
    (pageInit npages npagesBasemem kernel m).phys = m.phys ∧
      ∃ l, FreePages (pageInit npages npagesBasemem kernel m) l ∧
        ∀ p, p ∈ l ↔ 1 ≤ p ∧ p < npagesBasemem ∧ p ≠ pgnum MPENTRY_PADDR ∨
          256 + kernel ≤ p ∧ p < npages := by
  have h0 : FreePages (m.setRef 0 1) [] := by
    refine ⟨?_, by simp⟩
    rw [Mem.pageFreeList_setRef, hm]
    exact .nil
  obtain ⟨hp1, l1, h1, hl1⟩ := FreePages.foldl (q := (· ≠ pgnum MPENTRY_PADDR))
    (f := fun m i ↦ if i = pgnum MPENTRY_PADDR then m.setRef i 1 else m.pushFree i)
    (fun m i ↦ by simp [ite_not]) (List.range' 1 (npagesBasemem - 1)) h0
    List.nodup_range' (by simp)
  have hl1' : ∀ p ∈ l1, p < 160 := by
    intro p hp
    simp only [hl1, List.not_mem_nil, false_or, List.mem_range'_1] at hp
    omega
  obtain ⟨hp2, l2, h2, hl2⟩ := FreePages.foldl (q := fun _ ↦ False)
    (f := fun m i ↦ m.setRef i 1) (fun m i ↦ by simp) (List.range' 160 (256 - 160)) h1
    List.nodup_range' fun x hx hc ↦ by
      have := hl1' x hc
      rw [List.mem_range'_1] at hx
      omega
  obtain ⟨hp3, l3, h3, hl3⟩ := FreePages.foldl (q := fun _ ↦ False)
    (f := fun m i ↦ m.setRef i 1) (fun m i ↦ by simp) (List.range' 256 kernel) h2
    List.nodup_range' fun x hx hc ↦ by
      have := hl1' x (by simpa [hl2] using hc)
      rw [List.mem_range'_1] at hx
      omega
  obtain ⟨hp4, l4, h4, hl4⟩ := FreePages.foldl (q := fun _ ↦ True) (f := Mem.pushFree)
    (fun m i ↦ by simp) (List.range' (256 + kernel) (npages - (256 + kernel))) h3
    List.nodup_range' fun x hx hc ↦ by
      have := hl1' x (by simpa [hl2, hl3] using hc)
      rw [List.mem_range'_1] at hx
      omega
  refine ⟨by rw [pageInit, hp4, hp3, hp2, hp1]; rfl, l4, h4, fun p ↦ ?_⟩
  simp only [hl4, hl3, hl2, hl1, List.not_mem_nil, false_or, and_false, or_false, and_true,
    List.mem_range'_1]
  omega

/-- `page_init` puts the pages of the pool on the free list. -/
theorem BootConfig.pageInit_spec (cfg : BootConfig) {m : Mem} (hm : m.pageFreeList = none) :
    (pageInit cfg.npages cfg.npagesBasemem cfg.kernel m).phys = m.phys ∧
      ∃ l, FreePages (pageInit cfg.npages cfg.npagesBasemem cfg.kernel m) l ∧
        ∀ p, p ∈ l ↔ p ∈ cfg.pool.carrier :=
      pageInit_free _ _ cfg.npagesBasemem_le hm

/-! ## The kernel's mappings -/

/-- The family of directories before there is an environment. -/
def noDirs : Slot → Option ℕ := fun _ ↦ none

/-- What an entry behind directory entry `i` of the kernel may allow: no writing below `ULIM`,
and nothing to the user above. -/
def KernPerm (i : ℕ) (w : Word) : Prop :=
  (i < pdx ULIM → ¬ isSet w PTE_W) ∧ (pdx ULIM ≤ i → ¬ isSet w PTE_U)

/-- The kernel's page tables protect its half of every address space. -/
def KProt (B : Machine) (m : Mem) : Prop :=
  ∀ i t, NUPDE ≤ i → i < NPDENTRIES → i ≠ pdx UVPT → tableOf m B.kernPgdir i = some t →
    ∀ j, KernPerm i (m.phys t j)

theorem KProt.of_same {B : Machine} {m m' : Mem} (h : KProt B m) (hk : KernSame B m m') :
    KProt B m' := by
  intro i t h1 h2 h3 ht j
  have ht' : tableOf m B.kernPgdir i = some t := by rw [← ht, tableOf, tableOf, hk.pgdir]
  rw [hk.tables i t h1 h2 h3 ht']
  exact h i t h1 h2 h3 ht' j

theorem kernPerm_zero (i : ℕ) : KernPerm i 0 := ⟨fun _ ↦ not_isSet_zero _, fun _ ↦ not_isSet_zero _⟩

/-- An entry that `boot_map_region` writes has the permissions it was called with. -/
theorem KernPerm.entry {i : ℕ} {perm : Word} (h : KernPerm i perm) (pa : Word) :
    KernPerm i (pteAddr pa ||| perm ||| PTE_P) := by
  have hW : isSet (pteAddr pa ||| perm ||| PTE_P) PTE_W ↔ isSet perm PTE_W := by
    simp [isSet_W, pteAddr, PTE_P]
  have hU : isSet (pteAddr pa ||| perm ||| PTE_P) PTE_U ↔ isSet perm PTE_U := by
    simp [isSet_U, pteAddr, PTE_P]
  exact ⟨fun hi ↦ hW.not.mpr (h.1 hi), fun hi ↦ hU.not.mpr (h.2 hi)⟩

/-- Memory while the kernel's mappings are made. -/
structure KernBoot (B : Machine) (M : Pool B) (m : Mem) (l : List ℕ) : Prop where
  own : Own B M m noDirs ∅ l
  prot : KProt B m
  entries : KOpen B m

/-- The number of tables that the kernel's half may still need. -/
def missing (B : Machine) (m : Mem) : ℕ :=
  (Finset.univ.filter fun i : Fin NPDENTRIES ↦
    NUPDE ≤ i.val ∧ i.val ≠ pdx UVPT ∧ tableOf m B.kernPgdir i = none).card

variable {B : Machine} {M : Pool B} {m m' : Mem} {l l' : List ℕ}

/-- The kernel's tables stay where they are. -/
def Grows (B : Machine) (m m' : Mem) : Prop :=
  ∀ i, tableOf m B.kernPgdir i ≠ none → tableOf m' B.kernPgdir i ≠ none

theorem grows_of_eq (h : m'.phys B.kernPgdir = m.phys B.kernPgdir) : Grows B m m' := by
  intro i hi
  rwa [tableOf, h]

/-- Without address spaces, references come from `kern_pgdir` only. -/
theorem target_noDirs (h : m'.phys B.kernPgdir = m.phys B.kernPgdir) :
    target B m' noDirs = target B m noDirs := by
  funext k
  cases k <;> simp [target, noDirs, tableOf, h]

theorem missing_congr (h : m'.phys B.kernPgdir = m.phys B.kernPgdir) :
    missing B m' = missing B m := by
  rw [missing, missing]
  exact congrArg Finset.card (Finset.filter_congr fun i _ ↦ by rw [tableOf, tableOf, h])

namespace KernBoot

variable (h : KernBoot B M m l)

include h

theorem table_mem {i t : ℕ} (h1 : NUPDE ≤ i) (h2 : i < NPDENTRIES) (h3 : i ≠ pdx UVPT)
    (ht : tableOf m B.kernPgdir i = some t) : t ∈ M.carrier :=
  h.own.valid _ t (target_kern h1 h2 h3 ht)

theorem table_notMem {i t : ℕ} (h1 : NUPDE ≤ i) (h2 : i < NPDENTRIES) (h3 : i ≠ pdx UVPT)
    (ht : tableOf m B.kernPgdir i = some t) : t ∉ l :=
  h.own.ledger.notMem_of_pos (owners_pos (target_kern h1 h2 h3 ht))

/-- A store into one of the kernel's tables. -/
theorem write {i t : ℕ} (h1 : NUPDE ≤ i) (h2 : i < NPDENTRIES) (h3 : i ≠ pdx UVPT)
    (ht : tableOf m B.kernPgdir i = some t) (j : ℕ) {w : Word} (hw : KernPerm i w) :
    KernBoot B M (m.write t j w) l := by
  have hk : (m.write t j w).phys B.kernPgdir = m.phys B.kernPgdir :=
    Mem.phys_write_of_ne_frame _ _ _ (M.ne_kern (h.table_mem h1 h2 h3 ht)).symm
  refine ⟨h.own.of_eq rfl rfl rfl (target_noDirs hk), fun i' t' h1' h2' h3' ht' j' ↦ ?_,
    fun i' h1' h2' h3' ↦ by rw [hk]; exact h.entries i' h1' h2' h3'⟩
  have ht'' : tableOf m B.kernPgdir i' = some t' := by rw [← ht', tableOf, tableOf, hk]
  by_cases htt : t' = t
  · subst htt
    have hkey := h.own.excl.eq_of_eq_some (Key.kern_structural (ι := Slot) _)
      (target_kern h1 h2 h3 ht) (target_kern h1' h2' h3' ht'')
    obtain rfl : i' = i := by simpa using hkey
    by_cases hj : j' = j
    · rw [hj, Mem.phys_write_self]
      exact hw
    · rw [Mem.phys_write_of_ne_index _ _ _ hj]
      exact h.prot i' t' h1 h2 h3 ht j'
  · rw [Mem.phys_write_of_ne_frame _ _ _ htt]
    exact h.prot i' t' h1' h2' h3' ht'' j'

/-- `pgdir_walk` on `kern_pgdir` finds the table, or takes a free page for it. -/
theorem pgdirWalk {va : Word} (hi : NUPDE ≤ pdx va) (hu : pdx va ≠ pdx UVPT) :
    (l = [] ∧ tableOf m B.kernPgdir (pdx va) = none ∧
      Jos.pgdirWalk B m B.kernPgdir va true = some (none, m)) ∨
    ∃ t m' l', Jos.pgdirWalk B m B.kernPgdir va true = some (some (t, ptx va), m') ∧
      KernBoot B M m' l' ∧ tableOf m' B.kernPgdir (pdx va) = some t ∧ Grows B m m' ∧
      l.length + missing B m' ≤ l'.length + missing B m := by
  have hi' : pdx va < NPDENTRIES := pdx_lt va
  cases hT : tableOf m B.kernPgdir (pdx va) with
  | some t =>
      have hP := (isSet_of_entryFrame hT).1
      refine .inr ⟨t, m, l, ?_, h, hT, fun _ ↦ id, le_rfl⟩
      simp [Jos.pgdirWalk, hP, kaddr_pteAddr hT (h.table_mem hi hi' hu hT)]
  | none =>
  cases hl : l with
  | nil => exact .inl ⟨rfl, rfl, h.own.pgdirWalk_no_mem hT hl⟩
  | cons t l' =>
      have htl : t ∈ l := by simp [hl]
      have htM := h.own.list_sub htl
      have htk := (M.ne_kern htM).symm
      have hw : entryFrame (mkPte t (PTE_U ||| PTE_W)) = some t :=
        entryFrame_mkPte (M.lt_two_pow htM) (by decide)
      obtain ⟨-, hown, htar⟩ := h.own.pageAlloc_cons hl
      have htar' : target B (m.tabled B.kernPgdir (pdx va) t) noDirs =
          Function.update (target B m noDirs) (.kern ⟨pdx va, hi'⟩) (some t) := by
        rw [← htar, ← hw, ← target_write_kern hown hi hi' hu]
        exact target_congr rfl
      have hk : target B m noDirs (.kern ⟨pdx va, hi'⟩) = none := by
        simp [target, hT]
      -- the other entries of `kern_pgdir` and the other tables are as before
      have hdir : ∀ i, i ≠ pdx va → (m.tabled B.kernPgdir (pdx va) t).phys B.kernPgdir i =
          m.phys B.kernPgdir i := fun i hne ↦ by
        rw [Mem.tabled, Mem.phys_write_of_ne_index _ _ _ hne]
        exact congrFun (m.phys_zero_of_ne htk) i
      have hself : tableOf (m.tabled B.kernPgdir (pdx va) t) B.kernPgdir (pdx va) = some t := by
        rw [← hw, tableOf, Mem.tabled, Mem.phys_write_self]
      have hphys : ∀ x, x ≠ B.kernPgdir → (m.tabled B.kernPgdir (pdx va) t).phys x =
          (m.zero t).phys x := fun x hx ↦ Mem.phys_write_of_ne_frame _ _ _ hx
      refine .inr ⟨t, _, l', h.own.pgdirWalk_fresh_eq hT hl, ⟨?_, ?_, fun i h1 h2 h3 ↦ ?_⟩, hself,
        fun i hi ↦ ?_, ?_⟩
      · exact h.own.linkFresh noDirs hl hk (by simp [Mem.tabled]) (by simp [Mem.tabled])
          (by simp [Mem.tabled, Mem.taken]) htar'
      · intro i t' h1 h2 h3 ht' j
        by_cases hne : i = pdx va
        · rw [hne, hself] at ht'
          obtain rfl := Option.some.inj ht'
          rw [hphys t htk.symm, Mem.phys_zero_self]
          exact kernPerm_zero i
        · have ht'' : tableOf m B.kernPgdir i = some t' := by
            rw [← ht', tableOf, tableOf, hdir i hne]
          have hne' : t' ≠ t := by
            rintro rfl
            exact h.table_notMem h1 h2 h3 ht'' htl
          rw [hphys t' (M.ne_kern (h.table_mem h1 h2 h3 ht'')), m.phys_zero_of_ne hne']
          exact h.prot i t' h1 h2 h3 ht'' j
      · by_cases hne : i = pdx va
        · rw [hne, Mem.tabled, Mem.phys_write_self]
          exact openPde_mkPte t
        · rw [hdir i hne]
          exact h.entries i h1 h2 h3
      · by_cases hne : i = pdx va
        · rw [hne, hself]
          simp
        · rwa [tableOf, hdir i hne]
      · have hlt : missing B (m.tabled B.kernPgdir (pdx va) t) < missing B m := by
          refine Finset.card_lt_card ((Finset.ssubset_iff_of_subset fun i hm ↦ ?_).mpr
            ⟨⟨pdx va, hi'⟩, by simp [hi, hu, hT], by simp [hself]⟩)
          rw [Finset.mem_filter] at hm ⊢
          refine ⟨hm.1, hm.2.1, hm.2.2.1, ?_⟩
          have hne : i.val ≠ pdx va := by
            intro hc
            have hno := hm.2.2.2
            rw [hc, hself] at hno
            cases hno
          rw [tableOf, ← hdir i hne]
          exact hm.2.2.2
        rw [List.length_cons]
        omega

/-- A round of `boot_map_region`. -/
theorem bootMapPage {va perm : Word} (hi : NUPDE ≤ pdx va) (hu : pdx va ≠ pdx UVPT)
    (hp : KernPerm (pdx va) perm) (pa : Word) :
    (Jos.bootMapPage B m B.kernPgdir va pa perm = none ∧ l.length < missing B m) ∨
    ∃ m' l', Jos.bootMapPage B m B.kernPgdir va pa perm = some m' ∧ KernBoot B M m' l' ∧
      tableOf m' B.kernPgdir (pdx va) ≠ none ∧ Grows B m m' ∧
      l.length + missing B m' ≤ l'.length + missing B m := by
  have hi' : pdx va < NPDENTRIES := pdx_lt va
  rcases h.pgdirWalk hi hu with ⟨hl, hT, hwalk⟩ | ⟨t, m', l', hwalk, hb, ht, hgrow, hmiss⟩
  · refine .inl ⟨by simp [Jos.bootMapPage, hwalk], ?_⟩
    rw [hl, List.length_nil, missing, Finset.card_pos]
    exact ⟨⟨pdx va, hi'⟩, by simp [hi, hu, hT]⟩
  · have hk : (m'.write t (ptx va) (pteAddr pa ||| perm ||| PTE_P)).phys B.kernPgdir =
        m'.phys B.kernPgdir :=
      Mem.phys_write_of_ne_frame _ _ _ (M.ne_kern (hb.table_mem hi hi' hu ht)).symm
    refine .inr ⟨m'.write t (ptx va) (pteAddr pa ||| perm ||| PTE_P), l',
      by simp [Jos.bootMapPage, hwalk], hb.write hi hi' hu ht _ (hp.entry pa), ?_,
      fun i hi ↦ grows_of_eq hk i (hgrow i hi), ?_⟩
    · rw [tableOf, hk]
      exact Option.ne_none_iff_exists'.mpr ⟨t, ht⟩
    · rwa [missing_congr hk]

end KernBoot

/-- The pages from `va` on are in the kernel's half, and may be mapped with `perm`. -/
def MapOk (va size perm : Word) : Prop :=
  ∀ k < (size.toNat + (PGSIZE - 1)) / PGSIZE, NUPDE ≤ pdx (va + BitVec.ofNat 32 (k * PGSIZE)) ∧
    pdx (va + BitVec.ofNat 32 (k * PGSIZE)) ≠ pdx UVPT ∧
    KernPerm (pdx (va + BitVec.ofNat 32 (k * PGSIZE))) perm

theorem mapOk_of_range {va size perm : Word} (lo hi : ℕ) (hlo : lo * 4194304 ≤ va.toNat)
    (hhi : va.toNat + size.toNat ≤ hi * 4194304) (hlo' : NUPDE ≤ lo) (hhi' : hi ≤ 1024)
    (hok : ∀ i, lo ≤ i → i < hi → i ≠ pdx UVPT ∧ KernPerm i perm) : MapOk va size perm := by
  intro k hk
  have hadd : (va + BitVec.ofNat 32 (k * PGSIZE)).toNat = va.toNat + k * PGSIZE := by
    rw [BitVec.toNat_add, BitVec.toNat_ofNat]
    simp only [PGSIZE] at hk ⊢
    omega
  have hpdx := pdx_eq (va + BitVec.ofNat 32 (k * PGSIZE))
  rw [hadd] at hpdx
  simp only [PGSIZE] at hk hpdx ⊢
  have h1 : lo ≤ pdx (va + BitVec.ofNat 32 (k * 4096)) := by omega
  have h2 : pdx (va + BitVec.ofNat 32 (k * 4096)) < hi := by omega
  exact ⟨hlo'.trans h1, hok _ h1 h2⟩

/-- Below `ULIM`. -/
theorem mapOk_user {va size perm : Word} {i : ℕ} (hlo : i * 4194304 ≤ va.toNat)
    (hhi : va.toNat + size.toNat ≤ (i + 1) * 4194304) (hi : NUPDE ≤ i) (hi' : i < pdx UVPT)
    (hW : ¬ isSet perm PTE_W) : MapOk va size perm := by
  have h957 : pdx UVPT = 957 := by decide
  have h958 : pdx ULIM = 958 := by decide
  refine mapOk_of_range i (i + 1) hlo hhi hi (by omega) fun j h1 h2 ↦ ⟨by omega, fun _ ↦ hW, ?_⟩
  intro hc
  omega

/-- From `ULIM` on. -/
theorem mapOk_kernel {va size perm : Word} (lo hi : ℕ) (hlo : lo * 4194304 ≤ va.toNat)
    (hhi : va.toNat + size.toNat ≤ hi * 4194304) (hlo' : pdx ULIM ≤ lo) (hhi' : hi ≤ 1024)
    (hU : ¬ isSet perm PTE_U) : MapOk va size perm := by
  have h957 : pdx UVPT = 957 := by decide
  have h958 : pdx ULIM = 958 := by decide
  have hN : NUPDE = 955 := rfl
  refine mapOk_of_range lo hi hlo hhi (by omega) hhi' fun j h1 h2 ↦ ⟨by omega, ?_, fun _ ↦ hU⟩
  intro hc
  omega

/-- A function that keeps memory as it should be while the kernel boots, and succeeds if there
are pages enough. -/
structure BootStep (B : Machine) (M : Pool B) (f : Mem → Option Mem) : Prop where
  keeps : ∀ {m m' l}, KernBoot B M m l → f m = some m' → ∃ l', KernBoot B M m' l'
  succeeds : ∀ {m l}, KernBoot B M m l → missing B m ≤ l.length →
    ∃ m' l', f m = some m' ∧ KernBoot B M m' l' ∧
      l.length + missing B m' ≤ l'.length + missing B m

namespace BootStep

variable {f g : Mem → Option Mem}

theorem bind (hf : BootStep B M f) (hg : BootStep B M g) : BootStep B M fun m ↦ f m >>= g where
  keeps h hrun := by
    rw [Option.bind_eq_bind, Option.bind_eq_some_iff] at hrun
    obtain ⟨m₁, h₁, h₂⟩ := hrun
    obtain ⟨l₁, hb⟩ := hf.keeps h h₁
    exact hg.keeps hb h₂
  succeeds h hroom := by
    obtain ⟨m₁, l₁, h₁, hb, hroom₁⟩ := hf.succeeds h hroom
    obtain ⟨m₂, l₂, h₂, hb₂, hroom₂⟩ := hg.succeeds hb (by omega)
    exact ⟨m₂, l₂, by rw [h₁]; exact h₂, hb₂, by omega⟩

theorem foldlM {α : Type} {f : Mem → α → Option Mem} (hf : ∀ a, BootStep B M (f · a))
    (xs : List α) : BootStep B M fun m ↦ xs.foldlM f m where
  keeps h hrun := foldlM_keeps (P := fun m ↦ ∃ l, KernBoot B M m l)
    (fun a _ _ _ ⟨_, h₁⟩ h₂ ↦ (hf a).keeps h₁ h₂) ⟨_, h⟩ hrun
  succeeds {m l} h hroom := by
    obtain ⟨m', hrun, l', h', hroom'⟩ := foldlM_some
      (P := fun m' ↦ ∃ l', KernBoot B M m' l' ∧ l.length + missing B m' ≤ l'.length + missing B m)
      (f := f)
      (fun a _ m₁ ⟨l₁, h₁, hroom₁⟩ ↦ by
        obtain ⟨m₂, l₂, hrun, h₂, hroom₂⟩ := (hf a).succeeds h₁ (by omega)
        exact ⟨m₂, hrun, l₂, h₂, by omega⟩) ⟨l, h, le_rfl⟩
    exact ⟨m', l', hrun, h', hroom'⟩

/-- A step at a physical address of the kernel. -/
theorem paddr {f : Word → Mem → Option Mem} (hf : ∀ pa, BootStep B M (f pa)) {kva : Word}
    (hkva : KERNBASE ≤ kva) : BootStep B M fun m ↦ Jos.paddr kva >>= fun pa ↦ f pa m := by
  have heq : Jos.paddr kva = some (kva - KERNBASE) := if_neg (BitVec.not_lt.mpr hkva)
  simp only [heq, Option.bind_eq_bind, Option.bind_some]
  exact hf _

end BootStep

/-- `boot_map_region` leaves a table for the first page it maps. -/
theorem KernBoot.bootMapRegion (h : KernBoot B M m l) {va size perm : Word}
    (hok : MapOk va size perm) (pa : Word) (hroom : missing B m ≤ l.length) :
    ∃ m' l', Jos.bootMapRegion B m B.kernPgdir va size pa perm = some m' ∧ KernBoot B M m' l' ∧
      l.length + missing B m' ≤ l'.length + missing B m ∧ Grows B m m' ∧
      (0 < size.toNat → tableOf m' B.kernPgdir (pdx va) ≠ none) := by
  obtain ⟨m', hrun, l', h', hroom', hgrow, hfirst⟩ := foldlM_range_some
    (P := fun n m' ↦ ∃ l', KernBoot B M m' l' ∧
      l.length + missing B m' ≤ l'.length + missing B m ∧ Grows B m m' ∧
      (0 < n → tableOf m' B.kernPgdir (pdx va) ≠ none))
    (f := fun m k ↦ Jos.bootMapPage B m B.kernPgdir (va + BitVec.ofNat 32 (k * PGSIZE))
      (pa + BitVec.ofNat 32 (k * PGSIZE)) perm)
    (n := (size.toNat + (PGSIZE - 1)) / PGSIZE)
    (by
      rintro k hk m₁ ⟨l₁, h₁, hroom₁, hgrow₁, hfirst₁⟩
      obtain ⟨h1, h2, h3⟩ := hok k hk
      rcases h₁.bootMapPage h1 h2 h3 (pa + BitVec.ofNat 32 (k * PGSIZE)) with
        ⟨-, hlt⟩ | ⟨m₂, l₂, hsome, h₂, htab, hgrow₂, hmiss⟩
      · omega
      · refine ⟨m₂, hsome, l₂, h₂, by omega, fun i hi ↦ hgrow₂ i (hgrow₁ i hi), fun _ ↦ ?_⟩
        rcases Nat.eq_zero_or_pos k with rfl | hpos
        · simpa using htab
        · exact hgrow₂ _ (hfirst₁ hpos))
    (s := m) ⟨l, h, le_rfl, fun _ ↦ id, fun hc ↦ absurd hc (Nat.lt_irrefl 0)⟩
  refine ⟨m', l', hrun, h', hroom', hgrow, fun hpos ↦ hfirst ?_⟩
  simp only [PGSIZE]
  omega

theorem bootStep_bootMapRegion {va size perm : Word} (hok : MapOk va size perm) (pa : Word) :
    BootStep B M fun m ↦ bootMapRegion B m B.kernPgdir va size pa perm where
  keeps h hrun := by
    refine foldlM_keeps (P := fun m ↦ ∃ l, KernBoot B M m l) ?_ ⟨_, h⟩ hrun
    rintro k hk m₁ m₂ ⟨l₁, h₁⟩ hround
    obtain ⟨h1, h2, h3⟩ := hok k (List.mem_range.mp hk)
    rcases h₁.bootMapPage h1 h2 h3 (pa + BitVec.ofNat 32 (k * PGSIZE)) with
      ⟨hnone, -⟩ | ⟨m₃, l₃, hsome, h₃, -⟩
    · cases hnone.symm.trans hround
    · obtain rfl : m₃ = m₂ := Option.some.inj (hsome.symm.trans hround)
      exact ⟨l₃, h₃⟩
  succeeds h hroom := by
    obtain ⟨m', l', hrun, h', hroom', -⟩ := h.bootMapRegion hok pa hroom
    exact ⟨m', l', hrun, h', hroom'⟩

/-! ## `mem_init` -/

/-- The self-tests put back what they take. -/
theorem KernBoot.selfTested (h : KernBoot B M m l) (ht : SelfTested m m') :
    ∃ l', l'.Perm l ∧ KernBoot B M m' l' ∧ m'.phys B.kernPgdir = m.phys B.kernPgdir := by
  obtain ⟨l₀, l', hl₀, hl', hperm, hoff⟩ := ht.list
  obtain rfl := h.own.ledger.chain.unique hl₀
  have hk : m'.phys B.kernPgdir = m.phys B.kernPgdir :=
    (hoff _ fun hc ↦ M.kern (h.own.list_sub hc)).2
  have htar := target_noDirs hk
  have hled := h.own.ledger
  refine ⟨l', hperm, ⟨⟨⟨hl', fun p ↦ ?_, fun p hp ↦ ?_, fun p hp hpl ↦ ?_, ?_⟩, ?_, ?_⟩, ?_,
    fun i h1 h2 h3 ↦ by rw [hk]; exact h.entries i h1 h2 h3⟩, hk⟩
  · rw [hperm.mem_iff, htar]
    exact hled.mem_iff p
  · rw [ht.ref, htar]
    exact hled.ref_eq p hp
  · rw [hperm.mem_iff] at hpl
    rw [(hoff p hpl).1]
    exact hled.next_none p hp hpl
  · simp
  · rw [htar]
    exact h.own.valid
  · rw [htar]
    exact h.own.excl
  · exact h.prot.of_same ⟨hk, fun i x h1 h2 h3 hx ↦ (hoff x (h.table_notMem h1 h2 h3 hx)).2⟩

theorem selfTested_refl (h : KernBoot B M m l) : SelfTested m m :=
  ⟨rfl, l, l, h.own.ledger.chain, h.own.ledger.chain, .refl l, fun _ _ ↦ ⟨rfl, rfl⟩⟩

/-- `clearKernPte` needs a table, and clears an entry of it. -/
theorem KernBoot.clear (h : KernBoot B M m l) (va : Word) (hi : NUPDE ≤ pdx va)
    (hu : pdx va ≠ pdx UVPT) :
    (clearKernPte B m va = none ∧ tableOf m B.kernPgdir (pdx va) = none) ∨
    ∃ m', clearKernPte B m va = some m' ∧ KernBoot B M m' l ∧
      m'.phys B.kernPgdir = m.phys B.kernPgdir := by
  have hi' : pdx va < NPDENTRIES := pdx_lt va
  cases hT : tableOf m B.kernPgdir (pdx va) with
  | none =>
      refine .inl ⟨?_, rfl⟩
      simp [clearKernPte, Jos.pgdirWalk, tableOf_eq_none.mp hT]
  | some t =>
      have htM := h.table_mem hi hi' hu hT
      refine .inr ⟨m.write t (ptx va) 0, ?_, h.write hi hi' hu hT _ (kernPerm_zero _),
        Mem.phys_write_of_ne_frame _ _ _ (M.ne_kern htM).symm⟩
      simp [clearKernPte, Jos.pgdirWalk, (isSet_of_entryFrame hT).1, kaddr_pteAddr hT htM]

/-- The region that `mmio_map_region` uses next. -/
def MmioBase (base : Word) : Prop := MMIOBASE ≤ base ∧ base ≤ MMIOLIM

/-- A reservation in the region for devices. -/
theorem MmioBase.map {base size : Word} (h : MmioBase base) (hsize : size.toNat ≤ 8192)
    (hle : ¬ MMIOLIM < base + roundup size 0x1000) :
    MapOk base (roundup size 0x1000) (PTE_PCD ||| PTE_PWT ||| PTE_W) ∧
      MmioBase (base + roundup size 0x1000) := by
  have hfix := roundup_toNat size
  have hlim : MMIOLIM.toNat = 4022337536 := rfl
  have hbase : MMIOBASE.toNat = 4018143232 := rfl
  obtain ⟨h1, h2⟩ := h
  rw [BitVec.le_def] at h1 h2
  rw [BitVec.not_lt, BitVec.le_def, BitVec.toNat_add] at hle
  have hadd : (base + roundup size 0x1000).toNat = base.toNat + (roundup size 0x1000).toNat := by
    rw [BitVec.toNat_add, Nat.mod_eq_of_lt (by omega)]
  refine ⟨mapOk_kernel 958 959 (by omega) ?_ (by decide) (by decide) (by decide), ?_, ?_⟩
  · rw [← hadd, BitVec.toNat_add]
    omega
  · rw [BitVec.le_def, hadd]
    omega
  · rw [BitVec.le_def, BitVec.toNat_add]
    exact hle

/-- A call of `mmio_map_region` that returns. -/
theorem mmioMapRegion_some {base base' pa size r : Word}
    (h : mmioMapRegion B m base pa size = some (r, base', m')) :
    r = base ∧ base' = base + roundup size 0x1000 ∧ ¬ MMIOLIM < base + roundup size 0x1000 ∧
      Jos.bootMapRegion B m B.kernPgdir base (roundup size 0x1000) pa
        (PTE_PCD ||| PTE_PWT ||| PTE_W) = some m' := by
  simp only [mmioMapRegion] at h
  split at h
  · cases h
  · next hle =>
      rw [Option.bind_eq_bind, Option.bind_eq_some_iff] at h
      obtain ⟨m₁, hmap, h⟩ := h
      simp only [Option.pure_def, Option.some.injEq, Prod.mk.injEq] at h
      obtain ⟨rfl, rfl, rfl⟩ := h
      exact ⟨rfl, rfl, hle, hmap⟩

theorem KernBoot.mmioMapRegion_keeps (h : KernBoot B M m l) {base base' pa size r : Word}
    (hb : MmioBase base) (hsize : size.toNat ≤ 8192)
    (hrun : mmioMapRegion B m base pa size = some (r, base', m')) :
    r = base ∧ MmioBase base' ∧ ∃ l', KernBoot B M m' l' := by
  obtain ⟨rfl, rfl, hle, hmap⟩ := mmioMapRegion_some hrun
  obtain ⟨hok, hb'⟩ := hb.map hsize hle
  exact ⟨rfl, hb', (bootStep_bootMapRegion hok pa).keeps h hmap⟩

theorem MmioBase.pdx {base : Word} (h : MmioBase base) :
    NUPDE ≤ pdx base ∧ pdx base ≠ Jos.pdx UVPT := by
  have hlim : MMIOLIM.toNat = 4022337536 := rfl
  have hbase : MMIOBASE.toNat = 4018143232 := rfl
  have h957 : Jos.pdx UVPT = 957 := by decide
  obtain ⟨h1, h2⟩ := h
  rw [BitVec.le_def] at h1 h2
  rw [pdx_eq, NUPDE]
  omega

theorem KernBoot.checkMmio_keeps (h : KernBoot B M m l) {base : Word}
    (hrun : checkMmio B m = some (base, m')) : MmioBase base ∧ ∃ l', KernBoot B M m' l' := by
  simp only [checkMmio, Option.bind_eq_bind, Option.bind_eq_some_iff, Option.pure_def,
    Option.some.injEq, Prod.exists, Prod.mk.injEq] at hrun
  obtain ⟨mm1, base₁, m₁, hm₁, mm2, base₂, m₂, hm₂, m₃, hm₃, m₄, hm₄, m₅, hm₅, rfl, rfl⟩ := hrun
  have hb₀ : MmioBase MMIOBASE := ⟨by decide, by decide⟩
  obtain ⟨rfl, hb₁, l₁, h₁⟩ := h.mmioMapRegion_keeps hb₀ (by decide) hm₁
  obtain ⟨rfl, hb₂, l₂, h₂⟩ := h₁.mmioMapRegion_keeps hb₁ (by decide) hm₂
  have clear' : ∀ {m m' : Mem} {l : List ℕ} {va : Word}, KernBoot B M m l → NUPDE ≤ Jos.pdx va →
      Jos.pdx va ≠ Jos.pdx UVPT → clearKernPte B m va = some m' → KernBoot B M m' l := by
    intro m m' l va h hi hu hrun
    rcases h.clear va hi hu with ⟨hnone, -⟩ | ⟨m'', hsome, h', -⟩
    · cases hnone.symm.trans hrun
    · exact Option.some.inj (hsome.symm.trans hrun) ▸ h'
  have h₃ := clear' h₂ (by decide) (by decide) hm₃
  have h₄ := clear' h₃ (by decide) (by decide) hm₄
  exact ⟨hb₂, l₂, clear' h₄ hb₁.pdx.1 hb₁.pdx.2 hm₅⟩

theorem KernBoot.mmioMapRegion_succeeds (h : KernBoot B M m l) (pa size : Word) {base : Word}
    (hb : MmioBase base) (hsize : size.toNat ≤ 8192) (hpos : 0 < (roundup size 0x1000).toNat)
    (hle : base + roundup size 0x1000 ≤ MMIOLIM) (hroom : missing B m ≤ l.length) :
    ∃ m' l', mmioMapRegion B m base pa size = some (base, base + roundup size 0x1000, m') ∧
      KernBoot B M m' l' ∧ l.length + missing B m' ≤ l'.length + missing B m ∧ Grows B m m' ∧
      tableOf m' B.kernPgdir (Jos.pdx base) ≠ none := by
  have hle' := BitVec.not_lt.mpr hle
  obtain ⟨m', l', hrun, h', hroom', hgrow, htab⟩ :=
    h.bootMapRegion (hb.map hsize hle').1 pa hroom
  refine ⟨m', l', ?_, h', hroom', hgrow, htab hpos⟩
  simp only [mmioMapRegion, hle', if_false, hrun, Option.bind_eq_bind, Option.bind_some]
  rfl

theorem KernBoot.checkMmio_succeeds (h : KernBoot B M m l) (hroom : missing B m ≤ l.length) :
    ∃ base m' l', checkMmio B m = some (base, m') ∧ MmioBase base ∧ KernBoot B M m' l' ∧
      l.length + missing B m' ≤ l'.length + missing B m := by
  have hb₀ : MmioBase MMIOBASE := ⟨by decide, by decide⟩
  have hb₁ : MmioBase (MMIOBASE + roundup 4097 0x1000) := ⟨by decide, by decide⟩
  obtain ⟨m₁, l₁, hm₁, h₁, hroom₁, -, htab₁⟩ := h.mmioMapRegion_succeeds 0 4097 hb₀
    (by decide) (by decide) (by decide) hroom
  obtain ⟨m₂, l₂, hm₂, h₂, hroom₂, hgrow, -⟩ := h₁.mmioMapRegion_succeeds 0 4096
    hb₁ (by decide) (by decide) (by decide) (by omega)
  have clear' : ∀ {m : Mem} {l : List ℕ} (va : Word), KernBoot B M m l → Jos.pdx va = 958 →
      tableOf m B.kernPgdir 958 ≠ none → ∃ m', clearKernPte B m va = some m' ∧
        KernBoot B M m' l ∧ m'.phys B.kernPgdir = m.phys B.kernPgdir := by
    intro m l va h hp htab
    rcases h.clear va (by rw [hp]; decide) (by rw [hp]; decide) with ⟨-, hnone⟩ | hsome
    · exact absurd (hp ▸ hnone) htab
    · exact hsome
  have htab : tableOf m₂ B.kernPgdir 958 ≠ none := hgrow 958 htab₁
  obtain ⟨m₃, hm₃, h₃, hk₃⟩ := clear' MMIOBASE h₂ (by decide) htab
  have htab₃ := grows_of_eq hk₃ 958 htab
  obtain ⟨m₄, hm₄, h₄, hk₄⟩ := clear' (MMIOBASE + 0x1000) h₃ (by decide) htab₃
  have htab₄ := grows_of_eq hk₄ 958 htab₃
  obtain ⟨m₅, hm₅, h₅, hk₅⟩ := clear' (MMIOBASE + roundup 4097 0x1000) h₄ (by decide) htab₄
  refine ⟨MMIOBASE + roundup 4097 0x1000 + roundup 4096 0x1000, m₅, l₂, ?_, ?_, h₅, ?_⟩
  · simp only [checkMmio, hm₁, hm₂, hm₃, hm₄, hm₅, Option.bind_eq_bind, Option.bind_some]
    rfl
  · exact ⟨by decide, by decide⟩
  · rw [missing_congr hk₅, missing_congr hk₄, missing_congr hk₃]
    omega

namespace BootConfig

variable (cfg : BootConfig)

/-- After `page_init` nothing refers to a page of the pool. -/
theorem kernBoot_pageInit {m₀ : Mem} (hm : m₀.pageFreeList = none) :
    ∃ l, KernBoot cfg.machine cfg.pool
        (pageInit cfg.npages cfg.npagesBasemem cfg.kernel (cfg.initPgdir m₀)) l ∧
      ∀ p, p ∈ l ↔ p ∈ cfg.pool.carrier := by
  obtain ⟨hphys, l, ⟨hchain, href⟩, hl⟩ := cfg.pageInit_spec (m := cfg.initPgdir m₀) hm
  generalize pageInit cfg.npages cfg.npagesBasemem cfg.kernel (cfg.initPgdir m₀) = m at *
  have hzero : ∀ i, i ≠ pdx UVPT → tableOf m cfg.machine.kernPgdir i = none := by
    intro i hi
    rw [tableOf, hphys, initPgdir, Mem.phys_write_of_ne_index _ _ _ hi, Mem.phys_zero_self]
    exact entryFrame_zero
  have htar : ∀ k, target cfg.machine m noDirs k = none := by
    intro k
    cases k with
    | dir e => rfl
    | table e i => rfl
    | page e v => rfl
    | kern i =>
        simp only [target]
        split
        · next hc => exact hzero i hc.2
        · rfl
  have howners : ∀ p, owners (target cfg.machine m noDirs) p = 0 := fun p ↦ by
    simp [owners_eq_zero_iff, htar]
  refine ⟨l, ⟨⟨⟨hchain, fun p ↦ ?_, fun p hp ↦ ?_, fun p hp hpl ↦ ?_, by simp⟩, fun k p hk ↦ ?_,
    fun k _ p hk ↦ ?_⟩, fun i t h1 h2 h3 ht ↦ ?_, fun i h1 h2 h3 ↦ ?_⟩, hl⟩
  · simp [hl, howners]
  · rw [howners, href p ((hl p).mpr hp)]
    rfl
  · exact absurd ((hl p).mpr hp) hpl
  · rw [htar] at hk
    cases hk
  · rw [htar] at hk
    cases hk
  · rw [hzero i h3] at ht
    cases ht
  · exact fun hP ↦ absurd hP (entryFrame_eq_none.mp (hzero i h3))

theorem pagesSize_toNat :
    (BitVec.ofNat 32 (cfg.npages * sizeofPageInfo)).toNat = cfg.npages * 8 := by
  have hn := cfg.npages_le
  rw [BitVec.toNat_ofNat, sizeofPageInfo]
  omega

theorem mapOk_upages :
    MapOk UPAGES (BitVec.ofNat 32 (cfg.npages * sizeofPageInfo)) (PTE_U ||| PTE_P) := by
  have hn := cfg.npages_le
  refine mapOk_user (i := 956) (by decide) ?_ (by decide) (by decide) (by decide)
  rw [cfg.pagesSize_toNat, show UPAGES.toNat = 4009754624 from rfl]
  omega

theorem mapOk_pages :
    MapOk cfg.layout.pages (BitVec.ofNat 32 (cfg.npages * sizeofPageInfo)) (PTE_W ||| PTE_P) := by
  obtain ⟨-, -, hpages, -⟩ := cfg.layout_bounds
  have hge : KERNBASE.toNat ≤ cfg.layout.pages.toNat := hpages
  have hmap := cfg.pages_mapped
  have hKB : KERNBASE.toNat = 4026531840 := rfl
  simp only [hKB, PTSIZE, PGSIZE, NPTENTRIES, sizeofPageInfo] at hmap hge
  refine mapOk_kernel 960 961 hge ?_ (by decide) (by decide) (by decide)
  rw [cfg.pagesSize_toNat]
  exact hmap

theorem mapOk_uenvs : MapOk UENVS (BitVec.ofNat 32 sizeofEnvs) (PTE_U ||| PTE_P) :=
  mapOk_user (i := 955) (by decide) (by decide) (by decide) (by decide) (by decide)

theorem mapOk_bootstack : MapOk (KSTACKTOP - KSTKSIZE) KSTKSIZE (PTE_W ||| PTE_P) :=
  mapOk_kernel 959 960 (by decide) (by decide) (by decide) (by decide) (by decide)

theorem mapOk_kstack (i : CpuId) : MapOk (KSTACKTOP - BitVec.ofNat 32 i.val * (KSTKSIZE + KSTKGAP) -
    KSTKSIZE) KSTKSIZE (PTE_W ||| PTE_P) :=
  mapOk_kernel 959 960 (by revert i; decide) (by revert i; decide) (by decide) (by decide)
    (by decide)

theorem mapOk_kernbase : MapOk KERNBASE (-KERNBASE) (PTE_W ||| PTE_P) :=
  mapOk_kernel 960 1024 (by decide) (by decide) (by decide) (by decide) (by decide)

/-- The mappings of `mem_init`. -/
theorem bootStep_mapKernel : BootStep cfg.machine cfg.pool cfg.mapKernel := by
  obtain ⟨-, -, hpages, henvs⟩ := cfg.layout_bounds
  have hmp : BootStep cfg.machine cfg.pool cfg.memInitMp := BootStep.foldlM (fun i ↦
    .paddr (fun pa ↦ bootStep_bootMapRegion (mapOk_kstack i) pa) (cfg.le_percpuKstacks i)) _
  have hall := (BootStep.paddr (bootStep_bootMapRegion cfg.mapOk_upages) hpages).bind <|
    (BootStep.paddr (bootStep_bootMapRegion cfg.mapOk_pages) hpages).bind <|
    (BootStep.paddr (bootStep_bootMapRegion mapOk_uenvs) henvs).bind <|
    (BootStep.paddr (bootStep_bootMapRegion mapOk_bootstack) cfg.le_bootstack).bind <|
    hmp.bind (bootStep_bootMapRegion (M := cfg.pool) mapOk_kernbase 0)
  simp only [bind_assoc] at hall
  exact hall

/-- `mem_init` ends with the kernel's mappings made, and all else free. -/
theorem memInit_spec {m₀ m : Mem} {base : Word} (hm : m₀.pageFreeList = none)
    (h : cfg.MemInit m₀ base m) :
    MmioBase base ∧ ∃ l, KernBoot cfg.machine cfg.pool m l := by
  obtain ⟨m₁, m₂, m₃, ht₁, hmmio, hmap, ht₂⟩ := h
  obtain ⟨l₀, h₀, -⟩ := cfg.kernBoot_pageInit hm
  obtain ⟨l₁, -, h₁, -⟩ := h₀.selfTested ht₁
  obtain ⟨hbase, l₂, h₂⟩ := h₁.checkMmio_keeps hmmio
  obtain ⟨l₃, h₃⟩ := cfg.bootStep_mapKernel.keeps h₂ hmap
  obtain ⟨l₄, -, h₄, -⟩ := h₃.selfTested ht₂
  exact ⟨hbase, l₄, h₄⟩

theorem missing_le (B : Machine) (m : Mem) : missing B m ≤ 69 := by
  have hcard : (Finset.Ico 955 1024).card = 69 := by decide
  rw [← hcard]
  refine Finset.card_le_card_of_injOn (fun i : Fin NPDENTRIES ↦ i.val) (fun i hi ↦ ?_)
    fun i _ j _ hij ↦ Fin.ext hij
  rw [Finset.mem_coe, Finset.mem_filter] at hi
  exact Finset.mem_coe.mpr (Finset.mem_Ico.mpr ⟨hi.2.1, i.isLt⟩)

/-- With pages enough `mem_init` succeeds, whatever was in memory before. -/
theorem exists_memInit {m₀ : Mem} (hm : m₀.pageFreeList = none) (xs : List ℕ) (hnd : xs.Nodup)
    (hxs : ∀ p ∈ xs, p ∈ cfg.pool.carrier) (hlen : 69 ≤ xs.length) :
    ∃ base m l, cfg.MemInit m₀ base m ∧ KernBoot cfg.machine cfg.pool m l ∧
      xs.length ≤ l.length + 69 := by
  obtain ⟨l₀, h₀, hl₀⟩ := cfg.kernBoot_pageInit hm
  have hle : xs.length ≤ l₀.length :=
    (List.subperm_of_subset hnd fun p hp ↦ (hl₀ p).mpr (hxs p hp)).length_le
  have hmiss := missing_le cfg.machine
    (pageInit cfg.npages cfg.npagesBasemem cfg.kernel (cfg.initPgdir m₀))
  obtain ⟨base, m₁, l₁, hmmio, -, h₁, hroom₁⟩ := h₀.checkMmio_succeeds (by omega)
  obtain ⟨m₂, l₂, hmap, h₂, hroom₂⟩ := cfg.bootStep_mapKernel.succeeds h₁ (by omega)
  exact ⟨base, m₂, l₂, ⟨_, m₁, m₂, selfTested_refl h₀, hmmio, hmap, selfTested_refl h₂⟩, h₂,
    by omega⟩

end BootConfig

end Jos
