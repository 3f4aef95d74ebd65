import Jos.Kern.AddrSpace
import Jos.Kern.Env
import Jos.Lib.Loop

/-!
# Building and tearing down address spaces

`env_setup_vm` adds a directory to the family, and `env_free` takes one away: it clears the
page table entries of the environment one by one, then each directory entry, then the directory
itself.  The loops are followed with an invariant that names the entries already cleared.
-/

namespace Jos

open Jos.Lib

variable {ι : Type} [Fintype ι] [DecidableEq ι] {B : Machine} {M : Pool B} {m m' : Mem}
  {dirs dirs' : ι → Option ℕ} {loose : Set ℕ} {l l' : List ℕ}

/-! ## Copying the kernel's half -/

section Copy

variable (B)

/-- A fold of stores into frame `d`, each of the entry of `kern_pgdir` at the same index. -/
theorem phys_foldl_copy (xs : List ℕ) (m : Mem) {d : ℕ} (hd : d ≠ B.kernPgdir) :
    (xs.foldl (fun m x ↦ m.write d x (m.phys B.kernPgdir x)) m).phys =
      Function.update m.phys d fun x ↦ if x ∈ xs then m.phys B.kernPgdir x else m.phys d x := by
  induction xs generalizing m with
  | nil => simp
  | cons x xs ih =>
      rw [List.foldl_cons, ih]
      funext f y
      by_cases hf : f = d
      · subst hf
        rw [Function.update_self, Function.update_self,
          Mem.phys_write_of_ne_frame m x _ hd.symm]
        by_cases hy : y = x
        · subst hy
          simp
        · simp [Mem.phys_write_of_ne_index m f _ hy, hy]
      · rw [Function.update_of_ne hf, Function.update_of_ne hf,
          Mem.phys_write_of_ne_frame m x _ hf]

theorem pages_foldl_copy (xs : List ℕ) (m : Mem) (d : ℕ) :
    (xs.foldl (fun m x ↦ m.write d x (m.phys B.kernPgdir x)) m).pages = m.pages := by
  induction xs generalizing m with
  | nil => rfl
  | cons x xs ih => exact ih (m.write d x (m.phys B.kernPgdir x))

theorem pageFreeList_foldl_copy (xs : List ℕ) (m : Mem) (d : ℕ) :
    (xs.foldl (fun m x ↦ m.write d x (m.phys B.kernPgdir x)) m).pageFreeList =
      m.pageFreeList := by
  induction xs generalizing m with
  | nil => rfl
  | cons x xs ih => exact ih (m.write d x (m.phys B.kernPgdir x))

@[simp] theorem link_copyKernPdes (m : Mem) (d : ℕ) : (copyKernPdes B m d).link = m.link := by
  funext x
  rw [Mem.link, copyKernPdes, pages_foldl_copy, Mem.link]

@[simp] theorem ref_copyKernPdes (m : Mem) (d : ℕ) : (copyKernPdes B m d).ref = m.ref := by
  funext x
  rw [Mem.ref, copyKernPdes, pages_foldl_copy, Mem.ref]

@[simp] theorem pageFreeList_copyKernPdes (m : Mem) (d : ℕ) :
    (copyKernPdes B m d).pageFreeList = m.pageFreeList := pageFreeList_foldl_copy B _ m d

theorem phys_copyKernPdes (m : Mem) {d : ℕ} (hd : d ≠ B.kernPgdir) :
    (copyKernPdes B m d).phys = Function.update m.phys d fun x ↦
      if NUPDE ≤ x ∧ x < NPDENTRIES then m.phys B.kernPgdir x else m.phys d x := by
  rw [copyKernPdes, phys_foldl_copy B _ m hd]
  have hp : pdx UTOP = NUPDE := by decide
  simp [hp, and_comm]

end Copy

/-- The directory entry of the window at `UVPT`: the directory itself, readable by the user. -/
def uvptEntry (d : ℕ) : Word := page2pa d ||| PTE_P ||| PTE_U

/-- The kernel's half of directory `d` is that of `kern_pgdir`, but for the window at `UVPT`. -/
def KernHalf (B : Machine) (m : Mem) (d : ℕ) : Prop :=
  ∀ i, NUPDE ≤ i → i < NPDENTRIES →
    m.phys d i = if i = pdx UVPT then uvptEntry d else m.phys B.kernPgdir i

/-- What a new directory changes in memory. -/
structure SetUp (B : Machine) (m m' : Mem) (p : ℕ) : Prop where
  other : ∀ x, x ≠ p → m'.phys x = m.phys x
  empty : ∀ i < NUPDE, m'.phys p i = 0
  half : KernHalf B m' p

/-- `env_setup_vm` makes an empty address space with the kernel's half, unless there is no free
page; then it changes nothing. -/
theorem Own.envSetupVm_spec (h : Own B M m dirs loose l) {e : ι} (he : dirs e = none) :
    (l = [] ∧ envSetupVm B m = some (.error (-E_NO_MEM), m)) ∨
    ∃ p l' m', l = p :: l' ∧ envSetupVm B m = some (.ok p, m') ∧
      Own B M m' (Function.update dirs e (some p)) loose l' ∧ SetUp B m m' p ∧
      Jos.target B m' (Function.update dirs e (some p)) =
        Function.update (Jos.target B m dirs) (.dir e) (some p) := by
  cases hl : l with
  | nil => exact .inl ⟨rfl, by simp [envSetupVm, h.pageAlloc_empty hl]⟩
  | cons p l' =>
      have hpl : p ∈ l := by simp [hl]
      have hpM := h.list_sub hpl
      have hpk := M.ne_kern hpM
      obtain ⟨halloc, -, -⟩ := h.pageAlloc_cons hl
      have href : (m.taken p).ref = m.ref := by simp [Mem.taken]
      obtain ⟨mc, hmc, hphys, hlinkc, hrefc, hfreec⟩ : ∃ mc,
          copyKernPdes B ((m.taken p).setRef p (m.ref p + 1)) p = mc ∧
          mc.phys = (Function.update (m.zero p).phys p fun x ↦
            if NUPDE ≤ x ∧ x < NPDENTRIES then (m.zero p).phys B.kernPgdir x else 0) ∧
          mc.link = (m.taken p).link ∧ mc.ref = Function.update m.ref p (m.ref p + 1) ∧
          mc.pageFreeList = (m.taken p).pageFreeList := by
        refine ⟨_, rfl, ?_, by simp, by simp [href], by simp⟩
        rw [phys_copyKernPdes B _ hpk]
        simp [Mem.taken]
      let m' := mc.write p (pdx UVPT) (uvptEntry p)
      have hset : SetUp B m m' p := by
        refine ⟨fun x hx ↦ ?_, fun i hi ↦ ?_, fun i hi hi' ↦ ?_⟩
        · rw [Mem.phys_write_of_ne_frame _ _ _ hx, hphys, Function.update_of_ne hx,
            Mem.phys_zero_of_ne m hx]
        · have hne : i ≠ pdx UVPT := by
            have : pdx UVPT = 957 := by decide
            simp only [NUPDE] at hi
            omega
          rw [Mem.phys_write_of_ne_index _ _ _ hne, hphys, Function.update_self, if_neg (by omega)]
        · have hk : m'.phys B.kernPgdir = m.phys B.kernPgdir := by
            rw [Mem.phys_write_of_ne_frame _ _ _ hpk.symm, hphys, Function.update_of_ne hpk.symm,
              Mem.phys_zero_of_ne m hpk.symm]
          rw [hk]
          split
          · next hc =>
              subst hc
              exact Mem.phys_write_self _ _ _ _
          · next hc =>
              rw [Mem.phys_write_of_ne_index _ _ _ hc, hphys, Function.update_self,
                if_pos ⟨hi, hi'⟩, Mem.phys_zero_of_ne m hpk.symm]
      have htar : target B m' (Function.update dirs e (some p)) =
          Function.update (target B m dirs) (.dir e) (some p) := by
        rw [target_update_dirs (o := none) (by simp) ?_ he]
        · rw [(h.inert_of_mem_list hpl).target_eq hset.other]
        · rintro d ⟨⟩ i hi
          rw [hset.empty i hi]
          exact not_isSet_zero _
      refine .inr ⟨p, l', m', rfl, ?_, ?_, hset, htar⟩
      · simp only [envSetupVm, halloc, Option.bind_eq_bind, Option.bind_some, kaddr_page2pa hpM,
          href, hmc]
        rfl
      · exact h.linkFresh (Function.update dirs e (some p)) hl (k := .dir e) he
          hlinkc hfreec hrefc htar

/-! ## The kernel's tables -/

/-- `kern_pgdir` and the kernel's page tables are as before. -/
structure KernSame (B : Machine) (m m' : Mem) : Prop where
  pgdir : m'.phys B.kernPgdir = m.phys B.kernPgdir
  tables : ∀ i x, NUPDE ≤ i → i < NPDENTRIES → i ≠ pdx UVPT →
    tableOf m B.kernPgdir i = some x → m'.phys x = m.phys x

namespace KernSame

theorem refl (m : Mem) : KernSame B m m := ⟨rfl, fun _ _ _ _ _ _ ↦ rfl⟩

theorem trans {m'' : Mem} (h : KernSame B m m') (h' : KernSame B m' m'') : KernSame B m m'' where
  pgdir := h'.pgdir.trans h.pgdir
  tables i x h1 h2 h3 hx := by
    have hx' : tableOf m' B.kernPgdir i = some x := by rw [← hx, tableOf, tableOf, h.pgdir]
    rw [h'.tables i x h1 h2 h3 hx', h.tables i x h1 h2 h3 hx]

/-- Memory that differs in one frame only, and that not one of the kernel's. -/
theorem of_frame {x : ℕ} (heq : ∀ y, y ≠ x → m'.phys y = m.phys y) (hk : B.kernPgdir ≠ x)
    (ht : ∀ i y, NUPDE ≤ i → i < NPDENTRIES → i ≠ pdx UVPT →
      tableOf m B.kernPgdir i = some y → y ≠ x) : KernSame B m m' :=
  ⟨heq _ hk, fun i y h1 h2 h3 hy ↦ heq y (ht i y h1 h2 h3 hy)⟩

end KernSame

/-- The kernel's directory entries leave the permissions to the tables. -/
def KOpen (B : Machine) (m : Mem) : Prop :=
  ∀ i, NUPDE ≤ i → i < NPDENTRIES → i ≠ pdx UVPT → OpenPde (m.phys B.kernPgdir i)

/-- All directory entries do, but for the windows at `UVPT`. -/
structure PdesOpen (B : Machine) (m : Mem) (dirs : ι → Option ℕ) : Prop where
  kern : KOpen B m
  user : ∀ e d i, dirs e = some d → i < NUPDE → OpenPde (m.phys d i)

omit [Fintype ι] [DecidableEq ι] in
theorem target_kern {i x : ℕ} (h1 : NUPDE ≤ i) (h2 : i < NPDENTRIES) (h3 : i ≠ pdx UVPT)
    (hx : tableOf m B.kernPgdir i = some x) : target B m dirs (.kern ⟨i, h2⟩) = some x := by
  simp only [target]
  rw [if_pos ⟨h1, h3⟩, hx]

namespace Own

variable (h : Own B M m dirs loose l)

include h

theorem kern_ne_dir {i x : ℕ} (h1 : NUPDE ≤ i) (h2 : i < NPDENTRIES) (h3 : i ≠ pdx UVPT)
    (hx : tableOf m B.kernPgdir i = some x) {e : ι} {d : ℕ} (hd : dirs e = some d) : d ≠ x := by
  rintro rfl
  have hk : target B m dirs (.dir e) = some d := hd
  cases h.excl.eq_of_eq_some (Key.kern_structural _) (target_kern h1 h2 h3 hx) hk

theorem kern_ne_table {i x : ℕ} (h1 : NUPDE ≤ i) (h2 : i < NPDENTRIES) (h3 : i ≠ pdx UVPT)
    (hx : tableOf m B.kernPgdir i = some x) {e : ι} {d j t : ℕ} (hd : dirs e = some d)
    (hj : j < NUPDE) (ht : tableOf m d j = some t) : t ≠ x := by
  rintro rfl
  have hk : target B m dirs (.table e ⟨j, hj⟩) = some t := by rw [target_table hd hj, ht]
  cases h.excl.eq_of_eq_some (Key.kern_structural _) (target_kern h1 h2 h3 hx) hk

theorem kernSame (hf : Frame m m' dirs l) : KernSame B m m' := by
  refine ⟨hf.other _ (fun hc ↦ M.kern (h.list_sub hc)) (fun e d hd ↦ (h.dir_ne_kern hd).symm)
    fun e d i t hd hi ht ↦ M.ne_kern (h.table_mem hd hi ht), fun i x h1 h2 h3 hx ↦ ?_⟩
  have hpos : 0 < owners (target B m dirs) x := owners_pos (target_kern h1 h2 h3 hx)
  exact hf.other x (h.ledger.notMem_of_pos hpos) (fun e d hd ↦ h.kern_ne_dir h1 h2 h3 hx hd)
    fun e d j t hd hj ht ↦ h.kern_ne_table h1 h2 h3 hx hd hj ht

/-- Page operations keep the directory entries open. -/
theorem pdesOpen (ho : PdesOpen B m dirs) (hf : Frame m m' dirs l) : PdesOpen B m' dirs where
  kern i h1 h2 h3 := by
    rw [(h.kernSame hf).pgdir]
    exact ho.kern i h1 h2 h3
  user e d i hd hi := by
    rcases hf.entries e d i hd hi with heq | hopen
    · rw [heq]
      exact ho.user e d i hd hi
    · exact hopen

/-- Dropping the reference of one key, when the allocator and the tables agree on it. -/
theorem clearKey {k : Key ι} {q : ℕ} (hq : target B m dirs k = some q)
    (hled : Ledger M.carrier m'.link m'.pageFreeList m'.ref (Function.update
      (owners (target B m dirs)) q (owners (target B m dirs) q - 1)) loose l')
    (ht : target B m' dirs' = Function.update (target B m dirs) k none) :
    Own B M m' dirs' loose l' := by
  have howners : owners (Function.update (target B m dirs) k none) =
      Function.update (owners (target B m dirs)) q (owners (target B m dirs) q - 1) := by
    funext x
    rw [owners_clear hq]
    by_cases hx : x = q
    · subst hx; simp
    · simp [hx]
  refine ⟨?_, fun k' p hp ↦ ?_, ?_⟩
  · rw [ht, howners]
    exact hled
  · rw [ht] at hp
    by_cases hc : k' = k
    · rw [hc, Function.update_self] at hp
      cases hp
    · rw [Function.update_of_ne hc] at hp
      exact h.valid k' p hp
  · rw [ht]
    exact h.excl.clear k

end Own

/-! ## Tearing an address space down -/

/-- Translations of `e` went away, and with them references; nothing else changed. -/
structure Shrunk (B : Machine) (m m' : Mem) (dirs : ι → Option ℕ) (e : ι) : Prop where
  frame : ∀ d, dirs e = some d → ∀ x, x ≠ d → (∀ i < NUPDE, tableOf m d i ≠ some x) →
    m'.phys x = m.phys x
  tables : ∀ d, dirs e = some d → ∀ i < NUPDE, ∀ t, tableOf m' d i = some t →
    tableOf m d i = some t
  ref : ∀ p, Jos.Lib.owners (target B m dirs) p = 0 → m'.ref p = m.ref p
  kern : KernSame B m m'
  upper : ∀ e' d', dirs e' = some d' → ∀ i, NUPDE ≤ i → m'.phys d' i = m.phys d' i
  others : ∀ e' d', dirs e' = some d' → e' ≠ e → ∀ v < NUPG, translate m' d' v = translate m d' v
  owners : ∀ x, owners (target B m' dirs) x ≤ owners (target B m dirs) x

namespace Shrunk

omit [DecidableEq ι] in
theorem refl (m : Mem) (dirs : ι → Option ℕ) (e : ι) : Shrunk B m m dirs e :=
  ⟨fun _ _ _ _ _ ↦ rfl, fun _ _ _ _ _ ht ↦ ht, fun _ _ ↦ rfl, .refl m, fun _ _ _ _ _ ↦ rfl,
    fun _ _ _ _ _ _ ↦ rfl, fun _ ↦ le_rfl⟩

omit [DecidableEq ι] in
theorem trans {m'' : Mem} {e : ι} (h : Shrunk B m m' dirs e) (h' : Shrunk B m' m'' dirs e) :
    Shrunk B m m'' dirs e where
  frame d hd x hx ht := by
    rw [h'.frame d hd x hx fun i hi hc ↦ ht i hi (h.tables d hd i hi x hc), h.frame d hd x hx ht]
  tables d hd i hi t ht := h.tables d hd i hi t (h'.tables d hd i hi t ht)
  ref p hp := by
    rw [h'.ref p (Nat.le_zero.mp (hp ▸ h.owners p)), h.ref p hp]
  kern := h.kern.trans h'.kern
  upper e' d' hd' i hi := by rw [h'.upper e' d' hd' i hi, h.upper e' d' hd' i hi]
  others e' d' hd' he v hv := by rw [h'.others e' d' hd' he v hv, h.others e' d' hd' he v hv]
  owners x := (h'.owners x).trans (h.owners x)

end Shrunk

theorem Unmapped.shrunk (h : Own B M m dirs loose l) (h' : Own B M m' dirs loose l') {e : ι}
    {d : ℕ} (hd : dirs e = some d) {va : Word} (hva : va < UTOP)
    (hrem : pageRemove B m d va = some m') (hu : Unmapped B m m' dirs l l' e (upn hva)) :
    Shrunk B m m' dirs e where
  frame d' hd' x _ ht := by
    obtain rfl : d = d' := Option.some.inj (hd.symm.trans hd')
    exact (pageRemove_frame hrem).1 x (ht (pdx va) (pdx_lt_of_lt_UTOP hva))
  tables d' hd' i _ t ht := by
    rwa [tableOf, hu.dir e d' hd'] at ht
  ref p hp := by
    refine (pageRemove_frame hrem).2 p fun hc ↦ ?_
    refine owners_eq_zero_iff.mp hp (.page e (upn hva)) ?_
    rw [upn, target_page hd, hc]
  kern := h.kernSame hu.frame
  upper e' d' hd' i hi := hu.frame.upper e' d' hd' i hi
  others e' d' hd' he v' hv' := by
    rw [hu.translate e' d' v' hd' hv', if_neg fun hc ↦ he hc.1]
  owners x := by
    by_cases hx : x ∈ l
    · rw [h'.owners_of_mem_list (hu.list_sub x hx)]
      exact Nat.zero_le _
    · rw [hu.owners x hx]
      simp

theorem translate_eq_none_iff {d i t j : ℕ} (ht : tableOf m d i = some t) (hj : j < 1024) :
    translate m d (i * 1024 + j) = none ↔ ¬ isSet (m.phys t j) PTE_P := by
  rw [translate, entry_eq_none, pteOf_of_table (t := t) (by
    rw [show (i * 1024 + j) / 1024 = i by omega]; exact ht),
    show (i * 1024 + j) % 1024 = j by omega]

namespace Own

variable (h : Own B M m dirs loose l) (hb : Bounded B m dirs) {e : ι} {d : ℕ}
  (hd : dirs e = some d)

include h hb hd

/-- The inner loop of `env_free` leaves the table with no present entry. -/
theorem envFreePtes_spec {i t : ℕ} (hi : i < NUPDE) (ht : tableOf m d i = some t) :
    ∃ m' l', envFreePtes B m d t i = some m' ∧ Own B M m' dirs loose l' ∧
      Shrunk B m m' dirs e ∧ m'.phys d = m.phys d ∧
      ∀ j < 1024, ¬ isSet (m'.phys t j) PTE_P := by
  have tab : ∀ m' : Mem, m'.phys d = m.phys d → tableOf m' d i = some t := fun m' hm' ↦ by
    rw [tableOf, hm']
    exact ht
  -- at the start of round `n`, the entries below `n` are clear
  obtain ⟨m', hrun, l', hown, hsh, hdir, hclear⟩ := foldlM_range_some (n := NPTENTRIES)
    (f := fun m pteno ↦ if isSet (m.phys t pteno) PTE_P then pageRemove B m d (pgaddr i pteno 0)
      else some m)
    (P := fun n m' ↦ ∃ l', Own B M m' dirs loose l' ∧ Shrunk B m m' dirs e ∧
      m'.phys d = m.phys d ∧ ∀ j < n, ¬ isSet (m'.phys t j) PTE_P)
    (by
      rintro n hn m₁ ⟨l₁, hown, hsh, hdir, hclear⟩
      have hn' : n < 1024 := hn
      by_cases hP : isSet (m₁.phys t n) PTE_P
      · have hva := pgaddr_lt_UTOP hi hn'
        have hpg : pgnum (pgaddr i n 0) = i * 1024 + n :=
          pgnum_pgaddr (by simp only [NUPDE] at hi; omega) hn'
        obtain ⟨m₂, l₂, hrem, hown₂, hun, -⟩ := hown.pageRemove_spec hd hva fun q _ ↦
          (hsh.owners q).trans ((hb q).trans (by decide))
        have hdir₂ := (hun.dir e d hd).trans hdir
        refine ⟨m₂, by rw [if_pos hP, hrem], l₂, hown₂, hsh.trans
          (hun.shrunk hown hown₂ hd hva hrem), hdir₂, fun j hj ↦ ?_⟩
        have hj' : j < 1024 := by omega
        have htr := hun.translate e d (i * 1024 + j) hd (vpn_lt_NUPG hi hj')
        have hup : (upn hva : ℕ) = i * 1024 + n := hpg
        rw [← translate_eq_none_iff (tab m₂ hdir₂) hj', htr, hup]
        by_cases hjn : j = n
        · rw [hjn]
          exact if_pos ⟨rfl, rfl⟩
        · rw [if_neg (by omega), translate_eq_none_iff (tab m₁ hdir) hj']
          exact hclear j (by omega)
      · refine ⟨m₁, if_neg hP, l₁, hown, hsh, hdir, fun j hj ↦ ?_⟩
        by_cases hjn : j = n
        · rw [hjn]
          exact hP
        · exact hclear j (by omega))
    (s := m) ⟨l, h, .refl m dirs e, rfl, fun j hj ↦ absurd hj (Nat.not_lt_zero j)⟩
  exact ⟨m', l', hrun, hown, hsh, hdir, hclear⟩

/-- One round of the outer loop of `env_free` takes the table away. -/
theorem envFreePde_spec {i : ℕ} (hi : i < NUPDE) :
    ∃ m' l', envFreePde B d m i = some m' ∧ Own B M m' dirs loose l' ∧ Shrunk B m m' dirs e ∧
      ¬ isSet (m'.phys d i) PTE_P ∧ ∀ j, j ≠ i → m'.phys d j = m.phys d j := by
  cases ht : tableOf m d i with
  | none =>
      have hP := tableOf_eq_none.mp ht
      exact ⟨m, l, by simp [envFreePde, hP], h, .refl m dirs e, hP, fun _ _ ↦ rfl⟩
  | some t =>
      have hP := (isSet_of_entryFrame ht).1
      have htM := h.table_mem hd hi ht
      obtain ⟨m₁, l₁, hloop, hown, hsh, hdir, hclear⟩ := h.envFreePtes_spec hb hd hi ht
      have ht₁ : tableOf m₁ d i = some t := by
        rw [tableOf, hdir]
        exact ht
      have hk : target B m₁ dirs (.table e ⟨i, hi⟩) = some t := by rw [target_table hd hi, ht₁]
      have hone : owners (target B m₁ dirs) t = 1 :=
        hown.excl _ (Key.table_structural e ⟨i, hi⟩) t hk
      have hled : Ledger M.carrier (m₁.write d i 0).link (m₁.write d i 0).pageFreeList
          (m₁.write d i 0).ref (owners (target B m₁ dirs)) loose l₁ := hown.ledger
      obtain ⟨m₂, hdec, hphys, hled₂⟩ := pageDecref_spec hled htM (by omega) (by omega)
      have htar : target B m₂ dirs = Function.update (target B m₁ dirs) (.table e ⟨i, hi⟩)
          none := by
        rw [target_congr hphys, target_clear_pde hown hd hi ht₁ hclear]
      refine ⟨m₂, _, ?_, hown.clearKey hk hled₂ htar,
        hsh.trans ⟨?_, ?_, ?_, ?_, ?_, ?_, ?_⟩, ?_, ?_⟩
      · have hka := kaddr_pteAddr (M := M) (w := m.phys d i) ht htM
        have hpa := pa2page_pteAddr (M := M) (w := m.phys d i) ht htM
        simp [envFreePde, hP, hka, hpa, hloop]
        exact hdec
      · intro d' hd' x hx _
        obtain rfl : d = d' := Option.some.inj (hd.symm.trans hd')
        rw [hphys, m₁.phys_write_of_ne_frame i 0 hx]
      · intro d' hd' i' _ t' ht'
        rw [tableOf_congr hphys, tableOf_write_pde hown hd 0 hd'] at ht'
        split at ht'
        · cases entryFrame_zero.symm.trans ht'
        · exact ht'
      · intro p hp
        refine (pageDecref_frame hdec).2 p ?_
        rintro rfl
        omega
      · refine .of_frame (x := d) (fun y hy ↦ ?_) (hown.dir_ne_kern hd)
          fun i' y h1 h2 h3 hy ↦ (hown.kern_ne_dir h1 h2 h3 hy hd).symm
        rw [hphys, m₁.phys_write_of_ne_frame i 0 hy]
      · intro e' d' hd' i' hi'
        rw [hphys]
        by_cases hdd : d' = d
        · subst hdd
          exact m₁.phys_write_of_ne_index d' 0 (by omega)
        · rw [m₁.phys_write_of_ne_frame i 0 hdd]
      · intro e' d' hd' he v hv
        rw [translate, pteOf_congr hphys, pteOf_write_pde hown hd 0 hd' hv fun hc ↦ he hc.1]
        rfl
      · intro x
        rw [htar]
        exact owners_clear_le _ _ x
      · rw [hphys, Mem.phys_write_self]
        exact not_isSet_zero _
      · intro j hj
        rw [hphys, m₁.phys_write_of_ne_index d 0 hj, hdir]

/-- `env_free` empties the address space of `e` and gives its directory back. -/
theorem envFree_mem_spec :
    ∃ m₁ m' l', (List.range (pdx UTOP)).foldlM (envFreePde B d) m = some m₁ ∧
      pa2page B (page2pa d) = some d ∧ pageDecref m₁ d = some m' ∧
      Own B M m' (Function.update dirs e none) loose l' ∧ Shrunk B m m₁ dirs e ∧
      m'.phys = m₁.phys ∧
      target B m' (Function.update dirs e none) =
        Function.update (target B m₁ dirs) (.dir e) none := by
  have hdM := h.dir_mem hd
  -- at the start of round `n`, the directory entries below `n` are clear
  obtain ⟨m₁, hrun, l₁, hown, hsh, hclear⟩ := foldlM_range_some (n := pdx UTOP)
    (f := envFreePde B d)
    (P := fun n m' ↦ ∃ l', Own B M m' dirs loose l' ∧ Shrunk B m m' dirs e ∧
      ∀ i < n, ¬ isSet (m'.phys d i) PTE_P)
    (by
      rintro n hn m₁ ⟨l₁, hown, hsh, hclear⟩
      have hn' : n < NUPDE := hn
      obtain ⟨m₂, l₂, hrun, hown₂, hsh₂, hP, hrest⟩ := hown.envFreePde_spec
        (fun x ↦ (hsh.owners x).trans (hb x)) hd hn'
      refine ⟨m₂, hrun, l₂, hown₂, hsh.trans hsh₂, fun i hi ↦ ?_⟩
      by_cases hin : i = n
      · rw [hin]
        exact hP
      · rw [hrest i hin]
        exact hclear i (by omega))
    (s := m) ⟨l, h, .refl m dirs e, fun i hi ↦ absurd hi (Nat.not_lt_zero i)⟩
  have hk : target B m₁ dirs (.dir e) = some d := hd
  have hone : owners (target B m₁ dirs) d = 1 := hown.excl _ (Key.dir_structural e) d hk
  obtain ⟨m', hdec, hphys, hled⟩ := pageDecref_spec hown.ledger hdM (by omega) (by omega)
  have htar : target B m' (Function.update dirs e none) =
      Function.update (target B m₁ dirs) (.dir e) none := by
    rw [target_congr hphys, target_update_dirs (o := some d) ?_ (by simp) hd]
    rintro d' ⟨⟩ i hi
    exact hclear i hi
  refine ⟨m₁, m', _, hrun, ?_, hdec, hown.clearKey hk hled htar, hsh, hphys, htar⟩
  rw [pa2page, pgnum_page2pa (M.lt_two_pow hdM), if_neg (by have := M.lt d hdM; omega)]

end Own

end Jos
