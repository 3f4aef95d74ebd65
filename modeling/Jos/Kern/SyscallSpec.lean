import Jos.Kern.KernInv

/-!
# What the system calls do

One specification for each system call that touches memory or the list of environments, under
the invariant `Inv`: the call does not panic, keeps the invariant, and its effect on memory is
bounded by `Evolve`.  `Mine s cur` are the environments a call may address with a permission
check, and the page that `sys_page_map` or `sys_ipc_try_send` hands to `page_insert` is the one
mapped at the source address.
-/

namespace Jos

open Jos.Lib

variable {B : Machine} {M : Pool B} {s s' : Kern} {l l' : List ℕ} {el : List Slot} {cur e : Slot}

/-- The caller and the environments whose parent id is its id. -/
def Mine (s : Kern) (cur : Slot) : Set Slot :=
  {e | e = cur ∨ (s.envs e).envParentId = (s.envs cur).envId}

/-! ## Arguments -/

/-- `envid2env` finds the caller, or an environment that is not free. -/
theorem envid2env_cases {envid : Word} {b : Bool} (h : envid2env s cur envid b = some e) :
    e = cur ∨ s.Live e := by
  simp only [envid2env] at h
  split at h
  · exact .inl (Option.some.inj h).symm
  · split at h
    · cases h
    · next hn =>
        split at h
        · cases h
        · exact .inr (Option.some.inj h ▸ fun hf ↦ hn (.inl hf))

theorem envid2env_live {envid : Word} {b : Bool} (hc : s.Live cur)
    (h : envid2env s cur envid b = some e) : s.Live e := by
  rcases envid2env_cases h with rfl | he
  · exact hc
  · exact he

theorem envid2env_mine {envid : Word} (h : envid2env s cur envid true = some e) :
    e ∈ Mine s cur := by
  simp only [envid2env] at h
  split at h
  · exact .inl (Option.some.inj h).symm
  · split at h
    · cases h
    · split at h
      · cases h
      · next hn =>
          obtain rfl := Option.some.inj h
          by_contra hc
          exact hn ⟨trivial, fun he ↦ hc (.inl he), fun he ↦ hc (.inr he)⟩

theorem lt_UTOP_of_not_badVa {va : Word} (h : ¬ badVa va) : va < UTOP :=
  BitVec.not_le.mp fun hc ↦ h (.inl hc)

theorem not_badVa_pageVa {k : ℕ} (hk : k < NUPG) : ¬ badVa (pageVa k) := by
  have hU : UTOP.toNat = 4005560320 := rfl
  have hk' : k < 977920 := hk
  rintro (hc | hc)
  · rw [BitVec.le_def, pageVa_toNat hk] at hc
    omega
  · refine hc (BitVec.eq_of_toNat_eq ?_)
    rw [pgoff, BitVec.toNat_and, pageVa_toNat hk, show (0xFFF : Word).toNat = 2 ^ 12 - 1 from rfl,
      Nat.and_two_pow_sub_one_eq_mod]
    exact Nat.mul_mod_left k 4096

theorem perm_lt {perm : Word} (h : perm &&& ~~~PTE_SYSCALL = 0) : perm.toNat < 4096 := by
  have hand : perm &&& PTE_SYSCALL = perm := by
    have hor : (perm &&& PTE_SYSCALL) ||| (perm &&& ~~~PTE_SYSCALL) = perm := by
      rw [← BitVec.and_or_distrib_left, BitVec.or_not_self, BitVec.and_allOnes]
    rw [h] at hor
    simpa using hor
  calc perm.toNat = (perm &&& PTE_SYSCALL).toNat := by rw [hand]
    _ ≤ PTE_SYSCALL.toNat := by rw [BitVec.toNat_and]; exact Nat.and_le_right
    _ < 4096 := by decide

theorem perm_lt_of_not_badPerm {perm : Word} (h : ¬ badPerm perm) : perm.toNat < 4096 :=
  perm_lt (by by_contra hc; exact h (.inr hc))

theorem or_perm_lt {perm perm' : Word} (h : perm.toNat < 4096) (h' : perm'.toNat < 4096) :
    (perm ||| perm').toNat < 4096 := by
  rw [BitVec.toNat_or]
  exact Nat.or_lt_two_pow (n := 12) h h'

theorem isSet_or {a b mask : Word} {i : ℕ} (hi : i < 32) (hm : mask = BitVec.twoPow 32 i) :
    isSet (a ||| b) mask ↔ isSet a mask ∨ isSet b mask := by
  rw [hm, isSet_twoPow hi, isSet_twoPow hi, isSet_twoPow hi]
  simp

theorem isSet_W_or_P {perm : Word} : isSet (perm ||| PTE_P) PTE_W ↔ isSet perm PTE_W := by
  rw [isSet_or (i := 1) (by decide) (by decide)]
  simp [show ¬ isSet PTE_P PTE_W by decide]

/-! ## Looking a page up -/

/-- `page_lookup` reads the address space. -/
theorem Inv.pageLookup_space (h : Inv B M s l el) {d : ℕ} (hd : s.dirs e = some d) {va : Word}
    (hva : va < UTOP) :
    (s.space e (pgnum va) = none ∧ pageLookup B s.mem d va = some none) ∨
    ∃ p f t j, s.space e (pgnum va) = some (p, f) ∧
      pageLookup B s.mem d va = some (some (p, t, j)) ∧
      (isSet (s.mem.phys t j) PTE_W ↔ isSet f PTE_W) := by
  rw [Kern.space_eq hd (pgnum_lt_of_lt_UTOP hva)]
  rcases h.own.pageLookup_eq hd hva with ⟨hnone, hlook⟩ | ⟨p, t, hp, -, hword, hlook⟩
  · exact .inl ⟨entry_eq_none.mpr (entryFrame_eq_none.mp hnone), hlook⟩
  · obtain ⟨hP, rfl⟩ := isSet_of_entryFrame hp
    refine .inr ⟨_, _, t, ptx va, entry_of_isSet hP, hlook, ?_⟩
    rw [hword, isSet_flags_W]

/-! ## Handing a page to `page_insert` -/

/-- There is a table for `va`, or a free page for one. -/
def Room (m : Mem) (d : ℕ) (va : Word) : Prop :=
  tableOf m d (pdx va) ≠ none ∨ m.pageFreeList ≠ none

/-- Without a table and without a page for one, `pgdir_walk` gives up at once. -/
theorem pgdirWalk_create_none {m m' : Mem} {d : ℕ} {va : Word} :
    pgdirWalk B m d va true = some (none, m') ↔ ¬ Room m d va ∧ m' = m := by
  rw [Room, not_or, not_not, not_not, tableOf_eq_none, pgdirWalk]
  by_cases hP : isSet (m.phys d (pdx va)) PTE_P
  · simp [hP, Option.bind_eq_some_iff]
  cases hf : m.pageFreeList with
  | none => simp [hP, pageAlloc, hf, eq_comm]
  | some p => simp [hP, pageAlloc, hf, Option.bind_eq_some_iff]

/-- `page_insert` fails exactly if there is no table and no page for one, and has then done
nothing. -/
theorem pageInsert_negative {m m' : Mem} {d p : ℕ} {va perm r : Word}
    (h : pageInsert B m d p va perm = some (r, m')) :
    (r.toInt < 0 ↔ ¬ Room m d va) ∧ (r.toInt < 0 → m' = m) := by
  rcases pageInsert_cases h with ⟨rfl, hwalk⟩ | rfl
  · obtain ⟨hroom, rfl⟩ := pgdirWalk_create_none.mp hwalk
    exact ⟨iff_of_true (by decide) hroom, fun _ ↦ rfl⟩
  · have hpos : ¬ (0 : Word).toInt < 0 := by decide
    refine ⟨iff_of_false hpos fun hroom ↦ ?_, fun hc ↦ absurd hc hpos⟩
    simp only [pageInsert, pgdirWalk_create_none.mpr ⟨hroom, rfl⟩] at h
    have hr : -E_NO_MEM = 0 := congrArg Prod.fst (Option.some.inj h)
    exact absurd hr (by decide)

theorem room_of_pageInsert {m m' : Mem} {d p : ℕ} {va perm : Word}
    (hins : pageInsert B m d p va perm = some (0, m')) : Room m d va :=
  not_not.mp (mt (pageInsert_negative hins).1.mpr (by decide))

/-- `sys_page_map` counts a new reference to `p`. -/
def MapsPage (s : Kern) (cur : Slot) (srcenvid srcva dstenvid dstva perm : Word) (p : ℕ) : Prop :=
  ∃ src dst f d, envid2env s cur srcenvid true = some src ∧
    envid2env s cur dstenvid true = some dst ∧ ¬ badVa srcva ∧ ¬ badVa dstva ∧ ¬ badPerm perm ∧
    s.space src (pgnum srcva) = some (p, f) ∧ (isSet perm PTE_W → isSet f PTE_W) ∧
    s.dirs dst = some d ∧ Room s.mem d dstva

/-- `sys_ipc_try_send` counts a new reference to `p`. -/
def SendsPage (s : Kern) (cur : Slot) (envid srcva perm : Word) (p : ℕ) : Prop :=
  ∃ e f d, envid2env s cur envid false = some e ∧ (s.envs e).envIpcRecving = true ∧
    ¬ badVa srcva ∧ ¬ badPerm perm ∧ s.space cur (pgnum srcva) = some (p, f) ∧
    (isSet perm PTE_W → isSet f PTE_W) ∧ (s.envs e).envIpcDstva < UTOP ∧
    s.dirs e = some d ∧ Room s.mem d (s.envs e).envIpcDstva

/-! ## `sys_page_alloc`, `sys_page_map` and `sys_page_unmap` -/

/-- A call that returns, keeps the invariant, changes memory within `T` and `S`, and changes no
environment structure. -/
def PageCall (B : Machine) (M : Pool B) (s : Kern) (l : List ℕ) (el : List Slot) (T : Set Slot)
    (S : Set ℕ) (x : Option (Word × Kern)) : Prop :=
  ∃ r m' l', x = some (r, s.setMem m') ∧ Inv B M (s.setMem m') l' el ∧
    Evolve B s (s.setMem m') l T S

theorem PageCall.same {T : Set Slot} {S : Set ℕ} (h : Inv B M s l el) (r : Word) :
    PageCall B M s l el T S (some (r, s)) := ⟨r, s.mem, l, rfl, h, .refl s⟩

/-- A page just taken from the free list is mapped, or there is no page left for a table. -/
theorem Inv.insertTaken (h : Inv B M s l el) {d p : ℕ} {t : List ℕ} {va perm : Word} {m₁ : Mem}
    (hd : s.dirs e = some d) (hva : va < UTOP)
    (hle : ∀ q, target B s.mem s.dirs (.page e (upn hva)) = some q → s.refs B q < 2 ^ 16)
    (hperm : perm.toNat < 4096) (hl : l = p :: t) (hown : Own B M m₁ s.dirs (insert p ∅) t)
    (htk : Tabled B s.mem m₁ s.dirs l) (htar : target B m₁ s.dirs = target B s.mem s.dirs) :
    (tableOf s.mem d (pdx va) = none ∧ t = [] ∧
      pageInsert B m₁ d p va perm = some (-E_NO_MEM, m₁)) ∨
    ∃ m' l', pageInsert B m₁ d p va perm = some (0, m') ∧ Inv B M (s.setMem m') l' el ∧
      Evolve B s (s.setMem m') l {e} ∅ ∧
      (t.length ≤ l'.length + if tableOf s.mem d (pdx va) = none then 1 else 0) ∧
      Remapped B s.mem m' s.dirs l l' e (upn hva) (some (p, perm ||| PTE_P)) ∧
      m'.phys p = m₁.phys p := by
  have hpl : p ∈ l := by simp [hl]
  have hpt : p ∉ t := by
    have := h.own.ledger.chain.nodup
    rw [hl] at this
    exact (List.nodup_cons.mp this).1
  have hloose : insert p (∅ : Set ℕ) \ {p} = ∅ := by simp
  have hzero : owners (target B m₁ s.dirs) p = 0 := by rw [htar, h.own.owners_of_mem_list hpl]
  have hun := unstructured_of_owners_zero hzero
  have htab : tableOf m₁ d (pdx va) = tableOf s.mem d (pdx va) := by
    have hi := pdx_lt_of_lt_UTOP hva
    rw [← target_table (B := B) hd hi, ← target_table (B := B) hd hi, htar]
  rcases hown.pageInsert_spec hd hva (h.own.list_sub hpl) hpt hun hperm
      (fun q hq ↦ by rw [htar] at hq ⊢; exact hle q hq) with
    ⟨hnone, ht, hins⟩ | ⟨m', l', hins, hown', hre, hlen⟩
  · exact .inl ⟨htab ▸ hnone, ht, hins⟩
  · rw [hloose] at hown'
    have hre' := hre.of_tabled htk (fun x hx ↦ by simp [hl, hx]) fun x _ hx ↦ by
      obtain rfl : p = x := by simpa using hx
      exact hzero
    refine .inr ⟨m', l', hins, h.setMem_remapped hown' hre', h.evolve_remapped hre'
      (by rw [hd]; simp) fun q f hq ↦ .inl ?_, htab ▸ hlen, hre', ?_⟩
    · obtain ⟨rfl, -⟩ := Prod.mk.inj (Option.some.inj hq)
      exact hpl
    · exact hre.frame.other p hpt (fun e' d' hd' ↦ hun.ne_dir hd') fun e' d' i t' hd' hi ht' ↦
        hun.ne_table hd' hi ht'

theorem Inv.insertFresh (h : Inv B M s l el) (hb : Bounded B s.mem s.dirs) {d p : ℕ} {t : List ℕ}
    {va perm : Word} {m₁ : Mem} (hd : s.dirs e = some d) (hva : va < UTOP)
    (hperm : perm.toNat < 4096) (hl : l = p :: t) (hown : Own B M m₁ s.dirs (insert p ∅) t)
    (htk : Tabled B s.mem m₁ s.dirs l) (htar : target B m₁ s.dirs = target B s.mem s.dirs) :
    (t = [] ∧ pageInsert B m₁ d p va perm = some (-E_NO_MEM, m₁)) ∨
    ∃ m' l', pageInsert B m₁ d p va perm = some (0, m') ∧ Inv B M (s.setMem m') l' el ∧
      Evolve B s (s.setMem m') l {e} ∅ ∧ t.length ≤ l'.length + 1 ∧
      Remapped B s.mem m' s.dirs l l' e (upn hva) (some (p, perm ||| PTE_P)) := by
  rcases h.insertTaken hd hva (fun q _ ↦ Nat.lt_succ_of_le (hb q)) hperm hl hown htk htar with
    ⟨-, ht, hins⟩ | ⟨m', l', hins, hinv, hev, hlen, hre, -⟩
  · exact .inl ⟨ht, hins⟩
  · refine .inr ⟨m', l', hins, hinv, hev, ?_, hre⟩
    split at hlen <;> omega

section Pages

variable (h : Inv B M s l el) (hb : Bounded B s.mem s.dirs) (hc : s.Live cur)

include h hb hc

/-- A fresh page is mapped, or nothing is. -/
theorem Inv.sysPageAlloc_spec (envid va perm : Word) :
    PageCall B M s l el (Mine s cur) ∅ (sysPageAlloc B s cur envid va perm) := by
  cases he : envid2env s cur envid true with
  | none => simpa [sysPageAlloc, he] using PageCall.same h _
  | some e =>
  by_cases hva : badVa va
  · simpa [sysPageAlloc, he, hva] using PageCall.same h _
  by_cases hperm : badPerm perm
  · simpa [sysPageAlloc, he, hva, hperm] using PageCall.same h _
  obtain ⟨d, hd, hpg⟩ := h.live_dir (envid2env_live hc he)
  have hlt := lt_UTOP_of_not_badVa hva
  have hpl := or_perm_lt (show (PTE_U ||| PTE_P).toNat < 4096 by decide)
    (perm_lt_of_not_badPerm hperm)
  cases hl : l with
  | nil =>
      have halloc := h.own.pageAlloc_empty hl true
      subst hl
      simpa [sysPageAlloc, he, hva, hperm, halloc, Kern.setMem] using PageCall.same h _
  | cons p t =>
      obtain ⟨halloc, hown, htar⟩ := h.own.pageAlloc_cons hl
      have htk := h.own.tabled_taken hl
      rcases h.insertFresh hb hd hlt hpl hl hown htk htar with
        ⟨-, hins⟩ | ⟨m', l', hins, hinv, hev, -⟩
      · obtain ⟨m', hfree, hphys, hown'⟩ := hown.pageFree_loose (Set.mem_insert p ∅)
        have hloose : insert p (∅ : Set ℕ) \ {p} = ∅ := by simp
        rw [hloose] at hown'
        have ht := htk.congr hphys
        refine ⟨-E_NO_MEM, m', p :: t, ?_, h.setMem hown' (h.own.kernSame ht.frame) ht.frame.upper,
          hl ▸ h.evolve_tabled ht⟩
        simp [sysPageAlloc, he, hva, hperm, halloc, hpg, hins, hfree,
          show -E_NO_MEM ≠ 0#32 by decide]
      · refine ⟨0, m', l', ?_, hinv, hl ▸ hev.mono ?_ subset_rfl⟩
        · simp [sysPageAlloc, he, hva, hperm, halloc, hpg, hins]
        · rintro _ rfl
          exact envid2env_mine he

/-- The page mapped at the source address gets one more mapping, with no more write permission. -/
theorem Inv.sysPageMap_spec (srcenvid srcva dstenvid dstva perm : Word) :
    PageCall B M s l el (Mine s cur) {p | MapsPage s cur srcenvid srcva dstenvid dstva perm p}
      (sysPageMap B s cur srcenvid srcva dstenvid dstva perm) := by
  cases hsrc : envid2env s cur srcenvid true with
  | none => simpa [sysPageMap, hsrc] using PageCall.same h _
  | some src =>
  cases hdst : envid2env s cur dstenvid true with
  | none => simpa [sysPageMap, hsrc, hdst] using PageCall.same h _
  | some dst =>
  by_cases hva : badVa srcva
  · simpa [sysPageMap, hsrc, hdst, hva] using PageCall.same h _
  by_cases hva' : badVa dstva
  · simpa [sysPageMap, hsrc, hdst, hva, hva'] using PageCall.same h _
  by_cases hperm : badPerm perm
  · simpa [sysPageMap, hsrc, hdst, hva, hva', hperm] using PageCall.same h _
  obtain ⟨d, hd, hpg⟩ := h.live_dir (envid2env_live hc hsrc)
  obtain ⟨d', hd', hpg'⟩ := h.live_dir (envid2env_live hc hdst)
  rcases h.pageLookup_space hd (lt_UTOP_of_not_badVa hva) with
    ⟨-, hlook⟩ | ⟨p, f, t, j, hp, hlook, hW⟩
  · simpa [sysPageMap, hsrc, hdst, hva, hva', hperm, hpg, hlook] using PageCall.same h _
  by_cases hw : isSet perm PTE_W ∧ ¬ isSet (s.mem.phys t j) PTE_W
  · simpa [sysPageMap, hsrc, hdst, hva, hva', hperm, hpg, hlook, hw] using PageCall.same h _
  have hwf : isSet perm PTE_W → isSet f PTE_W := fun hg ↦
    hW.mp (by_contra fun hn ↦ hw ⟨hg, hn⟩)
  obtain ⟨hpM, hpl, hpu⟩ := h.mapped hp
  rcases h.own.pageInsert_spec hd' (lt_UTOP_of_not_badVa hva') hpM hpl hpu
      (perm_lt_of_not_badPerm hperm) (fun q _ ↦ Nat.lt_succ_of_le (hb q)) with
    ⟨-, -, hins⟩ | ⟨m', l', hins, hown', hre, -⟩
  · refine ⟨-E_NO_MEM, s.mem, l, ?_, h, .refl s⟩
    simp only [sysPageMap, hsrc, hdst, hva, hva', hperm, hpg, hpg', hlook, hw, hins, if_false,
      Option.bind_eq_bind, Option.bind_some]
    rfl
  · have hloose : (∅ : Set ℕ) \ {p} = ∅ := by simp
    rw [hloose] at hown'
    refine ⟨0, m', l', ?_, h.setMem_remapped hown' hre, (h.evolve_remapped hre
      (by rw [hd']; simp) fun q g hq ↦ .inr ⟨?_, ?_⟩).mono ?_ subset_rfl⟩
    · simp only [sysPageMap, hsrc, hdst, hva, hva', hperm, hpg, hpg', hlook, hw, hins, if_false,
        Option.bind_eq_bind, Option.bind_some]
      rfl
    · obtain ⟨rfl, -⟩ := Prod.mk.inj (Option.some.inj hq)
      exact ⟨src, dst, f, d', hsrc, hdst, hva, hva', hperm, hp, hwf, hd',
        room_of_pageInsert hins⟩
    · obtain ⟨rfl, rfl⟩ := Prod.mk.inj (Option.some.inj hq)
      exact ⟨src, pgnum srcva, f, hp, fun hg ↦ hwf (isSet_W_or_P.mp hg)⟩
    · rintro _ rfl
      exact envid2env_mine hdst

/-- A translation is taken away, if there is one. -/
theorem Inv.sysPageUnmap_spec (envid va : Word) :
    PageCall B M s l el (Mine s cur) ∅ (sysPageUnmap B s cur envid va) := by
  cases he : envid2env s cur envid true with
  | none => simpa [sysPageUnmap, he] using PageCall.same h _
  | some e =>
  by_cases hva : badVa va
  · simpa [sysPageUnmap, he, hva] using PageCall.same h _
  obtain ⟨d, hd, hpg⟩ := h.live_dir (envid2env_live hc he)
  obtain ⟨m', l', hrem, hown', hun, -⟩ := h.own.pageRemove_spec hd (lt_UTOP_of_not_badVa hva)
    fun q _ ↦ (hb q).trans (by decide)
  refine ⟨0, m', l', by simp [sysPageUnmap, he, hva, hpg, hrem],
    h.setMem_remapped hown' hun.toRemapped, (h.evolve_remapped hun.toRemapped (by rw [hd]; simp)
      fun q g hq ↦ by cases hq).mono ?_ subset_rfl⟩
  rintro _ rfl
  exact envid2env_mine he

end Pages

/-! ## `sys_ipc_try_send` -/

theorem Kern.Live.ne_free (h : s.Live e) : (s.envs e).envStatus ≠ .free := h

/-- A state after a call that kept the invariant, changed memory within `T` and `S`, and changed
only environments of `T`. -/
def After (B : Machine) (M : Pool B) (s : Kern) (l : List ℕ) (T : Set Slot) (S : Set ℕ)
    (s' : Kern) : Prop :=
  ∃ l' el', Inv B M s' l' el' ∧ Evolve B s s' l T S ∧ ∀ e, e ∉ T → s'.envs e = s.envs e

namespace After

variable {T T' : Set Slot} {S S' : Set ℕ}

theorem refl (h : Inv B M s l el) : After B M s l T S s :=
  ⟨l, el, h, .refl s, fun _ _ ↦ rfl⟩

theorem mono (h : After B M s l T S s') (hT : T ⊆ T') (hS : S ⊆ S') :
    After B M s l T' S' s' := by
  obtain ⟨l', el', hinv, hev, henv⟩ := h
  exact ⟨l', el', hinv, hev.mono hT hS, fun e he ↦ henv e fun hc ↦ he (hT hc)⟩

/-- Storing into fields of an environment of `T`, other than its directory and its link, and
without freeing it. -/
theorem modEnv (h : After B M s l T S s') (he : e ∈ T) {f : Env → Env}
    (hfree : (f (s'.envs e)).envStatus = .free ↔ (s'.envs e).envStatus = .free)
    (hdir : (f (s'.envs e)).envPgdir = (s'.envs e).envPgdir)
    (hlink : (f (s'.envs e)).envLink = (s'.envs e).envLink) :
    After B M s l T S (s'.modEnv e f) := by
  obtain ⟨l', el', hinv, hev, henv⟩ := h
  refine ⟨l', el', hinv.modEnv hfree hdir hlink, hev.congr rfl (Kern.dirs_modEnv hfree hdir),
    fun e' he' ↦ ?_⟩
  have hne : e' ≠ e := by
    rintro rfl
    exact he' he
  rw [Kern.envs_modEnv_of_ne s' f hne, henv e' he']

end After

theorem PageCall.after {T : Set Slot} {S : Set ℕ} {x : Option (Word × Kern)}
    (h : PageCall B M s l el T S x) : ∃ r s', x = some (r, s') ∧ After B M s l T S s' := by
  obtain ⟨r, m', l', hx, hinv, hev⟩ := h
  exact ⟨r, s.setMem m', hx, l', el, hinv, hev, fun _ _ ↦ rfl⟩

/-- A send reaches the receiver only, and the page sent is mapped with no more write
permission. -/
theorem Inv.sysIpcTrySend_spec (h : Inv B M s l el) (hb : Bounded B s.mem s.dirs)
    (hc : s.Live cur) (envid value srcva perm : Word) :
    ∃ r s', sysIpcTrySend B s cur envid value srcva perm = some (r, s') ∧
      After B M s l {e | envid2env s cur envid false = some e}
        {p | SendsPage s cur envid srcva perm p} s' := by
  cases he : envid2env s cur envid false with
  | none => exact ⟨-E_BAD_ENV, s, by simp [sysIpcTrySend, he], .refl h⟩
  | some e =>
  have hlive := envid2env_live hc he
  rw [show {e' | some e = some e'} = ({e} : Set Slot) by ext; simp [eq_comm]]
  have deliver : ∀ {s₁ : Kern} {S : Set ℕ}, After B M s l {e} S s₁ → s₁.Live e →
      After B M s l {e} S (ipcDeliver s₁ cur e value) :=
    fun h₁ he₁ ↦ h₁.modEnv (Set.mem_singleton e) (by simp [he₁.ne_free]) rfl rfl
  have setPerm : ∀ {s₁ : Kern} {S : Set ℕ} (perm : Word), After B M s l {e} S s₁ →
      After B M s l {e} S (s₁.modEnv e fun env ↦ { env with envIpcPerm := perm }) :=
    fun perm h₁ ↦ h₁.modEnv (Set.mem_singleton e) Iff.rfl rfl rfl
  by_cases hrecv : (s.envs e).envIpcRecving = true
  swap
  · exact ⟨-E_IPC_NOT_RECV, s, by simp [sysIpcTrySend, he, hrecv], .refl h⟩
  by_cases hsrc : srcva < UTOP
  swap
  · refine ⟨0, ipcDeliver (s.modEnv e fun env ↦ { env with envIpcPerm := 0 }) cur e value,
      by simp [sysIpcTrySend, he, hrecv, hsrc], deliver (setPerm 0 (.refl h)) ?_⟩
    simpa [Kern.Live] using hlive.ne_free
  by_cases hoff : pgoff srcva = 0#32
  swap
  · exact ⟨-E_INVAL, s, by simp [sysIpcTrySend, he, hrecv, hsrc, hoff], .refl h⟩
  by_cases hperm : badPerm perm
  · exact ⟨-E_INVAL, s, by simp [sysIpcTrySend, he, hrecv, hsrc, hoff, hperm], .refl h⟩
  obtain ⟨d, hd, hpg⟩ := h.live_dir hc
  obtain ⟨d', hd', hpg'⟩ := h.live_dir hlive
  rcases h.pageLookup_space hd hsrc with ⟨-, hlook⟩ | ⟨p, f, t, j, hp, hlook, hW⟩
  · exact ⟨-E_INVAL, s, by simp [sysIpcTrySend, he, hrecv, hsrc, hoff, hperm, hpg, hlook],
      .refl h⟩
  by_cases hw : ¬ isSet (s.mem.phys t j) PTE_W ∧ isSet perm PTE_W
  · exact ⟨-E_INVAL, s, by simp [sysIpcTrySend, he, hrecv, hsrc, hoff, hperm, hpg, hlook, hw],
      .refl h⟩
  have hwf : isSet perm PTE_W → isSet f PTE_W := fun hg ↦
    hW.mp (by_contra fun hn ↦ hw ⟨hn, hg⟩)
  have hva : ¬ badVa srcva := by
    rintro (hu | hu)
    · exact absurd hsrc (BitVec.not_lt.mpr hu)
    · exact hu hoff
  by_cases hdst : (s.envs e).envIpcDstva < UTOP
  swap
  · refine ⟨0, ipcDeliver s cur e value, ?_, deliver (.refl h) hlive⟩
    simp [sysIpcTrySend, he, hrecv, hsrc, hoff, hperm, hpg, hlook, hw, hdst]
  obtain ⟨hpM, hpl, hpu⟩ := h.mapped hp
  have hcomp : ∀ r m', pageInsert B s.mem d' p (s.envs e).envIpcDstva perm = some (r, m') →
      sysIpcTrySend B s cur envid value srcva perm =
        if r.toInt < 0 then
          some (-E_NO_MEM, (s.setMem m').modEnv e fun env ↦ { env with envIpcPerm := perm })
        else some (0, ipcDeliver ((s.setMem m').modEnv e fun env ↦
          { env with envIpcPerm := perm }) cur e value) := by
    intro r m' hins
    simp [sysIpcTrySend, he, hrecv, hsrc, hoff, hperm, hpg, hlook, hw, hdst, hpg', hins]
  rcases h.own.pageInsert_spec hd' hdst hpM hpl hpu
      (perm_lt_of_not_badPerm hperm) (fun q _ ↦ Nat.lt_succ_of_le (hb q)) with
    ⟨-, -, hins⟩ | ⟨m', l', hins, hown', hre, -⟩
  · exact ⟨_, _, (hcomp _ _ hins).trans (if_pos (by decide)), setPerm perm (.refl h)⟩
  · have hloose : (∅ : Set ℕ) \ {p} = ∅ := by simp
    rw [hloose] at hown'
    have hafter : After B M s l {e} {p | SendsPage s cur envid srcva perm p} (s.setMem m') := by
      refine ⟨l', el, h.setMem_remapped hown' hre, h.evolve_remapped hre
        (by rw [hd']; simp) fun q g hq ↦ .inr ⟨?_, ?_⟩, fun _ _ ↦ rfl⟩
      · obtain ⟨rfl, -⟩ := Prod.mk.inj (Option.some.inj hq)
        exact ⟨e, f, d', he, hrecv, hva, hperm, hp, hwf, hdst, hd', room_of_pageInsert hins⟩
      · obtain ⟨rfl, rfl⟩ := Prod.mk.inj (Option.some.inj hq)
        exact ⟨cur, pgnum srcva, f, hp, fun hg ↦ hwf (isSet_W_or_P.mp hg)⟩
    refine ⟨_, _, (hcomp _ _ hins).trans (if_neg (by decide)), deliver (setPerm perm hafter) ?_⟩
    simpa [Kern.Live] using hlive.ne_free

end Jos
