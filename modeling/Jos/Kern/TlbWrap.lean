import Jos.Kern.PageCalls
import Jos.Kern.Refcount
import Jos.Kern.TlbRun

/-!
# A counter that wraps around, and the TLB

An environment maps a page 65537 times, one of them writable, and unmaps it once: the counter
drops to 0, the page is put on the free list, and the other mappings stay.  The next page table that
the kernel needs for this environment is that very page.  Now the environment can edit its own page
table, and no `invlpg` follows what it stores.
-/

namespace Jos

open Jos.Lib

variable {B : Machine} {M : Pool B} {s s' : Smp} {k k' : Kern} {c : CpuId} {e : Slot}
  {l l' : List ℕ} {el el' : List Slot} {m m' m₁ : Mem} {d p n : ℕ} {va perm w : Word}

/-! ## The page directory -/

/-- `page_insert` leaves what is neither the page table nor stored by `pgdir_walk`. -/
theorem pageInsert_phys {t j x : ℕ} (hwalk : pgdirWalk B m d va true = some (some (t, j), m₁))
    (ht : tableOf m₁ d (pdx va) = some t) (hx : x ≠ t)
    (hrun : pageInsert B m d p va perm = some (w, m')) : m'.phys x = m₁.phys x := by
  have hother : ∀ m₂ : Mem, (m₂.write t j (page2pa p ||| perm ||| PTE_P)).phys x = m₂.phys x :=
    fun m₂ ↦ Mem.phys_write_of_ne_frame _ _ _ hx
  simp only [pageInsert, hwalk, Option.bind_eq_bind, Option.bind_some] at hrun
  split at hrun
  · obtain ⟨m₂, hrem, hrun⟩ := Option.bind_eq_some_iff.mp hrun
    obtain ⟨-, rfl⟩ := Prod.mk.inj (Option.some.inj hrun)
    have hmem := (pageRemove_traces (fun _ ↦ true) hrem).mem
    have hconf : Confined {t} (m₁.setRef p (m₁.ref p + 1)).phys
        (pageRemoveEvs B (fun _ ↦ true) (m₁.setRef p (m₁.ref p + 1)) d va) :=
      pageRemoveEvs_confined _ ht
    rw [hother, ← hmem, hconf.mem_eq (x := x) hx]
    rfl
  · obtain ⟨-, rfl⟩ := Prod.mk.inj (Option.some.inj hrun)
    exact hother _

/-- `page_insert` enters a page table into the directory only where there was none. -/
theorem Own.pageInsert_dir {ι : Type} [Fintype ι] [DecidableEq ι] {dirs : ι → Option ℕ}
    {loose : Set ℕ} {e : ι} (h : Own B M m dirs loose l) (hd : dirs e = some d) (hva : va < UTOP)
    (hrun : pageInsert B m d p va perm = some (w, m')) (i : ℕ) :
    m'.phys d i = m.phys d i ∨
      i = pdx va ∧ tableOf m d i = none ∧ ∃ t, m'.phys d i = mkPte t (PTE_U ||| PTE_W) := by
  have hi := pdx_lt_of_lt_UTOP hva
  rcases h.pgdirWalk_create hd hi with ⟨-, -, hwalk⟩ | ⟨t, m₁, l₁, hwalk, ht, hown, -, hcase⟩
  · simp only [pageInsert, hwalk, Option.bind_eq_bind, Option.bind_some, Option.pure_def,
      Option.some.injEq, Prod.mk.injEq] at hrun
    exact .inl (by rw [hrun.2])
  have hdt : d ≠ t := hown.table_ne_dir hd hi ht hd
  rw [pageInsert_phys hwalk ht hdt hrun]
  rcases hcase with ⟨hnone, hl⟩ | ⟨-, rfl, -⟩
  swap
  · exact .inl rfl
  obtain rfl : m.tabled d (pdx va) t = m₁ :=
    (Prod.mk.inj (Option.some.inj ((h.pgdirWalk_fresh_eq hnone hl).symm.trans hwalk))).2
  by_cases hpdx : i = pdx va
  · refine .inr ⟨hpdx, hpdx ▸ hnone, t, ?_⟩
    rw [hpdx]
    exact Mem.phys_write_self _ _ _ _
  · left
    rw [Mem.tabled, Mem.phys_write_of_ne_index _ _ _ hpdx]
    exact congrFun (Mem.phys_zero_of_ne m hdt) i

/-! ## One environment -/

/-- The hardware finds what is mapped. -/
theorem Kern.exists_translation {v : ℕ} {f : Word} (hd : k.dirs e = some d)
    (h : k.space e v = some (p, f)) : ∃ t, translation k.mem.phys d v = some t := by
  obtain ⟨d', hd', hv, htr⟩ := Kern.space_eq_some.mp h
  obtain rfl := Option.some.inj (hd.symm.trans hd')
  obtain ⟨t, htab⟩ := Option.ne_none_iff_exists'.mp (Kern.space_of_table hd h)
  rw [translate, pteOf_of_table htab] at htr
  have hlt : v / 1024 < NPDENTRIES := (Nat.div_lt_iff_lt_mul (by decide)).mpr (hv.trans (by decide))
  exact ⟨_, translation_of_entry hlt htab htr⟩

/-- The page number of the stack. -/
def stackPn : ℕ := pgnum (USTACKTOP - 0x1000)

/-- The hardware lets the environment write into its stack, which is `p`, and `d` has no page table
for the page numbers from 102400 on. -/
structure Stacked (k : Kern) (e : Slot) (d p : ℕ) : Prop where
  dir : k.dirs e = some d
  stack : k.space e stackPn = some (p, PTE_W ||| PTE_U ||| PTE_P)
  table : ∃ t, k.mem.phys d (stackPn / 1024) = mkPte t (PTE_U ||| PTE_W)
  room : tableOf k.mem d 100 = none

/-- What `env_create` enters into the new directory. -/
theorem BootInv.envCreate_dir {s s' : Kern} {entry : Word} (h : BootInv B M s l el)
    (hel : el = e :: el') (hrun : Jos.envCreate B s ⟨[], entry⟩ = some (true, s'))
    (hd : s'.dirs e = some d) (i : ℕ) (hi : i < NUPDE) :
    tableOf s'.mem d i = none ∨
      i = stackPn / 1024 ∧ ∃ t, s'.mem.phys d i = mkPte t (PTE_U ||| PTE_W) := by
  rcases h.inv.envAlloc_spec 0 with
    ⟨r, -, halloc⟩ | ⟨e₁, el₁, d₁, l₁, s₁, hel₁, rfl, halloc, henv, -, hinv, hev, hsu⟩
  · simp only [Jos.envCreate, halloc, Option.bind_eq_bind, Option.bind_some] at hrun
    cases hrun
  obtain rfl : e = e₁ := (List.cons.inj (hel.symm.trans hel₁)).1
  have hpg : (s₁.envs e).envPgdir = some d₁ := by rw [henv]; rfl
  have hd₁ : s₁.dirs e = some d₁ := by rw [Kern.dirs, henv]; rfl
  have hempty : tableOf s₁.mem d₁ i = none := by
    rw [tableOf, hsu.empty i hi]
    exact entryFrame_zero
  simp only [Jos.envCreate, halloc, hpg, Option.bind_eq_bind, Option.bind_some, Jos.loadSegments,
    Option.bind_eq_some_iff, Prod.exists, Option.pure_def, Option.some.injEq, Prod.mk.injEq,
    Bool.true_and] at hrun
  obtain ⟨ok, m, hstack, rfl, rfl⟩ := hrun
  rw [Kern.dirs_modEnv Iff.rfl rfl] at hd
  obtain rfl : d₁ = d := Option.some.inj (hd₁.symm.trans hd)
  rw [Jos.loadStack] at hstack
  cases l₁ with
  | nil =>
      simp only [hinv.own.pageAlloc_empty rfl, Option.bind_eq_bind, Option.bind_some,
        Option.bind_eq_some_iff, Prod.exists] at hstack
      obtain ⟨r, m₁, -, hstack⟩ := hstack
      cases r with
      | none => cases hstack
      | some x => cases hstack
  | cons q t =>
      obtain ⟨heq, hown⟩ := hinv.own.pageAlloc_plain rfl
      simp only [heq, Option.bind_eq_bind, Option.bind_some, Option.bind_eq_some_iff, Prod.exists,
        Option.pure_def, Option.some.injEq, Prod.mk.injEq] at hstack
      obtain ⟨r, m₁, hins, -, rfl⟩ := hstack
      rcases hown.pageInsert_dir hd₁ (by decide) hins i with hsame | ⟨hpdx, -, ht⟩
      · exact .inl ((congrArg entryFrame hsame).trans hempty)
      · refine .inr ⟨?_, ht⟩
        rw [hpdx, stackPn, pgnum_div]

/-! ## Many mappings of the stack -/

theorem sysPageMap_insert {cur dst : Slot} {srcenvid srcva dstenvid dstva : Word}
    (hdst : envid2env k cur dstenvid true = some dst) (hpg : (k.envs dst).envPgdir = some d)
    (h : sysPageMap B k cur srcenvid srcva dstenvid dstva perm = some (0, k')) :
    ∃ p m' r, pageInsert B k.mem d p dstva perm = some (r, m') ∧ k' = k.setMem m' := by
  simp only [sysPageMap, hdst, hpg] at h
  split at h
  · exact absurd (Prod.mk.inj (Option.some.inj h)).1 (by decide)
  · split_ifs at h
    · exact absurd (Prod.mk.inj (Option.some.inj h)).1 (by decide)
    · exact absurd (Prod.mk.inj (Option.some.inj h)).1 (by decide)
    · exact absurd (Prod.mk.inj (Option.some.inj h)).1 (by decide)
    simp only [Option.bind_eq_bind, Option.bind_eq_some_iff] at h
    obtain ⟨d', -, r, -, h⟩ := h
    cases r with
    | none => exact absurd (Prod.mk.inj (Option.some.inj h)).1 (by decide)
    | some x =>
        obtain ⟨p, t, j⟩ := x
        simp only [Option.bind_some] at h
        split at h
        · exact absurd (Prod.mk.inj (Option.some.inj h)).1 (by decide)
        · obtain ⟨⟨r, m'⟩, hins, h⟩ := Option.bind_eq_some_iff.mp h
          refine ⟨p, m', r, hins, ?_⟩
          split at h
          · exact absurd (Prod.mk.inj (Option.some.inj h)).1 (by decide)
          · exact (Prod.mk.inj (Option.some.inj h)).2.symm

/-- The call that maps the stack of the caller at page `n`, to be read. -/
def stackCall (e : Slot) (n : ℕ) : Call :=
  { cur := e, no := 5, a2 := USTACKTOP - 0x1000, a4 := pageVa n, a5 := PTE_U ||| PTE_P }

/-- The stack is mapped at the pages below `n` too. -/
structure Grown (B : Machine) (M : Pool B) (k : Kern) (l : List ℕ) (el : List Slot) (e : Slot)
    (d p n : ℕ) : Prop extends Stacked k e d p where
  inv : Inv B M k l el
  refs : k.refs B p = n + 1
  low : ∀ v, v < 100000 → k.space e v = if v < n then some (p, PTE_U ||| PTE_P) else none

namespace Grown

theorem of_same (h : Grown B M k l el e d p n) (hinv : Inv B M k' l el) (hmem : k'.mem = k.mem)
    (hdirs : k'.dirs = k.dirs) : Grown B M k' l el e d p n := by
  have hspace : k'.space = k.space := Kern.space_of_dirs hdirs hmem
  refine ⟨⟨hdirs ▸ h.dir, hspace ▸ h.stack, hmem ▸ h.table, hmem ▸ h.room⟩, hinv, ?_, ?_⟩
  · rw [Kern.refs, hmem, hdirs]
    exact h.refs
  · rw [hspace]
    exact h.low

theorem live (h : Grown B M k l el e d p n) : k.Live e := (Kern.live_of_dirs h.dir).1

/-- The hardware finds the stack. -/
theorem exists_translation (h : Grown B M k l el e d p n) :
    ∃ t, translation k.mem.phys d stackPn = some t :=
  Kern.exists_translation h.dir h.stack

/-- `sys_page_map` maps it at page `n`. -/
theorem map (h : Grown B M k l el e d p n) (hn : n < 65537) (hl : l ≠ []) :
    ∃ k' l', (stackCall e n).exec B k = some (.ret 0, k') ∧ k'.envs = k.envs ∧
      Grown B M k' l' el e d p (n + 1) ∧
      l.length ≤ l'.length + if n % 1024 = 0 then 1 else 0 := by
  have hn' : n < NUPG := hn.trans (by decide)
  have hva := not_badVa_pageVa hn'
  have hpg : pgnum (pageVa n) = n := pgnum_pageVa hn'
  have hnone : k.space e (pgnum (pageVa n)) = none := by
    rw [hpg, h.low n (hn.trans (by decide)), if_neg (lt_irrefl n)]
  have hself : envid2env k e 0 true = some e := rfl
  rcases h.inv.sysPageMap_ok hself h.dir hva hself
      (show ¬ badVa (USTACKTOP - 0x1000) by decide)
      (show ¬ badPerm (PTE_U ||| PTE_P) by decide) h.stack (fun hc ↦ absurd hc (by decide))
      (fun q f hq ↦ nomatch hnone.symm.trans hq) with ⟨hroom, -⟩ | ⟨k', l', hrun, -, hre, hlen⟩
  · refine absurd (.inr fun hfree ↦ ?_) hroom
    have hchain := h.inv.own.ledger.chain
    rw [hfree] at hchain
    exact hl hchain.eq_nil
  obtain ⟨q, m', r, hins, rfl⟩ := sysPageMap_insert hself (Kern.live_of_dirs h.dir).2 hrun
  have hset := hre.space
  rw [hpg] at hset
  have hdir := h.inv.own.pageInsert_dir h.dir (lt_UTOP_of_not_badVa hva) hins
  have hpl := (h.inv.mapped h.stack).2.1
  refine ⟨k.setMem m', l', ?_, rfl, ⟨⟨h.dir, ?_, ?_, ?_⟩, hre.inv, ?_, fun v hv ↦ ?_⟩, ?_⟩
  · exact congrArg returned hrun
  · rw [hset, AddrSpaces.set, if_neg]
    · exact h.stack
    · rintro ⟨-, hc⟩
      exact absurd (hc ▸ hn : stackPn < 65537) (by decide)
  · rcases hdir (stackPn / 1024) with hsame | ⟨-, hnone, -⟩
    · exact h.table.imp fun t ht ↦ hsame.trans ht
    · obtain ⟨t, ht⟩ := h.table
      rw [tableOf, ht, entryFrame_eq_none] at hnone
      exact absurd (isSet_mkPte_P t _) hnone
  · rcases hdir 100 with hsame | ⟨hpdx, -⟩
    · exact (congrArg entryFrame hsame).trans h.room
    · rw [← pgnum_div, hpg] at hpdx
      omega
  · rw [hre.refs p hpl, hnone, h.refs]
    simp
  · rw [hset, AddrSpaces.set]
    by_cases hvn : v = n
    · rw [if_pos ⟨rfl, hvn⟩, if_pos (by omega)]
      rfl
    · rw [if_neg fun hc ↦ hvn hc.2]
      refine (h.low v hv).trans ?_
      by_cases hlt : v < n
      · rw [if_pos hlt, if_pos (by omega)]
      · rw [if_neg hlt, if_neg (by omega)]
  · refine hlen.trans (Nat.add_le_add_left ?_ _)
    by_cases hz : n % 1024 = 0
    · rw [if_pos hz]
      split <;> omega
    · -- the table is that of page `n - 1`
      have htab := Kern.space_of_table h.dir
        ((h.low (n - 1) (by omega)).trans (if_pos (by omega)))
      rw [show (n - 1) / 1024 = n / 1024 by omega, ← hpg, pgnum_div] at htab
      rw [if_neg htab]
      exact Nat.zero_le _

end Grown

/-- The stack `p` is on the free list, while the environment can write into it. -/
structure Exposed (M : Pool B) (k : Kern) (e : Slot) (d p t : ℕ) : Prop where
  dir : k.dirs e = some d
  head : k.mem.pageFreeList = some p
  table : tableOf k.mem d (stackPn / 1024) = some t
  user : isSet (k.mem.phys d (stackPn / 1024)) PTE_U ∧ isSet (k.mem.phys d (stackPn / 1024)) PTE_W
  stack : entry (k.mem.phys t (stackPn % 1024)) = some (p, PTE_W ||| PTE_U ||| PTE_P)
  room : tableOf k.mem d 100 = none
  mem : p ∈ M.carrier ∧ t ∈ M.carrier
  ne : d ≠ p ∧ t ≠ p ∧ d ≠ t

theorem Exposed.of_same {t : ℕ} (h : Exposed M k e d p t) (hmem : k'.mem = k.mem)
    (hdirs : k'.dirs = k.dirs) : Exposed M k' e d p t := by
  obtain ⟨dir, head, table, user, stack, room, mem, ne⟩ := h
  rw [← hdirs] at dir
  rw [← hmem] at head table user stack room
  exact ⟨dir, head, table, user, stack, room, mem, ne⟩

/-- With 65537 references the counter reads 1, and unmapping page 0 frees the stack. -/
theorem Grown.unmap (h : Grown B M k l el e d p 65536) :
    ∃ k' t, Call.exec B k { cur := e, no := 6 } = some (.ret 0, k') ∧ k'.envs = k.envs ∧
      Exposed M k' e d p t := by
  have hva : (0 : Word) < UTOP := by decide
  obtain ⟨hv, htar⟩ := Kern.target_of_space (B := B)
    ((h.low 0 (by decide)).trans (if_pos (by decide)))
  have hled := h.inv.own.ledger.wrap (n := 1) Nat.one_pos (p := p) h.refs
  obtain ⟨m', t₀, htab₀, hrem, hphys, hled'⟩ := h.inv.own.pageRemove_mapped h.dir hva htar rfl hled
    (by rw [Function.update_self]; decide) (by rw [Function.update_self]; decide)
  rw [Function.update_self] at hled'
  have hstack : stackPn / 1024 < NUPDE := by decide
  have hzero : pdx 0 < NUPDE := by decide
  obtain ⟨d', hd', hv', htr⟩ := Kern.space_eq_some.mp h.stack
  obtain rfl := Option.some.inj (h.dir.symm.trans hd')
  obtain ⟨t, htab⟩ := Option.ne_none_iff_exists'.mp (Kern.space_of_table h.dir h.stack)
  rw [translate, pteOf_of_table htab] at htr
  obtain ⟨hpM, -, hpu⟩ := h.inv.mapped h.stack
  have hdt₀ : d ≠ t₀ := h.inv.own.table_ne_dir h.dir hzero htab₀ h.dir
  have htt₀ : t ≠ t₀ := by
    rintro rfl
    exact absurd (h.inv.own.table_inj h.dir hzero htab₀ h.dir hstack htab).2 (by decide)
  have hphys_d : m'.phys d = k.mem.phys d := by
    rw [hphys, Mem.phys_write_of_ne_frame _ _ _ hdt₀]
  have hphys_t : m'.phys t = k.mem.phys t := by
    rw [hphys, Mem.phys_write_of_ne_frame _ _ _ htt₀]
  refine ⟨k.setMem m', t, ?_, rfl, h.dir, ?_, ?_, ?_, ?_, ?_,
    ⟨hpM, h.inv.own.table_mem h.dir hstack htab⟩, (hpu.ne_dir h.dir), ?_,
    h.inv.own.table_ne_dir h.dir hstack htab h.dir⟩
  · have hself : envid2env k e 0 true = some e := rfl
    have hbad : ¬ badVa 0 := by decide
    have hrun : sysPageUnmap B k e 0 0 = some (0, k.setMem m') := by
      simp only [sysPageUnmap, hself, hbad, (Kern.live_of_dirs h.dir).2, hrem, if_false,
        Option.bind_eq_bind, Option.bind_some]
      rfl
    exact congrArg returned hrun
  · exact hled'.chain.head_eq
  · rw [Kern.mem_setMem, tableOf, hphys_d]
    exact htab
  · rw [Kern.mem_setMem, hphys_d]
    obtain ⟨t₁, ht₁⟩ := h.table
    rw [ht₁]
    exact ⟨(isSet_mkPte_U _ _).mpr (by decide), (isSet_mkPte_W _ _).mpr (by decide)⟩
  · rw [Kern.mem_setMem, hphys_t]
    exact htr
  · rw [Kern.mem_setMem, tableOf, hphys_d]
    exact h.room
  · exact (hpu.ne_table h.dir hstack htab)

/-! ## The page becomes a page table -/

/-- `page_insert` where a page table is missing, if the first free page is inserted. -/
theorem pageInsert_head (va perm : Word) {m : Mem} (hhead : m.pageFreeList = some p)
    (hp : p ∈ M.carrier) (hnone : tableOf m d (pdx va) = none) (hne : d ≠ p) :
    ∃ m', pageInsert B m d p va perm = some (0, m') ∧
      m'.phys = (((m.zero p).write d (pdx va) (mkPte p (PTE_U ||| PTE_W))).write p (ptx va)
        (mkPte p perm)).phys := by
  let m₁ := ((m.zero p).setFreeList ((m.zero p).link p)).setLink p none
  have halloc : pageAlloc B m true = some (some p, m₁) := by
    simp only [pageAlloc, hhead, kaddr_page2pa hp, if_true, Option.map_some, Option.bind_eq_bind,
      Option.bind_some]
    rfl
  let m₂ := (m₁.setRef p (m₁.ref p + 1)).write d (pdx va) (mkPte p (PTE_U ||| PTE_W))
  have hwalk : pgdirWalk B m d va true = some (some (p, ptx va), m₂) := by
    simp only [pgdirWalk, tableOf_eq_none.mp hnone, halloc, kaddr_page2pa hp, mkPte_table, if_false,
      if_true, Option.bind_eq_bind, Option.bind_some]
    rfl
  have hz : ¬ isSet ((m₂.setRef p (m₂.ref p + 1)).phys p (ptx va)) PTE_P := by
    rw [Mem.phys_setRef, Mem.phys_write_of_ne_frame _ _ _ hne.symm]
    show ¬ isSet ((m.zero p).phys p (ptx va)) PTE_P
    rw [Mem.phys_zero_self]
    exact not_isSet_zero _
  refine ⟨(m₂.setRef p (m₂.ref p + 1)).write p (ptx va) (mkPte p perm), ?_, rfl⟩
  simp only [pageInsert, hwalk, Option.bind_eq_bind, Option.bind_some, if_neg hz]
  rfl

theorem Exposed.lookup {t : ℕ} (h : Exposed M k e d p t) :
    pageLookup B k.mem d (USTACKTOP - 0x1000) = some (some (p, t, stackPn % 1024)) := by
  have hpdx : pdx (USTACKTOP - 0x1000) = stackPn / 1024 := (pgnum_div _).symm
  have hptx : ptx (USTACKTOP - 0x1000) = stackPn % 1024 := (pgnum_mod _).symm
  have hw : entryFrame (k.mem.phys t (stackPn % 1024)) = some p := by
    rw [entryFrame_eq, h.stack]
    rfl
  simp only [pageLookup, pgdirWalk, hpdx, hptx, if_pos (isSet_of_entryFrame h.table).1,
    kaddr_pteAddr h.table h.mem.2, (isSet_of_entryFrame hw).1, not_true_eq_false, if_false,
    pa2page_pteAddr hw h.mem.1, Option.bind_eq_bind, Option.bind_some, Option.pure_def]

/-- The page table that `sys_page_map` needs for page 102400 is the stack. -/
theorem Exposed.map {t : ℕ} (h : Exposed M k e d p t) :
    ∃ k', (stackCall e 102400).exec B k = some (.ret 0, k') ∧ k'.envs = k.envs ∧
      k'.dirs = k.dirs ∧ translation k'.mem.phys d stackPn = some ⟨p, true, true⟩ ∧
      (∃ tr, translation k'.mem.phys d 102400 = some tr) ∧
      translation (k'.mem.write p 0 0).phys d 102400 = none := by
  obtain ⟨hdp, htp, hdt⟩ := h.ne
  have hv : 102400 < NUPG := by decide
  have hpdx : pdx (pageVa 102400) = 100 := by rw [← pgnum_div, pgnum_pageVa hv]
  have hptx : ptx (pageVa 102400) = 0 := by rw [← pgnum_mod, pgnum_pageVa hv]
  obtain ⟨m', hins, hphys⟩ := pageInsert_head (B := B) (pageVa 102400) (PTE_U ||| PTE_P) h.head
    h.mem.1 (by rw [hpdx]; exact h.room) hdp
  rw [hpdx, hptx] at hphys
  have hd : ∀ i, i ≠ 100 → m'.phys d i = k.mem.phys d i := by
    intro i hi
    rw [hphys, Mem.phys_write_of_ne_frame _ _ _ hdp, Mem.phys_write_of_ne_index _ _ _ hi,
      Mem.phys_zero_of_ne _ hdp]
  have hd100 : m'.phys d 100 = mkPte p (PTE_U ||| PTE_W) := by
    rw [hphys, Mem.phys_write_of_ne_frame _ _ _ hdp, Mem.phys_write_self]
  have ht : m'.phys t = k.mem.phys t := by
    rw [hphys, Mem.phys_write_of_ne_frame _ _ _ htp, Mem.phys_write_of_ne_frame _ _ _ hdt.symm,
      Mem.phys_zero_of_ne _ htp]
  have hp0 : m'.phys p 0 = mkPte p (PTE_U ||| PTE_P) := by rw [hphys, Mem.phys_write_self]
  have hframe : frame (mkPte p (PTE_U ||| PTE_W)) = p :=
    frame_mkPte (M.lt_two_pow h.mem.1) (by decide)
  refine ⟨k.setMem m', ?_, rfl, rfl, ?_, ⟨mkTranslation (m'.phys d 100) (m'.phys p 0), ?_⟩, ?_⟩
  · have hself : envid2env k e 0 true = some e := rfl
    have hbad : ¬ badVa (USTACKTOP - 0x1000) := by decide
    have hva : ¬ badVa (pageVa 102400) := not_badVa_pageVa hv
    have hperm : ¬ badPerm (PTE_U ||| PTE_P) := by decide
    have hW : ¬ isSet (PTE_U ||| PTE_P) PTE_W := by decide
    have hrun : sysPageMap B k e 0 (USTACKTOP - 0x1000) 0 (pageVa 102400) (PTE_U ||| PTE_P) =
        some (0, k.setMem m') := by
      simp only [sysPageMap, hself, hbad, hva, hperm, hW, (Kern.live_of_dirs h.dir).2, h.lookup,
        hins, if_false, false_and, Option.bind_eq_bind, Option.bind_some]
      rfl
    exact congrArg returned hrun
  · have hpde := hd (stackPn / 1024) (by decide)
    rw [Kern.mem_setMem, translation_of_entry (t := t) (by decide)
      (by rw [tableOf, hpde]; exact h.table) (by rw [ht]; exact h.stack), hpde]
    simp [h.user.1, h.user.2, show isSet (PTE_W ||| PTE_U ||| PTE_P) PTE_U by decide,
      show isSet (PTE_W ||| PTE_U ||| PTE_P) PTE_W by decide]
  · simp only [translation, Kern.mem_setMem, show 102400 / 1024 = 100 from rfl,
      show 102400 % 1024 = 0 from rfl, hd100, hframe, hp0]
    rw [if_pos ⟨by decide, isSet_mkPte_P _ _, isSet_mkPte_P _ _⟩]
  · have hd100' : ((k.setMem m').mem.write p 0 0).phys d 100 = mkPte p (PTE_U ||| PTE_W) := by
      rw [Mem.phys_write_of_ne_frame _ _ _ hdp]
      exact hd100
    simp only [translation, show 102400 / 1024 = 100 from rfl, show 102400 % 1024 = 0 from rfl,
      hd100', hframe, Mem.phys_write_self]
    rw [if_neg fun hc ↦ not_isSet_zero _ hc.2.2]

/-! ## The run -/

/-- The frame of a system call. -/
def Call.tf (c : Call) : Trapframe :=
  { trapno := T_SYSCALL
    regs := { eax := c.no, edx := c.a1, ecx := c.a2, ebx := c.a3, edi := c.a4, esi := c.a5 } }

/-- A call that changes no environment goes back to its caller. -/
theorem Runs.exec_call {r : Word} (call : Call) (h : Runs s c call.cur)
    (hcall : call.exec B (s.kern.setTf call.cur call.tf) = some (.ret r, k))
    (henvs : k.envs = (s.kern.setTf call.cur call.tf).envs) :
    (Entry.trap c call.tf 0 call.getc).exec B s = some (s.setKern (k.resumed c call.cur r)) ∧
      Runs (s.setKern (k.resumed c call.cur r)) c call.cur := by
  have hrun : (k.envs call.cur).envStatus = .running := by
    rw [henvs, (s.kern.keeps_setTf call.cur call.tf call.cur).envStatus]
    exact h.status
  refine ⟨h.exec_back rfl ?_ hrun, h.back hrun⟩
  have htf : ((s.kern.setTf call.cur call.tf).envs call.cur).envTf = call.tf := by simp [Kern.setTf]
  rw [callOf, htf]
  exact hcall

theorem Runs.up (h : Runs s c e) : (s.cpus c).cpuStatus ≠ .unused := by
  rw [h.started]
  decide

/-- One CPU with an empty TLB. -/
def Smp.cold (s : Smp) : TlbSmp := ⟨s, fun _ ↦ ∅⟩

theorem TlbStep.cold {en : Entry} (hexec : en.exec B s = some s') (hcpu : en.cpu = c)
    (hst : (s.cpus c).cpuStatus ≠ .unused ∨ s.curenv c = none) :
    TlbStep B (fun _ en ↦ en.cpu = c) s.cold s'.cold := by
  subst hcpu
  exact .keep rfl hexec (fun hc ↦ hst.resolve_left fun hne ↦ hne hc) rfl

/-- The environment calls `sys_page_map` as often as it likes. -/
theorem Grown.run (h : Grown B M s.kern l el e d p 0) (hr : Runs s 0 e) (hl : 100 ≤ l.length)
    (hn : n ≤ 65536) : ∃ s' l',
    TlbRun B (fun _ en ↦ en.cpu = 0) (fun _ ↦ True) s.cold s'.cold ∧ Runs s' 0 e ∧
      s'.cpus = s.cpus ∧ Grown B M s'.kern l' el e d p n ∧
      l.length ≤ l'.length + (n + 1023) / 1024 := by
  induction n with
  | zero => exact ⟨s, l, .refl, hr, rfl, h, Nat.le_add_right ..⟩
  | succ n ih =>
      obtain ⟨s₁, l₁, hrun, hr₁, hcpus, h₁, hlen₁⟩ := ih (by omega)
      have hne : l₁ ≠ [] := by
        rintro rfl
        simp only [List.length_nil] at hlen₁
        omega
      have htf := h₁.of_same (h₁.inv.setTf e (stackCall e n).tf) rfl (Kern.dirs_setTf ..)
      obtain ⟨k₂, l₂, hcall, henvs, h₂, hlen₂⟩ := htf.map (by omega) hne
      obtain ⟨hexec, hr₂⟩ := Runs.exec_call (stackCall e n) hr₁ hcall henvs
      refine ⟨_, l₂, hrun.tail ⟨.cold hexec rfl (.inl hr₁.up), trivial⟩, hr₂, hcpus,
        h₂.of_same h₂.inv.resumed rfl (Kern.dirs_resumed ..), ?_⟩
      split at hlen₂ <;> omega

/-- A machine with one environment, which runs on CPU 0. -/
theorem exists_solo : ∃ k s l el e d p, Booted demoConfig k ∧
    (Entry.start 0).exec demoConfig.machine (Smp.boot k) = some s ∧ Runs s 0 e ∧
    Grown demoConfig.machine demoConfig.pool s.kern l el e d p 0 ∧ 100 ≤ l.length ∧
    s.kern.Bounded demoConfig.machine ∧ (∀ c, c ≠ 0 → s.cpus c = {}) ∧
    ∀ e', e' ≠ e → s.status e' = .free := by
  obtain ⟨base, m, l, el, hinit, hb₀, hlen, hall, hid⟩ := exists_inited
  have h₀ := Booted.inited hinit
  generalize envInit ⟨m, fun _ ↦ {}, none⟩ = s₀ at *
  obtain ⟨k, l₁, el₁, e, d, hrun, hb, hlen₁, hel, henv, hoth, ⟨p, hstack⟩, -⟩ :=
    hb₀.exists_envCreate (List.ne_nil_of_mem (hall ⟨0, by decide⟩)) (by omega) 0
  have hdir : k.dirs e = some d := by rw [Kern.dirs, henv]; rfl
  have hpde := hb₀.envCreate_dir hel hrun hdir
  have hready : (Smp.boot k).status e = .runnable := by
    rw [Smp.status, Smp.boot, henv]
    rfl
  obtain ⟨e', hpick, he'⟩ := exists_schedPick hready 0
  obtain rfl : e' = e := by
    by_contra hne
    rw [Smp.status, Smp.boot, hoth e' hne, (hid e').1] at he'
    cases he'
  obtain ⟨s, hexec, hruns, hcpus, hst, hre⟩ := @exec_start demoConfig.machine (Smp.boot k) 0 e' d
    rfl hpick (Kern.live_of_dirs hdir).2
  have hstack' : k.space e' stackPn = some (p, PTE_W ||| PTE_U ||| PTE_P) :=
    (hstack stackPn).trans (if_pos rfl)
  have hk : Grown demoConfig.machine demoConfig.pool k l₁ el₁ e' d p 0 := by
    refine ⟨⟨hdir, hstack', ?_, ?_⟩, hb.inv, ?_, fun v hv ↦ ?_⟩
    · rcases hpde (stackPn / 1024) (by decide) with hnone | ⟨-, ht⟩
      · exact absurd hnone (Kern.space_of_table hdir hstack')
      · exact ht
    · rcases hpde 100 (by decide) with hnone | ⟨hc, -⟩
      · exact hnone
      · exact absurd hc (by decide)
    · obtain ⟨_, htar⟩ := Kern.target_of_space (B := demoConfig.machine) hstack'
      have hpos : 0 < k.refs demoConfig.machine p := owners_pos htar
      have hle := hb.solo p
      omega
    · rw [if_neg (Nat.not_lt_zero v), hstack v, if_neg]
      rintro rfl
      exact absurd hv (by decide)
  refine ⟨k, s, l₁, el₁, e', d, p, h₀.envCreate hrun, hexec, hruns,
    hk.of_same (hb.inv.resched hre) hre.mem hre.dirs_eq, by omega,
    Kern.Bounded.resched hb.bounded hre, hcpus, fun e₁ he₁ ↦ ?_⟩
  rw [hst e₁ he₁, Smp.status, Smp.boot, hoth e₁ he₁]
  exact (hid e₁).1

/-- The machine with one environment, with the page directory of that one loaded. -/
theorem exists_solo_loaded : ∃ k s l el e d p, Booted demoConfig k ∧
    TlbRun demoConfig.machine (fun _ en ↦ en.cpu = 0) (Kern.Bounded demoConfig.machine)
      (Smp.boot k).cold s.cold ∧ s.kern.Bounded demoConfig.machine ∧ Runs s 0 e ∧
    s.cold.cr3 0 = d ∧
    Grown demoConfig.machine demoConfig.pool s.kern l el e d p 0 ∧ 100 ≤ l.length := by
  obtain ⟨k, s, l, el, e, d, p, booted, hexec, hr, hgrown, hl, hb, -⟩ := exists_solo
  have hrun : TlbRun demoConfig.machine (fun _ en ↦ en.cpu = 0) (Kern.Bounded demoConfig.machine)
      (Smp.boot k).cold s.cold := .single ⟨.cold hexec rfl (.inr rfl), hb⟩
  obtain ⟨h, -⟩ := TlbInv.of_run_one booted rfl hrun
  have hd := Option.some.inj ((h.loaded 0 e hr.cur).symm.trans hgrown.dir)
  exact ⟨k, s, l, el, e, d, p, booted, hrun, hb, hr, hd, hgrown, hl⟩

/-- With one CPU, all that its TLB holds is what the page tables of its environment say now. -/
theorem tlb_coherent {cfg : BootConfig} {x₀ x : TlbSmp} {v : ℕ} {t : Translation}
    (booted : Booted cfg k) (boot : x₀.smp = Smp.boot k)
    (run : TlbRun cfg.machine (fun _ en ↦ en.cpu = c) (Kern.Bounded cfg.machine) x₀ x)
    (cur : x.curenv c = some e) (hit : (v, t) ∈ x.tlb c) :
    ∃ d, (x.smp.kern.envs e).envPgdir = some d ∧
      translation x.smp.kern.mem.phys d v = some t := by
  obtain ⟨h, -⟩ := TlbInv.of_run_one booted boot run
  exact ⟨_, (Kern.live_of_dirs (h.loaded c e cur)).2, h.coherent c e cur v t hit⟩

theorem tlb_coherent_solo : ∃ (x : TlbSmp) (e : Slot) (v : ℕ) (t : Translation),
    x.curenv 0 = some e ∧ (v, t) ∈ x.tlb 0 ∧
    ∃ d, (x.smp.kern.envs e).envPgdir = some d ∧
      translation x.smp.kern.mem.phys d v = some t := by
  obtain ⟨k, s, l, el, e, d, p, booted, hrun, hb, hr, hroot, hgrown, -⟩ := exists_solo_loaded
  obtain ⟨t, ht⟩ := hgrown.exists_translation
  have hfill : TlbStep demoConfig.machine (fun _ en ↦ en.cpu = 0) s.cold
      (s.cold.hit 0 stackPn t) := .hit 0 (by rw [hroot]; exact ht)
  have hhit : (stackPn, t) ∈ (s.cold.hit 0 stackPn t).tlb 0 := s.cold.mem_hit 0 stackPn t
  exact ⟨s.cold.hit 0 stackPn t, e, stackPn, t, hr.cur, hhit,
    tlb_coherent booted rfl (hrun.tail ⟨hfill, hb⟩) hr.cur hhit⟩

/-- A run of system calls after which the stack is a page table of the environment. -/
theorem exists_exposed : ∃ k s e d p tr, Booted demoConfig k ∧
    TlbRun demoConfig.machine (fun _ en ↦ en.cpu = 0) (fun _ ↦ True) (Smp.boot k).cold s.cold ∧
    Runs s 0 e ∧ s.cold.cr3 0 = d ∧ s.kern.dirs e = some d ∧
    translation s.kern.mem.phys d stackPn = some ⟨p, true, true⟩ ∧
    translation s.kern.mem.phys d 102400 = some tr ∧
    translation (s.kern.mem.write p 0 0).phys d 102400 = none := by
  obtain ⟨k, s, l, el, e, d, p, booted, hrun₀, -, hr, hcr3, hgrown, hl⟩ := exists_solo_loaded
  obtain ⟨s₁, l₁, hrun₁, hr₁, hcpus₁, h₁, -⟩ := hgrown.run hr hl (n := 65536) le_rfl
  -- page 0 is unmapped
  have htf₁ := h₁.of_same (h₁.inv.setTf e (Call.tf { cur := e, no := 6 })) rfl (Kern.dirs_setTf ..)
  obtain ⟨k₂, t, hcall₂, henvs₂, h₂⟩ := htf₁.unmap
  obtain ⟨hexec₂, hr₂⟩ := Runs.exec_call { cur := e, no := 6 } hr₁ hcall₂ henvs₂
  generalize hs₂ : s₁.setKern (k₂.resumed 0 _ 0) = s₂ at hexec₂ hr₂
  have hdirs₂ : s₂.kern.dirs = k₂.dirs := by rw [← hs₂]; exact Kern.dirs_resumed ..
  have hmem₂ : s₂.kern.mem = k₂.mem := by rw [← hs₂]; rfl
  -- page 102400 is mapped
  have htf₂ : Exposed demoConfig.pool (s₂.kern.setTf e (stackCall e 102400).tf) e d p t :=
    h₂.of_same hmem₂ ((Kern.dirs_setTf ..).trans hdirs₂)
  obtain ⟨k₃, hcall₃, henvs₃, hdirs₃, hstack, ⟨tr, htr⟩, hgone⟩ := htf₂.map
  obtain ⟨hexec₃, hr₃⟩ := Runs.exec_call (stackCall e 102400) hr₂ hcall₃ henvs₃
  have hrun₀' : TlbRun demoConfig.machine (fun _ en ↦ en.cpu = 0) (fun _ ↦ True)
      (Smp.boot k).cold s.cold :=
    Relation.ReflTransGen.mono (fun _ _ hstep ↦ ⟨hstep.1, trivial⟩) _ _ hrun₀
  refine ⟨k, _, e, d, p, tr, booted, .tail (.tail (.trans hrun₀' hrun₁)
    ⟨.cold hexec₂ rfl (.inl hr₁.up), trivial⟩) ⟨.cold hexec₃ rfl (.inl hr₂.up), trivial⟩, hr₃,
    ?_, ?_, hstack, htr, hgone⟩
  · rw [← hcr3, ← hs₂]
    exact congrArg (fun cpus ↦ (cpus 0).cr3) hcpus₁
  · exact (Kern.dirs_resumed ..).trans hdirs₃ ▸ htf₂.dir

/-- The TLB keeps the translation of page 102400, which the environment has taken away by a store
into its own page table. -/
theorem tlb_stale : ∃ k x₀ x e v t, Booted demoConfig k ∧ x₀.smp = Smp.boot k ∧
    TlbRun demoConfig.machine (fun _ en ↦ en.cpu = 0) (fun _ ↦ True) x₀ x ∧
    x.curenv 0 = some e ∧ (v, t) ∈ x.tlb 0 ∧ v < NUPG ∧
    ¬ ∃ d, (x.smp.kern.envs e).envPgdir = some d ∧
      translation x.smp.kern.mem.phys d v = some t := by
  obtain ⟨k, s, e, d, p, tr, booted, hrun, hr, hroot, hdir, hstack, htr, hgone⟩ := exists_exposed
  let x := s.cold.hit 0 stackPn ⟨p, true, true⟩
  let x' := x.hit 0 102400 tr
  have hfill : TlbStep demoConfig.machine (fun _ en ↦ en.cpu = 0) s.cold x :=
    .hit 0 (by rw [hroot]; exact hstack)
  have hfill' : TlbStep demoConfig.machine (fun _ en ↦ en.cpu = 0) x x' :=
    .hit 0 (by rw [show x.cr3 0 = d from hroot]; exact htr)
  have htlb : x'.tlb 0 = {(102400, tr)} ∪ ({(stackPn, ⟨p, true, true⟩)} ∪ ∅) := by
    simp [x', x, TlbSmp.hit, Smp.cold]
  have hhit : (stackPn, ⟨p, true, true⟩) ∈ x'.tlb 0 := by
    rw [htlb]
    exact .inr (.inl rfl)
  have hstore : TlbStep demoConfig.machine (fun _ en ↦ en.cpu = 0) x' (x'.store p 0 0) :=
    .store 0 0 hr.cur hhit rfl rfl (by decide) rfl
  refine ⟨k, (Smp.boot k).cold, x'.store p 0 0, e, 102400, tr, booted, rfl,
    ((hrun.tail ⟨hfill, trivial⟩).tail ⟨hfill', trivial⟩).tail ⟨hstore, trivial⟩, hr.cur, ?_,
    by decide, ?_⟩
  · show _ ∈ x'.tlb 0
    rw [htlb]
    exact .inl rfl
  · rintro ⟨d', hd', htr'⟩
    obtain rfl : d = d' := Option.some.inj ((Kern.live_of_dirs hdir).2.symm.trans hd')
    exact nomatch hgone.symm.trans htr'

end Jos
