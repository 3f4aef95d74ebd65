import Jos.Kern.TlbSafe

/-!
# System calls and the TLBs

A system call changes the address space of one environment at most.  For the CPU that runs the
call it is tidy: what it stores is quiet for the environment of that CPU, or `invlpg` follows.
For another CPU it is quiet unless it frees the environment of that CPU, or removes or replaces a
mapping in its address space (`Call.Spares`).
-/

namespace Jos

open Jos.Lib

/-- The call gets past its checks, and removes or replaces what is mapped at `va` in the address
space of an environment. -/
inductive Call.Edits (B : Machine) (k : Kern) (c : Call) : Slot → Word → Prop
  | alloc {e : Slot} (no : sysNo c.no = some .pageAlloc)
      (env : envid2env k c.cur c.a1 true = some e) (va : ¬ badVa c.a2) (perm : ¬ badPerm c.a3)
      (mem : k.mem.pageFreeList ≠ none) : c.Edits B k e c.a2
  | map {src dst : Slot} {d p t j : ℕ} (no : sysNo c.no = some .pageMap)
      (srcenv : envid2env k c.cur c.a1 true = some src)
      (dstenv : envid2env k c.cur c.a3 true = some dst)
      (srcva : ¬ badVa c.a2) (dstva : ¬ badVa c.a4) (perm : ¬ badPerm c.a5)
      (pgdir : (k.envs src).envPgdir = some d)
      (lookup : pageLookup B k.mem d c.a2 = some (some (p, t, j)))
      (write : ¬ (isSet c.a5 PTE_W ∧ ¬ isSet (k.mem.phys t j) PTE_W)) : c.Edits B k dst c.a4
  | unmap {e : Slot} (no : sysNo c.no = some .pageUnmap)
      (env : envid2env k c.cur c.a1 true = some e) (va : ¬ badVa c.a2) : c.Edits B k e c.a2
  | send {e : Slot} {d p t j : ℕ} (no : sysNo c.no = some .ipcTrySend)
      (env : envid2env k c.cur c.a1 false = some e) (recving : (k.envs e).envIpcRecving = true)
      (srcva : c.a3 < UTOP) (off : pgoff c.a3 = 0) (perm : ¬ badPerm c.a4)
      (pgdir : (k.envs c.cur).envPgdir = some d)
      (lookup : pageLookup B k.mem d c.a3 = some (some (p, t, j)))
      (write : ¬ (¬ isSet (k.mem.phys t j) PTE_W ∧ isSet c.a4 PTE_W))
      (dstva : (k.envs e).envIpcDstva < UTOP) : c.Edits B k e (k.envs e).envIpcDstva

/-- The call neither frees another environment `e`, nor removes or replaces a mapping in the address
space of `e`. -/
structure Call.Spares (B : Machine) (k : Kern) (c : Call) (e : Slot) : Prop where
  alive : e ≠ c.cur → sysNo c.no = some .envDestroy → envid2env k c.cur c.a1 true = some e →
    (k.envs e).envStatus = .running
  unmapped : ∀ va, c.Edits B k e va → k.space e (pgnum va) = none

variable {B : Machine} {M : Pool B} {k k' : Kern} {l l' : List ℕ} {el : List Slot}
  {cur e e' : Slot} {c : Call} {d d' pp : ℕ} {m : Mem} {r : Role} {va perm : Word}

/-- On the calling CPU everything goes; the environments of the others have to be spared. -/
structure Call.Minds (B : Machine) (k : Kern) (c : Call) (r : Role) (e : Slot) : Prop where
  role : r = .other ↔ e ≠ c.cur
  spares : r ≠ .self → c.Spares B k e

theorem Kern.entryFrame_of_space (hd : k.dirs e = some d) (hva : va < UTOP)
    (h : k.space e (pgnum va) = none) : entryFrame (pteOf k.mem d (pgnum va)) = none := by
  rw [Kern.space_eq hd (pgnum_lt_of_lt_UTOP hva)] at h
  rw [entryFrame_pteOf, h]
  rfl

theorem flushes_self (hpg : (k.envs cur).envPgdir = some d) : flushes k (some cur) d = true := by
  simp [flushes, hpg]

/-- What the call does at the page that it edits. -/
theorem Call.Minds.edit_ok (hG : c.Minds B k r e) (hd : k.dirs e = some d)
    (hedit : c.Edits B k e' va) (hva : va < UTOP) (hself : e' = e) :
    r = .self ∧ flushes k (some c.cur) d = true ∨
      entryFrame (pteOf k.mem d (pgnum va)) = none := by
  subst hself
  by_cases hr : r = .self
  · have hcur : e' = c.cur := by
      by_contra hne
      exact absurd (hr.symm.trans (hG.role.mpr hne)) (by decide)
    subst hcur
    exact .inl ⟨hr, flushes_self (Kern.live_of_dirs hd).2⟩
  · exact .inr (Kern.entryFrame_of_space hd hva ((hG.spares hr).unmapped va hedit))

section

variable (h : Inv B M k l el) (hlive : k.Live cur) (hd : k.dirs e = some d)
  (hrole : r = .other ↔ e ≠ cur)

include h hlive hd hrole

/-- `env_free` of the environment of the CPU switches to `kern_pgdir` first. -/
theorem Inv.envFreeEvs_cur_tidy :
    Tidy translation d k.mem.phys (envFreeEvs B k (some cur) cur) r := by
  by_cases hr : r = .other
  · exact .of_quiet (h.envFreeEvs_quiet hd hlive (hrole.mp hr).symm _)
  · have hload : TlbEv.load B.kernPgdir ∈ envFreeEvs B k (some cur) cur := by
      rw [envFreeEvs, if_pos rfl]
      exact List.mem_cons_self
    exact .of_load hr hload

theorem Inv.envDestroyEvs_cur_tidy :
    Tidy translation d k.mem.phys (envDestroyEvs B k (some cur) cur) r := by
  rw [envDestroyEvs]
  split
  · exact .of_quiet trivial
  · exact h.envFreeEvs_cur_tidy hlive hd hrole

theorem Inv.userMemAssertEvs_tidy {len : Word} :
    Tidy translation d k.mem.phys (userMemAssertEvs B k cur va len perm) r := by
  rw [userMemAssertEvs]
  split
  · exact .of_quiet trivial
  · split
    · exact h.envDestroyEvs_cur_tidy hlive hd hrole
    · exact .of_quiet trivial

end

section

variable (h : Inv B M k l el) (hlive : k.Live c.cur) (hd : k.dirs e = some d)
  (hG : c.Minds B k r e)

include h hd hG

/-- `page_insert` into the address space that the call edits. -/
theorem Inv.insert_tidy (hedit : c.Edits B k e' va) (hd' : k.dirs e' = some d') (hva : va < UTOP) :
    Tidy translation d k.mem.phys
      (pageInsertEvs B (flushes k (some c.cur)) k.mem d' pp va perm) r :=
  h.own.pageInsertEvs_tidy h.half hd hd' hva (hG.edit_ok hd hedit hva)

include hlive

theorem Inv.sysPageAllocEvs_tidy (hno : sysNo c.no = some .pageAlloc) :
    Tidy translation d k.mem.phys (sysPageAllocEvs B k c.cur c.a1 c.a2 c.a3) r := by
  rw [sysPageAllocEvs]
  split
  · exact .of_quiet trivial
  next e' he' =>
  split
  · exact .of_quiet trivial
  next hva =>
  split
  · exact .of_quiet trivial
  next hperm =>
  refine .append (.of_quiet (h.own.pageAllocEvs_quiet h.half hd)) ?_
  cases l with
  | nil =>
      rw [h.own.pageAlloc_empty rfl]
      exact .of_quiet trivial
  | cons p l' =>
      obtain ⟨halloc, hown, -⟩ := h.own.pageAlloc_cons rfl
      obtain ⟨d', hd', hpg⟩ := h.live_dir (envid2env_live hlive he')
      have htab := h.own.tabled_taken rfl
      have hva' := lt_UTOP_of_not_badVa hva
      rw [(pageAlloc_traces halloc).mem, halloc, hpg]
      refine hown.pageInsertEvs_tidy (Halves.of_frame h.half h.own htab.frame) hd hd' hva'
        fun hself ↦ ?_
      rw [htab.pte hd (pgnum_lt_of_lt_UTOP hva')]
      have hhead : k.mem.pageFreeList = some p := h.own.ledger.chain.head_eq
      exact hG.edit_ok hd (.alloc hno he' hva hperm (by rw [hhead]; simp)) hva' hself

theorem Inv.sysPageMapEvs_tidy (hno : sysNo c.no = some .pageMap) :
    Tidy translation d k.mem.phys (sysPageMapEvs B k c.cur c.a1 c.a2 c.a3 c.a4 c.a5) r := by
  rw [sysPageMapEvs]
  split
  swap
  · exact .of_quiet trivial
  next src dst hsrc hdst =>
  split
  · exact .of_quiet trivial
  next hva =>
  split
  · exact .of_quiet trivial
  next hva' =>
  split
  · exact .of_quiet trivial
  next hperm =>
  split
  swap
  · exact .of_quiet trivial
  next ds dd hpgs hpgd =>
  split
  swap
  · exact .of_quiet trivial
  next p t j hlook =>
  split
  · exact .of_quiet trivial
  next hW =>
  have hdst' : k.dirs dst = some dd := (envid2env_live hlive hdst).dirs_eq.trans hpgd
  exact h.insert_tidy hd hG (.map hno hsrc hdst hva hva' hperm hpgs hlook hW) hdst'
    (lt_UTOP_of_not_badVa hva')

theorem Inv.sysPageUnmapEvs_tidy (hno : sysNo c.no = some .pageUnmap) :
    Tidy translation d k.mem.phys (sysPageUnmapEvs B k c.cur c.a1 c.a2) r := by
  rw [sysPageUnmapEvs]
  split
  · exact .of_quiet trivial
  next e' he' =>
  split
  · exact .of_quiet trivial
  next hva =>
  split
  swap
  · exact .of_quiet trivial
  next d' hpg =>
  have hd' : k.dirs e' = some d' := (envid2env_live hlive he').dirs_eq.trans hpg
  have hva' := lt_UTOP_of_not_badVa hva
  exact h.own.pageRemoveEvs_tidy h.half hd hd' hva'
    (hG.edit_ok hd (.unmap hno he' hva) hva')

theorem Inv.sysIpcTrySendEvs_tidy (hno : sysNo c.no = some .ipcTrySend) :
    Tidy translation d k.mem.phys (sysIpcTrySendEvs B k c.cur c.a1 c.a3 c.a4) r := by
  rw [sysIpcTrySendEvs]
  split
  · exact .of_quiet trivial
  next e' he' =>
  split
  · exact .of_quiet trivial
  next hrecv =>
  split
  swap
  · exact .of_quiet trivial
  next hsrc =>
  split
  · exact .of_quiet trivial
  next hoff =>
  split
  · exact .of_quiet trivial
  next hperm =>
  split
  · exact .of_quiet trivial
  next dc hpgc =>
  split
  swap
  · exact .of_quiet trivial
  next p t j hlook =>
  split
  · exact .of_quiet trivial
  next hW =>
  split
  swap
  · exact .of_quiet trivial
  next hdst =>
  split
  swap
  · exact .of_quiet trivial
  next d' hpg =>
  have hd' : k.dirs e' = some d' := (envid2env_live hlive he').dirs_eq.trans hpg
  exact h.insert_tidy hd hG (.send hno he' (by simpa using hrecv) hsrc (by simpa using hoff) hperm
    hpgc hlook hW hdst) hd' hdst

theorem Inv.sysEnvDestroyEvs_tidy (hno : sysNo c.no = some .envDestroy) :
    Tidy translation d k.mem.phys (sysEnvDestroyEvs B k c.cur c.a1) r := by
  rw [sysEnvDestroyEvs]
  split
  · exact .of_quiet trivial
  next e' he' =>
  by_cases hcur : e' = c.cur
  · subst hcur
    exact h.envDestroyEvs_cur_tidy hlive hd hG.role
  rw [envDestroyEvs]
  split
  · exact .of_quiet trivial
  next hrun =>
  have hne : some c.cur ≠ some e' := fun hc ↦ hcur (Option.some.inj hc).symm
  refine .of_quiet (h.envFreeEvs_quiet hd (envid2env_live hlive he') ?_ _)
  rintro rfl
  have hr : r ≠ .self := by
    rw [hG.role.mpr hcur]
    decide
  exact hrun ⟨(hG.spares hr).alive hcur hno he', hne⟩

/-- Every system call. -/
theorem Inv.syscallEvs_tidy :
    Tidy translation d k.mem.phys (syscallEvs B k c.cur c.no c.a1 c.a2 c.a3 c.a4 c.a5) r := by
  rw [syscallEvs]
  cases hno : sysNo c.no with
  | none => exact .of_quiet trivial
  | some n =>
      cases n with
      | cputs => exact h.userMemAssertEvs_tidy hlive hd hG.role
      | envDestroy => exact h.sysEnvDestroyEvs_tidy hlive hd hG hno
      | exofork =>
          show Tidy translation d k.mem.phys (envAllocEvs B k) r
          refine .of_quiet ?_
          rw [envAllocEvs]
          split
          · trivial
          · exact h.own.envSetupVmEvs_quiet h.half hd
      | pageAlloc => exact h.sysPageAllocEvs_tidy hlive hd hG hno
      | pageMap => exact h.sysPageMapEvs_tidy hlive hd hG hno
      | pageUnmap => exact h.sysPageUnmapEvs_tidy hlive hd hG hno
      | ipcTrySend => exact h.sysIpcTrySendEvs_tidy hlive hd hG hno
      | _ => exact .of_quiet trivial

end

end Jos
