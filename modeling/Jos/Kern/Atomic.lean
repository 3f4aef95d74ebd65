import Jos.Kern.Run
import Jos.Kern.Ownership
import Jos.Kern.EnvId

/-!
# Calls that fail

A call can fail after it has taken a page from the free list: `sys_page_alloc` clears the page and
gives it back when `page_insert` finds no memory for a table.  Up to the contents of free pages, a
memory or environment call that returns an error has done nothing.
-/

namespace Jos

open Jos.Lib

variable {B : Machine} {M : Pool B} {k k' : Kern} {l : List ℕ} {el : List Slot} {cur e : Slot}
  {r getc no a1 a2 a3 a4 a5 : Word}

/-- Nothing changed but the contents of free pages. -/
structure Kern.Intact (k k' : Kern) : Prop where
  envs : k'.envs = k.envs
  envFreeList : k'.envFreeList = k.envFreeList
  pages : k'.mem.pages = k.mem.pages
  pageFreeList : k'.mem.pageFreeList = k.mem.pageFreeList
  phys : ∀ p, ¬ k.mem.IsFree p → k'.mem.phys p = k.mem.phys p

theorem Kern.Intact.refl (k : Kern) : k.Intact k := ⟨rfl, rfl, rfl, rfl, fun _ _ ↦ rfl⟩

theorem Inv.not_isFree (h : Inv B M k l el) (key : Key Slot) {p : ℕ}
    (hkey : target B k.mem k.dirs key = some p) : ¬ k.mem.IsFree p := by
  rintro ⟨l', hl', hp⟩
  rw [hl'.unique h.own.ledger.chain] at hp
  exact h.own.ledger.notMem_of_pos (owners_pos hkey) hp

/-- No directory and no table is free, so every translation is what it was. -/
theorem Inv.walk_of_intact (h : Inv B M k l el) (hk : k.Intact k') {d : ℕ} (hd : k.dirs e = some d)
    (va : Word) : k'.mem.walk d va = k.mem.walk d va := by
  refine h.walk_congr hd (hk.phys d (h.not_isFree (.dir e) hd)) (fun i hi t ht ↦ ?_) ⟨?_, ?_⟩ va
  · refine hk.phys t (h.not_isFree (.table e ⟨i, hi⟩) ?_)
    rw [target_table hd hi, ht]
  · refine hk.phys _ ?_
    rintro ⟨l', hl', hp⟩
    rw [hl'.unique h.own.ledger.chain] at hp
    exact M.kern (h.own.list_sub hp)
  · intro i x h1 h2 h3 hx
    exact hk.phys x (h.not_isFree (.kern ⟨i, h2⟩) (target_kern h1 h2 h3 hx))

/-! ## The calls -/

/-- A page that is given back at once is first on the free list again. -/
theorem pageFree_taken {m m' : Mem} {p : ℕ} (hhead : m.pageFreeList = some p)
    (h : pageFree (m.taken p) p = some m') :
    m'.pages = m.pages ∧ m'.pageFreeList = m.pageFreeList ∧ ∀ q, q ≠ p → m'.phys q = m.phys q := by
  rw [pageFree] at h
  split at h
  · cases h
  · obtain rfl := Option.some.inj h
    refine ⟨?_, hhead.symm, fun q hq ↦ m.phys_zero_of_ne hq⟩
    simp [Mem.taken, Mem.setFreeList, Mem.setLink, Mem.zero, Mem.link]

/-- What a call does that returns at once. -/
theorem intact_of_eq {w : Word} (h : some (w, k) = some (r, k')) : k.Intact k' := by
  obtain rfl := (Prod.mk.inj (Option.some.inj h)).2
  exact .refl k

/-- A call that succeeds does not return a negative number. -/
theorem not_neg_of_eq {k₁ : Kern} (h : some ((0 : Word), k₁) = some (r, k')) : ¬ r.toInt < 0 := by
  obtain rfl := (Prod.mk.inj (Option.some.inj h)).1
  decide

section Calls

variable (h : Inv B M k l el) (hcur : k.Live cur) (hr : r.toInt < 0)

include h hcur hr

theorem Inv.sysPageAlloc_failed (hcall : sysPageAlloc B k cur a1 a2 a3 = some (r, k')) :
    k.Intact k' := by
  cases he : envid2env k cur a1 true with
  | none =>
      simp only [sysPageAlloc, he] at hcall
      exact intact_of_eq hcall
  | some e =>
  simp only [sysPageAlloc, he] at hcall
  split at hcall
  · exact intact_of_eq hcall
  next hva =>
  split at hcall
  · exact intact_of_eq hcall
  obtain ⟨d, hd, hpg⟩ := h.live_dir (envid2env_live hcur he)
  cases hl : l with
  | nil =>
      rw [pageAlloc_nil (hl ▸ h.own.ledger)] at hcall
      exact intact_of_eq hcall
  | cons p t =>
      have hchain := h.own.ledger.chain
      rw [hl] at hchain
      obtain ⟨halloc, hown, -⟩ := h.own.pageAlloc_cons hl
      simp only [halloc, hpg, Option.bind_eq_bind, Option.bind_some, Option.bind_eq_some_iff,
        Prod.exists] at hcall
      obtain ⟨w, m₁, hins, hcall⟩ := hcall
      split at hcall
      swap
      · exact absurd hr (not_neg_of_eq hcall)
      next hw =>
      -- there was no page left for a table, and the page taken first goes back
      obtain ⟨rfl, -⟩ := (pageInsert_cases hins).resolve_right hw
      obtain rfl := (pageInsert_negative hins).2 (by decide)
      obtain ⟨m₂, hfree, hcall⟩ := Option.bind_eq_some_iff.mp hcall
      obtain rfl := (Prod.mk.inj (Option.some.inj hcall)).2
      obtain ⟨hpages, hlist, hphys⟩ := pageFree_taken hchain.head_eq hfree
      refine ⟨rfl, rfl, hpages, hlist, fun q hq ↦ hphys q ?_⟩
      rintro rfl
      exact hq ⟨_, hchain, List.mem_cons_self⟩

theorem Inv.sysPageMap_failed (hcall : sysPageMap B k cur a1 a2 a3 a4 a5 = some (r, k')) :
    k.Intact k' := by
  cases hsrc : envid2env k cur a1 true with
  | none =>
      simp only [sysPageMap, hsrc] at hcall
      exact intact_of_eq hcall
  | some src =>
  cases hdst : envid2env k cur a3 true with
  | none =>
      simp only [sysPageMap, hsrc, hdst] at hcall
      exact intact_of_eq hcall
  | some dst =>
  simp only [sysPageMap, hsrc, hdst] at hcall
  split at hcall
  · exact intact_of_eq hcall
  split at hcall
  · exact intact_of_eq hcall
  next hva =>
  split at hcall
  · exact intact_of_eq hcall
  simp only [Option.bind_eq_bind, Option.bind_eq_some_iff] at hcall
  obtain ⟨d, -, o, -, hcall⟩ := hcall
  cases o with
  | none => exact intact_of_eq hcall
  | some x =>
  obtain ⟨p, t, j⟩ := x
  simp only at hcall
  split at hcall
  · exact intact_of_eq hcall
  obtain ⟨d', hd', hpg'⟩ := h.live_dir (envid2env_live hcur hdst)
  simp only [hpg', Option.bind_some, Option.bind_eq_some_iff, Prod.exists] at hcall
  obtain ⟨w, m, hins, hcall⟩ := hcall
  split at hcall
  · next hw =>
      obtain rfl := (pageInsert_negative hins).2 hw
      exact intact_of_eq hcall
  · exact absurd hr (not_neg_of_eq hcall)

omit hcur in
theorem Inv.sysExofork_failed (hcall : sysExofork B k cur = some (r, k')) : k.Intact k' := by
  rcases h.envAlloc_spec (k.envs cur).envId with
    ⟨w, -, halloc⟩ | ⟨e, el', d, l', k₁, -, -, halloc, henv, -⟩
  · simp only [sysExofork, halloc, Option.bind_eq_bind, Option.bind_some] at hcall
    exact intact_of_eq hcall
  · -- the id of a new environment is positive
    simp only [sysExofork, halloc, Option.bind_eq_bind, Option.bind_some] at hcall
    obtain rfl := (Prod.mk.inj (Option.some.inj hcall)).1
    rw [Kern.envs_modEnv_self, henv] at hr
    exact absurd hr (not_lt.mpr (nextEnvId_pos (k.envs e).envId e).le)

end Calls

theorem sysPageUnmap_failed (hr : r.toInt < 0) (hcall : sysPageUnmap B k cur a1 a2 = some (r, k')) :
    k.Intact k' := by
  rw [sysPageUnmap] at hcall
  split at hcall
  · exact intact_of_eq hcall
  split at hcall
  · exact intact_of_eq hcall
  simp only [Option.bind_eq_bind, Option.bind_eq_some_iff] at hcall
  obtain ⟨d, -, m, -, hcall⟩ := hcall
  exact absurd hr (not_neg_of_eq hcall)

theorem sysEnvSetStatus_failed (hr : r.toInt < 0)
    (hcall : some (sysEnvSetStatus k cur a1 a2) = some (r, k')) : k.Intact k' := by
  rw [sysEnvSetStatus] at hcall
  split at hcall
  · exact intact_of_eq hcall
  split at hcall
  · exact absurd hr (not_neg_of_eq hcall)
  split at hcall
  · exact absurd hr (not_neg_of_eq hcall)
  · exact intact_of_eq hcall

theorem sysEnvSetPgfaultUpcall_failed (hr : r.toInt < 0)
    (hcall : some (sysEnvSetPgfaultUpcall k cur a1 a2) = some (r, k')) : k.Intact k' := by
  rw [sysEnvSetPgfaultUpcall] at hcall
  split at hcall
  · exact intact_of_eq hcall
  · exact absurd hr (not_neg_of_eq hcall)

theorem sysEnvDestroy_failed (hr : r.toInt < 0)
    (hcall : sysEnvDestroy B k cur a1 = some (.ret r, k')) : k.Intact k' := by
  rw [sysEnvDestroy] at hcall
  split at hcall
  · obtain rfl := (Prod.mk.inj (Option.some.inj hcall)).2
    exact .refl k
  · simp only [Option.bind_eq_bind, Option.bind_eq_some_iff] at hcall
    obtain ⟨⟨c, k₁⟩, -, hcall⟩ := hcall
    cases c with
    | yield c => cases hcall
    | ret u =>
        have h0 := Ctl.ret.inj (Prod.mk.inj (Option.some.inj hcall)).1
        rw [← h0] at hr
        exact absurd hr (by decide)

theorem returned_eq_ret {x : Option (Word × Kern)} (h : returned x = some (.ret r, k')) :
    x = some (r, k') := by
  obtain ⟨⟨w, k₁⟩, hx, h⟩ := Option.map_eq_some_iff.mp h
  cases h
  exact hx

/-- The memory and environment calls. -/
def MemCall (n : SysNo) : Prop :=
  n = .exofork ∨ n = .envDestroy ∨ n = .envSetStatus ∨ n = .envSetPgfaultUpcall ∨ n = .pageAlloc ∨
    n = .pageMap ∨ n = .pageUnmap

/-- A memory or environment call of a live environment that returns a negative number leaves
everything as it was, up to the contents of free pages: both tables and both free lists, the
contents of the pages in use, and every translation of every address space. -/
theorem failed_calls_atomic {n : SysNo} (h : Inv B M k l el) (hcur : k.Live cur)
    (hno : sysNo no = some n) (hn : MemCall n)
    (hcall : syscall B k cur getc no a1 a2 a3 a4 a5 = some (.ret r, k')) (hr : r.toInt < 0) :
    k.Intact k' ∧ ∀ e d, k.dirs e = some d → ∀ va, k'.mem.walk d va = k.mem.walk d va := by
  suffices hk : k.Intact k' from ⟨hk, fun e d hd va ↦ h.walk_of_intact hk hd va⟩
  rcases hn with rfl | rfl | rfl | rfl | rfl | rfl | rfl <;>
    simp only [syscall, hno] at hcall
  · exact h.sysExofork_failed hr (returned_eq_ret hcall)
  · exact sysEnvDestroy_failed hr hcall
  · exact sysEnvSetStatus_failed hr (returned_eq_ret hcall)
  · exact sysEnvSetPgfaultUpcall_failed hr (returned_eq_ret hcall)
  · exact h.sysPageAlloc_failed hcur hr (returned_eq_ret hcall)
  · exact h.sysPageMap_failed hcur hr (returned_eq_ret hcall)
  · exact sysPageUnmap_failed hr (returned_eq_ret hcall)

/-- `sys_page_map` to an address that is too high. -/
theorem failed_calls_atomic_high : ∃ k k' cur,
    syscall demoConfig.machine k cur 0 5 0 0 0 UTOP 7 = some (.ret (-E_INVAL), k') ∧
    k.Intact k' := by
  obtain ⟨k, l, el, e, -, env, -, d, -, -, h, -, -, -, henv, -⟩ := exists_booted
  have hlive : k.Live e := by
    rw [Kern.Live, henv]
    simp [createdEnv, freshEnv]
  have hcall : syscall demoConfig.machine k e 0 5 0 0 0 UTOP 7 = some (.ret (-E_INVAL), k) := by
    rfl
  exact ⟨k, k, e, hcall, (failed_calls_atomic h.inv hlive rfl (by simp [MemCall]) hcall
    (by decide)).1⟩

end Jos
