import Jos.Kern.Tlb

/-!
# The traces are those of the code

A function that goes through leaves the memory that its trace leaves, and only `lcr3` changes the
root.
-/

namespace Jos

open Jos.Lib

variable {B : Machine} {flush : ℕ → Bool} {m m' : Mem} {P P' P'' : Phys} {evs evs' : List Ev}
  {k k' : Kern} {cur e : Slot} {d pp : ℕ} {va perm w : Word}

/-- The trace leads from `P` to `P'`, and loads no root. -/
structure Traces (evs : List Ev) (P P' : Phys) : Prop where
  mem : memAfter P evs = P'
  load : ∀ d, .load d ∉ evs

namespace Traces

theorem nil (P : Phys) : Traces [] P P := ⟨rfl, fun _ ↦ List.not_mem_nil⟩

theorem store (h : Traces evs P' P'') : Traces (.store P' :: evs) P P'' :=
  ⟨h.mem, fun d hd ↦ h.load d ((List.mem_cons.mp hd).resolve_left nofun)⟩

theorem drop {v : ℕ} (h : Traces evs P P') : Traces (.drop v :: evs) P P' :=
  ⟨h.mem, fun d hd ↦ h.load d ((List.mem_cons.mp hd).resolve_left nofun)⟩

theorem append (h : Traces evs P P') (h' : Traces evs' P' P'') : Traces (evs ++ evs') P P'' := by
  refine ⟨by rw [memAfter_append, h.mem, h'.mem], fun d hd ↦ ?_⟩
  rcases List.mem_append.mp hd with hd | hd
  · exact h.load d hd
  · exact h'.load d hd

theorem single (P P' : Phys) : Traces [.store P'] P P' := .store (.nil P')

theorem root (h : Traces evs P P') (d : ℕ) : rootAfter d evs = d := rootAfter_of_no_load h.load

end Traces

/-! ## The page allocator and the page tables -/

theorem pageFree_phys {q : ℕ} (h : pageFree m q = some m') : m'.phys = m.phys := by
  rw [pageFree] at h
  split at h
  · cases h
  · rw [← Option.some.inj h]
    rfl

theorem pageAlloc_traces {z : Bool} {r : Option ℕ} (h : pageAlloc B m z = some (r, m')) :
    Traces (pageAllocEvs B m z) m.phys m'.phys := by
  cases hf : m.pageFreeList with
  | none =>
      simp only [pageAlloc, hf, Option.some.injEq, Prod.mk.injEq] at h
      rw [← h.2, pageAllocEvs, hf]
      exact .nil _
  | some p =>
      cases z with
      | false =>
          simp only [pageAlloc, hf, Bool.false_eq_true, if_false, Option.bind_eq_bind,
            Option.bind_some, Option.pure_def, Option.some.injEq, Prod.mk.injEq] at h
          rw [← h.2]
          simp only [pageAllocEvs, hf, Bool.false_eq_true, if_false]
          split
          · exact .nil _
          · exact .nil _
      | true =>
          simp only [pageAlloc, hf, if_true, Option.bind_eq_bind, Option.bind_eq_some_iff,
            Option.map_eq_some_iff, Option.pure_def, Option.some.injEq, Prod.mk.injEq] at h
          obtain ⟨m₁, ⟨f, hk, rfl⟩, -, rfl⟩ := h
          simp only [pageAllocEvs, hf, hk, if_true]
          exact .single _ _

theorem pgdirWalk_traces {create : Bool} {r : Option (ℕ × ℕ)}
    (h : pgdirWalk B m d va create = some (r, m')) :
    Traces (pgdirWalkEvs B m d va create) m.phys m'.phys := by
  simp only [pgdirWalk] at h
  by_cases hP : isSet (m.phys d (pdx va)) PTE_P
  · simp only [hP, if_true, Option.bind_eq_bind, Option.bind_eq_some_iff, Option.pure_def,
      Option.some.injEq, Prod.mk.injEq] at h
    obtain ⟨f, -, -, rfl⟩ := h
    simp only [pgdirWalkEvs, hP, if_true]
    exact .nil _
  simp only [hP, if_false] at h
  cases create with
  | false =>
      simp only [Bool.false_eq_true, if_false, Option.pure_def, Option.some.injEq,
        Prod.mk.injEq] at h
      simp only [pgdirWalkEvs, Bool.false_eq_true, if_false, ite_self, h.2]
      exact .nil _
  | true =>
      simp only [if_true, Option.bind_eq_bind, Option.bind_eq_some_iff, Prod.exists] at h
      obtain ⟨pNew, m₁, halloc, h⟩ := h
      simp only [pgdirWalkEvs, hP, if_false, if_true, halloc]
      refine (pageAlloc_traces halloc).append ?_
      cases pNew with
      | none =>
          rw [← (Prod.mk.inj (Option.some.inj h)).2]
          exact .nil _
      | some pNew =>
          simp only [Option.bind_eq_some_iff, Option.pure_def, Option.some.injEq,
            Prod.mk.injEq] at h
          obtain ⟨f, -, -, rfl⟩ := h
          exact .single _ _

theorem tlbInvalidate_traces (flush : ℕ → Bool) (d : ℕ) (va : Word) (P : Phys) :
    Traces (tlbInvalidateEvs flush d va) P P := by
  rw [tlbInvalidateEvs]
  split
  · exact .drop (.nil P)
  · exact .nil P

theorem pageRemove_traces (flush : ℕ → Bool) (h : pageRemove B m d va = some m') :
    Traces (pageRemoveEvs B flush m d va) m.phys m'.phys := by
  simp only [pageRemove, Option.bind_eq_bind, Option.bind_eq_some_iff] at h
  obtain ⟨r, hlook, h⟩ := h
  rw [pageRemoveEvs, hlook]
  cases r with
  | none =>
      rw [← Option.some.inj h]
      exact .nil _
  | some x =>
      obtain ⟨got, t, j⟩ := x
      simp only at h ⊢
      by_cases hP : isSet (m.phys t j) PTE_P
      · simp only [hP, if_true, Option.bind_eq_some_iff, Option.pure_def,
          Option.some.injEq] at h ⊢
        obtain ⟨m₁, hdec, rfl⟩ := h
        have hphys : (m.write t j 0).phys = (tlbInvalidate (m₁.write t j 0) d va).phys := by
          simp only [Mem.write, tlbInvalidate, (pageDecref_frame hdec).1]
        rw [hphys]
        exact .store (tlbInvalidate_traces flush d va _)
      · simp only [hP, if_false, Option.pure_def, Option.some.injEq] at h ⊢
        rw [h]
        exact .nil _

theorem pageInsert_traces (flush : ℕ → Bool) (h : pageInsert B m d pp va perm = some (w, m')) :
    Traces (pageInsertEvs B flush m d pp va perm) m.phys m'.phys := by
  simp only [pageInsert, Option.bind_eq_bind, Option.bind_eq_some_iff, Prod.exists] at h
  obtain ⟨pte, m₁, hwalk, h⟩ := h
  rw [pageInsertEvs, hwalk]
  refine (pgdirWalk_traces hwalk).append ?_
  cases pte with
  | none =>
      rw [← (Prod.mk.inj (Option.some.inj h)).2]
      exact .nil _
  | some x =>
      obtain ⟨t, j⟩ := x
      simp only at h ⊢
      split at h
      · next hP =>
          simp only [Option.bind_eq_some_iff, Option.pure_def, Option.some.injEq,
            Prod.mk.injEq] at h
          obtain ⟨m₂, hrem, -, rfl⟩ := h
          rw [if_pos hP, hrem]
          exact (pageRemove_traces _ hrem).append (.single _ _)
      · next hP =>
          rw [if_neg hP, ← (Prod.mk.inj (Option.some.inj h)).2]
          exact .single _ _

/-! ## Environments -/

theorem copyKernPdes_traces (m : Mem) (d : ℕ) (xs : List ℕ) :
    Traces (copyKernPdesEvs B m d xs) m.phys
      (xs.foldl (fun m x ↦ m.write d x (m.phys B.kernPgdir x)) m).phys := by
  induction xs generalizing m with
  | nil => exact .nil _
  | cons x xs ih => exact .store (ih _)

theorem envSetupVm_traces {r : Except Word ℕ} (h : envSetupVm B m = some (r, m')) :
    Traces (envSetupVmEvs B m) m.phys m'.phys := by
  simp only [envSetupVm, Option.bind_eq_bind, Option.bind_eq_some_iff, Prod.exists] at h
  obtain ⟨p, m₁, halloc, h⟩ := h
  simp only [envSetupVmEvs, halloc]
  refine (pageAlloc_traces halloc).append ?_
  cases p with
  | none =>
      rw [← (Prod.mk.inj (Option.some.inj h)).2]
      exact .nil _
  | some p =>
      simp only [Option.bind_eq_some_iff, Option.pure_def, Option.some.injEq,
        Prod.mk.injEq] at h
      obtain ⟨f, hk, -, rfl⟩ := h
      simp only [hk]
      exact (copyKernPdes_traces _ f _).append (.single _ _)

theorem envFreePtes_traces (flush : ℕ → Bool) {pt pdeno : ℕ} (xs : List ℕ)
    (h : xs.foldlM (fun m pteno ↦ if isSet (m.phys pt pteno) PTE_P then
      pageRemove B m d (pgaddr pdeno pteno 0) else some m) m = some m') :
    Traces (envFreePtesEvs B flush d pt pdeno m xs) m.phys m'.phys := by
  induction xs generalizing m with
  | nil =>
      rw [← Option.some.inj h]
      exact .nil _
  | cons x xs ih =>
      rw [List.foldlM_cons, Option.bind_eq_bind, Option.bind_eq_some_iff] at h
      obtain ⟨m₁, hx, hxs⟩ := h
      simp only [envFreePtesEvs]
      split at hx
      · next hP =>
          rw [if_pos hP, hx]
          exact (pageRemove_traces _ hx).append (ih hxs)
      · next hP =>
          rw [if_neg hP, Option.some.inj hx]
          exact ih hxs

theorem envFreePde_traces (flush : ℕ → Bool) {pdeno : ℕ} (h : envFreePde B d m pdeno = some m') :
    Traces (envFreePdeEvs B flush d m pdeno) m.phys m'.phys := by
  rw [envFreePde] at h
  rw [envFreePdeEvs]
  split at h
  · next hP =>
      rw [if_pos hP, ← Option.some.inj h]
      exact .nil _
  · next hP =>
      simp only [Option.bind_eq_bind, Option.bind_eq_some_iff] at h
      obtain ⟨pt, hk, m₁, hptes, p, -, hdec⟩ := h
      simp only [if_neg hP, hk, hptes]
      rw [(pageDecref_frame hdec).1]
      exact (envFreePtes_traces _ _ hptes).append (.single _ _)

theorem envFreePdes_traces (xs : List ℕ) (h : xs.foldlM (envFreePde B d) m = some m') :
    Traces (envFreePdesEvs B flush d m xs) m.phys m'.phys := by
  induction xs generalizing m with
  | nil =>
      rw [← Option.some.inj h]
      exact .nil _
  | cons x xs ih =>
      rw [List.foldlM_cons, Option.bind_eq_bind, Option.bind_eq_some_iff] at h
      obtain ⟨m₁, hx, hxs⟩ := h
      simp only [envFreePdesEvs, hx]
      exact (envFreePde_traces _ hx).append (ih hxs)

theorem envAlloc_traces {parentId : Word} {r : Except Word Slot}
    (h : envAlloc B k parentId = some (r, k')) :
    Traces (envAllocEvs B k) k.mem.phys k'.mem.phys := by
  cases hf : k.envFreeList with
  | none =>
      simp only [envAlloc, hf, Option.some.injEq, Prod.mk.injEq] at h
      rw [← h.2, envAllocEvs, hf]
      exact .nil _
  | some e =>
      simp only [envAlloc, hf, Option.bind_eq_bind, Option.bind_eq_some_iff, Prod.exists] at h
      obtain ⟨r₁, m, hset, h⟩ := h
      rw [envAllocEvs, hf]
      have ht := envSetupVm_traces hset
      cases r₁ with
      | error w =>
          obtain ⟨-, rfl⟩ := Prod.mk.inj (Option.some.inj h)
          exact ht
      | ok d =>
          obtain ⟨-, rfl⟩ := Prod.mk.inj (Option.some.inj h)
          exact ht

/-- `env_free` of another environment. -/
theorem envFree_traces {o : Option Slot} (hne : o ≠ some e) (h : envFree B k e = some k') :
    Traces (envFreeEvs B k o e) k.mem.phys k'.mem.phys := by
  simp only [envFree, Option.bind_eq_bind, Option.bind_eq_some_iff, Option.pure_def,
    Option.some.injEq] at h
  obtain ⟨d, hd, m₁, hpdes, p, -, m₂, hdec, rfl⟩ := h
  simp only [envFreeEvs, hne, if_false, hd, List.nil_append]
  show Traces _ _ m₂.phys
  rw [(pageDecref_frame hdec).1]
  exact envFreePdes_traces _ hpdes

/-- `env_free` of the current environment loads `kern_pgdir` first. -/
theorem envFree_self_traces (h : envFree B k e = some k') :
    ∃ evs, envFreeEvs B k (some e) e = .load B.kernPgdir :: evs ∧
      Traces evs k.mem.phys k'.mem.phys := by
  simp only [envFree, Option.bind_eq_bind, Option.bind_eq_some_iff, Option.pure_def,
    Option.some.injEq] at h
  obtain ⟨d, hd, m₁, hpdes, p, -, m₂, hdec, rfl⟩ := h
  refine ⟨envFreePdesEvs B (flushes k (some e)) d k.mem (List.range (pdx UTOP)), ?_, ?_⟩
  · simp only [envFreeEvs, if_true, hd, List.cons_append, List.nil_append]
  · show Traces _ _ m₂.phys
    rw [(pageDecref_frame hdec).1]
    exact envFreePdes_traces _ hpdes

/-! ## System calls -/

theorem sysPageAlloc_traces {envid : Word} (h : sysPageAlloc B k cur envid va perm = some (w, k')) :
    Traces (sysPageAllocEvs B k cur envid va perm) k.mem.phys k'.mem.phys := by
  have quiet : ∀ {x : Word}, some (x, k) = some (w, k') → Traces [] k.mem.phys k'.mem.phys :=
    fun heq ↦ by
      rw [← (Prod.mk.inj (Option.some.inj heq)).2]
      exact .nil _
  rw [sysPageAllocEvs]
  cases he : envid2env k cur envid true with
  | none =>
      simp only [sysPageAlloc, he] at h
      exact quiet h
  | some e =>
  simp only [sysPageAlloc, he] at h ⊢
  by_cases hva : badVa va
  · simp only [hva, if_true] at h ⊢
    exact quiet h
  by_cases hperm : badPerm perm
  · simp only [hva, hperm, if_true, if_false] at h ⊢
    exact quiet h
  simp only [hva, hperm, if_false, Option.bind_eq_bind, Option.bind_eq_some_iff,
    Prod.exists] at h ⊢
  obtain ⟨p, m₁, halloc, h⟩ := h
  refine (pageAlloc_traces halloc).append ?_
  rw [halloc]
  cases p with
  | none =>
      rw [← (Prod.mk.inj (Option.some.inj h)).2]
      exact .nil _
  | some p =>
      simp only [Option.bind_eq_some_iff, Prod.exists] at h
      obtain ⟨d, hd, r, m₂, hins, h⟩ := h
      simp only [hd]
      have ht := pageInsert_traces (flushes k (some cur)) hins
      split at h
      · obtain ⟨m₃, hfree, h⟩ := Option.bind_eq_some_iff.mp h
        rw [← (Prod.mk.inj (Option.some.inj h)).2]
        rwa [← pageFree_phys hfree] at ht
      · rw [← (Prod.mk.inj (Option.some.inj h)).2]
        exact ht

theorem sysPageMap_traces {srcenvid srcva dstenvid dstva : Word}
    (h : sysPageMap B k cur srcenvid srcva dstenvid dstva perm = some (w, k')) :
    Traces (sysPageMapEvs B k cur srcenvid srcva dstenvid dstva perm) k.mem.phys k'.mem.phys := by
  have quiet : ∀ {x : Word}, some (x, k) = some (w, k') → Traces [] k.mem.phys k'.mem.phys :=
    fun heq ↦ by
      rw [← (Prod.mk.inj (Option.some.inj heq)).2]
      exact .nil _
  rw [sysPageMapEvs]
  cases hsrc : envid2env k cur srcenvid true with
  | none =>
      simp only [sysPageMap, hsrc] at h
      exact quiet h
  | some src =>
  cases hdst : envid2env k cur dstenvid true with
  | none =>
      simp only [sysPageMap, hsrc, hdst] at h
      exact quiet h
  | some dst =>
  simp only [sysPageMap, hsrc, hdst] at h ⊢
  by_cases hva : badVa srcva
  · simp only [hva, if_true] at h ⊢
    exact quiet h
  by_cases hva' : badVa dstva
  · simp only [hva, hva', if_true, if_false] at h ⊢
    exact quiet h
  by_cases hperm : badPerm perm
  · simp only [hva, hva', hperm, if_true, if_false] at h ⊢
    exact quiet h
  simp only [hva, hva', hperm, if_false, Option.bind_eq_bind, Option.bind_eq_some_iff] at h ⊢
  obtain ⟨d, hd, r, hlook, h⟩ := h
  rw [hd]
  cases r with
  | none =>
      have ht := quiet h
      cases hd' : (k.envs dst).envPgdir with
      | none => exact ht
      | some d' => simpa only [hlook] using ht
  | some x =>
      obtain ⟨p, t, j⟩ := x
      by_cases hW : isSet perm PTE_W ∧ ¬ isSet (k.mem.phys t j) PTE_W
      · simp only [if_pos hW] at h
        have ht := quiet h
        cases hd' : (k.envs dst).envPgdir with
        | none => exact ht
        | some d' => simpa only [hlook, if_pos hW] using ht
      · simp only [if_neg hW, Option.bind_eq_some_iff, Prod.exists] at h
        obtain ⟨d', hd', r, m, hins, h⟩ := h
        simp only [hd', hlook, if_neg hW]
        have ht := pageInsert_traces (flushes k (some cur)) hins
        split at h
        · rw [← (Prod.mk.inj (Option.some.inj h)).2]
          exact ht
        · rw [← (Prod.mk.inj (Option.some.inj h)).2]
          exact ht

theorem sysPageUnmap_traces {envid : Word} (h : sysPageUnmap B k cur envid va = some (w, k')) :
    Traces (sysPageUnmapEvs B k cur envid va) k.mem.phys k'.mem.phys := by
  rw [sysPageUnmapEvs]
  cases he : envid2env k cur envid true with
  | none =>
      simp only [sysPageUnmap, he] at h
      rw [← (Prod.mk.inj (Option.some.inj h)).2]
      exact .nil _
  | some e =>
  simp only [sysPageUnmap, he] at h ⊢
  by_cases hva : badVa va
  · simp only [hva, if_true] at h ⊢
    rw [← (Prod.mk.inj (Option.some.inj h)).2]
    exact .nil _
  simp only [hva, if_false, Option.bind_eq_bind, Option.bind_eq_some_iff] at h ⊢
  obtain ⟨d, hd, m, hrem, h⟩ := h
  rw [← (Prod.mk.inj (Option.some.inj h)).2, hd]
  exact pageRemove_traces _ hrem

theorem sysIpcTrySend_traces {envid value srcva : Word}
    (h : sysIpcTrySend B k cur envid value srcva perm = some (w, k')) :
    Traces (sysIpcTrySendEvs B k cur envid srcva perm) k.mem.phys k'.mem.phys := by
  have quiet : ∀ {x : Word} {k₁ : Kern}, some (x, k₁) = some (w, k') → k₁.mem = k.mem →
      Traces [] k.mem.phys k'.mem.phys := fun heq hmem ↦ by
    rw [← (Prod.mk.inj (Option.some.inj heq)).2, hmem]
    exact .nil _
  rw [sysIpcTrySendEvs]
  cases he : envid2env k cur envid false with
  | none =>
      simp only [sysIpcTrySend, he] at h
      exact quiet h rfl
  | some e =>
  simp only [sysIpcTrySend, he] at h ⊢
  by_cases hrecv : (k.envs e).envIpcRecving = true
  swap
  · simp only [hrecv] at h ⊢
    exact quiet h rfl
  by_cases hsrc : srcva < UTOP
  swap
  · simp only [hrecv, hsrc, not_true_eq_false, if_false] at h ⊢
    exact quiet h rfl
  by_cases hoff : pgoff srcva = 0
  swap
  · simp only [hrecv, hsrc, hoff, not_true_eq_false, if_false, if_true, ne_eq,
      not_false_eq_true] at h ⊢
    exact quiet h rfl
  by_cases hperm : badPerm perm
  · simp only [hrecv, hsrc, hoff, hperm, not_true_eq_false, if_false, if_true, ne_eq] at h ⊢
    exact quiet h rfl
  simp only [hrecv, hsrc, hoff, hperm, not_true_eq_false, if_false, if_true, ne_eq,
    Option.bind_eq_bind, Option.bind_eq_some_iff] at h ⊢
  obtain ⟨d, hd, r, hlook, h⟩ := h
  simp only [hd, hlook]
  cases r with
  | none => exact quiet h rfl
  | some x =>
      obtain ⟨p, t, j⟩ := x
      simp only at h ⊢
      split at h
      · next hW =>
          rw [if_pos hW]
          exact quiet h rfl
      next hW =>
      rw [if_neg hW]
      split at h
      swap
      · next hdst =>
          rw [if_neg hdst]
          exact quiet h rfl
      next hdst =>
      simp only [Option.bind_eq_some_iff, Prod.exists] at h
      obtain ⟨d', hd', r, m, hins, h⟩ := h
      simp only [if_pos hdst, hd']
      have ht := pageInsert_traces (flushes k (some cur)) hins
      split at h
      · rw [← (Prod.mk.inj (Option.some.inj h)).2]
        exact ht
      · rw [← (Prod.mk.inj (Option.some.inj h)).2]
        exact ht

theorem Ctl.ret_ne_yield {α : Type} {r : α} {o : Option Slot} : Ctl.ret r ≠ .yield o := by
  intro h
  cases h

theorem Ctl.yield_some_ne {α : Type} (e : Slot) : (Ctl.yield (some e) : Ctl α) ≠ .yield none :=
  fun h ↦ Option.some_ne_none e (Ctl.yield.inj h)

theorem Exit.yield_some_ne (e : Slot) : Exit.yield (some e) ≠ .yield none :=
  fun h ↦ Option.some_ne_none e (Exit.yield.inj h)

theorem Exit.ret_ne_yield {o : Option Slot} : Exit.ret ≠ .yield o := by
  intro h
  cases h

theorem Exit.run_ne_yield {o : Option Slot} : Exit.run ≠ .yield o := by
  intro h
  cases h

/-- Code that runs for `cur` and may destroy it: it destroys `cur` and calls the scheduler, or it
leaves the memory of its trace and loads no root. -/
def Ends (B : Machine) (k : Kern) (cur : Slot) (evs : List Ev) {α : Type} (x : Ctl α) (k' : Kern) :
    Prop :=
  x ≠ .yield none ∧ Traces evs k.mem.phys k'.mem.phys ∨
    x = .yield none ∧ evs = envFreeEvs B k (some cur) cur ∧ envFree B k cur = some k'

theorem Ends.quiet {α : Type} {x : Ctl α} (hx : x ≠ .yield none) (hmem : k'.mem = k.mem) :
    Ends B k cur [] x k' := .inl ⟨hx, by rw [hmem]; exact .nil _⟩

theorem envDestroy_ends {c : Ctl Unit} (h : envDestroy B k (some cur) e = some (c, k')) :
    Ends B k cur (envDestroyEvs B k (some cur) e) c k' := by
  by_cases hself : e = cur
  · subst hself
    obtain ⟨rfl, hf⟩ := envDestroy_self h
    exact .inr ⟨rfl, by simp [envDestroyEvs], hf⟩
  have hne : (some cur : Option Slot) ≠ some e := fun hc ↦ hself (Option.some.inj hc).symm
  rw [envDestroyEvs]
  by_cases hrun : (k.envs e).envStatus = .running
  · simp only [envDestroy, hrun, hne, ne_eq, not_false_eq_true, and_self, if_true,
      Option.some.injEq, Prod.mk.injEq] at h ⊢
    obtain ⟨rfl, rfl⟩ := h
    exact .quiet Ctl.ret_ne_yield rfl
  · simp only [envDestroy, hrun, hne, false_and, if_false, Option.bind_eq_bind,
      Option.bind_eq_some_iff, Option.pure_def, Option.some.injEq, Prod.mk.injEq] at h ⊢
    obtain ⟨k₁, hf, rfl, rfl⟩ := h
    exact .inl ⟨Ctl.ret_ne_yield, envFree_traces hne hf⟩

theorem userMemAssert_ends {len : Word} {c : Ctl Unit}
    (h : userMemAssert B k cur va len perm = some (c, k')) :
    Ends B k cur (userMemAssertEvs B k cur va len perm) c k' := by
  simp only [userMemAssert, Option.bind_eq_bind, Option.bind_eq_some_iff] at h
  obtain ⟨d, hd, o, hcheck, h⟩ := h
  simp only [userMemAssertEvs, hd, hcheck]
  cases o with
  | none =>
      obtain ⟨rfl, rfl⟩ := Prod.mk.inj (Option.some.inj h)
      exact .quiet Ctl.ret_ne_yield rfl
  | some a => exact envDestroy_ends h

theorem sysCputs_ends {str len : Word} {c : Ctl Unit}
    (h : sysCputs B k cur str len = some (c, k')) :
    Ends B k cur (userMemAssertEvs B k cur str len PTE_P) c k' := by
  simp only [sysCputs, Option.bind_eq_bind, Option.bind_eq_some_iff, Prod.exists] at h
  obtain ⟨c₁, k₁, hassert, h⟩ := h
  have hends := userMemAssert_ends hassert
  cases c₁ with
  | yield o =>
      obtain ⟨rfl, rfl⟩ := Prod.mk.inj (Option.some.inj h)
      exact hends
  | ret u =>
      simp only [Option.bind_eq_some_iff] at h
      obtain ⟨d, -, u', -, h⟩ := h
      obtain ⟨rfl, rfl⟩ := Prod.mk.inj (Option.some.inj h)
      exact hends

theorem sysEnvDestroy_ends {envid : Word} {x : Ctl Word}
    (h : sysEnvDestroy B k cur envid = some (x, k')) :
    Ends B k cur (sysEnvDestroyEvs B k cur envid) x k' := by
  rw [sysEnvDestroyEvs]
  cases he : envid2env k cur envid true with
  | none =>
      simp only [sysEnvDestroy, he] at h
      obtain ⟨rfl, rfl⟩ := Prod.mk.inj (Option.some.inj h)
      exact .quiet Ctl.ret_ne_yield rfl
  | some e =>
      simp only [sysEnvDestroy, he, Option.bind_eq_bind, Option.bind_eq_some_iff,
        Prod.exists] at h
      obtain ⟨c, k₁, hd, h⟩ := h
      rcases envDestroy_ends hd with ⟨hc, ht⟩ | ⟨rfl, hevs, hf⟩
      · cases c with
        | ret u =>
            obtain ⟨rfl, rfl⟩ := Prod.mk.inj (Option.some.inj h)
            exact .inl ⟨Ctl.ret_ne_yield, ht⟩
        | yield o =>
            obtain ⟨rfl, rfl⟩ := Prod.mk.inj (Option.some.inj h)
            exact .inl ⟨fun hx ↦ hc (by rw [Ctl.yield.inj hx]), ht⟩
      · obtain ⟨rfl, rfl⟩ := Prod.mk.inj (Option.some.inj h)
        exact .inr ⟨rfl, hevs, hf⟩

/-- A call that returns. -/
theorem Ends.of_returned {o : Option (Word × Kern)} {x : Ctl Word}
    (ho : ∀ r k₁, o = some (r, k₁) → Traces evs k.mem.phys k₁.mem.phys)
    (h : returned o = some (x, k')) : Ends B k cur evs x k' := by
  obtain ⟨r, rfl, hr⟩ := returned_eq h
  exact .inl ⟨nofun, ho r k' hr⟩

theorem sysExofork_traces {r : Word} (h : sysExofork B k cur = some (r, k')) :
    Traces (envAllocEvs B k) k.mem.phys k'.mem.phys := by
  simp only [sysExofork, Option.bind_eq_bind, Option.bind_eq_some_iff, Prod.exists] at h
  obtain ⟨r₁, k₁, halloc, h⟩ := h
  have ht := envAlloc_traces halloc
  cases r₁ with
  | error w =>
      obtain ⟨rfl, rfl⟩ := Prod.mk.inj (Option.some.inj h)
      exact ht
  | ok e =>
      obtain ⟨rfl, rfl⟩ := Prod.mk.inj (Option.some.inj h)
      exact ht

theorem mem_sysEnvSetStatus (k : Kern) (cur : Slot) (envid status : Word) :
    (sysEnvSetStatus k cur envid status).2.mem = k.mem := by
  rw [sysEnvSetStatus]
  split
  · rfl
  · split
    · rfl
    · split <;> rfl

theorem mem_sysEnvSetPgfaultUpcall (k : Kern) (cur : Slot) (envid func : Word) :
    (sysEnvSetPgfaultUpcall k cur envid func).2.mem = k.mem := by
  rw [sysEnvSetPgfaultUpcall]
  split <;> rfl

theorem sysIpcRecv_ends {dstva : Word} {x : Ctl Word} (h : sysIpcRecv k cur dstva = (x, k')) :
    Ends B k cur [] x k' := by
  rw [sysIpcRecv] at h
  split at h
  · obtain ⟨rfl, rfl⟩ := Prod.mk.inj h
    exact .quiet Ctl.ret_ne_yield rfl
  · obtain ⟨rfl, rfl⟩ := Prod.mk.inj h
    exact .quiet (Ctl.yield_some_ne cur) rfl

theorem syscall_ends {getc no a1 a2 a3 a4 a5 : Word} {x : Ctl Word}
    (h : syscall B k cur getc no a1 a2 a3 a4 a5 = some (x, k')) :
    Ends B k cur (syscallEvs B k cur no a1 a2 a3 a4 a5) x k' := by
  have quiet : ∀ {y : Ctl Word}, some (y, k) = some (x, k') → y ≠ .yield none →
      Ends B k cur [] x k' := by
    intro y heq hy
    obtain ⟨rfl, rfl⟩ := Prod.mk.inj (Option.some.inj heq)
    exact .quiet hy rfl
  rw [syscall] at h
  rw [syscallEvs]
  cases hno : sysNo no with
  | none =>
      rw [hno] at h
      exact quiet h Ctl.ret_ne_yield
  | some n =>
  rw [hno] at h
  cases n with
  | cputs =>
      simp only [Option.bind_eq_bind, Option.bind_eq_some_iff, Prod.exists] at h
      obtain ⟨c, k₁, hs, h⟩ := h
      rcases sysCputs_ends hs with ⟨hc, ht⟩ | ⟨rfl, hevs, hf⟩
      · cases c with
        | ret u =>
            obtain ⟨rfl, rfl⟩ := Prod.mk.inj (Option.some.inj h)
            exact .inl ⟨Ctl.ret_ne_yield, ht⟩
        | yield o =>
            obtain ⟨rfl, rfl⟩ := Prod.mk.inj (Option.some.inj h)
            exact .inl ⟨fun hx ↦ hc (by rw [Ctl.yield.inj hx]), ht⟩
      · obtain ⟨rfl, rfl⟩ := Prod.mk.inj (Option.some.inj h)
        exact .inr ⟨rfl, hevs, hf⟩
  | envDestroy => exact sysEnvDestroy_ends h
  | cgetc | getenvid => exact quiet h Ctl.ret_ne_yield
  | yield => exact quiet h (Ctl.yield_some_ne cur)
  | pageAlloc => exact .of_returned (fun _ _ ↦ sysPageAlloc_traces) h
  | pageMap => exact .of_returned (fun _ _ ↦ sysPageMap_traces) h
  | pageUnmap => exact .of_returned (fun _ _ ↦ sysPageUnmap_traces) h
  | exofork => exact .of_returned (fun _ _ ↦ sysExofork_traces) h
  | envSetStatus =>
      obtain ⟨r, rfl, hr⟩ := returned_eq h
      refine .quiet Ctl.ret_ne_yield ?_
      rw [← mem_sysEnvSetStatus k cur a1 a2, Option.some.inj hr]
  | envSetPgfaultUpcall =>
      obtain ⟨r, rfl, hr⟩ := returned_eq h
      refine .quiet Ctl.ret_ne_yield ?_
      rw [← mem_sysEnvSetPgfaultUpcall k cur a1 a2, Option.some.inj hr]
  | ipcTrySend => exact .of_returned (fun _ _ ↦ sysIpcTrySend_traces) h
  | ipcRecv => exact sysIpcRecv_ends (Option.some.inj h)

/-! ## Traps -/

theorem storeBytes_traces {va : Word} {bs : List (BitVec 8)}
    (h : storeBytes m d va bs = some m') :
    Traces (storeBytesEvs m d va bs) m.phys m'.phys := by
  induction bs generalizing m va with
  | nil =>
      rw [← Option.some.inj h]
      exact .nil _
  | cons b bs ih =>
      rw [storeBytes, Option.bind_eq_bind, Option.bind_eq_some_iff] at h
      obtain ⟨m₁, hb, h⟩ := h
      rw [storeBytesEvs, hb]
      exact .store (ih h)

theorem envFreeEvs_congr {o : Option Slot} (hmem : k'.mem = k.mem)
    (hpg : ∀ e, (k'.envs e).envPgdir = (k.envs e).envPgdir) :
    envFreeEvs B k' o e = envFreeEvs B k o e := by
  have hflush : flushes k' o = flushes k o := by
    funext d
    cases o with
    | none => rfl
    | some o => simp only [flushes, hpg]
  rw [envFreeEvs, envFreeEvs, hmem, hpg, hflush]

theorem envFreeEvs_setTf (k : Kern) (cur : Slot) (tf : Trapframe) (o : Option Slot) (e : Slot) :
    envFreeEvs B (k.setTf cur tf) o e = envFreeEvs B k o e :=
  envFreeEvs_congr rfl fun e' ↦ (k.keeps_setTf cur tf e').envPgdir

/-- A trap of `cur` with registers `tf`: it destroys `cur` and calls the scheduler, or it leaves the
memory of its trace and loads no root. -/
def Handles (B : Machine) (k : Kern) (cur : Slot) (evs : List Ev) (x : Exit) (k' : Kern) : Prop :=
  x ≠ .yield none ∧ Traces evs k.mem.phys k'.mem.phys ∨
    x = .yield none ∧ evs = envFreeEvs B k (some cur) cur ∧
      ∃ tf, envFree B (k.setTf cur tf) cur = some k'

theorem Handles.quiet {x : Exit} (hx : x ≠ .yield none) : Handles B k cur [] x k :=
  .inl ⟨hx, .nil _⟩

theorem pageFaultHandler_handles {cr2 : Word} {x : Exit}
    (h : pageFaultHandler B k cur cr2 = some (x, k')) :
    Handles B k cur (pageFaultHandlerEvs B k cur cr2) x k' := by
  simp only [pageFaultHandler] at h
  simp only [pageFaultHandlerEvs]
  split at h
  swap
  · next hup =>
      rw [if_neg hup]
      simp only [Option.bind_eq_bind, Option.bind_eq_some_iff, Prod.exists] at h
      obtain ⟨c, k₁, hd, h⟩ := h
      obtain ⟨rfl, rfl⟩ := Prod.mk.inj (Option.some.inj h)
      obtain ⟨rfl, hf⟩ := envDestroy_self hd
      refine .inr ⟨rfl, by simp [envDestroyEvs], (k.envs cur).envTf, ?_⟩
      rwa [k.setTf_self cur]
  next hup =>
  rw [if_pos hup]
  simp only [Option.bind_eq_bind, Option.bind_eq_some_iff, Prod.exists] at h
  obtain ⟨c, k₁, hassert, h⟩ := h
  -- only the stack pointer of `cur` has changed so far
  generalize htf : ({ (k.envs cur).envTf with
    esp := (if UXSTACKTOP - 0x1000 ≤ (k.envs cur).envTf.esp ∧
      (k.envs cur).envTf.esp ≤ UXSTACKTOP then (k.envs cur).envTf.esp - 4 else UXSTACKTOP) -
        52 } : Trapframe) = tf at hassert h ⊢
  change userMemAssert B (k.setTf cur tf) cur _ _ _ = _ at hassert
  rw [show (k.modEnv cur fun env ↦ { env with envTf := tf }) = k.setTf cur tf from rfl, hassert]
  cases c with
  | yield o =>
      obtain ⟨rfl, rfl⟩ := Prod.mk.inj (Option.some.inj h)
      rcases userMemAssert_ends hassert with ⟨ho, ht⟩ | ⟨ho, hevs, hf⟩
      · rw [List.append_nil]
        exact .inl ⟨fun hx ↦ ho (by rw [Exit.yield.inj hx]), ht⟩
      · rw [List.append_nil, hevs, envFreeEvs_setTf]
        exact .inr ⟨by rw [Ctl.yield.inj ho], rfl, tf, hf⟩
  | ret u =>
      simp only [Option.bind_eq_some_iff, Kern.envs_modEnv_self, Kern.mem_modEnv] at h
      obtain ⟨d, hd, m, hstore, h⟩ := h
      obtain ⟨rfl, rfl⟩ := Prod.mk.inj (Option.some.inj h)
      rcases userMemAssert_ends hassert with ⟨-, ht⟩ | ⟨ho, -⟩
      · have hk : k₁ = k.setTf cur tf := by
          rcases userMemAssert_cases hassert with ⟨-, hk⟩ | ⟨ho, -⟩
          · exact hk
          · cases ho
        subst hk
        have hd' : (k.envs cur).envPgdir = some d := by simpa [Kern.setTf] using hd
        simp only [hd']
        exact .inl ⟨Exit.run_ne_yield, ht.append (storeBytes_traces hstore)⟩
      · cases ho

/-- What `trap_dispatch` leaves, and how it ends. -/
theorem trapDispatch_handles {cr2 getc : Word} {x : Exit}
    (h : trapDispatch B k cur cr2 getc = some (x, k')) :
    Handles B k cur (trapDispatchEvs B k cur cr2) x k' := by
  have quiet : ∀ {y : Exit}, some (y, k) = some (x, k') → y ≠ .yield none →
      Handles B k cur [] x k' := by
    intro y heq hy
    obtain ⟨rfl, rfl⟩ := Prod.mk.inj (Option.some.inj heq)
    exact .quiet hy
  rw [trapDispatch] at h
  rw [trapDispatchEvs]
  split at h
  · next hno =>
      rw [if_pos hno]
      exact quiet h Exit.ret_ne_yield
  next hno₁ =>
  rw [if_neg hno₁]
  split at h
  · next hno =>
      rw [if_pos hno]
      exact pageFaultHandler_handles h
  next hno₂ =>
  rw [if_neg hno₂]
  split at h
  · cases h
  next hno₃ =>
  rw [if_neg hno₃]
  split at h
  · next hno =>
      rw [if_pos hno]
      simp only [Option.bind_eq_bind, Option.bind_eq_some_iff, Prod.exists] at h
      obtain ⟨r, k₁, hcall, h⟩ := h
      rcases syscall_ends hcall with ⟨hr, ht⟩ | ⟨rfl, hevs, hf⟩
      · cases r with
        | ret r =>
            obtain ⟨rfl, rfl⟩ := Prod.mk.inj (Option.some.inj h)
            exact .inl ⟨Exit.ret_ne_yield, ht⟩
        | yield o =>
            obtain ⟨rfl, rfl⟩ := Prod.mk.inj (Option.some.inj h)
            exact .inl ⟨fun hx ↦ hr (by rw [Exit.yield.inj hx]), ht⟩
      · obtain ⟨rfl, rfl⟩ := Prod.mk.inj (Option.some.inj h)
        refine .inr ⟨rfl, hevs, (k.envs cur).envTf, ?_⟩
        rwa [k.setTf_self cur]
  next hno₄ =>
  rw [if_neg hno₄]
  split at h
  · next hno =>
      rw [if_pos hno]
      exact quiet h (Exit.yield_some_ne cur)
  · next hno =>
      rw [if_neg hno]
      simp only [Option.bind_eq_bind, Option.bind_eq_some_iff, Prod.exists] at h
      obtain ⟨c, k₁, hd, h⟩ := h
      obtain ⟨rfl, rfl⟩ := Prod.mk.inj (Option.some.inj h)
      obtain ⟨rfl, hf⟩ := envDestroy_self hd
      refine .inr ⟨rfl, by simp [envDestroyEvs], (k.envs cur).envTf, ?_⟩
      rwa [k.setTf_self cur]

/-! ## The scheduler -/

section

variable {s s' mid : Smp} {c : CpuId} {en : Entry}

/-- What the scheduler does to the root: it goes back to what the CPU runs, or loads the directory
of what it takes, or halts with `kern_pgdir`. -/
inductive Loads (B : Machine) (s : Smp) (c : CpuId) (s' : Smp) : List Ev → Prop
  | back {e : Slot} (cur : s.curenv c = some e) (same : s'.cpus c = s.cpus c) : Loads B s c s' []
  | run {e : Slot} (cur : s'.curenv c = some e) : Loads B s c s' [.load (s'.cpus c).cr3]
  | halt (cr3 : (s'.cpus c).cr3 = B.kernPgdir) : Loads B s c s' [.load B.kernPgdir]

theorem envRun_loads (hready : s.curenv c = some e ∨ s.status e = .runnable)
    (h : envRun s c e = some s') : Loads B s c s' (envRunEvs s c e) := by
  by_cases hcur : s.curenv c = some e
  · have hcpus : s'.cpus = s.cpus := by
      simp only [envRun, hcur, ne_eq, not_true_eq_false, if_false, Option.pure_def,
        Option.bind_eq_bind, Option.bind_some, Option.some.injEq] at h
      rw [← h]
      rfl
    rw [envRunEvs, if_neg (not_not.mpr hcur)]
    exact .back hcur (congrFun hcpus c)
  · obtain ⟨hs, hafter, -⟩ := schedules_envRun_other hcur (hready.resolve_left hcur) h
    have hpg : (s.kern.envs e).envPgdir = some (s'.cpus c).cr3 := by
      cases hs.switch with
      | halt idle none same => exact absurd (none.symm.trans hafter).symm (Option.some_ne_none e)
      | stay before after cpu same =>
          obtain rfl := Option.some.inj (after.symm.trans hafter)
          exact absurd before hcur
      | run before after cpu cr3 ready running others =>
          obtain rfl := Option.some.inj (after.symm.trans hafter)
          exact cr3
    rw [envRunEvs, if_pos hcur, hpg]
    exact .run hafter

theorem schedHalt_loads (h : schedHalt B s c = some s') : Loads B s c s' (schedHaltEvs B) := by
  rw [schedHalt] at h
  split at h
  · obtain rfl := Option.some.inj h
    exact .halt (by simp)
  · cases h

section

attribute [local irreducible] schedPick

theorem schedYieldEvs_eq : schedYieldEvs B s c =
    match schedPick s c with
    | some e => envRunEvs s c e
    | none =>
        match s.curenv c with
        | some e => if s.status e = .running then envRunEvs s c e else schedHaltEvs B
        | none => schedHaltEvs B := rfl

theorem schedYield_loads (h : schedYield B s c = some s') :
    Loads B s c s' (schedYieldEvs B s c) := by
  rw [schedYieldEvs_eq]
  cases hpick : schedPick s c with
  | some e =>
      rw [schedYield_of_pick hpick] at h
      exact envRun_loads (.inr (schedPick_runnable hpick)) h
  | none =>
      rw [schedYield_of_none hpick] at h
      cases hcur : s.curenv c with
      | none =>
          simp only [hcur] at h ⊢
          exact schedHalt_loads h
      | some e =>
          simp only [hcur] at h ⊢
          split at h
          · next hrun =>
              rw [if_pos hrun]
              exact envRun_loads (.inl hcur) h
          · next hrun =>
              rw [if_neg hrun]
              exact schedHalt_loads h

end

attribute [local irreducible] schedYield schedYieldEvs

theorem trapTail_loads (h : trapTail B s c = some s') : Loads B s c s' (trapTailEvs B s c) := by
  rw [trapTail] at h
  rw [trapTailEvs]
  cases hcur : s.curenv c with
  | none =>
      simp only [hcur] at h ⊢
      exact schedYield_loads h
  | some e =>
      simp only [hcur] at h ⊢
      split at h
      · next hrun =>
          rw [if_pos hrun]
          exact envRun_loads (.inl hcur) h
      · next hrun =>
          rw [if_neg hrun]
          exact schedYield_loads h

/-! ## Kernel entries -/

/-- What a kernel entry does before it calls the scheduler. -/
def Entry.enterEvs (B : Machine) (s : Smp) : Entry → List Ev
  | .trap c tf cr2 _ =>
      match s.curenv c with
      | none => []
      | some cur =>
          if s.status cur = .dying then envFreeEvs B s.kern (some cur) cur
          else trapDispatchEvs B (s.kern.setTf cur tf) cur cr2
  | .wake _ _ => []
  | .start _ => [.load B.kernPgdir]

/-- A kernel entry leaves the memory and the root of its trace: either it goes back to what the CPU
ran before, and loads no root, or loading one is the last thing that it does.  It has loaded one
before only if it has freed the environment of the CPU. -/
inductive Enters (B : Machine) (s : Smp) (en : Entry) (s' : Smp) : List Ev → Prop
  | back {cur : Slot} (before : s.curenv en.cpu = some cur) (after : s'.curenv en.cpu = some cur)
      (cr3 : (s'.cpus en.cpu).cr3 = (s.cpus en.cpu).cr3)
      (traces : Traces (en.enterEvs B s) s.kern.mem.phys s'.kern.mem.phys) :
      Enters B s en s' (en.enterEvs B s)
  | load (mem : memAfter s.kern.mem.phys (en.enterEvs B s) = s'.kern.mem.phys)
      (idle : s'.curenv en.cpu = none → (s'.cpus en.cpu).cr3 = B.kernPgdir)
      (alive : ∀ e, s.curenv en.cpu = some e → s'.status e ≠ .free →
        ∀ d, TlbEv.load d ∉ en.enterEvs B s) :
      Enters B s en s' (en.enterEvs B s ++ [.load (s'.cpus en.cpu).cr3])

/-- An entry that comes to the scheduler with its environment in place. -/
theorem Enters.of_loads {post : List Ev} {c : CpuId} (h : Loads B mid c s' post) (hc : en.cpu = c)
    (ht : Traces (en.enterEvs B s) s.kern.mem.phys mid.kern.mem.phys)
    (hmem : s'.kern.mem = mid.kern.mem) (hcur : mid.curenv c = s.curenv c)
    (hcr3 : (mid.cpus c).cr3 = (s.cpus c).cr3) :
    Enters B s en s' (en.enterEvs B s ++ post) := by
  subst hc
  rw [← hmem] at ht
  cases h with
  | back cur same =>
      rw [List.append_nil]
      refine .back (hcur.symm.trans cur) ?_ ?_ ht
      · rw [Smp.curenv, same]
        exact cur
      · rw [same, hcr3]
  | run cur =>
      exact .load ht.mem (fun hnone ↦ by cases cur.symm.trans hnone) fun _ _ _ ↦ ht.load
  | halt cr3 =>
      rw [← cr3]
      exact .load ht.mem (fun _ ↦ cr3) fun _ _ _ ↦ ht.load

/-- An entry that comes to the scheduler without an environment, as the one of the CPU is freed. -/
theorem Enters.of_idle {post : List Ev} {c : CpuId} (h : Loads B mid c s' post) (hc : en.cpu = c)
    (hpre : memAfter s.kern.mem.phys (en.enterEvs B s) = mid.kern.mem.phys)
    (hmem : s'.kern.mem = mid.kern.mem) (hcur : mid.curenv c = none)
    (hgone : ∀ e, s.curenv c = some e → s'.status e = .free) :
    Enters B s en s' (en.enterEvs B s ++ post) := by
  subst hc
  rw [← hmem] at hpre
  cases h with
  | back cur same => exact absurd (cur.symm.trans hcur) nofun
  | run cur =>
      exact .load hpre (fun hnone ↦ absurd (cur.symm.trans hnone) (Option.some_ne_none _))
        fun e he hfree ↦ absurd (hgone e he) hfree
  | halt cr3 =>
      rw [← cr3]
      exact .load hpre (fun _ ↦ cr3) fun e he hfree ↦ absurd (hgone e he) hfree

theorem memAfter_load (P : Phys) (d : ℕ) (evs : List Ev) :
    memAfter P (.load d :: evs) = memAfter P evs := rfl

theorem Entry.evs_enters (hidle : (s.cpus en.cpu).cpuStatus = .unused → s.curenv en.cpu = none)
    (h : en.exec B s = some s') : Enters B s en s' (en.evs B s) := by
  cases en with
  | wake c trapno =>
      simp only [Entry.exec] at h
      split at h
      swap
      · cases h
      rw [trapHalted] at h
      simp only [Entry.evs, trapHaltedEvs]
      split at h
      · next hno =>
          rw [if_pos hno]
          exact .of_loads (trapTail_loads h) rfl (.nil _) (scheduled_trapTail h).1.mem
            (by simp [Smp.curenv]) (by simp)
      · next hno =>
          split at h
          swap
          · cases h
          next hno' =>
          rw [if_neg hno, if_pos hno']
          exact .of_loads (schedYield_loads h) rfl (.nil _) (scheduled_schedYield h).1.mem
            (by simp [Smp.curenv]) (by simp)
  | start c =>
      simp only [Entry.exec] at h
      split at h
      swap
      · cases h
      next hunused =>
      rw [Entry.evs, cpuStartEvs]
      have hnone : s.curenv c = none := hidle hunused
      exact .of_idle (schedYield_loads h) rfl rfl (scheduled_schedYield h).1.mem
        (by simpa [Smp.curenv] using hnone) fun _ he ↦ by cases hnone.symm.trans he
  | trap c tf cr2 getc =>
      simp only [Entry.exec] at h
      split at h
      swap
      · cases h
      simp only [trapUser, Option.bind_eq_bind, Option.bind_eq_some_iff] at h
      obtain ⟨cur, hcur, h⟩ := h
      have hcur' : s.curenv c = some cur := by simpa [Smp.curenv] using hcur
      -- a freed environment stays free
      have hgone : ∀ {k₀ k : Kern} {mid : Smp}, envFree B k₀ cur = some k → mid.kern = k →
          Schedules mid c s' → ∀ e, s.curenv c = some e → s'.status e = .free := by
        intro k₀ k mid hf hk hs e he
        obtain rfl := Option.some.inj (hcur'.symm.trans he)
        obtain ⟨-, m, rfl⟩ := envFree_eq hf
        refine (hs.resched.free cur).mpr ?_
        rw [hk, Kern.freed_self]
        rfl
      have hpre : (Entry.trap c tf cr2 getc).enterEvs B s =
          if s.status cur = .dying then envFreeEvs B s.kern (some cur) cur
          else trapDispatchEvs B (s.kern.setTf cur tf) cur cr2 := by
        simp only [Entry.enterEvs, hcur']
      simp only [Entry.evs, trapUserEvs, hcur]
      split at h
      · next hdying =>
          rw [if_pos (show s.status cur = .dying from hdying)] at hpre
          obtain ⟨k, hf, h⟩ := Option.bind_eq_some_iff.mp h
          obtain ⟨evs, hevs, ht⟩ := envFree_self_traces hf
          rw [if_pos hdying, hf]
          simp only [yieldAs] at h
          have hmem : memAfter s.kern.mem.phys ((Entry.trap c tf cr2 getc).enterEvs B s) =
              k.mem.phys := by
            rw [hpre, show envFreeEvs B s.kern (some cur) cur = _ from hevs]
            exact ht.mem
          have hent := Enters.of_idle (schedYield_loads h)
              (show (Entry.trap c tf cr2 getc).cpu = c from rfl) hmem
            (scheduled_schedYield h).1.mem (by simp [Smp.curenv])
            (hgone hf (by simp) (scheduled_schedYield h).1)
          rw [hpre] at hent
          exact hent
      · next hdying =>
          rw [if_neg (show ¬ s.status cur = .dying from hdying)] at hpre
          simp only [Option.bind_eq_some_iff, Prod.exists] at h
          obtain ⟨x, k, hd, h⟩ := h
          rw [if_neg hdying, hd]
          have hand : Handles B (s.kern.setTf cur tf) cur
            ((Entry.trap c tf cr2 getc).enterEvs B s) x k := hpre ▸ trapDispatch_handles hd
          have stays : x ≠ .yield none → Traces ((Entry.trap c tf cr2 getc).enterEvs B s)
              s.kern.mem.phys k.mem.phys := by
            intro hx
            rcases hand with ⟨-, ht⟩ | ⟨hx', -⟩
            · exact ht
            · exact absurd hx' hx
          have back : ∀ post, Enters B s (.trap c tf cr2 getc) s'
              ((Entry.trap c tf cr2 getc).enterEvs B s ++ post) →
              Enters B s (.trap c tf cr2 getc) s'
                (trapDispatchEvs B (s.kern.setTf cur tf) cur cr2 ++ post) :=
            fun post hent ↦ by rwa [hpre] at hent
          cases x with
          | ret =>
              exact back _ (.of_loads (trapTail_loads h) rfl (stays Exit.ret_ne_yield)
                (scheduled_trapTail h).1.mem (by simp [Smp.curenv]) (by simp))
          | run =>
              have hcur₁ : (Smp.setKern (s.modCpu c fun cpu ↦
                  { cpu with cpuStatus := .started }) k).curenv c = some cur := hcur
              exact back _ (.of_loads (envRun_loads (.inl hcur₁) h) rfl (stays Exit.run_ne_yield)
                (schedules_envRun_self hcur₁ h).1.mem (by simp [Smp.curenv]) (by simp))
          | yield o =>
              cases o with
              | some e =>
                  simp only [yieldAs] at h
                  exact back _ (.of_loads (schedYield_loads h) rfl (stays (by simp))
                    (scheduled_schedYield h).1.mem (by simp [Smp.curenv]) (by simp))
              | none =>
                  simp only [yieldAs] at h
                  rcases hand with ⟨hx, -⟩ | ⟨-, hevs, tf', hf⟩
                  · exact absurd rfl hx
                  · refine back _ (.of_idle (schedYield_loads h) rfl ?_
                      (scheduled_schedYield h).1.mem (by simp [Smp.curenv])
                      (hgone hf (by simp) (scheduled_schedYield h).1))
                    obtain ⟨evs, hevs', ht⟩ := envFree_self_traces hf
                    rw [envFreeEvs_setTf] at hevs'
                    rw [hevs, hevs', memAfter_load]
                    exact ht.mem

end

end Jos
