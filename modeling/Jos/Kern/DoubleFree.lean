import Jos.Kern.PageInit

/-!
# Freeing a page twice (`kern/pmap.c`)

`page_free` tells from `pp_link` whether a page is on the free list already.  The last page of the
list points nowhere, like a page that is not on it: freeing that one again is not noticed, and the
list becomes a cycle.
-/

namespace Jos

open Jos.Lib

variable {B : Machine} {m m' m₀ m₁ m₂ : Mem} {l : List ℕ} {p : ℕ}

/-- `p` is the last page of the free list. -/
def Mem.LastFree (m : Mem) (p : ℕ) : Prop := ∃ l, Chain m.link m.pageFreeList (l ++ [p])

/-- Calls of `page_alloc` and `page_free` that return, those of `page_free` with property `G`. -/
inductive AllocRun (B : Machine) (G : Mem → ℕ → Prop) : Mem → Mem → Prop
  | refl (m : Mem) : AllocRun B G m m
  | alloc {m₀ m₁ m₂ : Mem} {allocZero : Bool} {pp : Option ℕ} (run : AllocRun B G m₀ m₁)
      (call : pageAlloc B m₁ allocZero = some (pp, m₂)) : AllocRun B G m₀ m₂
  | free {m₀ m₁ m₂ : Mem} {pp : ℕ} (run : AllocRun B G m₀ m₁) (guard : G m₁ pp)
      (call : pageFree m₁ pp = some m₂) : AllocRun B G m₀ m₂

/-! ## One call -/

theorem pageFree_eq_some (h : pageFree m p = some m') :
    m.ref p = 0 ∧ m.link p = none ∧
      m' = (m.setLink p m.pageFreeList).setFreeList (some p) := by
  rw [pageFree] at h
  split at h
  · cases h
  · next hc =>
      rw [not_or, not_not, not_not] at hc
      exact ⟨hc.1, hc.2, (Option.some.inj h).symm⟩

namespace FreePages

variable (h : FreePages m l)

include h

theorem lastFree_iff : m.LastFree p ↔ l.getLast? = some p := by
  constructor
  · rintro ⟨l', hl'⟩
    rw [h.1.unique hl', List.getLast?_concat]
  · intro hlast
    obtain ⟨l', rfl⟩ := List.getLast?_eq_some_iff.mp hlast
    exact ⟨l', h.1⟩

/-- A second call of `page_free` panics, but for the last page of the list. -/
theorem pageFree_eq_none_iff (hp : p ∈ l) : pageFree m p = none ↔ ¬ m.LastFree p := by
  rw [h.lastFree_iff, ← h.1.next_eq_none_iff hp, pageFree]
  simp [h.2 p hp]

/-- The last page of the list is freed again, and the list has no end. -/
theorem pageFree_last (hlast : m.LastFree p) : ∃ m', pageFree m p = some m' ∧
    ∀ l', ¬ Chain m'.link m'.pageFreeList l' := by
  have hp : p ∈ l := List.mem_of_getLast? (h.lastFree_iff.mp hlast)
  obtain ⟨m', hm'⟩ := Option.ne_none_iff_exists'.mp
    fun hc ↦ (h.pageFree_eq_none_iff hp).mp hc hlast
  refine ⟨m', hm', fun l' ↦ ?_⟩
  obtain ⟨-, -, rfl⟩ := pageFree_eq_some hm'
  rw [Mem.link_setFreeList, Mem.link_setLink]
  exact h.1.not_push hp

theorem pageAlloc {allocZero : Bool} {pp : Option ℕ}
    (hcall : pageAlloc B m allocZero = some (pp, m')) : ∃ l', FreePages m' l' := by
  rw [Jos.pageAlloc] at hcall
  split at hcall
  · obtain ⟨-, rfl⟩ := Prod.mk.inj (Option.some.inj hcall)
    exact ⟨l, h⟩
  · next q hq =>
      -- clearing the page touches neither the list nor the counters
      obtain ⟨m₁, hlink, href, rfl⟩ : ∃ m₁ : Mem, m₁.link = m.link ∧ m₁.ref = m.ref ∧
          m' = (m₁.setFreeList (m₁.link q)).setLink q none := by
        cases allocZero with
        | true =>
            simp only [if_true, Option.bind_eq_bind, Option.bind_eq_some_iff, Option.pure_def,
              Option.map_eq_some_iff, Option.some.injEq, Prod.mk.injEq] at hcall
            obtain ⟨_, ⟨f, -, rfl⟩, -, rfl⟩ := hcall
            exact ⟨m.zero f, rfl, rfl, rfl⟩
        | false => exact ⟨m, rfl, rfl, (Prod.mk.inj (Option.some.inj hcall)).2.symm⟩
      obtain ⟨hchain, hzero⟩ := h
      rw [hq] at hchain
      obtain ⟨t, rfl, -⟩ := hchain.pop
      refine ⟨t, ?_, fun x hx ↦ ?_⟩
      · simpa [hlink] using hchain.unlink none
      · simpa [href] using hzero x (List.mem_cons_of_mem q hx)

theorem pageFree (hcall : pageFree m p = some m') (hlast : ¬ m.LastFree p) :
    ∃ l', FreePages m' l' := by
  obtain ⟨hzero, hnone, rfl⟩ := pageFree_eq_some hcall
  have hp : p ∉ l := by
    intro hp
    rw [h.lastFree_iff, ← h.1.next_eq_none_iff hp] at hlast
    exact hlast hnone
  refine ⟨p :: l, by simpa using h.1.push hp, fun x hx ↦ ?_⟩
  rcases List.mem_cons.mp hx with rfl | hx
  · simpa using hzero
  · simpa using h.2 x hx

end FreePages

/-! ## A run -/

theorem FreePages.run (h : FreePages m₀ l) (run : AllocRun B (fun m p ↦ ¬ m.LastFree p) m₀ m) :
    ∃ l, FreePages m l := by
  induction run with
  | refl => exact ⟨l, h⟩
  | alloc _ call ih =>
      obtain ⟨l₁, h₁⟩ := ih
      exact h₁.pageAlloc call
  | free _ guard call ih =>
      obtain ⟨l₁, h₁⟩ := ih
      exact h₁.pageFree call guard

/-- As long as the last page of the list is never freed again, the list stays without cycles and
duplicates; `page_free` panics for each page on it but the last. -/
theorem double_free_caught_iff {npages npagesBasemem kernel : ℕ} (hb : npagesBasemem ≤ 160)
    (hm : m₀.pageFreeList = none)
    (run : AllocRun B (fun m p ↦ ¬ m.LastFree p) (pageInit npages npagesBasemem kernel m₀) m) :
    ∃ l, Chain m.link m.pageFreeList l ∧ l.Nodup ∧
      ∀ p ∈ l, pageFree m p = none ↔ ¬ m.LastFree p := by
  obtain ⟨-, l₀, h₀, -⟩ := pageInit_free npages kernel hb hm
  obtain ⟨l, h⟩ := h₀.run run
  exact ⟨l, h.1, h.1.nodup, fun p hp ↦ h.pageFree_eq_none_iff hp⟩

theorem double_free_caught_demo : ∃ l, ∃ m : Mem, Chain m.link m.pageFreeList l ∧ l.Nodup ∧
    ∀ p ∈ l, pageFree m p = none ↔ ¬ m.LastFree p := by
  have run : AllocRun ⟨32768, 385, by decide⟩ (fun m p ↦ ¬ m.LastFree p)
      (pageInit 32768 160 449 ⟨fun _ ↦ ⟨none, 0⟩, none, fun _ _ ↦ 0, []⟩) _ := .refl _
  obtain ⟨l, h⟩ := double_free_caught_iff (by decide) rfl run
  exact ⟨l, _, h⟩

/-! ## The last page -/

theorem link_pageInitStores {xs : List (ℕ × Bool)} (hp : ∀ x ∈ xs, x.1 ≠ p) :
    (xs.foldl pageInitStore m).link p = m.link p := by
  induction xs generalizing m with
  | nil => rfl
  | cons x xs ih =>
      have hx : p ≠ x.1 := (hp x List.mem_cons_self).symm
      rw [List.foldl_cons, ih fun y hy ↦ hp y (List.mem_cons_of_mem x hy), pageInitStore]
      split
      · simp [Mem.pushFree, hx]
      · simp

/-- Page 1 is the first to go on the list, and stays the last one on it. -/
theorem lastFree_pageInit {npages npagesBasemem kernel : ℕ} (h2 : 2 ≤ npagesBasemem)
    (hb : npagesBasemem ≤ 160) (hm : m.pageFreeList = none) :
    (pageInit npages npagesBasemem kernel m).LastFree 1 := by
  obtain ⟨-, l, h, hl⟩ := pageInit_free npages kernel hb hm
  have hmem : 1 ∈ l := (hl 1).mpr (.inl ⟨le_rfl, h2, by decide⟩)
  rw [h.lastFree_iff, ← h.1.next_eq_none_iff hmem, pageInit_eq_foldl, pageInitStores]
  obtain ⟨n, rfl⟩ : ∃ n, npagesBasemem = n + 2 := ⟨npagesBasemem - 2, by omega⟩
  rw [show n + 2 - 1 = n + 1 by omega, List.range'_succ, List.map_cons, List.cons_append,
    List.cons_append, List.cons_append, List.cons_append, List.cons_append, List.cons_append,
    List.foldl_cons, List.foldl_cons, link_pageInitStores]
  · simp [pageInitStore, Mem.pushFree, hm, show (1 : ℕ) ≠ pgnum MPENTRY_PADDR by decide]
  · intro x hx
    simp only [List.mem_append, List.mem_map, List.mem_range'_1] at hx
    rcases hx with ((⟨i, hi, rfl⟩ | ⟨i, hi, rfl⟩) | ⟨i, hi, rfl⟩) | ⟨i, hi, rfl⟩ <;>
      dsimp only <;> omega

/-- With 128 MB of memory page 1 can be freed again before any page has been handed out. -/
theorem double_free_missed : ∃ m m' : Mem,
    pageInit 32768 160 449 ⟨fun _ ↦ ⟨none, 0⟩, none, fun _ _ ↦ 0, []⟩ = m ∧ m.IsFree 1 ∧
    pageFree m 1 = some m' ∧ ∀ l, ¬ Chain m'.link m'.pageFreeList l := by
  obtain ⟨-, l, h, hl⟩ := pageInit_free 32768 449 (le_refl 160)
    (m := ⟨fun _ ↦ ⟨none, 0⟩, none, fun _ _ ↦ 0, []⟩) rfl
  obtain ⟨m', hfree, hcycle⟩ := h.pageFree_last (lastFree_pageInit (by decide) (by decide) rfl)
  exact ⟨_, m', rfl, ⟨l, h.1, (hl 1).mpr (.inl ⟨by decide, by decide, by decide⟩)⟩, hfree, hcycle⟩

end Jos
