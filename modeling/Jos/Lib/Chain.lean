import Mathlib.Logic.Function.Basic
import Mathlib.Data.List.Nodup

/-!
# Lists threaded through a next-pointer

`Chain next head l` says that following `next` from `head` visits exactly the elements of `l`,
in order, and then stops.  It is the usual representation predicate of an intrusive singly
linked list: the nodes live elsewhere, each holds at most one pointer to its successor, and a
head pointer says where to start.

Because `next` is a function and the chain is finite, a chain never repeats a node
(`Chain.nodup`) and is determined by its head (`Chain.unique`); pushing and popping at the
head are `Chain.push` and `Chain.pop`.
-/

namespace Jos.Lib

universe u

variable {P : Type u}

/-- `Chain next head l`: the pointers `next`, followed from `head`, run through `l`. -/
inductive Chain (next : P → Option P) : Option P → List P → Prop
  | nil : Chain next none []
  | cons {p : P} {l : List P} : Chain next (next p) l → Chain next (some p) (p :: l)

namespace Chain

variable {next next' : P → Option P} {head : Option P} {l l' : List P} {p : P}

theorem eq_nil (h : Chain next none l) : l = [] := by
  cases h
  rfl

/-- A chain whose head points to `p` starts with `p`. -/
theorem pop (h : Chain next (some p) l) : ∃ t, l = p :: t ∧ Chain next (next p) t := by
  cases h with
  | cons ht => exact ⟨_, rfl, ht⟩

theorem head_eq (h : Chain next head l) : head = l.head? := by
  cases h with
  | nil => rfl
  | cons _ => rfl

/-- The head determines the chain. -/
theorem unique (h : Chain next head l) (h' : Chain next head l') : l = l' := by
  induction h generalizing l' with
  | nil => exact h'.eq_nil.symm
  | cons _ ih =>
      obtain ⟨t, rfl, ht⟩ := h'.pop
      rw [ih ht]

/-- A node of a chain starts a chain of its own, no longer than the whole. -/
theorem mem_suffix (h : Chain next head l) (hp : p ∈ l) :
    ∃ t, Chain next (some p) t ∧ t.length ≤ l.length := by
  induction h with
  | nil => exact absurd hp List.not_mem_nil
  | @cons q t ht ih =>
      rcases List.mem_cons.mp hp with rfl | hp
      · exact ⟨_, .cons ht, Nat.le_refl _⟩
      · obtain ⟨r, hr, hle⟩ := ih hp
        exact ⟨r, hr, by simp only [List.length_cons]; omega⟩

/-- A chain is closed under the pointers. -/
theorem next_mem (h : Chain next head l) (hp : p ∈ l) {q : P} (hq : next p = some q) : q ∈ l := by
  induction h with
  | nil => exact absurd hp List.not_mem_nil
  | @cons r t ht ih =>
      rcases List.mem_cons.mp hp with rfl | hp
      · rw [hq] at ht
        obtain ⟨t', rfl, -⟩ := ht.pop
        exact List.mem_cons_of_mem _ List.mem_cons_self
      · exact List.mem_cons_of_mem _ (ih hp)

/-- A finite chain visits no node twice. -/
theorem nodup (h : Chain next head l) : l.Nodup := by
  induction h with
  | nil => exact List.nodup_nil
  | @cons q t ht ih =>
      refine List.nodup_cons.mpr ⟨fun hq ↦ ?_, ih⟩
      -- a second visit of `q` would give a chain from `q` shorter than itself
      obtain ⟨r, hr, hle⟩ := ht.mem_suffix hq
      have := unique hr (.cons ht)
      subst this
      simp only [List.length_cons] at hle
      omega

/-- A chain only depends on the pointers of its own nodes. -/
theorem congr (h : Chain next head l) (heq : ∀ q ∈ l, next' q = next q) :
    Chain next' head l := by
  induction h with
  | nil => exact .nil
  | @cons q t _ ih =>
      refine .cons ?_
      rw [heq q List.mem_cons_self]
      exact ih fun r hr ↦ heq r (List.mem_cons_of_mem _ hr)

/-- Only the last node of a chain points nowhere. -/
theorem next_eq_none_iff (h : Chain next head l) (hp : p ∈ l) :
    next p = none ↔ l.getLast? = some p := by
  induction h with
  | nil => exact absurd hp List.not_mem_nil
  | @cons q t ht ih =>
      have hnd := (Chain.cons ht).nodup
      cases ht' : t with
      | nil =>
          subst ht'
          obtain rfl := List.mem_singleton.mp hp
          simp [ht.head_eq]
      | cons r u =>
          subst ht'
          rw [List.getLast?_cons_cons]
          rcases List.mem_cons.mp hp with rfl | hp
          · rw [ht.head_eq]
            refine iff_of_false (by simp) fun hc ↦ ?_
            exact (List.nodup_cons.mp hnd).1 (List.mem_of_getLast? hc)
          · exact ih hp

/-- Whatever becomes of the pointer of one node, a chain from the same head still gets to it. -/
theorem mem_of_agree (h : Chain next head l) (hp : p ∈ l) (h' : Chain next' head l')
    (heq : ∀ q, q ≠ p → next' q = next q) : p ∈ l' := by
  induction h generalizing l' with
  | nil => exact absurd hp List.not_mem_nil
  | @cons q t ht ih =>
      obtain ⟨t', rfl, ht'⟩ := h'.pop
      by_cases hq : q = p
      · exact hq ▸ List.mem_cons_self
      · have hpt : p ∈ t := (List.mem_cons.mp hp).resolve_left (Ne.symm hq)
        rw [heq q hq] at ht'
        exact List.mem_cons_of_mem _ (ih hpt ht')

variable [DecidableEq P]

/-- Pushing a node that is on the chain already makes a cycle. -/
theorem not_push (h : Chain next head l) (hp : p ∈ l) :
    ¬ Chain (Function.update next p head) (some p) l' := by
  intro h'
  obtain ⟨t, rfl, ht⟩ := h'.pop
  rw [Function.update_self] at ht
  have hpt := h.mem_of_agree hp ht fun q hq ↦ Function.update_of_ne hq _ _
  exact (List.nodup_cons.mp h'.nodup).1 hpt

/-- Rewriting the pointer of a node that is not on the chain leaves the chain alone. -/
theorem update_of_notMem (h : Chain next head l) (hp : p ∉ l) (n : Option P) :
    Chain (Function.update next p n) head l :=
  h.congr fun q hq ↦ Function.update_of_ne (fun e : q = p ↦ hp (e ▸ hq)) _ _

/-- Pushing a fresh node: its pointer becomes the old head, and it becomes the head. -/
theorem push (h : Chain next head l) (hp : p ∉ l) :
    Chain (Function.update next p head) (some p) (p :: l) := by
  refine .cons ?_
  rw [Function.update_self]
  exact h.update_of_notMem hp head

/-- Popping the head and clearing its pointer leaves the tail. -/
theorem unlink (h : Chain next (some p) (p :: l)) (n : Option P) :
    Chain (Function.update next p n) (next p) l := by
  have hp : p ∉ l := (List.nodup_cons.mp h.nodup).1
  obtain ⟨t, ht, hc⟩ := h.pop
  obtain rfl : l = t := (List.cons.inj ht).2
  exact hc.update_of_notMem hp n

end Chain

/-! ## Parts of a chain -/

/-- The pointers, followed from `head`, run through `l` and arrive at `last`. -/
inductive Stretch (next : P → Option P) : Option P → List P → Option P → Prop
  | nil {last : Option P} : Stretch next last [] last
  | cons {p : P} {l : List P} {last : Option P} :
      Stretch next (next p) l last → Stretch next (some p) (p :: l) last

namespace Stretch

variable {next next' : P → Option P} {head mid last : Option P} {l l' : List P} {p : P}

theorem append (h : Stretch next head l mid) (h' : Stretch next mid l' last) :
    Stretch next head (l ++ l') last := by
  induction h with
  | nil => exact h'
  | cons _ ih => exact .cons (ih h')

/-- A stretch goes up to the node whose pointer ends it. -/
theorem snoc (h : Stretch next head l (some p)) : Stretch next head (l ++ [p]) (next p) :=
  h.append (.cons .nil)

/-- A stretch that ends where a chain starts. -/
theorem chain (h : Stretch next head l mid) (h' : Chain next mid l') :
    Chain next head (l ++ l') := by
  induction h with
  | nil => exact h'
  | cons _ ih => exact .cons (ih h')

/-- A stretch only depends on the pointers of its own nodes. -/
theorem congr (h : Stretch next head l last) (heq : ∀ q ∈ l, next' q = next q) :
    Stretch next' head l last := by
  induction h with
  | nil => exact .nil
  | @cons q t _ _ ih =>
      refine .cons ?_
      rw [heq q List.mem_cons_self]
      exact ih fun r hr ↦ heq r (List.mem_cons_of_mem _ hr)

theorem update_of_notMem [DecidableEq P] (h : Stretch next head l last) (hp : p ∉ l)
    (n : Option P) : Stretch (Function.update next p n) head l last :=
  h.congr fun q hq ↦ Function.update_of_ne (fun e : q = p ↦ hp (e ▸ hq)) _ _

end Stretch

end Jos.Lib
