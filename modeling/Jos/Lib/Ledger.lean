import Jos.Lib.Chain
import Mathlib.Data.Set.Basic
import Mathlib.Data.Set.Insert
import Mathlib.Algebra.Group.Nat.Defs

/-!
# Reference-counted allocation from a free list

An allocator hands out the objects of a *pool* `M`.  Each object has a machine counter
`ref : P → BitVec w`; objects that nobody refers to are threaded on a free list.

`Ledger M next head ref tot loose l` says that this machine state represents an ideal ledger:
`tot p` is the true number of references to `p`, an unbounded number, and `loose` is the set of
objects that have been handed out but not referred to yet.  The counter of `p` is `tot p`
modulo `2 ^ w`, and the free list `l` consists of the objects that are neither referred to nor
loose.

The operations of such an allocator are `Ledger.alloc`, `Ledger.free`, `Ledger.inc`,
`Ledger.dec` and `Ledger.release`.  Only the last one depends on the width of the counter: the
counter reads zero after a decrement exactly when the last reference went away, provided the
true number of references did not exceed `2 ^ w` (`Ledger.ref_sub_one_eq_zero_iff`).
-/

namespace Jos.Lib

universe u

variable {P : Type u} {w : ℕ}

/-- The machine state `next, head, ref` represents the ledger `tot` with the objects of `loose`
handed out, and `l` is the free list. -/
structure Ledger (M : Set P) (next : P → Option P) (head : Option P) (ref : P → BitVec w)
    (tot : P → ℕ) (loose : Set P) (l : List P) : Prop where
  chain : Chain next head l
  mem_iff : ∀ p, p ∈ l ↔ p ∈ M ∧ tot p = 0 ∧ p ∉ loose
  ref_eq : ∀ p ∈ M, ref p = BitVec.ofNat w (tot p)
  next_none : ∀ p ∈ M, p ∉ l → next p = none
  loose_sub : ∀ p ∈ loose, p ∈ M ∧ tot p = 0

namespace Ledger

variable {M : Set P} {next : P → Option P} {head : Option P} {ref : P → BitVec w}
  {tot : P → ℕ} {loose : Set P} {l : List P} {p : P}

theorem notMem_of_pos (h : Ledger M next head ref tot loose l) (hp : 0 < tot p) : p ∉ l :=
  fun hm ↦ absurd ((h.mem_iff p).mp hm).2.1 (Nat.pos_iff_ne_zero.mp hp)

theorem notMem_of_loose (h : Ledger M next head ref tot loose l) (hp : p ∈ loose) : p ∉ l :=
  fun hm ↦ ((h.mem_iff p).mp hm).2.2 hp

/-- An object of the pool that is off the free list is referred to or loose. -/
theorem pos_or_loose (h : Ledger M next head ref tot loose l) (hM : p ∈ M) (hp : p ∉ l) :
    0 < tot p ∨ p ∈ loose := by
  by_contra hc
  rw [not_or] at hc
  exact hp ((h.mem_iff p).mpr ⟨hM, by omega, hc.2⟩)

/-- After a decrement the counter reads zero exactly when the last reference went away, as long
as there were no more than `2 ^ w` of them. -/
theorem ref_sub_one_eq_zero_iff (h : Ledger M next head ref tot loose l) (hM : p ∈ M)
    (hpos : 0 < tot p) (hle : tot p ≤ 2 ^ w) : ref p - 1 = 0 ↔ tot p = 1 := by
  have hsub : ref p - 1 = BitVec.ofNat w (tot p - 1) := by
    rw [h.ref_eq p hM]
    obtain ⟨n, hn⟩ := Nat.exists_eq_add_of_lt hpos
    rw [show tot p = n + 1 by omega, Nat.add_sub_cancel, BitVec.ofNat_add]
    exact BitVec.add_sub_cancel _ _
  rw [hsub]
  constructor
  · intro hz
    have hm : (tot p - 1) % 2 ^ w = 0 := by
      simpa using congrArg BitVec.toNat hz
    rw [Nat.mod_eq_of_lt (by omega)] at hm
    omega
  · intro h1
    simp [h1]

variable [DecidableEq P]

/-- The machine state cannot tell `2 ^ w` references more. -/
theorem wrap (h : Ledger M next head ref tot loose l) {n : ℕ} (hn : 0 < n)
    (hp : tot p = n + 2 ^ w) : Ledger M next head ref (Function.update tot p n) loose l := by
  have hpos : 0 < tot p := hp ▸ Nat.add_pos_left hn _
  have hloose : p ∉ loose := fun hm ↦ absurd (h.loose_sub p hm).2 hpos.ne'
  refine ⟨h.chain, fun q ↦ ?_, fun q hq ↦ ?_, h.next_none, fun q hq ↦ ?_⟩
  · by_cases e : q = p
    · subst e
      simp [h.notMem_of_pos hpos, hn.ne']
    · simpa [e] using h.mem_iff q
  · by_cases e : q = p
    · subst e
      rw [Function.update_self, h.ref_eq q hq, hp]
      apply BitVec.eq_of_toNat_eq
      simp
    · rw [Function.update_of_ne e]
      exact h.ref_eq q hq
  · have e : q ≠ p := fun e ↦ hloose (e ▸ hq)
    rw [Function.update_of_ne e]
    exact h.loose_sub q hq

/-- Taking the head of the free list hands the object out. -/
theorem alloc (h : Ledger M next (some p) ref tot loose l) :
    ∃ t, l = p :: t ∧
      Ledger M (Function.update next p none) (next p) ref tot (insert p loose) t := by
  obtain ⟨t, rfl, _⟩ := h.chain.pop
  have hnd := List.nodup_cons.mp h.chain.nodup
  have hp := (h.mem_iff p).mp List.mem_cons_self
  refine ⟨t, rfl, h.chain.unlink none, fun q ↦ ?_, h.ref_eq, fun q hq hqt ↦ ?_, fun q hq ↦ ?_⟩
  · have hq := h.mem_iff q
    by_cases e : q = p
    · subst e
      simp [hnd.1]
    · simpa [e] using hq
  · by_cases e : q = p
    · subst e
      exact Function.update_self ..
    · rw [Function.update_of_ne e]
      exact h.next_none q hq (by simp [e, hqt])
  · rcases hq with rfl | hq
    · exact ⟨hp.1, hp.2.1⟩
    · exact h.loose_sub q hq

/-- Putting a loose object back on the free list. -/
theorem free (h : Ledger M next head ref tot loose l) (hp : p ∈ loose) :
    Ledger M (Function.update next p head) (some p) ref tot (loose \ {p}) (p :: l) := by
  have hpl := h.notMem_of_loose hp
  refine ⟨h.chain.push hpl, fun q ↦ ?_, h.ref_eq, fun q hq hql ↦ ?_,
    fun q hq ↦ h.loose_sub q hq.1⟩
  · by_cases e : q = p
    · subst e
      simp [h.loose_sub q hp]
    · simpa [e] using h.mem_iff q
  · rw [Function.update_of_ne (fun e ↦ hql (by simp [e]))]
    exact h.next_none q hq fun hm ↦ hql (List.mem_cons_of_mem _ hm)

/-- A new reference to an object that is off the free list. -/
theorem inc (h : Ledger M next head ref tot loose l) (hM : p ∈ M) (hp : p ∉ l) :
    Ledger M next head (Function.update ref p (ref p + 1)) (Function.update tot p (tot p + 1))
      (loose \ {p}) l := by
  refine ⟨h.chain, fun q ↦ ?_, fun q hq ↦ ?_, h.next_none, fun q hq ↦ ?_⟩
  · by_cases e : q = p
    · subst e
      simp [hp]
    · simpa [e] using h.mem_iff q
  · by_cases e : q = p
    · subst e
      rw [Function.update_self, Function.update_self, h.ref_eq q hM, BitVec.ofNat_add]
      rfl
    · rw [Function.update_of_ne e, Function.update_of_ne e]
      exact h.ref_eq q hq
  · rw [Function.update_of_ne (fun e ↦ hq.2 (by simp [e]))]
    exact h.loose_sub q hq.1

/-- Dropping a reference that is not the last one. -/
theorem dec (h : Ledger M next head ref tot loose l) (hM : p ∈ M) (hp : 1 < tot p) :
    Ledger M next head (Function.update ref p (ref p - 1)) (Function.update tot p (tot p - 1))
      loose l := by
  refine ⟨h.chain, fun q ↦ ?_, fun q hq ↦ ?_, h.next_none, fun q hq ↦ ?_⟩
  · by_cases e : q = p
    · subst e
      have hq : q ∉ l := h.notMem_of_pos (by omega)
      simp only [hq, Function.update_self, false_iff, not_and]
      omega
    · simpa [e] using h.mem_iff q
  · by_cases e : q = p
    · subst e
      rw [Function.update_self, Function.update_self, h.ref_eq q hM]
      obtain ⟨n, hn⟩ := Nat.exists_eq_add_of_lt hp
      rw [show tot q = (n + 1) + 1 by omega, Nat.add_sub_cancel, BitVec.ofNat_add (n + 1) 1]
      exact BitVec.add_sub_cancel _ _
    · rw [Function.update_of_ne e, Function.update_of_ne e]
      exact h.ref_eq q hq
  · have hz := h.loose_sub q hq
    have e : q ≠ p := fun e ↦ by subst e; omega
    rw [Function.update_of_ne e]
    exact hz

/-- Dropping the last reference and putting the object on the free list. -/
theorem release (h : Ledger M next head ref tot loose l) (hM : p ∈ M) (hp : tot p = 1) :
    Ledger M (Function.update next p head) (some p) (Function.update ref p (ref p - 1))
      (Function.update tot p 0) loose (p :: l) := by
  have hpl : p ∉ l := h.notMem_of_pos (by omega)
  have hpo : p ∉ loose := fun hm ↦ by
    have := (h.loose_sub p hm).2
    omega
  refine ⟨h.chain.push hpl, fun q ↦ ?_, fun q hq ↦ ?_, fun q hq hql ↦ ?_, fun q hq ↦ ?_⟩
  · by_cases e : q = p
    · subst e
      simp [hM, hpo]
    · simpa [e] using h.mem_iff q
  · by_cases e : q = p
    · subst e
      rw [Function.update_self, Function.update_self, h.ref_eq q hM, hp]
      exact BitVec.sub_self _
    · rw [Function.update_of_ne e, Function.update_of_ne e]
      exact h.ref_eq q hq
  · rw [Function.update_of_ne (fun e ↦ hql (by simp [e]))]
    exact h.next_none q hq fun hm ↦ hql (List.mem_cons_of_mem _ hm)
  · have e : q ≠ p := fun e ↦ hpo (e ▸ hq)
    rw [Function.update_of_ne e]
    exact h.loose_sub q hq

end Ledger

end Jos.Lib
