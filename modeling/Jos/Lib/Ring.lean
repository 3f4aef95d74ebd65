import Mathlib.Logic.Function.Basic
import Mathlib.Data.List.Basic
import Mathlib.Data.List.Range
import Mathlib.Data.Nat.ModEq

/-!
# Ring buffers

A ring buffer of `n` cells holds a queue of at most `n - 1` elements.  `Ring.contents` is that
queue: `put` appends to it, as long as there is room, and `take` takes its first element.
-/

namespace Jos.Lib

universe u

variable {α : Type u} {n : ℕ}

/-- The next element to take is in cell `rpos`, and the next one that is put goes to cell `wpos`. -/
structure Ring (α : Type u) (n : ℕ) where
  buf : Fin n → α
  rpos : Fin n
  wpos : Fin n

namespace Ring

/-- The cell after `i`. -/
def next (i : Fin n) : Fin n :=
  if h : i.val + 1 = n then ⟨0, by omega⟩ else ⟨i.val + 1, by omega⟩

theorem cell_lt (start : Fin n) (i : ℕ) : (start.val + i) % n < n :=
  Nat.mod_lt _ (Nat.zero_lt_of_lt start.isLt)

/-- The cell `i` places after `start`. -/
def cell (start : Fin n) (i : ℕ) : Fin n := ⟨(start.val + i) % n, cell_lt start i⟩

def put (r : Ring α n) (a : α) : Ring α n :=
  { r with buf := Function.update r.buf r.wpos a, wpos := next r.wpos }

def take (r : Ring α n) : Option (α × Ring α n) :=
  if r.rpos = r.wpos then none else some (r.buf r.rpos, { r with rpos := next r.rpos })

/-- The number of elements. -/
def size (r : Ring α n) : ℕ := (r.wpos.val + n - r.rpos.val) % n

/-- The elements, in the order in which they were put. -/
def contents (r : Ring α n) : List α := (List.range r.size).map fun i ↦ r.buf (cell r.rpos i)

variable {r r' : Ring α n} {a : α}

@[simp] theorem length_contents (r : Ring α n) : r.contents.length = r.size := by
  simp [contents]

theorem next_val (i : Fin n) : (next i).val = (i.val + 1) % n := by
  rw [next]
  split
  · next h => simp [h]
  · next h => exact (Nat.mod_eq_of_lt (by omega)).symm

theorem size_cases (r : Ring α n) :
    r.rpos.val ≤ r.wpos.val ∧ r.size = r.wpos.val - r.rpos.val ∨
      r.wpos.val < r.rpos.val ∧ r.size = r.wpos.val + n - r.rpos.val := by
  have hr := r.rpos.isLt
  have hw := r.wpos.isLt
  rcases Nat.lt_or_ge r.wpos.val r.rpos.val with h | h
  · exact .inr ⟨h, Nat.mod_eq_of_lt (by omega)⟩
  · refine .inl ⟨h, ?_⟩
    rw [size, show r.wpos.val + n - r.rpos.val = r.wpos.val - r.rpos.val + n by omega,
      Nat.add_mod_right, Nat.mod_eq_of_lt (by omega)]

/-- The cell after the last element. -/
theorem cell_size (r : Ring α n) : cell r.rpos r.size = r.wpos := by
  have hr := r.rpos.isLt
  have hw := r.wpos.isLt
  refine Fin.ext ?_
  show (r.rpos.val + r.size) % n = r.wpos.val
  rcases r.size_cases with ⟨hle, hs⟩ | ⟨hlt, hs⟩
  · rw [hs, Nat.add_sub_cancel' hle, Nat.mod_eq_of_lt hw]
  · rw [hs, show r.rpos.val + (r.wpos.val + n - r.rpos.val) = r.wpos.val + n by omega,
      Nat.add_mod_right, Nat.mod_eq_of_lt hw]

/-- The cells of a round are different. -/
theorem cell_inj {start : Fin n} {i j : ℕ} (hi : i < n) (hj : j < n)
    (h : cell start i = cell start j) : i = j := by
  have hmod : (start.val + i) % n = (start.val + j) % n := congrArg Fin.val h
  exact Nat.ModEq.eq_of_lt_of_lt (Nat.ModEq.add_left_cancel' start.val hmod) hi hj

theorem size_put (h : r.size + 1 < n) : (r.put a).size = r.size + 1 := by
  have hr := r.rpos.isLt
  have hw := r.wpos.isLt
  have hnext : (r.put a).wpos.val = (r.wpos.val + 1) % n := next_val r.wpos
  have hrpos : (r.put a).rpos = r.rpos := rfl
  rcases (r.put a).size_cases with ⟨hle, hs⟩ | ⟨hlt, hs⟩ <;>
    rcases r.size_cases with ⟨hle', hs'⟩ | ⟨hlt', hs'⟩ <;>
    rcases Nat.lt_or_ge (r.wpos.val + 1) n with hn | hn
  all_goals
    first
    | rw [Nat.mod_eq_of_lt hn] at hnext
    | rw [show r.wpos.val + 1 = n by omega, Nat.mod_self] at hnext
    rw [hrpos] at *
    omega

/-- An element that is put is the last one. -/
theorem contents_put (h : r.size + 1 < n) : (r.put a).contents = r.contents ++ [a] := by
  have hsize : r.size < n := Nat.lt_of_succ_lt h
  rw [contents, size_put h, List.range_succ, List.map_append, contents]
  congr 1
  · refine List.map_congr_left fun i hi ↦ ?_
    have hi' : i < r.size := List.mem_range.mp hi
    refine Function.update_of_ne (fun hc ↦ ?_) _ _
    have hcell : cell r.rpos i = cell r.rpos r.size := hc.trans r.cell_size.symm
    exact hi'.ne (cell_inj (hi'.trans hsize) hsize hcell)
  · rw [List.map_singleton]
    congr 1
    show Function.update r.buf r.wpos a (cell r.rpos r.size) = a
    rw [r.cell_size, Function.update_self]

theorem take_eq_none : r.take = none ↔ r.contents = [] := by
  rw [← List.length_eq_zero_iff, length_contents, take]
  have hr := r.rpos.isLt
  have hw := r.wpos.isLt
  rcases r.size_cases with ⟨hle, hs⟩ | ⟨hlt, hs⟩ <;> rw [hs] <;> simp [Fin.ext_iff] <;> omega

/-- What is taken is the first element. -/
theorem contents_take (h : r.take = some (a, r')) : r.contents = a :: r'.contents := by
  rw [take] at h
  split at h
  · cases h
  next hne =>
  obtain ⟨rfl, rfl⟩ := Prod.mk.inj (Option.some.inj h)
  have hr := r.rpos.isLt
  have hw := r.wpos.isLt
  have hne' : r.rpos.val ≠ r.wpos.val := fun hc ↦ hne (Fin.ext hc)
  have hnext := next_val r.rpos
  have hsize : r.size = ({ r with rpos := next r.rpos } : Ring α n).size + 1 := by
    rcases r.size_cases with ⟨hle, hs⟩ | ⟨hlt, hs⟩ <;>
      rcases ({ r with rpos := next r.rpos } : Ring α n).size_cases with
        ⟨hle', hs'⟩ | ⟨hlt', hs'⟩ <;>
      rcases Nat.lt_or_ge (r.rpos.val + 1) n with hn | hn
    all_goals
      first
      | rw [Nat.mod_eq_of_lt hn] at hnext
      | rw [show r.rpos.val + 1 = n by omega, Nat.mod_self] at hnext
      simp only at *
      omega
  rw [contents, hsize, List.range_succ_eq_map, List.map_cons, List.map_map, contents]
  congr 1
  · congr 1
    exact Fin.ext (Nat.mod_eq_of_lt hr)
  · refine List.map_congr_left fun i _ ↦ ?_
    refine congrArg r.buf (Fin.ext ?_)
    show (r.rpos.val + (i + 1)) % n = ((next r.rpos).val + i) % n
    rw [hnext, Nat.mod_add_mod, Nat.add_assoc, Nat.add_comm 1 i]

end Ring

end Jos.Lib
