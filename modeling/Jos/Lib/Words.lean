import Mathlib.Data.List.TakeWhile
import Mathlib.Data.Nat.Notation

/-!
# The words of a list

The words of a list are its maximal runs of elements that are no separators.
-/

namespace Jos.Lib

universe u

variable {α : Type u} {p : α → Bool} {c : α} {cs w : List α}

/-- The words between the separators `p`. -/
def words (p : α → Bool) (cs : List α) : List (List α) :=
  (cs.splitOnP p).filter fun w ↦ !w.isEmpty

@[simp] theorem words_nil : words p [] = [] := rfl

theorem words_cons_of_sep (h : p c = true) : words p (c :: cs) = words p cs := by
  rw [words, List.splitOnP_cons_eq_if_modifyHead, if_pos h, List.filter_cons_of_neg (by simp)]
  rfl

/-- The separators in front do not matter. -/
theorem words_dropWhile (cs : List α) : words p (cs.dropWhile p) = words p cs := by
  induction cs with
  | nil => rfl
  | cons c cs ih =>
      rw [List.dropWhile_cons]
      by_cases hc : p c = true
      · rw [if_pos hc, ih, words_cons_of_sep hc]
      · rw [if_neg hc]

/-- A word goes on to the next separator. -/
theorem splitOnP_append (hw : ∀ x ∈ w, p x = false) :
    (w ++ cs).splitOnP p = (cs.splitOnP p).modifyHead (w ++ ·) := by
  induction w with
  | nil =>
      cases hs : cs.splitOnP p with
      | nil => rw [List.nil_append, hs]; rfl
      | cons x xs => rw [List.nil_append, hs]; rfl
  | cons x w ih =>
      obtain ⟨hx, hw⟩ := List.forall_mem_cons.mp hw
      rw [List.cons_append, List.splitOnP_cons_eq_if_modifyHead, if_neg (by simp [hx]), ih hw,
        List.modifyHead_modifyHead]
      rfl

theorem words_append (hne : w ≠ []) (hw : ∀ x ∈ w, p x = false)
    (hcs : ∀ x ∈ cs.head?, p x = true) : words p (w ++ cs) = w :: words p cs := by
  have hkeep : ∀ ws : List (List α), (w :: ws).filter (fun w ↦ !w.isEmpty) =
      w :: ws.filter fun w ↦ !w.isEmpty := fun ws ↦ List.filter_cons_of_pos (by simpa using hne)
  rw [words, splitOnP_append hw]
  cases cs with
  | nil =>
      rw [List.splitOnP_nil, List.modifyHead_cons, List.append_nil, hkeep]
      rfl
  | cons c cs =>
      have hc : p c = true := hcs c rfl
      rw [List.splitOnP_cons_eq_if_modifyHead, if_pos hc, List.modifyHead_cons, List.append_nil,
        hkeep, words_cons_of_sep hc, words]

/-- The first word, if the list starts with one. -/
theorem words_of_head (h : p c = false) : words p (c :: cs) =
    (c :: cs).takeWhile (fun x ↦ !p x) :: words p ((c :: cs).dropWhile fun x ↦ !p x) := by
  have hne : (c :: cs).takeWhile (fun x ↦ !p x) ≠ [] := by
    rw [List.takeWhile_cons_of_pos (by simp [h])]
    exact List.cons_ne_nil _ _
  have hsep : ∀ x ∈ ((c :: cs).dropWhile fun x ↦ !p x).head?, p x = true := fun x hx ↦ by
    have hx' := List.head?_dropWhile_not (fun x ↦ !p x) (c :: cs)
    rw [Option.mem_def.mp hx] at hx'
    simpa using hx'
  have happend := words_append hne (fun x hx ↦ by simpa using List.mem_takeWhile_imp hx) hsep
  rwa [List.takeWhile_append_dropWhile] at happend

theorem ne_nil_of_mem_words (hw : w ∈ words p cs) : w ≠ [] := by
  simpa using (List.mem_filter.mp hw).2

theorem length_le_of_mem_words (hw : w ∈ words p cs) : w.length ≤ cs.length := by
  induction hn : cs.length using Nat.strong_induction_on generalizing cs with
  | h n ih =>
      subst hn
      cases cs with
      | nil => cases hw
      | cons c cs =>
          by_cases hc : p c = true
          · rw [words_cons_of_sep hc] at hw
            exact (ih _ (Nat.lt_succ_self _) hw rfl).trans (Nat.le_succ _)
          · have hc' : p c = false := by simpa using hc
            have hdrop := (List.dropWhile_suffix (l := cs) fun x ↦ !p x).length_le
            rw [words_of_head hc', List.mem_cons] at hw
            rcases hw with rfl | hw
            · exact (List.takeWhile_prefix _).length_le
            · rw [List.dropWhile_cons_of_pos (by simp [hc'])] at hw
              exact (ih _ (Nat.lt_succ_of_le hdrop) hw rfl).trans (hdrop.trans (Nat.le_succ _))

end Jos.Lib
