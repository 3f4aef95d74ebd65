import Mathlib.Data.List.Infix

/-!
# Reading a code with a machine

A machine reads letters one at a time and writes letters as it goes.  The letters come in blocks,
one block for each event.  If the machine reads each block as the event, then it reads every
sequence of blocks as the sequence of events, wherever the sequence is cut.
-/

namespace Jos.Lib

universe u v w x y

variable {S : Type u} {B : Type v} {O : Type w} {A : Type x} {E : Type y}

/-- The state after some letters, and what the machine wrote. -/
def transduce (step : S → B → S × List O) : S → List B → S × List O
  | s, [] => (s, [])
  | s, b :: bs =>
      let (s, o) := step s b
      let (s, os) := transduce step s bs
      (s, o ++ os)

@[simp] theorem transduce_nil (step : S → B → S × List O) (s : S) :
    transduce step s [] = (s, []) := rfl

@[simp] theorem transduce_cons (step : S → B → S × List O) (s : S) (b : B) (bs : List B) :
    transduce step s (b :: bs) = ((transduce step (step s b).1 bs).1,
      (step s b).2 ++ (transduce step (step s b).1 bs).2) := rfl

theorem transduce_append (step : S → B → S × List O) (s : S) (bs cs : List B) :
    transduce step s (bs ++ cs) = ((transduce step (transduce step s bs).1 cs).1,
      (transduce step s bs).2 ++ (transduce step (transduce step s bs).1 cs).2) := by
  induction bs generalizing s with
  | nil => simp
  | cons b bs ih => simp [ih]

/-- What was written so far is never taken back. -/
theorem transduce_prefix {bs cs : List B} (h : bs <+: cs) (step : S → B → S × List O) (s : S) :
    (transduce step s bs).2 <+: (transduce step s cs).2 := by
  obtain ⟨ds, rfl⟩ := h
  rw [transduce_append]
  exact List.prefix_append _ _

/-- What a sequence of events means, if `out` is what one event means after those in a history,
latest first. -/
def meaning (out : List E → E → List O) : List E → List E → List O
  | _, [] => []
  | past, e :: es => out past e ++ meaning out (e :: past) es

theorem meaning_append (out : List E → E → List O) (past es fs : List E) :
    meaning out past (es ++ fs) =
      meaning out past es ++ meaning out (es.reverse ++ past) fs := by
  induction es generalizing past with
  | nil => rfl
  | cons e es ih => simp [meaning, ih]

/-- The machine reads the block of each event as the event, and its state `s` after the history
`past` satisfies `R s past`. -/
def Reads (step : S → B → S × List O) (code : E → List B) (out : List E → E → List O)
    (R : S → List E → Prop) : Prop :=
  ∀ ⦃s past⦄, R s past → ∀ e, (transduce step s (code e)).2 = out past e ∧
    R (transduce step s (code e)).1 (e :: past)

namespace Reads

variable {step : S → B → S × List O} {code : E → List B} {out : List E → E → List O}
  {R : S → List E → Prop} {s : S} {past : List E}

/-- It reads sequences of blocks. -/
theorem run (h : Reads step code out R) (hR : R s past) (es : List E) :
    (transduce step s (es.flatMap code)).2 = meaning out past es ∧
      R (transduce step s (es.flatMap code)).1 (es.reverse ++ past) := by
  induction es generalizing s past with
  | nil => exact ⟨rfl, hR⟩
  | cons e es ih =>
      obtain ⟨hout, hnext⟩ := h hR e
      obtain ⟨houts, hlast⟩ := ih hnext
      rw [List.flatMap_cons, transduce_append]
      refine ⟨by rw [hout, houts, meaning], ?_⟩
      rwa [List.reverse_cons, List.append_assoc]

/-- Of a sequence that is cut anywhere, it writes a prefix. -/
theorem prefix_of_cut (h : Reads step code out R) (hR : R s past) {bs : List B} {es : List E}
    (hcut : bs <+: es.flatMap code) : (transduce step s bs).2 <+: meaning out past es := by
  rw [← (h.run hR es).1]
  exact transduce_prefix hcut step s

end Reads

end Jos.Lib
