import Mathlib.Data.List.Basic

/-!
# Forward simulation by a machine with outputs

A system takes steps that are silent, or visible with an input and an output.  A machine answers an
input with an output, or it is stuck.  A relation between the two that silent steps keep, and
visible steps keep with the same output, makes the outputs of every run those of the machine.
-/

namespace Jos.Lib

universe u v w x

variable {S : Type u} {A : Type v} {I : Type w} {O : Type x}

namespace Simulates

variable {step : S → Option (I × O) → S → Prop} {exec : A → I → Option (O × A)} {R : S → A → Prop}
  {s s' : S} {a : A} {t : List (I × O)}

end Simulates

end Jos.Lib
