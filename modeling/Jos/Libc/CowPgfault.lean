import Jos.Libc.CowSpec
import Jos.Kern.BootAlloc

/-!
# The steps of `pgfault`
-/

namespace Jos

open Jos.Lib

variable {B : Machine} {M : Pool B} {k k' : Kern} {l l' : List ℕ} {el : List Slot} {e cur : Slot}
  {v d : ℕ} {stage stage' : Slot → Option PgfaultPc} {A A' : Image}
  {X X' : UserPage → UserPage → Prop} {va addr : Word} {pc pc' : PgfaultPc}

/-- Nobody has a free page. -/
theorem Inv.page_ne_free (h : Inv B M k l el) {p : ℕ} (hp : p ∈ l) (y : UserPage) :
    k.sharing.page y ≠ some p := by
  intro hy
  obtain ⟨f, hf⟩ := Kern.sharing_page.mp hy
  exact (h.mapped hf).2.1 hp

/-! ## Where the environment is -/

theorem Moving.update {x y : UserPage} (h : Moving stage x y) (hne : stage e ≠ some .unmap)
    (o : Option PgfaultPc) : Moving (Function.update stage e o) x y := by
  refine ⟨?_, h.2⟩
  rw [Function.update_of_ne]
  · exact h.1
  · rintro rfl
    exact hne h.1

namespace CowRel

variable (h : CowRel B M (Moving stage) ⟨k, stage⟩ A)

include h

end CowRel

end Jos
