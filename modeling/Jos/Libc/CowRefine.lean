import Jos.Libc.CowFork
import Jos.Libc.ForkImage

/-!
# Copy-on-write refines eager copying

As long as no page has more than 65535 references, every read gets what it gets on the machine that
copies eagerly.  With more references the counter of a page wraps around, and a page that is still
mapped is handed out again.
-/

namespace Jos

open Jos.Lib

variable {B : Machine} {M : Pool B} {k k' : Kern} {l : List ℕ} {el : List Slot} {e : Slot}
  {entry : Word} {s s' : Cow} {A : Image}

/-- The relation between the system and the machine. -/
def Refined (B : Machine) (M : Pool B) (s : Cow) (A : Image) : Prop :=
  CowRel B M (Moving s.stage) s A

namespace Refined

variable (h : Refined B M s A)

include h

end Refined

/-- At the start every environment sees its own memory. -/
theorem Refined.start (inv : RunInv B M k l el) (once : k.WritableOnce) :
    Refined B M ⟨k, fun _ ↦ none⟩ k.image where
  run := ⟨l, el, inv⟩
  apart := once.mono fun _ _ hc ↦ hc.elim
  live _ _ hpc := by cases hpc
  ok _ _ hpc := by cases hpc
  shows _ _ _ hc := hc

/-- The hardware lets the user read a page with `PTE_U`, if the directory entry is open. -/
theorem Kern.readable {d p : ℕ} {f va : Word} (hd : k.dirs e = some d)
    (hopen : OpenPde (k.mem.phys d (pdx va))) (hp : k.space e (pgnum va) = some (p, f))
    (hU : isSet f PTE_U) :
    k.mem.UserReadable d va ∧ k.mem.loadByte d va = some (k.mem.byte p (va.toNat % 4096)) := by
  obtain ⟨pde, pte, hw, rfl, rfl⟩ := Kern.walk_of_space hd hp
  obtain ⟨⟨rfl, hP⟩, -⟩ := Mem.walk_eq_some.mp hw
  refine ⟨⟨_, pte, hw, (hopen hP).1, isSet_flags_U.mp hU⟩, ?_⟩
  rw [Mem.loadByte_eq, hw]
  rfl

end Jos
