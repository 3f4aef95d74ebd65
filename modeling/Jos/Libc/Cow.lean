import Jos.Libc.Fork
import Jos.Lib.Sharing
import Jos.Lib.Simulation

/-!
# Copy-on-write (`lib/fork.c`), and the machine that copies eagerly

Any number of environments read and write their pages below `USTACKTOP`, allocate and unmap pages,
fork, and take write faults, which `pgfault` of `lib/fork.c` handles in several steps.  The machine
that they are compared with has a memory for each environment, and its `fork` copies the memory of
the parent.  The steps of all environments are interleaved, except that a `fork` is one step.
-/

namespace Jos

open Jos.Lib

/-! ## `pgfault` -/

/-- Where `pgfault` is. -/
inductive PgfaultPc where
  | check (addr err : Word)
  | alloc (addr : Word)
  /-- in `memcpy`, at byte `i` -/
  | copy (addr : Word) (i : ℕ)
  | map (addr : Word)
  | unmap
  | done
  | panic

/-- Where the environment is after a step of `pgfault`; `none` is the program itself. -/
def PgfaultPc.rest : PgfaultPc → Option PgfaultPc
  | .done => none
  | pc => some pc

/-! ## The machine that copies eagerly -/

/-- What a page holds. -/
abbrev Contents := Fin 4096 → BitVec 8

/-- An environment and a page number. -/
abbrev UserPage := Slot × ℕ

/-- The memories of all environments. -/
abbrev Image := UserPage → Option Contents

/-- Where an address is in its page. -/
def offset (va : Word) : Fin 4096 := ⟨va.toNat % 4096, Nat.mod_lt _ (by decide)⟩

/-- What programs do. -/
inductive Op where
  | read (e : Slot) (va : Word)
  | write (e : Slot) (va : Word) (b : BitVec 8)
  | alloc (e : Slot) (va : Word)
  | unmap (e : Slot) (va : Word)
  | fork (e child : Slot)

namespace Image

/-- The memory of `child` is a copy of what `e` has in the pages below `n`. -/
def copyBelow (A : Image) (e child : Slot) (n : ℕ) : Image := fun x ↦
  if x.1 = child then if x.2 < n then A (e, x.2) else none else A x

/-- A step of the machine with eager copying, and the byte that is read. -/
def exec (A : Image) : Op → Option (Option (BitVec 8) × Image)
  | .read e va => (A (e, pgnum va)).map fun c ↦ (some (c (offset va)), A)
  | .write e va b => (A (e, pgnum va)).map fun c ↦
      (none, Function.update A (e, pgnum va) (some (Function.update c (offset va) b)))
  | .alloc e va => some (none, Function.update A (e, pgnum va) (some fun _ ↦ 0))
  | .unmap e va => some (none, Function.update A (e, pgnum va) none)
  | .fork e child => some (none, A.copyBelow e child (pgnum USTACKTOP))

end Image

/-! ## The system with copy-on-write -/

/-- What page `p` holds. -/
def Mem.contents (m : Mem) (p : ℕ) : Contents := fun i ↦ m.byte p i

namespace Kern

/-- The pages that the environments have, and where they can write. -/
def sharing (k : Kern) : Sharing UserPage ℕ where
  page x := (k.space x.1 x.2).map Prod.fst
  writes x := ∃ p f, k.space x.1 x.2 = some (p, f) ∧ isSet f PTE_W

/-- What the environments see. -/
def image (k : Kern) : Image := k.sharing.view k.mem.contents

/-- Every page that can be written at one place is mapped at no other. -/
def WritableOnce (k : Kern) : Prop := k.sharing.Apart fun _ _ ↦ False

end Kern

/-- The kernel, and for each environment where it is in `pgfault`; `none` is the program itself. -/
structure Cow where
  kern : Kern
  stage : Slot → Option PgfaultPc

/-- One call of a `fork` that finds room for the page tables of the child. -/
structure ForkCall (B : Machine) (entry : Word) (cur : Slot) (Q : Kern → Prop)
    (x y : ForkPc × Kern) : Prop where
  live : x.2.Live cur
  run : forkStep B entry cur x.2 x.1 = some y
  room : HasRoom cur x.2 x.1
  holds : Q x.2

end Jos
