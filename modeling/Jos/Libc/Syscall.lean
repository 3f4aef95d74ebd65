import Jos.Kern.Preempt

/-!
# System call stubs (`lib/syscall.c`, `inc/lib.h`)

A stub loads registers, executes `int`, and finds its result in `%eax`; the kernel finds the
arguments in the registers of a frame.
-/

namespace Jos

open Jos.Lib Jos.Lib.X86

/-- The stubs, with their arguments. -/
inductive UserCall where
  | cputs (s len : Word)
  | cgetc
  | envDestroy (envid : Word)
  | getenvid
  | yield
  | pageAlloc (envid va perm : Word)
  | pageMap (srcenv srcva dstenv dstva perm : Word)
  | pageUnmap (envid va : Word)
  | exofork
  | envSetStatus (envid status : Word)
  | envSetPgfaultUpcall (envid upcall : Word)
  | ipcTrySend (envid value srcva perm : Word)
  | ipcRecv (dstva : Word)

/-- The registers at the `int` of `syscall`. -/
def userSyscall (c : Processor) (num a1 a2 a3 a4 a5 : Word) : Processor :=
  { c with
    reg
      | .eax => num
      | .edx => a1
      | .ecx => a2
      | .ebx => a3
      | .edi => a4
      | .esi => a5
      | r => c.reg r }

namespace UserCall

/-- The number of the call. -/
def num : UserCall → Word
  | cputs .. => 0
  | cgetc => 1
  | getenvid => 2
  | envDestroy .. => 3
  | pageAlloc .. => 4
  | pageMap .. => 5
  | pageUnmap .. => 6
  | exofork => 7
  | envSetStatus .. => 8
  | envSetPgfaultUpcall .. => 9
  | yield => 10
  | ipcTrySend .. => 11
  | ipcRecv .. => 12

/-- Whether the stub panics if the result is positive. -/
def check : UserCall → Bool
  | envDestroy .. | pageAlloc .. | pageMap .. | pageUnmap .. | envSetStatus ..
  | envSetPgfaultUpcall .. | ipcRecv .. => true
  | _ => false

/-- The registers at the `int`.  `sys_exofork` loads `%eax` only. -/
def setup (c : Processor) : UserCall → Processor
  | cputs s len => userSyscall c 0 s len 0 0 0
  | cgetc => userSyscall c 1 0 0 0 0 0
  | envDestroy envid => userSyscall c 3 envid 0 0 0 0
  | getenvid => userSyscall c 2 0 0 0 0 0
  | yield => userSyscall c 10 0 0 0 0 0
  | pageAlloc envid va perm => userSyscall c 4 envid va perm 0 0
  | pageMap srcenv srcva dstenv dstva perm => userSyscall c 5 srcenv srcva dstenv dstva perm
  | pageUnmap envid va => userSyscall c 6 envid va 0 0 0
  | exofork => c.setReg .eax 7
  | envSetStatus envid status => userSyscall c 8 envid status 0 0 0
  | envSetPgfaultUpcall envid upcall => userSyscall c 9 envid upcall 0 0 0
  | ipcTrySend envid value srcva perm => userSyscall c 11 envid value srcva perm 0
  | ipcRecv dstva => userSyscall c 12 dstva 0 0 0 0

/-- What the stub returns for the value in `%eax`; `none` is the panic. -/
def returns (u : UserCall) (ret : Word) : Option Word :=
  if u.check ∧ 0 < ret.toInt then none else some ret

/-- What the stub finds in `%eax`, if a message has come or not when the call goes on after it
was suspended. -/
def result (u : UserCall) (got : Bool) : Ctl Word → Word
  | .ret r => r
  | .yield _ => if got then 0 else u.num

section

variable {B : Machine} {k k' : Kern} {cur : Slot} {getc : Word} {c : Processor} {u : UserCall}
  {r : Word}

end

end UserCall

section

variable {B : Machine} {k k' : Kern} {cur : Slot} {a1 a2 a3 a4 a5 r : Word}

/-! ## The results of the calls that are checked -/

end

/-! ## From the stub to the kernel and back -/

section

variable {B : Machine} {S : Symbols} {segs : TaskSegs} {i : CpuId} {wide : Bool} {t : DescTables}
  {s : Smp} {a : Slot} {c : Processor} {u : UserCall} {next : Word}

/-- A stub stores into the general registers only. -/
theorem UserRuns.setup (h : UserRuns t s i a c) (u : UserCall) :
    UserRuns t s i a (u.setup c) := by
  have hset : u.setup c = { c with reg := (u.setup c).reg } := by
    cases u <;> rfl
  rw [hset]
  exact ⟨h.toRuns, ⟨h.mode.cs, h.mode.ss, h.mode.ds, h.mode.es, h.mode.vm⟩, h.room, h.busy⟩

end

end Jos
