import Jos.Kern.Syscall

/-!
# Scheduling and traps (`kern/sched.c`, `kern/trap.c`, `kern/cpu.h`)

`Smp` adds the CPUs to the state under the big kernel lock.  A kernel entry runs from the moment
the lock is taken to the moment it is released, in `env_run` or in `sched_halt`; so each entry
is one function from state to state, and entries of different CPUs interleave.

`none` means that the entry never leaves the kernel: it panics, or drops into the kernel
monitor, and keeps the lock.
-/

namespace Jos

def NCPU : ℕ := 8

/-- `struct CpuInfo *`. -/
abbrev CpuId := Fin NCPU

inductive CpuStatus where
  | unused
  | started
  | halted
deriving DecidableEq

/-- `struct CpuInfo` and the control register of the CPU. -/
structure Cpu where
  cpuStatus : CpuStatus := .unused
  cpuEnv : Option Slot := none
  cr3 : ℕ := 0

/-- The whole system between two kernel entries. -/
structure Smp where
  kern : Kern
  cpus : CpuId → Cpu

namespace Smp

def setKern (s : Smp) (k : Kern) : Smp := { s with kern := k }

def modCpu (s : Smp) (c : CpuId) (f : Cpu → Cpu) : Smp :=
  { s with cpus := Function.update s.cpus c (f (s.cpus c)) }

/-- `curenv` on CPU `c`. -/
def curenv (s : Smp) (c : CpuId) : Option Slot := (s.cpus c).cpuEnv

def status (s : Smp) (e : Slot) : EnvStatus := (s.kern.envs e).envStatus

end Smp

section

variable (B : Machine)

/-- `env_run(e)` on CPU `c`. -/
def envRun (s : Smp) (c : CpuId) (e : Slot) : Option Smp := do
  let s ←
    if s.curenv c ≠ some e then do
      let k : Kern := match s.curenv c with
        | none => s.kern
        | some o => s.kern.modEnv o fun (env : Env) ↦
            if env.envStatus = .running then { env with envStatus := .runnable } else env
      let k := k.modEnv e fun env ↦
        { env with envStatus := .running, envRuns := env.envRuns + 1 }
      let d ← (k.envs e).envPgdir
      pure ((s.setKern k).modCpu c fun cpu ↦ { cpu with cpuEnv := some e, cr3 := d })
    else pure s
  return s.setKern (s.kern.modEnv e fun env ↦ { env with envCpunum := c })

/-- The slots in the order in which `sched_yield` visits them from `start` on. -/
def schedOrder (start : Slot) : List Slot :=
  (List.range NENV).map fun i ↦ ⟨(start + i) % NENV, Nat.mod_lt _ (by decide)⟩

/-- `sched_halt`. -/
def schedHalt (s : Smp) (c : CpuId) : Option Smp :=
  if ∃ e, s.status e = .runnable ∨ s.status e = .running ∨ s.status e = .dying then
    some (s.modCpu c fun _ ↦ { cpuStatus := .halted, cpuEnv := none, cr3 := B.kernPgdir })
  else none

/-- The first runnable environment that `sched_yield` finds on CPU `c`. -/
def schedPick (s : Smp) (c : CpuId) : Option Slot :=
  let start := match s.curenv c with
    | none => ⟨0, by decide⟩
    | some e => envx (s.kern.envs e).envId
  (schedOrder start).find? fun e ↦ s.status e = .runnable

/-- `sched_yield` on CPU `c`. -/
def schedYield (s : Smp) (c : CpuId) : Option Smp :=
  match schedPick s c with
  | some e => envRun s c e
  | none =>
      match s.curenv c with
      | some e => if s.status e = .running then envRun s c e else schedHalt B s c
      | none => schedHalt B s c

/-- `struct UTrapframe`, as the bytes that are stored. -/
def utfBytes (faultVa : Word) (tf : Trapframe) : List (BitVec 8) :=
  [faultVa, tf.err, tf.regs.edi, tf.regs.esi, tf.regs.ebp, tf.regs.oesp, tf.regs.ebx, tf.regs.edx,
    tf.regs.ecx, tf.regs.eax, tf.eip, tf.eflags, tf.esp].flatMap fun w ↦
      (List.range 4).map (Mem.getByte w)

/-- Store bytes at consecutive addresses. -/
def storeBytes (m : Mem) (d : ℕ) : Word → List (BitVec 8) → Option Mem
  | _, [] => some m
  | va, b :: bs => do storeBytes (← m.storeByte d va b) d (va + 1) bs

/-- How `trap_dispatch` ends: it returns, calls `sched_yield`, or calls `env_run(curenv)`. -/
inductive Exit where
  | ret
  | yield (cur : Option Slot)
  | run

/-- The end of a call of `env_destroy(curenv)` or of a function that may make one. -/
def Ctl.exit {α : Type} : Ctl α → Exit
  | .ret _ => .ret
  | .yield c => .yield c

/-- `page_fault_handler`, for a fault of the current environment in user mode. -/
def pageFaultHandler (k : Kern) (cur : Slot) (faultVa : Word) : Option (Exit × Kern) :=
  let env := k.envs cur
  let tf := env.envTf
  if env.envPgfaultUpcall ≠ 0 then do
    let esp := if UXSTACKTOP - 0x1000 ≤ tf.esp ∧ tf.esp ≤ UXSTACKTOP then tf.esp - 4
      else UXSTACKTOP
    let esp := esp - 52
    let k := k.modEnv cur fun env ↦ { env with envTf := { tf with esp := esp } }
    match ← userMemAssert B k cur esp 52 (PTE_U ||| PTE_P ||| PTE_W) with
    | (.yield c, k) => return (.yield c, k)
    | (.ret (), k) =>
        let k := k.modEnv cur fun env ↦
          { env with envTf := { env.envTf with eip := env.envPgfaultUpcall } }
        let d ← (k.envs cur).envPgdir
        let m ← storeBytes k.mem d esp (utfBytes faultVa tf)
        return (.run, k.setMem m)
  else do
    let (c, k) ← envDestroy B k (some cur) cur
    return (c.exit, k)

def T_BRKPT : Word := 3
def T_PGFLT : Word := 14
def T_SYSCALL : Word := 48
def IRQ_OFFSET : Word := 32
def IRQ_TIMER : Word := 0
def IRQ_SPURIOUS : Word := 7

/-- `trap_dispatch` for a trap of the current environment from user mode.  `cr2` is the faulting
address, and `getc` what `cons_getc` would return.  The kernel monitor is not modelled. -/
def trapDispatch (k : Kern) (cur : Slot) (cr2 getc : Word) : Option (Exit × Kern) :=
  let tf := (k.envs cur).envTf
  if tf.trapno = IRQ_OFFSET + IRQ_SPURIOUS then some (.ret, k)
  else if tf.trapno = T_PGFLT then pageFaultHandler B k cur cr2
  else if tf.trapno = T_BRKPT then none
  else if tf.trapno = T_SYSCALL then do
    match ← syscall B k cur getc tf.regs.eax tf.regs.edx tf.regs.ecx tf.regs.ebx tf.regs.edi
      tf.regs.esi with
    | (.yield c, k) => return (.yield c, k)
    | (.ret r, k) => return (.ret, k.modEnv cur fun env ↦
        { env with envTf := { env.envTf with regs := { env.envTf.regs with eax := r } } })
  else if tf.trapno = IRQ_OFFSET + IRQ_TIMER then some (.yield (some cur), k)
  else do
    let (c, k) ← envDestroy B k (some cur) cur
    return (c.exit, k)

/-- What `trap` does after `trap_dispatch`. -/
def trapTail (s : Smp) (c : CpuId) : Option Smp :=
  match s.curenv c with
  | some e => if s.status e = .running then envRun s c e else schedYield B s c
  | none => schedYield B s c

/-- `sched_yield` with `cur` as `curenv`; if it is `NULL`, `env_free` has switched to
`kern_pgdir`. -/
def yieldAs (s : Smp) (c : CpuId) (cur : Option Slot) : Option Smp :=
  match cur with
  | some _ => schedYield B s c
  | none => schedYield B (s.modCpu c fun cpu ↦ { cpu with cpuEnv := none, cr3 := B.kernPgdir }) c

/-- `trap` from user mode on CPU `c`, where `tf` is the frame the hardware pushed. -/
def trapUser (s : Smp) (c : CpuId) (tf : Trapframe) (cr2 getc : Word) : Option Smp := do
  let s := s.modCpu c fun cpu ↦ { cpu with cpuStatus := .started }
  let cur ← s.curenv c
  if s.status cur = .dying then
    -- the environment is a zombie
    let k ← envFree B s.kern cur
    yieldAs B (s.setKern k) c none
  else
    let k := s.kern.modEnv cur fun env ↦ { env with envTf := tf }
    match ← trapDispatch B k cur cr2 getc with
    | (.ret, k) => trapTail B (s.setKern k) c
    | (.yield cur, k) => yieldAs B (s.setKern k) c cur
    | (.run, k) => envRun (s.setKern k) c cur

/-- `trap` from kernel mode: an interrupt that wakes the halted CPU `c`.  Any other trap in
kernel mode is a panic. -/
def trapHalted (s : Smp) (c : CpuId) (trapno : Word) : Option Smp :=
  let s := s.modCpu c fun cpu ↦ { cpu with cpuStatus := .started }
  if trapno = IRQ_OFFSET + IRQ_SPURIOUS then trapTail B s c
  else if trapno = IRQ_OFFSET + IRQ_TIMER then schedYield B s c
  else none

/-- The end of `i386_init` and of `mp_main`: CPU `c` takes the lock and calls `sched_yield`. -/
def cpuStart (s : Smp) (c : CpuId) : Option Smp :=
  schedYield B (s.modCpu c fun cpu ↦
    { cpu with cpuStatus := .started, cr3 := B.kernPgdir }) c

end

end Jos
