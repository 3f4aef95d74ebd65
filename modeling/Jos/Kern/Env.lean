import Jos.Kern.Pmap

/-!
# Environments (`inc/env.h`, `kern/env.c`)

`Kern` is the state that kernel code shares under the big kernel lock: memory, the array `envs`
and the list of free environments.  A `struct Env *` is the index of the environment in `envs`.
Who is `curenv` depends on the CPU, so the functions that look at it take it as an argument.

Functions of the source that may end in `sched_yield`, which does not return, say so in their
result: `Ctl.yield cur` is a call of `sched_yield` with `cur` as `curenv`.
-/

namespace Jos

/-- `struct PushRegs`. -/
structure PushRegs where
  edi : Word := 0
  esi : Word := 0
  ebp : Word := 0
  oesp : Word := 0
  ebx : Word := 0
  edx : Word := 0
  ecx : Word := 0
  eax : Word := 0
deriving DecidableEq

/-- `struct Trapframe`, without its padding. -/
structure Trapframe where
  regs : PushRegs := {}
  es : BitVec 16 := 0
  ds : BitVec 16 := 0
  trapno : Word := 0
  err : Word := 0
  eip : Word := 0
  cs : BitVec 16 := 0
  eflags : Word := 0
  esp : Word := 0
  ss : BitVec 16 := 0
deriving DecidableEq

def GD_KT : BitVec 16 := 0x08
def GD_UT : BitVec 16 := 0x18
def GD_UD : BitVec 16 := 0x20
def FL_IF : Word := 0x200

def NENV : ℕ := 1024
def ENVGENSHIFT : ℕ := 12

/-- `struct Env *`, for an entry of `envs`. -/
abbrev Slot := Fin NENV

/-- There are more than two slots. -/
theorem exists_slot_ne (a b : Slot) : ∃ e : Slot, e ≠ a ∧ e ≠ b := by
  obtain ⟨n, hn, hna, hnb⟩ : ∃ n, n < 3 ∧ n ≠ a.val ∧ n ≠ b.val := by
    by_contra hc
    have h0 : ¬ (0 ≠ a.val ∧ 0 ≠ b.val) := fun hn ↦ hc ⟨0, by decide, hn⟩
    have h1 : ¬ (1 ≠ a.val ∧ 1 ≠ b.val) := fun hn ↦ hc ⟨1, by decide, hn⟩
    have h2 : ¬ (2 ≠ a.val ∧ 2 ≠ b.val) := fun hn ↦ hc ⟨2, by decide, hn⟩
    omega
  exact ⟨⟨n, hn.trans (by decide)⟩, fun hc ↦ hna (congrArg Fin.val hc),
    fun hc ↦ hnb (congrArg Fin.val hc)⟩

/-- `ENVX(envid)`: the low ten bits. -/
def envx (envid : Word) : Slot := ⟨envid.toNat % NENV, Nat.mod_lt _ (by decide)⟩

inductive EnvStatus where
  | free
  | dying
  | runnable
  | running
  | notRunnable
deriving DecidableEq

/-- `struct Env`.  There is one environment type only, so `env_type` is left out.  A `NULL`
`env_pgdir` is `none`. -/
structure Env where
  envTf : Trapframe := {}
  envLink : Option Slot := none
  envId : Word := 0
  envParentId : Word := 0
  envStatus : EnvStatus := .free
  envRuns : Word := 0
  envCpunum : ℕ := 0
  envPgdir : Option ℕ := none
  envPgfaultUpcall : Word := 0
  envIpcRecving : Bool := false
  envIpcDstva : Word := 0
  envIpcValue : Word := 0
  envIpcFrom : Word := 0
  envIpcPerm : Word := 0

/-- The state shared under the big kernel lock. -/
structure Kern where
  mem : Mem
  envs : Slot → Env
  envFreeList : Option Slot

namespace Kern

def setMem (s : Kern) (m : Mem) : Kern := { s with mem := m }

/-- Store into fields of one environment. -/
def modEnv (s : Kern) (e : Slot) (f : Env → Env) : Kern :=
  { s with envs := Function.update s.envs e (f (s.envs e)) }

@[simp] theorem mem_setMem (s : Kern) (m : Mem) : (s.setMem m).mem = m := rfl
@[simp] theorem setMem_mem (s : Kern) : s.setMem s.mem = s := rfl
@[simp] theorem envs_setMem (s : Kern) (m : Mem) : (s.setMem m).envs = s.envs := rfl
@[simp] theorem envFreeList_setMem (s : Kern) (m : Mem) :
    (s.setMem m).envFreeList = s.envFreeList := rfl
@[simp] theorem mem_modEnv (s : Kern) (e : Slot) (f : Env → Env) : (s.modEnv e f).mem = s.mem := rfl
@[simp] theorem envFreeList_modEnv (s : Kern) (e : Slot) (f : Env → Env) :
    (s.modEnv e f).envFreeList = s.envFreeList := rfl
@[simp] theorem envs_modEnv_self (s : Kern) (e : Slot) (f : Env → Env) :
    (s.modEnv e f).envs e = f (s.envs e) := by
  simp [modEnv]

theorem envs_modEnv_of_ne (s : Kern) {e e' : Slot} (f : Env → Env) (h : e' ≠ e) :
    (s.modEnv e f).envs e' = s.envs e' := by
  simp [modEnv, h]

end Kern

/-- How a function that may call `sched_yield` ends. -/
inductive Ctl (α : Type) where
  | ret (r : α)
  | yield (cur : Option Slot)

/-- `envid2env`: `none` is the error `-E_BAD_ENV`. -/
def envid2env (s : Kern) (cur : Slot) (envid : Word) (checkperm : Bool) : Option Slot :=
  if envid = 0 then some cur
  else
    let e := envx envid
    if (s.envs e).envStatus = .free ∨ (s.envs e).envId ≠ envid then none
    else if checkperm ∧ e ≠ cur ∧ (s.envs e).envParentId ≠ (s.envs cur).envId then none
    else some e

/-- The loop of `env_init`, from slot `n - 1` down to 0. -/
def envInitLoop (s : Kern) : (n : ℕ) → n ≤ NENV → Kern
  | 0, _ => s
  | n + 1, h =>
      let i : Slot := ⟨n, h⟩
      let s := s.modEnv i fun e ↦
        { e with envId := 0, envStatus := .free, envLink := s.envFreeList }
      envInitLoop { s with envFreeList := some i } n (Nat.le_of_succ_le h)

/-- `env_init`, without the segment registers. -/
def envInit (s : Kern) : Kern := envInitLoop { s with envFreeList := none } NENV le_rfl

section

variable (B : Machine)

/-- The loop of `env_setup_vm` that copies the entries of `kern_pgdir` from `PDX(UTOP)` on. -/
def copyKernPdes (m : Mem) (d : ℕ) : Mem :=
  ((List.range NPDENTRIES).filter (pdx UTOP ≤ ·)).foldl
    (fun m x ↦ m.write d x (m.phys B.kernPgdir x)) m

/-- `env_setup_vm`: the new page directory, or `-E_NO_MEM`. -/
def envSetupVm (m : Mem) : Option (Except Word ℕ × Mem) := do
  let (p, m) ← pageAlloc B m true
  match p with
  | none => return (.error (-E_NO_MEM), m)
  | some p =>
      let d ← kaddr B (page2pa p)
      let m := m.setRef p (m.ref p + 1)
      let m := copyKernPdes B m d
      let m := m.write d (pdx UVPT) (page2pa d ||| PTE_P ||| PTE_U)
      return (.ok d, m)

/-- The id that `env_alloc` gives to slot `e`: the next generation of the slot. -/
def nextEnvId (id : Word) (e : Slot) : Word :=
  let generation : Word := (id + (1 <<< ENVGENSHIFT)) &&& ~~~(1023 : Word)
  let generation : Word := if generation.toInt ≤ 0 then 1 <<< ENVGENSHIFT else generation
  generation ||| BitVec.ofNat 32 e

/-- The registers of a new environment. -/
def newTf : Trapframe :=
  { ds := GD_UD ||| 3, es := GD_UD ||| 3, ss := GD_UD ||| 3, esp := USTACKTOP, cs := GD_UT ||| 3
    eflags := FL_IF }

/-- `env_alloc`. -/
def envAlloc (s : Kern) (parentId : Word) : Option (Except Word Slot × Kern) :=
  match s.envFreeList with
  | none => some (.error (-E_NO_FREE_ENV), s)
  | some e => do
      let (r, m) ← envSetupVm B s.mem
      let s := s.setMem m
      match r with
      | .error r => return (.error r, s)
      | .ok d =>
          let s := s.modEnv e fun env ↦ { env with
            envPgdir := some d
            envId := nextEnvId env.envId e
            envParentId := parentId
            envStatus := .runnable
            envRuns := 0
            envTf := newTf
            envPgfaultUpcall := 0
            envIpcRecving := false }
          return (.ok e, { s with envFreeList := (s.envs e).envLink })

/-- The inner loop of `env_free`: unmap every entry of the page table `pt`. -/
def envFreePtes (m : Mem) (d pt pdeno : ℕ) : Option Mem :=
  (List.range NPTENTRIES).foldlM
    (fun m pteno ↦ if isSet (m.phys pt pteno) PTE_P then pageRemove B m d (pgaddr pdeno pteno 0)
      else some m) m

/-- One round of the outer loop of `env_free`. -/
def envFreePde (d : ℕ) (m : Mem) (pdeno : ℕ) : Option Mem :=
  if ¬ isSet (m.phys d pdeno) PTE_P then some m
  else do
    let pa := pteAddr (m.phys d pdeno)
    let pt ← kaddr B pa
    let m ← envFreePtes B m d pt pdeno
    let m := m.write d pdeno 0
    pageDecref m (← pa2page B pa)

/-- `env_free`, without the switch to `kern_pgdir` (see `Smp.envFree`). -/
def envFree (s : Kern) (e : Slot) : Option Kern := do
  let d ← (s.envs e).envPgdir
  let m ← (List.range (pdx UTOP)).foldlM (envFreePde B d) s.mem
  let m ← pageDecref m (← pa2page B (page2pa d))
  let s := s.setMem m
  let s := s.modEnv e fun env ↦
    { env with envPgdir := none, envStatus := .free, envLink := s.envFreeList }
  return { s with envFreeList := some e }

/-- `env_destroy`, with `cur` as `curenv`. -/
def envDestroy (s : Kern) (cur : Option Slot) (e : Slot) : Option (Ctl Unit × Kern) :=
  if (s.envs e).envStatus = .running ∧ cur ≠ some e then
    some (.ret (), s.modEnv e fun env ↦ { env with envStatus := .dying })
  else do
    let s ← envFree B s e
    if cur = some e then return (.yield none, s) else return (.ret (), s)

end

end Jos
