import Jos.Kern.Env
import Jos.Libc.Printfmt

/-!
# System calls (`kern/syscall.c`)

Each `sys_` function runs with the calling environment `cur` as `curenv`.  The kernel reads and
writes user memory through the page directory in force, which is that of `cur`: `Mem.loadByte`
and `Mem.storeByte` are accesses in kernel mode, and `none` is the page fault they cause, which
makes the kernel panic.
-/

namespace Jos

/-! ## The hardware's walk -/

namespace Mem

/-- The entries that translate `va` in directory `d`, when both are present. -/
def walk (m : Mem) (d : ℕ) (va : Word) : Option (Word × Word) :=
  let pde := m.phys d (pdx va)
  if ¬ isSet pde PTE_P then none
  else
    let pte := m.phys (frame pde) (ptx va)
    if ¬ isSet pte PTE_P then none else some (pde, pte)

theorem walk_eq_some {m : Mem} {d : ℕ} {va pde pte : Word} : m.walk d va = some (pde, pte) ↔
    (pde = m.phys d (pdx va) ∧ isSet pde PTE_P) ∧
      pte = m.phys (frame pde) (ptx va) ∧ isSet pte PTE_P := by
  rw [walk]
  by_cases hP : isSet (m.phys d (pdx va)) PTE_P
  · by_cases hP' : isSet (m.phys (frame (m.phys d (pdx va))) (ptx va)) PTE_P
    · simp only [hP, hP', not_true_eq_false, if_false, Option.some.injEq, Prod.mk.injEq]
      constructor
      · rintro ⟨rfl, rfl⟩
        exact ⟨⟨rfl, hP⟩, rfl, hP'⟩
      · rintro ⟨⟨rfl, -⟩, rfl, -⟩
        exact ⟨rfl, rfl⟩
    · simp only [hP, hP', not_true_eq_false, not_false_eq_true, if_true, if_false]
      refine iff_of_false nofun ?_
      rintro ⟨⟨rfl, -⟩, rfl, hc⟩
      exact hP' hc
  · simp only [hP, not_false_eq_true, if_true]
    refine iff_of_false nofun ?_
    rintro ⟨⟨rfl, hc⟩, -⟩
    exact hP hc

/-- Byte `i` of a word. -/
def getByte (w : Word) (i : ℕ) : BitVec 8 := (w >>> (8 * i)).setWidth 8

/-- A word with byte `i` replaced. -/
def setByte (w : Word) (i : ℕ) (b : BitVec 8) : Word :=
  (w &&& ~~~((0xFF : Word) <<< (8 * i))) ||| (b.setWidth 32 <<< (8 * i))

/-- A load of one byte in kernel mode. -/
def loadByte (m : Mem) (d : ℕ) (va : Word) : Option (BitVec 8) := do
  let (_, pte) ← m.walk d va
  return getByte (m.phys (frame pte) (va.toNat % 4096 / 4)) (va.toNat % 4)

/-- A store of one byte in kernel mode; `CR0_WP` is set, so the entries must allow writing. -/
def storeByte (m : Mem) (d : ℕ) (va : Word) (b : BitVec 8) : Option Mem := do
  let (pde, pte) ← m.walk d va
  if isSet pde PTE_W ∧ isSet pte PTE_W then
    let i := va.toNat % 4096 / 4
    return m.write (frame pte) i (setByte (m.phys (frame pte) i) (va.toNat % 4) b)
  else none

end Mem

section

variable (B : Machine)

/-- `user_mem_assert(env, va, len, perm)`, with `env` the current environment. -/
def userMemAssert (s : Kern) (cur : Slot) (va len perm : Word) : Option (Ctl Unit × Kern) := do
  let d ← (s.envs cur).envPgdir
  match ← userMemCheck B s.mem d va len (perm ||| PTE_U) with
  | none => return (.ret (), s)
  | some _ => envDestroy B s (some cur) cur

/-- What `cprintf("%.*s", len, s)` does in `sys_cputs`. -/
def cputsLog (m : Mem) (d : ℕ) (str len : Word) : Option Unit × List PrintEv :=
  vcprintf (m.loadByte d) "%.*s" [len, str]

/-- `sys_cputs`. -/
def sysCputs (s : Kern) (cur : Slot) (str len : Word) : Option (Ctl Unit × Kern) := do
  match ← userMemAssert B s cur str len PTE_P with
  | (.yield c, s) => return (.yield c, s)
  | (.ret (), s) =>
      let d ← (s.envs cur).envPgdir
      (cputsLog s.mem d str len).1
      return (.ret (), s)

/-- `sys_env_destroy`. -/
def sysEnvDestroy (s : Kern) (cur : Slot) (envid : Word) : Option (Ctl Word × Kern) :=
  match envid2env s cur envid true with
  | none => some (.ret (-E_BAD_ENV), s)
  | some e => do
      match ← envDestroy B s (some cur) e with
      | (.yield c, s) => return (.yield c, s)
      | (.ret (), s) => return (.ret 0, s)

/-- `sys_exofork`. -/
def sysExofork (s : Kern) (cur : Slot) : Option (Word × Kern) := do
  match ← envAlloc B s (s.envs cur).envId with
  | (.error a, s) => return (a, s)
  | (.ok e, s) =>
      let tf := (s.envs cur).envTf
      let s := s.modEnv e fun env ↦ { env with
        envStatus := .notRunnable
        envTf := { tf with regs := { tf.regs with eax := 0 } } }
      return ((s.envs e).envId, s)

def ENV_RUNNABLE : Word := 2
def ENV_NOT_RUNNABLE : Word := 4

/-- `sys_env_set_status`. -/
def sysEnvSetStatus (s : Kern) (cur : Slot) (envid status : Word) : Word × Kern :=
  match envid2env s cur envid true with
  | none => (-E_BAD_ENV, s)
  | some e =>
      if status = ENV_RUNNABLE then
        (0, s.modEnv e fun env ↦ { env with envStatus := .runnable })
      else if status = ENV_NOT_RUNNABLE then
        (0, s.modEnv e fun env ↦ { env with envStatus := .notRunnable })
      else (-E_INVAL, s)

/-- `sys_env_set_pgfault_upcall`. -/
def sysEnvSetPgfaultUpcall (s : Kern) (cur : Slot) (envid func : Word) : Word × Kern :=
  match envid2env s cur envid true with
  | none => (-E_BAD_ENV, s)
  | some e => (0, s.modEnv e fun env ↦ { env with envPgfaultUpcall := func })

/-- The check of an address argument: below `UTOP` and page-aligned. -/
def badVa (va : Word) : Prop := UTOP ≤ va ∨ pgoff va ≠ 0

instance (va : Word) : Decidable (badVa va) := inferInstanceAs (Decidable (_ ∨ _))

/-- The check of a permission argument. -/
def badPerm (perm : Word) : Prop :=
  perm &&& (PTE_U ||| PTE_P) ≠ PTE_U ||| PTE_P ∨ perm &&& ~~~PTE_SYSCALL ≠ 0

instance (perm : Word) : Decidable (badPerm perm) := inferInstanceAs (Decidable (_ ∨ _))

/-- `sys_page_alloc`. -/
def sysPageAlloc (s : Kern) (cur : Slot) (envid va perm : Word) : Option (Word × Kern) :=
  match envid2env s cur envid true with
  | none => some (-E_BAD_ENV, s)
  | some e =>
      if badVa va then some (-E_INVAL, s)
      else if badPerm perm then some (-E_INVAL, s)
      else do
        let (newPage, m) ← pageAlloc B s.mem true
        match newPage with
        | none => return (-E_NO_MEM, s.setMem m)
        | some newPage =>
            let d ← (s.envs e).envPgdir
            let (r, m) ← pageInsert B m d newPage va (PTE_U ||| PTE_P ||| perm)
            if r ≠ 0 then
              let m ← pageFree m newPage
              return (-E_NO_MEM, s.setMem m)
            else return (0, s.setMem m)

/-- `sys_page_map`. -/
def sysPageMap (s : Kern) (cur : Slot) (srcenvid srcva dstenvid dstva perm : Word) :
    Option (Word × Kern) :=
  match envid2env s cur srcenvid true with
  | none => some (-E_BAD_ENV, s)
  | some src =>
  match envid2env s cur dstenvid true with
  | none => some (-E_BAD_ENV, s)
  | some dst =>
      if badVa srcva then some (-E_INVAL, s)
      else if badVa dstva then some (-E_INVAL, s)
      else if badPerm perm then some (-E_INVAL, s)
      else do
        let srcPgdir ← (s.envs src).envPgdir
        match ← pageLookup B s.mem srcPgdir srcva with
        | none => return (-E_NO_MEM, s)
        | some (p, t, j) =>
            if isSet perm PTE_W ∧ ¬ isSet (s.mem.phys t j) PTE_W then return (-E_INVAL, s)
            else
              let dstPgdir ← (s.envs dst).envPgdir
              let (r, m) ← pageInsert B s.mem dstPgdir p dstva perm
              if r.toInt < 0 then return (-E_NO_MEM, s.setMem m)
              else return (0, s.setMem m)

/-- `sys_page_unmap`. -/
def sysPageUnmap (s : Kern) (cur : Slot) (envid va : Word) : Option (Word × Kern) :=
  match envid2env s cur envid true with
  | none => some (-E_BAD_ENV, s)
  | some e =>
      if badVa va then some (-E_INVAL, s)
      else do
        let d ← (s.envs e).envPgdir
        let m ← pageRemove B s.mem d va
        return (0, s.setMem m)

/-- The end of `sys_ipc_try_send`: the message is delivered and the receiver made runnable. -/
def ipcDeliver (s : Kern) (cur e : Slot) (value : Word) : Kern :=
  s.modEnv e fun env ↦ { env with
    envIpcRecving := false
    envIpcFrom := (s.envs cur).envId
    envIpcValue := value
    envTf := { env.envTf with regs := { env.envTf.regs with eax := 0 } }
    envStatus := .runnable }

/-- `sys_ipc_try_send`. -/
def sysIpcTrySend (s : Kern) (cur : Slot) (envid value srcva perm : Word) :
    Option (Word × Kern) :=
  match envid2env s cur envid false with
  | none => some (-E_BAD_ENV, s)
  | some e =>
      if ¬ (s.envs e).envIpcRecving then some (-E_IPC_NOT_RECV, s)
      else if srcva < UTOP then
        if pgoff srcva ≠ 0 then some (-E_INVAL, s)
        else if badPerm perm then some (-E_INVAL, s)
        else do
          let curPgdir ← (s.envs cur).envPgdir
          match ← pageLookup B s.mem curPgdir srcva with
          | none => return (-E_INVAL, s)
          | some (p, t, j) =>
              if ¬ isSet (s.mem.phys t j) PTE_W ∧ isSet perm PTE_W then return (-E_INVAL, s)
              else if (s.envs e).envIpcDstva < UTOP then
                let d ← (s.envs e).envPgdir
                let (r, m) ← pageInsert B s.mem d p (s.envs e).envIpcDstva perm
                let s := (s.setMem m).modEnv e fun env ↦ { env with envIpcPerm := perm }
                if r.toInt < 0 then return (-E_NO_MEM, s)
                else return (0, ipcDeliver s cur e value)
              else return (0, ipcDeliver s cur e value)
      else
        let s := s.modEnv e fun env ↦ { env with envIpcPerm := 0 }
        some (0, ipcDeliver s cur e value)

/-- `sys_ipc_recv`: it returns on an error only, and calls `sched_yield` otherwise. -/
def sysIpcRecv (s : Kern) (cur : Slot) (dstva : Word) : Ctl Word × Kern :=
  if dstva < UTOP ∧ pgoff dstva ≠ 0 then (.ret (-E_INVAL), s)
  else (.yield (some cur), s.modEnv cur fun env ↦
    { env with envIpcRecving := true, envIpcDstva := dstva, envStatus := .notRunnable })

/-- The system call numbers (`inc/syscall.h`). -/
inductive SysNo where
  | cputs | cgetc | getenvid | envDestroy | pageAlloc | pageMap | pageUnmap | exofork
  | envSetStatus | envSetPgfaultUpcall | yield | ipcTrySend | ipcRecv
deriving DecidableEq

/-- The number of a system call in `%eax`. -/
def sysNo (n : Word) : Option SysNo :=
  match n.toNat with
  | 0 => some .cputs
  | 1 => some .cgetc
  | 2 => some .getenvid
  | 3 => some .envDestroy
  | 4 => some .pageAlloc
  | 5 => some .pageMap
  | 6 => some .pageUnmap
  | 7 => some .exofork
  | 8 => some .envSetStatus
  | 9 => some .envSetPgfaultUpcall
  | 10 => some .yield
  | 11 => some .ipcTrySend
  | 12 => some .ipcRecv
  | _ => none

/-- A system call returned. -/
def returned (x : Option (Word × Kern)) : Option (Ctl Word × Kern) :=
  x.map fun (r, s) ↦ (.ret r, s)

/-- `syscall`.  `getc` is what `cons_getc` would return.  There is no `break` after
`SYS_cputs`, which goes on with `SYS_cgetc`; `sys_yield` does not return. -/
def syscall (s : Kern) (cur : Slot) (getc syscallno a1 a2 a3 a4 a5 : Word) :
    Option (Ctl Word × Kern) :=
  match sysNo syscallno with
  | some .cputs => do
      match ← sysCputs B s cur a1 a2 with
      | (.yield c, s) => return (.yield c, s)
      | (.ret (), s) => return (.ret getc, s)
  | some .cgetc => some (.ret getc, s)
  | some .getenvid => some (.ret (s.envs cur).envId, s)
  | some .envDestroy => sysEnvDestroy B s cur a1
  | some .yield => some (.yield (some cur), s)
  | some .exofork => returned (sysExofork B s cur)
  | some .envSetStatus => returned (sysEnvSetStatus s cur a1 a2)
  | some .pageAlloc => returned (sysPageAlloc B s cur a1 a2 a3)
  | some .pageMap => returned (sysPageMap B s cur a1 a2 a3 a4 a5)
  | some .pageUnmap => returned (sysPageUnmap B s cur a1 a2)
  | some .envSetPgfaultUpcall => returned (sysEnvSetPgfaultUpcall s cur a1 a2)
  | some .ipcTrySend => returned (sysIpcTrySend B s cur a1 a2 a3 a4)
  | some .ipcRecv => some (sysIpcRecv s cur a1)
  | none => some (.ret (-E_INVAL), s)

end

end Jos
