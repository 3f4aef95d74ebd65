import Jos.Kern.Authority
import Jos.Lib.Tlb

/-!
# Translations in the TLB (`kern/pmap.c`, `inc/x86.h`)

`translation` is what the hardware finds for a page, and may keep in the TLB until `lcr3` empties
it or `invlpg` drops the page.  For each function that stores into memory, `xEvs` lists what the
function `x` does that matters: its stores into frames, the `invlpg` of `tlb_invalidate` and the
`lcr3`, in the order of the source.

`tlb_invalidate` looks at the `curenv` of the CPU it runs on only, so the functions below it take
`flush d`, which says whether `!curenv || curenv->env_pgdir == d`.
-/

namespace Jos

open Jos.Lib

/-- The contents of physical memory. -/
abbrev Phys := ℕ → ℕ → Word

/-- What the hardware finds for a page: its frame, and whether a user program may use it and write
to it. -/
@[ext] structure Translation where
  frame : ℕ
  user : Bool
  write : Bool
deriving DecidableEq

def mkTranslation (pde pte : Word) : Translation where
  frame := frame pte
  user := isSet pde PTE_U ∧ isSet pte PTE_U
  write := isSet pde PTE_W ∧ isSet pte PTE_W

/-- The translation of page number `v` in directory `d`. -/
def translation (P : Phys) (d v : ℕ) : Option Translation :=
  let pde := P d (v / 1024)
  let pte := P (frame pde) (v % 1024)
  if v / 1024 < NPDENTRIES ∧ isSet pde PTE_P ∧ isSet pte PTE_P then some (mkTranslation pde pte)
  else none

/-- What code does about translations, with the contents of memory after each store. -/
abbrev Ev := TlbEv Phys ℕ ℕ

/-- Whether `tlb_invalidate(pgdir, va)` drops `va`. -/
def flushes (k : Kern) (cur : Option Slot) (pgdir : ℕ) : Bool :=
  match cur with
  | none => true
  | some e => (k.envs e).envPgdir = some pgdir

section

variable (B : Machine) (flush : ℕ → Bool)

def tlbInvalidateEvs (pgdir : ℕ) (va : Word) : List Ev :=
  if flush pgdir then [.drop (pgnum va)] else []

def pageAllocEvs (m : Mem) (allocZero : Bool) : List Ev :=
  match m.pageFreeList with
  | none => []
  | some pp =>
      match kaddr B (page2pa pp) with
      | some f => if allocZero then [.store (m.zero f).phys] else []
      | none => []

def pgdirWalkEvs (m : Mem) (pgdir : ℕ) (va : Word) (create : Bool) : List Ev :=
  if isSet (m.phys pgdir (pdx va)) PTE_P then []
  else if create then
    pageAllocEvs B m true ++
      match pageAlloc B m true with
      | some (some pNew, m) =>
          [.store (m.write pgdir (pdx va) (page2pa pNew ||| PTE_P ||| PTE_U ||| PTE_W)).phys]
      | _ => []
  else []

def pageRemoveEvs (m : Mem) (pgdir : ℕ) (va : Word) : List Ev :=
  match pageLookup B m pgdir va with
  | some (some (_, t, j)) =>
      if isSet (m.phys t j) PTE_P then
        .store (m.write t j 0).phys :: tlbInvalidateEvs flush pgdir va
      else []
  | _ => []

def pageInsertEvs (m : Mem) (pgdir pp : ℕ) (va perm : Word) : List Ev :=
  pgdirWalkEvs B m pgdir va true ++
    match pgdirWalk B m pgdir va true with
    | some (some (t, j), m) =>
        let m := m.setRef pp (m.ref pp + 1)
        if isSet (m.phys t j) PTE_P then
          pageRemoveEvs B flush m pgdir va ++
            match pageRemove B m pgdir va with
            | some m => [.store (m.write t j (page2pa pp ||| perm ||| PTE_P)).phys]
            | none => []
        else [.store (m.write t j (page2pa pp ||| perm ||| PTE_P)).phys]
    | _ => []

/-! ## Environments -/

/-- The loop of `env_setup_vm` over the entries `xs`. -/
def copyKernPdesEvs (m : Mem) (d : ℕ) : List ℕ → List Ev
  | [] => []
  | x :: xs =>
      let m := m.write d x (m.phys B.kernPgdir x)
      .store m.phys :: copyKernPdesEvs m d xs

def envSetupVmEvs (m : Mem) : List Ev :=
  pageAllocEvs B m true ++
    match pageAlloc B m true with
    | some (some p, m) =>
        match kaddr B (page2pa p) with
        | some d =>
            let m := m.setRef p (m.ref p + 1)
            copyKernPdesEvs B m d ((List.range NPDENTRIES).filter (pdx UTOP ≤ ·)) ++
              [.store ((copyKernPdes B m d).write d (pdx UVPT)
                (page2pa d ||| PTE_P ||| PTE_U)).phys]
        | none => []
    | _ => []

def envAllocEvs (k : Kern) : List Ev :=
  match k.envFreeList with
  | none => []
  | some _ => envSetupVmEvs B k.mem

/-- The inner loop of `env_free` over the entries `ptenos`. -/
def envFreePtesEvs (d pt pdeno : ℕ) : Mem → List ℕ → List Ev
  | _, [] => []
  | m, pteno :: ptenos =>
      if isSet (m.phys pt pteno) PTE_P then
        pageRemoveEvs B flush m d (pgaddr pdeno pteno 0) ++
          match pageRemove B m d (pgaddr pdeno pteno 0) with
          | some m => envFreePtesEvs d pt pdeno m ptenos
          | none => []
      else envFreePtesEvs d pt pdeno m ptenos

def envFreePdeEvs (d : ℕ) (m : Mem) (pdeno : ℕ) : List Ev :=
  if ¬ isSet (m.phys d pdeno) PTE_P then []
  else
    match kaddr B (pteAddr (m.phys d pdeno)) with
    | some pt =>
        envFreePtesEvs B flush d pt pdeno m (List.range NPTENTRIES) ++
          match envFreePtes B m d pt pdeno with
          | some m => [.store (m.write d pdeno 0).phys]
          | none => []
    | none => []

/-- The outer loop of `env_free` over the entries `pdenos`. -/
def envFreePdesEvs (d : ℕ) : Mem → List ℕ → List Ev
  | _, [] => []
  | m, pdeno :: pdenos =>
      envFreePdeEvs B flush d m pdeno ++
        match envFreePde B d m pdeno with
        | some m => envFreePdesEvs d m pdenos
        | none => []

end

section

variable (B : Machine)

/-- `env_free`, with `cur` as `curenv`. -/
def envFreeEvs (k : Kern) (cur : Option Slot) (e : Slot) : List Ev :=
  (if cur = some e then [.load B.kernPgdir] else []) ++
    match (k.envs e).envPgdir with
    | some d => envFreePdesEvs B (flushes k cur) d k.mem (List.range (pdx UTOP))
    | none => []

def envDestroyEvs (k : Kern) (cur : Option Slot) (e : Slot) : List Ev :=
  if (k.envs e).envStatus = .running ∧ cur ≠ some e then [] else envFreeEvs B k cur e

/-! ## System calls -/

def userMemAssertEvs (k : Kern) (cur : Slot) (va len perm : Word) : List Ev :=
  match (k.envs cur).envPgdir with
  | none => []
  | some d =>
      match userMemCheck B k.mem d va len (perm ||| PTE_U) with
      | some (some _) => envDestroyEvs B k (some cur) cur
      | _ => []

def sysEnvDestroyEvs (k : Kern) (cur : Slot) (envid : Word) : List Ev :=
  match envid2env k cur envid true with
  | none => []
  | some e => envDestroyEvs B k (some cur) e

def sysPageAllocEvs (k : Kern) (cur : Slot) (envid va perm : Word) : List Ev :=
  match envid2env k cur envid true with
  | none => []
  | some e =>
      if badVa va then []
      else if badPerm perm then []
      else
        pageAllocEvs B k.mem true ++
          match pageAlloc B k.mem true, (k.envs e).envPgdir with
          | some (some newPage, m), some d =>
              pageInsertEvs B (flushes k (some cur)) m d newPage va (PTE_U ||| PTE_P ||| perm)
          | _, _ => []

def sysPageMapEvs (k : Kern) (cur : Slot) (srcenvid srcva dstenvid dstva perm : Word) : List Ev :=
  match envid2env k cur srcenvid true, envid2env k cur dstenvid true with
  | some src, some dst =>
      if badVa srcva then []
      else if badVa dstva then []
      else if badPerm perm then []
      else
        match (k.envs src).envPgdir, (k.envs dst).envPgdir with
        | some srcPgdir, some dstPgdir =>
            match pageLookup B k.mem srcPgdir srcva with
            | some (some (p, t, j)) =>
                if isSet perm PTE_W ∧ ¬ isSet (k.mem.phys t j) PTE_W then []
                else pageInsertEvs B (flushes k (some cur)) k.mem dstPgdir p dstva perm
            | _ => []
        | _, _ => []
  | _, _ => []

def sysPageUnmapEvs (k : Kern) (cur : Slot) (envid va : Word) : List Ev :=
  match envid2env k cur envid true with
  | none => []
  | some e =>
      if badVa va then []
      else
        match (k.envs e).envPgdir with
        | some d => pageRemoveEvs B (flushes k (some cur)) k.mem d va
        | none => []

def sysIpcTrySendEvs (k : Kern) (cur : Slot) (envid srcva perm : Word) : List Ev :=
  match envid2env k cur envid false with
  | none => []
  | some e =>
      if ¬ (k.envs e).envIpcRecving then []
      else if srcva < UTOP then
        if pgoff srcva ≠ 0 then []
        else if badPerm perm then []
        else
          match (k.envs cur).envPgdir with
          | none => []
          | some curPgdir =>
              match pageLookup B k.mem curPgdir srcva with
              | some (some (p, t, j)) =>
                  if ¬ isSet (k.mem.phys t j) PTE_W ∧ isSet perm PTE_W then []
                  else if (k.envs e).envIpcDstva < UTOP then
                    match (k.envs e).envPgdir with
                    | some d =>
                        pageInsertEvs B (flushes k (some cur)) k.mem d p (k.envs e).envIpcDstva perm
                    | none => []
                  else []
              | _ => []
      else []

def syscallEvs (k : Kern) (cur : Slot) (syscallno a1 a2 a3 a4 a5 : Word) : List Ev :=
  match sysNo syscallno with
  | some .cputs => userMemAssertEvs B k cur a1 a2 PTE_P
  | some .envDestroy => sysEnvDestroyEvs B k cur a1
  | some .exofork => envAllocEvs B k
  | some .pageAlloc => sysPageAllocEvs B k cur a1 a2 a3
  | some .pageMap => sysPageMapEvs B k cur a1 a2 a3 a4 a5
  | some .pageUnmap => sysPageUnmapEvs B k cur a1 a2
  | some .ipcTrySend => sysIpcTrySendEvs B k cur a1 a3 a4
  | _ => []

/-! ## Traps and the scheduler -/

/-- The bytes that `page_fault_handler` stores. -/
def storeBytesEvs (m : Mem) (d : ℕ) : Word → List (BitVec 8) → List Ev
  | _, [] => []
  | va, b :: bs =>
      match m.storeByte d va b with
      | some m => .store m.phys :: storeBytesEvs m d (va + 1) bs
      | none => []

def pageFaultHandlerEvs (k : Kern) (cur : Slot) (faultVa : Word) : List Ev :=
  let env := k.envs cur
  let tf := env.envTf
  if env.envPgfaultUpcall ≠ 0 then
    let esp := if UXSTACKTOP - 0x1000 ≤ tf.esp ∧ tf.esp ≤ UXSTACKTOP then tf.esp - 4
      else UXSTACKTOP
    let esp := esp - 52
    let k := k.modEnv cur fun env ↦ { env with envTf := { tf with esp := esp } }
    userMemAssertEvs B k cur esp 52 (PTE_U ||| PTE_P ||| PTE_W) ++
      match userMemAssert B k cur esp 52 (PTE_U ||| PTE_P ||| PTE_W), env.envPgdir with
      | some (.ret (), k), some d => storeBytesEvs k.mem d esp (utfBytes faultVa tf)
      | _, _ => []
  else envDestroyEvs B k (some cur) cur

def trapDispatchEvs (k : Kern) (cur : Slot) (cr2 : Word) : List Ev :=
  let tf := (k.envs cur).envTf
  if tf.trapno = IRQ_OFFSET + IRQ_SPURIOUS then []
  else if tf.trapno = T_PGFLT then pageFaultHandlerEvs B k cur cr2
  else if tf.trapno = T_BRKPT then []
  else if tf.trapno = T_SYSCALL then
    syscallEvs B k cur tf.regs.eax tf.regs.edx tf.regs.ecx tf.regs.ebx tf.regs.edi tf.regs.esi
  else if tf.trapno = IRQ_OFFSET + IRQ_TIMER then []
  else envDestroyEvs B k (some cur) cur

/-- `env_run` reloads `%cr3` if it switches to another environment. -/
def envRunEvs (s : Smp) (c : CpuId) (e : Slot) : List Ev :=
  if s.curenv c ≠ some e then
    match (s.kern.envs e).envPgdir with
    | some d => [.load d]
    | none => []
  else []

def schedHaltEvs : List Ev := [.load B.kernPgdir]

def schedYieldEvs (s : Smp) (c : CpuId) : List Ev :=
  match schedPick s c with
  | some e => envRunEvs s c e
  | none =>
      match s.curenv c with
      | some e => if s.status e = .running then envRunEvs s c e else schedHaltEvs B
      | none => schedHaltEvs B

def trapTailEvs (s : Smp) (c : CpuId) : List Ev :=
  match s.curenv c with
  | some e => if s.status e = .running then envRunEvs s c e else schedYieldEvs B s c
  | none => schedYieldEvs B s c

/-- `yieldAs`; `env_free` has loaded `kern_pgdir` already. -/
def yieldAsEvs (s : Smp) (c : CpuId) (cur : Option Slot) : List Ev :=
  match cur with
  | some _ => schedYieldEvs B s c
  | none => schedYieldEvs B (s.modCpu c fun cpu ↦ { cpu with cpuEnv := none, cr3 := B.kernPgdir }) c

def trapUserEvs (s : Smp) (c : CpuId) (tf : Trapframe) (cr2 getc : Word) : List Ev :=
  let s := s.modCpu c fun cpu ↦ { cpu with cpuStatus := .started }
  match s.curenv c with
  | none => []
  | some cur =>
      if s.status cur = .dying then
        envFreeEvs B s.kern (some cur) cur ++
          match envFree B s.kern cur with
          | some k => yieldAsEvs B (s.setKern k) c none
          | none => []
      else
        let k := s.kern.modEnv cur fun env ↦ { env with envTf := tf }
        trapDispatchEvs B k cur cr2 ++
          match trapDispatch B k cur cr2 getc with
          | some (.ret, k) => trapTailEvs B (s.setKern k) c
          | some (.yield cur, k) => yieldAsEvs B (s.setKern k) c cur
          | some (.run, k) => envRunEvs (s.setKern k) c cur
          | none => []

def trapHaltedEvs (s : Smp) (c : CpuId) (trapno : Word) : List Ev :=
  let s := s.modCpu c fun cpu ↦ { cpu with cpuStatus := .started }
  if trapno = IRQ_OFFSET + IRQ_SPURIOUS then trapTailEvs B s c
  else if trapno = IRQ_OFFSET + IRQ_TIMER then schedYieldEvs B s c
  else []

/-- `mp_main` loads `kern_pgdir` first. -/
def cpuStartEvs (s : Smp) (c : CpuId) : List Ev :=
  .load B.kernPgdir ::
    schedYieldEvs B (s.modCpu c fun cpu ↦
      { cpu with cpuStatus := .started, cr3 := B.kernPgdir }) c

/-- What a kernel entry does about translations on its CPU. -/
def Entry.evs (s : Smp) : Entry → List Ev
  | .trap c tf cr2 getc => trapUserEvs B s c tf cr2 getc
  | .wake c trapno => trapHaltedEvs B s c trapno
  | .start c => cpuStartEvs B s c

end

end Jos
