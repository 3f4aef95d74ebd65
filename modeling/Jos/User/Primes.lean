import Jos.Libc.Fork
import Jos.Lib.Sieve

/-!
# The prime sieve (`user/primes.c`, `lib/ipc.c`)

Each environment of `user/primes` is a step function on a program counter, as `fork` is: a step is
one system call, together with the local work next to it.  Any number of environments run, and the
kernel may switch between them at any time.

The programs share no memory, and messages without a page do not depend on it.  So the memory of the
system may change in any way: by stores, by the copying of `fork`, and by the page fault handlers.
-/

namespace Jos

open Jos.Lib

/-! ## Messages -/

/-- The address that stands for no page. -/
def ipcPage (pg : Word) : Word := if pg = 0 then KERNBASE else pg

/-- What `ipc_recv` returns, and what it stores for its caller. -/
structure IpcMsg where
  value : Word
  fromEnv : Word
  perm : Word

/-- The system call of `ipc_recv`. -/
def ipcRecv (k : Kern) (cur : Slot) (pg : Word) : Ctl Word × Kern := sysIpcRecv k cur (ipcPage pg)

/-- The rest of `ipc_recv`, when `sys_ipc_recv` has returned `r`. -/
def ipcRecvEnd (k : Kern) (thisenv : Slot) (r : Word) : IpcMsg :=
  if r.toInt < 0 then ⟨r, 0, 0⟩
  else ⟨(k.envs thisenv).envIpcValue, (k.envs thisenv).envIpcFrom, (k.envs thisenv).envIpcPerm⟩

/-- How a round of the loop in `ipc_send` ends. -/
inductive SendRound where
  | sent | retry | panic

/-- A round of the loop in `ipc_send`. -/
def ipcSend (B : Machine) (k : Kern) (cur : Slot) (toEnv val pg perm : Word) :
    Option (SendRound × Kern) := do
  let (r, k) ← sysIpcTrySend B k cur toEnv val (ipcPage pg) perm
  return (if r = 0 then .sent else if r ≠ -E_IPC_NOT_RECV then .panic else .retry, k)

/-! ## The program -/

/-- Where an environment of `user/primes` is. -/
inductive PrimesPc where
  /-- `umain`, in `fork` -/
  | mainFork (f : ForkPc)
  /-- `ipc_send(id, i, 0, 0)` in `umain` -/
  | feed (id i : Word)
  | feedYield (id i : Word)
  /-- a child in `fork`, which fixes its `thisenv` -/
  | born
  /-- `p = ipc_recv(&envid, 0, 0)` in `primeproc` -/
  | top
  | first
  | print (p : Word)
  | primeFork (p : Word) (f : ForkPc)
  /-- `i = ipc_recv(&envid, 0, 0)` in `primeproc` -/
  | loop (p id : Word)
  | next (p id : Word)
  | test (p id i : Word)
  /-- `ipc_send(id, i, 0, 0)` in `primeproc` -/
  | send (p id i : Word)
  | sendYield (p id i : Word)
  | panic

/-- An environment of `user/primes`, with the values that `ipc_recv` has returned, what `cprintf`
has printed, and the values for which `ipc_send` has returned. -/
structure Primes where
  pc : PrimesPc
  thisenv : Slot
  heard : List Word := []
  printed : List (ℕ × Word) := []
  sent : List Word := []

/-- `ipc_recv` has returned `p`, the first number. -/
def Primes.hearFirst (x : Primes) (p : Word) : Primes :=
  { x with pc := .print p, heard := x.heard ++ [p] }

/-- `ipc_recv` has returned `i`. -/
def Primes.hearNext (x : Primes) (p id i : Word) : Primes :=
  { x with pc := .test p id i, heard := x.heard ++ [i] }

/-- A step of the environment `cur`.  The child of a `fork` has a page fault handler, as its parent
had one when it was copied.  Where the behaviour of C is undefined, there is no step. -/
def primesStep (B : Machine) (entry : Word) (cur : Slot) (k : Kern) (x : Primes) :
    Option (Primes × Kern) :=
  match x.pc with
  | .mainFork (.done id) => some ({ x with pc := .feed id 2 }, k)
  | .mainFork f => do
      let (f, k) ← forkStep B entry cur k f
      return ({ x with pc := .mainFork f }, k)
  | .feed id i => do
      match ← ipcSend B k cur id i 0 0 with
      | (.sent, k) =>
          if i.toNat + 1 < 2 ^ 31 then
            return ({ x with pc := .feed id (i + 1), sent := x.sent ++ [i] }, k)
          else none
      | (.retry, k) => return ({ x with pc := .feedYield id i }, k)
      | (.panic, k) => return ({ x with pc := .panic }, k)
  | .feedYield id i => some ({ x with pc := .feed id i }, k)
  | .born => some ({ x with pc := .top, thisenv := envx (k.envs cur).envId }, k)
  | .top =>
      match ipcRecv k cur 0 with
      | (.ret r, k) => some (x.hearFirst (ipcRecvEnd k x.thisenv r).value, k)
      | (.yield _, k) => some ({ x with pc := .first }, k)
  | .first => some (x.hearFirst (ipcRecvEnd k x.thisenv (k.envs cur).envTf.regs.eax).value, k)
  | .print p => some ({ x with
      pc := .primeFork p (.start true)
      printed := x.printed ++ [((k.envs x.thisenv).envCpunum, p)] }, k)
  | .primeFork p (.done id) => some ({ x with pc := .loop p id }, k)
  | .primeFork p f => do
      let (f, k) ← forkStep B entry cur k f
      return ({ x with pc := .primeFork p f }, k)
  | .loop p id =>
      match ipcRecv k cur 0 with
      | (.ret r, k) => some (x.hearNext p id (ipcRecvEnd k x.thisenv r).value, k)
      | (.yield _, k) => some ({ x with pc := .next p id }, k)
  | .next p id =>
      some (x.hearNext p id (ipcRecvEnd k x.thisenv (k.envs cur).envTf.regs.eax).value, k)
  | .test p id i =>
      if p = 0 ∨ i = BitVec.intMin 32 ∧ p = -1 then none
      else if i.srem p ≠ 0 then some ({ x with pc := .send p id i }, k)
      else some ({ x with pc := .loop p id }, k)
  | .send p id i => do
      match ← ipcSend B k cur id i 0 0 with
      | (.sent, k) => return ({ x with pc := .loop p id, sent := x.sent ++ [i] }, k)
      | (.retry, k) => return ({ x with pc := .sendYield p id i }, k)
      | (.panic, k) => return ({ x with pc := .panic }, k)
  | .sendYield p id i => some ({ x with pc := .send p id i }, k)
  | .panic => none

/-! ## All environments -/

namespace PrimesPc

/-- The child of a `fork` that is complete. -/
def forked : PrimesPc → Option Word
  | .mainFork (.done child) => some child
  | .primeFork _ (.done child) => some child
  | _ => none

/-- A `fork` has failed. -/
def ForkFailed : PrimesPc → Prop
  | .mainFork .panic => True
  | .primeFork _ .panic => True
  | _ => False

end PrimesPc

/-- The kernel, and the environments of `user/primes`. -/
structure PrimesSys where
  kern : Kern
  procs : Slot → Option Primes

/-- The image of a child is that of its parent, and it starts in the `fork` of its parent. -/
def Primes.image (x : Primes) : Primes := { pc := .born, thisenv := x.thisenv }

/-- Environment `e` made a step. -/
def PrimesSys.after (x : PrimesSys) (e : Slot) (p : Primes) (k : Kern) : PrimesSys where
  kern := k
  procs :=
    match p.pc.forked with
    | some child => Function.update (Function.update x.procs e p) (envx child) p.image
    | none => Function.update x.procs e p

/-- The environment runs, or waits for a CPU. -/
def Env.Awake (env : Env) : Prop := env.envStatus = .running ∨ env.envStatus = .runnable

/-- A step of a running environment whose `fork` does not fail, the scheduler, or the memory. -/
inductive PrimesStep (B : Machine) (entry : Word) (x : PrimesSys) : PrimesSys → Prop
  | own {e : Slot} {p p' : Primes} {k' : Kern} (proc : x.procs e = some p)
      (running : (x.kern.envs e).envStatus = .running)
      (run : primesStep B entry e x.kern p = some (p', k')) (forks : ¬ p'.pc.ForkFailed) :
      PrimesStep B entry x (x.after e p' k')
  | switch (e : Slot) (status : EnvStatus) (runs : Word) (cpunum : ℕ)
      (before : (x.kern.envs e).Awake) (after : status = .running ∨ status = .runnable) :
      PrimesStep B entry x { x with kern := x.kern.modEnv e fun env ↦
        { env with envStatus := status, envRuns := runs, envCpunum := cpunum } }
  | memory (m : Mem) : PrimesStep B entry x { x with kern := x.kern.setMem m }

/-- Any number of steps. -/
def PrimesRun (B : Machine) (entry : Word) : PrimesSys → PrimesSys → Prop :=
  Relation.ReflTransGen (PrimesStep B entry)

/-- `g` is about to start with `umain`, and there are no other environments of `user/primes`. -/
structure PrimesStart (k : Kern) (g : Slot) (x : PrimesSys) : Prop where
  kern : x.kern = k
  ready : (k.envs g).envStatus = .runnable
  main : x.procs g = some { pc := .mainFork (.start false), thisenv := g }
  alone : ∀ e, e ≠ g → x.procs e = none

/-- `e` is number `n` in the chain that starts with the child of `g`. -/
inductive IsPrimeproc (x : PrimesSys) (g : Slot) : ℕ → Slot → Prop
  | first {e : Slot} (proc : x.procs e ≠ none)
      (parent : (x.kern.envs e).envParentId = (x.kern.envs g).envId) : IsPrimeproc x g 0 e
  | next {n : ℕ} {e e' : Slot} (left : IsPrimeproc x g n e) (proc : x.procs e' ≠ none)
      (parent : (x.kern.envs e').envParentId = (x.kern.envs e).envId) :
      IsPrimeproc x g (n + 1) e'

end Jos
