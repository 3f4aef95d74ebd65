import Jos.Kern.Trap
import Mathlib.Logic.Relation

/-!
# The big kernel lock (`kern/spinlock.c`)

A kernel entry takes the lock in one function and gives it back in another: `i386_init`,
`mp_main` and two places of `trap` lock, `env_run` and `sched_halt` unlock.  Here every CPU has a
program counter of its own and every access to the lock or to a `cpu_status` is one step.  A
branch that looks at the environments may go either way.

`Pc.Inside` is where a CPU should hold the lock.  `CpuSys.Inv` says that it holds it exactly
there, and that `cpu_status` is `CPU_HALTED` exactly from `sched_halt` up to the next interrupt:
this is what lets `trap` decide whether to lock by the old `cpu_status` and by the privilege
level of the frame.
-/

namespace Jos

/-! ## The code -/

/-- Where a CPU is in `spin_lock`: `holding` reads `locked`, then `cpu`. -/
inductive SpinLock where
  | locked
  | cpu
  | xchg
  | record

/-- Where a CPU is in `spin_unlock`. -/
inductive SpinUnlock where
  | locked
  | cpu
  | clear
  | xchg

/-- The calls of `lock_kernel`. -/
inductive LockCall where
  | i386Init
  | mpMain
  | wake (cs : BitVec 16)
  | user

/-- The calls of `unlock_kernel`. -/
inductive UnlockCall where
  | envRun
  | schedHalt

/-- Where a CPU is.  `cs` is the code segment of the trap frame and `i` the loop variable of
`boot_aps`. -/
inductive Pc where
  | unused
  | mpMain
  | spinLock (pos : SpinLock) (call : LockCall)
  | spinUnlock (pos : SpinUnlock) (call : UnlockCall)
  | bootAps (i : ℕ)
  | bootWait (i : ℕ)
  | envCreate
  | trap (cs : BitVec 16)
  | trapMode (cs : BitVec 16)
  | trapUser
  | trapDispatch
  | trapTail
  | schedYield
  | schedHalt
  | envRun
  | envPopTf
  | user
  | sti
  | halted
  | panic

/-- What follows a call of `lock_kernel`. -/
def LockCall.next : LockCall → Pc
  | .i386Init => .bootAps 0
  | .mpMain => .schedYield
  | .wake cs => .trapMode cs
  | .user => .trapUser

/-- What follows a call of `unlock_kernel`. -/
def UnlockCall.next : UnlockCall → Pc
  | .envRun => .envPopTf
  | .schedHalt => .sti

/-- The trap came from user mode. -/
def fromUser (cs : BitVec 16) : Bool := cs &&& 3 = 3

/-- The moves that touch neither the lock nor a `cpu_status`.  A CPU leaves user mode by any trap,
and `hlt` by an interrupt. -/
def Pc.mayGo : Pc → Pc → Bool
  | .envCreate, .schedYield => true
  -- the environment is a zombie, or not
  | .trapUser, .schedYield | .trapUser, .trapDispatch => true
  -- `trap_dispatch` returns, or calls `sched_yield`, or `env_run` for a page fault
  | .trapDispatch, .trapTail | .trapDispatch, .schedYield | .trapDispatch, .envRun => true
  | .trapTail, .envRun | .trapTail, .schedYield => true
  | .schedYield, .envRun | .schedYield, .schedHalt => true
  | .envRun, .spinUnlock .locked .envRun => true
  | .envPopTf, .user => true
  | .user, .trap cs => fromUser cs
  | .sti, .halted => true
  | .halted, .trap cs => cs = GD_KT
  | _, _ => false

/-- `struct spinlock`, without the fields for its messages. -/
structure Spinlock (n : ℕ) where
  locked : Bool := false
  cpu : Option (Fin n) := none

/-- A machine with `n` CPUs.  `inside` is a record of the calls: the CPU has locked and has not
unlocked since. -/
structure CpuSys (n : ℕ) where
  lock : Spinlock n
  cpuStatus : Fin n → CpuStatus
  pc : Fin n → Pc
  inside : Fin n → Bool

namespace CpuSys

variable {n : ℕ} {bootcpu : Fin n}

def goto (s : CpuSys n) (c : Fin n) (p : Pc) : CpuSys n :=
  { s with pc := Function.update s.pc c p }

def setStatus (s : CpuSys n) (c : Fin n) (st : CpuStatus) : CpuSys n :=
  { s with cpuStatus := Function.update s.cpuStatus c st }

def setInside (s : CpuSys n) (c : Fin n) (b : Bool) : CpuSys n :=
  { s with inside := Function.update s.inside c b }

def setLocked (s : CpuSys n) (b : Bool) : CpuSys n :=
  { s with lock := { s.lock with locked := b } }

def setHolder (s : CpuSys n) (c : Option (Fin n)) : CpuSys n :=
  { s with lock := { s.lock with cpu := c } }

/-- One step of CPU `c`, which goes to `p` where the code branches. -/
def step (s : CpuSys n) (c : Fin n) (p : Pc) : Option (CpuSys n) :=
  match s.pc c with
  -- `spin_lock`
  | .spinLock .locked call =>
      some (s.goto c (.spinLock (if s.lock.locked then .cpu else .xchg) call))
  | .spinLock .cpu call =>
      some (s.goto c (if s.lock.cpu = some c then .panic else .spinLock .xchg call))
  | .spinLock .xchg call =>
      if s.lock.locked then some s
      else some (((s.setLocked true).setInside c true).goto c (.spinLock .record call))
  | .spinLock .record call => some ((s.setHolder (some c)).goto c call.next)
  -- `spin_unlock`
  | .spinUnlock .locked call =>
      some (s.goto c (if s.lock.locked then .spinUnlock .cpu call else .panic))
  | .spinUnlock .cpu call =>
      some (s.goto c (if s.lock.cpu = some c then .spinUnlock .clear call else .panic))
  | .spinUnlock .clear call => some ((s.setHolder none).goto c (.spinUnlock .xchg call))
  | .spinUnlock .xchg call =>
      some (((s.setLocked false).setInside c false).goto c call.next)
  -- `boot_aps` starts the CPUs one at a time
  | .bootAps i =>
      if h : i < n then
        if ⟨i, h⟩ = c then some (s.goto c (.bootAps (i + 1)))
        else some ((s.goto ⟨i, h⟩ .mpMain).goto c (.bootWait i))
      else some (s.goto c .envCreate)
  | .bootWait i =>
      if ∃ h : i < n, s.cpuStatus ⟨i, h⟩ = .started then some (s.goto c (.bootAps (i + 1)))
      else some s
  | .mpMain => some ((s.setStatus c .started).goto c (.spinLock .locked .mpMain))
  -- `trap`
  | .trap cs =>
      some ((s.setStatus c .started).goto c
        (if s.cpuStatus c = .halted then .spinLock .locked (.wake cs) else .trapMode cs))
  | .trapMode cs =>
      some (s.goto c (if fromUser cs then .spinLock .locked .user else .trapDispatch))
  -- `sched_halt`
  | .schedHalt => some ((s.setStatus c .halted).goto c (.spinUnlock .locked .schedHalt))
  | q => if q.mayGo p then some (s.goto c p) else none

/-- The machine when `i386_init` calls `lock_kernel`: `mp_init` has marked the boot CPU. -/
def boot (bootcpu : Fin n) : CpuSys n where
  lock := {}
  cpuStatus c := if c = bootcpu then .started else .unused
  pc c := if c = bootcpu then .spinLock .locked .i386Init else .unused
  inside _ := false

/-- Any interleaving of the steps of the CPUs. -/
def Steps : CpuSys n → CpuSys n → Prop :=
  Relation.ReflTransGen fun s s' ↦ ∃ c p, s.step c p = some s'

/-- The steps of a schedule. -/
def runSchedule (s : CpuSys n) : List (Fin n × Pc) → Option (CpuSys n)
  | [] => some s
  | (c, p) :: rest => do (← s.step c p).runSchedule rest

/-- The discipline of the big kernel lock. -/
structure Disciplined (s : CpuSys n) : Prop where
  mutex : ∀ c d, s.inside c → s.inside d → c = d
  lock : ∀ c call, s.pc c = .spinLock .locked call → ¬ s.inside c
  unlock : ∀ c call, s.pc c = .spinUnlock .locked call → s.inside c
  user : ∀ c, s.pc c = .user → ¬ s.inside c
  halted : ∀ c, s.pc c = .halted → ¬ s.inside c
  /-- The checks of `DEBUG_SPINLOCK` succeed. -/
  panic : ∀ c, s.pc c ≠ .panic

end CpuSys

/-! ## Where the lock is held -/

namespace Pc

/-- Between the two calls.  A CPU that was halted has the lock when it looks at the frame. -/
def Inside : Pc → Bool
  | .spinLock .record _ | .spinUnlock _ _ | .bootAps _ | .bootWait _ | .envCreate | .trapUser
  | .trapDispatch | .trapTail | .schedYield | .schedHalt | .envRun => true
  | .trapMode cs => ¬ fromUser cs
  | _ => false

/-- Where `kernel_lock.cpu` is the CPU. -/
def Holder : Pc → Bool
  | .spinLock .record _ | .spinUnlock .xchg _ => false
  | p => p.Inside

theorem inside_of_holder {p : Pc} (h : p.Holder) : p.Inside := by
  unfold Holder at h
  split at h
  · rfl
  · rfl
  · exact h

/-- Where the CPU's `cpu_status` is `CPU_HALTED`. -/
def Halting : Pc → Bool
  | .spinUnlock _ .schedHalt | .sti | .halted => true
  | .trap cs => ¬ fromUser cs
  | _ => false

/-- The number of CPUs that `boot_aps` is done with. -/
def booted : Pc → Option ℕ
  | .spinLock _ .i386Init => some 0
  | .bootAps i => some i
  | .bootWait i => some (i + 1)
  | _ => none

/-- A frame from kernel mode locks only in `trap`, one from user mode only after it. -/
def Proper : Pc → Prop
  | .unused | .panic => False
  | .spinLock _ (.wake cs) => ¬ fromUser cs
  | _ => True

/-- Going from `q` to `p` changes nothing about the lock. -/
structure Like (q p : Pc) : Prop where
  run : q ≠ .unused
  inside : p.Inside = q.Inside
  holder : p.Holder = q.Holder
  halting : p.Halting = q.Halting
  booted : ∀ i, p.booted = some i → ∃ j ≤ i, q.booted = some j
  proper : p.Proper

theorem like_of_mayGo {q p : Pc} (h : q.mayGo p) : Like q p := by
  unfold mayGo at h
  split at h
  case h_13 cs => exact ⟨nofun, rfl, rfl, by simp [Halting, h], nofun, trivial⟩
  case h_15 cs =>
    obtain rfl : cs = GD_KT := by simpa using h
    exact ⟨nofun, rfl, rfl, rfl, nofun, trivial⟩
  case h_16 => cases h
  all_goals exact ⟨nofun, rfl, rfl, rfl, nofun, trivial⟩

end Pc

namespace CpuSys

variable {n : ℕ} {bootcpu : Fin n} {s s' : CpuSys n} {c : Fin n} {p : Pc}

@[simp] theorem pc_goto (d : Fin n) : (s.goto c p).pc d = if d = c then p else s.pc d := by
  simp [goto, Function.update_apply]
@[simp] theorem lock_goto : (s.goto c p).lock = s.lock := rfl
@[simp] theorem inside_goto : (s.goto c p).inside = s.inside := rfl
@[simp] theorem cpuStatus_goto : (s.goto c p).cpuStatus = s.cpuStatus := rfl

section

variable {st : CpuStatus} {b : Bool} {o : Option (Fin n)}

@[simp] theorem cpuStatus_setStatus (d : Fin n) :
    (s.setStatus c st).cpuStatus d = if d = c then st else s.cpuStatus d := by
  simp [setStatus, Function.update_apply]
@[simp] theorem pc_setStatus : (s.setStatus c st).pc = s.pc := rfl
@[simp] theorem lock_setStatus : (s.setStatus c st).lock = s.lock := rfl
@[simp] theorem inside_setStatus : (s.setStatus c st).inside = s.inside := rfl

@[simp] theorem inside_setInside (d : Fin n) :
    (s.setInside c b).inside d = if d = c then b else s.inside d := by
  simp [setInside, Function.update_apply]
@[simp] theorem pc_setInside : (s.setInside c b).pc = s.pc := rfl
@[simp] theorem lock_setInside : (s.setInside c b).lock = s.lock := rfl
@[simp] theorem cpuStatus_setInside : (s.setInside c b).cpuStatus = s.cpuStatus := rfl

@[simp] theorem lock_setLocked : (s.setLocked b).lock = { s.lock with locked := b } := rfl
@[simp] theorem pc_setLocked : (s.setLocked b).pc = s.pc := rfl
@[simp] theorem inside_setLocked : (s.setLocked b).inside = s.inside := rfl
@[simp] theorem cpuStatus_setLocked : (s.setLocked b).cpuStatus = s.cpuStatus := rfl

@[simp] theorem lock_setHolder : (s.setHolder o).lock = { s.lock with cpu := o } := rfl
@[simp] theorem pc_setHolder : (s.setHolder o).pc = s.pc := rfl
@[simp] theorem inside_setHolder : (s.setHolder o).inside = s.inside := rfl
@[simp] theorem cpuStatus_setHolder : (s.setHolder o).cpuStatus = s.cpuStatus := rfl

end

theorem goto_comm {d : Fin n} {q : Pc} (h : d ≠ c) :
    (s.goto d q).goto c p = (s.goto c p).goto d q := by
  simp only [goto]
  rw [Function.update_comm h]

/-- The invariant of the lock. -/
structure Inv (bootcpu : Fin n) (s : CpuSys n) : Prop where
  inside : ∀ c, s.inside c = (s.pc c).Inside
  mutex : ∀ c d, s.inside c → s.inside d → c = d
  locked : ∀ c, s.inside c → s.lock.locked
  holder : ∀ c, s.lock.cpu = some c ↔ (s.pc c).Holder
  status : ∀ c, s.cpuStatus c = .halted ↔ (s.pc c).Halting
  /-- The CPUs that `boot_aps` has not come to are still to start. -/
  booted : ∀ c i, (s.pc c).booted = some i →
    c = bootcpu ∧ ∀ d : Fin n, d ≠ c → i ≤ d → s.pc d = .unused
  proper : ∀ c, s.pc c = .unused ∨ (s.pc c).Proper

theorem inv_boot : Inv bootcpu (boot bootcpu) where
  inside c := by by_cases h : c = bootcpu <;> simp [boot, h, Pc.Inside]
  mutex c d h := by simp [boot] at h
  locked c h := by simp [boot] at h
  holder c := by by_cases h : c = bootcpu <;> simp [boot, h, Pc.Holder, Pc.Inside]
  status c := by by_cases h : c = bootcpu <;> simp [boot, h, Pc.Halting]
  booted c i h := by
    by_cases hc : c = bootcpu
    · exact ⟨hc, fun d hd _ ↦ by simp [boot, hc ▸ hd]⟩
    · simp [boot, hc, Pc.booted] at h
  proper c := by by_cases h : c = bootcpu <;> simp [boot, h, Pc.Proper]

namespace Inv

/-- Only the boot CPU is in `boot_aps`, and it counts up. -/
theorem booted_goto (h : Inv bootcpu s) (hrun : s.pc c ≠ .unused)
    (hp : ∀ i, p.booted = some i → ∃ j ≤ i, (s.pc c).booted = some j) (d : Fin n) (i : ℕ)
    (hd : ((s.goto c p).pc d).booted = some i) :
    d = bootcpu ∧ ∀ d', d' ≠ d → i ≤ d' → (s.goto c p).pc d' = .unused := by
  rw [pc_goto] at hd
  split at hd
  · next hdc =>
      subst hdc
      obtain ⟨j, hj, hb⟩ := hp i hd
      refine ⟨(h.booted d j hb).1, fun d' hne hi ↦ ?_⟩
      rw [pc_goto, if_neg hne]
      exact (h.booted d j hb).2 d' hne (hj.trans hi)
  · refine ⟨(h.booted d i hd).1, fun d' hne hi ↦ ?_⟩
    have hd' := (h.booted d i hd).2 d' hne hi
    rw [pc_goto, if_neg]
    · exact hd'
    · rintro rfl
      exact hrun hd'

theorem proper_goto (h : Inv bootcpu s) (hp : p.Proper) (d : Fin n) :
    (s.goto c p).pc d = .unused ∨ ((s.goto c p).pc d).Proper := by
  rw [pc_goto]
  split
  · exact .inr hp
  · exact h.proper d

theorem inside_pc_goto (h : Inv bootcpu s) (hp : p.Inside = (s.pc c).Inside) (d : Fin n) :
    s.inside d = ((s.goto c p).pc d).Inside := by
  rw [pc_goto]
  split
  · next hd => rw [hd, hp]; exact h.inside c
  · exact h.inside d

theorem holder_goto (h : Inv bootcpu s) (hp : p.Holder = (s.pc c).Holder) (d : Fin n) :
    s.lock.cpu = some d ↔ ((s.goto c p).pc d).Holder := by
  rw [pc_goto]
  split
  · next hd => rw [hd, hp]; exact h.holder c
  · exact h.holder d

theorem status_goto (h : Inv bootcpu s) (hp : p.Halting = (s.pc c).Halting) (d : Fin n) :
    s.cpuStatus d = .halted ↔ ((s.goto c p).pc d).Halting := by
  rw [pc_goto]
  split
  · next hd => rw [hd, hp]; exact h.status c
  · exact h.status d

/-- `kernel_lock.cpu` is nobody else than the CPU that is inside. -/
theorem not_holder (h : Inv bootcpu s) (hc : s.inside c) {d : Fin n} (hd : d ≠ c) :
    ¬ (s.pc d).Holder :=
  fun hholder ↦ hd (h.mutex d c (by rw [h.inside]; exact Pc.inside_of_holder hholder) hc)

/-- A step that only goes on. -/
theorem goto_like (h : Inv bootcpu s) {q : Pc} (hpc : s.pc c = q) (hlike : q.Like p) :
    Inv bootcpu (s.goto c p) where
  inside := h.inside_pc_goto (by rw [hpc]; exact hlike.inside)
  mutex := h.mutex
  locked := h.locked
  holder := h.holder_goto (by rw [hpc]; exact hlike.holder)
  status := h.status_goto (by rw [hpc]; exact hlike.halting)
  booted := h.booted_goto (by rw [hpc]; exact hlike.run) (by rw [hpc]; exact hlike.booted)
  proper := h.proper_goto hlike.proper

/-- A step that stores the `cpu_status`. -/
theorem goto_status (h : Inv bootcpu s) (hrun : s.pc c ≠ .unused) {st : CpuStatus}
    (hinside : p.Inside = (s.pc c).Inside) (hholder : p.Holder = (s.pc c).Holder)
    (hstatus : st = .halted ↔ p.Halting) (hbooted : p.booted = none) (hp : p.Proper) :
    Inv bootcpu ((s.setStatus c st).goto c p) where
  inside := h.inside_pc_goto hinside
  mutex := h.mutex
  locked := h.locked
  holder := h.holder_goto hholder
  status d := by
    rw [pc_goto, cpuStatus_goto, cpuStatus_setStatus]
    split
    · exact hstatus
    · exact h.status d
  booted := h.booted_goto hrun fun i hi ↦ by rw [hbooted] at hi; cases hi
  proper := h.proper_goto hp

/-- The `xchg` of `spin_lock` finds the lock free. -/
theorem acquire {call : LockCall} (h : Inv bootcpu s) (hpc : s.pc c = .spinLock .xchg call)
    (hfree : s.lock.locked = false) :
    Inv bootcpu (((s.setLocked true).setInside c true).goto c (.spinLock .record call)) where
  inside d := by
    rw [pc_goto, inside_goto, inside_setInside]
    split
    · rfl
    · exact h.inside d
  mutex d e hd he := by
    have hnone : ∀ d, s.inside d = false := fun d ↦
      Bool.eq_false_iff.mpr fun hd ↦ by simp [h.locked d hd] at hfree
    simp only [inside_goto, inside_setInside, inside_setLocked, hnone, Bool.if_false_right,
      Bool.and_true, decide_eq_true_eq] at hd he
    rw [hd, he]
  locked _ _ := rfl
  holder := h.holder_goto (by rw [hpc]; rfl)
  status := h.status_goto (by rw [hpc]; rfl)
  booted := by
    refine h.booted_goto (by simp [hpc]) fun i hi ↦ ⟨i, le_rfl, ?_⟩
    rw [hpc]
    cases call with
    | i386Init => exact hi
    | mpMain | wake | user => simp [Pc.booted] at hi
  proper := by
    have hp := (h.proper c).resolve_left (by simp [hpc])
    rw [hpc] at hp
    refine h.proper_goto ?_
    cases call with
    | wake cs => exact hp
    | i386Init | mpMain | user => trivial

/-- `spin_lock` records its caller. -/
theorem record {call : LockCall} (h : Inv bootcpu s) (hpc : s.pc c = .spinLock .record call) :
    Inv bootcpu ((s.setHolder (some c)).goto c call.next) := by
  have hc : s.inside c := by rw [h.inside, hpc]; rfl
  have hp := (h.proper c).resolve_left (by simp [hpc])
  rw [hpc] at hp
  have hholder : call.next.Holder := by
    cases call with
    | i386Init | mpMain | user => rfl
    | wake cs => simpa [LockCall.next, Pc.Holder, Pc.Inside, Pc.Proper] using hp
  refine ⟨h.inside_pc_goto ?_, h.mutex, h.locked, fun d ↦ ?_, h.status_goto ?_, ?_, ?_⟩
  · rw [hpc]
    exact Pc.inside_of_holder hholder
  · rw [pc_goto]
    split
    · next hd => simp [hd, hholder]
    · next hd =>
        simp only [lock_goto, lock_setHolder, Option.some.injEq, pc_setHolder, Ne.symm hd,
          false_iff]
        exact h.not_holder hc hd
  · cases call <;> rw [hpc] <;> simp [Pc.Halting, LockCall.next]
  · refine h.booted_goto (by simp [hpc]) fun i hi ↦ ⟨i, le_rfl, ?_⟩
    rw [hpc]
    cases call with
    | i386Init => exact hi
    | mpMain | wake | user => simp [Pc.booted, LockCall.next] at hi
  · exact h.proper_goto (by cases call <;> trivial)

/-- `spin_unlock` forgets its caller. -/
theorem clear {call : UnlockCall} (h : Inv bootcpu s) (hpc : s.pc c = .spinUnlock .clear call) :
    Inv bootcpu ((s.setHolder none).goto c (.spinUnlock .xchg call)) where
  inside := h.inside_pc_goto (by rw [hpc]; rfl)
  mutex := h.mutex
  locked := h.locked
  holder d := by
    have hc : s.inside c := by rw [h.inside, hpc]; rfl
    rw [pc_goto]
    split
    · simp [Pc.Holder]
    · next hd =>
        simp only [lock_goto, lock_setHolder, reduceCtorEq, pc_setHolder, false_iff]
        exact h.not_holder hc hd
  status := h.status_goto (by rw [hpc]; cases call <;> rfl)
  booted := h.booted_goto (by simp [hpc]) fun i hi ↦ by simp [Pc.booted] at hi
  proper := h.proper_goto trivial

/-- The `xchg` of `spin_unlock`. -/
theorem release {call : UnlockCall} (h : Inv bootcpu s) (hpc : s.pc c = .spinUnlock .xchg call) :
    Inv bootcpu (((s.setLocked false).setInside c false).goto c call.next) := by
  have hc : s.inside c := by rw [h.inside, hpc]; rfl
  have hnone : ∀ d, ¬ (((s.setLocked false).setInside c false).goto c call.next).inside d := by
    intro d
    simp only [inside_goto, inside_setInside, inside_setLocked]
    split
    · simp
    · next hd => exact fun hin ↦ hd (h.mutex d c hin hc)
  refine ⟨fun d ↦ ?_, fun d e hd ↦ absurd hd (hnone d), fun d hd ↦ absurd hd (hnone d),
    h.holder_goto ?_, h.status_goto ?_, ?_, ?_⟩
  · rw [pc_goto, inside_goto, inside_setInside]
    split
    · cases call <;> rfl
    · exact h.inside d
  · rw [hpc]
    cases call <;> rfl
  · rw [hpc]
    cases call <;> rfl
  · exact h.booted_goto (by simp [hpc])
      fun i hi ↦ by cases call <;> simp [Pc.booted, UnlockCall.next] at hi
  · exact h.proper_goto (by cases call <;> trivial)

/-- A CPU that `boot_aps` has come to starts. -/
theorem start (h : Inv bootcpu s) (hpc : s.pc c = .unused)
    (hb : ∀ d i, (s.pc d).booted = some i → (c : ℕ) < i) : Inv bootcpu (s.goto c .mpMain) where
  inside := h.inside_pc_goto (by rw [hpc]; rfl)
  mutex := h.mutex
  locked := h.locked
  holder := h.holder_goto (by rw [hpc]; rfl)
  status := h.status_goto (by rw [hpc]; rfl)
  booted d i hd := by
    have hdc : d ≠ c := by
      rintro rfl
      simp [Pc.booted] at hd
    rw [pc_goto, if_neg hdc] at hd
    refine ⟨(h.booted d i hd).1, fun d' hne hi ↦ ?_⟩
    have hd'c : d' ≠ c := by
      rintro rfl
      exact absurd (hb d i hd) hi.not_gt
    rw [pc_goto, if_neg hd'c]
    exact (h.booted d i hd).2 d' hne hi
  proper := h.proper_goto trivial

/-- `boot_aps` starts a CPU and waits for it. -/
theorem startAp {i : ℕ} (h : Inv bootcpu s) (hpc : s.pc c = .bootAps i) (hi : i < n)
    (hne : (⟨i, hi⟩ : Fin n) ≠ c) :
    Inv bootcpu ((s.goto ⟨i, hi⟩ .mpMain).goto c (.bootWait i)) := by
  obtain ⟨hboot, hrest⟩ := h.booted c i (by rw [hpc]; rfl)
  have hwait : Inv bootcpu (s.goto c (.bootWait i)) :=
    h.goto_like hpc
      ⟨nofun, rfl, rfl, rfl, fun j hj ↦ ⟨i, by cases hj; exact i.le_succ, rfl⟩, trivial⟩
  have hstart : Inv bootcpu ((s.goto c (.bootWait i)).goto ⟨i, hi⟩ .mpMain) := by
    refine hwait.start (by rw [pc_goto, if_neg hne]; exact hrest _ hne le_rfl) fun d j hd ↦ ?_
    -- only the boot CPU counts
    obtain rfl : d = c := ((hwait.booted d j hd).1).trans hboot.symm
    rw [pc_goto, if_pos rfl] at hd
    cases hd
    exact i.lt_succ_self
  rwa [goto_comm hne]

/-- A loop of `boot_aps` goes on. -/
theorem bootNext {i : ℕ} (h : Inv bootcpu s) (hpc : s.pc c = .bootAps i ∨ s.pc c = .bootWait i) :
    Inv bootcpu (s.goto c (.bootAps (i + 1))) := by
  rcases hpc with hpc | hpc
  · exact h.goto_like hpc
      ⟨nofun, rfl, rfl, rfl, fun j hj ↦ ⟨i, by cases hj; exact i.le_succ, rfl⟩, trivial⟩
  · exact h.goto_like hpc
      ⟨nofun, rfl, rfl, rfl, fun j hj ↦ ⟨i + 1, by cases hj; exact le_rfl, rfl⟩, trivial⟩

/-- `spin_lock` goes on to the next check. -/
theorem lockNext {pos pos' : SpinLock} {call : LockCall} (h : Inv bootcpu s)
    (hpc : s.pc c = .spinLock pos call) (hpos : pos ≠ .record) (hpos' : pos' ≠ .record) :
    Inv bootcpu (s.goto c (.spinLock pos' call)) := by
  have hp := (h.proper c).resolve_left (by simp [hpc])
  rw [hpc] at hp
  refine h.goto_like hpc ⟨nofun, ?_, ?_, rfl, fun i hi ↦ ⟨i, le_rfl, ?_⟩, ?_⟩
  · cases pos <;> cases pos' <;> first | contradiction | rfl
  · cases pos <;> cases pos' <;> first | contradiction | rfl
  · cases call <;> exact hi
  · cases call <;> exact hp

/-- What a step keeps. -/
theorem step (h : Inv bootcpu s) (run : s.step c p = some s') : Inv bootcpu s' := by
  unfold CpuSys.step at run
  split at run
  case h_1 call hpc =>
    cases run
    exact h.lockNext hpc nofun (by split <;> nofun)
  case h_2 call hpc =>
    have hno : s.lock.cpu ≠ some c := by
      rw [ne_eq, h.holder, hpc]
      nofun
    rw [if_neg hno] at run
    cases run
    exact h.lockNext hpc nofun nofun
  case h_3 call hpc =>
    split at run
    · exact Option.some.inj run ▸ h
    · next hfree =>
        cases run
        exact h.acquire hpc (by simpa using hfree)
  case h_4 call hpc =>
    cases run
    exact h.record hpc
  case h_5 call hpc =>
    rw [if_pos (h.locked c (by rw [h.inside, hpc]; rfl))] at run
    cases run
    exact h.goto_like hpc ⟨nofun, rfl, rfl, by cases call <;> rfl, nofun, trivial⟩
  case h_6 call hpc =>
    rw [if_pos ((h.holder c).mpr (by rw [hpc]; rfl))] at run
    cases run
    exact h.goto_like hpc ⟨nofun, rfl, rfl, by cases call <;> rfl, nofun, trivial⟩
  case h_7 call hpc =>
    cases run
    exact h.clear hpc
  case h_8 call hpc =>
    cases run
    exact h.release hpc
  case h_9 i hpc =>
    split at run
    · next hi =>
        split at run
        · cases run
          exact h.bootNext (.inl hpc)
        · next hne =>
            cases run
            exact h.startAp hpc hi hne
    · cases run
      exact h.goto_like hpc ⟨nofun, rfl, rfl, rfl, nofun, trivial⟩
  case h_10 i hpc =>
    split at run
    · cases run
      exact h.bootNext (.inr hpc)
    · exact Option.some.inj run ▸ h
  case h_11 hpc =>
    cases run
    exact h.goto_status (by simp [hpc]) (by rw [hpc]; rfl) (by rw [hpc]; rfl) (by simp [Pc.Halting])
      rfl trivial
  case h_12 cs hpc =>
    have hst := h.status c
    rw [hpc] at hst
    cases run
    split
    · next hhalted =>
        have hkernel : fromUser cs = false := by simpa [Pc.Halting] using hst.mp hhalted
        exact h.goto_status (by simp [hpc]) (by rw [hpc]; rfl) (by rw [hpc]; rfl)
          (by simp [Pc.Halting]) rfl (by simp [Pc.Proper, hkernel])
    · next hstarted =>
        have huser : fromUser cs = true := by simpa [Pc.Halting] using mt hst.mpr hstarted
        exact h.goto_status (by simp [hpc]) (by simp [hpc, Pc.Inside, huser])
          (by simp [hpc, Pc.Holder, Pc.Inside, huser]) (by simp [Pc.Halting]) rfl trivial
  case h_13 cs hpc =>
    cases run
    split
    · next huser =>
        exact h.goto_like hpc ⟨nofun, by simp [Pc.Inside, huser],
          by simp [Pc.Holder, Pc.Inside, huser], rfl, nofun, trivial⟩
    · next hkernel =>
        exact h.goto_like hpc ⟨nofun, by simp [Pc.Inside, hkernel],
          by simp [Pc.Holder, Pc.Inside, hkernel], rfl, nofun, trivial⟩
  case h_14 hpc =>
    cases run
    exact h.goto_status (by simp [hpc]) (by rw [hpc]; rfl) (by rw [hpc]; rfl) (by simp [Pc.Halting])
      rfl trivial
  case h_15 =>
    split at run
    · next hgo =>
        cases run
        exact h.goto_like rfl (Pc.like_of_mayGo hgo)
    · cases run

/-- What a run keeps. -/
theorem steps (h : Inv bootcpu s) (run : Steps s s') : Inv bootcpu s' := by
  induction run with
  | refl => exact h
  | tail _ hstep ih =>
      obtain ⟨c, p, hstep⟩ := hstep
      exact ih.step hstep

/-- The invariant is what the discipline asks for. -/
theorem disciplined (h : Inv bootcpu s) : s.Disciplined where
  mutex := h.mutex
  lock c call hpc := by
    rw [h.inside, hpc]
    nofun
  unlock c call hpc := by
    rw [h.inside, hpc]
    rfl
  user c hpc := by
    rw [h.inside, hpc]
    nofun
  halted c hpc := by
    rw [h.inside, hpc]
    nofun
  panic c hpc := by
    have hp := h.proper c
    rw [hpc] at hp
    exact hp.elim nofun id

end Inv

/-- In every run of any number of CPUs the big kernel lock is taken and given back in turn, and
no CPU has it in user mode or while it is halted. -/
theorem big_lock_disciplined (run : Steps (boot bootcpu) s) : s.Disciplined :=
  (inv_boot.steps run).disciplined

theorem steps_of_runSchedule {xs : List (Fin n × Pc)} (h : s.runSchedule xs = some s') :
    Steps s s' := by
  induction xs generalizing s with
  | nil => exact Option.some.inj h ▸ .refl
  | cons x xs ih =>
      rw [runSchedule, Option.bind_eq_bind, Option.bind_eq_some_iff] at h
      obtain ⟨s₁, hstep, hrest⟩ := h
      exact (Relation.ReflTransGen.single ⟨x.1, x.2, hstep⟩).trans (ih hrest)

/-- Two CPUs start, the second one spins meanwhile; the first one drops into user mode, and the
second one halts and is woken up. -/
def twoCpus : List (Fin 2 × Pc) :=
  List.replicate 5 (0, .panic) ++ List.replicate 4 (1, .panic) ++ List.replicate 2 (0, .panic) ++
    [(0, .schedYield), (0, .envRun), (0, .spinUnlock .locked .envRun)] ++
    List.replicate 4 (0, .panic) ++ [(0, .user)] ++ List.replicate 2 (1, .panic) ++
    [(1, .schedHalt)] ++ List.replicate 5 (1, .panic) ++ [(1, .halted), (1, .trap GD_KT)] ++
    List.replicate 5 (1, .panic)

theorem big_lock_disciplined_two : ∃ s : CpuSys 2, Steps (boot 0) s ∧ s.Disciplined ∧
    s.pc 0 = .user ∧ s.pc 1 = .trapDispatch ∧ s.inside 1 := by
  have hrun : ((boot (0 : Fin 2)).runSchedule twoCpus).isSome := rfl
  obtain ⟨s, hs⟩ := Option.isSome_iff_exists.mp hrun
  have hpc : ((boot (0 : Fin 2)).runSchedule twoCpus).map (fun s ↦ (s.pc 0, s.pc 1, s.inside 1)) =
    some (.user, .trapDispatch, true) := rfl
  rw [hs] at hpc
  simp only [Option.map_some, Option.some.injEq, Prod.mk.injEq] at hpc
  have hsteps := steps_of_runSchedule hs
  exact ⟨s, hsteps, big_lock_disciplined hsteps, hpc⟩

end CpuSys

end Jos
