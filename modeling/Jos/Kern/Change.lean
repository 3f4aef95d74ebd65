import Jos.Kern.Effect

/-!
# What a kernel entry does to each environment

An entry changes one environment at most, apart from registers and the fields of a message that
nobody waits for.  `Change` lists what can become of that one, with the system call that did it;
`Entry.exec_moved` says that every entry is such a change followed by the scheduler.  The
invariants over whole runs are all derived from this.
-/

namespace Jos

variable {B : Machine} {s s' mid : Smp} {k k' : Kern} {c : CpuId} {e cur : Slot} {en : Entry}
  {tf : Trapframe}

/-! ## System calls of an entry -/

/-- The entry is a system call that `cur` makes on CPU `c`, with the arguments in `tf`. -/
def Entry.CalledBy (s : Smp) (en : Entry) (c : CpuId) (cur : Slot) (tf : Trapframe) : Prop :=
  (∃ cr2 getc, en = .trap c tf cr2 getc) ∧ s.curenv c = some cur ∧ s.status cur ≠ .dying ∧
    tf.trapno = T_SYSCALL

/-- `sys_env_set_status` stores `st` into `e`. -/
def Entry.SetsStatus (s : Smp) (en : Entry) (e : Slot) (st : EnvStatus) : Prop :=
  ∃ c cur tf, en.CalledBy s c cur tf ∧ sysNo tf.regs.eax = some .envSetStatus ∧
    envid2env s.kern cur tf.regs.edx true = some e ∧ newStatus tf.regs.ecx = some st

/-- `sys_env_destroy` destroys `e`. -/
def Entry.Destroys (s : Smp) (en : Entry) (e : Slot) : Prop :=
  ∃ c cur tf, en.CalledBy s c cur tf ∧ sysNo tf.regs.eax = some .envDestroy ∧
    envid2env s.kern cur tf.regs.edx true = some e

/-- `e` calls `sys_ipc_recv` with `dstva`, which is accepted. -/
def Entry.Recvs (s : Smp) (en : Entry) (e : Slot) (dstva : Word) : Prop :=
  ∃ c tf, en.CalledBy s c e tf ∧ sysNo tf.regs.eax = some .ipcRecv ∧ tf.regs.edx = dstva ∧
    ¬ (dstva < UTOP ∧ pgoff dstva ≠ 0)

/-- `cur` sends `value` to `e`, and `sys_ipc_try_send` returns 0. -/
def Entry.Sends (B : Machine) (s : Smp) (en : Entry) (cur e : Slot) (value : Word) : Prop :=
  ∃ c tf, en.CalledBy s c cur tf ∧ sysNo tf.regs.eax = some .ipcTrySend ∧
    envid2env s.kern cur tf.regs.edx false = some e ∧ tf.regs.ecx = value ∧
    ∃ getc k, callOf B (s.kern.setTf cur tf) cur getc = some (.ret 0, k)

/-- `cur` calls `sys_exofork`, and is given the slot `e`. -/
def Entry.Forks (B : Machine) (s : Smp) (en : Entry) (cur e : Slot) : Prop :=
  ∃ c tf, en.CalledBy s c cur tf ∧ sysNo tf.regs.eax = some .exofork ∧
    s.kern.envFreeList = some e ∧
    ∃ getc k, callOf B (s.kern.setTf cur tf) cur getc =
      some (.ret (nextEnvId (s.kern.envs e).envId e), k)

theorem newStatus_cases {status : Word} {st : EnvStatus} (h : newStatus status = some st) :
    st = .runnable ∨ st = .notRunnable := by
  rw [newStatus] at h
  split at h
  · exact .inl (Option.some.inj h).symm
  · split at h
    · exact .inr (Option.some.inj h).symm
    · cases h

/-- `sys_env_set_status` stores one of two values. -/
theorem Entry.SetsStatus.cases {st : EnvStatus} (h : en.SetsStatus s e st) :
    st = .runnable ∨ st = .notRunnable := by
  obtain ⟨_, _, _, _, _, _, hst⟩ := h
  exact newStatus_cases hst

/-! ## Changes of one environment -/

/-- The environments agree but for registers, upcall and the permission of a message. -/
def Env.Keeps (a b : Env) : Prop :=
  b = { a with
    envTf := b.envTf, envPgfaultUpcall := b.envPgfaultUpcall, envIpcPerm := b.envIpcPerm }

namespace Env.Keeps

variable {a b : Env}

theorem refl (a : Env) : a.Keeps a := rfl

theorem trans {a₁ a₂ a₃ : Env} (h : a₁.Keeps a₂) (h' : a₂.Keeps a₃) : a₁.Keeps a₃ := by
  rw [Env.Keeps, h', h]

theorem envLink (h : a.Keeps b) : b.envLink = a.envLink := by rw [h]
theorem envId (h : a.Keeps b) : b.envId = a.envId := by rw [h]
theorem envParentId (h : a.Keeps b) : b.envParentId = a.envParentId := by rw [h]
theorem envStatus (h : a.Keeps b) : b.envStatus = a.envStatus := by rw [h]
theorem envPgdir (h : a.Keeps b) : b.envPgdir = a.envPgdir := by rw [h]
theorem envIpcRecving (h : a.Keeps b) : b.envIpcRecving = a.envIpcRecving := by rw [h]
theorem envIpcValue (h : a.Keeps b) : b.envIpcValue = a.envIpcValue := by rw [h]
theorem envIpcFrom (h : a.Keeps b) : b.envIpcFrom = a.envIpcFrom := by rw [h]

end Env.Keeps

theorem Kern.keeps_modEnv (k : Kern) (e : Slot) (f : Env → Env)
    (hf : (k.envs e).Keeps (f (k.envs e))) (e' : Slot) :
    (k.envs e').Keeps ((k.modEnv e f).envs e') := by
  by_cases he : e' = e
  · subst he
    rw [Kern.envs_modEnv_self]
    exact hf
  · rw [Kern.envs_modEnv_of_ne k f he]
    exact .refl _

theorem Kern.keeps_setTf (k : Kern) (cur : Slot) (tf : Trapframe) (e : Slot) :
    (k.envs e).Keeps ((k.setTf cur tf).envs e) :=
  k.keeps_modEnv cur (fun env ↦ { env with envTf := tf }) rfl e

theorem Kern.keeps_setEax (k : Kern) (cur : Slot) (r : Word) (e : Slot) :
    (k.envs e).Keeps ((k.setEax cur r).envs e) :=
  k.keeps_modEnv cur (fun env ↦
    { env with envTf := { env.envTf with regs := { env.envTf.regs with eax := r } } }) rfl e

/-- `env_free(e)`. -/
structure Freed (s : Smp) (e : Slot) (k : Kern) : Prop where
  pgdir : (s.kern.envs e).envPgdir ≠ none
  list : k.envFreeList = some e
  env : (freedEnv (s.kern.envs e) s.kern.envFreeList).Keeps (k.envs e)

/-- What an entry that does not end the environment of its own CPU can do to `e`. -/
inductive Change (B : Machine) (s : Smp) (en : Entry) (c : CpuId) (e : Slot) (k : Kern) : Prop
  | keep (list : k.envFreeList = s.kern.envFreeList) (env : (s.kern.envs e).Keeps (k.envs e))
  | doom (call : en.Destroys s e) (other : s.curenv c ≠ some e) (running : s.status e = .running)
      (list : k.envFreeList = s.kern.envFreeList)
      (env : { s.kern.envs e with envStatus := .dying }.Keeps (k.envs e))
  | free (call : en.Destroys s e) (other : s.curenv c ≠ some e) (idle : s.status e ≠ .running)
      (freed : Freed s e k)
  | fork {cur : Slot} {d : ℕ} (call : en.Forks B s cur e)
      (list : k.envFreeList = (s.kern.envs e).envLink)
      (env : (forkedEnv (s.kern.envs e) e (s.kern.envs cur).envId d {}).Keeps (k.envs e))
  | status {st : EnvStatus} (call : en.SetsStatus s e st)
      (list : k.envFreeList = s.kern.envFreeList)
      (env : { s.kern.envs e with envStatus := st }.Keeps (k.envs e))
  | recv {dstva : Word} (call : en.Recvs s e dstva) (self : s.curenv c = some e)
      (list : k.envFreeList = s.kern.envFreeList)
      (env : { s.kern.envs e with
        envIpcRecving := true, envIpcDstva := dstva, envStatus := .notRunnable }.Keeps (k.envs e))
  | send {cur : Slot} {value : Word} (call : en.Sends B s cur e value)
      (recving : (s.kern.envs e).envIpcRecving = true)
      (list : k.envFreeList = s.kern.envFreeList)
      (env : { s.kern.envs e with
        envIpcRecving := false, envIpcFrom := (s.kern.envs cur).envId, envIpcValue := value
        envStatus := .runnable }.Keeps (k.envs e))
      (eax : (k.envs e).envTf.regs.eax = 0)

/-- CPU `c` keeps its environment. -/
def Stays (s : Smp) (c : CpuId) (mid : Smp) : Prop :=
  mid.curenv c = s.curenv c ∧
    ((mid.cpus c).cr3 = (s.cpus c).cr3 ∨ (s.cpus c).cpuStatus = .unused)

/-- CPU `c` loses its environment `e`, which is freed. -/
def Exits (s : Smp) (c : CpuId) (e : Slot) (mid : Smp) : Prop :=
  s.curenv c = some e ∧ mid.curenv c = none ∧ Freed s e mid.kern

/-- What an entry does before it calls the scheduler. -/
structure Moved (B : Machine) (s : Smp) (en : Entry) (c : CpuId) (mid : Smp) : Prop where
  cpu : en.cpu = c
  cpus : ∀ c', c' ≠ c → mid.cpus c' = s.cpus c'
  started : (mid.cpus c).cpuStatus = .started
  reap : ∀ e, (s.cpus c).cpuStatus = .started → s.curenv c = some e → s.status e = .dying →
    mid.curenv c = none
  envs : ∃ e, (∀ e', e' ≠ e → (s.kern.envs e').Keeps (mid.kern.envs e')) ∧
    (Exits s c e mid ∨ Stays s c mid ∧ Change B s en c e mid.kern)

/-! ## A system call -/

/-- The caller gets the result of the call, if there is one. -/
def Kern.finish (k : Kern) (cur : Slot) : Ctl Word → Kern
  | .ret r => k.setEax cur r
  | .yield _ => k

theorem Kern.keeps_finish (k : Kern) (cur : Slot) (x : Ctl Word) (e : Slot) :
    (k.envs e).Keeps ((k.finish cur x).envs e) := by
  cases x with
  | ret r => exact k.keeps_setEax cur r e
  | yield o => exact .refl _

@[simp] theorem Kern.envFreeList_finish (k : Kern) (cur : Slot) (x : Ctl Word) :
    (k.finish cur x).envFreeList = k.envFreeList := by
  cases x <;> rfl

theorem envid2env_setTf (k : Kern) (cur e : Slot) (tf : Trapframe) (envid : Word) (b : Bool) :
    envid2env (k.setTf e tf) cur envid b = envid2env k cur envid b := by
  have hstatus := fun e' ↦ (k.keeps_setTf e tf e').envStatus
  have hid := fun e' ↦ (k.keeps_setTf e tf e').envId
  have hparent : ∀ e', ((k.setTf e tf).envs e').envParentId = (k.envs e').envParentId :=
    fun e' ↦ by rw [k.keeps_setTf e tf e']
  simp only [envid2env, hstatus, hid, hparent]

/-- One environment is replaced by `b`, and the caller gets the result. -/
theorem changed_finish {x : Ctl Word} (b : Env)
    (hother : ∀ e', e' ≠ e → k'.envs e' = (s.kern.setTf cur tf).envs e')
    (henv : b.Keeps (k'.envs e))
    (hchange : b.Keeps ((k'.finish cur x).envs e) → Change B s en c e (k'.finish cur x)) :
    ∃ e, (∀ e', e' ≠ e → (s.kern.envs e').Keeps ((k'.finish cur x).envs e')) ∧
      Change B s en c e (k'.finish cur x) := by
  refine ⟨e, fun e' he ↦ ?_, hchange (henv.trans (Kern.keeps_finish _ _ _ _))⟩
  refine ((s.kern.keeps_setTf cur tf e').trans ?_).trans (Kern.keeps_finish _ _ _ _)
  rw [hother e' he]
  exact .refl _

/-- What a message leaves in the receiver, before and after the sender gets its result. -/
theorem keeps_ipcDeliver (k : Kern) (cur e : Slot) (tf : Trapframe) (m : Mem) (perm value : Word) :
    ({ k.envs e with
        envIpcRecving := false, envIpcFrom := (k.envs cur).envId, envIpcValue := value
        envStatus := .runnable } : Env).Keeps
      ((ipcDeliver (((k.setTf cur tf).setMem m).modEnv e fun env ↦
        { env with envIpcPerm := perm }) cur e value).envs e) ∧
    (((ipcDeliver (((k.setTf cur tf).setMem m).modEnv e fun env ↦
      { env with envIpcPerm := perm }) cur e value).finish cur (.ret 0)).envs e).envTf.regs.eax =
        0 := by
  have hset := k.keeps_setTf cur tf
  refine ⟨?_, ?_⟩
  · have hfrom : ((((k.setTf cur tf).setMem m).modEnv e fun env ↦
        { env with envIpcPerm := perm }).envs cur).envId = (k.envs cur).envId :=
      ((hset cur).trans (Kern.keeps_modEnv ((k.setTf cur tf).setMem m) e
        (fun env ↦ { env with envIpcPerm := perm }) rfl cur)).envId
    rw [ipcDeliver, Kern.envs_modEnv_self, hfrom, Kern.envs_modEnv_self, Kern.envs_setMem,
      Env.Keeps, hset e]
  · rw [Kern.finish, Kern.setEax]
    by_cases he : e = cur
    · subst he
      rw [Kern.envs_modEnv_self]
    · rw [Kern.envs_modEnv_of_ne _ _ he, ipcDeliver, Kern.envs_modEnv_self]

/-- A system call of `cur` that leaves it on its CPU changes one environment; the other calls
free `cur`. -/
theorem changed_of_callOf {x : Ctl Word} {getc : Word} (hby : en.CalledBy s c cur tf)
    (h : callOf B (s.kern.setTf cur tf) cur getc = some (x, k)) :
    (x = .yield none ∧ (∀ e', e' ≠ cur → (s.kern.envs e').Keeps (k.envs e')) ∧ Freed s cur k) ∨
    (x ≠ .yield none ∧ ∃ e, (∀ e', e' ≠ e → (s.kern.envs e').Keeps ((k.finish cur x).envs e')) ∧
      Change B s en c e (k.finish cur x)) := by
  have hset := s.kern.keeps_setTf cur tf
  have hregs : ((s.kern.setTf cur tf).envs cur).envTf.regs = tf.regs := by simp [Kern.setTf]
  have heff := effect_of_syscall h
  rw [hregs] at heff
  have hself : s.curenv c = some cur := hby.2.1
  have hother : ∀ {e}, e ≠ cur → s.curenv c ≠ some e := fun he hc ↦
    he (Option.some.inj (hc.symm.trans hself))
  generalize hno' : tf.regs.eax = no at heff
  generalize ha1' : tf.regs.edx = a1 at heff
  generalize ha2' : tf.regs.ecx = a2 at heff
  cases heff with
  | quiet m =>
      exact .inr ⟨by simp, cur, fun e' _ ↦ (hset e').trans (Kern.keeps_finish _ _ _ e'),
        .keep (by simp [Kern.setTf]) ((hset cur).trans (Kern.keeps_finish _ _ _ cur))⟩
  | yield hno => exact .inr ⟨by simp, cur, fun e' _ ↦ hset e', .keep rfl (hset cur)⟩
  | @doom e hno target running other =>
      rw [envid2env_setTf] at target
      rw [(hset e).envStatus] at running
      refine .inr ⟨by simp, changed_finish { s.kern.envs e with envStatus := .dying }
        (fun e' he ↦ Kern.envs_modEnv_of_ne _ _ he) ?_ fun henv ↦
        .doom ⟨c, cur, tf, hby, hno' ▸ hno, ha1' ▸ target⟩ (hother other) running
          (by simp [Kern.setTf]) henv⟩
      rw [Kern.envs_modEnv_self, Env.Keeps, hset e]
  | @free e m hno target idle other pgdir =>
      rw [envid2env_setTf] at target
      rw [(hset e).envStatus] at idle
      rw [(hset e).envPgdir] at pgdir
      refine .inr ⟨by simp, changed_finish (freedEnv (s.kern.envs e) s.kern.envFreeList)
        (fun e' he ↦ Kern.freed_of_ne _ m he) ?_ fun henv ↦
        .free ⟨c, cur, tf, hby, hno' ▸ hno, ha1' ▸ target⟩ (hother other) idle
          ⟨pgdir, by simp, henv⟩⟩
      rw [Kern.freed_self, Env.Keeps, hset e]
      rfl
  | exit m pgdir =>
      rw [(hset cur).envPgdir] at pgdir
      refine .inl ⟨rfl, fun e' he ↦ ?_, pgdir, rfl, ?_⟩
      · rw [Kern.freed_of_ne _ m he]
        exact hset e'
      · rw [Kern.freed_self, Env.Keeps, hset cur]
        rfl
  | @fork e m d tf' hno head htf =>
      have hcall : ∃ k, callOf B (s.kern.setTf cur tf) cur getc =
          some (.ret (nextEnvId (s.kern.envs e).envId e), k) := by
        rw [h, (hset e).envId]
        exact ⟨_, rfl⟩
      refine .inr ⟨by simp, changed_finish
        (forkedEnv (s.kern.envs e) e (s.kern.envs cur).envId d {})
        (fun e' he ↦ Kern.forked_of_ne _ cur m d tf' he) ?_ fun henv ↦
        .fork ⟨c, tf, hby, hno' ▸ hno, head, getc, hcall⟩ ?_ henv⟩
      · rw [Kern.forked_self, Env.Keeps, (hset cur).envId, hset e]
        rfl
      · rw [Kern.envFreeList_finish]
        exact (hset e).envLink
  | @status e st hno target hst =>
      rw [envid2env_setTf] at target
      refine .inr ⟨by simp, changed_finish { s.kern.envs e with envStatus := st }
        (fun e' he ↦ Kern.envs_modEnv_of_ne _ _ he) ?_ fun henv ↦
        .status ⟨c, cur, tf, hby, hno' ▸ hno, ha1' ▸ target, ha2' ▸ hst⟩
          (by simp [Kern.setTf]) henv⟩
      rw [Kern.envs_modEnv_self, Env.Keeps, hset e]
  | @upcall e hno target =>
      refine .inr ⟨by simp, changed_finish (s.kern.envs e)
        (fun e' he ↦ Kern.envs_modEnv_of_ne _ _ he) ?_ fun henv ↦ .keep (by simp [Kern.setTf]) henv⟩
      rw [Kern.envs_modEnv_self, Env.Keeps, hset e]
  | recv hno hva =>
      refine .inr ⟨by simp, changed_finish { s.kern.envs cur with
          envIpcRecving := true, envIpcDstva := a1, envStatus := .notRunnable }
        (fun e' he ↦ Kern.envs_modEnv_of_ne _ _ he) ?_ fun henv ↦
        .recv ⟨c, tf, hby, hno' ▸ hno, ha1', hva⟩ hself rfl henv⟩
      rw [Kern.envs_modEnv_self, Env.Keeps, hset cur]
  | @unsent e r m perm hr hno target recving =>
      refine .inr ⟨by simp, changed_finish (s.kern.envs e)
        (fun e' he ↦ Kern.envs_modEnv_of_ne _ _ he) ?_ fun henv ↦ .keep (by simp [Kern.setTf]) henv⟩
      rw [Kern.envs_modEnv_self, Env.Keeps, Kern.envs_setMem, hset e]
  | @send e m perm hno target recving =>
      rw [envid2env_setTf] at target
      rw [(hset e).envIpcRecving] at recving
      obtain ⟨henv, heax⟩ := keeps_ipcDeliver s.kern cur e tf m perm a2
      exact .inr ⟨by simp, changed_finish _
        (fun e' he ↦ (Kern.envs_modEnv_of_ne _ _ he).trans (Kern.envs_modEnv_of_ne _ _ he)) henv
        fun henv ↦ .send ⟨c, tf, hby, hno' ▸ hno, ha1' ▸ target, ha2', getc, _, h⟩ recving
          (by simp [Kern.setTf, ipcDeliver]) henv heax⟩

/-- A call of `sys_ipc_try_send` that returns 0 has found its receiver waiting, and delivers. -/
theorem Effect.of_send {no a1 a2 : Word} (h : Effect B k cur no a1 a2 (.ret 0) k')
    (hno : sysNo no = some .ipcTrySend) (htarget : envid2env k cur a1 false = some e) :
    (k.envs e).envIpcRecving = true ∧ ∃ m perm, k' = ipcDeliver
      ((k.setMem m).modEnv e fun env ↦ { env with envIpcPerm := perm }) cur e a2 := by
  generalize hx : (Ctl.ret 0 : Ctl Word) = x at h
  cases h with
  | quiet m hsend => exact absurd (Ctl.ret.inj hx).symm (hsend hno)
  | unsent m perm hr => exact absurd (Ctl.ret.inj hx).symm hr
  | send m perm hno' target recving =>
      obtain rfl := Option.some.inj (htarget.symm.trans target)
      exact ⟨recving, m, perm, rfl⟩
  | yield => cases hx
  | exit => cases hx
  | recv => cases hx
  | doom hno' => cases hno.symm.trans hno'
  | free m hno' => cases hno.symm.trans hno'
  | fork m d tf' hno' => cases hno.symm.trans hno'
  | status hno' => cases hno.symm.trans hno'
  | upcall hno' => cases hno.symm.trans hno'

theorem Entry.Sends.recving {value : Word} (h : en.Sends B s cur e value) :
    (s.kern.envs e).envIpcRecving = true := by
  obtain ⟨c, tf, -, hno, htarget, -, getc, k, hcall⟩ := h
  have hregs : ((s.kern.setTf cur tf).envs cur).envTf.regs = tf.regs := by simp [Kern.setTf]
  have heff := effect_of_syscall hcall
  rw [hregs] at heff
  rw [← (s.kern.keeps_setTf cur tf e).envIpcRecving]
  rw [← envid2env_setTf s.kern cur cur tf] at htarget
  exact (heff.of_send hno htarget).1

/-! ## An entry -/

theorem Smp.cpus_enter_of_ne {o : Option Slot} {c' : CpuId} (hc : c' ≠ c) :
    (s.enter B c k o).cpus c' = s.cpus c' := by
  cases o <;> simp [Smp.enter, Smp.cpus_modCpu_of_ne _ _ hc]

theorem Smp.started_enter {o : Option Slot} : ((s.enter B c k o).cpus c).cpuStatus = .started := by
  cases o <;> simp [Smp.enter]

theorem stays_enter (e : Slot) : Stays s c (s.enter B c k (some e)) := by
  simp [Stays, Smp.enter, Smp.curenv]

@[simp] theorem Smp.kern_enter {o : Option Slot} : (s.enter B c k o).kern = k := by
  cases o <;> rfl

theorem curenv_enter_none : (s.enter B c k none).curenv c = none := by
  simp [Smp.enter, Smp.curenv]

/-- A trap of `cur` up to the call of the scheduler. -/
theorem moved_of_handled {cr2 getc : Word} {o : Option Slot} (hcur : s.curenv c = some cur)
    (alive : s.status cur ≠ .dying) (h : Handled B (s.kern.setTf cur tf) cur o k) :
    Moved B s (.trap c tf cr2 getc) c (s.enter B c k o) := by
  refine ⟨rfl, fun c' hc ↦ Smp.cpus_enter_of_ne hc, Smp.started_enter, fun e _ he hdying ↦ ?_, ?_⟩
  · exact absurd ((Option.some.inj (he.symm.trans hcur)) ▸ hdying) alive
  have hset := s.kern.keeps_setTf cur tf
  have hby : tf.trapno = T_SYSCALL → (Entry.trap c tf cr2 getc).CalledBy s c cur tf :=
    fun hno ↦ ⟨⟨cr2, getc, rfl⟩, hcur, alive, hno⟩
  have hno' : ((s.kern.setTf cur tf).envs cur).envTf = tf := by simp [Kern.setTf]
  cases h with
  | quiet =>
      exact ⟨cur, fun e' _ ↦ hset e', .inr ⟨stays_enter cur, .keep rfl (hset cur)⟩⟩
  | ret getc' hno call =>
      rw [hno'] at hno
      rcases changed_of_callOf (hby hno) call with ⟨hx, -⟩ | ⟨-, e, hoth, hch⟩
      · cases hx
      · exact ⟨e, hoth, .inr ⟨stays_enter cur, hch⟩⟩
  | call getc' hno call =>
      rw [hno'] at hno
      rcases changed_of_callOf (hby hno) call with ⟨hx, hoth, hfreed⟩ | ⟨hx, e, hoth, hch⟩
      · obtain rfl := Ctl.yield.inj hx
        exact ⟨cur, hoth, .inl ⟨hcur, curenv_enter_none, hfreed⟩⟩
      · cases o with
        | none => exact absurd rfl hx
        | some e' => exact ⟨e, hoth, .inr ⟨stays_enter e', hch⟩⟩
  | fault tf' m =>
      have hkeep := fun e' ↦ (hset e').trans ((s.kern.setTf cur tf).keeps_setTf cur tf' e')
      exact ⟨cur, fun e' _ ↦ hkeep e', .inr ⟨stays_enter cur, .keep rfl (hkeep cur)⟩⟩
  | exit tf' m pgdir =>
      have hkeep := fun e' ↦ (hset e').trans ((s.kern.setTf cur tf).keeps_setTf cur tf' e')
      refine ⟨cur, fun e' he ↦ ?_, .inl ⟨hcur, curenv_enter_none, ?_, rfl, ?_⟩⟩
      · show (s.kern.envs e').Keeps ((Kern.freed _ cur m).envs e')
        rw [Kern.freed_of_ne _ m he]
        exact hkeep e'
      · rwa [(hset cur).envPgdir] at pgdir
      · show (freedEnv _ _).Keeps ((Kern.freed _ cur m).envs cur)
        rw [Kern.freed_self, Env.Keeps, hkeep cur]
        rfl

theorem Entered.moved (h : Entered B s en c mid) : Moved B s en c mid := by
  cases h with
  | @reap _ _ _ _ cur m hcur dying pgdir =>
      refine ⟨rfl, fun c' hc ↦ Smp.cpus_enter_of_ne hc, Smp.started_enter,
        fun _ _ _ _ ↦ curenv_enter_none, cur, fun e' he ↦ ?_,
        .inl ⟨hcur, curenv_enter_none, pgdir, rfl, ?_⟩⟩
      · show (s.kern.envs e').Keeps ((Kern.freed _ cur m).envs e')
        rw [Kern.freed_of_ne _ m he]
        exact .refl _
      · show (freedEnv _ _).Keeps ((Kern.freed _ cur m).envs cur)
        rw [Kern.freed_self]
        exact .refl _
  | trap hcur alive handled => exact moved_of_handled hcur alive handled
  | wake halted =>
      -- any environment will do
      refine ⟨rfl, fun c' hc ↦ Smp.cpus_modCpu_of_ne _ _ hc, by simp,
        fun _ hst ↦ absurd (halted.symm.trans hst) (by decide), ⟨0, by decide⟩,
        fun e' _ ↦ .refl _, .inr ⟨?_, .keep rfl (.refl _)⟩⟩
      simp [Stays, Smp.curenv]
  | start unused =>
      refine ⟨rfl, fun c' hc ↦ Smp.cpus_modCpu_of_ne _ _ hc, by simp,
        fun _ hst ↦ absurd (unused.symm.trans hst) (by decide), ⟨0, by decide⟩,
        fun e' _ ↦ .refl _, .inr ⟨?_, .keep rfl (.refl _)⟩⟩
      simp [Stays, Smp.curenv, unused]

/-- Every entry changes one environment at most, and then calls the scheduler. -/
theorem Entry.exec_moved (h : en.exec B s = some s') :
    ∃ c mid, Moved B s en c mid ∧ Schedules mid c s' ∧ (Ready s' c ∨ Faults s en c s') := by
  obtain ⟨c, mid, hentered, hrest⟩ := Entry.exec_cases h
  exact ⟨c, mid, hentered.moved, hrest⟩

namespace Moved

theorem curenv_of_ne (h : Moved B s en c mid) {c' : CpuId} (hc : c' ≠ c) :
    mid.curenv c' = s.curenv c' := congrArg Cpu.cpuEnv (h.cpus c' hc)

/-- Nothing goes onto a CPU. -/
theorem curenv_before (h : Moved B s en c mid) {c' : CpuId} (hc : mid.curenv c' = some e) :
    s.curenv c' = some e := by
  by_cases hcc : c' = c
  swap
  · exact h.curenv_of_ne hcc ▸ hc
  subst hcc
  obtain ⟨e₁, -, ⟨-, hnone, -⟩ | ⟨hstay, -⟩⟩ := h.envs
  · rw [hnone] at hc
    cases hc
  · exact hstay.1 ▸ hc

/-- The CPU keeps its environment, unless that one is freed. -/
theorem curenv_after (h : Moved B s en c mid) {c' : CpuId} (hc : s.curenv c' = some e) :
    mid.curenv c' = some e ∨ mid.status e = .free := by
  by_cases hcc : c' = c
  swap
  · exact .inl ((h.curenv_of_ne hcc).trans hc)
  subst hcc
  obtain ⟨e₁, -, ⟨hcur, -, hf⟩ | ⟨hstay, -⟩⟩ := h.envs
  · obtain rfl := Option.some.inj (hc.symm.trans hcur)
    exact .inr hf.env.envStatus
  · exact .inl (hstay.1.trans hc)

/-- The page directory changes when the environment is freed or made. -/
theorem envPgdir_cases (h : Moved B s en c mid) (e : Slot) :
    (mid.kern.envs e).envPgdir = (s.kern.envs e).envPgdir ∨
      (mid.kern.envs e).envStatus = .free ∨ ∃ cur d, en.Forks B s cur e ∧
        (forkedEnv (s.kern.envs e) e (s.kern.envs cur).envId d {}).Keeps (mid.kern.envs e) := by
  obtain ⟨e₁, hoth, hcase⟩ := h.envs
  by_cases he : e = e₁
  swap
  · exact .inl (hoth e he).envPgdir
  subst he
  rcases hcase with ⟨-, -, hf⟩ | ⟨-, hch⟩
  · exact .inr (.inl hf.env.envStatus)
  · cases hch with
    | keep list env => exact .inl env.envPgdir
    | doom call other running list env => exact .inl env.envPgdir
    | free call other idle freed => exact .inr (.inl freed.env.envStatus)
    | fork call list env => exact .inr (.inr ⟨_, _, call, env⟩)
    | status call list env => exact .inl env.envPgdir
    | recv call self list env => exact .inl env.envPgdir
    | send call recving list env eax => exact .inl env.envPgdir

end Moved

/-! ## Status and waiting -/

/-- `e` is on no CPU. -/
def Smp.Off (s : Smp) (e : Slot) : Prop := ∀ c, s.curenv c ≠ some e

/-- The environment waits for a message. -/
def Smp.recving (s : Smp) (e : Slot) : Bool := (s.kern.envs e).envIpcRecving

/-- What becomes of the status of `e`, and of its wait for a message. -/
inductive Fate (B : Machine) (s : Smp) (en : Entry) (c : CpuId) (e : Slot) (mid : Smp) : Prop
  | same (status : mid.status e = s.status e) (recving : mid.recving e = s.recving e)
  | doom (call : en.Destroys s e) (other : s.curenv c ≠ some e) (running : s.status e = .running)
      (status : mid.status e = .dying) (recving : mid.recving e = s.recving e)
  | exit (before : s.curenv c = some e) (after : mid.curenv c = none)
      (status : mid.status e = .free) (recving : mid.recving e = s.recving e)
  | free (call : en.Destroys s e) (other : s.curenv c ≠ some e) (idle : s.status e ≠ .running)
      (status : mid.status e = .free) (recving : mid.recving e = s.recving e)
  | fork {cur : Slot} (call : en.Forks B s cur e) (status : mid.status e = .notRunnable)
      (recving : mid.recving e = false)
  | set {st : EnvStatus} (call : en.SetsStatus s e st) (status : mid.status e = st)
      (recving : mid.recving e = s.recving e)
  | wait {dstva : Word} (call : en.Recvs s e dstva) (self : s.curenv c = some e)
      (status : mid.status e = .notRunnable) (recving : mid.recving e = true)
  | wake {cur : Slot} {value : Word} (call : en.Sends B s cur e value)
      (waiting : s.recving e = true) (status : mid.status e = .runnable)
      (recving : mid.recving e = false)

theorem Moved.fate (h : Moved B s en c mid) (e : Slot) : Fate B s en c e mid := by
  obtain ⟨e₁, hoth, hcase⟩ := h.envs
  by_cases he : e = e₁
  swap
  · exact .same (hoth e he).envStatus (hoth e he).envIpcRecving
  subst he
  rcases hcase with ⟨hcur, hnone, hf⟩ | ⟨-, hch⟩
  · exact .exit hcur hnone hf.env.envStatus hf.env.envIpcRecving
  · cases hch with
    | keep list env => exact .same env.envStatus env.envIpcRecving
    | doom call other running list env =>
        exact .doom call other running env.envStatus env.envIpcRecving
    | free call other idle freed =>
        exact .free call other idle freed.env.envStatus freed.env.envIpcRecving
    | fork call list env => exact .fork call env.envStatus env.envIpcRecving
    | status call list env => exact .set call env.envStatus env.envIpcRecving
    | recv call self list env => exact .wait call self env.envStatus env.envIpcRecving
    | send call recving list env eax => exact .wake call recving env.envStatus env.envIpcRecving

/-- The environment that a CPU keeps is not freed. -/
theorem Moved.live_stays (h : Moved B s en c mid) (hlive : s.status e ≠ .free)
    (hcur : s.curenv c = some e) (hcur' : mid.curenv c = some e) : mid.status e ≠ .free := by
  cases h.fate e with
  | same status recving => rwa [status]
  | doom call other running status recving => rw [status]; decide
  | exit before after status recving => exact nomatch hcur'.symm.trans after
  | free call other idle status recving => exact absurd hcur other
  | fork call status recving => rw [status]; decide
  | set call status recving => rcases call.cases with rfl | rfl <;> rw [status] <;> decide
  | wait call self status recving => rw [status]; decide
  | wake call waiting status recving => rw [status]; decide

theorem Schedules.recving_eq (h : Schedules s c s') (e : Slot) : s'.recving e = s.recving e :=
  (h.envs e).envIpcRecving

end Jos
