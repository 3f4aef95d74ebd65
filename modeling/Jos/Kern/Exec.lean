import Jos.Kern.Change
import Jos.Kern.Refcount
import Jos.Lib.Circle

/-!
# Running kernel entries

When an entry goes through, and what it leaves.  A system call that returns to an environment
that still runs only has the effect of the call; one that changes the status of its own caller
goes through the scheduler.
-/

namespace Jos

open Jos.Lib

variable {B : Machine} {M : Pool B} {s s' : Smp} {k k' : Kern} {c : CpuId} {a e : Slot}
  {tf : Trapframe} {cr2 getc r : Word}

/-! ## The scheduler -/

theorem exists_schedPick (h : s.status e = .runnable) (c : CpuId) :
    ∃ p, schedPick s c = some p ∧ s.status p = .runnable := by
  cases hp : schedPick s c with
  | some p => exact ⟨p, rfl, schedPick_runnable hp⟩
  | none =>
      simp only [schedPick, List.find?_eq_none, decide_eq_true_eq] at hp
      exact absurd h (hp e (Circle.mem_order _ e))

/-- A CPU without an environment starts its search at slot 0. -/
theorem schedPick_congr {c' : CpuId} (hs : s.curenv c = none) (hs' : s'.curenv c' = none)
    (h : ∀ e, s.status e = .runnable ↔ s'.status e = .runnable) :
    schedPick s c = schedPick s' c' := by
  simp only [schedPick, hs, hs', h]

/-- An environment that is runnable and on the CPU is found first. -/
theorem schedPick_self (hcur : s.curenv c = some e) (hid : envx (s.kern.envs e).envId = e)
    (hr : s.status e = .runnable) : schedPick s c = some e := by
  simp only [schedPick, hcur, hid]
  exact Circle.find?_order.mpr (.self hr)

theorem exists_envRun (h : s.curenv c = some e ∨ (s.kern.envs e).envPgdir ≠ none) :
    ∃ s', envRun s c e = some s' := by
  by_cases hcur : s.curenv c = some e
  · simp [envRun, hcur]
  obtain ⟨d, hd⟩ := Option.ne_none_iff_exists'.mp (h.resolve_left hcur)
  cases hc : s.curenv c with
  | none => simp [envRun, hc, hd]
  | some o =>
      have hne : e ≠ o := fun he ↦ hcur (by rw [hc, he])
      simp [envRun, hc, hne.symm, Kern.envs_modEnv_of_ne _ _ hne, hd]

theorem exists_schedYield_of_pick (hpick : schedPick s c = some e)
    (hpg : (s.kern.envs e).envPgdir ≠ none) : ∃ s', schedYield B s c = some s' := by
  rw [schedYield_of_pick hpick]
  exact exists_envRun (.inr hpg)

/-- The scheduler puts what it picked on the CPU. -/
theorem schedYield_run {d : ℕ} (hpick : schedPick s c = some e)
    (hpg : (s.kern.envs e).envPgdir = some d) (hne : s.curenv c ≠ some e) :
    ∃ s', schedYield B s c = some s' ∧ Schedules s c s' ∧ s'.curenv c = some e ∧
      s'.status e = .running := by
  have hr := schedPick_runnable hpick
  obtain ⟨s', hrun⟩ := exists_envRun (s := s) (c := c)
    (.inr (Option.ne_none_iff_exists'.mpr ⟨d, hpg⟩))
  refine ⟨s', ?_, schedules_envRun_other hne hr hrun⟩
  rw [schedYield_of_pick hpick, hrun]

/-- The kernel states agree but for what the scheduler stores into. -/
structure Kern.Resched (k k' : Kern) : Prop where
  mem : k'.mem = k.mem
  list : k'.envFreeList = k.envFreeList
  envs : ∀ e, (k.envs e).Resched (k'.envs e)
  free : ∀ e, (k'.envs e).envStatus = .free ↔ (k.envs e).envStatus = .free

theorem Schedules.resched (h : Schedules s c s') : s.kern.Resched s'.kern := by
  refine ⟨h.mem, h.freeList, h.envs, fun e ↦ ?_⟩
  show s'.status e = .free ↔ s.status e = .free
  rcases h.status_cases e with hst | ⟨hr, hr', -⟩ | ⟨hr, hr', -⟩
  · rw [hst]
  · simp [hr, hr']
  · simp [hr, hr']

theorem Kern.Resched.dirs_eq (h : k.Resched k') : k'.dirs = k.dirs := by
  funext e
  simp only [Kern.dirs, h.free, (h.envs e).envPgdir]

/-- The scheduler keeps the invariant of the kernel. -/
theorem Inv.resched {l : List ℕ} {el : List Slot} (h : Inv B M k l el) (hk : k.Resched k') :
    Inv B M k' l el := by
  refine h.of_same hk.mem hk.dirs_eq (fun e he ↦ ?_) ?_ fun e ↦ (h.mem_el e).trans (hk.free e).symm
  · rw [(hk.envs e).envPgdir]
    exact h.pgdir e (mt (hk.free e).mpr he)
  · rw [hk.list]
    exact h.chain.congr fun e _ ↦ (hk.envs e).envLink

theorem Kern.Bounded.resched (h : k.Bounded B) (hk : k.Resched k') : k'.Bounded B := by
  rw [Kern.Bounded, hk.mem, hk.dirs_eq]
  exact h

/-- `a` runs on CPU `c`. -/
structure Runs (s : Smp) (c : CpuId) (a : Slot) : Prop where
  started : (s.cpus c).cpuStatus = .started
  cur : s.curenv c = some a
  status : s.status a = .running

/-- A CPU that starts takes what the search from slot 0 finds. -/
theorem exec_start {d : ℕ} (hcpu : s.cpus c = {}) (hpick : schedPick s c = some e)
    (hpg : (s.kern.envs e).envPgdir = some d) :
    ∃ s', (Entry.start c).exec B s = some s' ∧ Runs s' c e ∧
      (∀ c', c' ≠ c → s'.cpus c' = s.cpus c') ∧ (∀ e', e' ≠ e → s'.status e' = s.status e') ∧
      s.kern.Resched s'.kern := by
  have hnone : s.curenv c = none := by rw [Smp.curenv, hcpu]
  let s₁ := s.modCpu c fun cpu ↦ { cpu with cpuStatus := .started, cr3 := B.kernPgdir }
  have hnone₁ : s₁.curenv c = none := by simp [s₁, Smp.curenv, hcpu]
  have hpick₁ : schedPick s₁ c = some e :=
    (schedPick_congr hnone₁ hnone fun _ ↦ Iff.rfl).trans hpick
  obtain ⟨s', hrun, hs, hcur, hst⟩ := @schedYield_run B s₁ c e d hpick₁ hpg (by simp [hnone₁])
  refine ⟨s', ?_, ⟨?_, hcur, hst⟩, fun c' hc ↦ ?_, fun e' he ↦ ?_, hs.resched⟩
  · rw [Entry.exec, if_pos (by rw [hcpu]), cpuStart]
    exact hrun
  · cases hs.switch with
    | halt idle none same =>
        rw [none] at hcur
        cases hcur
    | stay before after cpu same =>
        rw [hnone₁] at before
        cases before
    | run before after cpu cr3 ready running others =>
        rw [cpu]
        simp [s₁]
  · exact (hs.cpus c' hc).trans (Smp.cpus_modCpu_of_ne _ _ hc)
  · rcases hs.status_cases e' with hst' | ⟨-, -, hc⟩ | ⟨-, -, hc, -⟩
    · exact hst'
    · exact absurd (Option.some.inj (hc.symm.trans hcur)) he
    · rw [hnone₁] at hc
      cases hc

/-! ## System calls -/

theorem Smp.modCpu_started (h : (s.cpus c).cpuStatus = .started) :
    (s.modCpu c fun cpu ↦ { cpu with cpuStatus := .started }) = s := by
  have hcpu : ({ s.cpus c with cpuStatus := .started } : Cpu) = s.cpus c := by rw [← h]
  simp only [Smp.modCpu, hcpu, Function.update_eq_self]

theorem trapDispatch_syscall {x : Ctl Word} (hno : (k.envs a).envTf.trapno = T_SYSCALL)
    (hcall : callOf B k a getc = some (x, k')) :
    trapDispatch B k a cr2 getc = some (match x with
      | .ret _ => .ret
      | .yield o => .yield o, k'.finish a x) := by
  rw [callOf] at hcall
  simp only [trapDispatch, hno, hcall, Option.bind_eq_bind, Option.bind_some,
    show ¬ T_SYSCALL = IRQ_OFFSET + IRQ_SPURIOUS by decide, show ¬ T_SYSCALL = T_PGFLT by decide,
    show ¬ T_SYSCALL = T_BRKPT by decide, if_false, if_true]
  cases x <;> rfl

/-- What a call that returned leaves, when the CPU goes back to its caller. -/
def Kern.resumed (k : Kern) (c : CpuId) (a : Slot) (r : Word) : Kern :=
  (k.setEax a r).modEnv a fun env ↦ { env with envCpunum := c }

@[simp] theorem Kern.mem_resumed (k : Kern) (c : CpuId) (a : Slot) (r : Word) :
    (k.resumed c a r).mem = k.mem := rfl

@[simp] theorem Kern.envFreeList_resumed (k : Kern) (c : CpuId) (a : Slot) (r : Word) :
    (k.resumed c a r).envFreeList = k.envFreeList := rfl

theorem Kern.resumed_of_ne (k : Kern) (c : CpuId) {a e : Slot} (r : Word) (h : e ≠ a) :
    (k.resumed c a r).envs e = k.envs e := by
  rw [Kern.resumed, Kern.envs_modEnv_of_ne _ _ h, Kern.setEax, Kern.envs_modEnv_of_ne _ _ h]

@[simp] theorem Kern.resumed_self (k : Kern) (c : CpuId) (a : Slot) (r : Word) :
    (k.resumed c a r).envs a = { k.envs a with
      envTf := { (k.envs a).envTf with regs := { (k.envs a).envTf.regs with eax := r } }
      envCpunum := c } := by
  simp [Kern.resumed, Kern.setEax]

/-- The frame of system call `no` with arguments `a1` and `a2`. -/
def sysTf (no a1 a2 : Word) : Trapframe :=
  { trapno := T_SYSCALL, regs := { eax := no, edx := a1, ecx := a2 } }

/-- A trap of an environment that is not a zombie. -/
theorem exec_trap (hstarted : (s.cpus c).cpuStatus = .started) (hcur : s.curenv c = some a)
    (halive : s.status a ≠ .dying) : (Entry.trap c tf cr2 getc).exec B s =
    (trapDispatch B (s.kern.setTf a tf) a cr2 getc).bind fun
      | (.ret, k) => trapTail B (s.setKern k) c
      | (.yield o, k) => yieldAs B (s.setKern k) c o
      | (.run, k) => envRun (s.setKern k) c a := by
  rw [Entry.exec, if_pos hstarted, trapUser, Smp.modCpu_started hstarted]
  simp only [hcur, Option.bind_eq_bind, Option.bind_some, halive, if_false]
  rfl

/-- A system call that returns. -/
theorem exec_ret (hstarted : (s.cpus c).cpuStatus = .started) (hcur : s.curenv c = some a)
    (halive : s.status a ≠ .dying) (hno : tf.trapno = T_SYSCALL)
    (hcall : callOf B (s.kern.setTf a tf) a getc = some (.ret r, k)) :
    (Entry.trap c tf cr2 getc).exec B s = trapTail B (s.setKern (k.setEax a r)) c := by
  rw [exec_trap hstarted hcur halive,
    trapDispatch_syscall (by simpa [Kern.setTf] using hno) hcall, Option.bind_some]
  rfl

/-- A system call that calls the scheduler. -/
theorem exec_yield (hstarted : (s.cpus c).cpuStatus = .started) (hcur : s.curenv c = some a)
    (halive : s.status a ≠ .dying) (hno : tf.trapno = T_SYSCALL)
    (hcall : callOf B (s.kern.setTf a tf) a getc = some (.yield (some e), k)) :
    (Entry.trap c tf cr2 getc).exec B s = schedYield B (s.setKern k) c := by
  rw [exec_trap hstarted hcur halive,
    trapDispatch_syscall (by simpa [Kern.setTf] using hno) hcall, Option.bind_some]
  simp only [yieldAs, Kern.finish]

theorem started_of_exec (h : (Entry.trap c tf cr2 getc).exec B s = some s') :
    (s.cpus c).cpuStatus = .started := by
  by_contra hne
  rw [Entry.exec, if_neg hne] at h
  cases h

/-- A system call, and then the scheduler. -/
theorem Entry.CalledBy.exec {en : Entry} (h : en.CalledBy s c a tf)
    (hexec : en.exec B s = some s') :
    ∃ getc x k mid, callOf B (s.kern.setTf a tf) a getc = some (x, k) ∧
      mid.kern = k.finish a x ∧ Schedules mid c s' := by
  obtain ⟨⟨cr2, getc, rfl⟩, hcur, halive, hno⟩ := h
  have hno' : ((s.kern.setTf a tf).envs a).envTf.trapno = T_SYSCALL := by
    simpa [Kern.setTf] using hno
  rw [exec_trap (started_of_exec hexec) hcur halive] at hexec
  cases hcall : callOf B (s.kern.setTf a tf) a getc with
  | none =>
      rw [callOf] at hcall
      simp [trapDispatch, hno', hcall, show ¬ T_SYSCALL = IRQ_OFFSET + IRQ_SPURIOUS by decide,
        show ¬ T_SYSCALL = T_PGFLT by decide, show ¬ T_SYSCALL = T_BRKPT by decide] at hexec
  | some x =>
      obtain ⟨x, k⟩ := x
      rw [trapDispatch_syscall hno' hcall, Option.bind_some] at hexec
      cases x with
      | ret r => exact ⟨getc, .ret r, k, _, hcall, rfl, (scheduled_trapTail hexec).1⟩
      | yield o =>
          cases o with
          | none =>
              simp only [yieldAs] at hexec
              exact ⟨getc, .yield none, k, _, hcall, rfl, (scheduled_schedYield hexec).1⟩
          | some e =>
              simp only [yieldAs] at hexec
              exact ⟨getc, .yield (some e), k, _, hcall, rfl, (scheduled_schedYield hexec).1⟩

namespace Runs

theorem alive (h : Runs s c a) : s.status a ≠ .dying := by simp [h.status]

/-- A call that leaves its caller running goes back to it, and does no more. -/
theorem exec_back (h : Runs s c a) (hno : tf.trapno = T_SYSCALL)
    (hcall : callOf B (s.kern.setTf a tf) a getc = some (.ret r, k))
    (hrun : (k.envs a).envStatus = .running) :
    (Entry.trap c tf cr2 getc).exec B s = some (s.setKern (k.resumed c a r)) := by
  have hcur : (s.setKern (k.setEax a r)).curenv c = some a := h.cur
  have hst : (s.setKern (k.setEax a r)).status a = .running := by
    simpa [Smp.status, Kern.setEax] using hrun
  rw [exec_ret h.started h.cur h.alive hno hcall, trapTail, hcur]
  simp only [hst, if_true, envRun, hcur, ne_eq, not_true_eq_false, if_false, Option.pure_def,
    Option.bind_eq_bind, Option.bind_some]
  rfl

theorem back (h : Runs s c a) (hrun : (k.envs a).envStatus = .running) :
    Runs (s.setKern (k.resumed c a r)) c a :=
  ⟨h.started, h.cur, by simpa [Smp.status] using hrun⟩

/-- An environment that makes itself runnable goes on running. -/
theorem exec_self_runnable (h : Runs s c a) (hid : envx (s.kern.envs a).envId = a) :
    ∃ s', (Entry.trap c (sysTf 8 0 2) 0 0).exec B s = some s' ∧ s'.cpus = s.cpus ∧
      s'.status a = .runnable ∧ (∀ e, e ≠ a → s'.kern.envs e = s.kern.envs e) ∧
      (s'.kern.envs a).envPgdir = (s.kern.envs a).envPgdir := by
  let k := (s.kern.setTf a (sysTf 8 0 2)).modEnv a fun env ↦ { env with envStatus := .runnable }
  have hcall : callOf B (s.kern.setTf a (sysTf 8 0 2)) a 0 = some (.ret 0, k) := by
    simp [callOf, Kern.setTf, sysTf, syscall, sysNo, returned, sysEnvSetStatus, envid2env,
      ENV_RUNNABLE, k]
  have hst : (k.envs a).envStatus = .runnable := by simp [k]
  have hcur : (s.setKern (k.setEax a 0)).curenv c = some a := h.cur
  have hrunnable : (s.setKern (k.setEax a 0)).status a = .runnable := by
    simpa [Smp.status, Kern.setEax] using hst
  have hpick : schedPick (s.setKern (k.setEax a 0)) c = some a :=
    schedPick_self hcur (by simpa [Kern.setEax, k, Kern.setTf] using hid) hrunnable
  refine ⟨s.setKern (k.resumed c a 0), ?_, rfl, ?_, fun e he ↦ ?_, ?_⟩
  · rw [exec_ret h.started h.cur h.alive rfl hcall, trapTail, hcur]
    simp only [hrunnable, reduceCtorEq, if_false]
    rw [schedYield_of_pick hpick]
    simp only [envRun, hcur, ne_eq, not_true_eq_false, if_false, Option.pure_def,
      Option.bind_eq_bind, Option.bind_some]
    rfl
  · simpa [Smp.status] using hst
  · rw [Smp.kern_setKern, Kern.resumed_of_ne _ _ _ he, Kern.envs_modEnv_of_ne _ _ he, Kern.setTf,
      Kern.envs_modEnv_of_ne _ _ he]
  · simp [k, Kern.setTf]

/-- An environment that waits for a message makes room for one that is runnable. -/
theorem exec_recv (h : Runs s c a) (hready : s.status e = .runnable)
    (hpg : ∀ e, s.status e = .runnable → (s.kern.envs e).envPgdir ≠ none) :
    ∃ s' p, (Entry.trap c (sysTf 12 UTOP 0) 0 0).exec B s = some s' ∧ Runs s' c p ∧
      s.status p = .runnable ∧ (∀ c', c' ≠ c → s'.cpus c' = s.cpus c') ∧ s'.recving a = true ∧
      s'.status a = .notRunnable ∧ (∀ e, (s'.kern.envs e).envId = (s.kern.envs e).envId) ∧
      ∀ e, (s'.kern.envs e).envPgdir = (s.kern.envs e).envPgdir := by
  let k := (s.kern.setTf a (sysTf 12 UTOP 0)).modEnv a fun env ↦
    { env with envIpcRecving := true, envIpcDstva := UTOP, envStatus := .notRunnable }
  have hcall : callOf B (s.kern.setTf a (sysTf 12 UTOP 0)) a 0 = some (.yield (some a), k) := by
    simp [callOf, Kern.setTf, sysTf, syscall, sysNo, sysIpcRecv, k]
  have hother : ∀ e, e ≠ a → k.envs e = s.kern.envs e := by
    intro e he
    rw [Kern.envs_modEnv_of_ne _ _ he, Kern.setTf, Kern.envs_modEnv_of_ne _ _ he]
  have hself : k.envs a = { s.kern.envs a with
      envTf := sysTf 12 UTOP 0, envIpcRecving := true, envIpcDstva := UTOP
      envStatus := .notRunnable } := by
    simp [k, Kern.setTf]
  have hne : ∀ {e}, s.status e = .runnable → e ≠ a := by
    rintro e he rfl
    rw [h.status] at he
    cases he
  have hready' : (s.setKern k).status e = .runnable := by
    rw [Smp.status, Smp.kern_setKern, hother e (hne hready)]
    exact hready
  obtain ⟨p, hpick, hp⟩ := exists_schedPick hready' c
  have hpa : p ≠ a := by
    rintro rfl
    rw [Smp.status, Smp.kern_setKern, hself] at hp
    cases hp
  have hp' : s.status p = .runnable := by
    rw [Smp.status, Smp.kern_setKern, hother p hpa] at hp
    exact hp
  obtain ⟨d, hd⟩ := Option.ne_none_iff_exists'.mp (hpg p hp')
  have hcur : (s.setKern k).curenv c = some a := h.cur
  obtain ⟨s', hrun, hs, hcur', hst'⟩ := @schedYield_run B (s.setKern k) c p d hpick
    (by rw [Smp.kern_setKern, hother p hpa, hd])
    (by rw [hcur]; exact fun hc ↦ hpa (Option.some.inj hc).symm)
  have hstarted : (s'.cpus c).cpuStatus = .started := by
    cases hs.switch with
    | halt idle none same =>
        rw [none] at hcur'
        cases hcur'
    | stay before after cpu same =>
        rw [cpu]
        exact h.started
    | run before after cpu cr3 ready running others =>
        rw [cpu]
        exact h.started
  refine ⟨s', p, (exec_yield h.started h.cur h.alive rfl hcall).trans hrun,
    ⟨hstarted, hcur', hst'⟩, hp', fun c' hc ↦ hs.cpus c' hc, ?_, ?_, fun e ↦ ?_, fun e ↦ ?_⟩
  · rw [hs.recving_eq, Smp.recving, Smp.kern_setKern, hself]
  · have hsta : (s.setKern k).status a = .notRunnable := by
      rw [Smp.status, Smp.kern_setKern, hself]
    rcases hs.status_cases a with hst | ⟨hr, -⟩ | ⟨hr, -⟩
    · exact hst.trans hsta
    · rw [hsta] at hr
      cases hr
    · rw [hsta] at hr
      cases hr
  · rw [(hs.envs e).envId, Smp.kern_setKern]
    by_cases hea : e = a
    · rw [hea, hself]
    · rw [hother e hea]
  · rw [(hs.envs e).envPgdir, Smp.kern_setKern]
    by_cases hea : e = a
    · rw [hea, hself]
    · rw [hother e hea]

end Runs

/-! ## A machine with two environments -/

instance : NeZero NCPU := ⟨by decide⟩

/-- `a` runs on CPU 0, `b` waits for a CPU, and no other CPU has started. -/
structure Duo (s : Smp) (a b : Slot) : Prop where
  runs : Runs s 0 a
  ne : a ≠ b
  ready : s.status b = .runnable
  free : ∀ e, e ≠ a → e ≠ b → s.status e = .free
  cpus : ∀ c, c ≠ 0 → s.cpus c = {}
  id : ∀ e, s.kern.Live e → envx (s.kern.envs e).envId = e ∧ (s.kern.envs e).envId ≠ 0
  first : ∀ s' c, s'.curenv c = none → (∀ e, s'.status e = .runnable ↔ e = a ∨ e = b) →
    schedPick s' c = some a
  inv : ∃ l el, Inv demoConfig.machine demoConfig.pool s.kern l el ∧ l ≠ []
  bounded : s.kern.Bounded demoConfig.machine

/-- The first of two runnable environments gets CPU 0. -/
theorem exists_duo : ∃ k s a b, Booted demoConfig k ∧
    (Entry.start 0).exec demoConfig.machine (Smp.boot k) = some s ∧ Duo s a b := by
  obtain ⟨k, l, el, e₁, e₂, env₁, env₂, d₁, d₂, hbooted, hinv, hl, hne, -, h₁, -, h₂, hfree, -⟩ :=
    exists_booted
  have hst₁ : (k.envs e₁).envStatus = .runnable := by rw [h₁]; rfl
  have hst₂ : (k.envs e₂).envStatus = .runnable := by rw [h₂]; rfl
  have hrunnable : ∀ e, (Smp.boot k).status e = .runnable ↔ e = e₁ ∨ e = e₂ := by
    intro e
    refine ⟨fun he ↦ ?_, ?_⟩
    · by_contra hc
      rw [not_or] at hc
      have hf := (hfree e hc.1 hc.2).1
      exact absurd (he.symm.trans hf) (by decide)
    · rintro (rfl | rfl)
      · exact hst₁
      · exact hst₂
  obtain ⟨a, hpick, ha⟩ := exists_schedPick (s := Smp.boot k) (e := e₁) hst₁ 0
  obtain ⟨b, hab, hset⟩ : ∃ b, a ≠ b ∧ ∀ e, e = e₁ ∨ e = e₂ ↔ e = a ∨ e = b := by
    rcases (hrunnable a).mp ha with rfl | rfl
    · exact ⟨e₂, hne, fun _ ↦ Iff.rfl⟩
    · exact ⟨e₁, hne.symm, fun _ ↦ or_comm⟩
  have hrunnable' : ∀ e, (Smp.boot k).status e = .runnable ↔ e = a ∨ e = b :=
    fun e ↦ (hrunnable e).trans (hset e)
  have hid : ∀ e, k.Live e → envx (k.envs e).envId = e ∧ (k.envs e).envId ≠ 0 := by
    intro e he
    rcases hbooted.envs e with ⟨hf, -⟩ | ⟨-, -, hid, -⟩
    · exact absurd hf he
    · rw [hid, ← nextEnvId_zero]
      exact ⟨envx_nextEnvId 0 e, nextEnvId_ne_zero 0 e⟩
  have halive : k.Live a := by
    rw [Kern.Live, show (k.envs a).envStatus = .runnable from ha]
    decide
  obtain ⟨d, hpg⟩ := Option.ne_none_iff_exists'.mp (hinv.inv.pgdir a halive)
  obtain ⟨s, hexec, hruns, hcpus, hstatus, hre⟩ :=
    @exec_start demoConfig.machine (Smp.boot k) 0 a d rfl hpick hpg
  refine ⟨k, s, a, b, hbooted, hexec, hruns, hab, ?_, fun e hea heb ↦ ?_, fun c hc ↦ hcpus c hc,
    fun e he ↦ ?_, fun s' c hnone h' ↦ ?_, ⟨l, el, hinv.inv.resched hre, ?_⟩,
    Kern.Bounded.resched hinv.bounded hre⟩
  · rw [hstatus b hab.symm]
    exact (hrunnable' b).mpr (.inr rfl)
  · rw [hstatus e hea]
    rcases hbooted.envs e with ⟨hf, -⟩ | ⟨hr, -⟩
    · exact hf
    · rcases (hrunnable' e).mp hr with rfl | rfl
      · exact absurd rfl hea
      · exact absurd rfl heb
  · rw [(hre.envs e).envId]
    exact hid e (mt (hre.free e).mpr he)
  · rw [← hpick]
    exact schedPick_congr hnone rfl fun e ↦ (h' e).trans (hrunnable' e).symm
  · rintro rfl
    simp at hl

/-! ## A parent and its child -/

/-- `sys_exofork` makes a child with an empty address space, unless there is no free slot or no free
page; then it changes nothing. -/
theorem Inv.sysExofork_outcome {l : List ℕ} {el : List Slot} (h : Inv B M k l el)
    (hlive : k.Live a) :
    (∃ r, (r.toInt < 0 ∧ (el = [] ∨ l = [])) ∧ sysExofork B k a = some (r, k)) ∨
    ∃ ch d l' el' k', l = d :: l' ∧
      sysExofork B k a = some (nextEnvId (k.envs ch).envId ch, k') ∧
      (k.envs ch).envStatus = .free ∧
      k'.envs ch = forkedEnv (k.envs ch) ch (k.envs a).envId d (k.envs a).envTf ∧
      (∀ e, e ≠ ch → k'.envs e = k.envs e) ∧ Inv B M k' l' el' ∧ Evolve B k k' l {ch} ∅ ∧
      (∀ v, k'.space ch v = none) ∧ SetUp B k.mem k'.mem d := by
  rcases h.envAlloc_spec (k.envs a).envId with
    ⟨r, hr, halloc⟩ | ⟨ch, el', d, l', k₁, rfl, rfl, halloc, henv, hother, hinv, hev, hsu⟩
  · exact .inl ⟨r, hr, by simp [sysExofork, halloc]⟩
  · have hch : (k.envs ch).envStatus = .free := (h.mem_el ch).mp List.mem_cons_self
    have hne : a ≠ ch := by
      rintro rfl
      exact hlive hch
    have hdir : k₁.dirs ch = some d := by rw [Kern.dirs, henv]; rfl
    have hdirs : Kern.dirs (k₁.modEnv ch fun env ↦ { env with
        envStatus := .notRunnable
        envTf := { (k.envs a).envTf with regs := { (k.envs a).envTf.regs with eax := 0 } } }) =
        k₁.dirs := Kern.dirs_modEnv (by simp [henv, freshEnv]) rfl
    refine .inr ⟨ch, d, l', el', k₁.modEnv ch fun env ↦ { env with
      envStatus := .notRunnable
      envTf := { (k.envs a).envTf with regs := { (k.envs a).envTf.regs with eax := 0 } } },
      rfl, ?_, hch, ?_, fun e he ↦ ?_, ?_, ?_, fun v ↦ ?_, hsu⟩
    · simp only [sysExofork, halloc, Option.bind_eq_bind, Option.bind_some, hother a hne,
        Kern.envs_modEnv_self, henv]
      rfl
    · rw [Kern.envs_modEnv_self, henv]
      rfl
    · rw [Kern.envs_modEnv_of_ne _ _ he, hother e he]
    · exact hinv.modEnv (by simp [henv, freshEnv]) rfl rfl
    · exact hev.congr rfl hdirs
    · have hspace := hsu.space_eq_none hdir v
      rw [Kern.space] at hspace ⊢
      rw [hdirs]
      exact hspace

theorem Inv.exists_exofork {l : List ℕ} {el : List Slot} (h : Inv B M k l el) (hl : l ≠ [])
    (hfree : (k.envs e).envStatus = .free) (hlive : k.Live a) :
    ∃ ch d l' el' k', sysExofork B k a = some (nextEnvId (k.envs ch).envId ch, k') ∧
      (k.envs ch).envStatus = .free ∧
      k'.envs ch = forkedEnv (k.envs ch) ch (k.envs a).envId d (k.envs a).envTf ∧
      (∀ e, e ≠ ch → k'.envs e = k.envs e) ∧ Inv B M k' l' el' ∧ Evolve B k k' l {ch} ∅ ∧
      l.length = l'.length + 1 := by
  have hel : el ≠ [] := List.ne_nil_of_mem ((h.mem_el e).mpr hfree)
  rcases h.sysExofork_outcome hlive with
    ⟨r, ⟨-, hr⟩, -⟩ | ⟨ch, d, l', el', k', rfl, hrun, hch, henv, hother, hinv, hev, -⟩
  · exact absurd hr (not_or.mpr ⟨hel, hl⟩)
  · exact ⟨ch, d, l', el', k', hrun, hch, henv, hother, hinv, hev, rfl⟩

/-- `a` runs on CPU 0, and `ch` is its child, with the id `cid`. -/
structure Family (s : Smp) (a ch : Slot) (cid : Word) : Prop where
  runs : Runs s 0 a
  ne : ch ≠ a
  id : (s.kern.envs ch).envId = cid
  id_ne : cid ≠ 0
  slot : envx cid = ch
  parent : (s.kern.envs ch).envParentId = (s.kern.envs a).envId
  inv : ∃ l el, Inv demoConfig.machine demoConfig.pool s.kern l el
  bounded : s.kern.Bounded demoConfig.machine

/-- `env_tf` and `env_cpunum` do not matter to the invariant. -/
theorem Inv.resumed {l : List ℕ} {el : List Slot} (h : Inv B M k l el) :
    Inv B M (k.resumed c a r) l el :=
  (h.modEnv (e := a) (f := fun env ↦ { env with
    envTf := { env.envTf with regs := { env.envTf.regs with eax := r } } }) Iff.rfl rfl rfl).modEnv
    Iff.rfl rfl rfl

theorem Kern.dirs_resumed (k : Kern) (c : CpuId) (a : Slot) (r : Word) :
    (k.resumed c a r).dirs = k.dirs :=
  (Kern.dirs_modEnv Iff.rfl rfl).trans (Kern.dirs_modEnv Iff.rfl rfl)

theorem Inv.setTf {l : List ℕ} {el : List Slot} (h : Inv B M k l el) (a : Slot) (tf : Trapframe) :
    Inv B M (k.setTf a tf) l el := h.modEnv Iff.rfl rfl rfl

theorem Kern.dirs_setTf (k : Kern) (a : Slot) (tf : Trapframe) : (k.setTf a tf).dirs = k.dirs :=
  Kern.dirs_modEnv Iff.rfl rfl

namespace Family

variable {ch : Slot} {cid : Word}

/-- The parent may do to its child what it likes. -/
theorem target (h : Family s a ch cid) (hlive : s.kern.Live ch) (tf : Trapframe) :
    envid2env (s.kern.setTf a tf) a cid true = some ch := by
  rw [envid2env_setTf, envid2env, if_neg h.id_ne]
  simp only [h.slot, h.id]
  rw [if_neg, if_neg]
  · exact fun hc ↦ hc.2.2 h.parent
  · exact not_or.mpr ⟨hlive, fun hc ↦ hc rfl⟩

/-- A call of the parent that stores a status into the child. -/
theorem setStatus (h : Family s a ch cid) (hlive : s.kern.Live ch) {st : EnvStatus}
    (hst : st ≠ .free)
    (hcall : callOf demoConfig.machine (s.kern.setTf a tf) a 0 = some (.ret 0,
      (s.kern.setTf a tf).modEnv ch fun env ↦ { env with envStatus := st }))
      (hno : tf.trapno = T_SYSCALL) :
    ∃ s', (Entry.trap 0 tf 0 0).exec demoConfig.machine s = some s' ∧ Family s' a ch cid ∧
      s'.status ch = st ∧ (∀ e, e ≠ ch → s'.status e = s.status e) ∧ s'.cpus = s.cpus ∧
      s'.kern.mem = s.kern.mem := by
  let k := (s.kern.setTf a tf).modEnv ch fun env ↦ { env with envStatus := st }
  have ha : k.envs a = { s.kern.envs a with envTf := tf } := by
    simp [k, Kern.envs_modEnv_of_ne _ _ h.ne.symm, Kern.setTf]
  have hch : (k.resumed 0 a 0).envs ch = { s.kern.envs ch with envStatus := st } := by
    rw [Kern.resumed_of_ne _ _ _ h.ne]
    simp [k, Kern.setTf, Kern.envs_modEnv_of_ne _ _ h.ne]
  have hrun : (k.envs a).envStatus = .running := by
    rw [ha]
    exact h.runs.status
  have hfree : ((s.kern.setTf a tf).envs ch).envStatus ≠ .free := by
    rw [(s.kern.keeps_setTf a tf ch).envStatus]
    exact hlive
  obtain ⟨l, el, hinv⟩ := h.inv
  refine ⟨_, h.runs.exec_back hno hcall hrun, ⟨h.runs.back hrun, h.ne, ?_, h.id_ne, h.slot, ?_,
    ⟨l, el, ((hinv.setTf a tf).modEnv (by simp [hst, hfree]) rfl rfl).resumed⟩, ?_⟩, ?_,
    fun e he ↦ ?_, rfl, rfl⟩
  · rw [Smp.kern_setKern, hch]
    exact h.id
  · rw [Smp.kern_setKern, hch, Kern.resumed_self, ha]
    exact h.parent
  · rw [Kern.Bounded, Smp.kern_setKern, Kern.dirs_resumed,
      Kern.dirs_modEnv (by simp [hst, hfree]) rfl, Kern.dirs_setTf]
    exact h.bounded
  · rw [Smp.status, Smp.kern_setKern, hch]
  · rw [Smp.status, Smp.kern_setKern]
    by_cases hea : e = a
    · subst hea
      rw [Kern.resumed_self, ha]
      rfl
    · rw [Kern.resumed_of_ne _ _ _ hea]
      simp [Kern.setTf, Kern.envs_modEnv_of_ne _ _ hea, Kern.envs_modEnv_of_ne _ _ he, Smp.status]

/-- `sys_env_set_status` makes the child runnable, whatever its status is. -/
theorem exec_setRunnable (h : Family s a ch cid) (hlive : s.kern.Live ch) :
    ∃ s', (Entry.trap 0 (sysTf 8 cid 2) 0 0).exec demoConfig.machine s = some s' ∧
      Family s' a ch cid ∧ s'.status ch = .runnable ∧
      (∀ e, e ≠ ch → s'.status e = s.status e) ∧ s'.cpus = s.cpus ∧
      s'.kern.mem = s.kern.mem := by
  refine h.setStatus hlive (by decide) ?_ rfl
  have htarget := h.target hlive (sysTf 8 cid 2)
  have hregs : ((s.kern.setTf a (sysTf 8 cid 2)).envs a).envTf = sysTf 8 cid 2 := by
    simp [Kern.setTf]
  rw [callOf, hregs]
  show syscall _ _ a 0 8 cid 2 0 0 0 = _
  simp only [syscall, show sysNo 8 = some .envSetStatus from rfl, returned, sysEnvSetStatus,
    htarget, if_pos (show (2 : Word) = ENV_RUNNABLE from rfl), Option.map_some]

/-- `sys_env_destroy` marks a running child as dying. -/
theorem exec_doom (h : Family s a ch cid) (hrun : s.status ch = .running) :
    ∃ s', (Entry.trap 0 (sysTf 3 cid 0) 0 0).exec demoConfig.machine s = some s' ∧
      Family s' a ch cid ∧ s'.status ch = .dying ∧
      (∀ e, e ≠ ch → s'.status e = s.status e) ∧ s'.cpus = s.cpus ∧
      s'.kern.mem = s.kern.mem := by
  have hlive : s.kern.Live ch := by
    rw [Kern.Live, show (s.kern.envs ch).envStatus = .running from hrun]
    decide
  refine h.setStatus hlive (by decide) ?_ rfl
  have htarget := h.target hlive (sysTf 3 cid 0)
  have hregs : ((s.kern.setTf a (sysTf 3 cid 0)).envs a).envTf = sysTf 3 cid 0 := by
    simp [Kern.setTf]
  have hrun' : ((s.kern.setTf a (sysTf 3 cid 0)).envs ch).envStatus = .running := by
    rw [(s.kern.keeps_setTf a _ ch).envStatus]
    exact hrun
  have hne : (some a : Option Slot) ≠ some ch := fun hc ↦ h.ne (Option.some.inj hc).symm
  rw [callOf, hregs]
  show syscall _ _ a 0 3 cid 0 0 0 0 = _
  simp only [syscall, show sysNo 3 = some .envDestroy from rfl, sysEnvDestroy, htarget, envDestroy,
    hrun', hne, ne_eq, not_false_eq_true, and_self, if_true, Option.bind_eq_bind, Option.bind_some]
  rfl

/-- A second `sys_env_destroy` frees the child, on whatever CPU it is. -/
theorem exec_free (h : Family s a ch cid) (hdying : s.status ch = .dying) :
    ∃ s', (Entry.trap 0 (sysTf 3 cid 0) 0 0).exec demoConfig.machine s = some s' ∧
      s'.status ch = .free ∧ s'.cpus = s.cpus := by
  have hst : (s.kern.envs ch).envStatus = .dying := hdying
  have hlive : s.kern.Live ch := by
    rw [Kern.Live, hst]
    decide
  have htarget := h.target hlive (sysTf 3 cid 0)
  have hregs : ((s.kern.setTf a (sysTf 3 cid 0)).envs a).envTf = sysTf 3 cid 0 := by
    simp [Kern.setTf]
  have hst' : ((s.kern.setTf a (sysTf 3 cid 0)).envs ch).envStatus = .dying := by
    rw [(s.kern.keeps_setTf a _ ch).envStatus, hst]
  have hne : (some a : Option Slot) ≠ some ch := fun hc ↦ h.ne (Option.some.inj hc).symm
  obtain ⟨l, el, hinv⟩ := h.inv
  have hbounded : Bounded demoConfig.machine (s.kern.setTf a (sysTf 3 cid 0)).mem
      (s.kern.setTf a (sysTf 3 cid 0)).dirs := by
    rw [Kern.dirs_setTf]
    exact h.bounded
  obtain ⟨k, hfree, henv, -, -, -, -, hother⟩ := (hinv.setTf a _).envFree_spec hbounded
    (e := ch) (by rw [Kern.Live, hst']; decide)
  have hcall : callOf demoConfig.machine (s.kern.setTf a (sysTf 3 cid 0)) a 0 =
      some (.ret 0, k) := by
    rw [callOf, hregs]
    show syscall _ _ a 0 3 cid 0 0 0 0 = _
    simp only [syscall, show sysNo 3 = some .envDestroy from rfl, sysEnvDestroy, htarget,
      envDestroy,
      hst', hfree, hne, false_and, reduceCtorEq, if_false, Option.bind_eq_bind, Option.bind_some]
    rfl
  have hrun : (k.envs a).envStatus = .running := by
    rw [hother a h.ne.symm, (s.kern.keeps_setTf a _ a).envStatus]
    exact h.runs.status
  refine ⟨_, h.runs.exec_back rfl hcall hrun, ?_, rfl⟩
  rw [Smp.status, Smp.kern_setKern, Kern.resumed_of_ne _ _ _ h.ne, henv]
  rfl

/-- Nothing changes for the parent when another CPU is scheduled. -/
theorem resched (h : Family s a ch cid) (hcpu : s'.cpus 0 = s.cpus 0)
    (hst : s'.status a = s.status a) (hre : s.kern.Resched s'.kern) : Family s' a ch cid := by
  obtain ⟨l, el, hinv⟩ := h.inv
  refine ⟨⟨?_, ?_, hst.trans h.runs.status⟩, h.ne, (hre.envs ch).envId.trans h.id, h.id_ne, h.slot,
    ?_, ⟨l, el, hinv.resched hre⟩, h.bounded.resched hre⟩
  · rw [hcpu]
    exact h.runs.started
  · rw [Smp.curenv, hcpu]
    exact h.runs.cur
  · rw [(hre.envs ch).envParentId, (hre.envs a).envId]
    exact h.parent

end Family

/-- A second CPU takes `b`. -/
theorem Duo.second {b : Slot} (h : Duo s a b) : ∃ s',
    (Entry.start 1).exec demoConfig.machine s = some s' ∧ Runs s' 0 a ∧ Runs s' 1 b ∧
    (∀ e, e ≠ a → e ≠ b → s'.status e = .free) ∧ (∀ c, c ≠ 0 → c ≠ 1 → s'.cpus c = {}) ∧
    s.kern.Resched s'.kern := by
  obtain ⟨l, el, hinv, hl⟩ := h.inv
  have hbst : (s.kern.envs b).envStatus = .runnable := h.ready
  obtain ⟨p, hpick, hp⟩ := exists_schedPick h.ready 1
  obtain rfl : p = b := by
    by_contra hpb
    by_cases hpa : p = a
    · rw [hpa, h.runs.status] at hp
      cases hp
    · rw [h.free p hpa hpb] at hp
      cases hp
  obtain ⟨d, hpg⟩ := Option.ne_none_iff_exists'.mp (hinv.pgdir p (by rw [Kern.Live, hbst]; decide))
  obtain ⟨s₁, hexec₁, hruns₁, hcpus₁, hst₁, hre⟩ :=
    @exec_start demoConfig.machine s 1 p d (h.cpus 1 (by decide)) hpick hpg
  refine ⟨s₁, hexec₁, ⟨?_, ?_, ?_⟩, hruns₁, fun e hea heb ↦ ?_, fun c hc₀ hc₁ ↦ ?_, hre⟩
  · rw [hcpus₁ 0 (by decide)]
    exact h.runs.started
  · rw [Smp.curenv, hcpus₁ 0 (by decide)]
    exact h.runs.cur
  · rw [hst₁ a h.ne]
    exact h.runs.status
  · rw [hst₁ e heb]
    exact h.free e hea heb
  · rw [hcpus₁ c hc₁]
    exact h.cpus c hc₀

/-- `a` makes a child. -/
theorem Runs.exec_fork (h : Runs s 0 a) {l : List ℕ} {el : List Slot}
    (hinv : Inv demoConfig.machine demoConfig.pool s.kern l el) (hl : l ≠ [])
    (hb : s.kern.Bounded demoConfig.machine) (hfree : s.status e = .free) : ∃ s' ch cid,
    (Entry.trap 0 (sysTf 7 0 0) 0 0).exec demoConfig.machine s = some s' ∧ Family s' a ch cid ∧
    s.status ch = .free ∧ s'.status ch = .notRunnable ∧
    (∀ e, e ≠ ch → s'.status e = s.status e) ∧ s'.cpus = s.cpus ∧
    ∃ l' el', Inv demoConfig.machine demoConfig.pool s'.kern l' el' ∧ l.length = l'.length + 1 := by
  let tf := sysTf 7 0 0
  have hset := s.kern.keeps_setTf a tf
  have hast : (s.kern.envs a).envStatus = .running := h.status
  have hregs : ((s.kern.setTf a tf).envs a).envTf = tf := by simp [Kern.setTf]
  obtain ⟨ch, d, l', el', k, hfork, hch, henv, hother, hinv', hev, hlen⟩ :=
    (hinv.setTf a tf).exists_exofork hl (e := e) (a := a)
      ((hset e).envStatus.trans hfree) (by rw [Kern.Live, (hset a).envStatus, hast]; decide)
  have hne : ch ≠ a := by
    rintro rfl
    rw [(hset ch).envStatus, hast] at hch
    cases hch
  have hcall : callOf demoConfig.machine (s.kern.setTf a tf) a 0 =
      some (.ret (nextEnvId ((s.kern.setTf a tf).envs ch).envId ch), k) := by
    rw [callOf, hregs]
    show syscall _ _ a 0 7 0 0 0 0 0 = _
    simp only [syscall, show sysNo 7 = some .exofork from rfl, returned, hfork, Option.map_some]
  have hrun : (k.envs a).envStatus = .running := by
    rw [hother a hne.symm, (hset a).envStatus, hast]
  have hb' : k.Bounded demoConfig.machine := by
    refine hev.bounded ?_ (by simp)
    rw [Kern.Bounded, Kern.dirs_setTf]
    exact hb
  refine ⟨_, ch, nextEnvId ((s.kern.setTf a tf).envs ch).envId ch,
    h.exec_back rfl hcall hrun, ⟨h.back hrun, hne, ?_, nextEnvId_ne_zero _ _,
    envx_nextEnvId _ _, ?_, ⟨l', el', hinv'.resumed⟩, ?_⟩, (hset ch).envStatus.symm.trans hch, ?_,
    fun e he ↦ ?_, rfl, l', el', hinv'.resumed, hlen⟩
  · rw [Smp.kern_setKern, Kern.resumed_of_ne _ _ _ hne, henv]
    rfl
  · rw [Smp.kern_setKern, Kern.resumed_of_ne _ _ _ hne, henv, Kern.resumed_self, hother a hne.symm]
    rfl
  · rw [Kern.Bounded, Smp.kern_setKern, Kern.dirs_resumed]
    exact hb'
  · rw [Smp.status, Smp.kern_setKern, Kern.resumed_of_ne _ _ _ hne, henv]
    rfl
  · rw [Smp.status, Smp.kern_setKern]
    by_cases hea : e = a
    · subst hea
      rw [Kern.resumed_self]
      exact hrun.trans hast.symm
    · rw [Kern.resumed_of_ne _ _ _ hea, hother e he, (hset e).envStatus]
      rfl

/-- The child of `a` dies on a third CPU. -/
structure Zombie (s₁ s₂ s₃ s₄ s₅ : Smp) (a ch : Slot) (cid : Word) : Prop where
  fork : (Entry.trap 0 (sysTf 7 0 0) 0 0).exec demoConfig.machine s₁ = some s₂
  ready : (Entry.trap 0 (sysTf 8 cid 2) 0 0).exec demoConfig.machine s₂ = some s₃
  start : (Entry.start 2).exec demoConfig.machine s₃ = some s₄
  doom : (Entry.trap 0 (sysTf 3 cid 0) 0 0).exec demoConfig.machine s₄ = some s₅
  free : s₁.status ch = .free
  child : Family s₂ a ch cid
  child' : Family s₅ a ch cid
  off : s₂.Off ch
  idle : s₂.status ch = .notRunnable
  running : s₄.status ch = .running
  dying : s₅.status ch = .dying
  cur : s₅.curenv 2 = some ch

/-- Any booted machine with two environments gets there. -/
theorem Duo.zombie {b : Slot} (h : Duo s a b) : ∃ s₁ s₂ s₃ s₄ s₅ ch cid,
    (Entry.start 1).exec demoConfig.machine s = some s₁ ∧ Runs s₁ 0 a ∧ Runs s₁ 1 b ∧
    Zombie s₁ s₂ s₃ s₄ s₅ a ch cid := by
  obtain ⟨l, el, hinv, hl⟩ := h.inv
  obtain ⟨s₁, hexec₁, hruns₀, hruns₁, hfree₁, hcpus₁, hre⟩ := h.second
  obtain ⟨e, hea, heb⟩ := exists_slot_ne a b
  obtain ⟨s₂, ch, cid, hexec₂, hfam, hchfree, hch₂, hst₂, hcpus₂, -⟩ :=
    hruns₀.exec_fork (hinv.resched hre) hl (h.bounded.resched hre) (hfree₁ e hea heb)
  have hchb : ch ≠ b := by
    rintro rfl
    rw [hruns₁.status] at hchfree
    cases hchfree
  have hoff : s₂.Off ch := by
    intro c hc
    rw [Smp.curenv, hcpus₂] at hc
    by_cases hc₀ : c = 0
    · rw [hc₀] at hc
      exact hfam.ne (Option.some.inj (hc.symm.trans hruns₀.cur))
    · by_cases hc₁ : c = 1
      · rw [hc₁] at hc
        exact hchb (Option.some.inj (hc.symm.trans hruns₁.cur))
      · rw [hcpus₁ c hc₀ hc₁] at hc
        cases hc
  have hlive : s₂.kern.Live ch := by
    rw [Kern.Live, show (s₂.kern.envs ch).envStatus = .notRunnable from hch₂]
    decide
  obtain ⟨s₃, hexec₃, hfam₃, hch₃, hst₃, hcpus₃, -⟩ := hfam.exec_setRunnable hlive
  -- the child is the only environment that waits for a CPU
  obtain ⟨p, hpick, hp⟩ := exists_schedPick hch₃ 2
  obtain rfl : p = ch := by
    by_contra hpc
    rw [hst₃ p hpc, hst₂ p hpc] at hp
    by_cases hpa : p = a
    · rw [hpa, hruns₀.status] at hp
      cases hp
    · by_cases hpb : p = b
      · rw [hpb, hruns₁.status] at hp
        cases hp
      · rw [hfree₁ p hpa hpb] at hp
        cases hp
  obtain ⟨l₃, el₃, hinv₃⟩ := hfam₃.inv
  obtain ⟨d, hpg⟩ := Option.ne_none_iff_exists'.mp (hinv₃.pgdir p
    (by rw [Kern.Live, show (s₃.kern.envs p).envStatus = .runnable from hch₃]; decide))
  obtain ⟨s₄, hexec₄, hruns₄, hcpus₄, hst₄, hre₄⟩ := @exec_start demoConfig.machine s₃ 2 p d
    (by rw [hcpus₃, hcpus₂, hcpus₁ 2 (by decide) (by decide)]) hpick hpg
  have hfam₄ : Family s₄ a p cid := hfam₃.resched (hcpus₄ 0 (by decide)) (hst₄ a hfam.ne.symm) hre₄
  obtain ⟨s₅, hexec₅, hfam₅, hch₅, -, hcpus₅, -⟩ := hfam₄.exec_doom hruns₄.status
  refine ⟨s₁, s₂, s₃, s₄, s₅, p, cid, hexec₁, hruns₀, hruns₁, hexec₂, hexec₃, hexec₄, hexec₅,
    hchfree, hfam, hfam₅, hoff, hch₂, hruns₄.status, hch₅, ?_⟩
  rw [Smp.curenv, hcpus₅]
  exact hruns₄.cur

end Jos
