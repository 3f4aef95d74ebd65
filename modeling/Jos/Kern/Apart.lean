import Jos.Kern.Exec

/-!
# One CPU for each environment

The scheduler takes what is runnable and makes it running, so two CPUs can only get the same
environment if something makes it runnable while a CPU has it.  `sys_env_set_status` and
`sys_ipc_try_send` can: neither looks at the status that the environment has.  Without such calls
no environment is ever on two CPUs, and one that waits for a message is on none.
-/

namespace Jos

variable {B : Machine} {s s' mid : Smp} {k : Kern} {c : CpuId} {e : Slot} {en : Entry}

/-- The entry makes `e` runnable by a system call. -/
def Entry.Wakes (B : Machine) (s : Smp) (en : Entry) (e : Slot) : Prop :=
  en.SetsStatus s e .runnable ∨ ∃ cur value, en.Sends B s cur e value

/-- No environment is on two CPUs. -/
def Smp.Apart (s : Smp) : Prop :=
  ∀ c c' e, s.curenv c = some e → s.curenv c' = some e → c = c'

/-- No environment is on two CPUs, and what is on a CPU is not runnable. -/
structure Placed (s : Smp) : Prop where
  apart : s.Apart
  busy : ∀ c e, s.curenv c = some e → s.status e ≠ .runnable

theorem Placed.boot (k : Kern) : Placed (Smp.boot k) :=
  ⟨fun _ _ _ hc ↦ (nomatch hc), fun _ _ hc ↦ (nomatch hc)⟩

theorem Placed.moved (h : Placed s) (hm : Moved B s en c mid)
    (hG : ∀ e, en.Wakes B s e → s.Off e) : Placed mid := by
  refine ⟨fun c₁ c₂ e h₁ h₂ ↦ h.apart c₁ c₂ e (hm.curenv_before h₁) (hm.curenv_before h₂),
    fun c' e hc ↦ ?_⟩
  have hcur := hm.curenv_before hc
  cases hm.fate e with
  | same status recving =>
      rw [status]
      exact h.busy c' e hcur
  | set call status recving =>
      rw [status]
      rintro rfl
      exact hG e (.inl call) c' hcur
  | wake call waiting status recving => exact absurd hcur (hG e (.inr ⟨_, _, call⟩) c')
  | _ => simp [*]

theorem Placed.schedules (h : Placed s) (hs : Schedules s c s') : Placed s' := by
  refine ⟨fun c₁ c₂ e h₁ h₂ ↦ ?_, fun c' e hc ↦ ?_⟩
  · rcases hs.curenv_cases h₁ with h₁' | ⟨rfl, -, hr, -⟩
    · rcases hs.curenv_cases h₂ with h₂' | ⟨rfl, -, hr, -⟩
      · exact h.apart c₁ c₂ e h₁' h₂'
      · exact absurd hr (h.busy c₁ e h₁')
    · rcases hs.curenv_cases h₂ with h₂' | ⟨rfl, -⟩
      · exact absurd hr (h.busy c₂ e h₂')
      · rfl
  · rcases hs.curenv_cases hc with hc' | ⟨-, -, -, hrun⟩
    · rcases hs.status_cases e with hst | ⟨hr, -⟩ | ⟨-, -, hold, hnew⟩
      · rw [hst]
        exact h.busy c' e hc'
      · exact absurd hr (h.busy c' e hc')
      · obtain rfl := h.apart c' c e hc' hold
        exact absurd hc hnew
    · rw [hrun]
      decide

theorem Placed.exec (h : Placed s) (hG : ∀ e, en.Wakes B s e → s.Off e)
    (hexec : en.exec B s = some s') : Placed s' := by
  obtain ⟨c, mid, hm, hs, -⟩ := Entry.exec_moved hexec
  exact (h.moved hm hG).schedules hs

theorem not_calledBy_start (c c' : CpuId) (cur : Slot) (tf : Trapframe) :
    ¬ (Entry.start c).CalledBy s c' cur tf := by
  rintro ⟨⟨_, _, h⟩, -⟩
  cases h

theorem Entry.Wakes.calledBy (h : en.Wakes B s e) : ∃ c cur tf, en.CalledBy s c cur tf := by
  rcases h with ⟨c, cur, tf, hby, -⟩ | ⟨cur, _, c, tf, hby, -⟩
  · exact ⟨c, cur, tf, hby⟩
  · exact ⟨c, cur, tf, hby⟩

theorem not_wakes_start (c : CpuId) (e : Slot) : ¬ (Entry.start c).Wakes B s e := by
  intro h
  obtain ⟨c', cur, tf, hby⟩ := h.calledBy
  exact not_calledBy_start _ _ _ _ hby

/-- What waits for a message is on no CPU, and blocked. -/
structure Blocked (s : Smp) : Prop extends Placed s where
  off : ∀ e, s.recving e = true → s.Off e
  wait : ∀ e, s.recving e = true → s.status e = .notRunnable ∨ s.status e = .free

/-- A page fault is not a system call. -/
theorem Faults.not_calledBy (h : Faults s en c s') (c' : CpuId) (cur : Slot) (tf : Trapframe) :
    ¬ en.CalledBy s c' cur tf := by
  obtain ⟨-, tf', cr2, getc, rfl, hno, -⟩ := h
  rintro ⟨⟨cr2', getc', heq⟩, -, -, hsys⟩
  cases heq
  rw [hno] at hsys
  exact absurd hsys (by decide)

/-- A system call only reaches environments that are not free, or the caller. -/
theorem Entry.CalledBy.live {cur : Slot} {tf : Trapframe} {envid : Word} {b : Bool}
    (h : en.CalledBy s c cur tf) (htarget : envid2env s.kern cur envid b = some e)
    (hoff : s.Off e) : s.status e ≠ .free := by
  rcases envid2env_cases htarget with rfl | hlive
  · exact absurd h.2.1 (hoff c)
  · exact hlive

theorem Blocked.wakes (h : Blocked s)
    (hG : ∀ e, en.SetsStatus s e .runnable → s.Off e ∧ s.recving e = false) (e : Slot)
    (hwakes : en.Wakes B s e) : s.Off e := by
  rcases hwakes with hset | ⟨cur, value, hsend⟩
  · exact (hG e hset).1
  · exact h.off e hsend.recving

/-- Until the scheduler has run, an environment that has just called `sys_ipc_recv` is still on
its CPU. -/
theorem Blocked.moved (h : Blocked s) (hm : Moved B s en c mid)
    (hG : ∀ e, en.SetsStatus s e .runnable → s.Off e ∧ s.recving e = false)
    (he : mid.recving e = true) :
    (mid.status e = .notRunnable ∨ mid.status e = .free) ∧
      (mid.Off e ∨ mid.status e = .notRunnable ∧ s.curenv c = some e ∧
      ∃ dstva, en.Recvs s e dstva) := by
  have hoff : s.Off e → mid.Off e := fun hs c' hc ↦ hs c' (hm.curenv_before hc)
  cases hm.fate e with
  | same status recving =>
      rw [recving] at he
      rw [status]
      exact ⟨h.wait e he, .inl (hoff (h.off e he))⟩
  | doom call other running status recving =>
      have hw := h.wait e (recving ▸ he)
      simp [running] at hw
  | exit before after status recving => exact absurd before (h.off e (recving ▸ he) c)
  | free call other idle status recving =>
      exact ⟨.inr status, .inl (hoff (h.off e (recving ▸ he)))⟩
  | fork call status recving =>
      rw [recving] at he
      cases he
  | @set st call status recving =>
      rw [recving] at he
      refine ⟨?_, .inl (hoff (h.off e he))⟩
      rcases call.cases with rfl | rfl
      · have := (hG e call).2
        simp [he] at this
      · exact .inl status
  | wait call self status recving => exact ⟨.inl status, .inr ⟨status, self, _, call⟩⟩
  | wake call waiting status recving =>
      rw [recving] at he
      cases he

theorem Blocked.exec (h : Blocked s)
    (hG : ∀ e, en.SetsStatus s e .runnable → s.Off e ∧ s.recving e = false)
    (hexec : en.exec B s = some s') : Blocked s' := by
  obtain ⟨c, mid, hm, hs, hready⟩ := Entry.exec_moved hexec
  have hplaced := (h.toPlaced.moved hm (h.wakes hG))
  have hkeep : ∀ e, mid.recving e = true → s'.status e = mid.status e := by
    intro e he
    have hw := (h.moved hm hG he).1
    rcases hs.status_cases e with hst | ⟨hr, -⟩ | ⟨hr, -⟩
    · exact hst
    · simp [hr] at hw
    · simp [hr] at hw
  refine ⟨hplaced.schedules hs, fun e he c' hc ↦ ?_, fun e he ↦ ?_⟩
  · rw [hs.recving_eq] at he
    obtain ⟨hw, hoff⟩ := h.moved hm hG he
    rcases hs.curenv_cases hc with hc' | ⟨-, -, hr, -⟩
    swap
    · simp [hr] at hw
    rcases hoff with hoff | ⟨hnr, hself, dstva, c₁, tf, hby, -⟩
    · exact hoff c' hc'
    -- it called `sys_ipc_recv` on this CPU, where the scheduler found it blocked
    obtain rfl : c' = c := h.apart c' c e (hm.curenv_before hc') hself
    rcases hready with hr | hfault
    · have := hr e hc
      rw [hkeep e he, hnr] at this
      simp at this
    · exact hfault.not_calledBy _ _ _ hby
  · rw [hs.recving_eq] at he
    rw [hkeep e he]
    exact (h.moved hm hG he).1

/-- At boot nobody waits for a message. -/
theorem Blocked.boot {cfg : BootConfig} (h : Booted cfg k) : Blocked (Smp.boot k) := by
  refine ⟨.boot k, fun _ _ _ hc ↦ (nomatch hc), fun e he ↦ ?_⟩
  rcases h.envs e with ⟨hf, -⟩ | ⟨-, hr, -⟩
  · exact .inr hf
  · exact absurd (he.symm.trans hr) (by decide)

theorem not_setsStatus_start {st : EnvStatus} (c : CpuId) (e : Slot) :
    ¬ (Entry.start c).SetsStatus s e st := by
  rintro ⟨_, _, _, hby, -⟩
  exact not_calledBy_start _ _ _ _ hby

/-- The entry gives a status to `e`, which is running or waiting then. -/
def Entry.Revives (B : Machine) (s : Smp) (en : Entry) (e : Slot) : Prop :=
  (∃ st, en.SetsStatus s e st) ∨ (∃ cur value, en.Sends B s cur e value) ∨
    ∃ dstva, en.Recvs s e dstva

/-- A zombie stays one until it is freed, and then stays free until its slot is used again,
unless a system call is applied to it in the meantime. -/
theorem dying_is_final
    (run : Entries B (fun s en ↦ (s.status e = .dying ∨ s.status e = .free → ¬ en.Revives B s e) ∧
      ∀ cur, ¬ en.Forks B s cur e) s s')
    (h : s.status e = .dying) : s'.status e = .dying ∨ s'.status e = .free := by
  refine run.invariant (P := fun s ↦ s.status e = .dying ∨ s.status e = .free) ?_ (.inl h)
  intro s en s' h ⟨hrevive, hfork⟩ hexec
  obtain ⟨c, mid, hm, hs, -⟩ := Entry.exec_moved hexec
  have hmid : mid.status e = .dying ∨ mid.status e = .free := by
    cases hm.fate e with
    | same status recving => exact status ▸ h
    | doom call other running status recving => exact .inl status
    | exit before after status recving => exact .inr status
    | free call other idle status recving => exact .inr status
    | fork call status recving => exact absurd call (hfork _)
    | set call status recving => exact absurd (.inl ⟨_, call⟩) (hrevive h)
    | wait call self status recving => exact absurd (.inr (.inr ⟨_, call⟩)) (hrevive h)
    | wake call waiting status recving => exact absurd (.inr (.inl ⟨_, _, call⟩)) (hrevive h)
  rcases hs.status_cases e with hst | ⟨hr, -⟩ | ⟨hr, -⟩
  · exact hst ▸ hmid
  · simp [hr] at hmid
  · simp [hr] at hmid

theorem exists_zombie : ∃ k s a ch cid, Booted demoConfig k ∧
    Entries demoConfig.machine (fun _ _ ↦ True) (Smp.boot k) s ∧ Family s a ch cid ∧
      s.status ch = .dying := by
  obtain ⟨k, s, a, b, hbooted, hexec, hduo⟩ := exists_duo
  obtain ⟨s₁, s₂, s₃, s₄, s₅, ch, cid, hexec₁, -, -, hz⟩ := hduo.zombie
  refine ⟨k, s₅, a, ch, cid, hbooted, ?_, hz.child', hz.dying⟩
  exact (((((Relation.ReflTransGen.single ⟨_, trivial, hexec⟩).tail ⟨_, trivial, hexec₁⟩).tail
    ⟨_, trivial, hz.fork⟩).tail ⟨_, trivial, hz.ready⟩).tail ⟨_, trivial, hz.start⟩).tail
    ⟨_, trivial, hz.doom⟩

/-- A zombie whose parent calls `sys_getenvid`. -/
theorem dying_is_final_getenvid : ∃ k s s' e, Booted demoConfig k ∧
    Entries demoConfig.machine (fun _ _ ↦ True) (Smp.boot k) s ∧ s.status e = .dying ∧
      (Entry.trap 0 (sysTf 2 0 0) 0 0).exec demoConfig.machine s = some s' ∧
      (s'.status e = .dying ∨ s'.status e = .free) := by
  obtain ⟨k, s, a, ch, cid, hbooted, hrun, hfam, hdying⟩ := exists_zombie
  have hcall : callOf demoConfig.machine (s.kern.setTf a (sysTf 2 0 0)) a 0 =
      some (.ret (s.kern.envs a).envId, s.kern.setTf a (sysTf 2 0 0)) := by
    simp [callOf, Kern.setTf, sysTf, syscall, sysNo]
  have hexec : (Entry.trap 0 (sysTf 2 0 0) 0 0).exec demoConfig.machine s = some _ :=
    hfam.runs.exec_back rfl hcall
      (by rw [(s.kern.keeps_setTf a _ a).envStatus]; exact hfam.runs.status)
  have hno : ∀ {c cur tf n}, (Entry.trap 0 (sysTf 2 0 0) 0 0).CalledBy s c cur tf →
      sysNo tf.regs.eax = some n → n = .getenvid := by
    rintro c cur tf n ⟨⟨_, _, heq⟩, -⟩ hn
    cases heq
    exact (Option.some.inj hn).symm
  refine ⟨k, s, _, ch, hbooted, hrun, hdying, hexec, dying_is_final (B := demoConfig.machine)
    (.single ⟨_, ⟨fun _ ↦ ?_, fun cur ↦ ?_⟩, hexec⟩) hdying⟩
  · rintro (⟨_, _, _, _, hby, hn, -⟩ | ⟨_, _, _, _, hby, hn, -⟩ | ⟨_, _, _, hby, hn, -⟩)
    · cases hno hby hn
    · cases hno hby hn
    · cases hno hby hn
  · rintro ⟨_, _, hby, hn, -⟩
    cases hno hby hn

/-- `sys_env_set_status` makes a zombie runnable. -/
theorem zombie_revived : ∃ k s s' e en, Booted demoConfig k ∧
    Entries demoConfig.machine (fun _ _ ↦ True) (Smp.boot k) s ∧ s.status e = .dying ∧
      Entry.exec demoConfig.machine s en = some s' ∧
        (∀ cur, ¬ en.Forks demoConfig.machine s cur e) ∧
      s'.status e = .runnable := by
  obtain ⟨k, s, a, ch, cid, hbooted, hrun, hfam, hdying⟩ := exists_zombie
  have hlive : s.kern.Live ch := by
    rw [Kern.Live, show (s.kern.envs ch).envStatus = .dying from hdying]
    decide
  obtain ⟨s', hexec, -, hst, -⟩ := hfam.exec_setRunnable hlive
  refine ⟨k, s, s', ch, _, hbooted, hrun, hdying, hexec, ?_, hst⟩
  rintro cur ⟨c, tf, ⟨⟨_, _, heq⟩, -⟩, hno, -⟩
  cases heq
  exact absurd (show sysNo 8 = some .exofork from hno) (by decide)

end Jos
