import Jos.Kern.LifeSpec
import Jos.Kern.Trap
import Mathlib.Logic.Relation

/-!
# Kernel entries

An `Entry` is what makes a CPU enter the kernel: a trap of the environment it runs, an interrupt
that wakes it up, or its start.  `Entry.exec` runs the entry to the moment the lock is released,
and `Entries` is any interleaving of the entries of the CPUs.

Every entry ends in the scheduler.  `Schedules` says what that does: apart from the CPU itself it
changes the status of at most two environments, from running to runnable and from runnable to
running.
-/

namespace Jos

variable {B : Machine} {s s' : Smp} {k k' : Kern} {c : CpuId} {e cur : Slot}

/-! ## Entries -/

/-- What makes a CPU enter the kernel. -/
inductive Entry where
  | trap (c : CpuId) (tf : Trapframe) (cr2 getc : Word)
  | wake (c : CpuId) (trapno : Word)
  | start (c : CpuId)

/-- The CPU that enters the kernel. -/
def Entry.cpu : Entry → CpuId
  | .trap c _ _ _ => c
  | .wake c _ => c
  | .start c => c

/-- Run an entry, which is possible for a CPU that runs an environment, for one that is halted,
and for one that has not started. -/
def Entry.exec (B : Machine) (s : Smp) : Entry → Option Smp
  | .trap c tf cr2 getc =>
      if (s.cpus c).cpuStatus = .started then trapUser B s c tf cr2 getc else none
  | .wake c trapno =>
      if (s.cpus c).cpuStatus = .halted then trapHalted B s c trapno else none
  | .start c => if (s.cpus c).cpuStatus = .unused then cpuStart B s c else none

/-- Any interleaving of entries with property `G`. -/
def Entries (B : Machine) (G : Smp → Entry → Prop) : Smp → Smp → Prop :=
  Relation.ReflTransGen fun s s' ↦ ∃ en, G s en ∧ Entry.exec B s en = some s'

/-- All CPUs are still to start. -/
def Smp.boot (k : Kern) : Smp := ⟨k, fun _ ↦ {}⟩

namespace Smp

@[simp] theorem kern_setKern (s : Smp) (k : Kern) : (s.setKern k).kern = k := rfl
@[simp] theorem cpus_setKern (s : Smp) (k : Kern) : (s.setKern k).cpus = s.cpus := rfl
@[simp] theorem curenv_setKern (s : Smp) (k : Kern) (c : CpuId) :
    (s.setKern k).curenv c = s.curenv c := rfl
@[simp] theorem kern_modCpu (s : Smp) (c : CpuId) (f : Cpu → Cpu) :
    (s.modCpu c f).kern = s.kern := rfl
@[simp] theorem status_modCpu (s : Smp) (c : CpuId) (f : Cpu → Cpu) (e : Slot) :
    (s.modCpu c f).status e = s.status e := rfl
@[simp] theorem cpus_modCpu_self (s : Smp) (c : CpuId) (f : Cpu → Cpu) :
    (s.modCpu c f).cpus c = f (s.cpus c) := by
  simp [modCpu]

theorem cpus_modCpu_of_ne (s : Smp) {c c' : CpuId} (f : Cpu → Cpu) (h : c' ≠ c) :
    (s.modCpu c f).cpus c' = s.cpus c' := by
  simp [modCpu, h]

end Smp

/-! ## The scheduler -/

/-- The environments agree but for the fields the scheduler stores into. -/
def Env.Resched (a b : Env) : Prop :=
  b = { a with envStatus := b.envStatus, envRuns := b.envRuns, envCpunum := b.envCpunum }

theorem Env.Resched.refl (a : Env) : a.Resched a := rfl

theorem Env.Resched.trans {a₁ a₂ a₃ : Env} (h : a₁.Resched a₂) (h' : a₂.Resched a₃) :
    a₁.Resched a₃ := by
  rw [Env.Resched, h', h]

namespace Env.Resched

variable {a b : Env}

theorem envLink (h : a.Resched b) : b.envLink = a.envLink := by rw [h]
theorem envId (h : a.Resched b) : b.envId = a.envId := by rw [h]
theorem envParentId (h : a.Resched b) : b.envParentId = a.envParentId := by rw [h]
theorem envPgdir (h : a.Resched b) : b.envPgdir = a.envPgdir := by rw [h]
theorem envIpcRecving (h : a.Resched b) : b.envIpcRecving = a.envIpcRecving := by rw [h]
theorem envIpcValue (h : a.Resched b) : b.envIpcValue = a.envIpcValue := by rw [h]
theorem envIpcFrom (h : a.Resched b) : b.envIpcFrom = a.envIpcFrom := by rw [h]
theorem envTf (h : a.Resched b) : b.envTf = a.envTf := by rw [h]

end Env.Resched

theorem Kern.resched_modEnv (k : Kern) (e : Slot) (f : Env → Env)
    (hf : (k.envs e).Resched (f (k.envs e))) (e' : Slot) :
    (k.envs e').Resched ((k.modEnv e f).envs e') := by
  by_cases he : e' = e
  · subst he
    rw [Kern.envs_modEnv_self]
    exact hf
  · rw [Kern.envs_modEnv_of_ne k f he]
    exact .refl _

/-- What became of the environment that CPU `c` ran, and of the one it runs now. -/
inductive Switch (s : Smp) (c : CpuId) (s' : Smp) : Prop
  | halt (idle : ∀ e, s.curenv c = some e → s.status e ≠ .running) (none : s'.curenv c = none)
      (same : ∀ e, s'.status e = s.status e)
  | stay {e : Slot} (before : s.curenv c = some e) (after : s'.curenv c = some e)
      (cpu : s'.cpus c = s.cpus c) (same : ∀ e, s'.status e = s.status e)
  | run {e : Slot} (before : s.curenv c ≠ some e) (after : s'.curenv c = some e)
      (cpu : (s'.cpus c).cpuStatus = (s.cpus c).cpuStatus)
      (cr3 : (s.kern.envs e).envPgdir = some (s'.cpus c).cr3)
      (ready : s.status e = .runnable) (running : s'.status e = .running)
      (others : ∀ e', e' ≠ e → s'.status e' =
        if s.curenv c = some e' ∧ s.status e' = .running then .runnable else s.status e')

/-- What the scheduler does on CPU `c`. -/
structure Schedules (s : Smp) (c : CpuId) (s' : Smp) : Prop where
  mem : s'.kern.mem = s.kern.mem
  freeList : s'.kern.envFreeList = s.kern.envFreeList
  cpus : ∀ c', c' ≠ c → s'.cpus c' = s.cpus c'
  envs : ∀ e, (s.kern.envs e).Resched (s'.kern.envs e)
  switch : Switch s c s'

/-- The scheduler only runs what is running or runnable. -/
def Ready (s : Smp) (c : CpuId) : Prop :=
  ∀ e, s.curenv c = some e → s.status e = .running ∨ s.status e = .runnable

/-- `env_run` of the environment the CPU runs. -/
theorem schedules_envRun_self (hcur : s.curenv c = some e) (h : envRun s c e = some s') :
    Schedules s c s' ∧ s'.curenv c = some e ∧ s'.status e = s.status e := by
  simp only [envRun, hcur, ne_eq, not_true_eq_false, if_false, Option.pure_def,
    Option.bind_eq_bind, Option.bind_some, Option.some.injEq] at h
  subst h
  have hsame : ∀ e', (s.setKern (s.kern.modEnv e fun env ↦ { env with envCpunum := c })).status e' =
      s.status e' := by
    intro e'
    by_cases he : e' = e
    · subst he
      simp [Smp.status]
    · simp [Smp.status, Kern.envs_modEnv_of_ne _ _ he]
  refine ⟨⟨rfl, rfl, fun _ _ ↦ rfl, fun e' ↦ ?_, .stay hcur hcur rfl hsame⟩, hcur, hsame e⟩
  exact s.kern.resched_modEnv e (fun env ↦ { env with envCpunum := c }) rfl e'

/-- The environment that leaves the CPU in `env_run`. -/
def leaveCpu (k : Kern) : Option Slot → Kern
  | none => k
  | some o => k.modEnv o fun env ↦
      if env.envStatus = .running then { env with envStatus := .runnable } else env

theorem leaveCpu_resched (k : Kern) (o : Option Slot) (e : Slot) :
    (k.envs e).Resched ((leaveCpu k o).envs e) := by
  cases o with
  | none => exact .refl _
  | some o => exact k.resched_modEnv o _ (by split <;> rfl) e

theorem leaveCpu_status (k : Kern) (o : Option Slot) (e : Slot) :
    ((leaveCpu k o).envs e).envStatus =
      if o = some e ∧ (k.envs e).envStatus = .running then .runnable
      else (k.envs e).envStatus := by
  cases o with
  | none => simp [leaveCpu]
  | some o =>
      by_cases he : e = o
      · subst he
        by_cases hrun : (k.envs e).envStatus = .running <;> simp [leaveCpu, hrun]
      · rw [leaveCpu, Kern.envs_modEnv_of_ne _ _ he, if_neg fun hc ↦ he (Option.some.inj hc.1).symm]

/-- `env_run` of another environment, which is runnable. -/
theorem schedules_envRun_other (hcur : s.curenv c ≠ some e) (hready : s.status e = .runnable)
    (h : envRun s c e = some s') :
    Schedules s c s' ∧ s'.curenv c = some e ∧ s'.status e = .running := by
  -- the two stores into the environment that is run
  let go : Env → Env := fun env ↦
    { env with envStatus := .running, envRuns := env.envRuns + 1, envCpunum := c }
  have hk : ∃ d, (s.kern.envs e).envPgdir = some d ∧ s' =
      (s.setKern ((leaveCpu s.kern (s.curenv c)).modEnv e go)).modCpu c fun cpu ↦
      { cpu with cpuEnv := some e, cr3 := d } := by
    simp only [envRun, ne_eq, hcur, not_false_eq_true, if_true, Option.bind_eq_bind,
      Option.bind_eq_some_iff, Option.pure_def, Option.some.injEq] at h
    obtain ⟨d, hd, _, rfl, rfl⟩ := h
    refine ⟨d, ?_, ?_⟩
    · refine (congrArg Env.envPgdir (leaveCpu_resched s.kern (s.curenv c) e)).symm.trans ?_
      rw [Kern.envs_modEnv_self] at hd
      revert hd
      cases s.curenv c <;> exact id
    simp only [Smp.setKern, Smp.modCpu, Kern.modEnv, Function.update_idem, Function.update_self]
    cases s.curenv c <;> rfl
  obtain ⟨d, hd, rfl⟩ := hk
  have hother : ∀ e', e' ≠ e → ((leaveCpu s.kern (s.curenv c)).modEnv e go).envs e' =
      (leaveCpu s.kern (s.curenv c)).envs e' := fun e' he' ↦ Kern.envs_modEnv_of_ne _ _ he'
  have hafter : ((s.setKern ((leaveCpu s.kern (s.curenv c)).modEnv e go)).modCpu c fun cpu ↦
      { cpu with cpuEnv := some e, cr3 := d }).curenv c = some e := by
    simp [Smp.curenv]
  have hrunning : ((s.setKern ((leaveCpu s.kern (s.curenv c)).modEnv e go)).modCpu c fun cpu ↦
      { cpu with cpuEnv := some e, cr3 := d }).status e = .running := by
    simp [Smp.status, go]
  refine ⟨⟨?_, ?_, fun c' hc' ↦ Smp.cpus_modCpu_of_ne _ _ hc', fun e' ↦ ?_,
    .run hcur hafter (by simp) (by simpa using hd) hready hrunning fun e' he' ↦ ?_⟩, hafter,
    hrunning⟩
  · cases s.curenv c <;> rfl
  · cases s.curenv c <;> rfl
  · exact (leaveCpu_resched s.kern _ e').trans (Kern.resched_modEnv _ e go rfl e')
  · show ((leaveCpu s.kern (s.curenv c)).modEnv e go |>.envs e').envStatus = _
    rw [hother e' he']
    exact leaveCpu_status s.kern _ e'

/-- `env_run` of an environment that is ready. -/
theorem scheduled_envRun
    (hready : s.curenv c = some e ∧ s.status e = .running ∨ s.status e = .runnable)
    (h : envRun s c e = some s') : Schedules s c s' ∧ Ready s' c := by
  by_cases hcur : s.curenv c = some e
  · obtain ⟨hs, hafter, hsame⟩ := schedules_envRun_self hcur h
    refine ⟨hs, fun e' he' ↦ ?_⟩
    obtain rfl := Option.some.inj (hafter.symm.trans he')
    rw [hsame]
    exact hready.imp_left And.right
  · obtain ⟨hs, hafter, hrunning⟩ :=
      schedules_envRun_other hcur (hready.resolve_left fun hc ↦ hcur hc.1) h
    refine ⟨hs, fun e' he' ↦ ?_⟩
    obtain rfl := Option.some.inj (hafter.symm.trans he')
    exact .inl hrunning

theorem scheduled_schedHalt (hidle : ∀ e, s.curenv c = some e → s.status e ≠ .running)
    (h : schedHalt B s c = some s') : Schedules s c s' ∧ Ready s' c := by
  rw [schedHalt] at h
  split at h
  · obtain rfl := Option.some.inj h
    have hnone : (s.modCpu c fun _ ↦ { cpuStatus := .halted, cr3 := B.kernPgdir }).curenv c =
        none := by
      simp [Smp.curenv]
    refine ⟨⟨rfl, rfl, fun c' hc' ↦ Smp.cpus_modCpu_of_ne _ _ hc', fun _ ↦ .refl _,
      .halt hidle hnone fun _ ↦ rfl⟩, fun e he ↦ ?_⟩
    rw [hnone] at he
    cases he
  · cases h

theorem schedPick_runnable (h : schedPick s c = some e) : s.status e = .runnable := by
  simp only [schedPick] at h
  have hp := List.find?_some h
  exact of_decide_eq_true hp

section

attribute [local irreducible] schedPick

theorem schedYield_eq : schedYield B s c =
    match schedPick s c with
    | some e => envRun s c e
    | none =>
        match s.curenv c with
        | some e => if s.status e = .running then envRun s c e else schedHalt B s c
        | none => schedHalt B s c := rfl

theorem schedYield_of_pick (h : schedPick s c = some e) : schedYield B s c = envRun s c e := by
  rw [schedYield_eq, h]

theorem schedYield_of_none (h : schedPick s c = none) : schedYield B s c =
    match s.curenv c with
    | some e => if s.status e = .running then envRun s c e else schedHalt B s c
    | none => schedHalt B s c := by
  rw [schedYield_eq, h]

theorem scheduled_schedYield (h : schedYield B s c = some s') : Schedules s c s' ∧ Ready s' c := by
  cases hpick : schedPick s c with
  | some e =>
      rw [schedYield_of_pick hpick] at h
      exact scheduled_envRun (.inr (schedPick_runnable hpick)) h
  | none =>
      rw [schedYield_of_none hpick] at h
      split at h
      · next e hcur =>
          split at h
          · next hrun => exact scheduled_envRun (.inl ⟨hcur, hrun⟩) h
          · next hrun =>
              refine scheduled_schedHalt (fun e' he' ↦ ?_) h
              rwa [Option.some.inj (he'.symm.trans hcur)]
      · next hcur => exact scheduled_schedHalt (fun e' he' ↦ by simp [hcur] at he') h

end

theorem scheduled_trapTail (h : trapTail B s c = some s') : Schedules s c s' ∧ Ready s' c := by
  rw [trapTail] at h
  split at h
  · next e hcur =>
      split at h
      · next hrun => exact scheduled_envRun (.inl ⟨hcur, hrun⟩) h
      · exact scheduled_schedYield h
  · exact scheduled_schedYield h

/-! ## What the scheduler leaves -/

namespace Schedules

theorem curenv_of_ne (h : Schedules s c s') {c' : CpuId} (hc : c' ≠ c) :
    s'.curenv c' = s.curenv c' := congrArg Cpu.cpuEnv (h.cpus c' hc)

/-- What a CPU runs, it ran before or was runnable. -/
theorem curenv_cases (h : Schedules s c s') {c' : CpuId} (hc : s'.curenv c' = some e) :
    s.curenv c' = some e ∨
      c' = c ∧ s.curenv c ≠ some e ∧ s.status e = .runnable ∧ s'.status e = .running := by
  by_cases hcc : c' = c
  swap
  · exact .inl (h.curenv_of_ne hcc ▸ hc)
  subst hcc
  cases h.switch with
  | halt idle none same =>
      rw [none] at hc
      cases hc
  | stay before after cpu same => exact .inl (before.trans (after.symm.trans hc))
  | run before after cpu cr3 ready running others =>
      obtain rfl := Option.some.inj (after.symm.trans hc)
      exact .inr ⟨rfl, before, ready, running⟩

/-- The status of an environment changes only if it goes onto the CPU or leaves it. -/
theorem status_cases (h : Schedules s c s') (e : Slot) :
    s'.status e = s.status e ∨
    (s.status e = .runnable ∧ s'.status e = .running ∧ s'.curenv c = some e) ∨
    (s.status e = .running ∧ s'.status e = .runnable ∧ s.curenv c = some e ∧
      s'.curenv c ≠ some e) := by
  cases h.switch with
  | halt idle none same => exact .inl (same e)
  | stay before after cpu same => exact .inl (same e)
  | @run e₁ before after cpu cr3 ready running others =>
      by_cases he : e = e₁
      · subst he
        exact .inr (.inl ⟨ready, running, after⟩)
      · rw [others e he]
        split
        · next hc =>
            refine .inr (.inr ⟨hc.2, rfl, hc.1, fun hc' ↦ ?_⟩)
            exact he (Option.some.inj (hc'.symm.trans after))
        · exact .inl rfl

/-- A running environment stays on its CPU or becomes runnable. -/
theorem running_cases (h : Schedules s c s') (hc : s.curenv c = some e)
    (hrun : s.status e = .running) : s'.curenv c = some e ∨ s'.status e = .runnable := by
  cases h.switch with
  | halt idle none same => exact absurd hrun (idle e hc)
  | stay before after cpu same => exact .inl (after.trans (before.symm.trans hc))
  | @run e₁ before after cpu cr3 ready running others =>
      have he : e ≠ e₁ := fun he ↦ before (he ▸ hc)
      rw [others e he, if_pos ⟨hc, hrun⟩]
      exact .inr rfl

end Schedules

/-- A property that every entry preserves holds after every run. -/
theorem Entries.invariant {G : Smp → Entry → Prop} {P : Smp → Prop} (run : Entries B G s s')
    (step : ∀ s en s', P s → G s en → Entry.exec B s en = some s' → P s') (h : P s) : P s' := by
  induction run with
  | refl => exact h
  | tail _ hstep ih =>
      obtain ⟨en, hG, hexec⟩ := hstep
      exact step _ en _ ih hG hexec

end Jos
