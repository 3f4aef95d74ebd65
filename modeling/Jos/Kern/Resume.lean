import Jos.Kern.Life

/-!
# Back to user mode

`env_run` stores the status and loads the page directory only if the environment is not on the
CPU already; so what it resumes is running, with its own page directory, only because of what
earlier entries have left.  On one CPU that is so, unless an environment makes itself runnable.
-/

namespace Jos

open Jos.Lib

variable {B : Machine} {s s' mid : Smp} {k : Kern} {c : CpuId} {e : Slot} {en : Entry}

/-- What a single CPU `c` resumes is running, and its page directory is loaded. -/
structure Resumes (s : Smp) (c : CpuId) : Prop where
  alone : ∀ c', c' ≠ c → s.curenv c' = none
  idle : (s.cpus c).cpuStatus ≠ .started → s.curenv c = none
  list : FreeEnvs s.kern
  running : ∀ e, s.curenv c = some e → s.status e = .running
  pgdir : ∀ e, s.curenv c = some e → (s.kern.envs e).envPgdir = some (s.cpus c).cr3

/-- A single CPU has no free environment. -/
theorem Resumes.live (h : Resumes s c) {c' : CpuId} (hc : s.curenv c' = some e) :
    s.status e ≠ .free := by
  obtain rfl : c' = c := by
    by_contra hcc
    rw [h.alone c' hcc] at hc
    cases hc
  rw [h.running e hc]
  decide

/-- The environment that was on the CPU, if it is still there when the scheduler is called. -/
theorem Resumes.moved (h : Resumes s c) (hm : Moved B s en c mid)
    (hG : ∀ e, s.curenv c = some e → ¬ en.Wakes B s e) (hc : mid.curenv c = some e) :
    (mid.status e = .running ∨
      mid.status e = .notRunnable ∧ ∃ cur tf, en.CalledBy s c cur tf) ∧
    (mid.kern.envs e).envPgdir = some (mid.cpus c).cr3 := by
  have hcur := hm.curenv_before hc
  have hrun := h.running e hcur
  have hnotfree : mid.status e ≠ .free → (mid.kern.envs e).envPgdir = some (mid.cpus c).cr3 := by
    intro hf
    rcases hm.envPgdir_cases e with hpg | hfree | ⟨cur, d, ⟨_, _, _, _, hhead, _⟩, -⟩
    · obtain ⟨e₁, -, ⟨-, hnone, -⟩ | ⟨⟨-, hcr3⟩, -⟩⟩ := hm.envs
      · rw [hnone] at hc
        cases hc
      · rw [hpg, h.pgdir e hcur]
        rcases hcr3 with hcr3 | hunused
        · rw [hcr3]
        · rw [h.idle (by rw [hunused]; decide)] at hcur
          cases hcur
    · exact absurd hfree hf
    · have hfree : s.status e = .free := h.list.head_free hhead
      rw [hrun] at hfree
      cases hfree
  have hcall : ∀ {c' cur tf}, en.CalledBy s c' cur tf → ∃ cur tf, en.CalledBy s c cur tf := by
    intro c' cur tf hby
    obtain ⟨⟨cr2, getc, rfl⟩, -⟩ := id hby
    exact ⟨cur, tf, hm.cpu ▸ hby⟩
  cases hm.fate e with
  | same status recving =>
      rw [hrun] at status
      exact ⟨.inl status, hnotfree (by simp [status])⟩
  | set call status recving =>
      rcases call.cases with rfl | rfl
      · exact absurd (.inl call) (hG e hcur)
      · obtain ⟨c', cur, tf, hby, -⟩ := call
        exact ⟨.inr ⟨status, hcall hby⟩, hnotfree (by simp [status])⟩
  | wait call self status recving =>
      obtain ⟨c', tf, hby, -⟩ := call
      exact ⟨.inr ⟨status, hcall hby⟩, hnotfree (by simp [status])⟩
  | doom call other running status recving => exact absurd hcur other
  | exit before after status recving =>
      rw [after] at hc
      cases hc
  | free call other idle status recving => exact absurd hcur other
  | fork call status recving =>
      obtain ⟨-, -, -, -, hhead, -⟩ := call
      have hfree : s.status e = .free := h.list.head_free hhead
      rw [hrun] at hfree
      cases hfree
  | wake call waiting status recving => exact absurd (.inr ⟨_, _, call⟩) (hG e hcur)

theorem Resumes.exec (h : Resumes s c) (hcpu : en.cpu = c)
    (hG : ∀ e, s.curenv c = some e → ¬ en.Wakes B s e) (hexec : en.exec B s = some s') :
    Resumes s' c := by
  obtain ⟨c', mid, hm, hs, hready⟩ := Entry.exec_moved hexec
  obtain rfl : c = c' := hcpu.symm.trans hm.cpu
  refine ⟨fun c' hc ↦ ?_, fun hidle ↦ ?_, (h.list.moved hm h.live).schedules hs, fun e hc ↦ ?_,
    fun e hc ↦ ?_⟩
  · rw [hs.curenv_of_ne hc, hm.curenv_of_ne hc]
    exact h.alone c' hc
  · cases hs.switch with
    | halt idle none same => exact none
    | stay before after cpu same =>
        rw [cpu] at hidle
        exact absurd hm.started hidle
    | run before after cpu cr3 ready running others =>
        rw [cpu] at hidle
        exact absurd hm.started hidle
  · cases hs.switch with
    | halt idle none same =>
        rw [none] at hc
        cases hc
    | stay before after cpu same =>
        rw [same]
        rcases (h.moved hm hG (before.trans (after.symm.trans hc))).1 with
          hrun | ⟨hst, cur, tf, hby⟩
        · exact hrun
        · -- it blocked, and so the scheduler did not take it again
          rcases hready with hr | hfault
          · have := hr e hc
            simp [same, hst] at this
          · exact absurd hby (hfault.not_calledBy _ _ _)
    | run before after cpu cr3 ready running others =>
        obtain rfl := Option.some.inj (after.symm.trans hc)
        exact running
  · rw [(hs.envs e).envPgdir]
    cases hs.switch with
    | halt idle none same =>
        rw [none] at hc
        cases hc
    | stay before after cpu same =>
        rw [cpu]
        exact (h.moved hm hG (before.trans (after.symm.trans hc))).2
    | run before after cpu cr3 ready running others =>
        obtain rfl := Option.some.inj (after.symm.trans hc)
        exact cr3

theorem Resumes.boot {cfg : BootConfig} (boot : Booted cfg k) : Resumes (Smp.boot k) c :=
  ⟨fun _ _ ↦ rfl, fun _ ↦ rfl, (Life.boot boot).list, fun _ hc ↦ (nomatch hc),
    fun _ hc ↦ (nomatch hc)⟩

/-- On one CPU, and unless a system call makes its own caller runnable: what the CPU resumes is
`curenv`, it is running, and its page directory is loaded. -/
theorem resumed_running {cfg : BootConfig} (boot : Booted cfg k)
    (run : Entries B (fun s en ↦ en.cpu = c ∧ ∀ e, s.curenv c = some e → ¬ en.Wakes B s e)
      (Smp.boot k) s) (e : Slot) (hc : s.curenv c = some e) :
    s.status e = .running ∧ (s.kern.envs e).envPgdir = some (s.cpus c).cr3 := by
  have h := run.invariant (P := fun s ↦ Resumes s c)
    (fun _ _ _ h hG hexec ↦ h.exec hG.1 hG.2 hexec) (.boot boot)
  exact ⟨h.running e hc, h.pgdir e hc⟩

theorem resumed_running_start : ∃ k s a, Booted demoConfig k ∧
    (Entry.start 0).exec demoConfig.machine (Smp.boot k) = some s ∧ s.curenv 0 = some a ∧
    s.status a = .running ∧ (s.kern.envs a).envPgdir = some (s.cpus 0).cr3 := by
  obtain ⟨k, s, a, b, hbooted, hexec, hduo⟩ := exists_duo
  exact ⟨k, s, a, hbooted, hexec, hduo.runs.cur, resumed_running (B := demoConfig.machine) hbooted
    (.single ⟨.start 0, ⟨rfl, fun e _ ↦ not_wakes_start 0 e⟩, hexec⟩) a hduo.runs.cur⟩

/-- After `sys_env_set_status(0, ENV_RUNNABLE)` an environment runs that is only runnable. -/
theorem resumed_runnable : ∃ k s a, Booted demoConfig k ∧
    Entries demoConfig.machine (fun _ en ↦ en.cpu = 0) (Smp.boot k) s ∧ s.curenv 0 = some a ∧
      s.status a = .runnable := by
  obtain ⟨k, s, a, b, hbooted, hexec, hduo⟩ := exists_duo
  have halive : s.kern.Live a := by
    rw [Kern.Live, show (s.kern.envs a).envStatus = .running from hduo.runs.status]
    decide
  obtain ⟨s', hexec', hcpus, hst, -⟩ := hduo.runs.exec_self_runnable (hduo.id a halive).1
  refine ⟨k, s', a, hbooted, ?_, ?_, hst⟩
  · exact (Relation.ReflTransGen.single ⟨_, rfl, hexec⟩).tail ⟨_, rfl, hexec'⟩
  · rw [Smp.curenv, hcpus]
    exact hduo.runs.cur

end Jos
