import Jos.Kern.Authority
import Jos.Kern.Resume
import Jos.Lib.Circle

/-!
# Round robin

`sched_yield` takes the first runnable environment in circular order from the slot of `curenv` on,
or from slot 0 if `curenv` is `NULL`.  So it goes on after the slot that ran last only if that
slot is not runnable itself.  While that is so, and `curenv` is not `NULL`, every choice is nearer
to any other environment that stays runnable, and nobody overtakes it twice.
-/

namespace Jos

open Jos.Lib

variable {B : Machine} {s s' mid : Smp} {k : Kern} {c : CpuId} {a e j last p : Slot} {en : Entry}

/-! ## Calls of the scheduler -/

/-- The call of `sched_yield` at the end of `trap`, which goes back to an environment that runs. -/
def tailYields (s : Smp) (c : CpuId) : Option Smp :=
  match s.curenv c with
  | some e => if s.status e = .running then none else some s
  | none => some s

/-- The state in which an entry calls `sched_yield`, if it does. -/
def Entry.yields (B : Machine) (s : Smp) : Entry → Option Smp
  | .trap c tf cr2 getc =>
      match s.curenv c with
      | none => none
      | some cur =>
          if (s.cpus c).cpuStatus ≠ .started then none
          else if s.status cur = .dying then
            (envFree B s.kern cur).map fun k ↦ s.enter B c k none
          else match trapDispatch B (s.kern.setTf cur tf) cur cr2 getc with
            | some (.ret, k) => tailYields (s.enter B c k (some cur)) c
            | some (.yield o, k) => some (s.enter B c k o)
            | _ => none
  | .wake c trapno =>
      let s' := s.modCpu c fun cpu ↦ { cpu with cpuStatus := .started }
      if (s.cpus c).cpuStatus ≠ .halted then none
      else if trapno = IRQ_OFFSET + IRQ_SPURIOUS then tailYields s' c
      else if trapno = IRQ_OFFSET + IRQ_TIMER then some s'
      else none
  | .start c =>
      if (s.cpus c).cpuStatus ≠ .unused then none
      else some (s.modCpu c fun cpu ↦ { cpu with cpuStatus := .started, cr3 := B.kernPgdir })

theorem tailYields_some (h : tailYields s c = some mid) :
    mid = s ∧ trapTail B s c = schedYield B s c := by
  rw [tailYields] at h
  rw [trapTail]
  cases hcur : s.curenv c with
  | none =>
      rw [hcur] at h
      exact ⟨(Option.some.inj h).symm, rfl⟩
  | some e =>
      simp only [hcur] at h ⊢
      split at h
      · cases h
      · next hst => exact ⟨(Option.some.inj h).symm, if_neg hst⟩

theorem enter_some (hstarted : (s.cpus c).cpuStatus = .started) (k : Kern) (e : Slot) :
    s.enter B c k (some e) = s.setKern k := by
  rw [Smp.enter, Smp.modCpu_started hstarted]

/-- A trap of a zombie. -/
theorem exec_reap {tf : Trapframe} {cr2 getc : Word} (hstarted : (s.cpus c).cpuStatus = .started)
    (hcur : s.curenv c = some a) (hdying : s.status a = .dying) :
    (Entry.trap c tf cr2 getc).exec B s =
      (envFree B s.kern a).bind fun k ↦ schedYield B (s.enter B c k none) c := by
  rw [Entry.exec, if_pos hstarted, trapUser]
  simp only [show (s.modCpu c fun cpu ↦ { cpu with cpuStatus := .started }).curenv c = some a from
    (Smp.modCpu_started hstarted).symm ▸ hcur, Option.bind_eq_bind, Option.bind_some,
    Smp.status_modCpu, hdying, if_true]
  exact congrArg (envFree B s.kern a).bind (funext fun k ↦ yieldAs_eq)

/-- The rest of the entry is `sched_yield`. -/
theorem Entry.exec_of_yields (h : en.yields B s = some mid) :
    Entered B s en en.cpu mid ∧ en.exec B s = schedYield B mid en.cpu := by
  cases en with
  | start c =>
      simp only [yields] at h
      split at h
      · cases h
      · next hunused =>
          obtain rfl := Option.some.inj h
          rw [not_not] at hunused
          exact ⟨.start hunused, if_pos hunused⟩
  | wake c trapno =>
      simp only [yields] at h
      split at h
      · cases h
      next hhalted =>
      rw [not_not] at hhalted
      simp only [exec, if_pos hhalted, trapHalted]
      split at h
      · next hno =>
          obtain ⟨rfl, htail⟩ := tailYields_some (B := B) h
          exact ⟨.wake hhalted, (if_pos hno).trans htail⟩
      · next hno =>
          split at h
          · next htimer =>
              obtain rfl := Option.some.inj h
              exact ⟨.wake hhalted, (if_neg hno).trans (if_pos htimer)⟩
          · cases h
  | trap c tf cr2 getc =>
      simp only [yields] at h
      cases hcur : s.curenv c with
      | none =>
          rw [hcur] at h
          cases h
      | some cur =>
          simp only [hcur] at h
          split at h
          · cases h
          next hstarted =>
          rw [not_not] at hstarted
          split at h
          · next hdying =>
              obtain ⟨k, hfree, rfl⟩ := Option.map_eq_some_iff.mp h
              obtain ⟨hpg, m, rfl⟩ := envFree_eq hfree
              refine ⟨.reap m hcur hdying hpg, (exec_reap hstarted hcur hdying).trans ?_⟩
              rw [hfree, Option.bind_some]
              rfl
          next hdying =>
          have hexec : (Entry.trap c tf cr2 getc).exec B s = _ := exec_trap hstarted hcur hdying
          cases hd : trapDispatch B (s.kern.setTf cur tf) cur cr2 getc with
          | none =>
              rw [hd] at h
              cases h
          | some x =>
              obtain ⟨x, k⟩ := x
              rw [hd, Option.bind_some] at hexec
              rcases handled_of_trapDispatch hd with ⟨rfl, hh⟩ | ⟨o, rfl, hh⟩ | ⟨rfl, -⟩
              · simp only [hd] at h
                obtain ⟨rfl, htail⟩ := tailYields_some (B := B) h
                refine ⟨.trap hcur hdying hh, hexec.trans ?_⟩
                rw [enter_some hstarted] at htail ⊢
                exact htail
              · simp only [hd] at h
                obtain rfl := Option.some.inj h
                refine ⟨.trap hcur hdying hh, hexec.trans ?_⟩
                exact (congrArg (yieldAs B · c o) (congrArg (Smp.setKern · k)
                  (Smp.modCpu_started hstarted).symm)).trans yieldAs_eq
              · simp only [hd] at h
                cases h

/-- The environment waits for a CPU. -/
def Smp.Runnable (s : Smp) (e : Slot) : Prop := s.status e = .runnable

instance (s : Smp) : DecidablePred s.Runnable :=
  fun e ↦ inferInstanceAs (Decidable (s.status e = .runnable))

/-- Ids belong to slots, and the CPU has no free environment. -/
structure Seated (s : Smp) (c : CpuId) : Prop where
  id : ∀ e, s.kern.Live e → envx (s.kern.envs e).envId = e
  cur : ∀ e, s.curenv c = some e → s.kern.Live e

theorem schedPick_iff_of_curenv (h : Seated s c) (hcur : s.curenv c = some e) :
    schedPick s c = some p ↔ Circle.First s.Runnable e p := by
  simp only [schedPick, hcur, h.id e (h.cur e hcur)]
  exact Circle.find?_order

theorem schedPick_iff_of_null (hcur : s.curenv c = none) :
    schedPick s c = some p ↔ Circle.First s.Runnable (⟨0, by decide⟩ : Slot) p := by
  simp only [schedPick, hcur]
  exact Circle.find?_order

theorem curenv_envRun (hr : s.Runnable e) (h : envRun s c e = some s') : s'.curenv c = some e := by
  by_cases hcur : s.curenv c = some e
  · exact (schedules_envRun_self hcur h).2.1
  · exact (schedules_envRun_other hcur hr h).2.1

/-- `sched_yield` runs what it picks. -/
theorem curenv_schedYield (hpick : schedPick s c = some p) (h : schedYield B s c = some s') :
    s'.curenv c = some p := by
  rw [schedYield_of_pick hpick] at h
  exact curenv_envRun (schedPick_runnable hpick) h

namespace Seated

theorem boot {cfg : BootConfig} (booted : Booted cfg k) : Seated (Smp.boot k) c := by
  refine ⟨fun e he ↦ ?_, fun e he ↦ (nomatch he)⟩
  rcases booted.envs e with ⟨hf, -⟩ | ⟨-, -, hid, -⟩
  · exact absurd hf he.ne_free
  · show envx (k.envs e).envId = e
    rw [hid, ← nextEnvId_zero]
    exact envx_nextEnvId 0 e

theorem moved (h : Seated s c) (hm : Moved B s en c mid) : Seated mid c := by
  refine ⟨fun e he ↦ ?_, fun e he ↦ ?_⟩
  · rcases hm.ids_cases h.cur e with ⟨hids, hlive⟩ | ⟨cur, d, -, henv⟩
    · rw [show (mid.kern.envs e).envId = _ from congrArg Prod.fst hids]
      exact h.id e (hlive he)
    · rw [henv.envId]
      exact envx_nextEnvId _ e
  · have hcur := hm.curenv_before he
    exact hm.live_stays (h.cur e hcur) hcur he

theorem schedules (h : Seated s c) (hs : Schedules s c s') : Seated s' c := by
  refine ⟨fun e he ↦ ?_, fun e he ↦ ?_⟩
  · rw [(hs.envs e).envId]
    exact h.id e fun hf ↦ he ((hs.resched.free e).mpr hf)
  · rcases hs.curenv_cases he with hcur | ⟨-, -, -, hrun⟩
    · exact fun hf ↦ h.cur e hcur ((hs.resched.free e).mp hf)
    · show s'.status e ≠ .free
      rw [hrun]
      decide

theorem exec (h : Seated s c) (hcpu : en.cpu = c) (hexec : en.exec B s = some s') :
    Seated s' c := by
  obtain ⟨c', mid, hm, hs, -⟩ := Entry.exec_moved hexec
  obtain rfl : c' = c := hm.cpu.symm.trans hcpu
  exact (h.moved hm).schedules hs

end Seated

/-! ## The slot after the last one -/

/-- A run of a single CPU since boot, and the slot that it ran last.  In user mode the memory may
change. -/
inductive SoloRun (cfg : BootConfig) (c : CpuId) : Smp → Option Slot → Prop
  | boot {k : Kern} (booted : Booted cfg k) : SoloRun cfg c (Smp.boot k) none
  | entry {s s' : Smp} {last : Option Slot} {en : Entry} (run : SoloRun cfg c s last)
      (cpu : en.cpu = c) (exec : en.exec cfg.machine s = some s') :
      SoloRun cfg c s' ((s'.curenv c).or last)
  | user {s : Smp} {last : Option Slot} (m : Mem) (run : SoloRun cfg c s last) :
      SoloRun cfg c (s.setKern (s.kern.setMem m)) last

/-- Every environment has a page directory. -/
def Kern.Housed (k : Kern) : Prop := ∀ e, k.Live e → (k.envs e).envPgdir ≠ none

theorem Kern.Housed.moved (h : s.kern.Housed) (hm : Moved B s en c mid) (hs : Seated s c) :
    mid.kern.Housed := by
  intro e he
  rcases hm.envPgdir_cases e with hpg | hfree | ⟨cur, d, -, henv⟩
  · rcases hm.ids_cases hs.cur e with ⟨-, hlive⟩ | ⟨cur, d, -, henv⟩
    · rw [hpg]
      exact h e (hlive he)
    · rw [henv.envPgdir]
      exact Option.some_ne_none d
  · exact absurd hfree he
  · rw [henv.envPgdir]
    exact Option.some_ne_none d

theorem Kern.Housed.schedules (h : s.kern.Housed) (hs : Schedules s c s') : s'.kern.Housed := by
  intro e he
  rw [(hs.envs e).envPgdir]
  exact h e fun hf ↦ he ((hs.resched.free e).mpr hf)

namespace SoloRun

variable {cfg : BootConfig} {o : Option Slot}

theorem seated (run : SoloRun cfg c s o) : Seated s c := by
  induction run with
  | boot booted => exact .boot booted
  | entry _ cpu exec ih => exact ih.exec cpu exec
  | user m _ ih => exact ⟨ih.id, ih.cur⟩

theorem housed (run : SoloRun cfg c s o) : s.kern.Housed := by
  induction run with
  | boot booted =>
      obtain ⟨l, el, hb⟩ := booted.bootInv
      exact hb.inv.pgdir
  | entry run cpu exec ih =>
      obtain ⟨c', mid, hm, hs, -⟩ := Entry.exec_moved exec
      obtain rfl : c' = c := hm.cpu.symm.trans cpu
      exact (ih.moved hm run.seated).schedules hs
  | user m _ ih => exact ih

/-- What is on the CPU is what it ran last. -/
theorem last_eq (run : SoloRun cfg c s o) (hcur : s.curenv c = some e) : o = some e := by
  induction run with
  | boot booted => cases hcur
  | entry _ _ _ _ => rw [hcur, Option.some_or]
  | user m _ ih => exact ih hcur

end SoloRun

/-- The entry switches to the first runnable environment after slot `last`, when it calls
`sched_yield` in state `mid`. -/
def Entry.Continues (B : Machine) (s : Smp) (en : Entry) (mid : Smp) (last : Slot) : Prop :=
  ∃ p s', en.exec B s = some s' ∧ s'.curenv en.cpu = some p ∧
    Circle.First mid.Runnable (Circle.next last) p

/-- The search does not start at a runnable environment while there are others, and the one that
starts at slot 0 does not find one before `last` while there are some behind it. -/
def Smp.InTurn (mid : Smp) (c : CpuId) (last : Slot) : Prop :=
  match mid.curenv c with
  | some _ => mid.Runnable last → ∀ e, mid.Runnable e → e = last
  | none => (∀ e, mid.Runnable e → last < e) ∨ ∀ e, mid.Runnable e → e ≤ last

/-- On a single CPU, for every run: when `sched_yield` finds a runnable environment, it switches to
the first one after the slot that ran last, if and only if that slot is on the CPU and not runnable
beside another one, or the CPU has no environment and the runnable ones are all on one side of the
slot. -/
theorem sched_yield_next_iff {cfg : BootConfig} (run : SoloRun cfg c s (some last))
    (cpu : en.cpu = c) (yields : en.yields cfg.machine s = some mid) (ready : mid.Runnable e) :
    en.Continues cfg.machine s mid last ↔ mid.InTurn c last := by
  subst cpu
  obtain ⟨hentered, hexec⟩ := Entry.exec_of_yields yields
  have hm := hentered.moved
  have hseated := run.seated.moved hm
  obtain ⟨p, hpick, hp⟩ := exists_schedPick ready en.cpu
  have hlive : mid.kern.Live p := by
    rw [Kern.Live, show (mid.kern.envs p).envStatus = .runnable from hp]
    decide
  obtain ⟨s', hs'⟩ := exists_schedYield_of_pick (B := cfg.machine) hpick
    ((run.housed.moved hm run.seated) p hlive)
  have hcur := curenv_schedYield hpick hs'
  -- nothing else can be switched to
  have hiff : en.Continues cfg.machine s mid last ↔
      Circle.First mid.Runnable (Circle.next last) p := by
    rw [Entry.Continues, hexec, hs']
    refine ⟨?_, fun h ↦ ⟨p, s', rfl, hcur, h⟩⟩
    rintro ⟨q, s'', hq, hqcur, h⟩
    obtain rfl := Option.some.inj hq
    obtain rfl := Option.some.inj (hqcur.symm.trans hcur)
    exact h
  rw [hiff]
  cases hmid : mid.curenv en.cpu with
  | none =>
      rw [Smp.InTurn, hmid]
      exact ((schedPick_iff_of_null hmid).mp hpick).zero_next_iff rfl
  | some a =>
      obtain rfl := Option.some.inj (run.last_eq (hm.curenv_before hmid))
      rw [Smp.InTurn, hmid]
      exact ((schedPick_iff_of_curenv hseated hmid).mp hpick).next_iff

/-- A system call that returns calls the scheduler if its caller does not run any more. -/
theorem Entry.yields_ret {tf : Trapframe} {cr2 getc r : Word} (h : Runs s c a)
    (hno : tf.trapno = T_SYSCALL)
    (hcall : callOf B (s.kern.setTf a tf) a getc = some (.ret r, k))
    (hst : (k.envs a).envStatus ≠ .running) :
    (Entry.trap c tf cr2 getc).yields B s = some (s.setKern (k.setEax a r)) := by
  have hd : trapDispatch B (s.kern.setTf a tf) a cr2 getc = _ :=
    trapDispatch_syscall (by simpa [Kern.setTf] using hno) hcall
  have hcur : (s.setKern (k.setEax a r)).curenv c = some a := h.cur
  have hst' : (s.setKern (k.setEax a r)).status a ≠ .running := by
    simpa [Smp.status, Kern.setEax] using hst
  simp only [Entry.yields, h.cur, h.started, ne_eq, not_true_eq_false, if_false, h.alive, hd,
    Kern.finish, enter_some h.started, tailYields, hcur, hst']

/-- An environment that makes itself runnable, and the state in which it calls the scheduler. -/
theorem Runs.yields_self_runnable (h : Runs s c a) :
    (Entry.trap c (sysTf 8 0 2) 0 0).yields B s = some (s.setKern
      (((s.kern.setTf a (sysTf 8 0 2)).modEnv a fun env ↦
        { env with envStatus := .runnable }).setEax a 0)) := by
  refine Entry.yields_ret h rfl ?_ (by simp)
  simp [callOf, Kern.setTf, sysTf, syscall, sysNo, returned, sysEnvSetStatus, envid2env,
    ENV_RUNNABLE]

/-- An environment makes itself runnable while another one waits for the only CPU. -/
theorem exists_runnable_pair : ∃ s a b mid, SoloRun demoConfig 0 s (some a) ∧ a ≠ b ∧
    (Entry.trap 0 (sysTf 8 0 2) 0 0).yields demoConfig.machine s = some mid ∧
    mid.curenv 0 = some a ∧ mid.Runnable a ∧ mid.Runnable b := by
  obtain ⟨k, s, a, b, hbooted, hexec, hduo⟩ := exists_duo
  have hrun := (SoloRun.boot (c := 0) hbooted).entry (show (Entry.start 0).cpu = 0 from rfl) hexec
  rw [hduo.runs.cur, Option.some_or] at hrun
  refine ⟨s, a, b, _, hrun, hduo.ne, hduo.runs.yields_self_runnable, hduo.runs.cur, ?_, ?_⟩
  · simp [Smp.Runnable, Smp.status, Kern.setEax]
  · simpa [Smp.Runnable, Smp.status, Kern.setEax, Kern.setTf,
      Kern.envs_modEnv_of_ne _ _ hduo.ne.symm] using hduo.ready

theorem sched_yield_next_self : ∃ s mid a, SoloRun demoConfig 0 s (some a) ∧
    (Entry.trap 0 (sysTf 8 0 2) 0 0).yields demoConfig.machine s = some mid ∧
    ((Entry.trap 0 (sysTf 8 0 2) 0 0).Continues demoConfig.machine s mid a ↔ mid.InTurn 0 a) := by
  obtain ⟨s, a, b, mid, hrun, -, hyields, -, ha, -⟩ := exists_runnable_pair
  exact ⟨s, mid, a, hrun, hyields, sched_yield_next_iff hrun rfl hyields ha⟩

/-- It is taken again, and not the one that waits. -/
theorem sched_yield_stays : ∃ s mid a b, SoloRun demoConfig 0 s (some a) ∧
    (Entry.trap 0 (sysTf 8 0 2) 0 0).yields demoConfig.machine s = some mid ∧ mid.Runnable b ∧
    ¬ (Entry.trap 0 (sysTf 8 0 2) 0 0).Continues demoConfig.machine s mid a := by
  obtain ⟨s, a, b, mid, hrun, hne, hyields, hmid, ha, hb⟩ := exists_runnable_pair
  refine ⟨s, mid, a, b, hrun, hyields, hb, ?_⟩
  rintro ⟨p, s', hexec, hcur, hfirst⟩
  obtain ⟨hentered, heq⟩ := Entry.exec_of_yields hyields
  have hm := hentered.moved
  obtain ⟨q, hpick, hq⟩ := exists_schedPick ha 0
  obtain rfl := Option.some.inj ((curenv_schedYield hpick (heq.symm.trans hexec)).symm.trans hcur)
  have hself := (schedPick_iff_of_curenv (hrun.seated.moved hm) hmid).mp hpick
  exact hne (hself.next_iff.mp hfirst ha b hb).symm

/-! ## Nobody overtakes twice -/

/-- A call of `sched_yield`: the state, `curenv`, and what is chosen. -/
structure YieldCall where
  state : Smp
  cur : Slot
  next : Slot

/-- A run of a single CPU since boot, and its calls of `sched_yield` from some moment on, at which
`curenv` was not `NULL` and not runnable.  Between its entries everything but `curenv` may change,
as long as ids belong to slots. -/
inductive Turns (cfg : BootConfig) (c : CpuId) : Smp → List YieldCall → Prop
  | boot {k : Kern} (booted : Booted cfg k) : Turns cfg c (Smp.boot k) []
  | entry {s s' : Smp} {log : List YieldCall} {en : Entry} (run : Turns cfg c s log)
      (cpu : en.cpu = c) (quiet : en.yields cfg.machine s = none)
      (exec : en.exec cfg.machine s = some s') : Turns cfg c s' log
  | call {s mid s' : Smp} {log : List YieldCall} {en : Entry} {e p : Slot}
      (run : Turns cfg c s log) (cpu : en.cpu = c) (yields : en.yields cfg.machine s = some mid)
      (cur : mid.curenv c = some e) (idle : ¬ mid.Runnable e)
      (exec : en.exec cfg.machine s = some s') (chosen : s'.curenv c = some p) :
      Turns cfg c s' (log ++ [⟨mid, e, p⟩])
  | forget {s s' : Smp} {log : List YieldCall} {en : Entry} (run : Turns cfg c s log)
      (cpu : en.cpu = c) (exec : en.exec cfg.machine s = some s') : Turns cfg c s' []
  | change {s : Smp} {log : List YieldCall} {k : Kern} (run : Turns cfg c s log)
      (self : ∀ e, s.curenv c = some e → k.envs e = s.kern.envs e)
      (id : ∀ e, k.Live e → envx (k.envs e).envId = e) : Turns cfg c (s.setKern k) log

namespace Turns

variable {cfg : BootConfig} {log : List YieldCall}

theorem seated (run : Turns cfg c s log) : Seated s c := by
  induction run with
  | boot booted => exact .boot booted
  | entry _ cpu _ exec ih => exact ih.exec cpu exec
  | call _ cpu _ _ _ exec _ ih => exact ih.exec cpu exec
  | forget _ cpu exec ih => exact ih.exec cpu exec
  | change _ self id ih =>
      refine ⟨id, fun e he ↦ ?_⟩
      rw [Kern.Live, Smp.kern_setKern, self e he]
      exact ih.cur e he

end Turns

end Jos
