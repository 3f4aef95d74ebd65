import Jos.Kern.Exec

/-!
# Hardware interrupts (`kern/trap.c`, `kern/picirq.c`, `kern/console.c`, `kern/lapic.c`)

Three places decide about an interrupt: the gate that `trap_init` installs, the masks of the
8259A and of the local APIC, and the switch in `trap_dispatch`.  The keyboard has a gate and
`kbd_init` unmasks it, but the switch has no case for it: like every trap that it does not know,
a key destroys the environment that happens to run.
-/

namespace Jos

open Jos.Lib

variable {B : Machine} {s s' mid : Smp} {k k' : Kern} {c : CpuId} {e cur : Slot} {tf : Trapframe}
  {cr2 getc : Word}

/-! ## Which interrupts there are -/

def IRQ_KBD : Word := 1
def IRQ_SERIAL : Word := 4
def IRQ_IDE : Word := 14
def IRQ_ERROR : Word := 19
def IRQ_SLAVE : ℕ := 2

/-- The vectors of hardware interrupts for which `trap_init` installs a gate. -/
def irqGates : List Word :=
  [IRQ_TIMER, IRQ_KBD, IRQ_SERIAL, IRQ_SPURIOUS, IRQ_IDE, IRQ_ERROR].map (IRQ_OFFSET + ·)

/-- `kbd_init`, which gets the mask of the 8259A. -/
def kbdInit (mask : BitVec 16) : BitVec 16 :=
  mask &&& ~~~((1 : BitVec 16) <<< IRQ_KBD.toNat)

/-- `irq_mask_8259A` once the kernel has booted. -/
def irqMask8259A : BitVec 16 := kbdInit (0xFFFF &&& ~~~((1 : BitVec 16) <<< IRQ_SLAVE))

/-- The vectors that the 8259A raises. -/
def picVectors : List Word :=
  ((List.range 16).filter fun i ↦ ¬ irqMask8259A.getLsbD i).map fun i ↦
    IRQ_OFFSET + BitVec.ofNat 32 i

/-- The vectors that `lapic_init` gives to the local APIC. -/
def lapicVectors : List Word := [IRQ_SPURIOUS, IRQ_TIMER, IRQ_ERROR].map (IRQ_OFFSET + ·)

/-- `trap_init` installs a gate for the vector, and the kernel leaves it unmasked. -/
def HwInterrupt (vector : Word) : Prop :=
  vector ∈ irqGates ∧ (vector ∈ picVectors ∨ vector ∈ lapicVectors)

theorem hwInterrupt_iff {vector : Word} : HwInterrupt vector ↔
    vector = IRQ_OFFSET + IRQ_TIMER ∨ vector = IRQ_OFFSET + IRQ_SPURIOUS ∨
      vector = IRQ_OFFSET + IRQ_KBD ∨ vector = IRQ_OFFSET + IRQ_ERROR := by
  have hpic : picVectors = [IRQ_OFFSET + IRQ_KBD, IRQ_OFFSET + 2] := by decide
  simp only [HwInterrupt, irqGates, lapicVectors, hpic, List.map_cons, List.map_nil,
    List.mem_cons, List.not_mem_nil, or_false]
  constructor
  · rintro ⟨h₁ | h₁ | h₁ | h₁ | h₁ | h₁, h₂⟩ <;> subst h₁ <;> revert h₂ <;> decide
  · rintro (h | h | h | h) <;> subst h <;> decide

/-! ## What becomes of the environment -/

/-- The environment that was interrupted with the frame `tf` is still there and can go on. -/
structure Transparent (s s' : Smp) (cur : Slot) (tf : Trapframe) : Prop where
  live : s'.kern.Live cur
  id : (s'.kern.envs cur).envId = (s.kern.envs cur).envId
  pgdir : (s'.kern.envs cur).envPgdir = (s.kern.envs cur).envPgdir
  space : s'.kern.space cur = s.kern.space cur
  tf : (s'.kern.envs cur).envTf = tf
  status : s'.status cur = .running ∨ s'.status cur = .runnable

/-- Scheduling takes running environments to runnable ones and back. -/
theorem Schedules.running_or_runnable (h : Schedules s c s') (e : Slot) :
    (s'.status e = .running ∨ s'.status e = .runnable) ↔
      (s.status e = .running ∨ s.status e = .runnable) := by
  rcases h.status_cases e with hst | ⟨h₁, h₂, -⟩ | ⟨h₁, h₂, -⟩
  · rw [hst]
  · rw [h₁, h₂]
    simp
  · rw [h₁, h₂]
    simp

/-- Saving the frame and calling the scheduler does nothing to the environment. -/
theorem Schedules.transparent_iff (h : Schedules (s.setKern (s.kern.setTf cur tf)) c s') :
    Transparent s s' cur tf ↔ s.status cur = .running ∨ s.status cur = .runnable := by
  have hst : (s.setKern (s.kern.setTf cur tf)).status cur = s.status cur :=
    (s.kern.keeps_setTf cur tf cur).envStatus
  have henv := h.envs cur
  rw [Smp.kern_setKern] at henv
  constructor
  · intro ht
    rw [← hst]
    exact (h.running_or_runnable cur).mp ht.status
  · intro hrun
    have hrun' := (h.running_or_runnable cur).mpr (by rwa [hst])
    have hlive : s'.kern.Live cur := by
      rw [Kern.Live]
      rcases hrun' with hr | hr <;> rw [show (s'.kern.envs cur).envStatus = _ from hr] <;> decide
    refine ⟨hlive, ?_, ?_, ?_, ?_, hrun'⟩
    · rw [henv.envId]
      simp [Kern.setTf]
    · rw [henv.envPgdir]
      simp [Kern.setTf]
    · have hdirs : s'.kern.dirs = s.kern.dirs :=
        (h.resched.dirs_eq).trans (Kern.dirs_setTf s.kern cur tf)
      exact congrFun (Kern.space_of_dirs hdirs h.mem) cur
    · rw [henv.envTf]
      simp [Kern.setTf]

/-- What `trap_dispatch` does about an interrupt. -/
theorem trapDispatch_interrupt (hirq : HwInterrupt (k.envs cur).envTf.trapno)
    {x : Exit} (h : trapDispatch B k cur cr2 getc = some (x, k')) :
    ((k.envs cur).envTf.trapno = IRQ_OFFSET + IRQ_SPURIOUS ∧ x = .ret ∧ k' = k) ∨
    ((k.envs cur).envTf.trapno = IRQ_OFFSET + IRQ_TIMER ∧ x = .yield (some cur) ∧ k' = k) ∨
    ((k.envs cur).envTf.trapno ≠ IRQ_OFFSET + IRQ_TIMER ∧
      (k.envs cur).envTf.trapno ≠ IRQ_OFFSET + IRQ_SPURIOUS ∧ x = .yield none ∧
      envFree B k cur = some k') := by
  have hno : ∀ v : Word, (v ≠ IRQ_OFFSET + IRQ_TIMER ∧ v ≠ IRQ_OFFSET + IRQ_SPURIOUS ∧
      v ≠ IRQ_OFFSET + IRQ_KBD ∧ v ≠ IRQ_OFFSET + IRQ_ERROR) → (k.envs cur).envTf.trapno ≠ v := by
    rintro v ⟨h₁, h₂, h₃, h₄⟩ rfl
    rcases hwInterrupt_iff.mp hirq with hc | hc | hc | hc
    · exact h₁ hc
    · exact h₂ hc
    · exact h₃ hc
    · exact h₄ hc
  simp only [trapDispatch, if_neg (hno T_PGFLT (by decide)), if_neg (hno T_BRKPT (by decide)),
    if_neg (hno T_SYSCALL (by decide))] at h
  split at h
  · next hspurious =>
      obtain ⟨rfl, rfl⟩ := Prod.mk.inj (Option.some.inj h)
      exact .inl ⟨hspurious, rfl, rfl⟩
  next hspurious =>
  split at h
  · next htimer =>
      obtain ⟨rfl, rfl⟩ := Prod.mk.inj (Option.some.inj h)
      exact .inr (.inl ⟨htimer, rfl, rfl⟩)
  next htimer =>
  -- the kernel does not know the vector
  simp only [envDestroy, ne_eq, not_true_eq_false, and_false, if_false, if_true,
    Option.bind_eq_bind, Option.bind_eq_some_iff, Option.pure_def, Option.some.injEq,
    Prod.exists, Prod.mk.injEq] at h
  obtain ⟨_, _, ⟨k₁, hfree, rfl, rfl⟩, rfl, rfl⟩ := h
  exact .inr (.inr ⟨htimer, hspurious, rfl, hfree⟩)

/-! ## The scheduler finds something to run -/

theorem exists_schedYield (hcur : s.curenv c = some cur)
    (hrun : s.status cur = .running ∨ s.status cur = .runnable)
    (hpg : ∀ e, s.status e = .runnable → (s.kern.envs e).envPgdir ≠ none) :
    ∃ s', schedYield B s c = some s' := by
  cases hpick : schedPick s c with
  | some e =>
      exact exists_schedYield_of_pick hpick (hpg e (schedPick_runnable hpick))
  | none =>
      rcases hrun with hrun | hready
      · rw [schedYield_of_none hpick, hcur]
        simp only [hrun, if_true]
        exact exists_envRun (.inl hcur)
      · obtain ⟨e, he, -⟩ := exists_schedPick hready c
        rw [hpick] at he
        cases he

/-- An interrupt that the kernel knows is handled. -/
theorem exists_interrupt (hno : tf.trapno = IRQ_OFFSET + IRQ_TIMER ∨
      tf.trapno = IRQ_OFFSET + IRQ_SPURIOUS)
    (hstarted : (s.cpus c).cpuStatus = .started) (hcur : s.curenv c = some cur)
    (hrun : s.status cur = .running ∨ s.status cur = .runnable)
    (hpg : ∀ e, s.status e = .runnable → (s.kern.envs e).envPgdir ≠ none) :
    ∃ s', (Entry.trap c tf cr2 getc).exec B s = some s' := by
  have hst : ∀ e, (s.setKern (s.kern.setTf cur tf)).status e = s.status e :=
    fun e ↦ (s.kern.keeps_setTf cur tf e).envStatus
  have hcur' : (s.setKern (s.kern.setTf cur tf)).curenv c = some cur := hcur
  have hpg' : ∀ e, (s.setKern (s.kern.setTf cur tf)).status e = .runnable →
      ((s.setKern (s.kern.setTf cur tf)).kern.envs e).envPgdir ≠ none := by
    intro e he
    rw [hst] at he
    rw [Smp.kern_setKern, (s.kern.keeps_setTf cur tf e).envPgdir]
    exact hpg e he
  have hyield := exists_schedYield (B := B) hcur' (by rwa [hst]) hpg'
  rw [exec_trap hstarted hcur (by rcases hrun with hr | hr <;> rw [hr] <;> decide)]
  rcases hno with hno | hno
  · have hdispatch : trapDispatch B (s.kern.setTf cur tf) cur cr2 getc =
        some (.yield (some cur), s.kern.setTf cur tf) := by
      simp [trapDispatch, Kern.setTf, hno, IRQ_OFFSET, IRQ_TIMER, IRQ_SPURIOUS, T_PGFLT, T_BRKPT,
        T_SYSCALL]
    rw [hdispatch, Option.bind_some]
    simp only [yieldAs]
    exact hyield
  · have hdispatch : trapDispatch B (s.kern.setTf cur tf) cur cr2 getc =
        some (.ret, s.kern.setTf cur tf) := by
      simp [trapDispatch, Kern.setTf, hno]
    rw [hdispatch, Option.bind_some]
    simp only [trapTail, hcur']
    split
    · exact exists_envRun (.inl hcur')
    · exact hyield

/-- `trap` leaves the environment alone exactly if `trap_dispatch` knows the interrupt and the
environment may run. -/
theorem interrupt_transparent_iff (hirq : HwInterrupt tf.trapno) (hcur : s.curenv c = some cur)
    (hdying : s.status cur ≠ .dying) (run : (Entry.trap c tf cr2 getc).exec B s = some s') :
    Transparent s s' cur tf ↔
      (tf.trapno = IRQ_OFFSET + IRQ_TIMER ∨ tf.trapno = IRQ_OFFSET + IRQ_SPURIOUS) ∧
      (s.status cur = .running ∨ s.status cur = .runnable) := by
  have htf : ((s.kern.setTf cur tf).envs cur).envTf = tf := by simp [Kern.setTf]
  rw [exec_trap (started_of_exec run) hcur hdying] at run
  obtain ⟨⟨x, k⟩, hdispatch, run⟩ := Option.bind_eq_some_iff.mp run
  rcases trapDispatch_interrupt (by rwa [htf]) hdispatch with
    ⟨hno, rfl, rfl⟩ | ⟨hno, rfl, rfl⟩ | ⟨htimer, hspurious, rfl, hfree⟩
  · rw [htf] at hno
    rw [(scheduled_trapTail run).1.transparent_iff, and_iff_right (.inr hno)]
  · rw [htf] at hno
    simp only [yieldAs] at run
    rw [(scheduled_schedYield run).1.transparent_iff, and_iff_right (.inl hno)]
  · rw [htf] at htimer hspurious
    simp only [yieldAs] at run
    refine iff_of_false (fun ht ↦ ?_) fun hc ↦ hc.1.elim htimer hspurious
    obtain ⟨-, m, rfl⟩ := envFree_eq hfree
    have hfreed := ((scheduled_schedYield run).1.running_or_runnable cur).mp ht.status
    simp [Smp.status, freedEnv] at hfreed

/-- The clock interrupts the first environment. -/
theorem interrupt_transparent_timer : ∃ k s a s', Booted demoConfig k ∧
    (Entry.start 0).exec demoConfig.machine (Smp.boot k) = some s ∧ s.curenv 0 = some a ∧
    (Entry.trap 0 { trapno := IRQ_OFFSET + IRQ_TIMER } 0 0).exec demoConfig.machine s = some s' ∧
    Transparent s s' a { trapno := IRQ_OFFSET + IRQ_TIMER } := by
  obtain ⟨k, s, a, b, hbooted, hexec, hduo⟩ := exists_duo
  obtain ⟨l, el, hinv, -⟩ := hduo.inv
  obtain ⟨s', hrun⟩ := @exists_interrupt demoConfig.machine s 0 a
    { trapno := IRQ_OFFSET + IRQ_TIMER } 0 0 (.inl rfl) hduo.runs.started hduo.runs.cur
    (.inl hduo.runs.status) fun e he ↦ hinv.pgdir e (ne_of_eq_of_ne he (by decide))
  exact ⟨k, s, a, s', hbooted, hexec, hduo.runs.cur, hrun,
    (interrupt_transparent_iff (hwInterrupt_iff.mpr (.inl rfl)) hduo.runs.cur hduo.runs.alive
      hrun).mpr ⟨.inl rfl, .inl hduo.runs.status⟩⟩

/-- A key is pressed while an environment runs. -/
theorem keyboard_destroys : ∃ k s a s', Booted demoConfig k ∧
    (Entry.start 0).exec demoConfig.machine (Smp.boot k) = some s ∧ s.curenv 0 = some a ∧
    s.status a = .running ∧ HwInterrupt (IRQ_OFFSET + IRQ_KBD) ∧
    (Entry.trap 0 { trapno := IRQ_OFFSET + IRQ_KBD } 0 0).exec demoConfig.machine s = some s' ∧
    s'.status a = .free ∧ ¬ Transparent s s' a { trapno := IRQ_OFFSET + IRQ_KBD } := by
  obtain ⟨k, s, a, b, hbooted, hexec, hduo⟩ := exists_duo
  obtain ⟨l, el, hinv, -⟩ := hduo.inv
  let tf : Trapframe := { trapno := IRQ_OFFSET + IRQ_KBD }
  have hst : ∀ e, ((s.kern.setTf a tf).envs e).envStatus = s.status e :=
    fun e ↦ (s.kern.keeps_setTf a tf e).envStatus
  have hbounded : Bounded demoConfig.machine (s.kern.setTf a tf).mem (s.kern.setTf a tf).dirs := by
    rw [Kern.dirs_setTf]
    exact hduo.bounded
  obtain ⟨k', hfree, henv, -, -, -, -, hother⟩ := (hinv.setTf a tf).envFree_spec hbounded (e := a)
    (by rw [Kern.Live, hst, hduo.runs.status]; decide)
  have hdispatch : trapDispatch demoConfig.machine (s.kern.setTf a tf) a 0 0 =
      some (.yield none, k') := by
    have htf : ((s.kern.setTf a tf).envs a).envTf = tf := by simp [Kern.setTf]
    simp only [trapDispatch, htf, tf, envDestroy, hfree, ne_eq, not_true_eq_false, and_false,
      if_false, if_true, show ¬ IRQ_OFFSET + IRQ_KBD = IRQ_OFFSET + IRQ_SPURIOUS by decide,
      show ¬ IRQ_OFFSET + IRQ_KBD = T_PGFLT by decide,
      show ¬ IRQ_OFFSET + IRQ_KBD = T_BRKPT by decide,
      show ¬ IRQ_OFFSET + IRQ_KBD = T_SYSCALL by decide,
      show ¬ IRQ_OFFSET + IRQ_KBD = IRQ_OFFSET + IRQ_TIMER by decide, Option.bind_eq_bind,
      Option.bind_some]
    rfl
  -- the CPU goes on with `b`
  let mid := (s.setKern k').modCpu 0 fun cpu ↦
    { cpu with cpuEnv := none, cr3 := demoConfig.machine.kernPgdir }
  have hready : mid.status b = .runnable := by
    show (k'.envs b).envStatus = _
    rw [hother b hduo.ne.symm, hst, hduo.ready]
  obtain ⟨p, hpick, hp⟩ := exists_schedPick hready 0
  have hpa : p ≠ a := by
    rintro rfl
    have hfreed : (k'.envs p).envStatus = .free := by rw [henv]; rfl
    exact absurd (hp.symm.trans hfreed) (by decide)
  have hstp : s.status p = .runnable := by
    rw [← hst, ← hother p hpa]
    exact hp
  obtain ⟨d, hd⟩ := Option.ne_none_iff_exists'.mp
    (hinv.pgdir p (ne_of_eq_of_ne hstp (by decide)))
  have hpg : (mid.kern.envs p).envPgdir = some d := by
    show (k'.envs p).envPgdir = _
    rw [hother p hpa, (s.kern.keeps_setTf a tf p).envPgdir, hd]
  obtain ⟨s', hrun, hs, -⟩ := @schedYield_run demoConfig.machine mid 0 p d hpick hpg
    (by simp [mid, Smp.curenv])
  have hexec' : (Entry.trap 0 tf 0 0).exec demoConfig.machine s = some s' := by
    rw [exec_trap hduo.runs.started hduo.runs.cur hduo.runs.alive, hdispatch, Option.bind_some]
    exact hrun
  have hfree' : s'.status a = .free := by
    rw [Smp.status, hs.resched.free]
    show (k'.envs a).envStatus = _
    rw [henv]
    rfl
  exact ⟨k, s, a, s', hbooted, hexec, hduo.runs.cur, hduo.runs.status,
    hwInterrupt_iff.mpr (.inr (.inr (.inl rfl))), hexec', hfree', fun ht ↦ ht.live hfree'⟩

end Jos
