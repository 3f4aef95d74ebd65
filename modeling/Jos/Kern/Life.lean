import Jos.Kern.Apart

/-!
# The life of an environment

`Life` ties the status of the environments to the CPUs and to the list of free environments:
what runs or dies is on exactly one CPU, what waits for a message is blocked, and what is free is
on the list.  It holds whenever the kernel lock is free, as long as `sys_env_set_status` and
`sys_env_destroy` are used in order (`Entry.Orderly`).

The kernel checks none of this.  A second `sys_env_destroy` of a running environment frees it
under the CPU that runs it.
-/

namespace Jos

open Jos.Lib

variable {B : Machine} {s s' mid : Smp} {k k' : Kern} {c : CpuId} {e cur : Slot} {en : Entry}

/-! ## The list of free environments -/

/-- `env_free_list` consists of the free environments, each once. -/
def FreeEnvs (k : Kern) : Prop :=
  ∃ el, Chain (fun e ↦ (k.envs e).envLink) k.envFreeList el ∧
    ∀ e, e ∈ el ↔ (k.envs e).envStatus = .free

namespace FreeEnvs

theorem of_same (h : FreeEnvs k) (hlist : k'.envFreeList = k.envFreeList)
    (hlink : ∀ e, (k'.envs e).envLink = (k.envs e).envLink)
    (hfree : ∀ e, (k'.envs e).envStatus = .free ↔ (k.envs e).envStatus = .free) : FreeEnvs k' := by
  obtain ⟨el, hchain, hel⟩ := h
  refine ⟨el, ?_, fun e ↦ (hel e).trans (hfree e).symm⟩
  rw [hlist]
  exact hchain.congr fun e _ ↦ hlink e

/-- All but one environment keep their place in the list. -/
theorem of_keeps (h : FreeEnvs k) (hlist : k'.envFreeList = k.envFreeList)
    (hother : ∀ e', e' ≠ e → (k.envs e').Keeps (k'.envs e'))
    (hlink : (k'.envs e).envLink = (k.envs e).envLink)
    (hfree : (k'.envs e).envStatus = .free ↔ (k.envs e).envStatus = .free) : FreeEnvs k' := by
  refine h.of_same hlist (fun e' ↦ ?_) fun e' ↦ ?_
  · by_cases he : e' = e
    · exact he ▸ hlink
    · exact (hother e' he).envLink
  · by_cases he : e' = e
    · exact he ▸ hfree
    · rw [(hother e' he).envStatus]

/-- `env_free` of an environment that is not free. -/
theorem freed (h : FreeEnvs s.kern) (he : s.status e ≠ .free) (hf : Freed s e k)
    (hother : ∀ e', e' ≠ e → (s.kern.envs e').Keeps (k.envs e')) : FreeEnvs k := by
  obtain ⟨el, hchain, hel⟩ := h
  have hnot : e ∉ el := fun hc ↦ he ((hel e).mp hc)
  refine ⟨e :: el, ?_, fun e' ↦ ?_⟩
  · rw [hf.list]
    refine (hchain.push hnot).congr fun e' _ ↦ ?_
    by_cases hee : e' = e
    · subst hee
      rw [Function.update_self]
      exact hf.env.envLink
    · rw [(hother e' hee).envLink, Function.update_of_ne hee]
  · by_cases hee : e' = e
    · subst hee
      simp [show (k.envs e').envStatus = .free from hf.env.envStatus]
    · rw [(hother e' hee).envStatus, ← hel e']
      simp [hee]

theorem head_free (h : FreeEnvs k) (he : k.envFreeList = some e) :
    (k.envs e).envStatus = .free := by
  obtain ⟨el, hchain, hel⟩ := h
  rw [he] at hchain
  obtain ⟨t, rfl, -⟩ := hchain.pop
  exact (hel e).mp List.mem_cons_self

/-- `sys_exofork` takes the head of the list. -/
theorem forked (h : FreeEnvs k) (he : k.envFreeList = some e)
    (hlist : k'.envFreeList = (k.envs e).envLink) (hlive : (k'.envs e).envStatus ≠ .free)
    (hother : ∀ e', e' ≠ e → (k.envs e').Keeps (k'.envs e')) : FreeEnvs k' := by
  obtain ⟨el, hchain, hel⟩ := h
  rw [he] at hchain
  obtain ⟨t, rfl, ht⟩ := hchain.pop
  have hnot : e ∉ t := (List.nodup_cons.mp hchain.nodup).1
  refine ⟨t, ?_, fun e' ↦ ?_⟩
  · rw [hlist]
    refine ht.congr fun e' he' ↦ ?_
    have hne : e' ≠ e := fun hc ↦ hnot (hc ▸ he')
    exact (hother e' hne).envLink
  · by_cases hee : e' = e
    · subst hee
      simp [hlive, hnot]
    · rw [(hother e' hee).envStatus, ← hel e']
      simp [hee]

theorem schedules (h : FreeEnvs s.kern) (hs : Schedules s c s') : FreeEnvs s'.kern := by
  refine h.of_same hs.freeList (fun e ↦ (hs.envs e).envLink) fun e ↦ ?_
  show s'.status e = .free ↔ s.status e = .free
  rcases hs.status_cases e with hst | ⟨hr, hr', -⟩ | ⟨hr, hr', -⟩
  · rw [hst]
  · simp [hr, hr']
  · simp [hr, hr']

/-- The list when an entry calls the scheduler, if no CPU has a free environment. -/
theorem moved (h : FreeEnvs s.kern) (hm : Moved B s en c mid)
    (hcur : ∀ {c' e}, s.curenv c' = some e → s.status e ≠ .free) : FreeEnvs mid.kern := by
  have hlive : ∀ {c' cur tf envid b e}, en.CalledBy s c' cur tf →
      envid2env s.kern cur envid b = some e → (s.kern.envs e).envStatus ≠ .free := by
    intro c' cur tf envid b e hby htarget
    rcases envid2env_cases htarget with rfl | hlive
    · exact hcur hby.2.1
    · exact hlive
  obtain ⟨e, hother, ⟨hc, -, hf⟩ | ⟨-, hch⟩⟩ := hm.envs
  · exact h.freed (hcur hc) hf hother
  · cases hch with
    | keep list env => exact h.of_keeps list hother env.envLink (by rw [env.envStatus])
    | doom call other running list env =>
        refine h.of_keeps list hother env.envLink ?_
        rw [env.envStatus, show (s.kern.envs e).envStatus = .running from running]
        simp
    | free call other idle freed =>
        obtain ⟨c', cur, tf, hby, -, htarget⟩ := call
        exact h.freed (hlive hby htarget) freed hother
    | fork call list env =>
        obtain ⟨-, -, -, -, hhead, -⟩ := call
        refine h.forked hhead list ?_ hother
        rw [env.envStatus]
        simp [forkedEnv]
    | @status st call list env =>
        have hst := call.cases
        obtain ⟨c', cur, tf, hby, -, htarget, -⟩ := call
        refine h.of_keeps list hother env.envLink ?_
        rw [env.envStatus]
        rcases hst with rfl | rfl <;> simp [hlive hby htarget]
    | recv call self list env =>
        have hnf : (s.kern.envs e).envStatus ≠ .free := hcur self
        refine h.of_keeps list hother env.envLink ?_
        rw [env.envStatus]
        simp [hnf]
    | send call recving list env eax =>
        obtain ⟨c', tf, hby, -, htarget, -⟩ := call
        refine h.of_keeps list hother env.envLink ?_
        rw [env.envStatus]
        simp [hlive hby htarget]

end FreeEnvs

/-! ## The invariant -/

/-- What holds whenever the kernel lock is free. -/
structure Life (s : Smp) : Prop extends Blocked s where
  on : ∀ c e, s.curenv c = some e → s.status e = .running ∨ s.status e = .dying
  found : ∀ e, s.status e = .running ∨ s.status e = .dying → ∃ c, s.curenv c = some e
  list : FreeEnvs s.kern
  idle : ∀ c, (s.cpus c).cpuStatus ≠ .started → s.curenv c = none

/-- `sys_env_set_status` is only applied to what is on no CPU and does not wait for a message,
and `sys_env_destroy` not to what is dying already. -/
def Entry.Orderly (s : Smp) (en : Entry) : Prop :=
  (∀ e st, en.SetsStatus s e st → s.Off e ∧ s.recving e = false) ∧
    ∀ e, en.Destroys s e → s.status e ≠ .dying

/-- What another CPU runs goes on running there, or dies. -/
theorem Life.on_moved (h : Life s) (hm : Moved B s en c mid) (hG : en.Orderly s) {c' : CpuId}
    (hcc : c' ≠ c) (hc : s.curenv c' = some e) :
    mid.status e = .running ∨ mid.status e = .dying := by
  have hon := h.on c' e hc
  have hother : s.curenv c ≠ some e := fun hc' ↦ hcc (h.apart c' c e hc hc')
  cases hm.fate e with
  | same status recving => exact status ▸ hon
  | doom call other running status recving => exact .inr status
  | exit before after status recving => exact absurd before hother
  | free call other idle status recving =>
      exact absurd (hon.resolve_left idle) (hG.2 e call)
  | fork call status recving =>
      obtain ⟨-, -, -, -, hhead, -⟩ := call
      have hfree : s.status e = .free := h.list.head_free hhead
      simp [hfree] at hon
  | set call status recving => exact absurd hc ((hG.1 e _ call).1 c')
  | wait call self status recving => exact absurd self hother
  | wake call waiting status recving => exact absurd hc (h.off e waiting c')

/-- What runs or dies is on some CPU when the entry calls the scheduler; zombies of the CPU itself
have been freed. -/
theorem Life.found_moved (h : Life s) (hm : Moved B s en c mid)
    (he : mid.status e = .running ∨ mid.status e = .dying) :
    ∃ c', mid.curenv c' = some e ∧ (c' = c → mid.status e = .running) := by
  have hafter : ∀ {c'}, s.curenv c' = some e → mid.curenv c' = some e := by
    intro c' hc
    refine (hm.curenv_after hc).resolve_right fun hf ↦ ?_
    simp [hf] at he
  cases hm.fate e with
  | same status recving =>
      rw [status] at he
      obtain ⟨c', hc⟩ := h.found e he
      refine ⟨c', hafter hc, ?_⟩
      rintro rfl
      have hstarted : (s.cpus c').cpuStatus = .started := by
        by_contra hidle
        rw [h.idle c' hidle] at hc
        cases hc
      rw [status]
      refine he.resolve_right fun hdying ↦ ?_
      exact absurd ((hm.reap e hstarted hc hdying).symm.trans (hafter hc)) (by simp)
  | doom call other running status recving =>
      obtain ⟨c', hc⟩ := h.found e (.inl running)
      refine ⟨c', hafter hc, ?_⟩
      rintro rfl
      exact absurd hc other
  | set call status recving => rcases call.cases with rfl | rfl <;> simp [status] at he
  | exit before after status recving => simp [status] at he
  | free call other idle status recving => simp [status] at he
  | fork call status recving => simp [status] at he
  | wait call self status recving => simp [status] at he
  | wake call waiting status recving => simp [status] at he

theorem Life.exec (h : Life s) (hG : en.Orderly s) (hexec : en.exec B s = some s') : Life s' := by
  have hblocked : Blocked s' := h.toBlocked.exec (fun e hset ↦ hG.1 e _ hset) hexec
  have hcur : ∀ {c' e}, s.curenv c' = some e → s.status e ≠ .free := by
    intro c' e hc hf
    rcases h.on c' e hc with hst | hst <;> simp [hf] at hst
  obtain ⟨c, mid, hm, hs, hready⟩ := Entry.exec_moved hexec
  refine ⟨hblocked, fun c' e hc ↦ ?_, fun e he ↦ ?_, (h.list.moved hm hcur).schedules hs,
    fun c' hidle ↦ ?_⟩
  · rcases hs.curenv_cases hc with hc' | ⟨-, -, -, hrun⟩
    swap
    · exact .inl hrun
    have hold := hm.curenv_before hc'
    by_cases hcc : c' = c
    · subst hcc
      rcases hready with hr | ⟨cur, -, -, -, -, -, hcur, halive, -, hsame⟩
      · exact .inl ((hr e hc).resolve_right (hblocked.busy c' e hc))
      · obtain rfl := Option.some.inj (hold.symm.trans hcur)
        rw [hsame]
        exact h.on c' e hold
    · have hmid := h.on_moved hm hG hcc hold
      rcases hs.status_cases e with hst | ⟨hr, -⟩ | ⟨-, -, hc₀, -⟩
      · exact hst ▸ hmid
      · simp [hr] at hmid
      · exact absurd (h.apart c' c e hold (hm.curenv_before hc₀)) hcc
  · rcases hs.status_cases e with hst | ⟨-, -, hc⟩ | ⟨-, hr, -⟩
    · rw [hst] at he
      obtain ⟨c', hc, hself⟩ := h.found_moved hm he
      by_cases hcc : c' = c
      · subst hcc
        have hrun := hself rfl
        rcases hs.running_cases hc hrun with hc' | hr
        · exact ⟨c', hc'⟩
        · simp [hst, hrun] at hr
      · exact ⟨c', (hs.curenv_of_ne hcc).trans hc⟩
    · exact ⟨c, hc⟩
    · simp [hr] at he
  · by_cases hcc : c' = c
    · subst hcc
      cases hs.switch with
      | halt idle none same => exact none
      | stay before after cpu same =>
          rw [cpu] at hidle
          exact absurd hm.started hidle
      | run before after cpu cr3 ready running others =>
          rw [cpu] at hidle
          exact absurd hm.started hidle
    · rw [hs.cpus c' hcc, hm.cpus c' hcc] at hidle
      rw [hs.curenv_of_ne hcc, hm.curenv_of_ne hcc]
      exact h.idle c' hidle

theorem Life.boot {cfg : BootConfig} (h : Booted cfg k) : Life (Smp.boot k) := by
  obtain ⟨l, el, hb⟩ := h.bootInv
  refine ⟨.boot h, fun _ _ hc ↦ (nomatch hc), fun e he ↦ ?_, ⟨el, hb.inv.chain, hb.inv.mem_el⟩,
    fun _ _ ↦ rfl⟩
  have hst : (Smp.boot k).status e = .free ∨ (Smp.boot k).status e = .runnable :=
    (h.envs e).imp And.left And.left
  rcases hst with hst | hst <;> simp [hst] at he

/-- As long as `sys_env_set_status` is applied to environments that are not runnable and do not
wait for a message, and `sys_env_destroy` to none that is dying: an environment runs or dies if
and only if it is on exactly one CPU, all others are on no CPU, and the list of free environments
contains the free ones, each once. -/
theorem life_cycle {cfg : BootConfig} (boot : Booted cfg k)
    (run : Entries B (fun s en ↦
      (∀ e st, en.SetsStatus s e st → s.status e = .notRunnable ∧ s.recving e = false) ∧
        ∀ e, en.Destroys s e → s.status e ≠ .dying) (Smp.boot k) s) :
    (∀ e, s.status e = .running ∨ s.status e = .dying ↔ ∃! c, s.curenv c = some e) ∧
    (∀ e, s.status e = .free ∨ s.status e = .runnable ∨ s.status e = .notRunnable → s.Off e) ∧
    ∃ el : List Slot, Chain (fun e ↦ (s.kern.envs e).envLink) s.kern.envFreeList el ∧ el.Nodup ∧
      ∀ e, e ∈ el ↔ s.status e = .free := by
  have h : Life s := by
    refine run.invariant (P := Life) (fun s en s' h hG hexec ↦ ?_) (.boot boot)
    refine h.exec ⟨fun e st hset ↦ ⟨fun c hc ↦ ?_, (hG.1 e st hset).2⟩, hG.2⟩ hexec
    have hon := h.on c e hc
    simp [(hG.1 e st hset).1] at hon
  refine ⟨fun e ↦ ⟨fun he ↦ ?_, fun ⟨c, hc, _⟩ ↦ h.on c e hc⟩, fun e he c hc ↦ ?_, ?_⟩
  · obtain ⟨c, hc⟩ := h.found e he
    exact ⟨c, hc, fun c' hc' ↦ h.apart c' c e hc' hc⟩
  · rcases h.on c e hc with hst | hst <;> simp [hst] at he
  · obtain ⟨el, hchain, hel⟩ := h.list
    exact ⟨el, hchain, hchain.nodup, hel⟩

theorem not_destroys_start (c : CpuId) (e : Slot) : ¬ (Entry.start c).Destroys s e := by
  rintro ⟨_, _, _, hby, -⟩
  exact not_calledBy_start _ _ _ _ hby

theorem life_cycle_start : ∃ k s a, Booted demoConfig k ∧
    (Entry.start 0).exec demoConfig.machine (Smp.boot k) = some s ∧ s.status a = .running ∧
    ∀ e, s.status e = .running ∨ s.status e = .dying ↔ ∃! c, s.curenv c = some e := by
  obtain ⟨k, s, a, b, hbooted, hexec, hduo⟩ := exists_duo
  have hlife := life_cycle (B := demoConfig.machine) hbooted (.single ⟨.start 0,
    ⟨fun e st he ↦ absurd he (not_setsStatus_start 0 e),
      fun e he ↦ absurd he (not_destroys_start 0 e)⟩, hexec⟩)
  exact ⟨k, s, a, hbooted, hexec, hduo.runs.status, hlife.1⟩

/-! ## Environments that have run -/

/-- The environments that have run since their slot was last free, where `R` are those that had
before. -/
def Smp.ran (R : Set Slot) (s : Smp) : Set Slot :=
  {e | s.status e ≠ .free ∧ (e ∈ R ∨ ∃ c, s.curenv c = some e)}

/-- Any interleaving of entries, with the set of environments that have run. -/
def Histories (B : Machine) (G : Smp → Set Slot → Entry → Prop) :
    Smp × Set Slot → Smp × Set Slot → Prop :=
  Relation.ReflTransGen fun x y ↦
    ∃ en, G x.1 x.2 en ∧ Entry.exec B x.1 en = some y.1 ∧ y.2 = y.1.ran x.2

theorem Histories.step {G : Smp → Set Slot → Entry → Prop} {x : Smp × Set Slot} {R : Set Slot}
    (run : Histories B G x (s, R)) (hexec : en.exec B s = some s') (hG : G s R en) :
    Histories B G x (s', s'.ran R) := run.tail ⟨en, hG, hexec, rfl⟩

/-- What is on a CPU or waits for a message has run. -/
structure Ran (s : Smp) (R : Set Slot) : Prop extends Life s where
  ran : ∀ c e, s.curenv c = some e → e ∈ R
  waited : ∀ e, s.status e ≠ .free → s.recving e = true → e ∈ R

theorem Ran.orderly {R : Set Slot} (h : Ran s R) (hset : ∀ e st, en.SetsStatus s e st → e ∉ R)
    (hdestroy : ∀ e, en.Destroys s e → s.status e ≠ .dying) : en.Orderly s := by
  refine ⟨fun e st he ↦ ?_, hdestroy⟩
  have hR := hset e st he
  have hoff : s.Off e := fun c hc ↦ hR (h.ran c e hc)
  refine ⟨hoff, ?_⟩
  obtain ⟨c, cur, tf, hby, -, htarget, -⟩ := he
  exact Bool.eq_false_iff.mpr fun hr ↦ hR (h.waited e (hby.live htarget hoff) hr)

theorem Ran.exec {R : Set Slot} (h : Ran s R) (hset : ∀ e st, en.SetsStatus s e st → e ∉ R)
    (hdestroy : ∀ e, en.Destroys s e → s.status e ≠ .dying) (hexec : en.exec B s = some s') :
    Ran s' (s'.ran R) := by
  have hlife : Life s' := h.toLife.exec (h.orderly hset hdestroy) hexec
  refine ⟨hlife, fun c e hc ↦ ⟨fun hf ↦ ?_, .inr ⟨c, hc⟩⟩, fun e hlive hr ↦ ⟨hlive, .inl ?_⟩⟩
  · rcases hlife.on c e hc with hst | hst <;> simp [hf] at hst
  obtain ⟨c, mid, hm, hs, -⟩ := Entry.exec_moved hexec
  have hmid : mid.status e ≠ .free := fun hf ↦ hlive ((hs.resched.free e).mpr hf)
  rw [hs.recving_eq] at hr
  cases hm.fate e with
  | same status recving => exact h.waited e (status ▸ hmid) (recving ▸ hr)
  | doom call other running status recving =>
      exact h.waited e (by simp [running]) (recving ▸ hr)
  | exit before after status recving => exact absurd status hmid
  | free call other idle status recving => exact absurd status hmid
  | fork call status recving =>
      rw [recving] at hr
      cases hr
  | set call status recving =>
      have := ((h.orderly hset hdestroy).1 e _ call).2
      rw [← recving, hr] at this
      cases this
  | wait call self status recving => exact h.ran c e self
  | wake call waiting status recving =>
      rw [recving] at hr
      cases hr

/-- As long as `sys_env_set_status` is applied to children that have never run, and
`sys_env_destroy` to none that is dying, no CPU has an environment that is free. -/
theorem running_not_freed {cfg : BootConfig} (boot : Booted cfg k) {R : Set Slot}
    (run : Histories B (fun s R en ↦ (∀ e st, en.SetsStatus s e st → e ∉ R) ∧
      ∀ e, en.Destroys s e → s.status e ≠ .dying) (Smp.boot k, ∅) (s, R)) :
    ∀ c e, s.curenv c = some e → s.status e ≠ .free := by
  have hboot : Ran (Smp.boot k) ∅ := by
    refine ⟨.boot boot, fun _ _ hc ↦ (nomatch hc), fun e hlive hr ↦ ?_⟩
    exact absurd ((Blocked.boot boot).wait e hr) (by
      rcases boot.envs e with ⟨hf, -⟩ | ⟨hst, -⟩
      · exact absurd hf hlive
      · simp [show (Smp.boot k).status e = .runnable from hst])
  have h : Ran s R := by
    have hall : ∀ y, Histories B (fun s R en ↦ (∀ e st, en.SetsStatus s e st → e ∉ R) ∧
        ∀ e, en.Destroys s e → s.status e ≠ .dying) (Smp.boot k, ∅) y → Ran y.1 y.2 := by
      intro y hy
      induction hy with
      | refl => exact hboot
      | tail _ hstep ih =>
          obtain ⟨en, ⟨hset, hdestroy⟩, hexec, hR⟩ := hstep
          rw [hR]
          exact ih.exec hset hdestroy hexec
    exact hall (s, R) run
  intro c e hc hf
  rcases h.on c e hc with hst | hst <;> simp [hf] at hst

theorem running_not_freed_start : ∃ k s a, Booted demoConfig k ∧
    (Entry.start 0).exec demoConfig.machine (Smp.boot k) = some s ∧ s.curenv 0 = some a ∧
    s.status a ≠ .free := by
  obtain ⟨k, s, a, b, hbooted, hexec, hduo⟩ := exists_duo
  have hrun := Histories.step (G := fun s R en ↦ (∀ e st, en.SetsStatus s e st → e ∉ R) ∧
    ∀ e, en.Destroys s e → s.status e ≠ .dying) (R := ∅) .refl hexec
    ⟨fun e st he ↦ absurd he (not_setsStatus_start 0 e),
      fun e he ↦ absurd he (not_destroys_start 0 e)⟩
  exact ⟨k, s, a, hbooted, hexec, hduo.runs.cur,
    running_not_freed hbooted hrun 0 a hduo.runs.cur⟩

/-- A system call of CPU 0 that does not set a status. -/
theorem not_setsStatus_trap {no a1 a2 : Word} {st : EnvStatus}
    (hno : sysNo no ≠ some .envSetStatus) :
    ¬ (Entry.trap 0 (sysTf no a1 a2) 0 0).SetsStatus s e st := by
  rintro ⟨_, _, _, ⟨⟨_, _, heq⟩, -⟩, hset, -⟩
  cases heq
  exact hno hset

/-- A parent that destroys its running child twice frees it under the CPU that runs it. -/
theorem freed_under_cpu : ∃ k s R c e, Booted demoConfig k ∧
    Histories demoConfig.machine (fun s R en ↦ ∀ e st, en.SetsStatus s e st → e ∉ R)
      (Smp.boot k, ∅) (s, R) ∧ s.curenv c = some e ∧ s.status e = .free := by
  obtain ⟨k, s, a, b, hbooted, hexec, hduo⟩ := exists_duo
  obtain ⟨s₁, s₂, s₃, s₄, s₅, ch, cid, hexec₁, -, -, hz⟩ := hduo.zombie
  obtain ⟨s₆, hexec₆, hst, hcpus⟩ := hz.child'.exec_free hz.dying
  -- the child has not run when its parent makes it runnable
  have hready : ∀ R e st, (Entry.trap 0 (sysTf 8 cid 2) 0 0).SetsStatus s₂ e st →
      e ∉ s₂.ran (s₁.ran R) := by
    rintro R e st ⟨c, cur, tf, ⟨⟨_, _, heq⟩, hcur, -⟩, -, htarget, -⟩ ⟨-, hR⟩
    cases heq
    obtain rfl := Option.some.inj (hcur.symm.trans hz.child.runs.cur)
    have hlive : s₂.kern.Live ch := by
      rw [Kern.Live, show (s₂.kern.envs ch).envStatus = .notRunnable from hz.idle]
      decide
    have hch := hz.child.target hlive (sysTf 8 cid 2)
    rw [envid2env_setTf] at hch
    obtain rfl := Option.some.inj (htarget.symm.trans hch)
    rcases hR with ⟨hfree, -⟩ | ⟨c, hc⟩
    · exact hfree hz.free
    · exact hz.off c hc
  have h₀ := Histories.step (G := fun s R en ↦ ∀ e st, en.SetsStatus s e st → e ∉ R) (R := ∅) .refl
    hexec fun _ _ he ↦ absurd he (not_setsStatus_start 0 _)
  have h₁ := h₀.step hexec₁ fun _ _ he ↦ absurd he (not_setsStatus_start 1 _)
  have h₂ := h₁.step hz.fork fun _ _ he ↦ absurd he (not_setsStatus_trap (by decide))
  have h₃ := h₂.step hz.ready fun e st he ↦ hready _ e st he
  have h₄ := h₃.step hz.start fun _ _ he ↦ absurd he (not_setsStatus_start 2 _)
  have h₅ := h₄.step hz.doom fun _ _ he ↦ absurd he (not_setsStatus_trap (by decide))
  have h₆ := h₅.step hexec₆ fun _ _ he ↦ absurd he (not_setsStatus_trap (by decide))
  refine ⟨k, s₆, _, 2, ch, hbooted, h₆, ?_, hst⟩
  rw [Smp.curenv, hcpus]
  exact hz.cur

end Jos
