import Jos.Kern.Exec

/-!
# What a system call may touch

`envid2env` grants a call authority over the caller and over the environments whose
`env_parent_id` is the caller's id.  An id is recycled with its slot, so this is authority over
children only as long as no id comes back.  A slot counts its generations in 19 bits:
up to 524286 allocations of a slot give it different ids.

The module first shows that whole kernel entries keep the invariant of memory, then follows a run
of one CPU with a record of who created whom (`Lineage`), and from both derives that a call leaves
everybody else alone (`authority_confined`).
-/

namespace Jos

open Jos.Lib

variable {B : Machine} {M : Pool B} {s s' : Smp} {k k' : Kern} {c : CpuId} {cur e : Slot}
  {en : Entry} {l : List ℕ} {el : List Slot} {tf : Trapframe} {cr2 getc : Word}

/-! ## Entries keep the invariant -/

/-- The invariant holds, and what the kernel maps for itself is as before. -/
structure Kept (B : Machine) (M : Pool B) (k k' : Kern) : Prop where
  inv : ∃ l el, RunInv B M k' l el
  kern : KernSame B k.mem k'.mem

theorem Kept.of_setTf (h : Kept B M (k.setTf cur tf) k') : Kept B M k k' := ⟨h.inv, h.kern⟩

section Keeps

variable (h : RunInv B M k l el) (hb : k.Bounded B) (hlive : k.Live cur)

include h

theorem RunInv.setTf (cur : Slot) (tf : Trapframe) : RunInv B M (k.setTf cur tf) l el :=
  ⟨h.inv.setTf cur tf, h.prot⟩

theorem RunInv.resched (hk : k.Resched k') : RunInv B M k' l el := by
  refine ⟨h.inv.resched hk, ?_⟩
  rw [hk.mem]
  exact h.prot

theorem RunInv.kept_after {T : Set Slot} {S : Set ℕ} (haft : After B M k l T S k') :
    Kept B M k k' := by
  obtain ⟨hinv, hev⟩ := h.after haft
  exact ⟨hinv, hev.kern⟩

include hb hlive

theorem RunInv.envFree (hrun : envFree B k cur = some k') : Kept B M k k' := by
  obtain ⟨k₁, hk₁, -, hafter⟩ := h.inv.envFree_spec hb hlive
  obtain rfl := Option.some.inj (hk₁.symm.trans hrun)
  exact h.kept_after hafter

theorem RunInv.pageFaultHandler_kept {x : Exit}
    (hrun : pageFaultHandler B k cur cr2 = some (x, k')) : Kept B M k k' := by
  rcases pageFaultHandler_cases hrun with ⟨-, tf, hf⟩ | ⟨-, -, d, m, hd, -, hstore, rfl⟩
  · refine .of_setTf ((h.setTf cur tf).envFree ?_ ?_ hf)
    · rw [Kern.Bounded, Kern.dirs_setTf]
      exact hb
    · simpa [Kern.Live, Kern.setTf] using hlive
  · have h₁ := h.setTf cur (upcallTf (k.envs cur))
    have hdir : (k.setTf cur (upcallTf (k.envs cur))).dirs cur = some d := by
      rw [Kern.dirs_setTf, hlive.dirs_eq, hd]
    have hstored := h₁.inv.storeBytes_stored hdir
      ((length_utfBytes cr2 _).symm ▸ faultEsp_le (k.envs cur).envTf.esp) hstore
    have hsame := h₁.inv.stored_kernSame hstored
    exact ⟨⟨l, el, h₁.inv.stored_inv hstored, h₁.prot.of_same hsame⟩, hsame⟩

theorem RunInv.pageFaultHandler {x : Exit} (hrun : pageFaultHandler B k cur cr2 = some (x, k')) :
    ∃ l el, RunInv B M k' l el := (h.pageFaultHandler_kept hb hlive hrun).inv

theorem RunInv.trapDispatch {x : Exit} (hrun : trapDispatch B k cur cr2 getc = some (x, k')) :
    Kept B M k k' := by
  rw [Jos.trapDispatch] at hrun
  split at hrun
  · obtain rfl := (Prod.mk.inj (Option.some.inj hrun)).2
    exact ⟨⟨l, el, h⟩, .refl _⟩
  split at hrun
  · exact h.pageFaultHandler_kept hb hlive hrun
  split at hrun
  · cases hrun
  split at hrun
  · simp only [Option.bind_eq_bind, Option.bind_eq_some_iff, Prod.exists] at hrun
    obtain ⟨y, k₁, hcall, hrun⟩ := hrun
    obtain ⟨⟨l₁, el₁, h₁⟩, hkern⟩ := h.kept_after (h.inv.syscall_spec hb hlive hcall)
    cases y with
    | ret r =>
        obtain rfl := (Prod.mk.inj (Option.some.inj hrun)).2
        exact ⟨⟨l₁, el₁, h₁.inv.modEnv Iff.rfl rfl rfl, h₁.prot⟩, hkern⟩
    | yield o =>
        obtain rfl := (Prod.mk.inj (Option.some.inj hrun)).2
        exact ⟨⟨l₁, el₁, h₁⟩, hkern⟩
  split at hrun
  · obtain rfl := (Prod.mk.inj (Option.some.inj hrun)).2
    exact ⟨⟨l, el, h⟩, .refl _⟩
  · simp only [Option.bind_eq_bind, Option.bind_eq_some_iff, Prod.exists] at hrun
    obtain ⟨o, k₁, hd, hrun⟩ := hrun
    obtain rfl := (Prod.mk.inj (Option.some.inj hrun)).2
    exact h.envFree hb hlive (envDestroy_self hd).2

end Keeps

/-- The scheduler leaves memory alone. -/
theorem Kept.resched (h : Kept B M k k') {t : Smp} (ht : t.kern = k') (hs : Schedules t c s') :
    Kept B M k s'.kern := by
  subst ht
  obtain ⟨⟨l, el, hinv⟩, hkern⟩ := h
  refine ⟨⟨l, el, hinv.resched hs.resched⟩, ?_⟩
  rw [hs.mem]
  exact hkern

/-- Every entry keeps the invariant of memory. -/
theorem RunInv.exec_kept (h : RunInv B M s.kern l el) (hb : s.kern.Bounded B)
    (hlive : ∀ e, s.curenv en.cpu = some e → s.kern.Live e) (hexec : en.exec B s = some s') :
    Kept B M s.kern s'.kern := by
  have quiet : Kept B M s.kern s.kern := ⟨⟨l, el, h⟩, .refl _⟩
  cases en with
  | wake c trapno =>
      simp only [Entry.exec] at hexec
      split at hexec
      swap
      · cases hexec
      rw [trapHalted] at hexec
      split at hexec
      · exact quiet.resched (t := s.modCpu c _) rfl (scheduled_trapTail hexec).1
      split at hexec
      · exact quiet.resched (t := s.modCpu c _) rfl (scheduled_schedYield hexec).1
      · cases hexec
  | start c =>
      simp only [Entry.exec] at hexec
      split at hexec
      · exact quiet.resched (t := s.modCpu c _) rfl (scheduled_schedYield hexec).1
      · cases hexec
  | trap c tf cr2 getc =>
      simp only [Entry.exec] at hexec
      split at hexec
      swap
      · cases hexec
      simp only [trapUser, Option.bind_eq_bind, Option.bind_eq_some_iff] at hexec
      obtain ⟨cur, hcur, hexec⟩ := hexec
      have hcur : s.curenv c = some cur := by simpa [Smp.curenv] using hcur
      have halive := hlive cur hcur
      split at hexec
      · obtain ⟨k, hf, hexec⟩ := Option.bind_eq_some_iff.mp hexec
        rw [yieldAs_eq] at hexec
        exact (h.envFree hb halive hf).resched rfl (scheduled_schedYield hexec).1
      simp only [Option.bind_eq_some_iff, Prod.exists] at hexec
      obtain ⟨x, k, hd, hexec⟩ := hexec
      have hb' : (s.kern.setTf cur tf).Bounded B := by
        rw [Kern.Bounded, Kern.dirs_setTf]
        exact hb
      have halive' : (s.kern.setTf cur tf).Live cur := by
        simpa [Kern.Live, Kern.setTf] using halive
      have hkept := Kept.of_setTf ((h.setTf cur tf).trapDispatch hb' halive' hd)
      rcases handled_of_trapDispatch hd with ⟨rfl, -⟩ | ⟨o, rfl, -⟩ | ⟨rfl, -⟩
      · exact hkept.resched rfl (scheduled_trapTail hexec).1
      · have hexec : schedYield B (s.enter B c k o) c = some s' := yieldAs_eq.symm.trans hexec
        have hmid : (s.enter B c k o).kern = k := by cases o <;> rfl
        exact hkept.resched hmid (scheduled_schedYield hexec).1
      · obtain ⟨hs, -⟩ := schedules_envRun_self (by simpa [Smp.curenv] using hcur) hexec
        exact hkept.resched rfl hs

theorem RunInv.exec (h : RunInv B M s.kern l el) (hb : s.kern.Bounded B)
    (hlive : ∀ e, s.curenv en.cpu = some e → s.kern.Live e) (hexec : en.exec B s = some s') :
    ∃ l el, RunInv B M s'.kern l el := (h.exec_kept hb hlive hexec).inv

/-! ## Who created whom -/

/-- A run of CPU `c` since boot, with a record of its allocations: how often each slot was
allocated, and the environment whose `sys_exofork` was given the slot last, with the number of that
environment's own allocation.  No slot is allocated more than 524286 times, and no page has more
than 65535 references. -/
inductive Lineage (cfg : BootConfig) (c : CpuId) :
    Smp → (Slot → ℕ) → (Slot → Option (Slot × ℕ)) → Prop
  | boot {k : Kern} (booted : Booted cfg k) :
      Lineage cfg c (Smp.boot k) (fun e ↦ if (k.envs e).envStatus = .free then 0 else 1) fun _ ↦
        none
  | entry {s s' : Smp} {n : Slot → ℕ} {creator : Slot → Option (Slot × ℕ)} {en : Entry}
      (run : Lineage cfg c s n creator) (cpu : en.cpu = c) (exec : en.exec cfg.machine s = some s')
      (bounded : s'.kern.Bounded cfg.machine) (quiet : ∀ cur e, ¬ en.Forks cfg.machine s cur e) :
      Lineage cfg c s' n creator
  | fork {s s' : Smp} {n : Slot → ℕ} {creator : Slot → Option (Slot × ℕ)} {en : Entry}
      {cur e : Slot} (run : Lineage cfg c s n creator) (cpu : en.cpu = c)
      (exec : en.exec cfg.machine s = some s') (bounded : s'.kern.Bounded cfg.machine)
      (forks : en.Forks cfg.machine s cur e) (few : n e < 524286) :
      Lineage cfg c s' (Function.update n e (n e + 1))
        (Function.update creator e (some (cur, n cur)))
  | store {s : Smp} {n : Slot → ℕ} {creator : Slot → Option (Slot × ℕ)} {e : Slot} {d : ℕ}
      {va : Word} {b : BitVec 8} {m' : Mem} (run : Lineage cfg c s n creator)
      (dir : s.kern.dirs e = some d) (allowed : s.kern.mem.UserWritable d va)
      (exec : s.kern.mem.storeByte d va b = some m') :
      Lineage cfg c (s.setKern (s.kern.setMem m')) n creator

theorem Entry.Forks.unique {cur' e' : Slot} (h : en.Forks B s cur e) (h' : en.Forks B s cur' e') :
    cur' = cur ∧ e' = e := by
  obtain ⟨c, tf, ⟨⟨_, _, rfl⟩, hcur, -⟩, -, hhead, -⟩ := h
  obtain ⟨c', tf', ⟨⟨_, _, heq⟩, hcur', -⟩, -, hhead', -⟩ := h'
  cases heq
  exact ⟨Option.some.inj (hcur'.symm.trans hcur), Option.some.inj (hhead'.symm.trans hhead)⟩

/-- The identity of an environment: its own id and its parent's. -/
def Smp.ids (s : Smp) (e : Slot) : Word × Word :=
  ((s.kern.envs e).envId, (s.kern.envs e).envParentId)

theorem Schedules.ids_eq (h : Schedules s c s') (e : Slot) : s'.ids e = s.ids e :=
  Prod.ext (h.envs e).envId (h.envs e).envParentId

theorem Env.Keeps.ids_eq {mid : Smp} {a : Env} (h : a.Keeps (mid.kern.envs e)) :
    mid.ids e = (a.envId, a.envParentId) := Prod.ext h.envId h.envParentId

/-- Only `sys_exofork` makes an environment, and only it changes who an environment is. -/
theorem Moved.ids_cases {mid : Smp} (h : Moved B s en c mid)
    (hlive : ∀ e, s.curenv c = some e → s.kern.Live e) (e : Slot) :
    (mid.ids e = s.ids e ∧ (mid.kern.Live e → s.kern.Live e)) ∨
      ∃ cur d, en.Forks B s cur e ∧
        (forkedEnv (s.kern.envs e) e (s.kern.envs cur).envId d {}).Keeps (mid.kern.envs e) := by
  have target : ∀ {c' : CpuId} {cur : Slot} {tf : Trapframe} {envid : Word} {b : Bool},
      en.CalledBy s c' cur tf → envid2env s.kern cur envid b = some e → s.kern.Live e := by
    rintro c' cur tf envid b ⟨⟨_, _, rfl⟩, hcur, -⟩ henv
    obtain rfl : c' = c := h.cpu
    exact envid2env_live (hlive cur hcur) henv
  obtain ⟨e₁, hoth, hcase⟩ := h.envs
  by_cases he : e = e₁
  swap
  · refine .inl ⟨(hoth e he).ids_eq, fun hl ↦ ?_⟩
    rwa [Kern.Live, (hoth e he).envStatus] at hl
  subst he
  rcases hcase with ⟨hcur, -, hf⟩ | ⟨-, hch⟩
  · exact .inl ⟨hf.env.ids_eq, fun _ ↦ hlive e hcur⟩
  · cases hch with
    | keep list env =>
        refine .inl ⟨env.ids_eq, fun hl ↦ ?_⟩
        rwa [Kern.Live, env.envStatus] at hl
    | doom call other running list env =>
        obtain ⟨_, _, _, hby, -, htarget⟩ := call
        exact .inl ⟨env.ids_eq, fun _ ↦ target hby htarget⟩
    | free call other idle freed =>
        obtain ⟨_, _, _, hby, -, htarget⟩ := call
        exact .inl ⟨freed.env.ids_eq, fun _ ↦ target hby htarget⟩
    | fork call list env => exact .inr ⟨_, _, call, env⟩
    | status call list env =>
        obtain ⟨_, _, _, hby, -, htarget, -⟩ := call
        exact .inl ⟨env.ids_eq, fun _ ↦ target hby htarget⟩
    | recv call self list env => exact .inl ⟨env.ids_eq, fun _ ↦ hlive e self⟩
    | send call recving list env eax =>
        obtain ⟨_, _, hby, -, htarget, -⟩ := call
        exact .inl ⟨env.ids_eq, fun _ ↦ target hby htarget⟩

/-- `sys_exofork` makes a child of the caller, with the next id of the slot. -/
theorem Inv.exec_forks (h : Inv B M s.kern l el) (forks : en.Forks B s cur e)
    (hexec : en.exec B s = some s') :
    s'.ids e = (nextEnvId (s.kern.envs e).envId e, (s.kern.envs cur).envId) := by
  obtain ⟨c, tf, hby, hno, hhead, getc, k, hcall⟩ := forks
  obtain ⟨getc', x, k', mid, hcall', hmid, hsched⟩ := hby.exec hexec
  have hregs : ((s.kern.setTf cur tf).envs cur).envTf.regs = tf.regs := by simp [Kern.setTf]
  have hset := s.kern.keeps_setTf cur tf
  simp only [callOf, hregs, syscall, hno] at hcall hcall'
  obtain ⟨rfl, rfl⟩ := Prod.mk.inj (Option.some.inj (hcall.symm.trans hcall'))
  rw [hsched.ids_eq, Smp.ids, hmid]
  rcases (h.setTf cur tf).envAlloc_spec ((s.kern.setTf cur tf).envs cur).envId with
    ⟨r, ⟨hr, -⟩, halloc⟩ | ⟨e₁, el', d, l', k₁, hel, -, halloc, henv, -⟩
  · -- the id of a new environment is not negative
    simp only [returned, sysExofork, halloc, Option.bind_eq_bind, Option.bind_some] at hcall
    obtain rfl := Ctl.ret.inj (Prod.mk.inj (Option.some.inj hcall)).1
    exact absurd hr (not_lt.mpr (nextEnvId_pos _ e).le)
  · obtain rfl : e₁ = e := by
      have := (h.setTf cur tf).chain.head_eq
      rw [hel] at this
      exact Option.some.inj (this.symm.trans hhead)
    simp only [returned, sysExofork, halloc, Option.bind_eq_bind, Option.bind_some] at hcall
    obtain rfl := (Prod.mk.inj (Option.some.inj hcall)).2
    have hkeep := Kern.keeps_setEax (k₁.modEnv e₁ fun env ↦ { env with
      envStatus := .notRunnable
      envTf := { (k₁.envs cur).envTf with regs := { (k₁.envs cur).envTf.regs with eax := 0 } } })
        cur
      (nextEnvId (s.kern.envs e₁).envId e₁) e₁
    rw [Kern.finish, hkeep.envId, hkeep.envParentId, Kern.envs_modEnv_self, henv]
    exact Prod.ext (congrArg (nextEnvId · e₁) (hset e₁).envId) (hset cur).envId

/-- The invariant of a run: ids and parents are as the record says. -/
structure Kin (cfg : BootConfig) (c : CpuId) (s : Smp) (n : Slot → ℕ)
    (creator : Slot → Option (Slot × ℕ)) : Prop where
  inv : ∃ l el, RunInv cfg.machine cfg.pool s.kern l el
  bounded : s.kern.Bounded cfg.machine
  cur : ∀ e, s.curenv c = some e → s.kern.Live e
  le : ∀ e, n e ≤ 524286
  pos : ∀ e, s.kern.Live e → 0 < n e
  id : ∀ e, (s.kern.envs e).envId = if n e = 0 then 0 else genId (n e) e
  parent : ∀ e, s.kern.Live e →
    (s.kern.envs e).envParentId = (creator e).elim 0 fun a ↦ genId a.2 a.1
  older : ∀ e a, creator e = some a → 0 < a.2 ∧ a.2 ≤ n a.1

namespace Kin

variable {cfg : BootConfig} {n : Slot → ℕ} {creator : Slot → Option (Slot × ℕ)}

theorem boot (booted : Booted cfg k) : Kin cfg c (Smp.boot k)
    (fun e ↦ if (k.envs e).envStatus = .free then 0 else 1) fun _ ↦ none := by
  obtain ⟨hinv, hb⟩ := booted.runInv
  refine ⟨hinv, hb, fun e he ↦ (nomatch he), fun e ↦ ?_, fun e he ↦ ?_, fun e ↦ ?_, fun e he ↦ ?_,
    fun e a ha ↦ (nomatch ha)⟩
  · split <;> decide
  · rw [if_neg (show (k.envs e).envStatus ≠ .free from he.ne_free)]
    exact Nat.one_pos
  · rcases booted.envs e with ⟨hst, hid⟩ | ⟨hst, -, hid, -⟩
    · simp [hst, Smp.boot, hid]
    · simp [hst, Smp.boot, hid]
  · rcases booted.envs e with ⟨hst, -⟩ | ⟨-, -, -, hpar⟩
    · exact absurd hst he.ne_free
    · exact hpar

/-- The environment of the CPU is never free. -/
theorem cur_exec (h : Kin cfg c s n creator) (cpu : en.cpu = c)
    (hexec : en.exec cfg.machine s = some s') (e : Slot) (he : s'.curenv c = some e) :
    s'.kern.Live e := by
  obtain ⟨c', mid, hm, hs, -⟩ := Entry.exec_moved hexec
  obtain rfl : c' = c := hm.cpu.symm.trans cpu
  rcases hs.curenv_cases he with hmid | ⟨-, -, -, hrun⟩
  swap
  · show s'.status e ≠ .free
    rw [hrun]
    decide
  have hcur := hm.curenv_before hmid
  have hfree : mid.status e ≠ .free := hm.live_stays (h.cur e hcur) hcur hmid
  exact fun hc ↦ hfree ((hs.resched.free e).mp hc)

theorem ids_exec (h : Kin cfg c s n creator) (cpu : en.cpu = c)
    (hexec : en.exec cfg.machine s = some s') (e : Slot) :
    (s'.ids e = s.ids e ∧ (s'.kern.Live e → s.kern.Live e)) ∨
      ∃ cur, en.Forks cfg.machine s cur e := by
  obtain ⟨c', mid, hm, hs, -⟩ := Entry.exec_moved hexec
  obtain rfl : c' = c := hm.cpu.symm.trans cpu
  refine (hm.ids_cases h.cur e).imp (fun ⟨hids, hlive⟩ ↦ ⟨(hs.ids_eq e).trans hids, fun hl ↦ ?_⟩)
    fun ⟨cur, d, hf, _⟩ ↦ ⟨cur, hf⟩
  exact hlive fun hc ↦ hl ((hs.resched.free e).mpr hc)

/-- An entry that makes no environment. -/
theorem entry (h : Kin cfg c s n creator) (cpu : en.cpu = c)
    (hexec : en.exec cfg.machine s = some s') (hb : s'.kern.Bounded cfg.machine)
    (quiet : ∀ cur e, ¬ en.Forks cfg.machine s cur e) : Kin cfg c s' n creator := by
  obtain ⟨l, el, hinv⟩ := h.inv
  have hids : ∀ e, s'.ids e = s.ids e ∧ (s'.kern.Live e → s.kern.Live e) := fun e ↦
    (h.ids_exec cpu hexec e).resolve_right fun ⟨cur, hf⟩ ↦ quiet cur e hf
  refine ⟨hinv.exec h.bounded (cpu ▸ h.cur) hexec, hb, h.cur_exec cpu hexec, h.le,
    fun e he ↦ h.pos e ((hids e).2 he), fun e ↦ ?_, fun e he ↦ ?_, h.older⟩
  · exact (congrArg Prod.fst (hids e).1).trans (h.id e)
  · exact (congrArg Prod.snd (hids e).1).trans (h.parent e ((hids e).2 he))

/-- A call of `sys_exofork`. -/
theorem fork (h : Kin cfg c s n creator) (cpu : en.cpu = c)
    (hexec : en.exec cfg.machine s = some s') (hb : s'.kern.Bounded cfg.machine)
    (forks : en.Forks cfg.machine s cur e) (few : n e < 524286) :
    Kin cfg c s' (Function.update n e (n e + 1))
      (Function.update creator e (some (cur, n cur))) := by
  obtain ⟨l, el, hinv⟩ := h.inv
  have hlive : s.kern.Live cur := by
    obtain ⟨c', tf, ⟨⟨_, _, rfl⟩, hcur, -⟩, -⟩ := forks
    obtain rfl : c' = c := cpu
    exact h.cur cur hcur
  have hnew := hinv.inv.exec_forks forks hexec
  have hids : ∀ e', e' ≠ e → s'.ids e' = s.ids e' ∧ (s'.kern.Live e' → s.kern.Live e') :=
    fun e' he' ↦ (h.ids_exec cpu hexec e').resolve_right fun ⟨cur', hf⟩ ↦
      he' (forks.unique hf).2
  have hmono : ∀ e', n e' ≤ Function.update n e (n e + 1) e' := by
    intro e'
    by_cases he : e' = e
    · rw [he, Function.update_self]
      exact Nat.le_succ _
    · rw [Function.update_of_ne he]
  refine ⟨hinv.exec h.bounded (cpu ▸ h.cur) hexec, hb, h.cur_exec cpu hexec, fun e' ↦ ?_,
    fun e' he' ↦ ?_, fun e' ↦ ?_, fun e' hl ↦ ?_, fun e' a ha ↦ ?_⟩
  all_goals
    by_cases he : e' = e
  · rw [he, Function.update_self]
    exact few
  · rw [Function.update_of_ne he]
    exact h.le e'
  · rw [he, Function.update_self]
    exact Nat.succ_pos _
  · rw [Function.update_of_ne he]
    exact h.pos e' ((hids e' he).2 he')
  · subst he
    rw [Function.update_self, if_neg (Nat.succ_ne_zero _)]
    refine (congrArg Prod.fst hnew).trans ?_
    rw [h.id e']
    split
    · next h0 => rw [h0, nextEnvId_zero]
    · exact nextEnvId_genId (by omega) e'
  · rw [Function.update_of_ne he]
    exact (congrArg Prod.fst (hids e' he).1).trans (h.id e')
  · subst he
    rw [Function.update_self]
    refine (congrArg Prod.snd hnew).trans ?_
    rw [h.id cur, if_neg (h.pos cur hlive).ne']
    rfl
  · rw [Function.update_of_ne he]
    exact (congrArg Prod.snd (hids e' he).1).trans (h.parent e' ((hids e' he).2 hl))
  · subst he
    rw [Function.update_self] at ha
    obtain rfl := Option.some.inj ha
    exact ⟨h.pos cur hlive, hmono cur⟩
  · rw [Function.update_of_ne he] at ha
    exact ⟨(h.older e' a ha).1, (h.older e' a ha).2.trans (hmono a.1)⟩

/-- A store of a user program. -/
theorem store (h : Kin cfg c s n creator) {d : ℕ} {va : Word} {b : BitVec 8} {m' : Mem}
    (dir : s.kern.dirs e = some d) (allowed : s.kern.mem.UserWritable d va)
    (run : s.kern.mem.storeByte d va b = some m') :
    Kin cfg c (s.setKern (s.kern.setMem m')) n creator := by
  obtain ⟨l, el, hinv⟩ := h.inv
  have hlt : va < UTOP := by
    by_contra hc
    exact ((hinv.inv.half e d dir).protected hinv.prot va).2 (BitVec.not_lt.mp hc) allowed
  have hstored := Kern.storeByte_stored dir hlt run
  refine ⟨⟨l, el, hinv.inv.stored_inv hstored, hinv.prot.of_same
    (hinv.inv.stored_kernSame hstored)⟩, fun p ↦ ?_, h.cur, h.le, h.pos, h.id, h.parent, h.older⟩
  exact (congrArg (owners · p) (hinv.inv.stored_target hstored)).trans_le (h.bounded p)

end Kin

theorem Lineage.kin {cfg : BootConfig} {n : Slot → ℕ} {creator : Slot → Option (Slot × ℕ)}
    (h : Lineage cfg c s n creator) : Kin cfg c s n creator := by
  induction h with
  | boot booted => exact .boot booted
  | entry run cpu exec bounded quiet ih => exact ih.entry cpu exec bounded quiet
  | fork run cpu exec bounded forks few ih => exact ih.fork cpu exec bounded forks few
  | store run dir allowed exec ih => exact ih.store dir allowed exec

/-- The parent id of a child is the id of nobody but its creator. -/
theorem Kin.parent_ne {cfg : BootConfig} {n : Slot → ℕ} {creator : Slot → Option (Slot × ℕ)}
    {a b : Slot} (h : Kin cfg c s n creator) (ha : s.kern.Live a) (hb : s.kern.Live b)
    (hchild : creator b ≠ some (a, n a)) :
    (s.kern.envs b).envParentId ≠ (s.kern.envs a).envId := by
  have hlt : ∀ e, n e < 524288 := fun e ↦ (h.le e).trans_lt (by decide)
  rw [h.parent b hb, h.id a, if_neg (h.pos a ha).ne']
  cases hcr : creator b with
  | none => exact (genId_ne_zero a (h.pos a ha) (hlt a)).symm
  | some x =>
      obtain ⟨hpos, hle⟩ := h.older b x hcr
      intro hc
      obtain ⟨h1, h2⟩ := genId_inj (hle.trans_lt (hlt x.1)) (hlt a) hc
      exact hchild (hcr.trans (congrArg some (Prod.ext h2 h1)))

/-! ## Authority -/

/-- What the caller gets back does not concern anybody else. -/
theorem Kern.finish_of_ne {a b : Slot} (k : Kern) (x : Ctl Word) (hne : b ≠ a) :
    (k.finish a x).envs b = k.envs b ∧ (k.finish a x).space = k.space := by
  cases x with
  | ret r =>
      refine ⟨?_, ?_⟩
      · rw [Kern.finish, Kern.setEax, Kern.envs_modEnv_of_ne _ _ hne]
      rw [Kern.space, Kern.finish, Kern.setEax, Kern.dirs_modEnv Iff.rfl rfl]
      rfl
  | yield o => exact ⟨rfl, rfl⟩

theorem Kern.Resched.space_eq (h : k.Resched k') : k'.space = k.space := by
  rw [Kern.space, h.mem, h.dirs_eq]
  rfl

/-- Authority is confined to self and children.  In every run of one CPU, a system call of `a`
other than `sys_ipc_try_send` leaves a live environment `b` that is neither `a` nor created by a
`sys_exofork` of `a` as it is: its id, parent, registers, upcall, message fields and page directory,
and every translation below `UTOP`; its status changes only if the scheduler runs it or
takes it off the CPU. -/
theorem authority_confined {cfg : BootConfig} {n : Slot → ℕ} {creator : Slot → Option (Slot × ℕ)}
    {a b : Slot} (run : Lineage cfg c s n creator) (call : en.CalledBy s c a tf)
    (hno : sysNo tf.regs.eax ≠ some .ipcTrySend) (hexec : en.exec cfg.machine s = some s')
    (live : s.kern.Live b) (other : b ≠ a) (stranger : creator b ≠ some (a, n a)) :
    (s.kern.envs b).Resched (s'.kern.envs b) ∧ s'.kern.space b = s.kern.space b ∧
      (s'.status b = s.status b ∨ (s.status b = .runnable ∧ s'.status b = .running) ∨
        (s.status b = .running ∧ s'.status b = .runnable)) := by
  have h := run.kin
  obtain ⟨l, el, hinv⟩ := h.inv
  have halive := h.cur a call.2.1
  have hpar := h.parent_ne halive live stranger
  obtain ⟨getc, x, k, mid, hcall, hmid, hsched⟩ := call.exec hexec
  -- the call itself
  have hself : (s.kern.setTf a tf).envs b = s.kern.envs b := Kern.envs_modEnv_of_ne _ _ other
  have hb : (s.kern.setTf a tf).Bounded cfg.machine := by
    rw [Kern.Bounded, Kern.dirs_setTf]
    exact h.bounded
  have halive' : (s.kern.setTf a tf).Live a := by simpa [Kern.Live, Kern.setTf] using halive
  have hregs : ((s.kern.setTf a tf).envs a).envTf.regs = tf.regs := by simp [Kern.setTf]
  obtain ⟨l', el', -, hev, henv⟩ := (hinv.inv.setTf a tf).syscall_spec hb halive' hcall
  have hout : b ∉ Touched (s.kern.setTf a tf) a ((s.kern.setTf a tf).envs a).envTf.regs.eax
      ((s.kern.setTf a tf).envs a).envTf.regs.edx := by
    rw [hregs, Touched, if_neg hno]
    rintro ((hc | hc) | hc)
    · exact other hc
    · rw [hself, (s.kern.keeps_setTf a tf a).envId] at hc
      exact hpar hc
    · have hfree : ((s.kern.setTf a tf).envs b).envStatus = .free := hc
      rw [hself] at hfree
      exact live.ne_free hfree
  have hspace : (s.kern.setTf a tf).space = s.kern.space := by
    rw [Kern.space, Kern.dirs_setTf]
    rfl
  obtain ⟨hfin, hfin'⟩ := k.finish_of_ne x other
  have hmidenv : mid.kern.envs b = s.kern.envs b := by
    rw [hmid, hfin, henv b hout, hself]
  -- and the scheduler
  refine ⟨hmidenv ▸ hsched.envs b, ?_, ?_⟩
  · rw [hsched.resched.space_eq, hmid, hfin', (hev.others b hout).2, hspace]
  · have hst : mid.status b = s.status b := congrArg Env.envStatus hmidenv
    rw [← hst]
    rcases hsched.status_cases b with hsame | ⟨hr, hr', -⟩ | ⟨hr, hr', -⟩
    · exact .inl hsame
    · exact .inr (.inl ⟨hr, hr'⟩)
    · exact .inr (.inr ⟨hr, hr'⟩)

/-- The first environment tries to destroy the second. -/
theorem authority_confined_destroy : ∃ s s' a b n, Lineage demoConfig 0 s n (fun _ ↦ none) ∧
    a ≠ b ∧ s.curenv 0 = some a ∧ s.status b = .runnable ∧
    (Entry.trap 0 (sysTf 3 (s.kern.envs b).envId 0) 0 0).exec demoConfig.machine s = some s' ∧
    (s.kern.envs b).Resched (s'.kern.envs b) ∧ s'.kern.space b = s.kern.space b := by
  obtain ⟨k, s, a, b, hbooted, hexec, hduo⟩ := exists_duo
  have hrun : Lineage demoConfig 0 s _ fun _ ↦ none :=
    .entry (.boot hbooted) rfl hexec hduo.bounded fun cur e ⟨_, _, ⟨⟨_, _, hc⟩, _⟩, _⟩ ↦ nomatch hc
  have hlive : s.kern.Live b := by
    rw [Kern.Live, show (s.kern.envs b).envStatus = .runnable from hduo.ready]
    decide
  have hkin := hrun.kin
  have hpar := hkin.parent_ne (hkin.cur a hduo.runs.cur) hlive (by simp)
  obtain ⟨hslot, hid⟩ := hduo.id b hlive
  let tf := sysTf 3 (s.kern.envs b).envId 0
  have htarget : envid2env s.kern a (s.kern.envs b).envId true = none := by
    rw [envid2env, if_neg hid]
    simp [hslot, hlive.ne_free, hduo.ne.symm, hpar]
  have hcall : callOf demoConfig.machine (s.kern.setTf a tf) a 0 =
      some (.ret (-E_BAD_ENV), s.kern.setTf a tf) := by
    have hregs : ((s.kern.setTf a tf).envs a).envTf = tf := by simp [Kern.setTf]
    rw [callOf, hregs]
    show syscall _ _ a 0 3 (s.kern.envs b).envId 0 0 0 0 = _
    simp only [syscall, show sysNo 3 = some .envDestroy from rfl, sysEnvDestroy, envid2env_setTf,
      htarget]
  have hexec' : (Entry.trap 0 tf 0 0).exec demoConfig.machine s = some _ :=
    hduo.runs.exec_back rfl hcall (by
      rw [(s.kern.keeps_setTf a tf a).envStatus]
      exact hduo.runs.status)
  obtain ⟨henv, hspace, -⟩ := authority_confined hrun
    ⟨⟨0, 0, rfl⟩, hduo.runs.cur, hduo.runs.alive, rfl⟩ (show sysNo 3 ≠ _ by decide) hexec' hlive
    hduo.ne.symm (by simp)
  exact ⟨s, _, a, b, _, hrun, hduo.ne, hduo.runs.cur, hduo.ready, hexec', henv, hspace⟩

end Jos
