import Jos.Kern.Life

/-!
# Messages

The mailbox of an environment is a few fields that `env_ipc_recving` guards.  Between two calls
of `sys_ipc_recv` it takes one message, whatever the other environments do and on whatever CPU:
only a send wakes the receiver, and nobody touches the message until the next call.

Nothing is assumed about the run before the first call.  All that is needed of it is that
`env_alloc` does not give away the slot of an environment that has a page directory (`Spare`).
-/

namespace Jos

open Jos.Lib

variable {B : Machine} {s s' mid : Smp} {k : Kern} {c : CpuId} {e cur : Slot} {en : Entry}
  {value : Word}

/-! ## Slots that may be given away -/

/-- What is on `env_free_list` has no page directory, or is free and on no CPU. -/
def Spare (s : Smp) : Prop :=
  ∃ el, Chain (fun e ↦ (s.kern.envs e).envLink) s.kern.envFreeList el ∧
    ∀ e ∈ el, (s.kern.envs e).envPgdir = none ∨ s.status e = .free ∧ s.Off e

namespace Spare

theorem boot {cfg : BootConfig} (h : Booted cfg k) : Spare (Smp.boot k) := by
  obtain ⟨l, el, hb⟩ := h.bootInv
  exact ⟨el, hb.inv.chain, fun e he ↦ .inr ⟨(hb.inv.mem_el e).mp he, fun _ hc ↦ (nomatch hc)⟩⟩

/-- A system call does not reach a free environment on no CPU. -/
theorem not_target {c : CpuId} {tf : Trapframe} {envid : Word} {b : Bool}
    (hby : en.CalledBy s c cur tf) (htarget : envid2env s.kern cur envid b = some e) :
    ¬ (s.status e = .free ∧ s.Off e) := fun h ↦ hby.live htarget h.2 h.1

theorem moved (h : Spare s) (hm : Moved B s en c mid) : Spare mid := by
  obtain ⟨el, hchain, hel⟩ := h
  have hoff : ∀ {e}, s.Off e → mid.Off e := fun hs c' hc ↦ hs c' (hm.curenv_before hc)
  obtain ⟨e₁, hother, hcase⟩ := hm.envs
  have hkeep : ∀ {e}, e ∈ el → e ≠ e₁ →
      (mid.kern.envs e).envPgdir = none ∨ mid.status e = .free ∧ mid.Off e := by
    intro e he hne
    refine (hel e he).imp (hother e hne).envPgdir.trans fun hf ↦ ⟨?_, hoff hf.2⟩
    exact (hother e hne).envStatus.trans hf.1
  -- the list stays, and the environment that changes has no page directory
  have hsame : mid.kern.envFreeList = s.kern.envFreeList →
      (mid.kern.envs e₁).envLink = (s.kern.envs e₁).envLink →
      (mid.kern.envs e₁).envPgdir = (s.kern.envs e₁).envPgdir →
      ¬ (s.status e₁ = .free ∧ s.Off e₁) → Spare mid := by
    intro hlist hlink hpgdir hnot
    refine ⟨el, ?_, fun e he ↦ ?_⟩
    · rw [hlist]
      refine hchain.congr fun e _ ↦ ?_
      by_cases hne : e = e₁
      · exact hne ▸ hlink
      · exact (hother e hne).envLink
    · by_cases hne : e = e₁
      · subst hne
        exact .inl (hpgdir.trans ((hel e he).resolve_right hnot))
      · exact hkeep he hne
  -- the environment that changes is freed
  have hpush : Freed s e₁ mid.kern → ¬ (s.status e₁ = .free ∧ s.Off e₁) → Spare mid := by
    intro hf hnot
    have hnew : e₁ ∉ el := fun he ↦ hf.pgdir ((hel e₁ he).resolve_right hnot)
    refine ⟨e₁ :: el, ?_, fun e he ↦ ?_⟩
    · rw [hf.list]
      refine (hchain.push hnew).congr fun e _ ↦ ?_
      by_cases hne : e = e₁
      · subst hne
        rw [Function.update_self]
        exact hf.env.envLink
      · rw [(hother e hne).envLink, Function.update_of_ne hne]
    · by_cases hne : e = e₁
      · subst hne
        exact .inl hf.env.envPgdir
      · exact hkeep ((List.mem_cons.mp he).resolve_left hne) hne
  rcases hcase with ⟨hcur, -, hf⟩ | ⟨-, hch⟩
  · exact hpush hf fun hc ↦ hc.2 c hcur
  · cases hch with
    | keep list env =>
        refine ⟨el, ?_, fun e he ↦ ?_⟩
        · rw [list]
          refine hchain.congr fun e _ ↦ ?_
          by_cases hne : e = e₁
          · exact hne ▸ env.envLink
          · exact (hother e hne).envLink
        · by_cases hne : e = e₁
          · subst hne
            exact (hel e he).imp env.envPgdir.trans fun hf ↦ ⟨env.envStatus.trans hf.1, hoff hf.2⟩
          · exact hkeep he hne
    | doom call other running list env =>
        refine hsame list env.envLink env.envPgdir fun hc ↦ ?_
        rw [running] at hc
        exact absurd hc.1 (by decide)
    | free call other idle freed =>
        obtain ⟨c', cur, tf, hby, -, htarget⟩ := call
        exact hpush freed (not_target hby htarget)
    | fork call list env =>
        obtain ⟨_, _, _, _, hhead, _⟩ := call
        rw [hhead] at hchain
        obtain ⟨t, rfl, ht⟩ := hchain.pop
        have hnot : e₁ ∉ t := (List.nodup_cons.mp hchain.nodup).1
        have hne : ∀ {e}, e ∈ t → e ≠ e₁ := fun he hc ↦ hnot (hc ▸ he)
        refine ⟨t, ?_, fun e he ↦ hkeep (List.mem_cons_of_mem _ he) (hne he)⟩
        rw [list]
        exact ht.congr fun e he ↦ (hother e (hne he)).envLink
    | status call list env =>
        obtain ⟨c', cur, tf, hby, -, htarget, -⟩ := call
        exact hsame list env.envLink env.envPgdir (not_target hby htarget)
    | recv call self list env =>
        exact hsame list env.envLink env.envPgdir fun hc ↦ hc.2 c self
    | send call recving list env eax =>
        obtain ⟨c', tf, hby, -, htarget, -⟩ := call
        exact hsame list env.envLink env.envPgdir (not_target hby htarget)

theorem schedules (h : Spare s) (hs : Schedules s c s') : Spare s' := by
  obtain ⟨el, hchain, hel⟩ := h
  refine ⟨el, ?_, fun e he ↦ ?_⟩
  · rw [hs.freeList]
    exact hchain.congr fun e _ ↦ (hs.envs e).envLink
  · refine (hel e he).imp (hs.envs e).envPgdir.trans fun hf ↦ ⟨(hs.resched.free e).mpr hf.1, ?_⟩
    intro c' hc
    rcases hs.curenv_cases hc with hc' | ⟨-, -, hr, -⟩
    · exact hf.2 c' hc'
    · rw [hf.1] at hr
      cases hr

theorem exec (h : Spare s) (hexec : en.exec B s = some s') : Spare s' := by
  obtain ⟨c, mid, hm, hs, -⟩ := Entry.exec_moved hexec
  exact (h.moved hm).schedules hs

/-- `env_alloc` does not give away the slot of a live environment with a page directory. -/
theorem not_forks (h : Spare s) (hpg : (s.kern.envs e).envPgdir ≠ none)
    (hlive : s.status e ≠ .free) : ¬ en.Forks B s cur e := by
  rintro ⟨_, _, _, _, hhead, _⟩
  obtain ⟨el, hchain, hel⟩ := h
  rw [hhead] at hchain
  obtain ⟨t, rfl, -⟩ := hchain.pop
  rcases hel e List.mem_cons_self with hnone | hfree
  · exact hpg hnone
  · exact hlive hfree.1

end Spare

/-! ## Exactly one message -/

/-- The message `value` from `sender` is in the mailbox of `e`. -/
structure Delivered (s : Smp) (e : Slot) (value sender : Word) : Prop where
  recving : s.recving e = false
  value : (s.kern.envs e).envIpcValue = value
  sender : (s.kern.envs e).envIpcFrom = sender

theorem callOf_getc {tf : Trapframe} (hno : sysNo tf.regs.eax = some .ipcTrySend)
    (getc getc' : Word) :
    callOf B (k.setTf cur tf) cur getc = callOf B (k.setTf cur tf) cur getc' := by
  have hregs : ((k.setTf cur tf).envs cur).envTf.regs = tf.regs := by simp [Kern.setTf]
  simp only [callOf, hregs, syscall, hno]

/-- A send that returns 0 delivers its message and wakes the receiver, whose `sys_ipc_recv` will
return 0. -/
theorem Entry.Sends.exec (h : en.Sends B s cur e value) (hexec : en.exec B s = some s') :
    Delivered s' e value (s.kern.envs cur).envId ∧ (s'.kern.envs e).envTf.regs.eax = 0 ∧
      (s'.status e = .runnable ∨ s'.status e = .running) := by
  obtain ⟨c, tf, ⟨⟨cr2, getc, rfl⟩, hcur, halive, hno⟩, hsys, htarget, rfl, getc', k, hcall⟩ := h
  have hset := s.kern.keeps_setTf cur tf
  have hregs : ((s.kern.setTf cur tf).envs cur).envTf.regs = tf.regs := by simp [Kern.setTf]
  have hstarted := started_of_exec hexec
  rw [callOf_getc hsys getc' getc] at hcall
  have heff := effect_of_syscall hcall
  rw [hregs] at heff
  rw [← envid2env_setTf s.kern cur cur tf] at htarget
  obtain ⟨-, m, perm, rfl⟩ := heff.of_send hsys htarget
  rw [exec_ret hstarted hcur halive hno hcall] at hexec
  obtain ⟨hs, -⟩ := scheduled_trapTail hexec
  obtain ⟨henv, heax⟩ := keeps_ipcDeliver s.kern cur e tf m perm tf.regs.ecx
  have hkeep := henv.trans (Kern.keeps_finish _ cur (.ret 0) e)
  have hre := hs.envs e
  refine ⟨⟨hre.envIpcRecving.trans hkeep.envIpcRecving, hre.envIpcValue.trans hkeep.envIpcValue,
    hre.envIpcFrom.trans hkeep.envIpcFrom⟩, ?_, ?_⟩
  · rw [hre.envTf]
    exact heax
  · rcases hs.status_cases e with hst | ⟨-, hst, -⟩ | ⟨-, hst, -⟩
    · exact .inl (hst.trans hkeep.envStatus)
    · exact .inr hst
    · exact .inl hst

/-- One more step of a run in which `e` makes no further call of `sys_ipc_recv`, is not given a
status while it waits, and is not destroyed. -/
structure Undisturbed (B : Machine) (e : Slot) (s : Smp) (en : Entry) (s' : Smp) : Prop where
  exec : en.exec B s = some s'
  recv : ∀ dstva, ¬ en.Recvs s e dstva
  status : s.recving e = true → ∀ st, ¬ en.SetsStatus s e st
  alive : (s'.kern.envs e).envPgdir ≠ none

/-- The runs from `s₀` in which `e` is undisturbed, with the messages whose delivery to `e` was
reported to their senders. -/
inductive Mail (B : Machine) (e : Slot) (s₀ : Smp) : Smp → List (Word × Word) → Prop
  | start : Mail B e s₀ s₀ []
  | step {s s' : Smp} {en : Entry} {log : List (Word × Word)} (run : Mail B e s₀ s log)
      (step : Undisturbed B e s en s') (quiet : ∀ cur value, ¬ en.Sends B s cur e value) :
      Mail B e s₀ s' log
  | deliver {s s' : Smp} {en : Entry} {log : List (Word × Word)} {cur : Slot} {value : Word}
      (run : Mail B e s₀ s log) (step : Undisturbed B e s en s')
      (send : en.Sends B s cur e value) :
      Mail B e s₀ s' (log ++ [(value, (s.kern.envs cur).envId)])

/-- `e` waits for a message. -/
def Waits (s : Smp) (e : Slot) : Prop := s.recving e = true ∧ s.status e = .notRunnable

/-- A step without a message leaves a waiting environment waiting, and a message alone. -/
theorem Undisturbed.quiet (h : Undisturbed B e s en s') (hspare : Spare s)
    (hpg : (s.kern.envs e).envPgdir ≠ none) (hlive : s.status e ≠ .free)
    (hquiet : ∀ cur value, ¬ en.Sends B s cur e value) :
    s'.status e ≠ .free ∧ s'.recving e = s.recving e ∧ (Waits s e → Waits s' e) ∧
      (s'.kern.envs e).envIpcValue = (s.kern.envs e).envIpcValue ∧
      (s'.kern.envs e).envIpcFrom = (s.kern.envs e).envIpcFrom := by
  obtain ⟨c, mid, hm, hs, -⟩ := Entry.exec_moved h.exec
  have hre := hs.envs e
  have hmidpg : (mid.kern.envs e).envPgdir ≠ none := by
    rw [← hre.envPgdir]
    exact h.alive
  -- what holds when the scheduler is called
  have hmid : mid.status e ≠ .free ∧ mid.recving e = s.recving e ∧
      (Waits s e → mid.status e = .notRunnable) ∧
      (mid.kern.envs e).envIpcValue = (s.kern.envs e).envIpcValue ∧
      (mid.kern.envs e).envIpcFrom = (s.kern.envs e).envIpcFrom := by
    obtain ⟨e₁, hother, hcase⟩ := hm.envs
    by_cases hne : e = e₁
    swap
    · have hk := hother e hne
      exact ⟨fun hf ↦ hlive (hk.envStatus.symm.trans hf), hk.envIpcRecving,
        fun hw ↦ hk.envStatus.trans hw.2, hk.envIpcValue, hk.envIpcFrom⟩
    subst hne
    rcases hcase with ⟨-, -, hf⟩ | ⟨-, hch⟩
    · exact absurd hf.env.envPgdir hmidpg
    cases hch with
    | keep list env =>
        exact ⟨fun hf ↦ hlive (env.envStatus.symm.trans hf), env.envIpcRecving,
          fun hw ↦ env.envStatus.trans hw.2, env.envIpcValue, env.envIpcFrom⟩
    | doom call other running list env =>
        refine ⟨?_, env.envIpcRecving, fun hw ↦ ?_, env.envIpcValue, env.envIpcFrom⟩
        · rw [Smp.status, env.envStatus]
          simp
        · rw [Waits, running] at hw
          exact absurd hw.2 (by decide)
    | free call other idle freed => exact absurd freed.env.envPgdir hmidpg
    | fork call list env => exact absurd call (hspare.not_forks hpg hlive)
    | @status st call list env =>
        refine ⟨?_, env.envIpcRecving, fun hw ↦ absurd call (h.status hw.1 st), env.envIpcValue,
          env.envIpcFrom⟩
        rw [Smp.status, env.envStatus]
        rcases call.cases with rfl | rfl <;> simp
    | recv call self list env => exact absurd call (h.recv _)
    | send call recving list env eax => exact absurd call (hquiet _ _)
  obtain ⟨hfree, hrecv, hwait, hvalue, hfrom⟩ := hmid
  refine ⟨fun hf ↦ hfree ((hs.resched.free e).mp hf), (hs.recving_eq e).trans hrecv, fun hw ↦ ?_,
    hre.envIpcValue.trans hvalue, hre.envIpcFrom.trans hfrom⟩
  refine ⟨(hs.recving_eq e).trans (hrecv.trans hw.1), ?_⟩
  rcases hs.status_cases e with hst | ⟨hr, -⟩ | ⟨hr, -⟩
  · exact hst.trans (hwait hw)
  · rw [hwait hw] at hr
    cases hr
  · rw [hwait hw] at hr
    cases hr

/-- After `sys_ipc_recv` the environment waits. -/
theorem Entry.Recvs.exec {dstva : Word} (h : en.Recvs s e dstva) (hexec : en.exec B s = some s') :
    Waits s' e := by
  obtain ⟨c, tf, ⟨⟨cr2, getc, rfl⟩, hcur, halive, hno⟩, hsys, rfl, hva⟩ := h
  have hregs : ((s.kern.setTf e tf).envs e).envTf.regs = tf.regs := by simp [Kern.setTf]
  let k := (s.kern.setTf e tf).modEnv e fun env ↦
    { env with envIpcRecving := true, envIpcDstva := tf.regs.edx, envStatus := .notRunnable }
  have hcall : callOf B (s.kern.setTf e tf) e getc = some (.yield (some e), k) := by
    simp only [callOf, hregs, syscall, hsys, sysIpcRecv, if_neg hva, k]
  rw [exec_yield (started_of_exec hexec) hcur halive hno hcall] at hexec
  obtain ⟨hs, -⟩ := scheduled_schedYield hexec
  have hst : (s.setKern k).status e = .notRunnable := by simp [Smp.status, k]
  refine ⟨(hs.recving_eq e).trans (by simp [Smp.recving, k]), ?_⟩
  rcases hs.status_cases e with hst' | ⟨hr, -⟩ | ⟨hr, -⟩
  · exact hst'.trans hst
  · rw [hst] at hr
    cases hr
  · rw [hst] at hr
    cases hr

/-- What is in the mailbox, given what was delivered. -/
def Box (s : Smp) (e : Slot) (log : List (Word × Word)) : Prop :=
  log = [] ∧ Waits s e ∨ ∃ value sender, log = [(value, sender)] ∧ Delivered s e value sender

theorem Mail.box {s₀ : Smp} {log : List (Word × Word)} (h : Mail B e s₀ s log) (hspare : Spare s₀)
    (hpg : (s₀.kern.envs e).envPgdir ≠ none) (hwaits : Waits s₀ e) :
    Spare s ∧ (s.kern.envs e).envPgdir ≠ none ∧ s.status e ≠ .free ∧ Box s e log := by
  induction h with
  | start =>
      refine ⟨hspare, hpg, ?_, .inl ⟨rfl, hwaits⟩⟩
      rw [hwaits.2]
      decide
  | step run step quiet ih =>
      obtain ⟨hspare, hpg, hlive, hbox⟩ := ih
      obtain ⟨hlive', hrecv, hwait, hvalue, hfrom⟩ := step.quiet hspare hpg hlive quiet
      refine ⟨hspare.exec step.exec, step.alive, hlive', ?_⟩
      rcases hbox with ⟨rfl, hw⟩ | ⟨value, sender, rfl, hd⟩
      · exact .inl ⟨rfl, hwait hw⟩
      · exact .inr ⟨value, sender, rfl, hrecv.trans hd.recving, hvalue.trans hd.value,
          hfrom.trans hd.sender⟩
  | @deliver s s' en log cur value run step send ih =>
      obtain ⟨hspare, hpg, hlive, hbox⟩ := ih
      obtain ⟨hd, -, hst⟩ := send.exec step.exec
      refine ⟨hspare.exec step.exec, step.alive, ?_, ?_⟩
      · rcases hst with hst | hst <;> rw [hst] <;> decide
      · rcases hbox with ⟨rfl, -⟩ | ⟨value', sender, rfl, hd'⟩
        · exact .inr ⟨_, _, rfl, hd⟩
        · exact absurd (send.recving.symm.trans hd'.recving) (by decide)

/-- Let `e` make an accepted call of `sys_ipc_recv` at any time after boot.  As long as it makes no
other such call, is not given a status while it waits, and is not destroyed, at most one send to
it returns 0; until then it waits, after that the message stays in its mailbox; and what ends the
wait is that send, with 0 in `%eax`. -/
theorem ipc_exactly_once {cfg : BootConfig} (boot : Booted cfg k) {s₀ s₁ : Smp} {dstva : Word}
    (before : Entries B (fun _ _ ↦ True) (Smp.boot k) s₀) (recv : en.Recvs s₀ e dstva)
    (hexec : en.exec B s₀ = some s₁) (alive : (s₁.kern.envs e).envPgdir ≠ none)
    {log : List (Word × Word)} (mail : Mail B e s₁ s log) :
    (log = [] ∧ Waits s e ∨
      ∃ value sender, log = [(value, sender)] ∧ Delivered s e value sender) ∧
    ∀ en s', Undisturbed B e s en s' → Waits s e → ¬ Waits s' e →
      (s'.status e = .runnable ∨ s'.status e = .running) ∧
        (s'.kern.envs e).envTf.regs.eax = 0 ∧ ∃ cur value, en.Sends B s cur e value := by
  have hspare : Spare s₁ := by
    have h₀ := before.invariant (P := Spare) (fun _ _ _ h _ hexec ↦ h.exec hexec) (.boot boot)
    exact h₀.exec hexec
  obtain ⟨hspare', hpg, hlive, hbox⟩ := mail.box hspare alive (recv.exec hexec)
  refine ⟨hbox, fun en s' step hw hw' ↦ ?_⟩
  by_cases hsend : ∃ cur value, en.Sends B s cur e value
  · obtain ⟨cur, value, hsend⟩ := hsend
    obtain ⟨-, heax, hst⟩ := hsend.exec step.exec
    exact ⟨hst, heax, cur, value, hsend⟩
  · have hquiet : ∀ cur value, ¬ en.Sends B s cur e value := fun cur value hc ↦
      hsend ⟨cur, value, hc⟩
    exact absurd ((step.quiet hspare' hpg hlive hquiet).2.2.1 hw) hw'

/-- A number is sent to an environment that waits. -/
theorem Runs.exec_send {a b : Slot} (h : Runs s c b) (hw : Waits s a)
    (hid : envx (s.kern.envs a).envId = a) (hid' : (s.kern.envs a).envId ≠ 0) :
    ∃ (en : Entry) (s' : Smp), en.exec B s = some s' ∧ en.Sends B s b a 5 ∧
      (∀ e dstva, ¬ en.Recvs s e dstva) ∧ (∀ e st, ¬ en.SetsStatus s e st) ∧
      ∀ e, (s'.kern.envs e).envPgdir = (s.kern.envs e).envPgdir := by
  let tf := sysTf 11 (s.kern.envs a).envId 5
  let tf' : Trapframe := { tf with regs := { tf.regs with ebx := UTOP } }
  have hset := s.kern.keeps_setTf b tf'
  have hregs : ((s.kern.setTf b tf').envs b).envTf = tf' := by simp [Kern.setTf]
  have hne : b ≠ a := by
    rintro rfl
    exact absurd (h.status.symm.trans hw.2) (by decide)
  have hwait : (s.kern.envs a).envStatus = .notRunnable := hw.2
  have htarget : envid2env s.kern b (s.kern.envs a).envId false = some a := by
    rw [envid2env, if_neg hid']
    simp [hid, hwait]
  have hrecv : ((s.kern.setTf b tf').envs a).envIpcRecving = true :=
    (hset a).envIpcRecving.trans hw.1
  let k := ipcDeliver ((s.kern.setTf b tf').modEnv a fun env ↦ { env with envIpcPerm := 0 }) b a 5
  have hcall : callOf B (s.kern.setTf b tf') b 0 = some (.ret 0, k) := by
    rw [callOf, hregs]
    show syscall _ _ b 0 11 (s.kern.envs a).envId 5 UTOP 0 0 = _
    simp only [syscall, show sysNo 11 = some .ipcTrySend from rfl, returned, sysIpcTrySend,
      envid2env_setTf, htarget, hrecv, not_true_eq_false, if_false,
      if_neg (show ¬ UTOP < UTOP by decide), Option.map_some, k]
  have hb : k.envs b = { s.kern.envs b with envTf := tf' } := by
    simp [k, ipcDeliver, Kern.envs_modEnv_of_ne _ _ hne, Kern.setTf]
  have hrun : (k.envs b).envStatus = .running := by
    rw [hb]
    exact h.status
  have hno : ∀ {c' cur tf'' n}, (Entry.trap c tf' 0 0).CalledBy s c' cur tf'' →
      sysNo tf''.regs.eax = some n → n = .ipcTrySend := by
    rintro c' cur tf'' n ⟨⟨_, _, heq⟩, -⟩ hn
    cases heq
    exact (Option.some.inj hn).symm
  refine ⟨.trap c tf' 0 0, _, h.exec_back rfl hcall hrun,
    ⟨c, tf', ⟨⟨0, 0, rfl⟩, h.cur, h.alive, rfl⟩,
    rfl, htarget, rfl, 0, k, hcall⟩, ?_, ?_, fun e ↦ ?_⟩
  · rintro e dstva ⟨_, _, hby, hn, -⟩
    cases hno hby hn
  · rintro e st ⟨_, _, _, hby, hn, -⟩
    cases hno hby hn
  · rw [Smp.kern_setKern]
    by_cases heb : e = b
    · rw [heb, Kern.resumed_self, hb]
    · rw [Kern.resumed_of_ne _ _ _ heb]
      by_cases hea : e = a
      · rw [hea]
        simp [k, ipcDeliver, Kern.setTf, Kern.envs_modEnv_of_ne _ _ hne.symm]
      · simp [k, ipcDeliver, Kern.envs_modEnv_of_ne _ _ hea, Kern.setTf,
          Kern.envs_modEnv_of_ne _ _ heb]

/-- `a` waits, and `b` sends it a number. -/
theorem ipc_exactly_once_demo : ∃ k s a sender, Booted demoConfig k ∧
    Entries demoConfig.machine (fun _ _ ↦ True) (Smp.boot k) s ∧ Delivered s a 5 sender := by
  obtain ⟨k, s, a, b, hbooted, hexec, hduo⟩ := exists_duo
  obtain ⟨l, el, hinv, -⟩ := hduo.inv
  have hlive : s.kern.Live a := by
    rw [Kern.Live, show (s.kern.envs a).envStatus = .running from hduo.runs.status]
    decide
  have hpg : ∀ e, s.status e ≠ .free → (s.kern.envs e).envPgdir ≠ none := fun e he ↦ hinv.pgdir e he
  obtain ⟨s₁, p, hexec₁, hruns₁, -, -, hrecv, hst, hid, hpg₁⟩ :=
    @Runs.exec_recv demoConfig.machine s 0 a b hduo.runs hduo.ready
      fun e he ↦ hpg e (by rw [he]; decide)
  obtain ⟨en, s₂, hexec₂, hsend, hnorecv, hnoset, hpg₂⟩ :=
    @Runs.exec_send demoConfig.machine s₁ 0 a p hruns₁ ⟨hrecv, hst⟩
      (by rw [hid]; exact (hduo.id a hlive).1) (by rw [hid]; exact (hduo.id a hlive).2)
  have hrecvs : (Entry.trap 0 (sysTf 12 UTOP 0) 0 0).Recvs s a UTOP :=
    ⟨0, _, ⟨⟨0, 0, rfl⟩, hduo.runs.cur, hduo.runs.alive, rfl⟩, rfl, rfl, by decide⟩
  have hmail := Mail.deliver .start ⟨hexec₂, hnorecv a, fun _ ↦ hnoset a, by
    rw [hpg₂, hpg₁]
    exact hpg a hlive⟩ hsend
  have hone := (ipc_exactly_once hbooted (.single ⟨_, trivial, hexec⟩) hrecvs hexec₁
    (by rw [hpg₁]; exact hpg a hlive) hmail).1
  refine ⟨k, s₂, a, (s₁.kern.envs p).envId, hbooted, ?_, ?_⟩
  · exact ((Relation.ReflTransGen.single ⟨_, trivial, hexec⟩).tail ⟨_, trivial, hexec₁⟩).tail
      ⟨_, trivial, hexec₂⟩
  · rcases hone with ⟨hnil, -⟩ | ⟨value, sender, hlog, hd⟩
    · simp at hnil
    · simp only [List.nil_append, List.cons.injEq, Prod.mk.injEq, and_true] at hlog
      obtain ⟨rfl, rfl⟩ := hlog
      exact hd

end Jos
