import Jos.Kern.TrapReturn

/-!
# The saved registers of an environment

Between the trap that takes an environment into the kernel and the `env_pop_tf` that lets it go on,
entries of other environments store into its registers in one way only: a message that it waits
for makes its `sys_ipc_recv` return 0.
-/

namespace Jos

open Jos.Lib

variable {B : Machine} {s s' mid : Smp} {k k' : Kern} {c : CpuId} {a e cur : Slot} {en : Entry}
  {tf : Trapframe} {getc : Word}

/-- The registers stay, or the environment has waited for a message and gets it. -/
inductive Env.Saved (x y : Env) : Prop
  | kept (recving : y.envIpcRecving = x.envIpcRecving) (tf : y.envTf = x.envTf)
  | message (before : x.envIpcRecving = true) (after : y.envIpcRecving = false)
      (tf : y.envTf = x.envTf.setEax 0)

namespace Env.Saved

variable {x y z : Env}

theorem refl (x : Env) : x.Saved x := .kept rfl rfl

theorem of_eq (h : y = x) : x.Saved y := .kept (by rw [h]) (by rw [h])

/-- There is no second message. -/
theorem trans (h : x.Saved y) (h' : y.Saved z) : x.Saved z := by
  cases h with
  | kept recving tf =>
      cases h' with
      | kept recving' tf' => exact .kept (recving'.trans recving) (tf'.trans tf)
      | message before after tf' => exact .message (recving ▸ before) after (tf ▸ tf')
  | message before after tf =>
      cases h' with
      | kept recving' tf' => exact .message before (recving'.trans after) (tf'.trans tf)
      | message before' after' tf' =>
          rw [after] at before'
          cases before'

/-- What an environment that does not wait finds. -/
theorem tf_eq (h : x.Saved y) (hx : x.envIpcRecving = false) : y.envTf = x.envTf := by
  cases h with
  | kept recving tf => exact tf
  | message before after tf =>
      rw [hx] at before
      cases before

end Env.Saved

theorem Env.Resched.saved {x y : Env} (h : x.Resched y) : x.Saved y :=
  .kept h.envIpcRecving h.envTf

theorem Kern.saved_modEnv (k : Kern) (e : Slot) (f : Env → Env)
    (hf : (k.envs e).Saved (f (k.envs e))) (a : Slot) :
    (k.envs a).Saved ((k.modEnv e f).envs a) := by
  by_cases ha : a = e
  · subst ha
    rw [Kern.envs_modEnv_self]
    exact hf
  · rw [Kern.envs_modEnv_of_ne k f ha]
    exact .refl _

theorem Kern.saved_freed (k : Kern) (e : Slot) (m : Mem) (a : Slot) :
    (k.envs a).Saved ((k.freed e m).envs a) := by
  by_cases ha : a = e
  · subst ha
    rw [Kern.freed_self]
    exact .kept rfl rfl
  · rw [Kern.freed_of_ne _ m ha]
    exact .refl _


/-! ## A system call -/

/-- A system call of another environment. -/
theorem Effect.saved {no a1 a2 : Word} {x : Ctl Word} (h : Effect B k cur no a1 a2 x k')
    (ha : a ≠ cur) (hborn : sysNo no = some .exofork → k.envFreeList = some a →
      x ≠ .ret (nextEnvId (k.envs a).envId a)) :
    (k.envs a).Saved (k'.envs a) := by
  cases h with
  | quiet m => exact .refl _
  | yield => exact .refl _
  | doom => exact Kern.saved_modEnv k _ _ (.kept rfl rfl) a
  | free m => exact k.saved_freed _ m a
  | exit m => exact k.saved_freed _ m a
  | @fork e m d tf hno head =>
      have hne : a ≠ e := by
        rintro rfl
        exact hborn hno head rfl
      rw [Kern.forked_of_ne _ _ _ _ _ hne]
      exact .refl _
  | status => exact Kern.saved_modEnv k _ _ (.kept rfl rfl) a
  | upcall => exact Kern.saved_modEnv k _ _ (.kept rfl rfl) a
  | recv =>
      rw [Kern.envs_modEnv_of_ne _ _ ha]
      exact .refl _
  | unsent m perm => exact Kern.saved_modEnv (k.setMem m) _ _ (.kept rfl rfl) a
  | @send e m perm hno target recving =>
      have hperm := Kern.saved_modEnv (k.setMem m) e (fun env ↦ { env with envIpcPerm := perm })
        (.kept rfl rfl) a
      apply hperm.trans
      refine Kern.saved_modEnv _ e _ (.message ?_ rfl rfl) a
      rw [Kern.envs_modEnv_self]
      exact recving

theorem Kern.setTf_of_ne (k : Kern) (tf : Trapframe) (ha : a ≠ cur) :
    (k.setTf cur tf).envs a = k.envs a := Kern.envs_modEnv_of_ne _ _ ha

theorem Kern.envs_finish_of_ne (k : Kern) (x : Ctl Word) (ha : a ≠ cur) :
    (k.finish cur x).envs a = k.envs a := by
  cases x with
  | ret r =>
      rw [Kern.finish, Kern.setEax, Kern.envs_modEnv_of_ne _ _ ha]
  | yield o => rfl

/-! ## An entry -/

/-- An entry on a CPU that does not run `a`, and that does not give its slot to a new
environment. -/
def ByOthers (B : Machine) (a : Slot) (s : Smp) (en : Entry) : Prop :=
  s.curenv en.cpu ≠ some a ∧ ∀ cur, ¬ en.Forks B s cur a

/-- A system call of another environment, with what its caller gets. -/
theorem saved_of_callOf {x : Ctl Word} (hby : en.CalledBy s c cur tf)
    (h : callOf B (s.kern.setTf cur tf) cur getc = some (x, k)) (ha : a ≠ cur)
    (hborn : ∀ cur, ¬ en.Forks B s cur a) :
    (s.kern.envs a).Saved ((k.finish cur x).envs a) := by
  have hregs : ((s.kern.setTf cur tf).envs cur).envTf.regs = tf.regs := by simp [Kern.setTf]
  have heff := effect_of_syscall h
  rw [hregs] at heff
  rw [Kern.envs_finish_of_ne _ _ ha, ← s.kern.setTf_of_ne tf ha]
  apply heff.saved ha
  rintro hno hhead rfl
  rw [s.kern.setTf_of_ne tf ha] at h
  exact hborn cur ⟨c, tf, hby, hno, hhead, getc, k, h⟩

theorem saved_of_handled {o : Option Slot} {cr2 : Word} (hcur : s.curenv c = some cur)
    (halive : s.status cur ≠ .dying) (h : Handled B (s.kern.setTf cur tf) cur o k)
    (hen : en = .trap c tf cr2 getc) (ha : a ≠ cur) (hborn : ∀ cur, ¬ en.Forks B s cur a) :
    (s.kern.envs a).Saved (k.envs a) := by
  have htf : ((s.kern.setTf cur tf).envs cur).envTf = tf := by simp [Kern.setTf]
  have hby : tf.trapno = T_SYSCALL → en.CalledBy s c cur tf := fun hno ↦
    ⟨⟨cr2, getc, hen⟩, hcur, halive, hno⟩
  cases h with
  | quiet => exact .of_eq (s.kern.setTf_of_ne tf ha)
  | ret getc hno call =>
      rw [htf] at hno
      exact saved_of_callOf (hby hno) call ha hborn
  | call getc hno call =>
      rw [htf] at hno
      exact saved_of_callOf (hby hno) call ha hborn
  | fault tf' m => exact .of_eq ((Kern.setTf_of_ne _ tf' ha).trans (s.kern.setTf_of_ne tf ha))
  | exit tf' m =>
      refine (Env.Saved.of_eq ?_).trans (Kern.saved_freed _ cur m a)
      exact (Kern.setTf_of_ne _ tf' ha).trans (s.kern.setTf_of_ne tf ha)

/-- What an entry of others does to the registers of `a`. -/
theorem Entry.exec_saved (h : en.exec B s = some s') (hs : ByOthers B a s en) :
    (s.kern.envs a).Saved (s'.kern.envs a) := by
  obtain ⟨c, mid, hentered, hsched, -⟩ := Entry.exec_cases h
  refine Env.Saved.trans ?_ (hsched.envs a).saved
  cases hentered with
  | @reap c tf cr2 getc cur m hcur dying pgdir =>
      rw [Smp.kern_enter]
      exact s.kern.saved_freed cur m a
  | @trap c tf cr2 getc cur o k hcur alive handled =>
      have ha : a ≠ cur := by
        rintro rfl
        exact hs.1 hcur
      rw [Smp.kern_enter]
      exact saved_of_handled hcur alive handled rfl ha hs.2
  | wake halted => exact .refl _
  | start unused => exact .refl _

/-- What any number of them does. -/
theorem Entries.saved (h : Entries B (ByOthers B a) s s') :
    (s.kern.envs a).Saved (s'.kern.envs a) := by
  induction h with
  | refl => exact .refl _
  | tail _ hstep ih =>
      obtain ⟨en, hs, hexec⟩ := hstep
      exact ih.trans (Entry.exec_saved hexec hs)

/-! ## An entry of its own -/

/-- The registers of an environment whose system call has ended with `x`. -/
def Trapframe.finish (tf : Trapframe) : Ctl Word → Trapframe
  | .ret r => tf.setEax r
  | .yield _ => tf

/-- The caller of a system call keeps its other registers. -/
theorem Effect.finish {no a1 a2 : Word} {x : Ctl Word} (h : Effect B k cur no a1 a2 x k')
    (hlist : k.envFreeList ≠ some cur) (hrecv : (k.envs cur).envIpcRecving = false) :
    ((k'.finish cur x).envs cur).envTf = (k.envs cur).envTf.finish x ∧
      ∀ r, x = .ret r → ((k'.finish cur x).envs cur).envIpcRecving = false := by
  have key : ∀ (k' : Kern) r, (k'.envs cur).envTf = (k.envs cur).envTf →
      (k'.envs cur).envIpcRecving = false →
      ((k'.finish cur (.ret r)).envs cur).envTf = (k.envs cur).envTf.finish (.ret r) ∧
        ∀ r', Ctl.ret r = .ret r' →
          ((k'.finish cur (.ret r)).envs cur).envIpcRecving = false := by
    intro k' r htf hr
    rw [Kern.finish, Kern.setEax, Kern.envs_modEnv_self, htf]
    exact ⟨rfl, fun _ _ ↦ hr⟩
  have hne : ∀ e, (k.envs e).envIpcRecving = true → cur ≠ e := by
    rintro e he rfl
    rw [hrecv] at he
    cases he
  cases h with
  | quiet m => exact key _ _ rfl hrecv
  | yield =>
      refine ⟨rfl, fun r hr ↦ ?_⟩
      cases hr
  | doom hno target running other =>
      have heq := Kern.envs_modEnv_of_ne k (fun env ↦ { env with envStatus := .dying }) other.symm
      exact key _ _ (by rw [heq]) (by rw [heq, hrecv])
  | free m hno target idle other =>
      have heq := Kern.freed_of_ne k m other.symm
      exact key _ _ (by rw [heq]) (by rw [heq, hrecv])
  | exit m =>
      refine ⟨?_, fun r hr ↦ by cases hr⟩
      rw [Kern.finish, Kern.freed_self]
      rfl
  | @fork e m d tf hno head =>
      have hce : cur ≠ e := by
        rintro rfl
        exact hlist head
      have heq := Kern.forked_of_ne k cur m d tf hce
      exact key _ _ (by rw [heq]) (by rw [heq, hrecv])
  | @status e st =>
      by_cases hce : cur = e
      · subst hce
        exact key _ _ (by simp) (by simpa using hrecv)
      · have heq := Kern.envs_modEnv_of_ne k (fun env ↦ { env with envStatus := st }) hce
        exact key _ _ (by rw [heq]) (by rw [heq, hrecv])
  | @upcall e =>
      by_cases hce : cur = e
      · subst hce
        exact key _ _ (by simp) (by simpa using hrecv)
      · have heq := Kern.envs_modEnv_of_ne k (fun env ↦ { env with envPgfaultUpcall := a2 }) hce
        exact key _ _ (by rw [heq]) (by rw [heq, hrecv])
  | recv =>
      refine ⟨?_, fun r hr ↦ by cases hr⟩
      rw [Kern.finish, Kern.envs_modEnv_self]
      rfl
  | unsent m perm hr hno target recving =>
      have heq := Kern.envs_modEnv_of_ne (k.setMem m) (fun env ↦ { env with envIpcPerm := perm })
        (hne _ recving)
      exact key _ _ (by rw [heq]; rfl) (by rw [heq]; exact hrecv)
  | @send e m perm hno target recving =>
      have heq : (ipcDeliver ((k.setMem m).modEnv e fun env ↦
          { env with envIpcPerm := perm }) cur e a2).envs cur = k.envs cur := by
        rw [ipcDeliver, Kern.envs_modEnv_of_ne _ _ (hne _ recving),
          Kern.envs_modEnv_of_ne _ _ (hne _ recving)]
        rfl
      exact key _ _ (by rw [heq]) (by rw [heq, hrecv])

/-- An interrupt that `trap_dispatch` knows, up to the end of the kernel entry. -/
theorem Runs.exec_interrupt {cr2 : Word} (h : Runs s c a)
    (hno : tf.trapno = IRQ_OFFSET + IRQ_TIMER ∨ tf.trapno = IRQ_OFFSET + IRQ_SPURIOUS)
    (hexec : (Entry.trap c tf cr2 getc).exec B s = some s') :
    (s'.kern.envs a).envTf = tf ∧
      (s'.kern.envs a).envIpcRecving = (s.kern.envs a).envIpcRecving := by
  have htf : ((s.kern.setTf a tf).envs a).envTf = tf := by simp [Kern.setTf]
  have hsched : ((s.kern.setTf a tf).envs a).Resched (s'.kern.envs a) := by
    rw [exec_trap h.started h.cur h.alive] at hexec
    rcases hno with hno | hno
    · have hdispatch : trapDispatch B (s.kern.setTf a tf) a cr2 getc =
          some (.yield (some a), s.kern.setTf a tf) := by
        rw [trapDispatch, htf, hno]
        rfl
      rw [hdispatch, Option.bind_some] at hexec
      simp only [yieldAs] at hexec
      exact (scheduled_schedYield hexec).1.envs a
    · have hdispatch : trapDispatch B (s.kern.setTf a tf) a cr2 getc =
          some (.ret, s.kern.setTf a tf) := by
        rw [trapDispatch, htf, hno]
        rfl
      rw [hdispatch, Option.bind_some] at hexec
      exact (scheduled_trapTail hexec).1.envs a
  refine ⟨hsched.envTf.trans htf, hsched.envIpcRecving.trans ?_⟩
  exact (s.kern.keeps_setTf a tf a).envIpcRecving

end Jos
