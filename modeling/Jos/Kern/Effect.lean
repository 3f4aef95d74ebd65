import Jos.Kern.Sched

/-!
# What a system call does to the environments

`Effect` lists what a system call can do to the array of environments and to the list of free
ones, with the checks it has passed; memory is left open.  `effect_of_syscall` says that this
list is complete.  `Handled` does the same for a trap from user mode, up to the call of the
scheduler, and `Entry.exec_cases` for a whole kernel entry.
-/

namespace Jos

variable {B : Machine} {k k' : Kern} {cur e : Slot} {no a1 a2 a3 a4 a5 getc : Word}

/-! ## `env_free` -/

/-- The state after `env_free(e)`, with `m` as memory. -/
def Kern.freed (k : Kern) (e : Slot) (m : Mem) : Kern :=
  { (k.setMem m).modEnv e fun env ↦ freedEnv env k.envFreeList with envFreeList := some e }

theorem envFree_eq (h : envFree B k e = some k') :
    (k.envs e).envPgdir ≠ none ∧ ∃ m, k' = k.freed e m := by
  cases hpg : (k.envs e).envPgdir with
  | none => simp [envFree, hpg] at h
  | some d =>
      simp only [envFree, hpg, Option.bind_eq_bind, Option.bind_some, Option.bind_eq_some_iff,
        Option.pure_def, Option.some.injEq] at h
      obtain ⟨m₁, -, a, -, m, -, rfl⟩ := h
      exact ⟨by simp, m, rfl⟩

@[simp] theorem Kern.freed_self (k : Kern) (e : Slot) (m : Mem) :
    (k.freed e m).envs e = freedEnv (k.envs e) k.envFreeList := by
  simp [Kern.freed, Kern.modEnv]

theorem Kern.freed_of_ne (k : Kern) {e e' : Slot} (m : Mem) (h : e' ≠ e) :
    (k.freed e m).envs e' = k.envs e' := by
  simp [Kern.freed, Kern.modEnv, h]

@[simp] theorem Kern.envFreeList_freed (k : Kern) (e : Slot) (m : Mem) :
    (k.freed e m).envFreeList = some e := rfl

/-! ## `sys_exofork` -/

/-- The environment that `sys_exofork` makes, with `d` as directory. -/
def forkedEnv (env : Env) (e : Slot) (parentId : Word) (d : ℕ) (tf : Trapframe) : Env :=
  { env with
    envPgdir := some d
    envId := nextEnvId env.envId e
    envParentId := parentId
    envStatus := .notRunnable
    envRuns := 0
    envTf := { tf with regs := { tf.regs with eax := 0 } }
    envPgfaultUpcall := 0
    envIpcRecving := false }

/-- The state after `sys_exofork` took `e` from the list of free environments. -/
def Kern.forked (k : Kern) (e cur : Slot) (m : Mem) (d : ℕ) (tf : Trapframe) : Kern :=
  { (k.setMem m).modEnv e fun env ↦ forkedEnv env e (k.envs cur).envId d tf with
    envFreeList := (k.envs e).envLink }

@[simp] theorem Kern.forked_self (k : Kern) (e cur : Slot) (m : Mem) (d : ℕ) (tf : Trapframe) :
    (k.forked e cur m d tf).envs e = forkedEnv (k.envs e) e (k.envs cur).envId d tf := by
  simp [Kern.forked, Kern.modEnv]

theorem Kern.forked_of_ne (k : Kern) {e e' : Slot} (cur : Slot) (m : Mem) (d : ℕ) (tf : Trapframe)
    (h : e' ≠ e) : (k.forked e cur m d tf).envs e' = k.envs e' := by
  simp [Kern.forked, Kern.modEnv, h]

theorem envAlloc_eq {parentId : Word} {r : Except Word Slot}
    (h : envAlloc B k parentId = some (r, k')) :
    (∃ w m, r = .error w ∧ k' = k.setMem m ∧ w.toInt < 0) ∨
    ∃ e d m, k.envFreeList = some e ∧ r = .ok e ∧
      k' = { (k.setMem m).modEnv e fun env ↦ { env with
        envPgdir := some d, envId := nextEnvId env.envId e, envParentId := parentId
        envStatus := .runnable, envRuns := 0, envTf := newTf, envPgfaultUpcall := 0
        envIpcRecving := false } with envFreeList := (k.envs e).envLink } := by
  cases hf : k.envFreeList with
  | none =>
      simp only [envAlloc, hf, Option.some.injEq, Prod.mk.injEq] at h
      exact .inl ⟨_, k.mem, h.1.symm, h.2.symm, by decide⟩
  | some e =>
      cases hs : envSetupVm B k.mem with
      | none => simp [envAlloc, hf, hs] at h
      | some x =>
          obtain ⟨d, m⟩ := x
          cases d with
          | error w =>
              simp only [envAlloc, hf, hs, Option.bind_eq_bind, Option.bind_some, Option.pure_def,
                Option.some.injEq, Prod.mk.injEq] at h
              refine .inl ⟨w, m, h.1.symm, h.2.symm, ?_⟩
              have hw : w = -E_NO_MEM := by
                simp only [envSetupVm, Option.bind_eq_bind, Option.bind_eq_some_iff,
                  Option.pure_def, Prod.exists] at hs
                obtain ⟨p, m₁, -, hs⟩ := hs
                cases p with
                | none =>
                    simp only [Option.some.injEq, Prod.mk.injEq, Except.error.injEq] at hs
                    exact hs.1.symm
                | some p => simp [Option.bind_eq_some_iff] at hs
              rw [hw]
              decide
          | ok d =>
              simp only [envAlloc, hf, hs, Option.bind_eq_bind, Option.bind_some, Option.pure_def,
                Option.some.injEq, Prod.mk.injEq] at h
              refine .inr ⟨e, d, m, rfl, h.1.symm, h.2.symm.trans ?_⟩
              simp [Kern.modEnv, Kern.setMem]

theorem sysExofork_eq {r : Word} (h : sysExofork B k cur = some (r, k')) :
    (∃ m, k' = k.setMem m ∧ r.toInt < 0) ∨
    ∃ e m d tf, k.envFreeList = some e ∧ r = nextEnvId (k.envs e).envId e ∧
      (e ≠ cur → tf = (k.envs cur).envTf) ∧ k' = k.forked e cur m d tf := by
  simp only [sysExofork, Option.bind_eq_bind, Option.bind_eq_some_iff, Prod.exists] at h
  obtain ⟨r₁, k₁, halloc, h⟩ := h
  rcases envAlloc_eq halloc with ⟨w, m, rfl, rfl, hw⟩ | ⟨e, d, m, hf, rfl, rfl⟩
  · simp only [Option.pure_def, Option.some.injEq, Prod.mk.injEq] at h
    obtain ⟨rfl, rfl⟩ := h
    exact .inl ⟨m, rfl, hw⟩
  · simp only [Option.pure_def, Option.some.injEq, Prod.mk.injEq] at h
    obtain ⟨rfl, rfl⟩ := h
    refine .inr ⟨e, m, d, if e = cur then newTf else (k.envs cur).envTf, hf, ?_,
      fun hne ↦ if_neg hne, ?_⟩
    · simp [Kern.modEnv]
    · simp only [Kern.forked, Kern.modEnv, Kern.setMem, Function.update_idem, Function.update_self,
        forkedEnv]
      by_cases hne : e = cur
      · subst hne
        simp
      · simp [hne, Function.update_of_ne (Ne.symm hne)]

/-! ## Any system call -/

/-- The status that `sys_env_set_status` stores, if it accepts its argument. -/
def newStatus (status : Word) : Option EnvStatus :=
  if status = ENV_RUNNABLE then some .runnable
  else if status = ENV_NOT_RUNNABLE then some .notRunnable
  else none

/-- What system call `no` with arguments `a1`, `a2` does to the environments. -/
inductive Effect (B : Machine) (k : Kern) (cur : Slot) (no a1 a2 : Word) : Ctl Word → Kern → Prop
  | quiet {r : Word} (m : Mem) (hsend : sysNo no = some .ipcTrySend → r ≠ 0) :
      Effect B k cur no a1 a2 (.ret r) (k.setMem m)
  | yield (hno : sysNo no = some .yield) : Effect B k cur no a1 a2 (.yield (some cur)) k
  | doom {e : Slot} (hno : sysNo no = some .envDestroy)
      (target : envid2env k cur a1 true = some e) (running : (k.envs e).envStatus = .running)
      (other : e ≠ cur) :
      Effect B k cur no a1 a2 (.ret 0) (k.modEnv e fun env ↦ { env with envStatus := .dying })
  | free {e : Slot} (m : Mem) (hno : sysNo no = some .envDestroy)
      (target : envid2env k cur a1 true = some e) (idle : (k.envs e).envStatus ≠ .running)
      (other : e ≠ cur) (pgdir : (k.envs e).envPgdir ≠ none) :
      Effect B k cur no a1 a2 (.ret 0) (k.freed e m)
  | exit (m : Mem) (pgdir : (k.envs cur).envPgdir ≠ none) :
      Effect B k cur no a1 a2 (.yield none) (k.freed cur m)
  | fork {e : Slot} (m : Mem) (d : ℕ) (tf : Trapframe) (hno : sysNo no = some .exofork)
      (head : k.envFreeList = some e) (htf : e ≠ cur → tf = (k.envs cur).envTf) :
      Effect B k cur no a1 a2 (.ret (nextEnvId (k.envs e).envId e)) (k.forked e cur m d tf)
  | status {e : Slot} {st : EnvStatus} (hno : sysNo no = some .envSetStatus)
      (target : envid2env k cur a1 true = some e) (hst : newStatus a2 = some st) :
      Effect B k cur no a1 a2 (.ret 0) (k.modEnv e fun env ↦ { env with envStatus := st })
  | upcall {e : Slot} (hno : sysNo no = some .envSetPgfaultUpcall)
      (target : envid2env k cur a1 true = some e) :
      Effect B k cur no a1 a2 (.ret 0) (k.modEnv e fun env ↦ { env with envPgfaultUpcall := a2 })
  | recv (hno : sysNo no = some .ipcRecv) (hva : ¬ (a1 < UTOP ∧ pgoff a1 ≠ 0)) :
      Effect B k cur no a1 a2 (.yield (some cur)) (k.modEnv cur fun env ↦
        { env with envIpcRecving := true, envIpcDstva := a1, envStatus := .notRunnable })
  | unsent {e : Slot} {r : Word} (m : Mem) (perm : Word) (hr : r ≠ 0)
      (hno : sysNo no = some .ipcTrySend) (target : envid2env k cur a1 false = some e)
      (recving : (k.envs e).envIpcRecving = true) :
      Effect B k cur no a1 a2 (.ret r)
        ((k.setMem m).modEnv e fun env ↦ { env with envIpcPerm := perm })
  | send {e : Slot} (m : Mem) (perm : Word) (hno : sysNo no = some .ipcTrySend)
      (target : envid2env k cur a1 false = some e) (recving : (k.envs e).envIpcRecving = true) :
      Effect B k cur no a1 a2 (.ret 0) (ipcDeliver
        ((k.setMem m).modEnv e fun env ↦ { env with envIpcPerm := perm }) cur e a2)

theorem Effect.same {r : Word} (hsend : sysNo no = some .ipcTrySend → r ≠ 0) :
    Effect B k cur no a1 a2 (.ret r) k := .quiet k.mem hsend

theorem setMem_of_sysPageAlloc {r : Word} (h : sysPageAlloc B k cur a1 a2 a3 = some (r, k')) :
    ∃ m, k' = k.setMem m := by
  simp only [sysPageAlloc] at h
  split at h
  · exact ⟨k.mem, (Prod.mk.inj (Option.some.inj h)).2.symm⟩
  split at h
  · exact ⟨k.mem, (Prod.mk.inj (Option.some.inj h)).2.symm⟩
  split at h
  · exact ⟨k.mem, (Prod.mk.inj (Option.some.inj h)).2.symm⟩
  simp only [Option.bind_eq_bind, Option.bind_eq_some_iff, Prod.exists] at h
  obtain ⟨p, m, -, h⟩ := h
  cases p with
  | none => exact ⟨m, (Prod.mk.inj (Option.some.inj h)).2.symm⟩
  | some p =>
      simp only [Option.bind_eq_some_iff, Prod.exists] at h
      obtain ⟨d, -, r', m', -, h⟩ := h
      split at h
      · obtain ⟨m₂, -, h⟩ := Option.bind_eq_some_iff.mp h
        exact ⟨m₂, (Prod.mk.inj (Option.some.inj h)).2.symm⟩
      · exact ⟨m', (Prod.mk.inj (Option.some.inj h)).2.symm⟩

theorem setMem_of_sysPageMap {r : Word} (h : sysPageMap B k cur a1 a2 a3 a4 a5 = some (r, k')) :
    ∃ m, k' = k.setMem m := by
  simp only [sysPageMap] at h
  split at h
  · exact ⟨k.mem, (Prod.mk.inj (Option.some.inj h)).2.symm⟩
  split at h
  · exact ⟨k.mem, (Prod.mk.inj (Option.some.inj h)).2.symm⟩
  split at h
  · exact ⟨k.mem, (Prod.mk.inj (Option.some.inj h)).2.symm⟩
  split at h
  · exact ⟨k.mem, (Prod.mk.inj (Option.some.inj h)).2.symm⟩
  split at h
  · exact ⟨k.mem, (Prod.mk.inj (Option.some.inj h)).2.symm⟩
  simp only [Option.bind_eq_bind, Option.bind_eq_some_iff] at h
  obtain ⟨d, -, o, -, h⟩ := h
  cases o with
  | none => exact ⟨k.mem, (Prod.mk.inj (Option.some.inj h)).2.symm⟩
  | some x =>
      simp only at h
      split at h
      · exact ⟨k.mem, (Prod.mk.inj (Option.some.inj h)).2.symm⟩
      · simp only [Option.bind_eq_some_iff, Prod.exists] at h
        obtain ⟨d', -, r', m, -, h⟩ := h
        split at h
        · exact ⟨m, (Prod.mk.inj (Option.some.inj h)).2.symm⟩
        · exact ⟨m, (Prod.mk.inj (Option.some.inj h)).2.symm⟩

theorem setMem_of_sysPageUnmap {r : Word} (h : sysPageUnmap B k cur a1 a2 = some (r, k')) :
    ∃ m, k' = k.setMem m := by
  simp only [sysPageUnmap] at h
  split at h
  · exact ⟨k.mem, (Prod.mk.inj (Option.some.inj h)).2.symm⟩
  split at h
  · exact ⟨k.mem, (Prod.mk.inj (Option.some.inj h)).2.symm⟩
  simp only [Option.bind_eq_bind, Option.bind_eq_some_iff] at h
  obtain ⟨d, -, m, -, h⟩ := h
  exact ⟨m, (Prod.mk.inj (Option.some.inj h)).2.symm⟩

/-- Storing what is there already. -/
theorem Kern.modEnv_envIpcPerm_self (k : Kern) (e : Slot) :
    ((k.setMem k.mem).modEnv e fun env ↦ { env with envIpcPerm := (k.envs e).envIpcPerm }) = k := by
  simp only [Kern.modEnv, Kern.setMem]
  rw [show ({ k.envs e with envIpcPerm := (k.envs e).envIpcPerm } : Env) = k.envs e from rfl,
    Function.update_eq_self]

theorem effect_of_sysIpcTrySend {r : Word} (hno : sysNo no = some .ipcTrySend)
    (h : sysIpcTrySend B k cur a1 a2 a3 a4 = some (r, k')) :
    Effect B k cur no a1 a2 (.ret r) k' := by
  have fail : ∀ {w : Word}, w ≠ 0 → some (w, k) = some (r, k') →
      Effect B k cur no a1 a2 (.ret r) k' := by
    rintro w hw heq
    obtain ⟨rfl, rfl⟩ := Prod.mk.inj (Option.some.inj heq)
    exact .same fun _ ↦ hw
  cases he : envid2env k cur a1 false with
  | none =>
      simp only [sysIpcTrySend, he] at h
      exact fail (by decide) h
  | some e =>
  by_cases hrecv : (k.envs e).envIpcRecving = true
  swap
  · simp only [sysIpcTrySend, he, hrecv] at h
    exact fail (by decide) h
  by_cases hva : a3 < UTOP
  swap
  · simp only [sysIpcTrySend, he, hrecv, hva, if_false, not_true_eq_false, Option.some.injEq,
      Prod.mk.injEq] at h
    obtain ⟨rfl, rfl⟩ := h
    exact .send k.mem 0 hno he hrecv
  simp only [sysIpcTrySend, he, hrecv, hva, if_true, not_true_eq_false, if_false] at h
  split at h
  · exact fail (by decide) h
  split at h
  · exact fail (by decide) h
  simp only [Option.bind_eq_bind, Option.bind_eq_some_iff] at h
  obtain ⟨d, -, o, -, h⟩ := h
  cases o with
  | none => exact fail (by decide) h
  | some x =>
  simp only at h
  split at h
  · exact fail (by decide) h
  split at h
  · simp only [Option.bind_eq_some_iff, Prod.exists] at h
    obtain ⟨d', -, w, m, -, h⟩ := h
    split at h
    · obtain ⟨rfl, rfl⟩ := Prod.mk.inj (Option.some.inj h)
      exact .unsent m a4 (by decide) hno he hrecv
    · obtain ⟨rfl, rfl⟩ := Prod.mk.inj (Option.some.inj h)
      exact .send m a4 hno he hrecv
  · obtain ⟨rfl, rfl⟩ := Prod.mk.inj (Option.some.inj h)
    have heff : Effect B k cur no a1 a2 (.ret 0) _ :=
      .send k.mem (k.envs e).envIpcPerm hno he hrecv
    rwa [Kern.modEnv_envIpcPerm_self] at heff

theorem effect_of_sysEnvDestroy {r : Ctl Word} (hno : sysNo no = some .envDestroy)
    (h : sysEnvDestroy B k cur a1 = some (r, k')) : Effect B k cur no a1 a2 r k' := by
  have hsend : ∀ {w : Word}, sysNo no = some .ipcTrySend → w ≠ 0 := fun hc ↦ by
    rw [hno] at hc
    cases hc
  cases he : envid2env k cur a1 true with
  | none =>
      simp only [sysEnvDestroy, he, Option.some.injEq, Prod.mk.injEq] at h
      obtain ⟨rfl, rfl⟩ := h
      exact .same hsend
  | some e =>
  by_cases hcur : e = cur
  · subst hcur
    simp only [sysEnvDestroy, he, Option.bind_eq_bind, Option.bind_eq_some_iff, Prod.exists] at h
    obtain ⟨c, k₁, hd, h⟩ := h
    obtain ⟨rfl, hf⟩ := envDestroy_self hd
    obtain ⟨rfl, rfl⟩ := Prod.mk.inj (Option.some.inj h)
    obtain ⟨hpg, m, rfl⟩ := envFree_eq hf
    exact .exit m hpg
  have hne : (some cur : Option Slot) ≠ some e := fun hc ↦ hcur (Option.some.inj hc).symm
  by_cases hrun : (k.envs e).envStatus = .running
  · simp only [sysEnvDestroy, he, envDestroy, hrun, hne, ne_eq, not_false_eq_true, and_self,
      if_true, Option.bind_eq_bind, Option.bind_some, Option.pure_def, Option.some.injEq,
      Prod.mk.injEq] at h
    obtain ⟨rfl, rfl⟩ := h
    exact .doom hno he hrun hcur
  · cases hf : envFree B k e with
    | none => simp [sysEnvDestroy, he, envDestroy, hrun, hf] at h
    | some k₁ =>
        simp only [sysEnvDestroy, he, envDestroy, hrun, hf, hne, false_and, if_false,
          Option.bind_eq_bind, Option.bind_some, Option.pure_def, Option.some.injEq,
          Prod.mk.injEq] at h
        obtain ⟨rfl, rfl⟩ := h
        obtain ⟨hpg, m, rfl⟩ := envFree_eq hf
        exact .free m hno he hrun hcur hpg

theorem effect_of_sysEnvSetStatus {r : Word} (hno : sysNo no = some .envSetStatus)
    (h : sysEnvSetStatus k cur a1 a2 = (r, k')) : Effect B k cur no a1 a2 (.ret r) k' := by
  have hsend : ∀ {w : Word}, sysNo no = some .ipcTrySend → w ≠ 0 := fun hc ↦ by
    rw [hno] at hc
    cases hc
  simp only [sysEnvSetStatus] at h
  split at h
  · obtain ⟨rfl, rfl⟩ := Prod.mk.inj h
    exact .same hsend
  · next e he =>
      split at h
      · next hr =>
          obtain ⟨rfl, rfl⟩ := Prod.mk.inj h
          exact .status hno he (if_pos hr)
      · next hr =>
          split at h
          · next hn =>
              obtain ⟨rfl, rfl⟩ := Prod.mk.inj h
              exact .status hno he (by rw [newStatus, if_neg hr, if_pos hn])
          · obtain ⟨rfl, rfl⟩ := Prod.mk.inj h
            exact .same hsend

/-- The list of effects is complete. -/
theorem effect_of_syscall {r : Ctl Word}
    (h : syscall B k cur getc no a1 a2 a3 a4 a5 = some (r, k')) : Effect B k cur no a1 a2 r k' := by
  rw [syscall] at h
  cases hno : sysNo no with
  | none =>
      rw [hno] at h
      obtain ⟨rfl, rfl⟩ := Prod.mk.inj (Option.some.inj h)
      exact .same fun hc ↦ by rw [hno] at hc; cases hc
  | some n =>
  rw [hno] at h
  have hsend : n ≠ .ipcTrySend → ∀ {w : Word}, sysNo no = some .ipcTrySend → w ≠ 0 :=
    fun hn w hc ↦ absurd (Option.some.inj (hno.symm.trans hc)) hn
  cases n with
  | cputs =>
      cases hs : sysCputs B k cur a1 a2 with
      | none => simp [hs] at h
      | some x =>
          obtain ⟨c, k₁⟩ := x
          rcases sysCputs_cases hs with ⟨rfl, rfl⟩ | ⟨rfl, hf⟩
          · simp only [hs, Option.bind_eq_bind, Option.bind_some, Option.pure_def,
              Option.some.injEq, Prod.mk.injEq] at h
            obtain ⟨rfl, rfl⟩ := h
            exact .same (hsend (by simp))
          · simp only [hs, Option.bind_eq_bind, Option.bind_some, Option.pure_def,
              Option.some.injEq, Prod.mk.injEq] at h
            obtain ⟨rfl, rfl⟩ := h
            obtain ⟨hpg, m, rfl⟩ := envFree_eq hf
            exact .exit m hpg
  | cgetc =>
      obtain ⟨rfl, rfl⟩ := Prod.mk.inj (Option.some.inj h)
      exact .same (hsend (by simp))
  | getenvid =>
      obtain ⟨rfl, rfl⟩ := Prod.mk.inj (Option.some.inj h)
      exact .same (hsend (by simp))
  | yield =>
      obtain ⟨rfl, rfl⟩ := Prod.mk.inj (Option.some.inj h)
      exact .yield hno
  | envDestroy => exact effect_of_sysEnvDestroy hno h
  | exofork =>
      obtain ⟨w, rfl, hx⟩ := returned_eq h
      rcases sysExofork_eq hx with ⟨m, rfl, -⟩ | ⟨e, m, d, tf, hf, rfl, htf, rfl⟩
      · exact .quiet m (hsend (by simp))
      · exact .fork m d tf hno hf htf
  | envSetStatus =>
      obtain ⟨w, rfl, hx⟩ := returned_eq h
      exact effect_of_sysEnvSetStatus hno (Option.some.inj hx)
  | pageAlloc =>
      obtain ⟨w, rfl, hx⟩ := returned_eq h
      obtain ⟨m, rfl⟩ := setMem_of_sysPageAlloc hx
      exact .quiet m (hsend (by simp))
  | pageMap =>
      obtain ⟨w, rfl, hx⟩ := returned_eq h
      obtain ⟨m, rfl⟩ := setMem_of_sysPageMap hx
      exact .quiet m (hsend (by simp))
  | pageUnmap =>
      obtain ⟨w, rfl, hx⟩ := returned_eq h
      obtain ⟨m, rfl⟩ := setMem_of_sysPageUnmap hx
      exact .quiet m (hsend (by simp))
  | envSetPgfaultUpcall =>
      obtain ⟨w, rfl, hx⟩ := returned_eq h
      have hx := Option.some.inj hx
      simp only [sysEnvSetPgfaultUpcall] at hx
      split at hx
      · obtain ⟨rfl, rfl⟩ := Prod.mk.inj hx
        exact .same (hsend (by simp))
      · next e he =>
          obtain ⟨rfl, rfl⟩ := Prod.mk.inj hx
          exact .upcall hno he
  | ipcTrySend =>
      obtain ⟨w, rfl, hx⟩ := returned_eq h
      exact effect_of_sysIpcTrySend hno hx
  | ipcRecv =>
      have hx := Option.some.inj h
      rw [sysIpcRecv] at hx
      split at hx
      · obtain ⟨rfl, rfl⟩ := Prod.mk.inj hx
        exact .same (hsend (by simp))
      · next hva =>
          obtain ⟨rfl, rfl⟩ := Prod.mk.inj hx
          exact .recv hno hva

/-! ## A trap from user mode -/

/-- Store the registers of an environment. -/
def Kern.setTf (k : Kern) (e : Slot) (tf : Trapframe) : Kern :=
  k.modEnv e fun env ↦ { env with envTf := tf }

/-- Store the value that a system call returns. -/
def Kern.setEax (k : Kern) (e : Slot) (r : Word) : Kern :=
  k.modEnv e fun env ↦
    { env with envTf := { env.envTf with regs := { env.envTf.regs with eax := r } } }

/-- The system call in the registers of `cur`. -/
def callOf (B : Machine) (k : Kern) (cur : Slot) (getc : Word) : Option (Ctl Word × Kern) :=
  let regs := (k.envs cur).envTf.regs
  syscall B k cur getc regs.eax regs.edx regs.ecx regs.ebx regs.edi regs.esi

/-- What `trap_dispatch` does before the scheduler is called, with what is `curenv` then. -/
inductive Handled (B : Machine) (k : Kern) (cur : Slot) : Option Slot → Kern → Prop
  | quiet : Handled B k cur (some cur) k
  | ret {r : Word} {k' : Kern} (getc : Word) (hno : (k.envs cur).envTf.trapno = T_SYSCALL)
      (call : callOf B k cur getc = some (.ret r, k')) :
      Handled B k cur (some cur) (k'.setEax cur r)
  | call {o : Option Slot} {k' : Kern} (getc : Word) (hno : (k.envs cur).envTf.trapno = T_SYSCALL)
      (call : callOf B k cur getc = some (.yield o, k')) : Handled B k cur o k'
  | fault (tf : Trapframe) (m : Mem) : Handled B k cur (some cur) ((k.setTf cur tf).setMem m)
  | exit (tf : Trapframe) (m : Mem) (pgdir : (k.envs cur).envPgdir ≠ none) :
      Handled B k cur none ((k.setTf cur tf).freed cur m)

theorem handled_of_envDestroy {c : Ctl Unit} (tf : Trapframe)
    (h : envDestroy B (k.setTf cur tf) (some cur) cur = some (c, k')) :
    c = .yield none ∧ Handled B k cur none k' := by
  obtain ⟨rfl, hf⟩ := envDestroy_self h
  obtain ⟨hpg, m, rfl⟩ := envFree_eq hf
  exact ⟨rfl, .exit tf m (by simpa [Kern.setTf] using hpg)⟩

theorem Kern.setTf_self (k : Kern) (e : Slot) : k.setTf e (k.envs e).envTf = k := by
  simp only [Kern.setTf, Kern.modEnv]
  rw [show ({ k.envs e with envTf := (k.envs e).envTf } : Env) = k.envs e from rfl,
    Function.update_eq_self]

theorem Kern.modTf_setTf (k : Kern) (e : Slot) (tf : Trapframe) (f : Env → Trapframe) :
    ((k.setTf e tf).modEnv e fun env ↦ { env with envTf := f env }) =
      k.setTf e (f { k.envs e with envTf := tf }) := by
  simp [Kern.setTf, Kern.modEnv]

/-- Where the frame of a fault with stack pointer `esp` goes. -/
def faultEsp (esp : Word) : Word :=
  (if UXSTACKTOP - 0x1000 ≤ esp ∧ esp ≤ UXSTACKTOP then esp - 4 else UXSTACKTOP) - 52

/-- The frame lies below `UTOP`. -/
theorem faultEsp_le (esp : Word) : (faultEsp esp).toNat + 52 ≤ UTOP.toNat := by
  rw [faultEsp]
  split
  · next h =>
      have hlo : 4005556224 ≤ esp.toNat := h.1
      have hhi : esp.toNat ≤ 4005560320 := h.2
      rw [show UTOP.toNat = 4005560320 from rfl]
      bv_omega
  · decide

/-- The registers with which the upcall starts. -/
def upcallTf (env : Env) : Trapframe :=
  { env.envTf with esp := faultEsp env.envTf.esp, eip := env.envPgfaultUpcall }

@[simp] theorem length_utfBytes (cr2 : Word) (tf : Trapframe) : (utfBytes cr2 tf).length = 52 := rfl

/-- A fault destroys the environment or enters its upcall. -/
theorem pageFaultHandler_cases {cr2 : Word} {x : Exit}
    (h : pageFaultHandler B k cur cr2 = some (x, k')) :
    (x = .yield none ∧ ∃ tf, envFree B (k.setTf cur tf) cur = some k') ∨
    (x = .run ∧ (k.envs cur).envPgfaultUpcall ≠ 0 ∧ ∃ d m, (k.envs cur).envPgdir = some d ∧
      userMemCheck B k.mem d (faultEsp (k.envs cur).envTf.esp) 52
        (PTE_U ||| PTE_P ||| PTE_W ||| PTE_U) = some none ∧
      storeBytes k.mem d (faultEsp (k.envs cur).envTf.esp) (utfBytes cr2 (k.envs cur).envTf) =
        some m ∧
      k' = (k.setTf cur (upcallTf (k.envs cur))).setMem m) := by
  simp only [pageFaultHandler] at h
  split at h
  swap
  · simp only [Option.bind_eq_bind, Option.bind_eq_some_iff, Prod.exists] at h
    obtain ⟨c, k₁, hd, h⟩ := h
    rw [← k.setTf_self cur] at hd
    obtain ⟨rfl, hf⟩ := envDestroy_self hd
    obtain ⟨rfl, rfl⟩ := Prod.mk.inj (Option.some.inj h)
    exact .inl ⟨rfl, _, hf⟩
  next hup =>
  simp only [Option.bind_eq_bind, Option.bind_eq_some_iff, Prod.exists] at h
  obtain ⟨c, k₁, hassert, h⟩ := h
  simp only [userMemAssert, Option.bind_eq_bind, Option.bind_eq_some_iff, Kern.envs_modEnv_self,
    Kern.mem_modEnv] at hassert
  obtain ⟨d, hd, o, hcheck, hassert⟩ := hassert
  cases o with
  | some a =>
      obtain ⟨rfl, hf⟩ := envDestroy_self hassert
      obtain ⟨rfl, rfl⟩ := Prod.mk.inj (Option.some.inj h)
      exact .inl ⟨rfl, _, hf⟩
  | none =>
      obtain ⟨rfl, rfl⟩ := Prod.mk.inj (Option.some.inj hassert)
      simp only [Option.bind_eq_some_iff, Kern.envs_modEnv_self, Kern.mem_modEnv] at h
      obtain ⟨d', hd', m, hstore, h⟩ := h
      obtain ⟨rfl, rfl⟩ := Prod.mk.inj (Option.some.inj h)
      obtain rfl := Option.some.inj (hd.symm.trans hd')
      refine .inr ⟨rfl, hup, d, m, hd, hcheck, hstore, congrArg (Kern.setMem · m) ?_⟩
      exact k.modTf_setTf cur _ fun env ↦ { env.envTf with eip := env.envPgfaultUpcall }

theorem handled_of_pageFaultHandler {cr2 : Word} {x : Exit}
    (h : pageFaultHandler B k cur cr2 = some (x, k')) :
    (x = .yield none ∧ Handled B k cur none k') ∨
      (x = .run ∧ ∃ tf m, k' = (k.setTf cur tf).setMem m) := by
  rcases pageFaultHandler_cases h with ⟨rfl, tf, hf⟩ | ⟨rfl, -, d, m, -, -, -, rfl⟩
  · obtain ⟨hpg, m, rfl⟩ := envFree_eq hf
    exact .inl ⟨rfl, .exit tf m (by simpa [Kern.setTf] using hpg)⟩
  · exact .inr ⟨rfl, _, m, rfl⟩

theorem handled_of_trapDispatch {cr2 : Word} {x : Exit}
    (h : trapDispatch B k cur cr2 getc = some (x, k')) :
    (x = .ret ∧ Handled B k cur (some cur) k') ∨
    (∃ o, x = .yield o ∧ Handled B k cur o k') ∨
    (x = .run ∧ (k.envs cur).envTf.trapno = T_PGFLT ∧
      ∃ tf m, k' = (k.setTf cur tf).setMem m) := by
  rw [trapDispatch] at h
  split at h
  · obtain ⟨rfl, rfl⟩ := Prod.mk.inj (Option.some.inj h)
    exact .inl ⟨rfl, .quiet⟩
  split at h
  · next hno =>
      rcases handled_of_pageFaultHandler h with ⟨rfl, hh⟩ | ⟨rfl, hh⟩
      · exact .inr (.inl ⟨none, rfl, hh⟩)
      · exact .inr (.inr ⟨rfl, hno, hh⟩)
  split at h
  · cases h
  split at h
  · next hno =>
      simp only [Option.bind_eq_bind, Option.bind_eq_some_iff, Prod.exists] at h
      obtain ⟨r, k₁, hcall, h⟩ := h
      cases r with
      | ret r =>
          obtain ⟨rfl, rfl⟩ := Prod.mk.inj (Option.some.inj h)
          exact .inl ⟨rfl, .ret getc hno hcall⟩
      | yield o =>
          obtain ⟨rfl, rfl⟩ := Prod.mk.inj (Option.some.inj h)
          exact .inr (.inl ⟨o, rfl, .call getc hno hcall⟩)
  split at h
  · obtain ⟨rfl, rfl⟩ := Prod.mk.inj (Option.some.inj h)
    exact .inr (.inl ⟨_, rfl, .quiet⟩)
  · simp only [Option.bind_eq_bind, Option.bind_eq_some_iff, Prod.exists] at h
    obtain ⟨c, k₁, hd, h⟩ := h
    rw [← k.setTf_self cur] at hd
    obtain ⟨rfl, hh⟩ := handled_of_envDestroy _ hd
    obtain ⟨rfl, rfl⟩ := Prod.mk.inj (Option.some.inj h)
    exact .inr (.inl ⟨none, rfl, hh⟩)

/-! ## A kernel entry -/

/-- The state in which CPU `c` calls the scheduler, with `o` as `curenv`. -/
def Smp.enter (B : Machine) (s : Smp) (c : CpuId) (k : Kern) : Option Slot → Smp
  | some _ => (s.modCpu c fun cpu ↦ { cpu with cpuStatus := .started }).setKern k
  | none => ((s.modCpu c fun cpu ↦ { cpu with cpuStatus := .started }).setKern k).modCpu c
      fun cpu ↦ { cpu with cpuEnv := none, cr3 := B.kernPgdir }

/-- The states in which an entry calls the scheduler. -/
inductive Entered (B : Machine) (s : Smp) : Entry → CpuId → Smp → Prop
  | reap {c : CpuId} {tf : Trapframe} {cr2 getc : Word} {cur : Slot} (m : Mem)
      (hcur : s.curenv c = some cur) (dying : s.status cur = .dying)
      (pgdir : (s.kern.envs cur).envPgdir ≠ none) :
      Entered B s (.trap c tf cr2 getc) c (s.enter B c (s.kern.freed cur m) none)
  | trap {c : CpuId} {tf : Trapframe} {cr2 getc : Word} {cur : Slot} {o : Option Slot} {k : Kern}
      (hcur : s.curenv c = some cur) (alive : s.status cur ≠ .dying)
      (handled : Handled B (s.kern.setTf cur tf) cur o k) :
      Entered B s (.trap c tf cr2 getc) c (s.enter B c k o)
  | wake {c : CpuId} {trapno : Word} (halted : (s.cpus c).cpuStatus = .halted) :
      Entered B s (.wake c trapno) c (s.modCpu c fun cpu ↦ { cpu with cpuStatus := .started })
  | start {c : CpuId} (unused : (s.cpus c).cpuStatus = .unused) : Entered B s (.start c) c
      (s.modCpu c fun cpu ↦ { cpu with cpuStatus := .started, cr3 := B.kernPgdir })

theorem yieldAs_eq {s : Smp} {c : CpuId} {o : Option Slot} :
    yieldAs B ((s.modCpu c fun cpu ↦ { cpu with cpuStatus := .started }).setKern k) c o =
      schedYield B (s.enter B c k o) c := by
  cases o <;> rfl

/-- The entry is a page fault that is passed on to the environment, which goes on running
whatever its status is. -/
def Faults (s : Smp) (en : Entry) (c : CpuId) (s' : Smp) : Prop :=
  ∃ cur tf cr2 getc, en = .trap c tf cr2 getc ∧ tf.trapno = T_PGFLT ∧ s.curenv c = some cur ∧
    s.status cur ≠ .dying ∧ s'.curenv c = some cur ∧ s'.status cur = s.status cur

/-- Every entry is a state change followed by a call of the scheduler. -/
theorem Entry.exec_cases {s s' : Smp} {en : Entry} (h : en.exec B s = some s') :
    ∃ c mid, Entered B s en c mid ∧ Schedules mid c s' ∧ (Ready s' c ∨ Faults s en c s') := by
  cases en with
  | wake c trapno =>
      simp only [Entry.exec] at h
      split at h
      · next halted =>
          refine ⟨c, _, .wake halted, ?_⟩
          rw [trapHalted] at h
          split at h
          · exact (scheduled_trapTail h).imp_right .inl
          · split at h
            · exact (scheduled_schedYield h).imp_right .inl
            · cases h
      · cases h
  | start c =>
      simp only [Entry.exec] at h
      split at h
      · next unused => exact ⟨c, _, .start unused, (scheduled_schedYield h).imp_right .inl⟩
      · cases h
  | trap c tf cr2 getc =>
      simp only [Entry.exec] at h
      split at h
      swap
      · cases h
      simp only [trapUser, Option.bind_eq_bind, Option.bind_eq_some_iff] at h
      obtain ⟨cur, hcur, h⟩ := h
      have hcur : s.curenv c = some cur := by simpa [Smp.curenv] using hcur
      split at h
      · next hdying =>
          obtain ⟨k, hf, h⟩ := Option.bind_eq_some_iff.mp h
          obtain ⟨hpg, m, rfl⟩ := envFree_eq hf
          rw [yieldAs_eq] at h
          exact ⟨c, _, .reap m hcur hdying hpg, (scheduled_schedYield h).imp_right .inl⟩
      · next hdying =>
          simp only [Option.bind_eq_some_iff, Prod.exists] at h
          obtain ⟨x, k, hd, h⟩ := h
          rcases handled_of_trapDispatch hd with ⟨rfl, hh⟩ | ⟨o, rfl, hh⟩ | ⟨rfl, hno, tf', m, rfl⟩
          · exact ⟨c, _, .trap hcur hdying hh, (scheduled_trapTail h).imp_right .inl⟩
          · have h : schedYield B (s.enter B c k o) c = some s' := yieldAs_eq.symm.trans h
            exact ⟨c, _, .trap hcur hdying hh, (scheduled_schedYield h).imp_right .inl⟩
          · obtain ⟨hs, hafter, hsame⟩ := schedules_envRun_self (by simpa [Smp.curenv] using hcur) h
            refine ⟨c, _, .trap hcur hdying (.fault tf' m), hs, .inr ⟨cur, tf, cr2, getc, rfl, ?_,
              hcur, hdying, hafter, ?_⟩⟩
            · simpa using hno
            · rw [hsame]
              simp [Smp.status, Kern.setTf, Kern.modEnv]

end Jos
