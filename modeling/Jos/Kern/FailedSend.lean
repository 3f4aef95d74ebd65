import Jos.Kern.Atomic
import Jos.Libc.ForkImage

/-!
# Sends that fail

`sys_ipc_try_send` stores `env_ipc_perm` before it looks at the result of `page_insert`.  So of
its seven failure exits one leaves a trace: there is no memory for a page table of the receiver,
which then finds the permission of a page that it did not get.
-/

namespace Jos

open Jos.Lib

variable {B : Machine} {M : Pool B} {k k' : Kern} {l : List ℕ} {el : List Slot} {cur a b : Slot}
  {envid value srcva perm r : Word}

/-- The send passes every check, but there is no memory for a table of the receiver, and `perm` is
not what the receiver has in `env_ipc_perm`. -/
structure PermLeft (B : Machine) (k : Kern) (cur : Slot) (envid srcva perm : Word) (e : Slot) :
    Prop where
  target : envid2env k cur envid false = some e
  recving : (k.envs e).envIpcRecving = true
  low : srcva < UTOP
  aligned : pgoff srcva = 0
  perm_ok : ¬ badPerm perm
  page : ∃ src p t j, (k.envs cur).envPgdir = some src ∧
    pageLookup B k.mem src srcva = some (some (p, t, j)) ∧
    ¬ (¬ isSet (k.mem.phys t j) PTE_W ∧ isSet perm PTE_W)
  wanted : (k.envs e).envIpcDstva < UTOP
  full : ∃ d, (k.envs e).envPgdir = some d ∧ ¬ Room k.mem d (k.envs e).envIpcDstva
  differs : (k.envs e).envIpcPerm ≠ perm

/-- The state after such a send. -/
theorem PermLeft.run {e : Slot} (h : PermLeft B k cur envid srcva perm e) :
    sysIpcTrySend B k cur envid value srcva perm =
      some (-E_NO_MEM, k.modEnv e fun env ↦ { env with envIpcPerm := perm }) := by
  obtain ⟨src, p, t, j, hsrc, hlook, hW⟩ := h.page
  obtain ⟨d, hd, hroom⟩ := h.full
  have hins : pageInsert B k.mem d p (k.envs e).envIpcDstva perm = some (-E_NO_MEM, k.mem) := by
    simp only [pageInsert, pgdirWalk_create_none.mpr ⟨hroom, rfl⟩, Option.bind_eq_bind,
      Option.bind_some]
    rfl
  simp only [sysIpcTrySend, h.target, h.recving, not_true_eq_false, if_false, h.low, if_true,
    h.aligned, ne_eq, h.perm_ok, hsrc, Option.bind_eq_bind, Option.bind_some, hlook, hW, h.wanted,
    hd, hins, Kern.setMem_mem]
  rfl

/-- A send that fails has no effect, unless it leaves its permission behind. -/
theorem failed_send_no_effect_iff
    (run : sysIpcTrySend B k cur envid value srcva perm = some (r, k')) :
    (r.toInt < 0 → k' = k) ↔ ∀ e, ¬ PermLeft B k cur envid srcva perm e := by
  constructor
  · intro hsame e h
    rw [h.run] at run
    obtain ⟨rfl, rfl⟩ := Prod.mk.inj (Option.some.inj run)
    have hperm := congrArg (fun k : Kern ↦ (k.envs e).envIpcPerm) (hsame (by decide))
    rw [Kern.envs_modEnv_self] at hperm
    exact h.differs hperm.symm
  intro hno hr
  rw [sysIpcTrySend] at run
  split at run
  · exact (Prod.mk.inj (Option.some.inj run)).2.symm
  next e he =>
  split at run
  · exact (Prod.mk.inj (Option.some.inj run)).2.symm
  next hrecv =>
  split at run
  swap
  · exact absurd hr (not_neg_of_eq run)
  next hlow =>
  split at run
  · exact (Prod.mk.inj (Option.some.inj run)).2.symm
  next halign =>
  split at run
  · exact (Prod.mk.inj (Option.some.inj run)).2.symm
  next hperm =>
  simp only [Option.bind_eq_bind, Option.bind_eq_some_iff] at run
  obtain ⟨src, hsrc, o, hlook, run⟩ := run
  cases o with
  | none => exact (Prod.mk.inj (Option.some.inj run)).2.symm
  | some x =>
  obtain ⟨p, t, j⟩ := x
  dsimp only at run
  split at run
  · exact (Prod.mk.inj (Option.some.inj run)).2.symm
  next hW =>
  split at run
  swap
  · exact absurd hr (not_neg_of_eq run)
  next hwant =>
  simp only [Option.bind_eq_some_iff, Prod.exists] at run
  obtain ⟨d, hd, w, m, hins, run⟩ := run
  split at run
  swap
  · exact absurd hr (not_neg_of_eq run)
  next hw =>
  -- only the permission was stored, so it is the one that was there
  obtain rfl := (pageInsert_negative hins).2 hw
  obtain rfl := (Prod.mk.inj (Option.some.inj run)).2
  by_contra hne
  refine hno e ⟨he, by simpa using hrecv, hlow, by simpa using halign, hperm,
    ⟨src, p, t, j, hsrc, hlook, hW⟩, hwant, ⟨d, hd, (pageInsert_negative hins).1.mp hw⟩,
    fun hc ↦ hne ?_⟩
  rw [Kern.setMem_mem, ← hc]
  simp [Kern.modEnv]

/-- The send of a number to an environment that does not wait is refused. -/
theorem failed_send_no_effect_refused : ∃ k a r k',
    sysIpcTrySend demoConfig.machine k a 0 7 UTOP 0 = some (r, k') ∧ r.toInt < 0 ∧
    ((r.toInt < 0 → k' = k) ↔ ∀ e, ¬ PermLeft demoConfig.machine k a 0 UTOP 0 e) := by
  obtain ⟨k, l, el, a, -, env, -, d, -, -, -, -, -, -, henv, -⟩ := exists_booted
  have hrun : sysIpcTrySend demoConfig.machine k a 0 7 UTOP 0 = some (-E_IPC_NOT_RECV, k) := by
    have hrecv : (k.envs a).envIpcRecving = false := by
      rw [henv]
      rfl
    simp [sysIpcTrySend, envid2env, hrecv]
  exact ⟨k, a, _, k, hrun, by decide, failed_send_no_effect_iff hrun⟩

/-! ## A receiver without a table, and no memory -/

/-- `fork` makes the child with a system call. -/
theorem step_of_exofork {entry : Word} {pc : ForkPc}
    (h : OwnStep B entry a (.exofork, k) (pc, k')) : Step B k k' := by
  have hrun := h.run
  simp only [forkStep, Option.bind_eq_bind, Option.bind_eq_some_iff, Prod.exists] at hrun
  obtain ⟨child, k₁, hcall, hrun⟩ := hrun
  obtain ⟨-, rfl⟩ := Prod.mk.inj (Option.some.inj hrun)
  refine .kernel (.syscall (c := { cur := a, no := 7 }) h.live (r := .ret child) ?_)
  rw [Call.exec, syscall]
  show returned (sysExofork B k a) = _
  rw [hcall]
  rfl

/-- Nobody looks at the bits `PTE_AVAIL`, so there are two permissions for a page that is only
read. -/
theorem exists_perm_ne (perm : Word) : ∃ perm', perm ≠ perm' ∧ ¬ badPerm perm' ∧
    ¬ isSet perm' PTE_W := by
  by_cases h : perm = PTE_U ||| PTE_P
  · subst h
    exact ⟨PTE_U ||| PTE_P ||| 0x200, by decide, by decide, by decide⟩
  · exact ⟨PTE_U ||| PTE_P, h, by decide, by decide⟩

namespace Neighbours

variable (h : Neighbours B M k l el a b)

include h

/-- The child of `a` becomes runnable and waits for a page at address 0. -/
theorem child_waits {child : Word} (hchild : Child k a child) : ∃ k', Run B (fun _ ↦ True) k k' ∧
    Neighbours B M k' l el a b ∧ k'.envs (envx child) = { k.envs (envx child) with
      envIpcRecving := true, envIpcDstva := 0, envStatus := .notRunnable } ∧ k'.mem = k.mem := by
  let k₁ := k.modEnv (envx child) fun env ↦ { env with envStatus := .runnable }
  let k₂ := k₁.modEnv (envx child) fun env ↦
    { env with envIpcRecving := true, envIpcDstva := 0, envStatus := .notRunnable }
  have hk₂ : k₂ = k.modEnv (envx child) fun env ↦
      { env with envIpcRecving := true, envIpcDstva := 0, envStatus := .notRunnable } := by
    simp [k₂, k₁, Kern.modEnv]
  have hlive₁ : k₁.Live (envx child) := by
    rw [Kern.Live, Kern.envs_modEnv_self]
    exact EnvStatus.noConfusion
  have hstatus : Step B k k₁ := by
    refine .kernel (.syscall (c := { cur := a, no := 8, a1 := child, a2 := ENV_RUNNABLE }) h.live
      (r := .ret 0) ?_)
    rw [Call.exec, syscall]
    show returned (sysEnvSetStatus k a child ENV_RUNNABLE) = _
    rw [sysEnvSetStatus, hchild.found]
    rfl
  have hrecv : Step B k₁ k₂ := by
    refine .kernel (.syscall (c := { cur := envx child, no := 12 }) hlive₁
      (r := .yield (some (envx child))) ?_)
    rw [Call.exec, syscall]
    show some (sysIpcRecv k₁ (envx child) 0) = _
    rw [sysIpcRecv, if_neg (by decide)]
  refine ⟨k₂, .tail (.single ⟨hstatus, trivial⟩) ⟨hrecv, trivial⟩, ?_, ?_, rfl⟩
  · rw [hk₂]
    exact (h.modEnv (by simp [hchild.status]) (fun hc ↦ absurd hc (hchild.slot_ne h.status))
      rfl rfl rfl).1
  · rw [hk₂, Kern.envs_modEnv_self]

end Neighbours

/-- The child of an environment waits for a page, another environment has taken all memory, and the
parent sends its stack: the call returns `-E_NO_MEM` and has changed `env_ipc_perm`. -/
theorem failed_send_leaves_perm : ∃ k₀ k a child perm r k', Booted demoConfig k₀ ∧
    Run demoConfig.machine (fun _ ↦ True) k₀ k ∧ k.Live a ∧
    sysIpcTrySend demoConfig.machine k a child 0 (USTACKTOP - 0x1000) perm = some (r, k') ∧
    r.toInt < 0 ∧ k' ≠ k := by
  obtain ⟨k₀, l, el, a, b, hboot, h₀, hoards, hlen, hel⟩ := exists_neighbours
  obtain ⟨k₁, d, hrun₁, h₁, -, -⟩ := h₀.drain_one hoards (by omega)
    (h₀.boot.inv.length_le.trans_lt (by decide))
  obtain ⟨k₂, child, el₂, hstep₂, h₂, -, hchild₂, -, hd₂, htab₂⟩ := h₁.exofork 0 rfl hel
  obtain ⟨k₃, hrun₃, h₃, henv₃, hmem₃⟩ := h₂.child_waits hchild₂
  have hrun : Run demoConfig.machine (fun _ ↦ True) k₀ k₃ := by
    have hrun₁ : Run demoConfig.machine (fun _ ↦ True) k₀ k₁ :=
      Relation.ReflTransGen.mono (fun _ _ hstep ↦ ⟨hstep.step, trivial⟩) _ _ hrun₁
    refine (hrun₁.tail ⟨?_, trivial⟩).trans hrun₃
    exact step_of_exofork hstep₂
  obtain ⟨perm, hne, hperm, hW⟩ := exists_perm_ne (k₃.envs (envx child)).envIpcPerm
  obtain ⟨src, hsrc, hpg⟩ := h₃.boot.inv.live_dir h₃.live
  have hleft : PermLeft demoConfig.machine k₃ a child (USTACKTOP - 0x1000) perm (envx child) := by
    refine ⟨?_, by rw [henv₃], by decide, by decide, hperm, ?_, ?_, ⟨d, ?_, ?_⟩, hne⟩
    · rw [envid2env, if_neg hchild₂.ne_zero]
      simp [henv₃, hchild₂.id]
    · rcases h₃.boot.inv.pageLookup_space hsrc
          (show USTACKTOP - 0x1000 < UTOP by decide) with
        ⟨hnone, -⟩ | ⟨p, f, t, j, -, hlook, -⟩
      · exact absurd hnone h₃.stack
      · exact ⟨src, p, t, j, hpg, hlook, fun hc ↦ hW hc.2⟩
    · rw [henv₃]
      show (0 : Word) < UTOP
      decide
    · rw [henv₃]
      exact (Kern.live_of_dirs hd₂).2
    · rw [Room, henv₃, hmem₃, not_or, not_not, not_not]
      exact ⟨htab₂ (pdx 0) (by decide), h₂.boot.inv.own.ledger.chain.head_eq⟩
  refine ⟨k₀, k₃, a, child, perm, _, _, hboot, hrun, h₃.live, hleft.run, by decide, fun hc ↦ ?_⟩
  have hperm' := congrArg (fun k : Kern ↦ (k.envs (envx child)).envIpcPerm) hc
  rw [Kern.envs_modEnv_self] at hperm'
  exact hne hperm'.symm

end Jos
