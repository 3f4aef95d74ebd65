import Jos.User.Primes

/-!
# What the primes are

What an environment of the chain has passed on is what its right neighbour has heard, and the
message that waits there.  So each link of the chain is a queue of length one that loses nothing,
and the environments are the stages of the sieve.
-/

namespace Jos

open Jos.Lib

variable {B : Machine} {k k' : Kern} {entry i id child : Word} {cur e g s : Slot} {f f' : ForkPc}
  {x x' : PrimesSys} {p p' : Primes} {env env' : Env}

/-! ## What matters in an environment -/

/-- The entries agree in what messages and ids depend on, up to who runs. -/
structure Env.SameBox (env env' : Env) : Prop where
  envId : env'.envId = env.envId
  envParentId : env'.envParentId = env.envParentId
  envLink : env'.envLink = env.envLink
  envIpcRecving : env'.envIpcRecving = env.envIpcRecving
  envIpcValue : env'.envIpcValue = env.envIpcValue
  eax : env'.envTf.regs.eax = env.envTf.regs.eax
  envStatus : env'.envStatus = env.envStatus ∨ env.Awake ∧ env'.Awake

namespace Env.SameBox

theorem refl (env : Env) : env.SameBox env := ⟨rfl, rfl, rfl, rfl, rfl, rfl, .inl rfl⟩

theorem awake (h : env.SameBox env') (ha : env.Awake) : env'.Awake := by
  rcases h.envStatus with hst | ⟨-, ha'⟩
  · rwa [Awake, hst]
  · exact ha'

/-- Who sleeps goes on to sleep. -/
theorem asleep (h : env.SameBox env') {st : EnvStatus} (hst : env.envStatus = st)
    (hne : st ≠ .running ∧ st ≠ .runnable) : env'.envStatus = st := by
  rcases h.envStatus with heq | ⟨ha, -⟩
  · rw [heq, hst]
  · rw [Awake, hst] at ha
    exact absurd ha (not_or.mpr hne)

end Env.SameBox

theorem Env.Awake.ne_free (h : env.Awake) : env.envStatus ≠ .free := by
  rcases h with h | h <;> rw [h] <;> decide

/-- A child that is being made stays as it is. -/
theorem Child.sameBox (h : Child k cur child) (hid : (k'.envs cur).envId = (k.envs cur).envId)
    (hchild : (k.envs (envx child)).SameBox (k'.envs (envx child))) : Child k' cur child :=
  ⟨h.ne, h.ne_zero, hchild.asleep h.status (by decide), hchild.envId.trans h.id,
    hchild.envParentId.trans (h.parent.trans hid.symm), hchild.envIpcRecving.trans h.recving⟩

/-! ## Steps of `fork` -/

namespace ForkPc

/-- The child that is not complete. -/
def making : ForkPc → Option Word
  | .loop child _ => some child
  | .remap child _ => some child
  | .stack child => some child
  | .upcall child => some child
  | .status child => some child
  | _ => none

end ForkPc

/-- A step of `fork` allocates an environment, or starts it, or leaves all environments alone. -/
inductive ForkEffect (k : Kern) (cur : Slot) : ForkPc → ForkPc → Kern → Prop
  | alloc {child : Word} {ch : Slot} {m : Mem} {d : ℕ} {tf : Trapframe}
      (head : k.envFreeList = some ch) (id : child = nextEnvId (k.envs ch).envId ch) :
      ForkEffect k cur .exofork (.loop child 0) (k.forked ch cur m d tf)
  | start {child : Word} {e : Slot} (found : envid2env k cur child true = some e) :
      ForkEffect k cur (.status child) (.done child)
        (k.modEnv e fun env ↦ { env with envStatus := .runnable })
  | other {f f' : ForkPc} {k' : Kern} (making : f'.making = f.making)
      (done : ∀ child, f' ≠ .done child) (list : k'.envFreeList = k.envFreeList)
      (envs : ∀ s, (k.envs s).SameBox (k'.envs s))
      (status : ∀ s, (k'.envs s).envStatus = (k.envs s).envStatus) : ForkEffect k cur f f' k'

theorem ForkEffect.setMem (m : Mem) (making : f'.making = f.making)
    (done : ∀ child, f' ≠ .done child) : ForkEffect k cur f f' (k.setMem m) :=
  .other making done rfl (fun _ ↦ .refl _) fun _ ↦ rfl

theorem ForkEffect.upcall (e : Slot) (func : Word) (making : f'.making = f.making)
    (done : ∀ child, f' ≠ .done child) :
    ForkEffect k cur f f' (k.modEnv e fun env ↦ { env with envPgfaultUpcall := func }) := by
  have hkeep : ∀ s, (k.envs s).SameBox ((k.modEnv e fun env ↦
      { env with envPgfaultUpcall := func }).envs s) ∧
      ((k.modEnv e fun env ↦ { env with envPgfaultUpcall := func }).envs s).envStatus =
        (k.envs s).envStatus := by
    intro s
    by_cases hs : s = e
    · subst hs
      rw [Kern.envs_modEnv_self]
      exact ⟨⟨rfl, rfl, rfl, rfl, rfl, rfl, .inl rfl⟩, rfl⟩
    · rw [Kern.envs_modEnv_of_ne _ _ hs]
      exact ⟨.refl _, rfl⟩
  exact .other making done rfl (fun s ↦ (hkeep s).1) fun s ↦ (hkeep s).2

/-- `fork` looks at the result of each call. -/
theorem ite_panic {c : Prop} [Decidable c] {f : ForkPc}
    (h : (if c then ForkPc.panic else f) ≠ .panic) : (if c then ForkPc.panic else f) = f :=
  if_neg fun hc ↦ h (if_pos hc)

theorem forkStep_effect (h : forkStep B entry cur k f = some (f', k')) (hok : f' ≠ .panic) :
    ForkEffect k cur f f' k' := by
  cases f with
  | handlerStack =>
      simp only [forkStep, Option.bind_eq_bind, Option.bind_eq_some_iff, Prod.exists,
        Option.pure_def, Option.some.injEq, Prod.mk.injEq] at h
      obtain ⟨r, k₁, hcall, rfl, rfl⟩ := h
      obtain ⟨m, rfl⟩ := setMem_of_sysPageAlloc hcall
      rw [ite_panic hok]
      exact .setMem m rfl (by simp)
  | handlerUpcall =>
      simp only [forkStep, sysEnvSetPgfaultUpcall, envid2env, if_true, Option.some.injEq,
        Prod.mk.injEq] at h
      obtain ⟨rfl, rfl⟩ := h
      rw [ite_panic hok]
      exact .upcall cur entry rfl (by simp)
  | exofork =>
      simp only [forkStep, Option.bind_eq_bind, Option.bind_eq_some_iff, Prod.exists,
        Option.pure_def, Option.some.injEq, Prod.mk.injEq] at h
      obtain ⟨r, k₁, hcall, rfl, rfl⟩ := h
      rcases sysExofork_eq hcall with ⟨m, -, hneg⟩ | ⟨ch, m, d, tf, head, rfl, -, rfl⟩
      · exact absurd (if_pos hneg) hok
      · rw [ite_panic hok]
        exact .alloc head rfl
  | loop child v =>
      simp only [forkStep] at h
      split at h
      · simp only [Option.bind_eq_bind, Option.bind_eq_some_iff] at h
        obtain ⟨d, -, h⟩ := h
        split at h
        · simp only [Option.bind_eq_some_iff, Prod.exists] at h
          obtain ⟨r, k₁, hcall, h⟩ := h
          obtain ⟨m, rfl⟩ := setMem_of_sysPageMap hcall
          split at h
          · obtain ⟨rfl, rfl⟩ := Prod.mk.inj (Option.some.inj h)
            exact .setMem m rfl (by simp)
          · obtain ⟨rfl, rfl⟩ := Prod.mk.inj (Option.some.inj h)
            exact .setMem m rfl (by simp)
        · obtain ⟨rfl, rfl⟩ := Prod.mk.inj (Option.some.inj h)
          exact .setMem k.mem rfl (by simp)
      · obtain ⟨rfl, rfl⟩ := Prod.mk.inj (Option.some.inj h)
        exact .setMem k.mem rfl (by simp)
  | remap child v =>
      simp only [forkStep, Option.bind_eq_bind, Option.bind_eq_some_iff, Prod.exists,
        Option.pure_def, Option.some.injEq, Prod.mk.injEq] at h
      obtain ⟨r, k₁, hcall, rfl, rfl⟩ := h
      obtain ⟨m, rfl⟩ := setMem_of_sysPageMap hcall
      exact .setMem m rfl (by simp)
  | stack child =>
      simp only [forkStep, Option.bind_eq_bind, Option.bind_eq_some_iff, Prod.exists,
        Option.pure_def, Option.some.injEq, Prod.mk.injEq] at h
      obtain ⟨r, k₁, hcall, rfl, rfl⟩ := h
      obtain ⟨m, rfl⟩ := setMem_of_sysPageAlloc hcall
      rw [ite_panic hok]
      exact .setMem m rfl (by simp)
  | upcall child =>
      obtain ⟨rfl, rfl⟩ := Prod.mk.inj (Option.some.inj h)
      rw [ite_panic hok]
      cases he : envid2env k cur child true with
      | none =>
          simp only [he] at hok
          exact absurd (if_pos (by decide)) hok
      | some e =>
          exact .upcall e _ rfl (by simp)
  | status child =>
      obtain ⟨rfl, rfl⟩ := Prod.mk.inj (Option.some.inj h)
      rw [ite_panic hok]
      cases he : envid2env k cur child true with
      | none =>
          simp only [he] at hok
          exact absurd (if_pos (by decide)) hok
      | some e =>
          exact .start he
  | done child => cases h
  | panic => cases h

/-! ## A round of `ipc_send` -/

/-- What the receiver is after a message without a page. -/
def Env.delivered (env : Env) (fromEnv value : Word) : Env :=
  { env with
    envIpcPerm := 0, envIpcRecving := false, envIpcFrom := fromEnv, envIpcValue := value
    envTf := { env.envTf with regs := { env.envTf.regs with eax := 0 } }, envStatus := .runnable }

/-- To an environment that exists, `ipc_send` does not panic. -/
theorem ipcSend_cases (hfound : envid2env k cur id false = some e) (v : Word) :
    ((k.envs e).envIpcRecving = false ∧ ipcSend B k cur id v 0 0 = some (.retry, k)) ∨
    ((k.envs e).envIpcRecving = true ∧ ∃ k', ipcSend B k cur id v 0 0 = some (.sent, k') ∧
      k'.envFreeList = k.envFreeList ∧ (∀ s, s ≠ e → k'.envs s = k.envs s) ∧
      ∃ fromEnv, k'.envs e = (k.envs e).delivered fromEnv v) := by
  have hpage : ¬ ipcPage 0 < UTOP := by decide
  cases hr : (k.envs e).envIpcRecving with
  | false =>
      refine .inl ⟨rfl, ?_⟩
      simp only [ipcSend, sysIpcTrySend, hfound, hr, Bool.false_eq_true, not_false_eq_true, if_true,
        Option.bind_eq_bind, Option.bind_some]
      rfl
  | true =>
      refine .inr ⟨rfl, ipcDeliver (k.modEnv e fun env ↦ { env with envIpcPerm := 0 }) cur e v, ?_,
        rfl, fun s hs ↦ ?_, ((k.modEnv e fun env ↦ { env with envIpcPerm := 0 }).envs cur).envId,
        ?_⟩
      · simp only [ipcSend, sysIpcTrySend, hfound, hr, not_true_eq_false, if_false, if_neg hpage,
          Option.bind_eq_bind, Option.bind_some]
        rfl
      · rw [ipcDeliver, Kern.envs_modEnv_of_ne _ _ hs, Kern.envs_modEnv_of_ne _ _ hs]
      · rw [ipcDeliver, Kern.envs_modEnv_self, Kern.envs_modEnv_self]
        rfl

/-! ## The invariant -/

namespace PrimesPc

/-- In `sys_ipc_recv`. -/
def Waits : PrimesPc → Prop
  | .first => True
  | .next _ _ => True
  | _ => False

instance (pc : PrimesPc) : Decidable pc.Waits := by cases pc <;> unfold Waits <;> infer_instance

/-- In `umain`. -/
def IsMain : PrimesPc → Prop
  | .mainFork _ => True
  | .feed _ _ => True
  | .feedYield _ _ => True
  | _ => False

/-- The child that is not complete. -/
def making : PrimesPc → Option Word
  | .mainFork f => f.making
  | .primeFork _ f => f.making
  | _ => none

/-- The child, when it is complete. -/
def right : PrimesPc → Option Word
  | .mainFork (.done id) => some id
  | .primeFork _ (.done id) => some id
  | .feed id _ => some id
  | .feedYield id _ => some id
  | .loop _ id => some id
  | .next _ id => some id
  | .test _ id _ => some id
  | .send _ id _ => some id
  | .sendYield _ id _ => some id
  | _ => none

end PrimesPc

/-- A number of the sieve. -/
def Small (i : Word) : Prop := 2 ≤ i.toNat ∧ i.toNat < 2 ^ 31

/-- What `p` lets through. -/
def passes (p : Word) (l : List Word) : List Word := l.filter fun i ↦ ¬ p.toNat ∣ i.toNat

namespace Primes

/-- The message that waits to be read. -/
def pending (env : Env) (x : Primes) : List Word :=
  if x.pc.Waits ∧ env.envIpcRecving = false then [env.envIpcValue] else []

/-- `p` was heard first, and printed; then `t`, and what of it `p` lets through was sent. -/
structure Filters (x : Primes) (p : Word) (t held : List Word) : Prop where
  heard : x.heard = p :: (t ++ held)
  printed : ∃ n, x.printed = [(n, p)]
  sent : x.sent = passes p t

/-- What has happened before. -/
def Log (x : Primes) : Prop :=
  match x.pc with
  | .mainFork _ => x.heard = [] ∧ x.sent = []
  | .feed _ i => x.heard = [] ∧ Small i ∧ x.sent.map BitVec.toNat = List.range' 2 (i.toNat - 2)
  | .feedYield _ i => x.heard = [] ∧ Small i ∧ x.sent.map BitVec.toNat = List.range' 2 (i.toNat - 2)
  | .born => x.heard = [] ∧ x.printed = [] ∧ x.sent = []
  | .top => x.heard = [] ∧ x.printed = [] ∧ x.sent = []
  | .first => x.heard = [] ∧ x.printed = [] ∧ x.sent = []
  | .print p => x.heard = [p] ∧ x.printed = [] ∧ x.sent = []
  | .primeFork p _ => x.Filters p [] []
  | .loop p _ => ∃ t, x.Filters p t []
  | .next p _ => ∃ t, x.Filters p t []
  | .test p _ i => ∃ t, x.Filters p t [i]
  | .send p _ i => ¬ p.toNat ∣ i.toNat ∧ ∃ t, x.Filters p t [i]
  | .sendYield p _ i => ¬ p.toNat ∣ i.toNat ∧ ∃ t, x.Filters p t [i]
  | .panic => False

/-- What is known of one environment. -/
structure Node (env : Env) (e : Slot) (x : Primes) : Prop where
  id : envx env.envId = e
  id_ne : env.envId ≠ 0
  thisenv : x.pc = .born ∨ x.thisenv = e
  idle : ¬ x.pc.Waits → env.Awake ∧ env.envIpcRecving = false
  waits : x.pc.Waits → env.envStatus = .notRunnable ∧ env.envIpcRecving = true ∨
    env.Awake ∧ env.envIpcRecving = false ∧ env.envTf.regs.eax = 0
  small : ∀ i ∈ x.heard ++ x.pending env, Small i
  log : x.Log

/-- What is known of an environment and its right neighbour, whose id is `id`. -/
structure Linked (env env' : Env) (x : Primes) (id : Word) (x' : Primes) : Prop where
  id : env'.envId = id
  parent : env'.envParentId = env.envId
  flow : x.sent = x'.heard ++ x'.pending env'

variable (h : env.SameBox env')

include h

theorem pending_sameBox (x : Primes) : x.pending env' = x.pending env := by
  simp only [pending, h.envIpcRecving, h.envIpcValue]

theorem Node.sameBox (hx : Node env e p) : Node env' e p where
  id := h.envId ▸ hx.id
  id_ne := h.envId ▸ hx.id_ne
  thisenv := hx.thisenv
  idle hw := ⟨h.awake (hx.idle hw).1, h.envIpcRecving.trans (hx.idle hw).2⟩
  waits hw := by
    rcases hx.waits hw with ⟨hst, hr⟩ | ⟨ha, hr, heax⟩
    · exact .inl ⟨h.asleep hst (by decide), h.envIpcRecving.trans hr⟩
    · exact .inr ⟨h.awake ha, h.envIpcRecving.trans hr, h.eax.trans heax⟩
  small := by
    rw [pending_sameBox h]
    exact hx.small
  log := hx.log

end Primes

open Primes

/-- The environments are a chain that starts with `g`. -/
structure SieveInv (x : PrimesSys) (g : Slot) : Prop where
  free : ∃ el, Chain (fun e ↦ (x.kern.envs e).envLink) x.kern.envFreeList el ∧
    ∀ e ∈ el, (x.kern.envs e).envStatus = .free
  node : ∀ e p, x.procs e = some p → Node (x.kern.envs e) e p
  right : ∀ e p id, x.procs e = some p → p.pc.right = some id →
    ∃ p', x.procs (envx id) = some p' ∧ Linked (x.kern.envs e) (x.kern.envs (envx id)) p id p'
  left : ∀ e p, x.procs e = some p → e ≠ g →
    ∃ e₀ p₀, x.procs e₀ = some p₀ ∧ p₀.pc.right = some (x.kern.envs e).envId
  making : ∀ e p child, x.procs e = some p → p.pc.making = some child →
    Child x.kern e child ∧ x.procs (envx child) = none
  main : ∀ e p, x.procs e = some p → (p.pc.IsMain ↔ e = g)
  root : (x.kern.envs g).envParentId = 0 ∧ x.procs g ≠ none

theorem Primes.Node.ne_free (h : Node env e p) : env.envStatus ≠ .free := by
  by_cases hw : p.pc.Waits
  · rcases h.waits hw with ⟨hst, -⟩ | ⟨ha, -⟩
    · rw [hst]
      decide
    · exact ha.ne_free
  · exact (h.idle hw).1.ne_free

/-- Only one environment has `e` as its right neighbour. -/
theorem SieveInv.left_unique (h : SieveInv x g) {e₁ e₂ : Slot} {p₁ p₂ : Primes}
    (h₁ : x.procs e₁ = some p₁) (h₂ : x.procs e₂ = some p₂) {id₁ id₂ : Word}
    (hr₁ : p₁.pc.right = some id₁) (hr₂ : p₂.pc.right = some id₂) (hid : envx id₁ = envx id₂) :
    e₁ = e₂ := by
  obtain ⟨q₁, -, hl₁⟩ := h.right _ _ _ h₁ hr₁
  obtain ⟨q₂, -, hl₂⟩ := h.right _ _ _ h₂ hr₂
  rw [hid] at hl₁
  rw [← (h.node _ _ h₁).id, ← (h.node _ _ h₂).id, ← hl₁.parent, hl₂.parent]

/-- The list of free environments matters only up to what is on it. -/
theorem SieveInv.free_of (h : SieveInv x g) (list : k'.envFreeList = x.kern.envFreeList)
    (envs : ∀ s, (x.kern.envs s).envStatus = .free → (x.kern.envs s).SameBox (k'.envs s)) :
    ∃ el, Chain (fun e ↦ (k'.envs e).envLink) k'.envFreeList el ∧
      ∀ e ∈ el, (k'.envs e).envStatus = .free := by
  obtain ⟨el, hchain, hel⟩ := h.free
  refine ⟨el, ?_, fun s hs ↦ (envs s (hel s hs)).asleep (hel s hs) (by decide)⟩
  rw [list]
  exact hchain.congr fun s hs ↦ (envs s (hel s hs)).envLink

/-- No environment comes, and all keep their ids and their neighbours. -/
theorem SieveInv.update (h : SieveInv x g) (list : x'.kern.envFreeList = x.kern.envFreeList)
    (ids : ∀ s, (x'.kern.envs s).envId = (x.kern.envs s).envId)
    (parents : ∀ s, (x'.kern.envs s).envParentId = (x.kern.envs s).envParentId)
    (outside : ∀ s, x.procs s = none → (x.kern.envs s).SameBox (x'.kern.envs s))
    (same : ∀ s p, x.procs s = some p → ∃ p', x'.procs s = some p' ∧ p'.pc.right = p.pc.right ∧
      (∀ child, p'.pc.making = some child → p.pc.making = some child ∨
        Child x'.kern s child ∧ x.procs (envx child) = none) ∧ (p'.pc.IsMain ↔ p.pc.IsMain))
    (none : ∀ s, x.procs s = none → x'.procs s = none)
    (node : ∀ s p', x'.procs s = some p' → Node (x'.kern.envs s) s p')
    (flow : ∀ s p' id q', x'.procs s = some p' → p'.pc.right = some id →
      x'.procs (envx id) = some q' → p'.sent = q'.heard ++ q'.pending (x'.kern.envs (envx id))) :
    SieveInv x' g := by
  have hold : ∀ s p', x'.procs s = some p' → ∃ p, x.procs s = some p ∧ p'.pc.right = p.pc.right ∧
      (∀ child, p'.pc.making = some child → p.pc.making = some child ∨
        Child x'.kern s child ∧ x.procs (envx child) = Option.none) ∧
      (p'.pc.IsMain ↔ p.pc.IsMain) := by
    intro s p' hp'
    cases hp : x.procs s with
    | none => exact nomatch hp'.symm.trans (none s hp)
    | some p =>
        obtain ⟨q, hq, hsame⟩ := same s p hp
        obtain rfl := Option.some.inj (hp'.symm.trans hq)
        exact ⟨p, rfl, hsame⟩
  refine ⟨h.free_of list fun s hs ↦ outside s ?_, node, fun s p' id hp' hr ↦ ?_,
    fun s p' hp' hg ↦ ?_, fun s p' child hp' hm ↦ ?_, fun s p' hp' ↦ ?_, ?_⟩
  · -- no environment of the chain is free
    cases hp : x.procs s with
    | none => rfl
    | some p => exact absurd hs (h.node s p hp).ne_free
  · obtain ⟨p, hp, hright, -⟩ := hold s p' hp'
    obtain ⟨q, hq, hl⟩ := h.right s p id hp (hright ▸ hr)
    obtain ⟨q', hq', -⟩ := same _ q hq
    refine ⟨q', hq', (ids _).trans hl.id, ?_, flow s p' id q' hp' hr hq'⟩
    rw [parents, ids]
    exact hl.parent
  · obtain ⟨p, hp, -⟩ := hold s p' hp'
    obtain ⟨e₀, p₀, hp₀, hr₀⟩ := h.left s p hp hg
    obtain ⟨p₀', hp₀', hright, -⟩ := same e₀ p₀ hp₀
    exact ⟨e₀, p₀', hp₀', by rw [hright, ids, hr₀]⟩
  · obtain ⟨p, hp, -, hmaking, -⟩ := hold s p' hp'
    rcases hmaking child hm with hm | ⟨hchild, hnone⟩
    swap
    · exact ⟨hchild, none _ hnone⟩
    obtain ⟨hchild, hnone⟩ := h.making s p child hp hm
    exact ⟨hchild.sameBox (ids s) (outside _ hnone), none _ hnone⟩
  · obtain ⟨p, hp, -, -, hmain⟩ := hold s p' hp'
    exact hmain.trans (h.main s p hp)
  · obtain ⟨p, hp⟩ := Option.ne_none_iff_exists'.mp h.root.2
    obtain ⟨p', hp', -⟩ := same g p hp
    exact ⟨(parents g).trans h.root.1, hp' ▸ nofun⟩

theorem PrimesSys.procs_update {procs : Slot → Option Primes} {q : Primes}
    (hq : Function.update procs e (some p') s = some q) : s = e ∧ q = p' ∨ s ≠ e ∧ procs s =
      some q := by
  by_cases hs : s = e
  · subst hs
    rw [Function.update_self] at hq
    exact .inl ⟨rfl, (Option.some.inj hq).symm⟩
  · rw [Function.update_of_ne hs] at hq
    exact .inr ⟨hs, hq⟩

/-- Environment `e` makes a step, and keeps its neighbours. -/
theorem SieveInv.update_one (h : SieveInv x g) (hp : x.procs e = some p)
    (list : k'.envFreeList = x.kern.envFreeList)
    (ids : ∀ s, (k'.envs s).envId = (x.kern.envs s).envId)
    (parents : ∀ s, (k'.envs s).envParentId = (x.kern.envs s).envParentId)
    (outside : ∀ s, x.procs s = none → (x.kern.envs s).SameBox (k'.envs s))
    (right : p'.pc.right = p.pc.right)
    (making : ∀ child, p'.pc.making = some child → p.pc.making = some child ∨
      Child k' e child ∧ x.procs (envx child) = none)
    (main : p'.pc.IsMain ↔ p.pc.IsMain) (node : Node (k'.envs e) e p')
    (nodes : ∀ s q, s ≠ e → x.procs s = some q → Node (k'.envs s) s q)
    (flow : ∀ s q id r, Function.update x.procs e (some p') s = some q → q.pc.right = some id →
      Function.update x.procs e (some p') (envx id) = some r →
      q.sent = r.heard ++ r.pending (k'.envs (envx id))) :
    SieveInv ⟨k', Function.update x.procs e (some p')⟩ g := by
  refine h.update list ids parents outside (fun s q hq ↦ ?_) (fun s hs ↦ ?_) (fun s q hq ↦ ?_) flow
  · by_cases hs : s = e
    · subst hs
      obtain rfl := Option.some.inj (hp.symm.trans hq)
      exact ⟨p', Function.update_self .., right, making, main⟩
    · exact ⟨q, (Function.update_of_ne hs ..).trans hq, rfl, fun _ hc ↦ .inl hc, Iff.rfl⟩
  · have hne : s ≠ e := by
      rintro rfl
      exact nomatch hp.symm.trans hs
    exact (Function.update_of_ne hne ..).trans hs
  · rcases PrimesSys.procs_update hq with ⟨rfl, rfl⟩ | ⟨hs, hq⟩
    · exact node
    · exact nodes s q hs hq

/-- An environment goes on with its own work. -/
theorem SieveInv.own (h : SieveInv x g) (hp : x.procs e = some p)
    (list : k'.envFreeList = x.kern.envFreeList)
    (others : ∀ s, s ≠ e → (x.kern.envs s).SameBox (k'.envs s))
    (id : (k'.envs e).envId = (x.kern.envs e).envId)
    (parent : (k'.envs e).envParentId = (x.kern.envs e).envParentId)
    (right : p'.pc.right = p.pc.right)
    (making : ∀ child, p'.pc.making = some child → p.pc.making = some child ∨
      Child k' e child ∧ x.procs (envx child) = none)
    (main : p'.pc.IsMain ↔ p.pc.IsMain) (node : Node (k'.envs e) e p') (sent : p'.sent = p.sent)
    (box : p'.heard ++ p'.pending (k'.envs e) = p.heard ++ p.pending (x.kern.envs e)) :
    SieveInv ⟨k', Function.update x.procs e (some p')⟩ g := by
  have hne : ∀ s, x.procs s = none → s ≠ e := by
    rintro s hs rfl
    exact nomatch hp.symm.trans hs
  have hall : ∀ s, (k'.envs s).envId = (x.kern.envs s).envId ∧
      (k'.envs s).envParentId = (x.kern.envs s).envParentId := by
    intro s
    by_cases hs : s = e
    · subst hs
      exact ⟨id, parent⟩
    · exact ⟨(others s hs).envId, (others s hs).envParentId⟩
  refine h.update_one hp list (fun s ↦ (hall s).1) (fun s ↦ (hall s).2)
    (fun s hs ↦ others s (hne s hs)) right making main node
    (fun s q hs hq ↦ (h.node s q hq).sameBox (others s hs)) fun s q id r hq hr hr' ↦ ?_
  -- what the step changes is neither what was sent, nor what has arrived
  obtain ⟨q₀, hq₀, hright, hsent⟩ : ∃ q₀, x.procs s = some q₀ ∧ q₀.pc.right = some id ∧
      q.sent = q₀.sent := by
    rcases PrimesSys.procs_update hq with ⟨rfl, rfl⟩ | ⟨-, hq⟩
    · exact ⟨p, hp, right ▸ hr, sent⟩
    · exact ⟨q, hq, hr, rfl⟩
  obtain ⟨r₀, hr₀, hl⟩ := h.right s q₀ id hq₀ hright
  rw [hsent, hl.flow]
  rcases PrimesSys.procs_update hr' with ⟨he, rfl⟩ | ⟨hs, hr'⟩
  · rw [he] at hr₀ ⊢
    obtain rfl := Option.some.inj (hp.symm.trans hr₀)
    exact box.symm
  · obtain rfl := Option.some.inj (hr'.symm.trans hr₀)
    rw [pending_sameBox (others _ hs)]

/-- The kernel does something that concerns no environment. -/
theorem SieveInv.frame (h : SieveInv x g) (list : k'.envFreeList = x.kern.envFreeList)
    (envs : ∀ s, (x.kern.envs s).SameBox (k'.envs s)) : SieveInv ⟨k', x.procs⟩ g := by
  refine h.update list (fun s ↦ (envs s).envId) (fun s ↦ (envs s).envParentId) (fun s _ ↦ envs s)
    (fun s q hq ↦ ⟨q, hq, rfl, fun _ hc ↦ .inl hc, Iff.rfl⟩) (fun s hs ↦ hs)
    (fun s q hq ↦ (h.node s q hq).sameBox (envs s)) fun s q id r hq hr hr' ↦ ?_
  obtain ⟨r₀, hr₀, hl⟩ := h.right s q id hq hr
  obtain rfl := Option.some.inj (hr'.symm.trans hr₀)
  rw [hl.flow, pending_sameBox (envs _)]

/-- A message is delivered to the right neighbour. -/
theorem SieveInv.deliver (h : SieveInv x g) (hp : x.procs e = some p) {v fromEnv : Word}
    (hright : p.pc.right = some id) (hw : ¬ p.pc.Waits)
    (recving : (x.kern.envs (envx id)).envIpcRecving = true) (small : Small v)
    (list : k'.envFreeList = x.kern.envFreeList)
    (others : ∀ s, s ≠ envx id → k'.envs s = x.kern.envs s)
    (env : k'.envs (envx id) = (x.kern.envs (envx id)).delivered fromEnv v)
    (right : p'.pc.right = p.pc.right) (making : p'.pc.making = none)
    (main : p'.pc.IsMain ↔ p.pc.IsMain) (node : Node (x.kern.envs e) e p')
    (sent : p'.sent = p.sent ++ [v]) (hw' : ¬ p'.pc.Waits) (heard : p'.heard = p.heard) :
    SieveInv ⟨k', Function.update x.procs e (some p')⟩ g := by
  obtain ⟨q, hq, hl⟩ := h.right e p id hp hright
  have hne : envx id ≠ e := by
    intro hc
    have hidle := ((h.node e p hp).idle hw).2
    rw [← hc, recving] at hidle
    cases hidle
  have hqw : q.pc.Waits := by
    by_contra hc
    have hidle := ((h.node _ q hq).idle hc).2
    rw [recving] at hidle
    cases hidle
  have hqnode := h.node _ q hq
  have hpending : q.pending (x.kern.envs (envx id)) = [] := by simp [pending, recving]
  have hpending' : q.pending (k'.envs (envx id)) = [v] := by
    simp [pending, hqw, env, Env.delivered]
  have hall : ∀ s, (k'.envs s).envId = (x.kern.envs s).envId ∧
      (k'.envs s).envParentId = (x.kern.envs s).envParentId := by
    intro s
    by_cases hs : s = envx id
    · subst hs
      rw [env]
      exact ⟨rfl, rfl⟩
    · rw [others s hs]
      exact ⟨rfl, rfl⟩
  have hnone : ∀ s, x.procs s = none → s ≠ envx id := by
    rintro s hs rfl
    exact nomatch hq.symm.trans hs
  refine h.update_one hp list (fun s ↦ (hall s).1) (fun s ↦ (hall s).2)
    (fun s hs ↦ others s (hnone s hs) ▸ .refl _) right (fun _ hc ↦ nomatch making.symm.trans hc)
    main (others e hne.symm ▸ node)
    (fun s r hs hr ↦ ?_) fun s r id' r' hr hid' hr' ↦ ?_
  · by_cases hs' : s = envx id
    · subst hs'
      obtain rfl := Option.some.inj (hq.symm.trans hr)
      refine ⟨(hall _).1 ▸ hqnode.id, (hall _).1 ▸ hqnode.id_ne, hqnode.thisenv,
        fun hc ↦ absurd hqw hc, fun _ ↦ .inr ?_, ?_, hqnode.log⟩
      · rw [env]
        exact ⟨.inr rfl, rfl, rfl⟩
      · rw [hpending']
        intro i hi
        rcases List.mem_append.mp hi with hi | hi
        · exact hqnode.small i (List.mem_append_left _ hi)
        · exact List.mem_singleton.mp hi ▸ small
    · rw [others s hs']
      exact h.node s r hr
  · rcases PrimesSys.procs_update hr with ⟨rfl, rfl⟩ | ⟨hs, hr⟩
    · -- the link on which the message goes
      obtain rfl := Option.some.inj (hright.symm.trans (right ▸ hid'))
      rw [Function.update_of_ne hne] at hr'
      obtain rfl := Option.some.inj (hq.symm.trans hr')
      rw [sent, hl.flow, hpending, hpending', List.append_nil]
    · have hne' : envx id' ≠ envx id := fun hc ↦ hs (h.left_unique hr hp hid' hright hc)
      obtain ⟨r₀, hr₀, hl'⟩ := h.right s r id' hr hid'
      rw [hl'.flow, others _ hne']
      rcases PrimesSys.procs_update hr' with ⟨he, rfl⟩ | ⟨-, hr'⟩
      · rw [he] at hr₀ ⊢
        obtain rfl := Option.some.inj (hp.symm.trans hr₀)
        rw [heard]
        simp [pending, hw, hw']
      · obtain rfl := Option.some.inj (hr'.symm.trans hr₀)
        rfl

/-- `sys_exofork` takes a free environment. -/
theorem SieveInv.alloc (h : SieveInv x g) (hp : x.procs e = some p) {ch : Slot} (m : Mem) (d : ℕ)
    (tf : Trapframe) (head : x.kern.envFreeList = some ch)
    (hid : child = nextEnvId (x.kern.envs ch).envId ch) :
    SieveInv ⟨x.kern.forked ch e m d tf, x.procs⟩ g ∧ x.procs (envx child) = none ∧
      Child (x.kern.forked ch e m d tf) e child := by
  have hslot : envx child = ch := hid ▸ envx_nextEnvId _ ch
  obtain ⟨el, hchain, hel⟩ := h.free
  rw [head] at hchain
  obtain ⟨t, rfl, ht⟩ := hchain.pop
  have hfree := hel ch List.mem_cons_self
  have hne : ∀ s, (x.kern.envs s).envStatus ≠ .free → s ≠ ch := by
    rintro s hs rfl
    exact hs hfree
  have hproc : ∀ s q, x.procs s = some q → s ≠ ch := fun s q hq ↦ hne s (h.node s q hq).ne_free
  have henv : ∀ s, s ≠ ch → (x.kern.forked ch e m d tf).envs s = x.kern.envs s := fun s hs ↦
    x.kern.forked_of_ne e m d tf hs
  have hnone : x.procs ch = none := by
    cases hc : x.procs ch with
    | none => rfl
    | some q => exact absurd rfl (hproc ch q hc)
  have hg : g ≠ ch := by
    rintro rfl
    exact h.root.2 hnone
  refine ⟨⟨⟨t, ?_, fun s hs ↦ ?_⟩, fun s q hq ↦ ?_, fun s q id hq hr ↦ ?_, fun s q hq hs ↦ ?_,
    fun s q child hq hm ↦ ?_, h.main, ?_, h.root.2⟩, hslot ▸ hnone,
    hid ▸ .of_exofork (h.node e p hp).ne_free hfree (x.kern.forked_self ch e m d tf) henv⟩
  · refine ht.congr fun s hs ↦ ?_
    rw [henv s]
    rintro rfl
    exact (List.nodup_cons.mp hchain.nodup).1 hs
  · rw [henv s]
    · exact hel s (List.mem_cons_of_mem _ hs)
    · rintro rfl
      exact (List.nodup_cons.mp hchain.nodup).1 hs
  · rw [henv s (hproc s q hq)]
    exact h.node s q hq
  · obtain ⟨r, hr', hl⟩ := h.right s q id hq hr
    rw [henv s (hproc s q hq), henv _ (hproc _ r hr')]
    exact ⟨r, hr', hl⟩
  · rw [henv s (hproc s q hq)]
    exact h.left s q hq hs
  · obtain ⟨hchild, hc⟩ := h.making s q child hq hm
    refine ⟨hchild.of_envs (henv _ (hne _ ?_)) (by rw [henv s (hproc s q hq)]), hc⟩
    rw [hchild.status]
    decide
  · rw [henv g hg]
    exact h.root.1

/-- The child of a complete `fork` starts. -/
theorem SieveInv.start (h : SieveInv x g) (hp : x.procs e = some p) {q : Primes}
    (making : p.pc.making = some child) (right : p.pc.right = none)
    (list : k'.envFreeList = x.kern.envFreeList)
    (others : ∀ s, s ≠ envx child → k'.envs s = x.kern.envs s)
    (env : k'.envs (envx child) = { x.kern.envs (envx child) with envStatus := .runnable })
    (right' : p'.pc.right = some child) (making' : p'.pc.making = none)
    (main : p'.pc.IsMain ↔ p.pc.IsMain) (node : Node (x.kern.envs e) e p') (sent : p'.sent = [])
    (heard : p'.heard = p.heard) (hw : ¬ p.pc.Waits) (hw' : ¬ p'.pc.Waits)
    (born : q.pc = .born) (log : q.Log) :
    SieveInv
      ⟨k', Function.update (Function.update x.procs e (some p')) (envx child) (some q)⟩ g := by
  obtain ⟨hchild, hnone⟩ := h.making e p child hp making
  have hproc : ∀ s r, x.procs s = some r → s ≠ envx child := by
    rintro s r hr rfl
    exact nomatch hr.symm.trans hnone
  have hne := hproc e p hp
  have hall : ∀ s, (k'.envs s).envId = (x.kern.envs s).envId ∧
      (k'.envs s).envParentId = (x.kern.envs s).envParentId := by
    intro s
    by_cases hs : s = envx child
    · subst hs
      rw [env]
      exact ⟨rfl, rfl⟩
    · rw [others s hs]
      exact ⟨rfl, rfl⟩
  obtain ⟨hheard, hprinted, hsent⟩ : q.heard = [] ∧ q.printed = [] ∧ q.sent = [] := by
    rw [Primes.Log, born] at log
    exact log
  have hqw : ¬ q.pc.Waits := by
    rw [born]
    exact id
  have hold : ∀ {s r},
      Function.update (Function.update x.procs e (some p')) (envx child) (some q) s =
      some r → s = envx child ∧ r = q ∨ s ≠ envx child ∧
      (s = e ∧ r = p' ∨ s ≠ e ∧ x.procs s = some r) := by
    intro s r hr
    rcases PrimesSys.procs_update hr with hs | ⟨hs, hr⟩
    · exact .inl hs
    · exact .inr ⟨hs, PrimesSys.procs_update hr⟩
  have hfirst : Function.update (Function.update x.procs e (some p')) (envx child) (some q) e =
      some p' := by
    rw [Function.update_of_ne hne, Function.update_self]
  have hthe : ∀ {s r}, s ≠ e → x.procs s = some r →
      Function.update (Function.update x.procs e (some p')) (envx child) (some q) s = some r := by
    intro s r hs hr
    rw [Function.update_of_ne (hproc s r hr), Function.update_of_ne hs, hr]
  refine ⟨h.free_of list fun s hs ↦ ?_, fun s r hr ↦ ?_, fun s r id hr hid ↦ ?_,
    fun s r hr hs ↦ ?_, fun s r c hr hm ↦ ?_, fun s r hr ↦ ?_, (hall g).2.trans h.root.1, ?_⟩
  · rw [others s]
    · exact .refl _
    · rintro rfl
      rw [hchild.status] at hs
      cases hs
  · rcases hold hr with ⟨rfl, rfl⟩ | ⟨hs, ⟨rfl, rfl⟩ | ⟨-, hr⟩⟩
    · refine ⟨by rw [(hall _).1, hchild.id], by rw [(hall _).1, hchild.id]; exact hchild.ne_zero,
        .inl born, fun _ ↦ ?_, fun hc ↦ absurd hc hqw, ?_, log⟩
      · rw [env]
        exact ⟨.inr rfl, hchild.recving⟩
      · simp [hheard, pending, hqw]
    · rw [others s hs]
      exact node
    · rw [others s hs]
      exact h.node s r hr
  · rcases hold hr with ⟨rfl, rfl⟩ | ⟨hs, ⟨rfl, rfl⟩ | ⟨hse, hr⟩⟩
    · rw [born] at hid
      cases hid
    · obtain rfl := Option.some.inj (right'.symm.trans hid)
      refine ⟨q, Function.update_self .., (hall _).1.trans hchild.id, ?_, ?_⟩
      · rw [(hall _).2, (hall _).1]
        exact hchild.parent
      · simp [sent, hheard, pending, hqw]
    · obtain ⟨r', hr', hl⟩ := h.right s r id hr hid
      have hflow : ∃ r'', Function.update (Function.update x.procs e (some p')) (envx child)
          (some q) (envx id) = some r'' ∧ r''.heard ++ r''.pending (k'.envs (envx id)) =
          r'.heard ++ r'.pending (x.kern.envs (envx id)) := by
        rw [others _ (hproc _ r' hr')]
        by_cases hid' : envx id = e
        · refine ⟨p', by rw [hid', hfirst], ?_⟩
          rw [hid', hp] at hr'
          obtain rfl := Option.some.inj hr'
          simp [heard, pending, hw, hw']
        · exact ⟨r', hthe hid' hr', rfl⟩
      obtain ⟨r'', hr'', hbox⟩ := hflow
      refine ⟨r'', hr'', (hall _).1.trans hl.id, ?_, hl.flow.trans hbox.symm⟩
      rw [(hall _).2, (hall _).1]
      exact hl.parent
  · rw [(hall s).1]
    rcases hold hr with ⟨rfl, rfl⟩ | ⟨-, ⟨rfl, rfl⟩ | ⟨hse, hr⟩⟩
    · exact ⟨e, p', hfirst, by rw [right', hchild.id]⟩
    · obtain ⟨e₀, p₀, hp₀, hr₀⟩ := h.left s p hp hs
      have he₀ : e₀ ≠ s := by
        rintro rfl
        obtain rfl := Option.some.inj (hp.symm.trans hp₀)
        exact nomatch right.symm.trans hr₀
      exact ⟨e₀, p₀, hthe he₀ hp₀, hr₀⟩
    · obtain ⟨e₀, p₀, hp₀, hr₀⟩ := h.left s r hr hs
      have he₀ : e₀ ≠ e := by
        rintro rfl
        obtain rfl := Option.some.inj (hp.symm.trans hp₀)
        exact nomatch right.symm.trans hr₀
      exact ⟨e₀, p₀, hthe he₀ hp₀, hr₀⟩
  · rcases hold hr with ⟨rfl, rfl⟩ | ⟨-, ⟨rfl, rfl⟩ | ⟨hse, hr⟩⟩
    · rw [born] at hm
      cases hm
    · exact nomatch making'.symm.trans hm
    · obtain ⟨hc, hcnone⟩ := h.making s r c hr hm
      -- another parent makes another child
      have hcne : envx c ≠ envx child := by
        intro heq
        have hpar := hc.parent
        rw [heq, hchild.parent] at hpar
        exact hse ((h.node s r hr).id.symm.trans ((congrArg envx hpar.symm).trans
          (h.node e p hp).id))
      have hce : envx c ≠ e := by
        intro heq
        rw [heq, hp] at hcnone
        cases hcnone
      refine ⟨hc.of_envs (others _ hcne) (hall s).1, ?_⟩
      exact (Function.update_of_ne hcne ..).trans ((Function.update_of_ne hce ..).trans hcnone)
  · rcases hold hr with ⟨rfl, rfl⟩ | ⟨-, ⟨rfl, rfl⟩ | ⟨-, hr⟩⟩
    · rw [born]
      refine ⟨False.elim, ?_⟩
      rintro rfl
      exact absurd hnone h.root.2
    · exact main.trans (h.main s p hp)
    · exact h.main s r hr
  · obtain ⟨r, hr⟩ := Option.ne_none_iff_exists'.mp h.root.2
    by_cases hge : g = e
    · subst hge
      exact fun hc ↦ nomatch hfirst.symm.trans hc
    · exact fun hc ↦ nomatch (hthe hge hr).symm.trans hc

/-! ## Steps -/

theorem PrimesSys.after_of_none (h : p'.pc.forked = none) :
    x.after e p' k' = ⟨k', Function.update x.procs e (some p')⟩ := by
  simp only [PrimesSys.after, h]

theorem PrimesSys.after_of_some (h : p'.pc.forked = some child) : x.after e p' k' =
    ⟨k', Function.update (Function.update x.procs e (some p')) (envx child) (some p'.image)⟩ := by
  simp only [PrimesSys.after, h]

/-- A program counter in `fork`. -/
structure ForkIn (F : ForkPc → PrimesPc) : Prop where
  making : ∀ f, (F f).making = f.making
  pending : ∀ f, (∀ child, f ≠ .done child) → (F f).right = none ∧ (F f).forked = none
  done : ∀ child, (F (.done child)).right = some child ∧ (F (.done child)).forked = some child
  waits : ∀ f, ¬ (F f).Waits
  main : ∀ f f', (F f').IsMain ↔ (F f).IsMain
  born : ∀ f, F f ≠ .born
  log : ∀ {x : Primes} {f}, x.pc = F f → x.Log → x.sent = [] ∧ ∀ f', Log { x with pc := F f' }

theorem forkIn_mainFork : ForkIn .mainFork where
  making _ := rfl
  pending f hf := by
    cases f with
    | done child => exact absurd rfl (hf child)
    | _ => exact ⟨rfl, rfl⟩
  done _ := ⟨rfl, rfl⟩
  waits _ := id
  main _ _ := Iff.rfl
  born _ := nofun
  log hpc hlog := by
    rw [Log, hpc] at hlog
    exact ⟨hlog.2, fun _ ↦ hlog⟩

theorem forkIn_primeFork (i : Word) : ForkIn (.primeFork i) where
  making _ := rfl
  pending f hf := by
    cases f with
    | done child => exact absurd rfl (hf child)
    | _ => exact ⟨rfl, rfl⟩
  done _ := ⟨rfl, rfl⟩
  waits _ := id
  main _ _ := Iff.rfl
  born _ := nofun
  log hpc hlog := by
    rw [Log, hpc] at hlog
    exact ⟨hlog.sent, fun _ ↦ ⟨hlog.heard, hlog.printed, hlog.sent⟩⟩

/-- A step that reads and writes nothing of the kernel. -/
theorem Primes.Node.goto (h : Node env e p) {pc : PrimesPc} (hw : ¬ p.pc.Waits) (hw' : ¬ pc.Waits)
    (hborn : p.pc ≠ .born) (hlog : Log { p with pc := pc }) : Node env e { p with pc := pc } where
  id := h.id
  id_ne := h.id_ne
  thisenv := .inr (h.thisenv.resolve_left hborn)
  idle _ := h.idle hw
  waits hc := absurd hc hw'
  small := by
    have hsmall := h.small
    simp only [pending, hw, hw', false_and, if_false] at hsmall ⊢
    exact hsmall
  log := hlog

/-- A step of `fork`. -/
theorem SieveInv.fork_step (h : SieveInv x g) (hp : x.procs e = some p) {F : ForkPc → PrimesPc}
    (hF : ForkIn F) (hpc : p.pc = F f) (run : forkStep B entry e x.kern f = some (f', k'))
    (ok : f' ≠ .panic) : SieveInv (x.after e { p with pc := F f' } k') g := by
  have hnode := h.node e p hp
  have hw : ¬ p.pc.Waits := hpc ▸ hF.waits f
  have hborn : p.pc ≠ .born := hpc ▸ hF.born f
  obtain ⟨hsent, hlog⟩ := hF.log hpc hnode.log
  have hnode' : ∀ f', Node (x.kern.envs e) e { p with pc := F f' } := fun f' ↦
    hnode.goto hw (hF.waits f') hborn (hlog f')
  have hmain : ∀ f', (F f').IsMain ↔ p.pc.IsMain := fun f' ↦ hpc ▸ hF.main f f'
  have hbox : ∀ (env env' : Env) f', p.heard ++ pending env { p with pc := F f' } =
      p.heard ++ p.pending env' := by
    intro env env' f'
    simp [pending, hw, hF.waits f']
  cases forkStep_effect run ok with
  | @alloc cid ch m d tf head hid =>
      obtain ⟨h₁, hnone, hchild⟩ := h.alloc hp m d tf head hid
      rw [PrimesSys.after_of_none (hF.pending (.loop _ 0) nofun).2]
      refine h₁.own hp rfl (fun _ _ ↦ .refl _) rfl rfl ?_ (fun child hc ↦ ?_) (hmain _) ?_ rfl
        (hbox ..)
      · rw [hpc, (hF.pending (.loop _ 0) nofun).1, (hF.pending .exofork nofun).1]
      · obtain rfl : cid = child := Option.some.inj ((hF.making (.loop cid 0)).symm.trans hc)
        exact .inr ⟨hchild, hnone⟩
      · exact (h₁.node e p hp).goto hw (hF.waits _) hborn (hlog _)
  | @start child e₁ found =>
      obtain ⟨hchild, -⟩ := h.making e p child hp (by rw [hpc, hF.making]; rfl)
      obtain rfl := Option.some.inj (found.symm.trans hchild.found)
      rw [PrimesSys.after_of_some (hF.done child).2]
      refine h.start hp (by rw [hpc, hF.making]; rfl) (hpc ▸ (hF.pending (.status child) nofun).1)
        rfl (fun s hs ↦ Kern.envs_modEnv_of_ne _ _ hs) (Kern.envs_modEnv_self ..) (hF.done child).1
        (hF.making _) (hmain _) (hnode' _) hsent rfl hw (hF.waits _) rfl ⟨rfl, rfl, rfl⟩
  | other making done list envs status =>
      have hf : ∀ child, f ≠ .done child := by
        rintro child rfl
        cases run
      rw [PrimesSys.after_of_none (hF.pending f' done).2]
      refine h.own hp list (fun s _ ↦ envs s) (envs e).envId (envs e).envParentId ?_
        (fun child hc ↦ .inl ?_) (hmain _) ((hnode' f').sameBox (envs e)) rfl (hbox ..)
      · rw [hpc, (hF.pending f' done).1, (hF.pending f hf).1]
      · rw [hpc, hF.making, ← making, ← hF.making]
        exact hc

/-- The right neighbour is there. -/
theorem SieveInv.found (h : SieveInv x g) (hp : x.procs e = some p) (hr : p.pc.right = some id) :
    envid2env x.kern e id false = some (envx id) := by
  obtain ⟨q, hq, hl⟩ := h.right e p id hp hr
  have hnode := h.node _ q hq
  rw [envid2env, if_neg (hl.id ▸ hnode.id_ne)]
  simp [hl.id, hnode.ne_free]

/-- The environment changes its program counter only. -/
theorem SieveInv.goto (h : SieveInv x g) (hp : x.procs e = some p) {pc : PrimesPc}
    (hw : ¬ p.pc.Waits) (hw' : ¬ pc.Waits) (born : p.pc ≠ .born) (right : pc.right = p.pc.right)
    (making : pc.making = none) (main : pc.IsMain ↔ p.pc.IsMain) (forked : pc.forked = none)
    (log : Log { p with pc := pc }) : SieveInv (x.after e { p with pc := pc } x.kern) g := by
  rw [PrimesSys.after_of_none forked]
  refine h.own hp rfl (fun _ _ ↦ .refl _) rfl rfl right (fun child hc ↦ ?_) main
    ((h.node e p hp).goto hw hw' born log) rfl ?_
  · exact nomatch making.symm.trans hc
  · simp [pending, hw, hw']

/-- A round of `ipc_send`. -/
theorem SieveInv.send_step (h : SieveInv x g) (hp : x.procs e = some p) {r : SendRound} {v : Word}
    (hright : p.pc.right = some id) (hw : ¬ p.pc.Waits) (born : p.pc ≠ .born) (small : Small v)
    (run : ipcSend B x.kern e id v 0 0 = some (r, k')) :
    r = .retry ∧ k' = x.kern ∨
    r = .sent ∧ ∀ pc : PrimesPc, ¬ pc.Waits → pc.right = some id → pc.making = none →
      (pc.IsMain ↔ p.pc.IsMain) → pc.forked = none →
      Log { p with pc := pc, sent := p.sent ++ [v] } →
      SieveInv (x.after e { p with pc := pc, sent := p.sent ++ [v] } k') g := by
  rcases ipcSend_cases (B := B) (h.found hp hright) v with
    ⟨-, hrun⟩ | ⟨hrecv, k₁, hrun, list, others, fromEnv, henv⟩
  · obtain ⟨rfl, rfl⟩ := Prod.mk.inj (Option.some.inj (run.symm.trans hrun))
    exact .inl ⟨rfl, rfl⟩
  · obtain ⟨rfl, rfl⟩ := Prod.mk.inj (Option.some.inj (run.symm.trans hrun))
    refine .inr ⟨rfl, fun pc hw' right making main forked log ↦ ?_⟩
    rw [PrimesSys.after_of_none forked]
    have hnode := h.node e p hp
    refine h.deliver hp hright hw hrecv small list others henv (right.trans hright.symm) making main
      ⟨hnode.id, hnode.id_ne, .inr (hnode.thisenv.resolve_left born), fun _ ↦ hnode.idle hw,
        fun hc ↦ absurd hc hw', ?_, log⟩ rfl hw' rfl
    have hsmall := hnode.small
    simp only [pending, hw, hw', false_and, if_false] at hsmall ⊢
    exact hsmall

/-- The system call of `ipc_recv`. -/
theorem SieveInv.recv_step (h : SieveInv x g) (hp : x.procs e = some p) {pc : PrimesPc}
    (hw : ¬ p.pc.Waits) (hw' : pc.Waits) (born : p.pc ≠ .born) (right : pc.right = p.pc.right)
    (making : pc.making = none) (main : pc.IsMain ↔ p.pc.IsMain) (forked : pc.forked = none)
    (log : Log { p with pc := pc }) :
    ∃ k', ipcRecv x.kern e 0 = (.yield (some e), k') ∧
      SieveInv (x.after e { p with pc := pc } k') g := by
  have hpage : ¬ (ipcPage 0 < UTOP ∧ pgoff (ipcPage 0) ≠ 0) := fun hc ↦ absurd hc.1 (by decide)
  refine ⟨_, (by rw [ipcRecv, sysIpcRecv, if_neg hpage]), ?_⟩
  rw [PrimesSys.after_of_none forked]
  have hnode := h.node e p hp
  have henv : (x.kern.modEnv e fun env ↦ { env with
      envIpcRecving := true, envIpcDstva := ipcPage 0, envStatus := .notRunnable }).envs e =
      { x.kern.envs e with
        envIpcRecving := true, envIpcDstva := ipcPage 0, envStatus := .notRunnable } :=
    Kern.envs_modEnv_self ..
  have hbox : ∀ env : Env, p.pending env = [] := fun env ↦ by simp [pending, hw]
  refine h.own hp rfl (fun s hs ↦ ?_) (by rw [henv]) (by rw [henv]) right
    (fun child hc ↦ absurd (making.symm.trans hc).symm (Option.some_ne_none child)) main ?_ rfl ?_
  · rw [Kern.envs_modEnv_of_ne _ _ hs]
    exact .refl _
  · rw [henv]
    refine ⟨hnode.id, hnode.id_ne, .inr (hnode.thisenv.resolve_left born), fun hc ↦ absurd hw' hc,
      fun _ ↦ .inl ⟨rfl, rfl⟩, ?_, log⟩
    have hsmall := hnode.small
    rw [hbox] at hsmall
    simpa [pending] using hsmall
  · rw [hbox, henv]
    simp [pending]

/-- `ipc_recv` returns the message that is there. -/
theorem SieveInv.hear_step (h : SieveInv x g) (hp : x.procs e = some p) {pc : PrimesPc} {v : Word}
    (running : (x.kern.envs e).envStatus = .running)
    (hw : p.pc.Waits) (hw' : ¬ pc.Waits) (born : p.pc ≠ .born) (right : pc.right = p.pc.right)
    (making : pc.making = none) (main : pc.IsMain ↔ p.pc.IsMain) (forked : pc.forked = none)
    (hv : v = (ipcRecvEnd x.kern p.thisenv (x.kern.envs e).envTf.regs.eax).value)
    (log : Small v → Log { p with pc := pc, heard := p.heard ++ [v] }) :
    SieveInv (x.after e { p with pc := pc, heard := p.heard ++ [v] } x.kern) g := by
  have hnode := h.node e p hp
  rcases hnode.waits hw with ⟨hst, -⟩ | ⟨hawake, hrecv, heax⟩
  · exact nomatch running.symm.trans hst
  have hthis := hnode.thisenv.resolve_left born
  have hval : v = (x.kern.envs e).envIpcValue := by
    rw [hv, ipcRecvEnd, heax, if_neg (by decide), hthis]
  have hbox : p.pending (x.kern.envs e) = [v] := by simp [pending, hw, hrecv, hval]
  have hsmall := hnode.small
  rw [hbox] at hsmall
  have hbox' : ∀ q : Primes, q.pc = pc → q.pending (x.kern.envs e) = [] := by
    rintro q rfl
    simp [pending, hw']
  rw [PrimesSys.after_of_none forked]
  refine h.own hp rfl (fun _ _ ↦ .refl _) rfl rfl right (fun child hc ↦ ?_) main
    ⟨hnode.id, hnode.id_ne, .inr hthis, fun _ ↦ ⟨hawake, hrecv⟩, fun hc ↦ absurd hc hw', ?_,
      log (hsmall v (by simp))⟩ rfl ?_
  · exact nomatch making.symm.trans hc
  · rw [hbox' _ rfl, List.append_nil]
    exact hsmall
  · rw [hbox, hbox' _ rfl, List.append_nil]

/-- The remainder of small numbers, as C has it. -/
theorem srem_ne_zero {a b : Word} (ha : Small a) (hb : Small b) :
    a.srem b ≠ 0 ↔ ¬ b.toNat ∣ a.toNat := by
  have hmsb : ∀ {w : Word}, Small w → w.msb = false := fun {w} hw ↦ by
    rw [BitVec.msb_eq_false_iff_two_mul_lt]
    have := hw.2
    omega
  rw [BitVec.srem_eq, hmsb ha, hmsb hb, Nat.dvd_iff_mod_eq_zero, not_iff_not]
  constructor
  · intro h
    simpa using congrArg BitVec.toNat h
  · intro h
    exact BitVec.eq_of_toNat_eq (by simpa using h)

theorem passes_concat (q v : Word) (t : List Word) :
    passes q (t ++ [v]) = passes q t ++ if q.toNat ∣ v.toNat then [] else [v] := by
  rw [passes, List.filter_append]
  by_cases hd : q.toNat ∣ v.toNat <;> simp [passes, hd]

/-- In `fork`. -/
theorem primesStep_fork {F : ForkPc → PrimesPc} (hF : F = .mainFork ∨ ∃ q, F = .primeFork q)
    (hpc : p.pc = F f) (hf : ∀ child, f ≠ .done child)
    (run : primesStep B entry e k p = some (p', k')) :
    ∃ f', forkStep B entry e k f = some (f', k') ∧ p' = { p with pc := F f' } := by
  have hrun : (forkStep B entry e k f).bind (fun r ↦ some ({ p with pc := F r.1 }, r.2)) =
      some (p', k') := by
    rw [← run, primesStep, hpc]
    rcases hF with rfl | ⟨q, rfl⟩ <;> cases f with
    | done child => exact absurd rfl (hf child)
    | _ => rfl
  obtain ⟨r, hr, hrun⟩ := Option.bind_eq_some_iff.mp hrun
  obtain ⟨rfl, rfl⟩ := Prod.mk.inj (Option.some.inj hrun)
  exact ⟨r.1, hr, rfl⟩

/-- A running environment makes a step. -/
theorem SieveInv.own_step (h : SieveInv x g) (hp : x.procs e = some p)
    (running : (x.kern.envs e).envStatus = .running)
    (run : primesStep B entry e x.kern p = some (p', k')) (forks : ¬ p'.pc.ForkFailed) :
    SieveInv (x.after e p' k') g := by
  have hnode := h.node e p hp
  have hlog := hnode.log
  obtain ⟨pc, thisenv, heard, printed, sent⟩ := p
  cases pc with
  | mainFork f =>
      by_cases hf : ∃ child, f = .done child
      · obtain ⟨child, rfl⟩ := hf
        obtain ⟨rfl, rfl⟩ := Prod.mk.inj (Option.some.inj run)
        refine h.goto hp not_false not_false nofun rfl rfl Iff.rfl rfl
          ⟨hlog.1, ⟨by decide, by decide⟩, ?_⟩
        rw [show sent = [] from hlog.2]
        rfl
      · obtain ⟨f', hrun, rfl⟩ := primesStep_fork (.inl rfl) rfl (not_exists.mp hf) run
        refine h.fork_step hp forkIn_mainFork rfl hrun ?_
        rintro rfl
        exact forks trivial
  | feed id i =>
      obtain ⟨hheard, hsmall, hsent⟩ := hlog
      obtain ⟨⟨r, k₁⟩, hsend, hrun⟩ := Option.bind_eq_some_iff.mp run
      rcases h.send_step hp rfl not_false nofun hsmall hsend with ⟨rfl, rfl⟩ | ⟨rfl, hinv⟩
      · obtain ⟨rfl, rfl⟩ := Prod.mk.inj (Option.some.inj hrun)
        exact h.goto hp not_false not_false nofun rfl rfl Iff.rfl rfl ⟨hheard, hsmall, hsent⟩
      · simp only at hrun
        split at hrun
        swap
        · cases hrun
        next hlt =>
        obtain ⟨rfl, rfl⟩ := Prod.mk.inj (Option.some.inj hrun)
        have hone : (i + 1).toNat = i.toNat + 1 := by
          rw [BitVec.toNat_add]
          exact Nat.mod_eq_of_lt (hlt.trans (by decide))
        refine hinv _ not_false rfl rfl Iff.rfl rfl ⟨hheard, ⟨?_, ?_⟩, ?_⟩
        · rw [hone]
          exact Nat.le_succ_of_le hsmall.1
        · rw [hone]
          exact hlt
        · have h2 := hsmall.1
          rw [hone, List.map_append, hsent, show i.toNat + 1 - 2 = i.toNat - 2 + 1 by omega,
            List.range'_concat, List.map_cons, List.map_nil]
          congr 2
          omega
  | feedYield id i =>
      obtain ⟨rfl, rfl⟩ := Prod.mk.inj (Option.some.inj run)
      exact h.goto hp not_false not_false nofun rfl rfl Iff.rfl rfl hlog
  | born =>
      obtain ⟨rfl, rfl⟩ := Prod.mk.inj (Option.some.inj run)
      rw [PrimesSys.after_of_none rfl]
      exact h.own hp rfl (fun _ _ ↦ .refl _) rfl rfl rfl nofun Iff.rfl
        ⟨hnode.id, hnode.id_ne, .inr hnode.id, hnode.idle, hnode.waits, hnode.small, hlog⟩ rfl rfl
  | top =>
      obtain ⟨k₁, hrecv, hinv⟩ := h.recv_step hp not_false (show PrimesPc.first.Waits from trivial)
        nofun rfl rfl Iff.rfl rfl hlog
      simp only [primesStep, hrecv] at run
      obtain ⟨rfl, rfl⟩ := Prod.mk.inj (Option.some.inj run)
      exact hinv
  | first =>
      obtain ⟨rfl, rfl⟩ := Prod.mk.inj (Option.some.inj run)
      refine h.hear_step hp running trivial not_false nofun rfl rfl Iff.rfl rfl rfl fun _ ↦ ?_
      obtain ⟨hheard, hprinted, hsent⟩ := hlog
      exact ⟨congrArg (· ++ _) hheard, hprinted, hsent⟩
  | print q =>
      obtain ⟨rfl, rfl⟩ := Prod.mk.inj (Option.some.inj run)
      obtain ⟨hheard, hprinted, hsent⟩ := hlog
      rw [PrimesSys.after_of_none rfl]
      refine h.own hp rfl (fun _ _ ↦ .refl _) rfl rfl rfl nofun Iff.rfl
        ⟨hnode.id, hnode.id_ne, .inr (hnode.thisenv.resolve_left nofun),
          fun _ ↦ hnode.idle not_false,
          fun hc ↦ hc.elim, hnode.small, hheard, ⟨_, congrArg (· ++ _) hprinted⟩, hsent⟩ rfl rfl
  | primeFork q f =>
      by_cases hf : ∃ child, f = .done child
      · obtain ⟨child, rfl⟩ := hf
        obtain ⟨rfl, rfl⟩ := Prod.mk.inj (Option.some.inj run)
        exact h.goto hp not_false not_false nofun rfl rfl Iff.rfl rfl
          ⟨[], hlog.heard, hlog.printed, hlog.sent⟩
      · obtain ⟨f', hrun, rfl⟩ := primesStep_fork (.inr ⟨q, rfl⟩) rfl (not_exists.mp hf) run
        refine h.fork_step hp (forkIn_primeFork q) rfl hrun ?_
        rintro rfl
        exact forks trivial
  | loop q id =>
      obtain ⟨t, hfil⟩ := hlog
      obtain ⟨k₁, hrecv, hinv⟩ := h.recv_step hp not_false
        (show (PrimesPc.next q id).Waits from trivial) nofun rfl rfl Iff.rfl rfl
        ⟨t, hfil.heard, hfil.printed, hfil.sent⟩
      simp only [primesStep, hrecv] at run
      obtain ⟨rfl, rfl⟩ := Prod.mk.inj (Option.some.inj run)
      exact hinv
  | next q id =>
      obtain ⟨rfl, rfl⟩ := Prod.mk.inj (Option.some.inj run)
      refine h.hear_step hp running trivial not_false nofun rfl rfl Iff.rfl rfl rfl fun _ ↦ ?_
      obtain ⟨t, hheard, hprinted, hsent⟩ := hlog
      rw [List.append_nil] at hheard
      exact ⟨t, congrArg (· ++ _) hheard, hprinted, hsent⟩
  | test q id i =>
      obtain ⟨t, hheard, hprinted, hsent⟩ := hlog
      have hmem : ∀ j ∈ heard, Small j := fun j hj ↦ hnode.small j (List.mem_append_left _ hj)
      have hq : Small q := hmem q (by rw [show heard = _ from hheard]; exact List.mem_cons_self)
      have hi : Small i := hmem i (by rw [show heard = _ from hheard]; simp)
      simp only [primesStep] at run
      split at run
      · cases run
      split at run
      · next hrem =>
        obtain ⟨rfl, rfl⟩ := Prod.mk.inj (Option.some.inj run)
        exact h.goto hp not_false not_false nofun rfl rfl Iff.rfl rfl
          ⟨(srem_ne_zero hi hq).mp hrem, t, hheard, hprinted, hsent⟩
      · next hrem =>
        obtain ⟨rfl, rfl⟩ := Prod.mk.inj (Option.some.inj run)
        have hdvd : q.toNat ∣ i.toNat := not_not.mp (mt (srem_ne_zero hi hq).mpr hrem)
        refine h.goto hp not_false not_false nofun rfl rfl Iff.rfl rfl
          ⟨t ++ [i], ?_, hprinted, ?_⟩
        · rw [List.append_nil]
          exact hheard
        · rw [passes_concat, if_pos hdvd, List.append_nil]
          exact hsent
  | send q id i =>
      obtain ⟨hdvd, t, hheard, hprinted, hsent⟩ := hlog
      have hi : Small i := hnode.small i
        (List.mem_append_left _ (by rw [show heard = _ from hheard]; simp))
      obtain ⟨⟨r, k₁⟩, hsend, hrun⟩ := Option.bind_eq_some_iff.mp run
      rcases h.send_step hp rfl not_false nofun hi hsend with ⟨rfl, rfl⟩ | ⟨rfl, hinv⟩
      · obtain ⟨rfl, rfl⟩ := Prod.mk.inj (Option.some.inj hrun)
        exact h.goto hp not_false not_false nofun rfl rfl Iff.rfl rfl
          ⟨hdvd, t, hheard, hprinted, hsent⟩
      · obtain ⟨rfl, rfl⟩ := Prod.mk.inj (Option.some.inj hrun)
        refine hinv _ not_false rfl rfl Iff.rfl rfl ⟨t ++ [i], ?_, hprinted, ?_⟩
        · rw [List.append_nil]
          exact hheard
        · rw [passes_concat, if_neg hdvd]
          exact congrArg (· ++ _) hsent
  | sendYield q id i =>
      obtain ⟨hdvd, t, hheard, hprinted, hsent⟩ := hlog
      obtain ⟨rfl, rfl⟩ := Prod.mk.inj (Option.some.inj run)
      exact h.goto hp not_false not_false nofun rfl rfl Iff.rfl rfl
        ⟨hdvd, t, hheard, hprinted, hsent⟩
  | panic => cases run

theorem SieveInv.step (h : SieveInv x g) (step : PrimesStep B entry x x') : SieveInv x' g := by
  cases step with
  | own proc running run forks => exact h.own_step proc running run forks
  | switch e status runs cpunum before after =>
      refine h.frame rfl fun s ↦ ?_
      by_cases hs : s = e
      · subst hs
        rw [Kern.envs_modEnv_self]
        exact ⟨rfl, rfl, rfl, rfl, rfl, rfl, .inr ⟨before, after⟩⟩
      · rw [Kern.envs_modEnv_of_ne _ _ hs]
        exact .refl _
  | memory m => exact h.frame rfl fun _ ↦ .refl _

theorem SieveInv.run (h : SieveInv x g) (run : PrimesRun B entry x x') : SieveInv x' g := by
  induction run with
  | refl => exact h
  | tail _ step ih => exact ih.step step

theorem SieveInv.boot {cfg : BootConfig} (booted : Booted cfg k) (start : PrimesStart k g x) :
    SieveInv x g := by
  obtain ⟨l, el, hb⟩ := booted.bootInv
  obtain ⟨rfl, ready, main, alone⟩ := start
  rcases booted.envs g with ⟨hfree, -⟩ | ⟨-, hrecv, hid, hparent⟩
  · exact nomatch ready.symm.trans hfree
  have honly : ∀ {e p}, x.procs e = some p →
      e = g ∧ p = { pc := .mainFork (.start false), thisenv := g } := by
    intro e p hp
    by_cases he : e = g
    · subst he
      exact ⟨rfl, Option.some.inj (hp.symm.trans main)⟩
    · exact nomatch (alone e he).symm.trans hp
  refine ⟨⟨el, hb.inv.chain, fun e he ↦ (hb.inv.mem_el e).mp he⟩, fun e p hp ↦ ?_,
    fun e p id hp hr ↦ ?_, fun e p hp hg ↦ absurd (honly hp).1 hg, fun e p child hp hm ↦ ?_,
    fun e p hp ↦ ?_, hparent, fun hc ↦ nomatch main.symm.trans hc⟩
  · obtain ⟨rfl, rfl⟩ := honly hp
    rw [← nextEnvId_zero] at hid
    exact ⟨by rw [hid]; exact envx_nextEnvId _ _, hid ▸ nextEnvId_ne_zero _ _, .inr rfl,
      fun _ ↦ ⟨.inr ready, hrecv⟩, fun hc ↦ hc.elim, nofun, rfl, rfl⟩
  · obtain ⟨rfl, rfl⟩ := honly hp
    cases hr
  · obtain ⟨rfl, rfl⟩ := honly hp
    cases hm
  · obtain ⟨rfl, rfl⟩ := honly hp
    exact ⟨fun _ ↦ rfl, fun _ ↦ trivial⟩

end Jos
