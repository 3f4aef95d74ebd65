import Jos.Kern.PageCalls
import Jos.Kern.Exec

/-!
# Copy-on-write fork (`lib/fork.c`, `lib/pgfault.c`)

`fork` is user code that makes one system call after the other, and the kernel may run other
environments between any two of them.  So it is a step function on a program counter: each step is
one system call of `fork`, together with the local work before it.  The stack of the program, on
which `fork` keeps its variables, is not modelled, and so neither are the write faults that it takes
there after `duppage` has marked its page.

The program reads its own page tables in the window at `UVPT`.
-/

namespace Jos

open Jos.Lib

/-- `PTE_COW`: one of the bits that the kernel leaves to the program. -/
def PTE_COW : Word := 0x800

/-- `PFTEMP`. -/
def PFTEMP : Word := 0x7FF000

/-- `uvpd[i]`. -/
def uvpd (m : Mem) (d i : ℕ) : Word := m.phys d i

/-- `uvpt[v]`, where there is a table for it. -/
def uvpt (m : Mem) (d v : ℕ) : Word := m.phys (frame (uvpd m d (v / 1024))) (v % 1024)

/-- The permission with which `duppage` maps a page that has the entry `pte`. -/
def dupPerm (pte : Word) : Word :=
  if isSet pte (PTE_W ||| PTE_COW) then PTE_U ||| PTE_P ||| PTE_COW else PTE_U ||| PTE_P

/-- Where `fork` is. -/
inductive ForkPc where
  /-- `set_pgfault_handler`, when there was no handler before -/
  | handlerStack
  | handlerUpcall
  | exofork
  /-- the loop over all pages, at page number `v` -/
  | loop (child : Word) (v : ℕ)
  /-- the second call of `duppage` -/
  | remap (child : Word) (v : ℕ)
  | stack (child : Word)
  | upcall (child : Word)
  | status (child : Word)
  | done (child : Word)
  | panic

/-- The start of `fork`, where `handler` says that there is a page fault handler already. -/
def ForkPc.start (handler : Bool) : ForkPc := if handler then .exofork else .handlerStack

/-- One step of `fork` in environment `cur`.  `entry` is the address of `_pgfault_upcall`.  The loop
does not look at the result of `duppage`. -/
def forkStep (B : Machine) (entry : Word) (cur : Slot) (k : Kern) :
    ForkPc → Option (ForkPc × Kern)
  | .handlerStack => do
      let (r, k) ← sysPageAlloc B k cur 0 (UXSTACKTOP - 0x1000) (PTE_U ||| PTE_P ||| PTE_W)
      return (if r.toInt < 0 then .panic else .handlerUpcall, k)
  | .handlerUpcall =>
      let (r, k) := sysEnvSetPgfaultUpcall k cur 0 entry
      some (if r.toInt < 0 then .panic else .exofork, k)
  | .exofork => do
      let (child, k) ← sysExofork B k cur
      return (if child.toInt < 0 then .panic else .loop child 0, k)
  | .loop child v =>
      if v < pgnum USTACKTOP then do
        let d ← (k.envs cur).envPgdir
        let pte := uvpt k.mem d v
        if isSet (uvpd k.mem d (v / 1024)) PTE_P ∧ isSet pte PTE_P then
          let (r, k) ← sysPageMap B k cur 0 (pageVa v) child (pageVa v) (dupPerm pte)
          if ¬ r.toInt < 0 ∧ isSet pte (PTE_W ||| PTE_COW) then return (.remap child v, k)
          else return (.loop child (v + 1), k)
        else return (.loop child (v + 1), k)
      else some (.stack child, k)
  | .remap child v => do
      let (_, k) ← sysPageMap B k cur 0 (pageVa v) 0 (pageVa v) (PTE_U ||| PTE_P ||| PTE_COW)
      return (.loop child (v + 1), k)
  | .stack child => do
      let (r, k) ← sysPageAlloc B k cur child (UXSTACKTOP - 0x1000) (PTE_P ||| PTE_U ||| PTE_W)
      return (if r.toInt < 0 then .panic else .upcall child, k)
  | .upcall child =>
      let (r, k) := sysEnvSetPgfaultUpcall k cur child (k.envs cur).envPgfaultUpcall
      some (if r.toInt < 0 then .panic else .status child, k)
  | .status child =>
      let (r, k) := sysEnvSetStatus k cur child ENV_RUNNABLE
      some (if r.toInt < 0 then .panic else .done child, k)
  | .done _ => none
  | .panic => none

/-- What happens elsewhere while `cur` forks: a system call of an environment with another id, the
end of a zombie, the scheduler, and stores of user programs.  An environment that is not runnable
does not run. -/
inductive Elsewhere (B : Machine) (cur : Slot) : Kern → Kern → Prop
  | syscall {k k' : Kern} {c : Call} {r : Ctl Word} (live : k.Live c.cur)
      (awake : (k.envs c.cur).envStatus ≠ .notRunnable)
      (other : (k.envs c.cur).envId ≠ (k.envs cur).envId) (run : c.exec B k = some (r, k')) :
      Elsewhere B cur k k'
  | envFree {k k' : Kern} {e : Slot} (dying : (k.envs e).envStatus = .dying)
      (run : envFree B k e = some k') : Elsewhere B cur k k'
  | switch {k : Kern} {e : Slot} (tf : Trapframe) (status : EnvStatus) (runs : Word) (cpunum : ℕ)
      (live : k.Live e) (awake : (k.envs e).envStatus ≠ .notRunnable) (alive : status ≠ .free) :
      Elsewhere B cur k (k.modEnv e fun env ↦
        { env with envTf := tf, envStatus := status, envRuns := runs, envCpunum := cpunum })
  | store {k : Kern} {e : Slot} {d : ℕ} {va : Word} {b : BitVec 8} {m' : Mem}
      (dir : k.dirs e = some d) (allowed : k.mem.UserWritable d va)
      (run : k.mem.storeByte d va b = some m') : Elsewhere B cur k (k.setMem m')

/-- A step of `fork` in `cur`, or a step elsewhere. -/
inductive ForkStep (B : Machine) (entry : Word) (cur : Slot) :
    ForkPc × Kern → ForkPc × Kern → Prop
  | own {pc pc' : ForkPc} {k k' : Kern} (live : k.Live cur)
      (run : forkStep B entry cur k pc = some (pc', k')) : ForkStep B entry cur (pc, k) (pc', k')
  | elsewhere {pc : ForkPc} {k k' : Kern} (step : Elsewhere B cur k k') :
      ForkStep B entry cur (pc, k) (pc, k')

variable {B : Machine} {M : Pool B} {k k' : Kern} {l : List ℕ} {el : List Slot} {cur e : Slot}
  {child entry : Word} {pc pc' : ForkPc} {d v : ℕ}

theorem Elsewhere.step (h : Elsewhere B cur k k') : Step B k k' := by
  cases h with
  | syscall live awake other run => exact .kernel (.syscall live run)
  | @envFree _ e dying run =>
      refine .kernel (.envFree (e := e) ?_ run)
      rw [Kern.Live, dying]
      decide
  | switch tf status runs cpunum live awake alive =>
      exact .kernel (.switch tf status runs cpunum live alive)
  | store dir allowed run => exact .store dir allowed run

/-! ## What the program reads in its page tables -/

/-- The window at `UVPT` shows the address space. -/
theorem Kern.space_uvpt (hd : k.dirs e = some d) (hv : v < NUPG) : k.space e v =
    if isSet (uvpd k.mem d (v / 1024)) PTE_P ∧ isSet (uvpt k.mem d v) PTE_P then
      some (frame (uvpt k.mem d v), flags (uvpt k.mem d v)) else none := by
  rw [Kern.space_eq hd hv, translate]
  by_cases hP : isSet (uvpd k.mem d (v / 1024)) PTE_P
  · have hpte : pteOf k.mem d v = uvpt k.mem d v :=
      pteOf_of_table (entryFrame_of_isSet hP)
    rw [hpte, entry]
    simp [hP]
  · rw [pteOf_of_no_table (tableOf_eq_none.mpr hP), if_neg fun hc ↦ hP hc.1]
    exact entry_zero

theorem isSet_COW {w : Word} : isSet w PTE_COW ↔ w.getLsbD 11 = true :=
  isSet_twoPow (i := 11) (by decide)

theorem isSet_W_or_COW {w : Word} :
    isSet w (PTE_W ||| PTE_COW) ↔ isSet w PTE_W ∨ isSet w PTE_COW := by
  rw [isSet, isSet, isSet, ← not_and_or, not_iff_not, BitVec.and_or_distrib_left]
  exact BitVec.or_eq_zero_iff

/-- The permission bits decide whether a page is copied on a write. -/
theorem isSet_flags_W_or_COW {w : Word} :
    isSet (flags w) (PTE_W ||| PTE_COW) ↔ isSet w (PTE_W ||| PTE_COW) := by
  rw [isSet_W_or_COW, isSet_W_or_COW, isSet_flags_W, isSet_COW, isSet_COW]
  simp [flags]

theorem not_badPerm_dupPerm (pte : Word) : ¬ badPerm (dupPerm pte) := by
  rw [dupPerm]
  split <;> decide

/-- The child gets no page to write to. -/
theorem not_isSet_W_dupPerm (pte : Word) : ¬ isSet (dupPerm pte) PTE_W := by
  rw [dupPerm]
  split <;> decide

theorem isSet_COW_dupPerm {pte : Word} (h : isSet pte (PTE_W ||| PTE_COW)) :
    isSet (dupPerm pte ||| PTE_P) PTE_COW := by
  rw [dupPerm, if_pos h]
  decide

/-! ## The child before it runs -/

/-- Slot `envx child` holds a child of `cur` with id `child`, which has not been started. -/
structure Child (k : Kern) (cur : Slot) (child : Word) : Prop where
  ne : envx child ≠ cur
  ne_zero : child ≠ 0
  status : (k.envs (envx child)).envStatus = .notRunnable
  id : (k.envs (envx child)).envId = child
  parent : (k.envs (envx child)).envParentId = (k.envs cur).envId
  recving : (k.envs (envx child)).envIpcRecving = false

namespace Child

theorem live (h : Child k cur child) : k.Live (envx child) := by
  rw [Kern.Live, h.status]
  decide

theorem found (h : Child k cur child) : envid2env k cur child true = some (envx child) := by
  rw [envid2env, if_neg h.ne_zero]
  simp [h.status, h.id, h.parent]

/-- `sys_exofork` makes a child. -/
theorem of_exofork {ch : Slot} {tf : Trapframe} (hlive : k.Live cur)
    (hfree : (k.envs ch).envStatus = .free)
    (henv : k'.envs ch = forkedEnv (k.envs ch) ch (k.envs cur).envId d tf)
    (hoth : ∀ e, e ≠ ch → k'.envs e = k.envs e) :
    Child k' cur (nextEnvId (k.envs ch).envId ch) := by
  have hne : ch ≠ cur := by
    rintro rfl
    exact hlive hfree
  have hslot : envx (nextEnvId (k.envs ch).envId ch) = ch := envx_nextEnvId _ ch
  refine ⟨hslot.symm ▸ hne, nextEnvId_ne_zero _ ch, ?_, ?_, ?_, ?_⟩
  · rw [hslot, henv]
    rfl
  · rw [hslot, henv]
    rfl
  · rw [hslot, henv, hoth cur hne.symm]
    rfl
  · rw [hslot, henv]
    rfl

/-- Only the entries of the two environments matter. -/
theorem of_envs (h : Child k cur child) (hchild : k'.envs (envx child) = k.envs (envx child))
    (hid : (k'.envs cur).envId = (k.envs cur).envId) : Child k' cur child :=
  ⟨h.ne, h.ne_zero, hchild ▸ h.status, hchild ▸ h.id, by rw [hchild, hid]; exact h.parent,
    hchild ▸ h.recving⟩

/-- The upcall does not matter. -/
theorem setUpcall (h : Child k cur child) (upcall : Word) : Child (k.modEnv (envx child) fun env ↦
    { env with envPgfaultUpcall := upcall }) cur child := by
  have hcur := Kern.envs_modEnv_of_ne k (fun env ↦ { env with envPgfaultUpcall := upcall })
    h.ne.symm
  refine ⟨h.ne, h.ne_zero, ?_, ?_, ?_, ?_⟩
  · simpa using h.status
  · simpa using h.id
  · simpa [hcur] using h.parent
  · simpa using h.recving

end Child

/-- A call of an environment that has no authority over `e`, and from which `e` does not wait for a
message, leaves `e` alone, and the pages that are mapped in `e` only. -/
theorem Call.leaves {c : Call} {r : Ctl Word} (h : Inv B M k l el) (hb : k.Bounded B)
    (live : k.Live c.cur) (hrun : c.exec B k = some (r, k')) (he : k.Live e) (hne : e ≠ c.cur)
    (hpar : (k.envs e).envParentId ≠ (k.envs c.cur).envId)
    (hrecv : (k.envs e).envIpcRecving = false) :
    k'.envs e = k.envs e ∧ k'.space e = k.space e ∧
      ∀ p, (∀ e' v f, k.space e' v = some (p, f) → e' = e) →
        k'.refs B p ≤ k.refs B p ∨ k'.refs B p ≤ 1 := by
  by_cases hipc : sysNo c.no = some .ipcTrySend ∧ envid2env k c.cur c.a1 false = some e
  · -- the send is refused
    have hsame : k' = k := by
      simp only [Call.exec, syscall, hipc.1, sysIpcTrySend, hipc.2, hrecv, Bool.false_eq_true,
        not_false_eq_true, if_true, returned, Option.map_some] at hrun
      exact (Prod.mk.inj (Option.some.inj hrun)).2.symm
    subst hsame
    exact ⟨rfl, rfl, fun p _ ↦ .inl le_rfl⟩
  obtain ⟨l', el', -, hev, henv⟩ := h.syscall_spec hb live hrun
  have hmine : e ∉ Mine k c.cur := by
    rintro (hc | hc)
    · exact hne hc
    · exact hpar hc
  have hout : e ∉ Touched k c.cur c.no c.a1 := by
    rw [Touched]
    split
    · next hno => exact fun hc ↦ hipc ⟨hno, hc⟩
    · rintro (hc | hc)
      · exact hmine hc
      · exact he hc
  refine ⟨henv e hout, (hev.others e hout).2, fun p hp ↦ ?_⟩
  rcases hev.refs p with hle | hle | ⟨hshared, -⟩
  · exact .inl hle
  · exact .inr hle
  · -- a shared page is mapped in the caller or in a child of it
    rcases hshared with ⟨-, src, dst, f, d, hsrc, -, -, -, -, hmap, -⟩ |
      ⟨-, e₁, f, d, -, -, -, -, hmap, -⟩
    · exact absurd (hp src _ f hmap ▸ envid2env_mine hsrc) hmine
    · exact absurd (hp c.cur _ f hmap).symm hne

/-- Nothing that happens elsewhere concerns the child. -/
theorem Elsewhere.leaves (step : Elsewhere B cur k k') (h : RunInv B M k l el) (hb : k.Bounded B)
    (hchild : Child k cur child) :
    k'.envs (envx child) = k.envs (envx child) ∧
      k'.space (envx child) = k.space (envx child) ∧
      ∀ p, (∀ e v f, k.space e v = some (p, f) → e = envx child) →
        k'.refs B p ≤ k.refs B p ∨ k'.refs B p ≤ 1 := by
  cases step with
  | @syscall _ c r live awake other run =>
      have hne : envx child ≠ c.cur := by
        intro hc
        rw [← hc] at awake
        exact awake hchild.status
      refine Call.leaves h.inv hb live run hchild.live hne ?_ hchild.recving
      rw [hchild.parent]
      exact other.symm
  | @envFree _ e dying run =>
      have hlive : k.Live e := by
        rw [Kern.Live, dying]
        decide
      have hne : envx child ∉ ({e} : Set Slot) := by
        rintro rfl
        rw [hchild.status] at dying
        cases dying
      obtain ⟨k₁, hk₁, -, haft⟩ := h.inv.envFree_spec hb hlive
      obtain rfl := Option.some.inj (hk₁.symm.trans run)
      obtain ⟨-, -, -, hev, henv⟩ := haft
      refine ⟨henv _ hne, (hev.others _ hne).2, fun p _ ↦ ?_⟩
      rcases hev.refs p with hle | hle | ⟨hc, -⟩
      · exact .inl hle
      · exact .inr hle
      · exact absurd hc (Set.notMem_empty p)
  | @switch e tf status runs cpunum live awake alive =>
      have hne : envx child ≠ e := by
        rintro rfl
        exact awake hchild.status
      have hdirs : Kern.dirs (k.modEnv e fun env ↦ { env with
          envTf := tf, envStatus := status, envRuns := runs, envCpunum := cpunum }) = k.dirs :=
        Kern.dirs_modEnv (by simp [alive, live.ne_free]) rfl
      refine ⟨Kern.envs_modEnv_of_ne _ _ hne, ?_, fun p _ ↦ .inl ?_⟩
      · rw [Kern.space_of_dirs hdirs rfl]
      · rw [Kern.refs_of_dirs hdirs rfl]
  | @store e d va b m' dir allowed run =>
      have hlt : va < UTOP := by
        by_contra hc
        exact ((h.inv.half e d dir).protected h.prot va).2 (BitVec.not_lt.mp hc) allowed
      have hs := Kern.storeByte_stored dir hlt run
      refine ⟨rfl, ?_, fun p _ ↦ .inl ?_⟩
      · rw [h.inv.stored_space hs]
      · exact (congrArg (owners · p) (h.inv.stored_target hs)).le

/-! ## What each step does -/

/-- If `fork` is about to map a page into the child, there is a table or a free page for one. -/
def HasRoom (cur : Slot) (k : Kern) : ForkPc → Prop
  | .loop child v => v < pgnum USTACKTOP → k.space cur v ≠ none →
      ∀ d, k.dirs (envx child) = some d → Room k.mem d (pageVa v)
  | _ => True

/-- `cur` has made the child in slot `envx child` with directory `d`; its address space is empty. -/
structure Made (B : Machine) (M : Pool B) (k : Kern) (l : List ℕ) (cur : Slot) (child : Word)
    (d : ℕ) (k' : Kern) (l' : List ℕ) (el' : List Slot) : Prop where
  inv : RunInv B M k' l' el'
  list : l = d :: l'
  made : Child k' cur child
  free : (k.envs (envx child)).envStatus = .free
  envs : ∀ e, e ≠ envx child → k'.envs e = k.envs e
  evolve : Evolve B k k' l {envx child} ∅
  dir : k'.dirs (envx child) = some d
  empty : ∀ v, k'.space (envx child) v = none
  setUp : SetUp B k.mem k'.mem d

theorem RunInv.remaps {l' : List ℕ} {o : Option (ℕ × Word)} (h : RunInv B M k l el)
    (hre : Remaps B M k l el e v o k' l') : ∃ l el, RunInv B M k' l el :=
  ⟨l', el, hre.inv, h.prot.of_same hre.kern⟩

section Own

variable (h : RunInv B M k l el) (hb : k.Bounded B) (hlive : k.Live cur)

include h hb hlive

/-- A page is allocated for an exception stack, or the program panics. -/
theorem exceptionStack {envid perm : Word} {pc₁ : ForkPc}
    (hid : envid2env k cur envid true = some e) (hrun : (do
      let (r, k) ← sysPageAlloc B k cur envid (UXSTACKTOP - 0x1000) perm
      return (if r.toInt < 0 then ForkPc.panic else pc₁, k)) = some (pc', k')) :
    (pc' = .panic ∧ ∃ l el, RunInv B M k' l el) ∨
    pc' = pc₁ ∧ ∃ p t l', l = p :: t ∧ Remaps B M k l el e (pgnum (UXSTACKTOP - 0x1000))
      (some (p, PTE_U ||| PTE_P ||| perm ||| PTE_P)) k' l' := by
  simp only [Option.bind_eq_bind, Option.bind_eq_some_iff, Prod.exists] at hrun
  obtain ⟨r, k₁, halloc, hrun⟩ := hrun
  obtain ⟨rfl, rfl⟩ := Prod.mk.inj (Option.some.inj hrun)
  rcases h.inv.sysPageAlloc_cases hb hlive halloc with
    ⟨hr, -⟩ | ⟨rfl, e', p, t, l', hid', -, hl, hre, -⟩
  · obtain ⟨r', m', l', hcall, hinv, hev⟩ := h.inv.sysPageAlloc_spec hb hlive envid
      (UXSTACKTOP - 0x1000) perm
    obtain ⟨-, rfl⟩ := Prod.mk.inj (Option.some.inj (hcall.symm.trans halloc))
    exact .inl ⟨if_pos hr, l', el, hinv, h.prot.of_same hev.kern⟩
  · obtain rfl := Option.some.inj (hid.symm.trans hid')
    exact .inr ⟨if_neg (by decide), p, t, l', hl, hre⟩

theorem forkStep_handlerStack (hrun : forkStep B entry cur k .handlerStack = some (pc', k')) :
    (pc' = .panic ∧ ∃ l el, RunInv B M k' l el) ∨
    pc' = .handlerUpcall ∧ ∃ p t f l', l = p :: t ∧ isSet f PTE_W ∧
      Remaps B M k l el cur (pgnum (UXSTACKTOP - 0x1000)) (some (p, f)) k' l' := by
  have hself : envid2env k cur 0 true = some cur := rfl
  rcases exceptionStack h hb hlive hself hrun with hpanic | ⟨hpc, p, t, l', hl, hre⟩
  · exact .inl hpanic
  · exact .inr ⟨hpc, p, t, _, l', hl, by decide, hre⟩

/-- The child gets an exception stack of its own. -/
theorem forkStep_stack (hchild : Child k cur child)
    (hrun : forkStep B entry cur k (.stack child) = some (pc', k')) :
    (pc' = .panic ∧ ∃ l el, RunInv B M k' l el) ∨
    pc' = .upcall child ∧ ∃ p t f l', l = p :: t ∧ isSet f PTE_W ∧
      Remaps B M k l el (envx child) (pgnum (UXSTACKTOP - 0x1000)) (some (p, f)) k' l' := by
  rcases exceptionStack h hb hlive hchild.found hrun with hpanic | ⟨hpc, p, t, l', hl, hre⟩
  · exact .inl hpanic
  · exact .inr ⟨hpc, p, t, _, l', hl, by decide, hre⟩

omit h hb hlive in
theorem forkStep_handlerUpcall (hrun : forkStep B entry cur k .handlerUpcall = some (pc', k')) :
    pc' = .exofork ∧ k' = k.modEnv cur fun env ↦ { env with envPgfaultUpcall := entry } := by
  have hself : envid2env k cur 0 true = some cur := rfl
  simp only [forkStep, sysEnvSetPgfaultUpcall, hself] at hrun
  obtain ⟨rfl, rfl⟩ := Prod.mk.inj (Option.some.inj hrun)
  exact ⟨rfl, rfl⟩

omit h hb hlive in
theorem forkStep_upcall (hchild : Child k cur child)
    (hrun : forkStep B entry cur k (.upcall child) = some (pc', k')) :
    pc' = .status child ∧ k' = k.modEnv (envx child) fun env ↦
      { env with envPgfaultUpcall := (k.envs cur).envPgfaultUpcall } := by
  simp only [forkStep, sysEnvSetPgfaultUpcall, hchild.found] at hrun
  obtain ⟨rfl, rfl⟩ := Prod.mk.inj (Option.some.inj hrun)
  exact ⟨rfl, rfl⟩

omit h hb hlive in
theorem forkStep_status (hchild : Child k cur child)
    (hrun : forkStep B entry cur k (.status child) = some (pc', k')) :
    pc' = .done child ∧ k' = k.modEnv (envx child) fun env ↦
      { env with envStatus := .runnable } := by
  simp only [forkStep, sysEnvSetStatus, hchild.found, ENV_RUNNABLE, if_true] at hrun
  obtain ⟨rfl, rfl⟩ := Prod.mk.inj (Option.some.inj hrun)
  exact ⟨rfl, rfl⟩

omit hb in
/-- The child is made, or `fork` panics. -/
theorem forkStep_exofork (hrun : forkStep B entry cur k .exofork = some (pc', k')) :
    (pc' = .panic ∧ k' = k) ∨
    ∃ child d l' el', pc' = .loop child 0 ∧ Made B M k l cur child d k' l' el' := by
  simp only [forkStep, Option.bind_eq_bind, Option.bind_eq_some_iff, Prod.exists] at hrun
  obtain ⟨r, k₁, hfork, hrun⟩ := hrun
  obtain ⟨rfl, rfl⟩ := Prod.mk.inj (Option.some.inj hrun)
  rcases h.inv.sysExofork_outcome hlive with
    ⟨r', ⟨hr, -⟩, hfail⟩ | ⟨ch, d, l', el', k₂, hl, hok, hfree, henv, hoth, hinv, hev, hnone, hsu⟩
  · obtain ⟨rfl, rfl⟩ := Prod.mk.inj (Option.some.inj (hfail.symm.trans hfork))
    exact .inl ⟨if_pos hr, rfl⟩
  · obtain ⟨rfl, rfl⟩ := Prod.mk.inj (Option.some.inj (hok.symm.trans hfork))
    have hslot : envx (nextEnvId (k.envs ch).envId ch) = ch := envx_nextEnvId _ ch
    have hdir : k₂.dirs ch = some d := by
      rw [Kern.dirs, henv]
      rfl
    refine .inr ⟨_, d, l', el', if_neg (not_lt.mpr (nextEnvId_pos _ ch).le),
      ⟨⟨hinv, h.prot.of_same hev.kern⟩, hl, .of_exofork hlive hfree henv hoth, ?_, ?_, ?_, ?_, ?_,
        hsu⟩⟩
    all_goals rw [hslot]
    exacts [hfree, hoth, hev, hdir, hnone]

omit hb in
/-- The loop goes past a page that is not there. -/
theorem forkStep_skip (hv : v < pgnum USTACKTOP) (hnone : k.space cur v = none) :
    forkStep B entry cur k (.loop child v) = some (.loop child (v + 1), k) := by
  obtain ⟨d, hd, hpg⟩ := h.inv.live_dir hlive
  have hspace := Kern.space_uvpt hd (hv.trans (by decide))
  have hP : ¬ (isSet (uvpd k.mem d (v / 1024)) PTE_P ∧ isSet (uvpt k.mem d v) PTE_P) := by
    intro hP
    rw [if_pos hP, hnone] at hspace
    cases hspace
  simp only [forkStep, if_pos hv, hpg, if_neg hP, Option.bind_eq_bind, Option.bind_some]
  rfl

omit h hb hlive in
/-- The loop at a page that is there. -/
theorem forkStep_dup (B : Machine) (entry child : Word) (hv : v < pgnum USTACKTOP) {p : ℕ}
    {f : Word} (hp : k.space cur v = some (p, f)) :
    ∃ pte, f = flags pte ∧ forkStep B entry cur k (.loop child v) =
      (sysPageMap B k cur 0 (pageVa v) child (pageVa v) (dupPerm pte)).bind fun (r, k) ↦
        some (if ¬ r.toInt < 0 ∧ isSet pte (PTE_W ||| PTE_COW) then .remap child v
          else .loop child (v + 1), k) := by
  obtain ⟨d, hd, hvU, -⟩ := Kern.space_eq_some.mp hp
  obtain ⟨-, hpg⟩ := Kern.live_of_dirs hd
  have hspace := Kern.space_uvpt hd hvU
  rw [hp] at hspace
  split at hspace
  swap
  · cases hspace
  next hP =>
  obtain ⟨-, rfl⟩ := Prod.mk.inj (Option.some.inj hspace)
  refine ⟨uvpt k.mem d v, rfl, ?_⟩
  simp only [forkStep, if_pos hv, hpg, if_pos hP, Option.bind_eq_bind, Option.bind_some]
  congr 1
  funext ⟨r, k₁⟩
  dsimp only
  split <;> rfl

/-- The loop: a page that is there is mapped into the child, without write permission. -/
theorem forkStep_loop (hchild : Child k cur child) (hroom : HasRoom cur k (.loop child v))
    (hrun : forkStep B entry cur k (.loop child v) = some (pc', k')) :
    (¬ v < pgnum USTACKTOP ∧ pc' = .stack child ∧ k' = k) ∨
    (v < pgnum USTACKTOP ∧ k.space cur v = none ∧ pc' = .loop child (v + 1) ∧ k' = k) ∨
    ∃ p f f' l', v < pgnum USTACKTOP ∧ k.space cur v = some (p, f) ∧
      Remaps B M k l el (envx child) v (some (p, f')) k' l' ∧ ¬ isSet f' PTE_W ∧
      (isSet f (PTE_W ||| PTE_COW) → isSet f' PTE_COW) ∧
      (isSet f (PTE_W ||| PTE_COW) ∧ pc' = .remap child v ∨
        ¬ isSet f (PTE_W ||| PTE_COW) ∧ pc' = .loop child (v + 1)) := by
  by_cases hv : v < pgnum USTACKTOP
  swap
  · rw [forkStep, if_neg hv] at hrun
    obtain ⟨rfl, rfl⟩ := Prod.mk.inj (Option.some.inj hrun)
    exact .inl ⟨hv, rfl, rfl⟩
  cases hp : k.space cur v with
  | none =>
      rw [forkStep_skip h hlive hv hp] at hrun
      obtain ⟨rfl, rfl⟩ := Prod.mk.inj (Option.some.inj hrun)
      exact .inr (.inl ⟨hv, rfl, rfl, rfl⟩)
  | some x =>
  obtain ⟨p, f⟩ := x
  have hvU : v < NUPG := hv.trans (by decide)
  obtain ⟨d', hd', -⟩ := h.inv.live_dir hchild.live
  obtain ⟨pte, rfl, hdup⟩ := forkStep_dup B entry child hv hp
  rw [hdup, Option.bind_eq_some_iff] at hrun
  obtain ⟨⟨r, k₁⟩, hmap, hrun⟩ := hrun
  have hva := not_badVa_pageVa hvU
  have hnum := pgnum_pageVa hvU
  have hself : envid2env k cur 0 true = some cur := rfl
  rcases h.inv.sysPageMap_ok hchild.found hd' hva hself hva (not_badPerm_dupPerm pte)
      (by rw [hnum]; exact hp) (fun hc ↦ absurd hc (not_isSet_W_dupPerm _))
      (fun q _ _ ↦ Nat.lt_succ_of_le (hb q)) with ⟨hno, -⟩ | ⟨k₂, l', hok, -, hre, -⟩
  · exact absurd (hroom hv (by rw [hp]; simp) d' hd') hno
  obtain ⟨rfl, rfl⟩ := Prod.mk.inj (Option.some.inj (hok.symm.trans hmap))
  obtain ⟨rfl, rfl⟩ := Prod.mk.inj (Option.some.inj hrun)
  rw [hnum] at hre
  refine .inr (.inr ⟨p, flags pte, _, l', hv, rfl, hre, ?_, fun hc ↦ ?_, ?_⟩)
  · rw [isSet_W_or_P]
    exact not_isSet_W_dupPerm _
  · exact isSet_COW_dupPerm (isSet_flags_W_or_COW.mp hc)
  · rw [isSet_flags_W_or_COW]
    by_cases hcow : isSet pte (PTE_W ||| PTE_COW)
    · exact .inl ⟨hcow, if_pos ⟨by decide, hcow⟩⟩
    · exact .inr ⟨hcow, if_neg fun hc ↦ hcow hc.2⟩

omit hlive in
/-- The second half of `duppage`: the parent's own page becomes copy-on-write.  It has a table, so
this does not fail. -/
theorem forkStep_remap {p : ℕ} {f : Word} (hp : k.space cur v = some (p, f))
    (hrun : forkStep B entry cur k (.remap child v) = some (pc', k')) :
    pc' = .loop child (v + 1) ∧ ∃ f' l', ¬ isSet f' PTE_W ∧
      Remaps B M k l el cur v (some (p, f')) k' l' := by
  obtain ⟨d, hd, hv, -⟩ := Kern.space_eq_some.mp hp
  have hva := not_badVa_pageVa hv
  have hnum := pgnum_pageVa hv
  have hself : envid2env k cur 0 true = some cur := rfl
  simp only [forkStep, Option.bind_eq_bind, Option.bind_eq_some_iff, Prod.exists] at hrun
  obtain ⟨r, k₁, hmap, hrun⟩ := hrun
  obtain ⟨rfl, rfl⟩ := Prod.mk.inj (Option.some.inj hrun)
  rcases h.inv.sysPageMap_ok hself hd hva hself hva
      (show ¬ badPerm (PTE_U ||| PTE_P ||| PTE_COW) by decide) (by rw [hnum]; exact hp)
      (fun hc ↦ absurd hc (by decide)) (fun q _ _ ↦ Nat.lt_succ_of_le (hb q)) with
    ⟨hno, -⟩ | ⟨k₂, l', hok, -, hre, -⟩
  · refine absurd (.inl ?_) hno
    rw [← pgnum_div, hnum]
    exact Kern.space_of_table hd hp
  obtain ⟨-, rfl⟩ := Prod.mk.inj (Option.some.inj (hok.symm.trans hmap))
  rw [hnum] at hre
  exact ⟨rfl, _, l', by decide, hre⟩

end Own

end Jos
