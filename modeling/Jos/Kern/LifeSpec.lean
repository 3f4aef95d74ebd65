import Jos.Kern.SyscallSpec

/-!
# Creating and destroying environments, and any system call

`env_alloc` and `env_free` move one environment between the free list and the live ones.  With
them every system call is covered: `Inv.syscall_spec` says that a call that returns keeps the
invariant, and bounds its effect.
-/

namespace Jos

open Jos.Lib

variable {B : Machine} {M : Pool B} {s s' : Kern} {l l' : List ℕ} {el : List Slot} {cur e : Slot}

/-! ## `env_alloc` -/

/-- The environment that `env_alloc` leaves in slot `e`. -/
def freshEnv (env : Env) (e : Slot) (parentId : Word) (d : ℕ) : Env :=
  { env with
    envPgdir := some d
    envId := nextEnvId env.envId e
    envParentId := parentId
    envStatus := .runnable
    envRuns := 0
    envTf := newTf
    envPgfaultUpcall := 0
    envIpcRecving := false }

section SetUp

variable {p : ℕ} {m' : Mem}

/-- The invariant after slot `e` got the new directory `p`. -/
theorem Inv.of_setUp (h : Inv B M s l el) {el' : List Slot} {parentId : Word} (hel : el = e :: el')
    (hpl : p ∈ l) (hown : Own B M m' (Function.update s.dirs e (some p)) ∅ l')
    (hsu : SetUp B s.mem m' p) (hmem : s'.mem = m')
    (hdirs : s'.dirs = Function.update s.dirs e (some p))
    (henve : s'.envs e = freshEnv (s.envs e) e parentId p)
    (henv : ∀ e', e' ≠ e → s'.envs e' = s.envs e')
    (hflist : s'.envFreeList = (s.envs e).envLink) : Inv B M s' l' el' := by
  have hin := h.own.inert_of_mem_list hpl
  have hchain := h.chain
  rw [hel] at hchain
  have hnd := List.nodup_cons.mp hchain.nodup
  have hne : ∀ e', e' ∈ el' → e' ≠ e := by
    rintro e' he' rfl
    exact hnd.1 he'
  refine ⟨by rw [hmem, hdirs]; exact hown, fun e' he' ↦ ?_, fun e' d hd ↦ ?_, ?_, fun e' ↦ ?_⟩
  · by_cases hee : e' = e
    · rw [hee, henve]
      exact Option.some_ne_none p
    · rw [henv e' hee]
      exact h.pgdir e' (by rw [Kern.Live, henv e' hee] at he'; exact he')
  · rw [hmem]
    rw [hdirs] at hd
    by_cases hee : e' = e
    · rw [hee, Function.update_self] at hd
      exact Option.some.inj hd ▸ hsu.half
    · rw [Function.update_of_ne hee] at hd
      exact (h.half e' d hd).of_upper (hsu.other _ hin.ne_kern) fun i _ ↦ by
        rw [hsu.other d (hin.ne_dir hd)]
  · have hhead : s.envFreeList = some e := hchain.head_eq
    rw [hhead] at hchain
    obtain ⟨t, ht, hpop⟩ := hchain.pop
    obtain rfl : el' = t := (List.cons.inj ht).2
    rw [hflist]
    exact hpop.congr fun e' he' ↦ by rw [henv e' (hne e' he')]
  · have hmem' := h.mem_el e'
    by_cases hee : e' = e
    · subst hee
      simp [henve, freshEnv, hnd.1]
    · rw [henv e' hee, ← hmem', hel]
      simp [hee]

/-- A new address space is empty. -/
theorem SetUp.space_eq_none {m : Mem} (hsu : SetUp B m s'.mem p) (hd : s'.dirs e = some p) (v : ℕ) :
    s'.space e v = none := by
  by_contra hc
  obtain ⟨⟨q, f⟩, hq⟩ := Option.ne_none_iff_exists'.mp hc
  obtain ⟨d, hd', hv, htr⟩ := Kern.space_eq_some.mp hq
  obtain rfl := Option.some.inj (hd.symm.trans hd')
  have hno : tableOf s'.mem p (v / 1024) = none := by
    rw [tableOf, hsu.empty _ (div_lt_NUPDE hv)]
    exact entryFrame_zero
  rw [translate, pteOf_of_no_table hno] at htr
  exact absurd htr (by simp)

/-- The effect of a new directory on memory. -/
theorem Inv.evolve_setUp (h : Inv B M s l el) (hpl : p ∈ l) (hsu : SetUp B s.mem m' p)
    (htar : target B m' (Function.update s.dirs e (some p)) =
      Function.update (target B s.mem s.dirs) (.dir e) (some p))
    (hmem : s'.mem = m') (hdirs : s'.dirs = Function.update s.dirs e (some p))
    (hdir : s.dirs e = none) : Evolve B s s' l {e} ∅ := by
  have hin := h.own.inert_of_mem_list hpl
  have hspace : ∀ e', e' ≠ e → s'.space e' = s.space e' := by
    intro e' he'
    have hd' : s'.dirs e' = s.dirs e' := by rw [hdirs, Function.update_of_ne he']
    funext v
    by_cases hv : v < NUPG
    · cases hd : s.dirs e' with
      | none => simp [Kern.space, addrSpaces, hd', hd]
      | some d =>
          rw [Kern.space_eq (hd'.trans hd) hv, Kern.space_eq hd hv, hmem]
          exact congrArg entry (hin.pteOf_eq hsu.other hd hv)
    · simp [Kern.space, addrSpaces, hv]
  refine ⟨?_, fun e' he' ↦ ⟨by rw [hdirs, Function.update_of_ne he'], hspace e' he'⟩,
    fun e' v q f hq ↦ ?_, fun q ↦ ?_, fun e' d i hd hi ↦ ?_⟩
  · rw [hmem]
    refine .of_frame hsu.other hin.ne_kern fun i y h1 h2 h3 hy hc ↦ ?_
    have hpos : 0 < owners (target B s.mem s.dirs) y := owners_pos (target_kern h1 h2 h3 hy)
    exact h.own.ledger.notMem_of_pos hpos (hc ▸ hpl)
  · by_cases he' : e' = e
    · have hd : s'.dirs e = some p := by rw [hdirs, Function.update_self]
      rw [he', (hmem ▸ hsu : SetUp B s.mem s'.mem p).space_eq_none hd] at hq
      cases hq
    · exact .inl (by rwa [hspace e' he'] at hq)
  · have hrefs : s'.refs B q = s.refs B q + if q = p then 1 else 0 := by
      have hk : target B s.mem s.dirs (.dir e) = none := hdir
      rw [Kern.refs, hmem, hdirs, htar, owners_set hk]
      rfl
    rw [hrefs]
    by_cases hqp : q = p
    · refine .inr (.inl ?_)
      rw [hqp, Kern.refs, h.own.owners_of_mem_list hpl]
      simp
    · exact .inl (by simp [hqp])
  · by_cases he' : e' = e
    · obtain rfl : d = p := by
        rw [he', hdirs, Function.update_self] at hd
        exact (Option.some.inj hd).symm
      refine .inl ?_
      rw [hmem, hsu.empty i hi]
      exact openPde_zero
    · rw [hdirs, Function.update_of_ne he'] at hd
      exact .inr ⟨hd, by rw [hmem, hsu.other d (hin.ne_dir hd)]⟩

end SetUp

/-- `env_alloc` takes the head of the list of free environments, unless there is none, or no
free page for its directory; then it changes nothing. -/
theorem Inv.envAlloc_spec (h : Inv B M s l el) (parentId : Word) :
    (∃ r, (r.toInt < 0 ∧ (el = [] ∨ l = [])) ∧ envAlloc B s parentId = some (.error r, s)) ∨
    ∃ e el' d l' s', el = e :: el' ∧ l = d :: l' ∧ envAlloc B s parentId = some (.ok e, s') ∧
      s'.envs e = freshEnv (s.envs e) e parentId d ∧ (∀ e', e' ≠ e → s'.envs e' = s.envs e') ∧
      Inv B M s' l' el' ∧ Evolve B s s' l {e} ∅ ∧ SetUp B s.mem s'.mem d := by
  have hhead := h.chain.head_eq
  cases hel : el with
  | nil =>
      rw [hel] at hhead
      exact .inl ⟨-E_NO_FREE_ENV, ⟨by decide, .inl rfl⟩,
        by simp [envAlloc, show s.envFreeList = none from hhead]⟩
  | cons e el' =>
      rw [hel] at hhead
      have hlist : s.envFreeList = some e := hhead
      have hfree : (s.envs e).envStatus = .free := (h.mem_el e).mp (by simp [hel])
      have hdir : s.dirs e = none := by simp [Kern.dirs, hfree]
      rcases h.own.envSetupVm_spec hdir with ⟨hl, hset⟩ | ⟨p, l', m', hl, hset, hown, hsu, htar⟩
      · exact .inl ⟨-E_NO_MEM, ⟨by decide, .inr hl⟩, by simp [envAlloc, hlist, hset]⟩
      · have hpl : p ∈ l := by simp [hl]
        have hin := h.own.inert_of_mem_list hpl
        obtain ⟨s', hs', henve, henv, hmem, hflist⟩ : ∃ s' : Kern,
            envAlloc B s parentId = some (.ok e, s') ∧
            s'.envs e = freshEnv (s.envs e) e parentId p ∧
            (∀ e', e' ≠ e → s'.envs e' = s.envs e') ∧ s'.mem = m' ∧
            s'.envFreeList = (s.envs e).envLink := by
          refine ⟨{ (s.setMem m').modEnv e fun env ↦ freshEnv env e parentId p with
            envFreeList := (s.envs e).envLink }, ?_, ?_, fun e' he' ↦ ?_, rfl, rfl⟩
          · simp [envAlloc, hlist, hset, freshEnv]
          · simp [Kern.modEnv]
          · simp [Kern.modEnv, he']
        have hdirs : s'.dirs = Function.update s.dirs e (some p) := by
          funext e'
          by_cases he' : e' = e
          · subst he'
            simp [Kern.dirs, henve, freshEnv]
          · simp only [Kern.dirs, henv e' he', Function.update_of_ne he']
        refine .inr ⟨e, el', p, l', s', rfl, hl, hs', henve, henv, ?_, ?_, hmem ▸ hsu⟩
        · exact h.of_setUp hel hpl hown hsu hmem hdirs henve henv hflist
        · exact h.evolve_setUp hpl hsu htar hmem hdirs hdir

/-! ## `env_free` and `env_destroy` -/

/-- What `env_free` leaves in a slot, with `o` the next free environment. -/
def freedEnv (env : Env) (o : Option Slot) : Env :=
  { env with envPgdir := none, envStatus := .free, envLink := o }

/-- `env_free` of a live environment puts it on the list of free environments. -/
theorem Inv.envFree_spec (h : Inv B M s l el) (hb : Bounded B s.mem s.dirs) (he : s.Live e) :
    ∃ s', envFree B s e = some s' ∧ s'.envs e = freedEnv (s.envs e) s.envFreeList ∧
      After B M s l {e} ∅ s' := by
  obtain ⟨d, hd, hpg⟩ := h.live_dir he
  obtain ⟨m₁, m', l', hloop, hpa, hdec, hown, hsh, hphys, htar⟩ := h.own.envFree_mem_spec hb hd
  obtain ⟨s', hs', henve, henv, hmem, hflist⟩ : ∃ s' : Kern, envFree B s e = some s' ∧
      s'.envs e = freedEnv (s.envs e) s.envFreeList ∧
      (∀ e', e' ≠ e → s'.envs e' = s.envs e') ∧ s'.mem = m' ∧ s'.envFreeList = some e := by
    refine ⟨{ (s.setMem m').modEnv e fun env ↦ freedEnv env s.envFreeList with
      envFreeList := some e }, ?_, ?_, fun e' he' ↦ ?_, rfl, rfl⟩
    · simp only [envFree, hpg, Option.bind_eq_bind, Option.bind_some, hloop, hpa, hdec]
      rfl
    · simp [Kern.modEnv]
    · simp [Kern.modEnv, he']
  have hdirs : s'.dirs = Function.update s.dirs e none := by
    funext e'
    by_cases he' : e' = e
    · subst he'
      simp [Kern.dirs, henve, freedEnv]
    · simp only [Kern.dirs, henv e' he', Function.update_of_ne he']
  have hdne : ∀ {e' d'}, e' ≠ e → s'.dirs e' = some d' → s.dirs e' = some d' := by
    intro e' d' he' hd'
    rwa [hdirs, Function.update_of_ne he'] at hd'
  have heq : ∀ {e' d'}, s'.dirs e' = some d' → e' ≠ e := by
    rintro e' d' hd' rfl
    rw [hdirs, Function.update_self] at hd'
    cases hd'
  have hkern : KernSame B s.mem s'.mem := by
    rw [hmem]
    exact ⟨by rw [hphys]; exact hsh.kern.pgdir, fun i x h1 h2 h3 hx ↦ by
      rw [hphys]; exact hsh.kern.tables i x h1 h2 h3 hx⟩
  have hnot : e ∉ el := fun hm ↦ he ((h.mem_el e).mp hm)
  have hspace : ∀ e', e' ≠ e → s'.space e' = s.space e' := by
    intro e' he'
    have hd' : s'.dirs e' = s.dirs e' := by rw [hdirs, Function.update_of_ne he']
    funext v
    by_cases hv : v < NUPG
    · cases hd : s.dirs e' with
      | none => simp [Kern.space, addrSpaces, hd', hd]
      | some d' =>
          rw [Kern.space_eq (hd'.trans hd) hv, Kern.space_eq hd hv, hmem, translate,
            pteOf_congr hphys]
          exact hsh.others e' d' hd he' v hv
    · simp [Kern.space, addrSpaces, hv]
  refine ⟨s', hs', henve, l', e :: el, ⟨?_, fun e' he' ↦ ?_, fun e' d' hd' ↦ ?_, ?_, fun e' ↦ ?_⟩,
    ⟨hkern, fun e' he' ↦ ⟨by rw [hdirs, Function.update_of_ne he'], hspace e' he'⟩,
      fun e' v p f hp ↦ ?_, fun p ↦ .inl ?_, fun e' d' i hd' _ ↦ .inr ⟨hdne (heq hd') hd', ?_⟩⟩,
    henv⟩
  · rw [hmem, hdirs]
    exact hown
  · by_cases hee : e' = e
    · rw [Kern.Live, hee, henve] at he'
      exact absurd rfl he'
    · rw [henv e' hee]
      exact h.pgdir e' (by rw [Kern.Live, henv e' hee] at he'; exact he')
  · refine (h.half e' d' (hdne (heq hd') hd')).of_upper hkern.pgdir fun i hi ↦ ?_
    rw [hmem, hphys]
    exact hsh.upper e' d' (hdne (heq hd') hd') i hi
  · rw [hflist]
    have hpush := h.chain.push hnot
    refine hpush.congr fun e' he' ↦ ?_
    by_cases hee : e' = e
    · rw [hee, henve, Function.update_self]
      rfl
    · rw [henv e' hee, Function.update_of_ne hee]
  · by_cases hee : e' = e
    · subst hee
      simp [henve, freedEnv]
    · rw [henv e' hee, ← h.mem_el e']
      simp [hee]
  · obtain ⟨d', hd', -⟩ := Kern.space_eq_some.mp hp
    exact .inl (by rwa [hspace e' (heq hd')] at hp)
  · rw [Kern.refs, hmem, hdirs, htar]
    exact (owners_clear_le _ _ p).trans (hsh.owners p)
  · -- the directories of two environments differ, and none is a table
    have hd₀ := hdne (heq hd') hd'
    have hne : d' ≠ d := by
      rintro rfl
      exact heq hd' (h.own.dir_inj hd hd₀)
    rw [hmem, hphys, hsh.frame d hd d' hne fun j hj ht ↦ h.own.table_ne_dir hd hj ht hd₀ rfl]

/-- `env_destroy` frees the environment, or marks it as dying. -/
theorem Inv.envDestroy_spec (h : Inv B M s l el) (hb : Bounded B s.mem s.dirs) (he : s.Live e)
    (cur : Option Slot) :
    ∃ c s', envDestroy B s cur e = some (c, s') ∧ After B M s l {e} ∅ s' := by
  by_cases hrun : (s.envs e).envStatus = .running ∧ cur ≠ some e
  · refine ⟨.ret (), s.modEnv e fun env ↦ { env with envStatus := .dying },
      by simp [envDestroy, hrun], ?_⟩
    exact (After.refl h).modEnv (Set.mem_singleton e) (by simp [he.ne_free]) rfl rfl
  · obtain ⟨s', hs', -, hafter⟩ := h.envFree_spec hb he
    by_cases hcur : cur = some e
    · exact ⟨.yield none, s', by simp [envDestroy, hcur, hs'], hafter⟩
    · refine ⟨.ret (), s', ?_, hafter⟩
      rw [envDestroy, if_neg hrun, hs']
      simp [hcur]

/-- `sys_exofork` makes a child of the caller in a free slot. -/
theorem Inv.sysExofork_spec (h : Inv B M s l el) (cur : Slot) :
    ∃ r s', sysExofork B s cur = some (r, s') ∧
      After B M s l {e | (s.envs e).envStatus = .free} ∅ s' := by
  rcases h.envAlloc_spec (s.envs cur).envId with
    ⟨r, -, halloc⟩ | ⟨e, el', d, l', s', hel, -, halloc, henve, henv, hinv, hev, -⟩
  · exact ⟨r, s, by simp [sysExofork, halloc], .refl h⟩
  · have hafter : After B M s l {e} ∅ s' := ⟨l', el', hinv, hev, henv⟩
    have hfree : (s.envs e).envStatus = .free := (h.mem_el e).mp (by simp [hel])
    refine ⟨_, _, by simp only [sysExofork, halloc]; rfl, (hafter.modEnv (Set.mem_singleton e)
      ?_ rfl rfl).mono ?_ subset_rfl⟩
    · simp [henve, freshEnv]
    · rintro _ rfl
      exact hfree

/-! ## Any system call -/

/-- The environments a system call may change: the caller, its children and free slots, or the
receiver of a message. -/
def Touched (s : Kern) (cur : Slot) (no a1 : Word) : Set Slot :=
  if sysNo no = some .ipcTrySend then {e | envid2env s cur a1 false = some e}
  else Mine s cur ∪ {e | (s.envs e).envStatus = .free}

/-- The mapped pages to which a system call adds a reference. -/
def Shared (s : Kern) (cur : Slot) (no a1 a2 a3 a4 a5 : Word) : Set ℕ :=
  {p | sysNo no = some .pageMap ∧ MapsPage s cur a1 a2 a3 a4 a5 p ∨
    sysNo no = some .ipcTrySend ∧ SendsPage s cur a1 a3 a4 p}

section Syscall

variable (h : Inv B M s l el) (hb : Bounded B s.mem s.dirs) (hc : s.Live cur)

include h hb hc

omit h hb hc in
/-- An environment that destroys itself does not return. -/
theorem envDestroy_self {c : Ctl Unit} (hrun : envDestroy B s (some cur) cur = some (c, s')) :
    c = .yield none ∧ envFree B s cur = some s' := by
  cases hf : envFree B s cur with
  | none => simp [envDestroy, hf] at hrun
  | some s₁ =>
      simp only [envDestroy, hf, ne_eq, not_true_eq_false, and_false, if_false, if_true,
        Option.bind_eq_bind, Option.bind_some, Option.pure_def, Option.some.injEq,
        Prod.mk.injEq] at hrun
      exact ⟨hrun.1.symm, by rw [hrun.2]⟩

omit h hb hc in
/-- `user_mem_assert` returns and changes nothing, or destroys the environment. -/
theorem userMemAssert_cases {va len perm : Word} {c : Ctl Unit}
    (hrun : userMemAssert B s cur va len perm = some (c, s')) :
    (c = .ret () ∧ s' = s) ∨ (c = .yield none ∧ envFree B s cur = some s') := by
  cases hpg : (s.envs cur).envPgdir with
  | none => simp [userMemAssert, hpg] at hrun
  | some d =>
      cases hcheck : userMemCheck B s.mem d va len (perm ||| PTE_U) with
      | none => simp [userMemAssert, hpg, hcheck] at hrun
      | some o =>
          cases o with
          | none =>
              simp only [userMemAssert, hpg, hcheck, Option.bind_eq_bind, Option.bind_some,
                Option.pure_def, Option.some.injEq, Prod.mk.injEq] at hrun
              exact .inl ⟨hrun.1.symm, hrun.2.symm⟩
          | some a =>
              simp only [userMemAssert, hpg, hcheck, Option.bind_eq_bind,
                Option.bind_some] at hrun
              exact .inr (envDestroy_self hrun)

omit h hb hc in
/-- So does `sys_cputs`. -/
theorem sysCputs_cases {str len : Word} {c : Ctl Unit}
    (hrun : sysCputs B s cur str len = some (c, s')) :
    (c = .ret () ∧ s' = s) ∨ (c = .yield none ∧ envFree B s cur = some s') := by
  cases hassert : userMemAssert B s cur str len PTE_P with
  | none => simp [sysCputs, hassert] at hrun
  | some x =>
      obtain ⟨c₁, s₁⟩ := x
      rcases userMemAssert_cases hassert with ⟨rfl, rfl⟩ | ⟨rfl, hfree⟩
      · left
        simp only [sysCputs, hassert, Option.bind_eq_bind, Option.bind_some,
          Option.bind_eq_some_iff, Option.pure_def, Option.some.injEq, Prod.mk.injEq] at hrun
        obtain ⟨d, -, u, -, hc, hs⟩ := hrun
        exact ⟨hc.symm, hs.symm⟩
      · right
        simp only [sysCputs, hassert, Option.bind_eq_bind, Option.bind_some, Option.pure_def,
          Option.some.injEq, Prod.mk.injEq] at hrun
        exact ⟨hrun.1.symm, by rw [← hrun.2]; exact hfree⟩

theorem Inv.sysCputs_spec {str len : Word} {c : Ctl Unit}
    (hrun : sysCputs B s cur str len = some (c, s')) : After B M s l {cur} ∅ s' := by
  rcases sysCputs_cases hrun with ⟨-, rfl⟩ | ⟨-, hfree⟩
  · exact .refl h
  · obtain ⟨s₁, hs₁, -, hafter⟩ := h.envFree_spec hb hc
    obtain rfl := Option.some.inj (hfree.symm.trans hs₁)
    exact hafter

theorem Inv.sysEnvDestroy_spec (envid : Word) :
    ∃ c s', sysEnvDestroy B s cur envid = some (c, s') ∧ After B M s l (Mine s cur) ∅ s' := by
  cases he : envid2env s cur envid true with
  | none => exact ⟨.ret (-E_BAD_ENV), s, by simp [sysEnvDestroy, he], .refl h⟩
  | some e =>
      obtain ⟨c, s', hdes, hafter⟩ := h.envDestroy_spec hb (envid2env_live hc he) (some cur)
      have hT : ({e} : Set Slot) ⊆ Mine s cur := by
        rintro _ rfl
        exact envid2env_mine he
      cases c with
      | ret u => exact ⟨.ret 0, s', by simp [sysEnvDestroy, he, hdes], hafter.mono hT subset_rfl⟩
      | yield o =>
          exact ⟨.yield o, s', by simp [sysEnvDestroy, he, hdes], hafter.mono hT subset_rfl⟩

omit hb in
theorem Inv.sysEnvSetStatus_spec (envid status : Word) :
    After B M s l (Mine s cur) ∅ (sysEnvSetStatus s cur envid status).2 := by
  cases he : envid2env s cur envid true with
  | none => simpa [sysEnvSetStatus, he] using After.refl h
  | some e =>
      have hlive := (envid2env_live hc he).ne_free
      have hm := envid2env_mine he
      simp only [sysEnvSetStatus, he]
      split
      · exact (After.refl h).modEnv (f := fun env ↦ { env with envStatus := .runnable }) hm
          (by simp [hlive]) rfl rfl
      · split
        · exact (After.refl h).modEnv (f := fun env ↦ { env with envStatus := .notRunnable }) hm
            (by simp [hlive]) rfl rfl
        · exact .refl h

omit hb hc in
theorem Inv.sysEnvSetPgfaultUpcall_spec (cur : Slot) (envid func : Word) :
    After B M s l (Mine s cur) ∅ (sysEnvSetPgfaultUpcall s cur envid func).2 := by
  cases he : envid2env s cur envid true with
  | none => simpa [sysEnvSetPgfaultUpcall, he] using After.refl h
  | some e =>
      simp only [sysEnvSetPgfaultUpcall, he]
      exact (After.refl h).modEnv (envid2env_mine he) Iff.rfl rfl rfl

omit hb in
theorem Inv.sysIpcRecv_spec (dstva : Word) :
    After B M s l {cur} ∅ (sysIpcRecv s cur dstva).2 := by
  rw [sysIpcRecv]
  split
  · exact .refl h
  · exact (After.refl h).modEnv (f := fun env ↦ { env with
      envIpcRecving := true, envIpcDstva := dstva, envStatus := .notRunnable })
      (Set.mem_singleton cur) (by simp [hc.ne_free]) rfl rfl

omit h hb hc in
theorem returned_eq {x : Option (Word × Kern)} {c : Ctl Word}
    (hx : returned x = some (c, s')) : ∃ r, c = .ret r ∧ x = some (r, s') := by
  obtain ⟨⟨r, s₁⟩, hx₁, hx₂⟩ := Option.map_eq_some_iff.mp hx
  obtain ⟨rfl, rfl⟩ := Prod.mk.inj hx₂
  exact ⟨r, rfl, hx₁⟩

/-- The effect of any system call that leaves the kernel alive. -/
theorem Inv.syscall_spec {getc no a1 a2 a3 a4 a5 : Word} {c : Ctl Word}
    (hrun : syscall B s cur getc no a1 a2 a3 a4 a5 = some (c, s')) :
    After B M s l (Touched s cur no a1) (Shared s cur no a1 a2 a3 a4 a5) s' := by
  have mine : ∀ {S : Set ℕ} {s₁ : Kern} {T : Set Slot}, sysNo no ≠ some .ipcTrySend →
      T ⊆ Mine s cur ∪ {e | (s.envs e).envStatus = .free} → After B M s l T ∅ s₁ →
      After B M s l (Touched s cur no a1) S s₁ := by
    intro S s₁ T hno hT haft
    rw [Touched, if_neg hno]
    exact haft.mono hT (Set.empty_subset S)
  have self : ({cur} : Set Slot) ⊆ Mine s cur ∪ {e | (s.envs e).envStatus = .free} := by
    rintro _ rfl
    exact .inl (.inl rfl)
  rw [syscall] at hrun
  cases hno : sysNo no with
  | none =>
      simp only [hno, Option.some.injEq, Prod.mk.injEq] at hrun
      exact hrun.2 ▸ .refl h
  | some n =>
  rw [hno] at hrun mine
  have mine' : ∀ {S : Set ℕ} {s₁ : Kern}, n ≠ .ipcTrySend → After B M s l (Mine s cur) ∅ s₁ →
      After B M s l (Touched s cur no a1) S s₁ := fun hn haft ↦
    mine (by simpa using hn) Set.subset_union_left haft
  cases n with
  | cputs =>
      cases hs : sysCputs B s cur a1 a2 with
      | none => simp [hs] at hrun
      | some x =>
          obtain ⟨c₁, s₁⟩ := x
          have : s' = s₁ := by cases c₁ <;> simp_all
          exact this ▸ mine (by simp) self (h.sysCputs_spec hb hc hs)
  | cgetc =>
      simp only [Option.some.injEq, Prod.mk.injEq] at hrun
      exact hrun.2 ▸ .refl h
  | getenvid =>
      simp only [Option.some.injEq, Prod.mk.injEq] at hrun
      exact hrun.2 ▸ .refl h
  | yield =>
      simp only [Option.some.injEq, Prod.mk.injEq] at hrun
      exact hrun.2 ▸ .refl h
  | envDestroy =>
      obtain ⟨c₁, s₁, hs, hafter⟩ := h.sysEnvDestroy_spec hb hc a1
      obtain ⟨-, rfl⟩ := Prod.mk.inj (Option.some.inj (hrun.symm.trans hs))
      exact mine' (by simp) hafter
  | pageAlloc =>
      obtain ⟨r, -, hs⟩ := returned_eq hrun
      obtain ⟨r₁, s₁, hs₁, hafter⟩ := (h.sysPageAlloc_spec hb hc a1 a2 a3).after
      obtain ⟨-, rfl⟩ := Prod.mk.inj (Option.some.inj (hs.symm.trans hs₁))
      exact mine' (by simp) hafter
  | pageMap =>
      obtain ⟨r, -, hs⟩ := returned_eq hrun
      obtain ⟨r₁, s₁, hs₁, hafter⟩ := (h.sysPageMap_spec hb hc a1 a2 a3 a4 a5).after
      obtain ⟨-, rfl⟩ := Prod.mk.inj (Option.some.inj (hs.symm.trans hs₁))
      rw [Touched, if_neg (by rw [hno]; simp)]
      exact hafter.mono Set.subset_union_left fun p hp ↦ .inl ⟨hno, hp⟩
  | pageUnmap =>
      obtain ⟨r, -, hs⟩ := returned_eq hrun
      obtain ⟨r₁, s₁, hs₁, hafter⟩ := (h.sysPageUnmap_spec hb hc a1 a2).after
      obtain ⟨-, rfl⟩ := Prod.mk.inj (Option.some.inj (hs.symm.trans hs₁))
      exact mine' (by simp) hafter
  | exofork =>
      obtain ⟨r, -, hs⟩ := returned_eq hrun
      obtain ⟨r₁, s₁, hs₁, hafter⟩ := h.sysExofork_spec cur
      obtain ⟨-, rfl⟩ := Prod.mk.inj (Option.some.inj (hs.symm.trans hs₁))
      exact mine (by simp) Set.subset_union_right hafter
  | envSetStatus =>
      obtain ⟨r, -, hs⟩ := returned_eq hrun
      have hs₁ := h.sysEnvSetStatus_spec hc a1 a2
      rw [Option.some.inj hs] at hs₁
      exact mine' (by simp) hs₁
  | envSetPgfaultUpcall =>
      obtain ⟨r, -, hs⟩ := returned_eq hrun
      have hs₁ := h.sysEnvSetPgfaultUpcall_spec cur a1 a2
      rw [Option.some.inj hs] at hs₁
      exact mine' (by simp) hs₁
  | ipcTrySend =>
      obtain ⟨r, -, hs⟩ := returned_eq hrun
      obtain ⟨r₁, s₁, hs₁, hafter⟩ := h.sysIpcTrySend_spec hb hc a1 a2 a3 a4
      obtain ⟨-, rfl⟩ := Prod.mk.inj (Option.some.inj (hs.symm.trans hs₁))
      rw [Touched, if_pos hno]
      exact hafter.mono subset_rfl fun p hp ↦ .inr ⟨hno, hp⟩
  | ipcRecv =>
      have hs₁ := h.sysIpcRecv_spec hc a1
      rw [Option.some.inj hrun] at hs₁
      exact mine (by simp) self hs₁

end Syscall

end Jos
