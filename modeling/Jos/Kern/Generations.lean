import Jos.Kern.Effect
import Jos.Kern.Booted

/-!
# The generations of a slot

`env_alloc` counts the generations of a slot up, and starts again with 1 when the sign bit is
reached.  So the ids of a slot go round in a cycle of 524287, and an id is not used again until the
slot has been given away that often.

An `EnvRun` is any sequence of `env_alloc` and `env_free`, with anything in between that leaves
alone the ids and which environments are free.
-/

namespace Jos

open Jos.Lib

variable {B : Machine} {k k' k₀ : Kern} {e e' : Slot} {log : List Slot} {g n : ℕ}

/-! ## The cycle -/

/-- The number of generations. -/
def NGEN : ℕ := 524287

/-- The `n`-th generation after `g`. -/
def genAfter (g n : ℕ) : ℕ := (g - 1 + n) % NGEN + 1

theorem genAfter_pos (g n : ℕ) : 0 < genAfter g n := Nat.succ_pos _

theorem genAfter_lt (g n : ℕ) : genAfter g n < 524288 :=
  Nat.succ_lt_succ (Nat.mod_lt _ (by decide))

theorem genAfter_zero (h : 0 < g) (hg : g < 524288) : genAfter g 0 = g := by
  rw [genAfter, NGEN]
  omega

/-- The generations of one round are different. -/
theorem genAfter_ne (h : 0 < g) (hg : g < 524288) (hn : 0 < n) (hlt : n < NGEN) :
    genAfter g n ≠ g := by
  rw [NGEN] at hlt
  rw [genAfter, NGEN]
  omega

/-- `env_alloc` takes a slot to its next generation. -/
theorem nextEnvId_genAfter (e : Slot) :
    nextEnvId (genId (genAfter g n) e) e = genId (genAfter g (n + 1)) e := by
  have hlt := genAfter_lt g n
  by_cases hwrap : genAfter g n + 1 < 524288
  · rw [nextEnvId_genId hwrap]
    congr 1
    rw [genAfter, NGEN] at hwrap
    rw [genAfter, genAfter, NGEN]
    omega
  · -- the sign bit is set
    have hlast : genAfter g n = 524287 := by omega
    have hfirst : genAfter g (n + 1) = 1 := by
      rw [genAfter, NGEN] at hlast
      rw [genAfter, NGEN]
      omega
    obtain ⟨x, hx, -, hx', hcase⟩ := nextEnvId_toNat (genId 524287 e) e
    have he : e.val < 1024 := e.isLt
    rw [hlast, hfirst]
    refine BitVec.eq_of_toNat_eq ?_
    rw [hx, genId, BitVec.toNat_ofNat]
    rw [genId, BitVec.toNat_ofNat] at hcase
    omega

/-! ## Runs -/

/-- One step of the life of `envs`, with the slot that it gives away. -/
inductive EnvStep (B : Machine) : Kern → List Slot → Kern → Prop
  | alloc {k k' : Kern} {parentId : Word} {e : Slot}
      (run : envAlloc B k parentId = some (.ok e, k')) : EnvStep B k [e] k'
  | fail {k k' : Kern} {parentId r : Word}
      (run : envAlloc B k parentId = some (.error r, k')) : EnvStep B k [] k'
  | free {k k' : Kern} {e : Slot} (run : envFree B k e = some k') : EnvStep B k [] k'
  | other {k k' : Kern} (ids : ∀ e, (k'.envs e).envId = (k.envs e).envId)
      (live : ∀ e, k'.Live e ↔ k.Live e) : EnvStep B k [] k'

/-- Any number of steps, with the slots that they give away. -/
inductive EnvRun (B : Machine) : Kern → List Slot → Kern → Prop
  | refl (k : Kern) : EnvRun B k [] k
  | tail {k k' k'' : Kern} {log log' : List Slot} (run : EnvRun B k log k')
      (step : EnvStep B k' log' k'') : EnvRun B k (log ++ log') k''

/-- Slot `e` was never given away, or it is in generation `g`. -/
def Gen (k : Kern) (e : Slot) : Prop :=
  ((k.envs e).envId = 0 ∧ ¬ k.Live e) ∨ ∃ g, 0 < g ∧ g < 524288 ∧ (k.envs e).envId = genId g e

theorem envAlloc_ids {parentId : Word} (h : envAlloc B k parentId = some (.ok e, k')) :
    (k'.envs e).envId = nextEnvId (k.envs e).envId e ∧ ∀ e', e' ≠ e → k'.envs e' = k.envs e' := by
  rcases envAlloc_eq h with ⟨w, m, hr, -⟩ | ⟨e₁, d, m, -, hr, rfl⟩
  · cases hr
  · obtain rfl := Except.ok.inj hr
    refine ⟨by simp [Kern.modEnv], fun e' he' ↦ ?_⟩
    simp [Kern.modEnv, he']

theorem envAlloc_failed {parentId r : Word} (h : envAlloc B k parentId = some (.error r, k')) :
    k'.envs = k.envs := by
  rcases envAlloc_eq h with ⟨w, m, -, rfl, -⟩ | ⟨e₁, d, m, -, hr, -⟩
  · rfl
  · cases hr

theorem envFree_ids (h : envFree B k e = some k') :
    (∀ e', (k'.envs e').envId = (k.envs e').envId) ∧ ¬ k'.Live e ∧
      ∀ e', e' ≠ e → k'.envs e' = k.envs e' := by
  obtain ⟨-, m, rfl⟩ := envFree_eq h
  refine ⟨fun e' ↦ ?_, ?_, fun e' he' ↦ k.freed_of_ne m he'⟩
  · by_cases he' : e' = e
    · rw [he', Kern.freed_self]
      rfl
    · rw [k.freed_of_ne m he']
  · rw [Kern.Live, Kern.freed_self]
    exact fun hc ↦ hc rfl

namespace EnvStep

/-- The generation of a slot in use counts how often it is given away. -/
theorem generation (step : EnvStep B k log k')
    (h : (k.envs e).envId = genId (genAfter g n) e) :
    (k'.envs e).envId = genId (genAfter g (n + log.count e)) e := by
  cases step with
  | @alloc _ _ e₁ run =>
      obtain ⟨hid, hoth⟩ := envAlloc_ids run
      by_cases he : e = e₁
      · subst he
        rw [hid, h, nextEnvId_genAfter, List.count_singleton_self]
      · rw [hoth e he, h, List.count_singleton, if_neg (by simpa using Ne.symm he), Nat.add_zero]
  | fail run =>
      rw [envAlloc_failed run, h]
      rfl
  | free run =>
      rw [(envFree_ids run).1, h]
      rfl
  | other ids live =>
      rw [ids, h]
      rfl

/-- What is not given away does not come to life. -/
theorem not_live (step : EnvStep B k log k') (he : e ∉ log) (h : ¬ k.Live e) : ¬ k'.Live e := by
  cases step with
  | alloc run =>
      rw [Kern.Live, (envAlloc_ids run).2 e fun hc ↦ he (hc ▸ List.mem_cons_self)]
      exact h
  | fail run =>
      rw [Kern.Live, envAlloc_failed run]
      exact h
  | @free _ e₁ run =>
      by_cases hee : e = e₁
      · exact hee ▸ (envFree_ids run).2.1
      · rw [Kern.Live, (envFree_ids run).2.2 e hee]
        exact h
  | other ids live => exact mt (live e).mp h

theorem gen (step : EnvStep B k log k') (h : Gen k e) : Gen k' e := by
  rcases h with ⟨hid, hlive⟩ | ⟨g, hg, hlt, hid⟩
  swap
  · rw [← genAfter_zero hg hlt] at hid
    exact .inr ⟨_, genAfter_pos _ _, genAfter_lt _ _, step.generation hid⟩
  by_cases he : e ∈ log
  · -- the first generation
    cases step with
    | alloc run =>
        obtain rfl := List.mem_singleton.mp he
        refine .inr ⟨1, by decide, by decide, ?_⟩
        rw [(envAlloc_ids run).1, hid, nextEnvId_zero]
    | _ => cases he
  · refine .inl ⟨?_, step.not_live he hlive⟩
    cases step with
    | alloc run =>
        rw [(envAlloc_ids run).2 e fun hc ↦ he (hc ▸ List.mem_cons_self), hid]
    | fail run => rw [envAlloc_failed run, hid]
    | free run => rw [(envFree_ids run).1, hid]
    | other ids live => rw [ids, hid]

end EnvStep

namespace EnvRun

theorem gen (run : EnvRun B k log k') (h : Gen k e) : Gen k' e := by
  induction run with
  | refl => exact h
  | tail run step ih => exact step.gen ih

theorem generation (run : EnvRun B k log k') (hg : 0 < g) (hlt : g < 524288)
    (h : (k.envs e).envId = genId g e) :
    (k'.envs e).envId = genId (genAfter g (log.count e)) e := by
  induction run with
  | refl => rw [List.count_nil, genAfter_zero hg hlt, h]
  | tail run step ih =>
      rw [List.count_append]
      exact step.generation ih

theorem not_live (run : EnvRun B k log k') (he : e ∉ log) (h : ¬ k.Live e) : ¬ k'.Live e := by
  induction run with
  | refl => exact h
  | tail run step ih =>
      rw [List.mem_append, not_or] at he
      exact step.not_live he.2 (ih he.1)

theorem trans {k₁ k₂ k₃ : Kern} {log₁ log₂ : List Slot} (run : EnvRun B k₁ log₁ k₂)
    (run' : EnvRun B k₂ log₂ k₃) : EnvRun B k₁ (log₁ ++ log₂) k₃ := by
  induction run' with
  | refl => simpa using run
  | tail run' step ih =>
      rw [← List.append_assoc]
      exact ih.tail step

end EnvRun

/-- After `env_init` no slot has been given away. -/
theorem gen_envInit (k : Kern) (e : Slot) : Gen (envInit k) e := by
  obtain ⟨-, el, h⟩ := envInit_spec k
  obtain ⟨hst, hid⟩ := h.free e ((h.mem_iff e).mpr (Nat.zero_le _))
  exact .inl ⟨hid, fun hc ↦ hc hst⟩

/-- The id of a live environment has a generation. -/
theorem Gen.of_live (h : Gen k e) (hlive : k.Live e) :
    ∃ g, 0 < g ∧ g < 524288 ∧ (k.envs e).envId = genId g e :=
  h.resolve_left fun hc ↦ hc.2 hlive

/-- Who uses slot `e` of generation `g`, when the slot has been given away since. -/
theorem envid2env_stale {id : Word} (hid : id ≠ 0) (hslot : envx id = e)
    (h : ¬ k.Live e ∨ (k.envs e).envId ≠ id) (cur : Slot) (checkperm : Bool) :
    envid2env k cur id checkperm = none := by
  rw [envid2env, if_neg hid]
  subst hslot
  exact if_pos (h.imp_left not_not.mp)

/-- Ids are unambiguous: those of live environments are pairwise different, and the id that
`env_alloc` hands out is positive, names its slot, and is not handed out by the next 524286
allocations of the slot; until then it names nobody once its environment is freed. -/
theorem env_ids_unambiguous (run : EnvRun B (envInit k₀) log k) :
    (∀ e e', k.Live e → k.Live e' → (k.envs e).envId = (k.envs e').envId → e = e') ∧
    ∀ parentId e k₁ id, envAlloc B k parentId = some (.ok e, k₁) → (k₁.envs e).envId = id →
      (0 < id.toInt ∧ envx id = e) ∧
      (∀ log₁ k₂ parentId' k₃, EnvRun B k₁ log₁ k₂ → envAlloc B k₂ parentId' = some (.ok e, k₃) →
        log₁.count e < 524286 → (k₃.envs e).envId ≠ id) ∧
      ∀ log₁ k₂ k₃ log₂ k₄, EnvRun B k₁ log₁ k₂ → envFree B k₂ e = some k₃ →
        EnvRun B k₃ log₂ k₄ → (log₁ ++ log₂).count e ≤ 524286 →
        ∀ cur checkperm, envid2env k₄ cur id checkperm = none := by
  have hgen : ∀ e, Gen k e := fun e ↦ run.gen (gen_envInit k₀ e)
  refine ⟨fun e e' hlive hlive' heq ↦ ?_, fun parentId e k₁ id halloc hid ↦ ?_⟩
  · obtain ⟨g, -, hlt, hg⟩ := (hgen e).of_live hlive
    obtain ⟨g', -, hlt', hg'⟩ := (hgen e').of_live hlive'
    rw [hg, hg'] at heq
    exact (genId_inj hlt hlt' heq).2
  have hnext : id = nextEnvId (k.envs e).envId e := hid.symm.trans (envAlloc_ids halloc).1
  have hpos : 0 < id.toInt := hnext ▸ nextEnvId_pos _ e
  have hslot : envx id = e := hnext ▸ envx_nextEnvId _ e
  have hne : id ≠ 0 := hnext ▸ nextEnvId_ne_zero _ e
  obtain ⟨g, hg, hlt, hgid⟩ : ∃ g, 0 < g ∧ g < 524288 ∧ (k₁.envs e).envId = genId g e := by
    rcases (EnvStep.alloc halloc).gen (hgen e) with ⟨hzero, -⟩ | h
    · exact absurd (hid.symm.trans hzero) hne
    · exact h
  -- the id comes back after a whole round only
  have hdiff : ∀ {log' : List Slot} {k' : Kern}, EnvRun B k₁ log' k' → 0 < log'.count e →
      log'.count e ≤ 524286 → (k'.envs e).envId ≠ id := by
    intro log' k' run' h0 hle hc
    rw [run'.generation hg hlt hgid, ← hid, hgid] at hc
    exact genAfter_ne hg hlt h0 (Nat.lt_succ_of_le hle) (genId_inj (genAfter_lt _ _) hlt hc).1
  refine ⟨⟨hpos, hslot⟩, fun log₁ k₂ parentId' k₃ run₁ halloc' hcount ↦ ?_,
    fun log₁ k₂ k₃ log₂ k₄ run₁ hfree run₂ hcount cur checkperm ↦ ?_⟩
  · refine hdiff (run₁.tail (.alloc halloc')) ?_ ?_
    all_goals
      rw [List.count_append, List.count_singleton_self]
      omega
  · refine envid2env_stale hne hslot ?_ cur checkperm
    by_cases he : e ∈ log₂
    · refine .inr (hdiff ((run₁.tail (.free hfree)).trans run₂) ?_ ?_)
      · rw [List.append_nil, List.count_append]
        exact Nat.add_pos_right _ (List.count_pos_iff.mpr he)
      · rwa [List.append_nil]
    · exact .inl (run₂.not_live he (envFree_ids hfree).2.1)

/-- The first environment. -/
theorem env_ids_unambiguous_first : ∃ k₀ e k₁, EnvRun demoConfig.machine (envInit k₀) [e] k₁ ∧
    0 < (k₁.envs e).envId.toInt ∧ envx (k₁.envs e).envId = e := by
  obtain ⟨base, m, l, el, -, hb, hlen, hall, -⟩ := exists_inited
  rcases hb.inv.envAlloc_spec 0 with ⟨r, ⟨-, hr⟩, -⟩ | ⟨e, el', d, l', k₁, -, -, halloc, -⟩
  · rcases hr with rfl | rfl
    · exact absurd (hall ⟨0, by decide⟩) List.not_mem_nil
    · simp at hlen
  · exact ⟨_, e, k₁, (EnvRun.refl _).tail (.alloc halloc),
      ((env_ids_unambiguous (.refl _)).2 0 e k₁ _ halloc rfl).1⟩

end Jos
