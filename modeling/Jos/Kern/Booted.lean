import Jos.Kern.BootSpec
import Jos.Kern.EnvId

/-!
# From `env_init` to the first environments

`env_init` puts every environment on the free list, and `env_create` makes environments out of
programs.  At boot every page has at most one reference, which is how the calls of `page_insert`
in `load_icode` meet their bound.
-/

namespace Jos

open Jos.Lib

variable {B : Machine} {M : Pool B} {s s' : Kern} {l : List ℕ} {el : List Slot} {e : Slot}

/-! ## `env_init` -/

/-- The environments from `n` on are free, and on the list. -/
structure EnvsFree (s : Kern) (n : ℕ) (el : List Slot) : Prop where
  chain : Chain (fun e ↦ (s.envs e).envLink) s.envFreeList el
  mem_iff : ∀ e, e ∈ el ↔ n ≤ e.val
  free : ∀ e ∈ el, (s.envs e).envStatus = .free ∧ (s.envs e).envId = 0

theorem envInitLoop_spec {n : ℕ} (hn : n ≤ NENV) (h : EnvsFree s n el) :
    (envInitLoop s n hn).mem = s.mem ∧ ∃ el', EnvsFree (envInitLoop s n hn) 0 el' := by
  induction n generalizing s el with
  | zero => exact ⟨rfl, el, h⟩
  | succ n ih =>
      let i : Slot := ⟨n, hn⟩
      have hi : i ∉ el := fun hc ↦ by
        have : n + 1 ≤ n := (h.mem_iff i).mp hc
        omega
      refine @ih _ (i :: el) (Nat.le_of_succ_le hn) ⟨?_, fun e ↦ ?_, fun e he ↦ ?_⟩
      · refine (h.chain.push hi).congr fun e he ↦ ?_
        by_cases hei : e = i
        · rw [hei, Function.update_self]
          simp [Kern.modEnv, i]
        · rw [Function.update_of_ne hei]
          simp [Kern.modEnv, show e ≠ ⟨n, hn⟩ from hei]
      · rw [List.mem_cons, h.mem_iff, Fin.ext_iff]
        show e.val = n ∨ _ ↔ _
        omega
      · by_cases hei : e = i
        · rw [hei]
          simp [Kern.modEnv, i]
        · have he' := h.free e ((List.mem_cons.mp he).resolve_left hei)
          simpa [Kern.modEnv, show e ≠ ⟨n, hn⟩ from hei] using he'

theorem envInit_spec (s : Kern) :
    (envInit s).mem = s.mem ∧ ∃ el, EnvsFree (envInit s) 0 el := by
  have hnil : EnvsFree { s with envFreeList := none } NENV [] := ⟨.nil, fun e ↦ by simp, by simp⟩
  exact envInitLoop_spec le_rfl hnil

/-- After `env_init` there is no address space. -/
theorem EnvsFree.dirs_eq (h : EnvsFree s 0 el) : s.dirs = noDirs := by
  funext e
  exact if_pos (h.free e ((h.mem_iff e).mpr (Nat.zero_le _))).1

theorem EnvsFree.inv (h : EnvsFree s 0 el) (hb : KernBoot B M s.mem l) : Inv B M s l el where
  own := h.dirs_eq ▸ hb.own
  pgdir e he := absurd (h.free e ((h.mem_iff e).mpr (Nat.zero_le _))).1 he
  half e d hd := by
    rw [h.dirs_eq] at hd
    cases hd
  chain := h.chain
  mem_el e := ⟨fun he ↦ (h.free e he).1, fun _ ↦ (h.mem_iff e).mpr (Nat.zero_le _)⟩

theorem Inited.spec {cfg : BootConfig} {base : Word} (h : Inited cfg base s) :
    MmioBase base ∧ (∃ l, KernBoot cfg.machine cfg.pool s.mem l) ∧ ∃ el, EnvsFree s 0 el := by
  induction h with
  | @envInit m₀ m base envs o hempty hmem =>
      obtain ⟨hbase, hb⟩ := cfg.memInit_spec hempty hmem
      obtain ⟨hm, hel⟩ := envInit_spec ⟨m, envs, o⟩
      exact ⟨hbase, by rwa [hm], hel⟩
  | lapicInit _ hmap ih =>
      obtain ⟨hbase, ⟨l, hb⟩, el, hel⟩ := ih
      obtain ⟨-, hbase', hb'⟩ := hb.mmioMapRegion_keeps hbase (by decide) hmap
      exact ⟨hbase', hb', el, hel.chain, hel.mem_iff, hel.free⟩

/-! ## `env_create` -/

/-- What holds while the kernel boots: no page has more than one reference. -/
structure BootInv (B : Machine) (M : Pool B) (s : Kern) (l : List ℕ) (el : List Slot) : Prop where
  inv : Inv B M s l el
  prot : KProt B s.mem
  solo : ∀ p, s.refs B p ≤ 1
  entries : PdesOpen B s.mem s.dirs

theorem EnvsFree.bootInv (h : EnvsFree s 0 el) (hb : KernBoot B M s.mem l) :
    BootInv B M s l el := by
  have hinv := h.inv hb
  refine ⟨hinv, hb.prot, fun p ↦ ?_, hb.entries, fun e d i hd ↦ ?_⟩
  swap
  · rw [h.dirs_eq] at hd
    cases hd
  rcases Nat.eq_zero_or_pos (s.refs B p) with hz | hpos
  · omega
  · -- without address spaces every reference is exclusive
    obtain ⟨k, hk⟩ := owners_pos_iff.mp hpos
    refine (hinv.own.excl k (fun e v hc ↦ ?_) p hk).le
    rw [hc, h.dirs_eq] at hk
    cases hk

theorem Inited.bootInv {cfg : BootConfig} {base : Word} (h : Inited cfg base s) :
    ∃ l el, BootInv cfg.machine cfg.pool s l el := by
  obtain ⟨-, ⟨l, hb⟩, el, hel⟩ := h.spec
  exact ⟨l, el, hel.bootInv hb⟩

namespace BootInv

variable {T : Set Slot} {l' : List ℕ} {el' : List Slot} {m' : Mem}

theorem bounded (h : BootInv B M s l el) : Bounded B s.mem s.dirs :=
  fun p ↦ (h.solo p).trans (by decide)

theorem evolve (h : BootInv B M s l el) (hinv : Inv B M s' l' el') (hev : Evolve B s s' l T ∅) :
    BootInv B M s' l' el' := by
  refine ⟨hinv, h.prot.of_same hev.kern, fun p ↦ ?_, hev.pdesOpen h.entries⟩
  rcases hev.refs p with hle | hle | ⟨hc, -⟩
  · exact hle.trans (h.solo p)
  · exact hle
  · exact hc.elim

theorem after (h : BootInv B M s l el) (haft : After B M s l T ∅ s') :
    ∃ l' el', BootInv B M s' l' el' := by
  obtain ⟨l', el', hinv, hev, -⟩ := haft
  exact ⟨l', el', h.evolve hinv hev⟩

theorem stored (h : BootInv B M s l el) (hs : Stored s m') :
    BootInv B M (s.setMem m') l el ∧ KernSame B s.mem m' := by
  obtain ⟨_, _, -, hev, -⟩ := h.inv.after_stored hs (T := ∅) (S := ∅)
  exact ⟨h.evolve (h.inv.stored_inv hs) hev, hev.kern⟩

/-- A page is allocated and mapped; what `kern_pgdir` maps stays. -/
theorem allocInsert (h : BootInv B M s l el) {d p : ℕ} {va perm : Word} {z : Bool} {m₁ : Mem}
    (hd : s.dirs e = some d) (hva : va < UTOP) (hperm : perm.toNat < 4096)
    (halloc : pageAlloc B s.mem z = some (some p, m₁))
    (hins : pageInsert B m₁ d p va perm = some (0, m')) :
    ∃ l', BootInv B M (s.setMem m') l' el ∧ KernSame B s.mem m' := by
  cases hl : l with
  | nil => cases (h.inv.own.pageAlloc_empty hl z).symm.trans halloc
  | cons q t =>
      have hown : ∃ m₂, pageAlloc B s.mem z = some (some q, m₂) ∧
          Own B M m₂ s.dirs (insert q ∅) t ∧ Tabled B s.mem m₂ s.dirs l ∧
          target B m₂ s.dirs = target B s.mem s.dirs := by
        cases z with
        | false =>
            obtain ⟨heq, hown⟩ := h.inv.own.pageAlloc_plain hl
            exact ⟨_, heq, hown, h.inv.own.tabled_refl.congr rfl, target_congr rfl⟩
        | true =>
            obtain ⟨heq, hown, htar⟩ := h.inv.own.pageAlloc_cons hl
            exact ⟨_, heq, hown, h.inv.own.tabled_taken hl, htar⟩
      obtain ⟨m₂, heq, hown, htk, htar⟩ := hown
      obtain ⟨hq, rfl⟩ := Prod.mk.inj (Option.some.inj (heq.symm.trans halloc))
      obtain rfl := Option.some.inj hq
      rcases h.inv.insertFresh h.bounded hd hva hperm hl hown htk htar with
        ⟨-, hno⟩ | ⟨m'', l', hins', hinv, hev, -⟩
      · have hr : -E_NO_MEM = 0 := congrArg Prod.fst (Option.some.inj (hno.symm.trans hins))
        exact absurd hr (by decide)
      · obtain ⟨-, rfl⟩ := Prod.mk.inj (Option.some.inj (hins'.symm.trans hins))
        exact ⟨l', h.evolve hinv hev, hev.kern⟩

theorem regionAllocLoop (h : BootInv B M s l el) {d n : ℕ} {y : Word} (hd : s.dirs e = some d)
    (hy : y.toNat + n * 4096 ≤ UTOP.toNat)
    (hrun : Jos.regionAllocLoop B d n y s.mem = some (true, m')) :
    ∃ l', BootInv B M (s.setMem m') l' el ∧ KernSame B s.mem m' := by
  induction n generalizing s l y with
  | zero =>
      obtain ⟨-, rfl⟩ := Prod.mk.inj (Option.some.inj hrun)
      exact ⟨l, h, .refl _⟩
  | succ n ih =>
      simp only [Jos.regionAllocLoop, Option.bind_eq_bind, Option.bind_eq_some_iff, Option.pure_def,
        Option.some.injEq, Prod.exists, Prod.mk.injEq, Bool.and_eq_true, decide_eq_true_eq] at hrun
      obtain ⟨o, m₁, halloc, p, rfl, r, m₂, hins, ok, m₃, hrec, ⟨rfl, rfl⟩, rfl⟩ := hrun
      have hU : UTOP.toNat = 4005560320 := rfl
      have hlt : y < UTOP := by
        rw [BitVec.lt_def]
        omega
      obtain ⟨l₁, h₁, hk₁⟩ := h.allocInsert hd hlt (by decide) halloc hins
      have hy' : (y + 0x1000).toNat + n * 4096 ≤ UTOP.toNat := by
        rw [BitVec.toNat_add, show (0x1000 : Word).toNat = 4096 from rfl]
        omega
      obtain ⟨l₂, h₂, hk₂⟩ := ih (s := s.setMem m₂) h₁ hd hy' hrec
      exact ⟨l₂, h₂, hk₁.trans hk₂⟩

theorem regionAlloc (h : BootInv B M s l el) {d : ℕ} {va len : Word} (hd : s.dirs e = some d)
    (hva : va.toNat + len.toNat ≤ UTOP.toNat)
    (hrun : Jos.regionAlloc B s.mem d va len = some (true, m')) :
    ∃ l', BootInv B M (s.setMem m') l' el ∧ KernSame B s.mem m' := by
  refine h.regionAllocLoop hd ?_ hrun
  have hU : UTOP.toNat = 4005560320 := rfl
  rw [roundup_toNat, rounddown_toNat, BitVec.toNat_add, PGSIZE]
  omega

theorem loadSegment (h : BootInv B M s l el) {d : ℕ} {ph : Segment} (hd : s.dirs e = some d)
    (hrun : Jos.loadSegment B d s.mem ph = some (true, m')) :
    ∃ l', BootInv B M (s.setMem m') l' el ∧ KernSame B s.mem m' := by
  simp only [Jos.loadSegment, Option.bind_eq_bind, Option.bind_eq_some_iff, Option.pure_def,
    Option.some.injEq, Prod.exists, Prod.mk.injEq] at hrun
  obtain ⟨ok, m₁, halloc, m₂, hzero, m₃, hdata, rfl, rfl⟩ := hrun
  obtain ⟨l₁, h₁, hk₁⟩ := h.regionAlloc hd ph.below halloc
  have hs₂ := h₁.inv.storeBytes_stored (e := e) hd (by simpa using ph.below) hzero
  obtain ⟨h₂, hk₂⟩ := h₁.stored hs₂
  have hs₃ := h₂.inv.storeBytes_stored (e := e) hd
    ((Nat.add_le_add_left ph.data_le _).trans ph.below) hdata
  obtain ⟨h₃, hk₃⟩ := h₂.stored hs₃
  exact ⟨l₁, h₃, (hk₁.trans hk₂).trans hk₃⟩

theorem loadSegments (h : BootInv B M s l el) {d : ℕ} {phs : List Segment}
    (hd : s.dirs e = some d) (hrun : Jos.loadSegments B d phs s.mem = some (true, m')) :
    ∃ l', BootInv B M (s.setMem m') l' el ∧ KernSame B s.mem m' := by
  induction phs generalizing s l with
  | nil =>
      obtain ⟨-, rfl⟩ := Prod.mk.inj (Option.some.inj hrun)
      exact ⟨l, h, .refl _⟩
  | cons ph phs ih =>
      simp only [Jos.loadSegments, Option.bind_eq_bind, Option.bind_eq_some_iff, Option.pure_def,
        Option.some.injEq, Prod.exists, Prod.mk.injEq, Bool.and_eq_true] at hrun
      obtain ⟨ok, m₁, hseg, ok', m₂, hrec, ⟨rfl, rfl⟩, rfl⟩ := hrun
      obtain ⟨l₁, h₁, hk₁⟩ := h.loadSegment hd hseg
      obtain ⟨l₂, h₂, hk₂⟩ := ih (s := s.setMem m₁) h₁ hd hrec
      exact ⟨l₂, h₂, hk₁.trans hk₂⟩

theorem loadStack (h : BootInv B M s l el) {d : ℕ} (hd : s.dirs e = some d)
    (hrun : Jos.loadStack B d s.mem = some (true, m')) :
    ∃ l', BootInv B M (s.setMem m') l' el ∧ KernSame B s.mem m' := by
  simp only [Jos.loadStack, Option.bind_eq_bind, Option.bind_eq_some_iff, Prod.exists] at hrun
  obtain ⟨o, m₁, halloc, hrun⟩ := hrun
  cases o with
  | none =>
      simp only [Option.bind_eq_some_iff, Prod.exists] at hrun
      obtain ⟨o, m₂, -, hrun⟩ := hrun
      cases o <;> simp at hrun
  | some p =>
      simp only [Option.bind_eq_some_iff, Prod.exists, Option.pure_def, Option.some.injEq,
        Prod.mk.injEq, decide_eq_true_eq] at hrun
      obtain ⟨r, m₂, hins, rfl, rfl⟩ := hrun
      exact h.allocInsert hd (by decide) (by decide) halloc hins

end BootInv

/-- A call of `env_create` that does not run out of memory. -/
theorem BootInv.envCreate_keeps (h : BootInv B M s l el) {binary : Binary}
    (hrun : Jos.envCreate B s binary = some (true, s')) :
    (∃ l' el', BootInv B M s' l' el') ∧ KernSame B s.mem s'.mem := by
  rcases h.inv.envAlloc_spec 0 with
    ⟨r, -, halloc⟩ | ⟨e, el', d, l₁, s₁, -, -, halloc, henv, -, hinv, hev, -⟩
  · simp only [Jos.envCreate, halloc, Option.bind_eq_bind, Option.bind_some] at hrun
    cases hrun
  · have h₁ := h.evolve hinv hev
    have hpg : (s₁.envs e).envPgdir = some d := by rw [henv]; rfl
    have hd : s₁.dirs e = some d := by rw [Kern.dirs, henv]; rfl
    simp only [Jos.envCreate, halloc, hpg, Option.bind_eq_bind, Option.bind_some,
      Option.bind_eq_some_iff, Prod.exists, Option.pure_def, Option.some.injEq, Prod.mk.injEq,
      Bool.and_eq_true] at hrun
    obtain ⟨ok, m₁, hsegs, ok', m₂, hstack, ⟨rfl, rfl⟩, rfl⟩ := hrun
    obtain ⟨l₂, h₂, hk₂⟩ := h₁.loadSegments hd hsegs
    obtain ⟨l₃, h₃, hk₃⟩ := h₂.loadStack (e := e) hd hstack
    have hmod : After B M (s₁.setMem m₂) l₃ {e} ∅ (Kern.modEnv (s₁.setMem m₂) e fun env ↦
        { env with envTf := { env.envTf with eip := binary.entry } }) :=
      (After.refl h₃.inv).modEnv (Set.mem_singleton e) Iff.rfl rfl rfl
    exact ⟨h₃.after hmod, (hev.kern.trans hk₂).trans hk₃⟩

theorem BootInv.envCreate (h : BootInv B M s l el) {binary : Binary}
    (hrun : Jos.envCreate B s binary = some (true, s')) :
    ∃ l' el', BootInv B M s' l' el' := (h.envCreate_keeps hrun).1

/-- The environment that `env_create` leaves in slot `e`. -/
def createdEnv (env : Env) (e : Slot) (d : ℕ) (entry : Word) : Env :=
  { freshEnv env e 0 d with envTf := { newTf with eip := entry } }

/-- `env_create` turns a free environment into a runnable one. -/
theorem BootInv.envs_envCreate (h : BootInv B M s l el) {binary : Binary}
    (hrun : Jos.envCreate B s binary = some (true, s')) :
    ∃ e d, (s.envs e).envStatus = .free ∧ s'.envs e = createdEnv (s.envs e) e d binary.entry ∧
      ∀ e', e' ≠ e → s'.envs e' = s.envs e' := by
  rcases h.inv.envAlloc_spec 0 with
    ⟨r, -, halloc⟩ | ⟨e, el', d, l₁, s₁, rfl, -, halloc, henv, hother, -⟩
  · simp only [Jos.envCreate, halloc, Option.bind_eq_bind, Option.bind_some] at hrun
    cases hrun
  · simp only [Jos.envCreate, halloc, Option.bind_eq_bind, Option.bind_some,
      Option.bind_eq_some_iff, Prod.exists, Option.pure_def, Option.some.injEq,
      Prod.mk.injEq] at hrun
    obtain ⟨_, -, _, _, -, _, _, -, -, rfl⟩ := hrun
    refine ⟨e, d, (h.inv.mem_el e).mp List.mem_cons_self, ?_, fun e' he' ↦ ?_⟩
    · rw [Kern.envs_modEnv_self, Kern.envs_setMem, henv]
      rfl
    · rw [Kern.envs_modEnv_of_ne _ _ he', Kern.envs_setMem, hother e' he']

/-- The kernel boots into its invariant. -/
theorem Booted.bootInv {cfg : BootConfig} (h : Booted cfg s) :
    ∃ l el, BootInv cfg.machine cfg.pool s l el := by
  induction h with
  | inited h => exact h.bootInv
  | envCreate _ hcreate ih =>
      obtain ⟨l, el, hb⟩ := ih
      exact hb.envCreate hcreate

/-- At boot an environment is free and was never used, or it is the first one of its slot, which
waits for a CPU. -/
theorem Booted.envs {cfg : BootConfig} (h : Booted cfg s) (e : Slot) :
    ((s.envs e).envStatus = .free ∧ (s.envs e).envId = 0) ∨
    ((s.envs e).envStatus = .runnable ∧ (s.envs e).envIpcRecving = false ∧
      (s.envs e).envId = genId 1 e ∧ (s.envs e).envParentId = 0) := by
  induction h with
  | inited h =>
      obtain ⟨-, -, el, hel⟩ := h.spec
      exact .inl (hel.free e ((hel.mem_iff e).mpr (Nat.zero_le _)))
  | envCreate h hcreate ih =>
      obtain ⟨l, el, hb⟩ := h.bootInv
      obtain ⟨e₁, d, hfree, henv, hother⟩ := hb.envs_envCreate hcreate
      by_cases he : e = e₁
      · subst he
        rw [henv]
        rcases ih with ⟨-, hid⟩ | ⟨hr, -⟩
        · refine .inr ⟨rfl, rfl, ?_, rfl⟩
          rw [← nextEnvId_zero, ← hid]
          rfl
        · rw [hfree] at hr
          cases hr
      · rw [hother e he]
        exact ih

/-! ## A machine that boots -/

/-- One page is mapped in `e`, at the top of the stack. -/
def Kern.OnlyStack (s : Kern) (e : Slot) : Prop :=
  ∃ p, ∀ v, s.space e v = if v = pgnum (USTACKTOP - 0x1000) then
    some (p, PTE_W ||| PTE_U ||| PTE_P) else none

/-- With three free pages, `env_create` of a program with no segments succeeds. -/
theorem BootInv.exists_envCreate (h : BootInv B M s l el) (hel : el ≠ []) (hl : 3 ≤ l.length)
    (entry : Word) :
    ∃ s' l' el' e d, Jos.envCreate B s ⟨[], entry⟩ = some (true, s') ∧ BootInv B M s' l' el' ∧
      l.length ≤ l'.length + 3 ∧ el = e :: el' ∧
      s'.envs e = createdEnv (s.envs e) e d entry ∧ (∀ e', e' ≠ e → s'.envs e' = s.envs e') ∧
      s'.OnlyStack e ∧ ∀ e', e' ≠ e → s'.space e' = s.space e' := by
  rcases h.inv.envAlloc_spec 0 with
    ⟨r, ⟨-, hc⟩, -⟩ | ⟨e, el', d, l₁, s₁, rfl, rfl, halloc, henv, hother, hinv, hev, hsu⟩
  · rcases hc with rfl | rfl
    · exact absurd rfl hel
    · simp at hl
  have h₁ := h.evolve hinv hev
  have hpg : (s₁.envs e).envPgdir = some d := by rw [henv]; rfl
  have hd : s₁.dirs e = some d := by rw [Kern.dirs, henv]; rfl
  obtain ⟨p, q, t, rfl⟩ : ∃ p q t, l₁ = p :: q :: t := by
    rcases l₁ with _ | ⟨p, _ | ⟨q, t⟩⟩
    · simp at hl
    · simp at hl
    · exact ⟨p, q, t, rfl⟩
  obtain ⟨heq, hown⟩ := h₁.inv.own.pageAlloc_plain rfl
  have hva : USTACKTOP - 0x1000 < UTOP := by decide
  have hperm : (PTE_W ||| PTE_U ||| PTE_P).toNat < 4096 := by decide
  rcases h₁.inv.insertFresh h₁.bounded hd hva hperm rfl hown
      (h₁.inv.own.tabled_refl.congr rfl) (target_congr rfl) with
    ⟨hc, -⟩ | ⟨m₂, l₂, hins, hinv₂, hev₂, hlen, hre⟩
  · cases hc
  · have h₂ := h₁.evolve hinv₂ hev₂
    have hstack : Jos.loadStack B d s₁.mem = some (true, m₂) := by
      simp only [Jos.loadStack, heq, Option.bind_eq_bind, Option.bind_some, hins]
      rfl
    have hrun : Jos.envCreate B s ⟨[], entry⟩ = some (true, Kern.modEnv (s₁.setMem m₂) e fun env ↦
        { env with envTf := { env.envTf with eip := entry } }) := by
      simp only [Jos.envCreate, halloc, hpg, Option.bind_eq_bind, Option.bind_some,
        Jos.loadSegments, hstack]
      rfl
    have hspace : Kern.space (Kern.modEnv (s₁.setMem m₂) e fun env ↦
        { env with envTf := { env.envTf with eip := entry } }) = (s₁.setMem m₂).space := by
      rw [Kern.space, Kern.dirs_modEnv Iff.rfl rfl]
      rfl
    have hspace₂ : (s₁.setMem m₂).space = _ := hre.addrSpaces_eq (by rw [hd]; simp)
    refine ⟨_, l₂, el', e, d, hrun, ?_, ?_, rfl, ?_, fun e' he' ↦ ?_, ⟨p, fun v ↦ ?_⟩,
      fun e' he' ↦ ?_⟩
    · have hinv₃ := h₂.inv.modEnv (e := e)
        (f := fun env ↦ { env with envTf := { env.envTf with eip := entry } }) Iff.rfl rfl rfl
      exact h₂.evolve hinv₃ (Evolve.of_same (T := ∅) rfl (Kern.dirs_modEnv Iff.rfl rfl))
    · simp only [List.length_cons] at hlen ⊢
      omega
    · simp [henv, createdEnv, freshEnv]
    · rw [Kern.envs_modEnv_of_ne _ _ he', Kern.envs_setMem, hother e' he']
    · rw [hspace, hspace₂, AddrSpaces.set]
      by_cases hv : v = pgnum (USTACKTOP - 0x1000)
      · rw [if_pos ⟨rfl, hv⟩, if_pos hv]
        rfl
      · rw [if_neg fun hc ↦ hv hc.2, if_neg hv]
        exact hsu.space_eq_none hd v
    · rw [hspace, (hev₂.others e' he').2, (hev.others e' he').2]

/-- 16 MB of memory, and a kernel that ends at 1.5 MB. -/
def demoConfig : BootConfig where
  npages := 4096
  npagesBasemem := 160
  kend := 0xF0180000
  bootstack := 0xF0110000
  percpuKstacks i := 0xF0120000 + BitVec.ofNat 32 i.val * KSTKSIZE
  lapicaddr := 0xFEE00000
  layout := ⟨0xF0182000, 0xF0186000, 0xF01A5000, 0xF01A5000⟩
  npages_le := by decide
  npagesBasemem_le := by decide
  le_kend := by decide
  le_bootstack := by decide
  le_percpuKstacks := by decide
  layout_eq := rfl
  pages_mapped := by decide
  extmem := by decide

/-- It initialises, with many pages to spare. -/
theorem exists_inited : ∃ base m l el, Inited demoConfig base (envInit ⟨m, fun _ ↦ {}, none⟩) ∧
    BootInv demoConfig.machine demoConfig.pool (envInit ⟨m, fun _ ↦ {}, none⟩) l el ∧
    1100 ≤ l.length ∧ (∀ e, e ∈ el) ∧
    ∀ e, ((envInit ⟨m, fun _ ↦ {}, none⟩).envs e).envStatus = .free ∧
      ((envInit ⟨m, fun _ ↦ {}, none⟩).envs e).envId = 0 := by
  let m₀ : Mem := ⟨fun _ ↦ ⟨none, 0⟩, none, fun _ _ ↦ 0, []⟩
  obtain ⟨base, m, l, hinit, hkb, hlen⟩ := demoConfig.exists_memInit
    (show m₀.pageFreeList = none from rfl) (List.range' 700 1200) List.nodup_range'
    (fun p hp ↦ by
      rw [List.mem_range'_1] at hp
      refine .inr ⟨?_, ?_⟩
      · exact le_trans (by decide) hp.1
      · exact lt_of_lt_of_le hp.2 (by decide))
    (by rw [List.length_range']; decide)
  rw [List.length_range'] at hlen
  obtain ⟨hmem, el, hel⟩ := envInit_spec ⟨m, fun _ ↦ {}, none⟩
  have hall : ∀ e, e ∈ el := fun e ↦ (hel.mem_iff e).mpr (Nat.zero_le _)
  exact ⟨base, m, l, el, .envInit (fun _ ↦ {}) none rfl hinit,
    hel.bootInv (by rwa [hmem]), by omega, hall, fun e ↦ hel.free e (hall e)⟩

/-- It boots with two environments, and many pages to spare. -/
theorem exists_booted : ∃ s l el e₁ e₂ env₁ env₂ d₁ d₂, Booted demoConfig s ∧
    BootInv demoConfig.machine demoConfig.pool s l el ∧ 1000 ≤ l.length ∧ e₁ ≠ e₂ ∧
    env₁.envId = 0 ∧ s.envs e₁ = createdEnv env₁ e₁ d₁ 0 ∧
    env₂.envId = 0 ∧ s.envs e₂ = createdEnv env₂ e₂ d₂ 0 ∧
    (∀ e, e ≠ e₁ → e ≠ e₂ → (s.envs e).envStatus = .free ∧ (s.envs e).envId = 0) ∧
    s.OnlyStack e₁ ∧ s.OnlyStack e₂ := by
  obtain ⟨base, m, l, el, hinit, hb₀, hlen, hall, hid⟩ := exists_inited
  have h₀ := Booted.inited hinit
  generalize envInit ⟨m, fun _ ↦ {}, none⟩ = s₀ at *
  obtain ⟨s₁, l₁, el₁, e₁, d₁, hrun₁, hb₁, hlen₁, rfl, henv₁, hoth₁, hstack₁, -⟩ :=
    hb₀.exists_envCreate (List.ne_nil_of_mem (hall ⟨0, by decide⟩)) (by omega) 0
  have hel₁ : el₁ ≠ [] := by
    rintro rfl
    have h0 := List.mem_singleton.mp (hall ⟨0, by decide⟩)
    have h1 := List.mem_singleton.mp (hall ⟨1, by decide⟩)
    exact absurd (h0.trans h1.symm) (by decide)
  obtain ⟨s₂, l₂, el₂, e₂, d₂, hrun₂, hb₂, hlen₂, rfl, henv₂, hoth₂, hstack₂, hspace₂⟩ :=
    hb₁.exists_envCreate hel₁ (by omega) 0
  have hne : e₁ ≠ e₂ := by
    have hnd := hb₀.inv.chain.nodup
    rintro rfl
    simp at hnd
  refine ⟨s₂, l₂, el₂, e₁, e₂, s₀.envs e₁, s₁.envs e₂, d₁, d₂, (h₀.envCreate hrun₁).envCreate hrun₂,
    hb₂, by omega, hne, (hid e₁).2, ?_, ?_, henv₂, fun e hne₁ hne₂ ↦ ?_, ?_, hstack₂⟩
  · rw [hoth₂ e₁ hne, henv₁]
  · rw [hoth₁ e₂ hne.symm]
    exact (hid e₂).2
  · rw [hoth₂ e hne₂, hoth₁ e hne₁]
    exact hid e
  · rw [Kern.OnlyStack, hspace₂ e₁ hne]
    exact hstack₁

end Jos
