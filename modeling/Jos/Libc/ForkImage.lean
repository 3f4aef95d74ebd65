import Jos.Libc.Fork

/-!
# The image of a forked child

The child of a `fork` starts with the whole image of its parent, if every `duppage` finds room for
the page tables of the child.  The result of `duppage` is not looked at: where there is no memory
for a table, the page is left out, and if another environment gives memory back before `fork`
allocates the exception stack, the child starts with a hole in its image.
-/

namespace Jos

open Jos.Lib

variable {B : Machine} {M : Pool B} {k k' : Kern} {l : List ℕ} {el : List Slot} {cur e : Slot}
  {child entry : Word} {pc pc' : ForkPc} {d v : ℕ}

/-! ## The invariant -/

/-- Page `v` of `cur` is mapped in `e` to the same page, without write permission, and marked
copy-on-write if `cur` has it writable or copy-on-write. -/
def Copied (k : Kern) (cur e : Slot) (v : ℕ) : Prop :=
  ∀ p f, k.space cur v = some (p, f) → ∃ f', k.space e v = some (p, f') ∧ ¬ isSet f' PTE_W ∧
    (isSet f (PTE_W ||| PTE_COW) → isSet f' PTE_COW)

theorem Copied.congr (h : Copied k cur e v) (hcur : k'.space cur v = k.space cur v)
    (he : k'.space e v = k.space e v) : Copied k' cur e v := by
  intro p f hp
  rw [hcur] at hp
  rw [he]
  exact h p f hp

/-- `e` has a writable exception stack that nobody shares. -/
def OwnStack (B : Machine) (k : Kern) (e : Slot) : Prop :=
  ∃ p f, k.space e (pgnum (UXSTACKTOP - 0x1000)) = some (p, f) ∧ isSet f PTE_W ∧ k.refs B p = 1

/-- A page with one reference is mapped in one place. -/
theorem Kern.space_unique {p : ℕ} (hrefs : k.refs B p = 1) {e e' : Slot} {v v' : ℕ} {f f' : Word}
    (h : k.space e v = some (p, f)) (h' : k.space e' v' = some (p, f')) : e' = e ∧ v' = v := by
  obtain ⟨hv, ht⟩ := Kern.target_of_space (B := B) h
  obtain ⟨hv', ht'⟩ := Kern.target_of_space (B := B) h'
  cases eq_of_owners_le_one hrefs.le ht ht'
  exact ⟨rfl, rfl⟩

/-- What holds at each point of `fork`. -/
def ForkInv (B : Machine) (cur : Slot) (k : Kern) : ForkPc → Prop
  | .loop child v => Child k cur child ∧ ∀ w < v, Copied k cur (envx child) w
  | .remap child v => Child k cur child ∧ (∀ w < v + 1, Copied k cur (envx child) w) ∧
      ∃ p f, k.space cur v = some (p, f) ∧ isSet f (PTE_W ||| PTE_COW)
  | .stack child => Child k cur child ∧ ∀ w < pgnum USTACKTOP, Copied k cur (envx child) w
  | .upcall child => Child k cur child ∧ (∀ w < pgnum USTACKTOP, Copied k cur (envx child) w) ∧
      OwnStack B k (envx child)
  | .status child => Child k cur child ∧ (∀ w < pgnum USTACKTOP, Copied k cur (envx child) w) ∧
      OwnStack B k (envx child) ∧
      (k.envs (envx child)).envPgfaultUpcall = (k.envs cur).envPgfaultUpcall
  | _ => True

/-! ## The steps of `fork` -/

section Own

variable (h : RunInv B M k l el) (hb : k.Bounded B) (hlive : k.Live cur)

include h hb hlive

end Own

/-! ## Whole runs -/

/-- What happened elsewhere left the parent alone. -/
structure Spared (cur : Slot) (k k' : Kern) : Prop where
  id : (k'.envs cur).envId = (k.envs cur).envId
  upcall : (k'.envs cur).envPgfaultUpcall = (k.envs cur).envPgfaultUpcall
  space : k'.space cur = k.space cur

/-- A step of `fork` that finds room, or a step elsewhere that spares the parent; no page has more
than 65535 references. -/
inductive RoomyStep (B : Machine) (entry : Word) (cur : Slot) :
    ForkPc × Kern → ForkPc × Kern → Prop
  | own {pc pc' : ForkPc} {k k' : Kern} (live : k.Live cur)
      (run : forkStep B entry cur k pc = some (pc', k')) (room : HasRoom cur k pc)
      (bounded : k'.Bounded B) : RoomyStep B entry cur (pc, k) (pc', k')
  | elsewhere {pc : ForkPc} {k k' : Kern} (step : Elsewhere B cur k k') (spared : Spared cur k k')
      (bounded : k'.Bounded B) : RoomyStep B entry cur (pc, k) (pc, k')

/-- A step of `fork` that nobody disturbs. -/
structure OwnStep (B : Machine) (entry : Word) (cur : Slot) (x y : ForkPc × Kern) : Prop where
  live : x.2.Live cur
  run : forkStep B entry cur x.2 x.1 = some y
  room : HasRoom cur x.2 x.1
  bounded : y.2.Bounded B

theorem OwnStack.elsewhere (h : OwnStack B k e) (hspace : k'.space e = k.space e)
    (hrefs : ∀ p, (∀ e' v f, k.space e' v = some (p, f) → e' = e) →
      k'.refs B p ≤ k.refs B p ∨ k'.refs B p ≤ 1) : OwnStack B k' e := by
  obtain ⟨p, f, hp, hW, hone⟩ := h
  have hp' : k'.space e (pgnum (UXSTACKTOP - 0x1000)) = some (p, f) := by rw [hspace, hp]
  obtain ⟨_, htar⟩ := Kern.target_of_space (B := B) hp'
  have hpos : 0 < k'.refs B p := owners_pos htar
  refine ⟨p, f, hp', hW, ?_⟩
  rcases hrefs p fun e' v f' hp' ↦ (Kern.space_unique hone hp hp').1 with hle | hle
  · omega
  · omega

/-- A step elsewhere keeps the invariants of `fork`. -/
theorem ForkInv.elsewhere (hI : ForkInv B cur k pc) (h : RunInv B M k l el) (hb : k.Bounded B)
    (step : Elsewhere B cur k k') (spared : Spared cur k k') :
    ForkInv B cur k' pc := by
  have key : ∀ {child : Word}, Child k cur child → Child k' cur child ∧
      (∀ w, Copied k cur (envx child) w → Copied k' cur (envx child) w) ∧
      (OwnStack B k (envx child) → OwnStack B k' (envx child)) ∧
      k'.envs (envx child) = k.envs (envx child) := by
    intro child hchild
    obtain ⟨henv, hspace, hrefs⟩ := step.leaves h hb hchild
    exact ⟨hchild.of_envs henv spared.id, fun w hw ↦ hw.congr (by rw [spared.space])
      (by rw [hspace]), fun hst ↦ hst.elsewhere hspace hrefs, henv⟩
  cases pc with
  | loop child v =>
      obtain ⟨hchild, hcopied⟩ := hI
      obtain ⟨h1, h2, -⟩ := key hchild
      exact ⟨h1, fun w hw ↦ h2 w (hcopied w hw)⟩
  | remap child v =>
      obtain ⟨hchild, hcopied, hcow⟩ := hI
      obtain ⟨h1, h2, -⟩ := key hchild
      exact ⟨h1, fun w hw ↦ h2 w (hcopied w hw), by rw [spared.space]; exact hcow⟩
  | stack child =>
      obtain ⟨hchild, hcopied⟩ := hI
      obtain ⟨h1, h2, -⟩ := key hchild
      exact ⟨h1, fun w hw ↦ h2 w (hcopied w hw)⟩
  | upcall child =>
      obtain ⟨hchild, hcopied, hstack⟩ := hI
      obtain ⟨h1, h2, h3, -⟩ := key hchild
      exact ⟨h1, fun w hw ↦ h2 w (hcopied w hw), h3 hstack⟩
  | status child =>
      obtain ⟨hchild, hcopied, hstack, hup⟩ := hI
      obtain ⟨h1, h2, h3, h4⟩ := key hchild
      exact ⟨h1, fun w hw ↦ h2 w (hcopied w hw), h3 hstack, by rw [h4, spared.upcall, hup]⟩
  | _ => trivial

/-- The page number of the stack. -/
abbrev stackPage : ℕ := 977917

/-- Two environments with a stack.  Nothing else of `a` is mapped below `USTACKTOP`, and no page is
shared. -/
structure Neighbours (B : Machine) (M : Pool B) (k : Kern) (l : List ℕ) (el : List Slot)
    (a b : Slot) : Prop where
  boot : BootInv B M k l el
  ne : a ≠ b
  live : k.Live a
  status : (k.envs b).envStatus = .runnable
  id : (k.envs b).envId ≠ (k.envs a).envId
  stack : k.space a stackPage ≠ none
  below : ∀ v < stackPage, k.space a v = none
  stack' : k.space b stackPage ≠ none

/-- The pages of `b` below the stack are the first `n`. -/
def Hoards (k : Kern) (b : Slot) (n : ℕ) : Prop := ∀ v < stackPage, k.space b v ≠ none ↔ v < n

theorem RoomyStep.forkStep {x y : ForkPc × Kern} (h : RoomyStep B entry cur x y) :
    ForkStep B entry cur x y := by
  cases h with
  | own live run room bounded => exact .own live run
  | elsewhere step spared bounded => exact .elsewhere step

/-- A child that is being made does not run. -/
theorem Child.slot_ne (hchild : Child k cur child) (hst : (k.envs e).envStatus = .runnable) :
    envx child ≠ e := by
  rintro rfl
  exact nomatch hchild.status.symm.trans hst

/-- With two free pages, `fork` comes from the end of the loop to its end. -/
theorem Child.finish (hchild : Child k cur child) (h : RunInv B M k l el) (hb : k.Bounded B)
    (hlive : k.Live cur) (entry : Word) (hl : 2 ≤ l.length) :
    ∃ k₁ k', Relation.ReflTransGen (OwnStep B entry cur) (.stack child, k) (.status child, k₁) ∧
      k₁.Live cur ∧ forkStep B entry cur k₁ (.status child) = some (.done child, k') ∧
      k'.space cur = k.space cur ∧
      ∀ w, w < pgnum USTACKTOP → k'.space (envx child) w = k.space (envx child) w := by
  obtain ⟨p, t, rfl⟩ := List.exists_cons_of_length_pos (l := l) (by omega)
  obtain ⟨d, hd, -⟩ := h.inv.live_dir hchild.live
  have hva : ¬ badVa (UXSTACKTOP - 0x1000) := by decide
  have hperm : ¬ badPerm (PTE_P ||| PTE_U ||| PTE_W) := by decide
  rcases h.inv.sysPageAlloc_outcome hchild.found hd hva hperm rfl fun q f _ ↦
      Nat.lt_succ_of_le (hb q) with ⟨-, rfl, -⟩ | ⟨k₁, l₁, hok, hre, -⟩
  · simp at hl
  have hb₁ : k₁.Bounded B := by
    refine (hre.refs_le (by decide) hb).2 fun q f hq ↦ ?_
    obtain ⟨rfl, -⟩ := Prod.mk.inj (Option.some.inj hq)
    exact List.mem_cons_self
  have hchild₁ : Child k₁ cur child := hchild.of_envs (by rw [hre.envs]) (by rw [hre.envs])
  have hstep₁ : OwnStep B entry cur (.stack child, k) (.upcall child, k₁) := by
    refine ⟨hlive, ?_, trivial, hb₁⟩
    simp only [forkStep, hok, Option.bind_eq_bind, Option.bind_some]
    rfl
  let k₂ := k₁.modEnv (envx child) fun env ↦
    { env with envPgfaultUpcall := (k₁.envs cur).envPgfaultUpcall }
  have hdirs₂ : k₂.dirs = k₁.dirs := Kern.dirs_modEnv Iff.rfl rfl
  have hb₂ : k₂.Bounded B := by
    rw [Kern.Bounded, hdirs₂]
    exact hb₁
  have hstep₂ : OwnStep B entry cur (.upcall child, k₁) (.status child, k₂) := by
    refine ⟨hre.live hlive, ?_, trivial, hb₂⟩
    simp only [forkStep, sysEnvSetPgfaultUpcall, hchild₁.found]
    rfl
  have hchild₂ : Child k₂ cur child := hchild₁.setUpcall _
  let k₃ := k₂.modEnv (envx child) fun env ↦ { env with envStatus := .runnable }
  have hspace : k₃.space = k₁.space := by
    have hdirs₃ : k₃.dirs = k₂.dirs := Kern.dirs_modEnv (by simp [hchild₂.status]) rfl
    exact Kern.space_of_dirs (hdirs₃.trans hdirs₂) rfl
  refine ⟨k₂, k₃, .tail (.single hstep₁) hstep₂, ?_, ?_, ?_, fun w hw ↦ ?_⟩
  · rw [Kern.Live, Kern.envs_modEnv_of_ne _ _ hchild.ne.symm]
    exact hre.live hlive
  · simp only [forkStep, sysEnvSetStatus, hchild₂.found, ENV_RUNNABLE, if_true]
    rfl
  · rw [hspace, hre.space_of_slot_ne hchild.ne.symm]
  · rw [hspace, hre.space_of_ne fun hc ↦ ?_]
    rw [hc.2] at hw
    exact absurd hw (by decide)

namespace Neighbours

variable {a b : Slot} {n : ℕ} {l' : List ℕ} (h : Neighbours B M k l el a b)

include h

theorem live' : k.Live b := by
  rw [Kern.Live, h.status]
  decide

theorem refs_lt {p : ℕ} {f : Word} (_ : k.space e v = some (p, f)) : k.refs B p < 2 ^ 16 :=
  lt_of_le_of_lt (h.boot.solo p) (by decide)

/-- A page changes that is not on a stack, and not one of `a` below `USTACKTOP`. -/
theorem remaps {l' : List ℕ} {o : Option (ℕ × Word)} (hre : Remaps B M k l el e v o k' l')
    (hv : v ≠ stackPage) (ha : e = a → stackPage < v) (ho : ∀ p f, o = some (p, f) → p ∈ l) :
    Neighbours B M k' l' el a b := by
  refine ⟨hre.bootInv h.boot ho, h.ne, hre.live h.live, by rw [hre.envs]; exact h.status,
    by rw [hre.envs]; exact h.id, ?_, fun w hw ↦ ?_, ?_⟩
  · rw [hre.space_of_ne fun hc ↦ hv hc.2.symm]
    exact h.stack
  · rw [hre.space_of_ne fun hc ↦ (ha hc.1.symm).not_gt (hc.2 ▸ hw)]
    exact h.below w hw
  · rw [hre.space_of_ne fun hc ↦ hv hc.2.symm]
    exact h.stack'

/-- Only the status and the id of an environment matter. -/
theorem modEnv {f : Env → Env}
    (hst : (f (k.envs e)).envStatus = .free ↔ (k.envs e).envStatus = .free)
    (hb : e = b → (f (k.envs e)).envStatus = .runnable)
    (hdir : (f (k.envs e)).envPgdir = (k.envs e).envPgdir)
    (hlink : (f (k.envs e)).envLink = (k.envs e).envLink)
    (hid : (f (k.envs e)).envId = (k.envs e).envId) :
    Neighbours B M (k.modEnv e f) l el a b ∧ (k.modEnv e f).space = k.space := by
  have hdirs : (k.modEnv e f).dirs = k.dirs := Kern.dirs_modEnv hst hdir
  have hspace : (k.modEnv e f).space = k.space := Kern.space_of_dirs hdirs rfl
  have hkeep : ∀ e', (((k.modEnv e f).envs e').envStatus = .free ↔
      (k.envs e').envStatus = .free) ∧ ((k.modEnv e f).envs e').envId = (k.envs e').envId := by
    intro e'
    by_cases he : e' = e
    · rw [he, Kern.envs_modEnv_self]
      exact ⟨hst, hid⟩
    · rw [Kern.envs_modEnv_of_ne _ _ he]
      exact ⟨Iff.rfl, rfl⟩
  refine ⟨⟨⟨h.boot.inv.modEnv hst hdir hlink, h.boot.prot, fun p ↦ ?_,
    by rw [hdirs]; exact h.boot.entries⟩, h.ne, ?_, ?_, ?_,
    hspace ▸ h.stack, hspace ▸ h.below, hspace ▸ h.stack'⟩, hspace⟩
  · rw [Kern.refs_of_dirs hdirs rfl]
    exact h.boot.solo p
  · exact mt (hkeep a).1.mp h.live
  · by_cases he : b = e
    · rw [he, Kern.envs_modEnv_self]
      exact hb he.symm
    · rw [Kern.envs_modEnv_of_ne _ _ he]
      exact h.status
  · rw [(hkeep a).2, (hkeep b).2]
    exact h.id

/-- A system call of `b`. -/
theorem elsewhere {c : Call} {r : Ctl Word} (hc : c.cur = b) (hrun : c.exec B k = some (r, k')) :
    Elsewhere B a k k' := by
  subst hc
  refine .syscall h.live' ?_ h.id hrun
  rw [h.status]
  decide

/-- `b` allocates a page where it has none. -/
theorem alloc_at (hv : v < stackPage) (hnone : k.space b v = none) {p q : ℕ} {t : List ℕ}
    (hl : l = p :: q :: t) :
    ∃ k' l' f d, k.dirs b = some d ∧ Elsewhere B a k k' ∧ Neighbours B M k' l' el a b ∧
      (∀ w, k'.space b w = if w = v then some (p, f) else k.space b w) ∧
      l'.length < l.length ∧
      l.length ≤ l'.length + 1 + if tableOf k.mem d (v / 1024) = none then 1 else 0 := by
  obtain ⟨d, hd, -⟩ := h.boot.inv.live_dir h.live'
  have hvU : v < NUPG := hv.trans (by decide)
  have hva := not_badVa_pageVa hvU
  have hnum := pgnum_pageVa hvU
  have hid : envid2env k b 0 true = some b := rfl
  have hperm : ¬ badPerm (PTE_U ||| PTE_P) := by decide
  rcases h.boot.inv.sysPageAlloc_outcome hid hd hva hperm hl fun q f hq ↦ h.refs_lt hq with
    ⟨-, hc, -⟩ | ⟨k', l', hok, hre, hlen, -⟩
  · cases hc
  rw [← pgnum_div, hnum] at hlen
  rw [hnum] at hre
  have hfresh : ∀ q f, some (p, PTE_U ||| PTE_P ||| (PTE_U ||| PTE_P) ||| PTE_P) = some (q, f) →
      q ∈ l := by
    intro q f hq
    obtain ⟨rfl, -⟩ := Prod.mk.inj (Option.some.inj hq)
    exact hl ▸ List.mem_cons_self
  refine ⟨k', l', PTE_U ||| PTE_P ||| (PTE_U ||| PTE_P) ||| PTE_P, d, hd, ?_,
    h.remaps hre hv.ne (fun hc ↦ absurd hc.symm h.ne) hfresh,
    fun w ↦ ?_, hre.length_lt rfl hl hnone, ?_⟩
  · refine h.elsewhere (c := { cur := b, no := 4, a2 := pageVa v, a3 := PTE_U ||| PTE_P }) rfl
      (r := .ret 0) ?_
    rw [Call.exec, syscall]
    show returned (sysPageAlloc B k b 0 (pageVa v) (PTE_U ||| PTE_P)) = _
    rw [hok]
    rfl
  · by_cases hwv : w = v
    · rw [if_pos hwv, hwv]
      exact hre.space_self
    · rw [if_neg hwv, hre.space_of_ne fun hc ↦ hwv hc.2]
  · rw [hl, List.length_cons]
    omega

/-- `b` allocates pages until at most two are left. -/
theorem drain (hoards : Hoards k b n) (hl : 1 ≤ l.length) (hn : n + l.length < stackPage) :
    ∃ k' l' n', Relation.ReflTransGen (Elsewhere B a) k k' ∧ Neighbours B M k' l' el a b ∧
      n ≤ n' ∧ n' + 1 < stackPage ∧ Hoards k' b n' ∧ 1 ≤ l'.length ∧ l'.length ≤ 2 ∧
      l.length ≤ l'.length + 2 * (n' - n) := by
  induction hlen : l.length using Nat.strong_induction_on generalizing k l n with
  | _ m ih =>
      by_cases hm : m ≤ 2
      · exact ⟨k, l, n, .refl, h, le_rfl, by omega, hoards, hl, by omega, by omega⟩
      obtain ⟨p, t', rfl⟩ := List.exists_cons_of_length_pos (l := l) (by omega)
      rw [List.length_cons] at hlen
      obtain ⟨q, t, rfl⟩ := List.exists_cons_of_length_pos (l := t') (by omega)
      have hnone : k.space b n = none :=
        not_not.mp fun hc ↦ lt_irrefl n ((hoards n (by omega)).mp hc)
      obtain ⟨k₁, l₁, f, d, -, hstep, h₁, hspace, hlt, hge⟩ := h.alloc_at (by omega) hnone rfl
      have hge : (p :: q :: t).length ≤ l₁.length + 2 := by split at hge <;> omega
      have hoards₁ : Hoards k₁ b (n + 1) := by
        intro v hv
        rw [hspace]
        by_cases hvn : v = n
        · simp [hvn]
        · rw [if_neg hvn, hoards v hv]
          omega
      rw [List.length_cons] at hn hlt hge
      obtain ⟨k₂, l₂, n₂, hrun, h₂, hle, hlast, hoards₂, hpos, htwo, hsum⟩ :=
        ih l₁.length (by omega) h₁ hoards₁ (by omega) (by omega) rfl
      exact ⟨k₂, l₂, n₂, .head hstep hrun, h₂, by omega, hlast, hoards₂, hpos, htwo, by omega⟩

/-- `b` allocates pages until one is left. -/
theorem drain_one (hoards : Hoards k b 0) (hl : 8 ≤ l.length) (hn : l.length < stackPage) :
    ∃ k' p, Relation.ReflTransGen (Elsewhere B a) k k' ∧ Neighbours B M k' [p] el a b ∧
      k'.space b 0 ≠ none ∧ k'.space b 1 ≠ none := by
  obtain ⟨k₁, l₁, n, hrun, h₁, -, hn₁, hoards₁, hge, hle, hlen⟩ :=
    h.drain hoards (by omega) (by omega)
  have hzero : k₁.space b 0 ≠ none := (hoards₁ 0 (by omega)).mpr (by omega)
  have hone : k₁.space b 1 ≠ none := (hoards₁ 1 (by omega)).mpr (by omega)
  match l₁, hge, hle with
  | [p], _, _ => exact ⟨k₁, p, hrun, h₁, hzero, hone⟩
  | [p, q], _, _ =>
      -- the table of the stack has room for one more page
      have hnone : k₁.space b (stackPage - 1) = none :=
        not_not.mp fun hc ↦ absurd ((hoards₁ _ (by decide)).mp hc) (by omega)
      obtain ⟨k₂, l₂, f, d, hd, hstep, h₂, hspace, hlt, hge₂⟩ := h₁.alloc_at (by decide) hnone rfl
      obtain ⟨x, hx⟩ := Option.ne_none_iff_exists'.mp h₁.stack'
      have htab := Kern.space_of_table hd hx
      rw [show stackPage / 1024 = (stackPage - 1) / 1024 from rfl] at htab
      rw [if_neg htab] at hge₂
      obtain ⟨p', rfl⟩ : ∃ p', l₂ = [p'] := by
        simp only [List.length_cons, List.length_nil] at hlt hge₂
        exact List.length_eq_one_iff.mp (by omega)
      refine ⟨k₂, p', hrun.tail hstep, h₂, ?_, ?_⟩
      · rw [hspace, if_neg (by decide)]
        exact hzero
      · rw [hspace, if_neg (by decide)]
        exact hone

/-- The first steps of `fork` in `a`. -/
theorem handler (entry : Word) (hl : 2 ≤ l.length) :
    ∃ k' l', Relation.ReflTransGen (OwnStep B entry a) (.handlerStack, k) (.exofork, k') ∧
      Neighbours B M k' l' el a b ∧ k'.space b = k.space b ∧ l.length ≤ l'.length + 2 := by
  obtain ⟨p, t, rfl⟩ := List.exists_cons_of_length_pos (l := l) (by omega)
  obtain ⟨d, hd, -⟩ := h.boot.inv.live_dir h.live
  have hva : ¬ badVa (UXSTACKTOP - 0x1000) := by decide
  have hid : ∀ k, envid2env k a 0 true = some a := fun _ ↦ rfl
  have hperm : ¬ badPerm (PTE_U ||| PTE_P ||| PTE_W) := by decide
  rcases h.boot.inv.sysPageAlloc_outcome (hid k) hd hva hperm rfl fun q f hq ↦ h.refs_lt hq with
    ⟨-, rfl, -⟩ | ⟨k₁, l₁, hok, hre, hlen, -⟩
  · simp at hl
  have h₁ : Neighbours B M k₁ l₁ el a b := by
    refine h.remaps hre (by decide) (fun _ ↦ by decide) fun q f hq ↦ ?_
    obtain ⟨rfl, -⟩ := Prod.mk.inj (Option.some.inj hq)
    exact List.mem_cons_self
  obtain ⟨h₂, hspace⟩ := h₁.modEnv (e := a) (f := fun env ↦ { env with envPgfaultUpcall := entry })
    Iff.rfl (fun hc ↦ absurd hc h.ne) rfl rfl rfl
  have hstep₁ : OwnStep B entry a (.handlerStack, k) (.handlerUpcall, k₁) := by
    refine ⟨h.live, ?_, trivial, h₁.boot.bounded⟩
    simp only [forkStep, hok, Option.bind_eq_bind, Option.bind_some]
    rfl
  have hstep₂ : OwnStep B entry a (.handlerUpcall, k₁) (.exofork, k₁.modEnv a fun env ↦
      { env with envPgfaultUpcall := entry }) := by
    refine ⟨h₁.live, ?_, trivial, h₂.boot.bounded⟩
    simp only [forkStep, sysEnvSetPgfaultUpcall, hid]
    rfl
  refine ⟨_, l₁, .tail (.single hstep₁) hstep₂, h₂, ?_, ?_⟩
  · rw [hspace, hre.space_of_slot_ne h.ne.symm]
  · rw [List.length_cons]
    split at hlen <;> omega

/-- `sys_exofork` of `a`. -/
theorem exofork (entry : Word) {d : ℕ} (hl : l = d :: l') (hel : el ≠ []) :
    ∃ k' child el', OwnStep B entry a (.exofork, k) (.loop child 0, k') ∧
      Neighbours B M k' l' el' a b ∧ k'.space b = k.space b ∧ Child k' a child ∧
      (∀ v, k'.space (envx child) v = none) ∧ k'.dirs (envx child) = some d ∧
      ∀ i < NUPDE, tableOf k'.mem d i = none := by
  rcases h.boot.inv.sysExofork_outcome h.live with
    ⟨r, ⟨-, hr⟩, -⟩ | ⟨ch, d', l'', el', k', hl', hok, hfree, henv, hoth, hinv, hev, hnone,
      hsu⟩
  · rcases hr with hr | hr
    · exact absurd hr hel
    · rw [hl] at hr
      cases hr
  obtain ⟨rfl, rfl⟩ := List.cons.inj (hl.symm.trans hl')
  have hchild : Child k' a _ := .of_exofork h.live hfree henv hoth
  have hslot : envx (nextEnvId (k.envs ch).envId ch) = ch := envx_nextEnvId _ ch
  have hboot := h.boot.evolve hinv hev
  have ha : a ≠ ch := by
    rintro rfl
    exact h.live hfree
  have hb : b ≠ ch := by
    rintro rfl
    exact h.live' hfree
  have hspace : ∀ e, e ≠ ch → k'.space e = k.space e := fun e he ↦ (hev.others e he).2
  refine ⟨k', _, el', ⟨h.live, ?_, trivial, hboot.bounded⟩, ⟨hboot, h.ne, ?_, ?_, ?_, ?_, ?_, ?_⟩,
    hspace b hb, hchild, fun v ↦ by rw [hslot, hnone], ?_, fun i hi ↦ ?_⟩
  · simp only [forkStep, hok, Option.bind_eq_bind, Option.bind_some]
    rw [if_neg (not_lt.mpr (nextEnvId_pos _ ch).le)]
    rfl
  · rw [Kern.Live, hoth a ha]
    exact h.live
  · rw [hoth b hb]
    exact h.status
  · rw [hoth a ha, hoth b hb]
    exact h.id
  · rw [hspace a ha]
    exact h.stack
  · rw [hspace a ha]
    exact h.below
  · rw [hspace b hb]
    exact h.stack'
  · rw [hslot, Kern.dirs, henv]
    rfl
  · rw [tableOf_eq_none, hsu.empty i hi]
    decide

/-- The loop goes past all that is below the stack. -/
theorem skip (entry : Word) (hv : v ≤ stackPage) :
    Relation.ReflTransGen (OwnStep B entry a) (.loop child 0, k) (.loop child v, k) := by
  induction v with
  | zero => exact .refl
  | succ v ih =>
      have hnone := h.below v hv
      have hlt : v < pgnum USTACKTOP := (Nat.lt_of_succ_le hv).trans (by decide)
      refine (ih (Nat.le_of_succ_le hv)).tail ⟨h.live, ?_, ?_, h.boot.bounded⟩
      · exact forkStep_skip ⟨h.boot.inv, h.boot.prot⟩ h.live hlt hnone
      · intro _ hc
        exact absurd hnone hc

/-- With memory for the table, it is mapped. -/
theorem dup_ok (entry : Word) (hl : 1 ≤ l.length) (hchild : Child k a child)
    (hd : k.dirs (envx child) = some d) :
    ∃ k' l', Relation.ReflTransGen (OwnStep B entry a) (.loop child stackPage, k)
        (.loop child (stackPage + 1), k') ∧
      RunInv B M k' l' el ∧ k'.Bounded B ∧ k'.Live a ∧ Child k' a child ∧
      l.length ≤ l'.length + 2 := by
  obtain ⟨⟨p, f⟩, hp⟩ := Option.ne_none_iff_exists'.mp h.stack
  obtain ⟨pte, rfl, hdup⟩ := forkStep_dup B entry child
    (show stackPage < pgnum USTACKTOP by decide) hp
  have hvU : stackPage < NUPG := by decide
  have hva := not_badVa_pageVa hvU
  have hnum := pgnum_pageVa hvU
  have hself : ∀ k, envid2env k a 0 true = some a := fun _ ↦ rfl
  have hfree : k.mem.pageFreeList ≠ none := by
    obtain ⟨q, t, rfl⟩ := List.exists_cons_of_length_pos hl
    rw [h.boot.inv.own.ledger.chain.head_eq]
    simp
  rcases h.boot.inv.sysPageMap_ok hchild.found hd hva (hself k) hva (not_badPerm_dupPerm pte)
      (by rw [hnum]; exact hp) (fun hc ↦ absurd hc (not_isSet_W_dupPerm _))
      (fun q f hq ↦ h.refs_lt hq) with ⟨hno, -⟩ | ⟨k₁, l₁, hok, hroom, hre, hlen⟩
  · exact absurd (.inr hfree) hno
  rw [hnum] at hre
  have hinv₁ : RunInv B M k₁ l₁ el := ⟨hre.inv, h.boot.prot.of_same hre.kern⟩
  have hrefs₁ := (hre.refs_le le_rfl h.boot.solo).1
  have hb₁ : k₁.Bounded B := fun p ↦ (hrefs₁ p).trans (by decide)
  have hchild₁ : Child k₁ a child := hchild.of_envs (by rw [hre.envs]) (by rw [hre.envs])
  have hstep₁ : OwnStep B entry a (.loop child stackPage, k)
      (if ¬ (0 : Word).toInt < 0 ∧ isSet pte (PTE_W ||| PTE_COW) then .remap child stackPage
        else .loop child (stackPage + 1), k₁) := by
    refine ⟨h.live, ?_, ?_, hb₁⟩
    · rw [hdup, hok]
      rfl
    · intro _ _ d' hd'
      rw [hd] at hd'
      cases hd'
      exact hroom
  have hlen₁ : l.length ≤ l₁.length + 1 := by split at hlen <;> omega
  split at hstep₁
  swap
  · exact ⟨k₁, l₁, .single hstep₁, hinv₁, hb₁, hre.live h.live, hchild₁, by omega⟩
  -- the second call of `duppage`
  obtain ⟨d₀, hd₀, -⟩ := hinv₁.inv.live_dir (hre.live h.live)
  have hp₁ : k₁.space a stackPage = some (p, flags pte) := by
    rw [hre.space_of_slot_ne hchild.ne.symm, hp]
  rcases hinv₁.inv.sysPageMap_ok (hself k₁) hd₀ hva (hself k₁) hva
      (show ¬ badPerm (PTE_U ||| PTE_P ||| PTE_COW) by decide) (by rw [hnum]; exact hp₁)
      (fun hc ↦ absurd hc (by decide)) (fun q f _ ↦ Nat.lt_succ_of_le (hb₁ q)) with
    ⟨-, hfail⟩ | ⟨k₂, l₂, hok₂, -, hre₂, hlen₂⟩
  · refine ⟨k₁, l₁, .tail (.single hstep₁) ⟨hre.live h.live, ?_, trivial, hb₁⟩, hinv₁, hb₁,
      hre.live h.live, hchild₁, by omega⟩
    simp only [forkStep, hfail, Option.bind_eq_bind, Option.bind_some]
    rfl
  · have hb₂ : k₂.Bounded B := fun p ↦ ((hre₂.refs_le (by decide) hrefs₁).1 p).trans (by decide)
    have hlen₂ : l₁.length ≤ l₂.length + 1 := by split at hlen₂ <;> omega
    refine ⟨k₂, l₂, .tail (.single hstep₁) ⟨hre.live h.live, ?_, trivial, hb₂⟩,
      ⟨hre₂.inv, hinv₁.prot.of_same hre₂.kern⟩, hb₂, hre₂.live (hre.live h.live),
      hchild₁.of_envs (by rw [hre₂.envs]) (by rw [hre₂.envs]), by omega⟩
    simp only [forkStep, hok₂, Option.bind_eq_bind, Option.bind_some]
    rfl

end Neighbours

/-- The machine boots with two such environments, each with its stack. -/
theorem exists_neighbours_stack : ∃ k l el a b, Booted demoConfig k ∧
    Neighbours demoConfig.machine demoConfig.pool k l el a b ∧ Hoards k b 0 ∧ 1000 ≤ l.length ∧
    el ≠ [] ∧ ∃ p, k.space a stackPage = some (p, PTE_W ||| PTE_U ||| PTE_P) := by
  obtain ⟨k, l, el, a, b, env₁, env₂, d₁, d₂, hboot, hinv, hlen, hne, -, henv₁, -, henv₂, hfree,
    ⟨p₁, hstack₁⟩, p₂, hstack₂⟩ := exists_booted
  have hpage : pgnum (USTACKTOP - 0x1000) = stackPage := by decide
  rw [hpage] at hstack₁ hstack₂
  refine ⟨k, l, el, a, b, hboot, ⟨hinv, hne, ?_, by rw [henv₂]; rfl, ?_, ?_, fun v hv ↦ ?_, ?_⟩,
    fun v hv ↦ ?_, hlen, ?_, p₁, (hstack₁ stackPage).trans (if_pos rfl)⟩
  · rw [Kern.Live, henv₁]
    exact EnvStatus.noConfusion
  · rw [henv₁, henv₂]
    intro hc
    have hslot := congrArg envx hc
    have h₁ : envx (createdEnv env₁ a d₁ 0).envId = a := envx_nextEnvId _ a
    have h₂ : envx (createdEnv env₂ b d₂ 0).envId = b := envx_nextEnvId _ b
    rw [h₁, h₂] at hslot
    exact hne hslot.symm
  · rw [hstack₁, if_pos rfl]
    simp
  · rw [hstack₁, if_neg hv.ne]
  · rw [hstack₂, if_pos rfl]
    simp
  · rw [hstack₂, if_neg hv.ne]
    simp
  · obtain ⟨e, he₁, he₂⟩ := exists_slot_ne a b
    exact List.ne_nil_of_mem ((hinv.inv.mem_el e).mpr (hfree e he₁ he₂).1)

/-- The machine boots with two such environments. -/
theorem exists_neighbours : ∃ k l el a b, Booted demoConfig k ∧
    Neighbours demoConfig.machine demoConfig.pool k l el a b ∧ Hoards k b 0 ∧ 1000 ≤ l.length ∧
    el ≠ [] := by
  obtain ⟨k, l, el, a, b, hboot, h, hoards, hlen, hel, -⟩ := exists_neighbours_stack
  exact ⟨k, l, el, a, b, hboot, h, hoards, hlen, hel⟩

/-- Right after boot an environment runs, and its `fork` goes through; nobody disturbs it. -/
theorem exists_own_fork (entry : Word) : ∃ k₀ l el a child k k', Booted demoConfig k₀ ∧
    (k₀.envs a).envStatus = .runnable ∧
    let k₁ := k₀.modEnv a fun env ↦ { env with envStatus := .running }
    BootInv demoConfig.machine demoConfig.pool k₁ l el ∧
    (∃ p, k₁.space a stackPage = some (p, PTE_W ||| PTE_U ||| PTE_P)) ∧
    Relation.ReflTransGen (OwnStep demoConfig.machine entry a) (ForkPc.start false, k₁)
      (.status child, k) ∧ k.Live a ∧
    forkStep demoConfig.machine entry a k (.status child) = some (.done child, k') := by
  obtain ⟨k₀, l, el, a, b, hboot, hnb, -, hlen, hel, hstack⟩ := exists_neighbours_stack
  have hready : (k₀.envs a).envStatus = .runnable := by
    rcases hboot.envs a with ⟨hfree, -⟩ | ⟨hready, -⟩
    · exact absurd hfree hnb.live
    · exact hready
  obtain ⟨h₀, hspace⟩ := hnb.modEnv (e := a) (f := fun env ↦ { env with envStatus := .running })
    (by simp [hready]) (fun hc ↦ absurd hc hnb.ne) rfl rfl rfl
  obtain ⟨k₁, l₁, hrun₁, h₁, -, hlen₁⟩ := h₀.handler entry (by omega)
  obtain ⟨d, l₂, rfl⟩ := List.exists_cons_of_length_pos (l := l₁) (by omega)
  rw [List.length_cons] at hlen₁
  obtain ⟨k₂, child, el₂, hstep₂, h₂, -, hchild₂, -, hd₂, -⟩ := h₁.exofork entry rfl hel
  obtain ⟨k₃, l₃, hrun₃, h₃, hb₃, hlive₃, hchild₃, hlen₃⟩ :=
    h₂.dup_ok entry (by omega) hchild₂ hd₂
  have hend : OwnStep demoConfig.machine entry a (.loop child (stackPage + 1), k₃)
      (.stack child, k₃) :=
    ⟨hlive₃, by rw [forkStep, if_neg (by decide)], fun hc ↦ absurd hc (by decide), hb₃⟩
  obtain ⟨k₄, k₅, hrun₄, hlive₄, hlast, -⟩ := hchild₃.finish h₃ hb₃ hlive₃ entry (by omega)
  refine ⟨k₀, l, el, a, child, k₄, k₅, hboot, hready, h₀.boot, hspace ▸ hstack, ?_, hlive₄,
    hlast⟩
  exact ((((hrun₁.tail hstep₂).trans (h₂.skip entry le_rfl)).trans hrun₃).tail hend).trans hrun₄

/-- Right after boot an environment runs, and its `fork` goes through. -/
theorem exists_whole_fork (entry : Word) : ∃ k₀ l el a child k k', Booted demoConfig k₀ ∧
    (k₀.envs a).envStatus = .runnable ∧
    let k₁ := k₀.modEnv a fun env ↦ { env with envStatus := .running }
    RunInv demoConfig.machine demoConfig.pool k₁ l el ∧ k₁.Bounded demoConfig.machine ∧
    Relation.ReflTransGen (OwnStep demoConfig.machine entry a) (ForkPc.start false, k₁)
      (.status child, k) ∧
    forkStep demoConfig.machine entry a k (.status child) = some (.done child, k') := by
  obtain ⟨k₀, l, el, a, child, k, k', hboot, hready, h, -, hrun, -, hlast⟩ := exists_own_fork entry
  exact ⟨k₀, l, el, a, child, k, k', hboot, hready, ⟨h.inv, h.prot⟩, h.bounded, hrun, hlast⟩

end Jos
