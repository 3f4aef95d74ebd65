import Jos.Kern.Refcount
import Jos.Kern.EnvId

/-!
# Pages sent with a message

`sys_ipc_try_send` is documented to set `env_ipc_perm` of the receiver to `perm` if a page was
transferred and to 0 otherwise.  It stores `perm` next to `page_insert`, and 0 if the sender sends
no page; if the sender sends one and the receiver asked for none, it stores nothing, and the
receiver finds the permission of an earlier message.
-/

namespace Jos

open Jos.Lib

variable {B : Machine} {M : Pool B} {k k' : Kern} {l : List ℕ} {el : List Slot} {cur e : Slot}
  {envid value srcva perm : Word}

/-- The send maps the page of the sender at `srcva` where the receiver `e` asked for it. -/
def Transfers (B : Machine) (k : Kern) (cur e : Slot) (srcva perm : Word) (k' : Kern) : Prop :=
  srcva < UTOP ∧ (k.envs e).envIpcDstva < UTOP ∧ ∃ d d' p t j,
    (k.envs cur).envPgdir = some d ∧ pageLookup B k.mem d srcva = some (some (p, t, j)) ∧
    (k.envs e).envPgdir = some d' ∧
    pageInsert B k.mem d' p (k.envs e).envIpcDstva perm = some (0, k'.mem)

/-- What a send that returns 0 did. -/
theorem sent_cases (hid : envid2env k cur envid false = some e)
    (h : sysIpcTrySend B k cur envid value srcva perm = some (0, k')) :
    (UTOP ≤ srcva ∧
      k' = ipcDeliver (k.modEnv e fun env ↦ { env with envIpcPerm := 0 }) cur e value) ∨
    (srcva < UTOP ∧ UTOP ≤ (k.envs e).envIpcDstva ∧ k' = ipcDeliver k cur e value) ∨
    (Transfers B k cur e srcva perm k' ∧ (k'.envs e).envIpcPerm = perm) := by
  have fail : ∀ {w : Word} {k₁ : Kern} {P : Prop}, w ≠ 0 → some (w, k₁) = some (0, k') → P := by
    intro w k₁ P hw heq
    exact absurd (Prod.mk.inj (Option.some.inj heq)).1 hw
  simp only [sysIpcTrySend, hid] at h
  split at h
  · exact fail (by decide) h
  split at h
  swap
  · next hsrc =>
      exact .inl ⟨BitVec.not_lt.mp hsrc, (Prod.mk.inj (Option.some.inj h)).2.symm⟩
  next hsrc =>
  split at h
  · exact fail (by decide) h
  split at h
  · exact fail (by decide) h
  simp only [Option.bind_eq_bind, Option.bind_eq_some_iff] at h
  obtain ⟨d, hd, o, hlook, h⟩ := h
  cases o with
  | none => exact fail (by decide) h
  | some x =>
  obtain ⟨p, t, j⟩ := x
  simp only at h
  split at h
  · exact fail (by decide) h
  split at h
  swap
  · next hdst =>
      exact .inr (.inl ⟨hsrc, BitVec.not_lt.mp hdst, (Prod.mk.inj (Option.some.inj h)).2.symm⟩)
  next hdst =>
  simp only [Option.bind_eq_some_iff, Prod.exists] at h
  obtain ⟨d', hd', w, m, hins, h⟩ := h
  split at h
  · exact fail (by decide) h
  next hw =>
  obtain rfl : w = 0 := (pageInsert_cases hins).resolve_left fun hc ↦ hw (by rw [hc.1]; decide)
  obtain rfl := (Prod.mk.inj (Option.some.inj h)).2
  exact .inr (.inr ⟨⟨hsrc, hdst, d, d', p, t, j, hd, hlook, hd', hins⟩, by simp [ipcDeliver]⟩)

/-- The state after an accepted `sys_ipc_recv` of `e`. -/
def Kern.waiting (k : Kern) (e : Slot) (dstva : Word) : Kern :=
  k.modEnv e fun env ↦
    { env with envIpcRecving := true, envIpcDstva := dstva, envStatus := .notRunnable }

theorem exec_recvCall {dstva : Word} (h : ¬ (dstva < UTOP ∧ pgoff dstva ≠ 0)) :
    Call.exec B k { cur := e, no := 12, a1 := dstva } =
      some (.yield (some e), k.waiting e dstva) := by
  simp only [Call.exec, syscall, show sysNo 12 = some .ipcRecv from rfl, sysIpcRecv, if_neg h,
    Kern.waiting]

/-- A send that returns 0 and transfers no page leaves memory as it is, and its report to the
receiver is right (`perm` if it transferred a page and 0 otherwise) if and only if the sender sent
no page, or the receiver asked for one, or `env_ipc_perm` was 0 already. -/
theorem ipc_perm_reported_iff (hid : envid2env k cur envid false = some e)
    (hsend : sysIpcTrySend B k cur envid value srcva perm = some (0, k')) :
    (¬ Transfers B k cur e srcva perm k' → k'.mem = k.mem) ∧
    ((Transfers B k cur e srcva perm k' → (k'.envs e).envIpcPerm = perm) ∧
        (¬ Transfers B k cur e srcva perm k' → (k'.envs e).envIpcPerm = 0) ↔
      UTOP ≤ srcva ∨ (k.envs e).envIpcDstva < UTOP ∨ (k.envs e).envIpcPerm = 0) := by
  rcases sent_cases hid hsend with ⟨hsrc, rfl⟩ | ⟨hsrc, hdst, rfl⟩ | ⟨htransfer, hperm⟩
  · have hno : ∀ k', ¬ Transfers B k cur e srcva perm k' := fun _ h ↦
      absurd h.1 (BitVec.not_lt.mpr hsrc)
    refine ⟨fun _ ↦ rfl, fun _ ↦ .inl hsrc, fun _ ↦ ⟨fun h ↦ absurd h (hno _), fun _ ↦ ?_⟩⟩
    simp [ipcDeliver]
  · have hno : ∀ k', ¬ Transfers B k cur e srcva perm k' := fun _ h ↦
      absurd h.2.1 (BitVec.not_lt.mpr hdst)
    have hold : ((ipcDeliver k cur e value).envs e).envIpcPerm = (k.envs e).envIpcPerm := by
      simp [ipcDeliver]
    refine ⟨fun _ ↦ rfl, fun h ↦ .inr (.inr (hold.symm.trans (h.2 (hno _)))), fun h ↦
      ⟨fun h ↦ absurd h (hno _), fun _ ↦ ?_⟩⟩
    rcases h with h | h | h
    · exact absurd hsrc (BitVec.not_lt.mpr h)
    · exact absurd h (BitVec.not_lt.mpr hdst)
    · exact hold.trans h
  · exact ⟨fun h ↦ absurd htransfer h, fun _ ↦ .inr (.inl htransfer.2.1),
      fun _ ↦ ⟨fun _ ↦ hperm, fun h ↦ absurd htransfer h⟩⟩

/-- `b` waits, and `a` sends it a number. -/
theorem ipc_perm_reported_number : ∃ k k' a b, k.Live a ∧
    sysIpcTrySend demoConfig.machine k a (k.envs b).envId 5 UTOP 0 = some (0, k') ∧
    ¬ Transfers demoConfig.machine k a b UTOP 0 k' ∧ k'.mem = k.mem ∧
    (k'.envs b).envIpcPerm = 0 := by
  obtain ⟨k, l, el, a, b, env₁, env₂, d₁, d₂, -, -, -, hne, -, henv₁, -, henv₂, -⟩ := exists_booted
  have hid : ((k.waiting b UTOP).envs b).envId = nextEnvId env₂.envId b := by
    simp [Kern.waiting, henv₂, createdEnv, freshEnv]
  have hwait : ((k.waiting b UTOP).envs b).envStatus = .notRunnable := by simp [Kern.waiting]
  have hfound : envid2env (k.waiting b UTOP) a ((k.waiting b UTOP).envs b).envId false =
      some b := by
    rw [envid2env, hid, if_neg (nextEnvId_ne_zero _ _), envx_nextEnvId]
    simp [hid, hwait]
  have hsend : sysIpcTrySend demoConfig.machine (k.waiting b UTOP) a
      ((k.waiting b UTOP).envs b).envId 5 UTOP 0 = some (0, ipcDeliver ((k.waiting b UTOP).modEnv b
        fun env ↦ { env with envIpcPerm := 0 }) a b 5) := by
    simp only [sysIpcTrySend, hfound, if_neg (show ¬ UTOP < UTOP by decide)]
    exact if_neg (by simp [Kern.waiting])
  have hno : ∀ k', ¬ Transfers demoConfig.machine (k.waiting b UTOP) a b UTOP 0 k' :=
    fun _ h ↦ absurd h.1 (by decide)
  obtain ⟨hmem, hiff⟩ := ipc_perm_reported_iff hfound hsend
  refine ⟨_, _, a, b, ?_, hsend, hno _, hmem (hno _), (hiff.mpr (.inl (by decide))).2 (hno _)⟩
  rw [Kern.Live, Kern.waiting, Kern.envs_modEnv_of_ne _ _ hne, henv₁]
  simp [createdEnv, freshEnv]

/-! ## A page that is not asked for -/

/-- The environment `a` has page `p` at address 0, and `b` is another one with a proper id. -/
structure Pair (B : Machine) (M : Pool B) (k : Kern) (l : List ℕ) (el : List Slot) (a b : Slot)
    (p : ℕ) : Prop where
  inv : Inv B M k l el
  ne : a ≠ b
  live : k.Live a
  live' : k.Live b
  slot : envx (k.envs b).envId = b
  id_ne : (k.envs b).envId ≠ 0
  maps : ∃ f, k.space a 0 = some (p, f)

namespace Pair

variable {a b : Slot} {p : ℕ}

theorem found (h : Pair B M k l el a b p) : envid2env k a (k.envs b).envId false = some b := by
  rw [envid2env, if_neg h.id_ne]
  simp [h.slot, h.live'.ne_free]

theorem modEnv (h : Pair B M k l el a b p) {f : Env → Env}
    (hfree : (f (k.envs b)).envStatus ≠ .free)
    (hdir : (f (k.envs b)).envPgdir = (k.envs b).envPgdir)
    (hlink : (f (k.envs b)).envLink = (k.envs b).envLink)
    (hid : (f (k.envs b)).envId = (k.envs b).envId) : Pair B M (k.modEnv b f) l el a b p := by
  have hst : (f (k.envs b)).envStatus = .free ↔ (k.envs b).envStatus = .free :=
    iff_of_false hfree h.live'.ne_free
  refine ⟨h.inv.modEnv hst hdir hlink, h.ne, ?_, ?_, ?_, ?_, ?_⟩
  · rw [Kern.Live, Kern.envs_modEnv_of_ne _ _ h.ne]
    exact h.live
  · rw [Kern.Live, Kern.envs_modEnv_self]
    exact hfree
  · rw [Kern.envs_modEnv_self, hid, h.slot]
  · rw [Kern.envs_modEnv_self, hid]
    exact h.id_ne
  · rw [Kern.space, Kern.dirs_modEnv hst hdir]
    exact h.maps

/-- What a send of the page comes to. -/
theorem sysIpcTrySend_eq (h : Pair B M k l el a b p) (hrecv : (k.envs b).envIpcRecving = true) :
    ∃ d, k.dirs b = some d ∧ (k.envs b).envPgdir = some d ∧
      sysIpcTrySend B k a (k.envs b).envId 0 0 (PTE_U ||| PTE_P) =
        if (k.envs b).envIpcDstva < UTOP then do
          let (r, m) ← pageInsert B k.mem d p (k.envs b).envIpcDstva (PTE_U ||| PTE_P)
          let k := (k.setMem m).modEnv b fun env ↦ { env with envIpcPerm := PTE_U ||| PTE_P }
          if r.toInt < 0 then return (-E_NO_MEM, k) else return (0, ipcDeliver k a b 0)
        else some (0, ipcDeliver k a b 0) := by
  obtain ⟨d, hd, hpg⟩ := h.inv.live_dir h.live
  obtain ⟨d', hd', hpg'⟩ := h.inv.live_dir h.live'
  obtain ⟨f, hf⟩ := h.maps
  have hva : (0 : Word) < UTOP := by decide
  have hperm : ¬ badPerm (PTE_U ||| PTE_P) := by decide
  have hW : ¬ isSet (PTE_U ||| PTE_P) PTE_W := by decide
  have hoff : pgoff (0 : Word) = 0 := by decide
  refine ⟨d', hd', hpg', ?_⟩
  rcases h.inv.pageLookup_space hd hva with ⟨hnone, -⟩ | ⟨q, g, t, j, hq, hlook, -⟩
  · exact absurd (hf.symm.trans hnone) (by simp)
  · obtain ⟨rfl, -⟩ := Prod.mk.inj (Option.some.inj (hf.symm.trans hq))
    simp only [sysIpcTrySend, h.found, hrecv, hoff, hpg, hpg', hlook, not_true_eq_false,
      if_false, if_pos hva, if_neg hperm, ne_eq, hW, and_false, Option.bind_eq_bind,
      Option.bind_some]
    rfl

/-- The page is mapped at address 0 of `b`, if `b` asked for it there. -/
theorem send_asked (h : Pair B M k l el a b p) (hb : k.Bounded B) (hl : l ≠ [])
    (hrecv : (k.envs b).envIpcRecving = true) (hdst : (k.envs b).envIpcDstva = 0) :
    ∃ m' l', sysIpcTrySend B k a (k.envs b).envId 0 0 (PTE_U ||| PTE_P) = some (0,
        ipcDeliver ((k.setMem m').modEnv b fun env ↦ { env with envIpcPerm := PTE_U ||| PTE_P })
          a b 0) ∧
      Pair B M (k.setMem m') l' el a b p := by
  obtain ⟨d, hd, -, heq⟩ := h.sysIpcTrySend_eq hrecv
  obtain ⟨f, hf⟩ := h.maps
  obtain ⟨hpM, hpl, hpu⟩ := h.inv.mapped hf
  have hva : (0 : Word) < UTOP := by decide
  rcases h.inv.own.pageInsert_spec hd hva hpM hpl hpu
    (show (PTE_U ||| PTE_P).toNat < 4096 by decide)
      (fun q _ ↦ Nat.lt_succ_of_le (hb q)) with ⟨-, hnil, -⟩ | ⟨m', l', hins, hown, hre, -⟩
  · exact absurd hnil hl
  · have hloose : (∅ : Set ℕ) \ {p} = ∅ := by simp
    rw [hloose] at hown
    refine ⟨m', l', ?_, h.inv.setMem_remapped hown hre, h.ne, h.live, h.live', h.slot, h.id_ne, f,
      ?_⟩
    · rw [heq, hdst, if_pos hva, hins]
      rfl
    · have hspace : (k.setMem m').space = _ := hre.addrSpaces_eq (by rw [hd]; simp)
      rw [hspace, AddrSpaces.set, if_neg fun hc ↦ h.ne hc.1]
      exact hf

/-- The page is dropped, if `b` asked for none. -/
theorem send_unasked (h : Pair B M k l el a b p) (hrecv : (k.envs b).envIpcRecving = true)
    (hdst : (k.envs b).envIpcDstva = UTOP) :
    sysIpcTrySend B k a (k.envs b).envId 0 0 (PTE_U ||| PTE_P) = some (0, ipcDeliver k a b 0) := by
  obtain ⟨d, -, -, heq⟩ := h.sysIpcTrySend_eq hrecv
  rw [heq, hdst, if_neg (by decide)]

end Pair

/-- `b` waits for a page and gets one from `a`; then it waits for a number, and `a` sends the page
again: `b` is told the permission of a page that it did not get. -/
theorem ipc_perm_stale : ∃ k₀ k k' a b envid, Booted demoConfig k₀ ∧
    SysRun demoConfig.machine (fun _ _ ↦ True) k₀ k ∧ k.Live a ∧
    envid2env k a envid false = some b ∧
    sysIpcTrySend demoConfig.machine k a envid 0 0 (PTE_U ||| PTE_P) = some (0, k') ∧
    ¬ Transfers demoConfig.machine k a b 0 (PTE_U ||| PTE_P) k' ∧ (k'.envs b).envIpcPerm ≠ 0 := by
  obtain ⟨k₀, l, el, a, b, env₁, env₂, d₁, d₂, boot, h, hlen, hne, -, henv₁, -, henv₂, -⟩ :=
    exists_booted
  have live₁ : k₀.Live a := by
    rw [Kern.Live, henv₁]
    simp [createdEnv, freshEnv]
  have live₂ : k₀.Live b := by
    rw [Kern.Live, henv₂]
    simp [createdEnv, freshEnv]
  obtain ⟨m₁, l₁, p, hexec₁, h₁, hlen₁⟩ := h.shares live₁ (by omega)
  have hid : (k₀.envs b).envId = nextEnvId env₂.envId b := by
    rw [henv₂]
    rfl
  have hpair : Pair demoConfig.machine demoConfig.pool (k₀.setMem m₁) l₁ el a b p :=
    ⟨h₁.inv, hne, live₁, live₂, by simp [hid], by simpa [hid] using nextEnvId_ne_zero _ _,
      (h₁.maps a 0).mpr ⟨rfl, Nat.one_pos⟩⟩
  -- `b` waits for a page, and `a` sends it
  let k₂ := (k₀.setMem m₁).waiting b 0
  have hpair₂ : Pair demoConfig.machine demoConfig.pool k₂ l₁ el a b p :=
    hpair.modEnv (by simp) rfl rfl rfl
  have hbounded : k₂.Bounded demoConfig.machine := by
    intro q
    have hdirs : k₂.dirs = (k₀.setMem m₁).dirs :=
      Kern.dirs_modEnv (iff_of_false (by simp) live₂.ne_free) rfl
    rw [hdirs]
    by_cases hq : q = p
    · rw [hq]
      exact h₁.refs.trans_le (by decide)
    · exact (h₁.solo q hq).trans (by decide)
  obtain ⟨m₃, l₃, hsend₃, hpair₃⟩ := hpair₂.send_asked hbounded
    (List.ne_nil_of_length_pos (by omega)) (by simp [k₂, Kern.waiting]) (by simp [k₂, Kern.waiting])
  -- `b` waits for a number, and `a` sends the page once more
  let k₃ := ipcDeliver ((k₂.setMem m₃).modEnv b fun env ↦
    { env with envIpcPerm := PTE_U ||| PTE_P }) a b 0
  let k₄ := k₃.waiting b UTOP
  have hperm : Pair demoConfig.machine demoConfig.pool ((k₂.setMem m₃).modEnv b fun env ↦
      { env with envIpcPerm := PTE_U ||| PTE_P }) l₃ el a b p :=
    hpair₃.modEnv hpair₃.live'.ne_free rfl rfl rfl
  have hpair₄ : Pair demoConfig.machine demoConfig.pool k₄ l₃ el a b p :=
    (hperm.modEnv (by simp) rfl rfl rfl).modEnv (by simp) rfl rfl rfl
  have hdst : (k₄.envs b).envIpcDstva = UTOP := by simp [k₄, Kern.waiting]
  have hsend₄ := hpair₄.send_unasked (by simp [k₄, Kern.waiting]) hdst
  have hexec₃ : Call.exec demoConfig.machine k₂
      { cur := a, no := 11, a1 := (k₂.envs b).envId, a4 := PTE_U ||| PTE_P } =
        some (.ret 0, k₃) := by
    simp only [Call.exec, syscall, show sysNo 11 = some .ipcTrySend from rfl, returned, hsend₃,
      Option.map_some, k₃]
  refine ⟨k₀, k₄, _, a, b, _, boot, ?_, hpair₄.live, hpair₄.found, hsend₄, ?_, ?_⟩
  · exact (((Relation.ReflTransGen.single ⟨_, _, live₁, trivial, hexec₁⟩).tail
      ⟨{ cur := b, no := 12 }, _, live₂, trivial, exec_recvCall (by decide)⟩).tail
      ⟨_, _, hpair₂.live, trivial, hexec₃⟩).tail
      ⟨{ cur := b, no := 12, a1 := UTOP }, _, by simp [k₃, ipcDeliver, Kern.Live], trivial,
        exec_recvCall (by decide)⟩
  · rintro ⟨-, hc, -⟩
    rw [hdst] at hc
    exact absurd hc (by decide)
  · simp [ipcDeliver, k₄, k₃, Kern.waiting, PTE_U, PTE_P]

end Jos
