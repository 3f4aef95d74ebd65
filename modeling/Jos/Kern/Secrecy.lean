import Jos.Kern.Cover
import Jos.Kern.EnvFree
import Jos.Kern.Cputs
import Jos.Kern.KernMap
import Jos.Kern.UserCheck

/-!
# What an environment has for itself

The pages that belong to an environment alone, its directory and page tables among them, are hidden
from the kernel when it works for somebody else: no system call of another environment, and no fault
of it, looks at them (`Hidden.syscall_cover`).  The exception is `sys_cputs` with a length that
takes the range past the end of the address space or that is negative as an `int`.
-/

namespace Jos

open Jos.Lib Printfmt

/-- The state of the kernel, with the contents `g` in the pages of `P`. -/
noncomputable def Kern.cover (k : Kern) (P : Set ℕ) (g : ℕ → ℕ → Word) : Kern :=
  k.setMem (k.mem.cover P g)

/-- What the kernel shows to user programs at `UENVS` and `UPAGES` are no pages of the allocator. -/
def Windows (B : Machine) (M : Pool B) (m : Mem) : Prop :=
  ∀ v p, KernPage v → v < pgnum ULIM → entryFrame (pteOf m B.kernPgdir v) = some p →
    p ∉ M.carrier

/-- Nobody but `a` comes upon a page of `P`. -/
structure Hidden (B : Machine) (M : Pool B) (k : Kern) (a : Slot) (P : Set ℕ) : Prop where
  penned : Penned (M.without P) k.mem (Function.update k.dirs a none)
  kern : B.kernPgdir ∉ P
  table : ∀ e d i t, e ≠ a → k.dirs e = some d → i < NPDENTRIES → tableOf k.mem d i = some t → t ∉ P
  load : ∀ e d va pde pte, e ≠ a → k.dirs e = some d → va < ULIM →
    k.mem.walk d va = some (pde, pte) → frame pte ∉ P

variable {B : Machine} {M : Pool B} {k k' : Kern} {l : List ℕ} {el : List Slot} {a cur e : Slot}
  {P : Set ℕ} {g : ℕ → ℕ → Word} {p : ℕ}

theorem Windows.of_same {m m' : Mem} (h : Windows B M m) (hk : KernSame B m m') :
    Windows B M m' := by
  intro v p hv hlt hp
  have htab : tableOf m' B.kernPgdir (v / 1024) = tableOf m B.kernPgdir (v / 1024) := by
    rw [tableOf, tableOf, hk.pgdir]
  apply h v p hv hlt
  cases ht : tableOf m B.kernPgdir (v / 1024) with
  | none =>
      rw [pteOf_of_no_table (htab.trans ht)] at hp
      rwa [pteOf_of_no_table ht]
  | some t =>
      have hi : v / 1024 < NPDENTRIES := by
        have := hv.lt
        rw [NPDENTRIES]
        omega
      rw [pteOf_of_table (htab.trans ht), hk.tables _ t hv.ge hi hv.ne ht] at hp
      rwa [pteOf_of_table ht]

/-! ## Pages of one environment -/

section

variable (h : Inv B M k l el)

include h

/-- A page belongs to `a` alone if there are references to it and all are from `a`. -/
theorem Inv.ownedBy_iff : k.OwnedBy a p ↔ 0 < k.refs B p ∧
    ∀ key, target B k.mem k.dirs key = some p → key.env = some a := by
  have hleft := h.left_eq_zero_iff (e := a) (p := p)
  rw [owners_eq_zero_iff] at hleft
  have hall : (∀ key, (if Key.env key = some a then none else target B k.mem k.dirs key) ≠ some p) ↔
      ∀ key, target B k.mem k.dirs key = some p → key.env = some a := by
    refine forall_congr' fun key ↦ ?_
    by_cases hkey : key.env = some a <;> simp [hkey]
  rw [hall] at hleft
  constructor
  · intro hp
    refine ⟨?_, hleft.mpr (.inr hp)⟩
    rcases hp with hdir | ⟨hi, htab⟩ | ⟨hpos, -⟩
    · exact owners_pos (k := .dir a) hdir
    · exact owners_pos (k := .table a ⟨_, hi⟩) ((Kern.pdeAt_iff hi).mp htab)
    · obtain ⟨v, hv⟩ := owners_pos_iff.mp hpos
      rw [Kern.space_fst (B := B)] at hv
      exact owners_pos hv
  · rintro ⟨hpos, hkeys⟩
    exact (hleft.mp hkeys).resolve_left hpos.ne'

section Reach

variable (hP : ∀ p ∈ P, k.OwnedBy a p)

include hP

theorem Inv.env_of_hidden {x : Key Slot} (hp : p ∈ P) (hx : target B k.mem k.dirs x = some p) :
    x.env = some a :=
  (h.ownedBy_iff.mp (hP p hp)).2 x hx

variable {d i t v : ℕ} (he : e ≠ a) (hd : k.dirs e = some d)

include he hd

theorem Inv.dir_notMem : d ∉ P := fun hp ↦
  he (Option.some.inj (h.env_of_hidden (x := .dir e) hP hp hd))

theorem Inv.table_notMem (hi : i < NPDENTRIES) (ht : tableOf k.mem d i = some t) : t ∉ P := by
  intro hp
  rcases Nat.lt_or_ge i NUPDE with hlt | hge
  · have hkey : target B k.mem k.dirs (.table e ⟨i, hlt⟩) = some t := (target_table hd hlt).trans ht
    exact he (Option.some.inj (h.env_of_hidden hP hp hkey))
  · rcases (h.half e d hd).tableOf_cases (M.lt_two_pow (h.own.dir_mem hd)) hge hi ht with
      rfl | ⟨hu, hk⟩
    · exact h.dir_notMem hP he hd hp
    · cases h.env_of_hidden hP hp (target_kern hge hi hu hk)

theorem Inv.page_notMem (hv : v < NUPG) (hp : entryFrame (pteOf k.mem d v) = some p) : p ∉ P := by
  intro hpP
  have hkey : target B k.mem k.dirs (.page e ⟨v, hv⟩) = some p := (target_page hd hv).trans hp
  exact he (Option.some.inj (h.env_of_hidden hP hpP hkey))

/-- A user program reaches pages of its own, its page tables, and what the kernel shows to all. -/
theorem Inv.load_notMem (hw : Windows B M k.mem) {va pde pte : Word} (hva : va < ULIM)
    (hwalk : k.mem.walk d va = some (pde, pte)) : frame pte ∉ P := by
  have hpte := Mem.pteOf_of_walk hwalk
  obtain ⟨⟨hpde, hP₁⟩, hpte', hP₂⟩ := Mem.walk_eq_some.mp hwalk
  have hframe : entryFrame pte = some (frame pte) := entryFrame_of_isSet hP₂
  have hlim : va.toNat < 958 * 4194304 := hva
  have hdiv := pgnum_div va
  have hpg := pgnum_eq va
  rcases Nat.lt_or_ge (pdx va) NUPDE with hlt | hge
  · have hv : pgnum va < NUPG := by
      have : NUPG = NUPDE * 1024 := rfl
      omega
    exact h.page_notMem hP he hd hv (hpte ▸ hframe)
  by_cases hu : pdx va = pdx UVPT
  · have hself : pde = uvptEntry d := by
      rw [hpde, h.half e d hd (pdx va) hge (pdx_lt va), if_pos hu]
    have hfd : frame pde = d := by
      have := entryFrame_uvptEntry (M.lt_two_pow (h.own.dir_mem hd))
      rw [← hself, entryFrame_of_isSet hP₁] at this
      exact Option.some.inj this
    rw [hfd] at hpte'
    refine h.table_notMem hP he hd (ptx_lt va) ?_
    rw [tableOf, ← hpte', hframe]
  · have hkern : pteOf k.mem B.kernPgdir (pgnum va) = pte := by
      have hsame : k.mem.phys B.kernPgdir (pdx va) = k.mem.phys d (pdx va) := by
        rw [h.half e d hd (pdx va) hge (pdx_lt va), if_neg hu]
      rw [← hpte, pteOf, pteOf, hdiv, tableOf, tableOf, hsame]
    have hnot := hw (pgnum va) (frame pte) ⟨hdiv ▸ hge, by omega, hdiv ▸ hu⟩
      (by rw [show pgnum ULIM = 958 * 1024 by decide]; omega) (hkern ▸ hframe)
    exact fun hp ↦ hnot (h.ownedBy_mem (hP _ hp))

end Reach

/-- The pages that belong to `a` alone are hidden. -/
theorem Inv.hidden (hw : Windows B M k.mem) (hP : ∀ p ∈ P, k.OwnedBy a p) : Hidden B M k a P := by
  have hupd : ∀ {e d}, Function.update k.dirs a none e = some d → e ≠ a ∧ k.dirs e = some d := by
    intro e d hd
    have he : e ≠ a := by
      rintro rfl
      rw [Function.update_self] at hd
      cases hd
    exact ⟨he, by rwa [Function.update_of_ne he] at hd⟩
  have hfree : ∀ q ∈ l, q ∈ Common (M.without P) (Function.update k.dirs a none) := by
    intro q hq
    refine ⟨⟨h.own.list_sub hq, fun hp ↦ ?_⟩, fun e hd ↦ ?_⟩
    · have hpos := (h.ownedBy_iff.mp (hP q hp)).1
      rw [Kern.refs, h.own.owners_of_mem_list hq] at hpos
      exact absurd hpos (lt_irrefl 0)
    · exact (h.own.inert_of_mem_list hq).ne_dir (hupd hd).2 rfl
  have hpen := h.own.penned
  have hcommon : ∀ {q}, q ∈ Common M k.dirs → q ∉ P →
      q ∈ Common (M.without P) (Function.update k.dirs a none) := fun hq hp ↦
    ⟨⟨hq.1, hp⟩, fun e hd ↦ hq.2 e (hupd hd).2⟩
  refine ⟨⟨fun e d hd ↦ ?_, fun p hp ↦ ?_, fun p hp q hq ↦ ?_, fun e d i t hd hi ht ↦ ?_,
    fun e d i t j p hd hi ht hj hp ↦ ?_⟩, fun hk ↦ M.kern (h.ownedBy_mem (hP _ hk)),
    fun e d i t he hd ↦ h.table_notMem hP he hd, fun e d va pde pte he hd ↦
      h.load_notMem hP he hd hw⟩
  · obtain ⟨he, hd⟩ := hupd hd
    exact ⟨h.own.dir_mem hd, h.dir_notMem hP he hd⟩
  · have hchain := h.own.ledger.chain
    rw [hp] at hchain
    obtain ⟨t, rfl, -⟩ := hchain.pop
    exact hfree p List.mem_cons_self
  · have hpl : p ∈ l := by
      by_contra hpl
      cases (h.own.ledger.next_none p hp.1.1 hpl).symm.trans hq
    exact hfree q (h.own.ledger.chain.next_mem hpl hq)
  · obtain ⟨he, hd⟩ := hupd hd
    exact hcommon (hpen.table e d i t hd hi ht)
      (h.table_notMem hP he hd (hi.trans (by decide)) ht)
  · obtain ⟨he, hd⟩ := hupd hd
    refine hcommon (hpen.page e d i t j p hd hi ht hj hp) ?_
    refine h.page_notMem hP he hd (vpn_lt_NUPG hi hj) ?_
    rw [pteOf_of_table (t := t) (by rw [show (i * 1024 + j) / 1024 = i by omega]; exact ht),
      show (i * 1024 + j) % 1024 = j by omega]
    exact hp

end

/-! ## What `sys_cputs` prints -/

section Print

variable {rd rd' : Word → Option (BitVec 8)} {ptr len : Word}

/-- The loop of `%s` prints the bytes up to the precision; of the one after them it only matters
whether it is mapped. -/
theorem putString_congr {alt : Bool} {precision width : Int} (n : ℕ) (hn : precision = n)
    (hsame : ∀ i < n, rd (ptr + BitVec.ofNat 32 i) = rd' (ptr + BitVec.ofNat 32 i))
    (hlast : (rd (ptr + BitVec.ofNat 32 n)).isSome = (rd' (ptr + BitVec.ofNat 32 n)).isSome)
    (fuel : ℕ) (L : List PrintEv) :
    (putString (loadMem rd) alt fuel ptr precision width).run L =
      (putString (loadMem rd') alt fuel ptr precision width).run L := by
  subst hn
  induction fuel generalizing ptr n width L with
  | zero => rfl
  | succ fuel ih =>
      rw [putString_succ, putString_succ]
      cases n with
      | zero =>
          rw [show ptr + BitVec.ofNat 32 0 = ptr by simp] at hlast
          cases hb : rd ptr with
          | none =>
              rw [hb, Option.isSome_none] at hlast
              have hnone : rd' ptr = none :=
                Option.isNone_iff_eq_none.mp (Option.isSome_eq_false_iff.mp hlast.symm)
              rw [hnone]
          | some b =>
              rw [hb, Option.isSome_some] at hlast
              obtain ⟨b', hb'⟩ := Option.isSome_iff_exists.mp hlast.symm
              rw [hb']
              simp
      | succ n =>
          have h0 := hsame 0 (Nat.succ_pos n)
          rw [show ptr + BitVec.ofNat 32 0 = ptr by simp] at h0
          rw [h0]
          have hnext : ∀ w L, (putString (loadMem rd) alt fuel (ptr + 1) (n : Int) w).run L =
              (putString (loadMem rd') alt fuel (ptr + 1) (n : Int) w).run L := fun w L ↦ by
            refine ih n (fun i hi ↦ ?_) ?_ L
            · rw [add_one_ofNat]
              exact hsame (i + 1) (Nat.succ_lt_succ hi)
            · rw [add_one_ofNat]
              exact hlast
          have hneg : ¬ ((n + 1 : ℕ) : Int) < 0 := by omega
          have hdec : ((n + 1 : ℕ) : Int) - 1 = n := by omega
          simp only [if_neg hneg, hdec, hnext]

/-- What `cprintf("%.*s", len, s)` does. -/
theorem vcprintf_cputs_congr (hlen : 0 ≤ len.toInt)
    (hsame : ∀ i < len.toNat, rd (ptr + BitVec.ofNat 32 i) = rd' (ptr + BitVec.ofNat 32 i))
    (hlast : ∀ a, (rd a).isSome = (rd' a).isSome) :
    vcprintf rd "%.*s" [len, ptr] = vcprintf rd' "%.*s" [len, ptr] := by
  have hlist : "%.*s".toList = ['%', '.', '*', 's'] := by decide
  have hprec : len.toInt = (len.toNat : Int) := by
    rw [BitVec.toInt_eq_toNat_cond] at hlen ⊢
    split <;> omega
  have hfmt : (fmtString (loadMem rd) { width := 0, precision := len.toInt } ptr).run [] =
      (fmtString (loadMem rd') { width := 0, precision := len.toInt } ptr).run [] := by
    rw [fmtString, fmtString, if_neg (by simp), if_neg (by simp)]
    simp only [run_bind, run_pure]
    rw [putString_congr len.toNat hprec hsame (hlast _)]
  have hrun : ∀ rd, vcprintf rd "%.*s" [len, ptr] =
      ((if ptr = 0 then fmtString (loadLit "(null)".toList)
          { width := 0, precision := len.toInt } 0
        else fmtString (loadMem rd) { width := 0, precision := len.toInt } ptr) >>=
          fun _ ↦ pure ()).run [] := by
    intro rd
    rw [vcprintf, hlist, show "%.*s".length + 1 = 4 + 1 from rfl, vprintfmt, if_neg (by decide),
      flagChars_cputs]
    by_cases hptr : ptr = 0
    · simp only [vaArg, pure_bind, if_pos hptr]
      rfl
    · simp only [vaArg, pure_bind, if_neg hptr]
      rfl
  rw [hrun, hrun]
  split
  · rfl
  · rw [run_bind, run_bind, hfmt]

end Print

/-! ## System calls of others -/

/-- `cur` has no authority over `a`: it is neither `a` nor the parent of it. -/
structure Kern.Stranger (k : Kern) (a cur : Slot) : Prop where
  other : cur ≠ a
  parent : (k.envs cur).envId ≠ (k.envs a).envParentId

theorem Kern.Stranger.ne (hs : k.Stranger a cur) {envid : Word}
    (h : envid2env k cur envid true = some e) : e ≠ a := by
  rintro rfl
  rcases envid2env_mine h with rfl | hpar
  · exact hs.other rfl
  · exact hs.parent hpar.symm

/-- The range that `sys_cputs` is to print ends below the last page, and its length is not negative
as an `int`. -/
def CputsFits (str len : Word) : Prop := str.toNat + len.toNat ≤ 4294963200 ∧ 0 ≤ len.toInt

/-- `user_mem_assert` returns if the check passes. -/
theorem userMemAssert_ret {va len perm : Word} {u : Unit}
    (h : userMemAssert B k e va len perm = some (.ret u, k')) : k' = k ∧ ∃ d,
      (k.envs e).envPgdir = some d ∧
        userMemCheck B k.mem d va len (perm ||| PTE_U) = some none := by
  cases hd : (k.envs e).envPgdir with
  | none => simp [userMemAssert, hd] at h
  | some d =>
  simp only [userMemAssert, hd, Option.bind_eq_bind, Option.bind_some] at h
  cases hcheck : userMemCheck B k.mem d va len (perm ||| PTE_U) with
  | none => simp [hcheck] at h
  | some x =>
      cases x with
      | none =>
          simp only [hcheck, Option.bind_some, Option.pure_def, Option.some.injEq,
            Prod.mk.injEq] at h
          exact ⟨h.2.symm, d, rfl, hcheck⟩
      | some bad =>
          simp only [hcheck, Option.bind_some] at h
          cases (envDestroy_self h).1

/-- The result of a call, with other contents in the pages of `P`. -/
noncomputable def coverSnd {α : Type} (P : Set ℕ) (g : ℕ → ℕ → Word) (x : α × Kern) : α × Kern :=
  (x.1, x.2.cover P g)

theorem Kern.cover_modEnv (k : Kern) (e : Slot) (f : Env → Env) :
    (k.cover P g).modEnv e f = (k.modEnv e f).cover P g := rfl

namespace Hidden

variable (h : Hidden B M k a P)

include h

omit h in
theorem dir {d : ℕ} (he : e ≠ a) (hl : k.Live e) (hd : (k.envs e).envPgdir = some d) :
    Function.update k.dirs a none e = some d := by
  rw [Function.update_of_ne he, hl.dirs_eq, hd]

theorem dir_notMem {d : ℕ} (he : e ≠ a) (hd : k.dirs e = some d) : d ∉ P :=
  (h.penned.dir e d (by rwa [Function.update_of_ne he])).2

theorem envFree_cover (he : e ≠ a) (hl : k.Live e) :
    envFree B (k.cover P g) e = (envFree B k e).map (·.cover P g) :=
  h.penned.envFree_cover (by rw [Function.update_of_ne he, hl.dirs_eq])

theorem envDestroy_cover (he : e ≠ a) (hl : k.Live e) (cur : Option Slot) :
    envDestroy B (k.cover P g) cur e = (envDestroy B k cur e).map (coverSnd P g) := by
  by_cases hrun : (k.envs e).envStatus = .running ∧ cur ≠ some e
  · have hrun' : ((k.cover P g).envs e).envStatus = .running ∧ cur ≠ some e := hrun
    rw [envDestroy, envDestroy, if_pos hrun, if_pos hrun']
    rfl
  · have hrun' : ¬ (((k.cover P g).envs e).envStatus = .running ∧ cur ≠ some e) := hrun
    rw [envDestroy, envDestroy, if_neg hrun, if_neg hrun', h.envFree_cover he hl]
    cases envFree B k e with
    | none => rfl
    | some k' =>
        simp only [Option.map_some, Option.bind_eq_bind, Option.bind_some]
        split
        · rfl
        · rfl

theorem pageLookup_cover {d : ℕ} (he : e ≠ a) (hl : k.Live e) (hd : (k.envs e).envPgdir = some d)
    (va : Word) : pageLookup B (k.mem.cover P g) d va = pageLookup B k.mem d va := by
  have hdir := hl.dirs_eq.trans hd
  exact Jos.pageLookup_cover (h.dir_notMem he hdir) fun t ht ↦
    h.table e d _ t he hdir (pdx_lt va) ht

/-- The entry that `page_lookup` finds. -/
theorem phys_cover_of_lookup {d q t j : ℕ} (he : e ≠ a) (hl : k.Live e)
    (hd : (k.envs e).envPgdir = some d) {va : Word}
    (hlook : pageLookup B k.mem d va = some (some (q, t, j))) :
    (k.mem.cover P g).phys t = k.mem.phys t :=
  Mem.phys_cover_of_notMem <| h.table e d _ t he (hl.dirs_eq.trans hd) (pdx_lt va)
    (pageLookup_found hlook).1

theorem table_notMem {d i t : ℕ} (he : e ≠ a) (hl : k.Live e) (hd : (k.envs e).envPgdir = some d)
    (hi : i < NPDENTRIES) (ht : tableOf k.mem d i = some t) : t ∉ P :=
  h.table e d i t he (hl.dirs_eq.trans hd) hi ht

theorem userMemCheck_cover {d : ℕ} (he : e ≠ a) (hl : k.Live e)
    (hd : (k.envs e).envPgdir = some d) (va len perm : Word) :
    userMemCheck B (k.mem.cover P g) d va len perm = userMemCheck B k.mem d va len perm :=
  Jos.userMemCheck_cover (h.dir_notMem he (hl.dirs_eq.trans hd))
    (fun _ _ hi ht ↦ h.table_notMem he hl hd hi ht) va len perm

theorem userMemAssert_cover (he : e ≠ a) (hl : k.Live e) (va len perm : Word) :
    userMemAssert B (k.cover P g) e va len perm =
      (userMemAssert B k e va len perm).map (coverSnd P g) := by
  have hmem : (k.cover P g).mem = k.mem.cover P g := rfl
  have hpg : ((k.cover P g).envs e).envPgdir = (k.envs e).envPgdir := rfl
  simp only [userMemAssert, hmem, hpg]
  cases hd : (k.envs e).envPgdir with
  | none => rfl
  | some d =>
  simp only [Option.bind_eq_bind, Option.bind_some, h.userMemCheck_cover he hl hd]
  cases userMemCheck B k.mem d va len (perm ||| PTE_U) with
  | none => rfl
  | some x =>
      cases x with
      | none => rfl
      | some bad => exact h.envDestroy_cover he hl (some e)

theorem walk_cover {d : ℕ} (he : e ≠ a) (hl : k.Live e) (hd : (k.envs e).envPgdir = some d)
    (va : Word) : (k.mem.cover P g).walk d va = k.mem.walk d va :=
  Mem.walk_cover (h.dir_notMem he (hl.dirs_eq.trans hd))
    fun _ ht ↦ h.table_notMem he hl hd (pdx_lt va) ht

theorem loadByte_cover {d : ℕ} (he : e ≠ a) (hl : k.Live e) (hd : (k.envs e).envPgdir = some d)
    {va : Word} (hva : va < ULIM) : (k.mem.cover P g).loadByte d va = k.mem.loadByte d va :=
  Mem.loadByte_cover (h.dir_notMem he (hl.dirs_eq.trans hd))
    (fun _ ht ↦ h.table_notMem he hl hd (pdx_lt va) ht)
    fun pde pte ↦ h.load e d va pde pte he (hl.dirs_eq.trans hd) hva

/-- Whether an address is mapped does not depend on what is in the page. -/
theorem isSome_loadByte_cover {d : ℕ} (he : e ≠ a) (hl : k.Live e)
    (hd : (k.envs e).envPgdir = some d) (va : Word) :
    ((k.mem.cover P g).loadByte d va).isSome = (k.mem.loadByte d va).isSome := by
  simp only [Mem.loadByte, h.walk_cover he hl hd]
  cases k.mem.walk d va with
  | none => rfl
  | some w => rfl

/-- What `sys_cputs` prints, where it has checked what it reads. -/
theorem cputsLog_cover {d : ℕ} {str len : Word} (he : e ≠ a) (hl : k.Live e)
    (hd : (k.envs e).envPgdir = some d) (hfits : CputsFits str len)
    (hcheck : userMemCheck B k.mem d str len (PTE_P ||| PTE_U) = some none) :
    cputsLog (k.mem.cover P g) d str len = cputsLog k.mem d str len := by
  obtain ⟨hfit, hlen⟩ := hfits
  have hrange := rangeAccessible_of_check hfit hcheck
  refine vcprintf_cputs_congr hlen (fun i hi ↦ ?_) (h.isSome_loadByte_cover he hl hd)
  have hnat : (str + BitVec.ofNat 32 i).toNat = str.toNat + i := by
    rw [BitVec.toNat_add, BitVec.toNat_ofNat]
    omega
  refine h.loadByte_cover he hl hd ?_
  rw [BitVec.lt_def, hnat]
  exact (hrange (str.toNat + i) (Nat.le_add_right _ _) (Nat.add_lt_add_left hi _)).1

theorem sysCputs_cover {str len : Word} (he : e ≠ a) (hl : k.Live e) (hfits : CputsFits str len) :
    sysCputs B (k.cover P g) e str len = (sysCputs B k e str len).map (coverSnd P g) := by
  simp only [sysCputs, h.userMemAssert_cover he hl]
  cases hassert : userMemAssert B k e str len PTE_P with
  | none => rfl
  | some x =>
  obtain ⟨u | c, k'⟩ := x
  swap
  · rfl
  obtain ⟨rfl, d, hd, hcheck⟩ := userMemAssert_ret hassert
  have hpg : ((k'.cover P g).envs e).envPgdir = (k'.envs e).envPgdir := rfl
  have hmem : (k'.cover P g).mem = k'.mem.cover P g := rfl
  simp only [Option.map_some, Option.bind_eq_bind, Option.bind_some, coverSnd, hpg, hd, hmem,
    h.cputsLog_cover he hl hd hfits hcheck]
  cases (cputsLog k'.mem d str len).1 with
  | none => rfl
  | some u => rfl

/-- Nor does it print what it finds in a page of `P`. -/
theorem sysCputsLog_cover {str len : Word} (he : e ≠ a) (hl : k.Live e)
    (hfits : CputsFits str len) :
    sysCputsLog B (k.cover P g) e str len = sysCputsLog B k e str len := by
  cases hd : (k.envs e).envPgdir with
  | none =>
      have hd' : ((k.cover P g).envs e).envPgdir = none := hd
      simp [sysCputsLog, hd, hd', userMemAssert]
  | some d =>
      have hd' : ((k.cover P g).envs e).envPgdir = some d := hd
      have hsame := h.userMemCheck_cover (g := g) he hl hd str len (PTE_P ||| PTE_U)
      by_cases hcheck : userMemCheck B k.mem d str len (PTE_P ||| PTE_U) = some none
      · rw [sysCputsLog_of_check hd hcheck, sysCputsLog_of_check hd' (hsame.trans hcheck)]
        exact congrArg Prod.snd (h.cputsLog_cover he hl hd hfits hcheck)
      · rw [sysCputsLog_of_not_check hd hcheck, sysCputsLog_of_not_check hd' (hsame ▸ hcheck)]

theorem sysExofork_cover (cur : Slot) :
    sysExofork B (k.cover P g) cur = (sysExofork B k cur).map (coverSnd P g) := by
  have hmem : (k.cover P g).mem = k.mem.cover P g := rfl
  have hlist : (k.cover P g).envFreeList = k.envFreeList := rfl
  simp only [sysExofork, envAlloc, hlist]
  cases k.envFreeList with
  | none => rfl
  | some e =>
      simp only [hmem, h.penned.envSetupVm_cover h.kern]
      cases envSetupVm B k.mem with
      | none => rfl
      | some x =>
          obtain ⟨_ | d, m⟩ := x
          · rfl
          · rfl

section Call

variable (hs : k.Stranger a cur) (hc : k.Live cur)

include hs hc

theorem sysEnvDestroy_cover (envid : Word) :
    sysEnvDestroy B (k.cover P g) cur envid =
      (sysEnvDestroy B k cur envid).map (coverSnd P g) := by
  have henv : envid2env (k.cover P g) cur envid true = envid2env k cur envid true := rfl
  rw [sysEnvDestroy, sysEnvDestroy, henv]
  cases he : envid2env k cur envid true with
  | none => rfl
  | some e =>
      simp only [h.envDestroy_cover (hs.ne he) (envid2env_live hc he)]
      cases envDestroy B k (some cur) e with
      | none => rfl
      | some x =>
          obtain ⟨_ | _, k'⟩ := x
          · rfl
          · rfl

theorem sysPageAlloc_cover (envid va perm : Word) :
    sysPageAlloc B (k.cover P g) cur envid va perm =
      (sysPageAlloc B k cur envid va perm).map (coverSnd P g) := by
  have henv : envid2env (k.cover P g) cur envid true = envid2env k cur envid true := rfl
  rw [sysPageAlloc, sysPageAlloc, henv]
  cases he : envid2env k cur envid true with
  | none => rfl
  | some e =>
  by_cases hva : badVa va
  · simp only [if_pos hva]
    rfl
  by_cases hperm : badPerm perm
  · simp only [if_neg hva, if_pos hperm]
    rfl
  have hmem : (k.cover P g).mem = k.mem.cover P g := rfl
  simp only [if_neg hva, if_neg hperm, hmem, h.penned.pageAlloc_cover]
  cases halloc : pageAlloc B k.mem true with
  | none => rfl
  | some x =>
      obtain ⟨_ | p, m₁⟩ := x
      · rfl
      have hpg : ((k.cover P g).envs e).envPgdir = (k.envs e).envPgdir := rfl
      simp only [Option.map_some, Option.bind_eq_bind, Option.bind_some, hpg]
      cases hd : (k.envs e).envPgdir with
      | none => rfl
      | some d =>
          obtain ⟨h₁, -, -⟩ := h.penned.pageAlloc halloc
          have hdir := dir (hs.ne he) (envid2env_live hc he) hd
          simp only [Option.bind_some,
            h₁.pageInsert_cover hdir (lt_UTOP_of_not_badVa hva)]
          cases pageInsert B m₁ d p va (PTE_U ||| PTE_P ||| perm) with
          | none => rfl
          | some y =>
              obtain ⟨r, m₂⟩ := y
              simp only [Option.map_some, Option.bind_some]
              by_cases hr : r ≠ 0
              · simp only [if_pos hr, pageFree_cover]
                cases pageFree m₂ p with
                | none => rfl
                | some m₃ => rfl
              · simp only [if_neg hr]
                rfl

theorem sysPageMap_cover (srcenvid srcva dstenvid dstva perm : Word) :
    sysPageMap B (k.cover P g) cur srcenvid srcva dstenvid dstva perm =
      (sysPageMap B k cur srcenvid srcva dstenvid dstva perm).map (coverSnd P g) := by
  have henv : ∀ envid, envid2env (k.cover P g) cur envid true = envid2env k cur envid true :=
    fun _ ↦ rfl
  rw [sysPageMap, sysPageMap, henv, henv]
  cases hsrc : envid2env k cur srcenvid true with
  | none => rfl
  | some src =>
  cases hdst : envid2env k cur dstenvid true with
  | none => rfl
  | some dst =>
  by_cases hva : badVa srcva
  · simp only [if_pos hva]
    rfl
  by_cases hva' : badVa dstva
  · simp only [if_neg hva, if_pos hva']
    rfl
  by_cases hperm : badPerm perm
  · simp only [if_neg hva, if_neg hva', if_pos hperm]
    rfl
  have hmem : (k.cover P g).mem = k.mem.cover P g := rfl
  have hpg : ∀ e, ((k.cover P g).envs e).envPgdir = (k.envs e).envPgdir := fun _ ↦ rfl
  simp only [if_neg hva, if_neg hva', if_neg hperm, hmem, hpg]
  have hlive := envid2env_live hc hsrc
  cases hd : (k.envs src).envPgdir with
  | none => rfl
  | some d =>
  simp only [Option.bind_eq_bind, Option.bind_some, h.pageLookup_cover (hs.ne hsrc) hlive hd]
  cases hlook : pageLookup B k.mem d srcva with
  | none => rfl
  | some x =>
  obtain _ | ⟨q, t, j⟩ := x
  · rfl
  simp only [Option.bind_some, h.phys_cover_of_lookup (hs.ne hsrc) hlive hd hlook]
  by_cases hw : isSet perm PTE_W ∧ ¬ isSet (k.mem.phys t j) PTE_W
  · simp only [if_pos hw]
    rfl
  simp only [if_neg hw]
  cases hd' : (k.envs dst).envPgdir with
  | none => rfl
  | some d' =>
  have hdir := dir (hs.ne hdst) (envid2env_live hc hdst) hd'
  simp only [Option.bind_some, h.penned.pageInsert_cover hdir (lt_UTOP_of_not_badVa hva')]
  cases pageInsert B k.mem d' q dstva perm with
  | none => rfl
  | some y =>
      obtain ⟨r, m⟩ := y
      simp only [Option.map_some, Option.bind_some]
      by_cases hr : r.toInt < 0
      · simp only [if_pos hr]
        rfl
      · simp only [if_neg hr]
        rfl

theorem sysPageUnmap_cover (envid va : Word) :
    sysPageUnmap B (k.cover P g) cur envid va =
      (sysPageUnmap B k cur envid va).map (coverSnd P g) := by
  have henv : envid2env (k.cover P g) cur envid true = envid2env k cur envid true := rfl
  rw [sysPageUnmap, sysPageUnmap, henv]
  cases he : envid2env k cur envid true with
  | none => rfl
  | some e =>
  by_cases hva : badVa va
  · simp only [if_pos hva]
    rfl
  have hmem : (k.cover P g).mem = k.mem.cover P g := rfl
  have hpg : ((k.cover P g).envs e).envPgdir = (k.envs e).envPgdir := rfl
  simp only [if_neg hva, hmem, hpg]
  cases hd : (k.envs e).envPgdir with
  | none => rfl
  | some d =>
  have hdir := dir (hs.ne he) (envid2env_live hc he) hd
  simp only [Option.bind_eq_bind, Option.bind_some,
    h.penned.pageRemove_cover hdir (lt_UTOP_of_not_badVa hva)]
  cases pageRemove B k.mem d va with
  | none => rfl
  | some m => rfl

theorem sysIpcTrySend_cover (hr : (k.envs a).envIpcRecving = false)
    (envid value srcva perm : Word) :
    sysIpcTrySend B (k.cover P g) cur envid value srcva perm =
      (sysIpcTrySend B k cur envid value srcva perm).map (coverSnd P g) := by
  have henv : envid2env (k.cover P g) cur envid false = envid2env k cur envid false := rfl
  have hmem : (k.cover P g).mem = k.mem.cover P g := rfl
  have hpg : ∀ e, ((k.cover P g).envs e).envPgdir = (k.envs e).envPgdir := fun _ ↦ rfl
  rw [sysIpcTrySend, sysIpcTrySend, henv]
  cases he : envid2env k cur envid false with
  | none => rfl
  | some e =>
  by_cases hrecv : (k.envs e).envIpcRecving = true
  swap
  · have hrecv' : ¬ ((k.cover P g).envs e).envIpcRecving = true := hrecv
    simp only [if_pos hrecv, if_pos hrecv']
    rfl
  have hrecv' : ((k.cover P g).envs e).envIpcRecving = true := hrecv
  -- nobody sends to `a`, which does not wait
  have hea : e ≠ a := by
    rintro rfl
    rw [hr] at hrecv
    cases hrecv
  simp only [if_neg (not_not.mpr hrecv), if_neg (not_not.mpr hrecv')]
  by_cases hsrc : srcva < UTOP
  swap
  · simp only [if_neg hsrc]
    rfl
  simp only [if_pos hsrc]
  by_cases hoff : pgoff srcva ≠ 0
  · simp only [if_pos hoff]
    rfl
  by_cases hperm : badPerm perm
  · simp only [if_neg hoff, if_pos hperm]
    rfl
  simp only [if_neg hoff, if_neg hperm, hmem, hpg]
  cases hd : (k.envs cur).envPgdir with
  | none => rfl
  | some d =>
  simp only [Option.bind_eq_bind, Option.bind_some, h.pageLookup_cover hs.other hc hd]
  cases hlook : pageLookup B k.mem d srcva with
  | none => rfl
  | some x =>
  obtain _ | ⟨q, t, j⟩ := x
  · rfl
  simp only [Option.bind_some, h.phys_cover_of_lookup hs.other hc hd hlook]
  by_cases hw : ¬ isSet (k.mem.phys t j) PTE_W ∧ isSet perm PTE_W
  · simp only [if_pos hw]
    rfl
  simp only [if_neg hw]
  by_cases hdst : (k.envs e).envIpcDstva < UTOP
  swap
  · have hdst' : ¬ ((k.cover P g).envs e).envIpcDstva < UTOP := hdst
    simp only [if_neg hdst, if_neg hdst']
    rfl
  have hdst' : ((k.cover P g).envs e).envIpcDstva < UTOP := hdst
  simp only [if_pos hdst, if_pos hdst']
  cases hd' : (k.envs e).envPgdir with
  | none => rfl
  | some d' =>
  have hdir := dir hea (envid2env_live hc he) hd'
  have hva : ((k.cover P g).envs e).envIpcDstva = (k.envs e).envIpcDstva := rfl
  simp only [Option.bind_some, hva, h.penned.pageInsert_cover hdir hdst]
  cases pageInsert B k.mem d' q (k.envs e).envIpcDstva perm with
  | none => rfl
  | some y =>
      obtain ⟨r, m⟩ := y
      simp only [Option.map_some, Option.bind_some]
      by_cases hneg : r.toInt < 0
      · simp only [if_pos hneg]
        rfl
      · simp only [if_neg hneg]
        rfl

/-- No system call of a stranger looks at the pages of `P`. -/
theorem syscall_cover (hr : (k.envs a).envIpcRecving = false) {no a1 a2 : Word}
    (hfits : sysNo no = some .cputs → CputsFits a1 a2) (getc a3 a4 a5 : Word) :
    syscall B (k.cover P g) cur getc no a1 a2 a3 a4 a5 =
      (syscall B k cur getc no a1 a2 a3 a4 a5).map (coverSnd P g) := by
  have hret : ∀ {x y : Option (Word × Kern)}, x = y.map (coverSnd P g) →
      returned x = (returned y).map (coverSnd P g) := by
    rintro x y rfl
    cases y with
    | none => rfl
    | some z => rfl
  simp only [syscall]
  cases hno : sysNo no with
  | none => rfl
  | some n =>
  cases n with
  | cputs =>
      simp only [h.sysCputs_cover hs.other hc (hfits hno)]
      cases sysCputs B k cur a1 a2 with
      | none => rfl
      | some x =>
          obtain ⟨_ | _, k'⟩ := x
          · rfl
          · rfl
  | cgetc => rfl
  | getenvid => rfl
  | envDestroy => exact h.sysEnvDestroy_cover hs hc a1
  | pageAlloc => exact hret (h.sysPageAlloc_cover hs hc a1 a2 a3)
  | pageMap => exact hret (h.sysPageMap_cover hs hc a1 a2 a3 a4 a5)
  | pageUnmap => exact hret (h.sysPageUnmap_cover hs hc a1 a2)
  | exofork => exact hret (h.sysExofork_cover cur)
  | envSetStatus =>
      apply hret
      simp only [sysEnvSetStatus, show envid2env (k.cover P g) cur a1 true =
        envid2env k cur a1 true from rfl]
      cases envid2env k cur a1 true with
      | none => rfl
      | some e =>
          simp only
          split
          · rfl
          · split
            · rfl
            · rfl
  | envSetPgfaultUpcall =>
      apply hret
      simp only [sysEnvSetPgfaultUpcall, show envid2env (k.cover P g) cur a1 true =
        envid2env k cur a1 true from rfl]
      cases envid2env k cur a1 true with
      | none => rfl
      | some e => rfl
  | yield => rfl
  | ipcTrySend => exact hret (h.sysIpcTrySend_cover hs hc hr a1 a2 a3 a4)
  | ipcRecv =>
      simp only [sysIpcRecv]
      split
      · rfl
      · rfl

end Call

end Hidden

end Jos
