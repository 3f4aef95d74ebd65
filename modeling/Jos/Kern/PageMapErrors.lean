import Jos.Kern.FailedSend
import Jos.Kern.PageCalls

/-!
# The errors of `sys_page_map`

The comment on `sys_page_map` says which error stands for what.  The code follows it, but for a
source page that is not mapped: the caller is told that there is no memory.
-/

namespace Jos

open Jos.Lib

variable {B : Machine} {M : Pool B} {s : Kern} {l : List ℕ} {el : List Slot} {cur e : Slot}

/-! ## `page_insert` returns -/

namespace Own

variable {m m' : Mem} {dirs : Slot → Option ℕ} {loose : Set ℕ} {d p : ℕ} {va perm : Word}
  (h : Own B M m dirs loose l) (hd : dirs e = some d) (hva : va < UTOP)

include h hd hva

/-- `page_remove` does not panic, whatever the counters say. -/
theorem exists_pageRemove (hphys : m'.phys = m.phys) (hlink : m'.link = m.link) :
    ∃ m'', pageRemove B m' d va = some m'' := by
  rcases h.pageLookup_eq hd hva with ⟨-, hlook⟩ | ⟨q, t, hq, -, hword, hlook⟩
  · exact ⟨m', by simp [pageRemove, pageLookup_congr hphys, hlook]⟩
  · have hP : isSet (m'.phys t (ptx va)) PTE_P := by
      rw [hphys, hword]
      exact (isSet_of_entryFrame hq).1
    -- a mapped page is off the free list
    have hlt := pgnum_lt_of_lt_UTOP hva
    have hql : q ∉ l := h.ledger.notMem_of_pos
      (owners_pos (k := .page e ⟨pgnum va, hlt⟩) (by rw [target_page hd hlt, hq]))
    have hnone : m'.link q = none := by
      rw [hlink]
      exact h.ledger.next_none q (h.page_mem hd hlt hq) hql
    obtain ⟨m₁, hdec⟩ : ∃ m₁, pageDecref m' q = some m₁ := by
      rw [pageDecref]
      split
      · next hz =>
          have hlinked : ¬ (m'.setRef q (m'.ref q - 1)).link q ≠ none := by
            rw [Mem.link_setRef]
            exact not_not.mpr hnone
          exact ⟨_, if_neg (not_or.mpr ⟨not_not.mpr hz, hlinked⟩)⟩
      · exact ⟨_, rfl⟩
    exact ⟨tlbInvalidate (m₁.write t (ptx va) 0) d va,
      by simp [pageRemove, pageLookup_congr hphys, hlook, hP, hdec]⟩

/-- `page_insert` reports that there is no memory, or that all is well. -/
theorem exists_pageInsert (p : ℕ) (perm : Word) :
    ∃ r m', pageInsert B m d p va perm = some (r, m') ∧
      (¬ Room m d va ∧ r = -E_NO_MEM ∨ Room m d va ∧ r = 0) := by
  obtain ⟨r, m', hins⟩ : ∃ r m', pageInsert B m d p va perm = some (r, m') := by
    rcases h.pgdirWalk_create hd (pdx_lt_of_lt_UTOP hva) with
      ⟨-, -, hwalk⟩ | ⟨t, m₁, l₁, hwalk, -, hown, -⟩
    · exact ⟨-E_NO_MEM, m, by simp [pageInsert, hwalk]⟩
    · obtain ⟨m₂, hrem⟩ : ∃ m₂, pageRemove B (m₁.setRef p (m₁.ref p + 1)) d va = some m₂ :=
        hown.exists_pageRemove hd hva rfl (Mem.link_setRef m₁ p (m₁.ref p + 1))
      simp only [pageInsert, hwalk, Option.bind_eq_bind, Option.bind_some]
      split
      · exact ⟨0, _, by rw [hrem]; rfl⟩
      · exact ⟨0, _, rfl⟩
  have hroom := (pageInsert_negative hins).1
  refine ⟨r, m', hins, ?_⟩
  rcases pageInsert_cases hins with ⟨rfl, -⟩ | rfl
  · exact .inl ⟨hroom.mp (by decide), rfl⟩
  · exact .inr ⟨not_not.mp (hroom.not.mp (by decide)), rfl⟩

end Own

/-! ## The conditions -/

/-- The arguments of `sys_page_map`. -/
structure PageMapArgs where
  srcenvid : Word
  srcva : Word
  dstenvid : Word
  dstva : Word
  perm : Word

namespace PageMapArgs

variable (a : PageMapArgs)

def exec (B : Machine) (s : Kern) (cur : Slot) : Option (Word × Kern) :=
  sysPageMap B s cur a.srcenvid a.srcva a.dstenvid a.dstva a.perm

/-- `envid2env` rejects one of the environments. -/
def Rejected (s : Kern) (cur : Slot) : Prop :=
  envid2env s cur a.srcenvid true = none ∨ envid2env s cur a.dstenvid true = none

/-- An address is no page of user memory, or the permission is inappropriate. -/
def BadArgs : Prop := badVa a.srcva ∨ badVa a.dstva ∨ badPerm a.perm

/-- `srcva` is not mapped in the address space of the source. -/
def Unmapped (s : Kern) (cur : Slot) : Prop :=
  ∃ src, envid2env s cur a.srcenvid true = some src ∧ s.space src (pgnum a.srcva) = none

/-- `perm` has `PTE_W`, but `srcva` is read-only. -/
def ReadOnly (s : Kern) (cur : Slot) : Prop :=
  isSet a.perm PTE_W ∧ ∃ src p f, envid2env s cur a.srcenvid true = some src ∧
    s.space src (pgnum a.srcva) = some (p, f) ∧ ¬ isSet f PTE_W

/-- The destination needs a page table, and there is no memory for it. -/
def NoTable (s : Kern) (cur : Slot) : Prop :=
  ∃ dst d, envid2env s cur a.dstenvid true = some dst ∧ s.dirs dst = some d ∧ ¬ Room s.mem d a.dstva

/-- The result is as the comment on `sys_page_map` says. -/
structure Documented (s : Kern) (cur : Slot) (r : Word) : Prop where
  badEnv : r = -E_BAD_ENV ↔ a.Rejected s cur
  inval : ¬ a.Rejected s cur →
    (r = -E_INVAL ↔ a.BadArgs ∨ a.Unmapped s cur ∨ a.ReadOnly s cur)
  noMem : ¬ a.Rejected s cur → ¬ (a.BadArgs ∨ a.Unmapped s cur ∨ a.ReadOnly s cur) →
    (r = -E_NO_MEM ↔ a.NoTable s cur)
  ok : ¬ a.Rejected s cur → ¬ (a.BadArgs ∨ a.Unmapped s cur ∨ a.ReadOnly s cur) →
    ¬ a.NoTable s cur → r = 0

/-! ## What the code does -/

open Classical in
/-- The result of `sys_page_map`, by its conditions. -/
noncomputable def code (s : Kern) (cur : Slot) : Word :=
  if a.Rejected s cur then -E_BAD_ENV
  else if a.BadArgs then -E_INVAL
  else if a.Unmapped s cur then -E_NO_MEM
  else if a.ReadOnly s cur then -E_INVAL
  else if a.NoTable s cur then -E_NO_MEM
  else 0

theorem exec_code (h : Inv B M s l el) (hc : s.Live cur) :
    ∃ s', a.exec B s cur = some (a.code s cur, s') := by
  rw [exec]
  by_cases hrej : a.Rejected s cur
  · rw [code, if_pos hrej]
    rcases hrej with hsrc | hdst
    · exact ⟨s, by rw [sysPageMap, hsrc]⟩
    · refine ⟨s, ?_⟩
      rw [sysPageMap, hdst]
      cases envid2env s cur a.srcenvid true <;> rfl
  rw [code, if_neg hrej]
  obtain ⟨hsrc, hdst⟩ := not_or.mp hrej
  obtain ⟨src, hsrc⟩ := Option.ne_none_iff_exists'.mp hsrc
  obtain ⟨dst, hdst⟩ := Option.ne_none_iff_exists'.mp hdst
  by_cases hbad : a.BadArgs
  · rw [if_pos hbad]
    refine ⟨s, ?_⟩
    by_cases hva : badVa a.srcva
    · simp [sysPageMap, hsrc, hdst, hva]
    · by_cases hva' : badVa a.dstva
      · simp [sysPageMap, hsrc, hdst, hva, hva']
      · have hperm : badPerm a.perm := (hbad.resolve_left hva).resolve_left hva'
        simp [sysPageMap, hsrc, hdst, hva, hva', hperm]
  rw [if_neg hbad]
  obtain ⟨hva, hva', hperm⟩ : ¬ badVa a.srcva ∧ ¬ badVa a.dstva ∧ ¬ badPerm a.perm := by
    simpa only [BadArgs, not_or] using hbad
  obtain ⟨d, hd, hpg⟩ := h.live_dir (envid2env_live hc hsrc)
  obtain ⟨d', hd', hpg'⟩ := h.live_dir (envid2env_live hc hdst)
  rcases h.pageLookup_space hd (lt_UTOP_of_not_badVa hva) with
    ⟨hnone, hlook⟩ | ⟨p, f, t, j, hp, hlook, hW⟩
  · rw [if_pos ⟨src, hsrc, hnone⟩]
    exact ⟨s, by simp [sysPageMap, hsrc, hdst, hva, hva', hperm, hpg, hlook]⟩
  have hmapped : ¬ a.Unmapped s cur := by
    rintro ⟨src', hsrc', hnone⟩
    obtain rfl := Option.some.inj (hsrc.symm.trans hsrc')
    cases hp.symm.trans hnone
  have hro : a.ReadOnly s cur ↔ isSet a.perm PTE_W ∧ ¬ isSet (s.mem.phys t j) PTE_W := by
    refine and_congr_right fun _ ↦ ?_
    rw [hW]
    constructor
    · rintro ⟨src', p', f', hsrc', hp', hno⟩
      obtain rfl := Option.some.inj (hsrc.symm.trans hsrc')
      obtain ⟨rfl, rfl⟩ := Prod.mk.inj (Option.some.inj (hp.symm.trans hp'))
      exact hno
    · intro hno
      exact ⟨src, p, f, hsrc, hp, hno⟩
  rw [if_neg hmapped]
  by_cases hw : isSet a.perm PTE_W ∧ ¬ isSet (s.mem.phys t j) PTE_W
  · rw [if_pos (hro.mpr hw)]
    exact ⟨s, by simp [sysPageMap, hsrc, hdst, hva, hva', hperm, hpg, hlook, hw]⟩
  rw [if_neg (hro.not.mpr hw)]
  have htab : a.NoTable s cur ↔ ¬ Room s.mem d' a.dstva := by
    constructor
    · rintro ⟨dst', d'', hdst', hd'', hno⟩
      obtain rfl := Option.some.inj (hdst.symm.trans hdst')
      obtain rfl := Option.some.inj (hd'.symm.trans hd'')
      exact hno
    · intro hno
      exact ⟨dst, d', hdst, hd', hno⟩
  obtain ⟨r, m', hins, hr⟩ := h.own.exists_pageInsert hd' (lt_UTOP_of_not_badVa hva') p a.perm
  rcases hr with ⟨hroom, rfl⟩ | ⟨hroom, rfl⟩
  · rw [if_pos (htab.mpr hroom)]
    refine ⟨s.setMem m', ?_⟩
    simp only [sysPageMap, hsrc, hdst, hva, hva', hperm, hpg, hpg', hlook, hw, hins, if_false,
      Option.bind_eq_bind, Option.bind_some]
    rfl
  · rw [if_neg (htab.not.mpr (not_not.mpr hroom))]
    refine ⟨s.setMem m', ?_⟩
    simp only [sysPageMap, hsrc, hdst, hva, hva', hperm, hpg, hpg', hlook, hw, hins, if_false,
      Option.bind_eq_bind, Option.bind_some]
    rfl

/-- The code that the conditions give is as documented, if the source page is mapped when it gets
that far. -/
theorem documented_code_iff : a.Documented s cur (a.code s cur) ↔
    ¬ (¬ a.Rejected s cur ∧ ¬ a.BadArgs ∧ a.Unmapped s cur) := by
  have h1 : -E_INVAL ≠ -E_BAD_ENV := by decide
  have h2 : -E_NO_MEM ≠ -E_BAD_ENV := by decide
  have h3 : (0 : Word) ≠ -E_BAD_ENV := by decide
  have h4 : -E_NO_MEM ≠ -E_INVAL := by decide
  have h5 : (0 : Word) ≠ -E_INVAL := by decide
  have h6 : (0 : Word) ≠ -E_NO_MEM := by decide
  constructor
  · rintro hdoc ⟨hrej, hbad, hun⟩
    have hcode : a.code s cur = -E_NO_MEM := by
      rw [code, if_neg hrej, if_neg hbad, if_pos hun]
    have hinval := (hdoc.inval hrej).mpr (.inr (.inl hun))
    exact h4 (hcode.symm.trans hinval)
  · intro hcond
    rw [code]
    split
    · next hrej =>
        exact ⟨iff_of_true rfl hrej, fun hc ↦ absurd hrej hc, fun hc ↦ absurd hrej hc,
          fun hc ↦ absurd hrej hc⟩
    next hrej =>
    split
    · next hbad =>
        exact ⟨iff_of_false h1 hrej, fun _ ↦ iff_of_true rfl (.inl hbad),
          fun _ hc ↦ absurd (.inl hbad) hc, fun _ hc ↦ absurd (.inl hbad) hc⟩
    next hbad =>
    have hun : ¬ a.Unmapped s cur := fun hun ↦ hcond ⟨hrej, hbad, hun⟩
    rw [if_neg hun]
    split
    · next hro =>
        exact ⟨iff_of_false h1 hrej, fun _ ↦ iff_of_true rfl (.inr (.inr hro)),
          fun _ hc ↦ absurd (.inr (.inr hro)) hc, fun _ hc ↦ absurd (.inr (.inr hro)) hc⟩
    next hro =>
    have hno : ¬ (a.BadArgs ∨ a.Unmapped s cur ∨ a.ReadOnly s cur) :=
      not_or.mpr ⟨hbad, not_or.mpr ⟨hun, hro⟩⟩
    split
    · next htab =>
        exact ⟨iff_of_false h2 hrej, fun _ ↦ iff_of_false h4 hno, fun _ _ ↦ iff_of_true rfl htab,
          fun _ _ hc ↦ absurd htab hc⟩
    · next htab =>
        exact ⟨iff_of_false h3 hrej, fun _ ↦ iff_of_false h5 hno, fun _ _ ↦ iff_of_false h6 htab,
          fun _ _ _ ↦ rfl⟩

end PageMapArgs

/-- The result of `sys_page_map` is as documented, unless the environments, the addresses and the
permission are accepted and the source page is not mapped: then it is `-E_NO_MEM`. -/
theorem sys_page_map_documented_iff (h : Inv B M s l el) (hc : s.Live cur) (a : PageMapArgs) :
    ∃ r s', a.exec B s cur = some (r, s') ∧
      (a.Documented s cur r ↔ ¬ (¬ a.Rejected s cur ∧ ¬ a.BadArgs ∧ a.Unmapped s cur)) := by
  obtain ⟨s', hrun⟩ := a.exec_code h hc
  exact ⟨_, s', hrun, a.documented_code_iff⟩

/-- An environment maps its page at 0, where it has none, with thousands of free pages. -/
theorem sys_page_map_says_no_mem : ∃ s e l el,
    Inv demoConfig.machine demoConfig.pool s l el ∧ s.Live e ∧ 1000 ≤ l.length ∧
    ∃ s', PageMapArgs.exec ⟨0, 0, 0, 0, PTE_U ||| PTE_P⟩ demoConfig.machine s e =
        some (-E_NO_MEM, s') ∧
      ¬ PageMapArgs.Documented ⟨0, 0, 0, 0, PTE_U ||| PTE_P⟩ s e (-E_NO_MEM) := by
  obtain ⟨s, l, el, e₁, e₂, env₁, env₂, d₁, d₂, -, hb, hlen, -, -, henv, -, -, -, ⟨p, hstack⟩, -⟩ :=
    exists_booted
  have live : s.Live e₁ := by
    rw [Kern.Live, henv]
    simp [createdEnv, freshEnv]
  let a : PageMapArgs := ⟨0, 0, 0, 0, PTE_U ||| PTE_P⟩
  have hrej : ¬ a.Rejected s e₁ := by
    rintro (hc | hc)
    · cases hc
    · cases hc
  have hbad : ¬ a.BadArgs := by
    simp only [PageMapArgs.BadArgs]
    decide
  have hun : a.Unmapped s e₁ := ⟨e₁, rfl, (hstack _).trans (if_neg (by decide))⟩
  obtain ⟨s', hrun⟩ := a.exec_code hb.inv live
  have hcode : a.code s e₁ = -E_NO_MEM := by
    rw [PageMapArgs.code, if_neg hrej, if_neg hbad, if_pos hun]
  rw [hcode] at hrun
  refine ⟨s, e₁, l, el, hb.inv, live, hlen, s', hrun, fun hdoc ↦ ?_⟩
  exact absurd ((hdoc.inval hrej).mpr (.inr (.inl hun))) (by decide)

theorem sys_page_map_documented_iff_demo : ∃ s e l el,
    Inv demoConfig.machine demoConfig.pool s l el ∧ s.Live e ∧
    ∃ r s', PageMapArgs.exec ⟨0, UTOP, 0, 0, PTE_U ||| PTE_P⟩ demoConfig.machine s e =
      some (r, s') ∧ (PageMapArgs.Documented ⟨0, UTOP, 0, 0, PTE_U ||| PTE_P⟩ s e r ↔
        ¬ (¬ PageMapArgs.Rejected ⟨0, UTOP, 0, 0, PTE_U ||| PTE_P⟩ s e ∧
          ¬ PageMapArgs.BadArgs ⟨0, UTOP, 0, 0, PTE_U ||| PTE_P⟩ ∧
          PageMapArgs.Unmapped ⟨0, UTOP, 0, 0, PTE_U ||| PTE_P⟩ s e)) := by
  obtain ⟨s, l, el, e₁, e₂, env₁, env₂, d₁, d₂, -, hb, -, -, -, henv, -⟩ := exists_booted
  have live : s.Live e₁ := by
    rw [Kern.Live, henv]
    simp [createdEnv, freshEnv]
  exact ⟨s, e₁, l, el, hb.inv, live, sys_page_map_documented_iff hb.inv live _⟩

end Jos
