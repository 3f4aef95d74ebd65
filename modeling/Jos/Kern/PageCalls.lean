import Jos.Kern.Ownership
import Jos.Kern.Content

/-!
# Page calls that succeed

`sys_page_alloc`, `sys_page_map` and `sys_page_unmap` change one translation, if they change
anything.  `Remaps` is the effect of a call that does: on the address spaces, on the reference
counts and on what pages hold.  For each of the three calls there is a lemma that says when it
succeeds, and one that says what the result tells.
-/

namespace Jos

open Jos.Lib

variable {B : Machine} {M : Pool B} {s s' : Kern} {l l' : List ℕ} {el : List Slot} {cur e : Slot}
  {d v : ℕ} {o : Option (ℕ × Word)}

theorem Inv.length_le (h : Inv B M s l el) : l.length ≤ B.npages := by
  have hsub : l ⊆ List.range B.npages := fun p hp ↦
    List.mem_range.mpr (M.lt p (h.own.list_sub hp))
  have hle := (h.own.ledger.chain.nodup.subperm hsub).length_le
  rwa [List.length_range] at hle

/-- From `s` to `s'` the translation of page number `v` of `e` became `o`. -/
structure Remaps (B : Machine) (M : Pool B) (s : Kern) (l : List ℕ) (el : List Slot) (e : Slot)
    (v : ℕ) (o : Option (ℕ × Word)) (s' : Kern) (l' : List ℕ) : Prop where
  inv : Inv B M s' l' el
  envs : s'.envs = s.envs
  kern : KernSame B s.mem s'.mem
  space : s'.space = s.space.set e v o
  content : ∀ e' v' p f, s.space e' v' = some (p, f) → s'.mem.phys p = s.mem.phys p
  refs : ∀ x, x ∉ l → s'.refs B x =
    (s.refs B x - if (s.space e v).map Prod.fst = some x then 1 else 0) +
      if o.map Prod.fst = some x then 1 else 0
  fresh : ∀ x ∈ l, s'.refs B x ≤ 1
  list : ∀ x ∈ l', x ∈ l ∨ (s.space e v).map Prod.fst = some x
  entries : PdesOpen B s.mem s.dirs → PdesOpen B s'.mem s'.dirs

theorem Inv.remaps (h : Inv B M s l el) {m' : Mem} (hinv : Inv B M (s.setMem m') l' el)
    (hd : s.dirs e = some d) {va : Word} (hva : va < UTOP)
    (hre : Remapped B s.mem m' s.dirs l l' e (upn hva) o) :
    Remaps B M s l el e (pgnum va) o (s.setMem m') l' := by
  have hfst : (s.space e (pgnum va)).map Prod.fst = target B s.mem s.dirs (.page e (upn hva)) :=
    Kern.space_fst e (upn hva)
  refine ⟨hinv, rfl, h.own.kernSame hre.frame, hre.addrSpaces_eq (by rw [hd]; simp),
    fun e' v' p f hp ↦ ?_, fun x hx ↦ ?_, hre.fresh, fun x hx ↦ ?_,
    fun ho ↦ h.own.pdesOpen ho hre.frame⟩
  · obtain ⟨-, hpl, hpu⟩ := h.mapped hp
    exact hre.frame.other p hpl (fun _ _ hd' ↦ hpu.ne_dir hd') fun _ _ _ _ hd' hi ht ↦
      hpu.ne_table hd' hi ht
  · rw [hfst]
    exact hre.owners x hx
  · rw [hfst]
    exact hre.list x hx

namespace Remaps

variable (h : Remaps B M s l el e v o s' l')

include h

theorem space_self : s'.space e v = o := by
  rw [h.space, AddrSpaces.set, if_pos ⟨rfl, rfl⟩]

theorem space_of_ne {e' : Slot} {v' : ℕ} (hne : ¬ (e' = e ∧ v' = v)) :
    s'.space e' v' = s.space e' v' := by
  rw [h.space, AddrSpaces.set, if_neg hne]

theorem space_of_slot_ne {e' : Slot} (hne : e' ≠ e) : s'.space e' = s.space e' :=
  funext fun _ ↦ h.space_of_ne fun hc ↦ hne hc.1

theorem dirs : s'.dirs = s.dirs := by
  funext e'
  rw [Kern.dirs, Kern.dirs, h.envs]

theorem live {e' : Slot} (hl : s.Live e') : s'.Live e' := by
  rw [Kern.Live, h.envs]
  exact hl

/-- The reference counts grow by one at most, and not at all if a free page is mapped. -/
theorem refs_le {N : ℕ} (hN : 1 ≤ N) (hle : ∀ p, s.refs B p ≤ N) :
    (∀ p, s'.refs B p ≤ N + 1) ∧ ((∀ p f, o = some (p, f) → p ∈ l) → ∀ p, s'.refs B p ≤ N) := by
  have hout : ∀ p, p ∉ l → s'.refs B p ≤ N + if o.map Prod.fst = some p then 1 else 0 := by
    intro p hp
    rw [h.refs p hp]
    exact Nat.add_le_add_right ((Nat.sub_le _ _).trans (hle p)) _
  refine ⟨fun p ↦ ?_, fun ho p ↦ ?_⟩
  · by_cases hp : p ∈ l
    · exact (h.fresh p hp).trans (by omega)
    · refine (hout p hp).trans ?_
      split <;> omega
  · by_cases hp : p ∈ l
    · exact (h.fresh p hp).trans hN
    · have hno : o.map Prod.fst ≠ some p := by
        intro hc
        obtain ⟨⟨q, f⟩, hq, rfl⟩ := Option.map_eq_some_iff.mp hc
        exact hp (ho q f hq)
      simpa [hno] using hout p hp

theorem bootInv (hb : BootInv B M s l el) (ho : ∀ p f, o = some (p, f) → p ∈ l) :
    BootInv B M s' l' el :=
  ⟨h.inv, hb.prot.of_same h.kern, (h.refs_le le_rfl hb.solo).2 ho, h.entries hb.entries⟩

/-- A page that is allocated where nothing was mapped is gone from the free list. -/
theorem length_lt {t : List ℕ} {p : ℕ} {f : Word} (ho : o = some (p, f)) (hl : l = p :: t)
    (hnone : s.space e v = none) :
    l'.length < l.length := by
  subst ho
  have hnd := h.inv.own.ledger.chain.nodup
  obtain ⟨_, htar⟩ := Kern.target_of_space (B := B) h.space_self
  have hp : p ∉ l' := h.inv.own.ledger.notMem_of_pos (owners_pos htar)
  have hsub : l' ⊆ t := by
    intro x hx
    have hxl : x ∈ l := by
      rcases h.list x hx with hxl | hc
      · exact hxl
      · rw [hnone] at hc
        cases hc
    rw [hl] at hxl
    rcases List.mem_cons.mp hxl with rfl | hxt
    · exact absurd hx hp
    · exact hxt
  have hle := (hnd.subperm hsub).length_le
  rw [hl, List.length_cons]
  omega

end Remaps

/-! ## The calls -/

section Calls

variable (h : Inv B M s l el) {envid va perm : Word} (hid : envid2env s cur envid true = some e)
  (hd : s.dirs e = some d) (hva : ¬ badVa va)

include h hid hd hva

/-- `sys_page_alloc` maps the first free page, filled with zeros, unless a table is missing and
there is no page left for it. -/
theorem Inv.sysPageAlloc_outcome (hperm : ¬ badPerm perm) {p : ℕ} {t : List ℕ} (hl : l = p :: t)
    (hle : ∀ q f, s.space e (pgnum va) = some (q, f) → s.refs B q < 2 ^ 16) :
    (tableOf s.mem d (pdx va) = none ∧ t = [] ∧
      ∃ s', sysPageAlloc B s cur envid va perm = some (-E_NO_MEM, s')) ∨
    ∃ s' l', sysPageAlloc B s cur envid va perm = some (0, s') ∧
      Remaps B M s l el e (pgnum va) (some (p, PTE_U ||| PTE_P ||| perm ||| PTE_P)) s' l' ∧
      (t.length ≤ l'.length + if tableOf s.mem d (pdx va) = none then 1 else 0) ∧
      ∀ i, s'.mem.phys p i = 0 := by
  obtain ⟨-, hpg⟩ := Kern.live_of_dirs hd
  have hlt := lt_UTOP_of_not_badVa hva
  have hpl := or_perm_lt (show (PTE_U ||| PTE_P).toNat < 4096 by decide)
    (perm_lt_of_not_badPerm hperm)
  obtain ⟨halloc, hown, htar⟩ := h.own.pageAlloc_cons hl
  have hle' : ∀ q, target B s.mem s.dirs (.page e (upn hlt)) = some q → s.refs B q < 2 ^ 16 := by
    intro q hq
    rw [← Kern.space_fst] at hq
    obtain ⟨⟨q', f⟩, hqf, rfl⟩ := Option.map_eq_some_iff.mp hq
    exact hle q' f hqf
  rcases h.insertTaken hd hlt hle' hpl hl hown (h.own.tabled_taken hl) htar with
    ⟨hnone, ht, hins⟩ | ⟨m', l', hins, hinv, -, hlen, hre, hphys⟩
  · obtain ⟨m', hfree, -⟩ := hown.pageFree_loose (Set.mem_insert p ∅)
    refine .inl ⟨hnone, ht, s.setMem m', ?_⟩
    simp [sysPageAlloc, hid, hva, hperm, halloc, hpg, hins, hfree,
      show -E_NO_MEM ≠ 0#32 by decide]
  · refine .inr ⟨s.setMem m', l', ?_, h.remaps hinv hd hlt hre, hlen, fun i ↦ ?_⟩
    · simp [sysPageAlloc, hid, hva, hperm, halloc, hpg, hins]
    · rw [Kern.mem_setMem, hphys]
      simp [Mem.taken, Mem.zero]

/-- `sys_page_unmap` takes a translation away, if there is one. -/
theorem Inv.sysPageUnmap_ok
    (hle : ∀ q f, s.space e (pgnum va) = some (q, f) → s.refs B q ≤ 2 ^ 16) :
    ∃ s' l', sysPageUnmap B s cur envid va = some (0, s') ∧
      Remaps B M s l el e (pgnum va) none s' l' ∧
      ∀ q f, s.space e (pgnum va) = some (q, f) → l' = released l q (s.refs B q) := by
  obtain ⟨-, hpg⟩ := Kern.live_of_dirs hd
  have hlt := lt_UTOP_of_not_badVa hva
  obtain ⟨m', l', hrem, hown', hun, hlist⟩ := h.own.pageRemove_spec hd hlt fun q hq ↦ by
    rw [← Kern.space_fst] at hq
    obtain ⟨⟨q', f⟩, hqf, rfl⟩ := Option.map_eq_some_iff.mp hq
    exact hle q' f hqf
  refine ⟨s.setMem m', l', by simp [sysPageUnmap, hid, hva, hpg, hrem],
    h.remaps (h.setMem_remapped hown' hun.toRemapped) hd hlt hun.toRemapped, fun q f hq ↦ ?_⟩
  refine hlist q ?_
  rw [← Kern.space_fst, show ((upn hlt : Fin NUPG) : ℕ) = pgnum va from rfl, hq]
  rfl

/-- A page that the source has mapped, with no more permission than the source has, is mapped at
`va` of `e` if there is a table for it or a free page for one; otherwise nothing happens. -/
theorem Inv.sysPageMap_ok {src : Slot} {srcenvid srcva : Word} {p : ℕ} {f : Word}
    (hsrc : envid2env s cur srcenvid true = some src) (hsva : ¬ badVa srcva)
    (hperm : ¬ badPerm perm) (hp : s.space src (pgnum srcva) = some (p, f))
    (hW : isSet perm PTE_W → isSet f PTE_W)
    (hle : ∀ q f, s.space e (pgnum va) = some (q, f) → s.refs B q < 2 ^ 16) :
    (¬ Room s.mem d va ∧ sysPageMap B s cur srcenvid srcva envid va perm = some (-E_NO_MEM, s)) ∨
    ∃ s' l', sysPageMap B s cur srcenvid srcva envid va perm = some (0, s') ∧ Room s.mem d va ∧
      Remaps B M s l el e (pgnum va) (some (p, perm ||| PTE_P)) s' l' ∧
      l.length ≤ l'.length + if tableOf s.mem d (pdx va) = none then 1 else 0 := by
  obtain ⟨-, hpg⟩ := Kern.live_of_dirs hd
  have hlt := lt_UTOP_of_not_badVa hva
  obtain ⟨d₀, hd₀, -⟩ := Kern.space_eq_some.mp hp
  obtain ⟨-, hpg₀⟩ := Kern.live_of_dirs hd₀
  obtain ⟨t, j, hlook, hWf⟩ : ∃ t j, pageLookup B s.mem d₀ srcva = some (some (p, t, j)) ∧
      (isSet (s.mem.phys t j) PTE_W ↔ isSet f PTE_W) := by
    rcases h.pageLookup_space hd₀ (lt_UTOP_of_not_badVa hsva) with
      ⟨hnone, -⟩ | ⟨p', f', t, j, hp', hlook, hWf⟩
    · rw [hp] at hnone
      cases hnone
    · obtain ⟨rfl, rfl⟩ := Prod.mk.inj (Option.some.inj (hp.symm.trans hp'))
      exact ⟨t, j, hlook, hWf⟩
  have hw : ¬ (isSet perm PTE_W ∧ ¬ isSet (s.mem.phys t j) PTE_W) := fun hc ↦
    hc.2 (hWf.mpr (hW hc.1))
  obtain ⟨hpM, hpl, hpu⟩ := h.mapped hp
  rcases h.own.pageInsert_spec hd hlt hpM hpl hpu (perm_lt_of_not_badPerm hperm) (fun q hq ↦ by
      rw [← Kern.space_fst] at hq
      obtain ⟨⟨q', f'⟩, hqf, rfl⟩ := Option.map_eq_some_iff.mp hq
      exact hle q' f' hqf) with ⟨hnone, hl, hins⟩ | ⟨m', l', hins, hown', hre, hlen⟩
  · refine .inl ⟨?_, ?_⟩
    · rintro (hc | hc)
      · exact hc hnone
      · subst hl
        exact hc h.own.ledger.chain.head_eq
    · simp only [sysPageMap, hsrc, hid, hsva, hva, hperm, hpg, hpg₀, hlook, hw, hins, if_false,
        Option.bind_eq_bind, Option.bind_some]
      rfl
  · have hloose : (∅ : Set ℕ) \ {p} = ∅ := by simp
    rw [hloose] at hown'
    refine .inr ⟨s.setMem m', l', ?_, room_of_pageInsert hins,
      h.remaps (h.setMem_remapped hown' hre) hd hlt hre, hlen⟩
    simp only [sysPageMap, hsrc, hid, hsva, hva, hperm, hpg, hpg₀, hlook, hw, hins, if_false,
      Option.bind_eq_bind, Option.bind_some]
    rfl

end Calls

/-! ## What a result tells -/

section Results

variable (h : Inv B M s l el) (hb : s.Bounded B) (hc : s.Live cur) {r envid va perm : Word}

include h hb hc

/-- `sys_page_alloc` fails for its arguments, for want of memory, or not at all. -/
theorem Inv.sysPageAlloc_cases (hrun : sysPageAlloc B s cur envid va perm = some (r, s')) :
    (r.toInt < 0 ∧ (s' = s ∨ r = -E_NO_MEM)) ∨
    r = 0 ∧ ∃ e p t l', envid2env s cur envid true = some e ∧ ¬ badVa va ∧ l = p :: t ∧
      Remaps B M s l el e (pgnum va) (some (p, PTE_U ||| PTE_P ||| perm ||| PTE_P)) s' l' ∧
      ∀ i, s'.mem.phys p i = 0 := by
  cases hid : envid2env s cur envid true with
  | none =>
      obtain ⟨rfl, rfl⟩ : -E_BAD_ENV = r ∧ s = s' := by simpa [sysPageAlloc, hid] using hrun
      exact .inl ⟨by decide, .inl rfl⟩
  | some e =>
  by_cases hva : badVa va
  · obtain ⟨rfl, rfl⟩ : -E_INVAL = r ∧ s = s' := by simpa [sysPageAlloc, hid, hva] using hrun
    exact .inl ⟨by decide, .inl rfl⟩
  by_cases hperm : badPerm perm
  · obtain ⟨rfl, rfl⟩ : -E_INVAL = r ∧ s = s' := by simpa [sysPageAlloc, hid, hva, hperm] using hrun
    exact .inl ⟨by decide, .inl rfl⟩
  obtain ⟨d, hd, hpg⟩ := h.live_dir (envid2env_live hc hid)
  cases hl : l with
  | nil =>
      have halloc := h.own.pageAlloc_empty hl true
      simp only [sysPageAlloc, hid, hva, hperm, halloc, if_false, Option.bind_eq_bind,
        Option.bind_some] at hrun
      obtain ⟨rfl, rfl⟩ := Prod.mk.inj (Option.some.inj hrun)
      exact .inl ⟨by decide, .inr rfl⟩
  | cons p t =>
  rcases h.sysPageAlloc_outcome hid hd hva hperm hl fun q _ _ ↦ Nat.lt_succ_of_le (hb q) with
    ⟨-, -, s₁, hfail⟩ | ⟨s₁, l', hok, hre, -, hzero⟩
  · obtain ⟨rfl, rfl⟩ := Prod.mk.inj (Option.some.inj (hfail.symm.trans hrun))
    exact .inl ⟨by decide, .inr rfl⟩
  · obtain ⟨rfl, rfl⟩ := Prod.mk.inj (Option.some.inj (hok.symm.trans hrun))
    exact .inr ⟨rfl, e, p, t, l', rfl, hva, rfl, hl ▸ hre, hzero⟩

end Results

end Jos
