import Jos.Kern.Effect
import Jos.Kern.Refcount

/-!
# What `env_free` gives back (`kern/env.c`)

After `env_free` the references are those of the other environments and of the kernel, each as
before.  The invariant says which pages are free and what the counters are, given the references;
so the free list and every counter follow from a count of the references that went away.
-/

namespace Jos

open Jos.Lib

namespace Kern

/-- The number of page table entries of `e` below `UTOP` that map `p`. -/
def mappingsOf (s : Kern) (e : Slot) (p : ℕ) : ℕ :=
  owners (fun v : Fin NUPG ↦ (s.space e v).map Prod.fst) p

/-- What belongs to `e` alone: its directory, its tables below `UTOP`, and the pages that are mapped
by its own entries only. -/
inductive OwnedBy (s : Kern) (e : Slot) (p : ℕ) : Prop
  | dir (h : s.dirs e = some p)
  | table {i : ℕ} (hi : i < NUPDE) (h : s.PdeAt e i p)
  | page (mapped : 0 < s.mappingsOf e p) (only : s.mappings p = s.mappingsOf e p)

end Kern

/-- The environment that a reference belongs to. -/
def Key.env : Key Slot → Option Slot
  | .dir e => some e
  | .table e _ => some e
  | .page e _ => some e
  | .kern _ => none

variable {B : Machine} {M : Pool B} {s s' : Kern} {l l' : List ℕ} {el : List Slot} {e e' : Slot}
  {d p : ℕ} {m₁ m' : Mem}

/-! ## The references that are left -/

namespace Inv

variable (h : Inv B M s l el) (hd : s.dirs e = some d) (hsh : Shrunk B s.mem m₁ s.dirs e)

include h hd hsh

/-- The frames of another environment are not touched. -/
theorem shrunk_dir {d' : ℕ} (hd' : s.dirs e' = some d') (hne : e' ≠ e) :
    m₁.phys d' = s.mem.phys d' := by
  refine hsh.frame d hd d' ?_ fun i hi ht ↦ h.own.table_ne_dir hd hi ht hd' rfl
  rintro rfl
  exact hne (h.own.dir_inj hd hd')

theorem shrunk_table {d' i t : ℕ} (hd' : s.dirs e' = some d') (hne : e' ≠ e) (hi : i < NUPDE)
    (ht : tableOf s.mem d' i = some t) : m₁.phys t = s.mem.phys t := by
  refine hsh.frame d hd t (h.own.table_ne_dir hd' hi ht hd).symm fun j hj htj ↦ ?_
  exact hne (h.own.table_inj hd hj htj hd' hi ht).1

/-- What is left are the references of the others and of the kernel. -/
theorem shrunk_target (hphys : m'.phys = m₁.phys) :
    target B m' (Function.update s.dirs e none) =
      fun k ↦ if k.env = some e then none else target B s.mem s.dirs k := by
  rw [target_congr hphys]
  funext k
  cases k with
  | dir e' =>
      by_cases he : e' = e
      · simp [target, Key.env, he]
      · simp [target, Key.env, he]
  | table e' i =>
      by_cases he : e' = e
      · simp [target, Key.env, he]
      · simp only [Key.env, Option.some.injEq, he, if_false]
        cases hd' : s.dirs e' with
        | none => simp [target, he, hd']
        | some d' =>
            have hup : Function.update s.dirs e none e' = some d' := by
              rw [Function.update_of_ne he, hd']
            rw [target_table hup i.isLt, target_table hd' i.isLt, tableOf,
              h.shrunk_dir hd hsh hd' he, tableOf]
  | page e' v =>
      by_cases he : e' = e
      · simp [target, Key.env, he]
      · simp only [Key.env, Option.some.injEq, he, if_false]
        cases hd' : s.dirs e' with
        | none => simp [target, he, hd']
        | some d' =>
            have hup : Function.update s.dirs e none e' = some d' := by
              rw [Function.update_of_ne he, hd']
            rw [target_page hup v.isLt, target_page hd' v.isLt, entryFrame_pteOf, entryFrame_pteOf,
              hsh.others e' d' hd' he v v.isLt]
  | kern i => simp only [target, Key.env, tableOf, hsh.kern.pgdir, reduceCtorEq, if_false]

end Inv

/-! ## Counting them -/

/-- If `e` refers to a page from page table entries at most, these are its mappings. -/
theorem Kern.owners_env (hp : ∀ k, target B s.mem s.dirs k = some p → k.env = some e →
    k ∉ Key.structural) :
    owners (fun k ↦ if k.env = some e then target B s.mem s.dirs k else none) p =
      s.mappingsOf e p := by
  rw [Kern.mappingsOf, ← owners_comp (fun v : Fin NUPG ↦ Key.page e v)
    (fun v v' hv ↦ (Key.page.inj hv).2) fun k hk ↦ ?_]
  · refine owners_congr fun v ↦ ?_
    rw [Kern.space_fst (B := B)]
    simp [Key.env]
  · split at hk
    · next henv =>
        cases k with
        | dir e' => exact absurd (Key.dir_structural e') (hp _ hk henv)
        | table e' i => exact absurd (Key.table_structural e' i) (hp _ hk henv)
        | page e' v =>
            obtain rfl := Option.some.inj henv
            exact ⟨v, rfl⟩
        | kern i => cases henv
    · cases hk

theorem Kern.refs_split (hp : ∀ k, target B s.mem s.dirs k = some p → k.env = some e →
    k ∉ Key.structural) : s.refs B p =
      owners (fun k ↦ if k.env = some e then none else target B s.mem s.dirs k) p +
        s.mappingsOf e p := by
  rw [← Kern.owners_env hp]
  exact owners_split (fun k : Key Slot ↦ k.env = some e) (target B s.mem s.dirs) p

namespace Inv

variable (h : Inv B M s l el)

include h

/-- A page that some page table entry maps has no other references than those. -/
theorem not_structural {v : Fin NUPG} (hv : target B s.mem s.dirs (.page e v) = some p)
    {k : Key Slot} (hk : target B s.mem s.dirs k = some p) : k ∉ Key.structural := by
  intro hs
  have := h.own.excl.eq_of_eq_some hs hk hv
  exact Key.page_not_structural e v (this ▸ hs)

theorem refs_of_mapped {v : Fin NUPG} (hv : target B s.mem s.dirs (.page e v) = some p) :
    s.mappings p = s.refs B p :=
  Kern.mappings_eq_refs fun _ hk ↦ Key.pageClass_of_not_structural (h.not_structural hv hk)

/-- No reference is left to a page if and only if it had none or belonged to `e` alone. -/
theorem left_eq_zero_iff :
    owners (fun k ↦ if k.env = some e then none else target B s.mem s.dirs k) p = 0 ↔
      s.refs B p = 0 ∨ s.OwnedBy e p := by
  have hleft : owners (fun k ↦ if k.env = some e then none else target B s.mem s.dirs k) p = 0 ↔
      ∀ k, target B s.mem s.dirs k = some p → k.env = some e := by
    rw [owners_eq_zero_iff]
    refine forall_congr' fun k ↦ ?_
    by_cases hk : k.env = some e <;> simp [hk]
  have unique : ∀ {k : Key Slot}, k ∈ Key.structural → target B s.mem s.dirs k = some p →
      k.env = some e → ∀ k', target B s.mem s.dirs k' = some p → k'.env = some e := by
    intro k hs hk he k' hk'
    obtain rfl := h.own.excl.eq_of_eq_some hs hk hk'
    exact he
  constructor
  · intro hzero
    have hall := hleft.mp hzero
    rcases Nat.eq_zero_or_pos (s.refs B p) with h0 | hpos
    · exact .inl h0
    right
    obtain ⟨k, hk⟩ := owners_pos_iff.mp hpos
    have he := hall k hk
    cases k with
    | dir e' =>
        obtain rfl := Option.some.inj he
        exact .dir hk
    | table e' i =>
        obtain rfl := Option.some.inj he
        exact .table i.isLt ((Kern.pdeAt_iff i.isLt).mpr hk)
    | page e' v =>
        obtain rfl := Option.some.inj he
        have hsplit := Kern.refs_split fun k' hk' (_ : k'.env = some e') ↦ h.not_structural hk hk'
        rw [hzero, Nat.zero_add] at hsplit
        exact .page (hsplit ▸ hpos) ((h.refs_of_mapped hk).trans hsplit)
    | kern i => cases he
  · rintro (h0 | hdir | ⟨hi, htab⟩ | ⟨hpos, honly⟩)
    · exact hleft.mpr fun k hk ↦ absurd hk (owners_eq_zero_iff.mp h0 k)
    · exact hleft.mpr (unique (Key.dir_structural e) hdir rfl)
    · exact hleft.mpr (unique (Key.table_structural e ⟨_, hi⟩) ((Kern.pdeAt_iff hi).mp htab) rfl)
    · obtain ⟨v, hv⟩ := owners_pos_iff.mp hpos
      rw [Kern.space_fst (B := B)] at hv
      have hsplit := Kern.refs_split fun k' hk' (_ : k'.env = some e) ↦ h.not_structural hv hk'
      rw [← h.refs_of_mapped hv, honly] at hsplit
      omega

theorem ownedBy_mem (hp : s.OwnedBy e p) : p ∈ M.carrier := by
  rcases hp with hdir | ⟨hi, htab⟩ | ⟨hpos, -⟩
  · exact h.own.dir_mem hdir
  · obtain ⟨d, hd, ht⟩ := htab
    exact h.own.table_mem hd hi ht
  · obtain ⟨v, hv⟩ := owners_pos_iff.mp hpos
    rw [Kern.space_fst (B := B)] at hv
    exact h.own.valid _ _ hv

end Inv

/-! ## `env_free` -/

/-- `env_free` of a live environment returns, with what it has left of the memory. -/
theorem Inv.envFree_freed (h : Inv B M s l el) (hb : s.Bounded B) (he : s.Live e) :
    ∃ d m₁ m' l', s.dirs e = some d ∧ envFree B s e = some (s.freed e m') ∧
      pageDecref m₁ d = some m' ∧ Own B M m' (Function.update s.dirs e none) ∅ l' ∧
      Shrunk B s.mem m₁ s.dirs e ∧ m'.phys = m₁.phys := by
  obtain ⟨d, hd, hpg⟩ := h.live_dir he
  obtain ⟨m₁, m', l', hloop, hpa, hdec, hown, hsh, hphys, -⟩ := h.own.envFree_mem_spec hb hd
  refine ⟨d, m₁, m', l', hd, ?_, hdec, hown, hsh, hphys⟩
  simp only [envFree, hpg, Option.bind_eq_bind, Option.bind_some, hloop, hpa, hdec]
  rfl

/-- `env_free` of a live environment returns.  The pages that were free are free, and so are those
that belonged to the environment alone; every other counter drops by the number of its entries that
mapped the page; and every address translates as before in every other environment. -/
theorem env_free_exact (h : Inv B M s l el) (hb : s.Bounded B) (he : s.Live e) :
    ∃ s' l', envFree B s e = some s' ∧ Chain s'.mem.link s'.mem.pageFreeList l' ∧ l'.Nodup ∧
      (∀ p, p ∈ l' ↔ p ∈ l ∨ s.OwnedBy e p) ∧
      (∀ p, p ∉ l' → (s.mem.ref p).toNat = (s'.mem.ref p).toNat + s.mappingsOf e p) ∧
      ∀ e' d, e' ≠ e → s.dirs e' = some d →
        s'.dirs e' = some d ∧ ∀ va, s'.mem.walk d va = s.mem.walk d va := by
  obtain ⟨d, m₁, m', l', hd, hrun, hdec, hown, hsh, hphys⟩ := h.envFree_freed hb he
  have htar := h.shrunk_target hd hsh hphys
  have hmem : ∀ p, p ∈ l' ↔ p ∈ l ∨ s.OwnedBy e p := by
    intro p
    rw [hown.ledger.mem_iff, h.own.ledger.mem_iff, htar, h.left_eq_zero_iff]
    constructor
    · rintro ⟨hM, h0 | howned, -⟩
      · exact .inl ⟨hM, h0, Set.notMem_empty p⟩
      · exact .inr howned
    · rintro (⟨hM, h0, -⟩ | howned)
      · exact ⟨hM, .inl h0, Set.notMem_empty p⟩
      · exact ⟨h.ownedBy_mem howned, .inr howned, Set.notMem_empty p⟩
  refine ⟨s.freed e m', l', hrun, hown.ledger.chain, hown.ledger.chain.nodup, hmem, fun p hp ↦ ?_,
    fun e' d' hne hd' ↦ ⟨?_, fun va ↦ ?_⟩⟩
  · have hnot : ¬ s.OwnedBy e p := fun hc ↦ hp ((hmem p).mpr (.inr hc))
    by_cases hM : p ∈ M.carrier
    · have hsplit := Kern.refs_split (B := B) (s := s) (e := e) (p := p) fun k hk hke hs ↦ by
        cases k with
        | dir e' =>
            obtain rfl := Option.some.inj hke
            exact hnot (.dir hk)
        | table e' i =>
            obtain rfl := Option.some.inj hke
            exact hnot (.table i.isLt ((Kern.pdeAt_iff i.isLt).mpr hk))
        | page e' v => exact Key.page_not_structural e' v hs
        | kern i => cases hke
      have hle := hb p
      rw [← Kern.refs] at hle
      have href : (m'.ref p).toNat = owners
          (fun k ↦ if k.env = some e then none else target B s.mem s.dirs k) p := by
        rw [hown.ledger.ref_eq p hM, htar, BitVec.toNat_ofNat]
        exact Nat.mod_eq_of_lt (by omega)
      rw [h.ref_toNat hb hM, hsplit, ← href]
      rfl
    · -- nobody refers to a page that is not the allocator's
      have hzero : s.refs B p = 0 := owners_eq_zero_iff.mpr fun k hk ↦ hM (h.own.valid k p hk)
      have hmap : s.mappingsOf e p = 0 := by
        refine owners_eq_zero_iff.mpr fun v hv ↦ ?_
        rw [Kern.space_fst (B := B)] at hv
        exact hM (h.own.valid _ _ hv)
      have hpd : p ≠ d := by
        rintro rfl
        exact hM (h.own.dir_mem hd)
      have href : m'.ref p = s.mem.ref p :=
        ((pageDecref_frame hdec).2 p hpd).trans (hsh.ref p hzero)
      rw [hmap, Nat.add_zero, ← href]
      rfl
  · rw [Kern.dirs, Kern.freed_of_ne s m' hne]
    exact hd'
  · have hk : KernSame B s.mem m' :=
      ⟨by rw [hphys]; exact hsh.kern.pgdir, fun i x h1 h2 h3 hx ↦ by
        rw [hphys]; exact hsh.kern.tables i x h1 h2 h3 hx⟩
    refine h.walk_congr hd' ?_ (fun i hi t ht ↦ ?_) hk va
    · rw [hphys]
      exact h.shrunk_dir hd hsh hd' hne
    · rw [hphys]
      exact h.shrunk_table hd hsh hd' hne hi ht

/-- `env_free` of an environment that has just been created. -/
theorem env_free_exact_demo : ∃ s s' l' e, Booted demoConfig s ∧
    envFree demoConfig.machine s e = some s' ∧
    Chain s'.mem.link s'.mem.pageFreeList l' ∧ l'.Nodup := by
  obtain ⟨s, l, el, e, -, env, -, d, -, boot, h, -, -, -, henv, -⟩ := exists_booted
  have hlive : s.Live e := by
    rw [Kern.Live, henv]
    simp [createdEnv, freshEnv]
  obtain ⟨s', l', hfree, hchain, hnd, -⟩ := env_free_exact h.inv h.bounded hlive
  exact ⟨s, s', l', e, boot, hfree, hchain, hnd⟩

end Jos
