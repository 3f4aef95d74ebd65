import Jos.Kern.Booted
import Jos.Kern.Ownership

/-!
# `region_alloc` (`kern/env.c`)

`region_alloc` panics if `page_alloc` fails, but does not look at what `page_insert` returns.  So if
memory runs out at the page table of the last page, it returns, and the page that was to be mapped
is lost.  And it rounds up the sum of address and length, which may wrap around.
-/

namespace Jos

open Jos.Lib

variable {B : Machine} {M : Pool B} {s : Kern} {l l' : List ℕ} {el : List Slot} {e : Slot}
  {d p : ℕ} {m' : Mem}

/-! ## What the loop needs -/

/-- The directory entries of the `n` pages from `v` on that have no table. -/
def newTables (m : Mem) (d v n : ℕ) : Finset ℕ :=
  ((Finset.Ico v (v + n)).image (· / 1024)).filter (tableOf m d · = none)

/-- How many of the `n` pages from `v` on are mapped to `q`. -/
def Kern.timesIn (s : Kern) (e : Slot) (v n q : ℕ) : ℕ :=
  ((Finset.Ico v (v + n)).filter fun w ↦ (s.space e w).map Prod.fst = some q).card

/-- The physical pages that are mapped at the `n` pages from `v` on, and that nothing else refers
to. -/
def Kern.onlyIn (B : Machine) (s : Kern) (e : Slot) (v n : ℕ) : Finset ℕ :=
  (Finset.range B.npages).filter fun q ↦ 0 < s.refs B q ∧ s.refs B q = s.timesIn e v n q

/-- There are not enough free pages `l` for the loop of `region_alloc`. -/
def Kern.Short (B : Machine) (s : Kern) (l : List ℕ) (e : Slot) (d v : ℕ) : ℕ → Prop
  | 0 => False
  | k + 1 => l.length + (s.onlyIn B e v k).card ≤ k + (newTables s.mem d v k).card

/-- There are enough, but for the page table of the last page. -/
def Kern.Loses (B : Machine) (s : Kern) (l : List ℕ) (e : Slot) (d v : ℕ) : ℕ → Prop
  | 0 => False
  | k + 1 => (newTables s.mem d v (k + 1)).card = (newTables s.mem d v k).card + 1 ∧
      l.length + (s.onlyIn B e v k).card = k + (newTables s.mem d v k).card + 1

theorem newTables_zero (m : Mem) (d v : ℕ) : newTables m d v 0 = ∅ := by
  rw [newTables, Nat.add_zero, Finset.Ico_self, Finset.image_empty, Finset.filter_empty]

theorem mem_newTables {m : Mem} {v n i : ℕ} :
    i ∈ newTables m d v n ↔ (∃ w, v ≤ w ∧ w < v + n ∧ w / 1024 = i) ∧ tableOf m d i = none := by
  rw [newTables, Finset.mem_filter, Finset.mem_image]
  simp only [Finset.mem_Ico, and_assoc]

theorem Kern.timesIn_succ (s : Kern) (e : Slot) (v n q : ℕ) : s.timesIn e v (n + 1) q =
    (if (s.space e v).map Prod.fst = some q then 1 else 0) + s.timesIn e (v + 1) n q := by
  have hico : Finset.Ico v (v + (n + 1)) = insert v (Finset.Ico (v + 1) (v + 1 + n)) := by
    ext w
    rw [Finset.mem_insert, Finset.mem_Ico, Finset.mem_Ico]
    omega
  have hv : v ∉ (Finset.Ico (v + 1) (v + 1 + n)).filter
      fun w ↦ (s.space e w).map Prod.fst = some q := by
    rw [Finset.mem_filter, Finset.mem_Ico]
    omega
  rw [timesIn, hico, Finset.filter_insert]
  split
  · rw [Finset.card_insert_of_notMem hv, Nat.add_comm]
    rfl
  · rw [Nat.zero_add]
    rfl

theorem Kern.timesIn_eq_zero {v n q : ℕ}
    (h : ∀ w, v ≤ w → w < v + n → (s.space e w).map Prod.fst ≠ some q) :
    s.timesIn e v n q = 0 := by
  rw [timesIn, Finset.card_eq_zero, Finset.filter_eq_empty_iff]
  intro w hw
  rw [Finset.mem_Ico] at hw
  exact h w hw.1 hw.2

theorem Kern.mem_onlyIn {v n q : ℕ} : q ∈ s.onlyIn B e v n ↔
    q < B.npages ∧ 0 < s.refs B q ∧ s.refs B q = s.timesIn e v n q := by
  rw [onlyIn, Finset.mem_filter, Finset.mem_range]

theorem Kern.onlyIn_zero (s : Kern) (e : Slot) (v : ℕ) : s.onlyIn B e v 0 = ∅ := by
  refine Finset.eq_empty_of_forall_notMem fun q hq ↦ ?_
  obtain ⟨-, hpos, heq⟩ := mem_onlyIn.mp hq
  rw [timesIn_eq_zero fun w h1 h2 ↦ by omega] at heq
  omega

/-- No more pages become free than are replaced. -/
theorem Kern.card_onlyIn_le (s : Kern) (e : Slot) (v n : ℕ) : (s.onlyIn B e v n).card ≤ n := by
  have hsub : (s.onlyIn B e v n).map Function.Embedding.some ⊆
      (Finset.Ico v (v + n)).image fun w ↦ (s.space e w).map Prod.fst := by
    intro o ho
    obtain ⟨q, hq, rfl⟩ := Finset.mem_map.mp ho
    obtain ⟨-, hpos, heq⟩ := mem_onlyIn.mp hq
    rw [heq, timesIn, Finset.card_pos] at hpos
    obtain ⟨w, hw⟩ := hpos
    obtain ⟨hw, hmap⟩ := Finset.mem_filter.mp hw
    exact Finset.mem_image.mpr ⟨w, hw, hmap⟩
  calc (s.onlyIn B e v n).card
      = ((s.onlyIn B e v n).map Function.Embedding.some).card := (Finset.card_map _).symm
    _ ≤ ((Finset.Ico v (v + n)).image fun w ↦ (s.space e w).map Prod.fst).card :=
        Finset.card_le_card hsub
    _ ≤ (Finset.Ico v (v + n)).card := Finset.card_image_le
    _ = n := by rw [Nat.card_Ico, Nat.add_sub_cancel_left]

/-! ## One round -/

theorem Inv.space_ne_of_free (h : Inv B M s l el) {x : ℕ} (hx : x ∈ l) (e : Slot) (w : ℕ) :
    (s.space e w).map Prod.fst ≠ some x := by
  intro hc
  obtain ⟨⟨q, f⟩, hq, rfl⟩ := Option.map_eq_some_iff.mp hc
  exact (h.mapped hq).2.1 hx

/-- The page number of a page table entry. -/
def Key.vpn {ι : Type} : Key ι → ℕ
  | .page _ v => v
  | _ => 0

theorem Kern.target_of_map {w q : ℕ} (h : (s.space e w).map Prod.fst = some q) :
    ∃ hw : w < NUPG, target B s.mem s.dirs (.page e ⟨w, hw⟩) = some q := by
  obtain ⟨x, hx, hq⟩ := Option.map_eq_some_iff.mp h
  obtain ⟨hw, htar⟩ := Kern.target_of_space (B := B) (show s.space e w = some (x.1, x.2) from hx)
  exact ⟨hw, htar.trans (congrArg some hq)⟩

theorem Kern.timesIn_le_refs (s : Kern) (e : Slot) (v n q : ℕ) :
    s.timesIn e v n q ≤ s.refs B q := by
  refine card_le_owners (g := Key.vpn) fun w hw ↦ ?_
  obtain ⟨hlt, htar⟩ := Kern.target_of_map (B := B) (Finset.mem_filter.mp hw).2
  exact ⟨_, htar, rfl⟩

/-- A round that succeeds maps the first free page, cleared, at `v`. -/
structure Round (B : Machine) (s : Kern) (l l' : List ℕ) (e : Slot) (d : ℕ) (v : Fin NUPG) (p : ℕ)
    (m' : Mem) : Prop where
  remapped : Remapped B s.mem m' s.dirs l l' e v (some (p, PTE_U ||| PTE_W ||| PTE_P))
  zero : ∀ i, m'.phys p i = 0
  dir : ∀ i, i ≠ v.val / 1024 → tableOf m' d i = tableOf s.mem d i
  list : tableOf s.mem d (v.val / 1024) = none ∧ (∃ t, l = p :: t :: l') ∨
    tableOf s.mem d (v.val / 1024) ≠ none ∧ ∃ t, l = p :: t ∧ l' = replaced B s.mem s.dirs t e v p

/-- One more page is free after the round if the page that was mapped has no other reference. -/
def Kern.regained (B : Machine) (s : Kern) (e : Slot) (v : ℕ) : ℕ :=
  match (s.space e v).map Prod.fst with
  | none => 0
  | some q => if s.refs B q = 1 then 1 else 0

namespace Round

variable {v : Fin NUPG} (r : Round B s l l' e d v p m')

include r

theorem mem : p ∈ l := by
  rcases r.list with ⟨-, t, rfl⟩ | ⟨-, t, rfl, -⟩
  · exact List.mem_cons_self
  · exact List.mem_cons_self

variable (hd : s.dirs e = some d)

include hd

theorem space : (s.setMem m').space = s.space.set e v (some (p, PTE_U ||| PTE_W ||| PTE_P)) :=
  r.remapped.addrSpaces_eq (by rw [hd]; simp)

theorem space_self : (s.setMem m').space e v = some (p, PTE_U ||| PTE_W ||| PTE_P) := by
  rw [r.space hd, AddrSpaces.set, if_pos ⟨rfl, rfl⟩]

theorem space_of_ne {e' : Slot} {w : ℕ} (hne : e' = e → w ≠ v) :
    (s.setMem m').space e' w = s.space e' w := by
  rw [r.space hd, AddrSpaces.set, if_neg fun hc ↦ hne hc.1 hc.2]

theorem tableOf_eq_none_iff (i : ℕ) :
    tableOf m' d i = none ↔ tableOf s.mem d i = none ∧ i ≠ v.val / 1024 := by
  by_cases hi : i = v.val / 1024
  · subst hi
    refine iff_of_false (fun hno ↦ ?_) fun hc ↦ hc.2 rfl
    have hself := r.space_self hd
    rw [(s.setMem m').space_eq hd v.isLt] at hself
    have hno' : translate m' d v = none := by
      rw [translate, pteOf_of_no_table hno]
      exact entry_zero
    cases hself.symm.trans hno'
  · rw [r.dir i hi, and_iff_left hi]

theorem newTables_succ (n : ℕ) : (newTables s.mem d v (n + 1)).card =
    (if tableOf s.mem d (v.val / 1024) = none then 1 else 0) +
      (newTables m' d (v + 1) n).card := by
  have hmem : ∀ i, i ∈ newTables s.mem d v (n + 1) ↔
      (i = v.val / 1024 ∧ tableOf s.mem d (v.val / 1024) = none) ∨
        i ∈ newTables m' d (v + 1) n := by
    intro i
    rw [mem_newTables, mem_newTables, r.tableOf_eq_none_iff hd]
    constructor
    · rintro ⟨⟨w, hlo, hhi, rfl⟩, hno⟩
      by_cases hw : w / 1024 = v.val / 1024
      · exact .inl ⟨hw, hw ▸ hno⟩
      · have hne : w ≠ v := fun hc ↦ hw (hc ▸ rfl)
        exact .inr ⟨⟨w, by omega, by omega, rfl⟩, hno, hw⟩
    · rintro (⟨rfl, hno⟩ | ⟨⟨w, hlo, hhi, rfl⟩, hno, -⟩)
      · exact ⟨⟨v, le_rfl, by omega, rfl⟩, hno⟩
      · exact ⟨⟨w, by omega, by omega, rfl⟩, hno⟩
  by_cases hno : tableOf s.mem d (v.val / 1024) = none
  · have hnot : v.val / 1024 ∉ newTables m' d (v + 1) n := fun hc ↦
      ((r.tableOf_eq_none_iff hd _).mp (mem_newTables.mp hc).2).2 rfl
    have heq : newTables s.mem d v (n + 1) = insert (v.val / 1024) (newTables m' d (v + 1) n) := by
      ext i
      rw [hmem, Finset.mem_insert, and_iff_left hno]
    rw [heq, Finset.card_insert_of_notMem hnot, if_pos hno, Nat.add_comm]
  · have heq : newTables s.mem d v (n + 1) = newTables m' d (v + 1) n := by
      ext i
      rw [hmem, or_iff_right fun hc ↦ hno hc.2]
    rw [heq, if_neg hno, Nat.zero_add]

theorem refs_self : (s.setMem m').refs B p = 1 := by
  obtain ⟨hv, htar⟩ := Kern.target_of_space (B := B) (r.space_self hd)
  exact le_antisymm (r.remapped.fresh p r.mem) (owners_pos htar)

omit hd in
/-- References to pages that were not free. -/
theorem refs_of_notMem {x : ℕ} (hx : x ∉ l) : (s.setMem m').refs B x =
    s.refs B x - if (s.space e v).map Prod.fst = some x then 1 else 0 := by
  have hxp : (some (p, PTE_U ||| PTE_W ||| PTE_P)).map Prod.fst ≠ some x := fun hc ↦
    hx (Option.some.inj hc ▸ r.mem)
  have howners := r.remapped.owners x hx
  rw [← s.space_fst, if_neg hxp, Nat.add_zero] at howners
  exact howners

omit hd in
theorem bounded (hb : Bounded B s.mem s.dirs) : Bounded B m' s.dirs := fun x ↦ by
  by_cases hx : x ∈ l
  · exact (r.remapped.fresh x hx).trans (by decide)
  · exact (r.refs_of_notMem hx).trans_le ((Nat.sub_le _ _).trans (hb x))

variable (h : Inv B M s l el)

include h

theorem length : l'.length + 1 + (if tableOf s.mem d (v.val / 1024) = none then 1 else 0) =
    l.length + s.regained B e v := by
  rcases r.list with ⟨hnone, t, rfl⟩ | ⟨hne, t, rfl, rfl⟩
  · have hno : s.space e v = none := by
      rw [s.space_eq hd v.isLt, translate, pteOf_of_no_table hnone]
      exact entry_zero
    rw [if_pos hnone, Kern.regained, hno, Option.map_none]
    simp
  · rw [if_neg hne, replaced, ← s.space_fst, Kern.regained]
    cases hq : (s.space e v).map Prod.fst with
    | none => rfl
    | some q =>
        have hqp : q ≠ p := by
          rintro rfl
          exact h.space_ne_of_free List.mem_cons_self e v hq
        dsimp only
        rw [if_neg hqp, released, Kern.refs]
        split
        · simp
        · simp

/-- A page that is referred to where it will be replaced later still is. -/
theorem onlyIn_succ (n : ℕ) : (s.onlyIn B e v (n + 1)).card =
    s.regained B e v + ((s.setMem m').onlyIn B e (v + 1) n).card := by
  -- the later pages are mapped as before
  have htimes : ∀ q, (s.setMem m').timesIn e (v + 1) n q = s.timesIn e (v + 1) n q := fun q ↦ by
    have hsame : ∀ w ∈ Finset.Ico (v.val + 1) (v.val + 1 + n),
        (((s.setMem m').space e w).map Prod.fst = some q ↔
          (s.space e w).map Prod.fst = some q) := by
      intro w hw
      have hne : w ≠ v := by
        rw [Finset.mem_Ico] at hw
        omega
      rw [r.space_of_ne hd fun _ ↦ hne]
    rw [Kern.timesIn, Finset.filter_congr hsame, Kern.timesIn]
  have hfree : ∀ q ∈ l, s.timesIn e (v + 1) n q = 0 := fun q hq ↦
    Kern.timesIn_eq_zero fun w _ _ ↦ h.space_ne_of_free hq e w
  have hmem : ∀ q, q ∈ s.onlyIn B e v (n + 1) ↔
      ((s.space e v).map Prod.fst = some q ∧ s.refs B q = 1) ∨
        q ∈ (s.setMem m').onlyIn B e (v + 1) n := by
    intro q
    rw [Kern.mem_onlyIn, Kern.mem_onlyIn, htimes, Kern.timesIn_succ]
    have hle := s.timesIn_le_refs (B := B) e v (n + 1) q
    rw [Kern.timesIn_succ] at hle
    by_cases hq : q ∈ l
    · have hzero : s.refs B q = 0 := h.own.owners_of_mem_list hq
      rw [hfree q hq, hzero]
      refine iff_of_false (fun hc ↦ by omega) ?_
      rintro (⟨hc, -⟩ | ⟨-, hpos, heq⟩)
      · exact h.space_ne_of_free hq e v hc
      · omega
    · rw [r.refs_of_notMem hq]
      by_cases hv : (s.space e v).map Prod.fst = some q
      · have hlt : q < B.npages := by
          obtain ⟨⟨q', f⟩, hspace, rfl⟩ := Option.map_eq_some_iff.mp hv
          exact M.lt _ (h.mapped hspace).1
        rw [if_pos hv] at hle ⊢
        constructor
        · rintro ⟨-, hpos, heq⟩
          by_cases h1 : s.refs B q = 1
          · exact .inl ⟨hv, h1⟩
          · exact .inr ⟨hlt, by omega, by omega⟩
        · rintro (⟨-, h1⟩ | ⟨-, hpos, heq⟩)
          · exact ⟨hlt, by omega, by omega⟩
          · exact ⟨hlt, by omega, by omega⟩
      · rw [if_neg hv, Nat.zero_add, Nat.sub_zero, or_iff_right fun hc ↦ hv hc.1]
  rw [Kern.regained]
  cases hv : (s.space e v).map Prod.fst with
  | none =>
      have heq : s.onlyIn B e v (n + 1) = (s.setMem m').onlyIn B e (v + 1) n := by
        ext q
        rw [hmem, hv, or_iff_right fun hc ↦ Option.some_ne_none q hc.1.symm]
      rw [heq, Nat.zero_add]
  | some q₀ =>
      by_cases h1 : s.refs B q₀ = 1
      · have hnot : q₀ ∉ (s.setMem m').onlyIn B e (v + 1) n := by
          have hq₀ : q₀ ∉ l := fun hc ↦ h.space_ne_of_free hc e v hv
          rw [Kern.mem_onlyIn, r.refs_of_notMem hq₀, if_pos hv, h1]
          omega
        have heq : s.onlyIn B e v (n + 1) = insert q₀ ((s.setMem m').onlyIn B e (v + 1) n) := by
          ext q
          rw [hmem, hv, Finset.mem_insert, Option.some.injEq]
          refine or_congr_left ⟨fun hc ↦ hc.1.symm, ?_⟩
          rintro rfl
          exact ⟨rfl, h1⟩
        rw [heq, Finset.card_insert_of_notMem hnot, Nat.add_comm]
        simp only [if_pos h1]
      · have heq : s.onlyIn B e v (n + 1) = (s.setMem m').onlyIn B e (v + 1) n := by
          ext q
          rw [hmem, hv]
          refine or_iff_right ?_
          rintro ⟨hc, hc'⟩
          obtain rfl := Option.some.inj hc
          exact h1 hc'
        simp only [heq, if_neg h1, Nat.zero_add]

/-- What is left of the loop runs out of memory where the whole does. -/
theorem short_iff (n : ℕ) :
    s.Short B l e d v (n + 1) ↔ (s.setMem m').Short B l' e d (v + 1) n := by
  have hlen := r.length hd h
  cases n with
  | zero =>
      have hpos := List.length_pos_of_mem r.mem
      refine iff_of_false (fun hc ↦ ?_) id
      rw [Kern.Short, Kern.onlyIn_zero, newTables_zero, Finset.card_empty] at hc
      omega
  | succ k =>
      have ht := r.newTables_succ hd k
      have hf := r.onlyIn_succ hd h k
      rw [Kern.Short, Kern.Short, ht, hf, Kern.mem_setMem]
      omega

theorem loses_iff (n : ℕ) :
    s.Loses B l e d v (n + 1) ↔ (s.setMem m').Loses B l' e d (v + 1) n := by
  have hlen := r.length hd h
  cases n with
  | zero =>
      refine iff_of_false (fun ⟨hnew, hone⟩ ↦ ?_) id
      rw [r.newTables_succ hd, newTables_zero, newTables_zero, Finset.card_empty] at hnew
      rw [Kern.onlyIn_zero, newTables_zero, Finset.card_empty] at hone
      rcases r.list with ⟨-, t, rfl⟩ | ⟨hne, -⟩
      · simp at hone
      · rw [if_neg hne] at hnew
        cases hnew
  | succ k =>
      have ht := r.newTables_succ hd k
      have ht' := r.newTables_succ hd (k + 1)
      have hf := r.onlyIn_succ hd h k
      rw [Kern.Loses, Kern.Loses, ht, ht', hf]
      show _ ↔ (newTables m' d (v + 1) (k + 1)).card = (newTables m' d (v + 1) k).card + 1 ∧
        _ = k + (newTables m' d (v + 1) k).card + 1
      omega

end Round

/-- A round takes the first free page.  It maps the page, or there is no page left for the table. -/
theorem Inv.regionRound (h : Inv B M s l el) (hb : Bounded B s.mem s.dirs) (hd : s.dirs e = some d)
    {y : Word} (hy : y < UTOP) {t : List ℕ} (hl : l = p :: t) :
    (tableOf s.mem d (pgnum y / 1024) = none ∧ t = [] ∧
      pageInsert B (s.mem.taken p) d p y (PTE_U ||| PTE_W) = some (-E_NO_MEM, s.mem.taken p)) ∨
    ∃ m' l', pageInsert B (s.mem.taken p) d p y (PTE_U ||| PTE_W) = some (0, m') ∧
      Inv B M (s.setMem m') l' el ∧ Round B s l l' e d (upn hy) p m' := by
  obtain ⟨-, hown, htar⟩ := h.own.pageAlloc_cons hl
  have hpl : p ∈ l := hl ▸ List.mem_cons_self
  have hpt : p ∉ t := (List.nodup_cons.mp (hl ▸ h.own.ledger.chain.nodup)).1
  have hle : ∀ q, target B s.mem s.dirs (.page e (upn hy)) = some q → s.refs B q < 2 ^ 16 :=
    fun q _ ↦ Nat.lt_succ_of_le (hb q)
  have hperm : (PTE_U ||| PTE_W).toNat < 4096 := by decide
  have htab : tableOf (s.mem.taken p) d (pdx y) = tableOf s.mem d (pdx y) := by
    have hi := pdx_lt_of_lt_UTOP hy
    rw [← Jos.target_table (B := B) hd hi, ← Jos.target_table (B := B) hd hi, htar]
  rw [pgnum_div]
  rcases h.insertTaken hd hy hle hperm hl hown (h.own.tabled_taken hl) htar with
    hno | ⟨m', l', hins, hinv, -, -, hre, hphys⟩
  · exact .inl hno
  · refine .inr ⟨m', l', hins, hinv, hre, fun i ↦ ?_, fun i hi ↦ ?_, ?_⟩
    · rw [hphys]
      exact s.mem.phys_zero_self p i
    · have hdp : d ≠ p := (h.own.unstructured_of_mem_list hpl).ne_dir hd
      have hne : i ≠ pdx y := fun hc ↦ hi (hc.trans (pgnum_div y).symm)
      rw [hown.tableOf_pageInsert hd hy hins hne, tableOf, tableOf]
      exact congrArg entryFrame (congrFun (s.mem.phys_zero_of_ne hdp) i)
    · have hun : Unstructured B (s.mem.taken p) s.dirs p :=
        unstructured_of_owners_zero (by rw [htar, h.own.owners_of_mem_list hpl])
      have hlist := hown.pageInsert_list hd hy (h.own.list_sub hpl) hpt hun hperm
        (fun q hq ↦ by rw [htar] at hq ⊢; exact hle q hq) hins hinv.own
      rw [htab, replaced, htar, ← pgnum_div] at hlist
      rcases hlist with ⟨hnone, t', rfl⟩ | ⟨hne, hrep⟩
      · exact .inl ⟨hnone, t', hl⟩
      · exact .inr ⟨hne, t, hl, hrep⟩

/-! ## The loop -/

/-- The pages of `V` in `e` are newly mapped, to cleared pages that nothing else refers to, and
nothing else changes. -/
structure Allotted (B : Machine) (s : Kern) (e : Slot) (V : Set ℕ) (m' : Mem) : Prop where
  mapped : ∀ v ∈ V, ∃ p, (s.setMem m').space e v = some (p, PTE_U ||| PTE_W ||| PTE_P) ∧
    (s.space e v).map Prod.fst ≠ some p ∧ (s.setMem m').refs B p = 1 ∧ ∀ i, m'.phys p i = 0
  others : ∀ e' v, (e' = e → v ∉ V) → (s.setMem m').space e' v = s.space e' v
  kept : ∀ e' v p f, (e' = e → v ∉ V) → s.space e' v = some (p, f) →
    m'.phys p = s.mem.phys p ∧ (s.setMem m').refs B p ≤ s.refs B p

theorem Allotted.nil {v : ℕ} : Allotted B s e (Set.Ico v (v + 0)) s.mem where
  mapped w hw := by
    rw [Nat.add_zero, Set.Ico_self] at hw
    exact hw.elim
  others _ _ _ := rfl
  kept _ _ _ _ _ _ := ⟨rfl, le_rfl⟩

theorem Round.cons {v : Fin NUPG} {n : ℕ} {m'' : Mem} (r : Round B s l l' e d v p m')
    (hd : s.dirs e = some d) (h : Inv B M s l el)
    (rest : Allotted B (s.setMem m') e (Set.Ico (v.val + 1) (v.val + 1 + n)) m'') :
    Allotted B s e (Set.Ico v.val (v.val + (n + 1))) m'' where
  mapped w hw := by
    rw [Set.mem_Ico] at hw
    by_cases hwv : w = v
    · subst hwv
      have hnot : e = e → v.val ∉ Set.Ico (v.val + 1) (v.val + 1 + n) := fun _ hc ↦ by
        rw [Set.mem_Ico] at hc
        omega
      have hself := r.space_self hd
      obtain ⟨hphys, hrefs⟩ := rest.kept e v p _ hnot hself
      have hspace : (s.setMem m'').space e v = some (p, PTE_U ||| PTE_W ||| PTE_P) :=
        (rest.others e v hnot).trans hself
      obtain ⟨_, htar⟩ := Kern.target_of_space (B := B) hspace
      refine ⟨p, hspace, h.space_ne_of_free r.mem e v, le_antisymm ?_ (owners_pos htar),
        fun i ↦ ?_⟩
      · exact hrefs.trans (r.refs_self hd).le
      · rw [hphys]
        exact r.zero i
    · obtain ⟨q, hspace, hnew, hrefs, hzero⟩ := rest.mapped w (by rw [Set.mem_Ico]; omega)
      rw [r.space_of_ne hd fun _ ↦ hwv] at hnew
      exact ⟨q, hspace, hnew, hrefs, hzero⟩
  others e' w hw := by
    have hrest : e' = e → w ∉ Set.Ico (v.val + 1) (v.val + 1 + n) := fun he hc ↦ hw he (by
      rw [Set.mem_Ico] at hc ⊢
      omega)
    have hne : e' = e → w ≠ v := fun he hc ↦ hw he (by
      rw [Set.mem_Ico]
      omega)
    exact (rest.others e' w hrest).trans (r.space_of_ne hd hne)
  kept e' w q f hw hq := by
    have hrest : e' = e → w ∉ Set.Ico (v.val + 1) (v.val + 1 + n) := fun he hc ↦ hw he (by
      rw [Set.mem_Ico] at hc ⊢
      omega)
    have hne : e' = e → w ≠ v := fun he hc ↦ hw he (by
      rw [Set.mem_Ico]
      omega)
    obtain ⟨-, hql, hun⟩ := h.mapped hq
    obtain ⟨hphys, hrefs⟩ := rest.kept e' w q f hrest ((r.space_of_ne hd hne).trans hq)
    have hframe := r.remapped.frame.other q hql (fun e' d' hd' ↦ hun.ne_dir hd')
      fun e' d' i t' hd' hi ht' ↦ hun.ne_table hd' hi ht'
    refine ⟨hphys.trans hframe, hrefs.trans ?_⟩
    rw [r.refs_of_notMem hql]
    exact Nat.sub_le _ _

/-- Of the directory entries of `d` those of the `n` pages from `v` on get tables, and the entries
stay open. -/
structure Tables (B : Machine) (s : Kern) (d v n : ℕ) (m' : Mem) : Prop where
  none_iff : ∀ i, tableOf m' d i = none ↔
    tableOf s.mem d i = none ∧ ∀ w, v ≤ w → w < v + n → w / 1024 ≠ i
  entries : PdesOpen B s.mem s.dirs → PdesOpen B m' s.dirs

theorem Tables.nil {v : ℕ} : Tables B s d v 0 s.mem :=
  ⟨fun _ ↦ (and_iff_left fun _ _ _ ↦ by omega).symm, id⟩

theorem Round.cons_tables {v : Fin NUPG} {n : ℕ} {m'' : Mem} (r : Round B s l l' e d v p m')
    (hd : s.dirs e = some d) (h : Inv B M s l el)
    (rest : Tables B (s.setMem m') d (v.val + 1) n m'') : Tables B s d v.val (n + 1) m'' where
  none_iff i := by
    rw [rest.none_iff, Kern.mem_setMem, r.tableOf_eq_none_iff hd, and_assoc]
    refine and_congr_right fun _ ↦ ⟨fun ⟨hne, hw⟩ w h1 h2 ↦ ?_, fun hw ↦ ⟨?_, fun w h1 h2 ↦ ?_⟩⟩
    · rcases Nat.lt_or_eq_of_le h1 with hlt | rfl
      · exact hw w hlt (by omega)
      · exact hne.symm
    · exact (hw v le_rfl (by omega)).symm
    · exact hw w (by omega) (by omega)
  entries ho := rest.entries (h.own.pdesOpen ho r.remapped.frame)

/-- The loop panics if it is short of pages, it loses a page if it is short of one for the last
table, and otherwise it maps what it should. -/
theorem Inv.regionAllocLoop_spec (h : Inv B M s l el) (hb : Bounded B s.mem s.dirs)
    (hd : s.dirs e = some d) {n : ℕ} {y : Word} (hfit : y.toNat + n * 4096 ≤ UTOP.toNat) :
    (regionAllocLoop B d n y s.mem = none ∧ s.Short B l e d (pgnum y) n) ∨
    (s.Loses B l e d (pgnum y) n ∧ ∃ m' p, regionAllocLoop B d n y s.mem = some (false, m') ∧
      m'.pageFreeList = none ∧ p ∈ M.carrier ∧ (s.setMem m').refs B p = 0) ∨
    ¬ s.Short B l e d (pgnum y) n ∧ ¬ s.Loses B l e d (pgnum y) n ∧
      ∃ m' l', regionAllocLoop B d n y s.mem = some (true, m') ∧ Inv B M (s.setMem m') l' el ∧
        Bounded B m' s.dirs ∧ Allotted B s e (Set.Ico (pgnum y) (pgnum y + n)) m' ∧
        l'.length + n + (newTables s.mem d (pgnum y) n).card =
          l.length + (s.onlyIn B e (pgnum y) n).card ∧ Tables B s d (pgnum y) n m' := by
  induction n generalizing s l y with
  | zero =>
      refine .inr (.inr ⟨id, id, s.mem, l, rfl, h, hb, .nil, ?_, .nil⟩)
      rw [newTables_zero, Kern.onlyIn_zero, Nat.add_zero]
  | succ n ih =>
      have hU : UTOP.toNat = 4005560320 := rfl
      have hy : y < UTOP := by
        rw [BitVec.lt_def]
        omega
      have hy' : (y + 0x1000).toNat = y.toNat + 4096 := by
        rw [BitVec.toNat_add, show (0x1000 : Word).toNat = 4096 from rfl]
        omega
      have hpg : pgnum (y + 0x1000) = pgnum y + 1 := by
        rw [pgnum_eq, pgnum_eq, hy']
        omega
      have hcard := s.card_onlyIn_le (B := B) e (pgnum y) n
      cases hl : l with
      | nil =>
          subst hl
          refine .inl ⟨?_, ?_⟩
          · simp only [regionAllocLoop, h.own.pageAlloc_empty rfl, Option.bind_eq_bind,
              Option.bind_some, Option.bind_none]
          · rw [Kern.Short, List.length_nil]
            omega
      | cons p t =>
          obtain ⟨halloc, hown, htar⟩ := h.own.pageAlloc_cons hl
          rcases h.regionRound hb hd hy hl with ⟨hno, rfl, hins⟩ | ⟨m₁, l₁, hins, h₁, r⟩
          · -- there was no page for the table
            have hround : Jos.regionAllocLoop B d (n + 1) y s.mem =
                (Jos.regionAllocLoop B d n (y + 0x1000) (s.mem.taken p)).map
                  fun x ↦ (false, x.2) := by
              simp only [Jos.regionAllocLoop, halloc, hins, Option.bind_eq_bind, Option.bind_some,
                Option.pure_def]
              cases Jos.regionAllocLoop B d n (y + 0x1000) (s.mem.taken p) with
              | none => rfl
              | some x => rfl
            cases n with
            | zero =>
                refine .inr (.inl ⟨⟨?_, ?_⟩, s.mem.taken p, p, hround, hown.ledger.chain.head_eq,
                  h.own.list_sub (hl ▸ List.mem_cons_self), ?_⟩)
                · have hone : newTables s.mem d (pgnum y) (0 + 1) = {pgnum y / 1024} := by
                    ext i
                    rw [mem_newTables, Finset.mem_singleton]
                    constructor
                    · rintro ⟨⟨w, hlo, hhi, rfl⟩, -⟩
                      rw [show w = pgnum y by omega]
                    · rintro rfl
                      exact ⟨⟨pgnum y, le_rfl, by omega, rfl⟩, hno⟩
                  rw [hone, newTables_zero, Finset.card_singleton, Finset.card_empty]
                · rw [Kern.onlyIn_zero, newTables_zero, Finset.card_empty]
                  rfl
                · show owners (target B (s.mem.taken p) s.dirs) p = 0
                  rw [htar, h.own.owners_of_mem_list (hl ▸ List.mem_cons_self)]
            | succ k =>
                refine .inl ⟨?_, ?_⟩
                · rw [hround, Jos.regionAllocLoop, hown.pageAlloc_empty rfl]
                  rfl
                · have hmem : pgnum y / 1024 ∈ newTables s.mem d (pgnum y) (k + 1) :=
                    mem_newTables.mpr ⟨⟨pgnum y, le_rfl, by omega, rfl⟩, hno⟩
                  have hpos := Finset.card_pos.mpr ⟨_, hmem⟩
                  rw [Kern.Short, List.length_singleton]
                  omega
          · have hround : Jos.regionAllocLoop B d (n + 1) y s.mem =
                Jos.regionAllocLoop B d n (y + 0x1000) m₁ := by
              simp only [Jos.regionAllocLoop, halloc, hins, Option.bind_eq_bind, Option.bind_some,
                Option.pure_def]
              cases Jos.regionAllocLoop B d n (y + 0x1000) m₁ with
              | none => rfl
              | some x => rfl
            have hnext := ih h₁ (r.bounded hb) hd (y := y + 0x1000) (by omega)
            have hshort : s.Short B l e d (pgnum y) (n + 1) ↔
                (s.setMem m₁).Short B l₁ e d (pgnum y + 1) n := r.short_iff hd h n
            have hloses : s.Loses B l e d (pgnum y) (n + 1) ↔
                (s.setMem m₁).Loses B l₁ e d (pgnum y + 1) n := r.loses_iff hd h n
            rw [hpg, ← hshort, ← hloses, Kern.mem_setMem, ← hround] at hnext
            rw [← hl]
            rcases hnext with hno | ⟨hlose, hlost⟩ |
              ⟨hns, hnl, m', l', hrun, hinv, hb', hall, hcnt, htabs⟩
            · exact .inl hno
            · exact .inr (.inl ⟨hlose, hlost⟩)
            · refine .inr (.inr ⟨hns, hnl, m', l', hrun, hinv, hb', r.cons hd h hall, ?_,
                r.cons_tables hd h htabs⟩)
              have hlen := r.length hd h
              have ht := r.newTables_succ hd n
              have hf := r.onlyIn_succ hd h n
              rw [show (upn hy).val = pgnum y from rfl] at hlen ht hf
              omega

/-! ## The region -/

/-- The pages that intersect `[va, va + len)`; the sum does not wrap around. -/
def regionPages (va len : Word) : Set ℕ :=
  {v | ∃ a : ℕ, va.toNat ≤ a ∧ a < va.toNat + len.toNat ∧ a / 4096 = v}

/-- How often the loop of `region_alloc` runs. -/
def regionRounds (va len : Word) : ℕ :=
  ((roundup (va + len) 0x1000).toNat - (rounddown va 0x1000).toNat) / PGSIZE

/-- `region_alloc` panics, or maps the region and loses no page. -/
def RegionMapped (B : Machine) (M : Pool B) (s : Kern) (e : Slot) (d : ℕ) (va len : Word) : Prop :=
  regionAlloc B s.mem d va len = none ∨
  ∃ ok m', regionAlloc B s.mem d va len = some (ok, m') ∧
    Allotted B s e (regionPages va len) m' ∧
    ∃ l', Chain m'.link m'.pageFreeList l' ∧ ∀ p ∈ M.carrier, p ∈ l' ∨ 0 < (s.setMem m').refs B p

/-- The rounded bounds enclose the pages of the region. -/
def Rounded (va len : Word) : Prop :=
  if len = 0 then va.toNat % 4096 = 0 ∨ 2 ^ 32 - 4096 < va.toNat
  else va.toNat + len.toNat ≤ 2 ^ 32 - 4096

instance (va len : Word) : Decidable (Rounded va len) := by
  unfold Rounded
  infer_instance

theorem Rounded.pages {va len : Word} (h : Rounded va len) :
    regionPages va len = Set.Ico (pgnum va) (pgnum va + regionRounds va len) := by
  have hva := va.isLt
  ext v
  rw [Set.mem_Ico, pgnum_eq, regionRounds, roundup_toNat, rounddown_toNat, BitVec.toNat_add, PGSIZE]
  rw [Rounded] at h
  split at h
  · next h0 =>
      subst h0
      refine iff_of_false ?_ ?_
      · rintro ⟨a, h1, h2, -⟩
        rw [show (0 : Word).toNat = 0 from rfl] at h2
        omega
      · rw [show (0 : Word).toNat = 0 from rfl]
        omega
  · next h0 =>
      have hpos : 0 < len.toNat := Nat.pos_of_ne_zero fun hc ↦ h0 (BitVec.eq_of_toNat_eq hc)
      constructor
      · rintro ⟨a, h1, h2, rfl⟩
        omega
      · rintro ⟨h1, h2⟩
        by_cases hv : va.toNat ≤ v * 4096
        · exact ⟨v * 4096, hv, by omega, by omega⟩
        · exact ⟨va.toNat, le_rfl, by omega, by omega⟩

/-- A region that wraps around has the last page, unless it is empty. -/
theorem mem_regionPages_of_not_rounded {va len : Word} (h : ¬ Rounded va len) (hlen : len ≠ 0) :
    0xFFFFF ∈ regionPages va len := by
  have hva := va.isLt
  rw [Rounded, if_neg hlen] at h
  by_cases hlast : va.toNat ≤ 0xFFFFF000
  · exact ⟨0xFFFFF000, hlast, by omega, rfl⟩
  · have hpos : 0 < len.toNat := Nat.pos_of_ne_zero fun hc ↦ hlen (BitVec.eq_of_toNat_eq hc)
    exact ⟨va.toNat, le_rfl, by omega, by omega⟩

theorem regionPages_zero (va : Word) : regionPages va 0 = ∅ := by
  refine Set.eq_empty_of_forall_notMem fun v ⟨a, h1, h2, _⟩ ↦ ?_
  rw [show (0 : Word).toNat = 0 from rfl] at h2
  omega

/-- Then there is one round at most, and for the empty region there is one. -/
theorem regionRounds_of_not_rounded {va len : Word} (h : ¬ Rounded va len) :
    regionRounds va len ≤ 1 ∧ (len = 0 → regionRounds va len = 1) := by
  have hva := va.isLt
  have hlen := len.isLt
  rw [regionRounds, roundup_toNat, rounddown_toNat, BitVec.toNat_add, PGSIZE]
  rw [Rounded] at h
  split at h
  · next h0 =>
      subst h0
      rw [show (0 : Word).toNat = 0 from rfl]
      omega
  · next h0 =>
      refine ⟨by omega, fun hc ↦ absurd hc h0⟩

theorem regionRounds_pos_iff {va len : Word} :
    0 < regionRounds va len ↔ rounddown va 0x1000 < roundup (va + len) 0x1000 := by
  rw [regionRounds, BitVec.lt_def, roundup_toNat, rounddown_toNat, PGSIZE]
  omega

theorem Kern.Short.not_loses {v n : ℕ} (h : s.Short B l e d v n) : ¬ s.Loses B l e d v n := by
  cases n with
  | zero => exact h.elim
  | succ k =>
      rintro ⟨-, hone⟩
      rw [Kern.Short] at h
      omega

theorem Kern.short_one {v : ℕ} : s.Short B l e d v 1 ↔ l = [] := by
  rw [Kern.Short, Kern.onlyIn_zero, newTables_zero, Finset.card_empty, ← List.length_eq_zero_iff]
  omega

/-- What `region_alloc` does below `UTOP`. -/
theorem Inv.regionAlloc_spec (h : Inv B M s l el) (hb : Bounded B s.mem s.dirs)
    (hd : s.dirs e = some d) {va len : Word}
    (hU : rounddown va 0x1000 < roundup (va + len) 0x1000 → roundup (va + len) 0x1000 ≤ UTOP) :
    (regionAlloc B s.mem d va len = none ∧ s.Short B l e d (pgnum va) (regionRounds va len)) ∨
    (s.Loses B l e d (pgnum va) (regionRounds va len) ∧ ∃ m' p,
      regionAlloc B s.mem d va len = some (false, m') ∧
      m'.pageFreeList = none ∧ p ∈ M.carrier ∧ (s.setMem m').refs B p = 0) ∨
    ¬ s.Short B l e d (pgnum va) (regionRounds va len) ∧
      ¬ s.Loses B l e d (pgnum va) (regionRounds va len) ∧
      ∃ m' l', regionAlloc B s.mem d va len = some (true, m') ∧ Inv B M (s.setMem m') l' el ∧
        Bounded B m' s.dirs ∧
        Allotted B s e (Set.Ico (pgnum va) (pgnum va + regionRounds va len)) m' ∧
        l'.length + regionRounds va len +
            (newTables s.mem d (pgnum va) (regionRounds va len)).card =
          l.length + (s.onlyIn B e (pgnum va) (regionRounds va len)).card ∧
        Tables B s d (pgnum va) (regionRounds va len) m' := by
  have hpg : pgnum (rounddown va 0x1000) = pgnum va := by
    rw [pgnum_eq, pgnum_eq, rounddown_toNat]
    omega
  have hrun : regionAlloc B s.mem d va len =
      Jos.regionAllocLoop B d (regionRounds va len) (rounddown va 0x1000) s.mem := rfl
  rcases Nat.eq_zero_or_pos (regionRounds va len) with h0 | hpos
  · rw [hrun, h0]
    refine .inr (.inr ⟨id, id, s.mem, l, rfl, h, hb, .nil, ?_, .nil⟩)
    rw [newTables_zero, Kern.onlyIn_zero, Nat.add_zero]
  · have hle := hU (regionRounds_pos_iff.mp hpos)
    have hlt := regionRounds_pos_iff.mp hpos
    have hfit : (rounddown va 0x1000).toNat + regionRounds va len * 4096 ≤ UTOP.toNat := by
      rw [BitVec.le_def] at hle
      rw [BitVec.lt_def] at hlt
      rw [regionRounds, PGSIZE]
      omega
    have hloop := h.regionAllocLoop_spec hb hd hfit
    rwa [hpg, ← hrun] at hloop

/-- A page is lost. -/
theorem not_lossless {m' : Mem} (hlist : m'.pageFreeList = none) (hp : p ∈ M.carrier)
    (hrefs : (s.setMem m').refs B p = 0) :
    ¬ ∃ l', Chain m'.link m'.pageFreeList l' ∧
      ∀ p ∈ M.carrier, p ∈ l' ∨ 0 < (s.setMem m').refs B p := by
  rintro ⟨l', hchain, hall⟩
  rw [hlist] at hchain
  obtain rfl := hchain.eq_nil
  rcases hall p hp with hc | hc
  · cases hc
  · omega

/-- If memory runs out at the table of the last page, that page is lost. -/
theorem Inv.not_regionMapped (h : Inv B M s l el) (hb : Bounded B s.mem s.dirs)
    (hd : s.dirs e = some d) {va len : Word}
    (hU : rounddown va 0x1000 < roundup (va + len) 0x1000 → roundup (va + len) 0x1000 ≤ UTOP)
    (hlose : s.Loses B l e d (pgnum va) (regionRounds va len)) :
    ¬ RegionMapped B M s e d va len := by
  rcases h.regionAlloc_spec hb hd hU with ⟨-, hshort⟩ | ⟨-, m', p, hrun, hlist, hp, hrefs⟩ |
    ⟨-, hnl, -⟩
  · exact absurd hlose hshort.not_loses
  · rintro (hnone | ⟨ok, m'', hrun', -, hfree⟩)
    · cases hnone.symm.trans hrun
    · obtain ⟨-, rfl⟩ := Prod.mk.inj (Option.some.inj (hrun.symm.trans hrun'))
      exact not_lossless hlist hp hrefs hfree
  · exact absurd hlose hnl

/-- `region_alloc` does what it should if nothing wraps around and memory does not run out at the
table of the last page; otherwise only the panic at an empty free list saves it. -/
theorem region_alloc_iff (h : Inv B M s l el) (hb : Bounded B s.mem s.dirs)
    (hd : s.dirs e = some d) {va len : Word}
    (hU : rounddown va 0x1000 < roundup (va + len) 0x1000 → roundup (va + len) 0x1000 ≤ UTOP) :
    RegionMapped B M s e d va len ↔
      Rounded va len ∧ ¬ s.Loses B l e d (pgnum va) (regionRounds va len) ∨
      ¬ Rounded va len ∧ rounddown va 0x1000 < roundup (va + len) 0x1000 ∧ l = [] := by
  have hspec := h.regionAlloc_spec hb hd hU
  by_cases hR : Rounded va len
  · rw [or_iff_left fun hc ↦ hc.1 hR, and_iff_right hR]
    refine ⟨fun hmap hlose ↦ h.not_regionMapped hb hd hU hlose hmap, fun hnl ↦ ?_⟩
    rcases hspec with ⟨hnone, -⟩ | ⟨hlose, -⟩ | ⟨-, -, m', l', hrun, hinv, -, hall, -⟩
    · exact .inl hnone
    · exact absurd hlose hnl
    · refine .inr ⟨true, m', hrun, hR.pages ▸ hall, l', hinv.own.ledger.chain, fun p hp ↦ ?_⟩
      by_cases hpl : p ∈ l'
      · exact .inl hpl
      · exact .inr ((hinv.own.ledger.pos_or_loose hp hpl).resolve_right id)
  · rw [or_iff_right fun hc ↦ hR hc.1, and_iff_right hR, ← regionRounds_pos_iff, RegionMapped]
    obtain ⟨hle, hzero⟩ := regionRounds_of_not_rounded hR
    constructor
    · rintro (hnone | ⟨ok, m', hrun', hall, hfree⟩)
      · rcases hspec with ⟨-, hshort⟩ | ⟨-, m', p, hrun, -⟩ | ⟨-, -, m', l', hrun, -⟩
        · rcases Nat.eq_zero_or_pos (regionRounds va len) with h0 | hpos
          · rw [h0] at hshort
            exact hshort.elim
          · rw [show regionRounds va len = 1 by omega, Kern.short_one] at hshort
            exact ⟨hpos, hshort⟩
        · cases hnone.symm.trans hrun
        · cases hnone.symm.trans hrun
      · exfalso
        by_cases hlen : len = 0
        · subst hlen
          rw [regionPages_zero] at hall
          rcases hspec with ⟨hnone, -⟩ | ⟨-, m'', p, hrun, hlist, hp, hrefs⟩ |
            ⟨-, -, m'', l', hrun, hinv, -, hone, -⟩
          · cases hnone.symm.trans hrun'
          · obtain ⟨-, rfl⟩ := Prod.mk.inj (Option.some.inj (hrun.symm.trans hrun'))
            exact not_lossless hlist hp hrefs hfree
          · -- a page is mapped that is not in the region
            obtain ⟨-, rfl⟩ := Prod.mk.inj (Option.some.inj (hrun.symm.trans hrun'))
            rw [hzero rfl] at hone
            obtain ⟨p, hspace, hnew, -⟩ := hone.mapped (pgnum va) (by rw [Set.mem_Ico]; omega)
            rw [hall.others e (pgnum va) fun _ ↦ id] at hspace
            exact hnew (congrArg (Option.map Prod.fst) hspace)
        · obtain ⟨p, hspace, -⟩ := hall.mapped _ (mem_regionPages_of_not_rounded hR hlen)
          obtain ⟨hv, -⟩ := Kern.target_of_space (B := B) hspace
          exact absurd hv (by decide)
    · rintro ⟨hpos, rfl⟩
      rw [show regionRounds va len = 1 by omega, Kern.short_one] at hspec
      rcases hspec with ⟨hnone, -⟩ | ⟨⟨-, hone⟩, -⟩ | ⟨hshort, -⟩
      · exact .inl hnone
      · rw [Kern.onlyIn_zero, newTables_zero] at hone
        simp at hone
      · exact absurd rfl hshort

/-- On a machine with plenty of memory three pages are mapped. -/
theorem region_alloc_iff_demo : ∃ s l el e d, BootInv demoConfig.machine demoConfig.pool s l el ∧
    s.dirs e = some d ∧ RegionMapped demoConfig.machine demoConfig.pool s e d 0x800000 0x2345 := by
  obtain ⟨s, l, el, e, -, env, -, d, -, -, hb, hl, -, -, henv, -⟩ := exists_booted
  have hd : s.dirs e = some d := by
    rw [Kern.dirs, henv]
    rfl
  refine ⟨s, l, el, e, d, hb, hd,
    (region_alloc_iff hb.inv hb.bounded hd (by decide)).mpr (.inl ⟨by decide, ?_⟩)⟩
  rw [show regionRounds 0x800000 0x2345 = 2 + 1 by decide]
  intro hlose
  rw [Kern.Loses] at hlose
  have hle : (newTables s.mem d (pgnum 0x800000) 2).card ≤ 2 := by
    refine (Finset.card_filter_le _ _).trans (Finset.card_image_le.trans ?_)
    rw [Nat.card_Ico, Nat.add_sub_cancel_left]
  omega

/-- A machine with two free pages. -/
def smallMachine : Machine := ⟨3, 0, by decide⟩

def smallPool : Pool smallMachine :=
  ⟨{1, 2}, by rintro p (rfl | rfl) <;> decide, by simp [smallMachine]⟩

def smallMem : Mem :=
  ⟨fun p ↦ ⟨if p = 1 then some 2 else none, 0⟩, some 1, fun _ _ ↦ 0, []⟩

theorem smallMem_kernBoot : KernBoot smallMachine smallPool smallMem [1, 2] := by
  have htab : ∀ d i, tableOf smallMem d i = none := fun _ _ ↦ entryFrame_zero
  have hno : ∀ k, target smallMachine smallMem noDirs k = none := by
    intro k
    cases k with
    | kern i =>
        rw [target, htab]
        exact ite_self _
    | _ => rfl
  have hzero : ∀ x, owners (target smallMachine smallMem noDirs) x = 0 := fun x ↦ by
    rw [owners_eq_zero_iff]
    intro k hk
    rw [hno k] at hk
    cases hk
  refine ⟨⟨⟨.cons (.cons .nil), fun p ↦ ?_, fun p _ ↦ ?_, fun p hp hpl ↦ ?_, ?_⟩, fun k p hk ↦ ?_,
    fun k _ p hk ↦ ?_⟩, fun i t _ _ _ ht ↦ ?_, fun i _ _ _ ↦ openPde_zero⟩
  · simp [hzero, smallPool]
  · rw [hzero]
    rfl
  · exact absurd (by simpa [smallPool] using hp) hpl
  · rintro p hp
    exact hp.elim
  · rw [hno k] at hk
    cases hk
  · rw [hno k] at hk
    cases hk
  · rw [htab] at ht
    cases ht

/-- One page is free, and the first page of the region needs a table: the call returns, and the page
is lost. -/
theorem region_alloc_loses_page : ∃ s l el e d, BootInv smallMachine smallPool s l el ∧
    s.dirs e = some d ∧ ¬ RegionMapped smallMachine smallPool s e d 0x800000 1 := by
  obtain ⟨hmem, el, hel⟩ := envInit_spec ⟨smallMem, fun _ ↦ {}, none⟩
  have h₀ : BootInv smallMachine smallPool _ [1, 2] el :=
    hel.bootInv (by rw [hmem]; exact smallMem_kernBoot)
  have hall : ⟨0, by decide⟩ ∈ el := (hel.mem_iff _).mpr (Nat.zero_le _)
  rcases h₀.inv.envAlloc_spec 0 with
    ⟨r, ⟨-, hc⟩, -⟩ | ⟨e, el', d, l, s, -, hl, -, henv, -, hinv, hev, hsu⟩
  · rcases hc with rfl | hc
    · cases hall
    · cases hc
  · have h := h₀.evolve hinv hev
    have hd : s.dirs e = some d := by
      rw [Kern.dirs, henv]
      rfl
    obtain rfl : [2] = l := (List.cons.inj hl).2
    refine ⟨s, [2], el', e, d, h, hd, hinv.not_regionMapped h.bounded hd (by decide) ?_⟩
    rw [show regionRounds 0x800000 1 = 0 + 1 by decide, Kern.Loses]
    have hone : newTables s.mem d (pgnum 0x800000) (0 + 1) = {2} := by
      ext i
      rw [mem_newTables, Finset.mem_singleton, show pgnum 0x800000 = 2048 by decide]
      constructor
      · rintro ⟨⟨w, hlo, hhi, rfl⟩, -⟩
        omega
      · rintro rfl
        refine ⟨⟨2048, le_rfl, by omega, rfl⟩, ?_⟩
        rw [tableOf, hsu.empty 2 (by decide)]
        exact entryFrame_zero
    rw [hone, newTables_zero, Kern.onlyIn_zero]
    exact ⟨rfl, rfl⟩

end Jos
