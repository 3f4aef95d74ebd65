import Jos.Kern.SelfTest
import Jos.Kern.BootSpec

/-!
# `check_page_free_list` (`kern/pmap.c`)

The function puts the pages with lower addresses first.  It relinks the list while it walks it: at
every time the links seen so far are two open lists, each of which ends where `tp` points.
-/

namespace Jos

open Jos.Lib

variable {m m' m'' : Mem} {head : Option ℕ} {l : List ℕ} {n : ℕ}

/-! ## Walking the list -/

/-- A loop over the list visits its pages, and stops. -/
theorem Mem.listFrom_of_chain (h : Chain m.link head l) (hn : l.length ≤ n) :
    m.listFrom n head = some l := by
  induction h generalizing n with
  | nil => cases n <;> rfl
  | @cons p l _ ih =>
      cases n with
      | zero => simp at hn
      | succ n =>
          rw [Mem.listFrom, ih (by simpa using hn)]
          rfl

/-! ## Putting the pages with lower addresses first -/

namespace Sorting

variable {s : Sorting} {t t' : Bool} {xs xs' ys : List ℕ} {p : ℕ}

/-- The pages `xs` are linked from `pp1` or `pp2` on, and `tp` points to the link of the last. -/
def Open (s : Sorting) (t : Bool) (xs : List ℕ) : Prop :=
  (xs = [] ∧ s.tp t = .pp t) ∨
    ∃ ys q, xs = ys ++ [q] ∧ s.tp t = .link q ∧ Stretch s.mem.link (s.pp t) ys (some q)

/-- A store ends the list. -/
theorem Open.store (h : s.Open t xs) (hnd : xs.Nodup) (n : Option ℕ) :
    Stretch (s.store t n).mem.link ((s.store t n).pp t) xs n := by
  rcases h with ⟨rfl, htp⟩ | ⟨ys, q, rfl, htp, hseg⟩
  · simp only [Sorting.store, htp, Function.update_self]
    exact .nil
  · simp only [Sorting.store, htp, Mem.link_setLink]
    have hq : q ∉ ys := fun hc ↦ (List.nodup_append.mp hnd).2.2 q hc q (by simp) rfl
    have hsnoc := (hseg.update_of_notMem hq n).snoc
    rwa [Function.update_self] at hsnoc

/-- It changes one link at most, of a page of the list, and no other variable. -/
theorem Open.store_other (h : s.Open t xs) (n : Option ℕ) :
    (∀ q, q ∉ xs → (s.store t n).mem.link q = s.mem.link q) ∧
      (∀ t', t' ≠ t → (s.store t n).pp t' = s.pp t') ∧ (s.store t n).tp = s.tp := by
  rcases h with ⟨rfl, htp⟩ | ⟨ys, q, rfl, htp, hseg⟩
  · rw [Sorting.store, htp]
    exact ⟨fun _ _ ↦ rfl, fun t' ht ↦ Function.update_of_ne ht _ _, rfl⟩
  · rw [Sorting.store, htp]
    refine ⟨fun r hr ↦ ?_, fun _ _ ↦ rfl, rfl⟩
    rw [Mem.link_setLink, Function.update_of_ne]
    rintro rfl
    exact hr (by simp)

theorem store_mem (s : Sorting) (t : Bool) (n : Option ℕ) :
    (s.store t n).mem.ref = s.mem.ref ∧ (s.store t n).mem.phys = s.mem.phys := by
  rw [store]
  split
  · exact ⟨rfl, rfl⟩
  · exact ⟨Mem.ref_setLink _ _ _, rfl⟩

/-- The other list does not notice. -/
theorem Open.frame (h' : s.Open t' xs') (h : s.Open t xs) (ht : t' ≠ t)
    (hdis : ∀ q ∈ xs', q ∉ xs) (n : Option ℕ) : (s.store t n).Open t' xs' := by
  obtain ⟨hlink, hpp, htp⟩ := h.store_other n
  rcases h' with ⟨rfl, htp'⟩ | ⟨ys, q, rfl, htp', hseg⟩
  · exact .inl ⟨rfl, by rw [htp, htp']⟩
  · refine .inr ⟨ys, q, rfl, by rw [htp, htp'], ?_⟩
    rw [hpp t' ht]
    exact hseg.congr fun r hr ↦ hlink r (hdis r (by simp [hr]))

/-- After a round the page is the last one of its list. -/
theorem Open.round (h : s.Open (pagetype p) xs) (hnd : xs.Nodup) :
    (s.round p).Open (pagetype p) (xs ++ [p]) :=
  .inr ⟨xs, p, rfl, Function.update_self _ _ _, h.store hnd (some p)⟩

theorem Open.round_other (h' : s.Open t' xs') (h : s.Open (pagetype p) xs) (ht : t' ≠ pagetype p)
    (hdis : ∀ q ∈ xs', q ∉ xs) : (s.round p).Open t' xs' := by
  have htp : (s.round p).tp t' = (s.store (pagetype p) (some p)).tp t' :=
    Function.update_of_ne ht _ _
  rcases h'.frame h ht hdis (some p) with ⟨hxs, htp'⟩ | ⟨ys, q, hxs, htp', hseg⟩
  · exact .inl ⟨hxs, htp.trans htp'⟩
  · exact .inr ⟨ys, q, hxs, htp.trans htp', hseg⟩

/-- The two lists after a round. -/
def seen (xs : Bool → List ℕ) (p : ℕ) : Bool → List ℕ :=
  Function.update xs (pagetype p) (xs (pagetype p) ++ [p])

section

variable {xs : Bool → List ℕ} {q : ℕ}

theorem seen_self (xs : Bool → List ℕ) (p : ℕ) :
    seen xs p (pagetype p) = xs (pagetype p) ++ [p] := Function.update_self _ _ _

theorem seen_of_ne (xs : Bool → List ℕ) (h : t ≠ pagetype p) : seen xs p t = xs t :=
  Function.update_of_ne h _ _

theorem mem_seen (hq : q ∈ seen xs p t) : q ∈ xs t ∨ q = p ∧ t = pagetype p := by
  by_cases ht : t = pagetype p
  · subst ht
    rw [seen_self, List.mem_append, List.mem_singleton] at hq
    exact hq.imp_right fun h ↦ ⟨h, rfl⟩
  · rw [seen_of_ne xs ht] at hq
    exact .inl hq

/-- The pages of the two lists are different, and so are those ahead. -/
structure Apart (xs : Bool → List ℕ) (ys : List ℕ) : Prop where
  nodup : ∀ t, (xs t).Nodup
  lists : ∀ t t', t ≠ t' → ∀ q ∈ xs t, q ∉ xs t'
  ahead : ∀ t, ∀ q ∈ ys, q ∉ xs t

theorem Apart.seen (h : Apart xs (p :: ys)) (hp : p ∉ ys) : Apart (Sorting.seen xs p) ys where
  nodup t := by
    by_cases ht : t = pagetype p
    · subst ht
      rw [seen_self]
      refine List.nodup_append.mpr ⟨h.nodup _, List.nodup_singleton p, fun a ha b hb heq ↦ ?_⟩
      rw [List.mem_singleton.mp hb] at heq
      exact h.ahead _ p List.mem_cons_self (heq ▸ ha)
    · rw [seen_of_ne xs ht]
      exact h.nodup t
  lists t t' ht q hq hq' := by
    rcases mem_seen hq with h1 | ⟨rfl, rfl⟩
    · rcases mem_seen hq' with h2 | ⟨rfl, -⟩
      · exact h.lists t t' ht q h1 h2
      · exact h.ahead t q List.mem_cons_self h1
    · rcases mem_seen hq' with h2 | ⟨-, rfl⟩
      · exact h.ahead t' q List.mem_cons_self h2
      · exact ht rfl
  ahead t q hq hc := by
    rcases mem_seen hc with hc | ⟨rfl, -⟩
    · exact h.ahead t q (List.mem_cons_of_mem p hq) hc
    · exact hp hq

/-- The loop, with `xs t` the pages seen of either kind, and `ys` those ahead. -/
theorem loop_spec (hopen : ∀ t, s.Open t (xs t)) (hahead : Chain s.mem.link head ys)
    (hapart : Apart xs ys) (hn : ys.length ≤ n) :
    ∃ s', loop n head s = some s' ∧ (∀ t, s'.Open t (xs t ++ ys.filter (pagetype · == t))) ∧
      (∀ q, (∀ t, q ∉ xs t) → q ∉ ys → s'.mem.link q = s.mem.link q) ∧
      s'.mem.ref = s.mem.ref ∧ s'.mem.phys = s.mem.phys := by
  induction ys generalizing n head s xs with
  | nil =>
      obtain rfl : head = none := hahead.head_eq
      refine ⟨s, by cases n <;> rfl, fun t ↦ ?_, fun _ _ _ ↦ rfl, rfl, rfl⟩
      rw [List.filter_nil, List.append_nil]
      exact hopen t
  | cons p ys ih =>
      obtain rfl : head = some p := hahead.head_eq
      obtain ⟨n, rfl⟩ : ∃ k, n = k + 1 := ⟨n - 1, by rw [List.length_cons] at hn; omega⟩
      have hp : p ∉ ys := (List.nodup_cons.mp hahead.nodup).1
      obtain ⟨ys', heq, hahead'⟩ := hahead.pop
      obtain rfl := (List.cons.inj heq).2
      have hlink := ((hopen (pagetype p)).store_other (some p)).1
      have hlinkp : (s.round p).mem.link p = s.mem.link p :=
        hlink p (hapart.ahead _ p List.mem_cons_self)
      obtain ⟨href, hphys⟩ := s.store_mem (pagetype p) (some p)
      have hopen₁ : ∀ t, (s.round p).Open t (seen xs p t) := by
        intro t
        by_cases ht : t = pagetype p
        · subst ht
          rw [seen_self]
          exact (hopen _).round (hapart.nodup _)
        · rw [seen_of_ne xs ht]
          exact (hopen t).round_other (hopen _) ht (hapart.lists t _ ht)
      have hahead₁ : Chain (s.round p).mem.link ((s.round p).mem.link p) ys := by
        rw [hlinkp]
        exact hahead'.congr fun q hq ↦ hlink q (hapart.ahead _ q (List.mem_cons_of_mem p hq))
      obtain ⟨s', hrun, hopen', hsame, href', hphys'⟩ :=
        ih hopen₁ hahead₁ (hapart.seen hp) (Nat.le_of_succ_le_succ hn)
      refine ⟨s', hrun, fun t ↦ ?_, fun q hq hqy ↦ ?_, href'.trans href, hphys'.trans hphys⟩
      · have h := hopen' t
        by_cases ht : t = pagetype p
        · subst ht
          rw [seen_self, List.append_assoc] at h
          rwa [List.filter_cons_of_pos (by simp)]
        · rw [seen_of_ne xs ht] at h
          rwa [List.filter_cons_of_neg (by simpa using Ne.symm ht)]
      · obtain ⟨hqp, hqy⟩ := List.ne_and_not_mem_of_not_mem_cons hqy
        refine (hsame q (fun t hc ↦ ?_) hqy).trans (hlink q (hq _))
        rcases mem_seen hc with hc | ⟨rfl, -⟩
        · exact hq t hc
        · exact hqp rfl

end

end Sorting

/-- The list is sorted by `pagetype`, and otherwise as before. -/
theorem sortFreeList_spec {npages : ℕ} (h : Chain m.link m.pageFreeList l)
    (hn : l.length ≤ npages) (pp : Bool → Option ℕ) :
    ∃ m', sortFreeList npages pp m = some m' ∧
      Chain m'.link m'.pageFreeList (l.filter (pagetype · == false) ++
        l.filter (pagetype · == true)) ∧
      m'.ref = m.ref ∧ m'.phys = m.phys ∧ ∀ q, q ∉ l → m'.link q = m.link q := by
  have hopen₀ : ∀ t, Sorting.Open ⟨m, pp, .pp⟩ t [] := fun t ↦ .inl ⟨rfl, rfl⟩
  obtain ⟨s, hrun, hopen, hsame, href, hphys⟩ := Sorting.loop_spec hopen₀ h
    ⟨fun _ ↦ List.nodup_nil, by simp, by simp⟩ hn
  have hlo := hopen false
  have hhi := hopen true
  rw [List.nil_append] at hlo hhi
  have hdis : ∀ q ∈ l.filter (pagetype · == false), q ∉ l.filter (pagetype · == true) := by
    intro q hq hc
    have h1 := (List.mem_filter.mp hq).2
    have h2 := (List.mem_filter.mp hc).2
    simp only [beq_iff_eq] at h1 h2
    rw [h1] at h2
    cases h2
  -- the end of the second list, then the end of the first
  have hend := hhi.store (h.nodup.filter _) none
  have hlo' := hlo.frame hhi Bool.false_ne_true hdis none
  have hjoin := hlo'.store (h.nodup.filter _) ((s.store true none).pp true)
  have hfar := (hlo'.store_other ((s.store true none).pp true)).1
  have hend' := hend.congr fun q hq ↦ hfar q fun hc ↦ hdis q hc hq
  have hchain := hjoin.chain (hend'.chain .nil)
  rw [List.append_nil] at hchain
  obtain ⟨href₁, hphys₁⟩ := s.store_mem true none
  obtain ⟨href₂, hphys₂⟩ :=
    (s.store true none).store_mem false ((s.store true none).pp true)
  refine ⟨((s.store true none).store false ((s.store true none).pp true)).mem.setFreeList
    (((s.store true none).store false ((s.store true none).pp true)).pp false), ?_, hchain,
    (href₂.trans href₁).trans href, (hphys₂.trans hphys₁).trans hphys, fun q hq ↦ ?_⟩
  · rw [sortFreeList, hrun]
    rfl
  have hq' : ∀ t, q ∉ l.filter (pagetype · == t) := fun t hc ↦ hq (List.mem_filter.mp hc).1
  exact ((hfar q (hq' false)).trans ((hhi.store_other none).1 q (hq' true))).trans
    (hsame q (by simp) hq)

/-- `l'` has the elements of `l`: first those with `q`, then the others, each kind in its order. -/
structure StablePartition {α : Type} (q : α → Prop) [DecidablePred q] (l l' : List α) : Prop where
  perm : l'.Perm l
  first : l'.Pairwise fun a b ↦ q b → q a
  order : l'.filter (q ·) = l.filter (q ·)
  order_rest : l'.filter (¬ q ·) = l.filter (¬ q ·)

theorem stablePartition_append {α : Type} (q : α → Prop) [DecidablePred q] (l : List α) :
    StablePartition q l (l.filter (q ·) ++ l.filter (¬ q ·)) where
  perm := by
    simpa using List.filter_append_perm (fun a ↦ decide (q a)) l
  first := by
    have hq : ∀ a ∈ l.filter (q ·), q a := fun a ha ↦ by simpa using List.of_mem_filter ha
    have hn : ∀ a ∈ l.filter (¬ q ·), ¬ q a := fun a ha ↦ by simpa using List.of_mem_filter ha
    refine List.pairwise_append.mpr ⟨?_, ?_, fun a ha b _ _ ↦ hq a ha⟩
    · exact List.pairwise_of_forall_mem_list fun a ha _ _ _ ↦ hq a ha
    · exact List.pairwise_of_forall_mem_list fun _ _ b hb hc ↦ absurd hc (hn b hb)
  order := by simp [List.filter_filter]
  order_rest := by simp [List.filter_filter]

/-- The list that `check_page_free_list(1)` leaves has the same pages, those of the first 4 MB
before the others, and is otherwise in its old order. -/
theorem sort_free_list_stable (h : Chain m.link m.pageFreeList l) (hn : l.length ≤ n)
    (pp : Bool → Option ℕ) : ∃ m' l', sortFreeList n pp m = some m' ∧
      Chain m'.link m'.pageFreeList l' ∧ StablePartition (fun p ↦ pdx (page2pa p) < 1) l l' ∧
      ∀ q, q ∉ l → m'.link q = m.link q := by
  obtain ⟨m', hrun, hchain, -, -, hlink⟩ := sortFreeList_spec h hn pp
  have hlow : (pagetype · == false) = fun p ↦ decide (pdx (page2pa p) < 1) := by
    funext p
    rw [pagetype, beq_false, ← decide_not]
    exact decide_eq_decide.mpr Nat.not_le
  have hhigh : (pagetype · == true) = fun p ↦ decide (¬ pdx (page2pa p) < 1) := by
    funext p
    rw [pagetype, beq_true]
    exact decide_eq_decide.mpr Nat.not_lt.symm
  rw [hlow, hhigh] at hchain
  exact ⟨m', _, hrun, hchain, stablePartition_append _ l, hlink⟩

/-- A free list of a page beyond the first 4 MB and one within them. -/
def twoFree : Mem where
  pages p := ⟨if p = 1030 then some 5 else none, 0⟩
  pageFreeList := some 1030
  phys _ _ := 0
  tlbLog := []

theorem sort_free_list_stable_demo : ∃ m' l', sortFreeList 2 (fun _ ↦ none) twoFree = some m' ∧
    Chain m'.link m'.pageFreeList l' ∧
    StablePartition (fun p ↦ pdx (page2pa p) < 1) [1030, 5] l' ∧
    ∀ q, q ∉ [1030, 5] → m'.link q = twoFree.link q :=
  sort_free_list_stable (m := twoFree) (l := [1030, 5]) (n := 2) (.cons (.cons .nil)) (by decide) _

/-! ## The whole function -/

theorem assertThat_eq_some {σ : Type} {p : Prop} [Decidable p] {s s' : σ} :
    assertThat p s = some s' ↔ p ∧ s = s' := by
  rw [assertThat]
  split
  · next hp => simp [hp]
  · next hp => simp [hp]

theorem assertThat_of {σ : Type} {p : Prop} [Decidable p] (h : p) (s : σ) :
    assertThat p s = some s := if_pos h

theorem SelfTested.trans (h : SelfTested m m') (h' : SelfTested m' m'') : SelfTested m m'' := by
  obtain ⟨l, l₁, hl, hl₁, hperm, hoff⟩ := h.list
  obtain ⟨l₁', l₂, hl₁', hl₂, hperm', hoff'⟩ := h'.list
  obtain rfl := hl₁.unique hl₁'
  refine ⟨h'.ref.trans h.ref, l, l₂, hl, hl₂, hperm'.trans hperm, fun p hp ↦ ?_⟩
  have hp' : p ∉ l₁ := fun hc ↦ hp (hperm.mem_iff.mp hc)
  exact ⟨(hoff' p hp').1.trans (hoff p hp).1, (hoff' p hp').2.trans (hoff p hp).2⟩

/-- The pages of a list are filled. -/
theorem fill_spec {B : Machine} {M : Pool B} (pdxLimit : ℕ) {pps : List ℕ}
    (hpps : ∀ p ∈ pps, p ∈ M.carrier) (m : Mem) :
    ∃ m', pps.foldlM (fun m pp ↦
      if pdx (page2pa pp) < pdxLimit then
        (kaddr B (page2pa pp)).map fun f ↦ m.memset f 0x97 128
      else some m) m = some m' ∧ m'.ref = m.ref ∧ m'.link = m.link ∧
        m'.pageFreeList = m.pageFreeList ∧ ∀ p, p ∉ pps → m'.phys p = m.phys p := by
  refine foldlM_some (P := fun m' : Mem ↦ m'.ref = m.ref ∧ m'.link = m.link ∧
    m'.pageFreeList = m.pageFreeList ∧ ∀ p, p ∉ pps → m'.phys p = m.phys p) ?_
    ⟨rfl, rfl, rfl, fun _ _ ↦ rfl⟩
  rintro p hp m₁ ⟨href, hlink, hlist, hphys⟩
  split
  · refine ⟨m₁.memset p 0x97 128, by rw [kaddr_page2pa (hpps p hp), Option.map_some], href, hlink,
      hlist, fun q hq ↦ ?_⟩
    have hne : q ≠ p := fun hc ↦ hq (hc ▸ hp)
    exact (Function.update_of_ne hne _ _).trans (hphys q hq)
  · exact ⟨m₁, rfl, href, hlink, hlist, hphys⟩

namespace BootConfig

variable {cfg : BootConfig} {p : ℕ} {low : Bool} {pp : Bool → Option ℕ}

/-- `page_init` frees no page that should not be free. -/
theorem pageOk (hp : p ∈ cfg.pool.carrier) : cfg.PageOk p := by
  have hlt : p < cfg.npages := cfg.pool.lt p hp
  have hn := cfg.npages_le
  have hb := cfg.npagesBasemem_le
  obtain ⟨h1, h2, -, -⟩ := cfg.layout_bounds
  have hpa : (page2pa p).toNat = p * 4096 := page2pa_toNat (by omega)
  have hne : ∀ w : Word, w.toNat ≠ p * 4096 → page2pa p ≠ w := fun w hw hc ↦ hw (hc ▸ hpa)
  have hcases : 1 ≤ p ∧ p < 160 ∧ p ≠ 7 ∨ 256 + cfg.kernel ≤ p := by
    rcases hp with ⟨hp1, hp2, hp3⟩ | ⟨hp, -⟩
    · exact .inl ⟨hp1, by omega, hp3⟩
    · exact .inr hp
  refine ⟨hlt, hne _ ?_, hne _ ?_, hne _ ?_, hne _ ?_, ?_, hne _ ?_⟩
  · rw [show (0 : Word).toNat = 0 from rfl]
    omega
  · rw [show IOPHYSMEM.toNat = 160 * 4096 from rfl]
    omega
  · rw [show (EXTPHYSMEM - 0x1000).toNat = 255 * 4096 from rfl]
    omega
  · rw [show EXTPHYSMEM.toNat = 256 * 4096 from rfl]
    omega
  · rcases hcases with ⟨-, hp, -⟩ | hp
    · left
      rw [BitVec.lt_def, hpa, show EXTPHYSMEM.toNat = 256 * 4096 from rfl]
      omega
    · right
      have hext := cfg.extmem
      have hKB : KERNBASE.toNat = 4026531840 := rfl
      rw [kernel, PGSIZE] at hp
      rw [PGSIZE] at hext
      rw [BitVec.le_def, BitVec.toNat_add, hpa, hKB]
      rw [BitVec.toNat_sub, hKB] at hp hext
      have := cfg.layout.nextfree.isLt
      omega
  · rw [show MPENTRY_PADDR.toNat = 7 * 4096 from rfl]
    omega

/-- Up to its assertions the function only moves and fills free pages. -/
theorem checkPageFreeList_eq (h : KernBoot cfg.machine cfg.pool m l) (hne : l ≠ []) (low : Bool)
    (pp : Bool → Option ℕ) :
    ∃ (m' : Mem) (l' : List ℕ), SelfTested m m' ∧ l'.Perm l ∧
      cfg.checkPageFreeList low pp m = (do
        let m ← assertThat (∀ pp ∈ l', cfg.PageOk pp) m'
        let m ← assertThat (0 < l'.countP fun pp ↦ page2pa pp < EXTPHYSMEM) m
        assertThat (0 < l'.countP fun pp ↦ ¬ page2pa pp < EXTPHYSMEM) m) := by
  have hchain := h.own.ledger.chain
  have hsub : ∀ p ∈ l, p ∈ cfg.pool.carrier := fun p hp ↦ h.own.list_sub hp
  have hlen : l.length ≤ cfg.npages := by
    have hrange : l ⊆ List.range cfg.npages := fun p hp ↦
      List.mem_range.mpr (cfg.pool.lt p (hsub p hp))
    have hle := (List.subperm_of_subset hchain.nodup hrange).length_le
    rwa [List.length_range] at hle
  have hhead : m.pageFreeList ≠ none := by
    rw [hchain.head_eq]
    exact fun hc ↦ hne (List.head?_eq_none_iff.mp hc)
  obtain ⟨m₁, l₁, hsort, hl₁, hperm, href₁, hphys₁, hlink₁⟩ : ∃ m₁ l₁,
      (if low = true then sortFreeList cfg.npages pp m else some m) = some m₁ ∧
      Chain m₁.link m₁.pageFreeList l₁ ∧ l₁.Perm l ∧ m₁.ref = m.ref ∧ m₁.phys = m.phys ∧
      ∀ q, q ∉ l → m₁.link q = m.link q := by
    cases low with
    | false => exact ⟨m, l, rfl, hchain, .refl l, rfl, rfl, fun _ _ ↦ rfl⟩
    | true =>
        obtain ⟨m₁, hrun, hl₁, href, hphys, hlink⟩ := sortFreeList_spec hchain hlen pp
        refine ⟨m₁, _, hrun, hl₁, ?_, href, hphys, hlink⟩
        have hnot : l.filter (pagetype · == true) = l.filter fun p ↦ !(pagetype p == false) :=
          List.filter_congr fun p _ ↦ by cases pagetype p <;> rfl
        rw [hnot]
        exact List.filter_append_perm _ l
  obtain ⟨m₂, hfill, href₂, hlink₂, hlist₂, hphys₂⟩ := fill_spec (M := cfg.pool)
    (if low = true then 1 else NPDENTRIES) (fun p (hp : p ∈ l₁) ↦ hsub p (hperm.mem_iff.mp hp)) m₁
  refine ⟨m₂, l₁, ⟨href₂.trans href₁, l, l₁, hchain, by rwa [hlink₂, hlist₂], hperm,
    fun p hp ↦ ⟨?_, ?_⟩⟩, hperm, ?_⟩
  · rw [hlink₂]
    exact hlink₁ p hp
  · rw [hphys₂ p fun hc ↦ hp (hperm.mem_iff.mp hc), hphys₁]
  · have hwalk := Mem.listFrom_of_chain hl₁ (hperm.length_eq ▸ hlen)
    simp only [checkPageFreeList, assertThat_of hhead, hsort, hwalk, hfill, Option.bind_eq_bind,
      Option.bind_some]

/-- `check_page_free_list` leaves what a self-test may leave. -/
theorem checkPageFreeList_keeps (h : KernBoot cfg.machine cfg.pool m l)
    (hrun : cfg.checkPageFreeList low pp m = some m') : SelfTested m m' := by
  have hne : l ≠ [] := by
    rintro rfl
    have hnone : m.pageFreeList = none := h.own.ledger.chain.head_eq
    simp [checkPageFreeList, hnone, assertThat] at hrun
  obtain ⟨m₁, l', ht, -, heq⟩ := checkPageFreeList_eq h hne low pp
  simp only [heq, Option.bind_eq_bind, Option.bind_eq_some_iff, assertThat_eq_some] at hrun
  obtain ⟨_, ⟨-, rfl⟩, _, ⟨-, rfl⟩, -, rfl⟩ := hrun
  exact ht

/-- It succeeds if there are free pages below and above the hole. -/
theorem checkPageFreeList_some (h : KernBoot cfg.machine cfg.pool m l)
    (hbase : ∃ p ∈ l, page2pa p < EXTPHYSMEM) (hext : ∃ p ∈ l, ¬ page2pa p < EXTPHYSMEM)
    (low : Bool) (pp : Bool → Option ℕ) :
    ∃ m', cfg.checkPageFreeList low pp m = some m' ∧ SelfTested m m' := by
  obtain ⟨p, hp, hlo⟩ := hbase
  obtain ⟨q, hq, hhi⟩ := hext
  obtain ⟨m₁, l', ht, hperm, heq⟩ := checkPageFreeList_eq h (List.ne_nil_of_mem hp) low pp
  refine ⟨m₁, ?_, ht⟩
  have hok : ∀ p ∈ l', cfg.PageOk p := fun p hp ↦ pageOk (h.own.list_sub (hperm.mem_iff.mp hp))
  have hlow : 0 < l'.countP fun p ↦ page2pa p < EXTPHYSMEM :=
    List.countP_pos_iff.mpr ⟨p, hperm.mem_iff.mpr hp, decide_eq_true hlo⟩
  have hhigh : 0 < l'.countP fun p ↦ ¬ page2pa p < EXTPHYSMEM :=
    List.countP_pos_iff.mpr ⟨q, hperm.mem_iff.mpr hq, decide_eq_true hhi⟩
  simp only [heq, assertThat_of hok, assertThat_of hlow, assertThat_of hhigh, Option.bind_eq_bind,
    Option.bind_some]

end BootConfig

end Jos
