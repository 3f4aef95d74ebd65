import Jos.Inc.Mmu
import Mathlib.Data.Int.Init
import Mathlib.Tactic.Linarith

/-!
# Looking up a debugging entry (`kern/kdebug.c`)

`stab_binsearch` looks for the last entry of one type whose value is at most `addr`, among entries
of all types.  Each probe scans back to an entry of the type.  On an exact match the search goes on
for `addr + 1`, to find where the next entry begins.  If the next entry has just that value, and it
has not been probed before, it is a match too, and the search leaves the right entry behind.

An index is an `int`; the table fits into memory, so sums of two indices do not overflow.
-/

namespace Jos

/-- `struct Stab`: the fields that the search looks at. -/
structure Stab where
  nType : BitVec 8
  nValue : Word

/-- The entry `i` has the type `type`. -/
def Typed (stabs : ℤ → Stab) (type : Word) (i : ℤ) : Prop := (stabs i).nType.setWidth 32 = type

instance (stabs : ℤ → Stab) (type : Word) : DecidablePred (Typed stabs type) := fun _ ↦
  inferInstanceAs (Decidable (_ = _))

/-- `while (m >= l && stabs[m].n_type != type) m--;` -/
def scanBack (stabs : ℤ → Stab) (type : Word) (l m : ℤ) : ℤ :=
  if l ≤ m ∧ ¬ Typed stabs type m then scanBack stabs type l (m - 1) else m
termination_by (m - l + 1).toNat

/-- The variables of `stab_binsearch`. -/
structure Search where
  l : ℤ
  r : ℤ
  anyMatches : Bool
  regionLeft : ℤ
  regionRight : ℤ
  addr : Word

/-- `(l + r) / 2`, as C rounds. -/
def middle (l r : ℤ) : ℤ := (l + r).tdiv 2

/-- A round of the loop of `stab_binsearch`. -/
def Search.probe (stabs : ℤ → Stab) (type : Word) (s : Search) : Search :=
  let trueM := middle s.l s.r
  let m := scanBack stabs type s.l trueM
  if m < s.l then { s with l := trueM + 1 }
  else if (stabs m).nValue < s.addr then
    { s with anyMatches := true, regionLeft := m, l := trueM + 1 }
  else if s.addr < (stabs m).nValue then
    { s with anyMatches := true, regionRight := m - 1, r := m - 1 }
  else { s with anyMatches := true, regionLeft := m, l := m, addr := s.addr + 1 }

/-! ## The scan -/

section

variable {stabs : ℤ → Stab} {type : Word} {l m r i : ℤ}

theorem scanBack_le (stabs : ℤ → Stab) (type : Word) (l m : ℤ) : scanBack stabs type l m ≤ m := by
  fun_induction scanBack stabs type l m with
  | case1 m h ih => omega
  | case2 m h => exact le_rfl

/-- The scan goes past entries of other types only. -/
theorem not_typed_of_scanBack_lt (h : scanBack stabs type l m < i) (hi : i ≤ m) :
    ¬ Typed stabs type i := by
  fun_induction scanBack stabs type l m with
  | case1 m hm ih =>
      rcases Int.lt_or_eq_of_le hi with hlt | rfl
      · exact ih h (by omega)
      · exact hm.2
  | case2 m hm => omega

/-- It ends at an entry of the type, or below `l`. -/
theorem typed_scanBack (h : l ≤ scanBack stabs type l m) :
    Typed stabs type (scanBack stabs type l m) := by
  fun_induction scanBack stabs type l m with
  | case1 m hm ih => exact ih h
  | case2 m hm => exact not_not.mp fun hc ↦ hm ⟨h, hc⟩

theorem le_scanBack (stabs : ℤ → Stab) (type : Word) (h : l ≤ m + 1) :
    l ≤ scanBack stabs type l m + 1 := by
  fun_induction scanBack stabs type l m with
  | case1 m hm ih => exact ih (by omega)
  | case2 m hm => exact h

theorem scanBack_of_lt (h : m < l) : scanBack stabs type l m = m := by
  rw [scanBack, if_neg fun hc ↦ absurd hc.1 (not_le.mpr h)]

theorem middle_mem (h : l ≤ r) : l ≤ middle l r ∧ middle l r ≤ r := by
  rw [middle, Int.tdiv_eq_ediv, show (2 : ℤ).sign = 1 from rfl]
  split <;> omega

end

/-! ## The loop -/

/-- What a probe of `s` finds and how it goes on. -/
inductive Probed (stabs : ℤ → Stab) (type : Word) (s : Search) : Search → Prop
  | none (free : ∀ i, s.l ≤ i → i ≤ middle s.l s.r → ¬ Typed stabs type i) :
      Probed stabs type s { s with l := middle s.l s.r + 1 }
  | below {m : ℤ} (ge : s.l ≤ m) (le : m ≤ middle s.l s.r) (typed : Typed stabs type m)
      (free : ∀ i, m < i → i ≤ middle s.l s.r → ¬ Typed stabs type i)
      (lt : (stabs m).nValue < s.addr) : Probed stabs type s
        { s with anyMatches := true, regionLeft := m, l := middle s.l s.r + 1 }
  | above {m : ℤ} (ge : s.l ≤ m) (le : m ≤ middle s.l s.r) (typed : Typed stabs type m)
      (free : ∀ i, m < i → i ≤ middle s.l s.r → ¬ Typed stabs type i)
      (gt : s.addr < (stabs m).nValue) : Probed stabs type s
        { s with anyMatches := true, regionRight := m - 1, r := m - 1 }
  | found {m : ℤ} (ge : s.l ≤ m) (le : m ≤ middle s.l s.r) (typed : Typed stabs type m)
      (free : ∀ i, m < i → i ≤ middle s.l s.r → ¬ Typed stabs type i)
      (eq : (stabs m).nValue = s.addr) : Probed stabs type s
        { s with anyMatches := true, regionLeft := m, l := m, addr := s.addr + 1 }

namespace Search

variable {stabs : ℤ → Stab} {type : Word} {s s' : Search}

theorem probed (s : Search) : Probed stabs type s (s.probe stabs type) := by
  have hle := scanBack_le stabs type s.l (middle s.l s.r)
  have hfree : ∀ i, scanBack stabs type s.l (middle s.l s.r) < i → i ≤ middle s.l s.r →
      ¬ Typed stabs type i := fun i ↦ not_typed_of_scanBack_lt
  simp only [probe]
  split
  · next h => exact .none fun i hi ↦ hfree i (by omega)
  next h =>
  have hge := not_lt.mp h
  have htyped := typed_scanBack hge
  split
  · next h => exact .below hge hle htyped hfree h
  next hlt =>
  split
  · next h => exact .above hge hle htyped hfree h
  · next hgt =>
    exact .found hge hle htyped hfree
      (BitVec.le_antisymm (BitVec.not_lt.mp hgt) (BitVec.not_lt.mp hlt))

/-- A bound for the rounds that are left.  An entry at `l` is found in one round at most, as the
search goes on for a greater address then. -/
def rounds (stabs : ℤ → Stab) (s : Search) : ℕ :=
  2 * (s.r - s.l + 1).toNat + if (stabs s.l).nValue = s.addr then 1 else 0

theorem rounds_lt (h : Probed stabs type s s') (hlr : s.l ≤ s.r) :
    s'.rounds stabs < s.rounds stabs := by
  obtain ⟨h1, h2⟩ := middle_mem hlr
  have hflag : ∀ {a b : Word}, (if a = b then 1 else 0) < 2 := by
    intro a b
    split <;> decide
  cases h with
  | none | below | above =>
      simp only [rounds]
      have := hflag (a := (stabs s.l).nValue) (b := s.addr)
      have := hflag (a := (stabs (middle s.l s.r + 1)).nValue) (b := s.addr)
      omega
  | @found m ge le typed free eq =>
      simp only [rounds, eq]
      rw [if_neg (by bv_omega)]
      rcases Int.lt_or_eq_of_le ge with hlt | rfl
      · omega
      · rw [if_pos eq]
        omega

/-- The loop of `stab_binsearch`. -/
def loop (stabs : ℤ → Stab) (type : Word) (s : Search) : Search :=
  if s.l ≤ s.r then loop stabs type (s.probe stabs type) else s
termination_by s.rounds stabs
decreasing_by exact rounds_lt s.probed ‹_›

/-- What every probe keeps holds at the end of the loop. -/
theorem loop_inv {P : Search → Prop}
    (step : ∀ s s', P s → s.l ≤ s.r → Probed stabs type s s' → P s') (h : P s) :
    P (s.loop stabs type) ∧ (s.loop stabs type).r < (s.loop stabs type).l := by
  fun_induction loop stabs type s with
  | case1 s hlr ih => exact ih (step _ _ h hlr s.probed)
  | case2 s hlr => exact ⟨h, not_le.mp hlr⟩

end Search

/-- `stab_binsearch`: what it leaves in `*region_left` and `*region_right`. -/
def stabBinsearch (stabs : ℤ → Stab) (regionLeft regionRight : ℤ) (type addr : Word) : ℤ × ℤ :=
  let s := Search.loop stabs type ⟨regionLeft, regionRight, false, regionLeft, regionRight, addr⟩
  if s.anyMatches then (scanBack stabs type (s.regionLeft + 1) s.regionRight, s.regionRight)
  else (s.regionLeft, s.regionLeft - 1)

/-- The entries of the type have increasing values. -/
def Increasing (stabs : ℤ → Stab) (type : Word) (L R : ℤ) : Prop :=
  ∀ i j, L ≤ i → i < j → j ≤ R → Typed stabs type i → Typed stabs type j →
    (stabs i).nValue < (stabs j).nValue

/-! ## Misses -/

section

variable {stabs : ℤ → Stab} {type addr : Word} {L R i j : ℤ} {s s' : Search}

/-- `any_matches` tells whether there is an entry of the type at all. -/
structure AnyMatches (stabs : ℤ → Stab) (type : Word) (L R : ℤ) (s : Search) : Prop where
  le_l : L ≤ s.l
  r_le : s.r ≤ R
  some : s.anyMatches = true → ∃ i, L ≤ i ∧ i ≤ R ∧ Typed stabs type i
  none : s.anyMatches = false →
    s.regionLeft = L ∧ s.r = R ∧ ∀ i, L ≤ i → i < s.l → ¬ Typed stabs type i

theorem AnyMatches.probed (h : AnyMatches stabs type L R s) (hlr : s.l ≤ s.r)
    (hp : Probed stabs type s s') : AnyMatches stabs type L R s' := by
  obtain ⟨h1, h2⟩ := middle_mem hlr
  have hl := h.le_l
  have hr := h.r_le
  cases hp with
  | none free =>
      refine ⟨by simp only; omega, hr, h.some, fun hany ↦ ?_⟩
      obtain ⟨hleft, hright, hlow⟩ := h.none hany
      refine ⟨hleft, hright, fun i hi hlt ↦ ?_⟩
      by_cases hil : i < s.l
      · exact hlow i hi hil
      · exact free i (not_lt.mp hil) (Int.lt_add_one_iff.mp hlt)
  | @below m ge le typed free lt =>
      exact ⟨by simp only; omega, hr, fun _ ↦ ⟨m, by omega, by omega, typed⟩, nofun⟩
  | @above m ge le typed free gt =>
      exact ⟨hl, by simp only; omega, fun _ ↦ ⟨m, by omega, by omega, typed⟩, nofun⟩
  | @found m ge le typed free eq =>
      exact ⟨by simp only; omega, hr, fun _ ↦ ⟨m, by omega, by omega, typed⟩, nofun⟩

theorem anyMatches_init : AnyMatches stabs type L R ⟨L, R, false, L, R, addr⟩ :=
  ⟨le_rfl, le_rfl, nofun, fun _ ↦ ⟨rfl, rfl, fun _ hi hlt ↦ absurd hlt (not_lt.mpr hi)⟩⟩

theorem anyMatches_loop (stabs : ℤ → Stab) (type addr : Word) (L R : ℤ) : AnyMatches stabs type L R
      (Search.loop stabs type ⟨L, R, false, L, R, addr⟩) ∧
    (Search.loop stabs type ⟨L, R, false, L, R, addr⟩).r <
      (Search.loop stabs type ⟨L, R, false, L, R, addr⟩).l :=
  Search.loop_inv (fun _ _ h ↦ h.probed) anyMatches_init

/-- If there is an entry of the type, the scan at the end starts from `*region_right`. -/
theorem stabBinsearch_le (hi : L ≤ i) (hiR : i ≤ R) (htyped : Typed stabs type i) :
    (stabBinsearch stabs L R type addr).1 ≤ (stabBinsearch stabs L R type addr).2 := by
  obtain ⟨hend, hlt⟩ := anyMatches_loop stabs type addr L R
  simp only [stabBinsearch]
  cases hany : (Search.loop stabs type ⟨L, R, false, L, R, addr⟩).anyMatches with
  | true =>
      rw [if_pos rfl]
      exact scanBack_le _ _ _ _
  | false =>
      obtain ⟨-, hright, hlow⟩ := hend.none hany
      exact absurd htyped (hlow i hi (by omega))

/-- A miss is reported if and only if there is no entry of the type.  If there are some, but all are
above `addr`, `*region_left` ends at most at `*region_right`. -/
theorem stab_binsearch_miss_iff : (stabBinsearch stabs L R type addr).2 <
    (stabBinsearch stabs L R type addr).1 ↔ ∀ i, L ≤ i → i ≤ R → ¬ Typed stabs type i := by
  constructor
  · intro hlt i hi hiR htyped
    exact absurd hlt (not_lt.mpr (stabBinsearch_le hi hiR htyped))
  · intro hfree
    simp only [stabBinsearch]
    cases hany : (Search.loop stabs type ⟨L, R, false, L, R, addr⟩).anyMatches with
    | true =>
        obtain ⟨i, hi, hiR, htyped⟩ := (anyMatches_loop stabs type addr L R).1.some hany
        exact absurd htyped (hfree i hi hiR)
    | false =>
        rw [if_neg Bool.false_ne_true]
        exact Int.sub_one_lt_of_le le_rfl

/-- Two entries, the second of them of type `N_FUN`. -/
def lateStabs (i : ℤ) : Stab := if i = 1 then ⟨0x24, 5⟩ else ⟨0x64, 0⟩

theorem stab_binsearch_miss_unseen : ∃ stabs : ℤ → Stab, ∃ L R : ℤ, ∃ type addr : Word, L ≤ R ∧
    Increasing stabs type L R ∧
    (∀ i, L ≤ i → i ≤ R → Typed stabs type i → addr < (stabs i).nValue) ∧
    ¬ (stabBinsearch stabs L R type addr).2 < (stabBinsearch stabs L R type addr).1 := by
  have htyped : Typed lateStabs 0x24 1 := by decide
  have hone : ∀ i, Typed lateStabs 0x24 i → i = 1 := by
    intro i h
    by_contra hne
    rw [Typed, lateStabs, if_neg hne] at h
    exact absurd h (by decide)
  refine ⟨lateStabs, 0, 1, 0x24, 3, by decide, fun i j _ hij _ hi hj ↦ ?_, fun i _ _ hi ↦ ?_,
    not_lt.mpr (stabBinsearch_le (i := 1) (by decide) le_rfl htyped)⟩
  · rw [hone i hi, hone j hj] at hij
    exact absurd hij (lt_irrefl 1)
  · rw [hone i hi]
    decide

end

/-! ## Hits -/

/-- `left` is the last entry of the type at or below `addr`, and `right` is just before the next
entry of the type, or the end of the range. -/
structure Brackets (stabs : ℤ → Stab) (type addr : Word) (L R left right : ℤ) : Prop where
  mem : L ≤ left ∧ left ≤ R
  typed : Typed stabs type left
  le : (stabs left).nValue ≤ addr
  last : ∀ i, left < i → i ≤ R → Typed stabs type i → addr < (stabs i).nValue
  free : ∀ i, left < i → i ≤ right → ¬ Typed stabs type i
  next : right = R ∨ left ≤ right ∧ right < R ∧ Typed stabs type (right + 1)

/-- The bisection of `[l, r]` meets the entry `i` before its successor `j`. -/
inductive MeetsFirst (stabs : ℤ → Stab) (type : Word) (i j : ℤ) : ℤ → ℤ → Prop
  | here {l r : ℤ} (le : i ≤ middle l r) (lt : middle l r < j) : MeetsFirst stabs type i j l r
  | right {l r : ℤ} (lt : middle l r < i) (rest : MeetsFirst stabs type i j (middle l r + 1) r) :
      MeetsFirst stabs type i j l r
  | left {l r m : ℤ} (lt : j < m) (le : m ≤ middle l r) (typed : Typed stabs type m)
      (free : ∀ k, m < k → k ≤ middle l r → ¬ Typed stabs type k)
      (rest : MeetsFirst stabs type i j l (m - 1)) : MeetsFirst stabs type i j l r

/-- Entries of the type for `addr` and `addr + 1`. -/
structure Consecutive (stabs : ℤ → Stab) (type addr : Word) (L R i j : ℤ) : Prop where
  le : L ≤ i
  lt : i < j
  le' : j ≤ R
  typed : Typed stabs type i
  typed' : Typed stabs type j
  value : (stabs i).nValue = addr
  value' : (stabs j).nValue = addr + 1

section

variable {stabs : ℤ → Stab} {type addr : Word} {L R i j m left right : ℤ} {s s' : Search}

/-- The search as long as it does not overrun.  After an exact match it is for `addr + 1`, and no
entry that is left has just that value. -/
structure Bracketing (stabs : ℤ → Stab) (type addr : Word) (L R : ℤ) (s : Search) : Prop where
  right : s.regionRight = s.r
  low : ∀ i, L ≤ i → i < s.l → Typed stabs type i → (stabs i).nValue < s.addr
  high : ∀ i, s.r < i → i ≤ R → Typed stabs type i → addr < (stabs i).nValue
  next : s.r = R ∨ s.r < R ∧ Typed stabs type (s.r + 1)
  left : s.regionLeft = L ∨ L ≤ s.regionLeft ∧ s.regionLeft ≤ R ∧
    Typed stabs type s.regionLeft ∧ (stabs s.regionLeft).nValue ≤ addr
  search : s.addr = addr ∧ (∀ i j, Consecutive stabs type addr s.l s.r i j →
      ¬ MeetsFirst stabs type i j s.l s.r) ∨
    s.addr = addr + 1 ∧ ∀ i, s.l ≤ i → i ≤ s.r → Typed stabs type i → (stabs i).nValue ≠ addr + 1

theorem Bracketing.probed (hinc : Increasing stabs type L R) (haddr : addr < 0xFFFFFFFF)
    (ha : AnyMatches stabs type L R s) (h : Bracketing stabs type addr L R s) (hlr : s.l ≤ s.r)
    (hp : Probed stabs type s s') : Bracketing stabs type addr L R s' := by
  obtain ⟨h1, h2⟩ := middle_mem hlr
  have hl := ha.le_l
  have hr := ha.r_le
  -- the search goes on to the right of the probe
  have hsearch : s.addr = addr ∧ (∀ i j, Consecutive stabs type addr (middle s.l s.r + 1) s.r i j →
      ¬ MeetsFirst stabs type i j (middle s.l s.r + 1) s.r) ∨ s.addr = addr + 1 ∧
        ∀ i, middle s.l s.r + 1 ≤ i → i ≤ s.r → Typed stabs type i →
          (stabs i).nValue ≠ addr + 1 := by
    refine h.search.imp (And.imp_right fun hno i j hij hmeets ↦ ?_)
      (And.imp_right fun hno i hi ↦ hno i (by omega))
    have := hij.le
    exact hno i j { hij with le := by omega } (.right (by omega) hmeets)
  cases hp with
  | none free =>
      refine ⟨h.right, fun i hi hlt htyped ↦ ?_, h.high, h.next, h.left, hsearch⟩
      by_cases hil : i < s.l
      · exact h.low i hi hil htyped
      · exact absurd htyped (free i (not_lt.mp hil) (Int.lt_add_one_iff.mp hlt))
  | @below m ge le typed free lt =>
      refine ⟨h.right, fun i hi hlt htyped ↦ ?_, h.high, h.next,
        .inr ⟨hl.trans ge, le.trans (h2.trans hr), typed, ?_⟩, hsearch⟩
      · rcases lt_trichotomy i m with him | rfl | him
        · exact BitVec.lt_trans (hinc i m hi him (by omega) htyped typed) lt
        · exact lt
        · exact absurd htyped (free i him (Int.lt_add_one_iff.mp hlt))
      · rcases h.search with ⟨heq, -⟩ | ⟨heq, -⟩ <;> rw [heq] at lt <;> bv_omega
  | @above m ge le typed free gt =>
      have hm : addr < (stabs m).nValue := by
        rcases h.search with ⟨heq, -⟩ | ⟨heq, -⟩ <;> rw [heq] at gt <;> bv_omega
      refine ⟨rfl, h.low, fun i hi hiR htyped ↦ ?_, .inr ⟨?_, ?_⟩, h.left, ?_⟩
      · rcases Int.lt_or_eq_of_le (Int.le_of_sub_one_lt hi) with him | rfl
        · exact BitVec.lt_trans hm (hinc m i (by omega) him hiR typed htyped)
        · exact hm
      · simp only
        omega
      · simpa using typed
      · refine h.search.imp (And.imp_right fun hno i j hij hmeets ↦ ?_)
          (And.imp_right fun hno i hi hir ↦ hno i hi (by simp only at hir; omega))
        have := hij.le'
        simp only at this
        exact hno i j { hij with le' := by omega } (.left (by omega) le typed free hmeets)
  | @found m ge le typed free eq =>
      rcases h.search with ⟨heq, hno⟩ | ⟨heq, hno⟩
      · rw [heq] at eq
        refine ⟨h.right, fun i hi hlt htyped ↦ ?_, h.high, h.next,
          .inr ⟨hl.trans ge, le.trans (h2.trans hr), typed, by simp [eq]⟩,
          .inr ⟨by simp [heq], fun i hi hir htyped hval ↦ ?_⟩⟩
        · have := hinc i m hi hlt (by omega) htyped typed
          simp only [heq]
          bv_omega
        · have him : m < i := lt_of_le_of_ne hi (by rintro rfl; bv_omega)
          exact hno m i ⟨ge, him, hir, typed, htyped, eq, hval⟩
            (.here le (not_le.mp fun hle ↦ free i him hle htyped))
      · exact absurd (eq.trans heq) (hno m ge (by omega) typed)

/-- A search that does not overrun brackets `addr`. -/
theorem brackets_of_not_meetsFirst (hinc : Increasing stabs type L R) (haddr : addr < 0xFFFFFFFF)
    (hi : L ≤ i) (hiR : i ≤ R) (htyped : Typed stabs type i) (hval : (stabs i).nValue ≤ addr)
    (hno : ∀ i j, Consecutive stabs type addr L R i j → ¬ MeetsFirst stabs type i j L R) :
    Brackets stabs type addr L R (stabBinsearch stabs L R type addr).1
      (stabBinsearch stabs L R type addr).2 := by
  have hinit : Bracketing stabs type addr L R ⟨L, R, false, L, R, addr⟩ :=
    ⟨rfl, fun i hi hlt ↦ absurd hlt (not_lt.mpr hi), fun i hi hiR ↦ absurd hi (not_lt.mpr hiR),
      .inl rfl, .inl rfl, .inl ⟨rfl, hno⟩⟩
  obtain ⟨⟨ha, h⟩, hlt⟩ := Search.loop_inv
    (P := fun s ↦ AnyMatches stabs type L R s ∧ Bracketing stabs type addr L R s)
    (fun s s' h hlr hp ↦ ⟨h.1.probed hlr hp, h.2.probed hinc haddr h.1 hlr hp⟩)
    ⟨anyMatches_init, hinit⟩
  simp only [stabBinsearch]
  generalize Search.loop stabs type ⟨L, R, false, L, R, addr⟩ = s at *
  -- the entries at or below `addr` are those up to `r`
  have hle : ∀ k, L ≤ k → k ≤ s.r → Typed stabs type k → (stabs k).nValue ≤ addr := by
    intro k hk hkr ht
    have := h.low k hk (by omega) ht
    rcases h.search with ⟨heq, -⟩ | ⟨heq, -⟩ <;> rw [heq] at this <;> bv_omega
  have hir : i ≤ s.r := not_lt.mp fun hc ↦ BitVec.not_lt.mpr hval (h.high i hc hiR htyped)
  have hany : s.anyMatches = true := by
    by_contra hc
    obtain ⟨-, -, hlow⟩ := ha.none (Bool.not_eq_true _ ▸ hc)
    exact hlow i hi (by omega) htyped
  have hleft : L ≤ s.regionLeft ∧ s.regionLeft ≤ s.r := by
    rcases h.left with heq | ⟨h1, h2, h3, h4⟩
    · omega
    · exact ⟨h1, not_lt.mp fun hc ↦ BitVec.not_lt.mpr h4 (h.high _ hc h2 h3)⟩
  rw [if_pos hany, h.right]
  have hge := le_scanBack (l := s.regionLeft + 1) (m := s.r) stabs type (by omega)
  have hler := scanBack_le stabs type (s.regionLeft + 1) s.r
  have hr := ha.r_le
  have hfree : ∀ k, scanBack stabs type (s.regionLeft + 1) s.r < k → k ≤ s.r →
      ¬ Typed stabs type k := fun k ↦ not_typed_of_scanBack_lt
  have hscan : Typed stabs type (scanBack stabs type (s.regionLeft + 1) s.r) := by
    by_cases hc : s.regionLeft + 1 ≤ scanBack stabs type (s.regionLeft + 1) s.r
    · exact typed_scanBack hc
    · have heq : scanBack stabs type (s.regionLeft + 1) s.r = s.regionLeft := by omega
      rw [heq] at hfree ⊢
      rcases h.left with hL | ⟨-, -, h3, -⟩
      · have hiL : i ≤ s.regionLeft := not_lt.mp fun hlt ↦ hfree i hlt hir htyped
        have : i = s.regionLeft := by omega
        exact this ▸ htyped
      · exact h3
  refine ⟨⟨by omega, by omega⟩, hscan, hle _ (by omega) hler hscan, fun k hk hkR ht ↦ ?_, hfree,
    h.next.imp id fun hn ↦ ⟨hler, hn⟩⟩
  by_cases hkr : k ≤ s.r
  · exact absurd ht (hfree k hk hkr)
  · exact h.high k (not_le.mp hkr) hkR ht

/-- The search once it is bound to overrun, towards the entry `j`. -/
inductive Overrunning (stabs : ℤ → Stab) (type addr : Word) (i j : ℤ) (s : Search) : Prop
  | before (addr_eq : s.addr = addr) (le : s.l ≤ i) (le' : j ≤ s.r)
      (meets : MeetsFirst stabs type i j s.l s.r)
  | found (addr_eq : s.addr = addr + 1) (le : s.l ≤ j) (le' : j ≤ s.r)
  | passed (max : addr + 1 + 1 ≠ 0) (any : s.anyMatches = true) (left : j ≤ s.regionLeft)
      (le : j ≤ s.l) (le' : j ≤ s.r)
      (above : ∀ k, s.l ≤ k → Typed stabs type k → s.addr ≤ (stabs k).nValue → j < k)
  /-- `addr` has wrapped around -/
  | wrapped (max : addr + 1 + 1 = 0) (any : s.anyMatches = true) (left : s.regionLeft = j)
      (eq : s.l = j) (le : j ≤ s.r ∨ s.r = j - 1) (addr_eq : s.addr = 0)

theorem Increasing.lt_iff (h : Increasing stabs type L R) (hi : L ≤ i) (hiR : i ≤ R)
    (hti : Typed stabs type i) (hj : L ≤ j) (hjR : j ≤ R) (htj : Typed stabs type j) :
    (stabs i).nValue < (stabs j).nValue ↔ i < j := by
  rcases lt_trichotomy i j with hlt | rfl | hgt
  · exact iff_of_true (h i j hi hlt hjR hti htj) hlt
  · simp
  · exact iff_of_false (fun hc ↦ BitVec.lt_irrefl _ (BitVec.lt_trans hc (h j i hj hgt hiR htj hti)))
      (not_lt.mpr hgt.le)

namespace Consecutive

variable {k : ℤ} (h : Consecutive stabs type addr L R i j) (hinc : Increasing stabs type L R)
  (hk : L ≤ k) (hkR : k ≤ R) (ht : Typed stabs type k)

include h hinc hk hkR ht

theorem lt_iff : (stabs k).nValue < addr ↔ k < i :=
  h.value ▸ hinc.lt_iff hk hkR ht h.le (h.lt.le.trans h.le') h.typed

theorem gt_iff : addr < (stabs k).nValue ↔ i < k :=
  h.value ▸ hinc.lt_iff h.le (h.lt.le.trans h.le') h.typed hk hkR ht

theorem lt_succ_iff : (stabs k).nValue < addr + 1 ↔ k < j :=
  h.value' ▸ hinc.lt_iff hk hkR ht (h.le.trans h.lt.le) h.le' h.typed'

theorem gt_succ_iff : addr + 1 < (stabs k).nValue ↔ j < k :=
  h.value' ▸ hinc.lt_iff (h.le.trans h.lt.le) h.le' h.typed' hk hkR ht

/-- There is no entry of the type between the two. -/
theorem le_or_le : k ≤ i ∨ j ≤ k := by
  by_contra hc
  have h1 := (h.gt_iff hinc hk hkR ht).mpr (by omega)
  have h2 := (h.lt_succ_iff hinc hk hkR ht).mpr (by omega)
  bv_omega

end Consecutive

theorem Probed.regionRight (h : Probed stabs type s s') (hr : s.regionRight = s.r) :
    s'.regionRight = s'.r := by
  cases h with
  | above => rfl
  | none | below | found => exact hr

theorem Overrunning.probed (hinc : Increasing stabs type L R)
    (hij : Consecutive stabs type addr L R i j) (ha : AnyMatches stabs type L R s)
    (h : Overrunning stabs type addr i j s) (hlr : s.l ≤ s.r) (hp : Probed stabs type s s') :
    Overrunning stabs type addr i j s' := by
  obtain ⟨h1, h2⟩ := middle_mem hlr
  have hl := ha.le_l
  have hr := ha.r_le
  have hlt := hij.lt
  cases h with
  | before addr_eq le le' meets =>
      cases meets with
      | here hle hlt' =>
          -- the probe meets `i`
          cases hp with
          | none free => exact absurd hij.typed (free i le hle)
          | @below m ge hm typed free lt =>
              have := (hij.lt_iff hinc (hl.trans ge) (by omega) typed).mp (addr_eq ▸ lt)
              exact absurd hij.typed (free i this hle)
          | @above m ge hm typed free gt =>
              have := (hij.gt_iff hinc (hl.trans ge) (by omega) typed).mp (addr_eq ▸ gt)
              have := hij.le_or_le hinc (hl.trans ge) (by omega) typed
              omega
          | @found m ge hm typed free eq =>
              have := hij.le_or_le hinc (hl.trans ge) (by omega) typed
              exact .found (by simp [addr_eq]) (by simp only; omega) le'
      | right hlt' rest =>
          cases hp with
          | none free => exact .before addr_eq (by simp only; omega) le' rest
          | below ge hm typed free lt => exact .before addr_eq (by simp only; omega) le' rest
          | @above m ge hm typed free gt =>
              have := (hij.gt_iff hinc (hl.trans ge) (by omega) typed).mp (addr_eq ▸ gt)
              omega
          | @found m ge hm typed free eq =>
              have := (hij.lt_iff hinc (hl.trans ge) (by omega) typed).mpr (by omega)
              rw [eq, addr_eq] at this
              exact absurd this (BitVec.lt_irrefl _)
      | @left _ _ m hjm hm typed free rest =>
          -- the probe meets an entry above both
          have hgt := (hij.gt_iff hinc (hl.trans (by omega)) (by omega) typed).mpr (by omega)
          have hlast : ∀ m', s.l ≤ m' → m' ≤ middle s.l s.r → Typed stabs type m' →
              (∀ k, m' < k → k ≤ middle s.l s.r → ¬ Typed stabs type k) → m' = m := by
            intro m' hge' hle' htyped' hfree'
            rcases lt_trichotomy m' m with hc | hc | hc
            · exact absurd typed (hfree' m hc hm)
            · exact hc
            · exact absurd htyped' (free m' hc hle')
          cases hp with
          | none hfree => exact absurd typed (hfree m (by omega) hm)
          | @below m' hge' hle' htyped' hfree' hlt' =>
              obtain rfl := hlast m' hge' hle' htyped' hfree'
              rw [addr_eq] at hlt'
              exact absurd (BitVec.lt_trans hlt' hgt) (BitVec.lt_irrefl _)
          | @above m' hge' hle' htyped' hfree' _ =>
              obtain rfl := hlast m' hge' hle' htyped' hfree'
              exact .before addr_eq le (by simp only; omega) rest
          | @found m' hge' hle' htyped' hfree' heq =>
              obtain rfl := hlast m' hge' hle' htyped' hfree'
              rw [heq, addr_eq] at hgt
              exact absurd hgt (BitVec.lt_irrefl _)
  | found addr_eq le le' =>
      cases hp with
      | none free =>
          have : ¬ j ≤ middle s.l s.r := fun hc ↦ free j le hc hij.typed'
          exact .found addr_eq (by simp only; omega) le'
      | @below m ge hm typed free lt =>
          have := (hij.lt_succ_iff hinc (hl.trans ge) (by omega) typed).mp (addr_eq ▸ lt)
          have : ¬ j ≤ middle s.l s.r := fun hc ↦ free j this hc hij.typed'
          exact .found addr_eq (by simp only; omega) le'
      | @above m ge hm typed free gt =>
          have := (hij.gt_succ_iff hinc (hl.trans ge) (by omega) typed).mp (addr_eq ▸ gt)
          exact .found addr_eq le (by simp only; omega)
      | @found m ge hm typed free eq =>
          have hmR : m ≤ R := hm.trans (h2.trans hr)
          rw [addr_eq] at eq
          have hge : ¬ m < j := fun hc ↦
            BitVec.ne_of_lt ((hij.lt_succ_iff hinc (hl.trans ge) hmR typed).mpr hc) eq
          have hle : ¬ j < m := fun hc ↦
            (BitVec.ne_of_lt ((hij.gt_succ_iff hinc (hl.trans ge) hmR typed).mpr hc)).symm eq
          obtain rfl : m = j := by omega
          by_cases hmax : addr + 1 + 1 = 0
          · exact .wrapped hmax rfl rfl rfl (.inl le') (by simp only [addr_eq, hmax])
          · refine .passed hmax rfl le_rfl le_rfl le' fun k hk _ hv ↦ lt_of_le_of_ne hk ?_
            rintro rfl
            rw [eq] at hv
            simp only [addr_eq] at hv
            bv_omega
  | passed max any left le le' above =>
      cases hp with
      | none free =>
          exact .passed max any left (by simp only; omega) le' fun k hk ↦
            above k (by simp only at hk; omega)
      | @below m ge hm typed free lt =>
          exact .passed max rfl (by simp only; omega) (by simp only; omega) le' fun k hk ↦
            above k (by simp only at hk; omega)
      | @above m ge hm typed free gt =>
          have := above m ge typed (BitVec.le_of_lt gt)
          exact .passed max rfl left le (by simp only; omega) above
      | @found m ge hm typed free eq =>
          have := above m ge typed (eq ▸ BitVec.le_refl _)
          exact .passed max rfl this.le this.le le' fun k hk _ _ ↦ this.trans_le hk
  | wrapped max any left eq le addr_eq =>
      cases hp with
      | none free => exact absurd hij.typed' (free j (by omega) (by omega))
      | below ge hm typed free lt =>
          rw [addr_eq] at lt
          bv_omega
      | @above m ge hm typed free gt =>
          have hle : ¬ j < m := fun hc ↦ by
            have := (hij.gt_succ_iff hinc (hl.trans ge) (by omega) typed).mpr hc
            bv_omega
          obtain rfl : m = j := by omega
          exact .wrapped max rfl left eq (.inr rfl) addr_eq
      | @found m ge hm typed free heq =>
          have := (hij.lt_succ_iff hinc (hl.trans ge) (by omega) typed).mp (by
            rw [heq, addr_eq]
            bv_omega)
          omega

/-- A search that overruns passes `j`, or `addr` wraps around at `j`. -/
theorem stabBinsearch_of_meetsFirst (hinc : Increasing stabs type L R)
    (hij : Consecutive stabs type addr L R i j) (hmeets : MeetsFirst stabs type i j L R) :
    addr + 1 + 1 ≠ 0 ∧ j ≤ (stabBinsearch stabs L R type addr).1 ∨
      addr + 1 + 1 = 0 ∧ stabBinsearch stabs L R type addr = (j - 1, j - 1) := by
  obtain ⟨⟨ha, hright, h⟩, hlt⟩ := Search.loop_inv
    (P := fun s ↦ AnyMatches stabs type L R s ∧ s.regionRight = s.r ∧
      Overrunning stabs type addr i j s)
    (fun s s' ⟨h1, h2, h3⟩ hlr hp ↦
      ⟨h1.probed hlr hp, hp.regionRight h2, h3.probed hinc hij h1 hlr hp⟩)
    ⟨anyMatches_init, rfl, .before rfl hij.le hij.le' hmeets⟩
  simp only [stabBinsearch]
  generalize Search.loop stabs type ⟨L, R, false, L, R, addr⟩ = s at *
  have := hij.lt
  cases h with
  | before addr_eq le le' meets => omega
  | found addr_eq le le' => omega
  | passed max any left le le' above =>
      rw [if_pos any, hright]
      by_cases hc : s.regionLeft ≤ s.r
      · have := le_scanBack (l := s.regionLeft + 1) (m := s.r) stabs type (by omega)
        exact .inl ⟨max, by simp only; omega⟩
      · exact .inl ⟨max, by simp only; rw [scanBack_of_lt (by omega)]; exact le'⟩
  | wrapped max any left eq le addr_eq =>
      obtain hr : s.r = j - 1 := by omega
      rw [if_pos any, hright, scanBack_of_lt (by omega), hr]
      exact .inr ⟨max, rfl⟩

/-- The search brackets `addr`, unless entries of the type have the values `addr` and `addr + 1`
and the bisection meets the former first.  Then it goes too far; only if `addr + 2` wraps around and
the two entries are neighbours, it comes back to where it should be. -/
theorem stab_binsearch_brackets_iff (hinc : Increasing stabs type L R) (haddr : addr < 0xFFFFFFFF)
    (hex : ∃ i, L ≤ i ∧ i ≤ R ∧ Typed stabs type i ∧ (stabs i).nValue ≤ addr) :
    Brackets stabs type addr L R (stabBinsearch stabs L R type addr).1
        (stabBinsearch stabs L R type addr).2 ↔
      ¬ ∃ i j, Consecutive stabs type addr L R i j ∧ MeetsFirst stabs type i j L R ∧
        ¬ (addr = 0xFFFFFFFE ∧ j = i + 1) := by
  constructor
  · rintro h ⟨i, j, hij, hmeets, hno⟩
    have hlast : ¬ j ≤ (stabBinsearch stabs L R type addr).1 := fun hc ↦
      BitVec.not_lt.mpr h.le ((hij.gt_iff hinc h.mem.1 h.mem.2 h.typed).mpr (hij.lt.trans_le hc))
    rcases stabBinsearch_of_meetsFirst hinc hij hmeets with ⟨-, hc⟩ | ⟨hmax, heq⟩
    · exact hlast hc
    · have h1 := hij.le_or_le hinc h.mem.1 h.mem.2 h.typed
      have hlt := hij.lt
      rw [heq] at h1
      simp only at h1
      exact hno ⟨by bv_omega, by omega⟩
  · intro hno
    obtain ⟨i, hi, hiR, htyped, hval⟩ := hex
    by_cases hmeets : ∃ i j, Consecutive stabs type addr L R i j ∧ MeetsFirst stabs type i j L R
    · obtain ⟨i, j, hij, hmeets⟩ := hmeets
      obtain ⟨rfl, rfl⟩ : addr = 0xFFFFFFFE ∧ j = i + 1 :=
        not_not.mp fun hc ↦ hno ⟨i, j, hij, hmeets, hc⟩
      rcases stabBinsearch_of_meetsFirst hinc hij hmeets with ⟨hc, -⟩ | ⟨-, heq⟩
      · exact absurd (by decide) hc
      · have hR := hij.le'
        rw [heq, Int.add_sub_cancel]
        exact ⟨⟨hij.le, by omega⟩, hij.typed, hij.value ▸ BitVec.le_refl _, fun k hk hkR ht ↦
          (hij.gt_iff hinc (hij.le.trans hk.le) hkR ht).mpr hk, fun k hk hki ↦ absurd hk (by omega),
          .inr ⟨le_rfl, by omega, hij.typed'⟩⟩
    · exact brackets_of_not_meetsFirst hinc haddr hi hiR htyped hval
        fun i j hij hm ↦ hmeets ⟨i, j, hij, hm⟩

/-- Line numbers of two neighbouring instructions, the first of them one byte long. -/
def lineStabs (i : ℤ) : Stab := if i = 0 then ⟨0x44, 5⟩ else ⟨0x44, 6⟩

theorem increasing_lineStabs : Increasing lineStabs 0x44 0 1 := by
  intro i j hi hij hj _ _
  obtain ⟨rfl, rfl⟩ : i = 0 ∧ j = 1 := by omega
  decide

theorem stab_binsearch_overruns : ∃ stabs : ℤ → Stab, ∃ L R : ℤ, ∃ type addr : Word,
    Increasing stabs type L R ∧ addr < 0xFFFFFFFF ∧
    (∃ i, L ≤ i ∧ i ≤ R ∧ Typed stabs type i ∧ (stabs i).nValue ≤ addr) ∧
    ¬ Brackets stabs type addr L R (stabBinsearch stabs L R type addr).1
      (stabBinsearch stabs L R type addr).2 := by
  have hij : Consecutive lineStabs 0x44 5 0 1 0 1 := by constructor <;> decide
  refine ⟨lineStabs, 0, 1, 0x44, 5, increasing_lineStabs, by decide, ⟨0, by decide⟩, fun h ↦ ?_⟩
  rcases stabBinsearch_of_meetsFirst increasing_lineStabs hij (.here (by decide) (by decide)) with
    ⟨-, hle⟩ | ⟨hmax, -⟩
  · have hright : (stabBinsearch lineStabs 0 1 0x44 5).1 = 1 := Int.le_antisymm h.mem.2 hle
    have hval := h.le
    rw [hright] at hval
    exact absurd hval (by decide)
  · exact absurd hmax (by decide)

theorem stab_binsearch_brackets_iff_demo :
    Brackets lineStabs 0x44 6 0 1 (stabBinsearch lineStabs 0 1 0x44 6).1
      (stabBinsearch lineStabs 0 1 0x44 6).2 := by
  refine (stab_binsearch_brackets_iff increasing_lineStabs (by decide) ⟨1, by decide⟩).mpr ?_
  rintro ⟨i, j, hij, -⟩
  obtain ⟨rfl, rfl⟩ : i = 0 ∧ j = 1 := by
    have := hij.le
    have := hij.lt
    have := hij.le'
    omega
  exact absurd hij.value (by decide)

end

end Jos
