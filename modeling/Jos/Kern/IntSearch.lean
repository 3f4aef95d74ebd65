import Jos.Kern.Debuginfo

/-!
# `stab_binsearch` in machine integers (`kern/kdebug.c`)

Here the indices are `int`s of 32 bits, which wrap around, every entry that is read is logged, and
the loops have fuel.  As long as twice the last index is an `int`, nothing wraps, and this is the
search of `Kdebug`.

The sum `l + r` of a later round is greater than that of the first one, so it does not suffice that
the latter is an `int`.
-/

namespace Jos

open Lib

open Debuginfo (InRegion)

namespace IntSearch

/-- The variables of `stab_binsearch`, as `int`s. -/
structure Vars where
  l : Word
  r : Word
  anyMatches : Bool
  regionLeft : Word
  regionRight : Word
  addr : Word

section

variable (stabs : ℤ → Stab)

/-- `stabs[i]` -/
def entry (i : Word) : Logged ℤ Stab := do
  modify (i.toInt :: ·)
  return stabs i.toInt

/-- `while (m >= l && stabs[m].n_type != type) m--;` -/
def scan (type l : Word) : ℕ → Word → Logged ℤ Word
  | 0, _ => failure
  | fuel + 1, m =>
      if l.sle m then do
        if (← entry stabs m).nType.setWidth 32 ≠ type then scan type l fuel (m - 1) else return m
      else return m

/-- A round of the loop. -/
def probe (fuel : ℕ) (type : Word) (s : Vars) : Logged ℤ Vars := do
  let trueM := (s.l + s.r).sdiv 2
  let m ← scan stabs type s.l fuel trueM
  if m.slt s.l then return { s with l := trueM + 1 }
  else if (← entry stabs m).nValue < s.addr then
    return { s with anyMatches := true, regionLeft := m, l := trueM + 1 }
  else if s.addr < (← entry stabs m).nValue then
    return { s with anyMatches := true, regionRight := m - 1, r := m - 1 }
  else return { s with anyMatches := true, regionLeft := m, l := m, addr := s.addr + 1 }

/-- The loop, with fuel for the rounds and for the scan of each of them. -/
def loop (type : Word) (scanFuel : ℕ) : ℕ → Vars → Logged ℤ Vars
  | 0, _ => failure
  | fuel + 1, s =>
      if s.l.sle s.r then do
        loop type scanFuel fuel (← probe stabs scanFuel type s)
      else return s

/-- `for (l = *region_right; l > *region_left && stabs[l].n_type != type; l--)` -/
def rightmost (type left : Word) : ℕ → Word → Logged ℤ Word
  | 0, _ => failure
  | fuel + 1, l =>
      if left.slt l then do
        if (← entry stabs l).nType.setWidth 32 ≠ type then rightmost type left fuel (l - 1)
        else return l
      else return l

/-- `stab_binsearch`: what it leaves in `*region_left` and `*region_right`. -/
def stabBinsearch (fuel : ℕ) (regionLeft regionRight type addr : Word) :
    Logged ℤ (Word × Word) := do
  let s ← loop stabs type fuel fuel ⟨regionLeft, regionRight, false, regionLeft, regionRight, addr⟩
  if s.anyMatches then
    let l ← rightmost stabs type s.regionLeft fuel s.regionRight
    return (l, s.regionRight)
  else return (s.regionLeft, s.regionLeft - 1)

end

/-! ## Integers that are `int`s -/

/-- The values of the type `int` -/
def IsInt (i : ℤ) : Prop := -2 ^ 31 ≤ i ∧ i < 2 ^ 31

section

variable {i j : ℤ}

theorem IsInt.toInt (h : IsInt i) : (BitVec.ofInt 32 i).toInt = i :=
  BitVec.toInt_ofInt_eq_self (by decide) h.1 h.2

theorem IsInt.sub_one (h : IsInt i) (hlow : j < i) (hj : IsInt j) : IsInt (i - 1) := by
  obtain ⟨-, hi⟩ := h
  obtain ⟨hj, -⟩ := hj
  exact ⟨by omega, by omega⟩

theorem sle_ofInt (hi : IsInt i) (hj : IsInt j) :
    (BitVec.ofInt 32 i).sle (BitVec.ofInt 32 j) = true ↔ i ≤ j := by
  rw [BitVec.sle_iff_toInt_le, hi.toInt, hj.toInt]

theorem slt_ofInt (hi : IsInt i) (hj : IsInt j) :
    (BitVec.ofInt 32 i).slt (BitVec.ofInt 32 j) = true ↔ i < j := by
  rw [BitVec.slt_iff_toInt_lt, hi.toInt, hj.toInt]

theorem ofInt_add_one (i : ℤ) : BitVec.ofInt 32 i + 1 = BitVec.ofInt 32 (i + 1) :=
  (BitVec.ofInt_add i 1).symm

theorem ofInt_sub_one (i : ℤ) : BitVec.ofInt 32 i - 1 = BitVec.ofInt 32 (i - 1) := by
  rw [Int.sub_eq_add_neg, BitVec.ofInt_add, BitVec.sub_eq_add_neg]
  rfl

/-- If the sum does not overflow, half of it is the middle. -/
theorem sdiv_two (hsum : IsInt (i + j)) :
    (BitVec.ofInt 32 i + BitVec.ofInt 32 j).sdiv 2 = BitVec.ofInt 32 (middle i j) := by
  have hmid : IsInt (middle i j) := by
    obtain ⟨h1, h2⟩ := hsum
    rw [middle, Int.tdiv_eq_ediv, show (2 : ℤ).sign = 1 from rfl]
    constructor
    · split <;> omega
    · split <;> omega
  refine BitVec.eq_of_toInt_eq ?_
  rw [BitVec.toInt_sdiv_of_ne_or_ne _ _ (.inr (by decide)), ← BitVec.ofInt_add, hsum.toInt,
    hmid.toInt]
  rfl

end

/-! ## The search -/

section

variable {stabs : ℤ → Stab} {type addr : Word} {fuel scanFuel : ℕ} {l m L R : ℤ} {s : Search}
  {E : ℤ → Prop}

/-- A search, in `int`s -/
abbrev ofSearch (s : Search) : Vars :=
  ⟨.ofInt 32 s.l, .ofInt 32 s.r, s.anyMatches, .ofInt 32 s.regionLeft, .ofInt 32 s.regionRight,
    s.addr⟩

theorem returns_entry (h : IsInt m) : Returns (entry stabs (.ofInt 32 m)) (stabs m) := by
  intro L
  refine ⟨m :: L, ?_⟩
  show ((some (stabs (BitVec.ofInt 32 m).toInt), (BitVec.ofInt 32 m).toInt :: L) : _ × _) = _
  rw [h.toInt]

theorem logs_entry (h : IsInt m) (hm : E m) : Logs E (entry stabs (.ofInt 32 m)) := by
  intro L
  refine ⟨[m], ?_, List.forall_mem_singleton.mpr hm⟩
  show (BitVec.ofInt 32 m).toInt :: L = m :: L
  rw [h.toInt]

/-- A program that returns `a` and logs events with `E`. -/
def Does {α : Type} (E : ℤ → Prop) (x : Logged ℤ α) (a : α) : Prop := Returns x a ∧ Logs E x

theorem Does.pure {α : Type} (a : α) : Does E (Pure.pure a : Logged ℤ α) a :=
  ⟨Returns.pure a, Logs.pure a⟩

theorem Does.bind {α β : Type} {x : Logged ℤ α} {f : α → Logged ℤ β} {a : α} {b : β}
    (hx : Does E x a) (hf : Does E (f a) b) : Does E (x >>= f) b := by
  refine ⟨hx.1.bind hf.1, hx.2.bind_of (P := (· = a)) (fun L c L' hrun ↦ ?_) ?_⟩
  · obtain ⟨L₁, h⟩ := hx.1 L
    rw [h] at hrun
    exact (Option.some.inj (Prod.mk.inj hrun).1).symm
  · rintro _ rfl
    exact hf.2

theorem does_entry (h : IsInt m) (hm : E m) : Does E (entry stabs (.ofInt 32 m)) (stabs m) :=
  ⟨returns_entry h, logs_entry h hm⟩

/-- The scan reads what it goes past, and the entry where it ends. -/
theorem does_scan (hl : IsInt l) (hm : IsInt m) (hl' : IsInt (l - 1))
    (hE : ∀ k, l ≤ k → k ≤ m → E k) (hfuel : (m - l + 1).toNat < fuel) :
    Does E (scan stabs type (.ofInt 32 l) fuel (.ofInt 32 m))
      (.ofInt 32 (scanBack stabs type l m)) := by
  induction fuel generalizing m with
  | zero => cases hfuel
  | succ fuel ih =>
      rw [scan, scanBack]
      by_cases hlm : l ≤ m
      · rw [if_pos ((sle_ofInt hl hm).mpr hlm)]
        refine (does_entry hm (hE m hlm le_rfl)).bind ?_
        by_cases htyped : (stabs m).nType.setWidth 32 = type
        · rw [if_neg (not_not.mpr htyped), if_neg fun hc ↦ hc.2 htyped]
          exact Does.pure _
        · rw [if_pos htyped, if_pos ⟨hlm, htyped⟩, ofInt_sub_one]
          exact ih (hm.sub_one (Int.sub_one_lt_of_le hlm) hl')
            (fun k hk hkm ↦ hE k hk (by omega)) (by omega)
      · rw [if_neg (mt (sle_ofInt hl hm).mp hlm), if_neg fun hc ↦ hlm hc.1]
        exact Does.pure _

/-- The last scan stops before `*region_left`. -/
theorem does_rightmost (hl : IsInt l) (hm : IsInt m) (hE : ∀ k, l < k → k ≤ m → E k)
    (hfuel : (m - l).toNat < fuel) :
    Does E (rightmost stabs type (.ofInt 32 l) fuel (.ofInt 32 m))
      (.ofInt 32 (scanBack stabs type (l + 1) m)) := by
  induction fuel generalizing m with
  | zero => cases hfuel
  | succ fuel ih =>
      rw [rightmost, scanBack]
      by_cases hlm : l < m
      · rw [if_pos ((slt_ofInt hl hm).mpr hlm)]
        refine (does_entry hm (hE m hlm le_rfl)).bind ?_
        by_cases htyped : (stabs m).nType.setWidth 32 = type
        · rw [if_neg (not_not.mpr htyped), if_neg fun hc ↦ hc.2 htyped]
          exact Does.pure _
        · rw [if_pos htyped, if_pos ⟨hlm, htyped⟩, ofInt_sub_one]
          exact ih (hm.sub_one hlm hl) (fun k hk hkm ↦ hE k hk (by omega)) (by omega)
      · rw [if_neg (mt (slt_ofInt hl hm).mp hlm), if_neg fun hc ↦ hlm (Int.add_one_le_iff.mp hc.1)]
        exact Does.pure _

/-- The indices stay in the region, and one beyond it at most. -/
structure Bounded (L R : ℤ) (s : Search) : Prop extends InRegion L R s where
  l_le : s.l ≤ R + 1
  le_r : L - 1 ≤ s.r
  left_le : s.regionLeft ≤ R
  le_right : L - 1 ≤ s.regionRight

theorem Bounded.init (h : L ≤ R) : Bounded L R ⟨L, R, false, L, R, addr⟩ :=
  ⟨⟨le_rfl, le_rfl, le_rfl, le_rfl⟩, by simp only; omega, by simp only; omega, h,
    by simp only; omega⟩

theorem Bounded.probed {s' : Search} (h : Bounded L R s) (hlr : s.l ≤ s.r)
    (hp : Probed stabs type s s') : Bounded L R s' := by
  refine ⟨h.toInRegion.probed hlr hp, ?_, ?_, ?_, ?_⟩
  all_goals
    obtain ⟨⟨hl, hr, -, -⟩, hl', hr', hleft, hright⟩ := h
    obtain ⟨h1, h2⟩ := middle_mem hlr
    cases hp <;> simp only <;> omega

/-- A round in a region that is within `int`s twice over -/
theorem does_probe (h : InRegion L R s) (hlr : s.l ≤ s.r) (hL : 0 ≤ L) (hR : 2 * R < 2 ^ 31)
    (hE : ∀ k, L ≤ k → k ≤ R → E k) (hfuel : (R - L + 1).toNat < fuel) :
    Does E (probe stabs fuel type (ofSearch s)) (ofSearch (s.probe stabs type)) := by
  have hl := h.le_l
  have hr := h.r_le
  obtain ⟨h1, h2⟩ := middle_mem hlr
  have hmid := sdiv_two (i := s.l) (j := s.r) ⟨by omega, by omega⟩
  have hle := scanBack_le stabs type s.l (middle s.l s.r)
  have hge := le_scanBack (l := s.l) (m := middle s.l s.r) stabs type (by omega)
  have hint : ∀ {i}, -1 ≤ i → i ≤ R → IsInt i := fun h h' ↦ ⟨by omega, by omega⟩
  rw [probe, Search.probe]
  simp only [ofSearch, hmid]
  refine (does_scan (hint (by omega) (by omega)) (hint (by omega) (by omega))
    (hint (by omega) (by omega)) (fun k hk hkm ↦ hE k (by omega) (by omega)) (by omega)).bind ?_
  generalize scanBack stabs type s.l (middle s.l s.r) = m at *
  have hslt := @slt_ofInt m s.l (hint (by omega) (by omega)) (hint (by omega) (by omega))
  rw [ofInt_add_one, ofInt_sub_one]
  by_cases hmiss : m < s.l
  · rw [if_pos (hslt.mpr hmiss), if_pos hmiss]
    exact Does.pure _
  rw [if_neg (mt hslt.mp hmiss), if_neg hmiss]
  have hentry : Does E (entry stabs (.ofInt 32 m)) (stabs m) :=
    does_entry (hint (by omega) (by omega)) (hE m (by omega) (by omega))
  refine hentry.bind ?_
  by_cases hbelow : (stabs m).nValue < s.addr
  · rw [if_pos hbelow, if_pos hbelow]
    exact Does.pure _
  rw [if_neg hbelow, if_neg hbelow]
  refine hentry.bind ?_
  by_cases habove : s.addr < (stabs m).nValue
  · rw [if_pos habove, if_pos habove]
    exact Does.pure _
  · rw [if_neg habove, if_neg habove]
    exact Does.pure _

/-- Every round makes `rounds` smaller, so the loop ends. -/
theorem does_loop (h : Bounded L R s) (hL : 0 ≤ L) (hR : 2 * R < 2 ^ 31)
    (hE : ∀ k, L ≤ k → k ≤ R → E k) (hscan : (R - L + 1).toNat < scanFuel)
    (hfuel : s.rounds stabs < fuel) :
    Does E (loop stabs type scanFuel fuel (ofSearch s)) (ofSearch (s.loop stabs type)) := by
  induction fuel generalizing s with
  | zero => cases hfuel
  | succ fuel ih =>
      have hsle : (ofSearch s).l.sle (ofSearch s).r = true ↔ s.l ≤ s.r := by
        obtain ⟨⟨hl, hr, -, -⟩, hl', hr', -, -⟩ := h
        exact sle_ofInt ⟨by omega, by omega⟩ ⟨by omega, by omega⟩
      rw [loop, Search.loop]
      by_cases hlr : s.l ≤ s.r
      · rw [if_pos (hsle.mpr hlr), if_pos hlr]
        have hlt := Search.rounds_lt (@Search.probed stabs type s) hlr
        exact (does_probe h.toInRegion hlr hL hR hE hscan).bind
          (ih (h.probed hlr s.probed) (by omega))
      · rw [if_neg (mt hsle.mp hlr), if_neg hlr]
        exact Does.pure _

theorem does_stabBinsearch (hL : 0 ≤ L) (hLR : L ≤ R) (hR : 2 * R < 2 ^ 31)
    (hE : ∀ k, L ≤ k → k ≤ R → E k) (hfuel : 2 * (R - L + 1).toNat + 1 < fuel) :
    Does E (stabBinsearch stabs fuel (.ofInt 32 L) (.ofInt 32 R) type addr)
      (.ofInt 32 (Jos.stabBinsearch stabs L R type addr).1,
        .ofInt 32 (Jos.stabBinsearch stabs L R type addr).2) := by
  have hinit : Bounded L R ⟨L, R, false, L, R, addr⟩ := .init hLR
  obtain ⟨⟨-, -, hleft, hright⟩, -, -, hleft', hright'⟩ :=
    (Search.loop_inv (fun _ _ hs hlr ↦ hs.probed hlr) hinit : _ ∧ _).1
  refine (does_loop hinit hL hR hE (by omega) ?_).bind ?_
  · rw [Search.rounds]
    split <;> simp only <;> omega
  · rw [Jos.stabBinsearch]
    generalize Search.loop stabs type ⟨L, R, false, L, R, addr⟩ = s at *
    show Does E (if s.anyMatches then _ else _) _
    cases s.anyMatches with
    | true =>
        exact (does_rightmost ⟨by omega, by omega⟩ ⟨by omega, by omega⟩
          (fun k hk hkr ↦ hE k (by omega) (by omega)) (by omega)).bind (Does.pure _)
    | false =>
        rw [if_neg Bool.false_ne_true, if_neg Bool.false_ne_true, ← ofInt_sub_one]
        exact Does.pure _

/-- The search ends and reads entries of its range only, if twice the last index is an `int`; and it
finds what the search in integers without bound finds. -/
theorem stab_binsearch_in_range (hL : 0 ≤ L) (hLR : L ≤ R) (hR : 2 * R < 2 ^ 31)
    (stabs : ℤ → Stab) (type addr : Word) {fuel : ℕ} (hfuel : 2 * (R - L + 1).toNat + 1 < fuel) :
    ∃ reads, (stabBinsearch stabs fuel (.ofInt 32 L) (.ofInt 32 R) type addr).run [] =
        (some (.ofInt 32 (Jos.stabBinsearch stabs L R type addr).1,
          .ofInt 32 (Jos.stabBinsearch stabs L R type addr).2), reads) ∧
      ∀ k ∈ reads, L ≤ k ∧ k ≤ R := by
  obtain ⟨hreturns, hlogs⟩ := @does_stabBinsearch stabs type addr fuel L R (fun k ↦ L ≤ k ∧ k ≤ R)
    hL hLR hR (fun k hk hkR ↦ ⟨hk, hkR⟩) hfuel
  obtain ⟨reads, hrun⟩ := hreturns []
  obtain ⟨M, hM, hE⟩ := hlogs []
  refine ⟨reads, hrun, ?_⟩
  rw [hrun, List.append_nil] at hM
  obtain rfl : reads = M := hM
  exact hE

theorem stab_binsearch_in_range_demo :
    ∃ reads, (stabBinsearch lineStabs 10 (.ofInt 32 0) (.ofInt 32 1) 0x44 5).run [] =
        (some (.ofInt 32 (Jos.stabBinsearch lineStabs 0 1 0x44 5).1,
          .ofInt 32 (Jos.stabBinsearch lineStabs 0 1 0x44 5).2), reads) ∧
      ∀ k ∈ reads, 0 ≤ k ∧ k ≤ 1 :=
  stab_binsearch_in_range (by decide) (by decide) (by decide) lineStabs 0x44 5 (by decide)

/-- All entries are of type 0; those from `0x3FFFFFFF` on have values below 1. -/
def hugeTable (i : ℤ) : Stab := ⟨0, if 0x3FFFFFFF ≤ i then 0 else 2⟩

/-- In the second round `l + r` is `0x40000000 + 0x7FFFFFFF` and wraps around. -/
theorem stab_binsearch_overflows : ∃ stabs : ℤ → Stab, ∃ L R : ℤ, ∃ type addr : Word,
    0 ≤ L ∧ L ≤ R ∧ L + R < 2 ^ 31 ∧ ∃ fuel,
      ∃ k ∈ ((stabBinsearch stabs fuel (.ofInt 32 L) (.ofInt 32 R) type addr).run []).2,
        ¬ (L ≤ k ∧ k ≤ R) :=
  ⟨hugeTable, 0, 0x7FFFFFFF, 0, 1, by decide, by decide, by decide, 10, -0xC000000,
    by decide +kernel, by decide⟩

end

end IntSearch

end Jos
