import Jos.Libc.PrintfmtSpec
import Jos.Libc.String

/-!
# Scanning the format (`lib/printfmt.c`)

`vprintfmt` walks over the format with a pointer.  After an unknown escape sequence it moves the
pointer back to the last `%`, and prints the rest of the sequence as ordinary characters.  Here the
format is in memory, of which only some bytes may be read, and every loop has a number of rounds
that it may make.

The flags of an escape sequence contain no `%`, so that the way back ends at the `%` of the sequence
itself.  That is why the scan does the same as the one over a list of characters, in which there is
no pointer to move back.
-/

namespace Jos.Printfmt

open Jos.Lib

/-- A character of the format, as an `unsigned char`. -/
def charOf (b : BitVec 8) : Char := Char.ofNat b.toNat

/-- `*fmt` -/
def fetch (m : Text) (fmt : ℕ) : Print Char :=
  match m fmt with
  | none => failure
  | some b => return charOf b

/-- The loop over the digits of a width, after the digit `ch`.  It ends with `fmt` at the first
character that is no digit. -/
def digitLoop (m : Text) : ℕ → ℕ → Char → Int → Print (Int × ℕ)
  | 0, _, _, _ => failure
  | fuel + 1, fmt, ch, precision => do
      let precision := (precision * 10 + (ch.toNat - '0'.toNat)).bmod (2 ^ 32)
      let ch ← fetch m fmt
      if '0' ≤ ch ∧ ch ≤ '9' then digitLoop m fuel (fmt + 1) ch precision
      else return (precision, fmt)

/-- From `reswitch` to the conversion character. -/
def flagLoop (m : Text) : ℕ → Spec → List Word → ℕ → Print (Char × Spec × List Word × ℕ)
  | 0, _, _, _ => failure
  | fuel + 1, s, ap, fmt => do
      let ch ← fetch m fmt
      let fmt := fmt + 1
      if ch = '-' then flagLoop m fuel { s with padc := '-' } ap fmt
      else if ch = '0' then flagLoop m fuel { s with padc := '0' } ap fmt
      else if '1' ≤ ch ∧ ch ≤ '9' then do
        let (precision, fmt) ← digitLoop m fuel fmt ch 0
        flagLoop m fuel (s.processPrecision precision) ap fmt
      else if ch = '*' then do
        let (precision, ap) ← vaArg ap
        flagLoop m fuel (s.processPrecision precision.toInt) ap fmt
      else if ch = '.' then
        flagLoop m fuel { s with width := if s.width < 0 then 0 else s.width } ap fmt
      else if ch = '#' then flagLoop m fuel { s with altflag := true } ap fmt
      else if ch = 'l' then flagLoop m fuel { s with lflag := s.lflag + 1 } ap fmt
      else return (ch, s, ap, fmt)

/-- `for (; fmt[-1] != '%'; fmt--)` -/
def backUp (m : Text) : ℕ → ℕ → Print ℕ
  | 0, _ | _ + 1, 0 => failure
  | fuel + 1, fmt + 1 => do
      if (← fetch m fmt) = '%' then return fmt + 1
      else backUp m fuel fmt

/-- `vprintfmt`, for the format at `fmt` -/
def vprintfmtAt (m : Text) (rd : Word → Option (BitVec 8)) : ℕ → ℕ → List Word → Print Unit
  | 0, _, _ => failure
  | fuel + 1, fmt, ap => do
      let ch ← fetch m fmt
      if ch = '%' then do
        let (ch, s, ap, fmt) ← flagLoop m fuel {} ap (fmt + 1)
        match conversion rd ch s ap with
        | some x => do
            let ap ← x
            vprintfmtAt m rd fuel fmt ap
        | none => do
            putChar '%'
            let fmt ← backUp m fuel (fmt - 1)
            vprintfmtAt m rd fuel fmt ap
      else if ch = '\x00' then return
      else do
        putChar ch
        vprintfmtAt m rd fuel (fmt + 1) ap

/-! ## Flags -/

/-- `c` goes on with an escape sequence. -/
def IsFlag (c : Char) : Prop :=
  c = '-' ∨ c = '*' ∨ c = '.' ∨ c = '#' ∨ c = 'l' ∨ '0' ≤ c ∧ c ≤ '9'

instance : DecidablePred IsFlag := fun c ↦ by unfold IsFlag; infer_instance

/-- `c` ends an escape sequence that is known. -/
def IsConv (c : Char) : Prop := c ∈ ['c', 'e', 's', 'd', 'u', 'o', 'p', 'x', '%']

instance : DecidablePred IsConv := fun c ↦ by unfold IsConv; infer_instance

section

variable {rd : Word → Option (BitVec 8)} {s : Spec} {ap : List Word} {c : Char}
  {fl tail : List Char}

theorem isSome_conversion_iff : (conversion rd c s ap).isSome ↔ IsConv c := by
  unfold conversion
  split
  case h_10 =>
      refine iff_of_false Bool.false_ne_true fun hc ↦ ?_
      simp only [IsConv, List.mem_cons, List.not_mem_nil, or_false] at hc
      tauto
  all_goals exact iff_of_true rfl (by decide)

theorem ne_percent_of_isFlag (h : IsFlag c) : c ≠ '%' := by
  rintro rfl
  exact absurd h (by decide)

theorem Spec.processPrecision_lflag (s : Spec) (n : Int) :
    (s.processPrecision n).lflag = s.lflag := by
  unfold processPrecision
  split <;> rfl

/-- The end of an escape sequence. -/
theorem flagChars_stop (htail : ¬ IsFlag (tail.headD '\x00')) :
    flagChars none s ap tail = pure (tail.headD '\x00', s, ap, tail.tail) := by
  cases tail with
  | nil => rfl
  | cons c tail =>
      have hc : ¬ IsFlag c := htail
      unfold IsFlag at hc
      simp only [not_or] at hc
      obtain ⟨hminus, hstar, hdot, hhash, hl, hdigit⟩ := hc
      have hzero : c ≠ '0' := by
        rintro rfl
        exact hdigit (by decide)
      have hnine : ¬ ('1' ≤ c ∧ c ≤ '9') := fun h ↦
        hdigit ⟨Char.le_trans (by decide : '0' ≤ '1') h.1, h.2⟩
      rw [flagChars, if_neg hminus, if_neg hzero, if_neg hnine, if_neg hstar, if_neg hdot,
        if_neg hhash, if_neg hl]
      · rfl
      · intro _ h
        cases h

end

/-! ## The format in memory -/

/-- `m` holds the format `fmt` at `p`, with a NUL after it. -/
def FmtAt (m : Text) (p : ℕ) (fmt : List Char) : Prop := ∃ cs, CStr m p cs ∧ cs.map charOf = fmt

section

variable {m : Text} {p fuel : ℕ} {s : Spec} {ap : List Word} {c : Char} {fmt fl ds tail : List Char}

theorem FmtAt.fetch_eq (h : FmtAt m p fmt) : fetch m p = pure (fmt.headD '\x00') := by
  obtain ⟨cs, hm, rfl⟩ := h
  rw [fetch, hm.head]
  cases cs <;> rfl

theorem FmtAt.drop {xs ys : List Char} (h : FmtAt m p (xs ++ ys)) : FmtAt m (p + xs.length) ys := by
  obtain ⟨cs, hm, hcs⟩ := h
  obtain ⟨as, bs, rfl, rfl, rfl⟩ := List.map_eq_append_iff.mp hcs
  rw [List.length_map]
  exact ⟨bs, hm.drop, rfl⟩

theorem FmtAt.next (h : FmtAt m p (c :: fmt)) : FmtAt m (p + 1) fmt :=
  @FmtAt.drop m p [c] fmt h

theorem digitLoop_eq (h : FmtAt m p (ds ++ tail)) (hds : ∀ c ∈ ds, '0' ≤ c ∧ c ≤ '9')
    (htail : ¬ ('0' ≤ tail.headD '\x00' ∧ tail.headD '\x00' ≤ '9')) (hfuel : ds.length < fuel)
    (ch : Char) (n : Int) :
    digitLoop m fuel p ch n = pure (digitsValue n (ch :: ds), p + ds.length) := by
  induction ds generalizing fuel p ch n with
  | nil =>
      obtain ⟨fuel, rfl⟩ : ∃ k, fuel = k + 1 := ⟨fuel - 1, by omega⟩
      rw [digitLoop, h.fetch_eq, pure_bind]
      exact if_neg htail
  | cons d ds ih =>
      obtain ⟨fuel, rfl⟩ : ∃ k, fuel = k + 1 := ⟨fuel - 1, by omega⟩
      obtain ⟨hd, hds⟩ := List.forall_mem_cons.mp hds
      rw [digitLoop, h.fetch_eq, pure_bind]
      refine (if_pos hd).trans ?_
      rw [ih h.next hds (Nat.lt_of_succ_lt_succ hfuel), List.length_cons]
      simp only [digitsValue, List.foldl_cons, Nat.add_assoc, Nat.add_comm 1]
      rfl

theorem flagLoop_stop (h : FmtAt m p tail) (htail : ¬ IsFlag (tail.headD '\x00')) :
    flagLoop m (fuel + 1) s ap p = pure (tail.headD '\x00', s, ap, p + 1) := by
  unfold IsFlag at htail
  simp only [not_or] at htail
  obtain ⟨hminus, hstar, hdot, hhash, hl, hdigit⟩ := htail
  have hzero : tail.headD '\x00' ≠ '0' := by
    intro hz
    rw [hz] at hdigit
    exact hdigit (by decide)
  have hnine : ¬ ('1' ≤ tail.headD '\x00' ∧ tail.headD '\x00' ≤ '9') :=
    fun hc ↦ hdigit ⟨Char.le_trans (by decide : '0' ≤ '1') hc.1, hc.2⟩
  rw [flagLoop, h.fetch_eq, pure_bind]
  simp only [hminus, hzero, hnine, hstar, hdot, hhash, hl, if_false]

/-- Both scans of the flags `fl` come to the same end. -/
def FlagsRead (m : Text) (fuel : ℕ) (s : Spec) (ap : List Word) (p : ℕ) (fl tail : List Char) :
    Prop :=
  ∃ s' : Spec, s'.lflag = s.lflag + fl.count 'l' ∧
    flagChars none s ap (fl ++ tail) =
      pure (tail.headD '\x00', s', ap.drop (fl.count '*'), tail.tail) ∧
    flagLoop m fuel s ap p =
      pure (tail.headD '\x00', s', ap.drop (fl.count '*'), p + fl.length + 1)

/-- The flags `g` are read first. -/
theorem FlagsRead.append {g : List Char} (s₁ : Spec)
    (h : FlagsRead m fuel s₁ (ap.drop (g.count '*')) (p + g.length) fl tail)
    (hl : s₁.lflag = s.lflag + g.count 'l')
    (hchars : flagChars none s ap (g ++ (fl ++ tail)) =
      flagChars none s₁ (ap.drop (g.count '*')) (fl ++ tail))
    (hloop : flagLoop m (fuel + 1) s ap p =
      flagLoop m fuel s₁ (ap.drop (g.count '*')) (p + g.length)) :
    FlagsRead m (fuel + 1) s ap p (g ++ fl) tail := by
  obtain ⟨s', hs', hchars', hloop'⟩ := h
  refine ⟨s', ?_, ?_, ?_⟩
  · rw [hs', hl, List.count_append, Nat.add_assoc]
  · rw [List.append_assoc, hchars, hchars', List.drop_drop, List.count_append]
  · rw [hloop, hloop', List.drop_drop, List.count_append, List.length_append, Nat.add_assoc p]

/-- A flag of one character. -/
theorem FlagsRead.cons {s₁ : Spec} (h : FlagsRead m fuel s₁ ap (p + 1) fl tail) (hc : c ≠ '*')
    (hl : s₁.lflag = s.lflag + [c].count 'l')
    (hchars : flagChars none s ap (c :: (fl ++ tail)) = flagChars none s₁ ap (fl ++ tail))
    (hloop : flagLoop m (fuel + 1) s ap p = flagLoop m fuel s₁ ap (p + 1)) :
    FlagsRead m (fuel + 1) s ap p (c :: fl) tail := by
  have hcount : [c].count '*' = 0 := List.count_eq_zero.mpr (by simpa using hc.symm)
  have hdrop : ap.drop ([c].count '*') = ap := by rw [hcount, List.drop_zero]
  refine FlagsRead.append (g := [c]) s₁ ?_ hl ?_ ?_
  · rw [hdrop]
    exact h
  · rw [hdrop]
    exact hchars
  · rw [hdrop]
    exact hloop

/-- The digits of a width. -/
theorem FlagsRead.digits (h : FmtAt m p (c :: ds ++ (fl ++ tail)))
    (hc : '1' ≤ c ∧ c ≤ '9') (hds : ∀ c ∈ ds, '0' ≤ c ∧ c ≤ '9')
    (hend : ¬ ('0' ≤ (fl ++ tail).headD '\x00' ∧ (fl ++ tail).headD '\x00' ≤ '9'))
    (hfuel : ds.length < fuel)
    (hrest : ∀ s₁ : Spec, FlagsRead m fuel s₁ ap (p + (c :: ds).length) fl tail) :
    FlagsRead m (fuel + 1) s ap p (c :: ds ++ fl) tail := by
  have hcount : ∀ x, ¬ ('0' ≤ x ∧ x ≤ '9') → (c :: ds).count x = 0 := by
    intro x hx
    refine List.count_eq_zero.mpr fun hmem ↦ hx ?_
    rcases List.mem_cons.mp hmem with rfl | hmem
    · exact ⟨Char.le_trans (by decide : '0' ≤ '1') hc.1, hc.2⟩
    · exact hds x hmem
  have hdrop : ap.drop ((c :: ds).count '*') = ap := by
    rw [hcount '*' (by decide), List.drop_zero]
  have hne : c ≠ '-' ∧ c ≠ '0' := by
    constructor <;>
    · rintro rfl
      exact absurd hc (by decide)
  have hfirst : flagChars none s ap (c :: (ds ++ (fl ++ tail))) =
      flagChars (some (c.toNat - '0'.toNat)) s ap (ds ++ (fl ++ tail)) := by
    rw [flagChars, if_neg hne.1, if_neg hne.2, if_pos hc]
    · rfl
    · intro _ h
      cases h
  have hval : digitsValue 0 (c :: ds) = digitsValue (c.toNat - '0'.toNat) ds := by
    have hle : c.toNat ≤ 57 := hc.2
    have hge : 49 ≤ c.toNat := hc.1
    have h48 : '0'.toNat = 48 := rfl
    rw [digitsValue, List.foldl_cons, Int.zero_mul, Int.zero_add,
      Int.bmod_eq_of_le (by omega) (by omega)]
    rfl
  refine FlagsRead.append (s.processPrecision (digitsValue 0 (c :: ds))) (hdrop.symm ▸ hrest _)
    ?_ ?_ ?_
  · rw [hcount 'l' (by decide), Spec.processPrecision_lflag]
    rfl
  · rw [hdrop, hval, List.cons_append, hfirst]
    exact flagChars_some _ hds hend
  · rw [hdrop, flagLoop, h.fetch_eq, pure_bind]
    simp only [List.cons_append, List.headD_cons, hne.1, hne.2, hc, and_self, if_true, if_false]
    rw [digitLoop_eq h.next hds hend hfuel, pure_bind, List.length_cons, Nat.add_assoc,
      Nat.add_comm 1]

theorem one_le_of_ne_zero (h : '0' ≤ c) (hne : c ≠ '0') : '1' ≤ c := by
  have hle : 48 ≤ c.toNat := h
  have hne' : c.toNat ≠ 48 := fun hc ↦ hne (Char.toNat_inj.mp hc)
  show 49 ≤ c.toNat
  omega

/-- The digits at the start. -/
theorem exists_digits_prefix (fl : List Char) : ∃ ds fl', fl = ds ++ fl' ∧
    (∀ c ∈ ds, '0' ≤ c ∧ c ≤ '9') ∧ ¬ ('0' ≤ fl'.headD '\x00' ∧ fl'.headD '\x00' ≤ '9') := by
  induction fl with
  | nil => exact ⟨[], [], rfl, by simp, by decide⟩
  | cons c fl ih =>
      by_cases hc : '0' ≤ c ∧ c ≤ '9'
      · obtain ⟨ds, fl', rfl, hds, hhead⟩ := ih
        exact ⟨c :: ds, fl', rfl, List.forall_mem_cons.mpr ⟨hc, hds⟩, hhead⟩
      · exact ⟨[], c :: fl, rfl, by simp, hc⟩

theorem flags_spec (h : FmtAt m p (fl ++ tail)) (hfl : ∀ c ∈ fl, IsFlag c)
    (htail : ¬ IsFlag (tail.headD '\x00')) (hap : fl.count '*' ≤ ap.length)
    (hfuel : fl.length < fuel) (s : Spec) : FlagsRead m fuel s ap p fl tail := by
  induction fuel generalizing fl s ap p with
  | zero => exact absurd hfuel (Nat.not_lt_zero _)
  | succ fuel ih =>
      cases fl with
      | nil => exact ⟨s, rfl, flagChars_stop htail, flagLoop_stop h htail⟩
      | cons c fl =>
          obtain ⟨hc, hflags⟩ := List.forall_mem_cons.mp hfl
          have hlen : fl.length < fuel := Nat.lt_of_succ_lt_succ hfuel
          have hfetch : fetch m p = pure c := h.fetch_eq
          have hone : c ≠ '*' → ∀ s₁, FlagsRead m fuel s₁ ap (p + 1) fl tail := by
            intro hne s₁
            rw [List.count_cons_of_ne hne] at hap
            exact ih h.next hflags hap hlen s₁
          rcases hc with rfl | rfl | rfl | rfl | rfl | hdigit
          · refine (hone (by decide) { s with padc := '-' }).cons (by decide) rfl rfl ?_
            rw [flagLoop, hfetch, pure_bind]
            rfl
          · cases ap with
            | nil => simp at hap
            | cons n ap =>
                rw [List.count_cons_self, List.length_cons] at hap
                refine FlagsRead.append (g := ['*']) (s.processPrecision n.toInt)
                  (ih h.next hflags (Nat.le_of_succ_le_succ hap) hlen _)
                  (s.processPrecision_lflag _) rfl ?_
                rw [flagLoop, hfetch, pure_bind]
                rfl
          · refine (hone (by decide)
              { s with width := if s.width < 0 then 0 else s.width }).cons (by decide) rfl rfl ?_
            rw [flagLoop, hfetch, pure_bind]
            rfl
          · refine (hone (by decide) { s with altflag := true }).cons (by decide) rfl rfl ?_
            rw [flagLoop, hfetch, pure_bind]
            rfl
          · refine (hone (by decide) { s with lflag := s.lflag + 1 }).cons (by decide) rfl rfl ?_
            rw [flagLoop, hfetch, pure_bind]
            rfl
          · by_cases hzero : c = '0'
            · subst hzero
              refine (hone (by decide) { s with padc := '0' }).cons (by decide) rfl rfl ?_
              rw [flagLoop, hfetch, pure_bind]
              rfl
            · -- a width takes all digits that follow
              have hnine : '1' ≤ c ∧ c ≤ '9' := ⟨one_le_of_ne_zero hdigit.1 hzero, hdigit.2⟩
              obtain ⟨ds, fl', hsplit, hds, hhead⟩ := exists_digits_prefix fl
              have hends : ¬ ('0' ≤ (fl' ++ tail).headD '\x00' ∧
                  (fl' ++ tail).headD '\x00' ≤ '9') := by
                cases fl' with
                | nil => exact fun hd ↦ htail (.inr (.inr (.inr (.inr (.inr hd)))))
                | cons x fl' => exact hhead
              subst hsplit
              have hfmt : FmtAt m p (c :: ds ++ (fl' ++ tail)) := by
                rw [← List.append_assoc]
                exact h
              have hne : c ≠ '*' := by
                rintro rfl
                exact absurd hdigit (by decide)
              rw [List.count_cons_of_ne hne, List.count_append] at hap
              rw [List.length_append] at hlen
              refine FlagsRead.digits hfmt hnine hds hends (by omega) fun s₁ ↦ ?_
              exact ih hfmt.drop (fun x hx ↦ hflags x (List.mem_append_right _ hx)) (by omega)
                (by omega) s₁

/-- The way back over flags ends at the `%`. -/
theorem backUp_eq (h : FmtAt m p ('%' :: (fl ++ tail))) (hfl : ∀ c ∈ fl, IsFlag c) {k : ℕ}
    (hk : k ≤ fl.length) (hfuel : k < fuel) : backUp m fuel (p + 1 + k) = pure (p + 1) := by
  induction k generalizing fuel with
  | zero =>
      obtain ⟨fuel, rfl⟩ : ∃ k, fuel = k + 1 := ⟨fuel - 1, by omega⟩
      show backUp m (fuel + 1) (p + 1) = _
      rw [backUp, h.fetch_eq, pure_bind]
      rfl
  | succ k ih =>
      obtain ⟨fuel, rfl⟩ : ∃ k, fuel = k + 1 := ⟨fuel - 1, by omega⟩
      obtain ⟨xs, c, ys, rfl, hlen⟩ : ∃ xs c ys, fl = xs ++ c :: ys ∧ xs.length = k :=
        ⟨fl.take k, fl.get ⟨k, hk⟩, fl.drop (k + 1), by simp, by simp; omega⟩
      have hchar : fetch m (p + 1 + k) = pure c := by
        have hrest : FmtAt m p (('%' :: xs) ++ (c :: ys ++ tail)) := by simpa using h
        have hdrop := hrest.drop.fetch_eq
        rwa [List.length_cons, hlen, Nat.add_comm k, ← Nat.add_assoc] at hdrop
      have hne : c ≠ '%' := ne_percent_of_isFlag (hfl c (by simp))
      show backUp m (fuel + 1) (p + 1 + k + 1) = _
      rw [backUp, hchar, pure_bind]
      refine (if_neg hne).trans ?_
      exact ih (by omega) (by omega)

/-! ## Escape sequences -/

variable (rd : Word → Option (BitVec 8)) (L : List PrintEv)

/-- An unknown escape sequence: the `%` is printed, and the scan goes on after it. -/
theorem run_unknown (h : FmtAt m p ('%' :: (fl ++ tail))) (hfl : ∀ c ∈ fl, IsFlag c)
    (htail : ¬ IsFlag (tail.headD '\x00')) (hconv : ¬ IsConv (tail.headD '\x00'))
    (hap : fl.count '*' ≤ ap.length) (hfuel : fl.length < fuel) :
    (vprintfmtAt m rd (fuel + 1) p ap).run L =
        (vprintfmtAt m rd fuel (p + 1) (ap.drop (fl.count '*'))).run (written ['%'] L) ∧
      (vprintfmt rd (fuel + 1) ('%' :: (fl ++ tail)) ap).run L =
        (vprintfmt rd fuel (fl ++ tail) (ap.drop (fl.count '*'))).run (written ['%'] L) := by
  obtain ⟨s, -, hchars, hloop⟩ := flags_spec h.next hfl htail hap hfuel {}
  have hnone : conversion rd (tail.headD '\x00') s (ap.drop (fl.count '*')) = none := by
    rw [← Option.not_isSome_iff_eq_none, isSome_conversion_iff]
    exact hconv
  constructor
  · rw [vprintfmtAt, h.fetch_eq, pure_bind]
    refine (congrArg (fun x : Print Unit ↦ x.run L) (if_pos rfl)).trans ?_
    rw [hloop, pure_bind]
    dsimp only
    rw [hnone]
    dsimp only
    rw [Emits.run_bind (Emits.putChar '%'), Nat.add_sub_cancel, backUp_eq h hfl le_rfl hfuel,
      pure_bind]
  · rw [vprintfmt_percent, hchars, pure_bind]
    dsimp only
    rw [hnone]
    exact Emits.run_bind (Emits.putChar '%') _ L

/-- A known escape sequence. -/
theorem run_known (h : FmtAt m p ('%' :: (fl ++ c :: tail))) (hfl : ∀ c ∈ fl, IsFlag c)
    (hc : ¬ IsFlag c) (hap : fl.count '*' ≤ ap.length) {ap' : List Word}
    (hconv : ∀ s : Spec, s.lflag = fl.count 'l' → ∃ x,
      conversion rd c s (ap.drop (fl.count '*')) = some x ∧
        ∀ L, ∃ L', x.run L = (some ap', L')) : ∃ L', ∀ fuel, fl.length < fuel →
    (vprintfmtAt m rd (fuel + 1) p ap).run L =
        (vprintfmtAt m rd fuel (p + 1 + fl.length + 1) ap').run L' ∧
      (vprintfmt rd (fuel + 1) ('%' :: (fl ++ c :: tail)) ap).run L =
        (vprintfmt rd fuel tail ap').run L' := by
  have hstop : ¬ IsFlag ((c :: tail).headD '\x00') := hc
  obtain ⟨s, hl, hchars, -⟩ := flags_spec h.next hfl hstop hap (Nat.lt_succ_self _) {}
  obtain ⟨x, hx, hrun⟩ := hconv s (hl.trans (Nat.zero_add _))
  obtain ⟨L', hL⟩ := hrun L
  refine ⟨L', fun fuel hfuel ↦ ?_⟩
  obtain ⟨s₁, -, hchars₁, hloop⟩ := flags_spec h.next hfl hstop hap hfuel {}
  -- the flags do not depend on the number of rounds
  obtain rfl : s = s₁ := by
    have hinj := pure_print_inj (hchars.symm.trans hchars₁)
    exact (Prod.mk.inj (Prod.mk.inj hinj).2).1
  constructor
  · rw [vprintfmtAt, h.fetch_eq, pure_bind]
    refine (congrArg (fun x : Print Unit ↦ x.run L) (if_pos rfl)).trans ?_
    rw [hloop, pure_bind]
    dsimp only [List.headD_cons]
    rw [hx]
    dsimp only
    rw [run_bind, hL]
  · rw [vprintfmt_percent, hchars, pure_bind]
    dsimp only [List.headD_cons]
    rw [hx]
    dsimp only
    rw [run_bind, hL]
    rfl

theorem charOf_ne_nul {b : BitVec 8} (h : b ≠ 0) : charOf b ≠ '\x00' := by
  have hall : ∀ b : BitVec 8, b ≠ 0 → charOf b ≠ '\x00' := by decide
  exact hall b h

theorem FmtAt.ne_nul (h : FmtAt m p fmt) : ∀ c ∈ fmt, c ≠ '\x00' := by
  obtain ⟨cs, hm, rfl⟩ := h
  intro c hc
  obtain ⟨b, hb, rfl⟩ := List.mem_map.mp hc
  exact charOf_ne_nul (hm.ne_zero b hb)

/-- Ordinary characters are printed. -/
theorem run_text (fuel : ℕ) (ap : List Word) {w : List Char} (h : FmtAt m p (w ++ fmt))
    (hw : ∀ c ∈ w, c ≠ '%') :
    (vprintfmtAt m rd (fuel + w.length) p ap).run L =
        (vprintfmtAt m rd fuel (p + w.length) ap).run (written w L) ∧
      (vprintfmt rd (fuel + w.length) (w ++ fmt) ap).run L =
        (vprintfmt rd fuel fmt ap).run (written w L) := by
  induction w generalizing p L with
  | nil => exact ⟨rfl, rfl⟩
  | cons c w ih =>
      obtain ⟨hc, hw⟩ := List.forall_mem_cons.mp hw
      have hnul : c ≠ '\x00' := h.ne_nul c (by simp)
      obtain ⟨hat, hlist⟩ := ih (written [c] L) h.next hw
      rw [← written_append] at hat hlist
      constructor
      · have hstep : (vprintfmtAt m rd (fuel + w.length + 1) p ap).run L =
            (vprintfmtAt m rd (fuel + w.length) (p + 1) ap).run (written [c] L) := by
          rw [vprintfmtAt, h.fetch_eq, pure_bind]
          refine (congrArg (fun x : Print Unit ↦ x.run L) (if_neg hc)).trans ?_
          refine (congrArg (fun x : Print Unit ↦ x.run L) (if_neg hnul)).trans ?_
          exact Emits.run_bind (Emits.putChar c) _ L
        refine hstep.trans (hat.trans ?_)
        rw [List.length_cons, Nat.add_assoc, Nat.add_comm 1]
        rfl
      · exact (run_vprintfmt_char hc L).trans hlist

/-- An unknown escape sequence is printed, and the scan goes on after it. -/
theorem run_echo (h : FmtAt m p ('%' :: (fl ++ tail))) (hfl : ∀ c ∈ fl, IsFlag c)
    (htail : ¬ IsFlag (tail.headD '\x00')) (hconv : ¬ IsConv (tail.headD '\x00'))
    (hap : fl.count '*' ≤ ap.length) (hfuel : (fl ++ tail).length < fuel) :
    (vprintfmtAt m rd (fuel + 1) p ap).run L =
        (vprintfmtAt m rd (fuel - (fl ++ tail.take 1).length)
          (p + 1 + (fl ++ tail.take 1).length)
          (ap.drop (fl.count '*'))).run (written ('%' :: (fl ++ tail.take 1)) L) ∧
      (vprintfmt rd (fuel + 1) ('%' :: (fl ++ tail)) ap).run L =
        (vprintfmt rd (fuel - (fl ++ tail.take 1).length) (tail.drop 1)
          (ap.drop (fl.count '*'))).run (written ('%' :: (fl ++ tail.take 1)) L) := by
  have hsplit : fl ++ tail = (fl ++ tail.take 1) ++ tail.drop 1 := by
    rw [List.append_assoc, List.take_append_drop]
  have hw : ∀ c ∈ fl ++ tail.take 1, c ≠ '%' := by
    intro c hc
    rcases List.mem_append.mp hc with hc | hc
    · exact ne_percent_of_isFlag (hfl c hc)
    · cases tail with
      | nil => cases hc
      | cons x tail =>
          obtain rfl : c = x := by simpa using hc
          rintro rfl
          exact hconv (by decide : IsConv '%')
  have hle : (fl ++ tail.take 1).length ≤ (fl ++ tail).length := by
    rw [List.length_append, List.length_append, List.length_take]
    omega
  have hlen : fl.length < fuel := by
    rw [List.length_append] at hfuel
    omega
  obtain ⟨hat, hlist⟩ := run_unknown rd L h hfl htail hconv hap hlen
  have hrest := h.next
  rw [hsplit] at hrest
  obtain ⟨hat', hlist'⟩ := run_text rd (written ['%'] L)
    (fuel - (fl ++ tail.take 1).length) (ap.drop (fl.count '*')) hrest hw
  rw [Nat.sub_add_cancel (by omega), ← written_append] at hat' hlist'
  rw [← hsplit] at hlist'
  exact ⟨hat.trans hat', hlist.trans hlist'⟩

end

/-! ## Arguments -/

section

variable {α : Type} {x : Print α} {a : α}

theorem Returns.of_emits {w : List Char} (h : Emits x w a) : Returns x a := fun L ↦ ⟨_, h L⟩

theorem Returns.putch (ch : Word) : Returns (putch ch) () := fun L ↦ ⟨.put ch :: L, rfl⟩

end

/-- The bytes from `p` on can be loaded up to a NUL at index `k`. -/
def StringAt (load : Word → Print (BitVec 8)) (p : Word) (k : ℕ) : Prop :=
  (∀ j < k, ∃ b, Returns (load (p + BitVec.ofNat 32 j)) b) ∧
    Returns (load (p + BitVec.ofNat 32 k)) 0

section

variable {load : Word → Print (BitVec 8)} {p : Word} {k fuel : ℕ}

theorem StringAt.next (h : StringAt load p (k + 1)) :
    (∃ b, Returns (load p) b) ∧ StringAt load (p + 1) k := by
  have hzero : p + BitVec.ofNat 32 0 = p := by simp
  refine ⟨hzero ▸ h.1 0 (Nat.succ_pos k), fun j hj ↦ ?_, ?_⟩
  · rw [add_one_ofNat]
    exact h.1 (j + 1) (Nat.succ_lt_succ hj)
  · rw [add_one_ofNat]
    exact h.2

theorem StringAt.head (h : StringAt load p 0) : Returns (load p) 0 := by
  have hzero : p + BitVec.ofNat 32 0 = p := by simp
  exact hzero ▸ h.2

theorem Returns.strnlen (h : StringAt load p k) (hfuel : k < fuel) (size : ℕ) (n : Int) :
    ∃ n', Returns (strnlen load fuel p size n) n' := by
  induction fuel generalizing p k size n with
  | zero => exact absurd hfuel (Nat.not_lt_zero _)
  | succ fuel ih =>
      cases size with
      | zero => exact ⟨n, Returns.pure n⟩
      | succ size =>
          rw [Printfmt.strnlen]
          cases k with
          | zero => exact ⟨n, h.head.bind (Returns.pure n)⟩
          | succ k =>
              obtain ⟨⟨b, hb⟩, hnext⟩ := h.next
              by_cases hz : b = 0
              · refine ⟨n, hb.bind ?_⟩
                rw [if_pos hz]
                exact Returns.pure n
              · obtain ⟨n', hn'⟩ := ih hnext (Nat.lt_of_succ_lt_succ hfuel) size (n + 1)
                refine ⟨n', hb.bind ?_⟩
                rw [if_neg hz]
                exact hn'

theorem Returns.putString (h : StringAt load p k) (hfuel : k < fuel) (alt : Bool)
    (precision width : Int) : ∃ w, Returns (putString load alt fuel p precision width) w := by
  induction fuel generalizing p k precision width with
  | zero => exact absurd hfuel (Nat.not_lt_zero _)
  | succ fuel ih =>
      rw [Printfmt.putString]
      cases k with
      | zero => exact ⟨width, h.head.bind (Returns.pure width)⟩
      | succ k =>
          obtain ⟨⟨b, hb⟩, hnext⟩ := h.next
          by_cases hz : b = 0
          · refine ⟨width, hb.bind ?_⟩
            rw [if_pos hz]
            exact Returns.pure width
          · obtain ⟨precision', hprec⟩ : ∃ n,
                n = if precision < 0 then precision else precision - 1 :=
              ⟨_, rfl⟩
            obtain ⟨w, hw⟩ := ih hnext (Nat.lt_of_succ_lt_succ hfuel) precision' (width - 1)
            by_cases hput : precision < 0 ∨ 0 ≤ precision'
            · refine ⟨w, hb.bind ?_⟩
              rw [if_neg hz, ← hprec]
              simp only [hput, if_true]
              split
              · exact (Returns.putch _).bind hw
              · exact (Returns.putch _).bind hw
            · refine ⟨width, hb.bind ?_⟩
              rw [if_neg hz, ← hprec]
              simp only [hput, if_false]
              exact Returns.pure width

/-- `%s` comes to its end for a string with a NUL. -/
theorem Returns.fmtString (h : StringAt load p k) (hk : k < 2 ^ 32) (s : Spec) :
    Returns (fmtString load s p) () := by
  have hfuel : k < strFuel := hk.trans (Nat.lt_succ_self _)
  have hright : ∀ width, Returns (do
      let width ← Printfmt.putString load s.altflag strFuel p s.precision width
      pad ' ' width.toNat) () := by
    intro width
    obtain ⟨w, hw⟩ := Returns.putString h hfuel s.altflag s.precision width
    exact hw.bind (Returns.of_emits (Emits.pad ' ' w.toNat))
  rw [Printfmt.fmtString]
  split
  · obtain ⟨n, hn⟩ := Returns.strnlen h hfuel (BitVec.ofInt 32 s.precision).toNat 0
    exact hn.bind ((Returns.of_emits (Emits.pad _ _)).bind (hright _))
  · exact hright _

theorem stringAt_loadLit {cs : List Char} (hcs : cs.length < 2 ^ 32) :
    StringAt (loadLit cs) 0 cs.length := by
  refine ⟨fun j _ ↦ ⟨_, Returns.pure _⟩, ?_⟩
  have hlast : (0 + BitVec.ofNat 32 cs.length).toNat = cs.length := by
    rw [BitVec.toNat_add, BitVec.toNat_ofNat, Nat.mod_eq_of_lt hcs]
    exact (Nat.zero_add _).symm ▸ Nat.mod_eq_of_lt hcs
  rw [loadLit, hlast, List.getElem?_eq_none (le_refl _)]
  exact Returns.pure 0

theorem Returns.printnum {base : ℕ} (hbase : 8 ≤ base) (hle : base ≤ 16) (padc : Char) {num : ℕ}
    (hnum : num < 2 ^ 64) (width : Int) : Returns (printnum base padc 64 num width) () :=
  Returns.of_emits (Emits.printnum (by omega) hle padc
    (hnum.trans_le (Nat.pow_le_pow_left (by omega) 64)) (by decide) width)

theorem Returns.fmtInt (s : Spec) (num : BitVec 64) : Returns (fmtInt s num) () := by
  rw [Printfmt.fmtInt]
  split
  · exact (Returns.putch _).bind (Returns.printnum (by decide) (by decide) _ (-num).isLt _)
  · exact Returns.printnum (by decide) (by decide) _ num.isLt _

theorem Returns.forM_putChar (cs : List Char) : Returns (cs.forM putChar) () := by
  induction cs with
  | nil => exact Returns.pure ()
  | cons c cs ih => exact (Returns.putch _).bind ih

theorem length_errorString {n : ℕ} {t : String} (h : errorString n = some t) :
    t.toList.length < 2 ^ 32 := by
  unfold errorString at h
  split at h
  case h_9 => cases h
  all_goals
    obtain rfl := Option.some.inj h
    decide

theorem Returns.fmtError (err : Word) : Returns (fmtError err) () := by
  rw [Printfmt.fmtError]
  split
  · next t ht =>
      exact Returns.fmtString (stringAt_loadLit (length_errorString ht)) (length_errorString ht) _
  · exact (Returns.forM_putChar _).bind (Returns.fmtInt _ _)

end

/-- `p` points to a string with a NUL. -/
def NulAfter (rd : Word → Option (BitVec 8)) (p : Word) : Prop :=
  ∃ k < 2 ^ 32, rd (p + BitVec.ofNat 32 k) = some 0 ∧
    ∀ j < k, (rd (p + BitVec.ofNat 32 j)).isSome

/-- The arguments of a conversion with `lflag`, and the ones after them. -/
inductive Takes (rd : Word → Option (BitVec 8)) : Char → ℕ → List Word → List Word → Prop
  | char (l : ℕ) (a : Word) (ap : List Word) : Takes rd 'c' l (a :: ap) ap
  | error (l : ℕ) (err : Word) (ap : List Word) : Takes rd 'e' l (err :: ap) ap
  | pointer (l : ℕ) (a : Word) (ap : List Word) : Takes rd 'p' l (a :: ap) ap
  | string (l : ℕ) {p : Word} (str : p = 0 ∨ NulAfter rd p) (ap : List Word) :
      Takes rd 's' l (p :: ap) ap
  | int {c : Char} (conv : c ∈ ['d', 'u', 'o', 'x']) {l : ℕ} (lt : l < 2) (a : Word)
      (ap : List Word) : Takes rd c l (a :: ap) ap
  | longLong {c : Char} (conv : c ∈ ['d', 'u', 'o', 'x']) {l : ℕ} (le : 2 ≤ l) (lo hi : Word)
      (ap : List Word) : Takes rd c l (lo :: hi :: ap) ap
  | percent (l : ℕ) (ap : List Word) : Takes rd '%' l ap ap

/-- The arguments are enough for the format. -/
inductive Fed (rd : Word → Option (BitVec 8)) : List Char → List Word → Prop
  | nil (ap : List Word) : Fed rd [] ap
  | char {c : Char} (ne : c ≠ '%') {fmt : List Char} {ap : List Word} (rest : Fed rd fmt ap) :
      Fed rd (c :: fmt) ap
  | known {fl tail : List Char} {c : Char} {ap ap' : List Word} (flags : ∀ c ∈ fl, IsFlag c)
      (stop : ¬ IsFlag c) (stars : fl.count '*' ≤ ap.length)
      (takes : Takes rd c (fl.count 'l') (ap.drop (fl.count '*')) ap') (rest : Fed rd tail ap') :
      Fed rd ('%' :: (fl ++ c :: tail)) ap
  | unknown {fl tail : List Char} {ap : List Word} (flags : ∀ c ∈ fl, IsFlag c)
      (stop : ¬ IsFlag (tail.headD '\x00')) (conv : ¬ IsConv (tail.headD '\x00'))
      (stars : fl.count '*' ≤ ap.length) (rest : Fed rd (tail.drop 1) (ap.drop (fl.count '*'))) :
      Fed rd ('%' :: (fl ++ tail)) ap

section

variable {rd : Word → Option (BitVec 8)} {s : Spec} {ap ap' : List Word} {c : Char}
  {fmt : List Char}

theorem NulAfter.returns {p : Word} (h : NulAfter rd p) (s : Spec) :
    Returns (fmtString (loadMem rd) s p) () := by
  obtain ⟨k, hk, hnul, hbytes⟩ := h
  have hload : ∀ {a b}, rd a = some b → Returns (loadMem rd a) b := fun hb L ↦
    ⟨.load _ :: L, by rw [run_loadMem, hb]⟩
  refine Returns.fmtString ⟨fun j hj ↦ ?_, hload hnul⟩ hk s
  obtain ⟨b, hb⟩ := Option.isSome_iff_exists.mp (hbytes j hj)
  exact ⟨b, hload hb⟩

/-- The conversion `d` -/
theorem returns_signed {v : BitVec 64} (s : Spec) (hint : getint s.lflag ap = pure (v, ap')) :
    Returns (do
      let (num, ap) ← getint s.lflag ap
      fmtInt s num
      return ap) ap' := by
  rw [hint, pure_bind]
  exact (Returns.fmtInt s v).bind (Returns.pure ap')

/-- The conversions without a sign -/
theorem returns_unsigned {u : BitVec 64} (s : Spec) (huint : getuint s.lflag ap = pure (u, ap'))
    {base : ℕ} (h8 : 8 ≤ base) (h16 : base ≤ 16) :
    Returns (do
      let (num, ap) ← getuint s.lflag ap
      printnum base s.padc 64 num.toNat s.width
      return ap) ap' := by
  rw [huint, pure_bind]
  exact (Returns.printnum h8 h16 _ u.isLt _).bind (Returns.pure ap')

/-- With its arguments a conversion comes to its end. -/
theorem Takes.returns (h : Takes rd c s.lflag ap ap') :
    ∃ x, conversion rd c s ap = some x ∧ Returns x ap' := by
  have hnum : ∀ c ∈ ['d', 'u', 'o', 'x'], ∀ v : BitVec 64,
      getint s.lflag ap = pure (v, ap') → (∃ u : BitVec 64, getuint s.lflag ap = pure (u, ap')) →
      ∃ x, conversion rd c s ap = some x ∧ Returns x ap' := by
    rintro c hc v hint ⟨u, huint⟩
    simp only [List.mem_cons, List.not_mem_nil, or_false] at hc
    rcases hc with rfl | rfl | rfl | rfl
    · exact ⟨_, rfl, returns_signed s hint⟩
    · exact ⟨_, rfl, returns_unsigned s huint (by decide) (by decide)⟩
    · exact ⟨_, rfl, returns_unsigned s huint (by decide) (by decide)⟩
    · exact ⟨_, rfl, returns_unsigned s huint (by decide) (by decide)⟩
  generalize hl : s.lflag = l at h
  cases h with
  | char _ a =>
      have hput : Returns (do
          putch a
          return ap') ap' := (Returns.putch a).bind (Returns.pure ap')
      exact ⟨_, rfl, hput⟩
  | error _ err => exact ⟨_, rfl, (Returns.fmtError err).bind (Returns.pure ap')⟩
  | pointer _ a =>
      have ha : a.toNat < 2 ^ 64 := a.isLt.trans (by decide)
      exact ⟨_, rfl, (Returns.putch _).bind ((Returns.putch _).bind
        ((Returns.printnum (by decide) (by decide) _ ha _).bind (Returns.pure ap')))⟩
  | @string _ p str =>
      refine ⟨_, rfl, ?_⟩
      rcases str with rfl | str
      · exact (Returns.fmtString (stringAt_loadLit (by decide)) (by decide) s).bind
          (Returns.pure ap')
      · by_cases hp : p = 0
        · subst hp
          exact (Returns.fmtString (stringAt_loadLit (by decide)) (by decide) s).bind
            (Returns.pure ap')
        · show Returns (if p = 0 then _ else _) ap'
          rw [if_neg hp]
          exact (str.returns s).bind (Returns.pure ap')
  | int conv lt a =>
      have hlt : ¬ 2 ≤ s.lflag := by omega
      refine hnum c conv (a.signExtend 64) ?_ ⟨a.zeroExtend 64, ?_⟩
      · exact if_neg hlt
      · exact if_neg hlt
  | longLong conv le lo hi =>
      have hle : 2 ≤ s.lflag := hl.symm ▸ le
      refine hnum c conv (hi ++ lo) ?_ ⟨hi ++ lo, ?_⟩
      · exact if_pos hle
      · exact if_pos hle
  | percent => exact ⟨_, rfl, (Returns.putch _).bind (Returns.pure _)⟩

/-- With enough arguments both scans come to their end, and do the same. -/
theorem Fed.returns (h : Fed rd fmt ap) {m : Text} {p : ℕ} (hm : FmtAt m p fmt)
    (L : List PrintEv) : ∃ L', ∀ fuel, fmt.length < fuel →
      (vprintfmtAt m rd fuel p ap).run L = (some (), L') ∧
        (vprintfmt rd fuel fmt ap).run L = (some (), L') := by
  induction h generalizing p L with
  | nil ap =>
      refine ⟨L, fun fuel hfuel ↦ ?_⟩
      obtain ⟨fuel, rfl⟩ : ∃ k, fuel = k + 1 := ⟨fuel - 1, by omega⟩
      rw [vprintfmtAt, hm.fetch_eq, pure_bind]
      exact ⟨rfl, rfl⟩
  | @char c hne fmt ap hrest ih =>
      obtain ⟨L', hL⟩ := ih hm.next (written [c] L)
      refine ⟨L', fun fuel hfuel ↦ ?_⟩
      obtain ⟨fuel, rfl⟩ : ∃ k, fuel = k + 1 := ⟨fuel - 1, by omega⟩
      obtain ⟨hat, hlist⟩ := run_text rd L fuel ap (show FmtAt m p ([c] ++ fmt) from hm)
        (by simpa using hne)
      obtain ⟨hat', hlist'⟩ := hL fuel (Nat.lt_of_succ_lt_succ hfuel)
      exact ⟨hat.trans hat', hlist.trans hlist'⟩
  | @known fl tail c ap ap' hfl hc hap htakes hrest ih =>
      obtain ⟨L₁, hL₁⟩ := run_known rd L hm hfl hc hap fun s hs ↦ (hs ▸ htakes).returns
      have hnext : FmtAt m (p + 1 + fl.length + 1) tail := hm.next.drop.next
      obtain ⟨L', hL⟩ := ih hnext L₁
      refine ⟨L', fun fuel hfuel ↦ ?_⟩
      obtain ⟨fuel, rfl⟩ : ∃ k, fuel = k + 1 := ⟨fuel - 1, by omega⟩
      rw [List.length_cons, List.length_append, List.length_cons] at hfuel
      obtain ⟨hat, hlist⟩ := hL₁ fuel (by omega)
      obtain ⟨hat', hlist'⟩ := hL fuel (by omega)
      exact ⟨hat.trans hat', hlist.trans hlist'⟩
  | @unknown fl tail ap hfl htail hconv hap hrest ih =>
      have hsplit : fl ++ tail = (fl ++ tail.take 1) ++ tail.drop 1 := by
        rw [List.append_assoc, List.take_append_drop]
      have hnext : FmtAt m (p + 1 + (fl ++ tail.take 1).length) (tail.drop 1) := by
        have hrest := hm.next
        rw [hsplit] at hrest
        exact hrest.drop
      obtain ⟨L', hL⟩ := ih hnext (written ('%' :: (fl ++ tail.take 1)) L)
      refine ⟨L', fun fuel hfuel ↦ ?_⟩
      obtain ⟨fuel, rfl⟩ : ∃ k, fuel = k + 1 := ⟨fuel - 1, by omega⟩
      have hlen : (fl ++ tail).length < fuel := Nat.lt_of_succ_lt_succ hfuel
      obtain ⟨hat, hlist⟩ := run_echo rd L hm hfl htail hconv hap hlen
      have hlen' : (tail.drop 1).length < fuel - (fl ++ tail.take 1).length := by
        rw [hsplit, List.length_append] at hlen
        omega
      obtain ⟨hat', hlist'⟩ := hL _ hlen'
      exact ⟨hat.trans hat', hlist.trans hlist'⟩

end

/-- Wherever the scan meets an unknown escape sequence, it prints the sequence, up to and with its
last character, and goes on after it. -/
def Echoes (m : Text) (rd : Word → Option (BitVec 8)) (p : ℕ) (fmt : List Char) : Prop :=
  ∀ xs fl tail : List Char, fmt = xs ++ '%' :: (fl ++ tail) → (∀ c ∈ fl, IsFlag c) →
    ¬ IsFlag (tail.headD '\x00') → ¬ IsConv (tail.headD '\x00') →
    ∀ fuel ap L, fl.count '*' ≤ ap.length → (fl ++ tail).length < fuel →
      (vprintfmtAt m rd (fuel + 1) (p + xs.length) ap).run L =
        (vprintfmtAt m rd (fuel - (fl ++ tail.take 1).length)
          (p + xs.length + 1 + (fl ++ tail.take 1).length)
          (ap.drop (fl.count '*'))).run (written ('%' :: (fl ++ tail.take 1)) L)

/-- For a format with enough arguments the scan comes to its end, reads nothing but the string, does
the same as the one over the list of its characters, and echoes unknown escape sequences. -/
theorem vprintfmt_terminates {m : Text} {p : ℕ} {cs : List (BitVec 8)} (hm : CStr m p cs)
    {rd : Word → Option (BitVec 8)} {ap : List Word} (hap : Fed rd (cs.map charOf) ap) :
    (∃ L, ∀ fuel, cs.length < fuel →
      (vprintfmtAt (strAt m p) rd fuel p ap).run [] = (some (), L) ∧
        (vprintfmt rd fuel (cs.map charOf) ap).run [] = (some (), L)) ∧
      Echoes (strAt m p) rd p (cs.map charOf) := by
  have hfmt : FmtAt (strAt m p) p (cs.map charOf) := ⟨cs, hm.cstr_strAt, rfl⟩
  constructor
  · obtain ⟨L, hL⟩ := hap.returns hfmt []
    exact ⟨L, fun fuel hfuel ↦ hL fuel (by rwa [List.length_map])⟩
  · intro xs fl tail heq hfl htail hconv fuel ap L hstars hfuel
    rw [heq] at hfmt
    exact (run_echo rd L hfmt.drop hfl htail hconv hstars hfuel).1

/-- `"%-5q%d"`: the first directive is unknown, the second one takes an argument. -/
theorem vprintfmt_terminates_demo :
    (∃ L, ∀ fuel, 6 < fuel →
      (vprintfmtAt (strAt (onlyStr (bytes "%-5q%d")) 0) (fun _ ↦ none) fuel 0 [7]).run [] =
          (some (), L) ∧
        (vprintfmt (fun _ ↦ none) fuel ((bytes "%-5q%d").map charOf) [7]).run [] =
          (some (), L)) ∧
      Echoes (strAt (onlyStr (bytes "%-5q%d")) 0) (fun _ ↦ none) 0
        ((bytes "%-5q%d").map charOf) := by
  have hnul : ∀ c ∈ bytes "%-5q%d", c ≠ 0 := by simp [bytes, chr]
  have hlist : (bytes "%-5q%d").map charOf = '%' :: (['-', '5'] ++ ['q', '%', 'd']) := by decide
  refine vprintfmt_terminates (cstr_onlyStr hnul) ?_
  rw [hlist]
  refine .unknown (by simp [IsFlag]) (by decide) (by decide) (by decide) ?_
  have hint : Fed (fun _ ↦ none) ('%' :: ([] ++ 'd' :: [])) [7] :=
    .known (List.forall_mem_nil _) (by decide) (by decide)
      (.int (by decide) (by decide) 7 []) (.nil [])
  exact hint

end Jos.Printfmt
