import Jos.Libc.Padding
import Jos.Libc.String

/-!
# Reading a printed number back

`strtol` reads the numeral that `vprintfmt` writes, up to the first character that is neither a
digit nor a letter.  A `long` has 32 bits, so that a minus sign undoes the negation of `%d` also for
the least number.
-/

namespace Jos

open Jos.Lib Printfmt

/-- `c` is a digit or a letter. -/
def IsAlnum (c : BitVec 8) : Prop :=
  chr '0' ≤ c ∧ c ≤ chr '9' ∨ chr 'a' ≤ c ∧ c ≤ chr 'z' ∨ chr 'A' ≤ c ∧ c ≤ chr 'Z'

/-- The ways to print a number, and the base to read it back. -/
def printings : List (String × ℕ) :=
  [("%d", 10), ("%u", 10), ("%o", 8), ("%x", 16), ("0x%x", 0), ("0x%x", 16)]

section

variable {base n : ℕ} {rest : List (BitVec 8)}

theorem strtolDig_of_not_isAlnum {c : BitVec 8} (hc : ¬ IsAlnum c) : strtolDig c = none := by
  obtain ⟨hdigit, hc⟩ := not_or.mp hc
  obtain ⟨hlower, hupper⟩ := not_or.mp hc
  rw [strtolDig, if_neg hdigit, if_neg hlower, if_neg hupper]

/-- Digits of the printed numeral are read as digits. -/
theorem strtolDig_digitChar {d : ℕ} (hd : d < 16) : strtolDig (chr (Nat.digitChar d)) = some d := by
  have hall : ∀ d < 16, strtolDig (chr (Nat.digitChar d)) = some d := by decide
  exact hall d hd

/-- A digit is no blank, no sign and no prefix. -/
theorem chr_digitChar_ne {d : ℕ} (hd : d < 16) : chr (Nat.digitChar d) ≠ chr ' ' ∧
    chr (Nat.digitChar d) ≠ chr '\t' ∧ chr (Nat.digitChar d) ≠ chr '-' ∧
      chr (Nat.digitChar d) ≠ chr '+' ∧ chr (Nat.digitChar d) ≠ chr 'x' := by
  have hall : ∀ d < 16, chr (Nat.digitChar d) ≠ chr ' ' ∧
      chr (Nat.digitChar d) ≠ chr '\t' ∧ chr (Nat.digitChar d) ≠ chr '-' ∧
        chr (Nat.digitChar d) ≠ chr '+' ∧ chr (Nat.digitChar d) ≠ chr 'x' := by decide
  exact hall d hd

theorem strtolNumeral_digits {ds : List ℕ} (hds : ∀ d ∈ ds, d < base) (hle : base ≤ 16)
    (hrest : ¬ IsAlnum (rest.headD 0)) :
    strtolNumeral base (ds.map (chr ∘ Nat.digitChar) ++ rest) = ds := by
  induction ds with
  | nil =>
      cases rest with
      | nil => rfl
      | cons c rest =>
          have hc : strtolDig c = none := strtolDig_of_not_isAlnum hrest
          rw [List.map_nil, List.nil_append, strtolNumeral, hc]
  | cons d ds ih =>
      obtain ⟨hd, hds⟩ := List.forall_mem_cons.mp hds
      have hdig : strtolDig ((chr ∘ Nat.digitChar) d) = some d :=
        strtolDig_digitChar (hd.trans_le hle)
      rw [List.map_cons, List.cons_append, strtolNumeral, hdig]
      simp only [Nat.not_le.mpr hd, if_false, ih hds]

/-- The value is computed modulo 2^32. -/
theorem strtolNumber_ofNat (v : ℕ) (ds : List ℕ) :
    strtolNumber base (BitVec.ofNat 32 v) ds =
      BitVec.ofNat 32 (ds.foldl (fun v d ↦ base * v + d) v) := by
  induction ds generalizing v with
  | nil => rfl
  | cons d ds ih =>
      have hstep : BitVec.ofNat 32 v * BitVec.ofNat 32 base + BitVec.ofNat 32 d =
          BitVec.ofNat 32 (base * v + d) := by
        rw [Nat.mul_comm, BitVec.ofNat_add, BitVec.ofNat_mul]
      rw [strtolNumber, List.foldl_cons, hstep, List.foldl_cons]
      exact ih (base * v + d)

/-- A numeral without a prefix. -/
theorem strtolPrefix_numeral (hb : base = 8 ∨ base = 10 ∨ base = 16)
    (hrest : ¬ IsAlnum (rest.headD 0)) :
    strtolPrefix ((Nat.toDigits base n).map chr ++ rest) base =
      ((Nat.toDigits base n).map chr ++ rest, base) := by
  have hne : ((Nat.toDigits base n).map chr ++ rest).tail.headD 0 ≠ chr 'x' := by
    obtain ⟨ds, htext, hlt, -⟩ := exists_digits (show 1 < base by omega) n
    rw [htext]
    cases ds with
    | nil => exact absurd htext Nat.toDigits_ne_nil
    | cons d ds =>
        cases ds with
        | nil =>
            -- the next character is the first one after the numeral
            intro hx
            exact hrest (.inr (.inl (by rw [show rest.headD 0 = chr 'x' from hx]; decide)))
        | cons d' ds =>
            have hd' : d' < 16 := (hlt d' (by simp)).trans_le (by omega)
            exact (chr_digitChar_ne hd').2.2.2.2
  have h0 : base ≠ 0 := by omega
  rw [strtolPrefix, if_neg (fun hc ↦ hne hc.2.2), if_neg (fun hc ↦ h0 hc.1), if_neg h0]

theorem strtolNumeral_toDigits (n : ℕ) (hb : base = 8 ∨ base = 10 ∨ base = 16)
    (hrest : ¬ IsAlnum (rest.headD 0)) :
    strtolNumber base 0 (strtolNumeral base ((Nat.toDigits base n).map chr ++ rest)) =
        BitVec.ofNat 32 n ∧
      (strtolNumeral base ((Nat.toDigits base n).map chr ++ rest)).length =
        ((Nat.toDigits base n).map chr).length := by
  obtain ⟨ds, htext, hlt, hval⟩ := exists_digits (show 1 < base by omega) n
  rw [htext, List.map_map, strtolNumeral_digits hlt (by omega) hrest, List.length_map]
  exact ⟨(strtolNumber_ofNat 0 ds).trans (by rw [hval]), rfl⟩

/-- Reading a numeral without a sign. -/
theorem strtolUnsigned_numeral (n : ℕ) (hb : base = 8 ∨ base = 10 ∨ base = 16)
    (hrest : ¬ IsAlnum (rest.headD 0)) :
    strtolUnsigned ((Nat.toDigits base n).map chr ++ rest) base = (BitVec.ofNat 32 n, rest) := by
  obtain ⟨hval, hlen⟩ := strtolNumeral_toDigits n hb hrest
  rw [strtolUnsigned, strtolPrefix_numeral hb hrest]
  simp only [hval, hlen, List.drop_left]

/-- Reading a numeral in base 16 after the prefix. -/
theorem strtolUnsigned_prefixed (hb : base = 0 ∨ base = 16) (hrest : ¬ IsAlnum (rest.headD 0)) :
    strtolUnsigned (['0', 'x'].map chr ++ ((Nat.toDigits 16 n).map chr ++ rest)) base =
      (BitVec.ofNat 32 n, rest) := by
  obtain ⟨hval, hlen⟩ := strtolNumeral_toDigits n (.inr (.inr rfl)) hrest
  have hprefix : strtolPrefix (['0', 'x'].map chr ++ ((Nat.toDigits 16 n).map chr ++ rest)) base =
      ((Nat.toDigits 16 n).map chr ++ rest, 16) := if_pos ⟨hb, rfl, rfl⟩
  rw [strtolUnsigned, hprefix]
  simp only [hval, hlen, List.drop_left]

/-- A text that starts with a digit has no blanks and no sign. -/
theorem strtolString_unsigned {d : ℕ} (hd : d < 16) (cs : List (BitVec 8)) (base : ℕ) :
    strtolString (chr (Nat.digitChar d) :: cs) base =
      strtolUnsigned (chr (Nat.digitChar d) :: cs) base := by
  obtain ⟨hblank, htab, hminus, hplus, -⟩ := chr_digitChar_ne hd
  have hdrop : (chr (Nat.digitChar d) :: cs).dropWhile
      (fun c ↦ decide (c = chr ' ' ∨ c = chr '\t')) = chr (Nat.digitChar d) :: cs :=
    List.dropWhile_cons_of_neg (by simp [hblank, htab])
  rw [strtolString, hdrop]
  simp only [List.headD_cons, hminus, hplus, if_false]

theorem strtolString_numeral (hb : base = 8 ∨ base = 10 ∨ base = 16)
    (hrest : ¬ IsAlnum (rest.headD 0)) :
    strtolString ((Nat.toDigits base n).map chr ++ rest) base = (BitVec.ofNat 32 n, rest) := by
  rw [← strtolUnsigned_numeral n hb hrest]
  obtain ⟨ds, htext, hlt, -⟩ := exists_digits (show 1 < base by omega) n
  rw [htext]
  cases ds with
  | nil => exact absurd htext Nat.toDigits_ne_nil
  | cons d ds =>
      have hd : d < 16 := (hlt d List.mem_cons_self).trans_le (by omega)
      exact strtolString_unsigned hd _ _

theorem strtolString_minus (hrest : ¬ IsAlnum (rest.headD 0)) :
    strtolString (['-'].map chr ++ ((Nat.toDigits 10 n).map chr ++ rest)) 10 =
      (-BitVec.ofNat 32 n, rest) := by
  have hunsigned := strtolUnsigned_numeral n (.inr (.inl rfl)) hrest
  have hdrop : (chr '-' :: ((Nat.toDigits 10 n).map chr ++ rest)).dropWhile
      (fun c ↦ decide (c = chr ' ' ∨ c = chr '\t')) =
        chr '-' :: ((Nat.toDigits 10 n).map chr ++ rest) :=
    List.dropWhile_cons_of_neg (by decide)
  rw [List.map_singleton, List.singleton_append, strtolString, hdrop]
  simp only [List.headD_cons, List.tail_cons, if_true, hunsigned]

end

/-! ## Printing and reading -/

section

variable {rd : Word → Option (BitVec 8)} {m : Text} {p fuel base : ℕ} {rest : List (BitVec 8)}
  {w : List Char} {n : Word}

/-- A directive without flag, width and length modifier. -/
def plain (conv : NumConv) (n : Word) : NumDirective := ⟨.none, .none, .int n, conv⟩

theorem printed_plain (conv : NumConv) (n : Word) :
    (plain conv n).printed = (plain conv n).sign ++ (plain conv n).digits := by
  rw [NumDirective.printed, plain, Width.val, Nat.zero_sub]
  rfl

/-- A format that ends in such a directive. -/
theorem vcprintf_plain (conv : NumConv) (n : Word) (L : List PrintEv) (fuel : ℕ) :
    (vprintfmt rd (fuel + 2) ['%', conv.char] [n]).run L =
      (some (), written ((plain conv n).sign ++ (plain conv n).digits) L) := by
  rw [← printed_plain]
  have hrun : (vprintfmt rd (fuel + 2) ('%' :: ((plain conv n).text ++ []))
      ((plain conv n).args ++ [])).run L =
        (vprintfmt rd (fuel + 1) [] []).run (written (plain conv n).printed L) :=
    vprintfmt_directive rd (plain conv n) (fuel + 1) L
  exact hrun

/-- If `strtol` reads the text as `n`, it stops at its end. -/
theorem strtol_of_string (hn : strtolString (w.map chr ++ rest) base = (n, rest))
    (hm : CStr m p (w.map chr ++ rest)) (hfuel : (w.map chr ++ rest).length < fuel) :
    strtol m fuel p base = .ok (n, p + w.length) := by
  obtain ⟨q, hq, hend⟩ := strtol_spec base ⟨hm, rfl⟩ hfuel
  rw [hn] at hq hend
  have hlen : q + rest.length = p + (w.map chr ++ rest).length := hend.stop
  rw [List.length_append, List.length_map] at hlen
  rw [hq, show q = p + w.length by omega]

theorem strtolString_signed (n : Word) (hrest : ¬ IsAlnum (rest.headD 0)) :
    strtolString (((plain .d n).sign ++ (plain .d n).digits).map chr ++ rest) 10 = (n, rest) := by
  have hval : (plain .d n).value = n.toInt := rfl
  have hlt := n.isLt
  rw [NumDirective.sign, hval, List.map_append, List.append_assoc]
  by_cases hneg : n.toInt < 0
  · have hn : -BitVec.ofNat 32 n.toInt.natAbs = n := by
      refine BitVec.eq_of_toNat_eq ?_
      rw [BitVec.toNat_neg, BitVec.toNat_ofNat]
      rw [BitVec.toInt_eq_toNat_cond] at *
      split at hneg <;> omega
    rw [if_pos hneg]
    refine (strtolString_minus hrest).trans ?_
    rw [hval, hn]
  · have hn : BitVec.ofNat 32 n.toInt.natAbs = n := by
      refine BitVec.eq_of_toNat_eq ?_
      rw [BitVec.toNat_ofNat]
      rw [BitVec.toInt_eq_toNat_cond] at *
      split at hneg <;> omega
    rw [if_neg hneg]
    refine (strtolString_numeral (.inr (.inl rfl)) hrest).trans ?_
    rw [hval, hn]

theorem strtolString_unsigned_plain {conv : NumConv} (hconv : conv ≠ .d) (n : Word)
    (hrest : ¬ IsAlnum (rest.headD 0)) :
    strtolString (((plain conv n).sign ++ (plain conv n).digits).map chr ++ rest) conv.base =
      (n, rest) := by
  have hval : (plain conv n).value = n.toNat := by
    cases conv with
    | d => exact absurd rfl hconv
    | u | o | x => rfl
  have hsign : (plain conv n).sign = [] := if_neg (by omega)
  have hdigits : (plain conv n).digits = Nat.toDigits conv.base n.toNat := by
    rw [NumDirective.digits, hval]
    rfl
  have hb : conv.base = 8 ∨ conv.base = 10 ∨ conv.base = 16 := by cases conv <;> decide
  rw [hsign, hdigits, List.nil_append, strtolString_numeral hb hrest, BitVec.ofNat_toNat,
    BitVec.setWidth_eq]

theorem strtolString_prefixed_plain (hb : base = 0 ∨ base = 16) (n : Word)
    (hrest : ¬ IsAlnum (rest.headD 0)) :
    strtolString ((['0', 'x'] ++ ((plain .x n).sign ++ (plain .x n).digits)).map chr ++ rest) base =
      (n, rest) := by
  have hval : (plain .x n).value = n.toNat := rfl
  have hsign : (plain .x n).sign = [] := if_neg (by omega)
  rw [hsign, List.nil_append, List.map_append, List.append_assoc]
  refine (strtolString_unsigned (show 0 < 16 by decide) _ base).trans ?_
  refine (strtolUnsigned_prefixed hb hrest).trans ?_
  rw [hval, Int.natAbs_natCast, BitVec.ofNat_toNat, BitVec.setWidth_eq]

end

/-- `strtol` gives back the number that was printed, and stops after its last digit. -/
theorem strtol_inverts_printing {f : String} {base : ℕ} (h : (f, base) ∈ printings)
    (rd : Word → Option (BitVec 8)) (n : Word) : ∃ w : List Char,
    vcprintf rd f [n] = (some (), written w []) ∧
      ∀ (m : Text) (p fuel : ℕ) (rest : List (BitVec 8)), CStr m p (w.map chr ++ rest) →
        ¬ IsAlnum (rest.headD 0) → (w.map chr ++ rest).length < fuel →
        strtol m fuel p base = .ok (n, p + w.length) := by
  have hplain : ∀ (conv : NumConv) (f : String), f.toList = ['%', conv.char] →
      vcprintf rd f [n] = (some (), written ((plain conv n).sign ++ (plain conv n).digits) []) := by
    intro conv f hf
    rw [vcprintf, ← String.length_toList, hf]
    exact vcprintf_plain conv n [] 1
  have hprefixed : vcprintf rd "0x%x" [n] = (some (), written
      (['0', 'x'] ++ ((plain .x n).sign ++ (plain .x n).digits)) []) := by
    have hlist : "0x%x".toList = ['0', 'x', '%', 'x'] := by decide
    rw [vcprintf, ← String.length_toList, hlist]
    calc (vprintfmt rd 5 ['0', 'x', '%', 'x'] [n]).run []
        = (vprintfmt rd 4 ['x', '%', 'x'] [n]).run (written ['0'] []) :=
          run_vprintfmt_char (by decide) _
      _ = (vprintfmt rd 3 ['%', 'x'] [n]).run (written ['0', 'x'] []) :=
          run_vprintfmt_char (by decide) _
      _ = (some (), written ((plain .x n).sign ++ (plain .x n).digits)
            (written ['0', 'x'] [])) := vcprintf_plain .x n _ 1
      _ = _ := by rw [written_append ['0', 'x']]
  simp only [printings, List.mem_cons, Prod.mk.injEq, List.not_mem_nil, or_false] at h
  rcases h with ⟨rfl, rfl⟩ | ⟨rfl, rfl⟩ | ⟨rfl, rfl⟩ | ⟨rfl, rfl⟩ | ⟨rfl, rfl⟩ | ⟨rfl, rfl⟩
  · exact ⟨_, hplain .d _ (by decide), fun m p fuel rest hm hrest hfuel ↦
      strtol_of_string (strtolString_signed n hrest) hm hfuel⟩
  · exact ⟨_, hplain .u _ (by decide), fun m p fuel rest hm hrest hfuel ↦
      strtol_of_string (strtolString_unsigned_plain (by decide) n hrest) hm hfuel⟩
  · exact ⟨_, hplain .o _ (by decide), fun m p fuel rest hm hrest hfuel ↦
      strtol_of_string (strtolString_unsigned_plain (by decide) n hrest) hm hfuel⟩
  · exact ⟨_, hplain .x _ (by decide), fun m p fuel rest hm hrest hfuel ↦
      strtol_of_string (strtolString_unsigned_plain (by decide) n hrest) hm hfuel⟩
  · exact ⟨_, hprefixed, fun m p fuel rest hm hrest hfuel ↦
      strtol_of_string (strtolString_prefixed_plain (.inl rfl) n hrest) hm hfuel⟩
  · exact ⟨_, hprefixed, fun m p fuel rest hm hrest hfuel ↦
      strtol_of_string (strtolString_prefixed_plain (.inr rfl) n hrest) hm hfuel⟩

theorem strtol_inverts_printing_least : ∃ w : List Char,
    vcprintf (fun _ ↦ none) "%d" [0x80000000] = (some (), written w []) ∧
      ∀ (m : Text) (p fuel : ℕ) (rest : List (BitVec 8)), CStr m p (w.map chr ++ rest) →
        ¬ IsAlnum (rest.headD 0) → (w.map chr ++ rest).length < fuel →
        strtol m fuel p 10 = .ok (0x80000000, p + w.length) :=
  strtol_inverts_printing List.mem_cons_self _ _

end Jos
