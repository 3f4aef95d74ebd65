import Jos.Lib.Numeral
import Jos.Libc.PrintfmtSpec

/-!
# The padding of numbers

`printnum` gets the width without the sign, which was written before, and pads in front of the
digits, with `-` too.  So a number is padded as it should be if there is nothing to pad, or if it
has no sign and is not to be padded on the right.
-/

namespace Jos.Printfmt

open Jos.Lib

/-! ## Directives -/

inductive Flag where
  | none
  | zero
  | minus
deriving DecidableEq

namespace Flag

def text : Flag → List Char
  | none => []
  | zero => ['0']
  | minus => ['-']

/-- `padc` -/
def padc : Flag → Char
  | none => ' '
  | zero => '0'
  | minus => '-'

end Flag

/-- A field width: none, a numeral, or an argument. -/
inductive Width where
  | none
  | numeral (n : ℕ) (pos : 0 < n) (lt : n < 2 ^ 31)
  | star (n : ℕ) (lt : n < 2 ^ 31)

namespace Width

def text : Width → List Char
  | none => []
  | numeral n _ _ => Nat.toDigits 10 n
  | star _ _ => ['*']

def args : Width → List Word
  | none | numeral _ _ _ => []
  | star n _ => [BitVec.ofNat 32 n]

def val : Width → ℕ
  | none => 0
  | numeral n _ _ | star n _ => n

/-- `width` -/
def width : Width → Int
  | none => -1
  | numeral n _ _ | star n _ => n

end Width

/-- The argument for a number. -/
inductive NumArg where
  | int (v : Word)
  | long (v : Word)
  | longLong (v : BitVec 64)

namespace NumArg

def text : NumArg → List Char
  | int _ => []
  | long _ => ['l']
  | longLong _ => ['l', 'l']

def args : NumArg → List Word
  | int v | long v => [v]
  | longLong v => [v.extractLsb' 0 32, v.extractLsb' 32 32]

def lflag : NumArg → ℕ
  | int _ => 0
  | long _ => 1
  | longLong _ => 2

def signed : NumArg → Int
  | int v | long v => v.toInt
  | longLong v => v.toInt

def unsigned : NumArg → ℕ
  | int v | long v => v.toNat
  | longLong v => v.toNat

end NumArg

inductive NumConv where
  | d
  | u
  | o
  | x
deriving DecidableEq

namespace NumConv

def char : NumConv → Char
  | d => 'd'
  | u => 'u'
  | o => 'o'
  | x => 'x'

def base : NumConv → ℕ
  | d | u => 10
  | o => 8
  | x => 16

def value : NumConv → NumArg → Int
  | d, a => a.signed
  | u, a | o, a | x, a => a.unsigned

end NumConv

/-- A directive that prints a number, and the number. -/
structure NumDirective where
  flag : Flag
  width : Width
  arg : NumArg
  conv : NumConv

namespace NumDirective

variable (D : NumDirective)

/-- The directive in the format, after the `%`. -/
def text : List Char := D.flag.text ++ D.width.text ++ D.arg.text ++ [D.conv.char]

def args : List Word := D.width.args ++ D.arg.args

def value : Int := D.conv.value D.arg

def sign : List Char := if D.value < 0 then ['-'] else []

def digits : List Char := Nat.toDigits D.conv.base D.value.natAbs

/-- The text that `vprintfmt` writes. -/
def printed : List Char :=
  D.sign ++ (List.replicate (D.width.val - D.digits.length) D.flag.padc ++ D.digits)

/-- The numeral, padded to the width. -/
def padded : List Char :=
  let missing := D.width.val - (D.sign ++ D.digits).length
  match D.flag with
  | .none => List.replicate missing ' ' ++ (D.sign ++ D.digits)
  | .zero => D.sign ++ List.replicate missing '0' ++ D.digits
  | .minus => (D.sign ++ D.digits) ++ List.replicate missing ' '

end NumDirective

/-! ## The escape sequence -/

section

variable {s : Spec} {ap : List Word} {c : Char} {fmt : List Char}

/-- The value of the digits, where the number so far is `k`. -/
theorem digitsValue_eq {ds : List Char} (hds : ∀ c ∈ ds, '0' ≤ c ∧ c ≤ '9') (k : ℕ) :
    digitsValue ((k : Int).bmod (2 ^ 32)) ds =
      (Nat.ofDigitChars 10 ds k : Int).bmod (2 ^ 32) := by
  induction ds generalizing k with
  | nil => rw [digitsValue, List.foldl_nil, Nat.ofDigitChars_nil]
  | cons d ds ih =>
      obtain ⟨hd, hds⟩ := List.forall_mem_cons.mp hds
      have hsub : ((d.toNat : Int) - '0'.toNat) = ((d.toNat - '0'.toNat : ℕ) : Int) :=
        (Int.ofNat_sub hd.1).symm
      have hnum : ((k : Int).bmod (2 ^ 32) * 10 + (d.toNat - '0'.toNat)).bmod (2 ^ 32) =
          ((10 * k + (d.toNat - '0'.toNat) : ℕ) : Int).bmod (2 ^ 32) := by
        rw [hsub, ← Int.bmod_add_bmod, Int.bmod_mul_bmod, Int.bmod_add_bmod, Nat.mul_comm,
          Int.natCast_add, Int.natCast_mul]
        rfl
      rw [digitsValue, List.foldl_cons, hnum, Nat.ofDigitChars_cons]
      exact ih hds _

theorem isDigit_digitChar {d : ℕ} (hd : d < 10) :
    '0' ≤ Nat.digitChar d ∧ Nat.digitChar d ≤ '9' := by
  have hall : ∀ d < 10, '0' ≤ Nat.digitChar d ∧ Nat.digitChar d ≤ '9' := by decide
  exact hall d hd

/-- A width that is a numeral. -/
theorem flagChars_numeral {n : ℕ} (pos : 0 < n) (lt : n < 2 ^ 31)
    (hc : ¬ ('0' ≤ c ∧ c ≤ '9')) :
    flagChars none s ap (Nat.toDigits 10 n ++ c :: fmt) =
      flagChars none (s.processPrecision n) ap (c :: fmt) := by
  obtain ⟨d, ds, htext, hpos, hd⟩ := exists_toDigits_eq_cons (by decide : 1 < 10) pos
  have hds : ∀ x ∈ ds, '0' ≤ x ∧ x ≤ '9' := by
    intro x hx
    have hmem : x ∈ Nat.toDigits 10 n := htext ▸ List.mem_cons_of_mem _ hx
    obtain ⟨k, hk, rfl⟩ := mem_toDigits (by decide) hmem
    exact isDigit_digitChar hk
  have hfirst : flagChars none s ap (Nat.digitChar d :: (ds ++ c :: fmt)) =
      flagChars (some d) s ap (ds ++ c :: fmt) := by
    have hall : ∀ d < 10, 0 < d → Nat.digitChar d ≠ '-' ∧ Nat.digitChar d ≠ '0' ∧
        ('1' ≤ Nat.digitChar d ∧ Nat.digitChar d ≤ '9') ∧
        (((Nat.digitChar d).toNat : Int) - '0'.toNat) = d := by decide
    obtain ⟨hminus, hzero, hdigit, hval⟩ := hall d hd hpos
    rw [flagChars, if_neg hminus, if_neg hzero, if_pos hdigit, hval]
    · rfl
    · intro _ h
      cases h
  have hval : Nat.ofDigitChars 10 ds d = n := by
    rw [← Nat.ofDigitChars_ten_toDigits (n := n), htext,
      Nat.ofDigitChars_cons_digitChar_of_lt_ten hd]
    simp
  have hsmall : (d : Int) = (d : Int).bmod (2 ^ 32) := by
    rw [Int.bmod_eq_of_le] <;> omega
  have htail : ¬ ('0' ≤ (c :: fmt).headD '\x00' ∧ (c :: fmt).headD '\x00' ≤ '9') := hc
  rw [htext, List.cons_append, hfirst, flagChars_some (d : Int) hds htail, hsmall,
    digitsValue_eq hds, hval, Int.bmod_eq_of_le (by omega) (by omega)]

theorem flagChars_l : flagChars none s ap ('l' :: fmt) =
    flagChars none { s with lflag := s.lflag + 1 } ap fmt := rfl

theorem flagChars_conv (conv : NumConv) : flagChars none s ap (conv.char :: fmt) =
    pure (conv.char, s, ap, fmt) := by
  cases conv <;> rfl

/-- The first character of an argument and its conversion is no digit. -/
theorem flagChars_width (w : Width) (hs : s.width = -1 ∧ s.precision = -1)
    (hc : ¬ ('0' ≤ c ∧ c ≤ '9')) :
    flagChars none s (w.args ++ ap) (w.text ++ c :: fmt) =
      flagChars none { s with width := w.width } ap (c :: fmt) := by
  have hset : ∀ n : Int, s.processPrecision n = { s with width := n } := by
    intro n
    rw [Spec.processPrecision, if_pos (by omega), hs.2]
  cases w with
  | none =>
      rw [Width.width, ← hs.1]
      rfl
  | numeral n pos lt =>
      rw [← hset]
      exact flagChars_numeral pos lt hc
  | star n lt =>
      have hn : (BitVec.ofNat 32 n).toInt = n := by
        rw [BitVec.toInt_eq_toNat_cond, BitVec.toNat_ofNat, Nat.mod_eq_of_lt (by omega),
          if_pos (by omega)]
      have hstar : flagChars none s (BitVec.ofNat 32 n :: ap) ('*' :: c :: fmt) =
          flagChars none (s.processPrecision (BitVec.ofNat 32 n).toInt) ap (c :: fmt) := rfl
      rw [hn, hset] at hstar
      exact hstar

theorem flagChars_flag (f : Flag) : flagChars none s ap (f.text ++ fmt) =
    flagChars none { s with padc := match f with
      | .none => s.padc
      | _ => f.padc } ap fmt := by
  cases f <;> rfl

theorem flagChars_arg (a : NumArg) : flagChars none s ap (a.text ++ fmt) =
    flagChars none { s with lflag := s.lflag + a.lflag } ap fmt := by
  cases a <;> rfl

/-- The escape sequence of a directive. -/
theorem flagChars_directive (D : NumDirective) :
    flagChars none {} (D.width.args ++ ap) (D.text ++ fmt) = pure (D.conv.char,
      { padc := D.flag.padc, width := D.width.width, lflag := D.arg.lflag }, ap, fmt) := by
  obtain ⟨c, tl, htl, hc⟩ : ∃ c tl, D.arg.text ++ ([D.conv.char] ++ fmt) = c :: tl ∧
      ¬ ('0' ≤ c ∧ c ≤ '9') := by
    cases D.arg with
    | int v => exact ⟨_, _, rfl, by cases D.conv <;> decide⟩
    | long v => exact ⟨_, _, rfl, by decide⟩
    | longLong v => exact ⟨_, _, rfl, by decide⟩
  rw [NumDirective.text, List.append_assoc, List.append_assoc, List.append_assoc, flagChars_flag,
    htl, flagChars_width D.width ⟨rfl, rfl⟩ hc, ← htl, flagChars_arg]
  refine (flagChars_conv D.conv).trans ?_
  simp only [Nat.zero_add]
  cases D.flag <;> rfl

/-! ## The text -/

theorem toNat_neg_eq_natAbs {v : BitVec 64} (h : v.toInt < 0) : (-v).toNat = v.toInt.natAbs := by
  rw [BitVec.toInt_eq_toNat_cond] at *
  rw [BitVec.toNat_neg]
  have := v.isLt
  split at h <;> omega

theorem extractLsb'_append_halves (v : BitVec 64) :
    v.extractLsb' 32 32 ++ v.extractLsb' 0 32 = v := by
  rw [BitVec.extractLsb'_append_extractLsb'_eq_extractLsb']
  · rw [BitVec.extractLsb'_eq_self]
  · rfl

/-- `getint` gives the argument as a `long long`. -/
theorem getint_arg (a : NumArg) (ap : List Word) : ∃ v : BitVec 64, v.toInt = a.signed ∧
    getint a.lflag (a.args ++ ap) = pure (v, ap) := by
  cases a with
  | int v | long v => exact ⟨v.signExtend 64, BitVec.toInt_signExtend_of_le (by decide), rfl⟩
  | longLong v =>
      exact ⟨v.extractLsb' 32 32 ++ v.extractLsb' 0 32, by rw [extractLsb'_append_halves]; rfl, rfl⟩

/-- `getuint` gives the argument as an `unsigned long long`. -/
theorem getuint_arg (a : NumArg) (ap : List Word) : ∃ v : BitVec 64, v.toNat = a.unsigned ∧
    getuint a.lflag (a.args ++ ap) = pure (v, ap) := by
  cases a with
  | int v | long v => exact ⟨v.zeroExtend 64, BitVec.toNat_setWidth_of_le (by decide), rfl⟩
  | longLong v =>
      exact ⟨v.extractLsb' 32 32 ++ v.extractLsb' 0 32, by rw [extractLsb'_append_halves]; rfl, rfl⟩

/-- The digits, with their padding. -/
theorem Emits.number (w : Width) (padc : Char) (base num : ℕ) (hbase : 8 ≤ base) (hle : base ≤ 16)
    (hnum : num < 2 ^ 64) :
    Emits (printnum base padc 64 num w.width)
      (List.replicate (w.val - (Nat.toDigits base num).length) padc ++ Nat.toDigits base num)
      () := by
  have hlt : num < base ^ 64 := hnum.trans_le (Nat.pow_le_pow_left (by omega) 64)
  have hpad : (w.width - (Nat.toDigits base num).length).toNat =
      w.val - (Nat.toDigits base num).length := by
    cases w with
    | none =>
        rw [Width.width, Width.val]
        omega
    | numeral n _ _ | star n _ =>
        rw [Width.width, Width.val]
        omega
  rw [← hpad]
  exact Emits.printnum (by omega) hle padc hlt (by decide) _

/-- The three conversions without a sign -/
theorem Emits.unsigned (D : NumDirective) {ap : List Word} {u : BitVec 64} {base : ℕ}
    (hu : u.toNat = D.arg.unsigned)
    (huint : getuint D.arg.lflag (D.arg.args ++ ap) = pure (u, ap))
    (hbase : D.conv.base = base) (hval : D.value = D.arg.unsigned) (h8 : 8 ≤ base)
    (h16 : base ≤ 16) :
    Emits (do
      let (num, ap) ← getuint D.arg.lflag (D.arg.args ++ ap)
      printnum base D.flag.padc 64 num.toNat D.width.width
      return ap) D.printed ap := by
  have hsign : D.sign = [] := if_neg (by omega)
  have hdigits : D.digits = Nat.toDigits base u.toNat := by
    rw [NumDirective.digits, hbase, hval, ← hu, Int.natAbs_natCast]
  rw [huint, pure_bind, NumDirective.printed, hsign, hdigits, List.nil_append]
  exact (Emits.number D.width D.flag.padc base u.toNat h8 h16 u.isLt).returning ap

/-- What `vprintfmt` does for a directive. -/
theorem conversion_directive (rd : Word → Option (BitVec 8)) (D : NumDirective)
    (ap : List Word) : ∃ x,
    conversion rd D.conv.char
      { padc := D.flag.padc, width := D.width.width, lflag := D.arg.lflag } (D.arg.args ++ ap) =
        some x ∧ Emits x D.printed ap := by
  obtain ⟨v, hv, hint⟩ := getint_arg D.arg ap
  obtain ⟨u, hu, huint⟩ := getuint_arg D.arg ap
  cases hconv : D.conv with
  | d =>
      refine ⟨_, rfl, ?_⟩
      have hval : D.value = v.toInt := by rw [NumDirective.value, hconv, hv]; rfl
      have hdigits : D.digits = Nat.toDigits 10 v.toInt.natAbs := by
        rw [NumDirective.digits, hconv, hval]
        rfl
      rw [hint, pure_bind, NumDirective.printed, NumDirective.sign, hval, hdigits]
      refine Emits.returning (a := ()) ?_ ap
      rw [fmtInt]
      by_cases hneg : v.toInt < 0
      · rw [if_pos hneg, if_pos hneg, ← toNat_neg_eq_natAbs hneg]
        exact (Emits.putChar '-').bind
          (Emits.number D.width D.flag.padc 10 _ (by decide) (by decide) (-v).isLt)
      · have hnat : v.toInt.natAbs = v.toNat := by
          rw [BitVec.toInt_eq_toNat_cond] at *
          have := v.isLt
          split at hneg <;> omega
        rw [if_neg hneg, if_neg hneg, hnat]
        exact Emits.number D.width D.flag.padc 10 _ (by decide) (by decide) v.isLt
  | u =>
      refine ⟨_, rfl, Emits.unsigned D hu huint ?_ ?_ (by decide) (by decide)⟩
      · rw [hconv]; rfl
      · rw [NumDirective.value, hconv]; rfl
  | o =>
      refine ⟨_, rfl, Emits.unsigned D hu huint ?_ ?_ (by decide) (by decide)⟩
      · rw [hconv]; rfl
      · rw [NumDirective.value, hconv]; rfl
  | x =>
      refine ⟨_, rfl, Emits.unsigned D hu huint ?_ ?_ (by decide) (by decide)⟩
      · rw [hconv]; rfl
      · rw [NumDirective.value, hconv]; rfl

/-- `vprintfmt` writes the text of a directive, and goes on after it. -/
theorem vprintfmt_directive (rd : Word → Option (BitVec 8)) (D : NumDirective) (fuel : ℕ)
    (L : List PrintEv) :
    (vprintfmt rd (fuel + 1) ('%' :: (D.text ++ fmt)) (D.args ++ ap)).run L =
      (vprintfmt rd fuel fmt ap).run (written D.printed L) := by
  obtain ⟨x, hx, hemits⟩ := conversion_directive rd D ap
  rw [vprintfmt_percent, NumDirective.args, List.append_assoc, flagChars_directive, pure_bind]
  dsimp only
  rw [hx]
  exact hemits.run_bind _ L

end

/-! ## The padding -/

section

variable {D : NumDirective}

theorem NumDirective.digits_ne_nil : D.digits ≠ [] := Nat.toDigits_ne_nil

theorem NumDirective.minus_not_mem_digits : '-' ∉ D.digits := by
  intro hmem
  have hbase : 1 < D.conv.base ∧ D.conv.base ≤ 16 := by cases D.conv <;> decide
  obtain ⟨d, hd, heq⟩ := mem_toDigits hbase.1 hmem
  have hall : ∀ d < 16, '-' ≠ Nat.digitChar d := by decide
  exact hall d (hd.trans_le hbase.2) heq

/-- Where there is nothing to pad, both texts are the numeral. -/
theorem NumDirective.printed_eq_of_le (h : D.width.val ≤ D.digits.length) :
    D.printed = D.padded := by
  have hmissing : D.width.val - (D.sign ++ D.digits).length = 0 := by
    rw [List.length_append]
    omega
  rw [printed, padded, hmissing, Nat.sub_eq_zero_of_le h]
  cases D.flag <;> simp

/-- Where there is no sign, the padding on the left is right. -/
theorem NumDirective.printed_eq_of_nonneg (hflag : D.flag ≠ .minus) (hval : 0 ≤ D.value) :
    D.printed = D.padded := by
  have hsign : D.sign = [] := if_neg (by omega)
  rw [printed, padded, hsign]
  cases hf : D.flag with
  | none => simp [Flag.padc]
  | zero => simp [Flag.padc]
  | minus => exact absurd hf hflag

/-- A negative number gets one character too many. -/
theorem NumDirective.printed_ne_of_neg (hlt : D.digits.length < D.width.val) (hval : D.value < 0) :
    D.printed ≠ D.padded := by
  have hsign : D.sign = ['-'] := if_pos hval
  have hprinted : D.printed.length = D.width.val + 1 := by
    rw [printed, hsign]
    simp only [List.length_append, List.length_replicate, List.length_singleton]
    omega
  have hpadded : D.padded.length = D.width.val := by
    rw [padded, hsign]
    cases D.flag <;>
      simp only [List.length_append, List.length_replicate, List.length_singleton] <;> omega
  intro heq
  rw [heq, hpadded] at hprinted
  omega

/-- A number that is to be padded on the right gets minus signs on the left. -/
theorem NumDirective.printed_ne_of_minus (hlt : D.digits.length < D.width.val)
    (hflag : D.flag = .minus) (hval : 0 ≤ D.value) : D.printed ≠ D.padded := by
  have hsign : D.sign = [] := if_neg (by omega)
  obtain ⟨k, hk⟩ : ∃ k, D.width.val - D.digits.length = k + 1 :=
    ⟨D.width.val - D.digits.length - 1, by omega⟩
  obtain ⟨c, cs, hdigits⟩ := List.exists_cons_of_ne_nil D.digits_ne_nil
  have hc : '-' ≠ c := by
    intro heq
    exact D.minus_not_mem_digits (hdigits ▸ heq ▸ List.mem_cons_self)
  have hprinted : D.printed.head? = some '-' := by
    rw [printed, hsign, hflag, hk]
    rfl
  have hpadded : D.padded.head? = some c := by
    rw [padded, hflag, hsign, hdigits]
    rfl
  intro heq
  rw [heq, hpadded] at hprinted
  exact hc (Option.some.inj hprinted).symm

end

/-- What `vprintfmt` writes for a number is its numeral, padded to the width, just if the digits
alone fill the width, or the number has no sign and is not to be padded on the right. -/
theorem numeric_padding_iff (rd : Word → Option (BitVec 8)) (D : NumDirective) : ∃ w,
    (∀ fuel fmt ap L,
      (vprintfmt rd (fuel + 1) ('%' :: (D.text ++ fmt)) (D.args ++ ap)).run L =
        (vprintfmt rd fuel fmt ap).run (written w L)) ∧
    (w = D.padded ↔ D.width.val ≤ D.digits.length ∨ D.flag ≠ .minus ∧ 0 ≤ D.value) := by
  refine ⟨D.printed, fun fuel fmt ap L ↦ vprintfmt_directive rd D fuel L, ?_⟩
  constructor
  · intro heq
    by_contra hc
    obtain ⟨hlt, hor⟩ := not_or.mp hc
    have hlt : D.digits.length < D.width.val := Nat.lt_of_not_le hlt
    by_cases hval : 0 ≤ D.value
    · have hflag : D.flag = .minus := by
        by_contra hne
        exact hor ⟨hne, hval⟩
      exact D.printed_ne_of_minus hlt hflag hval heq
    · exact D.printed_ne_of_neg hlt (Int.lt_of_not_ge hval) heq
  · rintro (hle | ⟨hflag, hval⟩)
    · exact D.printed_eq_of_le hle
    · exact D.printed_eq_of_nonneg hflag hval

/-- `"%5d"` with -3 writes `"-    3"`, which has six characters. -/
theorem numeric_padding_negative :
    (vcprintf (fun _ ↦ none) "%5d" [-3]).2 = written "-    3".toList [] ∧
      (⟨.none, .numeral 5 (by decide) (by decide), .int (-3), .d⟩ : NumDirective).padded =
        "   -3".toList := by
  decide

end Jos.Printfmt
