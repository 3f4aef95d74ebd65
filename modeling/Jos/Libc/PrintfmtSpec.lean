import Jos.Lib.Logged
import Jos.Libc.Printfmt

/-!
# What the formatter writes

A part of the formatter that neither loads nor fails writes a text: `Emits x w a` says that `x` adds
`w` to the log, whatever the log is, and returns `a`.  Texts of parts in a row are put together, and
a number is written as its numeral.
-/

namespace Jos

open Printfmt Lib

/-! ## Running the formatter -/

section Run

variable {α β : Type} {L : List PrintEv}

theorem pure_print_inj {α : Type} {a b : α} (h : (pure a : Print α) = pure b) : a = b :=
  Option.some.inj (congrArg (fun x : Print α ↦ (x.run []).1) h)

theorem run_loadMem (rd : Word → Option (BitVec 8)) (p : Word) (L : List PrintEv) :
    (loadMem rd p).run L = (rd p, .load p :: L) := by
  rw [loadMem, run_bind]
  cases h : rd p <;> rfl

theorem run_loadLit (cs : List Char) (p : Word) (L : List PrintEv) :
    ∃ b, (loadLit cs p).run L = (some b, L) := ⟨_, rfl⟩

/-- Padding loads nothing. -/
theorem load_mem_pad {a : Word} {c : Char} {n : ℕ} :
    .load a ∈ ((pad c n).run L).2 ↔ .load a ∈ L := by
  induction n generalizing L with
  | zero => rfl
  | succ n ih =>
      have hrun : (pad c (n + 1)).run L = (pad c n).run (.put (BitVec.ofNat 32 c.toNat) :: L) := by
        rw [pad, run_bind]
        rfl
      rw [hrun, ih]
      simp

/-- A round of the loop of `%s`, after the byte `b` was loaded. -/
theorem putString_round {load : Word → Print (BitVec 8)} {alt : Bool} {fuel : ℕ} {p : Word}
    {precision width : Int} {L' : List PrintEv} {b : BitVec 8}
    (hload : (load p).run L = (some b, L')) :
    (putString load alt (fuel + 1) p precision width).run L =
      if b = 0 then (some width, L')
      else if precision < 0 ∨ 1 ≤ precision then
        (putString load alt fuel (p + 1) (if precision < 0 then precision else precision - 1)
          (width - 1)).run
          (.put (if alt && (b.toInt < ' '.toNat || b.toInt > '~'.toNat) then
            BitVec.ofNat 32 '?'.toNat else b.signExtend 32) :: L')
      else (some width, L') := by
  rw [putString, run_bind, hload]
  by_cases hb : b = 0
  · simp only [hb, if_true]
    rfl
  · have hiff : (precision < 0 ∨ 0 ≤ if precision < 0 then precision else precision - 1) ↔
        precision < 0 ∨ 1 ≤ precision := by
      split <;> omega
    simp only [hb, if_false, hiff]
    split
    · split
      · rw [run_bind]
        rfl
      · rw [run_bind]
        rfl
    · rfl

end Run

/-! ## Texts -/

/-- The log `L` after the text `w` was written. -/
def written (w : List Char) (L : List PrintEv) : List PrintEv :=
  (w.map fun c ↦ .put (BitVec.ofNat 32 c.toNat)).reverse ++ L

@[simp]
theorem written_nil (L : List PrintEv) : written [] L = L := rfl

theorem written_append (w v : List Char) (L : List PrintEv) :
    written (w ++ v) L = written v (written w L) := by
  simp [written]

/-- `x` writes the text `w` and returns `a`. -/
def Emits {α : Type} (x : Print α) (w : List Char) (a : α) : Prop :=
  ∀ L, x.run L = (some a, written w L)

section Emits

variable {α β : Type} {x : Print α} {f : α → Print β} {w v : List Char} {a : α} {b : β}

theorem Emits.pure (a : α) : Emits (Pure.pure a : Print α) [] a := fun _ ↦ rfl

theorem Emits.run_bind (h : Emits x w a) (f : α → Print β) (L : List PrintEv) :
    (x >>= f).run L = (f a).run (written w L) := by
  rw [Lib.run_bind, h]

theorem Emits.bind (h : Emits x w a) (hf : Emits (f a) v b) : Emits (x >>= f) (w ++ v) b := by
  intro L
  rw [h.run_bind, hf, written_append]

/-- A part that writes nothing more. -/
theorem Emits.returning (h : Emits x w a) (b : β) : Emits (x >>= fun _ ↦ Pure.pure b) w b := by
  intro L
  rw [h.run_bind]
  rfl

theorem Emits.putChar (c : Char) : Emits (putChar c) [c] () := fun _ ↦ rfl

theorem Emits.pad (c : Char) (n : ℕ) : Emits (pad c n) (List.replicate n c) () := by
  induction n with
  | zero => exact Emits.pure ()
  | succ n ih => exact (Emits.putChar c).bind ih

/-- `printnum` writes the numeral, and before it what is missing of the width. -/
theorem Emits.printnum {base : ℕ} (hbase : 2 ≤ base) (hle : base ≤ 16) (padc : Char) {fuel num : ℕ}
    (hnum : num < base ^ fuel) (hfuel : 0 < fuel) (width : Int) :
    Emits (printnum base padc fuel num width)
      (List.replicate (width - (Nat.toDigits base num).length).toNat padc ++
        Nat.toDigits base num) () := by
  have hdigit : ∀ d < 16, "0123456789abcdef".toList.getD d '0' = Nat.digitChar d := by decide
  induction fuel generalizing num width with
  | zero => exact absurd hfuel (Nat.lt_irrefl 0)
  | succ fuel ih =>
      have hlast : "0123456789abcdef".toList.getD (num % base) '0' = Nat.digitChar (num % base) :=
        hdigit _ (by have := Nat.mod_lt num (show 0 < base by omega); omega)
      rw [Printfmt.printnum, hlast]
      by_cases hb : base ≤ num
      · -- the more significant digits come first
        have hdiv : num / base < base ^ fuel := by
          rw [Nat.div_lt_iff_lt_mul (by omega), ← Nat.pow_succ]
          exact hnum
        have hpos : 0 < fuel := by
          rcases Nat.eq_zero_or_pos fuel with rfl | hpos
          · have hone : 0 < num / base := Nat.div_pos hb (by omega)
            rw [Nat.pow_zero] at hdiv
            omega
          · exact hpos
        have hwidth : width - 1 - (Nat.toDigits base (num / base)).length =
            width - (Nat.toDigits base num).length := by
          rw [Nat.toDigits_of_base_le hbase hb, List.length_append, List.length_singleton]
          omega
        have hfirst := ih hdiv hpos (width - 1)
        rw [hwidth] at hfirst
        rw [if_pos hb, Nat.toDigits_of_base_le hbase hb, ← List.append_assoc,
          ← Nat.toDigits_of_base_le hbase hb]
        exact hfirst.bind (Emits.putChar _)
      · have hlt : num < base := Nat.lt_of_not_le hb
        rw [if_neg hb, Nat.toDigits_of_lt_base hlt, Nat.mod_eq_of_lt hlt]
        exact (Emits.pad _ _).bind (Emits.putChar _)

end Emits

/-! ## Directives -/

namespace Printfmt

/-- What `vprintfmt` does at the end of an escape sequence, with the arguments that are left; `none`
is the default case. -/
def conversion (rd : Word → Option (BitVec 8)) (ch : Char) (s : Spec) (ap : List Word) :
    Option (Print (List Word)) :=
  match ch with
  | 'c' => some do
      let (a, ap) ← vaArg ap
      putch a
      return ap
  | 'e' => some do
      let (err, ap) ← vaArg ap
      fmtError err
      return ap
  | 's' => some do
      let (p, ap) ← vaArg ap
      if p = 0 then fmtString (loadLit "(null)".toList) s 0 else fmtString (loadMem rd) s p
      return ap
  | 'd' => some do
      let (num, ap) ← getint s.lflag ap
      fmtInt s num
      return ap
  | 'u' => some do
      let (num, ap) ← getuint s.lflag ap
      printnum 10 s.padc 64 num.toNat s.width
      return ap
  | 'o' => some do
      let (num, ap) ← getuint s.lflag ap
      printnum 8 s.padc 64 num.toNat s.width
      return ap
  | 'p' => some do
      putChar '0'
      putChar 'x'
      let (a, ap) ← vaArg ap
      printnum 16 s.padc 64 a.toNat s.width
      return ap
  | 'x' => some do
      let (num, ap) ← getuint s.lflag ap
      printnum 16 s.padc 64 num.toNat s.width
      return ap
  | '%' => some do
      putChar '%'
      return ap
  | _ => none

section

variable {rd : Word → Option (BitVec 8)} {fuel : ℕ} {c : Char} {fmt : List Char} {ap : List Word}

/-- The value of the digits of a width. -/
def digitsValue (n : Int) (ds : List Char) : Int :=
  ds.foldl (fun n c ↦ (n * 10 + (c.toNat - '0'.toNat)).bmod (2 ^ 32)) n

/-- Reading the rest of a width. -/
theorem flagChars_some {s : Spec} (n : Int) {ds tail : List Char}
    (hds : ∀ c ∈ ds, '0' ≤ c ∧ c ≤ '9')
    (htail : ¬ ('0' ≤ tail.headD '\x00' ∧ tail.headD '\x00' ≤ '9')) :
    flagChars (some n) s ap (ds ++ tail) =
      flagChars none (s.processPrecision (digitsValue n ds)) ap tail := by
  induction ds generalizing n with
  | nil =>
      cases tail with
      | nil => rfl
      | cons c tail =>
          rw [List.headD_cons] at htail
          rw [List.nil_append]
          unfold flagChars
          rw [decide_eq_false htail]
          rfl
  | cons d ds ih =>
      obtain ⟨hd, hds⟩ := List.forall_mem_cons.mp hds
      have hround : flagChars (some n) s ap (d :: (ds ++ tail)) =
          flagChars (some ((n * 10 + (d.toNat - '0'.toNat)).bmod (2 ^ 32))) s ap (ds ++ tail) := by
        rw [flagChars]
        exact decide_eq_true hd
      rw [List.cons_append, hround, ih _ hds]
      rfl

/-- Reading the flags has no effect but for a missing argument. -/
theorem flagChars_pure_or_failure (digits : Option Int) (s : Spec) (ap : List Word)
    (fmt : List Char) :
    (∃ x, flagChars digits s ap fmt = pure x) ∨ flagChars digits s ap fmt = failure := by
  induction fmt generalizing digits s ap with
  | nil => exact .inl ⟨_, rfl⟩
  | cons c fmt ih =>
      unfold flagChars
      split
      · exact ih _ _ _
      · extract_lets s'
        split
        · exact ih _ _ _
        · split
          · exact ih _ _ _
          · split
            · exact ih _ _ _
            · split
              · cases ap with
                | nil => exact .inr rfl
                | cons n ap => exact ih none (s'.processPrecision n.toInt) ap
              · split
                · exact ih _ _ _
                · split
                  · exact ih _ _ _
                  · split
                    · exact ih _ _ _
                    · exact .inl ⟨_, rfl⟩

theorem vprintfmt_nil : vprintfmt rd (fuel + 1) [] ap = pure () := rfl

/-- A character that starts no escape sequence. -/
theorem vprintfmt_char (h : c ≠ '%') : vprintfmt rd (fuel + 1) (c :: fmt) ap = (do
    putChar c
    vprintfmt rd fuel fmt ap) := by
  rw [vprintfmt, if_pos h]

theorem run_vprintfmt_char (h : c ≠ '%') (L : List PrintEv) :
    (vprintfmt rd (fuel + 1) (c :: fmt) ap).run L =
      (vprintfmt rd fuel fmt ap).run (written [c] L) := by
  rw [vprintfmt_char h]
  exact (Emits.putChar c).run_bind _ L

/-- An escape sequence. -/
theorem vprintfmt_percent : vprintfmt rd (fuel + 1) ('%' :: fmt) ap = (do
    let (ch, s, ap, rest) ← flagChars none {} ap fmt
    match conversion rd ch s ap with
    | some x => do
        let ap ← x
        vprintfmt rd fuel rest ap
    | none => do
        putChar '%'
        vprintfmt rd fuel fmt ap) := by
  rw [vprintfmt, if_neg (by simp)]
  refine bind_congr fun x ↦ ?_
  obtain ⟨ch, s, ap, rest⟩ := x
  dsimp only
  unfold conversion
  split
  case h_3 =>
      -- the two strings of `%s`
      simp only [bind_assoc]
      refine bind_congr fun y ↦ ?_
      split <;> simp only [bind_assoc, pure_bind]
  all_goals simp only [bind_assoc, pure_bind]

end

end Printfmt

end Jos
