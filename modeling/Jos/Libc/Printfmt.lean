import Jos.Inc.Mmu
import Mathlib.Algebra.Order.Group.Int
import Mathlib.Data.BitVec

/-!
# Formatted output (`lib/printfmt.c`)

`vprintfmt` interprets a format string, writes characters through `putch` and follows the
pointers it is given by `%s`.  Its effects are logged, latest first: a character written and a
byte loaded through a pointer argument.  A load of an address that is not mapped is a fault; the
log keeps what was done before, which is why the monad is a state under an option and not the
other way round.

The format and the texts of the kernel's own string constants are lists of characters, with the
terminating NUL left implicit.  The arguments are the words of the `va_list`.
-/

namespace Jos

/-- What `vprintfmt` does to the world. -/
inductive PrintEv where
  | put (ch : Word)
  | load (a : Word)
deriving DecidableEq

/-- The monad of the formatter: the log of events survives a fault. -/
abbrev Print := OptionT (StateM (List PrintEv))

namespace Printfmt

def putch (ch : Word) : Print Unit := modify (.put ch :: ·)

def putChar (c : Char) : Print Unit := putch (BitVec.ofNat 32 c.toNat)

/-- Load the byte at `p`, where `rd` is the memory. -/
def loadMem (rd : Word → Option (BitVec 8)) (p : Word) : Print (BitVec 8) := do
  modify (.load p :: ·)
  match rd p with
  | none => failure
  | some b => return b

/-- Load a byte of a string constant of the program, with `p` the offset in it. -/
def loadLit (cs : List Char) (p : Word) : Print (BitVec 8) :=
  return BitVec.ofNat 8 ((cs[p.toNat]?.map Char.toNat).getD 0)

/-- A loop that writes `c` over and over. -/
def pad (c : Char) : ℕ → Print Unit
  | 0 => return
  | n + 1 => do
      putChar c
      pad c n

/-- No loop over a string makes more loads than there are addresses, unless it never ends. -/
def strFuel : ℕ := 2 ^ 32 + 1

/-- `strnlen(s, size)`, from the count `n` on. -/
def strnlen (load : Word → Print (BitVec 8)) : ℕ → Word → ℕ → Int → Print Int
  | 0, _, _, _ => failure
  | _ + 1, _, 0, n => return n
  | fuel + 1, s, size + 1, n => do
      if (← load s) = 0 then return n
      else strnlen load fuel (s + 1) size (n + 1)

/-- The loop of `%s`: returns what is left of the width.  The byte is loaded before the precision
is looked at. -/
def putString (load : Word → Print (BitVec 8)) (altflag : Bool) :
    ℕ → Word → Int → Int → Print Int
  | 0, _, _, _ => failure
  | fuel + 1, p, precision, width => do
      let ch ← load p
      if ch = 0 then return width
      else
        -- `precision < 0 || --precision >= 0`
        let precision' := if precision < 0 then precision else precision - 1
        if precision < 0 ∨ 0 ≤ precision' then
          if altflag && (ch.toInt < ' '.toNat || ch.toInt > '~'.toNat) then putChar '?'
          else putch (ch.signExtend 32)
          putString load altflag fuel (p + 1) precision' (width - 1)
        else return width

/-- `printnum`, with more significant digits first.  A 64-bit number has at most 64 digits. -/
def printnum (base : ℕ) (padc : Char) : ℕ → ℕ → Int → Print Unit
  | 0, _, _ => failure
  | fuel + 1, num, width => do
      if base ≤ num then printnum base padc fuel (num / base) (width - 1)
      else pad padc (width - 1).toNat
      putChar ("0123456789abcdef".toList.getD (num % base) '0')

/-- The state of a `%`-escape sequence. -/
structure Spec where
  padc : Char := ' '
  width : Int := -1
  precision : Int := -1
  lflag : ℕ := 0
  altflag : Bool := false

/-- `process_precision`. -/
def Spec.processPrecision (s : Spec) (precision : Int) : Spec :=
  if s.width < 0 then { s with width := precision, precision := -1 }
  else { s with precision := precision }

/-- `va_arg(ap, int)`. -/
def vaArg : List Word → Print (Word × List Word)
  | [] => failure
  | a :: ap => return (a, ap)

/-- `getuint`. -/
def getuint (lflag : ℕ) (ap : List Word) : Print (BitVec 64 × List Word) := do
  let (lo, ap) ← vaArg ap
  if 2 ≤ lflag then
    let (hi, ap) ← vaArg ap
    return (hi ++ lo, ap)
  else return (lo.zeroExtend 64, ap)

/-- `getint`. -/
def getint (lflag : ℕ) (ap : List Word) : Print (BitVec 64 × List Word) := do
  let (lo, ap) ← vaArg ap
  if 2 ≤ lflag then
    let (hi, ap) ← vaArg ap
    return (hi ++ lo, ap)
  else return (lo.signExtend 64, ap)

/-- The flags of an escape sequence, up to its conversion character; NUL stands for the end of
the format.  `digits` is the number being read, when the last character was a digit of one. -/
def flagChars (digits : Option Int) (s : Spec) (ap : List Word) :
    List Char → Print (Char × Spec × List Word × List Char)
  | [] => return ('\x00', (digits.map s.processPrecision).getD s, ap, [])
  | c :: fmt =>
      match digits, decide ('0' ≤ c ∧ c ≤ '9') with
      | some n, true =>
          flagChars (some ((n * 10 + (c.toNat - '0'.toNat)).bmod (2 ^ 32))) s ap fmt
      | _, _ =>
          let s := (digits.map s.processPrecision).getD s
          if c = '-' then flagChars none { s with padc := '-' } ap fmt
          else if c = '0' then flagChars none { s with padc := '0' } ap fmt
          else if '1' ≤ c ∧ c ≤ '9' then flagChars (some (c.toNat - '0'.toNat)) s ap fmt
          else if c = '*' then do
            let (n, ap) ← vaArg ap
            flagChars none (s.processPrecision n.toInt) ap fmt
          else if c = '.' then
            flagChars none { s with width := if s.width < 0 then 0 else s.width } ap fmt
          else if c = '#' then flagChars none { s with altflag := true } ap fmt
          else if c = 'l' then flagChars none { s with lflag := s.lflag + 1 } ap fmt
          else return (c, s, ap, fmt)

/-- `%s` for the string at `p`. -/
def fmtString (load : Word → Print (BitVec 8)) (s : Spec) (p : Word) : Print Unit := do
  let width ←
    if 0 < s.width ∧ s.padc ≠ '-' then do
      let n ← strnlen load strFuel p (BitVec.ofInt 32 s.precision).toNat 0
      pad s.padc (s.width - n).toNat
      pure (min (s.width - n) 0)
    else pure s.width
  let width ← putString load s.altflag strFuel p s.precision width
  pad ' ' width.toNat

/-- `%d` for the number `num`. -/
def fmtInt (s : Spec) (num : BitVec 64) : Print Unit := do
  if num.toInt < 0 then
    putChar '-'
    printnum 10 s.padc 64 (-num).toNat s.width
  else printnum 10 s.padc 64 num.toNat s.width

/-- The texts of `error_string`. -/
def errorString : ℕ → Option String
  | 1 => "unspecified error"
  | 2 => "bad environment"
  | 3 => "invalid parameter"
  | 4 => "out of memory"
  | 5 => "out of environments"
  | 6 => "segmentation fault"
  | 7 => "env is not recving"
  | 8 => "unexpected end of file"
  | _ => none

/-- `%e` for the error code `err`.  The formats it passes on are `"%s"` and `"error %d"`. -/
def fmtError (err : Word) : Print Unit := do
  let err := if err.toInt < 0 then -err else err
  match errorString err.toNat with
  | some p => fmtString (loadLit p.toList) {} 0
  | none => do
      "error ".toList.forM putChar
      fmtInt {} (err.signExtend 64)

/-- `vprintfmt`.  Each round of its loop consumes at least one character of the format. -/
def vprintfmt (rd : Word → Option (BitVec 8)) : ℕ → List Char → List Word → Print Unit
  | 0, _, _ => failure
  | _ + 1, [], _ => return
  | fuel + 1, c :: fmt, ap => do
      if c ≠ '%' then
        putChar c
        vprintfmt rd fuel fmt ap
      else
        let (ch, s, ap, rest) ← flagChars none {} ap fmt
        match ch with
        | 'c' =>
            let (a, ap) ← vaArg ap
            putch a
            vprintfmt rd fuel rest ap
        | 'e' =>
            let (err, ap) ← vaArg ap
            fmtError err
            vprintfmt rd fuel rest ap
        | 's' =>
            let (p, ap) ← vaArg ap
            if p = 0 then fmtString (loadLit "(null)".toList) s 0
            else fmtString (loadMem rd) s p
            vprintfmt rd fuel rest ap
        | 'd' =>
            let (num, ap) ← getint s.lflag ap
            fmtInt s num
            vprintfmt rd fuel rest ap
        | 'u' =>
            let (num, ap) ← getuint s.lflag ap
            printnum 10 s.padc 64 num.toNat s.width
            vprintfmt rd fuel rest ap
        | 'o' =>
            let (num, ap) ← getuint s.lflag ap
            printnum 8 s.padc 64 num.toNat s.width
            vprintfmt rd fuel rest ap
        | 'p' =>
            putChar '0'
            putChar 'x'
            let (a, ap) ← vaArg ap
            printnum 16 s.padc 64 a.toNat s.width
            vprintfmt rd fuel rest ap
        | 'x' =>
            let (num, ap) ← getuint s.lflag ap
            printnum 16 s.padc 64 num.toNat s.width
            vprintfmt rd fuel rest ap
        | '%' =>
            putChar '%'
            vprintfmt rd fuel rest ap
        | _ =>
            -- back up to the character after the `%` and print the sequence literally
            putChar '%'
            vprintfmt rd fuel fmt ap

end Printfmt

/-- `vcprintf`: the events of printing, latest first, and whether it came to its end. -/
def vcprintf (rd : Word → Option (BitVec 8)) (fmt : String) (ap : List Word) :
    Option Unit × List PrintEv :=
  (Printfmt.vprintfmt rd (fmt.length + 1) fmt.toList ap).run []

end Jos
