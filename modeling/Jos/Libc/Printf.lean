import Mathlib.Data.List.Basic
import Mathlib.Logic.Function.Basic
import Jos.Libc.PrintfmtSpec

/-!
# The front ends of the formatter (`kern/printf.c`, `lib/printf.c`, `lib/printfmt.c`)

Each front end gives `vprintfmt` its own `putch`, and a state that `vprintfmt` only passes on.  So
a front end folds its `putch` over the characters that were written.

The `putch` of the kernel has `*cnt++`, which moves the pointer and leaves the counter at 0.
-/

namespace Jos

open Printfmt Lib

/-- The characters of a log, the first one first. -/
def chars (L : List PrintEv) : List Word :=
  L.reverse.filterMap fun
    | .put ch => some ch
    | .load _ => none

/-- `vprintfmt` with a `putch` and its state. -/
def vprintfmtWith {σ : Type} (putch : σ → Word → σ) (b : σ) (rd : Word → Option (BitVec 8))
    (fmt : String) (ap : List Word) : Option σ :=
  match vcprintf rd fmt ap with
  | (none, _) => none
  | (some (), L) => some ((chars L).foldl putch b)

/-! ## The kernel -/

/-- The console, the latest character first, and `cnt`. -/
structure KernSink where
  console : List Word := []
  cnt : Word := 0

/-- `putch` of `kern/printf.c`: `cputchar(ch)`, and then `*cnt++` moves the pointer `cnt`. -/
def KernSink.putch (b : KernSink) (ch : Word) : KernSink := { b with console := ch :: b.console }

/-- `vcprintf` of `kern/printf.c`: the result is `cnt`. -/
def kernVcprintf (rd : Word → Option (BitVec 8)) (fmt : String) (ap : List Word) :
    Option KernSink :=
  vprintfmtWith KernSink.putch {} rd fmt ap

/-! ## The library -/

/-- `struct printbuf`, and the buffers that were passed to `sys_cputs`. -/
structure PrintBuf where
  idx : ℕ := 0
  cnt : Word := 0
  buf : ℕ → BitVec 8
  out : List (List (BitVec 8)) := []

namespace PrintBuf

/-- `sys_cputs(b->buf, b->idx)` -/
def sysCputs (b : PrintBuf) : PrintBuf :=
  { b with out := b.out ++ [(List.range b.idx).map b.buf] }

/-- `putch` of `lib/printf.c` -/
def putch (b : PrintBuf) (ch : Word) : PrintBuf :=
  let b := { b with buf := Function.update b.buf b.idx (ch.setWidth 8), idx := b.idx + 1 }
  let b := if b.idx = 256 - 1 then { b.sysCputs with idx := 0 } else b
  { b with cnt := b.cnt + 1 }

end PrintBuf

/-- `vcprintf` of `lib/printf.c`, with what the buffer holds at the start.  The result is
`b.cnt`. -/
def userVcprintf (buf : ℕ → BitVec 8) (rd : Word → Option (BitVec 8)) (fmt : String)
    (ap : List Word) : Option PrintBuf :=
  (vprintfmtWith PrintBuf.putch { buf := buf } rd fmt ap).map PrintBuf.sysCputs

/-! ## `vsnprintf` -/

/-- `struct sprintbuf`, and the memory. -/
structure SprintBuf where
  mem : ℕ → BitVec 8
  buf : ℕ
  ebuf : ℕ
  cnt : Word := 0

/-- `sprintputch` -/
def SprintBuf.putch (b : SprintBuf) (ch : Word) : SprintBuf :=
  let b := { b with cnt := b.cnt + 1 }
  if b.buf < b.ebuf then
    { b with mem := Function.update b.mem b.buf (ch.setWidth 8), buf := b.buf + 1 }
  else b

/-- `vsnprintf`: the result, and the memory. -/
def vsnprintf (mem : ℕ → BitVec 8) (buf n : Word) (rd : Word → Option (BitVec 8)) (fmt : String)
    (ap : List Word) : Option (Word × (ℕ → BitVec 8)) := do
  let b : SprintBuf := { mem := mem, buf := buf.toNat, ebuf := buf.toNat + n.toNat - 1 }
  if buf = 0 ∨ n.toInt < 1 then return (-E_INVAL, mem)
  else
    let b ← vprintfmtWith SprintBuf.putch b rd fmt ap
    return (b.cnt, Function.update b.mem b.buf 0)

/-! ## What they do with the characters -/

section

variable {w : List Word}

theorem KernSink.foldl_putch (w : List Word) (b : KernSink) :
    w.foldl KernSink.putch b = { b with console := w.reverse ++ b.console } := by
  induction w generalizing b with
  | nil => rfl
  | cons ch w ih =>
      rw [List.foldl_cons, ih, List.reverse_cons, List.append_assoc]
      rfl

/-- The buffers and what is not passed on yet are the characters `w`. -/
structure PrintBuf.Holds (b : PrintBuf) (w : List Word) : Prop where
  text : b.out.flatten ++ (List.range b.idx).map b.buf = w.map (·.setWidth 8)
  idx_lt : b.idx < 255
  length_le : ∀ c ∈ b.out, c.length ≤ 255
  cnt_eq : b.cnt = BitVec.ofNat 32 w.length

theorem PrintBuf.holds_nil (buf : ℕ → BitVec 8) : ({ buf := buf } : PrintBuf).Holds [] :=
  ⟨rfl, (by decide : 0 < 255), fun _ hc ↦ absurd hc List.not_mem_nil, rfl⟩

theorem map_range_update (buf : ℕ → BitVec 8) (i : ℕ) (c : BitVec 8) :
    (List.range (i + 1)).map (Function.update buf i c) = (List.range i).map buf ++ [c] := by
  rw [List.range_succ, List.map_append, List.map_singleton, Function.update_self]
  congr 1
  refine List.map_congr_left fun j hj ↦ ?_
  exact Function.update_of_ne (Nat.ne_of_lt (List.mem_range.mp hj)) _ _

theorem PrintBuf.Holds.putch {b : PrintBuf} (h : b.Holds w) (ch : Word) :
    (b.putch ch).Holds (w ++ [ch]) := by
  have htext : b.out.flatten ++ (List.range (b.idx + 1)).map
      (Function.update b.buf b.idx (ch.setWidth 8)) = (w ++ [ch]).map (·.setWidth 8) := by
    rw [map_range_update, ← List.append_assoc, h.text, List.map_append]
    rfl
  have hcnt : b.cnt + 1 = BitVec.ofNat 32 (w ++ [ch]).length := by
    rw [h.cnt_eq, List.length_append, BitVec.ofNat_add]
    rfl
  have hlt := h.idx_lt
  by_cases hfull : b.idx + 1 = 256 - 1
  · -- the buffer is full, and is passed on
    have hputch : b.putch ch =
        { idx := 0, cnt := b.cnt + 1, buf := Function.update b.buf b.idx (ch.setWidth 8),
          out := b.out ++ [(List.range (b.idx + 1)).map
            (Function.update b.buf b.idx (ch.setWidth 8))] } := by
      simp only [PrintBuf.putch, hfull, if_true]
      rfl
    rw [hputch]
    refine ⟨?_, (by decide : 0 < 255), fun c hc ↦ ?_, hcnt⟩
    · simpa using htext
    · rcases List.mem_append.mp hc with hc | hc
      · exact h.length_le c hc
      · rw [List.mem_singleton.mp hc, List.length_map, List.length_range]
        omega
  · have hputch : b.putch ch =
        { idx := b.idx + 1, cnt := b.cnt + 1,
          buf := Function.update b.buf b.idx (ch.setWidth 8), out := b.out } := by
      simp only [PrintBuf.putch, hfull, if_false]
    rw [hputch]
    exact ⟨htext, show b.idx + 1 < 255 by omega, h.length_le, hcnt⟩

theorem PrintBuf.Holds.foldl {b : PrintBuf} {v : List Word} (h : b.Holds v) (w : List Word) :
    (w.foldl PrintBuf.putch b).Holds (v ++ w) := by
  induction w generalizing b v with
  | nil => rwa [List.append_nil]
  | cons ch w ih =>
      rw [List.foldl_cons, List.append_cons]
      exact ih (h.putch ch)

/-- The memory with the bytes `cs` from `a` on. -/
def stored (mem : ℕ → BitVec 8) (a : ℕ) (cs : List (BitVec 8)) : ℕ → BitVec 8 := fun x ↦
  if a ≤ x then cs.getD (x - a) (mem x) else mem x

theorem stored_append (mem : ℕ → BitVec 8) (a : ℕ) (cs : List (BitVec 8)) (c : BitVec 8) :
    Function.update (stored mem a cs) (a + cs.length) c = stored mem a (cs ++ [c]) := by
  funext x
  by_cases hx : x = a + cs.length
  · subst hx
    rw [Function.update_self, stored, if_pos (Nat.le_add_right _ _), Nat.add_sub_cancel_left]
    simp
  · rw [Function.update_of_ne hx, stored, stored]
    split
    · next hle =>
        by_cases hlt : x - a < cs.length
        · simp [List.getD_eq_getElem?_getD, List.getElem?_append_left hlt]
        · have hlen : (cs ++ [c]).length ≤ x - a := by
            rw [List.length_append, List.length_singleton]
            omega
          rw [List.getD_eq_default _ _ (by omega), List.getD_eq_default _ _ hlen]
    · rfl

/-- After the characters `w`, the first `k` of them are stored. -/
structure SprintBuf.Holds (b : SprintBuf) (mem : ℕ → BitVec 8) (a k : ℕ) (w : List Word) :
    Prop where
  mem_eq : b.mem = stored mem a ((w.take k).map (·.setWidth 8))
  buf_eq : b.buf = a + (w.take k).length
  ebuf_eq : b.ebuf = a + k
  cnt_eq : b.cnt = BitVec.ofNat 32 w.length

theorem SprintBuf.Holds.putch {b : SprintBuf} {mem : ℕ → BitVec 8} {a k : ℕ}
    (h : b.Holds mem a k w) (ch : Word) : (b.putch ch).Holds mem a k (w ++ [ch]) := by
  have hcnt : b.cnt + 1 = BitVec.ofNat 32 (w ++ [ch]).length := by
    rw [h.cnt_eq, List.length_append, BitVec.ofNat_add]
    rfl
  by_cases hlt : w.length < k
  · have htake : w.take k = w := List.take_of_length_le hlt.le
    have htake' : (w ++ [ch]).take k = w ++ [ch] := by
      refine List.take_of_length_le ?_
      rw [List.length_append, List.length_singleton]
      omega
    have hroom : b.buf < b.ebuf := by
      rw [h.buf_eq, h.ebuf_eq, htake]
      omega
    have hputch : b.putch ch =
        { mem := Function.update b.mem b.buf (ch.setWidth 8), buf := b.buf + 1, ebuf := b.ebuf,
          cnt := b.cnt + 1 } := if_pos hroom
    rw [hputch]
    refine ⟨?_, ?_, h.ebuf_eq, hcnt⟩
    · have hlen : b.buf = a + (w.map (·.setWidth 8)).length := by
        rw [h.buf_eq, htake, List.length_map]
      rw [htake', List.map_append, h.mem_eq, htake, hlen]
      exact stored_append mem a _ _
    · show b.buf + 1 = a + ((w ++ [ch]).take k).length
      rw [htake', h.buf_eq, htake, List.length_append, List.length_singleton]
      omega
  · have htake : (w ++ [ch]).take k = w.take k := List.take_append_of_le_length (by omega)
    have hroom : ¬ b.buf < b.ebuf := by
      rw [h.buf_eq, h.ebuf_eq, List.length_take]
      omega
    have hputch : b.putch ch = { b with cnt := b.cnt + 1 } := if_neg hroom
    rw [hputch]
    exact ⟨by rw [htake]; exact h.mem_eq, by rw [htake]; exact h.buf_eq, h.ebuf_eq, hcnt⟩

theorem SprintBuf.Holds.foldl {b : SprintBuf} {mem : ℕ → BitVec 8} {a k : ℕ} {v : List Word}
    (h : b.Holds mem a k v) (w : List Word) :
    (w.foldl SprintBuf.putch b).Holds mem a k (v ++ w) := by
  induction w generalizing b v with
  | nil => rwa [List.append_nil]
  | cons ch w ih =>
      rw [List.foldl_cons, List.append_cons]
      exact ih (h.putch ch)

end

/-! ## Parts that write something -/

theorem chars_cons_put (ch : Word) (L : List PrintEv) : chars (.put ch :: L) = chars L ++ [ch] := by
  simp [chars]

theorem chars_cons_load (a : Word) (L : List PrintEv) : chars (.load a :: L) = chars L := by
  simp [chars]

/-- Whatever happens, `x` takes no character back. -/
def Appends {α : Type} (x : Print α) : Prop := ∀ L, chars L <+: chars (x.run L).2

/-- If `x` returns, it has written a character. -/
def Writes {α : Type} (x : Print α) : Prop :=
  ∀ L a L', x.run L = (some a, L') → (chars L).length < (chars L').length

section

variable {α β : Type} {x : Print α} {f : α → Print β}

theorem Appends.pure (a : α) : Appends (Pure.pure a : Print α) := fun _ ↦ List.prefix_rfl

theorem Appends.failure : Appends (failure : Print α) := fun _ ↦ List.prefix_rfl

theorem Appends.bind (hx : Appends x) (hf : ∀ a, Appends (f a)) : Appends (x >>= f) := by
  intro L
  have hgrow := hx L
  rw [run_bind]
  cases h : x.run L with
  | mk o L' =>
      rw [h] at hgrow
      cases o with
      | none => exact hgrow
      | some a => exact hgrow.trans (hf a L')

theorem Appends.length_le (hx : Appends x) (L : List PrintEv) :
    (chars L).length ≤ (chars (x.run L).2).length := (hx L).length_le

theorem Appends.putch (ch : Word) : Appends (Printfmt.putch ch) := by
  intro L
  show chars L <+: chars (.put ch :: L)
  rw [chars_cons_put]
  exact List.prefix_append _ _

theorem Appends.loadMem (rd : Word → Option (BitVec 8)) (p : Word) : Appends (loadMem rd p) := by
  intro L
  have h : chars ((Printfmt.loadMem rd p).run L).2 = chars L := by
    rw [run_loadMem]
    exact chars_cons_load p L
  exact h ▸ List.prefix_rfl

theorem Appends.loadLit (cs : List Char) (p : Word) : Appends (loadLit cs p) := Appends.pure _

theorem Writes.bind_left (hx : Writes x) (hf : ∀ a, Appends (f a)) : Writes (x >>= f) := by
  intro L b L' h
  obtain ⟨a, L₁, hx', hf'⟩ := run_bind_some h
  have hle := (hf a).length_le L₁
  rw [hf'] at hle
  exact (hx L a L₁ hx').trans_le hle

theorem Writes.bind_right (hx : Appends x) (hf : ∀ a, Writes (f a)) : Writes (x >>= f) := by
  intro L b L' h
  obtain ⟨a, L₁, hx', hf'⟩ := run_bind_some h
  have hle := hx.length_le L
  rw [hx'] at hle
  exact hle.trans_lt (hf a L₁ b L' hf')

theorem Writes.putch (ch : Word) : Writes (Printfmt.putch ch) := by
  intro L a L' h
  obtain rfl : PrintEv.put ch :: L = L' := (Prod.mk.inj h).2
  rw [chars_cons_put, List.length_append]
  exact Nat.lt_succ_self _

theorem Appends.pad (c : Char) (n : ℕ) : Appends (pad c n) := by
  induction n with
  | zero => exact Appends.pure ()
  | succ n ih => exact (Appends.putch _).bind fun _ ↦ ih

theorem Writes.pad (c : Char) {n : ℕ} (hn : 0 < n) : Writes (pad c n) := by
  cases n with
  | zero => exact absurd hn (Nat.lt_irrefl 0)
  | succ n => exact (Writes.putch _).bind_left fun _ ↦ Appends.pad c n

theorem Appends.printnum (base : ℕ) (padc : Char) (fuel num : ℕ) (width : Int) :
    Appends (printnum base padc fuel num width) := by
  induction fuel generalizing num width with
  | zero => exact Appends.failure
  | succ fuel ih =>
      rw [Printfmt.printnum]
      split
      · exact (ih _ _).bind fun _ ↦ Appends.putch _
      · exact (Appends.pad _ _).bind fun _ ↦ Appends.putch _

theorem Writes.printnum (base : ℕ) (padc : Char) (fuel num : ℕ) (width : Int) :
    Writes (printnum base padc fuel num width) := by
  cases fuel with
  | zero => exact fun L a L' h ↦ nomatch (Prod.mk.inj h).1
  | succ fuel =>
      rw [Printfmt.printnum]
      split
      · exact Writes.bind_right (Appends.printnum _ _ _ _ _) fun _ ↦ Writes.putch _
      · exact Writes.bind_right (Appends.pad _ _) fun _ ↦ Writes.putch _

theorem Writes.fmtInt (s : Spec) (num : BitVec 64) : Writes (fmtInt s num) := by
  rw [Printfmt.fmtInt]
  split
  · exact (Writes.putch _).bind_left fun _ ↦ Appends.printnum _ _ _ _ _
  · exact Writes.printnum _ _ _ _ _

theorem Appends.fmtInt (s : Spec) (num : BitVec 64) : Appends (fmtInt s num) := by
  rw [Printfmt.fmtInt]
  split
  · exact (Appends.putch _).bind fun _ ↦ Appends.printnum _ _ _ _ _
  · exact Appends.printnum _ _ _ _ _

theorem Appends.vaArg (ap : List Word) : Appends (vaArg ap) := by
  cases ap with
  | nil => exact Appends.failure
  | cons a ap => exact Appends.pure _

theorem Appends.getint (lflag : ℕ) (ap : List Word) : Appends (getint lflag ap) := by
  refine (Appends.vaArg ap).bind fun x ↦ ?_
  dsimp only
  split
  · exact (Appends.vaArg _).bind fun _ ↦ Appends.pure _
  · exact Appends.pure _

theorem Appends.getuint (lflag : ℕ) (ap : List Word) : Appends (getuint lflag ap) := by
  refine (Appends.vaArg ap).bind fun x ↦ ?_
  dsimp only
  split
  · exact (Appends.vaArg _).bind fun _ ↦ Appends.pure _
  · exact Appends.pure _

/-! ## Strings -/

section

variable {load : Word → Print (BitVec 8)}

theorem Appends.strnlen (hload : ∀ p, Appends (load p)) (fuel : ℕ) (p : Word) (size : ℕ) (n : Int) :
    Appends (strnlen load fuel p size n) := by
  induction fuel generalizing p size n with
  | zero => exact Appends.failure
  | succ fuel ih =>
      cases size with
      | zero => exact Appends.pure n
      | succ size =>
          refine (hload p).bind fun b ↦ ?_
          split
          · exact Appends.pure n
          · exact ih _ _ _

theorem Appends.putString (hload : ∀ p, Appends (load p)) (alt : Bool) (fuel : ℕ) (p : Word)
    (precision width : Int) : Appends (putString load alt fuel p precision width) := by
  induction fuel generalizing p precision width with
  | zero => exact Appends.failure
  | succ fuel ih =>
      refine (hload p).bind fun b ↦ ?_
      split
      · exact Appends.pure width
      · extract_lets precision'
        split
        · split
          · exact (Appends.putch _).bind fun _ ↦ ih _ _ _
          · exact (Appends.putch _).bind fun _ ↦ ih _ _ _
        · exact Appends.pure width

theorem Appends.fmtString (hload : ∀ p, Appends (load p)) (s : Spec) (p : Word) :
    Appends (fmtString load s p) := by
  rw [Printfmt.fmtString]
  have hrest : ∀ width, Appends (do
      let width ← Printfmt.putString load s.altflag strFuel p s.precision width
      Printfmt.pad ' ' width.toNat) :=
    fun width ↦ (Appends.putString hload _ _ _ _ _).bind fun _ ↦ Appends.pad _ _
  dsimp only
  split
  · simp only [pure_bind]
    exact (Appends.strnlen hload _ _ _ _).bind fun n ↦ (Appends.pad _ _).bind fun _ ↦ hrest _
  · rw [pure_bind]
    exact hrest _

variable {p : Word} {b : BitVec 8}

/-- Loading the first byte of a string writes nothing. -/
def FirstByte (load : Word → Print (BitVec 8)) (p : Word) (b : BitVec 8) : Prop :=
  ∀ L, ∃ L₁, (load p).run L = (some b, L₁) ∧ chars L₁ = chars L

theorem FirstByte.putString_nothing (h : FirstByte load p b) (alt : Bool) (fuel : ℕ)
    {precision : Int} (hb : b = 0 ∨ precision = 0) (width : Int) (L : List PrintEv) : ∃ L₁,
    (putString load alt (fuel + 1) p precision width).run L = (some width, L₁) ∧
      chars L₁ = chars L := by
  obtain ⟨L₁, hrun, hchars⟩ := h L
  refine ⟨L₁, ?_, hchars⟩
  rw [putString_round hrun]
  by_cases hz : b = 0
  · rw [if_pos hz]
  · have hprec : precision = 0 := hb.resolve_left hz
    rw [if_neg hz, if_neg (by omega)]

theorem FirstByte.writes_putString (h : FirstByte load p b) (hload : ∀ p, Appends (load p))
    {alt : Bool} {fuel : ℕ} {precision width : Int} (hb : b ≠ 0) (hprec : precision ≠ 0) :
    Writes (putString load alt (fuel + 1) p precision width) := by
  intro L a L' hrun
  obtain ⟨L₁, hfirst, hchars⟩ := h L
  rw [putString_round hfirst, if_neg hb, if_pos (by omega)] at hrun
  have hend : _ = L' := congrArg Prod.snd hrun
  rw [← hend]
  refine Nat.lt_of_lt_of_le ?_ ((Appends.putString hload _ _ _ _ _).length_le _)
  rw [chars_cons_put, hchars, List.length_append]
  exact Nat.lt_succ_self _

/-- A string that is not empty, or the padding on the right. -/
theorem FirstByte.writes_right (h : FirstByte load p b) (hload : ∀ p, Appends (load p)) {alt : Bool}
    {fuel : ℕ} {precision width : Int} (hw : 0 < width ∨ b ≠ 0 ∧ precision ≠ 0) :
    Writes (do
      let width ← putString load alt (fuel + 1) p precision width
      pad ' ' width.toNat) := by
  by_cases hb : b ≠ 0 ∧ precision ≠ 0
  · exact (h.writes_putString hload hb.1 hb.2).bind_left fun _ ↦ Appends.pad _ _
  · have hpos : 0 < width := hw.resolve_right hb
    have hnone : b = 0 ∨ precision = 0 := by
      by_contra hc
      exact hb (not_or.mp hc)
    intro L a L' hrun
    obtain ⟨L₁, hput, hchars⟩ := h.putString_nothing alt fuel hnone width L
    rw [run_bind, hput] at hrun
    rw [← hchars]
    exact Writes.pad ' ' (by omega) L₁ a L' hrun

/-- A length that is positive comes from a first byte that is not NUL. -/
theorem FirstByte.strnlen_pos (h : FirstByte load p b) {fuel size : ℕ} {n : Int}
    {L L' : List PrintEv} (hrun : (strnlen load (fuel + 1) p size 0).run L = (some n, L'))
    (hn : 0 < n) :
    b ≠ 0 ∧ size ≠ 0 := by
  cases size with
  | zero =>
      obtain rfl : (0 : Int) = n := Option.some.inj (Prod.mk.inj hrun).1
      exact absurd hn (Int.lt_irrefl 0)
  | succ size =>
      refine ⟨fun hb ↦ ?_, Nat.succ_ne_zero size⟩
      obtain ⟨L₁, hfirst, -⟩ := h L
      rw [strnlen, run_bind, hfirst] at hrun
      simp only [hb, if_true] at hrun
      obtain rfl : (0 : Int) = n := Option.some.inj (Prod.mk.inj hrun).1
      exact absurd hn (Int.lt_irrefl 0)

/-- `%s` writes nothing just if there is no width, and no character. -/
theorem FirstByte.writes_fmtString (h : FirstByte load p b) (hload : ∀ p, Appends (load p))
    {s : Spec} (hs : 0 < s.width ∨ b ≠ 0 ∧ s.precision ≠ 0) : Writes (fmtString load s p) := by
  have hright : ∀ width, (0 < width ∨ b ≠ 0 ∧ s.precision ≠ 0) → Writes (do
      let width ← putString load s.altflag strFuel p s.precision width
      pad ' ' width.toNat) := fun width hw ↦ h.writes_right hload hw
  rw [fmtString]
  dsimp only
  split
  · simp only [pure_bind]
    intro L a L' hrun
    obtain ⟨n, L₁, hlen, hrun⟩ := run_bind_some hrun
    obtain ⟨_, L₂, hpad, hrun⟩ := run_bind_some hrun
    have h1 := (Appends.strnlen hload strFuel p (BitVec.ofInt 32 s.precision).toNat 0).length_le L
    have h2 := (Appends.pad s.padc (s.width - n).toNat).length_le L₁
    rw [hlen] at h1
    rw [hpad] at h2
    by_cases hlt : n < s.width
    · -- padding on the left
      have hpos := Writes.pad s.padc (show 0 < (s.width - n).toNat by omega) L₁ _ L₂ hpad
      have h3 := ((Appends.putString hload s.altflag strFuel p s.precision
        (min (s.width - n) 0)).bind fun width ↦ Appends.pad ' ' width.toNat).length_le L₂
      rw [hrun] at h3
      exact (h1.trans_lt hpos).trans_le h3
    · -- the string is as long as the width
      obtain ⟨hb, hsize⟩ := h.strnlen_pos hlen (by omega)
      have hprec : s.precision ≠ 0 := by
        intro hz
        rw [hz] at hsize
        exact hsize rfl
      exact (h1.trans h2).trans_lt (hright _ (.inr ⟨hb, hprec⟩) L₂ a L' hrun)
  · rw [pure_bind]
    exact hright _ hs

theorem FirstByte.fmtString_nothing (h : FirstByte load p b) {s : Spec} (hwidth : s.width ≤ 0)
    (hb : b = 0 ∨ s.precision = 0) (L : List PrintEv) : ∃ L₁,
    (fmtString load s p).run L = (some (), L₁) ∧ chars L₁ = chars L := by
  obtain ⟨L₁, hput, hchars⟩ := h.putString_nothing s.altflag (2 ^ 32) hb s.width L
  refine ⟨L₁, ?_, hchars⟩
  have hpad : s.width.toNat = 0 := by omega
  rw [fmtString, if_neg (by omega), pure_bind, run_bind, show strFuel = 2 ^ 32 + 1 from rfl, hput]
  simp only [hpad]
  rfl

end

end

/-! ## Formats that write nothing -/

section

variable {rd : Word → Option (BitVec 8)} {ch : Char} {s : Spec} {ap : List Word}

theorem FirstByte.mem {p : Word} {b : BitVec 8} (h : rd p = some b) : FirstByte (loadMem rd) p b :=
  fun L ↦ ⟨.load p :: L, by rw [run_loadMem, h], chars_cons_load p L⟩

theorem FirstByte.lit (c : Char) (cs : List Char) :
    FirstByte (loadLit (c :: cs)) 0 (BitVec.ofNat 8 c.toNat) := fun L ↦ ⟨L, rfl, rfl⟩

theorem Appends.forM_putChar (cs : List Char) : Appends (cs.forM putChar) := by
  induction cs with
  | nil => exact Appends.pure _
  | cons c cs ih => exact (Appends.putch _).bind fun _ ↦ ih

/-- The texts of the errors are not empty. -/
theorem errorString_ne_nil {k : ℕ} {t : String} (h : errorString k = some t) :
    ∃ c cs, t.toList = c :: cs ∧ BitVec.ofNat 8 c.toNat ≠ 0 := by
  unfold errorString at h
  split at h
  case h_9 => cases h
  all_goals
    obtain rfl := Option.some.inj h
    exact ⟨_, _, rfl, by decide⟩

theorem Writes.fmtError (err : Word) : Writes (fmtError err) := by
  rw [Printfmt.fmtError]
  split
  · next t ht =>
      obtain ⟨c, cs, hcs, hc⟩ := errorString_ne_nil ht
      rw [hcs]
      exact (FirstByte.lit c cs).writes_fmtString (Appends.loadLit _) (.inr ⟨hc, by decide⟩)
  · exact Writes.bind_right (Appends.forM_putChar _) fun _ ↦ Writes.fmtInt _ _

/-- All conversions but `%s` write something. -/
theorem writes_conversion {x : Print (List Word)} (hch : ch ≠ 's')
    (hx : conversion rd ch s ap = some x) : Writes x := by
  unfold conversion at hx
  split at hx
  case h_3 => exact absurd rfl hch
  case h_10 => cases hx
  all_goals obtain rfl := Option.some.inj hx
  · exact Writes.bind_right (Appends.vaArg _) fun _ ↦
      (Writes.putch _).bind_left fun _ ↦ Appends.pure _
  · exact Writes.bind_right (Appends.vaArg _) fun _ ↦
      (Writes.fmtError _).bind_left fun _ ↦ Appends.pure _
  · exact Writes.bind_right (Appends.getint _ _) fun _ ↦
      (Writes.fmtInt _ _).bind_left fun _ ↦ Appends.pure _
  · exact Writes.bind_right (Appends.getuint _ _) fun _ ↦
      (Writes.printnum _ _ _ _ _).bind_left fun _ ↦ Appends.pure _
  · exact Writes.bind_right (Appends.getuint _ _) fun _ ↦
      (Writes.printnum _ _ _ _ _).bind_left fun _ ↦ Appends.pure _
  · exact (Writes.putch _).bind_left fun _ ↦ (Appends.putch _).bind fun _ ↦
      (Appends.vaArg _).bind fun _ ↦ (Appends.printnum _ _ _ _ _).bind fun _ ↦ Appends.pure _
  · exact Writes.bind_right (Appends.getuint _ _) fun _ ↦
      (Writes.printnum _ _ _ _ _).bind_left fun _ ↦ Appends.pure _
  · exact (Writes.putch _).bind_left fun _ ↦ Appends.pure _

/-- A string that was printed has a first byte. -/
theorem exists_byte_of_fmtString {p : Word} {L L' : List PrintEv}
    (h : (fmtString (loadMem rd) s p).run L = (some (), L')) : ∃ b, rd p = some b := by
  have hright : ∀ width L₁, (do
      let width ← putString (loadMem rd) s.altflag strFuel p s.precision width
      pad ' ' width.toNat : Print Unit).run L₁ = (some (), L') → ∃ b, rd p = some b := by
    intro width L₁ hrun
    obtain ⟨w, L₂, hput, -⟩ := run_bind_some hrun
    rw [show strFuel = 2 ^ 32 + 1 from rfl, putString] at hput
    obtain ⟨b, L₃, hload, -⟩ := run_bind_some hput
    rw [run_loadMem] at hload
    exact ⟨b, (Prod.mk.inj hload).1⟩
  rw [fmtString] at h
  split at h
  · obtain ⟨n, L₁, -, h⟩ := run_bind_some h
    obtain ⟨_, L₂, -, h⟩ := run_bind_some h
    exact hright _ _ h
  · rw [pure_bind] at h
    exact hright _ _ h

/-- `%s` has no character to write. -/
def EmptyStr (rd : Word → Option (BitVec 8)) (s : Spec) (p : Word) : Prop :=
  s.precision = 0 ∨ p ≠ 0 ∧ rd p = some 0

theorem FirstByte.chars_eq_iff {load : Word → Print (BitVec 8)} {p : Word} {b : BitVec 8}
    (h : FirstByte load p b) (hload : ∀ p, Appends (load p)) {L L' : List PrintEv}
    (hrun : (fmtString load s p).run L = (some (), L')) :
    (chars L).length ≤ (chars L').length ∧
      ((chars L').length = (chars L).length ↔ s.width ≤ 0 ∧ (s.precision = 0 ∨ b = 0)) := by
  by_cases hs : s.width ≤ 0 ∧ (s.precision = 0 ∨ b = 0)
  · obtain ⟨L₁, hnone, hchars⟩ := h.fmtString_nothing hs.1 hs.2.symm L
    obtain rfl : L₁ = L' := (Prod.mk.inj (hnone.symm.trans hrun)).2
    rw [hchars]
    exact ⟨Nat.le_refl _, iff_of_true rfl hs⟩
  · have hlt := h.writes_fmtString hload (s := s) (by
      by_contra hc
      obtain ⟨hwidth, hb⟩ := not_or.mp hc
      refine hs ⟨Int.not_lt.mp hwidth, ?_⟩
      by_contra hor
      exact hb ⟨(not_or.mp hor).2, (not_or.mp hor).1⟩) L () L' hrun
    exact ⟨hlt.le, iff_of_false (Nat.ne_of_gt hlt) hs⟩

/-- What `%s` writes. -/
theorem chars_percent_s {x : Print (List Word)} {ap' : List Word} {L L' : List PrintEv}
    (hx : conversion rd 's' s ap = some x) (hrun : x.run L = (some ap', L')) :
    ∃ p, ap = p :: ap' ∧ (chars L).length ≤ (chars L').length ∧
      ((chars L').length = (chars L).length ↔ s.width ≤ 0 ∧ EmptyStr rd s p) := by
  obtain rfl := Option.some.inj hx
  cases ap with
  | nil => cases (Prod.mk.inj hrun).1
  | cons p ap =>
      obtain ⟨a, L₁, harg, hrun⟩ := run_bind_some hrun
      obtain ⟨ha, rfl⟩ := Prod.mk.inj harg
      obtain rfl : (p, ap) = a := Option.some.inj ha
      dsimp only at hrun
      by_cases hp : p = 0
      · rw [if_pos hp] at hrun
        obtain ⟨_, L₂, hstr, hret⟩ := run_bind_some hrun
        obtain ⟨hap, rfl⟩ := Prod.mk.inj hret
        obtain rfl := Option.some.inj hap
        obtain ⟨hle, hiff⟩ := (FirstByte.lit '(' _).chars_eq_iff (Appends.loadLit _) hstr
        refine ⟨p, rfl, hle, hiff.trans (and_congr_right fun _ ↦ or_congr_right ?_)⟩
        exact iff_of_false (by decide) fun hc ↦ hc.1 hp
      · rw [if_neg hp] at hrun
        obtain ⟨_, L₂, hstr, hret⟩ := run_bind_some hrun
        obtain ⟨hap, rfl⟩ := Prod.mk.inj hret
        obtain rfl := Option.some.inj hap
        obtain ⟨b, hb⟩ := exists_byte_of_fmtString hstr
        obtain ⟨hle, hiff⟩ := (FirstByte.mem hb).chars_eq_iff (Appends.loadMem rd) hstr
        refine ⟨p, rfl, hle, hiff.trans (and_congr_right fun _ ↦ or_congr_right ?_)⟩
        rw [hb, Option.some.injEq, and_iff_right hp]

/-- The format consists of `%s` directives without a width, and their strings are empty. -/
inductive Silent (rd : Word → Option (BitVec 8)) : List Char → List Word → Prop
  | nil (ap : List Word) : Silent rd [] ap
  | str {fmt rest : List Char} {ap ap' : List Word} {s : Spec} {p : Word}
      (flags : flagChars none {} ap fmt = pure ('s', s, p :: ap', rest)) (width : s.width ≤ 0)
      (empty : EmptyStr rd s p) (rest : Silent rd rest ap') : Silent rd ('%' :: fmt) ap

/-- A directive with another conversion than `%s` is not silent. -/
theorem not_silent_percent {fmt rest : List Char} {ap' : List Word}
    (hflags : flagChars none {} ap fmt = pure (ch, s, ap', rest)) (hch : ch ≠ 's') :
    ¬ Silent rd ('%' :: fmt) ap := by
  rintro (_ | ⟨hflags', -, -, -⟩)
  exact hch (Prod.mk.inj (pure_print_inj (hflags.symm.trans hflags'))).1

/-- A run of the formatter takes no character back, and it writes none just if the format is
silent. -/
theorem length_chars_vprintfmt {fuel : ℕ} {fmt : List Char} {L L' : List PrintEv}
    (hrun : (vprintfmt rd fuel fmt ap).run L = (some (), L')) :
    (chars L).length ≤ (chars L').length ∧
      ((chars L').length = (chars L).length ↔ Silent rd fmt ap) := by
  -- where something was written first
  have hmore : ∀ {n m : ℕ} {P : Prop}, n < m → m ≤ (chars L').length → ¬ P →
      n ≤ (chars L').length ∧ ((chars L').length = n ↔ P) :=
    fun hlt hle hP ↦ ⟨hlt.le.trans hle, iff_of_false (by omega) hP⟩
  induction fuel generalizing fmt ap L with
  | zero => cases (Prod.mk.inj hrun).1
  | succ fuel ih =>
      cases fmt with
      | nil =>
          obtain rfl : L = L' := (Prod.mk.inj hrun).2
          exact ⟨Nat.le_refl _, iff_of_true rfl (.nil ap)⟩
      | cons c fmt =>
          by_cases hc : c = '%'
          · subst hc
            rw [vprintfmt_percent] at hrun
            rcases flagChars_pure_or_failure none {} ap fmt with
              ⟨⟨ch, s, ap₁, rest⟩, hflags⟩ | hfail
            · rw [hflags, pure_bind] at hrun
              dsimp only at hrun
              cases hconv : conversion rd ch s ap₁ with
              | none =>
                  rw [hconv] at hrun
                  obtain ⟨_, L₁, hput, hrest⟩ := run_bind_some hrun
                  have hlt := Writes.putch _ L _ L₁ hput
                  refine hmore hlt (ih hrest).1 (not_silent_percent hflags ?_)
                  rintro rfl
                  cases hconv
              | some x =>
                  rw [hconv] at hrun
                  obtain ⟨ap₂, L₁, hx, hrest⟩ := run_bind_some hrun
                  obtain ⟨hle, hiff⟩ := ih hrest
                  by_cases hch : ch = 's'
                  · subst hch
                    obtain ⟨p, rfl, hle', hiff'⟩ := chars_percent_s hconv hx
                    refine ⟨hle'.trans hle, ?_⟩
                    constructor
                    · intro heq
                      obtain ⟨hwidth, hempty⟩ := hiff'.mp (by omega)
                      exact .str hflags hwidth hempty (hiff.mp (by omega))
                    · rintro (_ | ⟨hflags', hwidth, hempty, hsilent⟩)
                      have hinj := pure_print_inj (hflags.symm.trans hflags')
                      simp only [Prod.mk.injEq, List.cons.injEq, true_and] at hinj
                      obtain ⟨rfl, ⟨rfl, rfl⟩, rfl⟩ := hinj
                      rw [hiff.mpr hsilent, hiff'.mpr ⟨hwidth, hempty⟩]
                  · have hlt := writes_conversion hch hconv L ap₂ L₁ hx
                    exact hmore hlt hle (not_silent_percent hflags hch)
            · rw [hfail] at hrun
              cases (Prod.mk.inj hrun).1
          · rw [vprintfmt_char hc] at hrun
            obtain ⟨_, L₁, hput, hrest⟩ := run_bind_some hrun
            have hlt := Writes.putch _ L _ L₁ hput
            refine hmore hlt (ih hrest).1 ?_
            rintro (_ | _)
            exact hc rfl

theorem chars_eq_nil_iff_silent {fmt : String} {L : List PrintEv}
    (hrun : vcprintf rd fmt ap = (some (), L)) : chars L = [] ↔ Silent rd fmt.toList ap := by
  rw [← (length_chars_vprintfmt hrun).2]
  exact List.length_eq_zero_iff.symm

end

/-! ## Agreement -/

/-- What the three front ends pass on or store is `w`, where the buffer of `vsnprintf` has room for
`m` characters. -/
structure SameText (w : List Word) (k : KernSink) (u : PrintBuf) (mem : ℕ → BitVec 8)
    (buf m : ℕ) (r : Word × (ℕ → BitVec 8)) : Prop where
  console : k.console.reverse = w
  buffers : u.out.flatten = w.map (·.setWidth 8)
  buffer_le : ∀ c ∈ u.out, c.length ≤ 255
  stored_eq : r.2 = stored mem buf ((w.take m).map (·.setWidth 8) ++ [0])

/-- And what they return is its length. -/
structure FrontEndsAgree (w : List Word) (k : KernSink) (u : PrintBuf) (mem : ℕ → BitVec 8)
    (buf m : ℕ) (r : Word × (ℕ → BitVec 8)) : Prop extends SameText w k u mem buf m r where
  kern_length : k.cnt.toInt = w.length
  user_length : u.cnt.toInt = w.length
  vsnprintf_length : r.1.toInt = w.length

section

variable {rd : Word → Option (BitVec 8)} {fmt : String} {ap : List Word} {L : List PrintEv}

theorem vprintfmtWith_eq {σ : Type} (putch : σ → Word → σ) (b : σ)
    (hrun : vcprintf rd fmt ap = (some (), L)) :
    vprintfmtWith putch b rd fmt ap = some ((chars L).foldl putch b) := by
  rw [vprintfmtWith, hrun]

theorem kernVcprintf_eq (hrun : vcprintf rd fmt ap = (some (), L)) :
    kernVcprintf rd fmt ap = some { console := (chars L).reverse, cnt := 0 } := by
  rw [kernVcprintf, vprintfmtWith_eq _ _ hrun, KernSink.foldl_putch, List.append_nil]

/-- The library passes all characters on, in buffers that are not too long. -/
theorem userVcprintf_eq (buf : ℕ → BitVec 8) (hrun : vcprintf rd fmt ap = (some (), L)) :
    ∃ u, userVcprintf buf rd fmt ap = some u ∧ u.out.flatten = (chars L).map (·.setWidth 8) ∧
      (∀ c ∈ u.out, c.length ≤ 255) ∧ u.cnt = BitVec.ofNat 32 (chars L).length := by
  have hold := (PrintBuf.holds_nil buf).foldl (chars L)
  rw [List.nil_append] at hold
  refine ⟨((chars L).foldl PrintBuf.putch { buf := buf }).sysCputs, ?_, ?_, fun c hc ↦ ?_, ?_⟩
  · rw [userVcprintf, vprintfmtWith_eq _ _ hrun]
    rfl
  · rw [← hold.text, PrintBuf.sysCputs, List.flatten_append, List.flatten_singleton]
  · rcases List.mem_append.mp hc with hc | hc
    · exact hold.length_le c hc
    · rw [List.mem_singleton.mp hc, List.length_map, List.length_range]
      exact hold.idx_lt.le
  · exact hold.cnt_eq

/-- `vsnprintf` stores what fits, and a NUL. -/
theorem vsnprintf_eq (mem : ℕ → BitVec 8) {buf n : Word} (hbuf : buf ≠ 0) (hn : 1 ≤ n.toInt)
    (hrun : vcprintf rd fmt ap = (some (), L)) : vsnprintf mem buf n rd fmt ap =
      some (BitVec.ofNat 32 (chars L).length,
        stored mem buf.toNat (((chars L).take (n.toNat - 1)).map (·.setWidth 8) ++ [0])) := by
  have hpos : 0 < n.toNat := by
    rw [BitVec.toInt_eq_toNat_cond] at hn
    split at hn <;> omega
  have hstart : ({ mem := mem, buf := buf.toNat, ebuf := buf.toNat + n.toNat - 1 } :
      SprintBuf).Holds mem buf.toNat (n.toNat - 1) [] := by
    refine ⟨?_, ?_, ?_, rfl⟩
    · funext x
      rw [List.take_nil, List.map_nil, stored]
      split <;> rfl
    · rw [List.take_nil]
      rfl
    · show buf.toNat + n.toNat - 1 = buf.toNat + (n.toNat - 1)
      omega
  have hold := hstart.foldl (chars L)
  rw [List.nil_append] at hold
  have hcond : ¬ (buf = 0 ∨ n.toInt < 1) := by
    rintro (hc | hc)
    · exact hbuf hc
    · omega
  rw [vsnprintf, if_neg hcond, vprintfmtWith_eq _ _ hrun, Option.bind_eq_bind, Option.bind_some,
    hold.cnt_eq, hold.mem_eq, hold.buf_eq, ← stored_append, List.length_map]
  rfl

end

/-- All front ends get the same text, but they return its length just if there is no text: the
kernel returns 0. -/
theorem front_ends_agree_iff {rd : Word → Option (BitVec 8)} {fmt : String} {ap : List Word}
    {L : List PrintEv} (hrun : vcprintf rd fmt ap = (some (), L)) (pbuf mem : ℕ → BitVec 8)
    {buf n : Word} (hbuf : buf ≠ 0) (hn : 1 ≤ n.toInt) : ∃ k u r,
    kernVcprintf rd fmt ap = some k ∧ userVcprintf pbuf rd fmt ap = some u ∧
      vsnprintf mem buf n rd fmt ap = some r ∧
      SameText (chars L) k u mem buf.toNat (n.toNat - 1) r ∧
      (FrontEndsAgree (chars L) k u mem buf.toNat (n.toNat - 1) r ↔
        Silent rd fmt.toList ap) := by
  obtain ⟨u, hu, hbuffers, hle, hcnt⟩ := userVcprintf_eq pbuf hrun
  have hsame : SameText (chars L) { console := (chars L).reverse, cnt := 0 } u mem buf.toNat
      (n.toNat - 1) (BitVec.ofNat 32 (chars L).length,
        stored mem buf.toNat (((chars L).take (n.toNat - 1)).map (·.setWidth 8) ++ [0])) :=
    ⟨List.reverse_reverse _, hbuffers, hle, rfl⟩
  refine ⟨_, u, _, kernVcprintf_eq hrun, hu, vsnprintf_eq mem hbuf hn hrun, hsame, ?_⟩
  rw [← chars_eq_nil_iff_silent hrun]
  constructor
  · intro h
    have hzero : (0 : Int) = (chars L).length := h.kern_length
    exact List.length_eq_zero_iff.mp (Int.ofNat.inj hzero).symm
  · intro hnil
    refine ⟨hsame, ?_, ?_, ?_⟩
    · rw [hnil]
      rfl
    · rw [hcnt, hnil]
      rfl
    · rw [hnil]
      rfl

theorem front_ends_agree_iff_char : ∃ k u r, kernVcprintf (fun _ ↦ none) "a" [] = some k ∧
    userVcprintf (fun _ ↦ 0) (fun _ ↦ none) "a" [] = some u ∧
      vsnprintf (fun _ ↦ 0) 0x1000 2 (fun _ ↦ none) "a" [] = some r ∧
      SameText [0x61] k u (fun _ ↦ 0) 0x1000 1 r ∧
      (FrontEndsAgree [0x61] k u (fun _ ↦ 0) 0x1000 1 r ↔
        Silent (fun _ ↦ none) "a".toList []) :=
  front_ends_agree_iff (L := [.put 0x61]) rfl (fun _ ↦ 0) (fun _ ↦ 0) (by decide) (by decide)

/-- `cprintf("a")` of the kernel writes one character and returns 0. -/
theorem kern_vcprintf_returns_zero :
    (kernVcprintf (fun _ ↦ none) "a" []).map (fun k ↦ (k.console, k.cnt)) = some ([0x61], 0) := by
  decide

end Jos
