import Jos.Kern.Console

/-!
# The buffer of the console (`cons` in `kern/console.c`)

The buffer as it is declared: an array, two positions that are plain words, and drivers that return
any `int`.  It represents a ring (`Jos.Lib.Ring`), whose contents are the characters that nobody has
read, as long as there are at most 511 of them.

What a driver returns is cut to a byte when it is put into the buffer.
-/

namespace Jos

open Jos.Lib

/-- The structure `cons`, with the indices of `buf` that were read or written, latest first. -/
structure ConsBuf where
  buf : ℕ → Byte
  rpos : Word
  wpos : Word
  log : List ℕ

namespace ConsBuf

/-- `cons.buf[cons.wpos++] = c`, and back to the start at the end -/
def put (b : ConsBuf) (c : Word) : ConsBuf :=
  let b := { b with
    buf := Function.update b.buf b.wpos.toNat (c.setWidth 8)
    wpos := b.wpos + 1
    log := b.wpos.toNat :: b.log }
  if b.wpos = BitVec.ofNat 32 CONSBUFSIZE then { b with wpos := 0 } else b

/-- `cons_intr(proc)`, where `proc` returns the values of the list, and -1 after them. -/
def intr (b : ConsBuf) : List Word → ConsBuf
  | [] => b
  | c :: proc =>
      if c = -1 then b
      else if c = 0 then b.intr proc
      else (b.put c).intr proc

/-- Grab the next character from the input buffer. -/
def take (b : ConsBuf) : Word × ConsBuf :=
  if b.rpos ≠ b.wpos then
    let c := b.buf b.rpos.toNat
    let b := { b with rpos := b.rpos + 1, log := b.rpos.toNat :: b.log }
    let b := if b.rpos = BitVec.ofNat 32 CONSBUFSIZE then { b with rpos := 0 } else b
    (c.setWidth 32, b)
  else (0, b)

/-- `cons_getc`, where the two drivers return the values of the lists. -/
def getc (serialExists : Bool) (b : ConsBuf) (serial kbd : List Word) : Word × ConsBuf :=
  let b := if serialExists then b.intr serial else b
  let b := b.intr kbd
  b.take

end ConsBuf

/-- What arrives from a driver: its values up to -1, but for zeros. -/
def arrivals (proc : List Word) : List Word := (proc.takeWhile (· ≠ -1)).filter (· ≠ 0)

/-- What is unread in `cons_getc` before it takes a character, if `q` was unread. -/
def polled (serialExists : Bool) (q serial kbd : List Word) : List Word :=
  q ++ (if serialExists then arrivals serial else []) ++ arrivals kbd

/-- The states after a sequence of calls from the empty buffer on, with the values that are unread,
if there were never more than 511 of them. -/
inductive ConsRun (serialExists : Bool) : ConsBuf → List Word → Prop
  | start {b : ConsBuf} (empty : b.rpos = b.wpos) (lt : b.wpos.toNat < CONSBUFSIZE)
      (log : b.log = []) : ConsRun serialExists b []
  | intr {b : ConsBuf} {q : List Word} (run : ConsRun serialExists b q) (proc : List Word)
      (few : (q ++ arrivals proc).length ≤ 511) :
      ConsRun serialExists (b.intr proc) (q ++ arrivals proc)
  | getc {b : ConsBuf} {q : List Word} (run : ConsRun serialExists b q) (serial kbd : List Word)
      (few : (polled serialExists q serial kbd).length ≤ 511) :
      ConsRun serialExists (ConsBuf.getc serialExists b serial kbd).2
        (polled serialExists q serial kbd).tail

variable {b : ConsBuf} {q : List Word} {r : Ring Byte CONSBUFSIZE} {c : Word} {sx : Bool}

/-- The character that a value is cut to -/
def character (c : Word) : Byte := c.setWidth 8

/-- The buffer is the ring `r`. -/
structure Rep (b : ConsBuf) (r : Ring Byte CONSBUFSIZE) : Prop where
  buf : ∀ i : Fin CONSBUFSIZE, b.buf i = r.buf i
  rpos : b.rpos.toNat = r.rpos
  wpos : b.wpos.toNat = r.wpos
  log : ∀ i ∈ b.log, i < CONSBUFSIZE

/-- A position moves on. -/
theorem toNat_next {w : Word} {i : Fin CONSBUFSIZE} (h : w.toNat = i) :
    (if w + 1 = BitVec.ofNat 32 CONSBUFSIZE then 0 else w + 1).toNat = Ring.next i := by
  have hi : i.val < 512 := i.isLt
  have hsucc : (w + 1).toNat = i.val + 1 := by
    rw [BitVec.toNat_add, h]
    exact Nat.mod_eq_of_lt (by rw [show (1 : Word).toNat = 1 from rfl]; omega)
  have hiff : w + 1 = BitVec.ofNat 32 CONSBUFSIZE ↔ i.val + 1 = CONSBUFSIZE := by
    rw [← BitVec.toNat_inj, hsucc]
    exact Iff.rfl
  rw [Ring.next]
  by_cases hend : i.val + 1 = CONSBUFSIZE
  · rw [if_pos (hiff.mpr hend), dif_pos hend]
    rfl
  · rw [if_neg (fun hc ↦ hend (hiff.mp hc)), dif_neg hend, hsucc]

theorem Rep.put (h : Rep b r) (c : Word) : Rep (b.put c) (r.put (character c)) := by
  have hput : b.put c = { b with
      buf := Function.update b.buf b.wpos.toNat (c.setWidth 8)
      wpos := if b.wpos + 1 = BitVec.ofNat 32 CONSBUFSIZE then 0 else b.wpos + 1
      log := b.wpos.toNat :: b.log } := by
    simp only [ConsBuf.put]
    split <;> rfl
  rw [hput]
  refine ⟨fun i ↦ ?_, h.rpos, toNat_next h.wpos, List.forall_mem_cons.mpr ⟨?_, h.log⟩⟩
  · show Function.update b.buf b.wpos.toNat (character c) i =
      Function.update r.buf r.wpos (character c) i
    by_cases hi : i = r.wpos
    · rw [hi, Function.update_self, h.wpos, Function.update_self]
    · rw [Function.update_of_ne hi, Function.update_of_ne, h.buf]
      rw [h.wpos]
      exact fun hc ↦ hi (Fin.ext hc)
  · rw [h.wpos]
    exact r.wpos.isLt

/-- What holds between the calls: the ring has the characters of the values that are unread. -/
def Unread (b : ConsBuf) (q : List Word) : Prop :=
  ∃ r, Rep b r ∧ r.contents = q.map character

theorem Unread.put (h : Unread b q) (hlen : q.length < 511) (c : Word) :
    Unread (b.put c) (q ++ [c]) := by
  obtain ⟨r, hrep, hq⟩ := h
  refine ⟨_, hrep.put c, ?_⟩
  have hsize : r.size = q.length := by rw [← Ring.length_contents, hq, List.length_map]
  rw [Ring.contents_put (by rw [hsize]; exact Nat.add_lt_add_right hlen 1), hq, List.map_append]
  rfl

theorem arrivals_cons (hc : c ≠ -1) (h0 : c ≠ 0) (proc : List Word) :
    arrivals (c :: proc) = c :: arrivals proc := by
  rw [arrivals, List.takeWhile_cons_of_pos (by simpa using hc),
    List.filter_cons_of_pos (by simpa using h0), ← arrivals]

theorem arrivals_zero (proc : List Word) : arrivals (0 :: proc) = arrivals proc := by
  simp [arrivals]

theorem arrivals_end (proc : List Word) : arrivals (-1 :: proc) = [] := by
  simp [arrivals]

/-- A driver's characters are appended. -/
theorem Unread.intr (h : Unread b q) {proc : List Word}
    (few : (q ++ arrivals proc).length ≤ 511) : Unread (b.intr proc) (q ++ arrivals proc) := by
  induction proc generalizing b q with
  | nil => simpa [arrivals, ConsBuf.intr] using h
  | cons c proc ih =>
      rw [ConsBuf.intr]
      by_cases hc : c = -1
      · rw [if_pos hc, hc, arrivals_end, List.append_nil]
        exact h
      by_cases h0 : c = 0
      · rw [h0, arrivals_zero] at few ⊢
        rw [if_neg (by decide), if_pos rfl]
        exact ih h few
      · rw [arrivals_cons hc h0] at few ⊢
        rw [if_neg hc, if_neg h0, ← List.singleton_append, ← List.append_assoc]
        have hlen : q.length < 511 := by
          rw [List.length_append, List.length_cons] at few
          omega
        exact ih (h.put hlen c) (by simpa using few)

/-- The character that `cons_getc` returns if `q` is unread. -/
def oldest : List Word → Word
  | [] => 0
  | c :: _ => (character c).setWidth 32

/-- The oldest character is taken. -/
theorem Unread.take (h : Unread b q) : b.take.1 = oldest q ∧ Unread b.take.2 q.tail := by
  obtain ⟨r, hrep, hq⟩ := h
  have hpos : b.rpos = b.wpos ↔ r.rpos = r.wpos := by
    rw [← BitVec.toNat_inj, hrep.rpos, hrep.wpos, Fin.ext_iff]
  have htake : b.take = if r.rpos = r.wpos then (0, b) else
      ((r.buf r.rpos).setWidth 32, { b with
        rpos := if b.rpos + 1 = BitVec.ofNat 32 CONSBUFSIZE then 0 else b.rpos + 1
        log := b.rpos.toNat :: b.log }) := by
    rw [ConsBuf.take, ← hrep.buf, ← hrep.rpos]
    by_cases heq : r.rpos = r.wpos
    · rw [if_pos heq, if_neg (not_not.mpr (hpos.mpr heq))]
    · rw [if_neg heq, if_pos (fun hc ↦ heq (hpos.mp hc))]
      dsimp only
      split <;> rfl
  cases hring : r.take with
  | none =>
      have heq : r.rpos = r.wpos := by
        by_contra hne
        rw [Ring.take, if_neg hne] at hring
        cases hring
      rw [Ring.take_eq_none.mp hring] at hq
      obtain rfl := List.map_eq_nil_iff.mp hq.symm
      rw [htake, if_pos heq]
      exact ⟨rfl, r, hrep, Ring.take_eq_none.mp hring⟩
  | some x =>
      obtain ⟨a, r'⟩ := x
      have hcontents := Ring.contents_take hring
      rw [Ring.take] at hring
      split at hring
      · cases hring
      next hne =>
      obtain ⟨rfl, rfl⟩ := Prod.mk.inj (Option.some.inj hring)
      obtain ⟨c, t, rfl, hc, ht⟩ := List.map_eq_cons_iff.mp (hq.symm.trans hcontents)
      rw [htake, if_neg hne]
      refine ⟨congrArg (BitVec.setWidth 32) hc.symm, { r with rpos := Ring.next r.rpos },
        ⟨hrep.buf, toNat_next hrep.rpos, hrep.wpos, ?_⟩, ht.symm⟩
      refine List.forall_mem_cons.mpr ⟨?_, hrep.log⟩
      rw [hrep.rpos]
      exact r.rpos.isLt

/-- The polls of `cons_getc` -/
theorem Unread.polled (h : Unread b q) {serial kbd : List Word}
    (few : (polled sx q serial kbd).length ≤ 511) :
    Unread ((if sx then b.intr serial else b).intr kbd) (polled sx q serial kbd) := by
  rw [Jos.polled] at few ⊢
  refine Unread.intr ?_ few
  have hfew : (q ++ if sx then arrivals serial else []).length ≤ 511 := by
    rw [List.length_append] at few
    exact (Nat.le_add_right _ _).trans few
  cases sx with
  | true => exact h.intr hfew
  | false => simpa using h

/-- In every sequence of calls the buffer holds what is unread. -/
theorem ConsRun.unread (h : ConsRun sx b q) : Unread b q := by
  induction h with
  | @start b empty lt log =>
      have hpos : (⟨b.rpos.toNat, empty ▸ lt⟩ : Fin CONSBUFSIZE) = ⟨b.wpos.toNat, lt⟩ :=
        Fin.ext (congrArg BitVec.toNat empty)
      exact ⟨⟨fun i ↦ b.buf i, ⟨b.rpos.toNat, empty ▸ lt⟩, ⟨b.wpos.toNat, lt⟩⟩,
        ⟨fun _ ↦ rfl, rfl, rfl, by rw [log]; exact nofun⟩, Ring.take_eq_none.mp (if_pos hpos)⟩
  | intr run proc few ih => exact ih.intr few
  | getc run serial kbd few ih => exact (ih.polled few).take.2

theorem ne_zero_of_arrivals {proc : List Word} (h : c ∈ arrivals proc) : c ≠ 0 := by
  simpa using (List.mem_filter.mp h).2

theorem ne_zero_of_polled (h : ∀ c ∈ q, c ≠ 0) {serial kbd : List Word} :
    ∀ c ∈ polled sx q serial kbd, c ≠ 0 := by
  intro c hc
  rcases List.mem_append.mp hc with hc | hc
  · rcases List.mem_append.mp hc with hc | hc
    · exact h c hc
    · cases sx with
      | true => exact ne_zero_of_arrivals hc
      | false => cases hc
  · exact ne_zero_of_arrivals hc

/-- Zeros are never stored as such. -/
theorem ConsRun.ne_zero (h : ConsRun sx b q) : ∀ c ∈ q, c ≠ 0 := by
  induction h with
  | start empty lt log => exact nofun
  | intr run proc few ih =>
      intro c hc
      rcases List.mem_append.mp hc with hc | hc
      · exact ih c hc
      · exact ne_zero_of_arrivals hc
  | getc run serial kbd few ih => exact fun c hc ↦ ne_zero_of_polled ih c (List.mem_of_mem_tail hc)

theorem setWidth_character_eq_zero : (character c).setWidth 32 = 0 ↔ character c = 0 := by
  constructor
  · intro h
    refine BitVec.eq_of_toNat_eq ?_
    have hnat := congrArg BitVec.toNat h
    rwa [BitVec.toNat_setWidth_of_le (by decide)] at hnat
  · intro h
    rw [h]
    rfl

theorem setWidth_character (h : c.toNat < 256) : (character c).setWidth 32 = c := by
  refine BitVec.eq_of_toNat_eq ?_
  rw [BitVec.toNat_setWidth_of_le (by decide), character, BitVec.toNat_setWidth]
  exact Nat.mod_eq_of_lt h

/-- The positions stay in the buffer, and so does every access; and `cons_getc` returns the oldest
value that nobody has read, cut to a byte, which is the value itself for those below 256. -/
theorem cons_ring_fifo (h : ConsRun sx b q) :
    b.rpos.toNat < CONSBUFSIZE ∧ b.wpos.toNat < CONSBUFSIZE ∧ (∀ i ∈ b.log, i < CONSBUFSIZE) ∧
      ∀ serial kbd, (polled sx q serial kbd).length ≤ 511 →
        (ConsBuf.getc sx b serial kbd).1 = oldest (polled sx q serial kbd) ∧
        ((ConsBuf.getc sx b serial kbd).1 = 0 ↔ polled sx q serial kbd = [] ∨
          ∃ c t, polled sx q serial kbd = c :: t ∧ character c = 0) ∧
        ∀ c t, polled sx q serial kbd = c :: t → c.toNat < 256 →
          (ConsBuf.getc sx b serial kbd).1 = c ∧ c ≠ 0 := by
  obtain ⟨r, hrep, -⟩ := h.unread
  refine ⟨hrep.rpos ▸ r.rpos.isLt, hrep.wpos ▸ r.wpos.isLt, hrep.log, fun serial kbd few ↦ ?_⟩
  have hres : (ConsBuf.getc sx b serial kbd).1 = oldest (polled sx q serial kbd) :=
    (h.unread.polled few).take.1
  have hne := @ne_zero_of_polled q sx h.ne_zero serial kbd
  rw [hres]
  refine ⟨rfl, ?_, ?_⟩
  · cases polled sx q serial kbd with
    | nil => exact iff_of_true rfl (.inl rfl)
    | cons c t =>
        rw [oldest, setWidth_character_eq_zero]
        constructor
        · exact fun hc ↦ .inr ⟨c, t, rfl, hc⟩
        · rintro (hnil | ⟨c', t', heq, hc'⟩)
          · cases hnil
          · rwa [(List.cons.inj heq).1]
  · intro c t heq hlt
    rw [heq] at hne ⊢
    exact ⟨setWidth_character hlt, hne c List.mem_cons_self⟩

/-- The buffer at boot -/
def noInput : ConsBuf := ⟨fun _ ↦ 0, 0, 0, []⟩

theorem noInput_run : ConsRun sx noInput [] := .start rfl (by decide) rfl

theorem cons_ring_fifo_demo :
    let b := (noInput.intr [0x61, 0, 0x62, -1, 0x63])
    b.rpos.toNat < CONSBUFSIZE ∧ b.wpos.toNat < CONSBUFSIZE ∧ (∀ i ∈ b.log, i < CONSBUFSIZE) ∧
      ∀ serial kbd, (polled true [0x61, 0x62] serial kbd).length ≤ 511 →
        (ConsBuf.getc true b serial kbd).1 = oldest (polled true [0x61, 0x62] serial kbd) ∧
        ((ConsBuf.getc true b serial kbd).1 = 0 ↔ polled true [0x61, 0x62] serial kbd = [] ∨
          ∃ c t, polled true [0x61, 0x62] serial kbd = c :: t ∧ character c = 0) ∧
        ∀ c t, polled true [0x61, 0x62] serial kbd = c :: t → c.toNat < 256 →
          (ConsBuf.getc true b serial kbd).1 = c ∧ c ≠ 0 :=
  cons_ring_fifo (noInput_run.intr [0x61, 0, 0x62, -1, 0x63] (by decide))

/-- A value whose low byte is zero is read as if there were none. -/
theorem cons_getc_low_byte :
    ∃ b, ConsRun true b [0x100] ∧ polled true [0x100] [] [] ≠ [] ∧
      (ConsBuf.getc true b [] []).1 = 0 :=
  ⟨noInput.intr [0x100], noInput_run.intr [0x100] (by decide), by decide, by decide⟩

end Jos
