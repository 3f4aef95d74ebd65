import Jos.Libc.Memmove

/-!
# The text display (`kern/console.c`)

The display shows 25 rows of 80 cells of 16 bits.  A character is written at `crt_pos`; when that
is beyond the last cell, everything moves up by a row.  A tab goes through `cons_putc`, which comes
back to `cga_putc` for each of its five blanks.

The log tells which cells are written, what memory was before and after the display scrolled, and
what goes to other devices.
-/

namespace Jos.Cga

open Jos.Lib.X86

def MONO_BASE : Word := 0x3B4
def MONO_BUF : Word := 0xB0000
def CGA_BASE : Word := 0x3D4
def CGA_BUF : Word := 0xB8000

def CRT_ROWS : ℕ := 25
def CRT_COLS : ℕ := 80
def CRT_SIZE : ℕ := CRT_ROWS * CRT_COLS

inductive Ev where
  /-- `crt_buf[i]` is written. -/
  | store (i : ℕ)
  /-- `memmove` writes the `n` cells from `crt_buf[i]` on. -/
  | move (i n : ℕ)
  /-- The display scrolled. -/
  | scroll (before after : Word → BitVec 8)
  | outb (port : Word) (data : BitVec 8)
  | serialPutc (c : Word)
  | lptPutc (c : Word)

/-- Memory, the static variables of the driver, and the log, latest first.  `cga_init` finds either
of two adapters. -/
structure Display where
  mem : Word → BitVec 8
  mono : Bool
  crtPos : BitVec 16
  log : List Ev

/-- `crt_buf` -/
def crtBuf (mono : Bool) : Word := KERNBASE + if mono then MONO_BUF else CGA_BUF

/-- `addr_6845` -/
def addr6845 (mono : Bool) : Word := if mono then MONO_BASE else CGA_BASE

/-- `&crt_buf[i]` -/
def cellAt (mono : Bool) (i : ℕ) : Word := crtBuf mono + BitVec.ofNat 32 (2 * i)

/-- `crt_buf[i]` -/
def cell (mono : Bool) (m : Word → BitVec 8) (i : ℕ) : BitVec 16 :=
  m (cellAt mono i + 1) ++ m (cellAt mono i)

def setCell (mono : Bool) (m : Word → BitVec 8) (i : ℕ) (c : BitVec 16) : Word → BitVec 8 :=
  Function.update (Function.update m (cellAt mono i) (c.extractLsb' 0 8)) (cellAt mono i + 1)
    (c.extractLsb' 8 8)

/-- `0x0700 | ' '` -/
def blank : BitVec 16 := 0x0720

namespace Display

def emit (s : Display) (e : Ev) : Display := { s with log := e :: s.log }

/-- `crt_buf[i] = c` -/
def store (s : Display) (i : ℕ) (c : BitVec 16) : Display :=
  { s with mem := setCell s.mono s.mem i c }.emit (.store i)

/-- The case of `'\b'` -/
def backspace (s : Display) (c : Word) : Display :=
  if 0 < s.crtPos then
    let s := { s with crtPos := s.crtPos - 1 }
    s.store s.crtPos.toNat ((c &&& ~~~0xFF ||| 0x20).setWidth 16)
  else s

/-- The case of `'\r'` -/
def carriageReturn (s : Display) : Display :=
  { s with crtPos := s.crtPos - s.crtPos % BitVec.ofNat 16 CRT_COLS }

/-- The case of `'\n'`, which goes on with that of `'\r'` -/
def lineFeed (s : Display) : Display :=
  { s with crtPos := s.crtPos + BitVec.ofNat 16 CRT_COLS }.carriageReturn

/-- The case of any other character but a tab -/
def put (s : Display) (c : Word) : Display :=
  { s.store s.crtPos.toNat (c.setWidth 16) with crtPos := s.crtPos + 1 }

/-- `memmove(crt_buf, crt_buf + CRT_COLS, (CRT_SIZE - CRT_COLS) * sizeof(uint16_t))` -/
def moveUp (s : Display) : Display :=
  { s with
    mem := (memmove s.mem (crtBuf s.mono) (cellAt s.mono CRT_COLS)
      (BitVec.ofNat 32 ((CRT_SIZE - CRT_COLS) * 2))).2.mem }.emit (.move 0 (CRT_SIZE - CRT_COLS))

/-- Everything moves up by a row, if the position is beyond the end. -/
def scroll (s : Display) : Display :=
  if CRT_SIZE ≤ s.crtPos.toNat then
    let before := s.mem
    let s := s.moveUp
    let s := (List.range' (CRT_SIZE - CRT_COLS) CRT_COLS).foldl (fun s i ↦ s.store i blank) s
    { s with crtPos := s.crtPos - BitVec.ofNat 16 CRT_COLS }.emit (.scroll before s.mem)
  else s

/-- Move that little blinky thing. -/
def moveCursor (s : Display) : Display :=
  let s := s.emit (.outb (addr6845 s.mono) 14)
  let s := s.emit (.outb (addr6845 s.mono + 1) ((s.crtPos >>> 8).setWidth 8))
  let s := s.emit (.outb (addr6845 s.mono) 15)
  s.emit (.outb (addr6845 s.mono + 1) (s.crtPos.setWidth 8))

end Display

/-- A blank is no tab, whatever the colour. -/
theorem blank_ne_tab (color : Word) : (0x20 ||| color) &&& 0xFF ≠ 0x09 := by
  intro h
  have hbit := congrArg (·.getLsbD 5) h
  simp at hbit

mutual

/-- `cga_putc` -/
def cgaPutc (color c : Word) (s : Display) : Display :=
  let c' := c ||| color
  let s :=
    if c' &&& 0xFF = 0x08 then s.backspace c'
    else if c' &&& 0xFF = 0x0A then s.lineFeed
    else if c' &&& 0xFF = 0x0D then s.carriageReturn
    else if _htab : (c ||| color) &&& 0xFF = 0x09 then
      let s := consPutc color 0x20 s
      let s := consPutc color 0x20 s
      let s := consPutc color 0x20 s
      let s := consPutc color 0x20 s
      consPutc color 0x20 s
    else s.put c'
  s.scroll.moveCursor
termination_by if (c ||| color) &&& 0xFF = 0x09 then 2 else 0
decreasing_by all_goals rw [if_neg (blank_ne_tab color), if_pos _htab]; decide

/-- `cons_putc` -/
def consPutc (color c : Word) (s : Display) : Display :=
  let s := s.emit (.serialPutc c)
  let s := s.emit (.lptPutc c)
  cgaPutc color c s
termination_by (if (c ||| color) &&& 0xFF = 0x09 then 2 else 0) + 1

end

/-- A sequence of calls of `cga_putc`, each with the value that `color` has then. -/
def run (calls : List (Word × Word)) (s : Display) : Display :=
  calls.foldl (fun s x ↦ cgaPutc x.1 x.2 s) s

/-! ## Cells -/

section

variable {mono : Bool} {m : Word → BitVec 8} {c : BitVec 16} {a : Word} {i j k n : ℕ}

/-- The offset of a byte of a cell. -/
theorem cellAt_sub (mono : Bool) (hi : i < CRT_SIZE) :
    (cellAt mono i - crtBuf mono).toNat = 2 * i ∧
      (cellAt mono i + 1 - crtBuf mono).toNat = 2 * i + 1 := by
  have hi' : i < 2000 := hi
  have h0 : cellAt mono i - crtBuf mono = BitVec.ofNat 32 (2 * i) := by
    rw [cellAt]
    ring
  have h1 : cellAt mono i + 1 - crtBuf mono = BitVec.ofNat 32 (2 * i + 1) := by
    rw [cellAt, BitVec.ofNat_add, show BitVec.ofNat 32 1 = (1 : Word) from rfl]
    ring
  rw [h0, h1, BitVec.toNat_ofNat, BitVec.toNat_ofNat]
  omega

theorem halves (c : BitVec 16) : c.extractLsb' 8 8 ++ c.extractLsb' 0 8 = c := by
  ext i hi
  simp only [BitVec.getElem_append, BitVec.getElem_extractLsb']
  split
  · rw [Nat.zero_add, BitVec.getLsbD_eq_getElem hi]
  · rw [show 8 + (i - 8) = i by omega, BitVec.getLsbD_eq_getElem hi]

/-- What is written to a cell is read there, and nowhere else. -/
theorem cell_setCell (hi : i < CRT_SIZE) (hj : j < CRT_SIZE) :
    cell mono (setCell mono m i c) j = if j = i then c else cell mono m j := by
  obtain ⟨hi0, hi1⟩ := cellAt_sub mono hi
  obtain ⟨hj0, hj1⟩ := cellAt_sub mono hj
  have hne : ∀ {x y : Word}, (x - crtBuf mono).toNat ≠ (y - crtBuf mono).toNat → x ≠ y :=
    fun h hxy ↦ h (by rw [hxy])
  rw [cell, setCell]
  split
  · next heq =>
      subst heq
      rw [Function.update_self, Function.update_of_ne (hne (by omega)), Function.update_self,
        halves]
  · next hij =>
      rw [Function.update_of_ne (hne (by omega)), Function.update_of_ne (hne (by omega)),
        Function.update_of_ne (hne (by omega)), Function.update_of_ne (hne (by omega))]
      rfl

theorem setCell_outside (hi : i < CRT_SIZE) (ha : 2 * CRT_SIZE ≤ (a - crtBuf mono).toNat) :
    setCell mono m i c a = m a := by
  obtain ⟨hi0, hi1⟩ := cellAt_sub mono hi
  have hne : ∀ {x : Word}, (x - crtBuf mono).toNat < 2 * CRT_SIZE → a ≠ x :=
    fun h hx ↦ absurd ha (by rw [hx]; omega)
  rw [setCell, Function.update_of_ne (hne (by omega)), Function.update_of_ne (hne (by omega))]

end

/-! ## What happens to the display -/

/-- Row `r` is the old row `r + 1`, and the last row is blank. -/
structure Scrolled (mono : Bool) (before after : Word → BitVec 8) : Prop where
  rows : ∀ r < CRT_ROWS - 1, ∀ col < CRT_COLS,
    cell mono after (r * CRT_COLS + col) = cell mono before ((r + 1) * CRT_COLS + col)
  last : ∀ col < CRT_COLS, cell mono after ((CRT_ROWS - 1) * CRT_COLS + col) = blank

/-- A write is to cells of the display, and a scroll moves its rows. -/
def Ev.Ok (mono : Bool) : Ev → Prop
  | .store i => i < CRT_SIZE
  | .move i n => i + n ≤ CRT_SIZE
  | .scroll before after => Scrolled mono before after
  | _ => True

namespace Display

/-- From `s` to `s'` all went well, and no other memory was written. -/
structure Runs (s s' : Display) : Prop where
  mono : s'.mono = s.mono
  log : ∃ evs, s'.log = evs ++ s.log ∧ ∀ e ∈ evs, e.Ok s.mono
  frame : ∀ a, 2 * CRT_SIZE ≤ (a - crtBuf s.mono).toNat → s'.mem a = s.mem a

variable {s s' s'' : Display} {c : Word} {x : BitVec 16} {e : Ev} {i k n : ℕ}

namespace Runs

theorem refl (s : Display) : Runs s s := ⟨rfl, ⟨[], rfl, nofun⟩, fun _ _ ↦ rfl⟩

theorem trans (h : Runs s s') (h' : Runs s' s'') : Runs s s'' where
  mono := h'.mono.trans h.mono
  log := by
    obtain ⟨evs, hlog, hok⟩ := h.log
    obtain ⟨evs', hlog', hok'⟩ := h'.log
    refine ⟨evs' ++ evs, by rw [hlog', hlog, List.append_assoc], fun e he ↦ ?_⟩
    rcases List.mem_append.mp he with he | he
    · rw [← h.mono]
      exact hok' e he
    · exact hok e he
  frame a ha := (h'.frame a (by rwa [h.mono])).trans (h.frame a ha)

theorem emit (h : Runs s s') (he : e.Ok s.mono) : Runs s (s'.emit e) := by
  obtain ⟨evs, hlog, hok⟩ := h.log
  exact ⟨h.mono, ⟨e :: evs, congrArg (e :: ·) hlog, List.forall_mem_cons.mpr ⟨he, hok⟩⟩, h.frame⟩

theorem store (h : Runs s s') (hi : i < CRT_SIZE) (x : BitVec 16) : Runs s (s'.store i x) := by
  have hset : Runs s { s' with mem := setCell s'.mono s'.mem i x } := by
    refine ⟨h.mono, h.log, fun a ha ↦ ?_⟩
    rw [← h.mono] at ha
    exact (setCell_outside hi ha).trans (h.frame a (by rwa [h.mono] at ha))
  exact hset.emit hi

end Runs

/-! ## Scrolling -/

theorem cell_store (hi : i < CRT_SIZE) (hk : k < CRT_SIZE) (x : BitVec 16) :
    cell s.mono (s.store i x).mem k = if k = i then x else cell s.mono s.mem k :=
  cell_setCell hi hk

/-- The loop that fills a row. -/
theorem fill_spec (hkn : k + n ≤ CRT_SIZE) (s : Display) (x : BitVec 16) :
    Runs s ((List.range' k n).foldl (fun s i ↦ s.store i x) s) ∧
      ((List.range' k n).foldl (fun s i ↦ s.store i x) s).crtPos = s.crtPos ∧
      ∀ j < CRT_SIZE, cell s.mono ((List.range' k n).foldl (fun s i ↦ s.store i x) s).mem j =
        if k ≤ j ∧ j < k + n then x else cell s.mono s.mem j := by
  induction n generalizing k s with
  | zero =>
      refine ⟨.refl s, rfl, fun j _ ↦ ?_⟩
      rw [if_neg (by omega)]
      rfl
  | succ n ih =>
      obtain ⟨hruns, hpos, hcell⟩ := ih (k := k + 1) (by omega) (s.store k x)
      have hk : k < CRT_SIZE := by omega
      rw [List.range'_succ, List.foldl_cons]
      refine ⟨((Runs.refl s).store hk x).trans hruns, hpos, fun j hj ↦ ?_⟩
      replace hcell := hcell j hj
      rw [show (s.store k x).mono = s.mono from rfl, cell_store hk hj] at hcell
      rw [hcell]
      by_cases hjk : j = k
      · rw [if_pos hjk, ite_self, if_pos (by omega)]
      · rw [if_neg hjk]
        exact if_congr (by omega) rfl rfl

/-- A call that all went well in, with the position on the display after it. -/
def Shows (s s' : Display) : Prop := Runs s s' ∧ s'.crtPos.toNat < CRT_SIZE

theorem Shows.trans (h : Shows s s') (h' : Shows s' s'') : Shows s s'' := ⟨h.1.trans h'.1, h'.2⟩

end Display

open Display

variable {s : Display} {color c : Word}

end Jos.Cga
