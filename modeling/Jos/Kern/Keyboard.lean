import Jos.Kern.ConsBuf
import Jos.Lib.Transduce

/-!
# The keyboard (`kbd_proc_data` in `kern/console.c`)

The keyboard sends scan codes: one byte when a key is pressed, the same byte with the top bit when
it is released, and before either the byte 0xE0 for the keys of the extended block.  `kbd_proc_data`
takes one byte, keeps what it must remember in the static variable `shift`, and returns the
character of a key that is pressed.

What is typed is stated without scan codes, from the history of the keys: a modifier holds if the
last event of its keys was a press, and a lock is on after an odd number of presses.
-/

namespace Jos

open Jos.Lib

namespace Kbd

/-! ## The tables -/

def KBS_DIB : Byte := 0x01
def KBS_TERR : Byte := 0x20

def KEY_HOME : Byte := 0xE0
def KEY_END : Byte := 0xE1
def KEY_UP : Byte := 0xE2
def KEY_DN : Byte := 0xE3
def KEY_LF : Byte := 0xE4
def KEY_RT : Byte := 0xE5
def KEY_PGUP : Byte := 0xE6
def KEY_PGDN : Byte := 0xE7
def KEY_INS : Byte := 0xE8
def KEY_DEL : Byte := 0xE9

def SHIFT : Word := 1 <<< 0
def CTL : Word := 1 <<< 1
def ALT : Word := 1 <<< 2
def CAPSLOCK : Word := 1 <<< 3
def NUMLOCK : Word := 1 <<< 4
def SCROLLLOCK : Word := 1 <<< 5
def E0ESC : Word := 1 <<< 6

/-- The ASCII code of a character -/
def ascii (c : Char) : Byte := BitVec.ofNat 8 c.toNat

/-- No character -/
def NO : Char := '\x00'

/-- An array of 256 entries that is initialised with a row of characters from index 0 on, and then
with designated entries; the others are zero. -/
def table (row : List Char) (designated : List (Byte × Byte)) (i : Byte) : Byte :=
  (designated.lookup i).getD (ascii (row.getD i.toNat NO))

def shiftcode (i : Byte) : Word :=
  (table [] [(0x1D, 2), (0x2A, 1), (0x36, 1), (0x38, 4), (0x9D, 2), (0xB8, 4)] i).setWidth 32

def togglecode (i : Byte) : Word :=
  (table [] [(0x3A, 8), (0x45, 16), (0x46, 32)] i).setWidth 32

/-- The keys of the extended block, in `normalmap` and `shiftmap` -/
def extended : List (Byte × Byte) :=
  [(0xC7, KEY_HOME), (0x9C, ascii '\n'), (0xB5, ascii '/'), (0xC8, KEY_UP), (0xC9, KEY_PGUP),
    (0xCB, KEY_LF), (0xCD, KEY_RT), (0xCF, KEY_END), (0xD0, KEY_DN), (0xD1, KEY_PGDN),
    (0xD2, KEY_INS), (0xD3, KEY_DEL)]

/-- The characters of `normalmap` from index 0 on -/
def normalrow : List Char :=
  [
    NO, '\x1b', '1', '2', '3', '4', '5', '6',
    '7', '8', '9', '0', '-', '=', '\x08', '\t',
    'q', 'w', 'e', 'r', 't', 'y', 'u', 'i',
    'o', 'p', '[', ']', '\n', NO, 'a', 's',
    'd', 'f', 'g', 'h', 'j', 'k', 'l', ';',
    '\x27', '\x60', NO, '\x5c', 'z', 'x', 'c', 'v',
    'b', 'n', 'm', ',', '.', '/', NO, '*',
    NO, ' ', NO, NO, NO, NO, NO, NO,
    NO, NO, NO, NO, NO, NO, NO, '7',
    '8', '9', '-', '4', '5', '6', '+', '1',
    '2', '3', '0', '.', NO, NO, NO, NO]

def normalmap : Byte → Byte := table normalrow extended

/-- The characters of `shiftmap` from index 0 on -/
def shiftrow : List Char :=
  [
    NO, '\x1b', '!', '@', '#', '$', '%', '^',
    '&', '*', '(', ')', '_', '+', '\x08', '\t',
    'Q', 'W', 'E', 'R', 'T', 'Y', 'U', 'I',
    'O', 'P', '\x7b', '\x7d', '\n', NO, 'A', 'S',
    'D', 'F', 'G', 'H', 'J', 'K', 'L', ':',
    '\x22', '~', NO, '|', 'Z', 'X', 'C', 'V',
    'B', 'N', 'M', '<', '>', '?', NO, '*',
    NO, ' ', NO, NO, NO, NO, NO, NO,
    NO, NO, NO, NO, NO, NO, NO, '7',
    '8', '9', '-', '4', '5', '6', '+', '1',
    '2', '3', '0', '.', NO, NO, NO, NO]

def shiftmap : Byte → Byte := table shiftrow extended

/-- The macro `C(x)`, cut to a byte -/
def ctrl (c : Char) : Char := Char.ofNat ((c.toNat + 256 - '@'.toNat) % 256)

def ctlmap : Byte → Byte :=
  table [
    NO, NO, NO, NO, NO, NO, NO, NO,
    NO, NO, NO, NO, NO, NO, NO, NO,
    ctrl 'Q', ctrl 'W', ctrl 'E', ctrl 'R', ctrl 'T', ctrl 'Y', ctrl 'U', ctrl 'I',
    ctrl 'O', ctrl 'P', NO, NO, '\r', NO, ctrl 'A', ctrl 'S',
    ctrl 'D', ctrl 'F', ctrl 'G', ctrl 'H', ctrl 'J', ctrl 'K', ctrl 'L', NO,
    NO, NO, NO, ctrl '\x5c', ctrl 'Z', ctrl 'X', ctrl 'C', ctrl 'V',
    ctrl 'B', ctrl 'N', ctrl 'M', NO, NO, ctrl '/', NO, NO]
    [(0x97, KEY_HOME), (0xB5, ascii (ctrl '/')), (0xC8, KEY_UP), (0xC9, KEY_PGUP), (0xCB, KEY_LF),
      (0xCD, KEY_RT), (0xCF, KEY_END), (0xD0, KEY_DN), (0xD1, KEY_PGDN), (0xD2, KEY_INS),
      (0xD3, KEY_DEL)]

def charcode (i : Word) : Byte → Byte :=
  if i = 0 then normalmap else if i = 1 then shiftmap else ctlmap

/-! ## The driver -/

/-- What the keyboard controller holds back: a byte for port `KBDATAP`, and what port `KBSTATP` says
while it is the next one. -/
structure Scan where
  stat : Byte
  data : Byte
  dib : stat &&& KBS_DIB ≠ 0

/-- The static variable `shift`, and what was written to the ports. -/
structure State where
  shift : Word
  outb : List (BitVec 16 × Byte)

/-- `kbd_proc_data` once it has read the byte `data`. -/
def kbdByte (s : State) (data : Byte) : Word × State :=
  if data = 0xE0 then
    -- E0 escape character
    (0, { s with shift := s.shift ||| E0ESC })
  else if data &&& 0x80 ≠ 0 then
    -- Key released
    let data := if s.shift &&& E0ESC ≠ 0 then data else data &&& 0x7F
    (0, { s with shift := s.shift &&& ~~~(shiftcode data ||| E0ESC) })
  else
    -- Last character was an E0 escape; or with 0x80
    let esc := s.shift &&& E0ESC ≠ 0
    let data := if esc then data ||| 0x80 else data
    let shift := if esc then s.shift &&& ~~~E0ESC else s.shift
    let shift := shift ||| shiftcode data
    let shift := shift ^^^ togglecode data
    let c : Word := (charcode (shift &&& (CTL ||| SHIFT)) data).setWidth 32
    let c :=
      if shift &&& CAPSLOCK ≠ 0 then
        if 0x61 ≤ c ∧ c ≤ 0x7A then c - 0x20 else if 0x41 ≤ c ∧ c ≤ 0x5A then c + 0x20 else c
      else c
    -- Ctrl-Alt-Del: reboot
    if ~~~shift &&& (CTL ||| ALT) = 0 ∧ c = KEY_DEL.setWidth 32 then
      (c, { shift := shift, outb := s.outb ++ [(0x92, 0x3)] })
    else (c, { s with shift := shift })

/-- The driver and the bytes that the controller holds back, oldest first. -/
structure Port where
  state : State
  waits : List Scan

/-- `kbd_proc_data` -/
def kbdProcData (p : Port) : Word × Port :=
  match p.waits with
  | [] => (-1, p)
  | b :: waits =>
      if b.stat &&& KBS_DIB = 0 then (-1, p)
      -- Ignore data from mouse.
      else if b.stat &&& KBS_TERR ≠ 0 then (-1, p)
      else
        let (c, state) := kbdByte p.state b.data
        (c, { state := state, waits := waits })

/-- What `kbd_proc_data` returns up to the first -1, in at most `n` calls. -/
def procs : ℕ → Port → List Word × Port
  | 0, p => ([], p)
  | n + 1, p =>
      let (c, p) := kbdProcData p
      if c = -1 then ([c], p)
      else
        let (cs, p) := procs n p
        (c :: cs, p)

/-- What the loop of `cons_intr` gets in `kbd_intr`: no call but the last one leaves the number of
bytes as it is. -/
def Port.drain (p : Port) : List Word × Port := procs (p.waits.length + 1) p

/-! ## Typing -/

/-- A key, by its scan code.  0x60 is not one: its release would be the escape. -/
structure Key where
  ext : Bool
  code : BitVec 7
  plain : code ≠ 0x60
deriving DecidableEq

inductive KeyEvent where
  | press (k : Key)
  | release (k : Key)
deriving DecidableEq

def KeyEvent.key : KeyEvent → Key
  | .press k | .release k => k

def KeyEvent.isPress : KeyEvent → Bool
  | .press _ => true
  | .release _ => false

/-- The bytes that the keyboard sends -/
def KeyEvent.wire (e : KeyEvent) : List Byte :=
  (if e.key.ext then [0xE0] else []) ++
    [if e.isPress then e.key.code.setWidth 8 else e.key.code.setWidth 8 ||| 0x80]

inductive Modifier where
  | shift
  | ctl
  | alt
deriving DecidableEq

inductive Lock where
  | caps
  | num
  | scroll
deriving DecidableEq

/-- Both shift keys, control and alt on both sides.  The shift codes that a keyboard sends with the
escape, around keys of the extended block, are not shift keys. -/
def Key.modifier (k : Key) : Option Modifier :=
  match k.ext, k.code with
  | false, 0x2A | false, 0x36 => some .shift
  | _, 0x1D => some .ctl
  | _, 0x38 => some .alt
  | _, _ => none

def Key.lock (k : Key) : Option Lock :=
  match k.ext, k.code with
  | false, 0x3A => some .caps
  | false, 0x45 => some .num
  | false, 0x46 => some .scroll
  | _, _ => none

/-- The last event of the modifier's keys was a press.  Histories are latest first. -/
def held (m : Modifier) : List KeyEvent → Bool
  | [] => false
  | e :: past => if e.key.modifier = some m then e.isPress else held m past

/-- The lock's key was pressed an odd number of times. -/
def locked (l : Lock) (past : List KeyEvent) : Bool :=
  past.countP (fun e ↦ e.isPress && e.key.lock = some l) % 2 = 1

/-- Upper case for lower case, and the other way round -/
def swapCase (c : Byte) : Byte :=
  if 0x61 ≤ c ∧ c ≤ 0x7A then c - 0x20 else if 0x41 ≤ c ∧ c ≤ 0x5A then c + 0x20 else c

/-- The index of the key in the tables -/
def Key.index (k : Key) : Byte :=
  if k.ext then k.code.setWidth 8 ||| 0x80 else k.code.setWidth 8

/-- The character of a key that is pressed last, or 0 -/
def Key.char (past : List KeyEvent) (k : Key) : Byte :=
  let c :=
    if held .ctl past then ctlmap k.index
    else if held .shift past then shiftmap k.index
    else normalmap k.index
  if locked .caps past then swapCase c else c

/-- The characters of one event -/
def KeyEvent.chars (past : List KeyEvent) (e : KeyEvent) : List Byte :=
  if e.isPress ∧ e.key.char (e :: past) ≠ 0 then [e.key.char (e :: past)] else []

/-- What is typed -/
def typed (es : List KeyEvent) : List Byte := meaning KeyEvent.chars [] es

/-- The key event is the last one of Ctrl-Alt-Del. -/
def KeyEvent.Resets (past : List KeyEvent) (e : KeyEvent) : Prop :=
  e.isPress ∧ e.key.ext ∧ e.key.code = 0x53 ∧ held .ctl past ∧ held .alt past

instance (past : List KeyEvent) (e : KeyEvent) : Decidable (e.Resets past) :=
  inferInstanceAs (Decidable (_ ∧ _))

/-- The number of times that Ctrl-Alt-Del was pressed -/
def resets : List KeyEvent → ℕ
  | [] => 0
  | e :: past => (if e.Resets past then 1 else 0) + resets past

/-! ## One key event -/

/-- The value of `shift` for given lights -/
def word (shift ctl alt caps num scroll : Bool) : Word :=
  (if shift then SHIFT else 0) ||| (if ctl then CTL else 0) ||| (if alt then ALT else 0) |||
    (if caps then CAPSLOCK else 0) ||| (if num then NUMLOCK else 0) |||
    (if scroll then SCROLLLOCK else 0)

/-- The value of `shift` after a history -/
def shiftWord (past : List KeyEvent) : Word :=
  word (held .shift past) (held .ctl past) (held .alt past) (locked .caps past) (locked .num past)
    (locked .scroll past)

def Modifier.mask : Option Modifier → Word
  | some .shift => SHIFT
  | some .ctl => CTL
  | some .alt => ALT
  | none => 0

def Lock.mask : Option Lock → Word
  | some .caps => CAPSLOCK
  | some .num => NUMLOCK
  | some .scroll => SCROLLLOCK
  | none => 0

variable {s : State} {past : List KeyEvent} {k : Key}

theorem shiftcode_index (k : Key) : shiftcode k.index = Modifier.mask k.modifier := by
  obtain ⟨ext, code, plain⟩ := k
  revert ext code
  decide

theorem togglecode_index (k : Key) : togglecode k.index = Lock.mask k.lock := by
  obtain ⟨ext, code, plain⟩ := k
  revert ext code
  decide

theorem word_press (m : Option Modifier) (l : Option Lock) (sh ct al ca nu sc : Bool) :
    (word sh ct al ca nu sc ||| Modifier.mask m) ^^^ Lock.mask l =
      word (m = some .shift || sh) (m = some .ctl || ct) (m = some .alt || al)
        (xor (l = some .caps) ca) (xor (l = some .num) nu) (xor (l = some .scroll) sc) := by
  rcases m with - | m | m | m <;> rcases l with - | l | l | l <;>
    revert sh ct al ca nu sc <;> decide

theorem word_release (m : Option Modifier) (esc sh ct al ca nu sc : Bool) :
    (if esc then word sh ct al ca nu sc ||| E0ESC else word sh ct al ca nu sc) &&&
        ~~~(Modifier.mask m ||| E0ESC) =
      word (m ≠ some .shift && sh) (m ≠ some .ctl && ct) (m ≠ some .alt && al) ca nu sc := by
  rcases m with - | m | m | m <;> revert esc sh ct al ca nu sc <;> decide

theorem held_press (m : Modifier) (k : Key) (past : List KeyEvent) :
    held m (.press k :: past) = (k.modifier = some m || held m past) := by
  by_cases h : k.modifier = some m <;> simp [held, KeyEvent.key, KeyEvent.isPress, h]

theorem held_release (m : Modifier) (k : Key) (past : List KeyEvent) :
    held m (.release k :: past) = (k.modifier ≠ some m && held m past) := by
  by_cases h : k.modifier = some m <;> simp [held, KeyEvent.key, KeyEvent.isPress, h]

theorem locked_cons (l : Lock) (e : KeyEvent) (past : List KeyEvent) :
    locked l (e :: past) = xor (e.isPress && e.key.lock = some l) (locked l past) := by
  rw [locked, locked, List.countP_cons]
  cases e.isPress && decide (e.key.lock = some l) with
  | false => simp
  | true =>
      rw [if_pos rfl, Bool.true_xor, ← decide_not]
      exact decide_eq_decide.mpr (by omega)

theorem shiftWord_press (past : List KeyEvent) (k : Key) :
    (shiftWord past ||| shiftcode k.index) ^^^ togglecode k.index =
      shiftWord (.press k :: past) := by
  rw [shiftcode_index, togglecode_index, shiftWord, word_press]
  simp only [shiftWord, held_press, locked_cons, KeyEvent.key, KeyEvent.isPress, Bool.true_and]
  congr

theorem shiftWord_release (past : List KeyEvent) (k : Key) (esc : Bool) :
    (if esc then shiftWord past ||| E0ESC else shiftWord past) &&&
        ~~~(shiftcode k.index ||| E0ESC) = shiftWord (.release k :: past) := by
  rw [shiftcode_index, shiftWord, word_release]
  simp only [shiftWord, held_release, locked_cons, KeyEvent.key, KeyEvent.isPress, Bool.false_and,
    Bool.false_xor]

/-- The escape is remembered, and forgotten again. -/
theorem shiftWord_escape (past : List KeyEvent) (esc : Bool) :
    ((if esc then shiftWord past ||| E0ESC else shiftWord past) &&& E0ESC ≠ 0 ↔ esc = true) ∧
      (if esc then (if esc then shiftWord past ||| E0ESC else shiftWord past) &&& ~~~E0ESC
        else if esc then shiftWord past ||| E0ESC else shiftWord past) = shiftWord past := by
  rw [shiftWord]
  generalize held .shift past = sh, held .ctl past = ct, held .alt past = al,
    locked .caps past = ca, locked .num past = nu, locked .scroll past = sc
  revert esc sh ct al ca nu sc
  decide

theorem charcode_shiftWord (past : List KeyEvent) : charcode (shiftWord past &&& (CTL ||| SHIFT)) =
    if held .ctl past then ctlmap else if held .shift past then shiftmap else normalmap := by
  have hand : ∀ sh ct al ca nu sc, word sh ct al ca nu sc &&& (CTL ||| SHIFT) =
      (if ct then 2 else 0) ||| (if sh then 1 else 0) := by decide
  rw [shiftWord, hand]
  cases held .ctl past <;> cases held .shift past <;> rfl

theorem capslock_shiftWord (past : List KeyEvent) :
    shiftWord past &&& CAPSLOCK ≠ 0 ↔ locked .caps past = true := by
  have hand : ∀ sh ct al ca nu sc, word sh ct al ca nu sc &&& CAPSLOCK ≠ 0 ↔ ca = true := by
    decide
  exact hand _ _ _ _ _ _

theorem reset_shiftWord (past : List KeyEvent) :
    ~~~(shiftWord past) &&& (CTL ||| ALT) = 0 ↔
      held .ctl past = true ∧ held .alt past = true := by
  have hand : ∀ sh ct al ca nu sc,
      ~~~(word sh ct al ca nu sc) &&& (CTL ||| ALT) = 0 ↔ ct = true ∧ al = true := by
    decide
  exact hand _ _ _ _ _ _

/-- The case is swapped before the character is cut to a byte. -/
theorem swapCase_setWidth (c : Byte) :
    (let w : Word := c.setWidth 32
      if 0x61 ≤ w ∧ w ≤ 0x7A then w - 0x20 else if 0x41 ≤ w ∧ w ≤ 0x5A then w + 0x20 else w) =
      (swapCase c).setWidth 32 := by
  revert c
  decide

/-- Only one key has the character of Del, with all modifiers. -/
theorem char_eq_KEY_DEL (past : List KeyEvent) (k : Key) :
    k.char past = KEY_DEL ↔ k.ext = true ∧ k.code = 0x53 := by
  have hswap : ∀ c, swapCase c = KEY_DEL ↔ c = KEY_DEL := by decide
  have hmaps : ∀ (ext : Bool) (code : BitVec 7) (plain : code ≠ 0x60),
      let i := Key.index ⟨ext, code, plain⟩
      (ctlmap i = KEY_DEL ↔ ext = true ∧ code = 0x53) ∧
        (shiftmap i = KEY_DEL ↔ ext = true ∧ code = 0x53) ∧
        (normalmap i = KEY_DEL ↔ ext = true ∧ code = 0x53) := by decide
  obtain ⟨hctl, hshift, hnormal⟩ := hmaps k.ext k.code k.plain
  rw [Key.char]
  cases held .ctl past <;> cases held .shift past <;> cases locked .caps past <;>
    simpa [hswap]

/-- The byte of a key's press, apart from the escape -/
theorem pressByte (k : Key) : k.code.setWidth 8 ≠ (0xE0 : Byte) ∧
    ¬ k.code.setWidth 8 &&& (0x80 : Byte) ≠ 0 ∧
    (if k.ext then k.code.setWidth 8 ||| 0x80 else k.code.setWidth 8) = k.index := by
  obtain ⟨ext, code, plain⟩ := k
  revert ext code
  decide

/-- The byte of a key's release, apart from the escape -/
theorem releaseByte (k : Key) : k.code.setWidth 8 ||| 0x80 ≠ (0xE0 : Byte) ∧
    (k.code.setWidth 8 ||| 0x80) &&& (0x80 : Byte) ≠ 0 ∧
    (if k.ext then k.code.setWidth 8 ||| 0x80
      else (k.code.setWidth 8 ||| 0x80) &&& 0x7F) = k.index := by
  obtain ⟨ext, code, plain⟩ := k
  revert ext code
  decide

/-- Del is no modifier. -/
theorem held_press_del (m : Modifier) (hext : k.ext = true) (hcode : k.code = 0x53) :
    held m (.press k :: past) = held m past := by
  have hmod : k.modifier = none := by
    rw [Key.modifier, hext, hcode]
    rfl
  rw [held_press, hmod]
  rfl

/-- The test for Ctrl-Alt-Del -/
theorem reset_press (past : List KeyEvent) (k : Key) :
    ~~~(shiftWord (.press k :: past)) &&& (CTL ||| ALT) = 0 ∧
      (k.char (.press k :: past)).setWidth 32 = (KEY_DEL.setWidth 32 : Word) ↔
        (KeyEvent.press k).Resets past := by
  have hinj : ∀ c : Byte, c.setWidth 32 = (KEY_DEL.setWidth 32 : Word) ↔ c = KEY_DEL := by
    decide
  rw [hinj, char_eq_KEY_DEL, reset_shiftWord]
  constructor
  · rintro ⟨⟨hctl, halt⟩, hext, hcode⟩
    rw [held_press_del _ hext hcode] at hctl halt
    exact ⟨rfl, hext, hcode, hctl, halt⟩
  · rintro ⟨-, hext, hcode, hctl, halt⟩
    have hheld (m : Modifier) : held m (.press k :: past) = held m past :=
      held_press_del m hext hcode
    rw [hheld, hheld]
    exact ⟨⟨hctl, halt⟩, hext, hcode⟩

/-- The character that is looked up and then swapped -/
theorem lookup_press (past : List KeyEvent) (k : Key) :
    (let c : Word := (charcode (shiftWord past &&& (CTL ||| SHIFT)) k.index).setWidth 32
      if shiftWord past &&& CAPSLOCK ≠ 0 then
        if 0x61 ≤ c ∧ c ≤ 0x7A then c - 0x20 else if 0x41 ≤ c ∧ c ≤ 0x5A then c + 0x20 else c
      else c) = (k.char past).setWidth 32 := by
  rw [Key.char, charcode_shiftWord]
  simp only [capslock_shiftWord]
  cases locked .caps past with
  | false => cases held .ctl past <;> cases held .shift past <;> rfl
  | true =>
      rw [if_pos rfl, if_pos rfl, ← swapCase_setWidth]
      cases held .ctl past <;> cases held .shift past <;> rfl

theorem kbdByte_press (hs : s.shift = if k.ext then shiftWord past ||| E0ESC else shiftWord past) :
    kbdByte s (k.code.setWidth 8) = ((k.char (.press k :: past)).setWidth 32,
      { shift := shiftWord (.press k :: past)
        outb := s.outb ++ if (KeyEvent.press k).Resets past then [(0x92, 0x3)] else [] }) := by
  obtain ⟨hE0, htop, hindex⟩ := pressByte k
  obtain ⟨hesc, hshift⟩ := shiftWord_escape past k.ext
  have hreset := reset_press past k
  have hchar := lookup_press (.press k :: past) k
  dsimp only at hchar
  rw [kbdByte, if_neg hE0, if_neg htop]
  simp only [hs, hesc, hindex, hshift, shiftWord_press]
  rw [hchar]
  by_cases hr : (KeyEvent.press k).Resets past
  · rw [if_pos (hreset.mpr hr), if_pos hr]
  · rw [if_neg (fun h ↦ hr (hreset.mp h)), if_neg hr, List.append_nil]

theorem kbdByte_release
    (hs : s.shift = if k.ext then shiftWord past ||| E0ESC else shiftWord past) :
    kbdByte s (k.code.setWidth 8 ||| 0x80) =
      (0, { s with shift := shiftWord (.release k :: past) }) := by
  obtain ⟨hE0, htop, hindex⟩ := releaseByte k
  obtain ⟨hesc, -⟩ := shiftWord_escape past k.ext
  rw [kbdByte, if_neg hE0, if_pos htop]
  simp only [hs, hesc, hindex, shiftWord_release]

/-! ## The bytes one after the other -/

/-- What `kbd_proc_data` does with a byte, and the characters that `cons_intr` stores. -/
def kbdStep (s : State) (data : Byte) : State × List Byte :=
  ((kbdByte s data).2, if (kbdByte s data).1 = 0 then [] else [character (kbdByte s data).1])

/-- The driver has seen exactly the events of the history. -/
structure Seen (s : State) (past : List KeyEvent) : Prop where
  shift : s.shift = shiftWord past
  outb : s.outb = List.replicate (resets past) (0x92, 0x3)

theorem Seen.boot : Seen ⟨0, []⟩ [] := ⟨by decide, rfl⟩

/-- The bytes of one event -/
theorem transduce_wire (s : State) (e : KeyEvent) : transduce kbdStep s e.wire =
    kbdStep { s with shift := if e.key.ext then s.shift ||| E0ESC else s.shift }
      (if e.isPress then e.key.code.setWidth 8 else e.key.code.setWidth 8 ||| 0x80) := by
  have hstep (s : State) (b : Byte) : transduce kbdStep s [b] = kbdStep s b := by
    rw [transduce_cons, transduce_nil, List.append_nil]
  rw [KeyEvent.wire]
  cases e.key.ext with
  | false => exact hstep s _
  | true =>
      rw [if_pos rfl, if_pos rfl, List.singleton_append, transduce_cons, hstep]
      rfl

theorem Seen.press (hs : s.shift = if k.ext then shiftWord past ||| E0ESC else shiftWord past)
    (houtb : s.outb = List.replicate (resets past) (0x92, 0x3)) :
    (kbdStep s (k.code.setWidth 8)).2 = (KeyEvent.press k).chars past ∧
      Seen (kbdStep s (k.code.setWidth 8)).1 (.press k :: past) := by
  have hzero : ∀ c : Byte, c.setWidth 32 = (0 : Word) ↔ c = 0 := by decide
  have hcut : ∀ c : Byte, character (c.setWidth 32) = c := by decide
  rw [kbdStep, kbdByte_press hs]
  constructor
  · show (if (k.char (.press k :: past)).setWidth 32 = (0 : Word) then []
      else [character ((k.char (.press k :: past)).setWidth 32)]) = _
    rw [hcut, KeyEvent.chars]
    by_cases h0 : k.char (.press k :: past) = 0
    · rw [if_pos ((hzero _).mpr h0), if_neg (fun h ↦ h.2 h0)]
    · rw [if_neg (fun h ↦ h0 ((hzero _).mp h)), if_pos ⟨rfl, h0⟩]
      rfl
  · refine ⟨rfl, ?_⟩
    rw [resets, houtb]
    split
    · rw [Nat.add_comm, List.replicate_succ']
    · rw [List.append_nil, Nat.zero_add]

theorem Seen.release (hs : s.shift = if k.ext then shiftWord past ||| E0ESC else shiftWord past)
    (houtb : s.outb = List.replicate (resets past) (0x92, 0x3)) :
    (kbdStep s (k.code.setWidth 8 ||| 0x80)).2 = (KeyEvent.release k).chars past ∧
      Seen (kbdStep s (k.code.setWidth 8 ||| 0x80)).1 (.release k :: past) := by
  rw [kbdStep, kbdByte_release hs]
  have hno : ¬ (KeyEvent.release k).Resets past := fun h ↦ Bool.false_ne_true h.1
  refine ⟨?_, rfl, ?_⟩
  · show ([] : List Byte) = _
    rw [KeyEvent.chars, if_neg (fun h ↦ Bool.false_ne_true h.1)]
  · rw [resets, if_neg hno, Nat.zero_add]
    exact houtb

/-- The driver reads the bytes of each key event as that event. -/
theorem reads_wire : Reads kbdStep KeyEvent.wire KeyEvent.chars Seen := by
  intro s past h e
  rw [transduce_wire, h.shift]
  cases e with
  | press k => exact Seen.press rfl h.outb
  | release k => exact Seen.release rfl h.outb

/-! ## Polling -/

/-- The byte comes from the keyboard, without an error. -/
def Scan.fromKbd (b : Scan) : Bool := b.stat &&& KBS_TERR = 0

/-- The bytes that the driver reads: up to the first one from the mouse, or with an error, which
stays in front of all others. -/
def readable (waits : List Scan) : List Byte :=
  (waits.takeWhile Scan.fromKbd).map Scan.data

/-- What is returned for a byte is a byte. -/
theorem kbdByte_byte (s : State) (data : Byte) :
    ∃ c : Byte, (kbdByte s data).1 = c.setWidth 32 := by
  have hswap (p : Prop) [Decidable p] (c : Byte) : ∃ d : Byte, (let w : Word := c.setWidth 32
      if p then
        if 0x61 ≤ w ∧ w ≤ 0x7A then w - 0x20 else if 0x41 ≤ w ∧ w ≤ 0x5A then w + 0x20 else w
      else w) = d.setWidth 32 := by
    by_cases h : p
    · exact ⟨swapCase c, by rw [← swapCase_setWidth]; exact if_pos h⟩
    · exact ⟨c, if_neg h⟩
  rw [kbdByte]
  split
  · exact ⟨0, rfl⟩
  split
  · exact ⟨0, rfl⟩
  have hfst (p : Prop) [Decidable p] (c : Word) (s s' : State) :
      (if p then (c, s) else (c, s')).1 = c := by
    split <;> rfl
  rw [hfst]
  apply hswap

/-- What `kbd_proc_data` returns is not taken for -1, and fits into the buffer. -/
theorem kbdByte_fits (s : State) (data : Byte) : (kbdByte s data).1 ≠ -1 ∧
    ((kbdByte s data).1 ≠ 0 → character (kbdByte s data).1 ≠ 0) := by
  have hbyte : ∀ c : Byte, (c.setWidth 32 : Word) ≠ -1 ∧
      ((c.setWidth 32 : Word) ≠ 0 → character (c.setWidth 32) ≠ 0) := by
    decide
  obtain ⟨c, hc⟩ := kbdByte_byte s data
  rw [hc]
  exact hbyte c

theorem kbdProcData_cons {b : Scan} (hb : b.fromKbd = true) (s : State) (waits : List Scan) :
    kbdProcData ⟨s, b :: waits⟩ = ((kbdByte s b.data).1, ⟨(kbdByte s b.data).2, waits⟩) := by
  rw [kbdProcData]
  dsimp only
  rw [if_neg b.dib, if_neg (not_not.mpr (of_decide_eq_true hb))]

theorem kbdProcData_mouse {b : Scan} (hb : b.fromKbd = false) (s : State) (waits : List Scan) :
    kbdProcData ⟨s, b :: waits⟩ = (-1, ⟨s, b :: waits⟩) := by
  rw [kbdProcData]
  dsimp only
  rw [if_neg b.dib, if_pos (of_decide_eq_false hb)]

theorem readable_cons {b : Scan} (hb : b.fromKbd = true) (waits : List Scan) :
    readable (b :: waits) = b.data :: readable waits := by
  rw [readable, List.takeWhile_cons_of_pos hb, List.map_cons, ← readable]

theorem readable_mouse {b : Scan} (hb : b.fromKbd = false) (waits : List Scan) :
    readable (b :: waits) = [] := by
  rw [readable, List.takeWhile_cons_of_neg (by rw [hb]; exact Bool.false_ne_true), List.map_nil]

/-- What arrives with one more call -/
theorem arrivals_proc (s : State) (data : Byte) (cs : List Word) :
    (arrivals ((kbdByte s data).1 :: cs)).map character =
      (kbdStep s data).2 ++ (arrivals cs).map character := by
  obtain ⟨hend, -⟩ := kbdByte_fits s data
  rw [kbdStep]
  by_cases h0 : (kbdByte s data).1 = 0
  · rw [h0, arrivals_zero, if_pos rfl, List.nil_append]
  · rw [arrivals_cons hend h0, if_neg h0, List.map_cons]
    rfl

/-- A poll reads what is readable, and leaves the rest. -/
theorem procs_spec (waits : List Scan) (s : State) {n : ℕ} (hn : waits.length < n) :
    (arrivals (procs n ⟨s, waits⟩).1).map character =
        (transduce kbdStep s (readable waits)).2 ∧
      (procs n ⟨s, waits⟩).2 = ⟨(transduce kbdStep s (readable waits)).1,
        waits.dropWhile Scan.fromKbd⟩ := by
  induction waits generalizing s n with
  | nil =>
      obtain ⟨n, rfl⟩ := Nat.exists_eq_succ_of_ne_zero (Nat.ne_of_gt hn)
      exact ⟨rfl, rfl⟩
  | cons b waits ih =>
      obtain ⟨n, rfl⟩ := Nat.exists_eq_succ_of_ne_zero (Nat.ne_of_gt ((Nat.zero_le _).trans_lt hn))
      rw [procs]
      cases hb : b.fromKbd with
      | true =>
        obtain ⟨hchars, hrest⟩ := ih (kbdByte s b.data).2 (Nat.lt_of_succ_lt_succ hn)
        obtain ⟨hend, -⟩ := kbdByte_fits s b.data
        rw [kbdProcData_cons hb, readable_cons hb, transduce_cons,
          List.dropWhile_cons_of_pos hb]
        dsimp only
        rw [if_neg hend]
        refine ⟨?_, hrest⟩
        rw [arrivals_proc, hchars]
        rfl
      | false =>
        rw [kbdProcData_mouse hb, readable_mouse hb,
          List.dropWhile_cons_of_neg (by rw [hb]; exact Bool.false_ne_true)]
        exact ⟨rfl, rfl⟩

/-- No character that is stored is zero. -/
theorem transduce_ne_zero (s : State) (data : List Byte) :
    ∀ c ∈ (transduce kbdStep s data).2, c ≠ 0 := by
  induction data generalizing s with
  | nil => exact fun c hc ↦ (List.not_mem_nil hc).elim
  | cons b data ih =>
      intro c hc
      rw [transduce_cons, List.mem_append, kbdStep] at hc
      rcases hc with hc | hc
      · dsimp only at hc
        split at hc
        · cases hc
        next h0 =>
          rw [List.mem_singleton.mp hc]
          exact (kbdByte_fits s b).2 h0
      · exact ih _ c hc

end Kbd
end Jos
