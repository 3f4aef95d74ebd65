import Jos.Kern.Keyboard
import Jos.Libc.Readline
import Mathlib.Data.List.TakeWhile

/-!
# From the keys to the reader (`kern/console.c`)

The bytes of the keyboard and of the serial port arrive at any time, between any two polls, even
between the escape and the code of a key.  `cons_intr` stores what the drivers make of them, and
`cons_getc` takes one character after the other.  What is read is what was typed, mixed with what
came over the serial port.
-/

namespace Jos

open Jos.Lib Kbd

/-- The number of characters in the buffer -/
def ConsBuf.occupied (b : ConsBuf) : ℕ :=
  (b.wpos.toNat + CONSBUFSIZE - b.rpos.toNat) % CONSBUFSIZE

/-- What `serial_proc_data` returns up to the first -1, for the bytes that wait in the port. -/
def serialProcs (waits : List Byte) : List Word := waits.map (BitVec.setWidth 32) ++ [-1]

/-- The console with its devices, and a record: what the keyboard sent, what came over the serial
port, and what `cons_getc` returned, but for zeros. -/
structure Input where
  port : Port
  serial : List Byte
  con : ConsBuf
  sent : List Scan
  came : List Byte
  got : List Byte

namespace Input

/-- The console at boot -/
def boot : Input := ⟨⟨⟨0, []⟩, []⟩, [], noInput, [], [], []⟩

/-- What `cons_getc` finds in the serial port, if there is one. -/
def serialArrivals (s : Input) (serialExists : Bool) : List Word :=
  if serialExists then arrivals (serialProcs s.serial) else []

/-- What `cons_getc` finds at the keyboard. -/
def kbdArrivals (s : Input) : List Word := arrivals s.port.drain.1

/-- `cons_getc` -/
def getc (s : Input) (serialExists : Bool) : Word × ConsBuf :=
  ConsBuf.getc serialExists s.con (serialProcs s.serial) s.port.drain.1

/-- A byte arrives, or the devices are polled, while there is room in the buffer. -/
inductive Step (serialExists : Bool) : Input → Input → Prop
  | scan (s : Input) (b : Scan) : Step serialExists s
      { s with
        port := { s.port with waits := s.port.waits ++ [b] }
        sent := s.sent ++ [b] }
  | receive (s : Input) (c : Byte) : Step serialExists s
      { s with serial := s.serial ++ [c], came := s.came ++ [c] }
  | kbdIntr (s : Input) (few : s.con.occupied + s.kbdArrivals.length ≤ 511) : Step serialExists s
      { s with port := s.port.drain.2, con := s.con.intr s.port.drain.1 }
  | getc (s : Input)
      (few : s.con.occupied + (s.serialArrivals serialExists ++ s.kbdArrivals).length ≤ 511) :
      Step serialExists s
      { s with
        port := s.port.drain.2
        serial := if serialExists then [] else s.serial
        con := (s.getc serialExists).2
        got := s.got ++
          if (s.getc serialExists).1 = 0 then [] else [character (s.getc serialExists).1] }

/-- Any number of steps since boot -/
def Run (serialExists : Bool) : Input → Prop :=
  Relation.ReflTransGen (Step serialExists) boot

end Input

/-- The characters of one device -/
def ofDevice (d : Device) (log : List (Device × Byte)) : List Byte :=
  (log.filter (·.1 = d)).map Prod.snd

variable {s s' : Input} {b : ConsBuf} {q : List Word} {log : List (Device × Byte)} {sx : Bool}
  {d : Device} {w : List Byte}

/-! ## The parts of a poll -/

theorem ofDevice_append (d : Device) (log log' : List (Device × Byte)) :
    ofDevice d (log ++ log') = ofDevice d log ++ ofDevice d log' := by
  rw [ofDevice, List.filter_append, List.map_append]
  rfl

theorem ofDevice_self (d : Device) (w : List Byte) : ofDevice d (w.map (Prod.mk d)) = w :=
  (filter_tagged d d w).trans (if_pos rfl)

theorem ofDevice_other {d d' : Device} (h : d ≠ d') (w : List Byte) :
    ofDevice d' (w.map (Prod.mk d)) = [] :=
  (filter_tagged d d' w).trans (if_neg h)

theorem Unread.occupied (h : Unread b q) : b.occupied = q.length := by
  obtain ⟨r, hrep, hq⟩ := h
  have hlen := congrArg List.length hq
  rw [Ring.length_contents, List.length_map, Ring.size] at hlen
  rw [ConsBuf.occupied, hrep.rpos, hrep.wpos, hlen]

/-- What `cons_getc` returns, and what is left -/
theorem oldest_append_tail (hq : ∀ c ∈ q, character c ≠ 0) :
    (if oldest q = 0 then [] else [character (oldest q)]) ++ q.tail.map character =
      q.map character := by
  cases q with
  | nil => rfl
  | cons c q =>
      have hne := hq c List.mem_cons_self
      have hcut : character ((character c).setWidth 32) = character c := by
        rw [character, BitVec.setWidth_setWidth_of_le _ (by decide), BitVec.setWidth_eq]
      rw [oldest, if_neg (fun h ↦ hne (setWidth_character_eq_zero.mp h)), hcut]
      rfl

/-- What arrives from the serial port -/
theorem arrivals_serialProcs (waits : List Byte) :
    (arrivals (serialProcs waits)).map character = waits.filter (· ≠ 0) := by
  induction waits with
  | nil => rfl
  | cons c waits ih =>
      have hend : (c.setWidth 32 : Word) ≠ -1 := by bv_omega
      have hzero : (c.setWidth 32 : Word) = 0 ↔ c = 0 := by
        constructor <;> intro h <;> bv_omega
      rw [serialProcs, List.map_cons, List.cons_append, ← serialProcs]
      by_cases h0 : c = 0
      · rw [hzero.mpr h0, arrivals_zero, ih, List.filter_cons_of_neg (by simpa using h0)]
      · rw [arrivals_cons hend (fun h ↦ h0 (hzero.mp h)), List.map_cons, ih,
          List.filter_cons_of_pos (by simpa using h0), character,
          BitVec.setWidth_setWidth_of_le _ (by decide), BitVec.setWidth_eq]

/-- What arrives from the keyboard -/
theorem Input.kbdArrivals_eq (s : Input) : s.kbdArrivals.map character =
    (transduce kbdStep s.port.state (readable s.port.waits)).2 :=
  (procs_spec s.port.waits s.port.state (Nat.lt_succ_self _)).1

theorem Input.drain_eq (s : Input) : s.port.drain.2 =
    ⟨(transduce kbdStep s.port.state (readable s.port.waits)).1,
      s.port.waits.dropWhile Scan.fromKbd⟩ :=
  (procs_spec s.port.waits s.port.state (Nat.lt_succ_self _)).2

theorem ne_zero_of_map {w : List Byte} (h : q.map character = w) (hw : ∀ c ∈ w, c ≠ 0) :
    ∀ c ∈ q, character c ≠ 0 := by
  intro c hc
  apply hw
  rw [← h]
  exact List.mem_map_of_mem hc

theorem Input.kbdArrivals_ne_zero (s : Input) : ∀ c ∈ s.kbdArrivals, character c ≠ 0 :=
  ne_zero_of_map s.kbdArrivals_eq (transduce_ne_zero _ _)

theorem Input.serialArrivals_ne_zero (s : Input) :
    ∀ c ∈ s.serialArrivals sx, character c ≠ 0 := by
  cases sx with
  | false => exact fun c hc ↦ (List.not_mem_nil hc).elim
  | true =>
      exact ne_zero_of_map (arrivals_serialProcs s.serial)
        (fun c hc ↦ by simpa using (List.mem_filter.mp hc).2)

/-! ## The invariant -/

/-- The keyboard's part of the record: what was read of its bytes, and what is stored for them. -/
def KbdRead (port : Port) (sent : List Scan) (w : List Byte) : Prop :=
  ∃ read, sent = read ++ port.waits ∧ (∀ b ∈ read, b.fromKbd = true) ∧
    transduce kbdStep ⟨0, []⟩ (read.map Scan.data) = (port.state, w)

/-- What holds in every run -/
structure InputInv (s : Input) (log : List (Device × Byte)) : Prop where
  unread : ∃ q, Unread s.con q ∧ (∀ c ∈ q, character c ≠ 0) ∧
    s.got ++ q.map character = log.map Prod.snd
  serial : s.came.filter (· ≠ 0) = ofDevice .serial log ++ s.serial.filter (· ≠ 0)
  kbd : KbdRead s.port s.sent (ofDevice .kbd log)

theorem KbdRead.poll {port : Port} {sent : List Scan} {w : List Byte} (h : KbdRead port sent w) :
    KbdRead ⟨(transduce kbdStep port.state (readable port.waits)).1,
      port.waits.dropWhile Scan.fromKbd⟩ sent
      (w ++ (transduce kbdStep port.state (readable port.waits)).2) := by
  obtain ⟨read, hsent, hread, htrans⟩ := h
  refine ⟨read ++ port.waits.takeWhile Scan.fromKbd, ?_, ?_, ?_⟩
  · rw [List.append_assoc, List.takeWhile_append_dropWhile, hsent]
  · intro b hb
    rcases List.mem_append.mp hb with hb | hb
    · exact hread b hb
    · exact List.mem_takeWhile_imp hb
  · rw [List.map_append, transduce_append, htrans]
    rfl

theorem noInput_unread : Unread noInput [] := (noInput_run : ConsRun true noInput []).unread

theorem InputInv.boot : InputInv Input.boot [] :=
  ⟨⟨[], noInput_unread, fun _ hc ↦ (List.not_mem_nil hc).elim, rfl⟩, rfl,
    ⟨[], rfl, fun _ hb ↦ (List.not_mem_nil hb).elim, rfl⟩⟩

/-- What a poll of the keyboard adds to the record -/
def Input.kbdLog (s : Input) : List (Device × Byte) :=
  (s.kbdArrivals.map character).map (Prod.mk .kbd)

/-- What a poll of the serial port adds to the record -/
def Input.serialLog (s : Input) (serialExists : Bool) : List (Device × Byte) :=
  ((s.serialArrivals serialExists).map character).map (Prod.mk .serial)

theorem map_snd_tagged (d : Device) (w : List Byte) : (w.map (Prod.mk d)).map Prod.snd = w := by
  rw [List.map_map]
  exact List.map_id w

/-- The keyboard is polled, and nothing else. -/
theorem InputInv.kbd_poll (h : InputInv s log) (few : s.con.occupied + s.kbdArrivals.length ≤ 511) :
    InputInv { s with port := s.port.drain.2, con := s.con.intr s.port.drain.1 }
      (log ++ s.kbdLog) := by
  obtain ⟨⟨q, hq, hne, hgot⟩, hserial, hkbd⟩ := h
  refine ⟨⟨q ++ s.kbdArrivals, hq.intr ?_, ?_, ?_⟩, ?_, ?_⟩
  · rw [List.length_append, ← hq.occupied]
    exact few
  · intro c hc
    rcases List.mem_append.mp hc with hc | hc
    · exact hne c hc
    · exact s.kbdArrivals_ne_zero c hc
  · rw [List.map_append, ← List.append_assoc, hgot, List.map_append, Input.kbdLog, map_snd_tagged]
  · rw [ofDevice_append, Input.kbdLog, ofDevice_other (by decide), List.append_nil]
    exact hserial
  · rw [ofDevice_append, Input.kbdLog, ofDevice_self, s.drain_eq, s.kbdArrivals_eq]
    exact hkbd.poll

/-- Both devices are polled, and a character is taken. -/
theorem InputInv.getc (h : InputInv s log)
    (few : s.con.occupied + (s.serialArrivals sx ++ s.kbdArrivals).length ≤ 511) :
    InputInv
      { s with
        port := s.port.drain.2
        serial := if sx then [] else s.serial
        con := (s.getc sx).2
        got := s.got ++ if (s.getc sx).1 = 0 then [] else [character (s.getc sx).1] }
      (log ++ s.serialLog sx ++ s.kbdLog) := by
  obtain ⟨⟨q, hq, hne, hgot⟩, hserial, hkbd⟩ := h
  have hpolled : polled sx q (serialProcs s.serial) s.port.drain.1 =
      q ++ s.serialArrivals sx ++ s.kbdArrivals := rfl
  have hlen : (polled sx q (serialProcs s.serial) s.port.drain.1).length ≤ 511 := by
    rw [hpolled, List.append_assoc, List.length_append, ← hq.occupied]
    exact few
  obtain ⟨hres, hleft⟩ := (hq.polled hlen).take
  have hall : ∀ c ∈ q ++ s.serialArrivals sx ++ s.kbdArrivals, character c ≠ 0 := by
    intro c hc
    rcases List.mem_append.mp hc with hc | hc
    · rcases List.mem_append.mp hc with hc | hc
      · exact hne c hc
      · exact s.serialArrivals_ne_zero c hc
    · exact s.kbdArrivals_ne_zero c hc
  rw [hpolled] at hres hleft
  refine ⟨⟨_, hleft, fun c hc ↦ hall c (List.mem_of_mem_tail hc), ?_⟩, ?_, ?_⟩
  · have hgetc : (s.getc sx).1 = oldest (q ++ s.serialArrivals sx ++ s.kbdArrivals) := hres
    rw [hgetc, List.append_assoc, oldest_append_tail hall, List.map_append, List.map_append,
      List.map_append, List.map_append, Input.kbdLog, Input.serialLog, map_snd_tagged,
      map_snd_tagged, ← hgot]
    simp only [List.append_assoc]
  · rw [ofDevice_append, ofDevice_append, Input.kbdLog, Input.serialLog, ofDevice_self,
      ofDevice_other (by decide), List.append_nil, hserial, List.append_assoc]
    congr 1
    cases sx with
    | false => rfl
    | true =>
        rw [if_pos rfl, List.filter_nil, List.append_nil]
        exact (arrivals_serialProcs s.serial).symm
  · rw [ofDevice_append, ofDevice_append, Input.kbdLog, Input.serialLog, ofDevice_self,
      ofDevice_other (by decide), List.append_nil, s.drain_eq, s.kbdArrivals_eq]
    exact hkbd.poll

theorem InputInv.step (h : InputInv s log) (hstep : Input.Step sx s s') :
    ∃ log', InputInv s' log' := by
  cases hstep with
  | scan b =>
      obtain ⟨hunread, hserial, read, hsent, hread, htrans⟩ := h
      refine ⟨log, hunread, hserial, read, ?_, hread, htrans⟩
      rw [hsent, List.append_assoc]
  | receive c =>
      obtain ⟨hunread, hserial, hkbd⟩ := h
      refine ⟨log, hunread, ?_, hkbd⟩
      rw [List.filter_append, List.filter_append, hserial, List.append_assoc]
  | kbdIntr few => exact ⟨_, h.kbd_poll few⟩
  | getc few => exact ⟨_, h.getc few⟩

theorem Input.Run.inv (run : Input.Run sx s) : ∃ log, InputInv s log := by
  induction run with
  | refl => exact ⟨[], InputInv.boot⟩
  | tail _ hstep ih =>
      obtain ⟨log, h⟩ := ih
      exact h.step hstep

/-! ## Typing -/

/-- The bytes that can be read, of those that were sent -/
theorem readable_append {read waits : List Scan} (h : ∀ b ∈ read, b.fromKbd = true) :
    readable (read ++ waits) = read.map Scan.data ++ readable waits := by
  rw [readable, List.takeWhile_append_of_pos h, List.map_append, ← readable]

/-- What is stored for the keyboard is what the keys mean, as far as their bytes have been read. -/
theorem KbdRead.typed {port : Port} {sent : List Scan} (h : KbdRead port sent w)
    {es : List KeyEvent} (hsent : readable sent = es.flatMap KeyEvent.wire) :
    w <+: typed es ∧
      (readable port.waits = [] → w = typed es ∧ Kbd.Seen port.state es.reverse) := by
  obtain ⟨read, hread, hkbd, htrans⟩ := h
  rw [hread, readable_append hkbd] at hsent
  constructor
  · have hcut := reads_wire.prefix_of_cut Kbd.Seen.boot (hsent ▸ List.prefix_append _ _)
    rw [htrans] at hcut
    exact hcut
  · intro hnil
    rw [hnil, List.append_nil] at hsent
    obtain ⟨hout, hseen⟩ := reads_wire.run Kbd.Seen.boot es
    rw [← hsent, htrans] at hout hseen
    rw [List.append_nil] at hseen
    exact ⟨hout, hseen⟩

/-- The left shift key -/
def leftShift : Kbd.Key := ⟨false, 0x2A, by decide⟩

/-- A byte of the keyboard -/
def scan (data : Byte) : Scan := ⟨KBS_DIB, data, by decide⟩

/-- The key that has a character in a row of the tables, if there is one -/
def keyOf (row : List Char) (c : Byte) : Option Kbd.Key :=
  let i := row.findIdx fun x ↦ ascii x = c
  if h : BitVec.ofNat 7 i ≠ 0x60 ∧ i < row.length then some ⟨false, BitVec.ofNat 7 i, h.1⟩ else none

/-- The keys for a character, with a shift key if it is needed -/
def strokes (c : Byte) : List KeyEvent :=
  match keyOf normalrow c, keyOf shiftrow c with
  | some k, _ => [.press k, .release k]
  | none, some k => [.press leftShift, .press k, .release k, .release leftShift]
  | none, none => []

/-- The keys for a text -/
def keystrokes (text : List Byte) : List KeyEvent := text.flatMap strokes

/-- What is typed into a line: characters that can be printed, and backspace. -/
def Enterable (c : Byte) : Prop := 0x20 ≤ c ∧ c ≤ 0x7E ∨ c = 0x08

instance : DecidablePred Enterable := fun _ ↦ inferInstanceAs (Decidable (_ ∨ _))

/-- No modifier holds, and caps lock is off. -/
structure Idle (past : List KeyEvent) : Prop where
  held : ∀ m, Kbd.held m past = false
  caps : locked .caps past = false

/-- The key has the character `c` in a table, and is neither a modifier nor a lock. -/
def Labelled (map : Byte → Byte) (c : Byte) (k : Kbd.Key) : Prop :=
  map k.index = c ∧ k.modifier = none ∧ k.lock = none

instance (map : Byte → Byte) (c : Byte) : DecidablePred (Labelled map c) :=
  fun _ ↦ inferInstanceAs (Decidable (_ ∧ _))

variable {past : List KeyEvent} {c : Byte} {k : Kbd.Key} {map : Byte → Byte} {text : List Byte}

set_option maxRecDepth 8000 in
/-- Every character that is typed is on a key. -/
theorem strokes_cases (hc : Enterable c ∨ c = 0x0A) : ∃ k,
    strokes c = [.press k, .release k] ∧ Labelled normalmap c k ∨
      strokes c = [.press leftShift, .press k, .release k, .release leftShift] ∧
        Labelled shiftmap c k := by
  have hall : ∀ c, Enterable c ∨ c = 0x0A →
      (keyOf normalrow c).any (fun k ↦ Labelled normalmap c k) = true ∨
        keyOf normalrow c = none ∧
          (keyOf shiftrow c).any (fun k ↦ Labelled shiftmap c k) = true := by
    decide
  rcases hall c hc with h | ⟨hnone, h⟩
  · obtain ⟨k, hk, hlabel⟩ := (Option.any_eq_true _ _).mp h
    refine ⟨k, .inl ⟨?_, of_decide_eq_true hlabel⟩⟩
    rw [strokes, hk]
  · obtain ⟨k, hk, hlabel⟩ := (Option.any_eq_true _ _).mp h
    refine ⟨k, .inr ⟨?_, of_decide_eq_true hlabel⟩⟩
    rw [strokes, hnone, hk]

/-- A key that is neither a modifier nor a lock leaves these alone. -/
theorem Labelled.held (h : Labelled map c k) (m : Modifier) (past : List KeyEvent) :
    Kbd.held m (.press k :: past) = Kbd.held m past ∧
      Kbd.held m (.release k :: past) = Kbd.held m past := by
  rw [held_press, held_release, h.2.1]
  constructor
  · rfl
  · rfl

theorem Labelled.locked (h : Labelled map c k) (l : Lock) (past : List KeyEvent) :
    Kbd.locked l (.press k :: past) = Kbd.locked l past ∧
      Kbd.locked l (.release k :: past) = Kbd.locked l past := by
  rw [locked_cons, locked_cons]
  simp [KeyEvent.key, KeyEvent.isPress, h.2.2]

/-- The character of such a key -/
theorem Labelled.char (h : Labelled map c k) (past : List KeyEvent) :
    k.char (.press k :: past) = k.char past := by
  rw [Key.char, Key.char, (h.held .ctl past).1, (h.held .shift past).1, (h.locked .caps past).1]

theorem chars_release (past : List KeyEvent) (k : Kbd.Key) :
    KeyEvent.chars past (.release k) = [] :=
  if_neg fun h ↦ Bool.false_ne_true h.1

theorem chars_press (h : k.char (.press k :: past) = c) (hc : c ≠ 0) :
    KeyEvent.chars past (.press k) = [c] := by
  subst h
  exact if_pos ⟨rfl, hc⟩

/-- Whoever starts with no modifier types the character, and ends so. -/
theorem meaning_strokes (hidle : Idle past) (hc : Enterable c ∨ c = 0x0A) :
    meaning KeyEvent.chars past (strokes c) = [c] ∧ Idle ((strokes c).reverse ++ past) := by
  have h0 : c ≠ 0 := by
    rintro rfl
    revert hc
    decide
  obtain ⟨k, ⟨hstrokes, hk⟩ | ⟨hstrokes, hk⟩⟩ := strokes_cases hc
  · have hchar : k.char (.press k :: past) = c := by
      rw [hk.char, Key.char, hidle.held, hidle.held, hidle.caps]
      exact hk.1
    rw [hstrokes]
    refine ⟨?_, fun m ↦ ?_, ?_⟩
    · rw [meaning, meaning, meaning, chars_press hchar h0, chars_release]
      rfl
    · show Kbd.held m (.release k :: .press k :: past) = false
      rw [(hk.held m _).2, (hk.held m _).1, hidle.held]
    · show Kbd.locked .caps (.release k :: .press k :: past) = false
      rw [(hk.locked _ _).2, (hk.locked _ _).1, hidle.caps]
  · have hshift : Kbd.held .shift (.press leftShift :: past) = true := rfl
    have hctl : Kbd.held .ctl (.press leftShift :: past) = false := hidle.held .ctl
    have hcaps : Kbd.locked .caps (.press leftShift :: past) = false := by
      rw [locked_cons, hidle.caps]
      rfl
    have hchar : k.char (.press k :: .press leftShift :: past) = c := by
      rw [hk.char, Key.char, hctl, hshift, hcaps]
      exact hk.1
    have hnone : KeyEvent.chars past (.press leftShift) = [] := by
      refine if_neg fun h ↦ h.2 ?_
      show leftShift.char (.press leftShift :: past) = 0
      rw [Key.char, hctl, hshift, hcaps]
      rfl
    rw [hstrokes]
    refine ⟨?_, fun m ↦ ?_, ?_⟩
    · rw [meaning, meaning, meaning, meaning, meaning, hnone, chars_press hchar h0, chars_release,
        chars_release]
      rfl
    · show Kbd.held m (.release leftShift :: .release k :: .press k :: .press leftShift :: past) =
        false
      rw [held_release, (hk.held m _).2, (hk.held m _).1, held_press, hidle.held]
      cases m <;> rfl
    · show Kbd.locked .caps
        (.release leftShift :: .release k :: .press k :: .press leftShift :: past) = false
      rw [locked_cons, (hk.locked _ _).2, (hk.locked _ _).1, hcaps]
      rfl

theorem meaning_keystrokes (hidle : Idle past) (htext : ∀ c ∈ text, Enterable c ∨ c = 0x0A) :
    meaning KeyEvent.chars past (keystrokes text) = text := by
  induction text generalizing past with
  | nil => rfl
  | cons c text ih =>
      obtain ⟨hc, htext⟩ := List.forall_mem_cons.mp htext
      obtain ⟨hout, hnext⟩ := meaning_strokes hidle hc
      rw [keystrokes, List.flatMap_cons, meaning_append, hout, ← keystrokes, ih hnext htext]
      rfl

/-- Every text can be typed. -/
theorem typed_keystrokes (htext : ∀ c ∈ text, Enterable c ∨ c = 0x0A) :
    typed (keystrokes text) = text :=
  meaning_keystrokes ⟨fun _ ↦ rfl, rfl⟩ htext

/-- Without a DEL, `readline` edits the line as it should. -/
theorem foldl_keep_eq_edit {cs : List Byte} (h : ∀ c ∈ cs, Enterable c) (line : List Byte) :
    cs.foldl Readline.keep line = cs.foldl Readline.edit line := by
  induction cs generalizing line with
  | nil => rfl
  | cons c cs ih =>
      obtain ⟨hc, hcs⟩ := List.forall_mem_cons.mp h
      have hstep : Readline.keep line c = Readline.edit line c := by
        rw [Readline.keep, Readline.edit]
        by_cases hdel : Readline.Deletes c
        · rw [if_pos hdel]
          cases line with
          | nil =>
              have h8 : c = 0x08 := by
                rcases hdel with rfl | rfl
                · rfl
                · exact absurd hc (by decide)
              subst h8
              rfl
          | cons x line => exact if_pos ⟨hdel, Nat.succ_pos _⟩
        · rw [if_neg hdel, if_neg fun h ↦ hdel h.1]
      rw [List.foldl_cons, List.foldl_cons, hstep]
      exact ih hcs _

/-- What is stored came from the keyboard if nothing came over the serial port. -/
theorem map_snd_of_serial_nil (h : ofDevice .serial log = []) :
    log.map Prod.snd = ofDevice .kbd log := by
  have hkbd : ∀ x ∈ log, x.1 = .kbd := by
    intro x hx
    cases hd : x.1 with
    | kbd => rfl
    | serial =>
        have hmem : x.2 ∈ ofDevice .serial log :=
          List.mem_map_of_mem (List.mem_filter.mpr ⟨hx, decide_eq_true hd⟩)
        rw [h] at hmem
        exact (List.not_mem_nil hmem).elim
  rw [ofDevice, List.filter_eq_self.mpr fun x hx ↦ decide_eq_true (hkbd x hx)]

/-- A line that is typed, with any backspaces, is what `readline` returns once it has read the
newline, however its bytes and the polls follow each other. -/
theorem typed_line_read (run : Input.Run sx s) (htext : ∀ c ∈ text, Enterable c)
    (hsent : readable s.sent = (keystrokes (text ++ [0x0A])).flatMap KeyEvent.wire)
    (hcame : s.came = []) (hend : 0x0A ∈ s.got) {buf : Text}
    (hbuf : ∀ a < BUFLEN, ∃ c, buf a = some c) :
    ∃ buf', readline buf (s.got.map Readline.ofByte) = .ok (some buf') ∧
      CStr buf' 0 (text.foldl Readline.edit []) := by
  have hnewline : ∀ c ∈ text, ¬ Readline.Ends c := by
    intro c hc hends
    have henter := htext c hc
    rcases hends with rfl | rfl <;> revert henter <;> decide
  have htyped : typed (keystrokes (text ++ [0x0A])) = text ++ [0x0A] := by
    apply typed_keystrokes
    intro c hc
    rcases List.mem_append.mp hc with hc | hc
    · exact .inl (htext c hc)
    · exact .inr (List.mem_singleton.mp hc)
  -- what was read is a prefix of the line, and reaches its end
  have hgot : s.got = text ++ [0x0A] := by
    obtain ⟨log, ⟨q, -, -, hgot⟩, hserial, hkbd⟩ := run.inv
    obtain ⟨hpart, -⟩ := hkbd.typed hsent
    have hnil : ofDevice .serial log = [] := by
      rw [hcame] at hserial
      exact (List.append_eq_nil_iff.mp hserial.symm).1
    rw [map_snd_of_serial_nil hnil] at hgot
    rw [htyped, ← hgot] at hpart
    obtain ⟨rest, hrest⟩ := (List.prefix_append s.got _).trans hpart
    rcases List.eq_nil_or_concat rest with rfl | ⟨rest, x, rfl⟩
    · rwa [List.append_nil] at hrest
    · rw [List.concat_eq_append, ← List.append_assoc] at hrest
      have hmem : (0x0A : Byte) ∈ text := by
        rw [← (List.append_inj' hrest rfl).1]
        exact List.mem_append_left _ hend
      exact absurd (.inl rfl) (hnewline _ hmem)
  obtain ⟨buf', hrun, hstr⟩ := Readline.readlineLoop_spec (.nil hbuf) hnewline (.inl rfl)
  rw [foldl_keep_eq_edit htext] at hstr
  rw [hgot]
  exact ⟨buf', hrun, hstr⟩

/-- The bytes arrive one after the other. -/
theorem Input.Run.scans (run : Input.Run sx s) (bs : List Scan) : Input.Run sx
    { s with
      port := { s.port with waits := s.port.waits ++ bs }
      sent := s.sent ++ bs } := by
  induction bs generalizing s with
  | nil => simpa using run
  | cons b bs ih => simpa using ih (run.tail (.scan s b))

/-- `a`, backspace, a shift key with `h`, and the newline. -/
theorem typed_line_read_demo : ∃ s : Input, s.got = [0x61, 0x08, 0x48, 0x0A] ∧
    ∃ buf', readline Readline.clearBuf (s.got.map Readline.ofByte) = .ok (some buf') ∧
      CStr buf' 0 [0x48] := by
  have boot : Input.Run true Input.boot := .refl
  have run : Input.Run true _ := .tail (.tail (.tail (.tail (boot.scans
    ([0x1E, 0x9E, 0x0E, 0x8E, 0x2A, 0x23, 0xA3, 0xAA, 0x1C, 0x9C].map scan))
    (.getc _ (by decide))) (.getc _ (by decide))) (.getc _ (by decide))) (.getc _ (by decide))
  have htext : ∀ c ∈ ([0x61, 0x08, 0x48] : List Byte), Enterable c := by decide
  exact ⟨_, by decide, typed_line_read run htext (by decide) rfl (by decide)
    Readline.clearBuf_room⟩

end Jos
