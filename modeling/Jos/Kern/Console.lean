import Jos.Kern.Run
import Jos.Lib.Ring

/-!
# Console input (`kern/console.c`)

The serial port and the keyboard keep what arrives until `cons_getc` polls them; `cons_intr` then
moves it to a ring buffer of 512 bytes, from which `cons_getc` takes one character.  Nothing else
polls the devices, and the only callers are `SYS_cgetc` and, because a `break` is missing,
`SYS_cputs`, which throws the character away for everybody but its own caller.

An input history records what arrived at each device, and what `SYS_cgetc` returned.
-/

namespace Jos

open Jos.Lib

/-! ## The driver -/

def CONSBUFSIZE : ℕ := 512

abbrev Byte := BitVec 8

inductive Device where
  | serial
  | kbd
deriving DecidableEq

/-- The structure `cons` of `console.c`, and what waits in the devices. -/
structure Console where
  cons : Ring Byte CONSBUFSIZE
  serialExists : Bool
  pending : Device → List Byte

/-- `cons_intr(proc)`, where `proc` returns the bytes of the list and then -1. -/
def consIntr (cons : Ring Byte CONSBUFSIZE) : List Byte → Ring Byte CONSBUFSIZE
  | [] => cons
  | c :: q => if c = 0 then consIntr cons q else consIntr (cons.put c) q

/-- `cons_intr` of the routine that reads from device `d`. -/
def Console.intr (con : Console) (d : Device) : Console :=
  { con with
    cons := consIntr con.cons (con.pending d)
    pending := Function.update con.pending d [] }

/-- `serial_intr`. -/
def serialIntr (con : Console) : Console := if con.serialExists then con.intr .serial else con

/-- `kbd_intr`. -/
def kbdIntr (con : Console) : Console := con.intr .kbd

/-- `cons_getc`. -/
def consGetc (con : Console) : Word × Console :=
  let con := serialIntr con
  let con := kbdIntr con
  match con.cons.take with
  | some (c, cons) => (c.setWidth 32, { con with cons := cons })
  | none => (0, con)

/-- `sys_cgetc`. -/
def sysCgetc (con : Console) : Word × Console := consGetc con

/-- A system call, with what it does to the console. -/
def Call.execIo (B : Machine) (k : Kern) (con : Console) (c : Call) :
    Option (Ctl Word × Kern × Console) :=
  match sysNo c.no with
  | some .cputs => do
      match ← sysCputs B k c.cur c.a1 c.a2 with
      | (.yield o, k) => return (.yield o, k, con)
      | (.ret (), k) =>
          let (r, con) := sysCgetc con
          return (.ret r, k, con)
  | some .cgetc =>
      let (r, con) := sysCgetc con
      some (.ret r, k, con)
  | _ => (c.exec B k).map fun (r, k) ↦ (r, k, con)

/-! ## Histories -/

/-- The kernel and its console, with what arrived at each device, and the characters that the calls
of `SYS_cgetc` returned. -/
structure Io where
  kern : Kern
  con : Console
  arrived : Device → List Byte
  got : List Byte

/-- What can happen: a character arrives, an environment makes a system call, or the kernel goes on
without its console. -/
inductive IoEvent where
  | arrive (d : Device) (c : Byte)
  | syscall (c : Call)
  | other (k : Kern)

/-- The character that a call reads, if it is a `SYS_cgetc` that does not return 0. -/
def Call.reads (c : Call) (r : Ctl Word) : List Byte :=
  match sysNo c.no, r with
  | some .cgetc, .ret w => if w ≠ 0 then [w.setWidth 8] else []
  | _, _ => []

def IoEvent.exec (B : Machine) (s : Io) : IoEvent → Option Io
  | .arrive d c =>
      if c = 0 ∨ d = .serial ∧ ¬ s.con.serialExists then none
      else some { s with
        con := { s.con with pending := Function.update s.con.pending d (s.con.pending d ++ [c]) }
        arrived := Function.update s.arrived d (s.arrived d ++ [c]) }
  | .syscall c => do
      let (r, k, con) ← c.execIo B s.kern s.con
      return { s with kern := k, con := con, got := s.got ++ c.reads r }
  | .other k => some { s with kern := k }

/-- The number of characters that nobody has read. -/
def Io.unread (s : Io) : ℕ :=
  s.con.cons.contents.length + (s.con.pending .serial).length + (s.con.pending .kbd).length

/-- Any history of events with property `G`, in which at most 511 characters are ever unread. -/
def IoRun (B : Machine) (G : Io → IoEvent → Prop) : Io → Io → Prop :=
  Relation.ReflTransGen fun s s' ↦
    ∃ ev, G s ev ∧ IoEvent.exec B s ev = some s' ∧ s'.unread ≤ 511

/-- Nothing has arrived, and the buffer is empty. -/
structure Io.Fresh (s : Io) : Prop where
  cons : s.con.cons.contents = []
  pending : ∀ d, s.con.pending d = []
  arrived : ∀ d, s.arrived d = []
  got : s.got = []

/-- What was read and what is in the buffer is, in this order, what the console took from the
devices: of each device all that arrived there, in order, up to what still waits in it. -/
def Lossless (s : Io) : Prop :=
  ∃ taken : List (Device × Byte), s.got ++ s.con.cons.contents = taken.map Prod.snd ∧
    ∀ d, s.arrived d = (taken.filter (·.1 = d)).map Prod.snd ++ s.con.pending d

variable {B : Machine} {s s' : Io} {con con' : Console} {k k' : Kern} {c : Call} {r : Ctl Word}

/-! ## One poll -/

/-- There is no zero in the console, and nothing waits in a port that does not exist. -/
structure Console.Clean (con : Console) : Prop where
  cons : ∀ c ∈ con.cons.contents, c ≠ 0
  pending : ∀ d, ∀ c ∈ con.pending d, c ≠ 0
  port : con.serialExists = false → con.pending .serial = []

/-- All characters that nobody has read, in the order in which the next poll finds them. -/
def Console.unread (con : Console) : List Byte :=
  con.cons.contents ++ con.pending .serial ++ con.pending .kbd

theorem Console.Clean.unread_ne (h : con.Clean) {b : Byte} (hb : b ∈ con.unread) : b ≠ 0 := by
  simp only [Console.unread, List.mem_append] at hb
  rcases hb with (hb | hb) | hb
  · exact h.cons b hb
  · exact h.pending .serial b hb
  · exact h.pending .kbd b hb

theorem Io.unread_eq (s : Io) : s.unread = s.con.unread.length := by
  simp [Io.unread, Console.unread, Nat.add_assoc]

/-- `cons_intr` appends what the device has. -/
theorem contents_consIntr {cons : Ring Byte CONSBUFSIZE} {q : List Byte} (hq : ∀ c ∈ q, c ≠ 0)
    (hlen : cons.contents.length + q.length < CONSBUFSIZE) :
    (consIntr cons q).contents = cons.contents ++ q := by
  induction q generalizing cons with
  | nil => simp [consIntr]
  | cons c q ih =>
      have hsize : cons.size + 1 < CONSBUFSIZE := by
        rw [Ring.length_contents, List.length_cons] at hlen
        omega
      have hput := Ring.contents_put (a := c) hsize
      rw [consIntr, if_neg (hq c List.mem_cons_self),
        ih (fun c' hc' ↦ hq c' (List.mem_cons_of_mem c hc'))]
      · rw [hput, List.append_assoc, List.singleton_append]
      · rw [hput, List.length_append, List.length_singleton]
        rw [List.length_cons] at hlen
        omega

/-- The two polls of `cons_getc`. -/
theorem Console.Clean.polled (h : con.Clean) (hlen : con.unread.length ≤ 511) :
    (kbdIntr (serialIntr con)).cons.contents = con.unread ∧
      (∀ d, (kbdIntr (serialIntr con)).pending d = []) ∧
      (kbdIntr (serialIntr con)).serialExists = con.serialExists := by
  have hlen' : con.cons.contents.length + (con.pending .serial).length +
      (con.pending .kbd).length < CONSBUFSIZE := by
    simp only [Console.unread, List.length_append] at hlen
    exact Nat.lt_succ_of_le hlen
  have hserial : (serialIntr con).cons.contents = con.cons.contents ++ con.pending .serial ∧
      (serialIntr con).pending .serial = [] ∧ (serialIntr con).pending .kbd = con.pending .kbd ∧
      (serialIntr con).serialExists = con.serialExists := by
    cases hex : con.serialExists with
    | false =>
        rw [serialIntr, hex, if_neg (by decide), h.port hex]
        simp [hex]
    | true =>
        rw [serialIntr, hex, if_pos rfl]
        refine ⟨contents_consIntr (h.pending .serial) (by omega), ?_, ?_, hex⟩
        · exact Function.update_self Device.serial [] con.pending
        · exact Function.update_of_ne (show Device.kbd ≠ .serial by decide) [] con.pending
  obtain ⟨hcons, hs, hk, hex⟩ := hserial
  refine ⟨?_, fun d ↦ ?_, hex⟩
  · show (consIntr (serialIntr con).cons ((serialIntr con).pending .kbd)).contents = _
    rw [hk, contents_consIntr (h.pending .kbd), hcons, Console.unread]
    rw [hcons, List.length_append]
    exact hlen'
  · show Function.update (serialIntr con).pending .kbd [] d = []
    cases d with
    | serial => rw [Function.update_of_ne (by decide), hs]
    | kbd => rw [Function.update_self]

/-- `cons_getc` takes the first of all characters. -/
theorem Console.Clean.getc (h : con.Clean) (hlen : con.unread.length ≤ 511) :
    (con.unread = [] ∧ (consGetc con).1 = 0 ∧ (consGetc con).2.cons.contents = [] ∨
      ∃ c q, con.unread = c :: q ∧ (consGetc con).1 = c.setWidth 32 ∧
        (consGetc con).2.cons.contents = q) ∧
    (∀ d, (consGetc con).2.pending d = []) ∧
      (consGetc con).2.serialExists = con.serialExists := by
  obtain ⟨hcons, hpend, hex⟩ := h.polled hlen
  rw [consGetc]
  cases htake : (kbdIntr (serialIntr con)).cons.take with
  | none =>
      refine ⟨.inl ⟨?_, rfl, ?_⟩, hpend, hex⟩
      · rw [← hcons]
        exact Ring.take_eq_none.mp htake
      · exact Ring.take_eq_none.mp htake
  | some x =>
      obtain ⟨c, cons⟩ := x
      refine ⟨.inr ⟨c, cons.contents, ?_, rfl, rfl⟩, hpend, hex⟩
      rw [← hcons]
      exact Ring.contents_take htake

/-! ## Every event -/

/-- What holds in a history. -/
structure IoInv (s : Io) : Prop where
  clean : s.con.Clean
  lossless : Lossless s

theorem Io.Fresh.inv (h : s.Fresh) : IoInv s := by
  refine ⟨⟨fun c hc ↦ ?_, fun d c hc ↦ ?_, fun _ ↦ h.pending .serial⟩, [], ?_, fun d ↦ ?_⟩
  · rw [h.cons] at hc
    cases hc
  · rw [h.pending] at hc
    cases hc
  · rw [h.got, h.cons]
    rfl
  · rw [h.arrived, h.pending]
    rfl

/-- The call reaches `cons_getc`. -/
def Call.Polls (B : Machine) (k : Kern) (c : Call) : Prop :=
  sysNo c.no = some .cgetc ∨
    sysNo c.no = some .cputs ∧ ∃ k', sysCputs B k c.cur c.a1 c.a2 = some (.ret (), k')

/-- A call leaves the console alone, or it ends with `cons_getc` and returns its result. -/
theorem Call.execIo_cases (h : c.execIo B k con = some (r, k', con')) :
    (¬ c.Polls B k ∧ con' = con ∧ c.reads r = []) ∨
    (c.Polls B k ∧ r = .ret (consGetc con).1 ∧ con' = (consGetc con).2) := by
  rw [Call.execIo] at h
  split at h
  · next hno =>
      simp only [Option.bind_eq_bind, Option.bind_eq_some_iff] at h
      obtain ⟨⟨x, k₁⟩, hcall, h⟩ := h
      cases x with
      | yield o =>
          obtain ⟨rfl, -, rfl⟩ : r = .yield o ∧ k' = k₁ ∧ con' = con := by
            simpa [eq_comm] using h
          refine .inl ⟨?_, rfl, by simp [Call.reads, hno]⟩
          rintro (hc | ⟨-, k₂, hc⟩)
          · rw [hno] at hc
            cases hc
          · rw [hcall] at hc
            cases hc
      | ret u =>
          obtain ⟨rfl, -, rfl⟩ : r = .ret (consGetc con).1 ∧ k' = k₁ ∧ con' = (consGetc con).2 := by
            simpa [sysCgetc, eq_comm] using h
          exact .inr ⟨.inr ⟨hno, k₁, hcall⟩, rfl, rfl⟩
  · next hno =>
      obtain ⟨rfl, -, rfl⟩ : r = .ret (consGetc con).1 ∧ k' = k ∧ con' = (consGetc con).2 := by
        simpa [sysCgetc, eq_comm] using h
      exact .inr ⟨.inl hno, rfl, rfl⟩
  · next hputs hgetc =>
      obtain ⟨⟨x, k₁⟩, -, h⟩ := Option.map_eq_some_iff.mp h
      obtain ⟨rfl, -, rfl⟩ : r = x ∧ k' = k₁ ∧ con' = con := by simpa [eq_comm] using h
      refine .inl ⟨?_, rfl, ?_⟩
      · rintro (hc | ⟨hc, -⟩)
        · exact hgetc hc
        · exact hputs hc
      · rw [Call.reads]
        exact fun w hc ↦ absurd hc hgetc

/-- The model of the call without a console is the same, for the character that `cons_getc`
returns. -/
theorem Call.execIo_erase (h : c.execIo B k con = some (r, k', con')) :
    ({ c with getc := (consGetc con).1 } : Call).exec B k = some (r, k') := by
  rw [Call.execIo] at h
  split at h
  · next hno =>
      simp only [Option.bind_eq_bind, Option.bind_eq_some_iff] at h
      obtain ⟨⟨x, k₁⟩, hcall, h⟩ := h
      simp only [Call.exec, syscall, hno, hcall, Option.bind_eq_bind, Option.bind_some]
      cases x with
      | yield o =>
          obtain ⟨rfl, rfl, -⟩ : r = .yield o ∧ k' = k₁ ∧ con' = con := by
            simpa [eq_comm] using h
          rfl
      | ret u =>
          obtain ⟨rfl, rfl, -⟩ : r = .ret (consGetc con).1 ∧ k' = k₁ ∧ con' = (consGetc con).2 := by
            simpa [sysCgetc, eq_comm] using h
          rfl
  · next hno =>
      obtain ⟨rfl, rfl, -⟩ : r = .ret (consGetc con).1 ∧ k' = k ∧ con' = (consGetc con).2 := by
        simpa [sysCgetc, eq_comm] using h
      simp only [Call.exec, syscall, hno]
  · next hputs hgetc =>
      obtain ⟨⟨x, k₁⟩, hcall, h⟩ := Option.map_eq_some_iff.mp h
      obtain ⟨rfl, rfl, -⟩ : r = x ∧ k' = k₁ ∧ con' = con := by simpa [eq_comm] using h
      rw [← hcall, Call.exec, Call.exec, syscall, syscall]
      -- only the two calls above look at the character
      cases hno : sysNo c.no with
      | none => rfl
      | some n =>
          cases n with
          | cputs => exact absurd hno hputs
          | cgetc => exact absurd hno hgetc
          | _ => rfl

/-- No `SYS_cputs` that gets as far as its missing `break` is made while a character is unread. -/
def IoEvent.Harmless (B : Machine) (s : Io) (ev : IoEvent) : Prop :=
  ∀ c k', ev = .syscall c → sysNo c.no = some .cputs →
    sysCputs B s.kern c.cur c.a1 c.a2 = some (.ret (), k') → s.unread = 0

/-- A character that arrives waits in its device. -/
theorem IoInv.arrive (h : IoInv s) {d : Device} {b : Byte} {s' : Io}
    (hexec : IoEvent.exec B s (.arrive d b) = some s') : IoInv s' := by
  rw [IoEvent.exec] at hexec
  split at hexec
  · cases hexec
  next hok =>
  obtain ⟨hb, hport⟩ := not_or.mp hok
  obtain rfl := Option.some.inj hexec
  obtain ⟨taken, htaken, harrived⟩ := h.lossless
  refine ⟨⟨h.clean.cons, fun d' b' hb' ↦ ?_, fun hex ↦ ?_⟩, taken, htaken, fun d' ↦ ?_⟩
  · replace hb' : b' ∈ Function.update s.con.pending d (s.con.pending d ++ [b]) d' := hb'
    by_cases hd : d' = d
    · subst hd
      rw [Function.update_self, List.mem_append, List.mem_singleton] at hb'
      rcases hb' with hb' | rfl
      · exact h.clean.pending d' b' hb'
      · exact hb
    · rw [Function.update_of_ne hd] at hb'
      exact h.clean.pending d' b' hb'
  · have hd : Device.serial ≠ d := by
      rintro rfl
      exact hport ⟨rfl, by simpa using hex⟩
    exact (Function.update_of_ne hd _ _).trans (h.clean.port hex)
  · show Function.update s.arrived d (s.arrived d ++ [b]) d' =
      _ ++ Function.update s.con.pending d (s.con.pending d ++ [b]) d'
    by_cases hd : d' = d
    · subst hd
      rw [Function.update_self, Function.update_self, harrived, List.append_assoc]
    · rw [Function.update_of_ne hd, Function.update_of_ne hd, harrived]

/-- What one device has, tagged. -/
theorem filter_tagged (d d' : Device) (q : List Byte) :
    ((q.map (Prod.mk d)).filter (·.1 = d')).map Prod.snd = if d = d' then q else [] := by
  by_cases hd : d = d'
  · subst hd
    simp [List.filter_map, Function.comp_def]
  · simp [List.filter_map, Function.comp_def, hd]

/-- A poll hands on what the devices have. -/
theorem IoInv.polled (h : IoInv s) (hlen : s.unread ≤ 511) {got : List Byte} {k : Kern}
    (hgot : got ++ (consGetc s.con).2.cons.contents = s.got ++ s.con.unread) :
    IoInv { s with kern := k, con := (consGetc s.con).2, got := got } := by
  rw [Io.unread_eq] at hlen
  obtain ⟨hcase, hpend, hex⟩ := h.clean.getc hlen
  obtain ⟨taken, htaken, harrived⟩ := h.lossless
  refine ⟨⟨fun b hb ↦ ?_, fun d b hb ↦ ?_, fun _ ↦ hpend .serial⟩,
    taken ++ (s.con.pending .serial).map (Prod.mk .serial) ++
      (s.con.pending .kbd).map (Prod.mk .kbd), ?_, fun d ↦ ?_⟩
  · rcases hcase with ⟨-, -, hc⟩ | ⟨c, q, hq, -, hc⟩
    · rw [hc] at hb
      cases hb
    · rw [hc] at hb
      exact h.clean.unread_ne (hq ▸ List.mem_cons_of_mem c hb)
  · rw [hpend] at hb
    cases hb
  · show got ++ (consGetc s.con).2.cons.contents = _
    rw [hgot, Console.unread, ← List.append_assoc, ← List.append_assoc, htaken]
    simp [Function.comp_def]
  · show s.arrived d = _ ++ (consGetc s.con).2.pending d
    rw [hpend, List.filter_append, List.filter_append, List.map_append, List.map_append,
      filter_tagged, filter_tagged, harrived]
    cases d <;> simp

/-- One event. -/
theorem IoInv.exec (h : IoInv s) (hlen : s.unread ≤ 511) {ev : IoEvent} {s' : Io}
    (hG : ev.Harmless B s) (hexec : ev.exec B s = some s') : IoInv s' := by
  cases ev with
  | arrive d b => exact h.arrive hexec
  | other k =>
      obtain rfl := Option.some.inj hexec
      exact ⟨h.clean, h.lossless⟩
  | syscall c =>
      simp only [IoEvent.exec, Option.bind_eq_bind, Option.bind_eq_some_iff, Prod.exists] at hexec
      obtain ⟨r, k, con, hcall, hexec⟩ := hexec
      obtain rfl := Option.some.inj hexec
      rcases Call.execIo_cases hcall with ⟨-, rfl, hreads⟩ | ⟨hpolls, rfl, rfl⟩
      · rw [hreads, List.append_nil]
        exact ⟨h.clean, h.lossless⟩
      refine h.polled hlen ?_
      have hlen' := hlen
      rw [Io.unread_eq] at hlen'
      obtain ⟨hcase, -⟩ := h.clean.getc hlen'
      rcases hpolls with hno | ⟨hno, k', hputs⟩
      · -- `SYS_cgetc` returns the first character
        rcases hcase with ⟨hnil, hres, hc⟩ | ⟨b, q, hq, hres, hc⟩
        · simp [Call.reads, hno, hres, hc, hnil]
        · have hb : b ≠ 0 := h.clean.unread_ne (hq ▸ List.mem_cons_self)
          have hw : b.setWidth 32 ≠ 0 := by
            intro hz
            have hval := congrArg BitVec.toNat hz
            rw [BitVec.toNat_setWidth_of_le (by decide)] at hval
            exact hb (BitVec.eq_of_toNat_eq hval)
          have hback : (b.setWidth 32).setWidth 8 = b :=
            BitVec.setWidth_setWidth_of_le b (by decide)
          have hreads : c.reads (.ret (consGetc s.con).1) = [b] := by
            simp only [Call.reads, hno, hres, ne_eq, hw, not_false_eq_true, if_true, hback]
          rw [hreads, hc, hq, List.append_assoc, List.singleton_append]
      · -- there was nothing to throw away
        have hzero := hG c k' rfl hno hputs
        rw [Io.unread_eq, List.length_eq_zero_iff] at hzero
        have hreads : c.reads (.ret (consGetc s.con).1) = [] := by simp [Call.reads, hno]
        rcases hcase with ⟨hnil, hres, hc⟩ | ⟨b, q, hq, -⟩
        · rw [hreads, hc, hzero, List.append_nil]
        · rw [hzero] at hq
          cases hq

/-- Input reaches its readers without loss, unless an environment writes to the console while a
character is unread. -/
theorem input_lossless {s₀ : Io} (fresh : s₀.Fresh)
    (run : IoRun B (IoEvent.Harmless B) s₀ s) : Lossless s := by
  have hlen₀ : s₀.unread ≤ 511 := by
    rw [Io.unread, fresh.cons, fresh.pending, fresh.pending]
    decide
  have hinv : IoInv s ∧ s.unread ≤ 511 := by
    induction run with
    | refl => exact ⟨fresh.inv, hlen₀⟩
    | tail _ step ih =>
        obtain ⟨ev, hG, hexec, hlen⟩ := step
        exact ⟨ih.1.exec ih.2 hG hexec, hlen⟩
  exact hinv.1.lossless

/-- A machine on which nothing has arrived. -/
def Io.start (k : Kern) : Io :=
  ⟨k, ⟨⟨fun _ ↦ 0, ⟨0, by decide⟩, ⟨0, by decide⟩⟩, true, fun _ ↦ []⟩, fun _ ↦ [], []⟩

theorem Io.fresh_start (k : Kern) : (Io.start k).Fresh :=
  ⟨Ring.take_eq_none.mp (if_pos rfl), fun _ ↦ rfl, fun _ ↦ rfl, rfl⟩

/-- A key was pressed. -/
def Io.typed (k : Kern) (b : Byte) : Io :=
  { Io.start k with
    con := { (Io.start k).con with pending := Function.update (fun _ ↦ []) .kbd [b] }
    arrived := Function.update (fun _ ↦ []) .kbd [b] }

section Typed

variable (k : Kern) {b : Byte} (hb : b ≠ 0)

include hb

theorem Io.exec_typed : IoEvent.exec B (Io.start k) (.arrive .kbd b) = some (Io.typed k b) := by
  rw [IoEvent.exec, if_neg fun hc ↦ hc.elim hb fun hc ↦ nomatch hc.1]
  rfl

omit hb in
theorem Io.unread_typed : (Io.typed k b).con.unread = [b] ∧ (Io.typed k b).unread ≤ 511 := by
  have hunread : (Io.typed k b).con.unread = [b] := by
    show (Io.start k).con.cons.contents ++ [] ++ [b] = [b]
    rw [(Io.fresh_start k).cons]
    rfl
  rw [Io.unread_eq, hunread]
  exact ⟨rfl, by simp⟩

/-- The next `cons_getc` returns the character, and nothing is left. -/
theorem Io.getc_typed : (consGetc (Io.typed k b).con).1 = b.setWidth 32 ∧
    (consGetc (Io.typed k b).con).2.unread = [] := by
  obtain ⟨hunread, hlen⟩ := Io.unread_typed k (b := b)
  have hinv := (Io.fresh_start k).inv.arrive (Io.exec_typed (B := ⟨0, 0, by decide⟩) k hb)
  obtain ⟨hcase, hpend, -⟩ := hinv.clean.getc (by rwa [← Io.unread_eq])
  rcases hcase with ⟨hnil, -⟩ | ⟨c, q, hq, hres, hc⟩
  · rw [hunread] at hnil
    cases hnil
  · rw [hunread] at hq
    obtain ⟨rfl, rfl⟩ := List.cons.inj hq
    refine ⟨hres, ?_⟩
    rw [Console.unread, hc, hpend, hpend]
    rfl

end Typed

/-- An environment reads a character. -/
theorem input_lossless_read : ∃ k s, Booted demoConfig k ∧
    IoRun demoConfig.machine (IoEvent.Harmless demoConfig.machine) (Io.start k) s ∧
    s.got = [0x61] ∧ Lossless s := by
  obtain ⟨k, l, el, e, -, -, -, -, -, boot, -⟩ := exists_booted
  have ha : (0x61 : Byte) ≠ 0 := by decide
  let c : Call := { cur := e, no := 1 }
  let s : Io := { Io.typed k 0x61 with con := (consGetc (Io.typed k 0x61).con).2, got := [0x61] }
  have hno : sysNo c.no = some .cgetc := rfl
  obtain ⟨hres, hunread⟩ := Io.getc_typed k ha
  have hread : IoEvent.exec demoConfig.machine (Io.typed k 0x61) (.syscall c) = some s := by
    simp only [IoEvent.exec, Call.execIo, hno, sysCgetc, Option.bind_eq_bind, Option.bind_some,
      Call.reads, hres]
    rfl
  have hlen : s.unread ≤ 511 := by
    rw [Io.unread_eq, show s.con.unread = [] from hunread]
    exact Nat.zero_le _
  have hrun : IoRun demoConfig.machine (IoEvent.Harmless demoConfig.machine) (Io.start k) s := by
    refine .tail (.single ⟨.arrive .kbd 0x61, ?_, Io.exec_typed k ha, (Io.unread_typed k).2⟩)
      ⟨.syscall c, fun c' k' hc hno' ↦ ?_, hread, hlen⟩
    · intro c' k' hc
      cases hc
    · obtain rfl := IoEvent.syscall.inj hc
      rw [hno] at hno'
      cases hno'
  exact ⟨k, s, boot, hrun, rfl, input_lossless (Io.fresh_start k) hrun⟩

/-- `cprintf("%.*s", 0, NULL)` prints nothing. -/
theorem vcprintf_null (rd : Word → Option (BitVec 8)) :
    (vcprintf rd "%.*s" [0, 0]).1 = some () := rfl

/-- An environment writes nothing to the console, and takes the character that was typed. -/
theorem input_lost : ∃ k s, Booted demoConfig k ∧
    IoRun demoConfig.machine (fun _ _ ↦ True) (Io.start k) s ∧ ¬ Lossless s := by
  obtain ⟨k, l, el, e, -, env, -, d, -, boot, -, -, -, -, henv, -⟩ := exists_booted
  have ha : (0x61 : Byte) ≠ 0 := by decide
  let c : Call := { cur := e, no := 0 }
  let s : Io := { Io.typed k 0x61 with con := (consGetc (Io.typed k 0x61).con).2 }
  obtain ⟨-, hunread⟩ := Io.getc_typed k ha
  have hd : (k.envs e).envPgdir = some d := by
    rw [henv]
    rfl
  have hputs : sysCputs demoConfig.machine k e 0 0 = some (.ret (), k) := by
    have hcheck : userMemCheck demoConfig.machine k.mem d 0 0 (PTE_P ||| PTE_U) = some none := rfl
    have hassert : userMemAssert demoConfig.machine k e 0 0 PTE_P = some (.ret (), k) := by
      simp only [userMemAssert, hd, Option.bind_eq_bind, Option.bind_some, hcheck]
      rfl
    simp only [sysCputs, hassert, hd, cputsLog, vcprintf_null, Option.bind_eq_bind,
      Option.bind_some]
    rfl
  have hwrite : IoEvent.exec demoConfig.machine (Io.typed k 0x61) (.syscall c) = some s := by
    have hno : sysNo c.no = some .cputs := rfl
    have hputs' : sysCputs demoConfig.machine (Io.typed k 0x61).kern c.cur c.a1 c.a2 =
      some (.ret (), k) := hputs
    have hreads : ∀ r, c.reads (.ret r) = [] := fun r ↦ by simp [Call.reads, hno]
    simp only [IoEvent.exec, Call.execIo, hno, hputs', Option.bind_eq_bind, Option.bind_some,
      sysCgetc, Option.pure_def, hreads, List.append_nil]
    rfl
  have hlen : s.unread ≤ 511 := by
    rw [Io.unread_eq, show s.con.unread = [] from hunread]
    exact Nat.zero_le _
  refine ⟨k, s, boot, ?_, ?_⟩
  · exact .tail (.single ⟨.arrive .kbd 0x61, trivial, Io.exec_typed k ha, (Io.unread_typed k).2⟩)
      ⟨.syscall c, trivial, hwrite, hlen⟩
  · -- the character arrived, was not read, and is nowhere
    simp only [Console.unread, List.append_eq_nil_iff] at hunread
    rintro ⟨taken, htaken, harrived⟩
    have hnil : taken = [] := by
      rw [show s.got ++ s.con.cons.contents = [] ++ s.con.cons.contents from rfl,
        show s.con.cons.contents = [] from hunread.1.1] at htaken
      exact List.map_eq_nil_iff.mp htaken.symm
    have hkbd := harrived .kbd
    rw [hnil, show s.con.pending .kbd = [] from hunread.2] at hkbd
    cases hkbd

end Jos
