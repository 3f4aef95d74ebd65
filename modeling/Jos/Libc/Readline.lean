import Jos.Libc.String
import Mathlib.Data.List.Induction

/-!
# Line editing (`lib/readline.c`)

`readline` deletes a character at a backspace or DEL if it holds one.  If it holds none, DEL is not
below a space, so it is appended like any other character.  The echo is left out.
-/

namespace Jos

open Jos.Lib

def BUFLEN : ℕ := 1024

/-- The loop of `readline`, over what `getchar` returns.  A read error gives `NULL`; the run waits
for more if the characters run out. -/
def readlineLoop : Text → ℕ → List ℤ → Except Stop (Option Text)
  | _, _, [] => .error .timeout
  | buf, i, c :: cs =>
      if c < 0 then return none
      else if (c = 0x08 ∨ c = 0x7F) ∧ 0 < i then readlineLoop buf (i - 1) cs
      else if 0x20 ≤ c ∧ i < BUFLEN - 1 then do
        readlineLoop (← buf.store i (BitVec.ofInt 8 c)) (i + 1) cs
      else if c = 0x0A ∨ c = 0x0D then do
        return some (← buf.store i 0)
      else readlineLoop buf i cs

def readline (buf : Text) (cs : List ℤ) : Except Stop (Option Text) := readlineLoop buf 0 cs

namespace Readline

/-- What `getchar` returns for a byte. -/
def ofByte (c : BitVec 8) : ℤ := c.toNat

def DEL : BitVec 8 := 0x7F

/-- Backspace and DEL delete a character. -/
def Deletes (c : BitVec 8) : Prop := c = 0x08 ∨ c = DEL

/-- Newline and carriage return end the line. -/
def Ends (c : BitVec 8) : Prop := c = 0x0A ∨ c = 0x0D

instance : DecidablePred Deletes := fun c ↦ inferInstanceAs (Decidable (c = _ ∨ c = _))
instance : DecidablePred Ends := fun c ↦ inferInstanceAs (Decidable (c = _ ∨ c = _))

/-- The line after one more character, as it should be. -/
def edit (line : List (BitVec 8)) (c : BitVec 8) : List (BitVec 8) :=
  if Deletes c then line.dropLast
  else if 0x20 ≤ c ∧ line.length < 1023 then line ++ [c]
  else line

/-- The number of characters that `readline` holds, after one more. -/
def heldAfter (n : ℕ) (c : BitVec 8) : ℕ :=
  if Deletes c ∧ 0 < n then n - 1 else if 0x20 ≤ c ∧ n < 1023 then n + 1 else n

/-- The number of characters that it holds after `cs`. -/
def held (cs : List (BitVec 8)) : ℕ := cs.foldl heldAfter 0

/-- Every DEL that comes when no character is held is deleted again. -/
def DelsDeleted (cs : List (BitVec 8)) : Prop :=
  ∀ pre post, cs = pre ++ DEL :: post → held pre = 0 →
    ∃ p, p <+: post ∧ held (pre ++ DEL :: p) = 0

/-! ## What is in the buffer -/

/-- The line after one more character, as `readline` edits it. -/
def keep (line : List (BitVec 8)) (c : BitVec 8) : List (BitVec 8) :=
  if Deletes c ∧ 0 < line.length then line.dropLast
  else if 0x20 ≤ c ∧ line.length < 1023 then line ++ [c]
  else line

/-- The buffer holds `cs`, and has room for the NUL. -/
structure Buffered (buf : Text) (cs : List (BitVec 8)) : Prop where
  room : ∀ a < BUFLEN, ∃ c, buf a = some c
  char : ∀ a c, cs[a]? = some c → buf a = some c ∧ c ≠ 0
  lt : cs.length < BUFLEN

section

variable {buf : Text} {line cs : List (BitVec 8)} {c e : BitVec 8} {i : ℕ}

theorem Buffered.nil (h : ∀ a < BUFLEN, ∃ c, buf a = some c) : Buffered buf [] :=
  ⟨h, fun a c hc ↦ by simp at hc, by decide⟩

theorem Buffered.dropLast (h : Buffered buf line) : Buffered buf line.dropLast := by
  refine ⟨h.room, fun a c hc ↦ h.char a c ?_, line.dropLast_prefix.length_le.trans_lt h.lt⟩
  rw [List.getElem?_dropLast] at hc
  split at hc
  · exact hc
  · cases hc

theorem Buffered.append (h : Buffered buf line) (hc : c ≠ 0) (hlt : line.length + 1 < BUFLEN) :
    Buffered (Function.update buf line.length (some c)) (line ++ [c]) := by
  refine ⟨fun a ha ↦ ?_, fun a x hx ↦ ?_, by rwa [List.length_append]⟩
  · by_cases hal : a = line.length
    · exact ⟨c, by rw [hal, Function.update_self]⟩
    · rw [Function.update_of_ne hal]
      exact h.room a ha
  · rcases Nat.lt_trichotomy a line.length with hal | rfl | hal
    · rw [List.getElem?_append_left hal] at hx
      rw [Function.update_of_ne hal.ne]
      exact h.char a x hx
    · rw [List.getElem?_concat_length] at hx
      obtain rfl := Option.some.inj hx
      exact ⟨Function.update_self _ _ _, hc⟩
    · rw [List.getElem?_eq_none (by rw [List.length_append]; exact hal)] at hx
      cases hx

/-- The NUL makes it a string. -/
theorem Buffered.cstr (h : Buffered buf line) :
    CStr (Function.update buf line.length (some 0)) 0 line := by
  refine CStr.of_getElem? (fun a c hc ↦ ?_) ?_
  · have hlt := (List.getElem?_eq_some_iff.mp hc).1
    rw [Nat.zero_add, Function.update_of_ne hlt.ne]
    exact h.char a c hc
  · rw [Nat.zero_add, Function.update_self]

theorem ofByte_eq_iff (c d : BitVec 8) : ofByte c = d.toNat ↔ c = d := by
  rw [ofByte, Int.ofNat_inj, BitVec.toNat_inj]

theorem readlineLoop_ofByte (cs : List ℤ) : readlineLoop buf i (ofByte c :: cs) =
    if Deletes c ∧ 0 < i then readlineLoop buf (i - 1) cs
    else if 0x20 ≤ c ∧ i < 1023 then do readlineLoop (← buf.store i c) (i + 1) cs
    else if Ends c then do return some (← buf.store i 0)
    else readlineLoop buf i cs := by
  have hpos : ¬ ofByte c < 0 := Int.not_lt.mpr (Int.natCast_nonneg _)
  have hdel : (ofByte c = 0x08 ∨ ofByte c = 0x7F) ↔ Deletes c :=
    or_congr (ofByte_eq_iff c 0x08) (ofByte_eq_iff c 0x7F)
  have hend : (ofByte c = 0x0A ∨ ofByte c = 0x0D) ↔ Ends c :=
    or_congr (ofByte_eq_iff c 0x0A) (ofByte_eq_iff c 0x0D)
  have hspace : 0x20 ≤ ofByte c ↔ 0x20 ≤ c := Int.ofNat_le (m := 32) (n := c.toNat)
  have hbyte : BitVec.ofInt 8 (ofByte c) = c := by simp [ofByte]
  simp only [readlineLoop, hpos, hdel, hend, hspace, hbyte, if_false, BUFLEN, Nat.reduceSub]

/-- What `readline` returns. -/
theorem readlineLoop_spec (h : Buffered buf line) (hcs : ∀ c ∈ cs, ¬ Ends c) (he : Ends e) :
    ∃ buf', readlineLoop buf line.length ((cs ++ [e]).map ofByte) = .ok (some buf') ∧
      CStr buf' 0 (cs.foldl keep line) := by
  induction cs generalizing buf line with
  | nil =>
      have hdel : ¬ Deletes e := by rcases he with rfl | rfl <;> decide
      have hspace : ¬ 0x20 ≤ e := by rcases he with rfl | rfl <;> decide
      obtain ⟨c, hc⟩ := h.room line.length h.lt
      refine ⟨Function.update buf line.length (some 0), ?_, h.cstr⟩
      rw [List.nil_append, List.map_cons, readlineLoop_ofByte, if_neg fun hh ↦ hdel hh.1,
        if_neg fun hh ↦ hspace hh.1, if_pos he, Text.store, hc]
      rfl
  | cons c cs ih =>
      obtain ⟨hc, hcs⟩ := List.forall_mem_cons.mp hcs
      rw [List.cons_append, List.map_cons, readlineLoop_ofByte, List.foldl_cons, keep]
      by_cases hdel : Deletes c ∧ 0 < line.length
      · obtain ⟨buf', hrun, hstr⟩ := ih h.dropLast hcs
        rw [if_pos hdel, if_pos hdel]
        exact ⟨buf', by rwa [List.length_dropLast] at hrun, hstr⟩
      · rw [if_neg hdel, if_neg hdel]
        by_cases happ : 0x20 ≤ c ∧ line.length < 1023
        · obtain ⟨x, hx⟩ := h.room line.length h.lt
          have hne : c ≠ 0 := by
            rintro rfl
            exact absurd happ.1 (by decide)
          have hlt : line.length + 1 < BUFLEN := Nat.succ_lt_succ happ.2
          obtain ⟨buf', hrun, hstr⟩ := ih (h.append hne hlt) hcs
          have hstore : buf.store line.length c =
              .ok (Function.update buf line.length (some c)) := by rw [Text.store, hx]
          rw [if_pos happ, if_pos happ, hstore, ok_bind]
          exact ⟨buf', by rwa [List.length_append] at hrun, hstr⟩
        · rw [if_neg happ, if_neg happ, if_neg hc]
          exact ih h hcs

/-! ## Where it differs -/

theorem length_keep (line : List (BitVec 8)) (c : BitVec 8) :
    (keep line c).length = heldAfter line.length c := by
  rw [keep, heldAfter]
  split
  · exact List.length_dropLast
  · split
    · exact List.length_append
    · rfl

theorem held_eq (cs : List (BitVec 8)) : held cs = (cs.foldl keep []).length := by
  induction cs using List.reverseRecOn with
  | nil => rfl
  | append_singleton cs c ih =>
      rw [held, List.foldl_append, List.foldl_append, List.foldl_cons, List.foldl_nil,
        List.foldl_cons, List.foldl_nil, length_keep, ← ih, held]

/-- The first character stays while there is one. -/
theorem head?_keep (hline : line ≠ []) (hkeep : keep line c ≠ []) :
    (keep line c).head? = line.head? := by
  obtain ⟨x, xs, rfl⟩ := List.exists_cons_of_ne_nil hline
  rw [keep] at hkeep ⊢
  split at hkeep
  · next h =>
      rw [if_pos h]
      cases xs with
      | nil => exact absurd rfl hkeep
      | cons y ys => rfl
  · next h =>
      rw [if_neg h]
      split <;> rfl

/-- The buffer starts with a DEL that came when it was empty. -/
theorem head?_eq_DEL_iff (cs : List (BitVec 8)) : (cs.foldl keep []).head? = some DEL ↔
    ∃ pre post, cs = pre ++ DEL :: post ∧ held pre = 0 ∧
      ∀ p, p <+: post → held (pre ++ DEL :: p) ≠ 0 := by
  induction cs using List.reverseRecOn with
  | nil =>
      refine iff_of_false (by simp) ?_
      rintro ⟨pre, post, hc, -⟩
      simp at hc
  | append_singleton cs c ih =>
      have hkeep : (cs ++ [c]).foldl keep [] = keep (cs.foldl keep []) c := by
        rw [List.foldl_append, List.foldl_cons, List.foldl_nil]
      constructor
      · intro hhead
        have hlast : held (cs ++ [c]) ≠ 0 := by
          rw [held_eq]
          intro hc
          rw [List.length_eq_zero_iff.mp hc] at hhead
          cases hhead
        by_cases hline : cs.foldl keep [] = []
        · have hc : c = DEL := by
            rw [hkeep, hline, keep, if_neg fun hh ↦ absurd hh.2 (Nat.lt_irrefl 0)] at hhead
            split at hhead
            · exact Option.some.inj hhead
            · cases hhead
          subst hc
          refine ⟨cs, [], rfl, by rw [held_eq, hline, List.length_nil], fun p hp ↦ ?_⟩
          rw [List.prefix_nil.mp hp]
          exact hlast
        · have hne : keep (cs.foldl keep []) c ≠ [] := by
            rw [← hkeep]
            rintro hc
            rw [hc] at hhead
            cases hhead
          rw [hkeep, head?_keep hline hne, ih] at hhead
          obtain ⟨pre, post, rfl, hpre, hpost⟩ := hhead
          refine ⟨pre, post ++ [c], by rw [List.append_assoc, List.cons_append], hpre,
            fun p hp ↦ ?_⟩
          rcases List.prefix_concat_iff.mp hp with rfl | hp
          · rwa [List.append_assoc, List.cons_append] at hlast
          · exact hpost p hp
      · rintro ⟨pre, post, hcs, hpre, hpost⟩
        rw [hkeep]
        cases post using List.reverseRecOn with
        | nil =>
            obtain ⟨rfl, hc⟩ := List.append_inj' hcs rfl
            obtain rfl := List.singleton_inj.mp hc
            rw [held_eq] at hpre
            rw [List.length_eq_zero_iff.mp hpre]
            rfl
        | append_singleton post x =>
            have hlast := hpost (post ++ [x]) (List.prefix_refl _)
            rw [← List.cons_append, ← List.append_assoc] at hcs hlast
            obtain ⟨rfl, hc⟩ := List.append_inj' hcs rfl
            obtain rfl := List.singleton_inj.mp hc
            have hhead := ih.mpr ⟨pre, post, rfl, hpre, fun p hp ↦
              hpost p (hp.trans (List.prefix_append _ _))⟩
            rw [head?_keep, hhead]
            · intro hc
              rw [hc] at hhead
              cases hhead
            · rw [← hkeep]
              intro hc
              rw [held_eq, hc] at hlast
              exact hlast rfl

/-- The buffer `x` is the line `s` as it should be, or starts with a DEL.  In that case it may have
missed a character when it was full. -/
inductive Agree : List (BitVec 8) → List (BitVec 8) → Prop
  | same (s : List (BitVec 8)) : Agree s s
  | del {y s : List (BitVec 8)} (le : y.length ≤ s.length) (ge : s.length ≤ y.length + 1) :
      Agree (DEL :: y) s

theorem Agree.step {x s : List (BitVec 8)} (h : Agree x s) (c : BitVec 8) :
    Agree (keep x c) (edit s c) := by
  rw [keep, edit]
  by_cases hdel : Deletes c
  · rw [if_pos hdel]
    cases h with
    | same =>
        by_cases hpos : 0 < x.length
        · rw [if_pos ⟨hdel, hpos⟩]
          exact .same _
        · rw [if_neg fun hc ↦ hpos hc.2]
          obtain rfl : x = [] := List.length_eq_zero_iff.mp (Nat.eq_zero_of_not_pos hpos)
          rcases hdel with rfl | rfl
          · exact .same []
          · exact .del le_rfl (Nat.zero_le _)
    | @del y _ hle hge =>
        rw [if_pos ⟨hdel, Nat.succ_pos _⟩]
        cases y with
        | nil =>
            have hnil : s.dropLast = [] := by
              rw [← List.length_eq_zero_iff, List.length_dropLast]
              exact Nat.sub_eq_zero_of_le hge
            rw [hnil]
            exact .same []
        | cons b y =>
            rw [List.length_cons] at hle hge
            refine .del ?_ ?_
            · rw [List.length_dropLast, List.length_dropLast, List.length_cons]
              omega
            · rw [List.length_dropLast, List.length_dropLast, List.length_cons]
              omega
  · rw [if_neg fun hc ↦ hdel hc.1, if_neg hdel]
    cases h with
    | same =>
        split
        · exact .same _
        · exact .same _
    | @del y _ hle hge =>
        rw [List.length_cons]
        split
        · next hx =>
            rw [if_pos ⟨hx.1, by omega⟩]
            exact .del (by simpa using hle) (by simpa using hge)
        · next hx =>
            split
            · next hs =>
                have hfull : 1023 ≤ y.length + 1 := Nat.not_lt.mp fun hlt ↦ hx ⟨hs.1, hlt⟩
                have hs' := hs.2
                refine .del ?_ ?_
                · rw [List.length_append]
                  omega
                · rw [List.length_append, List.length_singleton]
                  omega
            · exact .del hle hge

theorem agree_foldl (cs : List (BitVec 8)) : Agree (cs.foldl keep []) (cs.foldl edit []) := by
  induction cs using List.reverseRecOn with
  | nil => exact .same []
  | append_singleton cs c ih =>
      simp only [List.foldl_append, List.foldl_cons, List.foldl_nil]
      exact ih.step c

/-- DEL is never part of the line as it should be. -/
theorem DEL_notMem_edit (cs : List (BitVec 8)) : DEL ∉ cs.foldl edit [] := by
  induction cs using List.reverseRecOn with
  | nil => exact List.not_mem_nil
  | append_singleton cs c ih =>
      simp only [List.foldl_append, List.foldl_cons, List.foldl_nil]
      rw [edit]
      split
      · exact fun hc ↦ ih (List.dropLast_subset _ hc)
      · next hdel =>
          split
          · rw [List.mem_append, List.mem_singleton]
            rintro (hc | rfl)
            · exact ih hc
            · exact hdel (.inr rfl)
          · exact ih

theorem keep_eq_edit_iff (cs : List (BitVec 8)) :
    cs.foldl keep [] = cs.foldl edit [] ↔ DelsDeleted cs := by
  have hhead := head?_eq_DEL_iff cs
  have hdels : ¬ DelsDeleted cs ↔ (cs.foldl keep []).head? = some DEL := by
    rw [hhead, DelsDeleted]
    push Not
    rfl
  rw [← not_iff_not, hdels]
  have hagree := agree_foldl cs
  have hDEL := DEL_notMem_edit cs
  generalize cs.foldl keep [] = x at *
  generalize cs.foldl edit [] = s at *
  cases hagree with
  | same => exact iff_of_false (fun hc ↦ hc rfl) fun hc ↦ hDEL (List.mem_of_mem_head? hc)
  | del _ _ => exact iff_of_true (fun hc ↦ hDEL (hc ▸ List.mem_cons_self)) rfl

end

/-- `readline` edits the line as it should if every DEL that comes on an empty line is deleted again
before the end of the line. -/
theorem readline_edits_iff {buf : Text} {cs : List (BitVec 8)} {e : BitVec 8}
    (hbuf : ∀ a < BUFLEN, ∃ c, buf a = some c) (hcs : ∀ c ∈ cs, ¬ Ends c) (he : Ends e) :
    (∃ buf', readline buf ((cs ++ [e]).map ofByte) = .ok (some buf') ∧
      CStr buf' 0 (cs.foldl edit [])) ↔ DelsDeleted cs := by
  obtain ⟨buf', hrun, hstr⟩ := readlineLoop_spec (.nil hbuf) hcs he
  rw [← keep_eq_edit_iff]
  constructor
  · rintro ⟨buf'', hrun', hstr'⟩
    obtain rfl := Option.some.inj (Except.ok.inj (hrun.symm.trans hrun'))
    exact hstr.unique hstr'
  · intro heq
    exact ⟨buf', hrun, heq ▸ hstr⟩

/-- The static buffer, cleared. -/
def clearBuf : Text := fun a ↦ if a < BUFLEN then some 0 else none

theorem clearBuf_room (a : ℕ) (ha : a < BUFLEN) : ∃ c, clearBuf a = some c := ⟨0, if_pos ha⟩

/-- `a`, `b`, backspace, `c`. -/
theorem readline_edits_iff_demo : ∃ buf',
    readline clearBuf ([0x61, 0x62, 0x08, 0x63, 0x0A].map ofByte) = .ok (some buf') ∧
      CStr buf' 0 [0x61, 0x63] := by
  refine (@readline_edits_iff _ [0x61, 0x62, 0x08, 0x63] _ clearBuf_room (by decide)
    (.inl rfl)).mpr fun pre post hcs _ ↦ ?_
  have hmem : DEL ∈ ([0x61, 0x62, 0x08, 0x63] : List (BitVec 8)) := hcs ▸ by simp
  exact absurd hmem (by decide)

/-- A DEL on an empty line is part of what `readline` returns. -/
theorem readline_keeps_DEL : ¬ ∃ buf',
    readline clearBuf ([DEL, 0x0A].map ofByte) = .ok (some buf') ∧
      CStr buf' 0 ([DEL].foldl edit []) := by
  rintro ⟨buf', hrun, hstr⟩
  obtain ⟨buf'', hrun', hstr'⟩ := @readlineLoop_spec _ [] [DEL] 0x0A
    (.nil clearBuf_room) (by decide) (.inl rfl)
  obtain rfl := Option.some.inj (Except.ok.inj (hrun'.symm.trans hrun))
  exact absurd (hstr'.unique hstr) (by decide)

end Readline

end Jos
