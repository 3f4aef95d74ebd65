import Jos.Libc.String

/-!
# Copies of strings (`strlen`, `strcpy`, `strcat`, `strncpy` and `strlcpy` in `lib/string.c`)

A program builds a string in a buffer by any calls of these functions.  If every result fits, the
buffer holds what the same operations on lists give, and no byte outside of it is stored to.
-/

namespace Jos

open Jos.Lib

/-! ## The code -/

/-- `strlen` -/
def strlen (m : Text) : ℕ → ℕ → Except Stop ℕ
  | 0, _ => .error .timeout
  | fuel + 1, s => do
      if (← m.load s) ≠ 0 then return (← strlen m fuel (s + 1)) + 1 else return 0

/-- `while ((*dst++ = *src++) != '\0')` -/
def strcpyLoop : ℕ → Text → ℕ → ℕ → Except Stop Text
  | 0, _, _, _ => .error .timeout
  | fuel + 1, m, dst, src => do
      let c ← m.load src
      let m ← m.store dst c
      if c ≠ 0 then strcpyLoop fuel m (dst + 1) (src + 1) else return m

/-- `strcpy` -/
def strcpy (m : Text) (fuel dst src : ℕ) : Except Stop (ℕ × Text) := do
  let ret := dst
  return (ret, ← strcpyLoop fuel m dst src)

/-- `strcat` -/
def strcat (m : Text) (fuel dst src : ℕ) : Except Stop (ℕ × Text) := do
  let len ← strlen m fuel dst
  let (_, m) ← strcpy m fuel (dst + len) src
  return (dst, m)

/-- The loop of `strncpy`, with `n` rounds to go. -/
def strncpyLoop : ℕ → Text → ℕ → ℕ → Except Stop Text
  | 0, m, _, _ => .ok m
  | n + 1, m, dst, src => do
      let m ← m.store dst (← m.load src)
      if (← m.load src) ≠ 0 then strncpyLoop n m (dst + 1) (src + 1)
      else strncpyLoop n m (dst + 1) src

/-- `strncpy` -/
def strncpy (m : Text) (dst src size : ℕ) : Except Stop (ℕ × Text) := do
  let ret := dst
  return (ret, ← strncpyLoop size m dst src)

/-- `while (--size > 0 && *src != '\0')`, where `size` is `n + 1`: the last `dst`, and memory. -/
def strlcpyLoop : ℕ → Text → ℕ → ℕ → Except Stop (ℕ × Text)
  | 0, m, dst, _ => .ok (dst, m)
  | n + 1, m, dst, src => do
      let c ← m.load src
      if c ≠ 0 then strlcpyLoop n (← m.store dst c) (dst + 1) (src + 1) else return (dst, m)

/-- `strlcpy` -/
def strlcpy (m : Text) (dst src size : ℕ) : Except Stop (ℕ × Text) := do
  let dstIn := dst
  if 0 < size then
    let (dst, m) ← strlcpyLoop (size - 1) m dst src
    let m ← m.store dst 0
    return (dst - dstIn, m)
  else return (dst - dstIn, m)

/-! ## Calls on a buffer -/

/-- A call that stores into the buffer -/
inductive StrCall where
  | strcpy (src : ℕ)
  | strcat (src : ℕ)
  | strncpy (src size : ℕ)
  | strlcpy (src size : ℕ)

namespace StrCall

def src : StrCall → ℕ
  | strcpy src | strcat src | strncpy src _ | strlcpy src _ => src

/-- The call, with the buffer at `dst`. -/
def run (fuel dst : ℕ) (m : Text) : StrCall → Except Stop (ℕ × Text)
  | strcpy src => Jos.strcpy m fuel dst src
  | strcat src => Jos.strcat m fuel dst src
  | strncpy src size => Jos.strncpy m dst src size
  | strlcpy src size => Jos.strlcpy m dst src size

/-- The string `xs` of the buffer after the call, if the string at `src` is `cs`. -/
def text (cs xs : List (BitVec 8)) : StrCall → List (BitVec 8)
  | strcpy _ | strncpy _ _ => cs
  | strcat _ => xs ++ cs
  | strlcpy _ size => cs.take (size - 1)

/-- What the call returns: the buffer, or the length of what was copied. -/
def value (dst : ℕ) (cs : List (BitVec 8)) : StrCall → ℕ
  | strcpy _ | strcat _ | strncpy _ _ => dst
  | strlcpy _ size => (cs.take (size - 1)).length

/-- The result fits into a buffer of `n` bytes.  Only `strlcpy` sees to that, if it is told a size
that the buffer has. -/
def Fits (n : ℕ) (cs xs : List (BitVec 8)) : StrCall → Prop
  | strcpy _ => cs.length < n
  | strcat _ => xs.length + cs.length < n
  | strncpy _ size => cs.length < size ∧ size ≤ n
  | strlcpy _ size => 0 < size ∧ size ≤ n

/-- Every result fits, if `str` tells which string an address has. -/
def AllFit (n : ℕ) (str : ℕ → List (BitVec 8)) : List (BitVec 8) → List StrCall → Prop
  | _, [] => True
  | xs, call :: calls =>
      call.Fits n (str call.src) xs ∧ AllFit n str (call.text (str call.src) xs) calls

/-- The calls one after the other, with the values that they return. -/
def runAll (fuel dst : ℕ) : Text → List StrCall → Except Stop (List ℕ × Text)
  | m, [] => .ok ([], m)
  | m, call :: calls => do
      let (r, m) ← call.run fuel dst m
      let (rs, m) ← runAll fuel dst m calls
      return (r :: rs, m)

end StrCall

/-! ## One loop -/

/-- Memory with the bytes `xs` from `p` on. -/
def Text.put (m : Text) (p : ℕ) (xs : List (BitVec 8)) : Text := fun a ↦
  if p ≤ a ∧ a < p + xs.length then xs[a - p]? else m a

/-- The bytes from `p` to `e` may be stored to. -/
def Text.Room (m : Text) (p e : ℕ) : Prop := ∀ a, p ≤ a → a < e → m a ≠ none

variable {m : Text} {p e n fuel dst src : ℕ} {c : BitVec 8} {cs xs : List (BitVec 8)}

theorem Text.store_eq (h : m p ≠ none) : m.store p c = .ok (Function.update m p (some c)) := by
  rw [store]
  cases hm : m p with
  | none => exact absurd hm h
  | some x => rfl

theorem Text.put_nil : m.put p [] = m := by
  funext a
  exact if_neg (by rw [List.length_nil]; omega)

theorem Text.put_cons :
    m.put p (c :: xs) = Text.put (Function.update m p (some c)) (p + 1) xs := by
  funext a
  rw [put, put, List.length_cons]
  rcases Nat.lt_trichotomy a p with h | rfl | h
  · rw [if_neg (by omega), if_neg (by omega), Function.update_of_ne (by omega)]
  · rw [if_pos (by omega), if_neg (by omega), Function.update_self, Nat.sub_self]
    rfl
  · obtain ⟨k, rfl⟩ := Nat.exists_eq_add_of_lt h
    refine if_ctx_congr (by omega) (fun _ ↦ ?_) fun _ ↦ ?_
    · rw [show p + k + 1 - p = k + 1 by omega, show p + k + 1 - (p + 1) = k by omega,
        List.getElem?_cons_succ]
    · rw [Function.update_of_ne (by omega)]

theorem Text.put_outside {a : ℕ} (h : a < p ∨ p + xs.length ≤ a) : m.put p xs a = m a :=
  if_neg (by omega)

theorem Text.put_isSome {a : ℕ} (h : m a ≠ none) : m.put p xs a ≠ none := by
  rw [put]
  split
  next hin => exact List.getElem?_eq_none_iff.not.mpr (by omega)
  next => exact h

theorem Text.Room.put (h : m.Room p e) {q : ℕ} : (m.put q xs).Room p e :=
  fun a h1 h2 ↦ put_isSome (h a h1 h2)

theorem Text.Room.update (h : m.Room p e) {q : ℕ} :
    Text.Room (Function.update m q (some c)) p e := by
  intro a h1 h2
  by_cases ha : a = q
  · rw [ha, Function.update_self]
    exact Option.some_ne_none c
  · rw [Function.update_of_ne ha]
    exact h a h1 h2

/-- A string and its NUL are put. -/
theorem Text.put_cstr (hne : ∀ x ∈ xs, x ≠ 0) {ys : List (BitVec 8)} :
    CStr (m.put p (xs ++ 0 :: ys)) p xs := by
  induction xs generalizing m p with
  | nil =>
      refine .nil ?_
      rw [List.nil_append, put, if_pos (by rw [List.length_cons]; omega), Nat.sub_self]
      rfl
  | cons x xs ih =>
      obtain ⟨hx, hxs⟩ := List.forall_mem_cons.mp hne
      rw [List.cons_append]
      refine .cons ?_ hx ?_
      · rw [put, if_pos (by rw [List.length_cons]; omega), Nat.sub_self]
        rfl
      · rw [put_cons]
        exact ih hxs

/-- A string is put behind the characters of another one. -/
theorem Text.cstr_put_append (h : CStr m p xs) (hne : ∀ x ∈ cs, x ≠ 0) :
    CStr (m.put (p + xs.length) (cs ++ [0])) p (xs ++ cs) := by
  induction h with
  | nil _ => exact Text.put_cstr hne
  | @cons p x xs hx hx0 _ ih =>
      rw [List.length_cons, ← Nat.add_assoc, Nat.add_right_comm, List.cons_append]
      refine .cons ?_ hx0 ih
      rw [Text.put_outside (by omega)]
      exact hx

/-- A store behind the bytes that are put -/
theorem Text.put_snoc : Function.update (m.put p xs) (p + xs.length) (some c) =
    m.put p (xs ++ [c]) := by
  funext a
  rcases Nat.lt_trichotomy a (p + xs.length) with h | rfl | h
  · rw [Function.update_of_ne (by omega), put, put, List.length_append, List.length_singleton]
    refine if_ctx_congr (by omega) (fun hin ↦ ?_) fun _ ↦ rfl
    rw [List.getElem?_append_left (by omega)]
  · rw [Function.update_self, put, List.length_append, List.length_singleton,
      if_pos (by omega), Nat.add_sub_cancel_left, List.getElem?_append_right le_rfl, Nat.sub_self]
    rfl
  · rw [Function.update_of_ne (by omega), put_outside (by omega), put_outside]
    rw [List.length_append, List.length_singleton]
    omega

/-- A store elsewhere leaves the string. -/
theorem Text.cstr_update (h : CStr m src cs) (hapart : p < src ∨ src + cs.length < p) :
    CStr (Function.update m p (some c)) src cs :=
  h.congr fun a h1 h2 ↦ Function.update_of_ne (by omega) _ _

theorem strlen_spec (h : CStr m src cs) (hfuel : cs.length < fuel) :
    strlen m fuel src = .ok cs.length := by
  induction h generalizing fuel with
  | nil h =>
      obtain ⟨fuel, rfl⟩ := Nat.exists_eq_add_of_le' (Nat.one_le_of_lt hfuel)
      rw [strlen, Text.load_eq h]
      rfl
  | cons h hne _ ih =>
      rw [List.length_cons] at hfuel
      obtain ⟨fuel, rfl⟩ := Nat.exists_eq_add_of_le' (Nat.one_le_of_lt hfuel)
      rw [strlen, Text.load_eq h, ok_bind, if_pos hne, ih (by omega)]
      rfl

theorem strcpyLoop_spec (h : CStr m src cs) (hroom : m.Room dst (dst + cs.length + 1))
    (hapart : src + cs.length < dst ∨ dst + cs.length < src) (hfuel : cs.length < fuel) :
    strcpyLoop fuel m dst src = .ok (m.put dst (cs ++ [0])) := by
  induction cs generalizing m dst src fuel with
  | nil =>
      obtain ⟨fuel, rfl⟩ := Nat.exists_eq_add_of_le' (Nat.one_le_of_lt hfuel)
      rw [strcpyLoop, Text.load_eq (CStr.nil_iff.mp h), ok_bind,
        Text.store_eq (hroom dst le_rfl (by omega)), ok_bind, if_neg (not_not.mpr rfl),
        List.nil_append, Text.put_cons, Text.put_nil]
      rfl
  | cons c cs ih =>
      rw [List.length_cons] at hfuel hroom hapart
      obtain ⟨fuel, rfl⟩ := Nat.exists_eq_add_of_le' (Nat.one_le_of_lt hfuel)
      obtain ⟨hc, hne, hrest⟩ := CStr.cons_iff.mp h
      have hroom' : Text.Room (Function.update m dst (some c)) (dst + 1)
          (dst + 1 + cs.length + 1) :=
        Text.Room.update fun a h1 h2 ↦ hroom a (by omega) (by omega)
      rw [strcpyLoop, Text.load_eq hc, ok_bind, Text.store_eq (hroom dst le_rfl (by omega)),
        ok_bind, if_pos hne, List.cons_append, Text.put_cons]
      exact ih (Text.cstr_update hrest (by omega)) hroom' (by omega) (by omega)

theorem strlcpyLoop_spec (h : CStr m src cs) (hroom : m.Room dst (dst + n))
    (hapart : src + cs.length < dst ∨ dst + n ≤ src) :
    strlcpyLoop n m dst src = .ok (dst + (cs.take n).length, m.put dst (cs.take n)) := by
  induction n generalizing m dst src cs with
  | zero =>
      rw [strlcpyLoop, List.take_zero, Text.put_nil]
      rfl
  | succ n ih =>
      cases h with
      | nil hstop =>
          rw [strlcpyLoop, Text.load_eq hstop, ok_bind, if_neg (not_not.mpr rfl), List.take_nil,
            Text.put_nil]
          rfl
      | @cons _ c cs hc hne hrest =>
          rw [List.length_cons] at hapart
          have hroom' : Text.Room (Function.update m dst (some c)) (dst + 1) (dst + 1 + n) :=
            Text.Room.update fun a h1 h2 ↦ hroom a (by omega) (by omega)
          rw [strlcpyLoop, Text.load_eq hc, ok_bind, if_pos hne,
            Text.store_eq (hroom dst le_rfl (by omega)), ok_bind, List.take_succ_cons,
            Text.put_cons, ih (Text.cstr_update hrest (by omega)) hroom' (by omega),
            List.length_cons, Nat.add_assoc, Nat.add_comm 1]

theorem strncpyLoop_spec (h : CStr m src cs) (hroom : m.Room dst (dst + n))
    (hapart : src + cs.length < dst ∨ dst + n ≤ src) :
    strncpyLoop n m dst src = .ok (m.put dst ((cs ++ List.replicate n 0).take n)) := by
  induction n generalizing m dst src cs with
  | zero =>
      rw [strncpyLoop, List.take_zero, Text.put_nil]
  | succ n ih =>
      have hroom' (c : BitVec 8) :
          Text.Room (Function.update m dst (some c)) (dst + 1) (dst + 1 + n) :=
        Text.Room.update fun a h1 h2 ↦ hroom a (by omega) (by omega)
      cases h with
      | nil hstop =>
          rw [List.length_nil] at hapart
          have hkeep : Function.update m dst (some 0) src = some 0 := by
            rw [Function.update_of_ne (by omega)]
            exact hstop
          rw [strncpyLoop, Text.load_eq hstop, ok_bind,
            Text.store_eq (hroom dst le_rfl (by omega)), ok_bind, Text.load_eq hkeep, ok_bind,
            if_neg (not_not.mpr rfl),
            ih (.nil hkeep) (hroom' 0) (by rw [List.length_nil]; omega), List.nil_append,
            List.nil_append, List.replicate_succ, List.take_succ_cons, Text.put_cons]
      | @cons _ c cs hc hne hrest =>
          rw [List.length_cons] at hapart
          have hkeep : Function.update m dst (some c) src = some c := by
            rw [Function.update_of_ne (by omega)]
            exact hc
          rw [strncpyLoop, Text.load_eq hc, ok_bind, Text.store_eq (hroom dst le_rfl (by omega)),
            ok_bind, Text.load_eq hkeep, ok_bind, if_pos hne,
            ih (Text.cstr_update hrest (by omega)) (hroom' c) (by omega), List.cons_append,
            List.take_succ_cons, Text.put_cons, List.take_append, List.take_append,
            List.take_replicate, List.take_replicate, Nat.min_eq_left (Nat.sub_le _ _),
            Nat.min_eq_left ((Nat.sub_le _ _).trans (Nat.le_succ n))]

/-! ## Any calls -/

/-- The buffer of `n` bytes at `dst` holds the string `xs`. -/
structure StrBuf (dst n : ℕ) (m : Text) (xs : List (BitVec 8)) : Prop where
  room : m.Room dst (dst + n)
  str : CStr m dst xs
  fits : xs.length < n

theorem StrBuf.put {ys : List (BitVec 8)} (h : m.Room dst (dst + n)) (hne : ∀ x ∈ xs, x ≠ 0)
    (hlen : xs.length < n) : StrBuf dst n (m.put dst (xs ++ 0 :: ys)) xs :=
  ⟨h.put, Text.put_cstr hne, hlen⟩

/-- One call -/
theorem StrCall.run_spec (h : StrBuf dst n m xs) (call : StrCall) (hsrc : CStr m call.src cs)
    (hapart : call.src + cs.length < dst ∨ dst + n ≤ call.src) (hfits : call.Fits n cs xs)
    (hfuel : n ≤ fuel) :
    ∃ m', call.run fuel dst m = .ok (call.value dst cs, m') ∧
      StrBuf dst n m' (call.text cs xs) ∧ ∀ a, a < dst ∨ dst + n ≤ a → m' a = m a := by
  have hroom {e : ℕ} (he : e ≤ dst + n) : m.Room dst e :=
    fun a h1 h2 ↦ h.room a h1 (h2.trans_le he)
  generalize hs : call.src = s at hsrc hapart
  cases call with
  | strcpy src =>
      obtain rfl : src = s := hs
      have hlen : cs.length < n := hfits
      have hloop := strcpyLoop_spec hsrc (hroom (by omega)) (by omega) (hlen.trans_le hfuel)
      refine ⟨m.put dst (cs ++ [0]), ?_, StrBuf.put h.room hsrc.ne_zero hlen,
        fun a ha ↦ Text.put_outside ?_⟩
      · rw [StrCall.run, Jos.strcpy, hloop]
        rfl
      · rw [List.length_append, List.length_singleton]
        omega
  | strcat src =>
      obtain rfl : src = s := hs
      have hlen : xs.length + cs.length < n := hfits
      have hloop : strcpyLoop fuel m (dst + xs.length) src =
          .ok (m.put (dst + xs.length) (cs ++ [0])) :=
        strcpyLoop_spec hsrc (fun a h1 h2 ↦ h.room a (by omega) (by omega)) (by omega) (by omega)
      refine ⟨m.put (dst + xs.length) (cs ++ [0]), ?_, ⟨h.room.put, ?_, ?_⟩,
        fun a ha ↦ Text.put_outside ?_⟩
      · rw [StrCall.run, Jos.strcat, strlen_spec h.str (h.fits.trans_le hfuel), ok_bind,
          Jos.strcpy, hloop]
        rfl
      · exact Text.cstr_put_append h.str hsrc.ne_zero
      · rw [StrCall.text, List.length_append]
        exact hlen
      · rw [List.length_append, List.length_singleton]
        omega
  | strncpy src size =>
      obtain rfl : src = s := hs
      obtain ⟨hlen, hsize⟩ : cs.length < size ∧ size ≤ n := hfits
      have hloop := strncpyLoop_spec (n := size) hsrc (hroom (by omega)) (by omega)
      obtain ⟨k, rfl⟩ := Nat.exists_eq_add_of_lt hlen
      have htake : (cs ++ List.replicate (cs.length + k + 1) (0 : BitVec 8)).take
          (cs.length + k + 1) = cs ++ 0 :: List.replicate k 0 := by
        rw [List.take_append, List.take_of_length_le (by omega), List.take_replicate,
          show cs.length + k + 1 - cs.length = k + 1 by omega, Nat.min_eq_left (by omega),
          List.replicate_succ]
      rw [htake] at hloop
      refine ⟨m.put dst (cs ++ 0 :: List.replicate k 0), ?_,
        StrBuf.put h.room hsrc.ne_zero (hlen.trans_le hsize), fun a ha ↦ Text.put_outside ?_⟩
      · rw [StrCall.run, Jos.strncpy, hloop]
        rfl
      · rw [List.length_append, List.length_cons, List.length_replicate]
        omega
  | strlcpy src size =>
      obtain rfl : src = s := hs
      obtain ⟨hpos, hsize⟩ : 0 < size ∧ size ≤ n := hfits
      have hloop := strlcpyLoop_spec (n := size - 1) hsrc (hroom (by omega)) (by omega)
      have htake : (cs.take (size - 1)).length ≤ size - 1 := List.length_take_le _ _
      have hne : ∀ x ∈ cs.take (size - 1), x ≠ 0 :=
        fun x hx ↦ hsrc.ne_zero x (List.mem_of_mem_take hx)
      refine ⟨m.put dst (cs.take (size - 1) ++ [0]), ?_, StrBuf.put h.room hne (by omega),
        fun a ha ↦ Text.put_outside ?_⟩
      · rw [StrCall.run, Jos.strlcpy, if_pos hpos, hloop, ok_bind]
        dsimp only
        rw [Text.store_eq (h.room.put _ (by omega) (by omega)), ok_bind, Text.put_snoc,
          Nat.add_sub_cancel_left]
        rfl
      · rw [List.length_append, List.length_singleton]
        omega

/-- After any calls whose results fit, the buffer holds what the same operations on lists give.
Each call returns the buffer, or what `strlcpy` has copied, and nothing outside of the buffer
changes. -/
theorem string_calls_exact (str : ℕ → List (BitVec 8)) (h : StrBuf dst n m xs)
    (calls : List StrCall) (hsrc : ∀ call ∈ calls, CStr m call.src (str call.src) ∧
      (call.src + (str call.src).length < dst ∨ dst + n ≤ call.src))
    (hfits : StrCall.AllFit n str xs calls) (hfuel : n ≤ fuel) :
    ∃ m', StrCall.runAll fuel dst m calls =
        .ok (calls.map fun call ↦ call.value dst (str call.src), m') ∧
      StrBuf dst n m' (calls.foldl (fun xs call ↦ call.text (str call.src) xs) xs) ∧
      ∀ a, a < dst ∨ dst + n ≤ a → m' a = m a := by
  induction calls generalizing m xs with
  | nil => exact ⟨m, rfl, h, fun _ _ ↦ rfl⟩
  | cons call calls ih =>
      obtain ⟨hfit, hrest⟩ := hfits
      obtain ⟨⟨hstr, hapart⟩, hsrcs⟩ := List.forall_mem_cons.mp hsrc
      obtain ⟨m₁, hrun, hbuf, hframe⟩ := call.run_spec h hstr hapart hfit hfuel
      have hsrcs₁ : ∀ call ∈ calls, CStr m₁ call.src (str call.src) ∧
          (call.src + (str call.src).length < dst ∨ dst + n ≤ call.src) := by
        intro call hcall
        obtain ⟨hstr, hapart⟩ := hsrcs call hcall
        exact ⟨hstr.congr fun a h1 h2 ↦ hframe a (by omega), hapart⟩
      obtain ⟨m', hruns, hbuf', hframe'⟩ := ih hbuf hsrcs₁ hrest
      refine ⟨m', ?_, hbuf', fun a ha ↦ (hframe' a ha).trans (hframe a ha)⟩
      rw [StrCall.runAll, hrun, ok_bind]
      dsimp only
      rw [hruns]
      rfl

/-- The string `ab` at 0, and a buffer at 100 -/
def abText : Text := fun a ↦
  if a < 3 then onlyStr (bytes "ab") a else if a < 108 then some 0 else none

/-- A copy, the same string behind it, and then its first byte. -/
theorem string_calls_exact_ab : ∃ m', StrCall.runAll 8 100 abText
      [.strcpy 0, .strcat 0, .strlcpy 0 2] = .ok ([100, 100, 1], m') ∧
    CStr m' 100 (bytes "a") := by
  have hab : CStr abText 0 (bytes "ab") :=
    .cons (c := 97) rfl (by decide) (.cons (c := 98) rfl (by decide) (.nil rfl))
  have hbuf : StrBuf 100 8 abText [] := by
    refine ⟨fun a h1 h2 ↦ ?_, .nil rfl, by decide⟩
    rw [abText, if_neg (by omega), if_pos h2]
    exact Option.some_ne_none 0
  have hsrc : ∀ call ∈ [StrCall.strcpy 0, .strcat 0, .strlcpy 0 2],
      CStr abText call.src (bytes "ab") ∧
        (call.src + (bytes "ab").length < 100 ∨ 100 + 8 ≤ call.src) :=
    List.forall_mem_cons.mpr ⟨⟨hab, .inl (by decide)⟩,
      List.forall_mem_cons.mpr ⟨⟨hab, .inl (by decide)⟩,
        List.forall_mem_singleton.mpr ⟨hab, .inl (by decide)⟩⟩⟩
  have hcpy : (bytes "ab").length < 8 := by decide
  have hcat : (bytes "ab").length + (bytes "ab").length < 8 := by decide
  obtain ⟨m', hrun, hbuf', -⟩ := string_calls_exact (fun _ ↦ bytes "ab") hbuf
    [.strcpy 0, .strcat 0, .strlcpy 0 2] hsrc
    ⟨hcpy, hcat, ⟨by decide, by decide⟩, trivial⟩ le_rfl
  exact ⟨m', hrun, hbuf'.str⟩

end Jos
