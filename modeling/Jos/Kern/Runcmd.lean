import Jos.Libc.String
import Jos.Lib.Words

/-!
# The command line of the monitor (`kern/monitor.c`)

`runcmd` splits its line into words in place.  It puts the address of a word into `argv` when it
finds its first character, but the word is ended only by the next round of the loop, which
overwrites the white space behind it.
-/

namespace Jos

open Jos.Lib

def WHITESPACE : List (BitVec 8) := bytes "\t\r\n "
def MAXARGS : ℕ := 16

/-- The local array `argv`; at first its pointers are arbitrary. -/
abbrev Argv := ℕ → Option ℕ

/-- `argv[i] = p` -/
def Argv.store (argv : Argv) (i : ℕ) (p : Option ℕ) : Except Stop Argv :=
  if i < MAXARGS then .ok (Function.update argv i p) else .error .stray

/-- `while (*buf && strchr(WHITESPACE, *buf)) *buf++ = 0;` -/
def gobble : ℕ → Text → ℕ → Except Stop (Text × ℕ)
  | 0, _, _ => .error .timeout
  | fuel + 1, m, buf => do
      let c ← m.load buf
      if c ≠ 0 ∧ (strchr WHITESPACE c).isSome then gobble fuel (← m.store buf 0) (buf + 1)
      else return (m, buf)

/-- `while (*buf && !strchr(WHITESPACE, *buf)) buf++;` -/
def scanArg (m : Text) : ℕ → ℕ → Except Stop ℕ
  | 0, _ => .error .timeout
  | fuel + 1, buf => do
      let c ← m.load buf
      if c ≠ 0 ∧ ¬ (strchr WHITESPACE c).isSome then scanArg m fuel (buf + 1) else return buf

/-- The parsing loop of `runcmd`: `argc` and `argv`, or nothing if there are too many arguments. -/
def parseArgs : ℕ → Text → ℕ → ℕ → Argv → Except Stop (Text × Option (ℕ × Argv))
  | 0, _, _, _, _ => .error .timeout
  | fuel + 1, m, buf, argc, argv => do
      let (m, buf) ← gobble (fuel + 1) m buf
      if (← m.load buf) = 0 then
        let argv ← argv.store argc none
        return (m, some (argc, argv))
      else if argc = MAXARGS - 1 then return (m, none)
      else
        let argv ← argv.store argc (some buf)
        let buf ← scanArg m (fuel + 1) buf
        parseArgs fuel m buf (argc + 1) argv

/-- A line is parsed from `argv[0] = 0` on. -/
def parseLine (fuel : ℕ) (m : Text) (buf : ℕ) (argv : Argv) :
    Except Stop (Text × Option (ℕ × Argv)) := do
  parseArgs fuel m buf 0 (← argv.store 0 none)

/-! ## Words -/

section

variable {m : Text} {e buf fuel : ℕ} {c : BitVec 8} {cs : List (BitVec 8)}

/-- White space is a tab, a carriage return, a newline or a space. -/
def isSpace (c : BitVec 8) : Bool := c = chr '\t' ∨ c = chr '\r' ∨ c = chr '\n' ∨ c = chr ' '

theorem isSome_strchr (s : List (BitVec 8)) (c : BitVec 8) : (strchr s c).isSome ↔ c ∈ s := by
  induction s with
  | nil => simp [strchr]
  | cons x s ih =>
      rw [strchr, List.mem_cons]
      by_cases hx : x = c
      · simp [hx]
      · rw [if_neg hx, Option.isSome_map, ih]
        simp [Ne.symm hx]

theorem strchr_whitespace (c : BitVec 8) : (strchr WHITESPACE c).isSome = isSpace c := by
  rw [Bool.eq_iff_iff, isSome_strchr, isSpace, decide_eq_true_iff,
    show WHITESPACE = [chr '\t', chr '\r', chr '\n', chr ' '] from rfl]
  simp only [List.mem_cons, List.not_mem_nil, or_false]

/-- The white space at `buf` is overwritten.  So the byte at `buf` becomes NUL if no word starts
there. -/
theorem gobble_spec (h : StrTo m e buf cs) (hfuel : cs.length < fuel) :
    ∃ m' q, gobble fuel m buf = .ok (m', q) ∧ StrTo m' e q (cs.dropWhile isSpace) ∧ buf ≤ q ∧
      (∀ a, a < buf ∨ q ≤ a → m' a = m a) ∧
      ((∀ c ∈ cs.head?, isSpace c = true) → m' buf = some 0) := by
  induction fuel generalizing m buf cs with
  | zero => exact absurd hfuel (Nat.not_lt_zero _)
  | succ fuel ih =>
      rw [gobble, Text.load_head h.str, ok_bind]
      cases cs with
      | nil =>
          exact ⟨m, buf, if_neg fun hc ↦ hc.1 rfl, h, le_rfl, fun _ _ ↦ rfl, fun _ ↦ h.str.head⟩
      | cons c cs =>
          obtain ⟨hm, hne, hrest⟩ := StrTo.cons_iff.mp h
          rw [List.headD_cons, List.dropWhile_cons, strchr_whitespace]
          by_cases hc : isSpace c = true
          · have hstore : m.store buf 0 = .ok (Function.update m buf (some 0)) := by
              rw [Text.store, hm]
            have hframe : ∀ a, a ≠ buf → Function.update m buf (some 0) a = m a := fun a ha ↦
              Function.update_of_ne ha _ _
            obtain ⟨m', q, hrun, hq, hle, hother, -⟩ := ih (m := Function.update m buf (some 0))
              ⟨hrest.str.congr fun a h1 _ ↦ hframe a (by omega), hrest.stop⟩
              (Nat.lt_of_succ_lt_succ hfuel)
            rw [if_pos ⟨hne, hc⟩, if_pos hc, hstore, ok_bind]
            refine ⟨m', q, hrun, hq, by omega, fun a ha ↦ ?_, fun _ ↦ ?_⟩
            · rw [hother a (by omega), hframe a (by omega)]
            · rw [hother buf (by omega), Function.update_self]
          · rw [if_neg fun hh ↦ hc hh.2, if_neg hc]
            exact ⟨m, buf, rfl, h, le_rfl, fun _ _ ↦ rfl, fun hh ↦ absurd (hh c rfl) hc⟩

/-- The scan goes past the word at `buf`. -/
theorem scanArg_spec (h : StrTo m e buf cs) (hfuel : cs.length < fuel) :
    scanArg m fuel buf = .ok (buf + (cs.takeWhile fun c ↦ !isSpace c).length) := by
  induction fuel generalizing buf cs with
  | zero => exact absurd hfuel (Nat.not_lt_zero _)
  | succ fuel ih =>
      rw [scanArg, Text.load_head h.str, ok_bind]
      cases cs with
      | nil => exact if_neg fun hc ↦ hc.1 rfl
      | cons c cs =>
          obtain ⟨-, hne, hrest⟩ := StrTo.cons_iff.mp h
          rw [List.headD_cons, List.takeWhile_cons, strchr_whitespace]
          by_cases hc : isSpace c = true
          · rw [if_neg fun hh ↦ hh.2 hc, if_neg (by simp [hc])]
            rfl
          · rw [if_pos ⟨hne, hc⟩, if_pos (by simpa using hc),
              ih hrest (Nat.lt_of_succ_lt_succ hfuel), List.length_cons]
            congr 1
            omega

theorem Argv.store_eq {argv : Argv} {i : ℕ} {p : Option ℕ} (h : i < MAXARGS) :
    argv.store i p = .ok (Function.update argv i p) := if_pos h

/-! ## The loop -/

/-- The words `ws` are the arguments from `argc` on, and the last ones. -/
structure Argued (m : Text) (argv argv' : Argv) (argc n : ℕ) (ws : List (List (BitVec 8))) :
    Prop where
  count : n = argc + ws.length
  word : ∀ k (hk : k < ws.length), ∃ q, argv' (argc + k) = some q ∧ CStr m q (ws.get ⟨k, hk⟩)
  null : argv' n = none
  kept : ∀ k, k < argc ∨ n < k → argv' k = argv k

/-- What the loop makes of the words `ws` if there are `argc` arguments already. -/
def Parsed (m : Text) (argv : Argv) (argc : ℕ) (ws : List (List (BitVec 8))) :
    Option (ℕ × Argv) → Prop
  | none => MAXARGS ≤ argc + ws.length
  | some (n, argv') => n < MAXARGS ∧ Argued m argv argv' argc n ws

theorem Argued.cons {argv argv' : Argv} {argc n q : ℕ} {w : List (BitVec 8)}
    {ws : List (List (BitVec 8))}
    (h : Argued m (Function.update argv argc (some q)) argv' (argc + 1) n ws)
    (hw : CStr m q w) : Argued m argv argv' argc n (w :: ws) where
  count := by rw [h.count, List.length_cons]; omega
  word k hk := by
    cases k with
    | zero =>
        have hkept := h.kept argc (.inl (Nat.lt_succ_self _))
        exact ⟨q, hkept.trans (Function.update_self _ _ _), hw⟩
    | succ k =>
        obtain ⟨q', hq', hstr⟩ := h.word k (Nat.lt_of_succ_lt_succ hk)
        exact ⟨q', by rwa [Nat.add_assoc, Nat.add_comm 1] at hq', hstr⟩
  null := h.null
  kept k hk := by
    have hcount := h.count
    rw [h.kept k (by omega), Function.update_of_ne (by omega)]

/-- The loop, from `buf` on.  The byte at `buf` becomes NUL if no word starts there, and so ends the
word before it. -/
theorem parseArgs_spec {argc : ℕ} (argv : Argv) (h : StrTo m e buf cs) (hfuel : cs.length < fuel)
    (hargc : argc < MAXARGS) : ∃ m' r, parseArgs fuel m buf argc argv = .ok (m', r) ∧
      (∀ a, a < buf ∨ e ≤ a → m' a = m a) ∧
      ((∀ c ∈ cs.head?, isSpace c = true) → m' buf = some 0) ∧
      Parsed m' argv argc (words isSpace cs) r := by
  induction fuel generalizing m buf cs argc argv with
  | zero => exact absurd hfuel (Nat.not_lt_zero _)
  | succ fuel ih =>
      obtain ⟨m₁, q, hgobble, h₁, hle, hother, hend⟩ := gobble_spec h hfuel
      have hq := h₁.stop
      have hstop := h.stop
      have hlen := (List.dropWhile_suffix (l := cs) isSpace).length_le
      have hhead := List.head?_dropWhile_not isSpace cs
      rw [parseArgs, hgobble, ok_bind]
      dsimp only
      rw [Text.load_head h₁.str, ok_bind, ← words_dropWhile]
      generalize cs.dropWhile isSpace = cs₁ at *
      cases cs₁ with
      | nil =>
          rw [if_pos (show [].headD 0 = (0 : BitVec 8) from rfl), Argv.store_eq hargc, ok_bind]
          refine ⟨m₁, _, rfl, fun a ha ↦ hother a ?_, hend, hargc, rfl, fun k hk ↦ ?_, ?_,
            fun k hk ↦ ?_⟩
          · rw [List.length_nil] at hq
            omega
          · cases hk
          · exact Function.update_self _ _ _
          · exact Function.update_of_ne (by omega) _ _
      | cons c cs₁ =>
          obtain ⟨hm, hne, hrest⟩ := StrTo.cons_iff.mp h₁
          have hc : isSpace c = false := by simpa using hhead
          rw [List.headD_cons, if_neg hne, words_of_head hc]
          by_cases hmax : argc = MAXARGS - 1
          · rw [if_pos hmax]
            rw [List.length_cons] at hq
            refine ⟨m₁, none, rfl, fun a ha ↦ hother a (by omega), hend, ?_⟩
            rw [Parsed, List.length_cons, hmax]
            omega
          · have hsplit := List.takeWhile_append_dropWhile (p := fun x ↦ !isSpace x) (l := c :: cs₁)
            have hsep := List.head?_dropWhile_not (fun x ↦ !isSpace x) (c :: cs₁)
            have hpos : 0 < ((c :: cs₁).takeWhile fun x ↦ !isSpace x).length := by
              rw [List.takeWhile_cons_of_pos (by simp [hc])]
              exact Nat.succ_pos _
            rw [if_neg hmax, Argv.store_eq hargc, ok_bind, scanArg_spec h₁ (by omega), ok_bind]
            generalize (c :: cs₁).takeWhile (fun x ↦ !isSpace x) = w at *
            generalize (c :: cs₁).dropWhile (fun x ↦ !isSpace x) = cs₂ at *
            rw [← hsplit] at h₁ hlen
            rw [List.length_append] at hlen
            obtain ⟨m₂, r, hrun, hother₂, hzero, hparsed⟩ := ih
              (Function.update argv argc (some q)) h₁.drop (by omega) (show argc + 1 < _ by omega)
            have hword : CStr m₂ q w := h₁.str.take (fun a h1 h2 ↦ hother₂ a (.inl h2))
              (hzero fun x hx ↦ by
                rw [Option.mem_def.mp hx] at hsep
                simpa using hsep)
            refine ⟨m₂, r, hrun, fun a ha ↦ ?_, fun hh ↦ ?_, ?_⟩
            · have hstop₁ := h₁.stop
              rw [List.length_append] at hstop₁
              rw [hother₂ a (by omega), hother a (by omega)]
            · rw [hother₂ buf (by omega), hend hh]
            · cases r with
              | none =>
                  rw [Parsed, List.length_cons]
                  exact hparsed.trans (by omega)
              | some r => exact ⟨hparsed.1, hparsed.2.cons hword⟩

theorem parseLine_spec {line : List (BitVec 8)} (h : CStr m buf line) (hfuel : line.length < fuel)
    (argv : Argv) : ∃ m' r, parseLine fuel m buf argv = .ok (m', r) ∧
      (∀ a, a < buf ∨ buf + line.length ≤ a → m' a = m a) ∧
      Parsed m' (Function.update argv 0 none) 0 (words isSpace line) r := by
  obtain ⟨m', r, hrun, hother, -, hparsed⟩ := parseArgs_spec
    (Function.update argv 0 none) ⟨h, rfl⟩ hfuel (show 0 < MAXARGS by decide)
  refine ⟨m', r, ?_, hother, hparsed⟩
  rw [parseLine, Argv.store_eq (by decide), ok_bind, hrun]

/-- The words of the line are the arguments, each a string at its place, if there are at most 15. -/
theorem runcmd_words {line : List (BitVec 8)} (h : CStr m buf line) (hfuel : line.length < fuel)
    (argv : Argv) : ∃ m' r, parseLine fuel m buf argv = .ok (m', r) ∧
      (∀ a, a < buf ∨ buf + line.length ≤ a → m' a = m a) ∧
      (r = none ↔ 15 < (words isSpace line).length) ∧
      ∀ argc argv', r = some (argc, argv') → argc = (words isSpace line).length ∧
        (∀ k (hk : k < (words isSpace line).length), ∃ q, argv' k = some q ∧
          CStr m' q ((words isSpace line).get ⟨k, hk⟩)) ∧
        argv' argc = none ∧ ∀ k, 16 ≤ k → argv' k = argv k := by
  obtain ⟨m', r, hrun, hother, hparsed⟩ := parseLine_spec h hfuel argv
  refine ⟨m', r, hrun, hother, ?_⟩
  cases r with
  | none =>
      rw [Parsed, Nat.zero_add] at hparsed
      refine ⟨iff_of_true rfl hparsed, fun argc argv' hr ↦ ?_⟩
      cases hr
  | some r =>
      obtain ⟨hlt, hcount, hword, hnull, hkept⟩ := hparsed
      rw [MAXARGS] at hlt
      refine ⟨iff_of_false (Option.some_ne_none r) (by omega), fun argc argv' hr ↦ ?_⟩
      cases hr
      refine ⟨hcount.trans (Nat.zero_add _), fun k hk ↦ ?_, hnull, fun k hk ↦ ?_⟩
      · obtain ⟨q, hq, hstr⟩ := hword k hk
        exact ⟨q, by rwa [Nat.zero_add] at hq, hstr⟩
      · have hlast : argc < k := hlt.trans_le hk
        exact (hkept k (.inr hlast)).trans (Function.update_of_ne (by omega) _ _)

/-- A line with blanks before, between and after its two words. -/
theorem runcmd_words_demo : ∃ m' argv',
    parseLine 20 (onlyStr (bytes " help \t me\n")) 0 (fun _ ↦ some 7) =
      .ok (m', some (2, argv')) ∧ argv' 2 = none := by
  obtain ⟨m', r, hrun, -, hmany, hargs⟩ := @runcmd_words _ 0 20 _
    (@cstr_onlyStr _ _ (bytes " help \t me\n") (by decide)) (by decide) fun _ ↦ some 7
  cases r with
  | none => exact absurd (hmany.mp rfl) (by decide)
  | some r =>
      obtain ⟨hcount, -, hnull, -⟩ := hargs r.1 r.2 rfl
      have htwo : r.1 = 2 := hcount.trans (by decide)
      rw [htwo] at hnull
      exact ⟨m', r.2, by rw [hrun, ← htwo], hnull⟩

end

end Jos
