import Jos.Kern.Booted
import Jos.Libc.PrintfmtSpec

/-!
# What `sys_cputs` reads

`user_mem_assert` checks the range of `len` bytes from `s` on, and `cprintf("%.*s", len, s)` then
reads it.  The loop of `vprintfmt` loads a byte before it looks at the precision, so a string that
is not ended by a NUL byte within the range is read up to and including the byte at `s + len`; and
the precision is an `int`, so for a `len` of 2^31 or more there is no bound at all.

`cputs_reads_checked_iff` says when the call keeps to its range.
-/

namespace Jos

open Printfmt Lib

/-! ## The loop of `%s` -/

section PutString

variable {rd : Word → Option (BitVec 8)} {alt : Bool} {fuel : ℕ} {p a : Word}
  {precision width : Int} {L : List PrintEv}

/-- The loop of `%s` over memory. -/
theorem putString_succ :
    (putString (loadMem rd) alt (fuel + 1) p precision width).run L =
      match rd p with
      | none => (none, .load p :: L)
      | some b =>
          if b = 0 then (some width, .load p :: L)
          else if precision < 0 ∨ 1 ≤ precision then
            (putString (loadMem rd) alt fuel (p + 1)
              (if precision < 0 then precision else precision - 1) (width - 1)).run
              (.put (if alt && (b.toInt < ' '.toNat || b.toInt > '~'.toNat) then
                BitVec.ofNat 32 '?'.toNat else b.signExtend 32) :: .load p :: L)
          else (some width, .load p :: L) := by
  cases hb : rd p with
  | none => rw [putString, run_bind, run_loadMem, hb]
  | some b => exact putString_round (by rw [run_loadMem, hb])

/-- The log only grows. -/
theorem load_mem_putString (ha : .load a ∈ L) :
    .load a ∈ ((putString (loadMem rd) alt fuel p precision width).run L).2 := by
  induction fuel generalizing p precision width L with
  | zero => exact ha
  | succ fuel ih =>
      rw [putString_succ]
      split
      · exact List.mem_cons_of_mem _ ha
      · split
        · exact List.mem_cons_of_mem _ ha
        · split
          · exact ih (List.mem_cons_of_mem _ (List.mem_cons_of_mem _ ha))
          · exact List.mem_cons_of_mem _ ha

/-- The loop goes no further than the first byte that is NUL or not mapped. -/
theorem putString_stops {i : ℕ} (hi : rd (p + BitVec.ofNat 32 i) = none ∨
      rd (p + BitVec.ofNat 32 i) = some 0)
    (ha : .load a ∈ ((putString (loadMem rd) alt fuel p precision width).run L).2) :
    .load a ∈ L ∨ ∃ j ≤ i, a = p + BitVec.ofNat 32 j := by
  induction fuel generalizing p precision width L i with
  | zero => exact .inl ha
  | succ fuel ih =>
      have here : .load a ∈ PrintEv.load p :: L →
          .load a ∈ L ∨ ∃ j ≤ i, a = p + BitVec.ofNat 32 j := by
        intro hm
        rcases List.mem_cons.mp hm with heq | hm
        · exact .inr ⟨0, Nat.zero_le i, by simpa using PrintEv.load.inj heq⟩
        · exact .inl hm
      rw [putString_succ] at ha
      split at ha
      · exact here ha
      · next b hb =>
          split at ha
          · exact here ha
          · next hne =>
              split at ha
              · cases i with
                | zero =>
                    -- the byte at `p` ends the loop
                    rw [show p + BitVec.ofNat 32 0 = p by simp, hb] at hi
                    rcases hi with hc | hc
                    · cases hc
                    · exact absurd (Option.some.inj hc) hne
                | succ i =>
                    rw [← add_one_ofNat] at hi
                    rcases ih hi ha with hm | ⟨j, hj, rfl⟩
                    · exact here (by simpa using hm)
                    · exact .inr ⟨j + 1, Nat.succ_le_succ hj, add_one_ofNat p j⟩
              · exact here ha

/-- The loop loads every byte up to the precision, and the one after it, if the bytes before are
mapped and not NUL. -/
theorem putString_reaches {i : ℕ} (hfuel : i < fuel)
    (hb : ∀ j < i, ∃ b, rd (p + BitVec.ofNat 32 j) = some b ∧ b ≠ 0)
    (hprec : precision < 0 ∨ i ≤ precision) :
    .load (p + BitVec.ofNat 32 i) ∈
      ((putString (loadMem rd) alt fuel p precision width).run L).2 := by
  induction i generalizing fuel p precision width L with
  | zero =>
      obtain ⟨fuel, rfl⟩ := Nat.exists_eq_add_of_lt hfuel
      rw [Nat.zero_add, putString_succ]
      have here : .load (p + BitVec.ofNat 32 0) ∈ PrintEv.load p :: L := by simp
      split
      · exact here
      · split
        · exact here
        · split
          · exact load_mem_putString (List.mem_cons_of_mem _ here)
          · exact here
  | succ i ih =>
      obtain ⟨fuel, rfl⟩ : ∃ n, fuel = n + 1 := ⟨fuel - 1, by omega⟩
      obtain ⟨b, hb0, hne⟩ := hb 0 (Nat.succ_pos i)
      have hp : precision < 0 ∨ 1 ≤ precision := by omega
      rw [show p + BitVec.ofNat 32 0 = p by simp] at hb0
      rw [putString_succ, hb0]
      simp only [hne, if_false, hp, if_true]
      rw [← add_one_ofNat]
      refine ih (by omega) (fun j hj ↦ ?_) (by split <;> omega)
      rw [add_one_ofNat]
      exact hb (j + 1) (Nat.succ_lt_succ hj)

/-- Printing a string constant loads nothing through a pointer argument. -/
theorem load_mem_putString_lit {cs : List Char} :
    .load a ∈ ((putString (loadLit cs) alt fuel p precision width).run L).2 → .load a ∈ L := by
  induction fuel generalizing p precision width L with
  | zero => exact id
  | succ fuel ih =>
      obtain ⟨b, hload⟩ := run_loadLit cs p L
      rw [putString_round hload]
      split
      · exact id
      · split
        · intro h
          simpa using ih h
        · exact id

end PutString

/-! ## `cprintf("%.*s", len, s)` -/

/-- The escape sequence of the format, with its two arguments. -/
theorem flagChars_cputs (len str : Word) :
    flagChars none {} [len, str] ['.', '*', 's'] =
      (pure ('s', { width := 0, precision := len.toInt }, [str], []) : Print _) := rfl

/-- With no width, only the loop of `%s` loads. -/
theorem load_mem_fmtString {load : Word → Print (BitVec 8)} {len p a : Word} :
    .load a ∈ ((fmtString load { width := 0, precision := len.toInt } p).run []).2 ↔
      .load a ∈ ((putString load false strFuel p len.toInt 0).run []).2 := by
  rw [fmtString, if_neg (by simp), run_bind, run_pure]
  simp only [run_bind]
  cases (putString load false strFuel p len.toInt 0).run [] with
  | mk o L =>
      cases o with
      | none => rfl
      | some w => exact load_mem_pad

theorem vcprintf_cputs (rd : Word → Option (BitVec 8)) (len str : Word) :
    (vcprintf rd "%.*s" [len, str]).2 =
      ((fmtString (if str = 0 then loadLit "(null)".toList else loadMem rd)
        { width := 0, precision := len.toInt } (if str = 0 then 0 else str)).run []).2 := by
  have hlist : "%.*s".toList = ['%', '.', '*', 's'] := by decide
  -- the format ends after the escape sequence
  have hend : ∀ x : Print Unit, ((x >>= fun _ ↦ vprintfmt rd 4 [] []).run []).2 = (x.run []).2 := by
    intro x
    rw [run_bind]
    cases x.run [] with
    | mk o L => cases o <;> rfl
  rw [vcprintf, hlist, show "%.*s".length + 1 = 4 + 1 from rfl, vprintfmt, if_neg (by decide),
    flagChars_cputs]
  simp only [run_bind, run_pure, vaArg]
  by_cases h : str = 0
  · simp only [h, if_true]
    exact hend _
  · simp only [h, if_false]
    exact hend _

/-- Where the bytes from `p` on are mapped and not NUL, up to `len` of them or the end of the
address space, the formatter loads a byte outside of the range. -/
theorem exists_load_outside {rd : Word → Option (BitVec 8)} {str len : Word} (hstr : str ≠ 0)
    (hb : ∀ i < len.toNat, str.toNat + i < 2 ^ 32 →
      ∃ b, rd (str + BitVec.ofNat 32 i) = some b ∧ b ≠ 0) :
    ∃ a, .load a ∈ (vcprintf rd "%.*s" [len, str]).2 ∧
      ¬ (str.toNat ≤ a.toNat ∧ a.toNat < str.toNat + len.toNat) := by
  have hlt := str.isLt
  have hpos : str.toNat ≠ 0 := fun hc ↦ hstr (BitVec.eq_of_toNat_eq hc)
  have hlen := len.isLt
  -- the first index that is outside
  obtain ⟨i, hi⟩ : ∃ i, i = min len.toNat (2 ^ 32 - str.toNat) := ⟨_, rfl⟩
  have hprec : len.toInt < 0 ∨ (i : Int) ≤ len.toInt := by
    rw [BitVec.toInt_eq_toNat_cond]
    split <;> omega
  refine ⟨str + BitVec.ofNat 32 i, ?_, fun hc ↦ ?_⟩
  · rw [vcprintf_cputs, if_neg hstr, if_neg hstr, load_mem_fmtString]
    refine putString_reaches (show i < 2 ^ 32 + 1 by omega) (fun j hj ↦ ?_) hprec
    exact hb j (by omega) (by omega)
  · rw [BitVec.toNat_add, BitVec.toNat_ofNat] at hc
    omega

/-- Where a byte of the range is NUL or not mapped, every load is in the range. -/
theorem load_inside {rd : Word → Option (BitVec 8)} {str len a : Word} (hstr : str ≠ 0) {i : ℕ}
    (hi : i < len.toNat) (hlt : str.toNat + i < 2 ^ 32)
    (hb : rd (str + BitVec.ofNat 32 i) = none ∨ rd (str + BitVec.ofNat 32 i) = some 0)
    (ha : .load a ∈ (vcprintf rd "%.*s" [len, str]).2) :
    str.toNat ≤ a.toNat ∧ a.toNat < str.toNat + len.toNat := by
  rw [vcprintf_cputs, if_neg hstr, if_neg hstr, load_mem_fmtString] at ha
  rcases putString_stops hb ha with hm | ⟨j, hj, rfl⟩
  · cases hm
  · rw [BitVec.toNat_add, BitVec.toNat_ofNat]
    omega

theorem not_load_null {rd : Word → Option (BitVec 8)} {len a : Word} :
    .load a ∉ (vcprintf rd "%.*s" [len, 0]).2 := by
  intro ha
  rw [vcprintf_cputs, if_pos rfl, if_pos rfl, load_mem_fmtString] at ha
  exact absurd (load_mem_putString_lit ha) List.not_mem_nil

/-! ## `sys_cputs` -/

section

variable (B : Machine) (s : Kern) (cur : Slot) (str len : Word)

/-- The call destroys the environment: it does what `env_destroy(curenv)` does. -/
def CputsDestroys : Prop := userMemAssert B s cur str len PTE_P = envDestroy B s (some cur) cur

/-- What `sys_cputs` writes and loads. -/
def sysCputsLog : List PrintEv :=
  match userMemAssert B s cur str len PTE_P, (s.envs cur).envPgdir with
  | some (.ret (), s), some d => (cputsLog s.mem d str len).2
  | _, _ => []

/-- `sys_cputs` destroys the environment, or loads bytes of the `len` bytes from `str` on only. -/
def CputsReadsChecked : Prop :=
  CputsDestroys B s cur str len ∨ ∀ a, .load a ∈ sysCputsLog B s cur str len →
    str.toNat ≤ a.toNat ∧ a.toNat < str.toNat + len.toNat

end

variable {B : Machine} {s : Kern} {cur : Slot} {str len : Word} {d : ℕ}

theorem not_cputsDestroys (hd : (s.envs cur).envPgdir = some d)
    (hcheck : userMemCheck B s.mem d str len (PTE_P ||| PTE_U) = some none) :
    ¬ CputsDestroys B s cur str len := by
  intro hc
  have hret : userMemAssert B s cur str len PTE_P = some (.ret (), s) := by
    simp [userMemAssert, hd, hcheck]
  obtain ⟨hy, -⟩ := envDestroy_self (hc.symm.trans hret)
  cases hy

theorem sysCputsLog_of_check (hd : (s.envs cur).envPgdir = some d)
    (hcheck : userMemCheck B s.mem d str len (PTE_P ||| PTE_U) = some none) :
    sysCputsLog B s cur str len = (cputsLog s.mem d str len).2 := by
  simp [sysCputsLog, userMemAssert, hd, hcheck]

theorem sysCputsLog_of_not_check (hd : (s.envs cur).envPgdir = some d)
    (hcheck : userMemCheck B s.mem d str len (PTE_P ||| PTE_U) ≠ some none) :
    sysCputsLog B s cur str len = [] := by
  cases hc : userMemCheck B s.mem d str len (PTE_P ||| PTE_U) with
  | none => simp [sysCputsLog, userMemAssert, hd, hc]
  | some o =>
  cases o with
  | none => exact absurd hc hcheck
  | some a =>
      have hassert : userMemAssert B s cur str len PTE_P = envDestroy B s (some cur) cur := by
        simp [userMemAssert, hd, hc]
      cases hdes : envDestroy B s (some cur) cur with
      | none => simp [sysCputsLog, hassert, hdes]
      | some x =>
          obtain ⟨c, s'⟩ := x
          obtain ⟨rfl, -⟩ := envDestroy_self hdes
          simp [sysCputsLog, hassert, hdes]

/-- If every byte of the range is mapped and not NUL, the call goes on after its end. -/
theorem not_cputsReadsChecked (hd : (s.envs cur).envPgdir = some d) (hstr : str ≠ 0)
    (hcheck : userMemCheck B s.mem d str len (PTE_P ||| PTE_U) = some none)
    (hb : ∀ i < len.toNat, str.toNat + i < 2 ^ 32 →
      ∃ b, s.mem.loadByte d (str + BitVec.ofNat 32 i) = some b ∧ b ≠ 0) :
    ¬ CputsReadsChecked B s cur str len := by
  rintro (hc | hc)
  · exact not_cputsDestroys hd hcheck hc
  · obtain ⟨a, ha, hout⟩ := exists_load_outside hstr hb
    exact hout (hc a (by rw [sysCputsLog_of_check hd hcheck]; exact ha))

/-- `sys_cputs` keeps to the range it checked if and only if the pointer is `NULL`, or the check
does not pass, or a byte of the range and below the end of the address space is NUL or not
mapped. -/
theorem cputs_reads_checked_iff (hd : (s.envs cur).envPgdir = some d) :
    CputsReadsChecked B s cur str len ↔
      str = 0 ∨ userMemCheck B s.mem d str len (PTE_P ||| PTE_U) ≠ some none ∨
      ∃ i < len.toNat, str.toNat + i < 2 ^ 32 ∧
        (s.mem.loadByte d (str + BitVec.ofNat 32 i) = none ∨
          s.mem.loadByte d (str + BitVec.ofNat 32 i) = some 0) := by
  constructor
  · intro h
    by_contra hc
    simp only [not_or, not_not, not_exists, not_and] at hc
    obtain ⟨hstr, hcheck, hb⟩ := hc
    refine not_cputsReadsChecked hd hstr hcheck (fun i hi hlt ↦ ?_) h
    obtain ⟨hnone, hnul⟩ := hb i hi hlt
    obtain ⟨b, hb⟩ := Option.ne_none_iff_exists'.mp hnone
    exact ⟨b, hb, fun hz ↦ hnul (hz ▸ hb)⟩
  · by_cases hcheck : userMemCheck B s.mem d str len (PTE_P ||| PTE_U) = some none
    · rintro (rfl | hc | ⟨i, hi, hlt, hb⟩)
      · refine .inr fun a ha ↦ ?_
        rw [sysCputsLog_of_check hd hcheck] at ha
        exact absurd ha not_load_null
      · exact absurd hcheck hc
      · refine .inr fun a ha ↦ ?_
        rw [sysCputsLog_of_check hd hcheck] at ha
        by_cases hstr : str = 0
        · subst hstr
          exact absurd ha not_load_null
        · exact load_inside hstr hi hlt hb ha
    · intro _
      refine .inr fun a ha ↦ ?_
      rw [sysCputsLog_of_not_check hd hcheck] at ha
      cases ha

/-- An environment whose four bytes at 0x1000 are 7, 0, 0, 0: every entry of its directory, which
is its only page table and its only page, is 7. -/
theorem cputs_reads_checked_nul : ∃ B s cur, CputsReadsChecked B s cur 0x1000 4 := by
  let m : Mem := ⟨fun _ ↦ ⟨none, 1⟩, none, fun _ _ ↦ 7, []⟩
  let s : Kern := ⟨m, fun _ ↦ { envPgdir := some 0, envStatus := .running }, none⟩
  refine ⟨⟨1, 0, by decide⟩, s, ⟨0, by decide⟩, (cputs_reads_checked_iff (d := 0) rfl).mpr ?_⟩
  exact .inr (.inr ⟨1, by decide, by decide, .inr (by decide)⟩)

/-- With a length of 0, the byte at `s` is read. -/
theorem cputs_reads_beyond : ∃ s e, Booted demoConfig s ∧ s.Live e ∧
    ¬ CputsReadsChecked demoConfig.machine s e 0x1000 0 := by
  obtain ⟨s, l, el, e₁, e₂, env₁, env₂, d₁, d₂, boot, -, -, -, -, henv, -⟩ := exists_booted
  refine ⟨s, e₁, boot, ?_, not_cputsReadsChecked (d := d₁) ?_ (by decide) rfl ?_⟩
  · rw [Kern.Live, henv]
    simp [createdEnv, freshEnv]
  · rw [henv]
    rfl
  · intro i hi
    exact absurd hi (Nat.not_lt_zero i)

end Jos
