import Jos.Kern.Debuginfo
import Jos.Kern.UserCheck

/-!
# The checks of `debuginfo_eip`

`debuginfo_eip` has `user_mem_check` check the record, the first entry of the table and the string
table.  The other entries are not checked.  The lookup gets to one of them if the table has more
than two entries, or if it has two and the loads of the first one come to an end, or if it has one,
a file that begins above `addr`: then the search for the function begins left of the table.
-/

namespace Jos

open Lib

namespace Debuginfo

/-! ## The first entry -/

/-- The loads of the first entry come to an end. -/
structure FirstLoads (m : Mem) (d : ℕ) (stabs : Word) : Prop where
  type : m.loadByte d (stabs + 4) ≠ none
  value : Typed (table m d stabs) N_SO 0 →
    ∀ k < 4, m.loadByte d (stabs + 8 + BitVec.ofNat 32 k) ≠ none

/-- The first entry is a file that begins above `addr`. -/
def FirstAbove (m : Mem) (d : ℕ) (stabs addr : Word) : Prop :=
  Typed (table m d stabs) N_SO 0 ∧ addr < (table m d stabs 0).nValue

section

variable {m : Mem} {d : ℕ} {a stabs type addr : Word} {r k : ℤ} {s : Search} {t : ℤ → Stab}

theorem stabAt_zero (stabs : Word) : stabAt stabs 0 = stabs := by
  rw [stabAt]
  exact BitVec.add_zero stabs

theorem returns_load (h : m.loadByte d a ≠ none) : Returns (load m d a) (byteAt m d a) := by
  intro L
  obtain ⟨b, hb⟩ := Option.ne_none_iff_exists'.mp h
  exact ⟨_, by rw [run_load, byteAt, hb]; rfl⟩

theorem returns_loadWord (h : ∀ k < 4, m.loadByte d (a + BitVec.ofNat 32 k) ≠ none) :
    Returns (loadWord m d a) (wordAt m d a) := by
  have h0 : m.loadByte d a ≠ none := by simpa using h 0 (by decide)
  have h3 : m.loadByte d (a + 2 + 1) ≠ none := by
    rw [BitVec.add_assoc]
    exact h 3 (by decide)
  have hlo : Returns (loadHalf m d a) (halfAt m d a) :=
    (returns_load h0).bind ((returns_load (h 1 (by decide))).bind (Returns.pure _))
  have hhi : Returns (loadHalf m d (a + 2)) (halfAt m d (a + 2)) :=
    (returns_load (h 2 (by decide))).bind ((returns_load h3).bind (Returns.pure _))
  exact hlo.bind (hhi.bind (Returns.pure _))

/-- A round that looks at the first entry only -/
theorem scanBack_zero : scanBack t type 0 0 = if Typed t type 0 then 0 else -1 := by
  rw [scanBack]
  split
  · next h =>
      rw [if_neg h.2]
      exact scanBack_of_lt (by decide)
  · next h => rw [if_pos (not_not.mp fun hc ↦ h ⟨le_rfl, hc⟩)]

theorem probe_zero (hl : s.l = 0) (hmid : middle s.l s.r = 0) : s.probe t type =
    if ¬ Typed t type 0 then { s with l := 1 }
    else if (t 0).nValue < s.addr then { s with anyMatches := true, regionLeft := 0, l := 1 }
    else if s.addr < (t 0).nValue then { s with anyMatches := true, regionRight := -1, r := -1 }
    else { s with anyMatches := true, regionLeft := 0, l := 0, addr := s.addr + 1 } := by
  rw [Search.probe, hmid, hl, scanBack_zero]
  by_cases htyped : Typed t type 0
  · simp [htyped]
  · simp [htyped]

theorem returns_nType (h : m.loadByte d (stabAt stabs k + 4) ≠ none) :
    Returns (nType m d stabs k) ((table m d stabs k).nType.setWidth 32) :=
  (returns_load h).bind (Returns.pure _)

theorem FirstLoads.nType (h : FirstLoads m d stabs) :
    Returns (nType m d stabs 0) ((table m d stabs 0).nType.setWidth 32) :=
  returns_nType (by rw [stabAt_zero]; exact h.type)

theorem FirstLoads.nValue (h : FirstLoads m d stabs) (htyped : Typed (table m d stabs) N_SO 0) :
    Returns (nValue m d stabs 0) (table m d stabs 0).nValue := by
  refine returns_loadWord ?_
  rw [stabAt_zero]
  exact h.value htyped

theorem FirstLoads.scan (h : FirstLoads m d stabs) : Returns (scan m d stabs N_SO 0 0)
    (scanBack (table m d stabs) N_SO 0 0) := by
  rw [Debuginfo.scan, if_pos le_rfl, scanBack_zero]
  refine h.nType.bind ?_
  split
  · next hne =>
      have htyped : ¬ Typed (table m d stabs) N_SO 0 := hne
      rw [Debuginfo.scan, if_neg (by decide), if_neg htyped]
      exact Returns.pure _
  · next heq =>
      have htyped : Typed (table m d stabs) N_SO 0 := not_not.mp heq
      rw [if_pos htyped]
      exact Returns.pure _

theorem FirstLoads.probe (h : FirstLoads m d stabs) (hl : s.l = 0) (hmid : middle s.l s.r = 0) :
    Returns (probe m d stabs N_SO s) (s.probe (table m d stabs) N_SO) := by
  have hscan := h.scan
  have hle := scanBack_le (table m d stabs) N_SO 0 0
  rw [Debuginfo.probe, Search.probe, hmid, hl]
  refine hscan.bind ?_
  split
  · exact Returns.pure _
  · next hge =>
      have hzero := Int.le_antisymm hle (not_lt.mp hge)
      have htyped := hzero ▸ typed_scanBack (not_lt.mp hge)
      rw [hzero]
      refine (h.nValue htyped).bind ?_
      split
      · exact Returns.pure _
      · refine (h.nValue htyped).bind ?_
        split
        · exact Returns.pure _
        · exact Returns.pure _

theorem loop_of_lt (h : s.r < s.l) : s.loop t type = s := by
  rw [Search.loop, if_neg (not_le.mpr h)]

/-- The search is left of the table. -/
theorem stabBinsearch_firstAbove (hr : 0 ≤ r) (hmid : middle 0 r = 0) (htyped : Typed t type 0)
    (hlt : addr < (t 0).nValue) : Jos.stabBinsearch t 0 r type addr = (-1, -1) := by
  rw [Jos.stabBinsearch, Search.loop, if_pos hr, probe_zero rfl hmid, if_neg (not_not.mpr htyped),
    if_neg (BitVec.not_lt.mpr (BitVec.le_of_lt hlt)), if_pos hlt,
    loop_of_lt (show (-1 : ℤ) < 0 by decide)]
  simp only [if_true]
  rw [scanBack_of_lt (by decide)]

end

/-! ## Validated loads -/

/-- One of the checks in the log has found the byte accessible. -/
def Covered (L : List DebugEv) (a : Word) : Prop := ∃ va len, .checked va len ∈ L ∧ a - va < len

/-- Every byte has been checked before it is loaded. -/
def Validated (L : List DebugEv) : Prop :=
  ∀ post a pre, L = post ++ .load a :: pre → Covered pre a

section

variable {B : Machine} {m : Mem} {d : ℕ} {A : Word → Prop} {a va len : Word} {L M : List DebugEv}
  {C : List (Word × Word)}

theorem Covered.append (h : Covered L a) (M : List DebugEv) : Covered (M ++ L) a := by
  obtain ⟨va, len, hmem, hlt⟩ := h
  exact ⟨va, len, List.mem_append_right M hmem, hlt⟩

theorem Validated.nil : Validated [] := by
  intro post a pre h
  exact absurd h.symm (List.append_ne_nil_of_right_ne_nil _ (List.cons_ne_nil _ _))

theorem Validated.cons {e : DebugEv} (h : Validated L) (he : ∀ a, e = .load a → Covered L a) :
    Validated (e :: L) := by
  intro post a pre heq
  cases post with
  | nil =>
      obtain ⟨rfl, rfl⟩ := List.cons.inj heq
      exact he a rfl
  | cons e' post => exact h post a pre (List.cons.inj heq).2

theorem Validated.append (h : Validated L) (hM : ∀ e ∈ M, ∀ a, e = .load a → Covered L a) :
    Validated (M ++ L) := by
  induction M with
  | nil => exact h
  | cons e M ih =>
      have htail := ih fun e' he' ↦ hM e' (List.mem_cons_of_mem e he')
      exact htail.cons fun a ha ↦ (hM e List.mem_cons_self a ha).append M

/-- The record, as far as it can be loaded -/
def record (m : Mem) (d : ℕ) : UserStabData :=
  ⟨wordAt m d USTABDATA, wordAt m d (USTABDATA + 4), wordAt m d (USTABDATA + 8),
    wordAt m d (USTABDATA + 12)⟩

/-- The checks of `debuginfo_eip` return 0. -/
structure Checks (B : Machine) (m : Mem) (d : ℕ) : Prop where
  usd : userMemCheck B m d USTABDATA 16 PTE_U = some none
  stabs : userMemCheck B m d (record m d).stabs 12 PTE_U = some none
  stabstr : userMemCheck B m d (record m d).stabstr
    ((record m d).stabstrEnd - (record m d).stabstr) PTE_U = some none

/-- The search begins. -/
structure Searched (B : Machine) (m : Mem) (d : ℕ) : Prop where
  checks : Checks B m d
  nonempty : (record m d).stabstr < (record m d).stabstrEnd
  nul : m.loadByte d ((record m d).stabstrEnd - 1) = some 0

/-- The lookup gets to an entry other than the first, and to the entry `i` first of all. -/
inductive Leaves (B : Machine) (m : Mem) (d : ℕ) (addr : Word) : ℤ → Prop
  | mid (search : Searched B m d) (n : 3 ≤ (record m d).entries) :
      Leaves B m d addr (((record m d).entries - 1).tdiv 2)
  | next (search : Searched B m d) (n : (record m d).entries = 2)
      (loads : FirstLoads m d (record m d).stabs)
      (below : ¬ FirstAbove m d (record m d).stabs addr) : Leaves B m d addr 1
  | before (search : Searched B m d) (n : (record m d).entries = 1 ∨ (record m d).entries = 2)
      (loads : FirstLoads m d (record m d).stabs)
      (above : FirstAbove m d (record m d).stabs addr) : Leaves B m d addr (-1)

end

section

variable {B : Machine} {m : Mem} {d : ℕ} {addr stabs : Word} {r : ℤ} {info : Eipdebuginfo}
  {kern : UserStabData}

theorem logs_namelen (name : Name) : Logs (Loads fun _ ↦ True) (namelen m d name) := by
  have hfind : ∀ fuel p, Logs (Loads fun _ ↦ True) (strfind m d 0x3A fuel p) := by
    intro fuel
    induction fuel with
    | zero => exact fun p ↦ Logs.failure
    | succ fuel ih =>
        refine fun p ↦ (logs_load trivial).bind fun b ↦ ?_
        split
        · exact Logs.pure _
        · exact ih _
  cases name with
  | unknown => exact Logs.pure _
  | «at» p => exact (hfind _ p).bind fun _ ↦ Logs.pure _

theorem logs_fileScan (stabs : Word) (l k : ℤ) :
    Logs (Loads fun _ ↦ True) (fileScan m d stabs l k) := by
  fun_induction fileScan m d stabs l k with
  | case1 k hk ih =>
      refine (logs_nType fun _ _ ↦ trivial).bind fun t ↦ ?_
      split
      · exact Logs.pure _
      refine (logs_nType fun _ _ ↦ trivial).bind fun t ↦ ?_
      split
      · exact ih
      refine (logs_nValue fun _ _ ↦ trivial).bind fun v ↦ ?_
      split
      · exact ih
      · exact Logs.pure _
  | case2 k hk => exact Logs.pure _

theorem logs_countArgs (stabs : Word) (r l : ℤ) (n : ℕ) :
    Logs (Loads fun _ ↦ True) (countArgs m d stabs r l n) := by
  fun_induction countArgs m d stabs r l n with
  | case1 l n hl ih =>
      refine (logs_nType fun _ _ ↦ trivial).bind fun t ↦ ?_
      split
      · exact ih
      · exact Logs.pure _
  | case2 l n hl => exact Logs.pure _

theorem logs_stabName (u : UserStabData) (i : ℤ) (old : Name) :
    Logs (Loads fun _ ↦ True) (stabName m d u i old) := by
  refine (logs_nStrx fun _ _ ↦ trivial).bind fun strx ↦ ?_
  split
  · exact Logs.pure _
  · exact Logs.pure _

theorem logs_search (stabs : Word) (l r : ℤ) (type addr : Word) :
    Logs (Loads fun _ ↦ True) (stabBinsearch m d stabs l r type addr) :=
  logs_stabBinsearch fun _ _ _ _ _ ↦ trivial

theorem logs_lineInfo (u : UserStabData) (addr : Word) (lfile lfun rfun lline rline : ℤ)
    (info : Eipdebuginfo) : Logs (Loads fun _ ↦ True)
      (lineInfo m d u addr lfile lfun rfun lline rline info) := by
  refine (logs_namelen _).bind fun n ↦ (logs_search _ _ _ _ _).bind fun ⟨lline, rline⟩ ↦ ?_
  simp only
  split
  swap
  · exact Logs.pure _
  refine (logs_nDesc fun _ _ ↦ trivial).bind fun line ↦ (logs_fileScan _ _ _).bind fun k ↦ ?_
  have hargs : ∀ info : Eipdebuginfo, Logs (Loads fun _ ↦ True) (if lfun < rfun then do
      let narg ← countArgs m d u.stabs rfun (lfun + 1) 0
      return ((0 : ℤ), { info with eipFnNarg := narg })
    else return (0, info)) := by
    intro info
    split
    · exact (logs_countArgs _ _ _ _).bind fun _ ↦ Logs.pure _
    · exact Logs.pure _
  split
  · exact (logs_stabName _ _ _).bind fun file ↦ hargs _
  · exact (Logs.pure _).bind fun file ↦ hargs _

theorem logs_funInfo (u : UserStabData) (addr : Word) (lfile rfile : ℤ) (info : Eipdebuginfo) :
    Logs (Loads fun _ ↦ True) (funInfo m d u addr lfile rfile info) := by
  refine (logs_search _ _ _ _ _).bind fun ⟨lfun, rfun⟩ ↦ ?_
  simp only
  split
  · exact (logs_stabName _ _ _).bind fun name ↦ (logs_nValue fun _ _ ↦ trivial).bind fun v ↦
      logs_lineInfo _ _ _ _ _ _ _ _
  · exact logs_lineInfo _ _ _ _ _ _ _ _

theorem middle_zero (r : ℤ) : middle 0 r = r.tdiv 2 := by
  rw [middle, zero_add]

theorem Searched.meets {E : DebugEv → Prop} {e : DebugEv} (hE : ∀ a, E (.load a))
    (hs : Searched B m d)
    (h : Meets E (do
      let (lfile, rfile) ←
        stabBinsearch m d (record m d).stabs 0 ((record m d).entries - 1) N_SO addr
      if lfile = 0 then return (-1, info)
      else funInfo m d (record m d) addr lfile rfile info) e) :
    Meets E (tableInfo m d (record m d) addr info) e := by
  have hnul : byteAt m d ((record m d).stabstrEnd - 1) = 0 := by rw [byteAt, hs.nul]; rfl
  rw [tableInfo, if_neg (BitVec.not_le.mpr hs.nonempty)]
  refine Meets.bind_right (returns_load (hs.nul ▸ Option.some_ne_none _))
    (Logs.of_loads (logs_load (A := fun _ ↦ True) trivial) hE) ?_
  rw [if_neg (not_not.mpr hnul)]
  exact h

/-- A load of the search for the file. -/
theorem Searched.meets_search {E : DebugEv → Prop} {e : DebugEv} (hE : ∀ a, E (.load a))
    (hs : Searched B m d) (h : Meets E
      (stabBinsearch m d (record m d).stabs 0 ((record m d).entries - 1) N_SO addr) e) :
    Meets E (tableInfo m d (record m d) addr info) e := by
  refine hs.meets hE (h.bind_left (F := E) fun ⟨lfile, rfile⟩ ↦ ?_)
  simp only
  split
  · exact Logs.pure _
  · exact Logs.of_loads (logs_funInfo _ _ _ _ _) hE

/-- After the first entry the search goes on with the second one. -/
theorem FirstLoads.meets_second {E : DebugEv → Prop} (hE : ∀ a, E (.load a)) (haddr : addr < ULIM)
    (h : FirstLoads m d stabs) (hbelow : ¬ FirstAbove m d stabs addr) :
    Meets E (stabBinsearch m d stabs 0 1 N_SO addr) (.load (stabAt stabs 1 + 4)) := by
  have hmid : middle 0 1 = 0 := by decide
  have h01 : (0 : ℤ) ≤ 1 := by decide
  have h11 : (1 : ℤ) ≤ 1 := le_rfl
  have hge : Typed (table m d stabs) N_SO 0 → ¬ addr < (table m d stabs 0).nValue :=
    fun htyped hlt ↦ hbelow ⟨htyped, hlt⟩
  refine meets_stabBinsearch hE (meets_searchLoop_succ hE h01 (h.probe rfl hmid) ?_)
  rw [probe_zero rfl hmid]
  split
  · exact meets_searchLoop hE h11
  · next htyped =>
    split
    · exact meets_searchLoop hE h11
    · next hlt =>
      -- an exact match: one more round for `addr + 1` looks at the first entry
      have hlt' : (table m d stabs 0).nValue < addr + 1 := by
        have hu : ULIM.toNat = 4018143232 := rfl
        have hge := hge (not_not.mp htyped)
        bv_omega
      rw [if_neg (hge (not_not.mp htyped))]
      refine meets_searchLoop_succ hE h01 (h.probe rfl hmid) ?_
      rw [probe_zero rfl hmid, if_neg htyped, if_pos hlt']
      exact meets_searchLoop hE h11

theorem searchLoop_of_lt {s : Search} {type : Word} {fuel : ℕ} (h : s.r < s.l) :
    searchLoop m d stabs type fuel s = pure s := by
  cases fuel with
  | zero => rw [searchLoop, if_neg (not_le.mpr h)]
  | succ fuel => rw [searchLoop, if_neg (not_le.mpr h)]

/-- The search for the function begins left of the table. -/
theorem FirstLoads.returns_above {r : ℤ} (hr : 0 ≤ r) (hmid : middle 0 r = 0)
    (h : FirstLoads m d stabs) (habove : FirstAbove m d stabs addr) :
    Returns (stabBinsearch m d stabs 0 r N_SO addr) (-1, -1) := by
  obtain ⟨htyped, hlt⟩ := habove
  have hprobe := h.probe (s := ⟨0, r, false, 0, r, addr⟩) rfl hmid
  rw [probe_zero rfl hmid, if_neg (not_not.mpr htyped),
    if_neg (BitVec.not_lt.mpr (BitVec.le_of_lt hlt)), if_pos hlt] at hprobe
  rw [stabBinsearch, searchLoop, if_pos hr]
  refine (hprobe.bind (b := ⟨0, -1, true, 0, -1, addr⟩) ?_).bind ?_
  · rw [searchLoop_of_lt (show (-1 : ℤ) < 0 by decide)]
    exact Returns.pure _
  · rw [if_pos rfl, Debuginfo.scan, if_neg (show ¬ (0 : ℤ) + 1 ≤ -1 by decide)]
    exact (Returns.pure _).bind (Returns.pure _)

/-- The first load of an entry other than the first is that of the type. -/
theorem Leaves.meets {i : ℤ} {E : DebugEv → Prop} (hE : ∀ a, E (.load a)) (haddr : addr < ULIM)
    (h : Leaves B m d addr i) : Meets E (tableInfo m d (record m d) addr info)
      (.load (stabAt (record m d).stabs i + 4)) := by
  cases h with
  | mid hs hn =>
      refine hs.meets_search hE (meets_stabBinsearch hE ?_)
      rw [← middle_zero]
      exact meets_searchLoop hE (by simp only; omega)
  | next hs hn hloads hbelow =>
      refine hs.meets_search hE ?_
      rw [hn]
      exact hloads.meets_second hE haddr hbelow
  | before hs hn hloads habove =>
      have hr : 0 ≤ (record m d).entries - 1 := by omega
      have hself : (-1 : ℤ) ≤ -1 := le_rfl
      have hmid : middle 0 ((record m d).entries - 1) = 0 := by
        rcases hn with hn | hn
        · rw [hn]
          decide
        · rw [hn]
          decide
      refine hs.meets hE (Meets.bind_right (hloads.returns_above hr hmid habove)
        (Logs.of_loads (logs_search _ _ _ _ _) hE) ?_)
      simp only
      rw [if_neg (by decide), funInfo]
      refine Meets.bind_left (F := E) (meets_stabBinsearch hE (meets_searchLoop hE hself))
        fun ⟨lfun, rfun⟩ ↦ ?_
      simp only
      split
      · exact ((Logs.of_loads (logs_stabName _ _ _) hE).bind fun name ↦
          (Logs.of_loads (logs_nValue fun _ _ ↦ trivial) hE).bind fun v ↦
            Logs.of_loads (logs_lineInfo _ _ _ _ _ _ _ _) hE)
      · exact Logs.of_loads (logs_lineInfo _ _ _ _ _ _ _ _) hE

/-- The type of the entry is in none of the ranges that are checked besides the first entry. -/
def Apart (m : Mem) (d : ℕ) (i : ℤ) : Prop :=
  ∀ c ∈ [((record m d).stabstr, (record m d).stabstrEnd - (record m d).stabstr), (USTABDATA, 16)],
    ¬ stabAt (record m d).stabs i + 4 - c.1 < c.2

end

end Debuginfo

end Jos
