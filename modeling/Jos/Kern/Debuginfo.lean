import Jos.Kern.Kdebug
import Jos.Kern.Syscall
import Jos.Lib.Logged

/-!
# Debugging information of an address (`kern/kdebug.c`)

`debuginfo_eip` looks an address up in tables that the user program describes in a record at
`USTABDATA`.  The log tells which ranges `user_mem_check` has found accessible and which bytes are
loaded.

In memory `stab_binsearch` finds what it finds in a table in `Kdebug`, unless a load faults, and it
loads entries of its region only.
-/

namespace Jos

open Lib

def USTABDATA : Word := 0x200000

def N_FUN : Word := 0x24
def N_SLINE : Word := 0x44
def N_SO : Word := 0x64
def N_SOL : Word := 0x84
def N_PSYM : Word := 0xA0

/-- `struct UserStabData`, and the symbols of the linker for the kernel's own tables -/
structure UserStabData where
  stabs : Word
  stabEnd : Word
  stabstr : Word
  stabstrEnd : Word
deriving DecidableEq

/-- `stab_end - stabs`.  The difference of pointers into one array is a multiple of the size of an
entry; C says nothing of other differences, which are rounded here. -/
def UserStabData.entries (u : UserStabData) : ℤ := (u.stabEnd - u.stabs).toInt.tdiv 12

/-- A `char *` in `struct Eipdebuginfo`: the constant `"<unknown>"`, or an address. -/
inductive Name where
  | unknown
  | at (p : Word)

structure Eipdebuginfo where
  eipFile : Name
  eipLine : BitVec 16
  eipFnName : Name
  eipFnNamelen : ℤ
  eipFnAddr : Word
  eipFnNarg : ℕ

inductive DebugEv where
  /-- `user_mem_check` returned 0 for `len` bytes from `va` on. -/
  | checked (va len : Word)
  /-- The byte at `a` is loaded. -/
  | load (a : Word)

abbrev Debug := Logged DebugEv

namespace Debuginfo

variable (B : Machine) (m : Mem) (d : ℕ)

/-- `user_mem_check(curenv, va, len, PTE_U) == 0` -/
def check (va len : Word) : Debug Bool :=
  match userMemCheck B m d va len PTE_U with
  | none => failure
  | some none => do
      modify (.checked va len :: ·)
      return true
  | some (some _) => return false

/-- Load a byte.  A page fault in the kernel is a panic. -/
def load (a : Word) : Debug (BitVec 8) := do
  modify (.load a :: ·)
  match m.loadByte d a with
  | some b => return b
  | none => failure

def loadHalf (a : Word) : Debug (BitVec 16) := do
  let lo ← load m d a
  let hi ← load m d (a + 1)
  return hi ++ lo

def loadWord (a : Word) : Debug Word := do
  let lo ← loadHalf m d a
  let hi ← loadHalf m d (a + 2)
  return hi ++ lo

/-! ## The table -/

/-- `&stabs[i]` -/
def stabAt (stabs : Word) (i : ℤ) : Word := stabs + 12 * BitVec.ofInt 32 i

def nStrx (stabs : Word) (i : ℤ) : Debug Word := loadWord m d (stabAt stabs i)

/-- `stabs[i].n_type`, as an `int` -/
def nType (stabs : Word) (i : ℤ) : Debug Word := do
  return (← load m d (stabAt stabs i + 4)).setWidth 32

def nDesc (stabs : Word) (i : ℤ) : Debug (BitVec 16) := loadHalf m d (stabAt stabs i + 6)

def nValue (stabs : Word) (i : ℤ) : Debug Word := loadWord m d (stabAt stabs i + 8)

/-- `while (m >= l && stabs[m].n_type != type) m--;` -/
def scan (stabs type : Word) (l k : ℤ) : Debug ℤ :=
  if l ≤ k then do
    if (← nType m d stabs k) ≠ type then scan stabs type l (k - 1) else return k
  else return k
termination_by (k - l + 1).toNat

/-- A round of the loop of `stab_binsearch`. -/
def probe (stabs type : Word) (s : Search) : Debug Search := do
  let trueM := middle s.l s.r
  let k ← scan m d stabs type s.l trueM
  if k < s.l then return { s with l := trueM + 1 }
  else if (← nValue m d stabs k) < s.addr then
    return { s with anyMatches := true, regionLeft := k, l := trueM + 1 }
  else if s.addr < (← nValue m d stabs k) then
    return { s with anyMatches := true, regionRight := k - 1, r := k - 1 }
  else return { s with anyMatches := true, regionLeft := k, l := k, addr := s.addr + 1 }

/-- The loop of `stab_binsearch`, for at most `fuel` rounds. -/
def searchLoop (stabs type : Word) : ℕ → Search → Debug Search
  | 0, s => if s.l ≤ s.r then failure else return s
  | fuel + 1, s =>
      if s.l ≤ s.r then do
        searchLoop stabs type fuel (← probe m d stabs type s)
      else return s

/-- `stab_binsearch`: what it leaves in `*region_left` and `*region_right`. -/
def stabBinsearch (stabs : Word) (regionLeft regionRight : ℤ) (type addr : Word) :
    Debug (ℤ × ℤ) := do
  let s ← searchLoop m d stabs type (2 * (regionRight - regionLeft + 1).toNat + 1)
    ⟨regionLeft, regionRight, false, regionLeft, regionRight, addr⟩
  if s.anyMatches then
    let l ← scan m d stabs type (s.regionLeft + 1) s.regionRight
    return (l, s.regionRight)
  else return (s.regionLeft, s.regionLeft - 1)

/-! ## The lookup -/

/-- `strfind`, for at most `fuel` bytes. -/
def strfind (c : BitVec 8) : ℕ → Word → Debug Word
  | 0, _ => failure
  | fuel + 1, s => do
      let b ← load m d s
      if b = 0 ∨ b = c then return s else strfind c fuel (s + 1)

/-- `strfind(name, ':') - name` -/
def namelen : Name → Debug ℤ
  | .unknown => return 9
  | .at p => do
      let e ← strfind m d 0x3A (2 ^ 32) p
      return (e - p).toInt

/-- A scan backwards comes to its end. -/
theorem scan_decreasing {l k : ℤ} (h : l ≤ k) : (k - 1 - l + 1).toNat < (k - l + 1).toNat := by
  omega

/-- Search backwards from `lline` for the file name. -/
def fileScan (stabs : Word) (lfile lline : ℤ) : Debug ℤ :=
  if lfile ≤ lline then do
    if (← nType m d stabs lline) = N_SOL then return lline
    else if (← nType m d stabs lline) ≠ N_SO then fileScan stabs lfile (lline - 1)
    else if (← nValue m d stabs lline) = 0 then fileScan stabs lfile (lline - 1)
    else return lline
  else return lline
termination_by (lline - lfile + 1).toNat
decreasing_by
  · exact scan_decreasing ‹_›
  · exact scan_decreasing ‹_›

/-- The loop that counts the arguments. -/
def countArgs (stabs : Word) (rfun lline : ℤ) (narg : ℕ) : Debug ℕ :=
  if lline < rfun then do
    if (← nType m d stabs lline) = N_PSYM then countArgs stabs rfun (lline + 1) (narg + 1)
    else return narg
  else return narg
termination_by (rfun - lline).toNat

/-- `stabstr + stabs[i].n_strx`, if that is in the string table, and `old` otherwise -/
def stabName (u : UserStabData) (i : ℤ) (old : Name) : Debug Name := do
  let strx ← nStrx m d u.stabs i
  if strx < u.stabstrEnd - u.stabstr then return .at (u.stabstr + strx) else return old

/-- The part of `debuginfo_eip` after the function is found, or not. -/
def lineInfo (u : UserStabData) (addr : Word) (lfile lfun rfun lline rline : ℤ)
    (info : Eipdebuginfo) : Debug (ℤ × Eipdebuginfo) := do
  let info := { info with eipFnNamelen := ← namelen m d info.eipFnName }
  let (lline, rline) ← stabBinsearch m d u.stabs lline rline N_SLINE addr
  if lline ≤ rline then
    let info := { info with eipLine := ← nDesc m d u.stabs lline }
    let lline ← fileScan m d u.stabs lfile lline
    let file ← if lfile ≤ lline then stabName m d u lline info.eipFile else pure info.eipFile
    let info := { info with eipFile := file }
    if lfun < rfun then
      let narg ← countArgs m d u.stabs rfun (lfun + 1) 0
      return (0, { info with eipFnNarg := narg })
    else return (0, info)
  else return (-1, info)

/-- The part of `debuginfo_eip` after the file is found. -/
def funInfo (u : UserStabData) (addr : Word) (lfile rfile : ℤ) (info : Eipdebuginfo) :
    Debug (ℤ × Eipdebuginfo) := do
  let (lfun, rfun) ← stabBinsearch m d u.stabs lfile rfile N_FUN addr
  if lfun ≤ rfun then
    let name ← stabName m d u lfun info.eipFnName
    let value ← nValue m d u.stabs lfun
    lineInfo m d u (addr - value) lfile lfun rfun lfun rfun
      { info with eipFnName := name, eipFnAddr := value }
  else lineInfo m d u addr lfile lfun rfun lfile rfile { info with eipFnAddr := addr }

/-- The part of `debuginfo_eip` after the tables are found. -/
def tableInfo (u : UserStabData) (addr : Word) (info : Eipdebuginfo) :
    Debug (ℤ × Eipdebuginfo) := do
  if u.stabstrEnd ≤ u.stabstr then return (-1, info)
  else if (← load m d (u.stabstrEnd - 1)) ≠ 0 then return (-1, info)
  else
    let (lfile, rfile) ← stabBinsearch m d u.stabs 0 (u.entries - 1) N_SO addr
    if lfile = 0 then return (-1, info)
    else funInfo m d u addr lfile rfile info

end Debuginfo

namespace Debuginfo

/-! ## Loads -/

/-- Only bytes with `A` are loaded. -/
def Loads (A : Word → Prop) : DebugEv → Prop
  | .checked _ _ => False
  | .load a => A a

/-- The bytes of the entry `i` -/
def InEntry (stabs : Word) (i : ℤ) (a : Word) : Prop := a - stabAt stabs i < 12

section

variable {B : Machine} {m : Mem} {d : ℕ} {A : Word → Prop} {a stabs type : Word} {l k i : ℤ}

theorem run_load (m : Mem) (d : ℕ) (a : Word) (L : List DebugEv) :
    (load m d a).run L = (m.loadByte d a, .load a :: L) := by
  rw [load, run_bind]
  cases h : m.loadByte d a with
  | none => rfl
  | some b => rfl

theorem logs_load (h : A a) : Logs (Loads A) (load m d a) := by
  intro L
  refine ⟨[.load a], by rw [run_load]; rfl, ?_⟩
  rintro e he
  obtain rfl := List.mem_singleton.mp he
  exact h

theorem logs_loadHalf (h : A a) (h1 : A (a + 1)) : Logs (Loads A) (loadHalf m d a) :=
  (logs_load h).bind fun _ ↦ (logs_load h1).bind fun _ ↦ Logs.pure _

theorem logs_loadWord (h : ∀ k < 4, A (a + BitVec.ofNat 32 k)) :
    Logs (Loads A) (loadWord m d a) := by
  have h0 : A a := by simpa using h 0 (by decide)
  have h3 : A (a + 2 + 1) := by
    rw [BitVec.add_assoc]
    exact h 3 (by decide)
  exact (logs_loadHalf h0 (h 1 (by decide))).bind fun _ ↦
    (logs_loadHalf (h 2 (by decide)) h3).bind fun _ ↦ Logs.pure _

theorem inEntry_add {n : Word} (h : n < 12) : InEntry stabs i (stabAt stabs i + n) := by
  rw [InEntry, BitVec.add_comm, BitVec.add_sub_cancel]
  exact h

theorem logs_nType (h : ∀ a, InEntry stabs i a → A a) : Logs (Loads A) (nType m d stabs i) :=
  (logs_load (h _ (inEntry_add (by decide)))).bind fun _ ↦ Logs.pure _

theorem logs_nDesc (h : ∀ a, InEntry stabs i a → A a) : Logs (Loads A) (nDesc m d stabs i) := by
  refine logs_loadHalf (h _ (inEntry_add (by decide))) (h _ ?_)
  rw [BitVec.add_assoc]
  exact inEntry_add (by decide)

theorem logs_nValue (h : ∀ a, InEntry stabs i a → A a) : Logs (Loads A) (nValue m d stabs i) := by
  refine logs_loadWord fun k hk ↦ h _ ?_
  rw [BitVec.add_assoc]
  exact inEntry_add (by bv_omega)

theorem logs_nStrx (h : ∀ a, InEntry stabs i a → A a) : Logs (Loads A) (nStrx m d stabs i) :=
  logs_loadWord fun k hk ↦ h _ (inEntry_add (by bv_omega))

/-- The scan loads entries that it goes past only. -/
theorem logs_scan (h : ∀ i, l ≤ i → i ≤ k → ∀ a, InEntry stabs i a → A a) :
    Logs (Loads A) (scan m d stabs type l k) := by
  fun_induction scan m d stabs type l k with
  | case1 k hk ih =>
      refine (logs_nType (h k hk le_rfl)).bind fun t ↦ ?_
      split
      · exact ih fun i hi hik ↦ h i hi (by omega)
      · exact Logs.pure k
  | case2 k hk => exact Logs.pure k

end

/-! ## The search -/

/-- The byte at `a`, if it can be loaded -/
def byteAt (m : Mem) (d : ℕ) (a : Word) : BitVec 8 := (m.loadByte d a).getD 0

def halfAt (m : Mem) (d : ℕ) (a : Word) : BitVec 16 := byteAt m d (a + 1) ++ byteAt m d a

def wordAt (m : Mem) (d : ℕ) (a : Word) : Word := halfAt m d (a + 2) ++ halfAt m d a

/-- What the search sees in the table -/
def table (m : Mem) (d : ℕ) (stabs : Word) (i : ℤ) : Stab :=
  ⟨byteAt m d (stabAt stabs i + 4), wordAt m d (stabAt stabs i + 8)⟩

/-- The last load is a page fault. -/
def Faulted (m : Mem) (d : ℕ) (L : List DebugEv) : Prop :=
  ∃ a pre, L = .load a :: pre ∧ m.loadByte d a = none

section

variable {m : Mem} {d : ℕ} {A : Word → Prop} {a stabs type addr : Word} {l r k : ℤ} {s : Search}
  {fuel : ℕ}

theorem yields_load_some : Yields (fun b ↦ m.loadByte d a = some b) (load m d a) := by
  intro L b L' hrun
  rw [run_load] at hrun
  exact (Prod.mk.inj hrun).1

theorem yields_load : Yields (· = byteAt m d a) (load m d a) :=
  yields_load_some.imp fun b hb ↦ by rw [byteAt, hb, Option.getD_some]

theorem yields_loadHalf : Yields (· = halfAt m d a) (loadHalf m d a) :=
  yields_load.bind fun lo hlo ↦ yields_load.bind fun hi hhi ↦ Yields.pure (by rw [hlo, hhi, halfAt])

theorem yields_loadWord : Yields (· = wordAt m d a) (loadWord m d a) :=
  yields_loadHalf.bind fun lo hlo ↦ yields_loadHalf.bind fun hi hhi ↦
    Yields.pure (by rw [hlo, hhi, wordAt])

theorem yields_nType : Yields (· = (table m d stabs k).nType.setWidth 32) (nType m d stabs k) :=
  yields_load.bind fun b hb ↦ Yields.pure (by rw [hb, table])

theorem yields_nValue : Yields (· = (table m d stabs k).nValue) (nValue m d stabs k) :=
  yields_loadWord

theorem yields_scan :
    Yields (· = scanBack (table m d stabs) type l k) (scan m d stabs type l k) := by
  fun_induction scan m d stabs type l k with
  | case1 k hk ih =>
      refine yields_nType.bind fun t ht ↦ ?_
      split
      · next hne =>
          have hback : scanBack (table m d stabs) type l k =
              scanBack (table m d stabs) type l (k - 1) := by
            rw [scanBack, if_pos ⟨hk, fun hc ↦ hne (ht.trans hc)⟩]
          rw [hback]
          exact ih
      · next heq =>
          have hback : scanBack (table m d stabs) type l k = k := by
            rw [scanBack, if_neg fun hc ↦ hc.2 (ht.symm.trans (not_not.mp heq))]
          exact Yields.pure hback.symm
  | case2 k hk =>
      rw [scanBack_of_lt (not_le.mp hk)]
      exact Yields.pure rfl

theorem yields_probe :
    Yields (· = s.probe (table m d stabs) type) (probe m d stabs type s) := by
  refine yields_scan.bind fun k hk ↦ ?_
  rw [Search.probe, ← hk]
  split
  · exact Yields.pure rfl
  · refine yields_nValue.bind fun v hv ↦ ?_
    rw [hv]
    split
    · exact Yields.pure rfl
    · refine yields_nValue.bind fun v hv ↦ ?_
      rw [hv]
      split
      · exact Yields.pure rfl
      · exact Yields.pure rfl

theorem yields_searchLoop :
    Yields (· = s.loop (table m d stabs) type) (searchLoop m d stabs type fuel s) := by
  induction fuel generalizing s with
  | zero =>
      rw [searchLoop, Search.loop]
      split
      · exact Yields.failure
      · exact Yields.pure rfl
  | succ fuel ih =>
      rw [searchLoop, Search.loop]
      split
      · refine yields_probe.bind fun s' hs' ↦ ?_
        rw [hs']
        exact ih
      · exact Yields.pure rfl

/-- The result of the search is that of `Jos.stabBinsearch` on the table. -/
theorem yields_stabBinsearch : Yields (· = Jos.stabBinsearch (table m d stabs) l r type addr)
    (stabBinsearch m d stabs l r type addr) := by
  refine yields_searchLoop.bind fun s hs ↦ ?_
  rw [Jos.stabBinsearch, ← hs]
  split
  · refine yields_scan.bind fun k hk ↦ Yields.pure ?_
    rw [hk]
  · exact Yields.pure rfl

theorem fails_load : Fails (Faulted m d) (load m d a) := by
  intro L L' hrun
  rw [run_load] at hrun
  exact ⟨a, L, (Prod.mk.inj hrun).2.symm, (Prod.mk.inj hrun).1⟩

theorem fails_loadHalf : Fails (Faulted m d) (loadHalf m d a) :=
  fails_load.bind fun _ ↦ fails_load.bind fun _ ↦ Fails.pure _

theorem fails_loadWord : Fails (Faulted m d) (loadWord m d a) :=
  fails_loadHalf.bind fun _ ↦ fails_loadHalf.bind fun _ ↦ Fails.pure _

theorem fails_scan : Fails (Faulted m d) (scan m d stabs type l k) := by
  fun_induction scan m d stabs type l k with
  | case1 k hk ih =>
      refine (fails_load.bind fun _ ↦ Fails.pure _).bind fun t ↦ ?_
      split
      · exact ih
      · exact Fails.pure k
  | case2 k hk => exact Fails.pure k

theorem fails_probe : Fails (Faulted m d) (probe m d stabs type s) := by
  refine fails_scan.bind fun k ↦ ?_
  split
  · exact Fails.pure _
  · refine fails_loadWord.bind fun v ↦ ?_
    split
    · exact Fails.pure _
    · refine fails_loadWord.bind fun v ↦ ?_
      split
      · exact Fails.pure _
      · exact Fails.pure _

/-- The rounds are enough. -/
theorem fails_searchLoop (h : s.rounds (table m d stabs) ≤ fuel) :
    Fails (Faulted m d) (searchLoop m d stabs type fuel s) := by
  induction fuel generalizing s with
  | zero =>
      have hlt : ¬ s.l ≤ s.r := by
        rw [Search.rounds] at h
        omega
      rw [searchLoop, if_neg hlt]
      exact Fails.pure s
  | succ fuel ih =>
      rw [searchLoop]
      split
      · next hlr =>
          refine fails_probe.bind_of yields_probe fun s' hs' ↦ ih ?_
          have hlt := Search.rounds_lt (@Search.probed (table m d stabs) type s) hlr
          rw [hs']
          omega
      · exact Fails.pure s

theorem fails_stabBinsearch : Fails (Faulted m d) (stabBinsearch m d stabs l r type addr) := by
  refine (fails_searchLoop ?_).bind fun s ↦ ?_
  · rw [Search.rounds]
    split <;> simp only <;> omega
  · split
    · exact fails_scan.bind fun _ ↦ Fails.pure _
    · exact Fails.pure _

/-- The search in memory is `Jos.stabBinsearch` on the table, unless a load faults. -/
theorem stabBinsearch_refines (L : List DebugEv) :
    ((stabBinsearch m d stabs l r type addr).run L).1 =
        some (Jos.stabBinsearch (table m d stabs) l r type addr) ∨
      Faulted m d ((stabBinsearch m d stabs l r type addr).run L).2 := by
  cases h : (stabBinsearch m d stabs l r type addr).run L with
  | mk o L' =>
      cases o with
      | none => exact .inr (fails_stabBinsearch L L' h)
      | some x => exact .inl (congrArg some (yields_stabBinsearch L x L' h))

/-! ## The region -/

/-- The search stays in the region. -/
structure InRegion (L R : ℤ) (s : Search) : Prop where
  le_l : L ≤ s.l
  r_le : s.r ≤ R
  left : L ≤ s.regionLeft
  right : s.regionRight ≤ R

theorem InRegion.probed {t : ℤ → Stab} {s' : Search} (h : InRegion l r s) (hlr : s.l ≤ s.r)
    (hp : Probed t type s s') : InRegion l r s' := by
  obtain ⟨hl, hr, hleft, hright⟩ := h
  obtain ⟨h1, h2⟩ := middle_mem hlr
  cases hp with
  | none => exact ⟨by simp only; omega, hr, hleft, hright⟩
  | @below k ge le => exact ⟨by simp only; omega, hr, by simp only; omega, hright⟩
  | @above k ge le => exact ⟨hl, by simp only; omega, hleft, by simp only; omega⟩
  | @found k ge le => exact ⟨by simp only; omega, hr, by simp only; omega, hright⟩

theorem logs_probe (h : ∀ i, s.l ≤ i → i ≤ middle s.l s.r → ∀ a, InEntry stabs i a → A a) :
    Logs (Loads A) (probe m d stabs type s) := by
  refine (logs_scan h).bind_of yields_scan fun k hk ↦ ?_
  have hle := scanBack_le (table m d stabs) type s.l (middle s.l s.r)
  rw [← hk] at hle
  split
  · exact Logs.pure _
  · next hge =>
      have hentry := h k (not_lt.mp hge) hle
      refine (logs_nValue hentry).bind fun v ↦ ?_
      split
      · exact Logs.pure _
      · refine (logs_nValue hentry).bind fun v ↦ ?_
        split
        · exact Logs.pure _
        · exact Logs.pure _

theorem logs_searchLoop (h : ∀ i, l ≤ i → i ≤ r → ∀ a, InEntry stabs i a → A a)
    (hs : InRegion l r s) : Logs (Loads A) (searchLoop m d stabs type fuel s) := by
  induction fuel generalizing s with
  | zero =>
      rw [searchLoop]
      split
      · exact Logs.failure
      · exact Logs.pure s
  | succ fuel ih =>
      rw [searchLoop]
      split
      · next hlr =>
          have hmid := middle_mem hlr
          have hl := hs.le_l
          have hr := hs.r_le
          refine (logs_probe fun i hi him ↦ h i (by omega) (by omega)).bind_of yields_probe
            fun s' hs' ↦ ih ?_
          rw [hs']
          exact hs.probed hlr s.probed
      · exact Logs.pure s

theorem logs_stabBinsearch (h : ∀ i, l ≤ i → i ≤ r → ∀ a, InEntry stabs i a → A a) :
    Logs (Loads A) (stabBinsearch m d stabs l r type addr) := by
  have hinit : InRegion l r ⟨l, r, false, l, r, addr⟩ := ⟨le_rfl, le_rfl, le_rfl, le_rfl⟩
  refine (logs_searchLoop h hinit).bind_of yields_searchLoop fun s hs ↦ ?_
  obtain ⟨-, -, hleft, hright⟩ : InRegion l r s :=
    hs ▸ (Search.loop_inv (fun _ _ hs hlr ↦ hs.probed hlr) hinit).1
  split
  · exact (logs_scan fun i hi hik ↦ h i (by omega) (by omega)).bind fun _ ↦ Logs.pure _
  · exact Logs.pure _

theorem Logs.of_loads {α : Type} {x : Debug α} {E : DebugEv → Prop} (hx : Logs (Loads A) x)
    (hE : ∀ a, E (.load a)) : Logs E x := by
  refine hx.imp fun e he ↦ ?_
  cases e with
  | checked va len => exact he.elim
  | load a => exact hE a

theorem meets_scan {E : DebugEv → Prop} (hE : ∀ a, E (.load a)) (hlk : l ≤ k) :
    Meets E (scan m d stabs type l k) (.load (stabAt stabs k + 4)) := by
  rw [scan, if_pos hlk]
  refine Meets.bind_left (F := E) (Meets.bind_left (F := E) (fun L ↦ ⟨[], [], ?_, nofun⟩)
    fun _ ↦ Logs.pure _) fun t ↦ ?_
  · rw [run_load]
    rfl
  · split
    · exact Logs.of_loads (logs_scan fun _ _ _ _ _ ↦ trivial) hE
    · exact Logs.pure _

/-- The first load of a round is in the middle of the region. -/
theorem meets_searchLoop {E : DebugEv → Prop} (hE : ∀ a, E (.load a)) (hlr : s.l ≤ s.r) :
    Meets E (searchLoop m d stabs type (fuel + 1) s)
      (.load (stabAt stabs (middle s.l s.r) + 4)) := by
  rw [searchLoop, if_pos hlr]
  refine Meets.bind_left (F := E) (Meets.bind_left (F := E) (meets_scan hE (middle_mem hlr).1)
    fun k ↦ ?_) fun s' ↦ ?_
  · split
    · exact Logs.pure _
    · refine (Logs.of_loads (logs_nValue fun _ _ ↦ trivial) hE).bind fun v ↦ ?_
      split
      · exact Logs.pure _
      · refine (Logs.of_loads (logs_nValue fun _ _ ↦ trivial) hE).bind fun v ↦ ?_
        split
        · exact Logs.pure _
        · exact Logs.pure _
  · exact Logs.of_loads (logs_searchLoop (l := min s'.l s'.regionLeft)
      (r := max s'.r s'.regionRight) (fun _ _ _ _ _ ↦ trivial)
      ⟨by omega, by omega, by omega, by omega⟩) hE

theorem meets_searchLoop_succ {E : DebugEv → Prop} {s' : Search} {e : DebugEv}
    (hE : ∀ a, E (.load a)) (hlr : s.l ≤ s.r) (hs : Returns (probe m d stabs type s) s')
    (h : Meets E (searchLoop m d stabs type fuel s') e) :
    Meets E (searchLoop m d stabs type (fuel + 1) s) e := by
  rw [searchLoop, if_pos hlr]
  exact Meets.bind_right hs (Logs.of_loads (logs_probe fun _ _ _ _ _ ↦ trivial) hE) h

theorem meets_stabBinsearch {E : DebugEv → Prop} {e : DebugEv} (hE : ∀ a, E (.load a))
    (h : Meets E (searchLoop m d stabs type (2 * (r - l + 1).toNat + 1) ⟨l, r, false, l, r, addr⟩)
      e) : Meets E (stabBinsearch m d stabs l r type addr) e := by
  refine h.bind_left (F := E) fun s ↦ ?_
  split
  · exact (Logs.of_loads (logs_scan fun _ _ _ _ _ ↦ trivial) hE).bind fun _ ↦ Logs.pure _
  · exact Logs.pure _

end

end Debuginfo

end Jos
