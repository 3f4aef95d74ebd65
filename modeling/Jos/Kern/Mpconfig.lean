import Jos.Kern.Trap

/-!
# The multiprocessor configuration table (`kern/mpconfig.c`)

The firmware leaves a table of the processors in memory.  `mpconfig` checks its sums, but the number
of entries is not related to the length, and `mp_init` reads as many entries as the table says.  A
processor beyond the eighth is not recorded; but if it is the bootstrap processor, `bootcpu` points
behind the array, and its status is written there.

An address is physical: the kernel reads it through its window.  `mp_init` logs the offsets of the
table that it reads and the records that it writes.
-/

namespace Jos.Mpconfig

def MPPROC_BOOT : BitVec 8 := 0x02
def CPU_STARTED : Word := 1

/-- Physical memory. -/
abbrev Phys := ℕ → BitVec 8

def Phys.u16 (rd : Phys) (a : ℕ) : ℕ := (rd a).toNat + 256 * (rd (a + 1)).toNat

def Phys.u32 (rd : Phys) (a : ℕ) : Word :=
  BitVec.ofNat 32 (rd.u16 a + 65536 * rd.u16 (a + 2))

/-- `sum(a, len)` -/
def sum (rd : Phys) (a len : ℕ) : BitVec 8 :=
  (List.range len).foldl (fun s i ↦ s + rd (a + i)) 0

/-- `memcmp(a, s, 4) == 0`, for a signature -/
def signed (rd : Phys) (a : ℕ) (s : List (BitVec 8)) : Bool :=
  (List.range s.length).all fun i ↦ s[i]? = some (rd (a + i))

def sigMp : List (BitVec 8) := [0x5F, 0x4D, 0x50, 0x5F]
def sigPcmp : List (BitVec 8) := [0x50, 0x43, 0x4D, 0x50]

section

variable (npages : ℕ) (rd : Phys)

/-- `KADDR(pa)`; `none` is the panic. -/
def kaddrPhys (pa : Word) : Option ℕ := if npages ≤ pgnum pa then none else some pa.toNat

/-- `mpsearch1`: the first of the structures of 16 bytes with the signature and a sum of 0. -/
def mpsearch1 (a : Word) (len : ℕ) : Option (Option ℕ) := do
  let mp ← kaddrPhys npages a
  let fin ← kaddrPhys npages (a + BitVec.ofNat 32 len)
  let i := (List.range ((fin - mp + 15) / 16)).find? fun i ↦
    signed rd (mp + 16 * i) sigMp && sum rd (mp + 16 * i) 16 == 0
  return i.map fun i ↦ mp + 16 * i

/-- `mpsearch` -/
def mpsearch : Option (Option ℕ) := do
  let bda ← kaddrPhys npages 0x400
  let p := BitVec.ofNat 32 (rd.u16 (bda + 0x0E))
  let mp ←
    if p ≠ 0 then mpsearch1 npages rd (p <<< 4) 1024
    else mpsearch1 npages rd (BitVec.ofNat 32 (rd.u16 (bda + 0x13) * 1024) - 1024) 1024
  match mp with
  | some mp => return some mp
  | none => mpsearch1 npages rd 0xF0000 0x10000

/-- `mpconfig`: the floating pointer and the table, or no table. -/
def mpconfig : Option (Option (ℕ × ℕ)) := do
  match ← mpsearch npages rd with
  | none => return none
  | some mp =>
      if rd.u32 (mp + 4) = 0 ∨ rd (mp + 11) ≠ 0 then return none
      else
        let conf ← kaddrPhys npages (rd.u32 (mp + 4))
        if ¬ signed rd conf sigPcmp then return none
        else if sum rd conf (rd.u16 (conf + 4)) ≠ 0 then return none
        else if rd (conf + 6) ≠ 1 ∧ rd (conf + 6) ≠ 4 then return none
        else if sum rd (conf + rd.u16 (conf + 4)) (rd.u16 (conf + 40)) + rd (conf + 42) ≠ 0 then
          return none
        else return some (mp, conf)

end

/-- `struct CpuInfo`: the fields that `mp_init` writes. -/
structure CpuInfo where
  cpuId : BitVec 8 := 0
  cpuStatus : Word := 0

/-- The variables of `mpconfig.c`, as they are at boot, and the two logs.  `bootcpu` is an index of
`cpus`; the array goes on behind its end. -/
structure Smp where
  cpus : ℕ → CpuInfo := fun _ ↦ {}
  bootcpu : ℕ := 0
  ismp : Bool := false
  ncpu : ℕ := 0
  lapicaddr : Word := 0
  reads : List ℕ := []
  writes : List ℕ := []

namespace Smp

def read (s : Smp) (offs : List ℕ) : Smp := { s with reads := offs ++ s.reads }

/-- Write to the record `cpus[k]`. -/
def modCpu (s : Smp) (k : ℕ) (f : CpuInfo → CpuInfo) : Smp :=
  { s with
    cpus := fun j ↦ if j = k then f (s.cpus k) else s.cpus j
    writes := k :: s.writes }

/-- The test of the boot flag, for the processor entry at offset `p` -/
def markBoot (rd : Phys) (conf p : ℕ) (s : Smp) : Smp :=
  if rd (conf + p + 3) &&& MPPROC_BOOT ≠ 0 then { s with bootcpu := s.ncpu } else s

/-- The recording of the processor, or the message with `proc->apicid` -/
def record (p : ℕ) (s : Smp) : Smp :=
  if s.ncpu < NCPU then
    { s.modCpu s.ncpu fun c ↦ { c with cpuId := BitVec.ofNat 8 s.ncpu } with ncpu := s.ncpu + 1 }
  else s.read [p + 1]

/-- A processor entry at offset `p`. -/
def proc (rd : Phys) (conf p : ℕ) (s : Smp) : Smp :=
  ((s.read [p + 3]).markBoot rd conf p).record p

end Smp

/-- The loop of `mp_init`, with `n` rounds to go.  `conf->entry` is read in every round. -/
def entryLoop (rd : Phys) (conf : ℕ) : ℕ → ℕ → Smp → Smp
  | 0, _, s => s.read [34, 35]
  | n + 1, p, s =>
      let s := s.read [34, 35, p]
      if rd (conf + p) = 0 then entryLoop rd conf n (p + 20) (s.proc rd conf p)
      else if rd (conf + p) ≤ 4 then entryLoop rd conf n (p + 8) s
      -- an entry of unknown type ends the loop
      else ({ s with ismp := false } : Smp).read [34, 35, p]

/-- `mp_init`; `none` is a panic. -/
def mpInit (npages : ℕ) (rd : Phys) : Option Smp := do
  match ← mpconfig npages rd with
  | none => return {}
  | some (_, conf) =>
      let s : Smp := { ismp := true, lapicaddr := rd.u32 (conf + 36), reads := [36, 37, 38, 39] }
      let s := entryLoop rd conf (rd.u16 (conf + 34)) 44 s
      let s := s.modCpu s.bootcpu fun c ↦ { c with cpuStatus := CPU_STARTED }
      if s.ismp then return s
      else return { s with ncpu := 1, lapicaddr := 0 }

/-! ## What it reads and writes -/

section

variable {rd : Phys} {conf len n p : ℕ} {s : Smp}

/-- The offsets of the entries that are looked at: up to the first one of unknown type. -/
def entries (rd : Phys) (conf : ℕ) : ℕ → ℕ → List ℕ
  | 0, _ => []
  | n + 1, p => p ::
      if rd (conf + p) = 0 then entries rd conf n (p + 20)
      else if rd (conf + p) ≤ 4 then entries rd conf n (p + 8)
      else []

/-- The processors among them. -/
def procs (rd : Phys) (conf n p : ℕ) : List ℕ :=
  (entries rd conf n p).filter fun q ↦ rd (conf + q) = 0

/-- The part of the entry at `q` that is read lies within the length `len`. -/
def EntryFits (rd : Phys) (conf len q : ℕ) : Prop :=
  q < len ∧ (rd (conf + q) = 0 → q + 3 < len)

/-- The entry at `q` is the one of the bootstrap processor. -/
def IsBoot (rd : Phys) (conf q : ℕ) : Prop := rd (conf + q + 3) &&& MPPROC_BOOT ≠ 0

/-- The offsets that were read are below `len`. -/
def Smp.ReadsBelow (len : ℕ) (s : Smp) : Prop := ∀ o ∈ s.reads, o < len

theorem Smp.readsBelow_read {offs : List ℕ} :
    (s.read offs).ReadsBelow len ↔ (∀ o ∈ offs, o < len) ∧ s.ReadsBelow len :=
  List.forall_mem_append

theorem Smp.markBoot_eq (h : IsBoot rd conf p) :
    s.markBoot rd conf p = { s with bootcpu := s.ncpu } := if_pos h

theorem Smp.markBoot_of_not (h : ¬ IsBoot rd conf p) : s.markBoot rd conf p = s := if_neg h

@[simp]
theorem Smp.markBoot_ncpu : (s.markBoot rd conf p).ncpu = s.ncpu := by
  unfold markBoot; split <;> rfl

@[simp]
theorem Smp.markBoot_reads : (s.markBoot rd conf p).reads = s.reads := by
  unfold markBoot; split <;> rfl

@[simp]
theorem Smp.markBoot_writes : (s.markBoot rd conf p).writes = s.writes := by
  unfold markBoot; split <;> rfl

@[simp]
theorem Smp.record_bootcpu : (s.record p).bootcpu = s.bootcpu := by
  unfold record; split <;> rfl

theorem Smp.record_of_lt (h : s.ncpu < NCPU) : s.record p =
    { s.modCpu s.ncpu fun c ↦ { c with cpuId := BitVec.ofNat 8 s.ncpu } with
      ncpu := s.ncpu + 1 } := if_pos h

theorem Smp.record_of_not_lt (h : ¬ s.ncpu < NCPU) : s.record p = s.read [p + 1] := if_neg h

theorem Smp.readsBelow_proc :
    (s.proc rd conf p).ReadsBelow len ↔ s.ReadsBelow len ∧ p + 3 < len := by
  have hmark : ((s.read [p + 3]).markBoot rd conf p).ReadsBelow len ↔
      s.ReadsBelow len ∧ p + 3 < len := by
    rw [ReadsBelow, Smp.markBoot_reads]
    simp [read, ReadsBelow, and_comm]
  by_cases hlt : ((s.read [p + 3]).markBoot rd conf p).ncpu < NCPU
  · rw [proc, record_of_lt hlt]
    exact hmark
  · rw [proc, record_of_not_lt hlt, readsBelow_read, hmark]
    simp only [List.forall_mem_cons, List.not_mem_nil, false_implies, implies_true, and_true]
    constructor
    · exact fun h ↦ h.2
    · exact fun h ↦ ⟨by omega, h⟩

/-- The loop reads below `len` if the head of the table and its entries are there. -/
theorem readsBelow_entryLoop : (entryLoop rd conf n p s).ReadsBelow len ↔
    s.ReadsBelow len ∧ 35 < len ∧ ∀ q ∈ entries rd conf n p, EntryFits rd conf len q := by
  induction n generalizing p s with
  | zero =>
      rw [entryLoop, Smp.readsBelow_read, entries]
      simp only [List.forall_mem_cons, List.not_mem_nil, false_implies, implies_true, and_true]
      constructor
      · rintro ⟨⟨-, h⟩, hs⟩
        exact ⟨hs, h⟩
      · rintro ⟨hs, h⟩
        exact ⟨⟨by omega, h⟩, hs⟩
  | succ n ih =>
      have hread : (s.read [34, 35, p]).ReadsBelow len ↔
          s.ReadsBelow len ∧ 35 < len ∧ p < len := by
        rw [Smp.readsBelow_read]
        simp only [List.forall_mem_cons, List.not_mem_nil, false_implies, implies_true, and_true]
        constructor
        · rintro ⟨⟨-, h, hp⟩, hs⟩
          exact ⟨hs, h, hp⟩
        · rintro ⟨hs, h, hp⟩
          exact ⟨⟨by omega, h, hp⟩, hs⟩
      rw [entryLoop, entries, List.forall_mem_cons, EntryFits]
      by_cases h0 : rd (conf + p) = 0
      · simp only [h0, if_true, ih, Smp.readsBelow_proc, hread, true_implies]
        tauto
      · by_cases h4 : rd (conf + p) ≤ 4
        · simp only [h0, h4, if_true, if_false, ih, hread, false_implies, and_true]
          tauto
        · have hlast : (({ s.read [34, 35, p] with ismp := false } : Smp).read
              [34, 35, p]).ReadsBelow len ↔ s.ReadsBelow len ∧ 35 < len ∧ p < len := by
            rw [Smp.readsBelow_read]
            refine (and_congr_right fun _ ↦ hread).trans ?_
            simp only [List.forall_mem_cons, List.not_mem_nil, false_implies, implies_true,
              and_true]
            constructor
            · exact fun h ↦ h.2
            · rintro ⟨hs, h, hp⟩
              exact ⟨⟨by omega, h, hp⟩, hs, h, hp⟩
          simp only [h0, h4, if_false, false_implies, and_true, List.not_mem_nil, implies_true]
          exact hlast

/-- Only records of the array are written while the entries are read. -/
structure Smp.Recorded (s : Smp) : Prop where
  ncpu_le : s.ncpu ≤ NCPU
  writes_lt : ∀ k ∈ s.writes, k < NCPU

theorem Smp.Recorded.proc (hs : s.Recorded) : (s.proc rd conf p).Recorded := by
  unfold Smp.proc
  by_cases hlt : ((s.read [p + 3]).markBoot rd conf p).ncpu < NCPU
  · rw [record_of_lt hlt]
    refine ⟨hlt, ?_⟩
    intro k hk
    rcases List.mem_cons.1 hk with rfl | hk
    · exact hlt
    · rw [markBoot_writes] at hk
      exact hs.writes_lt k hk
  · rw [record_of_not_lt hlt]
    constructor
    · simpa [read] using hs.ncpu_le
    · simpa [read] using hs.writes_lt

/-- The loop keeps what its reads, the entries of processors and the end at an entry of unknown type
keep. -/
theorem entryLoop_keeps {P : Smp → Prop} (hread : ∀ s qs, P s → P (s.read qs))
    (hproc : ∀ s p, P s → P (s.proc rd conf p)) (hend : ∀ s, P s → P { s with ismp := false })
    (hs : P s) : P (entryLoop rd conf n p s) := by
  induction n generalizing p s with
  | zero => exact hread _ _ hs
  | succ n ih =>
      rw [entryLoop]
      split
      · exact ih (hproc _ _ (hread _ _ hs))
      · split
        · exact ih (hread _ _ hs)
        · exact hread _ _ (hend _ (hread _ _ hs))

theorem Smp.Recorded.entryLoop (hs : s.Recorded) : (entryLoop rd conf n p s).Recorded :=
  entryLoop_keeps (fun _ _ h ↦ ⟨h.ncpu_le, h.writes_lt⟩) (fun _ _ h ↦ h.proc)
    (fun _ h ↦ ⟨h.ncpu_le, h.writes_lt⟩) hs

/-- A ninth processor moves `bootcpu` behind the array, and nothing moves it back. -/
theorem Smp.proc_of_full (rd : Phys) (conf p : ℕ) (hfull : s.ncpu = NCPU) :
    (s.proc rd conf p).ncpu = NCPU ∧
      ((s.proc rd conf p).bootcpu < NCPU ↔ s.bootcpu < NCPU ∧ ¬ IsBoot rd conf p) := by
  have hlt : ¬ ((s.read [p + 3]).markBoot rd conf p).ncpu < NCPU := by
    rw [markBoot_ncpu]
    exact fun h ↦ absurd hfull (Nat.ne_of_lt h)
  rw [proc, record_of_not_lt hlt]
  by_cases hboot : IsBoot rd conf p
  · rw [markBoot_eq hboot]
    exact ⟨hfull, by simp [read, hfull, hboot]⟩
  · rw [markBoot_of_not hboot]
    exact ⟨hfull, by simp [read, hboot]⟩

theorem Smp.proc_of_lt (rd : Phys) (conf p : ℕ) (hlt : s.ncpu < NCPU) :
    (s.proc rd conf p).ncpu = s.ncpu + 1 ∧
      (s.bootcpu < NCPU → (s.proc rd conf p).bootcpu < NCPU) := by
  have hlt' : ((s.read [p + 3]).markBoot rd conf p).ncpu < NCPU := by
    rw [markBoot_ncpu]
    exact hlt
  rw [proc, record_of_lt hlt']
  by_cases hboot : IsBoot rd conf p
  · rw [markBoot_eq hboot]
    exact ⟨rfl, fun _ ↦ hlt⟩
  · rw [markBoot_of_not hboot]
    exact ⟨rfl, id⟩

/-- `bootcpu` stays in the array if no processor beyond the eighth is the bootstrap processor. -/
theorem bootcpu_entryLoop (hn : s.ncpu ≤ NCPU) (hb : s.bootcpu < NCPU ∨ s.ncpu = NCPU) :
    (entryLoop rd conf n p s).bootcpu < NCPU ↔ s.bootcpu < NCPU ∧
      ∀ q ∈ (procs rd conf n p).drop (NCPU - s.ncpu), ¬ IsBoot rd conf q := by
  induction n generalizing p s with
  | zero => simp [entryLoop, Smp.read, procs, entries]
  | succ n ih =>
      by_cases h0 : rd (conf + p) = 0
      · have hloop : entryLoop rd conf (n + 1) p s =
            entryLoop rd conf n (p + 20) ((s.read [34, 35, p]).proc rd conf p) := if_pos h0
        have hprocs : procs rd conf (n + 1) p = p :: procs rd conf n (p + 20) := by
          simp [procs, entries, h0]
        rw [hloop, hprocs]
        rcases Nat.lt_or_eq_of_le hn with hlt | hfull
        · obtain ⟨hcpu, hkeep⟩ :=
            Smp.proc_of_lt rd conf p (s := s.read [34, 35, p]) hlt
          have hboot : s.bootcpu < NCPU := hb.resolve_right (Nat.ne_of_lt hlt)
          have hdrop : NCPU - s.ncpu = NCPU - (s.ncpu + 1) + 1 := by omega
          rw [ih (hcpu ▸ hlt) (.inl (hkeep hboot)), hcpu, hdrop, List.drop_succ_cons]
          exact and_congr_left fun _ ↦ iff_of_true (hkeep hboot) hboot
        · obtain ⟨hcpu, hkeep⟩ :=
            Smp.proc_of_full rd conf p (s := s.read [34, 35, p]) hfull
          rw [ih hcpu.le (.inr hcpu), hkeep, hcpu, hfull, Nat.sub_self, List.drop_zero,
            List.drop_zero, List.forall_mem_cons, and_assoc]
          exact Iff.rfl
      · by_cases h4 : rd (conf + p) ≤ 4
        · have hloop : entryLoop rd conf (n + 1) p s =
              entryLoop rd conf n (p + 8) (s.read [34, 35, p]) :=
            (if_neg h0).trans (if_pos h4)
          have hprocs : procs rd conf (n + 1) p = procs rd conf n (p + 8) := by
            rw [procs, entries, if_neg h0, if_pos h4, List.filter_cons_of_neg (by simpa using h0)]
            rfl
          rw [hloop, hprocs]
          exact ih (s := s.read [34, 35, p]) hn hb
        · have hloop : entryLoop rd conf (n + 1) p s =
              ({ s.read [34, 35, p] with ismp := false } : Smp).read [34, 35, p] :=
            (if_neg h0).trans (if_neg h4)
          have hprocs : procs rd conf (n + 1) p = [] := by
            rw [procs, entries, if_neg h0, if_neg h4, List.filter_cons_of_neg (by simpa using h0)]
            rfl
          rw [hloop, hprocs]
          simp [Smp.read]

/-- The reads are below `len`, and the records that are written, counted and pointed to are in the
array. -/
structure Smp.InBounds (len : ℕ) (s : Smp) : Prop where
  writes_lt : ∀ k ∈ s.writes, k < NCPU
  ncpu_le : s.ncpu ≤ NCPU
  bootcpu_lt : s.bootcpu < NCPU
  reads_lt : s.ReadsBelow len

/-- The fields and the entries lie within the length of the table, and no processor beyond the
eighth is the bootstrap processor. -/
structure Fits (rd : Phys) (conf : ℕ) : Prop where
  head : 40 ≤ rd.u16 (conf + 4)
  entry : ∀ q ∈ entries rd conf (rd.u16 (conf + 34)) 44, EntryFits rd conf (rd.u16 (conf + 4)) q
  boot : ∀ q ∈ (procs rd conf (rd.u16 (conf + 34)) 44).drop NCPU, ¬ IsBoot rd conf q

/-- The state after the loop, for the table at `conf`. -/
def afterEntries (rd : Phys) (conf : ℕ) : Smp :=
  entryLoop rd conf (rd.u16 (conf + 34)) 44
    { ismp := true, lapicaddr := rd.u32 (conf + 36), reads := [36, 37, 38, 39] }

theorem recorded_afterEntries : (afterEntries rd conf).Recorded :=
  .entryLoop ⟨Nat.zero_le _, fun _ hk ↦ absurd hk List.not_mem_nil⟩

theorem readsBelow_afterEntries : (afterEntries rd conf).ReadsBelow len ↔
    40 ≤ len ∧ ∀ q ∈ entries rd conf (rd.u16 (conf + 34)) 44, EntryFits rd conf len q := by
  rw [afterEntries, readsBelow_entryLoop, Smp.ReadsBelow]
  simp only [List.forall_mem_cons, List.not_mem_nil, false_implies, implies_true, and_true]
  constructor
  · rintro ⟨⟨-, -, -, h39⟩, -, hall⟩
    exact ⟨h39, hall⟩
  · rintro ⟨h40, hall⟩
    exact ⟨⟨by omega, by omega, by omega, h40⟩, by omega, hall⟩

theorem bootcpu_afterEntries : (afterEntries rd conf).bootcpu < NCPU ↔
    ∀ q ∈ (procs rd conf (rd.u16 (conf + 34)) 44).drop NCPU, ¬ IsBoot rd conf q := by
  have hpos : 0 < NCPU := by decide
  rw [afterEntries, bootcpu_entryLoop (Nat.zero_le _) (.inl hpos)]
  exact and_iff_right hpos

/-- The run of `mp_init` for a table: only the last steps depend on `ismp`. -/
theorem mpInit_eq {npages mp : ℕ} (h : mpconfig npages rd = some (some (mp, conf))) :
    ∃ s, mpInit npages rd = some s ∧ s.ncpu ≤ NCPU ∧
      s.bootcpu = (afterEntries rd conf).bootcpu ∧ s.reads = (afterEntries rd conf).reads ∧
      s.writes = (afterEntries rd conf).bootcpu :: (afterEntries rd conf).writes := by
  have hinit : mpInit npages rd =
      let s := (afterEntries rd conf).modCpu (afterEntries rd conf).bootcpu
        fun c ↦ { c with cpuStatus := CPU_STARTED }
      if s.ismp then some s else some { s with ncpu := 1, lapicaddr := 0 } := by
    rw [mpInit, h]
    rfl
  rw [hinit]
  dsimp only
  split
  · exact ⟨_, rfl, recorded_afterEntries.ncpu_le, rfl, rfl, rfl⟩
  · exact ⟨_, rfl, (by decide : 1 ≤ NCPU), rfl, rfl, rfl⟩

end

/-- `mp_init` stays in bounds just if the table fits. -/
theorem mp_init_iff {npages mp conf : ℕ} {rd : Phys}
    (h : mpconfig npages rd = some (some (mp, conf))) :
    ∃ s, mpInit npages rd = some s ∧ (s.InBounds (rd.u16 (conf + 4)) ↔ Fits rd conf) := by
  obtain ⟨s, hs, hncpu, hcpu, hreads, hwrites⟩ := mpInit_eq h
  have hbelow : s.ReadsBelow (rd.u16 (conf + 4)) ↔
      (afterEntries rd conf).ReadsBelow (rd.u16 (conf + 4)) := by
    rw [Smp.ReadsBelow, Smp.ReadsBelow, hreads]
  refine ⟨s, hs, ?_⟩
  constructor
  · intro hin
    obtain ⟨h40, hall⟩ := readsBelow_afterEntries.1 (hbelow.1 hin.reads_lt)
    exact ⟨h40, hall, bootcpu_afterEntries.1 (hcpu ▸ hin.bootcpu_lt)⟩
  · intro hfits
    have hlt : (afterEntries rd conf).bootcpu < NCPU := bootcpu_afterEntries.2 hfits.boot
    refine ⟨?_, hncpu, hcpu ▸ hlt, ?_⟩
    · rw [hwrites]
      exact List.forall_mem_cons.2 ⟨hlt, recorded_afterEntries.writes_lt⟩
    · exact hbelow.2 (readsBelow_afterEntries.2 ⟨hfits.head, hfits.entry⟩)

/-- A table of processors with the given flags, with the sum `check`. -/
def confBytes (check : BitVec 8) (flags : List (BitVec 8)) : List (BitVec 8) :=
  sigPcmp ++ [BitVec.ofNat 8 (44 + 20 * flags.length), 0, 4, check] ++ List.replicate 26 0 ++
    [BitVec.ofNat 8 flags.length, 0, 0, 0, 0xE0, 0xFE, 0, 0, 0, 0] ++
    flags.flatMap fun f ↦ [0, 0, 0x14, f] ++ List.replicate 16 0

/-- The floating pointer at the start of the EBDA, with the table at `0x9FD00`. -/
def demoPhys (conf : List (BitVec 8)) : Phys := fun a ↦
  if a = 0x40E then 0xC0
  else if a = 0x40F then 0x9F
  else if a < 0x9FC00 then 0
  else if a < 0x9FD00 then
    (sigMp ++ [0x00, 0xFD, 0x09, 0x00, 1, 4, 0x9A, 0]).getD (a - 0x9FC00) 0
  else conf.getD (a - 0x9FD00) 0

theorem mp_init_iff_demo : ∃ s, mpInit 0x8000 (demoPhys (confBytes 0x97 [2])) = some s ∧
    (s.InBounds ((demoPhys (confBytes 0x97 [2])).u16 (0x9FD00 + 4)) ↔
      Fits (demoPhys (confBytes 0x97 [2])) 0x9FD00) :=
  @mp_init_iff 0x8000 0x9FC00 0x9FD00 (demoPhys (confBytes 0x97 [2])) (by decide +kernel)

/-- The sums of a table of nine processors are right, and the ninth is the bootstrap processor:
`cpus[8]` is written. -/
theorem mp_init_writes_ninth :
    mpconfig 0x8000 (demoPhys (confBytes 0x4F (List.replicate 8 0 ++ [2]))) =
        some (some (0x9FC00, 0x9FD00)) ∧
      ∃ s, mpInit 0x8000 (demoPhys (confBytes 0x4F (List.replicate 8 0 ++ [2]))) = some s ∧
        8 ∈ s.writes ∧ ¬ s.InBounds
          ((demoPhys (confBytes 0x4F (List.replicate 8 0 ++ [2]))).u16 (0x9FD00 + 4)) := by
  have hinit : (mpInit 0x8000 (demoPhys (confBytes 0x4F (List.replicate 8 0 ++ [2])))).map
      (fun s ↦ s.writes.head?) = some (some 8) := by decide +kernel
  obtain ⟨s, hs, hlast⟩ := Option.map_eq_some_iff.1 hinit
  have hmem : 8 ∈ s.writes := List.mem_of_mem_head? hlast
  exact ⟨by decide +kernel, s, hs, hmem, fun hin ↦ absurd (hin.writes_lt 8 hmem) (by decide)⟩

end Jos.Mpconfig
