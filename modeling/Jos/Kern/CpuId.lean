import Jos.Kern.Mpconfig

/-!
# Who is this processor (`kern/mpconfig.c`, `kern/lapic.c`, `kern/init.c`)

`mp_init` numbers the processors in the order of the table and never looks at their APIC ids;
`cpunum` takes the id of the local APIC for the number, and `boot_aps` takes the number for the id.
-/

namespace Jos.Mpconfig

/-- The index of the ID register. -/
def ID : ℕ := 0x0020 / 4

/-- `lapic`, on a processor whose local APIC has the registers `regs`: `lapic_init` maps them
unless `lapicaddr` is 0. -/
def lapic (s : Smp) (regs : ℕ → Word) : Option (ℕ → Word) :=
  if s.lapicaddr = 0 then none else some regs

/-- `cpunum` -/
def cpunum (lapic : Option (ℕ → Word)) : ℕ :=
  match lapic with
  | some lapic => (lapic ID >>> 24).toNat
  | none => 0

/-- `boot_aps`, on the processor `self`: for each processor that is started the index of its stack
in `percpu_kstacks`, and the APIC id that the start-up interrupt is sent to. -/
def bootAps (s : Smp) (self : ℕ) : List (ℕ × BitVec 8) :=
  ((List.range s.ncpu).filter (· ≠ self)).map fun c ↦ (c, (s.cpus c).cpuId)

/-- `proc->apicid`, for the processor entry at offset `p` -/
def apicid (rd : Phys) (conf p : ℕ) : BitVec 8 := rd (conf + p + 1)

/-- The processors that the loop of `mp_init` records, each with the index of its record. -/
def filled (rd : Phys) (conf : ℕ) : ℕ → ℕ → Smp → List (ℕ × ℕ)
  | 0, _, _ => []
  | n + 1, p, s =>
      let s := s.read [34, 35, p]
      if rd (conf + p) = 0 then
        (if s.ncpu < NCPU then [(p, s.ncpu)] else []) ++
          filled rd conf n (p + 20) (s.proc rd conf p)
      else if rd (conf + p) ≤ 4 then filled rd conf n (p + 8) s
      else []

section

variable {rd : Phys} {conf n p : ℕ} {s : Smp}

/-! ## The loop -/

theorem procs_of_proc (h : rd (conf + p) = 0) :
    procs rd conf (n + 1) p = p :: procs rd conf n (p + 20) := by
  simp [procs, entries, h]

theorem procs_of_other (h : rd (conf + p) ≠ 0) (h4 : rd (conf + p) ≤ 4) :
    procs rd conf (n + 1) p = procs rd conf n (p + 8) := by
  rw [procs, entries, if_neg h, if_pos h4, List.filter_cons_of_neg (by simpa using h)]
  rfl

theorem procs_of_unknown (h : rd (conf + p) ≠ 0) (h4 : ¬ rd (conf + p) ≤ 4) :
    procs rd conf (n + 1) p = [] := by
  rw [procs, entries, if_neg h, if_neg h4, List.filter_cons_of_neg (by simpa using h)]
  rfl

/-- If there are records enough, the processors get them one after the other. -/
theorem filled_eq (h : s.ncpu + (procs rd conf n p).length ≤ NCPU) :
    filled rd conf n p s = (procs rd conf n p).zipIdx s.ncpu ∧
      (entryLoop rd conf n p s).ncpu = s.ncpu + (procs rd conf n p).length := by
  induction n generalizing p s with
  | zero => exact ⟨rfl, rfl⟩
  | succ n ih =>
      by_cases h0 : rd (conf + p) = 0
      · rw [procs_of_proc h0, List.length_cons] at h
        have hlt : s.ncpu < NCPU := by omega
        obtain ⟨hcpu, -⟩ := Smp.proc_of_lt rd conf p (s := s.read [34, 35, p]) hlt
        replace hcpu : ((s.read [34, 35, p]).proc rd conf p).ncpu = s.ncpu + 1 := hcpu
        obtain ⟨hfill, hn⟩ := ih (p := p + 20) (s := (s.read [34, 35, p]).proc rd conf p)
          (by rw [hcpu]; omega)
        rw [procs_of_proc h0, List.zipIdx_cons, List.length_cons]
        constructor
        · simp only [filled, h0, if_true]
          rw [if_pos (show (s.read [34, 35, p]).ncpu < NCPU from hlt), hfill, hcpu]
          rfl
        · simp only [entryLoop, h0, if_true]
          rw [hn, hcpu]
          omega
      · by_cases h4 : rd (conf + p) ≤ 4
        · rw [procs_of_other h0 h4] at h ⊢
          simp only [filled, entryLoop, h0, h4, if_true, if_false]
          exact ih (s := s.read [34, 35, p]) h
        · rw [procs_of_unknown h0 h4]
          simp only [filled, entryLoop, h0, h4, if_false]
          exact ⟨rfl, rfl⟩

/-- An entry of unknown type makes the loop give up. -/
theorem ismp_entryLoop : (entryLoop rd conf n p s).ismp = true ↔
    s.ismp = true ∧ ∀ q ∈ entries rd conf n p, rd (conf + q) ≤ 4 := by
  induction n generalizing p s with
  | zero => simp [entryLoop, entries, Smp.read]
  | succ n ih =>
      rw [entries, List.forall_mem_cons]
      by_cases h0 : rd (conf + p) = 0
      · have hproc : ((s.read [34, 35, p]).proc rd conf p).ismp = s.ismp := by
          simp only [Smp.proc, Smp.record, Smp.markBoot]
          split <;> split <;> rfl
        simp only [entryLoop, h0, if_true, ih, hproc]
        exact and_congr_right fun _ ↦ (and_iff_right (by decide)).symm
      · by_cases h4 : rd (conf + p) ≤ 4
        · simp only [entryLoop, h0, h4, if_true, if_false, ih, true_and]
          exact Iff.rfl
        · simp only [entryLoop, h0, h4, if_false, false_and, and_false, iff_false]
          exact Bool.false_ne_true

/-- What the loop leaves of the state, and the record that belongs to an index. -/
structure Smp.Numbered (a : Word) (s : Smp) : Prop where
  lapicaddr : s.lapicaddr = a
  cpuId : ∀ k, (s.cpus k).cpuId = if k < s.ncpu then BitVec.ofNat 8 k else 0

theorem Smp.Numbered.proc {a : Word} (h : s.Numbered a) : (s.proc rd conf p).Numbered a := by
  have hmark : ((s.read [p + 3]).markBoot rd conf p).Numbered a := by
    unfold Smp.markBoot
    split <;> exact ⟨h.lapicaddr, h.cpuId⟩
  unfold Smp.proc
  generalize (s.read [p + 3]).markBoot rd conf p = t at hmark
  by_cases hlt : t.ncpu < NCPU
  · rw [record_of_lt hlt]
    refine ⟨hmark.lapicaddr, fun k ↦ ?_⟩
    show (if k = t.ncpu then _ else t.cpus k : CpuInfo).cpuId = if k < t.ncpu + 1 then _ else _
    by_cases hk : k = t.ncpu
    · rw [if_pos hk, if_pos (by omega), hk]
    · rw [if_neg hk, hmark.cpuId]
      exact if_congr (by omega) rfl rfl
  · rw [record_of_not_lt hlt]
    exact ⟨hmark.lapicaddr, hmark.cpuId⟩

theorem Smp.Numbered.entryLoop {a : Word} (h : s.Numbered a) :
    (entryLoop rd conf n p s).Numbered a :=
  entryLoop_keeps (fun _ _ h ↦ ⟨h.lapicaddr, h.cpuId⟩) (fun _ _ h ↦ h.proc)
    (fun _ h ↦ ⟨h.lapicaddr, h.cpuId⟩) h

/-! ## The result of `mp_init` -/

/-- The processors of the table at `conf`. -/
def listed (rd : Phys) (conf : ℕ) : List ℕ := procs rd conf (rd.u16 (conf + 34)) 44

/-- The table has entries of known types only. -/
def AllKnown (rd : Phys) (conf : ℕ) : Prop :=
  ∀ q ∈ entries rd conf (rd.u16 (conf + 34)) 44, rd (conf + q) ≤ 4

/-- Those that `mp_init` records, with the index of the record. -/
def recorded (rd : Phys) (conf : ℕ) : List (ℕ × ℕ) :=
  filled rd conf (rd.u16 (conf + 34)) 44
    { ismp := true, lapicaddr := rd.u32 (conf + 36), reads := [36, 37, 38, 39] }

/-- The result of `mp_init`, for a table that has no more than eight processors. -/
theorem mpInit_numbered {npages mp : ℕ} (h : mpconfig npages rd = some (some (mp, conf)))
    (hn : (listed rd conf).length ≤ NCPU) :
    recorded rd conf = (listed rd conf).zipIdx ∧ ∃ s, mpInit npages rd = some s ∧
      (∀ k, (s.cpus k).cpuId = if k < (listed rd conf).length then BitVec.ofNat 8 k else 0) ∧
      (AllKnown rd conf → s.ncpu = (listed rd conf).length ∧ s.lapicaddr = rd.u32 (conf + 36)) ∧
      (¬ AllKnown rd conf → s.ncpu = 1 ∧ s.lapicaddr = 0) := by
  let s₀ : Smp := { ismp := true, lapicaddr := rd.u32 (conf + 36), reads := [36, 37, 38, 39] }
  have h₀ : s₀.Numbered (rd.u32 (conf + 36)) := ⟨rfl, fun k ↦ (if_neg k.not_lt_zero).symm⟩
  have hnum : (afterEntries rd conf).Numbered (rd.u32 (conf + 36)) := h₀.entryLoop
  have hcount : s₀.ncpu + (listed rd conf).length ≤ NCPU := by rwa [Nat.zero_add]
  obtain ⟨hfill, hncpu⟩ := filled_eq (s := s₀) hcount
  replace hncpu : (afterEntries rd conf).ncpu = (listed rd conf).length :=
    hncpu.trans (Nat.zero_add _)
  have hismp : (afterEntries rd conf).ismp = true ↔ s₀.ismp = true ∧ AllKnown rd conf :=
    ismp_entryLoop
  have hcpus : ∀ k, (((afterEntries rd conf).modCpu (afterEntries rd conf).bootcpu
      fun c ↦ { c with cpuStatus := CPU_STARTED }).cpus k).cpuId =
      if k < (listed rd conf).length then BitVec.ofNat 8 k else 0 := by
    intro k
    rw [← hncpu, ← hnum.cpuId]
    show (if k = _ then _ else _ : CpuInfo).cpuId = _
    split
    · next hk => rw [hk]
    · rfl
  refine ⟨hfill, ?_⟩
  have hinit : mpInit npages rd =
      if (afterEntries rd conf).ismp then
        some ((afterEntries rd conf).modCpu (afterEntries rd conf).bootcpu
          fun c ↦ { c with cpuStatus := CPU_STARTED })
      else some { (afterEntries rd conf).modCpu (afterEntries rd conf).bootcpu
          (fun c ↦ { c with cpuStatus := CPU_STARTED }) with ncpu := 1, lapicaddr := 0 } := by
    rw [mpInit, h]
    rfl
  rw [hinit]
  by_cases hall : AllKnown rd conf
  · rw [if_pos (show (afterEntries rd conf).ismp = true from hismp.mpr ⟨rfl, hall⟩)]
    exact ⟨_, rfl, hcpus, fun _ ↦ ⟨hncpu, hnum.lapicaddr⟩, fun hc ↦ absurd hall hc⟩
  · rw [if_neg (show ¬ (afterEntries rd conf).ismp = true from fun hc ↦ hall (hismp.mp hc).2)]
    exact ⟨_, rfl, hcpus, fun hc ↦ absurd hc hall, fun _ ↦ ⟨rfl, rfl⟩⟩

/-- The processor with the APIC id `a` and the record `k` are the same to `cpunum`, to the kernel
stacks and to the start-up interrupts. -/
structure Identified (s : Smp) (a : BitVec 8) (k : ℕ) : Prop where
  cpunum : ∀ regs : ℕ → Word, regs ID >>> 24 = a.setWidth 32 → cpunum (lapic s regs) = a.toNat
  lt : a.toNat < s.ncpu
  index : a.toNat = k
  startup : ∀ self i, (i, a) ∈ bootAps s self → i = k

/-- The processors are listed in the order of their ids, which are 0, 1, 2, ...; and if there are
several, the table gives an address of the local APICs and has entries of known types only. -/
structure InOrder (rd : Phys) (conf : ℕ) : Prop where
  ids : (listed rd conf).map (fun q ↦ (apicid rd conf q).toNat) =
    List.range (listed rd conf).length
  several : 1 < (listed rd conf).length → rd.u32 (conf + 36) ≠ 0 ∧ AllKnown rd conf

theorem map_eq_range_iff {α : Type} {f : α → ℕ} {xs : List α} :
    xs.map f = List.range xs.length ↔ ∀ x ∈ xs.zipIdx, f x.1 = x.2 := by
  constructor
  · rintro h ⟨a, k⟩ hx
    have hk := List.mk_mem_zipIdx_iff_getElem?.mp hx
    have hget := congrArg (·[k]?) h
    simp only [List.getElem?_map, hk, Option.map_some] at hget
    have hlt : k < xs.length := (List.getElem?_eq_some_iff.mp hk).1
    rw [List.getElem?_range hlt] at hget
    exact Option.some.inj hget
  · intro h
    refine List.ext_getElem (by simp) fun k h1 h2 ↦ ?_
    have hlt : k < xs.length := by simpa using h1
    rw [List.getElem_map, List.getElem_range]
    exact h (xs[k], k) (List.mk_mem_zipIdx_iff_getElem?.mpr (List.getElem?_eq_getElem hlt))

/-- The ID register of a local APIC. -/
theorem id_register (a : BitVec 8) : (a.setWidth 32 <<< 24 : Word) >>> 24 = a.setWidth 32 := by
  revert a
  decide

end

/-- Every listed processor is identified just if the processors are in order. -/
theorem cpu_identity_iff {npages mp conf : ℕ} {rd : Phys}
    (h : mpconfig npages rd = some (some (mp, conf))) (hn : (listed rd conf).length ≤ NCPU) :
    (recorded rd conf).map Prod.fst = listed rd conf ∧ ∃ s, mpInit npages rd = some s ∧
      ((∀ x ∈ recorded rd conf, Identified s (apicid rd conf x.1) x.2) ↔ InOrder rd conf) := by
  obtain ⟨hrec, s, hinit, hcpus, hknown, hunknown⟩ := mpInit_numbered h hn
  rw [hrec]
  refine ⟨List.zipIdx_map_fst _ _, s, hinit, ?_⟩
  have hlt : ∀ x ∈ (listed rd conf).zipIdx, x.2 < (listed rd conf).length := fun x hx ↦
    (List.getElem?_eq_some_iff.mp (List.mk_mem_zipIdx_iff_getElem?.mp hx)).1
  constructor
  · intro hall
    refine ⟨map_eq_range_iff.mpr fun x hx ↦ (hall x hx).index, fun hlen ↦ ?_⟩
    -- the second processor
    let x := ((listed rd conf)[1], 1)
    have hx : x ∈ (listed rd conf).zipIdx :=
      List.mk_mem_zipIdx_iff_getElem?.mpr (List.getElem?_eq_getElem hlen)
    obtain ⟨hcpunum, hncpu, hindex, -⟩ := hall x hx
    have hall : AllKnown rd conf := by
      by_contra hc
      rw [(hunknown hc).1, hindex] at hncpu
      exact absurd hncpu (Nat.lt_irrefl 1)
    refine ⟨fun hc ↦ ?_, hall⟩
    have hzero := hcpunum (fun _ ↦ (apicid rd conf x.1).setWidth 32 <<< 24) ?_
    · rw [lapic, (hknown hall).2, if_pos hc, hindex] at hzero
      cases hzero
    · exact id_register _
  · rintro ⟨hids, hseveral⟩ ⟨q, k⟩ hx
    have hk := hlt _ hx
    replace hk : k < (listed rd conf).length := hk
    have hindex : (apicid rd conf q).toNat = k := map_eq_range_iff.mp hids _ hx
    have hone : ¬ AllKnown rd conf ∨ rd.u32 (conf + 36) = 0 → k = 0 := fun hc ↦ by
      by_contra hne
      obtain ⟨haddr, hall⟩ := hseveral (by omega)
      exact hc.elim (fun hc ↦ hc hall) haddr
    have hncpu : k < s.ncpu ∧ s.ncpu ≤ (listed rd conf).length := by
      by_cases hall : AllKnown rd conf
      · rw [(hknown hall).1]
        exact ⟨hk, le_rfl⟩
      · rw [(hunknown hall).1, hone (.inl hall)]
        exact ⟨Nat.one_pos, by omega⟩
    refine ⟨fun regs hregs ↦ ?_, hindex.trans_lt hncpu.1, hindex, fun self i hi ↦ ?_⟩
    · by_cases hzero : s.lapicaddr = 0
      · have hk0 : k = 0 := hone <| by
          by_cases hall : AllKnown rd conf
          · exact .inr ((hknown hall).2.symm.trans hzero)
          · exact .inl hall
        rw [lapic, if_pos hzero, hindex, hk0]
        rfl
      · rw [lapic, if_neg hzero, cpunum, hregs, BitVec.toNat_setWidth_of_le (by decide)]
    · obtain ⟨c, hc, heq⟩ := List.mem_map.mp hi
      obtain ⟨rfl, hid⟩ := Prod.mk.inj heq
      have hlt' : c < s.ncpu := List.mem_range.mp (List.mem_filter.mp hc).1
      rw [hcpus, if_pos (hlt'.trans_le hncpu.2)] at hid
      rw [← hindex, ← hid, BitVec.toNat_ofNat]
      have hNCPU : NCPU = 8 := rfl
      omega

/-- A table of enabled processors with the given ids, with the sum `check`. -/
def idBytes (check : BitVec 8) (ids : List (BitVec 8)) : List (BitVec 8) :=
  sigPcmp ++ [BitVec.ofNat 8 (44 + 20 * ids.length), 0, 4, check] ++ List.replicate 26 0 ++
    [BitVec.ofNat 8 ids.length, 0, 0, 0, 0xE0, 0xFE, 0, 0, 0, 0] ++
    ids.flatMap fun a ↦ [0, a, 0x14, 1] ++ List.replicate 16 0

theorem cpu_identity_iff_demo :
    (recorded (demoPhys (idBytes 0x6D [0, 1])) 0x9FD00).map Prod.fst =
        listed (demoPhys (idBytes 0x6D [0, 1])) 0x9FD00 ∧
      ∃ s, mpInit 0x8000 (demoPhys (idBytes 0x6D [0, 1])) = some s ∧
        ((∀ x ∈ recorded (demoPhys (idBytes 0x6D [0, 1])) 0x9FD00,
          Identified s (apicid (demoPhys (idBytes 0x6D [0, 1])) 0x9FD00 x.1) x.2) ↔
          InOrder (demoPhys (idBytes 0x6D [0, 1])) 0x9FD00) :=
  @cpu_identity_iff 0x8000 0x9FC00 0x9FD00 (demoPhys (idBytes 0x6D [0, 1]))
    (by decide +kernel) (by decide +kernel)

/-- The second of two processors has the id 2: it takes itself for the third, which there is not,
and nobody starts it. -/
theorem cpu_identity_sparse :
    mpconfig 0x8000 (demoPhys (idBytes 0x6C [0, 2])) = some (some (0x9FC00, 0x9FD00)) ∧
      ((listed (demoPhys (idBytes 0x6C [0, 2])) 0x9FD00).map
        (apicid (demoPhys (idBytes 0x6C [0, 2])) 0x9FD00)) = [0, 2] ∧
      ∃ s, mpInit 0x8000 (demoPhys (idBytes 0x6C [0, 2])) = some s ∧
        (64, 1) ∈ recorded (demoPhys (idBytes 0x6C [0, 2])) 0x9FD00 ∧
        ¬ Identified s (apicid (demoPhys (idBytes 0x6C [0, 2])) 0x9FD00 64) 1 ∧
        (∀ regs : ℕ → Word, regs ID >>> 24 = 2 → ¬ cpunum (lapic s regs) < s.ncpu) ∧
        bootAps s 0 = [(1, 1)] := by
  have hinit : (mpInit 0x8000 (demoPhys (idBytes 0x6C [0, 2]))).map
      (fun s ↦ (s.ncpu, s.lapicaddr, bootAps s 0)) = some (2, 0xFEE00000, [(1, 1)]) := by
    decide +kernel
  obtain ⟨s, hs, hsome⟩ := Option.map_eq_some_iff.mp hinit
  obtain ⟨hncpu, haddr, hboot⟩ :
      s.ncpu = 2 ∧ s.lapicaddr = 0xFEE00000 ∧ bootAps s 0 = [(1, 1)] := by simpa using hsome
  have hid : apicid (demoPhys (idBytes 0x6C [0, 2])) 0x9FD00 64 = 2 := by decide +kernel
  refine ⟨by decide +kernel, by decide +kernel, s, hs, by decide +kernel, fun h ↦ ?_,
    fun regs hregs ↦ ?_, hboot⟩
  · have hindex := h.index
    rw [hid] at hindex
    cases hindex
  · rw [lapic, haddr, if_neg (by decide), cpunum, hregs, hncpu]
    decide

end Jos.Mpconfig
