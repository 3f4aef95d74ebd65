import Jos.Kern.MemoryMap

/-!
# Overflow of a kernel stack (`trap_init_percpu`)

`mem_init_mp` gives every CPU a window below `KSTACKTOP` onto its kernel stack, with a gap below the
window.  But `trap_init_percpu` has the processor find the stack at its address in the image of the
kernel, where the stack of the CPU before lies right below.
-/

namespace Jos

/-! ## `trap_init_percpu` -/

def GD_KD : BitVec 16 := 0x10
def GD_TSS0 : BitVec 16 := 0x28
def STS_T32A : BitVec 4 := 0x9
def sizeofTaskstate : ℕ := 104

/-- What the kernel uses of `struct Taskstate`. -/
structure Taskstate where
  tsEsp0 : Word
  tsSs0 : BitVec 16
  tsIomb : BitVec 16

/-- `struct Segdesc`. -/
structure Segdesc where
  sdLim15_0 : BitVec 16
  sdBase15_0 : BitVec 16
  sdBase23_16 : BitVec 8
  sdType : BitVec 4
  sdS : BitVec 1
  sdDpl : BitVec 2
  sdP : BitVec 1
  sdLim19_16 : BitVec 4
  sdAvl : BitVec 1
  sdRsv1 : BitVec 1
  sdDb : BitVec 1
  sdG : BitVec 1
  sdBase31_24 : BitVec 8

/-- `SEG16`. -/
def seg16 (type : BitVec 4) (base lim : Word) (dpl : BitVec 2) : Segdesc :=
  ⟨(lim &&& 0xffff).setWidth 16, (base &&& 0xffff).setWidth 16,
    ((base >>> 16) &&& 0xff).setWidth 8, type, 1, dpl, 1, (lim >>> 16).setWidth 4, 0, 0, 1, 0,
    (base >>> 24).setWidth 8⟩

/-- The base that the processor reads in a descriptor. -/
def Segdesc.base (sd : Segdesc) : Word := sd.sdBase31_24 ++ sd.sdBase23_16 ++ sd.sdBase15_0

@[simp]
theorem seg16_base (type : BitVec 4) (base lim : Word) (dpl : BitVec 2) :
    (seg16 type base lim dpl).base = base := by
  have h16 : ∀ i < 16, (0xffff : Word).getLsbD i = true := by decide
  have h8 : ∀ i < 8, (0xff : Word).getLsbD i = true := by decide
  simp only [Segdesc.base, seg16]
  ext i hi
  simp only [BitVec.getElem_append, BitVec.getElem_setWidth, BitVec.getLsbD_and,
    BitVec.getLsbD_ushiftRight]
  rw [← BitVec.getLsbD_eq_getElem]
  split
  case isTrue hlt => rw [h16 i hlt, Bool.and_true]
  case isFalse hge =>
    split
    case isTrue hlt =>
      rw [h8 _ hlt, Bool.and_true]
      congr 1
      omega
    case isFalse hge' =>
      congr 1
      omega

/-- What `trap_init_percpu` uses of `struct CpuInfo`. -/
structure CpuInfo where
  cpuId : BitVec 8
  cpuTs : Taskstate

/-- `cpus`, `gdt`, and what the processors have in their task registers. -/
structure TaskSegs where
  cpus : CpuId → CpuInfo
  gdt : ℕ → Segdesc
  tr : CpuId → BitVec 16

/-- `ltr` on a processor: the segment has to be an available one, and becomes a busy one. -/
def TaskSegs.ltr (s : TaskSegs) (n : CpuId) (sel : BitVec 16) : Option TaskSegs :=
  let sd := s.gdt (sel >>> 3).toNat
  if sd.sdType = STS_T32A then
    some { s with
      gdt := Function.update s.gdt (sel >>> 3).toNat { sd with sdType := 0xB }
      tr := Function.update s.tr n sel }
  else
    none

/-- `trap_init_percpu` on the processor `n`, whose `cpu_ts` is at `tsAddr n`. -/
def trapInitPercpu (cfg : BootConfig) (tsAddr : CpuId → Word) (s : TaskSegs) (n : CpuId) :
    Option TaskSegs :=
  let id := (s.cpus n).cpuId
  -- out of bounds of `percpu_kstacks`
  if hid : id.toNat < NCPU then
    let ts := { (s.cpus n).cpuTs with
      tsEsp0 := cfg.percpuKstacks ⟨id.toNat, hid⟩ + KSTKSIZE
      tsSs0 := GD_KD
      tsIomb := BitVec.ofNat 16 sizeofTaskstate }
    let sd := seg16 STS_T32A (tsAddr n) (BitVec.ofNat 32 sizeofTaskstate - 1) 0
    TaskSegs.ltr
      { s with
        cpus := Function.update s.cpus n { s.cpus n with cpuTs := ts }
        gdt := Function.update s.gdt ((GD_TSS0 >>> 3).toNat + id.toNat) { sd with sdS := 0 } }
      n (GD_TSS0 + (id.setWidth 16 <<< 3))
  else
    none

/-- The stack pointer that the processor loads when a trap takes it to the kernel: that of the task
state at the base of the segment in its task register. -/
def TaskSegs.esp0 (tsAddr : CpuId → Word) (s : TaskSegs) (n : CpuId) : Option Word :=
  ((List.finRange NCPU).find? fun i ↦ tsAddr i = (s.gdt (s.tr n >>> 3).toNat).base).map
    fun i ↦ (s.cpus i).cpuTs.tsEsp0

section

variable {cfg : BootConfig} {tsAddr : CpuId → Word} {s s' : TaskSegs} {n i : CpuId}

/-- `mp_init` gives every CPU its index for an id. -/
def TaskSegs.Numbered (s : TaskSegs) : Prop := ∀ i, (s.cpus i).cpuId = BitVec.ofNat 8 i.val

/-- The selector of the segment of a CPU. -/
def tssSel (i : CpuId) : BitVec 16 := GD_TSS0 + ((BitVec.ofNat 8 i.val).setWidth 16 <<< 3)

theorem tssSel_index : ∀ i, (tssSel i >>> 3).toNat = 5 + i.val := by decide

/-- `trap_init_percpu` has run on a CPU. -/
structure TaskSegs.Settled (cfg : BootConfig) (tsAddr : CpuId → Word) (s : TaskSegs) (i : CpuId) :
    Prop where
  esp0 : (s.cpus i).cpuTs.tsEsp0 = cfg.percpuKstacks i + KSTKSIZE
  tr : s.tr i = tssSel i
  base : (s.gdt (5 + i.val)).base = tsAddr i

/-- The task state segment of a CPU, in use. -/
def tssDesc (tsAddr : CpuId → Word) (n : CpuId) : Segdesc :=
  { seg16 0xB (tsAddr n) (BitVec.ofNat 32 sizeofTaskstate - 1) 0 with sdS := 0 }

/-- On a numbered CPU `trap_init_percpu` succeeds. -/
theorem trapInitPercpu_eq (hnum : s.Numbered) : trapInitPercpu cfg tsAddr s n = some
    { cpus := Function.update s.cpus n ⟨BitVec.ofNat 8 n.val,
        ⟨cfg.percpuKstacks n + KSTKSIZE, GD_KD, BitVec.ofNat 16 sizeofTaskstate⟩⟩
      gdt := Function.update s.gdt (5 + n.val) (tssDesc tsAddr n)
      tr := Function.update s.tr n (tssSel n) } := by
  have hid : (BitVec.ofNat 8 n.val).toNat = n.val := by
    have hn8 : n.val < 8 := n.isLt
    rw [BitVec.toNat_ofNat]
    omega
  have hslot : (GD_TSS0 >>> 3).toNat = 5 := rfl
  have hsel := tssSel_index n
  rw [tssSel] at hsel
  simp only [trapInitPercpu, hnum n, hid, hslot, dif_pos n.isLt, TaskSegs.ltr, hsel,
    Function.update_self, Function.update_idem]
  rfl

/-- All that `trap_init_percpu` does to what the processors use. -/
theorem trapInitPercpu_spec (hnum : s.Numbered) (hrun : trapInitPercpu cfg tsAddr s n = some s') :
    s'.Numbered ∧ s'.Settled cfg tsAddr n ∧
      ∀ i ≠ n, s'.cpus i = s.cpus i ∧ s'.tr i = s.tr i ∧
        s'.gdt (5 + i.val) = s.gdt (5 + i.val) := by
  rw [trapInitPercpu_eq hnum, Option.some.injEq] at hrun
  subst hrun
  refine ⟨fun i ↦ ?_, ⟨?_, ?_, ?_⟩, fun i hi ↦ ⟨?_, ?_, ?_⟩⟩
  · dsimp only
    by_cases hi : i = n
    · rw [hi, Function.update_self]
    · rw [Function.update_of_ne hi, hnum i]
  · dsimp only
    rw [Function.update_self]
  · exact Function.update_self ..
  · dsimp only
    rw [Function.update_self]
    exact seg16_base 0xB (tsAddr n) (BitVec.ofNat 32 sizeofTaskstate - 1) 0
  · exact Function.update_of_ne hi ..
  · exact Function.update_of_ne hi ..
  · exact Function.update_of_ne (fun h ↦ hi (Fin.ext (by omega))) ..

theorem TaskSegs.Settled.congr (h : s.Settled cfg tsAddr i) (hc : s'.cpus i = s.cpus i)
    (ht : s'.tr i = s.tr i) (hg : s'.gdt (5 + i.val) = s.gdt (5 + i.val)) :
    s'.Settled cfg tsAddr i :=
  ⟨by rw [hc, h.esp0], by rw [ht, h.tr], by rw [hg, h.base]⟩

/-- The CPUs run it in any order; each has its own segment. -/
theorem trapInitPercpu_run {ns : List CpuId} (hnum : s.Numbered)
    (hrun : ns.foldlM (trapInitPercpu cfg tsAddr) s = some s') :
    s'.Numbered ∧ ∀ i, i ∈ ns ∨ s.Settled cfg tsAddr i → s'.Settled cfg tsAddr i := by
  induction ns generalizing s with
  | nil =>
      rw [List.foldlM_nil, Option.pure_def, Option.some.injEq] at hrun
      subst hrun
      exact ⟨hnum, fun i hi ↦ hi.resolve_left List.not_mem_nil⟩
  | cons n ns ih =>
      rw [List.foldlM_cons, Option.bind_eq_bind, Option.bind_eq_some_iff] at hrun
      obtain ⟨s₁, hstep, hrest⟩ := hrun
      obtain ⟨hnum₁, hset, hother⟩ := trapInitPercpu_spec hnum hstep
      obtain ⟨hnum', hrest'⟩ := ih hnum₁ hrest
      refine ⟨hnum', fun i hi ↦ hrest' i ?_⟩
      by_cases hin : i = n
      · exact .inr (hin ▸ hset)
      · obtain ⟨hc, ht, hg⟩ := hother i hin
        rcases hi with hi | hi
        · exact .inl ((List.mem_cons.mp hi).resolve_left hin)
        · exact .inr (hi.congr hc ht hg)

/-- A CPU that has run it takes its traps on its own stack. -/
theorem TaskSegs.Settled.esp0_eq (hinj : Function.Injective tsAddr) (h : s.Settled cfg tsAddr i) :
    s.esp0 tsAddr i = some (cfg.percpuKstacks i + KSTKSIZE) := by
  have hbase : (s.gdt (s.tr i >>> 3).toNat).base = tsAddr i := by
    rw [h.tr, tssSel_index, h.base]
  rw [TaskSegs.esp0, hbase]
  cases hfind : (List.finRange NCPU).find? fun j ↦ tsAddr j = tsAddr i with
  | none =>
      rw [List.find?_eq_none] at hfind
      exact absurd (decide_eq_true rfl) (hfind i (List.mem_finRange i))
  | some j =>
      have hj := List.find?_some hfind
      rw [decide_eq_true_eq] at hj
      obtain rfl := hinj hj
      rw [Option.map_some, h.esp0]

end

/-! ## Where an overflow goes -/

section

variable {cfg : BootConfig} {m : Mem} {start : Word}

/-- Past its end a stack goes on in what lies before it in the image of the kernel. -/
theorem BootConfig.MemoryMap.below_stack (hk : cfg.PercpuKstacks start) (hmap : cfg.MemoryMap m)
    (i : CpuId) {d : Word} (hlo : KSTKSIZE < d) (hhi : d ≤ KSTKSIZE + KSTKGAP) :
    m.va2pa cfg.machine.kernPgdir (cfg.percpuKstacks i + KSTKSIZE - d) =
        some (cfg.percpuKstacks i + KSTKSIZE - d - KERNBASE) ∧
      ∀ j : CpuId, j.val + 1 = i.val → ∃ o < KSTKSIZE,
        cfg.percpuKstacks i + KSTKSIZE - d = cfg.percpuKstacks j + o := by
  have hsize : KSTKSIZE.toNat = 32768 := rfl
  have hgap : (KSTKSIZE + KSTKGAP).toNat = 65536 := rfl
  have hbase : KERNBASE.toNat = 4026531840 := rfl
  have hge := hk.ge
  have hle := hk.le
  have heq : ∀ i : CpuId, (cfg.percpuKstacks i).toNat = start.toNat + i.val * 32768 := fun i ↦ by
    have hi : i.val < 8 := i.isLt
    have hend := cfg.kend.isLt
    rw [NCPU, hsize] at hle
    rw [hk.eq, BitVec.toNat_add, BitVec.toNat_mul, BitVec.toNat_ofNat, hsize]
    omega
  rw [BitVec.lt_def, hsize] at hlo
  rw [BitVec.le_def, hgap] at hhi
  rw [BitVec.le_def, show (0xF0100000 : Word).toNat = 4027580416 from rfl] at hge
  have hi : i.val < 8 := i.isLt
  have hend := cfg.kend.isLt
  rw [NCPU, hsize] at hle
  have hva : (cfg.percpuKstacks i + KSTKSIZE - d).toNat =
      start.toNat + i.val * 32768 + 32768 - d.toNat := by
    rw [BitVec.toNat_sub, BitVec.toNat_add, heq, hsize]
    omega
  refine ⟨?_, fun j hj ↦ ⟨KSTKSIZE + KSTKSIZE - d, ?_, ?_⟩⟩
  · have hmem := hmap.kernbase ((cfg.percpuKstacks i + KSTKSIZE - d).toNat - 4026531840)
      (by rw [show (-KERNBASE).toNat = 268435456 from rfl]; omega)
    have hofs : BitVec.ofNat 32 ((cfg.percpuKstacks i + KSTKSIZE - d).toNat - 4026531840) =
        cfg.percpuKstacks i + KSTKSIZE - d - KERNBASE := by
      apply BitVec.eq_of_toNat_eq
      rw [BitVec.toNat_ofNat, BitVec.toNat_sub _ KERNBASE, hbase]
      omega
    rwa [hofs, BitVec.add_comm, BitVec.sub_add_cancel] at hmem
  · rw [BitVec.lt_def, BitVec.toNat_sub, show (KSTKSIZE + KSTKSIZE).toNat = 65536 from rfl, hsize]
    omega
  · apply BitVec.eq_of_toNat_eq
    rw [hva, BitVec.toNat_add, BitVec.toNat_sub, heq, ← hj,
      show (KSTKSIZE + KSTKSIZE).toNat = 65536 from rfl]
    omega

end

/-- `trap_init_percpu` succeeds on every CPU. -/
theorem TaskSegs.Numbered.exists_run {cfg : BootConfig} {tsAddr : CpuId → Word} {s : TaskSegs}
    (hnum : s.Numbered) (ns : List CpuId) :
    ∃ s', ns.foldlM (trapInitPercpu cfg tsAddr) s = some s' := by
  induction ns generalizing s with
  | nil => exact ⟨s, rfl⟩
  | cons n ns ih =>
      have hstep := @trapInitPercpu_eq cfg tsAddr s n hnum
      obtain ⟨s', hrest⟩ := ih (trapInitPercpu_spec hnum hstep).1
      refine ⟨s', ?_⟩
      rw [List.foldlM_cons, hstep]
      exact hrest

/-- Whatever the CPUs and the memory are, no CPU finds a gap below its stack: each address below
is mapped, and is in the stack of the CPU before if there is one. -/
theorem kernel_stack_overflow {cfg : BootConfig} {start base : Word} {pp : Bool → Option ℕ}
    {m₀ m : Mem} {tsAddr : CpuId → Word} {s s' : TaskSegs} {ns : List CpuId} {i : CpuId} {d : Word}
    (hk : cfg.PercpuKstacks start) (hm : m₀.pageFreeList = none)
    (hrun : cfg.memInit pp m₀ = some (base, m)) (hnum : s.Numbered)
    (hinit : ns.foldlM (trapInitPercpu cfg tsAddr) s = some s') (hi : i ∈ ns)
    (hlo : KSTKSIZE < d) (hhi : d ≤ KSTKSIZE + KSTKGAP) :
    m.va2pa cfg.machine.kernPgdir ((s'.cpus i).cpuTs.tsEsp0 - d) =
        some ((s'.cpus i).cpuTs.tsEsp0 - d - KERNBASE) ∧
      ∀ j : CpuId, j.val + 1 = i.val → ∃ o < KSTKSIZE,
        (s'.cpus i).cpuTs.tsEsp0 - d = cfg.percpuKstacks j + o := by
  have hmap := (BootConfig.memInit_eq_some hm hrun).memoryMap hk hm
  rw [((trapInitPercpu_run hnum hinit).2 i (.inl hi)).esp0]
  exact hmap.below_stack hk i hlo hhi

/-- The CPUs as `mp_init` numbers them. -/
def demoSegs : TaskSegs :=
  ⟨fun i ↦ ⟨BitVec.ofNat 8 i.val, 0, 0, 0⟩,
    fun _ ↦ ⟨0, 0, 0, 0, 0, 0, 0, 0, 0, 0, 0, 0, 0⟩, fun _ ↦ 0⟩

/-- Memory is initialised, and then all CPUs. -/
theorem exists_demoSegs : ∃ base m s', demoConfig.memInit (fun _ ↦ none)
      ⟨fun _ ↦ ⟨none, 0⟩, none, fun _ _ ↦ 0, []⟩ = some (base, m) ∧ demoSegs.Numbered ∧
    (List.finRange NCPU).foldlM (trapInitPercpu demoConfig fun i ↦ BitVec.ofNat 32 (104 * i.val))
      demoSegs = some s' := by
  have hm : Mem.pageFreeList ⟨fun _ ↦ ⟨none, 0⟩, none, fun _ _ ↦ 0, []⟩ = none := rfl
  obtain ⟨base, m, hrun⟩ := BootConfig.memInit_some demoConfig_percpuKstacks
    demoConfig_enoughMemory (fun _ ↦ none) hm
  have hnum : demoSegs.Numbered := fun _ ↦ rfl
  obtain ⟨s', hinit⟩ := hnum.exists_run (List.finRange NCPU)
  exact ⟨base, m, s', hrun, hnum, hinit⟩

theorem kernel_stack_overflow_demo : ∃ (m : Mem) (s' : TaskSegs) (i j : CpuId), i ≠ j ∧
    ∃ o < KSTKSIZE, (s'.cpus i).cpuTs.tsEsp0 - 0x8001 = demoConfig.percpuKstacks j + o ∧
    m.va2pa demoConfig.machine.kernPgdir ((s'.cpus i).cpuTs.tsEsp0 - 0x8001) =
      some ((s'.cpus i).cpuTs.tsEsp0 - 0x8001 - KERNBASE) := by
  obtain ⟨base, m, s', hrun, hnum, hinit⟩ := exists_demoSegs
  obtain ⟨hmapped, hother⟩ := kernel_stack_overflow demoConfig_percpuKstacks rfl hrun hnum hinit
    (List.mem_finRange ⟨1, by decide⟩) (d := 0x8001) (by decide) (by decide)
  obtain ⟨o, ho, heq⟩ := hother ⟨0, by decide⟩ rfl
  exact ⟨m, s', ⟨1, by decide⟩, ⟨0, by decide⟩, by decide, o, ho, heq, hmapped⟩

/-- On the second CPU the byte below the end of the stack is mapped. -/
theorem kernel_stack_overflow_unseen : ∃ base m s', demoConfig.memInit (fun _ ↦ none)
      ⟨fun _ ↦ ⟨none, 0⟩, none, fun _ _ ↦ 0, []⟩ = some (base, m) ∧
    (List.finRange NCPU).foldlM (trapInitPercpu demoConfig fun i ↦ BitVec.ofNat 32 (104 * i.val))
      demoSegs = some s' ∧
    ¬ ∀ (i : CpuId) (d : Word), KSTKSIZE < d → d ≤ KSTKSIZE + KSTKGAP →
      m.va2pa demoConfig.machine.kernPgdir ((s'.cpus i).cpuTs.tsEsp0 - d) = none := by
  obtain ⟨base, m, s', hrun, hnum, hinit⟩ := exists_demoSegs
  refine ⟨base, m, s', hrun, hinit, fun hgap ↦ ?_⟩
  have hmap := (BootConfig.memInit_eq_some rfl hrun).memoryMap demoConfig_percpuKstacks rfl
  have hnone := hgap ⟨1, by decide⟩ 0x8001 (by decide) (by decide)
  rw [((trapInitPercpu_run hnum hinit).2 _ (.inl (List.mem_finRange _))).esp0,
    (hmap.below_stack demoConfig_percpuKstacks _ (by decide) (by decide)).1] at hnone
  cases hnone

end Jos
