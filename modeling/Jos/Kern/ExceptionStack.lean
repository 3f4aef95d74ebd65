import Jos.Kern.Upcall

/-!
# Overflow of the exception stack (`page_fault_handler`)

The exception stack is the one page below `UXSTACKTOP`.  A fault that leaves no room on it is to
end in `env_destroy`.  The kernel does not compare addresses, though: it asks whether the frame lies
in memory that the program may write.  So the overflow goes unseen if the program has mapped the
page below, too.
-/

namespace Jos

open Jos.Lib

variable {B : Machine} {M : Pool B} {k k' : Kern} {l : List ℕ} {el : List Slot} {cur : Slot}
  {d : ℕ} {tf : Trapframe} {cr2 : Word}

/-- A fault ends as it should: the environment is destroyed, or the frame, and nothing else, is
stored on the page of the exception stack. -/
def Detected (B : Machine) (k : Kern) (cur : Slot) (tf : Trapframe) (cr2 : Word) : Prop :=
  (∃ k', pageFaultHandler B (k.setTf cur tf) cur cr2 = some (.yield none, k') ∧
    (k'.envs cur).envStatus = .free) ∨
  ∃ d m', (k.envs cur).envPgdir = some d ∧
    pageFaultHandler B (k.setTf cur tf) cur cr2 = some (.run, (k.setTf cur
      { tf with esp := faultEsp tf.esp, eip := (k.envs cur).envPgfaultUpcall }).setMem m') ∧
    FrameStored k d tf cr2 m' ∧
    ∀ i < 52, UXSTACKTOP - 0x1000 ≤ frameByte tf i ∧ frameByte tf i < UXSTACKTOP

/-- The program has an upcall, and may write the page of `va`. -/
def Kern.MayWrite (k : Kern) (cur : Slot) (va : Word) : Prop :=
  ∃ d, (k.envs cur).envPgdir = some d ∧ k.mem.UserWritable d va

/-- A fault with less than 56 bytes left on the exception stack, where the program may write the
page below. -/
structure Overruns (k : Kern) (cur : Slot) (esp : Word) : Prop where
  upcall : (k.envs cur).envPgfaultUpcall ≠ 0
  lo : UXSTACKTOP - 0x1000 ≤ esp
  hi : esp < UXSTACKTOP - 0x1000 + 56
  below : k.MayWrite cur (UXSTACKTOP - 0x2000)
  page : UXSTACKTOP - 0x1000 + 4 < esp → k.MayWrite cur (UXSTACKTOP - 0x1000)

/-- Any steps of the system, and any page faults of its environments. -/
inductive FaultStep (B : Machine) : Kern → Kern → Prop
  | step {k k' : Kern} (h : Step B k k') : FaultStep B k k'
  | fault {k k' : Kern} {cur : Slot} {tf : Trapframe} {cr2 : Word} {x : Exit} (live : k.Live cur)
      (run : pageFaultHandler B (k.setTf cur tf) cur cr2 = some (x, k')) : FaultStep B k k'

def FaultRun (B : Machine) : Kern → Kern → Prop :=
  Relation.ReflTransGen fun k k' ↦ FaultStep B k k' ∧ k'.Bounded B

/-! ## Runs -/

theorem RunInv.pageFaultHandler_pdesOpen (h : RunInv B M k l el) (hb : k.Bounded B)
    (hlive : k.Live cur) (ho : PdesOpen B k.mem k.dirs) {x : Exit}
    (hrun : Jos.pageFaultHandler B k cur cr2 = some (x, k')) : PdesOpen B k'.mem k'.dirs := by
  rcases pageFaultHandler_cases hrun with ⟨-, tf, hf⟩ | ⟨-, -, d, m, hd, -, hstore, rfl⟩
  · have hb' : (k.setTf cur tf).Bounded B := by
      rw [Kern.Bounded, Kern.dirs_setTf]
      exact hb
    have hlive' : (k.setTf cur tf).Live cur := by simpa [Kern.Live, Kern.setTf] using hlive
    obtain ⟨k₁, hk₁, -, hafter⟩ := (h.setTf cur tf).inv.envFree_spec hb' hlive'
    obtain rfl := Option.some.inj (hk₁.symm.trans hf)
    refine ((h.setTf cur tf).after hafter).2.pdesOpen ?_
    rw [Kern.dirs_setTf]
    exact ho
  · obtain ⟨d', hd', hpg⟩ := h.inv.live_dir hlive
    obtain rfl := Option.some.inj (hpg.symm.trans hd)
    have hs := h.inv.storeBytes_stored hd'
      ((length_utfBytes cr2 _).symm ▸ faultEsp_le (k.envs cur).envTf.esp) hstore
    have hev := (h.after (h.inv.after_stored (T := ∅) (S := ∅) hs)).2
    have hdirs := Kern.dirs_setTf k cur (upcallTf (k.envs cur))
    show PdesOpen B m (k.setTf cur (upcallTf (k.envs cur))).dirs
    rw [hdirs]
    exact hev.pdesOpen ho

/-- What holds of every state that is reached. -/
theorem FaultRun.spec {k₀ : Kern} (run : FaultRun B k₀ k) (h : ∃ l el, RunInv B M k₀ l el)
    (hb : k₀.Bounded B) (ho : PdesOpen B k₀.mem k₀.dirs) :
    (∃ l el, RunInv B M k l el) ∧ k.Bounded B ∧ PdesOpen B k.mem k.dirs := by
  induction run with
  | refl => exact ⟨h, hb, ho⟩
  | @tail k₁ k₂ _ hstep ih =>
      obtain ⟨⟨l₁, el₁, h₁⟩, hb₁, ho₁⟩ := ih
      obtain ⟨hstep, hb₂⟩ := hstep
      cases hstep with
      | step hstep =>
          obtain ⟨T, S, haft⟩ := hstep.after h₁ hb₁
          obtain ⟨hinv, hev⟩ := h₁.after haft
          exact ⟨hinv, hb₂, hev.pdesOpen ho₁⟩
      | @fault cur tf cr2 x live hrun =>
          have hb' : (k₁.setTf cur tf).Bounded B := by
            rw [Kern.Bounded, Kern.dirs_setTf]
            exact hb₁
          have hlive : (k₁.setTf cur tf).Live cur := by simpa [Kern.Live, Kern.setTf] using live
          have ho' : PdesOpen B (k₁.setTf cur tf).mem (k₁.setTf cur tf).dirs := by
            rw [Kern.dirs_setTf]
            exact ho₁
          exact ⟨(h₁.setTf cur tf).pageFaultHandler hb' hlive hrun, hb₂,
            (h₁.setTf cur tf).pageFaultHandler_pdesOpen hb' hlive ho' hrun⟩

/-! ## Where the frame goes -/

/-- The frame fits, unless there is too little left of the exception stack. -/
theorem frame_fits_iff (esp : Word) : UXSTACKTOP - 0x1000 ≤ faultEsp esp ↔
    ¬ (UXSTACKTOP - 0x1000 ≤ esp ∧ esp < UXSTACKTOP - 0x1000 + 56) := by
  have htop : UXSTACKTOP = 4005560320#32 := rfl
  rw [faultEsp, htop]
  split <;> bv_omega

theorem Mem.UserWritable.of_page {m : Mem} {a va : Word} (h : m.UserWritable d va)
    (hpage : pgnum a = pgnum va) : m.UserWritable d a := by
  obtain ⟨pde, pte, hw, hperm⟩ := h
  exact ⟨pde, pte, (Mem.walk_of_page hpage).trans hw, hperm⟩

/-- A frame that does not fit covers bytes of the page below, and of the exception stack if there
are more than 4 bytes left of it. -/
theorem frame_writable_iff {m : Mem} {esp : Word} (hlo : UXSTACKTOP - 0x1000 ≤ esp)
    (hhi : esp < UXSTACKTOP - 0x1000 + 56) :
    (∀ i < 52, m.UserWritable d (faultEsp esp + BitVec.ofNat 32 i)) ↔
      m.UserWritable d (UXSTACKTOP - 0x2000) ∧
      (UXSTACKTOP - 0x1000 + 4 < esp → m.UserWritable d (UXSTACKTOP - 0x1000)) := by
  have hlo' : 4005556224 ≤ esp.toNat := hlo
  have hhi' : esp.toNat < 4005556280 := hhi
  have htop : esp ≤ UXSTACKTOP := by
    rw [BitVec.le_def, show UXSTACKTOP.toNat = 4005560320 from rfl]
    omega
  have hesp : (faultEsp esp).toNat + 52 + 4 = esp.toNat :=
    faultEsp_nested (show UXSTACKTOP - 0x1000 ≤ ({ esp } : Trapframe).esp from hlo) htop
  have hbelow : pgnum (UXSTACKTOP - 0x2000) = 977918 := by decide
  have hpage : pgnum (UXSTACKTOP - 0x1000) = 977919 := by decide
  have hle := faultEsp_le esp
  have hpg : ∀ {i}, i < 52 → pgnum (faultEsp esp + BitVec.ofNat 32 i) =
      ((faultEsp esp).toNat + i) / 4096 := fun hi ↦ by
    rw [pgnum_eq, (add_ofNat_lt_UTOP hle hi).1]
  constructor
  · intro hW
    refine ⟨(hW 0 (by decide)).of_page ?_, fun hlt ↦ (hW 51 (by decide)).of_page ?_⟩
    · rw [hpg (by decide), hbelow]
      omega
    · have hlt' : 4005556228 < esp.toNat := hlt
      rw [hpg (by decide), hpage]
      omega
  · rintro ⟨hWb, hWp⟩ i hi
    by_cases hc : (faultEsp esp).toNat + i < 4005556224
    · refine hWb.of_page ?_
      rw [hpg hi, hbelow]
      omega
    · refine (hWp ?_).of_page ?_
      · rw [BitVec.lt_def, show (UXSTACKTOP - 0x1000 + 4).toNat = 4005556228 from rfl]
        omega
      · rw [hpg hi, hpage]
        omega

section

variable (ho : PdesOpen B k.mem k.dirs) (hd : k.dirs cur = some d)

include ho hd

/-- Below `UTOP` the check asks for what the hardware asks for. -/
theorem accessible_iff_writable {va : Word} (hva : va < UTOP) :
    Accessible k.mem d (PTE_U ||| PTE_P ||| PTE_W ||| PTE_U) va ↔ k.mem.UserWritable d va := by
  have hlim : va < ULIM := BitVec.lt_trans hva (by decide)
  rw [accessible_iff_of_openPde ⟨by decide, by decide⟩ hlim
    (ho.user cur d _ hd (pdx_lt_of_lt_UTOP hva))]
  constructor
  · intro h
    exact h.2 (by decide)
  · rintro ⟨pde, pte, hw, hU, hW⟩
    exact ⟨⟨pde, pte, hw, hU⟩, fun _ ↦ ⟨pde, pte, hw, hU, hW⟩⟩

theorem frameChecked_iff (ht : TablesInMemory B k.mem d) {esp : Word} :
    FrameChecked B k.mem d esp = some none ↔
      ∀ i < 52, k.mem.UserWritable d (faultEsp esp + BitVec.ofNat 32 i) := by
  constructor
  · intro hcheck i hi
    exact ho.frame_writable hd hcheck hi
  · intro hW
    rw [FrameChecked, userMemCheck_eq]
    intro i hi
    have hle := faultEsp_le esp
    have htop : UTOP.toNat = 4005560320 := rfl
    have hstart := rounddown_toNat (faultEsp esp)
    rw [checkedPages, hstart, roundup_sum_toNat, show (52 : Word).toNat = 52 from rfl, PGSIZE] at hi
    -- a byte of the frame on that page
    obtain ⟨j, hj, hpage⟩ : ∃ j < 52,
        ((faultEsp esp).toNat + j) / 4096 = (faultEsp esp).toNat / 4096 + i := by
      rcases Nat.eq_zero_or_pos i with rfl | hpos
      · exact ⟨0, by decide, rfl⟩
      · exact ⟨((faultEsp esp).toNat / 4096 + i) * 4096 - (faultEsp esp).toNat, by omega, by omega⟩
    obtain ⟨hnat, hlt⟩ := add_ofNat_lt_UTOP hle hj
    have hpg : pgnum (rounddown (faultEsp esp) 0x1000 + BitVec.ofNat 32 (i * 4096)) =
        pgnum (faultEsp esp + BitVec.ofNat 32 j) := by
      rw [pgnum_eq, pgnum_eq, hnat, BitVec.toNat_add, hstart, BitVec.toNat_ofNat]
      omega
    have hlt' : rounddown (faultEsp esp) 0x1000 + BitVec.ofNat 32 (i * 4096) < UTOP := by
      rw [pgnum_eq, pgnum_eq, hnat] at hpg
      rw [BitVec.lt_def, htop]
      omega
    rw [ht.passes_iff, accessible_iff_writable ho hd hlt']
    exact (hW j hj).of_page hpg

end

/-! ## Detection -/

/-- Without an upcall. -/
theorem Inv.pageFaultHandler_no_upcall (h : Inv B M k l el) (hb : k.Bounded B)
    (hlive : k.Live cur) (hup : (k.envs cur).envPgfaultUpcall = 0) (tf : Trapframe) (cr2 : Word) :
    ∃ k', pageFaultHandler B (k.setTf cur tf) cur cr2 = some (.yield none, k') ∧
      (k'.envs cur).envStatus = .free := by
  obtain ⟨k', hfree, hst, -⟩ := (h.setTf cur tf).envFree_content
    (by rw [Kern.Bounded, Kern.dirs_setTf]; exact hb)
    (by rw [Kern.Live, (k.keeps_setTf cur _ cur).envStatus]; exact hlive)
  have hup' : ((k.setTf cur tf).envs cur).envPgfaultUpcall = 0 := by
    simpa [Kern.setTf] using hup
  refine ⟨k', ?_, hst⟩
  simp only [pageFaultHandler, hup', ne_eq, not_true_eq_false, if_false, envDestroy, and_false,
    hfree]
  rfl

/-- One fault. -/
theorem RunInv.detected_iff (h : RunInv B M k l el) (hb : k.Bounded B)
    (ho : PdesOpen B k.mem k.dirs) (hlive : k.Live cur) (tf : Trapframe) (cr2 : Word) :
    Detected B k cur tf cr2 ↔ ¬ Overruns k cur tf.esp := by
  obtain ⟨d, hd, hpg⟩ := h.inv.live_dir hlive
  have ht := h.inv.tablesInMemory hd
  by_cases hup : (k.envs cur).envPgfaultUpcall = 0
  · exact iff_of_true (.inl (h.inv.pageFaultHandler_no_upcall hb hlive hup tf cr2)) fun hover ↦
      hover.upcall hup
  obtain ⟨r, hcheck⟩ : ∃ r, FrameChecked B k.mem d tf.esp = some r := ht.exists_loop _ _
  cases r with
  | some a =>
      -- the frame is not in memory that the program may write
      refine iff_of_true (.inl ((h.inv.pageFaultHandler_destroy hd hup hb hcheck).imp
        fun _ hrun ↦ ⟨hrun.1, hrun.2.1⟩)) fun hover ↦ ?_
      obtain ⟨d', hd', hbelow⟩ := hover.below
      obtain rfl := Option.some.inj (hpg.symm.trans hd')
      have hpage : UXSTACKTOP - 0x1000 + 4 < tf.esp →
          k.mem.UserWritable d (UXSTACKTOP - 0x1000) := fun hlt ↦ by
        obtain ⟨d', hd', hW⟩ := hover.page hlt
        obtain rfl := Option.some.inj (hpg.symm.trans hd')
        exact hW
      have hok := (frameChecked_iff ho hd ht).mpr
        ((frame_writable_iff hover.lo hover.hi).mpr ⟨hbelow, hpage⟩)
      cases hok.symm.trans hcheck
  | none =>
      obtain ⟨m', hrun, hframe, -⟩ := h.inv.pageFaultHandler_upcall hd hup cr2 ho hcheck
      have hW := (frameChecked_iff ho hd ht).mp hcheck
      by_cases hfit : UXSTACKTOP - 0x1000 ≤ faultEsp tf.esp
      · refine iff_of_true (.inr ⟨d, m', hpg, hrun, hframe, fun i hi ↦ ?_⟩) fun hover ↦
          (frame_fits_iff tf.esp).mp hfit ⟨hover.lo, hover.hi⟩
        obtain ⟨hnat, hlt⟩ := frameByte_lt tf hi
        refine ⟨?_, hlt⟩
        rw [BitVec.le_def] at hfit ⊢
        omega
      · have hover := not_not.mp ((frame_fits_iff tf.esp).not.mp hfit)
        obtain ⟨hbelow, hpage⟩ := (frame_writable_iff hover.1 hover.2).mp hW
        refine iff_of_false ?_ (not_not.mpr ⟨hup, hover.1, hover.2, ⟨d, hpg, hbelow⟩,
          fun hlt ↦ ⟨d, hpg, hpage hlt⟩⟩)
        rintro (⟨k', hrun', -⟩ | ⟨d', m'', -, hrun', -, hin⟩)
        · cases hrun.symm.trans hrun'
        · have h0 := (hin 0 (by decide)).1
          rw [frameByte, BitVec.add_zero] at h0
          exact hfit h0

/-- In any state that the system reaches, through page faults and whatever the environments do in
between, an overflow of the exception stack is detected unless the program may write the page below
(and the page of the exception stack, if the frame reaches into it). -/
theorem exception_stack_detected_iff {cfg : BootConfig} {k₀ : Kern} (booted : Booted cfg k₀)
    (run : FaultRun cfg.machine k₀ k) (live : k.Live cur) (tf : Trapframe) (cr2 : Word) :
    Detected cfg.machine k cur tf cr2 ↔ ¬ Overruns k cur tf.esp := by
  obtain ⟨hinv₀, hb₀⟩ := booted.runInv
  obtain ⟨⟨l, el, h⟩, hb, ho⟩ := run.spec hinv₀ hb₀ booted.pdesOpen
  exact h.detected_iff hb ho live tf cr2

theorem FaultRun.of_run {k₀ : Kern} (run : Run B (Kern.Bounded B) k₀ k) : FaultRun B k₀ k := by
  induction run with
  | refl => exact .refl
  | tail _ hstep ih => exact ih.tail ⟨.step hstep.1, hstep.2⟩

theorem exception_stack_detected_iff_demo : ∃ k₀ k a, Booted demoConfig k₀ ∧
    FaultRun demoConfig.machine k₀ k ∧ k.Live a ∧
    (Detected demoConfig.machine k a {} 0 ↔ ¬ Overruns k a ({} : Trapframe).esp) := by
  obtain ⟨k₀, k, a, d, p, booted, hrun, hlive, -⟩ := exists_seen_twice
  exact ⟨k₀, k, a, booted, .of_run hrun, hlive,
    exception_stack_detected_iff booted (.of_run hrun) hlive {} 0⟩

/-- A fault with an empty rest of the exception stack, and the page below mapped. -/
theorem exception_stack_overrun : ∃ k₀ k a tf cr2, Booted demoConfig k₀ ∧
    FaultRun demoConfig.machine k₀ k ∧ k.Live a ∧ ¬ Detected demoConfig.machine k a tf cr2 := by
  obtain ⟨k₀, k, a, d, p, booted, hrun, hlive, hd, hup, -, hp⟩ := exists_seen_twice
  obtain ⟨hinv₀, hb₀⟩ := booted.runInv
  obtain ⟨⟨l, el, h⟩, hb, ho⟩ := (FaultRun.of_run hrun).spec hinv₀ hb₀ booted.pdesOpen
  refine ⟨k₀, k, a, { esp := UXSTACKTOP - 0x1000 }, 0, booted, .of_run hrun, hlive, ?_⟩
  rw [h.detected_iff hb ho hlive, not_not]
  refine ⟨hup, by decide, by decide, ⟨d, (Kern.live_of_dirs hd).2, ?_⟩, fun hlt ↦ ?_⟩
  · obtain ⟨pde, pte, hw, -, hflags⟩ := Kern.walk_of_space hd hp
    rw [← accessible_iff_writable ho hd (by decide)]
    refine ⟨by decide, pde, pte, hw, ?_⟩
    calc pte &&& (PTE_U ||| PTE_P ||| PTE_W ||| PTE_U) = flags pte &&& permRW := by
          rw [flags, BitVec.and_assoc]
          rfl
      _ = PTE_U ||| PTE_P ||| PTE_W ||| PTE_U := by
          rw [hflags]
          rfl
  · exact absurd hlt (by decide)

end Jos
