import Jos.Kern.Secrecy
import Jos.Kern.Authority
import Jos.Kern.MemInit

/-!
# Isolation

The pages that belong to an environment alone, its directory and page tables among them, are its
own: as long as only strangers act, nobody changes them (`isolation_integrity`), and nobody finds
out what is in them (`isolation_secrecy`).  A stranger is neither the environment itself nor its
parent, and the environment does not wait for a message.

This does not cover calls of `sys_cputs` with a range that reaches the last page or with a length
that is negative as an `int`: the one is not checked (`user_mem_check_sound_iff`), the other is no
bound (`cputs_reads_checked_iff`).
-/

namespace Jos

open Jos.Lib Printfmt

variable {B : Machine} {M : Pool B} {k k' k'' : Kern} {l : List ℕ} {el : List Slot}
  {a cur e : Slot} {P : Set ℕ} {g : ℕ → ℕ → Word} {p d : ℕ} {T : Set Slot} {S : Set ℕ} {m' : Mem}

/-! ## Faults -/

theorem Hidden.congr (h : Hidden B M k a P) (hmem : k'.mem = k.mem) (hdirs : k'.dirs = k.dirs) :
    Hidden B M k' a P := by
  obtain ⟨hpen, hkern, htable, hload⟩ := h
  refine ⟨?_, hkern, ?_, ?_⟩
  · rw [hmem, hdirs]
    exact hpen
  · rw [hmem, hdirs]
    exact htable
  · rw [hmem, hdirs]
    exact hload

/-- Stores of user programs change no ownership. -/
theorem Inv.ownedBy_stored (h : Inv B M k l el) (hs : Stored k m') :
    (k.setMem m').OwnedBy a p ↔ k.OwnedBy a p := by
  have htar : target B (k.setMem m').mem (k.setMem m').dirs = target B k.mem k.dirs :=
    h.stored_target hs
  rw [(h.stored_inv hs).ownedBy_iff, h.ownedBy_iff, Kern.refs, Kern.refs, htar]

/-- The stores of an environment below `UTOP` are not into a page of another one. -/
theorem Inv.storeBytes_cover (h : Inv B M k l el) (hw : Windows B M k.mem)
    (hP : ∀ p ∈ P, k.OwnedBy a p) (he : e ≠ a) (hd : k.dirs e = some d) {bs : List (BitVec 8)}
    {va : Word} (hva : va.toNat + bs.length ≤ UTOP.toNat) :
    storeBytes (k.mem.cover P g) d va bs = (storeBytes k.mem d va bs).map (·.cover P g) := by
  induction bs generalizing k va with
  | nil => rfl
  | cons b bs ih =>
      have hlt : va < UTOP := by
        rw [List.length_cons] at hva
        rw [BitVec.lt_def]
        omega
      have hulim : va < ULIM := by
        have hlt' : va.toNat < UTOP.toNat := hlt
        rw [BitVec.lt_def]
        exact hlt'.trans (by decide)
      have hhid := h.hidden hw hP
      have hbyte := Mem.storeByte_cover (g := g) (hhid.dir_notMem he hd)
        (fun _ ht ↦ hhid.table e d _ _ he hd (pdx_lt va) ht)
        (fun pde pte ↦ hhid.load e d va pde pte he hd hulim) b
      rw [storeBytes, storeBytes, hbyte]
      cases hstore : k.mem.storeByte d va b with
      | none => rfl
      | some m₁ =>
          have hs := Kern.storeByte_stored hd hlt hstore
          have h₁ := h.stored_inv hs
          refine ih h₁ (hw.of_same (h.stored_kernSame hs))
            (fun p hp ↦ (h.ownedBy_stored hs).mpr (hP p hp)) hd ?_
          rw [List.length_cons] at hva
          rw [BitVec.toNat_add, show (1 : Word).toNat = 1 from rfl]
          have hu : UTOP.toNat = 4005560320 := rfl
          omega

section Handlers

variable (h : Inv B M k l el) (hw : Windows B M k.mem) (hP : ∀ p ∈ P, k.OwnedBy a p)
  (hs : k.Stranger a cur) (hc : k.Live cur)

include h hw hP hc

theorem Inv.pageFaultHandler_cover (hne : cur ≠ a) (cr2 : Word) :
    pageFaultHandler B (k.cover P g) cur cr2 =
      (pageFaultHandler B k cur cr2).map (coverSnd P g) := by
  have hhid := h.hidden hw hP
  simp only [pageFaultHandler]
  by_cases hup : (k.envs cur).envPgfaultUpcall ≠ 0
  swap
  · have hup' : ¬ ((k.cover P g).envs cur).envPgfaultUpcall ≠ 0 := hup
    simp only [if_neg hup, if_neg hup', hhid.envDestroy_cover hne hc]
    cases envDestroy B k (some cur) cur with
    | none => rfl
    | some x => rfl
  have hup' : ((k.cover P g).envs cur).envPgfaultUpcall ≠ 0 := hup
  simp only [if_pos hup, if_pos hup']
  let tf : Trapframe := { (k.envs cur).envTf with esp := faultEsp (k.envs cur).envTf.esp }
  have hc₁ : (k.setTf cur tf).Live cur := by simpa [Kern.Live, Kern.setTf] using hc
  have hhid₁ : Hidden B M (k.setTf cur tf) a P := hhid.congr rfl (k.dirs_setTf cur tf)
  have hassert := hhid₁.userMemAssert_cover (g := g) hne hc₁ (faultEsp (k.envs cur).envTf.esp) 52
    (PTE_U ||| PTE_P ||| PTE_W)
  refine (congrArg (fun x ↦ Option.bind x _) hassert).trans ?_
  obtain ⟨r, hr⟩ : ∃ r, userMemAssert B (k.setTf cur tf) cur (faultEsp (k.envs cur).envTf.esp) 52
      (PTE_U ||| PTE_P ||| PTE_W) = r := ⟨_, rfl⟩
  rw [hr]
  refine Eq.trans ?_ (congrArg (fun x ↦ Option.map _ (Option.bind x _)) hr.symm)
  cases r with
  | none => rfl
  | some x =>
  obtain ⟨u | c, k₁⟩ := x
  swap
  · rfl
  obtain ⟨rfl, d, hd, -⟩ := userMemAssert_ret hr
  have hpg : (k.envs cur).envPgdir = some d := by simpa [Kern.setTf] using hd
  let bs := utfBytes cr2 (k.envs cur).envTf
  have hlen : (faultEsp (k.envs cur).envTf.esp).toNat + bs.length ≤ UTOP.toNat :=
    faultEsp_le (k.envs cur).envTf.esp
  have hstore := h.storeBytes_cover (g := g) hw hP hne (hc.dirs_eq.trans hpg) hlen
  let K := (k.setTf cur tf).modEnv cur fun env ↦
    { env with envTf := { env.envTf with eip := env.envPgfaultUpcall } }
  have hK : (K.envs cur).envPgdir = some d := by simpa [K] using hd
  show ((K.envs cur).envPgdir.bind fun d ↦
      (storeBytes (k.mem.cover P g) d (faultEsp (k.envs cur).envTf.esp) bs).bind fun m ↦
        some (Exit.run, K.setMem m)) =
    ((K.envs cur).envPgdir.bind fun d ↦
      (storeBytes k.mem d (faultEsp (k.envs cur).envTf.esp) bs).bind fun m ↦
        some (Exit.run, K.setMem m)).map (coverSnd P g)
  rw [hK, Option.bind_some, Option.bind_some, hstore]
  cases storeBytes k.mem d (faultEsp (k.envs cur).envTf.esp) bs with
  | none => rfl
  | some m => rfl

include hs in
/-- No trap of a stranger looks at the pages of `P`. -/
theorem Inv.trapDispatch_cover (hr : (k.envs a).envIpcRecving = false)
    (hfits : (k.envs cur).envTf.trapno = T_SYSCALL →
      sysNo (k.envs cur).envTf.regs.eax = some .cputs →
      CputsFits (k.envs cur).envTf.regs.edx (k.envs cur).envTf.regs.ecx) (cr2 getc : Word) :
    trapDispatch B (k.cover P g) cur cr2 getc =
      (trapDispatch B k cur cr2 getc).map (coverSnd P g) := by
  have hhid := h.hidden hw hP
  have henv : (k.cover P g).envs = k.envs := rfl
  rw [trapDispatch, trapDispatch]
  simp only [henv]
  by_cases hspur : (k.envs cur).envTf.trapno = IRQ_OFFSET + IRQ_SPURIOUS
  · simp only [if_pos hspur]
    rfl
  by_cases hpf : (k.envs cur).envTf.trapno = T_PGFLT
  · simp only [if_neg hspur, if_pos hpf]
    exact h.pageFaultHandler_cover hw hP hc hs.other cr2
  by_cases hbrk : (k.envs cur).envTf.trapno = T_BRKPT
  · simp only [if_neg hspur, if_neg hpf, if_pos hbrk]
    rfl
  by_cases hsys : (k.envs cur).envTf.trapno = T_SYSCALL
  · simp only [if_neg hspur, if_neg hpf, if_neg hbrk, if_pos hsys,
      hhid.syscall_cover hs hc hr (hfits hsys)]
    cases syscall B k cur getc (k.envs cur).envTf.regs.eax (k.envs cur).envTf.regs.edx
      (k.envs cur).envTf.regs.ecx (k.envs cur).envTf.regs.ebx (k.envs cur).envTf.regs.edi
      (k.envs cur).envTf.regs.esi with
    | none => rfl
    | some x =>
        obtain ⟨_ | _, k'⟩ := x
        · rfl
        · rfl
  by_cases htimer : (k.envs cur).envTf.trapno = IRQ_OFFSET + IRQ_TIMER
  · simp only [if_neg hspur, if_neg hpf, if_neg hbrk, if_neg hsys, if_pos htimer]
    rfl
  · simp only [if_neg hspur, if_neg hpf, if_neg hbrk, if_neg hsys, if_neg htimer,
      hhid.envDestroy_cover hs.other hc]
    cases envDestroy B k (some cur) cur with
    | none => rfl
    | some x => rfl

end Handlers

/-! ## The scheduler -/

/-- The whole system, with the contents `g` in the pages of `P`. -/
noncomputable def Smp.cover (s : Smp) (P : Set ℕ) (g : ℕ → ℕ → Word) : Smp :=
  s.setKern (s.kern.cover P g)

variable {s s' s'' : Smp} {c : CpuId} {en : Entry}

theorem Smp.cover_modCpu (s : Smp) (c : CpuId) (f : Cpu → Cpu) :
    (s.cover P g).modCpu c f = (s.modCpu c f).cover P g := rfl

theorem leaveCpu_cover (k : Kern) (o : Option Slot) :
    leaveCpu (k.cover P g) o = (leaveCpu k o).cover P g := by
  cases o with
  | none => rfl
  | some o => rfl

/-- The state in which `env_run` looks up the directory of another environment. -/
def launched (k : Kern) (o : Option Slot) (e : Slot) : Kern :=
  (leaveCpu k o).modEnv e fun env ↦ { env with envStatus := .running, envRuns := env.envRuns + 1 }

theorem envRun_launched (h : s.curenv c ≠ some e) : envRun s c e =
    ((launched s.kern (s.curenv c) e).envs e).envPgdir.bind fun d ↦
      some ((s.modCpu c fun cpu ↦ { cpu with cpuEnv := some e, cr3 := d }).setKern
        ((launched s.kern (s.curenv c) e).modEnv e fun env ↦ { env with envCpunum := c })) := by
  simp only [envRun, if_pos h]
  cases s.curenv c with
  | none => rfl
  | some o => rfl

theorem envRun_cover (s : Smp) (c : CpuId) (e : Slot) :
    envRun (s.cover P g) c e = (envRun s c e).map (·.cover P g) := by
  have hcur : (s.cover P g).curenv c = s.curenv c := rfl
  have hkern : (s.cover P g).kern = s.kern.cover P g := rfl
  by_cases h : s.curenv c ≠ some e
  · rw [envRun_launched h, envRun_launched (s := s.cover P g) (hcur.symm ▸ h), hcur, hkern,
      launched, leaveCpu_cover, Kern.cover_modEnv, ← launched]
    show ((launched s.kern (s.curenv c) e).envs e).envPgdir.bind _ = _
    cases ((launched s.kern (s.curenv c) e).envs e).envPgdir with
    | none => rfl
    | some d => rfl
  · simp only [envRun, hcur, if_neg h]
    rfl

theorem schedPick_cover (s : Smp) (c : CpuId) : schedPick (s.cover P g) c = schedPick s c := by
  have hcur : (s.cover P g).curenv c = s.curenv c := rfl
  have henvs : (s.cover P g).kern.envs = s.kern.envs := rfl
  have hstatus : (s.cover P g).status = s.status := rfl
  rw [schedPick, schedPick, hcur, henvs, hstatus]

theorem schedHalt_cover (s : Smp) (c : CpuId) :
    schedHalt B (s.cover P g) c = (schedHalt B s c).map (·.cover P g) := by
  have hstatus : (s.cover P g).status = s.status := rfl
  rw [schedHalt, schedHalt, hstatus]
  by_cases h : ∃ e, s.status e = .runnable ∨ s.status e = .running ∨ s.status e = .dying
  · rw [if_pos h, if_pos h]
    rfl
  · rw [if_neg h, if_neg h]
    rfl

theorem schedYield_cover (s : Smp) (c : CpuId) :
    schedYield B (s.cover P g) c = (schedYield B s c).map (·.cover P g) := by
  have hcur : (s.cover P g).curenv c = s.curenv c := rfl
  cases hpick : schedPick s c with
  | some e =>
      rw [schedYield_of_pick hpick, schedYield_of_pick ((schedPick_cover s c).trans hpick),
        envRun_cover]
  | none =>
      rw [schedYield_of_none hpick, schedYield_of_none ((schedPick_cover s c).trans hpick), hcur]
      cases s.curenv c with
      | none => exact schedHalt_cover s c
      | some e =>
          by_cases h : s.status e = .running
          · have h' : (s.cover P g).status e = .running := h
            simp only [if_pos h, if_pos h']
            exact envRun_cover s c e
          · have h' : ¬ (s.cover P g).status e = .running := h
            simp only [if_neg h, if_neg h']
            exact schedHalt_cover s c

theorem trapTail_cover (s : Smp) (c : CpuId) :
    trapTail B (s.cover P g) c = (trapTail B s c).map (·.cover P g) := by
  have hcur : (s.cover P g).curenv c = s.curenv c := rfl
  simp only [trapTail, hcur, schedYield_cover, envRun_cover]
  cases s.curenv c with
  | none => rfl
  | some e =>
      have hst : (s.cover P g).status e = s.status e := rfl
      simp only [hst]
      split
      · rfl
      · rfl

theorem yieldAs_cover (s : Smp) (c : CpuId) (o : Option Slot) :
    yieldAs B (s.cover P g) c o = (yieldAs B s c o).map (·.cover P g) := by
  cases o with
  | some e =>
      simp only [yieldAs]
      rw [schedYield_cover]
  | none =>
      simp only [yieldAs, Smp.cover_modCpu]
      rw [schedYield_cover]

/-! ## Entries of strangers -/

/-- The entry is one of a stranger, and keeps to the rules for `sys_cputs`. -/
structure Entry.Foreign (en : Entry) (s : Smp) (a : Slot) : Prop where
  live : ∀ e, s.curenv en.cpu = some e → s.kern.Live e
  stranger : ∀ e, s.curenv en.cpu = some e → s.kern.Stranger a e
  fits : ∀ c tf cr2 getc, en = .trap c tf cr2 getc → tf.trapno = T_SYSCALL →
    sysNo tf.regs.eax = some .cputs → CputsFits tf.regs.edx tf.regs.ecx

/-- What `sys_cputs` prints in an entry. -/
def Entry.printed (B : Machine) (s : Smp) : Entry → List PrintEv
  | .trap c tf _ _ =>
      match s.curenv c with
      | none => []
      | some cur =>
          if s.status cur ≠ .dying ∧ tf.trapno = T_SYSCALL ∧ sysNo tf.regs.eax = some .cputs then
            sysCputsLog B (s.kern.setTf cur tf) cur tf.regs.edx tf.regs.ecx
          else []
  | _ => []

/-- `a` lives in a kernel that keeps its invariant, and does not wait for a message. -/
structure Calm (B : Machine) (M : Pool B) (k : Kern) (a : Slot) : Prop where
  inv : ∃ l el, RunInv B M k l el
  windows : Windows B M k.mem
  live : k.Live a
  quiet : (k.envs a).envIpcRecving = false

section Foreign

variable {tf : Trapframe} {cr2 getc : Word} (h : Calm B M s.kern a)
  (hP : ∀ p ∈ P, s.kern.OwnedBy a p)

theorem Kern.Stranger.setTf (hs : k.Stranger a cur) (tf : Trapframe) :
    (k.setTf cur tf).Stranger a cur := by
  refine ⟨hs.other, ?_⟩
  rw [(k.keeps_setTf cur tf cur).envId, (k.keeps_setTf cur tf a).envParentId]
  exact hs.parent

theorem Inv.ownedBy_of_same (h : Inv B M k l el) (hk : ∃ l el, Inv B M k' l el)
    (hmem : k'.mem = k.mem) (hdirs : k'.dirs = k.dirs) : k'.OwnedBy a p ↔ k.OwnedBy a p := by
  obtain ⟨l', el', h'⟩ := hk
  rw [h'.ownedBy_iff, h.ownedBy_iff, Kern.refs, Kern.refs, hmem, hdirs]

include h hP

theorem Calm.trap_cover (hf : (Entry.trap c tf cr2 getc).Foreign s a) :
    (Entry.trap c tf cr2 getc).exec B (s.cover P g) =
      ((Entry.trap c tf cr2 getc).exec B s).map (·.cover P g) := by
  obtain ⟨l, el, hinv, -⟩ := h.inv
  have hcpu : (s.cover P g).cpus = s.cpus := rfl
  by_cases hst : (s.cpus c).cpuStatus = .started
  swap
  · simp only [Entry.exec, hcpu, if_neg hst]
    rfl
  cases hcur : s.curenv c with
  | none =>
      have hcur' : (s.cover P g).curenv c = none := hcur
      rw [Entry.exec, Entry.exec, hcpu, if_pos hst, if_pos hst, trapUser, trapUser,
        Smp.modCpu_started hst, Smp.modCpu_started (s := s.cover P g) hst]
      simp only [hcur, hcur']
      rfl
  | some cur =>
  have hcur' : (s.cover P g).curenv c = some cur := hcur
  have hlive := hf.live cur hcur
  have hstr := hf.stranger cur hcur
  by_cases hdy : s.status cur = .dying
  · have hdy' : (s.cover P g).status cur = .dying := hdy
    have hfree := (hinv.hidden h.windows hP).envFree_cover (g := g) hstr.other hlive
    rw [Entry.exec, Entry.exec, hcpu, if_pos hst, if_pos hst, trapUser, trapUser,
      Smp.modCpu_started hst, Smp.modCpu_started (s := s.cover P g) hst]
    simp only [hcur, hcur', Option.bind_eq_bind, Option.bind_some, if_pos hdy, if_pos hdy']
    have hkern : (s.cover P g).kern = s.kern.cover P g := rfl
    rw [hkern, hfree]
    cases envFree B s.kern cur with
    | none => rfl
    | some k' =>
        have hset : (s.cover P g).setKern (k'.cover P g) = (s.setKern k').cover P g := rfl
        rw [Option.map_some, Option.bind_some, Option.bind_some, hset, yieldAs_cover]
  · have hdy' : (s.cover P g).status cur ≠ .dying := hdy
    rw [exec_trap hst hcur hdy, exec_trap (s := s.cover P g) hst hcur' hdy']
    have hregs : ((s.kern.setTf cur tf).envs cur).envTf = tf := by simp [Kern.setTf]
    have hinv' := hinv.setTf cur tf
    have hself : (s.kern.setTf cur tf).envs a = s.kern.envs a :=
      Kern.envs_modEnv_of_ne _ _ hstr.other.symm
    have hP' : ∀ p ∈ P, (s.kern.setTf cur tf).OwnedBy a p := fun p hp ↦
      (hinv.ownedBy_of_same ⟨l, el, hinv'⟩ rfl (s.kern.dirs_setTf cur tf)).mpr (hP p hp)
    have hdisp := hinv'.trapDispatch_cover (g := g) h.windows hP'
      (hstr.setTf tf) (by simpa [Kern.Live, Kern.setTf] using hlive) (hself ▸ h.quiet)
      (hregs.symm ▸ hf.fits c tf cr2 getc rfl) cr2 getc
    have hkern : (s.cover P g).kern.setTf cur tf = (s.kern.setTf cur tf).cover P g := rfl
    rw [hkern, hdisp]
    cases trapDispatch B (s.kern.setTf cur tf) cur cr2 getc with
    | none => rfl
    | some x =>
        obtain ⟨_ | o | _, k'⟩ := x
        · exact trapTail_cover (s.setKern k') c
        · exact yieldAs_cover (s.setKern k') c o
        · exact envRun_cover (s.setKern k') c cur

/-- An entry of a stranger does not look at the pages of `P`. -/
theorem Calm.exec_cover (hf : en.Foreign s a) :
    en.exec B (s.cover P g) = (en.exec B s).map (·.cover P g) := by
  have hcpu : (s.cover P g).cpus = s.cpus := rfl
  cases en with
  | trap c tf cr2 getc => exact h.trap_cover hP hf
  | wake c trapno =>
      rw [Entry.exec, Entry.exec, hcpu]
      split
      · rw [trapHalted, trapHalted, Smp.cover_modCpu, trapTail_cover, schedYield_cover]
        split
        · rfl
        · split
          · rfl
          · rfl
      · rfl
  | start c =>
      rw [Entry.exec, Entry.exec, hcpu]
      split
      · rw [cpuStart, cpuStart, Smp.cover_modCpu, schedYield_cover]
      · rfl

/-- Nor does it print what is in them. -/
theorem Calm.printed_cover (hf : en.Foreign s a) :
    en.printed B (s.cover P g) = en.printed B s := by
  obtain ⟨l, el, hinv, -⟩ := h.inv
  cases en with
  | wake c trapno => rfl
  | start c => rfl
  | trap c tf cr2 getc =>
      have hcur : (s.cover P g).curenv c = s.curenv c := rfl
      rw [Entry.printed, Entry.printed, hcur]
      cases hcur : s.curenv c with
      | none => rfl
      | some cur =>
          have hstatus : (s.cover P g).status = s.status := rfl
          have hkern : (s.cover P g).kern.setTf cur tf = (s.kern.setTf cur tf).cover P g := rfl
          simp only [hstatus, hkern]
          split
          · next hcall =>
            have hhid : Hidden B M (s.kern.setTf cur tf) a P :=
              (hinv.hidden h.windows hP).congr rfl (s.kern.dirs_setTf cur tf)
            exact hhid.sysCputsLog_cover (hf.stranger cur hcur).other
              (by simpa [Kern.Live, Kern.setTf] using hf.live cur hcur)
              (hf.fits c tf cr2 getc rfl hcall.2.1 hcall.2.2)
          · rfl

end Foreign

/-! ## What is left of `a` -/

/-- The address space of `a` and all that it has for itself are as before, and of the environment
only the scheduler has changed something. -/
structure Unharmed (k k' : Kern) (a : Slot) : Prop where
  env : (k.envs a).Resched (k'.envs a)
  space : k'.space a = k.space a
  phys : ∀ p, k.OwnedBy a p → k'.mem.phys p = k.mem.phys p
  owned : ∀ p, k.OwnedBy a p → k'.OwnedBy a p

theorem Unharmed.refl (k : Kern) (a : Slot) : Unharmed k k a :=
  ⟨.refl _, rfl, fun _ _ ↦ rfl, fun _ ↦ id⟩

theorem Unharmed.trans (h : Unharmed k k' a) (h' : Unharmed k' k'' a) : Unharmed k k'' a where
  env := h.env.trans h'.env
  space := h'.space.trans h.space
  phys p hp := (h'.phys p (h.owned p hp)).trans (h.phys p hp)
  owned p hp := h'.owned p (h.owned p hp)

section After

variable (h : Inv B M k l el) (haft : After B M k l T S k') (ha : a ∉ T)
  (hS : ∀ p ∈ S, ¬ k.OwnedBy a p) (hphys : ∀ p, k.OwnedBy a p → k'.mem.phys p = k.mem.phys p)

include haft ha hphys

/-- The references of `a` are where they were. -/
theorem After.target_eq {key : Key Slot} (hkey : key.env = some a) :
    target B k'.mem k'.dirs key = target B k.mem k.dirs key := by
  obtain ⟨l', el', -, hev, -⟩ := haft
  have hdirs := (hev.others a ha).1
  have htab : ∀ {d i : ℕ}, k.dirs a = some d → tableOf k'.mem d i = tableOf k.mem d i := by
    intro d i hd
    rw [tableOf, tableOf, hphys d (.dir hd)]
  cases key with
  | kern i => cases hkey
  | dir e =>
      obtain rfl := Option.some.inj hkey
      exact hdirs
  | table e i =>
      obtain rfl := Option.some.inj hkey
      rw [target, target, hdirs]
      cases hd : k.dirs e with
      | none => rfl
      | some d => exact htab hd
  | page e v =>
      obtain rfl := Option.some.inj hkey
      rw [target, target, hdirs]
      cases hd : k.dirs e with
      | none => rfl
      | some d =>
          show entryFrame (pteOf k'.mem d v) = entryFrame (pteOf k.mem d v)
          cases ht : tableOf k.mem d (v / 1024) with
          | none => rw [pteOf_of_no_table ht, pteOf_of_no_table ((htab hd).trans ht)]
          | some t =>
              have hi := div_lt_NUPDE v.isLt
              have hpde : k.PdeAt e (v / 1024) t :=
                (Kern.pdeAt_iff (B := B) hi).mpr ((target_table hd hi).trans ht)
              rw [pteOf_of_table ht, pteOf_of_table ((htab hd).trans ht), hphys t (.table hi hpde)]

include h hS

/-- Nobody else gets a reference to a page that belongs to `a` alone. -/
theorem After.ownedBy (hp : k.OwnedBy a p) : k'.OwnedBy a p := by
  have hsame : ∀ {key : Key Slot}, key.env = some a →
      target B k'.mem k'.dirs key = target B k.mem k.dirs key := haft.target_eq ha hphys
  obtain ⟨hpos, hkeys⟩ := h.ownedBy_iff.mp hp
  obtain ⟨l', el', hinv', hev, -⟩ := haft
  have hle : k'.refs B p ≤ k.refs B p := by
    rcases hev.refs p with hle | hone | ⟨hmem, -⟩
    · exact hle
    · exact hone.trans hpos
    · exact absurd hp (hS p hmem)
  -- the references of `a` are as many as there were at all
  have hmine : owners (fun key ↦ if key.env = some a then target B k'.mem k'.dirs key else none) p =
      k.refs B p := by
    refine owners_congr fun key ↦ ?_
    by_cases hkey : key.env = some a
    · rw [if_pos hkey, hsame hkey]
    · rw [if_neg hkey]
      constructor
      · intro hc
        cases hc
      · intro hc
        exact absurd (hkeys key hc) hkey
  have hsplit := owners_split (fun key : Key Slot ↦ key.env = some a) (target B k'.mem k'.dirs) p
  rw [hmine] at hsplit
  have hleft : owners (fun key ↦ if Key.env key = some a then none
      else target B k'.mem k'.dirs key) p = 0 := by
    have : k'.refs B p = owners (target B k'.mem k'.dirs) p := rfl
    omega
  rcases hinv'.left_eq_zero_iff.mp hleft with hzero | howned
  · have : k'.refs B p = owners (target B k'.mem k'.dirs) p := rfl
    omega
  · exact howned

theorem After.unharmed : Unharmed k k' a := by
  have howned : ∀ p, k.OwnedBy a p → k'.OwnedBy a p := fun p ↦ haft.ownedBy h ha hS hphys
  obtain ⟨l', el', -, hev, henv⟩ := haft
  refine ⟨?_, (hev.others a ha).2, hphys, howned⟩
  rw [henv a ha]
  exact .refl _

end After

/-! ## Steps -/

theorem Kern.cover_self (k : Kern) (P : Set ℕ) : k.cover P k.mem.phys = k := by
  rw [Kern.cover, Mem.cover_self]
  rfl

/-- What has been covered is there. -/
theorem Kern.phys_of_cover_eq (h : k'.cover P g = k') (hp : p ∈ P) : k'.mem.phys p = g p := by
  rw [← h]
  exact Mem.phys_cover_of_mem hp

theorem Inv.not_ownedBy_of_space (h : Inv B M k l el) (he : e ≠ a) {v : ℕ} {f : Word}
    (hsp : k.space e v = some (p, f)) : ¬ k.OwnedBy a p := by
  obtain ⟨d, hd, hv, ht⟩ := Kern.space_eq_some.mp hsp
  exact h.page_notMem (P := {p | k.OwnedBy a p}) (fun _ ↦ id) he hd hv (translate_isSet ht).1

namespace Calm

theorem after (h : Calm B M k a) (hinv : RunInv B M k l el) (haft : After B M k l T S k')
    (ha : a ∉ T) (hS : ∀ p ∈ S, ¬ k.OwnedBy a p)
    (hphys : ∀ p, k.OwnedBy a p → k'.mem.phys p = k.mem.phys p) :
    Calm B M k' a ∧ Unharmed k k' a := by
  have hsp := haft.unharmed hinv.inv ha hS hphys
  obtain ⟨hinv', hev⟩ := hinv.after haft
  obtain ⟨l', el', -, -, henv⟩ := haft
  refine ⟨⟨hinv', h.windows.of_same hev.kern, ?_, ?_⟩, hsp⟩
  · rw [Kern.Live, henv a ha]
    exact h.live
  · rw [henv a ha]
    exact h.quiet

/-- A step that leaves memory alone. -/
theorem of_same (h : Calm B M k a) (hinv' : ∃ l el, RunInv B M k' l el) (hmem : k'.mem = k.mem)
    (hdirs : k'.dirs = k.dirs) (henv : (k.envs a).Resched (k'.envs a)) (hlive : k'.Live a) :
    Calm B M k' a ∧ Unharmed k k' a := by
  obtain ⟨l, el, hinv⟩ := h.inv
  obtain ⟨l', el', hrun⟩ := hinv'
  refine ⟨⟨⟨l', el', hrun⟩, ?_, hlive, henv.envIpcRecving.trans h.quiet⟩, henv, ?_, fun p _ ↦ ?_,
    fun p ↦ (hinv.inv.ownedBy_of_same ⟨l', el', hrun.inv⟩ hmem hdirs).mpr⟩
  · rw [hmem]
    exact h.windows
  · rw [Kern.space, Kern.space, hmem, hdirs]
  · rw [hmem]

theorem resched (h : Calm B M k a) (hk : k.Resched k') : Calm B M k' a ∧ Unharmed k k' a := by
  obtain ⟨l, el, hinv⟩ := h.inv
  exact h.of_same ⟨l, el, hinv.resched hk⟩ hk.mem hk.dirs_eq (hk.envs a)
    (mt (hk.free a).mp h.live)

theorem setTf (h : Calm B M k a) (hne : e ≠ a) (tf : Trapframe) :
    Calm B M (k.setTf e tf) a ∧ Unharmed k (k.setTf e tf) a := by
  obtain ⟨l, el, hinv⟩ := h.inv
  have hself : (k.setTf e tf).envs a = k.envs a := Kern.envs_modEnv_of_ne _ _ hne.symm
  refine h.of_same ⟨l, el, hinv.setTf e tf⟩ rfl (k.dirs_setTf e tf) ?_ ?_
  · rw [hself]
    exact .refl _
  · rw [Kern.Live, hself]
    exact h.live

variable {x : Exit} {y : Ctl Word} {cr2 getc no a1 a2 a3 a4 a5 : Word} (h : Calm B M k a)
  (hb : k.Bounded B) (hs : k.Stranger a cur) (hc : k.Live cur)

include h

theorem stored (hne : e ≠ a) (hd : k.dirs e = some d) {bs : List (BitVec 8)} {va : Word}
    (hva : va.toNat + bs.length ≤ UTOP.toNat) (hrun : storeBytes k.mem d va bs = some m') :
    Calm B M (k.setMem m') a ∧ Unharmed k (k.setMem m') a := by
  obtain ⟨l, el, hinv⟩ := h.inv
  have hstored := hinv.inv.storeBytes_stored hd hva hrun
  have haft : After B M k l ∅ ∅ (k.setMem m') := hinv.inv.after_stored hstored
  refine h.after hinv haft (Set.notMem_empty a) (fun _ hp ↦ hp.elim) fun p hp ↦ ?_
  have hcov := hinv.inv.storeBytes_cover (P := {p | k.OwnedBy a p}) (g := k.mem.phys) h.windows
    (fun _ ↦ id) hne hd hva
  rw [Mem.cover_self, hrun, Option.map_some] at hcov
  exact Kern.phys_of_cover_eq (congrArg k.setMem (Option.some.inj hcov).symm) hp

include hb hc

theorem envFree (hne : cur ≠ a) (hrun : Jos.envFree B k cur = some k') :
    Calm B M k' a ∧ Unharmed k k' a := by
  obtain ⟨l, el, hinv⟩ := h.inv
  obtain ⟨k₁, hk₁, -, haft⟩ := hinv.inv.envFree_spec hb hc
  obtain rfl := Option.some.inj (hk₁.symm.trans hrun)
  refine h.after hinv haft hne.symm (fun _ hp ↦ hp.elim) fun p hp ↦ ?_
  have hcov := (hinv.inv.hidden (P := {p | k.OwnedBy a p}) h.windows
    fun _ ↦ id).envFree_cover (g := k.mem.phys) hne hc
  rw [Kern.cover_self, hrun, Option.map_some] at hcov
  exact Kern.phys_of_cover_eq (Option.some.inj hcov).symm hp

include hs

theorem syscall (hfits : sysNo no = some .cputs → CputsFits a1 a2)
    (hrun : Jos.syscall B k cur getc no a1 a2 a3 a4 a5 = some (y, k')) :
    Calm B M k' a ∧ Unharmed k k' a := by
  obtain ⟨l, el, hinv⟩ := h.inv
  by_cases ha : a ∈ Touched k cur no a1
  · -- only as the receiver of a message, for which it does not wait
    have hno : sysNo no = some .ipcTrySend := by
      by_contra hno
      rw [Touched, if_neg hno] at ha
      rcases ha with (rfl | hpar) | hfree
      · exact hs.other rfl
      · exact hs.parent hpar.symm
      · exact h.live hfree
    rw [Touched, if_pos hno] at ha
    have htarget : envid2env k cur a1 false = some a := ha
    simp only [Jos.syscall, hno, sysIpcTrySend, htarget, h.quiet, returned, Bool.false_eq_true,
      not_false_eq_true, if_true, Option.map_some, Option.some.injEq, Prod.mk.injEq] at hrun
    obtain ⟨-, rfl⟩ := hrun
    exact ⟨h, .refl k a⟩
  · refine h.after hinv (hinv.inv.syscall_spec hb hc hrun) ha (fun p hp ↦ ?_) fun p hp ↦ ?_
    · rcases hp with ⟨-, src, dst, f, d, hsrc, -, -, -, -, hsp, -⟩ |
        ⟨-, e, f, d, -, -, -, -, hsp, -⟩
      · exact hinv.inv.not_ownedBy_of_space (hs.ne hsrc) hsp
      · exact hinv.inv.not_ownedBy_of_space hs.other hsp
    · have hcov := (hinv.inv.hidden (P := {p | k.OwnedBy a p}) h.windows
        fun _ ↦ id).syscall_cover (g := k.mem.phys) hs hc h.quiet hfits getc a3 a4 a5
      rw [Kern.cover_self, hrun, Option.map_some] at hcov
      exact Kern.phys_of_cover_eq (Prod.mk.inj (Option.some.inj hcov)).2.symm hp

theorem trapDispatch (hfits : (k.envs cur).envTf.trapno = T_SYSCALL →
      sysNo (k.envs cur).envTf.regs.eax = some .cputs →
      CputsFits (k.envs cur).envTf.regs.edx (k.envs cur).envTf.regs.ecx)
    (hrun : Jos.trapDispatch B k cur cr2 getc = some (x, k')) :
    Calm B M k' a ∧ Unharmed k k' a := by
  have free : ∀ {tf : Trapframe}, Jos.envFree B (k.setTf cur tf) cur = some k' →
      Calm B M k' a ∧ Unharmed k k' a := by
    intro tf hf
    obtain ⟨h₁, hsp₁⟩ := h.setTf hs.other tf
    have hb₁ : (k.setTf cur tf).Bounded B := by
      rw [Kern.Bounded, Kern.dirs_setTf]
      exact hb
    obtain ⟨h₂, hsp₂⟩ := h₁.envFree hb₁ (by simpa [Kern.Live, Kern.setTf] using hc) hs.other hf
    exact ⟨h₂, hsp₁.trans hsp₂⟩
  rw [Jos.trapDispatch] at hrun
  split at hrun
  · obtain rfl := (Prod.mk.inj (Option.some.inj hrun)).2
    exact ⟨h, .refl k a⟩
  split at hrun
  · rcases pageFaultHandler_cases hrun with ⟨-, tf, hf⟩ | ⟨-, -, d, m, hd, -, hstore, rfl⟩
    · exact free hf
    · obtain ⟨h₁, hsp₁⟩ := h.setTf hs.other (upcallTf (k.envs cur))
      have hdir : (k.setTf cur (upcallTf (k.envs cur))).dirs cur = some d := by
        rw [Kern.dirs_setTf, hc.dirs_eq, hd]
      obtain ⟨h₂, hsp₂⟩ := h₁.stored hs.other hdir
        ((length_utfBytes cr2 _).symm ▸ faultEsp_le (k.envs cur).envTf.esp) hstore
      exact ⟨h₂, hsp₁.trans hsp₂⟩
  split at hrun
  · cases hrun
  split at hrun
  · next hno =>
    simp only [Option.bind_eq_bind, Option.bind_eq_some_iff, Prod.exists] at hrun
    obtain ⟨y, k₁, hcall, hrun⟩ := hrun
    obtain ⟨h₁, hsp₁⟩ := h.syscall hb hs hc (hfits hno) hcall
    cases y with
    | yield o =>
        obtain rfl := (Prod.mk.inj (Option.some.inj hrun)).2
        exact ⟨h₁, hsp₁⟩
    | ret r =>
        obtain rfl := (Prod.mk.inj (Option.some.inj hrun)).2
        obtain ⟨h₂, hsp₂⟩ := h₁.setTf (e := cur) hs.other
          { (k₁.envs cur).envTf with regs := { (k₁.envs cur).envTf.regs with eax := r } }
        exact ⟨h₂, hsp₁.trans hsp₂⟩
  split at hrun
  · obtain rfl := (Prod.mk.inj (Option.some.inj hrun)).2
    exact ⟨h, .refl k a⟩
  · simp only [Option.bind_eq_bind, Option.bind_eq_some_iff, Prod.exists] at hrun
    obtain ⟨o, k₁, hd, hrun⟩ := hrun
    obtain rfl := (Prod.mk.inj (Option.some.inj hrun)).2
    have hf := (envDestroy_self hd).2
    rw [← k.setTf_self cur] at hf
    exact free hf

omit h hb hs hc in
theorem scheduled_yieldAs {o : Option Slot} (hrun : yieldAs B s c o = some s') :
    ∃ mid : Smp, mid.kern = s.kern ∧ Schedules mid c s' := by
  cases o with
  | some e =>
      simp only [yieldAs] at hrun
      exact ⟨s, rfl, (scheduled_schedYield hrun).1⟩
  | none =>
      simp only [yieldAs] at hrun
      refine ⟨_, ?_, (scheduled_schedYield hrun).1⟩
      rfl

omit h hb hs hc in
/-- An entry of a stranger spares `a`. -/
theorem exec (h : Calm B M s.kern a) (hb : s.kern.Bounded B) (hf : en.Foreign s a)
    (hexec : en.exec B s = some s') : Calm B M s'.kern a ∧ Unharmed s.kern s'.kern a := by
  have sched : ∀ {t : Smp} {c : CpuId}, Calm B M t.kern a ∧ Unharmed s.kern t.kern a →
      Schedules t c s' → Calm B M s'.kern a ∧ Unharmed s.kern s'.kern a := by
    rintro t c ⟨h₁, hsp₁⟩ hsched
    obtain ⟨h₂, hsp₂⟩ := h₁.resched hsched.resched
    exact ⟨h₂, hsp₁.trans hsp₂⟩
  have start : Calm B M s.kern a ∧ Unharmed s.kern s.kern a := ⟨h, .refl s.kern a⟩
  cases en with
  | wake c trapno =>
      simp only [Entry.exec] at hexec
      split at hexec
      swap
      · cases hexec
      rw [trapHalted] at hexec
      split at hexec
      · exact sched (t := s.modCpu c _) start (scheduled_trapTail hexec).1
      split at hexec
      · exact sched (t := s.modCpu c _) start (scheduled_schedYield hexec).1
      · cases hexec
  | start c =>
      simp only [Entry.exec] at hexec
      split at hexec
      · exact sched (t := s.modCpu c _) start (scheduled_schedYield hexec).1
      · cases hexec
  | trap c tf cr2 getc =>
      have hst := started_of_exec hexec
      cases hcur : s.curenv c with
      | none =>
          rw [Entry.exec, if_pos hst, trapUser, Smp.modCpu_started hst] at hexec
          simp [hcur] at hexec
      | some cur =>
      have hlive := hf.live cur hcur
      have hstr := hf.stranger cur hcur
      by_cases hdy : s.status cur = .dying
      · rw [Entry.exec, if_pos hst, trapUser, Smp.modCpu_started hst] at hexec
        simp only [hcur, Option.bind_eq_bind, Option.bind_some, if_pos hdy] at hexec
        obtain ⟨k, hfree, hexec⟩ := Option.bind_eq_some_iff.mp hexec
        obtain ⟨mid, hmid, hsched⟩ := scheduled_yieldAs hexec
        refine sched ?_ hsched
        rw [hmid]
        exact h.envFree hb hlive hstr.other hfree
      · rw [exec_trap hst hcur hdy] at hexec
        obtain ⟨⟨x, k⟩, hd, hexec⟩ := Option.bind_eq_some_iff.mp hexec
        have hregs : ((s.kern.setTf cur tf).envs cur).envTf = tf := by simp [Kern.setTf]
        obtain ⟨h₁, hsp₁⟩ := h.setTf hstr.other tf
        have hb₁ : (s.kern.setTf cur tf).Bounded B := by
          rw [Kern.Bounded, Kern.dirs_setTf]
          exact hb
        obtain ⟨h₂, hsp₂⟩ := h₁.trapDispatch hb₁ (hstr.setTf tf)
          (by simpa [Kern.Live, Kern.setTf] using hlive)
          (hregs.symm ▸ hf.fits c tf cr2 getc rfl) hd
        have hmid := And.intro h₂ (hsp₁.trans hsp₂)
        rcases handled_of_trapDispatch hd with ⟨rfl, -⟩ | ⟨o, rfl, -⟩ | ⟨rfl, -⟩
        · exact sched (t := s.setKern k) hmid (scheduled_trapTail hexec).1
        · obtain ⟨mid, heq, hsched⟩ := scheduled_yieldAs (s := s.setKern k) hexec
          refine sched ?_ hsched
          rw [heq]
          exact hmid
        · exact sched (t := s.setKern k) hmid
            (schedules_envRun_self (s := s.setKern k) hcur hexec).1

end Calm

end Jos
