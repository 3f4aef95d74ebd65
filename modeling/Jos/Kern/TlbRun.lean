import Jos.Kern.TlbCalls

/-!
# CPUs with TLBs

`TlbSmp` adds the TLB of each CPU to the state.  In a kernel entry the CPU that enters runs the
trace of the entry, and all others see its stores; between two entries, TLBs are filled, and user
programs store through them.  Any number of CPUs and any interleaving is a run of `TlbStep`.

The invariant says that the TLB of a CPU with an environment holds what its page directory says.
Every step keeps it that spares the environments of the other CPUs.
-/

namespace Jos

open Jos.Lib

variable {B : Machine} {M : Pool B} {s s' : Smp} {k k' : Kern} {c : CpuId} {cur e : Slot}
  {en : Entry} {l : List ℕ} {el : List Slot} {tf : Trapframe} {cr2 getc : Word} {d : ℕ}
  {r : Role}

/-! ## Entries -/

/-- The system call in a frame. -/
def Trapframe.call (tf : Trapframe) (cur : Slot) : Call :=
  { cur := cur, no := tf.regs.eax, a1 := tf.regs.edx, a2 := tf.regs.ecx, a3 := tf.regs.ebx
    a4 := tf.regs.edi, a5 := tf.regs.esi }

/-- The entry is a system call that removes or replaces what is mapped at `va` in `e`. -/
def Entry.Edits (B : Machine) (s : Smp) (en : Entry) (e : Slot) (va : Word) : Prop :=
  ∃ c cur tf, en.CalledBy s c cur tf ∧ (tf.call cur).Edits B (s.kern.setTf cur tf) e va

/-- The entry neither frees `e`, nor removes or replaces a mapping in its address space: no page is
mapped where a call is going to change the mapping. -/
structure Entry.Spares (B : Machine) (s : Smp) (en : Entry) (e : Slot) : Prop where
  alive : ∀ s', en.exec B s = some s' → s'.status e ≠ .free
  unmapped : ∀ va, en.Edits B s e va → s.kern.space e (pgnum va) = none

theorem pageFaultHandlerEvs_eq (hup : (k.envs cur).envPgfaultUpcall ≠ 0) :
    pageFaultHandlerEvs B k cur cr2 =
      userMemAssertEvs B
          (k.setTf cur { (k.envs cur).envTf with esp := faultEsp (k.envs cur).envTf.esp }) cur
          (faultEsp (k.envs cur).envTf.esp) 52 (PTE_U ||| PTE_P ||| PTE_W) ++
        match userMemAssert B
            (k.setTf cur { (k.envs cur).envTf with esp := faultEsp (k.envs cur).envTf.esp }) cur
            (faultEsp (k.envs cur).envTf.esp) 52 (PTE_U ||| PTE_P ||| PTE_W),
          (k.envs cur).envPgdir with
        | some (.ret (), k₁), some d' =>
            storeBytesEvs k₁.mem d' (faultEsp (k.envs cur).envTf.esp)
              (utfBytes cr2 (k.envs cur).envTf)
        | _, _ => [] :=
  if_pos hup

theorem Inv.pageFaultHandlerEvs_tidy (h : Inv B M k l el) (hlive : k.Live cur)
    (hd : k.dirs e = some d) (hrole : r = .other ↔ e ≠ cur) :
    Tidy translation d k.mem.phys (pageFaultHandlerEvs B k cur cr2) r := by
  by_cases hup : (k.envs cur).envPgfaultUpcall ≠ 0
  swap
  · rw [pageFaultHandlerEvs, if_neg hup]
    exact h.envDestroyEvs_cur_tidy hlive hd hrole
  rw [pageFaultHandlerEvs_eq hup]
  generalize ({ (k.envs cur).envTf with esp := faultEsp (k.envs cur).envTf.esp } : Trapframe) = tf
  have hlive' : (k.setTf cur tf).Live cur := by simpa [Kern.Live, Kern.setTf] using hlive
  have hd' : (k.setTf cur tf).dirs e = some d := by rwa [Kern.dirs_setTf]
  refine .append ((h.setTf cur tf).userMemAssertEvs_tidy hlive' hd' hrole) ?_
  split
  swap
  · exact .of_quiet trivial
  next k₁ dc hassert hpg =>
  -- the check has passed, so nothing has changed
  obtain rfl : k₁ = k.setTf cur tf := by
    rcases userMemAssert_cases hassert with ⟨-, hk⟩ | ⟨hc, -⟩
    · exact hk
    · cases hc
  rcases userMemAssert_ends hassert with ⟨-, htr⟩ | ⟨hc, -⟩
  swap
  · cases hc
  rw [show memAfter k.mem.phys (userMemAssertEvs B _ cur _ _ _) = k.mem.phys from htr.mem]
  have hdc : k.dirs cur = some dc := hlive.dirs_eq.trans hpg
  exact .of_quiet (h.storeBytesEvs_quiet hd hdc
    ((length_utfBytes cr2 _).symm ▸ faultEsp_le (k.envs cur).envTf.esp))

theorem Inv.trapDispatchEvs_tidy (h : Inv B M k l el) (hlive : k.Live cur)
    (hd : k.dirs e = some d) (hrole : r = .other ↔ e ≠ cur)
    (hG : (k.envs cur).envTf.trapno = T_SYSCALL → ((k.envs cur).envTf.call cur).Minds B k r e) :
    Tidy translation d k.mem.phys (trapDispatchEvs B k cur cr2) r := by
  rw [trapDispatchEvs]
  split
  · exact .of_quiet trivial
  split
  · exact h.pageFaultHandlerEvs_tidy hlive hd hrole
  split
  · exact .of_quiet trivial
  split
  · next hno => exact h.syscallEvs_tidy hlive hd (hG hno)
  split
  · exact .of_quiet trivial
  · exact h.envDestroyEvs_cur_tidy hlive hd hrole

/-- `sys_env_destroy` frees what does not run. -/
theorem Entry.Destroys.free (hdes : en.Destroys s e) (hexec : en.exec B s = some s')
    (hidle : s.status e ≠ .running) : s'.status e = .free := by
  obtain ⟨c, cur, tf, hby, hno, henv⟩ := hdes
  obtain ⟨getc, x, k, mid, hcall, hmid, hs⟩ := hby.exec hexec
  have htf : ((s.kern.setTf cur tf).envs cur).envTf = tf := by simp [Kern.setTf]
  have hst : ((s.kern.setTf cur tf).envs e).envStatus ≠ .running := by
    rwa [(s.kern.keeps_setTf cur tf e).envStatus]
  refine (hs.resched.free e).mpr ?_
  rw [hmid, (k.keeps_finish cur x e).envStatus]
  rw [← envid2env_setTf s.kern cur cur tf] at henv
  simp only [callOf, htf, syscall, hno, sysEnvDestroy, henv, envDestroy, hst, false_and, if_false,
    Option.bind_eq_bind, Option.bind_eq_some_iff, Prod.exists] at hcall
  obtain ⟨y, k₁, ⟨k₂, hfree, hk₁⟩, hk⟩ := hcall
  obtain ⟨-, m, rfl⟩ := envFree_eq hfree
  have hstatus : ∀ {k' : Kern}, k' = (s.kern.setTf cur tf).freed e m →
      (k'.envs e).envStatus = .free := by
    rintro k' rfl
    rw [Kern.freed_self]
    rfl
  refine hstatus ?_
  split at hk₁
  · obtain ⟨rfl, rfl⟩ := Prod.mk.inj (Option.some.inj hk₁)
    exact (Prod.mk.inj (Option.some.inj hk)).2.symm
  · obtain ⟨rfl, rfl⟩ := Prod.mk.inj (Option.some.inj hk₁)
    exact (Prod.mk.inj (Option.some.inj hk)).2.symm

/-- What an entry does before it calls the scheduler. -/
theorem Inv.enterEvs_tidy (h : Inv B M s.kern l el) (hexec : en.exec B s = some s')
    (hlive : ∀ e, s.curenv en.cpu = some e → s.kern.Live e) (hd : s.kern.dirs e = some d)
    (hrole : r = .other ↔ s.curenv en.cpu ≠ some e) (hsp : r ≠ .self → en.Spares B s e) :
    Tidy translation d s.kern.mem.phys (en.enterEvs B s) r := by
  cases en with
  | wake c trapno => exact .of_quiet trivial
  | start c => exact .of_quiet trivial
  | trap c tf cr2 getc =>
      simp only [Entry.enterEvs]
      split
      · exact .of_quiet trivial
      next cur hcur =>
      have hlive' := hlive cur hcur
      have hrole' : r = .other ↔ e ≠ cur := by
        refine hrole.trans ?_
        rw [show s.curenv (Entry.trap c tf cr2 getc).cpu = some cur from hcur]
        exact ⟨fun hc he ↦ hc (congrArg some he.symm), fun hc he ↦ hc (Option.some.inj he).symm⟩
      split
      · exact h.envFreeEvs_cur_tidy hlive' hd hrole'
      next hdying =>
      have htf : ((s.kern.setTf cur tf).envs cur).envTf = tf := by simp [Kern.setTf]
      refine (h.setTf cur tf).trapDispatchEvs_tidy (k := s.kern.setTf cur tf)
        (by simpa [Kern.Live, Kern.setTf] using hlive') (by rwa [Kern.dirs_setTf]) hrole'
        fun hno ↦ ⟨hrole', fun hr ↦ ?_⟩
      rw [htf] at hno ⊢
      have hby : (Entry.trap c tf cr2 getc).CalledBy s c cur tf :=
        ⟨⟨cr2, getc, rfl⟩, hcur, hdying, hno⟩
      have hsp := hsp hr
      refine ⟨fun _ hdes henv ↦ ?_, fun va hva ↦ ?_⟩
      · rw [envid2env_setTf] at henv
        rw [(s.kern.keeps_setTf cur tf e).envStatus]
        by_contra hrun
        have hdestroys : (Entry.trap c tf cr2 getc).Destroys s e := ⟨c, cur, tf, hby, hdes, henv⟩
        exact hsp.alive s' hexec (hdestroys.free hexec hrun)
      · have hspace : (s.kern.setTf cur tf).space = s.kern.space :=
          Kern.space_of_dirs (Kern.dirs_setTf _ _ _) rfl
        rw [hspace]
        exact hsp.unmapped va ⟨c, cur, tf, hby, hva⟩

/-- An environment that is on a CPU and stays alive keeps its page directory. -/
theorem Moved.dirs_eq {mid : Smp} (hm : Moved B s en c mid) (h : Inv B M s.kern l el)
    (hd : s.kern.dirs e = some d) (hlive' : mid.kern.Live e) : mid.kern.dirs e = some d := by
  have hlive := (Kern.live_of_dirs hd).1
  rcases hm.envPgdir_cases e with hpg | hfree | ⟨cur, d, ⟨-, -, -, -, hlist, -⟩, -⟩
  · rw [hlive'.dirs_eq, hpg, ← hlive.dirs_eq, hd]
  · exact absurd hfree hlive'
  · -- `sys_exofork` takes a free environment
    have hchain := h.chain
    rw [hlist] at hchain
    obtain ⟨t, rfl, -⟩ := hchain.pop
    exact absurd ((h.mem_el e).mp List.mem_cons_self) hlive

theorem Entry.exec_cpus_of_ne (hexec : en.exec B s = some s') (hc : c ≠ en.cpu) :
    s'.cpus c = s.cpus c := by
  obtain ⟨c', mid, hm, hs, -⟩ := Entry.exec_moved hexec
  rw [hm.cpu] at hc
  exact (hs.cpus c hc).trans (hm.cpus c hc)

/-! ## The system -/

/-- The system with the TLB of each CPU. -/
structure TlbSmp where
  smp : Smp
  tlb : CpuId → Set (ℕ × Translation)

namespace TlbSmp

def curenv (x : TlbSmp) (c : CpuId) : Option Slot := x.smp.curenv c

def cr3 (x : TlbSmp) (c : CpuId) : ℕ := (x.smp.cpus c).cr3

def mmu (x : TlbSmp) (c : CpuId) : Mmu Phys ℕ ℕ Translation :=
  ⟨x.smp.kern.mem.phys, x.cr3 c, x.tlb c⟩

/-- A store of a word into a page frame. -/
def store (x : TlbSmp) (f i : ℕ) (w : Word) : TlbSmp :=
  { x with smp := x.smp.setKern (x.smp.kern.setMem (x.smp.kern.mem.write f i w)) }

end TlbSmp

/-- One step of the system, whose kernel entries have property `G`.  Any TLB may be filled before,
between and after the stores of an entry. -/
inductive TlbStep (B : Machine) (G : Smp → Entry → Prop) (x x' : TlbSmp) : Prop
  | entry (en : Entry) (allowed : G x.smp en) (exec : en.exec B x.smp = some x'.smp)
      (self : Exec translation (en.evs B x.smp) (x.mmu en.cpu) (x'.mmu en.cpu))
      (others : ∀ c, c ≠ en.cpu →
        Exec translation (remote (en.evs B x.smp)) (x.mmu c) (x'.mmu c))
  | fill (same : x'.smp = x.smp) (fills : ∀ c, Fills translation (x.mmu c) (x'.mmu c))
  | store (c : CpuId) {e : Slot} {v : ℕ} {t : Translation} {i : ℕ} (w : Word)
      (cur : x.curenv c = some e) (hit : (v, t) ∈ x.tlb c) (user : t.user) (write : t.write)
      (offset : i < 1024) (after : x' = x.store t.frame i w)

/-- Any number of steps, through states with property `Q`. -/
def TlbRun (B : Machine) (G : Smp → Entry → Prop) (Q : Kern → Prop) : TlbSmp → TlbSmp → Prop :=
  Relation.ReflTransGen fun x x' ↦ TlbStep B G x x' ∧ Q x'.smp.kern

/-- A TLB is filled with one translation. -/
def TlbSmp.hit (x : TlbSmp) (c : CpuId) (v : ℕ) (t : Translation) : TlbSmp :=
  { x with tlb := Function.update x.tlb c ({(v, t)} ∪ x.tlb c) }

theorem TlbSmp.mmu_hit_self (x : TlbSmp) (c : CpuId) (v : ℕ) (t : Translation) :
    (x.hit c v t).mmu c = ⟨(x.mmu c).mem, (x.mmu c).root, {(v, t)} ∪ (x.mmu c).tlb⟩ :=
  congrArg (Mmu.mk _ _) (Function.update_self ..)

theorem TlbSmp.mmu_hit_of_ne (x : TlbSmp) {c c' : CpuId} (v : ℕ) (t : Translation) (hc : c' ≠ c) :
    (x.hit c v t).mmu c' = x.mmu c' :=
  congrArg (Mmu.mk _ _) (Function.update_of_ne hc ..)

theorem TlbSmp.tlb_hit_of_ne (x : TlbSmp) {c c' : CpuId} (v : ℕ) (t : Translation) (hc : c' ≠ c) :
    (x.hit c v t).tlb c' = x.tlb c' :=
  Function.update_of_ne hc ..

theorem TlbSmp.mem_hit (x : TlbSmp) (c : CpuId) (v : ℕ) (t : Translation) :
    (v, t) ∈ (x.hit c v t).tlb c := by
  show _ ∈ Function.update x.tlb c ({(v, t)} ∪ x.tlb c) c
  rw [Function.update_self]
  exact .inl rfl

theorem TlbStep.hit {x : TlbSmp} {G : Smp → Entry → Prop} {v : ℕ} {t : Translation} (c : CpuId)
    (h : translation x.smp.kern.mem.phys (x.cr3 c) v = some t) : TlbStep B G x (x.hit c v t) := by
  refine .fill rfl fun c' ↦ ?_
  by_cases hc : c' = c
  · subst hc
    rw [x.mmu_hit_self]
    exact .insert h
  · rw [x.mmu_hit_of_ne v t hc]
    exact .refl _

/-- An entry need not fill any TLB; for other CPUs it does not empty one either. -/
theorem TlbStep.keep {x : TlbSmp} {G : Smp → Entry → Prop} (allowed : G x.smp en)
    (hexec : en.exec B x.smp = some s')
    (hidle : (x.smp.cpus en.cpu).cpuStatus = .unused → x.smp.curenv en.cpu = none)
    (hempty : x.tlb en.cpu = ∅) : TlbStep B G x ⟨s', x.tlb⟩ := by
  have henters := Entry.evs_enters hidle hexec
  have hend : memAfter x.smp.kern.mem.phys (en.evs B x.smp) = s'.kern.mem.phys ∧
      rootAfter (x.cr3 en.cpu) (en.evs B x.smp) = (s'.cpus en.cpu).cr3 := by
    generalize en.evs B x.smp = evs at henters
    cases henters with
    | back before after cr3 traces => exact ⟨traces.mem, (traces.root _).trans cr3.symm⟩
    | load mem idle alive =>
        exact ⟨by rw [memAfter_append, mem]; rfl, by rw [rootAfter_append]; rfl⟩
  refine .entry en allowed hexec ?_ fun c hc ↦ ?_
  · have h : Exec translation (en.evs B x.smp) ⟨x.smp.kern.mem.phys, x.cr3 en.cpu, ∅⟩ _ :=
      .empty ..
    rw [hend.1, hend.2, ← hempty] at h
    exact h
  · have h : Exec translation (remote (en.evs B x.smp)) (x.mmu c) _ := .keep fun ev hev ↦ by
      cases ev with
      | store m => exact ⟨rfl, rfl⟩
      | drop v => exact nomatch (List.mem_filter.mp hev).2
      | load d => exact nomatch (List.mem_filter.mp hev).2
    rw [memAfter_remote] at h
    have hcr3 : x.cr3 c = (s'.cpus c).cr3 := by rw [Entry.exec_cpus_of_ne hexec hc]; rfl
    have hmmu : TlbSmp.mmu ⟨s', x.tlb⟩ c =
        ⟨memAfter (x.mmu c).mem (en.evs B x.smp), (x.mmu c).root, (x.mmu c).tlb⟩ := by
      simp only [TlbSmp.mmu, hend.1, hcr3]
      rfl
    rw [hmmu]
    exact h

/-- The entry spares the environments of all other CPUs. -/
def Entry.SparesOthers (B : Machine) (s : Smp) (en : Entry) : Prop :=
  ∀ c e, c ≠ en.cpu → s.curenv c = some e → en.Spares B s e

/-- What the system keeps up. -/
structure TlbInv (B : Machine) (M : Pool B) (x : TlbSmp) : Prop where
  inv : ∃ l el, RunInv B M x.smp.kern l el
  bounded : x.smp.kern.Bounded B
  idle : ∀ c, (x.smp.cpus c).cpuStatus ≠ .started → x.curenv c = none
  loaded : ∀ c e, x.curenv c = some e → x.smp.kern.dirs e = some (x.cr3 c)
  halted : ∀ c, x.curenv c = none → (x.smp.cpus c).cpuStatus ≠ .unused → x.cr3 c = B.kernPgdir
  coherent : ∀ c e, x.curenv c = some e → Coherent translation (x.mmu c)

section

variable {x x' : TlbSmp} {G : Smp → Entry → Prop} {v : ℕ} {t : Translation}

/-- The hardware's walk of an address in the page. -/
theorem exists_walk {m : Mem} (h : translation m.phys d v = some t) :
    ∃ va pde pte, m.walk d va = some (pde, pte) ∧ t = mkTranslation pde pte := by
  obtain ⟨hv, hP, hP', rfl⟩ := translation_eq_some h
  have hv : v / 1024 < 1024 := hv
  have hva : (pageVa v).toNat = v * 4096 := by
    rw [pageVa, BitVec.toNat_ofNat]
    omega
  have hpdx : pdx (pageVa v) = v / 1024 := by
    rw [pdx_eq, hva]
    omega
  have hptx : ptx (pageVa v) = v % 1024 := by
    rw [ptx_eq, hva]
    omega
  refine ⟨pageVa v, _, _, ?_, rfl⟩
  simp only [Mem.walk, hpdx, hptx]
  rw [if_neg (not_not.mpr hP), if_neg (not_not.mpr hP')]

namespace TlbInv

theorem boot {cfg : BootConfig} (booted : Booted cfg k) (hx : x.smp = Smp.boot k) :
    TlbInv cfg.machine cfg.pool x := by
  obtain ⟨hinv, hb⟩ := booted.runInv
  have hcur : ∀ c, x.curenv c = none := fun c ↦ by rw [TlbSmp.curenv, hx]; rfl
  refine ⟨hx ▸ hinv, hx ▸ hb, fun c _ ↦ hcur c, fun c e he ↦ ?_, fun c _ hc ↦ absurd ?_ hc,
    fun c e he ↦ ?_⟩
  · rw [hcur] at he
    cases he
  · rw [hx]
    rfl
  · rw [hcur] at he
    cases he

theorem fill (h : TlbInv B M x) (same : x'.smp = x.smp)
    (fills : ∀ c, Fills translation (x.mmu c) (x'.mmu c)) : TlbInv B M x' where
  inv := same ▸ h.inv
  bounded := same ▸ h.bounded
  idle c := by
    rw [TlbSmp.curenv, same]
    exact h.idle c
  loaded c e := by
    rw [TlbSmp.curenv, TlbSmp.cr3, same]
    exact h.loaded c e
  halted c := by
    rw [TlbSmp.curenv, TlbSmp.cr3, same]
    exact h.halted c
  coherent c e he := by
    rw [TlbSmp.curenv, same] at he
    exact (fills c).coherent (h.coherent c e he)

/-- A user program only stores into pages that are mapped, which hold no page tables. -/
theorem store (h : TlbInv B M x) {i : ℕ} {w : Word} (cur : x.curenv c = some e)
    (hit : (v, t) ∈ x.tlb c) (user : t.user) (write : t.write) :
    TlbInv B M (x.store t.frame i w) := by
  obtain ⟨l, el, hinv⟩ := h.inv
  have hd := h.loaded c e cur
  obtain ⟨va, pde, pte, hw, rfl⟩ := exists_walk (h.coherent c e cur v t hit)
  simp only [mkTranslation, decide_eq_true_eq] at user write
  have hlt : va < UTOP := by
    by_contra hc
    exact ((hinv.inv.half e _ hd).protected hinv.prot va).2 (BitVec.not_lt.mp hc)
      ⟨pde, pte, hw, user, write⟩
  have hs := Kern.write_stored hd hlt hw i w
  refine ⟨⟨l, el, hinv.inv.stored_inv hs, hinv.prot.of_same (hinv.inv.stored_kernSame hs)⟩,
    fun p ↦ ?_, h.idle, h.loaded, h.halted, fun c' e' he' ↦ ?_⟩
  · exact (congrArg (owners · p) (hinv.inv.stored_target hs)).trans_le (h.bounded p)
  · exact (h.coherent c' e' he').extends (hinv.inv.extends_stored (h.loaded c' e' he') hs)

theorem live_cur (h : TlbInv B M x) (he : x.curenv c = some e) : x.smp.kern.Live e :=
  (Kern.live_of_dirs (h.loaded c e he)).1

theorem evs_enters (h : TlbInv B M x) (hexec : en.exec B x.smp = some s') :
    Enters B x.smp en s' (en.evs B x.smp) :=
  Entry.evs_enters (fun hc ↦ h.idle en.cpu (by rw [hc]; decide)) hexec

/-- What an entry leaves on the CPUs. -/
theorem entry_cpus (h : TlbInv B M x) (hexec : en.exec B x.smp = some x'.smp)
    (hG : en.SparesOthers B x.smp) :
    (∀ c, (x'.smp.cpus c).cpuStatus ≠ .started → x'.curenv c = none) ∧
      (∀ c e, x'.curenv c = some e → x'.smp.kern.dirs e = some (x'.cr3 c)) ∧
      ∀ c, x'.curenv c = none → (x'.smp.cpus c).cpuStatus ≠ .unused →
        x'.cr3 c = B.kernPgdir := by
  obtain ⟨l, el, hinv⟩ := h.inv
  obtain ⟨c, mid, hm, hs, -⟩ := Entry.exec_moved hexec
  have hother : ∀ c', c' ≠ c → x'.smp.cpus c' = x.smp.cpus c' := fun c' hc ↦
    (hs.cpus c' hc).trans (hm.cpus c' hc)
  have hcur : ∀ c', c' ≠ c → x'.curenv c' = x.curenv c' := fun c' hc ↦
    congrArg Cpu.cpuEnv (hother c' hc)
  have hcr3 : ∀ c', c' ≠ c → x'.cr3 c' = x.cr3 c' := fun c' hc ↦
    congrArg Cpu.cr3 (hother c' hc)
  -- the environment of a CPU that does not switch
  have hkeep : ∀ {c' e}, mid.curenv c' = some e → x'.smp.kern.dirs e = some (x.cr3 c') := by
    intro c' e he
    have hbefore := hm.curenv_before he
    have hlive : mid.kern.Live e := by
      by_cases hc : c' = c
      · subst hc
        exact hm.live_stays (h.live_cur hbefore) hbefore he
      · exact fun hfree ↦ (hG c' e (hm.cpu ▸ hc) hbefore).alive _ hexec
          ((hs.resched.free e).mpr hfree)
    rw [hs.resched.dirs_eq]
    exact hm.dirs_eq hinv.inv (h.loaded c' e hbefore) hlive
  refine ⟨fun c' hst ↦ ?_, fun c' e he ↦ ?_, fun c' hnone hst ↦ ?_⟩
  all_goals
    by_cases hc : c' = c
  · subst hc
    cases hs.switch with
    | halt idle none same => exact none
    | stay before after cpu same => exact absurd (cpu ▸ hm.started) hst
    | run before after cpu cr3 ready running others =>
        exact absurd (cpu.trans hm.started) hst
  · rw [hcur c' hc]
    exact h.idle c' (hother c' hc ▸ hst)
  · subst hc
    cases hs.switch with
    | halt idle none same => exact absurd (he.symm.trans none) nofun
    | stay before after cpu same =>
        obtain rfl := Option.some.inj (he.symm.trans after)
        rw [hkeep before]
        obtain ⟨-, -, ⟨-, hnone, -⟩ | ⟨⟨-, hstay⟩, -⟩⟩ := hm.envs
        · exact absurd (before.symm.trans hnone) nofun
        · have hcr3 : x'.cr3 c' = (mid.cpus c').cr3 := congrArg Cpu.cr3 cpu
          rcases hstay with hstay | hunused
          · rw [hcr3, hstay]
            rfl
          · have hbefore := hm.curenv_before before
            exact absurd (hbefore.symm.trans (h.idle c' (by rw [hunused]; decide))) nofun
    | run before after cpu cr3 ready running others =>
        obtain rfl := Option.some.inj (he.symm.trans after)
        have hlive : mid.kern.Live e := fun hc ↦ nomatch ready.symm.trans hc
        rw [hs.resched.dirs_eq, hlive.dirs_eq]
        exact cr3
  · rw [hcr3 c' hc]
    rw [hcur c' hc] at he
    exact hkeep ((hm.curenv_of_ne hc).trans he)
  · subst hc
    obtain rfl := hm.cpu
    have henters := h.evs_enters hexec
    generalize en.evs B x.smp = evs at henters
    cases henters with
    | back before after cr3 traces => exact absurd (after.symm.trans hnone) nofun
    | load mem idle alive => exact idle hnone
  · rw [hcr3 c' hc]
    exact h.halted c' (hcur c' hc ▸ hnone) (hother c' hc ▸ hst)

/-- An entry leaves the TLBs coherent. -/
theorem entry_coherent (h : TlbInv B M x) (hexec : en.exec B x.smp = some x'.smp)
    (hG : en.SparesOthers B x.smp)
    (self : Exec translation (en.evs B x.smp) (x.mmu en.cpu) (x'.mmu en.cpu))
    (others : ∀ c, c ≠ en.cpu → Exec translation (remote (en.evs B x.smp)) (x.mmu c) (x'.mmu c))
    (he : x'.curenv c = some e) : Coherent translation (x'.mmu c) := by
  obtain ⟨l, el, hinv⟩ := h.inv
  have hlive : ∀ e, x.smp.curenv en.cpu = some e → x.smp.kern.Live e := fun e he ↦ h.live_cur he
  have henters := h.evs_enters hexec
  by_cases hc : c = en.cpu
  · subst hc
    generalize en.evs B x.smp = evs at henters self
    cases henters with
    | @back cur before after cr3 traces =>
        have htidy := hinv.inv.enterEvs_tidy (r := .self) hexec hlive (h.loaded _ cur before)
          (by simpa using before) fun hr ↦ absurd rfl hr
        exact htidy traces.load _ _ rfl rfl (h.coherent _ cur before) self
    | load mem idle alive =>
        obtain ⟨w, -, hload⟩ := Exec.append_iff.mp self
        exact Safe.nil.load_exec hload
  · have hcpu : x'.smp.cpus c = x.smp.cpus c := Entry.exec_cpus_of_ne hexec hc
    have hbefore : x.curenv c = some e := (congrArg Cpu.cpuEnv hcpu).symm.trans he
    have hsp := hG c e hc hbefore
    have hquiet : Quiet translation (x.cr3 c) x.smp.kern.mem.phys (en.evs B x.smp) := by
      obtain ⟨r, hr, hrole⟩ : ∃ r : Role, r ≠ .self ∧
          (r = .other ↔ x.smp.curenv en.cpu ≠ some e) := by
        by_cases htwin : x.smp.curenv en.cpu = some e
        · exact ⟨.twin, by decide, by simpa using htwin⟩
        · exact ⟨.other, by decide, by simpa using htwin⟩
      have htidy := hinv.inv.enterEvs_tidy hexec hlive (h.loaded c e hbefore) hrole fun _ ↦ hsp
      have htwin : r = .twin → x.smp.curenv en.cpu = some e := by
        rintro rfl
        by_contra hne
        exact absurd (hrole.mpr hne) (by decide)
      generalize en.evs B x.smp = evs at henters
      cases henters with
      | back before after cr3 traces => exact htidy.quiet hr fun _ ↦ traces.load
      | load mem idle alive =>
          exact (htidy.quiet hr fun ht ↦ alive e (htwin ht) (hsp.alive _ hexec)).append trivial
    exact hquiet.safe_remote _ _ rfl rfl (h.coherent c e hbefore) (others c hc)

/-- Every step keeps the invariant that spares the environments of the other CPUs. -/
theorem step (h : TlbInv B M x) (hG : ∀ en, G x.smp en → en.SparesOthers B x.smp)
    (step : TlbStep B G x x') (hb : x'.smp.kern.Bounded B) : TlbInv B M x' := by
  cases step with
  | entry en allowed exec self others =>
      obtain ⟨l, el, hinv⟩ := h.inv
      have hsp := hG en allowed
      obtain ⟨idle, loaded, halted⟩ := h.entry_cpus exec hsp
      exact ⟨hinv.exec h.bounded (fun e he ↦ h.live_cur he) exec, hb, idle, loaded, halted,
        fun c e he ↦ h.entry_coherent exec hsp self others he⟩
  | fill same fills => exact h.fill same fills
  | store c w cur hit user write offset after => exact after ▸ h.store cur hit user write

end TlbInv

/-- Runs whose entries spare what the other CPUs run. -/
theorem TlbInv.of_run {cfg : BootConfig} {x₀ : TlbSmp} (booted : Booted cfg k)
    (boot : x₀.smp = Smp.boot k)
    (run : TlbRun cfg.machine (fun s en ↦ en.SparesOthers cfg.machine s)
      (Kern.Bounded cfg.machine) x₀ x) : TlbInv cfg.machine cfg.pool x := by
  induction run with
  | refl => exact .boot booted boot
  | tail _ hstep ih => exact ih.step (fun en hen ↦ hen) hstep.1 hstep.2

/-- Runs of one CPU; no other CPU has an environment. -/
theorem TlbInv.of_run_one {cfg : BootConfig} {x₀ : TlbSmp} (booted : Booted cfg k)
    (boot : x₀.smp = Smp.boot k)
    (run : TlbRun cfg.machine (fun _ en ↦ en.cpu = c) (Kern.Bounded cfg.machine) x₀ x) :
    TlbInv cfg.machine cfg.pool x ∧ ∀ c', c' ≠ c → x.curenv c' = none := by
  induction run with
  | refl => exact ⟨.boot booted boot, fun c' _ ↦ by rw [TlbSmp.curenv, boot]; rfl⟩
  | tail _ hstep ih =>
      obtain ⟨h, halone⟩ := ih
      refine ⟨h.step (fun en hen c' e' hc he ↦ ?_) hstep.1 hstep.2, fun c' hc ↦ ?_⟩
      · exact nomatch (halone c' (hen ▸ hc)).symm.trans he
      · rw [← halone c' hc]
        cases hstep.1 with
        | entry en allowed exec self others =>
            exact congrArg Cpu.cpuEnv (Entry.exec_cpus_of_ne exec (allowed ▸ hc))
        | fill same fills => rw [TlbSmp.curenv, same]; rfl
        | store c₁ w cur hit user write offset after => rw [after]; rfl

end

end Jos
