import Jos.Kern.TlbWrap

/-!
# Stale translations on another CPU

`tlb_invalidate` flushes the TLB of its own CPU at most.  So a TLB is coherent as long as no other
CPU edits what it has loaded (`no_stale_translation`); but a parent may unmap a page of a child that
runs on another CPU, and the TLB of that CPU keeps the page (`stale_translation`).
-/

namespace Jos

open Jos.Lib

variable {s s' : Smp} {k : Kern} {c : CpuId} {e ch : Slot} {d : ℕ}

/-- No stale translation: in a run whose entries free no environment that another CPU runs, and
remove and replace nothing that is mapped in its address space, the TLB of a CPU that has loaded the
page directory of an environment only holds what that directory says now. -/
theorem no_stale_translation {cfg : BootConfig} {x₀ x : TlbSmp} {v : ℕ} {t : Translation}
    (booted : Booted cfg k) (boot : x₀.smp = Smp.boot k)
    (run : TlbRun cfg.machine (fun s en ↦ en.SparesOthers cfg.machine s)
      (Kern.Bounded cfg.machine) x₀ x)
    (dir : x.smp.kern.dirs e = some d) (started : (x.smp.cpus c).cpuStatus ≠ .unused)
    (loaded : x.cr3 c = d) (hit : (v, t) ∈ x.tlb c) :
    translation x.smp.kern.mem.phys d v = some t := by
  have h := TlbInv.of_run booted boot run
  obtain ⟨l, el, hinv⟩ := h.inv
  cases hcur : x.curenv c with
  | none =>
      have hkern := h.halted c hcur started
      exact absurd (hkern.symm.trans loaded) (hinv.inv.own.dir_ne_kern dir)
  | some e' => exact loaded ▸ h.coherent c e' hcur v t hit

theorem no_stale_translation_solo : ∃ (x : TlbSmp) (c : CpuId) (e : Slot) (d v : ℕ)
    (t : Translation), x.smp.kern.dirs e = some d ∧ x.cr3 c = d ∧ (v, t) ∈ x.tlb c ∧
    translation x.smp.kern.mem.phys d v = some t := by
  obtain ⟨k, s, l, el, e, d, p, booted, hexec, hr, hgrown, -, hb, -⟩ := exists_solo
  have hrun : TlbRun demoConfig.machine (fun s en ↦ en.SparesOthers demoConfig.machine s)
      (Kern.Bounded demoConfig.machine) (Smp.boot k).cold s.cold :=
    .single ⟨.keep (fun c e hc he ↦ nomatch he) hexec (fun _ ↦ rfl) rfl, hb⟩
  have hroot : s.cold.cr3 0 = d :=
    Option.some.inj (((TlbInv.of_run booted rfl hrun).loaded 0 e hr.cur).symm.trans hgrown.dir)
  obtain ⟨t, ht⟩ := hgrown.exists_translation
  have hfill : TlbStep demoConfig.machine (fun s en ↦ en.SparesOthers demoConfig.machine s) s.cold
      (s.cold.hit 0 stackPn t) := .hit 0 (by rw [hroot]; exact ht)
  have hhit : (stackPn, t) ∈ (s.cold.hit 0 stackPn t).tlb 0 := s.cold.mem_hit 0 stackPn t
  exact ⟨s.cold.hit 0 stackPn t, 0, e, d, stackPn, t, hgrown.dir, hroot, hhit,
    no_stale_translation booted rfl (hrun.tail ⟨hfill, hb⟩) hgrown.dir hr.up hroot hhit⟩

/-! ## A parent and its child -/

/-- A call of the parent that changes no environment. -/
theorem Family.exec_call {cid r : Word} {call : Call} {l : List ℕ} {el : List Slot}
    (h : Family s call.cur ch cid)
    (hcall : call.exec demoConfig.machine (s.kern.setTf call.cur call.tf) = some (.ret r, k))
    (henvs : k.envs = (s.kern.setTf call.cur call.tf).envs)
    (hinv : Inv demoConfig.machine demoConfig.pool k l el) (hb : k.Bounded demoConfig.machine) :
    ∃ s', (Entry.trap 0 call.tf 0 call.getc).exec demoConfig.machine s = some s' ∧
      Family s' call.cur ch cid ∧ s'.cpus = s.cpus ∧ s'.kern.mem = k.mem ∧
      s'.kern.dirs = k.dirs ∧ s'.status ch = s.status ch ∧
      Inv demoConfig.machine demoConfig.pool s'.kern l el := by
  obtain ⟨hexec, hr⟩ := Runs.exec_call call h.runs hcall henvs
  have hkeep := s.kern.keeps_setTf call.cur call.tf
  refine ⟨_, hexec, ⟨hr, h.ne, ?_, h.id_ne, h.slot, ?_, ⟨l, el, hinv.resumed⟩, ?_⟩, rfl, rfl,
    Kern.dirs_resumed .., ?_, hinv.resumed⟩
  · rw [Smp.kern_setKern, Kern.resumed_of_ne _ _ _ h.ne, henvs, (hkeep ch).envId]
    exact h.id
  · rw [Smp.kern_setKern, Kern.resumed_of_ne _ _ _ h.ne, Kern.resumed_self, henvs,
      (hkeep ch).envParentId]
    exact h.parent.trans (hkeep call.cur).envId.symm
  · rw [Kern.Bounded, Smp.kern_setKern, Kern.dirs_resumed]
    exact hb
  · rw [Smp.status, Smp.kern_setKern, Kern.resumed_of_ne _ _ _ h.ne, henvs]
    exact (hkeep ch).envStatus

/-- A CPU that starts loads the page directory of what it runs. -/
theorem Entry.start_loaded (hexec : (Entry.start c).exec B s = some s') (hr : Runs s' c e)
    (hnone : s.curenv c = none) : s'.kern.dirs e = some (s'.cpus c).cr3 := by
  obtain ⟨c', mid, hm, hs, -⟩ := Entry.exec_moved hexec
  obtain rfl : c = c' := hm.cpu
  have hlive : s'.kern.Live e := fun hfree ↦ nomatch hr.status.symm.trans hfree
  rw [hlive.dirs_eq]
  cases hs.switch with
  | halt idle none same => exact nomatch hr.cur.symm.trans none
  | stay before after cpu same => exact nomatch hnone.symm.trans (hm.curenv_before before)
  | run before after cpu cr3 ready running others =>
      obtain rfl := Option.some.inj (hr.cur.symm.trans after)
      rw [(hs.envs e).envPgdir]
      exact cr3

/-- `a` runs on CPU 0 and its child `ch` on CPU 1, whose TLB walks the page directory `d` of the
child. -/
structure Away (s : Smp) (a ch : Slot) (cid : Word) (d : ℕ) (l : List ℕ) (el : List Slot) :
    Prop where
  family : Family s a ch cid
  child : Runs s 1 ch
  dir : s.kern.dirs ch = some d
  cr3 : (s.cpus 1).cr3 = d
  inv : Inv demoConfig.machine demoConfig.pool s.kern l el

/-- The parent changes what is mapped in its child. -/
theorem Away.exec_call {cid r : Word} (call : Call) {l l' : List ℕ} {el : List Slot} {v : ℕ}
    {o : Option (ℕ × Word)} (h : Away s call.cur ch cid d l el)
    (hcall : call.exec demoConfig.machine (s.kern.setTf call.cur call.tf) = some (.ret r, k))
    (hre : Remaps demoConfig.machine demoConfig.pool (s.kern.setTf call.cur call.tf) l el ch v o
      k l')
    (ho : ∀ p f, o = some (p, f) → p ∈ l) :
    ∃ s', (Entry.trap 0 call.tf 0 call.getc).exec demoConfig.machine s = some s' ∧
      Away s' call.cur ch cid d l' el ∧ s'.kern.space ch v = o := by
  have hkdirs : k.dirs = s.kern.dirs := by
    refine Eq.trans ?_ (Kern.dirs_setTf s.kern call.cur call.tf)
    funext e
    rw [Kern.dirs, Kern.dirs, hre.envs]
  have hb : k.Bounded demoConfig.machine := by
    refine (hre.refs_le (by decide) fun p ↦ ?_).2 ho
    rw [Kern.refs, Kern.dirs_setTf]
    exact h.family.bounded p
  obtain ⟨s', hexec, hfam, hcpus, hmem, hdirs, hst, hinv⟩ :=
    h.family.exec_call hcall hre.envs hre.inv hb
  refine ⟨s', hexec, ⟨hfam, ⟨?_, ?_, hst.trans h.child.status⟩, ?_, ?_, hinv⟩, ?_⟩
  · rw [hcpus]
    exact h.child.started
  · rw [Smp.curenv, hcpus]
    exact h.child.cur
  · rw [hdirs, hkdirs]
    exact h.dir
  · rw [hcpus]
    exact h.cr3
  · rw [Kern.space_of_dirs hdirs hmem]
    exact hre.space_self

/-- The child takes the only other CPU that starts. -/
theorem exists_away : ∃ k s a ch cid d l el, Booted demoConfig k ∧
    TlbRun demoConfig.machine (fun _ _ ↦ True) (Kern.Bounded demoConfig.machine)
      (Smp.boot k).cold s.cold ∧ Away s a ch cid d l el ∧ 2 ≤ l.length := by
  obtain ⟨k, s, l, el, a, d, p, booted, hexec, hr, hgrown, hl, hb, hcpus, hfree⟩ := exists_solo
  obtain ⟨e, hea, -⟩ := exists_slot_ne a a
  have hne : l ≠ [] := by
    rintro rfl
    simp at hl
  obtain ⟨s₁, ch, cid, hexec₁, hfam₁, -, hch₁, hst₁, hcpus₁, l₁, el₁, hinv₁, hlen₁⟩ :=
    hr.exec_fork hgrown.inv hne hb (hfree e hea)
  have hlive : s₁.kern.Live ch := by
    rw [Kern.Live, show (s₁.kern.envs ch).envStatus = .notRunnable from hch₁]
    decide
  obtain ⟨s₂, hexec₂, hfam₂, hch₂, hst₂, hcpus₂, hmem₂⟩ := hfam₁.exec_setRunnable hlive
  obtain ⟨q, hpick, hq⟩ := exists_schedPick hch₂ 1
  obtain rfl : q = ch := by
    by_contra hqc
    rw [hst₂ q hqc, hst₁ q hqc] at hq
    by_cases hqa : q = a
    · rw [hqa, hr.status] at hq
      cases hq
    · rw [hfree q hqa] at hq
      cases hq
  obtain ⟨l₂, el₂, hinv₂⟩ := hfam₂.inv
  obtain ⟨d', hpg⟩ := Option.ne_none_iff_exists'.mp (hinv₂.pgdir q
    (by rw [Kern.Live, show (s₂.kern.envs q).envStatus = .runnable from hch₂]; decide))
  have hcpu : s₂.cpus 1 = {} := by rw [hcpus₂, hcpus₁, hcpus 1 (by decide)]
  obtain ⟨s₃, hexec₃, hr₃, hcpus₃, hst₃, hre⟩ :=
    @exec_start demoConfig.machine s₂ 1 q d' hcpu hpick hpg
  have hloaded := Entry.start_loaded hexec₃ hr₃ (by rw [Smp.curenv, hcpu])
  have hfam₃ := hfam₂.resched (hcpus₃ 0 (by decide)) (hst₃ a hfam₂.ne.symm) hre
  -- `sys_env_set_status` takes no page
  have hl₂ : l₁ = l₂ := by
    have hchain := hinv₂.own.ledger.chain
    rw [hmem₂] at hchain
    exact hinv₁.own.ledger.chain.unique hchain
  subst hl₂
  refine ⟨k, s₃, a, q, cid, _, l₁, el₂, booted, .tail (.tail (.tail (.single
    ⟨.keep trivial hexec (fun _ ↦ rfl) rfl, hb⟩)
    ⟨.keep trivial hexec₁ (fun hc ↦ absurd hc hr.up) rfl, hfam₁.bounded⟩)
    ⟨.keep trivial hexec₂ (fun hc ↦ absurd hc hfam₁.runs.up) rfl, hfam₂.bounded⟩)
    ⟨.keep trivial hexec₃ (fun _ ↦ ?_) rfl, hfam₃.bounded⟩,
    ⟨hfam₃, hr₃, hloaded, rfl, hinv₂.resched hre⟩, ?_⟩
  · show (s₂.cpus 1).cpuEnv = none
    rw [hcpu]
  · omega

theorem pgnum_zero : pgnum 0 = 0 := by decide

/-- The call of `a` that unmaps page 0 of its child. -/
def unmapCall (a : Slot) (cid : Word) : Call := { cur := a, no := 6, a1 := cid }

/-- The parent gives its child a page at 0, which CPU 1 may use. -/
theorem exists_shown : ∃ k s a ch cid d l el t, Booted demoConfig k ∧
    TlbRun demoConfig.machine (fun _ _ ↦ True) (Kern.Bounded demoConfig.machine)
      (Smp.boot k).cold s.cold ∧ Away s a ch cid d l el ∧
    translation s.kern.mem.phys d 0 = some t := by
  obtain ⟨k, s, a, ch, cid, d, l, el, booted, hrun, h, hl⟩ := exists_away
  let call : Call := { cur := a, no := 4, a1 := cid, a3 := PTE_U ||| PTE_P }
  obtain ⟨p, t, rfl⟩ := List.exists_cons_of_ne_nil (show l ≠ [] by rintro rfl; simp at hl)
  have hdir : (s.kern.setTf a call.tf).dirs ch = some d := by
    rw [Kern.dirs_setTf]
    exact h.dir
  have hle : ∀ q, (s.kern.setTf a call.tf).refs demoConfig.machine q < 2 ^ 16 := fun q ↦ by
    rw [Kern.refs, Kern.dirs_setTf]
    exact Nat.lt_succ_of_le (h.family.bounded q)
  rcases (h.inv.setTf a call.tf).sysPageAlloc_outcome
      (h.family.target (Kern.live_of_dirs h.dir).1 call.tf) hdir (show ¬ badVa 0 by decide)
      (show ¬ badPerm (PTE_U ||| PTE_P) by decide) rfl (fun q _ _ ↦ hle q) with
    ⟨-, rfl, -⟩ | ⟨k₁, l₁, hcall, hre, -⟩
  · simp at hl
  · have hex : call.exec demoConfig.machine (s.kern.setTf a call.tf) = some (.ret 0, k₁) :=
      congrArg returned hcall
    obtain ⟨s₁, hexec, h₁, hspace⟩ := h.exec_call call hex hre fun q f hq ↦ by
      obtain ⟨rfl, -⟩ := Prod.mk.inj (Option.some.inj hq)
      exact List.mem_cons_self
    rw [pgnum_zero] at hspace
    obtain ⟨t, ht⟩ := Kern.exists_translation h₁.dir hspace
    exact ⟨k, s₁, a, ch, cid, d, l₁, el, t, booted, hrun.tail
      ⟨.keep trivial hexec (fun hc ↦ absurd hc h.family.runs.up) rfl, h₁.family.bounded⟩, h₁, ht⟩

/-- CPU 1 keeps what its environment has lost. -/
theorem stale_translation : ∃ k x₀ x₁ x₂ a ch cid d v t, Booted demoConfig k ∧
    x₀.smp = Smp.boot k ∧
    TlbRun demoConfig.machine (fun _ _ ↦ True) (Kern.Bounded demoConfig.machine) x₀ x₁ ∧
    (Entry.trap 0 (unmapCall a cid).tf 0 0).exec demoConfig.machine x₁.smp = some x₂.smp ∧
    TlbStep demoConfig.machine (fun _ _ ↦ True) x₁ x₂ ∧ x₂.smp.kern.Bounded demoConfig.machine ∧
    x₁.smp.kern.dirs ch = some d ∧ translation x₁.smp.kern.mem.phys d v = some t ∧
    x₂.smp.kern.dirs ch = some d ∧ translation x₂.smp.kern.mem.phys d v = none ∧
    (x₂.smp.cpus 1).cpuStatus ≠ .unused ∧ x₂.cr3 1 = d ∧ (v, t) ∈ x₂.tlb 1 := by
  obtain ⟨k, s, a, ch, cid, d, l, el, t, booted, hrun, h, ht⟩ := exists_shown
  let x₁ := s.cold.hit 1 0 t
  have hfill : TlbStep demoConfig.machine (fun _ _ ↦ True) s.cold x₁ :=
    .hit 1 (by rw [show s.cold.cr3 1 = d from h.cr3]; exact ht)
  have hdir : (s.kern.setTf a (unmapCall a cid).tf).dirs ch = some d := by
    rw [Kern.dirs_setTf]
    exact h.dir
  have hzero : (0 : Word) < UTOP := by decide
  obtain ⟨k₁, l₁, hcall, hre, -⟩ := (h.inv.setTf a (unmapCall a cid).tf).sysPageUnmap_ok
    (h.family.target (Kern.live_of_dirs h.dir).1 (unmapCall a cid).tf) hdir
    (show ¬ badVa 0 by decide) fun q f _ ↦ by
      rw [Kern.refs, Kern.dirs_setTf]
      exact Nat.le_succ_of_le (h.family.bounded q)
  obtain ⟨s₁, hexec, h₁, hspace⟩ := h.exec_call (unmapCall a cid)
    (congrArg returned hcall) hre fun q f hq ↦ absurd hq.symm (Option.some_ne_none (q, f))
  have hnone := translation_eq_none (Kern.entryFrame_of_space h₁.dir hzero hspace)
  rw [pgnum_zero] at hnone
  have hempty : x₁.tlb 0 = ∅ :=
    s.cold.tlb_hit_of_ne 0 t (show (0 : CpuId) ≠ 1 by decide)
  have hkeep : TlbStep demoConfig.machine (fun _ _ ↦ True) x₁ ⟨s₁, x₁.tlb⟩ :=
    .keep trivial hexec (fun hc ↦ absurd hc h.family.runs.up) hempty
  exact ⟨k, (Smp.boot k).cold, x₁, ⟨s₁, x₁.tlb⟩, a, ch, cid, d, 0, t, booted, rfl,
    hrun.tail ⟨hfill, h.family.bounded⟩, hexec, hkeep, h₁.family.bounded, h.dir, ht, h₁.dir,
    hnone, h₁.child.up, h₁.cr3, s.cold.mem_hit 1 0 t⟩

end Jos
