import Jos.Kern.EnvFree
import Jos.Kern.PageCalls
import Jos.Kern.UserAccess
import Jos.Kern.Authority

/-!
# The page fault upcall (`page_fault_handler`)

The kernel stores a frame of 52 bytes into user memory, at an address that it computes from the
stack pointer of the program.  It checks the same 52 bytes before, and the check covers what the
hardware asks for; so the store goes through, and changes no other byte of any page.

In the program's eyes more than that may change.  A frame that reaches below the page of the
exception stack is seen on that page, too, if the program has mapped the two pages to the same
memory.
-/

namespace Jos

open Jos.Lib

variable {B : Machine} {M : Pool B} {k k' : Kern} {l : List ℕ} {el : List Slot} {cur e : Slot}
  {d : ℕ} {m m' : Mem} {tf : Trapframe} {cr2 va : Word}

/-! ## Running the handler -/

/-- What `page_fault_handler` checks. -/
def FrameChecked (B : Machine) (m : Mem) (d : ℕ) (esp : Word) : Option (Option Word) :=
  userMemCheck B m d (faultEsp esp) 52 (PTE_U ||| PTE_P ||| PTE_W ||| PTE_U)

theorem pageFaultHandler_upcall (hup : (k.envs cur).envPgfaultUpcall ≠ 0)
    (hpg : (k.envs cur).envPgdir = some d)
    (hcheck : FrameChecked B k.mem d (k.envs cur).envTf.esp = some none)
    (hstore : storeBytes k.mem d (faultEsp (k.envs cur).envTf.esp)
      (utfBytes cr2 (k.envs cur).envTf) = some m) :
    pageFaultHandler B k cur cr2 =
      some (.run, (k.setTf cur (upcallTf (k.envs cur))).setMem m) := by
  rw [FrameChecked, faultEsp] at hcheck
  rw [faultEsp] at hstore
  simp only [pageFaultHandler, hup, ne_eq, not_false_eq_true, if_true, userMemAssert,
    Kern.envs_modEnv_self, Kern.mem_modEnv, hpg, Option.bind_eq_bind, Option.bind_some, hcheck,
    Option.pure_def, hstore]
  refine congrArg (fun k ↦ some (Exit.run, Kern.setMem k m)) ?_
  exact k.modTf_setTf cur _ fun env ↦ { env.envTf with eip := env.envPgfaultUpcall }

theorem pageFaultHandler_destroy {a : Word} (hup : (k.envs cur).envPgfaultUpcall ≠ 0)
    (hpg : (k.envs cur).envPgdir = some d)
    (hcheck : FrameChecked B k.mem d (k.envs cur).envTf.esp = some (some a))
    (hfree : envFree B (k.setTf cur
      { (k.envs cur).envTf with esp := faultEsp (k.envs cur).envTf.esp }) cur = some k') :
    pageFaultHandler B k cur cr2 = some (.yield none, k') := by
  rw [FrameChecked, faultEsp] at hcheck
  rw [Kern.setTf, faultEsp] at hfree
  simp only [pageFaultHandler, hup, ne_eq, not_false_eq_true, if_true, userMemAssert,
    Kern.envs_modEnv_self, Kern.mem_modEnv, hpg, Option.bind_eq_bind, Option.bind_some, hcheck,
    envDestroy, and_false, not_true_eq_false, if_false, hfree]
  rfl

/-! ## What the frame covers -/

/-- The bytes of the frame. -/
def frameByte (tf : Trapframe) (i : ℕ) : Word := faultEsp tf.esp + BitVec.ofNat 32 i

theorem frameByte_lt (tf : Trapframe) {i : ℕ} (hi : i < 52) :
    (frameByte tf i).toNat = (faultEsp tf.esp).toNat + i ∧ frameByte tf i < UTOP :=
  add_ofNat_lt_UTOP (faultEsp_le tf.esp) hi

/-- A fault on the exception stack leaves one word free below the trap-time stack. -/
theorem faultEsp_nested (hlo : UXSTACKTOP - 0x1000 ≤ tf.esp) (hhi : tf.esp ≤ UXSTACKTOP) :
    (faultEsp tf.esp).toNat + 52 + 4 = tf.esp.toNat := by
  rw [faultEsp, if_pos ⟨hlo, hhi⟩]
  have hlo' : 4005556224 ≤ tf.esp.toNat := hlo
  have hhi' : tf.esp.toNat ≤ 4005560320 := hhi
  bv_omega

/-- The check asks for what the hardware asks for. -/
theorem PdesOpen.frame_writable (ho : PdesOpen B k.mem k.dirs) (hd : k.dirs cur = some d)
    {esp : Word} (hcheck : FrameChecked B k.mem d esp = some none) {i : ℕ}
    (hi : i < 52) : k.mem.UserWritable d (faultEsp esp + BitVec.ofNat 32 i) := by
  have hle := faultEsp_le esp
  have htop : UTOP.toNat = 4005560320 := rfl
  obtain ⟨hnat, hlt⟩ := add_ofNat_lt_UTOP hle hi
  have hacc := (rangeAccessible_of_check (by
    rw [show (52 : Word).toNat = 52 from rfl]
    omega) hcheck ((faultEsp esp).toNat + i) (Nat.le_add_right _ _)
      (Nat.add_lt_add_left hi _)).2
  rw [← hnat, BitVec.ofNat_toNat, BitVec.setWidth_eq] at hacc
  have hpdx : pdx (faultEsp esp + BitVec.ofNat 32 i) < NUPDE := by
    rw [← pgnum_div]
    exact div_lt_NUPDE (pgnum_lt_of_lt_UTOP hlt)
  have hall := (accessible_iff_of_openPde ⟨by decide, by decide⟩ hacc.1
    (ho.user cur d _ hd hpdx)).mp hacc
  exact hall.2 (by decide)

/-! ## The two ends -/

/-- `env_free` writes into no page that is mapped anywhere. -/
theorem Inv.envFree_content (h : Inv B M k l el) (hb : k.Bounded B) (he : k.Live e) :
    ∃ k', envFree B k e = some k' ∧ (k'.envs e).envStatus = .free ∧
      ∀ e' v p f, k.space e' v = some (p, f) → k'.mem.phys p = k.mem.phys p := by
  obtain ⟨d, m₁, m', -, hd, hrun, -, -, hsh, hphys⟩ := h.envFree_freed hb he
  refine ⟨k.freed e m', hrun, ?_, fun e' v p f hp ↦ ?_⟩
  · rw [Kern.freed_self]
    rfl
  · obtain ⟨-, -, hpu⟩ := h.mapped hp
    show m'.phys p = k.mem.phys p
    rw [hphys]
    exact hsh.frame d hd p (hpu.ne_dir hd).symm fun i hi ht ↦ hpu.ne_table hd hi ht rfl

/-- The memory `m'` is that of `k` with the frame of a fault in it. -/
structure FrameStored (k : Kern) (d : ℕ) (tf : Trapframe) (cr2 : Word) (m' : Mem) : Prop where
  writable : ∀ i < 52, frameByte tf i < UTOP ∧ k.mem.UserWritable d (frameByte tf i)
  bytes : ∀ i < 52, m'.loadByte d (frameByte tf i) = (utfBytes cr2 tf)[i]?
  rest : ∀ x : ℕ × ℕ, (∀ i < 52, k.mem.place d (frameByte tf i) ≠ some x) →
    m'.byte x.1 x.2 = k.mem.byte x.1 x.2
  link : m'.link = k.mem.link
  pageFreeList : m'.pageFreeList = k.mem.pageFreeList
  ref : m'.ref = k.mem.ref

theorem Inv.frameStored (h : Inv B M k l el) (hd : k.dirs cur = some d) (tf : Trapframe)
    (cr2 : Word) (hW : ∀ i < 52, k.mem.UserWritable d (frameByte tf i)) :
    ∃ m', storeBytes k.mem d (faultEsp tf.esp) (utfBytes cr2 tf) = some m' ∧
      FrameStored k d tf cr2 m' := by
  have hlen := length_utfBytes cr2 tf
  have hfit : (faultEsp tf.esp).toNat + (utfBytes cr2 tf).length ≤ UTOP.toNat :=
    hlen.symm ▸ faultEsp_le tf.esp
  obtain ⟨m', hrun⟩ := h.exists_storeBytes hd hfit fun i hi ↦ hW i (hlen ▸ hi)
  have hs := h.storeBytes_stored hd hfit hrun
  refine ⟨m', hrun, fun i hi ↦ ⟨(frameByte_lt tf hi).2, hW i hi⟩, fun i hi ↦ ?_, fun x hx ↦ ?_,
    hs.link, hs.pageFreeList, hs.ref⟩
  · rw [List.getElem?_eq_getElem (hlen.symm ▸ hi)]
    exact h.loadByte_storeBytes (by rw [hlen]; decide) hd hfit hrun (hlen.symm ▸ hi)
  · exact h.byte_storeBytes_of_ne hd hfit hrun fun i hi ↦ hx i (hlen ▸ hi)

/-- The program has mapped the byte at `va` a second time, where the frame is, which reaches below
the page of the exception stack. -/
def SeenTwice (k : Kern) (d : ℕ) (tf : Trapframe) (va : Word) : Prop :=
  faultEsp tf.esp < UXSTACKTOP - 0x1000 ∧
    ∃ i < 52, ∃ x, k.mem.place d va = some x ∧ k.mem.place d (frameByte tf i) = some x

/-- What is read at or above the trap-time stack pointer is as before, unless it is seen twice. -/
theorem FrameStored.above (h : FrameStored k d tf cr2 m') (hinv : Inv B M k l el)
    (hd : k.dirs cur = some d) (hs : Stored k m') (hlo : UXSTACKTOP - 0x1000 ≤ tf.esp)
    (hhi : tf.esp ≤ UXSTACKTOP) (hva : tf.esp ≤ va) (hlt : va < UTOP)
    (hne : m'.loadByte d va ≠ k.mem.loadByte d va) : SeenTwice k d tf va := by
  rw [Mem.loadByte_eq, Mem.loadByte_eq, hinv.stored_walk hs hd hlt] at hne
  cases hw : k.mem.walk d va with
  | none => simp [hw] at hne
  | some w =>
      obtain ⟨pde, pte⟩ := w
      have hplace : k.mem.place d va = some (frame pte, va.toNat % 4096) :=
        Mem.place_eq_some.mpr ⟨pde, pte, hw, rfl⟩
      obtain ⟨i, hi, hx⟩ : ∃ i < 52,
          k.mem.place d (frameByte tf i) = some (frame pte, va.toNat % 4096) := by
        by_contra hc
        simp only [not_exists, not_and] at hc
        rw [hw, Option.map_some, Option.map_some] at hne
        exact hne (congrArg some (h.rest (frame pte, va.toNat % 4096) hc))
      refine ⟨?_, i, hi, _, hplace, hx⟩
      -- the two addresses have one offset, and are not the same
      obtain ⟨pde', pte', -, heq⟩ := Mem.place_eq_some.mp hx
      have hoff : va.toNat % 4096 = (frameByte tf i).toNat % 4096 := congrArg Prod.snd heq
      have hnest := faultEsp_nested hlo hhi
      have hbyte := (frameByte_lt tf hi).1
      have hva' := BitVec.le_def.mp hva
      have htop : va.toNat < 4005560320 := hlt
      rw [BitVec.lt_def, show (UXSTACKTOP - 0x1000).toNat = 4005556224 from rfl]
      omega

section

variable (h : Inv B M k l el) (hd : k.dirs cur = some d) (hup : (k.envs cur).envPgfaultUpcall ≠ 0)

include h hd hup

/-- The check fails. -/
theorem Inv.pageFaultHandler_destroy (hb : k.Bounded B) {a : Word}
    (hcheck : FrameChecked B k.mem d tf.esp = some (some a)) :
    ∃ k', pageFaultHandler B (k.setTf cur tf) cur cr2 = some (.yield none, k') ∧
      (k'.envs cur).envStatus = .free ∧
      ∀ e v p f, k.space e v = some (p, f) → k'.mem.phys p = k.mem.phys p := by
  obtain ⟨hlive, hpg⟩ := Kern.live_of_dirs hd
  have hself : (k.setTf cur tf).envs cur = { k.envs cur with envTf := tf } := by simp [Kern.setTf]
  have hset : ∀ tf', (k.setTf cur tf).setTf cur tf' = k.setTf cur tf' := by
    intro tf'
    simp [Kern.setTf, Kern.modEnv]
  obtain ⟨k', hfree, hst, hcont⟩ := (h.setTf cur { tf with esp := faultEsp tf.esp }).envFree_content
    (by rw [Kern.Bounded, Kern.dirs_setTf]; exact hb)
    (by rw [Kern.Live, (k.keeps_setTf cur _ cur).envStatus]; exact hlive)
  refine ⟨k', Jos.pageFaultHandler_destroy (d := d) (a := a) ?_ ?_ ?_ ?_, hst, fun e v p f hp ↦ ?_⟩
  · rw [hself]
    exact hup
  · rw [hself]
    exact hpg
  · rw [hself]
    exact hcheck
  · rw [hself, hset]
    exact hfree
  · refine hcont e v p f ?_
    rw [Kern.space_of_dirs (Kern.dirs_setTf k cur _) rfl]
    exact hp

/-- The check succeeds. -/
theorem Inv.pageFaultHandler_upcall (cr2 : Word) (ho : PdesOpen B k.mem k.dirs)
    (hcheck : FrameChecked B k.mem d tf.esp = some none) :
    ∃ m', pageFaultHandler B (k.setTf cur tf) cur cr2 = some (.run, (k.setTf cur
        { tf with esp := faultEsp tf.esp, eip := (k.envs cur).envPgfaultUpcall }).setMem m') ∧
      FrameStored k d tf cr2 m' ∧ Stored k m' := by
  obtain ⟨-, hpg⟩ := Kern.live_of_dirs hd
  have hself : (k.setTf cur tf).envs cur = { k.envs cur with envTf := tf } := by simp [Kern.setTf]
  obtain ⟨m', hstore, hframe⟩ := h.frameStored hd tf cr2 fun i hi ↦ ho.frame_writable hd hcheck hi
  refine ⟨m', ?_, hframe,
    h.storeBytes_stored hd ((length_utfBytes cr2 tf).symm ▸ faultEsp_le tf.esp) hstore⟩
  refine (Jos.pageFaultHandler_upcall (d := d) (m := m') ?_ ?_ ?_ ?_).trans ?_
  · rw [hself]
    exact hup
  · rw [hself]
    exact hpg
  · rw [hself]
    exact hcheck
  · rw [hself]
    exact hstore
  · rw [hself]
    refine congrArg (fun k ↦ some (Exit.run, Kern.setMem k m')) ?_
    simp [Kern.setTf, Kern.modEnv, upcallTf]

end

/-- `PTE_U | PTE_P | PTE_W`. -/
def permRW : Word := 7

theorem Kern.bounded_of_refs {N : ℕ} (h : ∀ p, k.refs B p ≤ N) (hN : N ≤ 65535) : k.Bounded B :=
  fun p ↦ (h p).trans hN

/-- An environment maps its stack page a second time. -/
theorem Inv.map_stack {N p : ℕ} {f : Word} (h : Inv B M k l el) (va : Word) (hlive : k.Live e)
    (hN : ∀ p, k.refs B p ≤ N) (hN' : N < 2 ^ 16) (hl : l ≠ [])
    (hp : k.space e (pgnum (USTACKTOP - 0x1000)) = some (p, f)) (hW : isSet f PTE_W)
    (hva : ¬ badVa va) :
    ∃ k' l', Step B k k' ∧ Remaps B M k l el e (pgnum va) (some (p, permRW)) k' l' ∧
      l.length ≤ l'.length + 1 := by
  obtain ⟨d, hd, -⟩ := h.live_dir hlive
  have hid : envid2env k e 0 true = some e := rfl
  rcases h.sysPageMap_ok hid hd hva hid (by decide) (show ¬ badPerm permRW by decide) hp
    (fun _ ↦ hW) fun q _ _ ↦ (hN q).trans_lt hN' with ⟨hroom, -⟩ | ⟨k', l', hok, -, hre, hlen⟩
  · refine absurd (.inr ?_) hroom
    rw [h.own.ledger.chain.head_eq]
    cases l with
    | nil => exact absurd rfl hl
    | cons q t => exact Option.some_ne_none q
  · let c : Call := { cur := e, no := 5, a2 := USTACKTOP - 0x1000, a4 := va, a5 := permRW }
    refine ⟨k', l', .kernel (.syscall (c := c) (r := .ret 0) hlive ?_), hre, ?_⟩
    · show returned (sysPageMap B k e 0 (USTACKTOP - 0x1000) 0 va permRW) = _
      rw [hok]
      rfl
    · split at hlen
      · exact hlen
      · omega

/-- An environment has mapped the page of its exception stack a second time, right below. -/
theorem exists_seen_twice : ∃ k₀ k a d p, Booted demoConfig k₀ ∧
    Run demoConfig.machine (Kern.Bounded demoConfig.machine) k₀ k ∧ k.Live a ∧
    k.dirs a = some d ∧ (k.envs a).envPgfaultUpcall ≠ 0 ∧
    k.space a (pgnum (UXSTACKTOP - 0x1000)) = some (p, permRW) ∧
    k.space a (pgnum (UXSTACKTOP - 0x2000)) = some (p, permRW) := by
  obtain ⟨k₀, l, el, a, -, env, -, d, -, booted, hboot, hlen, -, -, henv, -, -, -,
    ⟨p, hstack⟩, -⟩ :=
    exists_booted
  have hlive : k₀.Live a := by
    rw [Kern.Live, henv]
    exact EnvStatus.noConfusion
  have hp : k₀.space a (pgnum (USTACKTOP - 0x1000)) = some (p, PTE_W ||| PTE_U ||| PTE_P) := by
    rw [hstack, if_pos rfl]
  have hl : l ≠ [] := by
    rintro rfl
    simp at hlen
  obtain ⟨k₁, l₁, hstep₁, hre₁, hlen₁⟩ := hboot.inv.map_stack (UXSTACKTOP - 0x1000) hlive
    hboot.solo (by decide) hl hp (by decide) (by decide)
  have hrefs₁ := (hre₁.refs_le le_rfl hboot.solo).1
  have hp₁ : k₁.space a (pgnum (USTACKTOP - 0x1000)) = some (p, PTE_W ||| PTE_U ||| PTE_P) := by
    rw [hre₁.space_of_ne fun hc ↦ absurd hc.2 (by decide), hp]
  have hl₁ : l₁ ≠ [] := by
    rintro rfl
    simp at hlen₁
    omega
  obtain ⟨k₂, l₂, hstep₂, hre₂, -⟩ := hre₁.inv.map_stack (UXSTACKTOP - 0x2000)
    (hre₁.live hlive) hrefs₁ (by decide) hl₁ hp₁ (by decide) (by decide)
  have hrefs₂ := (hre₂.refs_le (by decide) hrefs₁).1
  have hlive₂ := hre₂.live (hre₁.live hlive)
  let k₃ := k₂.modEnv a fun env ↦ { env with envPgfaultUpcall := 1 }
  have hdirs₃ : k₃.dirs = k₂.dirs := Kern.dirs_modEnv Iff.rfl rfl
  have hspace₃ : k₃.space = k₂.space := Kern.space_of_dirs hdirs₃ rfl
  have hstep₃ : Step demoConfig.machine k₂ k₃ :=
    .kernel (.syscall (c := { cur := a, no := 9, a2 := 1 }) (r := .ret 0) hlive₂ rfl)
  have hlive₃ : k₃.Live a := by
    rw [Kern.Live, Kern.envs_modEnv_self]
    exact hlive₂
  obtain ⟨d', hd', -⟩ := hre₂.inv.live_dir hlive₂
  have hb₁ : k₁.Bounded demoConfig.machine := Kern.bounded_of_refs hrefs₁ (by decide)
  have hb₂ : k₂.Bounded demoConfig.machine := Kern.bounded_of_refs hrefs₂ (by decide)
  have hb₃ : k₃.Bounded demoConfig.machine := by
    rw [Kern.Bounded, hdirs₃]
    exact hb₂
  refine ⟨k₀, k₃, a, d', p, booted, ((Relation.ReflTransGen.single ⟨hstep₁, hb₁⟩).tail
    ⟨hstep₂, hb₂⟩).tail ⟨hstep₃, hb₃⟩, hlive₃, hdirs₃ ▸ hd', ?_, ?_, ?_⟩
  · rw [Kern.envs_modEnv_self]
    show (1 : Word) ≠ 0
    decide
  · rw [hspace₃, hre₂.space_of_ne fun hc ↦ absurd hc.2 (by decide), hre₁.space_self]
  · rw [hspace₃, hre₂.space_self]

end Jos
