import Jos.Kern.Exec
import Jos.Kern.TrapEntry

/-!
# A trap and the return from it

Whatever takes a program into the kernel, `trap` finds its registers in a `struct Trapframe`, and
`env_pop_tf` with such a frame puts them back.
-/

namespace Jos

open Jos.Lib Jos.Lib.X86

variable {S : Symbols} {t : DescTables} {s : Stub} {c : Processor} {ws : List Word} {n : ℕ}
  {segs : TaskSegs} {i : CpuId} {wide : Bool} {e : Event}

/-! ## The stub and `_alltraps` -/

theorem Stub.find_self : ∀ s : Stub, Stub.all.find? (fun s' ↦ decide (s' = s)) = some s := by
  intro s
  cases s <;> rfl

theorem Symbols.text_stub : S.text (S.stub s) = some (s.code S.alltraps) := by
  rw [Symbols.text, if_neg (S.apart s)]
  have heq : (fun s' ↦ decide (S.stub s' = S.stub s)) = fun s' ↦ decide (s' = s) := by
    funext s'
    rw [decide_eq_decide]
    exact S.inj.eq_iff
  rw [heq, Stub.find_self]
  rfl

theorem Symbols.text_alltraps : S.text S.alltraps = some S.alltrapsCode := if_pos rfl

/-- The words that a stub pushes. -/
def Stub.words (s : Stub) : List Word := (if s.params.2 then [0] else []) ++ [s.params.1]

theorem Symbols.run_stub (t : DescTables) (ws : List Word) (heip : c.eip = S.stub s)
    (hroom : Below c.writable (c.reg .esp) n) (hn : 4 * (ws.length + 2) ≤ n) (hn' : n ≤ 2 ^ 32) :
    S.run t (c.pushed ws) =
      some (Processor.pushed { c with eip := S.alltraps } (ws ++ s.words)) := by
  have hpush : ∀ vs w, vs.length ≤ ws.length + 1 →
      (c.pushed vs).push w = some (c.pushed (vs ++ [w])) := fun vs w hlen ↦
    Processor.push_pushed hroom (by omega) hn'
  have htext : S.text (c.pushed ws).eip = some (s.code S.alltraps) := by
    rw [Processor.toState_pushed, State.eip_pushed, heip, Symbols.text_stub]
  rw [Symbols.run, htext, Option.bind_eq_bind, Option.bind_some, Stub.code, Stub.words]
  cases s.params.2
  · simp only [Bool.false_eq_true, if_false, List.nil_append, List.foldlM_cons, List.foldlM_nil,
      KernInstr.exec]
    rw [hpush _ _ (by simp)]
    rfl
  · simp only [if_true, List.cons_append, List.nil_append, List.foldlM_cons, List.foldlM_nil,
      KernInstr.exec]
    rw [hpush _ _ (by simp), Option.bind_eq_bind, Option.bind_some, hpush _ _ (by simp),
      List.append_assoc]
    rfl

/-- `_alltraps`. -/
theorem Symbols.run_alltraps (t : DescTables) (ws : List Word) (heip : c.eip = S.alltraps)
    (hcpl : c.cpl = 0) (hload : t.loadable 0 GD_KD) (hroom : Below c.writable (c.reg .esp) n)
    (hn : 4 * (ws.length + 12) ≤ n) (hn' : n ≤ 2 ^ 32) : ∃ p q : BitVec 16, ∃ c' : Processor,
      S.run t (c.pushed ws) = some (c'.pushed (ws ++ [p ++ c.sreg .ds, q ++ c.sreg .es,
          c.reg .eax, c.reg .ecx, c.reg .edx, c.reg .ebx,
          c.reg .esp - BitVec.ofNat 32 (4 * (ws.length + 2)), c.reg .ebp, c.reg .esi, c.reg .edi,
          c.reg .esp - BitVec.ofNat 32 (4 * (ws.length + 10)), S.next])) ∧
      c' = { (c.setReg .eax (GD_KD.setWidth 32)) with
        sreg := Function.update (Function.update c.sreg .ds GD_KD) .es GD_KD
        eip := S.trap } := by
  have hpush : ∀ vs w, vs.length ≤ ws.length + 11 →
      (c.pushed vs).push w = some (c.pushed (vs ++ [w])) := fun vs w hlen ↦
    Processor.push_pushed hroom (by omega) hn'
  obtain ⟨p, hp⟩ := Processor.pushSel_pushed t ws hroom (by omega) hn' (c.sreg .ds)
  obtain ⟨q, hq⟩ := Processor.pushSel_pushed t (ws ++ [p ++ c.sreg .ds]) hroom (by simp; omega) hn'
    (c.sreg .es)
  refine ⟨p, q, _, ?_, rfl⟩
  have htext : S.text (c.pushed ws).eip = some S.alltrapsCode := by
    rw [Processor.toState_pushed, State.eip_pushed, heip, Symbols.text_alltraps]
  have hpushal := Processor.pushal_pushed t (ws ++ [p ++ c.sreg .ds] ++ [q ++ c.sreg .es]) hroom
    (by simp; omega) hn'
  rw [Symbols.run, htext, Option.bind_eq_bind, Option.bind_some, Symbols.alltrapsCode]
  simp only [List.foldlM_cons, List.foldlM_nil, Option.bind_eq_bind, Option.pure_def]
  rw [show KernInstr.exec t (c.pushed ws) (.pushSeg .ds) = _ from hp, Option.bind_some,
    show KernInstr.exec t (c.pushed _) (.pushSeg .es) = _ from hq, Option.bind_some,
    hpushal, Option.bind_some]
  generalize hws : ws ++ [p ++ c.sreg .ds] ++ [q ++ c.sreg .es] ++ _ = ws'
  have hlen : ws'.length = ws.length + 10 := by
    rw [← hws]
    simp
  have hmov : KernInstr.exec t (c.pushed ws') (.movImm (GD_KD.setWidth 32) .eax) =
      some ((c.setReg .eax (GD_KD.setWidth 32)).pushed ws') :=
    congrArg some (Processor.setReg_pushed (by decide))
  rw [hmov, Option.bind_some]
  generalize hc₁ : c.setReg .eax (GD_KD.setWidth 32) = c₁
  have heax : c₁.reg .eax = GD_KD.setWidth 32 := by
    rw [← hc₁, Processor.reg_setReg_self]
  have hesp : c₁.reg .esp = c.reg .esp := by
    rw [← hc₁, Processor.reg_setReg_of_ne (by decide)]
  have hseg : ∀ r, r ≠ .cs ∧ r ≠ .ss → ∀ c₂ : Processor, c₂.reg .eax = GD_KD.setWidth 32 →
      c₂.cpl = 0 → KernInstr.exec t (c₂.pushed ws') (.movSeg .eax r) =
        some ((c₂.setSReg r GD_KD).pushed ws') := by
    intro r hr c₂ heax hcpl
    have hw : ((c₂.pushed ws').reg .eax).setWidth 16 = GD_KD := by
      rw [Processor.toState_pushed, State.reg_pushed (by decide), heax]
      decide
    rw [KernInstr.exec, Processor.loadSeg, hw]
    exact if_pos ⟨hr.1, hr.2, hcpl ▸ hload⟩
  have hcpl₁ : c₁.cpl = 0 := by
    rw [← hc₁]
    exact hcpl
  rw [hseg .ds (by decide) c₁ heax hcpl₁, Option.bind_some,
    hseg .es (by decide) (c₁.setSReg .ds GD_KD) heax hcpl₁, Option.bind_some]
  generalize hc₂ : (c₁.setSReg .ds GD_KD).setSReg .es GD_KD = c₂
  have hpush₂ : ∀ vs w, vs.length ≤ ws.length + 11 →
      (c₂.pushed vs).push w = some (c₂.pushed (vs ++ [w])) := by
    intro vs w hlen
    apply Processor.push_pushed (n := n) _ (by omega) hn'
    rw [← hc₂]
    show Below c₁.writable (c₁.reg .esp) n
    rw [hesp, ← hc₁]
    exact hroom
  have hesp₂ : (c₂.pushed ws').reg .esp = c.reg .esp - BitVec.ofNat 32 (4 * (ws.length + 10)) := by
    rw [Processor.toState_pushed, State.esp_pushed, hlen, ← hesp, ← hc₂]
    rfl
  have hpushl : KernInstr.exec t (c₂.pushed ws') (.user (.pushl .esp)) =
      some (c₂.pushed (ws' ++ [c.reg .esp - BitVec.ofNat 32 (4 * (ws.length + 10))])) := by
    rw [← hesp₂]
    exact hpush₂ _ _ (by omega)
  rw [hpushl, Option.bind_some, KernInstr.exec, Option.bind_eq_bind,
    hpush₂ _ _ (by simp; omega), Option.bind_some, ← hws, ← hc₂, ← hc₁]
  simp only [List.append_assoc, List.cons_append, List.nil_append, List.length_append,
    List.length_cons, List.length_nil]
  rfl
/-! ## The events -/

/-- The number of the trap, the error code and the instruction pointer that `trap` finds. -/
def recorded (c : Processor) : Event → Word × Word × Word
  | .fault n err => (n.setWidth 32, if hasErrorCode n then err else 0, c.eip)
  | .int n next =>
      if n = 3 ∨ n = 48 then (n.setWidth 32, 0, next) else (13, 8 * n.setWidth 32 + 2, c.eip)
  | .external n =>
      if (gateOf n).isSome then (n.setWidth 32, 0, c.eip) else (13, 8 * n.setWidth 32 + 3, c.eip)

/-- Events that there are: exceptions that the processor knows, and interrupts with a vector that
is not that of an exception with an error code. -/
def Possible : Event → Prop
  | .fault n _ => (gateOf n).isSome
  | .int _ _ => True
  | .external n => hasErrorCode n = false

theorem Stub.words_eq {n : BitVec 8} {dpl : BitVec 2} (hg : gateOf n = some (s, dpl)) (err : Word) :
    (if hasErrorCode n then some err else none).toList ++ s.words =
      [if hasErrorCode n then err else 0, n.setWidth 32] := by
  have hp := (gateOf_cases n _ hg).1
  rw [Stub.words, hp]
  cases hasErrorCode n <;> rfl

/-- The processor goes to a stub, which makes the words on the stack the same for all traps. -/
theorem take_eq (hc : c.cpl = 3) (he : Possible e) : ∃ n s dpl err,
    gateOf n = some (s, dpl) ∧
    c.take (trapTables S segs i wide) e =
      c.enter (trapTables S segs i wide) n (recorded c e).2.2 err ∧
    err.toList ++ s.words = [(recorded c e).2.1, (recorded c e).1] := by
  have hgp : gateOf 13 = some (.tGpflt, 0) := by decide
  have hfault : ∀ code : Word, (some code).toList ++ Stub.words .tGpflt = [code, 13] := fun _ ↦ rfl
  cases e with
  | fault n err =>
      obtain ⟨⟨s, dpl⟩, hg⟩ := Option.isSome_iff_exists.mp he
      refine ⟨n, s, dpl, _, hg, ?_, Stub.words_eq hg err⟩
      simp only [Processor.take, refused_some hg hc]
      rfl
  | int n next =>
      cases hg : gateOf n with
      | none =>
          have hn : ¬ (n = 3 ∨ n = 48) := by
            rintro (rfl | rfl) <;> cases hg
          refine ⟨13, _, _, some (8 * n.setWidth 32 + 2), hgp, ?_, ?_⟩
          · simp only [Processor.take, refused_none hg, refused_some hgp hc, recorded, if_neg hn]
            simp
          · rw [recorded, if_neg hn]
            exact hfault _
      | some x =>
          obtain ⟨s, dpl⟩ := x
          have hd := (gateOf_cases n _ hg).2
          by_cases hn : n = 3 ∨ n = 48
          · rw [if_pos hn] at hd
            have hno : hasErrorCode n = false := by
              rcases hn with rfl | rfl <;> rfl
            refine ⟨n, s, dpl, none, hg, ?_, ?_⟩
            · simp only [Processor.take, refused_some hg hc, recorded, if_pos hn]
              simp [show dpl = 3 from hd]
            · have := Stub.words_eq hg 0
              rw [hno] at this
              rw [recorded, if_pos hn]
              exact this
          · rw [if_neg hn] at hd
            refine ⟨13, _, _, some (8 * n.setWidth 32 + 2), hgp, ?_, ?_⟩
            · simp only [Processor.take, refused_some hg hc, recorded, if_neg hn]
              rw [if_pos ⟨trivial, by rw [show dpl = 0 from hd]; decide⟩]
              simp only [refused_some hgp hc]
              rfl
            · rw [recorded, if_neg hn]
              exact hfault _
  | external n =>
      cases hg : gateOf n with
      | none =>
          refine ⟨13, _, _, some (8 * n.setWidth 32 + 2 + 1), hgp, ?_, ?_⟩
          · simp only [Processor.take, refused_none hg, refused_some hgp hc, recorded, hg]
            simp
          · rw [recorded, hg, hfault]
            simp [BitVec.add_assoc]
      | some x =>
          obtain ⟨s, dpl⟩ := x
          refine ⟨n, s, dpl, none, hg, ?_, ?_⟩
          · simp only [Processor.take, refused_some hg hc, recorded, hg]
            simp
          · have := Stub.words_eq hg 0
            rw [show hasErrorCode n = false from he] at this
            rw [recorded, hg]
            exact this

/-- What is in memory if the words of a frame are on the stack. -/
theorem trapframeAt_of_stackAt {m : Word → BitVec 8} {a : Word} {r : PushRegs}
    {es ds cs ss p q p' q' : BitVec 16} {no err eip eflags esp : Word}
    (h : StackAt m a [r.edi, r.esi, r.ebp, r.oesp, r.ebx, r.edx, r.ecx, r.eax, q ++ es, p ++ ds,
      no, err, eip, q' ++ cs, eflags, esp, p' ++ ss]) :
    trapframeAt m a = ⟨r, es, ds, no, err, eip, cs, eflags, esp, ss⟩ := by
  simp only [StackAt, BitVec.add_assoc, BitVec.ofNat_eq_ofNat,
    BitVec.reduceAdd] at h
  obtain ⟨h0, h1, h2, h3, h4, h5, h6, h7, h8, h9, h10, h11, h12, h13, h14, h15, h16, -⟩ := h
  simp only [trapframeAt, BitVec.ofNat_eq_ofNat, h0, h1, h2, h3, h4, h5, h6, h7, h8, h9, h10, h11,
    h12, h13, h14, h15, h16, BitVec.setWidth_append_eq_right]

/-! ## What `trap` finds -/

/-- The frame that `trap` gets, on the kernel stack that ends at `esp0`. -/
def frameOf (c : Processor) (esp0 : Word) (e : Event) : Trapframe where
  regs :=
    { edi := c.reg .edi
      esi := c.reg .esi
      ebp := c.reg .ebp
      oesp := esp0 - 36
      ebx := c.reg .ebx
      edx := c.reg .edx
      ecx := c.reg .ecx
      eax := c.reg .eax }
  es := c.sreg .es
  ds := c.sreg .ds
  trapno := (recorded c e).1
  err := (recorded c e).2.1
  eip := (recorded c e).2.2
  cs := c.sreg .cs
  eflags := c.eflags
  esp := c.reg .esp
  ss := c.sreg .ss

/-- The processor enters `trap`, which has the frame at `esp0 - 68` for an argument. -/
structure AtTrap (S : Symbols) (c : Processor) (esp0 : Word) (e : Event) (c' : Processor) :
    Prop where
  eip : c'.eip = S.trap
  frame : trapframeAt c'.mem (esp0 - 68) = frameOf c esp0 e
  arg : word c'.mem (esp0 - 72) = esp0 - 68
  next : word c'.mem (esp0 - 76) = S.next
  esp : c'.reg .esp = esp0 - 76
  cs : c'.sreg .cs = GD_KT
  data : ∀ r, r = .ss ∨ r = .ds ∨ r = .es → c'.sreg r = GD_KD
  other : ∀ r, r = .fs ∨ r = .gs → c'.sreg r = c.sreg r
  flags : c'.eflags = gateFlags interruptGate c.eflags
  mem : ∀ x : Word, 76 ≤ (esp0 - 1 - x).toNat → c'.mem x = c.mem x

/-- The processor when it enters `trap`, without what is on the stack. -/
def trapState (S : Symbols) (c : Processor) (esp0 : Word) : Processor :=
  { (entered c esp0 S.trap).setReg .eax (GD_KD.setWidth 32) with
    sreg := Function.update (Function.update (entered c esp0 S.trap).sreg .ds GD_KD) .es GD_KD }

/-- The frame on the stack, with what is below it. -/
theorem atTrap_pushed {esp0 : Word} (p q p' q' : BitVec 16)
    (hws : ws = [p ++ c.sreg .ss, c.reg .esp, c.eflags, q ++ c.sreg .cs, (recorded c e).2.2,
      (recorded c e).2.1, (recorded c e).1, p' ++ c.sreg .ds, q' ++ c.sreg .es,
      c.reg .eax, c.reg .ecx, c.reg .edx, c.reg .ebx, esp0 - 36,
      c.reg .ebp, c.reg .esi, c.reg .edi, esp0 - 68, S.next]) :
    AtTrap S c esp0 e ((trapState S c esp0).pushed ws) := by
  have hlen : ws.length = 19 := by
    rw [hws]
    rfl
  have hesp : (trapState S c esp0).reg .esp = esp0 := by
    simp [trapState, Processor.reg_setReg_of_ne]
  have hmem : ((trapState S c esp0).pushed ws).mem = stacked c.mem esp0 ws := by
    rw [← hesp]
    rfl
  have hstack : StackAt (stacked c.mem esp0 ws) (esp0 - BitVec.ofNat 32 (4 * ws.length))
      (ws.reverse ++ []) := StackAt.stacked trivial (by simp [hlen])
  generalize hm : ((trapState S c esp0).pushed ws).mem = m at hmem
  rw [← hmem, hlen, hws] at hstack
  simp only [List.reverse_cons, List.reverse_nil, List.nil_append, List.cons_append,
    List.append_nil] at hstack
  rw [StackAt, StackAt] at hstack
  obtain ⟨hnext, harg, hframe⟩ := hstack
  have harg₀ : esp0 - BitVec.ofNat 32 (4 * 19) + 4 = esp0 - 72 := by bv_omega
  have hframe₀ : esp0 - 72 + 4 = esp0 - 68 := by bv_omega
  rw [harg₀] at harg hframe
  rw [hframe₀] at hframe
  constructor
  · rfl
  · rw [hm, trapframeAt_of_stackAt (r := (frameOf c esp0 e).regs) hframe]
    rfl
  · rw [hm, harg]
  · rw [hm]
    exact hnext
  · rw [Processor.toState_pushed, State.esp_pushed, hesp, hlen]
    rfl
  · simp [trapState, entered]
  · rintro r (rfl | rfl | rfl) <;> simp [trapState, entered]
  · rintro r (rfl | rfl) <;> simp [trapState, entered]
  · rfl
  · intro x hx
    rw [hm, hmem]
    exact stacked_of_le (by omega) (by simp [hlen])

/-- Every event takes a program to `trap`. -/
theorem TaskSegs.Ready.trapEntry (S : Symbols) (wide : Bool) (h : segs.Ready i)
    (hcpl : c.cpl = 3) (he : Possible e)
    (hroom : Below c.writable (segs.cpus i).cpuTs.tsEsp0 76) :
    ∃ c', S.trapEntry (trapTables S segs i wide) c e = some c' ∧
      AtTrap S c (segs.cpus i).cpuTs.tsEsp0 e c' := by
  generalize hesp0 : (segs.cpus i).cpuTs.tsEsp0 = esp0 at hroom ⊢
  obtain ⟨n, s, dpl, err, hg, htake, hwords⟩ := @take_eq S c segs i wide e hcpl he
  obtain ⟨p, q, henter⟩ := h.enter S wide (recorded c e).2.2 err hg hcpl (hesp0 ▸ hroom)
  rw [hesp0] at henter
  have hroom₁ : ∀ eip, Below (entered c esp0 eip).writable ((entered c esp0 eip).reg .esp) 76 := by
    intro eip
    rw [esp_entered]
    exact hroom
  have hlen : err.toList.length ≤ 1 := by
    cases err <;> simp
  -- the words that the processor pushes, and those of the stub
  have hstub := Symbols.run_stub (c := entered c esp0 (S.stub s)) (trapTables S segs i wide)
    ([p ++ c.sreg .ss, c.reg .esp, c.eflags, q ++ c.sreg .cs, (recorded c e).2.2] ++ err.toList)
    rfl (hroom₁ _) (by simp; omega) (by decide)
  rw [List.append_assoc, hwords] at hstub
  have hload : (trapTables S segs i wide).loadable 0 GD_KD := by
    rw [DescTables.loadable, h.desc_KD]
    decide
  obtain ⟨p', q', c₂, halltraps, hc₂⟩ := Symbols.run_alltraps (S := S)
    (c := entered c esp0 S.alltraps) (trapTables S segs i wide)
    ([p ++ c.sreg .ss, c.reg .esp, c.eflags, q ++ c.sreg .cs, (recorded c e).2.2] ++
      [(recorded c e).2.1, (recorded c e).1])
    rfl cpl_entered hload (hroom₁ _) (by simp) (by decide)
  have hreg : ∀ r : Reg, r ≠ .esp → (entered c esp0 S.alltraps).reg r = c.reg r := fun r ↦
    reg_entered
  have hds : (entered c esp0 S.alltraps).sreg .ds = c.sreg .ds := by simp [entered]
  have hes : (entered c esp0 S.alltraps).sreg .es = c.sreg .es := by simp [entered]
  subst hc₂
  simp only [hds, hes, esp_entered, hreg _ (show Reg.eax ≠ .esp by decide),
    hreg _ (show Reg.ecx ≠ .esp by decide), hreg _ (show Reg.edx ≠ .esp by decide),
    hreg _ (show Reg.ebx ≠ .esp by decide), hreg _ (show Reg.ebp ≠ .esp by decide),
    hreg _ (show Reg.esi ≠ .esp by decide), hreg _ (show Reg.edi ≠ .esp by decide)] at halltraps
  refine ⟨_, ?_, atTrap_pushed p q p' q' rfl⟩
  rw [Symbols.trapEntry, htake, henter, Option.bind_eq_bind, Option.bind_some, hstub,
    Option.bind_some]
  exact halltraps

/-! ## `env_pop_tf` -/

/-- A frame with which `iret` goes to ring 3. -/
structure UserFrame (t : DescTables) (tf : Trapframe) : Prop where
  cs : tf.cs = GD_UT ||| 3
  ss : tf.ss = GD_UD ||| 3
  ds : t.loadable 3 tf.ds
  es : t.loadable 3 tf.es
  vm : tf.eflags.getLsbD VM = false

/-- The processor runs the program that the frame describes.  Null selectors become 0, and `%fs`
and `%gs` are not part of a frame. -/
structure Resumed (t : DescTables) (c : Processor) (tf : Trapframe) (c' : Processor) : Prop where
  edi : c'.reg .edi = tf.regs.edi
  esi : c'.reg .esi = tf.regs.esi
  ebp : c'.reg .ebp = tf.regs.ebp
  ebx : c'.reg .ebx = tf.regs.ebx
  edx : c'.reg .edx = tf.regs.edx
  ecx : c'.reg .ecx = tf.regs.ecx
  eax : c'.reg .eax = tf.regs.eax
  esp : c'.reg .esp = tf.esp
  eip : c'.eip = tf.eip
  eflags : c'.eflags = tf.eflags
  cs : c'.sreg .cs = tf.cs
  ss : c'.sreg .ss = tf.ss
  ds : c'.sreg .ds = if Selector.null tf.ds then 0 else tf.ds
  es : c'.sreg .es = if Selector.null tf.es then 0 else tf.es
  other : ∀ r, r = .fs ∨ r = .gs → c'.sreg r = t.cleared 3 (c.sreg r)
  mem : c'.mem = c.mem

/-- An addition leaves the flag for nested tasks alone. -/
theorem addFlags_NT (old a b : Word) : (addFlags old a b).getLsbD NT = old.getLsbD NT := by
  have hflag : ∀ i ∈ [0, 2, 4, 6, 7, 11], ∀ c : Bool,
      (if c then (((1 <<< i : ℕ)) : Word) else 0).getLsbD NT = false := by
    decide
  have hmask : (~~~(0x8D5 : Word)).getLsbD NT = true := by decide
  simp only [addFlags, BitVec.getLsbD_or, BitVec.getLsbD_and, hmask, Bool.and_true]
  rw [hflag 0 (by decide), hflag 2 (by decide), hflag 4 (by decide), hflag 6 (by decide),
    hflag 7 (by decide), hflag 11 (by decide)]
  simp only [Bool.or_false]

/-- The processor before the `iret`. -/
def popped (c : Processor) (a : Word) : Processor :=
  { c with
    reg := Function.update (popalRegs c.mem a) .esp (a + 48)
    sreg := Function.update (Function.update c.sreg .es (trapframeAt c.mem a).es)
      .ds (trapframeAt c.mem a).ds
    eflags := addFlags c.eflags (a + 40) 8 }

theorem envPopTf_popped {a : Word} (hcpl : c.cpl = 0)
    (hread : ∀ x : Word, x.toNat ≤ 64 → State.Bytes c.readable (a + x))
    (hds : t.loadable 3 (trapframeAt c.mem a).ds) (hes : t.loadable 3 (trapframeAt c.mem a).es) :
    (envPopTf a).foldlM (KernInstr.exec t) c = KernInstr.exec t (popped c a) .iret := by
  have hload : ∀ x : Selector, t.loadable 3 x → t.loadable c.cpl x := by
    intro x hx
    rw [hcpl]
    exact DescTables.loadable_mono hx (by decide)
  have hpopal : KernInstr.exec t (c.setReg .esp a) (.user .popal) =
      some { c with reg := popalRegs c.mem a } := by
    rw [Processor.popal_eq, Processor.reg_setReg_self]
    · rfl
    · intro x hx
      rw [Processor.reg_setReg_self]
      exact hread x (by omega)
  have hpopEs := Processor.popSeg_eq (t := t) (c := { c with reg := popalRegs c.mem a }) (r := .es)
    (hread 32 (by decide)) (by decide) (hload _ hes)
  generalize hc₂ : Processor.setSReg _ .es _ = c₂ at hpopEs
  have hesp₂ : c₂.reg .esp = a + 36 := by
    rw [← hc₂]
    show (Processor.setReg _ .esp (a + 32 + 4)).reg .esp = _
    rw [Processor.reg_setReg_self, BitVec.add_assoc]
    rfl
  have hpopDs := Processor.popSeg_eq (t := t) (c := c₂) (r := .ds)
    (by rw [hesp₂, ← hc₂]; exact hread 36 (by decide)) (by decide)
    (by rw [hesp₂, ← hc₂]; exact hload _ hds)
  rw [hesp₂, BitVec.add_assoc] at hpopDs
  have haddl : KernInstr.exec t ((c₂.setReg .esp (a + (36 + 4))).setSReg .ds
      ((word c₂.mem (a + 36)).setWidth 16)) (.user (.addl 8 .esp)) = some (popped c a) := by
    have hmem : c₂.mem = c.mem := by
      rw [← hc₂]
      rfl
    have h48 : a + (36 + 4) + 8 = a + 48 := by bv_omega
    have hexec : ∀ c' : Processor, KernInstr.exec t c' (.user (.addl 8 .esp)) =
        some { c'.setReg .esp (c'.reg .esp + 8) with
          eflags := addFlags c'.eflags (c'.reg .esp) 8 } := fun _ ↦ rfl
    rw [hexec, hmem, ← hc₂]
    simp only [Processor.setSReg, Processor.setReg, State.setReg, Function.update_self,
      Function.update_idem, h48]
    rfl
  simp only [envPopTf, List.foldlM_cons, List.foldlM_nil, Option.bind_eq_bind, Option.pure_def]
  rw [show KernInstr.exec t c (.movImm a .esp) = some (c.setReg .esp a) from rfl,
    Option.bind_some, hpopal, Option.bind_some, hpopEs, Option.bind_some, hpopDs,
    Option.bind_some, haddl, Option.bind_some]
  exact Option.bind_fun_some _

/-- The kernel has the frame `tf` at `a`. -/
structure HasFrame (c : Processor) (a : Word) (tf : Trapframe) : Prop where
  frame : trapframeAt c.mem a = tf
  cs : c.sreg .cs = GD_KT
  nt : c.eflags.getLsbD NT = false
  read : ∀ x : Word, x.toNat < 68 → c.readable (a + x)

/-- `env_pop_tf` runs the program of the frame. -/
theorem TaskSegs.Ready.envPopTf (S : Symbols) (wide : Bool) {a : Word} {tf : Trapframe}
    (h : segs.Ready i) (hc : HasFrame c a tf) (htf : UserFrame (trapTables S segs i wide) tf) :
    ∃ c', (envPopTf a).foldlM (KernInstr.exec (trapTables S segs i wide)) c = some c' ∧
      Resumed (trapTables S segs i wide) c tf c' := by
  obtain ⟨rfl, hcs, hnt, hread⟩ := hc
  have hbytes : ∀ x : Word, x.toNat ≤ 64 → State.Bytes c.readable (a + x) := by
    intro x hx
    have key : ∀ j : Word, j.toNat < 4 → c.readable (a + x + j) := by
      intro j hj
      rw [BitVec.add_assoc]
      exact hread (x + j) (by bv_omega)
    exact ⟨hread x (by omega), key 1 (by decide), key 2 (by decide), key 3 (by decide)⟩
  have hcpl : c.cpl = 0 := by
    rw [Processor.cpl, hcs]
    decide
  have hcpl' : (popped c a).cpl = 0 := by
    rw [← hcpl, Processor.cpl, popped]
    simp [Processor.cpl]
  have hcsw : (word c.mem (a + 52)).setWidth 16 = GD_UT ||| 3 := htf.cs
  have hssw : (word c.mem (a + 64)).setWidth 16 = GD_UD ||| 3 := htf.ss
  have hrpl : Selector.rpl (GD_UT ||| 3) = 3 := by decide
  have hstack : StackAt (popped c a).mem (a + 48) [word c.mem (a + 48), word c.mem (a + 52),
      word c.mem (a + 56), word c.mem (a + 60), word c.mem (a + 64)] := by
    simp [StackAt, popped, BitVec.add_assoc]
  have hiret := Processor.iret_outer (t := trapTables S segs i wide) (by simp [popped]) hstack
    (by
      intro x hx
      rw [BitVec.add_assoc]
      exact hread (48 + x) (by bv_omega))
    ((addFlags_NT ..).trans hnt) htf.vm
    (by
      rw [hcsw, DescTables.returnable, h.desc_UT]
      decide)
    (by
      rw [hcsw, hcpl']
      decide)
    (by
      rw [hcsw, hssw, DescTables.stack, hrpl, h.desc_UD]
      decide)
  refine ⟨_, (envPopTf_popped hcpl hbytes htf.ds htf.es).trans hiret, ?_⟩
  rw [hcsw, hssw]
  -- the registers that `iret` leaves are those that `popal` has loaded
  have hgen : ∀ r, r ≠ .esp → Function.update (popped c a).reg .esp (word c.mem (a + 60)) r =
      popalRegs c.mem a r := by
    intro r hr
    rw [Function.update_of_ne hr]
    exact Function.update_of_ne hr ..
  have hdata : ∀ r, r ≠ .ds → r ≠ .es → (popped c a).sreg r = c.sreg r := by
    intro r hds hes
    exact (Function.update_of_ne hds ..).trans (Function.update_of_ne hes ..)
  have hds : (popped c a).sreg .ds = (trapframeAt c.mem a).ds := by simp [popped]
  have hes : (popped c a).sreg .es = (trapframeAt c.mem a).es := by simp [popped]
  have hseg : ∀ r, r ≠ .cs → r ≠ .ss →
      ((popped c a).returned (trapTables S segs i wide) (word c.mem (a + 48)) (GD_UT ||| 3)
          (word c.mem (a + 56)) (word c.mem (a + 60)) (GD_UD ||| 3)).sreg r =
        (trapTables S segs i wide).cleared 3 ((popped c a).sreg r) := by
    intro r hcs hss
    cases r with
    | cs => exact absurd rfl hcs
    | ss => exact absurd rfl hss
    | ds | es | fs | gs => rfl
  constructor
  · exact hgen .edi (by decide)
  · exact hgen .esi (by decide)
  · exact hgen .ebp (by decide)
  · exact hgen .ebx (by decide)
  · exact hgen .edx (by decide)
  · exact hgen .ecx (by decide)
  · exact hgen .eax (by decide)
  · simp [Processor.returned, trapframeAt]
  · rfl
  · rfl
  · exact htf.cs.symm
  · exact htf.ss.symm
  · rw [hseg .ds (by decide) (by decide), hds]
    exact DescTables.cleared_of_loadable htf.ds
  · rw [hseg .es (by decide) (by decide), hes]
    exact DescTables.cleared_of_loadable htf.es
  · rintro r (rfl | rfl)
    · rw [hseg .fs (by decide) (by decide), hdata .fs (by decide) (by decide)]
    · rw [hseg .gs (by decide) (by decide), hdata .gs (by decide) (by decide)]
  · rfl

/-! ## The round trip -/

/-- A program in ring 3, with the code and the stack that `env_alloc` gives it and whatever it may
have loaded into `%ds` and `%es`. -/
structure UserMode (t : DescTables) (c : Processor) : Prop where
  cs : c.sreg .cs = GD_UT ||| 3
  ss : c.sreg .ss = GD_UD ||| 3
  ds : t.loadable 3 (c.sreg .ds)
  es : t.loadable 3 (c.sreg .es)
  vm : c.eflags.getLsbD VM = false

theorem UserMode.cpl (h : UserMode t c) : c.cpl = 3 := by
  rw [Processor.cpl, h.cs]
  decide

theorem UserMode.userFrame (h : UserMode t c) (esp0 : Word) (e : Event) :
    UserFrame t (frameOf c esp0 e) := ⟨h.cs, h.ss, h.ds, h.es, h.vm⟩

/-- The program `c` goes on at `eip`. -/
structure GoesOn (c : Processor) (eip : Word) (c' : Processor) : Prop where
  reg : c'.reg = c.reg
  eip : c'.eip = eip
  eflags : c'.eflags = c.eflags
  cs : c'.sreg .cs = c.sreg .cs
  ss : c'.sreg .ss = c.sreg .ss
  data : ∀ r, r = .ds ∨ r = .es →
    c'.sreg r = if Selector.null (c.sreg r) then 0 else c.sreg r

/-- The registers with which a system call returns. -/
def Trapframe.setEax (tf : Trapframe) (r : Word) : Trapframe :=
  { tf with regs := { tf.regs with eax := r } }

/-- A frame that nobody has changed holds all registers. -/
theorem Resumed.goesOn {c₁ c' : Processor} {esp0 : Word}
    (h : Resumed t c₁ (frameOf c esp0 e) c') : GoesOn c (recorded c e).2.2 c' := by
  constructor
  · funext r
    cases r with
    | edi => exact h.edi
    | esi => exact h.esi
    | ebp => exact h.ebp
    | ebx => exact h.ebx
    | edx => exact h.edx
    | ecx => exact h.ecx
    | eax => exact h.eax
    | esp => exact h.esp
  · exact h.eip
  · exact h.eflags
  · exact h.cs
  · exact h.ss
  · rintro r (rfl | rfl)
    · exact h.ds
    · exact h.es

/-- `trap_init_percpu` changes nothing in `gdt` but the segments of the CPUs. -/
theorem trapInitPercpu_ready {cfg : BootConfig} {tsAddr : CpuId → Word} {s : TaskSegs}
    {ns : List CpuId} (hnum : s.Numbered) (hgdt : ∀ j < 5, s.gdt j = bootGdt j)
    (hrun : ns.foldlM (trapInitPercpu cfg tsAddr) s = some segs)
    (hi : i ∈ ns ∨ (s.cpus i).cpuTs.tsSs0 = GD_KD) : segs.Ready i := by
  induction ns generalizing s with
  | nil =>
      rw [List.foldlM_nil, Option.pure_def, Option.some.injEq] at hrun
      subst hrun
      exact ⟨hgdt, hi.resolve_left List.not_mem_nil⟩
  | cons n ns ih =>
      rw [List.foldlM_cons, trapInitPercpu_eq hnum, Option.bind_eq_bind, Option.bind_some] at hrun
      have hstep := @trapInitPercpu_eq cfg tsAddr s n hnum
      refine ih (trapInitPercpu_spec hnum hstep).1 ?_ hrun ?_
      · intro j hj
        exact (Function.update_of_ne (by omega) ..).trans (hgdt j hj)
      · by_cases hin : i = n
        · subst hin
          right
          simp
        · simpa [hin] using hi

/-- On a CPU that has run `trap_init_percpu`, whatever takes a program into the kernel leaves its
registers in the frame that `trap` gets, and `env_pop_tf` with such a frame, wherever the kernel
has copied it, lets the program go on with all of them. -/
theorem trap_round_trip {cfg : BootConfig} {tsAddr : CpuId → Word} {s segs : TaskSegs}
    {ns : List CpuId} {i : CpuId} (hnum : s.Numbered) (hgdt : ∀ j < 5, s.gdt j = bootGdt j)
    (hinit : ns.foldlM (trapInitPercpu cfg tsAddr) s = some segs) (hi : i ∈ ns)
    (S : Symbols) (wide : Bool) {c : Processor} {e : Event}
    (hc : UserMode (trapTables S segs i wide) c) (he : Possible e)
    (hroom : Below c.writable (cfg.percpuKstacks i + KSTKSIZE) 76) :
    ∃ c', S.trapEntry (trapTables S segs i wide) c e = some c' ∧
      AtTrap S c (cfg.percpuKstacks i + KSTKSIZE) e c' ∧
      ∀ (c₁ : Processor) (tf : Word),
        HasFrame c₁ tf (trapframeAt c'.mem (cfg.percpuKstacks i + KSTKSIZE - 68)) →
        ∃ c₂, (envPopTf tf).foldlM (KernInstr.exec (trapTables S segs i wide)) c₁ = some c₂ ∧
          GoesOn c (recorded c e).2.2 c₂ ∧ c₂.mem = c₁.mem := by
  have hready := trapInitPercpu_ready hnum hgdt hinit (.inl hi)
  have hesp0 := ((trapInitPercpu_run hnum hinit).2 i (.inl hi)).esp0
  obtain ⟨c', hentry, hat⟩ := hready.trapEntry S wide hc.cpl he (hesp0 ▸ hroom)
  rw [hesp0] at hat
  refine ⟨c', hentry, hat, ?_⟩
  intro c₁ tf hframe
  rw [hat.frame] at hframe
  obtain ⟨c₂, hpop, hres⟩ := hready.envPopTf S wide hframe (hc.userFrame _ e)
  exact ⟨c₂, hpop, hres.goesOn, hres.mem⟩

/-- The stubs are 16 bytes apart. -/
def demoStub (s : Stub) : Word := 0xF0103800 + 16 * s.params.1

theorem demoStub_find : Function.LeftInverse
    (fun a ↦ (Stub.all.find? (demoStub · = a)).getD .tPgflt) demoStub := by
  intro s
  cases s <;> rfl

def demoSymbols : Symbols where
  stub := demoStub
  alltraps := 0xF0104000
  trap := 0xF0103000
  next := 0xF0104018
  inj := demoStub_find.injective
  apart := by
    intro s
    cases s <;> decide

/-- A program that `env_create` has just made. -/
def demoUser : Processor where
  reg := Function.update (fun _ ↦ 0) .esp USTACKTOP
  eflags := FL_IF
  eip := 0x800020
  mem _ := 0
  readable _ := true
  writable _ := true
  sreg := Function.update (fun _ ↦ GD_UD ||| 3) .cs (GD_UT ||| 3)

theorem demoUser_mode (h : segs.Ready i) : UserMode (trapTables S segs i wide) demoUser := by
  have hload : (trapTables S segs i wide).loadable 3 (GD_UD ||| 3) := by
    rw [DescTables.loadable, h.desc_UD]
    decide
  exact ⟨rfl, rfl, hload, hload, by decide⟩

/-- `trap_init_percpu` on the first CPU. -/
theorem exists_ready : ∃ segs, [0].foldlM (trapInitPercpu demoConfig
    fun i ↦ BitVec.ofNat 32 (104 * i.val)) { demoSegs with gdt := bootGdt } = some segs ∧
    segs.Ready 0 := by
  obtain ⟨segs, hinit⟩ := @TaskSegs.Numbered.exists_run demoConfig
    (fun i ↦ BitVec.ofNat 32 (104 * i.val)) { demoSegs with gdt := bootGdt } (fun _ ↦ rfl) [0]
  exact ⟨segs, hinit,
    trapInitPercpu_ready (fun _ ↦ rfl) (fun _ _ ↦ rfl) hinit (.inl (List.mem_singleton_self 0))⟩

/-- A page fault on the first CPU, and the way back. -/
theorem trap_round_trip_demo : ∃ (segs : TaskSegs) (c' : Processor), ∃ c₂,
    demoSymbols.trapEntry (trapTables demoSymbols segs 0 true) demoUser (.fault 14 4) = some c' ∧
    (trapframeAt c'.mem (demoConfig.percpuKstacks 0 + KSTKSIZE - 68)).trapno = 14 ∧
    (envPopTf (demoConfig.percpuKstacks 0 + KSTKSIZE - 68)).foldlM
      (KernInstr.exec (trapTables demoSymbols segs 0 true))
      { c' with readable := fun _ ↦ true } = some c₂ ∧
    c₂.reg = demoUser.reg ∧ c₂.eip = 0x800020 := by
  obtain ⟨segs, hinit, hready⟩ := exists_ready
  obtain ⟨c', hentry, hat, hback⟩ := trap_round_trip (fun _ ↦ rfl) (fun _ _ ↦ rfl) hinit
    (List.mem_singleton_self 0) demoSymbols true (demoUser_mode hready) (e := .fault 14 4) rfl
    (fun _ _ ↦ rfl)
  have hnt : c'.eflags.getLsbD NT = false := by
    rw [hat.flags]
    decide
  obtain ⟨c₂, hpop, hgoes, -⟩ := hback { c' with readable := fun _ ↦ true }
    (demoConfig.percpuKstacks 0 + KSTKSIZE - 68) ⟨rfl, hat.cs, hnt, fun _ _ ↦ rfl⟩
  refine ⟨segs, c', c₂, hentry, ?_, hpop, hgoes.reg, hgoes.eip⟩
  rw [hat.frame]
  rfl

end Jos
