import Jos.Kern.Frames
import Jos.Kern.Interrupts
import Jos.Kern.Life

/-!
# Preemption

A timer interrupt takes the CPU from a program, other environments run on any CPUs in any order,
and some CPU takes the program up again.  Nothing of that shows in the registers of the program.
-/

namespace Jos

open Jos.Lib Jos.Lib.X86

variable {B : Machine} {S : Symbols} {segs : TaskSegs} {i j : CpuId} {wide : Bool} {t : DescTables}
  {s s₁ s₂ : Smp} {a : Slot} {c : Processor} {e : Event}

/-- CPU `i` runs the environment `a`, with its registers in `c`; it does not wait for a message. -/
structure UserRuns (t : DescTables) (s : Smp) (i : CpuId) (a : Slot) (c : Processor) : Prop
    extends Runs s i a where
  mode : UserMode t c
  room : Below c.writable t.esp0 76
  busy : (s.kern.envs a).envIpcRecving = false

/-- All CPUs have the same segments. -/
theorem UserMode.other (h : UserMode (trapTables S segs i wide) c) (j : CpuId) :
    UserMode (trapTables S segs j wide) c := ⟨h.cs, h.ss, h.ds, h.es, h.vm⟩

theorem UserMode.setReg (h : UserMode t c) (r : Reg) (w : Word) : UserMode t (c.setReg r w) :=
  ⟨h.cs, h.ss, h.ds, h.es, h.vm⟩

/-- What a trap of a program leaves for the kernel. -/
theorem UserRuns.trapEntry (hready : segs.Ready i)
    (h : UserRuns (trapTables S segs i wide) s i a c) (he : Possible e) :
    ∃ c', S.trapEntry (trapTables S segs i wide) c e = some c' ∧ c'.eip = S.trap ∧
      trapframeAt c'.mem ((segs.cpus i).cpuTs.tsEsp0 - 68) =
        frameOf c (segs.cpus i).cpuTs.tsEsp0 e := by
  obtain ⟨c', hentry, hat⟩ := hready.trapEntry S wide h.mode.cpl he h.room
  exact ⟨c', hentry, hat.eip, hat.frame⟩

/-- An interrupt of the clock, or a spurious one, cannot be seen by the program. -/
theorem preemption_invisible (hready : segs.Ready i)
    (h : UserRuns (trapTables S segs i wide) s i a c) {n : BitVec 8} (hn : n = 32 ∨ n = 39) :
    ∃ c', S.trapEntry (trapTables S segs i wide) c (.external n) = some c' ∧ c'.eip = S.trap ∧
      ∀ {cr2 getc : Word} {s₁ s₂ : Smp},
        (Entry.trap i (trapframeAt c'.mem ((segs.cpus i).cpuTs.tsEsp0 - 68)) cr2 getc).exec B s =
          some s₁ →
        Entries B (ByOthers B a) s₁ s₂ →
        ∀ (j : CpuId) (c₁ : Processor) (tf : Word), segs.Ready j →
          HasFrame c₁ tf (s₂.kern.envs a).envTf →
          ∃ c₂, (envPopTf tf).foldlM (KernInstr.exec (trapTables S segs j wide)) c₁ = some c₂ ∧
            GoesOn c c.eip c₂ ∧ c₂.mem = c₁.mem := by
  have hposs : Possible (.external n) := by
    rcases hn with rfl | rfl <;> rfl
  obtain ⟨c', hentry, heip, hframe⟩ := h.trapEntry hready hposs
  refine ⟨c', hentry, heip, ?_⟩
  intro cr2 getc s₁ s₂ hexec hrun j c₁ tf hready' hhas
  rw [hframe] at hexec
  have hrec : recorded c (.external n) = (n.setWidth 32, 0, c.eip) := by
    rcases hn with rfl | rfl <;> rfl
  have hno : (frameOf c (segs.cpus i).cpuTs.tsEsp0 (.external n)).trapno =
      IRQ_OFFSET + IRQ_TIMER ∨
      (frameOf c (segs.cpus i).cpuTs.tsEsp0 (.external n)).trapno = IRQ_OFFSET + IRQ_SPURIOUS := by
    rw [frameOf, hrec]
    rcases hn with rfl | rfl
    · exact .inl rfl
    · exact .inr rfl
  obtain ⟨htf, hrecv⟩ := h.toRuns.exec_interrupt hno hexec
  have hsame : (s₂.kern.envs a).envTf = frameOf c (segs.cpus i).cpuTs.tsEsp0 (.external n) := by
    rw [hrun.saved.tf_eq (hrecv.trans h.busy), htf]
  rw [hsame] at hhas
  obtain ⟨c₂, hpop, hres⟩ := hready'.envPopTf S wide hhas ((h.mode.other j).userFrame _ _)
  have hgoes := hres.goesOn
  rw [hrec] at hgoes
  exact ⟨c₂, hpop, hgoes, hres.mem⟩

/-- The first environment runs, on a booted machine. -/
theorem Duo.userRuns {b : Slot} {k : Kern} (hbooted : Booted demoConfig k)
    (hexec : (Entry.start 0).exec demoConfig.machine (Smp.boot k) = some s) (h : Duo s a b)
    (hready : segs.Ready 0) : UserRuns (trapTables S segs 0 wide) s 0 a demoUser ∧
      s.kern.envFreeList ≠ some a := by
  have hlife : Life s := Life.exec (.boot hbooted)
    ⟨fun _ _ he ↦ absurd he (not_setsStatus_start 0 _), fun _ he ↦
      absurd he (not_destroys_start 0 _)⟩ hexec
  refine ⟨⟨h.runs, demoUser_mode hready, fun _ _ ↦ rfl, ?_⟩, fun hhead ↦ ?_⟩
  · rw [← Bool.not_eq_true]
    exact fun hr ↦ hlife.off a hr 0 h.runs.cur
  · have hfree : s.status a = .free := hlife.list.head_free hhead
    rw [h.runs.status] at hfree
    cases hfree

/-- The clock interrupts the first environment, which goes on where it was. -/
theorem preemption_invisible_timer : ∃ (segs : TaskSegs) (s s' : Smp) (a : Slot)
    (c₁ : Processor), ∃ tf c₂,
    (Entry.trap 0 (trapframeAt c₁.mem tf) 0 0).exec demoConfig.machine s = some s' ∧
    (trapframeAt c₁.mem tf).trapno = IRQ_OFFSET + IRQ_TIMER ∧ s.curenv 0 = some a ∧
    (envPopTf tf).foldlM (KernInstr.exec (trapTables demoSymbols segs 0 true)) c₁ = some c₂ ∧
    c₂.reg = demoUser.reg ∧ c₂.eip = 0x800020 := by
  obtain ⟨segs, -, hready⟩ := exists_ready
  obtain ⟨k, s, a, b, hbooted, hstart, hduo⟩ := exists_duo
  obtain ⟨l, el, hinv, -⟩ := hduo.inv
  have hruns : UserRuns (trapTables demoSymbols segs 0 true) s 0 a demoUser :=
    (hduo.userRuns hbooted hstart hready).1
  obtain ⟨c', hentry, -, hback⟩ := preemption_invisible (B := demoConfig.machine) hready hruns
    (.inl rfl)
  obtain ⟨c'', hentry', hat⟩ := hready.trapEntry demoSymbols true hruns.mode.cpl
    (e := .external 32) rfl hruns.room
  obtain rfl := Option.some.inj (hentry.symm.trans hentry')
  have hno : (trapframeAt c'.mem ((segs.cpus 0).cpuTs.tsEsp0 - 68)).trapno =
      IRQ_OFFSET + IRQ_TIMER := by
    rw [hat.frame]
    rfl
  generalize (segs.cpus 0).cpuTs.tsEsp0 - 68 = p at hback hno
  have hinterrupt : ∃ s', (Entry.trap 0 (trapframeAt c'.mem p) 0 0).exec demoConfig.machine s =
      some s' :=
    exists_interrupt (.inl hno) hduo.runs.started hduo.runs.cur (.inl hduo.runs.status)
      fun e he ↦ hinv.pgdir e (ne_of_eq_of_ne he (by decide))
  obtain ⟨s', hexec⟩ := hinterrupt
  have hnt : c'.eflags.getLsbD NT = false := by
    rw [hat.flags]
    decide
  obtain ⟨c₂, hpop, hgoes, -⟩ := hback hexec .refl 0 { c' with readable := fun _ ↦ true } p hready
    ⟨(hduo.runs.exec_interrupt (.inl hno) hexec).1.symm, hat.cs, hnt, fun _ _ ↦ rfl⟩
  exact ⟨segs, s, s', a, { c' with readable := fun _ ↦ true }, p, c₂, hexec, hno, hduo.runs.cur,
    hpop, hgoes.reg, hgoes.eip⟩

end Jos
