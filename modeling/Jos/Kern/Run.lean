import Jos.Kern.Booted
import Mathlib.Logic.Relation

/-!
# Runs of the kernel

`KStep` is everything that kernel code does to the state under the big kernel lock: any system
call of any live environment with any arguments, `env_alloc` and `env_free`, and the registers
and the status that traps and the scheduler store.  `Step` adds the stores of user programs,
which the hardware lets through if both entries allow them.  A run is any sequence of steps
through states with a property `Q`; most results need that no page is referred to by more
entries than its 16-bit counter can hold.
-/

namespace Jos

open Jos.Lib

/-- A system call: the caller, `%eax` and the arguments, and the character that `cons_getc`
would return. -/
structure Call where
  cur : Slot
  no : Word
  a1 : Word := 0
  a2 : Word := 0
  a3 : Word := 0
  a4 : Word := 0
  a5 : Word := 0
  getc : Word := 0

def Call.exec (B : Machine) (s : Kern) (c : Call) : Option (Ctl Word × Kern) :=
  syscall B s c.cur c.getc c.no c.a1 c.a2 c.a3 c.a4 c.a5

/-- The mapped pages to which the call adds a reference. -/
def Call.shared (s : Kern) (c : Call) : Set ℕ := Shared s c.cur c.no c.a1 c.a2 c.a3 c.a4 c.a5

namespace Mem

/-- The hardware lets a user program read at `va`. -/
def UserReadable (m : Mem) (d : ℕ) (va : Word) : Prop :=
  ∃ pde pte, m.walk d va = some (pde, pte) ∧ isSet pde PTE_U ∧ isSet pte PTE_U

/-- The hardware lets a user program write at `va`. -/
def UserWritable (m : Mem) (d : ℕ) (va : Word) : Prop :=
  ∃ pde pte, m.walk d va = some (pde, pte) ∧ (isSet pde PTE_U ∧ isSet pte PTE_U) ∧
    isSet pde PTE_W ∧ isSet pte PTE_W

end Mem

/-- One step of kernel code. -/
inductive KStep (B : Machine) : Kern → Kern → Prop
  | syscall {s s' : Kern} {c : Call} {r : Ctl Word} (live : s.Live c.cur)
      (run : c.exec B s = some (r, s')) : KStep B s s'
  | envAlloc {s s' : Kern} {parentId : Word} {r : Except Word Slot}
      (run : envAlloc B s parentId = some (r, s')) : KStep B s s'
  | envFree {s s' : Kern} {e : Slot} (live : s.Live e) (run : envFree B s e = some s') :
      KStep B s s'
  | switch {s : Kern} {e : Slot} (tf : Trapframe) (status : EnvStatus) (runs : Word) (cpunum : ℕ)
      (live : s.Live e) (alive : status ≠ .free) :
      KStep B s (s.modEnv e fun env ↦
        { env with envTf := tf, envStatus := status, envRuns := runs, envCpunum := cpunum })

/-- One step of the kernel or of a user program. -/
inductive Step (B : Machine) : Kern → Kern → Prop
  | kernel {s s' : Kern} (h : KStep B s s') : Step B s s'
  | store {s : Kern} {e : Slot} {d : ℕ} {va : Word} {b : BitVec 8} {m' : Mem}
      (dir : s.dirs e = some d) (allowed : s.mem.UserWritable d va)
      (run : s.mem.storeByte d va b = some m') : Step B s (s.setMem m')

/-- Any number of steps, through states with property `Q`. -/
def Run (B : Machine) (Q : Kern → Prop) : Kern → Kern → Prop :=
  Relation.ReflTransGen fun s s' ↦ Step B s s' ∧ Q s'

/-- No page is referred to by more than 65535 entries. -/
def Kern.Bounded (B : Machine) (s : Kern) : Prop := Jos.Bounded B s.mem s.dirs

variable {B : Machine} {M : Pool B} {s s' : Kern} {l : List ℕ} {el : List Slot}

/-! ## The kernel's half -/

/-- What protects the kernel's half of an address space. -/
theorem KernHalf.protected {m : Mem} {d : ℕ} (h : KernHalf B m d) (hp : KProt B m) (va : Word) :
    (ULIM ≤ va → ¬ m.UserReadable d va) ∧ (UTOP ≤ va → ¬ m.UserWritable d va) := by
  have h957 : pdx UVPT = 957 := by decide
  have h958 : pdx ULIM = 958 := by decide
  -- a successful walk above `UTOP` goes through the window or through a table of the kernel
  have key : ∀ pde pte, m.walk d va = some (pde, pte) → UTOP ≤ va →
      (pdx va = pdx UVPT ∧ pde = uvptEntry d) ∨ (pdx va ≠ pdx UVPT ∧ KernPerm (pdx va) pte) := by
    intro pde pte hw hva
    have hi : NUPDE ≤ pdx va := by
      have hva' : UTOP.toNat ≤ va.toNat := hva
      rw [show UTOP.toNat = 955 * 4194304 from rfl] at hva'
      rw [pdx_eq, NUPDE]
      omega
    have hi' : pdx va < NPDENTRIES := pdx_lt va
    have hent := h (pdx va) hi hi'
    simp only [Mem.walk] at hw
    split at hw
    · cases hw
    · next hP =>
        split at hw
        · cases hw
        · obtain ⟨rfl, rfl⟩ := Prod.mk.inj (Option.some.inj hw)
          by_cases hu : pdx va = pdx UVPT
          · rw [if_pos hu] at hent
            exact .inl ⟨hu, hent⟩
          · rw [if_neg hu] at hent
            rw [not_not, hent] at hP
            rw [hent]
            exact .inr ⟨hu, hp _ _ hi hi' hu (entryFrame_of_isSet hP) _⟩
  constructor
  · rintro hva ⟨pde, pte, hw, -, hU⟩
    have hva' : ULIM.toNat ≤ va.toNat := hva
    rw [show ULIM.toNat = 958 * 4194304 from rfl] at hva'
    have hge : 958 ≤ pdx va := by
      rw [pdx_eq]
      omega
    have hutop : UTOP ≤ va := BitVec.le_trans (by decide) hva
    rcases key pde pte hw hutop with ⟨hu, -⟩ | ⟨-, hk⟩
    · omega
    · exact hk.2 (by omega) hU
  · rintro hva ⟨pde, pte, hw, ⟨-, hU⟩, hW, hW'⟩
    rcases key pde pte hw hva with ⟨-, rfl⟩ | ⟨-, hk⟩
    · rw [isSet_W] at hW
      simp [uvptEntry, page2pa, PTE_P, PTE_U] at hW
    · rcases Nat.lt_or_ge (pdx va) (pdx ULIM) with hlt | hge
      · exact hk.1 hlt hW'
      · exact hk.2 hge hU

/-! ## One step and a whole run -/

/-- The invariant of a running kernel. -/
structure RunInv (B : Machine) (M : Pool B) (s : Kern) (l : List ℕ) (el : List Slot) : Prop where
  inv : Inv B M s l el
  prot : KProt B s.mem

theorem RunInv.after (h : RunInv B M s l el) {T : Set Slot} {S : Set ℕ}
    (haft : After B M s l T S s') :
    (∃ l' el', RunInv B M s' l' el') ∧ Evolve B s s' l T S := by
  obtain ⟨l', el', hinv, hev, -⟩ := haft
  exact ⟨⟨l', el', hinv, h.prot.of_same hev.kern⟩, hev⟩

/-- A user program stores below `UTOP`. -/
theorem RunInv.lt_UTOP {e : Slot} {d : ℕ} {va : Word} (h : RunInv B M s l el)
    (hd : s.dirs e = some d) (hW : s.mem.UserWritable d va) : va < UTOP := by
  by_contra hc
  exact ((h.inv.half e d hd).protected h.prot va).2 (BitVec.not_lt.mp hc) hW

/-- Every step keeps the invariant, and its effect on memory is bounded. -/
theorem KStep.after (step : KStep B s s') (h : Inv B M s l el) (hb : s.Bounded B) :
    ∃ T S, After B M s l T S s' := by
  cases step with
  | syscall live run => exact ⟨_, _, h.syscall_spec hb live run⟩
  | @envAlloc _ parentId r run =>
      rcases h.envAlloc_spec parentId with
        ⟨r', -, halloc⟩ | ⟨e, el', d, l', s₁, -, -, halloc, -, henv, hinv, hev, -⟩
      · obtain ⟨-, rfl⟩ := Prod.mk.inj (Option.some.inj (halloc.symm.trans run))
        exact ⟨∅, ∅, .refl h⟩
      · obtain ⟨-, rfl⟩ := Prod.mk.inj (Option.some.inj (halloc.symm.trans run))
        exact ⟨{e}, ∅, l', el', hinv, hev, henv⟩
  | envFree live run =>
      obtain ⟨s₁, hs₁, -, hafter⟩ := h.envFree_spec hb live
      obtain rfl := Option.some.inj (hs₁.symm.trans run)
      exact ⟨_, _, hafter⟩
  | @switch e tf status runs cpunum live alive =>
      exact ⟨{e}, ∅, (After.refl h).modEnv (Set.mem_singleton e)
        (by simp [alive, live.ne_free]) rfl rfl⟩

theorem Step.after (step : Step B s s') (h : RunInv B M s l el) (hb : s.Bounded B) :
    ∃ T S, After B M s l T S s' := by
  cases step with
  | kernel step => exact step.after h.inv hb
  | @store e d va b m' dir allowed run =>
      have hlt : va < UTOP := by
        by_contra hc
        exact ((h.inv.half e d dir).protected h.prot va).2 (BitVec.not_lt.mp hc) allowed
      exact ⟨∅, ∅, h.inv.after_stored (Kern.storeByte_stored dir hlt run)⟩

theorem Run.runInv {Q : Kern → Prop} (run : Run B Q s s') (hQ : ∀ s, Q s → s.Bounded B)
    (h : ∃ l el, RunInv B M s l el) (hb : s.Bounded B) :
    (∃ l el, RunInv B M s' l el) ∧ s'.Bounded B := by
  induction run with
  | refl => exact ⟨h, hb⟩
  | tail _ hstep ih =>
      obtain ⟨⟨l₁, el₁, h₁⟩, hb₁⟩ := ih
      obtain ⟨T, S, haft⟩ := hstep.1.after h₁ hb₁
      exact ⟨(h₁.after haft).1, hQ _ hstep.2⟩

theorem Booted.runInv {cfg : BootConfig} (h : Booted cfg s) :
    (∃ l el, RunInv cfg.machine cfg.pool s l el) ∧ s.Bounded cfg.machine := by
  obtain ⟨l, el, hb⟩ := h.bootInv
  exact ⟨⟨l, el, hb.inv, hb.prot⟩, hb.bounded⟩

/-- The directory entries stay open. -/
theorem Run.pdesOpen {Q : Kern → Prop} (run : Run B Q s s') (hQ : ∀ s, Q s → s.Bounded B)
    (h : ∃ l el, RunInv B M s l el) (hb : s.Bounded B) (ho : PdesOpen B s.mem s.dirs) :
    PdesOpen B s'.mem s'.dirs := by
  induction run with
  | refl => exact ho
  | tail hrun hstep ih =>
      obtain ⟨⟨l₁, el₁, h₁⟩, hb₁⟩ := Run.runInv hrun hQ h hb
      obtain ⟨T, S, haft⟩ := hstep.1.after h₁ hb₁
      exact (h₁.after haft).2.pdesOpen ih

theorem Booted.pdesOpen {cfg : BootConfig} (h : Booted cfg s) :
    PdesOpen cfg.machine s.mem s.dirs := by
  obtain ⟨l, el, hb⟩ := h.bootInv
  exact hb.entries

/-- The kernel's half of every address space is protected: the user reads nothing from `ULIM` on
and writes nothing from `UTOP` on, and the directory entries are those of `kern_pgdir`. -/
theorem kernel_half_protected {cfg : BootConfig} {s₀ s : Kern} (boot : Booted cfg s₀)
    (run : Run cfg.machine (Kern.Bounded cfg.machine) s₀ s) {e : Slot} (live : s.Live e) :
    ∃ d, (s.envs e).envPgdir = some d ∧
      (∀ va, ULIM ≤ va → ¬ s.mem.UserReadable d va) ∧
      (∀ va, UTOP ≤ va → va < ULIM → ¬ s.mem.UserWritable d va) ∧
      ∀ i, pdx UTOP ≤ i → i < NPDENTRIES → i ≠ pdx UVPT →
        s.mem.phys d i = s.mem.phys cfg.machine.kernPgdir i := by
  obtain ⟨hinv, hb⟩ := boot.runInv
  obtain ⟨⟨l, el, h⟩, -⟩ := run.runInv (fun _ hs ↦ hs) hinv hb
  obtain ⟨d, hd, hpg⟩ := h.inv.live_dir live
  have half := h.inv.half e d hd
  refine ⟨d, hpg, fun va ↦ (half.protected h.prot va).1, fun va hva _ ↦
    (half.protected h.prot va).2 hva, fun i h1 h2 h3 ↦ ?_⟩
  rw [half i h1 h2, if_neg h3]

theorem kernel_half_protected_demo : ∃ s e, Booted demoConfig s ∧ s.Live e ∧
    ∃ d, (s.envs e).envPgdir = some d ∧
      (∀ va, ULIM ≤ va → ¬ s.mem.UserReadable d va) ∧
      (∀ va, UTOP ≤ va → va < ULIM → ¬ s.mem.UserWritable d va) ∧
      ∀ i, pdx UTOP ≤ i → i < NPDENTRIES → i ≠ pdx UVPT →
        s.mem.phys d i = s.mem.phys demoConfig.machine.kernPgdir i := by
  obtain ⟨s, l, el, e₁, e₂, env₁, env₂, d₁, d₂, boot, -, -, -, -, henv, -⟩ := exists_booted
  have live : s.Live e₁ := by
    rw [Kern.Live, henv]
    simp [createdEnv, freshEnv]
  exact ⟨s, e₁, boot, live, kernel_half_protected boot .refl live⟩

end Jos
