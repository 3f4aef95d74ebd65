import Jos.Kern.UserAccess
import Jos.Libc.Fork

/-!
# The page tables that a program sees (`lib/entry.S`)

The directory entry for the window at `UVPT` points to the directory itself.  So the hardware takes
the directory for a page table there, and the page tables for pages: `uvpt` and `uvpd` are arrays of
the entries of the address space in force, and a program can read them but not write.
-/

namespace Jos

open Jos.Lib

/-- `&uvpt[v]`. -/
def uvptAddr (v : ℕ) : Word := UVPT + BitVec.ofNat 32 (4 * v)

/-- `&uvpd[i]`. -/
def uvpdAddr (i : ℕ) : Word := UVPT + (UVPT >>> 12) * 4 + BitVec.ofNat 32 (4 * i)

/-- The word of physical memory where the hardware ends for the address of a word. -/
def Mem.wordAt (m : Mem) (d : ℕ) (a : Word) : Option (ℕ × ℕ) :=
  (m.walk d a).map fun (_, pte) ↦ (frame pte, a.toNat % 4096 / 4)

/-- At the address `a` a program sees the word `w` of physical memory, and cannot change it. -/
structure ReadOnlyAt (m : Mem) (d : ℕ) (a : Word) (w : ℕ × ℕ) : Prop where
  aligned : a.toNat % 4 = 0
  word : m.wordAt d a = some w
  readable : m.UserReadable d a
  not_writable : ¬ m.UserWritable d a

variable {B : Machine} {m m' : Mem} {d i j : ℕ} {va : Word}

theorem UVPT_toNat : UVPT.toNat = 957 * 4194304 := rfl

theorem uvptAddr_toNat {v : ℕ} (hv : v < 1048576) : (uvptAddr v).toNat = 957 * 4194304 + 4 * v := by
  rw [uvptAddr, BitVec.toNat_add, BitVec.toNat_ofNat, UVPT_toNat]
  omega

/-- `uvpd` is the part of `uvpt` for the window itself. -/
theorem uvpdAddr_eq (i : ℕ) : uvpdAddr i = uvptAddr (957 * 1024 + i) := by
  rw [uvpdAddr, uvptAddr, show UVPT + (UVPT >>> 12) * 4 = UVPT + BitVec.ofNat 32 (4 * (957 * 1024))
    by decide, Nat.mul_add, BitVec.ofNat_add, BitVec.add_assoc]

/-- The hardware reads a directory entry as the entry of a page table. -/
theorem Built.readOnlyAt (hb : Built B m d) (hi : i < 1024) (hj : j < 1024)
    (hP : isSet (m.phys d i) PTE_P) :
    ReadOnlyAt m d (uvptAddr (i * 1024 + j)) (frame (m.phys d i), j) := by
  have hv : i * 1024 + j < 1048576 := by omega
  have hpdx : pdx (uvptAddr (i * 1024 + j)) = pdx UVPT := by
    rw [pdx_eq, uvptAddr_toNat hv, show pdx UVPT = 957 by decide]
    omega
  have hptx : ptx (uvptAddr (i * 1024 + j)) = i := by
    rw [ptx_eq, uvptAddr_toNat hv]
    omega
  obtain ⟨hself, hframe⟩ := isSet_of_entryFrame (entryFrame_uvptEntry hb.lt)
  have hwalk : m.walk d (uvptAddr (i * 1024 + j)) = some (uvptEntry d, m.phys d i) := by
    rw [Mem.walk_eq_some, hpdx, hb.window, hframe, hptx]
    exact ⟨⟨rfl, hself⟩, rfl, hP⟩
  have hU : isSet (m.phys d i) PTE_U := by
    by_cases hwin : i = pdx UVPT
    · rw [hwin, hb.window, isSet_U]
      simp [uvptEntry, PTE_U]
    · exact (hb.openPde hi hwin hP).1
  refine ⟨?_, ?_, ⟨_, _, hwalk, ?_, hU⟩, ?_⟩
  · rw [uvptAddr_toNat hv]
    omega
  · rw [Mem.wordAt, hwalk, Option.map_some, uvptAddr_toNat hv,
      show (957 * 4194304 + 4 * (i * 1024 + j)) % 4096 / 4 = j by omega]
  · rw [isSet_U]
    simp [uvptEntry, PTE_U]
  · rintro ⟨pde, pte, hw, -, hW, -⟩
    obtain ⟨rfl, -⟩ := Prod.mk.inj (Option.some.inj (hwalk.symm.trans hw))
    rw [isSet_W] at hW
    simp [uvptEntry, page2pa, PTE_P, PTE_U] at hW

/-- The directory is a page table of itself. -/
theorem Built.readOnlyAt_dir (hb : Built B m d) (hi : i < 1024) :
    ReadOnlyAt m d (uvpdAddr i) (d, i) := by
  obtain ⟨hself, hframe⟩ := isSet_of_entryFrame (entryFrame_uvptEntry hb.lt)
  have h := hb.readOnlyAt (i := pdx UVPT) (by decide) hi (by rw [hb.window]; exact hself)
  rwa [hb.window, hframe, show pdx UVPT = 957 by decide, ← uvpdAddr_eq] at h

/-- What `fork` and `pgfault` read there. -/
theorem Built.uvpd_eq (hb : Built B m d) (hi : i < 1024) :
    ∃ w : ℕ × ℕ, ReadOnlyAt m d (uvpdAddr i) w ∧ uvpd m d i = m.phys w.1 w.2 :=
  ⟨(d, i), hb.readOnlyAt_dir hi, rfl⟩

theorem Built.uvpt_eq (hb : Built B m d) {v : ℕ} (hv : v < 1048576)
    (hP : isSet (uvpd m d (v / 1024)) PTE_P) :
    ∃ w : ℕ × ℕ, ReadOnlyAt m d (uvptAddr v) w ∧ uvpt m d v = m.phys w.1 w.2 := by
  refine ⟨(frame (uvpd m d (v / 1024)), v % 1024), ?_, rfl⟩
  have h := hb.readOnlyAt (i := v / 1024) (j := v % 1024) (by omega) (by omega) hP
  rwa [show v / 1024 * 1024 + v % 1024 = v by omega] at h

section

variable {cfg : BootConfig} {s₀ s : Kern} {e : Slot} (boot : Booted cfg s₀)
  (run : Run cfg.machine (Kern.Bounded cfg.machine) s₀ s) (free : s.dirs e = none)
  (setup : envSetupVm cfg.machine s.mem = some (.ok d, m))
  (ops : PageOps cfg.pool (Function.update s.dirs e (some d)) m m')

include boot run free setup ops

/-- In a directory that `env_setup_vm` built and any calls of `page_insert` and `page_remove`
changed, `uvpt` shows the words that `pgdir_walk` finds, and `uvpd` those of the directory. -/
theorem user_window_faithful (hP : isSet (m'.phys d (pdx va)) PTE_P) :
    ∃ t, pgdirWalk cfg.machine m' d va false = some (some (t, ptx va), m') ∧
      ReadOnlyAt m' d (uvptAddr (pgnum va)) (t, ptx va) ∧
      ReadOnlyAt m' d (uvpdAddr (pdx va)) (d, pdx va) := by
  have hb := built_of_pageOps boot run free setup ops
  refine ⟨frame (m'.phys d (pdx va)), ?_, ?_, hb.readOnlyAt_dir (pdx_lt va)⟩
  · rw [hb.tables.pgdirWalk, if_pos hP]
  · rw [pgnum_eq_pdx_ptx]
    exact hb.readOnlyAt (pdx_lt va) (ptx_lt va) hP

end

theorem user_window_faithful_demo : ∃ s e d m m', Booted demoConfig s ∧ s.dirs e = none ∧
    envSetupVm demoConfig.machine s.mem = some (.ok d, m) ∧
    PageOps demoConfig.pool (Function.update s.dirs e (some d)) m m' ∧
    ∃ t, pgdirWalk demoConfig.machine m' d 0 false = some (some (t, ptx 0), m') ∧
      ReadOnlyAt m' d (uvptAddr (pgnum 0)) (t, ptx 0) ∧
      ReadOnlyAt m' d (uvpdAddr (pdx 0)) (d, pdx 0) := by
  obtain ⟨s, e, d, m, m', boot, free, setup, ops, hP⟩ := exists_fresh_page
  exact ⟨s, e, d, m, m', boot, free, setup, ops, user_window_faithful boot .refl free setup ops hP⟩

end Jos
