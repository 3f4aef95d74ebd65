import Jos.Inc.Mmu
import Jos.Lib.Movs

/-!
# The boot loader (`boot/main.c`)

`readseg` loads a part of the kernel's image, which begins in the second sector of the disk.  It
reads whole sectors, so that it may store more than was asked for, at both ends.

How a sector is read is a parameter of `readseg`; `readsect` itself, with an ATA disk, is one that
does what `readseg` relies on.
-/

namespace Jos.Boot

open Jos.Lib.X86

def SECTSIZE : Word := 512

section

variable {σ : Type} (readsect : Word → Word → σ → σ)

/-- The loop of `readseg`, for at most the given number of rounds. -/
def readLoop (endPa : Word) : ℕ → Word → Word → σ → Option σ
  | 0, pa, _, w => if pa < endPa then none else some w
  | fuel + 1, pa, offset, w =>
      if pa < endPa then
        readLoop endPa fuel (pa + SECTSIZE) (offset + 1) (readsect pa offset w)
      else some w

/-- `readseg` -/
def readseg (fuel : ℕ) (pa count offset : Word) (w : σ) : Option σ :=
  let endPa := pa + count
  let pa := pa &&& ~~~(SECTSIZE - 1)
  let offset := offset / SECTSIZE + 1
  readLoop readsect endPa fuel pa offset w

end

/-- Memory after the `n` bytes from `pos` on in `disk` are stored from `dst` on. -/
def stored (disk : ℕ → BitVec 8) (pos : ℕ) (m : Word → BitVec 8) (dst : Word) (n : ℕ) (a : Word) :
    BitVec 8 :=
  if (a - dst).toNat < n then disk (pos + (a - dst).toNat) else m a

/-- `readsect(dst, offset)` stores the sector `offset` at `dst`, if an address of 28 bits can tell
the sector. -/
def ReadsSectors {σ : Type} (disk : ℕ → BitVec 8) (mem : σ → Word → BitVec 8)
    (readsect : Word → Word → σ → σ) : Prop :=
  ∀ dst offset w, offset.toNat < 2 ^ 28 →
    mem (readsect dst offset w) = stored disk (512 * offset.toNat) (mem w) dst 512

section

variable {σ : Type} {disk : ℕ → BitVec 8} {mem : σ → Word → BitVec 8}
  {readsect : Word → Word → σ → σ} {m : Word → BitVec 8} {dst pa count offset endPa : Word} {w : σ}
  {pos k n fuel : ℕ}

theorem stored_zero (disk : ℕ → BitVec 8) (pos : ℕ) (m : Word → BitVec 8) (dst : Word) :
    stored disk pos m dst 0 = m := by
  funext a
  exact if_neg (Nat.not_lt_zero _)

/-- What follows on the disk is stored behind. -/
theorem stored_stored (h : k + n ≤ 2 ^ 32) :
    stored disk (pos + k) (stored disk pos m dst k) (dst + BitVec.ofNat 32 k) n =
      stored disk pos m dst (k + n) := by
  funext a
  have hoff : a - (dst + BitVec.ofNat 32 k) = a - dst - BitVec.ofNat 32 k := by ring
  have hsub := toNat_sub_ofNat (a - dst) (k := k) (by omega)
  rw [stored, stored, stored, hoff, hsub]
  by_cases hk : k ≤ (a - dst).toNat
  · rw [if_pos hk, if_neg (by omega : ¬ (a - dst).toNat < k)]
    refine if_ctx_congr (by omega) (fun _ ↦ congrArg disk ?_) fun _ ↦ rfl
    omega
  · rw [if_neg hk, if_neg (by omega), if_pos (by omega), if_pos (by omega)]

/-- The loop reads the next `n` sectors, if those are the ones that begin before the end. -/
theorem readLoop_spec (hread : ReadsSectors disk mem readsect)
    (hlast : endPa.toNat ≤ pa.toNat + 512 * n)
    (hnext : ∀ i < n, pa.toNat + 512 * i < endPa.toNat) (hpa : pa.toNat + 512 * n < 2 ^ 32)
    (hoff : offset.toNat + n ≤ 2 ^ 28) (hfuel : n ≤ fuel) :
    ∃ w', readLoop readsect endPa fuel pa offset w = some w' ∧
      mem w' = stored disk (512 * offset.toNat) (mem w) pa (512 * n) := by
  induction n generalizing pa offset w fuel with
  | zero =>
      have hstop : ¬ pa < endPa := by
        rw [BitVec.lt_def]
        omega
      rw [Nat.mul_zero, stored_zero]
      cases fuel with
      | zero => exact ⟨w, if_neg hstop, rfl⟩
      | succ fuel => exact ⟨w, if_neg hstop, rfl⟩
  | succ n ih =>
      obtain ⟨fuel, rfl⟩ : ∃ f, fuel = f + 1 := ⟨fuel - 1, by omega⟩
      have hgo : pa < endPa := by
        have hfirst := hnext 0 n.succ_pos
        rwa [Nat.mul_zero, Nat.add_zero] at hfirst
      have hpa' : (pa + SECTSIZE).toNat = pa.toNat + 512 := by
        rw [BitVec.toNat_add, show SECTSIZE.toNat = 512 from rfl]
        omega
      have hoff' : (offset + 1).toNat = offset.toNat + 1 :=
        toNat_add_ofNat (k := 1) offset (by omega)
      have hnext' : ∀ i < n, (pa + SECTSIZE).toNat + 512 * i < endPa.toNat := fun i hi ↦ by
        have hi' := hnext (i + 1) (Nat.succ_lt_succ hi)
        omega
      obtain ⟨w', hrun, hmem⟩ : ∃ w', readLoop readsect endPa fuel (pa + SECTSIZE) (offset + 1)
          (readsect pa offset w) = some w' ∧ _ :=
        ih (by omega) hnext' (by omega) (by omega) (Nat.le_of_succ_le_succ hfuel)
      refine ⟨w', by rw [readLoop, if_pos hgo, hrun], ?_⟩
      rw [hmem, hread pa offset w (by omega), hoff', Nat.mul_succ, Nat.mul_succ,
        Nat.add_comm (512 * n)]
      exact stored_stored (by omega)

/-- `readseg` loads the bytes that it is asked for, and stores nothing outside of the sectors around
them. -/
theorem readseg_loads (hread : ReadsSectors disk mem readsect)
    (hfit : pa.toNat + count.toNat + 512 < 2 ^ 32)
    (hcong : pa.toNat % 512 = offset.toNat % 512) (w : σ)
    (hfuel : (count.toNat + 1022) / 512 ≤ fuel) :
    ∃ w', readseg readsect fuel pa count offset w = some w' ∧
      (∀ k < count.toNat, mem w' (pa + BitVec.ofNat 32 k) = disk (512 + offset.toNat + k)) ∧
      ∀ a, a.toNat < pa.toNat / 512 * 512 ∨
          (pa.toNat + count.toNat + 511) / 512 * 512 ≤ a.toNat →
        mem w' a = mem w a := by
  have hoffset := offset.isLt
  have hdown : (pa &&& ~~~(SECTSIZE - 1)).toNat = pa.toNat / 512 * 512 := by
    rw [show ~~~(SECTSIZE - 1) = BitVec.allOnes 32 <<< 9 by decide]
    exact and_high_toNat pa 9
  have hend : (pa + count).toNat = pa.toNat + count.toNat := by
    rw [BitVec.toNat_add]
    omega
  have hsector : (offset / SECTSIZE + 1).toNat = offset.toNat / 512 + 1 := by
    have hdiv : (offset / SECTSIZE).toNat = offset.toNat / 512 := BitVec.toNat_udiv
    rw [← hdiv]
    exact toNat_add_ofNat (k := 1) _ (by omega)
  -- the sectors from the one with the first byte to the one with the last
  let n := (pa.toNat % 512 + count.toNat + 511) / 512
  obtain ⟨w', hrun, hmem⟩ : ∃ w', readLoop readsect (pa + count) fuel
      (pa &&& ~~~(SECTSIZE - 1)) (offset / SECTSIZE + 1) w = some w' ∧ _ :=
    readLoop_spec (n := n) hread (by omega) (fun i hi ↦ by omega) (by omega) (by omega) (by omega)
  refine ⟨w', hrun, fun k hk ↦ ?_, fun a ha ↦ ?_⟩
  · have hk' : (pa + BitVec.ofNat 32 k).toNat = pa.toNat + k := toNat_add_ofNat pa (by omega)
    have hsub : (pa + BitVec.ofNat 32 k - (pa &&& ~~~(SECTSIZE - 1))).toNat =
        pa.toNat % 512 + k := by
      rw [BitVec.toNat_sub, hk', hdown]
      omega
    rw [hmem, stored, hsub, hsector, if_pos (by omega)]
    congr 1
    omega
  · have halt := a.isLt
    rw [hmem, stored, if_neg]
    rw [BitVec.toNat_sub, hdown]
    omega

end

/-! ## `readsect` -/

/-- Memory, and an ATA disk that is always ready: what was written to its ports, and the position on
the disk of the next byte to be read from its data port. -/
structure Ata where
  mem : Word → BitVec 8
  regs : ℕ → BitVec 8
  pos : ℕ

/-- The number of the sector in the registers. -/
def Ata.lba (w : Ata) : BitVec 28 :=
  (w.regs 0x1F6).extractLsb' 0 4 ++ w.regs 0x1F5 ++ w.regs 0x1F4 ++ w.regs 0x1F3

/-- `outb`.  The command 0x20 reads the sector. -/
def outb (port : ℕ) (data : BitVec 8) (w : Ata) : Ata :=
  let w := { w with regs := Function.update w.regs port data }
  if port = 0x1F7 ∧ data = 0x20 then { w with pos := 512 * w.lba.toNat } else w

/-- The next four bytes of the disk. -/
def long (disk : ℕ → BitVec 8) (pos : ℕ) : Word :=
  disk (pos + 3) ++ disk (pos + 2) ++ disk (pos + 1) ++ disk pos

/-- `insl(0x1F0, addr, cnt)` -/
def insl (disk : ℕ → BitVec 8) : Word → ℕ → Ata → Ata
  | _, 0, w => w
  | addr, cnt + 1, w => insl disk (addr + 4) cnt
      { w with mem := setWord w.mem addr (long disk w.pos), pos := w.pos + 4 }

/-- `readsect` -/
def readsect (disk : ℕ → BitVec 8) (dst offset : Word) (w : Ata) : Ata :=
  let w := outb 0x1F2 1 w
  let w := outb 0x1F3 (offset.setWidth 8) w
  let w := outb 0x1F4 ((offset >>> 8).setWidth 8) w
  let w := outb 0x1F5 ((offset >>> 16).setWidth 8) w
  let w := outb 0x1F6 ((offset >>> 24 ||| 0xE0).setWidth 8) w
  let w := outb 0x1F7 0x20 w
  insl disk dst (SECTSIZE / 4).toNat w

theorem setWord_long (disk : ℕ → BitVec 8) (pos : ℕ) (m : Word → BitVec 8) (dst : Word) :
    setWord m dst (long disk pos) = stored disk pos m dst 4 := by
  funext a
  obtain ⟨h0, h1, h2, h3⟩ :=
    extract_append (disk (pos + 3)) (disk (pos + 2)) (disk (pos + 1)) (disk pos)
  rw [setWord, stored, long]
  refine if_ctx_congr Iff.rfl (fun hk ↦ ?_) fun _ ↦ rfl
  generalize (a - dst).toNat = k at hk
  rcases k with _ | _ | _ | _ | k
  · exact h0
  · exact h1
  · exact h2
  · exact h3
  · omega

theorem mem_insl (disk : ℕ → BitVec 8) (addr : Word) (w : Ata) {cnt : ℕ} (h : 4 * cnt ≤ 2 ^ 32) :
    (insl disk addr cnt w).mem = stored disk w.pos w.mem addr (4 * cnt) := by
  induction cnt generalizing addr w with
  | zero => rw [Nat.mul_zero, stored_zero, insl]
  | succ cnt ih =>
      rw [insl, ih _ _ (by omega), setWord_long, Nat.mul_succ, Nat.add_comm (4 * cnt)]
      exact stored_stored (k := 4) (by omega)

/-- The registers take the 28 low bits of `offset`. -/
theorem lba_bits (offset : Word) :
    ((offset >>> 24 ||| 0xE0).setWidth 8).extractLsb' 0 4 ++ (offset >>> 16).setWidth 8 ++
      (offset >>> 8).setWidth 8 ++ offset.setWidth 8 = offset.setWidth 28 := by
  have hE0 : ∀ j < 4, (224#32).getLsbD j = false := by decide
  refine BitVec.eq_of_getLsbD_eq fun i hi ↦ ?_
  simp only [BitVec.getLsbD_append, BitVec.getLsbD_setWidth, BitVec.getLsbD_extractLsb',
    BitVec.getLsbD_or, BitVec.getLsbD_ushiftRight]
  by_cases h8 : i < 8
  · simp [h8, hi]
  by_cases h16 : i - 8 < 8
  · simp [h8, h16, hi, show 8 + (i - 8) = i by omega]
  by_cases h24 : i - 8 - 8 < 8
  · simp [h8, h16, h24, hi, show 16 + (i - 8 - 8) = i by omega]
  · have h28 : i - 8 - 8 - 8 < 4 := by omega
    simp [h8, h16, h24, hi, h28, hE0 _ h28, show 24 + (i - 8 - 8 - 8) = i by omega]
    omega

theorem outb_of_ne (port : ℕ) (h : port ≠ 0x1F7) (data : BitVec 8) (w : Ata) :
    outb port data w = { w with regs := Function.update w.regs port data } :=
  if_neg fun hc ↦ h hc.1

/-- With an ATA disk `readsect` does what `readseg` relies on. -/
theorem readsect_reads (disk : ℕ → BitVec 8) : ReadsSectors disk Ata.mem (readsect disk) := by
  intro dst offset w hlt
  have hlba : (offset.setWidth 28).toNat = offset.toNat := by
    rw [BitVec.toNat_setWidth]
    exact Nat.mod_eq_of_lt hlt
  rw [readsect, mem_insl _ _ _ (by decide), outb_of_ne 0x1F2 (by decide),
    outb_of_ne 0x1F3 (by decide), outb_of_ne 0x1F4 (by decide),
    outb_of_ne 0x1F5 (by decide), outb_of_ne 0x1F6 (by decide), outb,
    if_pos ⟨rfl, rfl⟩, ← hlba, ← lba_bits]
  rfl

/-- A sector and the first half of the next one, with a byte of its own at every position. -/
theorem readseg_loads_demo :
    ∃ w', readseg (readsect fun i ↦ BitVec.ofNat 8 i) 4 0x100010 700 16
        ⟨fun _ ↦ 0, fun _ ↦ 0, 0⟩ = some w' ∧
      (∀ k < (700 : Word).toNat,
        w'.mem (0x100010 + BitVec.ofNat 32 k) = BitVec.ofNat 8 (512 + (16 : Word).toNat + k)) ∧
      ∀ a : Word, a.toNat < (0x100010 : Word).toNat / 512 * 512 ∨
          ((0x100010 : Word).toNat + (700 : Word).toNat + 511) / 512 * 512 ≤ a.toNat →
        w'.mem a = 0 :=
  readseg_loads (readsect_reads fun i ↦ BitVec.ofNat 8 i) (by decide) (by decide)
    ⟨fun _ ↦ 0, fun _ ↦ 0, 0⟩ (by decide)

end Jos.Boot
