import Jos.Boot.Main

/-!
# The kernel is loaded (`bootmain` in `boot/main.c`)

`bootmain` reads the first page of the kernel's image to `ELFHDR` and loads the segments that the
program headers there describe, one after the other.  A segment is read in whole sectors, so it may
store over what was loaded before, and over the headers themselves, which are read again and again
while the loop runs.

The image begins in the second sector of the disk.
-/

namespace Jos.Boot

open Jos.Lib.X86

def ELFHDR : Word := 0x10000

def ELF_MAGIC : Word := 0x464C457F

/-! ## The code -/

section

variable (m : Word → BitVec 8) (ph : Word)

def eMagic : Word := word m ELFHDR
def eEntry : Word := word m (ELFHDR + 24)
def ePhoff : Word := word m (ELFHDR + 28)
def ePhnum : BitVec 16 := m (ELFHDR + 45) ++ m (ELFHDR + 44)

def pOffset : Word := word m (ph + 4)
def pPa : Word := word m (ph + 12)
def pFilesz : Word := word m (ph + 16)
def pMemsz : Word := word m (ph + 20)

end

/-- The loop that clears the rest of a segment.  The header is read in every round. -/
def clearLoop (ph : Word) : ℕ → Word → Ata → Option Ata
  | 0, i, w => if i < pMemsz w.mem ph - pFilesz w.mem ph then none else some w
  | fuel + 1, i, w =>
      if i < pMemsz w.mem ph - pFilesz w.mem ph then
        clearLoop ph fuel (i + 1)
          { w with mem := Function.update w.mem (pPa w.mem ph + pFilesz w.mem ph + i) 0 }
      else some w

variable (disk : ℕ → BitVec 8) (rounds : ℕ)

/-- A round of the loop over the program headers, with a bound for the rounds of the loops in it. -/
def loadPh (ph : Word) (w : Ata) : Option Ata := do
  let w ← readseg (readsect disk) rounds (pPa w.mem ph) (pMemsz w.mem ph) (pOffset w.mem ph) w
  clearLoop ph rounds 0 w

/-- The loop over the program headers. -/
def phLoop (eph : Word) : ℕ → Word → Ata → Option Ata
  | 0, ph, w => if ph < eph then none else some w
  | fuel + 1, ph, w =>
      if ph < eph then (loadPh disk rounds ph w).bind (phLoop eph fuel (ph + 32)) else some w

/-- `bootmain`, up to the call of the entry point, which is returned; there is none if this is not
an ELF image. -/
def bootmain (w : Ata) : Option (Option Word × Ata) := do
  let w ← readseg (readsect disk) rounds ELFHDR (SECTSIZE * 8) 0 w
  if eMagic w.mem ≠ ELF_MAGIC then
    -- bad
    return (none, w)
  let ph := ELFHDR + ePhoff w.mem
  let eph := ph + (ePhnum w.mem).setWidth 32 * 32
  let w ← phLoop disk rounds eph rounds ph w
  return (some (eEntry w.mem), w)

/-! ## The image -/

/-- What a program header says of its segment -/
structure Phdr where
  offset : Word
  pa : Word
  filesz : Word
  memsz : Word

/-- The number of program headers of the image -/
def phnum : ℕ := (disk 557 ++ disk 556 : BitVec 16).toNat

/-- Where program header `i` is in the image -/
def phdrPos (i : ℕ) : ℕ := (long disk 540).toNat + 32 * i

/-- Program header `i` of the image -/
def phdr (i : ℕ) : Phdr where
  offset := long disk (512 + (phdrPos disk i + 4))
  pa := long disk (512 + (phdrPos disk i + 12))
  filesz := long disk (512 + (phdrPos disk i + 16))
  memsz := long disk (512 + (phdrPos disk i + 20))

namespace Phdr

/-- The start of the first sector that is stored. -/
def start (p : Phdr) : ℕ := p.pa.toNat / 512 * 512

/-- The end of the last one. -/
def stop (p : Phdr) : ℕ := (p.pa.toNat + p.memsz.toNat + 511) / 512 * 512

/-- The segment does not wrap around, its sectors on the disk are those in memory, and the loop
variable that clears its end, an `int`, does not overflow. -/
structure Fits (p : Phdr) : Prop where
  filesz : p.filesz.toNat ≤ p.memsz.toNat
  wrap : p.pa.toNat + p.memsz.toNat + 512 < 2 ^ 32
  sector : p.pa.toNat % 512 = p.offset.toNat % 512
  int : p.memsz.toNat - p.filesz.toNat < 2 ^ 31

/-- The segment is in memory: its bytes on the disk, and zeros behind them. -/
def Loaded (p : Phdr) (disk : ℕ → BitVec 8) (m : Word → BitVec 8) : Prop :=
  ∀ a : Word, p.pa.toNat ≤ a.toNat → a.toNat < p.pa.toNat + p.memsz.toNat →
    m a = if a.toNat < p.pa.toNat + p.filesz.toNat
      then disk (512 + p.offset.toNat + (a.toNat - p.pa.toNat)) else 0

end Phdr

/-- What `bootmain` relies on: the image is an ELF image, its program headers are in its first page,
the sectors of no segment meet that page in memory, and those of no segment meet an earlier one. -/
structure Loadable : Prop where
  magic : long disk 512 = ELF_MAGIC
  headers : phdrPos disk (phnum disk) ≤ 4096
  fits : ∀ i < phnum disk, (phdr disk i).Fits
  clear : ∀ i < phnum disk,
    (phdr disk i).stop ≤ 0x10000 ∨ 0x11000 ≤ (phdr disk i).start
  apart : ∀ i j, i < j → j < phnum disk →
    (phdr disk j).stop ≤ (phdr disk i).pa.toNat ∨
      (phdr disk i).pa.toNat + (phdr disk i).memsz.toNat ≤ (phdr disk j).start

variable {disk} {rounds} {w : Ata} {m : Word → BitVec 8} {p : Phdr} {i k o fuel : ℕ}

/-! ## The headers in memory -/

/-- The first page of the image is at `ELFHDR`. -/
def Header (disk : ℕ → BitVec 8) (m : Word → BitVec 8) : Prop :=
  ∀ k < 4096, m (ELFHDR + BitVec.ofNat 32 k) = disk (512 + k)

theorem toNat_header (hk : k ≤ 4096) : (ELFHDR + BitVec.ofNat 32 k).toNat = 0x10000 + k :=
  toNat_add_ofNat ELFHDR (by rw [show ELFHDR.toNat = 0x10000 from rfl]; omega)

theorem add_ofNat_add (a : Word) (k j : ℕ) :
    a + BitVec.ofNat 32 k + BitVec.ofNat 32 j = a + BitVec.ofNat 32 (k + j) := by
  rw [BitVec.add_assoc, BitVec.ofNat_add]

theorem Header.word_eq (h : Header disk m) (hk : k + 4 ≤ 4096) :
    word m (ELFHDR + BitVec.ofNat 32 k) = long disk (512 + k) := by
  have hbyte (j : ℕ) (hj : j < 4) :
      m (ELFHDR + BitVec.ofNat 32 k + BitVec.ofNat 32 j) = disk (512 + k + j) := by
    rw [add_ofNat_add, h _ (by omega), Nat.add_assoc]
  rw [word, long]
  exact congrArg₂ _ (congrArg₂ _ (congrArg₂ _ (hbyte 3 (by decide)) (hbyte 2 (by decide)))
    (hbyte 1 (by decide))) (h k (by omega))

/-- The headers stay if nothing is stored over them. -/
theorem Header.of_eq {m' : Word → BitVec 8} (h : Header disk m)
    (heq : ∀ a : Word, 0x10000 ≤ a.toNat → a.toNat < 0x11000 → m' a = m a) : Header disk m' := by
  intro k hk
  have hnat := toNat_header hk.le
  rw [heq _ (by omega) (by omega), h k hk]

/-- The fields of program header `i`, where it is in memory -/
theorem Header.fields (h : Header disk m) (hi : phdrPos disk i + 32 ≤ 4096) :
    pOffset m (ELFHDR + BitVec.ofNat 32 (phdrPos disk i)) = (phdr disk i).offset ∧
      pPa m (ELFHDR + BitVec.ofNat 32 (phdrPos disk i)) = (phdr disk i).pa ∧
      pFilesz m (ELFHDR + BitVec.ofNat 32 (phdrPos disk i)) = (phdr disk i).filesz ∧
      pMemsz m (ELFHDR + BitVec.ofNat 32 (phdrPos disk i)) = (phdr disk i).memsz := by
  have hfield (j : ℕ) (hj : j + 4 ≤ 32) :
      word m (ELFHDR + BitVec.ofNat 32 (phdrPos disk i) + BitVec.ofNat 32 j) =
        long disk (512 + (phdrPos disk i + j)) := by
    rw [add_ofNat_add, h.word_eq (by omega)]
  exact ⟨hfield 4 (by decide), hfield 12 (by decide), hfield 16 (by decide), hfield 20 (by decide)⟩

/-! ## One segment -/

/-- `readseg` loads the bytes that it is asked for, and stores whole sectors only. -/
theorem readseg_mem (hp : p.Fits) (hrounds : 2 ^ 32 ≤ rounds) (w : Ata) :
    ∃ w', readseg (readsect disk) rounds p.pa p.memsz p.offset w = some w' ∧
      (∀ a : Word, p.pa.toNat ≤ a.toNat → a.toNat < p.pa.toNat + p.memsz.toNat →
        w'.mem a = disk (512 + p.offset.toNat + (a.toNat - p.pa.toNat))) ∧
      ∀ a : Word, a.toNat < p.start ∨ p.stop ≤ a.toNat → w'.mem a = w.mem a := by
  have hoffset := p.offset.isLt
  have hwrap := hp.wrap
  have hsector := hp.sector
  have hdown : (p.pa &&& ~~~(SECTSIZE - 1)).toNat = p.pa.toNat / 512 * 512 := by
    rw [show ~~~(SECTSIZE - 1) = BitVec.allOnes 32 <<< 9 by decide]
    exact and_high_toNat p.pa 9
  have hend : (p.pa + p.memsz).toNat = p.pa.toNat + p.memsz.toNat := by
    rw [BitVec.toNat_add]
    omega
  have hfirst : (p.offset / SECTSIZE + 1).toNat = p.offset.toNat / 512 + 1 := by
    have hdiv : (p.offset / SECTSIZE).toNat = p.offset.toNat / 512 := BitVec.toNat_udiv
    rw [← hdiv]
    exact toNat_add_ofNat (k := 1) _ (by omega)
  let n := (p.pa.toNat % 512 + p.memsz.toNat + 511) / 512
  obtain ⟨w', hrun, hmem⟩ : ∃ w', readLoop (readsect disk) (p.pa + p.memsz) rounds
      (p.pa &&& ~~~(SECTSIZE - 1)) (p.offset / SECTSIZE + 1) w = some w' ∧ _ :=
    readLoop_spec (n := n) (readsect_reads disk) (by omega) (fun i hi ↦ by omega) (by omega)
      (by omega) (by omega)
  have hsub (a : Word) (h : p.pa.toNat / 512 * 512 ≤ a.toNat) :
      (a - (p.pa &&& ~~~(SECTSIZE - 1))).toNat = a.toNat - p.pa.toNat / 512 * 512 := by
    have ha := a.isLt
    rw [BitVec.toNat_sub, hdown]
    omega
  refine ⟨w', hrun, fun a hle hlt ↦ ?_, fun a ha ↦ ?_⟩
  · rw [hmem, stored, hsub a (by omega), hfirst, if_pos (by omega)]
    congr 1
    omega
  · rw [Phdr.start, Phdr.stop] at ha
    have halt := a.isLt
    rw [hmem, stored, if_neg]
    rw [BitVec.toNat_sub, hdown]
    omega

/-- A byte of a segment is in its sectors. -/
theorem Phdr.Fits.in_sectors (hp : p.Fits) {a : ℕ} (hle : p.pa.toNat ≤ a)
    (hlt : a < p.pa.toNat + p.memsz.toNat) : p.start ≤ a ∧ a < p.stop := by
  have hwrap := hp.wrap
  rw [Phdr.start, Phdr.stop]
  omega

/-- The end of the segment is cleared, from byte `k` behind its bytes on the disk on. -/
theorem clearLoop_spec (hhdr : Header disk w.mem) (hpos : phdrPos disk i + 32 ≤ 4096)
    (hp : (phdr disk i).Fits)
    (hclear : (phdr disk i).stop ≤ 0x10000 ∨ 0x11000 ≤ (phdr disk i).start)
    (hk : (phdr disk i).filesz.toNat + k ≤ (phdr disk i).memsz.toNat)
    (hfuel : (phdr disk i).memsz.toNat ≤ fuel + ((phdr disk i).filesz.toNat + k)) :
    ∃ w', clearLoop (ELFHDR + BitVec.ofNat 32 (phdrPos disk i)) fuel (BitVec.ofNat 32 k) w =
        some w' ∧
      ∀ a : Word, w'.mem a =
        if (phdr disk i).pa.toNat + (phdr disk i).filesz.toNat + k ≤ a.toNat ∧
            a.toNat < (phdr disk i).pa.toNat + (phdr disk i).memsz.toNat
          then 0 else w.mem a := by
  have hwrap := hp.wrap
  have hsize := hp.filesz
  have hlt (k : ℕ) (hk : (phdr disk i).filesz.toNat + k ≤ (phdr disk i).memsz.toNat) :
      BitVec.ofNat 32 k < (phdr disk i).memsz - (phdr disk i).filesz ↔
        (phdr disk i).filesz.toNat + k < (phdr disk i).memsz.toNat := by
    rw [BitVec.lt_def, BitVec.toNat_ofNat, BitVec.toNat_sub]
    omega
  induction fuel generalizing k w with
  | zero =>
      obtain ⟨-, -, hfilesz, hmemsz⟩ := hhdr.fields hpos
      refine ⟨w, ?_, fun a ↦ (if_neg (by omega)).symm⟩
      rw [clearLoop, hmemsz, hfilesz, if_neg]
      rw [hlt k hk]
      omega
  | succ fuel ih =>
      obtain ⟨-, hpa, hfilesz, hmemsz⟩ := hhdr.fields hpos
      rw [clearLoop, hmemsz, hfilesz, hpa]
      by_cases hdone : (phdr disk i).filesz.toNat + k = (phdr disk i).memsz.toNat
      · refine ⟨w, if_neg ?_, fun a ↦ (if_neg (by omega)).symm⟩
        rw [hlt k hk]
        omega
      · -- one more byte, which is not in the headers
        have hdst : ((phdr disk i).pa + (phdr disk i).filesz + BitVec.ofNat 32 k).toNat =
            (phdr disk i).pa.toNat + (phdr disk i).filesz.toNat + k := by
          rw [BitVec.toNat_add, BitVec.toNat_add, BitVec.toNat_ofNat]
          omega
        have hin := hp.in_sectors (a := (phdr disk i).pa.toNat + (phdr disk i).filesz.toNat + k)
          (by omega) (by omega)
        have hhdr' : Header disk (Function.update w.mem
            ((phdr disk i).pa + (phdr disk i).filesz + BitVec.ofNat 32 k) 0) := by
          refine hhdr.of_eq fun a hle hlt ↦ Function.update_of_ne ?_ _ _
          rintro rfl
          omega
        have hnext : BitVec.ofNat 32 k + 1 = BitVec.ofNat 32 (k + 1) :=
          (BitVec.ofNat_add k 1).symm
        obtain ⟨w', hrun, hmem⟩ := ih (k := k + 1) (w := ⟨Function.update w.mem
          ((phdr disk i).pa + (phdr disk i).filesz + BitVec.ofNat 32 k) 0, w.regs, w.pos⟩)
          hhdr' (by omega) (by omega)
        refine ⟨w', ?_, fun a ↦ ?_⟩
        · rw [if_pos ((hlt k hk).mpr (by omega)), hnext]
          exact hrun
        · rw [hmem]
          by_cases ha : a = (phdr disk i).pa + (phdr disk i).filesz + BitVec.ofNat 32 k
          · have hat := (congrArg BitVec.toNat ha).trans hdst
            rw [if_neg (by omega), if_pos (by omega), ha]
            exact Function.update_self _ _ _
          · have hne : a.toNat ≠ (phdr disk i).pa.toNat + (phdr disk i).filesz.toNat + k :=
              fun h ↦ ha (BitVec.eq_of_toNat_eq (h.trans hdst.symm))
            refine if_ctx_congr (by omega) (fun _ ↦ rfl) fun _ ↦ ?_
            exact Function.update_of_ne ha _ _

/-- A round of the loop loads its segment, and stores into its sectors only. -/
theorem loadPh_spec (hhdr : Header disk w.mem) (hpos : phdrPos disk i + 32 ≤ 4096)
    (hp : (phdr disk i).Fits)
    (hclear : (phdr disk i).stop ≤ 0x10000 ∨ 0x11000 ≤ (phdr disk i).start)
    (hrounds : 2 ^ 32 ≤ rounds) :
    ∃ w', loadPh disk rounds (ELFHDR + BitVec.ofNat 32 (phdrPos disk i)) w = some w' ∧
      (phdr disk i).Loaded disk w'.mem ∧
      ∀ a : Word, a.toNat < (phdr disk i).start ∨ (phdr disk i).stop ≤ a.toNat →
        w'.mem a = w.mem a := by
  obtain ⟨hoffset, hpa, -, hmemsz⟩ := hhdr.fields hpos
  obtain ⟨w₁, hread, hbytes, hframe⟩ : ∃ w₁, readseg (readsect disk) rounds (phdr disk i).pa
      (phdr disk i).memsz (phdr disk i).offset w = some w₁ ∧ _ := readseg_mem hp hrounds w
  have hhdr₁ : Header disk w₁.mem := hhdr.of_eq fun a hle hlt ↦ hframe a (by omega)
  have hlen := (phdr disk i).memsz.isLt
  have hfuel : (phdr disk i).memsz.toNat ≤ rounds + ((phdr disk i).filesz.toNat + 0) := by omega
  obtain ⟨w', hrun, hmem⟩ := clearLoop_spec hhdr₁ hpos hp hclear hp.filesz hfuel
  refine ⟨w', ?_, fun a hle hlt ↦ ?_, fun a ha ↦ ?_⟩
  · rw [loadPh, hoffset, hpa, hmemsz, hread]
    exact hrun
  · rw [hmem, Nat.add_zero]
    by_cases h : a.toNat < (phdr disk i).pa.toNat + (phdr disk i).filesz.toNat
    · rw [if_neg (by omega), if_pos h, hbytes a hle hlt]
    · rw [if_pos (by omega), if_neg h]
  · rw [hmem, if_neg, hframe a ha]
    rintro ⟨hle, hlt⟩
    have hin := hp.in_sectors (a := a.toNat) (by omega) hlt
    omega

/-! ## All segments -/

theorem Loadable.phdrPos_le (h : Loadable disk) (hi : i < phnum disk) :
    phdrPos disk i + 32 ≤ 4096 := by
  have hheaders := h.headers
  rw [phdrPos] at hheaders ⊢
  omega

/-- What holds before round `i`: the headers are there, the segments before are loaded, and nothing
but sectors of segments was stored to. -/
structure PhInv (disk : ℕ → BitVec 8) (m m' : Word → BitVec 8) (i : ℕ) : Prop where
  header : Header disk m'
  loaded : ∀ j < i, (phdr disk j).Loaded disk m'
  frame : ∀ a : Word, (∀ j < phnum disk, a.toNat < (phdr disk j).start ∨
    (phdr disk j).stop ≤ a.toNat) → m' a = m a

/-- One more segment -/
theorem PhInv.round (h : Loadable disk) (hrounds : 2 ^ 32 ≤ rounds) (hinv : PhInv disk m w.mem i)
    (hi : i < phnum disk) :
    ∃ w', loadPh disk rounds (ELFHDR + BitVec.ofNat 32 (phdrPos disk i)) w = some w' ∧
      PhInv disk m w'.mem (i + 1) := by
  have hclear := h.clear i hi
  obtain ⟨w', hrun, hloaded, hframe⟩ :=
    loadPh_spec hinv.header (h.phdrPos_le hi) (h.fits i hi) hclear hrounds
  refine ⟨w', hrun, ?_, fun j hj ↦ ?_, fun a ha ↦ ?_⟩
  · exact hinv.header.of_eq fun a hle hlt ↦ hframe a (by omega)
  · rcases Nat.lt_succ_iff_lt_or_eq.mp hj with hj | rfl
    · -- the sectors of this segment do not meet an earlier one
      intro a hle hlt
      have hapart := h.apart j i hj hi
      rw [hframe a (by omega)]
      exact hinv.loaded j hj a hle hlt
    · exact hloaded
  · rw [hframe a (ha i hi), hinv.frame a ha]

/-- The loop loads all segments that are left. -/
theorem phLoop_spec (h : Loadable disk) (hrounds : 2 ^ 32 ≤ rounds) (hinv : PhInv disk m w.mem i)
    (hi : i ≤ phnum disk) (hfuel : phnum disk ≤ fuel + i) :
    ∃ w', phLoop disk rounds (ELFHDR + BitVec.ofNat 32 (phdrPos disk (phnum disk))) fuel
        (ELFHDR + BitVec.ofNat 32 (phdrPos disk i)) w = some w' ∧
      PhInv disk m w'.mem (phnum disk) := by
  have hend : (ELFHDR + BitVec.ofNat 32 (phdrPos disk (phnum disk))).toNat =
      0x10000 + phdrPos disk (phnum disk) := toNat_header h.headers
  induction fuel generalizing i w with
  | zero =>
      obtain rfl : i = phnum disk := by omega
      refine ⟨w, ?_, hinv⟩
      rw [phLoop, if_neg]
      exact BitVec.lt_irrefl _
  | succ fuel ih =>
      rcases hi.eq_or_lt with rfl | hlt
      · refine ⟨w, ?_, hinv⟩
        rw [phLoop, if_neg]
        exact BitVec.lt_irrefl _
      · have hpos := h.phdrPos_le hlt
        have hgo : ELFHDR + BitVec.ofNat 32 (phdrPos disk i) <
            ELFHDR + BitVec.ofNat 32 (phdrPos disk (phnum disk)) := by
          rw [BitVec.lt_def, hend, toNat_header (by omega), phdrPos, phdrPos]
          omega
        have hnext : ELFHDR + BitVec.ofNat 32 (phdrPos disk i) + 32 =
            ELFHDR + BitVec.ofNat 32 (phdrPos disk (i + 1)) :=
          add_ofNat_add ELFHDR (phdrPos disk i) 32
        obtain ⟨w₁, hrun, hinv₁⟩ := hinv.round h hrounds hlt
        obtain ⟨w', hrest, hinv'⟩ := ih hinv₁ hlt (by omega)
        refine ⟨w', ?_, hinv'⟩
        rw [phLoop, if_pos hgo, hrun, hnext]
        exact hrest

/-- The header page as it is read -/
theorem readseg_header (hrounds : 2 ^ 32 ≤ rounds) (w : Ata) :
    ∃ w', readseg (readsect disk) rounds ELFHDR (SECTSIZE * 8) 0 w = some w' ∧
      Header disk w'.mem ∧
      ∀ a : Word, a.toNat < 0x10000 ∨ 0x11000 ≤ a.toNat → w'.mem a = w.mem a := by
  have hfits : Phdr.Fits ⟨0, ELFHDR, SECTSIZE * 8, SECTSIZE * 8⟩ := by
    constructor <;> decide
  obtain ⟨w', hrun, hbytes, hframe⟩ : ∃ w', readseg (readsect disk) rounds ELFHDR (SECTSIZE * 8) 0
      w = some w' ∧ _ := readseg_mem hfits hrounds w
  refine ⟨w', hrun, fun k hk ↦ ?_, hframe⟩
  have hnat := toNat_header hk.le
  have hpa : ELFHDR.toNat = 0x10000 := rfl
  have hsize : (SECTSIZE * 8).toNat = 4096 := rfl
  have hle : ELFHDR.toNat ≤ (ELFHDR + BitVec.ofNat 32 k).toNat := by
    rw [hnat, hpa]
    omega
  have hlt : (ELFHDR + BitVec.ofNat 32 k).toNat < ELFHDR.toNat + (SECTSIZE * 8).toNat := by
    rw [hnat, hpa, hsize]
    omega
  have hzero : (0 : Word).toNat = 0 := rfl
  refine (hbytes _ hle hlt).trans (congrArg disk ?_)
  show 512 + (0 : Word).toNat + ((ELFHDR + BitVec.ofNat 32 k).toNat - ELFHDR.toNat) = 512 + k
  rw [hnat, hpa, hzero]
  omega

/-- `bootmain` loads every segment of the kernel and returns its entry point: the bytes of each
segment are those on the disk, with zeros behind them up to its size in memory.  Nothing is stored
outside of the page of the headers and the sectors of the segments. -/
theorem bootmain_loads (h : Loadable disk) (hrounds : 2 ^ 32 ≤ rounds) (w : Ata) :
    ∃ w', bootmain disk rounds w = some (some (long disk 536), w') ∧
      (∀ i < phnum disk, (phdr disk i).Loaded disk w'.mem) ∧
      ∀ a : Word, a.toNat < 0x10000 ∨ 0x11000 ≤ a.toNat →
        (∀ i < phnum disk, a.toNat < (phdr disk i).start ∨ (phdr disk i).stop ≤ a.toNat) →
        w'.mem a = w.mem a := by
  obtain ⟨w₁, hrun₁, hhdr, hframe₁⟩ : ∃ w₁, readseg (readsect disk) rounds ELFHDR (SECTSIZE * 8) 0
      w = some w₁ ∧ _ := readseg_header hrounds w
  have hmagic : eMagic w₁.mem = ELF_MAGIC := by
    rw [← h.magic, eMagic, ← hhdr.word_eq (k := 0) (by decide), BitVec.add_zero]
  have hphoff : ePhoff w₁.mem = long disk 540 := hhdr.word_eq (k := 28) (by decide)
  have hphnum : ePhnum w₁.mem = disk 557 ++ disk 556 :=
    congrArg₂ _ (hhdr 45 (by decide)) (hhdr 44 (by decide))
  have hph : ELFHDR + ePhoff w₁.mem = ELFHDR + BitVec.ofNat 32 (phdrPos disk 0) := by
    rw [hphoff, phdrPos, Nat.mul_zero, Nat.add_zero, BitVec.ofNat_toNat, BitVec.setWidth_eq]
  have heph : ELFHDR + ePhoff w₁.mem + (ePhnum w₁.mem).setWidth 32 * 32 =
      ELFHDR + BitVec.ofNat 32 (phdrPos disk (phnum disk)) := by
    have hmul : (ePhnum w₁.mem).setWidth 32 * 32 = BitVec.ofNat 32 (32 * phnum disk) := by
      rw [hphnum, phnum, Nat.mul_comm, BitVec.ofNat_mul, BitVec.ofNat_toNat]
      rfl
    rw [hph, hmul, add_ofNat_add, phdrPos, phdrPos, Nat.mul_zero, Nat.add_zero]
  have hfuel : phnum disk ≤ rounds + 0 := by
    have hlt := (disk 557 ++ disk 556 : BitVec 16).isLt
    rw [phnum]
    omega
  obtain ⟨w', hrun, hinv⟩ : ∃ w' : Ata, _ ∧ PhInv disk w₁.mem w'.mem (phnum disk) :=
    phLoop_spec h hrounds ⟨hhdr, fun j hj ↦ absurd hj (Nat.not_lt_zero j), fun _ _ ↦ rfl⟩
      (Nat.zero_le _) hfuel
  have hentry : eEntry w'.mem = long disk 536 := hinv.header.word_eq (k := 24) (by decide)
  refine ⟨w', ?_, hinv.loaded, fun a hpage ha ↦ ?_⟩
  · simp only [bootmain, hrun₁, Option.bind_eq_bind, Option.bind_some, hmagic, ne_eq,
      not_true_eq_false, if_false, heph]
    rw [hph, hrun]
    rw [Option.bind_some, hentry]
    rfl
  · rw [hinv.frame a ha, hframe₁ a hpage]

/-- A disk with an image of two segments: three bytes with two zeros behind them, and two bytes. -/
def demoDisk (k : ℕ) : BitVec 8 :=
  ([(512, 0x7F), (513, 0x45), (514, 0x4C), (515, 0x46), (536, 0x0C), (538, 0x10), (540, 52),
    (556, 2), (569, 0x10), (578, 0x10), (580, 3), (584, 5), (601, 0x12), (609, 0x02), (610, 0x10),
    (612, 2), (616, 2), (4608, 1), (4609, 2), (4610, 3), (5120, 4), (5121, 5)].lookup k).getD 0

theorem demoDisk_loadable : Loadable demoDisk := by
  have hnum : phnum demoDisk = 2 := by decide
  have hindex : ∀ i < phnum demoDisk, i = 0 ∨ i = 1 := fun i hi ↦ by omega
  constructor
  · decide
  · decide
  · intro i hi
    rcases hindex i hi with rfl | rfl <;> constructor <;> decide
  · intro i hi
    rcases hindex i hi with rfl | rfl <;> decide
  · intro i j hij hj
    obtain ⟨rfl, rfl⟩ : i = 0 ∧ j = 1 := by omega
    decide

theorem bootmain_loads_demo : ∃ w', bootmain demoDisk (2 ^ 32) ⟨fun _ ↦ 0xFF, fun _ ↦ 0, 0⟩ =
    some (some 0x10000C, w') ∧
      w'.mem 0x100002 = 3 ∧ w'.mem 0x100004 = 0 ∧ w'.mem 0x100201 = 5 ∧
      w'.mem 0x100400 = 0xFF := by
  have hentry : long demoDisk 536 = 0x10000C := by decide
  obtain ⟨w', hrun, hloaded, hframe⟩ :=
    bootmain_loads demoDisk_loadable le_rfl ⟨fun _ ↦ 0xFF, fun _ ↦ 0, 0⟩
  rw [hentry] at hrun
  refine ⟨w', hrun, (hloaded 0 (by decide) _ (by decide) (by decide)).trans (by decide),
    (hloaded 0 (by decide) _ (by decide) (by decide)).trans (by decide),
    (hloaded 1 (by decide) _ (by decide) (by decide)).trans (by decide),
    hframe _ (by decide) (by decide)⟩

end Jos.Boot
