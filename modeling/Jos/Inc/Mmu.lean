import Mathlib.Data.Nat.Bitwise
import Mathlib.Tactic.Push

/-!
# Addresses, page table entries and the memory map

The macros of `inc/mmu.h` and `inc/types.h`, the memory map of `inc/memlayout.h` and the error
codes of `inc/error.h`, over 32-bit words.

A page table entry is a word: the upper twenty bits are a page frame number, the lower twelve
are flags.  `frame_mkPte` and `flags_mkPte` say that an entry built as the kernel builds them,
`page2pa(pp) | perm | PTE_P`, is read back as the same frame and the same flags.
-/

namespace Jos

/-- A 32-bit machine word: an address, a page table entry, an argument of a system call. -/
abbrev Word := BitVec 32

/-! ## Constants -/

def PGSIZE : ℕ := 4096
def NPDENTRIES : ℕ := 1024
def NPTENTRIES : ℕ := 1024
def PTSIZE : ℕ := PGSIZE * NPTENTRIES

def PTE_P : Word := 0x001
def PTE_W : Word := 0x002
def PTE_U : Word := 0x004
def PTE_PWT : Word := 0x008
def PTE_PCD : Word := 0x010
def PTE_AVAIL : Word := 0xE00
/-- The flags a system call may ask for. -/
def PTE_SYSCALL : Word := PTE_AVAIL ||| PTE_P ||| PTE_W ||| PTE_U

def KERNBASE : Word := 0xF0000000
def IOPHYSMEM : Word := 0x0A0000
def EXTPHYSMEM : Word := 0x100000
def KSTACKTOP : Word := KERNBASE
def KSTKSIZE : Word := 0x8000
def KSTKGAP : Word := 0x8000
def MMIOLIM : Word := KSTACKTOP - 0x400000
def MMIOBASE : Word := MMIOLIM - 0x400000
def ULIM : Word := MMIOBASE
def UVPT : Word := ULIM - 0x400000
def UPAGES : Word := UVPT - 0x400000
def UENVS : Word := UPAGES - 0x400000
def UTOP : Word := UENVS
def UXSTACKTOP : Word := UTOP
def USTACKTOP : Word := UTOP - 0x2000
def MPENTRY_PADDR : Word := 0x7000

/-- Number of page directory entries below `UTOP`, that is `PDX(UTOP)`. -/
def NUPDE : ℕ := 955
/-- Number of pages below `UTOP`, that is `PGNUM(UTOP)`. -/
def NUPG : ℕ := NUPDE * NPTENTRIES

/-! ## Error codes, as the negated values the system calls return -/

def E_BAD_ENV : Word := 2
def E_INVAL : Word := 3
def E_NO_MEM : Word := 4
def E_NO_FREE_ENV : Word := 5
def E_FAULT : Word := 6
def E_IPC_NOT_RECV : Word := 7

/-! ## Address arithmetic -/

def pgnum (la : Word) : ℕ := (la >>> 12).toNat
def pdx (la : Word) : ℕ := ((la >>> 22) &&& 0x3FF).toNat
def ptx (la : Word) : ℕ := ((la >>> 12) &&& 0x3FF).toNat
def pgoff (la : Word) : Word := la &&& 0xFFF
/-- `PGADDR(d, t, o)`. -/
def pgaddr (d t : ℕ) (o : Word) : Word :=
  (BitVec.ofNat 32 d <<< 22) ||| (BitVec.ofNat 32 t <<< 12) ||| o
def pteAddr (pte : Word) : Word := pte &&& ~~~(0xFFF : Word)
def page2pa (pp : ℕ) : Word := BitVec.ofNat 32 pp <<< 12

/-- `ROUNDDOWN(a, n)` and `ROUNDUP(a, n)`, in 32-bit arithmetic. -/
def rounddown (a n : Word) : Word := a - a % n
def roundup (a n : Word) : Word := rounddown (a + n - 1) n

/-- `w & mask`, used as a truth value. -/
def isSet (w mask : Word) : Prop := w &&& mask ≠ 0

instance (w mask : Word) : Decidable (isSet w mask) := inferInstanceAs (Decidable (_ ≠ _))

/-- The frame a page table or directory entry points to. -/
def frame (pte : Word) : ℕ := pgnum (pteAddr pte)

/-- The flag bits of an entry. -/
def flags (pte : Word) : Word := pte &&& 0xFFF

theorem add_one_ofNat (va : Word) (i : ℕ) :
    va + 1 + BitVec.ofNat 32 i = va + BitVec.ofNat 32 (i + 1) := by
  rw [BitVec.ofNat_add, BitVec.add_assoc, BitVec.add_comm 1]
  rfl

theorem pgnum_eq (la : Word) : pgnum la = la.toNat / 4096 := by
  simp [pgnum, Nat.shiftRight_eq_div_pow]

theorem pdx_eq (la : Word) : pdx la = la.toNat / 4194304 := by
  have h := la.isLt
  rw [pdx, BitVec.toNat_and, BitVec.toNat_ushiftRight, Nat.shiftRight_eq_div_pow,
    show (0x3FF : Word).toNat = 2 ^ 10 - 1 by decide, Nat.and_two_pow_sub_one_eq_mod]
  omega

theorem ptx_eq (la : Word) : ptx la = la.toNat / 4096 % 1024 := by
  rw [ptx, BitVec.toNat_and, BitVec.toNat_ushiftRight, Nat.shiftRight_eq_div_pow,
    show (0x3FF : Word).toNat = 2 ^ 10 - 1 by decide, Nat.and_two_pow_sub_one_eq_mod]

theorem pdx_lt (la : Word) : pdx la < 1024 := by
  have := la.isLt
  rw [pdx_eq]
  omega

theorem ptx_lt (la : Word) : ptx la < 1024 := by
  rw [ptx_eq]
  omega

theorem pgnum_eq_pdx_ptx (la : Word) : pgnum la = pdx la * 1024 + ptx la := by
  rw [pgnum_eq, pdx_eq, ptx_eq]
  omega

/-- Below `UTOP` the directory index is one of the user half. -/
theorem pdx_lt_of_lt_UTOP {la : Word} (h : la < UTOP) : pdx la < NUPDE := by
  have h' : la.toNat < UTOP.toNat := h
  rw [show UTOP.toNat = 955 * 4194304 by decide] at h'
  rw [pdx_eq, NUPDE]
  omega

theorem pgnum_lt_of_lt_UTOP {la : Word} (h : la < UTOP) : pgnum la < NUPG := by
  have h' := pdx_lt_of_lt_UTOP h
  have := ptx_lt la
  rw [pgnum_eq_pdx_ptx]
  simp only [NUPG, NUPDE, NPTENTRIES] at *
  omega

/-! ## Entries -/

/-- Clear the low bits. -/
theorem and_high_toNat (w : Word) (n : ℕ) :
    (w &&& (BitVec.allOnes 32 <<< n)).toNat = w.toNat / 2 ^ n * 2 ^ n := by
  have h : w &&& (BitVec.allOnes 32 <<< n) = (w >>> n) <<< n := by
    ext i hi
    by_cases hin : i < n
    · simp only [BitVec.getElem_and, BitVec.getElem_shiftLeft, hin, decide_true, Bool.not_true,
        Bool.false_and, Bool.and_false]
    · have hadd : n + (i - n) = i := by omega
      simp only [BitVec.getElem_and, BitVec.getElem_shiftLeft, hin, decide_false, Bool.not_false,
        Bool.true_and, BitVec.getElem_allOnes, Bool.and_true, BitVec.getElem_ushiftRight, hadd,
        BitVec.getLsbD_eq_getElem hi]
  rw [h, BitVec.toNat_shiftLeft, BitVec.toNat_ushiftRight, Nat.shiftRight_eq_div_pow,
    Nat.shiftLeft_eq, Nat.mod_eq_of_lt]
  exact lt_of_le_of_lt (Nat.div_mul_le_self _ _) w.isLt

theorem pteAddr_toNat (w : Word) : (pteAddr w).toNat = w.toNat / 4096 * 4096 := by
  rw [pteAddr, show ~~~(0xFFF : Word) = BitVec.allOnes 32 <<< 12 by decide]
  exact and_high_toNat w 12

theorem frame_eq (w : Word) : frame w = w.toNat / 4096 := by
  rw [frame, pgnum_eq, pteAddr_toNat]
  omega

theorem page2pa_toNat {p : ℕ} (hp : p < 2 ^ 20) : (page2pa p).toNat = p * 4096 := by
  rw [page2pa, BitVec.toNat_shiftLeft, BitVec.toNat_ofNat, Nat.shiftLeft_eq,
    Nat.mod_eq_of_lt (by omega : p < 2 ^ 32), Nat.mod_eq_of_lt (by omega)]

/-- The address of page number `k`. -/
def pageVa (k : ℕ) : Word := BitVec.ofNat 32 (k * 4096)

theorem pageVa_toNat {k : ℕ} (hk : k < NUPG) : (pageVa k).toNat = k * 4096 := by
  have hk : k < 977920 := hk
  rw [pageVa, BitVec.toNat_ofNat]
  exact Nat.mod_eq_of_lt (by omega)

theorem pgnum_pageVa {k : ℕ} (hk : k < NUPG) : pgnum (pageVa k) = k := by
  rw [pgnum_eq, pageVa_toNat hk]
  omega

theorem pgnum_page2pa {p : ℕ} (hp : p < 2 ^ 20) : pgnum (page2pa p) = p := by
  rw [pgnum_eq, page2pa_toNat hp]
  omega

theorem pgaddr_toNat {d t : ℕ} (hd : d < 1024) (ht : t < 1024) :
    (pgaddr d t 0).toNat = (d * 1024 + t) * 4096 := by
  have hd' : (BitVec.ofNat 32 d <<< 22).toNat = d <<< 22 := by
    rw [BitVec.toNat_shiftLeft, BitVec.toNat_ofNat, Nat.shiftLeft_eq, Nat.shiftLeft_eq,
      Nat.mod_eq_of_lt (by omega : d < 2 ^ 32), Nat.mod_eq_of_lt (by omega)]
  have ht' : (BitVec.ofNat 32 t <<< 12).toNat = t * 4096 := page2pa_toNat (by omega)
  rw [pgaddr, BitVec.toNat_or, BitVec.toNat_or, hd', ht', show (0 : Word).toNat = 0 from rfl,
    Nat.or_zero, ← Nat.shiftLeft_add_eq_or_of_lt (by omega), Nat.shiftLeft_eq]
  omega

theorem pgnum_pgaddr {d t : ℕ} (hd : d < 1024) (ht : t < 1024) :
    pgnum (pgaddr d t 0) = d * 1024 + t := by
  rw [pgnum_eq, pgaddr_toNat hd ht]
  omega

theorem pgaddr_lt_UTOP {d t : ℕ} (hd : d < NUPDE) (ht : t < 1024) : pgaddr d t 0 < UTOP := by
  simp only [NUPDE] at hd
  rw [BitVec.lt_def, pgaddr_toNat (by omega) ht, show UTOP.toNat = 955 * 4194304 by decide]
  omega

/-- The entry the kernel writes for page `pp` with permissions `perm`. -/
def mkPte (pp : ℕ) (perm : Word) : Word := page2pa pp ||| perm ||| PTE_P

theorem mkPte_toNat {p : ℕ} (hp : p < 2 ^ 20) {perm : Word} (hperm : perm.toNat < 4096) :
    (mkPte p perm).toNat = p * 4096 + (perm ||| PTE_P).toNat := by
  have hlow : (perm ||| PTE_P).toNat < 2 ^ 12 := by
    rw [BitVec.toNat_or]
    exact Nat.or_lt_two_pow hperm (by decide)
  rw [mkPte, BitVec.or_assoc, BitVec.toNat_or, page2pa_toNat hp,
    show p * 4096 = p <<< 12 by rw [Nat.shiftLeft_eq], ← Nat.shiftLeft_add_eq_or_of_lt hlow]

theorem frame_mkPte {p : ℕ} (hp : p < 2 ^ 20) {perm : Word} (hperm : perm.toNat < 4096) :
    frame (mkPte p perm) = p := by
  have hlow : (perm ||| PTE_P).toNat < 2 ^ 12 := by
    rw [BitVec.toNat_or]
    exact Nat.or_lt_two_pow hperm (by decide)
  rw [frame_eq, mkPte_toNat hp hperm]
  omega

theorem pteAddr_mkPte {p : ℕ} (hp : p < 2 ^ 20) {perm : Word} (hperm : perm.toNat < 4096) :
    pteAddr (mkPte p perm) = page2pa p := by
  have hframe := frame_mkPte hp hperm
  rw [frame_eq] at hframe
  apply BitVec.eq_of_toNat_eq
  rw [pteAddr_toNat, hframe, page2pa_toNat hp]

theorem flags_toNat (w : Word) : (flags w).toNat = w.toNat % 4096 := by
  rw [flags, BitVec.toNat_and, show (0xFFF : Word).toNat = 2 ^ 12 - 1 by decide,
    Nat.and_two_pow_sub_one_eq_mod]

theorem flags_mkPte {p : ℕ} (hp : p < 2 ^ 20) {perm : Word} (hperm : perm.toNat < 4096) :
    flags (mkPte p perm) = perm ||| PTE_P := by
  have hlow : (perm ||| PTE_P).toNat < 2 ^ 12 := by
    rw [BitVec.toNat_or]
    exact Nat.or_lt_two_pow hperm (by decide)
  apply BitVec.eq_of_toNat_eq
  rw [flags_toNat, mkPte_toNat hp hperm]
  omega

/-! ## Flags as bits -/

theorem isSet_twoPow {w : Word} {i : ℕ} (hi : i < 32) :
    isSet w (BitVec.twoPow 32 i) ↔ w.getLsbD i = true := by
  rw [isSet, BitVec.and_twoPow]
  by_cases h : w.getLsbD i = true
  · simp only [h, if_true, ne_eq, iff_true]
    intro hz
    have := congrArg (fun v : Word ↦ v.getLsbD i) hz
    simp [hi] at this
  · simp [h]

theorem isSet_P {w : Word} : isSet w PTE_P ↔ w.getLsbD 0 = true :=
  isSet_twoPow (i := 0) (by decide)

theorem isSet_W {w : Word} : isSet w PTE_W ↔ w.getLsbD 1 = true :=
  isSet_twoPow (i := 1) (by decide)

theorem isSet_U {w : Word} : isSet w PTE_U ↔ w.getLsbD 2 = true :=
  isSet_twoPow (i := 2) (by decide)


@[simp] theorem isSet_mkPte_P (p : ℕ) (perm : Word) : isSet (mkPte p perm) PTE_P := by
  rw [isSet_P]
  simp [mkPte, PTE_P]

@[simp] theorem isSet_mkPte_W (p : ℕ) (perm : Word) :
    isSet (mkPte p perm) PTE_W ↔ isSet perm PTE_W := by
  simp [isSet_W, mkPte, PTE_P, page2pa]

@[simp] theorem isSet_mkPte_U (p : ℕ) (perm : Word) :
    isSet (mkPte p perm) PTE_U ↔ isSet perm PTE_U := by
  simp [isSet_U, mkPte, PTE_P, page2pa]

/-- The flags of an entry are the permissions and `PTE_P`. -/
theorem isSet_mkPte (p : ℕ) (perm : Word) {mask : Word} (hmask : mask.toNat < 4096) :
    isSet (mkPte p perm) mask ↔ isSet (perm ||| PTE_P) mask := by
  have hlow : page2pa p &&& mask = 0#32 := by
    refine BitVec.eq_of_getLsbD_eq fun i hi ↦ ?_
    rw [BitVec.getLsbD_and, BitVec.getLsbD_zero, page2pa, BitVec.getLsbD_shiftLeft]
    by_cases h : i < 12
    · simp [h]
    · have hbit : mask.getLsbD i = false := Nat.testBit_lt_two_pow (hmask.trans_le
        ((by decide : 4096 ≤ 2 ^ 12).trans (Nat.pow_le_pow_right (by decide) (by omega))))
      rw [hbit, Bool.and_false]
  have hor : mkPte p perm &&& mask = (perm ||| PTE_P) &&& mask := by
    rw [mkPte, BitVec.or_assoc, BitVec.and_or_distrib_right, hlow]
    exact BitVec.zero_or
  rw [isSet, isSet, hor]

@[simp] theorem not_isSet_zero (mask : Word) : ¬ isSet 0#32 mask := by
  simp [isSet]

/-- The flag bits of an entry carry its permissions. -/
theorem isSet_flags_W {w : Word} : isSet (flags w) PTE_W ↔ isSet w PTE_W := by
  simp [isSet_W, flags]

theorem isSet_flags_U {w : Word} : isSet (flags w) PTE_U ↔ isSet w PTE_U := by
  simp [isSet_U, flags]

end Jos
