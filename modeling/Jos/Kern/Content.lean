import Jos.Kern.Run

/-!
# The contents of pages

A page is 4096 bytes, and a user program reads and writes them through its page tables.  A store
changes one byte of one page, and what is stored is read back at every address that is mapped to
that page.
-/

namespace Jos

open Jos.Lib

variable {B : Machine} {M : Pool B} {s : Kern} {l : List ℕ} {el : List Slot} {e : Slot}
  {m m' : Mem} {d : ℕ} {va : Word} {b : BitVec 8}

namespace Mem

/-- Byte `i` of page `p`. -/
def byte (m : Mem) (p i : ℕ) : BitVec 8 := getByte (m.phys p (i / 4)) (i % 4)

theorem getLsbD_255 (j : ℕ) : (255 : Word).getLsbD j = decide (j < 8) := by
  have h : ∀ j : Fin 32, (255 : Word).getLsbD j = decide ((j : ℕ) < 8) := by decide
  by_cases hj : j < 32
  · exact h ⟨j, hj⟩
  · rw [BitVec.getLsbD_of_ge _ _ (by omega), decide_eq_false (by omega)]

/-- The bits of a word with a byte replaced. -/
theorem getLsbD_setByte (w : Word) (i : ℕ) (b : BitVec 8) {j : ℕ} (hj : j < 32) :
    (setByte w i b).getLsbD j =
      if 8 * i ≤ j ∧ j - 8 * i < 8 then b.getLsbD (j - 8 * i) else w.getLsbD j := by
  simp only [setByte, BitVec.getLsbD_or, BitVec.getLsbD_and, BitVec.getLsbD_not,
    BitVec.getLsbD_shiftLeft, BitVec.getLsbD_setWidth, getLsbD_255]
  by_cases h1 : 8 * i ≤ j
  · by_cases h2 : j - 8 * i < 8
    · simp [h1, h2, hj, Nat.not_lt.mpr h1, show j - 8 * i < 32 by omega]
    · simp [h1, h2, hj, Nat.not_lt.mpr h1, BitVec.getLsbD_of_ge b (j - 8 * i) (Nat.not_lt.mp h2)]
  · simp [h1, hj, Nat.not_le.mp h1]

theorem getByte_setByte (w : Word) {i j : ℕ} (hi : i < 4) (hj : j < 4) (b : BitVec 8) :
    getByte (setByte w i b) j = if j = i then b else getByte w j := by
  ext n hn
  rw [getByte, BitVec.getElem_setWidth, BitVec.getLsbD_ushiftRight,
    getLsbD_setByte w i b (by omega)]
  by_cases hji : j = i
  · subst hji
    rw [if_pos ⟨by omega, by omega⟩, if_pos rfl, show 8 * j + n - 8 * j = n by omega,
      BitVec.getLsbD_eq_getElem hn]
  · rw [if_neg (by omega), if_neg hji, getByte, BitVec.getElem_setWidth,
      BitVec.getLsbD_ushiftRight]

/-- The byte of a page that an address is mapped to. -/
def place (m : Mem) (d : ℕ) (va : Word) : Option (ℕ × ℕ) :=
  (m.walk d va).map fun w ↦ (frame w.2, va.toNat % 4096)

theorem place_eq_some {x : ℕ × ℕ} : m.place d va = some x ↔
    ∃ pde pte, m.walk d va = some (pde, pte) ∧ x = (frame pte, va.toNat % 4096) := by
  rw [place, Option.map_eq_some_iff, Prod.exists]
  simp only [eq_comm]

/-- A load reads a byte of the page that the address is mapped to. -/
theorem loadByte_eq (m : Mem) (d : ℕ) (va : Word) : m.loadByte d va =
    (m.walk d va).map fun w ↦ m.byte (frame w.2) (va.toNat % 4096) := by
  cases h : m.walk d va with
  | none => simp [loadByte, h]
  | some w => simp [loadByte, h, byte, Nat.mod_mod_of_dvd _ (show 4 ∣ 4096 by decide)]

/-- A store changes one byte. -/
theorem byte_of_storeByte (h : m.storeByte d va b = some m') : ∃ pde pte,
    m.walk d va = some (pde, pte) ∧ isSet pde PTE_W ∧ isSet pte PTE_W ∧
      ∀ p i, m'.byte p i =
        if p = frame pte ∧ i = va.toNat % 4096 then b else m.byte p i := by
  simp only [storeByte, Option.bind_eq_bind, Option.bind_eq_some_iff, Prod.exists] at h
  obtain ⟨pde, pte, hw, h⟩ := h
  split at h
  swap
  · cases h
  next hW =>
  obtain rfl := Option.some.inj h
  refine ⟨pde, pte, hw, hW.1, hW.2, fun p i ↦ ?_⟩
  have hmod : va.toNat % 4 = va.toNat % 4096 % 4 :=
    (Nat.mod_mod_of_dvd _ (show 4 ∣ 4096 by decide)).symm
  by_cases hp : p = frame pte
  swap
  · rw [if_neg fun hc ↦ hp hc.1, byte, phys_write_of_ne_frame _ _ _ hp, byte]
  subst hp
  by_cases hi : i / 4 = va.toNat % 4096 / 4
  swap
  · rw [if_neg fun hc ↦ hi (congrArg (· / 4) hc.2), byte, phys_write_of_ne_index _ _ _ hi, byte]
  rw [byte, hi, phys_write_self, hmod]
  rw [getByte_setByte _ (Nat.mod_lt _ (by decide)) (Nat.mod_lt _ (by decide))]
  by_cases hj : i % 4 = va.toNat % 4096 % 4
  · rw [if_pos hj, if_pos ⟨rfl, by omega⟩]
  · rw [if_neg hj, if_neg fun hc ↦ hj (congrArg (· % 4) hc.2), byte, hi]

end Mem

/-! ## Through the page tables -/

/-- The addresses of a range below `UTOP`. -/
theorem add_ofNat_lt_UTOP {n i : ℕ} (hva : va.toNat + n ≤ UTOP.toNat) (hi : i < n) :
    (va + BitVec.ofNat 32 i).toNat = va.toNat + i ∧ va + BitVec.ofNat 32 i < UTOP := by
  have hu : UTOP.toNat = 4005560320 := rfl
  have hnat : (va + BitVec.ofNat 32 i).toNat = va.toNat + i := by
    rw [BitVec.toNat_add, BitVec.toNat_ofNat]
    omega
  refine ⟨hnat, ?_⟩
  rw [BitVec.lt_def, hnat]
  omega

namespace Inv

variable (h : Inv B M s l el)

include h

/-- Stores into mapped pages change no translation. -/
theorem stored_walk (hs : Stored s m') (hd : s.dirs e = some d) (hva : va < UTOP) :
    m'.walk d va = s.mem.walk d va := by
  have hpde : m'.phys d (pdx va) = s.mem.phys d (pdx va) := by rw [h.stored_dir hs hd]
  rw [Mem.walk, Mem.walk, hpde]
  by_cases hP : isSet (s.mem.phys d (pdx va)) PTE_P
  swap
  · simp [hP]
  have hi : pdx va < NUPDE := by
    rw [← pgnum_div]
    exact div_lt_NUPDE (pgnum_lt_of_lt_UTOP hva)
  have hk : target B s.mem s.dirs (.table e ⟨pdx va, hi⟩) =
      some (frame (s.mem.phys d (pdx va))) := by
    rw [target_table hd hi]
    exact entryFrame_of_isSet hP
  rw [h.stored_structural hs (Key.table_structural _ _) hk]

/-- The first of a run of stores, and the others. -/
theorem storeBytes_cons {bs : List (BitVec 8)} (hd : s.dirs e = some d)
    (hva : va.toNat + (b :: bs).length ≤ UTOP.toNat)
    (hrun : storeBytes s.mem d va (b :: bs) = some m') : ∃ m₁,
    va < UTOP ∧ s.mem.storeByte d va b = some m₁ ∧ Stored s m₁ ∧ Inv B M (s.setMem m₁) l el ∧
      (va + 1).toNat = va.toNat + 1 ∧ (va + 1).toNat + bs.length ≤ UTOP.toNat ∧
      storeBytes (s.setMem m₁).mem d (va + 1) bs = some m' := by
  simp only [storeBytes, Option.bind_eq_bind, Option.bind_eq_some_iff] at hrun
  obtain ⟨m₁, hb, hrun⟩ := hrun
  have hu : UTOP.toNat = 4005560320 := rfl
  rw [List.length_cons] at hva
  have hlt : va < UTOP := by
    rw [BitVec.lt_def]
    omega
  have hnext : (va + 1).toNat = va.toNat + 1 := by
    rw [BitVec.toNat_add, show (1 : Word).toNat = 1 from rfl]
    omega
  have hs := Kern.storeByte_stored hd hlt hb
  exact ⟨m₁, hlt, hb, hs, h.stored_inv hs, hnext, by omega, hrun⟩

/-- A run of stores leaves every address with another offset alone. -/
theorem loadByte_storeBytes_of_ne {bs : List (BitVec 8)} (hd : s.dirs e = some d)
    (hva : va.toNat + bs.length ≤ UTOP.toNat) (hrun : storeBytes s.mem d va bs = some m')
    {va' : Word} (hva' : va' < UTOP)
    (hne : ∀ i < bs.length, va'.toNat % 4096 ≠ (va.toNat + i) % 4096) :
    m'.loadByte d va' = s.mem.loadByte d va' := by
  induction bs generalizing s va with
  | nil =>
      obtain rfl := Option.some.inj hrun
      rfl
  | cons b bs ih =>
      obtain ⟨m₁, -, hb, hs, h₁, hnext, hend, hrun⟩ := h.storeBytes_cons hd hva hrun
      rw [List.length_cons] at hne
      have hrest := ih (s := s.setMem m₁) h₁ hd hend hrun fun i hi ↦ by
        rw [hnext, show va.toNat + 1 + i = va.toNat + (i + 1) by omega]
        exact hne (i + 1) (by omega)
      refine hrest.trans ?_
      show m₁.loadByte d va' = s.mem.loadByte d va'
      obtain ⟨pde, pte, hw, -, -, hbyte⟩ := Mem.byte_of_storeByte hb
      rw [Mem.loadByte_eq, Mem.loadByte_eq, h.stored_walk hs hd hva']
      congr 1
      funext w
      rw [hbyte, if_neg fun hc ↦ hne 0 (by omega) (by rw [Nat.add_zero]; exact hc.2)]

/-- A run of stores that is no longer than a page is read back. -/
theorem loadByte_storeBytes {bs : List (BitVec 8)} (hlen : bs.length ≤ 4096)
    (hd : s.dirs e = some d) (hva : va.toNat + bs.length ≤ UTOP.toNat)
    (hrun : storeBytes s.mem d va bs = some m') {i : ℕ} (hi : i < bs.length) :
    m'.loadByte d (va + BitVec.ofNat 32 i) = some (bs.get ⟨i, hi⟩) := by
  induction bs generalizing s va i with
  | nil => cases hi
  | cons b bs ih =>
      obtain ⟨m₁, hlt, hb, hs, h₁, hnext, hend, hrun⟩ := h.storeBytes_cons hd hva hrun
      rw [List.length_cons] at hlen
      cases i with
      | zero =>
          -- the bytes after the first have other offsets
          have hrest := h₁.loadByte_storeBytes_of_ne hd hend hrun hlt
            fun j hj ↦ by omega
          rw [BitVec.add_zero, hrest]
          obtain ⟨pde, pte, hw, -, -, hbyte⟩ := Mem.byte_of_storeByte hb
          show m₁.loadByte d va = some b
          rw [Mem.loadByte_eq, h.stored_walk hs hd hlt, hw, Option.map_some, hbyte,
            if_pos ⟨rfl, rfl⟩]
      | succ i =>
          have hrest := ih (s := s.setMem m₁) (i := i) h₁ (by omega) hd hend hrun
              (by simpa using hi)
          rw [← add_one_ofNat]
          exact hrest

/-- A run of stores changes no other byte of any page. -/
theorem byte_storeBytes_of_ne {bs : List (BitVec 8)} (hd : s.dirs e = some d)
    (hva : va.toNat + bs.length ≤ UTOP.toNat) (hrun : storeBytes s.mem d va bs = some m')
    {x : ℕ × ℕ} (hne : ∀ i < bs.length, s.mem.place d (va + BitVec.ofNat 32 i) ≠ some x) :
    m'.byte x.1 x.2 = s.mem.byte x.1 x.2 := by
  induction bs generalizing s va with
  | nil =>
      obtain rfl := Option.some.inj hrun
      rfl
  | cons b bs ih =>
      obtain ⟨m₁, hlt, hb, hs, h₁, hnext, hend, hrun⟩ := h.storeBytes_cons hd hva hrun
      have hrest := ih (s := s.setMem m₁) h₁ hd hend hrun fun i hi ↦ by
        have hi' : i + 1 < (b :: bs).length := Nat.succ_lt_succ hi
        rw [add_one_ofNat, Mem.place, Kern.mem_setMem,
          h.stored_walk hs hd (add_ofNat_lt_UTOP hva hi').2, ← Mem.place]
        exact hne (i + 1) hi'
      rw [hrest, Kern.mem_setMem]
      obtain ⟨pde, pte, hw, -, -, hbyte⟩ := Mem.byte_of_storeByte hb
      rw [hbyte, if_neg]
      rintro ⟨hp, hi⟩
      refine hne 0 (by simp) (Mem.place_eq_some.mpr ⟨pde, pte, ?_, ?_⟩)
      · rw [BitVec.add_zero]
        exact hw
      · rw [BitVec.add_zero, ← hp, ← hi]

/-- A run of stores goes through where the user may write. -/
theorem exists_storeBytes {bs : List (BitVec 8)} (hd : s.dirs e = some d)
    (hva : va.toNat + bs.length ≤ UTOP.toNat)
    (hW : ∀ i < bs.length, s.mem.UserWritable d (va + BitVec.ofNat 32 i)) :
    ∃ m', storeBytes s.mem d va bs = some m' := by
  have hu : UTOP.toNat = 4005560320 := rfl
  induction bs generalizing s va with
  | nil => exact ⟨s.mem, rfl⟩
  | cons b bs ih =>
      obtain ⟨pde, pte, hw, -, hW₀⟩ := hW 0 (Nat.succ_pos _)
      rw [BitVec.add_zero] at hw
      obtain ⟨m₁, hb⟩ : ∃ m₁, s.mem.storeByte d va b = some m₁ := by
        rw [Mem.storeByte, hw]
        exact ⟨_, if_pos hW₀⟩
      have hlt : va < UTOP := by
        simpa using (add_ofNat_lt_UTOP hva (Nat.succ_pos _)).2
      have hs := Kern.storeByte_stored hd hlt hb
      have hend : (va + 1).toNat + bs.length ≤ UTOP.toNat := by
        rw [List.length_cons] at hva
        rw [BitVec.toNat_add, show (1 : Word).toNat = 1 from rfl]
        omega
      obtain ⟨m', hrun⟩ := ih (s := s.setMem m₁) (h.stored_inv hs) hd hend fun i hi ↦ by
        have hi' : i + 1 < (b :: bs).length := Nat.succ_lt_succ hi
        rw [add_one_ofNat, Mem.UserWritable, Kern.mem_setMem,
          h.stored_walk hs hd (add_ofNat_lt_UTOP hva hi').2]
        exact hW (i + 1) hi'
      refine ⟨m', ?_⟩
      rw [storeBytes, hb]
      exact hrun

end Inv

end Jos
