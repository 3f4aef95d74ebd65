import Jos.Kern.Content
import Jos.Kern.RegionAlloc

/-!
# Loading a program (`load_icode` in `kern/env.c`)

`load_icode` switches to the page directory of the new environment and builds the segments there:
each is allocated, cleared and filled from the ELF image.  The pages of a segment are freshly
allocated, so that nothing else refers to them, and what is stored in one segment leaves the others
alone.
-/

namespace Jos

open Jos.Lib

/-- The bytes of an ELF image, from its first one on.  The image lies in the kernel's memory, and no
pointer into it wraps around. -/
abbrev ElfImage := ℕ → BitVec 8

/-- `struct Proghdr`: the fields that `load_icode` reads. -/
structure Proghdr where
  pType : Word
  pOffset : Word
  pVa : Word
  pFilesz : Word
  pMemsz : Word
deriving DecidableEq

def ELF_MAGIC : Word := 0x464C457F
def ELF_PROG_LOAD : Word := 1

namespace ElfImage

variable (binary : ElfImage)

def half (o : ℕ) : BitVec 16 := binary (o + 1) ++ binary o

def word (o : ℕ) : Word := binary.half (o + 2) ++ binary.half o

/-! `struct Elf` -/

def eMagic : Word := binary.word 0
def eEntry : Word := binary.word 24
def ePhoff : Word := binary.word 28
def ePhnum : BitVec 16 := binary.half 44

/-- The program header at the offset `o` -/
def proghdr (o : ℕ) : Proghdr :=
  ⟨binary.word o, binary.word (o + 4), binary.word (o + 8), binary.word (o + 16),
    binary.word (o + 20)⟩

/-- The program headers from `ph` up to `eph` -/
def proghdrs : List Proghdr :=
  (List.range binary.ePhnum.toNat).map fun i ↦ binary.proghdr (binary.ePhoff.toNat + 32 * i)

/-- The `n` bytes from the offset `o` on -/
def bytesFrom (o n : ℕ) : List (BitVec 8) := (List.range n).map fun k ↦ binary (o + k)

end ElfImage

section

variable (B : Machine)

/-- A round of the loop of `load_icode`, for an environment with the page directory `d`, while
`cr3` is in force. -/
def loadProghdr (d cr3 : ℕ) (binary : ElfImage) (m : Mem) (ph : Proghdr) : Option Mem :=
  if ph.pType = ELF_PROG_LOAD then do
    let (_, m) ← regionAlloc B m d ph.pVa ph.pMemsz
    let m ← storeBytes m cr3 ph.pVa (List.replicate ph.pMemsz.toNat 0)
    storeBytes m cr3 ph.pVa (binary.bytesFrom ph.pOffset.toNat ph.pFilesz.toNat)
  else some m

/-- `load_icode`, called while `cr3` is in force.  The result has the page directory in force after
it. -/
def loadIcode (s : Kern) (cr3 : ℕ) (e : Slot) (binary : ElfImage) : Option (Kern × ℕ) := do
  let d ← (s.envs e).envPgdir
  let cr3Store := cr3
  let cr3 := d
  if binary.eMagic ≠ ELF_MAGIC then none
  else
    let m ← binary.proghdrs.foldlM (loadProghdr B d cr3 binary) s.mem
    let cr3 := cr3Store
    let (_, m) ← loadStack B d m
    return ((s.setMem m).modEnv e fun env ↦
      { env with envTf := { env.envTf with eip := binary.eEntry } }, cr3)

end

/-! ## Bytes of an address space -/

variable {B : Machine} {M : Pool B} {s : Kern} {l l' : List ℕ} {el : List Slot} {e : Slot}
  {d p : ℕ} {m' : Mem} {a va f : Word} {bs : List (BitVec 8)}

/-- The pages of `e` have no other reference. -/
def Kern.Unshared (B : Machine) (s : Kern) (e : Slot) : Prop :=
  ∀ v p f, s.space e v = some (p, f) → s.refs B p = 1

theorem Kern.loadByte_of_space (hd : s.dirs e = some d) (hp : s.space e (pgnum a) = some (p, f)) :
    s.mem.loadByte d a = some (s.mem.byte p (a.toNat % 4096)) := by
  obtain ⟨pde, pte, hw, rfl, -⟩ := Kern.walk_of_space hd hp
  rw [Mem.loadByte_eq, hw]
  rfl

/-- No two pages of `e` are mapped to one. -/
theorem Kern.Unshared.inj (h : s.Unshared B e) {v w : ℕ} {f f' : Word}
    (hv : s.space e v = some (p, f)) (hw : s.space e w = some (p, f')) : v = w := by
  by_contra hne
  have hcard : ({v, w} : Finset ℕ).card ≤ s.refs B p := by
    refine card_le_owners (g := Key.vpn) fun x hx ↦ ?_
    have hmap : ∃ f, s.space e x = some (p, f) := by
      rcases Finset.mem_insert.mp hx with rfl | hx
      · exact ⟨f, hv⟩
      · rw [Finset.mem_singleton.mp hx]
        exact ⟨f', hw⟩
    obtain ⟨f, hspace⟩ := hmap
    obtain ⟨hlt, htar⟩ := Kern.target_of_space (B := B) hspace
    exact ⟨_, htar, rfl⟩
  rw [Finset.card_pair hne, h v p f hv] at hcard
  omega

/-- The user may write where a page is mapped for it. -/
theorem PdesOpen.userWritable (ho : PdesOpen B s.mem s.dirs) (hd : s.dirs e = some d)
    (ha : a < UTOP) (hp : s.space e (pgnum a) = some (p, f)) (hU : isSet f PTE_U)
    (hW : isSet f PTE_W) : s.mem.UserWritable d a := by
  obtain ⟨pde, pte, hw, -, rfl⟩ := Kern.walk_of_space hd hp
  obtain ⟨⟨rfl, hP⟩, -, -⟩ := Mem.walk_eq_some.mp hw
  have hi : pdx a < NUPDE := by
    rw [← pgnum_div]
    exact div_lt_NUPDE (pgnum_lt_of_lt_UTOP ha)
  obtain ⟨hpU, hpW⟩ := ho.user e d _ hd hi hP
  exact ⟨_, pte, hw, ⟨hpU, isSet_flags_U.mp hU⟩, hpW, isSet_flags_W.mp hW⟩

namespace Inv

variable (h : Inv B M s l el)

include h

theorem unshared_stored (hu : s.Unshared B e) (hs : Stored s m') : (s.setMem m').Unshared B e := by
  intro v p f hp
  rw [h.stored_space hs] at hp
  show owners (target B m' s.dirs) p = 1
  rw [h.stored_target hs]
  exact hu v p f hp

/-- A store changes the byte at one address. -/
theorem loadByte_storeByte (hu : s.Unshared B e) (hd : s.dirs e = some d) (hva : va < UTOP)
    {b : BitVec 8} (hrun : s.mem.storeByte d va b = some m') (ha : a < UTOP) :
    m'.loadByte d a = if a = va then some b else s.mem.loadByte d a := by
  obtain ⟨pde, pte, hw, -, -, hbyte⟩ := Mem.byte_of_storeByte hrun
  have hs := Kern.storeByte_stored hd hva hrun
  rw [Mem.loadByte_eq, h.stored_walk hs hd ha]
  split
  · next heq =>
      subst heq
      rw [hw, Option.map_some, hbyte, if_pos ⟨rfl, rfl⟩]
  · next hne =>
      rw [Mem.loadByte_eq]
      cases hwa : s.mem.walk d a with
      | none => rfl
      | some w =>
          obtain ⟨pde', pte'⟩ := w
          rw [Option.map_some, Option.map_some, hbyte, if_neg]
          rintro ⟨hframe, hoff⟩
          -- the two addresses are the same byte of the same page
          have hv := Kern.walk_space hd hva hw
          have hv' := Kern.walk_space hd ha hwa
          rw [hframe] at hv'
          have hpage := hu.inj hv' hv
          rw [pgnum_eq, pgnum_eq] at hpage
          exact hne (BitVec.eq_of_toNat_eq (by omega))

/-- A run of stores changes the bytes of its range. -/
theorem loadByte_storeBytes_iff (hu : s.Unshared B e) (hd : s.dirs e = some d)
    (hva : va.toNat + bs.length ≤ UTOP.toNat) (hrun : storeBytes s.mem d va bs = some m')
    (ha : a < UTOP) : m'.loadByte d a =
      if va.toNat ≤ a.toNat ∧ a.toNat < va.toNat + bs.length then bs[a.toNat - va.toNat]?
      else s.mem.loadByte d a := by
  induction bs generalizing s va with
  | nil =>
      obtain rfl := Option.some.inj hrun
      rw [if_neg fun hc ↦ by rw [List.length_nil] at hc; omega]
  | cons b bs ih =>
      obtain ⟨m₁, hlt, hb, hs, h₁, hnext, hend, hrun⟩ := h.storeBytes_cons hd hva hrun
      have hrest := ih (s := s.setMem m₁) h₁ (h.unshared_stored hu hs) hd hend hrun
      rw [hrest, hnext, Kern.mem_setMem, h.loadByte_storeByte hu hd hlt hb ha, List.length_cons]
      by_cases heq : a = va
      · subst heq
        rw [if_neg (by omega), if_pos rfl, if_pos (by omega), Nat.sub_self]
        rfl
      · have hne : a.toNat ≠ va.toNat := fun hc ↦ heq (BitVec.eq_of_toNat_eq hc)
        rw [if_neg heq]
        by_cases hin : va.toNat + 1 ≤ a.toNat ∧ a.toNat < va.toNat + 1 + bs.length
        · rw [if_pos hin, if_pos (by omega),
            show a.toNat - va.toNat = a.toNat - (va.toNat + 1) + 1 by omega,
            List.getElem?_cons_succ]
        · rw [if_neg hin, if_neg (by omega)]

end Inv

/-! ## The region of a segment -/

theorem Kern.onlyIn_eq_empty {v n : ℕ} (h : ∀ w, v ≤ w → w < v + n → s.space e w = none) :
    s.onlyIn B e v n = ∅ := by
  refine Finset.eq_empty_of_forall_notMem fun q hq ↦ ?_
  obtain ⟨-, hpos, heq⟩ := Kern.mem_onlyIn.mp hq
  rw [Kern.timesIn_eq_zero fun w h1 h2 ↦ by rw [h w h1 h2]; exact (Option.some_ne_none q).symm]
    at heq
  omega

/-- The loop does not run out of memory if there are enough pages for all rounds. -/
theorem Kern.not_short_of_le {v n : ℕ} (h : n + (newTables s.mem d v n).card ≤ l.length) :
    ¬ s.Short B l e d v n ∧ ¬ s.Loses B l e d v n := by
  cases n with
  | zero => exact ⟨id, id⟩
  | succ k =>
      have hsub : newTables s.mem d v k ⊆ newTables s.mem d v (k + 1) := by
        intro i hi
        obtain ⟨⟨w, h1, h2, hw⟩, hno⟩ := mem_newTables.mp hi
        exact mem_newTables.mpr ⟨⟨w, h1, by omega, hw⟩, hno⟩
      have hle := Finset.card_le_card hsub
      constructor
      · intro hc
        rw [Kern.Short] at hc
        omega
      · rintro ⟨hnew, hc⟩
        omega

/-- `region_alloc` of a region where nothing is mapped, with enough free pages. -/
theorem Inv.regionAlloc_fresh (h : Inv B M s l el) (hb : Bounded B s.mem s.dirs)
    (hd : s.dirs e = some d) {len : Word} (hU : va.toNat + len.toNat ≤ UTOP.toNat)
    (hnone : ∀ w, pgnum va ≤ w → w < pgnum va + regionRounds va len → s.space e w = none)
    (henough : regionRounds va len + (newTables s.mem d (pgnum va) (regionRounds va len)).card ≤
      l.length) :
    ∃ m' l', regionAlloc B s.mem d va len = some (true, m') ∧ Inv B M (s.setMem m') l' el ∧
      Bounded B m' s.dirs ∧
      Allotted B s e (Set.Ico (pgnum va) (pgnum va + regionRounds va len)) m' ∧
      l'.length + regionRounds va len +
          (newTables s.mem d (pgnum va) (regionRounds va len)).card = l.length ∧
      Tables B s d (pgnum va) (regionRounds va len) m' := by
  have htop : UTOP.toNat = 4005560320 := rfl
  have hup : roundup (va + len) 0x1000 ≤ UTOP := by
    rw [BitVec.le_def, roundup_toNat, BitVec.toNat_add]
    omega
  obtain ⟨hns, hnl⟩ := Kern.not_short_of_le (B := B) (e := e) henough
  rcases h.regionAlloc_spec hb hd fun _ ↦ hup with ⟨-, hc⟩ | ⟨hc, -⟩ |
    ⟨-, -, m', l', hrun, hinv, hb', hall, hcnt, htabs⟩
  · exact absurd hc hns
  · exact absurd hc hnl
  · rw [Kern.onlyIn_eq_empty hnone, Finset.card_empty, Nat.add_zero] at hcnt
    exact ⟨m', l', hrun, hinv, hb', hall, hcnt, htabs⟩

namespace Allotted

variable {V : Set ℕ} (hall : Allotted B s e V m')

include hall

theorem unshared (hu : s.Unshared B e) : (s.setMem m').Unshared B e := by
  intro v p f hp
  by_cases hv : v ∈ V
  · obtain ⟨q, hq, -, hrefs, -⟩ := hall.mapped v hv
    obtain ⟨rfl, -⟩ := Prod.mk.inj (Option.some.inj (hp.symm.trans hq))
    exact hrefs
  · have hold := hp
    rw [hall.others e v fun _ ↦ hv] at hold
    obtain ⟨hlt, htar⟩ := Kern.target_of_space (B := B) hp
    have hle := (hall.kept e v p f (fun _ ↦ hv) hold).2
    rw [hu v p f hold] at hle
    exact le_antisymm hle (owners_pos htar)

/-- What was mapped before is not changed. -/
theorem loadByte_kept (hd : s.dirs e = some d) (hv : pgnum a ∉ V)
    (hp : s.space e (pgnum a) = some (p, f)) : m'.loadByte d a = s.mem.loadByte d a := by
  have hnew : (s.setMem m').space e (pgnum a) = some (p, f) :=
    (hall.others e _ fun _ ↦ hv).trans hp
  have hphys := (hall.kept e _ p f (fun _ ↦ hv) hp).1
  rw [Kern.loadByte_of_space hd hp]
  refine (Kern.loadByte_of_space (s := s.setMem m') hd hnew).trans ?_
  rw [Mem.byte, Kern.mem_setMem, hphys]
  rfl

end Allotted

/-- Clearing `n` bytes and storing `bs` over the first of them. -/
theorem Inv.clearStore (h : Inv B M s l el) (hu : s.Unshared B e) (hd : s.dirs e = some d) {n : ℕ}
    (hva : va.toNat + n ≤ UTOP.toNat) (hbs : bs.length ≤ n)
    (hW : ∀ i < n, s.mem.UserWritable d (va + BitVec.ofNat 32 i)) :
    ∃ m₁ m', storeBytes s.mem d va (List.replicate n 0) = some m₁ ∧
      storeBytes m₁ d va bs = some m' ∧ Stored s m' ∧ ∀ a, a < UTOP → m'.loadByte d a =
        if va.toNat ≤ a.toNat ∧ a.toNat < va.toNat + n then some (bs[a.toNat - va.toNat]?.getD 0)
        else s.mem.loadByte d a := by
  have hlen : (List.replicate n (0 : BitVec 8)).length = n := List.length_replicate
  have hva₀ : va.toNat + (List.replicate n (0 : BitVec 8)).length ≤ UTOP.toNat := by rwa [hlen]
  have hva₁ : va.toNat + bs.length ≤ UTOP.toNat := by omega
  obtain ⟨m₁, hzero⟩ := h.exists_storeBytes hd hva₀ fun i hi ↦ hW i (by rwa [hlen] at hi)
  have hs₁ := h.storeBytes_stored hd hva₀ hzero
  have h₁ := h.stored_inv hs₁
  obtain ⟨m', hdata⟩ := h₁.exists_storeBytes (s := s.setMem m₁) hd hva₁ fun i hi ↦ by
    rw [Mem.UserWritable, Kern.mem_setMem, h.stored_walk hs₁ hd (add_ofNat_lt_UTOP hva₁ hi).2]
    exact hW i (by omega)
  have hs' := h₁.storeBytes_stored (s := s.setMem m₁) hd hva₁ hdata
  refine ⟨m₁, m', hzero, hdata, h.stored_trans hs₁ hs', fun a ha ↦ ?_⟩
  rw [h₁.loadByte_storeBytes_iff (s := s.setMem m₁) (h.unshared_stored hu hs₁) hd hva₁ hdata ha,
    Kern.mem_setMem, h.loadByte_storeBytes_iff hu hd hva₀ hzero ha, hlen]
  by_cases hin : va.toNat ≤ a.toNat ∧ a.toNat < va.toNat + n
  · rw [if_pos hin, if_pos hin, List.getElem?_replicate_of_lt (by omega)]
    split
    · next hlt => rw [List.getElem?_eq_getElem (by omega), Option.getD_some]
    · next hge => rw [List.getElem?_eq_none (by omega), Option.getD_none]
  · rw [if_neg hin, if_neg hin, if_neg fun hc ↦ hin ⟨hc.1, by omega⟩]

/-! ## One segment -/

namespace Proghdr

/-- The pages that a segment touches -/
def pages (ph : Proghdr) : Finset ℕ :=
  (Finset.Ico ph.pVa.toNat (ph.pVa.toNat + ph.pMemsz.toNat)).image (· / 4096)

/-- What `load_icode` may expect of a segment: it is not empty, has no more bytes in the file than
in memory, and lies below the page of the stack. -/
structure Fits (ph : Proghdr) : Prop where
  memsz : 1 ≤ ph.pMemsz.toNat
  filesz : ph.pFilesz.toNat ≤ ph.pMemsz.toNat
  below : ph.pVa.toNat + ph.pMemsz.toNat ≤ (USTACKTOP - 0x1000).toNat

/-- Byte `k` of a segment in memory -/
def byteOf (ph : Proghdr) (binary : ElfImage) (k : ℕ) : BitVec 8 :=
  if k < ph.pFilesz.toNat then binary (ph.pOffset.toNat + k) else 0

variable {ph : Proghdr} (h : ph.Fits)

include h

theorem Fits.below_UTOP : ph.pVa.toNat + ph.pMemsz.toNat ≤ UTOP.toNat :=
  h.below.trans (by decide)

theorem Fits.pages_eq : ph.pages =
    Finset.Ico (pgnum ph.pVa) (pgnum ph.pVa + regionRounds ph.pVa ph.pMemsz) := by
  have hbelow := h.below_UTOP
  have htop : UTOP.toNat = 4005560320 := rfl
  have hpos := h.memsz
  ext v
  rw [pages, Finset.mem_image, Finset.mem_Ico, pgnum_eq, regionRounds, roundup_toNat,
    rounddown_toNat, BitVec.toNat_add, PGSIZE]
  simp only [Finset.mem_Ico]
  constructor
  · rintro ⟨a, ⟨h1, h2⟩, rfl⟩
    omega
  · rintro ⟨h1, h2⟩
    by_cases hv : ph.pVa.toNat ≤ v * 4096
    · exact ⟨v * 4096, ⟨hv, by omega⟩, by omega⟩
    · exact ⟨ph.pVa.toNat, ⟨le_rfl, by omega⟩, by omega⟩

theorem Fits.lt_stackPage {v : ℕ} (hv : v ∈ ph.pages) : v < pgnum (USTACKTOP - 0x1000) := by
  have hbelow := h.below
  have hstack : (USTACKTOP - 0x1000).toNat = 4005548032 := rfl
  obtain ⟨a, ha, rfl⟩ := Finset.mem_image.mp hv
  rw [Finset.mem_Ico] at ha
  rw [pgnum_eq]
  omega

/-- The address of a byte is in one of the pages. -/
theorem Fits.byte_mem {k : ℕ} (hk : k < ph.pMemsz.toNat) :
    (ph.pVa + BitVec.ofNat 32 k).toNat = ph.pVa.toNat + k ∧ ph.pVa + BitVec.ofNat 32 k < UTOP ∧
      pgnum (ph.pVa + BitVec.ofNat 32 k) ∈ ph.pages := by
  obtain ⟨hnat, hlt⟩ := add_ofNat_lt_UTOP h.below_UTOP hk
  refine ⟨hnat, hlt, Finset.mem_image.mpr ⟨ph.pVa.toNat + k, Finset.mem_Ico.mpr ?_, ?_⟩⟩
  · omega
  · rw [pgnum_eq, hnat]

omit h in
theorem bytesFrom_eq (binary : ElfImage) (k : ℕ) :
    (binary.bytesFrom ph.pOffset.toNat ph.pFilesz.toNat)[k]?.getD 0 = ph.byteOf binary k := by
  rw [ElfImage.bytesFrom, List.getElem?_map, byteOf]
  split
  · next hlt => rw [List.getElem?_range hlt]; rfl
  · next hge =>
      rw [List.getElem?_eq_none (by rw [List.length_range]; exact not_lt.mp hge)]
      rfl

end Proghdr

/-! ## The loop -/

/-- The pages that the segments touch -/
def pagesOf (phs : List Proghdr) : Finset ℕ := phs.foldr (fun ph V ↦ ph.pages ∪ V) ∅

theorem pagesOf_cons (ph : Proghdr) (phs : List Proghdr) :
    pagesOf (ph :: phs) = ph.pages ∪ pagesOf phs := rfl

theorem mem_pagesOf {phs : List Proghdr} {v : ℕ} :
    v ∈ pagesOf phs ↔ ∃ ph ∈ phs, v ∈ ph.pages := by
  induction phs with
  | nil => simp [pagesOf]
  | cons ph phs ih => rw [pagesOf_cons, Finset.mem_union, ih, List.exists_mem_cons_iff]

/-- The page of the stack -/
def ustackPage : ℕ := pgnum (USTACKTOP - 0x1000)

/-- The directory entries of the pages of `V` that have no table. -/
def tablesFor (m : Mem) (d : ℕ) (V : Finset ℕ) : Finset ℕ :=
  (V.image (· / 1024)).filter (tableOf m d · = none)

theorem tablesFor_union (m : Mem) (d : ℕ) (V W : Finset ℕ) :
    tablesFor m d (V ∪ W) = tablesFor m d V ∪ tablesFor m d W := by
  rw [tablesFor, Finset.image_union, Finset.filter_union]
  rfl

theorem mem_tablesFor {m : Mem} {V : Finset ℕ} {i : ℕ} :
    i ∈ tablesFor m d V ↔ (∃ v ∈ V, v / 1024 = i) ∧ tableOf m d i = none := by
  rw [tablesFor, Finset.mem_filter, Finset.mem_image]

theorem tablesFor_subset {m : Mem} {V W : Finset ℕ} (h : V ⊆ W) :
    tablesFor m d V ⊆ tablesFor m d W :=
  Finset.filter_subset_filter _ (Finset.image_subset_image h)

/-- The segments `phs` are loaded, from the state `s` with the free pages `l`, and nothing else. -/
structure Loaded (B : Machine) (M : Pool B) (s : Kern) (l : List ℕ) (el : List Slot) (e : Slot)
    (d : ℕ) (binary : ElfImage) (phs : List Proghdr) (m' : Mem) (l' : List ℕ) : Prop where
  inv : Inv B M (s.setMem m') l' el
  bounded : Bounded B m' s.dirs
  entries : PdesOpen B m' s.dirs
  unshared : (s.setMem m').Unshared B e
  fits : ∀ ph ∈ phs, ph.Fits
  mapped : ∀ v ∈ pagesOf phs, ∃ p, (s.setMem m').space e v = some (p, PTE_U ||| PTE_W ||| PTE_P)
  unmapped : ∀ v, v ∉ pagesOf phs → (s.setMem m').space e v = none
  tables : ∀ i, tableOf m' d i = none ↔
    tableOf s.mem d i = none ∧ i ∉ tablesFor s.mem d (pagesOf phs)
  count : l'.length + (pagesOf phs).card + (tablesFor s.mem d (pagesOf phs)).card = l.length
  bytes : ∀ ph ∈ phs, ∀ k < ph.pMemsz.toNat,
    m'.loadByte d (ph.pVa + BitVec.ofNat 32 k) = some (ph.byteOf binary k)

/-- Before the first segment. -/
theorem Loaded.nil (h : Inv B M s l el) (hb : Bounded B s.mem s.dirs)
    (ho : PdesOpen B s.mem s.dirs) (hempty : ∀ v, s.space e v = none) (binary : ElfImage) :
    Loaded B M s l el e d binary [] s.mem l where
  inv := h
  bounded := hb
  entries := ho
  unshared v p f hp := by cases (hempty v).symm.trans hp
  fits := List.forall_mem_nil _
  mapped v hv := absurd hv (Finset.notMem_empty v)
  unmapped v _ := hempty v
  tables i := (and_iff_left (Finset.notMem_empty i)).symm
  count := rfl
  bytes := List.forall_mem_nil _

namespace Loaded

variable {binary : ElfImage} {phs : List Proghdr} {ph : Proghdr}

/-- The tables that the pages of another segment need -/
theorem tablesFor_eq (h : Loaded B M s l el e d binary phs m' l') (V : Finset ℕ) :
    tablesFor m' d V = tablesFor s.mem d V \ tablesFor s.mem d (pagesOf phs) := by
  ext i
  rw [Finset.mem_sdiff, mem_tablesFor, mem_tablesFor, h.tables, and_assoc]

/-- The pages that are left after another segment. -/
theorem count_union (h : Loaded B M s l el e d binary phs m' l') {V : Finset ℕ}
    (hdisj : Disjoint V (pagesOf phs)) :
    (V ∪ pagesOf phs).card + (tablesFor s.mem d (V ∪ pagesOf phs)).card + l'.length =
      l.length + V.card + (tablesFor m' d V).card := by
  have hcount := h.count
  have hsdiff := Finset.card_sdiff_add_card (tablesFor s.mem d V) (tablesFor s.mem d (pagesOf phs))
  rw [Finset.card_union_of_disjoint hdisj, tablesFor_union, ← hsdiff, h.tablesFor_eq]
  omega

/-- One more segment, on other pages. -/
theorem cons (h : Loaded B M s l el e d binary phs m' l') (hd : s.dirs e = some d)
    (hload : ph.pType = ELF_PROG_LOAD) (hfits : ph.Fits) (hdisj : Disjoint ph.pages (pagesOf phs))
    (henough : (pagesOf (ph :: phs)).card + (tablesFor s.mem d (pagesOf (ph :: phs))).card ≤
      l.length) :
    ∃ m'' l'', loadProghdr B d d binary m' ph = some m'' ∧
      Loaded B M s l el e d binary (ph :: phs) m'' l'' := by
  have hcard := h.count_union hdisj
  have hnewTables : newTables m' d (pgnum ph.pVa) (regionRounds ph.pVa ph.pMemsz) =
      tablesFor m' d ph.pages := by
    rw [hfits.pages_eq]
    rfl
  have hrounds : ph.pages.card = regionRounds ph.pVa ph.pMemsz := by
    rw [hfits.pages_eq, Nat.card_Ico, Nat.add_sub_cancel_left]
  have hregion : ∀ {w}, w ∈ Set.Ico (pgnum ph.pVa)
      (pgnum ph.pVa + regionRounds ph.pVa ph.pMemsz) ↔ w ∈ ph.pages := by
    intro w
    rw [hfits.pages_eq, Finset.mem_Ico, Set.mem_Ico]
  have hnone : ∀ w ∈ ph.pages, (s.setMem m').space e w = none := fun w hw ↦
    h.unmapped w fun hc ↦ Finset.disjoint_left.mp hdisj hw hc
  rw [pagesOf_cons] at henough
  obtain ⟨m₁, l₁, hrun, h₁, hb₁, hall, hcnt, htabs⟩ :=
    h.inv.regionAlloc_fresh (s := s.setMem m') h.bounded hd hfits.below_UTOP
      (fun w h1 h2 ↦ hnone w (hregion.mp ⟨h1, h2⟩))
      (by rw [Kern.mem_setMem, hnewTables]; omega)
  have hu₁ : (s.setMem m₁).Unshared B e := hall.unshared h.unshared
  have ho₁ : PdesOpen B m₁ s.dirs := htabs.entries h.entries
  have hnew : ∀ v ∈ ph.pages, ∃ p, (s.setMem m₁).space e v =
      some (p, PTE_U ||| PTE_W ||| PTE_P) := fun v hv ↦ by
    obtain ⟨p, hp, -⟩ := hall.mapped v (hregion.mpr hv)
    exact ⟨p, hp⟩
  have hold : ∀ v, v ∉ ph.pages → (s.setMem m₁).space e v = (s.setMem m').space e v :=
    fun v hv ↦ hall.others e v fun _ hc ↦ hv (hregion.mp hc)
  -- the bytes are stored
  have hbytes : (binary.bytesFrom ph.pOffset.toNat ph.pFilesz.toNat).length ≤ ph.pMemsz.toNat := by
    rw [ElfImage.bytesFrom, List.length_map, List.length_range]
    exact hfits.filesz
  obtain ⟨m₂, m₃, hzero, hdata, hs, hload₃⟩ := h₁.clearStore (s := s.setMem m₁) hu₁ hd
    hfits.below_UTOP hbytes fun i hi ↦ by
      obtain ⟨-, hlt, hmem⟩ := hfits.byte_mem hi
      obtain ⟨p, hp⟩ := hnew _ hmem
      exact PdesOpen.userWritable (s := s.setMem m₁) ho₁ hd hlt hp (by decide) (by decide)
  have hspace : (s.setMem m₃).space = (s.setMem m₁).space := h₁.stored_space hs
  have hinv₃ : Inv B M (s.setMem m₃) l₁ el := h₁.stored_inv hs
  have htar : target B m₃ s.dirs = target B m₁ s.dirs := h₁.stored_target hs
  refine ⟨m₃, l₁, ?_, ⟨hinv₃, fun x ↦ htar ▸ hb₁ x, ?_, h₁.unshared_stored hu₁ hs,
    List.forall_mem_cons.mpr ⟨hfits, h.fits⟩, ?_, ?_, ?_, ?_, List.forall_mem_cons.mpr ⟨?_, ?_⟩⟩⟩
  · rw [Kern.mem_setMem] at hrun hzero
    simp only [loadProghdr, hload, if_true, hrun, Option.bind_eq_bind, Option.bind_some, hzero,
      hdata]
  · obtain ⟨_, _, -, hev, -⟩ := h₁.after_stored hs (T := ∅) (S := ∅)
    exact hev.pdesOpen ho₁
  · intro v hv
    rw [hspace]
    by_cases hvp : v ∈ ph.pages
    · exact hnew v hvp
    · rw [hold v hvp]
      exact h.mapped v ((Finset.mem_union.mp hv).resolve_left hvp)
  · intro v hv
    rw [pagesOf_cons, Finset.notMem_union] at hv
    rw [hspace, hold v hv.1]
    exact h.unmapped v hv.2
  · intro i
    have hdir : tableOf m₃ d i = tableOf m₁ d i := by
      rw [tableOf, h₁.stored_dir hs hd]
      rfl
    have hpages : (∀ w, pgnum ph.pVa ≤ w → w < pgnum ph.pVa + regionRounds ph.pVa ph.pMemsz →
        w / 1024 ≠ i) ↔ ¬ ∃ w ∈ ph.pages, w / 1024 = i := by
      simp only [← hregion, Set.mem_Ico, not_exists, not_and, and_imp]
    rw [hdir, htabs.none_iff, Kern.mem_setMem, h.tables, hpages, pagesOf_cons, tablesFor_union,
      Finset.notMem_union, mem_tablesFor (V := ph.pages), and_assoc]
    refine and_congr_right fun hno ↦ ?_
    rw [and_iff_left hno, and_comm]
  · rw [Kern.mem_setMem, hnewTables] at hcnt
    rw [pagesOf_cons]
    omega
  · intro k hk
    obtain ⟨hnat, hlt, -⟩ := hfits.byte_mem hk
    rw [hload₃ _ hlt, if_pos (by omega), hnat, Nat.add_sub_cancel_left, Proghdr.bytesFrom_eq]
  · intro ph' hph' k hk
    obtain ⟨-, hlt, hmem⟩ := (h.fits ph' hph').byte_mem hk
    have hmem' : pgnum (ph'.pVa + BitVec.ofNat 32 k) ∈ pagesOf phs :=
      mem_pagesOf.mpr ⟨ph', hph', hmem⟩
    have hnot : pgnum (ph'.pVa + BitVec.ofNat 32 k) ∉ ph.pages := fun hc ↦
      Finset.disjoint_left.mp hdisj hc hmem'
    obtain ⟨p, hp⟩ := h.mapped _ hmem'
    rw [hload₃ _ hlt, if_neg, Kern.mem_setMem,
      hall.loadByte_kept hd (fun hc ↦ hnot (hregion.mp hc)) hp]
    · exact h.bytes ph' hph' k hk
    · rintro ⟨h1, h2⟩
      refine hnot (Finset.mem_image.mpr ⟨_, Finset.mem_Ico.mpr ⟨h1, h2⟩, (pgnum_eq _).symm⟩)

/-- The segments that are left. -/
theorem foldlM {phs' : List Proghdr} {T : Finset ℕ}
    (h : Loaded B M s l el e d binary phs m' l') (hd : s.dirs e = some d)
    (hfits : ∀ ph ∈ phs', ph.pType = ELF_PROG_LOAD → ph.Fits ∧ ph.pages ⊆ T ∧
      Disjoint ph.pages (pagesOf phs))
    (hdisj : (phs'.filter (·.pType = ELF_PROG_LOAD)).Pairwise fun ph ph' ↦
      Disjoint ph.pages ph'.pages)
    (hT : pagesOf phs ⊆ T) (henough : T.card + (tablesFor s.mem d T).card ≤ l.length) :
    ∃ m'' l'', phs'.foldlM (loadProghdr B d d binary) m' = some m'' ∧
      Loaded B M s l el e d binary ((phs'.filter (·.pType = ELF_PROG_LOAD)).reverse ++ phs)
        m'' l'' := by
  induction phs' generalizing phs m' l' with
  | nil => exact ⟨m', l', rfl, h⟩
  | cons ph phs' ih =>
      rw [List.foldlM_cons]
      have hrest := fun ph' hph' ↦ hfits ph' (List.mem_cons_of_mem ph hph')
      by_cases hload : ph.pType = ELF_PROG_LOAD
      · obtain ⟨hph, hsub, hother⟩ := hfits ph List.mem_cons_self hload
        rw [List.filter_cons_of_pos (by rw [decide_eq_true_eq]; exact hload)] at hdisj ⊢
        obtain ⟨hfirst, htail⟩ := List.pairwise_cons.mp hdisj
        have hT' : pagesOf (ph :: phs) ⊆ T := Finset.union_subset hsub hT
        have hcard := Finset.card_le_card hT'
        have htabs := Finset.card_le_card (tablesFor_subset (m := s.mem) (d := d) hT')
        obtain ⟨m₁, l₁, hrun, h₁⟩ := h.cons hd hload hph hother
          ((Nat.add_le_add hcard htabs).trans henough)
        rw [hrun, List.reverse_cons, List.append_assoc]
        refine ih h₁ (fun ph' hph' hload' ↦ ?_) htail hT'
        obtain ⟨hfit', hsub', hother'⟩ := hrest ph' hph' hload'
        refine ⟨hfit', hsub', Finset.disjoint_union_right.mpr ⟨?_, hother'⟩⟩
        refine (hfirst ph' (List.mem_filter.mpr ⟨hph', ?_⟩)).symm
        rw [decide_eq_true_eq]
        exact hload'
      · rw [List.filter_cons_of_neg (by rw [decide_eq_true_eq]; exact hload)] at hdisj ⊢
        have hskip : loadProghdr B d d binary m' ph = some m' := if_neg hload
        rw [hskip]
        exact ih h hrest hdisj hT

/-- No segment has the page of the stack. -/
theorem stackPage_notMem (h : Loaded B M s l el e d binary phs m' l') :
    ustackPage ∉ pagesOf phs := by
  intro hc
  obtain ⟨ph, hph, hmem⟩ := mem_pagesOf.mp hc
  exact Nat.lt_irrefl _ ((h.fits ph hph).lt_stackPage hmem)

/-- The stack is mapped, next to the segments. -/
theorem stack (h : Loaded B M s l el e d binary phs m' l') (hd : s.dirs e = some d)
    (henough : (insert ustackPage (pagesOf phs)).card +
      (tablesFor s.mem d (insert ustackPage (pagesOf phs))).card ≤ l.length) :
    ∃ m'' l'' p, loadStack B d m' = some (true, m'') ∧ Inv B M (s.setMem m'') l'' el ∧
      PdesOpen B m'' s.dirs ∧
      (s.setMem m'').space = (s.setMem m').space.set e ustackPage
        (some (p, PTE_W ||| PTE_U ||| PTE_P)) ∧
      ∀ v q f, (s.setMem m').space e v = some (q, f) → m''.phys q = m'.phys q := by
  have hnot := h.stackPage_notMem
  have hva : USTACKTOP - 0x1000 < UTOP := by decide
  have hperm : (PTE_W ||| PTE_U ||| PTE_P).toNat < 4096 := by decide
  have hcard := h.count_union (Finset.disjoint_singleton_left.mpr hnot)
  rw [← Finset.insert_eq, Finset.card_singleton] at hcard
  obtain ⟨p, t, hl⟩ : ∃ p t, l' = p :: t := List.exists_cons_of_length_pos (by omega)
  obtain ⟨halloc, hown⟩ := h.inv.own.pageAlloc_plain hl
  rcases h.inv.insertTaken (s := s.setMem m') hd hva (fun q _ ↦ Nat.lt_succ_of_le (h.bounded q))
      hperm hl hown (h.inv.own.tabled_refl.congr rfl) (target_congr rfl) with
    ⟨hno, rfl, -⟩ | ⟨m'', l'', hins, hinv, hev, -, hre, -⟩
  · -- the page for the table was counted
    have hmem : pdx (USTACKTOP - 0x1000) ∈ tablesFor m' d {ustackPage} := by
      rw [mem_tablesFor]
      exact ⟨⟨ustackPage, Finset.mem_singleton_self _, pgnum_div _⟩, hno⟩
    have hpos := Finset.card_pos.mpr ⟨_, hmem⟩
    rw [hl, List.length_singleton] at hcard
    omega
  · refine ⟨m'', l'', p, ?_, hinv, hev.pdesOpen h.entries, ?_, fun v q f hq ↦ ?_⟩
    · rw [Kern.mem_setMem] at halloc hins
      simp only [Jos.loadStack, halloc, Option.bind_eq_bind, Option.bind_some, hins]
      rfl
    · exact hre.addrSpaces_eq (hd.trans_ne (Option.some_ne_none d))
    · obtain ⟨-, hql, hun⟩ := h.inv.mapped hq
      exact hre.frame.other q hql (fun e' d' hd' ↦ hun.ne_dir hd') fun e' d' i t' hd' hi ht' ↦
        hun.ne_table hd' hi ht'

end Loaded

/-! ## The image -/

namespace ElfImage

/-- The segments of an image -/
def loads (binary : ElfImage) : List Proghdr :=
  binary.proghdrs.filter (·.pType = ELF_PROG_LOAD)

/-- The pages of an image, with that of the stack -/
def touched (binary : ElfImage) : Finset ℕ := insert ustackPage (pagesOf binary.loads)

end ElfImage

/-- Loading all the segments. -/
theorem Inv.exists_loaded (h : Inv B M s l el) (hb : Bounded B s.mem s.dirs)
    (ho : PdesOpen B s.mem s.dirs) (hd : s.dirs e = some d) (hempty : ∀ v, s.space e v = none)
    {binary : ElfImage} (hfits : ∀ ph ∈ binary.loads, ph.Fits)
    (hdisj : binary.loads.Pairwise fun ph ph' ↦ Disjoint ph.pages ph'.pages)
    (henough : binary.touched.card + (tablesFor s.mem d binary.touched).card ≤ l.length) :
    ∃ m' l', binary.proghdrs.foldlM (loadProghdr B d d binary) s.mem = some m' ∧
      Loaded B M s l el e d binary binary.loads.reverse m' l' := by
  have hsub : ∀ ph ∈ binary.loads, ph.pages ⊆ binary.touched := fun ph hph v hv ↦
    Finset.mem_insert_of_mem (mem_pagesOf.mpr ⟨ph, hph, hv⟩)
  have hloads : ∀ ph ∈ binary.proghdrs, ph.pType = ELF_PROG_LOAD → ph ∈ binary.loads :=
    fun ph hph hload ↦ List.mem_filter.mpr ⟨hph, decide_eq_true hload⟩
  obtain ⟨m', l', hrun, hall⟩ := (Loaded.nil h hb ho hempty binary).foldlM hd
    (fun ph hph hload ↦ ⟨hfits ph (hloads ph hph hload), hsub ph (hloads ph hph hload),
      Finset.disjoint_empty_right _⟩) hdisj (Finset.empty_subset _) henough
  rw [List.append_nil] at hall
  exact ⟨m', l', hrun, hall⟩

theorem pagesOf_reverse (phs : List Proghdr) : pagesOf phs.reverse = pagesOf phs := by
  ext v
  rw [mem_pagesOf, mem_pagesOf]
  simp only [List.mem_reverse]

/-- `load_icode` builds the image of a program: its bytes, then zeros, and the stack. -/
theorem load_icode_builds_image (h : Inv B M s l el) (hb : Bounded B s.mem s.dirs)
    (ho : PdesOpen B s.mem s.dirs) (hd : s.dirs e = some d) (hempty : ∀ v, s.space e v = none)
    {binary : ElfImage} (hmagic : binary.eMagic = ELF_MAGIC)
    (hfits : ∀ ph ∈ binary.loads, ph.Fits)
    (hdisj : binary.loads.Pairwise fun ph ph' ↦ Disjoint ph.pages ph'.pages)
    (henough : binary.touched.card + (tablesFor s.mem d binary.touched).card ≤ l.length)
    (cr3 : ℕ) :
    ∃ s', loadIcode B s cr3 e binary = some (s', cr3) ∧
      (∀ ph ∈ binary.loads, ∀ k < ph.pMemsz.toNat,
        s'.mem.loadByte d (ph.pVa + BitVec.ofNat 32 k) =
          some (if k < ph.pFilesz.toNat then binary (ph.pOffset.toNat + k) else 0)) ∧
      (∀ a < UTOP, s'.mem.walk d a ≠ none ↔ pgnum a ∈ binary.touched) ∧
      (∀ a < UTOP, pgnum a ∈ binary.touched → s'.mem.UserWritable d a) ∧
      (s'.envs e).envPgdir = some d ∧ (s'.envs e).envTf.eip = binary.eEntry := by
  obtain ⟨m₁, l₁, hrun, hall⟩ := h.exists_loaded hb ho hd hempty hfits hdisj henough
  have hpgdir := (Kern.live_of_dirs hd).2
  have hpages : insert ustackPage (pagesOf binary.loads.reverse) = binary.touched := by
    rw [pagesOf_reverse, ElfImage.touched]
  obtain ⟨m₂, l₂, p, hstack, -, ho₂, hspace, hphys⟩ := hall.stack hd (by rwa [hpages])
  have hself : (s.setMem m₂).space e ustackPage = some (p, PTE_W ||| PTE_U ||| PTE_P) := by
    rw [hspace, AddrSpaces.set, if_pos ⟨rfl, rfl⟩]
  have hother : ∀ v, v ≠ ustackPage → (s.setMem m₂).space e v = (s.setMem m₁).space e v := by
    intro v hv
    rw [hspace, AddrSpaces.set, if_neg fun hc ↦ hv hc.2]
  -- the pages that are mapped
  have hmapped : ∀ v ∈ binary.touched, ∃ p f, (s.setMem m₂).space e v = some (p, f) ∧
      isSet f PTE_U ∧ isSet f PTE_W := by
    intro v hv
    rw [← hpages, Finset.mem_insert] at hv
    by_cases hvs : v = ustackPage
    · rw [hvs]
      exact ⟨p, _, hself, by decide, by decide⟩
    · obtain ⟨q, hq⟩ := hall.mapped v (hv.resolve_left hvs)
      exact ⟨q, _, (hother v hvs).trans hq, by decide, by decide⟩
  have hunmapped : ∀ v, v ∉ binary.touched → (s.setMem m₂).space e v = none := by
    intro v hv
    rw [← hpages, Finset.mem_insert, not_or] at hv
    exact (hother v hv.1).trans (hall.unmapped v hv.2)
  refine ⟨(s.setMem m₂).modEnv e fun env ↦
    { env with envTf := { env.envTf with eip := binary.eEntry } }, ?_, fun ph hph k hk ↦ ?_,
    fun a ha ↦ ⟨fun hw ↦ ?_, fun ht ↦ ?_⟩, fun a ha ht ↦ ?_, ?_, ?_⟩
  · simp only [loadIcode, hpgdir, Option.bind_eq_bind, Option.bind_some, hmagic, ne_eq,
      not_true_eq_false, if_false, hrun, hstack]
    rfl
  · have hph' : ph ∈ binary.loads.reverse := List.mem_reverse.mpr hph
    obtain ⟨-, -, hmem⟩ := (hfits ph hph).byte_mem hk
    have hin := mem_pagesOf.mpr ⟨ph, hph', hmem⟩
    obtain ⟨q, hq⟩ := hall.mapped _ hin
    have hne : pgnum (ph.pVa + BitVec.ofNat 32 k) ≠ ustackPage := fun hc ↦
      hall.stackPage_notMem (hc ▸ hin)
    have hbyte : (s.setMem m₁).mem.loadByte d (ph.pVa + BitVec.ofNat 32 k) =
        some (ph.byteOf binary k) := hall.bytes ph hph' k hk
    rw [Kern.loadByte_of_space (s := s.setMem m₁) hd hq] at hbyte
    refine Eq.trans ?_ hbyte
    refine (Kern.loadByte_of_space (s := s.setMem m₂) hd ((hother _ hne).trans hq)).trans ?_
    rw [Mem.byte, Kern.mem_setMem, hphys _ _ _ hq]
    rfl
  · by_contra hc
    obtain ⟨⟨pde, pte⟩, hwalk⟩ := Option.ne_none_iff_exists'.mp hw
    have hsome := Kern.walk_space (s := s.setMem m₂) hd ha hwalk
    cases (hunmapped _ hc).symm.trans hsome
  · obtain ⟨q, f, hq, -⟩ := hmapped _ ht
    obtain ⟨pde, pte, hw, -⟩ := Kern.walk_of_space (s := s.setMem m₂) hd hq
    exact hw ▸ Option.some_ne_none _
  · obtain ⟨q, f, hq, hU, hW⟩ := hmapped _ ht
    exact PdesOpen.userWritable (s := s.setMem m₂) ho₂ hd ha hq hU hW
  · rw [Kern.envs_modEnv_self]
    exact hpgdir
  · rw [Kern.envs_modEnv_self]

/-! ## In `env_create` -/

/-- A segment of a program -/
def Proghdr.Fits.segment {ph : Proghdr} (h : ph.Fits) (binary : ElfImage) : Segment where
  va := ph.pVa
  memsz := ph.pMemsz
  data := binary.bytesFrom ph.pOffset.toNat ph.pFilesz.toNat
  below := h.below_UTOP
  data_le := by
    rw [ElfImage.bytesFrom, List.length_map, List.length_range]
    exact h.filesz

/-- The program that an image describes -/
def ElfImage.program (binary : ElfImage) (hfits : ∀ ph ∈ binary.loads, ph.Fits) : Binary where
  segments := binary.loads.pmap (fun _ h ↦ Proghdr.Fits.segment h binary) hfits
  entry := binary.eEntry

theorem foldlM_loads (binary : ElfImage) (phs : List Proghdr) (m : Mem) (cr3 : ℕ) :
    phs.foldlM (loadProghdr B d cr3 binary) m =
      (phs.filter (·.pType = ELF_PROG_LOAD)).foldlM (loadProghdr B d cr3 binary) m := by
  induction phs generalizing m with
  | nil => rfl
  | cons ph phs ih =>
      rw [List.foldlM_cons]
      by_cases hload : ph.pType = ELF_PROG_LOAD
      · rw [List.filter_cons_of_pos (by rw [decide_eq_true_eq]; exact hload), List.foldlM_cons]
        exact bind_congr ih
      · rw [List.filter_cons_of_neg (by rw [decide_eq_true_eq]; exact hload), loadProghdr,
          if_neg hload]
        exact ih m

theorem loadProghdr_eq {binary : ElfImage} {ph : Proghdr} (hload : ph.pType = ELF_PROG_LOAD)
    (hfits : ph.Fits) (m : Mem) : loadProghdr B d d binary m ph =
      (loadSegment B d m (hfits.segment binary)).map Prod.snd := by
  simp only [loadProghdr, if_pos hload, loadSegment, Option.bind_eq_bind]
  show (regionAlloc B m d ph.pVa ph.pMemsz).bind _ =
    Option.map Prod.snd ((regionAlloc B m d ph.pVa ph.pMemsz).bind _)
  rw [Option.map_bind]
  congr 1
  funext x
  show (storeBytes x.2 d ph.pVa (List.replicate ph.pMemsz.toNat 0)).bind _ =
    Option.map Prod.snd ((storeBytes x.2 d ph.pVa (List.replicate ph.pMemsz.toNat 0)).bind _)
  rw [Option.map_bind]
  congr 1
  funext m₁
  show storeBytes m₁ d ph.pVa (hfits.segment binary).data =
    Option.map Prod.snd ((storeBytes m₁ d ph.pVa (hfits.segment binary).data).bind _)
  cases storeBytes m₁ d ph.pVa (hfits.segment binary).data with
  | none => rfl
  | some m₂ => rfl

/-- The loop over the headers is that over the segments. -/
theorem loadSegments_pmap {binary : ElfImage} {phs : List Proghdr}
    (hload : ∀ ph ∈ phs, ph.pType = ELF_PROG_LOAD) (hfits : ∀ ph ∈ phs, ph.Fits) (m : Mem) :
    phs.foldlM (loadProghdr B d d binary) m =
      (loadSegments B d (phs.pmap (fun _ h ↦ Proghdr.Fits.segment h binary) hfits) m).map
        Prod.snd := by
  induction phs generalizing m with
  | nil => rfl
  | cons ph phs ih =>
      obtain ⟨hph, hrest⟩ := List.forall_mem_cons.mp hload
      rw [List.foldlM_cons, List.pmap_cons, loadSegments,
        loadProghdr_eq hph (hfits ph List.mem_cons_self)]
      have hfits' := (List.forall_mem_cons.mp hfits).2
      cases loadSegment B d m ((hfits ph List.mem_cons_self).segment binary) with
      | none => rfl
      | some x =>
          refine (ih hrest hfits' x.2).trans ?_
          simp only [Option.bind_eq_bind, Option.bind_some, Option.map_bind]
          cases loadSegments B d _ x.2 with
          | none => rfl
          | some y => rfl

/-- `env_create` of the program that an image describes runs `load_icode`. -/
theorem envCreate_program {binary : ElfImage} (hmagic : binary.eMagic = ELF_MAGIC)
    (hfits : ∀ ph ∈ binary.loads, ph.Fits) {s₁ : Kern} (halloc : envAlloc B s 0 = some (.ok e, s₁))
    (cr3 : ℕ) : (envCreate B s (binary.program hfits)).map Prod.snd =
      (loadIcode B s₁ cr3 e binary).map Prod.fst := by
  have hload : ∀ ph ∈ binary.loads, ph.pType = ELF_PROG_LOAD := fun ph hph ↦
    of_decide_eq_true (List.mem_filter.mp hph).2
  simp only [envCreate, loadIcode, halloc, Option.bind_eq_bind, Option.bind_some]
  cases (s₁.envs e).envPgdir with
  | none => rfl
  | some d =>
      simp only [Option.bind_some, hmagic, ne_eq, not_true_eq_false, if_false]
      rw [foldlM_loads, ← ElfImage.loads, loadSegments_pmap hload hfits]
      show Option.map Prod.snd ((loadSegments B d (binary.program hfits).segments s₁.mem).bind _) =
        Option.map Prod.fst (((loadSegments B d (binary.program hfits).segments s₁.mem).map
          Prod.snd).bind _)
      cases loadSegments B d (binary.program hfits).segments s₁.mem with
      | none => rfl
      | some x =>
          simp only [Option.bind_some, Option.map_some]
          cases loadStack B d x.2 with
          | none => rfl
          | some y => rfl

/-- A program of three bytes, across two pages, and the bytes of its image that are not zero -/
def demoImage : ElfImage := fun o ↦
  ([(0, 0x7F), (1, 0x45), (2, 0x4C), (3, 0x46), (24, 0xFE), (25, 0x0F), (26, 0x80), (28, 52),
    (44, 1), (52, 1), (56, 84), (60, 0xFE), (61, 0x0F), (62, 0x80), (68, 3), (72, 5), (84, 0x90),
    (85, 0xEB), (86, 0xFD)].lookup o).getD 0

theorem loads_demoImage : demoImage.loads = [⟨1, 84, 0x800FFE, 3, 5⟩] := by decide

theorem load_icode_builds_image_demo : ∃ (s s' : Kern) (e : Slot) (d : ℕ),
    loadIcode demoConfig.machine s 0 e demoImage = some (s', 0) ∧
    s'.mem.loadByte d 0x801000 = some 0xFD ∧ s'.mem.loadByte d 0x801001 = some 0 ∧
    s'.mem.UserWritable d (USTACKTOP - 0x1000) ∧ s'.mem.walk d 0x802000 = none ∧
    (s'.envs e).envTf.eip = 0x800FFE := by
  obtain ⟨base, m, l, el, -, hb, hlen, hall, -⟩ := exists_inited
  rcases hb.inv.envAlloc_spec 0 with
    ⟨r, ⟨-, hc⟩, -⟩ | ⟨e, el', d, l', s, -, rfl, -, henv, -, hinv, hev, hsu⟩
  · rcases hc with rfl | rfl
    · cases hall ⟨0, by decide⟩
    · cases hlen
  have h := hb.evolve hinv hev
  have hd : s.dirs e = some d := by
    rw [Kern.dirs, henv]
    rfl
  have hcard : demoImage.touched.card ≤ 3 := by
    rw [ElfImage.touched, loads_demoImage]
    decide
  have htabs : (tablesFor s.mem d demoImage.touched).card ≤ 3 :=
    (Finset.card_filter_le _ _).trans (Finset.card_image_le.trans hcard)
  have hmagic : demoImage.eMagic = ELF_MAGIC := by decide
  have hfits : ∀ ph ∈ demoImage.loads, ph.Fits := by
    rw [loads_demoImage, List.forall_mem_singleton]
    exact ⟨by decide, by decide, by decide⟩
  have hdisj : demoImage.loads.Pairwise fun ph ph' ↦ Disjoint ph.pages ph'.pages := by
    rw [loads_demoImage]
    exact List.pairwise_singleton _ _
  rw [List.length_cons] at hlen
  obtain ⟨s', hrun, hbytes, hpages, hW, -, heip⟩ := load_icode_builds_image h.inv h.bounded
    h.entries hd (fun v ↦ hsu.space_eq_none hd v) hmagic hfits hdisj (by omega) 0
  rw [loads_demoImage, List.forall_mem_singleton] at hbytes
  refine ⟨s, s', e, d, hrun, hbytes 2 (by decide), hbytes 3 (by decide), hW _ (by decide) ?_, ?_,
    heip⟩
  · exact Finset.mem_insert_self _ _
  · by_contra hc
    have hmem := (hpages 0x802000 (by decide)).mp hc
    rw [ElfImage.touched, loads_demoImage] at hmem
    exact absurd hmem (by decide)

end Jos
