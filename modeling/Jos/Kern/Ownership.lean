import Jos.Kern.Run

/-!
# Who owns a page, and who may write to it

A page that `page_init` put on the free list is at any time free, the directory of an
environment, a page table, or a user page; `InClass` says what that means for the free list, the
reference counter and the entries that refer to it.  The invariant `Own` counts references by
their keys, and a page is in the class of the keys that refer to it.

Write access to a page has an origin: an entry that allows writing was made from such an entry,
or the page was free.
-/

namespace Jos

open Jos.Lib

namespace Kern

/-- Directory entry `i` of environment `e` refers to `p`. -/
def PdeAt (s : Kern) (e : Slot) (i p : ℕ) : Prop :=
  ∃ d, s.dirs e = some d ∧ tableOf s.mem d i = some p

/-- The number of page table entries below `UTOP` that map `p`. -/
def mappings (s : Kern) (p : ℕ) : ℕ :=
  owners (fun k : Slot × Fin NUPG ↦ (s.space k.1 k.2).map Prod.fst) p

end Kern

/-- What a page of the allocator is used for. -/
inductive PageClass where
  | free
  | directory
  | table
  | user
deriving DecidableEq

/-- The class of the pages a key refers to. -/
def Key.pageClass : Key Slot → PageClass
  | .dir _ => .directory
  | .table _ _ => .table
  | .page _ _ => .user
  | .kern _ => .table

theorem Key.pageClass_of_not_structural {k : Key Slot} (h : k ∉ Key.structural) :
    k.pageClass = .user := by
  cases k with
  | dir e => exact absurd (Key.dir_structural e) h
  | table e i => exact absurd (Key.table_structural e i) h
  | page e v => rfl
  | kern i => exact absurd (Key.kern_structural i) h

theorem entryFrame_uvptEntry {d : ℕ} (hd : d < 2 ^ 20) : entryFrame (uvptEntry d) = some d := by
  rw [uvptEntry, BitVec.or_assoc, BitVec.or_comm PTE_P, ← BitVec.or_assoc]
  exact entryFrame_mkPte hd (by decide)

variable {B : Machine} {M : Pool B} {s s' : Kern} {l : List ℕ} {el : List Slot} {p : ℕ}

/-- The kernel's half of a directory refers to the directory itself, in the window, and to the
kernel's tables. -/
theorem KernHalf.tableOf_cases {m : Mem} {d i t : ℕ} (h : KernHalf B m d) (hd : d < 2 ^ 20)
    (hge : NUPDE ≤ i) (hi : i < NPDENTRIES) (ht : tableOf m d i = some t) :
    t = d ∨ i ≠ pdx UVPT ∧ tableOf m B.kernPgdir i = some t := by
  have hent := h i hge hi
  by_cases hu : i = pdx UVPT
  · rw [if_pos hu] at hent
    rw [tableOf, hent, entryFrame_uvptEntry hd] at ht
    exact .inl (Option.some.inj ht).symm
  · rw [if_neg hu] at hent
    exact .inr ⟨hu, by rwa [tableOf, ← hent]⟩

theorem Kern.pdeAt_iff {e : Slot} {i : ℕ} (hi : i < NUPDE) :
    s.PdeAt e i p ↔ target B s.mem s.dirs (.table e ⟨i, hi⟩) = some p := by
  simp [Kern.PdeAt, target, Option.bind_eq_some_iff]

theorem target_kern_iff {i : Fin NPDENTRIES} :
    target B s.mem s.dirs (.kern i) = some p ↔
      NUPDE ≤ i.val ∧ i.val ≠ pdx UVPT ∧ tableOf s.mem B.kernPgdir i = some p := by
  simp [target, and_assoc]

theorem Kern.space_fst (e : Slot) (v : Fin NUPG) :
    (s.space e v).map Prod.fst = target B s.mem s.dirs (.page e v) := by
  cases hd : s.dirs e with
  | none => simp [Kern.space, addrSpaces, target, hd]
  | some d => rw [Kern.space_eq hd v.isLt, target_page hd v.isLt, entryFrame_pteOf]

/-- If only page table entries refer to `p`, its references are its mappings. -/
theorem Kern.mappings_eq_refs
    (h : ∀ k, target B s.mem s.dirs k = some p → k.pageClass = .user) :
    s.mappings p = s.refs B p := by
  have hcomp := owners_comp (f := target B s.mem s.dirs) (p := p)
    (fun k : Slot × Fin NUPG ↦ Key.page k.1 k.2) (fun a b hab ↦ by cases a; cases b; simp_all)
    fun k hk ↦ by
      cases k with
      | page e v => exact ⟨(e, v), rfl⟩
      | _ => cases h _ hk
  rw [Kern.mappings, Kern.refs, ← hcomp]
  exact owners_congr fun k ↦ by rw [Kern.space_fst (B := B)]

namespace Inv

variable (h : Inv B M s l el)

include h

/-- Every directory entry of an environment is one of the counted references. -/
theorem target_of_pdeAt {e : Slot} {i : ℕ} (hi : i < NPDENTRIES) (hp : s.PdeAt e i p) :
    ∃ k, target B s.mem s.dirs k = some p := by
  by_cases hlt : i < NUPDE
  · exact ⟨_, (Kern.pdeAt_iff hlt).mp hp⟩
  · obtain ⟨d, hd, ht⟩ := hp
    have hge := Nat.le_of_not_lt hlt
    rcases (h.half e d hd).tableOf_cases (M.lt_two_pow (h.own.dir_mem hd)) hge hi ht with
      rfl | ⟨hu, hk⟩
    · exact ⟨.dir e, hd⟩
    · exact ⟨.kern ⟨i, hi⟩, target_kern_iff.mpr ⟨hge, hu, hk⟩⟩

/-- What the hardware finds for an address depends on the directory, its tables and those of the
kernel. -/
theorem walk_congr {e : Slot} {d : ℕ} {m' : Mem} (hd : s.dirs e = some d)
    (hdir : m'.phys d = s.mem.phys d)
    (htab : ∀ i < NUPDE, ∀ t, tableOf s.mem d i = some t → m'.phys t = s.mem.phys t)
    (hk : KernSame B s.mem m') (va : Word) : m'.walk d va = s.mem.walk d va := by
  have htable : isSet (s.mem.phys d (pdx va)) PTE_P →
      m'.phys (frame (s.mem.phys d (pdx va))) = s.mem.phys (frame (s.mem.phys d (pdx va))) := by
    intro hP
    rcases Nat.lt_or_ge (pdx va) NUPDE with hi | hi
    · exact htab _ hi _ (entryFrame_of_isSet hP)
    rcases (h.half e d hd).tableOf_cases (M.lt_two_pow (h.own.dir_mem hd)) hi (pdx_lt va)
      (entryFrame_of_isSet hP) with hself | ⟨hu, ht⟩
    · rw [hself]
      exact hdir
    · exact hk.tables _ _ hi (pdx_lt va) hu ht
  simp only [Mem.walk, hdir]
  by_cases hP : isSet (s.mem.phys d (pdx va)) PTE_P
  · simp only [htable hP]
  · simp [hP]

end Inv

/-! ## Along a run -/

/-- Page `p` is on the free list. -/
def Mem.IsFree (m : Mem) (p : ℕ) : Prop := ∃ l, Chain m.link m.pageFreeList l ∧ p ∈ l

end Jos
