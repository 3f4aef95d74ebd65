import Jos.Libc.Cow

/-!
# What copy-on-write shares

A page that is writable at one place is mapped at no other, except that `pgfault` has the new page
at `PFTEMP` and in its place before it unmaps `PFTEMP`.  So a store is seen by the environment that
makes it only, and each environment sees the memory that it has in the machine with eager copying.
What `pgfault` has at `PFTEMP` is not part of it.
-/

namespace Jos

open Jos.Lib

variable {B : Machine} {M : Pool B} {k k' : Kern} {l l' : List ℕ} {el : List Slot} {e : Slot}
  {v d : ℕ} {o : Option (ℕ × Word)} {stage stage' : Slot → Option PgfaultPc} {A A' : Image}
  {X X' : UserPage → UserPage → Prop} {va : Word} {b : BitVec 8} {m' : Mem}

/-! ## The relation -/

/-- The new page is at `PFTEMP` and in its place. -/
def Moving (stage : Slot → Option PgfaultPc) (x y : UserPage) : Prop :=
  stage x.1 = some .unmap ∧ y.1 = x.1 ∧
    (x.2 = pgnum PFTEMP ∧ y.2 < pgnum USTACKTOP ∨ y.2 = pgnum PFTEMP ∧ x.2 < pgnum USTACKTOP)

/-- The first `n` bytes of the page of `addr` are copied to the page at `PFTEMP`. -/
def PartCopied (k : Kern) (e : Slot) (addr : Word) (n : ℕ) : Prop :=
  ∃ p f q g, k.space e (pgnum PFTEMP) = some (p, f) ∧ isSet f PTE_W ∧
    k.space e (pgnum addr) = some (q, g) ∧ ∀ i < n, k.mem.byte p i = k.mem.byte q i

/-- What holds at each point of `pgfault`. -/
def PgfaultOk (k : Kern) (e : Slot) : PgfaultPc → Prop
  | .check addr _ => addr < USTACKTOP
  | .alloc addr => addr < USTACKTOP ∧ k.space e (pgnum addr) ≠ none
  | .copy addr i => addr < USTACKTOP ∧ i ≤ 4096 ∧ PartCopied k e addr i
  | .map addr => addr < USTACKTOP ∧ PartCopied k e addr 4096
  | .unmap => True
  | .done => False
  | .panic => False

/-- The pages that belong to the program. -/
def Shown (stage : Slot → Option PgfaultPc) (x : UserPage) : Prop :=
  x.2 < pgnum USTACKTOP ∧ (x.2 = pgnum PFTEMP → stage x.1 = none)

/-- The system with copy-on-write shows the memories `A`; the pairs in `X` may share a page although
one of them can write to it. -/
structure CowRel (B : Machine) (M : Pool B) (X : UserPage → UserPage → Prop) (s : Cow)
    (A : Image) : Prop where
  run : ∃ l el, RunInv B M s.kern l el
  apart : s.kern.sharing.Apart X
  live : ∀ e pc, s.stage e = some pc → s.kern.Live e
  ok : ∀ e pc, s.stage e = some pc → PgfaultOk s.kern e pc
  shows : ∀ x c, Shown s.stage x → s.kern.image x = some c → A x = some c

/-! ## Pages and places -/

namespace Kern

theorem sharing_page {x : UserPage} {p : ℕ} :
    k.sharing.page x = some p ↔ ∃ f, k.space x.1 x.2 = some (p, f) := by
  simp [sharing]

theorem image_eq {p : ℕ} {f : Word} (h : k.space e v = some (p, f)) :
    k.image (e, v) = some (k.mem.contents p) :=
  Sharing.view_eq (sharing_page.mpr ⟨f, h⟩)

theorem image_eq_some {x : UserPage} {c : Contents} : k.image x = some c ↔
    ∃ p f, k.space x.1 x.2 = some (p, f) ∧ k.mem.contents p = c := by
  simp [image, Sharing.view, sharing]

end Kern

theorem Mem.contents_congr {m m' : Mem} {p : ℕ} (h : ∀ i, m'.byte p i = m.byte p i) :
    m'.contents p = m.contents p :=
  funext fun i ↦ h i

/-- `USTACKTOP` is page-aligned. -/
theorem pgnum_lt_USTACKTOP : pgnum va < pgnum USTACKTOP ↔ va < USTACKTOP := by
  have hu : USTACKTOP.toNat = 977918 * 4096 := rfl
  rw [pgnum_eq, pgnum_eq, BitVec.lt_def, hu]
  omega

/-- What holds in `pgfault` depends on the address space of the environment, and on what its pages
hold. -/
theorem PgfaultOk.congr {pc : PgfaultPc} (h : PgfaultOk k e pc) (hspace : k'.space e = k.space e)
    (hbyte : ∀ v p f, v < pgnum USTACKTOP → k.space e v = some (p, f) →
      ∀ i, k'.mem.byte p i = k.mem.byte p i) : PgfaultOk k' e pc := by
  have hcopied : ∀ {addr : Word} {n : ℕ}, addr < USTACKTOP → PartCopied k e addr n →
      PartCopied k' e addr n := by
    rintro addr n haddr ⟨p, f, q, g, hp, hW, hq, heq⟩
    refine ⟨p, f, q, g, by rw [hspace, hp], hW, by rw [hspace, hq], fun i hi ↦ ?_⟩
    rw [hbyte _ p f (by decide) hp, hbyte _ q g (pgnum_lt_USTACKTOP.mpr haddr) hq, heq i hi]
  cases pc with
  | check addr err => exact h
  | alloc addr => exact ⟨h.1, by rw [hspace]; exact h.2⟩
  | copy addr i => exact ⟨h.1, h.2.1, hcopied h.1 h.2.2⟩
  | map addr => exact ⟨h.1, hcopied h.1 h.2⟩
  | unmap => trivial
  | done => exact h
  | panic => exact h

/-! ## Changes of one translation -/

namespace Remaps

variable (h : Remaps B M k l el e v o k' l')

include h

theorem sharing_page_of_ne {x : UserPage} (hx : x ≠ (e, v)) :
    k'.sharing.page x = k.sharing.page x := by
  have hne : ¬ (x.1 = e ∧ x.2 = v) := fun hc ↦ hx (Prod.ext hc.1 hc.2)
  simp only [Kern.sharing, h.space_of_ne hne]

theorem sharing_writes_of_ne {x : UserPage} (hx : x ≠ (e, v)) :
    k'.sharing.writes x ↔ k.sharing.writes x := by
  have hne : ¬ (x.1 = e ∧ x.2 = v) := fun hc ↦ hx (Prod.ext hc.1 hc.2)
  simp only [Kern.sharing, h.space_of_ne hne]

theorem byte_eq {e' : Slot} {v' p : ℕ} {f : Word} (hp : k.space e' v' = some (p, f)) (i : ℕ) :
    k'.mem.byte p i = k.mem.byte p i := by
  rw [Mem.byte, Mem.byte, h.content e' v' p f hp]

theorem image_of_ne {x : UserPage} (hx : x ≠ (e, v)) : k'.image x = k.image x := by
  refine Sharing.view_congr (h.sharing_page_of_ne hx) fun p hp ↦ Mem.contents_congr fun i ↦ ?_
  obtain ⟨f, hp⟩ := Kern.sharing_page.mp hp
  exact h.byte_eq hp i

theorem apart (hX : k.sharing.Apart X)
    (hnew : ∀ y p f, o = some (p, f) → y ≠ (e, v) → k.sharing.page y = some p →
      (k.sharing.writes y → X' y (e, v)) ∧ (isSet f PTE_W → X' (e, v) y))
    (hex : ∀ y z, y ≠ (e, v) → z ≠ (e, v) → X y z → X' y z) : k'.sharing.Apart X' := by
  refine hX.remap (x := (e, v)) (fun y hy ↦ h.sharing_page_of_ne hy)
    (fun y hy ↦ (h.sharing_writes_of_ne hy).mp) (fun y p hy hp hyp ↦ ?_) hex
  obtain ⟨f, hf⟩ := Kern.sharing_page.mp hp
  rw [h.space_self] at hf
  obtain ⟨h₁, h₂⟩ := hnew y p f hf hy hyp
  refine ⟨h₁, ?_⟩
  rintro ⟨p', f', hf', hW⟩
  rw [h.space_self, hf] at hf'
  obtain ⟨rfl, rfl⟩ := Prod.mk.inj (Option.some.inj hf')
  exact h₂ hW

end Remaps

/-- After a store below `UTOP` into a page that is mapped nowhere else. -/
structure PrivateStore (k : Kern) (m' : Mem) (e : Slot) (v p i : ℕ) (b : BitVec 8) : Prop where
  page : k.sharing.page (e, v) = some p
  writes : k.sharing.writes (e, v)
  space : (k.setMem m').space = k.space
  byte : ∀ q j, m'.byte q j = if q = p ∧ j = i then b else k.mem.byte q j

namespace PrivateStore

variable {p i : ℕ} (h : PrivateStore k m' e v p i b)

include h

theorem sharing_eq : (k.setMem m').sharing = k.sharing := by
  rw [Kern.sharing, Kern.sharing, h.space]

theorem byte_of_ne {q : ℕ} (hq : q ≠ p) (j : ℕ) : m'.byte q j = k.mem.byte q j := by
  rw [h.byte, if_neg fun hc ↦ hq hc.1]

variable (hX : k.sharing.Apart X) {y : UserPage} (hne : y ≠ (e, v)) (hno : ¬ X (e, v) y)

include hX hne hno

theorem page_ne {f : Word} {q : ℕ} (hy : k.space y.1 y.2 = some (q, f)) : q ≠ p := by
  rintro rfl
  exact hX.page_ne h.writes h.page hne hno (Kern.sharing_page.mpr ⟨f, hy⟩)

/-- Nobody else sees the store. -/
theorem image_of_ne : (k.setMem m').image y = k.image y := by
  rw [Kern.image, h.sharing_eq]
  exact hX.view_store h.writes h.page (fun q hq ↦ Mem.contents_congr (h.byte_of_ne hq)) hne hno

end PrivateStore

namespace CowRel

section

variable (hstage : ∀ e', e' ≠ e → stage' e' = stage e')
  (hA : ∀ x, x ≠ (e, v) → A' x = A x)
  (hshown : ∀ x, x ≠ (e, v) → Shown stage' x → Shown stage x)

include hstage hA hshown

/-- One translation changes. -/
theorem remaps (h : CowRel B M X ⟨k, stage⟩ A) (hrun : RunInv B M k l el)
    (hre : Remaps B M k l el e v o k' l')
    (hmine : ∀ pc, stage' e = some pc → k.Live e ∧ PgfaultOk k' e pc)
    (hnew : ∀ y p f, o = some (p, f) → y ≠ (e, v) → k.sharing.page y = some p →
      (k.sharing.writes y → X' y (e, v)) ∧ (isSet f PTE_W → X' (e, v) y))
    (hex : ∀ y z, y ≠ (e, v) → z ≠ (e, v) → X y z → X' y z)
    (hself : Shown stage' (e, v) → ∀ p f, o = some (p, f) →
      A' (e, v) = some (k'.mem.contents p)) :
    CowRel B M X' ⟨k', stage'⟩ A' where
  run := hrun.remaps hre
  apart := hre.apart h.apart hnew hex
  live e' pc hpc := by
    refine hre.live ?_
    by_cases he : e' = e
    · subst he
      exact (hmine pc hpc).1
    · exact h.live e' pc ((hstage e' he).symm.trans hpc)
  ok e' pc hpc := by
    by_cases he : e' = e
    · subst he
      exact (hmine pc hpc).2
    · exact (h.ok e' pc ((hstage e' he).symm.trans hpc)).congr (hre.space_of_slot_ne he)
        fun v p f _ hp ↦ hre.byte_eq hp
  shows x c hx hc := by
    by_cases hxv : x = (e, v)
    · subst hxv
      obtain ⟨p, f, hp, rfl⟩ := Kern.image_eq_some.mp hc
      exact hself hx p f (hre.space_self.symm.trans hp)
    · rw [hA x hxv]
      exact h.shows x c (hshown x hxv hx) ((hre.image_of_ne hxv).symm.trans hc)

/-- A store. -/
theorem store {p i : ℕ} (h : CowRel B M X ⟨k, stage⟩ A)
    (hrun : ∃ l el, RunInv B M (k.setMem m') l el) (hst : PrivateStore k m' e v p i b)
    (hno : ∀ y, ¬ X (e, v) y)
    (hmine : ∀ pc, stage' e = some pc → k.Live e ∧ PgfaultOk (k.setMem m') e pc)
    (hself : Shown stage' (e, v) → A' (e, v) = some (m'.contents p)) :
    CowRel B M X ⟨k.setMem m', stage'⟩ A' where
  run := hrun
  apart := by
    show (k.setMem m').sharing.Apart X
    rw [hst.sharing_eq]
    exact h.apart
  live e' pc hpc := by
    show k.Live e'
    by_cases he : e' = e
    · subst he
      exact (hmine pc hpc).1
    · exact h.live e' pc ((hstage e' he).symm.trans hpc)
  ok e' pc hpc := by
    by_cases he : e' = e
    · subst he
      exact (hmine pc hpc).2
    · refine (h.ok e' pc ((hstage e' he).symm.trans hpc)).congr (congrFun hst.space e')
        fun w q f _ hq ↦ hst.byte_of_ne (hst.page_ne h.apart (y := (e', w)) ?_ (hno _) hq)
      exact fun hc ↦ he (congrArg Prod.fst hc)
  shows x c hx hc := by
    by_cases hxv : x = (e, v)
    · subst hxv
      rw [Kern.image, hst.sharing_eq, Sharing.view_eq hst.page] at hc
      exact (hself hx).trans hc
    · rw [hA x hxv]
      exact h.shows x c (hshown x hxv hx) ((hst.image_of_ne h.apart hxv (hno x)).symm.trans hc)

end

/-- One translation changes in an environment that is not in `pgfault`. -/
theorem remaps_idle (h : CowRel B M X ⟨k, stage⟩ A) (hrun : RunInv B M k l el)
    (hre : Remaps B M k l el e v o k' l') (hidle : stage e = none)
    (hA : ∀ x, x ≠ (e, v) → A' x = A x)
    (hnew : ∀ y p f, o = some (p, f) → y ≠ (e, v) → k.sharing.page y = some p →
      (k.sharing.writes y → X' y (e, v)) ∧ (isSet f PTE_W → X' (e, v) y))
    (hex : ∀ y z, y ≠ (e, v) → z ≠ (e, v) → X y z → X' y z)
    (hself : Shown stage (e, v) → ∀ p f, o = some (p, f) →
      A' (e, v) = some (k'.mem.contents p)) :
    CowRel B M X' ⟨k', stage⟩ A' := by
  refine h.remaps (fun _ _ ↦ rfl) hA (fun _ _ hx ↦ hx) hrun hre (fun pc hpc ↦ ?_) hnew hex hself
  rw [hidle] at hpc
  cases hpc

/-- Only memory and the directories matter. -/
theorem same (h : CowRel B M X ⟨k, stage⟩ A) (hrun : ∃ l el, RunInv B M k' l el)
    (hmem : k'.mem = k.mem) (hdirs : k'.dirs = k.dirs) : CowRel B M X ⟨k', stage⟩ A := by
  have hspace := Kern.space_of_dirs hdirs hmem
  have hsharing : k'.sharing = k.sharing := by rw [Kern.sharing, Kern.sharing, hspace]
  refine ⟨hrun, ?_, fun e pc hpc ↦ ?_, fun e pc hpc ↦ (h.ok e pc hpc).congr (congrFun hspace e)
    fun _ _ _ _ _ i ↦ ?_, fun x c hx hc ↦ h.shows x c hx ?_⟩
  · show k'.sharing.Apart X
    rw [hsharing]
    exact h.apart
  · obtain ⟨l, el, (hinv : RunInv B M k l el)⟩ := h.run
    obtain ⟨d, hd, -⟩ := hinv.inv.live_dir (h.live e pc hpc)
    exact (Kern.live_of_dirs ((congrFun hdirs e).trans hd)).1
  · show k'.mem.byte _ _ = _
    rw [hmem]
  · rw [← hc, Kern.image, Kern.image, hsharing, hmem]

end CowRel

end Jos
