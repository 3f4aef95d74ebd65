import Jos.Kern.EnvSpec
import Jos.Kern.Syscall

/-!
# The invariant of the kernel, and what a call may do to it

`Inv` collects what holds between any two kernel entries: the memory ownership invariant for
the directories of the live environments, the kernel's half of each of them, and the list of
free environments.

`Evolve` bounds the effect of a call on memory.  It names the environments whose address space
may change, says where every new translation comes from (a free page, or a page that was mapped
with at least the same write permission), and which reference counts may grow.
-/

namespace Jos

open Jos.Lib

namespace Kern

/-- The page directory of each live environment. -/
def dirs (s : Kern) (e : Slot) : Option ℕ :=
  if (s.envs e).envStatus = .free then none else (s.envs e).envPgdir

/-- The address spaces of the live environments. -/
def space (s : Kern) : AddrSpaces Slot := addrSpaces s.mem s.dirs

/-- The number of references to a page. -/
def refs (B : Machine) (s : Kern) (p : ℕ) : ℕ := owners (target B s.mem s.dirs) p

/-- Not free. -/
def Live (s : Kern) (e : Slot) : Prop := (s.envs e).envStatus ≠ .free

end Kern

/-- The invariant, with `l` the free pages and `el` the free environments. -/
structure Inv (B : Machine) (M : Pool B) (s : Kern) (l : List ℕ) (el : List Slot) : Prop where
  own : Own B M s.mem s.dirs ∅ l
  pgdir : ∀ e, s.Live e → (s.envs e).envPgdir ≠ none
  half : ∀ e d, s.dirs e = some d → KernHalf B s.mem d
  chain : Chain (fun e ↦ (s.envs e).envLink) s.envFreeList el
  mem_el : ∀ e, e ∈ el ↔ (s.envs e).envStatus = .free

/-- What a call may do to memory: `T` are the environments whose address space it may change, and
`S` the mapped pages to which it may add a reference. -/
structure Evolve (B : Machine) (s s' : Kern) (l : List ℕ) (T : Set Slot) (S : Set ℕ) : Prop where
  kern : KernSame B s.mem s'.mem
  others : ∀ e, e ∉ T → s'.dirs e = s.dirs e ∧ s'.space e = s.space e
  origin : ∀ e v p f, s'.space e v = some (p, f) → s.space e v = some (p, f) ∨ p ∈ l ∨
    ∃ e₀ v₀ f₀, s.space e₀ v₀ = some (p, f₀) ∧ (isSet f PTE_W → isSet f₀ PTE_W)
  refs : ∀ p, s'.refs B p ≤ s.refs B p ∨ s'.refs B p ≤ 1 ∨ p ∈ S ∧ s'.refs B p ≤ s.refs B p + 1
  entries : ∀ e d i, s'.dirs e = some d → i < NUPDE → OpenPde (s'.mem.phys d i) ∨
    s.dirs e = some d ∧ s'.mem.phys d i = s.mem.phys d i

variable {B : Machine} {M : Pool B} {s s' s'' : Kern} {l l' : List ℕ} {el : List Slot}
  {T T' : Set Slot} {S S' : Set ℕ}

theorem Kern.Live.dirs_eq {e : Slot} (h : s.Live e) : s.dirs e = (s.envs e).envPgdir := if_neg h

theorem Kern.live_of_dirs {e : Slot} {d : ℕ} (h : s.dirs e = some d) :
    s.Live e ∧ (s.envs e).envPgdir = some d := by
  by_cases hf : (s.envs e).envStatus = .free
  · simp [Kern.dirs, hf] at h
  · rw [Kern.dirs, if_neg hf] at h
    exact ⟨hf, h⟩

theorem Kern.space_eq {e : Slot} {d v : ℕ} (hd : s.dirs e = some d) (hv : v < NUPG) :
    s.space e v = translate s.mem d v := by
  simp [Kern.space, addrSpaces, hd, hv]

/-- What an entry of an address space means. -/
theorem Kern.space_eq_some {e : Slot} {v p : ℕ} {f : Word} :
    s.space e v = some (p, f) ↔
      ∃ d, s.dirs e = some d ∧ v < NUPG ∧ translate s.mem d v = some (p, f) := by
  rw [Kern.space, addrSpaces]
  by_cases hv : v < NUPG
  · cases hd : s.dirs e <;> simp [hv]
  · simp [hv]

theorem translate_isSet {m : Mem} {d v p : ℕ} {f : Word} (h : translate m d v = some (p, f)) :
    entryFrame (pteOf m d v) = some p ∧ f = flags (pteOf m d v) := by
  rw [translate] at h
  by_cases hP : isSet (pteOf m d v) PTE_P
  · rw [entry_of_isSet hP] at h
    obtain ⟨rfl, rfl⟩ := Prod.mk.inj (Option.some.inj h)
    exact ⟨entryFrame_of_isSet hP, rfl⟩
  · rw [entry_eq_none.mpr hP] at h
    cases h

theorem Kern.target_of_space {e : Slot} {v p : ℕ} {f : Word} (h : s.space e v = some (p, f)) :
    ∃ hv : v < NUPG, target B s.mem s.dirs (.page e ⟨v, hv⟩) = some p := by
  obtain ⟨d, hd, hv, ht⟩ := Kern.space_eq_some.mp h
  exact ⟨hv, by rw [target_page hd hv, (translate_isSet ht).1]⟩

namespace Inv

variable (h : Inv B M s l el)

include h

theorem live_dir {e : Slot} (he : s.Live e) :
    ∃ d, s.dirs e = some d ∧ (s.envs e).envPgdir = some d := by
  obtain ⟨d, hd⟩ := Option.ne_none_iff_exists'.mp (h.pgdir e he)
  exact ⟨d, he.dirs_eq.trans hd, hd⟩

/-- A mapped page is in the pool, off the free list, and holds no table. -/
theorem mapped {e : Slot} {v p : ℕ} {f : Word} (hp : s.space e v = some (p, f)) :
    p ∈ M.carrier ∧ p ∉ l ∧ Unstructured B s.mem s.dirs p := by
  obtain ⟨d, hd, hv, ht⟩ := Kern.space_eq_some.mp hp
  have hpe := (translate_isSet ht).1
  refine ⟨h.own.page_mem hd hv hpe, ?_, h.own.unstructured_of_page hd hv hpe⟩
  obtain ⟨hv', htar⟩ := Kern.target_of_space (B := B) hp
  exact h.own.ledger.notMem_of_pos (owners_pos htar)

end Inv

/-! ## Calls that leave memory alone -/

theorem Kern.dirs_modEnv {e : Slot} {f : Env → Env}
    (hfree : (f (s.envs e)).envStatus = .free ↔ (s.envs e).envStatus = .free)
    (hdir : (f (s.envs e)).envPgdir = (s.envs e).envPgdir) : (s.modEnv e f).dirs = s.dirs := by
  funext e'
  by_cases he : e' = e
  · subst he
    by_cases hs : (s.envs e').envStatus = .free
    · simp [Kern.dirs, hs, hfree.mpr hs]
    · simp [Kern.dirs, hs, mt hfree.mp hs, hdir]
  · simp only [Kern.dirs, Kern.envs_modEnv_of_ne s f he]

theorem Kern.space_of_dirs (hdirs : s'.dirs = s.dirs) (hmem : s'.mem = s.mem) :
    s'.space = s.space := by
  rw [Kern.space, Kern.space, hmem, hdirs]

theorem Kern.refs_of_dirs (hdirs : s'.dirs = s.dirs) (hmem : s'.mem = s.mem) (p : ℕ) :
    s'.refs B p = s.refs B p := by
  rw [Kern.refs, Kern.refs, hmem, hdirs]

namespace Inv

/-- Memory and the directories decide most of the invariant. -/
theorem of_same (h : Inv B M s l el) (hmem : s'.mem = s.mem) (hdirs : s'.dirs = s.dirs)
    (hpgdir : ∀ e, s'.Live e → (s'.envs e).envPgdir ≠ none)
    (hchain : Chain (fun e ↦ (s'.envs e).envLink) s'.envFreeList el)
    (hel : ∀ e, e ∈ el ↔ (s'.envs e).envStatus = .free) : Inv B M s' l el where
  own := by rw [hmem, hdirs]; exact h.own
  pgdir := hpgdir
  half := by rw [hmem, hdirs]; exact h.half
  chain := hchain
  mem_el := hel

theorem modEnv (h : Inv B M s l el) {e : Slot} {f : Env → Env}
    (hfree : (f (s.envs e)).envStatus = .free ↔ (s.envs e).envStatus = .free)
    (hdir : (f (s.envs e)).envPgdir = (s.envs e).envPgdir)
    (hlink : (f (s.envs e)).envLink = (s.envs e).envLink) : Inv B M (s.modEnv e f) l el := by
  refine h.of_same rfl (Kern.dirs_modEnv hfree hdir) (fun e' he' ↦ ?_) (h.chain.congr ?_)
    fun e' ↦ ?_
  · by_cases he : e' = e
    · subst he
      rw [Kern.Live, Kern.envs_modEnv_self] at he'
      rw [Kern.envs_modEnv_self, hdir]
      exact h.pgdir e' (mt hfree.mpr he')
    · rw [Kern.Live, Kern.envs_modEnv_of_ne s f he] at he'
      rw [Kern.envs_modEnv_of_ne s f he]
      exact h.pgdir e' he'
  · intro e' _
    by_cases he : e' = e
    · subst he
      simp only [Kern.envs_modEnv_self, hlink]
    · simp only [Kern.envs_modEnv_of_ne s f he]
  · by_cases he : e' = e
    · subst he
      rw [Kern.envs_modEnv_self, hfree]
      exact h.mem_el e'
    · rw [Kern.envs_modEnv_of_ne s f he]
      exact h.mem_el e'

end Inv

theorem Evolve.pdesOpen (hev : Evolve B s s' l T S) (h : PdesOpen B s.mem s.dirs) :
    PdesOpen B s'.mem s'.dirs where
  kern i h1 h2 h3 := by
    rw [hev.kern.pgdir]
    exact h.kern i h1 h2 h3
  user e d i hd hi := by
    rcases hev.entries e d i hd hi with hopen | ⟨hd₀, heq⟩
    · exact hopen
    · rw [heq]
      exact h.user e d i hd₀ hi

namespace Evolve

theorem of_same (hmem : s'.mem = s.mem) (hdirs : s'.dirs = s.dirs) : Evolve B s s' l T S := by
  have hspace : s'.space = s.space := by rw [Kern.space, Kern.space, hmem, hdirs]
  refine ⟨by rw [hmem]; exact .refl _, fun e _ ↦ ⟨congrFun hdirs e, by rw [hspace]⟩,
    fun e v p f hp ↦ .inl (by rwa [hspace] at hp), fun p ↦ .inl ?_,
    fun e d i hd _ ↦ .inr ⟨by rwa [← hdirs], by rw [hmem]⟩⟩
  rw [Kern.refs, Kern.refs, hmem, hdirs]

theorem refl (s : Kern) : Evolve B s s l T S := of_same rfl rfl

/-- The effect depends on memory and the directories only. -/
theorem congr (h : Evolve B s s' l T S) (hmem : s''.mem = s'.mem) (hdirs : s''.dirs = s'.dirs) :
    Evolve B s s'' l T S := by
  have hspace : s''.space = s'.space := by rw [Kern.space, Kern.space, hmem, hdirs]
  have hrefs : ∀ p, s''.refs B p = s'.refs B p := fun p ↦ by
    rw [Kern.refs, Kern.refs, hmem, hdirs]
  exact ⟨hmem ▸ h.kern, fun e he ↦ by rw [hdirs, hspace]; exact h.others e he,
    fun e v p f hp ↦ h.origin e v p f (by rwa [hspace] at hp),
    fun p ↦ by rw [hrefs p]; exact h.refs p,
    fun e d i hd hi ↦ by rw [hmem]; exact h.entries e d i (hdirs ▸ hd) hi⟩

theorem mono (h : Evolve B s s' l T S) (hT : T ⊆ T') (hS : S ⊆ S') : Evolve B s s' l T' S' where
  kern := h.kern
  others e he := h.others e fun hc ↦ he (hT hc)
  origin := h.origin
  refs p := (h.refs p).imp_right (Or.imp_right (And.imp_left fun hp ↦ hS hp))
  entries := h.entries

end Evolve

/-! ## Calls that change one translation -/

theorem KernHalf.of_upper {m m' : Mem} {d : ℕ} (h : KernHalf B m d)
    (hk : m'.phys B.kernPgdir = m.phys B.kernPgdir)
    (hu : ∀ i, NUPDE ≤ i → m'.phys d i = m.phys d i) : KernHalf B m' d := by
  intro i h1 h2
  rw [hu i h1, hk]
  exact h i h1 h2

namespace Inv

variable (h : Inv B M s l el) {m' : Mem} {e : Slot} {v : Fin NUPG} {o : Option (ℕ × Word)}

include h

theorem setMem (hown : Own B M m' s.dirs ∅ l') (hkern : KernSame B s.mem m')
    (hupper : ∀ e d, s.dirs e = some d → ∀ i, NUPDE ≤ i → m'.phys d i = s.mem.phys d i) :
    Inv B M (s.setMem m') l' el where
  own := hown
  pgdir := h.pgdir
  half e d hd := (h.half e d hd).of_upper hkern.pgdir (hupper e d hd)
  chain := h.chain
  mem_el := h.mem_el

theorem setMem_remapped (hown : Own B M m' s.dirs ∅ l')
    (hre : Remapped B s.mem m' s.dirs l l' e v o) : Inv B M (s.setMem m') l' el :=
  h.setMem hown (h.own.kernSame hre.frame) hre.frame.upper

/-- Changing one translation, to a page that was free or was mapped with at least the same write
permission. -/
theorem evolve_remapped (hre : Remapped B s.mem m' s.dirs l l' e v o) (he : s.dirs e ≠ none)
    (ho : ∀ p f, o = some (p, f) → p ∈ l ∨ p ∈ S ∧
      ∃ e₀ v₀ f₀, s.space e₀ v₀ = some (p, f₀) ∧ (isSet f PTE_W → isSet f₀ PTE_W)) :
    Evolve B s (s.setMem m') l {e} S := by
  have hspace : (s.setMem m').space = s.space.set e v o := hre.addrSpaces_eq he
  refine ⟨h.own.kernSame hre.frame, fun e' he' ↦ ⟨rfl, ?_⟩, fun e' v' p f hp ↦ ?_, fun p ↦ ?_,
    fun e' d' i hd' hi ↦ (hre.frame.entries e' d' i hd' hi).symm.imp_right fun heq ↦ ⟨hd', heq⟩⟩
  · rw [hspace]
    funext v'
    exact if_neg fun hc ↦ he' hc.1
  · rw [hspace, AddrSpaces.set] at hp
    split at hp
    · exact .inr ((ho p f hp).imp_right And.right)
    · exact .inl hp
  · by_cases hpl : p ∈ l
    · exact .inr (.inl (hre.fresh p hpl))
    · have hrefs : (s.setMem m').refs B p = _ := hre.owners p hpl
      rw [hrefs]
      by_cases hop : o.map Prod.fst = some p
      · obtain ⟨⟨p', f⟩, ho', rfl⟩ := Option.map_eq_some_iff.mp hop
        have hS := ((ho p' f ho').resolve_left hpl).1
        refine .inr (.inr ⟨hS, ?_⟩)
        rw [if_pos hop, Kern.refs]
        omega
      · refine .inl ?_
        rw [if_neg hop, Kern.refs]
        omega

/-- A change of memory that no translation shows. -/
theorem evolve_tabled (ht : Tabled B s.mem m' s.dirs l) : Evolve B s (s.setMem m') l T S := by
  have hspace : (s.setMem m').space = s.space := by
    funext e' v'
    by_cases hv : v' < NUPG
    · cases hd : s.dirs e' with
      | none => simp [Kern.space, addrSpaces, show (s.setMem m').dirs e' = none from hd, hd]
      | some d =>
          rw [Kern.space_eq hd hv, Kern.space_eq (s := s.setMem m') hd hv]
          exact congrArg entry (ht.pte hd hv)
    · simp [Kern.space, addrSpaces, hv]
  refine ⟨h.own.kernSame ht.frame, fun e' _ ↦ ⟨rfl, by rw [hspace]⟩,
    fun e' v' p f hp ↦ .inl (by rwa [hspace] at hp), fun p ↦ ?_,
    fun e' d' i hd' hi ↦ (ht.frame.entries e' d' i hd' hi).symm.imp_right fun heq ↦ ⟨hd', heq⟩⟩
  by_cases hpl : p ∈ l
  · exact .inr (.inl (ht.fresh p hpl))
  · exact .inl (ht.owners hpl).le

end Inv

end Jos
