import Mathlib.Data.Set.Insert
import Mathlib.Data.List.Basic

/-!
# A translation cache that software keeps coherent

A processor translates an address by a walk from a root through memory, and may keep what it
found.  The cache may be filled at any time from the present memory and the present root, and may
forget at any time.  It is emptied when a root is loaded, and one address can be dropped from it;
a store into memory leaves it alone.

A trace lists the stores, the drops and the loads of a piece of code.  `Safe` traces end with a
coherent cache if they start with one.  A trace is safe if no store changes a translation
(`Quiet`), if a store that does is followed by the drop of that address, or if a root is loaded.
Other processors only see the stores, so for them a trace has to be quiet.
-/

namespace Jos.Lib

universe u v w x

/-- What code does that matters for translations. -/
inductive TlbEv (σ : Type u) (δ : Type v) (ν : Type w) where
  | store (m : σ)
  | drop (v : ν)
  | load (d : δ)

/-- A processor, seen from a trace: the one that runs it, another one with the same root, or one
with another root. -/
inductive Role where
  | self
  | twin
  | other
deriving DecidableEq

/-- Memory, the root, and the cache. -/
structure Mmu (σ : Type u) (δ : Type v) (ν : Type w) (τ : Type x) where
  mem : σ
  root : δ
  tlb : Set (ν × τ)

variable {σ : Type u} {δ : Type v} {ν : Type w} {τ : Type x}

namespace TlbEv

def mem (m : σ) : TlbEv σ δ ν → σ
  | .store m' => m'
  | _ => m

def root (d : δ) : TlbEv σ δ ν → δ
  | .load d' => d'
  | _ => d

/-- What is left of the cache. -/
def tlb (T : Set (ν × τ)) : TlbEv σ δ ν → Set (ν × τ)
  | .store _ => T
  | .drop v => {x ∈ T | x.1 ≠ v}
  | .load _ => ∅

def isStore : TlbEv σ δ ν → Bool
  | .store _ => true
  | _ => false

end TlbEv

/-- The memory that a trace leaves. -/
def memAfter (m : σ) (evs : List (TlbEv σ δ ν)) : σ := evs.foldl TlbEv.mem m

/-- The root that a trace leaves. -/
def rootAfter (d : δ) (evs : List (TlbEv σ δ ν)) : δ := evs.foldl TlbEv.root d

/-- What another processor sees of a trace. -/
def remote (evs : List (TlbEv σ δ ν)) : List (TlbEv σ δ ν) := evs.filter TlbEv.isStore

def Mmu.after (w : Mmu σ δ ν τ) (ev : TlbEv σ δ ν) : Mmu σ δ ν τ :=
  ⟨ev.mem w.mem, ev.root w.root, ev.tlb w.tlb⟩

section

variable (walk : σ → δ → ν → Option τ)

/-- The cache forgets entries and is filled. -/
structure Fills (w w' : Mmu σ δ ν τ) : Prop where
  mem : w'.mem = w.mem
  root : w'.root = w.root
  tlb : ∀ x ∈ w'.tlb, x ∈ w.tlb ∨ walk w.mem w.root x.1 = some x.2

/-- The processor runs a trace. -/
inductive Exec : List (TlbEv σ δ ν) → Mmu σ δ ν τ → Mmu σ δ ν τ → Prop
  | nil {w w' : Mmu σ δ ν τ} (fills : Fills walk w w') : Exec [] w w'
  | cons {w w₁ w' : Mmu σ δ ν τ} {ev : TlbEv σ δ ν} {evs : List (TlbEv σ δ ν)}
      (fills : Fills walk w w₁) (rest : Exec evs (w₁.after ev) w') : Exec (ev :: evs) w w'

/-- Every entry is the present translation. -/
def Coherent (w : Mmu σ δ ν τ) : Prop :=
  ∀ v t, (v, t) ∈ w.tlb → walk w.mem w.root v = some t

/-- A coherent cache is coherent after the trace. -/
def Safe (d : δ) (m : σ) (evs : List (TlbEv σ δ ν)) : Prop :=
  ∀ w w', w.mem = m → w.root = d → Coherent walk w → Exec walk evs w w' → Coherent walk w'

/-- From `m` to `m'` translations may appear, but none changes. -/
def Extends (d : δ) (m m' : σ) : Prop := ∀ v, walk m d v = none ∨ walk m' d v = walk m d v

/-- No store of the trace changes a translation. -/
def Quiet (d : δ) : σ → List (TlbEv σ δ ν) → Prop
  | _, [] => True
  | m, .store m' :: evs => Extends walk d m m' ∧ Quiet d m' evs
  | m, _ :: evs => Quiet d m evs

/-- What a trace has to be for the processor that runs it or has the same root, as long as no root
is loaded, and for any other. -/
def Tidy (d : δ) (m : σ) (evs : List (TlbEv σ δ ν)) : Role → Prop
  | .self => (∀ d', TlbEv.load d' ∉ evs) → Safe walk d m evs
  | .twin => (∀ d', TlbEv.load d' ∉ evs) → Quiet walk d m evs
  | .other => Quiet walk d m evs

end

variable {walk : σ → δ → ν → Option τ} {w w' w₁ : Mmu σ δ ν τ} {m m' : σ} {d d' : δ} {v : ν} {t : τ}
  {ev : TlbEv σ δ ν} {evs evs' : List (TlbEv σ δ ν)}

/-! ## Traces -/

@[simp] theorem memAfter_nil : memAfter m ([] : List (TlbEv σ δ ν)) = m := rfl
@[simp] theorem memAfter_cons : memAfter m (ev :: evs) = memAfter (ev.mem m) evs := rfl
@[simp] theorem memAfter_append : memAfter m (evs ++ evs') = memAfter (memAfter m evs) evs' :=
  List.foldl_append
@[simp] theorem rootAfter_nil : rootAfter d ([] : List (TlbEv σ δ ν)) = d := rfl
@[simp] theorem rootAfter_cons : rootAfter d (ev :: evs) = rootAfter (ev.root d) evs := rfl
@[simp] theorem rootAfter_append : rootAfter d (evs ++ evs') = rootAfter (rootAfter d evs) evs' :=
  List.foldl_append

@[simp] theorem remote_append : remote (evs ++ evs') = remote evs ++ remote evs' :=
  List.filter_append _ _

theorem memAfter_remote : memAfter m (remote evs) = memAfter m evs := by
  induction evs generalizing m with
  | nil => rfl
  | cons ev evs ih =>
      cases ev with
      | store m' => exact ih
      | drop v => exact ih
      | load d => exact ih

theorem rootAfter_of_no_load (hload : ∀ d', TlbEv.load d' ∉ evs) : rootAfter d evs = d := by
  induction evs with
  | nil => rfl
  | cons ev evs ih =>
      have hev : ev.root d = d := by
        cases ev with
        | load d' => exact absurd List.mem_cons_self (hload d')
        | store | drop => rfl
      rw [rootAfter_cons, hev]
      exact ih fun d' hd ↦ hload d' (List.mem_cons_of_mem _ hd)

namespace Fills

theorem refl (w : Mmu σ δ ν τ) : Fills walk w w := ⟨rfl, rfl, fun _ ↦ .inl⟩

theorem trans {w₁ : Mmu σ δ ν τ} (h : Fills walk w w₁) (h' : Fills walk w₁ w') :
    Fills walk w w' where
  mem := h'.mem.trans h.mem
  root := h'.root.trans h.root
  tlb x hx := by
    rcases h'.tlb x hx with hx | hx
    · exact h.tlb x hx
    · exact .inr (by rwa [h.mem, h.root] at hx)

/-- The cache may keep what it has and be filled with one translation more. -/
theorem insert (h : walk w.mem w.root v = some t) :
    Fills walk w ⟨w.mem, w.root, {(v, t)} ∪ w.tlb⟩ := by
  refine ⟨rfl, rfl, fun x hx ↦ ?_⟩
  rcases hx with hx | hx
  · rw [Set.mem_singleton_iff.mp hx]
    exact .inr h
  · exact .inl hx

theorem coherent (h : Fills walk w w') (hw : Coherent walk w) : Coherent walk w' := by
  intro v t hx
  rw [h.mem, h.root]
  exact (h.tlb _ hx).elim (hw v t) id

end Fills

namespace Exec

theorem mem_eq (h : Exec walk evs w w') : w'.mem = memAfter w.mem evs := by
  induction h with
  | nil fills => exact fills.mem
  | cons fills _ ih => rw [ih, Mmu.after, fills.mem]; rfl

theorem root_eq (h : Exec walk evs w w') : w'.root = rootAfter w.root evs := by
  induction h with
  | nil fills => exact fills.root
  | cons fills _ ih => rw [ih, Mmu.after, fills.root]; rfl

theorem fills_left (h : Exec walk evs w₁ w') (hw : Fills walk w w₁) : Exec walk evs w w' := by
  cases h with
  | nil fills => exact .nil (hw.trans fills)
  | cons fills rest => exact .cons (hw.trans fills) rest

theorem append_iff : Exec walk (evs ++ evs') w w' ↔
    ∃ w₁, Exec walk evs w w₁ ∧ Exec walk evs' w₁ w' := by
  constructor
  · intro h
    induction evs generalizing w with
    | nil => exact ⟨w, .nil (.refl w), h⟩
    | cons ev evs ih =>
        cases h with
        | cons fills rest =>
            obtain ⟨w₁, h₁, h₂⟩ := ih rest
            exact ⟨w₁, .cons fills h₁, h₂⟩
  · rintro ⟨w₁, h₁, h₂⟩
    induction h₁ with
    | nil fills => exact h₂.fills_left fills
    | cons fills _ ih => exact .cons fills (ih h₂)

/-- A trace that drops no address of the cache and loads no root may leave it as it is. -/
theorem keep (hevs : ∀ ev ∈ evs, ev.tlb w.tlb = w.tlb ∧ ev.root w.root = w.root) :
    Exec walk evs w ⟨memAfter w.mem evs, w.root, w.tlb⟩ := by
  induction evs generalizing w with
  | nil => exact .nil (.refl w)
  | cons ev evs ih =>
      obtain ⟨htlb, hroot⟩ := hevs ev List.mem_cons_self
      have hafter : w.after ev = ⟨ev.mem w.mem, w.root, w.tlb⟩ := by rw [Mmu.after, htlb, hroot]
      refine .cons (.refl w) ?_
      rw [hafter]
      exact ih fun ev' hev' ↦ hevs ev' (List.mem_cons_of_mem _ hev')

/-- An empty cache may stay empty. -/
theorem empty (m : σ) (d : δ) (evs : List (TlbEv σ δ ν)) :
    Exec walk evs ⟨m, d, (∅ : Set (ν × τ))⟩ ⟨memAfter m evs, rootAfter d evs, ∅⟩ := by
  induction evs generalizing m d with
  | nil => exact .nil (.refl _)
  | cons ev evs ih =>
      have hafter : (⟨m, d, (∅ : Set (ν × τ))⟩ : Mmu σ δ ν τ).after ev =
          ⟨ev.mem m, ev.root d, ∅⟩ := by
        cases ev <;> simp [Mmu.after, TlbEv.tlb]
      exact .cons (.refl _) (by rw [hafter]; exact ih _ _)

end Exec

/-! ## Safe traces -/

theorem Extends.of_eq (h : ∀ v, walk m' d v = walk m d v) : Extends walk d m m' :=
  fun v ↦ .inr (h v)

theorem Coherent.extends (h : Coherent walk w) (hext : Extends walk w.root w.mem m') :
    Coherent walk ⟨m', w.root, w.tlb⟩ := by
  intro v t hx
  have hold := h v t hx
  exact ((hext v).resolve_left (by rw [hold]; nofun)).trans hold

namespace Safe

theorem nil : Safe walk d m ([] : List (TlbEv σ δ ν)) := by
  rintro w w' - - hw (⟨fills⟩ | _)
  exact fills.coherent hw

theorem append (h : Safe walk d m evs) (h' : Safe walk (rootAfter d evs) (memAfter m evs) evs') :
    Safe walk d m (evs ++ evs') := by
  intro w w' hm hd hw hexec
  obtain ⟨w₁, h₁, h₂⟩ := Exec.append_iff.mp hexec
  exact h' w₁ w' (by rw [h₁.mem_eq, hm]) (by rw [h₁.root_eq, hd]) (h w w₁ hm hd hw h₁) h₂

/-- A store that changes no translation. -/
theorem store (hext : Extends walk d m m') (h : Safe walk d m' evs) :
    Safe walk d m (.store m' :: evs) := by
  intro w w' hm hd hw hexec
  cases hexec with
  | @cons _ w₁ _ _ _ fills rest =>
      refine h (w₁.after (.store m')) w' rfl (fills.root.trans hd) ?_ rest
      exact (fills.coherent hw).extends (by rwa [fills.mem, fills.root, hm, hd])

theorem drop (h : Safe walk d m evs) : Safe walk d m (.drop v :: evs) := by
  intro w w' hm hd hw hexec
  cases hexec with
  | @cons _ w₁ _ _ _ fills rest =>
      refine h (w₁.after (.drop v)) w' (fills.mem.trans hm) (fills.root.trans hd)
        (fun v' t hx ↦ ?_) rest
      exact fills.coherent hw v' t (show _ ∧ _ from hx).1

/-- A store that changes one translation, which is dropped then. -/
theorem store_drop (hext : ∀ v', v' ≠ v → walk m d v' = none ∨ walk m' d v' = walk m d v')
    (h : Safe walk d m' evs) : Safe walk d m (.store m' :: .drop v :: evs) := by
  intro w w' hm hd hw hexec
  cases hexec with
  | @cons _ w₁ _ _ _ fills rest =>
      cases rest with
      | @cons _ w₂ _ _ _ fills' rest =>
          have hroot : w₁.root = d := fills.root.trans hd
          have hroot' : w₂.root = d := fills'.root.trans hroot
          have hmem' : w₂.mem = m' := fills'.mem
          refine h (w₂.after (.drop v)) w' hmem' hroot' (fun v' t hx ↦ ?_) rest
          obtain ⟨hx, hne⟩ : (v', t) ∈ w₂.tlb ∧ v' ≠ v := hx
          show walk w₂.mem w₂.root v' = some t
          rcases fills'.tlb _ hx with hold | hnew
          · have hold := fills.coherent hw v' t hold
            rw [fills.mem, hroot, hm] at hold
            rw [hmem', hroot']
            exact ((hext v' hne).resolve_left (by rw [hold]; nofun)).trans hold
          · rw [fills'.mem, fills'.root]
            exact hnew

/-- Whatever the cache holds, it is empty after a root is loaded. -/
theorem load_exec (h : Safe walk d' w.mem evs) (hexec : Exec walk (.load d' :: evs) w w') :
    Coherent walk w' := by
  cases hexec with
  | @cons _ w₁ _ _ _ fills rest =>
      exact h (w₁.after (.load d')) w' fills.mem rfl (fun _ _ hx ↦ (Set.notMem_empty _ hx).elim)
        rest

end Safe

namespace Quiet

theorem append (h : Quiet walk d m evs) (h' : Quiet walk d (memAfter m evs) evs') :
    Quiet walk d m (evs ++ evs') := by
  induction evs generalizing m with
  | nil => exact h'
  | cons ev evs ih =>
      cases ev with
      | store m₁ => exact ⟨h.1, ih h.2 h'⟩
      | drop v => exact ih (show Quiet walk d m evs from h) h'
      | load d₁ => exact ih (show Quiet walk d m evs from h) h'

/-- Another processor with the root `d` stays coherent. -/
theorem safe_remote (h : Quiet walk d m evs) : Safe walk d m (remote evs) := by
  induction evs generalizing m with
  | nil => exact .nil
  | cons ev evs ih =>
      cases ev with
      | store m₁ => exact .store h.1 (ih h.2)
      | drop v => exact ih h
      | load d₁ => exact ih h

/-- A quiet trace that loads no root is safe. -/
theorem safe (h : Quiet walk d m evs) (hload : ∀ d', TlbEv.load d' ∉ evs) :
    Safe walk d m evs := by
  induction evs generalizing m with
  | nil => exact .nil
  | cons ev evs ih =>
      have hload' : ∀ d', TlbEv.load d' ∉ evs := fun d' hd ↦
        hload d' (List.mem_cons_of_mem _ hd)
      cases ev with
      | store m₁ => exact .store h.1 (ih h.2 hload')
      | drop v => exact .drop (ih h hload')
      | load d₁ => exact absurd List.mem_cons_self (hload d₁)

end Quiet

namespace Tidy

variable {r : Role}

theorem of_quiet (h : Quiet walk d m evs) : Tidy walk d m evs r := by
  cases r with
  | self => exact fun hload ↦ h.safe hload
  | twin => exact fun _ ↦ h
  | other => exact h

/-- A trace that loads a root leaves only processors with other roots to care for. -/
theorem of_load (hr : r ≠ .other) (hload : TlbEv.load d' ∈ evs) : Tidy walk d m evs r := by
  cases r with
  | self => exact fun hno ↦ absurd hload (hno d')
  | twin => exact fun hno ↦ absurd hload (hno d')
  | other => exact absurd rfl hr

/-- What other processors see. -/
theorem quiet (h : Tidy walk d m evs r) (hr : r ≠ .self)
    (hload : r = .twin → ∀ d', TlbEv.load d' ∉ evs) : Quiet walk d m evs := by
  cases r with
  | self => exact absurd rfl hr
  | twin => exact h (hload rfl)
  | other => exact h

theorem append (h : Tidy walk d m evs r) (h' : Tidy walk d (memAfter m evs) evs' r) :
    Tidy walk d m (evs ++ evs') r := by
  have hleft : (∀ d', TlbEv.load d' ∉ evs ++ evs') → ∀ d', TlbEv.load d' ∉ evs :=
    fun hload d' hd ↦ hload d' (List.mem_append_left _ hd)
  have hright : (∀ d', TlbEv.load d' ∉ evs ++ evs') → ∀ d', TlbEv.load d' ∉ evs' :=
    fun hload d' hd ↦ hload d' (List.mem_append_right _ hd)
  cases r with
  | self =>
      intro hload
      refine (h (hleft hload)).append ?_
      rw [rootAfter_of_no_load (hleft hload)]
      exact h' (hright hload)
  | twin => exact fun hload ↦ (h (hleft hload)).append (h' (hright hload))
  | other => exact Quiet.append h h'

end Tidy

end Jos.Lib
