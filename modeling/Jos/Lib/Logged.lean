import Mathlib.Init

/-!
# Programs with a log

A program that may fail and logs what it does.  A failure keeps the log, so that what happens
before it can be told.  The newest event comes first.
-/

namespace Jos.Lib

universe u

abbrev Logged (ε : Type u) := OptionT (StateM (List ε))

section

variable {ε α β : Type u} {x : Logged ε α} {f : α → Logged ε β} {E F : ε → Prop} {a : α} {b : β}
  {e : ε} {L L' : List ε}

theorem run_bind (x : Logged ε α) (f : α → Logged ε β) (L : List ε) :
    (x >>= f).run L = match x.run L with
      | (none, L') => (none, L')
      | (some a, L') => (f a).run L' := by
  rw [OptionT.run_bind]
  show ((x.run >>= _ : StateM _ _) : List ε → _) L = _
  simp only [bind, StateT.bind]
  cases hx : x.run L with
  | mk o L' => cases o <;> rfl

theorem run_pure (a : α) (L : List ε) : (pure a : Logged ε α).run L = (some a, L) := rfl

/-- What a bind that returns did. -/
theorem run_bind_some (h : (x >>= f).run L = (some b, L')) :
    ∃ a L₁, x.run L = (some a, L₁) ∧ (f a).run L₁ = (some b, L') := by
  rw [run_bind] at h
  cases hx : x.run L with
  | mk o L₁ =>
      rw [hx] at h
      cases o with
      | none => cases (Prod.mk.inj h).1
      | some a => exact ⟨a, L₁, rfl, h⟩

/-! ## What it returns -/

/-- Whatever the log, `x` returns `a`. -/
def Returns (x : Logged ε α) (a : α) : Prop := ∀ L, ∃ L', x.run L = (some a, L')

theorem Returns.pure (a : α) : Returns (Pure.pure a : Logged ε α) a := fun L ↦ ⟨L, rfl⟩

theorem Returns.bind (hx : Returns x a) (hf : Returns (f a) b) : Returns (x >>= f) b := by
  intro L
  obtain ⟨L₁, h₁⟩ := hx L
  obtain ⟨L₂, h₂⟩ := hf L₁
  refine ⟨L₂, ?_⟩
  rw [run_bind, h₁]
  exact h₂

/-- If `x` returns, what it returns satisfies `P`. -/
def Yields (P : α → Prop) (x : Logged ε α) : Prop := ∀ L a L', x.run L = (some a, L') → P a

theorem Yields.pure {P : α → Prop} (h : P a) : Yields P (Pure.pure a : Logged ε α) := by
  intro L b L' hrun
  obtain rfl := Option.some.inj (Prod.mk.inj hrun).1
  exact h

theorem Yields.failure {P : α → Prop} : Yields P (failure : Logged ε α) := by
  intro L b L' hrun
  cases (Prod.mk.inj hrun).1

theorem Yields.bind {P : α → Prop} {Q : β → Prop} (hx : Yields P x)
    (hf : ∀ a, P a → Yields Q (f a)) : Yields Q (x >>= f) := by
  intro L b L' hrun
  obtain ⟨a, L₁, hxa, hfb⟩ := run_bind_some hrun
  exact hf a (hx L a L₁ hxa) L₁ b L' hfb

theorem Yields.imp {P Q : α → Prop} (hx : Yields P x) (h : ∀ a, P a → Q a) : Yields Q x :=
  fun L a L' hrun ↦ h a (hx L a L' hrun)

/-- If `x` fails, the log satisfies `P` then. -/
def Fails (P : List ε → Prop) (x : Logged ε α) : Prop := ∀ L L', x.run L = (none, L') → P L'

theorem Fails.pure {P : List ε → Prop} (a : α) : Fails P (Pure.pure a : Logged ε α) := by
  intro L L' hrun
  cases (Prod.mk.inj hrun).1

theorem Fails.bind_of {P : List ε → Prop} {Q : α → Prop} (hx : Fails P x) (hQ : Yields Q x)
    (hf : ∀ a, Q a → Fails P (f a)) : Fails P (x >>= f) := by
  intro L L' hrun
  rw [run_bind] at hrun
  cases h : x.run L with
  | mk o L₁ =>
      rw [h] at hrun
      cases o with
      | none =>
          obtain rfl := (Prod.mk.inj hrun).2
          exact hx L L₁ h
      | some a => exact hf a (hQ L a L₁ h) L₁ L' hrun

theorem Fails.bind {P : List ε → Prop} (hx : Fails P x) (hf : ∀ a, Fails P (f a)) :
    Fails P (x >>= f) :=
  hx.bind_of (Q := fun _ ↦ True) (fun _ _ _ _ ↦ trivial) fun a _ ↦ hf a

/-! ## What it logs -/

/-- Whatever happens, `x` adds events with `E` only to the log. -/
def Logs (E : ε → Prop) (x : Logged ε α) : Prop := ∀ L, ∃ M, (x.run L).2 = M ++ L ∧ ∀ e ∈ M, E e

theorem Logs.pure (a : α) : Logs E (Pure.pure a : Logged ε α) := fun _ ↦ ⟨[], rfl, nofun⟩

theorem Logs.failure : Logs E (failure : Logged ε α) := fun _ ↦ ⟨[], rfl, nofun⟩

theorem Logs.imp (hx : Logs E x) (h : ∀ e, E e → F e) : Logs F x := by
  intro L
  obtain ⟨M, hrun, hM⟩ := hx L
  exact ⟨M, hrun, fun e he ↦ h e (hM e he)⟩

/-- What `x` returns may bound the events after it. -/
theorem Logs.bind_of {P : α → Prop} (hx : Logs E x) (hP : Yields P x)
    (hf : ∀ a, P a → Logs E (f a)) : Logs E (x >>= f) := by
  intro L
  obtain ⟨M, hrun, hM⟩ := hx L
  rw [run_bind]
  cases h : x.run L with
  | mk o L₁ =>
      rw [h] at hrun
      obtain rfl : L₁ = M ++ L := hrun
      cases o with
      | none => exact ⟨M, rfl, hM⟩
      | some a =>
          obtain ⟨N, hrun', hN⟩ := hf a (hP L a _ h) (M ++ L)
          refine ⟨N ++ M, ?_, ?_⟩
          · rw [List.append_assoc]
            exact hrun'
          · intro e he
            rcases List.mem_append.mp he with he | he
            · exact hN e he
            · exact hM e he

theorem Logs.bind (hx : Logs E x) (hf : ∀ a, Logs E (f a)) : Logs E (x >>= f) :=
  hx.bind_of (P := fun _ ↦ True) (fun _ _ _ _ ↦ trivial) fun a _ ↦ hf a

/-- Whatever the log, `x` comes to log `e`, after events with `E` only. -/
def Meets (E : ε → Prop) (x : Logged ε α) (e : ε) : Prop :=
  ∀ L, ∃ M N, (x.run L).2 = N ++ e :: (M ++ L) ∧ ∀ e ∈ M, E e

theorem Meets.bind_left (hx : Meets E x e) (hf : ∀ a, Logs F (f a)) : Meets E (x >>= f) e := by
  intro L
  obtain ⟨M, N, hrun, hM⟩ := hx L
  rw [run_bind]
  cases h : x.run L with
  | mk o L₁ =>
      rw [h] at hrun
      obtain rfl : L₁ = N ++ e :: (M ++ L) := hrun
      cases o with
      | none => exact ⟨M, N, rfl, hM⟩
      | some a =>
          obtain ⟨N', hrun', -⟩ := hf a (N ++ e :: (M ++ L))
          refine ⟨M, N' ++ N, ?_, hM⟩
          rw [List.append_assoc]
          exact hrun'

theorem Meets.bind_right (hx : Returns x a) (hlogs : Logs E x) (hf : Meets E (f a) e) :
    Meets E (x >>= f) e := by
  intro L
  obtain ⟨L₁, h⟩ := hx L
  obtain ⟨M₁, hrun₁, hM₁⟩ := hlogs L
  rw [h] at hrun₁
  obtain rfl : L₁ = M₁ ++ L := hrun₁
  obtain ⟨M, N, hrun, hM⟩ := hf (M₁ ++ L)
  refine ⟨M ++ M₁, N, ?_, ?_⟩
  · rw [run_bind, h, List.append_assoc]
    exact hrun
  · intro e he
    rcases List.mem_append.mp he with he | he
    · exact hM e he
    · exact hM₁ e he

/-! ## Pre- and postconditions -/

/-- From a log with `P`, what `x` returns and the log satisfy `Q` then, and if it fails, the log
satisfies `R`. -/
def Triple (P : List ε → Prop) (x : Logged ε α) (Q : α → List ε → Prop)
    (R : List ε → Prop) : Prop :=
  ∀ L, P L → (∀ a L', x.run L = (some a, L') → Q a L') ∧ ∀ L', x.run L = (none, L') → R L'

variable {P P' R : List ε → Prop} {Q Q' : α → List ε → Prop} {S : β → List ε → Prop}

theorem Triple.pure (h : ∀ L, P L → Q a L) : Triple P (Pure.pure a : Logged ε α) Q R := by
  intro L hL
  constructor
  · intro b L' hrun
    cases hrun
    exact h L hL
  · intro L' hrun
    cases hrun

theorem Triple.bind (hx : Triple P x Q R) (hf : ∀ a, Triple (Q a) (f a) S R) :
    Triple P (x >>= f) S R := by
  intro L hL
  obtain ⟨hsome, hnone⟩ := hx L hL
  rw [run_bind]
  cases h : x.run L with
  | mk o L₁ =>
      cases o with
      | none =>
          constructor
          · intro b L' hrun
            cases hrun
          · intro L' hrun
            cases hrun
            exact hnone L₁ h
      | some a => exact hf a L₁ (hsome a L₁ h)

theorem Triple.imp (hx : Triple P x Q R) (hP : ∀ L, P' L → P L) (hQ : ∀ a L, Q a L → Q' a L) :
    Triple P' x Q' R := by
  intro L hL
  obtain ⟨hsome, hnone⟩ := hx L (hP L hL)
  exact ⟨fun a L' hrun ↦ hQ a L' (hsome a L' hrun), hnone⟩

/-- The log at the end, whether `x` returns or fails. -/
theorem Triple.log (hx : Triple P x (fun _ ↦ R) R) {L : List ε} (hL : P L) : R (x.run L).2 := by
  obtain ⟨hsome, hnone⟩ := hx L hL
  cases h : x.run L with
  | mk o L₁ =>
      cases o with
      | none => exact hnone L₁ h
      | some a => exact hsome a L₁ h

end

end Jos.Lib
