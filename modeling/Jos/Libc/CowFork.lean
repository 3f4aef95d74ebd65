import Jos.Libc.CowPgfault

/-!
# The steps of `fork`

While `fork` runs, its child shows a copy of the pages that the loop has gone past, and nothing at
the others.  Between the two calls of `duppage` the page of the parent may be writable and be mapped
in the child.
-/

namespace Jos

open Jos.Lib

variable {B : Machine} {M : Pool B} {k k' : Kern} {l l' : List ℕ} {el el' : List Slot} {cur : Slot}
  {child entry : Word} {pc pc' : ForkPc} {v d : ℕ} {stage : Slot → Option PgfaultPc}
  {A A' : Image}

/-! ## What `fork` has copied -/

/-- The memories while `cur` forks. -/
def ForkPc.image (A : Image) (cur : Slot) : ForkPc → Image
  | .loop child v => A.copyBelow cur (envx child) v
  | .remap child v => A.copyBelow cur (envx child) (v + 1)
  | .stack child => A.copyBelow cur (envx child) (pgnum USTACKTOP)
  | .upcall child => A.copyBelow cur (envx child) (pgnum USTACKTOP)
  | .status child => A.copyBelow cur (envx child) (pgnum USTACKTOP)
  | .done child => A.copyBelow cur (envx child) (pgnum USTACKTOP)
  | _ => A

/-- The pages that may be shared although they are writable at one place. -/
def ForkPc.excused (stage : Slot → Option PgfaultPc) (cur : Slot) :
    ForkPc → UserPage → UserPage → Prop
  | .remap child v => fun x y ↦ Moving stage x y ∨ x = (cur, v) ∧ y = (envx child, v)
  | _ => Moving stage

/-- The child has not been started, and it is not in `pgfault`. -/
structure Newborn (stage : Slot → Option PgfaultPc) (k : Kern) (cur : Slot) (child : Word) : Prop
    extends Child k cur child where
  idle : stage (envx child) = none

/-- What `fork` relies on at each point. -/
def ForkOk (stage : Slot → Option PgfaultPc) (cur : Slot) (k : Kern) : ForkPc → Prop
  | .loop child _ => Newborn stage k cur child
  | .remap child v => Newborn stage k cur child ∧ ∃ p f, k.space cur v = some (p, f)
  | .stack child => Newborn stage k cur child
  | .upcall child => Newborn stage k cur child
  | .status child => Newborn stage k cur child
  | _ => True

/-- The system while `cur` forks, which shows the memories `A` at the start. -/
structure Forking (B : Machine) (M : Pool B) (stage : Slot → Option PgfaultPc) (cur : Slot)
    (A : Image) (pc : ForkPc) (k : Kern) : Prop where
  rel : CowRel B M (pc.excused stage cur) ⟨k, stage⟩ (pc.image A cur)
  ok : ForkOk stage cur k pc

theorem Newborn.of_envs (h : Newborn stage k cur child) (henvs : k'.envs = k.envs) :
    Newborn stage k' cur child :=
  ⟨h.toChild.of_envs (by rw [henvs]) (by rw [henvs]), h.idle⟩

theorem Image.copyBelow_of_ne {e child : Slot} {n : ℕ} {x : UserPage} (hx : x.1 ≠ child) :
    A.copyBelow e child n x = A x := if_neg hx

theorem Image.copyBelow_child (A : Image) {e child : Slot} {n w : ℕ} (hw : w < n) :
    A.copyBelow e child n (child, w) = A (e, w) := by
  rw [copyBelow, if_pos rfl, if_pos hw]

/-- The next page is copied. -/
theorem Image.copyBelow_succ_of_ne {e child : Slot} {n : ℕ} {x : UserPage} (hx : x ≠ (child, n)) :
    A.copyBelow e child (n + 1) x = A.copyBelow e child n x := by
  rw [copyBelow, copyBelow]
  by_cases hc : x.1 = child
  · have hn : x.2 ≠ n := fun hn ↦ hx (Prod.ext hc hn)
    rw [if_pos hc, if_pos hc]
    exact if_congr (by omega) rfl rfl
  · rw [if_neg hc, if_neg hc]

/-- What is copied stays. -/
theorem Image.copyBelow_mono {e child : Slot} {m n : ℕ} {x : UserPage} {c : Contents}
    (hx : x.2 < m → x.2 < n) (h : A.copyBelow e child m x = some c) :
    A.copyBelow e child n x = some c := by
  rw [copyBelow] at h ⊢
  split at h
  · next hc =>
      split at h
      · next hm => rw [if_pos hc, if_pos (hx hm), h]
      · cases h
  · next hc => rw [if_neg hc, h]

/-- The machine may have more than the programs see. -/
theorem CowRel.image_mono {X : UserPage → UserPage → Prop} (h : CowRel B M X ⟨k, stage⟩ A)
    (hA : ∀ x c, Shown stage x → A x = some c → A' x = some c) : CowRel B M X ⟨k, stage⟩ A' :=
  ⟨h.run, h.apart, h.live, h.ok, fun x c hx hc ↦ hA x c hx (h.shows x c hx hc)⟩

/-! ## The steps -/

/-- The child is made. -/
theorem Made.forking (h : CowRel B M (Moving stage) ⟨k, stage⟩ A)
    (hmade : Made B M k l cur child d k' l' el') (hinv : RunInv B M k l el) :
    Forking B M stage cur A (.loop child 0) k' := by
  have hspace : ∀ e, e ≠ envx child → k'.space e = k.space e := fun e he ↦
    (hmade.evolve.others e he).2
  have hbyte : ∀ {e v p f}, k.space e v = some (p, f) → ∀ i, k'.mem.byte p i = k.mem.byte p i := by
    intro e v p f hp i
    have hne : p ≠ d := by
      rintro rfl
      exact (hinv.inv.mapped hp).2.1 (hmade.list ▸ List.mem_cons_self)
    rw [Mem.byte, Mem.byte, hmade.setUp.other p hne]
  have hlive : ∀ e pc, stage e = some pc → e ≠ envx child := by
    rintro e pc hpc rfl
    exact h.live _ pc hpc hmade.free
  -- what is mapped now was mapped before, and not in the child
  have hold : ∀ {x : UserPage} {p : ℕ} {f : Word}, k'.space x.1 x.2 = some (p, f) →
      x.1 ≠ envx child ∧ k.space x.1 x.2 = some (p, f) := by
    intro x p f hp
    have hx : x.1 ≠ envx child := by
      intro hx
      rw [hx, hmade.empty] at hp
      cases hp
    rw [hspace x.1 hx] at hp
    exact ⟨hx, hp⟩
  refine ⟨⟨⟨l', el', hmade.inv⟩, ?_, fun e pc hpc ↦ ?_, fun e pc hpc ↦ ?_, fun x c hx hc ↦ ?_⟩,
    hmade.made, ?_⟩
  · rintro x y p ⟨p', f', hp', hW⟩ hx hy
    obtain ⟨f, hx⟩ := Kern.sharing_page.mp hx
    obtain ⟨g, hy⟩ := Kern.sharing_page.mp hy
    exact h.apart x y p ⟨p', f', (hold hp').2, hW⟩ (Kern.sharing_page.mpr ⟨f, (hold hx).2⟩)
      (Kern.sharing_page.mpr ⟨g, (hold hy).2⟩)
  · show (k'.envs e).envStatus ≠ .free
    rw [hmade.envs e (hlive e pc hpc)]
    exact h.live e pc hpc
  · exact (h.ok e pc hpc).congr (hspace e (hlive e pc hpc)) fun v p f _ hp ↦ hbyte hp
  · obtain ⟨p, f, hp, rfl⟩ := Kern.image_eq_some.mp hc
    obtain ⟨hne, hp'⟩ := hold hp
    refine (Image.copyBelow_of_ne hne).trans (h.shows x _ hx ?_)
    rw [Mem.contents_congr (hbyte hp')]
    exact Kern.image_eq hp'
  · cases hst : stage (envx child) with
    | none => rfl
    | some pc => exact absurd hmade.free (h.live _ pc hst)

section Idle

variable (hidle : stage cur = none)

include hidle

/-- The parent is not in `pgfault`. -/
theorem Moving.ne_left {x y : UserPage} (h : Moving stage x y) : x.1 ≠ cur := by
  intro hx
  have hst := h.1
  rw [hx, hidle] at hst
  cases hst

theorem Moving.ne_right {x y : UserPage} (h : Moving stage x y) : y.1 ≠ cur := by
  rw [h.2.1]
  exact h.ne_left hidle

namespace Forking

variable (hinv : RunInv B M k l el) (hb : k.Bounded B) (hlive : k.Live cur)

include hinv hb hlive

omit hidle hb hlive in
/-- An exception stack is mapped, which is not below `USTACKTOP`. -/
theorem exceptionStack {e : Slot} (h : CowRel B M (Moving stage) ⟨k, stage⟩ A)
    (he : stage e = none) {p : ℕ} {t : List ℕ} {f : Word} (hl : l = p :: t)
    (hre : Remaps B M k l el e (pgnum (UXSTACKTOP - 0x1000)) (some (p, f)) k' l') :
    CowRel B M (Moving stage) ⟨k', stage⟩ A := by
  refine h.remaps_idle hinv hre he (fun _ _ ↦ rfl) (fun y q g hq _ hy ↦ ?_)
    (fun _ _ _ _ hyz ↦ hyz) fun hx ↦ ?_
  · obtain ⟨rfl, -⟩ := Prod.mk.inj (Option.some.inj hq)
    exact absurd hy (hinv.inv.page_ne_free (hl ▸ List.mem_cons_self) y)
  · exact absurd hx.1 (show ¬ pgnum (UXSTACKTOP - 0x1000) < pgnum USTACKTOP by decide)

/-- The loop: a page that is there is mapped into the child. -/
theorem loop (h : Forking B M stage cur A (.loop child v) k)
    (hroom : HasRoom cur k (.loop child v))
    (hrun : forkStep B entry cur k (.loop child v) = some (pc', k')) :
    Forking B M stage cur A pc' k' := by
  obtain ⟨hrel, hnew⟩ := h
  have hnew : Newborn stage k cur child := hnew
  have hrel : CowRel B M (Moving stage) ⟨k, stage⟩ (A.copyBelow cur (envx child) v) := hrel
  rcases forkStep_loop hinv hb hlive hnew.toChild hroom hrun with
    ⟨hv, rfl, rfl⟩ | ⟨hv, hp, rfl, rfl⟩ | ⟨p, f, f', l', hv, hp, hre, hW, -, hpc⟩
  · exact ⟨hrel.image_mono fun x c hx hc ↦ Image.copyBelow_mono (fun _ ↦ hx.1) hc, hnew⟩
  · exact ⟨hrel.image_mono fun x c _ hc ↦ Image.copyBelow_mono Nat.lt_succ_of_lt hc, hnew⟩
  have hnew' : Newborn stage k' cur child := hnew.of_envs hre.envs
  have hp' : k'.space cur v = some (p, f) := by rw [hre.space_of_slot_ne hnew.ne.symm, hp]
  have hpage := Kern.sharing_page (x := (cur, v)).mpr ⟨f, hp⟩
  -- nobody but the parent can write to the page
  have howner : ∀ y, k.sharing.page y = some p → k.sharing.writes y → y = (cur, v) := by
    intro y hy hw
    rcases hrel.apart y (cur, v) p hw hy hpage with hc | hc
    · exact hc.symm
    · exact absurd rfl (hc.ne_right hidle)
  have hself : Shown stage (envx child, v) → ∀ q g, some (p, f') = some (q, g) →
      A.copyBelow cur (envx child) (v + 1) (envx child, v) = some (k'.mem.contents q) := by
    intro _ q g hq
    obtain ⟨rfl, -⟩ := Prod.mk.inj (Option.some.inj hq)
    have hshown : Shown stage (cur, v) := ⟨hv, fun _ ↦ hidle⟩
    rw [Image.copyBelow_child A (Nat.lt_succ_self v), Mem.contents_congr (hre.byte_eq hp),
      ← hrel.shows _ _ hshown (Kern.image_eq hp), Image.copyBelow_of_ne hnew.ne.symm]
  rcases hpc with ⟨hcow, rfl⟩ | ⟨hcow, rfl⟩
  · refine ⟨hrel.remaps_idle hinv hre hnew.idle (fun x hx ↦ Image.copyBelow_succ_of_ne hx)
      (fun y q g hq hy hyp ↦ ?_) (fun y z _ _ hyz ↦ .inl hyz) hself, hnew', p, f, hp'⟩
    obtain ⟨rfl, rfl⟩ := Prod.mk.inj (Option.some.inj hq)
    exact ⟨fun hw ↦ .inr ⟨howner y hyp hw, rfl⟩, fun hc ↦ absurd hc hW⟩
  · refine ⟨hrel.remaps_idle hinv hre hnew.idle (fun x hx ↦ Image.copyBelow_succ_of_ne hx)
      (fun y q g hq hy hyp ↦ ?_) (fun y z _ _ hyz ↦ hyz) hself, hnew'⟩
    obtain ⟨rfl, rfl⟩ := Prod.mk.inj (Option.some.inj hq)
    refine ⟨fun hw ↦ ?_, fun hc ↦ absurd hc hW⟩
    -- the page of the parent is not writable
    obtain rfl := howner y hyp hw
    obtain ⟨p', f₁, hp₁, hW₁⟩ := hw
    obtain ⟨rfl, rfl⟩ := Prod.mk.inj (Option.some.inj (hp.symm.trans hp₁))
    exact absurd (isSet_W_or_COW.mpr (.inl hW₁)) hcow

omit hlive in
/-- The second half of `duppage`: the parent can no longer write to the page. -/
theorem remap (h : Forking B M stage cur A (.remap child v) k)
    (hrun : forkStep B entry cur k (.remap child v) = some (pc', k')) :
    Forking B M stage cur A pc' k' := by
  obtain ⟨hrel, hnew, p, f, hp⟩ := h
  obtain ⟨rfl, f', l', hW, hre⟩ := forkStep_remap hinv hb hp hrun
  have hpage := Kern.sharing_page (x := (cur, v)).mpr ⟨f, hp⟩
  refine ⟨hrel.remaps_idle hinv hre hidle (fun _ _ ↦ rfl) (fun y q g hq hy hyp ↦ ?_)
    (fun y z hy _ hyz ↦ ?_) fun hx q g hq ↦ ?_, hnew.of_envs hre.envs⟩
  · obtain ⟨rfl, rfl⟩ := Prod.mk.inj (Option.some.inj hq)
    refine ⟨fun hw ↦ ?_, fun hc ↦ absurd hc hW⟩
    rcases hrel.apart y (cur, v) p hw hyp hpage with hc | hc | ⟨hc, -⟩
    · exact absurd hc.symm hy
    · exact absurd rfl (hc.ne_right hidle)
    · exact absurd hc hy
  · exact hyz.resolve_right fun hc ↦ hy hc.1
  · obtain ⟨rfl, -⟩ := Prod.mk.inj (Option.some.inj hq)
    rw [Mem.contents_congr (hre.byte_eq hp)]
    exact hrel.shows _ _ hx (Kern.image_eq hp)

/-- Every step of `fork` that finds room keeps what the programs see, or `fork` panics. -/
theorem step (h : Forking B M stage cur A pc k) (hroom : HasRoom cur k pc)
    (hrun : forkStep B entry cur k pc = some (pc', k')) :
    pc' = .panic ∨ Forking B M stage cur A pc' k' := by
  cases pc with
  | handlerStack =>
      rcases forkStep_handlerStack hinv hb hlive hrun with ⟨rfl, -⟩ | ⟨rfl, p, t, f, l', hl, -, hre⟩
      · exact .inl rfl
      · exact .inr ⟨exceptionStack hinv h.rel hidle hl hre, trivial⟩
  | handlerUpcall =>
      obtain ⟨rfl, rfl⟩ := forkStep_handlerUpcall hrun
      exact .inr ⟨h.rel.same ⟨l, el, hinv.inv.modEnv Iff.rfl rfl rfl, hinv.prot⟩ rfl
        (Kern.dirs_modEnv Iff.rfl rfl), trivial⟩
  | exofork =>
      rcases forkStep_exofork hinv hlive hrun with ⟨rfl, rfl⟩ | ⟨child, d, l', el', rfl, hmade⟩
      · exact .inl rfl
      · exact .inr (hmade.forking h.rel hinv)
  | loop child v => exact .inr (h.loop hidle hinv hb hlive hroom hrun)
  | remap child v => exact .inr (h.remap hidle hinv hb hrun)
  | stack child =>
      obtain ⟨hrel, hnew⟩ := h
      have hnew : Newborn stage k cur child := hnew
      rcases forkStep_stack hinv hb hlive hnew.toChild hrun with
        ⟨rfl, -⟩ | ⟨rfl, p, t, f, l', hl, -, hre⟩
      · exact .inl rfl
      · exact .inr ⟨exceptionStack hinv hrel hnew.idle hl hre,
          hnew.of_envs hre.envs⟩
  | upcall child =>
      obtain ⟨hrel, hnew⟩ := h
      have hnew : Newborn stage k cur child := hnew
      obtain ⟨rfl, rfl⟩ := forkStep_upcall hnew.toChild hrun
      exact .inr ⟨hrel.same ⟨l, el, hinv.inv.modEnv Iff.rfl rfl rfl, hinv.prot⟩ rfl
        (Kern.dirs_modEnv Iff.rfl rfl), hnew.toChild.setUpcall _, hnew.idle⟩
  | status child =>
      obtain ⟨hrel, hnew⟩ := h
      have hnew : Newborn stage k cur child := hnew
      obtain ⟨rfl, rfl⟩ := forkStep_status hnew.toChild hrun
      have hfree : (EnvStatus.runnable = .free ↔ (k.envs (envx child)).envStatus = .free) := by
        simp [hnew.status]
      exact .inr ⟨hrel.same ⟨l, el, hinv.inv.modEnv hfree rfl rfl, hinv.prot⟩ rfl
        (Kern.dirs_modEnv hfree rfl), trivial⟩
  | done child => cases hrun
  | panic => cases hrun

end Forking

/-- A whole `fork` copies the memory of the parent. -/
theorem CowRel.fork {handler : Bool} (h : CowRel B M (Moving stage) ⟨k, stage⟩ A)
    (hrun : Relation.ReflTransGen (ForkCall B entry cur (Kern.Bounded B))
      (ForkPc.start handler, k) (.done child, k')) :
    CowRel B M (Moving stage) ⟨k', stage⟩ (A.copyBelow cur (envx child) (pgnum USTACKTOP)) := by
  have key : ∀ x, Relation.ReflTransGen (ForkCall B entry cur (Kern.Bounded B))
      (ForkPc.start handler, k) x → x.1 = .panic ∨ Forking B M stage cur A x.1 x.2 := by
    intro x hx
    induction hx with
    | refl =>
        refine .inr ⟨?_, ?_⟩
        · cases handler <;> exact h
        · cases handler <;> trivial
    | @tail y z _ hcall ih =>
        obtain ⟨pc, k₁⟩ := y
        obtain ⟨hlive, hstep, hroom, hb⟩ := hcall
        rcases ih with hpc | ih
        · rw [show pc = .panic from hpc] at hstep
          cases hstep
        · obtain ⟨l, el, (hinv : RunInv B M k₁ l el)⟩ := ih.rel.run
          exact ih.step hidle hinv hb hlive hroom hstep
  rcases key _ hrun with hpc | hend
  · cases hpc
  · exact hend.rel

end Idle

end Jos
