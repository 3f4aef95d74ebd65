import Jos.Kern.SyscallSpec
import Jos.Kern.Trap

/-!
# Stores into user memory

A store below `UTOP`, by the user or by the kernel on the user's behalf, goes through the page
tables of an environment and ends in a page that is mapped there.  Such a page holds no table
and no directory, so nothing the invariant speaks of changes: no translation, no reference count
and nothing of the kernel's half.
-/

namespace Jos

open Jos.Lib

variable {B : Machine} {M : Pool B} {s : Kern} {l : List ℕ} {el : List Slot} {e : Slot}
  {m' m'' : Mem}

/-- Memory `m'` differs from that of `s` in the contents of mapped pages only. -/
structure Stored (s : Kern) (m' : Mem) : Prop where
  link : m'.link = s.mem.link
  pageFreeList : m'.pageFreeList = s.mem.pageFreeList
  ref : m'.ref = s.mem.ref
  phys : ∀ x, m'.phys x = s.mem.phys x ∨ ∃ e v f, s.space e v = some (x, f)

theorem Stored.refl (s : Kern) : Stored s s.mem := ⟨rfl, rfl, rfl, fun _ ↦ .inl rfl⟩

namespace Inv

variable (h : Inv B M s l el)

include h

section Stored

variable (hs : Stored s m')

include hs

/-- A frame that a structural key refers to is not a mapped page. -/
theorem stored_structural {k : Key Slot} (hk : k ∈ Key.structural) {x : ℕ}
    (hx : target B s.mem s.dirs k = some x) : m'.phys x = s.mem.phys x := by
  rcases hs.phys x with heq | ⟨e, v, f, hp⟩
  · exact heq
  · exact absurd hx ((h.mapped hp).2.2 k hk)

theorem stored_kern : m'.phys B.kernPgdir = s.mem.phys B.kernPgdir := by
  rcases hs.phys B.kernPgdir with heq | ⟨e, v, f, hp⟩
  · exact heq
  · exact absurd (h.mapped hp).1 M.kern

theorem stored_dir {e : Slot} {d : ℕ} (hd : s.dirs e = some d) : m'.phys d = s.mem.phys d :=
  h.stored_structural hs (Key.dir_structural e) hd

theorem stored_pteOf {e : Slot} {d v : ℕ} (hd : s.dirs e = some d) (hv : v < NUPG) :
    pteOf m' d v = pteOf s.mem d v := by
  have htab : tableOf m' d (v / 1024) = tableOf s.mem d (v / 1024) := by
    rw [tableOf, tableOf, h.stored_dir hs hd]
  cases ht : tableOf s.mem d (v / 1024) with
  | none => rw [pteOf_of_no_table ht, pteOf_of_no_table (htab.trans ht)]
  | some t =>
      have hk : target B s.mem s.dirs (.table e ⟨v / 1024, div_lt_NUPDE hv⟩) = some t := by
        rw [target_table hd (div_lt_NUPDE hv), ht]
      rw [pteOf_of_table ht, pteOf_of_table (htab.trans ht),
        h.stored_structural hs (Key.table_structural _ _) hk]

theorem stored_target : target B m' s.dirs = target B s.mem s.dirs := by
  funext k
  cases k with
  | dir e => rfl
  | table e i =>
      cases hd : s.dirs e with
      | none => simp [target, hd]
      | some d =>
          rw [target_table hd i.isLt, target_table hd i.isLt, tableOf, tableOf,
            h.stored_dir hs hd]
  | page e v =>
      cases hd : s.dirs e with
      | none => simp [target, hd]
      | some d =>
          rw [target_page hd v.isLt, target_page hd v.isLt, h.stored_pteOf hs hd v.isLt]
  | kern i => simp only [target, tableOf, h.stored_kern hs]

theorem stored_kernSame : KernSame B s.mem m' :=
  ⟨h.stored_kern hs, fun _ _ h1 h2 h3 hx ↦
    h.stored_structural hs (Key.kern_structural _) (target_kern h1 h2 h3 hx)⟩

theorem stored_space : (s.setMem m').space = s.space := by
  funext e v
  by_cases hv : v < NUPG
  · cases hd : s.dirs e with
    | none => simp [Kern.space, addrSpaces, show (s.setMem m').dirs e = none from hd, hd]
    | some d =>
        rw [Kern.space_eq hd hv, Kern.space_eq (s := s.setMem m') hd hv]
        exact congrArg entry (h.stored_pteOf hs hd hv)
  · simp [Kern.space, addrSpaces, hv]

theorem stored_inv : Inv B M (s.setMem m') l el :=
  h.setMem (h.own.of_eq hs.link hs.pageFreeList hs.ref (h.stored_target hs))
    (h.stored_kernSame hs) fun e d hd i _ ↦ by rw [h.stored_dir hs hd]

/-- Stores into mapped pages keep the invariant and change nothing it speaks of. -/
theorem after_stored {T : Set Slot} {S : Set ℕ} : After B M s l T S (s.setMem m') := by
  have hspace := h.stored_space hs
  refine ⟨l, el, h.stored_inv hs, ⟨h.stored_kernSame hs, fun e _ ↦ ⟨rfl, by rw [hspace]⟩,
    fun e v p f hp ↦ .inl (by rwa [hspace] at hp), fun p ↦ .inl ?_,
    fun e d i hd _ ↦ .inr ⟨hd, by rw [Kern.setMem, h.stored_dir hs hd]⟩⟩, fun _ _ ↦ rfl⟩
  exact (congrArg (owners · p) (h.stored_target hs)).le

theorem stored_trans (hs' : Stored (s.setMem m') m'') : Stored s m'' where
  link := hs'.link.trans hs.link
  pageFreeList := hs'.pageFreeList.trans hs.pageFreeList
  ref := hs'.ref.trans hs.ref
  phys x := by
    rcases hs'.phys x with heq | ⟨e, v, f, hp⟩
    · rcases hs.phys x with heq' | hm
      · exact .inl (heq.trans heq')
      · exact .inr hm
    · exact .inr ⟨e, v, f, by rwa [h.stored_space hs] at hp⟩

end Stored

end Inv

/-! ## Through the page tables -/

/-- What the hardware finds for an address below `UTOP` is the entry of that page. -/
theorem Kern.walk_space {d : ℕ} (hd : s.dirs e = some d) {va pde pte : Word} (hva : va < UTOP)
    (hw : s.mem.walk d va = some (pde, pte)) :
    s.space e (pgnum va) = some (frame pte, flags pte) := by
  obtain ⟨⟨rfl, hP⟩, rfl, hP'⟩ := Mem.walk_eq_some.mp hw
  have hpte : pteOf s.mem d (pgnum va) = s.mem.phys (frame (s.mem.phys d (pdx va))) (ptx va) := by
    rw [pteOf_of_table (t := frame (s.mem.phys d (pdx va)))
      (by rw [pgnum_div, tableOf]; exact entryFrame_of_isSet hP), pgnum_mod]
  rw [Kern.space_eq hd (pgnum_lt_of_lt_UTOP hva), translate, hpte, entry_of_isSet hP']

theorem Kern.walk_of_space {d p : ℕ} {f va : Word} (hd : s.dirs e = some d)
    (hp : s.space e (pgnum va) = some (p, f)) :
    ∃ pde pte, s.mem.walk d va = some (pde, pte) ∧ frame pte = p ∧ flags pte = f := by
  obtain ⟨d', hd', -, ht⟩ := Kern.space_eq_some.mp hp
  obtain rfl := Option.some.inj (hd.symm.trans hd')
  obtain ⟨hpte, rfl⟩ := translate_isSet ht
  obtain ⟨hP', rfl⟩ := isSet_of_entryFrame hpte
  cases htab : tableOf s.mem d (pgnum va / 1024) with
  | none =>
      rw [pteOf_of_no_table htab] at hP'
      exact absurd hP' (not_isSet_zero _)
  | some t =>
      rw [pteOf_of_table htab, pgnum_mod] at hP' ⊢
      rw [pgnum_div] at htab
      obtain ⟨hP, rfl⟩ := isSet_of_entryFrame htab
      exact ⟨_, _, Mem.walk_eq_some.mpr ⟨⟨rfl, hP⟩, rfl, hP'⟩, rfl, rfl⟩

/-- A store into the page of an address below `UTOP`. -/
theorem Kern.write_stored {d : ℕ} (hd : s.dirs e = some d) {va pde pte : Word} (hva : va < UTOP)
    (hw : s.mem.walk d va = some (pde, pte)) (i : ℕ) (w : Word) :
    Stored s (s.mem.write (frame pte) i w) := by
  refine ⟨rfl, rfl, rfl, fun x ↦ ?_⟩
  by_cases hx : x = frame pte
  · exact .inr ⟨e, pgnum va, flags pte, hx ▸ Kern.walk_space hd hva hw⟩
  · exact .inl (Mem.phys_write_of_ne_frame _ _ _ hx)

theorem Kern.storeByte_stored {d : ℕ} (hd : s.dirs e = some d) {va : Word} (hva : va < UTOP)
    {b : BitVec 8} (hrun : s.mem.storeByte d va b = some m') : Stored s m' := by
  simp only [Mem.storeByte, Option.bind_eq_bind, Option.bind_eq_some_iff, Prod.exists] at hrun
  obtain ⟨pde, pte, hw, hrun⟩ := hrun
  split at hrun
  · obtain rfl := Option.some.inj hrun
    exact Kern.write_stored hd hva hw _ _
  · cases hrun

/-- A run of stores below `UTOP`. -/
theorem Inv.storeBytes_stored (h : Inv B M s l el) {d : ℕ} (hd : s.dirs e = some d)
    {bs : List (BitVec 8)} {va : Word} (hva : va.toNat + bs.length ≤ UTOP.toNat)
    (hrun : storeBytes s.mem d va bs = some m') : Stored s m' := by
  induction bs generalizing s va with
  | nil =>
      obtain rfl := Option.some.inj hrun
      exact .refl s
  | cons b bs ih =>
      simp only [storeBytes, Option.bind_eq_bind, Option.bind_eq_some_iff] at hrun
      obtain ⟨m₁, hb, hrun⟩ := hrun
      have hu : UTOP.toNat = 4005560320 := rfl
      rw [List.length_cons] at hva
      have hlt : va < UTOP := by
        rw [BitVec.lt_def]
        omega
      have hs := Kern.storeByte_stored hd hlt hb
      refine h.stored_trans hs (ih (s := s.setMem m₁) (h.stored_inv hs) hd ?_ hrun)
      rw [BitVec.toNat_add, show (1 : Word).toNat = 1 from rfl]
      omega

end Jos
