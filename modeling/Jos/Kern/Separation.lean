import Jos.Kern.Isolation

/-!
# Separation of environments

A run of acts of strangers, in any order and on any CPUs: kernel entries, and loads and stores of
user programs that the hardware lets through.  It spares an environment that is neither a child of
one that acts nor waits for a message (`isolation_integrity`), and it is the same run, with the
same results, whatever is in the pages of that environment (`isolation_secrecy`).

User programs may read `envs` and `pages` at `UENVS` and `UPAGES`.  What the kernel keeps there, the
registers of all environments among it, is a part of the state on which the two runs agree.
-/

namespace Jos

open Jos.Lib Printfmt

variable {B : Machine} {M : Pool B} {k k' : Kern} {l : List ℕ} {el : List Slot} {a cur e : Slot}
  {P : Set ℕ} {g : ℕ → ℕ → Word} {p d : ℕ} {s s' s'' : Smp} {c : CpuId} {en : Entry}

/-! ## At boot -/

section Boot

variable {cfg : BootConfig} {m m₀ : Mem} {base pa perm va : Word} {n v : ℕ}

/-- The image of the kernel, with what `boot_alloc` put after it, is not handed out. -/
theorem BootConfig.notMem_pool (h : 256 ≤ p) (h' : p < 256 + cfg.kernel) :
    p ∉ cfg.pool.carrier := by
  have hb := cfg.npagesBasemem_le
  rintro (⟨-, hlt, -⟩ | ⟨hge, -⟩)
  · omega
  · omega

/-- Where `boot_alloc` put the two arrays. -/
theorem BootConfig.layout_arrays : ∃ q, 256 ≤ q ∧
    (cfg.layout.pages - KERNBASE).toNat = q * 4096 ∧
    (cfg.layout.envs - KERNBASE).toNat = (q + 31) * 4096 ∧
    cfg.kernel = q + 31 ∧ q + 31 < 65536 := by
  obtain ⟨hkern, -, hpages, henvs⟩ := cfg.layout_bounds
  obtain ⟨first, hlt, hfirst, hpos, hKn, hK, hPn, hP, hEn, hE, hnf⟩ :=
    bootLayout_some cfg.npages_le cfg.layout_eq
  have hn := cfg.npages_le
  have hKB : KERNBASE.toNat = 4026531840 := rfl
  have hpages' : 4026531840 ≤ cfg.layout.pages.toNat := hpages
  have henvs' : 4026531840 ≤ cfg.layout.envs.toNat := henvs
  have hsub : ∀ w : Word, 4026531840 ≤ w.toNat → (w - KERNBASE).toNat = w.toNat - 4026531840 := by
    intro w hw
    rw [BitVec.toNat_sub, hKB]
    omega
  rw [if_neg (by omega)] at hEn
  rw [hsub _ henvs'] at hE
  refine ⟨cfg.layout.pages.toNat / 4096 - 983040, ?_, ?_, ?_, ?_, ?_⟩
  · -- the arrays come after the directory of the kernel
    have hkern : 256 ≤ pgnum (cfg.layout.kernPgdir - KERNBASE) := hkern
    rw [pgnum_eq, BitVec.toNat_sub, hKB, hKn] at hkern
    rw [BitVec.toNat_sub, hKB, hKn] at hK
    omega
  · rw [hsub _ hpages']
    omega
  · rw [hsub _ henvs']
    omega
  · rw [BootConfig.kernel, hnf, hsub _ henvs', PGSIZE]
    omega
  · omega

/-- What a region maps. -/
theorem frame_regionEntries {w : Word} (hperm : perm.toNat < 4096)
    (h : regionEntries va pa perm n v = some w) :
    ∃ i < n, frame w = (pa + BitVec.ofNat 32 (i * 4096)).toNat / 4096 := by
  rw [regionEntries] at h
  split at h
  · next hv =>
    refine ⟨v - pgnum va, by omega, ?_⟩
    rw [← Option.some.inj h, frame, pteAddr_entry hperm, ← frame, frame_eq]
  · cases h

/-- `mem_init` shows `pages` and `envs` to user programs, which are in the image. -/
theorem BootConfig.MemInit.windows (hm : m₀.pageFreeList = none) (h : cfg.MemInit m₀ base m) :
    Windows cfg.machine cfg.pool m := by
  obtain ⟨he, -⟩ := h.entries hm
  obtain ⟨q, hq, hpages, henvs, hkern, hlt⟩ := cfg.layout_arrays
  have hn := cfg.npages_le
  intro v p hv hlim hp
  rw [show pgnum ULIM = 980992 by decide] at hlim
  rw [he v hv, entries_of_lt_kstacks (by omega)] at hp
  have hsub : ∀ {r i : ℕ} {w : Word}, w.toNat = r * 4096 → r + i < 1048576 →
      (w + BitVec.ofNat 32 (i * 4096)).toNat / 4096 = r + i := by
    intro r i w hw hi
    rw [BitVec.toNat_add, BitVec.toNat_ofNat, hw]
    omega
  cases huenvs : regionEntries UENVS (cfg.layout.envs - KERNBASE) (PTE_U ||| PTE_P) 31 v with
  | some w =>
      rw [huenvs, Option.some_or, Option.getD_some] at hp
      obtain ⟨i, hi, hframe⟩ := frame_regionEntries (by decide) huenvs
      obtain ⟨-, rfl⟩ := isSet_of_entryFrame hp
      rw [hframe, hsub henvs (by omega)]
      exact cfg.notMem_pool (by omega) (by omega)
  | none =>
      rw [huenvs, Option.none_or] at hp
      cases hpag : cfg.pagesEntries UPAGES PTE_U v with
      | none =>
          rw [hpag] at hp
          cases hp
      | some w =>
          rw [hpag, Option.getD_some] at hp
          obtain ⟨i, hi, hframe⟩ := frame_regionEntries (by decide) hpag
          obtain ⟨-, rfl⟩ := isSet_of_entryFrame hp
          rw [hframe, hsub hpages (by omega)]
          exact cfg.notMem_pool (by omega) (by omega)

/-- The devices are mapped above the windows. -/
theorem Inited.windows (h : Inited cfg base k) : Windows cfg.machine cfg.pool k.mem := by
  induction h with
  | @envInit m₀ m base envs o hempty hmem =>
      rw [(envInit_spec ⟨m, envs, o⟩).1]
      exact hmem.windows hempty
  | @lapicInit base base' lapic s m hinited hmap ih =>
      obtain ⟨⟨hlo, hhi⟩, ⟨l, hb⟩, -⟩ := hinited.spec
      obtain ⟨-, -, hle, -⟩ := mmioMapRegion_some hmap
      have hlim : MMIOLIM.toNat = 4022337536 := rfl
      have hsum : base.toNat + (roundup 4096 0x1000).toNat ≤ MMIOLIM.toNat := by
        rw [BitVec.not_lt, BitVec.le_def, BitVec.toNat_add,
          show (roundup 4096 0x1000 : Word).toNat = 4096 by decide] at hle
        rw [BitVec.le_def] at hhi
        rw [show (roundup 4096 0x1000 : Word).toNat = 4096 by decide]
        omega
      obtain ⟨-, -, hlaid, -⟩ := hb.laid_mmioMapRegion hlo hsum hmap
      intro v p hv hlt hp
      have hbase : 980992 ≤ pgnum base := by
        rw [BitVec.le_def, show MMIOBASE.toNat = 4018143232 from rfl] at hlo
        rw [pgnum_eq]
        omega
      have hnone : mmioEntries base cfg.lapicaddr 4096 v = none :=
        regionEntries_of_notMem (by rw [show pgnum ULIM = 980992 by decide] at hlt; omega)
      have hsame := hlaid.entry v hv
      rw [hnone, Option.getD_none] at hsame
      exact ih v p hv hlt (hsame ▸ hp)

theorem Booted.windows (h : Booted cfg k) : Windows cfg.machine cfg.pool k.mem := by
  induction h with
  | inited h => exact h.windows
  | envCreate hboot hcreate ih =>
      obtain ⟨l, el, hb⟩ := hboot.bootInv
      exact ih.of_same (hb.envCreate_keeps hcreate).2

end Boot
/-! ## Acts -/

/-- A kernel entry, or an access of a user program. -/
inductive Act where
  | entry (en : Entry)
  | load (e : Slot) (va : Word)
  | store (e : Slot) (va : Word) (b : BitVec 8)

/-- What is seen of an act: what an entry prints, and the byte that is loaded. -/
inductive Seen where
  | printed (log : List PrintEv)
  | byte (b : BitVec 8)
  | nothing

/-- An act and its outcome. -/
inductive Does (B : Machine) : Smp → Act → Seen → Smp → Prop
  | entry {s s' : Smp} {en : Entry} (exec : en.exec B s = some s') :
      Does B s (.entry en) (.printed (en.printed B s)) s'
  | load {s : Smp} {e : Slot} {d : ℕ} {va : Word} {b : BitVec 8} (dir : s.kern.dirs e = some d)
      (allowed : s.kern.mem.UserReadable d va) (run : s.kern.mem.loadByte d va = some b) :
      Does B s (.load e va) (.byte b) s
  | store {s : Smp} {e : Slot} {d : ℕ} {va : Word} {b : BitVec 8} {m' : Mem}
      (dir : s.kern.dirs e = some d) (allowed : s.kern.mem.UserWritable d va)
      (run : s.kern.mem.storeByte d va b = some m') :
      Does B s (.store e va b) .nothing (s.setKern (s.kern.setMem m'))

/-- It is somebody else than `a` who acts, and not by a system call if it is the parent of `a`. -/
def Act.Foreign (s : Smp) (a : Slot) : Act → Prop
  | .entry en => en.Foreign s a
  | .load e _ => e ≠ a
  | .store e _ _ => e ≠ a

/-- Acts of strangers, through states with property `Q`, and what is seen of them. -/
inductive ForeignRun (B : Machine) (Q : Kern → Prop) (a : Slot) :
    Smp → List (Act × Seen) → Smp → Prop
  | nil (s : Smp) : ForeignRun B Q a s [] s
  | cons {s s₁ s' : Smp} {act : Act} {o : Seen} {acts : List (Act × Seen)}
      (foreign : act.Foreign s a) (does : Does B s act o s₁) (ok : Q s₁.kern)
      (rest : ForeignRun B Q a s₁ acts s') : ForeignRun B Q a s ((act, o) :: acts) s'

/-- The states of a machine after boot, as long as no CPU goes on with an environment that was
freed, and no page has more than 65535 references. -/
inductive Reached (cfg : BootConfig) : Smp → Prop
  | boot {k : Kern} (booted : Booted cfg k) : Reached cfg (Smp.boot k)
  | act {s s' : Smp} {act : Act} {o : Seen} (reached : Reached cfg s)
      (live : ∀ en e, act = .entry en → s.curenv en.cpu = some e → s.kern.Live e)
      (does : Does cfg.machine s act o s') (bounded : s'.kern.Bounded cfg.machine) : Reached cfg s'

section

variable {act : Act} {o : Seen} {acts : List (Act × Seen)}

/-- What holds of every state that is reached. -/
theorem Reached.inv {cfg : BootConfig} (h : Reached cfg s) :
    (∃ l el, RunInv cfg.machine cfg.pool s.kern l el) ∧ s.kern.Bounded cfg.machine ∧
      Windows cfg.machine cfg.pool s.kern.mem := by
  induction h with
  | boot booted =>
      obtain ⟨hinv, hb⟩ := booted.runInv
      exact ⟨hinv, hb, booted.windows⟩
  | act reached live does bounded ih =>
      obtain ⟨⟨l, el, hinv⟩, hb, hw⟩ := ih
      cases does with
      | entry exec =>
          have hkept := hinv.exec_kept hb (fun e ↦ live _ e rfl) exec
          exact ⟨hkept.inv, bounded, hw.of_same hkept.kern⟩
      | load dir allowed run => exact ⟨⟨l, el, hinv⟩, bounded, hw⟩
      | store dir allowed run =>
          have hstored := Kern.storeByte_stored dir (hinv.lt_UTOP dir allowed) run
          have hsame := hinv.inv.stored_kernSame hstored
          exact ⟨⟨l, el, hinv.inv.stored_inv hstored, hinv.prot.of_same hsame⟩, bounded,
            hw.of_same hsame⟩

/-- An act of a stranger spares `a`. -/
theorem Calm.does (h : Calm B M s.kern a) (hb : s.kern.Bounded B) (hf : act.Foreign s a)
    (hdo : Does B s act o s') : Calm B M s'.kern a ∧ Unharmed s.kern s'.kern a := by
  obtain ⟨l, el, hinv⟩ := h.inv
  cases hdo with
  | entry exec => exact h.exec hb hf exec
  | load dir allowed run => exact ⟨h, .refl s.kern a⟩
  | @store e d va b m' dir allowed run =>
      have hlt := hinv.lt_UTOP dir allowed
      have hbytes : storeBytes s.kern.mem d va [b] = some m' := by
        rw [storeBytes, run]
        rfl
      have hlen : va.toNat + [b].length ≤ UTOP.toNat := Nat.succ_le_of_lt hlt
      exact h.stored hf dir hlen hbytes

/-- And it is the same act, whatever is in the pages of `a`. -/
theorem Calm.does_cover (h : Calm B M s.kern a) (hP : ∀ p ∈ P, s.kern.OwnedBy a p)
    (hf : act.Foreign s a) (hdo : Does B s act o s') :
    Does B (s.cover P g) act o (s'.cover P g) := by
  obtain ⟨l, el, hinv⟩ := h.inv
  have hhid := hinv.inv.hidden h.windows hP
  have hwalk : ∀ {e d va}, e ≠ a → s.kern.dirs e = some d →
      (s.kern.mem.cover P g).walk d va = s.kern.mem.walk d va := fun he hd ↦
    Mem.walk_cover (hhid.dir_notMem he hd) fun _ ht ↦ hhid.table _ _ _ _ he hd (pdx_lt _) ht
  cases hdo with
  | @entry _ en exec =>
      have hexec := h.exec_cover (g := g) hP hf
      rw [exec, Option.map_some] at hexec
      have hlog := h.printed_cover (g := g) hP hf
      rw [← hlog]
      exact .entry hexec
  | @load e d va b dir allowed run =>
      have hlt : va < ULIM := by
        by_contra hc
        exact ((hinv.inv.half e d dir).protected hinv.prot va).1 (BitVec.not_lt.mp hc) allowed
      refine .load dir ?_ ?_
      · show ∃ pde pte, (s.kern.mem.cover P g).walk d va = some (pde, pte) ∧ _
        rw [hwalk hf dir]
        exact allowed
      · refine Eq.trans ?_ run
        exact Mem.loadByte_cover (hhid.dir_notMem hf dir)
          (fun _ ht ↦ hhid.table _ _ _ _ hf dir (pdx_lt _) ht)
          fun pde pte ↦ hhid.load e d va pde pte hf dir hlt
  | @store e d va b m' dir allowed run =>
      have hlt := hinv.lt_UTOP dir allowed
      have hulim : va < ULIM := by
        have hlt' : va.toNat < UTOP.toNat := hlt
        rw [BitVec.lt_def]
        exact hlt'.trans (by decide)
      have hstore := Mem.storeByte_cover (g := g) (hhid.dir_notMem hf dir)
        (fun _ ht ↦ hhid.table _ _ _ _ hf dir (pdx_lt _) ht)
        (fun pde pte ↦ hhid.load e d va pde pte hf dir hulim) b
      rw [run, Option.map_some] at hstore
      refine .store dir ?_ hstore
      show ∃ pde pte, (s.kern.mem.cover P g).walk d va = some (pde, pte) ∧ _
      rw [hwalk hf dir]
      exact allowed

theorem ForeignRun.unharmed (run : ForeignRun B (Kern.Bounded B) a s acts s')
    (h : Calm B M s.kern a) (hb : s.kern.Bounded B) :
    Calm B M s'.kern a ∧ Unharmed s.kern s'.kern a := by
  induction run with
  | nil s => exact ⟨h, .refl s.kern a⟩
  | cons foreign does ok rest ih =>
      obtain ⟨h₁, hsp₁⟩ := h.does hb foreign does
      obtain ⟨h₂, hsp₂⟩ := ih h₁ ok
      exact ⟨h₂, hsp₁.trans hsp₂⟩

/-- Who is a stranger does not depend on the pages. -/
theorem Act.Foreign.cover (hf : act.Foreign s a) : act.Foreign (s.cover P g) a := by
  cases act with
  | entry en =>
      refine ⟨hf.live, fun e he ↦ ?_, hf.fits⟩
      obtain ⟨hother, hparent⟩ := hf.stranger e he
      exact ⟨hother, hparent⟩
  | load e va => exact hf
  | store e va b => exact hf

theorem ForeignRun.cover (run : ForeignRun B (Kern.Bounded B) a s acts s')
    (h : Calm B M s.kern a) (hb : s.kern.Bounded B) (hP : ∀ p ∈ P, s.kern.OwnedBy a p) :
    ForeignRun B (fun _ ↦ True) a (s.cover P g) acts (s'.cover P g) := by
  induction run with
  | nil s => exact .nil _
  | cons foreign does ok rest ih =>
      obtain ⟨h₁, hsp₁⟩ := h.does hb foreign does
      exact .cons foreign.cover (h.does_cover hP foreign does) trivial
        (ih h₁ ok fun p hp ↦ hsp₁.owned p (hP p hp))

end

/-! ## Two environments -/

end Jos
