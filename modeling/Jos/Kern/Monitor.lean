import Jos.Kern.BootAlloc
import Jos.Kern.Runcmd
import Jos.Kern.Syscall

/-!
# The commands of the monitor (`kern/monitor.c`)

A handler may use the first `argc` pointers of `argv`, and may read their strings up to the NUL.  A
use of another pointer, or a read of another byte, ends the run as a stray one.

`mon_setperms` uses `argv[2]` before it looks at `argc`, and steps over `argv[3]` by two characters,
so that it may jump over the NUL.  `mon_showmapping` rounds the end of its range up, and then treats
the page there as part of the range; and its loop, as the one of `dumpmemhelper`, does not end if
there is no address after the last one.
-/

namespace Jos

open Jos.Lib

/-- The arguments of a handler. -/
structure Args where
  argc : ℕ
  argv : Argv
  mem : Text

/-- `argv[k]`: the string that may be read, and its address. -/
def Args.arg (a : Args) (k : ℕ) : Except Stop (Text × ℕ) :=
  if k < a.argc then
    match a.argv k with
    | none => .error .stray
    | some p => .ok (strAt a.mem p, p)
  else .error .stray

/-- A function that may panic. -/
def orPanic {α : Type} : Option α → Except Stop α
  | none => .error .panic
  | some x => .ok x

/-- `strtol(argv[k], NULL, 0)` -/
def Args.strtol (a : Args) (fuel k : ℕ) : Except Stop Word := do
  let (t, p) ← a.arg k
  let (val, _) ← Jos.strtol t fuel p 0
  return val

/-- `strcmp(argv[k], s)` -/
def Args.strcmp (a : Args) (k : ℕ) (s : String) : Except Stop ℤ := do
  let (t, p) ← a.arg k
  Jos.strcmp t p (bytes s)

/-- `for (va = startVa; va <= endVa; va += step) visit(va);`, with the addresses that it visits. -/
def rangeLoop (visit : Word → Except Stop Unit) (step endVa : Word) :
    ℕ → Word → Except Stop (List Word)
  | 0, _ => .error .timeout
  | fuel + 1, va =>
      if va ≤ endVa then do
        visit va
        let vas ← rangeLoop visit step endVa fuel (va + step)
        return va :: vas
      else return []

section

variable (B : Machine)

/-- `pgdir_walk(kern_pgdir, va, 0)` -/
def walkKern (m : Mem) (va : Word) : Except Stop (Option (ℕ × ℕ)) := do
  let (pte, _) ← orPanic (pgdirWalk B m B.kernPgdir va false)
  return pte

/-- `mon_showmapping` after the arguments are read: the pages that it shows. -/
def showmapping (m : Mem) (fuel : ℕ) (startVa endVa : Word) : Except Stop (List Word) :=
  let visit := fun va ↦ do
    let _ ← walkKern B m va
    return
  rangeLoop visit 0x1000 (roundup endVa 0x1000) fuel (rounddown startVa 0x1000)

/-- `*(uint32_t*)va`, with `cr3` the page directory in force.  A page fault in the kernel is a
panic. -/
def derefWord (m : Mem) (cr3 : ℕ) (va : Word) : Except Stop Unit :=
  if ∀ i < 4, (m.loadByte cr3 (va + BitVec.ofNat 32 i)).isSome then .ok () else .error .panic

/-- `dumpmemhelper`: the words that it shows. -/
def dumpmemhelper (m : Mem) (cr3 fuel : ℕ) (startVa endVa : Word) : Except Stop (List Word) :=
  let visit := fun va ↦ do
    match ← walkKern B m va with
    | none => return
    | some _ => derefWord m cr3 va
  rangeLoop visit 4 endVa fuel startVa

/-- `KADDR(pa)` -/
def kaddrVa (pa : Word) : Except Stop Word :=
  if B.npages ≤ pgnum pa then .error .panic else .ok (pa + KERNBASE)

def monShowmapping (fuel : ℕ) (a : Args) (m : Mem) : Except Stop Mem := do
  if a.argc ≠ 3 then .error .panic
  else
    let startVa ← a.strtol fuel 1
    let endVa ← a.strtol fuel 2
    let _ ← showmapping B m fuel startVa endVa
    return m

def monDumpmem (fuel : ℕ) (a : Args) (m : Mem) (cr3 : ℕ) : Except Stop Mem := do
  if a.argc ≠ 4 then .error .panic
  else
    let startVa ← a.strtol fuel 2
    let endVa ← a.strtol fuel 3
    if (← a.strcmp 1 "pa") = 0 then
      let _ ← dumpmemhelper B m cr3 fuel (← kaddrVa B startVa) (← kaddrVa B endVa)
      return m
    else if (← a.strcmp 1 "va") = 0 then
      let _ ← dumpmemhelper B m cr3 fuel startVa endVa
      return m
    else return m

/-- `while(argv[3][i]) { ... i += 2; }`, where `pte` is `*pte` and `t` the string at `p`. -/
def setpermsLoop (t : Text) (p : ℕ) : ℕ → ℕ → Word → Except Stop Word
  | 0, _, _ => .error .timeout
  | fuel + 1, i, pte => do
      let c ← t.load (p + i)
      if c = 0 then return pte
      else
        let pte := if c = chr 'P' then pte ||| PTE_P else pte
        let pte := if c = chr 'U' then pte ||| PTE_U else pte
        let pte := if c = chr 'W' then pte ||| PTE_W else pte
        setpermsLoop t p fuel (i + 2) pte

def monSetperms (fuel : ℕ) (a : Args) (m : Mem) : Except Stop Mem := do
  let va ← a.strtol fuel 2
  let pte ← walkKern B m va
  if a.argc ≤ 1 then .error .panic
  else
    let (t, j) ← orPanic pte
    if (← a.strcmp 1 "clear") = 0 then return m.write t j (m.phys t j &&& ~~~7)
    else if (← a.strcmp 1 "set") = 0 then
      let (s, p) ← a.arg 3
      let pte ← setpermsLoop s p fuel 1 (m.phys t j &&& ~~~7)
      return m.write t j pte
    else return m

/-- The commands.  `help`, `kerninfo` and `backtrace` only print, and use no argument. -/
inductive Command where
  | help
  | kerninfo
  | backtrace
  | showmapping
  | dumpmem
  | setperms

def commands : List (String × Command) :=
  [("help", .help), ("kerninfo", .kerninfo), ("backtrace", .backtrace),
    ("showmapping", .showmapping), ("dumpmem", .dumpmem), ("setperms", .setperms)]

/-- `commands[i].func(argc, argv, tf)` -/
def Command.func (fuel : ℕ) (a : Args) (m : Mem) (cr3 : ℕ) : Command → Except Stop Mem
  | .help | .kerninfo | .backtrace => return m
  | .showmapping => monShowmapping B fuel a m
  | .dumpmem => monDumpmem B fuel a m cr3
  | .setperms => monSetperms B fuel a m

/-- The loop that looks up `argv[0]`. -/
def lookupCommand (a : Args) : List (String × Command) → Except Stop (Option Command)
  | [] => return none
  | (name, cmd) :: cmds => do
      if (← a.strcmp 0 name) = 0 then return some cmd else lookupCommand a cmds

/-- `runcmd(buf)`, with `argv` the garbage in the local array. -/
def runcmd (fuel : ℕ) (t : Text) (buf : ℕ) (argv : Argv) (m : Mem) (cr3 : ℕ) :
    Except Stop Mem := do
  let (t, args) ← parseLine fuel t buf argv
  match args with
  | none => return m
  | some (argc, argv) =>
      if argc = 0 then return m
      else
        let a : Args := ⟨argc, argv, t⟩
        match ← lookupCommand a commands with
        | none => return m
        | some cmd => cmd.func B fuel a m cr3

end

/-! ## The loops over a range -/

section

variable {visit : Word → Except Stop Unit} {step endVa va : Word} {n fuel : ℕ}

/-- Address `i` of the loop. -/
def stepVa (step va : Word) (i : ℕ) : Word := va + BitVec.ofNat 32 i * step

theorem stepVa_zero (step va : Word) : stepVa step va 0 = va := by simp [stepVa]

theorem stepVa_succ (step va : Word) (i : ℕ) :
    stepVa step va (i + 1) = stepVa step (va + step) i := by
  rw [stepVa, stepVa, BitVec.ofNat_add, BitVec.add_mul, BitVec.add_assoc,
    BitVec.add_comm (BitVec.ofNat 32 i * step), BitVec.one_mul]

theorem map_range_succ (step va : Word) (n : ℕ) : (List.range (n + 1)).map (stepVa step va) =
    va :: (List.range n).map (stepVa step (va + step)) := by
  rw [List.range_succ_eq_map, List.map_cons, List.map_map, stepVa_zero]
  congr 2
  funext i
  exact stepVa_succ step va i

/-- The loop makes `n` rounds if it goes on at the first `n` addresses, and not at the next one. -/
theorem rangeLoop_ok (h : ∀ i < n, stepVa step va i ≤ endVa ∧ visit (stepVa step va i) = .ok ())
    (hstop : ¬ stepVa step va n ≤ endVa) :
    rangeLoop visit step endVa (n + 1) va = .ok ((List.range n).map (stepVa step va)) := by
  induction n generalizing va with
  | zero =>
      rw [stepVa_zero] at hstop
      exact if_neg hstop
  | succ n ih =>
      obtain ⟨hle, hvisit⟩ := h 0 (Nat.succ_pos n)
      rw [stepVa_zero] at hle hvisit
      rw [stepVa_succ] at hstop
      have hnext : ∀ i < n, stepVa step (va + step) i ≤ endVa ∧
          visit (stepVa step (va + step) i) = .ok () := fun i hi ↦ by
        rw [← stepVa_succ]
        exact h (i + 1) (Nat.succ_lt_succ hi)
      have hrest := ih hnext hstop
      rw [rangeLoop, if_pos hle, hvisit, ok_bind, hrest, map_range_succ]
      rfl

/-- If it ends, it has gone on at every address that it visited, and not at the next one. -/
theorem of_rangeLoop_ok {vas : List Word} (h : rangeLoop visit step endVa fuel va = .ok vas) :
    (∀ i < vas.length, stepVa step va i ≤ endVa ∧ visit (stepVa step va i) = .ok ()) ∧
      ¬ stepVa step va vas.length ≤ endVa := by
  induction fuel generalizing va vas with
  | zero => cases h
  | succ fuel ih =>
      rw [rangeLoop] at h
      split at h
      · next hle =>
          cases hvisit : visit va with
          | error x =>
              rw [hvisit] at h
              cases h
          | ok u =>
              rw [hvisit, ok_bind] at h
              cases hrest : rangeLoop visit step endVa fuel (va + step) with
              | error x =>
                  rw [hrest] at h
                  cases h
              | ok vas' =>
                  rw [hrest] at h
                  obtain rfl : va :: vas' = vas := Except.ok.inj h
                  obtain ⟨hall, hstop⟩ := ih hrest
                  refine ⟨fun i hi ↦ ?_, ?_⟩
                  · cases i with
                    | zero =>
                        rw [stepVa_zero]
                        exact ⟨hle, hvisit⟩
                    | succ i =>
                        rw [stepVa_succ]
                        exact hall i (Nat.lt_of_succ_lt_succ hi)
                  · rw [List.length_cons, stepVa_succ]
                    exact hstop
      · next hgt =>
          obtain rfl : [] = vas := Except.ok.inj h
          exact ⟨fun i hi ↦ absurd hi (Nat.not_lt_zero i), by rwa [List.length_nil, stepVa_zero]⟩

/-- The loop visits just the first `n` addresses, and ends. -/
theorem rangeLoop_iff : (∃ fuel, rangeLoop visit step endVa fuel va =
      .ok ((List.range n).map (stepVa step va))) ↔
    (∀ i < n, stepVa step va i ≤ endVa ∧ visit (stepVa step va i) = .ok ()) ∧
      ¬ stepVa step va n ≤ endVa := by
  constructor
  · rintro ⟨fuel, h⟩
    have hspec := of_rangeLoop_ok h
    rwa [List.length_map, List.length_range] at hspec
  · rintro ⟨h, hstop⟩
    exact ⟨n + 1, rangeLoop_ok h hstop⟩

end

section

variable {B : Machine} {m : Mem} {cr3 : ℕ} {startVa endVa : Word}

/-- The pages from the one of `startVa` to the one of `endVa`. -/
def pagesBetween (startVa endVa : Word) : List Word :=
  (List.range (pgnum endVa + 1 - pgnum startVa)).map fun i ↦ pageVa (pgnum startVa + i)

/-- The addresses `startVa`, `startVa + 4` and so on, up to `endVa`. -/
def wordsBetween (startVa endVa : Word) : List Word :=
  (List.range ((endVa.toNat - startVa.toNat) / 4 + 1)).map fun i ↦
    BitVec.ofNat 32 (startVa.toNat + 4 * i)

/-- `pgdir_walk` does not panic at any page of the range. -/
def Walkable (B : Machine) (m : Mem) (startVa endVa : Word) : Prop :=
  ∀ va ∈ pagesBetween startVa endVa, ∃ pte, walkKern B m va = .ok pte

/-- The words that have a page table can be read. -/
def Dumpable (B : Machine) (m : Mem) (cr3 : ℕ) (startVa endVa : Word) : Prop :=
  ∀ va ∈ wordsBetween startVa endVa, ∃ pte, walkKern B m va = .ok pte ∧
    (pte ≠ none → derefWord m cr3 va = .ok ())

theorem stepVa_toNat (step va : Word) (i : ℕ) :
    (stepVa step va i).toNat = (va.toNat + i * step.toNat) % 2 ^ 32 := by
  rw [stepVa, BitVec.toNat_add, BitVec.toNat_mul, BitVec.toNat_ofNat, Nat.add_mod_mod,
    Nat.add_mod, Nat.mod_mul_mod, ← Nat.add_mod]

theorem pagesBetween_eq (startVa endVa : Word) : pagesBetween startVa endVa =
    (List.range (pgnum endVa + 1 - pgnum startVa)).map
      (stepVa 0x1000 (rounddown startVa 0x1000)) := by
  refine List.map_congr_left fun i _ ↦ BitVec.eq_of_toNat_eq ?_
  rw [stepVa_toNat, rounddown_toNat, pageVa, BitVec.toNat_ofNat, pgnum_eq, Nat.add_mul,
    show (0x1000 : Word).toNat = 4096 from rfl]

theorem wordsBetween_eq (startVa endVa : Word) : wordsBetween startVa endVa =
    (List.range ((endVa.toNat - startVa.toNat) / 4 + 1)).map (stepVa 4 startVa) := by
  refine List.map_congr_left fun i _ ↦ BitVec.eq_of_toNat_eq ?_
  rw [stepVa_toNat, BitVec.toNat_ofNat, show (4 : Word).toNat = 4 from rfl, Nat.mul_comm 4]

/-- `showmapping` shows the pages of the range, and ends, if the range ends at the start of a page
and this is not the last one. -/
theorem showmapping_iff (h : startVa ≤ endVa) :
    (∃ fuel, showmapping B m fuel startVa endVa = .ok (pagesBetween startVa endVa)) ↔
      endVa.toNat % 4096 = 0 ∧ endVa.toNat < 0xFFFFF000 ∧ Walkable B m startVa endVa := by
  have hlt := endVa.isLt
  rw [BitVec.le_def] at h
  rw [Walkable, pagesBetween_eq]
  simp only [showmapping, rangeLoop_iff]
  have hvisit : ∀ va, (walkKern B m va >>= fun _ ↦ pure ()) = (.ok () : Except Stop Unit) ↔
      ∃ pte, walkKern B m va = .ok pte := by
    intro va
    cases walkKern B m va with
    | error x => exact iff_of_false (fun hc ↦ by cases hc) fun ⟨pte, hc⟩ ↦ by cases hc
    | ok pte => exact iff_of_true rfl ⟨pte, rfl⟩
  have hnat : ∀ i, (stepVa 0x1000 (rounddown startVa 0x1000) i).toNat =
      (startVa.toNat / 4096 * 4096 + i * 4096) % 2 ^ 32 := fun i ↦ by
    rw [stepVa_toNat, rounddown_toNat]
    rfl
  simp only [hvisit, BitVec.le_def, hnat, roundup_toNat, List.forall_mem_map, List.mem_range,
    pgnum_eq]
  constructor
  · rintro ⟨hall, hstop⟩
    have hlast := (hall (endVa.toNat / 4096 - startVa.toNat / 4096) (by omega)).1
    refine ⟨by omega, by omega, fun i hi ↦ (hall i hi).2⟩
  · rintro ⟨haligned, hend, hwalk⟩
    exact ⟨fun i hi ↦ ⟨by omega, hwalk i hi⟩, by omega⟩

/-- `dumpmem` shows the words of the range, and ends, if the address after the last word does not
wrap around. -/
theorem dumpmemhelper_iff (h : startVa ≤ endVa) :
    (∃ fuel, dumpmemhelper B m cr3 fuel startVa endVa = .ok (wordsBetween startVa endVa)) ↔
      startVa.toNat + 4 * ((endVa.toNat - startVa.toNat) / 4 + 1) < 2 ^ 32 ∧
        Dumpable B m cr3 startVa endVa := by
  have hlt := endVa.isLt
  rw [BitVec.le_def] at h
  rw [Dumpable, wordsBetween_eq]
  simp only [dumpmemhelper, rangeLoop_iff]
  have hvisit : ∀ va, (walkKern B m va >>= fun pte ↦ match pte with
        | none => pure ()
        | some _ => derefWord m cr3 va) = (.ok () : Except Stop Unit) ↔
      ∃ pte, walkKern B m va = .ok pte ∧ (pte ≠ none → derefWord m cr3 va = .ok ()) := by
    intro va
    cases walkKern B m va with
    | error x => exact iff_of_false (fun hc ↦ by cases hc) fun ⟨pte, hc, _⟩ ↦ by cases hc
    | ok pte =>
        cases pte with
        | none => exact iff_of_true rfl ⟨none, rfl, fun hc ↦ absurd rfl hc⟩
        | some q =>
            refine ⟨fun hd ↦ ⟨some q, rfl, fun _ ↦ hd⟩, ?_⟩
            rintro ⟨pte, hpte, hd⟩
            cases hpte
            exact hd (Option.some_ne_none q)
  have hnat : ∀ i, (stepVa 4 startVa i).toNat = (startVa.toNat + i * 4) % 2 ^ 32 := fun i ↦
    stepVa_toNat 4 startVa i
  simp only [hvisit, BitVec.le_def, hnat, List.forall_mem_map, List.mem_range]
  constructor
  · rintro ⟨hall, hstop⟩
    exact ⟨by omega, fun i hi ↦ (hall i hi).2⟩
  · rintro ⟨hend, hdump⟩
    exact ⟨fun i hi ↦ ⟨by omega, hdump i hi⟩, by omega⟩

/-- When the monitor's range commands cover their range and end. -/
theorem range_commands_iff (h : startVa ≤ endVa) :
    ((∃ fuel, showmapping B m fuel startVa endVa = .ok (pagesBetween startVa endVa)) ↔
      endVa.toNat % 4096 = 0 ∧ endVa.toNat < 0xFFFFF000 ∧ Walkable B m startVa endVa) ∧
    ((∃ fuel, dumpmemhelper B m cr3 fuel startVa endVa = .ok (wordsBetween startVa endVa)) ↔
      startVa.toNat + 4 * ((endVa.toNat - startVa.toNat) / 4 + 1) < 2 ^ 32 ∧
        Dumpable B m cr3 startVa endVa) :=
  ⟨showmapping_iff h, dumpmemhelper_iff h⟩

/-- A machine with one page, and nothing mapped. -/
def bareMachine : Machine := ⟨1, 0, by decide⟩

def bareMem : Mem := ⟨fun _ ↦ ⟨none, 0⟩, none, fun _ _ ↦ 0, []⟩

theorem walkKern_bare (va : Word) : walkKern bareMachine bareMem va = .ok none := by
  have hP : ¬ isSet (bareMem.phys bareMachine.kernPgdir (pdx va)) PTE_P :=
    show ¬ isSet 0 PTE_P by decide
  rw [walkKern, pgdirWalk, if_neg hP, if_neg (by decide)]
  rfl

theorem range_commands_iff_demo :
    (∃ fuel, showmapping bareMachine bareMem fuel 0x1234 0x3000 = .ok [0x1000, 0x2000, 0x3000]) ∧
    ∃ fuel, dumpmemhelper bareMachine bareMem 0 fuel 0x1234 0x123B = .ok [0x1234, 0x1238] := by
  have hshow := (@range_commands_iff bareMachine bareMem 0 0x1234 0x3000 (by decide)).1
  have hdump := (@range_commands_iff bareMachine bareMem 0 0x1234 0x123B (by decide)).2
  refine ⟨hshow.mpr ⟨by decide, by decide, fun va _ ↦ ⟨none, walkKern_bare va⟩⟩,
    hdump.mpr ⟨by decide, fun va _ ↦ ⟨none, walkKern_bare va, fun hc ↦ absurd rfl hc⟩⟩⟩

/-- `showmapping 0x1000 0x1001` also shows the next page, and the loop of
`dumpmem va 0xfffffffc 0xffffffff` does not end. -/
theorem range_commands_wrong :
    (¬ ∃ fuel, showmapping bareMachine bareMem fuel 0x1000 0x1001 =
      .ok (pagesBetween 0x1000 0x1001)) ∧
    ¬ ∃ fuel, dumpmemhelper bareMachine bareMem 0 fuel 0xFFFFFFFC 0xFFFFFFFF =
      .ok (wordsBetween 0xFFFFFFFC 0xFFFFFFFF) := by
  rw [showmapping_iff (by decide), dumpmemhelper_iff (by decide)]
  exact ⟨fun hc ↦ absurd hc.1 (by decide), fun hc ↦ absurd hc.1 (by decide)⟩

end

/-! ## What the handlers use of their arguments -/

/-- The run does not stray. -/
def Clean {α : Type} (x : Except Stop α) : Prop := x ≠ .error .stray

section

variable {α β : Type}

theorem clean_ok (a : α) : Clean (.ok a) := fun h ↦ by cases h

theorem clean_panic : Clean (.error .panic : Except Stop α) := fun h ↦ by cases h

theorem not_clean_stray : ¬ Clean (.error .stray : Except Stop α) := fun h ↦ h rfl

theorem Clean.bind {x : Except Stop α} {f : α → Except Stop β} (h : Clean x)
    (hf : ∀ a, Clean (f a)) : Clean (x >>= f) := by
  cases x with
  | error e => exact fun hc ↦ h (congrArg Except.error (Except.error.inj hc))
  | ok a => exact hf a

theorem clean_orPanic (o : Option α) : Clean (orPanic o) := by
  cases o with
  | none => exact clean_panic
  | some a => exact clean_ok a

theorem clean_walkKern (B : Machine) (m : Mem) (va : Word) : Clean (walkKern B m va) :=
  (clean_orPanic _).bind fun _ ↦ clean_ok _

theorem clean_derefWord (m : Mem) (cr3 : ℕ) (va : Word) : Clean (derefWord m cr3 va) := by
  rw [derefWord]
  split
  · exact clean_ok _
  · exact clean_panic

theorem clean_kaddrVa (B : Machine) (pa : Word) : Clean (kaddrVa B pa) := by
  rw [kaddrVa]
  split
  · exact clean_panic
  · exact clean_ok _

theorem clean_rangeLoop {visit : Word → Except Stop Unit} (h : ∀ va, Clean (visit va))
    (step endVa : Word) (fuel : ℕ) (va : Word) :
    Clean (rangeLoop visit step endVa fuel va) := by
  induction fuel generalizing va with
  | zero => exact fun hc ↦ by cases hc
  | succ fuel ih =>
      rw [rangeLoop]
      split
      · exact (h va).bind fun _ ↦ (ih _).bind fun _ ↦ clean_ok _
      · exact clean_ok _

theorem clean_showmapping (B : Machine) (m : Mem) (fuel : ℕ) (startVa endVa : Word) :
    Clean (showmapping B m fuel startVa endVa) :=
  clean_rangeLoop (fun va ↦ (clean_walkKern B m va).bind fun _ ↦ clean_ok _) _ _ _ _

theorem clean_dumpmemhelper (B : Machine) (m : Mem) (cr3 fuel : ℕ) (startVa endVa : Word) :
    Clean (dumpmemhelper B m cr3 fuel startVa endVa) := by
  refine clean_rangeLoop (fun va ↦ (clean_walkKern B m va).bind fun pte ↦ ?_) _ _ _ _
  cases pte with
  | none => exact clean_ok _
  | some _ => exact clean_derefWord m cr3 va

end

/-- The words `ws` are the arguments. -/
structure Args.Holds (a : Args) (ws : List (List (BitVec 8))) : Prop where
  argc : a.argc = ws.length
  word : ∀ k (hk : k < ws.length), ∃ q, a.argv k = some q ∧ CStr a.mem q (ws.get ⟨k, hk⟩)

namespace Args

variable {a : Args} {ws : List (List (BitVec 8))} {w : List (BitVec 8)} {k fuel : ℕ}

theorem arg_stray (hk : a.argc ≤ k) : a.arg k = .error .stray := if_neg (Nat.not_lt.mpr hk)

theorem strtol_stray (hk : a.argc ≤ k) : a.strtol fuel k = .error .stray := by
  rw [Args.strtol, arg_stray hk, error_bind]

variable (h : a.Holds ws)

include h

/-- An argument may be read up to its NUL. -/
theorem Holds.arg (hw : ws[k]? = some w) : ∃ t p, a.arg k = .ok (t, p) ∧ CStr t p w ∧
    ∀ x, p + w.length < x → t x = none := by
  obtain ⟨hk, rfl⟩ := List.getElem?_eq_some_iff.mp hw
  obtain ⟨q, hq, hstr⟩ := h.word k hk
  refine ⟨strAt a.mem q, q, ?_, hstr.cstr_strAt, fun x hx ↦ hstr.strAt_eq_none hx⟩
  rw [Args.arg, if_pos (h.argc ▸ hk), hq]

theorem Holds.strtol (hw : ws[k]? = some w) (hfuel : w.length < fuel) :
    a.strtol fuel k = .ok (strtolString w 0).1 := by
  obtain ⟨t, p, harg, hstr, -⟩ := h.arg hw
  obtain ⟨q, hrun, -⟩ := strtol_spec 0 ⟨hstr, rfl⟩ hfuel
  rw [Args.strtol, harg, ok_bind]
  dsimp only
  rw [hrun]
  rfl

theorem Holds.strcmp (hw : ws[k]? = some w) {s : String} (hs : ∀ x ∈ bytes s, x ≠ 0) :
    ∃ r, a.strcmp k s = .ok r ∧ (r = 0 ↔ w = bytes s) := by
  obtain ⟨t, p, harg, hstr, -⟩ := h.arg hw
  obtain ⟨r, hrun, hr⟩ := strcmp_spec hstr hs
  refine ⟨r, ?_, hr⟩
  rw [Args.strcmp, harg]
  exact hrun

/-- The command is looked up by the first word. -/
theorem Holds.lookupCommand (hw : ws[0]? = some w) {cmds : List (String × Command)}
    (hcmds : ∀ c ∈ cmds, ∀ x ∈ bytes c.1, x ≠ 0) :
    lookupCommand a cmds = .ok ((cmds.find? fun c ↦ w = bytes c.1).map Prod.snd) := by
  induction cmds with
  | nil => rfl
  | cons c cmds ih =>
      obtain ⟨hc, hcmds⟩ := List.forall_mem_cons.mp hcmds
      obtain ⟨r, hrun, hr⟩ := h.strcmp hw hc
      rw [Jos.lookupCommand, hrun, ok_bind]
      by_cases hname : w = bytes c.1
      · rw [if_pos (hr.mpr hname), List.find?_cons_of_pos (by simpa using hname)]
        rfl
      · rw [if_neg fun hc ↦ hname (hr.mp hc), List.find?_cons_of_neg (by simpa using hname),
          ih hcmds]

end Args

/-! ## `setperms` -/

section

variable {B : Machine} {m : Mem} {cr3 fuel : ℕ} {a : Args} {ws : List (List (BitVec 8))}

/-- The loop steps over two characters, so it meets the NUL of a string if its length is as odd as
the first index. -/
theorem setpermsLoop_clean_iff {t : Text} {p i : ℕ} {w : List (BitVec 8)} (pte : Word)
    (h : CStr t p w) (hend : ∀ x, p + w.length < x → t x = none) (hi : i ≤ w.length + 1)
    (hfuel : w.length + 1 < i + fuel) :
    Clean (setpermsLoop t p fuel i pte) ↔ w.length % 2 = i % 2 := by
  induction fuel generalizing i pte with
  | zero => omega
  | succ fuel ih =>
      rw [setpermsLoop]
      rcases Nat.lt_or_ge i w.length with hlt | hge
      · obtain ⟨xs, c, ys, rfl, rfl⟩ : ∃ xs c ys, w = xs ++ c :: ys ∧ xs.length = i :=
          ⟨w.take i, w.get ⟨i, hlt⟩, w.drop (i + 1), by simp, by simp; omega⟩
        have hne : c ≠ 0 := h.ne_zero c (by simp)
        rw [Text.load_eq h.char_eq, ok_bind, if_neg hne, ih _ (by omega) (by omega)]
        omega
      · rcases Nat.eq_or_lt_of_le hge with heq | hgt
        · rw [← heq, Text.load_eq h.stop_eq, ok_bind, if_pos rfl]
          exact iff_of_true (clean_ok _) rfl
        · rw [Text.load, hend _ (by omega)]
          exact iff_of_false not_clean_stray (by omega)

/-- There is a page table for the address `w`. -/
def HasPte (B : Machine) (m : Mem) (w : List (BitVec 8)) : Prop :=
  ∃ pte, walkKern B m (strtolString w 0).1 = .ok (some pte)

/-- The words of a `setperms` command that keeps to its arguments. -/
def SetpermsFits (B : Machine) (m : Mem) : List (List (BitVec 8)) → Prop
  | [_, w₁, w₂] => w₁ = bytes "set" → ¬ HasPte B m w₂
  | _ :: w₁ :: w₂ :: w₃ :: _ => w₁ = bytes "set" → HasPte B m w₂ → w₃.length % 2 = 1
  | _ => False

theorem setpermsFits_cons {w₀ w₁ w₂ : List (BitVec 8)} :
    SetpermsFits B m (w₀ :: w₁ :: w₂ :: ws) ↔
      (w₁ = bytes "set" → HasPte B m w₂ → ∃ w₃ ∈ ws.head?, w₃.length % 2 = 1) := by
  cases ws with
  | nil => simp [SetpermsFits]
  | cons w₃ ws => simp [SetpermsFits]

theorem not_setpermsFits (h : ws.length ≤ 2) : ¬ SetpermsFits B m ws := by
  match ws with
  | [] => exact id
  | [_] => exact id
  | [_, _] => exact id
  | _ :: _ :: _ :: _ => simp at h

/-- `mon_setperms` with at least two arguments. -/
theorem monSetperms_clean_iff_fits {w₀ w₁ w₂ : List (BitVec 8)}
    (h : a.Holds (w₀ :: w₁ :: w₂ :: ws)) (hne : ∀ w ∈ ws, w ≠ []) (hfuel₂ : w₂.length < fuel)
    (hfuel : ∀ w ∈ ws, w.length < fuel) :
    Clean (monSetperms B fuel a m) ↔ SetpermsFits B m (w₀ :: w₁ :: w₂ :: ws) := by
  have hargc : a.argc = ws.length + 3 := h.argc
  obtain ⟨r, hclear, hr⟩ := h.strcmp (k := 1) rfl (s := "clear") (by simp [bytes, chr])
  obtain ⟨r', hset, hr'⟩ := h.strcmp (k := 1) rfl (s := "set") (by simp [bytes, chr])
  rw [setpermsFits_cons, monSetperms, h.strtol (k := 2) rfl hfuel₂, ok_bind]
  cases hwalk : walkKern B m (strtolString w₂ 0).1 with
  | error x =>
      have hx := clean_walkKern B m (strtolString w₂ 0).1
      rw [hwalk] at hx
      refine iff_of_true (fun hc ↦ hx (congrArg Except.error (Except.error.inj hc))) ?_
      rintro - ⟨pte, hpte⟩
      cases hwalk.symm.trans hpte
  | ok pte =>
      rw [ok_bind, if_neg (by omega)]
      cases pte with
      | none =>
          refine iff_of_true clean_panic ?_
          rintro - ⟨pte, hpte⟩
          cases hwalk.symm.trans hpte
      | some q =>
          have hpte : HasPte B m w₂ := ⟨q, hwalk⟩
          rw [orPanic, ok_bind]
          dsimp only
          rw [hclear, ok_bind]
          by_cases h1 : r = 0
          · rw [if_pos h1]
            refine iff_of_true (clean_ok _) fun hc ↦ ?_
            exact absurd ((hr.mp h1).symm.trans hc) (by simp [bytes, chr])
          rw [if_neg h1, hset, ok_bind]
          by_cases h2 : r' = 0
          swap
          · rw [if_neg h2]
            exact iff_of_true (clean_ok _) fun hc ↦ absurd (hr'.mpr hc) h2
          rw [if_pos h2, forall_prop_of_true (hr'.mp h2), forall_prop_of_true hpte]
          -- `argv[3]` is used
          cases ws with
          | nil =>
              rw [Args.arg_stray (by rw [hargc]; rfl), error_bind]
              exact iff_of_false not_clean_stray (by simp)
          | cons w₃ ws =>
              obtain ⟨t, p, harg, hstr, hend⟩ := h.arg (k := 3) rfl
              have hpos := List.length_pos_of_ne_nil (hne w₃ List.mem_cons_self)
              have hlen := hfuel w₃ List.mem_cons_self
              have hloop := @setpermsLoop_clean_iff fuel t p 1 w₃ (m.phys q.1 q.2 &&& ~~~7)
                hstr hend (by omega) (by omega)
              rw [harg, ok_bind]
              dsimp only
              have hrest : Clean (setpermsLoop t p fuel 1 (m.phys q.1 q.2 &&& ~~~7) >>= fun pte ↦
                  pure (m.write q.1 q.2 pte)) ↔
                  Clean (setpermsLoop t p fuel 1 (m.phys q.1 q.2 &&& ~~~7)) := by
                cases setpermsLoop t p fuel 1 (m.phys q.1 q.2 &&& ~~~7) with
                | error x =>
                    refine ⟨fun hc hx ↦ hc ?_, fun hc hx ↦ hc ?_⟩
                    · rw [Except.error.inj hx]
                      rfl
                    · rw [Except.error.inj hx]
                | ok pte => exact iff_of_true (clean_ok _) (clean_ok _)
              rw [hrest, hloop]
              simp

theorem monSetperms_clean_iff (h : a.Holds ws) (hne : ∀ w ∈ ws, w ≠ [])
    (hfuel : ∀ w ∈ ws, w.length < fuel) :
    Clean (monSetperms B fuel a m) ↔ SetpermsFits B m ws := by
  rcases Nat.lt_or_ge 2 ws.length with hlen | hlen
  · obtain ⟨w₀, w₁, w₂, ws, rfl⟩ : ∃ w₀ w₁ w₂ ws', ws = w₀ :: w₁ :: w₂ :: ws' := by
      match ws, hlen with
      | w₀ :: w₁ :: w₂ :: ws, _ => exact ⟨w₀, w₁, w₂, ws, rfl⟩
    exact monSetperms_clean_iff_fits h (fun w hw ↦ hne w (by simp [hw])) (hfuel w₂ (by simp))
      fun w hw ↦ hfuel w (by simp [hw])
  · rw [monSetperms, Args.strtol_stray (by rw [h.argc]; exact hlen), error_bind]
    exact iff_of_false not_clean_stray (not_setpermsFits hlen)

/-- The other handlers with arguments keep to them. -/
theorem clean_monShowmapping (h : a.Holds ws) (hfuel : ∀ w ∈ ws, w.length < fuel) :
    Clean (monShowmapping B fuel a m) := by
  rw [monShowmapping]
  split
  · exact clean_panic
  · next hargc =>
      obtain ⟨w₀, w₁, w₂, rfl⟩ := List.length_eq_three.mp (h.argc.symm.trans (not_not.mp hargc))
      rw [h.strtol (k := 1) rfl (hfuel w₁ (by simp)), ok_bind,
        h.strtol (k := 2) rfl (hfuel w₂ (by simp)), ok_bind]
      exact (clean_showmapping B m fuel _ _).bind fun _ ↦ clean_ok _

theorem clean_monDumpmem (h : a.Holds ws) (hfuel : ∀ w ∈ ws, w.length < fuel) :
    Clean (monDumpmem B fuel a m cr3) := by
  rw [monDumpmem]
  split
  · exact clean_panic
  · next hargc =>
      have hlen : ws.length = 4 := h.argc.symm.trans (not_not.mp hargc)
      obtain ⟨w₀, w₁, w₂, w₃, rfl⟩ : ∃ w₀ w₁ w₂ w₃, ws = [w₀, w₁, w₂, w₃] := by
        match ws, hlen with
        | [w₀, w₁, w₂, w₃], _ => exact ⟨w₀, w₁, w₂, w₃, rfl⟩
      obtain ⟨r, hpa, -⟩ := h.strcmp (k := 1) rfl (s := "pa") (by simp [bytes, chr])
      obtain ⟨r', hva, -⟩ := h.strcmp (k := 1) rfl (s := "va") (by simp [bytes, chr])
      rw [h.strtol (k := 2) rfl (hfuel w₂ (by simp)), ok_bind,
        h.strtol (k := 3) rfl (hfuel w₃ (by simp)), ok_bind, hpa, ok_bind]
      split
      · refine (clean_kaddrVa B _).bind fun _ ↦ (clean_kaddrVa B _).bind fun _ ↦ ?_
        exact (clean_dumpmemhelper B m cr3 fuel _ _).bind fun _ ↦ clean_ok _
      · rw [hva, ok_bind]
        split
        · exact (clean_dumpmemhelper B m cr3 fuel _ _).bind fun _ ↦ clean_ok _
        · exact clean_ok _

/-- A command line is run within its arguments, unless it is a `setperms` command with too few
arguments or with permissions of even length. -/
theorem runcmd_keeps_to_arguments_iff {t : Text} {buf : ℕ} {line : List (BitVec 8)}
    (h : CStr t buf line) (hfuel : line.length < fuel) (argv : Argv) :
    Clean (runcmd B fuel t buf argv m cr3) ↔
      ((words isSpace line).length ≤ 15 → (words isSpace line).head? = some (bytes "setperms") →
        SetpermsFits B m (words isSpace line)) := by
  obtain ⟨t', r, hparse, -, hparsed⟩ := parseLine_spec h hfuel argv
  have hne : ∀ w ∈ words isSpace line, w ≠ [] := fun w hw ↦ ne_nil_of_mem_words hw
  have hlen : ∀ w ∈ words isSpace line, w.length < fuel := fun w hw ↦
    (length_le_of_mem_words hw).trans_lt hfuel
  generalize words isSpace line = ws at *
  rw [runcmd, hparse, ok_bind]
  cases r with
  | none =>
      have hmany : 16 ≤ 0 + ws.length := hparsed
      exact iff_of_true (clean_ok _) fun hc ↦ by omega
  | some r =>
      obtain ⟨argc, argv'⟩ := r
      obtain ⟨hlt, hargued⟩ := hparsed
      have hcount : argc = ws.length := hargued.count.trans (Nat.zero_add _)
      have hholds : Args.Holds ⟨argc, argv', t'⟩ ws := ⟨hcount, fun k hk ↦ by
        obtain ⟨q, hq, hstr⟩ := hargued.word k hk
        exact ⟨q, by rwa [Nat.zero_add] at hq, hstr⟩⟩
      have h15 : ws.length ≤ 15 := hcount ▸ Nat.le_of_lt_succ hlt
      rw [forall_prop_of_true h15]
      dsimp only
      cases ws with
      | nil =>
          rw [if_pos (show argc = 0 from hcount)]
          exact iff_of_true (clean_ok _) fun hc ↦ by cases hc
      | cons w ws =>
          rw [if_neg (by rw [hcount]; exact Nat.succ_ne_zero _),
            hholds.lookupCommand (w := w) rfl (by simp [commands, bytes, chr]), ok_bind,
            List.head?_cons, Option.some.injEq]
          by_cases hw : w = bytes "setperms"
          · subst hw
            rw [forall_prop_of_true rfl, ← monSetperms_clean_iff hholds hne hlen]
            rfl
          · rw [forall_prop_of_false hw, iff_true]
            cases hfind : commands.find? fun c ↦ w = bytes c.1 with
            | none => exact clean_ok _
            | some c =>
                obtain ⟨name, cmd⟩ := c
                have hname : w = bytes name := by simpa using List.find?_some hfind
                have hmem := List.mem_of_find?_eq_some hfind
                cases cmd with
                | help | kerninfo | backtrace => exact clean_ok _
                | showmapping => exact clean_monShowmapping hholds hlen
                | dumpmem => exact clean_monDumpmem hholds hlen
                | setperms =>
                    have hset : name = "setperms" := by simpa [commands] using hmem
                    exact absurd (hset ▸ hname) hw

/-- `help` has no use for the other words of the line. -/
theorem runcmd_keeps_to_arguments_iff_demo :
    Clean (runcmd bareMachine 10 (onlyStr (bytes "help me ")) 0 (fun _ ↦ none) bareMem 0) :=
  (runcmd_keeps_to_arguments_iff (cstr_onlyStr (by decide)) (by decide) _).mpr fun _ hc ↦
    absurd hc (by decide)

/-- `setperms` alone uses `argv[2]`. -/
theorem runcmd_setperms_strays : ¬ Clean
    (runcmd bareMachine 10 (onlyStr (bytes "setperms")) 0 (fun _ ↦ none) bareMem 0) :=
  fun h ↦ h rfl

end

end Jos
