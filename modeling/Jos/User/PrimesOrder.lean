import Jos.Libc.ForkImage
import Jos.User.PrimesSieve

/-!
# The primes in order

What an environment of the chain prints is the first number that it hears, and number `n` hears what
the first `n` primes let through.
-/

namespace Jos

open Jos.Lib Jos.Primes

variable {B : Machine} {k k' : Kern} {entry child : Word} {cur e g : Slot} {f f' : ForkPc}
  {x : PrimesSys} {p p' : Primes}

/-! ## The primes -/

/-- An environment of the chain has not come to its prime yet, or it has printed it and passes on
what it lets through. -/
theorem Primes.Log.filters (h : p.Log) (hmain : ¬ p.pc.IsMain) :
    p.printed = [] ∧ p.sent = [] ∨ ∃ q t held, p.Filters q t held := by
  obtain ⟨pc, thisenv, heard, printed, sent⟩ := p
  cases pc with
  | mainFork f => exact absurd trivial hmain
  | feed id i => exact absurd trivial hmain
  | feedYield id i => exact absurd trivial hmain
  | born => exact .inl h.2
  | top => exact .inl h.2
  | first => exact .inl h.2
  | print q => exact .inl h.2
  | primeFork q f => exact .inr ⟨q, [], [], h⟩
  | loop q id => exact .inr ⟨q, h.choose, [], h.choose_spec⟩
  | next q id => exact .inr ⟨q, h.choose, [], h.choose_spec⟩
  | test q id i => exact .inr ⟨q, h.choose, [i], h.choose_spec⟩
  | send q id i => exact .inr ⟨q, h.2.choose, [i], h.2.choose_spec⟩
  | sendYield q id i => exact .inr ⟨q, h.2.choose, [i], h.2.choose_spec⟩
  | panic => exact h.elim

/-- The parent of an environment is its left neighbour. -/
theorem SieveInv.flow_of_parent (h : SieveInv x g) {e₁ : Slot} {p₁ : Primes}
    (hp : x.procs e = some p) (hp₁ : x.procs e₁ = some p₁)
    (parent : (x.kern.envs e).envParentId = (x.kern.envs e₁).envId) :
    e ≠ g ∧ p₁.sent = p.heard ++ p.pending (x.kern.envs e) := by
  have hne : e ≠ g := by
    rintro rfl
    exact (h.node e₁ p₁ hp₁).id_ne (parent.symm.trans h.root.1)
  obtain ⟨e₀, p₀, hp₀, hr⟩ := h.left e p hp hne
  obtain ⟨q, hq, hl⟩ := h.right e₀ p₀ _ hp₀ hr
  rw [(h.node e p hp).id] at hq hl
  obtain rfl := Option.some.inj (hp.symm.trans hq)
  obtain rfl : e₀ = e₁ := by
    rw [← (h.node e₀ p₀ hp₀).id, ← (h.node e₁ p₁ hp₁).id, ← hl.parent, parent]
  obtain rfl := Option.some.inj (hp₀.symm.trans hp₁)
  exact ⟨hne, hl.flow⟩

/-- What has arrived at number `n` of the chain are the first numbers of stage `n` of the sieve. -/
theorem SieveInv.arrived (h : SieveInv x g) {n : ℕ} (he : IsPrimeproc x g n e)
    (hp : x.procs e = some p) : e ≠ g ∧
    ∃ N, (p.heard ++ p.pending (x.kern.envs e)).map BitVec.toNat <+: sieved n N := by
  induction he generalizing p with
  | @first e proc parent =>
      obtain ⟨p₁, hp₁⟩ := Option.ne_none_iff_exists'.mp h.root.2
      obtain ⟨hne, hflow⟩ := h.flow_of_parent hp hp₁ parent
      rw [← hflow]
      have hlog := (h.node g p₁ hp₁).log
      have hmain := (h.main g p₁ hp₁).mpr rfl
      obtain ⟨pc, thisenv, heard, printed, sent⟩ := p₁
      refine ⟨hne, ?_⟩
      cases pc with
      | mainFork f => exact ⟨0, by rw [show sent = [] from hlog.2]; exact List.nil_prefix⟩
      | feed id i => exact ⟨i.toNat - 2 + 2, by rw [sieved_zero, hlog.2.2]⟩
      | feedYield id i => exact ⟨i.toNat - 2 + 2, by rw [sieved_zero, hlog.2.2]⟩
      | _ => exact hmain.elim
  | @next n e₁ e left proc parent ih =>
      have hleft : x.procs e₁ ≠ none := by
        cases left with
        | first proc => exact proc
        | next left proc => exact proc
      obtain ⟨p₁, hp₁⟩ := Option.ne_none_iff_exists'.mp hleft
      obtain ⟨hne, hflow⟩ := h.flow_of_parent hp hp₁ parent
      obtain ⟨hne₁, N, hpre⟩ := ih hp₁
      rw [← hflow]
      refine ⟨hne, N, ?_⟩
      rcases (h.node e₁ p₁ hp₁).log.filters (mt (h.main e₁ p₁ hp₁).mp hne₁) with
        ⟨-, hsent⟩ | ⟨q, t, held, hheard, -, hsent⟩
      · rw [hsent]
        exact List.nil_prefix
      · have hqt : q.toNat :: t.map BitVec.toNat <+: sieved n N := by
          rw [hheard, ← List.cons_append, List.append_assoc] at hpre
          exact ((List.prefix_append _ _).map BitVec.toNat).trans hpre
        have hmap : (passes q t).map BitVec.toNat = (t.map BitVec.toNat).filter
            (¬ q.toNat ∣ ·) := by
          rw [passes, List.filter_map]
          rfl
        rw [hsent, hmap]
        exact passed_sieved hqt

/-! ## The run up to the first prime -/

/-- The environments of the chain are not free. -/
theorem SieveInv.ne_head (h : SieveInv x g) (hp : x.procs e = some p) {ch : Slot}
    (head : x.kern.envFreeList = some ch) : e ≠ ch := by
  rintro rfl
  obtain ⟨el, hchain, hel⟩ := h.free
  rw [head] at hchain
  obtain ⟨t, rfl, -⟩ := hchain.pop
  exact (h.node e p hp).ne_free (hel e List.mem_cons_self)

/-- While `fork` goes on, its caller keeps its status. -/
theorem ForkEffect.status (h : ForkEffect k cur f f' k')
    (head : ∀ ch, k.envFreeList = some ch → cur ≠ ch) (done : ∀ child, f' ≠ .done child) :
    (k'.envs cur).envStatus = (k.envs cur).envStatus := by
  cases h with
  | @alloc _ _ m d tf hhead => rw [k.forked_of_ne cur m d tf (head _ hhead)]
  | start found => exact absurd rfl (done _)
  | other _ _ _ _ status => exact status cur

/-- A running environment makes a step that is not the end of a `fork`. -/
theorem PrimesRun.own {x₀ : PrimesSys} (run : PrimesRun B entry x₀ x) (p' : Primes) (k' : Kern)
    (hp : x.procs e = some p) (running : (x.kern.envs e).envStatus = .running)
    (step : primesStep B entry e x.kern p = some (p', k')) (forks : ¬ p'.pc.ForkFailed)
    (forked : p'.pc.forked = none) :
    PrimesRun B entry x₀ ⟨k', Function.update x.procs e (some p')⟩ := by
  have hstep := PrimesStep.own hp running step forks
  rw [PrimesSys.after_of_none forked] at hstep
  exact run.tail hstep

/-- The first environment is on its way through `fork`. -/
theorem PrimesRun.fork {x₀ : PrimesSys} (h₀ : SieveInv x₀ g)
    (hp : x₀.procs g = some { pc := .mainFork f, thisenv := g })
    (running : (x₀.kern.envs g).envStatus = .running) {y : ForkPc × Kern}
    (forks : Relation.ReflTransGen (OwnStep B entry g) (f, x₀.kern) y) (ok : y.1 ≠ .panic)
    (pending : ∀ child, y.1 ≠ .done child) : ∃ x, PrimesRun B entry x₀ x ∧ x.kern = y.2 ∧
      x.procs g = some { pc := .mainFork y.1, thisenv := g } ∧
      (x.kern.envs g).envStatus = .running := by
  induction forks with
  | refl => exact ⟨x₀, .refl, rfl, hp, running⟩
  | @tail y z _ step ih =>
      obtain ⟨f₁, k₁⟩ := y
      obtain ⟨f₂, k₂⟩ := z
      have hstep : forkStep B entry g k₁ f₁ = some (f₂, k₂) := step.run
      have hpending : ∀ child, f₁ ≠ .done child := by
        rintro child rfl
        cases hstep
      obtain ⟨x, run, rfl, hx, hrunning⟩ := ih (by rintro rfl; cases hstep) hpending
      have heff := forkStep_effect hstep ok
      refine ⟨_, run.own { pc := .mainFork f₂, thisenv := g } k₂ hx hrunning ?_ ?_
        (forkIn_mainFork.pending f₂ pending).2, rfl, Function.update_self .., ?_⟩
      · cases f₁ with
        | done child => exact absurd rfl (hpending child)
        | _ => simp only [primesStep, hstep, Option.bind_eq_bind, Option.bind_some]; rfl
      · cases f₂ with
        | panic => exact absurd rfl ok
        | _ => exact id
      · rw [heff.status (fun ch ↦ (h₀.run run).ne_head hx) pending]
        exact hrunning


/-- The kernel gives a CPU to an environment that waits for one. -/
theorem PrimesRun.resume {x₀ : PrimesSys} (run : PrimesRun B entry x₀ x)
    (awake : (x.kern.envs e).Awake) : PrimesRun B entry x₀ { x with
      kern := x.kern.modEnv e fun env ↦ { env with envStatus := .running } } :=
  run.tail (.switch e .running (x.kern.envs e).envRuns (x.kern.envs e).envCpunum awake (.inl rfl))

/-- A new child waits for its first number, hears it, and prints it. -/
theorem PrimesRun.first_prime {x₀ : PrimesSys} (run : PrimesRun B entry x₀ x)
    (h : ∀ {y}, PrimesRun B entry x₀ y → SieveInv y g)
    (hp : x.procs g = some { pc := .mainFork (.done child), thisenv := g })
    (hq : x.procs (envx child) = some { pc := .born, thisenv := g })
    (running : (x.kern.envs g).envStatus = .running) :
    ∃ y q, PrimesRun B entry x₀ y ∧ IsPrimeproc y g 0 (envx child) ∧
      y.procs (envx child) = some q ∧ q.printed ≠ [] := by
  have hne : g ≠ envx child := by
    rintro hc
    rw [← hc, hp] at hq
    cases hq
  have hawake := (((h run).node _ _ hq).idle id).1
  have run₁ := run.own { pc := .feed child 2, thisenv := g } x.kern hp running rfl id rfl
  -- the child comes to wait
  let k₂ := x.kern.modEnv (envx child) fun env ↦ { env with envStatus := .running }
  let k₃ := k₂.modEnv (envx child) fun env ↦
    { env with envIpcRecving := true, envIpcDstva := ipcPage 0, envStatus := .notRunnable }
  let this := envx (k₂.envs (envx child)).envId
  have hrecv : ipcRecv k₂ (envx child) 0 = (.yield (some (envx child)), k₃) := by
    rw [ipcRecv, sysIpcRecv, if_neg fun hc ↦ absurd hc.1 (by decide)]
  have hrunning₂ : (k₂.envs (envx child)).envStatus = .running := by rw [Kern.envs_modEnv_self]
  have run₂ := (run₁.resume hawake).own (e := envx child) { pc := .top, thisenv := this } k₂
    ((Function.update_of_ne hne.symm ..).trans hq) hrunning₂ rfl id rfl
  have run₃ := run₂.own { pc := .first, thisenv := this } k₃ (Function.update_self ..) hrunning₂
    (by simp only [primesStep, hrecv]) id rfl
  -- the parent sends it the first number
  have hp₃ : ∀ q q', Function.update (Function.update (Function.update x.procs g
      (some { pc := .feed child 2, thisenv := g })) (envx child) q) (envx child) q' g =
        some { pc := .feed child 2, thisenv := g } := by
    intro q q'
    rw [Function.update_of_ne hne, Function.update_of_ne hne, Function.update_self]
  have hrunning₃ : (k₃.envs g).envStatus = .running := by
    rw [Kern.envs_modEnv_of_ne _ _ hne, Kern.envs_modEnv_of_ne _ _ hne]
    exact running
  have hrecving : (k₃.envs (envx child)).envIpcRecving = true := by rw [Kern.envs_modEnv_self]
  rcases ipcSend_cases (B := B) ((h run₃).found (hp₃ _ _) rfl) 2 with
    ⟨hno, -⟩ | ⟨-, k₄, hsend, -, -, fromEnv, henv⟩
  · cases hrecving.symm.trans hno
  have run₄ := run₃.own { pc := .feed child 3, thisenv := g, sent := [2] } k₄ (hp₃ _ _) hrunning₃
    (by simp only [primesStep, hsend]; rfl) id rfl
  -- the child goes on
  let k₅ := k₄.modEnv (envx child) fun env ↦ { env with envStatus := .running }
  let v := (ipcRecvEnd k₅ this (k₅.envs (envx child)).envTf.regs.eax).value
  have hrunning₅ : (k₅.envs (envx child)).envStatus = .running := by rw [Kern.envs_modEnv_self]
  have run₅ := (run₄.resume (e := envx child) (.inr (by rw [henv]; rfl))).own
    { pc := .print v, thisenv := this, heard := [v] } k₅
    ((Function.update_of_ne hne.symm ..).trans (Function.update_self ..)) hrunning₅ rfl id rfl
  have run₆ := run₅.own
    ⟨.primeFork v (.start true), this, [v], [((k₅.envs this).envCpunum, v)], []⟩ k₅
    (Function.update_self ..) hrunning₅ rfl id rfl
  refine ⟨_, _, run₆, .first ?_ ?_, Function.update_self .., List.cons_ne_nil _ _⟩
  · intro hc
    cases (Function.update_self ..).symm.trans hc
  · obtain ⟨_, -, hlinked⟩ := (h run₆).right g { pc := .feed child 3, thisenv := g, sent := [2] }
      child (by simp [hne]) rfl
    exact hlinked.parent

/-! ## The result -/

/-- Number `n` of the chain hears, in increasing order, numbers from 2 on that the first `n` primes
do not divide, and leaves none out; the first of them, which it prints, is the next prime. -/
theorem primes_in_order {cfg : BootConfig} {x₀ : PrimesSys} {n : ℕ} (booted : Booted cfg k)
    (start : PrimesStart k g x₀) (run : PrimesRun cfg.machine entry x₀ x)
    (he : IsPrimeproc x g n e) (hp : x.procs e = some p) :
    (p.heard.map BitVec.toNat).Pairwise (· < ·) ∧
    (∀ i ∈ p.heard, 2 ≤ i.toNat ∧ (∀ j < n, ¬ Nat.nth Nat.Prime j ∣ i.toNat) ∧
      ∀ m < i.toNat, 2 ≤ m → (∀ j < n, ¬ Nat.nth Nat.Prime j ∣ m) →
        m ∈ p.heard.map BitVec.toNat) ∧
    (∀ i, p.heard.head? = some i → i.toNat = Nat.nth Nat.Prime n) ∧
    (p.printed = [] ∨ ∃ cpu i, p.printed = [(cpu, i)] ∧ p.heard.head? = some i ∧
      i.toNat = Nat.nth Nat.Prime n) := by
  have h := (SieveInv.boot booted start).run run
  obtain ⟨hne, N, hpre⟩ := h.arrived he hp
  have hheard : p.heard.map BitVec.toNat <+: sieved n N :=
    ((List.prefix_append _ _).map BitVec.toNat).trans hpre
  have hhead : ∀ i, p.heard.head? = some i → i.toNat = Nat.nth Nat.Prime n := by
    intro i hi
    cases hl : p.heard with
    | nil => exact nomatch (hl ▸ hi : ([] : List Word).head? = some i)
    | cons q t =>
        rw [hl] at hi hheard
        obtain rfl := Option.some.inj hi
        exact head_sieved hheard
  refine ⟨pairwise_of_sieved hheard, fun i hi ↦ ?_, hhead, ?_⟩
  · have hmem := fun j ↦ mem_of_sieved (j := j) hheard (List.mem_map_of_mem hi)
    obtain ⟨⟨h2, hdvd⟩, -⟩ := hmem 0
    exact ⟨h2, hdvd, fun m hm hm2 hmdvd ↦ (hmem m).2 hm ⟨hm2, hmdvd⟩⟩
  · rcases (h.node e p hp).log.filters (mt (h.main e p hp).mp hne) with
      ⟨hnone, -⟩ | ⟨i, t, held, hi, ⟨cpu, hprinted⟩, -⟩
    · exact .inl hnone
    · have hfirst : p.heard.head? = some i := by rw [hi, List.head?_cons]
      exact .inr ⟨cpu, i, hprinted, hfirst, hhead i hfirst⟩

theorem primes_in_order_two : ∃ k g x₀ x e p, Booted demoConfig k ∧ PrimesStart k g x₀ ∧
    PrimesRun demoConfig.machine 0 x₀ x ∧ IsPrimeproc x g 0 e ∧ x.procs e = some p ∧
    ∃ cpu i, p.printed = [(cpu, i)] ∧ i.toNat = Nat.nth Nat.Prime 0 := by
  obtain ⟨k, l, el, g, child, k₁, k₂, booted, hready, -, -, hforks, hlast⟩ := exists_whole_fork 0
  let x₀ : PrimesSys :=
    ⟨k, Function.update (fun _ ↦ none) g (some { pc := .mainFork (.start false), thisenv := g })⟩
  have hmain : x₀.procs g = some { pc := .mainFork (.start false), thisenv := g } := by simp [x₀]
  have start : PrimesStart k g x₀ := ⟨rfl, hready, hmain, fun e he ↦ by simp [x₀, he]⟩
  have h : ∀ {y}, PrimesRun demoConfig.machine 0 x₀ y → SieveInv y g := fun run ↦
    (SieveInv.boot booted start).run run
  have run₁ : PrimesRun demoConfig.machine 0 x₀ _ := PrimesRun.resume .refl (e := g) (.inr hready)
  obtain ⟨x, run₂, rfl, hp, hrunning⟩ := PrimesRun.fork (h run₁) hmain
    (by rw [Kern.envs_modEnv_self]) hforks nofun nofun
  have hinv := h (run₁.trans run₂)
  obtain ⟨hchild, hnone⟩ := hinv.making g _ child hp rfl
  have hdone : PrimesStep demoConfig.machine 0 x
      (x.after g { pc := .mainFork (.done child), thisenv := g } k₂) :=
    .own hp hrunning
      (by simp only [primesStep, hlast, Option.bind_eq_bind, Option.bind_some]; rfl) id
  rw [PrimesSys.after_of_some rfl] at hdone
  obtain ⟨-, rfl⟩ := forkStep_status hchild hlast
  have hrunning' : ((x.kern.modEnv (envx child) fun env ↦ { env with
      envStatus := .runnable }).envs g).envStatus = .running := by
    rw [Kern.envs_modEnv_of_ne _ _ hchild.ne.symm]
    exact hrunning
  obtain ⟨y, q, run₃, he, hq, hprinted⟩ := PrimesRun.first_prime ((run₁.trans run₂).tail hdone) h
    (by simp [hchild.ne.symm]) (Function.update_self ..)
    hrunning'
  obtain ⟨-, -, -, hnil | ⟨cpu, i, hone, -, hi⟩⟩ := primes_in_order booted start run₃ he hq
  · exact absurd hnil hprinted
  · exact ⟨k, g, x₀, y, _, q, booted, start, run₃, he, hq, cpu, i, hone, hi⟩

end Jos
