import Jos.Inc.Mmu
import Jos.Lib.Stack

/-!
# Backtraces (`mon_backtrace` in `kern/monitor.c`, `get_caller_pcs` in `kern/spinlock.c`)

A function that is called finds the return address on the stack, pushes `%ebp` above it and lets
`%ebp` point there, so that the frames of all calls are a list, which ends with the 0 that the entry
code puts into `%ebp`.  Between calls a function moves its stack pointer and stores anywhere but
into the two words of a frame.

The lookup of the names of functions is left out.
-/

namespace Jos

open Jos.Lib.X86

/-! ## The code -/

/-- What `mon_backtrace` prints about a frame -/
structure FrameLine where
  ebp : Word
  eip : Word
  args : List Word
deriving DecidableEq

/-- The line of the frame at `ebp`, which reads five arguments whether there are so many or not. -/
def frameLine (m : Word → BitVec 8) (ebp : Word) : FrameLine where
  ebp := ebp
  eip := word m (ebp + 4)
  args := [word m (ebp + 8), word m (ebp + 12), word m (ebp + 16), word m (ebp + 20),
    word m (ebp + 24)]

/-- The loop of `mon_backtrace`, within `n` rounds. -/
def monBacktrace (m : Word → BitVec 8) : ℕ → Word → Option (List FrameLine)
  | 0, ebp => if ebp = 0 then some [] else none
  | n + 1, ebp =>
      if ebp = 0 then some []
      else (monBacktrace m n (word m ebp)).map (frameLine m ebp :: ·)

/-- `get_caller_pcs`, with the last `n` of the ten entries of `pcs` to go. -/
def getCallerPcs (m : Word → BitVec 8) : ℕ → Word → List Word
  | 0, _ => []
  | n + 1, ebp =>
      if ebp = 0 ∨ ebp < ULIM then List.replicate (n + 1) 0
      else word m (ebp + 4) :: getCallerPcs m n (word m ebp)

/-! ## Calls -/

/-- Memory and the two registers, and a record: of every call that has not returned, the latest one
first, where its frame is and where it returns to. -/
structure CallState where
  mem : Word → BitVec 8
  esp : Word
  ebp : Word
  frames : List (Word × Word)

/-- A CPU runs on the stack from `lo` to `hi`. -/
inductive CallStep (lo hi : Word) : CallState → CallState → Prop
  /-- `call` pushes the return address; then `push %ebp` and `mov %esp, %ebp`. -/
  | call (s : CallState) (ret : Word) (room : lo.toNat + 8 ≤ s.esp.toNat) : CallStep lo hi s
      { mem := setWord (setWord s.mem (s.esp - 4) ret) (s.esp - 8) s.ebp
        esp := s.esp - 8
        ebp := s.esp - 8
        frames := (s.esp - 8, ret) :: s.frames }
  /-- `leave` and `ret` -/
  | ret (s : CallState) (f : Word × Word) (fs : List (Word × Word)) (h : s.frames = f :: fs) :
      CallStep lo hi s { s with esp := s.ebp + 8, ebp := word s.mem s.ebp, frames := fs }
  /-- Room for locals and arguments -/
  | move (s : CallState) (esp : Word) (low : lo.toNat ≤ esp.toNat) (high : esp.toNat ≤ hi.toNat)
      (own : ∀ f ∈ s.frames, esp.toNat ≤ f.1.toNat) : CallStep lo hi s { s with esp := esp }
  | store (s : CallState) (a w : Word)
      (apart : ∀ f ∈ s.frames, Apart a f.1 ∧ Apart a (f.1 + 4)) : CallStep lo hi s
      { s with mem := setWord s.mem a w }

/-- Any number of steps since the entry code has set `%ebp` to 0. -/
def CallRun (lo hi : Word) (m : Word → BitVec 8) : CallState → Prop :=
  Relation.ReflTransGen (CallStep lo hi) ⟨m, hi, 0, []⟩

/-! ## The list of frames -/

/-- The frames are linked from `ebp` on. -/
def FrameChain (m : Word → BitVec 8) : Word → List (Word × Word) → Prop
  | ebp, [] => ebp = 0
  | ebp, f :: fs => ebp = f.1 ∧ word m (f.1 + 4) = f.2 ∧ FrameChain m (word m f.1) fs

/-- What holds in every run: the frames are linked, and lie one above the other on the stack. -/
structure CallInv (lo hi : Word) (s : CallState) : Prop where
  linked : FrameChain s.mem s.ebp s.frames
  above : s.frames.Pairwise fun f g ↦ f.1.toNat + 8 ≤ g.1.toNat
  inside : ∀ f ∈ s.frames, lo.toNat ≤ f.1.toNat ∧ f.1.toNat + 8 ≤ hi.toNat
  own : ∀ f ∈ s.frames, s.esp.toNat ≤ f.1.toNat
  low : lo.toNat ≤ s.esp.toNat
  high : s.esp.toNat ≤ hi.toNat

variable {m m' : Word → BitVec 8} {ebp lo hi : Word} {fs : List (Word × Word)} {s s' : CallState}
  {n : ℕ}

theorem FrameChain.of_eq (h : FrameChain m ebp fs)
    (heq : ∀ f ∈ fs, word m' f.1 = word m f.1 ∧ word m' (f.1 + 4) = word m (f.1 + 4)) :
    FrameChain m' ebp fs := by
  induction fs generalizing ebp with
  | nil => exact h
  | cons f fs ih =>
      obtain ⟨hebp, hret, hrest⟩ := h
      obtain ⟨hf, hfs⟩ := List.forall_mem_cons.mp heq
      refine ⟨hebp, hf.2.trans hret, ?_⟩
      rw [hf.1]
      exact ih hrest hfs

/-- Stores elsewhere leave the frames linked. -/
theorem FrameChain.setWord (h : FrameChain m ebp fs) {a w : Word}
    (hapart : ∀ f ∈ fs, Apart a f.1 ∧ Apart a (f.1 + 4)) : FrameChain (setWord m a w) ebp fs :=
  h.of_eq fun f hf ↦ ⟨word_setWord_of_apart m (hapart f hf).1,
    word_setWord_of_apart m (hapart f hf).2⟩

theorem CallInv.start (lo hi : Word) (h : lo.toNat ≤ hi.toNat) (m : Word → BitVec 8) :
    CallInv lo hi ⟨m, hi, 0, []⟩ :=
  ⟨rfl, .nil, fun _ hf ↦ (List.not_mem_nil hf).elim, fun _ hf ↦ (List.not_mem_nil hf).elim, h,
    le_rfl⟩

/-- A word below the stack pointer is in no frame. -/
theorem CallInv.apart_below (h : CallInv lo hi s) {k : Word} (hk4 : 4 ≤ k.toNat)
    (hk8 : k.toNat ≤ 8) (hroom : 8 ≤ s.esp.toNat) :
    ∀ f ∈ s.frames, Apart (s.esp - k) f.1 ∧ Apart (s.esp - k) (f.1 + 4) := by
  intro f hf
  obtain ⟨-, hhigh⟩ := h.inside f hf
  have hown := h.own f hf
  have hlt := hi.isLt
  rw [Apart, Apart]
  constructor <;> bv_omega

theorem CallInv.step (h : CallInv lo hi s) (hstep : CallStep lo hi s s') : CallInv lo hi s' := by
  cases hstep with
  | call ret room =>
      have hesp : (s.esp - 8).toNat = s.esp.toNat - 8 := by bv_omega
      have hretAddr : s.esp - 8 + 4 = s.esp - 4 := by bv_omega
      have hhigh := h.high
      constructor
      · refine ⟨rfl, ?_, ?_⟩
        · show word (setWord (setWord s.mem (s.esp - 4) ret) (s.esp - 8) s.ebp)
            (s.esp - 8 + 4) = ret
          rw [hretAddr, word_setWord_of_apart, word_setWord_self]
          rw [Apart]
          bv_omega
        · show FrameChain _ (word (setWord (setWord s.mem (s.esp - 4) ret) (s.esp - 8) s.ebp)
            (s.esp - 8)) s.frames
          rw [word_setWord_self]
          exact (h.linked.setWord (h.apart_below (by decide) (by decide) (by omega))).setWord
            (h.apart_below (by decide) (by decide) (by omega))
      · refine List.pairwise_cons.mpr ⟨fun f hf ↦ ?_, h.above⟩
        have hown := h.own f hf
        show (s.esp - 8).toNat + 8 ≤ f.1.toNat
        omega
      · refine List.forall_mem_cons.mpr ⟨⟨?_, ?_⟩, h.inside⟩
        · show lo.toNat ≤ (s.esp - 8).toNat
          omega
        · show (s.esp - 8).toNat + 8 ≤ hi.toNat
          omega
      · refine List.forall_mem_cons.mpr ⟨le_rfl, fun f hf ↦ ?_⟩
        have hown := h.own f hf
        show (s.esp - 8).toNat ≤ f.1.toNat
        omega
      · show lo.toNat ≤ (s.esp - 8).toNat
        omega
      · show (s.esp - 8).toNat ≤ hi.toNat
        omega
  | ret f fs hframes =>
      obtain ⟨hlinked, habove, hinside, -, -, -⟩ := h
      rw [hframes] at hlinked habove hinside
      obtain ⟨hebp, -, hrest⟩ := hlinked
      obtain ⟨hfirst, habove⟩ := List.pairwise_cons.mp habove
      obtain ⟨⟨hlow, hhigh⟩, hinside⟩ := List.forall_mem_cons.mp hinside
      have hlt := hi.isLt
      have hesp : (s.ebp + 8).toNat = f.1.toNat + 8 := by
        rw [hebp]
        bv_omega
      refine ⟨?_, habove, hinside, fun g hg ↦ ?_, ?_, ?_⟩
      · show FrameChain s.mem (word s.mem s.ebp) fs
        rw [hebp]
        exact hrest
      · show (s.ebp + 8).toNat ≤ g.1.toNat
        rw [hesp]
        exact hfirst g hg
      · show lo.toNat ≤ (s.ebp + 8).toNat
        omega
      · show (s.ebp + 8).toNat ≤ hi.toNat
        omega
  | move esp low high own => exact ⟨h.linked, h.above, h.inside, own, low, high⟩
  | store a w apart => exact ⟨h.linked.setWord apart, h.above, h.inside, h.own, h.low, h.high⟩

theorem CallRun.inv (h : lo.toNat ≤ hi.toNat) (run : CallRun lo hi m s) : CallInv lo hi s := by
  induction run with
  | refl => exact CallInv.start lo hi h m
  | tail _ hstep ih => exact ih.step hstep

/-! ## The walks -/

theorem FrameChain.return_address (h : FrameChain m ebp fs) : ∀ f ∈ fs, word m (f.1 + 4) = f.2 := by
  induction fs generalizing ebp with
  | nil => exact fun _ hf ↦ (List.not_mem_nil hf).elim
  | cons f fs ih => exact List.forall_mem_cons.mpr ⟨h.2.1, ih h.2.2⟩

theorem FrameChain.monBacktrace_eq (h : FrameChain m ebp fs) (hne : ∀ f ∈ fs, f.1 ≠ 0)
    (hn : fs.length ≤ n) : monBacktrace m n ebp = some (fs.map fun f ↦ frameLine m f.1) := by
  induction fs generalizing ebp n with
  | nil =>
      cases n with
      | zero => exact if_pos h
      | succ n => exact if_pos h
  | cons f fs ih =>
      obtain ⟨rfl, -, hrest⟩ := h
      obtain ⟨hf, hfs⟩ := List.forall_mem_cons.mp hne
      obtain ⟨n, rfl⟩ := Nat.exists_eq_add_of_le' (Nat.one_le_of_lt hn)
      rw [monBacktrace, if_neg hf, ih hrest hfs (Nat.le_of_succ_le_succ hn)]
      rfl

theorem FrameChain.getCallerPcs_eq (h : FrameChain m ebp fs)
    (hne : ∀ f ∈ fs, f.1 ≠ 0 ∧ ¬ f.1 < ULIM) (n : ℕ) : getCallerPcs m n ebp =
      (fs.map Prod.snd).take n ++ List.replicate (n - fs.length) 0 := by
  induction fs generalizing ebp n with
  | nil =>
      cases n with
      | zero => rfl
      | succ n => exact if_pos (.inl h)
  | cons f fs ih =>
      obtain ⟨rfl, hret, hrest⟩ := h
      obtain ⟨⟨hf, hlim⟩, hfs⟩ := List.forall_mem_cons.mp hne
      cases n with
      | zero => simp [getCallerPcs]
      | succ n =>
          rw [getCallerPcs, if_neg (not_or.mpr ⟨hf, hlim⟩), hret, ih hrest hfs, List.map_cons,
            List.take_succ_cons, List.length_cons, Nat.add_sub_add_right]
          rfl

/-- After any calls, returns and stores on a kernel stack, a function returns behind its call,
`mon_backtrace` prints one line for each call that has not returned, the latest first, and
`get_caller_pcs` records where the latest ten of them return to. -/
theorem backtrace_exact (hstack : lo.toNat ≤ hi.toNat) (hlo : ULIM ≤ lo)
    (run : CallRun lo hi m s) :
    (∀ f fs, s.frames = f :: fs → word s.mem (s.ebp + 4) = f.2) ∧
      (∀ n, s.frames.length ≤ n →
        monBacktrace s.mem n s.ebp = some (s.frames.map fun f ↦ frameLine s.mem f.1)) ∧
      (∀ f ∈ s.frames, (frameLine s.mem f.1).eip = f.2) ∧
      getCallerPcs s.mem 10 s.ebp =
        (s.frames.map Prod.snd).take 10 ++ List.replicate (10 - s.frames.length) 0 := by
  have hinv := run.inv hstack
  have hulim : 0 < ULIM.toNat := by decide
  rw [BitVec.le_def] at hlo
  have hne : ∀ f ∈ s.frames, f.1 ≠ 0 ∧ ¬ f.1 < ULIM := by
    intro f hf
    obtain ⟨hlow, -⟩ := hinv.inside f hf
    constructor
    · intro h0
      rw [h0, show (0 : Word).toNat = 0 from rfl] at hlow
      omega
    · rw [BitVec.lt_def]
      omega
  refine ⟨fun f fs hframes ↦ ?_, fun n hn ↦ ?_, hinv.linked.return_address, ?_⟩
  · have hlinked := hinv.linked
    rw [hframes] at hlinked
    rw [hlinked.1]
    exact hlinked.2.1
  · exact hinv.linked.monBacktrace_eq (fun f hf ↦ (hne f hf).1) hn
  · exact hinv.linked.getCallerPcs_eq hne 10

/-- Two calls, a store to a local variable, and one return. -/
theorem backtrace_exact_nested : ∃ s : CallState, s.frames = [(0xF0000000 - 8, 0xF0100010)] ∧
    monBacktrace s.mem 1 s.ebp = some [frameLine s.mem (0xF0000000 - 8)] ∧
    (frameLine s.mem (0xF0000000 - 8)).eip = 0xF0100010 ∧
    getCallerPcs s.mem 10 s.ebp = [0xF0100010, 0, 0, 0, 0, 0, 0, 0, 0, 0] := by
  obtain ⟨s, run, hframes⟩ : ∃ s, CallRun 0xEFFF8000 0xF0000000 (fun _ ↦ 0) s ∧
      s.frames = [(0xF0000000 - 8, 0xF0100010)] := by
    have hlocal : ∀ f ∈ [((0xF0000000 - 8 : Word), (0xF0100010 : Word))],
        Apart 0xEFFFFFE4 f.1 ∧ Apart 0xEFFFFFE4 (f.1 + 4) := by
      intro f hf
      rw [List.mem_singleton.mp hf]
      exact ⟨⟨by decide, by decide⟩, by decide, by decide⟩
    have hown : ∀ f ∈ [((0xF0000000 - 8 : Word), (0xF0100010 : Word))],
        (0xEFFFFFE0 : Word).toNat ≤ f.1.toNat := by
      intro f hf
      rw [List.mem_singleton.mp hf]
      decide
    exact ⟨_, .tail (.tail (.tail (.tail (.tail .refl (.call _ 0xF0100010 (by decide)))
      (.move _ 0xEFFFFFE0 (by decide) (by decide) hown))
      (.store _ 0xEFFFFFE4 7 hlocal)) (.call _ 0xF0100020 (by decide))) (.ret _ _ _ rfl), rfl⟩
  obtain ⟨-, hmon, heip, hpcs⟩ := backtrace_exact (by decide) (by decide) run
  have hline := hmon 1 (by rw [hframes]; exact le_rfl)
  rw [hframes] at hline heip hpcs
  exact ⟨s, hframes, hline, heip (0xF0000000 - 8, 0xF0100010) List.mem_cons_self, hpcs⟩

end Jos
