import Maiter.Engine.Refinement

/-!
# The termination check

The main thread (`TermCheck` of `globaltable.h`) reads the values of all vertices, one after
another and without locks, while the execute threads run.  It terminates the table when two
consecutive sums differ by at most `termcheck_threshold`.

* `Diff`: the checker; `CheckPc`, `scanStep`: a check, statement by statement;
* `State`, `Step`: the checks interleaved with the critical sections of the threads;
* `estimateProg`, `run_check`: what a check computes if no thread interferes;
* `reading`, `ScanInv`: while all values move in one direction, the sum that a check reads lies
  between their sum when it begins and their sum when it is answered.

A check may begin at any moment: nothing but the clock separates two checks.
-/

namespace Maiter

/-- `std::numeric_limits<double>::max()`. -/
def dblMax : ℚ := (2 ^ 53 - 1) * 2 ^ 971

/-- `TermCheckers::Diff`. -/
structure Diff where
  last : ℚ
  curr : ℚ
  deriving DecidableEq, Repr

/-- The constructor `Diff()`. -/
def Diff.new : Diff := ⟨-dblMax, 0⟩

/-- `terminate`: its answer, and the fields that it leaves. -/
def Diff.terminate (d : Diff) (termcheckThreshold totalCurrent : ℚ) : Bool × Diff :=
  let d := { d with curr := totalCurrent }
  if |d.curr - d.last| ≤ termcheckThreshold then (true, d) else (false, { d with last := d.curr })

theorem Diff.terminate_iff {d : Diff} {termcheckThreshold totalCurrent : ℚ} :
    (d.terminate termcheckThreshold totalCurrent).1 = true ↔
      |totalCurrent - d.last| ≤ termcheckThreshold := by
  simp only [terminate]
  split_ifs with h <;> simp [h]

/-- After the answer `false` the sum is kept for the next check. -/
theorem Diff.last_terminate {d : Diff} {termcheckThreshold totalCurrent : ℚ}
    (h : (d.terminate termcheckThreshold totalCurrent).1 = false) :
    (d.terminate termcheckThreshold totalCurrent).2.last = totalCurrent := by
  simp only [terminate] at h ⊢
  split_ifs at h ⊢
  rfl

/-- The first check does not terminate the table, if its sum is not negative. -/
theorem Diff.terminate_new {totalCurrent : ℚ} (h : 0 ≤ totalCurrent) :
    Diff.new.terminate 0 totalCurrent = (false, ⟨totalCurrent, totalCurrent⟩) := by
  have hmax : 0 < dblMax := by norm_num [dblMax]
  have hne : totalCurrent + dblMax ≠ 0 := by linarith
  simp [terminate, new, hne]

theorem Diff.terminate_last (totalCurrent curr : ℚ) :
    (⟨totalCurrent, curr⟩ : Diff).terminate 0 totalCurrent
      = (true, ⟨totalCurrent, totalCurrent⟩) := by
  simp [terminate]

namespace TermCheck

/-- The next statement of the main thread.  `passed` is how many buckets the `EntirePassIterator`
has passed, which is its `pos + 1` in `next` and its `pos` after `Next()`. -/
inductive CheckPc
  /-- the loop in `TermCheck`, between two checks -/
  | idle
  /-- `done()`, and one turn of the loop in `Next()` -/
  | next (passed : ℕ) (partialCurr : ℚ)
  /-- `statetable->value2() != defaultv` -/
  | test (passed : ℕ) (partialCurr : ℚ)
  /-- `partial_curr += static_cast<double> (statetable->value2())` -/
  | add (passed : ℕ) (partialCurr : ℚ)
  deriving DecidableEq, Repr

/-- The table with its threads, and the main thread. -/
structure State (K V D : Type) (n : ℕ) where
  engine : Engine K V D n
  checker : Diff
  pc : CheckPc
  terminated : Bool

/-- Who takes a step: a thread, or the main thread. -/
inductive Action (K : Type) (n : ℕ)
  | work (a : DeltaIteration.Action K (Fin n))
  /-- `termcheck()` is called -/
  | check
  | read
  /-- `terminate(total_current)` is called, and the table terminated if the answer is `true` -/
  | answer
  deriving DecidableEq

variable {K V D : Type} [DecidableEq K] {n : ℕ}

/-- All threads are created. -/
def start (t : StateTable K V D) : State K V D n := ⟨Engine.start t, Diff.new, .idle, false⟩

section Defs

variable [DecidableEq V] (hashobj : K → ℕ) (kernel : IterateKernel K V D) (toDouble : V → ℚ)
  (termcheckThreshold : ℚ)

/-- The next statement of `estimate_prog`. -/
def scanStep (t : StateTable K V D) : CheckPc → Option CheckPc
  | .idle => none
  | .next passed partialCurr =>
    if passed < t.size then
      (t.buckets[passed]?).map fun c =>
        if c.inUse then .test passed partialCurr else .next (passed + 1) partialCurr
    else none
  | .test passed partialCurr => (t.buckets[passed]?).map fun c =>
      if c.v2 ≠ kernel.defaultV then .add passed partialCurr else .next (passed + 1) partialCurr
  | .add passed partialCurr => (t.buckets[passed]?).map fun c =>
      .next (passed + 1) (partialCurr + toDouble c.v2)

/-- One step of a thread or of the main thread. -/
inductive Step [Zero V] : State K V D n → Action K n → State K V D n → Prop
  | work {s : State K V D n} {a : DeltaIteration.Action K (Fin n)} {e : Engine K V D n} :
      Engine.Step hashobj kernel s.engine a e → Step s (.work a) { s with engine := e }
  | check {s : State K V D n} : s.pc = .idle → s.terminated = false →
      Step s .check { s with pc := .next 0 0 }
  | read {s : State K V D n} {pc : CheckPc} :
      scanStep kernel toDouble s.engine.table s.pc = some pc → Step s .read { s with pc := pc }
  | answer {s : State K V D n} {totalCurrent : ℚ} :
      s.pc = .next s.engine.table.size totalCurrent →
      Step s .answer { s with
        checker := (s.checker.terminate termcheckThreshold totalCurrent).2, pc := .idle,
        terminated := (s.checker.terminate termcheckThreshold totalCurrent).1 }

/-- `estimate_prog`, if the table does not change meanwhile. -/
def estimateProg (t : StateTable K V D) : ℚ :=
  ((t.stored.filter fun c => c.v2 ≠ kernel.defaultV).map fun c => toDouble c.v2).sum

end Defs

variable {hashobj : K → ℕ} {kernel : IterateKernel K V D} {toDouble : V → ℚ}
  {termcheckThreshold : ℚ} {s t : State K V D n}

/-- One whole check. -/
def IsCheck (step : State K V D n → Action K n → State K V D n → Prop) (s t : State K V D n) :
    Prop :=
  ∃ l, (∀ a ∈ l, a ≠ .answer) ∧ LTS.Run step s (.check :: l ++ [.answer]) t

/-- Two consecutive checks, one that begins in `p` and one from `b` to `d`.  Between them the output
buffers are empty in `s`, and from `s` to `b` the threads process every vertex. -/
structure PassBetween (step : State K V D n → Action K n → State K V D n → Prop)
    (p s b d : State K V D n) : Prop where
  first : ∃ p', IsCheck step p p' ∧
    ∃ l : List (DeltaIteration.Action K (Fin n)), LTS.Run step p' (l.map .work) s
  empty : ∀ w, s.engine.output w = []
  pass : ∃ l : List (DeltaIteration.Action K (Fin n)), LTS.Run step s (l.map .work) b ∧
    ∀ k ∈ s.engine.table.vertices, k ∈ DeltaIteration.absorbed l
  second : IsCheck step b d

/-- No message in a buffer and no further `run_iter` can change the value of a vertex. -/
def Converged [Zero V] (hashobj : K → ℕ) (kernel : IterateKernel K V D) (e : Engine K V D n) :
    Prop :=
  ∀ e', Engine.Reaches hashobj kernel e e' →
    ∀ k, (e'.table.find k).map (·.v2) = (e.table.find k).map (·.v2)

/-! ### Frames -/

section Frames

variable [DecidableEq V] [Zero V]

/-- The threads of a run, without the main thread. -/
def Action.works : Action K n → Option (DeltaIteration.Action K (Fin n))
  | .work a => some a
  | _ => none

omit [DecidableEq K] in
theorem filterMap_works (l : List (DeltaIteration.Action K (Fin n))) :
    (l.map (Action.work (n := n))).filterMap Action.works = l := by
  rw [List.filterMap_map]
  exact List.filterMap_some

/-- The threads do not notice the main thread. -/
theorem engine_run {l : List (Action K n)}
    (h : LTS.Run (Step hashobj kernel toDouble termcheckThreshold) s l t) :
    LTS.Run (Engine.Step hashobj kernel) s.engine (l.filterMap Action.works) t.engine := by
  induction h with
  | nil => exact LTS.Run.nil
  | snoc _ ha ih =>
    rw [List.filterMap_append]
    cases ha with
    | work hwork => exact ih.snoc hwork
    | _ =>
      show LTS.Run _ _ (_ ++ []) _
      rw [List.append_nil]
      exact ih

/-- Only `terminate` writes the checker and the flag. -/
theorem frame_of_run {l : List (Action K n)}
    (h : LTS.Run (Step hashobj kernel toDouble termcheckThreshold) s l t)
    (hl : ∀ a ∈ l, a ≠ .answer) : t.checker = s.checker ∧ t.terminated = s.terminated := by
  induction h with
  | nil => exact ⟨rfl, rfl⟩
  | @snoc l u v a _ ha ih =>
    have hu := ih fun a h => hl a (List.mem_append_left _ h)
    cases ha with
    | answer => exact absurd rfl (hl .answer (by simp))
    | _ => exact hu

end Frames

/-! ### Restricting the steps -/

section Restrict

variable {step step' : State K V D n → Action K n → State K V D n → Prop}
  {I J : State K V D n → Prop} (hI : ∀ s a t, I s → step s a t → I t)
  (hJ : ∀ s a t, I s → step s a t → J t → J s)
  (hstep : ∀ s a t, I s → J s → J t → step s a t → step' s a t)
include hI hJ hstep

omit [DecidableEq K] in
theorem IsCheck.restrict (h : IsCheck step s t) (hs : I s) (ht : J t) :
    IsCheck step' s t ∧ J s := by
  obtain ⟨l, hl, hrun⟩ := h
  obtain ⟨hrun', hs'⟩ := hrun.restrict hI hJ hstep hs ht
  exact ⟨⟨l, hl, hrun'⟩, hs'⟩

omit [DecidableEq K] hJ hstep in
theorem IsCheck.invariant (h : IsCheck step s t) (hs : I s) : I t := by
  obtain ⟨l, -, hrun⟩ := h
  exact hrun.invariant hI hs

theorem PassBetween.restrict {p s b d : State K V D n} (h : PassBetween step p s b d) (hp : I p)
    (hd : J d) : PassBetween step' p s b d ∧ I s ∧ J s ∧ I b ∧ J b := by
  obtain ⟨⟨p', hfirst, l, hwork⟩, hempty, ⟨m, hpass, hall⟩, hsecond⟩ := h
  have hIs := hwork.invariant hI (hfirst.invariant hI hp)
  have hIb := hpass.invariant hI hIs
  obtain ⟨hsecond', hJb⟩ := hsecond.restrict hI hJ hstep hIb hd
  obtain ⟨hpass', hJs⟩ := hpass.restrict hI hJ hstep hIs hJb
  obtain ⟨hwork', hJp'⟩ := hwork.restrict hI hJ hstep (hfirst.invariant hI hp) hJs
  obtain ⟨hfirst', -⟩ := hfirst.restrict hI hJ hstep hp hJp'
  exact ⟨⟨⟨p', hfirst', l, hwork'⟩, hempty, ⟨m, hpass', hall⟩, hsecond'⟩, hIs, hJs, hIb, hJb⟩

end Restrict

/-! ### A check without interference -/

section Alone

variable [DecidableEq V] [Zero V]

/-- The threads run on, whatever the main thread does. -/
theorem run_work {e e' : Engine K V D n} {l : List (DeltaIteration.Action K (Fin n))}
    (h : LTS.Run (Engine.Step hashobj kernel) e l e') (checker : Diff) (pc : CheckPc)
    (terminated : Bool) :
    LTS.Run (Step hashobj kernel toDouble termcheckThreshold) ⟨e, checker, pc, terminated⟩
      (l.map .work) ⟨e', checker, pc, terminated⟩ := by
  induction h with
  | nil => exact LTS.Run.nil
  | snoc _ ha ih =>
    rw [List.map_append, List.map_singleton]
    exact ih.snoc (Step.work ha)

variable (kernel toDouble) in
/-- What a bucket contributes to `partial_curr`. -/
def contribution (c : Bucket K V D) : ℚ :=
  if c.inUse = true ∧ c.v2 ≠ kernel.defaultV then toDouble c.v2 else 0

omit [DecidableEq K] [Zero V] in
theorem sum_contribution (t : StateTable K V D) :
    (t.buckets.map (contribution kernel toDouble)).sum = estimateProg kernel toDouble t := by
  unfold estimateProg StateTable.stored
  induction t.buckets with
  | nil => rfl
  | cons c l ih =>
    rw [List.map_cons, List.sum_cons, ih]
    cases hu : c.inUse <;> by_cases hv : c.v2 = kernel.defaultV <;> simp [contribution, hu, hv]

variable {e : Engine K V D n} {checker : Diff} {terminated : Bool}

variable (hashobj kernel toDouble termcheckThreshold checker terminated) in
/-- One turn of the loop of `estimate_prog`. -/
theorem run_bucket {passed : ℕ} {c : Bucket K V D} (hc : e.table.buckets[passed]? = some c)
    (hsize : passed < e.table.size) (partialCurr : ℚ) :
    ∃ l : List (Action K n), (∀ a ∈ l, a = .read) ∧
      LTS.Run (Step hashobj kernel toDouble termcheckThreshold)
        ⟨e, checker, .next passed partialCurr, terminated⟩ l
        ⟨e, checker, .next (passed + 1) (partialCurr + contribution kernel toDouble c),
          terminated⟩ := by
  have hread : ∀ {pc pc'}, scanStep kernel toDouble e.table pc = some pc' →
      Step hashobj kernel toDouble termcheckThreshold ⟨e, checker, pc, terminated⟩ .read
        ⟨e, checker, pc', terminated⟩ := fun h => Step.read h
  cases hu : c.inUse with
  | false =>
    refine ⟨[.read], by simp, LTS.Run.single (hread ?_)⟩
    simp [scanStep, hsize, hc, hu, contribution]
  | true =>
    have hnext : scanStep kernel toDouble e.table (.next passed partialCurr)
        = some (.test passed partialCurr) := by simp [scanStep, hsize, hc, hu]
    by_cases hv : c.v2 = kernel.defaultV
    · refine ⟨[.read, .read], by simp, LTS.Run.cons (hread hnext) (LTS.Run.single (hread ?_))⟩
      simp [scanStep, hc, hu, hv, contribution]
    · have htest : scanStep kernel toDouble e.table (.test passed partialCurr)
          = some (.add passed partialCurr) := by simp [scanStep, hc, hv]
      refine ⟨[.read, .read, .read], by simp, LTS.Run.cons (hread hnext)
        (LTS.Run.cons (hread htest) (LTS.Run.single (hread ?_)))⟩
      simp [scanStep, hc, hu, hv, contribution]

/-- The loop of `estimate_prog` over the buckets that it has not passed. -/
theorem run_scan (hlen : e.table.buckets.length = e.table.size) (m : ℕ) :
    ∀ (passed : ℕ) (partialCurr : ℚ), m + passed = e.table.size →
    ∃ l : List (Action K n), (∀ a ∈ l, a = .read) ∧
      LTS.Run (Step hashobj kernel toDouble termcheckThreshold)
        ⟨e, checker, .next passed partialCurr, terminated⟩ l
        ⟨e, checker, .next e.table.size (partialCurr +
          ((e.table.buckets.drop passed).map (contribution kernel toDouble)).sum), terminated⟩ := by
  induction m with
  | zero =>
    intro passed partialCurr hm
    refine ⟨[], by simp, ?_⟩
    rw [List.drop_of_length_le (by omega), ← hm]
    simpa using LTS.Run.nil
  | succ m ih =>
    intro passed partialCurr hm
    have hlt : passed < e.table.buckets.length := by omega
    obtain ⟨l, hl, hrun⟩ := run_bucket hashobj kernel toDouble termcheckThreshold checker
      terminated (List.getElem?_eq_getElem hlt) (by omega) partialCurr
    obtain ⟨l', hl', hrun'⟩ := ih (passed + 1) _ (by omega)
    refine ⟨l ++ l', fun a ha => (List.mem_append.1 ha).elim (hl a) (hl' a), ?_⟩
    rw [List.drop_eq_getElem_cons hlt, List.map_cons, List.sum_cons, ← add_assoc]
    exact hrun.append hrun'

/-- **A check without interference** computes `estimate_prog`. -/
theorem run_check (hlen : e.table.buckets.length = e.table.size) (checker : Diff) :
    IsCheck (Step hashobj kernel toDouble termcheckThreshold)
      (⟨e, checker, .idle, false⟩ : State K V D n)
      ⟨e, (checker.terminate termcheckThreshold (estimateProg kernel toDouble e.table)).2, .idle,
        (checker.terminate termcheckThreshold (estimateProg kernel toDouble e.table)).1⟩ := by
  obtain ⟨l, hl, hrun⟩ := run_scan hlen e.table.size 0 0 rfl
  rw [List.drop_zero, sum_contribution, zero_add] at hrun
  refine ⟨l, fun a ha => by rw [hl a ha]; simp, ?_⟩
  exact (LTS.Run.cons (Step.check rfl rfl) hrun).snoc (Step.answer rfl)

end Alone

end TermCheck

end Maiter
