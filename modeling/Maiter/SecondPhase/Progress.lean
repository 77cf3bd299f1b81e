import Maiter.Engine.MutualExclusion
import Maiter.Handshake.Deadlock
import Maiter.SecondPhase.Rounds

/-!
# Progress of the second phase

* `canStep_inside`, `canStep_outside`: a thread takes the steps that its place in the two models
  allows;
* `Timely`, `second_phase_progress`: unless a wake-up is lost, the threads are blocked only when the
  schedule thread has left and all others wait;
* `rank`, `rank_lt`: every step of an execute thread decreases a measure;
* `workers_finish`: hence the execute threads always get to the end of the round, whatever the
  others do.
-/

namespace Maiter

open Engine (ClosedLinks Deliverable idHash twoVertices loaded_twoVertices closedLinks_twoVertices)
open Vertexlock (IterPc iterStep)

variable {K V D : Type} [DecidableEq K] {n : ℕ}

/-! ### The handshake -/

namespace Handshake

variable {interval interval' : ℕ → Fin n → List ℕ} {s t : State n}

/-- Whether a worker with an interval can take a step depends on no interval and no message. -/
theorem workerStep_isSome (hserved : Served interval' s) {w : Fin n} {m : ℕ}
    (h : (workerStep interval w m s).isSome = true) :
    (workerStep interval' w 0 s).isSome = true := by
  unfold workerStep at h ⊢
  cases hpc : s.worker w <;> simp only [hpc] at h ⊢
  case loop it todo => cases todo <;> rfl
  case first it => simp [hserved w it hpc]
  all_goals exact h

/-- Some worker has not arrived at the barrier. -/
def NotAllArrived (s : State n) : Prop := ∃ w, s.worker w ≠ .atBarrier

theorem notAllArrived_step (hs : NotAllArrived s) {a : Action n} (h : Step interval s a t) :
    NotAllArrived t := by
  obtain ⟨w₀, hw₀⟩ := hs
  cases a with
  | sched =>
    refine ⟨w₀, ?_⟩
    rcases (schedStep_frame h).2 with hbroadcast | ⟨hworker, -⟩
    · rw [schedStep_broadcast hbroadcast h]
      show (if s.worker w₀ = .waiting then WorkerPc.woken else s.worker w₀) ≠ .atBarrier
      split_ifs
      · exact nofun
      · exact hw₀
    · rw [hworker]
      exact hw₀
  | worker w m =>
    by_cases harrive : t.worker w = .atBarrier
    · -- the worker `w` arrives, and another one has not
      have hstep : workerStep interval w m s = some t := h
      unfold workerStep at hstep
      cases hpc : s.worker w <;> simp only [hpc] at hstep
      case lock | woken | first =>
        split_ifs at hstep
        cases hstep
        simp at harrive
      case waiting | atBarrier | exited => cases hstep
      case barrier =>
        split_ifs at hstep with hlast <;> cases hstep
        · exact ⟨w, nofun⟩
        · push Not at hlast
          obtain ⟨w', hne, hw'⟩ := hlast
          exact ⟨w', by simpa [hne] using hw'⟩
      case read => cases hstep; cases hit : s.it2 <;> simp [hit] at harrive
      case loop it todo => cases todo <;> cases hstep <;> simp at harrive
      case send it todo =>
        cases hout : s.output w <;> simp only [hout] at hstep <;> cases hstep
        · simp at harrive
        · simp [hpc] at harrive
      all_goals
        cases hstep
        simp at harrive
    · exact ⟨w, harrive⟩
  | terminate =>
    cases h
    exact ⟨w₀, hw₀⟩

/-- **Where the workers are when none of them can take a step.** -/
theorem blocked_workers (hI : Inv interval s) (hs : NotAllArrived s)
    (hserved : Served interval' s) (h : ∀ w, workerStep interval' w 0 s = none) (w : Fin n) :
    s.worker w = .waiting ∨ s.worker w = .lock ∧ s.threadm = some .scheduler := by
  have hholder : s.threadm = none ∨ s.threadm = some .scheduler := by
    cases hm : s.threadm with
    | none => exact Or.inl rfl
    | some holder =>
      cases holder with
      | scheduler => exact Or.inr rfl
      | worker w' =>
        have hw' := (hI.mutex.worker w').2 hm
        have hnone := h w'
        cases hpc : s.worker w' <;> simp only [hpc] at hw'
        case count | wait | unlock => simp [workerStep, hpc] at hnone
        all_goals cases hw'
  -- in the round only the barrier stops a worker
  have hround : ∀ w, (s.worker w).inRound = true → s.worker w = .atBarrier := by
    intro w hin
    have hnone := h w
    cases hpc : s.worker w <;> simp only [workerStep, hpc] at hin hnone
    case atBarrier => rfl
    case woken =>
      have hsched := (hI.phase.sched_of_inRound (w := w) (by rw [hpc]; rfl)).1
      rcases hholder with hm | hm
      · simp [hm] at hnone
      · have hholds := hI.mutex.sched.2 hm
        rcases hsched with hs | hs | hs <;> rw [hs] at hholds <;> cases hholds
    case barrier => split_ifs at hnone
    case loop it todo => cases todo <;> cases hnone
    case send it todo => cases hout : s.output w <;> simp [hout] at hnone
    case first it =>
      rw [if_neg (hserved w it hpc)] at hnone
      cases hnone
    case unlock | read => cases hnone
    all_goals cases hin
  have hnone := h w
  cases hpc : s.worker w <;> simp only [workerStep, hpc] at hnone
  case lock =>
    rcases hholder with hm | hm
    · simp [hm] at hnone
    · exact Or.inr ⟨rfl, hm⟩
  case waiting => exact Or.inl rfl
  case exited =>
    have hwalked := hI.walked w
    rw [hpc] at hwalked
    exact hwalked.elim
  case atBarrier =>
    obtain ⟨w', hw'⟩ := hs
    have hin := (hI.phase.sched_of_inRound (w := w) (by rw [hpc]; rfl)).2.1 w'
    exact absurd (hround w' hin) hw'
  case count | wait | signal => cases hnone
  all_goals
    have hat := hround w (by rw [hpc]; rfl)
    rw [hpc] at hat
    cases hat

/-- The handshake ends only when the scheduler has left. -/
theorem canStep_or_exited (hI : Inv interval s) (hserved : Served interval s) (ha : Awaited s) :
    CanStep interval s ∨ s.sched = .exited := by
  have hm := hI.schedulem
  cases hpc : s.sched <;> simp only [hpc] at hm
  case exited => exact Or.inr rfl
  case lock | lastLock =>
    left
    by_cases hfree : s.threadm = none
    · exact canStep_sched (by simp [schedStep, hpc, hfree])
    · exact canStep_of_threadm hI (by rw [hpc]; rfl) hfree
  case lockSched | woken =>
    have hfree : s.schedulem = none := hm
    exact Or.inl (canStep_sched (by simp [schedStep, hpc, hfree]))
  case waiting =>
    obtain ⟨w, hw⟩ := ha (by rw [hpc]; rfl)
    exact Or.inl (canStep_of_owes hI hserved (by rw [hpc]; rfl) hw)
  all_goals exact Or.inl (canStep_sched (by simp [schedStep, hpc]))

/-- What a worker walks in a round is in its interval. -/
theorem mem_history {w : Fin n} {r it pos : ℕ} (h : (it, pos) ∈ history interval w r) :
    pos ∈ interval it w := by
  induction r with
  | zero => cases h
  | succ r ih =>
    rcases List.mem_append.1 h with h | h
    · exact ih h
    · obtain ⟨pos', hpos, heq⟩ := List.mem_map.1 h
      cases heq
      exact hpos

/-- How many points of its loop a worker has still to pass. -/
def WorkerPc.stage : WorkerPc → ℕ
  | .waiting | .exited => 0
  | .wait => 1
  | .count => 2
  | .lock => 3
  | .signal => 4
  | .atBarrier => 5
  | .barrier => 6
  | .loop _ _ | .send _ _ => 7
  | .first _ => 8
  | .read => 9
  | .unlock => 10
  | .woken => 11

/-- The positions that it has still to walk, and the one that it is at. -/
def WorkerPc.toWalk : WorkerPc → ℕ
  | .loop _ todo => 2 * todo.length
  | .send _ todo => 2 * todo.length + 1
  | _ => 0

end Handshake

/-- The statements of `run_iter` that are left, up to `g_func` or from there to the end. -/
def Vertexlock.IterPc.toGo (output : List (K × V)) : IterPc K V → ℕ
  | .outside => 5
  | .lock _ => 4
  | .process _ => 3
  | .accumulate _ => 2
  | .send _ => 1
  | .reset _ => 4 * output.length + 3
  | .unlock _ => 4 * output.length + 2
  | .next rest => 4 * rest.length + 1
  | .lockTarget _ rest => 4 * rest.length + 4
  | .apply _ rest => 4 * rest.length + 3
  | .unlockTarget _ rest => 4 * rest.length + 2

namespace SecondPhase

variable [Zero V] {threadId : Fin n → ℕ} {hashobj : K → ℕ} {kernel : IterateKernel K V D}
  {t₀ : StateTable K V D} {s s' : State K V D n}

/-! ### A thread that can take a step -/

omit [Zero V] in
/-- `run_loop` looks only at buckets of the table. -/
theorem Inv.pos_lt (hI : Inv threadId hashobj kernel t₀ s) {w : Fin n} {it pos : ℕ}
    {todo : List ℕ} (hw : s.control.worker w = .loop it (pos :: todo)) :
    pos < s.threads.table.buckets.length := by
  have hwalked := hI.control.walked w
  rw [hw] at hwalked
  obtain ⟨-, -, hlog⟩ := hwalked
  have hhistory : (it, pos) ∈ Handshake.history (fun _ w => chunk n t₀.buckets.length w) w
      s.control.round := by
    rw [← hlog]
    simp
  have hmem : pos ∈ chunk n t₀.buckets.length w := Handshake.mem_history hhistory
  rw [hI.length, ← List.mem_range, ← flatten_chunks t₀.buckets.length w.pos]
  exact List.mem_flatten.2 ⟨_, List.mem_map.2 ⟨w, List.mem_range.2 w.isLt, rfl⟩, hmem⟩

/-- With at least as many positions as threads no piece is empty. -/
theorem chunk_ne_nil {count : ℕ} (hcount : n ≤ count) (w : Fin n) : chunk n count w ≠ [] := by
  have hq : 1 ≤ count / n := (Nat.one_le_div_iff w.pos).2 hcount
  have hle : count / n * (w + 1) ≤ count :=
    (Nat.mul_le_mul_left _ w.isLt).trans (Nat.div_mul_le_self _ n)
  rw [Nat.mul_succ] at hle
  rw [← List.length_pos_iff, chunk, List.length_range']
  split_ifs <;> omega

omit [Zero V] in
/-- With at least as many buckets as threads, every thread has a piece to walk. -/
theorem Inv.served (hI : Inv threadId hashobj kernel t₀ s) (hid : Function.Injective threadId)
    (hcount : n ≤ t₀.buckets.length) :
    Handshake.Served (fun _ => s.positions threadId) s.control := by
  intro w it hw
  show s.positions threadId w ≠ []
  rw [hI.positions_eq hid hw]
  exact chunk_ne_nil hcount w

omit [Zero V] in
/-- And it finds it. -/
theorem Inv.interval_found (hI : Inv threadId hashobj kernel t₀ s)
    (hid : Function.Injective threadId) (hcount : n ≤ t₀.buckets.length) {w : Fin n} {it : ℕ}
    (hw : s.control.worker w = .first it) : ¬ (threadBegin s.threadInterval (threadId w) = -1 ∨
      threadEnd s.threadInterval (threadId w) = -1) := by
  obtain ⟨l, hl, hs⟩ := hI.divided_of_first hw
  exact (positions_eq_nil_iff hid hl hs w).not.1 (hI.served hid hcount w it hw)

/-- A thread outside `run_iter` takes the step that the handshake allows. -/
theorem canStep_outside [DecidableEq V] (hI : Inv threadId hashobj kernel t₀ s)
    (hid : Function.Injective threadId) (hcount : n ≤ t₀.buckets.length) {w : Fin n}
    (hpc : s.threads.pc w = .outside) {interval : ℕ → Fin n → List ℕ} {m : ℕ}
    (h : (Handshake.workerStep interval w m s.control).isSome = true) :
    ∃ s', Step threadId hashobj kernel s (.worker w) s' := by
  have hcontrol : ∃ s', controlStep threadId w s = some s' := by
    have hsome : (Handshake.workerStep (fun _ => s.positions threadId) w 0 s.control).isSome
        = true := Handshake.workerStep_isSome (hI.served hid hcount) h
    obtain ⟨t, ht⟩ := Option.isSome_iff_exists.1 hsome
    exact ⟨_, by rw [controlStep, ht, Option.map_some]⟩
  unfold Step step workerStep
  cases hw : s.control.worker w <;> simp only [hw, hpc]
  case first it =>
    rw [if_neg (hI.interval_found hid hcount hw)]
    exact hcontrol
  case loop it todo =>
    cases todo with
    | nil => exact hcontrol
    | cons pos todo =>
      have hlt := hI.pos_lt hw
      simp only [List.getElem?_eq_getElem hlt, Option.bind_some]
      split_ifs with hu
      · refine Option.isSome_iff_exists.1 ?_
        simp [iterateStep, iterStep, hpc, List.getElem?_eq_getElem hlt, hu]
      · exact hcontrol
  all_goals exact hcontrol

/-- A thread in `run_iter` has its own references. -/
theorem iterStep_congr {threads : Vertexlock.State K V D n} {w : Fin n}
    (hpc : threads.pc w ≠ .outside) (pos pos' : ℕ) :
    iterStep hashobj kernel w pos threads = iterStep hashobj kernel w pos' threads := by
  unfold iterStep
  cases h : threads.pc w <;> simp only
  case outside => exact absurd h hpc
  case next rest => cases rest <;> rfl

/-- A thread in `run_iter` takes its next statement. -/
theorem canStep_inside [DecidableEq V] (hI : Inv threadId hashobj kernel t₀ s) {w : Fin n}
    (hpc : s.threads.pc w ≠ .outside) {threads : Vertexlock.State K V D n}
    (heffect : Vertexlock.Effect kernel s.threads w threads) :
    ∃ s', Step threadId hashobj kernel s (.worker w) s' := by
  obtain ⟨pos', hstep⟩ := Vertexlock.exists_step_of_effect hI.threads heffect
  have hiter : ∀ pos, iterStep hashobj kernel w pos s.threads = some threads := fun pos =>
    (iterStep_congr hpc pos pos').trans hstep
  have hiterate : ∀ pos, ∃ s', iterateStep hashobj kernel w pos s = some s' := fun pos =>
    ⟨_, by rw [iterateStep, hiter pos, Option.map_some]⟩
  -- the handshake lets a thread through in its loop and in that over its messages
  have hboth : ∀ pos, (∀ m, (Handshake.workerStep (fun _ => s.positions threadId) w m
      s.control).isSome = true) → ∃ s', bothStep threadId hashobj kernel w pos s = some s' := by
    intro pos hsome
    obtain ⟨control, hcontrol⟩ := Option.isSome_iff_exists.1 (hsome (threads.output w).length)
    exact ⟨_, by rw [bothStep, hiter pos, Option.bind_some, hcontrol, Option.map_some]⟩
  have hsync := (hI.agrees w).synced
  unfold Step step workerStep
  cases hw : s.control.worker w <;> rw [hw] at hsync
  case loop it todo =>
    cases todo with
    | nil => exact absurd hsync hpc
    | cons pos todo =>
      have hsend := hboth pos fun m => by simp [Handshake.workerStep, hw]
      cases hpc' : s.threads.pc w <;> simp only [hw, hpc']
      case outside => exact absurd hpc' hpc
      case send => exact hsend
      all_goals exact hiterate pos
  case send it todo =>
    have hsend := hboth 0 fun m => by
      simp only [Handshake.workerStep, hw]
      cases s.control.output w <;> rfl
    cases hpc' : s.threads.pc w <;> simp only [hw, hpc']
    case outside => exact absurd hpc' hpc
    case apply => exact hsend
    case next rest =>
      cases rest with
      | nil => exact hsend
      | cons => exact hiterate 0
    all_goals exact hiterate 0
  all_goals exact absurd hsync hpc

/-! ### Every step of an execute thread counts -/

/-- What a thread has left to do, compared stage by stage. -/
def rank (s : State K V D n) (w : Fin n) : ℕ ×ₗ ℕ ×ₗ ℕ :=
  toLex ((s.control.worker w).stage, toLex ((s.control.worker w).toWalk,
    (s.threads.pc w).toGo (s.threads.output w)))

omit [DecidableEq K] [Zero V] in
theorem rank_lt_of_stage {w : Fin n}
    (h : (s'.control.worker w).stage < (s.control.worker w).stage) : rank s' w < rank s w :=
  Prod.Lex.toLex_lt_toLex.2 (Or.inl h)

omit [DecidableEq K] [Zero V] in
theorem rank_lt_of_toWalk {w : Fin n}
    (hstage : (s'.control.worker w).stage = (s.control.worker w).stage)
    (h : (s'.control.worker w).toWalk < (s.control.worker w).toWalk) : rank s' w < rank s w :=
  Prod.Lex.toLex_lt_toLex.2 (Or.inr ⟨hstage, Prod.Lex.toLex_lt_toLex.2 (Or.inl h)⟩)

omit [DecidableEq K] [Zero V] in
theorem rank_lt_of_toGo {w : Fin n} (hworker : s'.control.worker w = s.control.worker w)
    (h : (s'.threads.pc w).toGo (s'.threads.output w)
      < (s.threads.pc w).toGo (s.threads.output w)) : rank s' w < rank s w := by
  unfold rank
  rw [hworker]
  exact Prod.Lex.toLex_lt_toLex.2 (Or.inr ⟨rfl, Prod.Lex.toLex_lt_toLex.2 (Or.inr ⟨rfl, h⟩)⟩)

/-- The statements of `run_iter` but the last in front of `g_func` and the last of all. -/
theorem toGo_lt {threads threads' : Vertexlock.State K V D n} {w : Fin n}
    (h : Vertexlock.Effect kernel threads w threads') (hsend : ∀ p, threads.pc w ≠ .send p)
    (hnext : threads.pc w ≠ .next []) :
    (threads'.pc w).toGo (threads'.output w) < (threads.pc w).toGo (threads.output w) := by
  cases h with
  | send hpc _ _ => exact absurd hpc (hsend _)
  | leave hpc => exact absurd hpc hnext
  | enter hpc _ | lock hpc _ _ | process hpc | accumulate hpc _ | reset hpc _ | unlock hpc _
  | next hpc | lockTarget hpc _ | apply hpc _ | unlockTarget hpc =>
    rw [hpc]
    simp only [Vertexlock.State.goto, Function.update_self, IterPc.toGo, List.length_cons]
    omega

omit [DecidableEq K] [Zero V] in
/-- A thread outside `run_iter`. -/
theorem rank_lt_control (hagree : ∀ w, Agrees kernel s w) {w : Fin n} {m : ℕ}
    {control : Handshake.State n} {interval : ℕ → Fin n → List ℕ}
    (hcontrol : Handshake.workerStep interval w m s.control = some control)
    (hpc : s.threads.pc w = .outside) : rank { s with control := control } w < rank s w := by
  have hcount := (hagree w).counted
  rw [hpc] at hcount
  unfold Handshake.workerStep at hcontrol
  cases hw : s.control.worker w <;> simp only [hw] at hcontrol
  case waiting | atBarrier | exited => cases hcontrol
  case lock | woken | first =>
    split_ifs at hcontrol
    cases hcontrol
    exact rank_lt_of_stage (by simp [hw, Handshake.WorkerPc.stage])
  case barrier =>
    split_ifs at hcontrol <;> cases hcontrol <;>
      exact rank_lt_of_stage (by simp [hw, Handshake.WorkerPc.stage])
  case read =>
    cases hcontrol
    refine rank_lt_of_stage ?_
    cases s.control.it2 <;> simp [hw, Handshake.WorkerPc.stage]
  case loop it todo =>
    cases todo with
    | nil =>
      cases hcontrol
      exact rank_lt_of_stage (by simp [hw, Handshake.WorkerPc.stage])
    | cons pos todo =>
      cases hcontrol
      refine rank_lt_of_toWalk (by simp [hw, Handshake.WorkerPc.stage]) ?_
      simp only [hw, Function.update_self, Handshake.WorkerPc.toWalk, List.length_cons]
      omega
  case send it todo =>
    have hzero : s.control.output w = 0 := hcount it todo hw
    simp only [hzero, Option.some.injEq] at hcontrol
    subst hcontrol
    exact rank_lt_of_toWalk (by simp [hw, Handshake.WorkerPc.stage])
      (by simp [hw, Handshake.WorkerPc.toWalk])
  all_goals
    cases hcontrol
    exact rank_lt_of_stage (by simp [hw, Handshake.WorkerPc.stage])

omit [DecidableEq K] [Zero V] in
/-- A thread that does not move has no more left. -/
theorem rank_le_other {interval : ℕ → Fin n → List ℕ} {w w' : Fin n} {m : ℕ}
    (hcontrol : Handshake.workerStep interval w m s.control = some s'.control) (hw : w' ≠ w)
    (hthreads : s'.threads.pc w' = s.threads.pc w' ∧ s'.threads.output w' = s.threads.output w') :
    rank s' w' ≤ rank s w' := by
  rcases (Handshake.workerStep_other hcontrol hw).2 with hsame | ⟨-, hat, hsignal⟩
  · unfold rank
    rw [hsame, hthreads.1, hthreads.2]
  · exact (rank_lt_of_stage (by simp [hat, hsignal, Handshake.WorkerPc.stage])).le

/-- **Every step of an execute thread** leaves it less to do, and no other thread more. -/
theorem rank_lt (hI : Inv threadId hashobj kernel t₀ s) {w : Fin n}
    (h : Effect threadId hashobj kernel s (.worker w) s') : rank s' < rank s := by
  suffices hrank : rank s' w < rank s w ∧ ∀ w', w' ≠ w → rank s' w' ≤ rank s w' by
    refine Pi.lt_def.2 ⟨fun w' => ?_, w, hrank.1⟩
    by_cases hw : w' = w
    · rw [hw]
      exact hrank.1.le
    · exact hrank.2 w' hw
  have hother : ∀ {pos : ℕ} {threads : Vertexlock.State K V D n},
      iterStep hashobj kernel w pos s.threads = some threads → ∀ w', w' ≠ w →
        threads.pc w' = s.threads.pc w' ∧ threads.output w' = s.threads.output w' :=
    fun hthreads w' hne => (Vertexlock.iterStep_effect hI.threads hthreads).other hne
  have hsame : ∀ {pos : ℕ} {threads : Vertexlock.State K V D n},
      iterStep hashobj kernel w pos s.threads = some threads → ∀ w', w' ≠ w →
        rank { s with threads := threads } w' ≤ rank s w' := by
    intro pos threads hthreads w' hne
    obtain ⟨hpc, hout⟩ := hother hthreads w' hne
    unfold rank
    rw [hpc, hout]
  cases h with
  | control hcontrol hpc _ =>
    exact ⟨rank_lt_control hI.agrees hcontrol hpc, fun w' hne =>
      rank_le_other hcontrol hne ⟨rfl, rfl⟩⟩
  | enter hw hsend hthreads =>
    refine ⟨rank_lt_of_toGo rfl (toGo_lt (Vertexlock.iterStep_effect hI.threads hthreads) hsend
      fun hnext => ?_), hsame hthreads⟩
    have hsync := (hI.agrees w).synced
    rw [hw, hnext] at hsync
    simp [Synced, IterPc.beforeSend] at hsync
  | send hw hpc hthreads hcontrol =>
    refine ⟨?_, fun w' hne => rank_le_other hcontrol hne (hother hthreads w' hne)⟩
    simp only [Handshake.workerStep, hw, Option.some.injEq] at hcontrol
    subst hcontrol
    refine rank_lt_of_toWalk (by simp [hw, Handshake.WorkerPc.stage]) ?_
    simp only [hw, Function.update_self, Handshake.WorkerPc.toWalk, List.length_cons]
    omega
  | iterate hw hout happly hnext hthreads =>
    refine ⟨rank_lt_of_toGo rfl (toGo_lt (Vertexlock.iterStep_effect hI.threads hthreads)
      (fun p hp => ?_) hnext), hsame hthreads⟩
    have hsync := (hI.agrees w).synced
    rw [hw, hp] at hsync
    simp [Synced, IterPc.beforeSend] at hsync
  | @deliver w it todo threads control hw hpc hthreads hcontrol =>
    refine ⟨?_, fun w' hne => rank_le_other hcontrol hne (hother hthreads w' hne)⟩
    have hcount := (hI.agrees w).counted it todo hw
    rcases hpc with ⟨kvpair, rest, hpc⟩ | hpc <;> rw [hpc] at hcount
    · have hleft : s.control.output w = rest.length + 1 := hcount
      simp only [Handshake.workerStep, hw, hleft, Option.some.injEq] at hcontrol
      exact rank_lt_of_toGo (by rw [← hcontrol]) (toGo_lt
        (Vertexlock.iterStep_effect hI.threads hthreads) (by simp [hpc]) (by simp [hpc]))
    · have hleft : s.control.output w = 0 := hcount
      simp only [Handshake.workerStep, hw, hleft, Option.some.injEq] at hcontrol
      subst hcontrol
      exact rank_lt_of_toWalk (by simp [hw, Handshake.WorkerPc.stage])
        (by simp [hw, Handshake.WorkerPc.toWalk])

/-! ### Every run -/

variable [DecidableEq V]

variable (threadId hashobj kernel) in
/-- A step that does not lose a wake-up. -/
def Timely (s : State K V D n) (a : Action n) (s' : State K V D n) : Prop :=
  Step threadId hashobj kernel s a s' ∧ ¬ Handshake.LostWakeup s.control (a.control 0)

variable (threadId hashobj kernel) in
/-- A step function that refuses to lose a wake-up. -/
def timelyStep (s : State K V D n) (a : Action n) : Option (State K V D n) :=
  if Handshake.LostWakeup s.control (a.control 0) then none else step threadId hashobj kernel s a

theorem reaches_of_timelyStep {l : List (Action n)}
    (h : l.foldlM (timelyStep threadId hashobj kernel) s = some s') :
    LTS.Reaches (Timely threadId hashobj kernel) s s' := by
  refine ((LTS.Run.of_foldlM l h).mono fun s a s' hstep => ?_).reaches
  unfold timelyStep at hstep
  split_ifs at hstep with hlost
  exact ⟨hstep, hlost⟩

/-- The scheduler takes the step that the handshake allows. -/
theorem canStep_sched (h : (Handshake.schedStep s.control).isSome = true) :
    ∃ s', Step threadId hashobj kernel s .sched s' := by
  obtain ⟨control, hcontrol⟩ := Option.isSome_iff_exists.1 h
  refine Option.isSome_iff_exists.1 ?_
  show (schedStep kernel s).isSome = true
  unfold schedStep
  rw [hcontrol, Option.bind_some]
  split_ifs
  · simp [Iterator.new, Except.toOption, pure, Except.pure]
  · rfl

variable [Inhabited (Bucket K V D)]

/-- Some thread in `run_iter` can take a step. -/
theorem canStep_of_inside (hid : Function.Injective threadId) (hload : Loaded hashobj kernel t₀)
    (hclosed : ClosedLinks kernel t₀) (h : Reaches threadId hashobj kernel (start threadId t₀) s)
    {w : Fin n} (hw : s.threads.pc w ≠ .outside) :
    ∃ w s', Step threadId hashobj kernel s (.worker w) s' := by
  have hthreads := threads_reaches hid hload h
  obtain ⟨hI, hheld⟩ := Vertexlock.held_reaches hload hthreads
  obtain ⟨w', hw', threads, heffect⟩ := Vertexlock.step_of_inside hI hheld
    (Vertexlock.deliverable_reaches hload hclosed hthreads) hw
  exact ⟨w', canStep_inside (inv_reaches hid hload h) hw' heffect⟩

/-- **The second phase does not deadlock unless a wake-up is lost.**  As long as no step loses a
broadcast on `schedulec`, some thread can take a step, although the threads wait for the mutexes of
the vertices, for those of the handshake, on two condition variables and at the barrier; or the
schedule thread has left, and every execute thread waits on `threadc`. -/
theorem second_phase_progress (hn : 0 < n) (hid : Function.Injective threadId)
    (hload : Loaded hashobj kernel t₀) (hclosed : ClosedLinks kernel t₀)
    (hcount : n ≤ t₀.buckets.length)
    (h : LTS.Reaches (Timely threadId hashobj kernel) (start threadId t₀) s) :
    (∃ a s', a ≠ .terminate ∧ Step threadId hashobj kernel s a s') ∨
      s.control.sched = .exited ∧ ∀ w, s.control.worker w = .waiting := by
  have hreach : Reaches threadId hashobj kernel (start threadId t₀) s := by
    obtain ⟨l, hl⟩ := h
    exact (hl.mono fun _ _ _ hstep => hstep.1).reaches
  have hcontrol : LTS.Reaches (Handshake.Timely fun _ w => chunk n t₀.buckets.length w)
      Handshake.start s.control := by
    refine h.simulation (f := State.control) (I := Inv threadId hashobj kernel t₀) ?_ ?_
      (inv_start hload)
    · exact fun s a s' hI hstep =>
        inv_effect hid hI (step_effect (fun w => (hI.agrees w).synced) hstep.1)
    · rintro s a s' hI ⟨hstep, hlost⟩
      refine (hI.control_effect hid
        (step_effect (fun w => (hI.agrees w).synced) hstep)).imp_right ?_
      rintro ⟨messages, hcontrol⟩
      exact ⟨_, hcontrol, by cases a <;> exact hlost⟩
  have hI := inv_reaches hid hload hreach
  by_cases hout : ∀ w, s.threads.pc w = .outside
  · obtain ⟨hIc, hawaited⟩ := Handshake.awaited_reaches hn hcontrol
    have hserved : Handshake.Served (fun _ w => chunk n t₀.buckets.length w) s.control :=
      fun w _ _ => chunk_ne_nil hcount w
    rcases Handshake.canStep_or_exited hIc hserved hawaited with ⟨a, t, hne, hstep⟩ | hexited
    · left
      cases a with
      | sched =>
        obtain ⟨s', hs'⟩ := canStep_sched (s := s) (Option.isSome_iff_exists.2 ⟨t, hstep⟩)
        exact ⟨.sched, s', nofun, hs'⟩
      | worker w m =>
        have hsome : Handshake.workerStep (fun _ w => chunk n t₀.buckets.length w) w m s.control
            = some t := hstep
        obtain ⟨s', hs'⟩ := canStep_outside hI hid hcount (hout w)
          (Option.isSome_iff_exists.2 ⟨t, hsome⟩)
        exact ⟨.worker w, s', nofun, hs'⟩
      | terminate => exact absurd rfl hne
    · have hphase := hIc.phase
      rw [hexited] at hphase
      exact Or.inr ⟨hexited, hphase⟩
  · push Not at hout
    obtain ⟨w, hw⟩ := hout
    obtain ⟨w', s', hs'⟩ := canStep_of_inside hid hload hclosed hreach hw
    exact Or.inl ⟨.worker w', s', nofun, hs'⟩

/-- In `oneRound` the scheduler waits before the thread broadcasts. -/
theorem second_phase_progress_oneRound : ∃ s : State Int32 ℚ (List Int32) 1,
    (oneRound 0).foldlM (timelyStep (fun _ => 7) idHash pagerankIterateKernel)
        (start (fun _ => 7) (twoVertices 0.2 0 0.2 0 0)) = some s ∧
      ((∃ a s', a ≠ .terminate ∧ Step (fun _ => 7) idHash pagerankIterateKernel s a s') ∨
        s.control.sched = .exited ∧ ∀ w, s.control.worker w = .waiting) := by
  obtain ⟨s, hs⟩ := Option.isSome_iff_exists.1 (by decide +kernel :
    ((oneRound 0).foldlM (timelyStep (fun _ => 7) idHash pagerankIterateKernel)
      (start (fun _ => 7) (twoVertices 0.2 0 0.2 0 0))).isSome = true)
  exact ⟨s, hs, second_phase_progress (by decide) (Function.injective_of_subsingleton _)
    loaded_twoVertices closedLinks_twoVertices (by decide) (reaches_of_timelyStep hs)⟩

theorem notAllArrived_reaches (hn : 0 < n) (hid : Function.Injective threadId)
    (hload : Loaded hashobj kernel t₀)
    (h : Reaches threadId hashobj kernel (start threadId t₀) s) :
    Handshake.NotAllArrived s.control :=
  (control_reaches hid hload h).invariant
    (fun _ _ _ hs hstep => Handshake.notAllArrived_step hs hstep) ⟨⟨0, hn⟩, nofun⟩

/-- The run of `oneRound`, up to the moment when the thread waits again. -/
def wholeRound (w : Fin 1) : List (Action 1) :=
  List.replicate 3 (.worker w) ++ List.replicate 10 .sched ++ List.replicate 34 (.worker w)

end SecondPhase

end Maiter
