import Maiter.Engine.SumKernels
import Maiter.SecondPhase.Invariant
import Maiter.TermCheck.Scan

/-!
# The rounds of the second phase

* `remaining`: the positions of its piece that a thread has still to process in its round;
* `Within`: a run of critical sections from the state in which the round began, in which every
  thread has processed the vertices of its piece but those that remain;
* `RoundInv`, `roundInv_effect`: the threads are between two rounds or within one;
* `rounds_of_reaches`: between two rounds the table is one that as many full scans leave as
  `threadc` has been broadcast, and within a round it is at most one full scan ahead.
-/

namespace Maiter

open DeltaIteration (absorbed absorbedBy)
open Engine (idHash twoVertices loaded_twoVertices)
open Vertexlock (IterPc iterStep)

variable {K V D : Type} [DecidableEq K] {n : ℕ}

namespace SecondPhase

/-- The positions of its piece that a thread has still to process. -/
def remaining (piece : List ℕ) : Handshake.WorkerPc → IterPc K V → List ℕ
  | .woken, _ | .unlock, _ | .read, _ | .first _, _ => piece
  | .loop _ todo, .send _ => todo.tail
  | .loop _ todo, _ | .send _ todo, _ => todo
  | _, _ => []

omit [DecidableEq K] in
@[simp] theorem remaining_send (piece : List ℕ) (it : ℕ) (todo : List ℕ) (pc : IterPc K V) :
    remaining piece (.send it todo) pc = todo := by
  cases pc <;> rfl

omit [DecidableEq K] in
theorem remaining_loop (piece : List ℕ) (it : ℕ) (todo : List ℕ) {pc : IterPc K V}
    (h : ∀ pos, pc ≠ .send pos) : remaining piece (.loop it todo) pc = todo := by
  cases pc <;> first | rfl | exact absurd rfl (h _)

variable [Zero V]

/-- A round that began in the state `e₀`, after `r` rounds; `l` are its critical sections so far. -/
structure Within (hashobj : K → ℕ) (kernel : IterateKernel K V D) (t₀ : StateTable K V D) (r : ℕ)
    (e₀ : Engine K V D n) (l : List (DeltaIteration.Action K (Fin n))) (s : State K V D n) :
    Prop where
  sched : s.control.sched = .lockSched ∨ s.control.sched = .wait ∨ s.control.sched = .waiting
  inRound : ∀ w, (s.control.worker w).inRound = true
  round : s.control.round = r + 1
  run : LTS.Run (Engine.Step hashobj kernel) e₀ l (s.threads.atomic kernel)
  divided : ∀ w, absorbedBy w l ++ (remaining (chunk n t₀.buckets.length w)
      (s.control.worker w) (s.threads.pc w)).filterMap t₀.layout
    = (chunk n t₀.buckets.length w).filterMap t₀.layout

/-- The threads are between two rounds or within one. -/
inductive RoundInv (hashobj : K → ℕ) (kernel : IterateKernel K V D) (t₀ : StateTable K V D)
    (s : State K V D n) : Prop
  | between : (∀ w, (s.control.worker w).outside = true) →
      Engine.Rounds hashobj kernel (Engine.start t₀) s.control.round (s.threads.atomic kernel) →
      RoundInv hashobj kernel t₀ s
  | within {r : ℕ} {e₀ : Engine K V D n} {l : List (DeltaIteration.Action K (Fin n))} :
      Engine.Rounds hashobj kernel (Engine.start t₀) r e₀ → (∀ w, e₀.output w = []) →
      Within hashobj kernel t₀ r e₀ l s → RoundInv hashobj kernel t₀ s

variable {threadId : Fin n → ℕ} {hashobj : K → ℕ} {kernel : IterateKernel K V D}
  {t₀ : StateTable K V D} {s s' : State K V D n} {r : ℕ} {e₀ : Engine K V D n}
  {l : List (DeltaIteration.Action K (Fin n))}

/-! ### Steps within a round -/

/-- Thread `w` moves within the round; `a` are the critical sections that its step completes. -/
theorem Within.move (h : Within hashobj kernel t₀ r e₀ l s) {w : Fin n}
    {a : List (DeltaIteration.Action K (Fin n))}
    (hsched : s'.control.sched = s.control.sched) (hround : s'.control.round = s.control.round)
    (hother : ∀ w', w' ≠ w → s'.control.worker w' = s.control.worker w' ∧
      s'.threads.pc w' = s.threads.pc w')
    (hin : (s'.control.worker w).inRound = true)
    (hrun : LTS.Run (Engine.Step hashobj kernel) (s.threads.atomic kernel) a
      (s'.threads.atomic kernel))
    (habs : ∀ w', w' ≠ w → absorbedBy w' a = [])
    (hleft : absorbedBy w a ++ (remaining (chunk n t₀.buckets.length w) (s'.control.worker w)
        (s'.threads.pc w)).filterMap t₀.layout
      = (remaining (chunk n t₀.buckets.length w) (s.control.worker w)
        (s.threads.pc w)).filterMap t₀.layout) :
    Within hashobj kernel t₀ r e₀ (l ++ a) s' where
  sched := by rw [hsched]; exact h.sched
  inRound w' := by
    by_cases hw : w' = w
    · rw [hw]
      exact hin
    · rw [(hother w' hw).1]
      exact h.inRound w'
  round := hround.trans h.round
  run := h.run.append hrun
  divided w' := by
    have hdiv := h.divided w'
    rw [DeltaIteration.absorbedBy_append]
    by_cases hw : w' = w
    · rw [hw] at hdiv ⊢
      rw [List.append_assoc, hleft, hdiv]
    · rw [habs w' hw, List.append_nil, (hother w' hw).1, (hother w' hw).2, hdiv]

/-- The same for a step that completes no critical section. -/
theorem Within.stay (h : Within hashobj kernel t₀ r e₀ l s) {w : Fin n}
    (hsched : s'.control.sched = s.control.sched) (hround : s'.control.round = s.control.round)
    (hother : ∀ w', w' ≠ w → s'.control.worker w' = s.control.worker w' ∧
      s'.threads.pc w' = s.threads.pc w')
    (hin : (s'.control.worker w).inRound = true)
    (hatomic : s'.threads.atomic kernel = s.threads.atomic kernel)
    (hleft : (remaining (chunk n t₀.buckets.length w) (s'.control.worker w)
        (s'.threads.pc w)).filterMap t₀.layout
      = (remaining (chunk n t₀.buckets.length w) (s.control.worker w)
        (s.threads.pc w)).filterMap t₀.layout) :
    Within hashobj kernel t₀ r e₀ l s' := by
  have hmove := h.move (a := []) hsched hround hother hin (by rw [hatomic]; exact LTS.Run.nil)
    (fun _ _ => rfl) hleft
  rwa [List.append_nil] at hmove

omit [Zero V] in
/-- The pieces of the threads together are the buckets. -/
theorem perm_pieces {t : StateTable K V D} (hwf : t.WF hashobj) (hn : 0 < n) :
    ((List.finRange n).flatMap fun w : Fin n =>
      (chunk n t.buckets.length w).filterMap t.layout).Perm (t.stored.map (·.k)) := by
  have hpieces : ((List.finRange n).flatMap fun w : Fin n =>
      (chunk n t.buckets.length w).filterMap t.layout) = TermCheck.scanned t t.size := by
    have hflat : ((List.finRange n).map fun w : Fin n => chunk n t.buckets.length w).flatten
        = List.range t.buckets.length := by
      rw [← flatten_chunks t.buckets.length hn, ← List.map_coe_finRange_eq_range, List.map_map]
      rfl
    rw [TermCheck.scanned, ← hwf.len, ← hflat, List.filterMap_flatten, List.map_map,
      List.flatMap_def]
    rfl
  rw [hpieces, List.perm_ext_iff_of_nodup (TermCheck.nodup_scanned hwf t.size) hwf.nodup_keys]
  intro k
  rw [TermCheck.mem_scanned_size hwf, StateTable.mem_vertices, List.mem_map]

/-- **The last thread arrives at the barrier**: the round is a full scan. -/
theorem Within.round_of_barrier (h : Within hashobj kernel t₀ r e₀ l s) (hn : 0 < n)
    (hempty : ∀ w, e₀.output w = []) (hwf : e₀.table.WF hashobj)
    (hlay : e₀.table.layout = t₀.layout) (hlen : e₀.table.buckets.length = t₀.buckets.length)
    (hbarrier : ∀ w, s.control.worker w = .barrier ∨ s.control.worker w = .atBarrier)
    (hout : ∀ w, s.threads.pc w = .outside) :
    Engine.Round hashobj kernel e₀ l (s.threads.atomic kernel) where
  run := h.run
  start := hempty
  finish w := by
    show (s.threads.pc w).pending kernel s.threads.table (s.threads.output w) = []
    rw [hout w]
    rfl
  once := by
    have hdone : ∀ w, absorbedBy w l
        = (chunk n e₀.table.buckets.length w).filterMap e₀.table.layout := by
      intro w
      have hdiv := h.divided w
      rw [hlay, hlen, ← hdiv]
      rcases hbarrier w with hw | hw <;> simp [hw, hout w, remaining]
    refine (DeltaIteration.perm_absorbed (List.nodup_finRange n) List.mem_finRange l).trans ?_
    rw [funext hdone]
    exact perm_pieces hwf hn

theorem rounds_layout (h : Engine.Rounds hashobj kernel (Engine.start t₀) r e₀) :
    e₀.table.size = t₀.size ∧ e₀.table.layout = t₀.layout := by
  have hreach := LTS.Rounds.reaches (fun _ _ _ hround => hround.run) h
  refine hreach.invariant (I := fun e => e.table.size = t₀.size ∧ e.table.layout = t₀.layout)
    (fun e a e' he hstep => ?_) ⟨rfl, rfl⟩
  obtain ⟨hsize, hlay⟩ := Engine.step_layout hstep
  exact ⟨hsize.trans he.1, hlay.trans he.2⟩

/-! ### Every step -/

/-- A thread moves outside `run_iter`. -/
theorem roundInv_control [Inhabited (Bucket K V D)] (hload : Loaded hashobj kernel t₀)
    (hI : Inv threadId hashobj kernel t₀ s) (hid : Function.Injective threadId)
    (hs : RoundInv hashobj kernel t₀ s) {w : Fin n} {control : Handshake.State n}
    (hcontrol : Handshake.workerStep (fun _ => s.positions threadId) w 0 s.control = some control)
    (hpc : s.threads.pc w = .outside) (hskip : ∀ it pos todo,
      s.control.worker w = .loop it (pos :: todo) → s.threads.table.layout pos = none) :
    RoundInv hashobj kernel t₀ ⟨control, s.threads, s.threadInterval⟩ := by
  obtain ⟨-, -, -, -, -, hround, hsched⟩ := Handshake.workerStep_frame hcontrol
  have hother := fun w' (hw : w' ≠ w) => (Handshake.workerStep_other hcontrol hw).2
  cases hs with
  | between hout hrounds =>
    refine .between (fun w' => ?_) (by rw [hround]; exact hrounds)
    by_cases hw : w' = w
    · rw [hw]
      exact Handshake.workerStep_outside hcontrol (hout w)
    · rcases hother w' hw with hsame | ⟨hbarrier, -⟩
      · rw [hsame]
        exact hout w'
      · have hin := hout w
        rw [hbarrier] at hin
        cases hin
  | @within r e₀ l hrounds hempty hwithin =>
    have hin := hwithin.inRound w
    replace hsched := hsched.resolve_right fun h => by
      rw [h.2.1] at hin
      cases hin
    have hstay : ∀ pc, control.worker = Function.update s.control.worker w pc →
        pc.inRound = true → (remaining (chunk n t₀.buckets.length w) pc
          (.outside : IterPc K V)).filterMap t₀.layout
          = (remaining (chunk n t₀.buckets.length w) (s.control.worker w)
            (.outside : IterPc K V)).filterMap t₀.layout →
        RoundInv hashobj kernel t₀ ⟨control, s.threads, s.threadInterval⟩ := by
      intro pc hworker hpcin hleft
      refine .within hrounds hempty
        (hwithin.stay (w := w) hsched hround (fun w' hw => ?_) ?_ rfl ?_)
      · exact ⟨by rw [hworker, Function.update_of_ne hw], rfl⟩
      · rw [hworker, Function.update_self]
        exact hpcin
      · simp only [hworker, Function.update_self, hpc]
        exact hleft
    unfold Handshake.workerStep at hcontrol
    cases hw : s.control.worker w <;> simp only [hw] at hcontrol hstay hin
    case waiting | atBarrier | exited => cases hcontrol
    case lock | count | wait | signal => cases hin
    case woken =>
      split_ifs at hcontrol
      cases hcontrol
      exact hstay .unlock rfl rfl rfl
    case unlock =>
      cases hcontrol
      exact hstay .read rfl rfl rfl
    case read =>
      cases hcontrol
      have hit := (hI.control.it2_of_inRound (w := w) (by rw [hw]; rfl)).1
      rw [hit] at hstay ⊢
      exact hstay (.first _) rfl rfl rfl
    case first it =>
      split_ifs at hcontrol
      cases hcontrol
      refine hstay (.loop it (s.positions threadId w)) rfl rfl ?_
      rw [hI.positions_eq hid hw]
      rfl
    case loop it todo =>
      cases todo with
      | nil =>
        cases hcontrol
        exact hstay .barrier rfl rfl rfl
      | cons pos todo =>
        cases hcontrol
        refine hstay (.send it todo) rfl rfl ?_
        -- the bucket that is skipped holds no vertex
        have hnone := hskip it pos todo hw
        rw [hI.layout] at hnone
        rw [remaining_loop _ _ _ (by simp), remaining_send, List.filterMap_cons, hnone]
    case send it todo =>
      cases hout : s.control.output w <;> simp only [hout] at hcontrol <;> cases hcontrol
      · exact hstay (.loop it todo) rfl rfl rfl
      · refine hstay (.send it todo) ?_ rfl rfl
        rw [← hw, Function.update_eq_self]
    case barrier =>
      split_ifs at hcontrol with hlast <;> cases hcontrol
      · have hbarrier : ∀ w', s.control.worker w' = .barrier ∨ s.control.worker w' = .atBarrier :=
          fun w' => by
            by_cases hw' : w' = w
            · exact Or.inl (by rw [hw', hw])
            · exact Or.inr (hlast w' hw')
        have hout : ∀ w', s.threads.pc w' = .outside := fun w' => by
          have hsync := (hI.agrees w').synced
          rcases hbarrier w' with h | h <;> rw [h] at hsync <;> exact hsync
        obtain ⟨hsize, hlay⟩ := rounds_layout hrounds
        have hreach := LTS.Rounds.reaches (fun _ _ _ hround => hround.run) hrounds
        have hwf := (Engine.inv_loaded hload hreach).wf
        have hlen : e₀.table.buckets.length = t₀.buckets.length := by
          rw [hwf.len, hload.good.wf.len, hsize]
        refine .between (fun _ => rfl) ?_
        show Engine.Rounds hashobj kernel (Engine.start t₀) s.control.round _
        rw [hwithin.round]
        exact hrounds.succ (hwithin.round_of_barrier w.pos hempty hwf hlay hlen hbarrier hout)
      · exact hstay .atBarrier rfl rfl rfl

/-- A thread moves in front of `g_func`: with `accumulateF2` it has processed its vertex. -/
theorem roundInv_enter (hI : Inv threadId hashobj kernel t₀ s) (hs : RoundInv hashobj kernel t₀ s)
    {w : Fin n} {it pos : ℕ} {todo : List ℕ} {threads : Vertexlock.State K V D n}
    (hw : s.control.worker w = .loop it (pos :: todo)) (hsend : ∀ p, s.threads.pc w ≠ .send p)
    (hthreads : iterStep hashobj kernel w pos s.threads = some threads) :
    RoundInv hashobj kernel t₀ { s with threads := threads } := by
  have heffect := Vertexlock.iterStep_effect hI.threads hthreads
  have hat := Vertexlock.atomic_at hI.threads hI.buffers heffect
  have hother := fun w' (h : w' ≠ w) => (heffect.other h).1
  cases hs with
  | between hout _ =>
    have hin := hout w
    rw [hw] at hin
    cases hin
  | @within r e₀ l hrounds hempty hwithin =>
    have hin : (s.control.worker w).inRound = true := hwithin.inRound w
    have hloop : remaining (chunk n t₀.buckets.length w) (s.control.worker w) (s.threads.pc w)
        = pos :: todo := by rw [hw, remaining_loop _ _ _ hsend]
    by_cases hacc : ∃ p, s.threads.pc w = .accumulate p
    · obtain ⟨p, hpc⟩ := hacc
      simp only [hpc] at hat
      obtain ⟨k, hk, hstep⟩ := hat
      refine .within hrounds hempty (hwithin.move (a := [.absorb w k]) rfl rfl
        (fun w' h => ⟨rfl, hother w' h⟩) hin (LTS.Run.single hstep) (fun w' h => ?_) ?_)
      · rw [DeltaIteration.absorbedBy_absorb, if_neg (Ne.symm h)]
      · -- the references point into the bucket that `run_loop` is at
        have hsync := (hI.agrees w).synced
        rw [hw, hpc] at hsync
        obtain ⟨hp, -⟩ := hsync.resolve_left (by simp)
        cases hp
        have hpc' : threads.pc w = .send pos := by
          cases heffect with
          | accumulate hpc' hk' =>
            rw [hpc] at hpc'
            cases hpc'
            simp [Vertexlock.State.goto]
          | _ hpc' => rw [hpc] at hpc'; cases hpc'
        rw [hI.layout] at hk
        rw [hloop, DeltaIteration.absorbedBy_absorb, if_pos rfl, hw, hpc']
        simp [remaining, hk]
    · have hsame : threads.atomic kernel = s.threads.atomic kernel ∧
          ∀ p, threads.pc w ≠ .send p := by
        have hsync := (hI.agrees w).synced
        simp only [hw, Synced] at hsync
        cases heffect with
        | enter hpc hk | lock hpc hk hfree | process hpc =>
          simp only [hpc] at hat
          exact ⟨hat, by simp [Vertexlock.State.goto]⟩
        | accumulate hpc hk => exact absurd ⟨_, hpc⟩ hacc
        | send hpc hk hc => exact absurd hpc (hsend _)
        | reset hpc hk | unlock hpc hk | leave hpc | next hpc | lockTarget hpc hfree
        | apply hpc hk | unlockTarget hpc => simp [hpc, IterPc.beforeSend] at hsync
      refine .within hrounds hempty (hwithin.stay (w := w) rfl rfl
        (fun w' h => ⟨rfl, hother w' h⟩) hin hsame.1 ?_)
      rw [hloop]
      show (remaining _ (s.control.worker w) (threads.pc w)).filterMap t₀.layout = _
      rw [hw, remaining_loop _ _ _ hsame.2]

/-- A thread moves in the loop over the output buffer, or gets there. -/
theorem roundInv_send (hI : Inv threadId hashobj kernel t₀ s) (hs : RoundInv hashobj kernel t₀ s)
    (it : ℕ) (todo : List ℕ) {w : Fin n} {pos : ℕ} {threads : Vertexlock.State K V D n}
    {control : Handshake.State n} (hin : (s.control.worker w).inRound = true)
    (htodo : remaining (chunk n t₀.buckets.length w) (s.control.worker w) (s.threads.pc w) = todo)
    (hacc : ∀ p, s.threads.pc w ≠ .accumulate p)
    (hthreads : iterStep hashobj kernel w pos s.threads = some threads)
    (hsched : control.sched = s.control.sched) (hround : control.round = s.control.round)
    (hother : ∀ w', w' ≠ w → control.worker w' = s.control.worker w')
    (hw' : control.worker w = .send it todo ∨
      control.worker w = .loop it todo ∧ threads.pc w = .outside) :
    RoundInv hashobj kernel t₀ ⟨control, threads, s.threadInterval⟩ := by
  have heffect := Vertexlock.iterStep_effect hI.threads hthreads
  have hat := Vertexlock.atomic_at hI.threads hI.buffers heffect
  have hpcs := fun w' (h : w' ≠ w) => (heffect.other h).1
  have hrun : ∃ a, LTS.Run (Engine.Step hashobj kernel) (s.threads.atomic kernel) a
      (threads.atomic kernel) ∧ ∀ w', absorbedBy w' a = [] := by
    cases hpc : s.threads.pc w <;> simp only [hpc] at hat
    case accumulate p => exact absurd hpc (hacc p)
    case apply => exact ⟨[.deliver w], LTS.Run.single hat, fun w' => rfl⟩
    all_goals exact ⟨[], by rw [hat]; exact LTS.Run.nil, fun w' => rfl⟩
  obtain ⟨a, hrun, habs⟩ := hrun
  cases hs with
  | between hout _ =>
    have hout' := hout w
    rw [Handshake.WorkerPc.outside_of_inRound hin] at hout'
    cases hout'
  | @within r e₀ l hrounds hempty hwithin =>
    refine .within hrounds hempty (hwithin.move (w := w) hsched hround
      (fun w' h => ⟨hother w' h, hpcs w' h⟩) ?_ hrun (fun w' _ => habs w') ?_)
    · rcases hw' with h | ⟨h, -⟩ <;> simp [h, Handshake.WorkerPc.inRound]
    · rw [habs w, htodo, List.nil_append]
      rcases hw' with h | ⟨h, hpc⟩
      · simp [h]
      · simp [h, hpc, remaining]

/-- The scheduler moves, and with the broadcast the next round begins. -/
theorem roundInv_sched (hI : Inv threadId hashobj kernel t₀ s) (hs : RoundInv hashobj kernel t₀ s)
    {control : Handshake.State n} {threadInterval : List KVVPair}
    (hcontrol : Handshake.schedStep s.control = some control) :
    RoundInv hashobj kernel t₀ ⟨control, s.threads, threadInterval⟩ := by
  have hphase := hI.control.phase
  cases hs with
  | between hout hrounds =>
    rcases (Handshake.schedStep_frame hcontrol).2 with hbroadcast | ⟨hworker, hround⟩
    · rw [hbroadcast] at hphase
      rw [Handshake.schedStep_broadcast hbroadcast hcontrol]
      refine .within hrounds (fun w => ?_) ⟨Or.inl rfl, fun w => ?_, rfl, LTS.Run.nil, fun w => ?_⟩
      · have hsync := (hI.agrees w).synced
        rw [hphase.1 w] at hsync
        show (s.threads.pc w).pending kernel s.threads.table (s.threads.output w) = []
        rw [hsync]
        rfl
      · simp [hphase.1 w, Handshake.WorkerPc.inRound]
      · simp [hphase.1 w, remaining, absorbedBy]
    · exact .between (fun w => by rw [hworker]; exact hout w) (by rw [hround]; exact hrounds)
  | @within r e₀ l hrounds hempty hwithin =>
    refine .within (l := l) hrounds hempty ?_
    rcases hwithin.sched with h | h | h <;> simp only [Handshake.schedStep, h] at hcontrol
    · split_ifs at hcontrol
      cases hcontrol
      exact ⟨Or.inr (Or.inl rfl), hwithin.inRound, hwithin.round, hwithin.run, hwithin.divided⟩
    · cases hcontrol
      exact ⟨Or.inr (Or.inr rfl), hwithin.inRound, hwithin.round, hwithin.run, hwithin.divided⟩
    · cases hcontrol

/-- **Every step** keeps the threads between two rounds or within one. -/
theorem roundInv_effect [Inhabited (Bucket K V D)] (hload : Loaded hashobj kernel t₀)
    (hid : Function.Injective threadId) (hI : Inv threadId hashobj kernel t₀ s)
    (hs : RoundInv hashobj kernel t₀ s) {a : Action n} (h : Effect threadId hashobj kernel s a s') :
    RoundInv hashobj kernel t₀ s' := by
  cases h with
  | sched hcontrol _ => exact roundInv_sched hI hs hcontrol
  | terminate =>
    cases hs with
    | between hout hrounds => exact .between hout hrounds
    | within hrounds hempty hwithin =>
      exact .within hrounds hempty ⟨hwithin.sched, hwithin.inRound, hwithin.round, hwithin.run,
        hwithin.divided⟩
  | control hcontrol hpc hskip => exact roundInv_control hload hI hid hs hcontrol hpc hskip
  | enter hw hsend hthreads => exact roundInv_enter hI hs hw hsend hthreads
  | @send w it pos p todo threads control hw hpc hthreads hcontrol =>
    have hin : (s.control.worker w).inRound = true := by
      rw [hw]
      rfl
    simp only [Handshake.workerStep, hw, Option.some.injEq] at hcontrol
    subst hcontrol
    exact roundInv_send hI hs it todo hin (by rw [hw, hpc]; rfl) (by simp [hpc]) hthreads rfl rfl
      (fun w' h => Function.update_of_ne h ..) (Or.inl (Function.update_self ..))
  | @iterate w it todo threads hw hout happly hnext hthreads =>
    have hsync := (hI.agrees w).synced
    simp only [hw, Synced] at hsync
    refine roundInv_send hI hs it todo (by rw [hw]; rfl) (by rw [hw]; simp) (fun p hp => ?_)
      hthreads rfl rfl (fun _ _ => rfl) (Or.inl hw)
    simp [hp, IterPc.beforeSend] at hsync
  | @deliver w it todo threads control hw hpc hthreads hcontrol =>
    have hin : (s.control.worker w).inRound = true := by
      rw [hw]
      rfl
    have hacc : ∀ p, s.threads.pc w ≠ .accumulate p := by
      rcases hpc with ⟨kvpair, rest, hpc⟩ | hpc <;> simp [hpc]
    obtain ⟨-, -, -, -, -, hround, hsched⟩ := Handshake.workerStep_frame hcontrol
    replace hsched := hsched.resolve_right fun h => by
      rw [h.2.1] at hin
      cases hin
    refine roundInv_send hI hs it todo hin (by rw [hw]; simp) hacc hthreads hsched hround
      (fun w' h => ?_) ?_
    · refine (Handshake.workerStep_other hcontrol h).2.resolve_right fun h => ?_
      rw [hw] at h
      cases h.1
    · have hcount := (hI.agrees w).counted it todo hw
      rcases hpc with ⟨kvpair, rest, hpc⟩ | hpc <;> rw [hpc] at hcount
      · have hleft : s.control.output w = rest.length + 1 := hcount
        simp only [Handshake.workerStep, hw, hleft, Option.some.injEq] at hcontrol
        exact Or.inl (by rw [← hcontrol]; exact hw)
      · have hleft : s.control.output w = 0 := hcount
        simp only [Handshake.workerStep, hw, hleft, Option.some.injEq] at hcontrol
        simp only [iterStep, hpc, Option.some.injEq] at hthreads
        exact Or.inr ⟨by simp [← hcontrol], by simp [← hthreads, Vertexlock.State.goto]⟩

/-! ### Every run -/

variable [DecidableEq V] [Inhabited (Bucket K V D)]

theorem roundInv_reaches (hid : Function.Injective threadId) (hload : Loaded hashobj kernel t₀)
    (h : Reaches threadId hashobj kernel (start threadId t₀) s) :
    Inv threadId hashobj kernel t₀ s ∧ RoundInv hashobj kernel t₀ s := by
  refine h.invariant (I := fun s => Inv threadId hashobj kernel t₀ s ∧
    RoundInv hashobj kernel t₀ s) ?_ ⟨inv_start hload, .between (fun _ => rfl) ?_⟩
  · rintro s a s' ⟨hI, hs⟩ hstep
    have heffect := step_effect (fun w => (hI.agrees w).synced) hstep
    exact ⟨inv_effect hid hI heffect, roundInv_effect hload hid hI hs heffect⟩
  · have hatomic : (start threadId t₀).threads.atomic kernel = Engine.start t₀ :=
      Vertexlock.atomic_of_outside kernel fun _ => rfl
    rw [hatomic]
    exact LTS.Rounds.zero

/-- Between two rounds no thread is in `run_iter`, all output buffers are empty, and the table is
that after as many full scans as `threadc` has been broadcast. -/
theorem rounds_of_betweenRounds (hid : Function.Injective threadId)
    (hload : Loaded hashobj kernel t₀)
    (h : Reaches threadId hashobj kernel (start threadId t₀) s)
    (hbetween : s.control.sched.betweenRounds = true) :
    (∀ w, s.threads.pc w = .outside ∧ s.threads.output w = []) ∧
      Engine.Rounds hashobj kernel (Engine.start t₀ : Engine K V D n) s.control.round
        ⟨s.threads.table, fun _ => []⟩ := by
  obtain ⟨hI, hs⟩ := roundInv_reaches hid hload h
  have hout := hI.control.phase.outside_of_betweenRounds hbetween
  have hpc : ∀ w, s.threads.pc w = .outside := fun w => (hI.agrees w).outside (hout w)
  refine ⟨fun w => ⟨hpc w, hI.buffers w (by rw [hpc w]; rfl)⟩, ?_⟩
  rw [← Vertexlock.atomic_of_outside kernel hpc]
  cases hs with
  | between _ hrounds => exact hrounds
  | within _ _ hwithin =>
    rcases hwithin.sched with h | h | h <;> rw [h] at hbetween <;> cases hbetween

/-- At any moment the critical sections so far are full scans and a part of one. -/
theorem rounds_ahead (hid : Function.Injective threadId) (hload : Loaded hashobj kernel t₀)
    (h : Reaches threadId hashobj kernel (start threadId t₀) s) :
    ∃ r, r ≤ s.control.round ∧ s.control.round ≤ r + 1 ∧ ∃ e₀ : Engine K V D n,
      Engine.Rounds hashobj kernel (Engine.start t₀) r e₀ ∧
      Engine.Reaches hashobj kernel e₀ (s.threads.atomic kernel) := by
  obtain ⟨-, hs⟩ := roundInv_reaches hid hload h
  cases hs with
  | between _ hrounds =>
    exact ⟨_, le_refl _, Nat.le_succ _, _, hrounds, LTS.Reaches.refl _⟩
  | within hrounds _ hwithin =>
    have hround := hwithin.round
    exact ⟨_, by omega, by omega, _, hrounds, hwithin.run.reaches⟩

/-- The only thread, `w`, walks both buckets of `twoVertices`: the run up to the `delete` of the
iterator. -/
def oneRound (w : Fin 1) : List (Action 1) :=
  List.replicate 3 (.worker w) ++ List.replicate 10 .sched ++ List.replicate 31 (.worker w) ++
    List.replicate 2 .sched

theorem exec_oneRound : ∃ s, exec (fun _ => 7) idHash pagerankIterateKernel
      (start (fun _ => 7) (twoVertices 0.2 0 0.2 0 0)) (oneRound 0) = some s ∧
    s.control.sched = .delete ∧ s.control.round = 1 ∧
    s.threads.table = twoVertices 0.08 0.2 0 0.28 2 := by
  have hrun : (exec (fun _ => 7) idHash pagerankIterateKernel
      (start (fun _ => 7) (twoVertices 0.2 0 0.2 0 0)) (oneRound 0)).map
      (fun s => (s.control.sched, s.control.round, s.threads.table))
      = some (.delete, 1, twoVertices 0.08 0.2 0 0.28 2) := by decide +kernel
  rw [Option.map_eq_some_iff] at hrun
  simpa only [Prod.mk.injEq] using hrun

end SecondPhase

end Maiter
