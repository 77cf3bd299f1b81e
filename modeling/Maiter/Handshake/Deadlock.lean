import Maiter.Handshake.Invariant

/-!
# Deadlock of the handshake

Neither condition variable has a predicate, so a broadcast that comes too early is lost.  For
`threadc` the poll of `count_wait` under `threadm` prevents this.  For `schedulec` nothing does: the
workers of a round may all have broadcast before the scheduler waits.  And a worker without an
interval never arrives at the barrier.

* `LostWakeup`: the last broadcast on `schedulec` of a round, while the scheduler is between its
  broadcast on `threadc` and its `pthread_cond_wait` on `schedulec`;
* `MissingInterval`: the constructor of an iterator that leaves a worker without an interval;
* `handshake_progress`: without such steps the threads are never all blocked;
* `stuck_of_lostWakeup`, `stalled_of_missingInterval`: after such a step no further round begins,
  or the next one does not end;
* `deadlock_lostWakeupRun`: a lost wake-up, and after it the deadlock, do happen.
-/

namespace Maiter

namespace Handshake

variable {n : ℕ} {interval : ℕ → Fin n → List ℕ} {s t u : State n}

/-- Worker `w` is the last of its round to broadcast on `schedulec`, and the scheduler, which has
woken the workers, does not wait yet. -/
def LostWakeup (s : State n) : Action n → Prop
  | .worker w _ => s.worker w = .signal ∧ (∀ w', w' ≠ w → s.worker w' ≠ .signal) ∧
      (s.sched = .lockSched ∨ s.sched = .wait)
  | _ => False

instance (s : State n) (a : Action n) : Decidable (LostWakeup s a) := by
  cases a <;> unfold LostWakeup <;> infer_instance

/-- The scheduler constructs an iterator with which some worker has no interval. -/
def MissingInterval (interval : ℕ → Fin n → List ℕ) (s : State n) : Action n → Prop
  | .sched => s.sched = .build ∧ ∃ w, interval (s.built + 1) w = []
  | _ => False

instance (interval : ℕ → Fin n → List ℕ) (s : State n) (a : Action n) :
    Decidable (MissingInterval interval s a) := by
  cases a <;> unfold MissingInterval <;> infer_instance

/-- A step that does not lose a wake-up. -/
def Timely (interval : ℕ → Fin n → List ℕ) (s : State n) (a : Action n) (t : State n) : Prop :=
  Step interval s a t ∧ ¬ LostWakeup s a

/-- A step that neither loses a wake-up nor leaves a worker without an interval. -/
def Orderly (interval : ℕ → Fin n → List ℕ) (s : State n) (a : Action n) (t : State n) : Prop :=
  Timely interval s a t ∧ ¬ MissingInterval interval s a

/-! ### The broadcast that the scheduler awaits -/

/-- The scheduler is between its broadcast on `threadc` and the end of its wait on `schedulec`. -/
def SchedPc.awaits : SchedPc → Bool
  | .lockSched | .wait | .waiting => true
  | _ => false

/-- The worker will broadcast on `schedulec` without having to be released at the barrier. -/
def WorkerPc.owes : WorkerPc → Bool
  | .woken | .unlock | .read | .first _ | .loop _ _ | .send _ _ | .barrier | .signal => true
  | _ => false

/-- While the scheduler awaits a broadcast on `schedulec`, some worker owes one. -/
def Awaited (s : State n) : Prop := s.sched.awaits = true → ∃ w, (s.worker w).owes = true

theorem awaited_sched (hn : 0 < n) (hI : Inv interval s) (ha : Awaited s)
    (h : schedStep s = some t) : Awaited t := by
  intro hawaits
  have hp := hI.phase
  unfold schedStep at h
  cases hpc : s.sched <;> simp only [hpc] at h hp
  case broadcast =>
    cases h
    refine ⟨⟨0, hn⟩, ?_⟩
    simp only [hp.1 ⟨0, hn⟩]
    rfl
  case lockSched =>
    split_ifs at h
    cases h
    exact ha (by rw [hpc]; rfl)
  case wait =>
    cases h
    exact ha (by rw [hpc]; rfl)
  case waiting | exited => cases h
  case lock | woken | lastLock =>
    split_ifs at h
    cases h
    cases hawaits
  case poll | lastPoll | test =>
    cases h
    dsimp only at hawaits
    split_ifs at hawaits <;> cases hawaits
  all_goals
    cases h
    cases hawaits

/-- A worker that owes a broadcast owes it after a step of another worker. -/
theorem owes_of_ne {w w' : Fin n} {m : ℕ} (h : workerStep interval w m s = some t) (hne : w' ≠ w)
    (ho : (s.worker w').owes = true) : (t.worker w').owes = true := by
  unfold workerStep at h
  cases hpc : s.worker w <;> simp only [hpc] at h
  case lock | woken =>
    split_ifs at h
    cases h
    simpa [hne] using ho
  case waiting | atBarrier | exited => cases h
  case first =>
    split_ifs at h
    cases h
    simpa [hne] using ho
  case loop it todo => cases todo <;> cases h <;> simpa [hne] using ho
  case send it todo =>
    cases hout : s.output w <;> simp only [hout] at h <;> cases h
    · simpa [hne] using ho
    · exact ho
  case barrier =>
    split_ifs at h <;> cases h
    · rfl
    · simpa [hne] using ho
  all_goals
    cases h
    simpa [hne] using ho

/-- After a step of a worker that owes a broadcast, some worker owes one, unless it was this
broadcast. -/
theorem owes_of_workerStep (hI : Inv interval s) {w : Fin n} {m : ℕ}
    (h : workerStep interval w m s = some t) (ho : (s.worker w).owes = true) :
    (∃ w', (t.worker w').owes = true) ∨
      s.worker w = .signal ∧ t.sched = if s.sched = .waiting then .woken else s.sched := by
  have hp := hI.phase
  have hit := hI.it2_of_inRound (w := w)
  unfold workerStep at h
  cases hpc : s.worker w <;> simp only [hpc] at h ho hit
  case lock | count | wait | waiting | atBarrier | exited => cases ho
  case woken =>
    split_ifs at h
    cases h
    exact Or.inl ⟨w, by simp [WorkerPc.owes]⟩
  case read =>
    cases h
    exact Or.inl ⟨w, by simp [(hit rfl).1, WorkerPc.owes]⟩
  case unlock =>
    cases h
    exact Or.inl ⟨w, by simp [WorkerPc.owes]⟩
  case first =>
    split_ifs at h
    cases h
    exact Or.inl ⟨w, by simp [WorkerPc.owes]⟩
  case loop it todo => cases todo <;> cases h <;> exact Or.inl ⟨w, by simp [WorkerPc.owes]⟩
  case send it todo =>
    cases hout : s.output w <;> simp only [hout] at h <;> cases h
    · exact Or.inl ⟨w, by simp [WorkerPc.owes]⟩
    · exact Or.inl ⟨w, by simp [hpc, WorkerPc.owes]⟩
  case barrier =>
    split_ifs at h with hlast <;> cases h
    · exact Or.inl ⟨w, rfl⟩
    · -- another worker is in the round and has not arrived
      push Not at hlast
      obtain ⟨w', hne, hw'⟩ := hlast
      have hin := (hp.sched_of_inRound (w := w) (by rw [hpc]; rfl)).2.1 w'
      refine Or.inl ⟨w', ?_⟩
      show (Function.update s.worker w .atBarrier w').owes = true
      rw [Function.update_of_ne hne]
      cases hpc' : s.worker w' <;> simp only [hpc'] at hin hw' <;>
        first | rfl | exact absurd rfl hw' | cases hin
  case signal =>
    cases h
    exact Or.inr ⟨rfl, rfl⟩

theorem awaited_worker (hI : Inv interval s) (ha : Awaited s) {w : Fin n} {m : ℕ}
    (h : workerStep interval w m s = some t) (hlost : ¬ LostWakeup s (.worker w m)) :
    Awaited t := by
  intro hawaits
  have hsched : t.sched = s.sched := by
    rcases workerStep_frame h with ⟨-, -, -, -, -, -, hs | ⟨-, -, -, ht⟩⟩
    · exact hs
    · rw [ht] at hawaits
      cases hawaits
  rw [hsched] at hawaits
  obtain ⟨w', hw'⟩ := ha hawaits
  by_cases hw : w' = w
  · subst hw
    rcases owes_of_workerStep hI h hw' with howes | ⟨hsignal, hwake⟩
    · exact howes
    -- the broadcast of `w'` is not lost: the scheduler does not wait yet, so another one follows
    by_contra hnone
    refine hlost ⟨hsignal, fun w'' hne hw'' => hnone ⟨w'', ?_⟩, ?_⟩
    · exact owes_of_ne h hne (by rw [hw'']; rfl)
    · rw [hsched] at hwake
      cases hpc : s.sched <;> simp [hpc, SchedPc.awaits] at hawaits hwake ⊢
  · exact ⟨w', owes_of_ne h hw hw'⟩

theorem awaited_step (hn : 0 < n) (hI : Inv interval s) (ha : Awaited s) {a : Action n}
    (h : Timely interval s a t) : Awaited t := by
  obtain ⟨hstep, hlost⟩ := h
  cases a with
  | sched => exact awaited_sched hn hI ha hstep
  | worker w m => exact awaited_worker hI ha hstep hlost
  | terminate =>
    cases hstep
    exact ha

theorem awaited_reaches (hn : 0 < n) (h : LTS.Reaches (Timely interval) start s) :
    Inv interval s ∧ Awaited s := by
  refine LTS.Reaches.invariant (I := fun s => Inv interval s ∧ Awaited s) ?_ h ?_
  · intro s a t hI ht
    exact ⟨inv_step hI.1 ht.1, awaited_step hn hI.1 hI.2 ht⟩
  · exact ⟨inv_start, fun hs => by cases hs⟩

/-! ### The intervals -/

/-- Every worker that asks for its interval has one. -/
def Served (interval : ℕ → Fin n → List ℕ) (s : State n) : Prop :=
  ∀ w it, s.worker w = .first it → interval s.built w ≠ []

/-- With the last iterator every worker has an interval. -/
def Found (interval : ℕ → Fin n → List ℕ) (s : State n) : Prop :=
  s.built ≠ 0 → ∀ w, interval s.built w ≠ []

/-- A worker asks only when an iterator is constructed. -/
theorem Found.served (hI : Inv interval s) (h : Found interval s) : Served interval s := by
  intro w it hw
  have hbuilt := hI.built_of_inRound (w := w) (by rw [hw]; rfl)
  have hwalked := hI.walked w
  rw [hw] at hwalked
  obtain ⟨-, -, r, hround, -⟩ := hwalked
  exact h (by omega) w

theorem found_step (hf : Found interval s) {a : Action n} (h : Step interval s a t)
    (hmissing : ¬ MissingInterval interval s a) : Found interval t := by
  cases a with
  | sched =>
    by_cases hbuild : s.sched = .build
    · have hstep : schedStep s = some t := h
      simp only [schedStep, hbuild, Option.some.injEq] at hstep
      subst hstep
      exact fun _ w hw => hmissing ⟨hbuild, w, hw⟩
    · rw [Found, schedStep_built h hbuild]
      exact hf
  | worker w m =>
    rw [Found, (workerStep_frame h).2.2.1]
    exact hf
  | terminate =>
    cases h
    exact hf

theorem found_reaches (h : LTS.Reaches (Orderly interval) start s) : Found interval s :=
  LTS.Reaches.invariant (I := Found interval)
    (fun _ _ _ hf hstep => found_step hf hstep.1.1 hstep.2) h fun hbuilt => absurd rfl hbuilt

/-! ### Progress -/

/-- Some thread can take a step. -/
def CanStep (interval : ℕ → Fin n → List ℕ) (s : State n) : Prop :=
  ∃ a t, a ≠ .terminate ∧ Step interval s a t

theorem canStep_sched (h : (schedStep s).isSome = true) : CanStep interval s := by
  obtain ⟨t, ht⟩ := Option.isSome_iff_exists.1 h
  exact ⟨.sched, t, nofun, ht⟩

theorem canStep_worker (w : Fin n) (h : (workerStep interval w 0 s).isSome = true) :
    CanStep interval s := by
  obtain ⟨t, ht⟩ := Option.isSome_iff_exists.1 h
  exact ⟨.worker w 0, t, nofun, ht⟩

/-- If `threadm` is not free and the scheduler does not hold it, the worker that holds it can take
a step. -/
theorem canStep_of_threadm (hI : Inv interval s) (hs : s.sched.holdsThreadm = false)
    (hm : s.threadm ≠ none) : CanStep interval s := by
  cases hholder : s.threadm with
  | none => exact absurd hholder hm
  | some holder =>
    cases holder with
    | scheduler =>
      have hsched := hI.mutex.sched.2 hholder
      rw [hs] at hsched
      cases hsched
    | worker w =>
      have hw := (hI.mutex.worker w).2 hholder
      cases hpc : s.worker w <;> simp only [hpc] at hw
      case count | wait | unlock =>
        exact canStep_worker w (by simp [workerStep, hpc])
      all_goals cases hw

/-- A worker that owes a broadcast can take a step, or the holder of `threadm` can. -/
theorem canStep_of_owes (hI : Inv interval s) (hserved : Served interval s)
    (hs : s.sched.holdsThreadm = false) {w : Fin n}
    (ho : (s.worker w).owes = true) : CanStep interval s := by
  cases hpc : s.worker w <;> simp only [hpc] at ho
  case lock | count | wait | waiting | atBarrier | exited => cases ho
  case woken =>
    by_cases hm : s.threadm = none
    · exact canStep_worker w (by simp [workerStep, hpc, hm])
    · exact canStep_of_threadm hI hs hm
  case loop it todo =>
    cases todo <;> exact canStep_worker w (by simp [workerStep, hpc])
  case send it todo =>
    cases hout : s.output w <;>
      exact canStep_worker w (by simp [workerStep, hpc, hout])
  case barrier =>
    refine canStep_worker w ?_
    simp only [workerStep, hpc]
    split_ifs <;> rfl
  case first it => exact canStep_worker w (by simp [workerStep, hpc, hserved w it hpc])
  all_goals exact canStep_worker w (by simp [workerStep, hpc])

theorem awaited_orderly (hn : 0 < n) (h : LTS.Reaches (Orderly interval) start s) :
    Inv interval s ∧ Awaited s := by
  obtain ⟨l, hl⟩ := h
  exact awaited_reaches hn (hl.mono fun _ _ _ hstep => hstep.1).reaches

/-- **The handshake does not deadlock unless a wake-up is lost or an interval is missing.**  As long
as no step is a `LostWakeup` or a `MissingInterval` and `terminate()` is not called, some thread can
take a step; in particular the workers do not all wait on `threadc` while the scheduler waits on
`schedulec`. -/
theorem handshake_progress (hn : 0 < n) (h : LTS.Reaches (Orderly interval) start s)
    (hterm : s.terminated = false) :
    CanStep interval s ∧ ¬ ((∀ w, s.worker w = .waiting) ∧ s.sched = .waiting) := by
  obtain ⟨hI, ha⟩ := awaited_orderly hn h
  have hserved := (found_reaches h).served hI
  have hleave := hI.iter.leaving
  have hm := hI.schedulem
  constructor
  · cases hpc : s.sched <;> simp only [hpc] at hleave hm
    case lock =>
      by_cases hfree : s.threadm = none
      · exact canStep_sched (by simp [schedStep, hpc, hfree])
      · exact canStep_of_threadm hI (by rw [hpc]; rfl) hfree
    case lockSched | woken =>
      have hfree : s.schedulem = none := hm
      exact canStep_sched (by simp [schedStep, hpc, hfree])
    case waiting =>
      obtain ⟨w, hw⟩ := ha (by rw [hpc]; rfl)
      exact canStep_of_owes hI hserved (by rw [hpc]; rfl) hw
    case lastLock | exited => simp [hterm, SchedPc.leaving] at hleave
    all_goals exact canStep_sched (by simp [schedStep, hpc])
  · rintro ⟨hall, hs⟩
    obtain ⟨w, hw⟩ := ha (by rw [hs]; rfl)
    rw [hall w] at hw
    cases hw

/-- A step function that refuses to lose a wake-up or to leave a worker without an interval. -/
def orderlyStep (interval : ℕ → Fin n → List ℕ) (s : State n) (a : Action n) : Option (State n) :=
  if LostWakeup s a ∨ MissingInterval interval s a then none else step interval s a

theorem reaches_of_orderlyStep {l : List (Action n)}
    (h : l.foldlM (orderlyStep interval) s = some t) :
    LTS.Reaches (Orderly interval) s t := by
  refine ((LTS.Run.of_foldlM l h).mono fun s a t hst => ?_).reaches
  unfold orderlyStep at hst
  split_ifs at hst with hbad
  rw [not_or] at hbad
  exact ⟨⟨hst, hbad.1⟩, hbad.2⟩

/-- In `oneRound` the scheduler waits before the worker broadcasts. -/
theorem handshake_progress_oneRound : ∃ s : State 1,
    oneRound.foldlM (orderlyStep fun _ _ => [0]) start = some s ∧ CanStep (fun _ _ => [0]) s := by
  obtain ⟨s, hs⟩ := Option.isSome_iff_exists.1
    (by decide : (oneRound.foldlM (orderlyStep fun _ _ => [0]) start).isSome = true)
  have hterm : (oneRound.foldlM (orderlyStep fun _ _ => [0]) start).map State.terminated
      = some false := by decide
  rw [hs, Option.map_some, Option.some.injEq] at hterm
  exact ⟨s, hs, (handshake_progress (by decide) (reaches_of_orderlyStep hs) hterm).1⟩

/-! ### After a lost wake-up -/

/-- The scheduler awaits a broadcast that no worker owes. -/
def Stuck (s : State n) : Prop :=
  s.sched.awaits = true ∧ ∀ w, (s.worker w).outside = true ∧ s.worker w ≠ .signal

theorem stuck_step (hs : Stuck s) {a : Action n} (h : Step interval s a t) :
    Stuck t ∧ t.round = s.round := by
  obtain ⟨hawaits, hall⟩ := hs
  cases a with
  | sched =>
    have hstep : schedStep s = some t := h
    unfold schedStep at hstep
    cases hpc : s.sched <;> simp only [hpc] at hstep hawaits
    case lockSched =>
      split_ifs at hstep
      cases hstep
      exact ⟨⟨rfl, hall⟩, rfl⟩
    case wait =>
      cases hstep
      exact ⟨⟨rfl, hall⟩, rfl⟩
    case waiting => cases hstep
    all_goals cases hawaits
  | worker w m =>
    have hmove : ∀ pc : WorkerPc, pc.outside = true → pc ≠ .signal → ∀ w',
        (Function.update s.worker w pc w').outside = true ∧
          Function.update s.worker w pc w' ≠ .signal := fun pc hout hne =>
      (Function.forall_update_iff s.worker fun _ pc => pc.outside = true ∧ pc ≠ .signal).2
        ⟨⟨hout, hne⟩, fun w' _ => hall w'⟩
    have hstep : workerStep interval w m s = some t := h
    have hw := hall w
    unfold workerStep at hstep
    cases hpc : s.worker w <;> simp only [hpc] at hstep hw
    case lock =>
      split_ifs at hstep
      cases hstep
      exact ⟨⟨hawaits, hmove .count rfl nofun⟩, rfl⟩
    case count =>
      cases hstep
      exact ⟨⟨hawaits, hmove .wait rfl nofun⟩, rfl⟩
    case wait =>
      cases hstep
      exact ⟨⟨hawaits, hmove .waiting rfl nofun⟩, rfl⟩
    case waiting => cases hstep
    case signal => exact absurd rfl hw.2
    all_goals cases hw.1
  | terminate =>
    cases h
    exact ⟨⟨hawaits, hall⟩, rfl⟩

/-- A lost wake-up leaves the scheduler waiting for a broadcast that does not come. -/
theorem stuck_of_lost (hI : Inv interval s) {a : Action n} (hlost : LostWakeup s a)
    (h : Step interval s a t) : Stuck t := by
  cases a with
  | sched => cases hlost
  | terminate => cases hlost
  | worker w m =>
    obtain ⟨hsignal, hlast, hsched⟩ := hlost
    have hstep : workerStep interval w m s = some t := h
    unfold workerStep at hstep
    simp only [hsignal] at hstep
    cases hstep
    have hp := hI.phase
    have hrun : ¬ Running s.worker s.countWait := fun hrun => by
      have hin := hrun.1 w
      rw [hsignal] at hin
      cases hin
    have hcollect : Collecting s.worker s.countWait := by
      rcases hsched with hs | hs <;> rw [hs] at hp <;> exact hp.resolve_left hrun
    refine ⟨by rcases hsched with hs | hs <;> rw [hs] <;> rfl, fun w' => ?_⟩
    by_cases hw : w' = w
    · simp [hw, WorkerPc.outside]
    · simpa [hw] using ⟨hcollect.1 w', hlast w' hw⟩

/-- **After a lost wake-up no further round begins.** -/
theorem stuck_of_lostWakeup (hs : LTS.Reaches (Step interval) start s) {a : Action n}
    (hlost : LostWakeup s a) (h : Step interval s a t) (hu : LTS.Reaches (Step interval) t u) :
    Stuck u ∧ u.round = t.round := by
  refine LTS.Reaches.invariant (I := fun u => Stuck u ∧ u.round = t.round) ?_ hu
    ⟨stuck_of_lost (inv_reaches hs) hlost h, rfl⟩
  rintro u b v ⟨hstuck, hround⟩ hb
  obtain ⟨hstuck', hround'⟩ := stuck_step hstuck hb
  exact ⟨hstuck', hround'.trans hround⟩

/-! ### After an iterator without an interval for a worker -/

/-- The worker is woken for a round and has not passed the test for its interval. -/
def WorkerPc.arriving : WorkerPc → Bool
  | .woken | .unlock | .read | .first _ => true
  | _ => false

theorem WorkerPc.inRound_of_arriving {pc : WorkerPc} (h : pc.arriving = true) :
    pc.inRound = true := by
  cases pc <;> first | rfl | cases h

/-- Worker `w` has no interval with the last iterator, and its round has not begun or stops at the
test. -/
structure Stalled (interval : ℕ → Fin n → List ℕ) (w : Fin n) (s : State n) : Prop where
  missing : interval s.built w = []
  place : s.sched.prepares = true ∨ s.sched.awaits = true ∧ (s.worker w).arriving = true

theorem stalled_sched (hI : Inv interval s) {w : Fin n} (hs : Stalled interval w s)
    (h : schedStep s = some t) : Stalled interval w t ∧ t.built = s.built := by
  obtain ⟨hmissing, hplace⟩ := hs
  have hp := hI.phase
  have hbuild : s.sched ≠ .build := by
    rintro hbuild
    simp [hbuild, SchedPc.prepares, SchedPc.awaits] at hplace
  have hbuilt := schedStep_built h hbuild
  refine ⟨⟨by rw [hbuilt]; exact hmissing, ?_⟩, hbuilt⟩
  unfold schedStep at h
  cases hpc : s.sched <;> simp only [hpc, SchedPc.prepares, SchedPc.awaits, Bool.false_eq_true,
    false_and, true_and, false_or, or_false, or_self] at h hp hplace
  case store | pollUnlock | reset | unlock =>
    cases h
    exact Or.inl rfl
  case lock =>
    split_ifs at h
    cases h
    exact Or.inl rfl
  case poll =>
    cases h
    left
    dsimp only
    split_ifs <;> rfl
  case broadcast =>
    cases h
    exact Or.inr ⟨rfl, by simp [hp.1 w, WorkerPc.arriving]⟩
  case lockSched =>
    split_ifs at h
    cases h
    exact Or.inr ⟨rfl, hplace⟩
  case wait =>
    cases h
    exact Or.inr ⟨rfl, hplace⟩
  case waiting => cases h

/-- A worker without an interval does not get past the test. -/
theorem arriving_of_workerStep (hI : Inv interval s) {w : Fin n} {m : ℕ}
    (hmissing : interval s.built w = []) (hw : (s.worker w).arriving = true)
    (h : workerStep interval w m s = some t) : (t.worker w).arriving = true := by
  have hit := (hI.it2_of_inRound (WorkerPc.inRound_of_arriving hw)).1
  unfold workerStep at h
  cases hpc : s.worker w <;> simp only [hpc] at h hw
  case woken =>
    split_ifs at h
    cases h
    simp [WorkerPc.arriving]
  case unlock =>
    cases h
    simp [WorkerPc.arriving]
  case read =>
    cases h
    simp [WorkerPc.arriving, hit]
  case first it =>
    rw [if_pos hmissing] at h
    cases h
  all_goals cases hw

/-- The other workers do not get past the barrier. -/
theorem stalled_worker (hI : Inv interval s) {w w' : Fin n} {m : ℕ} (hs : Stalled interval w s)
    (h : workerStep interval w' m s = some t) : Stalled interval w t ∧ t.built = s.built := by
  obtain ⟨hmissing, hplace⟩ := hs
  obtain ⟨-, -, hbuilt, -, -, -, hsched⟩ := workerStep_frame h
  refine ⟨⟨by rw [hbuilt]; exact hmissing, ?_⟩, hbuilt⟩
  rcases hplace with hprepares | ⟨hawaits, hw⟩
  · refine Or.inl ?_
    rcases hsched with hsame | ⟨-, -, hwaiting, -⟩
    · rw [hsame]
      exact hprepares
    · rw [hwaiting] at hprepares
      cases hprepares
  · have hrun := (hI.phase.sched_of_inRound (WorkerPc.inRound_of_arriving hw)).2
    have hsame := hsched.resolve_right fun hwake => by
      have hin' := hrun.1 w'
      rw [hwake.2.1] at hin'
      cases hin'
    refine Or.inr ⟨by rw [hsame]; exact hawaits, ?_⟩
    by_cases hw' : w' = w
    · subst hw'
      exact arriving_of_workerStep hI hmissing hw h
    · have hother := (workerStep_other h (Ne.symm hw')).2.resolve_right fun hbarrier => by
        rw [hbarrier.2.1] at hw
        cases hw
      rw [hother]
      exact hw

/-- **After an iterator with which a worker has no interval no further round ends.** -/
theorem stalled_of_missingInterval (hs : LTS.Reaches (Step interval) start s) {a : Action n}
    (hmissing : MissingInterval interval s a) (h : Step interval s a t)
    (hu : LTS.Reaches (Step interval) t u) :
    ∃ w, Stalled interval w u ∧ u.built = t.built := by
  cases a with
  | worker w m => cases hmissing
  | terminate => cases hmissing
  | sched =>
    obtain ⟨hbuild, w, hw⟩ := hmissing
    have hI : Inv interval t := inv_step (inv_reaches hs) h
    have hstep : schedStep s = some t := h
    simp only [schedStep, hbuild, Option.some.injEq] at hstep
    have hstart : Stalled interval w t := by
      rw [← hstep]
      exact ⟨hw, Or.inl rfl⟩
    have hrun := LTS.Reaches.invariant
      (I := fun u => Inv interval u ∧ Stalled interval w u ∧ u.built = t.built) ?_ hu
      ⟨hI, hstart, rfl⟩
    · exact ⟨w, hrun.2⟩
    · rintro u b v ⟨hI, hstalled, hbuilt⟩ hb
      have hnext : Stalled interval w v ∧ v.built = u.built := by
        cases b with
        | sched => exact stalled_sched hI hstalled hb
        | worker w' m => exact stalled_worker hI hstalled hb
        | terminate =>
          cases hb
          exact ⟨⟨hstalled.missing, hstalled.place⟩, rfl⟩
      exact ⟨inv_step hI hb, hnext.1, hnext.2.trans hbuilt⟩

/-- The only worker, `w`, broadcasts on `schedulec`, counts itself again and waits, all before the
scheduler waits. -/
def lostWakeupRun (w : Fin 1) : List (Action 1) :=
  List.replicate 3 (.worker w 0) ++ List.replicate 8 .sched ++ List.replicate 12 (.worker w 0) ++
    List.replicate 2 .sched

/-- The handshake of one worker, which walks one bucket that is not in use, deadlocks in its first
round. -/
theorem deadlock_lostWakeupRun : ∃ s : State 1,
    LTS.Reaches (Step fun _ _ => [0]) start s ∧ s.terminated = false ∧
      ¬ CanStep (fun _ _ => [0]) s ∧ (∀ w, s.worker w = .waiting) ∧ s.sched = .waiting := by
  obtain ⟨s, hs⟩ := Option.isSome_iff_exists.1
    (by decide : (exec (fun _ _ => [0]) start (lostWakeupRun 0)).isSome = true)
  have hend : (exec (fun _ _ => [0]) start (lostWakeupRun 0)).map
      (fun s => (s.worker 0, s.sched, s.terminated)) = some (.waiting, .waiting, false) := by decide
  rw [hs, Option.map_some, Option.some.injEq, Prod.mk.injEq, Prod.mk.injEq] at hend
  obtain ⟨hworker, hsched, hterm⟩ := hend
  have hall : ∀ w, s.worker w = .waiting := fun w => by rw [Subsingleton.elim w 0, hworker]
  refine ⟨s, (run_of_exec hs).reaches, hterm, ?_, hall, hsched⟩
  rintro ⟨a, t, ha, hstep⟩
  cases a with
  | sched => simp [Step, step, schedStep, hsched] at hstep
  | worker w m => simp [Step, step, workerStep, hall w] at hstep
  | terminate => exact ha rfl

end Handshake

end Maiter
