import Maiter.Handshake.Basic

/-!
# The phases of a round

* `PhaseInv`: where the workers are at each program point of the scheduler;
* `MutexInv`, `IterInv`, `WorkerInv`: who holds the mutexes, which iterators exist, what each
  worker has walked;
* `Inv`, `inv_step`, `inv_reaches`: the four together hold in every reachable state;
* `round_isolation`: no worker is in its loop when the scheduler deletes or stores an iterator or
  leaves; every worker walks its interval of every round exactly once, with that round's iterator.
-/

namespace Maiter

namespace Handshake

variable {n : ℕ} {interval : ℕ → Fin n → List ℕ} {s t : State n}

/-! ### The invariant -/

/-- How many workers are counted in `count_wait`. -/
def numCounted (f : Fin n → WorkerPc) : ℕ := ∑ w, if (f w).counted then 1 else 0

/-- All workers are outside their loop, and `count_wait` is right. -/
def Collecting (f : Fin n → WorkerPc) (countWait : ℕ) : Prop :=
  (∀ w, (f w).outside = true) ∧ countWait = numCounted f

/-- All workers are in the round, and none is counted. -/
def Running (f : Fin n → WorkerPc) (countWait : ℕ) : Prop :=
  (∀ w, (f w).inRound = true) ∧ countWait = 0

/-- All workers wait on `threadc`. -/
def AllWaiting (f : Fin n → WorkerPc) : Prop := ∀ w, f w = .waiting

/-- Where the workers are, at each program point of the scheduler. -/
def PhaseInv (f : Fin n → WorkerPc) (countWait : ℕ) : SchedPc → Prop
  | .reset | .lastUnlock | .exit | .exited => AllWaiting f
  | .unlock | .broadcast => AllWaiting f ∧ countWait = 0
  | .lockSched | .wait | .waiting => Running f countWait ∨ Collecting f countWait
  | _ => Collecting f countWait

/-- `threadm` is held by the thread that is between lock and unlock, if there is one. -/
structure MutexInv (sched : Bool) (worker : Fin n → Bool) (threadm : Option (Thread n)) : Prop where
  worker : ∀ w, worker w = true ↔ threadm = some (.worker w)
  sched : sched = true ↔ threadm = some .scheduler

/-- An iterator is constructed, but the round has not begun. -/
def SchedPc.prepares : SchedPc → Bool
  | .store | .lock | .poll | .pollUnlock | .reset | .unlock | .broadcast => true
  | _ => false

/-- `*it2_address` is the iterator that was constructed last. -/
def SchedPc.hasIterator : SchedPc → Bool
  | .lock | .poll | .pollUnlock | .reset | .unlock | .broadcast | .lockSched | .wait | .waiting
  | .woken | .unlockSched | .delete => true
  | _ => false

/-- The scheduler has found the table terminated. -/
def SchedPc.leaving : SchedPc → Bool
  | .storeNull | .lastLock | .lastPoll | .lastPollUnlock | .lastUnlock | .exit | .exited => true
  | _ => false

/-- The iterators: the one in use is the last one, it exists, and it is that of the round. -/
structure IterInv (s : State n) : Prop where
  built : s.built = s.round + if s.sched.prepares then 1 else 0
  current : s.sched.hasIterator = true → s.it2 = some s.built ∧ s.built ∈ s.live
  fresh : s.sched = .store → s.built ∈ s.live
  leaving : s.sched.leaving = true → s.terminated = true

/-- The positions of worker `w` in the rounds `1, …, r`, in order. -/
def history (interval : ℕ → Fin n → List ℕ) (w : Fin n) : ℕ → List (ℕ × ℕ)
  | 0 => []
  | r + 1 => history interval w r ++ (interval (r + 1) w).map fun pos => (r + 1, pos)

/-- What a worker at the program point `pc` has walked, and its output buffer. -/
def Walked (interval : ℕ → Fin n → List ℕ) (w : Fin n) (round output : ℕ)
    (log : List (ℕ × ℕ)) : WorkerPc → Prop
  | .woken | .unlock | .read => output = 0 ∧ ∃ r, round = r + 1 ∧ log = history interval w r
  | .first it => it = round ∧ output = 0 ∧ ∃ r, round = r + 1 ∧ log = history interval w r
  | .loop it todo => it = round ∧ output = 0 ∧
      log ++ todo.map (fun pos => (it, pos)) = history interval w round
  | .send it todo => it = round ∧
      log ++ todo.map (fun pos => (it, pos)) = history interval w round
  | .exited => False
  | _ => output = 0 ∧ log = history interval w round

/-- What every worker has walked, and its output buffer. -/
def WorkerInv (interval : ℕ → Fin n → List ℕ) (s : State n) : Prop :=
  ∀ w, Walked interval w s.round (s.output w) (s.log w) (s.worker w)

/-- The invariant of the handshake. -/
structure Inv (interval : ℕ → Fin n → List ℕ) (s : State n) : Prop where
  phase : PhaseInv s.worker s.countWait s.sched
  mutex : MutexInv s.sched.holdsThreadm (fun w => (s.worker w).holdsThreadm) s.threadm
  schedulem : s.schedulem = if s.sched.holdsSchedulem then some .scheduler else none
  iter : IterInv s
  walked : WorkerInv interval s

theorem inv_start : Inv interval (start : State n) where
  phase := ⟨fun _ => rfl, by simp [numCounted, start, WorkerPc.counted]⟩
  mutex := ⟨fun w => by simp [start, WorkerPc.holdsThreadm], by simp [start, SchedPc.holdsThreadm]⟩
  schedulem := rfl
  iter := ⟨rfl, by simp [start, SchedPc.hasIterator], by simp [start],
    by simp [start, SchedPc.leaving]⟩
  walked _ := ⟨rfl, rfl⟩

/-! ### Counting -/

theorem numCounted_update (f : Fin n → WorkerPc) (w : Fin n) (pc : WorkerPc) :
    numCounted (Function.update f w pc) + (if (f w).counted then 1 else 0)
      = numCounted f + if pc.counted then 1 else 0 := by
  unfold numCounted
  rw [← Finset.add_sum_erase _ _ (Finset.mem_univ w),
    ← Finset.add_sum_erase _ (fun w => if (f w).counted then 1 else 0) (Finset.mem_univ w),
    Function.update_self]
  have hrest : ∑ w' ∈ Finset.univ.erase w, (if (Function.update f w pc w').counted then 1 else 0)
      = ∑ w' ∈ Finset.univ.erase w, if (f w').counted then 1 else 0 :=
    Finset.sum_congr rfl fun w' hw' => by rw [Function.update_of_ne (Finset.ne_of_mem_erase hw')]
  rw [hrest]
  omega

/-- If all workers are counted, each of them is. -/
theorem counted_of_le {f : Fin n → WorkerPc} (h : n ≤ numCounted f) (w : Fin n) :
    (f w).counted = true := by
  by_contra hw
  have hle : numCounted f ≤ ∑ w' ∈ Finset.univ.erase w, 1 := by
    unfold numCounted
    rw [← Finset.add_sum_erase _ _ (Finset.mem_univ w), if_neg hw, zero_add]
    exact Finset.sum_le_sum fun _ _ => by split_ifs <;> omega
  rw [Finset.sum_const, Finset.card_erase_of_mem (Finset.mem_univ w), Finset.card_univ,
    Fintype.card_fin, smul_eq_mul, mul_one] at hle
  have hn : 0 < n := w.pos
  omega

/-! ### The mutex -/

namespace MutexInv

variable {sched : Bool} {worker : Fin n → Bool} {threadm : Option (Thread n)}

theorem lock_sched (h : MutexInv sched worker threadm) (hm : threadm = none) :
    MutexInv true worker (some .scheduler) := by
  subst hm
  exact ⟨fun w => by simpa using h.worker w, by simp⟩

theorem unlock_sched (h : MutexInv true worker threadm) : MutexInv false worker none := by
  have hm := h.sched.1 rfl
  subst hm
  exact ⟨fun w => by simpa using h.worker w, by simp⟩

theorem lock_worker (h : MutexInv sched worker threadm) (hm : threadm = none) (w : Fin n) :
    MutexInv sched (Function.update worker w true) (some (.worker w)) := by
  subst hm
  refine ⟨?_, by simpa using h.sched⟩
  refine (Function.forall_update_iff worker fun w' holds =>
    holds = true ↔ some (Thread.worker w) = some (.worker w')).2 ⟨by simp, fun w' hw => ?_⟩
  simpa [Ne.symm hw] using h.worker w'

theorem unlock_worker (h : MutexInv sched worker threadm) {w : Fin n} (hw : worker w = true) :
    MutexInv sched (Function.update worker w false) none := by
  have hm := (h.worker w).1 hw
  subst hm
  refine ⟨?_, by simpa using h.sched⟩
  refine (Function.forall_update_iff worker fun w' holds =>
    holds = true ↔ none = some (Thread.worker w')).2 ⟨by simp, fun w' hw' => ?_⟩
  simpa [Ne.symm hw'] using h.worker w'

end MutexInv

theorem comp_update {α : Type} (g : WorkerPc → α) (f : Fin n → WorkerPc) (w : Fin n)
    (pc : WorkerPc) :
    (fun w' => g (Function.update f w pc w')) = Function.update (fun w' => g (f w')) w (g pc) := by
  funext w'
  by_cases hw : w' = w
  · simp [hw]
  · simp [hw]

/-! ### Steps of the scheduler -/

/-- When the scheduler's poll succeeds, all workers wait. -/
theorem allWaiting_of_poll {f : Fin n → WorkerPc} {c : ℕ} {threadm : Option (Thread n)}
    (hc : Collecting f c) (hm : MutexInv true (fun w => (f w).holdsThreadm) threadm)
    (hn : ¬ c < n) : AllWaiting f := by
  intro w
  have hcounted : (f w).counted = true := counted_of_le (by rw [← hc.2]; omega) w
  have hfree : ¬ (f w).holdsThreadm = true := by
    rw [hm.worker w, hm.sched.1 rfl]
    simp
  cases hpc : f w <;> simp_all [WorkerPc.counted, WorkerPc.holdsThreadm]

theorem phaseInv_sched (hI : Inv interval s) (h : schedStep s = some t) :
    PhaseInv t.worker t.countWait t.sched := by
  have hp := hI.phase
  have hm := hI.mutex
  unfold schedStep at h
  cases hpc : s.sched <;> simp only [hpc] at h hp hm
  case poll | lastPoll =>
    cases h
    show PhaseInv s.worker s.countWait (if s.countWait < n then _ else _)
    split_ifs with hn
    · exact hp
    · exact allWaiting_of_poll hp hm hn
  case test =>
    cases h
    show PhaseInv s.worker s.countWait (if s.terminated then _ else _)
    split_ifs <;> exact hp
  case reset => cases h; exact ⟨hp, rfl⟩
  case broadcast =>
    cases h
    refine Or.inl ⟨fun w => ?_, hp.2⟩
    simp [hp.1 w, WorkerPc.inRound]
  case lock | lockSched | woken | lastLock =>
    split_ifs at h
    cases h
    exact hp
  case waiting | exited => cases h
  all_goals
    cases h
    exact hp

theorem mutexInv_sched (hI : Inv interval s) (h : schedStep s = some t) :
    MutexInv t.sched.holdsThreadm (fun w => (t.worker w).holdsThreadm) t.threadm := by
  have hp := hI.phase
  have hm := hI.mutex
  unfold schedStep at h
  cases hpc : s.sched <;> simp only [hpc] at h hp hm
  case poll | lastPoll | test =>
    cases h
    dsimp only
    split_ifs <;> exact hm
  case lock | lastLock =>
    split_ifs at h with hfree
    cases h
    exact hm.lock_sched hfree
  case pollUnlock | unlock | lastPollUnlock | lastUnlock =>
    cases h
    exact hm.unlock_sched
  case broadcast =>
    cases h
    refine ⟨fun w => ?_, hm.sched⟩
    have hw := hm.worker w
    simp only [hp.1 w] at hw ⊢
    exact hw
  case lockSched | woken =>
    split_ifs at h
    cases h
    exact hm
  case waiting | exited => cases h
  all_goals
    cases h
    exact hm

theorem schedulem_sched (hI : Inv interval s) (h : schedStep s = some t) :
    t.schedulem = if t.sched.holdsSchedulem then some .scheduler else none := by
  have hm := hI.schedulem
  unfold schedStep at h
  cases hpc : s.sched <;> simp only [hpc] at h hm
  case poll | lastPoll =>
    cases h
    by_cases hn : s.countWait < n
    · rw [if_pos hn]
      exact hm
    · rw [if_neg hn]
      exact hm
  case test =>
    cases h
    cases s.terminated <;> exact hm
  case lock | lastLock | lockSched | woken =>
    split_ifs at h
    cases h
    first | rfl | exact hm
  case waiting | exited => cases h
  all_goals
    cases h
    first | rfl | exact hm

theorem iterInv_sched (hI : Inv interval s) (h : schedStep s = some t) : IterInv t := by
  obtain ⟨hbuilt, hcur, hfresh, hleave⟩ := hI.iter
  unfold schedStep at h
  cases hpc : s.sched <;> simp only [hpc] at h hbuilt hcur hfresh hleave
  case test =>
    cases h
    cases ht : s.terminated
    · exact ⟨hbuilt, by simp [SchedPc.hasIterator], by simp, by simp [SchedPc.leaving]⟩
    · exact ⟨hbuilt, by simp [SchedPc.hasIterator], by simp, fun _ => rfl⟩
  case build =>
    cases h
    refine ⟨?_, by simp [SchedPc.hasIterator], by simp, by simp [SchedPc.leaving]⟩
    rw [hbuilt]
    rfl
  case store =>
    cases h
    exact ⟨hbuilt, fun _ => ⟨rfl, hfresh trivial⟩, by simp, by simp [SchedPc.leaving]⟩
  case broadcast =>
    cases h
    exact ⟨hbuilt, hcur, by simp, hleave⟩
  case delete =>
    cases h
    exact ⟨hbuilt, by simp [SchedPc.hasIterator], by simp, by simp [SchedPc.leaving]⟩
  case storeNull =>
    cases h
    exact ⟨hbuilt, by simp [SchedPc.hasIterator], by simp, hleave⟩
  case poll | lastPoll =>
    cases h
    split_ifs <;> exact ⟨hbuilt, hcur, by simp, hleave⟩
  case lock | lastLock | lockSched | woken =>
    split_ifs at h
    cases h
    exact ⟨hbuilt, hcur, by simp, hleave⟩
  case waiting | exited => cases h
  all_goals
    cases h
    exact ⟨hbuilt, hcur, by simp, hleave⟩

theorem workerInv_sched (hI : Inv interval s) (h : schedStep s = some t) :
    WorkerInv interval t := by
  have hp := hI.phase
  have hw := hI.walked
  unfold schedStep at h
  cases hpc : s.sched <;> simp only [hpc] at h hp
  case broadcast =>
    cases h
    intro w
    have hlog := hw w
    simp only [hp.1 w] at hlog ⊢
    exact ⟨hlog.1, s.round, rfl, hlog.2⟩
  case lock | lastLock | lockSched | woken =>
    split_ifs at h
    cases h
    exact hw
  case waiting | exited => cases h
  all_goals
    cases h
    exact hw

/-- Only the constructor of an iterator counts. -/
theorem schedStep_built (h : schedStep s = some t) (hs : s.sched ≠ .build) :
    t.built = s.built := by
  unfold schedStep at h
  cases hpc : s.sched <;> simp only [hpc] at h
  case build => exact absurd hpc hs
  case lock | lockSched | woken | lastLock =>
    split_ifs at h
    cases h
    rfl
  case waiting | exited => cases h
  all_goals
    cases h
    rfl

/-! ### Steps of the workers -/

theorem WorkerPc.outside_of_inRound {pc : WorkerPc} (h : pc.inRound = true) :
    pc.outside = false := by
  cases pc <;> first | rfl | cases h

/-- A worker outside the round that does not wait moves to another point outside the round. -/
theorem PhaseInv.move_outside {f : Fin n → WorkerPc} {c c' : ℕ} {p : SchedPc}
    (h : PhaseInv f c p) {w : Fin n} {pc : WorkerPc} (hout : (f w).outside = true)
    (hwait : f w ≠ .waiting) (hout' : pc.outside = true)
    (hc : c' + (if (f w).counted then 1 else 0) = c + if pc.counted then 1 else 0) :
    PhaseInv (Function.update f w pc) c' p := by
  have hcollect : Collecting f c → Collecting (Function.update f w pc) c' := by
    rintro ⟨hall, hcount⟩
    have hupd := numCounted_update f w pc
    refine ⟨?_, by omega⟩
    exact (Function.forall_update_iff f fun _ pc => pc.outside = true).2
      ⟨hout', fun w' _ => hall w'⟩
  have hrun : ¬ Running f c := fun hr => by
    rw [WorkerPc.outside_of_inRound (hr.1 w)] at hout
    cases hout
  cases p <;> simp only [PhaseInv] at h ⊢
  case reset | lastUnlock | exit | exited => exact absurd (h w) hwait
  case unlock | broadcast => exact absurd (h.1 w) hwait
  case lockSched | wait | waiting => exact Or.inr (hcollect (h.resolve_left hrun))
  all_goals exact hcollect h

/-- Where the scheduler is while a worker is in the round. -/
theorem PhaseInv.sched_of_inRound {f : Fin n → WorkerPc} {c : ℕ} {p : SchedPc}
    (h : PhaseInv f c p) {w : Fin n} (hin : (f w).inRound = true) :
    (p = .lockSched ∨ p = .wait ∨ p = .waiting) ∧ Running f c := by
  have hcollect : ¬ Collecting f c := fun hc => by
    have hout := hc.1 w
    rw [WorkerPc.outside_of_inRound hin] at hout
    cases hout
  have hwait : ¬ AllWaiting f := fun ha => by simp [ha w, WorkerPc.inRound] at hin
  cases p <;> simp only [PhaseInv] at h
  case reset | lastUnlock | exit | exited => exact absurd h hwait
  case unlock | broadcast => exact absurd h.1 hwait
  case lockSched | wait | waiting => exact ⟨by simp, h.resolve_right hcollect⟩
  all_goals exact absurd h hcollect

/-- A worker moves within the round. -/
theorem PhaseInv.move_inRound {f : Fin n → WorkerPc} {c : ℕ} {p : SchedPc} (h : PhaseInv f c p)
    {w : Fin n} {pc : WorkerPc} (hin : (f w).inRound = true) (hin' : pc.inRound = true) :
    PhaseInv (Function.update f w pc) c p := by
  obtain ⟨hp, hall, hcount⟩ := h.sched_of_inRound hin
  have hrun : Running (Function.update f w pc) c :=
    ⟨(Function.forall_update_iff f fun _ pc => pc.inRound = true).2 ⟨hin', fun w' _ => hall w'⟩,
      hcount⟩
  rcases hp with rfl | rfl | rfl <;> exact Or.inl hrun

/-- The last worker arrives at the barrier. -/
theorem PhaseInv.release {f : Fin n → WorkerPc} {c : ℕ} {p : SchedPc} (h : PhaseInv f c p)
    {w : Fin n} (hin : (f w).inRound = true) : PhaseInv (fun _ : Fin n => .signal) c p := by
  obtain ⟨hp, -, hcount⟩ := h.sched_of_inRound hin
  have hcollect : Collecting (fun _ : Fin n => .signal) c :=
    ⟨fun _ => rfl, by simp [hcount, numCounted, WorkerPc.counted]⟩
  rcases hp with rfl | rfl | rfl <;> exact Or.inr hcollect

/-- A worker broadcasts on `schedulec`. -/
theorem PhaseInv.wake {f : Fin n → WorkerPc} {c : ℕ} {p : SchedPc} (h : PhaseInv f c p)
    {w : Fin n} (hw : f w = .signal) : PhaseInv f c (if p = .waiting then .woken else p) := by
  split_ifs with hp
  · subst hp
    refine Or.resolve_left h fun hrun => ?_
    have hin := hrun.1 w
    rw [hw] at hin
    cases hin
  · exact h

/-- As long as a worker is in the round, the last iterator is that of the round. -/
theorem Inv.built_of_inRound (hI : Inv interval s) {w : Fin n}
    (hin : (s.worker w).inRound = true) : s.built = s.round := by
  have hb := hI.iter.built
  rcases (hI.phase.sched_of_inRound hin).1 with hs | hs | hs <;> rw [hs] at hb <;> exact hb

/-- As long as a worker is in the round, `*it2_address` is its iterator. -/
theorem Inv.it2_of_inRound (hI : Inv interval s) {w : Fin n} (hin : (s.worker w).inRound = true) :
    s.it2 = some s.round ∧ s.round ∈ s.live := by
  have hc := hI.iter.current
  rw [← hI.built_of_inRound hin]
  rcases (hI.phase.sched_of_inRound hin).1 with hs | hs | hs <;> rw [hs] at hc <;> exact hc rfl

theorem phaseInv_worker (hI : Inv interval s) {w : Fin n} {m : ℕ}
    (h : workerStep interval w m s = some t) : PhaseInv t.worker t.countWait t.sched := by
  have hp := hI.phase
  unfold workerStep at h
  cases hpc : s.worker w <;> simp only [hpc] at h
  case lock =>
    split_ifs at h
    cases h
    exact hp.move_outside (by rw [hpc]; rfl) (by simp [hpc]) rfl (by rw [hpc]; rfl)
  case count | wait =>
    cases h
    exact hp.move_outside (by rw [hpc]; rfl) (by simp [hpc]) rfl (by rw [hpc]; rfl)
  case signal =>
    cases h
    exact (hp.wake hpc).move_outside (by rw [hpc]; rfl) (by simp [hpc]) rfl (by rw [hpc]; rfl)
  case waiting | atBarrier | exited => cases h
  case woken =>
    split_ifs at h
    cases h
    exact hp.move_inRound (by rw [hpc]; rfl) rfl
  case unlock =>
    cases h
    exact hp.move_inRound (by rw [hpc]; rfl) rfl
  case first =>
    split_ifs at h
    cases h
    exact hp.move_inRound (by rw [hpc]; rfl) rfl
  case read =>
    cases h
    have hit := (hI.it2_of_inRound (w := w) (by rw [hpc]; rfl)).1
    exact hp.move_inRound (by rw [hpc]; rfl) (by rw [hit]; rfl)
  case loop it todo =>
    cases todo <;> cases h <;> exact hp.move_inRound (by rw [hpc]; rfl) rfl
  case send it todo =>
    cases hout : s.output w <;> simp only [hout] at h <;> cases h
    · exact hp.move_inRound (by rw [hpc]; rfl) rfl
    · exact hp
  case barrier =>
    split_ifs at h <;> cases h
    · exact hp.release (w := w) (by rw [hpc]; rfl)
    · exact hp.move_inRound (by rw [hpc]; rfl) rfl

theorem mutexInv_worker (hI : Inv interval s) {w : Fin n} {m : ℕ}
    (h : workerStep interval w m s = some t) :
    MutexInv t.sched.holdsThreadm (fun w => (t.worker w).holdsThreadm) t.threadm := by
  have hm := hI.mutex
  have hkeep : ∀ {pc : WorkerPc}, pc.holdsThreadm = (s.worker w).holdsThreadm →
      MutexInv s.sched.holdsThreadm
        (fun w' => (Function.update s.worker w pc w').holdsThreadm) s.threadm := by
    intro pc hpc
    rw [comp_update WorkerPc.holdsThreadm, hpc, Function.update_eq_self]
    exact hm
  have hlock : ∀ {pc : WorkerPc}, pc.holdsThreadm = true → s.threadm = none →
      MutexInv s.sched.holdsThreadm
        (fun w' => (Function.update s.worker w pc w').holdsThreadm) (some (.worker w)) := by
    intro pc hpc hfree
    rw [comp_update WorkerPc.holdsThreadm, hpc]
    exact hm.lock_worker hfree w
  have hunlock : ∀ {pc : WorkerPc}, (s.worker w).holdsThreadm = true → pc.holdsThreadm = false →
      MutexInv s.sched.holdsThreadm
        (fun w' => (Function.update s.worker w pc w').holdsThreadm) none := by
    intro pc hw hpc
    rw [comp_update WorkerPc.holdsThreadm, hpc]
    exact hm.unlock_worker hw
  unfold workerStep at h
  cases hpc : s.worker w <;> simp only [hpc] at h hkeep hlock hunlock
  case lock | woken =>
    split_ifs at h with hfree
    cases h
    exact hlock rfl hfree
  case wait | unlock =>
    cases h
    exact hunlock rfl rfl
  case count =>
    cases h
    exact hkeep rfl
  case first =>
    split_ifs at h
    cases h
    exact hkeep rfl
  case read =>
    cases h
    cases s.it2 <;> exact hkeep rfl
  case waiting | atBarrier | exited => cases h
  case loop it todo => cases todo <;> cases h <;> exact hkeep rfl
  case send it todo =>
    cases hout : s.output w <;> simp only [hout] at h <;> cases h
    · exact hkeep rfl
    · exact hm
  case barrier =>
    split_ifs at h with hlast <;> cases h
    · have hnone : ∀ w', (s.worker w').holdsThreadm = false := by
        intro w'
        by_cases hw : w' = w
        · rw [hw, hpc]
          rfl
        · rw [hlast w' hw]
          rfl
      simp only [hnone] at hm
      exact hm
    · exact hkeep rfl
  case signal =>
    cases h
    have hsched : (if s.sched = .waiting then SchedPc.woken else s.sched).holdsThreadm
        = s.sched.holdsThreadm := by
      split_ifs with hs
      · rw [hs]
        rfl
      · rfl
    rw [hsched]
    exact hkeep rfl

/-- What a worker leaves alone. -/
theorem workerStep_frame {w : Fin n} {m : ℕ} (h : workerStep interval w m s = some t) :
    t.schedulem = s.schedulem ∧ t.it2 = s.it2 ∧ t.built = s.built ∧ t.live = s.live ∧
      t.terminated = s.terminated ∧ t.round = s.round ∧
      (t.sched = s.sched ∨
        (∀ w', t.worker w' = Function.update s.worker w .lock w') ∧ s.worker w = .signal ∧
          s.sched = .waiting ∧ t.sched = .woken) := by
  unfold workerStep at h
  cases hpc : s.worker w <;> simp only [hpc] at h
  case signal =>
    cases h
    refine ⟨rfl, rfl, rfl, rfl, rfl, rfl, ?_⟩
    by_cases hs : s.sched = .waiting
    · exact Or.inr ⟨fun _ => rfl, rfl, hs, if_pos hs⟩
    · exact Or.inl (if_neg hs)
  case waiting | atBarrier | exited => cases h
  case lock | woken | first | barrier => split_ifs at h <;> cases h <;> simp
  case loop it todo => cases todo <;> cases h <;> simp
  case send it todo => cases hout : s.output w <;> simp only [hout] at h <;> cases h <;> simp
  all_goals
    cases h
    simp

/-- A worker moves another one only by the release of the barrier. -/
theorem workerStep_other {w w' : Fin n} {m : ℕ} (h : workerStep interval w m s = some t)
    (hw : w' ≠ w) : t.output w' = s.output w' ∧ (t.worker w' = s.worker w' ∨
      s.worker w = .barrier ∧ s.worker w' = .atBarrier ∧ t.worker w' = .signal) := by
  unfold workerStep at h
  cases hpc : s.worker w <;> simp only [hpc] at h
  case waiting | atBarrier | exited => cases h
  case lock | woken | first =>
    split_ifs at h
    cases h
    simp [hw]
  case barrier =>
    split_ifs at h with hlast <;> cases h
    · exact ⟨rfl, Or.inr ⟨rfl, hlast w' hw, rfl⟩⟩
    · simp [hw]
  case loop it todo => cases todo <;> cases h <;> simp [hw]
  case send it todo => cases hout : s.output w <;> simp only [hout] at h <;> cases h <;> simp [hw]
  all_goals
    cases h
    simp [hw]

theorem schedulem_worker (hI : Inv interval s) {w : Fin n} {m : ℕ}
    (h : workerStep interval w m s = some t) :
    t.schedulem = if t.sched.holdsSchedulem then some .scheduler else none := by
  rcases workerStep_frame h with ⟨hm, -, -, -, -, -, hsched | ⟨-, -, hs, ht⟩⟩
  · rw [hm, hsched, hI.schedulem]
  · rw [hm, hI.schedulem, hs, ht]
    rfl

theorem iterInv_worker (hI : Inv interval s) {w : Fin n} {m : ℕ}
    (h : workerStep interval w m s = some t) : IterInv t := by
  obtain ⟨hbuilt, hcur, hfresh, hleave⟩ := hI.iter
  rcases workerStep_frame h with ⟨-, hit, hb, hl, hterm, hr, hsched | ⟨-, -, hs, ht⟩⟩
  · exact ⟨by rw [hb, hr, hsched, hbuilt], by rw [hsched, hit, hb, hl]; exact hcur,
      by rw [hsched, hb, hl]; exact hfresh, by rw [hsched, hterm]; exact hleave⟩
  · rw [hs] at hbuilt hcur
    refine ⟨by rw [hb, hr, ht, hbuilt]; rfl, fun _ => ?_, by simp [ht],
      by simp [ht, SchedPc.leaving]⟩
    rw [hit, hb, hl]
    exact hcur rfl

/-- Only worker `w` has changed. -/
theorem WorkerInv.update (h : WorkerInv interval s) (w : Fin n) (hround : t.round = s.round)
    (hother : ∀ w', w' ≠ w →
      t.worker w' = s.worker w' ∧ t.output w' = s.output w' ∧ t.log w' = s.log w')
    (hw : Walked interval w t.round (t.output w) (t.log w) (t.worker w)) :
    WorkerInv interval t := by
  intro w'
  by_cases hw' : w' = w
  · rw [hw']
    exact hw
  · obtain ⟨hpc, hout, hlog⟩ := hother w' hw'
    rw [hround, hpc, hout, hlog]
    exact h w'

theorem workerInv_worker (hI : Inv interval s) {w : Fin n} {m : ℕ}
    (h : workerStep interval w m s = some t) : WorkerInv interval t := by
  have hinv := hI.walked
  have hw := hinv w
  -- a worker in the round sees the iterator of the round
  have hbuilt : (s.worker w).inRound = true → s.built = s.round ∧ s.it2 = some s.round :=
    fun hin => ⟨hI.built_of_inRound hin, (hI.it2_of_inRound hin).1⟩
  have hkeep : ∀ pc, Walked interval w s.round (s.output w) (s.log w) pc →
      ∀ {u : State n}, u.worker = Function.update s.worker w pc → u.output = s.output →
        u.log = s.log → u.round = s.round → WorkerInv interval u := by
    intro pc hpc u hu hout hlog hround
    refine hinv.update w hround (fun w' hw' => ?_) ?_
    · rw [hu, hout, hlog, Function.update_of_ne hw']
      exact ⟨rfl, rfl, rfl⟩
    · rw [hu, hout, hlog, hround, Function.update_self]
      exact hpc
  unfold workerStep at h
  cases hpc : s.worker w <;> simp only [hpc] at h hw hbuilt
  case lock =>
    split_ifs at h
    cases h
    exact hkeep .count hw rfl rfl rfl rfl
  case count => cases h; exact hkeep .wait hw rfl rfl rfl rfl
  case wait => cases h; exact hkeep .waiting hw rfl rfl rfl rfl
  case woken =>
    split_ifs at h
    cases h
    exact hkeep .unlock hw rfl rfl rfl rfl
  case unlock => cases h; exact hkeep .read hw rfl rfl rfl rfl
  case signal => cases h; exact hkeep .lock hw rfl rfl rfl rfl
  case waiting | atBarrier | exited => cases h
  case read =>
    cases h
    obtain ⟨-, hit⟩ := hbuilt rfl
    refine hkeep (s.it2.elim .exited .first) ?_ rfl rfl rfl rfl
    rw [hit]
    exact ⟨rfl, hw⟩
  case first it =>
    split_ifs at h
    cases h
    obtain ⟨hb, -⟩ := hbuilt rfl
    obtain ⟨rfl, hout, r, hr, hlog⟩ := hw
    refine hkeep (.loop s.round (interval s.built w)) ⟨rfl, hout, ?_⟩ rfl rfl rfl rfl
    rw [hb, hlog, hr]
    rfl
  case loop it todo =>
    obtain ⟨hit, hout, hlog⟩ := hw
    cases todo with
    | nil =>
      cases h
      exact hkeep .barrier ⟨hout, by simpa using hlog⟩ rfl rfl rfl rfl
    | cons pos todo =>
      cases h
      refine hinv.update w rfl (fun w' hw' => ?_) ?_
      · simp [hw']
      · simpa [Walked, hit] using hlog
  case send it todo =>
    obtain ⟨hit, hlog⟩ := hw
    cases hout : s.output w <;> simp only [hout] at h <;> cases h
    · exact hkeep (.loop it todo) ⟨hit, hout, hlog⟩ rfl rfl rfl rfl
    · refine hinv.update w rfl (fun w' hw' => ?_) ?_
      · simp [hw']
      · simp only [hpc]
        exact ⟨hit, hlog⟩
  case barrier =>
    split_ifs at h with hlast <;> cases h
    · intro w'
      by_cases hw' : w' = w
      · rw [hw']
        exact hw
      · have hother := hinv w'
        rw [hlast w' hw'] at hother
        exact hother
    · exact hkeep .atBarrier hw rfl rfl rfl rfl

/-! ### Every reachable state -/

theorem inv_step (hI : Inv interval s) {a : Action n} (h : Step interval s a t) :
    Inv interval t := by
  cases a with
  | sched =>
    exact ⟨phaseInv_sched hI h, mutexInv_sched hI h, schedulem_sched hI h, iterInv_sched hI h,
      workerInv_sched hI h⟩
  | worker w m =>
    exact ⟨phaseInv_worker hI h, mutexInv_worker hI h, schedulem_worker hI h, iterInv_worker hI h,
      workerInv_worker hI h⟩
  | terminate =>
    cases h
    exact ⟨hI.phase, hI.mutex, hI.schedulem,
      ⟨hI.iter.built, hI.iter.current, hI.iter.fresh, fun _ => rfl⟩, hI.walked⟩

theorem inv_reaches (h : LTS.Reaches (Step interval) start s) : Inv interval s :=
  h.invariant (fun _ _ _ hI => inv_step hI) inv_start

/-! ### Isolation of the rounds -/

/-- The scheduler constructs, stores or deletes an iterator, or leaves. -/
def SchedPc.betweenRounds : SchedPc → Bool
  | .build | .store | .storeNull | .delete | .exit | .exited => true
  | _ => false

/-- A worker outside the round has sent all its messages. -/
theorem Walked.of_outside {w : Fin n} {round output : ℕ} {log : List (ℕ × ℕ)} {pc : WorkerPc}
    (h : Walked interval w round output log pc) (hpc : pc.outside = true) :
    output = 0 ∧ log = history interval w round := by
  cases pc <;> simp only [WorkerPc.outside, Bool.false_eq_true] at hpc <;> exact h

/-- The iterator that a worker uses is that of the round. -/
theorem Walked.iterator {w : Fin n} {round output it : ℕ} {log : List (ℕ × ℕ)} {pc : WorkerPc}
    (h : Walked interval w round output log pc) (hpc : pc.iterator = some it) : it = round := by
  cases pc <;> simp only [WorkerPc.iterator, reduceCtorEq, Option.some.injEq] at hpc <;>
    subst hpc <;> exact h.1

theorem PhaseInv.outside_of_betweenRounds {f : Fin n → WorkerPc} {c : ℕ} {p : SchedPc}
    (h : PhaseInv f c p) (hp : p.betweenRounds = true) (w : Fin n) : (f w).outside = true := by
  cases p <;> simp only [SchedPc.betweenRounds, Bool.false_eq_true] at hp
  case exit | exited =>
    rw [h w]
    rfl
  all_goals exact h.1 w

/-- **The rounds are isolated.**  When the scheduler constructs, stores or deletes an iterator or
leaves, every worker is outside its loop and its output buffer is empty; the broadcast that begins
a round wakes every worker; a worker reads and uses the iterator of its round, which is not
deleted; and a worker outside its loop has walked its interval of every round so far exactly once,
with the iterator of that round. -/
theorem round_isolation (h : LTS.Reaches (Step interval) start s) :
    (s.sched.betweenRounds = true → ∀ w, (s.worker w).outside = true ∧ s.output w = 0) ∧
    (s.sched = .broadcast → ∀ w, s.worker w = .waiting) ∧
    (∀ w, s.worker w = .read → s.it2 = some s.round ∧ s.round ∈ s.live) ∧
    (∀ w it, (s.worker w).iterator = some it →
      it = s.round ∧ s.it2 = some s.round ∧ s.round ∈ s.live) ∧
    (∀ w, (s.worker w).outside = true → s.log w = history interval w s.round) ∧
    (∀ w, s.worker w ≠ .exited) := by
  have hI := inv_reaches h
  refine ⟨fun hb w => ?_, fun hb w => ?_, fun w hw => ?_, fun w it hit => ?_, fun w hw => ?_,
    fun w hw => ?_⟩
  · have hout := hI.phase.outside_of_betweenRounds hb w
    exact ⟨hout, ((hI.walked w).of_outside hout).1⟩
  · have hp := hI.phase
    rw [hb] at hp
    exact hp.1 w
  · exact hI.it2_of_inRound (by rw [hw]; rfl)
  · refine ⟨(hI.walked w).iterator hit, hI.it2_of_inRound (w := w) ?_⟩
    cases hpc : s.worker w <;> simp [hpc, WorkerPc.iterator] at hit <;> rfl
  · exact ((hI.walked w).of_outside hw).2
  · have hwalked := hI.walked w
    rw [hw] at hwalked
    exact hwalked

/-- One worker, one position, one message: the run up to `delete *it2_address`. -/
def oneRound : List (Action 1) :=
  List.replicate 3 (.worker 0 0) ++ List.replicate 10 .sched ++ List.replicate 4 (.worker 0 0) ++
    List.replicate 6 (.worker 0 1) ++ List.replicate 2 .sched

theorem round_isolation_oneRound : ∃ s : State 1,
    exec (fun _ _ => [0]) start oneRound = some s ∧ s.sched = .delete ∧
      (s.worker 0).outside = true ∧ s.output 0 = 0 ∧ s.log 0 = [(1, 0)] := by
  obtain ⟨s, hs⟩ := Option.isSome_iff_exists.1
    (by decide : (exec (fun _ _ => [0]) start oneRound).isSome = true)
  have hsched : (exec (fun _ _ => [0]) start oneRound).map State.sched = some .delete := by decide
  have hround : (exec (fun _ _ => [0]) start oneRound).map State.round = some 1 := by decide
  simp only [hs, Option.map_some, Option.some.injEq] at hsched hround
  obtain ⟨hbetween, -, -, -, hlog, -⟩ := round_isolation (run_of_exec hs).reaches
  obtain ⟨hout, hempty⟩ := hbetween (by rw [hsched]; rfl) 0
  refine ⟨s, hs, hsched, hout, hempty, ?_⟩
  rw [hlog 0 hout, hround]
  rfl

end Handshake

end Maiter
