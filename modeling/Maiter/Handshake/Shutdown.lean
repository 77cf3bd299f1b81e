import Maiter.Handshake.Invariant

/-!
# The end of the second phase

The main thread in `runexcutethread`: it checks for termination, joins the schedule thread, and
destroys what the threads share.  The execute threads are not joined.

* `MainPc`, `Process`, `Move`, `Process.step`: the threads of the handshake with the main thread;
* `Process.Inv`, `inv_process`: the threads run as in the handshake, and the main thread is past
  the join only if the schedule thread has left;
* `waiting_of_destroys`: whenever the main thread destroys the shared objects, all workers wait on
  `threadc`;
* `reaches_returned`: for every number of workers there is a run that gets so far;
* `clean_shutdown_iff`: hence the workers have exited only if there are none.
-/

namespace Maiter

namespace Handshake

/-- What `runexcutethread` destroys. -/
inductive Shared
  | threadm
  | threadc
  | schedulem
  | schedulec
  | barrier
  /-- the `Thread_Arg` that holds all of them -/
  | arg
  deriving DecidableEq, Repr

/-- The next statement of `runexcutethread`, after the threads are created. -/
inductive MainPc
  /-- `TermCheck()`, until it has called `terminate()` and returns -/
  | termCheck
  /-- `pthread_join(iter_thread, NULL)` -/
  | join
  /-- `pthread_mutex_destroy` and the like, with the objects still to destroy, and `delete Arg` -/
  | destroy (o : Shared) (rest : List Shared)
  | returned
  deriving DecidableEq, Repr

/-- The order of destruction. -/
def MainPc.destroyAll : List Shared → MainPc
  | [] => .returned
  | o :: rest => .destroy o rest

/-- The main thread is past the join. -/
def MainPc.destroys : MainPc → Bool
  | .destroy _ _ | .returned => true
  | _ => false

/-- The threads of the second phase, the main thread included. -/
structure Process (n : ℕ) where
  threads : State n
  main : MainPc
  destroyed : List Shared

variable {n : ℕ}

/-- All threads are created. -/
def Process.start : Process n := ⟨Handshake.start, .termCheck, []⟩

/-- The next step of the main thread. -/
def mainStep (p : Process n) : Option (Process n) :=
  match p.main with
  | .termCheck => some { p with threads := { p.threads with terminated := true }, main := .join }
  | .join =>
    if p.threads.sched = .exited then
      some { p with
        main := .destroyAll [.threadm, .threadc, .schedulem, .schedulec, .barrier, .arg] }
    else none
  | .destroy o rest => some { p with main := .destroyAll rest, destroyed := o :: p.destroyed }
  | .returned => none

/-- Who takes a step. -/
inductive Move (n : ℕ)
  | sched
  | worker (w : Fin n) (messages : ℕ)
  | main
  deriving DecidableEq

variable (interval : ℕ → Fin n → List ℕ)

/-- The state after a move. -/
def Process.step (p : Process n) : Move n → Option (Process n)
  | .sched => (schedStep p.threads).map fun s => { p with threads := s }
  | .worker w messages => (workerStep interval w messages p.threads).map fun s =>
      { p with threads := s }
  | .main => mainStep p

/-- The step relation. -/
def Process.Step (p : Process n) (a : Move n) (q : Process n) : Prop :=
  Process.step interval p a = some q

variable {interval} {p q : Process n}

/-! ### The invariant -/

/-- The threads run as in the handshake, and the schedule thread has left before the main thread
destroys anything. -/
structure Process.Inv (interval : ℕ → Fin n → List ℕ) (p : Process n) : Prop where
  threads : LTS.Reaches (Handshake.Step interval) Handshake.start p.threads
  joined : p.main.destroys = true → p.threads.sched = .exited

theorem inv_process_start : Process.Inv interval (Process.start : Process n) :=
  ⟨LTS.Reaches.refl _, fun h => by cases h⟩

/-- When the schedule thread has left, no other thread can take a step. -/
theorem Process.Inv.waiting (h : p.Inv interval) (hd : p.main.destroys = true) :
    AllWaiting p.threads.worker := by
  have hphase := (inv_reaches h.threads).phase
  rw [h.joined hd] at hphase
  exact hphase

theorem inv_process_step (h : p.Inv interval) {a : Move n} (hstep : Process.Step interval p a q) :
    q.Inv interval := by
  unfold Process.Step Process.step at hstep
  cases a with
  | sched =>
    obtain ⟨s, hs, rfl⟩ := Option.map_eq_some_iff.1 hstep
    have hrun : Handshake.Step interval p.threads .sched s := hs
    refine ⟨h.threads.trans (LTS.Run.single hrun).reaches, fun hd => ?_⟩
    rw [schedStep, h.joined hd] at hs
    cases hs
  | worker w messages =>
    obtain ⟨s, hs, rfl⟩ := Option.map_eq_some_iff.1 hstep
    have hrun : Handshake.Step interval p.threads (.worker w messages) s := hs
    refine ⟨h.threads.trans (LTS.Run.single hrun).reaches, fun hd => ?_⟩
    rw [workerStep, h.waiting hd w] at hs
    cases hs
  | main =>
    unfold mainStep at hstep
    cases hpc : p.main with
    | termCheck =>
      simp only [hpc, Option.some.injEq] at hstep
      subst hstep
      have hrun : Handshake.Step interval p.threads .terminate
          { p.threads with terminated := true } := rfl
      exact ⟨h.threads.trans (LTS.Run.single hrun).reaches, fun hd => by cases hd⟩
    | join =>
      simp only [hpc] at hstep
      split_ifs at hstep with hexited
      cases hstep
      exact ⟨h.threads, fun _ => hexited⟩
    | destroy o rest =>
      simp only [hpc, Option.some.injEq] at hstep
      subst hstep
      exact ⟨h.threads, fun _ => h.joined (by rw [hpc]; rfl)⟩
    | returned =>
      simp only [hpc] at hstep
      cases hstep

/-- **The invariant** holds in every reachable state. -/
theorem inv_process (h : LTS.Reaches (Process.Step interval) Process.start p) : p.Inv interval :=
  h.invariant (fun _ _ _ hI hstep => inv_process_step hI hstep) inv_process_start

/-- **Whenever the main thread destroys the shared objects, all workers wait on `threadc`.** -/
theorem waiting_of_destroys (h : LTS.Reaches (Process.Step interval) Process.start p)
    (hd : p.main.destroys = true) (w : Fin n) : p.threads.worker w = .waiting :=
  (inv_process h).waiting hd w

/-! ### A run to the end -/

variable (n) in
/-- The table was terminated at once, the scheduler has stored `NULL`, and the first `k` workers
wait on `threadc`. -/
def gathered (k : ℕ) : Process n where
  threads := { Handshake.start with
    sched := .lastLock
    worker := fun w => if w < k then .waiting else .lock
    countWait := k
    terminated := true }
  main := .join
  destroyed := []

variable (interval) in
/-- A worker locks `threadm`, counts itself and waits. -/
theorem reaches_count {w : Fin n} (hw : p.threads.worker w = .lock)
    (hm : p.threads.threadm = none) :
    LTS.Reaches (Process.Step interval) p { p with threads := { p.threads with
      worker := Function.update p.threads.worker w .waiting
      countWait := p.threads.countWait + 1 } } := by
  let s₁ : State n := { p.threads with
    worker := Function.update p.threads.worker w .count, threadm := some (.worker w) }
  let s₂ : State n := { s₁ with
    worker := Function.update s₁.worker w .wait, countWait := s₁.countWait + 1 }
  let s₃ : State n := { s₂ with worker := Function.update s₂.worker w .waiting, threadm := none }
  have h₁ : workerStep interval w 0 p.threads = some s₁ := by
    simp only [workerStep, hw, hm, if_true]
    rfl
  have h₂ : workerStep interval w 0 s₁ = some s₂ := by
    have hpc : s₁.worker w = .count := Function.update_self ..
    simp only [workerStep, hpc]
    rfl
  have h₃ : workerStep interval w 0 s₂ = some s₃ := by
    have hpc : s₂.worker w = .wait := Function.update_self ..
    simp only [workerStep, hpc]
    rfl
  have hend : s₃ = { p.threads with
      worker := Function.update p.threads.worker w .waiting
      countWait := p.threads.countWait + 1 } := by
    simp only [s₁, s₂, s₃, Function.update_idem, hm]
  rw [← hend]
  have hstep : ∀ {s t : State n}, workerStep interval w 0 s = some t →
      Process.Step interval { p with threads := s } (.worker w 0) { p with threads := t } :=
    fun h => by rw [Process.Step, Process.step, h, Option.map_some]
  exact ((LTS.Run.single (hstep h₁)).snoc (hstep h₂) |>.snoc (hstep h₃)).reaches

theorem step_gathered {k : ℕ} (hk : k < n) :
    LTS.Reaches (Process.Step interval) (gathered n k) (gathered n (k + 1)) := by
  have hlock : (gathered n k).threads.worker ⟨k, hk⟩ = .lock := by simp [gathered]
  have hcount := reaches_count interval hlock rfl
  have hworker : Function.update (gathered n k).threads.worker ⟨k, hk⟩ .waiting
      = (gathered n (k + 1)).threads.worker := by
    funext w
    by_cases hw : w = ⟨k, hk⟩
    · subst hw
      simp [gathered]
    · have hne : (w : ℕ) ≠ k := fun he => hw (Fin.ext he)
      have hiff : (w : ℕ) < k ↔ (w : ℕ) < k + 1 := by omega
      rw [Function.update_of_ne hw]
      simp only [gathered, hiff]
  rw [hworker] at hcount
  exact hcount

theorem reaches_gathered : ∀ k ≤ n,
    LTS.Reaches (Process.Step interval) Process.start (gathered n k) := by
  intro k
  induction k with
  | zero =>
    intro _
    have hstart : [Move.main, .sched, .sched].foldlM (Process.step interval) Process.start
        = some (gathered n 0) := by
      simp [Process.step, Process.start, Handshake.start, mainStep, schedStep, gathered]
    exact (LTS.Run.of_foldlM _ hstart).reaches
  | succ k ih => exact fun hk => (ih (by omega)).trans (step_gathered hk)

variable (interval) in
/-- **The end is reached**, whatever the number of workers. -/
theorem reaches_returned :
    ∃ p : Process n, LTS.Reaches (Process.Step interval) Process.start p ∧ p.main = .returned := by
  have hlast : (List.replicate 4 Move.sched ++ List.replicate 7 Move.main).foldlM
      (Process.step interval) (gathered n n) = some { gathered n n with
        threads := { (gathered n n).threads with sched := .exited }
        main := .returned
        destroyed := [.arg, .barrier, .schedulec, .schedulem, .threadc, .threadm] } := by
    simp [Process.step, mainStep, schedStep, gathered, Handshake.start, MainPc.destroyAll,
      List.replicate_succ]
  exact ⟨_, (reaches_gathered n le_rfl).trans (LTS.Run.of_foldlM _ hlast).reaches, rfl⟩

/-! ### Shutdown -/

variable (interval) in
/-- **The workers have left `run_loop` when the shared objects are destroyed, in every run, only if
there are no workers.**  In every run in which the objects are destroyed, all workers wait on
`threadc`. -/
theorem clean_shutdown_iff :
    ((∀ p : Process n, LTS.Reaches (Process.Step interval) Process.start p →
        p.main.destroys = true → ∀ w, p.threads.worker w = .exited) ↔ n = 0) ∧
      ∀ p : Process n, LTS.Reaches (Process.Step interval) Process.start p →
        p.main.destroys = true → ∀ w, p.threads.worker w = .waiting := by
  refine ⟨⟨fun h => ?_, ?_⟩, fun p hp hd w => waiting_of_destroys hp hd w⟩
  · by_contra hn
    obtain ⟨p, hp, hmain⟩ := reaches_returned interval
    have hd : p.main.destroys = true := by rw [hmain]; rfl
    have hexited := h p hp hd ⟨0, Nat.pos_of_ne_zero hn⟩
    rw [waiting_of_destroys hp hd] at hexited
    cases hexited
  · rintro rfl p - - w
    exact w.elim0

/-- A worker walks one round; then the table is terminated, and the worker counts itself and
waits. -/
def oneRoundThenEnd (w : Fin 1) : List (Move 1) :=
  List.replicate 3 (Move.worker w 0) ++ List.replicate 10 Move.sched ++
    List.replicate 9 (Move.worker w 0) ++ [Move.main] ++ List.replicate 5 Move.sched ++
    List.replicate 3 (Move.worker w 0) ++ List.replicate 4 Move.sched ++ List.replicate 7 Move.main

/-- After one round of one worker, everything is destroyed while the worker waits on `threadc`. -/
theorem not_clean_shutdown : ∃ p : Process 1,
    LTS.Reaches (Process.Step fun _ _ => [0]) Process.start p ∧ p.threads.round = 1 ∧
      p.main = .returned ∧ Shared.threadc ∈ p.destroyed ∧ p.threads.worker 0 = .waiting ∧
      ¬ ∀ w, p.threads.worker w = .exited := by
  have hend : ((oneRoundThenEnd 0).foldlM (Process.step fun _ _ => [0]) Process.start).map
      (fun p => (p.threads.round, p.main, p.destroyed, p.threads.worker 0))
      = some (1, .returned, [.arg, .barrier, .schedulec, .schedulem, .threadc, .threadm],
        .waiting) := by decide +kernel
  obtain ⟨p, hp, hend⟩ := Option.map_eq_some_iff.1 hend
  rw [Prod.mk.injEq, Prod.mk.injEq, Prod.mk.injEq] at hend
  obtain ⟨hround, hmain, hdestroyed, hworker⟩ := hend
  refine ⟨p, (LTS.Run.of_foldlM _ hp).reaches, hround, hmain, by simp [hdestroyed], hworker, ?_⟩
  intro hexited
  have := hexited 0
  rw [hworker] at this
  cases this

end Handshake

end Maiter
