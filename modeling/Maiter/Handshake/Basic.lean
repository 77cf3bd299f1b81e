import Maiter.Lib.Runs
import Mathlib.Tactic
import Mathlib.Algebra.BigOperators.Group.Finset.Basic

/-!
# The handshake of a round

The schedule thread (`obtain_iterator`) and the execute threads (`run_loop`) of `MaiterKernel2`.
The scheduler builds an iterator, waits until all workers are counted as waiting, wakes them by a
broadcast on `threadc`, and waits on `schedulec` until they have passed the barrier.

* `SchedPc`, `WorkerPc`: the program points of the two thread functions;
* `State`: the program points, the mutexes, `count_wait`, `*it2_address` and the iterators; the
  barrier and the sets of waiting threads are given by the program points;
* `schedStep`, `workerStep`, `step`: the next step of a thread; `none` if it is blocked, or if it is
  a worker without an interval, for which `run_loop` ends in a fatal log;
* `outside`, `inRound`: where a worker is in its loop.

A broadcast wakes exactly the threads that wait at that moment, and nothing else wakes a thread.
What `run_iter` does to the table is left out; the messages that it pushes to the output buffer are
counted.  The fields `round` and `log` only record what happens: how often `threadc` has been
broadcast, and which positions each worker has walked with which iterator.
-/

namespace Maiter

namespace Handshake

/-- The threads that take part. -/
inductive Thread (n : ℕ)
  | scheduler
  | worker (w : Fin n)
  deriving DecidableEq

/-- The next statement of `obtain_iterator`. -/
inductive SchedPc
  /-- `if (terminated_) return NULL;` in `get_iterator` -/
  | test
  /-- the constructor of the iterator, which also writes `thread_interval` -/
  | build
  /-- `*it2_address = …` with the new iterator -/
  | store
  /-- `pthread_mutex_lock(&Arg->threadm)` before the test of the polling loop -/
  | lock
  /-- `while (Arg->count_wait < maiter->num_threads)` -/
  | poll
  /-- `pthread_mutex_unlock(&Arg->threadm)` in the polling loop -/
  | pollUnlock
  /-- `Arg->count_wait = 0` -/
  | reset
  /-- `pthread_mutex_unlock(&Arg->threadm)` -/
  | unlock
  /-- `pthread_cond_broadcast(&Arg->threadc)` -/
  | broadcast
  /-- `pthread_mutex_lock(&Arg->schedulem)` -/
  | lockSched
  /-- `pthread_cond_wait(&Arg->schedulec, &Arg->schedulem)` -/
  | wait
  /-- waiting on `schedulec` -/
  | waiting
  /-- woken, about to lock `schedulem` again -/
  | woken
  /-- `pthread_mutex_unlock(&Arg->schedulem)` -/
  | unlockSched
  /-- `delete *it2_address` -/
  | delete
  /-- `*it2_address = NULL`, then `break` -/
  | storeNull
  /-- the second polling loop, after `break` -/
  | lastLock
  | lastPoll
  | lastPollUnlock
  | lastUnlock
  /-- `pthread_exit(0)` -/
  | exit
  | exited
  deriving DecidableEq, Repr

/-- The next statement of `run_loop`. -/
inductive WorkerPc
  /-- `pthread_mutex_lock(&Arg->threadm)` -/
  | lock
  /-- `Arg->count_wait++` -/
  | count
  /-- `pthread_cond_wait(&Arg->threadc, &Arg->threadm)` -/
  | wait
  /-- waiting on `threadc` -/
  | waiting
  /-- woken, about to lock `threadm` again -/
  | woken
  /-- `pthread_mutex_unlock(&Arg->threadm)` -/
  | unlock
  /-- `it2 = *it2_address` and the test for `NULL` -/
  | read
  /-- `thread_begin` and `thread_end`, and the tests for `-1` -/
  | first (it : ℕ)
  /-- the loop over the positions, with those still to walk -/
  | loop (it : ℕ) (todo : List ℕ)
  /-- the loop over the output buffer in `run_iter` -/
  | send (it : ℕ) (todo : List ℕ)
  /-- `pthread_barrier_wait(&Arg->barrier)` -/
  | barrier
  /-- waiting at the barrier -/
  | atBarrier
  /-- `pthread_cond_broadcast(&Arg->schedulec)` -/
  | signal
  | exited
  deriving DecidableEq, Repr

/-- The state shared by the threads.  Iterators are numbered in the order of construction. -/
structure State (n : ℕ) where
  sched : SchedPc
  worker : Fin n → WorkerPc
  threadm : Option (Thread n)
  schedulem : Option (Thread n)
  countWait : ℕ
  it2 : Option ℕ
  /-- the number of the last iterator, whose intervals are in `thread_interval` -/
  built : ℕ
  /-- the iterators that are not deleted -/
  live : Finset ℕ
  /-- the number of messages in each output buffer -/
  output : Fin n → ℕ
  /-- `terminated_` of the table -/
  terminated : Bool
  round : ℕ
  log : Fin n → List (ℕ × ℕ)

variable {n : ℕ}

/-- All threads are created, none has taken a step. -/
def start : State n where
  sched := .test
  worker _ := .lock
  threadm := none
  schedulem := none
  countWait := 0
  it2 := none
  built := 0
  live := ∅
  output _ := 0
  terminated := false
  round := 0
  log _ := []

/-- The next step of the scheduler. -/
def schedStep (s : State n) : Option (State n) :=
  match s.sched with
  | .test => some { s with sched := if s.terminated then .storeNull else .build }
  | .build => some { s with
      sched := .store, built := s.built + 1, live := insert (s.built + 1) s.live }
  | .store => some { s with sched := .lock, it2 := some s.built }
  | .lock =>
    if s.threadm = none then some { s with sched := .poll, threadm := some .scheduler } else none
  | .poll => some { s with sched := if s.countWait < n then .pollUnlock else .reset }
  | .pollUnlock => some { s with sched := .lock, threadm := none }
  | .reset => some { s with sched := .unlock, countWait := 0 }
  | .unlock => some { s with sched := .broadcast, threadm := none }
  | .broadcast => some { s with
      sched := .lockSched, round := s.round + 1,
      worker := fun w => if s.worker w = .waiting then .woken else s.worker w }
  | .lockSched =>
    if s.schedulem = none then some { s with sched := .wait, schedulem := some .scheduler }
    else none
  | .wait => some { s with sched := .waiting, schedulem := none }
  | .waiting => none
  | .woken =>
    if s.schedulem = none then some { s with sched := .unlockSched, schedulem := some .scheduler }
    else none
  | .unlockSched => some { s with sched := .delete, schedulem := none }
  | .delete => some { s with
      sched := .test, live := s.it2.elim s.live fun it => s.live.erase it }
  | .storeNull => some { s with sched := .lastLock, it2 := none }
  | .lastLock =>
    if s.threadm = none then some { s with sched := .lastPoll, threadm := some .scheduler }
    else none
  | .lastPoll => some { s with sched := if s.countWait < n then .lastPollUnlock else .lastUnlock }
  | .lastPollUnlock => some { s with sched := .lastLock, threadm := none }
  | .lastUnlock => some { s with sched := .exit, threadm := none }
  | .exit => some { s with sched := .exited }
  | .exited => none

variable (interval : ℕ → Fin n → List ℕ)

/-- The next step of worker `w`.  `interval it w` are the positions from `thread_begin` to
`thread_end` after the constructor of the iterator `it`, and empty if one of the two is `-1`;
`messages` is how many messages the next `run_iter` pushes, none if it is not called because the
bucket is not in use. -/
def workerStep (w : Fin n) (messages : ℕ) (s : State n) : Option (State n) :=
  let moveTo := fun pc => Function.update s.worker w pc
  match s.worker w with
  | .lock =>
    if s.threadm = none then
      some { s with worker := moveTo .count, threadm := some (.worker w) }
    else none
  | .count => some { s with worker := moveTo .wait, countWait := s.countWait + 1 }
  | .wait => some { s with worker := moveTo .waiting, threadm := none }
  | .waiting => none
  | .woken =>
    if s.threadm = none then
      some { s with worker := moveTo .unlock, threadm := some (.worker w) }
    else none
  | .unlock => some { s with worker := moveTo .read, threadm := none }
  | .read => some { s with worker := moveTo (s.it2.elim .exited .first) }
  | .first it =>
    -- the fatal log throws if `thread_begin` or `thread_end` is `-1`
    if interval s.built w = [] then none
    else some { s with worker := moveTo (.loop it (interval s.built w)) }
  | .loop _ [] => some { s with worker := moveTo .barrier }
  | .loop it (pos :: todo) => some { s with
      worker := moveTo (.send it todo), output := Function.update s.output w messages,
      log := Function.update s.log w (s.log w ++ [(it, pos)]) }
  | .send it todo =>
    match s.output w with
    | 0 => some { s with worker := moveTo (.loop it todo) }
    | m + 1 => some { s with output := Function.update s.output w m }
  | .barrier =>
    -- the last thread to arrive releases all of them
    if ∀ w', w' ≠ w → s.worker w' = .atBarrier then some { s with worker := fun _ => .signal }
    else some { s with worker := moveTo .atBarrier }
  | .atBarrier => none
  | .signal => some { s with
      worker := moveTo .lock, sched := if s.sched = .waiting then .woken else s.sched }
  | .exited => none

/-- Who takes a step; `terminate` is the main thread calling `terminate()` of the table. -/
inductive Action (n : ℕ)
  | sched
  | worker (w : Fin n) (messages : ℕ)
  | terminate
  deriving DecidableEq

/-- The state after an action. -/
def step (s : State n) : Action n → Option (State n)
  | .sched => schedStep s
  | .worker w messages => workerStep interval w messages s
  | .terminate => some { s with terminated := true }

/-- The step relation. -/
def Step (s : State n) (a : Action n) (t : State n) : Prop := step interval s a = some t

/-- The state after a sequence of actions. -/
def exec (s : State n) (l : List (Action n)) : Option (State n) := l.foldlM (step interval) s

variable {interval}

theorem run_of_exec {l : List (Action n)} {s t : State n} (h : exec interval s l = some t) :
    LTS.Run (Step interval) s l t := LTS.Run.of_foldlM l h

/-! ### Classes of program points -/

/-- The worker is past its barrier, or not yet woken for the next round. -/
def WorkerPc.outside : WorkerPc → Bool
  | .lock | .count | .wait | .waiting | .signal => true
  | _ => false

/-- The worker is woken for a round and has not passed its barrier. -/
def WorkerPc.inRound : WorkerPc → Bool
  | .woken | .unlock | .read | .first _ | .loop _ _ | .send _ _ | .barrier | .atBarrier => true
  | _ => false

/-- The worker has counted itself in `count_wait` for the next round. -/
def WorkerPc.counted : WorkerPc → Bool
  | .wait | .waiting => true
  | _ => false

/-- The iterator that the worker uses. -/
def WorkerPc.iterator : WorkerPc → Option ℕ
  | .first it | .loop it _ | .send it _ => some it
  | _ => none

/-- The worker holds `threadm`. -/
def WorkerPc.holdsThreadm : WorkerPc → Bool
  | .count | .wait | .unlock => true
  | _ => false

/-- The scheduler holds `threadm`. -/
def SchedPc.holdsThreadm : SchedPc → Bool
  | .poll | .pollUnlock | .reset | .unlock | .lastPoll | .lastPollUnlock | .lastUnlock => true
  | _ => false

/-- The scheduler holds `schedulem`. -/
def SchedPc.holdsSchedulem : SchedPc → Bool
  | .wait | .unlockSched => true
  | _ => false

end Handshake

end Maiter
