import Maiter.Engine.Atomicity
import Maiter.Handshake.Invariant
import Maiter.Iterators

/-!
# The second phase

`MaiterKernel2` with the normal iterator (`schedule_portion = 1`).  The scheduler and the execute
threads take the steps of `Handshake`; where a thread walks its interval, it calls `run_iter`, whose
statements are those of `Vertexlock`.

* `State`, `step`, `Step`: both models side by side, with the global `thread_interval`;
* `Effect`, `step_effect`: what a step does, by the place where its thread is;
* `control_effect`, `threads_effect`: every step is one of the handshake, of `run_iter`, or of both
  at once.

A thread is in `Handshake.WorkerPc.loop` while it is in `run_iter` before the end of `g_func`, and
in `Handshake.WorkerPc.send` from then on.  The main thread terminates the table at any moment.
-/

namespace Maiter

open StateTable (WF)
open Vertexlock (IterPc iterStep)

variable {K V D : Type} [DecidableEq K] {n : ℕ}

namespace SecondPhase

/-- The scheduler and the execute threads, with the table that they share. -/
structure State (K V D : Type) (n : ℕ) where
  control : Handshake.State n
  threads : Vertexlock.State K V D n
  threadInterval : List KVVPair

/-- Who takes a step; `terminate` is the main thread calling `terminate()` of the table. -/
inductive Action (n : ℕ)
  | sched
  | worker (w : Fin n)
  | terminate
  deriving DecidableEq

/-- The action of the handshake; `messages` is how many the next `run_iter` pushes. -/
def Action.control (messages : ℕ) : Action n → Handshake.Action n
  | .sched => .sched
  | .worker w => .worker w messages
  | .terminate => .terminate

/-- The threads when they are created; `threadId` are their `pthread_t`. -/
def start (threadId : Fin n → ℕ) (t : StateTable K V D) : State K V D n where
  control := Handshake.start
  threads := Vertexlock.start t
  threadInterval := List.ofFn fun w => ⟨threadId w, 0, 0⟩

section Defs

variable [DecidableEq V] [Zero V] (threadId : Fin n → ℕ) (hashobj : K → ℕ)
  (kernel : IterateKernel K V D)

/-- The positions from `thread_begin` to `thread_end`. -/
def State.positions (s : State K V D n) (w : Fin n) : List ℕ :=
  let first := threadBegin s.threadInterval (threadId w)
  let last := threadEnd s.threadInterval (threadId w)
  List.range' first.toNat (last + 1 - first).toNat

/-- The next step of the scheduler; its iterator is built with `bfilter = false`. -/
def schedStep (s : State K V D n) : Option (State K V D n) :=
  (Handshake.schedStep s.control).bind fun control =>
    if s.control.sched = .build then
      (Iterator.new kernel [] s.threads.table s.threadInterval n false).toOption.map fun it =>
        ⟨control, s.threads, it.2⟩
    else some { s with control := control }

/-- A step of thread `w` outside `run_iter`. -/
def controlStep (w : Fin n) (s : State K V D n) : Option (State K V D n) :=
  (Handshake.workerStep (fun _ => s.positions threadId) w 0 s.control).map fun control =>
    { s with control := control }

/-- A step of thread `w` inside `run_iter`, called on the bucket at `pos`. -/
def iterateStep (w : Fin n) (pos : ℕ) (s : State K V D n) : Option (State K V D n) :=
  (iterStep hashobj kernel w pos s.threads).map fun threads => { s with threads := threads }

/-- A step that both models take: the messages are those in the output buffer. -/
def bothStep (w : Fin n) (pos : ℕ) (s : State K V D n) : Option (State K V D n) :=
  (iterStep hashobj kernel w pos s.threads).bind fun threads =>
    (Handshake.workerStep (fun _ => s.positions threadId) w (threads.output w).length
      s.control).map fun control => ⟨control, threads, s.threadInterval⟩

/-- The next step of thread `w`. -/
def workerStep (w : Fin n) (s : State K V D n) : Option (State K V D n) :=
  match s.control.worker w, s.threads.pc w with
  | .first _, _ =>
    -- the fatal log throws if the thread has no interval
    if threadBegin s.threadInterval (threadId w) = -1 ∨
        threadEnd s.threadInterval (threadId w) = -1 then none
    else controlStep threadId w s
  | .loop _ (pos :: _), .outside => (s.threads.table.buckets[pos]?).bind fun c =>
      if c.inUse then iterateStep hashobj kernel w pos s else controlStep threadId w s
  | .loop _ (pos :: _), .send _ => bothStep threadId hashobj kernel w pos s
  | .loop _ (pos :: _), _ => iterateStep hashobj kernel w pos s
  -- `continue` in front of a bucket that is not in use
  | .send _ _, .outside => controlStep threadId w s
  | .send _ _, .apply _ _ => bothStep threadId hashobj kernel w 0 s
  | .send _ _, .next [] => bothStep threadId hashobj kernel w 0 s
  | .send _ _, _ => iterateStep hashobj kernel w 0 s
  | _, _ => controlStep threadId w s

/-- The state after an action. -/
def step (s : State K V D n) : Action n → Option (State K V D n)
  | .sched => schedStep kernel s
  | .worker w => workerStep threadId hashobj kernel w s
  | .terminate => some { s with control := { s.control with terminated := true } }

/-- The step relation. -/
def Step (s : State K V D n) (a : Action n) (s' : State K V D n) : Prop :=
  step threadId hashobj kernel s a = some s'

/-- A state that is reachable from a table. -/
abbrev Reaches (s s' : State K V D n) : Prop := LTS.Reaches (Step threadId hashobj kernel) s s'

/-- The state after a sequence of actions. -/
def exec (s : State K V D n) (l : List (Action n)) : Option (State K V D n) :=
  l.foldlM (step threadId hashobj kernel) s

variable {threadId hashobj kernel}

theorem reaches_of_exec {l : List (Action n)} {s s' : State K V D n}
    (h : exec threadId hashobj kernel s l = some s') : Reaches threadId hashobj kernel s s' :=
  (LTS.Run.of_foldlM l h).reaches

end Defs

/-! ### Effects -/

/-- Where a thread is in `run_iter`, while the handshake has it at `WorkerPc`. -/
def Synced : Handshake.WorkerPc → IterPc K V → Prop
  | .loop _ (pos :: _), pc => pc = .outside ∨ pc.pos = some pos ∧ pc.beforeSend = true
  | .send _ _, pc => pc = .outside ∨ pc.beforeSend = false
  | _, pc => pc = .outside

omit [DecidableEq K] in
@[simp] theorem synced_outside (pc : Handshake.WorkerPc) : Synced pc (.outside : IterPc K V) := by
  cases pc with
  | loop it todo =>
    cases todo with
    | nil => rfl
    | cons pos todo => exact Or.inl rfl
  | send it todo => exact Or.inl rfl
  | _ => rfl

variable [Zero V] {threadId : Fin n → ℕ} {hashobj : K → ℕ} {kernel : IterateKernel K V D}
  {t₀ : StateTable K V D} {s s' : State K V D n}

/-- What a step does, and who takes it. -/
inductive Effect (threadId : Fin n → ℕ) (hashobj : K → ℕ) (kernel : IterateKernel K V D)
    (s : State K V D n) : Action n → State K V D n → Prop
  | sched {control : Handshake.State n} {threadInterval : List KVVPair} :
      Handshake.schedStep s.control = some control →
      (s.control.sched ≠ .build ∧ threadInterval = s.threadInterval ∨ s.control.sched = .build ∧
        threadInterval = divide n s.threads.table.buckets.length s.threadInterval) →
      Effect threadId hashobj kernel s .sched ⟨control, s.threads, threadInterval⟩
  | terminate :
      Effect threadId hashobj kernel s .terminate
        { s with control := { s.control with terminated := true } }
  | control {w : Fin n} {control : Handshake.State n} :
      Handshake.workerStep (fun _ => s.positions threadId) w 0 s.control = some control →
      s.threads.pc w = .outside →
      (∀ it pos todo, s.control.worker w = .loop it (pos :: todo) →
        s.threads.table.layout pos = none) →
      Effect threadId hashobj kernel s (.worker w) ⟨control, s.threads, s.threadInterval⟩
  | enter {w : Fin n} {it pos : ℕ} {todo : List ℕ} {threads : Vertexlock.State K V D n} :
      s.control.worker w = .loop it (pos :: todo) → (∀ p, s.threads.pc w ≠ .send p) →
      iterStep hashobj kernel w pos s.threads = some threads →
      Effect threadId hashobj kernel s (.worker w) ⟨s.control, threads, s.threadInterval⟩
  | send {w : Fin n} {it pos p : ℕ} {todo : List ℕ} {threads : Vertexlock.State K V D n}
      {control : Handshake.State n} :
      s.control.worker w = .loop it (pos :: todo) → s.threads.pc w = .send p →
      iterStep hashobj kernel w pos s.threads = some threads →
      Handshake.workerStep (fun _ => s.positions threadId) w (threads.output w).length s.control
        = some control →
      Effect threadId hashobj kernel s (.worker w) ⟨control, threads, s.threadInterval⟩
  | iterate {w : Fin n} {it : ℕ} {todo : List ℕ} {threads : Vertexlock.State K V D n} :
      s.control.worker w = .send it todo → s.threads.pc w ≠ .outside →
      (∀ kvpair rest, s.threads.pc w ≠ .apply kvpair rest) → s.threads.pc w ≠ .next [] →
      iterStep hashobj kernel w 0 s.threads = some threads →
      Effect threadId hashobj kernel s (.worker w) ⟨s.control, threads, s.threadInterval⟩
  | deliver {w : Fin n} {it : ℕ} {todo : List ℕ} {threads : Vertexlock.State K V D n}
      {control : Handshake.State n} :
      s.control.worker w = .send it todo →
      ((∃ kvpair rest, s.threads.pc w = .apply kvpair rest) ∨ s.threads.pc w = .next []) →
      iterStep hashobj kernel w 0 s.threads = some threads →
      Handshake.workerStep (fun _ => s.positions threadId) w (threads.output w).length s.control
        = some control →
      Effect threadId hashobj kernel s (.worker w) ⟨control, threads, s.threadInterval⟩

/-- The constructor of the iterator divides the buckets among the threads. -/
theorem schedStep_effect [DecidableEq V] (h : schedStep kernel s = some s') :
    Effect threadId hashobj kernel s .sched s' := by
  unfold schedStep at h
  obtain ⟨control, hcontrol, h⟩ := Option.bind_eq_some_iff.1 h
  split_ifs at h with hbuild
  · obtain ⟨⟨it, threadInterval⟩, hit, rfl⟩ := Option.map_eq_some_iff.1 h
    refine .sched hcontrol (Or.inr ⟨hbuild, ?_⟩)
    cases hnew : Iterator.new kernel [] s.threads.table s.threadInterval n false with
    | error f =>
      rw [hnew] at hit
      cases hit
    | ok r =>
      rw [hnew] at hit
      cases hit
      exact Iterator.new_spec hnew
  · cases h
    exact .sched hcontrol (Or.inl ⟨hbuild, rfl⟩)

theorem controlStep_effect {w : Fin n} (h : controlStep threadId w s = some s')
    (hpc : s.threads.pc w = .outside) (hskip : ∀ it pos todo,
      s.control.worker w = .loop it (pos :: todo) → s.threads.table.layout pos = none) :
    Effect threadId hashobj kernel s (.worker w) s' := by
  obtain ⟨control, hcontrol, rfl⟩ := Option.map_eq_some_iff.1 h
  exact .control hcontrol hpc hskip

theorem workerStep_effect {w : Fin n} (hsync : Synced (s.control.worker w) (s.threads.pc w))
    (h : workerStep threadId hashobj kernel w s = some s') :
    Effect threadId hashobj kernel s (.worker w) s' := by
  have hcontrol : s.threads.pc w = .outside → (∀ it pos todo,
      s.control.worker w ≠ .loop it (pos :: todo)) → controlStep threadId w s = some s' →
      Effect threadId hashobj kernel s (.worker w) s' := fun hpc hloop h =>
    controlStep_effect h hpc fun it pos todo heq => absurd heq (hloop it pos todo)
  unfold workerStep at h
  cases hw : s.control.worker w with
  | first it =>
    rw [hw] at hsync
    simp only [hw] at h
    split_ifs at h
    exact hcontrol hsync (by simp [hw]) h
  | loop it todo =>
    cases todo with
    | nil =>
      rw [hw] at hsync
      simp only [hw] at h
      exact hcontrol hsync (by simp [hw]) h
    | cons pos todo =>
      have henter : (∀ p, s.threads.pc w ≠ .send p) →
          iterateStep hashobj kernel w pos s = some s' →
          Effect threadId hashobj kernel s (.worker w) s' := by
        intro hne h
        obtain ⟨threads, hthreads, rfl⟩ := Option.map_eq_some_iff.1 h
        exact .enter hw hne hthreads
      cases hpc : s.threads.pc w <;> simp only [hw, hpc] at h
      case outside =>
        obtain ⟨c, hc, h⟩ := Option.bind_eq_some_iff.1 h
        split_ifs at h with hu
        · exact henter (by simp [hpc]) h
        · refine controlStep_effect h hpc fun it' pos' todo' heq => ?_
          rw [hw, Handshake.WorkerPc.loop.injEq, List.cons.injEq] at heq
          obtain ⟨-, rfl, -⟩ := heq
          exact StateTable.layout_eq_none_iff.2 fun c' hc' => by
            rw [hc, Option.some.injEq] at hc'
            rw [← hc']
            simpa using hu
      case send p =>
        obtain ⟨threads, hthreads, h⟩ := Option.bind_eq_some_iff.1 h
        obtain ⟨control, hctl, rfl⟩ := Option.map_eq_some_iff.1 h
        exact .send hw hpc hthreads hctl
      all_goals exact henter (by simp [hpc]) h
  | send it todo =>
    have hiterate : s.threads.pc w ≠ .outside → (∀ kvpair rest,
        s.threads.pc w ≠ .apply kvpair rest) → s.threads.pc w ≠ .next [] →
        iterateStep hashobj kernel w 0 s = some s' →
        Effect threadId hashobj kernel s (.worker w) s' := by
      intro hout happly hnext h
      obtain ⟨threads, hthreads, rfl⟩ := Option.map_eq_some_iff.1 h
      exact .iterate hw hout happly hnext hthreads
    have hdeliver : ((∃ kvpair rest, s.threads.pc w = .apply kvpair rest) ∨
        s.threads.pc w = .next []) → bothStep threadId hashobj kernel w 0 s = some s' →
        Effect threadId hashobj kernel s (.worker w) s' := by
      intro hpc h
      obtain ⟨threads, hthreads, h⟩ := Option.bind_eq_some_iff.1 h
      obtain ⟨control, hctl, rfl⟩ := Option.map_eq_some_iff.1 h
      exact .deliver hw hpc hthreads hctl
    cases hpc : s.threads.pc w <;> simp only [hw, hpc] at h
    case outside => exact hcontrol hpc (by simp [hw]) h
    case apply kvpair rest => exact hdeliver (Or.inl ⟨kvpair, rest, hpc⟩) h
    case next rest =>
      cases rest with
      | nil => exact hdeliver (Or.inr hpc) h
      | cons kvpair rest => exact hiterate (by simp [hpc]) (by simp [hpc]) (by simp [hpc]) h
    all_goals exact hiterate (by simp [hpc]) (by simp [hpc]) (by simp [hpc]) h
  | _ =>
    rw [hw] at hsync
    simp only [hw] at h
    exact hcontrol hsync (by simp [hw]) h

/-- **Every step** has one of these effects. -/
theorem step_effect [DecidableEq V] {a : Action n}
    (hsync : ∀ w, Synced (s.control.worker w) (s.threads.pc w))
    (h : Step threadId hashobj kernel s a s') : Effect threadId hashobj kernel s a s' := by
  cases a with
  | sched => exact schedStep_effect h
  | worker w => exact workerStep_effect (hsync w) h
  | terminate =>
    cases h
    exact .terminate

/-! ### The two models -/

/-- A step of the handshake, of the main thread included, or none. -/
theorem control_effect {a : Action n} (h : Effect threadId hashobj kernel s a s') :
    s'.control = s.control ∨ ∃ messages, Handshake.Step (fun _ => s.positions threadId) s.control
      (a.control messages) s'.control := by
  cases h with
  | sched hcontrol _ => exact Or.inr ⟨0, hcontrol⟩
  | terminate => exact Or.inr ⟨0, rfl⟩
  | control hcontrol _ _ => exact Or.inr ⟨0, hcontrol⟩
  | enter _ _ _ => exact Or.inl rfl
  | send _ _ _ hcontrol => exact Or.inr ⟨_, hcontrol⟩
  | iterate _ _ _ _ _ => exact Or.inl rfl
  | deliver _ _ _ hcontrol => exact Or.inr ⟨_, hcontrol⟩

/-- A statement of `run_iter`, or none. -/
theorem threads_effect {a : Action n} (hI : Vertexlock.Inv hashobj t₀ s.threads)
    (h : Effect threadId hashobj kernel s a s') :
    s'.threads = s.threads ∨ ∃ w, Vertexlock.Effect kernel s.threads w s'.threads := by
  cases h with
  | sched _ _ => exact Or.inl rfl
  | terminate => exact Or.inl rfl
  | control _ _ _ => exact Or.inl rfl
  | enter _ _ hthreads => exact Or.inr ⟨_, Vertexlock.iterStep_effect hI hthreads⟩
  | send _ _ hthreads _ => exact Or.inr ⟨_, Vertexlock.iterStep_effect hI hthreads⟩
  | iterate _ _ _ _ hthreads => exact Or.inr ⟨_, Vertexlock.iterStep_effect hI hthreads⟩
  | deliver _ _ hthreads _ => exact Or.inr ⟨_, Vertexlock.iterStep_effect hI hthreads⟩

end SecondPhase

end Maiter
