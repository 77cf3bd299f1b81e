import Maiter.SecondPhase.Basic

/-!
# The two models of a thread agree

* `Agrees`: a thread is at the same place in both models, and the handshake counts the messages
  that it has left to deliver;
* `Inv`, `inv_effect`, `inv_reaches`: that and the invariants of both models hold in every
  reachable state, the graph stays where it is, and `thread_interval` holds the pieces that
  `divide` cuts;
* `positions_eq`: what a thread walks once an iterator is built.
-/

namespace Maiter

open Vertexlock (IterPc iterStep BuffersEmpty)

variable {K V D : Type} [DecidableEq K] {n : ℕ}

/-! ### Steps of the handshake -/

namespace Handshake

variable {interval interval' : ℕ → Fin n → List ℕ} {s t : State n}

/-- The intervals matter only to a worker that asks for its own. -/
theorem step_congr {a : Action n} (hint : ∀ w it, s.worker w = .first it →
    interval s.built w = interval' s.built w) (h : Step interval s a t) : Step interval' s a t := by
  cases a with
  | sched => exact h
  | terminate => exact h
  | worker w m =>
    cases hw : s.worker w <;> simp only [Step, step, workerStep, hw] at h ⊢
    case first it =>
      rw [← hint w it hw]
      exact h
    case loop it todo => cases todo <;> exact h
    all_goals exact h

/-- Only the broadcast moves the workers. -/
theorem schedStep_frame (h : schedStep s = some t) : t.output = s.output ∧
    (s.sched = .broadcast ∨ t.worker = s.worker ∧ t.round = s.round) := by
  unfold schedStep at h
  cases hs : s.sched <;> simp only [hs] at h
  case lock | lockSched | woken | lastLock =>
    split_ifs at h
    cases h
    exact ⟨rfl, Or.inr ⟨rfl, rfl⟩⟩
  case waiting | exited => cases h
  case broadcast =>
    cases h
    exact ⟨rfl, Or.inl rfl⟩
  all_goals
    cases h
    exact ⟨rfl, Or.inr ⟨rfl, rfl⟩⟩

theorem schedStep_broadcast (hs : s.sched = .broadcast) (h : schedStep s = some t) :
    t = { s with sched := .lockSched, round := s.round + 1, worker := fun w =>
      if s.worker w = .waiting then .woken else s.worker w } := by
  simp only [schedStep, hs] at h
  exact (Option.some.inj h).symm

/-- How a worker gets to the loop over the output buffer, or stays there. -/
theorem workerStep_send {w : Fin n} {m it : ℕ} {todo : List ℕ}
    (h : workerStep interval w m s = some t) (ht : t.worker w = .send it todo) :
    (∃ pos, s.worker w = .loop it (pos :: todo)) ∧ t.output w = m ∨
      s.worker w = .send it todo ∧ s.output w = t.output w + 1 := by
  unfold workerStep at h
  cases hpc : s.worker w <;> simp only [hpc] at h
  case waiting | atBarrier | exited => cases h
  case lock | woken | first =>
    split_ifs at h
    cases h
    simp at ht
  case barrier => split_ifs at h <;> cases h <;> simp at ht
  case read =>
    cases h
    cases hit : s.it2 <;> simp [hit] at ht
  case loop it' todo' =>
    cases todo' <;> cases h <;> simp at ht
    obtain ⟨rfl, rfl⟩ := ht
    exact Or.inl ⟨⟨_, rfl⟩, Function.update_self ..⟩
  case send it' todo' =>
    cases hout : s.output w <;> simp only [hout] at h <;> cases h
    · simp at ht
    · simp only [hpc] at ht
      exact Or.inr ⟨ht, by simp⟩
  all_goals
    cases h
    simp at ht

/-- A worker outside the round stays there until it is woken. -/
theorem workerStep_outside {w : Fin n} {m : ℕ} (h : workerStep interval w m s = some t)
    (hw : (s.worker w).outside = true) : (t.worker w).outside = true := by
  unfold workerStep at h
  cases hpc : s.worker w <;> simp only [hpc] at h hw
  case lock =>
    split_ifs at h
    cases h
    simp [WorkerPc.outside]
  case count | wait | signal =>
    cases h
    simp [WorkerPc.outside]
  case waiting => cases h
  all_goals cases hw

end Handshake

/-! ### Statements of `run_iter` -/

namespace Vertexlock

variable [Zero V] {hashobj : K → ℕ} {kernel : IterateKernel K V D} {s s' : State K V D n}
  {w : Fin n}

/-- A statement of thread `w` moves no other thread. -/
theorem Effect.other (h : Effect kernel s w s') {w' : Fin n} (hw : w' ≠ w) :
    s'.pc w' = s.pc w' ∧ s'.output w' = s.output w' := by
  cases h <;> simp [State.goto, hw]

/-- No statement moves an entry to another bucket. -/
theorem Effect.table (h : Effect kernel s w s') : s'.table.layout = s.table.layout ∧
    s'.table.buckets.length = s.table.buckets.length := by
  have hrewrite : ∀ k (f : Bucket K V D → Bucket K V D), StateTable.KeepsKey f →
      (s.table.rewriteAt k f).layout = s.table.layout ∧
        (s.table.rewriteAt k f).buckets.length = s.table.buckets.length := fun k f hf =>
    ⟨StateTable.layout_rewriteAt hf k, by simp [StateTable.rewriteAt]⟩
  cases h with
  | accumulate _ _ => exact hrewrite _ _ (Engine.keepsKey_accumulated kernel)
  | reset _ _ => exact hrewrite _ _ (Engine.keepsKey_cleared kernel)
  | apply _ _ => exact hrewrite _ _ (Engine.keepsKey_received kernel _)
  | _ => exact ⟨rfl, rfl⟩

end Vertexlock

namespace SecondPhase

variable [Zero V] {threadId : Fin n → ℕ} {hashobj : K → ℕ} {kernel : IterateKernel K V D}
  {t₀ : StateTable K V D} {s s' : State K V D n}

/-! ### A thread in both models -/

/-- The thread `w` is at the same place in both models, and its messages are counted. -/
structure Agrees (kernel : IterateKernel K V D) (s : State K V D n) (w : Fin n) : Prop where
  synced : Synced (s.control.worker w) (s.threads.pc w)
  counted : ∀ it todo, s.control.worker w = .send it todo → s.control.output w
    = ((s.threads.pc w).pending kernel s.threads.table (s.threads.output w)).length

omit [DecidableEq K] [Zero V] in
/-- A thread outside the round is not in `run_iter`. -/
theorem Agrees.outside {w : Fin n} (h : Agrees kernel s w)
    (hw : (s.control.worker w).outside = true) : s.threads.pc w = .outside := by
  have hsync := h.synced
  cases hpc : s.control.worker w <;> rw [hpc] at hsync hw <;> first | exact hsync | cases hw

omit [DecidableEq K] [Zero V] in
/-- A step of another thread, or of the scheduler. -/
theorem Agrees.frame {w : Fin n} (h : Agrees kernel s w)
    (hpc : s'.threads.pc w = s.threads.pc w) (hout : s'.threads.output w = s.threads.output w)
    (hcount : s'.control.output w = s.control.output w)
    (hworker : s'.control.worker w = s.control.worker w ∨
      s.threads.pc w = .outside ∧ ∀ it todo, s'.control.worker w ≠ .send it todo) :
    Agrees kernel s' w := by
  obtain ⟨hsync, hcounted⟩ := h
  rcases hworker with hworker | ⟨hpc', hne⟩
  · refine ⟨by rw [hworker, hpc]; exact hsync, fun it todo hw => ?_⟩
    rw [hworker] at hw
    rw [hcount, hpc, hout, hcounted it todo hw]
    refine congrArg List.length (Vertexlock.pending_frame fun pos hsend => ?_).symm
    rw [hw, hsend] at hsync
    simp [Synced, IterPc.beforeSend] at hsync
  · exact ⟨by rw [hpc, hpc']; exact synced_outside _, fun it todo hw => absurd hw (hne it todo)⟩

omit [DecidableEq K] [Zero V] in
/-- The threads that do not move in a step of thread `w`. -/
theorem agrees_other (s' : State K V D n) {interval : ℕ → Fin n → List ℕ} {w : Fin n} {m : ℕ}
    (hagree : ∀ w, Agrees kernel s w)
    (hcontrol : Handshake.workerStep interval w m s.control = some s'.control)
    (hthreads : ∀ w', w' ≠ w → s'.threads.pc w' = s.threads.pc w' ∧
      s'.threads.output w' = s.threads.output w')
    (hw : Agrees kernel s' w) (w' : Fin n) : Agrees kernel s' w' := by
  by_cases hne : w' = w
  · rw [hne]
    exact hw
  · obtain ⟨hpc, hout⟩ := hthreads w' hne
    obtain ⟨hcount, hworker⟩ := Handshake.workerStep_other hcontrol hne
    refine (hagree w').frame hpc hout hcount (hworker.imp_right ?_)
    rintro ⟨-, hat, hsignal⟩
    have hsync := (hagree w').synced
    rw [hat] at hsync
    exact ⟨hsync, fun it todo h => by simp [hsignal] at h⟩

/-- The thread enters `run_iter`, or moves in front of `g_func`. -/
theorem agrees_enter {w : Fin n} {it pos : ℕ} {todo : List ℕ} {threads : Vertexlock.State K V D n}
    (hI : Vertexlock.Inv hashobj t₀ s.threads) (hagree : Agrees kernel s w)
    (hw : s.control.worker w = .loop it (pos :: todo)) (hsend : ∀ p, s.threads.pc w ≠ .send p)
    (hthreads : iterStep hashobj kernel w pos s.threads = some threads) :
    Agrees kernel { s with threads := threads } w := by
  refine ⟨?_, fun it' todo' h => by simp [hw] at h⟩
  have hsync := hagree.synced
  simp only [hw, Synced] at hsync ⊢
  rcases hsync with hout | ⟨hpos, hbefore⟩
  · -- the position is the one that `run_loop` is at
    simp only [iterStep, hout] at hthreads
    obtain ⟨c, hc, hthreads⟩ := Option.bind_eq_some_iff.1 hthreads
    split_ifs at hthreads
    cases hthreads
    simp [Vertexlock.State.goto, IterPc.pos, IterPc.beforeSend]
  · have heffect := Vertexlock.iterStep_effect hI hthreads
    cases heffect with
    | enter hpc hk => simp [hpc, IterPc.pos] at hpos
    | send hpc hk hc => exact absurd hpc (hsend _)
    | lock hpc hk hfree | process hpc | accumulate hpc hk =>
      rw [hpc] at hpos
      exact Or.inr ⟨by simpa [Vertexlock.State.goto, IterPc.pos] using hpos,
        by simp [Vertexlock.State.goto, IterPc.beforeSend]⟩
    | leave hpc | next hpc | reset hpc hk | unlock hpc hk | lockTarget hpc hfree | apply hpc hk
    | unlockTarget hpc => simp [hpc, IterPc.beforeSend] at hbefore

/-- The thread moves in the loop over the output buffer, and delivers nothing. -/
theorem agrees_iterate {w : Fin n} {it : ℕ} {todo : List ℕ} {threads : Vertexlock.State K V D n}
    (hI : Vertexlock.Inv hashobj t₀ s.threads) (hagree : Agrees kernel s w)
    (hw : s.control.worker w = .send it todo) (hout : s.threads.pc w ≠ .outside)
    (happly : ∀ kvpair rest, s.threads.pc w ≠ .apply kvpair rest)
    (hnext : s.threads.pc w ≠ .next [])
    (hthreads : iterStep hashobj kernel w 0 s.threads = some threads) :
    Agrees kernel { s with threads := threads } w := by
  have hsync := hagree.synced
  have hcount := hagree.counted it todo hw
  simp only [hw, Synced] at hsync
  have hbefore := hsync.resolve_left hout
  have heffect := Vertexlock.iterStep_effect hI hthreads
  cases heffect with
  | enter hpc hk => exact absurd hpc hout
  | leave hpc => exact absurd hpc hnext
  | apply hpc hk => exact absurd hpc (happly _ _)
  | lock hpc hk hfree | process hpc | accumulate hpc hk | send hpc hk hc =>
    simp [hpc, IterPc.beforeSend] at hbefore
  | reset hpc hk | unlock hpc hk | next hpc | lockTarget hpc hfree | unlockTarget hpc =>
    rw [hpc] at hcount
    refine ⟨by simp [hw, Synced, Vertexlock.State.goto, IterPc.beforeSend], fun it' todo' _ => ?_⟩
    simpa [Vertexlock.State.goto, IterPc.pending] using hcount

/-- The thread has called `g_func`: the handshake counts the messages that it sent. -/
theorem agrees_send {w : Fin n} {it pos p : ℕ} {todo : List ℕ}
    {threads : Vertexlock.State K V D n} {control : Handshake.State n}
    {interval : ℕ → Fin n → List ℕ} (hI : Vertexlock.Inv hashobj t₀ s.threads)
    (hw : s.control.worker w = .loop it (pos :: todo)) (hpc : s.threads.pc w = .send p)
    (hthreads : iterStep hashobj kernel w pos s.threads = some threads)
    (hcontrol : Handshake.workerStep interval w (threads.output w).length s.control
      = some control) :
    Agrees kernel ⟨control, threads, s.threadInterval⟩ w := by
  simp only [Handshake.workerStep, hw, Option.some.injEq] at hcontrol
  subst hcontrol
  have heffect := Vertexlock.iterStep_effect hI hthreads
  cases heffect with
  | send hpc' hk hc =>
    exact ⟨by simp [Synced, Vertexlock.State.goto, IterPc.beforeSend], fun _ _ _ => by
      simp [Vertexlock.State.goto, IterPc.pending]⟩
  | _ hpc' => rw [hpc] at hpc'; cases hpc'

/-- The thread delivers a message, or leaves `run_iter` after the last one. -/
theorem agrees_deliver {w : Fin n} {it : ℕ} {todo : List ℕ} {m : ℕ}
    {threads : Vertexlock.State K V D n} {control : Handshake.State n}
    {interval : ℕ → Fin n → List ℕ} (hI : Vertexlock.Inv hashobj t₀ s.threads)
    (hagree : Agrees kernel s w) (hw : s.control.worker w = .send it todo)
    (hpc : (∃ kvpair rest, s.threads.pc w = .apply kvpair rest) ∨ s.threads.pc w = .next [])
    (hthreads : iterStep hashobj kernel w 0 s.threads = some threads)
    (hcontrol : Handshake.workerStep interval w m s.control = some control) :
    Agrees kernel ⟨control, threads, s.threadInterval⟩ w := by
  have hcount := hagree.counted it todo hw
  have heffect := Vertexlock.iterStep_effect hI hthreads
  rcases hpc with ⟨kvpair, rest, hpc⟩ | hpc
  · rw [hpc] at hcount
    have hcount' : s.control.output w = rest.length + 1 := hcount
    simp only [Handshake.workerStep, hw, hcount', Option.some.injEq] at hcontrol
    subst hcontrol
    cases heffect with
    | apply hpc' hk =>
      rw [hpc] at hpc'
      cases hpc'
      exact ⟨by simp [hw, Synced, Vertexlock.State.goto, IterPc.beforeSend], fun _ _ _ => by
        simp [Vertexlock.State.goto, IterPc.pending]⟩
    | _ hpc' => rw [hpc] at hpc'; cases hpc'
  · rw [hpc] at hcount
    have hcount' : s.control.output w = 0 := hcount
    simp only [Handshake.workerStep, hw, hcount', Option.some.injEq] at hcontrol
    subst hcontrol
    cases heffect with
    | leave hpc' =>
      exact ⟨by simp [Vertexlock.State.goto], fun _ _ h => by simp at h⟩
    | _ hpc' => rw [hpc] at hpc'; cases hpc'

omit [DecidableEq K] [Zero V] in
/-- A thread outside `run_iter` moves: it has nothing to deliver. -/
theorem agrees_control {w : Fin n} {control : Handshake.State n} {interval : ℕ → Fin n → List ℕ}
    (hagree : Agrees kernel s w) (hpc : s.threads.pc w = .outside)
    (hcontrol : Handshake.workerStep interval w 0 s.control = some control) :
    Agrees kernel { s with control := control } w := by
  refine ⟨by rw [hpc]; exact synced_outside _, fun it todo hw => ?_⟩
  show control.output w = _
  rw [hpc]
  rcases Handshake.workerStep_send hcontrol hw with ⟨-, hzero⟩ | ⟨hsend, hleft⟩
  · exact hzero
  · have hcount := hagree.counted it todo hsend
    rw [hpc, IterPc.pending, List.length_nil] at hcount
    omega

/-- **Both models of every thread agree** after every step. -/
theorem agrees_effect (hI : Vertexlock.Inv hashobj t₀ s.threads) (hagree : ∀ w, Agrees kernel s w)
    {a : Action n} (h : Effect threadId hashobj kernel s a s') (w : Fin n) :
    Agrees kernel s' w := by
  have hother : ∀ {w : Fin n} {pos : ℕ} {threads : Vertexlock.State K V D n},
      iterStep hashobj kernel w pos s.threads = some threads → ∀ w', w' ≠ w →
        threads.pc w' = s.threads.pc w' ∧ threads.output w' = s.threads.output w' :=
    fun hthreads w' hne => (Vertexlock.iterStep_effect hI hthreads).other hne
  have henter : ∀ {w : Fin n} {pos : ℕ} {threads : Vertexlock.State K V D n},
      iterStep hashobj kernel w pos s.threads = some threads →
      Agrees kernel { s with threads := threads } w →
      ∀ w', Agrees kernel { s with threads := threads } w' := by
    intro w pos threads hthreads hw w'
    by_cases hne : w' = w
    · rw [hne]
      exact hw
    · obtain ⟨hpc, hout⟩ := hother hthreads w' hne
      exact (hagree w').frame hpc hout rfl (Or.inl rfl)
  cases h with
  | @sched control threadInterval hcontrol _ =>
    obtain ⟨hcount, hbroadcast | ⟨hworker, -⟩⟩ := Handshake.schedStep_frame hcontrol
    · have hstep := Handshake.schedStep_broadcast hbroadcast hcontrol
      refine (hagree w).frame rfl rfl (congrFun hcount w) ?_
      by_cases hwait : s.control.worker w = .waiting
      · have hsync := (hagree w).synced
        rw [hwait] at hsync
        exact Or.inr ⟨hsync, fun it todo h => by simp [hstep, hwait] at h⟩
      · exact Or.inl (by simp [hstep, hwait])
    · exact (hagree w).frame rfl rfl (congrFun hcount w) (Or.inl (congrFun hworker w))
  | terminate => exact (hagree w).frame rfl rfl rfl (Or.inl rfl)
  | @control w₀ control hcontrol hpc _ =>
    exact agrees_other { s with control := control } hagree hcontrol
      (fun _ _ => ⟨rfl, rfl⟩) (agrees_control (hagree w₀) hpc hcontrol) w
  | @enter w₀ it pos todo threads hw hsend hthreads =>
    exact henter hthreads (agrees_enter hI (hagree w₀) hw hsend hthreads) w
  | @send w₀ it pos p todo threads control hw hpc hthreads hcontrol =>
    exact agrees_other ⟨control, threads, s.threadInterval⟩ hagree hcontrol
      (hother hthreads) (agrees_send hI hw hpc hthreads hcontrol) w
  | @iterate w₀ it todo threads hw hout happly hnext hthreads =>
    exact henter hthreads (agrees_iterate hI (hagree w₀) hw hout happly hnext hthreads) w
  | @deliver w₀ it todo threads control hw hpc hthreads hcontrol =>
    exact agrees_other ⟨control, threads, s.threadInterval⟩ hagree hcontrol
      (hother hthreads) (agrees_deliver hI (hagree w₀) hw hpc hthreads hcontrol) w

/-! ### The intervals -/

omit [DecidableEq K] [Zero V] in
/-- What a thread finds in `thread_interval` when the constructor has divided the buckets. -/
theorem find_piece (hid : Function.Injective threadId) {count : ℕ} {l : List KVVPair}
    (hl : l.map (·.threadId) = List.ofFn threadId) (hs : s.threadInterval = divide n count l)
    (w : Fin n) : threadBegin s.threadInterval (threadId w) = ↑(count / n * w) ∧
      threadEnd s.threadInterval (threadId w)
        = ↑(count / n * w) + ↑(chunk n count w).length - 1 := by
  have hlen : l.length = n := by simpa using congrArg List.length hl
  have hw : (w : ℕ) < l.length := hlen ▸ w.isLt
  have hnodup : (l.map (·.threadId)).Nodup := by
    rw [hl]
    exact List.nodup_ofFn.2 hid
  have hidw : l[(w : ℕ)].threadId = threadId w := by
    have hget := congrArg (fun l => l[(w : ℕ)]?) hl
    simpa [List.getElem?_eq_getElem hw] using hget
  have hpiece : ∀ {n i : ℕ}, l.length = n → i < n → ∃ iv, (divide n count l)[i]? = some iv ∧
      iv.intervalFirst = ↑(count / n * i) ∧
      iv.intervalLast = ↑(count / n * i) + ↑(chunk n count i).length - 1 := by
    rintro n i rfl hi
    exact ⟨_, getElem?_divide hi, rfl, rfl⟩
  obtain ⟨iv, hiv, hfirst, hlast⟩ := hpiece hlen w.isLt
  have hfind := find_divide n count hnodup hw
  rw [hidw, hiv] at hfind
  unfold threadBegin threadEnd
  rw [hs, hfind]
  exact ⟨hfirst, hlast⟩

omit [DecidableEq K] [Zero V] in
/-- It walks its piece of the buckets. -/
theorem positions_eq (hid : Function.Injective threadId) {count : ℕ} {l : List KVVPair}
    (hl : l.map (·.threadId) = List.ofFn threadId) (hs : s.threadInterval = divide n count l)
    (w : Fin n) : s.positions threadId w = chunk n count w := by
  obtain ⟨hfirst, hlast⟩ := find_piece hid hl hs w
  unfold State.positions
  rw [hfirst, hlast]
  dsimp only
  conv_rhs => rw [chunk_eq_range']
  congr 1
  omega

omit [DecidableEq K] [Zero V] in
/-- It has no position if and only if one of its bounds is `-1`. -/
theorem positions_eq_nil_iff (hid : Function.Injective threadId) {count : ℕ} {l : List KVVPair}
    (hl : l.map (·.threadId) = List.ofFn threadId) (hs : s.threadInterval = divide n count l)
    (w : Fin n) : s.positions threadId w = [] ↔
      threadBegin s.threadInterval (threadId w) = -1 ∨
        threadEnd s.threadInterval (threadId w) = -1 := by
  have hle : count / n * (w + 1) ≤ count :=
    (Nat.mul_le_mul_left _ w.isLt).trans (Nat.div_mul_le_self _ n)
  have hzero : (chunk n count w).length = 0 → count / n * w = 0 := by
    rw [Nat.mul_succ] at hle
    rw [chunk, List.length_range']
    intro hlen
    rcases Nat.eq_zero_or_pos (count / n) with hq | hq
    · rw [hq, Nat.zero_mul]
    · split_ifs at hlen <;> omega
  obtain ⟨hfirst, hlast⟩ := find_piece hid hl hs w
  rw [positions_eq hid hl hs w, ← List.length_eq_zero_iff, hfirst, hlast]
  omega

/-- Only the constructor of an iterator writes `thread_interval`. -/
theorem threadInterval_effect {a : Action n} (h : Effect threadId hashobj kernel s a s') :
    s'.threadInterval = s.threadInterval ∧ s'.control.built = s.control.built ∨
      s'.threadInterval = divide n s.threads.table.buckets.length s.threadInterval := by
  cases h with
  | sched hcontrol hinterval =>
    rcases hinterval with ⟨hbuild, rfl⟩ | ⟨-, rfl⟩
    · exact Or.inl ⟨rfl, Handshake.schedStep_built hcontrol hbuild⟩
    · exact Or.inr rfl
  | terminate => exact Or.inl ⟨rfl, rfl⟩
  | control hcontrol _ _ =>
    exact Or.inl ⟨rfl, (Handshake.workerStep_frame hcontrol).2.2.1⟩
  | enter _ _ _ => exact Or.inl ⟨rfl, rfl⟩
  | send _ _ _ hcontrol =>
    exact Or.inl ⟨rfl, (Handshake.workerStep_frame hcontrol).2.2.1⟩
  | iterate _ _ _ _ _ => exact Or.inl ⟨rfl, rfl⟩
  | deliver _ _ _ hcontrol =>
    exact Or.inl ⟨rfl, (Handshake.workerStep_frame hcontrol).2.2.1⟩

/-! ### The invariant -/

/-- The invariant of the second phase that began with the table `t₀`. -/
structure Inv (threadId : Fin n → ℕ) (hashobj : K → ℕ) (kernel : IterateKernel K V D)
    (t₀ : StateTable K V D) (s : State K V D n) : Prop where
  control : Handshake.Inv (fun _ w => chunk n t₀.buckets.length w) s.control
  threads : Vertexlock.Inv hashobj t₀ s.threads
  buffers : BuffersEmpty s.threads
  agrees : ∀ w, Agrees kernel s w
  layout : s.threads.table.layout = t₀.layout
  length : s.threads.table.buckets.length = t₀.buckets.length
  threadIds : s.threadInterval.map (·.threadId) = List.ofFn threadId
  divided : s.control.built ≠ 0 → ∃ l, l.map (·.threadId) = List.ofFn threadId ∧
    s.threadInterval = divide n t₀.buckets.length l

omit [Zero V] in
theorem inv_start [Inhabited (Bucket K V D)] (hload : Loaded hashobj kernel t₀) :
    Inv threadId hashobj kernel t₀ (start threadId t₀) where
  control := Handshake.inv_start
  threads := Vertexlock.inv_start hload
  buffers _ _ := rfl
  agrees _ := ⟨rfl, fun _ _ h => by cases h⟩
  layout := rfl
  length := rfl
  threadIds := by simp [start, List.map_ofFn, Function.comp_def]
  divided h := absurd rfl h

omit [Zero V] in
/-- A thread that asks for its interval is in a round, so that an iterator is built. -/
theorem Inv.divided_of_first (hI : Inv threadId hashobj kernel t₀ s) {w : Fin n} {it : ℕ}
    (hw : s.control.worker w = .first it) : ∃ l, l.map (·.threadId) = List.ofFn threadId ∧
      s.threadInterval = divide n t₀.buckets.length l := by
  have hbuilt := hI.control.built_of_inRound (w := w) (by rw [hw]; rfl)
  have hwalked := hI.control.walked w
  rw [hw] at hwalked
  obtain ⟨-, -, r, hround, -⟩ := hwalked
  exact hI.divided (by omega)

omit [Zero V] in
/-- It gets its piece of the buckets. -/
theorem Inv.positions_eq (hI : Inv threadId hashobj kernel t₀ s)
    (hid : Function.Injective threadId) {w : Fin n} {it : ℕ}
    (hw : s.control.worker w = .first it) :
    s.positions threadId w = chunk n t₀.buckets.length w := by
  obtain ⟨l, hl, hs⟩ := hI.divided_of_first hw
  exact SecondPhase.positions_eq hid hl hs w

/-- A step of the handshake with the pieces of the threads as intervals, or none. -/
theorem Inv.control_effect (hI : Inv threadId hashobj kernel t₀ s)
    (hid : Function.Injective threadId) {a : Action n}
    (h : Effect threadId hashobj kernel s a s') : s'.control = s.control ∨ ∃ messages,
      Handshake.Step (fun _ w => chunk n t₀.buckets.length w) s.control (a.control messages)
        s'.control := by
  rcases SecondPhase.control_effect h with heq | ⟨messages, hstep⟩
  · exact Or.inl heq
  · exact Or.inr ⟨messages, Handshake.step_congr (fun w it hw => hI.positions_eq hid hw) hstep⟩

theorem inv_effect (hid : Function.Injective threadId) (hI : Inv threadId hashobj kernel t₀ s)
    {a : Action n} (h : Effect threadId hashobj kernel s a s') :
    Inv threadId hashobj kernel t₀ s' := by
  have hthreads : Vertexlock.Inv hashobj t₀ s'.threads ∧ BuffersEmpty s'.threads ∧
      s'.threads.table.layout = t₀.layout ∧
      s'.threads.table.buckets.length = t₀.buckets.length := by
    rcases threads_effect hI.threads h with heq | ⟨w, heffect⟩
    · rw [heq]
      exact ⟨hI.threads, hI.buffers, hI.layout, hI.length⟩
    · obtain ⟨hlay, hlen⟩ := heffect.table
      exact ⟨Vertexlock.inv_effect hI.threads heffect,
        Vertexlock.buffersEmpty_effect heffect hI.buffers, hlay.trans hI.layout,
        hlen.trans hI.length⟩
  obtain ⟨hinv, hbuf, hlay, hlen⟩ := hthreads
  refine ⟨?_, hinv, hbuf, agrees_effect hI.threads hI.agrees h, hlay, hlen, ?_, ?_⟩
  · rcases hI.control_effect hid h with heq | ⟨a, hstep⟩
    · rw [heq]
      exact hI.control
    · exact Handshake.inv_step hI.control hstep
  · rcases threadInterval_effect h with ⟨heq, -⟩ | heq
    · rw [heq]
      exact hI.threadIds
    · rw [heq, ← hI.threadIds]
      refine List.ext_getElem (by simp [divide]) fun i h₁ h₂ => ?_
      have hi : i < s.threadInterval.length := by simpa using h₂
      rw [List.getElem_map, List.getElem_map]
      exact threadId_divide hi _
  · intro hbuilt
    rcases threadInterval_effect h with ⟨heq, hsame⟩ | heq
    · rw [heq]
      exact hI.divided (by rwa [← hsame])
    · exact ⟨s.threadInterval, hI.threadIds, by rw [heq, hI.length]⟩

variable [DecidableEq V] [Inhabited (Bucket K V D)]

/-- **Every reachable state** keeps the invariant, and every step from it has its effect. -/
theorem inv_reaches (hid : Function.Injective threadId) (hload : Loaded hashobj kernel t₀)
    (h : Reaches threadId hashobj kernel (start threadId t₀) s) :
    Inv threadId hashobj kernel t₀ s :=
  h.invariant (fun _ _ _ hI hstep =>
    inv_effect hid hI (step_effect (fun w => (hI.agrees w).synced) hstep)) (inv_start hload)

/-- **The handshake** runs as if the threads did nothing in their intervals. -/
theorem control_reaches (hid : Function.Injective threadId) (hload : Loaded hashobj kernel t₀)
    (h : Reaches threadId hashobj kernel (start threadId t₀) s) :
    LTS.Reaches (Handshake.Step fun _ w => chunk n t₀.buckets.length w) Handshake.start
      s.control := by
  refine h.simulation (f := State.control) (I := Inv threadId hashobj kernel t₀) ?_ ?_
    (inv_start hload)
  · exact fun s a s' hI hstep =>
      inv_effect hid hI (step_effect (fun w => (hI.agrees w).synced) hstep)
  · intro s a s' hI hstep
    refine (hI.control_effect hid (step_effect (fun w => (hI.agrees w).synced) hstep)).imp_right ?_
    exact fun ⟨messages, hcontrol⟩ => ⟨_, hcontrol⟩

/-- **The threads** in `run_iter` run as if nothing divided the buckets among them. -/
theorem threads_reaches (hid : Function.Injective threadId) (hload : Loaded hashobj kernel t₀)
    (h : Reaches threadId hashobj kernel (start threadId t₀) s) :
    Vertexlock.Reaches hashobj kernel (Vertexlock.start t₀) s.threads := by
  refine h.simulation (f := State.threads) (I := Inv threadId hashobj kernel t₀) ?_ ?_
    (inv_start hload)
  · exact fun s a s' hI hstep =>
      inv_effect hid hI (step_effect (fun w => (hI.agrees w).synced) hstep)
  · intro s a s' hI hstep
    refine (threads_effect hI.threads (step_effect (fun w => (hI.agrees w).synced) hstep)).imp_right
      fun ⟨w, heffect⟩ => ?_
    obtain ⟨pos, hpos⟩ := Vertexlock.exists_step_of_effect hI.threads heffect
    exact ⟨(w, pos), hpos⟩

end SecondPhase

end Maiter
