import Maiter.Engine.RunIter

/-!
# `run_iter` statement by statement

The threads lock the mutex of a vertex while they are in a critical section on it, so that sections
on different vertices interleave.  `Engine.Step` takes a critical section as one step; here every
call in it is a step.

* `IterPc`, `State`, `iterStep`, `Step`: the program points of `run_iter`, the table with the
  mutexes, the next statement of a thread;
* `IterPc.inSection`: the vertex whose critical section a thread is in;
* `Inv`: a thread in a critical section holds the mutex of its vertex, and the graph does not
  change;
* `Effect`, `iterStep_effect`, `exists_step_of_effect`: what a step does in such a state;
* `inv_effect`: it keeps the invariant;
* `reaches_invariant`: what every effect preserves holds in every reachable state.
-/

namespace Maiter

open StateTable (KeepsKey WF)
open Engine (accumulated cleared keepsKey_accumulated keepsKey_cleared accumulateF2_eq
  accumulateF1_eq updateF1_eq)

variable {K V D : Type} [DecidableEq K] {n : ℕ}

namespace Vertexlock

/-- The next statement of `run_iter`.  Its references point into the bucket `pos`; `kvpair` is the
message at `iter`, `rest` are those after it. -/
inductive IterPc (K V : Type)
  /-- between two calls of `run_iter` -/
  | outside
  /-- `vertexlock->lock(k)` -/
  | lock (pos : ℕ)
  /-- `process_delta_v(k, v1, v2, v3)` -/
  | process (pos : ℕ)
  /-- `accumulateF2(k, v1)` -/
  | accumulate (pos : ℕ)
  /-- `g_func(k, v1, v2, v3, output)` -/
  | send (pos : ℕ)
  /-- `updateF1(k, default_v())` -/
  | reset (pos : ℕ)
  /-- `vertexlock->unlock(k)` -/
  | unlock (pos : ℕ)
  /-- `iter != output->end()`, and `output->clear()` after the loop -/
  | next (rest : List (K × V))
  /-- `vertexlock->lock(kvpair.first)` -/
  | lockTarget (kvpair : K × V) (rest : List (K × V))
  /-- `accumulateF1(kvpair.first, kvpair.second)` -/
  | apply (kvpair : K × V) (rest : List (K × V))
  /-- `vertexlock->unlock(kvpair.first)` -/
  | unlockTarget (kvpair : K × V) (rest : List (K × V))
  deriving DecidableEq, Repr

/-- The table, and each thread with its output buffer; `mutex k` is the thread that holds the mutex
of the vertex `k`. -/
structure State (K V D : Type) (n : ℕ) where
  table : StateTable K V D
  pc : Fin n → IterPc K V
  output : Fin n → List (K × V)
  mutex : K → Option (Fin n)

/-- The state when the execute threads are created. -/
def start (t : StateTable K V D) : State K V D n :=
  ⟨t, fun _ => .outside, fun _ => [], fun _ => none⟩

section Defs

variable [Zero V] (hashobj : K → ℕ) (kernel : IterateKernel K V D)

/-- The state after thread `w` has gone to `pc`. -/
def State.goto (s : State K V D n) (w : Fin n) (pc : IterPc K V) : State K V D n :=
  { s with pc := Function.update s.pc w pc }

/-- The next statement of thread `w`; between two calls it enters `run_iter` on the bucket `pos`.
There is no next state where it waits for a mutex, and where a call on the table fails. -/
def iterStep (w : Fin n) (pos : ℕ) (s : State K V D n) : Option (State K V D n) :=
  match s.pc w with
  | .outside => (s.table.buckets[pos]?).bind fun c =>
      if c.inUse then some (s.goto w (.lock pos)) else none
  | .lock pos => (s.table.buckets[pos]?).bind fun c =>
      if s.mutex c.k = none then
        some { s.goto w (.process pos) with mutex := Function.update s.mutex c.k (some w) }
      else none
  | .process pos => some { s.goto w (.accumulate pos) with
      table := { s.table with buckets := s.table.buckets.modify pos (Engine.processed kernel) } }
  | .accumulate pos => (s.table.buckets[pos]?).bind fun c =>
      (s.table.accumulateF2 hashobj kernel c.k c.v1).toOption.map fun t =>
        { s.goto w (.send pos) with table := t }
  | .send pos => (s.table.buckets[pos]?).map fun c => { s.goto w (.reset pos) with
      output := Function.update s.output w (s.output w ++ kernel.gFunc c.k c.v1 c.v2 c.v3) }
  | .reset pos => (s.table.buckets[pos]?).bind fun c =>
      (s.table.updateF1 hashobj c.k kernel.defaultV).toOption.map fun t =>
        { s.goto w (.unlock pos) with table := t }
  | .unlock pos => (s.table.buckets[pos]?).map fun c => { s.goto w (.next (s.output w)) with
      mutex := Function.update s.mutex c.k none }
  | .next [] => some { s.goto w .outside with output := Function.update s.output w [] }
  | .next (kvpair :: rest) => some (s.goto w (.lockTarget kvpair rest))
  | .lockTarget kvpair rest =>
      if s.mutex kvpair.1 = none then
        some { s.goto w (.apply kvpair rest) with
          mutex := Function.update s.mutex kvpair.1 (some w) }
      else none
  | .apply kvpair rest =>
      (s.table.accumulateF1 hashobj kernel kvpair.1 kvpair.2).toOption.map fun t =>
        { s.goto w (.unlockTarget kvpair rest) with table := t }
  | .unlockTarget kvpair rest => some { s.goto w (.next rest) with
      mutex := Function.update s.mutex kvpair.1 none }

/-- A thread takes its next step, which enters `run_iter` on the given bucket if it is outside. -/
def Step (s : State K V D n) (a : Fin n × ℕ) (s' : State K V D n) : Prop :=
  iterStep hashobj kernel a.1 a.2 s = some s'

/-- A state that is reachable from a table. -/
abbrev Reaches (s s' : State K V D n) : Prop := LTS.Reaches (Step hashobj kernel) s s'

end Defs

/-! ### Critical sections -/

/-- The bucket that the references of a thread point into. -/
def IterPc.pos : IterPc K V → Option ℕ
  | .lock pos | .process pos | .accumulate pos | .send pos | .reset pos | .unlock pos => some pos
  | _ => none

/-- The vertex whose critical section a thread is in. -/
def IterPc.inSection (t : StateTable K V D) : IterPc K V → Option K
  | .process pos | .accumulate pos | .send pos | .reset pos | .unlock pos => t.layout pos
  | .apply kvpair _ | .unlockTarget kvpair _ => some kvpair.1
  | _ => none

variable {hashobj : K → ℕ} {kernel : IterateKernel K V D} {t₀ : StateTable K V D}
  {s s' : State K V D n} {w : Fin n}

/-- The table is well formed and stores the graph of `t₀`; the references of the threads point into
buckets that are in use; and a thread in a critical section holds its mutex. -/
structure Inv (hashobj : K → ℕ) (t₀ : StateTable K V D) (s : State K V D n) : Prop where
  wf : s.table.WF hashobj
  graph : SameGraph s.table t₀
  refers : ∀ w pos, (s.pc w).pos = some pos → ∃ k, s.table.layout pos = some k
  holds : ∀ w k, (s.pc w).inSection s.table = some k → s.mutex k = some w

theorem inv_start [Inhabited (Bucket K V D)] (h : Loaded hashobj kernel t₀) :
    Inv hashobj t₀ (start t₀ : State K V D n) where
  wf := h.good.wf
  graph _ := rfl
  refers _ _ h := by cases h
  holds _ _ h := by cases h

variable [Zero V]

/-- What a step of thread `w` does, by its program point. -/
inductive Effect (kernel : IterateKernel K V D) (s : State K V D n) (w : Fin n) :
    State K V D n → Prop
  | enter {pos : ℕ} {k : K} : s.pc w = .outside → s.table.layout pos = some k →
      Effect kernel s w (s.goto w (.lock pos))
  | lock {pos : ℕ} {k : K} : s.pc w = .lock pos → s.table.layout pos = some k →
      s.mutex k = none → Effect kernel s w { s.goto w (.process pos) with
        mutex := Function.update s.mutex k (some w) }
  | process {pos : ℕ} : s.pc w = .process pos →
      Effect kernel s w (s.goto w (.accumulate pos))
  | accumulate {pos : ℕ} {k : K} : s.pc w = .accumulate pos → s.table.layout pos = some k →
      Effect kernel s w { s.goto w (.send pos) with
        table := s.table.rewriteAt k (accumulated kernel) }
  | send {pos : ℕ} {c : Bucket K V D} : s.pc w = .send pos → s.table.layout pos = some c.k →
      s.table.find c.k = some c → Effect kernel s w { s.goto w (.reset pos) with
        output := Function.update s.output w (s.output w ++ kernel.gFunc c.k c.v1 c.v2 c.v3) }
  | reset {pos : ℕ} {k : K} : s.pc w = .reset pos → s.table.layout pos = some k →
      Effect kernel s w { s.goto w (.unlock pos) with
        table := { s.table.rewriteAt k (cleared kernel) with
          totalUpdates := s.table.totalUpdates + 1 } }
  | unlock {pos : ℕ} {k : K} : s.pc w = .unlock pos → s.table.layout pos = some k →
      Effect kernel s w { s.goto w (.next (s.output w)) with
        mutex := Function.update s.mutex k none }
  | leave : s.pc w = .next [] →
      Effect kernel s w { s.goto w .outside with output := Function.update s.output w [] }
  | next {kvpair : K × V} {rest : List (K × V)} : s.pc w = .next (kvpair :: rest) →
      Effect kernel s w (s.goto w (.lockTarget kvpair rest))
  | lockTarget {kvpair : K × V} {rest : List (K × V)} : s.pc w = .lockTarget kvpair rest →
      s.mutex kvpair.1 = none → Effect kernel s w { s.goto w (.apply kvpair rest) with
        mutex := Function.update s.mutex kvpair.1 (some w) }
  | apply {kvpair : K × V} {rest : List (K × V)} : s.pc w = .apply kvpair rest →
      kvpair.1 ∈ s.table.vertices → Effect kernel s w { s.goto w (.unlockTarget kvpair rest) with
        table := s.table.rewriteAt kvpair.1 (Engine.received kernel kvpair.2) }
  | unlockTarget {kvpair : K × V} {rest : List (K × V)} : s.pc w = .unlockTarget kvpair rest →
      Effect kernel s w { s.goto w (.next rest) with
        mutex := Function.update s.mutex kvpair.1 none }

omit [Zero V] in
/-- The references of a thread point into a stored bucket. -/
theorem Inv.stored_of_refers (hI : Inv hashobj t₀ s) {pos : ℕ} (hpos : (s.pc w).pos = some pos)
    {c : Bucket K V D} (hc : s.table.buckets[pos]? = some c) :
    s.table.layout pos = some c.k ∧ c ∈ s.table.stored := by
  obtain ⟨k, hk⟩ := hI.refers w pos hpos
  obtain ⟨c', hc', hu, rfl⟩ := StateTable.layout_eq_some_iff.1 hk
  rw [hc, Option.some.injEq] at hc'
  subst hc'
  exact ⟨hk, StateTable.mem_stored.2 ⟨List.mem_of_getElem? hc, hu⟩⟩

/-- **Every step has the effect of its program point.** -/
theorem iterStep_effect (hI : Inv hashobj t₀ s) {pos : ℕ}
    (h : iterStep hashobj kernel w pos s = some s') : Effect kernel s w s' := by
  unfold iterStep at h
  have hrefers : ∀ pos c, (s.pc w).pos = some pos → s.table.buckets[pos]? = some c →
      s.table.layout pos = some c.k ∧ c ∈ s.table.stored := fun _ _ h h' =>
    hI.stored_of_refers h h'
  cases hpc : s.pc w <;> simp only [hpc] at h hrefers
  case outside =>
    obtain ⟨c, hc, h⟩ := Option.bind_eq_some_iff.1 h
    split_ifs at h with hu
    cases h
    exact .enter hpc (StateTable.layout_eq_some_iff.2 ⟨c, hc, hu, rfl⟩)
  case lock pos =>
    obtain ⟨c, hc, h⟩ := Option.bind_eq_some_iff.1 h
    obtain ⟨hk, -⟩ := hrefers pos c rfl hc
    split_ifs at h with hfree
    cases h
    exact .lock hpc hk hfree
  case process pos =>
    rw [Engine.modify_processed] at h
    cases h
    exact .process hpc
  case accumulate pos =>
    obtain ⟨c, hc, h⟩ := Option.bind_eq_some_iff.1 h
    obtain ⟨hk, hst⟩ := hrefers pos c rfl hc
    rw [accumulateF2_eq hI.wf hst] at h
    cases h
    exact .accumulate hpc hk
  case send pos =>
    obtain ⟨c, hc, rfl⟩ := Option.map_eq_some_iff.1 h
    obtain ⟨hk, hst⟩ := hrefers pos c rfl hc
    exact .send hpc hk (hI.wf.find_eq_some_iff.2 ⟨hst, rfl⟩)
  case reset pos =>
    obtain ⟨c, hc, h⟩ := Option.bind_eq_some_iff.1 h
    obtain ⟨hk, hst⟩ := hrefers pos c rfl hc
    rw [updateF1_eq hI.wf (StateTable.mem_vertices.2 ⟨c, hst, rfl⟩)] at h
    cases h
    exact .reset hpc hk
  case unlock pos =>
    obtain ⟨c, hc, rfl⟩ := Option.map_eq_some_iff.1 h
    exact .unlock hpc (hrefers pos c rfl hc).1
  case next rest =>
    cases rest with
    | nil =>
      cases h
      exact .leave hpc
    | cons kvpair rest =>
      cases h
      exact .next hpc
  case lockTarget kvpair rest =>
    split_ifs at h with hfree
    cases h
    exact .lockTarget hpc hfree
  case apply kvpair rest =>
    obtain ⟨t, ht, rfl⟩ := Option.map_eq_some_iff.1 h
    cases hacc : s.table.accumulateF1 hashobj kernel kvpair.1 kvpair.2 with
    | error f =>
      rw [hacc] at ht
      cases ht
    | ok t' =>
      rw [hacc] at ht
      cases ht
      obtain ⟨c, hc⟩ := Engine.find_of_deliver hI.wf hacc
      have hk : kvpair.1 ∈ s.table.vertices :=
        StateTable.find_isSome_iff.1 (Option.isSome_iff_exists.2 ⟨c, hc⟩)
      rw [accumulateF1_eq hI.wf hk] at hacc
      cases hacc
      exact .apply hpc hk
  case unlockTarget kvpair rest =>
    cases h
    exact .unlockTarget hpc

/-- Every effect is the effect of a step. -/
theorem exists_step_of_effect (hI : Inv hashobj t₀ s) (h : Effect kernel s w s') :
    ∃ pos, Step hashobj kernel s (w, pos) s' := by
  have hbucket : ∀ {pos k}, s.table.layout pos = some k → ∃ c, s.table.buckets[pos]? = some c ∧
      c.inUse = true ∧ c.k = k ∧ c ∈ s.table.stored := by
    intro pos k hk
    obtain ⟨c, hc, hu, hck⟩ := StateTable.layout_eq_some_iff.1 hk
    exact ⟨c, hc, hu, hck, StateTable.mem_stored.2 ⟨List.mem_of_getElem? hc, hu⟩⟩
  unfold Step iterStep
  cases h with
  | @enter pos k hpc hk =>
    obtain ⟨c, hc, hu, -⟩ := hbucket hk
    exact ⟨pos, by simp [hpc, hc, hu]⟩
  | @lock pos k hpc hk hfree =>
    obtain ⟨c, hc, -, rfl, -⟩ := hbucket hk
    exact ⟨pos, by simp [hpc, hc, hfree]⟩
  | @process pos hpc =>
    refine ⟨pos, ?_⟩
    simp only [hpc, Engine.modify_processed]
    rfl
  | @accumulate pos k hpc hk =>
    obtain ⟨c, hc, -, rfl, hst⟩ := hbucket hk
    exact ⟨pos, by simp [hpc, hc, accumulateF2_eq hI.wf hst, Except.toOption]⟩
  | @send pos c hpc hk hfind =>
    have hc := Engine.getElem?_of_layout hI.wf hk hfind
    exact ⟨pos, by simp [hpc, hc]⟩
  | @reset pos k hpc hk =>
    obtain ⟨c, hc, -, rfl, hst⟩ := hbucket hk
    have hmem := StateTable.mem_vertices.2 ⟨c, hst, rfl⟩
    exact ⟨pos, by simp [hpc, hc, updateF1_eq hI.wf hmem, Except.toOption]⟩
  | @unlock pos k hpc hk =>
    obtain ⟨c, hc, -, rfl, -⟩ := hbucket hk
    exact ⟨pos, by simp [hpc, hc]⟩
  | leave hpc => exact ⟨0, by simp [hpc]⟩
  | next hpc => exact ⟨0, by simp [hpc]⟩
  | lockTarget hpc hfree => exact ⟨0, by simp [hpc, hfree]⟩
  | apply hpc hk =>
    exact ⟨0, by simp [hpc, accumulateF1_eq hI.wf hk, Except.toOption]⟩
  | unlockTarget hpc => exact ⟨0, by simp [hpc]⟩

/-! ### The invariant -/

omit [DecidableEq K] [Zero V] in
theorem inSection_congr {t t' : StateTable K V D} (h : t'.layout = t.layout) (pc : IterPc K V) :
    pc.inSection t' = pc.inSection t := by
  cases pc <;> simp only [IterPc.inSection, h]

omit [Zero V] in
/-- A step of thread `w` that moves no entry and takes no mutex from another thread. -/
theorem Inv.advance (hI : Inv hashobj t₀ s) (hwf : s'.table.WF hashobj)
    (hgraph : SameGraph s'.table t₀) (hlay : s'.table.layout = s.table.layout)
    {pc : IterPc K V} (hpc : s'.pc = Function.update s.pc w pc)
    (hrefers : ∀ pos, pc.pos = some pos → ∃ k, s.table.layout pos = some k)
    (hholds : ∀ k, pc.inSection s.table = some k → s'.mutex k = some w)
    (hframe : ∀ w' k, w' ≠ w → s.mutex k = some w' → s'.mutex k = some w') :
    Inv hashobj t₀ s' where
  wf := hwf
  graph := hgraph
  refers w' pos hpos := by
    rw [hlay]
    by_cases hw : w' = w
    · subst hw
      rw [hpc, Function.update_self] at hpos
      exact hrefers pos hpos
    · rw [hpc, Function.update_of_ne hw] at hpos
      exact hI.refers w' pos hpos
  holds w' k hk := by
    rw [inSection_congr hlay] at hk
    by_cases hw : w' = w
    · subst hw
      rw [hpc, Function.update_self] at hk
      exact hholds k hk
    · rw [hpc, Function.update_of_ne hw] at hk
      exact hframe w' k hw (hI.holds w' k hk)

/-- A thread that takes a free mutex takes it from no other thread. -/
theorem update_mutex_of_free {mutex : K → Option (Fin n)} {k₀ : K} (hfree : mutex k₀ = none)
    (o : Option (Fin n)) (w' : Fin n) (k : K) (hk : mutex k = some w') :
    Function.update mutex k₀ o k = some w' := by
  have hne : k ≠ k₀ := by
    rintro rfl
    rw [hfree] at hk
    cases hk
  rw [Function.update_of_ne hne, hk]

/-- A thread that releases its own mutex releases it for no other thread. -/
theorem update_mutex_of_held {mutex : K → Option (Fin n)} {k₀ : K} {w w' : Fin n}
    (hheld : mutex k₀ = some w) (o : Option (Fin n)) (hw : w' ≠ w) {k : K}
    (hk : mutex k = some w') : Function.update mutex k₀ o k = some w' := by
  have hne : k ≠ k₀ := by
    rintro rfl
    rw [hheld, Option.some.injEq] at hk
    exact hw hk.symm
  rw [Function.update_of_ne hne, hk]

omit [Zero V] in
/-- Rewriting a bucket keeps the graph if it keeps the adjacency data. -/
theorem sameGraph_rewriteAt (hI : Inv hashobj t₀ s) {f : Bucket K V D → Bucket K V D}
    (hf : KeepsKey f) (hv3 : ∀ c, (f c).v3 = c.v3) (k : K) :
    SameGraph (s.table.rewriteAt k f) t₀ := by
  intro k'
  rw [hI.wf.find_rewriteAt hf, ← hI.graph k']
  split_ifs with hk
  · subst hk
    cases s.table.find k' with
    | none => rfl
    | some c => exact congrArg some (hv3 c)
  · rfl

theorem inv_effect (hI : Inv hashobj t₀ s) (h : Effect kernel s w s') : Inv hashobj t₀ s' := by
  have hheld : ∀ k, (s.pc w).inSection s.table = some k → s.mutex k = some w := hI.holds w
  have hrefers : ∀ pos, (s.pc w).pos = some pos → ∃ k, s.table.layout pos = some k := hI.refers w
  cases h with
  | @enter pos k hpc hk =>
    refine hI.advance hI.wf hI.graph rfl rfl ?_ ?_ fun w' k' _ h => h
    · rintro pos' ⟨⟩
      exact ⟨k, hk⟩
    · rintro k' ⟨⟩
  | @lock pos k hpc hk hfree =>
    refine hI.advance hI.wf hI.graph rfl rfl ?_ ?_ fun w' k' _ h =>
      update_mutex_of_free hfree _ w' k' h
    · exact fun pos' h => hrefers pos' (by rw [hpc]; exact h)
    · intro k' h
      rw [IterPc.inSection, hk, Option.some.injEq] at h
      subst h
      exact Function.update_self ..
  | @process pos hpc =>
    refine hI.advance hI.wf hI.graph rfl rfl ?_ ?_ fun w' k' _ h => h
    · exact fun pos' h => hrefers pos' (by rw [hpc]; exact h)
    · exact fun k' h => hheld k' (by rw [hpc]; exact h)
  | @accumulate pos k hpc hk =>
    have hf : KeepsKey _ := keepsKey_accumulated (D := D) kernel
    refine hI.advance (hI.wf.rewriteAt hf k) (sameGraph_rewriteAt hI hf (fun _ => rfl) k)
      (StateTable.layout_rewriteAt hf k) rfl ?_ ?_ fun w' k' _ h => h
    · exact fun pos' h => hrefers pos' (by rw [hpc]; exact h)
    · exact fun k' h => hheld k' (by rw [hpc]; exact h)
  | @send pos c hpc hk hc =>
    refine hI.advance hI.wf hI.graph rfl rfl ?_ ?_ fun w' k' _ h => h
    · exact fun pos' h => hrefers pos' (by rw [hpc]; exact h)
    · exact fun k' h => hheld k' (by rw [hpc]; exact h)
  | @reset pos k hpc hk =>
    have hf : KeepsKey _ := keepsKey_cleared (D := D) kernel
    have hwf := hI.wf.rewriteAt hf k
    refine hI.advance (hwf.withCounters _ _)
      (sameGraph_rewriteAt hI hf (fun _ => rfl) k) (StateTable.layout_rewriteAt hf k) rfl ?_ ?_
      fun w' k' _ h => h
    · exact fun pos' h => hrefers pos' (by rw [hpc]; exact h)
    · exact fun k' h => hheld k' (by rw [hpc]; exact h)
  | @unlock pos k hpc hk =>
    refine hI.advance hI.wf hI.graph rfl rfl ?_ ?_ fun w' k' hw h =>
      update_mutex_of_held (hheld k (by rw [hpc]; exact hk)) _ hw h
    · rintro pos' ⟨⟩
    · rintro k' ⟨⟩
  | leave hpc =>
    refine hI.advance hI.wf hI.graph rfl rfl ?_ ?_ fun w' k' _ h => h
    · rintro pos' ⟨⟩
    · rintro k' ⟨⟩
  | next hpc =>
    refine hI.advance hI.wf hI.graph rfl rfl ?_ ?_ fun w' k' _ h => h
    · rintro pos' ⟨⟩
    · rintro k' ⟨⟩
  | @lockTarget kvpair rest hpc hfree =>
    refine hI.advance hI.wf hI.graph rfl rfl ?_ ?_ fun w' k' _ h =>
      update_mutex_of_free hfree _ w' k' h
    · rintro pos' ⟨⟩
    · rintro k' ⟨⟩
      exact Function.update_self ..
  | @apply kvpair rest hpc hk =>
    have hf := Engine.keepsKey_received kernel kvpair.2 (D := D)
    refine hI.advance (hI.wf.rewriteAt hf _) (sameGraph_rewriteAt hI hf (fun _ => rfl) _)
      (StateTable.layout_rewriteAt hf _) rfl ?_ ?_ fun w' k' _ h => h
    · rintro pos' ⟨⟩
    · exact fun k' h => hheld k' (by rw [hpc]; exact h)
  | @unlockTarget kvpair rest hpc =>
    refine hI.advance hI.wf hI.graph rfl rfl ?_ ?_ fun w' k' hw h =>
      update_mutex_of_held (hheld kvpair.1 (by rw [hpc]; rfl)) _ hw h
    · rintro pos' ⟨⟩
    · rintro k' ⟨⟩

omit [DecidableEq K] [Zero V] in
/-- What holds of every thread and its buffer holds after a step of thread `w` that leaves `w` with
it. -/
theorem forall_threads {P : IterPc K V → List (K × V) → Prop}
    (hs : ∀ w, P (s.pc w) (s.output w)) {pc : IterPc K V} {output : List (K × V)}
    (hpc : s'.pc = Function.update s.pc w pc) (hout : s'.output = Function.update s.output w output)
    (h : P pc output) (w' : Fin n) : P (s'.pc w') (s'.output w') := by
  rw [hpc, hout]
  by_cases hw : w' = w
  · subst hw
    rw [Function.update_self, Function.update_self]
    exact h
  · rw [Function.update_of_ne hw, Function.update_of_ne hw]
    exact hs w'

omit [DecidableEq K] [Zero V] in
theorem forall_threads_goto {P : IterPc K V → List (K × V) → Prop}
    (hs : ∀ w, P (s.pc w) (s.output w)) {pc : IterPc K V}
    (hpc : s'.pc = Function.update s.pc w pc) (hout : s'.output = s.output)
    (h : P pc (s.output w)) : ∀ w', P (s'.pc w') (s'.output w') :=
  forall_threads hs hpc (hout.trans (Function.update_eq_self w s.output).symm) h

/-- **Every step** has the effect of its program point and keeps the invariant. -/
theorem step_effect {a : Fin n × ℕ} (hI : Inv hashobj t₀ s) (h : Step hashobj kernel s a s') :
    Effect kernel s a.1 s' ∧ Inv hashobj t₀ s' := by
  have heffect := iterStep_effect hI h
  exact ⟨heffect, inv_effect hI heffect⟩

/-- A property that every effect preserves holds in every reachable state. -/
theorem reaches_invariant {P : State K V D n → Prop} [Inhabited (Bucket K V D)]
    (hload : Loaded hashobj kernel t₀) (hstart : P (start t₀))
    (hstep : ∀ s w s', Inv hashobj t₀ s → Effect kernel s w s' → P s → P s')
    (h : Reaches hashobj kernel (start t₀) s) : Inv hashobj t₀ s ∧ P s := by
  refine h.invariant (I := fun s => Inv hashobj t₀ s ∧ P s) ?_ ⟨inv_start hload, hstart⟩
  rintro s a s' ⟨hI, hs⟩ h
  obtain ⟨heffect, hI'⟩ := step_effect hI h
  exact ⟨hI', hstep s a.1 s' hI heffect hs⟩

end Vertexlock

end Maiter
