import Maiter.Lib.DeltaIteration
import Maiter.StateTable.Put

/-!
# The execute threads' critical sections

The second phase (`MaiterKernel2`): `n` threads call `run_iter` on buckets of the shared state
table.  `run_iter` is a first critical section, under the lock of the processed vertex, and then
one critical section for each message in the thread's output buffer, under the lock of its target.

* `Engine`: the table and the output buffers;
* `sendDelta`: the first critical section; `Step`: any thread runs its next critical section;
* `schedule`: the critical sections of a list of threads, computed; `schedule_run`;
* `SameGraph`: the same vertices with the same adjacency data;
* `Inv`, `inv_step`, `inv_loaded`: the probe-chain invariant holds and the graph stays the same;
* `sendDelta_eq`, `deliver_eq`: what the critical sections do to the entries of the table;
* `progress`: with closed link targets no critical section fails.

Which thread processes which bucket, and in which order, is left open: the steps include every
division of the buckets among the threads, with full scans and with priority scheduling.
-/

namespace Maiter

open DeltaIteration (Action absorbed)
open Fallible (bind_eq_ok_iff)

variable {K V D : Type} [DecidableEq K] {n : ℕ}

/-- The table shared by the threads, and the output buffer of each thread. -/
structure Engine (K V D : Type) (n : ℕ) where
  table : StateTable K V D
  output : Fin n → List (K × V)

instance [DecidableEq V] [DecidableEq D] : DecidableEq (Engine K V D n) := fun e e' =>
  decidable_of_iff (e.table = e'.table ∧ List.ofFn e.output = List.ofFn e'.output) <| by
    rw [List.ofFn_inj]
    exact Engine.mk.injEq .. ▸ Iff.rfl

/-- The same vertices with the same adjacency data. -/
def SameGraph {V' : Type} (t : StateTable K V D) (t' : StateTable K V' D) : Prop :=
  ∀ k, (t.find k).map (·.v3) = (t'.find k).map (·.v3)

variable {hashobj : K → ℕ} {kernel : IterateKernel K V D} {t t₀ : StateTable K V D}

theorem SameGraph.vertices {V' : Type} {t' : StateTable K V' D} (h : SameGraph t t') :
    t.vertices = t'.vertices := by
  ext k
  rw [← StateTable.find_isSome_iff, ← StateTable.find_isSome_iff, ← Option.isSome_map,
    h k, Option.isSome_map]

theorem SameGraph.find {V' : Type} {t' : StateTable K V' D} (h : SameGraph t t') {k : K}
    (hk : k ∈ t'.vertices) : ∃ c, t.find k = some c := by
  rw [← h.vertices, ← StateTable.find_isSome_iff] at hk
  exact Option.isSome_iff_exists.1 hk

/-- Replacing an entry without touching its adjacency data keeps the graph. -/
theorem SameGraph.update {t' : StateTable K V D} (h : SameGraph t t₀) {k : K} {c : Bucket K V D}
    (hc : t.find k = some c) {f : Bucket K V D → Bucket K V D} (hf : (f c).v3 = c.v3)
    (hfind : ∀ k', t'.find k' = if k' = k then some (f c) else t.find k') :
    SameGraph t' t₀ := by
  intro k'
  rw [hfind k', ← h k']
  by_cases hk : k' = k
  · subst hk
    simp [hc, hf]
  · rw [if_neg hk]

/-- The table is what the first phase built from some input. -/
def Loaded [Inhabited (Bucket K V D)] (hashobj : K → ℕ) (kernel : IterateKernel K V D)
    (t : StateTable K V D) : Prop :=
  ∃ depth numNodes rows, StateTable.load hashobj kernel depth numNodes rows = .ok t

/-- The fields that `put` writes for a row of the input. -/
def Initial (kernel : IterateKernel K V D) (c : Bucket K V D) : Prop :=
  c.v1 = kernel.initC c.k c.v3 ∧ c.v2 = kernel.initV c.k c.v3

theorem Loaded.good [Inhabited (Bucket K V D)] (h : Loaded hashobj kernel t) :
    StateTable.Good hashobj (Initial kernel) t := by
  obtain ⟨depth, numNodes, rows, h⟩ := h
  exact StateTable.good_load (fun c hc => hc) (fun k d => ⟨rfl, rfl⟩) h

namespace Engine

/-- The state when the execute threads are created. -/
def start (t : StateTable K V D) : Engine K V D n := ⟨t, fun _ => []⟩

section Defs

variable [Zero V] (hashobj : K → ℕ) (kernel : IterateKernel K V D)

/-- `key(pos)`, `value1(pos)`, `value2(pos)` and `value3(pos)` of an iterator. -/
def bucketAt (t : StateTable K V D) (pos : ℕ) : Except Fault (Bucket K V D) :=
  match t.buckets[pos]? with
  | none => .error .badIndex
  | some c => .ok c

/-- `process_delta_v` called with references to the fields of a bucket. -/
def processed (c : Bucket K V D) : Bucket K V D :=
  let (delta, value, data) := kernel.processDeltaV c.k c.v1 c.v2 c.v3
  { c with v1 := delta, v2 := value, v3 := data }

/-- The first critical section of `run_iter`, on the bucket at `pos`.  The arguments `v1`, `v2`
and `v3` are references, so the fields are read again after every call that writes to them. -/
def sendDelta (t : StateTable K V D) (output : List (K × V)) (pos : ℕ) :
    Except Fault (StateTable K V D × List (K × V)) := do
  let _ ← bucketAt t pos
  let t := { t with buckets := t.buckets.modify pos (processed kernel) }
  let c ← bucketAt t pos
  let t ← t.accumulateF2 hashobj kernel c.k c.v1
  let c ← bucketAt t pos
  let output := output ++ kernel.gFunc c.k c.v1 c.v2 c.v3
  let t ← t.updateF1 hashobj c.k kernel.defaultV
  return (t, output)

/-- A thread runs its next critical section.  With an empty buffer it may enter `run_iter` for
any in-use bucket; otherwise it delivers the first message of its buffer. -/
inductive Step : Engine K V D n → Action K (Fin n) → Engine K V D n → Prop
  | absorb {e : Engine K V D n} {w : Fin n} {pos : ℕ} {c : Bucket K V D} {t : StateTable K V D}
      {output : List (K × V)} : e.output w = [] → e.table.buckets[pos]? = some c →
      c.inUse = true → sendDelta hashobj kernel e.table (e.output w) pos = .ok (t, output) →
      Step e (.absorb w c.k) ⟨t, Function.update e.output w output⟩
  | deliver {e : Engine K V D n} {w : Fin n} {kvpair : K × V} {iter : List (K × V)}
      {t : StateTable K V D} : e.output w = kvpair :: iter →
      e.table.accumulateF1 hashobj kernel kvpair.1 kvpair.2 = .ok t →
      Step e (.deliver w) ⟨t, Function.update e.output w iter⟩

/-- Thread `w` runs its next critical section, on the bucket at `pos` if its buffer is empty;
`run_loop` skips a bucket that is not in use. -/
def critical (e : Engine K V D n) (w : Fin n) (pos : ℕ) :
    Except Fault (List (Action K (Fin n)) × Engine K V D n) :=
  match e.output w with
  | [] => do
    let c ← bucketAt e.table pos
    if c.inUse then
      let (t, output) ← sendDelta hashobj kernel e.table [] pos
      return ([.absorb w c.k], ⟨t, Function.update e.output w output⟩)
    else return ([], e)
  | kvpair :: iter => do
    let t ← e.table.accumulateF1 hashobj kernel kvpair.1 kvpair.2
    return ([.deliver w], ⟨t, Function.update e.output w iter⟩)

/-- The critical sections of the listed threads in order. -/
def schedule : List (Fin n × ℕ) → Engine K V D n →
    Except Fault (List (Action K (Fin n)) × Engine K V D n)
  | [], e => .ok ([], e)
  | (w, pos) :: rest, e => do
    let (l, e) ← critical hashobj kernel e w pos
    let (l', e) ← schedule rest e
    return (l ++ l', e)

/-- A completed full scan: from empty buffers to empty buffers, every stored vertex is processed
exactly once. -/
structure Round (e : Engine K V D n) (l : List (Action K (Fin n))) (e' : Engine K V D n) :
    Prop where
  run : LTS.Run (Step hashobj kernel) e l e'
  start : ∀ w, e.output w = []
  finish : ∀ w, e'.output w = []
  once : (absorbed l).Perm (e.table.stored.map (·.k))

/-- Consecutive rounds. -/
abbrev Rounds (e : Engine K V D n) (r : ℕ) (e' : Engine K V D n) : Prop :=
  LTS.Rounds (Round hashobj kernel) e r e'

/-- A state that is reachable from a table. -/
abbrev Reaches (e e' : Engine K V D n) : Prop := LTS.Reaches (Step hashobj kernel) e e'

end Defs

/-! ### Executable schedules -/

omit [DecidableEq K] in
theorem bucketAt_eq_ok_iff {pos : ℕ} {c : Bucket K V D} :
    bucketAt t pos = .ok c ↔ t.buckets[pos]? = some c := by
  unfold bucketAt
  cases t.buckets[pos]? <;> simp

theorem critical_run [Zero V] {e e' : Engine K V D n} {w : Fin n} {pos : ℕ}
    {l : List (Action K (Fin n))} (h : critical hashobj kernel e w pos = .ok (l, e')) :
    LTS.Run (Step hashobj kernel) e l e' := by
  unfold critical at h
  cases hw : e.output w with
  | nil =>
    rw [hw] at h
    obtain ⟨c, hc, h⟩ := bind_eq_ok_iff.1 h
    split_ifs at h with hu
    · obtain ⟨⟨t, output⟩, hsend, h⟩ := bind_eq_ok_iff.1 h
      cases h
      exact LTS.Run.single (Step.absorb hw (bucketAt_eq_ok_iff.1 hc) hu (by rw [hw]; exact hsend))
    · cases h
      exact LTS.Run.nil
  | cons kvpair iter =>
    rw [hw] at h
    obtain ⟨t, hacc, h⟩ := bind_eq_ok_iff.1 h
    cases h
    exact LTS.Run.single (Step.deliver hw hacc)

theorem schedule_run [Zero V] (sched : List (Fin n × ℕ)) :
    ∀ {e e' : Engine K V D n} {l : List (Action K (Fin n))},
      schedule hashobj kernel sched e = .ok (l, e') → LTS.Run (Step hashobj kernel) e l e' := by
  induction sched with
  | nil =>
    intro e e' l h
    cases h
    exact LTS.Run.nil
  | cons s sched ih =>
    intro e e' l h
    obtain ⟨⟨l₁, e₁⟩, hcritical, h⟩ := bind_eq_ok_iff.1 h
    obtain ⟨⟨l₂, e₂⟩, hrest, h⟩ := bind_eq_ok_iff.1 h
    cases h
    exact (critical_run hcritical).append (ih hrest)

theorem run_of_schedule [Zero V] (sched : List (Fin n × ℕ)) {e e' : Engine K V D n}
    {l : List (Action K (Fin n))}
    (h : (schedule hashobj kernel sched e).toOption = some (l, e')) :
    LTS.Run (Step hashobj kernel) e l e' := by
  cases hs : schedule hashobj kernel sched e with
  | error f => simp [hs, Except.toOption] at h
  | ok r =>
    rw [hs, Except.toOption, Option.some.injEq] at h
    exact schedule_run sched (by rw [hs, h])

/-- The state after a schedule. -/
def after [Zero V] (hashobj : K → ℕ) (kernel : IterateKernel K V D) (sched : List (Fin n × ℕ))
    (e : Engine K V D n) : Engine K V D n :=
  (schedule hashobj kernel sched e).toOption.elim e (·.2)

theorem run_after [Zero V] {sched : List (Fin n × ℕ)} {e : Engine K V D n}
    {l : List (Action K (Fin n))}
    (h : (schedule hashobj kernel sched e).toOption.map (·.1) = some l) :
    LTS.Run (Step hashobj kernel) e l (after hashobj kernel sched e) := by
  obtain ⟨⟨l', e'⟩, hr, rfl⟩ := Option.map_eq_some_iff.1 h
  rw [after, hr]
  exact run_of_schedule sched hr

/-! ### What the critical sections do -/

open StateTable in
/-- A stored entry sits in the bucket that the layout says. -/
theorem getElem?_of_layout (hwf : WF hashobj t) {pos : ℕ} {k : K} {c : Bucket K V D}
    (hpos : t.layout pos = some k) (hc : t.find k = some c) : t.buckets[pos]? = some c := by
  obtain ⟨c', hc', hu, rfl⟩ := layout_eq_some_iff.1 hpos
  rw [hwf.find_of_getElem? hc' hu] at hc
  rw [hc', hc]

omit [DecidableEq K] in
theorem modify_processed (l : List (Bucket K V D)) (pos : ℕ) :
    l.modify pos (processed kernel) = l := by
  have hid : processed kernel = id := funext fun c => rfl
  rw [hid, List.modify_id]

/-- The entry of a processed vertex. -/
def sent [Zero V] (kernel : IterateKernel K V D) (c : Bucket K V D) : Bucket K V D :=
  { c with v1 := kernel.defaultV, v2 := kernel.accumulate c.v2 c.v1, priority := 0 }

/-- The entry of a vertex to which the message `x` is delivered. -/
def received (kernel : IterateKernel K V D) (x : V) (c : Bucket K V D) : Bucket K V D :=
  { c with v1 := kernel.accumulate c.v1 x,
           priority := kernel.priority c.v2 (kernel.accumulate c.v1 x) }

variable (kernel) in
open StateTable in
/-- **The first critical section** on an in-use bucket: the delta is accumulated and reset, and
sent along the links. -/
theorem sendDelta_eq [Zero V] (hwf : WF hashobj t) {pos : ℕ} {c : Bucket K V D}
    (hc : t.buckets[pos]? = some c) (hu : c.inUse = true) (output : List (K × V)) :
    ∃ t', sendDelta hashobj kernel t output pos
        = .ok (t', output ++ kernel.gFunc c.k c.v1 (kernel.accumulate c.v2 c.v1) c.v3) ∧
      WF hashobj t' ∧
      ∀ k, t'.find k = if k = c.k then some (sent kernel c) else t.find k := by
  have hfind := hwf.find_of_getElem? hc hu
  obtain ⟨t₁, h₁, hwf₁, -, -, -, hlay₁, hfind₁⟩ := hwf.writeBucket_some
    (f := fun c' => { c' with v2 := kernel.accumulate c'.v2 c.v1 }) (fun _ => ⟨rfl, rfl⟩)
    hfind .noEntry
  have hfind₁c := hfind₁ c.k
  rw [if_pos rfl] at hfind₁c
  have hc₁ := getElem?_of_layout hwf₁ (by rw [hlay₁]; exact layout_eq_some_iff.2 ⟨c, hc, hu, rfl⟩)
    hfind₁c
  obtain ⟨t₂, h₂, hwf₂, -, -, -, -, hfind₂⟩ := hwf₁.writeBucket_some
    (f := fun c' => { c' with v1 := kernel.defaultV, priority := 0 }) (fun _ => ⟨rfl, rfl⟩)
    hfind₁c .noEntry
  refine ⟨{ t₂ with totalUpdates := t₂.totalUpdates + 1 }, ?_,
    ⟨hwf₂.len, hwf₂.pos, hwf₂.fits, hwf₂.chained⟩, fun k => ?_⟩
  · unfold sendDelta
    simp [modify_processed, bucketAt, hc, accumulateF2, updateF1, h₁, hc₁, h₂]
  · change t₂.find k = _
    rw [hfind₂ k, hfind₁ k]
    split_ifs <;> rfl

variable (kernel) in
open StateTable in
/-- **The delivery** of a message to a stored vertex. -/
theorem deliver_eq (hwf : WF hashobj t) {k : K} {c : Bucket K V D} (hc : t.find k = some c)
    (x : V) :
    ∃ t', t.accumulateF1 hashobj kernel k x = .ok t' ∧ WF hashobj t' ∧
      ∀ k', t'.find k' = if k' = k then some (received kernel x c) else t.find k' := by
  obtain ⟨t', h, hwf', -, -, -, -, hfind⟩ := hwf.writeBucket_some (f := received kernel x)
    (fun _ => ⟨rfl, rfl⟩) hc .assertion
  exact ⟨t', h, hwf', hfind⟩

open StateTable in
/-- A message can be delivered only to a stored vertex. -/
theorem find_of_deliver (hwf : WF hashobj t) {k : K} {x : V} {t' : StateTable K V D}
    (h : t.accumulateF1 hashobj kernel k x = .ok t') : ∃ c, t.find k = some c := by
  cases hc : t.find k with
  | some c => exact ⟨c, rfl⟩
  | none =>
    unfold accumulateF1 at h
    rw [hwf.writeBucket_none hc] at h
    cases h

/-- **What a step does**: it processes an entry of the table, or delivers a message to one. -/
theorem step_cases [Zero V] {e e' : Engine K V D n} {a : Action K (Fin n)}
    (hwf : e.table.WF hashobj) (h : Step hashobj kernel e a e') :
    (∃ w c, a = .absorb w c.k ∧ e.output w = [] ∧ e.table.find c.k = some c ∧
      e'.table.WF hashobj ∧
      (∀ k, e'.table.find k = if k = c.k then some (sent kernel c) else e.table.find k) ∧
      e'.output = Function.update e.output w
        (kernel.gFunc c.k c.v1 (kernel.accumulate c.v2 c.v1) c.v3)) ∨
    (∃ w k x ms c, a = .deliver w ∧ e.output w = (k, x) :: ms ∧ e.table.find k = some c ∧
      e'.table.WF hashobj ∧
      (∀ k', e'.table.find k' = if k' = k then some (received kernel x c) else e.table.find k') ∧
      e'.output = Function.update e.output w ms) := by
  cases h with
  | @absorb w pos c t output hout hc hu hsend =>
    left
    obtain ⟨t', hsend', hwf', hfind⟩ := sendDelta_eq kernel hwf hc hu (e.output w)
    rw [hsend'] at hsend
    cases hsend
    refine ⟨w, c, rfl, hout, hwf.find_of_getElem? hc hu, hwf', hfind, ?_⟩
    rw [hout, List.nil_append]
  | @deliver w kvpair iter t hout hacc =>
    right
    obtain ⟨c, hc⟩ := find_of_deliver hwf hacc
    obtain ⟨t', hacc', hwf', hfind⟩ := deliver_eq kernel hwf hc kvpair.2
    rw [hacc'] at hacc
    cases hacc
    exact ⟨w, kvpair.1, kvpair.2, iter, c, rfl, hout, hc, hwf', hfind, rfl⟩

/-- No step moves an entry to another bucket. -/
theorem step_layout [Zero V] {e e' : Engine K V D n} {a : Action K (Fin n)}
    (h : Step hashobj kernel e a e') :
    e'.table.size = e.table.size ∧ e'.table.layout = e.table.layout := by
  cases h with
  | @absorb w pos c t output hout hc hu hsend =>
    simp only [sendDelta, modify_processed] at hsend
    obtain ⟨_, -, hsend⟩ := bind_eq_ok_iff.1 hsend
    obtain ⟨_, -, hsend⟩ := bind_eq_ok_iff.1 hsend
    obtain ⟨t₁, hacc, hsend⟩ := bind_eq_ok_iff.1 hsend
    obtain ⟨_, -, hsend⟩ := bind_eq_ok_iff.1 hsend
    obtain ⟨t₂, hreset, hsend⟩ := bind_eq_ok_iff.1 hsend
    obtain ⟨t₃, hwrite, hreset⟩ := bind_eq_ok_iff.1 hreset
    cases hreset
    cases hsend
    obtain ⟨hsize₁, hlay₁⟩ := StateTable.layout_writeBucket hacc fun _ => ⟨rfl, rfl⟩
    obtain ⟨hsize₂, hlay₂⟩ := StateTable.layout_writeBucket hwrite fun _ => ⟨rfl, rfl⟩
    exact ⟨hsize₂.trans hsize₁, hlay₂.trans hlay₁⟩
  | deliver hout hacc => exact StateTable.layout_writeBucket hacc fun _ => ⟨rfl, rfl⟩

/-! ### The invariant -/

/-- The table is well formed and stores the graph of `t₀`. -/
structure Inv (hashobj : K → ℕ) (t₀ : StateTable K V D) (e : Engine K V D n) : Prop where
  wf : e.table.WF hashobj
  graph : SameGraph e.table t₀

theorem inv_step [Zero V] {e e' : Engine K V D n} {a : Action K (Fin n)}
    (hI : Inv hashobj t₀ e) (h : Step hashobj kernel e a e') : Inv hashobj t₀ e' := by
  rcases step_cases hI.wf h with
    ⟨w, c, -, -, hc, hwf, hfind, -⟩ | ⟨w, k, x, ms, c, -, -, hc, hwf, hfind, -⟩
  · exact ⟨hwf, hI.graph.update (f := sent kernel) hc rfl hfind⟩
  · exact ⟨hwf, hI.graph.update (f := received kernel x) hc rfl hfind⟩

theorem inv_start [Inhabited (Bucket K V D)] (h : Loaded hashobj kernel t) :
    Inv hashobj t (start t : Engine K V D n) := ⟨h.good.wf, fun _ => rfl⟩

/-- **The invariant** holds in every reachable state. -/
theorem inv_reaches [Zero V] {e e' : Engine K V D n} (h : Reaches hashobj kernel e e')
    (hI : Inv hashobj t₀ e) : Inv hashobj t₀ e' :=
  h.invariant (fun _ _ _ hI hstep => inv_step hI hstep) hI

theorem inv_loaded [Zero V] [Inhabited (Bucket K V D)] (hload : Loaded hashobj kernel t₀)
    {e : Engine K V D n} (h : Reaches hashobj kernel (start t₀) e) : Inv hashobj t₀ e :=
  inv_reaches h (inv_start hload)

/-! ### Progress -/

/-- Every message that a stored vertex can send goes to a stored vertex. -/
def ClosedLinks (kernel : IterateKernel K V D) (t : StateTable K V D) : Prop :=
  ∀ c ∈ t.stored, ∀ delta value, ∀ m ∈ kernel.gFunc c.k delta value c.v3, m.1 ∈ t.vertices

/-- Every buffered message goes to a stored vertex. -/
def Deliverable (e : Engine K V D n) : Prop :=
  ∀ w, ∀ m ∈ e.output w, m.1 ∈ e.table.vertices

theorem deliverable_step [Zero V] (hclosed : ClosedLinks kernel t₀) {e e' : Engine K V D n}
    {a : Action K (Fin n)} (hI : Inv hashobj t₀ e) (hd : Deliverable e)
    (h : Step hashobj kernel e a e') : Deliverable e' := by
  have hverts : e'.table.vertices = e.table.vertices :=
    (inv_step hI h).graph.vertices.trans hI.graph.vertices.symm
  intro w' m hm
  rw [hverts]
  rcases step_cases hI.wf h with
    ⟨w, c, -, -, hc, -, -, hout⟩ | ⟨w, k, x, ms, c, -, hold, -, -, -, hout⟩
  · rw [hout] at hm
    by_cases hw : w' = w
    · subst hw
      rw [Function.update_self] at hm
      have hg := hI.graph c.k
      rw [hc, Option.map_some, eq_comm, Option.map_eq_some_iff] at hg
      obtain ⟨c₀, hc₀, hdata⟩ := hg
      obtain ⟨hst, hk⟩ := StateTable.find_some hc₀
      rw [hI.graph.vertices]
      rw [← hk, ← hdata] at hm
      exact hclosed c₀ hst _ _ m hm
    · rw [Function.update_of_ne hw] at hm
      exact hd w' m hm
  · rw [hout] at hm
    by_cases hw : w' = w
    · subst hw
      rw [Function.update_self] at hm
      exact hd w' m (by rw [hold]; exact List.mem_cons_of_mem _ hm)
    · rw [Function.update_of_ne hw] at hm
      exact hd w' m hm

/-- **No critical section fails**: in every reachable state, a thread with an empty buffer can
process every stored vertex, and a thread with messages can deliver the first one. -/
theorem progress [Zero V] [Inhabited (Bucket K V D)] (hload : Loaded hashobj kernel t₀)
    (hclosed : ClosedLinks kernel t₀) {e : Engine K V D n}
    (h : Reaches hashobj kernel (start t₀) e) (w : Fin n) :
    (e.output w = [] → ∀ k ∈ t₀.vertices, ∃ e', Step hashobj kernel e (.absorb w k) e') ∧
    (e.output w ≠ [] → ∃ e', Step hashobj kernel e (.deliver w) e') := by
  obtain ⟨hI, hd⟩ : Inv hashobj t₀ e ∧ Deliverable e := by
    refine h.invariant (I := fun e => Inv hashobj t₀ e ∧ Deliverable e) ?_ ?_
    · rintro e a e' ⟨hI, hd⟩ hstep
      exact ⟨inv_step hI hstep, deliverable_step hclosed hI hd hstep⟩
    · exact ⟨inv_start hload, fun _ m hm => by simp [start] at hm⟩
  constructor
  · intro hw k hk
    rw [← hI.graph.vertices, StateTable.mem_vertices] at hk
    obtain ⟨c, hc, rfl⟩ := hk
    rw [StateTable.mem_stored] at hc
    obtain ⟨pos, hpos⟩ := List.mem_iff_getElem?.1 hc.1
    obtain ⟨t', hsend, -, -⟩ := sendDelta_eq kernel hI.wf hpos hc.2 (e.output w)
    exact ⟨_, Step.absorb hw hpos hc.2 hsend⟩
  · intro hw
    obtain ⟨m, ms, hms⟩ := List.exists_cons_of_ne_nil hw
    have hm := hd w m (by rw [hms]; exact List.mem_cons_self)
    rw [← StateTable.find_isSome_iff, Option.isSome_iff_exists] at hm
    obtain ⟨c, hc⟩ := hm
    obtain ⟨t', hacc, -, -⟩ := deliver_eq kernel hI.wf hc m.2
    exact ⟨_, Step.deliver hms hacc⟩

end Engine

end Maiter
