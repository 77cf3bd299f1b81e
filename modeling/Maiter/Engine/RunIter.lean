import Maiter.Engine.SumKernels
import Maiter.StateTable.Rewrite

/-!
# A whole `run_iter`

`run_iter` without a step of another thread in between: the first critical section, then one
`accumulateF1` for each message in the output buffer.

* `accumulated`, `cleared`: a bucket after a call on the table; `accumulateF2_eq`, `updateF1_eq`,
  `accumulateF1_eq`: what the calls do to the whole table;
* `receivedAll`: a bucket after a list of messages; `deliverAll_eq`: the loop over the buffer;
* `runIter_map`: the buckets after `run_iter`; `runIter_deltaStep`: what this says field by field.
-/

namespace Maiter

open Fallible (bind_eq_ok_iff)

variable {K V D : Type} [DecidableEq K] {hashobj : K → ℕ} {kernel : IterateKernel K V D}
  {t t' : StateTable K V D}

namespace Engine

open StateTable (KeepsKey WF atKey mem_vertices mem_stored)

/-! ### The calls on the table -/

/-- `accumulateF2(k, v1)` with a reference to the delta of `k`. -/
def accumulated (kernel : IterateKernel K V D) (c : Bucket K V D) : Bucket K V D :=
  { c with v2 := kernel.accumulate c.v2 c.v1 }

/-- `updateF1(k, default_v())`. -/
def cleared [Zero V] (kernel : IterateKernel K V D) (c : Bucket K V D) : Bucket K V D :=
  { c with v1 := kernel.defaultV, priority := 0 }

section KeepsKey

variable (kernel)

omit [DecidableEq K]

theorem keepsKey_accumulated : KeepsKey (accumulated kernel : Bucket K V D → _) :=
  fun _ => ⟨rfl, rfl⟩

theorem keepsKey_cleared [Zero V] : KeepsKey (cleared kernel : Bucket K V D → _) :=
  fun _ => ⟨rfl, rfl⟩

theorem keepsKey_sent [Zero V] : KeepsKey (sent kernel : Bucket K V D → _) := fun _ => ⟨rfl, rfl⟩

theorem keepsKey_received (x : V) : KeepsKey (received kernel x : Bucket K V D → _) :=
  fun _ => ⟨rfl, rfl⟩

end KeepsKey

theorem accumulateF2_eq (hwf : WF hashobj t) {c : Bucket K V D} (hc : c ∈ t.stored) :
    t.accumulateF2 hashobj kernel c.k c.v1 = .ok (t.rewriteAt c.k (accumulated kernel)) := by
  have hacc : t.accumulateF2 hashobj kernel c.k c.v1
      = .ok (t.rewriteAt c.k fun c' => { c' with v2 := kernel.accumulate c'.v2 c.v1 }) :=
    hwf.writeBucket_atKey (mem_vertices.2 ⟨c, hc, rfl⟩) .noEntry
  rw [hacc]
  refine congrArg _ (StateTable.rewriteAt_congr fun b hb hbk => ?_)
  -- the delta that is accumulated is the one of this very bucket
  rw [hwf.stored_unique hb hc hbk]
  rfl

theorem updateF1_eq [Zero V] (hwf : WF hashobj t) {k : K} (hk : k ∈ t.vertices) :
    t.updateF1 hashobj k kernel.defaultV
      = .ok { t.rewriteAt k (cleared kernel) with totalUpdates := t.totalUpdates + 1 } := by
  have hwrite : t.writeBucket hashobj k .noEntry (cleared kernel)
      = .ok (t.rewriteAt k (cleared kernel)) := hwf.writeBucket_atKey hk .noEntry
  unfold cleared at hwrite
  rw [StateTable.updateF1, hwrite]
  rfl

theorem accumulateF1_eq (hwf : WF hashobj t) {k : K} (hk : k ∈ t.vertices) (x : V) :
    t.accumulateF1 hashobj kernel k x = .ok (t.rewriteAt k (received kernel x)) :=
  hwf.writeBucket_atKey hk .assertion

/-! ### The loop over the output buffer -/

/-- The messages addressed to a vertex, in order. -/
def addressed (msgs : List (K × V)) (k : K) : List V :=
  (msgs.filter fun m => m.1 = k).map (·.2)

/-- A bucket after a list of messages to its vertex: the priority is that after the last one. -/
def receivedAll (kernel : IterateKernel K V D) (xs : List V) (c : Bucket K V D) : Bucket K V D :=
  { c with v1 := xs.foldl kernel.accumulate c.v1,
           priority := if xs = [] then c.priority
             else kernel.priority c.v2 (xs.foldl kernel.accumulate c.v1) }

section Defs

variable (hashobj : K → ℕ) (kernel : IterateKernel K V D)

/-- `run_iter` on the bucket at `pos`: the table and the output buffer afterwards. -/
def runIter [Zero V] (t : StateTable K V D) (output : List (K × V)) (pos : ℕ) :
    Except Fault (StateTable K V D × List (K × V)) := do
  let (t, output) ← sendDelta hashobj kernel t output pos
  let t ← output.foldlM
    (fun t kvpair => t.accumulateF1 hashobj kernel kvpair.1 kvpair.2) t
  return (t, [])

/-- What a list of messages does to a bucket. -/
def delivered (msgs : List (K × V)) (c : Bucket K V D) : Bucket K V D :=
  if c.inUse then receivedAll kernel (addressed msgs c.k) c else c

end Defs

omit [DecidableEq K] in
@[simp] theorem receivedAll_nil (c : Bucket K V D) : receivedAll kernel [] c = c := rfl

omit [DecidableEq K] in
theorem receivedAll_cons (x : V) (xs : List V) (c : Bucket K V D) :
    receivedAll kernel (x :: xs) c = receivedAll kernel xs (received kernel x c) := by
  cases xs with
  | nil => rfl
  | cons y ys => simp [receivedAll, received]

theorem delivered_cons (m : K × V) (msgs : List (K × V)) :
    delivered kernel (m :: msgs) = delivered kernel msgs ∘ atKey m.1 (received kernel m.2) := by
  funext c
  rw [Function.comp_apply]
  by_cases hu : c.inUse = true
  · by_cases hk : c.k = m.1
    · have haddr : addressed (m :: msgs) c.k = m.2 :: addressed msgs c.k := by
        simp [addressed, hk]
      have hat : atKey m.1 (received kernel m.2) c = received kernel m.2 c := if_pos ⟨hu, hk⟩
      have hu' : (received kernel m.2 c).inUse = true := hu
      rw [delivered, if_pos hu, haddr, receivedAll_cons, hat, delivered, if_pos hu']
      rfl
    · have haddr : addressed (m :: msgs) c.k = addressed msgs c.k := by
        simp [addressed, Ne.symm hk]
      simp [delivered, atKey, haddr, hu, hk]
  · simp [delivered, atKey, hu]

variable (kernel) in
/-- **The loop over the output buffer** delivers to every bucket the messages addressed to its
vertex. -/
theorem deliverAll_eq (msgs : List (K × V)) :
    ∀ {t : StateTable K V D}, WF hashobj t → (∀ m ∈ msgs, m.1 ∈ t.vertices) →
      msgs.foldlM (fun t kvpair => t.accumulateF1 hashobj kernel kvpair.1 kvpair.2) t
        = .ok { t with buckets := t.buckets.map (delivered kernel msgs) } := by
  induction msgs with
  | nil =>
    intro t _ _
    have hid : delivered kernel ([] : List (K × V)) = id := by
      funext c
      unfold delivered
      split_ifs <;> rfl
    simp [hid]
  | cons m msgs ih =>
    intro t hwf hst
    have hkeeps := keepsKey_received (D := D) kernel m.2
    rw [List.foldlM_cons, accumulateF1_eq hwf (hst m List.mem_cons_self), Fallible.ok_bind,
      ih (hwf.rewriteAt hkeeps m.1)]
    · simp [delivered_cons, StateTable.rewriteAt]
    · intro m' hm'
      rw [StateTable.vertices_rewriteAt hkeeps]
      exact hst m' (List.mem_cons_of_mem _ hm')

/-! ### The delta step -/

variable [Zero V]

/-- The messages that processing a bucket sends. -/
def messages (kernel : IterateKernel K V D) (c : Bucket K V D) : List (K × V) :=
  kernel.gFunc c.k c.v1 (kernel.accumulate c.v2 c.v1) c.v3

variable (kernel) in
/-- The first critical section, on all buckets at once. -/
theorem sendDelta_map (hwf : WF hashobj t) {pos : ℕ} {c : Bucket K V D}
    (hc : t.buckets[pos]? = some c) (hu : c.inUse = true) (output : List (K × V)) :
    sendDelta hashobj kernel t output pos
      = .ok (⟨t.buckets.map (atKey c.k (sent kernel)), t.entries, t.size, t.totalUpdates + 1⟩,
          output ++ messages kernel c) := by
  have hst : c ∈ t.stored := mem_stored.2 ⟨List.mem_of_getElem? hc, hu⟩
  have hkeeps := keepsKey_accumulated (D := D) kernel
  have hk : c.k ∈ (t.rewriteAt c.k (accumulated kernel)).vertices := by
    rw [StateTable.vertices_rewriteAt hkeeps]
    exact mem_vertices.2 ⟨c, hst, rfl⟩
  have hpos : (t.rewriteAt c.k (accumulated kernel)).buckets[pos]?
      = some (accumulated kernel c) := by
    simp [StateTable.rewriteAt, hc, atKey, hu]
  have hsent : (t.rewriteAt c.k (accumulated kernel)).rewriteAt c.k (cleared kernel)
      = t.rewriteAt c.k (sent kernel) := StateTable.rewriteAt_rewriteAt hkeeps _ _
  unfold sendDelta
  simp only [modify_processed, bucketAt_eq_ok_iff.2 hc, Fallible.ok_bind, accumulateF2_eq hwf hst]
  rw [bucketAt_eq_ok_iff.2 hpos]
  show (StateTable.updateF1 hashobj (t.rewriteAt c.k (accumulated kernel)) c.k kernel.defaultV
    >>= fun t => .ok (t, output ++ messages kernel c)) = _
  rw [updateF1_eq (hwf.rewriteAt hkeeps c.k) hk, hsent]
  rfl

/-- What `run_iter` on the bucket `c` does to a bucket. -/
def deltaStep (kernel : IterateKernel K V D) (c : Bucket K V D) : Bucket K V D → Bucket K V D :=
  delivered kernel (messages kernel c) ∘ atKey c.k (sent kernel)

/-- `run_iter` maps `deltaStep` over the buckets. -/
theorem runIter_map (hwf : WF hashobj t) {pos : ℕ} {c : Bucket K V D}
    (hc : t.buckets[pos]? = some c) (hu : c.inUse = true)
    (hst : ∀ m ∈ messages kernel c, m.1 ∈ t.vertices) :
    runIter hashobj kernel t [] pos
      = .ok (⟨t.buckets.map (deltaStep kernel c), t.entries, t.size, t.totalUpdates + 1⟩, []) := by
  have hkeeps := StateTable.keepsKey_atKey (keepsKey_sent kernel) c.k
  have hwf₁ := hwf.map hkeeps
  have hwf₂ : WF hashobj ⟨t.buckets.map (atKey c.k (sent kernel)), t.entries, t.size,
      t.totalUpdates + 1⟩ := ⟨hwf₁.len, hwf₁.pos, hwf₁.fits, hwf₁.chained⟩
  have hloop := deliverAll_eq kernel (messages kernel c) hwf₂ fun m hm => by
    have hv := StateTable.vertices_map (t := t) hkeeps
    exact hv.symm ▸ hst m hm
  unfold runIter
  rw [sendDelta_map kernel hwf hc hu, List.nil_append, Fallible.ok_bind]
  simp only [hloop, Fallible.ok_bind, List.map_map]
  rfl

variable (kernel) in
/-- **`run_iter` is exactly one delta step.**  It succeeds with an empty output buffer.  No bucket
changes its key, flag or adjacency data.  The processed vertex accumulates its delta and starts
again from the default delta and its messages to itself, with priority `0` if there are none.
Every other bucket keeps its value and accumulates the messages addressed to its vertex in order.
The priorities of the targets are those of their new deltas, and a bucket of another vertex
without a message is as it was. -/
theorem runIter_deltaStep (hwf : WF hashobj t) {pos : ℕ} {c : Bucket K V D}
    (hc : t.buckets[pos]? = some c) (hu : c.inUse = true)
    (hst : ∀ m ∈ kernel.gFunc c.k c.v1 (kernel.accumulate c.v2 c.v1) c.v3, m.1 ∈ t.vertices) :
    ∃ t', runIter hashobj kernel t [] pos = .ok (t', []) ∧
      t'.entries = t.entries ∧ t'.size = t.size ∧ t'.buckets.length = t.buckets.length ∧
      ∀ i b, t.buckets[i]? = some b → ∃ b', t'.buckets[i]? = some b' ∧
        let xs := addressed (kernel.gFunc c.k c.v1 (kernel.accumulate c.v2 c.v1) c.v3) b.k
        b'.k = b.k ∧ b'.inUse = b.inUse ∧ b'.v3 = b.v3 ∧
        (i = pos → b'.v2 = kernel.accumulate c.v2 c.v1 ∧
          b'.v1 = xs.foldl kernel.accumulate kernel.defaultV ∧ (xs = [] → b'.priority = 0)) ∧
        (i ≠ pos → b'.v2 = b.v2) ∧
        (i ≠ pos → b.inUse = true → b'.v1 = xs.foldl kernel.accumulate b.v1) ∧
        (b.inUse = true → xs ≠ [] → b'.priority = kernel.priority b'.v2 b'.v1) ∧
        (i ≠ pos → (b.inUse = true → xs = []) → b' = b) := by
  refine ⟨_, runIter_map hwf hc hu hst, rfl, rfl, by simp, fun i b hb => ?_⟩
  refine ⟨deltaStep kernel c b, by simp [hb], ?_⟩
  by_cases hi : i = pos
  · subst hi
    rw [hc] at hb
    cases hb
    have hstep : deltaStep kernel c c
        = receivedAll kernel (addressed (messages kernel c) c.k) (sent kernel c) := by
      simp [deltaStep, delivered, atKey, sent, hu]
    rw [hstep]
    exact ⟨rfl, rfl, rfl, fun _ => ⟨rfl, rfl, fun hxs => if_pos hxs⟩, fun h => absurd rfl h,
      fun h => absurd rfl h, fun _ hxs => if_neg hxs, fun h => absurd rfl h⟩
  · have hat : atKey c.k (sent kernel) b = b := by
      refine if_neg ?_
      rintro ⟨hub, hk⟩
      exact hi (hwf.index_unique hb hc hub hu hk)
    by_cases hub : b.inUse = true
    · have hstep : deltaStep kernel c b
          = receivedAll kernel (addressed (messages kernel c) b.k) b := by
        simp [deltaStep, delivered, hat, hub]
      rw [hstep]
      refine ⟨rfl, rfl, rfl, fun h => absurd h hi, fun _ => rfl, fun _ _ => rfl,
        fun _ hxs => if_neg hxs, fun _ hxs => ?_⟩
      have hnil : addressed (messages kernel c) b.k = [] := hxs hub
      rw [hnil, receivedAll_nil]
    · have hstep : deltaStep kernel c b = b := by
        simp [deltaStep, delivered, hat, hub]
      rw [hstep]
      exact ⟨rfl, rfl, rfl, fun h => absurd h hi, fun _ => rfl, fun _ h => absurd h hub,
        fun h => absurd h hub, fun _ _ => rfl⟩

/-- Two vertices; the first links to itself and twice to the second. -/
def selfLoop : StateTable Int32 ℚ (List Int32) :=
  ⟨[⟨2, 0.2, 0, [], 0.2, true⟩, ⟨1, 0.3, 0.5, [1, 2, 2], 0.3, true⟩], 2, 2, 0⟩

theorem wf_selfLoop : selfLoop.WF idHash := by
  have hputs : ((StateTable.new idHash pagerankIterateKernel 1 2) >>= fun t =>
      StateTable.put idHash pagerankIterateKernel 1 t 1 0.3 0.5 [1, 2, 2] >>= fun t =>
      StateTable.put idHash pagerankIterateKernel 1 t 2 0.2 0 []) = .ok selfLoop := by
    decide +kernel
  obtain ⟨t₀, hnew, hputs⟩ := bind_eq_ok_iff.1 hputs
  obtain ⟨t₁, hput₁, hput₂⟩ := bind_eq_ok_iff.1 hputs
  have hP : StateTable.Rewritable pagerankIterateKernel fun _ => True := fun _ _ => trivial
  have ht₀ := StateTable.good_new hP 1 hnew
  have ht₁ := StateTable.good_put hP 1 t₀ 1 0.3 0.5 [1, 2, 2] t₁ ht₀ trivial hput₁
  exact (StateTable.good_put hP 1 t₁ 2 0.2 0 [] selfLoop ht₁ trivial hput₂).wf

theorem getElem?_selfLoop :
    selfLoop.buckets[1]? = some ⟨1, 0.3, 0.5, [1, 2, 2], 0.3, true⟩ := rfl

theorem runIter_deltaStep_selfLoop : ∃ t', runIter idHash pagerankIterateKernel selfLoop [] 1
    = .ok (t', []) ∧ t'.entries = 2 := by
  obtain ⟨t', hrun, hentries, -⟩ := runIter_deltaStep pagerankIterateKernel
    wf_selfLoop getElem?_selfLoop rfl (by decide +kernel)
  exact ⟨t', hrun, hentries⟩

/-- The first vertex keeps `0.08` for itself, and the second one gets `0.08` twice. -/
example : (runIter idHash pagerankIterateKernel selfLoop [] 1).toOption
    = some (⟨[⟨2, 0.36, 0, [], 0.36, true⟩, ⟨1, 0.08, 0.8, [1, 2, 2], 0.08, true⟩], 2, 2, 1⟩,
      []) := by decide +kernel

end Engine

end Maiter
