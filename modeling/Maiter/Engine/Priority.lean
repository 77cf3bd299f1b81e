import Maiter.Engine.VertexLock
import Maiter.Kernels

/-!
# The stored priorities

`accumulateF2` changes the value of a vertex without its priority, and `updateF1` writes a literal
`0`.  In between, and only there, the stored priority may be stale.

* `Fresh`: the priority of a bucket is the one that the kernel computes;
* `Settled`: a property of the values that makes `0` the priority of the default delta;
* `IterPc.midway`, `priorityInv_effect`: a bucket is fresh unless a thread is between the two calls
  on its vertex;
* `fresh_reaches`: outside the critical sections no priority is stale; `priorities_fresh`: the
  four kernels.
-/

namespace Maiter

open StateTable (KeepsKey)
open Engine (keepsKey_accumulated keepsKey_cleared)

variable {K V D : Type} [DecidableEq K] {n : ℕ} {hashobj : K → ℕ} {kernel : IterateKernel K V D}
  {t₀ : StateTable K V D}

namespace Vertexlock

variable {s s' : State K V D n} {w : Fin n}

/-- The stored priority is the one that the kernel computes from the stored fields. -/
def Fresh (kernel : IterateKernel K V D) (c : Bucket K V D) : Prop :=
  c.priority = kernel.priority c.v2 c.v1

/-- The initial values satisfy `P`, accumulation keeps it, and at such values the literal `0` is
the priority of the default delta. -/
structure Settled [Zero V] (kernel : IterateKernel K V D) (P : V → Prop) : Prop where
  init : ∀ k d, P (kernel.initV k d)
  accumulate : ∀ a b, P a → P (kernel.accumulate a b)
  priority : ∀ a, P a → kernel.priority a kernel.defaultV = 0

/-- The vertex that a thread has left midway, after `accumulateF2` and before `updateF1`. -/
def IterPc.midway (t : StateTable K V D) : IterPc K V → Option K
  | .send pos | .reset pos => t.layout pos
  | _ => none

/-- Every value satisfies `P`, and every bucket that no thread has left midway is fresh. -/
structure PriorityInv (kernel : IterateKernel K V D) (P : V → Prop) (s : State K V D n) :
    Prop where
  settled : ∀ c ∈ s.table.stored, P c.v2
  fresh : ∀ c ∈ s.table.stored, (∀ w, (s.pc w).midway s.table ≠ some c.k) → Fresh kernel c

variable {P : V → Prop}

theorem priorityInv_start [Zero V] [Inhabited (Bucket K V D)] (hP : Settled kernel P)
    (hload : Loaded hashobj kernel t₀) :
    PriorityInv kernel P (start t₀ : State K V D n) := by
  obtain ⟨depth, numNodes, rows, h⟩ := hload
  have hgood : StateTable.Good hashobj (fun c => P c.v2 ∧ Fresh kernel c) t₀ :=
    StateTable.good_load (fun c hc => ⟨hc.1, rfl⟩) (fun k d => ⟨hP.init k d, rfl⟩) h
  exact ⟨fun c hc => (hgood.all c hc).1, fun c hc _ => (hgood.all c hc).2⟩

/-! ### The invariant -/

omit [DecidableEq K] in
theorem midway_congr {t t' : StateTable K V D} (h : t'.layout = t.layout) (pc : IterPc K V) :
    pc.midway t' = pc.midway t := by
  cases pc <;> simp only [IterPc.midway, h]

omit [DecidableEq K] in
/-- The other threads are midway after a step where they were midway before it. -/
theorem midway_frame {pc : IterPc K V} (hpc : s'.pc = Function.update s.pc w pc)
    (hlay : s'.table.layout = s.table.layout) {k : K}
    (hw : (s.pc w).midway s.table = some k → pc.midway s.table = some k)
    (hfree : ∀ w', (s'.pc w').midway s'.table ≠ some k) (w' : Fin n) :
    (s.pc w').midway s.table ≠ some k := by
  intro hmid
  have hne := hfree w'
  rw [midway_congr hlay, hpc] at hne
  by_cases hw' : w' = w
  · subst hw'
    rw [Function.update_self] at hne
    exact hne (hw hmid)
  · rw [Function.update_of_ne hw'] at hne
    exact hne hmid

omit [DecidableEq K] in
/-- A step that writes to no bucket. -/
theorem PriorityInv.keep (h : PriorityInv kernel P s) {pc : IterPc K V}
    (hpc : s'.pc = Function.update s.pc w pc) (htable : s'.table = s.table)
    (hw : ∀ k, (s.pc w).midway s.table = some k → pc.midway s.table = some k) :
    PriorityInv kernel P s' where
  settled := by
    rw [htable]
    exact h.settled
  fresh c hc hfree := by
    rw [htable] at hc
    exact h.fresh c hc (midway_frame hpc (by rw [htable]) (hw c.k) hfree)

/-- A step that rewrites the bucket of the vertex `k`. -/
theorem PriorityInv.rewriteAt (h : PriorityInv kernel P s) {pc : IterPc K V}
    (hpc : s'.pc = Function.update s.pc w pc) {f : Bucket K V D → Bucket K V D}
    (hf : KeepsKey f) {k : K} (htable : s'.table.buckets = (s.table.rewriteAt k f).buckets)
    (hw : ∀ k' ≠ k, (s.pc w).midway s.table = some k' → pc.midway s.table = some k')
    (hP : ∀ c, P c.v2 → P (f c).v2)
    (hfresh : ∀ c, P c.v2 → (∀ w', (s'.pc w').midway s'.table ≠ some k) → Fresh kernel (f c)) :
    PriorityInv kernel P s' := by
  have hstored : s'.table.stored = (s.table.rewriteAt k f).stored := by
    rw [StateTable.stored, htable]
    rfl
  have hlay : s'.table.layout = s.table.layout := by
    refine Eq.trans ?_ (StateTable.layout_rewriteAt hf k)
    funext i
    simp only [StateTable.layout, htable]
  refine ⟨fun c hc => ?_, fun c hc hfree => ?_⟩ <;> rw [hstored] at hc <;>
    rcases StateTable.of_mem_stored_rewriteAt hf hc with ⟨b, hb, rfl, rfl⟩ | ⟨hc, hk⟩
  · exact hP b (h.settled b hb)
  · exact h.settled c hc
  · rw [(hf b).1] at hfree
    exact hfresh b (h.settled b hb) hfree
  · exact h.fresh c hc (midway_frame hpc hlay (hw c.k hk) hfree)

/-- **What every step does to the priorities.**  `accumulateF2` leaves its bucket midway, and
`updateF1` finds it with a value at which the priority of the default delta is `0`. -/
theorem priorityInv_effect [Zero V] (hP : Settled kernel P) (h : Effect kernel s w s')
    (hs : PriorityInv kernel P s) : PriorityInv kernel P s' := by
  cases h with
  | enter hpc hk => exact hs.keep rfl rfl fun k h => by simp [hpc, IterPc.midway] at h
  | lock hpc hk hfree => exact hs.keep rfl rfl fun k h => by simp [hpc, IterPc.midway] at h
  | process hpc => exact hs.keep rfl rfl fun k h => by simp [hpc, IterPc.midway] at h
  | @accumulate pos k hpc hk =>
    have hf : KeepsKey _ := keepsKey_accumulated (D := D) kernel
    refine hs.rewriteAt rfl hf rfl ?_ (fun c hc => hP.accumulate _ _ hc) fun c _ hfree => ?_
    · exact fun k' _ h => by simp [hpc, IterPc.midway] at h
    · -- the thread itself is midway now
      refine absurd ?_ (hfree w)
      show IterPc.midway _ (Function.update s.pc w (.send pos) w) = some k
      rw [Function.update_self, IterPc.midway]
      exact (congrFun (StateTable.layout_rewriteAt hf k) pos).trans hk
  | send hpc hk hc =>
    refine hs.keep rfl rfl fun k h => ?_
    rw [hpc] at h
    exact h
  | @reset pos k hpc hk =>
    refine hs.rewriteAt rfl (keepsKey_cleared kernel) rfl ?_ (fun c hc => hc)
      fun c hc _ => (hP.priority c.v2 hc).symm
    intro k' hk' h
    rw [hpc, IterPc.midway, hk, Option.some.injEq] at h
    exact absurd h.symm hk'
  | unlock hpc hk => exact hs.keep rfl rfl fun k h => by simp [hpc, IterPc.midway] at h
  | leave hpc => exact hs.keep rfl rfl fun k h => by simp [hpc, IterPc.midway] at h
  | next hpc => exact hs.keep rfl rfl fun k h => by simp [hpc, IterPc.midway] at h
  | lockTarget hpc hfree => exact hs.keep rfl rfl fun k h => by simp [hpc, IterPc.midway] at h
  | @apply kvpair rest hpc hk =>
    refine hs.rewriteAt rfl (Engine.keepsKey_received kernel kvpair.2) rfl ?_ (fun c hc => hc)
      fun c _ _ => rfl
    exact fun k' _ h => by simp [hpc, IterPc.midway] at h
  | unlockTarget hpc => exact hs.keep rfl rfl fun k h => by simp [hpc, IterPc.midway] at h

/-- In every reachable state, the priority of a vertex in no critical section is not stale. -/
theorem fresh_reaches [Zero V] [Inhabited (Bucket K V D)] (hP : Settled kernel P)
    (hload : Loaded hashobj kernel t₀) (h : Reaches hashobj kernel (start t₀) s)
    {c : Bucket K V D} (hc : c ∈ s.table.stored)
    (hfree : ∀ w, (s.pc w).inSection s.table ≠ some c.k) : Fresh kernel c := by
  obtain ⟨-, hs⟩ := reaches_invariant hload (priorityInv_start hP hload)
    (fun s w s' _ heffect hs => priorityInv_effect hP heffect hs) h
  refine hs.fresh c hc fun w hmid => hfree w ?_
  cases hpc : s.pc w <;> rw [hpc] at hmid <;> first | exact hmid | cases hmid

/-! ### The kernels -/

/-- In every state that `n` threads can reach on a loaded table, every in-use bucket whose vertex
is in no critical section has the priority that the kernel computes from its fields. -/
def PrioritiesFresh [Zero V] [Inhabited (Bucket K V D)] (hashobj : K → ℕ)
    (kernel : IterateKernel K V D) : Prop :=
  ∀ (n : ℕ) (t₀ : StateTable K V D) (s : State K V D n), Loaded hashobj kernel t₀ →
    Reaches hashobj kernel (start t₀) s → ∀ c ∈ s.table.stored,
    (∀ w, (s.pc w).inSection s.table ≠ some c.k) → c.priority = kernel.priority c.v2 c.v1

theorem Settled.prioritiesFresh [Zero V] [Inhabited (Bucket K V D)] (hP : Settled kernel P) :
    PrioritiesFresh hashobj kernel :=
  fun _ _ _ hload h _ hc hfree => fresh_reaches hP hload h hc hfree

theorem settled_pagerank : Settled pagerankIterateKernel fun _ => True :=
  ⟨fun _ _ => trivial, fun _ _ _ => trivial, fun _ _ => rfl⟩

theorem settled_katz (katzSource : UInt64) (katzBeta : ℚ) :
    Settled (katzIterateKernel katzSource katzBeta) fun _ => True :=
  ⟨fun _ _ => trivial, fun _ _ _ => trivial, fun _ _ => rfl⟩

theorem settled_adsorption (adsorptionStarts : UInt64) (adsorptionDamping : ℚ) :
    Settled (adsorptionIterateKernel adsorptionStarts adsorptionDamping) fun _ => True :=
  ⟨fun _ _ => trivial, fun _ _ _ => trivial, fun _ _ => rfl⟩

/-- No distance is above `imax`. -/
theorem settled_shortestpath (imax : ℚ) (shortestpathSource : UInt64) :
    Settled (shortestpathIterateKernel (· + ·) imax shortestpathSource) (· ≤ imax) where
  init _ _ := le_rfl
  accumulate a b h := (min_le_left a b).trans h
  priority a h := by
    show a - min a imax = 0
    rw [min_eq_left h, sub_self]

/-- **Stored priorities are never stale** outside the critical sections, with each of the four
kernels and any number of threads, although `updateF1` writes a literal `0` and `accumulateF2`
does not recompute the priority. -/
theorem priorities_fresh (hashobj : Int32 → ℕ) :
    PrioritiesFresh hashobj pagerankIterateKernel ∧
    (∀ katzSource katzBeta, PrioritiesFresh hashobj (katzIterateKernel katzSource katzBeta)) ∧
    (∀ adsorptionStarts adsorptionDamping,
      PrioritiesFresh hashobj (adsorptionIterateKernel adsorptionStarts adsorptionDamping)) ∧
    (∀ (imax : ℚ) (shortestpathSource : UInt64),
      PrioritiesFresh hashobj (shortestpathIterateKernel (· + ·) imax shortestpathSource)) :=
  ⟨settled_pagerank.prioritiesFresh,
    fun katzSource katzBeta => (settled_katz katzSource katzBeta).prioritiesFresh,
    fun adsorptionStarts adsorptionDamping =>
      (settled_adsorption adsorptionStarts adsorptionDamping).prioritiesFresh,
    fun imax shortestpathSource =>
      (settled_shortestpath imax shortestpathSource).prioritiesFresh⟩

/-- The two vertices `0` and `1` with a link of weight `2`, and `100` as `imax`. -/
def oneWay (v2 : ℚ) : StateTable Int32 ℚ (List Link) :=
  ⟨[⟨0, 0, v2, [⟨1, 2⟩], 100, true⟩, ⟨1, 100, 100, [], 0, true⟩], 2, 2, 0⟩

theorem loaded_oneWay : Loaded Engine.idHash (shortestpathIterateKernel (· + ·) 100 0)
    (oneWay 100) := ⟨1, 2, [(0, [⟨1, 2⟩]), (1, [])], by decide +kernel⟩

/-- A thread has called `accumulateF2` for the source: its priority is stale, that of the other
vertex is not. -/
theorem priorities_fresh_oneWay : ∃ s : State Int32 ℚ (List Link) 2,
    Reaches Engine.idHash (shortestpathIterateKernel (· + ·) 100 0) (start (oneWay 100)) s ∧
    s.table = oneWay 0 ∧ ¬ Fresh (shortestpathIterateKernel (· + ·) (100 : ℚ) 0)
      (⟨0, 0, 0, [⟨1, 2⟩], 100, true⟩ : Bucket Int32 ℚ (List Link)) ∧
    Fresh (shortestpathIterateKernel (· + ·) (100 : ℚ) 0)
      (⟨1, 100, 100, [], 0, true⟩ : Bucket Int32 ℚ (List Link)) := by
  have hrun : (([(0, 0), (0, 0), (0, 0), (0, 0)] : List (Fin 2 × ℕ)).foldlM (fun s a =>
      iterStep Engine.idHash (shortestpathIterateKernel (· + ·) (100 : ℚ) 0) a.1 a.2 s)
      (start (oneWay 100))).map (fun s => (s.table, s.pc 0, s.pc 1))
      = some (oneWay 0, .send 0, .outside) := by decide +kernel
  obtain ⟨s, hs, hproj⟩ := Option.map_eq_some_iff.1 hrun
  obtain ⟨htable, hpc₀, hpc₁⟩ : s.table = oneWay 0 ∧ s.pc 0 = .send 0 ∧ s.pc 1 = .outside := by
    simpa using hproj
  have hreach : Reaches Engine.idHash (shortestpathIterateKernel (· + ·) (100 : ℚ) 0)
      (start (oneWay 100)) s := (LTS.Run.of_foldlM _ hs).reaches
  refine ⟨s, hreach, htable, by unfold Fresh; decide +kernel, ?_⟩
  refine (priorities_fresh Engine.idHash).2.2.2 100 0 2 (oneWay 100) s loaded_oneWay hreach _
    (by rw [htable]; decide +kernel) fun w => ?_
  fin_cases w
  · show (s.pc 0).inSection s.table ≠ some 1
    rw [hpc₀, htable]
    decide
  · show (s.pc 1).inSection s.table ≠ some 1
    rw [hpc₁]
    simp [IterPc.inSection]

end Vertexlock

end Maiter
