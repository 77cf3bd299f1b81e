import Maiter.Engine.Priority
import Mathlib.Algebra.BigOperators.Group.Finset.Piecewise

/-!
# Critical sections are atomic

`Engine.Step` runs a critical section of `run_iter` in one step.  The threads that run it statement
by statement can do no more: every run of theirs is a run of critical sections.

* `settle`, `IterPc.pending`, `State.atomic`: the state in which the critical sections that have got
  past `accumulateF2` are finished;
* `BuffersEmpty`: a thread that has sent nothing yet has an empty output buffer;
* `atomic_at`, `atomic_effect`: a step is the critical section that it belongs to, or changes
  nothing;
* `reaches_atomic`: the same for runs; `reaches_of_outside`: between the calls of `run_iter` the
  table is one that atomic critical sections leave.
-/

namespace Maiter

open StateTable (KeepsKey WF atKey)
open Engine (accumulated cleared keepsKey_accumulated keepsKey_cleared accumulateF1_eq)

variable {K V D : Type} [DecidableEq K] {n : ℕ} {hashobj : K → ℕ} {kernel : IterateKernel K V D}
  {t₀ : StateTable K V D}

namespace Vertexlock

variable {s s' : State K V D n} {w : Fin n}

section Defs

variable [Zero V] (kernel : IterateKernel K V D)

/-- A bucket with the call of `updateF1` done if a thread is midway. -/
def settle (s : State K V D n) (c : Bucket K V D) : Bucket K V D :=
  if c.inUse ∧ ∃ w, (s.pc w).midway s.table = some c.k then cleared kernel c else c

/-- The messages that a thread with an output buffer has still to deliver when it has got past
`accumulateF2`. -/
def IterPc.pending (t : StateTable K V D) (output : List (K × V)) : IterPc K V → List (K × V)
  | .outside | .lock _ | .process _ | .accumulate _ => []
  | .send pos => (t.buckets[pos]?).elim [] fun c => kernel.gFunc c.k c.v1 c.v2 c.v3
  | .reset _ | .unlock _ => output
  | .next rest | .unlockTarget _ rest => rest
  | .lockTarget kvpair rest | .apply kvpair rest => kvpair :: rest

/-- One for a thread that is midway. -/
def IterPc.midwayCount (t : StateTable K V D) (pc : IterPc K V) : ℕ :=
  if (pc.midway t).isSome then 1 else 0

/-- The state with the critical sections finished. -/
def State.atomic (s : State K V D n) : Engine K V D n where
  table := { s.table with
    buckets := s.table.buckets.map (settle kernel s)
    totalUpdates := s.table.totalUpdates + ∑ w, (s.pc w).midwayCount s.table }
  output w := (s.pc w).pending kernel s.table (s.output w)

end Defs

/-! ### Buffers -/

/-- The thread has sent nothing yet. -/
def IterPc.beforeSend : IterPc K V → Bool
  | .outside | .lock _ | .process _ | .accumulate _ | .send _ => true
  | _ => false

/-- The output buffers of the threads that have sent nothing yet are empty. -/
def BuffersEmpty (s : State K V D n) : Prop :=
  ∀ w, (s.pc w).beforeSend = true → s.output w = []

theorem buffersEmpty_effect [Zero V] (h : Effect kernel s w s') (hs : BuffersEmpty s) :
    BuffersEmpty s' := by
  let P : IterPc K V → List (K × V) → Prop := fun pc output => pc.beforeSend = true → output = []
  have hw := hs w
  cases h with
  | enter hpc hk => exact forall_threads_goto (P := P) hs rfl rfl fun _ => hw (by rw [hpc]; rfl)
  | lock hpc hk hfree =>
    exact forall_threads_goto (P := P) hs rfl rfl fun _ => hw (by rw [hpc]; rfl)
  | process hpc => exact forall_threads_goto (P := P) hs rfl rfl fun _ => hw (by rw [hpc]; rfl)
  | accumulate hpc hk =>
    exact forall_threads_goto (P := P) hs rfl rfl fun _ => hw (by rw [hpc]; rfl)
  | send hpc hk hc => exact forall_threads (P := P) hs rfl rfl fun h => by cases h
  | reset hpc hk => exact forall_threads_goto (P := P) hs rfl rfl fun h => by cases h
  | unlock hpc hk => exact forall_threads_goto (P := P) hs rfl rfl fun h => by cases h
  | leave hpc => exact forall_threads (P := P) hs rfl rfl fun _ => rfl
  | next hpc => exact forall_threads_goto (P := P) hs rfl rfl fun h => by cases h
  | lockTarget hpc hfree => exact forall_threads_goto (P := P) hs rfl rfl fun h => by cases h
  | apply hpc hk => exact forall_threads_goto (P := P) hs rfl rfl fun h => by cases h
  | unlockTarget hpc => exact forall_threads_goto (P := P) hs rfl rfl fun h => by cases h

/-! ### Mutual exclusion -/

omit [DecidableEq K] in
theorem inSection_of_midway {t : StateTable K V D} {pc : IterPc K V} {k : K}
    (h : pc.midway t = some k) : pc.inSection t = some k := by
  cases pc <;> first | exact h | cases h

/-- **Two threads are not in critical sections on the same vertex.** -/
theorem Inv.exclusive (hI : Inv hashobj t₀ s) {w w' : Fin n} {k : K}
    (h : (s.pc w).inSection s.table = some k) (h' : (s.pc w').inSection s.table = some k) :
    w' = w := by
  have hk := hI.holds w k h
  rw [hI.holds w' k h', Option.some.injEq] at hk
  exact hk

theorem Inv.not_midway (hI : Inv hashobj t₀ s) {k : K}
    (h : (s.pc w).inSection s.table = some k) (hw : (s.pc w).midway s.table ≠ some k)
    (w' : Fin n) : (s.pc w').midway s.table ≠ some k := by
  intro hmid
  rw [hI.exclusive h (inSection_of_midway hmid)] at hmid
  exact hw hmid

/-! ### The finished state -/

variable [Zero V]

variable (kernel) in
theorem keepsKey_settle : KeepsKey (settle kernel s) := by
  intro c
  unfold settle
  split_ifs
  · exact ⟨rfl, rfl⟩
  · exact ⟨rfl, rfl⟩

theorem settle_eq_self {c : Bucket K V D}
    (h : ∀ w, (s.pc w).midway s.table ≠ some c.k) : settle kernel s c = c :=
  if_neg fun hc => by
    obtain ⟨w, hw⟩ := hc.2
    exact h w hw

theorem settle_eq_cleared {c : Bucket K V D} (hu : c.inUse = true)
    (h : (s.pc w).midway s.table = some c.k) : settle kernel s c = cleared kernel c :=
  if_pos ⟨hu, w, h⟩

theorem settle_congr {c : Bucket K V D}
    (h : ∀ w, (s'.pc w).midway s'.table = some c.k ↔ (s.pc w).midway s.table = some c.k) :
    settle kernel s' c = settle kernel s c := by
  simp only [settle, h]

omit [DecidableEq K] [Zero V] in
/-- A step of thread `w` changes nothing at a vertex that `w` is midway at neither before nor
after it. -/
theorem midway_iff {pc : IterPc K V} (hpc : s'.pc = Function.update s.pc w pc)
    (hlay : s'.table.layout = s.table.layout) {k : K}
    (hw : pc.midway s.table = some k ↔ (s.pc w).midway s.table = some k) (w' : Fin n) :
    (s'.pc w').midway s'.table = some k ↔ (s.pc w').midway s.table = some k := by
  rw [midway_congr hlay, hpc]
  by_cases hw' : w' = w
  · subst hw'
    rw [Function.update_self]
    exact hw
  · rw [Function.update_of_ne hw']

omit [DecidableEq K] [Zero V] in
/-- The count changes by the step of thread `w`. -/
theorem sum_midwayCount {pc : IterPc K V} (hpc : s'.pc = Function.update s.pc w pc)
    (hlay : s'.table.layout = s.table.layout) :
    (∑ w, (s'.pc w).midwayCount s'.table) + (s.pc w).midwayCount s.table
      = (∑ w, (s.pc w).midwayCount s.table) + pc.midwayCount s.table := by
  have hcongr : ∀ pc : IterPc K V, pc.midwayCount s'.table = pc.midwayCount s.table := by
    intro pc
    rw [IterPc.midwayCount, midway_congr hlay, IterPc.midwayCount]
  have hrest : ∑ w' ∈ Finset.univ.erase w, (s'.pc w').midwayCount s'.table
      = ∑ w' ∈ Finset.univ.erase w, (s.pc w').midwayCount s.table := by
    refine Finset.sum_congr rfl fun w' hw' => ?_
    rw [hcongr, hpc, Function.update_of_ne (Finset.ne_of_mem_erase hw')]
  rw [← Finset.add_sum_erase _ _ (Finset.mem_univ w), hrest,
    ← Finset.add_sum_erase _ (fun w => (s.pc w).midwayCount s.table) (Finset.mem_univ w), hcongr,
    hpc, Function.update_self]
  omega

/-- **A step that rewrites the bucket of `k`**, with the critical sections finished. -/
theorem map_settle {pc : IterPc K V} (hpc : s'.pc = Function.update s.pc w pc) {k : K}
    {f g : Bucket K V D → Bucket K V D} (hf : KeepsKey f)
    (hbuckets : s'.table.buckets = (s.table.rewriteAt k f).buckets)
    (hmid : ∀ k' ≠ k, pc.midway s.table = some k' ↔ (s.pc w).midway s.table = some k')
    (hk : ∀ c ∈ s.table.stored, c.k = k → settle kernel s' (f c) = g (settle kernel s c)) :
    s'.table.buckets.map (settle kernel s')
      = (s.table.buckets.map (settle kernel s)).map (atKey k g) := by
  have hlay : s'.table.layout = s.table.layout := by
    refine Eq.trans ?_ (StateTable.layout_rewriteAt hf k)
    funext i
    simp only [StateTable.layout, hbuckets]
  have hkeeps := keepsKey_settle (s := s) kernel
  rw [hbuckets, StateTable.rewriteAt, List.map_map, List.map_map]
  refine List.map_congr_left fun c hc => ?_
  simp only [Function.comp_apply]
  by_cases h : c.inUse = true ∧ c.k = k
  · have h' : (settle kernel s c).inUse = true ∧ (settle kernel s c).k = k := by
      rwa [(hkeeps c).1, (hkeeps c).2]
    rw [atKey, if_pos h, atKey, if_pos h', hk c (StateTable.mem_stored.2 ⟨hc, h.1⟩) h.2]
  · have h' : ¬ ((settle kernel s c).inUse = true ∧ (settle kernel s c).k = k) := by
      rwa [(hkeeps c).1, (hkeeps c).2]
    rw [atKey, if_neg h, atKey, if_neg h']
    by_cases hu : c.inUse = true
    · exact settle_congr (midway_iff hpc hlay (hmid c.k fun hck => h ⟨hu, hck⟩))
    · simp [settle, hu]

omit [DecidableEq K] [Zero V] in
/-- The other threads have the same messages to deliver. -/
theorem pending_frame {t t' : StateTable K V D} {pc : IterPc K V} {output : List (K × V)}
    (h : ∀ pos, pc = .send pos → t'.buckets[pos]? = t.buckets[pos]?) :
    pc.pending kernel t' output = pc.pending kernel t output := by
  cases pc with
  | send pos => simp only [IterPc.pending, h pos rfl]
  | _ => rfl

omit [Zero V] in
/-- A bucket that another thread sends from is not the one that is rewritten. -/
theorem Inv.getElem?_rewriteAt (hI : Inv hashobj t₀ s) {k : K} {f : Bucket K V D → Bucket K V D}
    (h : (s.pc w).inSection s.table = some k) (w' : Fin n) (pos : ℕ) (hw : w' ≠ w)
    (hsend : s.pc w' = .send pos) :
    (s.table.rewriteAt k f).buckets[pos]? = s.table.buckets[pos]? := by
  rw [StateTable.rewriteAt, List.getElem?_map]
  cases hc : s.table.buckets[pos]? with
  | none => rfl
  | some c =>
    have hk := (hI.stored_of_refers (by rw [hsend]; rfl) hc).1
    have hne : c.k ≠ k := by
      rintro rfl
      exact hw (hI.exclusive h (by rw [hsend]; exact hk))
    exact congrArg some (if_neg fun h => hne h.2)

/-- The messages to deliver after a step of thread `w` that rewrites the bucket of its vertex. -/
theorem Inv.pending_rewriteAt (hI : Inv hashobj t₀ s) {k : K} {f : Bucket K V D → Bucket K V D}
    {pc : IterPc K V} (hsection : (s.pc w).inSection s.table = some k)
    (hpc : s'.pc = Function.update s.pc w pc) (hout : s'.output = s.output)
    (hbuckets : s'.table.buckets = (s.table.rewriteAt k f).buckets) (w' : Fin n) :
    (s'.pc w').pending kernel s'.table (s'.output w')
      = Function.update (s.atomic kernel).output w
          (pc.pending kernel s'.table (s.output w)) w' := by
  rw [hpc, hout]
  by_cases hw : w' = w
  · subst hw
    rw [Function.update_self, Function.update_self]
  · rw [Function.update_of_ne hw, Function.update_of_ne hw]
    refine pending_frame fun pos hpos => ?_
    rw [hbuckets]
    exact hI.getElem?_rewriteAt hsection w' pos hw hpos

/-- The finished states of two states that differ at one thread. -/
theorem atomic_eq {e : Engine K V D n} (hbuckets : s'.table.buckets.map (settle kernel s')
      = e.table.buckets) (hentries : s'.table.entries = e.table.entries)
    (hsize : s'.table.size = e.table.size)
    (hcount : s'.table.totalUpdates + ∑ w, (s'.pc w).midwayCount s'.table = e.table.totalUpdates)
    (houtput : ∀ w, (s'.pc w).pending kernel s'.table (s'.output w) = e.output w) :
    s'.atomic kernel = e := by
  obtain ⟨⟨buckets, entries, size, totalUpdates⟩, output⟩ := e
  simp only [State.atomic, hbuckets, hentries, hsize, hcount, funext houtput]

/-- A step that writes to no bucket, and keeps what its thread has to deliver. -/
theorem atomic_of_goto {pc : IterPc K V} (hpc : s'.pc = Function.update s.pc w pc)
    (htable : s'.table = s.table) (hout : ∀ w' ≠ w, s'.output w' = s.output w')
    (hmid : pc.midway s.table = (s.pc w).midway s.table)
    (hpend : pc.pending kernel s.table (s'.output w)
      = (s.pc w).pending kernel s.table (s.output w)) :
    s'.atomic kernel = s.atomic kernel := by
  have hsettle : ∀ c, settle kernel s' c = settle kernel s c := fun c =>
    settle_congr (midway_iff hpc (by rw [htable]) (by rw [hmid]))
  have hcount := sum_midwayCount hpc (by rw [htable])
  have hw : pc.midwayCount s.table = (s.pc w).midwayCount s.table := by
    rw [IterPc.midwayCount, hmid, IterPc.midwayCount]
  refine atomic_eq ?_ (by rw [htable]; rfl) (by rw [htable]; rfl) ?_ fun w' => ?_
  · rw [funext hsettle, htable]
    rfl
  · show _ = s.table.totalUpdates + ∑ w, (s.pc w).midwayCount s.table
    rw [htable] at hcount ⊢
    omega
  · show _ = (s.pc w').pending kernel s.table (s.output w')
    rw [htable, hpc]
    by_cases hw' : w' = w
    · rw [hw', Function.update_self, hpend]
    · rw [Function.update_of_ne hw', hout w' hw']

/-! ### Steps -/

theorem wf_atomic (hI : Inv hashobj t₀ s) : (s.atomic kernel).table.WF hashobj := by
  have hwf := hI.wf.map (keepsKey_settle (s := s) kernel)
  exact hwf.withCounters _ _

/-- `accumulateF2` stands for the first critical section. -/
theorem atomic_accumulate (hI : Inv hashobj t₀ s) {pos : ℕ} {k : K}
    (hpc : s.pc w = .accumulate pos) (hk : s.table.layout pos = some k)
    (hpc' : s'.pc = Function.update s.pc w (.send pos)) (hout : s'.output = s.output)
    (htable : s'.table = s.table.rewriteAt k (accumulated kernel)) :
    Engine.Step hashobj kernel (s.atomic kernel) (.absorb w k) (s'.atomic kernel) := by
  have hsection : (s.pc w).inSection s.table = some k := by
    rw [hpc]
    exact hk
  have hnone : (s.pc w).midway s.table = none := by
    rw [hpc]
    rfl
  have hfree := hI.not_midway hsection (by rw [hnone]; exact (Option.some_ne_none k).symm)
  have hkeeps := keepsKey_accumulated (D := D) kernel
  have hlay : s'.table.layout = s.table.layout := by
    rw [htable]
    exact StateTable.layout_rewriteAt hkeeps k
  have hmid : (s'.pc w).midway s'.table = some k := by
    rw [midway_congr hlay, hpc', Function.update_self]
    exact hk
  obtain ⟨c, hc, hu, rfl⟩ := StateTable.layout_eq_some_iff.1 hk
  have hc' : (s.atomic kernel).table.buckets[pos]? = some c := by
    show (s.table.buckets.map (settle kernel s))[pos]? = some c
    rw [List.getElem?_map, hc, Option.map_some, settle_eq_self hfree]
  have hempty : (s.atomic kernel).output w = [] := by
    show (s.pc w).pending kernel s.table (s.output w) = []
    rw [hpc]
    rfl
  have hstep := Engine.Step.absorb hempty hc' hu
    (Engine.sendDelta_map kernel (wf_atomic hI) hc' hu _)
  rw [hempty, List.nil_append] at hstep
  have heq : s'.atomic kernel
      = ⟨⟨(s.atomic kernel).table.buckets.map (atKey c.k (Engine.sent kernel)),
          (s.atomic kernel).table.entries, (s.atomic kernel).table.size,
          (s.atomic kernel).table.totalUpdates + 1⟩,
        Function.update (s.atomic kernel).output w (Engine.messages kernel c)⟩ := by
    refine atomic_eq ?_ (by rw [htable]; rfl) (by rw [htable]; rfl) ?_ fun w' => ?_
    · refine map_settle hpc' hkeeps (by rw [htable]) (fun k' hk' => ?_) fun b hb hbk => ?_
      · rw [hnone, IterPc.midway, hk]
        exact ⟨fun h => absurd (Option.some.inj h).symm hk', fun h => by cases h⟩
      · rw [settle_eq_self (c := b) (by rwa [hbk])]
        exact settle_eq_cleared (StateTable.mem_stored.1 hb).2 (hbk.symm ▸ hmid)
    · have hcount := sum_midwayCount hpc' hlay
      have hone : (IterPc.send pos : IterPc K V).midwayCount s.table = 1 := by
        simp [IterPc.midwayCount, IterPc.midway, hk]
      have hzero : (s.pc w).midwayCount s.table = 0 := by
        simp [IterPc.midwayCount, hnone]
      have htotal : s'.table.totalUpdates = s.table.totalUpdates := by
        rw [htable]
        rfl
      show _ = s.table.totalUpdates + (∑ w, (s.pc w).midwayCount s.table) + 1
      omega
    · have hsent : (IterPc.send pos).pending kernel s'.table (s.output w)
          = Engine.messages kernel c := by
        rw [IterPc.pending, htable, StateTable.rewriteAt, List.getElem?_map, hc, Option.map_some,
          atKey, if_pos ⟨hu, rfl⟩]
        rfl
      rw [hI.pending_rewriteAt hsection hpc' hout (by rw [htable]), hsent]
  rw [heq]
  exact hstep

/-- `accumulateF1` is the delivery of a message. -/
theorem atomic_apply (hI : Inv hashobj t₀ s) {kvpair : K × V} {rest : List (K × V)}
    (hpc : s.pc w = .apply kvpair rest) (hk : kvpair.1 ∈ s.table.vertices)
    (hpc' : s'.pc = Function.update s.pc w (.unlockTarget kvpair rest))
    (hout : s'.output = s.output)
    (htable : s'.table = s.table.rewriteAt kvpair.1 (Engine.received kernel kvpair.2)) :
    Engine.Step hashobj kernel (s.atomic kernel) (.deliver w) (s'.atomic kernel) := by
  have hsection : (s.pc w).inSection s.table = some kvpair.1 := by
    rw [hpc]
    rfl
  have hnone : (s.pc w).midway s.table = none := by
    rw [hpc]
    rfl
  have hfree := hI.not_midway hsection (by rw [hnone]; exact (Option.some_ne_none _).symm)
  have hkeeps := Engine.keepsKey_received kernel kvpair.2 (D := D)
  have hlay : s'.table.layout = s.table.layout := by
    rw [htable]
    exact StateTable.layout_rewriteAt hkeeps _
  have hmid : ∀ k, (IterPc.unlockTarget kvpair rest).midway s.table = some k
      ↔ (s.pc w).midway s.table = some k := by
    intro k
    rw [hnone]
    rfl
  have hfree' : ∀ w', (s'.pc w').midway s'.table ≠ some kvpair.1 := fun w' h =>
    hfree w' ((midway_iff hpc' hlay (hmid _) w').1 h)
  have hmem : kvpair.1 ∈ (s.atomic kernel).table.vertices := by
    show kvpair.1 ∈ StateTable.vertices { s.table with
      buckets := s.table.buckets.map (settle kernel s) }
    rw [StateTable.vertices_map (keepsKey_settle kernel)]
    exact hk
  have hpending : (s.atomic kernel).output w = kvpair :: rest := by
    show (s.pc w).pending kernel s.table (s.output w) = _
    rw [hpc]
    rfl
  have heq : s'.atomic kernel
      = ⟨(s.atomic kernel).table.rewriteAt kvpair.1 (Engine.received kernel kvpair.2),
        Function.update (s.atomic kernel).output w rest⟩ := by
    refine atomic_eq ?_ (by rw [htable]; rfl) (by rw [htable]; rfl) ?_ fun w' => ?_
    · refine map_settle hpc' hkeeps (by rw [htable]) (fun k' _ => hmid k') fun c hc hck => ?_
      rw [settle_eq_self (c := c) (by rwa [hck]), settle_eq_self]
      rw [(hkeeps c).1, hck]
      exact hfree'
    · have hcount := sum_midwayCount hpc' hlay
      have hzero : (s.pc w).midwayCount s.table = 0 := by
        simp [IterPc.midwayCount, hnone]
      have hzero' : (IterPc.unlockTarget kvpair rest : IterPc K V).midwayCount s.table = 0 := rfl
      have htotal : s'.table.totalUpdates = s.table.totalUpdates := by
        rw [htable]
        rfl
      show _ = s.table.totalUpdates + ∑ w, (s.pc w).midwayCount s.table
      omega
    · exact hI.pending_rewriteAt hsection hpc' hout (by rw [htable]) w'
  rw [heq]
  exact Engine.Step.deliver hpending (accumulateF1_eq (wf_atomic hI) hmem kvpair.2)

/-- `updateF1` was already done when the state is finished. -/
theorem atomic_reset (hI : Inv hashobj t₀ s) {pos : ℕ} {k : K} (hpc : s.pc w = .reset pos)
    (hk : s.table.layout pos = some k) (hpc' : s'.pc = Function.update s.pc w (.unlock pos))
    (hout : s'.output = s.output)
    (htable : s'.table = { s.table.rewriteAt k (cleared kernel) with
      totalUpdates := s.table.totalUpdates + 1 }) :
    s'.atomic kernel = s.atomic kernel := by
  have hmid : (s.pc w).midway s.table = some k := by
    rw [hpc]
    exact hk
  have hsection := inSection_of_midway hmid
  have hkeeps := keepsKey_cleared (D := D) kernel
  have hbuckets : s'.table.buckets = (s.table.rewriteAt k (cleared kernel)).buckets := by
    rw [htable]
  have hlay : s'.table.layout = s.table.layout := by
    refine Eq.trans ?_ (StateTable.layout_rewriteAt hkeeps k)
    funext i
    simp only [StateTable.layout, hbuckets]
  have hfree : ∀ w', (s'.pc w').midway s'.table ≠ some k := by
    intro w' h
    rw [midway_congr hlay, hpc'] at h
    by_cases hw : w' = w
    · rw [hw, Function.update_self] at h
      cases h
    · rw [Function.update_of_ne hw] at h
      exact hw (hI.exclusive hsection (inSection_of_midway h))
  refine atomic_eq ?_ (by rw [htable]; rfl) (by rw [htable]; rfl) ?_ fun w' => ?_
  · rw [map_settle (g := id) hpc' hkeeps hbuckets]
    · have hid : atKey k id = (id : Bucket K V D → _) := by
        funext c
        exact ite_self c
      rw [hid, List.map_id]
      rfl
    · intro k' hk'
      rw [hmid, Option.some.injEq]
      exact ⟨fun h => (Option.some_ne_none _ h.symm).elim, fun h => absurd h.symm hk'⟩
    · intro c hc hck
      rw [settle_eq_cleared (StateTable.mem_stored.1 hc).2 (hck.symm ▸ hmid), settle_eq_self]
      · rfl
      · rw [(hkeeps c).1, hck]
        exact hfree
  · have hcount := sum_midwayCount hpc' hlay
    have hone : (s.pc w).midwayCount s.table = 1 := by
      simp [IterPc.midwayCount, hmid]
    have hzero : (IterPc.unlock pos : IterPc K V).midwayCount s.table = 0 := rfl
    have htotal : s'.table.totalUpdates = s.table.totalUpdates + 1 := by
      rw [htable]
    show _ = s.table.totalUpdates + ∑ w, (s.pc w).midwayCount s.table
    omega
  · rw [hI.pending_rewriteAt hsection hpc' hout hbuckets]
    refine congrFun (Function.update_eq_self_iff.2 ?_) w'
    show _ = (s.pc w).pending kernel s.table (s.output w)
    rw [hpc]
    rfl

/-- What a step does to the finished state, by its program point. -/
theorem atomic_at (hI : Inv hashobj t₀ s) (hbuf : BuffersEmpty s) (h : Effect kernel s w s') :
    match s.pc w with
    | .accumulate pos => ∃ k, s.table.layout pos = some k ∧
        Engine.Step hashobj kernel (s.atomic kernel) (.absorb w k) (s'.atomic kernel)
    | .apply _ _ => Engine.Step hashobj kernel (s.atomic kernel) (.deliver w) (s'.atomic kernel)
    | _ => s'.atomic kernel = s.atomic kernel := by
  have hother : ∀ {output : List (K × V)} (w'), w' ≠ w →
      Function.update s.output w output w' = s.output w' :=
    fun _ hw' => Function.update_of_ne hw' ..
  cases h with
  | enter hpc hk =>
    simp only [hpc]
    exact atomic_of_goto rfl rfl (fun _ _ => rfl) (by rw [hpc]; rfl) (by rw [hpc]; rfl)
  | lock hpc hk hfree =>
    simp only [hpc]
    exact atomic_of_goto rfl rfl (fun _ _ => rfl) (by rw [hpc]; rfl) (by rw [hpc]; rfl)
  | process hpc =>
    simp only [hpc]
    exact atomic_of_goto rfl rfl (fun _ _ => rfl) (by rw [hpc]; rfl) (by rw [hpc]; rfl)
  | accumulate hpc hk =>
    simp only [hpc]
    exact ⟨_, hk, atomic_accumulate hI hpc hk rfl rfl rfl⟩
  | @send pos c hpc hk hc =>
    simp only [hpc]
    refine atomic_of_goto rfl rfl hother (by rw [hpc]; rfl) ?_
    have hempty := hbuf w (by rw [hpc]; rfl)
    rw [hpc]
    simp [IterPc.pending, Engine.getElem?_of_layout hI.wf hk hc, hempty]
  | reset hpc hk =>
    simp only [hpc]
    exact atomic_reset hI hpc hk rfl rfl rfl
  | unlock hpc hk =>
    simp only [hpc]
    exact atomic_of_goto rfl rfl (fun _ _ => rfl) (by rw [hpc]; rfl) (by rw [hpc]; rfl)
  | leave hpc =>
    simp only [hpc]
    exact atomic_of_goto rfl rfl hother (by rw [hpc]; rfl) (by rw [hpc]; rfl)
  | next hpc =>
    simp only [hpc]
    exact atomic_of_goto rfl rfl (fun _ _ => rfl) (by rw [hpc]; rfl) (by rw [hpc]; rfl)
  | lockTarget hpc hfree =>
    simp only [hpc]
    exact atomic_of_goto rfl rfl (fun _ _ => rfl) (by rw [hpc]; rfl) (by rw [hpc]; rfl)
  | apply hpc hk =>
    simp only [hpc]
    exact atomic_apply hI hpc hk rfl rfl rfl
  | unlockTarget hpc =>
    simp only [hpc]
    exact atomic_of_goto rfl rfl (fun _ _ => rfl) (by rw [hpc]; rfl) (by rw [hpc]; rfl)

/-- **A step** is the critical section that it belongs to, or changes nothing. -/
theorem atomic_effect (hI : Inv hashobj t₀ s) (hbuf : BuffersEmpty s)
    (h : Effect kernel s w s') :
    s'.atomic kernel = s.atomic kernel ∨
      ∃ a, Engine.Step hashobj kernel (s.atomic kernel) a (s'.atomic kernel) := by
  have hat := atomic_at hI hbuf h
  cases hpc : s.pc w <;> simp only [hpc] at hat
  case accumulate =>
    obtain ⟨k, -, hstep⟩ := hat
    exact Or.inr ⟨_, hstep⟩
  case apply => exact Or.inr ⟨_, hat⟩
  all_goals exact Or.inl hat

/-! ### Runs -/

variable (kernel) in
/-- Between the calls of `run_iter` nothing is left to finish. -/
theorem atomic_of_outside (h : ∀ w, s.pc w = .outside) :
    s.atomic kernel = ⟨s.table, fun _ => []⟩ := by
  have hsettle : settle kernel s = id := by
    funext c
    refine settle_eq_self fun w hw => ?_
    rw [h w] at hw
    cases hw
  refine atomic_eq (by rw [hsettle, List.map_id]) rfl rfl ?_ fun w => by rw [h w]; rfl
  simp [h, IterPc.midwayCount, IterPc.midway]

/-- **A run of the threads is a run of critical sections.** -/
theorem reaches_atomic [Inhabited (Bucket K V D)] (hload : Loaded hashobj kernel t₀)
    (h : Reaches hashobj kernel (start t₀) s) :
    Engine.Reaches hashobj kernel (Engine.start t₀) (s.atomic kernel) := by
  have hstart : (start t₀ : State K V D n).atomic kernel = Engine.start t₀ :=
    atomic_of_outside kernel fun _ => rfl
  rw [← hstart]
  refine h.simulation (I := fun s => Inv hashobj t₀ s ∧ BuffersEmpty s) ?_ ?_
    ⟨inv_start hload, fun _ _ => rfl⟩
  · rintro s a s' ⟨hI, hbuf⟩ h
    obtain ⟨heffect, hI'⟩ := step_effect hI h
    exact ⟨hI', buffersEmpty_effect heffect hbuf⟩
  · rintro s a s' ⟨hI, hbuf⟩ h
    exact atomic_effect hI hbuf (iterStep_effect hI h)

/-- **Between the calls of `run_iter`** the table is one that critical sections taken in one step
leave, so what holds of those holds of the threads that interleave them. -/
theorem reaches_of_outside [Inhabited (Bucket K V D)] (hload : Loaded hashobj kernel t₀)
    (h : Reaches hashobj kernel (start t₀) s) (hout : ∀ w, s.pc w = .outside) :
    Engine.Reaches hashobj kernel (Engine.start t₀ : Engine K V D n) ⟨s.table, fun _ => []⟩ := by
  rw [← atomic_of_outside kernel hout]
  exact reaches_atomic hload h

end Vertexlock

end Maiter
