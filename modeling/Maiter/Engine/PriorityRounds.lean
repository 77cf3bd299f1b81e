import Maiter.Engine.Convergence
import Maiter.Lib.Greedy
import Maiter.PrioritySchedule

/-!
# Convergence with the priority schedule

With `schedule_portion < 1` a round processes only the vertices of high priority, as far as a random
sample tells.  The priority of PageRank, Katz and Adsorption is the delta.

* `PriorityRound`: a completed round with a `ScheduledIterator`;
* `length_le_of_round`, `perm_keys`: in a table without free buckets it processes every scheduled
  vertex once;
* `greatest_absorbed`: a vertex with the greatest delta is among them, whatever is sampled;
* `notAccumulated_priorityRound`: so every round shrinks what is not accumulated;
* `priority_rounds_converge`: the three kernels.
-/

namespace Maiter

open DeltaIteration (Action absorbed)

variable {K V D : Type}

/-! ### What is scheduled -/

/-- A round that succeeds has a position for every thread. -/
theorem length_le_of_round {isInUse : ℕ → Except Fault Bool} {key : ℕ → Except Fault K}
    {threadInterval : List KVVPair} {count : ℕ} {visits : List K}
    (hid : (threadInterval.map (·.threadId)).Nodup) (h1 : 1 ≤ threadInterval.length)
    (h : round isInUse key (divide threadInterval.length count threadInterval) = .ok visits) :
    threadInterval.length ≤ count := by
  by_contra hlt
  have hzero : count / threadInterval.length = 0 := Nat.div_eq_of_lt (not_le.1 hlt)
  have hend : threadEnd (divide threadInterval.length count threadInterval)
      (threadInterval[0].threadId) = -1 := by
    rw [(threadEnd_divide count hid h1).2, hzero]
    split_ifs with hlast
    · simp
    · have hcount : count = 0 := by omega
      rw [hcount]
      rfl
  obtain ⟨rest, hvisits, -⟩ := Fallible.bind_eq_ok_iff.1 h
  have hlen : 0 < (divide threadInterval.length count threadInterval).length := by
    rw [length_divide]
    exact h1
  obtain ⟨ks, hks⟩ := Fallible.exists_of_mapM hvisits _ (List.getElem_mem hlen)
  rw [threadId_divide h1, runLoop, if_pos (Or.inr hend)] at hks
  cases hks

section Schedule

variable [LinearOrder V] {kernel : IterateKernel K V D} {schedulePortion : ℚ} {draws : List ℕ}
  {t : StateTable K V D} {threadInterval threadInterval' : List KVVPair} {it : ScheduledIterator}
  {n : ℕ}

/-- Nothing of greater priority is needed for an entry with a delta to be selected. -/
theorem Selects.greatest {p : Bucket K V D → Bool} (h : Selects kernel t p) {c : Bucket K V D}
    (hmax : ∀ b ∈ t.stored, b.priority ≤ c.priority) (hdelta : c.v1 ≠ kernel.defaultV) :
    p c = true := by
  cases h with
  | all => rfl
  | reaching hcut =>
    simp only [Bool.and_eq_true, decide_eq_true_eq]
    exact ⟨hdelta, hmax _ hcut⟩
  | exceeding htop hlt =>
    simp only [Bool.and_eq_true, decide_eq_true_eq]
    exact ⟨hdelta, hlt.trans_le (hmax _ htop)⟩

/-- A constructor that returns has selected in one of the three ways. -/
theorem selects_of_new (h0 : 0 ≤ schedulePortion) (h1 : schedulePortion < 1)
    (h : ScheduledIterator.new kernel schedulePortion draws t threadInterval n false
      = .ok (it, threadInterval')) : ∃ p, it.scheduledPos = scan t p ∧ Selects kernel t p := by
  have hdraws : sampleSize < t.entries → sampleSize ≤ (draws.filter (usable t)).length := by
    intro hent
    by_contra hfew
    have hlen : ((draws.filter (usable t)).take sampleSize).length < sampleSize :=
      (List.length_take_le' ..).trans_lt (not_le.1 hfew)
    simp only [ScheduledIterator.new, if_neg (not_le.2 hent), if_pos hlen] at h
    cases h
  obtain ⟨it', ti, p, hnew, hscan, hsel⟩ :=
    ScheduledIterator.new_selects kernel threadInterval n h0 h1 hdraws
  rw [h, Except.ok.injEq, Prod.mk.injEq] at hnew
  exact ⟨p, hnew.1 ▸ hscan, hsel⟩

/-- **In a table without free buckets** a round processes every scheduled vertex once. -/
theorem perm_keys (hlen : t.buckets.length = t.size) (hfull : ∀ c ∈ t.buckets, c.inUse = true)
    (h : ScheduledIterator.new kernel schedulePortion draws t threadInterval threadInterval.length
      false = .ok (it, threadInterval')) (hid : (threadInterval.map (·.threadId)).Nodup)
    (h1 : 1 ≤ threadInterval.length) {visits : List K}
    (hvisits : it.round t threadInterval' = .ok visits) : visits = it.keys t := by
  obtain ⟨⟨p, hscan⟩, hdiv⟩ := ScheduledIterator.new_spec h
  have hn : threadInterval.length ≤ it.scheduledPos.length := by
    rw [hdiv] at hvisits
    exact length_le_of_round hid h1 hvisits
  obtain ⟨f, hkeys, hround⟩ := ScheduledIterator.round_eq hlen h hid h1 hn
  have huse : ∀ pos ∈ List.range it.scheduledPos.length, usable t pos = true := by
    intro pos hpos
    have hle : it.scheduledPos.length ≤ t.size := hscan ▸ length_scan_le p
    have hpos' : pos < t.buckets.length := by
      rw [hlen]
      exact (List.mem_range.1 hpos).trans_le hle
    rw [usable, List.getElem?_eq_getElem hpos', Option.any_some]
    exact hfull _ (List.getElem_mem hpos')
  rw [hround, List.filter_eq_self.2 huse, hkeys, Except.ok.injEq] at hvisits
  exact hvisits.symm

/-- **An entry of the greatest priority is processed**, if it has a delta. -/
theorem greatest_visited (hlen : t.buckets.length = t.size)
    (hfull : ∀ c ∈ t.buckets, c.inUse = true) (h0 : 0 ≤ schedulePortion) (h1 : schedulePortion < 1)
    (h : ScheduledIterator.new kernel schedulePortion draws t threadInterval threadInterval.length
      false = .ok (it, threadInterval')) (hid : (threadInterval.map (·.threadId)).Nodup)
    (hpos : 1 ≤ threadInterval.length) {visits : List K}
    (hvisits : it.round t threadInterval' = .ok visits) {c : Bucket K V D} (hc : c ∈ t.stored)
    (hmax : ∀ b ∈ t.stored, b.priority ≤ c.priority) (hdelta : c.v1 ≠ kernel.defaultV) :
    c.k ∈ visits := by
  obtain ⟨p, hscan, hsel⟩ := selects_of_new h0 h1 h
  obtain ⟨hmem, hu⟩ := StateTable.mem_stored.1 hc
  obtain ⟨b, hb⟩ := List.mem_iff_getElem?.1 hmem
  have hsched : b ∈ it.scheduledPos := by
    rw [hscan, mem_scan_iff hlen]
    exact ⟨c, hb, hu, hsel.greatest hmax hdelta⟩
  rw [perm_keys hlen hfull h hid hpos hvisits]
  exact List.mem_filterMap.2 ⟨b, hsched, by rw [hb]; rfl⟩

end Schedule

namespace Engine

variable {K D : Type} [DecidableEq K] {n : ℕ} {hashobj : K → ℕ} {kernel : IterateKernel K ℚ D}
  {schedulePortion γ : ℚ} {t₀ : StateTable K ℚ D} {e e' : Engine K ℚ D n}

/-- A completed round with the priority schedule: from empty buffers to empty buffers, and processed
is what the `n` threads walk through the iterator that the scheduler has built from the table. -/
structure PriorityRound {V : Type} [LinearOrder V] [Zero V] (hashobj : K → ℕ)
    (kernel : IterateKernel K V D) (schedulePortion : ℚ) (e : Engine K V D n)
    (l : List (Action K (Fin n))) (e' : Engine K V D n) : Prop where
  run : LTS.Run (Step hashobj kernel) e l e'
  start : ∀ w, e.output w = []
  finish : ∀ w, e'.output w = []
  scheduled : ∃ draws threadInterval it threadInterval' visits,
    threadInterval.length = n ∧ (threadInterval.map (·.threadId)).Nodup ∧
    ScheduledIterator.new kernel schedulePortion draws e.table threadInterval n false
      = .ok (it, threadInterval') ∧
    it.round e.table threadInterval' = .ok visits ∧ (absorbed l).Perm visits

/-! ### What every round needs -/

/-- No bucket is free, and the priorities are the deltas. -/
structure Prioritized (e : Engine K ℚ D n) : Prop where
  full : ∀ pos < e.table.size, e.table.layout pos ≠ none
  priority : ∀ c ∈ e.table.stored, c.priority = c.v1

/-- The kernel takes the delta as the priority. -/
def DeltaPriority (kernel : IterateKernel K ℚ D) : Prop :=
  kernel.defaultV = 0 ∧ ∀ value delta, kernel.priority value delta = delta

theorem prioritized_start [Inhabited (Bucket K ℚ D)] (hk : DeltaPriority kernel)
    (hload : Loaded hashobj kernel t₀) (hfull : ∀ c ∈ t₀.buckets, c.inUse = true) :
    Prioritized (start t₀ : Engine K ℚ D n) where
  full pos hpos := by
    have hlt : pos < t₀.buckets.length := by
      rw [hload.good.wf.len]
      exact hpos
    intro hnone
    have hfree := StateTable.layout_eq_none_iff.1 hnone _ (List.getElem?_eq_getElem hlt)
    rw [hfull _ (List.getElem_mem hlt)] at hfree
    cases hfree
  priority := by
    obtain ⟨depth, numNodes, rows, h⟩ := hload
    have hgood : StateTable.Good hashobj (fun c => c.priority = c.v1) t₀ :=
      StateTable.good_load (fun c _ => hk.2 _ _) (fun k d => hk.2 _ _) h
    exact hgood.all

/-- No step frees a bucket or makes a priority stale. -/
theorem prioritized_step (hk : DeltaPriority kernel) {a : Action K (Fin n)}
    (hI : Inv hashobj t₀ e) (hp : Prioritized e) (h : Step hashobj kernel e a e') :
    Prioritized e' where
  full := by
    obtain ⟨hsize, hlay⟩ := step_layout h
    rw [hsize, hlay]
    exact hp.full
  priority c hc := by
    have hfind := (inv_step hI h).wf.find_eq_some_iff.2 ⟨hc, rfl⟩
    have hold : e.table.find c.k = some c → c.priority = c.v1 := fun h =>
      hp.priority c (StateTable.find_some h).1
    rcases step_cases hI.wf h with
      ⟨w, b, -, -, -, -, hfind', -⟩ | ⟨w, k, x, ms, b, -, -, -, -, hfind', -⟩
    · rw [hfind'] at hfind
      split_ifs at hfind
      · cases hfind
        exact hk.1.symm
      · exact hold hfind
    · rw [hfind'] at hfind
      split_ifs at hfind
      · cases hfind
        exact hk.2 _ _
      · exact hold hfind

theorem prioritized_run (hk : DeltaPriority kernel) {l : List (Action K (Fin n))}
    (h : LTS.Run (Step hashobj kernel) e l e') (hI : Inv hashobj t₀ e) (hp : Prioritized e) :
    Inv hashobj t₀ e' ∧ Prioritized e' :=
  h.invariant (I := fun e => Inv hashobj t₀ e ∧ Prioritized e)
    (fun _ _ _ hs ha => ⟨inv_step hs.1 ha, prioritized_step hk hs.1 hs.2 ha⟩) ⟨hI, hp⟩

/-- The buckets of such a state are in use. -/
theorem Prioritized.inUse (hI : Inv hashobj t₀ e) (hp : Prioritized e) :
    ∀ c ∈ e.table.buckets, c.inUse = true := by
  intro c hc
  obtain ⟨pos, hpos, rfl⟩ := List.mem_iff_getElem.1 hc
  obtain ⟨k, hk⟩ := Option.ne_none_iff_exists'.1 (hp.full pos (by rwa [← hI.wf.len]))
  obtain ⟨c, hc, hu, -⟩ := StateTable.layout_eq_some_iff.1 hk
  rw [List.getElem?_eq_getElem hpos, Option.some.injEq] at hc
  rw [hc]
  exact hu

/-! ### The rate -/

section Rate

variable {lin : Linear kernel ℚ} {e e' : Engine K ℚ D (n + 1)} {l : List (Action K (Fin (n + 1)))}

/-- **The vertices with the greatest delta are absorbed** in a round, whatever is sampled. -/
theorem greatest_absorbed (hid : lin.toR = id) (hI : Inv hashobj t₀ e) (hp : Prioritized e)
    (h0 : 0 ≤ schedulePortion) (h1 : schedulePortion < 1)
    (h : PriorityRound hashobj kernel schedulePortion e l e') {k : K} (hk : k ∈ t₀.vertices)
    (hmax : ∀ j ∈ t₀.vertices, (lin.abs e).delta j ≤ (lin.abs e).delta k)
    (hdelta : (lin.abs e).delta k ≠ 0) : k ∈ absorbed l := by
  have hdeltas : ∀ {c : Bucket K ℚ D}, c ∈ e.table.stored → (lin.abs e).delta c.k = c.v1 := by
    intro c hc
    show lin.deltas e.table c.k = c.v1
    rw [Linear.deltas_of_find lin (hI.wf.find_eq_some_iff.2 ⟨hc, rfl⟩), hid, id]
  have hverts : e.table.vertices = t₀.vertices := hI.graph.vertices
  rw [← hverts] at hk
  obtain ⟨c, hc, rfl⟩ := StateTable.mem_vertices.1 hk
  obtain ⟨draws, threadInterval, it, threadInterval', visits, hn, hids, hnew, hround, hperm⟩ :=
    h.scheduled
  have hdefault : kernel.defaultV = 0 := by
    have hzero := lin.defaultV_eq
    rwa [hid, id] at hzero
  have hnew' : ScheduledIterator.new kernel schedulePortion draws e.table threadInterval
      threadInterval.length false = .ok (it, threadInterval') := by
    rw [hn]
    exact hnew
  refine hperm.mem_iff.2 (greatest_visited hI.wf.len (hp.inUse hI) h0 h1 hnew' hids (by omega)
    hround hc (fun b hb => ?_) ?_)
  · rw [hp.priority b hb, hp.priority c hc, ← hdeltas hb, ← hdeltas hc]
    exact hmax b.k (hverts ▸ StateTable.mem_vertices.2 ⟨b, hb, rfl⟩)
  · rwa [hdefault, ← hdeltas hc]

variable [Inhabited (Bucket K ℚ D)]

/-- **Every round shrinks** what is not accumulated. -/
theorem notAccumulated_priorityRound (hid : lin.toR = id) (hload : Loaded hashobj kernel t₀)
    (hc : Contracts kernel lin.coef t₀ γ) (hk : DeltaPriority kernel)
    (hfull : ∀ c ∈ t₀.buckets, c.inUse = true) (h0 : 0 ≤ schedulePortion)
    (h1 : schedulePortion < 1) (hreach : Reaches hashobj kernel (Engine.start t₀) e)
    (hround : PriorityRound hashobj kernel schedulePortion e l e') :
    notAccumulated e' ≤ (1 - (1 - γ) / t₀.vertices.card) * notAccumulated e := by
  have hg := hc.contracting
  have hvalues := values_reaches lin hg.pos.closed (hc.init_system hid) hload hreach
  obtain ⟨m, hm⟩ := hreach
  obtain ⟨hI, hp⟩ := prioritized_run hk hm (inv_start hload) (prioritized_start hk hload hfull)
  obtain ⟨hI', -⟩ := prioritized_run hk hround.run hI hp
  have hshrink := DeltaIteration.leftover_of_greatest hg (run_refines lin hI hround.run) hvalues
    (fun w => by simp [Linear.abs, hround.start w])
    fun k hk hmax hdelta => greatest_absorbed hid hI hp h0 h1 hround hk hmax hdelta
  rwa [leftover_abs hid hI, leftover_abs hid hI'] at hshrink

theorem notAccumulated_priorityRounds (hid : lin.toR = id) (hload : Loaded hashobj kernel t₀)
    (hc : Contracts kernel lin.coef t₀ γ) (hk : DeltaPriority kernel)
    (hfull : ∀ c ∈ t₀.buckets, c.inUse = true) (h0 : 0 ≤ schedulePortion)
    (h1 : schedulePortion < 1) {r : ℕ}
    (h : LTS.Rounds (PriorityRound hashobj kernel schedulePortion) (Engine.start t₀) r e) :
    notAccumulated e ≤ (1 - (1 - γ) / t₀.vertices.card) ^ r * (t₀.stored.map (·.v1)).sum := by
  induction h with
  | zero => simp [notAccumulated, Engine.start]
  | @succ r l e e' hrounds hround ih =>
    have hreach := hrounds.reaches fun _ _ _ h => h.run
    have hrate := DeltaIteration.greedy_rate_nonneg hc.rate_nonneg hc.rate_lt_one
      t₀.vertices.card
    calc notAccumulated e' ≤ (1 - (1 - γ) / t₀.vertices.card) * notAccumulated e :=
        notAccumulated_priorityRound hid hload hc hk hfull h0 h1 hreach hround
      _ ≤ (1 - (1 - γ) / t₀.vertices.card) *
          ((1 - (1 - γ) / t₀.vertices.card) ^ r * (t₀.stored.map (·.v1)).sum) :=
        mul_le_mul_of_nonneg_left ih hrate
      _ = _ := by ring

/-- The limit, with what a round of the priority schedule is worth in a table without free
buckets. -/
structure PriorityLimit (hashobj : K → ℕ) (kernel : IterateKernel K ℚ D)
    (coef : D → List (K × ℚ)) (t₀ : StateTable K ℚ D) (γ : ℚ) (x : K → ℚ) : Prop
    extends Limit hashobj kernel coef t₀ γ x where
  shrinks : (∀ c ∈ t₀.buckets, c.inUse = true) →
    ∀ {n : ℕ} {schedulePortion : ℚ} {e e' : Engine K ℚ D (n + 1)}
      {l : List (Action K (Fin (n + 1)))}, 0 ≤ schedulePortion → schedulePortion < 1 →
    Reaches hashobj kernel (Engine.start t₀) e →
    PriorityRound hashobj kernel schedulePortion e l e' →
    notAccumulated e' ≤ (1 - (1 - γ) / t₀.vertices.card) * notAccumulated e
  priority_rate : (∀ c ∈ t₀.buckets, c.inUse = true) →
    ∀ {n r : ℕ} {schedulePortion : ℚ} {e : Engine K ℚ D (n + 1)}, 0 ≤ schedulePortion →
    schedulePortion < 1 →
    LTS.Rounds (PriorityRound hashobj kernel schedulePortion) (Engine.start t₀) r e →
    (1 - γ) * errorTo x e.table
      ≤ (1 - (1 - γ) / t₀.vertices.card) ^ r * (t₀.stored.map (·.v1)).sum

theorem priorityLimit_of_contracts (lin : Linear kernel ℚ) (hid : lin.toR = id)
    (hload : Loaded hashobj kernel t₀) (hc : Contracts kernel lin.coef t₀ γ)
    (hk : DeltaPriority kernel) : ∃ x, PriorityLimit hashobj kernel lin.coef t₀ γ x := by
  obtain ⟨x, hx⟩ := limit_of_contracts lin hid hload hc
  refine ⟨x, hx, fun hfull n schedulePortion e e' l h0 h1 hreach hround => ?_,
    fun hfull n r schedulePortion e h0 h1 h => ?_⟩
  · exact notAccumulated_priorityRound hid hload hc hk hfull h0 h1 hreach hround
  · exact (hx.error_le (h.reaches fun _ _ _ h => h.run)).trans
      (notAccumulated_priorityRounds hid hload hc hk hfull h0 h1 h)

end Rate

/-! ### The three kernels -/

/-- **The three kernels converge with the priority schedule.**  If the table has no free bucket,
every round shrinks what is not accumulated by the factor `1 - (1 - γ) / m`, where `m` is the number
of vertices, however few vertices it schedules; hence the bound on the error after `r` rounds. -/
theorem priority_rounds_converge (hashobj : Int32 → ℕ) :
    (∀ t₀ : StateTable Int32 ℚ (List Int32), Loaded hashobj pagerankIterateKernel t₀ →
      ∃ x, PriorityLimit hashobj pagerankIterateKernel pagerankCoef t₀ 0.8 x) ∧
    (∀ (katzSource : UInt64) (katzBeta γ : ℚ) (t₀ : StateTable Int32 ℚ (List Int32)),
      Loaded hashobj (katzIterateKernel katzSource katzBeta) t₀ → 0 ≤ katzBeta →
      (∀ c ∈ t₀.stored, katzBeta * c.v3.length ≤ γ) → 0 ≤ γ → γ < 1 →
      ∃ x, PriorityLimit hashobj (katzIterateKernel katzSource katzBeta) (katzCoef katzBeta) t₀
        γ x) ∧
    (∀ (adsorptionStarts : UInt64) (adsorptionDamping γ : ℚ)
        (t₀ : StateTable Int32 ℚ (List Link)),
      Loaded hashobj (adsorptionIterateKernel adsorptionStarts adsorptionDamping) t₀ →
      0 ≤ adsorptionDamping → (∀ c ∈ t₀.stored, ∀ target ∈ c.v3, 0 ≤ target.weight) →
      (∀ c ∈ t₀.stored, adsorptionDamping * (c.v3.map Link.weight).sum ≤ γ) → 0 ≤ γ → γ < 1 →
      ∃ x, PriorityLimit hashobj (adsorptionIterateKernel adsorptionStarts adsorptionDamping)
        (adsorptionCoef adsorptionDamping) t₀ γ x) := by
  refine ⟨fun t₀ hload => ?_, fun katzSource katzBeta γ t₀ hload hbeta hsum hγ hlt => ?_,
    fun adsorptionStarts adsorptionDamping γ t₀ hload hdamping hweight hsum hγ hlt => ?_⟩
  · exact priorityLimit_of_contracts pagerankLinear rfl hload (contracts_pagerank t₀)
      ⟨rfl, fun _ _ => rfl⟩
  · exact priorityLimit_of_contracts (katzLinear katzSource katzBeta) rfl hload
      (contracts_katz katzSource hbeta hsum hγ hlt) ⟨rfl, fun _ _ => rfl⟩
  · exact priorityLimit_of_contracts (adsorptionLinear adsorptionStarts adsorptionDamping) rfl
      hload (contracts_adsorption adsorptionStarts hdamping hweight hsum hγ hlt)
      ⟨rfl, fun _ _ => rfl⟩

/-- One thread processes both vertices, which the schedule lists. -/
theorem priorityRound_twoVertices : PriorityRound idHash pagerankIterateKernel 0.2
    (start (twoVertices 0.2 0 0.2 0 0))
    ([.absorb 0 0, .deliver 0, .deliver 0, .absorb 0 1] : List (Action Int32 (Fin 1)))
    ⟨twoVertices 0.08 0.2 0 0.28 2, ![[]]⟩ where
  run := run_of_schedule [(0, 0), (0, 0), (0, 0), (0, 1)] (by decide +kernel)
  start _ := rfl
  finish := by decide
  scheduled := ⟨[], [⟨7, 0, 0⟩], ⟨[0, 1], false⟩, [⟨7, 0, 1⟩], [0, 1], rfl, by decide,
    by decide +kernel, by decide +kernel, List.Perm.refl _⟩

theorem priority_rounds_converge_twoVertices :
    (∃ x, PriorityLimit idHash pagerankIterateKernel pagerankCoef (twoVertices 0.2 0 0.2 0 0)
      0.8 x ∧ (1 - 0.8) * errorTo x (twoVertices 0.08 0.2 0 0.28 2)
        ≤ (1 - (1 - 0.8) / (twoVertices 0.2 0 0.2 0 0).vertices.card) ^ 1 * 0.4) ∧
    notAccumulated (⟨twoVertices 0.08 0.2 0 0.28 2, ![[]]⟩ : Engine Int32 ℚ (List Int32) 1)
      ≤ (1 - (1 - 0.8) / (twoVertices 0.2 0 0.2 0 0).vertices.card) *
        notAccumulated (start (twoVertices 0.2 0 0.2 0 0) : Engine Int32 ℚ (List Int32) 1) ∧
    (∃ x, PriorityLimit idHash (katzIterateKernel 0 0.25) (katzCoef 0.25)
      (twoVertices 1000000 0 0 0 0) 0.5 x) ∧
    ∃ x, PriorityLimit idHash (adsorptionIterateKernel 1 0.5) (adsorptionCoef 0.5) oneLoop
      0.5 x := by
  obtain ⟨hpagerank, hkatz, hadsorption⟩ := priority_rounds_converge idHash
  obtain ⟨x, hx⟩ := hpagerank _ loaded_twoVertices
  refine ⟨⟨x, hx, ?_⟩,
    hx.shrinks (by decide) (by norm_num) (by norm_num) (LTS.Reaches.refl _)
      priorityRound_twoVertices,
    hkatz 0 0.25 0.5 _ ⟨1, 2, [(0, [0, 1]), (1, [])], by decide +kernel⟩ (by norm_num)
      (by decide +kernel) (by norm_num) (by norm_num),
    hadsorption 1 0.5 0.5 _ ⟨1, 1, [(0, [⟨0, 1⟩])], by decide +kernel⟩ (by norm_num)
      (by decide +kernel) (by decide +kernel) (by norm_num) (by norm_num)⟩
  have hrate := hx.priority_rate (by decide) (by norm_num) (by norm_num)
    (LTS.Rounds.zero.succ priorityRound_twoVertices)
  refine hrate.trans (le_of_eq ?_)
  congr 1
  decide +kernel

end Engine

end Maiter
