import Maiter.Engine.Refinement
import Maiter.Kernels
import Maiter.Lib.L1Contraction

/-!
# PageRank, Katz and Adsorption under any schedule

The three kernels that accumulate sums.  A link has the coefficient `0.8 / outdegree` in PageRank,
`katz_beta` in Katz and `damping * weight` in Adsorption.

* `conservation`: for the three kernels, value, delta and buffered messages of a vertex together
  are its initial delta and what the values of all vertices have sent to it;
* `pagerank_l1_le`: two runs of PageRank differ by at most five times what they have not yet
  accumulated;
* `rounds_between`: asynchronous PageRank is not behind the synchronous iteration, and below every
  super-solution.
-/

namespace Maiter

open DeltaIteration (massTo nonneg)

/-! ### Coefficients -/

/-- The links of a vertex with their PageRank coefficients. -/
def pagerankCoef (data : List Int32) : List (Int32 × ℚ) :=
  data.map fun target => (target, 0.8 / data.length)

/-- The links of a vertex with their Katz coefficients. -/
def katzCoef (katzBeta : ℚ) (data : List Int32) : List (Int32 × ℚ) :=
  data.map fun target => (target, katzBeta)

/-- The links of a vertex with their Adsorption coefficients. -/
def adsorptionCoef (adsorptionDamping : ℚ) (data : List Link) : List (Int32 × ℚ) :=
  data.map fun target => (target.dest, adsorptionDamping * target.weight)

/-- PageRank is linear over the rationals. -/
def pagerankLinear : Linear pagerankIterateKernel ℚ where
  toR := id
  coef := pagerankCoef
  initV_eq _ _ := rfl
  defaultV_eq := rfl
  accumulate_eq _ _ := rfl
  gFunc_eq k delta value data := by
    simp only [pagerankIterateKernel, pagerankCoef, List.map_map, id]
    refine List.map_congr_left fun target _ => ?_
    simp only [Function.comp_apply, Prod.map_apply, id, Prod.mk.injEq, true_and]
    ring

/-- Katz is linear over the rationals. -/
def katzLinear (katzSource : UInt64) (katzBeta : ℚ) :
    Linear (katzIterateKernel katzSource katzBeta) ℚ where
  toR := id
  coef := katzCoef katzBeta
  initV_eq _ _ := rfl
  defaultV_eq := rfl
  accumulate_eq _ _ := rfl
  gFunc_eq k delta value data := by
    simp [katzIterateKernel, katzCoef, Function.comp_def]

/-- Adsorption is linear over the rationals. -/
def adsorptionLinear (adsorptionStarts : UInt64) (adsorptionDamping : ℚ) :
    Linear (adsorptionIterateKernel adsorptionStarts adsorptionDamping) ℚ where
  toR := id
  coef := adsorptionCoef adsorptionDamping
  initV_eq _ _ := rfl
  defaultV_eq := rfl
  accumulate_eq _ _ := rfl
  gFunc_eq k delta value data := by
    simp only [adsorptionIterateKernel, adsorptionCoef, List.map_map, id]
    refine List.map_congr_left fun target _ => ?_
    simp only [Function.comp_apply, Prod.map_apply, id, Prod.mk.injEq, true_and]
    ring

namespace Engine

/-! ### Conservation -/

section Conservation

variable {K D : Type} [DecidableEq K] {n : ℕ} {hashobj : K → ℕ} {kernel : IterateKernel K ℚ D}
  {t t₀ : StateTable K ℚ D} {e : Engine K ℚ D n}

/-- The messages to `j` that wait in the output buffers. -/
def messagesTo (e : Engine K ℚ D n) (j : K) : ℚ := ∑ w, massTo j (e.output w)

/-- For every stored vertex, value, delta and waiting messages are the initial delta and, over the
links of all vertices, coefficient times value. -/
def Conserves (kernel : IterateKernel K ℚ D) (coef : D → List (K × ℚ)) (e : Engine K ℚ D n) :
    Prop :=
  ∀ c ∈ e.table.stored, c.v2 + c.v1 + e.messagesTo c.k = kernel.initC c.k c.v3 +
    (e.table.stored.map fun b => massTo c.k ((coef b.v3).map fun l => (l.1, l.2 * b.v2))).sum

/-- A sum over the vertices is a sum over the stored entries. -/
theorem sum_vertices {V R : Type} [AddCommMonoid R] {t : StateTable K V D} (hwf : t.WF hashobj)
    (f : K → R) : ∑ k ∈ t.vertices, f k = (t.stored.map fun c => f c.k).sum := by
  rw [StateTable.vertices, List.sum_toFinset f hwf.nodup_keys, List.map_map]
  rfl

/-- What the vertices send to `j`, over the stored entries. -/
theorem sum_massTo_emit (lin : Linear kernel ℚ) (hwf : t.WF hashobj) (hg : SameGraph t t₀)
    (x : K → ℚ) (j : K) :
    ∑ i ∈ (lin.system t₀).verts, massTo j ((lin.system t₀).emit i (x i))
      = (t.stored.map fun b =>
          massTo j ((lin.coef b.v3).map fun l => (l.1, l.2 * x b.k))).sum := by
  show ∑ i ∈ t₀.vertices, massTo j ((lin.system t₀).emit i (x i)) = _
  rw [← hg.vertices, sum_vertices hwf]
  congr 1
  refine List.map_congr_left fun b hb => ?_
  rw [DeltaIteration.System.emit,
    Linear.links_of_find hg (hwf.find_eq_some_iff.2 ⟨hb, rfl⟩)]

/-- A kernel that is linear over the rationals conserves. -/
theorem conserves_of_linear [Inhabited (Bucket K ℚ D)] (lin : Linear kernel ℚ)
    (hid : lin.toR = id) (hload : Loaded hashobj kernel t₀)
    (h : Reaches hashobj kernel (start t₀) e) :
    SameGraph e.table t₀ ∧ Conserves kernel lin.coef e := by
  have hI := inv_loaded hload h
  refine ⟨hI.graph, fun c hc => ?_⟩
  have hfind : ∀ b ∈ e.table.stored, e.table.find b.k = some b := fun b hb =>
    hI.wf.find_eq_some_iff.2 ⟨hb, rfl⟩
  have hval : ∀ b ∈ e.table.stored, (lin.abs e).val b.k = b.v2 := fun b hb => by
    show lin.vals e.table b.k = b.v2
    rw [Linear.vals_of_find lin (hfind b hb), hid, id]
  have hdelta : (lin.abs e).delta c.k = c.v1 := by
    show lin.deltas e.table c.k = c.v1
    rw [Linear.deltas_of_find lin (hfind c hc), hid, id]
  have hbuf : (lin.abs e).inFlight c.k = e.messagesTo c.k := by
    simp [DeltaIteration.State.inFlight, Linear.abs, messagesTo, hid]
  have hinit : (lin.system t₀).init c.k = kernel.initC c.k c.v3 := by
    obtain ⟨c₀, hc₀⟩ : ∃ c₀, t₀.find c.k = some c₀ ∧ c₀.v3 = c.v3 := by
      have hg := hI.graph c.k
      rw [hfind c hc, Option.map_some, eq_comm, Option.map_eq_some_iff] at hg
      exact hg
    rw [Linear.init_of_find hc₀.1, hid, hc₀.2, id]
  have hb := balanced_reaches lin hload h c.k
  rw [hval c hc, hdelta, hbuf, DeltaIteration.System.next, hinit,
    sum_massTo_emit lin hI.wf hI.graph] at hb
  rw [hb]
  congr 2
  exact List.map_congr_left fun b hb => by rw [hval b hb]

end Conservation

variable {n n' : ℕ} {hashobj hashobj' : Int32 → ℕ}

/-- **No delta is lost or counted twice**, by any number of threads in any order, in the three
kernels that accumulate sums. -/
theorem conservation :
    (∀ (t₀ : StateTable Int32 ℚ (List Int32)) (e : Engine Int32 ℚ (List Int32) n),
      Loaded hashobj pagerankIterateKernel t₀ →
      Reaches hashobj pagerankIterateKernel (start t₀) e →
      SameGraph e.table t₀ ∧ Conserves pagerankIterateKernel pagerankCoef e) ∧
    (∀ (katzSource : UInt64) (katzBeta : ℚ) (t₀ : StateTable Int32 ℚ (List Int32))
        (e : Engine Int32 ℚ (List Int32) n),
      Loaded hashobj (katzIterateKernel katzSource katzBeta) t₀ →
      Reaches hashobj (katzIterateKernel katzSource katzBeta) (start t₀) e →
      SameGraph e.table t₀ ∧
        Conserves (katzIterateKernel katzSource katzBeta) (katzCoef katzBeta) e) ∧
    (∀ (adsorptionStarts : UInt64) (adsorptionDamping : ℚ) (t₀ : StateTable Int32 ℚ (List Link))
        (e : Engine Int32 ℚ (List Link) n),
      Loaded hashobj (adsorptionIterateKernel adsorptionStarts adsorptionDamping) t₀ →
      Reaches hashobj (adsorptionIterateKernel adsorptionStarts adsorptionDamping) (start t₀) e →
      SameGraph e.table t₀ ∧ Conserves (adsorptionIterateKernel adsorptionStarts adsorptionDamping)
        (adsorptionCoef adsorptionDamping) e) := by
  refine ⟨fun t₀ e hload h => ?_, fun katzSource katzBeta t₀ e hload h => ?_,
    fun adsorptionStarts adsorptionDamping t₀ e hload h => ?_⟩
  · exact conserves_of_linear pagerankLinear rfl hload h
  · exact conserves_of_linear (katzLinear katzSource katzBeta) rfl hload h
  · exact conserves_of_linear (adsorptionLinear adsorptionStarts adsorptionDamping) rfl hload h

/-- Two vertices: the first one links to itself and to the second one, which has no links. -/
def twoVertices (v1 v2 v1' v2' : ℚ) (totalUpdates : ℕ) : StateTable Int32 ℚ (List Int32) :=
  ⟨[⟨0, v1, v2, [0, 1], v1, true⟩, ⟨1, v1', v2', [], v1', true⟩], 2, 2, totalUpdates⟩

/-- The identity hash function of the vertex ids. -/
def idHash (k : Int32) : ℕ := k.toUInt32.toNat

theorem loaded_twoVertices :
    Loaded idHash pagerankIterateKernel (twoVertices 0.2 0 0.2 0 0) :=
  ⟨1, 2, [(0, [0, 1]), (1, [])], by decide +kernel⟩

/-- Two threads: the first one still has to deliver to the second vertex, which the second one
has processed meanwhile. -/
theorem reaches_twoVertices :
    Reaches idHash pagerankIterateKernel (start (twoVertices 0.2 0 0.2 0 0))
      (⟨twoVertices 0.08 0.2 0 0.2 2, ![[(1, 0.08)], []]⟩ : Engine _ _ _ 2) :=
  (run_of_schedule [(0, 0), (0, 0), (1, 1)] (l := [.absorb 0 0, .deliver 0, .absorb 1 1])
    (by decide +kernel)).reaches

theorem conservation_twoVertices :
    SameGraph (twoVertices 0.08 0.2 0 0.2 2) (twoVertices 0.2 0 0.2 0 0) ∧
    Conserves pagerankIterateKernel pagerankCoef
      (⟨twoVertices 0.08 0.2 0 0.2 2, ![[(1, 0.08)], []]⟩ : Engine _ _ _ 2) :=
  conservation.1 _ _ loaded_twoVertices reaches_twoVertices

/-! ### PageRank: two schedules -/

/-- The value of a vertex. -/
def value (t : StateTable Int32 ℚ (List Int32)) (j : Int32) : ℚ := (t.find j).elim 0 (·.v2)

/-- All deltas and all buffered messages. -/
def leftover (e : Engine Int32 ℚ (List Int32) n) : ℚ :=
  (e.table.stored.map (·.v1)).sum + ∑ w, ((e.output w).map (·.2)).sum

section Pagerank

variable {t₀ t₀' : StateTable Int32 ℚ (List Int32)} {e : Engine Int32 ℚ (List Int32) n}
  {e' : Engine Int32 ℚ (List Int32) n'}

theorem pagerankCoef_nonneg (data : List Int32) : ∀ l ∈ pagerankCoef data, 0 ≤ l.2 := by
  intro l hl
  obtain ⟨target, -, rfl⟩ := List.mem_map.1 hl
  show (0 : ℚ) ≤ 0.8 / data.length
  positivity

/-- A vertex passes on at most `0.8` of its delta. -/
theorem sum_pagerankCoef_le (data : List Int32) : ((pagerankCoef data).map (·.2)).sum ≤ 0.8 := by
  have hsum : ((pagerankCoef data).map (·.2)).sum = data.length * (0.8 / data.length) := by
    simp [pagerankCoef, Function.comp_def]
  rw [hsum]
  rcases Nat.eq_zero_or_pos data.length with h0 | hpos
  · rw [h0]
    norm_num
  · have hlen : (data.length : ℚ) ≠ 0 := by positivity
    rw [mul_div_cancel₀ _ hlen]

theorem pagerank_positive : DeltaIteration.Positive (nonneg ℚ) (pagerankLinear.system t₀) :=
  Linear.positive_system fun c _ => pagerankCoef_nonneg c.v3

theorem pagerank_init_nonneg (k : Int32) : 0 ≤ (pagerankLinear.system t₀).init k :=
  Linear.init_pos (G := nonneg ℚ) (fun _ _ => by show (0 : ℚ) ≤ 0.2; norm_num) k

/-- Values, deltas and messages are never negative. -/
theorem pagerank_nonneg (hload : Loaded hashobj pagerankIterateKernel t₀)
    (h : Reaches hashobj pagerankIterateKernel (start t₀) e) :
    DeltaIteration.Values (fun _ => (nonneg ℚ).pos) (pagerankLinear.abs e) :=
  values_reaches pagerankLinear pagerank_positive.closed pagerank_init_nonneg hload h

theorem leftover_eq (hI : Inv hashobj t₀ e) :
    (pagerankLinear.abs e).leftover t₀.vertices = leftover e := by
  unfold DeltaIteration.State.leftover leftover
  congr 1
  · rw [← hI.graph.vertices, sum_vertices hI.wf]
    congr 1
    refine List.map_congr_left fun c hc => ?_
    exact Linear.deltas_of_find pagerankLinear (hI.wf.find_eq_some_iff.2 ⟨hc, rfl⟩)
  · simp [Linear.abs, pagerankLinear]

theorem system_eq_of_sameGraph (hg : SameGraph t₀ t₀') :
    pagerankLinear.system t₀ = pagerankLinear.system t₀' := by
  have helim : ∀ {α : Type} (z : α) (f : List Int32 → α) (k : Int32),
      (t₀.find k).elim z (fun c => f c.v3) = (t₀'.find k).elim z fun c => f c.v3 := by
    intro α z f k
    have hk := congrArg (fun o => o.elim z f) (hg k)
    simpa only [Option.elim_map, Function.comp_def] using hk
  simp only [Linear.system, DeltaIteration.System.mk.injEq]
  refine ⟨hg.vertices, funext fun k => helim _ _ k, funext fun k => ?_⟩
  exact helim _ (fun data => pagerankLinear.toR (pagerankIterateKernel.initC k data)) k

/-- **The schedule matters only up to the leftover.**  Two runs of PageRank on the same graph, with
any numbers of threads and in any orders, differ by at most five times what they have left. -/
theorem pagerank_l1_le (hload : Loaded hashobj pagerankIterateKernel t₀)
    (hload' : Loaded hashobj' pagerankIterateKernel t₀') (hg : SameGraph t₀ t₀')
    (h : Reaches hashobj pagerankIterateKernel (start t₀) e)
    (h' : Reaches hashobj' pagerankIterateKernel (start t₀') e') :
    ∑ j ∈ t₀.vertices, |value e.table j - value e'.table j| ≤ 5 * (leftover e + leftover e') ∧
    (leftover e = 0 → leftover e' = 0 → ∀ j ∈ t₀.vertices, value e.table j = value e'.table j) := by
  have hI := inv_loaded hload h
  have hI' := inv_loaded hload' h'
  have hnn' := pagerank_nonneg hload' h'
  have hb' := balanced_reaches pagerankLinear hload' h'
  have hleft' := leftover_eq hI'
  rw [← system_eq_of_sameGraph hg] at hb'
  rw [← hg.vertices] at hleft'
  have hγ : ∀ i ∈ (pagerankLinear.system t₀).verts,
      (((pagerankLinear.system t₀).links i).map (·.2)).sum ≤ 0.8 := by
    intro i _
    simp only [Linear.system]
    cases t₀.find i with
    | none => norm_num
    | some c => exact sum_pagerankCoef_le c.v3
  have hbound : (1 - 0.8) * ∑ j ∈ t₀.vertices, |value e.table j - value e'.table j|
      ≤ leftover e + leftover e' := by
    have hl1 := DeltaIteration.l1_le_leftover pagerank_positive hγ (pagerank_nonneg hload h) hnn'
      (balanced_reaches pagerankLinear hload h) hb'
    exact hl1.trans (le_of_eq (congrArg₂ (· + ·) (leftover_eq hI) hleft'))
  have hsum : ∑ j ∈ t₀.vertices, |value e.table j - value e'.table j|
      ≤ 5 * (leftover e + leftover e') := by linarith
  refine ⟨hsum, fun hzero hzero' j hj => ?_⟩
  rw [hzero, hzero', add_zero, mul_zero] at hsum
  have hj0 : |value e.table j - value e'.table j| ≤ 0 :=
    (Finset.single_le_sum (f := fun j => |value e.table j - value e'.table j|)
      (fun i _ => abs_nonneg _) hj).trans hsum
  exact sub_eq_zero.1 (abs_eq_zero.1 (le_antisymm hj0 (abs_nonneg _)))

/-- A single thread that has delivered both messages of the first vertex. -/
theorem reaches_twoVertices_alone :
    Reaches idHash pagerankIterateKernel (start (twoVertices 0.2 0 0.2 0 0))
      (⟨twoVertices 0.08 0.2 0.28 0 1, ![[]]⟩ : Engine _ _ _ 1) :=
  (run_of_schedule [(0, 0), (0, 0), (0, 0)] (l := [.absorb 0 0, .deliver 0, .deliver 0])
    (by decide +kernel)).reaches

theorem pagerank_l1_le_twoVertices :
    ∑ j ∈ (twoVertices 0.2 0 0.2 0 0).vertices,
      |value (twoVertices 0.08 0.2 0 0.2 2) j - value (twoVertices 0.08 0.2 0.28 0 1) j|
      ≤ 5 * (leftover (⟨twoVertices 0.08 0.2 0 0.2 2, ![[(1, 0.08)], []]⟩ : Engine _ _ _ 2)
        + leftover (⟨twoVertices 0.08 0.2 0.28 0 1, ![[]]⟩ : Engine _ _ _ 1)) :=
  (pagerank_l1_le loaded_twoVertices loaded_twoVertices (fun _ => rfl) reaches_twoVertices
    reaches_twoVertices_alone).1

/-! ### PageRank: rounds -/

/-- The right-hand side of the PageRank equation of `j` at the values `x`. -/
def pagerankNext (t : StateTable Int32 ℚ (List Int32)) (x : Int32 → ℚ) (j : Int32) : ℚ :=
  0.2 + (t.stored.map fun b => (b.v3.map fun target =>
    if target = j then 0.8 * x b.k / b.v3.length else 0).sum).sum

/-- The synchronous iteration. -/
def pagerankIterate (t : StateTable Int32 ℚ (List Int32)) : ℕ → Int32 → ℚ
  | 0 => fun _ => 0
  | r + 1 => pagerankNext t (pagerankIterate t r)

theorem next_eq (hload : Loaded hashobj pagerankIterateKernel t₀) (x : Int32 → ℚ) {j : Int32}
    (hj : j ∈ t₀.vertices) : (pagerankLinear.system t₀).next x j = pagerankNext t₀ x j := by
  obtain ⟨c, hc⟩ := SameGraph.find (fun _ => rfl : SameGraph t₀ t₀) hj
  unfold DeltaIteration.System.next pagerankNext
  rw [sum_massTo_emit pagerankLinear hload.good.wf (fun _ => rfl), Linear.init_of_find hc]
  congr 2
  refine List.map_congr_left fun b _ => ?_
  show massTo j ((pagerankCoef b.v3).map _) = _
  simp only [massTo, pagerankCoef, List.map_map]
  congr 1
  refine List.map_congr_left fun target _ => ?_
  simp only [Function.comp_apply]
  split_ifs <;> ring

theorem iterate_eq (hload : Loaded hashobj pagerankIterateKernel t₀) (r : ℕ) :
    ∀ j ∈ t₀.vertices, (pagerankLinear.system t₀).iterate r j = pagerankIterate t₀ r j := by
  induction r with
  | zero => exact fun _ _ => rfl
  | succ r ih =>
    intro j hj
    show (pagerankLinear.system t₀).next _ j = pagerankNext t₀ _ j
    rw [← next_eq hload _ hj]
    unfold DeltaIteration.System.next
    congr 1
    exact Finset.sum_congr rfl fun i hi => by rw [ih i hi]

/-- **Between the synchronous iteration and every super-solution.**  After `r` full scans, and in
every later state, the values are at least the `r`-th synchronous iterate; in every reachable
state they are at most any non-negative super-solution. -/
theorem rounds_between (hload : Loaded hashobj pagerankIterateKernel t₀) :
    (∀ r (e₁ e₂ : Engine Int32 ℚ (List Int32) n),
      Rounds hashobj pagerankIterateKernel (start t₀) r e₁ →
      Reaches hashobj pagerankIterateKernel e₁ e₂ →
      ∀ j ∈ t₀.vertices, ∃ c, e₂.table.find j = some c ∧ pagerankIterate t₀ r j ≤ c.v2) ∧
    (∀ (e : Engine Int32 ℚ (List Int32) n) (x : Int32 → ℚ),
      Reaches hashobj pagerankIterateKernel (start t₀) e → (∀ j ∈ t₀.vertices, 0 ≤ x j) →
      (∀ j ∈ t₀.vertices, pagerankNext t₀ x j ≤ x j) →
      ∀ j ∈ t₀.vertices, ∃ c, e.table.find j = some c ∧ c.v2 ≤ x j) := by
  have hstart : DeltaIteration.Values (fun _ => (nonneg ℚ).pos)
      ((pagerankLinear.system t₀).start : DeltaIteration.State Int32 (Fin n) ℚ) :=
    DeltaIteration.values_start pagerank_positive.closed pagerank_init_nonneg
  constructor
  · rintro r e₁ e₂ hrounds ⟨l, hl⟩ j hj
    obtain ⟨hI₁, habs⟩ := rounds_refine pagerankLinear (inv_start hload) hrounds
    rw [start_refines hload] at habs
    obtain ⟨m, hm⟩ := DeltaIteration.Rounds.reaches habs
    have hle := DeltaIteration.iterate_le_rounds (G := nonneg ℚ) pagerank_positive habs hstart
      (DeltaIteration.balanced_start _) (fun _ _ => le_refl _) j hj
    have hvalues := DeltaIteration.values_run pagerank_positive.closed hm hstart
    have hlater := DeltaIteration.val_le_run (G := nonneg ℚ) pagerank_positive
      (run_refines pagerankLinear hI₁ hl) hvalues j
    obtain ⟨c, hc⟩ := (inv_reaches hl.reaches hI₁).graph.find hj
    refine ⟨c, hc, ?_⟩
    rw [← iterate_eq hload r j hj]
    refine le_trans hle (le_trans hlater (le_of_eq ?_))
    exact Linear.vals_of_find pagerankLinear hc
  · intro e x h hx hsuper j hj
    obtain ⟨hI, l, hl⟩ := reaches_refines pagerankLinear hload h
    obtain ⟨c, hc⟩ := hI.graph.find hj
    refine ⟨c, hc, ?_⟩
    have hle := DeltaIteration.le_super_run (G := nonneg ℚ) pagerank_positive (x := x)
      (fun i hi => (le_of_eq (next_eq hload x hi)).trans (hsuper i hi)) hl hstart
      (DeltaIteration.balanced_start _) hx j hj
    rw [← show (pagerankLinear.abs e).val j = c.v2 from
      Linear.vals_of_find pagerankLinear hc]
    exact hle

/-- One full scan by one thread; the constant `1` is a super-solution. -/
theorem rounds_between_twoVertices :
    (∃ c, (twoVertices 0.08 0.2 0 0.28 2).find 1 = some c ∧
      pagerankIterate (twoVertices 0.2 0 0.2 0 0) 1 1 ≤ c.v2) ∧
    ∃ c, (twoVertices 0.08 0.2 0 0.28 2).find 1 = some c ∧ c.v2 ≤ 1 := by
  have hround : Round idHash pagerankIterateKernel (start (twoVertices 0.2 0 0.2 0 0))
      [.absorb 0 0, .deliver 0, .deliver 0, .absorb 0 1]
      (⟨twoVertices 0.08 0.2 0 0.28 2, ![[]]⟩ : Engine _ _ _ 1) :=
    ⟨run_of_schedule [(0, 0), (0, 0), (0, 0), (0, 1)] (by decide +kernel),
      fun _ => rfl, by decide, by decide +kernel⟩
  have hsuper : ∀ j ∈ (twoVertices 0.2 0 0.2 0 0).vertices,
      pagerankNext (twoVertices 0.2 0 0.2 0 0) (fun _ => 1) j ≤ 1 :=
    StateTable.forall_mem_vertices.2 (by decide +kernel)
  exact ⟨(rounds_between loaded_twoVertices).1 1 _ _ (LTS.Rounds.zero.succ hround)
      (LTS.Reaches.refl _) 1 (by decide +kernel),
    (rounds_between loaded_twoVertices).2 _ (fun _ => 1) hround.run.reaches
      (fun _ _ => by norm_num) hsuper 1 (by decide +kernel)⟩

end Pagerank

end Engine

end Maiter
