import Maiter.Engine.SumKernels
import Maiter.Lib.Solution

/-!
# The limit of PageRank, Katz and Adsorption

Where the coefficients of a kernel that accumulates sums are not negative and those of a vertex
sum to at most `γ < 1`, the equations of the graph have one solution.

* `Solves`, `Contracts`: the equations over the stored entries, and the condition on them;
* `notAccumulated`, `errorTo`: all deltas and buffered messages, and the distance of the values
  from given ones;
* `limit_of_contracts`: the values stay below the solution; the distance is at most
  `notAccumulated`, times `1 / (1 - γ)`; and every full scan shrinks it by `γ`;
* `sum_kernels_converge`: the three kernels.
-/

namespace Maiter

open DeltaIteration (massTo nonneg IsSolution Contracting)

namespace Engine

section Limit

variable {K D : Type} [DecidableEq K] {n : ℕ} {hashobj : K → ℕ} {kernel : IterateKernel K ℚ D}
  {coef : D → List (K × ℚ)} {t t₀ : StateTable K ℚ D} {e : Engine K ℚ D n} {γ : ℚ} {x : K → ℚ}

/-- The values solve the equations: the initial delta and, over the links of all vertices,
coefficient times value. -/
def Solves (kernel : IterateKernel K ℚ D) (coef : D → List (K × ℚ)) (t : StateTable K ℚ D)
    (x : K → ℚ) : Prop :=
  ∀ c ∈ t.stored, x c.k = kernel.initC c.k c.v3 +
    (t.stored.map fun b => massTo c.k ((coef b.v3).map fun l => (l.1, l.2 * x b.k))).sum

/-- Nothing is negative, and a vertex passes on at most `γ` of its delta. -/
structure Contracts (kernel : IterateKernel K ℚ D) (coef : D → List (K × ℚ))
    (t : StateTable K ℚ D) (γ : ℚ) : Prop where
  init_nonneg : ∀ c ∈ t.stored, 0 ≤ kernel.initC c.k c.v3
  coef_nonneg : ∀ c ∈ t.stored, ∀ l ∈ coef c.v3, 0 ≤ l.2
  sum_le : ∀ c ∈ t.stored, ((coef c.v3).map (·.2)).sum ≤ γ
  rate_nonneg : 0 ≤ γ
  rate_lt_one : γ < 1

/-- All deltas and all buffered messages. -/
def notAccumulated (e : Engine K ℚ D n) : ℚ :=
  (e.table.stored.map (·.v1)).sum + ∑ w, ((e.output w).map (·.2)).sum

/-- The distance of the stored values from `x`. -/
def errorTo (x : K → ℚ) (t : StateTable K ℚ D) : ℚ := (t.stored.map fun c => |x c.k - c.v2|).sum

variable {lin : Linear kernel ℚ}

theorem Contracts.contracting (h : Contracts kernel lin.coef t₀ γ) :
    Contracting (lin.system t₀) γ where
  pos := Linear.positive_system h.coef_nonneg
  sum_le i _ := by
    simp only [Linear.system]
    cases hc : t₀.find i with
    | none => exact h.rate_nonneg
    | some c => exact h.sum_le c (StateTable.find_some hc).1
  lt_one := h.rate_lt_one

theorem Contracts.init_system (h : Contracts kernel lin.coef t₀ γ) (hid : lin.toR = id) (k : K) :
    0 ≤ (lin.system t₀).init k :=
  Linear.init_pos (G := nonneg ℚ) (fun c hc => by
    show (0 : ℚ) ≤ lin.toR _
    rw [hid]
    exact h.init_nonneg c hc) k

/-- The equations over the entries are those of the graph. -/
theorem solves_iff (hid : lin.toR = id) (hwf : t₀.WF hashobj) :
    Solves kernel lin.coef t₀ x ↔ IsSolution (lin.system t₀) x := by
  have hnext : ∀ c ∈ t₀.stored, (lin.system t₀).next x c.k = kernel.initC c.k c.v3 +
      (t₀.stored.map fun b =>
        massTo c.k ((lin.coef b.v3).map fun l => (l.1, l.2 * x b.k))).sum := by
    intro c hc
    rw [DeltaIteration.System.next, Linear.init_of_find (hwf.find_eq_some_iff.2 ⟨hc, rfl⟩), hid,
      sum_massTo_emit lin hwf fun _ => rfl]
    rfl
  have hiff : IsSolution (lin.system t₀) x ↔
      ∀ c ∈ t₀.stored, (lin.system t₀).next x c.k = x c.k :=
    StateTable.forall_mem_vertices
  rw [hiff]
  exact forall₂_congr fun c hc => by rw [hnext c hc, eq_comm]

/-- The values of the iteration, over the entries. -/
theorem sum_val (hid : lin.toR = id) (hI : Inv hashobj t₀ e) (f : K → ℚ → ℚ) :
    ∑ j ∈ (lin.system t₀).verts, f j ((lin.abs e).val j)
      = (e.table.stored.map fun c => f c.k c.v2).sum := by
  show ∑ j ∈ t₀.vertices, _ = _
  rw [← hI.graph.vertices, sum_vertices hI.wf]
  congr 1
  refine List.map_congr_left fun c hc => ?_
  show f c.k (lin.vals e.table c.k) = _
  rw [Linear.vals_of_find lin (hI.wf.find_eq_some_iff.2 ⟨hc, rfl⟩), hid, id]

theorem sum_delta (hid : lin.toR = id) (hI : Inv hashobj t₀ e) :
    ∑ j ∈ (lin.system t₀).verts, (lin.abs e).delta j = (e.table.stored.map (·.v1)).sum := by
  show ∑ j ∈ t₀.vertices, _ = _
  rw [← hI.graph.vertices, sum_vertices hI.wf]
  congr 1
  refine List.map_congr_left fun c hc => ?_
  show lin.deltas e.table c.k = _
  rw [Linear.deltas_of_find lin (hI.wf.find_eq_some_iff.2 ⟨hc, rfl⟩), hid, id]

theorem leftover_abs (hid : lin.toR = id) (hI : Inv hashobj t₀ e) :
    (lin.abs e).leftover (lin.system t₀).verts = notAccumulated e := by
  rw [DeltaIteration.State.leftover, sum_delta hid hI, notAccumulated]
  simp [Linear.abs, hid]

/-- The distance, where no value is above `x`. -/
theorem errorTo_eq (hid : lin.toR = id) (hI : Inv hashobj t₀ e)
    (hle : ∀ c ∈ e.table.stored, c.v2 ≤ x c.k) :
    errorTo x e.table = ∑ j ∈ (lin.system t₀).verts, (x j - (lin.abs e).val j) := by
  rw [sum_val hid hI fun j v => x j - v, errorTo]
  congr 1
  exact List.map_congr_left fun c hc => abs_of_nonneg (sub_nonneg.2 (hle c hc))

omit [DecidableEq K] in
/-- At distance `0` the values are the given ones. -/
theorem eq_of_errorTo_le (h : errorTo x t ≤ 0) : ∀ c ∈ t.stored, c.v2 = x c.k := by
  intro c hc
  have hle : |x c.k - c.v2| ≤ errorTo x t :=
    List.single_le_sum (fun y hy => by
      obtain ⟨b, -, rfl⟩ := List.mem_map.1 hy
      exact abs_nonneg _) _ (List.mem_map.2 ⟨c, hc, rfl⟩)
  exact (sub_eq_zero.1 (abs_nonpos_iff.1 (hle.trans h))).symm

/-- What the iteration from `t₀` converges to, by any number of threads in any order. -/
structure Limit (hashobj : K → ℕ) (kernel : IterateKernel K ℚ D) (coef : D → List (K × ℚ))
    (t₀ : StateTable K ℚ D) (γ : ℚ) (x : K → ℚ) : Prop where
  solves : Solves kernel coef t₀ x
  unique : ∀ y, Solves kernel coef t₀ y → ∀ c ∈ t₀.stored, y c.k = x c.k
  between : ∀ {n : ℕ} {e : Engine K ℚ D n}, Reaches hashobj kernel (start t₀) e →
    ∀ c ∈ e.table.stored, 0 ≤ c.v2 ∧ c.v2 ≤ x c.k
  error_le : ∀ {n : ℕ} {e : Engine K ℚ D n}, Reaches hashobj kernel (start t₀) e →
    (1 - γ) * errorTo x e.table ≤ notAccumulated e
  le_error : ∀ {n r : ℕ} {e : Engine K ℚ D n}, Rounds hashobj kernel (start t₀) r e →
    (e.table.stored.map (·.v1)).sum ≤ errorTo x e.table
  rate : ∀ {n r : ℕ} {e : Engine K ℚ D n}, Rounds hashobj kernel (start t₀) r e →
    (1 - γ) * errorTo x e.table ≤ γ ^ r * (t₀.stored.map (·.v1)).sum

variable [Inhabited (Bucket K ℚ D)]

omit [Inhabited (Bucket K ℚ D)] in
/-- Full scans end with empty buffers. -/
theorem Rounds.output_nil {r : ℕ} (h : Rounds hashobj kernel (start t₀) r e) (w : Fin n) :
    e.output w = [] := by
  cases h with
  | zero => rfl
  | succ _ hround => exact hround.finish w

/-- **The limit of a kernel that contracts.** -/
theorem limit_of_contracts (lin : Linear kernel ℚ) (hid : lin.toR = id)
    (hload : Loaded hashobj kernel t₀) (hc : Contracts kernel lin.coef t₀ γ) :
    ∃ x, Limit hashobj kernel lin.coef t₀ γ x := by
  have hg := hc.contracting
  obtain ⟨x, hx⟩ := DeltaIteration.exists_solution hg
  have hnonneg := hx.nonneg hg fun j _ => hc.init_system hid j
  have hstart : ∀ {n : ℕ}, DeltaIteration.Values (fun _ => (nonneg ℚ).pos)
      ((lin.system t₀).start : DeltaIteration.State K (Fin n) ℚ) :=
    DeltaIteration.values_start hg.pos.closed (hc.init_system hid)
  have hvalues : ∀ {n : ℕ} {e : Engine K ℚ D n}, Reaches hashobj kernel (start t₀) e →
      DeltaIteration.Values (fun _ => (nonneg ℚ).pos) (lin.abs e) := fun h =>
    values_reaches lin hg.pos.closed (hc.init_system hid) hload h
  have hval : ∀ {n : ℕ} {e : Engine K ℚ D n}, Reaches hashobj kernel (start t₀) e →
      ∀ j ∈ (lin.system t₀).verts, (lin.abs e).val j ≤ x j := by
    intro n e h
    obtain ⟨-, l, hl⟩ := reaches_refines lin hload h
    exact DeltaIteration.val_le_solution hg hx hl hstart (DeltaIteration.balanced_start _) hnonneg
  have hbetween : ∀ {n : ℕ} {e : Engine K ℚ D n}, Reaches hashobj kernel (start t₀) e →
      ∀ c ∈ e.table.stored, 0 ≤ c.v2 ∧ c.v2 ≤ x c.k := by
    intro n e h c hcst
    have hI := inv_loaded hload h
    have hfind := hI.wf.find_eq_some_iff.2 ⟨hcst, rfl⟩
    have hv : (lin.abs e).val c.k = c.v2 := by
      show lin.vals e.table c.k = c.v2
      rw [Linear.vals_of_find lin hfind, hid, id]
    rw [← hv]
    exact ⟨(hvalues h).val c.k, hval h c.k (Linear.mem_verts hI.graph hfind)⟩
  have herror : ∀ {n : ℕ} {e : Engine K ℚ D n}, Reaches hashobj kernel (start t₀) e →
      errorTo x e.table = ∑ j ∈ (lin.system t₀).verts, (x j - (lin.abs e).val j) := fun h =>
    errorTo_eq hid (inv_loaded hload h) fun c hcst => (hbetween h c hcst).2
  refine ⟨x, (solves_iff hid hload.good.wf).2 hx, fun y hy c hcst => ?_, hbetween, fun h => ?_,
    fun h => ?_, fun h => ?_⟩
  · exact ((solves_iff hid hload.good.wf).1 hy).unique hg hx c.k
      (StateTable.mem_vertices.2 ⟨c, hcst, rfl⟩)
  · rw [herror h, ← leftover_abs hid (inv_loaded hload h)]
    exact (DeltaIteration.gap_bounds hg hx (balanced_reaches lin hload h) (hval h)).2.trans
      (DeltaIteration.sum_residual_le_leftover (hvalues h) _)
  · have hreach := h.reaches fun _ _ _ h => h.run
    rw [herror hreach, ← sum_delta hid (inv_loaded hload hreach)]
    refine le_trans (le_of_eq (Finset.sum_congr rfl fun j _ => ?_))
      (DeltaIteration.gap_bounds hg hx (balanced_reaches lin hload hreach) (hval hreach)).1
    simp [DeltaIteration.State.inFlight, Linear.abs, h.output_nil]
  · have hreach := h.reaches fun _ _ _ h => h.run
    obtain ⟨-, hrounds⟩ := rounds_refine lin (inv_start hload) h
    rw [start_refines hload] at hrounds
    have hrate := DeltaIteration.rounds_contract hg hc.rate_nonneg hx hrounds hstart
      (DeltaIteration.balanced_start _) hnonneg
    have hsize := DeltaIteration.solution_sum_le hg (fun j _ => hc.init_system hid j) hx
    have hinit : ∑ j ∈ (lin.system t₀).verts, (lin.system t₀).init j
        = (t₀.stored.map (·.v1)).sum := by
      have hI : Inv hashobj t₀ (start t₀ : Engine K ℚ D 0) := inv_start hload
      have hdelta := sum_delta hid hI
      rwa [start_refines hload] at hdelta
    have hpos : 0 ≤ 1 - γ := sub_nonneg.2 hc.rate_lt_one.le
    simp only [DeltaIteration.System.start, sub_zero] at hrate
    rw [herror hreach]
    calc (1 - γ) * ∑ j ∈ (lin.system t₀).verts, (x j - (lin.abs _).val j)
        ≤ (1 - γ) * (γ ^ _ * ∑ j ∈ (lin.system t₀).verts, x j) :=
          mul_le_mul_of_nonneg_left hrate hpos
      _ = γ ^ _ * ((1 - γ) * ∑ j ∈ (lin.system t₀).verts, x j) := by ring
      _ ≤ γ ^ _ * (t₀.stored.map (·.v1)).sum := by
          rw [← hinit]
          exact mul_le_mul_of_nonneg_left hsize (pow_nonneg hc.rate_nonneg _)

end Limit

/-! ### The three kernels -/

variable {γ : ℚ}

theorem contracts_pagerank (t : StateTable Int32 ℚ (List Int32)) :
    Contracts pagerankIterateKernel pagerankCoef t 0.8 where
  init_nonneg _ _ := by show (0 : ℚ) ≤ 0.2; norm_num
  coef_nonneg c _ := pagerankCoef_nonneg c.v3
  sum_le c _ := sum_pagerankCoef_le c.v3
  rate_nonneg := by norm_num
  rate_lt_one := by norm_num

/-- Every vertex starts with the delta `0.2`. -/
theorem sum_init_pagerank {t₀ : StateTable Int32 ℚ (List Int32)} {hashobj : Int32 → ℕ}
    (hload : Loaded hashobj pagerankIterateKernel t₀) :
    (t₀.stored.map (·.v1)).sum = 0.2 * t₀.vertices.card := by
  have hconst := sum_vertices hload.good.wf fun _ => (0.2 : ℚ)
  rw [Finset.sum_const, nsmul_eq_mul, mul_comm] at hconst
  rw [hconst]
  exact congrArg List.sum (List.map_congr_left fun c hc => (hload.good.all c hc).1)

theorem contracts_katz {t : StateTable Int32 ℚ (List Int32)} (katzSource : UInt64)
    {katzBeta : ℚ} (hbeta : 0 ≤ katzBeta) (hsum : ∀ c ∈ t.stored, katzBeta * c.v3.length ≤ γ)
    (hγ : 0 ≤ γ) (hlt : γ < 1) :
    Contracts (katzIterateKernel katzSource katzBeta) (katzCoef katzBeta) t γ where
  init_nonneg c _ := by
    show (0 : ℚ) ≤ if toUInt64 c.k = katzSource then 1000000 else 0
    split_ifs <;> norm_num
  coef_nonneg c _ l hl := by
    obtain ⟨target, -, rfl⟩ := List.mem_map.1 hl
    exact hbeta
  sum_le c hc := by
    have hmap : (katzCoef katzBeta c.v3).map (·.2) = List.replicate c.v3.length katzBeta := by
      simp [katzCoef, Function.comp_def]
    rw [hmap, List.sum_replicate, nsmul_eq_mul, mul_comm]
    exact hsum c hc
  rate_nonneg := hγ
  rate_lt_one := hlt

theorem contracts_adsorption {t : StateTable Int32 ℚ (List Link)} (adsorptionStarts : UInt64)
    {adsorptionDamping : ℚ} (hdamping : 0 ≤ adsorptionDamping)
    (hweight : ∀ c ∈ t.stored, ∀ target ∈ c.v3, 0 ≤ target.weight)
    (hsum : ∀ c ∈ t.stored, adsorptionDamping * (c.v3.map Link.weight).sum ≤ γ)
    (hγ : 0 ≤ γ) (hlt : γ < 1) :
    Contracts (adsorptionIterateKernel adsorptionStarts adsorptionDamping)
      (adsorptionCoef adsorptionDamping) t γ where
  init_nonneg c _ := by
    show (0 : ℚ) ≤ if toUInt64 c.k < adsorptionStarts then 10 else 0
    split_ifs <;> norm_num
  coef_nonneg c hc l hl := by
    obtain ⟨target, htarget, rfl⟩ := List.mem_map.1 hl
    exact mul_nonneg hdamping (hweight c hc target htarget)
  sum_le c hc := by
    have hmap : (adsorptionCoef adsorptionDamping c.v3).map (·.2)
        = c.v3.map fun target => adsorptionDamping * target.weight := by
      simp [adsorptionCoef, Function.comp_def]
    rw [hmap, List.sum_map_mul_left]
    exact hsum c hc
  rate_nonneg := hγ
  rate_lt_one := hlt

/-- **The three kernels converge.**  PageRank always does, at the rate `0.8`; Katz and Adsorption
do if what a vertex passes on is at most `γ < 1` of its delta. -/
theorem sum_kernels_converge (hashobj : Int32 → ℕ) :
    (∀ t₀ : StateTable Int32 ℚ (List Int32), Loaded hashobj pagerankIterateKernel t₀ →
      ∃ x, Limit hashobj pagerankIterateKernel pagerankCoef t₀ 0.8 x) ∧
    (∀ (katzSource : UInt64) (katzBeta γ : ℚ) (t₀ : StateTable Int32 ℚ (List Int32)),
      Loaded hashobj (katzIterateKernel katzSource katzBeta) t₀ → 0 ≤ katzBeta →
      (∀ c ∈ t₀.stored, katzBeta * c.v3.length ≤ γ) → 0 ≤ γ → γ < 1 →
      ∃ x, Limit hashobj (katzIterateKernel katzSource katzBeta) (katzCoef katzBeta) t₀ γ x) ∧
    (∀ (adsorptionStarts : UInt64) (adsorptionDamping γ : ℚ)
        (t₀ : StateTable Int32 ℚ (List Link)),
      Loaded hashobj (adsorptionIterateKernel adsorptionStarts adsorptionDamping) t₀ →
      0 ≤ adsorptionDamping → (∀ c ∈ t₀.stored, ∀ target ∈ c.v3, 0 ≤ target.weight) →
      (∀ c ∈ t₀.stored, adsorptionDamping * (c.v3.map Link.weight).sum ≤ γ) → 0 ≤ γ → γ < 1 →
      ∃ x, Limit hashobj (adsorptionIterateKernel adsorptionStarts adsorptionDamping)
        (adsorptionCoef adsorptionDamping) t₀ γ x) := by
  refine ⟨fun t₀ hload => ?_, fun katzSource katzBeta γ t₀ hload hbeta hsum hγ hlt => ?_,
    fun adsorptionStarts adsorptionDamping γ t₀ hload hdamping hweight hsum hγ hlt => ?_⟩
  · exact limit_of_contracts pagerankLinear rfl hload (contracts_pagerank t₀)
  · exact limit_of_contracts (katzLinear katzSource katzBeta) rfl hload
      (contracts_katz katzSource hbeta hsum hγ hlt)
  · exact limit_of_contracts (adsorptionLinear adsorptionStarts adsorptionDamping) rfl hload
      (contracts_adsorption adsorptionStarts hdamping hweight hsum hγ hlt)

/-- One vertex with a link of weight `1` to itself. -/
def oneLoop : StateTable Int32 ℚ (List Link) := ⟨[⟨0, 10, 0, [⟨0, 1⟩], 10, true⟩], 1, 1, 0⟩

theorem sum_kernels_converge_twoVertices :
    (∃ x, Limit idHash pagerankIterateKernel pagerankCoef (twoVertices 0.2 0 0.2 0 0) 0.8 x) ∧
    (∃ x, Limit idHash (katzIterateKernel 0 0.25) (katzCoef 0.25) (twoVertices 1000000 0 0 0 0)
      0.5 x) ∧
    ∃ x, Limit idHash (adsorptionIterateKernel 1 0.5) (adsorptionCoef 0.5) oneLoop 0.5 x := by
  obtain ⟨hpagerank, hkatz, hadsorption⟩ := sum_kernels_converge idHash
  refine ⟨hpagerank _ loaded_twoVertices,
    hkatz 0 0.25 0.5 _ ⟨1, 2, [(0, [0, 1]), (1, [])], by decide +kernel⟩ (by norm_num)
      (by decide +kernel) (by norm_num) (by norm_num),
    hadsorption 1 0.5 0.5 _ ⟨1, 1, [(0, [⟨0, 1⟩])], by decide +kernel⟩ (by norm_num)
      (by decide +kernel) (by decide +kernel) (by norm_num) (by norm_num)⟩

end Engine

end Maiter
