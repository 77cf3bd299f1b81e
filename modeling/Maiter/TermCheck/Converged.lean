import Maiter.TermCheck.Scan
import Maiter.Engine.SumKernels
import Maiter.Engine.ShortestPath

/-!
# When a terminated table has converged

* `converged_of_pass`: for a kernel whose readings move in one direction, a pass of the threads over
  all vertices between two checks makes the second check sound;
* `termcheck_sound`: this for the four kernels;
* `not_termcheck_sound`: without a pass, with negative coefficients, or while vertices are still
  reached, a check can terminate a table that has not converged.
-/

namespace Maiter

namespace TermCheck

open DeltaIteration (Growth Positive Values nonneg)
open Engine (Inv)

section General

variable {K V D R : Type} [DecidableEq K] [DecidableEq V] [Zero V] [CommSemiring R]
  [Inhabited (Bucket K V D)] {n : ℕ} {hashobj : K → ℕ} {kernel : IterateKernel K V D}
  {toDouble : V → ℚ} {lin : Linear kernel R} {g : R → ℚ} {σ : ℚ} {s t p b d : State K V D n}
  {t₀ : StateTable K V D} {G : Growth R}

omit [DecidableEq V] in
/-- The values go up in every step of the threads. -/
theorem vals_le_step (hpos : Positive G (lin.system t₀))
    (hinit : ∀ k, G.pos ((lin.system t₀).init k)) (hload : Loaded hashobj kernel t₀)
    {e e' : Engine K V D n} (he : Engine.Reaches hashobj kernel (Engine.start t₀) e)
    {a : DeltaIteration.Action K (Fin n)} (h : Engine.Step hashobj kernel e a e') (k : K) :
    G.le (lin.vals e.table k) (lin.vals e'.table k) := by
  have hI := Engine.inv_loaded hload he
  have hvals : Values (fun _ => G.pos) (lin.abs e) :=
    Engine.values_reaches lin hpos.closed hinit hload he
  exact (DeltaIteration.le_step hvals (Engine.step_refines hI h) k).1

omit [DecidableEq V] [Zero V] [Inhabited (Bucket K V D)] in
/-- Equal values in the semiring are equal values in the table. -/
theorem find_eq_of_vals {e e' : Engine K V D n} (hinj : Function.Injective lin.toR)
    (hI : Inv hashobj t₀ e) (hI' : Inv hashobj t₀ e')
    (h : lin.vals e'.table = lin.vals e.table) (k : K) :
    (e'.table.find k).map (·.v2) = (e.table.find k).map (·.v2) := by
  have hg := (hI'.graph k).trans (hI.graph k).symm
  have hk := congrFun h k
  cases hc : e.table.find k with
  | none =>
    rw [hc, Option.map_none, Option.map_eq_none_iff] at hg
    rw [hg]
  | some c =>
    rw [hc, Option.map_some, Option.map_eq_some_iff] at hg
    obtain ⟨c', hc', -⟩ := hg
    rw [Linear.vals_of_find lin hc, Linear.vals_of_find lin hc'] at hk
    rw [hc', Option.map_some, Option.map_some, hinj hk]

omit [DecidableEq V] in
variable (lin) in
/-- If the threads process every vertex, from empty buffers, and no value changes, then none will
change any more. -/
theorem converged_of_idle (hinj : Function.Injective lin.toR) (hpos : Positive G (lin.system t₀))
    (hinit : ∀ k, G.pos ((lin.system t₀).init k)) (hload : Loaded hashobj kernel t₀)
    {e₀ e₁ e₂ : Engine K V D n} (h₀ : Engine.Reaches hashobj kernel (Engine.start t₀) e₀)
    (hempty : ∀ w, e₀.output w = []) {l : List (DeltaIteration.Action K (Fin n))}
    (hrun : LTS.Run (Engine.Step hashobj kernel) e₀ l e₁)
    (hall : ∀ k ∈ e₀.table.vertices, k ∈ DeltaIteration.absorbed l)
    (hval : lin.vals e₁.table = lin.vals e₀.table) (h₂ : Engine.Reaches hashobj kernel e₁ e₂) :
    Converged hashobj kernel e₂ := by
  have hI₀ := Engine.inv_loaded hload h₀
  have hstable : ∀ {e}, Engine.Reaches hashobj kernel e₁ e →
      lin.vals e.table = lin.vals e₀.table := by
    rintro e ⟨m, hm⟩
    refine DeltaIteration.stable_of_idle_round hpos
      (Engine.values_reaches lin hpos.closed hinit hload h₀) (Engine.balanced_reaches lin hload h₀)
      (fun w => by simp [Linear.abs, hempty w]) (Engine.run_refines lin hI₀ hrun)
      (fun k hk => hall k ?_) hval (Engine.run_refines lin hI₀ (hrun.append hm))
    rw [hI₀.graph.vertices]
    exact hk
  intro e he k
  have h₂' := h₀.trans (hrun.reaches.trans h₂)
  exact find_eq_of_vals hinj (Engine.inv_loaded hload h₂') (Engine.inv_loaded hload (h₂'.trans he))
    ((hstable (h₂.trans he)).trans (hstable h₂).symm) k

/-! ### A pass between two checks -/

variable (lin G) in
/-- No value of `u` is above that of `v`. -/
def Ahead (u v : State K V D n) : Prop :=
  ∀ k, G.le (lin.vals u.engine.table k) (lin.vals v.engine.table k)

section Pass

variable {Q : K → R → Prop} (hpos : Positive G (lin.system t₀))
  (hinit : ∀ k, G.pos ((lin.system t₀).init k))
  (hconvex : ∀ k x y z, G.le x y → G.le y z → Q k x → Q k z → Q k y)
  (hmono : ∀ k x y, Q k x → Q k y → G.le x y → σ * g x ≤ σ * g y)
  (hload : Loaded hashobj kernel t₀)
  (hp : LTS.Reaches (Step hashobj kernel toDouble 0) (start t₀) p)
  (h : PassBetween (Step hashobj kernel toDouble 0) p s b d)
  (hQp : ∀ k, Q k (lin.vals p.engine.table k)) (hQd : ∀ k, Q k (lin.vals d.engine.table k))
include hpos hinit hconvex hmono hload hp h hQp hQd

/-- From the beginning of the first check to the end of the second, no reading goes back. -/
theorem passBetween_mono :
    PassBetween (MonoStep hashobj kernel toDouble 0 lin g σ t₀) p s b d ∧
      Engine.Reaches hashobj kernel (Engine.start t₀) s.engine ∧
      (∀ k, Q k (lin.vals s.engine.table k)) ∧ ∀ k, Q k (lin.vals b.engine.table k) := by
  have hreach : ∀ {u v} {l : List (Action K n)}, LTS.Run (Step hashobj kernel toDouble 0) u l v →
      Engine.Reaches hashobj kernel u.engine v.engine := fun hrun => (engine_run hrun).reaches
  have hahead : ∀ {u v : State K V D n} {a},
      Engine.Reaches hashobj kernel (Engine.start t₀) u.engine →
      Step hashobj kernel toDouble 0 u a v → Ahead lin G u v := by
    intro u v a hu hstep k
    cases hstep with
    | work hwork => exact vals_le_step hpos hinit hload hu hwork k
    | _ => exact G.refl _
  have hQ : ∀ {u : State K V D n}, Ahead lin G p u → Ahead lin G u d →
      ∀ k, Q k (lin.vals u.engine.table k) :=
    fun hpu hud k => hconvex k _ _ _ (hpu k) (hud k) (hQp k) (hQd k)
  have hp' : Engine.Reaches hashobj kernel (Engine.start t₀) p.engine := by
    obtain ⟨l, hl⟩ := hp
    exact hreach hl
  -- forwards the values stay above those of `p`, backwards below those of `d`
  have hrestrict : PassBetween (MonoStep hashobj kernel toDouble 0 lin g σ t₀) p s b d ∧ _ :=
    h.restrict
      (I := fun u => Engine.Reaches hashobj kernel (Engine.start t₀) u.engine ∧ Ahead lin G p u)
      (J := fun u => Ahead lin G u d)
      (fun u a v hu hstep => ⟨hu.1.trans (hreach (LTS.Run.single hstep)),
        fun k => G.trans _ _ _ (hu.2 k) (hahead hu.1 hstep k)⟩)
      (fun u a v hu hstep hv k => G.trans _ _ _ (hahead hu.1 hstep k) (hv k))
      (fun u a v hu hud hvd hstep => by
        have huv := hahead hu.1 hstep
        have hpv : Ahead lin G p v := fun k => G.trans _ _ _ (hu.2 k) (huv k)
        exact ⟨hstep, Engine.inv_loaded hload hu.1,
          fun k => hmono k _ _ (hQ hu.2 hud k) (hQ hpv hvd k) (huv k)⟩)
      ⟨hp', fun _ => G.refl _⟩ (fun _ => G.refl _)
  obtain ⟨hpass, ⟨hs, hps⟩, hsd, ⟨-, hpb⟩, hbd⟩ := hrestrict
  exact ⟨hpass, hs, hQ hps hsd, hQ hpb hbd⟩

/-- **A pass between two checks makes the second one sound**, for a kernel whose readings move in
one direction as long as the values satisfy `Q`. -/
theorem converged_of_pass (hr : Reads lin g toDouble) (hσ : σ ≠ 0)
    (hinj : Function.Injective lin.toR) (heq : ∀ k x y, Q k x → Q k y → g x = g y → x = y)
    (hterm : d.terminated = true) : Converged hashobj kernel d.engine := by
  obtain ⟨hpass, hs, hQs, hQb⟩ := passBetween_mono hpos hinit hconvex hmono hload hp h hQp hQd
  obtain ⟨l, hl, hall⟩ := h.pass
  obtain ⟨m, -, hm⟩ := h.second
  have hrun := engine_run hl
  rw [filterMap_works] at hrun
  refine converged_of_idle lin hinj hpos hinit hload hs h.empty hrun hall (funext fun k => ?_)
    (engine_run hm).reaches
  by_cases hk : k ∈ t₀.vertices
  · exact heq k _ _ (hQb k) (hQs k) (eq_of_pass hr hσ hpass hterm k hk)
  · have hnone : ∀ {e : Engine K V D n}, Engine.Reaches hashobj kernel (Engine.start t₀) e →
        lin.vals e.table k = 0 := by
      intro e he
      have hg := (Engine.inv_loaded hload he).graph.vertices
      rw [← hg, ← StateTable.find_isSome_iff, Option.not_isSome_iff_eq_none] at hk
      simp [Linear.vals, hk]
    rw [hnone (hs.trans hrun.reaches), hnone hs]

end Pass

end General

/-! ### Sums that do not change -/

section Unchanged

variable {K V D : Type} [DecidableEq K] [DecidableEq V] [Zero V] [Inhabited (Bucket K V D)]
  {n : ℕ} {hashobj : K → ℕ} {kernel : IterateKernel K V D} {toDouble : V → ℚ}
  {t₀ : StateTable K V D} {e₀ e₁ : Engine K V D n}

/-- The main thread between two checks, of which the last one has read `last`. -/
def between (e : Engine K V D n) (last : ℚ) (terminated : Bool) : State K V D n :=
  ⟨e, ⟨last, last⟩, .idle, terminated⟩

variable (toDouble) in
/-- The first check, without interference. -/
theorem first_check (hload : Loaded hashobj kernel t₀)
    (h₀ : Engine.Reaches hashobj kernel (Engine.start t₀) e₀)
    (hsum : 0 ≤ estimateProg kernel toDouble e₀.table) :
    IsCheck (Step hashobj kernel toDouble 0) ⟨e₀, Diff.new, .idle, false⟩
      (between e₀ (estimateProg kernel toDouble e₀.table) false) := by
  have hlen := (Engine.inv_loaded hload h₀).wf.len
  have hcheck : IsCheck (Step hashobj kernel toDouble 0) ⟨e₀, Diff.new, .idle, false⟩ _ :=
    run_check hlen Diff.new
  rw [Diff.terminate_new hsum] at hcheck
  exact hcheck

variable (toDouble) in
/-- A check that reads the same sum as the one before, without interference. -/
theorem last_check (hload : Loaded hashobj kernel t₀)
    (h₀ : Engine.Reaches hashobj kernel (Engine.start t₀) e₀) :
    IsCheck (Step hashobj kernel toDouble 0)
      (between e₀ (estimateProg kernel toDouble e₀.table) false)
      (between e₀ (estimateProg kernel toDouble e₀.table) true) := by
  have hlen := (Engine.inv_loaded hload h₀).wf.len
  have hcheck : IsCheck (Step hashobj kernel toDouble 0)
      (between e₀ (estimateProg kernel toDouble e₀.table) false) _ := run_check hlen _
  rw [Diff.terminate_last] at hcheck
  exact hcheck

variable (toDouble) in
/-- A pass after which the sum is the same as before. -/
theorem passBetween_of_sum (hload : Loaded hashobj kernel t₀)
    (h₀ : Engine.Reaches hashobj kernel (Engine.start t₀) e₀) (hempty : ∀ w, e₀.output w = [])
    {l : List (DeltaIteration.Action K (Fin n))} (h₁ : LTS.Run (Engine.Step hashobj kernel) e₀ l e₁)
    (hall : ∀ k ∈ e₀.table.vertices, k ∈ DeltaIteration.absorbed l)
    (hsum : 0 ≤ estimateProg kernel toDouble e₀.table)
    (heq : estimateProg kernel toDouble e₁.table = estimateProg kernel toDouble e₀.table) :
    ∃ p s b d, LTS.Reaches (Step hashobj kernel toDouble 0) (start t₀) p ∧
      PassBetween (Step hashobj kernel toDouble 0) p s b d ∧ d.terminated = true ∧ p.engine = e₀ ∧
      d.engine = e₁ := by
  have hlast := last_check toDouble hload (h₀.trans h₁.reaches)
  rw [heq] at hlast
  obtain ⟨l₀, hl₀⟩ := h₀
  exact ⟨⟨e₀, Diff.new, .idle, false⟩, between e₀ (estimateProg kernel toDouble e₀.table) false,
    between e₁ (estimateProg kernel toDouble e₀.table) false,
    between e₁ (estimateProg kernel toDouble e₀.table) true, (run_work hl₀ _ _ _).reaches,
    ⟨⟨_, first_check toDouble hload hl₀.reaches hsum, [], LTS.Run.nil⟩, hempty,
      ⟨l, run_work h₁ _ _ _, hall⟩, hlast⟩, rfl, rfl, rfl⟩

end Unchanged

/-! ### The four kernels -/

section SumKernels

variable {K D : Type} [DecidableEq K] {n : ℕ} {hashobj : K → ℕ} {kernel : IterateKernel K ℚ D}
  [Inhabited (Bucket K ℚ D)] {t₀ : StateTable K ℚ D} {p s b d : State K ℚ D n}

/-- Kernels that accumulate sums of non-negative numbers. -/
theorem converged_of_linear (lin : Linear kernel ℚ) (hid : lin.toR = id)
    (hcoef : ∀ c ∈ t₀.stored, ∀ l ∈ lin.coef c.v3, 0 ≤ l.2)
    (hinit : ∀ c ∈ t₀.stored, 0 ≤ kernel.initC c.k c.v3) (hload : Loaded hashobj kernel t₀)
    (hp : LTS.Reaches (Step hashobj kernel id 0) (start t₀) p)
    (h : PassBetween (Step hashobj kernel id 0) p s b d) (hterm : d.terminated = true) :
    Converged hashobj kernel d.engine := by
  have hread : Reads lin id id := ⟨fun v => by rw [hid]; rfl, rfl⟩
  have hpos : Positive (nonneg ℚ) (lin.system t₀) := Linear.positive_system hcoef
  refine converged_of_pass (σ := 1) (Q := fun _ _ => True) hpos
    (Linear.init_pos fun c hc => by rw [hid]; exact hinit c hc) (fun _ _ _ _ _ _ _ _ => trivial)
    (fun k x y _ _ hxy => ?_) hload hp h (fun _ => trivial) (fun _ => trivial) hread one_ne_zero
    (by rw [hid]; exact Function.injective_id) (fun _ _ _ _ _ h => h) hterm
  rw [one_mul, one_mul]
  exact hxy

end SumKernels

section ShortestPath

open Tropical (trop untrop)

variable {n : ℕ} {hashobj : Int32 → ℕ} {shortestpathSource : UInt64}
  {t₀ : StateTable Int32 (WithTop ℚ) (List Link)}
  {p s b d : State Int32 (WithTop ℚ) (List Link) n}

/-- The conversion of a distance that is not `imax`. -/
def distance (d : WithTop ℚ) : ℚ := d.untopD 0

/-- The vertices whose value is not `imax`. -/
def Reached (t : StateTable Int32 (WithTop ℚ) (List Link)) (k : Int32) : Prop :=
  ∃ c, t.find k = some c ∧ c.v2 ≠ ⊤

theorem reached_iff {t : StateTable Int32 (WithTop ℚ) (List Link)}
    (h : ∀ c ∈ t.stored, c.v2 ≠ ⊤) {k : Int32} : Reached t k ↔ k ∈ t.vertices := by
  rw [← StateTable.find_isSome_iff, Option.isSome_iff_exists]
  exact exists_congr fun c => and_iff_left_of_imp fun hc => h c (StateTable.find_some hc).1

theorem untrop_vals_eq_top_iff {t : StateTable Int32 (WithTop ℚ) (List Link)} {k : Int32} :
    untrop ((shortestpathLinear shortestpathSource).vals t k) = ⊤ ↔ ¬ Reached t k := by
  unfold Reached
  cases hc : t.find k with
  | none => simp [Linear.vals, hc]
  | some c => simp [Linear.vals_of_find _ hc, shortestpathLinear]

theorem distance_mono {x y : WithTop ℚ} (hx : x ≠ ⊤) (hxy : y ≤ x) : distance y ≤ distance x := by
  lift x to ℚ using hx
  lift y to ℚ using ne_top_of_le_ne_top WithTop.coe_ne_top hxy
  exact WithTop.coe_le_coe.1 hxy

theorem distance_inj {x y : WithTop ℚ} (hx : x ≠ ⊤) (hy : y ≠ ⊤) (h : distance x = distance y) :
    x = y := by
  lift x to ℚ using hx
  lift y to ℚ using hy
  exact congrArg _ h

/-- The shortest-path kernel, as long as no value leaves `imax`. -/
theorem converged_of_reached (hload : Loaded hashobj (shortestpathKernel shortestpathSource) t₀)
    (hp : LTS.Reaches (Step hashobj (shortestpathKernel shortestpathSource) distance 0)
      (start t₀) p)
    (h : PassBetween (Step hashobj (shortestpathKernel shortestpathSource) distance 0) p s b d)
    (hterm : d.terminated = true)
    (hreached : ∀ k, Reached p.engine.table k ↔ Reached d.engine.table k) :
    Converged hashobj (shortestpathKernel shortestpathSource) d.engine := by
  have hread : Reads (shortestpathLinear shortestpathSource) (fun x => distance (untrop x))
      distance := ⟨fun v => rfl, rfl⟩
  have hpos : Positive (DeltaIteration.minima ℚ)
      ((shortestpathLinear shortestpathSource).system t₀) := by
    rw [Engine.system_eq_minPlus]
    exact DeltaIteration.positive_minPlus
  refine converged_of_pass (σ := -1) (Q := fun k x => untrop x = ⊤ ↔ ¬ Reached p.engine.table k)
    hpos (fun _ => trivial) ?_ ?_ hload hp h (fun _ => untrop_vals_eq_top_iff) (fun k => ?_) hread
    (by norm_num) Tropical.trop_injective ?_ hterm
  · intro k x y z hxy hyz hx hz
    constructor
    · intro hy
      exact hx.1 (top_le_iff.1 (hy ▸ Tropical.untrop_le_iff.2 hxy))
    · intro hk
      exact top_le_iff.1 (hz.2 hk ▸ Tropical.untrop_le_iff.2 hyz)
  · intro k x y hx hy hxy
    rw [neg_one_mul, neg_one_mul, neg_le_neg_iff]
    by_cases htop : untrop x = ⊤
    · rw [htop, hy.2 (hx.1 htop)]
    · exact distance_mono htop (Tropical.untrop_le_iff.2 hxy)
  · exact untrop_vals_eq_top_iff.trans (not_congr (hreached k).symm)
  · intro k x y hx hy hxy
    refine Tropical.untrop_injective ?_
    by_cases htop : untrop x = ⊤
    · rw [htop, hy.2 (hx.1 htop)]
    · exact distance_inj htop (fun hy' => htop (hx.2 (hy.1 hy'))) hxy

end ShortestPath

variable {n : ℕ} {hashobj : Int32 → ℕ}

/-- **A pass between two checks makes the termination check sound.**  With the threshold `0`, let
the buffers be empty at some moment after a check, and let the threads process every vertex after
that moment and before the next check.  If this next check terminates the table, the computation
has converged: for PageRank, for Katz and Adsorption with non-negative coefficients, and for
shortest paths if no value leaves `imax` from the beginning of the first check to the end of the
second. -/
theorem termcheck_sound :
    (∀ (t₀ : StateTable Int32 ℚ (List Int32)) (p s b d : State Int32 ℚ (List Int32) n),
      Loaded hashobj pagerankIterateKernel t₀ →
      LTS.Reaches (Step hashobj pagerankIterateKernel id 0) (start t₀) p →
      PassBetween (Step hashobj pagerankIterateKernel id 0) p s b d → d.terminated = true →
      Converged hashobj pagerankIterateKernel d.engine) ∧
    (∀ (katzSource : UInt64) (katzBeta : ℚ) (t₀ : StateTable Int32 ℚ (List Int32))
        (p s b d : State Int32 ℚ (List Int32) n), 0 ≤ katzBeta →
      Loaded hashobj (katzIterateKernel katzSource katzBeta) t₀ →
      LTS.Reaches (Step hashobj (katzIterateKernel katzSource katzBeta) id 0) (start t₀) p →
      PassBetween (Step hashobj (katzIterateKernel katzSource katzBeta) id 0) p s b d →
      d.terminated = true → Converged hashobj (katzIterateKernel katzSource katzBeta) d.engine) ∧
    (∀ (adsorptionStarts : UInt64) (adsorptionDamping : ℚ) (t₀ : StateTable Int32 ℚ (List Link))
        (p s b d : State Int32 ℚ (List Link) n),
      (∀ c ∈ t₀.stored, ∀ target ∈ c.v3, 0 ≤ adsorptionDamping * target.weight) →
      Loaded hashobj (adsorptionIterateKernel adsorptionStarts adsorptionDamping) t₀ →
      LTS.Reaches (Step hashobj (adsorptionIterateKernel adsorptionStarts adsorptionDamping) id 0)
        (start t₀) p →
      PassBetween (Step hashobj (adsorptionIterateKernel adsorptionStarts adsorptionDamping) id 0)
        p s b d →
      d.terminated = true →
      Converged hashobj (adsorptionIterateKernel adsorptionStarts adsorptionDamping) d.engine) ∧
    (∀ (shortestpathSource : UInt64) (t₀ : StateTable Int32 (WithTop ℚ) (List Link))
        (p s b d : State Int32 (WithTop ℚ) (List Link) n),
      (∀ k, Reached p.engine.table k ↔ Reached d.engine.table k) →
      Loaded hashobj (shortestpathKernel shortestpathSource) t₀ →
      LTS.Reaches (Step hashobj (shortestpathKernel shortestpathSource) distance 0) (start t₀) p →
      PassBetween (Step hashobj (shortestpathKernel shortestpathSource) distance 0) p s b d →
      d.terminated = true → Converged hashobj (shortestpathKernel shortestpathSource) d.engine) := by
  refine ⟨fun t₀ p s b d hload hp h hterm => ?_,
    fun katzSource katzBeta t₀ p s b d hbeta hload hp h hterm => ?_,
    fun adsorptionStarts adsorptionDamping t₀ p s b d hweight hload hp h hterm => ?_,
    fun shortestpathSource t₀ p s b d hreached hload hp h hterm => ?_⟩
  · refine converged_of_linear pagerankLinear rfl
      (fun c _ => Engine.pagerankCoef_nonneg c.v3) (fun c _ => ?_) hload hp h hterm
    show (0 : ℚ) ≤ 0.2
    norm_num
  · refine converged_of_linear (katzLinear katzSource katzBeta) rfl (fun c _ l hl => ?_)
      (fun c _ => ?_) hload hp h hterm
    · obtain ⟨target, -, rfl⟩ := List.mem_map.1 hl
      exact hbeta
    · show (0 : ℚ) ≤ if toUInt64 c.k = katzSource then 1000000 else 0
      split_ifs <;> norm_num
  · refine converged_of_linear (adsorptionLinear adsorptionStarts adsorptionDamping) rfl
      (fun c hc l hl => ?_) (fun c _ => ?_) hload hp h hterm
    · obtain ⟨target, htarget, rfl⟩ := List.mem_map.1 hl
      exact hweight c hc target htarget
    · show (0 : ℚ) ≤ if toUInt64 c.k < adsorptionStarts then 10 else 0
      split_ifs <;> norm_num
  · exact converged_of_reached hload hp h hterm hreached

/-! ### Runs -/

section Examples

open Engine (idHash twoVertices loaded_twoVertices after run_after)

/-- Four vertices; with a negative coefficient the values on the way from `3` to `0` cancel. -/
def alternating : StateTable Int32 ℚ (List Int32) :=
  ⟨[⟨0, 0, 0, [], 0, true⟩, ⟨1, 0, 0, [2], 0, true⟩, ⟨2, 0, 0, [0], 0, true⟩,
    ⟨3, 1000000, 0, [1], 1000000, true⟩], 4, 4, 0⟩

theorem loaded_alternating : Loaded idHash (katzIterateKernel 3 (-1)) alternating :=
  ⟨1, 4, [(0, []), (1, [2]), (2, [0]), (3, [1])], by decide +kernel⟩

/-- A thread processes all vertices of `alternating`, `r` times. -/
def alternatingAfter : ℕ → Engine Int32 ℚ (List Int32) 1
  | 0 => Engine.start alternating
  | r + 1 => after idHash (katzIterateKernel 3 (-1))
      [(0, 0), (0, 1), (0, 1), (0, 2), (0, 2), (0, 3), (0, 3)] (alternatingAfter r)

/-- The critical sections of one pass of thread `w`. -/
def alternatingPass (w : Fin 1) : List (DeltaIteration.Action Int32 (Fin 1)) :=
  [.absorb w 0, .absorb w 1, .deliver w, .absorb w 2, .deliver w, .absorb w 3, .deliver w]

theorem run_alternating : ∀ r < 2, LTS.Run (Engine.Step idHash (katzIterateKernel 3 (-1)))
    (alternatingAfter r) (alternatingPass 0) (alternatingAfter (r + 1)) := by
  intro r hr
  interval_cases r <;> exact run_after (by decide +kernel)

/-- Five vertices; a shorter way to `2` is found while `3` is reached. -/
def detour : StateTable Int32 (WithTop ℚ) (List Link) :=
  ⟨[⟨0, 0, ⊤, [⟨2, 5⟩, ⟨4, 1⟩], ⊤, true⟩, ⟨1, ⊤, ⊤, [], ⊤, true⟩, ⟨2, ⊤, ⊤, [], ⊤, true⟩,
    ⟨3, ⊤, ⊤, [⟨1, 1⟩], ⊤, true⟩, ⟨4, ⊤, ⊤, [⟨2, 1⟩, ⟨3, 2⟩], ⊤, true⟩], 5, 5, 0⟩

theorem loaded_detour : Loaded idHash (shortestpathKernel 0) detour :=
  ⟨1, 5, [(0, [⟨2, 5⟩, ⟨4, 1⟩]), (1, []), (2, []), (3, [⟨1, 1⟩]), (4, [⟨2, 1⟩, ⟨3, 2⟩])],
    by decide +kernel⟩

/-- A thread processes all vertices of `detour`, `r` times. -/
def detourAfter : ℕ → Engine Int32 (WithTop ℚ) (List Link) 1
  | 0 => Engine.start detour
  | r + 1 => after idHash (shortestpathKernel 0) [(0, 0), (0, 0), (0, 0), (0, 1), (0, 2), (0, 3),
      (0, 3), (0, 4), (0, 4), (0, 4)] (detourAfter r)

/-- The critical sections of one pass of thread `w`. -/
def detourPass (w : Fin 1) : List (DeltaIteration.Action Int32 (Fin 1)) :=
  [.absorb w 0, .deliver w, .deliver w, .absorb w 1, .absorb w 2, .absorb w 3, .deliver w,
    .absorb w 4, .deliver w, .deliver w]

theorem run_detour : ∀ r < 4, LTS.Run (Engine.Step idHash (shortestpathKernel 0))
    (detourAfter r) (detourPass 0) (detourAfter (r + 1)) := by
  intro r hr
  interval_cases r <;> exact run_after (by decide +kernel)

/-- The check is not sound: if no thread runs between two checks; after a pass between them, if a
coefficient is negative; and after a pass between them, if a vertex of the shortest-path kernel is
reached meanwhile. -/
theorem not_termcheck_sound :
    (Loaded idHash pagerankIterateKernel (twoVertices 0.2 0 0.2 0 0) ∧
      ∃ d : State Int32 ℚ (List Int32) 1,
        LTS.Reaches (Step idHash pagerankIterateKernel id 0)
          (start (twoVertices 0.2 0 0.2 0 0)) d ∧
        d.terminated = true ∧ ¬ Converged idHash pagerankIterateKernel d.engine) ∧
    (Loaded idHash (katzIterateKernel 3 (-1)) alternating ∧
      ∃ p s b d : State Int32 ℚ (List Int32) 1,
        LTS.Reaches (Step idHash (katzIterateKernel 3 (-1)) id 0) (start alternating) p ∧
        PassBetween (Step idHash (katzIterateKernel 3 (-1)) id 0) p s b d ∧
        d.terminated = true ∧ ¬ Converged idHash (katzIterateKernel 3 (-1)) d.engine) ∧
    (Loaded idHash (shortestpathKernel 0) detour ∧
      ∃ p s b d : State Int32 (WithTop ℚ) (List Link) 1,
        LTS.Reaches (Step idHash (shortestpathKernel 0) distance 0) (start detour) p ∧
        PassBetween (Step idHash (shortestpathKernel 0) distance 0) p s b d ∧
        d.terminated = true ∧ ¬ Converged idHash (shortestpathKernel 0) d.engine) := by
  refine ⟨⟨loaded_twoVertices, ?_⟩, ⟨loaded_alternating, ?_⟩, loaded_detour, ?_⟩
  · -- two checks before the first critical section
    have hempty : estimateProg pagerankIterateKernel id (twoVertices 0.2 0 0.2 0 0) = 0 := by
      decide +kernel
    have hfirst := first_check (n := 1) id loaded_twoVertices (LTS.Reaches.refl _)
      hempty.ge
    have hlast := last_check (n := 1) id loaded_twoVertices (LTS.Reaches.refl _)
    obtain ⟨l, -, hl⟩ := hfirst
    obtain ⟨l', -, hl'⟩ := hlast
    refine ⟨_, (hl.append hl').reaches, rfl, fun hconv => ?_⟩
    have hstep := hconv (after idHash pagerankIterateKernel [(0, 0)] _)
      (run_after (l := [.absorb 0 0]) (by decide +kernel)).reaches 0
    exact absurd hstep (by decide +kernel)
  · obtain ⟨p, s, b, d, hp, hpass, hterm, -, hd⟩ := passBetween_of_sum id loaded_alternating
      (run_alternating 0 (by omega)).reaches (by decide +kernel) (run_alternating 1 (by omega))
      (StateTable.forall_mem_vertices.2 (by decide +kernel)) (by decide +kernel) (by decide +kernel)
    refine ⟨p, s, b, d, hp, hpass, hterm, fun hconv => ?_⟩
    rw [hd] at hconv
    have hstep := hconv (after idHash (katzIterateKernel 3 (-1)) [(0, 0)] (alternatingAfter 2))
      (run_after (l := [.absorb 0 0]) (by decide +kernel)).reaches 0
    exact absurd hstep (by decide +kernel)
  · obtain ⟨p, s, b, d, hp, hpass, hterm, -, hd⟩ := passBetween_of_sum distance loaded_detour
      (run_detour 0 (by omega)).reaches (by decide +kernel) (run_detour 1 (by omega))
      (StateTable.forall_mem_vertices.2 (by decide +kernel)) (by decide +kernel) (by decide +kernel)
    refine ⟨p, s, b, d, hp, hpass, hterm, fun hconv => ?_⟩
    rw [hd] at hconv
    have hstep := hconv (after idHash (shortestpathKernel 0) [(0, 1)] (detourAfter 2))
      (run_after (l := [.absorb 0 1]) (by decide +kernel)).reaches 1
    exact absurd hstep (by decide +kernel)

/-- Two vertices, of which the first links to the second. -/
def chain {α : Type} (links : List α) (v1 v2 v1' v2' : ℚ) (totalUpdates : ℕ) :
    StateTable Int32 ℚ (List α) :=
  ⟨[⟨0, v1, v2, links, v1, true⟩, ⟨1, v1', v2', [], v1', true⟩], 2, 2, totalUpdates⟩

/-- One pass over `chain`, two checks, and between them a pass that changes no value. -/
theorem passBetween_chain {α : Type} {kernel : IterateKernel Int32 ℚ (List α)} {links : List α}
    {v1 v1' : ℚ} (v2 v2' : ℚ) (hload : Loaded idHash kernel (chain links v1 0 v1' 0 0))
    (hfirst : LTS.Run (Engine.Step idHash kernel) (Engine.start (chain links v1 0 v1' 0 0))
      [.absorb 0 0, .deliver 0, .absorb 0 1] (⟨chain links 0 v2 0 v2' 2, ![[]]⟩ : Engine _ _ _ 1))
    (hsecond : LTS.Run (Engine.Step idHash kernel) ⟨chain links 0 v2 0 v2' 2, ![[]]⟩
      [.absorb 0 0, .deliver 0, .absorb 0 1] (⟨chain links 0 v2 0 v2' 4, ![[]]⟩ : Engine _ _ _ 1))
    (hsum : 0 ≤ estimateProg kernel id (chain links 0 v2 0 v2' 2)) :
    ∃ p s b d : State Int32 ℚ (List α) 1,
      LTS.Reaches (Step idHash kernel id 0) (start (chain links v1 0 v1' 0 0)) p ∧
      PassBetween (Step idHash kernel id 0) p s b d ∧ d.terminated = true ∧
      d.engine.table = chain links 0 v2 0 v2' 4 := by
  have hverts : ∀ k ∈ (chain links 0 v2 0 v2' 2).vertices,
      k ∈ DeltaIteration.absorbed ([.absorb 0 0, .deliver 0, .absorb 0 1] :
        List (DeltaIteration.Action Int32 (Fin 1))) := by
    refine StateTable.forall_mem_vertices.2 fun c hc => ?_
    simp only [chain, StateTable.stored, List.filter_cons, List.filter_nil, if_true,
      List.mem_cons, List.not_mem_nil, or_false] at hc
    rcases hc with rfl | rfl <;> simp [DeltaIteration.absorbed]
  obtain ⟨p, s, b, d, hp, hpass, hterm, -, hde⟩ := passBetween_of_sum id hload hfirst.reaches
    (fun w => by rw [Subsingleton.elim w 0]; rfl) hsecond hverts hsum rfl
  exact ⟨p, s, b, d, hp, hpass, hterm, by rw [hde]⟩

/-- One pass over `chain` finds the values of the three sum kernels, two more passes over `detour`
its distances. -/
theorem termcheck_sound_detour :
    (∃ d : State Int32 ℚ (List Int32) 1, d.terminated = true ∧
      d.engine.table = chain [1] 0 0.2 0 0.36 4 ∧
      Converged idHash pagerankIterateKernel d.engine) ∧
    (∃ d : State Int32 ℚ (List Int32) 1, d.terminated = true ∧
      d.engine.table = chain [1] 0 1000000 0 500000 4 ∧
      Converged idHash (katzIterateKernel 0 0.5) d.engine) ∧
    (∃ d : State Int32 ℚ (List Link) 1, d.terminated = true ∧
      d.engine.table = chain [⟨1, 1⟩] 0 10 0 5 4 ∧
      Converged idHash (adsorptionIterateKernel 1 0.5) d.engine) ∧
    ∃ d : State Int32 (WithTop ℚ) (List Link) 1, d.terminated = true ∧
      d.engine = detourAfter 4 ∧ Converged idHash (shortestpathKernel 0) d.engine := by
  refine ⟨?_, ?_, ?_, ?_⟩
  · have hload : Loaded idHash pagerankIterateKernel (chain [1] 0.2 0 0.2 0 0) :=
      ⟨1, 2, [(0, [1]), (1, [])], by decide +kernel⟩
    obtain ⟨p, s, b, d, hp, hpass, hterm, hde⟩ := passBetween_chain 0.2 0.36 hload
      (Engine.run_of_schedule [(0, 0), (0, 0), (0, 1)] (by decide +kernel))
      (Engine.run_of_schedule [(0, 0), (0, 0), (0, 1)] (by decide +kernel)) (by decide +kernel)
    exact ⟨d, hterm, hde, termcheck_sound.1 _ p s b d hload hp hpass hterm⟩
  · have hload : Loaded idHash (katzIterateKernel 0 0.5) (chain [1] 1000000 0 0 0 0) :=
      ⟨1, 2, [(0, [1]), (1, [])], by decide +kernel⟩
    obtain ⟨p, s, b, d, hp, hpass, hterm, hde⟩ := passBetween_chain 1000000 500000 hload
      (Engine.run_of_schedule [(0, 0), (0, 0), (0, 1)] (by decide +kernel))
      (Engine.run_of_schedule [(0, 0), (0, 0), (0, 1)] (by decide +kernel)) (by decide +kernel)
    exact ⟨d, hterm, hde,
      termcheck_sound.2.1 0 0.5 _ p s b d (by norm_num) hload hp hpass hterm⟩
  · have hload : Loaded idHash (adsorptionIterateKernel 1 0.5) (chain [⟨1, 1⟩] 10 0 0 0 0) :=
      ⟨1, 2, [(0, [⟨1, 1⟩]), (1, [])], by decide +kernel⟩
    obtain ⟨p, s, b, d, hp, hpass, hterm, hde⟩ := passBetween_chain 10 5 hload
      (Engine.run_of_schedule [(0, 0), (0, 0), (0, 1)] (by decide +kernel))
      (Engine.run_of_schedule [(0, 0), (0, 0), (0, 1)] (by decide +kernel)) (by decide +kernel)
    exact ⟨d, hterm, hde,
      termcheck_sound.2.2.1 1 0.5 _ p s b d (by decide +kernel) hload hp hpass hterm⟩
  · obtain ⟨p, s, b, d, hp, hpass, hterm, hpe, hde⟩ := passBetween_of_sum distance loaded_detour
      (((run_detour 0 (by omega)).append (run_detour 1 (by omega))).append
        (run_detour 2 (by omega))).reaches (by decide +kernel) (run_detour 3 (by omega))
      (StateTable.forall_mem_vertices.2 (by decide +kernel)) (by decide +kernel) (by decide +kernel)
    refine ⟨d, hterm, hde, termcheck_sound.2.2.2 0 detour p s b d (fun k => ?_) loaded_detour hp
      hpass hterm⟩
    rw [hpe, hde, reached_iff (by decide +kernel), reached_iff (by decide +kernel)]
    have hverts : (detourAfter 3).table.vertices = (detourAfter 4).table.vertices := by
      decide +kernel
    rw [hverts]

end Examples

end TermCheck

end Maiter
