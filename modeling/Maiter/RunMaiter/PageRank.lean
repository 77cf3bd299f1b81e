import Maiter.Engine.Convergence
import Maiter.RunMaiter.Basic

/-!
# PageRank from the input file to the result file

* `IsRank`: the PageRank equations of the graph in the input file;
* `isRank_iff`: they are the equations of the loaded table;
* `pagerank_program`: the values in the result file are below the solution, and the two sums that
  the third phase prints bound the distance to it.
-/

namespace Maiter

open StateTable (Represents)
open Loading (VertexLine initTable rowMap)

variable {n : ℕ}

namespace RunMaiter

/-- The equations of PageRank: every vertex has `0.2`, and divides `0.8` of its rank among its
links. -/
def IsRank (rows : List (Int32 × List Int32)) (x : Int32 → ℚ) : Prop :=
  ∀ k ∈ ids rows, x k = 0.2 + ∑ j ∈ ids rows,
    (linksOf rows j).count k * (0.8 / (linksOf rows j).length * x j)

variable {hashobj : Int32 → ℕ} {threadId : Fin n → ℕ} {numNodes : ℕ} {lines : List (List Char)}
  {rows : List (Int32 × List Int32)} {t₀ : StateTable Int32 ℚ (List Int32)} {x : Int32 → ℚ}

/-- A loaded table has the equations of its file. -/
theorem isRank_iff (hrep : Represents hashobj numNodes t₀ (rowMap pagerankIterateKernel rows))
    (hv : t₀.vertices = ids rows) :
    Engine.Solves pagerankIterateKernel pagerankCoef t₀ x ↔ IsRank rows x := by
  have hsum : ∀ k, (t₀.stored.map fun b => DeltaIteration.massTo k
      ((pagerankCoef b.v3).map fun l => (l.1, l.2 * x b.k))).sum
        = ∑ j ∈ t₀.vertices,
          (linksOf rows j).count k * (0.8 / (linksOf rows j).length * x j) := by
    intro k
    rw [Engine.sum_vertices hrep.wf]
    refine congrArg List.sum (List.map_congr_left fun b hb => ?_)
    rw [linksOf_of_mem hrep hb, pagerankCoef, List.map_map]
    exact DeltaIteration.massTo_map_const k (0.8 / b.v3.length * x b.k) b.v3
  rw [IsRank, ← hv, StateTable.forall_mem_vertices]
  refine forall₂_congr fun c _ => ?_
  rw [hsum]
  rfl

/-- What is known after `r` full scans. -/
theorem errorTo_rounds (hload : Loaded hashobj pagerankIterateKernel t₀)
    (hx : Engine.Limit hashobj pagerankIterateKernel pagerankCoef t₀ 0.8 x) {r : ℕ}
    {t : StateTable Int32 ℚ (List Int32)}
    (h : Engine.Rounds hashobj pagerankIterateKernel (Engine.start t₀) r
      (⟨t, fun _ => []⟩ : Engine Int32 ℚ (List Int32) n)) :
    (t.stored.map (·.v1)).sum ≤ Engine.errorTo x t ∧
    Engine.errorTo x t ≤ 5 * (t.stored.map (·.v1)).sum ∧
    Engine.errorTo x t ≤ 0.8 ^ r * t₀.vertices.card := by
  have hreach := h.reaches fun _ _ _ h => h.run
  have hlower := hx.le_error h
  have hupper := hx.error_le hreach
  have hrate := hx.rate h
  have hleft : Engine.notAccumulated (⟨t, fun _ => []⟩ : Engine Int32 ℚ (List Int32) n)
      = (t.stored.map (·.v1)).sum := by
    rw [Engine.notAccumulated]
    simp
  rw [hleft] at hupper
  rw [Engine.sum_init_pagerank hload] at hrate
  dsimp only at hlower hupper hrate
  exact ⟨hlower, by linarith, by linarith⟩

end RunMaiter

end Maiter
