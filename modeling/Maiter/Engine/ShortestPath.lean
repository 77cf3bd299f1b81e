import Maiter.Engine.Refinement
import Maiter.Kernels
import Maiter.Lib.WeightedWalk

/-!
# Shortest paths under any schedule

The shortest-path kernel with `imax` read as `+∞`: its values are rationals or `⊤`.

* `weightedLinks`, `IsSource`: the weighted graph in a table, and the source in it;
* `shortest_paths`: every value, delta and message is the length of a walk, and in a quiescent
  state the values are the distances;
* `bellman_ford`: after `r` full scans the values are at most the lengths of the walks with at
  most `r - 1` links; with non-negative weights and as many scans as vertices they are the
  distances for good.
-/

namespace Maiter

open DeltaIteration (Walk IsDistance IsWalk minPlus minima)
open Tropical (trop untrop)

/-- The kernel with `imax` as `+∞`. -/
abbrev shortestpathKernel (shortestpathSource : UInt64) :
    IterateKernel Int32 (WithTop ℚ) (List Link) :=
  shortestpathIterateKernel (fun d w => d + (w : WithTop ℚ)) ⊤ shortestpathSource

/-- The links of a vertex with their weights. -/
def weights (data : List Link) : List (Int32 × ℚ) := data.map fun target =>
  (target.dest, target.weight)

/-- Shortest paths are linear over the tropical semiring. -/
def shortestpathLinear (shortestpathSource : UInt64) :
    Linear (shortestpathKernel shortestpathSource) (Tropical (WithTop ℚ)) where
  toR := trop
  coef data := (weights data).map fun l => (l.1, trop (l.2 : WithTop ℚ))
  initV_eq _ _ := rfl
  defaultV_eq := rfl
  accumulate_eq _ _ := rfl
  gFunc_eq k delta value data := by
    simp only [shortestpathIterateKernel, weights, List.map_map]
    refine List.map_congr_left fun target _ => ?_
    simp only [Function.comp_apply, Prod.map_apply, id, Prod.mk.injEq, true_and]
    rw [Tropical.trop_add, mul_comm]

namespace Engine

variable {n : ℕ} {hashobj : Int32 → ℕ} {shortestpathSource : UInt64}
  {t₀ : StateTable Int32 (WithTop ℚ) (List Link)} {e : Engine Int32 (WithTop ℚ) (List Link) n}

/-- The weighted links of a key; a key that is not stored has none. -/
def weightedLinks (t : StateTable Int32 (WithTop ℚ) (List Link)) (k : Int32) : List (Int32 × ℚ) :=
  (t.find k).elim [] fun c => weights c.v3

/-- The stored vertex that the source id names. -/
def IsSource (shortestpathSource : UInt64) (t : StateTable Int32 (WithTop ℚ) (List Link))
    (k : Int32) : Prop := k ∈ t.vertices ∧ toUInt64 k = shortestpathSource

instance (t : StateTable Int32 (WithTop ℚ) (List Link)) :
    DecidablePred (IsSource shortestpathSource t) := fun _ => inferInstanceAs (Decidable (_ ∧ _))

/-- At most one stored vertex is the source. -/
theorem IsSource.unique {k k' : Int32} (h : IsSource shortestpathSource t₀ k)
    (h' : IsSource shortestpathSource t₀ k') : k = k' := toUInt64_inj (h.2.trans h'.2.symm)

/-- The equations of the kernel are the min-plus equations of the weighted graph. -/
theorem system_eq_minPlus :
    (shortestpathLinear shortestpathSource).system t₀
      = minPlus t₀.vertices (weightedLinks t₀) (IsSource shortestpathSource t₀) := by
  simp only [Linear.system, minPlus, DeltaIteration.System.mk.injEq, true_and]
  constructor <;> funext k
  · simp only [weightedLinks]
    cases t₀.find k <;> rfl
  · cases hc : t₀.find k with
    | none =>
      have hk : ¬ IsSource shortestpathSource t₀ k := fun h => by
        have := StateTable.find_isSome_iff.2 h.1
        rw [hc] at this
        cases this
      rw [if_neg hk]
      rfl
    | some c =>
      have hmem : k ∈ t₀.vertices := StateTable.find_isSome_iff.1 (by rw [hc]; rfl)
      by_cases hs : toUInt64 k = shortestpathSource
      · rw [if_pos ⟨hmem, hs⟩]
        simp [shortestpathIterateKernel, shortestpathLinear, hs]
      · rw [if_neg fun h => hs h.2]
        simp [shortestpathIterateKernel, shortestpathLinear, hs]

theorem mem_of_weightedLinks {k : Int32} (h : weightedLinks t₀ k ≠ []) : k ∈ t₀.vertices := by
  rw [← StateTable.find_isSome_iff]
  cases hc : t₀.find k with
  | none => simp [weightedLinks, hc] at h
  | some c => rfl

/-- Everything finite is the length of a walk. -/
theorem isWalk_of_reaches (hload : Loaded hashobj (shortestpathKernel shortestpathSource) t₀)
    (h : Reaches hashobj (shortestpathKernel shortestpathSource) (start t₀) e) :
    DeltaIteration.Values (IsWalk (weightedLinks t₀) (IsSource shortestpathSource t₀))
      ((shortestpathLinear shortestpathSource).abs e) := by
  refine values_reaches _ ?_ ?_ hload h
  · rw [system_eq_minPlus]
    exact DeltaIteration.minPlus_isWalk
  · rw [system_eq_minPlus]
    exact DeltaIteration.minPlus_init_isWalk

/-- **Shortest paths under any schedule.**  In every reachable state the vertices and links are
those of the start; every value, delta and message other than `imax` is the length of a walk from
the source; and with empty buffers and no delta below its value, the values are the distances. -/
theorem shortest_paths (hload : Loaded hashobj (shortestpathKernel shortestpathSource) t₀)
    (h : Reaches hashobj (shortestpathKernel shortestpathSource) (start t₀) e) :
    SameGraph e.table t₀ ∧
    (∀ c ∈ e.table.stored, ∀ d : ℚ, c.v2 = d ∨ c.v1 = d →
      ∃ vs, Walk (weightedLinks t₀) (IsSource shortestpathSource t₀) vs d c.k) ∧
    (∀ w, ∀ m ∈ e.output w, ∀ d : ℚ, m.2 = d →
      ∃ vs, Walk (weightedLinks t₀) (IsSource shortestpathSource t₀) vs d m.1) ∧
    ((∀ w, e.output w = []) → (∀ c ∈ e.table.stored, ¬ c.v1 < c.v2) →
      ∀ c ∈ e.table.stored,
        IsDistance (weightedLinks t₀) (IsSource shortestpathSource t₀) c.k c.v2) := by
  have hI := inv_loaded hload h
  have hwalk := isWalk_of_reaches hload h
  have hval : ∀ c ∈ e.table.stored,
      ((shortestpathLinear shortestpathSource).abs e).val c.k = trop c.v2 := fun c hc =>
    Linear.vals_of_find _ (hI.wf.find_eq_some_iff.2 ⟨hc, rfl⟩)
  have hdelta : ∀ c ∈ e.table.stored,
      ((shortestpathLinear shortestpathSource).abs e).delta c.k = trop c.v1 := fun c hc =>
    Linear.deltas_of_find _ (hI.wf.find_eq_some_iff.2 ⟨hc, rfl⟩)
  refine ⟨hI.graph, fun c hc d hd => ?_, fun w m hm d hd => ?_, fun hbuf hquiet c hc => ?_⟩
  · rcases hd with hd | hd
    · refine hwalk.val c.k d ?_
      rw [hval c hc, hd, Tropical.untrop_trop]
    · refine hwalk.delta c.k d ?_
      rw [hdelta c hc, hd, Tropical.untrop_trop]
  · exact hwalk.buf w (m.1, trop m.2) (List.mem_map.2 ⟨m, hm, rfl⟩) d hd
  · have hb := balanced_reaches (shortestpathLinear shortestpathSource) hload h
    rw [system_eq_minPlus] at hb
    have hdist := DeltaIteration.isDistance_of_quiescent (fun _ => mem_of_weightedLinks) hwalk hb
      (fun w => by simp [Linear.abs, hbuf w]) ?_ c.k
    · rwa [hval c hc] at hdist
    · intro k
      cases hk : e.table.find k with
      | none => simp [Linear.abs, Linear.vals, Linear.deltas, hk]
      | some c' =>
        obtain ⟨hc', rfl⟩ := StateTable.find_some hk
        rw [hval c' hc', hdelta c' hc']
        exact not_lt.1 (hquiet c' hc')

/-- Two vertices that link to each other, with weights `2` and `3`. -/
def twoWay (v1 v2 p v1' v2' p' : WithTop ℚ) (totalUpdates : ℕ) :
    StateTable Int32 (WithTop ℚ) (List Link) :=
  ⟨[⟨0, v1, v2, [⟨1, 2⟩], p, true⟩, ⟨1, v1', v2', [⟨0, 3⟩], p', true⟩], 2, 2, totalUpdates⟩

theorem loaded_twoWay : Loaded (fun k => k.toUInt32.toNat) (shortestpathKernel 0)
    (twoWay 0 ⊤ ⊤ ⊤ ⊤ ⊤ 0) :=
  ⟨1, 2, [(0, [⟨1, 2⟩]), (1, [⟨0, 3⟩])], by decide +kernel⟩

theorem round_twoWay : Round (fun k => k.toUInt32.toNat) (shortestpathKernel 0)
    (start (twoWay 0 ⊤ ⊤ ⊤ ⊤ ⊤ 0)) [.absorb 0 0, .deliver 0, .absorb 0 1, .deliver 0]
    (⟨twoWay 5 0 0 ⊤ 2 0 2, ![[]]⟩ : Engine _ _ _ 1) :=
  ⟨run_of_schedule [(0, 0), (0, 0), (0, 1), (0, 0)] (by decide +kernel), fun _ => rfl, by decide,
    by decide +kernel⟩

theorem shortest_paths_twoWay :
    IsDistance (weightedLinks (twoWay 0 ⊤ ⊤ ⊤ ⊤ ⊤ 0)) (IsSource 0 (twoWay 0 ⊤ ⊤ ⊤ ⊤ ⊤ 0)) 1 2 :=
  (shortest_paths loaded_twoWay round_twoWay.run.reaches).2.2.2 (by decide) (by decide +kernel)
    ⟨1, ⊤, 2, [⟨0, 3⟩], 0, true⟩ (by decide +kernel)

/-! ### Rounds -/

/-- **The Bellman-Ford bound.**  After `r ≥ 1` full scans, and in every later state, the value of a
vertex is at most the length of every walk to it with at most `r - 1` links.  With non-negative
weights, after as many full scans as there are vertices the values are the distances, and they
never change again. -/
theorem bellman_ford (hload : Loaded hashobj (shortestpathKernel shortestpathSource) t₀) {r : ℕ}
    (hr : 1 ≤ r) (h : Rounds hashobj (shortestpathKernel shortestpathSource) (start t₀) r e)
    {e' : Engine Int32 (WithTop ℚ) (List Link) n}
    (hlater : Reaches hashobj (shortestpathKernel shortestpathSource) e e') :
    (∀ j ∈ t₀.vertices, ∃ c, e'.table.find j = some c ∧ ∀ vs d,
      Walk (weightedLinks t₀) (IsSource shortestpathSource t₀) vs d j → vs.length ≤ r - 1 →
      c.v2 ≤ (d : WithTop ℚ)) ∧
    ((∀ k, ∀ l ∈ weightedLinks t₀ k, 0 ≤ l.2) → t₀.vertices.card ≤ r →
      ∀ j ∈ t₀.vertices, ∃ c c', e.table.find j = some c ∧ e'.table.find j = some c' ∧
        IsDistance (weightedLinks t₀) (IsSource shortestpathSource t₀) j c.v2 ∧
        c'.v2 = c.v2) := by
  obtain ⟨hI, habs⟩ := rounds_refine (shortestpathLinear shortestpathSource) (inv_start hload) h
  rw [start_refines hload, system_eq_minPlus] at habs
  obtain ⟨l, hl⟩ := hlater
  have hrun := run_refines (shortestpathLinear shortestpathSource) hI hl
  rw [system_eq_minPlus] at hrun
  have hval : ∀ (t : StateTable Int32 (WithTop ℚ) (List Link)) {j c}, t.find j = some c →
      untrop ((shortestpathLinear shortestpathSource).vals t j) = c.v2 := fun t j c hc => by
    rw [Linear.vals_of_find _ hc]
    rfl
  refine ⟨fun j hj => ?_, fun hw hcard j hj => ?_⟩ <;>
    obtain ⟨c', hc'⟩ := (inv_reaches hl.reaches hI).graph.find hj
  · refine ⟨c', hc', fun vs d hwalk hlen => ?_⟩
    rw [← hval _ hc']
    exact DeltaIteration.rounds_le_walk (fun _ => mem_of_weightedLinks) habs hrun hj hwalk
      (by omega)
  · obtain ⟨c, hc⟩ := hI.graph.find hj
    have hdist := DeltaIteration.isDistance_of_rounds hw (fun _ => mem_of_weightedLinks) habs hcard
      LTS.Run.nil hj
    have hdist' := DeltaIteration.isDistance_of_rounds hw (fun _ => mem_of_weightedLinks) habs
      hcard hrun hj
    refine ⟨c, c', hc, hc', ?_, ?_⟩
    · rw [← hval _ hc]
      exact hdist
    · rw [← hval _ hc, ← hval _ hc']
      exact hdist'.unique hdist

theorem round_twoWay_again : Round (fun k => k.toUInt32.toNat) (shortestpathKernel 0)
    ⟨twoWay 5 0 0 ⊤ 2 0 2, ![[]]⟩ [.absorb 0 0, .deliver 0, .absorb 0 1, .deliver 0]
    (⟨twoWay 10 0 0 ⊤ 2 0 4, ![[]]⟩ : Engine _ _ _ 1) :=
  ⟨run_of_schedule [(0, 0), (0, 0), (0, 1), (0, 0)] (by decide +kernel), by decide, by decide,
    by decide +kernel⟩

theorem bellman_ford_twoWay :
    ∃ c c', (twoWay 10 0 0 ⊤ 2 0 4).find 1 = some c ∧ (twoWay 10 0 0 ⊤ 2 0 4).find 1 = some c' ∧
      IsDistance (weightedLinks (twoWay 0 ⊤ ⊤ ⊤ ⊤ ⊤ 0)) (IsSource 0 (twoWay 0 ⊤ ⊤ ⊤ ⊤ ⊤ 0)) 1
        c.v2 ∧ c'.v2 = c.v2 := by
  have hw : ∀ k, ∀ l ∈ weightedLinks (twoWay 0 ⊤ ⊤ ⊤ ⊤ ⊤ 0) k, 0 ≤ l.2 := by
    have hstored : ∀ c ∈ (twoWay 0 ⊤ ⊤ ⊤ ⊤ ⊤ 0).stored, ∀ l ∈ weights c.v3, 0 ≤ l.2 := by
      decide +kernel
    intro k l hl
    unfold weightedLinks at hl
    cases hc : (twoWay 0 ⊤ ⊤ ⊤ ⊤ ⊤ 0).find k with
    | none => simp [hc] at hl
    | some c =>
      rw [hc] at hl
      exact hstored c (StateTable.find_some hc).1 l hl
  exact (bellman_ford loaded_twoWay one_le_two
    ((LTS.Rounds.zero.succ round_twoWay).succ round_twoWay_again) (LTS.Reaches.refl _)).2 hw
    (by decide +kernel) 1 (by decide +kernel)

end Engine

end Maiter
