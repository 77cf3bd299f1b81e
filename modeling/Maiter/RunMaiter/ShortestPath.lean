import Maiter.Config.Options
import Maiter.Engine.ShortestPath
import Maiter.Loading.WeightedLinks
import Maiter.RunMaiter.Basic

/-!
# Shortest paths from the input file to the result file

Weights and values are rational numbers, and `imax` is `+∞`.

* `fileWeights`, `FileSource`: the weighted graph in the input file, and the source in it;
* `weightedLinks_eq`, `isSource_eq`: they are those of the loaded table;
* `values_of_rounds`: the values after a number of full scans;
* `shortestpath_program`: the values in the result file.
-/

namespace Maiter

open DeltaIteration (Walk IsDistance)
open SecondPhase (Action)
open StateTable (Represents)
open Config (shortestpathMain)
open Loading (WeightedLine initTable rowMap lastData)
open Tropical (untrop)

variable {n : ℕ}

namespace RunMaiter

/-- The links of a vertex with their weights, as the file has them. -/
def fileWeights (rows : List (Int32 × List Link)) (k : Int32) : List (Int32 × ℚ) :=
  weights (linksOf rows k)

/-- The id that the source names, if it is in the file. -/
def FileSource (shortestpathSource : UInt64) (rows : List (Int32 × List Link)) (k : Int32) : Prop :=
  k ∈ ids rows ∧ toUInt64 k = shortestpathSource

variable {hashobj : Int32 → ℕ} {shortestpathSource : UInt64} {threadId : Fin n → ℕ} {numNodes : ℕ}
  {lines : List (List Char)} {rows : List (Int32 × List Link)}
  {t₀ t : StateTable Int32 (WithTop ℚ) (List Link)}

theorem weightedLinks_eq (hrep : Represents hashobj numNodes t₀
    (rowMap (shortestpathKernel shortestpathSource) rows)) :
    Engine.weightedLinks t₀ = fileWeights rows := by
  funext k
  have hfind := hrep.find k
  rw [Engine.weightedLinks, fileWeights, linksOf]
  cases hc : t₀.find k with
  | none =>
    rw [hc, Option.map_none, eq_comm, rowMap, Option.map_eq_none_iff] at hfind
    rw [hfind]
    rfl
  | some c =>
    obtain ⟨hstored, rfl⟩ := StateTable.find_some hc
    rw [← linksOf, linksOf_of_mem hrep hstored]
    rfl

theorem isSource_eq (hv : t₀.vertices = ids rows) :
    Engine.IsSource shortestpathSource t₀ = FileSource shortestpathSource rows := by
  funext k
  rw [Engine.IsSource, hv]
  rfl

/-- **The values after `r` full scans**: lengths of walks, no longer than the walks with less than
`r` links. -/
theorem values_of_rounds (hload : Loaded hashobj (shortestpathKernel shortestpathSource) t₀) {r : ℕ}
    (h : Engine.Rounds hashobj (shortestpathKernel shortestpathSource) (Engine.start t₀) r
      (⟨t, fun _ => []⟩ : Engine Int32 (WithTop ℚ) (List Link) n)) :
    ∀ c ∈ t.stored,
      (∀ d : ℚ, c.v2 = d →
        ∃ vs, Walk (Engine.weightedLinks t₀) (Engine.IsSource shortestpathSource t₀) vs d c.k) ∧
      (∀ vs d, Walk (Engine.weightedLinks t₀) (Engine.IsSource shortestpathSource t₀) vs d c.k →
        vs.length < r → c.v2 ≤ (d : WithTop ℚ)) ∧
      ((∀ k, ∀ l ∈ Engine.weightedLinks t₀ k, 0 ≤ l.2) → t₀.vertices.card ≤ r →
        IsDistance (Engine.weightedLinks t₀) (Engine.IsSource shortestpathSource t₀) c.k c.v2) := by
  intro c hc
  obtain ⟨hI, habs⟩ :=
    Engine.rounds_refine (shortestpathLinear shortestpathSource) (Engine.inv_start hload) h
  rw [Engine.start_refines hload, Engine.system_eq_minPlus] at habs
  have hreach := h.reaches fun _ _ _ h => h.run
  have hwalk := (Engine.isWalk_of_reaches hload hreach).val c.k
  have hfind := hI.wf.find_eq_some_iff.2 ⟨hc, rfl⟩
  have hval : ((shortestpathLinear shortestpathSource).abs
      (⟨t, fun _ => []⟩ : Engine Int32 (WithTop ℚ) (List Link) n)).val c.k = Tropical.trop c.v2 :=
    Linear.vals_of_find _ hfind
  have hmem : c.k ∈ t₀.vertices := by
    rw [← hI.graph.vertices]
    exact StateTable.mem_vertices.2 ⟨c, hc, rfl⟩
  refine ⟨fun d hd => hwalk d (by rw [hval, hd, Tropical.untrop_trop]), fun vs d hw hlen => ?_,
    fun hpos hcard => ?_⟩
  · have hle := DeltaIteration.rounds_le_walk (fun _ => Engine.mem_of_weightedLinks) habs
      LTS.Run.nil hmem hw hlen
    rwa [hval] at hle
  · have hdist := DeltaIteration.isDistance_of_rounds hpos (fun _ => Engine.mem_of_weightedLinks)
      habs hcard LTS.Run.nil hmem
    rwa [hval] at hdist

theorem fileWeights_nonneg (h : ∀ row ∈ rows, ∀ l ∈ row.2, 0 ≤ l.weight) :
    ∀ k, ∀ l ∈ fileWeights rows k, 0 ≤ l.2 := by
  intro k l hl
  obtain ⟨target, htarget, rfl⟩ := List.mem_map.1 hl
  cases hdata : lastData rows k with
  | none => simp [linksOf, hdata] at htarget
  | some data =>
    rw [linksOf, hdata, Option.getD_some] at htarget
    exact h _ (Loading.mem_of_lastData hdata) target htarget

/-- The vertices `0` and `1`, with links of weights `2` and `3` to each other. -/
def twoWayLines : List (List Char) := ["0\t1,2 ".toList, "1\t0,3 ".toList]

def twoWayRows : List (Int32 × List Link) := [(0, [⟨1, 2⟩]), (1, [⟨0, 3⟩])]

theorem graphFile_twoWayRows : GraphFile
    (Vertexlock.shortestpathLinks (fun d w => d + (w : WithTop ℚ)) ⊤ 0) 1 2 twoWayRows where
  threads := by decide
  lines_fit := by decide
  nodes_pos := by decide
  nodes_fit := by decide
  room := by decide
  within := by simp [twoWayRows, Vertexlock.Within]
  closed := by simp [twoWayRows, Vertexlock.shortestpathLinks]

/-- The only thread, `w`, takes part in two full scans; then the table is terminated. -/
def twoScans (w : Fin 1) : List (Action 1) :=
  List.replicate 3 (Action.worker w) ++ List.replicate 10 Action.sched ++
    List.replicate 34 (Action.worker w) ++ List.replicate 13 Action.sched ++
      List.replicate 34 (Action.worker w) ++ Action.terminate :: List.replicate 9 Action.sched

theorem exec_twoScans : ∃ s, SecondPhase.exec (fun _ => 7) Engine.idHash (shortestpathKernel 0)
      (SecondPhase.start (fun _ => 7) (Engine.twoWay 0 ⊤ ⊤ ⊤ ⊤ ⊤ 0)) (twoScans 0) = some s ∧
    s.control.sched = .exited ∧ s.control.round = 2 := by
  have hrun : (SecondPhase.exec (fun _ => 7) Engine.idHash (shortestpathKernel 0)
      (SecondPhase.start (fun _ => 7) (Engine.twoWay 0 ⊤ ⊤ ⊤ ⊤ ⊤ 0)) (twoScans 0)).map
        (fun s => (s.control.sched, s.control.round)) = some (.exited, 2) := by decide +kernel
  rw [Option.map_eq_some_iff] at hrun
  simpa only [Prod.mk.injEq] using hrun

end RunMaiter

end Maiter
