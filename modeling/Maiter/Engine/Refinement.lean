import Maiter.Engine.Basic

/-!
# The threads iterate the equations of the graph

Where `accumulate` and `g_func` of a kernel read as addition and as multiplication by link
coefficients in a semiring, the critical sections of the threads are the steps of
`DeltaIteration`.

* `Linear kernel R`: such a reading in the semiring `R`;
* `Linear.system`: the equations of the graph in a table;
* `Linear.abs`: the state of the iteration that a state of the threads stands for;
* `step_refines`, `run_refines`, `rounds_refine`: steps, runs and rounds are mapped to steps, runs
  and rounds.
-/

namespace Maiter

open DeltaIteration (System State Action absorbed)

variable {K V D R : Type} [DecidableEq K] {n : ℕ}

/-- A reading of the values of a kernel in a semiring, where the kernel is linear. -/
structure Linear (kernel : IterateKernel K V D) (R : Type) [CommSemiring R] where
  toR : V → R
  coef : D → List (K × R)
  initV_eq : ∀ k data, toR (kernel.initV k data) = 0
  defaultV_eq : toR kernel.defaultV = 0
  accumulate_eq : ∀ a b, toR (kernel.accumulate a b) = toR a + toR b
  gFunc_eq : ∀ k delta value data, (kernel.gFunc k delta value data).map (Prod.map id toR)
    = (coef data).map fun l => (l.1, l.2 * toR delta)

variable [CommSemiring R] {hashobj : K → ℕ} {kernel : IterateKernel K V D}

namespace Linear

variable (lin : Linear kernel R)

/-- The equations of the graph stored in `t`. -/
def system (t : StateTable K V D) : System K R where
  verts := t.vertices
  links k := (t.find k).elim [] fun c => lin.coef c.v3
  init k := (t.find k).elim 0 fun c => lin.toR (kernel.initC k c.v3)

/-- The values of all keys, `0` for those that are not stored. -/
def vals (t : StateTable K V D) (k : K) : R := (t.find k).elim 0 fun c => lin.toR c.v2

/-- The deltas of all keys, `0` for those that are not stored. -/
def deltas (t : StateTable K V D) (k : K) : R := (t.find k).elim 0 fun c => lin.toR c.v1

/-- The state of the iteration. -/
def abs (e : Engine K V D n) : State K (Fin n) R where
  val := lin.vals e.table
  delta := lin.deltas e.table
  buf w := (e.output w).map (Prod.map id lin.toR)

variable {lin} {t t₀ : StateTable K V D} {k : K} {c : Bucket K V D}

variable (lin) in
theorem vals_of_find (hc : t.find k = some c) : lin.vals t k = lin.toR c.v2 := by
  simp [vals, hc]

variable (lin) in
theorem deltas_of_find (hc : t.find k = some c) : lin.deltas t k = lin.toR c.v1 := by
  simp [deltas, hc]

theorem init_of_find (hc : t.find k = some c) :
    (lin.system t).init k = lin.toR (kernel.initC k c.v3) := by
  simp [system, hc]

/-- The links of the graph are those of the table that stores it. -/
theorem links_of_find (hg : SameGraph t t₀) (hc : t.find k = some c) :
    (lin.system t₀).links k = lin.coef c.v3 := by
  have hk := hg k
  rw [hc, Option.map_some, eq_comm, Option.map_eq_some_iff] at hk
  obtain ⟨c₀, hc₀, hdata⟩ := hk
  simp [system, hc₀, hdata]

theorem mem_verts (hg : SameGraph t t₀) (hc : t.find k = some c) :
    k ∈ (lin.system t₀).verts := by
  show k ∈ t₀.vertices
  rw [← hg.vertices, ← StateTable.find_isSome_iff, hc]
  rfl

/-- The coefficients of the stored links lie in a cone. -/
theorem positive_system {G : DeltaIteration.Growth R}
    (h : ∀ c ∈ t₀.stored, ∀ l ∈ lin.coef c.v3, G.pos l.2) :
    DeltaIteration.Positive G (lin.system t₀) := by
  intro i _ l hl
  simp only [system] at hl
  cases hc : t₀.find i with
  | none => simp [hc] at hl
  | some c =>
    rw [hc] at hl
    exact h c (StateTable.find_some hc).1 l hl

/-- So do the initial deltas. -/
theorem init_pos {G : DeltaIteration.Growth R}
    (h : ∀ c ∈ t₀.stored, G.pos (lin.toR (kernel.initC c.k c.v3))) (k : K) :
    G.pos ((lin.system t₀).init k) := by
  simp only [system]
  cases hc : t₀.find k with
  | none => exact G.pos_zero
  | some c =>
    obtain ⟨hst, rfl⟩ := StateTable.find_some hc
    exact h c hst

/-- The messages of `g_func` are those of the equations. -/
theorem map_gFunc (hg : SameGraph t t₀) (hc : t.find k = some c) (delta value : V) :
    (kernel.gFunc k delta value c.v3).map (Prod.map id lin.toR)
      = (lin.system t₀).emit k (lin.toR delta) := by
  rw [lin.gFunc_eq, System.emit, links_of_find hg hc]

/-- Replacing the entry of a key updates a function of the entries. -/
theorem elim_update {α : Type} {t' : StateTable K V D} {c' : Bucket K V D} {z : α}
    {f : Bucket K V D → α}
    (hfind : ∀ k', t'.find k' = if k' = k then some c' else t.find k') :
    (fun k' => (t'.find k').elim z f)
      = Function.update (fun k' => (t.find k').elim z f) k (f c') := by
  funext k'
  rw [hfind k']
  by_cases hk : k' = k
  · rw [hk, if_pos rfl, Function.update_self, Option.elim_some]
  · rw [if_neg hk, Function.update_of_ne hk]

omit [DecidableEq K] in
theorem map_update_output (output : Fin n → List (K × V)) (w : Fin n) (ms : List (K × V)) :
    (fun w' => (Function.update output w ms w').map (Prod.map id lin.toR))
      = Function.update (fun w' => (output w').map (Prod.map id lin.toR)) w
          (ms.map (Prod.map id lin.toR)) := by
  funext w'
  by_cases hw : w' = w
  · rw [hw, Function.update_self, Function.update_self]
  · rw [Function.update_of_ne hw, Function.update_of_ne hw]

end Linear

namespace Engine

open DeltaIteration (Balanced Values)

variable {lin : Linear kernel R} {t₀ : StateTable K V D} {e e' : Engine K V D n}
  [Zero V]

/-- **Every critical section is a step of the iteration.** -/
theorem step_refines {a : Action K (Fin n)} (hI : Inv hashobj t₀ e)
    (h : Step hashobj kernel e a e') :
    DeltaIteration.Step (lin.system t₀) (lin.abs e) a (lin.abs e') := by
  rcases step_cases hI.wf h with
    ⟨w, c, rfl, hw, hc, -, hfind, hout⟩ | ⟨w, k, x, ms, c, rfl, hold, hc, -, hfind, hout⟩
  · have habs : lin.abs e' = ⟨Function.update (lin.abs e).val c.k
        ((lin.abs e).val c.k + (lin.abs e).delta c.k), Function.update (lin.abs e).delta c.k 0,
        Function.update (lin.abs e).buf w ((lin.system t₀).emit c.k ((lin.abs e).delta c.k))⟩ := by
      have hval : lin.vals e'.table
          = Function.update (lin.vals e.table) c.k (lin.toR (sent kernel c).v2) :=
        Linear.elim_update hfind
      have hdelta : lin.deltas e'.table
          = Function.update (lin.deltas e.table) c.k (lin.toR (sent kernel c).v1) :=
        Linear.elim_update hfind
      simp only [Linear.abs, hval, hdelta, hout, Linear.map_update_output, sent,
        lin.accumulate_eq, lin.defaultV_eq, Linear.vals_of_find lin hc,
        Linear.deltas_of_find lin hc, Linear.map_gFunc hI.graph hc]
    rw [habs]
    exact DeltaIteration.Step.absorb (Linear.mem_verts hI.graph hc) (by simp [Linear.abs, hw])
  · have habs : lin.abs e' = ⟨(lin.abs e).val, Function.update (lin.abs e).delta k
        ((lin.abs e).delta k + lin.toR x),
        Function.update (lin.abs e).buf w (ms.map (Prod.map id lin.toR))⟩ := by
      have hval : lin.vals e'.table
          = Function.update (lin.vals e.table) k (lin.toR (received kernel x c).v2) :=
        Linear.elim_update hfind
      have hdelta : lin.deltas e'.table
          = Function.update (lin.deltas e.table) k (lin.toR (received kernel x c).v1) :=
        Linear.elim_update hfind
      have hsame : Function.update (lin.vals e.table) k (lin.toR c.v2) = lin.vals e.table := by
        rw [← Linear.vals_of_find lin hc, Function.update_eq_self]
      simp only [Linear.abs, hval, hdelta, hout, Linear.map_update_output, received,
        lin.accumulate_eq, Linear.deltas_of_find lin hc, hsame]
    rw [habs]
    exact DeltaIteration.Step.deliver (by simp [Linear.abs, hold])

omit [Zero V] in
theorem start_refines [Inhabited (Bucket K V D)] (h : Loaded hashobj kernel t₀) :
    lin.abs (start t₀ : Engine K V D n) = (lin.system t₀).start := by
  have hentry : ∀ k c, t₀.find k = some c → lin.toR c.v2 = 0 ∧
      lin.toR c.v1 = lin.toR (kernel.initC k c.v3) := by
    intro k c hc
    obtain ⟨hst, rfl⟩ := StateTable.find_some hc
    obtain ⟨h1, h2⟩ := h.good.all c hst
    exact ⟨by rw [h2, lin.initV_eq], by rw [h1]⟩
  simp only [Linear.abs, System.start, start, State.mk.injEq, List.map_nil, and_true]
  constructor <;> funext k
  · cases hc : t₀.find k with
    | none => simp [Linear.vals, hc]
    | some c => rw [Linear.vals_of_find lin hc, (hentry k c hc).1]
  · cases hc : t₀.find k with
    | none => simp [Linear.deltas, Linear.system, hc]
    | some c => rw [Linear.deltas_of_find lin hc, Linear.init_of_find hc, (hentry k c hc).2]

variable (lin) in
/-- Every run is a run of the iteration. -/
theorem run_refines {l : List (Action K (Fin n))} (hI : Inv hashobj t₀ e)
    (h : LTS.Run (Step hashobj kernel) e l e') :
    LTS.Run (DeltaIteration.Step (lin.system t₀)) (lin.abs e) l (lin.abs e') := by
  have hsim := h.simulation (f := lin.abs) (g := id) (fun _ _ _ hI hstep => inv_step hI hstep)
    (fun _ _ _ hI hstep => step_refines hI hstep) hI
  rwa [List.map_id] at hsim

omit [Zero V] in
/-- The keys of the stored entries are the vertices of the equations, each once. -/
theorem perm_verts (hI : Inv hashobj t₀ e) :
    (e.table.stored.map (·.k)).Perm (lin.system t₀).verts.toList := by
  show (e.table.stored.map (·.k)).Perm t₀.vertices.toList
  rw [← hI.graph.vertices, StateTable.vertices]
  exact (List.toFinset_toList hI.wf.nodup_keys).symm

theorem round_refines {l : List (Action K (Fin n))} (hI : Inv hashobj t₀ e)
    (h : Round hashobj kernel e l e') :
    DeltaIteration.Round (lin.system t₀) (lin.abs e) l (lin.abs e') where
  run := run_refines lin hI h.run
  start w := by simp [Linear.abs, h.start w]
  finish w := by simp [Linear.abs, h.finish w]
  once := h.once.trans (perm_verts hI)

variable (lin) in
/-- Every number of completed full scans is that number of rounds of the iteration. -/
theorem rounds_refine {r : ℕ} (hI : Inv hashobj t₀ e) (h : Rounds hashobj kernel e r e') :
    Inv hashobj t₀ e' ∧ DeltaIteration.Rounds (lin.system t₀) (lin.abs e) r (lin.abs e') := by
  refine LTS.Rounds.simulation (I := Inv hashobj t₀) (f := lin.abs) (g := id)
    (fun _ _ _ hI hround => hround.run.invariant (fun _ _ _ hI hstep => inv_step hI hstep) hI)
    (fun _ l _ hI hround => ?_) h hI
  rw [List.map_id]
  exact round_refines hI hround

/-! ### Reachable states -/

variable [Inhabited (Bucket K V D)]

/-- What holds of every state that the threads can reach from a loaded table. -/
theorem reaches_refines (lin : Linear kernel R) (hload : Loaded hashobj kernel t₀)
    (h : Reaches hashobj kernel (start t₀) e) :
    Inv hashobj t₀ e ∧
      ∃ l, LTS.Run (DeltaIteration.Step (lin.system t₀)) (lin.system t₀).start l (lin.abs e) := by
  obtain ⟨l, hl⟩ := h
  refine ⟨inv_loaded hload hl.reaches, l, ?_⟩
  rw [← start_refines hload]
  exact run_refines lin (inv_start hload) hl

/-- **Conservation** in every reachable state. -/
theorem balanced_reaches (lin : Linear kernel R) (hload : Loaded hashobj kernel t₀)
    (h : Reaches hashobj kernel (start t₀) e) : Balanced (lin.system t₀) (lin.abs e) := by
  obtain ⟨-, l, hl⟩ := reaches_refines lin hload h
  exact DeltaIteration.balanced_run hl (DeltaIteration.balanced_start _)

/-- A property that is closed under the equations, in every reachable state. -/
theorem values_reaches (lin : Linear kernel R) {P : K → R → Prop}
    (hP : DeltaIteration.Closed (lin.system t₀) P) (hinit : ∀ k, P k ((lin.system t₀).init k))
    (hload : Loaded hashobj kernel t₀) (h : Reaches hashobj kernel (start t₀) e) :
    Values P (lin.abs e) := by
  obtain ⟨-, l, hl⟩ := reaches_refines lin hload h
  exact DeltaIteration.values_run hP hl (DeltaIteration.values_start hP hinit)

end Engine

end Maiter
