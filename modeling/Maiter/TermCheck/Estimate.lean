import Maiter.TermCheck.Converged

/-!
# Equal estimates of the shortest-path kernel

The estimate sums the values that are not `imax`.  Values only go down, but a vertex that is reached
adds its value to the sum.

* `estimateProg_eq_sum`: the estimate as a sum over the vertices;
* `v2_le_step`, `v2_le_reaches`, `v2_le_imax`: the values of the shortest-path kernel, for any type
  of values and any `imax`, go down from `imax`;
* `EqualEstimates`: two successive checks, of which the second terminates the table;
* `equalEstimates_iff`: then no value has changed, unless a vertex was first reached in between;
* `not_shortestpath_estimate`: a vertex that is reached can hide that another one improves.
-/

namespace Maiter

namespace TermCheck

open Engine (Inv)

/-! ### The estimate as a sum -/

section Sum

variable {K V D : Type} [DecidableEq K] [DecidableEq V] {hashobj : K → ℕ}
  {kernel : IterateKernel K V D} {toDouble : V → ℚ} {t : StateTable K V D}

variable (kernel toDouble) in
/-- What a vertex contributes to the estimate. -/
def share (t : StateTable K V D) (k : K) : ℚ := (t.find k).elim 0 (contribution kernel toDouble)

theorem share_of_find {k : K} {c : Bucket K V D} (hc : t.find k = some c) :
    share kernel toDouble t k = if c.v2 ≠ kernel.defaultV then toDouble c.v2 else 0 := by
  have hu : c.inUse = true := (StateTable.mem_stored.1 (StateTable.find_some hc).1).2
  simp [share, hc, contribution, hu]

theorem estimateProg_eq_sum (hwf : t.WF hashobj) :
    estimateProg kernel toDouble t = ∑ k ∈ t.vertices, share kernel toDouble t k := by
  rw [StateTable.vertices, List.sum_toFinset _ hwf.nodup_keys, List.map_map, ← sum_contribution]
  have hstored : t.stored.map (share kernel toDouble t ∘ (·.k))
      = t.stored.map (contribution kernel toDouble) := by
    refine List.map_congr_left fun c hc => ?_
    rw [Function.comp_apply, share, hwf.find_eq_some_iff.2 ⟨hc, rfl⟩, Option.elim_some]
  rw [hstored, StateTable.stored]
  induction t.buckets with
  | nil => rfl
  | cons c l ih =>
    rw [List.map_cons, List.sum_cons, ih]
    cases hu : c.inUse <;> simp [contribution, hu]

end Sum

end TermCheck

/-- If the check after one with the answer `false` has the answer `true` for the threshold `0`, the
two sums are equal. -/
theorem Diff.eq_of_terminate {d : Diff} {x y : ℚ} (hx : (d.terminate 0 x).1 = false)
    (hy : ((d.terminate 0 x).2.terminate 0 y).1 = true) : y = x := by
  rw [Diff.terminate_iff, Diff.last_terminate hx] at hy
  exact sub_eq_zero.1 (abs_nonpos_iff.1 hy)

namespace TermCheck

open Engine (Inv)

/-! ### Values go down -/

section Values

variable {V : Type} [LinearOrder V] [Zero V] [Sub V] {plus : V → ℚ → V} {imax : V}
  {shortestpathSource : UInt64} {n : ℕ} {hashobj : Int32 → ℕ}
  {t₀ : StateTable Int32 V (List Link)} {e e' : Engine Int32 V (List Link) n}

theorem v2_le_step (hwf : e.table.WF hashobj) {a : DeltaIteration.Action Int32 (Fin n)}
    (h : Engine.Step hashobj (shortestpathIterateKernel plus imax shortestpathSource) e a e')
    {k : Int32} {c : Bucket Int32 V (List Link)} (hc : e.table.find k = some c) :
    ∃ c', e'.table.find k = some c' ∧ c'.v2 ≤ c.v2 := by
  rcases Engine.step_cases hwf h with
    ⟨w, d, -, -, hd, -, hfind, -⟩ | ⟨w, j, x, ms, d, -, -, hd, -, hfind, -⟩ <;> rw [hfind]
  · split_ifs with hk
    · rw [hk, hd] at hc
      cases hc
      exact ⟨_, rfl, min_le_left _ _⟩
    · exact ⟨c, hc, le_rfl⟩
  · split_ifs with hk
    · rw [hk, hd] at hc
      cases hc
      exact ⟨_, rfl, le_rfl⟩
    · exact ⟨c, hc, le_rfl⟩

theorem v2_le_reaches (hI : Inv hashobj t₀ e)
    (h : Engine.Reaches hashobj (shortestpathIterateKernel plus imax shortestpathSource) e e')
    {k : Int32} {c : Bucket Int32 V (List Link)} (hc : e.table.find k = some c) :
    ∃ c', e'.table.find k = some c' ∧ c'.v2 ≤ c.v2 := by
  refine (LTS.Reaches.invariant (I := fun e' => Inv hashobj t₀ e' ∧
    ∃ c', e'.table.find k = some c' ∧ c'.v2 ≤ c.v2) ?_ h ⟨hI, c, hc, le_rfl⟩).2
  rintro u a v ⟨hIu, d, hd, hle⟩ hstep
  obtain ⟨d', hd', hle'⟩ := v2_le_step hIu.wf hstep hd
  exact ⟨Engine.inv_step hIu hstep, d', hd', hle'.trans hle⟩

/-- No value is above `imax`. -/
theorem v2_le_imax [Inhabited (Bucket Int32 V (List Link))]
    (hload : Loaded hashobj (shortestpathIterateKernel plus imax shortestpathSource) t₀)
    (h : Engine.Reaches hashobj (shortestpathIterateKernel plus imax shortestpathSource)
      (Engine.start t₀) e) {k : Int32} {c : Bucket Int32 V (List Link)}
    (hc : e.table.find k = some c) : c.v2 ≤ imax := by
  have hI := Engine.inv_loaded hload h
  have hk : k ∈ t₀.vertices := by
    rw [← hI.graph.vertices, ← StateTable.find_isSome_iff, hc]
    rfl
  obtain ⟨c₀, hc₀⟩ := Option.isSome_iff_exists.1 (StateTable.find_isSome_iff.2 hk)
  obtain ⟨c', hc', hle⟩ := v2_le_reaches (Engine.inv_start hload) h hc₀
  rw [hc, Option.some.injEq] at hc'
  have hinit : c₀.v2 = imax := (hload.good.all c₀ (StateTable.find_some hc₀).1).2
  rw [hc', ← hinit]
  exact hle

end Values

/-! ### Two successive checks -/

section Estimates

variable {K V D : Type} [DecidableEq K] [DecidableEq V] [Zero V] [Inhabited (Bucket K V D)] {n : ℕ}

/-- Two successive checks compute their estimates in the states `e₁` and `e₂` of a run, and the
second one, with threshold `0`, terminates the table. -/
structure EqualEstimates (hashobj : K → ℕ) (kernel : IterateKernel K V D) (toDouble : V → ℚ)
    (t₀ : StateTable K V D) (e₁ e₂ : Engine K V D n) : Prop where
  loaded : Loaded hashobj kernel t₀
  first : Engine.Reaches hashobj kernel (Engine.start t₀) e₁
  second : Engine.Reaches hashobj kernel e₁ e₂
  answers : ∃ d : Diff, (d.terminate 0 (estimateProg kernel toDouble e₁.table)).1 = false ∧
    ((d.terminate 0 (estimateProg kernel toDouble e₁.table)).2.terminate 0
      (estimateProg kernel toDouble e₂.table)).1 = true

omit [Zero V] [Inhabited (Bucket K V D)] in
/-- A vertex is first reached between `e₁` and `e₂`: its value was `imax`, and is not any more. -/
def FirstReached (kernel : IterateKernel K V D) (e₁ e₂ : Engine K V D n) (k : K) : Prop :=
  ∃ c₁ c₂, e₁.table.find k = some c₁ ∧ e₂.table.find k = some c₂ ∧
    c₁.v2 = kernel.defaultV ∧ c₂.v2 ≠ kernel.defaultV

/-- Every vertex has the same value in `e₁` and `e₂`. -/
def SameValues (e₁ e₂ : Engine K V D n) : Prop :=
  ∀ k, (e₂.table.find k).map (·.v2) = (e₁.table.find k).map (·.v2)

end Estimates

section Values

variable {V : Type} [LinearOrder V] [Zero V] [Sub V] [Inhabited (Bucket Int32 V (List Link))]
  {plus : V → ℚ → V} {imax : V} {shortestpathSource : UInt64} {n : ℕ} {hashobj : Int32 → ℕ}
  {toDouble : V → ℚ} {t₀ : StateTable Int32 V (List Link)} {e₁ e₂ : Engine Int32 V (List Link) n}

/-- A vertex that is not first reached contributes no more than before, and as much as before only
if its value has not changed. -/
theorem share_le (hmono : ∀ a b, a < b → b ≠ imax → toDouble a < toDouble b)
    (h : EqualEstimates hashobj (shortestpathIterateKernel plus imax shortestpathSource) toDouble
      t₀ e₁ e₂) {k : Int32}
    (hk : ¬ FirstReached (shortestpathIterateKernel plus imax shortestpathSource) e₁ e₂ k)
    {c₁ : Bucket Int32 V (List Link)} (hc₁ : e₁.table.find k = some c₁) :
    ∃ c₂, e₂.table.find k = some c₂ ∧
      share (shortestpathIterateKernel plus imax shortestpathSource) toDouble e₂.table k
        ≤ share (shortestpathIterateKernel plus imax shortestpathSource) toDouble e₁.table k ∧
      (share (shortestpathIterateKernel plus imax shortestpathSource) toDouble e₂.table k
        = share (shortestpathIterateKernel plus imax shortestpathSource) toDouble e₁.table k →
        c₂.v2 = c₁.v2) := by
  obtain ⟨c₂, hc₂, hle⟩ := v2_le_reaches (Engine.inv_loaded h.loaded h.first) h.second hc₁
  refine ⟨c₂, hc₂, ?_⟩
  have hdefault : (shortestpathIterateKernel plus imax shortestpathSource).defaultV = imax := rfl
  rw [share_of_find hc₁, share_of_find hc₂, hdefault]
  by_cases h₁ : c₁.v2 = imax
  · have h₂ : c₂.v2 = imax := by
      by_contra hne
      exact hk ⟨c₁, c₂, hc₁, hc₂, h₁, hne⟩
    simp [h₁, h₂]
  · have h₂ : c₂.v2 ≠ imax := by
      rintro rfl
      exact h₁ ((v2_le_imax h.loaded h.first hc₁).antisymm hle)
    rw [if_pos h₂, if_pos h₁]
    rcases hle.eq_or_lt with heq | hlt
    · rw [heq]
      exact ⟨le_rfl, fun _ => rfl⟩
    · have hlt' := hmono _ _ hlt h₁
      exact ⟨hlt'.le, fun heq => absurd heq hlt'.ne⟩

/-- **After equal estimates no value has changed**, unless a vertex was first reached; `toDouble`
keeps the order of the values that are not `imax`. -/
theorem equalEstimates_iff
    (hmono : ∀ a b, a < b → b ≠ imax → toDouble a < toDouble b)
    (h : EqualEstimates hashobj (shortestpathIterateKernel plus imax shortestpathSource) toDouble
      t₀ e₁ e₂) :
    SameValues e₁ e₂ ↔
      ∀ k, ¬ FirstReached (shortestpathIterateKernel plus imax shortestpathSource) e₁ e₂ k := by
  constructor
  · rintro hsame k ⟨c₁, c₂, hc₁, hc₂, hv₁, hv₂⟩
    have hk := hsame k
    rw [hc₁, hc₂, Option.map_some, Option.map_some, Option.some.injEq, hv₁] at hk
    exact hv₂ hk
  · intro hnone
    have hI₁ := Engine.inv_loaded h.loaded h.first
    have hI₂ := Engine.inv_loaded h.loaded (h.first.trans h.second)
    obtain ⟨d, hd₁, hd₂⟩ := h.answers
    have hsum := Diff.eq_of_terminate hd₁ hd₂
    rw [estimateProg_eq_sum hI₁.wf, estimateProg_eq_sum hI₂.wf, hI₁.graph.vertices,
      hI₂.graph.vertices] at hsum
    have hentry : ∀ k ∈ t₀.vertices, ∃ c₁, e₁.table.find k = some c₁ := fun k hk =>
      hI₁.graph.find hk
    have hle : ∀ k ∈ t₀.vertices,
        share (shortestpathIterateKernel plus imax shortestpathSource) toDouble e₂.table k
          ≤ share (shortestpathIterateKernel plus imax shortestpathSource) toDouble e₁.table k := by
      intro k hk
      obtain ⟨c₁, hc₁⟩ := hentry k hk
      obtain ⟨c₂, -, hle, -⟩ := share_le hmono h (hnone k) hc₁
      exact hle
    have heq := (Finset.sum_eq_sum_iff_of_le hle).1 hsum
    intro k
    by_cases hk : k ∈ t₀.vertices
    · obtain ⟨c₁, hc₁⟩ := hentry k hk
      obtain ⟨c₂, hc₂, -, hv⟩ := share_le hmono h (hnone k) hc₁
      rw [hc₁, hc₂, Option.map_some, Option.map_some, hv (heq k hk)]
    · have hfind : ∀ {e : Engine Int32 V (List Link) n}, Inv hashobj t₀ e →
          e.table.find k = none := by
        intro e hI
        rw [← hI.graph.vertices, ← StateTable.find_isSome_iff] at hk
        exact Option.not_isSome_iff_eq_none.1 hk
      rw [hfind hI₁, hfind hI₂]

end Values

/-! ### The kernel of the repository -/

section ShortestPath

variable {n : ℕ} {hashobj : Int32 → ℕ}

/-- **Equal estimates of the shortest-path kernel**, with a finite `imax` and with an infinite one:
every vertex has the same value at both checks if and only if no vertex was first reached between
them. -/
theorem shortestpath_estimate_iff :
    (∀ (imax : ℚ) (shortestpathSource : UInt64) (t₀ : StateTable Int32 ℚ (List Link))
        (e₁ e₂ : Engine Int32 ℚ (List Link) n),
      EqualEstimates hashobj (shortestpathIterateKernel (· + ·) imax shortestpathSource) id
        t₀ e₁ e₂ →
      (SameValues e₁ e₂ ↔ ∀ k, ¬ FirstReached
        (shortestpathIterateKernel (· + ·) imax shortestpathSource) e₁ e₂ k)) ∧
    (∀ (shortestpathSource : UInt64) (t₀ : StateTable Int32 (WithTop ℚ) (List Link))
        (e₁ e₂ : Engine Int32 (WithTop ℚ) (List Link) n),
      EqualEstimates hashobj (shortestpathKernel shortestpathSource) distance t₀ e₁ e₂ →
      (SameValues e₁ e₂ ↔
        ∀ k, ¬ FirstReached (shortestpathKernel shortestpathSource) e₁ e₂ k)) := by
  constructor
  · intro imax shortestpathSource t₀ e₁ e₂ h
    exact equalEstimates_iff (fun a b hab _ => hab) h
  · intro shortestpathSource t₀ e₁ e₂ h
    refine equalEstimates_iff (fun a b hab hb => ?_) h
    refine (distance_mono hb hab.le).lt_of_ne fun heq => hab.ne ?_
    exact distance_inj (hab.trans_le le_top).ne hb heq

/-- A source without links, with the finite `imax` of `100`. -/
def lonely (v1 v2 priority : ℚ) (totalUpdates : ℕ) : StateTable Int32 ℚ (List Link) :=
  ⟨[⟨0, v1, v2, [], priority, true⟩], 1, 1, totalUpdates⟩

/-- The source is processed twice; and the last two passes over `detour` change nothing. -/
theorem shortestpath_estimate_detour :
    (∃ e : Engine Int32 ℚ (List Link) 1, e.table = lonely 100 0 0 1 ∧
      SameValues e ⟨lonely 100 0 0 2, fun _ => []⟩) ∧
    SameValues (detourAfter 3) (detourAfter 4) := by
  constructor
  · have hload : Loaded Engine.idHash (shortestpathIterateKernel (· + ·) (100 : ℚ) 0)
        (lonely 0 100 100 0) := ⟨1, 1, [(0, [])], by decide +kernel⟩
    have hfirst : LTS.Run (Engine.Step Engine.idHash
        (shortestpathIterateKernel (· + ·) (100 : ℚ) 0)) (Engine.start (lonely 0 100 100 0))
        [.absorb 0 0] (⟨lonely 100 0 0 1, fun _ => []⟩ : Engine _ _ _ 1) :=
      Engine.run_of_schedule [(0, 0)] (by decide +kernel)
    have hsecond : LTS.Run (Engine.Step Engine.idHash
        (shortestpathIterateKernel (· + ·) (100 : ℚ) 0))
        (⟨lonely 100 0 0 1, fun _ => []⟩ : Engine _ _ _ 1) [.absorb 0 0]
        ⟨lonely 100 0 0 2, fun _ => []⟩ := Engine.run_of_schedule [(0, 0)] (by decide +kernel)
    refine ⟨_, rfl, (shortestpath_estimate_iff.1 100 0 (lonely 0 100 100 0) _ _
      ⟨hload, hfirst.reaches, hsecond.reaches, Diff.new, ?_, ?_⟩).2 ?_⟩
    · decide +kernel
    · decide +kernel
    · rintro k ⟨c₁, c₂, hc₁, -, hv, -⟩
      have hall : ∀ c ∈ (lonely 100 0 0 1).stored, c.v2 ≠ 100 := by decide +kernel
      exact hall c₁ (StateTable.find_some hc₁).1 hv
  · have hreach : ∀ r ≤ 4, Engine.Reaches Engine.idHash (shortestpathKernel 0)
        (Engine.start detour) (detourAfter r) := by
      intro r
      induction r with
      | zero => exact fun _ => LTS.Reaches.refl _
      | succ r ih => exact fun hr => (ih (by omega)).trans (run_detour r (by omega)).reaches
    have hthird : estimateProg (shortestpathKernel 0) distance (detourAfter 3).table = 10 := by
      decide +kernel
    have hfourth : estimateProg (shortestpathKernel 0) distance (detourAfter 4).table = 10 := by
      decide +kernel
    refine (shortestpath_estimate_iff.2 0 detour (detourAfter 3) (detourAfter 4)
      ⟨loaded_detour, hreach 3 (by omega), (run_detour 3 (by omega)).reaches, Diff.new, ?_,
        ?_⟩).2 ?_
    · rw [hthird, Diff.terminate_new (by norm_num)]
    · rw [hthird, hfourth, Diff.terminate_new (by norm_num), Diff.terminate_last]
    · rintro k ⟨c₁, c₂, hc₁, -, hv, -⟩
      have hall : ∀ c ∈ (detourAfter 3).table.stored, c.v2 ≠ ⊤ := by decide +kernel
      exact hall c₁ (StateTable.find_some hc₁).1 hv

/-- In `detour` the estimate is `6` after the first pass and after the second: the distance of `2`
goes down by `3`, and `3` is reached at the distance `3`. -/
theorem not_shortestpath_estimate :
    EqualEstimates Engine.idHash (shortestpathKernel 0) distance detour (detourAfter 1)
        (detourAfter 2) ∧
      ¬ SameValues (detourAfter 1) (detourAfter 2) := by
  have hfirst : estimateProg (shortestpathKernel 0) distance (detourAfter 1).table = 6 := by
    decide +kernel
  have hsecond : estimateProg (shortestpathKernel 0) distance (detourAfter 2).table = 6 := by
    decide +kernel
  refine ⟨⟨loaded_detour, (run_detour 0 (by omega)).reaches, (run_detour 1 (by omega)).reaches,
    Diff.new, ?_, ?_⟩, fun hsame => ?_⟩
  · rw [hfirst, Diff.terminate_new (by norm_num)]
  · rw [hfirst, hsecond, Diff.terminate_new (by norm_num), Diff.terminate_last]
  · exact absurd (hsame 2) (by decide +kernel)

end ShortestPath

end TermCheck

end Maiter
