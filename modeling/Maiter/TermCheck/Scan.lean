import Maiter.TermCheck.Basic

/-!
# What a check reads

* `reading`: what a vertex contributes to the sum of a check at a given moment;
* `Between`, `ScanInv`: while all readings move in one direction, the partial sum of a check lies
  between the sum of the readings when the check began and their sum now;
* `check_bounds`: the sum that a check passes to `terminate`;
* `eq_of_pass`: if the second of two consecutive checks terminates the table, no reading changed
  between them.
-/

namespace Maiter

namespace TermCheck

open Engine (Inv)

variable {K V D R : Type} [DecidableEq K] [DecidableEq V] [Zero V] [CommSemiring R] {n : ℕ}
  {hashobj : K → ℕ} {kernel : IterateKernel K V D} {toDouble : V → ℚ} {termcheckThreshold : ℚ}
  {lin : Linear kernel R} {g : R → ℚ} {σ : ℚ} {s t p b d : State K V D n}
  {t₀ : StateTable K V D}

/-! ### The keys of the first buckets -/

/-- The keys in the first `m` buckets. -/
def scanned (t : StateTable K V D) (m : ℕ) : List K := (List.range m).filterMap t.layout

omit [DecidableEq K] [DecidableEq V] [Zero V] in
theorem scanned_succ (t : StateTable K V D) (m : ℕ) :
    scanned t (m + 1) = scanned t m ++ (t.layout m).toList := by
  rw [scanned, List.range_succ, List.filterMap_append]
  cases h : t.layout m <;> simp [scanned, h]

omit [DecidableEq K] [DecidableEq V] [Zero V] in
theorem nodup_scanned {t : StateTable K V D} (hwf : t.WF hashobj) (m : ℕ) : (scanned t m).Nodup :=
  List.nodup_range.filterMap fun b b' k hb hb' => hwf.chained.inj b b' k hb hb'

omit [DecidableEq V] [Zero V] in
/-- All buckets together hold every vertex. -/
theorem mem_scanned_size {t : StateTable K V D} (hwf : t.WF hashobj) {k : K} :
    k ∈ scanned t t.size ↔ k ∈ t.vertices := by
  rw [StateTable.mem_vertices, ← StateTable.exists_layout_iff]
  constructor
  · intro hk
    obtain ⟨b, -, hb⟩ := List.mem_filterMap.1 hk
    exact ⟨b, hb⟩
  · rintro ⟨b, hb⟩
    refine List.mem_filterMap.2 ⟨b, List.mem_range.2 ?_, hb⟩
    obtain ⟨c, hc, -, -⟩ := StateTable.layout_eq_some_iff.1 hb
    rw [← hwf.len]
    exact (List.getElem?_eq_some_iff.1 hc).1

omit [DecidableEq V] [Zero V] in
/-- All buckets together hold every vertex once. -/
theorem sum_scanned {t : StateTable K V D} (hwf : t.WF hashobj) (x : K → ℚ) :
    ((scanned t t.size).map x).sum = ∑ k ∈ t.vertices, x k := by
  have hmem : (scanned t t.size).toFinset = t.vertices := by
    ext k
    rw [List.mem_toFinset, mem_scanned_size hwf]
  rw [← hmem, List.sum_toFinset x (nodup_scanned hwf t.size)]

/-! ### Readings -/

variable (lin g) in
/-- What a key contributes to the sum of a check. -/
def reading (t : StateTable K V D) (k : K) : ℚ := g (lin.vals t k)

/-- `toDouble` in terms of the values of the semiring; `defaultV`, which is not added, counts as
zero. -/
structure Reads (lin : Linear kernel R) (g : R → ℚ) (toDouble : V → ℚ) : Prop where
  toDouble_eq : ∀ v, toDouble v = g (lin.toR v)
  zero : g 0 = 0

omit [DecidableEq V] [Zero V] in
theorem Reads.reading_eq (hr : Reads lin g toDouble) {t : StateTable K V D}
    (hwf : t.WF hashobj) {pos : ℕ} {c : Bucket K V D} (hc : t.buckets[pos]? = some c)
    (hu : c.inUse = true) : reading lin g t c.k = toDouble c.v2 := by
  rw [reading, Linear.vals_of_find lin (hwf.find_of_getElem? hc hu), hr.toDouble_eq]

omit [DecidableEq K] [DecidableEq V] [Zero V] in
theorem Reads.toDouble_defaultV (hr : Reads lin g toDouble) :
    toDouble kernel.defaultV = 0 := by
  rw [hr.toDouble_eq, lin.defaultV_eq, hr.zero]

/-! ### The partial sum of a check -/

/-- `partialCurr` lies between the sums of `x` and of `y` over the keys `l`; `σ` is the direction
in which the readings move. -/
def Between (σ : ℚ) (x y : K → ℚ) (l : List K) (partialCurr : ℚ) : Prop :=
  σ * (l.map x).sum ≤ σ * partialCurr ∧ σ * partialCurr ≤ σ * (l.map y).sum

omit [DecidableEq K] in
theorem Between.nil (x y : K → ℚ) : Between σ x y [] 0 := ⟨le_refl _, le_refl _⟩

omit [DecidableEq K] in
theorem Between.snoc {x y : K → ℚ} {l : List K} {q r : ℚ} (h : Between σ x y l q) {k : K}
    (hx : σ * x k ≤ σ * r) (hy : σ * r ≤ σ * y k) : Between σ x y (l ++ [k]) (q + r) := by
  obtain ⟨hlow, hhigh⟩ := h
  constructor <;> simp only [List.map_append, List.map_singleton, List.sum_append,
    List.sum_singleton, mul_add] <;> linarith

omit [DecidableEq K] in
theorem Between.mono {x y y' : K → ℚ} {l : List K} {q : ℚ} (h : Between σ x y l q)
    (hy : ∀ k, σ * y k ≤ σ * y' k) : Between σ x y' l q := by
  refine ⟨h.1, h.2.trans ?_⟩
  rw [← List.sum_map_mul_left, ← List.sum_map_mul_left]
  exact List.sum_le_sum fun k _ => hy k

variable (hashobj kernel toDouble termcheckThreshold lin g σ t₀) in
/-- A step after which no reading is behind, in the direction `σ`. -/
def MonoStep (s : State K V D n) (a : Action K n) (t : State K V D n) : Prop :=
  Step hashobj kernel toDouble termcheckThreshold s a t ∧ Inv hashobj t₀ s.engine ∧
    ∀ k, σ * reading lin g s.engine.table k ≤ σ * reading lin g t.engine.table k

variable (lin g σ) in
/-- A check that began when the readings were `x`. -/
def ScanInv (x : K → ℚ) (s : State K V D n) : Prop :=
  (∀ k, σ * x k ≤ σ * reading lin g s.engine.table k) ∧
  match s.pc with
  | .idle => True
  | .next m partialCurr =>
    Between σ x (reading lin g s.engine.table) (scanned s.engine.table m) partialCurr
  | .test m partialCurr | .add m partialCurr =>
    Between σ x (reading lin g s.engine.table) (scanned s.engine.table m) partialCurr ∧
      ∃ k, s.engine.table.layout m = some k

omit [DecidableEq V] [Zero V] in
/-- Reading the value of bucket `m`. -/
theorem between_read (hr : Reads lin g toDouble) (hI : Inv hashobj t₀ s.engine) {x : K → ℚ}
    (hx : ∀ k, σ * x k ≤ σ * reading lin g s.engine.table k) {m : ℕ} {q : ℚ}
    (h : Between σ x (reading lin g s.engine.table) (scanned s.engine.table m) q) {k : K}
    (hk : s.engine.table.layout m = some k) {c : Bucket K V D}
    (hc : s.engine.table.buckets[m]? = some c) :
    Between σ x (reading lin g s.engine.table) (scanned s.engine.table (m + 1))
      (q + toDouble c.v2) := by
  obtain ⟨c', hc', hu, rfl⟩ := StateTable.layout_eq_some_iff.1 hk
  cases hc.symm.trans hc'
  have hread := hr.reading_eq hI.wf hc hu
  rw [scanned_succ, hk]
  exact h.snoc (by rw [← hread]; exact hx c.k) (by rw [hread])

theorem scanInv_step (hr : Reads lin g toDouble) {x : K → ℚ} {a : Action K n}
    (hs : ScanInv lin g σ x s)
    (h : MonoStep hashobj kernel toDouble termcheckThreshold lin g σ t₀ s a t) :
    ScanInv lin g σ x t := by
  obtain ⟨hx, hpc⟩ := hs
  obtain ⟨hstep, hI, hmono⟩ := h
  refine ⟨fun k => (hx k).trans (hmono k), ?_⟩
  cases hstep with
  | @work a e hwork =>
    have hlay := (Engine.step_layout hwork).2
    have hscan : ∀ m, scanned e.table m = scanned s.engine.table m := fun m => by
      rw [scanned, hlay]
      rfl
    cases hs : s.pc <;> simp only [hs] at hpc ⊢
    case next => exact hscan _ ▸ hpc.mono hmono
    case test | add => exact ⟨hscan _ ▸ hpc.1.mono hmono, hlay ▸ hpc.2⟩
  | check => exact Between.nil _ _
  | @read pc hread =>
    cases hs : s.pc with
    | idle => simp [hs, scanStep] at hread
    | next m q =>
      simp only [hs] at hpc hread
      simp only [scanStep] at hread
      split_ifs at hread with hm
      obtain ⟨c, hc, rfl⟩ := Option.map_eq_some_iff.1 hread
      split_ifs with hu
      · exact ⟨hpc, c.k, StateTable.layout_eq_some_iff.2 ⟨c, hc, hu, rfl⟩⟩
      · have hnone : s.engine.table.layout m = none :=
          StateTable.layout_eq_none_iff.2 fun c' hc' => by
            cases hc.symm.trans hc'
            simpa using hu
        show Between σ x _ (scanned s.engine.table (m + 1)) q
        rw [scanned_succ, hnone, Option.toList_none, List.append_nil]
        exact hpc
    | test m q =>
      simp only [hs] at hpc hread
      obtain ⟨hbetween, k, hk⟩ := hpc
      obtain ⟨c, hc, rfl⟩ := Option.map_eq_some_iff.1 hread
      split_ifs with hv
      · exact ⟨hbetween, k, hk⟩
      · -- the value is `defaultV`, which counts as zero
        have hzero := between_read hr hI hx hbetween hk hc
        rw [not_not.1 hv, hr.toDouble_defaultV, add_zero] at hzero
        exact hzero
    | add m q =>
      simp only [hs] at hpc hread
      obtain ⟨hbetween, k, hk⟩ := hpc
      obtain ⟨c, hc, rfl⟩ := Option.map_eq_some_iff.1 hread
      exact between_read hr hI hx hbetween hk hc
  | answer => trivial

/-! ### Whole checks -/

/-- **The sum that a check passes to `terminate`** lies between the sum of the readings when it
begins and their sum when it is answered. -/
theorem check_bounds (hr : Reads lin g toDouble)
    (h : IsCheck (MonoStep hashobj kernel toDouble termcheckThreshold lin g σ t₀) s t) :
    ∃ q, σ * ∑ k ∈ t₀.vertices, reading lin g s.engine.table k ≤ σ * q ∧
      σ * q ≤ σ * ∑ k ∈ t₀.vertices, reading lin g t.engine.table k ∧ s.terminated = false ∧
      t.checker = (s.checker.terminate termcheckThreshold q).2 ∧
      t.terminated = (s.checker.terminate termcheckThreshold q).1 := by
  obtain ⟨l, hl, hrun⟩ := h
  obtain ⟨v, hrun, ⟨hanswer, hI, -⟩⟩ := hrun.snoc_inv
  obtain ⟨u, ⟨hcheck, -, -⟩, hrun⟩ := hrun.cons_inv
  obtain ⟨hchecker, -⟩ := frame_of_run (hrun.mono fun _ _ _ h => h.1) hl
  cases hcheck with
  | check hpc hterm =>
    have hinv : ScanInv lin g σ (reading lin g s.engine.table) v :=
      hrun.invariant (fun _ _ _ hs h => scanInv_step hr hs h) ⟨fun _ => le_refl _, Between.nil _ _⟩
    cases hanswer with
    | @answer q hq =>
      have hbetween := hinv.2
      simp only [hq] at hbetween
      obtain ⟨hlow, hhigh⟩ := hbetween
      rw [sum_scanned hI.wf, hI.graph.vertices] at hlow hhigh
      rw [hchecker]
      exact ⟨q, hlow, hhigh, hterm, rfl, rfl⟩

theorem mono_of_run {l : List (Action K n)}
    (h : LTS.Run (MonoStep hashobj kernel toDouble termcheckThreshold lin g σ t₀) s l t) (k : K) :
    σ * reading lin g s.engine.table k ≤ σ * reading lin g t.engine.table k := by
  induction h with
  | nil => exact le_refl _
  | snoc _ ha ih => exact ih.trans (ha.2.2 k)

/-- **If the second of two consecutive checks terminates the table**, the readings have not changed
during the pass between them. -/
theorem eq_of_pass (hr : Reads lin g toDouble) (hσ : σ ≠ 0)
    (h : PassBetween (MonoStep hashobj kernel toDouble 0 lin g σ t₀) p s b d)
    (hterm : d.terminated = true) :
    ∀ k ∈ t₀.vertices, reading lin g b.engine.table k = reading lin g s.engine.table k := by
  obtain ⟨p', hfirst, l, hwork⟩ := h.first
  obtain ⟨m, hpass, -⟩ := h.pass
  obtain ⟨q, -, hhigh, -, hchecker, hterm'⟩ := check_bounds hr hfirst
  obtain ⟨q', hlow, -, hb, -, hd⟩ := check_bounds hr h.second
  have hlabels : ∀ l : List (DeltaIteration.Action K (Fin n)),
      ∀ a ∈ l.map (Action.work (n := n)), a ≠ .answer := by
    intro l a ha
    obtain ⟨a', -, rfl⟩ := List.mem_map.1 ha
    simp
  obtain ⟨hc₁, ht₁⟩ := frame_of_run (hwork.mono fun _ _ _ h => h.1) (hlabels l)
  obtain ⟨hc₂, ht₂⟩ := frame_of_run (hpass.mono fun _ _ _ h => h.1) (hlabels m)
  -- the first check does not terminate the table, so its sum is the `last` of the second one
  have hlast : b.checker.last = q := by
    rw [hc₂, hc₁, hchecker]
    exact Diff.last_terminate (by rw [← hterm', ← ht₁, ← ht₂, hb])
  have hq : q' = q := by
    have habs := Diff.terminate_iff.1 (hd.symm.trans hterm)
    rw [hlast] at habs
    exact sub_eq_zero.1 (abs_nonpos_iff.1 habs)
  have hmono : ∀ k ∈ t₀.vertices,
      σ * reading lin g s.engine.table k ≤ σ * reading lin g b.engine.table k :=
    fun k _ => mono_of_run hpass k
  have hsum : ∑ k ∈ t₀.vertices, σ * reading lin g s.engine.table k
      = ∑ k ∈ t₀.vertices, σ * reading lin g b.engine.table k := by
    refine le_antisymm (Finset.sum_le_sum hmono) ?_
    rw [← Finset.mul_sum, ← Finset.mul_sum]
    have hworks : ∑ k ∈ t₀.vertices, σ * reading lin g p'.engine.table k
        ≤ ∑ k ∈ t₀.vertices, σ * reading lin g s.engine.table k :=
      Finset.sum_le_sum fun k _ => mono_of_run hwork k
    rw [← Finset.mul_sum, ← Finset.mul_sum] at hworks
    exact hlow.trans ((hq ▸ hhigh).trans hworks)
  intro k hk
  exact (mul_left_cancel₀ hσ ((Finset.sum_eq_sum_iff_of_le hmono).1 hsum k hk)).symm

end TermCheck

end Maiter
