import Maiter.Lib.Solution

/-!
# Rounds that absorb a greatest delta

Where the coefficients of every vertex sum to at most `γ < 1`, absorbing a vertex loses at least
`1 - γ` of its delta.  So a run that absorbs the vertices with the greatest delta shrinks what is
not accumulated, however few other vertices it absorbs.

* `leftover_step`, `leftover_le_run`: nothing is gained, and absorbing loses a part of the delta;
* `leftover_run`: a run loses a part of the delta of every vertex that it absorbs;
* `leftover_of_greatest`: the rate of a run that absorbs the vertices with the greatest delta.
-/

namespace DeltaIteration

variable {ι τ R : Type*} [Field R]

/-- The buffered messages after the buffer of one worker was replaced. -/
theorem sum_buf_update [DecidableEq τ] [Fintype τ] (f : τ → List (ι × R)) (w : τ)
    (ms : List (ι × R)) :
    ∑ w', ((Function.update f w ms w').map (·.2)).sum + ((f w).map (·.2)).sum
      = ∑ w', ((f w').map (·.2)).sum + (ms.map (·.2)).sum := by
  have hrest : ∑ w' ∈ Finset.univ.erase w, ((Function.update f w ms w').map (·.2)).sum
      = ∑ w' ∈ Finset.univ.erase w, ((f w').map (·.2)).sum :=
    Finset.sum_congr rfl fun w' hw' => by rw [Function.update_of_ne (Finset.ne_of_mem_erase hw')]
  rw [← Finset.add_sum_erase _ _ (Finset.mem_univ w), hrest,
    ← Finset.add_sum_erase _ (fun w' => ((f w').map (·.2)).sum) (Finset.mem_univ w),
    Function.update_self]
  ring

/-- The deltas after one of them was replaced. -/
theorem sum_delta_update [DecidableEq ι] {F : Finset ι} (f : ι → R) {i : ι} (hi : i ∈ F) (x : R) :
    ∑ j ∈ F, Function.update f i x j + f i = ∑ j ∈ F, f j + x := by
  rw [Finset.sum_update_of_mem hi, ← Finset.add_sum_erase F f hi, Finset.sdiff_singleton_eq_erase]
  ring

variable [DecidableEq ι] [DecidableEq τ] [Fintype τ] [LinearOrder R] [IsStrictOrderedRing R]
  {g : System ι R} {γ : R} {s t : State ι τ R}

omit [DecidableEq ι] [LinearOrder R] [IsStrictOrderedRing R] in
/-- All messages that a delta causes. -/
theorem sum_emit (g : System ι R) (i : ι) (x : R) :
    ((g.emit i x).map (·.2)).sum = ((g.links i).map (·.2)).sum * x := by
  rw [System.emit, List.map_map, ← List.sum_map_mul_right]
  rfl

/-- **No step gains anything**, and absorbing a vertex loses at least `1 - γ` of its delta. -/
theorem leftover_step (hg : Contracting g γ)
    (hs : Values (fun _ => (DeltaIteration.nonneg R).pos) s) {a : Action ι τ} (h : Step g s a t) :
    t.leftover g.verts ≤ s.leftover g.verts ∧
    ∀ w i, a = .absorb w i →
      t.leftover g.verts + (1 - γ) * s.delta i ≤ s.leftover g.verts := by
  cases h with
  | @absorb w i hi hbuf =>
    have hdelta : 0 ≤ s.delta i := hs.delta i
    have hsum := sum_delta_update s.delta hi 0
    have hbufs := sum_buf_update s.buf w (g.emit i (s.delta i))
    have hemit : ((g.emit i (s.delta i)).map (·.2)).sum ≤ γ * s.delta i := by
      rw [sum_emit]
      exact mul_le_mul_of_nonneg_right (hg.sum_le i hi) hdelta
    rw [hbuf, List.map_nil, List.sum_nil, add_zero] at hbufs
    have hlose : State.leftover g.verts (⟨Function.update s.val i (s.val i + s.delta i),
        Function.update s.delta i 0, Function.update s.buf w (g.emit i (s.delta i))⟩ :
          State ι τ R) + (1 - γ) * s.delta i ≤ s.leftover g.verts := by
      simp only [State.leftover]
      linarith
    refine ⟨?_, fun _ _ ha => ?_⟩
    · have hpos := mul_nonneg (sub_nonneg.2 hg.lt_one.le) hdelta
      linarith
    · cases ha
      exact hlose
  | @deliver w j x ms hbuf =>
    refine ⟨?_, fun _ _ ha => by cases ha⟩
    have hx : 0 ≤ x := hs.buf w (j, x) (by rw [hbuf]; exact List.mem_cons_self)
    have hbufs := sum_buf_update s.buf w ms
    rw [hbuf, List.map_cons, List.sum_cons] at hbufs
    simp only [State.leftover]
    by_cases hj : j ∈ g.verts
    · have hsum := sum_delta_update s.delta hj (s.delta j + x)
      linarith
    · rw [Finset.sum_update_of_notMem hj]
      linarith

omit [Fintype τ] in
/-- A delta does not fall before its vertex is absorbed. -/
theorem delta_le_step (hs : Values (fun _ => (DeltaIteration.nonneg R).pos) s) {a : Action ι τ}
    (h : Step g s a t) {i : ι} (hi : ∀ w, a ≠ .absorb w i) : s.delta i ≤ t.delta i := by
  cases h with
  | @absorb w j _ _ =>
    have hne : i ≠ j := fun he => hi w (by rw [he])
    exact le_of_eq (Function.update_of_ne hne ..).symm
  | @deliver w j x ms hbuf =>
    have hx : 0 ≤ x := hs.buf w (j, x) (by rw [hbuf]; exact List.mem_cons_self)
    by_cases hne : i = j
    · subst hne
      simp only [Function.update_self]
      exact le_add_of_nonneg_right hx
    · exact le_of_eq (Function.update_of_ne hne ..).symm

/-- A run gains nothing. -/
theorem leftover_le_run (hg : Contracting g γ) {l : List (Action ι τ)}
    (h : LTS.Run (Step g) s l t) (hs : Values (fun _ => (DeltaIteration.nonneg R).pos) s) :
    t.leftover g.verts ≤ s.leftover g.verts := by
  exact h.monotone (r := fun s t => t.leftover g.verts ≤ s.leftover g.verts)
    (fun _ _ _ hs ha => values_step hg.pos.closed hs ha) (fun _ => le_rfl)
    (fun _ _ _ h h' => h'.trans h) (fun _ _ _ hs ha => (leftover_step hg hs ha).1) hs

/-- **A run** loses a part of the delta of every vertex that it absorbs; the other deltas do not
fall. -/
theorem leftover_run (hg : Contracting g γ) {l : List (Action ι τ)} (h : LTS.Run (Step g) s l t)
    (hs : Values (fun _ => (DeltaIteration.nonneg R).pos) s) (i : ι) :
    if i ∈ absorbed l then t.leftover g.verts + (1 - γ) * s.delta i ≤ s.leftover g.verts
    else s.delta i ≤ t.delta i := by
  induction h with
  | nil => rw [if_neg (by simp [absorbed])]
  | @snoc l t u a hrun ha ih =>
    have ht := values_run hg.pos.closed hrun hs
    have hle := leftover_le_run hg hrun hs
    obtain ⟨hstep, hlose⟩ := leftover_step hg ht ha
    by_cases hmem : i ∈ absorbed l
    · rw [if_pos hmem] at ih
      rw [if_pos (by rw [absorbed_append]; exact List.mem_append_left _ hmem)]
      linarith
    rw [if_neg hmem] at ih
    by_cases hlast : ∃ w, a = .absorb w i
    · -- the vertex is absorbed with all of the delta that it had at the start
      obtain ⟨w, rfl⟩ := hlast
      have hpos := mul_le_mul_of_nonneg_left ih (sub_nonneg.2 hg.lt_one.le)
      rw [if_pos (by rw [absorbed_append]; exact List.mem_append_right _ (by simp [absorbed]))]
      linarith [hlose w i rfl]
    · have hnot : i ∉ absorbed (l ++ [a]) := by
        rw [absorbed_append, List.mem_append, not_or]
        refine ⟨hmem, fun hin => hlast ?_⟩
        cases a with
        | absorb w j =>
          have hj : i = j := by simpa [absorbed] using hin
          exact ⟨w, by rw [hj]⟩
        | deliver w => simp [absorbed] at hin
      rw [if_neg hnot]
      exact ih.trans (delta_le_step ht ha fun w he => hlast ⟨w, he⟩)

/-- **A run that absorbs the vertices with the greatest delta**, from empty buffers. -/
theorem leftover_of_greatest (hg : Contracting g γ) {l : List (Action ι τ)}
    (h : LTS.Run (Step g) s l t) (hs : Values (fun _ => (DeltaIteration.nonneg R).pos) s)
    (hbuf : ∀ w, s.buf w = [])
    (hmax : ∀ i ∈ g.verts, (∀ j ∈ g.verts, s.delta j ≤ s.delta i) → s.delta i ≠ 0 →
      i ∈ absorbed l) :
    t.leftover g.verts ≤ (1 - (1 - γ) / g.verts.card) * s.leftover g.verts := by
  rcases g.verts.eq_empty_or_nonempty with hempty | hne
  · rw [hempty, Finset.card_empty, Nat.cast_zero, div_zero, sub_zero, one_mul, ← hempty]
    exact leftover_le_run hg h hs
  obtain ⟨i, hi, hgreatest⟩ := Finset.exists_max_image g.verts s.delta hne
  have hle := leftover_le_run hg h hs
  have hlose := leftover_run hg h hs i
  have hloss : t.leftover g.verts + (1 - γ) * s.delta i ≤ s.leftover g.verts := by
    by_cases hzero : s.delta i = 0
    · rwa [hzero, mul_zero, add_zero]
    · rwa [if_pos (hmax i hi hgreatest hzero)] at hlose
  have hsum : s.leftover g.verts ≤ g.verts.card * s.delta i := by
    have hcard := Finset.sum_le_card_nsmul g.verts s.delta (s.delta i) hgreatest
    rw [nsmul_eq_mul] at hcard
    simpa [State.leftover, hbuf] using hcard
  have hcard : (0 : R) < g.verts.card := Nat.cast_pos.2 (Finset.card_pos.2 hne)
  have hpart : (1 - γ) / g.verts.card * s.leftover g.verts ≤ (1 - γ) * s.delta i := by
    rw [div_mul_eq_mul_div, div_le_iff₀ hcard, mul_assoc, mul_comm (s.delta i)]
    exact mul_le_mul_of_nonneg_left hsum (sub_nonneg.2 hg.lt_one.le)
  linarith

/-- The rate of such runs is not negative. -/
theorem greedy_rate_nonneg (hγ : 0 ≤ γ) (hlt : γ < 1) (m : ℕ) : 0 ≤ 1 - (1 - γ) / m := by
  rcases Nat.eq_zero_or_pos m with rfl | hpos
  · simp
  · have hm : (1 : R) ≤ m := Nat.one_le_cast.2 hpos
    have hdiv : (1 - γ) / m ≤ 1 - γ := div_le_self (sub_nonneg.2 hlt.le) hm
    linarith

end DeltaIteration
