import Maiter.Lib.DeltaIteration
import Mathlib.Algebra.Order.BigOperators.Ring.Finset

/-!
# An L¹ bound for asynchronous accumulation

Over an ordered field, let the coefficients be non-negative and those of the links of each vertex
sum to at most `γ`.  Then the equations contract by `γ` in the L¹ norm.

* `sum_mul_le`: a sub-stochastic matrix contracts a sum;
* `l1_le_residuals`: two vectors that solve the same equations up to non-negative residuals
  differ by at most the sum of the residuals, times `1 / (1 - γ)`;
* `nonneg`: the growth order of non-negative coefficients;
* `State.leftover`: the deltas and messages that are not accumulated yet;
* `l1_le_leftover`: two balanced states of one system, of any two sets of workers, differ by at
  most their leftovers, times `1 / (1 - γ)`.
-/

namespace DeltaIteration

variable {ι τ τ' R : Type*} [Field R] [LinearOrder R] [IsStrictOrderedRing R]

/-- A sub-stochastic matrix contracts the sum of non-negative numbers. -/
theorem sum_mul_le (F : Finset ι) {a : ι → ι → R} {γ : R} {y : ι → R}
    (hγ : ∀ i ∈ F, ∑ j ∈ F, a i j ≤ γ) (hy : ∀ i ∈ F, 0 ≤ y i) :
    ∑ j ∈ F, ∑ i ∈ F, a i j * y i ≤ γ * ∑ i ∈ F, y i := by
  rw [Finset.sum_comm, Finset.mul_sum]
  refine Finset.sum_le_sum fun i hi => ?_
  rw [← Finset.sum_mul]
  exact mul_le_mul_of_nonneg_right (hγ i hi) (hy i hi)

/-- Two solutions up to residuals, for equations with a sub-stochastic matrix. -/
theorem l1_le_residuals (F : Finset ι) {a : ι → ι → R} {γ : R} {c v w r r' : ι → R}
    (ha : ∀ i ∈ F, ∀ j ∈ F, 0 ≤ a i j) (hγ : ∀ i ∈ F, ∑ j ∈ F, a i j ≤ γ)
    (hr : ∀ j ∈ F, 0 ≤ r j) (hr' : ∀ j ∈ F, 0 ≤ r' j)
    (hv : ∀ j ∈ F, v j + r j = c j + ∑ i ∈ F, a i j * v i)
    (hw : ∀ j ∈ F, w j + r' j = c j + ∑ i ∈ F, a i j * w i) :
    (1 - γ) * ∑ j ∈ F, |v j - w j| ≤ ∑ j ∈ F, r j + ∑ j ∈ F, r' j := by
  have hpoint : ∀ j ∈ F, |v j - w j| ≤ (∑ i ∈ F, a i j * |v i - w i|) + (r j + r' j) := by
    intro j hj
    have hdiff : v j - w j = (∑ i ∈ F, a i j * (v i - w i)) + (r' j - r j) := by
      simp only [mul_sub, Finset.sum_sub_distrib]
      linarith [hv j hj, hw j hj]
    have hsum : |∑ i ∈ F, a i j * (v i - w i)| ≤ ∑ i ∈ F, a i j * |v i - w i| := by
      refine (Finset.abs_sum_le_sum_abs _ _).trans (Finset.sum_le_sum fun i hi => ?_)
      rw [abs_mul, abs_of_nonneg (ha i hi j hj)]
    have hres : |r' j - r j| ≤ r j + r' j := by
      rw [abs_le]
      constructor <;> linarith [hr j hj, hr' j hj]
    rw [hdiff]
    exact (abs_add_le _ _).trans (add_le_add hsum hres)
  have hcols := sum_mul_le F hγ fun i _ => abs_nonneg (v i - w i)
  have htotal := Finset.sum_le_sum hpoint
  rw [Finset.sum_add_distrib, Finset.sum_add_distrib] at htotal
  linarith

/-- Accumulating non-negative numbers. -/
def nonneg (R : Type*) [Field R] [LinearOrder R] [IsStrictOrderedRing R] : Growth R where
  le x y := x ≤ y
  pos x := 0 ≤ x
  refl := le_refl
  trans _ _ _ := le_trans
  antisymm _ _ := le_antisymm
  add_mono _ _ _ _ := add_le_add
  mul_mono _ _ _ ha h := mul_le_mul_of_nonneg_left h ha
  le_add _ _ h := le_add_of_nonneg_right h
  pos_zero := le_refl _
  pos_add _ _ := add_nonneg
  pos_mul _ _ := mul_nonneg

variable [DecidableEq ι]

theorem massTo_nonneg {ms : List (ι × R)} (h : ∀ m ∈ ms, 0 ≤ m.2) (j : ι) : 0 ≤ massTo j ms :=
  (nonneg R).massTo_pos j ms h

/-- The messages to the vertices of a set are at most all messages. -/
theorem sum_massTo_le (F : Finset ι) (ms : List (ι × R)) (h : ∀ m ∈ ms, 0 ≤ m.2) :
    ∑ j ∈ F, massTo j ms ≤ (ms.map (·.2)).sum := by
  induction ms with
  | nil => simp
  | cons m ms ih =>
    have hm : 0 ≤ m.2 := h m List.mem_cons_self
    simp only [massTo_cons, Finset.sum_add_distrib, List.map_cons, List.sum_cons,
      Finset.sum_ite_eq]
    refine add_le_add ?_ (ih fun m hm => h m (List.mem_cons_of_mem _ hm))
    split_ifs
    · exact le_refl _
    · exact hm

/-- What is not accumulated yet: the deltas of the vertices and all buffered messages. -/
def State.leftover [Fintype τ] (F : Finset ι) (s : State ι τ R) : R :=
  ∑ j ∈ F, s.delta j + ∑ w, ((s.buf w).map (·.2)).sum

variable [Fintype τ] [Fintype τ'] {g : System ι R} {s : State ι τ R} {t : State ι τ' R}

theorem sum_residual_le_leftover (hs : Values (fun _ => (nonneg R).pos) s) (F : Finset ι) :
    ∑ j ∈ F, (s.delta j + s.inFlight j) ≤ s.leftover F := by
  unfold State.leftover State.inFlight
  rw [Finset.sum_add_distrib, Finset.sum_comm]
  exact add_le_add_right (Finset.sum_le_sum fun w _ => sum_massTo_le F _ (hs.buf w)) _

theorem residual_nonneg (hs : Values (fun _ => (nonneg R).pos) s) (j : ι) :
    0 ≤ s.delta j + s.inFlight j :=
  add_nonneg (hs.delta j) (Finset.sum_nonneg fun w _ => massTo_nonneg (hs.buf w) j)

/-- **Two states of one system differ by at most their leftovers**, up to the factor
`1 / (1 - γ)`. -/
theorem l1_le_leftover (hg : Positive (nonneg R) g) {γ : R}
    (hγ : ∀ i ∈ g.verts, ((g.links i).map (·.2)).sum ≤ γ)
    (hs : Values (fun _ => (nonneg R).pos) s) (ht : Values (fun _ => (nonneg R).pos) t)
    (hbs : Balanced g s) (hbt : Balanced g t) :
    (1 - γ) * ∑ j ∈ g.verts, |s.val j - t.val j|
      ≤ s.leftover g.verts + t.leftover g.verts := by
  refine (l1_le_residuals g.verts (a := fun i j => massTo j (g.links i)) (c := g.init)
    (fun i hi j _ => massTo_nonneg (hg i hi) j)
    (fun i hi => (sum_massTo_le g.verts _ (hg i hi)).trans (hγ i hi))
    (fun j _ => residual_nonneg hs j) (fun j _ => residual_nonneg ht j)
    (fun j _ => hbs.equation j) (fun j _ => hbt.equation j)).trans ?_
  exact add_le_add (sum_residual_le_leftover hs _) (sum_residual_le_leftover ht _)

end DeltaIteration
