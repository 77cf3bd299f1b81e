import Maiter.Lib.L1Contraction
import Mathlib.LinearAlgebra.FiniteDimensional.Basic
import Mathlib.LinearAlgebra.Matrix.ToLin

/-!
# The solution of a contracting system

The equations of an asynchronous iteration whose coefficients are non-negative and, over the links
of each vertex, sum to at most `γ < 1`.

* `exists_solution`, `IsSolution.unique`, `IsSolution.nonneg`: the equations have exactly one
  solution, and it is not negative;
* `solution_sum_le`: it is at most the sum of the constant terms, times `1 / (1 - γ)`;
* `val_le_solution`: no run passes it;
* `gap_bounds`: what is not accumulated yet is at most the distance to it, and at least `1 - γ` of
  this distance;
* `rounds_contract`: a round shrinks the distance by `γ`;
* `init_le_residual`, `init_le_rounds`: if the coefficients of each vertex sum to at least `1`
  instead, what is not accumulated never falls below the sum of the constant terms, and every round
  adds this sum to the values.
-/

namespace DeltaIteration

variable {ι τ R : Type*} [Field R] [LinearOrder R] [IsStrictOrderedRing R]
  [DecidableEq ι] {g : System ι R} {γ : R} {x : ι → R}

/-- The values solve the equations. -/
def IsSolution (g : System ι R) (x : ι → R) : Prop := ∀ j ∈ g.verts, g.next x j = x j

/-- The coefficients are not negative, and those of a vertex sum to at most `γ`. -/
structure Contracting (g : System ι R) (γ : R) : Prop where
  pos : Positive (nonneg R) g
  sum_le : ∀ i ∈ g.verts, ((g.links i).map (·.2)).sum ≤ γ
  lt_one : γ < 1

theorem Contracting.coef_nonneg (hg : Contracting g γ) :
    ∀ i ∈ g.verts, ∀ j ∈ g.verts, 0 ≤ massTo j (g.links i) :=
  fun i hi _ _ => massTo_nonneg (hg.pos i hi) _

theorem Contracting.cols (hg : Contracting g γ) :
    ∀ i ∈ g.verts, ∑ j ∈ g.verts, massTo j (g.links i) ≤ γ :=
  fun i hi => (sum_massTo_le g.verts _ (hg.pos i hi)).trans (hg.sum_le i hi)

omit [LinearOrder R] [IsStrictOrderedRing R] in
theorem next_eq_sum (g : System ι R) (x : ι → R) (j : ι) :
    g.next x j = g.init j + ∑ i ∈ g.verts, massTo j (g.links i) * x i := by
  simp only [System.next, massTo_emit]

/-- **Two solutions agree** on the vertices. -/
theorem IsSolution.unique (hg : Contracting g γ) {y : ι → R} (hx : IsSolution g x)
    (hy : IsSolution g y) : ∀ j ∈ g.verts, x j = y j := by
  have heq : ∀ {z : ι → R}, IsSolution g z → ∀ j ∈ g.verts,
      z j + 0 = g.init j + ∑ i ∈ g.verts, massTo j (g.links i) * z i := fun hz j hj => by
    rw [add_zero, ← next_eq_sum, hz j hj]
  have hl1 := l1_le_residuals g.verts hg.coef_nonneg hg.cols (fun _ _ => le_rfl)
    (fun _ _ => le_rfl) (heq hx) (heq hy)
  rw [Finset.sum_const_zero, add_zero] at hl1
  have hpos : 0 < 1 - γ := sub_pos.2 hg.lt_one
  have hsum : ∑ j ∈ g.verts, |x j - y j| = 0 :=
    le_antisymm (nonpos_of_mul_nonpos_right hl1 hpos)
      (Finset.sum_nonneg fun j _ => abs_nonneg (x j - y j))
  intro j hj
  have hzero := (Finset.sum_eq_zero_iff_of_nonneg fun j _ => abs_nonneg (x j - y j)).1 hsum j hj
  exact sub_eq_zero.1 (abs_eq_zero.1 hzero)

/-- The coefficients as a matrix on the vertices. -/
def System.matrix (g : System ι R) : Matrix g.verts g.verts R :=
  fun j i => massTo j.1 (g.links i.1)

omit [LinearOrder R] [IsStrictOrderedRing R] in
theorem isSolution_iff_mulVec : IsSolution g x ↔
    (1 - g.matrix).mulVec (fun j : g.verts => x j) = fun j : g.verts => g.init j := by
  have hsum : ∀ j : g.verts, g.matrix.mulVec (fun i : g.verts => x i) j
      = ∑ i ∈ g.verts, massTo j.1 (g.links i) * x i := fun j =>
    Finset.sum_coe_sort g.verts fun i => massTo j.1 (g.links i) * x i
  rw [Matrix.sub_mulVec, Matrix.one_mulVec, funext_iff, Subtype.forall]
  refine forall₂_congr fun j hj => ?_
  rw [Pi.sub_apply, hsum, next_eq_sum, sub_eq_iff_eq_add, eq_comm]

/-- **The equations have a solution**: the matrix is injective, so it is onto. -/
theorem exists_solution (hg : Contracting g γ) : ∃ x, IsSolution g x := by
  have hext : ∀ y : g.verts → R, (fun j : g.verts => Function.extend Subtype.val y 0 j.1) = y :=
    fun y => funext fun j => Subtype.val_injective.extend_apply y 0 j
  have hinj : Function.Injective (1 - g.matrix).mulVecLin := by
    intro y z hyz
    -- both solve the equations with their image as the constant terms
    let g' : System ι R :=
      ⟨g.verts, g.links, Function.extend Subtype.val ((1 - g.matrix).mulVec z) 0⟩
    have hg' : Contracting g' γ := ⟨hg.pos, hg.sum_le, hg.lt_one⟩
    have hsolves : ∀ w : g.verts → R, (1 - g.matrix).mulVec w = (1 - g.matrix).mulVec z →
        IsSolution g' (Function.extend Subtype.val w 0) := by
      intro w hw
      rw [isSolution_iff_mulVec]
      show (1 - g.matrix).mulVec (fun j : g.verts => Function.extend Subtype.val w 0 j.1)
        = fun j : g.verts => Function.extend Subtype.val ((1 - g.matrix).mulVec z) 0 j.1
      rw [hext, hext, hw]
    rw [← hext y, ← hext z]
    funext j
    exact (hsolves y hyz).unique hg' (hsolves z rfl) j.1 j.2
  obtain ⟨y, hy⟩ := LinearMap.surjective_of_injective hinj fun j => g.init j.1
  refine ⟨Function.extend Subtype.val y 0, isSolution_iff_mulVec.2 ?_⟩
  rw [hext]
  exact hy

/-- A vector that is at most its image and a residual. -/
theorem sum_le_of_le_next (hg : Contracting g γ) {y r : ι → R} (hy : ∀ i ∈ g.verts, 0 ≤ y i)
    (h : ∀ j ∈ g.verts, y j ≤ ∑ i ∈ g.verts, massTo j (g.links i) * y i + r j) :
    (1 - γ) * ∑ j ∈ g.verts, y j ≤ ∑ j ∈ g.verts, r j := by
  have htotal := Finset.sum_le_sum h
  rw [Finset.sum_add_distrib] at htotal
  linarith [sum_mul_le g.verts hg.cols hy]

/-- **The solution is not negative** if the constant terms are not. -/
theorem IsSolution.nonneg (hg : Contracting g γ) (hinit : ∀ j ∈ g.verts, 0 ≤ g.init j)
    (hx : IsSolution g x) : ∀ j ∈ g.verts, 0 ≤ x j := by
  -- its negative part is at most the image of the negative part
  have hpart : ∀ j ∈ g.verts,
      max (-x j) 0 ≤ ∑ i ∈ g.verts, massTo j (g.links i) * max (-x i) 0 + 0 := by
    intro j hj
    have hcoef : ∀ i ∈ g.verts, 0 ≤ massTo j (g.links i) := fun i hi => hg.coef_nonneg i hi j hj
    rw [add_zero]
    refine max_le ?_ (Finset.sum_nonneg fun i hi => mul_nonneg (hcoef i hi) (le_max_right _ _))
    have hxj := hx j hj
    rw [next_eq_sum] at hxj
    have hneg : ∑ i ∈ g.verts, massTo j (g.links i) * -x i
        = -∑ i ∈ g.verts, massTo j (g.links i) * x i := by
      simp only [mul_neg, Finset.sum_neg_distrib]
    have hle := Finset.sum_le_sum fun i hi =>
      mul_le_mul_of_nonneg_left (le_max_left (-x i) 0) (hcoef i hi)
    linarith [hinit j hj]
  have hsum := sum_le_of_le_next hg (fun i _ => le_max_right (-x i) 0) hpart
  rw [Finset.sum_const_zero] at hsum
  have hzero : ∑ j ∈ g.verts, max (-x j) 0 = 0 :=
    le_antisymm (nonpos_of_mul_nonpos_right hsum (sub_pos.2 hg.lt_one))
      (Finset.sum_nonneg fun j _ => le_max_right _ _)
  intro j hj
  have hj0 := (Finset.sum_eq_zero_iff_of_nonneg fun j _ => le_max_right (-x j) 0).1 hzero j hj
  linarith [le_max_left (-x j) 0]

/-- The size of the solution. -/
theorem solution_sum_le (hg : Contracting g γ) (hinit : ∀ j ∈ g.verts, 0 ≤ g.init j)
    (hx : IsSolution g x) : (1 - γ) * ∑ j ∈ g.verts, x j ≤ ∑ j ∈ g.verts, g.init j :=
  sum_le_of_le_next hg (hx.nonneg hg hinit) fun j hj => by
    rw [add_comm, ← next_eq_sum, hx j hj]

/-! ### States of the iteration -/

variable [DecidableEq τ] [Fintype τ] {s t : State ι τ R}

/-- **No run passes the solution.** -/
theorem val_le_solution (hg : Contracting g γ) (hx : IsSolution g x)
    {l : List (Action ι τ)} (h : LTS.Run (Step g) s l t)
    (hs : Values (fun _ => (DeltaIteration.nonneg R).pos) s) (hb : Balanced g s)
    (hle : ∀ j ∈ g.verts, s.val j ≤ x j) : ∀ j ∈ g.verts, t.val j ≤ x j :=
  le_super_run (G := DeltaIteration.nonneg R) hg.pos (fun j hj => le_of_eq (hx j hj)) h hs hb hle

omit [DecidableEq τ] in
/-- **The distance to the solution**, between what is not accumulated yet and `1 / (1 - γ)` times
that. -/
theorem gap_bounds (hg : Contracting g γ) (hx : IsSolution g x) (hb : Balanced g s)
    (hle : ∀ j ∈ g.verts, s.val j ≤ x j) :
    ∑ j ∈ g.verts, (s.delta j + s.inFlight j) ≤ ∑ j ∈ g.verts, (x j - s.val j) ∧
    (1 - γ) * ∑ j ∈ g.verts, (x j - s.val j) ≤ ∑ j ∈ g.verts, (s.delta j + s.inFlight j) := by
  have hgap : ∀ j ∈ g.verts, x j - s.val j
      = ∑ i ∈ g.verts, massTo j (g.links i) * (x i - s.val i) + (s.delta j + s.inFlight j) := by
    intro j hj
    have hj' := hx j hj
    rw [next_eq_sum] at hj'
    simp only [mul_sub, Finset.sum_sub_distrib]
    linarith [hb.equation j]
  have hpos : ∀ i ∈ g.verts, 0 ≤ x i - s.val i := fun i hi => sub_nonneg.2 (hle i hi)
  refine ⟨Finset.sum_le_sum fun j hj => ?_,
    sum_le_of_le_next hg hpos fun j hj => le_of_eq (hgap j hj)⟩
  rw [hgap j hj]
  exact le_add_of_nonneg_left (Finset.sum_nonneg fun i hi =>
    mul_nonneg (hg.coef_nonneg i hi j hj) (hpos i hi))

/-- A round shrinks the distance to the solution. -/
theorem round_contracts (hg : Contracting g γ) (hx : IsSolution g x) {l : List (Action ι τ)}
    (h : Round g s l t) (hs : Values (fun _ => (DeltaIteration.nonneg R).pos) s)
    (hb : Balanced g s) (hle : ∀ j ∈ g.verts, s.val j ≤ x j) :
    ∑ j ∈ g.verts, (x j - t.val j) ≤ γ * ∑ j ∈ g.verts, (x j - s.val j) := by
  refine le_trans (Finset.sum_le_sum fun j hj => ?_)
    (sum_mul_le g.verts hg.cols fun i hi => sub_nonneg.2 (hle i hi))
  have hj' : j ∈ absorbed l := h.once.mem_iff.2 (Finset.mem_toList.2 hj)
  have hnext : g.next s.val j ≤ t.val j :=
    next_le_of_absorbed (G := DeltaIteration.nonneg R) hg.pos h.run hs hb h.start hj'
  have hxj := hx j hj
  rw [next_eq_sum] at hxj hnext
  simp only [mul_sub, Finset.sum_sub_distrib]
  linarith

/-- **Rounds converge** geometrically. -/
theorem rounds_contract (hg : Contracting g γ) (hγ : 0 ≤ γ) (hx : IsSolution g x) {r : ℕ}
    (h : Rounds g s r t) (hs : Values (fun _ => (DeltaIteration.nonneg R).pos) s)
    (hb : Balanced g s) (hle : ∀ j ∈ g.verts, s.val j ≤ x j) :
    ∑ j ∈ g.verts, (x j - t.val j) ≤ γ ^ r * ∑ j ∈ g.verts, (x j - s.val j) := by
  induction h with
  | zero => rw [pow_zero, one_mul]
  | @succ r l t u hrounds hround ih =>
    obtain ⟨m, hm⟩ := Rounds.reaches hrounds
    have hstep := round_contracts hg hx hround (values_run hg.pos.closed hm hs)
      (balanced_run hm hb) (val_le_solution hg hx hm hs hb hle)
    calc ∑ j ∈ g.verts, (x j - u.val j) ≤ γ * ∑ j ∈ g.verts, (x j - t.val j) := hstep
      _ ≤ γ * (γ ^ r * ∑ j ∈ g.verts, (x j - s.val j)) := mul_le_mul_of_nonneg_left ih hγ
      _ = γ ^ (r + 1) * ∑ j ∈ g.verts, (x j - s.val j) := by ring

/-! ### Systems that do not contract -/

omit [DecidableEq ι] in
/-- A matrix with column sums of at least `1` does not shrink the sum of non-negative numbers. -/
theorem le_sum_mul (F : Finset ι) {a : ι → ι → R} {y : ι → R}
    (hcols : ∀ i ∈ F, 1 ≤ ∑ j ∈ F, a i j) (hy : ∀ i ∈ F, 0 ≤ y i) :
    ∑ i ∈ F, y i ≤ ∑ j ∈ F, ∑ i ∈ F, a i j * y i := by
  rw [Finset.sum_comm]
  refine Finset.sum_le_sum fun i hi => ?_
  rw [← Finset.sum_mul]
  exact le_mul_of_one_le_left (hy i hi) (hcols i hi)

omit [LinearOrder R] [IsStrictOrderedRing R] in
/-- The messages to vertices are all messages. -/
theorem sum_massTo_eq {F : Finset ι} {ms : List (ι × R)} (h : ∀ m ∈ ms, m.1 ∈ F) :
    ∑ j ∈ F, massTo j ms = (ms.map (·.2)).sum := by
  induction ms with
  | nil => simp
  | cons m ms ih =>
    simp only [massTo_cons, Finset.sum_add_distrib, List.map_cons, List.sum_cons,
      Finset.sum_ite_eq, if_pos (h m List.mem_cons_self),
      ih fun m hm => h m (List.mem_cons_of_mem _ hm)]

omit [DecidableEq τ] in
/-- What is not accumulated yet never falls below the constant terms. -/
theorem init_le_residual (hcols : ∀ i ∈ g.verts, 1 ≤ ∑ j ∈ g.verts, massTo j (g.links i))
    (hs : Values (fun _ => (DeltaIteration.nonneg R).pos) s) (hb : Balanced g s) :
    ∑ j ∈ g.verts, g.init j ≤ ∑ j ∈ g.verts, (s.delta j + s.inFlight j) := by
  have htotal := Finset.sum_congr (rfl : g.verts = g.verts) fun j _ => hb.equation j
  rw [Finset.sum_add_distrib, Finset.sum_add_distrib (f := g.init)] at htotal
  have hgrow := le_sum_mul g.verts hcols fun i _ => hs.val i
  linarith

/-- **Every round adds the constant terms** to the values. -/
theorem init_le_rounds (hg : Positive (DeltaIteration.nonneg R) g)
    (hcols : ∀ i ∈ g.verts, 1 ≤ ∑ j ∈ g.verts, massTo j (g.links i)) {r : ℕ}
    (h : Rounds g s r t) (hs : Values (fun _ => (DeltaIteration.nonneg R).pos) s)
    (hb : Balanced g s) :
    r * ∑ j ∈ g.verts, g.init j ≤ ∑ j ∈ g.verts, t.val j := by
  induction h with
  | zero =>
    rw [Nat.cast_zero, zero_mul]
    exact Finset.sum_nonneg fun j _ => hs.val j
  | @succ r l t u hrounds hround ih =>
    obtain ⟨m, hm⟩ := Rounds.reaches hrounds
    have ht := values_run hg.closed hm hs
    have hnext : ∀ j ∈ g.verts,
        g.init j + ∑ i ∈ g.verts, massTo j (g.links i) * t.val i ≤ u.val j := by
      intro j hj
      rw [← next_eq_sum]
      exact next_le_of_absorbed (G := DeltaIteration.nonneg R) hg hround.run ht
        (balanced_run hm hb) hround.start (hround.once.mem_iff.2 (Finset.mem_toList.2 hj))
    have hsum := Finset.sum_le_sum hnext
    rw [Finset.sum_add_distrib] at hsum
    have hgrow := le_sum_mul g.verts hcols fun i _ => ht.val i
    push_cast
    linarith

end DeltaIteration
