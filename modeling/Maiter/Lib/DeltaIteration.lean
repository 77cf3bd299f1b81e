import Maiter.Lib.Runs
import Mathlib.Tactic
import Mathlib.Algebra.BigOperators.Group.Finset.Basic

/-!
# Asynchronous accumulative iteration over a semiring

A system of linear equations `x j = init j + ∑ a * x i` over the links `i → j` with coefficient
`a`, solved by asynchronous workers.  Each vertex has an accumulated value and a delta not yet
accumulated.  A worker *absorbs* a vertex: it adds the delta to the value, resets it, and buffers
`a * delta` for every link of the vertex.  Then it *delivers* its buffered messages one by one.

Over `ℚ` this is the accumulation of sums, over the tropical semiring that of shortest distances.

* `System`, `State`, `Step`: the equations, the state of the iteration, its steps;
* `absorbed`, `absorbedBy`: the vertices that a run absorbs, and those of one worker;
* `Balanced`: value, delta and messages in flight together are the right-hand side of the
  equation at the current values; `balanced_run`: no step gains or loses anything;
* `Values P`: every value, delta and message satisfies `P`;
* `Growth`: an order in which accumulating never goes down; `val_le_run`, `le_super_run`,
  `next_le_of_absorbed`: values only grow, stay below every super-solution, and grow by at least
  one application of the right-hand side once their vertex is absorbed;
* `Rounds`, `iterate_le_rounds`: after `r` rounds the values are not below the `r`-th synchronous
  iterate;
* `stable_of_idle_round`: if no value changes while every vertex is absorbed, none ever will.
-/

namespace DeltaIteration

variable {ι τ R : Type*}

/-- The equations: the vertices, their links with coefficients, the constant terms. -/
structure System (ι R : Type*) where
  verts : Finset ι
  links : ι → List (ι × R)
  init : ι → R

/-- The state: values, deltas, and the messages that each worker still has to deliver. -/
structure State (ι τ R : Type*) where
  val : ι → R
  delta : ι → R
  buf : τ → List (ι × R)

/-- What a worker does. -/
inductive Action (ι τ : Type*)
  | absorb (w : τ) (i : ι)
  | deliver (w : τ)
  deriving DecidableEq

section Defs

variable [DecidableEq ι] [CommSemiring R]

/-- The messages that a delta `x` of vertex `i` causes. -/
def System.emit (g : System ι R) (i : ι) (x : R) : List (ι × R) :=
  (g.links i).map fun l => (l.1, l.2 * x)

/-- The sum of the messages to `j`. -/
def massTo (j : ι) (ms : List (ι × R)) : R := (ms.map fun m => if m.1 = j then m.2 else 0).sum

/-- The right-hand side of the equation of `j` at the values `x`. -/
def System.next (g : System ι R) (x : ι → R) (j : ι) : R :=
  g.init j + ∑ i ∈ g.verts, massTo j (g.emit i (x i))

/-- The sum of the messages to `j` that some worker still has to deliver. -/
def State.inFlight [Fintype τ] (s : State ι τ R) (j : ι) : R := ∑ w, massTo j (s.buf w)

/-- The state before the first step. -/
def System.start (g : System ι R) : State ι τ R := ⟨fun _ => 0, g.init, fun _ => []⟩

/-- One step. -/
inductive Step [DecidableEq τ] (g : System ι R) :
    State ι τ R → Action ι τ → State ι τ R → Prop
  | absorb {s : State ι τ R} {w : τ} {i : ι} : i ∈ g.verts → s.buf w = [] →
      Step g s (.absorb w i) ⟨Function.update s.val i (s.val i + s.delta i),
        Function.update s.delta i 0, Function.update s.buf w (g.emit i (s.delta i))⟩
  | deliver {s : State ι τ R} {w : τ} {j : ι} {x : R} {ms : List (ι × R)} :
      s.buf w = (j, x) :: ms →
      Step g s (.deliver w) ⟨s.val, Function.update s.delta j (s.delta j + x),
        Function.update s.buf w ms⟩

/-- The vertices absorbed by a sequence of actions, in order. -/
def absorbed (l : List (Action ι τ)) : List ι := l.filterMap fun
  | .absorb _ i => some i
  | .deliver _ => none

end Defs

section Mass

variable [DecidableEq ι] [CommSemiring R] (g : System ι R)

@[simp] theorem massTo_nil (j : ι) : massTo j ([] : List (ι × R)) = 0 := rfl

theorem massTo_cons (j : ι) (m : ι × R) (ms : List (ι × R)) :
    massTo j (m :: ms) = (if m.1 = j then m.2 else 0) + massTo j ms := by
  simp [massTo]

/-- The same message to every element of a list. -/
theorem massTo_map_const (j : ι) (a : R) (l : List ι) :
    massTo j (l.map fun i => (i, a)) = l.count j * a := by
  induction l with
  | nil => simp
  | cons i l ih =>
    rw [List.map_cons, massTo_cons, ih, List.count_cons]
    by_cases hi : i = j
    · rw [if_pos hi, if_pos (beq_iff_eq.2 hi)]
      push_cast
      ring
    · rw [if_neg hi, if_neg (mt beq_iff_eq.1 hi), zero_add, add_zero]

/-- The messages caused by a delta are linear in it. -/
theorem massTo_emit (i j : ι) (x : R) : massTo j (g.emit i x) = massTo j (g.links i) * x := by
  unfold System.emit
  induction g.links i with
  | nil => simp
  | cons l ls ih =>
    simp only [List.map_cons, massTo_cons, ih]
    split_ifs <;> ring

theorem massTo_emit_add (i j : ι) (x y : R) :
    massTo j (g.emit i (x + y)) = massTo j (g.emit i x) + massTo j (g.emit i y) := by
  simp only [massTo_emit, mul_add]

@[simp] theorem massTo_emit_zero (i j : ι) : massTo j (g.emit i 0) = 0 := by
  rw [massTo_emit, mul_zero]

end Mass

@[simp] theorem absorbed_append (l m : List (Action ι τ)) :
    absorbed (l ++ m) = absorbed l ++ absorbed m := List.filterMap_append

section Workers

variable [DecidableEq τ]

/-- The vertices absorbed by worker `w`, in order. -/
def absorbedBy (w : τ) (l : List (Action ι τ)) : List ι := l.filterMap fun
  | .absorb w' i => if w' = w then some i else none
  | .deliver _ => none

@[simp] theorem absorbedBy_append (w : τ) (l m : List (Action ι τ)) :
    absorbedBy w (l ++ m) = absorbedBy w l ++ absorbedBy w m := List.filterMap_append

theorem absorbedBy_absorb (w w' : τ) (i : ι) :
    absorbedBy w [.absorb w' i] = if w' = w then [i] else [] := by
  split_ifs with h <;> simp [absorbedBy, h]

@[simp] theorem absorbedBy_deliver (w w' : τ) :
    absorbedBy w ([.deliver w'] : List (Action ι τ)) = [] := rfl

/-- What the workers absorb is what all of them absorb together. -/
theorem perm_absorbed {ws : List τ} (hnd : ws.Nodup) (hws : ∀ w, w ∈ ws)
    (l : List (Action ι τ)) : (absorbed l).Perm (ws.flatMap fun w => absorbedBy w l) := by
  induction l with
  | nil => simp [absorbed, absorbedBy]
  | cons a l ih =>
    cases a with
    | deliver w => exact ih
    | absorb w i =>
      -- only the worker `w`, which stands at one place of `ws`, has one more
      obtain ⟨before, after, rfl⟩ := List.append_of_mem (hws w)
      have hother : ∀ w' ∈ before ++ after, w ≠ w' := by
        rintro w' hw' rfl
        have hcons := List.nodup_middle.1 hnd
        exact (List.nodup_cons.1 hcons).1 hw'
      have hsame : ∀ ws : List τ, (∀ w' ∈ ws, w ≠ w') →
          (ws.flatMap fun w' => absorbedBy w' (.absorb w i :: l))
            = ws.flatMap fun w' => absorbedBy w' l := by
        intro ws h
        refine List.flatMap_congr fun w' hw' => ?_
        simp [absorbedBy, h w' hw']
      have hcons : absorbedBy w (.absorb w i :: l) = i :: absorbedBy w l := by
        simp [absorbedBy]
      have habs : absorbed (.absorb w i :: l) = i :: absorbed l := rfl
      rw [habs, List.flatMap_append, List.flatMap_cons, hcons,
        hsame before fun w' hw' => hother w' (List.mem_append_left _ hw'),
        hsame after fun w' hw' => hother w' (List.mem_append_right _ hw'), List.cons_append]
      refine (ih.cons i).trans ?_
      rw [List.flatMap_append, List.flatMap_cons]
      exact List.perm_middle.symm

end Workers

variable [DecidableEq ι] [DecidableEq τ] [CommSemiring R] {g : System ι R} {s t : State ι τ R}

/-! ### Conservation -/

section Conservation

variable [Fintype τ]

/-- Value, delta and messages in flight make up the right-hand side at the current values. -/
def Balanced (g : System ι R) (s : State ι τ R) : Prop :=
  ∀ j, s.val j + s.delta j + s.inFlight j = g.next s.val j

/-- The messages in flight are those of worker `w` and those of the others. -/
theorem inFlight_split (s : State ι τ R) (w : τ) (j : ι) :
    ∃ rest, s.inFlight j = massTo j (s.buf w) + rest ∧ ∀ v d ms,
      (⟨v, d, Function.update s.buf w ms⟩ : State ι τ R).inFlight j = massTo j ms + rest := by
  refine ⟨∑ w' ∈ Finset.univ.erase w, massTo j (s.buf w'), ?_, fun v d ms => ?_⟩
  · exact (Finset.add_sum_erase _ (fun w => massTo j (s.buf w)) (Finset.mem_univ w)).symm
  · unfold State.inFlight
    rw [← Finset.add_sum_erase _ _ (Finset.mem_univ w)]
    simp only [Function.update_self]
    congr 1
    exact Finset.sum_congr rfl fun w' hw' => by
      rw [Function.update_of_ne (Finset.ne_of_mem_erase hw')]

omit [DecidableEq τ] [Fintype τ] in
theorem next_update (g : System ι R) (x : ι → R) {i : ι} (hi : i ∈ g.verts) (d : R) (j : ι) :
    g.next (Function.update x i (x i + d)) j = g.next x j + massTo j (g.emit i d) := by
  have hrest : ∑ i' ∈ g.verts.erase i, massTo j (g.emit i' (Function.update x i (x i + d) i'))
      = ∑ i' ∈ g.verts.erase i, massTo j (g.emit i' (x i')) :=
    Finset.sum_congr rfl fun i' hi' => by
      rw [Function.update_of_ne (Finset.ne_of_mem_erase hi')]
  unfold System.next
  rw [← Finset.add_sum_erase _ _ hi, hrest, Function.update_self, massTo_emit_add,
    ← Finset.add_sum_erase _ (fun i => massTo j (g.emit i (x i))) hi]
  ring

omit [DecidableEq τ] in
theorem balanced_start (g : System ι R) : Balanced g (g.start : State ι τ R) := by
  intro j
  simp [System.start, State.inFlight, System.next]

/-- No step gains or loses anything. -/
theorem balanced_step {a : Action ι τ} (hs : Balanced g s) (h : Step g s a t) :
    Balanced g t := by
  intro j
  cases h with
  | @absorb w i hi hw =>
    obtain ⟨rest, hold, hnew⟩ := inFlight_split s w j
    rw [hw, massTo_nil, zero_add] at hold
    rw [hnew, next_update g s.val hi, ← hs j, hold]
    by_cases hj : j = i
    · subst hj
      simp only [Function.update_self]
      ring
    · simp only [Function.update_of_ne hj]
      ring
  | @deliver w i x ms hw =>
    obtain ⟨rest, hold, hnew⟩ := inFlight_split s w j
    rw [hw, massTo_cons] at hold
    rw [hnew, ← hs j, hold]
    by_cases hj : i = j
    · subst hj
      simp only [Function.update_self, if_true]
      ring
    · simp only [Function.update_of_ne (Ne.symm hj), if_neg hj]
      ring

/-- **Conservation** along every run. -/
theorem balanced_run {l : List (Action ι τ)} (h : LTS.Run (Step g) s l t) (hs : Balanced g s) :
    Balanced g t := h.invariant (fun _ _ _ hI hstep => balanced_step hI hstep) hs

omit [DecidableEq τ] in
/-- Conservation as the equation of `j`, with what is not accumulated yet as its residual. -/
theorem Balanced.equation (hb : Balanced g s) (j : ι) :
    s.val j + (s.delta j + s.inFlight j)
      = g.init j + ∑ i ∈ g.verts, massTo j (g.links i) * s.val i := by
  rw [← add_assoc, hb j]
  simp only [System.next, massTo_emit]

end Conservation

/-! ### Properties of all values -/

/-- Every value, delta and message to a vertex satisfies `P` there. -/
structure Values (P : ι → R → Prop) (s : State ι τ R) : Prop where
  val : ∀ i, P i (s.val i)
  delta : ∀ i, P i (s.delta i)
  buf : ∀ w, ∀ m ∈ s.buf w, P m.1 m.2

/-- `P` is closed under accumulation and under the links of the vertices. -/
structure Closed (g : System ι R) (P : ι → R → Prop) : Prop where
  zero : ∀ i, P i 0
  add : ∀ i x y, P i x → P i y → P i (x + y)
  link : ∀ i ∈ g.verts, ∀ l ∈ g.links i, ∀ x, P i x → P l.1 (l.2 * x)

variable {P : ι → R → Prop}

theorem values_step (hP : Closed g P) {a : Action ι τ} (hs : Values P s) (h : Step g s a t) :
    Values P t := by
  cases h with
  | @absorb w i hi hw =>
    refine ⟨fun j => ?_, fun j => ?_, fun w' m hm => ?_⟩
    · by_cases hj : j = i
      · subst hj
        simp only [Function.update_self]
        exact hP.add _ _ _ (hs.val j) (hs.delta j)
      · simp only [Function.update_of_ne hj]
        exact hs.val j
    · by_cases hj : j = i
      · subst hj
        simp only [Function.update_self]
        exact hP.zero j
      · simp only [Function.update_of_ne hj]
        exact hs.delta j
    · by_cases hw' : w' = w
      · subst hw'
        simp only [Function.update_self, System.emit, List.mem_map] at hm
        obtain ⟨l, hl, rfl⟩ := hm
        exact hP.link i hi l hl _ (hs.delta i)
      · simp only [Function.update_of_ne hw'] at hm
        exact hs.buf w' m hm
  | @deliver w i x ms hw =>
    have hx : P i x := hs.buf w (i, x) (by rw [hw]; exact List.mem_cons_self)
    refine ⟨hs.val, fun j => ?_, fun w' m hm => ?_⟩
    · by_cases hj : j = i
      · subst hj
        simp only [Function.update_self]
        exact hP.add _ _ _ (hs.delta j) hx
      · simp only [Function.update_of_ne hj]
        exact hs.delta j
    · by_cases hw' : w' = w
      · subst hw'
        simp only [Function.update_self] at hm
        exact hs.buf w' m (by rw [hw]; exact List.mem_cons_of_mem _ hm)
      · simp only [Function.update_of_ne hw'] at hm
        exact hs.buf w' m hm

/-- A property closed under the equations holds of everything in every reachable state. -/
theorem values_run (hP : Closed g P) {l : List (Action ι τ)} (h : LTS.Run (Step g) s l t)
    (hs : Values P s) : Values P t :=
  h.invariant (fun _ _ _ hI hstep => values_step hP hI hstep) hs

omit [DecidableEq ι] [DecidableEq τ] in
theorem values_start (hP : Closed g P) (hinit : ∀ i, P i (g.init i)) :
    Values P (g.start : State ι τ R) :=
  ⟨hP.zero, hinit, fun _ _ h => by simp [System.start] at h⟩

/-! ### Growth -/

/-- An order in which adding an element of the cone `pos` never goes down. -/
structure Growth (R : Type*) [CommSemiring R] where
  le : R → R → Prop
  pos : R → Prop
  refl : ∀ x, le x x
  trans : ∀ x y z, le x y → le y z → le x z
  antisymm : ∀ x y, le x y → le y x → x = y
  add_mono : ∀ x y x' y', le x x' → le y y' → le (x + y) (x' + y')
  mul_mono : ∀ a x y, pos a → le x y → le (a * x) (a * y)
  le_add : ∀ x y, pos y → le x (x + y)
  pos_zero : pos 0
  pos_add : ∀ x y, pos x → pos y → pos (x + y)
  pos_mul : ∀ x y, pos x → pos y → pos (x * y)

variable {G : Growth R}

/-- The system has its coefficients in the cone. -/
def Positive (G : Growth R) (g : System ι R) : Prop :=
  ∀ i ∈ g.verts, ∀ l ∈ g.links i, G.pos l.2

omit [DecidableEq ι] in
theorem Positive.closed (hg : Positive G g) : Closed g fun _ => G.pos where
  zero _ := G.pos_zero
  add _ := G.pos_add
  link i hi l hl _ hx := G.pos_mul _ _ (hg i hi l hl) hx

theorem Growth.massTo_pos (G : Growth R) (j : ι) (ms : List (ι × R)) (h : ∀ m ∈ ms, G.pos m.2) :
    G.pos (massTo j ms) := by
  induction ms with
  | nil => exact G.pos_zero
  | cons m ms ih =>
    rw [massTo_cons]
    refine G.pos_add _ _ ?_ (ih fun m hm => h m (List.mem_cons_of_mem _ hm))
    split_ifs
    · exact h m List.mem_cons_self
    · exact G.pos_zero

theorem Growth.sum_pos {κ : Type*} (G : Growth R) (F : Finset κ) (f : κ → R)
    (h : ∀ k ∈ F, G.pos (f k)) : G.pos (∑ k ∈ F, f k) :=
  Finset.sum_induction f G.pos G.pos_add G.pos_zero h

theorem Growth.sum_mono {κ : Type*} (G : Growth R) (F : Finset κ) (f f' : κ → R)
    (h : ∀ k ∈ F, G.le (f k) (f' k)) : G.le (∑ k ∈ F, f k) (∑ k ∈ F, f' k) := by
  classical
  induction F using Finset.induction_on with
  | empty => exact G.refl _
  | insert k F hk ih =>
    rw [Finset.sum_insert hk, Finset.sum_insert hk]
    exact G.add_mono _ _ _ _ (h k (Finset.mem_insert_self k F))
      (ih fun k' hk' => h k' (Finset.mem_insert_of_mem hk'))

/-- The right-hand side is monotone in the values of the vertices. -/
theorem next_mono (hg : Positive G g) {x y : ι → R} (h : ∀ i ∈ g.verts, G.le (x i) (y i))
    (j : ι) : G.le (g.next x j) (g.next y j) := by
  refine G.add_mono _ _ _ _ (G.refl _) (G.sum_mono _ _ _ fun i hi => ?_)
  have hcoef : ∀ l ∈ g.links i, G.pos l.2 := hg i hi
  unfold System.emit
  generalize g.links i = ls at hcoef
  induction ls with
  | nil => exact G.refl _
  | cons l ls ih =>
    simp only [List.map_cons, massTo_cons]
    refine G.add_mono _ _ _ _ ?_ (ih fun l hl => hcoef l (List.mem_cons_of_mem _ hl))
    split_ifs
    · exact G.mul_mono _ _ _ (hcoef l List.mem_cons_self) (h i hi)
    · exact G.refl _

omit [DecidableEq τ] in
/-- The constant term is part of the right-hand side. -/
theorem init_le_next (hg : Positive G g) {x : ι → R} (hx : ∀ i ∈ g.verts, G.pos (x i)) (j : ι) :
    G.le (g.init j) (g.next x j) := by
  refine G.le_add _ _ (G.sum_pos _ _ fun i hi => G.massTo_pos _ _ fun m hm => ?_)
  obtain ⟨l, hl, rfl⟩ := List.mem_map.1 hm
  exact G.pos_mul _ _ (hg i hi l hl) (hx i hi)

/-- Value and value plus delta of every vertex go up in a step. -/
theorem le_step {a : Action ι τ} (hs : Values (fun _ => G.pos) s) (h : Step g s a t) (j : ι) :
    G.le (s.val j) (t.val j) ∧ G.le (s.val j + s.delta j) (t.val j + t.delta j) := by
  cases h with
  | @absorb w i hi hw =>
    by_cases hj : j = i
    · subst hj
      simp only [Function.update_self, add_zero]
      exact ⟨G.le_add _ _ (hs.delta j), G.refl _⟩
    · simp only [Function.update_of_ne hj]
      exact ⟨G.refl _, G.refl _⟩
  | @deliver w i x ms hw =>
    refine ⟨G.refl _, ?_⟩
    by_cases hj : j = i
    · subst hj
      simp only [Function.update_self, ← add_assoc]
      exact G.le_add _ _ (hs.buf w (j, x) (by rw [hw]; exact List.mem_cons_self))
    · simp only [Function.update_of_ne hj]
      exact G.refl _

theorem le_run (hg : Positive G g) {l : List (Action ι τ)} (h : LTS.Run (Step g) s l t)
    (hs : Values (fun _ => G.pos) s) (j : ι) :
    G.le (s.val j) (t.val j) ∧ G.le (s.val j + s.delta j) (t.val j + t.delta j) :=
  LTS.Run.monotone (I := Values fun _ => G.pos)
    (r := fun s t : State ι τ R => G.le (s.val j) (t.val j) ∧
      G.le (s.val j + s.delta j) (t.val j + t.delta j))
    (fun _ _ _ hI hstep => values_step hg.closed hI hstep) (fun _ => ⟨G.refl _, G.refl _⟩)
    (fun _ _ _ h h' => ⟨G.trans _ _ _ h.1 h'.1, G.trans _ _ _ h.2 h'.2⟩)
    (fun _ _ _ hI hstep => le_step hI hstep j) h hs

/-- **Values never go down.** -/
theorem val_le_run (hg : Positive G g) {l : List (Action ι τ)} (h : LTS.Run (Step g) s l t)
    (hs : Values (fun _ => G.pos) s) (j : ι) : G.le (s.val j) (t.val j) := (le_run hg h hs j).1

/-- The value of an absorbed vertex is at least its value plus delta at the start. -/
theorem add_le_of_absorbed (hg : Positive G g) {l : List (Action ι τ)}
    (h : LTS.Run (Step g) s l t) (hs : Values (fun _ => G.pos) s) {i : ι} (hi : i ∈ absorbed l) :
    G.le (s.val i + s.delta i) (t.val i) := by
  induction h with
  | nil => simp [absorbed] at hi
  | @snoc l t u a hrun hstep ih =>
    have ht := values_run hg.closed hrun hs
    rw [absorbed_append, List.mem_append] at hi
    rcases hi with hi | hi
    · exact G.trans _ _ _ (ih hi) (le_step ht hstep i).1
    · cases hstep with
      | absorb hv hw =>
        simp only [absorbed, List.filterMap_cons, List.filterMap_nil, List.mem_singleton] at hi
        subst hi
        simp only [Function.update_self]
        exact (le_run hg hrun hs i).2
      | deliver hw => simp [absorbed] at hi

section Bounds

variable [Fintype τ]

omit [DecidableEq τ] in
theorem next_eq_of_idle (hb : Balanced g s) (hbuf : ∀ w, s.buf w = []) (j : ι) :
    s.val j + s.delta j = g.next s.val j := by
  rw [← hb j]
  simp [State.inFlight, hbuf]

/-- **From empty buffers, an absorbed vertex reaches at least the right-hand side** at the values
of the start. -/
theorem next_le_of_absorbed (hg : Positive G g) {l : List (Action ι τ)}
    (h : LTS.Run (Step g) s l t) (hs : Values (fun _ => G.pos) s) (hb : Balanced g s)
    (hbuf : ∀ w, s.buf w = []) {i : ι} (hi : i ∈ absorbed l) :
    G.le (g.next s.val i) (t.val i) := by
  rw [← next_eq_of_idle hb hbuf i]
  exact add_le_of_absorbed hg h hs hi

omit [DecidableEq τ] in
/-- In a balanced state value plus delta is at most the right-hand side. -/
theorem add_le_next (hs : Values (fun _ => G.pos) s) (hb : Balanced g s) (j : ι) :
    G.le (s.val j + s.delta j) (g.next s.val j) := by
  rw [← hb j]
  exact G.le_add _ _ (G.sum_pos _ _ fun w _ => G.massTo_pos j _ fun m hm => hs.buf w m hm)

/-- **Values never pass a super-solution** of the equations. -/
theorem le_super_run (hg : Positive G g) {x : ι → R} (hx : ∀ i ∈ g.verts, G.le (g.next x i) (x i))
    {l : List (Action ι τ)} (h : LTS.Run (Step g) s l t) (hs : Values (fun _ => G.pos) s)
    (hb : Balanced g s) (hle : ∀ i ∈ g.verts, G.le (s.val i) (x i)) :
    ∀ i ∈ g.verts, G.le (t.val i) (x i) := by
  induction h with
  | nil => exact hle
  | snoc hrun hstep ih =>
    have ht := values_run hg.closed hrun hs
    have hbt := balanced_run hrun hb
    intro i hi
    cases hstep with
    | @absorb w j hj hw =>
      by_cases hij : i = j
      · subst hij
        simp only [Function.update_self]
        exact G.trans _ _ _ (add_le_next ht hbt i)
          (G.trans _ _ _ (next_mono hg ih i) (hx i hi))
      · simp only [Function.update_of_ne hij]
        exact ih i hi
    | deliver hw => exact ih i hi

/-! ### Rounds -/

/-- A round: from empty buffers to empty buffers, every vertex is absorbed exactly once. -/
structure Round (g : System ι R) (s : State ι τ R) (l : List (Action ι τ)) (t : State ι τ R) :
    Prop where
  run : LTS.Run (Step g) s l t
  start : ∀ w, s.buf w = []
  finish : ∀ w, t.buf w = []
  once : (absorbed l).Perm g.verts.toList

/-- Consecutive rounds. -/
abbrev Rounds (g : System ι R) (s : State ι τ R) (r : ℕ) (t : State ι τ R) : Prop :=
  LTS.Rounds (Round g) s r t

omit [Fintype τ] in
theorem Rounds.reaches {r : ℕ} (h : Rounds g s r t) : LTS.Reaches (Step g) s t :=
  LTS.Rounds.reaches (fun _ _ _ h => h.run) h

/-- The synchronous iterates of the right-hand side. -/
def System.iterate (g : System ι R) : ℕ → ι → R
  | 0 => fun _ => 0
  | r + 1 => g.next (g.iterate r)

/-- **Asynchronous rounds are not behind the synchronous iteration.** -/
theorem iterate_le_rounds (hg : Positive G g) {r : ℕ} (h : Rounds g s r t)
    (hs : Values (fun _ => G.pos) s) (hb : Balanced g s)
    (h0 : ∀ i ∈ g.verts, G.le 0 (s.val i)) : ∀ i ∈ g.verts, G.le (g.iterate r i) (t.val i) := by
  induction h with
  | zero => exact h0
  | @succ r l t u hrounds hround ih =>
    intro i hi
    obtain ⟨m, hm⟩ := Rounds.reaches hrounds
    have hi' : i ∈ absorbed l := hround.once.mem_iff.2 (Finset.mem_toList.2 hi)
    exact G.trans _ _ _ (next_mono hg ih i)
      (next_le_of_absorbed hg hround.run (values_run hg.closed hm hs) (balanced_run hm hb)
        hround.start hi')

omit [Fintype τ] in
/-- Values of other keys than vertices never change. -/
theorem val_eq_of_notMem {l : List (Action ι τ)} (h : LTS.Run (Step g) s l t) {i : ι}
    (hi : i ∉ g.verts) : t.val i = s.val i := by
  induction h with
  | nil => rfl
  | snoc _ hstep ih =>
    cases hstep with
    | @absorb w j hj hw =>
      have hij : i ≠ j := fun he => hi (by rw [he]; exact hj)
      simp only [Function.update_of_ne hij]
      exact ih
    | deliver hw => exact ih

/-- **If no value changes while every vertex is absorbed, no value changes any more.** -/
theorem stable_of_idle_round (hg : Positive G g) {l m : List (Action ι τ)} {u : State ι τ R}
    (hs : Values (fun _ => G.pos) s) (hb : Balanced g s) (hbuf : ∀ w, s.buf w = [])
    (h : LTS.Run (Step g) s l t) (hall : ∀ i ∈ g.verts, i ∈ absorbed l) (hval : t.val = s.val)
    (h' : LTS.Run (Step g) s m u) : u.val = s.val := by
  have hsuper : ∀ i ∈ g.verts, G.le (g.next s.val i) (s.val i) := fun i hi => by
    have hle := next_le_of_absorbed hg h hs hb hbuf (hall i hi)
    rwa [hval] at hle
  funext i
  by_cases hi : i ∈ g.verts
  · exact G.antisymm _ _ (le_super_run hg hsuper h' hs hb (fun i _ => G.refl _) i hi)
      (val_le_run hg h' hs i)
  · exact val_eq_of_notMem h' hi

end Bounds

end DeltaIteration
