import Maiter.Lib.DeltaIteration
import Mathlib.Algebra.Order.AddGroupWithTop
import Mathlib.Algebra.Tropical.Basic

/-!
# Walks in a weighted graph and min-plus iteration

* `Walk out S vs d j`: a walk of length `d` to `j` from a vertex of `S`, leaving the vertices `vs`
  (the last one first), so that it has `vs.length` links;
* `Walk.exists_nodup`: with non-negative weights a walk can be cut to one that meets no vertex
  twice and is not longer;
* `IsDistance`: the least length of a walk, or `⊤` if there is none;
* `minPlus`: the system of equations over the tropical semiring whose solution is the distances;
* `minPlus_isWalk`: every finite value, delta and message is the length of a walk;
* `isDistance_of_quiescent`, `rounds_le_walk`, `isDistance_of_rounds`: the values of a quiescent
  state, and those after enough rounds, are the distances.
-/

namespace DeltaIteration

variable {ι M : Type*} [AddCancelCommMonoid M]

/-- A walk along the links `out` from some vertex in `S`. -/
inductive Walk (out : ι → List (ι × M)) (S : ι → Prop) : List ι → M → ι → Prop
  | nil {i : ι} : S i → Walk out S [] 0 i
  | snoc {vs : List ι} {d : M} {i : ι} {l : ι × M} : Walk out S vs d i → l ∈ out i →
      Walk out S (i :: vs) (d + l.2) l.1

variable {out : ι → List (ι × M)} {S : ι → Prop} {vs : List ι} {d : M} {j : ι}

theorem Walk.out_ne_nil (h : Walk out S vs d j) {i : ι} (hi : i ∈ vs) : out i ≠ [] := by
  induction h with
  | nil => cases hi
  | @snoc vs d i' l _ hl ih =>
    rcases List.mem_cons.1 hi with rfl | hi
    · exact List.ne_nil_of_mem hl
    · exact ih hi

variable [LinearOrder M]

/-- The lengths of the walks to `j`. -/
def walkLengths (out : ι → List (ι × M)) (S : ι → Prop) (j : ι) : Set M :=
  {d | ∃ vs, Walk out S vs d j}

/-- `x` is the least length of a walk to `j`, or `⊤` if there is none. -/
def IsDistance (out : ι → List (ι × M)) (S : ι → Prop) (j : ι) (x : WithTop M) : Prop :=
  (x = ⊤ ∧ walkLengths out S j = ∅) ∨ ∃ d : M, x = d ∧ IsLeast (walkLengths out S j) d

/-- A lower bound of the walks that is the length of a walk, if it is finite, is the distance. -/
theorem isDistance_of_bounds {x : WithTop M} (hx : ∀ d : M, x = d → ∃ vs, Walk out S vs d j)
    (hle : ∀ vs d, Walk out S vs d j → x ≤ (d : WithTop M)) : IsDistance out S j x := by
  cases x with
  | top =>
    refine Or.inl ⟨rfl, Set.eq_empty_iff_forall_notMem.2 ?_⟩
    rintro d ⟨vs, hwalk⟩
    exact WithTop.coe_ne_top (top_le_iff.1 (hle vs d hwalk))
  | coe d =>
    refine Or.inr ⟨d, rfl, hx d rfl, ?_⟩
    rintro d' ⟨vs, hwalk⟩
    exact WithTop.coe_le_coe.1 (hle vs d' hwalk)

theorem IsDistance.unique {x y : WithTop M} (hx : IsDistance out S j x)
    (hy : IsDistance out S j y) : x = y := by
  rcases hx with ⟨rfl, hx⟩ | ⟨d, rfl, hx⟩ <;> rcases hy with ⟨rfl, hy⟩ | ⟨d', rfl, hy⟩
  · rfl
  · exact absurd hy.1 (by rw [hx]; exact Set.notMem_empty d')
  · exact absurd hx.1 (by rw [hy]; exact Set.notMem_empty d)
  · rw [hx.unique hy]

/-! ### Cutting cycles -/

section NonNegative

variable [IsOrderedAddMonoid M] (hw : ∀ i, ∀ l ∈ out i, 0 ≤ l.2)
include hw

/-- The part of a walk up to a vertex that it leaves is not longer. -/
theorem Walk.cut (h : Walk out S vs d j) {k : ι} (hk : k ∈ vs) :
    ∃ vs' d', Walk out S vs' d' k ∧ k :: vs' <:+ vs ∧ d' ≤ d := by
  induction h with
  | nil => cases hk
  | @snoc vs d i l hwalk hl ih =>
    have hle : d ≤ d + l.2 := le_add_of_nonneg_right (hw i l hl)
    rcases List.mem_cons.1 hk with rfl | hk
    · exact ⟨vs, d, hwalk, List.suffix_refl _, hle⟩
    · obtain ⟨vs', d', hwalk', hsuf, hd⟩ := ih hk
      exact ⟨vs', d', hwalk', hsuf.trans (List.suffix_cons _ _), hd.trans hle⟩

/-- **Cutting the cycles** out of a walk does not make it longer. -/
theorem Walk.exists_nodup (h : Walk out S vs d j) :
    ∃ vs' d', Walk out S vs' d' j ∧ (j :: vs').Nodup ∧ d' ≤ d := by
  induction h with
  | nil hi => exact ⟨[], 0, .nil hi, by simp, le_refl _⟩
  | @snoc vs d i l _ hl ih =>
    obtain ⟨vs', d', hwalk, hnodup, hd⟩ := ih
    by_cases hk : l.1 ∈ i :: vs'
    · -- the new link closes a cycle
      obtain ⟨vs'', d'', hwalk'', hsuf, hd''⟩ := (hwalk.snoc hl).cut hw hk
      exact ⟨vs'', d'', hwalk'', hsuf.sublist.nodup hnodup,
        hd''.trans (add_le_add_left hd l.2)⟩
    · exact ⟨i :: vs', d' + l.2, hwalk.snoc hl, List.nodup_cons.2 ⟨hk, hnodup⟩,
        add_le_add_left hd l.2⟩

/-- Over the vertices `F`, a walk can be cut to one with less than `F.card` links. -/
theorem Walk.exists_short {F : Finset ι} (hF : ∀ i, out i ≠ [] → i ∈ F) (hj : j ∈ F)
    (h : Walk out S vs d j) : ∃ vs' d', Walk out S vs' d' j ∧ vs'.length < F.card ∧ d' ≤ d := by
  classical
  obtain ⟨vs', d', hwalk, hnodup, hd⟩ := h.exists_nodup hw
  refine ⟨vs', d', hwalk, ?_, hd⟩
  have hsub : (j :: vs').toFinset ⊆ F := fun i hi => by
    rcases List.mem_cons.1 (List.mem_toFinset.1 hi) with rfl | hi
    · exact hj
    · exact hF i (hwalk.out_ne_nil hi)
  have hcard := Finset.card_le_card hsub
  rw [List.toFinset_card_of_nodup hnodup, List.length_cons] at hcard
  omega

end NonNegative

/-! ### The min-plus equations -/

open Tropical

omit [AddCancelCommMonoid M] in
/-- A tropical sum is a minimum. -/
theorem tropical_add_le_left (x y : Tropical (WithTop M)) : x + y ≤ x := by
  rw [← untrop_le_iff, untrop_add]
  exact min_le_left _ _

omit [AddCancelCommMonoid M] in
theorem tropical_add_le_right (x y : Tropical (WithTop M)) : x + y ≤ y := by
  rw [add_comm]
  exact tropical_add_le_left y x

variable [IsOrderedAddMonoid M]

/-- Accumulating minima: the order is that of the tropical semiring, upside down. -/
def minima (M : Type*) [AddCancelCommMonoid M] [LinearOrder M] [IsOrderedAddMonoid M] :
    Growth (Tropical (WithTop M)) where
  le x y := y ≤ x
  pos _ := True
  refl := le_refl
  trans _ _ _ h h' := h'.trans h
  antisymm _ _ h h' := le_antisymm h' h
  add_mono _ _ _ _ h h' := add_le_add h h'
  mul_mono _ _ _ _ h := mul_le_mul_right h _
  le_add x y _ := tropical_add_le_left x y
  pos_zero := trivial
  pos_add _ _ _ _ := trivial
  pos_mul _ _ _ _ := trivial

/-- The equations of the distances. -/
def minPlus (verts : Finset ι) (out : ι → List (ι × M)) (S : ι → Prop) [DecidablePred S] :
    System ι (Tropical (WithTop M)) where
  verts := verts
  links i := (out i).map fun l => (l.1, trop (l.2 : WithTop M))
  init i := if S i then 1 else 0

/-- `x` is `⊤` or the length of a walk to `j`. -/
def IsWalk (out : ι → List (ι × M)) (S : ι → Prop) (j : ι) (x : Tropical (WithTop M)) : Prop :=
  ∀ d : M, untrop x = d → ∃ vs, Walk out S vs d j

variable {verts : Finset ι} [DecidablePred S]

theorem positive_minPlus : Positive (minima M) (minPlus verts out S) := fun _ _ _ _ => trivial

theorem minPlus_isWalk : Closed (minPlus verts out S) (IsWalk out S) where
  zero i d hd := by simp at hd
  add i x y hx hy d hd := by
    rw [untrop_add] at hd
    rcases min_choice (untrop x) (untrop y) with h | h
    · exact hx d (h.symm.trans hd)
    · exact hy d (h.symm.trans hd)
  link i hi l hl x hx d hd := by
    obtain ⟨l', hl', rfl⟩ := List.mem_map.1 hl
    rw [untrop_mul, untrop_trop] at hd
    cases hx' : untrop x with
    | top =>
      rw [hx', WithTop.add_top] at hd
      cases hd
    | coe d' =>
      obtain ⟨vs, hwalk⟩ := hx d' hx'
      rw [hx', ← WithTop.coe_add, WithTop.coe_inj] at hd
      subst hd
      rw [add_comm]
      exact ⟨_, hwalk.snoc hl'⟩

omit [LinearOrder M] [IsOrderedAddMonoid M] in
theorem minPlus_init_isWalk (i : ι) : IsWalk out S i ((minPlus verts out S).init i) := by
  intro d hd
  unfold minPlus at hd
  by_cases hi : S i
  · simp only [if_pos hi, untrop_one] at hd
    rw [← WithTop.coe_zero, WithTop.coe_inj] at hd
    exact ⟨[], hd ▸ .nil hi⟩
  · simp [if_neg hi] at hd

variable [DecidableEq ι]

/-- The right-hand side of a source is at most `0`. -/
theorem next_source_le {x : ι → Tropical (WithTop M)} {i : ι} (hi : S i) :
    (minPlus verts out S).next x i ≤ 1 := by
  have hinit : (minPlus verts out S).init i = 1 := if_pos hi
  have hle : (minPlus verts out S).next x i ≤ (minPlus verts out S).init i :=
    init_le_next (G := minima M) positive_minPlus (fun _ _ => trivial) i
  rwa [hinit] at hle

theorem massTo_le {ms : List (ι × Tropical (WithTop M))} {m : ι × Tropical (WithTop M)}
    (hm : m ∈ ms) : massTo m.1 ms ≤ m.2 := by
  induction ms with
  | nil => cases hm
  | cons m' ms ih =>
    rw [massTo_cons]
    rcases List.mem_cons.1 hm with rfl | hm
    · rw [if_pos rfl]
      exact tropical_add_le_left _ _
    · exact (tropical_add_le_right _ _).trans (ih hm)

/-- The right-hand side of the target of a link is at most the way over the link. -/
theorem next_link_le {x : ι → Tropical (WithTop M)} {i : ι} (hi : i ∈ verts) {l : ι × M}
    (hl : l ∈ out i) :
    (minPlus verts out S).next x l.1 ≤ trop (l.2 : WithTop M) * x i := by
  let g := minPlus verts out S
  have hmem : (l.1, trop (l.2 : WithTop M) * x i) ∈ g.emit i (x i) :=
    List.mem_map.2 ⟨(l.1, trop (l.2 : WithTop M)), List.mem_map.2 ⟨l, hl, rfl⟩, rfl⟩
  calc g.next x l.1 ≤ ∑ i ∈ verts, massTo l.1 (g.emit i (x i)) := tropical_add_le_right _ _
    _ ≤ massTo l.1 (g.emit i (x i)) := by
      rw [← Finset.add_sum_erase _ _ hi]
      exact tropical_add_le_left _ _
    _ ≤ trop (l.2 : WithTop M) * x i := massTo_le hmem

/-- Values that are not above their right-hand side are at most the length of every walk. -/
theorem le_walk_of_stable {x : ι → Tropical (WithTop M)} (hout : ∀ i, out i ≠ [] → i ∈ verts)
    (hx : ∀ i, x i ≤ (minPlus verts out S).next x i) (h : Walk out S vs d j) :
    untrop (x j) ≤ (d : WithTop M) := by
  induction h with
  | nil hi => exact untrop_le_iff.2 ((hx _).trans (next_source_le hi))
  | @snoc vs d i l _ hl ih =>
    refine (untrop_le_iff.2 ((hx _).trans
      (next_link_le (hout i (List.ne_nil_of_mem hl)) hl))).trans ?_
    rw [untrop_mul, untrop_trop, WithTop.coe_add, add_comm]
    exact add_le_add_left ih _

/-- **The Bellman-Ford bound**: the `r`-th iterate is at most the length of every walk with less
than `r` links. -/
theorem iterate_le_walk (hout : ∀ i, out i ≠ [] → i ∈ verts) (h : Walk out S vs d j) :
    ∀ r, vs.length < r → untrop ((minPlus verts out S).iterate r j) ≤ (d : WithTop M) := by
  induction h with
  | nil hi =>
    intro r hr
    obtain ⟨r, rfl⟩ := Nat.exists_eq_succ_of_ne_zero (Nat.ne_of_gt hr)
    exact untrop_le_iff.2 (next_source_le hi)
  | @snoc vs d i l _ hl ih =>
    intro r hr
    obtain ⟨r, rfl⟩ := Nat.exists_eq_succ_of_ne_zero (Nat.ne_of_gt (Nat.zero_lt_of_lt hr))
    refine (untrop_le_iff.2 (next_link_le (hout i (List.ne_nil_of_mem hl)) hl)).trans ?_
    rw [untrop_mul, untrop_trop, WithTop.coe_add, add_comm]
    exact add_le_add_left (ih r (by simpa using hr)) _

/-! ### Asynchronous min-plus iteration -/

section Iteration

variable {τ : Type*} [DecidableEq τ] [Fintype τ] {s t : State ι τ (Tropical (WithTop M))}

omit [DecidableEq τ] in
/-- **A quiescent state holds the distances**: no message is in flight and no delta is below its
value. -/
theorem isDistance_of_quiescent (hout : ∀ i, out i ≠ [] → i ∈ verts)
    (hs : Values (IsWalk out S) s) (hb : Balanced (minPlus verts out S) s)
    (hbuf : ∀ w, s.buf w = []) (hquiet : ∀ i, s.val i ≤ s.delta i) (j : ι) :
    IsDistance out S j (untrop (s.val j)) := by
  refine isDistance_of_bounds (hs.val j) fun vs d hwalk =>
    le_walk_of_stable hout (fun i => ?_) hwalk
  rw [← next_eq_of_idle hb hbuf i, add_eq_left (hquiet i)]

/-- After `r` rounds, and in every later state, the values are at most the lengths of the walks
with less than `r` links. -/
theorem rounds_le_walk (hout : ∀ i, out i ≠ [] → i ∈ verts) {r : ℕ}
    (h : Rounds (minPlus verts out S) ((minPlus verts out S).start : State ι τ _) r s)
    {l : List (Action ι τ)} (h' : LTS.Run (Step (minPlus verts out S)) s l t) (hj : j ∈ verts)
    (hwalk : Walk out S vs d j) (hr : vs.length < r) : untrop (t.val j) ≤ (d : WithTop M) := by
  have hrounds : s.val j ≤ (minPlus verts out S).iterate r j :=
    iterate_le_rounds (G := minima M) positive_minPlus h
      ⟨fun _ => trivial, fun _ => trivial, fun _ _ _ => trivial⟩ (balanced_start _)
      (fun _ _ => le_refl _) j hj
  have hlater : t.val j ≤ s.val j := val_le_run (G := minima M) positive_minPlus h'
    ⟨fun _ => trivial, fun _ => trivial, fun _ _ _ => trivial⟩ j
  exact (untrop_le_iff.2 (hlater.trans hrounds)).trans (iterate_le_walk hout hwalk r hr)

/-- **With non-negative weights, the values are the distances after as many rounds as there are
vertices**, and in every later state. -/
theorem isDistance_of_rounds (hw : ∀ i, ∀ l ∈ out i, 0 ≤ l.2)
    (hout : ∀ i, out i ≠ [] → i ∈ verts) {r : ℕ}
    (h : Rounds (minPlus verts out S) ((minPlus verts out S).start : State ι τ _) r s)
    (hr : verts.card ≤ r) {l : List (Action ι τ)}
    (h' : LTS.Run (Step (minPlus verts out S)) s l t) (hj : j ∈ verts) :
    IsDistance out S j (untrop (t.val j)) := by
  have hstart : Values (IsWalk out S) ((minPlus verts out S).start : State ι τ _) :=
    values_start minPlus_isWalk minPlus_init_isWalk
  obtain ⟨m, hm⟩ := Rounds.reaches h
  have ht := values_run minPlus_isWalk (hm.append h') hstart
  refine isDistance_of_bounds (ht.val j) fun vs d hwalk => ?_
  obtain ⟨vs', d', hwalk', hlen, hd⟩ := hwalk.exists_short hw hout hj
  exact (rounds_le_walk hout h h' hj hwalk' (hlen.trans_le hr)).trans (WithTop.coe_le_coe.2 hd)

end Iteration

end DeltaIteration
