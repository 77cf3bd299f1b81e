import Mathlib.Data.List.Induction
import Mathlib.Order.WellFounded

/-!
# Labelled transition systems: runs, invariants, simulations

A system is a relation `step : σ → α → σ → Prop`; the label says which action was taken.

* `Run step s l t`: from `s`, the actions `l` in order lead to `t`;
* `Reaches step s t`: some actions lead from `s` to `t`;
* `Run.invariant`, `Reaches.invariant`: what every step preserves, every run preserves;
* `Run.of_foldlM`: the runs of a partial step function;
* `Run.restrict`: a run is a run of a smaller relation that all its steps satisfy; `Run.congr`: two
  relations with the same runs;
* `Run.monotone`: what every step relates, a run relates from end to end;
* `Run.simulation`: a run is mapped to a run of another system, step by step; `Reaches.simulation`:
  the same with steps that leave the mapped state as it is;
* `no_infinite_run`: if every step decreases a measure, no run goes on forever;
* `Rounds`: a number of consecutive runs, each of a given kind.
-/

namespace LTS

variable {σ α : Type*} {step : σ → α → σ → Prop}

/-- `Run step s l t`: the actions `l`, taken in order, lead from `s` to `t`. -/
inductive Run (step : σ → α → σ → Prop) (s : σ) : List α → σ → Prop
  | nil : Run step s [] s
  | snoc {l : List α} {t u : σ} {a : α} : Run step s l t → step t a u → Run step s (l ++ [a]) u

/-- Some sequence of actions leads from `s` to `t`. -/
def Reaches (step : σ → α → σ → Prop) (s t : σ) : Prop := ∃ l, Run step s l t

theorem Run.single {s t : σ} {a : α} (h : step s a t) : Run step s [a] t := Run.nil.snoc h

theorem Run.append {s t u : σ} {l m : List α} (h : Run step s l t) (h' : Run step t m u) :
    Run step s (l ++ m) u := by
  induction h' with
  | nil => simpa using h
  | snoc _ ha ih => rw [← List.append_assoc]; exact ih.snoc ha

theorem Run.cons {s t u : σ} {a : α} {l : List α} (h : step s a t) (h' : Run step t l u) :
    Run step s (a :: l) u := (Run.single h).append h'

/-- A run of a system is a run of one with more steps. -/
theorem Run.mono {step' : σ → α → σ → Prop} (hle : ∀ s a t, step s a t → step' s a t) {s t : σ}
    {l : List α} (h : Run step s l t) : Run step' s l t := by
  induction h with
  | nil => exact Run.nil
  | snoc _ ha ih => exact ih.snoc (hle _ _ _ ha)

/-- A partial step function, folded over a list of actions, makes a run. -/
theorem Run.of_foldlM {f : σ → α → Option σ} (l : List α) :
    ∀ {s t : σ}, l.foldlM f s = some t → Run (fun s a t => f s a = some t) s l t := by
  induction l with
  | nil =>
    intro s t h
    cases h
    exact Run.nil
  | cons a l ih =>
    intro s t h
    rw [List.foldlM_cons] at h
    cases hs : f s a with
    | none =>
      rw [hs] at h
      cases h
    | some u =>
      rw [hs] at h
      exact Run.cons hs (ih h)

theorem Run.nil_inv {s t : σ} (h : Run step s [] t) : t = s := by
  generalize hl : ([] : List α) = l at h
  cases h with
  | nil => rfl
  | snoc => simp at hl

/-- The last step of a run. -/
theorem Run.snoc_inv {s u : σ} {l : List α} {a : α} (h : Run step s (l ++ [a]) u) :
    ∃ t, Run step s l t ∧ step t a u := by
  generalize hl : l ++ [a] = l' at h
  cases h with
  | nil => simp at hl
  | snoc hrun ha =>
    obtain ⟨rfl, hlast⟩ := List.append_inj' hl rfl
    cases hlast
    exact ⟨_, hrun, ha⟩

/-- The first step of a run. -/
theorem Run.cons_inv {s u : σ} {a : α} {l : List α} (h : Run step s (a :: l) u) :
    ∃ t, step s a t ∧ Run step t l u := by
  induction l using List.reverseRecOn generalizing u with
  | nil =>
    obtain ⟨t, hnil, ha⟩ := snoc_inv (l := []) h
    rw [hnil.nil_inv] at ha
    exact ⟨u, ha, Run.nil⟩
  | append_singleton l b ih =>
    obtain ⟨t, hrun, hb⟩ := snoc_inv (l := a :: l) h
    obtain ⟨t', ha, hrun'⟩ := ih hrun
    exact ⟨t', ha, hrun'.snoc hb⟩

theorem Reaches.refl (s : σ) : Reaches step s s := ⟨[], Run.nil⟩

theorem Run.reaches {s t : σ} {l : List α} (h : Run step s l t) : Reaches step s t := ⟨l, h⟩

theorem Reaches.trans {s t u : σ} (h : Reaches step s t) (h' : Reaches step t u) :
    Reaches step s u := by
  obtain ⟨l, hl⟩ := h
  obtain ⟨m, hm⟩ := h'
  exact (hl.append hm).reaches

/-- A property that every step preserves holds at the end of a run that starts with it. -/
theorem Run.invariant {I : σ → Prop} (hstep : ∀ s a t, I s → step s a t → I t) {s t : σ}
    {l : List α} (h : Run step s l t) (hs : I s) : I t := by
  induction h with
  | nil => exact hs
  | snoc _ ha ih => exact hstep _ _ _ ih ha

theorem Reaches.invariant {I : σ → Prop} (hstep : ∀ s a t, I s → step s a t → I t) {s t : σ}
    (h : Reaches step s t) (hs : I s) : I t := by
  obtain ⟨l, hl⟩ := h
  exact hl.invariant hstep hs

/-- If every state of the run satisfies the invariant `I`, and every step passes `J` back to the
state before it, then a run that ends in `J` is a run of any relation between such states. -/
theorem Run.restrict {step' : σ → α → σ → Prop} {I J : σ → Prop}
    (hI : ∀ s a t, I s → step s a t → I t) (hJ : ∀ s a t, I s → step s a t → J t → J s)
    (hstep : ∀ s a t, I s → J s → J t → step s a t → step' s a t) {s t : σ} {l : List α}
    (h : Run step s l t) (hs : I s) (ht : J t) : Run step' s l t ∧ J s := by
  induction h with
  | nil => exact ⟨Run.nil, ht⟩
  | snoc hrun ha ih =>
    have hmid := hrun.invariant hI hs
    have hback := hJ _ _ _ hmid ha ht
    obtain ⟨hrun', hstart⟩ := ih hback
    exact ⟨hrun'.snoc (hstep _ _ _ hmid hback ht ha), hstart⟩

/-- Two relations that agree on the steps from states in the invariant `I`, which the steps of one
of them keep, have the same runs. -/
theorem Run.congr {step' : σ → α → σ → Prop} {I : σ → Prop}
    (hI : ∀ s a t, I s → step s a t → I t) (heq : ∀ s a t, I s → (step s a t ↔ step' s a t))
    {s t : σ} {l : List α} (hs : I s) : Run step s l t ↔ Run step' s l t := by
  constructor
  · intro h
    exact (h.restrict (J := fun _ => True) hI (fun _ _ _ _ _ _ => trivial)
      (fun s a t hs _ _ ha => (heq s a t hs).1 ha) hs trivial).1
  · intro h
    exact (h.restrict (J := fun _ => True) (fun s a t hs ha => hI s a t hs ((heq s a t hs).2 ha))
      (fun _ _ _ _ _ _ => trivial) (fun s a t hs _ _ ha => (heq s a t hs).2 ha) hs trivial).1

/-- A preorder that every step respects, as long as the invariant `I` holds, relates the ends
of a run. -/
theorem Run.monotone {I : σ → Prop} {r : σ → σ → Prop} (hI : ∀ s a t, I s → step s a t → I t)
    (hrefl : ∀ s, r s s) (htrans : ∀ s t u, r s t → r t u → r s u)
    (hr : ∀ s a t, I s → step s a t → r s t) {s t : σ} {l : List α} (h : Run step s l t)
    (hs : I s) : r s t := by
  induction h with
  | nil => exact hrefl _
  | snoc hrun ha ih => exact htrans _ _ _ ih (hr _ _ _ (hrun.invariant hI hs) ha)

/-- A run that starts in the invariant `I` is mapped, states by `f` and actions by `g`, to a run
of `step'`. -/
theorem Run.simulation {τ β : Type*} {step' : τ → β → τ → Prop} {I : σ → Prop} {f : σ → τ}
    {g : α → β} (hI : ∀ s a t, I s → step s a t → I t)
    (hsim : ∀ s a t, I s → step s a t → step' (f s) (g a) (f t)) {s t : σ} {l : List α}
    (h : Run step s l t) (hs : I s) : Run step' (f s) (l.map g) (f t) := by
  induction h with
  | nil => exact Run.nil
  | snoc hrun ha ih =>
    rw [List.map_append, List.map_singleton]
    exact ih.snoc (hsim _ _ _ (hrun.invariant hI hs) ha)

/-- What is reached from a state in the invariant `I` is mapped by `f` to something that `step'`
reaches, if every step is mapped to a step of `step'` or leaves the mapped state as it is. -/
theorem Reaches.simulation {τ β : Type*} {step' : τ → β → τ → Prop} {I : σ → Prop} {f : σ → τ}
    (hI : ∀ s a t, I s → step s a t → I t)
    (hsim : ∀ s a t, I s → step s a t → f t = f s ∨ ∃ b, step' (f s) b (f t)) {s t : σ}
    (h : Reaches step s t) (hs : I s) : Reaches step' (f s) (f t) := by
  obtain ⟨l, hl⟩ := h
  induction hl with
  | nil => exact Reaches.refl _
  | snoc hrun ha ih =>
    rcases hsim _ _ _ (hrun.invariant hI hs) ha with heq | ⟨b, hb⟩
    · rw [heq]
      exact ih
    · exact ih.trans (Run.single hb).reaches

section Measure

variable {β : Type*} [Preorder β] [WellFoundedLT β] {I : σ → Prop} {μ : σ → β}

/-- If every step from a state in the invariant `I` decreases `μ`, no run goes on forever. -/
theorem no_infinite_run (hI : ∀ s a t, I s → step s a t → I t)
    (hμ : ∀ s a t, I s → step s a t → μ t < μ s) {f : ℕ → σ} (h0 : I (f 0)) :
    ∃ i, ∀ a, ¬ step (f i) a (f (i + 1)) := by
  by_contra hrun
  push Not at hrun
  have hall : ∀ i, I (f i) := by
    intro i
    induction i with
    | zero => exact h0
    | succ i ih =>
      obtain ⟨a, ha⟩ := hrun i
      exact hI _ _ _ ih ha
  obtain ⟨i, hi⟩ := WellFounded.not_rel_apply_succ (r := (· < ·)) fun i => μ (f i)
  obtain ⟨a, ha⟩ := hrun i
  exact hi (hμ _ _ _ (hall i) ha)

end Measure

/-- `Rounds round s r t`: from `s`, `r` runs of the kind `round` in a row lead to `t`. -/
inductive Rounds (round : σ → List α → σ → Prop) (s : σ) : ℕ → σ → Prop
  | zero : Rounds round s 0 s
  | succ {r : ℕ} {l : List α} {t u : σ} :
      Rounds round s r t → round t l u → Rounds round s (r + 1) u

theorem Rounds.reaches {round : σ → List α → σ → Prop}
    (hrun : ∀ s l t, round s l t → Run step s l t) {s t : σ} {r : ℕ} (h : Rounds round s r t) :
    Reaches step s t := by
  induction h with
  | zero => exact Reaches.refl _
  | succ _ hround ih => exact ih.trans (hrun _ _ _ hround).reaches

/-- Rounds that start in the invariant `I` are mapped to rounds. -/
theorem Rounds.simulation {τ β : Type*} {round : σ → List α → σ → Prop}
    {round' : τ → List β → τ → Prop} {I : σ → Prop} {f : σ → τ} {g : α → β}
    (hI : ∀ s l t, I s → round s l t → I t)
    (hsim : ∀ s l t, I s → round s l t → round' (f s) (l.map g) (f t)) {s t : σ} {r : ℕ}
    (h : Rounds round s r t) (hs : I s) : I t ∧ Rounds round' (f s) r (f t) := by
  induction h with
  | zero => exact ⟨hs, Rounds.zero⟩
  | succ _ hround ih => exact ⟨hI _ _ _ ih.1 hround, ih.2.succ (hsim _ _ _ ih.1 hround)⟩

end LTS
