import Mathlib.Data.List.Basic

/-!
# Computations that can fail

`Except ε` as the type of computations that return a value or fail.

* `ok_bind`, `error_bind`, `bind_eq_ok_iff`: one computation after another;
* `mapError_eq_ok_iff`: a computation with its failures renamed;
* `foldlM_invariant`: what every successful turn of a loop preserves, a successful loop preserves;
* `foldlM_eq_self`: a loop none of whose turns changes the state;
* `mapM_eq_ok`: the results of a computation on every element of a list; `exists_of_mapM`: they
  exist if the whole succeeds.
-/

namespace Fallible

universe u v

variable {ε : Type u} {α β σ : Type v}

@[simp] theorem ok_bind (a : α) (f : α → Except ε β) : (Except.ok a >>= f) = f a := rfl

@[simp] theorem error_bind (e : ε) (f : α → Except ε β) :
    (Except.error e >>= f) = .error e := rfl

@[simp] theorem pure_eq_ok (a : α) : (pure a : Except ε α) = .ok a := rfl

/-- The second computation runs on what the first one has returned. -/
theorem bind_eq_ok_iff {x : Except ε α} {f : α → Except ε β} {b : β} :
    (x >>= f) = .ok b ↔ ∃ a, x = .ok a ∧ f a = .ok b := by
  cases x <;> simp

/-- Renaming the failures changes no result. -/
theorem mapError_eq_ok_iff {ε' : Type u} {g : ε → ε'} {x : Except ε α} {a : α} :
    x.mapError g = .ok a ↔ x = .ok a := by
  cases x <;> simp [Except.mapError]

theorem foldlM_invariant {I : σ → Prop} {f : σ → α → Except ε σ} (l : List α)
    (hstep : ∀ a ∈ l, ∀ s s', I s → f s a = .ok s' → I s') :
    ∀ {s s' : σ}, I s → l.foldlM f s = .ok s' → I s' := by
  induction l with
  | nil =>
    intro s s' hs h
    cases h
    exact hs
  | cons a l ih =>
    intro s s' hs h
    rw [List.foldlM_cons] at h
    obtain ⟨t, ha, hl⟩ := bind_eq_ok_iff.1 h
    have ht : I t := hstep a List.mem_cons_self s t hs ha
    exact ih (fun b hb => hstep b (List.mem_cons_of_mem _ hb)) ht hl

theorem foldlM_eq_self {f : σ → α → Except ε σ} {s : σ} (l : List α)
    (h : ∀ a ∈ l, f s a = .ok s) : l.foldlM f s = .ok s := by
  induction l with
  | nil => rfl
  | cons a l ih =>
    rw [List.foldlM_cons, h a List.mem_cons_self, ok_bind]
    exact ih fun b hb => h b (List.mem_cons_of_mem _ hb)

theorem mapM_eq_ok {f : α → Except ε β} : ∀ {l : List α} {l' : List β}, l.length = l'.length →
    (∀ i (h : i < l.length) (h' : i < l'.length), f l[i] = .ok l'[i]) → l.mapM f = .ok l'
  | [], [], _, _ => rfl
  | a :: l, b :: l', hlen, h => by
    have ha : f a = .ok b := h 0 (by simp) (by simp)
    have hl : l.mapM f = .ok l' := mapM_eq_ok (by simpa using hlen) fun i hi hi' =>
      h (i + 1) (by simpa using hi) (by simpa using hi')
    rw [List.mapM_cons, ha, hl]
    rfl

/-- A computation on every element of a list succeeds only if it does on each element. -/
theorem exists_of_mapM {f : α → Except ε β} : ∀ {l : List α} {l' : List β}, l.mapM f = .ok l' →
    ∀ a ∈ l, ∃ b, f a = .ok b := by
  intro l
  induction l with
  | nil => exact fun _ a ha => by cases ha
  | cons a l ih =>
    intro l' h
    rw [List.mapM_cons] at h
    obtain ⟨b, hb, h⟩ := bind_eq_ok_iff.1 h
    obtain ⟨rest, hrest, -⟩ := bind_eq_ok_iff.1 h
    exact List.forall_mem_cons.2 ⟨⟨b, hb⟩, ih hrest⟩

end Fallible
