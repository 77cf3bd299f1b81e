import Mathlib.Tactic

/-!
# Linear probing on a ring of slots

A *layout* says which key sits in which of the `n` slots.  The search for `k` starts in slot
`home k` and moves on by one slot, modulo `n`.

* `slot n h i`: the slot after `i` moves from `h`;
* `Hit`, `Gap`, `Full`: the three ways the search for a key can end: at the key, at an empty
  slot, or back at the start after a whole turn;
* `Chained`: the invariant of linear probing.  No key sits in two slots, and between the home of
  a stored key and its slot there is no empty slot;
* `Chained.gap`, `Chained.full`: a search that ends without the key proves that it is not stored;
* `Chained.insert`, `Chained.overwrite`: storing a new key where the search ended keeps the
  invariant, also when the ring is full and the home slot is overwritten.
-/

namespace LinearProbing

variable {K : Type*}

/-- The slot reached from `h` after `i` moves around a ring of `n` slots. -/
def slot (n h i : ℕ) : ℕ := (h + i) % n

theorem slot_lt {n h i : ℕ} (hn : 0 < n) : slot n h i < n := Nat.mod_lt _ hn

theorem slot_zero {n h : ℕ} (hh : h < n) : slot n h 0 = h := Nat.mod_eq_of_lt hh

theorem slot_succ (n h i : ℕ) : slot n h (i + 1) = (slot n h i + 1) % n := by
  unfold slot
  rw [Nat.mod_add_mod, Nat.add_assoc]

/-- One turn visits every slot. -/
theorem exists_slot {n h b : ℕ} (hh : h < n) (hb : b < n) : ∃ i < n, slot n h i = b := by
  by_cases hle : h ≤ b
  · exact ⟨b - h, by omega, by unfold slot; rw [Nat.add_sub_cancel' hle, Nat.mod_eq_of_lt hb]⟩
  · refine ⟨b + n - h, by omega, ?_⟩
    unfold slot
    rw [show h + (b + n - h) = b + n by omega, Nat.add_mod_right, Nat.mod_eq_of_lt hb]

/-- Within one turn no slot is visited twice. -/
theorem slot_inj {n h i j : ℕ} (hi : i < n) (hj : j < n) (h' : slot n h i = slot n h j) :
    i = j := by
  have hmod : i ≡ j [MOD n] := Nat.ModEq.add_left_cancel' h h'
  exact hmod.eq_of_lt_of_lt hi hj

/-- The turn closes after `n` moves and not before. -/
theorem slot_eq_start_iff {n h i : ℕ} (hh : h < n) (hi : 0 < i) (hin : i ≤ n) :
    slot n h i = h ↔ i = n := by
  constructor
  · intro h'
    by_contra hne
    have := slot_inj (n := n) (h := h) (i := i) (j := 0) (by omega) (by omega)
      (h'.trans (slot_zero hh).symm)
    omega
  · rintro rfl
    unfold slot
    rw [Nat.add_mod_right, Nat.mod_eq_of_lt hh]

/-- Which key sits in which slot. -/
abbrev Layout (K : Type*) := ℕ → Option K

variable {n : ℕ} {home : K → ℕ} {L : Layout K} {k : K} {j : ℕ}

/-- The first `j` slots of the search for `k` hold other keys. -/
def Passed (n : ℕ) (home : K → ℕ) (L : Layout K) (k : K) (j : ℕ) : Prop :=
  ∀ i < j, ∃ k', L (slot n (home k) i) = some k' ∧ k' ≠ k

/-- The search for `k` finds it after `j` moves. -/
def Hit (n : ℕ) (home : K → ℕ) (L : Layout K) (k : K) (j : ℕ) : Prop :=
  j < n ∧ Passed n home L k j ∧ L (slot n (home k) j) = some k

/-- The search for `k` comes to an empty slot after `j` moves. -/
def Gap (n : ℕ) (home : K → ℕ) (L : Layout K) (k : K) (j : ℕ) : Prop :=
  j < n ∧ Passed n home L k j ∧ L (slot n (home k) j) = none

/-- The search for `k` passes all `n` slots. -/
def Full (n : ℕ) (home : K → ℕ) (L : Layout K) (k : K) : Prop := Passed n home L k n

/-- The invariant of linear probing. -/
structure Chained (n : ℕ) (home : K → ℕ) (L : Layout K) : Prop where
  /-- keys sit in slots of the ring, and no slot before them on their search is empty -/
  chain : ∀ b k, L b = some k → ∃ j < n, slot n (home k) j = b ∧
    ∀ i < j, (L (slot n (home k) i)).isSome
  /-- no key sits in two slots -/
  inj : ∀ b b' k, L b = some k → L b' = some k → b = b'

/-- The empty layout. -/
theorem chained_empty (n : ℕ) (home : K → ℕ) : Chained n home (fun _ => none) :=
  ⟨fun _ _ h => by simp at h, fun _ _ _ h => by simp at h⟩

theorem Chained.lt (hL : Chained n home L) {b : ℕ} (h : L b = some k) : b < n := by
  obtain ⟨j, hj, rfl, -⟩ := hL.chain b k h
  exact slot_lt (by omega)

/-- A stored key is found by its search. -/
theorem Chained.hit (hL : Chained n home L) {b : ℕ} (h : L b = some k) :
    ∃ j, Hit n home L k j ∧ slot n (home k) j = b := by
  obtain ⟨j, hj, hb, hocc⟩ := hL.chain b k h
  refine ⟨j, ⟨hj, fun i hi => ?_, by rw [hb]; exact h⟩, hb⟩
  obtain ⟨k', hk'⟩ := Option.isSome_iff_exists.1 (hocc i hi)
  refine ⟨k', hk', fun he => ?_⟩
  -- the key in two slots of one turn would be in one slot twice
  subst he
  have hsl := hL.inj _ _ _ hk' (by rw [hb]; exact h : L (slot n (home k') j) = some k')
  exact absurd (slot_inj (by omega) hj hsl) (by omega)

/-- A search that ends at an empty slot proves that the key is not stored. -/
theorem Chained.gap (hL : Chained n home L) (hg : Gap n home L k j) (b : ℕ) : L b ≠ some k := by
  intro hb
  obtain ⟨j', ⟨hj', hpass, hat⟩, -⟩ := hL.hit hb
  rcases lt_trichotomy j j' with hlt | rfl | hlt
  · obtain ⟨k', hk', -⟩ := hpass j hlt
    rw [hg.2.2] at hk'
    cases hk'
  · rw [hg.2.2] at hat
    cases hat
  · obtain ⟨k', hk', hne⟩ := hg.2.1 j' hlt
    rw [hat] at hk'
    exact hne (Option.some.inj hk').symm

/-- A search that passes all slots proves that the key is not stored. -/
theorem Chained.full (hL : Chained n home L) (hf : Full n home L k) (b : ℕ) : L b ≠ some k := by
  intro hb
  obtain ⟨j', ⟨hj', -, hat⟩, -⟩ := hL.hit hb
  obtain ⟨k', hk', hne⟩ := hf j' hj'
  rw [hat] at hk'
  exact hne (Option.some.inj hk').symm

/-- Every slot is occupied when a search passes all of them. -/
theorem Full.isSome (hh : home k < n) (hf : Full n home L k) {b : ℕ} (hb : b < n) :
    (L b).isSome := by
  obtain ⟨i, hi, rfl⟩ := exists_slot hh hb
  obtain ⟨k', hk', -⟩ := hf i hi
  rw [hk']
  rfl

/-- Storing a key that is nowhere, in a slot on its search with no empty slot before it, keeps
the invariant. -/
theorem Chained.update (hL : Chained n home L) (habs : ∀ b, L b ≠ some k) (hj : j < n)
    (hpass : Passed n home L k j) :
    Chained n home (Function.update L (slot n (home k) j) (some k)) := by
  have hocc : ∀ b, (L b).isSome → (Function.update L (slot n (home k) j) (some k) b).isSome := by
    intro b hb
    by_cases hbs : b = slot n (home k) j
    · rw [hbs, Function.update_self]; rfl
    · rw [Function.update_of_ne hbs]; exact hb
  constructor
  · intro b k' hb
    by_cases hbs : b = slot n (home k) j
    · rw [hbs, Function.update_self] at hb
      cases hb
      refine ⟨j, hj, hbs.symm, fun i hi => hocc _ ?_⟩
      obtain ⟨k'', hk'', -⟩ := hpass i hi
      rw [hk'']
      rfl
    · rw [Function.update_of_ne hbs] at hb
      obtain ⟨j', hj', hsl, hch⟩ := hL.chain b k' hb
      exact ⟨j', hj', hsl, fun i hi => hocc _ (hch i hi)⟩
  · intro b b' k' hb hb'
    by_cases hbs : b = slot n (home k) j <;> by_cases hbs' : b' = slot n (home k) j
    · rw [hbs, hbs']
    · rw [hbs, Function.update_self] at hb
      rw [Function.update_of_ne hbs'] at hb'
      cases hb
      exact absurd hb' (habs b')
    · rw [hbs', Function.update_self] at hb'
      rw [Function.update_of_ne hbs] at hb
      cases hb'
      exact absurd hb (habs b)
    · rw [Function.update_of_ne hbs] at hb
      rw [Function.update_of_ne hbs'] at hb'
      exact hL.inj b b' k' hb hb'

/-- A new key stored in the first empty slot of its search. -/
theorem Chained.insert (hL : Chained n home L) (hg : Gap n home L k j) :
    Chained n home (Function.update L (slot n (home k) j) (some k)) :=
  hL.update (hL.gap hg) hg.1 hg.2.1

/-- A new key stored in its home slot of a full ring, in place of the key that was there. -/
theorem Chained.overwrite (hL : Chained n home L) (hh : home k < n) (hf : Full n home L k) :
    Chained n home (Function.update L (home k) (some k)) := by
  have h := hL.update (j := 0) (hL.full hf) (by omega) (fun i hi => by omega)
  rwa [slot_zero hh] at h

end LinearProbing
