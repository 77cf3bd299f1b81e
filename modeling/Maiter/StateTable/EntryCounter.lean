import Maiter.StateTable.Rehash

/-!
# The entry counter

`entries` is written by `clear`, by every `put` of a new key, and once more by a `put` that has
grown the table.

* `Counted`: the counter is at least the number of in-use buckets; every call keeps it;
* `Overcounted`: it is larger; `put` keeps that, also when it grows the table;
* `RoomFor`: the calls for which there is an empty bucket for every new entry;
* `exact_step_iff`: from a table with an exact counter these calls, and no others, lead to a table
  with an exact counter;
* `entry_counter`: the runs of such calls are the runs on which the counter is exact throughout.
-/

namespace Maiter

namespace StateTable

open Fallible (bind_eq_ok_iff foldlM_invariant)

variable {K V D : Type}

/-- The counter is at least the number of in-use buckets. -/
structure Counted (hashobj : K → ℕ) (t : StateTable K V D) : Prop where
  wf : WF hashobj t
  le : t.stored.length ≤ t.entries

/-- The counter is larger than the number of in-use buckets. -/
structure Overcounted (hashobj : K → ℕ) (t : StateTable K V D) : Prop where
  wf : WF hashobj t
  lt : t.stored.length < t.entries

variable [DecidableEq K]

/-- There is an empty bucket for every new entry of a call. -/
def RoomFor (t : StateTable K V D) : Op K V D → Prop
  | .call c => ∀ k, c.putKey = some k → k ∈ t.vertices ∨ t.stored.length < t.size
  | .clear => True
  | .resize size => (t.stored.length : ℤ) ≤ size

variable {hashobj : K → ℕ} {kernel : IterateKernel K V D} {t t' t₀ : StateTable K V D}

theorem vertices_putAt_subset (t : StateTable K V D) (b : ℕ) (e : Bucket K V D) (m : ℕ) :
    (t.putAt b e m).vertices ⊆ insert e.k t.vertices := by
  intro k hk
  obtain ⟨c, hc, rfl⟩ := mem_vertices.1 hk
  rcases mem_stored_putAt hc with rfl | hc
  · exact Finset.mem_insert_self _ _
  · exact Finset.mem_insert_of_mem (mem_vertices.2 ⟨c, hc, rfl⟩)

variable [Inhabited (Bucket K V D)]

variable (kernel) in
/-- **What `put` does to the counter**: it stays as it is, for a stored key; it is one more than
before, with at most one in-use bucket more and no more than there are buckets; or it is one more
than what the two nested calls have left. -/
theorem WF.put_counter (hwf : WF hashobj t) {depth : ℕ} {k : K} {v1 v2 : V} {v3 : D}
    (h : put hashobj kernel (depth + 1) t k v1 v2 v3 = .ok t') :
    (k ∈ t.vertices ∧ WF hashobj t' ∧ t'.stored.length ≤ t.stored.length ∧
      t'.entries = t.entries) ∨
    (k ∉ t.vertices ∧ t.entries ≤ t.size ∧ WF hashobj t' ∧
      t'.stored.length ≤ t.stored.length + 1 ∧ t'.size = t.size ∧ t'.entries = t.entries + 1) ∨
    (t.size < t.entries ∧
      ∃ t₁ t₂, resize hashobj kernel depth t (toInt32 (1 + t.size * 2)) = .ok t₁ ∧
        put hashobj kernel depth t₁ k v1 v2 v3 = .ok t₂ ∧
        t' = { t₂ with entries := t₂.entries + 1 }) := by
  obtain ⟨b, hstop, hput⟩ := hwf.put_succ kernel depth k v1 v2 v3
  rw [hput] at h
  have hwf' := fun m => hwf.putAt hstop (e := entry kernel k v1 v2 v3) rfl rfl m
  have hsub := fun m => vertices_putAt_subset t b (entry kernel k v1 v2 v3) m
  split_ifs at h with hst hgrow
  · cases h
    have hk : k ∈ t.vertices := find_isSome_iff.1 hst
    refine Or.inl ⟨hk, hwf' _, ?_, rfl⟩
    rw [← (hwf' _).card_vertices, ← hwf.card_vertices]
    exact Finset.card_le_card ((hsub _).trans (Finset.insert_subset hk (Finset.Subset.refl _)))
  · obtain ⟨t₁, hresize, h⟩ := bind_eq_ok_iff.1 h
    obtain ⟨t₂, hput₂, h⟩ := bind_eq_ok_iff.1 h
    cases h
    exact Or.inr (Or.inr ⟨hgrow, t₁, t₂, hresize, hput₂, rfl⟩)
  · cases h
    refine Or.inr (Or.inl ⟨fun hk => hst (find_isSome_iff.2 hk), not_lt.1 hgrow, hwf' _, ?_, rfl,
      rfl⟩)
    rw [← (hwf' _).card_vertices, ← hwf.card_vertices]
    exact (Finset.card_le_card (hsub _)).trans (Finset.card_insert_le k t.vertices)

/-! ### What every call keeps -/

omit [DecidableEq K] in
theorem counted_resizeWith
    {put : StateTable K V D → K → V → V → D → Except Fault (StateTable K V D)}
    (hput : ∀ t k v1 v2 v3 t', Counted hashobj t → put t k v1 v2 v3 = .ok t' → Counted hashobj t')
    (ht : Counted hashobj t) {n : ℤ} (h : resizeWith put t n = .ok t') : Counted hashobj t' := by
  unfold resizeWith at h
  split_ifs at h with hn heq
  · cases h
    exact ht
  · obtain ⟨t₁, hclear, hloop⟩ := bind_eq_ok_iff.1 h
    obtain ⟨hwf, hst, -, hent⟩ := wf_clear hashobj (by omega) hclear
    refine foldlM_invariant t.buckets (fun c hc s s' hs hturn => ?_) ⟨hwf, by simp [hst]⟩ hloop
    split_ifs at hturn with hu
    · exact hput s c.k c.v1 c.v2 c.v3 s' hs hturn
    · cases hturn
      exact hs

theorem counted_put (depth : ℕ) : ∀ (t : StateTable K V D) k v1 v2 v3 t', Counted hashobj t →
    put hashobj kernel depth t k v1 v2 v3 = .ok t' → Counted hashobj t' := by
  induction depth with
  | zero => intro t k v1 v2 v3 t' _ h; cases h
  | succ depth ih =>
    intro t k v1 v2 v3 t' ht h
    have hle := ht.le
    rcases ht.wf.put_counter kernel h with ⟨-, hwf', hlen, hent⟩ | ⟨-, -, hwf', hlen, -, hent⟩ |
      ⟨-, t₁, t₂, hresize, hput, rfl⟩
    · exact ⟨hwf', by omega⟩
    · exact ⟨hwf', by omega⟩
    · have ht₁ : Counted hashobj t₁ := counted_resizeWith ih ht hresize
      have ht₂ : Counted hashobj t₂ := ih t₁ k v1 v2 v3 t₂ ht₁ hput
      exact ⟨ht₂.wf.withCounters _ _, ht₂.le.trans (Nat.le_succ _)⟩

/-- **A counter that is too large stays so**: a growth counts the entries again, and `put` adds one
for the entry that the nested `put` has counted. -/
theorem overcounted_put {depth : ℕ} {k : K} {v1 v2 : V} {v3 : D} (ht : Overcounted hashobj t)
    (h : put hashobj kernel depth t k v1 v2 v3 = .ok t') : Overcounted hashobj t' := by
  cases depth with
  | zero => cases h
  | succ depth =>
    have hlt := ht.lt
    rcases ht.wf.put_counter kernel h with ⟨-, hwf', hlen, hent⟩ | ⟨-, -, hwf', hlen, -, hent⟩ |
      ⟨-, t₁, t₂, hresize, hput, rfl⟩
    · exact ⟨hwf', by omega⟩
    · exact ⟨hwf', by omega⟩
    · have ht₁ : Counted hashobj t₁ :=
        counted_resizeWith (counted_put depth) ⟨ht.wf, ht.lt.le⟩ hresize
      have ht₂ : Counted hashobj t₂ := counted_put depth t₁ k v1 v2 v3 t₂ ht₁ hput
      exact ⟨ht₂.wf.withCounters _ _, Nat.lt_succ_of_le ht₂.le⟩

/-! ### Exact counters -/

omit [Inhabited (Bucket K V D)] in
theorem WF.represents (hwf : WF hashobj t) (hexact : t.entries = t.stored.length) :
    Represents hashobj t.size t t.contents :=
  ⟨hwf, rfl, fun _ => rfl, by rw [hexact, hwf.card_vertices]⟩

omit [Inhabited (Bucket K V D)] in
theorem Represents.exact {n : ℕ} {m : RowMap K V D} (h : Represents hashobj n t m) :
    t.entries = t.stored.length :=
  h.entries.trans h.wf.card_vertices

/-- A new key put into a full table is counted, and takes the place of another key. -/
theorem overcounted_of_full (hwf : WF hashobj t) (hexact : t.entries = t.stored.length)
    (hfull : t.size ≤ t.stored.length) {depth : ℕ} {k : K} {v1 v2 : V} {v3 : D}
    (hk : k ∉ t.vertices) (h : put hashobj kernel depth t k v1 v2 v3 = .ok t') :
    Overcounted hashobj t' := by
  cases depth with
  | zero => cases h
  | succ depth =>
    rcases hwf.put_counter kernel h with ⟨hst, -⟩ | ⟨-, -, hwf', -, hsize, hent⟩ | ⟨hlt, -⟩
    · exact absurd hst hk
    · refine ⟨hwf', ?_⟩
      have hle := hwf'.card_vertices_le
      rw [hwf'.card_vertices] at hle
      omega
    · have hle := hwf.card_vertices_le
      rw [hwf.card_vertices] at hle
      omega

theorem exact_put_iff (hwf : WF hashobj t) (hexact : t.entries = t.stored.length) {depth : ℕ}
    {k : K} {v1 v2 : V} {v3 : D} (h : put hashobj kernel depth t k v1 v2 v3 = .ok t') :
    t'.entries = t'.stored.length ↔ k ∈ t.vertices ∨ t.stored.length < t.size := by
  cases depth with
  | zero => cases h
  | succ depth =>
    constructor
    · intro hexact'
      by_contra hroom
      rw [not_or, not_lt] at hroom
      exact (overcounted_of_full hwf hexact hroom.2 hroom.1 h).lt.ne' hexact'
    · intro hroom
      rw [← hwf.card_vertices] at hroom
      obtain ⟨t'', hput, hrep, -⟩ := (hwf.represents hexact).put depth hroom v1 v2 v3
      rw [h, Except.ok.injEq] at hput
      rw [hput]
      exact hrep.exact

/-- Entries with different keys, put into an empty table with fewer buckets. -/
theorem overcounted_of_foldlM {n : ℕ} {t₁ : StateTable K V D}
    (h₁ : Represents hashobj n t₁ (fun _ => none)) (hv : t₁.vertices = ∅)
    {l : List (Bucket K V D)} (hnodup : (l.map (·.k)).Nodup) (hlong : n < l.length) {depth : ℕ}
    (h : l.foldlM (fun t c => put hashobj kernel depth t c.k c.v1 c.v2 c.v3) t₁ = .ok t') :
    Overcounted hashobj t' := by
  obtain ⟨l₁, c, l₂, rfl, hlen⟩ : ∃ l₁ c l₂, l = l₁ ++ c :: l₂ ∧ l₁.length = n :=
    ⟨l.take n, l[n], l.drop (n + 1),
      by rw [← List.drop_eq_getElem_cons hlong, List.take_append_drop],
      List.length_take_of_le hlong.le⟩
  cases depth with
  | zero =>
    exfalso
    cases l₁ <;> cases h
  | succ depth =>
    rw [List.foldlM_append] at h
    obtain ⟨u, hu, h⟩ := bind_eq_ok_iff.1 h
    rw [List.foldlM_cons] at h
    obtain ⟨u', hput, hrest⟩ := bind_eq_ok_iff.1 h
    obtain ⟨u'', hfold, hrep, hkeys⟩ := h₁.refill kernel depth l₁
      (by rw [hv, Finset.card_empty]; omega)
    rw [hu, Except.ok.injEq] at hfold
    subst hfold
    rw [hv, Finset.empty_union] at hkeys
    rw [List.map_append, List.nodup_append, List.map_cons] at hnodup
    have hfull : u.size ≤ u.stored.length := by
      rw [← hrep.wf.card_vertices, hkeys, List.toFinset_card_of_nodup hnodup.1, List.length_map,
        hrep.size, hlen]
    have hk : c.k ∉ u.vertices := by
      rw [hkeys, List.mem_toFinset]
      intro hmem
      exact hnodup.2.2 c.k hmem c.k List.mem_cons_self rfl
    exact foldlM_invariant l₂ (fun c _ s s' hs hput => overcounted_put hs hput)
      (overcounted_of_full hrep.wf hrep.exact hfull hk hput) hrest

theorem exact_resize_iff (hwf : WF hashobj t) (hexact : t.entries = t.stored.length) {depth : ℕ}
    {size : ℤ} (h : resize hashobj kernel depth t size = .ok t') :
    t'.entries = t'.stored.length ↔ (t.stored.length : ℤ) ≤ size := by
  have hle := hwf.card_vertices_le
  rw [hwf.card_vertices] at hle
  have hpos : 0 < size := by
    by_contra hneg
    rw [resize, resizeWith, if_pos (not_lt.1 hneg)] at h
    cases h
  obtain ⟨n, rfl⟩ := Int.eq_ofNat_of_zero_le hpos.le
  by_cases heq : t.size = n
  · rw [resize, resizeWith, if_neg (by omega), if_pos (by omega)] at h
    cases h
    exact iff_of_true hexact (by omega)
  have hfits : n ≤ intMax := by
    by_contra hlarge
    rw [resize, resizeWith_overflow hwf.fits (not_le.1 hlarge)] at h
    cases h
  obtain ⟨t₁, hclear, hresize⟩ := resize_eq hashobj kernel depth (by omega) hfits heq
  obtain ⟨h₁, hv⟩ := represents_clear hashobj (by omega) hclear
  rw [hresize] at h
  constructor
  · intro hexact'
    by_contra hlong
    exact (overcounted_of_foldlM h₁ hv hwf.nodup_keys (by omega) h).lt.ne' hexact'
  · intro hroom
    cases depth with
    | zero =>
      cases hst : t.stored with
      | nil =>
        rw [hst] at h
        cases h
        exact h₁.exact
      | cons c l =>
        rw [hst] at h
        cases h
    | succ depth =>
      obtain ⟨t'', hfold, hrep, -⟩ := h₁.refill kernel depth t.stored
        (by rw [hv, Finset.card_empty]; omega)
      rw [h, Except.ok.injEq] at hfold
      rw [hfold]
      exact hrep.exact

omit [Inhabited (Bucket K V D)] in
theorem WF.counter_of_writeBucket (hwf : WF hashobj t) {f : Bucket K V D → Bucket K V D} {k : K}
    {missing : Fault} (h : t.writeBucket hashobj k missing f = .ok t') (hf : KeepsKey f) :
    t'.entries = t.entries ∧ t'.stored.length = t.stored.length := by
  cases hc : t.find k with
  | none =>
    rw [hwf.writeBucket_none hc] at h
    cases h
  | some c =>
    obtain ⟨t'', h', hwf', -, hent, -, hlayout, -⟩ := hwf.writeBucket_some hf hc missing
    rw [h, Except.ok.injEq] at h'
    subst h'
    have hv : t'.vertices = t.vertices := by
      ext k
      rw [mem_vertices, mem_vertices, ← exists_layout_iff, ← exists_layout_iff, hlayout]
    rw [← hwf'.card_vertices, ← hwf.card_vertices, hv]
    exact ⟨hent, rfl⟩

section Runs

variable [Zero V]

theorem WF.counter_of_call (hwf : WF hashobj t) {c : Call K V D} (hc : c.putKey = none)
    {depth : ℕ} (h : c.exec hashobj kernel depth t = .ok t') :
    t'.entries = t.entries ∧ t'.stored.length = t.stored.length := by
  cases c with
  | put k v1 v2 v3 => cases hc
  | updateF1 k v =>
    obtain ⟨t'', hwrite, h⟩ := bind_eq_ok_iff.1 h
    cases h
    have hcounter := hwf.counter_of_writeBucket hwrite fun _ => ⟨rfl, rfl⟩
    exact hcounter
  | updateF2 k v => exact hwf.counter_of_writeBucket h fun _ => ⟨rfl, rfl⟩
  | updateF3 k v => exact hwf.counter_of_writeBucket h fun _ => ⟨rfl, rfl⟩
  | accumulateF1 k v => exact hwf.counter_of_writeBucket h fun _ => ⟨rfl, rfl⟩
  | accumulateF2 k v => exact hwf.counter_of_writeBucket h fun _ => ⟨rfl, rfl⟩

/-- **The step lemma**: an exact counter stays exact in a call with room for its entries, and in no
other call. -/
theorem exact_step_iff (hwf : WF hashobj t) (hexact : t.entries = t.stored.length) {o : Op K V D}
    (h : OpStep hashobj kernel t o t') : t'.entries = t'.stored.length ↔ RoomFor t o := by
  obtain ⟨depth, h⟩ := h
  cases o with
  | call c =>
    cases hc : c.putKey with
    | none =>
      obtain ⟨hent, hlen⟩ := hwf.counter_of_call hc h
      refine iff_of_true (by rw [hent, hlen, hexact]) fun k hk => ?_
      rw [hc] at hk
      cases hk
    | some k =>
      cases c with
      | put k' v1 v2 v3 =>
        rw [exact_put_iff hwf hexact h]
        constructor
        · rintro hroom k hk
          cases hk
          exact hroom
        · exact fun hroom => hroom k' rfl
      | _ => cases hc
  | clear =>
    obtain ⟨-, rfl⟩ := clear_eq_ok h
    refine iff_of_true (List.length_eq_zero_iff.2 ?_).symm trivial
    simp [stored]
  | resize size => exact exact_resize_iff hwf hexact h

omit [Zero V] in
theorem exact_new {depth : ℕ} {size : ℤ} (hnew : new hashobj kernel depth size = .ok t₀) :
    t₀.entries = t₀.stored.length := by
  have hresize : resizeWith (put hashobj kernel depth) ⟨[], 0, 0, 0⟩ size = .ok t₀ := hnew
  unfold resizeWith at hresize
  split_ifs at hresize with hpos heq
  · exact absurd heq.symm.le hpos
  · obtain ⟨t₁, hclear, hloop⟩ := bind_eq_ok_iff.1 hresize
    cases hloop
    exact (represents_clear hashobj (by omega) hclear).1.exact

/-- **The entry counter is exact** in all tables of a run whose calls all have room for their
entries, and in all tables of no other run. -/
theorem entry_counter {depth : ℕ} {size : ℤ} (hnew : new hashobj kernel depth size = .ok t₀) :
    t₀.entries = t₀.stored.length ∧ ∀ (l : List (Op K V D)) (t : StateTable K V D),
      LTS.Run (fun t o t' => OpStep hashobj kernel t o t' ∧ RoomFor t o) t₀ l t ↔
        LTS.Run (fun t o t' => OpStep hashobj kernel t o t' ∧ t'.entries = t'.stored.length)
          t₀ l t := by
  have hwf₀ : WF hashobj t₀ := wf_of_reaches hnew (LTS.Reaches.refl t₀)
  refine ⟨exact_new hnew, fun l t => LTS.Run.congr
    (I := fun t => WF hashobj t ∧ t.entries = t.stored.length) ?_ ?_ ⟨hwf₀, exact_new hnew⟩⟩
  · rintro t o t' ⟨hwf, hexact⟩ ⟨hstep, hroom⟩
    exact ⟨hwf.op hstep, (exact_step_iff hwf hexact hstep).2 hroom⟩
  · rintro t o t' ⟨hwf, hexact⟩
    exact and_congr_right fun hstep => (exact_step_iff hwf hexact hstep).symm

theorem entry_counter_twoKeys : ∃ t₀ t : StateTable Int32 ℚ (List Int32),
    new (fun _ => 0) pagerankIterateKernel 1 1 = .ok t₀ ∧
      LTS.Run (fun t o t' => OpStep (fun _ => 0) pagerankIterateKernel t o t' ∧
        t'.entries = t'.stored.length) t₀
        [.call (.put 1 0.2 0 [2]), .resize 2, .call (.put 2 0.2 0 [])] t := by
  have hnew : new (fun _ => 0) pagerankIterateKernel 1 1
      = .ok (⟨[⟨0, 0, 0, [], 0, false⟩], 0, 1, 0⟩ : StateTable Int32 ℚ (List Int32)) := by
    decide +kernel
  have hfirst : OpStep (fun _ => 0) pagerankIterateKernel
      (⟨[⟨0, 0, 0, [], 0, false⟩], 0, 1, 0⟩ : StateTable Int32 ℚ (List Int32))
      (.call (.put 1 0.2 0 [2])) ⟨[⟨1, 0.2, 0, [2], 0.2, true⟩], 1, 1, 0⟩ := ⟨1, by decide +kernel⟩
  have hresize : OpStep (fun _ => 0) pagerankIterateKernel
      (⟨[⟨1, 0.2, 0, [2], 0.2, true⟩], 1, 1, 0⟩ : StateTable Int32 ℚ (List Int32)) (.resize 2)
      ⟨[⟨1, 0.2, 0, [2], 0.2, true⟩, ⟨0, 0, 0, [], 0, false⟩], 1, 2, 0⟩ := ⟨1, by decide +kernel⟩
  have hsecond : OpStep (fun _ => 0) pagerankIterateKernel
      (⟨[⟨1, 0.2, 0, [2], 0.2, true⟩, ⟨0, 0, 0, [], 0, false⟩], 1, 2, 0⟩ :
        StateTable Int32 ℚ (List Int32)) (.call (.put 2 0.2 0 []))
      ⟨[⟨1, 0.2, 0, [2], 0.2, true⟩, ⟨2, 0.2, 0, [], 0.2, true⟩], 2, 2, 0⟩ :=
    ⟨1, by decide +kernel⟩
  refine ⟨_, _, hnew, ((entry_counter hnew).2 _ _).1 (.cons ⟨hfirst, ?_⟩ (.cons ⟨hresize, ?_⟩
    (.single ⟨hsecond, ?_⟩)))⟩
  · exact fun _ _ => Or.inr (by decide)
  · show (1 : ℤ) ≤ 2
    decide
  · exact fun _ _ => Or.inr (by decide)

/-- Two keys put into one bucket are both counted.  The next `put`, which grows the table, counts its
key twice. -/
theorem not_entry_counter_oneBucket : ∃ t₀ t t' : StateTable Int32 ℚ (List Int32),
    new (fun _ => 0) pagerankIterateKernel 1 1 = .ok t₀ ∧
      LTS.Reaches (OpStep (fun _ => 0) pagerankIterateKernel) t₀ t ∧
      t.entries = 2 ∧ t.stored.length = 1 ∧
      OpStep (fun _ => 0) pagerankIterateKernel t (.call (.put 3 0 0 [])) t' ∧
      t'.entries = 3 ∧ t'.stored.length = 2 := by
  have hrun : [Op.call (.put 1 0.2 0 [2]), .call (.put 2 0.2 0 [])].foldlM
      (fun t o => Op.exec (fun _ => 0) pagerankIterateKernel 1 t o)
      (⟨[⟨0, 0, 0, [], 0, false⟩], 0, 1, 0⟩ : StateTable Int32 ℚ (List Int32))
      = .ok ⟨[⟨2, 0.2, 0, [], 0.2, true⟩], 2, 1, 0⟩ := by decide +kernel
  have hgrow : Op.exec (fun _ => 0) pagerankIterateKernel 2
      (⟨[⟨2, 0.2, 0, [], 0.2, true⟩], 2, 1, 0⟩ : StateTable Int32 ℚ (List Int32))
      (.call (.put 3 0 0 [])) = .ok ⟨[⟨2, 0.2, 0, [], 0.2, true⟩, ⟨3, 0, 0, [], 0, true⟩,
        ⟨0, 0, 0, [], 0, false⟩], 3, 3, 0⟩ := by decide +kernel
  exact ⟨_, _, _, by decide +kernel, reaches_of_foldlM _ hrun, rfl, rfl, ⟨2, hgrow⟩, rfl, rfl⟩

end Runs

end StateTable

end Maiter
