import Maiter.StateTable.Probe

/-!
# Rewriting the bucket of a key

No key sits in two buckets of a table with the probe-chain invariant, so that an update of a stored
key can be read as a function of every bucket.

* `atKey`: the rewriting of the bucket of a key, as a function of every bucket;
* `rewriteAt`, `WF.writeBucket_atKey`: the update functions map it over the buckets;
* `WF.map`, `layout_map`, `vertices_map`: what a function of every bucket keeps;
* `WF.find_map`, `WF.find_rewriteAt`: what is found afterwards;
* `of_mem_stored_rewriteAt`, `rewriteAt_rewriteAt`, `rewriteAt_congr`: the buckets afterwards.
-/

namespace Maiter

namespace StateTable

variable {K V D : Type} [DecidableEq K] {hashobj : K → ℕ} {t : StateTable K V D}

/-- The rewriting of the in-use bucket with key `k`. -/
def atKey (k : K) (f : Bucket K V D → Bucket K V D) (c : Bucket K V D) : Bucket K V D :=
  if c.inUse ∧ c.k = k then f c else c

theorem keepsKey_atKey {f : Bucket K V D → Bucket K V D} (hf : KeepsKey f) (k : K) :
    KeepsKey (atKey k f) := by
  intro c
  unfold atKey
  split_ifs
  · exact hf c
  · exact ⟨rfl, rfl⟩

theorem atKey_atKey {f g : Bucket K V D → Bucket K V D} (hf : KeepsKey f) (k : K) :
    atKey k g ∘ atKey k f = atKey k (g ∘ f) := by
  funext c
  by_cases h : c.inUse ∧ c.k = k
  · have h' : (f c).inUse ∧ (f c).k = k := by rwa [(hf c).1, (hf c).2]
    simp only [Function.comp_apply, atKey, if_pos h, if_pos h']
  · simp only [Function.comp_apply, atKey, if_neg h]

/-- No key sits in two buckets, so the bucket of a key can be rewritten by its position or by
its key. -/
theorem WF.modify_eq_map (hwf : WF hashobj t) {pos : ℕ} {c : Bucket K V D}
    (hc : t.buckets[pos]? = some c) (hu : c.inUse = true) (f : Bucket K V D → Bucket K V D) :
    t.buckets.modify pos f = t.buckets.map (atKey c.k f) := by
  apply List.ext_getElem?
  intro i
  rw [List.getElem?_modify, List.getElem?_map]
  cases hi : t.buckets[i]? with
  | none => rfl
  | some d =>
    by_cases hpos : pos = i
    · subst hpos
      rw [hc] at hi
      cases hi
      simp [atKey, hu]
    · have hd : ¬ (d.inUse = true ∧ d.k = c.k) := fun ⟨hud, hk⟩ =>
        hpos (hwf.index_unique hc hi hu hud hk.symm)
      simp [atKey, hd, hpos]

/-- The table with the bucket of a key rewritten. -/
def rewriteAt (t : StateTable K V D) (k : K) (f : Bucket K V D → Bucket K V D) :
    StateTable K V D := { t with buckets := t.buckets.map (atKey k f) }

/-- The update functions on a stored key. -/
theorem WF.writeBucket_atKey (hwf : WF hashobj t) {f : Bucket K V D → Bucket K V D} {k : K}
    (hk : k ∈ t.vertices) (missing : Fault) :
    t.writeBucket hashobj k missing f = .ok (t.rewriteAt k f) := by
  rcases hwf.bucketForKey_cases k with ⟨b, c, hb, hc, hfind⟩ | ⟨-, hnone⟩
  · obtain ⟨hst, rfl⟩ := find_some hfind
    simp [writeBucket, rewriteAt, hb, hwf.modify_eq_map hc (mem_stored.1 hst).2]
  · rw [← find_isSome_iff, hnone] at hk
    cases hk

omit [DecidableEq K] in
theorem layout_map {f : Bucket K V D → Bucket K V D} (hf : KeepsKey f) :
    layout { t with buckets := t.buckets.map f } = t.layout := by
  funext i
  simp only [layout, List.getElem?_map]
  cases t.buckets[i]? with
  | none => rfl
  | some c => simp [hf c]

omit [DecidableEq K] in
/-- Rewriting every bucket keeps the invariant. -/
theorem WF.map (hwf : WF hashobj t) {f : Bucket K V D → Bucket K V D} (hf : KeepsKey f) :
    WF hashobj { t with buckets := t.buckets.map f } where
  len := by simpa using hwf.len
  pos := hwf.pos
  fits := hwf.fits
  chained := by
    rw [layout_map hf]
    exact hwf.chained

theorem vertices_map {f : Bucket K V D → Bucket K V D} (hf : KeepsKey f) :
    vertices { t with buckets := t.buckets.map f } = t.vertices := by
  ext k
  rw [mem_vertices, mem_vertices, ← exists_layout_iff, ← exists_layout_iff, layout_map hf]

/-! ### What is found afterwards -/

variable {f : Bucket K V D → Bucket K V D}

omit [DecidableEq K] in
theorem mem_stored_map (hf : KeepsKey f) {c : Bucket K V D} :
    c ∈ stored { t with buckets := t.buckets.map f } ↔ ∃ b ∈ t.stored, f b = c := by
  rw [mem_stored, List.mem_map]
  constructor
  · rintro ⟨⟨b, hb, rfl⟩, hu⟩
    rw [(hf b).2] at hu
    exact ⟨b, mem_stored.2 ⟨hb, hu⟩, rfl⟩
  · rintro ⟨b, hb, rfl⟩
    rw [mem_stored] at hb
    exact ⟨⟨b, hb.1, rfl⟩, by rw [(hf b).2, hb.2]⟩

theorem WF.find_map (hwf : WF hashobj t) (hf : KeepsKey f) (k : K) :
    find { t with buckets := t.buckets.map f } k = (t.find k).map f := by
  cases hc : t.find k with
  | none =>
    rw [Option.map_none, find_eq_none_iff]
    rintro c hc' rfl
    obtain ⟨b, hb, rfl⟩ := (mem_stored_map hf).1 hc'
    exact find_eq_none_iff.1 hc b hb (hf b).1.symm
  | some c =>
    obtain ⟨hst, rfl⟩ := find_some hc
    rw [Option.map_some, (hwf.map hf).find_eq_some_iff]
    exact ⟨(mem_stored_map hf).2 ⟨c, hst, rfl⟩, (hf c).1⟩

theorem WF.find_rewriteAt (hwf : WF hashobj t) (hf : KeepsKey f) (k k' : K) :
    (t.rewriteAt k f).find k' = if k' = k then (t.find k).map f else t.find k' := by
  unfold rewriteAt
  rw [hwf.find_map (keepsKey_atKey hf k)]
  split_ifs with hk
  · subst hk
    cases hc : t.find k' with
    | none => rfl
    | some c =>
      obtain ⟨hst, hk⟩ := find_some hc
      rw [Option.map_some, Option.map_some, atKey, if_pos ⟨(mem_stored.1 hst).2, hk⟩]
  · cases hc : t.find k' with
    | none => rfl
    | some c =>
      rw [Option.map_some, atKey, if_neg fun h => hk ((find_some hc).2.symm.trans h.2)]

theorem WF.rewriteAt (hwf : WF hashobj t) (hf : KeepsKey f) (k : K) :
    WF hashobj (t.rewriteAt k f) := hwf.map (keepsKey_atKey hf k)

theorem layout_rewriteAt (hf : KeepsKey f) (k : K) : (t.rewriteAt k f).layout = t.layout :=
  layout_map (keepsKey_atKey hf k)

theorem vertices_rewriteAt (hf : KeepsKey f) (k : K) : (t.rewriteAt k f).vertices = t.vertices :=
  vertices_map (keepsKey_atKey hf k)

/-- Rewriting the bucket of a key twice. -/
theorem rewriteAt_rewriteAt (hf : KeepsKey f) (g : Bucket K V D → Bucket K V D) (k : K) :
    (t.rewriteAt k f).rewriteAt k g = t.rewriteAt k (g ∘ f) := by
  unfold rewriteAt
  rw [List.map_map, atKey_atKey hf]

/-- The buckets afterwards: the one with the key rewritten, the others as they were. -/
theorem of_mem_stored_rewriteAt (hf : KeepsKey f) {k : K} {c : Bucket K V D}
    (hc : c ∈ (t.rewriteAt k f).stored) :
    (∃ b ∈ t.stored, b.k = k ∧ f b = c) ∨ c ∈ t.stored ∧ c.k ≠ k := by
  obtain ⟨b, hb, rfl⟩ := (mem_stored_map (keepsKey_atKey hf k)).1 hc
  unfold atKey
  split_ifs with hk
  · exact Or.inl ⟨b, hb, hk.2, rfl⟩
  · exact Or.inr ⟨hb, fun h => hk ⟨(mem_stored.1 hb).2, h⟩⟩

/-- Only what the function does to the bucket of the key matters. -/
theorem rewriteAt_congr {g : Bucket K V D → Bucket K V D} {k : K}
    (h : ∀ c ∈ t.stored, c.k = k → f c = g c) : t.rewriteAt k f = t.rewriteAt k g := by
  have hmap : t.buckets.map (atKey k f) = t.buckets.map (atKey k g) := by
    refine List.map_congr_left fun c hc => ?_
    unfold atKey
    split_ifs with hk
    · exact h c (mem_stored.2 ⟨hc, hk.1⟩) hk.2
    · rfl
  rw [rewriteAt, rewriteAt, hmap]

end StateTable

end Maiter
