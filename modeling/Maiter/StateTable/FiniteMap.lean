import Maiter.StateTable.Put
import Maiter.Kernels

/-!
# The state table as a finite map

The purpose of the table, as an abstract model: a finite map from keys to the three values of a
vertex, on which `put` and the update functions act key by key.

* `Row`, `Call`, `Call.apply`: the map and the calls on it;
* `Call.exec`, `execAll`: the same calls on the table;
* `Answers`: `contains`, `getF1`, `getF2`, `getF3` and `get` answer what the map holds;
* `fresh`: the table of capacity `n`, constructed with one bucket and resized while empty;
* `Represents`: the table holds the map and counts its entries; `Represents.exec` is the step
  lemma, `represents_execAll` the run lemma;
* `Represents.put_full`: a new key put into a table whose buckets are all in use takes the place of
  the key in its home bucket.  The growth test `entries > size` is not met there yet;
* `refines_iff`: the table answers as the map after every call, exactly when no more keys are put
  than it has buckets.
-/

namespace Maiter

/-- The values of a vertex. -/
structure Row (V D : Type) where
  v1 : V
  v2 : V
  v3 : D
  deriving DecidableEq, Repr

/-- The values in a bucket. -/
def Bucket.row {K V D : Type} (c : Bucket K V D) : Row V D := ⟨c.v1, c.v2, c.v3⟩

namespace StateTable

open LinearProbing
open Fallible (bind_eq_ok_iff foldlM_eq_self)

/-- A finite map from keys to rows. -/
abbrev RowMap (K V D : Type) := K → Option (Row V D)

/-- A call on the table. -/
inductive Call (K V D : Type)
  | put (k : K) (v1 v2 : V) (v3 : D)
  | updateF1 (k : K) (v : V)
  | updateF2 (k : K) (v : V)
  | updateF3 (k : K) (v : D)
  | accumulateF1 (k : K) (v : V)
  | accumulateF2 (k : K) (v : V)

variable {K V D : Type}

/-- The key that a call puts, if it is a `put`. -/
def Call.putKey : Call K V D → Option K
  | .put k _ _ _ => some k
  | _ => none

/-- The key of a call. -/
def Call.key : Call K V D → K
  | .put k _ _ _ => k
  | .updateF1 k _ => k
  | .updateF2 k _ => k
  | .updateF3 k _ => k
  | .accumulateF1 k _ => k
  | .accumulateF2 k _ => k

variable (hashobj : K → ℕ) (kernel : IterateKernel K V D)

/-- The new row of the key of a call, from its old row. -/
def Call.rewrite : Call K V D → Row V D → Row V D
  | .put _ v1 v2 v3, _ => ⟨v1, v2, v3⟩
  | .updateF1 _ v, r => { r with v1 := v }
  | .updateF2 _ v, r => { r with v2 := v }
  | .updateF3 _ v, r => { r with v3 := v }
  | .accumulateF1 _ v, r => { r with v1 := kernel.accumulate r.v1 v }
  | .accumulateF2 _ v, r => { r with v2 := kernel.accumulate r.v2 v }

variable [DecidableEq K]

/-- A call on the map: `put` stores the row, the others rewrite the row of a stored key. -/
def Call.apply (m : RowMap K V D) : Call K V D → RowMap K V D
  | .put k v1 v2 v3 => Function.update m k (some ⟨v1, v2, v3⟩)
  | c => Function.update m c.key ((m c.key).map (c.rewrite kernel))

/-- The map built by a sequence of calls. -/
def applyAll (calls : List (Call K V D)) : RowMap K V D :=
  calls.foldl (Call.apply kernel) fun _ => none

/-- Updates and accumulations are called on stored keys only. -/
def Valid (calls : List (Call K V D)) : Prop :=
  ∀ p c s, calls = p ++ c :: s → c.putKey = none → (applyAll kernel p c.key).isSome

/-- The keys that a sequence of calls puts. -/
def putKeys (calls : List (Call K V D)) : Finset K := (calls.filterMap Call.putKey).toFinset

theorem putKeys_append (p s : List (Call K V D)) :
    putKeys (p ++ s) = putKeys p ∪ putKeys s := by
  simp [putKeys]

theorem putKeys_singleton (c : Call K V D) : putKeys [c] = c.putKey.toFinset := by
  cases c <;> simp [putKeys, Call.putKey]

omit [DecidableEq K] in
theorem Call.key_of_putKey {c : Call K V D} {k : K} (h : c.putKey = some k) : c.key = k := by
  cases c <;> simp_all [Call.putKey, Call.key]

theorem applyAll_append (p s : List (Call K V D)) :
    applyAll kernel (p ++ s) = s.foldl (Call.apply kernel) (applyAll kernel p) :=
  List.foldl_append

variable {kernel}

theorem valid_nil : Valid kernel ([] : List (Call K V D)) := by
  intro p c s he
  simp at he

theorem Valid.snoc {p : List (Call K V D)} (h : Valid kernel p) {c : Call K V D}
    (hc : c.putKey = none → (applyAll kernel p c.key).isSome) : Valid kernel (p ++ [c]) := by
  intro q d r he hd
  rcases List.eq_nil_or_concat r with rfl | ⟨r, e, rfl⟩
  · obtain ⟨rfl, hcd⟩ := List.append_inj' he rfl
    cases hcd
    exact hc hd
  · rw [List.concat_eq_append, ← List.cons_append, ← List.append_assoc] at he
    exact h q d r (List.append_inj' he rfl).1 hd

theorem Valid.of_append {p s : List (Call K V D)} (h : Valid kernel (p ++ s)) :
    Valid kernel p := by
  intro q c r he
  exact h q c (r ++ s) (by rw [he, List.append_assoc, List.cons_append])

/-- Nothing is asked of a sequence of `put` calls. -/
theorem valid_of_puts {calls : List (Call K V D)} (h : ∀ c ∈ calls, c.putKey ≠ none) :
    Valid kernel calls := by
  intro p c s he hc
  exact absurd hc (h c (he ▸ by simp))

variable (kernel)

/-- The table answers every query as the map does; a missing key is a fatal error of the `get`
functions. -/
def Answers (t : StateTable K V D) (m : RowMap K V D) : Prop :=
  ∀ k, t.contains hashobj k = .ok (m k).isSome ∧
    match m k with
    | some r => t.getF1 hashobj k = .ok r.v1 ∧ t.getF2 hashobj k = .ok r.v2 ∧
        t.getF3 hashobj k = .ok r.v3 ∧ t.get hashobj k = .ok ⟨k, r.v1, r.v2, r.v3⟩
    | none => t.getF1 hashobj k = .error .noEntry ∧ t.getF2 hashobj k = .error .noEntry ∧
        t.getF3 hashobj k = .error .noEntry ∧ t.get hashobj k = .error .noEntry

variable {hashobj kernel}

/-! ### A table that holds a map -/

/-- The table has capacity `n`, holds the map `m`, and counts its entries. -/
structure Represents (hashobj : K → ℕ) (n : ℕ) (t : StateTable K V D) (m : RowMap K V D) :
    Prop where
  wf : WF hashobj t
  size : t.size = n
  find : ∀ k, (t.find k).map Bucket.row = m k
  entries : t.entries = t.vertices.card

variable {n : ℕ} {t : StateTable K V D} {m : RowMap K V D}

theorem Represents.isSome_iff (h : Represents hashobj n t m) {k : K} :
    (m k).isSome ↔ k ∈ t.vertices := by
  rw [← h.find k, Option.isSome_map, find_isSome_iff]

/-- What the table holds, as a map. -/
def contents (t : StateTable K V D) : RowMap K V D := fun k => (t.find k).map Bucket.row

theorem WF.answers (hwf : WF hashobj t) : Answers hashobj t t.contents := by
  intro k
  unfold contents
  cases hf : t.find k <;>
    simp [hwf.contains_eq, getF1, getF2, getF3, get, hwf.readBucket_eq, hf, Bucket.row]

theorem Represents.contents_eq (h : Represents hashobj n t m) : t.contents = m := funext h.find

theorem Represents.answers (h : Represents hashobj n t m) : Answers hashobj t m :=
  h.contents_eq ▸ h.wf.answers

/-- Two tables that answer as the same map answer alike. -/
theorem Answers.congr {t' : StateTable K V D} (h : Answers hashobj t m) (h' : Answers hashobj t' m)
    (k : K) : t.contains hashobj k = t'.contains hashobj k ∧
      t.getF1 hashobj k = t'.getF1 hashobj k ∧ t.getF2 hashobj k = t'.getF2 hashobj k ∧
      t.getF3 hashobj k = t'.getF3 hashobj k := by
  obtain ⟨hc, hrow⟩ := h k
  obtain ⟨hc', hrow'⟩ := h' k
  cases hm : m k <;> simp only [hm] at hrow hrow' <;>
    exact ⟨hc.trans hc'.symm, hrow.1.trans hrow'.1.symm, hrow.2.1.trans hrow'.2.1.symm,
      hrow.2.2.1.trans hrow'.2.2.1.symm⟩

/-- The answers determine the map. -/
theorem Represents.eq_of_answers (h : Represents hashobj n t m) {m' : RowMap K V D}
    (h' : Answers hashobj t m') : m' = m := by
  funext k
  obtain ⟨hcontains, hrow⟩ := h.answers k
  obtain ⟨hcontains', hrow'⟩ := h' k
  rw [hcontains, Except.ok.injEq] at hcontains'
  cases hm : m k <;> cases hm' : m' k <;> simp only [hm, hm'] at hrow hrow' hcontains'
  · rfl
  · cases hcontains'
  · cases hcontains'
  · -- both rows are what `getF1`, `getF2` and `getF3` return
    obtain ⟨h₁, h₂, h₃, -⟩ := hrow
    obtain ⟨h₁', h₂', h₃', -⟩ := hrow'
    rw [h₁, Except.ok.injEq] at h₁'
    rw [h₂, Except.ok.injEq] at h₂'
    rw [h₃, Except.ok.injEq] at h₃'
    rw [Option.some.injEq, Row.mk.injEq]
    exact ⟨h₁'.symm, h₂'.symm, h₃'.symm⟩

/-- The answers determine the keys. -/
theorem WF.find_of_answers (hwf : WF hashobj t) (h : Answers hashobj t m) (k : K) :
    (t.find k).isSome = (m k).isSome := by
  have := (h k).1
  rw [hwf.contains_eq, Except.ok.injEq] at this
  exact this

theorem WF.card_vertices (hwf : WF hashobj t) : t.vertices.card = t.stored.length := by
  rw [vertices, List.toFinset_card_of_nodup hwf.nodup_keys, List.length_map]

theorem WF.card_vertices_le (hwf : WF hashobj t) : t.vertices.card ≤ t.size := by
  rw [hwf.card_vertices, ← hwf.len]
  exact List.length_filter_le _ _

/-- A table with as many vertices as buckets has no empty bucket. -/
theorem WF.inUse_of_card_eq (hwf : WF hashobj t) (h : t.vertices.card = t.size)
    {c : Bucket K V D} (hc : c ∈ t.buckets) : c.inUse = true := by
  rw [hwf.card_vertices, ← hwf.len] at h
  exact (List.length_filter_eq_length_iff.1 h) c hc

/-- A search that passes all buckets proves that there are as many vertices as buckets. -/
theorem WF.card_eq_of_full (hwf : WF hashobj t) {k : K}
    (hfull : Full t.size (t.bucketIdx hashobj) t.layout k) : t.vertices.card = t.size := by
  rw [hwf.card_vertices, ← hwf.len, stored, List.length_filter_eq_length_iff]
  intro c hc
  obtain ⟨b, hb⟩ := List.mem_iff_getElem?.1 hc
  have hlt : b < t.size := by
    rw [← hwf.len]
    exact (List.getElem?_eq_some_iff.1 hb).1
  obtain ⟨k', hk'⟩ := Option.isSome_iff_exists.1 (hfull.isSome (bucketIdx_lt hwf.pos k) hlt)
  obtain ⟨c', hc', hu, -⟩ := layout_eq_some_iff.1 hk'
  rw [hb] at hc'
  cases hc'
  exact hu

/-- What is found after a bucket has been written where the probe loop stopped, unless that was
the home bucket of a full table. -/
theorem WF.find_putAt (hwf : WF hashobj t) {k : K} {b : ℕ} (hstop : StopsAt hashobj t k b)
    (hroom : ∀ c, t.buckets[b]? = some c → c.inUse = true → c.k = k) {e : Bucket K V D}
    (hu : e.inUse = true) (hk : e.k = k) (j : ℕ) (k' : K) :
    (t.putAt b e j).find k' = if k' = k then some e else t.find k' := by
  have hwf' := hwf.putAt hstop hu hk j
  have hb : b < t.buckets.length := by rw [hwf.len]; exact hstop.lt hwf.pos
  split_ifs with hkk
  · exact hwf'.find_eq_some_iff.2 ⟨mem_stored_putAt_self hb hu j, by rw [hk, hkk]⟩
  · cases hf : t.find k' with
    | none =>
      rw [find_eq_none_iff] at hf ⊢
      intro c hc
      rcases mem_stored_putAt hc with rfl | hc
      · rw [hk]
        exact Ne.symm hkk
      · exact hf c hc
    | some c =>
      obtain ⟨hc, hck⟩ := find_some hf
      rw [mem_stored] at hc
      obtain ⟨i, hi⟩ := List.mem_iff_getElem?.1 hc.1
      refine hwf'.find_eq_some_iff.2 ⟨mem_stored_putAt_of_ne (i := i) ?_ hi hc.2, hck⟩
      rintro rfl
      exact hkk (hck.symm.trans (hroom c hi hc.2))

theorem StopsAt.key_of_found {k : K} {b : ℕ} (hwf : WF hashobj t)
    (hstop : StopsAt hashobj t k b) (hnfull : t.vertices.card ≠ t.size) {c : Bucket K V D}
    (hc : t.buckets[b]? = some c) (hu : c.inUse = true) : c.k = k := by
  cases hstop with
  | hit hhit =>
    obtain ⟨c', hc', -, hk⟩ := layout_eq_some_iff.1 hhit.2.2
    rw [hc] at hc'
    cases hc'
    exact hk
  | gap hgap =>
    rw [layout_eq_none_iff.1 hgap.2.2 c hc] at hu
    cases hu
  | full hfull => exact absurd (hwf.card_eq_of_full hfull) hnfull

/-! ### The calls on a table that holds a map -/

/-- The vertices are determined by what is found. -/
theorem vertices_eq_of_find {t' : StateTable K V D}
    (h : ∀ k, (t'.find k).isSome = (t.find k).isSome) :
    t'.vertices = t.vertices := by
  ext k
  rw [← find_isSome_iff, ← find_isSome_iff, h]

/-- Rewriting the bucket of a stored key. -/
theorem Represents.rewrite (h : Represents hashobj n t m) {f : Bucket K V D → Bucket K V D}
    (hf : KeepsKey f) {k : K} {c : Bucket K V D} (hc : t.find k = some c) (missing : Fault) :
    ∃ t', t.writeBucket hashobj k missing f = .ok t' ∧
      Represents hashobj n t' (Function.update m k (some (f c).row)) ∧
      t'.vertices = t.vertices := by
  obtain ⟨t', ht', hwf, hsize, hent, -, -, hfind⟩ := h.wf.writeBucket_some hf hc missing
  have hv : t'.vertices = t.vertices := vertices_eq_of_find fun k' => by
    rw [hfind]
    split_ifs with hk
    · rw [hk, hc]; rfl
    · rfl
  refine ⟨t', ht', ⟨hwf, hsize.trans h.size, fun k' => ?_, by rw [hent, hv, h.entries]⟩, hv⟩
  rw [hfind]
  by_cases hk : k' = k
  · rw [hk, Function.update_self, if_pos rfl]; rfl
  · rw [Function.update_of_ne hk, if_neg hk, h.find]

variable [Inhabited (Bucket K V D)]

/-- `put` of a stored key, or of a new key while some bucket is empty. -/
theorem Represents.put (h : Represents hashobj n t m) (depth : ℕ) {k : K}
    (hroom : k ∈ t.vertices ∨ t.vertices.card < n) (v1 v2 : V) (v3 : D) :
    ∃ t', StateTable.put hashobj kernel (depth + 1) t k v1 v2 v3 = .ok t' ∧
      Represents hashobj n t' (Function.update m k (some ⟨v1, v2, v3⟩)) ∧
      t'.vertices = insert k t.vertices := by
  obtain ⟨b, hstop, hput⟩ := h.wf.put_succ kernel depth k v1 v2 v3
  have hkey : ∀ c, t.buckets[b]? = some c → c.inUse = true → c.k = k := by
    intro c hc hu
    rcases hroom with hk | hlt
    · cases hstop with
      | hit hhit =>
        obtain ⟨c', hc', -, hk'⟩ := layout_eq_some_iff.1 hhit.2.2
        rw [hc] at hc'
        cases hc'
        exact hk'
      | gap hgap =>
        rw [layout_eq_none_iff.1 hgap.2.2 c hc] at hu
        cases hu
      | full hfull =>
        obtain ⟨c', hc', hk'⟩ := mem_vertices.1 hk
        obtain ⟨i, hi⟩ := exists_layout_iff.2 ⟨c', hc', hk'⟩
        exact absurd hi (h.wf.chained.full hfull i)
    · exact hstop.key_of_found h.wf (by rw [h.size]; omega) hc hu
  have hrep : ∀ j, j = (insert k t.vertices).card →
      Represents hashobj n (t.putAt b (entry kernel k v1 v2 v3) j)
        (Function.update m k (some ⟨v1, v2, v3⟩)) ∧
      (t.putAt b (entry kernel k v1 v2 v3) j).vertices = insert k t.vertices := by
    intro j hj
    have hfind := h.wf.find_putAt hstop hkey (e := entry kernel k v1 v2 v3) rfl rfl j
    have hv : (t.putAt b (entry kernel k v1 v2 v3) j).vertices = insert k t.vertices := by
      ext k'
      rw [← find_isSome_iff, hfind, Finset.mem_insert, ← find_isSome_iff]
      by_cases hk : k' = k <;> simp [hk]
    refine ⟨⟨h.wf.putAt hstop rfl rfl j, h.size, fun k' => ?_, by rw [hv]; exact hj⟩, hv⟩
    rw [hfind]
    by_cases hk : k' = k
    · rw [hk, Function.update_self, if_pos rfl]; rfl
    · rw [Function.update_of_ne hk, if_neg hk, h.find]
  have hle := h.wf.card_vertices_le
  rw [h.size] at hle
  by_cases hst : (t.find k).isSome
  · rw [if_pos hst] at hput
    refine ⟨_, hput, hrep _ ?_⟩
    rw [Finset.insert_eq_self.2 (find_isSome_iff.1 hst), h.entries]
  · have hk : k ∉ t.vertices := fun hk => hst (find_isSome_iff.2 hk)
    rw [if_neg hst, if_neg (by rw [h.entries, h.size]; omega)] at hput
    refine ⟨_, hput, hrep _ ?_⟩
    rw [Finset.card_insert_of_notMem hk, h.entries]

variable (kernel) in
/-- **A new key put into a full table** takes the place of another key. -/
theorem Represents.put_full (h : Represents hashobj n t m) (depth : ℕ) {k : K}
    (hk : k ∉ t.vertices) (hfull : t.vertices.card = n) (v1 v2 : V) (v3 : D) :
    ∃ t', StateTable.put hashobj kernel (depth + 1) t k v1 v2 v3 = .ok t' ∧ WF hashobj t' ∧
      ∃ k₀ ∈ t.vertices, t'.find k₀ = none := by
  obtain ⟨b, hstop, hput⟩ := h.wf.put_succ kernel depth k v1 v2 v3
  have hst : ¬ (t.find k).isSome := fun hs => hk (find_isSome_iff.1 hs)
  rw [if_neg hst, if_neg (by rw [h.entries, h.size]; omega)] at hput
  have hwf' := h.wf.putAt hstop (e := entry kernel k v1 v2 v3) rfl rfl (t.entries + 1)
  refine ⟨_, hput, hwf', ?_⟩
  have hb : b < t.buckets.length := by rw [h.wf.len]; exact hstop.lt h.wf.pos
  have huse := h.wf.inUse_of_card_eq (hfull.trans h.size.symm) (List.getElem_mem hb)
  have hk₀ : t.buckets[b] ∈ t.stored := mem_stored.2 ⟨List.getElem_mem hb, huse⟩
  refine ⟨t.buckets[b].k, mem_vertices.2 ⟨_, hk₀, rfl⟩, find_eq_none_iff.2 fun c hc hck => ?_⟩
  -- a bucket with the key of the lost entry is another bucket of the old table
  rw [mem_stored] at hc
  obtain ⟨i, hi⟩ := List.mem_iff_getElem?.1 hc.1
  by_cases hib : i = b
  · subst hib
    simp only [StateTable.putAt, List.getElem?_set_self hb, Option.some.injEq] at hi
    subst hi
    exact hk (mem_vertices.2 ⟨_, hk₀, hck.symm⟩)
  · simp only [StateTable.putAt, List.getElem?_set_ne (Ne.symm hib)] at hi
    exact hib (h.wf.index_unique hi (List.getElem?_eq_getElem hb) hc.2 huse hck)

/-! ### Sequences of calls -/

variable (hashobj kernel) [Zero V]

/-- A call on the table. -/
def Call.exec (depth : ℕ) (t : StateTable K V D) : Call K V D → Except Fault (StateTable K V D)
  | .put k v1 v2 v3 => StateTable.put hashobj kernel depth t k v1 v2 v3
  | .updateF1 k v => t.updateF1 hashobj k v
  | .updateF2 k v => t.updateF2 hashobj k v
  | .updateF3 k v => t.updateF3 hashobj k v
  | .accumulateF1 k v => t.accumulateF1 hashobj kernel k v
  | .accumulateF2 k v => t.accumulateF2 hashobj kernel k v

/-- A table of capacity `n`: constructed with one bucket and resized while it is empty. -/
def fresh (depth : ℕ) (n : ℤ) : Except Fault (StateTable K V D) := do
  let t ← new hashobj kernel depth 1
  resize hashobj kernel depth t n

/-- The calls, one after the other, on a fresh table of capacity `n`. -/
def execAll (depth : ℕ) (n : ℤ) (calls : List (Call K V D)) :
    Except Fault (StateTable K V D) := do
  let t ← fresh hashobj kernel depth n
  calls.foldlM (Call.exec hashobj kernel depth) t

/-- After every call of the sequence the table answers as the map built by the same calls. -/
def Refines (depth : ℕ) (n : ℤ) (calls : List (Call K V D)) : Prop :=
  ∀ p, p <+: calls → ∃ t, execAll hashobj kernel depth n p = .ok t ∧
    Answers hashobj t (applyAll kernel p)

variable {hashobj kernel}

variable (kernel) in
/-- **The step lemma**: a call on a stored key, or a `put` that finds room. -/
theorem Represents.exec (h : Represents hashobj n t m) (depth : ℕ) (c : Call K V D)
    (hroom : c.key ∈ t.vertices ∨ c.putKey = some c.key ∧ t.vertices.card < n) :
    ∃ t', c.exec hashobj kernel (depth + 1) t = .ok t' ∧
      Represents hashobj n t' (c.apply kernel m) ∧ t'.vertices = insert c.key t.vertices := by
  -- all calls but `put` rewrite the bucket of a stored key
  have hwrite : ∀ (f : Bucket K V D → Bucket K V D) (missing : Fault), KeepsKey f →
      (∀ b : Bucket K V D, (f b).row = c.rewrite kernel b.row) → c.key ∈ t.vertices →
      ∃ t', t.writeBucket hashobj c.key missing f = .ok t' ∧
        Represents hashobj n t' (Function.update m c.key ((m c.key).map (c.rewrite kernel))) ∧
        t'.vertices = insert c.key t.vertices := by
    intro f missing hf hrow hk
    obtain ⟨b, hb⟩ := Option.isSome_iff_exists.1 (find_isSome_iff.2 hk)
    obtain ⟨t', ht', hrep, hv⟩ := h.rewrite hf hb missing
    have hm : (m c.key).map (c.rewrite kernel) = some (f b).row := by
      rw [← h.find c.key, hb, hrow]; rfl
    exact ⟨t', ht', by rwa [hm], by rw [hv, Finset.insert_eq_self.2 hk]⟩
  have hstored : c.putKey = none → c.key ∈ t.vertices := fun hn => hroom.resolve_right (by
    rw [hn]
    simp)
  cases c with
  | put k v1 v2 v3 => exact h.put depth (hroom.imp_right And.right) v1 v2 v3
  | updateF1 k v =>
    obtain ⟨t', ht', hrep, hv⟩ := hwrite (fun c => { c with v1 := v, priority := 0 }) .noEntry
      (fun _ => ⟨rfl, rfl⟩) (fun _ => rfl) (hstored rfl)
    have ht' : t.writeBucket hashobj k .noEntry (fun c => { c with v1 := v, priority := 0 })
        = .ok t' := ht'
    refine ⟨{ t' with totalUpdates := t'.totalUpdates + 1 }, ?_, ?_, hv⟩
    · simp [Call.exec, StateTable.updateF1, ht']
    · exact ⟨hrep.wf.withCounters _ _, hrep.size, hrep.find, hrep.entries⟩
  | updateF2 k v => exact hwrite _ .noEntry (fun _ => ⟨rfl, rfl⟩) (fun _ => rfl) (hstored rfl)
  | updateF3 k v => exact hwrite _ .noEntry (fun _ => ⟨rfl, rfl⟩) (fun _ => rfl) (hstored rfl)
  | accumulateF1 k v =>
    exact hwrite _ .assertion (fun _ => ⟨rfl, rfl⟩) (fun _ => rfl) (hstored rfl)
  | accumulateF2 k v => exact hwrite _ .noEntry (fun _ => ⟨rfl, rfl⟩) (fun _ => rfl) (hstored rfl)

variable (hashobj kernel) in
omit [Zero V] in
/-- Resizing a table without entries. -/
theorem resize_empty (depth : ℕ) (hall : ∀ c ∈ t.buckets, c.inUse = false)
    (hent : t.entries = 0) (hwf : t.size = 0 ∨ WF hashobj t) {n : ℕ} (hn : 0 < n)
    (hfits : n ≤ intMax) :
    ∃ t', resize hashobj kernel depth t n = .ok t' ∧ WF hashobj t' ∧ t'.size = n ∧
      t'.entries = 0 ∧ ∀ c ∈ t'.buckets, c.inUse = false := by
  unfold resize resizeWith
  rw [if_neg (by omega)]
  split_ifs with heq
  · exact ⟨t, rfl, hwf.resolve_left (by omega), by omega, hent, hall⟩
  · have hc : clear { t with buckets := resizeBuckets t.buckets n, size := n }
        = .ok ⟨(resizeBuckets t.buckets n).map fun c => { c with inUse := false }, 0, n,
            t.totalUpdates⟩ := if_pos hfits
    obtain ⟨hwf', -, hsize, hent'⟩ := wf_clear hashobj hn hc
    refine ⟨_, ?_, hwf', hsize, hent', ?_⟩
    · rw [Int.toNat_natCast, hc]
      exact foldlM_eq_self t.buckets fun c hc => by rw [hall c hc]; rfl
    · simp

variable (hashobj kernel) in
omit [Zero V] in
/-- A fresh table holds the empty map. -/
theorem represents_fresh (depth : ℕ) {n : ℕ} (hn : 0 < n) (hfits : n ≤ intMax) :
    ∃ t, fresh hashobj kernel depth n = .ok t ∧
      Represents hashobj n t (fun _ => none) ∧ t.vertices = ∅ := by
  obtain ⟨t₁, h₁, hwf₁, -, hent₁, hall₁⟩ := resize_empty hashobj kernel depth
    (t := ⟨[], 0, 0, 0⟩) (by simp) rfl (Or.inl rfl) one_pos (by decide)
  obtain ⟨t₂, h₂, hwf₂, hsize₂, hent₂, hall₂⟩ := resize_empty hashobj kernel depth hall₁ hent₁
    (Or.inr hwf₁) hn hfits
  have hst : t₂.stored = [] := List.filter_eq_nil_iff.2 fun c hc => by simp [hall₂ c hc]
  have hv : t₂.vertices = ∅ := by simp [vertices, hst]
  have hnew : new hashobj kernel depth 1 = .ok t₁ := h₁
  refine ⟨t₂, ?_, ⟨hwf₂, hsize₂, fun k => ?_, by rw [hent₂, hv]; rfl⟩, hv⟩
  · simp [fresh, hnew, h₂]
  · rw [find_eq_none_iff.2 (by simp [hst])]; rfl

omit [Zero V] in
/-- A fresh table is built only up to the capacities that an `int` can count. -/
theorem le_intMax_of_fresh {depth : ℕ} {n : ℕ} {t : StateTable K V D}
    (h : fresh hashobj kernel depth n = .ok t) : n ≤ intMax := by
  by_contra hlt
  have hone : 1 ≤ intMax := by decide
  obtain ⟨t₁, hnew, h⟩ := bind_eq_ok_iff.1 h
  have hsize : t₁.size ≤ intMax := by
    have hP : Rewritable kernel fun _ : Bucket K V D => True := fun _ _ => trivial
    exact (good_new hP depth hnew).wf.fits
  have hclear : clear { t₁ with buckets := resizeBuckets t₁.buckets n, size := n }
      = .error .intOverflow := if_neg hlt
  unfold resize resizeWith at h
  rw [if_neg (by omega), if_neg (by omega), Int.toNat_natCast, hclear] at h
  cases h

omit [Zero V] in
/-- A table has at least one bucket: `resize` asserts it. -/
theorem pos_of_fresh {depth : ℕ} {n : ℤ} {t : StateTable K V D}
    (h : fresh hashobj kernel depth n = .ok t) : 0 < n := by
  by_contra hn
  obtain ⟨t₁, -, h⟩ := bind_eq_ok_iff.1 h
  unfold resize resizeWith at h
  rw [if_pos (not_lt.1 hn)] at h
  cases h

theorem execAll_append (depth : ℕ) (n : ℤ) (p s : List (Call K V D)) :
    execAll hashobj kernel depth n (p ++ s) =
      execAll hashobj kernel depth n p >>= s.foldlM (Call.exec hashobj kernel depth) := by
  simp [execAll, List.foldlM_append]

variable (hashobj) in
/-- **The run lemma**: as long as no more keys are put than there are buckets, the table holds
the map. -/
theorem represents_execAll (depth : ℕ) {n : ℕ} (hn : 0 < n) (hfits : n ≤ intMax)
    (calls : List (Call K V D)) (hvalid : Valid kernel calls) (hcard : (putKeys calls).card ≤ n) :
    ∃ t, execAll hashobj kernel (depth + 1) n calls = .ok t ∧
      Represents hashobj n t (applyAll kernel calls) ∧ t.vertices = putKeys calls := by
  induction calls using List.reverseRecOn with
  | nil =>
    obtain ⟨t, ht, hrep, hv⟩ := represents_fresh hashobj kernel (depth + 1) hn hfits
    exact ⟨t, by simp [execAll, ht], hrep, hv⟩
  | append_singleton p c ih =>
    rw [putKeys_append, putKeys_singleton] at hcard ⊢
    obtain ⟨t, ht, hrep, hv⟩ := ih hvalid.of_append
      ((Finset.card_le_card Finset.subset_union_left).trans hcard)
    have hkey : insert c.key t.vertices = putKeys p ∪ c.putKey.toFinset := by
      cases hc : c.putKey with
      | none =>
        have hst := hrep.isSome_iff.1 (hvalid p c [] rfl hc)
        rw [Finset.insert_eq_self.2 hst, hv]
        simp
      | some k =>
        rw [Call.key_of_putKey hc, hv, Option.toFinset_some, Finset.insert_eq, Finset.union_comm]
    have hroom : c.key ∈ t.vertices ∨ c.putKey = some c.key ∧ t.vertices.card < n := by
      by_cases hst : c.key ∈ t.vertices
      · exact Or.inl hst
      · right
        cases hc : c.putKey with
        | none => exact absurd (hrep.isSome_iff.1 (hvalid p c [] rfl hc)) hst
        | some k =>
          refine ⟨by rw [Call.key_of_putKey hc], ?_⟩
          rw [← hkey, Finset.card_insert_of_notMem hst] at hcard
          omega
    obtain ⟨t', ht', hrep', hv'⟩ := hrep.exec kernel depth c hroom
    refine ⟨t', ?_, ?_, by rw [hv', hkey]⟩
    · simp [execAll_append, ht, ht']
    · rw [applyAll_append]
      exact hrep'

omit [Zero V] [Inhabited (Bucket K V D)] in
/-- A sequence that puts more than `n` keys has a first `put` of key number `n + 1`. -/
theorem exists_first_overflow {n : ℕ} (calls : List (Call K V D))
    (hcard : n < (putKeys calls).card) :
    ∃ p c k, p ++ [c] <+: calls ∧ c.putKey = some k ∧ (putKeys p).card = n ∧ k ∉ putKeys p := by
  induction calls using List.reverseRecOn with
  | nil => simp [putKeys] at hcard
  | append_singleton p c ih =>
    by_cases hp : n < (putKeys p).card
    · obtain ⟨q, c', k, hq, hc', hqn, hk⟩ := ih hp
      exact ⟨q, c', k, hq.trans (List.prefix_append p [c]), hc', hqn, hk⟩
    · rw [putKeys_append, putKeys_singleton] at hcard
      cases hc : c.putKey with
      | none =>
        rw [hc] at hcard
        simp at hcard
        omega
      | some k =>
        rw [hc] at hcard
        have hk : k ∉ putKeys p := by
          intro hk
          rw [Option.toFinset_some, Finset.union_eq_left.2 (by simpa using hk)] at hcard
          exact hp hcard
        have hle := Finset.card_union_le (putKeys p) (some k).toFinset
        rw [Option.toFinset_some, Finset.card_singleton] at hle
        rw [Option.toFinset_some] at hcard
        exact ⟨p, c, k, List.prefix_rfl, hc, by omega, hk⟩

/-- **The table refines a finite map exactly when it is never asked to hold more keys than it
has buckets** (and it can be built at all: `resize` counts the buckets in an `int`). -/
theorem refines_iff (hashobj : K → ℕ) (kernel : IterateKernel K V D) (depth n : ℕ) (hn : 1 ≤ n)
    (calls : List (Call K V D)) (hvalid : Valid kernel calls) :
    Refines hashobj kernel (depth + 1) n calls ↔ (putKeys calls).card ≤ n ∧ n ≤ intMax := by
  constructor
  · intro href
    have hfits : n ≤ intMax := by
      obtain ⟨t, ht, -⟩ := href [] (List.nil_prefix)
      obtain ⟨t', hfresh, -⟩ := bind_eq_ok_iff.1 ht
      exact le_intMax_of_fresh hfresh
    refine ⟨?_, hfits⟩
    by_contra hlt
    obtain ⟨p, c, k, hpc, hc, hcard, hk⟩ := exists_first_overflow calls (not_le.1 hlt)
    obtain ⟨s, rfl⟩ := hpc
    obtain ⟨t, ht, hrep, hv⟩ := represents_execAll hashobj depth hn hfits p
      hvalid.of_append.of_append hcard.le
    rw [← hv] at hk hcard
    cases c with
    | put k' v1 v2 v3 =>
      simp only [Call.putKey, Option.some.injEq] at hc
      subst hc
      obtain ⟨t', ht', hwf', k₀, hk₀, hlost⟩ := hrep.put_full kernel depth hk hcard v1 v2 v3
      obtain ⟨t'', ht'', hans⟩ := href (p ++ [.put k' v1 v2 v3]) (List.prefix_append _ _)
      have hrun : execAll hashobj kernel (depth + 1) n (p ++ [.put k' v1 v2 v3]) = .ok t' := by
        simp [execAll_append, ht, Call.exec, ht']
      rw [hrun, Except.ok.injEq] at ht''
      subst ht''
      -- the table has lost `k₀`, the map has not
      have hfind := hwf'.find_of_answers hans k₀
      have hne : k₀ ≠ k' := fun he => hk (he ▸ hk₀)
      rw [hlost, applyAll_append] at hfind
      simp only [List.foldl_cons, List.foldl_nil, Call.apply, Function.update_of_ne hne] at hfind
      rw [hrep.isSome_iff.2 hk₀] at hfind
      cases hfind
    | _ => cases hc
  · rintro ⟨hcard, hfits⟩ p ⟨s, rfl⟩
    rw [putKeys_append] at hcard
    obtain ⟨t, ht, hrep, -⟩ := represents_execAll hashobj depth hn hfits p
      hvalid.of_append ((Finset.card_le_card Finset.subset_union_left).trans hcard)
    exact ⟨t, ht, hrep.answers⟩

theorem refines_two_keys : Refines (fun _ => 0) pagerankIterateKernel 1 2
    [.put 1 0.2 0 [2], .put 2 0.2 0 [], .accumulateF1 1 0.5] :=
  (refines_iff (fun _ => 0) pagerankIterateKernel 0 2 (by decide) _
    (((valid_nil.snoc (by simp [Call.putKey])).snoc (by simp [Call.putKey])).snoc
      (fun _ => by decide +kernel))).2 ⟨by decide +kernel, by decide⟩

/-- A table of one bucket, asked to hold two keys, forgets the first. -/
theorem not_refines_two_keys :
    Valid pagerankIterateKernel [.put 1 0.2 0 [2], .put 2 0.2 0 []] ∧
      ¬ Refines (fun _ => 0) pagerankIterateKernel 1 1 [.put 1 0.2 0 [2], .put 2 0.2 0 []] := by
  refine ⟨(valid_nil.snoc (by simp [Call.putKey])).snoc (by simp [Call.putKey]), fun href => ?_⟩
  obtain ⟨t, ht, hans⟩ := href _ List.prefix_rfl
  have htable : (execAll (fun _ => 0) pagerankIterateKernel 1 1
      [.put 1 0.2 0 [2], .put 2 0.2 0 []] >>= fun t => t.contains (fun _ => 0) 1)
      = .ok false := by decide +kernel
  have hmap : (applyAll pagerankIterateKernel [.put 1 0.2 0 [2], .put 2 0.2 0 []] 1).isSome
      = true := by decide +kernel
  have hone := (hans 1).1
  rw [hmap] at hone
  simp [ht, hone] at htable

end StateTable

end Maiter
