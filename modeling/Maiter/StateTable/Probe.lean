import Maiter.StateTable.Basic
import Maiter.Lib.Fallible
import Maiter.Lib.LinearProbing

/-!
# The probe-chain invariant

`WF` is the invariant of the table: as many buckets as the capacity, a positive capacity that
fits an `int`, and the linear-probing invariant `LinearProbing.Chained` of the layout of the
in-use buckets.

* `probe_cases`: in a table with `WF` the probe loop stops within one turn, in one of the three
  ways of `LinearProbing`;
* `find`, `stored`, `vertices`: what the table holds, with no reference to positions;
* `WF.bucketForKey_cases`: `bucketForKey` finds exactly what `find` finds;
* `WF.writeBucket_some`, `WF.readBucket_eq`: the functions that go through `bucketForKey`.
-/

namespace Maiter

namespace StateTable

open LinearProbing
open Fallible (bind_eq_ok_iff)

variable {K V D : Type} {hashobj : K → ℕ} {t : StateTable K V D}

/-- Which key sits in which bucket. -/
def layout (t : StateTable K V D) : Layout K := fun b =>
  (t.buckets[b]?).bind fun c => if c.inUse then some c.k else none

/-- The in-use buckets. -/
def stored (t : StateTable K V D) : List (Bucket K V D) := t.buckets.filter (·.inUse)

/-- The invariant of the table. -/
structure WF (hashobj : K → ℕ) (t : StateTable K V D) : Prop where
  len : t.buckets.length = t.size
  pos : 0 < t.size
  fits : t.size ≤ intMax
  chained : Chained t.size (t.bucketIdx hashobj) t.layout

/-- The counters are no part of the invariant. -/
theorem WF.withCounters (hwf : WF hashobj t) (entries totalUpdates : ℕ) :
    WF hashobj { t with entries := entries, totalUpdates := totalUpdates } :=
  ⟨hwf.len, hwf.pos, hwf.fits, hwf.chained⟩

theorem layout_eq_some_iff {b : ℕ} {k : K} :
    t.layout b = some k ↔ ∃ c, t.buckets[b]? = some c ∧ c.inUse = true ∧ c.k = k := by
  simp [layout, Option.bind_eq_some_iff]

theorem layout_eq_none_iff {b : ℕ} :
    t.layout b = none ↔ ∀ c, t.buckets[b]? = some c → c.inUse = false := by
  simp [layout, Option.bind_eq_none_iff]

theorem bucketIdx_lt (hpos : 0 < t.size) (k : K) : t.bucketIdx hashobj k < t.size :=
  (Nat.mod_le _ _).trans_lt (Nat.mod_lt _ hpos)

@[simp] theorem mem_stored {c : Bucket K V D} : c ∈ t.stored ↔ c ∈ t.buckets ∧ c.inUse = true := by
  simp [stored]

theorem WF.index_unique (hwf : WF hashobj t) {b b' : ℕ} {c c' : Bucket K V D}
    (hc : t.buckets[b]? = some c) (hc' : t.buckets[b']? = some c') (hu : c.inUse = true)
    (hu' : c'.inUse = true) (hk : c.k = c'.k) : b = b' :=
  hwf.chained.inj b b' c.k (layout_eq_some_iff.2 ⟨c, hc, hu, rfl⟩)
    (layout_eq_some_iff.2 ⟨c', hc', hu', hk.symm⟩)

/-- No key is stored twice. -/
theorem WF.stored_unique (hwf : WF hashobj t) {c c' : Bucket K V D} (hc : c ∈ t.stored)
    (hc' : c' ∈ t.stored) (hk : c.k = c'.k) : c = c' := by
  rw [mem_stored] at hc hc'
  obtain ⟨b, hb⟩ := List.mem_iff_getElem?.1 hc.1
  obtain ⟨b', hb'⟩ := List.mem_iff_getElem?.1 hc'.1
  have := hwf.index_unique hb hb' hc.2 hc'.2 hk
  subst this
  exact Option.some.inj (hb.symm.trans hb')

theorem WF.nodup_keys (hwf : WF hashobj t) : (t.stored.map (·.k)).Nodup := by
  have hp : t.buckets.Pairwise fun c c' => c.inUse = true → c'.inUse = true → c.k ≠ c'.k := by
    rw [List.pairwise_iff_getElem]
    intro i j hi hj hij hu hu' hk
    have := hwf.index_unique (List.getElem?_eq_getElem hi) (List.getElem?_eq_getElem hj) hu hu' hk
    omega
  rw [List.Nodup, List.pairwise_map, stored, List.pairwise_filter]
  exact hp.imp fun h hu hu' => h hu hu'

theorem exists_layout_iff {k : K} : (∃ b, t.layout b = some k) ↔ ∃ c ∈ t.stored, c.k = k := by
  constructor
  · rintro ⟨b, hb⟩
    obtain ⟨c, hc, hu, hk⟩ := layout_eq_some_iff.1 hb
    exact ⟨c, mem_stored.2 ⟨List.mem_of_getElem? hc, hu⟩, hk⟩
  · rintro ⟨c, hc, hk⟩
    rw [mem_stored] at hc
    obtain ⟨b, hb⟩ := List.mem_iff_getElem?.1 hc.1
    exact ⟨b, layout_eq_some_iff.2 ⟨c, hb, hc.2, hk⟩⟩

/-- `f` rewrites a bucket without touching its key and its flag. -/
def KeepsKey (f : Bucket K V D → Bucket K V D) : Prop :=
  ∀ c, (f c).k = c.k ∧ (f c).inUse = c.inUse

theorem layout_modify {f : Bucket K V D → Bucket K V D} (hf : KeepsKey f) (b : ℕ) :
    layout { t with buckets := t.buckets.modify b f } = t.layout := by
  funext i
  simp only [layout, List.getElem?_modify]
  cases t.buckets[i]? with
  | none => rfl
  | some c => by_cases hb : b = i <;> simp [hb, hf c]

theorem WF.modify (hwf : WF hashobj t) {f : Bucket K V D → Bucket K V D} (hf : KeepsKey f)
    (b : ℕ) : WF hashobj { t with buckets := t.buckets.modify b f } where
  len := by simpa using hwf.len
  pos := hwf.pos
  fits := hwf.fits
  chained := by
    rw [layout_modify hf]
    exact hwf.chained

variable [DecidableEq K]

/-! ### The probe loop -/

variable (hashobj) in
/-- The loop, entered at the `j`-th bucket of the turn after passing `j` buckets of other keys. -/
theorem probe_cases_aux (hlen : t.buckets.length = t.size) (hpos : 0 < t.size) (k : K) (m : ℕ) :
    ∀ j, m + j = t.size → 0 < m → Passed t.size (t.bucketIdx hashobj) t.layout k j →
    (∃ i, Hit t.size (t.bucketIdx hashobj) t.layout k i ∧
      t.probe k (t.bucketIdx hashobj k) m (slot t.size (t.bucketIdx hashobj k) j)
        = .ok (slot t.size (t.bucketIdx hashobj k) i, true)) ∨
    (∃ i, Gap t.size (t.bucketIdx hashobj) t.layout k i ∧
      t.probe k (t.bucketIdx hashobj k) m (slot t.size (t.bucketIdx hashobj k) j)
        = .ok (slot t.size (t.bucketIdx hashobj k) i, false)) ∨
    (Full t.size (t.bucketIdx hashobj) t.layout k ∧
      t.probe k (t.bucketIdx hashobj k) m (slot t.size (t.bucketIdx hashobj k) j)
        = .ok (t.bucketIdx hashobj k, false)) := by
  induction m with
  | zero => omega
  | succ m ih =>
    intro j hj _ hpass
    set h := t.bucketIdx hashobj k with hh
    have hlt : h < t.size := bucketIdx_lt hpos k
    obtain ⟨c, hc⟩ : ∃ c, t.buckets[slot t.size h j]? = some c :=
      ⟨_, List.getElem?_eq_getElem (by rw [hlen]; exact slot_lt hpos)⟩
    by_cases huse : c.inUse = true
    · by_cases hk : c.k = k
      · refine Or.inl ⟨j, ⟨by omega, hpass, layout_eq_some_iff.2 ⟨c, hc, huse, hk⟩⟩, ?_⟩
        simp [probe, hc, huse, hk]
      · have hpass' : Passed t.size (t.bucketIdx hashobj) t.layout k (j + 1) := by
          intro i hi
          rcases Nat.lt_succ_iff_lt_or_eq.1 hi with hi | rfl
          · exact hpass i hi
          · exact ⟨c.k, layout_eq_some_iff.2 ⟨c, hc, huse, rfl⟩, hk⟩
        by_cases hwrap : slot t.size h (j + 1) = h
        · -- the turn is complete
          have hjn : j + 1 = t.size := (slot_eq_start_iff hlt (by omega) (by omega)).1 hwrap
          refine Or.inr (Or.inr ⟨hjn ▸ hpass', ?_⟩)
          rw [slot_succ] at hwrap
          simp [probe, hc, huse, hk, hwrap]
        · have hjn : j + 1 ≠ t.size := fun he =>
            hwrap ((slot_eq_start_iff hlt (by omega) (by omega)).2 he)
          have hstep : t.probe k h (m + 1) (slot t.size h j)
              = t.probe k h m (slot t.size h (j + 1)) := by
            rw [slot_succ] at hwrap ⊢
            simp [probe, hc, huse, hk, hwrap]
          rw [hstep]
          exact ih (j + 1) (by omega) (by omega) hpass'
    · refine Or.inr (Or.inl ⟨j, ⟨by omega, hpass, layout_eq_none_iff.2 ?_⟩, ?_⟩)
      · intro c' hc'
        rw [hc] at hc'
        cases hc'
        simpa using huse
      · simp [probe, hc, huse]

variable (hashobj) in
/-- The probe loop stops at the key, at an empty bucket, or after a whole turn. -/
theorem probe_cases (hlen : t.buckets.length = t.size) (hpos : 0 < t.size) (k : K) :
    (∃ i, Hit t.size (t.bucketIdx hashobj) t.layout k i ∧
      t.probe k (t.bucketIdx hashobj k) t.size (t.bucketIdx hashobj k)
        = .ok (slot t.size (t.bucketIdx hashobj k) i, true)) ∨
    (∃ i, Gap t.size (t.bucketIdx hashobj) t.layout k i ∧
      t.probe k (t.bucketIdx hashobj k) t.size (t.bucketIdx hashobj k)
        = .ok (slot t.size (t.bucketIdx hashobj k) i, false)) ∨
    (Full t.size (t.bucketIdx hashobj) t.layout k ∧
      t.probe k (t.bucketIdx hashobj k) t.size (t.bucketIdx hashobj k)
        = .ok (t.bucketIdx hashobj k, false)) := by
  have h := probe_cases_aux hashobj hlen hpos k t.size 0 rfl hpos
    (fun i hi => by omega)
  rwa [slot_zero (bucketIdx_lt hpos k)] at h

/-! ### What the table holds -/

/-- The in-use bucket with key `k`. -/
def find (t : StateTable K V D) (k : K) : Option (Bucket K V D) :=
  t.buckets.find? fun c => c.inUse && c.k = k

/-- The stored keys. -/
def vertices (t : StateTable K V D) : Finset K := (t.stored.map (·.k)).toFinset

theorem mem_vertices {k : K} : k ∈ t.vertices ↔ ∃ c ∈ t.stored, c.k = k := by
  simp [vertices]

theorem forall_mem_vertices {P : K → Prop} :
    (∀ k ∈ t.vertices, P k) ↔ ∀ c ∈ t.stored, P c.k := by
  constructor
  · intro h c hc
    exact h c.k (mem_vertices.2 ⟨c, hc, rfl⟩)
  · intro h k hk
    obtain ⟨c, hc, rfl⟩ := mem_vertices.1 hk
    exact h c hc

theorem find_some {k : K} {c : Bucket K V D} (h : t.find k = some c) : c ∈ t.stored ∧ c.k = k := by
  have hp := List.find?_some h
  simp only [Bool.and_eq_true, decide_eq_true_eq] at hp
  exact ⟨mem_stored.2 ⟨List.mem_of_find?_eq_some h, hp.1⟩, hp.2⟩

theorem find_eq_none_iff {k : K} : t.find k = none ↔ ∀ c ∈ t.stored, c.k ≠ k := by
  simp [find]

theorem WF.find_eq_some_iff (hwf : WF hashobj t) {k : K} {c : Bucket K V D} :
    t.find k = some c ↔ c ∈ t.stored ∧ c.k = k := by
  refine ⟨find_some, fun ⟨hc, hk⟩ => ?_⟩
  cases hf : t.find k with
  | none => exact absurd hk (find_eq_none_iff.1 hf c hc)
  | some c' =>
    obtain ⟨hc', hk'⟩ := find_some hf
    rw [hwf.stored_unique hc hc' (hk.trans hk'.symm)]

theorem WF.find_of_getElem? (hwf : WF hashobj t) {b : ℕ} {c : Bucket K V D}
    (hc : t.buckets[b]? = some c) (hu : c.inUse = true) : t.find c.k = some c :=
  hwf.find_eq_some_iff.2 ⟨mem_stored.2 ⟨List.mem_of_getElem? hc, hu⟩, rfl⟩

theorem find_isSome_iff {k : K} : (t.find k).isSome ↔ k ∈ t.vertices := by
  rw [mem_vertices, Option.isSome_iff_ne_none, Ne, find_eq_none_iff]
  push Not
  rfl

theorem find_eq_none_of_layout {k : K} (h : ∀ b, t.layout b ≠ some k) : t.find k = none := by
  rw [find_eq_none_iff]
  intro c hc hk
  obtain ⟨b, hb⟩ := exists_layout_iff.2 ⟨c, hc, hk⟩
  exact h b hb

/-! ### Functions that look a key up -/

/-- `bucketForKey` returns the position of the bucket that `find` finds. -/
theorem WF.bucketForKey_cases (hwf : WF hashobj t) (k : K) :
    (∃ b c, t.bucketForKey hashobj k = .ok (some b) ∧ t.buckets[b]? = some c ∧
      t.find k = some c) ∨
    (t.bucketForKey hashobj k = .ok none ∧ t.find k = none) := by
  rcases probe_cases hashobj hwf.len hwf.pos k with
    ⟨i, hhit, hp⟩ | ⟨i, hgap, hp⟩ | ⟨hfull, hp⟩
  · left
    obtain ⟨c, hc, hu, hk⟩ := layout_eq_some_iff.1 hhit.2.2
    refine ⟨_, c, ?_, hc, by rw [← hk]; exact hwf.find_of_getElem? hc hu⟩
    simp [bucketForKey, hp]
  · right
    refine ⟨?_, find_eq_none_of_layout (hwf.chained.gap hgap)⟩
    simp [bucketForKey, hp]
  · right
    refine ⟨?_, find_eq_none_of_layout (hwf.chained.full hfull)⟩
    simp [bucketForKey, hp]

theorem WF.contains_eq (hwf : WF hashobj t) (k : K) :
    t.contains hashobj k = .ok (t.find k).isSome := by
  rcases hwf.bucketForKey_cases k with ⟨b, c, hb, -, hf⟩ | ⟨hb, hf⟩ <;>
    simp [contains, hb, hf]

theorem WF.readBucket_eq {α : Type} (hwf : WF hashobj t) (k : K) (f : Bucket K V D → α) :
    t.readBucket hashobj k f = match t.find k with
      | some c => .ok (f c)
      | none => .error .noEntry := by
  rcases hwf.bucketForKey_cases k with ⟨b, c, hb, hc, hf⟩ | ⟨hb, hf⟩
  · simp [readBucket, hb, hf, hc]
  · simp [readBucket, hb, hf]

/-- Rewriting the bucket at a position changes what is found under its key only. -/
theorem WF.find_modify (hwf : WF hashobj t) {f : Bucket K V D → Bucket K V D} (hf : KeepsKey f)
    {b : ℕ} {c : Bucket K V D} (hc : t.buckets[b]? = some c) (hu : c.inUse = true) (k' : K) :
    find { t with buckets := t.buckets.modify b f } k'
      = if k' = c.k then some (f c) else t.find k' := by
  have hwf' := hwf.modify hf b
  split_ifs with hk
  · rw [hwf'.find_eq_some_iff, mem_stored]
    refine ⟨⟨List.mem_of_getElem? (i := b) ?_, by rw [(hf c).2]; exact hu⟩, by rw [(hf c).1, hk]⟩
    simp [hc]
  · cases hfind : t.find k' with
    | none =>
      refine find_eq_none_of_layout fun i hi => ?_
      rw [layout_modify hf] at hi
      obtain ⟨c', hc', hk'⟩ := exists_layout_iff.1 ⟨i, hi⟩
      exact find_eq_none_iff.1 hfind c' hc' hk'
    | some c' =>
      obtain ⟨hc', hk'⟩ := find_some hfind
      rw [mem_stored] at hc'
      obtain ⟨i, hi⟩ := List.mem_iff_getElem?.1 hc'.1
      have hbi : b ≠ i := by
        rintro rfl
        rw [hc] at hi
        cases hi
        exact hk hk'.symm
      rw [hwf'.find_eq_some_iff, mem_stored]
      refine ⟨⟨List.mem_of_getElem? (i := i) ?_, hc'.2⟩, hk'⟩
      simp [hi, hbi]

/-- **Rewriting the bucket of a stored key** succeeds; it keeps the invariant, the capacity, the
counters and the layout, and changes what is found under this key only. -/
theorem WF.writeBucket_some (hwf : WF hashobj t) {f : Bucket K V D → Bucket K V D}
    (hf : KeepsKey f) {k : K} {c : Bucket K V D} (hc : t.find k = some c) (missing : Fault) :
    ∃ t', t.writeBucket hashobj k missing f = .ok t' ∧ WF hashobj t' ∧
      t'.size = t.size ∧ t'.entries = t.entries ∧ t'.totalUpdates = t.totalUpdates ∧
      t'.layout = t.layout ∧ ∀ k', t'.find k' = if k' = k then some (f c) else t.find k' := by
  rcases hwf.bucketForKey_cases k with ⟨b, c', hb, hc', hfind⟩ | ⟨-, hn⟩
  · rw [hc] at hfind
    cases hfind
    obtain ⟨hst, hk⟩ := find_some hc
    refine ⟨{ t with buckets := t.buckets.modify b f }, by simp [writeBucket, hb],
      hwf.modify hf b, rfl, rfl, rfl, layout_modify hf b, fun k' => ?_⟩
    rw [hwf.find_modify hf hc' (mem_stored.1 hst).2, hk]
  · rw [hc] at hn
    cases hn

/-- Rewriting a bucket keeps the capacity and the layout. -/
theorem layout_writeBucket {f : Bucket K V D → Bucket K V D} {k : K} {missing : Fault}
    {t' : StateTable K V D} (h : t.writeBucket hashobj k missing f = .ok t') (hf : KeepsKey f) :
    t'.size = t.size ∧ t'.layout = t.layout := by
  obtain ⟨found, -, h⟩ := bind_eq_ok_iff.1 h
  cases found with
  | none => cases h
  | some b =>
    cases h
    exact ⟨rfl, layout_modify hf b⟩

theorem WF.writeBucket_none (hwf : WF hashobj t) {f : Bucket K V D → Bucket K V D} {k : K}
    (hc : t.find k = none) (missing : Fault) :
    t.writeBucket hashobj k missing f = .error missing := by
  rcases hwf.bucketForKey_cases k with ⟨b, c', -, -, hfind⟩ | ⟨hb, -⟩
  · rw [hc] at hfind
    cases hfind
  · simp [writeBucket, hb]

end StateTable

end Maiter
