import Maiter.StateTable.Reachable

/-!
# Rehashing and growth

`resize` clears the table and puts the old entries again, one after another.

* `putRows`: the same puts on a map; `Represents.refill`: the loop of `resize` follows them, as long
  as there is room for every entry;
* `resize_represents`: what `resize` makes of a table, whatever its probe chains are;
* `WF.contents_eq_putRows`: putting the entries of a table again gives the map that it holds;
* `rehash_iff`: `resize` to any capacity with enough room keeps the map, up to `intMax`;
* `toInt32_grow`: the capacity that `put` asks for when it grows the table, cast to `int`;
* `growth_safe_iff`: `put` grows the table and stores the key only below half of that bound;
  `put_assertion`: above it the assertion in `resize` fails.
-/

namespace Maiter

namespace StateTable

open Fallible (bind_eq_ok_iff)

variable {K V D : Type} [DecidableEq K] {hashobj : K → ℕ} {kernel : IterateKernel K V D}
  {t : StateTable K V D} {m : RowMap K V D} {n : ℕ}

/-- The map after a `put` for every entry of a list. -/
def putRows (m : RowMap K V D) (l : List (Bucket K V D)) : RowMap K V D :=
  l.foldl (fun m c => Function.update m c.k (some c.row)) m

/-- Putting entries with different keys. -/
theorem putRows_eq {l : List (Bucket K V D)} (hnodup : (l.map (·.k)).Nodup) :
    ∀ (m : RowMap K V D) (k : K),
      putRows m l k = ((l.find? fun c => c.k = k).map Bucket.row).or (m k) := by
  induction l with
  | nil => exact fun _ _ => rfl
  | cons c l ih =>
    rw [List.map_cons, List.nodup_cons] at hnodup
    intro m k
    show putRows (Function.update m c.k (some c.row)) l k = _
    rw [ih hnodup.2]
    by_cases hk : c.k = k
    · have hnone : l.find? (fun c => c.k = k) = none := by
        rw [List.find?_eq_none]
        intro c' hc' hk'
        rw [decide_eq_true_eq] at hk'
        exact hnodup.1 (List.mem_map.2 ⟨c', hc', hk'.trans hk.symm⟩)
      rw [hnone, List.find?_cons_of_pos (by simpa using hk), ← hk, Function.update_self]
      rfl
    · rw [List.find?_cons_of_neg (by simpa using hk), Function.update_of_ne (Ne.symm hk)]

theorem find_eq_find?_stored (t : StateTable K V D) (k : K) :
    t.find k = t.stored.find? fun c => c.k = k := by
  rw [find, stored, List.find?_filter]
  simp only [Bool.decide_and, Bool.decide_eq_true, decide_eq_true_eq]

/-- Putting the entries of a table again gives the map that it holds. -/
theorem WF.contents_eq_putRows (hwf : WF hashobj t) :
    putRows (fun _ => none) t.stored = t.contents := by
  funext k
  rw [putRows_eq hwf.nodup_keys, contents, find_eq_find?_stored, Option.or_none]

variable [Inhabited (Bucket K V D)]

variable (kernel) in
/-- **The loop of `resize`** follows the puts on the map, while there is room for every entry. -/
theorem Represents.refill (depth : ℕ) (l : List (Bucket K V D)) :
    ∀ {t : StateTable K V D} {m : RowMap K V D}, Represents hashobj n t m →
      t.vertices.card + l.length ≤ n →
      ∃ t', l.foldlM (fun t c => StateTable.put hashobj kernel (depth + 1) t c.k c.v1 c.v2 c.v3) t
          = .ok t' ∧
        Represents hashobj n t' (putRows m l) ∧
        t'.vertices = t.vertices ∪ (l.map (·.k)).toFinset := by
  induction l with
  | nil => exact fun {t m} h _ => ⟨t, rfl, h, by simp⟩
  | cons c l ih =>
    intro t m h hroom
    rw [List.length_cons] at hroom
    obtain ⟨t₁, hput, hrep, hv⟩ := h.put depth (k := c.k) (Or.inr (by omega)) c.v1 c.v2 c.v3
    have hcard : t₁.vertices.card ≤ t.vertices.card + 1 := by
      rw [hv]
      exact Finset.card_insert_le c.k t.vertices
    obtain ⟨t', hfold, hrep', hv'⟩ := ih hrep (by omega)
    refine ⟨t', ?_, hrep', ?_⟩
    · rw [List.foldlM_cons, hput, Fallible.ok_bind, hfold]
    · rw [hv', hv, List.map_cons, List.toFinset_cons, Finset.insert_union, Finset.union_insert]

variable (hashobj kernel) in
/-- The table that `resize` starts to fill, and the loop over the old entries. -/
theorem resize_eq (depth : ℕ) (hn : 0 < n) (hfits : n ≤ intMax) (hne : t.size ≠ n) :
    ∃ t₁, clear { t with buckets := resizeBuckets t.buckets n, size := n } = .ok t₁ ∧
      resize hashobj kernel depth t n
        = t.stored.foldlM (fun t c => put hashobj kernel depth t c.k c.v1 c.v2 c.v3) t₁ := by
  have hclear : clear { t with buckets := resizeBuckets t.buckets n, size := n } = .ok _ :=
    if_pos hfits
  refine ⟨_, hclear, ?_⟩
  unfold resize resizeWith
  rw [if_neg (by omega), if_neg (by omega), Int.toNat_natCast, hclear, Fallible.ok_bind, stored,
    List.foldlM_filter]
  rfl

variable (hashobj) in
/-- The table that `resize` starts to fill holds the empty map. -/
theorem represents_clear (hn : 0 < n) {t' : StateTable K V D}
    (h : clear { t with buckets := resizeBuckets t.buckets n, size := n } = .ok t') :
    Represents hashobj n t' (fun _ => none) ∧ t'.vertices = ∅ := by
  obtain ⟨hwf, hst, hsize, hent⟩ := wf_clear hashobj hn h
  have hv : t'.vertices = ∅ := by simp [vertices, hst]
  refine ⟨⟨hwf, hsize, fun k => ?_, by rw [hent, hv, Finset.card_empty]⟩, hv⟩
  rw [find_eq_none_iff.2 (by simp [hst]), Option.map_none]

variable (hashobj kernel) in
/-- **What `resize` makes of a table**, if the capacity changes and there is enough room. -/
theorem resize_represents (depth : ℕ) (hn : 0 < n) (hfits : n ≤ intMax) (hne : t.size ≠ n)
    (hroom : t.stored.length ≤ n) :
    ∃ t', resize hashobj kernel (depth + 1) t n = .ok t' ∧
      Represents hashobj n t' (putRows (fun _ => none) t.stored) ∧
      t'.vertices = t.vertices := by
  obtain ⟨t₁, hclear, hresize⟩ := resize_eq hashobj kernel (depth + 1) hn hfits hne
  obtain ⟨hrep, hv⟩ := represents_clear hashobj hn hclear
  obtain ⟨t', hfold, hrep', hv'⟩ := hrep.refill kernel depth t.stored
    (by rw [hv, Finset.card_empty]; omega)
  rw [hv, Finset.empty_union] at hv'
  exact ⟨t', by rw [hresize, hfold], hrep', hv'⟩

omit [DecidableEq K] in
/-- A capacity that an `int` cannot count. -/
theorem resizeWith_overflow
    {put : StateTable K V D → K → V → V → D → Except Fault (StateTable K V D)}
    (hsize : t.size ≤ intMax) (hn : intMax < n) : resizeWith put t n = .error .intOverflow := by
  have hclear : clear { t with buckets := resizeBuckets t.buckets n, size := n }
      = .error .intOverflow := if_neg (not_le.2 hn)
  unfold resizeWith
  rw [if_neg (by omega), if_neg (by omega), Int.toNat_natCast, hclear]
  rfl

/-- The result of `resize` answers as the table, if there is enough room. -/
theorem WF.resize_answers (hwf : WF hashobj t) (depth : ℕ) (hn : 0 < n) (hfits : n ≤ intMax)
    (hroom : t.stored.length ≤ n) :
    ∃ t', resize hashobj kernel (depth + 1) t n = .ok t' ∧ t'.size = n ∧
      Answers hashobj t' t.contents := by
  by_cases heq : t.size = n
  · refine ⟨t, ?_, heq, hwf.answers⟩
    unfold resize resizeWith
    rw [if_neg (by omega), if_pos (by omega)]
  · obtain ⟨t', hresize, hrep, -⟩ := resize_represents hashobj kernel depth hn hfits heq hroom
    rw [hwf.contents_eq_putRows] at hrep
    exact ⟨t', hresize, hrep.size, hrep.answers⟩

/-- **Rehashing keeps the map**: in every table of a run, `resize` to a capacity with room for all
entries gives a table that stores the same keys with the same values, exactly if an `int` can count
the buckets.  The loop never nests a second `put`. -/
theorem rehash_iff [Zero V] {t₀ : StateTable K V D} {depth₀ : ℕ} {size₀ : ℤ}
    (hnew : new hashobj kernel depth₀ size₀ = .ok t₀)
    (h : LTS.Reaches (OpStep hashobj kernel) t₀ t) (depth : ℕ) (hn : 1 ≤ n)
    (hroom : t.stored.length ≤ n) :
    (∃ t', resize hashobj kernel (depth + 1) t n = .ok t' ∧ t'.size = n ∧
      ∀ k, t'.contains hashobj k = t.contains hashobj k ∧
        t'.getF1 hashobj k = t.getF1 hashobj k ∧ t'.getF2 hashobj k = t.getF2 hashobj k ∧
        t'.getF3 hashobj k = t.getF3 hashobj k) ↔ n ≤ intMax := by
  have hwf : WF hashobj t := wf_of_reaches hnew h
  constructor
  · rintro ⟨t', hresize, -⟩
    by_contra hlt
    rw [resize, resizeWith_overflow hwf.fits (not_le.1 hlt)] at hresize
    cases hresize
  · intro hfits
    obtain ⟨t', hresize, hsize, hans⟩ := hwf.resize_answers depth hn hfits hroom
    exact ⟨t', hresize, hsize, hans.congr hwf.answers⟩

/-- Three keys in a table of five buckets, which is full after `resize` to three. -/
theorem rehash_threeKeys : ∃ t t' : StateTable Int32 ℚ (List Int32),
    t.size = 5 ∧ t.stored.length = 3 ∧
      resize (fun _ => 0) pagerankIterateKernel 1 t 3 = .ok t' ∧ t'.size = 3 ∧
      ∀ k, t'.contains (fun _ => 0) k = t.contains (fun _ => 0) k := by
  obtain ⟨t₀, hnew, t, hops, hsize, hlen⟩ : ∃ t₀, new (fun _ => 0) pagerankIterateKernel 1 5
      = .ok t₀ ∧ ∃ t, [Op.call (.put 1 0.2 0 [2]), .call (.put 2 0.2 0 []),
        .call (.put 3 0 0 [])].foldlM
          (fun t o => Op.exec (fun _ => 0) pagerankIterateKernel 1 t o) t₀ = .ok t ∧
        t.size = 5 ∧ t.stored.length = 3 :=
    ⟨⟨List.replicate 5 ⟨0, 0, 0, [], 0, false⟩, 0, 5, 0⟩, by decide +kernel,
      ⟨[⟨1, 0.2, 0, [2], 0.2, true⟩, ⟨2, 0.2, 0, [], 0.2, true⟩, ⟨3, 0, 0, [], 0, true⟩,
        ⟨0, 0, 0, [], 0, false⟩, ⟨0, 0, 0, [], 0, false⟩], 3, 5, 0⟩, by decide +kernel⟩
  obtain ⟨t', hresize, hsize', hkeys⟩ := (rehash_iff hnew (reaches_of_foldlM _ hops) 0
    (n := 3) (by decide) hlen.le).2 (by decide)
  exact ⟨t, t', hsize, hlen, hresize, hsize', fun k => (hkeys k).1⟩

/-- An empty table, resized to one bucket more than an `int` can count. -/
theorem not_rehash_overflow : ∃ t : StateTable Int32 ℚ (List Int32),
    new (fun _ => 0) pagerankIterateKernel 1 1 = .ok t ∧ t.stored = [] ∧
      resize (fun _ => 0) pagerankIterateKernel 1 t 2147483648 = .error .intOverflow :=
  ⟨⟨[⟨0, 0, 0, [], 0, false⟩], 0, 1, 0⟩, by decide +kernel, by decide +kernel,
    resizeWith_overflow (n := 2147483648) (by decide) (by decide)⟩

/-! ### Growth -/

/-- The capacity that `put` asks for is a positive `int` below half of the bound, and else a
negative one. -/
theorem toInt32_grow {size : ℕ} (hfits : size ≤ intMax) :
    toInt32 (1 + size * 2) =
      if size ≤ 1073741823 then 1 + (size : ℤ) * 2 else 1 + (size : ℤ) * 2 - 4294967296 := by
  have hmod : (1 + (size : ℤ) * 2) % 4294967296 = 1 + size * 2 := by
    have hmax : intMax = 2147483647 := rfl
    exact Int.emod_eq_of_lt (by omega) (by omega)
  have hnat : (1 + (size : ℤ) * 2).toNat = 1 + size * 2 := by omega
  unfold toInt32
  simp only [hmod, hnat, intMax]
  split_ifs <;> omega

/-- What `put` does in its growth branch. -/
theorem put_grow {k : K} {b : ℕ}
    (hprobe : t.probe k (t.bucketIdx hashobj k) t.size (t.bucketIdx hashobj k) = .ok (b, false))
    (hent : t.size < t.entries) (depth : ℕ) (v1 v2 : V) (v3 : D) :
    put hashobj kernel (depth + 1) t k v1 v2 v3 = (do
      let t ← resize hashobj kernel depth t (toInt32 (1 + t.size * 2))
      let t ← put hashobj kernel depth t k v1 v2 v3
      return { t with entries := t.entries + 1 }) := by
  simp [put, hprobe, hent, resize]

/-- **Growth is safe** exactly below half of the bound: the capacity that `put` asks for is positive
and larger than before, and `put` returns with the key stored. -/
theorem growth_safe_iff (hlen : t.buckets.length = t.size) (hpos : 1 ≤ t.size)
    (hfits : t.size ≤ intMax) {k : K} {b : ℕ}
    (hprobe : t.probe k (t.bucketIdx hashobj k) t.size (t.bucketIdx hashobj k) = .ok (b, false))
    (hent : t.size < t.entries) (v1 v2 : V) (v3 : D) :
    (0 < toInt32 (1 + t.size * 2) ∧ (t.size : ℤ) < toInt32 (1 + t.size * 2) ∧
      ∀ depth, ∃ t', put hashobj kernel (depth + 2) t k v1 v2 v3 = .ok t' ∧
        t'.contains hashobj k = .ok true ∧ t'.getF1 hashobj k = .ok v1 ∧
        t'.getF2 hashobj k = .ok v2 ∧ t'.getF3 hashobj k = .ok v3) ↔ t.size ≤ 1073741823 := by
  rw [toInt32_grow hfits]
  constructor
  · rintro ⟨hgrow, -⟩
    by_contra hlarge
    rw [if_neg hlarge] at hgrow
    have hmax : intMax = 2147483647 := rfl
    omega
  · intro hsmall
    rw [if_pos hsmall]
    refine ⟨by omega, by omega, fun depth => ?_⟩
    have hmax : intMax = 2147483647 := rfl
    have hroom : t.stored.length ≤ t.size := by
      rw [← hlen]
      exact List.length_filter_le _ _
    obtain ⟨t₁, hresize, hrep, hv⟩ := resize_represents hashobj kernel depth (t := t)
      (n := 1 + t.size * 2) (by omega) (by omega) (by omega) (by omega)
    have hcard : t₁.vertices.card ≤ t.stored.length := by
      rw [hv, ← List.length_map (·.k)]
      exact List.toFinset_card_le _
    obtain ⟨t₂, hput, hrep', -⟩ := hrep.put depth (k := k) (Or.inr (by omega)) v1 v2 v3
    -- the answers do not depend on the counter
    have hans : Answers hashobj { t₂ with entries := t₂.entries + 1 } t₂.contents :=
      (hrep'.wf.withCounters _ _).answers
    have hrow := hans k
    rw [hrep'.contents_eq, Function.update_self] at hrow
    refine ⟨{ t₂ with entries := t₂.entries + 1 }, ?_, hrow.1, hrow.2.1, hrow.2.2.1,
      hrow.2.2.2.1⟩
    rw [put_grow hprobe hent, toInt32_grow hfits, if_pos hsmall]
    push_cast at hresize
    rw [hresize, Fallible.ok_bind, hput]
    rfl

theorem growth_safe_oneBucket : ∃ t', put (fun _ => 0) pagerankIterateKernel 2
    (⟨[⟨2, 0.2, 0, [], 0.2, true⟩], 2, 1, 0⟩ : StateTable Int32 ℚ (List Int32)) 3 0.5 1 [2]
      = .ok t' ∧
      t'.contains (fun _ => 0) 3 = .ok true ∧ t'.getF1 (fun _ => 0) 3 = .ok 0.5 ∧
      t'.getF2 (fun _ => 0) 3 = .ok 1 ∧ t'.getF3 (fun _ => 0) 3 = .ok [2] :=
  ((growth_safe_iff (t := ⟨[⟨2, 0.2, 0, [], 0.2, true⟩], 2, 1, 0⟩) (k := 3) (b := 0) rfl
    (by decide) (by decide) (by decide +kernel) (by decide) 0.5 1 [2]).2 (by decide)).2.2 0

/-- The growth of a table that is too large. -/
theorem put_assertion (hfits : t.size ≤ intMax) {k : K} {b : ℕ}
    (hprobe : t.probe k (t.bucketIdx hashobj k) t.size (t.bucketIdx hashobj k) = .ok (b, false))
    (hent : t.size < t.entries) (hsize : 1073741824 ≤ t.size) (depth : ℕ) (v1 v2 : V) (v3 : D) :
    put hashobj kernel (depth + 1) t k v1 v2 v3 = .error .assertion := by
  have hneg : toInt32 (1 + t.size * 2) ≤ 0 := by
    have hmax : intMax = 2147483647 := rfl
    rw [toInt32_grow hfits, if_neg (by omega)]
    omega
  rw [put_grow hprobe hent, resize, resizeWith, if_pos hneg]
  rfl

variable (hashobj kernel) in
/-- As many different keys as there are buckets, put into a table. -/
theorem exists_full [Zero V] (depth : ℕ) (hn : 0 < n) (hfits : n ≤ intMax) {key : ℕ → K}
    (hinj : ∀ i < n, ∀ j < n, key i = key j → i = j) (v : V) (d : D) :
    ∃ t, execAll hashobj kernel (depth + 1) n ((List.range n).map fun i => .put (key i) v v d)
        = .ok t ∧
      WF hashobj t ∧ t.size = n ∧ t.entries = n ∧ ∀ k ∈ t.vertices, ∃ i < n, key i = k := by
  have hvalid : Valid kernel ((List.range n).map fun i => Call.put (key i) v v d) := by
    refine valid_of_puts fun c hc => ?_
    obtain ⟨i, -, rfl⟩ := List.mem_map.1 hc
    exact Option.some_ne_none (key i)
  have hkeys : putKeys ((List.range n).map fun i => Call.put (key i) v v d)
      = (Finset.range n).image key := by
    ext k
    simp [putKeys, Call.putKey]
  have hcard : ((Finset.range n).image key).card = n := by
    rw [Finset.card_image_of_injOn, Finset.card_range]
    intro i hi j hj
    rw [Finset.coe_range, Set.mem_Iio] at hi hj
    exact hinj i hi j hj
  obtain ⟨t, ht, hrep, hv⟩ := represents_execAll hashobj depth hn hfits _ hvalid
    (by rw [hkeys, hcard])
  refine ⟨t, ht, hrep.wf, hrep.size, by rw [hrep.entries, hv, hkeys, hcard], fun k hk => ?_⟩
  rw [hv, hkeys, Finset.mem_image] at hk
  obtain ⟨i, hi, rfl⟩ := hk
  exact ⟨i, Finset.mem_range.1 hi, rfl⟩

variable (hashobj kernel) in
/-- One key more takes the place of another one, and is counted. -/
theorem exists_overfull [Zero V] (depth : ℕ) (hn : 0 < n) (hfits : n ≤ intMax) {key : ℕ → K}
    (hinj : ∀ i ≤ n + 1, ∀ j ≤ n + 1, key i = key j → i = j) (v : V) (d : D) :
    ∃ t, execAll hashobj kernel (depth + 1) n ((List.range (n + 1)).map fun i =>
        .put (key i) v v d) = .ok t ∧
      WF hashobj t ∧ t.size = n ∧ t.entries = n + 1 ∧ t.find (key (n + 1)) = none := by
  obtain ⟨t, ht, hwf, hsize, hent, hkeys⟩ := exists_full hashobj kernel depth hn hfits
    (fun i hi j hj => hinj i (by omega) j (by omega)) v d
  have hnew : ∀ i, n ≤ i → i ≤ n + 1 → t.find (key i) = none := by
    intro i hi hi'
    rw [← Option.not_isSome_iff_eq_none, find_isSome_iff]
    intro hmem
    obtain ⟨j, hj, hij⟩ := hkeys _ hmem
    have := hinj j (by omega) i hi' hij
    omega
  obtain ⟨b, hstop, hput⟩ := hwf.put_succ kernel depth (key n) v v d
  rw [hnew n le_rfl (by omega), if_neg (by simp), if_neg (by omega)] at hput
  have hwf' := hwf.putAt hstop (e := entry kernel (key n) v v d) rfl rfl (t.entries + 1)
  refine ⟨_, ?_, hwf', hsize, congrArg (· + 1) hent, ?_⟩
  · rw [List.range_succ, List.map_append, List.map_singleton, execAll_append, ht]
    simp [Call.exec, hput]
  · rw [find_eq_none_iff]
    intro c hc
    rcases mem_stored_putAt hc with rfl | hc
    · intro hk
      have := hinj n (by omega) (n + 1) le_rfl hk
      omega
    · exact find_eq_none_iff.1 (hnew (n + 1) (by omega) le_rfl) c hc

/-- With `1073741824` buckets, as many keys, one key that overwrites another one, and one more key,
`put` asks for a negative capacity. -/
theorem not_growth_safe_large : ∃ calls : List (Call Int32 ℚ (List Int32)), ∃ t,
    execAll (fun _ => 0) pagerankIterateKernel 1 1073741824 calls = .ok t ∧
      t.size = 1073741824 ∧ t.size < t.entries ∧ toInt32 (1 + t.size * 2) = -2147483647 ∧
      ∃ k, t.contains (fun _ => 0) k = .ok false ∧
        ∀ depth, put (fun _ => 0) pagerankIterateKernel (depth + 1) t k 0 0 []
          = .error .assertion := by
  have hinj : ∀ i ≤ 1073741825, ∀ j ≤ 1073741825, Int32.ofNat i = Int32.ofNat j → i = j := by
    intro i hi j hj hij
    have hint := congrArg Int32.toInt hij
    rw [Int32.toInt_ofNat_of_lt (by omega), Int32.toInt_ofNat_of_lt (by omega)] at hint
    omega
  obtain ⟨t, ht, hwf, hsize, hent, hnone⟩ := exists_overfull (fun _ : Int32 => 0)
    pagerankIterateKernel 0 (n := 1073741824) (by decide) (by decide) hinj 0 []
  refine ⟨_, t, ht, hsize, by omega, ?_, Int32.ofNat 1073741825, ?_, fun depth => ?_⟩
  · rw [toInt32_grow hwf.fits, hsize]
    rfl
  · rw [hwf.contains_eq, hnone]
    rfl
  · obtain ⟨b, -, hprobe⟩ := hwf.probe_stops (Int32.ofNat 1073741825)
    rw [hnone] at hprobe
    exact put_assertion hwf.fits hprobe (by omega) (by omega) depth 0 0 []

end StateTable

end Maiter
