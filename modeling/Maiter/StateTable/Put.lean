import Maiter.StateTable.Probe

/-!
# Insertion and rehashing keep the probe-chain invariant

* `putAt`: the table after `put` has written a bucket; `WF.putAt`: the invariant is kept wherever
  the probe loop of `put` stopped, also when it overwrites the home bucket of a full table;
* `WF.put_succ`: what a call of `put` on a table with `WF` can do;
* `Good P`: `WF`, and every stored bucket satisfies `P`.  `good_put`, `good_resize`, `good_new`:
  every call of `put`, `resize` and the constructor that returns keeps it, at any nesting depth;
* `load`, `good_load`: the table built from the rows of an input file by `init_table` and
  `read_file`.
-/

namespace Maiter

namespace StateTable

open LinearProbing
open Fallible (bind_eq_ok_iff foldlM_invariant)

variable {K V D : Type}

/-- The table after `put` has written the bucket `e` to position `b`. -/
def putAt (t : StateTable K V D) (b : ℕ) (e : Bucket K V D) (entries : ℕ) : StateTable K V D :=
  { t with buckets := t.buckets.set b e, entries := entries }

@[simp] theorem putAt_size (t : StateTable K V D) (b : ℕ) (e : Bucket K V D) (m : ℕ) :
    (t.putAt b e m).size = t.size := rfl

variable {hashobj : K → ℕ} {kernel : IterateKernel K V D} {t : StateTable K V D}

theorem layout_putAt {b : ℕ} (hb : b < t.buckets.length) (e : Bucket K V D)
    (he : e.inUse = true) (m : ℕ) :
    (t.putAt b e m).layout = Function.update t.layout b (some e.k) := by
  funext i
  by_cases hi : i = b
  · subst hi
    simp [layout, putAt, hb, he]
  · simp [layout, putAt, Function.update_of_ne hi, List.getElem?_set_ne (Ne.symm hi)]

theorem mem_stored_putAt {b : ℕ} {e c : Bucket K V D} {m : ℕ} (hc : c ∈ (t.putAt b e m).stored) :
    c = e ∨ c ∈ t.stored := by
  rw [mem_stored] at hc
  rcases List.mem_or_eq_of_mem_set hc.1 with h | h
  · exact Or.inr (mem_stored.2 ⟨h, hc.2⟩)
  · exact Or.inl h

theorem mem_stored_putAt_self {b : ℕ} (hb : b < t.buckets.length) {e : Bucket K V D}
    (he : e.inUse = true) (m : ℕ) : e ∈ (t.putAt b e m).stored :=
  mem_stored.2 ⟨List.mem_of_getElem? (i := b) (by simp [putAt, hb]), he⟩

theorem mem_stored_putAt_of_ne {b i : ℕ} {e c : Bucket K V D} {m : ℕ} (hi : i ≠ b)
    (hc : t.buckets[i]? = some c) (hu : c.inUse = true) : c ∈ (t.putAt b e m).stored :=
  mem_stored.2 ⟨List.mem_of_getElem? (i := i) (by
    simp [putAt, List.getElem?_set_ne (Ne.symm hi), hc]), hu⟩

/-- Where the probe loop of `put` can stop: at the key, at the first empty bucket, or at the home
bucket of a full table. -/
inductive StopsAt (hashobj : K → ℕ) (t : StateTable K V D) (k : K) : ℕ → Prop
  | hit {j : ℕ} : Hit t.size (t.bucketIdx hashobj) t.layout k j →
      StopsAt hashobj t k (slot t.size (t.bucketIdx hashobj k) j)
  | gap {j : ℕ} : Gap t.size (t.bucketIdx hashobj) t.layout k j →
      StopsAt hashobj t k (slot t.size (t.bucketIdx hashobj k) j)
  | full : Full t.size (t.bucketIdx hashobj) t.layout k →
      StopsAt hashobj t k (t.bucketIdx hashobj k)

theorem StopsAt.lt {k : K} {b : ℕ} (hpos : 0 < t.size) (h : StopsAt hashobj t k b) :
    b < t.size := by
  cases h with
  | hit => exact slot_lt hpos
  | gap => exact slot_lt hpos
  | full => exact bucketIdx_lt hpos k

/-- Writing the bucket where the probe loop stopped keeps the invariant. -/
theorem WF.putAt (hwf : WF hashobj t) {k : K} {b : ℕ} (hstop : StopsAt hashobj t k b)
    {e : Bucket K V D} (hu : e.inUse = true) (hk : e.k = k) (m : ℕ) :
    WF hashobj (t.putAt b e m) where
  len := by simpa [StateTable.putAt] using hwf.len
  pos := hwf.pos
  fits := hwf.fits
  chained := by
    have hidx : (t.putAt b e m).bucketIdx hashobj = t.bucketIdx hashobj := rfl
    rw [layout_putAt (by rw [hwf.len]; exact hstop.lt hwf.pos) e hu m, putAt_size, hidx, hk]
    cases hstop with
    | hit hhit => rw [← hhit.2.2, Function.update_eq_self]; exact hwf.chained
    | gap hgap => exact hwf.chained.insert hgap
    | full hfull => exact hwf.chained.overwrite (bucketIdx_lt hwf.pos k) hfull

/-! ### Clearing and resizing -/

theorem layout_clear (l : List (Bucket K V D)) (m n u : ℕ) :
    layout (⟨l.map fun c => { c with inUse := false }, m, n, u⟩ : StateTable K V D)
      = fun _ => none := by
  funext b
  rw [layout_eq_none_iff]
  intro c hc
  simp only [List.getElem?_map, Option.map_eq_some_iff] at hc
  obtain ⟨c', -, rfl⟩ := hc
  rfl

theorem clear_eq_ok {t' : StateTable K V D} (h : t.clear = .ok t') :
    t.size ≤ intMax ∧ t' = ⟨t.buckets.map fun c => { c with inUse := false }, 0, t.size,
      t.totalUpdates⟩ := by
  unfold clear at h
  split_ifs at h with hsize
  cases h
  exact ⟨hsize, rfl⟩

theorem length_resizeBuckets [Inhabited (Bucket K V D)] (l : List (Bucket K V D)) (n : ℕ) :
    (resizeBuckets l n).length = n := by
  simp [resizeBuckets]
  omega

variable (hashobj) in
/-- The table `resize` starts to fill again: cleared, with the new capacity. -/
theorem wf_clear [Inhabited (Bucket K V D)] {n : ℕ} (hn : 0 < n) {t' : StateTable K V D}
    (h : clear { t with buckets := resizeBuckets t.buckets n, size := n } = .ok t') :
    WF hashobj t' ∧ t'.stored = [] ∧ t'.size = n ∧ t'.entries = 0 := by
  obtain ⟨hfits, rfl⟩ := clear_eq_ok h
  refine ⟨⟨by simp [length_resizeBuckets], hn, hfits, ?_⟩, ?_, rfl, rfl⟩
  · rw [layout_clear]
    exact chained_empty _ _
  · simp [stored]

/-! ### What `put` does -/

variable [DecidableEq K]

/-- The probe loop of `put` stops at a bucket where `StopsAt` holds; the flag `found` says
whether the key is stored. -/
theorem WF.probe_stops (hwf : WF hashobj t) (k : K) :
    ∃ b, StopsAt hashobj t k b ∧
      t.probe k (t.bucketIdx hashobj k) t.size (t.bucketIdx hashobj k)
        = .ok (b, (t.find k).isSome) := by
  rcases probe_cases hashobj hwf.len hwf.pos k with
    ⟨i, hhit, hp⟩ | ⟨i, hgap, hp⟩ | ⟨hfull, hp⟩
  · refine ⟨_, .hit hhit, ?_⟩
    obtain ⟨c, hc, hk⟩ := exists_layout_iff.1 ⟨_, hhit.2.2⟩
    rw [hp, hwf.find_eq_some_iff.2 ⟨hc, hk⟩]
    rfl
  · refine ⟨_, .gap hgap, ?_⟩
    rw [hp, find_eq_none_of_layout (hwf.chained.gap hgap)]
    rfl
  · refine ⟨_, .full hfull, ?_⟩
    rw [hp, find_eq_none_of_layout (hwf.chained.full hfull)]
    rfl

variable [Inhabited (Bucket K V D)]

variable (kernel) in
/-- **What a call of `put` does**: it replaces a stored entry; or it writes a new one where the
probe loop stopped, if the counter does not exceed the capacity; or else it grows the table and
puts the entry there. -/
theorem WF.put_succ (hwf : WF hashobj t) (depth : ℕ) (k : K) (v1 v2 : V) (v3 : D) :
    ∃ b, StopsAt hashobj t k b ∧ put hashobj kernel (depth + 1) t k v1 v2 v3 =
      if (t.find k).isSome then .ok (t.putAt b (entry kernel k v1 v2 v3) t.entries)
      else if t.entries > t.size then do
        let t ← resize hashobj kernel depth t (toInt32 (1 + t.size * 2))
        let t ← put hashobj kernel depth t k v1 v2 v3
        return { t with entries := t.entries + 1 }
      else .ok (t.putAt b (entry kernel k v1 v2 v3) (t.entries + 1)) := by
  obtain ⟨b, hstop, hp⟩ := hwf.probe_stops k
  refine ⟨b, hstop, ?_⟩
  cases hf : (t.find k).isSome <;> rw [hf] at hp <;>
    simp [put, hp, StateTable.putAt, resize]

/-! ### Invariants of every stored entry -/

/-- `WF`, and every stored bucket satisfies `P`. -/
structure Good (hashobj : K → ℕ) (P : Bucket K V D → Prop) (t : StateTable K V D) : Prop where
  wf : WF hashobj t
  all : ∀ c ∈ t.stored, P c

variable {P : Bucket K V D → Prop}

omit [DecidableEq K] in
/-- A resize that changes the capacity, or is asked of a table with `WF`. -/
theorem good_resizeWith
    {put : StateTable K V D → K → V → V → D → Except Fault (StateTable K V D)}
    (hput : ∀ t c t', Good hashobj P t → P c → put t c.k c.v1 c.v2 c.v3 = .ok t' →
      Good hashobj P t')
    {t t' : StateTable K V D} (ht : t.size = 0 ∨ WF hashobj t) (hall : ∀ c ∈ t.stored, P c)
    {n : ℤ} (h : resizeWith put t n = .ok t') : Good hashobj P t' := by
  unfold resizeWith at h
  split_ifs at h with hn heq
  · cases h
    exact ⟨ht.resolve_left (by omega), hall⟩
  · obtain ⟨t₁, hclear, hloop⟩ := bind_eq_ok_iff.1 h
    obtain ⟨hwf, hst, -⟩ := wf_clear hashobj (by omega) hclear
    refine foldlM_invariant t.buckets (fun c hc s s' hs hturn => ?_) ⟨hwf, by simp [hst]⟩ hloop
    split_ifs at hturn with hu
    · exact hput s c s' hs (hall c (mem_stored.2 ⟨hc, hu⟩)) hturn
    · cases hturn
      exact hs

/-- The property of entries that `put` writes when it is given the fields of `c`. -/
def Rewritable (kernel : IterateKernel K V D) (P : Bucket K V D → Prop) : Prop :=
  ∀ c, P c → P (entry kernel c.k c.v1 c.v2 c.v3)

omit [DecidableEq K] [Inhabited (Bucket K V D)] in
theorem good_putAt (ht : Good hashobj P t) {k : K} {b : ℕ} (hstop : StopsAt hashobj t k b)
    {v1 v2 : V} {v3 : D} (hP : P (entry kernel k v1 v2 v3)) (m : ℕ) :
    Good hashobj P (t.putAt b (entry kernel k v1 v2 v3) m) where
  wf := ht.wf.putAt hstop rfl rfl m
  all c hc := by
    rcases mem_stored_putAt hc with rfl | hc
    · exact hP
    · exact ht.all c hc

/-- **`put` keeps the invariant**, however deep it nests. -/
theorem good_put (hP : Rewritable kernel P) (depth : ℕ) :
    ∀ t k v1 v2 v3 t', Good hashobj P t → P (entry kernel k v1 v2 v3) →
      put hashobj kernel depth t k v1 v2 v3 = .ok t' → Good hashobj P t' := by
  induction depth with
  | zero => intro t k v1 v2 v3 t' _ _ h; cases h
  | succ depth ih =>
    intro t k v1 v2 v3 t' ht hnew h
    obtain ⟨b, hstop, heq⟩ := ht.wf.put_succ kernel depth k v1 v2 v3
    rw [heq] at h
    split_ifs at h with hfind hfull
    · cases h
      exact good_putAt ht hstop hnew _
    · -- the table grows first
      obtain ⟨t₁, hgrow, h⟩ := bind_eq_ok_iff.1 h
      obtain ⟨t₂, hput, h⟩ := bind_eq_ok_iff.1 h
      cases h
      have ht₁ : Good hashobj P t₁ := good_resizeWith
        (fun t c t' ht hc h => ih t c.k c.v1 c.v2 c.v3 t' ht (hP c hc) h)
        (Or.inr ht.wf) ht.all hgrow
      have ht₂ : Good hashobj P t₂ := ih t₁ k v1 v2 v3 t₂ ht₁ hnew hput
      exact ⟨ht₂.wf.withCounters _ _, ht₂.all⟩
    · cases h
      exact good_putAt ht hstop hnew _

/-- **`resize` keeps the invariant**, also when it shrinks the table. -/
theorem good_resize (hP : Rewritable kernel P) (depth : ℕ) {t t' : StateTable K V D}
    (ht : Good hashobj P t) {n : ℤ} (h : resize hashobj kernel depth t n = .ok t') :
    Good hashobj P t' :=
  good_resizeWith (fun t c t' ht hc h =>
    good_put hP depth t c.k c.v1 c.v2 c.v3 t' ht (hP c hc) h) (Or.inr ht.wf) ht.all h

/-- The constructor establishes the invariant. -/
theorem good_new (hP : Rewritable kernel P) (depth : ℕ) {n : ℤ} {t : StateTable K V D}
    (h : new hashobj kernel depth n = .ok t) : Good hashobj P t :=
  good_resizeWith (t := ⟨[], 0, 0, 0⟩) (fun t c t' ht hc h =>
    good_put hP depth t c.k c.v1 c.v2 c.v3 t' ht (hP c hc) h) (Or.inl rfl)
    (by simp [stored]) h

/-! ### Loading -/

variable (hashobj kernel)

/-- The table after `init_table`: constructed with one bucket, resized to `numNodes`, and filled
by `read_file` with one `put` for each row `(k, data)` of the input. -/
def load (depth : ℕ) (numNodes : ℤ) (rows : List (K × D)) : Except Fault (StateTable K V D) := do
  let t ← new hashobj kernel depth 1
  let t ← resize hashobj kernel depth t numNodes
  rows.foldlM (fun t r => put hashobj kernel depth t r.1 (kernel.initC r.1 r.2)
    (kernel.initV r.1 r.2) r.2) t

variable {hashobj kernel}

/-- **A loaded table** satisfies every property that the initial entries have. -/
theorem good_load (hP : Rewritable kernel P)
    (hinit : ∀ k d, P (entry kernel k (kernel.initC k d) (kernel.initV k d) d)) {depth : ℕ}
    {numNodes : ℤ} {rows : List (K × D)} {t : StateTable K V D}
    (h : load hashobj kernel depth numNodes rows = .ok t) : Good hashobj P t := by
  obtain ⟨t₁, hnew, h⟩ := bind_eq_ok_iff.1 h
  obtain ⟨t₂, hresize, hrows⟩ := bind_eq_ok_iff.1 h
  have ht₂ : Good hashobj P t₂ := good_resize hP depth (good_new hP depth hnew) hresize
  exact foldlM_invariant rows (fun r _ s s' hs hput =>
    good_put hP depth s _ _ _ _ s' hs (hinit r.1 r.2) hput) ht₂ hrows

end StateTable

end Maiter
