import Maiter.Iterators

/-!
# A full scan covers the table exactly once

The intervals of an `Iterator`, for any number of threads.  With more threads than buckets some
intervals are empty, and `run_loop` takes a fatal branch for their threads; the two checks that
lead there are left out here.

* `KVVPair.positions`: the positions of an interval;
* `scanLoop`, `runLoop_eq_scanLoop`: the loop of `run_loop` without the checks;
* `mem_positions_iff`, `scanLoop_eq`: the interval of a thread is a piece of the table;
* `pairwise_disjoint_divide`, `exists_mem_positions_iff`: the intervals are disjoint, and they cover
  the table;
* `full_scan`: the loops of all threads together visit every in-use bucket exactly once.
-/

namespace Maiter

variable {K V D : Type}

/-- The positions of an interval. -/
def KVVPair.positions (iv : KVVPair) : Set ℤ := Set.Icc iv.intervalFirst iv.intervalLast

/-- The loop over positions in `run_loop`, without the checks for an unknown thread before it. -/
def scanLoop (isInUse : ℕ → Except Fault Bool) (key : ℕ → Except Fault K)
    (threadInterval : List KVVPair) (threadId : ℕ) : Except Fault (List K) :=
  let first := threadBegin threadInterval threadId
  let last := threadEnd threadInterval threadId
  walk isInUse key (List.range' first.toNat (last + 1 - first).toNat)

theorem runLoop_eq_scanLoop (isInUse : ℕ → Except Fault Bool) (key : ℕ → Except Fault K)
    (threadInterval : List KVVPair) (threadId : ℕ) :
    runLoop isInUse key threadInterval threadId =
      if threadBegin threadInterval threadId = -1 ∨ threadEnd threadInterval threadId = -1
      then .error .noInterval else scanLoop isInUse key threadInterval threadId := rfl

section Divide

variable {threadInterval : List KVVPair} {count i : ℕ}

theorem mem_positions_iff (hi : i < threadInterval.length) {iv : KVVPair}
    (hiv : (divide threadInterval.length count threadInterval)[i]? = some iv) (pos : ℤ) :
    pos ∈ iv.positions ↔ ∃ p ∈ chunk threadInterval.length count i, (p : ℤ) = pos := by
  rw [getElem?_divide hi, Option.some.injEq] at hiv
  rw [chunk_eq_range', ← hiv, KVVPair.positions, Set.mem_Icc]
  simp only [List.mem_range'_1]
  constructor
  · rintro ⟨hfirst, hlast⟩
    exact ⟨pos.toNat, by omega, by omega⟩
  · rintro ⟨p, hp, rfl⟩
    omega

/-- The loop of the `i`-th thread is over the `i`-th piece, which may be empty. -/
theorem scanLoop_eq (hid : (threadInterval.map (·.threadId)).Nodup)
    (hi : i < threadInterval.length) (isInUse : ℕ → Except Fault Bool)
    (key : ℕ → Except Fault K) :
    scanLoop isInUse key (divide threadInterval.length count threadInterval)
        threadInterval[i].threadId
      = walk isInUse key (chunk threadInterval.length count i) := by
  have hfind := find_divide threadInterval.length count hid hi
  rw [getElem?_divide hi] at hfind
  unfold scanLoop threadBegin threadEnd
  rw [hfind]
  conv_rhs => rw [chunk_eq_range']
  simp only [Option.elim_some]
  congr 2
  omega

/-- No position is in two pieces. -/
theorem disjoint_chunk (h1 : 1 ≤ threadInterval.length) {j : ℕ} (hj : j < threadInterval.length)
    (hij : i < j) : (chunk threadInterval.length count i).Disjoint
      (chunk threadInterval.length count j) := by
  have hnodup : ((List.range threadInterval.length).map
      (chunk threadInterval.length count)).flatten.Nodup := by
    rw [flatten_chunks count h1]
    exact List.nodup_range
  have hpair := (List.nodup_flatten.1 hnodup).2
  rw [List.pairwise_map, List.pairwise_iff_getElem] at hpair
  have hdisj := hpair i j (by rw [List.length_range]; omega) (by rwa [List.length_range]) hij
  rwa [List.getElem_range, List.getElem_range] at hdisj

/-- No position is in two intervals. -/
theorem pairwise_disjoint_divide (h1 : 1 ≤ threadInterval.length) :
    (divide threadInterval.length count threadInterval).Pairwise
      fun iv iv' => iv.positions ∩ iv'.positions = ∅ := by
  rw [List.pairwise_iff_getElem]
  intro i j hi hj hij
  rw [length_divide] at hi hj
  rw [Set.eq_empty_iff_forall_notMem]
  rintro pos ⟨hpos, hpos'⟩
  obtain ⟨p, hp, rfl⟩ := (mem_positions_iff hi (List.getElem?_eq_getElem _) pos).1 hpos
  obtain ⟨p', hp', hpp⟩ := (mem_positions_iff hj (List.getElem?_eq_getElem _) p).1 hpos'
  rw [Nat.cast_inj] at hpp
  exact disjoint_chunk h1 hj hij hp (hpp ▸ hp')

/-- Every position below `count` is in an interval, and no other is. -/
theorem exists_mem_positions_iff (h1 : 1 ≤ threadInterval.length) (pos : ℤ) :
    (∃ iv ∈ divide threadInterval.length count threadInterval, pos ∈ iv.positions) ↔
      0 ≤ pos ∧ pos < count := by
  constructor
  · rintro ⟨iv, hiv, hpos⟩
    obtain ⟨i, hi⟩ := List.mem_iff_getElem?.1 hiv
    have hlt : i < threadInterval.length := by
      rw [← length_divide]
      exact (List.getElem?_eq_some_iff.1 hi).1
    obtain ⟨p, hp, rfl⟩ := (mem_positions_iff hlt hi pos).1 hpos
    have hpc : p ∈ List.range count := by
      rw [← flatten_chunks count h1]
      exact List.mem_flatten.2 ⟨_, List.mem_map.2 ⟨i, List.mem_range.2 hlt, rfl⟩, hp⟩
    rw [List.mem_range] at hpc
    omega
  · rintro ⟨hpos, hlt⟩
    obtain ⟨p, rfl⟩ := Int.eq_ofNat_of_zero_le hpos
    have hp : p ∈ List.range count := List.mem_range.2 (by omega)
    rw [← flatten_chunks count h1] at hp
    obtain ⟨l, hl, hp⟩ := List.mem_flatten.1 hp
    obtain ⟨i, hi, rfl⟩ := List.mem_map.1 hl
    rw [List.mem_range] at hi
    have hiv : (divide threadInterval.length count threadInterval)[i]? = some _ :=
      getElem?_divide hi
    exact ⟨_, List.mem_of_getElem? hiv, (mem_positions_iff hi hiv p).2 ⟨p, hp, rfl⟩⟩

end Divide

/-- **A full scan covers the table exactly once**, with any number of threads. -/
theorem full_scan [DecidableEq V] {kernel : IterateKernel K V D} {draws : List ℕ}
    {t : StateTable K V D} {threadInterval threadInterval' : List KVVPair} {it : Iterator}
    {bfilter : Bool} (h : Iterator.new kernel draws t threadInterval threadInterval.length bfilter
      = .ok (it, threadInterval')) (hid : (threadInterval.map (·.threadId)).Nodup)
    (h1 : 1 ≤ threadInterval.length) :
    (threadInterval'.Pairwise fun iv iv' => iv.positions ∩ iv'.positions = ∅) ∧
    (∀ pos, (∃ iv ∈ threadInterval', pos ∈ iv.positions) ↔ 0 ≤ pos ∧ pos < t.buckets.length) ∧
    ∃ visits, threadInterval'.mapM
        (fun iv => scanLoop (inUseAt t) .ok threadInterval' iv.threadId) = .ok visits ∧
      visits.flatten.Nodup ∧
      ∀ pos, pos ∈ visits.flatten ↔ ∃ c, t.buckets[pos]? = some c ∧ c.inUse = true := by
  have hdiv := Iterator.new_spec h
  subst hdiv
  refine ⟨pairwise_disjoint_divide h1, exists_mem_positions_iff h1, ?_⟩
  obtain ⟨visits, hvisits, hflat⟩ := mapM_chunks (f := id) h1
    (fun i hi => scanLoop_eq hid hi (inUseAt t) .ok) (fun pos hpos => inUseAt_eq hpos)
    fun pos _ => rfl
  rw [List.map_id] at hflat
  refine ⟨visits, hvisits, ?_, fun pos => ?_⟩
  · rw [hflat]
    exact List.nodup_range.filter _
  · rw [hflat, List.mem_filter, List.mem_range]
    constructor
    · rintro ⟨-, huse⟩
      exact (Option.any_eq_true _ _).1 huse
    · rintro ⟨c, hc, hu⟩
      exact ⟨(List.getElem?_eq_some_iff.1 hc).1, (Option.any_eq_true _ _).2 ⟨c, hc, hu⟩⟩

/-- Four threads and three buckets, of which the last two are in use. -/
theorem full_scan_threeBuckets : ∃ visits,
    ([⟨7, 0, -1⟩, ⟨8, 0, -1⟩, ⟨9, 0, -1⟩, ⟨10, 0, 2⟩] : List KVVPair).mapM
        (fun iv => scanLoop (inUseAt (threeBuckets false)) .ok
          [⟨7, 0, -1⟩, ⟨8, 0, -1⟩, ⟨9, 0, -1⟩, ⟨10, 0, 2⟩] iv.threadId) = .ok visits ∧
      visits.flatten.Nodup ∧ ∀ pos, pos ∈ visits.flatten ↔
        ∃ c, (threeBuckets false).buckets[pos]? = some c ∧ c.inUse = true := by
  have hnew : Iterator.new pagerankIterateKernel [] (threeBuckets false)
      [⟨7, 0, 0⟩, ⟨8, 0, 0⟩, ⟨9, 0, 0⟩, ⟨10, 0, 0⟩] 4 false
      = .ok (⟨false⟩, [⟨7, 0, -1⟩, ⟨8, 0, -1⟩, ⟨9, 0, -1⟩, ⟨10, 0, 2⟩]) := by decide +kernel
  exact (full_scan hnew (by decide) (by decide)).2.2

end Maiter
