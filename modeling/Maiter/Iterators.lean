import Maiter.StateTable.Put
import Maiter.Lib.Fallible
import Maiter.Kernels

/-!
# Iterators and the division of a round among the threads

The scheduler builds an iterator for every round.  Its constructor divides a range of positions
among the execute threads, and each thread walks its interval in `run_loop`.

* `divide`, `threadBegin`, `threadEnd`: the intervals in the global `thread_interval`;
* `runLoop`, `round`: what one thread, and what all threads run in a round;
* `interval_found_iff`: with fewer positions than threads a thread is taken for an unknown one;
* `flatten_chunks`, `round_eq`: the intervals cut the range into consecutive pieces, so that a round
  walks every position once;
* `Iterator`: a full scan; `Iterator.round_eq`: it runs every stored vertex exactly once;
* `ScheduledIterator`: the positions of high priority; `scheduled_round_iff`: its round runs every
  scheduled vertex exactly once only if the first buckets of the table, as many as are scheduled,
  are all in use.
-/

namespace Maiter

variable {K V D : Type}

/-- `KVVPAIR`: an execute thread and the interval that it walks. -/
structure KVVPair where
  threadId : ℕ
  intervalFirst : ℤ
  intervalLast : ℤ
  deriving DecidableEq, Repr

/-- The end of both iterator constructors: `count` positions are divided among the threads. -/
def divide (numThreads count : ℕ) (threadInterval : List KVVPair) : List KVVPair :=
  let normalInterval := count / numThreads
  threadInterval.mapIdx fun i iv =>
    if i < threadInterval.length - 1 then
      { iv with intervalFirst := normalInterval * i, intervalLast := normalInterval * (i + 1) - 1 }
    else { iv with intervalFirst := normalInterval * i, intervalLast := count - 1 }

/-- `thread_begin`. -/
def threadBegin (threadInterval : List KVVPair) (threadId : ℕ) : ℤ :=
  (threadInterval.find? fun iv => iv.threadId = threadId).elim (-1) (·.intervalFirst)

/-- `thread_end`. -/
def threadEnd (threadInterval : List KVVPair) (threadId : ℕ) : ℤ :=
  (threadInterval.find? fun iv => iv.threadId = threadId).elim (-1) (·.intervalLast)

/-! ### One round of the threads -/

section Round

variable (isInUse : ℕ → Except Fault Bool) (key : ℕ → Except Fault K)

/-- The body of the loop over positions in `run_loop`: the keys on which `run_iter` is called. -/
def walk : List ℕ → Except Fault (List K)
  | [] => .ok []
  | pos :: rest => do
    if ← isInUse pos then
      let k ← key pos
      let ks ← walk rest
      return k :: ks
    else walk rest

/-- What a thread runs in one round of `run_loop`. -/
def runLoop (threadInterval : List KVVPair) (threadId : ℕ) : Except Fault (List K) :=
  let first := threadBegin threadInterval threadId
  let last := threadEnd threadInterval threadId
  if first = -1 ∨ last = -1 then .error .noInterval
  else walk isInUse key (List.range' first.toNat (last + 1 - first).toNat)

/-- What all threads run in one round. -/
def round (threadInterval : List KVVPair) : Except Fault (List K) := do
  let visits ← threadInterval.mapM fun iv => runLoop isInUse key threadInterval iv.threadId
  return visits.flatten

variable {isInUse key}

theorem walk_eq {u : ℕ → Bool} {f : ℕ → K} (l : List ℕ) (hu : ∀ pos ∈ l, isInUse pos = .ok (u pos))
    (hf : ∀ pos ∈ l, key pos = .ok (f pos)) :
    walk isInUse key l = .ok ((l.filter u).map f) := by
  induction l with
  | nil => rfl
  | cons pos rest ih =>
    have hrest := ih (fun p hp => hu p (List.mem_cons_of_mem _ hp))
      (fun p hp => hf p (List.mem_cons_of_mem _ hp))
    cases hp : u pos <;> simp [walk, hu pos, hf pos, hrest, hp]

/-- The positions of the `i`-th of `n` threads. -/
def chunk (n count i : ℕ) : List ℕ :=
  List.range' (count / n * i) (if i < n - 1 then count / n else count - count / n * i)

/-- **The intervals cut the range into consecutive pieces.** -/
theorem flatten_chunks {n : ℕ} (count : ℕ) (hn : 1 ≤ n) :
    ((List.range n).map (chunk n count)).flatten = List.range count := by
  obtain ⟨m, rfl⟩ : ∃ m, n = m + 1 := ⟨n - 1, by omega⟩
  set q := count / (m + 1) with hq
  have hfirst : ∀ i, i ≤ m → ((List.range i).map (chunk (m + 1) count)).flatten
      = List.range (q * i) := by
    intro i hi
    induction i with
    | zero => simp
    | succ i ih =>
      rw [List.range_succ, List.map_append, List.flatten_append, ih (by omega)]
      simp only [List.map_cons, List.map_nil, List.flatten_singleton, chunk, ← hq]
      rw [if_pos (by omega), List.range_eq_range', List.range_eq_range', Nat.mul_succ]
      simpa using List.range'_append_1 (s := 0) (m := q * i) (n := q)
  have hle : q * m ≤ count :=
    (Nat.mul_le_mul_left q (Nat.le_succ m)).trans (Nat.div_mul_le_self count (m + 1))
  rw [List.range_succ, List.map_append, List.flatten_append, hfirst m (le_refl _)]
  simp only [List.map_cons, List.map_nil, List.flatten_singleton, chunk, ← hq]
  rw [if_neg (by omega), List.range_eq_range', List.range_eq_range']
  have happ := List.range'_append_1 (s := 0) (m := q * m) (n := count - q * m)
  rw [Nat.zero_add, Nat.add_sub_cancel' hle] at happ
  exact happ

variable {threadInterval : List KVVPair} {n count : ℕ}

theorem length_divide : (divide n count threadInterval).length = threadInterval.length := by
  simp [divide]

theorem threadId_divide {i : ℕ} (hi : i < threadInterval.length)
    (hi' : i < (divide n count threadInterval).length) :
    (divide n count threadInterval)[i].threadId = threadInterval[i].threadId := by
  simp only [divide, List.getElem_mapIdx]
  split_ifs <;> rfl

variable (n count) in
/-- A thread finds its own interval. -/
theorem find_divide (hid : (threadInterval.map (·.threadId)).Nodup) {i : ℕ}
    (hi : i < threadInterval.length) :
    (divide n count threadInterval).find?
        (fun iv => iv.threadId = threadInterval[i].threadId)
      = (divide n count threadInterval)[i]? := by
  have hi' : i < (divide n count threadInterval).length := by rw [length_divide]; exact hi
  rw [List.getElem?_eq_getElem hi', List.find?_eq_some_iff_getElem]
  refine ⟨by simpa using threadId_divide hi hi', i, hi', rfl, fun j hji => ?_⟩
  have hne : threadInterval[j].threadId ≠ threadInterval[i].threadId := by
    intro heq
    have hj : j < (threadInterval.map (·.threadId)).length := by
      rw [List.length_map]
      omega
    have hi : i < (threadInterval.map (·.threadId)).length := by rwa [List.length_map]
    have hids : (threadInterval.map (·.threadId))[j] = (threadInterval.map (·.threadId))[i] := by
      simpa using heq
    have hji' := hid.getElem_inj_iff.1 hids
    omega
  rw [threadId_divide (by omega) (by omega)]
  simpa using hne

/-- A thread whose interval has `len ≥ 1` positions from `first` walks these. -/
theorem runLoop_of_find {id first len : ℕ} {iv : KVVPair}
    (hfind : threadInterval.find? (fun iv => iv.threadId = id) = some iv)
    (hfirst : iv.intervalFirst = first) (hlast : iv.intervalLast = first + len - 1)
    (hpos : 1 ≤ len) :
    runLoop isInUse key threadInterval id = walk isInUse key (List.range' first len) := by
  unfold runLoop threadBegin threadEnd
  rw [hfind]
  simp only [Option.elim_some, hfirst, hlast]
  rw [if_neg (by omega)]
  congr 2
  omega

variable (count) in
/-- What `thread_begin` and `thread_end` return for the `i`-th thread. -/
theorem threadEnd_divide (hid : (threadInterval.map (·.threadId)).Nodup) {i : ℕ}
    (hi : i < threadInterval.length) :
    threadBegin (divide threadInterval.length count threadInterval) threadInterval[i].threadId
        = ↑(count / threadInterval.length * i) ∧
      threadEnd (divide threadInterval.length count threadInterval) threadInterval[i].threadId
        = (if i < threadInterval.length - 1 then ↑(count / threadInterval.length * (i + 1))
            else (count : ℤ)) - 1 := by
  have hfind := find_divide threadInterval.length count hid hi
  rw [divide, List.getElem?_mapIdx, List.getElem?_eq_getElem hi, Option.map_some] at hfind
  unfold threadBegin threadEnd divide
  rw [hfind, Option.elim_some, Option.elim_some]
  split_ifs <;> push_cast <;> exact ⟨rfl, rfl⟩

/-- **No registered thread is taken for an unknown one, exactly when there are at least as many
positions as threads**: else `interval_last` of the first thread, or of the only one, is `-1`. -/
theorem interval_found_iff (hid : (threadInterval.map (·.threadId)).Nodup)
    (h1 : 1 ≤ threadInterval.length) :
    (∀ iv ∈ threadInterval,
      threadBegin (divide threadInterval.length count threadInterval) iv.threadId ≠ -1 ∧
      threadEnd (divide threadInterval.length count threadInterval) iv.threadId ≠ -1) ↔
      threadInterval.length ≤ count := by
  constructor
  · intro hfound
    by_contra hlt
    obtain ⟨-, hend⟩ := hfound _ (List.getElem_mem h1)
    rw [(threadEnd_divide count hid h1).2] at hend
    rw [Nat.div_eq_of_lt (not_le.1 hlt)] at hend
    split_ifs at hend with hlast
    · exact hend (by simp)
    · -- the only thread, and nothing to divide
      have hcount : count = 0 := by omega
      exact hend (by rw [hcount]; rfl)
  · intro hn iv hiv
    obtain ⟨i, hi, rfl⟩ := List.getElem_of_mem hiv
    obtain ⟨hbegin, hend⟩ := threadEnd_divide count hid hi
    have hq : 1 ≤ count / threadInterval.length := (Nat.one_le_div_iff h1).2 hn
    have hpos : 1 ≤ count / threadInterval.length * (i + 1) := Nat.mul_pos hq (Nat.succ_pos i)
    refine ⟨by rw [hbegin]; omega, ?_⟩
    rw [hend]
    split_ifs <;> omega

theorem interval_found_two :
    threadBegin (divide 2 5 [⟨7, 0, 0⟩, ⟨8, 0, 0⟩]) 8 ≠ -1 ∧
      threadEnd (divide 2 5 [⟨7, 0, 0⟩, ⟨8, 0, 0⟩]) 8 ≠ -1 := by
  have hfound : ∀ iv ∈ ([⟨7, 0, 0⟩, ⟨8, 0, 0⟩] : List KVVPair),
      threadBegin (divide 2 5 [⟨7, 0, 0⟩, ⟨8, 0, 0⟩]) iv.threadId ≠ -1 ∧
      threadEnd (divide 2 5 [⟨7, 0, 0⟩, ⟨8, 0, 0⟩]) iv.threadId ≠ -1 :=
    (interval_found_iff (by decide) (by decide)).2 (by decide)
  exact hfound ⟨8, 0, 0⟩ (by decide)

/-- Two threads and one position: the first thread has nothing to do, and takes the fatal branch. -/
theorem not_interval_found_two :
    threadEnd (divide 2 1 [⟨7, 0, 0⟩, ⟨8, 0, 0⟩]) 7 = -1 ∧
      runLoop (fun _ => .ok true) (fun pos => .ok pos) (divide 2 1 [⟨7, 0, 0⟩, ⟨8, 0, 0⟩]) 7
        = .error .noInterval := by decide

theorem chunk_eq_range' (n count i : ℕ) :
    chunk n count i = List.range' (count / n * i) (chunk n count i).length := by
  rw [chunk, List.length_range']

/-- The interval of the `i`-th thread is the `i`-th piece. -/
theorem getElem?_divide {i : ℕ} (hi : i < threadInterval.length) :
    (divide threadInterval.length count threadInterval)[i]? = some
      ⟨threadInterval[i].threadId, ↑(count / threadInterval.length * i),
        ↑(count / threadInterval.length * i) + ↑(chunk threadInterval.length count i).length
          - 1⟩ := by
  have hle : count / threadInterval.length * i ≤ count :=
    (Nat.mul_le_mul_left _ hi.le).trans (Nat.div_mul_le_self count threadInterval.length)
  rw [divide, List.getElem?_mapIdx, List.getElem?_eq_getElem hi, Option.map_some, Option.some.injEq,
    chunk, List.length_range']
  split_ifs with hlast
  · rw [KVVPair.mk.injEq]
    refine ⟨rfl, (Nat.cast_mul _ i).symm, ?_⟩
    rw [Nat.cast_mul]
    ring
  · rw [KVVPair.mk.injEq]
    refine ⟨rfl, (Nat.cast_mul _ i).symm, ?_⟩
    rw [Nat.cast_sub hle]
    ring

/-- With at least as many positions as threads, the `i`-th thread walks the `i`-th piece. -/
theorem runLoop_eq (hid : (threadInterval.map (·.threadId)).Nodup)
    (hn : threadInterval.length ≤ count) {i : ℕ} (hi : i < threadInterval.length) :
    runLoop isInUse key (divide threadInterval.length count threadInterval)
        threadInterval[i].threadId
      = walk isInUse key (chunk threadInterval.length count i) := by
  have hq : 1 ≤ count / threadInterval.length := (Nat.one_le_div_iff (by omega)).2 hn
  have hlast : count / threadInterval.length * i + count / threadInterval.length ≤ count := by
    calc count / threadInterval.length * i + count / threadInterval.length
        = count / threadInterval.length * (i + 1) := (Nat.mul_succ _ i).symm
      _ ≤ count / threadInterval.length * threadInterval.length := Nat.mul_le_mul_left _ hi
      _ ≤ count := Nat.div_mul_le_self count threadInterval.length
  have hlen : 1 ≤ (chunk threadInterval.length count i).length := by
    rw [chunk, List.length_range']
    split_ifs <;> omega
  have hfind := find_divide threadInterval.length count hid hi
  rw [getElem?_divide hi] at hfind
  rw [chunk_eq_range']
  exact runLoop_of_find hfind rfl rfl hlen

/-- If every thread walks its piece, the threads together walk every position once, in order. -/
theorem mapM_chunks (h1 : 1 ≤ threadInterval.length) {loop : ℕ → Except Fault (List K)}
    (hloop : ∀ i (hi : i < threadInterval.length), loop threadInterval[i].threadId
      = walk isInUse key (chunk threadInterval.length count i)) {u : ℕ → Bool} {f : ℕ → K}
    (hu : ∀ pos < count, isInUse pos = .ok (u pos)) (hf : ∀ pos < count, key pos = .ok (f pos)) :
    ∃ visits, (divide threadInterval.length count threadInterval).mapM
        (fun iv => loop iv.threadId) = .ok visits ∧
      visits.flatten = ((List.range count).filter u).map f := by
  set n := threadInterval.length with hlen
  have hmem : ∀ i < n, ∀ pos ∈ chunk n count i, pos < count := by
    intro i hi pos hpos
    rw [← List.mem_range, ← flatten_chunks count h1]
    exact List.mem_flatten.2 ⟨_, List.mem_map.2 ⟨i, List.mem_range.2 hi, rfl⟩, hpos⟩
  refine ⟨(List.range n).map fun i => ((chunk n count i).filter u).map f, ?_, ?_⟩
  · refine Fallible.mapM_eq_ok (by simp [divide, hlen]) fun i hi hi' => ?_
    have hin : i < n := by simpa using hi'
    rw [threadId_divide hin, hloop i hin, List.getElem_map, List.getElem_range]
    exact walk_eq _ (fun pos hp => hu pos (hmem i hin pos hp))
      fun pos hp => hf pos (hmem i hin pos hp)
  · rw [← flatten_chunks count h1, List.filter_flatten, List.map_flatten, List.map_map,
      List.map_map]
    rfl

/-- **A round walks every position once**, in order. -/
theorem round_eq (hid : (threadInterval.map (·.threadId)).Nodup)
    (h1 : 1 ≤ threadInterval.length) (hn : threadInterval.length ≤ count) {u : ℕ → Bool}
    {f : ℕ → K} (hu : ∀ pos < count, isInUse pos = .ok (u pos))
    (hf : ∀ pos < count, key pos = .ok (f pos)) :
    round isInUse key (divide threadInterval.length count threadInterval)
      = .ok (((List.range count).filter u).map f) := by
  obtain ⟨visits, hvisits, hflat⟩ := mapM_chunks h1 (fun i hi => runLoop_eq hid hn hi) hu hf
  unfold round
  rw [hvisits, Fallible.ok_bind, Fallible.pure_eq_ok, hflat]

end Round

/-! ### The full scan -/

open StateTable

variable {V D : Type}

/-- `is_in_use(pos)` of all iterators. -/
def inUseAt (t : StateTable K V D) (pos : ℕ) : Except Fault Bool :=
  match t.buckets[pos]? with
  | none => .error .badIndex
  | some c => .ok c.inUse

/-- The key in a bucket. -/
def keyAt (t : StateTable K V D) (pos : ℕ) : Except Fault K :=
  match t.buckets[pos]? with
  | none => .error .badIndex
  | some c => .ok c.k

/-- The size of the random samples. -/
def sampleSize : ℕ := 1000

/-- Whether a drawn position is that of an in-use bucket. -/
def usable (t : StateTable K V D) (pos : ℕ) : Bool := (t.buckets[pos]?).any (·.inUse)

/-- `Iterator`: it walks the buckets of the table. -/
structure Iterator where
  bNoChange : Bool
  deriving DecidableEq, Repr

/-- The constructor of `Iterator`; `draws` are the positions that the random number generator
yields, and it draws again after a bucket that is not in use. -/
def Iterator.new [DecidableEq V] (kernel : IterateKernel K V D) (draws : List ℕ)
    (t : StateTable K V D) (threadInterval : List KVVPair) (numThreads : ℕ) (bfilter : Bool) :
    Except Fault (Iterator × List KVVPair) := do
  let sampled := (draws.filter (usable t)).take sampleSize
  let unchanged := sampled.all fun pos =>
    (t.buckets[pos]?).any fun c => c.v1 = kernel.defaultV
  if bfilter ∧ unchanged ∧ sampled.length < sampleSize then .error .loops
  else return (⟨bfilter && unchanged⟩, divide numThreads t.buckets.length threadInterval)

/-- A round with an `Iterator`. -/
def Iterator.round (t : StateTable K V D) (threadInterval : List KVVPair) :
    Except Fault (List K) := Maiter.round (inUseAt t) (keyAt t) threadInterval

theorem inUseAt_eq {t : StateTable K V D} {pos : ℕ} (hpos : pos < t.buckets.length) :
    inUseAt t pos = .ok (usable t pos) := by
  simp [inUseAt, usable, List.getElem?_eq_getElem hpos]

theorem keyAt_eq {t : StateTable K V D} {pos : ℕ} (hpos : pos < t.buckets.length) (k : K) :
    keyAt t pos = .ok ((t.buckets[pos]?).elim k (·.k)) := by
  simp [keyAt, List.getElem?_eq_getElem hpos]

/-- The keys in the usable buckets, from the first to the last. -/
theorem map_usable (t : StateTable K V D) (k : K) :
    ((List.range t.buckets.length).filter (usable t)).map
        (fun pos => (t.buckets[pos]?).elim k (·.k)) = t.stored.map (·.k) := by
  have hprefix : ∀ l : List (Bucket K V D), ∀ m, m = l.length →
      ((List.range m).filter fun pos => (l[pos]?).any (·.inUse)).map
        (fun pos => (l[pos]?).elim k (·.k)) = (l.filter (·.inUse)).map (·.k) := by
    intro l
    induction l with
    | nil => rintro _ rfl; rfl
    | cons c l ih =>
      rintro _ rfl
      rw [List.length_cons, List.range_succ_eq_map, List.filter_cons, List.filter_map,
        List.filter_cons]
      have htail := ih l.length rfl
      cases hu : c.inUse <;> simpa [hu, Function.comp_def] using htail
  exact hprefix t.buckets _ rfl

/-- The constructor divides the buckets among the threads. -/
theorem Iterator.new_spec [DecidableEq V] {kernel : IterateKernel K V D} {draws : List ℕ}
    {t : StateTable K V D} {threadInterval threadInterval' : List KVVPair} {it : Iterator}
    {numThreads : ℕ} {bfilter : Bool}
    (h : Iterator.new kernel draws t threadInterval numThreads bfilter
      = .ok (it, threadInterval')) :
    threadInterval' = divide numThreads t.buckets.length threadInterval := by
  simp only [Iterator.new] at h
  split_ifs at h
  cases h
  rfl

/-- **A full scan runs every stored vertex exactly once.** -/
theorem Iterator.round_eq [DecidableEq V] {kernel : IterateKernel K V D} {draws : List ℕ}
    {t : StateTable K V D} {threadInterval threadInterval' : List KVVPair} {it : Iterator}
    {bfilter : Bool} (h : Iterator.new kernel draws t threadInterval threadInterval.length bfilter
      = .ok (it, threadInterval')) (hid : (threadInterval.map (·.threadId)).Nodup)
    (h1 : 1 ≤ threadInterval.length) (hn : threadInterval.length ≤ t.buckets.length) :
    Iterator.round t threadInterval' = .ok (t.stored.map (·.k)) := by
  have hdiv := Iterator.new_spec h
  obtain ⟨c, hc⟩ : ∃ c, c ∈ t.buckets := List.exists_mem_of_length_pos (by omega)
  rw [hdiv, ← map_usable t c.k]
  exact Maiter.round_eq hid h1 hn (fun pos hpos => inUseAt_eq hpos)
    fun pos hpos => keyAt_eq hpos c.k

/-! ### The priority schedule -/

/-- `ScheduledIterator`: it walks the list of scheduled positions. -/
structure ScheduledIterator where
  scheduledPos : List ℕ
  bNoChange : Bool
  deriving DecidableEq, Repr

/-- `is_in_use(pos)`: the source looks at the bucket `pos`. -/
def ScheduledIterator.isInUse (_ : ScheduledIterator) (t : StateTable K V D) (pos : ℕ) :
    Except Fault Bool := inUseAt t pos

/-- `key(pos)`: the source looks at the bucket `scheduled_pos[pos]`, here as in `value1(pos)`,
`value2(pos)` and `value3(pos)`. -/
def ScheduledIterator.key (it : ScheduledIterator) (t : StateTable K V D) (pos : ℕ) :
    Except Fault K :=
  match it.scheduledPos[pos]? with
  | none => .error .badIndex
  | some b => keyAt t b

/-- A round with a `ScheduledIterator`. -/
def ScheduledIterator.round (it : ScheduledIterator) (t : StateTable K V D)
    (threadInterval : List KVVPair) : Except Fault (List K) :=
  Maiter.round (it.isInUse t) (it.key t) threadInterval

/-- The positions below `size` of the in-use buckets that satisfy `p`, in order. -/
def scan (t : StateTable K V D) (p : Bucket K V D → Bool) : List ℕ :=
  (List.range t.size).filter fun i => (t.buckets[i]?).any fun c => c.inUse && p c

/-- Whether `v1` is the default in all buckets at the given positions. -/
def noChange [DecidableEq V] (kernel : IterateKernel K V D) (t : StateTable K V D)
    (l : List ℕ) : Bool := l.all fun i => (t.buckets[i]?).any fun c => c.v1 = kernel.defaultV

/-- The conversion of a `double` to `int`. -/
def truncate (q : ℚ) : ℤ := q.num.tdiv q.den

/-- The constructor of `ScheduledIterator`, with the draws of the random number generator.  If all
sampled deltas are the default and `bfilter` is set, it returns before it divides the positions. -/
def ScheduledIterator.new [LinearOrder V] (kernel : IterateKernel K V D) (schedulePortion : ℚ)
    (draws : List ℕ) (t : StateTable K V D) (threadInterval : List KVVPair) (numThreads : ℕ)
    (bfilter : Bool) : Except Fault (ScheduledIterator × List KVVPair) := do
  let priority := fun i => (t.buckets[i]?).elim kernel.defaultV (·.priority)
  let done := fun scheduledPos => (⟨scheduledPos, false⟩,
    divide numThreads scheduledPos.length threadInterval)
  if t.entries ≤ sampleSize then
    -- schedule them all
    let scheduledPos := scan t fun _ => true
    if noChange kernel t scheduledPos && bfilter then return (⟨scheduledPos, true⟩, threadInterval)
    else return done scheduledPos
  else
    let sampledPos := (draws.filter (usable t)).take sampleSize
    if sampledPos.length < sampleSize then .error .loops
    else if noChange kernel t sampledPos && bfilter then return (⟨[], true⟩, threadInterval)
    else
      let sorted := sampledPos.mergeSort fun a b => priority b ≤ priority a
      let cutIndex := truncate (sampleSize * schedulePortion)
      if cutIndex < 0 then .error .badIndex
      else
        match sorted[cutIndex.toNat]?, sorted[0]? with
        | some cut, some top =>
          let threshold := priority cut
          if cutIndex = 0 ∨ priority top = threshold then
            return done (scan t fun c => c.v1 ≠ kernel.defaultV && threshold ≤ c.priority)
          else return done (scan t fun c => c.v1 ≠ kernel.defaultV && threshold < c.priority)
        | _, _ => .error .badIndex

section Scheduled

variable [LinearOrder V] {kernel : IterateKernel K V D} {schedulePortion : ℚ} {draws : List ℕ}
  {t : StateTable K V D} {threadInterval threadInterval' : List KVVPair} {it : ScheduledIterator}

/-- The constructor lists in-use buckets in order, and divides their positions in the list. -/
theorem ScheduledIterator.new_spec {numThreads : ℕ}
    (h : ScheduledIterator.new kernel schedulePortion draws t threadInterval numThreads false
      = .ok (it, threadInterval')) :
    (∃ p, it.scheduledPos = scan t p) ∧
      threadInterval' = divide numThreads it.scheduledPos.length threadInterval := by
  simp only [ScheduledIterator.new, Bool.and_false, Bool.false_eq_true, if_false] at h
  split_ifs at h
  · cases h
    exact ⟨⟨_, rfl⟩, rfl⟩
  · split at h
    · split_ifs at h <;> cases h
      · exact ⟨⟨_, rfl⟩, rfl⟩
      · exact ⟨⟨_, rfl⟩, rfl⟩
    · cases h

omit [LinearOrder V] in
theorem mem_scan {p : Bucket K V D → Bool} {b : ℕ} (hb : b ∈ scan t p) : b < t.size :=
  List.mem_range.1 (List.mem_filter.1 hb).1

omit [LinearOrder V] in
theorem length_scan_le (p : Bucket K V D → Bool) : (scan t p).length ≤ t.size :=
  (List.length_filter_le _ _).trans (by rw [List.length_range])

/-- The keys of the scheduled vertices. -/
def ScheduledIterator.keys (it : ScheduledIterator) (t : StateTable K V D) : List K :=
  it.scheduledPos.filterMap fun b => (t.buckets[b]?).map (·.k)

/-- What a round with the priority schedule runs: the scheduled vertex at every position of the
list for which the bucket at *the same* position of the table is in use. -/
theorem ScheduledIterator.round_eq (hlen : t.buckets.length = t.size)
    (h : ScheduledIterator.new kernel schedulePortion draws t threadInterval threadInterval.length
      false = .ok (it, threadInterval'))
    (hid : (threadInterval.map (·.threadId)).Nodup) (h1 : 1 ≤ threadInterval.length)
    (hn : threadInterval.length ≤ it.scheduledPos.length) :
    ∃ f : ℕ → K, (List.range it.scheduledPos.length).map f = it.keys t ∧
      it.round t threadInterval'
        = .ok (((List.range it.scheduledPos.length).filter (usable t)).map f) := by
  obtain ⟨⟨p, hscan⟩, hdiv⟩ := ScheduledIterator.new_spec h
  have hlt : ∀ b ∈ it.scheduledPos, b < t.buckets.length := fun b hb => by
    rw [hlen]
    exact mem_scan (hscan ▸ hb)
  have hle : it.scheduledPos.length ≤ t.buckets.length := by
    rw [hlen, hscan]
    exact length_scan_le p
  obtain ⟨c, hc⟩ : ∃ c, c ∈ t.buckets := List.exists_mem_of_length_pos (by omega)
  set f : ℕ → K := fun pos =>
    (it.scheduledPos[pos]?).elim c.k fun b => (t.buckets[b]?).elim c.k (·.k) with hf
  refine ⟨f, ?_, ?_⟩
  · have hkeys : it.keys t = it.scheduledPos.map fun b => (t.buckets[b]?).elim c.k (·.k) := by
      rw [ScheduledIterator.keys, ← List.filterMap_eq_map]
      refine List.filterMap_congr fun b hb => ?_
      simp [List.getElem?_eq_getElem (hlt b hb)]
    rw [hkeys]
    apply List.ext_getElem (by simp)
    intro i hi hi'
    have hi : i < it.scheduledPos.length := by simpa using hi
    simp [hf, List.getElem?_eq_getElem hi]
  · rw [hdiv]
    refine Maiter.round_eq hid h1 hn (fun pos hpos => inUseAt_eq (by omega)) fun pos hpos => ?_
    have hb : it.scheduledPos[pos] < t.buckets.length := hlt _ (List.getElem_mem hpos)
    simp only [hf, ScheduledIterator.key, List.getElem?_eq_getElem hpos, Option.elim_some]
    exact keyAt_eq hb c.k

/-- **A round with the priority schedule runs every scheduled vertex exactly once and no other,
if and only if the first buckets of the table, as many as are scheduled, are all in use**: the
worker tests `is_in_use` at its position in the list instead of at the scheduled bucket. -/
theorem scheduled_round_iff (hlen : t.buckets.length = t.size)
    (h : ScheduledIterator.new kernel schedulePortion draws t threadInterval threadInterval.length
      false = .ok (it, threadInterval'))
    (hid : (threadInterval.map (·.threadId)).Nodup) (h1 : 1 ≤ threadInterval.length)
    (hn : threadInterval.length ≤ it.scheduledPos.length) :
    (∃ visits, it.round t threadInterval' = .ok visits ∧ visits.Perm (it.keys t)) ↔
      ∀ pos < it.scheduledPos.length, usable t pos = true := by
  obtain ⟨f, hkeys, hround⟩ := ScheduledIterator.round_eq hlen h hid h1 hn
  rw [hround, ← hkeys]
  constructor
  · rintro ⟨visits, hvisits, hperm⟩ pos hpos
    cases hvisits
    have hlength := hperm.length_eq
    rw [List.length_map, List.length_map, List.length_filter_eq_length_iff] at hlength
    exact hlength pos (List.mem_range.2 hpos)
  · intro huse
    refine ⟨_, rfl, ?_⟩
    rw [List.filter_eq_self.2 fun pos hpos => huse pos (List.mem_range.1 hpos)]

end Scheduled

/-- A table of three buckets that stores the keys `1`, `2` and perhaps `3`. -/
def threeBuckets (three : Bool) : StateTable Int32 ℚ (List Int32) :=
  ⟨[if three then ⟨3, 0.2, 0, [], 0.2, true⟩ else ⟨0, 0, 0, [], 0, false⟩,
    ⟨1, 0.2, 0, [], 0.2, true⟩, ⟨2, 0.2, 0, [], 0.2, true⟩], if three then 3 else 2, 3, 0⟩

theorem new_threeBuckets :
    ScheduledIterator.new pagerankIterateKernel 0.2 [] (threeBuckets true) [⟨7, 0, 0⟩, ⟨8, 0, 0⟩] 2
      false = .ok (⟨[0, 1, 2], false⟩, [⟨7, 0, 0⟩, ⟨8, 1, 2⟩]) := by decide +kernel

theorem scheduled_round_threeBuckets :
    ∃ visits, (⟨[0, 1, 2], false⟩ : ScheduledIterator).round (threeBuckets true)
      [⟨7, 0, 0⟩, ⟨8, 1, 2⟩] = .ok visits ∧
      visits.Perm ((⟨[0, 1, 2], false⟩ : ScheduledIterator).keys (threeBuckets true)) :=
  (scheduled_round_iff rfl new_threeBuckets (by decide) (by decide) (by decide)).2 (by decide)

/-- With an empty bucket before the stored keys, one thread skips the first scheduled vertex. -/
theorem not_scheduled_round_threeBuckets :
    StateTable.load (fun k : Int32 => k.toUInt32.toNat) pagerankIterateKernel 1 3 [(1, []), (2, [])]
      = .ok (threeBuckets false) ∧
    ScheduledIterator.new pagerankIterateKernel 0.2 [] (threeBuckets false) [⟨7, 0, 0⟩] 1 false
      = .ok (⟨[1, 2], false⟩, [⟨7, 0, 1⟩]) ∧
    ¬ ∃ visits, (⟨[1, 2], false⟩ : ScheduledIterator).round (threeBuckets false) [⟨7, 0, 1⟩]
      = .ok visits ∧
      visits.Perm ((⟨[1, 2], false⟩ : ScheduledIterator).keys (threeBuckets false)) := by
  refine ⟨by decide +kernel, by decide +kernel, ?_⟩
  have hround : (⟨[1, 2], false⟩ : ScheduledIterator).round (threeBuckets false) [⟨7, 0, 1⟩]
      = .ok [2] := by decide +kernel
  have hkeys : (⟨[1, 2], false⟩ : ScheduledIterator).keys (threeBuckets false) = [1, 2] := by
    decide +kernel
  rintro ⟨visits, hvisits, hperm⟩
  rw [hround, Except.ok.injEq] at hvisits
  rw [← hvisits, hkeys] at hperm
  exact absurd hperm.length_eq (by decide)

end Maiter
