import Maiter.IterateKernel
import Mathlib.Tactic

/-!
# The state table

`StateTable` of `statetable.h`: an open-addressing hash table from vertex keys to `v1` (delta),
`v2` (value), `v3` (adjacency data) and the priority of the delta.

* `Bucket`, `StateTable`: the data, under the names of the source without trailing underscores;
* `probe`: the `do … while (b != start)` loop that `bucketForKey` and `put` share;
* `resize` and `put` call each other: `put` grows the table by `resize`, which puts every old
  entry again.  `put d` may nest at most `d` calls of `put`, so a result `Fault.loops` says
  that the nesting is deeper than `d`;
* `contains`, `getF1 … get`, `updateF1 … accumulateF2`: all go through `bucketForKey`.

Positions are natural numbers below `size`.  The source keeps them in `int`; `clear`, which every
`resize` calls, counts them in an `int` and so faults on a capacity above `intMax`.
-/

namespace Maiter

/-- `INT_MAX`, which is `2 ^ 31 - 1`. -/
def intMax : ℕ := 2147483647

/-- The C++ cast to a 32-bit `int`, in two's complement. -/
def toInt32 (x : ℤ) : ℤ :=
  let r := (x % 4294967296).toNat
  if r ≤ intMax then r else (r : ℤ) - 4294967296

/-- How a call can fail instead of returning. -/
inductive Fault
  /-- the fatal log "No entry for requested key", which throws at `std::endl` -/
  | noEntry
  /-- a failed `assert` -/
  | assertion
  /-- a signed `int` counter passes `INT_MAX` -/
  | intOverflow
  /-- the fatal log "create begin fail" or "create end fail" of a thread without an interval -/
  | noInterval
  /-- an access outside a vector -/
  | badIndex
  /-- a loop or recursion that has not returned within its bound -/
  | loops
  deriving DecidableEq, Repr

/-- One bucket of the table. -/
structure Bucket (K V D : Type) where
  k : K
  /-- delta -/
  v1 : V
  v2 : V
  v3 : D
  priority : V
  inUse : Bool
  deriving DecidableEq, Repr, Inhabited

/-- The table: its buckets, the entry counter, the capacity, the number of resets of `v1`. -/
structure StateTable (K V D : Type) where
  buckets : List (Bucket K V D)
  entries : ℕ
  size : ℕ
  totalUpdates : ℕ
  deriving DecidableEq, Repr

/-- The values stored under a key, with the key. -/
structure ClutterRecord (K V D : Type) where
  k : K
  v1 : V
  v2 : V
  v3 : D
  deriving DecidableEq, Repr

namespace StateTable

variable {K V D : Type} [DecidableEq K] (hashobj : K → ℕ) (kernel : IterateKernel K V D)

/-! ### Looking up a key -/

/-- `bucket_idx`: the home bucket of a key, a `uint32_t`. -/
def bucketIdx (t : StateTable K V D) (k : K) : ℕ := (hashobj k % t.size) % 4294967296

/-- The probe loop from bucket `b`, with at most `fuel` turns: the bucket where it stops, and
whether that bucket holds `k`. -/
def probe (t : StateTable K V D) (k : K) (start : ℕ) : ℕ → ℕ → Except Fault (ℕ × Bool)
  | 0, _ => .error .loops
  | fuel + 1, b =>
    match t.buckets[b]? with
    | none => .error .badIndex
    | some c =>
      if c.inUse then
        if c.k = k then .ok (b, true)
        else
          let b' := (b + 1) % t.size
          if b' ≠ start then probe t k start fuel b' else .ok (b', false)
      else .ok (b, false)

/-- `bucket_for_key`: the bucket that holds `k`; `none` is the result `-1`. -/
def bucketForKey (t : StateTable K V D) (k : K) : Except Fault (Option ℕ) := do
  let start := t.bucketIdx hashobj k
  let (b, found) ← t.probe k start t.size start
  return if found then some b else none

/-- `contains`. -/
def contains (t : StateTable K V D) (k : K) : Except Fault Bool := do
  return (← t.bucketForKey hashobj k).isSome

/-- The body shared by the `get` functions: read the bucket of `k`, fatal if there is none. -/
def readBucket {α : Type} (t : StateTable K V D) (k : K) (f : Bucket K V D → α) :
    Except Fault α := do
  match ← t.bucketForKey hashobj k with
  | none => .error .noEntry
  | some b =>
    match t.buckets[b]? with
    | none => .error .badIndex
    | some c => .ok (f c)

/-- `getF1`. -/
def getF1 (t : StateTable K V D) (k : K) : Except Fault V := t.readBucket hashobj k (·.v1)

/-- `getF2`. -/
def getF2 (t : StateTable K V D) (k : K) : Except Fault V := t.readBucket hashobj k (·.v2)

/-- `getF3`. -/
def getF3 (t : StateTable K V D) (k : K) : Except Fault D := t.readBucket hashobj k (·.v3)

/-- `get`. -/
def get (t : StateTable K V D) (k : K) : Except Fault (ClutterRecord K V D) :=
  t.readBucket hashobj k fun c => ⟨k, c.v1, c.v2, c.v3⟩

/-! ### Updating the bucket of a stored key -/

/-- The body shared by the update functions: rewrite the bucket of `k`, and fail with `missing`
if there is none. -/
def writeBucket (t : StateTable K V D) (k : K) (missing : Fault)
    (f : Bucket K V D → Bucket K V D) : Except Fault (StateTable K V D) := do
  match ← t.bucketForKey hashobj k with
  | none => .error missing
  | some b => .ok { t with buckets := t.buckets.modify b f }

/-- `updateF1`: the priority becomes the literal `0`, and the update is counted. -/
def updateF1 [Zero V] (t : StateTable K V D) (k : K) (v : V) :
    Except Fault (StateTable K V D) := do
  let t ← t.writeBucket hashobj k .noEntry fun c => { c with v1 := v, priority := 0 }
  return { t with totalUpdates := t.totalUpdates + 1 }

/-- `updateF2`. -/
def updateF2 (t : StateTable K V D) (k : K) (v : V) : Except Fault (StateTable K V D) :=
  t.writeBucket hashobj k .noEntry fun c => { c with v2 := v }

/-- `updateF3`. -/
def updateF3 (t : StateTable K V D) (k : K) (v : D) : Except Fault (StateTable K V D) :=
  t.writeBucket hashobj k .noEntry fun c => { c with v3 := v }

/-- `accumulateF1`: its log of a missing key has no `std::endl` and so does not throw; the
assertion after it fails. -/
def accumulateF1 (t : StateTable K V D) (k : K) (v : V) : Except Fault (StateTable K V D) :=
  t.writeBucket hashobj k .assertion fun c =>
    { c with v1 := kernel.accumulate c.v1 v,
             priority := kernel.priority c.v2 (kernel.accumulate c.v1 v) }

/-- `accumulateF2`: the priority is not recomputed. -/
def accumulateF2 (t : StateTable K V D) (k : K) (v : V) : Except Fault (StateTable K V D) :=
  t.writeBucket hashobj k .noEntry fun c => { c with v2 := kernel.accumulate c.v2 v }

/-! ### Clearing, resizing and inserting -/

/-- `clear`: the loop counts the buckets in an `int`. -/
def clear (t : StateTable K V D) : Except Fault (StateTable K V D) :=
  if t.size ≤ intMax then
    .ok { t with buckets := t.buckets.map fun c => { c with inUse := false }, entries := 0 }
  else .error .intOverflow

/-- `buckets_.resize(size)`: cut off, or extended by value-initialised buckets. -/
def resizeBuckets [Inhabited (Bucket K V D)] (l : List (Bucket K V D)) (size : ℕ) :
    List (Bucket K V D) :=
  l.take size ++ List.replicate (size - l.length) default

/-- `resize`, with the `put` that it calls for every old entry as a parameter. -/
def resizeWith [Inhabited (Bucket K V D)]
    (put : StateTable K V D → K → V → V → D → Except Fault (StateTable K V D))
    (t : StateTable K V D) (size : ℤ) : Except Fault (StateTable K V D) := do
  if size ≤ 0 then .error .assertion
  else if (t.size : ℤ) = size then .ok t
  else
    let oldB := t.buckets
    let t ← clear { t with buckets := resizeBuckets t.buckets size.toNat, size := size.toNat }
    oldB.foldlM (fun t c => if c.inUse then put t c.k c.v1 c.v2 c.v3 else .ok t) t

/-- The bucket as `put` leaves it, for a new and for a replaced entry alike. -/
def entry (k : K) (v1 v2 : V) (v3 : D) : Bucket K V D :=
  ⟨k, v1, v2, v3, kernel.priority v2 v1, true⟩

/-- `put`, nested at most `depth` deep. -/
def put [Inhabited (Bucket K V D)] :
    ℕ → StateTable K V D → K → V → V → D → Except Fault (StateTable K V D)
  | 0, _, _, _, _, _ => .error .loops
  | depth + 1, t, k, v1, v2, v3 => do
    let start := t.bucketIdx hashobj k
    let (b, found) ← t.probe k start t.size start
    if !found then
      -- inserting a new entry
      if t.entries > t.size then
        let t ← resizeWith (put depth) t (toInt32 (1 + t.size * 2))
        let t ← put depth t k v1 v2 v3
        return { t with entries := t.entries + 1 }
      else
        return { t with buckets := t.buckets.set b (entry kernel k v1 v2 v3),
                        entries := t.entries + 1 }
    else
      -- replacing an existing entry
      return { t with buckets := t.buckets.set b (entry kernel k v1 v2 v3) }

/-- `resize`. -/
def resize [Inhabited (Bucket K V D)] (depth : ℕ) (t : StateTable K V D) (size : ℤ) :
    Except Fault (StateTable K V D) :=
  resizeWith (put hashobj kernel depth) t size

/-- The constructor `StateTable(size)`. -/
def new [Inhabited (Bucket K V D)] (depth : ℕ) (size : ℤ) : Except Fault (StateTable K V D) := do
  let t ← clear ⟨[], 0, 0, 0⟩
  resize hashobj kernel depth t size

end StateTable

end Maiter
