import Maiter.IterateKernel
import Mathlib.Algebra.Field.Rat
import Mathlib.Algebra.Order.Ring.Unbundled.Rat

/-!
# The four kernels of the repository

PageRank, Katz, Adsorption and shortest paths (`src/examples`), in exact arithmetic: `float` and
`double` are the rationals, `int` is `Int32`, `uint64_t` is `UInt64`.

The shortest-path kernel takes the type of its values, the addition of a weight and `imax` as
parameters, so that it can be read with `imax` as `+∞` as well as with a finite `imax`.
-/

namespace Maiter

/-- The conversion of an `int` that is compared with a `uint64_t`. -/
def toUInt64 (k : Int32) : UInt64 := k.toInt64.toUInt64

/-- Two vertex ids compare equal to the same `uint64_t` only if they are equal. -/
theorem toUInt64_inj {a b : Int32} (h : toUInt64 a = toUInt64 b) : a = b := by
  unfold toUInt64 at h
  have h64 : a.toInt64 = b.toInt64 := by
    cases ha : a.toInt64
    cases hb : b.toInt64
    simp_all
  have hint := congrArg Int64.toInt h64
  rw [Int32.toInt_toInt64, Int32.toInt_toInt64] at hint
  exact Int32.toInt_inj.1 hint

/-- A weighted link; `dest` is `end` in the source. -/
structure Link where
  dest : Int32
  weight : ℚ
  deriving DecidableEq, Repr, Inhabited

/-- `PagerankIterateKernel`. -/
def pagerankIterateKernel : IterateKernel Int32 ℚ (List Int32) where
  initC _ _ := 0.2
  initV _ _ := 0
  defaultV := 0
  accumulate a b := a + b
  priority _ delta := delta
  gFunc _ delta _ data :=
    let size := data.length
    let outv := delta * 0.8 / size
    data.map fun target => (target, outv)

/-- `KatzIterateKernel`, with the globals `katz_source` and `katz_beta`. -/
def katzIterateKernel (katzSource : UInt64) (katzBeta : ℚ) :
    IterateKernel Int32 ℚ (List Int32) where
  initC k _ := if toUInt64 k = katzSource then 1000000 else 0
  initV _ _ := 0
  defaultV := 0
  accumulate a b := a + b
  priority _ delta := delta
  gFunc _ delta _ data :=
    let outv := katzBeta * delta
    data.map fun target => (target, outv)

/-- `AdsorptionIterateKernel`, with the globals `adsorption_starts` and `adsorption_damping`. -/
def adsorptionIterateKernel (adsorptionStarts : UInt64) (adsorptionDamping : ℚ) :
    IterateKernel Int32 ℚ (List Link) where
  initC k _ := if toUInt64 k < adsorptionStarts then 10 else 0
  initV _ _ := 0
  defaultV := 0
  accumulate a b := a + b
  priority _ delta := delta
  gFunc _ delta _ data :=
    data.map fun target => (target.dest, delta * adsorptionDamping * target.weight)

/-- `ShortestpathIterateKernel`, with the global `shortestpath_source`; `plus` adds a weight. -/
def shortestpathIterateKernel {V : Type} [LinearOrder V] [Zero V] [Sub V] (plus : V → ℚ → V)
    (imax : V) (shortestpathSource : UInt64) : IterateKernel Int32 V (List Link) where
  initC k _ := if toUInt64 k = shortestpathSource then 0 else imax
  initV _ _ := imax
  defaultV := imax
  accumulate a b := min a b
  priority value delta := value - min value delta
  gFunc _ delta _ data := data.map fun target => (target.dest, plus delta target.weight)

end Maiter
