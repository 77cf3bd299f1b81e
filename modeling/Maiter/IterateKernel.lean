import Mathlib.Data.Rat.Defs

/-!
# The user-defined iterate kernel

`IterateKernel K V D` is the interface through which an algorithm plugs into the framework
(`struct IterateKernel` of `table.h`): keys `K`, one value type `V` for `v` and `delta`, and the
adjacency data `D` of a vertex.  A C++ function that writes through a reference parameter is a
function returning what it writes.

`processDeltaV` is not a field: the interface gives it an empty body and no kernel of the
repository overrides it.  Parsing of input lines (`read_data`) is no part of the iteration.
-/

namespace Maiter

/-- An accumulative iterative algorithm. -/
structure IterateKernel (K V D : Type) where
  /-- `init_c(k, delta, data)`: the initial `delta` -/
  initC : K → D → V
  /-- `init_v(k, v, data)`: the initial `v` -/
  initV : K → D → V
  /-- `default_v()`: the neutral `delta` -/
  defaultV : V
  /-- `accumulate(a, b)`: the new `a` -/
  accumulate : V → V → V
  /-- `priority(pri, value, delta)`: the new `pri`, from `value` and `delta` -/
  priority : V → V → V
  /-- `g_func(k, delta, value, data, output)`: the messages pushed to `output` -/
  gFunc : K → V → V → D → List (K × V)

/-- `process_delta_v(k, delta, value, data)`: the new `delta`, `value` and `data`. -/
def IterateKernel.processDeltaV {K V D : Type} (_ : IterateKernel K V D) (_ : K)
    (delta value : V) (data : D) : V × V × D := (delta, value, data)

end Maiter
