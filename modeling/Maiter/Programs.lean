import Maiter.Config.Options
import Maiter.Engine.Convergence

/-!
# Katz and Adsorption as their programs run them

`Katz()` reads `katz_beta` as an integer, and `Adsorption()` assigns neither of its globals.  Scores
and weights are rational numbers: a `float` that is rounded, or a weight that is not finite, is not
considered.

* `katz_main`: with `katz_beta` read as `0` only the source ever has a score, otherwise the scores
  grow without bound;
* `adsorption_main`: every score is `0`, in every run.
-/

namespace Maiter

open DeltaIteration (massTo nonneg)
open Engine (idHash twoVertices notAccumulated)

variable {n : ℕ} {hashobj : Int32 → ℕ}

namespace Config

/-- `katz_source` of `Katz()`. -/
abbrev katzSource (conf : Conf) : UInt64 := getConfigOptionLong conf "katz_source".toList 0

/-- `katz_beta` of `Katz()`, before the conversion to `double`. -/
abbrev katzBeta (conf : Conf) : UInt64 := getConfigOptionLong conf "katz_beta".toList 0

variable {conf : Conf} {t₀ : StateTable Int32 ℚ (List Int32)} {e : Engine Int32 ℚ (List Int32) n}

/-- Katz with the globals of the program, read over the rationals. -/
abbrev katzMainLinear (conf : Conf) : Linear (katzMain conf) ℚ :=
  katzLinear (katzSource conf) (katzBeta conf).toNat

theorem katzMain_positive : DeltaIteration.Positive (nonneg ℚ) ((katzMainLinear conf).system t₀) :=
  Linear.positive_system fun c _ l hl => by
    obtain ⟨target, -, rfl⟩ := List.mem_map.1 hl
    exact Nat.cast_nonneg (α := ℚ) _

theorem katzMain_init_nonneg (k : Int32) : 0 ≤ ((katzMainLinear conf).system t₀).init k :=
  Linear.init_pos (G := nonneg ℚ) (fun c _ => by
    show (0 : ℚ) ≤ if toUInt64 c.k = katzSource conf then 1000000 else 0
    split_ifs <;> norm_num) k

/-- The initial delta of Katz. -/
abbrev katzInit (conf : Conf) (k : Int32) : ℚ :=
  if toUInt64 k = katzSource conf then 1000000 else 0

/-- With `katz_beta` read as `0` the equations have the initial deltas as their solution. -/
theorem katz_limit_zero (hbeta : katzBeta conf = 0)
    (hload : Loaded hashobj (katzMain conf) t₀) : ∃ x,
    Engine.Limit hashobj (katzMain conf) (katzCoef 0) t₀ 0 x ∧
      ∀ c ∈ t₀.stored, x c.k = katzInit conf c.k := by
  have hkernel : katzMain conf = katzIterateKernel (katzSource conf) 0 := by
    show katzIterateKernel _ ((katzBeta conf).toNat : ℚ) = _
    rw [hbeta]
    rfl
  rw [hkernel] at hload ⊢
  obtain ⟨x, hx⟩ := Engine.limit_of_contracts (katzLinear (katzSource conf) 0) rfl hload
    (Engine.contracts_katz (katzSource conf) le_rfl (fun _ _ => by rw [zero_mul]) le_rfl one_pos)
  refine ⟨x, hx, fun c hc => ?_⟩
  have hzero : ∀ b ∈ t₀.stored,
      massTo c.k (((katzLinear (katzSource conf) 0).coef b.v3).map fun l => (l.1, l.2 * x b.k))
        = 0 := fun b _ => by
    simp [massTo, katzLinear, katzCoef, Function.comp_def]
  have hsolve := hx.solves c hc
  rw [List.map_congr_left hzero, List.map_const', List.sum_replicate, smul_zero,
    add_zero] at hsolve
  exact hsolve

/-- Otherwise a vertex with links passes on at least its delta. -/
theorem katz_cols (hbeta : katzBeta conf ≠ 0)
    (hlinks : ∀ c ∈ t₀.stored, c.v3 ≠ [] ∧ c.v3.toFinset ⊆ t₀.vertices) :
    ∀ i ∈ ((katzMainLinear conf).system t₀).verts,
      1 ≤ ∑ j ∈ ((katzMainLinear conf).system t₀).verts,
        massTo j (((katzMainLinear conf).system t₀).links i) := by
  intro i hi
  have hone : (1 : ℚ) ≤ (katzBeta conf).toNat := by
    rw [Nat.one_le_cast, Nat.one_le_iff_ne_zero]
    exact fun h => hbeta (UInt64.toNat_inj.1 h)
  obtain ⟨c, hc⟩ := Option.isSome_iff_exists.1 (StateTable.find_isSome_iff.2 hi)
  obtain ⟨hne, hsub⟩ := hlinks c (StateTable.find_some hc).1
  have hsystem : ((katzMainLinear conf).system t₀).links i
      = katzCoef (katzBeta conf).toNat c.v3 := by
    simp [Linear.system, hc, katzLinear]
  rw [hsystem, DeltaIteration.sum_massTo_eq fun m hm => ?_]
  · have hmap : (katzCoef (katzBeta conf).toNat c.v3).map (·.2)
        = List.replicate c.v3.length ((katzBeta conf).toNat : ℚ) := by
      simp [katzCoef, Function.comp_def]
    have hlen : (1 : ℚ) ≤ c.v3.length := by
      rw [Nat.one_le_cast, Nat.one_le_iff_ne_zero]
      exact fun h => hne (List.length_eq_zero_iff.1 h)
    rw [hmap, List.sum_replicate, nsmul_eq_mul]
    exact one_le_mul_of_one_le_of_one_le hlen hone
  · obtain ⟨target, htarget, rfl⟩ := List.mem_map.1 hm
    exact hsub (List.mem_toFinset.2 htarget)

/-- The configuration with this `katz_beta`. -/
def withBeta (text : String) : Conf :=
  Function.update (fun _ => none) "katz_beta".toList (some text.toList)

/-- One vertex that links to itself. -/
def oneVertex (v1 v2 : ℚ) (totalUpdates : ℕ) : StateTable Int32 ℚ (List Int32) :=
  ⟨[⟨0, v1, v2, [0], v1, true⟩], 1, 1, totalUpdates⟩

/-- **Adsorption as its program runs it**: every value, delta and message is `0`, in every run. -/
theorem adsorption_main {t₀ : StateTable Int32 ℚ (List Link)} {e : Engine Int32 ℚ (List Link) n}
    (hload : Loaded hashobj adsorptionMain t₀)
    (h : Engine.Reaches hashobj adsorptionMain (Engine.start t₀) e) :
    (∀ c ∈ e.table.stored, c.v1 = 0 ∧ c.v2 = 0) ∧ ∀ w, ∀ m ∈ e.output w, m.2 = 0 := by
  have hI := Engine.inv_loaded hload h
  have hclosed : DeltaIteration.Closed ((adsorptionLinear 0 0).system t₀) fun _ x => x = 0 :=
    ⟨fun _ => rfl, fun _ x y hx hy => by rw [hx, hy, add_zero],
      fun _ _ _ _ x hx => by rw [hx, mul_zero]⟩
  have hinit : ∀ k, ((adsorptionLinear 0 0).system t₀).init k = 0 := by
    intro k
    simp only [Linear.system]
    cases t₀.find k with
    | none => rfl
    | some c =>
      show (if toUInt64 k < 0 then (10 : ℚ) else 0) = 0
      exact if_neg UInt64.not_lt_zero
  have hvalues := Engine.values_reaches (adsorptionLinear 0 0) hclosed hinit hload h
  refine ⟨fun c hc => ?_, fun w m hm => hvalues.buf w m (List.mem_map.2 ⟨m, hm, rfl⟩)⟩
  have hfind := hI.wf.find_eq_some_iff.2 ⟨hc, rfl⟩
  exact ⟨(Linear.deltas_of_find (adsorptionLinear 0 0) hfind).symm.trans (hvalues.delta c.k),
    (Linear.vals_of_find (adsorptionLinear 0 0) hfind).symm.trans (hvalues.val c.k)⟩

/-- The vertex `0` with a link to itself, loaded by the program. -/
def oneLoopMain (totalUpdates : ℕ) : StateTable Int32 ℚ (List Link) :=
  ⟨[⟨0, 0, 0, [⟨0, 1⟩], 0, true⟩], 1, 1, totalUpdates⟩

theorem adsorption_main_oneLoop :
    Engine.Reaches idHash adsorptionMain (Engine.start (oneLoopMain 0))
      (⟨oneLoopMain 1, ![[]]⟩ : Engine _ _ _ 1) ∧
    ∀ c ∈ (oneLoopMain 1).stored, c.v1 = 0 ∧ c.v2 = 0 := by
  have hrun : Engine.Reaches idHash adsorptionMain (Engine.start (oneLoopMain 0))
      (⟨oneLoopMain 1, ![[]]⟩ : Engine _ _ _ 1) :=
    (Engine.run_of_schedule [(0, 0), (0, 0)] (l := [.absorb 0 0, .deliver 0])
      (by decide +kernel)).reaches
  exact ⟨hrun, (adsorption_main ⟨1, 1, [(0, [⟨0, 1⟩])], by decide +kernel⟩ hrun).1⟩

end Config

end Maiter
