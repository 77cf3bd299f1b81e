import Maiter.Engine.Convergence
import Maiter.TermCheck.Monotone

/-!
# How many checks PageRank can have

The values of PageRank sum to at most the number of vertices, and every check but the first and the
last one finds a sum that exceeds the one before it by more than `termcheck_threshold`.

* `EndingInv`, `endingInv_step`: the answers in the record of a run;
* `sum_limit_le`: a bound on the sum of the values of every reachable table;
* `pagerank_checks_end`: the bound on the number of checks.
-/

namespace Maiter

namespace TermCheck

open Engine (Limit value)

section Lists

variable {K : Type} {v v' : K → ℚ} {l : List K} {earlier late : K → Option ℚ} {r r' q : ℚ}

/-- A scan that has read nothing below another one does not find a smaller sum. -/
theorem NotBelow.result_le (h : NotBelow earlier late l) (hr : ReadAll v l earlier r)
    (hr' : ReadAll v' l late r') : r ≤ r' := by
  rw [hr.sum, hr'.sum]
  refine List.sum_le_sum fun k hk => ?_
  obtain ⟨x, hx, -⟩ := hr.read k hk
  obtain ⟨y, hy, -⟩ := hr'.read k hk
  rw [hx, hy]
  exact h k hk x y hx hy

/-- Results that grow by more than `q` from check to check, the last one first. -/
theorem length_mul_le {l : List (Scan K ℚ)} : ∀ {a : Scan K ℚ},
    (a :: l).IsChain (fun b a => b.answer = false → a.result + q < b.result) →
    (∀ b ∈ a :: l, b.answer = false) → (∀ b ∈ a :: l, 0 ≤ b.result) →
    l.length * q ≤ a.result := by
  induction l with
  | nil =>
    intro a _ _ hnonneg
    simpa using hnonneg a (List.mem_singleton_self a)
  | cons b l ih =>
    intro a hchain hanswer hnonneg
    rw [List.isChain_cons_cons] at hchain
    have hgrow := hchain.1 (hanswer a List.mem_cons_self)
    have hrest := ih hchain.2 (fun c hc => hanswer c (List.mem_cons_of_mem a hc))
      fun c hc => hnonneg c (List.mem_cons_of_mem a hc)
    rw [List.length_cons, Nat.cast_succ, add_one_mul]
    linarith

end Lists

/-- The sum that a check has read so far. -/
def CheckPc.partialCurr : CheckPc → ℚ
  | .idle => 0
  | .next _ partialCurr | .test _ partialCurr | .add _ partialCurr => partialCurr

variable {n : ℕ} {hashobj : Int32 → ℕ} {termcheckThreshold : ℚ}
  {t₀ : StateTable Int32 ℚ (List Int32)} {e : Engine Int32 ℚ (List Int32) n} {x : Int32 → ℚ}
  {o o' : Observed Int32 ℚ (List Int32) n}

/-! ### The values of PageRank -/

theorem value_between (hx : Limit hashobj pagerankIterateKernel pagerankCoef t₀ 0.8 x)
    (hload : Loaded hashobj pagerankIterateKernel t₀)
    (he : Engine.Reaches hashobj pagerankIterateKernel (Engine.start t₀) e) {k : Int32}
    (hk : k ∈ t₀.vertices) : 0 ≤ value e.table k ∧ value e.table k ≤ x k := by
  have hI := Engine.inv_loaded hload he
  obtain ⟨c, hc⟩ := Option.isSome_iff_exists.1
    (StateTable.find_isSome_iff.2 (hI.graph.vertices ▸ hk))
  obtain ⟨hstored, hkey⟩ := StateTable.find_some hc
  rw [value, hc, Option.elim_some, ← hkey]
  exact hx.between he c hstored

/-- Every vertex starts with the delta `0.2`, and passes on at most `0.8` of what it gets. -/
theorem sum_limit_le (hx : Limit hashobj pagerankIterateKernel pagerankCoef t₀ 0.8 x)
    (hload : Loaded hashobj pagerankIterateKernel t₀) :
    ∑ k ∈ t₀.vertices, x k ≤ t₀.vertices.card := by
  have hstart : Engine.Rounds hashobj pagerankIterateKernel (Engine.start t₀) 0
      (Engine.start t₀ : Engine Int32 ℚ (List Int32) 0) := LTS.Rounds.zero
  have hrate := hx.rate hstart
  have hsum : ∑ k ∈ t₀.vertices, x k ≤ Engine.errorTo x t₀ := by
    rw [Engine.sum_vertices hload.good.wf, Engine.errorTo]
    refine List.sum_le_sum fun c hc => ?_
    have hzero : c.v2 = 0 := (hload.good.all c hc).2
    rw [hzero, sub_zero]
    exact le_abs_self (x c.k)
  rw [pow_zero, one_mul, Engine.sum_init_pagerank hload] at hrate
  dsimp only [Engine.start] at hrate
  linarith

/-- What a check has read of all vertices sums to at most their number. -/
theorem ReadAll.result_le (hload : Loaded hashobj pagerankIterateKernel t₀)
    (he : Engine.Reaches hashobj pagerankIterateKernel (Engine.start t₀) e)
    {read : Int32 → Option ℚ} {q : ℚ}
    (h : ReadAll (value e.table) (scanned t₀ t₀.size) read q) : q ≤ t₀.vertices.card := by
  obtain ⟨x, hx⟩ := Engine.limit_of_contracts pagerankLinear rfl hload
    (Engine.contracts_pagerank t₀)
  refine le_trans ?_ (sum_limit_le hx hload)
  rw [h.sum, ← sum_scanned hload.good.wf]
  refine List.sum_le_sum fun k hk => ?_
  obtain ⟨y, hy, hle⟩ := h.read k hk
  rw [hy]
  exact hle.trans (value_between hx hload he ((mem_scanned_size hload.good.wf).1 hk)).2

/-! ### The answers -/

/-- The sums and answers of a run: no check follows one that answers `true`, and a check that
answers `false` has found a sum more than the threshold above the one before. -/
structure EndingInv (termcheckThreshold : ℚ) (o : Observed Int32 ℚ (List Int32) n) : Prop where
  partial_nonneg : 0 ≤ o.state.pc.partialCurr
  result_nonneg : ∀ a ∈ o.scans, 0 ≤ a.result
  answered : ∀ a ∈ o.scans.tail, a.answer = false
  grows : o.scans.IsChain fun b a =>
    b.answer = false → a.result + termcheckThreshold < b.result

theorem endingInv_start : EndingInv termcheckThreshold
    (Observed.start t₀ : Observed Int32 ℚ (List Int32) n) where
  partial_nonneg := le_rfl
  result_nonneg _ ha := by cases ha
  answered _ ha := by cases ha
  grows := List.isChain_nil

/-- A read does not make the sum negative. -/
theorem partialCurr_read (hload : Loaded hashobj pagerankIterateKernel t₀)
    (hI : ObservedInv hashobj termcheckThreshold t₀ o) (hq : 0 ≤ o.state.pc.partialCurr)
    {pc : CheckPc}
    (h : scanStep pagerankIterateKernel id o.state.engine.table o.state.pc = some pc) :
    0 ≤ pc.partialCurr := by
  have hpassed := hI.passed
  cases hpc : o.state.pc <;> rw [hpc] at h hpassed hq
  case idle => cases h
  case next m q =>
    simp only [scanStep] at h
    split_ifs at h
    obtain ⟨c, -, rfl⟩ := Option.map_eq_some_iff.1 h
    split_ifs <;> exact hq
  case test m q =>
    obtain ⟨c, -, rfl⟩ := Option.map_eq_some_iff.1 h
    split_ifs <;> exact hq
  case add m q =>
    obtain ⟨-, k, hk⟩ := hpassed
    obtain ⟨c, hc, rfl⟩ := Option.map_eq_some_iff.1 h
    obtain ⟨x, hx⟩ := Engine.limit_of_contracts pagerankLinear rfl hload
      (Engine.contracts_pagerank t₀)
    have hstored := (StateTable.find_some (hI.bucket hload hk hc).1).1
    exact add_nonneg hq (hx.between hI.reached c hstored).1

theorem endingInv_step (hload : Loaded hashobj pagerankIterateKernel t₀)
    (hI : ObservedInv hashobj termcheckThreshold t₀ o) (hE : EndingInv termcheckThreshold o)
    {a : Action Int32 n}
    (h : Observed.Step hashobj pagerankIterateKernel id termcheckThreshold o a o') :
    EndingInv termcheckThreshold o' := by
  have hI' := observedInv_step hload hI h
  cases h with
  | work h =>
    cases h with
    | work _ => exact ⟨hE.partial_nonneg, hE.result_nonneg, hE.answered, hE.grows⟩
  | check h =>
    cases h with
    | check _ _ => exact ⟨le_rfl, hE.result_nonneg, hE.answered, hE.grows⟩
  | read h =>
    cases h with
    | read hread =>
      exact ⟨partialCurr_read hload hI hE.partial_nonneg hread, hE.result_nonneg, hE.answered,
        hE.grows⟩
  | @answer s totalCurrent hpc h =>
    cases h with
    | @answer q hpc' =>
      rw [hpc, CheckPc.next.injEq] at hpc'
      obtain ⟨-, rfl⟩ := hpc'
      have hq := hE.partial_nonneg
      have hpassed := hI.passed
      rw [hpc] at hpassed hq
      refine ⟨le_rfl, ?_, ?_, List.isChain_cons.2 ⟨fun a ha hfalse => ?_, hE.grows⟩⟩
      · intro b hb
        rcases List.mem_cons.1 hb with rfl | hb
        · exact hq
        · exact hE.result_nonneg b hb
      · -- the check was begun because the one before it has answered `false`
        intro b hb
        cases hscans : o.scans with
        | nil => rw [List.tail_cons, hscans] at hb; cases hb
        | cons a l =>
          rw [List.tail_cons, hscans] at hb
          rcases List.mem_cons.1 hb with rfl | hb
          · obtain ⟨hanswer, -⟩ := hI.last b (by rw [hscans]; rfl)
            rw [← hanswer, hpassed.running]
          · exact hE.answered b (by rw [hscans]; exact hb)
      · obtain ⟨hanswer, hlast⟩ := hI.last a ha
        have hfar : ¬|totalCurrent - o.state.checker.last| ≤ termcheckThreshold := fun hle => by
          rw [Diff.terminate_iff.2 hle] at hfalse
          cases hfalse
        rw [hlast (hanswer ▸ hpassed.running)] at hfar
        have hfollows := (List.isChain_cons.1 hI'.follows).1 a ha
        have hle : a.result ≤ totalCurrent :=
          hfollows.ahead.result_le (hI'.reads a (List.mem_cons_of_mem _ (List.mem_of_mem_head? ha)))
            (hI'.reads _ List.mem_cons_self)
        rw [abs_of_nonneg (sub_nonneg.2 hle)] at hfar
        linarith

theorem endingInv_reaches (hload : Loaded hashobj pagerankIterateKernel t₀)
    (h : LTS.Reaches (Observed.Step hashobj pagerankIterateKernel id termcheckThreshold)
      (Observed.start t₀) o) : EndingInv termcheckThreshold o := by
  refine (h.invariant (I := fun o => ObservedInv hashobj termcheckThreshold t₀ o ∧
    EndingInv termcheckThreshold o) ?_ ⟨observedInv_start, endingInv_start⟩).2
  rintro u a v ⟨hI, hE⟩ hstep
  exact ⟨observedInv_step hload hI hstep, endingInv_step hload hI hE hstep⟩

/-- **The checks of PageRank end.**  In every run of the threads and the main thread, all checks but
the last one have answered `false`, and all of them but two took `termcheck_threshold` each out of
the number of vertices. -/
theorem pagerank_checks_end (hload : Loaded hashobj pagerankIterateKernel t₀)
    (h : LTS.Reaches (Observed.Step hashobj pagerankIterateKernel id termcheckThreshold)
      (Observed.start t₀) o) :
    (∀ a ∈ o.scans.tail, a.answer = false) ∧
    ((o.scans.length - 2 : ℕ) : ℚ) * termcheckThreshold ≤ t₀.vertices.card := by
  have hI := observedInv_reaches hload h
  have hE := endingInv_reaches hload h
  refine ⟨hE.answered, ?_⟩
  obtain ⟨-, hnonneg, hanswered, hgrows⟩ := hE
  cases hscans : o.scans with
  | nil => simp
  | cons b l =>
    rw [hscans] at hgrows hanswered hnonneg
    cases hl : l with
    | nil => simp
    | cons a l =>
      subst hl
      have hmany := length_mul_le (List.isChain_cons_cons.1 hgrows).2 hanswered
        fun c hc => hnonneg c (List.mem_cons_of_mem b hc)
      have hread := hI.reads a (by rw [hscans]; simp)
      have hlen : (b :: a :: l).length - 2 = l.length := rfl
      rw [hlen]
      exact hmany.trans (hread.result_le hload hI.reached)

/-- The vertex is processed after the first check; the third one terminates the table. -/
theorem pagerank_checks_end_rankSource : ∃ o : Observed Int32 ℚ (List Int32) 1,
    o.scans.map (·.answer) = [true, false, false] ∧ (∀ a ∈ o.scans.tail, a.answer = false) ∧
      ((3 - 2 : ℕ) : ℚ) * 0.05 ≤ (rankSource 0.2 0 0).vertices.card := by
  have hload : Loaded Engine.idHash pagerankIterateKernel (rankSource 0.2 0 0) :=
    ⟨1, 1, [(0, [])], by decide +kernel⟩
  let e₀ : Engine Int32 ℚ (List Int32) 1 := Engine.start (rankSource 0.2 0 0)
  let e₁ : Engine Int32 ℚ (List Int32) 1 := ⟨rankSource 0 0.2 1, fun _ => []⟩
  have hwork : LTS.Run (Engine.Step Engine.idHash pagerankIterateKernel) e₀ [.absorb 0 0] e₁ :=
    Engine.run_of_schedule [(0, 0)] (by decide +kernel)
  obtain ⟨_, hwork, hnil⟩ := hwork.cons_inv
  rw [← hnil.nil_inv] at hwork
  let seen (q : ℚ) : Int32 → Option ℚ := Function.update (fun _ => none) 0 (some q)
  let a : Scan Int32 ℚ := ⟨seen 0, 0, false⟩
  have hfirst : LTS.Run (Observed.Step Engine.idHash pagerankIterateKernel id 0.05)
      (Observed.start (rankSource 0.2 0 0)) [.check, .read, .read, .answer]
      ⟨⟨e₀, ⟨0, 0⟩, .idle, false⟩, seen 0, [a]⟩ := by
    have htest : Observed.Step Engine.idHash pagerankIterateKernel id 0.05
        ⟨⟨e₀, Diff.new, .test 0 0, false⟩, fun _ => none, []⟩ .read
        ⟨⟨e₀, Diff.new, .next 1 0, false⟩, seen 0, []⟩ :=
      step_read (some (0, 0)) (by decide +kernel) (by decide +kernel)
    exact LTS.Run.cons (.check (.check rfl rfl)) (LTS.Run.cons (step_read none rfl rfl)
      (LTS.Run.cons htest (LTS.Run.single (step_answer rfl (by decide +kernel)))))
  have hmiddle : LTS.Run (Observed.Step Engine.idHash pagerankIterateKernel id 0.05)
      ⟨⟨e₀, ⟨0, 0⟩, .idle, false⟩, seen 0, [a]⟩ [.work (.absorb 0 0)]
      ⟨⟨e₁, ⟨0, 0⟩, .idle, false⟩, seen 0, [a]⟩ := LTS.Run.single (.work (.work hwork))
  have hcheck : ∀ (d d' : Diff) (answer : Bool) (r : Int32 → Option ℚ) (l : List (Scan Int32 ℚ)),
      d.terminate 0.05 0.2 = (answer, d') →
      LTS.Run (Observed.Step Engine.idHash pagerankIterateKernel id 0.05)
        ⟨⟨e₁, d, .idle, false⟩, r, l⟩ [.check, .read, .read, .read, .answer]
        ⟨⟨e₁, d', .idle, answer⟩, seen 0.2, ⟨seen 0.2, 0.2, answer⟩ :: l⟩ := by
    intro d d' answer r l hterm
    have htest : Observed.Step Engine.idHash pagerankIterateKernel id 0.05
        ⟨⟨e₁, d, .test 0 0, false⟩, fun _ => none, l⟩ .read
        ⟨⟨e₁, d, .add 0 0, false⟩, fun _ => none, l⟩ :=
      step_read none (by decide +kernel) (by decide +kernel)
    have hadd : Observed.Step Engine.idHash pagerankIterateKernel id 0.05
        ⟨⟨e₁, d, .add 0 0, false⟩, fun _ => none, l⟩ .read
        ⟨⟨e₁, d, .next 1 0.2, false⟩, seen 0.2, l⟩ :=
      step_read (some (0, 0.2)) (by decide +kernel) (by decide +kernel)
    exact LTS.Run.cons (.check (.check rfl rfl)) (LTS.Run.cons (step_read none rfl rfl)
      (LTS.Run.cons htest (LTS.Run.cons hadd (LTS.Run.single (step_answer rfl hterm)))))
  have hrun := ((hfirst.append hmiddle).append (hcheck ⟨0, 0⟩ ⟨0.2, 0.2⟩ false _ _
    (by decide +kernel))).append (hcheck ⟨0.2, 0.2⟩ ⟨0.2, 0.2⟩ true _ _ (by decide +kernel))
  obtain ⟨hanswered, hbound⟩ := pagerank_checks_end hload hrun.reaches
  exact ⟨_, rfl, hanswered, hbound⟩

end TermCheck

end Maiter
