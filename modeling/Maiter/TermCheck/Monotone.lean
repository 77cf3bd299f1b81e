import Maiter.TermCheck.Converged

/-!
# Successive estimates of PageRank

The checks read the values while the threads change them.  A record is kept of what every check has
read.

* `Scan`, `Observed`, `Observed.Step`: the record, and the steps with it; `exists_observed`: it
  excludes no run;
* `ReadAll`: what was read of a list of vertices is not above their values now;
* `Follows`: a check has read no value below the one that the check before it has read;
* `ObservedInv`, `observedInv_step`: the record of a run of PageRank;
* `pagerank_scans`: estimates never go down, and a check that terminates the table has read no value
  that exceeds the one of the check before it by more than the threshold.
-/

namespace Maiter

namespace TermCheck

/-! ### The record of the checks -/

/-- A completed check: what it has read of each vertex, the sum, and the answer. -/
structure Scan (K V : Type) where
  value : K → Option V
  result : ℚ
  answer : Bool

/-- The threads and the main thread, with what the check in progress has read, and the completed
checks, the last one first. -/
structure Observed (K V D : Type) (n : ℕ) where
  state : State K V D n
  seen : K → Option V
  scans : List (Scan K V)

variable {K V D : Type} [DecidableEq K] {n : ℕ}

/-- The state when the threads are created. -/
def Observed.start (t : StateTable K V D) : Observed K V D n :=
  ⟨TermCheck.start t, fun _ => none, []⟩

section Defs

variable [DecidableEq V] [Zero V] (hashobj : K → ℕ) (kernel : IterateKernel K V D)
  (toDouble : V → ℚ) (termcheckThreshold : ℚ)

/-- The value of a vertex that the next statement of `estimate_prog` reads for the sum: that of the
comparison if it is the default, which adds nothing, and else that of the addition. -/
def noted (t : StateTable K V D) : CheckPc → Option (K × V)
  | .test passed _ => (t.buckets[passed]?).bind fun c =>
      if c.v2 ≠ kernel.defaultV then none else some (c.k, c.v2)
  | .add passed _ => (t.buckets[passed]?).map fun c => (c.k, c.v2)
  | _ => none

/-- The record after a value was read. -/
def recorded (seen : K → Option V) : Option (K × V) → K → Option V
  | none => seen
  | some (k, v) => Function.update seen k (some v)

/-- One step of a thread or of the main thread. -/
inductive Observed.Step : Observed K V D n → Action K n → Observed K V D n → Prop
  | work {o : Observed K V D n} {a : DeltaIteration.Action K (Fin n)} {s : State K V D n} :
      TermCheck.Step hashobj kernel toDouble termcheckThreshold o.state (.work a) s →
      Step o (.work a) { o with state := s }
  | check {o : Observed K V D n} {s : State K V D n} :
      TermCheck.Step hashobj kernel toDouble termcheckThreshold o.state .check s →
      Step o .check { o with state := s, seen := fun _ => none }
  | read {o : Observed K V D n} {s : State K V D n} :
      TermCheck.Step hashobj kernel toDouble termcheckThreshold o.state .read s →
      Step o .read { o with
        state := s, seen := recorded o.seen (noted kernel o.state.engine.table o.state.pc) }
  | answer {o : Observed K V D n} {s : State K V D n} {totalCurrent : ℚ} :
      o.state.pc = .next o.state.engine.table.size totalCurrent →
      TermCheck.Step hashobj kernel toDouble termcheckThreshold o.state .answer s →
      Step o .answer { o with
        state := s, scans := ⟨o.seen, totalCurrent, s.terminated⟩ :: o.scans }

variable {hashobj kernel toDouble termcheckThreshold}

theorem Observed.Step.state {o o' : Observed K V D n} {a : Action K n}
    (h : Observed.Step hashobj kernel toDouble termcheckThreshold o a o') :
    TermCheck.Step hashobj kernel toDouble termcheckThreshold o.state a o'.state := by
  cases h with
  | work h => exact h
  | check h => exact h
  | read h => exact h
  | answer _ h => exact h

section Steps

variable {e : Engine K V D n} {d d' : Diff} {pc pc' : CheckPc} {terminated answer : Bool}
  {seen : K → Option V} {scans : List (Scan K V)} {q : ℚ}

theorem step_read (kv : Option (K × V)) (h : scanStep kernel toDouble e.table pc = some pc')
    (hnoted : noted kernel e.table pc = kv) :
    Observed.Step hashobj kernel toDouble termcheckThreshold
      ⟨⟨e, d, pc, terminated⟩, seen, scans⟩ .read
      ⟨⟨e, d, pc', terminated⟩, recorded seen kv, scans⟩ := by
  subst hnoted
  exact .read (.read h)

theorem step_answer {m : ℕ} (hsize : e.table.size = m)
    (hterm : d.terminate termcheckThreshold q = (answer, d')) :
    Observed.Step hashobj kernel toDouble termcheckThreshold
      ⟨⟨e, d, .next m q, terminated⟩, seen, scans⟩ .answer
      ⟨⟨e, d', .idle, answer⟩, seen, ⟨seen, q, answer⟩ :: scans⟩ := by
  subst hsize
  have h : TermCheck.Step hashobj kernel toDouble termcheckThreshold
      ⟨e, d, .next e.table.size q, terminated⟩ .answer _ := TermCheck.Step.answer rfl
  rw [hterm] at h
  exact .answer rfl h

end Steps

/-- Every run can be recorded. -/
theorem exists_observed {t₀ : StateTable K V D} {l : List (Action K n)} {s : State K V D n}
    (h : LTS.Run (TermCheck.Step hashobj kernel toDouble termcheckThreshold) (TermCheck.start t₀)
      l s) :
    ∃ o, LTS.Run (Observed.Step hashobj kernel toDouble termcheckThreshold) (Observed.start t₀)
      l o ∧ o.state = s := by
  induction h with
  | nil => exact ⟨_, LTS.Run.nil, rfl⟩
  | @snoc l u v a _ ha ih =>
    obtain ⟨o, hrun, rfl⟩ := ih
    cases a with
    | work a => exact ⟨_, hrun.snoc (.work ha), rfl⟩
    | check => exact ⟨_, hrun.snoc (.check ha), rfl⟩
    | read => exact ⟨_, hrun.snoc (.read ha), rfl⟩
    | answer =>
      have hpc : ∃ q, o.state.pc = .next o.state.engine.table.size q := by
        cases ha with
        | answer hpc => exact ⟨_, hpc⟩
      obtain ⟨q, hpc⟩ := hpc
      exact ⟨_, hrun.snoc (.answer hpc ha), rfl⟩

end Defs

/-! ### What was read -/

section Reading

omit [DecidableEq K] in
theorem mem_of_mem_snoc {l : List K} {j k : K} (h : j ∈ l ++ [k]) : j ∈ l ∨ j = k := by
  simpa using h

/-- What was read of the vertices `l`: no more than their values `v`, and the sum. -/
structure ReadAll (v : K → ℚ) (l : List K) (value : K → Option ℚ) (result : ℚ) : Prop where
  read : ∀ k ∈ l, ∃ x, value k = some x ∧ x ≤ v k
  sum : result = (l.map fun k => (value k).getD 0).sum

/-- Nothing that was read of `l` is below what was read earlier. -/
def NotBelow (earlier value : K → Option ℚ) (l : List K) : Prop :=
  ∀ k ∈ l, ∀ x y, earlier k = some x → value k = some y → x ≤ y

variable {v v' : K → ℚ} {l : List K} {value earlier : K → Option ℚ} {result : ℚ}

omit [DecidableEq K] in
theorem readAll_nil (v : K → ℚ) (value : K → Option ℚ) : ReadAll v [] value 0 :=
  ⟨fun k hk => by simp at hk, rfl⟩

omit [DecidableEq K] in
theorem ReadAll.mono (h : ReadAll v l value result) (hv : ∀ k, v k ≤ v' k) :
    ReadAll v' l value result := by
  refine ⟨fun k hk => ?_, h.sum⟩
  obtain ⟨x, hx, hle⟩ := h.read k hk
  exact ⟨x, hx, hle.trans (hv k)⟩

theorem ReadAll.snoc (h : ReadAll v l value result) {k : K} (hk : k ∉ l) {x : ℚ} (hx : x ≤ v k) :
    ReadAll v (l ++ [k]) (Function.update value k (some x)) (result + x) := by
  have hne : ∀ j ∈ l, Function.update value k (some x) j = value j := fun j hj =>
    Function.update_of_ne (fun he : j = k => hk (he ▸ hj)) ..
  constructor
  · intro j hj
    rcases mem_of_mem_snoc hj with hj | rfl
    · rw [hne j hj]
      exact h.read j hj
    · exact ⟨x, Function.update_self .., hx⟩
  · have hmap : l.map (fun j => (Function.update value k (some x) j).getD 0)
        = l.map fun j => (value j).getD 0 := List.map_congr_left fun j hj => by rw [hne j hj]
    rw [List.map_append, List.sum_append, hmap, ← h.sum]
    simp

theorem NotBelow.snoc (h : NotBelow earlier value l) {k : K} (hk : k ∉ l) {y : ℚ}
    (hy : ∀ x, earlier k = some x → x ≤ y) :
    NotBelow earlier (Function.update value k (some y)) (l ++ [k]) := by
  intro j hj x z hx hz
  rcases mem_of_mem_snoc hj with hj | rfl
  · rw [Function.update_of_ne fun he : j = k => hk (he ▸ hj)] at hz
    exact h j hj x z hx hz
  · rw [Function.update_self, Option.some.injEq] at hz
    exact hz ▸ hy x hx

end Reading

/-! ### The record of a run of PageRank -/

section Pagerank

open Engine (value)

variable {hashobj : Int32 → ℕ} {termcheckThreshold : ℚ} {t₀ : StateTable Int32 ℚ (List Int32)}
  {e e' : Engine Int32 ℚ (List Int32) n} {o o' : Observed Int32 ℚ (List Int32) n}

theorem value_le_step (hload : Loaded hashobj pagerankIterateKernel t₀)
    (he : Engine.Reaches hashobj pagerankIterateKernel (Engine.start t₀) e)
    {a : DeltaIteration.Action Int32 (Fin n)}
    (h : Engine.Step hashobj pagerankIterateKernel e a e') (k : Int32) :
    value e.table k ≤ value e'.table k := by
  show (DeltaIteration.nonneg ℚ).le (pagerankLinear.vals e.table k) (pagerankLinear.vals e'.table k)
  exact vals_le_step Engine.pagerank_positive Engine.pagerank_init_nonneg hload he h k

theorem layout_reaches {e : Engine Int32 ℚ (List Int32) n}
    (h : Engine.Reaches hashobj pagerankIterateKernel (Engine.start t₀) e) :
    e.table.size = t₀.size ∧ e.table.layout = t₀.layout := by
  refine h.invariant (I := fun e => e.table.size = t₀.size ∧ e.table.layout = t₀.layout) ?_
    ⟨rfl, rfl⟩
  rintro u a v ⟨hsize, hlay⟩ hstep
  obtain ⟨hsize', hlay'⟩ := Engine.step_layout hstep
  exact ⟨hsize'.trans hsize, hlay'.trans hlay⟩

/-- A check that is not behind the one before it, and that terminates the table only if their sums
are close. -/
structure Follows (termcheckThreshold : ℚ) (l : List Int32) (b a : Scan Int32 ℚ) : Prop where
  ahead : NotBelow a.value b.value l
  close : b.answer = true → |b.result - a.result| ≤ termcheckThreshold

/-- The check in progress has passed the first `m` buckets. -/
structure Passed (t₀ : StateTable Int32 ℚ (List Int32)) (o : Observed Int32 ℚ (List Int32) n)
    (m : ℕ) (partialCurr : ℚ) : Prop where
  running : o.state.terminated = false
  reads : ReadAll (value o.state.engine.table) (scanned t₀ m) o.seen partialCurr
  ahead : ∀ a ∈ o.scans.head?, NotBelow a.value o.seen (scanned t₀ m)

/-- The check in progress, at each program point. -/
def PassedAt (t₀ : StateTable Int32 ℚ (List Int32)) (o : Observed Int32 ℚ (List Int32) n) :
    CheckPc → Prop
  | .idle => True
  | .next m q => Passed t₀ o m q
  | .test m q | .add m q => Passed t₀ o m q ∧ ∃ k, t₀.layout m = some k

/-- The record of a run. -/
structure ObservedInv (hashobj : Int32 → ℕ) (termcheckThreshold : ℚ)
    (t₀ : StateTable Int32 ℚ (List Int32)) (o : Observed Int32 ℚ (List Int32) n) : Prop where
  reached : Engine.Reaches hashobj pagerankIterateKernel (Engine.start t₀) o.state.engine
  passed : PassedAt t₀ o o.state.pc
  last : ∀ a ∈ o.scans.head?, o.state.terminated = a.answer ∧
    (a.answer = false → o.state.checker.last = a.result)
  reads : ∀ a ∈ o.scans,
    ReadAll (value o.state.engine.table) (scanned t₀ t₀.size) a.value a.result
  follows : o.scans.IsChain (Follows termcheckThreshold (scanned t₀ t₀.size))

theorem observedInv_start : ObservedInv hashobj termcheckThreshold t₀
    (Observed.start t₀ : Observed Int32 ℚ (List Int32) n) where
  reached := LTS.Reaches.refl _
  passed := trivial
  last _ ha := by cases ha
  reads _ ha := by cases ha
  follows := List.isChain_nil

/-- A read that notes the value of bucket `m`. -/
theorem Passed.read (hwf : t₀.WF hashobj) (hI : ObservedInv hashobj termcheckThreshold t₀ o)
    {m : ℕ} {q : ℚ} (h : Passed t₀ o m q) {c : Bucket Int32 ℚ (List Int32)}
    (hc : o.state.engine.table.find c.k = some c) (hk : t₀.layout m = some c.k) (pc : CheckPc) :
    Passed t₀ { o with
      state := { o.state with pc := pc }
      seen := recorded o.seen (some (c.k, c.v2)) } (m + 1) (q + c.v2) := by
  have hvalue : value o.state.engine.table c.k = c.v2 := by
    rw [value, hc, Option.elim_some]
  have hnew : c.k ∉ scanned t₀ m := by
    have hnodup := nodup_scanned hwf (m + 1)
    rw [scanned_succ, hk, Option.toList_some, List.nodup_append] at hnodup
    exact fun hmem => hnodup.2.2 c.k hmem c.k (by simp) rfl
  have hsucc : scanned t₀ (m + 1) = scanned t₀ m ++ [c.k] := by
    rw [scanned_succ, hk, Option.toList_some]
  refine ⟨h.running, ?_, fun a ha => ?_⟩
  · rw [hsucc]
    exact h.reads.snoc hnew hvalue.ge
  · rw [hsucc]
    refine (h.ahead a ha).snoc hnew fun x hx => ?_
    have hmem : c.k ∈ scanned t₀ t₀.size := by
      rw [mem_scanned_size hwf, StateTable.mem_vertices, ← StateTable.exists_layout_iff]
      exact ⟨m, hk⟩
    obtain ⟨x', hx', hle⟩ := (hI.reads a (List.mem_of_mem_head? ha)).read c.k hmem
    rw [hx, Option.some.injEq] at hx'
    rw [hx', ← hvalue]
    exact hle

/-- A read that passes bucket `m`, which is empty, or goes on to the next statement. -/
theorem PassedAt.of_next {m : ℕ} {q : ℚ} (h : Passed t₀ o m q) (pc : CheckPc)
    (hpc : ∀ k, t₀.layout m = some k → pc = .test m q)
    (hempty : t₀.layout m = none → pc = .next (m + 1) q) :
    PassedAt t₀ { o with state := { o.state with pc := pc } } pc := by
  cases hk : t₀.layout m with
  | some k =>
    rw [hpc k hk]
    exact ⟨⟨h.running, h.reads, h.ahead⟩, k, hk⟩
  | none =>
    have hsucc : scanned t₀ (m + 1) = scanned t₀ m := by
      rw [scanned_succ, hk, Option.toList_none, List.append_nil]
    rw [hempty hk]
    refine ⟨h.running, ?_, ?_⟩
    · rw [hsucc]
      exact h.reads
    · rw [hsucc]
      exact h.ahead

/-- The bucket that the check looks at. -/
theorem ObservedInv.bucket (hload : Loaded hashobj pagerankIterateKernel t₀)
    (hI : ObservedInv hashobj termcheckThreshold t₀ o) {m : ℕ} {k : Int32}
    (hk : t₀.layout m = some k) {c : Bucket Int32 ℚ (List Int32)}
    (hc : o.state.engine.table.buckets[m]? = some c) :
    o.state.engine.table.find c.k = some c ∧ t₀.layout m = some c.k := by
  have hwf := (Engine.inv_loaded hload hI.reached).wf
  rw [← (layout_reaches hI.reached).2] at hk ⊢
  obtain ⟨c', hc', hu, rfl⟩ := StateTable.layout_eq_some_iff.1 hk
  rw [hc, Option.some.injEq] at hc'
  subst hc'
  exact ⟨hwf.find_of_getElem? hc hu, hk⟩

theorem observedInv_read (hload : Loaded hashobj pagerankIterateKernel t₀)
    (hI : ObservedInv hashobj termcheckThreshold t₀ o) {pc : CheckPc}
    (h : scanStep pagerankIterateKernel id o.state.engine.table o.state.pc = some pc) :
    PassedAt t₀ { o with
      state := { o.state with pc := pc }
      seen := recorded o.seen (noted pagerankIterateKernel o.state.engine.table o.state.pc) }
      pc := by
  have hwf := hload.good.wf
  obtain ⟨hsize, hlay⟩ := layout_reaches hI.reached
  have hpassed := hI.passed
  cases hpc : o.state.pc with
  | idle =>
    rw [hpc] at h
    cases h
  | next m q =>
    rw [hpc] at h hpassed
    simp only [scanStep] at h
    split_ifs at h with hm
    obtain ⟨c, hc, rfl⟩ := Option.map_eq_some_iff.1 h
    refine PassedAt.of_next hpassed _ (fun k hk => ?_) fun hnone => ?_
    · rw [← hlay] at hk
      obtain ⟨c', hc', hu, -⟩ := StateTable.layout_eq_some_iff.1 hk
      rw [hc, Option.some.injEq] at hc'
      rw [hc', if_pos hu]
    · rw [← hlay] at hnone
      rw [StateTable.layout_eq_none_iff.1 hnone c hc]
      rfl
  | test m q =>
    rw [hpc] at h hpassed
    obtain ⟨hpassed, k, hk⟩ := hpassed
    obtain ⟨c, hc, rfl⟩ := Option.map_eq_some_iff.1 h
    obtain ⟨hfind, hkey⟩ := hI.bucket hload hk hc
    simp only [noted, hc, Option.bind_some]
    split_ifs with hv
    · exact ⟨⟨hpassed.running, hpassed.reads, hpassed.ahead⟩, k, hk⟩
    · -- the value is the default, and adds nothing
      have hread := hpassed.read hwf hI hfind hkey (.next (m + 1) q)
      have hzero : c.v2 = 0 := not_not.1 hv
      rw [hzero, add_zero] at hread
      rw [hzero]
      exact hread
  | add m q =>
    rw [hpc] at h hpassed
    obtain ⟨hpassed, k, hk⟩ := hpassed
    obtain ⟨c, hc, rfl⟩ := Option.map_eq_some_iff.1 h
    obtain ⟨hfind, hkey⟩ := hI.bucket hload hk hc
    simp only [noted, hc, Option.map_some]
    exact hpassed.read hwf hI hfind hkey _

theorem observedInv_step (hload : Loaded hashobj pagerankIterateKernel t₀)
    (hI : ObservedInv hashobj termcheckThreshold t₀ o) {a : Action Int32 n}
    (h : Observed.Step hashobj pagerankIterateKernel id termcheckThreshold o a o') :
    ObservedInv hashobj termcheckThreshold t₀ o' := by
  cases h with
  | work h =>
    cases h with
    | @work a e hwork =>
      have hmono := value_le_step hload hI.reached hwork
      have hpassed := hI.passed
      have hkeep : ∀ {m q} pc, Passed t₀ o m q →
          Passed t₀ { o with state := { o.state with engine := e, pc := pc } } m q := fun _ h =>
        ⟨h.running, h.reads.mono hmono, h.ahead⟩
      refine ⟨hI.reached.trans (LTS.Run.single hwork).reaches, ?_, hI.last,
        fun a ha => (hI.reads a ha).mono hmono, hI.follows⟩
      show PassedAt t₀ _ o.state.pc
      cases hpc : o.state.pc <;> rw [hpc] at hpassed
      case idle => trivial
      case next => exact hkeep _ hpassed
      case test | add => exact ⟨hkeep _ hpassed.1, hpassed.2⟩
  | check h =>
    cases h with
    | check hpc hterm =>
      exact ⟨hI.reached, ⟨hterm, readAll_nil _ _, fun _ _ k hk => by cases hk⟩, hI.last, hI.reads,
        hI.follows⟩
  | read h =>
    cases h with
    | read hread =>
      exact ⟨hI.reached, observedInv_read hload hI hread, hI.last, hI.reads, hI.follows⟩
  | @answer s totalCurrent hpc h =>
    cases h with
    | @answer q hpc' =>
      rw [hpc, CheckPc.next.injEq] at hpc'
      obtain ⟨-, rfl⟩ := hpc'
      have hpassed := hI.passed
      rw [hpc] at hpassed
      obtain ⟨hrunning, hreads, hahead⟩ := hpassed
      rw [(layout_reaches hI.reached).1] at hreads hahead
      refine ⟨hI.reached, trivial, ?_, ?_, ?_⟩
      · intro b hb
        rw [List.head?_cons, Option.mem_some_iff] at hb
        subst hb
        exact ⟨rfl, fun hfalse => Diff.last_terminate hfalse⟩
      · intro b hb
        rcases List.mem_cons.1 hb with rfl | hb
        · exact hreads
        · exact hI.reads b hb
      · refine List.isChain_cons.2 ⟨fun a ha => ⟨hahead a ha, fun htrue => ?_⟩, hI.follows⟩
        obtain ⟨hanswer, hlast⟩ := hI.last a ha
        have hclose := Diff.terminate_iff.1 htrue
        rwa [hlast (hanswer ▸ hrunning)] at hclose

/-- **The record of every run.** -/
theorem observedInv_reaches (hload : Loaded hashobj pagerankIterateKernel t₀)
    (h : LTS.Reaches (Observed.Step hashobj pagerankIterateKernel id termcheckThreshold)
      (Observed.start t₀) o) : ObservedInv hashobj termcheckThreshold t₀ o :=
  h.invariant (fun _ _ _ hI hstep => observedInv_step hload hI hstep) observedInv_start

/-- **The estimates of PageRank.**  Of two consecutive checks, in any run of the threads and the
main thread, the later one has the larger sum or the same; and if it terminates the table, it has
read of every vertex a value that exceeds the value read by the earlier one by at most the
threshold. -/
theorem pagerank_scans (hload : Loaded hashobj pagerankIterateKernel t₀)
    (h : LTS.Reaches (Observed.Step hashobj pagerankIterateKernel id termcheckThreshold)
      (Observed.start t₀) o) {newer older : List (Scan Int32 ℚ)} {a b : Scan Int32 ℚ}
    (hscans : o.scans = newer ++ b :: a :: older) :
    a.result ≤ b.result ∧ (b.answer = true → ∀ k ∈ t₀.vertices, ∃ x y,
      a.value k = some x ∧ b.value k = some y ∧ y - x ≤ termcheckThreshold) := by
  have hwf := hload.good.wf
  have hI := observedInv_reaches hload h
  have hfollows := hI.follows
  rw [hscans, List.isChain_append, List.isChain_cons_cons] at hfollows
  obtain ⟨hahead, hclose⟩ := hfollows.2.1.1
  have ha := hI.reads a (by rw [hscans]; simp)
  have hb := hI.reads b (by rw [hscans]; simp)
  have hread : ∀ k ∈ t₀.vertices, ∃ x y, a.value k = some x ∧ b.value k = some y ∧ x ≤ y := by
    intro k hk
    rw [← mem_scanned_size hwf] at hk
    obtain ⟨x, hx, -⟩ := ha.read k hk
    obtain ⟨y, hy, -⟩ := hb.read k hk
    exact ⟨x, y, hx, hy, hahead k hk x y hx hy⟩
  have hle : ∀ k ∈ t₀.vertices, 0 ≤ (b.value k).getD 0 - (a.value k).getD 0 := by
    intro k hk
    obtain ⟨x, y, hx, hy, hxy⟩ := hread k hk
    rw [hx, hy]
    exact sub_nonneg.2 hxy
  have hsum : b.result - a.result
      = ∑ k ∈ t₀.vertices, ((b.value k).getD 0 - (a.value k).getD 0) := by
    rw [Finset.sum_sub_distrib, ← sum_scanned hwf, ← sum_scanned hwf, ← ha.sum, ← hb.sum]
  refine ⟨sub_nonneg.1 (hsum ▸ Finset.sum_nonneg hle), fun htrue k hk => ?_⟩
  obtain ⟨x, y, hx, hy, hxy⟩ := hread k hk
  refine ⟨x, y, hx, hy, ?_⟩
  calc y - x = (b.value k).getD 0 - (a.value k).getD 0 := by rw [hx, hy]; rfl
    _ ≤ ∑ k ∈ t₀.vertices, ((b.value k).getD 0 - (a.value k).getD 0) :=
      Finset.single_le_sum hle hk
    _ = b.result - a.result := hsum.symm
    _ ≤ |b.result - a.result| := le_abs_self _
    _ ≤ termcheckThreshold := hclose htrue

end Pagerank

/-- A vertex without links. -/
def rankSource (v1 v2 : ℚ) (totalUpdates : ℕ) : StateTable Int32 ℚ (List Int32) :=
  ⟨[⟨0, v1, v2, [], v1, true⟩], 1, 1, totalUpdates⟩

/-- The vertex is processed between two checks; the second one terminates the table. -/
theorem pagerank_scans_rankSource : ∃ (o : Observed Int32 ℚ (List Int32) 1) (a b : Scan Int32 ℚ),
    o.scans = [b, a] ∧ o.state.terminated = true ∧ a.result = 0 ∧ b.result = 0.2 ∧
      a.result ≤ b.result ∧ ∃ x y, a.value 0 = some x ∧ b.value 0 = some y ∧ y - x ≤ 0.5 := by
  have hload : Loaded Engine.idHash pagerankIterateKernel (rankSource 0.2 0 0) :=
    ⟨1, 1, [(0, [])], by decide +kernel⟩
  let e₀ : Engine Int32 ℚ (List Int32) 1 := Engine.start (rankSource 0.2 0 0)
  let e₁ : Engine Int32 ℚ (List Int32) 1 := ⟨rankSource 0 0.2 1, fun _ => []⟩
  have hwork : LTS.Run (Engine.Step Engine.idHash pagerankIterateKernel) e₀ [.absorb 0 0] e₁ :=
    Engine.run_of_schedule [(0, 0)] (by decide +kernel)
  obtain ⟨_, hwork, hnil⟩ := hwork.cons_inv
  rw [← hnil.nil_inv] at hwork
  let a : Scan Int32 ℚ := ⟨Function.update (fun _ => none) 0 (some 0), 0, false⟩
  let b : Scan Int32 ℚ := ⟨Function.update (fun _ => none) 0 (some 0.2), 0.2, true⟩
  have hfirst : LTS.Run (Observed.Step Engine.idHash pagerankIterateKernel id 0.5)
      (Observed.start (rankSource 0.2 0 0)) [.check, .read, .read, .answer]
      ⟨⟨e₀, ⟨0, 0⟩, .idle, false⟩, a.value, [a]⟩ := by
    have htest : Observed.Step Engine.idHash pagerankIterateKernel id 0.5
        ⟨⟨e₀, Diff.new, .test 0 0, false⟩, fun _ => none, []⟩ .read
        ⟨⟨e₀, Diff.new, .next 1 0, false⟩, a.value, []⟩ :=
      step_read (some (0, 0)) (by decide +kernel) (by decide +kernel)
    exact LTS.Run.cons (.check (.check rfl rfl)) (LTS.Run.cons (step_read none rfl rfl)
      (LTS.Run.cons htest (LTS.Run.single (step_answer rfl (by decide +kernel)))))
  have hmiddle : LTS.Run (Observed.Step Engine.idHash pagerankIterateKernel id 0.5)
      ⟨⟨e₀, ⟨0, 0⟩, .idle, false⟩, a.value, [a]⟩ [.work (.absorb 0 0)]
      ⟨⟨e₁, ⟨0, 0⟩, .idle, false⟩, a.value, [a]⟩ := LTS.Run.single (.work (.work hwork))
  have hsecond : LTS.Run (Observed.Step Engine.idHash pagerankIterateKernel id 0.5)
      ⟨⟨e₁, ⟨0, 0⟩, .idle, false⟩, a.value, [a]⟩ [.check, .read, .read, .read, .answer]
      ⟨⟨e₁, ⟨0, 0.2⟩, .idle, true⟩, b.value, [b, a]⟩ := by
    have htest : Observed.Step Engine.idHash pagerankIterateKernel id 0.5
        ⟨⟨e₁, ⟨0, 0⟩, .test 0 0, false⟩, fun _ => none, [a]⟩ .read
        ⟨⟨e₁, ⟨0, 0⟩, .add 0 0, false⟩, fun _ => none, [a]⟩ :=
      step_read none (by decide +kernel) (by decide +kernel)
    have hadd : Observed.Step Engine.idHash pagerankIterateKernel id 0.5
        ⟨⟨e₁, ⟨0, 0⟩, .add 0 0, false⟩, fun _ => none, [a]⟩ .read
        ⟨⟨e₁, ⟨0, 0⟩, .next 1 0.2, false⟩, b.value, [a]⟩ :=
      step_read (some (0, 0.2)) (by decide +kernel) (by decide +kernel)
    exact LTS.Run.cons (.check (.check rfl rfl)) (LTS.Run.cons (step_read none rfl rfl)
      (LTS.Run.cons htest (LTS.Run.cons hadd (LTS.Run.single (step_answer rfl
        (by decide +kernel))))))
  obtain ⟨hle, hclose⟩ := pagerank_scans hload ((hfirst.append hmiddle).append hsecond).reaches
    (show _ = [] ++ b :: a :: [] from rfl)
  exact ⟨⟨⟨e₁, ⟨0, 0.2⟩, .idle, true⟩, b.value, [b, a]⟩, a, b, rfl, rfl, rfl, rfl, hle,
    hclose rfl 0 (by decide +kernel)⟩

end TermCheck

end Maiter
