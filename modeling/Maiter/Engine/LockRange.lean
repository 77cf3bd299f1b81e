import Maiter.Engine.VertexLock
import Maiter.Loading.OtherLines

/-!
# The vertex locks that are taken

The second phase makes one mutex for each line of the input file, and `run_iter` indexes them by
vertex ids.

* `lockIndex`: the argument of the next call of `lock` or `unlock`;
* `Links`: the targets of the messages, which the adjacency data lists;
* `Rest`, `Sends`, `sends_effect`: a thread goes through the targets of a stored vertex in order,
  and gets past a target only if it is stored;
* `InRange`: the vertices that are locked have indices in the array;
* `Solo`: a thread that runs alone, for the other direction;
* `locks_exist_iff`: when every index lies in the array.
-/

namespace Maiter

open StateTable (Represents)
open Engine (keepsKey_accumulated keepsKey_cleared)
open Loading (initTable readRows rowMap lastData)

variable {V D : Type} {n : ℕ}

namespace Vertexlock

/-- The argument of the call of `lock` or `unlock` that a thread makes next: the key that its
references point to, or the target of its message. -/
def State.lockIndex (s : State Int32 V D n) (w : Fin n) : Option ℤ :=
  match s.pc w with
  | .lock pos | .unlock pos => (s.table.buckets[pos]?).map (·.k.toInt)
  | .lockTarget kvpair _ | .unlockTarget kvpair _ => some kvpair.1.toInt
  | _ => none

/-- The link targets that the adjacency data lists: `g_func` sends one message to each. -/
structure Links (kernel : IterateKernel Int32 V D) where
  targets : D → List Int32
  gFunc : ∀ k delta value data, (kernel.gFunc k delta value data).map (·.1) = targets data

def pagerankLinks : Links pagerankIterateKernel := ⟨id, fun _ _ _ _ => by
  simp [pagerankIterateKernel, Function.comp_def]⟩

def katzLinks (katzSource : UInt64) (katzBeta : ℚ) :
    Links (katzIterateKernel katzSource katzBeta) := ⟨id, fun _ _ _ _ => by
  simp [katzIterateKernel, Function.comp_def]⟩

def adsorptionLinks (adsorptionStarts : UInt64) (adsorptionDamping : ℚ) :
    Links (adsorptionIterateKernel adsorptionStarts adsorptionDamping) :=
  ⟨List.map (·.dest), fun _ _ _ _ => by simp [adsorptionIterateKernel, Function.comp_def]⟩

def shortestpathLinks [LinearOrder V] [Zero V] [Sub V] (plus : V → ℚ → V) (imax : V)
    (shortestpathSource : UInt64) :
    Links (shortestpathIterateKernel plus imax shortestpathSource) :=
  ⟨List.map (·.dest), fun _ _ _ _ => by simp [shortestpathIterateKernel, Function.comp_def]⟩

/-- The index is in the array of `line` mutexes. -/
def Within (line : ℕ) (i : ℤ) : Prop := 0 ≤ i ∧ i < line

variable {hashobj : Int32 → ℕ} {kernel : IterateKernel Int32 V D} {links : Links kernel}
  {t₀ : StateTable Int32 V D} {s s' : State Int32 V D n} {w : Fin n} {line : ℕ}

/-- The targets `ks` are the rest of the targets of a stored vertex, and those before are
stored. -/
def Rest (links : Links kernel) (t₀ : StateTable Int32 V D) (ks : List Int32) : Prop :=
  ∃ c ∈ t₀.stored, ∃ done, links.targets c.v3 = done ++ ks ∧ ∀ j ∈ done, j ∈ t₀.vertices

/-- The messages of a thread are to targets of a stored vertex, in order. -/
def Sends (links : Links kernel) (t₀ : StateTable Int32 V D) :
    IterPc Int32 V → List (Int32 × V) → Prop
  | .outside, output | .lock _, output | .process _, output | .accumulate _, output
  | .send _, output => output = []
  | .reset _, output | .unlock _, output => Rest links t₀ (output.map (·.1))
  | .next rest, _ => Rest links t₀ (rest.map (·.1))
  | .lockTarget kvpair rest, _ | .apply kvpair rest, _ =>
      Rest links t₀ (kvpair.1 :: rest.map (·.1))
  | .unlockTarget kvpair rest, _ =>
      Rest links t₀ (kvpair.1 :: rest.map (·.1)) ∧ kvpair.1 ∈ t₀.vertices

/-- Every stored vertex, and every target of a stored vertex up to its first target that is not
stored, has an index in the array. -/
structure InRange (links : Links kernel) (line : ℕ) (t₀ : StateTable Int32 V D) : Prop where
  vertices : ∀ k ∈ t₀.vertices, Within line k.toInt
  targets : ∀ k ks, Rest links t₀ (k :: ks) → Within line k.toInt

/-! ### The messages of a run -/

/-- The next target is stored. -/
theorem Rest.tail {k : Int32} {ks : List Int32} (h : Rest links t₀ (k :: ks))
    (hk : k ∈ t₀.vertices) : Rest links t₀ ks := by
  obtain ⟨c, hc, done, htargets, hdone⟩ := h
  refine ⟨c, hc, done ++ [k], by simp [htargets], fun j hj => ?_⟩
  rcases List.mem_append.1 hj with hj | hj
  · exact hdone j hj
  · rwa [List.mem_singleton.1 hj]

/-- **What every step does to the messages.** -/
theorem sends_effect [Zero V] (hI : Inv hashobj t₀ s) (h : Effect kernel s w s')
    (hs : ∀ w, Sends links t₀ (s.pc w) (s.output w)) :
    ∀ w, Sends links t₀ (s'.pc w) (s'.output w) := by
  have hw := hs w
  cases h with
  | enter hpc hk =>
    rw [hpc] at hw
    exact forall_threads_goto hs rfl rfl hw
  | lock hpc hk hfree =>
    rw [hpc] at hw
    exact forall_threads_goto hs rfl rfl hw
  | process hpc =>
    rw [hpc] at hw
    exact forall_threads_goto hs rfl rfl hw
  | accumulate hpc hk =>
    rw [hpc] at hw
    exact forall_threads_goto hs rfl rfl hw
  | @send pos c hpc hk hc =>
    rw [hpc] at hw
    have hempty : s.output w = [] := hw
    refine forall_threads hs rfl rfl ?_
    -- the adjacency data is that of the loaded table
    have hdata := hI.graph c.k
    rw [hc, Option.map_some, eq_comm, Option.map_eq_some_iff] at hdata
    obtain ⟨c₀, hc₀, hv3⟩ := hdata
    refine ⟨c₀, (StateTable.find_some hc₀).1, [], ?_, by simp⟩
    rw [hempty, List.nil_append, List.nil_append, links.gFunc, hv3]
  | reset hpc hk =>
    rw [hpc] at hw
    exact forall_threads_goto hs rfl rfl hw
  | unlock hpc hk =>
    rw [hpc] at hw
    exact forall_threads_goto hs rfl rfl hw
  | leave hpc => exact forall_threads hs rfl rfl rfl
  | next hpc =>
    rw [hpc] at hw
    exact forall_threads_goto hs rfl rfl hw
  | lockTarget hpc hfree =>
    rw [hpc] at hw
    exact forall_threads_goto hs rfl rfl hw
  | apply hpc hk =>
    rw [hpc] at hw
    rw [hI.graph.vertices] at hk
    exact forall_threads_goto hs rfl rfl ⟨hw, hk⟩
  | unlockTarget hpc =>
    rw [hpc] at hw
    exact forall_threads_goto hs rfl rfl (hw.1.tail hw.2)

/-- **Every index lies in the array** if the vertices and targets have such indices. -/
theorem within_of_inRange [Zero V] [Inhabited (Bucket Int32 V D)]
    (hload : Loaded hashobj kernel t₀) (hrange : InRange links line t₀)
    (h : Reaches hashobj kernel (start t₀) s) {i : ℤ} (hi : s.lockIndex w = some i) :
    Within line i := by
  obtain ⟨hI, hs⟩ := reaches_invariant (P := fun s => ∀ w, Sends links t₀ (s.pc w) (s.output w))
    hload (fun _ => rfl) (fun s w s' hI heffect hs => sends_effect hI heffect hs) h
  have hw := hs w
  -- the references point to a stored vertex
  have hpos : ∀ pos, (s.pc w).pos = some pos →
      (s.table.buckets[pos]?).map (·.k.toInt) = some i → Within line i := by
    intro pos hpos hkey
    obtain ⟨c, hc, rfl⟩ := Option.map_eq_some_iff.1 hkey
    have hst := (hI.stored_of_refers hpos hc).2
    refine hrange.vertices c.k ?_
    rw [← hI.graph.vertices]
    exact StateTable.mem_vertices.2 ⟨c, hst, rfl⟩
  unfold State.lockIndex at hi
  cases hpc : s.pc w <;> rw [hpc] at hi hw hpos
  case lock pos => exact hpos pos rfl hi
  case unlock pos => exact hpos pos rfl hi
  case lockTarget kvpair rest =>
    cases hi
    exact hrange.targets kvpair.1 _ hw
  case unlockTarget kvpair rest =>
    cases hi
    exact hrange.targets kvpair.1 _ hw.1
  all_goals cases hi

/-! ### A thread that runs alone -/

/-- Thread `w` is at a program point with its output buffer, and holds at most one mutex; no other
mutex is held. -/
structure Solo (hashobj : Int32 → ℕ) (t₀ : StateTable Int32 V D) (s : State Int32 V D n)
    (w : Fin n) (pc : IterPc Int32 V) (output : List (Int32 × V)) (held : Option Int32) :
    Prop where
  inv : Inv hashobj t₀ s
  pc : s.pc w = pc
  output : s.output w = output
  free : ∀ k, some k ≠ held → s.mutex k = none

/-- The entry in the bucket that a layout says. -/
theorem Inv.find_of_layout (hI : Inv hashobj t₀ s) {pos : ℕ} {k : Int32}
    (hk : s.table.layout pos = some k) : ∃ c, s.table.find k = some c := by
  obtain ⟨c, hc, hck⟩ := StateTable.exists_layout_iff.1 ⟨pos, hk⟩
  exact ⟨c, hI.wf.find_eq_some_iff.2 ⟨hc, hck⟩⟩

variable [Zero V] {pc pc' : IterPc Int32 V} {output output' : List (Int32 × V)}
  {held held' : Option Int32}

omit [Zero V] in
theorem solo_start [Inhabited (Bucket Int32 V D)] (hload : Loaded hashobj kernel t₀)
    (w : Fin n) : Solo hashobj t₀ (start t₀) w .outside [] none :=
  ⟨inv_start hload, rfl, rfl, fun _ _ => rfl⟩

variable (kernel) in
/-- A step that moves no entry. -/
theorem Solo.step (h : Solo hashobj t₀ s w pc output held) (heffect : Effect kernel s w s')
    (hlay : s'.table.layout = s.table.layout) (hpc : s'.pc = Function.update s.pc w pc')
    (hout : s'.output w = output') (hfree : ∀ k, some k ≠ held' → s'.mutex k = none) :
    ∃ s', Reaches hashobj kernel s s' ∧ Solo hashobj t₀ s' w pc' output' held' ∧
      s'.table.layout = s.table.layout := by
  obtain ⟨pos, hstep⟩ := exists_step_of_effect h.inv heffect
  exact ⟨s', (LTS.Run.single hstep).reaches,
    ⟨inv_effect h.inv heffect, by rw [hpc, Function.update_self], hout, hfree⟩, hlay⟩

variable (kernel) in
/-- A step that changes neither the output buffer nor a mutex. -/
theorem Solo.goto (h : Solo hashobj t₀ s w pc output held) (heffect : Effect kernel s w s')
    (hlay : s'.table.layout = s.table.layout) (hpc : s'.pc = Function.update s.pc w pc')
    (hout : s'.output = s.output) (hmutex : s'.mutex = s.mutex) :
    ∃ s', Reaches hashobj kernel s s' ∧ Solo hashobj t₀ s' w pc' output held ∧
      s'.table.layout = s.table.layout :=
  h.step kernel heffect hlay hpc (by rw [hout, h.output]) (by rw [hmutex]; exact h.free)

variable (kernel) in
/-- A step that takes the mutex of `k`. -/
theorem Solo.lock (h : Solo hashobj t₀ s w pc output none) (heffect : Effect kernel s w s')
    (hlay : s'.table.layout = s.table.layout) (hpc : s'.pc = Function.update s.pc w pc')
    (hout : s'.output = s.output) {k : Int32}
    (hmutex : s'.mutex = Function.update s.mutex k (some w)) :
    ∃ s', Reaches hashobj kernel s s' ∧ Solo hashobj t₀ s' w pc' output (some k) ∧
      s'.table.layout = s.table.layout := by
  refine h.step kernel heffect hlay hpc (by rw [hout, h.output]) fun k' hk' => ?_
  have hne : k' ≠ k := fun he => hk' (congrArg some he)
  rw [hmutex, Function.update_of_ne hne, h.free k' (Option.some_ne_none k')]

variable (kernel) in
/-- A step that releases it. -/
theorem Solo.unlock {k : Int32} (h : Solo hashobj t₀ s w pc output (some k))
    (heffect : Effect kernel s w s') (hlay : s'.table.layout = s.table.layout)
    (hpc : s'.pc = Function.update s.pc w pc') (hout : s'.output = s.output)
    (hmutex : s'.mutex = Function.update s.mutex k none) :
    ∃ s', Reaches hashobj kernel s s' ∧ Solo hashobj t₀ s' w pc' output none ∧
      s'.table.layout = s.table.layout := by
  refine h.step kernel heffect hlay hpc (by rw [hout, h.output]) fun k' _ => ?_
  by_cases hk : k' = k
  · rw [hmutex, hk, Function.update_self]
  · rw [hmutex, Function.update_of_ne hk, h.free k' (mt Option.some.inj hk)]

variable (kernel) in
/-- The first critical section of a thread that runs alone. -/
theorem Solo.section (h : Solo hashobj t₀ s w .outside [] none) {pos : ℕ} {k : Int32}
    (hk : s.table.layout pos = some k) :
    ∃ s' c delta value, Reaches hashobj kernel s s' ∧ t₀.find k = some c ∧
      Solo hashobj t₀ s' w (.next (kernel.gFunc k delta value c.v3))
        (kernel.gFunc k delta value c.v3) none := by
  have hfree : ∀ {s : State Int32 V D n} {pc output}, Solo hashobj t₀ s w pc output none →
      s.mutex k = none := fun h => h.free k (Option.some_ne_none k)
  obtain ⟨s₁, hr₁, h₁, hlay₁⟩ := h.goto kernel (.enter h.pc hk) rfl rfl rfl rfl
  have hk₁ := (congrFun hlay₁ pos).trans hk
  obtain ⟨s₂, hr₂, h₂, hlay₂⟩ := h₁.lock kernel (.lock h₁.pc hk₁ (hfree h₁)) rfl rfl rfl rfl
  have hk₂ := (congrFun hlay₂ pos).trans hk₁
  obtain ⟨s₃, hr₃, h₃, hlay₃⟩ := h₂.goto kernel (.process h₂.pc) rfl rfl rfl rfl
  have hk₃ := (congrFun hlay₃ pos).trans hk₂
  obtain ⟨s₄, hr₄, h₄, hlay₄⟩ := h₃.goto kernel (.accumulate h₃.pc hk₃)
    (StateTable.layout_rewriteAt (keepsKey_accumulated kernel) k) rfl rfl rfl
  have hk₄ := (congrFun hlay₄ pos).trans hk₃
  obtain ⟨c, hc⟩ := h₄.inv.find_of_layout hk₄
  obtain ⟨hst, rfl⟩ := StateTable.find_some hc
  obtain ⟨s₅, hr₅, h₅, hlay₅⟩ := h₄.step kernel (.send h₄.pc hk₄ hc) rfl rfl
    (Function.update_self ..) h₄.free
  have hk₅ := (congrFun hlay₅ pos).trans hk₄
  obtain ⟨s₆, hr₆, h₆, hlay₆⟩ := h₅.goto kernel (.reset h₅.pc hk₅)
    (StateTable.layout_rewriteAt (keepsKey_cleared kernel) c.k) rfl rfl rfl
  have hk₆ := (congrFun hlay₆ pos).trans hk₅
  obtain ⟨s₇, hr₇, h₇, -⟩ := h₆.unlock kernel (.unlock h₆.pc hk₆) rfl rfl rfl rfl
  -- the adjacency data is that of the loaded table
  have hdata := h₄.inv.graph c.k
  rw [hc, Option.map_some, eq_comm, Option.map_eq_some_iff] at hdata
  obtain ⟨c₀, hc₀, hv3⟩ := hdata
  refine ⟨s₇, c₀, c.v1, c.v2, ?_, hc₀, ?_⟩
  · exact (((((hr₁.trans hr₂).trans hr₃).trans hr₄).trans hr₅).trans hr₆).trans hr₇
  · rw [hv3]
    rw [h₆.output, h₄.output, List.nil_append] at h₇
    exact h₇

variable (kernel) in
/-- The delivery of messages to stored vertices. -/
theorem Solo.deliver (msgs : List (Int32 × V)) {rest : List (Int32 × V)}
    (hst : ∀ m ∈ msgs, m.1 ∈ t₀.vertices) :
    ∀ {s : State Int32 V D n}, Solo hashobj t₀ s w (.next (msgs ++ rest)) output none →
      ∃ s', Reaches hashobj kernel s s' ∧ Solo hashobj t₀ s' w (.next rest) output none := by
  induction msgs with
  | nil => exact fun h => ⟨_, LTS.Reaches.refl _, h⟩
  | cons m msgs ih =>
    intro s h
    obtain ⟨s₁, hr₁, h₁, -⟩ := h.goto kernel (.next h.pc) rfl rfl rfl rfl
    obtain ⟨s₂, hr₂, h₂, -⟩ := h₁.lock kernel
      (.lockTarget h₁.pc (h₁.free m.1 (Option.some_ne_none _))) rfl rfl rfl rfl
    have hm : m.1 ∈ s₂.table.vertices := by
      rw [h₂.inv.graph.vertices]
      exact hst m List.mem_cons_self
    obtain ⟨s₃, hr₃, h₃, -⟩ := h₂.goto kernel (.apply h₂.pc hm)
      (StateTable.layout_rewriteAt (Engine.keepsKey_received kernel m.2) m.1) rfl rfl rfl
    obtain ⟨s₄, hr₄, h₄, -⟩ := h₃.unlock kernel (.unlockTarget h₃.pc) rfl rfl rfl rfl
    obtain ⟨s', hr, h'⟩ := ih (fun m' hm' => hst m' (List.mem_cons_of_mem _ hm')) h₄
    exact ⟨s', (((hr₁.trans hr₂).trans hr₃).trans hr₄).trans hr, h'⟩

/-- **The converse**: a vertex whose index is not in the array is locked in some run. -/
theorem inRange_of_within [Inhabited (Bucket Int32 V D)] (links : Links kernel)
    (hload : Loaded hashobj kernel t₀) (w : Fin n)
    (h : ∀ s : State Int32 V D n, Reaches hashobj kernel (start t₀) s →
      ∀ w i, s.lockIndex w = some i → Within line i) : InRange links line t₀ where
  vertices k hk := by
    obtain ⟨pos, hpos⟩ := StateTable.exists_layout_iff.2 (StateTable.mem_vertices.1 hk)
    obtain ⟨s, hr, hs, hlay⟩ := (solo_start hload w).goto kernel (.enter rfl hpos) rfl rfl rfl rfl
    refine h s hr w k.toInt ?_
    obtain ⟨c, hc, -, rfl⟩ := StateTable.layout_eq_some_iff.1 ((congrFun hlay pos).trans hpos)
    rw [State.lockIndex, hs.pc]
    simp [hc]
  targets k ks hrest := by
    obtain ⟨c, hc, done, htargets, hdone⟩ := hrest
    obtain ⟨pos, hpos⟩ := StateTable.exists_layout_iff.2 ⟨c, hc, rfl⟩
    obtain ⟨s₁, c', delta, value, hr₁, hc', h₁⟩ := (solo_start hload w).section kernel hpos
    have hfind := hload.good.wf.find_eq_some_iff.2 ⟨hc, rfl⟩
    rw [hfind, Option.some.injEq] at hc'
    subst hc'
    have hmsgs := links.gFunc c.k delta value c.v3
    rw [htargets] at hmsgs
    obtain ⟨before, rest, hsplit, rfl, hrest⟩ := List.map_eq_append_iff.1 hmsgs
    obtain ⟨m, rest, rfl, rfl, rfl⟩ := List.map_eq_cons_iff.1 hrest
    rw [hsplit] at h₁
    obtain ⟨s₂, hr₂, h₂⟩ := h₁.deliver kernel before fun m hm => hdone m.1 (List.mem_map_of_mem hm)
    obtain ⟨s₃, hr₃, h₃, -⟩ := h₂.goto kernel (.next h₂.pc) rfl rfl rfl rfl
    refine h s₃ ((hr₁.trans hr₂).trans hr₃) w m.1.toInt ?_
    rw [State.lockIndex, h₃.pc]

/-! ### The input file -/

/-- Every index that `n` threads pass to `lock` and `unlock` in any run lies in the array. -/
def LocksExist (hashobj : Int32 → ℕ) (kernel : IterateKernel Int32 V D) (n line : ℕ)
    (t₀ : StateTable Int32 V D) : Prop :=
  ∀ s : State Int32 V D n, Reaches hashobj kernel (start t₀) s →
    ∀ w i, s.lockIndex w = some i → Within line i

omit [Zero V] in
/-- In a table that holds rows, with closed links, the indices are in the array if those of the
rows are. -/
theorem inRange_iff [Inhabited (Bucket Int32 V D)] {numNodes : ℕ} {rows : List (Int32 × D)}
    (hrep : Represents hashobj numNodes t₀ (rowMap kernel rows))
    (hv : t₀.vertices = (rows.map (·.1)).toFinset)
    (hclosed : ∀ row ∈ rows, ∀ k ∈ links.targets row.2, ∃ row' ∈ rows, row'.1 = k) :
    InRange links line t₀ ↔ ∀ row ∈ rows, Within line row.1.toInt := by
  constructor
  · intro h row hrow
    refine h.vertices row.1 ?_
    rw [hv]
    exact List.mem_toFinset.2 (List.mem_map_of_mem hrow)
  · intro h
    refine ⟨fun k hk => ?_, fun k ks hrest => ?_⟩
    · rw [hv, List.mem_toFinset] at hk
      obtain ⟨row, hrow, rfl⟩ := List.mem_map.1 hk
      exact h row hrow
    · obtain ⟨c, hc, done, htargets, -⟩ := hrest
      -- the adjacency data is that of a row
      have hfind := hrep.find c.k
      rw [hrep.wf.find_eq_some_iff.2 ⟨hc, rfl⟩, Option.map_some, eq_comm] at hfind
      obtain ⟨data, hdata, hrow⟩ := Option.map_eq_some_iff.1 hfind
      have hv3 : data = c.v3 := (Row.mk.inj hrow).2.2
      obtain ⟨row', hrow', rfl⟩ := hclosed (c.k, data) (Loading.mem_of_lastData hdata) k (by
        rw [hv3, htargets]
        simp)
      exact h row' hrow'

/-- **Every vertex lock taken exists** if and only if the stored vertices, and the targets of each
of them up to its first target that is not stored, have indices below the number of lines.  If the
table has room for all ids of the file and all link targets are ids, this says that all ids are
below the number of lines. -/
theorem locks_exist_iff [Inhabited (Bucket Int32 V D)] [Inhabited D] (links : Links kernel)
    {readData : List Char → Int32 → D → Except Loading.LoadFault (Int32 × D)}
    {leftover : ℕ → Int32} {depth numNodes : ℕ} {lines : List (List Char)}
    (h : initTable hashobj kernel readData leftover (depth + 1) (n + 1) numNodes lines
      = .ok (t₀, line)) :
    (LocksExist hashobj kernel (n + 1) line t₀ ↔ InRange links line t₀) ∧
    ∀ rows, readRows readData leftover 0 lines = .ok rows →
      (rows.map (·.1)).toFinset.card ≤ numNodes →
      (∀ row ∈ rows, ∀ k ∈ links.targets row.2, ∃ row' ∈ rows, row'.1 = k) →
      (LocksExist hashobj kernel (n + 1) line t₀ ↔ ∀ row ∈ rows, Within line row.1.toInt) := by
  have hload := Loading.loaded_of_initTable h
  have hexist : LocksExist hashobj kernel (n + 1) line t₀ ↔ InRange links line t₀ :=
    ⟨fun h => inRange_of_within links hload 0 h,
      fun hrange s hs w i hi => within_of_inRange hload hrange hs hi⟩
  refine ⟨hexist, fun rows hrows hroom hclosed => ?_⟩
  obtain ⟨⟨rows', hrows', hrun⟩, -⟩ := Loading.initTable_iff.1 h
  rw [hrows, Except.ok.injEq] at hrows'
  subst hrows'
  have hfresh := hrun
  rw [Loading.load_eq_fresh] at hfresh
  obtain ⟨t, hfresh, -⟩ := Fallible.bind_eq_ok_iff.1 hfresh
  have hpos := StateTable.pos_of_fresh hfresh
  obtain ⟨t', ht', hrep, hv⟩ := Loading.represents_load hashobj kernel depth (by omega)
    (StateTable.le_intMax_of_fresh hfresh) hroom
  rw [hrun, Except.ok.injEq] at ht'
  subst ht'
  rw [hexist]
  exact inRange_iff hrep hv hclosed

/-- The vertices `1` and `0` of a file, with a link to each other. -/
def backAndForth : StateTable Int32 ℚ (List Int32) :=
  ⟨[⟨0, 0.2, 0, [1], 0.2, true⟩, ⟨1, 0.2, 0, [0], 0.2, true⟩], 2, 2, 0⟩

theorem locks_exist_backAndForth :
    LocksExist Engine.idHash pagerankIterateKernel 2 2 backAndForth := by
  have hload : initTable Engine.idHash pagerankIterateKernel Loading.readData (fun _ => 0) 1 2
      ((2 : ℕ) : ℤ) [['1', '\t', '0'], ['0', '\t', '1']] = .ok (backAndForth, 2) := by
    decide +kernel
  have hrows : readRows Loading.readData (fun _ => 0) 0 [['1', '\t', '0'], ['0', '\t', '1']]
      = .ok [(1, [0]), (0, [1])] := by decide +kernel
  exact ((locks_exist_iff pagerankLinks hload).2 _ hrows (List.toFinset_card_le _)
    (by simp [pagerankLinks])).2 (by simp [Within])

/-- The line of a vertex `5` that links to itself. -/
def fiveLine : List Char := ['5', '\t', '5']

/-- The table of the file with this line. -/
def loadedFive : StateTable Int32 ℚ (List Int32) :=
  ⟨[⟨5, 0.2, 0, [5], 0.2, true⟩], 1, 1, 0⟩

/-- There is one mutex, and the first one that is locked has number `5`. -/
theorem not_locks_exist_five :
    Loading.VertexLine fiveLine 5 [5] ∧
    initTable Engine.idHash pagerankIterateKernel Loading.readData (fun _ => 0) 1 1 ((1 : ℕ) : ℤ)
      [fiveLine] = .ok (loadedFive, 1) ∧
    (∃ s : State Int32 ℚ (List Int32) 1,
      Reaches Engine.idHash pagerankIterateKernel (start loadedFive) s ∧
      s.lockIndex 0 = some 5 ∧ ¬ Within 1 5) ∧
    ¬ LocksExist Engine.idHash pagerankIterateKernel 1 1 loadedFive := by
  have hrun : ∃ s : State Int32 ℚ (List Int32) 1,
      Reaches Engine.idHash pagerankIterateKernel (start loadedFive) s ∧
      s.lockIndex 0 = some 5 ∧ ¬ Within 1 5 := by
    have hstep : Step Engine.idHash pagerankIterateKernel (start loadedFive) ((0 : Fin 1), 0)
        ((start loadedFive).goto 0 (.lock 0)) := rfl
    exact ⟨_, (LTS.Run.single hstep).reaches, rfl, by unfold Within; decide⟩
  refine ⟨Loading.vertexLine_selfLink (by decide) (by decide), by decide +kernel, hrun, fun h => ?_⟩
  obtain ⟨s, hs, hindex, hout⟩ := hrun
  exact hout (h s hs 0 5 hindex)

end Vertexlock

end Maiter
