import Maiter.EntirePass
import Maiter.Engine.LockRange
import Maiter.SecondPhase.Rounds

/-!
# The three phases

`runMaiter` loads the input file, runs the threads until the scheduler has left, and writes the
values to the result file.

* `GraphFile`: the input files that describe a graph;
* `first_phase`: they are loaded, and the table is the graph;
* `locks_of_reaches`: all mutexes that the second phase takes exist;
* `frozen`: after the scheduler has left no thread changes the table;
* `dump_file`: the third phase writes one line for every vertex.
-/

namespace Maiter

open SecondPhase (Action)
open StateTable (Represents)
open Loading (initTable readRows rowMap lastData)
open Vertexlock (Links Within)

variable {V D : Type} {n : ℕ}

namespace RunMaiter

/-- The ids of the rows of a file. -/
def ids (rows : List (Int32 × D)) : Finset Int32 := (rows.map (·.1)).toFinset

/-- The links of a vertex: those of the last row with its id. -/
def linksOf {L : Type} (rows : List (Int32 × List L)) (k : Int32) : List L :=
  (lastData rows k).getD []

/-- A file that describes a graph: there are buckets for all ids and a line for each thread, the ids
are numbers below the number of lines, and every link leads to an id. -/
structure GraphFile {kernel : IterateKernel Int32 V D} (links : Links kernel)
    (numThreads numNodes : ℕ) (rows : List (Int32 × D)) : Prop where
  threads : numThreads ≤ rows.length
  lines_fit : rows.length ≤ intMax
  nodes_pos : 0 < numNodes
  nodes_fit : numNodes ≤ intMax
  room : (ids rows).card ≤ numNodes
  within : ∀ row ∈ rows, Within rows.length row.1.toInt
  closed : ∀ row ∈ rows, ∀ k ∈ links.targets row.2, ∃ row' ∈ rows, row'.1 = k

section First

variable [Inhabited D] {kernel : IterateKernel Int32 V D} {links : Links kernel}
  {readData : List Char → Int32 → D → Except Loading.LoadFault (Int32 × D)}
  {leftover : ℕ → Int32} {numNodes : ℕ} {lines : List (List Char)} {rows : List (Int32 × D)}

theorem length_of_readRows : ∀ {lines : List (List Char)} {i : ℕ} {rows : List (Int32 × D)},
    readRows readData leftover i lines = .ok rows → rows.length = lines.length := by
  intro lines
  induction lines with
  | nil =>
    intro i rows h
    cases h
    rfl
  | cons line lines ih =>
    intro i rows h
    obtain ⟨row, rows', -, h', rfl⟩ := Loading.readRows_cons_iff.1 h
    rw [List.length_cons, List.length_cons, ih h']

theorem readRows_of_forall₂
    (h : List.Forall₂ (fun line row => ∀ k₀, readData line k₀ default = .ok row) lines rows) :
    ∀ i, readRows readData leftover i lines = .ok rows := by
  induction h with
  | nil => exact fun i => rfl
  | cons hline _ ih =>
    exact fun i => Loading.readRows_cons_iff.2 ⟨_, _, hline (leftover i), ih (i + 1), rfl⟩

/-- **The first phase** makes the graph of the file. -/
theorem first_phase [Zero V] [Inhabited (Bucket Int32 V D)] (hashobj : Int32 → ℕ)
    (hfile : GraphFile links n numNodes rows)
    (hrows : readRows readData leftover 0 lines = .ok rows) (depth : ℕ) :
    ∃ t₀, initTable hashobj kernel readData leftover (depth + 1) n numNodes lines
        = .ok (t₀, lines.length) ∧
      Represents hashobj numNodes t₀ (rowMap kernel rows) ∧ t₀.vertices = ids rows := by
  obtain ⟨t₀, hload, hrep, hv⟩ := Loading.represents_load hashobj kernel depth hfile.nodes_pos
    hfile.nodes_fit hfile.room
  have hlen := length_of_readRows hrows
  refine ⟨t₀, Loading.initTable_iff.2 ⟨⟨rows, hrows, hload⟩, rfl, ?_, ?_⟩, hrep, hv⟩
  · exact hlen ▸ hfile.lines_fit
  · exact hlen ▸ hfile.threads

end First

/-- In a table that holds rows, the adjacency data of a vertex are its links. -/
theorem linksOf_of_mem {L : Type} {hashobj : Int32 → ℕ} {kernel : IterateKernel Int32 V (List L)}
    {numNodes : ℕ} {rows : List (Int32 × List L)} {t : StateTable Int32 V (List L)}
    (hrep : Represents hashobj numNodes t (rowMap kernel rows)) {c : Bucket Int32 V (List L)}
    (hc : c ∈ t.stored) : linksOf rows c.k = c.v3 := by
  have hfind := hrep.find c.k
  rw [hrep.wf.find_eq_some_iff.2 ⟨hc, rfl⟩, Option.map_some, eq_comm] at hfind
  obtain ⟨data, hdata, hrow⟩ := Option.map_eq_some_iff.1 hfind
  rw [linksOf, hdata, Option.getD_some]
  exact (Row.mk.inj hrow).2.2

section Second

variable [Zero V] {hashobj : Int32 → ℕ} {kernel : IterateKernel Int32 V D} {links : Links kernel}
  {threadId : Fin n → ℕ} {numNodes : ℕ} {rows : List (Int32 × D)} {t₀ : StateTable Int32 V D}
  {s s' : SecondPhase.State Int32 V D n}

/-- **The second phase** takes no mutex that does not exist. -/
theorem locks_of_reaches [DecidableEq V] [Inhabited (Bucket Int32 V D)]
    (hid : Function.Injective threadId)
    (hfile : GraphFile links n numNodes rows) (hload : Loaded hashobj kernel t₀)
    (hrep : Represents hashobj numNodes t₀ (rowMap kernel rows)) (hv : t₀.vertices = ids rows)
    (h : SecondPhase.Reaches threadId hashobj kernel (SecondPhase.start threadId t₀) s)
    {w : Fin n} {i : ℤ} (hi : s.threads.lockIndex w = some i) : Within rows.length i :=
  Vertexlock.within_of_inRange hload ((Vertexlock.inRange_iff hrep hv hfile.closed).2 hfile.within)
    (SecondPhase.threads_reaches hid hload h) hi

/-- A step after the scheduler has left: every thread waits, and only the main thread is left. -/
theorem frozen_effect (hI : SecondPhase.Inv threadId hashobj kernel t₀ s)
    (hexit : s.control.sched = .exited) {a : Action n}
    (h : SecondPhase.Effect threadId hashobj kernel s a s') :
    s'.control.sched = .exited ∧ s'.threads = s.threads := by
  have hwait : ∀ w, s.control.worker w = .waiting := by
    have hphase := hI.control.phase
    rw [hexit] at hphase
    exact hphase
  cases h with
  | sched hcontrol _ => simp [Handshake.schedStep, hexit] at hcontrol
  | terminate => exact ⟨hexit, rfl⟩
  | control hcontrol _ _ => simp [Handshake.workerStep, hwait] at hcontrol
  | enter hw _ _ => simp [hwait] at hw
  | send hw _ _ _ => simp [hwait] at hw
  | iterate hw _ _ _ _ => simp [hwait] at hw
  | deliver hw _ _ _ => simp [hwait] at hw

/-- **After the scheduler has left** no thread changes the table. -/
theorem frozen [DecidableEq V] [Inhabited (Bucket Int32 V D)]
    (hid : Function.Injective threadId) (hload : Loaded hashobj kernel t₀)
    (h : SecondPhase.Reaches threadId hashobj kernel (SecondPhase.start threadId t₀) s)
    (hexit : s.control.sched = .exited) (h' : SecondPhase.Reaches threadId hashobj kernel s s') :
    s'.threads = s.threads := by
  refine (h'.invariant (I := fun u => SecondPhase.Inv threadId hashobj kernel t₀ u ∧
    u.control.sched = .exited ∧ u.threads = s.threads) ?_
    ⟨SecondPhase.inv_reaches hid hload h, hexit, rfl⟩).2.2
  rintro u a v ⟨hI, hu, hthreads⟩ hstep
  have heffect := SecondPhase.step_effect (fun w => (hI.agrees w).synced) hstep
  obtain ⟨hv, heq⟩ := frozen_effect hI hu heffect
  exact ⟨SecondPhase.inv_effect hid hI heffect, hv, heq.trans hthreads⟩

end Second

/-- **The third phase** writes one line for every vertex, with its value. -/
theorem dump_file (kernel : IterateKernel Int32 V D) {hashobj : Int32 → ℕ}
    {t : StateTable Int32 V D} (hwf : t.WF hashobj) (toDouble : V → ℚ) :
    ∃ d, dump kernel toDouble t = .ok d ∧
      d.totalF1 = (t.stored.map fun c => toDouble c.v1).sum ∧
      d.totalF2 = (t.stored.map fun c => toDouble c.v2).sum ∧
      d.file = t.stored.map (fun c => (c.k, c.v2)) ∧
      (d.file.map (·.1)).Perm t.vertices.toList := by
  refine ⟨_, dump_eq hwf.len hwf.fits, rfl, rfl, rfl, ?_⟩
  rw [List.map_map]
  exact (List.toFinset_toList hwf.nodup_keys).symm

section Run

variable [DecidableEq V] [Zero V] [Inhabited (Bucket Int32 V D)] [Inhabited D]
  {kernel : IterateKernel Int32 V D} {links : Links kernel} {threadId : Fin n → ℕ}
  {readData : List Char → Int32 → D → Except Loading.LoadFault (Int32 × D)}
  {leftover : ℕ → Int32} {numNodes : ℕ} {lines : List (List Char)} {rows : List (Int32 × D)}

end Run

/-- The vertices `0` and `1`. -/
def twoLines : List (List Char) := ["0\t0 1".toList, "1\t0".toList]

def twoRows : List (Int32 × List Int32) := [(0, [0, 1]), (1, [0])]

theorem readRows_twoLines :
    readRows Loading.readData (fun _ => 0) 0 twoLines = .ok twoRows := by decide +kernel

theorem graphFile_twoRows : GraphFile Vertexlock.pagerankLinks 1 2 twoRows where
  threads := by decide
  lines_fit := by decide
  nodes_pos := by decide
  nodes_fit := by decide
  room := by decide
  within := by simp [twoRows, Within]
  closed := by simp [twoRows, Vertexlock.pagerankLinks]

/-- The only thread, `w`, takes `k` steps in one full scan; then the table is terminated. -/
def oneScan (w : Fin 1) (k : ℕ) : List (Action 1) :=
  List.replicate 3 (Action.worker w) ++ List.replicate 10 Action.sched ++
    List.replicate k (Action.worker w) ++ Action.terminate :: List.replicate 9 Action.sched

/-- The table of `twoLines`, before the full scan. -/
def twoLinesTable : StateTable Int32 ℚ (List Int32) :=
  ⟨[⟨0, 0.2, 0, [0, 1], 0.2, true⟩, ⟨1, 0.2, 0, [0], 0.2, true⟩], 2, 2, 0⟩

theorem initTable_twoLines : initTable Engine.idHash pagerankIterateKernel Loading.readData
    (fun _ => 0) 1 1 2 twoLines = .ok (twoLinesTable, 2) := by decide +kernel

theorem exec_oneScan : ∃ s, SecondPhase.exec (fun _ => 7) Engine.idHash pagerankIterateKernel
      (SecondPhase.start (fun _ => 7) twoLinesTable) (oneScan 0 38) = some s ∧
    s.control.sched = .exited ∧ s.control.round = 1 := by
  have hrun : (SecondPhase.exec (fun _ => 7) Engine.idHash pagerankIterateKernel
      (SecondPhase.start (fun _ => 7) twoLinesTable) (oneScan 0 38)).map
        (fun s => (s.control.sched, s.control.round)) = some (.exited, 1) := by decide +kernel
  rw [Option.map_eq_some_iff] at hrun
  simpa only [Prod.mk.injEq] using hrun

end RunMaiter

end Maiter
