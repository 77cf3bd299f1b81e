import Maiter.Engine.Basic
import Maiter.Loading.ReadData
import Maiter.StateTable.FiniteMap

/-!
# The first phase

`MaiterKernel1`: `init_table` makes a table of `num_nodes` buckets, and `read_file` puts a row for
every line of the input.  The parser `read_data` of the kernel is a parameter.

* `readLine`, `readFile`, `initTable`: the functions of the source;
* `readRows`: the keys and data that are put;
* `initTable_iff`: the table is the one that `load` makes from these rows;
* `loaded_of_initTable`: so every table of the first phase is one that the second phase starts with;
* `represents_load`: a table with room for all keys holds the last row of every key.

The local variable `key` of `read_file` has no initial value.  In the model it has an arbitrary one
in every turn of the loop, `leftover`; the variable `data` starts empty.
-/

namespace Maiter

open Fallible (bind_eq_ok_iff mapError_eq_ok_iff)

namespace Loading

variable {K V D : Type} [DecidableEq K] [Inhabited (Bucket K V D)] [Inhabited D]

section Defs

variable (hashobj : K → ℕ) (kernel : IterateKernel K V D)
  (readData : List Char → K → D → Except LoadFault (K × D)) (leftover : ℕ → K) (depth : ℕ)

/-- A turn of the loop of `read_file`; the counter is `_line`. -/
def readLine (s : StateTable K V D × ℕ) (linechr : List Char) :
    Except LoadFault (StateTable K V D × ℕ) := do
  let (t, line) := s
  let (key, data) ← readData linechr (leftover line) default
  let value := kernel.initV key data
  let delta := kernel.initC key data
  let t ← (t.put hashobj kernel depth key delta value data).mapError .fault
  if line < intMax then return (t, line + 1) else throw (.fault .intOverflow)

/-- `read_file`: the table and `line`. -/
def readFile (numThreads : ℕ) (t : StateTable K V D) (lines : List (List Char)) :
    Except LoadFault (StateTable K V D × ℕ) := do
  let (t, line) ← lines.foldlM (readLine hashobj kernel readData leftover depth) (t, 0)
  if numThreads > line then throw .fewLines else return (t, line)

/-- `init_table`. -/
def initTable (numThreads : ℕ) (numNodes : ℤ) (lines : List (List Char)) :
    Except LoadFault (StateTable K V D × ℕ) := do
  let t ← (StateTable.fresh hashobj kernel depth numNodes).mapError .fault
  readFile hashobj kernel readData leftover depth numThreads t lines

/-- The keys and data that `read_data` leaves, line by line; the first line has number `i`. -/
def readRows (i : ℕ) (lines : List (List Char)) : Except LoadFault (List (K × D)) :=
  (lines.zipIdx i).mapM fun l => readData l.1 (leftover l.2) default

/-- The `put` of a row. -/
def putRow (t : StateTable K V D) (row : K × D) : Except Fault (StateTable K V D) :=
  t.put hashobj kernel depth row.1 (kernel.initC row.1 row.2) (kernel.initV row.1 row.2) row.2

end Defs

variable {hashobj : K → ℕ} {kernel : IterateKernel K V D}
  {readData : List Char → K → D → Except LoadFault (K × D)} {leftover : ℕ → K} {depth : ℕ}

omit [DecidableEq K] [Inhabited (Bucket K V D)] in
theorem readRows_cons_iff {i : ℕ} {line : List Char} {lines : List (List Char)}
    {rows : List (K × D)} :
    readRows readData leftover i (line :: lines) = .ok rows ↔
      ∃ row rows', readData line (leftover i) default = .ok row ∧
        readRows readData leftover (i + 1) lines = .ok rows' ∧ rows = row :: rows' := by
  unfold readRows
  rw [List.zipIdx_cons, List.mapM_cons, bind_eq_ok_iff]
  constructor
  · rintro ⟨row, hrow, h⟩
    obtain ⟨rows', hrows', h⟩ := bind_eq_ok_iff.1 h
    cases h
    exact ⟨row, rows', hrow, hrows', rfl⟩
  · rintro ⟨row, rows', hrow, hrows', rfl⟩
    exact ⟨row, hrow, by rw [hrows']; rfl⟩

/-- A turn of the loop puts a row and counts the line. -/
theorem readLine_iff {t t' : StateTable K V D} {i m : ℕ} {line : List Char} :
    readLine hashobj kernel readData leftover depth (t, i) line = .ok (t', m) ↔
      ∃ row, readData line (leftover i) default = .ok row ∧
        putRow hashobj kernel depth t row = .ok t' ∧ m = i + 1 ∧ m ≤ intMax := by
  unfold readLine
  rw [bind_eq_ok_iff]
  refine exists_congr fun row => and_congr_right fun _ => ?_
  rw [bind_eq_ok_iff]
  constructor
  · rintro ⟨t'', hput, h⟩
    split_ifs at h with hi
    cases h
    exact ⟨mapError_eq_ok_iff.1 hput, rfl, hi⟩
  · rintro ⟨hput, rfl, hi⟩
    exact ⟨t', mapError_eq_ok_iff.2 hput, if_pos hi⟩

/-- **The loop of `read_file`** puts the rows one after the other. -/
theorem readLines_iff (lines : List (List Char)) : ∀ {t t' : StateTable K V D} {i m : ℕ},
    i ≤ intMax →
    (lines.foldlM (readLine hashobj kernel readData leftover depth) (t, i) = .ok (t', m) ↔
      ∃ rows, readRows readData leftover i lines = .ok rows ∧
        rows.foldlM (putRow hashobj kernel depth) t = .ok t' ∧ m = i + lines.length ∧
        m ≤ intMax) := by
  induction lines with
  | nil =>
    intro t t' i m hi
    constructor
    · intro h
      cases h
      exact ⟨[], rfl, rfl, rfl, hi⟩
    · rintro ⟨rows, hrows, hput, rfl, -⟩
      cases hrows
      cases hput
      rfl
  | cons line lines ih =>
    intro t t' i m hi
    rw [List.foldlM_cons, bind_eq_ok_iff]
    constructor
    · rintro ⟨⟨t₁, i'⟩, hline, h⟩
      obtain ⟨row, hrow, hput, rfl, hi'⟩ := readLine_iff.1 hline
      obtain ⟨rows, hrows, hputs, rfl, hm⟩ := (ih hi').1 h
      refine ⟨row :: rows, readRows_cons_iff.2 ⟨row, rows, hrow, hrows, rfl⟩, ?_, ?_, hm⟩
      · rw [List.foldlM_cons, hput]
        exact hputs
      · rw [List.length_cons]
        omega
    · rintro ⟨rows, hrows, hputs, hm, hle⟩
      obtain ⟨row, rows', hrow, hrows', rfl⟩ := readRows_cons_iff.1 hrows
      rw [List.foldlM_cons, bind_eq_ok_iff] at hputs
      obtain ⟨t₁, hput, hputs⟩ := hputs
      rw [List.length_cons] at hm
      have hi' : i + 1 ≤ intMax := by omega
      exact ⟨(t₁, i + 1), readLine_iff.2 ⟨row, hrow, hput, rfl, hi'⟩,
        (ih hi').2 ⟨rows', hrows', hputs, by omega, hle⟩⟩

theorem readFile_iff {numThreads : ℕ} {t t' : StateTable K V D} {lines : List (List Char)}
    {line : ℕ} :
    readFile hashobj kernel readData leftover depth numThreads t lines = .ok (t', line) ↔
      (∃ rows, readRows readData leftover 0 lines = .ok rows ∧
        rows.foldlM (putRow hashobj kernel depth) t = .ok t') ∧
      line = lines.length ∧ line ≤ intMax ∧ numThreads ≤ line := by
  unfold readFile
  rw [bind_eq_ok_iff]
  constructor
  · rintro ⟨⟨t₁, m⟩, hlines, h⟩
    obtain ⟨rows, hrows, hputs, hm, hle⟩ := (readLines_iff lines (Nat.zero_le _)).1 hlines
    simp only at h
    split_ifs at h with hfew
    cases h
    exact ⟨⟨rows, hrows, hputs⟩, by omega, hle, not_lt.1 hfew⟩
  · rintro ⟨⟨rows, hrows, hputs⟩, hm, hle, hfew⟩
    exact ⟨(t', line), (readLines_iff lines (Nat.zero_le _)).2
      ⟨rows, hrows, hputs, by omega, hle⟩, if_neg (not_lt.2 hfew)⟩

omit [Inhabited D] in
/-- `load` puts the rows into a fresh table. -/
theorem load_eq_fresh {numNodes : ℤ} {rows : List (K × D)} :
    StateTable.load hashobj kernel depth numNodes rows =
      StateTable.fresh hashobj kernel depth numNodes >>=
        fun t => rows.foldlM (putRow hashobj kernel depth) t := by
  unfold StateTable.load StateTable.fresh
  rw [bind_assoc]
  rfl

/-- **The first phase** loads the rows that `read_data` leaves. -/
theorem initTable_iff {numThreads : ℕ} {numNodes : ℤ} {t : StateTable K V D}
    {lines : List (List Char)} {line : ℕ} :
    initTable hashobj kernel readData leftover depth numThreads numNodes lines = .ok (t, line) ↔
      (∃ rows, readRows readData leftover 0 lines = .ok rows ∧
        StateTable.load hashobj kernel depth numNodes rows = .ok t) ∧
      line = lines.length ∧ line ≤ intMax ∧ numThreads ≤ line := by
  unfold initTable
  rw [bind_eq_ok_iff]
  constructor
  · rintro ⟨t₀, hfresh, h⟩
    obtain ⟨⟨rows, hrows, hputs⟩, hline⟩ := readFile_iff.1 h
    refine ⟨⟨rows, hrows, ?_⟩, hline⟩
    rw [load_eq_fresh, mapError_eq_ok_iff.1 hfresh]
    exact hputs
  · rintro ⟨⟨rows, hrows, hload⟩, hline⟩
    rw [load_eq_fresh] at hload
    obtain ⟨t₀, hfresh, hputs⟩ := bind_eq_ok_iff.1 hload
    exact ⟨t₀, mapError_eq_ok_iff.2 hfresh, readFile_iff.2 ⟨⟨rows, hrows, hputs⟩, hline⟩⟩

/-- Every table of the first phase is loaded. -/
theorem loaded_of_initTable {numThreads : ℕ} {numNodes : ℤ} {t : StateTable K V D}
    {lines : List (List Char)} {line : ℕ}
    (h : initTable hashobj kernel readData leftover depth numThreads numNodes lines
      = .ok (t, line)) : Loaded hashobj kernel t := by
  obtain ⟨⟨rows, -, hload⟩, -⟩ := initTable_iff.1 h
  exact ⟨depth, numNodes, rows, hload⟩

/-! ### What a loaded table holds -/

/-- The data of the last row with a key. -/
def lastData (rows : List (K × D)) (k : K) : Option D :=
  (rows.reverse.find? (·.1 = k)).map (·.2)

/-- The map that rows are loaded into. -/
def rowMap (kernel : IterateKernel K V D) (rows : List (K × D)) : StateTable.RowMap K V D :=
  fun k => (lastData rows k).map fun data => ⟨kernel.initC k data, kernel.initV k data, data⟩

omit [Inhabited (Bucket K V D)] [Inhabited D] in
theorem lastData_concat (rows : List (K × D)) (row : K × D) (k : K) :
    lastData (rows ++ [row]) k = if row.1 = k then some row.2 else lastData rows k := by
  by_cases h : row.1 = k <;> simp [lastData, h]

omit [Inhabited (Bucket K V D)] [Inhabited D] in
theorem mem_of_lastData {rows : List (K × D)} {k : K} {data : D}
    (h : lastData rows k = some data) : (k, data) ∈ rows := by
  obtain ⟨row, hfind, rfl⟩ := Option.map_eq_some_iff.1 h
  have hk : row.1 = k := by simpa using List.find?_some hfind
  rw [← hk]
  exact List.mem_reverse.1 (List.mem_of_find?_eq_some hfind)

variable (kernel) in
/-- The call of `put` for a row. -/
def putCall (row : K × D) : StateTable.Call K V D :=
  .put row.1 (kernel.initC row.1 row.2) (kernel.initV row.1 row.2) row.2

open StateTable in
omit [Inhabited (Bucket K V D)] [Inhabited D] in
theorem applyAll_puts (rows : List (K × D)) :
    applyAll kernel (rows.map (putCall kernel)) = rowMap kernel rows := by
  induction rows using List.reverseRecOn with
  | nil => rfl
  | append_singleton rows row ih =>
    rw [List.map_append, List.map_singleton, applyAll_append, ih]
    funext k
    rw [rowMap, lastData_concat]
    by_cases hk : row.1 = k
    · subst hk
      simp [putCall, Call.apply]
    · simp [putCall, Call.apply, rowMap, Function.update_of_ne (Ne.symm hk), hk]

open StateTable in
omit [Inhabited (Bucket K V D)] [Inhabited D] in
theorem valid_puts (rows : List (K × D)) : Valid kernel (rows.map (putCall kernel)) := by
  refine valid_of_puts fun c hc => ?_
  obtain ⟨row, -, rfl⟩ := List.mem_map.1 hc
  exact Option.some_ne_none row.1

variable (kernel) in
open StateTable in
omit [Inhabited (Bucket K V D)] [Inhabited D] in
theorem putKeys_puts (rows : List (K × D)) :
    putKeys (rows.map (putCall kernel)) = (rows.map (·.1)).toFinset := by
  have hput : Call.putKey ∘ putCall kernel = some ∘ (·.1 : K × D → K) := rfl
  rw [putKeys, List.filterMap_map, hput, List.filterMap_eq_map]

variable (hashobj kernel) in
open StateTable in
omit [Inhabited D] in
/-- **A table with room for all keys** holds exactly the last rows of the keys. -/
theorem represents_load [Zero V] (depth : ℕ) {n : ℕ} (hn : 0 < n) (hfits : n ≤ intMax)
    {rows : List (K × D)} (hroom : (rows.map (·.1)).toFinset.card ≤ n) :
    ∃ t, load hashobj kernel (depth + 1) n rows = .ok t ∧
      Represents hashobj n t (rowMap kernel rows) ∧
      t.vertices = (rows.map (·.1)).toFinset := by
  rw [← putKeys_puts kernel] at hroom ⊢
  obtain ⟨t, ht, hrep, hv⟩ := represents_execAll hashobj depth hn hfits
    (rows.map (putCall kernel)) (valid_puts rows) hroom
  rw [applyAll_puts] at hrep
  refine ⟨t, ?_, hrep, hv⟩
  rw [load_eq_fresh, ← ht, execAll]
  simp only [List.foldlM_map]
  rfl

end Loading

end Maiter
