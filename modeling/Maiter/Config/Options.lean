import Maiter.Config.LoadConfig
import Maiter.Kernels
import Maiter.Loading.ReadData

/-!
# The options of a run

The functions of `cmdopts.h` that look up an option, the constructor of `MaiterKernel` that calls
them, and the globals that the four programs set.

* `getConfigOptionString`, `getConfigOptionInt`, `getConfigOptionLong`, `getConfigOptionDouble`;
* `MaiterKernel`, `MaiterKernel.new`: the settings of a run;
* `katzMain`, `adsorptionMain`, `shortestpathMain`: the kernels with the globals of the programs;
* `maiterKernel_render`: settings that are written to a configuration file are the settings of the
  run.

`atof` is a parameter, and a `double` that is configured is a rational number.
-/

namespace Maiter

namespace Config

section Defs

/-- `atol`, returned as a `uint64_t`. -/
def atol (s : List Char) : UInt64 := (Int64.ofInt (Decimal.strtol s)).toUInt64

/-- `get_config_option_string` with a default. -/
def getConfigOptionString (conf : Conf) (optionName defaultValue : List Char) : List Char :=
  (conf optionName).getD defaultValue

/-- `get_config_option_int` with a default. -/
def getConfigOptionInt (conf : Conf) (optionName : List Char) (defaultValue : Int32) : Int32 :=
  (conf optionName).elim defaultValue Loading.atoi

/-- `get_config_option_long`. -/
def getConfigOptionLong (conf : Conf) (optionName : List Char) (defaultValue : UInt64) : UInt64 :=
  (conf optionName).elim defaultValue atol

/-- `get_config_option_double`. -/
def getConfigOptionDouble (atof : List Char → ℚ) (conf : Conf) (optionName : List Char)
    (defaultValue : ℚ) : ℚ :=
  (conf optionName).elim defaultValue atof

/-- The settings in a `MaiterKernel`, with the globals that its constructor assigns. -/
structure MaiterKernel where
  numThreads : Int32
  numNodes : Int64
  schedulePortion : ℚ
  input : List Char
  output : List Char
  line : Int32
  termcheckInterval : ℚ
  termcheckThreshold : ℚ
  deriving DecidableEq

/-- The constructor of `MaiterKernel`. -/
def MaiterKernel.new (atof : List Char → ℚ) (conf : Conf) : MaiterKernel where
  numThreads := getConfigOptionInt conf "THREADS".toList 0
  numNodes := (getConfigOptionLong conf "NODES".toList 0).toInt64
  schedulePortion := getConfigOptionDouble atof conf "PORTION".toList 0
  input := getConfigOptionString conf "INPUT".toList "input/pagerank".toList
  output := getConfigOptionString conf "RESULT".toList "input/pagerank".toList
  line := 0
  termcheckInterval := getConfigOptionDouble atof conf "TERMCHECKINTERVAL".toList 1
  termcheckThreshold := getConfigOptionDouble atof conf "TERMTHRESH".toList 0

/-- The kernel of `Katz()`; `katz_beta` is a `double` that is read as a `long`. -/
def katzMain (conf : Conf) : IterateKernel Int32 ℚ (List Int32) :=
  katzIterateKernel (getConfigOptionLong conf "katz_source".toList 0)
    (getConfigOptionLong conf "katz_beta".toList 0).toNat

/-- The kernel of `Adsorption()`, which assigns neither of its globals. -/
def adsorptionMain : IterateKernel Int32 ℚ (List Link) := adsorptionIterateKernel 0 0

/-- The kernel of `Shortestpath()`, with `imax` as `+∞`. -/
def shortestpathMain (conf : Conf) : IterateKernel Int32 (WithTop ℚ) (List Link) :=
  shortestpathIterateKernel (fun d w => d + (w : WithTop ℚ)) ⊤
    (getConfigOptionLong conf "SHORTESTPATH".toList 0)

end Defs

/-! ### Writing the settings -/

theorem lastVal_of_mem {entries : List (List Char × List Char)}
    (hnodup : (entries.map (·.1)).Nodup) {key val : List Char} (h : (key, val) ∈ entries) :
    lastVal entries key = some val := by
  induction entries using List.reverseRecOn with
  | nil => cases h
  | append_singleton entries e ih =>
    rw [List.map_append, List.nodup_append] at hnodup
    obtain ⟨hnodup, -, hne⟩ := hnodup
    rcases List.mem_append.1 h with h | h
    · have hk : e.1 ≠ key := fun he =>
        hne key (List.mem_map.2 ⟨_, h, rfl⟩) e.1 (by simp) he.symm
      have hlast := ih hnodup h
      rw [lastVal] at hlast ⊢
      rw [List.reverse_append, List.reverse_singleton, List.singleton_append,
        List.find?_cons_of_neg (by simpa using hk), hlast]
    · rw [List.mem_singleton] at h
      subst h
      simp [lastVal]

theorem atol_print (z : Int64) : (atol (Decimal.print z.toInt)).toInt64 = z := by
  have hl := z.le_toInt
  have hu := z.toInt_lt
  rw [atol, Decimal.strtol_numeral (Decimal.numeral_print _) (by simpa using hl) (by omega)]
  simp

/-- The settings of a run as they are written; the last three texts are those of the `double`s. -/
def MaiterKernel.entries (m : MaiterKernel) (portion interval threshold : List Char) :
    List (List Char × List Char) :=
  [("THREADS".toList, Decimal.print m.numThreads.toInt),
    ("NODES".toList, Decimal.print m.numNodes.toInt), ("PORTION".toList, portion),
    ("INPUT".toList, m.input), ("RESULT".toList, m.output),
    ("TERMCHECKINTERVAL".toList, interval), ("TERMTHRESH".toList, threshold)]

/-- **The settings that are written are those of the run**, in any order, between other settings
and comments. -/
theorem maiterKernel_render {atof : List Char → ℚ} {m : MaiterKernel}
    (portion interval threshold : List Char) {ls : List Line} (hvalid : ∀ l ∈ ls, l.Valid)
    (hnodup : ((ls.filterMap Line.sets).map (·.1)).Nodup)
    (hentries : ∀ e ∈ m.entries portion interval threshold, e ∈ ls.filterMap Line.sets)
    (hline : m.line = 0) (hportion : atof portion = m.schedulePortion)
    (hinterval : atof interval = m.termcheckInterval)
    (hthreshold : atof threshold = m.termcheckThreshold) :
    (loadconfig (some (render ls))).map (MaiterKernel.new atof) = .ok m := by
  simp only [MaiterKernel.entries, List.forall_mem_cons] at hentries
  obtain ⟨hthreads, hnodes, hpor, hinput, hresult, hint, hthr, -⟩ := hentries
  have hget : ∀ key val, (key, val) ∈ ls.filterMap Line.sets →
      lastVal (ls.filterMap Line.sets) key = some val := fun _ _ h => lastVal_of_mem hnodup h
  rw [loadconfig_render hvalid]
  show Except.ok _ = _
  rw [MaiterKernel.new, getConfigOptionInt, getConfigOptionLong, getConfigOptionDouble,
    getConfigOptionDouble, getConfigOptionDouble, getConfigOptionString, getConfigOptionString,
    hget _ _ hthreads, hget _ _ hnodes, hget _ _ hpor, hget _ _ hinput, hget _ _ hresult,
    hget _ _ hint, hget _ _ hthr]
  simp only [Option.elim_some, Option.getD_some, Loading.atoi_id (Loading.id_print _), atol_print,
    hportion, hinterval, hthreshold, ← hline]

/-- The lines of `conf/maiter-p_v0.0.cnf`. -/
def shippedLines : List Line :=
  [("ALGORITHM", "Pagerank"), ("THREADS", "16"), ("INPUT", "input/pagerank"),
    ("RESULT", "result/pagerank"), ("NODES", "1000000"), ("TERMTHRESH", "0.001"),
    ("PORTION", "0.2"), ("TERMCHECKINTERVAL", "1")].map fun e =>
      .setting [] e.1.toList [] [] e.2.toList []

/-- The numbers in this file. -/
def shippedAtof (s : List Char) : ℚ :=
  if s = "0.2".toList then 0.2 else if s = "0.001".toList then 0.001 else 1

theorem maiterKernel_render_shipped :
    (loadconfig (some ("ALGORITHM=Pagerank\nTHREADS=16\nINPUT=input/pagerank\n" ++
      "RESULT=result/pagerank\nNODES=1000000\nTERMTHRESH=0.001\nPORTION=0.2\n" ++
      "TERMCHECKINTERVAL=1\n").toList)).map (MaiterKernel.new shippedAtof)
      = .ok ⟨16, 1000000, 0.2, "input/pagerank".toList, "result/pagerank".toList, 0, 1, 0.001⟩ := by
  have hfile : render shippedLines = ("ALGORITHM=Pagerank\nTHREADS=16\nINPUT=input/pagerank\n" ++
      "RESULT=result/pagerank\nNODES=1000000\nTERMTHRESH=0.001\nPORTION=0.2\n" ++
      "TERMCHECKINTERVAL=1\n").toList := by decide +kernel
  rw [← hfile]
  exact maiterKernel_render "0.2".toList "1".toList "0.001".toList (by decide +kernel)
    (by decide +kernel) (by decide +kernel) rfl rfl rfl rfl

end Config

end Maiter
