import Maiter.Loading.ReadFile
import Maiter.Engine.SumKernels
import Mathlib.Data.FinEnum
import Mathlib.Data.List.ReduceOption

/-!
# Lines without a tab

Of a line without a tab `read_data` reads nothing, but `read_file` goes on and puts a row under the
leftover value of `key`.

* `Describes`: what a line of an input file says, nothing if it has no tab;
* `rowsRead`, `readRows_describes`: the rows that are put, line by line;
* `lastData_rowsRead_iff`: when a key has the row of its last well-formed line;
* `Loads`: the table holds what the well-formed lines say; `loads_iff`: when it does.
-/

namespace Maiter

open StateTable (Answers Represents RowMap)

namespace Loading

/-- What a line says: an id with its links, or nothing if it has no tab. -/
def Describes (line : List Char) : Option (Int32 × List Int32) → Prop
  | some (k, links) => VertexLine line k links
  | none => '\t' ∉ line

/-- The rows that `read_file` puts, from line number `i` on. -/
def rowsRead (leftover : ℕ → Int32) (i : ℕ) (contents : List (Option (Int32 × List Int32))) :
    List (Int32 × List Int32) :=
  (contents.zipIdx i).map fun l => l.1.getD (leftover l.2, [])

/-- What the well-formed lines say: their ids, each with delta `0.2`, value `0` and the links of
the last line with that id. -/
def contentMap (contents : List (Option (Int32 × List Int32))) : RowMap Int32 ℚ (List Int32) :=
  fun k => (lastData contents.reduceOption k).map fun links => ⟨0.2, 0, links⟩

variable {leftover : ℕ → Int32} {lines : List (List Char)}
  {contents : List (Option (Int32 × List Int32))}

theorem readRows_describes (h : List.Forall₂ Describes lines contents) :
    ∀ i, readRows readData leftover i lines = .ok (rowsRead leftover i contents) := by
  induction h with
  | nil => exact fun i => rfl
  | @cons line content lines contents hline _ ih =>
    intro i
    refine readRows_cons_iff.2 ⟨content.getD (leftover i, []), _, ?_, ih (i + 1), rfl⟩
    cases content with
    | none => exact readData_noTab hline (leftover i) []
    | some row => exact readData_vertexLine hline (leftover i) []

theorem rowsRead_concat (i : ℕ) (content : Option (Int32 × List Int32)) :
    rowsRead leftover i (contents ++ [content])
      = rowsRead leftover i contents ++ [content.getD (leftover (i + contents.length), [])] := by
  simp [rowsRead, List.zipIdx_append]

theorem length_rowsRead (i : ℕ) : (rowsRead leftover i contents).length = contents.length := by
  simp [rowsRead]

/-- Every well-formed line has a link. -/
theorem links_ne_nil (h : List.Forall₂ Describes lines contents) {k : Int32} {links : List Int32}
    (hmem : some (k, links) ∈ contents) : links ≠ [] := by
  obtain ⟨i, hi⟩ := List.mem_iff_getElem?.1 hmem
  have hlt : i < contents.length := (List.getElem?_eq_some_iff.1 hi).1
  have hline := List.forall₂_iff_get.1 h
  have hdesc := hline.2 i (hline.1 ▸ hlt) hlt
  rw [List.get_eq_getElem, List.get_eq_getElem, (List.getElem?_eq_some_iff.1 hi).2] at hdesc
  obtain ⟨_, _, _, hne, -⟩ := hdesc
  exact hne

/-- Every line without a tab at which `key` is left with `k` is followed by a well-formed line
for `k`. -/
def Covered (leftover : ℕ → Int32) (contents : List (Option (Int32 × List Int32))) (k : Int32) :
    Prop :=
  ∀ p s, contents = p ++ none :: s → leftover p.length = k → ∃ links, some (k, links) ∈ s

/-- A line without a tab is the last line or one before it. -/
theorem concat_eq_append_none {content : Option (Int32 × List Int32)}
    {p s : List (Option (Int32 × List Int32))} (h : contents ++ [content] = p ++ none :: s) :
    (contents = p ∧ content = none) ∨ ∃ s', contents = p ++ none :: s' ∧ s = s' ++ [content] := by
  rcases List.eq_nil_or_concat s with rfl | ⟨s', o, rfl⟩
  · obtain ⟨rfl, ho⟩ := List.append_inj' h rfl
    cases ho
    exact Or.inl ⟨rfl, rfl⟩
  · rw [List.concat_eq_append, ← List.cons_append, ← List.append_assoc] at h
    obtain ⟨hp, ho⟩ := List.append_inj' h rfl
    cases ho
    exact Or.inr ⟨s', hp, by rw [List.concat_eq_append]⟩

theorem covered_concat_some {row : Int32 × List Int32} {k : Int32} :
    Covered leftover (contents ++ [some row]) k ↔ row.1 = k ∨ Covered leftover contents k := by
  constructor
  · intro h
    by_cases hk : row.1 = k
    · exact Or.inl hk
    · refine Or.inr fun p s he hleft => ?_
      obtain ⟨links, hmem⟩ := h p (s ++ [some row]) (by simp [he]) hleft
      refine ⟨links, (List.mem_append.1 hmem).resolve_right fun hlast => ?_⟩
      rw [List.mem_singleton, Option.some.injEq] at hlast
      exact hk (by rw [← hlast])
  · intro h p s he hleft
    obtain ⟨-, hnone⟩ | ⟨s', hs', rfl⟩ := concat_eq_append_none he
    · cases hnone
    · rcases h with hk | h
      · exact ⟨row.2, by simp [← hk]⟩
      · obtain ⟨links, hmem⟩ := h p s' hs' hleft
        exact ⟨links, List.mem_append_left _ hmem⟩

theorem covered_concat_none {k : Int32} :
    Covered leftover (contents ++ [none]) k ↔
      leftover contents.length ≠ k ∧ Covered leftover contents k := by
  constructor
  · intro h
    refine ⟨fun hk => ?_, fun p s he hleft => ?_⟩
    · obtain ⟨links, hmem⟩ := h contents [] rfl hk
      cases hmem
    · obtain ⟨links, hmem⟩ := h p (s ++ [none]) (by simp [he]) hleft
      exact ⟨links, (List.mem_append.1 hmem).resolve_right (by simp)⟩
  · rintro ⟨hk, h⟩ p s he hleft
    obtain ⟨rfl, -⟩ | ⟨s', hs', rfl⟩ := concat_eq_append_none he
    · exact absurd hleft hk
    · obtain ⟨links, hmem⟩ := h p s' hs' hleft
      exact ⟨links, List.mem_append_left _ hmem⟩

/-- **A key has the row of its last well-formed line** if and only if it is covered. -/
theorem lastData_rowsRead_iff (hlinks : ∀ k links, some (k, links) ∈ contents → links ≠ [])
    (k : Int32) :
    lastData (rowsRead leftover 0 contents) k = lastData contents.reduceOption k ↔
      Covered leftover contents k := by
  induction contents using List.reverseRecOn with
  | nil => simp [rowsRead, Covered]
  | append_singleton contents content ih =>
    have ih := ih fun k links hmem => hlinks k links (List.mem_append_left _ hmem)
    rw [rowsRead_concat, lastData_concat, Nat.zero_add]
    cases content with
    | some row =>
      rw [List.reduceOption_append, List.reduceOption_singleton, Option.toList_some,
        lastData_concat, Option.getD_some, covered_concat_some, ← ih]
      by_cases hk : row.1 = k <;> simp [hk]
    | none =>
      rw [List.reduceOption_append, List.reduceOption_singleton, Option.toList_none,
        List.append_nil, Option.getD_none, covered_concat_none, ← ih]
      by_cases hk : leftover contents.length = k
      · rw [if_pos hk]
        refine iff_of_false (fun h => ?_) fun h => h.1 hk
        -- no well-formed line is without links
        have hmem := mem_of_lastData h.symm
        rw [List.reduceOption_mem_iff] at hmem
        exact hlinks k [] (List.mem_append_left _ hmem) rfl
      · simp [hk]

/-! ### The table -/

/-- `read_file` returns, and the table answers every query as the map of the well-formed lines. -/
def Loads (hashobj : Int32 → ℕ) (leftover : ℕ → Int32) (depth numThreads : ℕ)
    (t : StateTable Int32 ℚ (List Int32)) (lines : List (List Char))
    (contents : List (Option (Int32 × List Int32))) : Prop :=
  ∃ t', readFile hashobj pagerankIterateKernel readData leftover depth numThreads t lines
      = .ok (t', lines.length) ∧ Answers hashobj t' (contentMap contents)

variable {hashobj : Int32 → ℕ} {depth n numThreads : ℕ} {t : StateTable Int32 ℚ (List Int32)}

/-- With more buckets than lines, the table holds the rows that are put. -/
theorem readFile_represents
    (ht : StateTable.fresh hashobj pagerankIterateKernel (depth + 1) n = .ok t)
    (hroom : lines.length < n) (hthreads : numThreads ≤ lines.length)
    (hlines : List.Forall₂ Describes lines contents) (leftover : ℕ → Int32) :
    ∃ t', readFile hashobj pagerankIterateKernel readData leftover (depth + 1) numThreads t lines
        = .ok (t', lines.length) ∧
      Represents hashobj n t' (rowMap pagerankIterateKernel (rowsRead leftover 0 contents)) := by
  have hfits : n ≤ intMax := StateTable.le_intMax_of_fresh ht
  have hcard : ((rowsRead leftover 0 contents).map (·.1)).toFinset.card ≤ n := by
    have hle := List.toFinset_card_le ((rowsRead leftover 0 contents).map (·.1))
    rw [List.length_map, length_rowsRead, ← hlines.length_eq] at hle
    omega
  obtain ⟨t', hload, hrep, -⟩ := represents_load hashobj pagerankIterateKernel depth
    (by omega : 0 < n) hfits hcard
  rw [load_eq_fresh, ht, Fallible.ok_bind] at hload
  exact ⟨t', readFile_iff.2 ⟨⟨_, readRows_describes hlines 0, hload⟩, rfl, by omega, hthreads⟩,
    hrep⟩

theorem loads_iff_covered
    (ht : StateTable.fresh hashobj pagerankIterateKernel (depth + 1) n = .ok t)
    (hroom : lines.length < n) (hthreads : numThreads ≤ lines.length)
    (hlines : List.Forall₂ Describes lines contents) :
    Loads hashobj leftover (depth + 1) numThreads t lines contents ↔
      ∀ k, Covered leftover contents k := by
  obtain ⟨t', hread, hrep⟩ := readFile_represents ht hroom hthreads hlines leftover
  have hcovered : (∀ k, Covered leftover contents k) ↔
      contentMap contents = rowMap pagerankIterateKernel (rowsRead leftover 0 contents) := by
    rw [funext_iff]
    refine forall_congr' fun k => ?_
    rw [← lastData_rowsRead_iff (fun _ _ => links_ne_nil hlines), contentMap, rowMap, eq_comm]
    refine (Option.map_injective fun links links' h => ?_).eq_iff.symm
    exact (Row.mk.inj h).2.2
  rw [hcovered]
  constructor
  · rintro ⟨t'', hread', hans⟩
    rw [hread, Except.ok.injEq, Prod.mk.injEq] at hread'
    obtain ⟨rfl, -⟩ := hread'
    exact hrep.eq_of_answers hans
  · intro h
    exact ⟨t', hread, h ▸ hrep.answers⟩

/-- A well-formed line has a tab. -/
theorem VertexLine.tab_mem {line : List Char} {k : Int32} {links : List Int32}
    (h : VertexLine line k links) : '\t' ∈ line := by
  obtain ⟨id, ids, -, -, -, rfl | rfl⟩ := h <;> simp

theorem none_mem_iff (h : List.Forall₂ Describes lines contents) :
    none ∈ contents ↔ ∃ line ∈ lines, '\t' ∉ line := by
  induction h with
  | nil => simp
  | @cons line content lines contents hline _ ih =>
    rw [List.mem_cons, List.exists_mem_cons_iff, ih]
    refine or_congr_left ?_
    cases content with
    | none => exact iff_of_true rfl hline
    | some row => exact iff_of_false (Option.some_ne_none _).symm fun h => h hline.tab_mem

/-- There are more ids than lines. -/
theorem exists_notMem {S : Finset Int32} (h : S.card < 4294967296) : ∃ k, k ∉ S := by
  by_contra hall
  push Not at hall
  rw [Finset.eq_univ_iff_forall.2 hall, Finset.card_univ, ← FinEnum.card_eq_fintypeCard,
    FinEnum.card_Int32] at h
  omega

/-- **Loading ignores the lines without a tab** if and only if there are none: given the leftover
values, if and only if at each of them `key` is left with the id of a well-formed line further
down; and whatever these values are, if and only if every line has a tab. -/
theorem loads_iff (ht : StateTable.fresh hashobj pagerankIterateKernel (depth + 1) n = .ok t)
    (hroom : lines.length < n) (hthreads : numThreads ≤ lines.length)
    (hlines : List.Forall₂ Describes lines contents) :
    (∀ leftover, Loads hashobj leftover (depth + 1) numThreads t lines contents ↔
      ∀ p s, contents = p ++ none :: s → ∃ links, some (leftover p.length, links) ∈ s) ∧
    ((∀ leftover, Loads hashobj leftover (depth + 1) numThreads t lines contents) ↔
      ∀ line ∈ lines, '\t' ∈ line) := by
  have hloads : ∀ leftover, Loads hashobj leftover (depth + 1) numThreads t lines contents ↔
      ∀ p s, contents = p ++ none :: s → ∃ links, some (leftover p.length, links) ∈ s := by
    intro leftover
    rw [loads_iff_covered ht hroom hthreads hlines]
    exact ⟨fun h p s he => h _ p s he rfl, fun h k p s he hk => hk ▸ h p s he⟩
  refine ⟨hloads, ⟨fun h => ?_, fun h leftover => ?_⟩⟩
  · by_contra hline
    push Not at hline
    obtain ⟨p, s, he⟩ := List.append_of_mem ((none_mem_iff hlines).2 hline)
    have hfits : n ≤ 2147483647 := StateTable.le_intMax_of_fresh ht
    have hlen : contents.length = lines.length := hlines.length_eq.symm
    -- `key` is left with an id of no line
    obtain ⟨k, hk⟩ := exists_notMem (S := (s.reduceOption.map (·.1)).toFinset) (by
      have hle := List.toFinset_card_le (s.reduceOption.map (·.1))
      have hle' := List.reduceOption_length_le s
      rw [List.length_map] at hle
      rw [he, List.length_append, List.length_cons] at hlen
      omega)
    obtain ⟨links, hmem⟩ := (hloads fun _ => k).1 (h _) p s he
    rw [← List.reduceOption_mem_iff] at hmem
    exact hk (List.mem_toFinset.2 (List.mem_map_of_mem hmem))
  · refine (hloads leftover).2 fun p s he => ?_
    have hnone : none ∈ contents := by simp [he]
    obtain ⟨line, hline, htab⟩ := (none_mem_iff hlines).1 hnone
    exact absurd (h line hline) htab

/-- The line of a vertex `1` that links to itself. -/
def selfLink : List Char := ['1', '\t', '1']

theorem describes_selfLink : Describes selfLink (some (1, [1])) :=
  vertexLine_selfLink (by decide) (by decide)

theorem describes_nil : Describes [] none := by simp [Describes]

/-- A table of three empty buckets. -/
def threeBuckets : StateTable Int32 ℚ (List Int32) :=
  ⟨List.replicate 3 ⟨0, 0, 0, [], 0, false⟩, 0, 3, 0⟩

theorem fresh_threeBuckets :
    StateTable.fresh Engine.idHash pagerankIterateKernel 1 ((3 : ℕ) : ℤ) = .ok threeBuckets := by
  decide +kernel

/-- A blank line before the line of the vertex that `key` is left with does no harm. -/
theorem loads_blankFirst : Loads Engine.idHash (fun _ => 1) 1 1 threeBuckets [[], selfLink]
    [none, some (1, [1])] := by
  refine ((loads_iff fresh_threeBuckets (by decide) (by decide)
    (.cons describes_nil (.cons describes_selfLink .nil))).1 fun _ => 1).2 fun p s he => ?_
  cases p with
  | nil =>
    cases he
    exact ⟨[1], by simp⟩
  | cons content p =>
    cases p <;> simp at he

/-- A blank line after it overwrites the vertex: its links are lost. -/
theorem not_loads_blankLast :
    List.Forall₂ Describes [selfLink, []] [some (1, [1]), none] ∧
    (readFile Engine.idHash pagerankIterateKernel readData (fun _ => 1) 1 1 threeBuckets
      [selfLink, []]).toOption.map (fun r => (r.1.getF3 Engine.idHash 1).toOption)
      = some (some []) ∧
    (contentMap [some (1, [1]), none] 1).map (·.v3) = some [1] ∧
    ¬ Loads Engine.idHash (fun _ => 1) 1 1 threeBuckets [selfLink, []] [some (1, [1]), none] := by
  have hread : (readFile Engine.idHash pagerankIterateKernel readData (fun _ => 1) 1 1 threeBuckets
      [selfLink, []]).toOption.map (fun r => (r.1.getF3 Engine.idHash 1).toOption)
      = some (some []) := by decide +kernel
  have hmap : contentMap [some (1, [1]), none] 1 = some ⟨0.2, 0, [1]⟩ := rfl
  refine ⟨.cons describes_selfLink (.cons describes_nil .nil), hread, by rw [hmap]; rfl, ?_⟩
  rintro ⟨t', ht', hans⟩
  have hrow := (hans 1).2
  rw [hmap] at hrow
  rw [ht'] at hread
  obtain ⟨-, -, hlinks, -⟩ := hrow
  simp [Except.toOption, hlinks] at hread

end Loading

end Maiter
