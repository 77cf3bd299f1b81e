import Maiter.Loading.ReadData

/-!
# Adjacency lines without weights

The lines that are written for a vertex and its links: the id, a tab, and the targets with a space
between them, with or without a space at the end.

* `adjacencyLine`: the line; `vertexLine_print`: it is well formed, if there is a target;
* `readData_print_iff`: PageRank reads it back, except for a vertex without links;
* `katzReadData`: the parser of Katz, and `katzReadData_print`: what it reads;
* `parsers_agree_iff`: the two parsers read the same only if there is a space at the end.
-/

namespace Maiter

open Decimal (print)

namespace Loading

/-- The targets, as they are written after the tab. -/
def printLinks (links : List Int32) (trailing : Bool) : List Char :=
  [' '].intercalate (links.map fun k => print k.toInt) ++ if trailing then [' '] else []

/-- The line of a vertex, with a space at the end if `trailing`. -/
def adjacencyLine (k : Int32) (links : List Int32) (trailing : Bool) : List Char :=
  print k.toInt ++ '\t' :: printLinks links trailing

theorem forall₂_print (links : List Int32) :
    List.Forall₂ Id (links.map fun k => print k.toInt) links := by
  rw [List.forall₂_map_left_iff]
  exact List.forall₂_same.2 fun k _ => id_print k

theorem vertexLine_print (k : Int32) {links : List Int32} (hne : links ≠ []) (trailing : Bool) :
    VertexLine (adjacencyLine k links trailing) k links := by
  refine ⟨_, _, id_print k, hne, forall₂_print links, ?_⟩
  cases trailing with
  | false => exact Or.inl (by simp [adjacencyLine, printLinks])
  | true => exact Or.inr rfl

/-- The line of a vertex without links: the parser looks at the character before the empty text, or
pushes a target that it has not read. -/
theorem readData_noLinks (k k₀ : Int32) (data₀ : List Int32) (trailing : Bool) :
    readData (adjacencyLine k [] trailing) k₀ data₀
      = .error (if trailing then .unassigned else .fault .badIndex) := by
  have hfind : find (adjacencyLine k [] trailing) '\t' = .ok (some (print k.toInt).length) :=
    find_append (id_print k).notMem.2 (id_print k).2 _
  unfold readData
  rw [hfind, Fallible.ok_bind]
  simp only [adjacencyLine, drop_length_succ]
  cases trailing <;> rfl

/-- **PageRank reads back what is written of a vertex** exactly if it has a link. -/
theorem readData_print_iff (k : Int32) (links : List Int32) (trailing : Bool) (k₀ : Int32)
    (data₀ : List Int32) :
    readData (adjacencyLine k links trailing) k₀ data₀ = .ok (k, links) ↔ links ≠ [] := by
  constructor
  · rintro h rfl
    rw [readData_noLinks] at h
    cases h
  · exact fun hne => readData_vertexLine (vertexLine_print k hne trailing) k₀ data₀

/-- Both lines of the vertex `5` without links fail. -/
theorem not_readData_print_five :
    readData (adjacencyLine 5 [] false) 0 [] = .error (.fault .badIndex) ∧
      readData (adjacencyLine 5 [] true) 0 [] = .error .unassigned :=
  ⟨readData_noLinks 5 0 [] false, readData_noLinks 5 0 [] true⟩

/-! ### Katz -/

/-- `read_data` of `katz.cpp`. -/
def katzReadData (lexicalCast : List Char → Option Int32) :
    List Char → Int32 → List Int32 → Except LoadFault (Int32 × List Int32) :=
  castReadData lexicalCast (fun links spacepos => orThrow (lexicalCast (links.take spacepos)))
    (.error .unassigned)

variable {lexicalCast : List Char → Option Int32}

theorem readsAs_print (hcast : ∀ k : Int32, lexicalCast (print k.toInt) = some k) (k : Int32) :
    ReadsAs (fun links spacepos => orThrow (lexicalCast (links.take spacepos)))
      (.error .unassigned) (print k.toInt) k where
  fits := (id_print k).2
  blank h := absurd h (id_print k).1.ne_nil
  parse _ rest := by rw [List.take_left, hcast, orThrow]

theorem splitOn_printLinks {links : List Int32} (hne : links ≠ []) (trailing : Bool) :
    ((printLinks links trailing).splitOn ' ').dropLast
      = (if trailing then links else links.dropLast).map fun k => print k.toInt := by
  have hspace : ∀ w ∈ links.map fun k => print k.toInt, ' ' ∉ w := by
    intro w hw
    obtain ⟨k, -, rfl⟩ := List.mem_map.1 hw
    exact (id_print k).notMem.1
  have hne' : (links.map fun k => print k.toInt) ≠ [] := by simpa using hne
  cases trailing with
  | false =>
    rw [printLinks, if_neg Bool.false_ne_true, List.append_nil,
      List.splitOn_intercalate ' ' hspace hne', if_neg Bool.false_ne_true, List.map_dropLast]
  | true =>
    rw [printLinks, if_pos rfl, intercalate_append_space hne',
      Words.dropLast_splitOn_flatMap hspace, if_pos rfl]

/-- **Katz reads** the last target only if there is a space after it. -/
theorem katzReadData_print (hcast : ∀ k : Int32, lexicalCast (print k.toInt) = some k) (k : Int32)
    {links : List Int32} (hne : links ≠ []) (trailing : Bool) (k₀ : Int32) (data₀ : List Int32) :
    katzReadData lexicalCast (adjacencyLine k links trailing) k₀ data₀
      = .ok (k, if trailing then links else links.dropLast) := by
  refine castReadData_eq (hcast k) (id_print k).notMem.2 (id_print k).2 ?_ k₀ data₀
  rw [splitOn_printLinks hne, List.forall₂_map_left_iff]
  exact List.forall₂_same.2 fun l _ => readsAs_print hcast l

/-- **The two parsers agree** on the line of a vertex with links exactly if the line ends with a
space: PageRank adds the space that is missing, Katz drops the last target. -/
theorem parsers_agree_iff (hcast : ∀ k : Int32, lexicalCast (print k.toInt) = some k) (k : Int32)
    {links : List Int32} (hne : links ≠ []) (trailing : Bool) (k₀ k₁ : Int32)
    (data₀ data₁ : List Int32) :
    (∃ r, readData (adjacencyLine k links trailing) k₀ data₀ = .ok r ∧
      katzReadData lexicalCast (adjacencyLine k links trailing) k₁ data₁ = .ok r) ↔
      trailing = true := by
  rw [readData_vertexLine (vertexLine_print k hne trailing), katzReadData_print hcast k hne]
  cases trailing with
  | true => exact ⟨fun _ => rfl, fun _ => ⟨_, rfl, rfl⟩⟩
  | false =>
    refine ⟨?_, fun h => absurd h Bool.false_ne_true⟩
    rintro ⟨r, hr, hr'⟩
    rw [← hr, Except.ok.injEq, Prod.mk.injEq, if_neg Bool.false_ne_true] at hr'
    have hlen := congrArg List.length hr'.2
    have hpos : 0 < links.length := List.length_pos_iff.2 hne
    rw [List.length_dropLast] at hlen
    omega

theorem parsers_agree_twoLinks : ∃ r,
    readData (adjacencyLine 1 [2, 3] true) 0 [] = .ok r ∧
      katzReadData (fun s => some (atoi s)) (adjacencyLine 1 [2, 3] true) 0 [] = .ok r :=
  (parsers_agree_iff (fun k => congrArg some (atoi_id (id_print k))) 1 (List.cons_ne_nil 2 [3])
    true 0 0 [] []).2 rfl

/-- Without the space at the end Katz misses the link to `3`. -/
theorem not_parsers_agree_twoLinks :
    readData (adjacencyLine 1 [2, 3] false) 0 [] = .ok (1, [2, 3]) ∧
      katzReadData (fun s => some (atoi s)) (adjacencyLine 1 [2, 3] false) 0 [] = .ok (1, [2]) :=
  ⟨readData_vertexLine (vertexLine_print 1 (List.cons_ne_nil 2 [3]) false) 0 [],
    katzReadData_print (fun k => congrArg some (atoi_id (id_print k))) 1 (List.cons_ne_nil 2 [3])
      false 0 []⟩

end Loading

end Maiter
