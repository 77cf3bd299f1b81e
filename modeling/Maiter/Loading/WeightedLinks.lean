import Maiter.Kernels
import Maiter.Loading.ReadData

/-!
# Adjacency lines with weights

`read_data` of `shortestpath.cpp` and of `adsorption.cpp`, where a link is written `end,weight`.
The two functions differ only in the type of the weight that `boost::lexical_cast` reads.

* `readLink`, `weightedReadData`: the common text; `shortestpathReadData`, `adsorptionReadData`;
* `IsLink`, `WeightedLine`: the word that is written for a link, and a line of such words;
* `weightedReadData_eq`: every piece before a space is pushed as a link, the empty ones as `(0, 0)`;
* `SpacesMatch`, `weighted_links_iff`: for which spaces this gives the links of the line.
-/

namespace Maiter

open Words (words)

namespace Loading

section Defs

variable (lexicalCastEnd : List Char → Option Int32) (lexicalCastWeight : List Char → Option ℚ)

/-- The link before the space at `spacepos`.  The comma is looked for in the whole text. -/
def readLink (links : List Char) (spacepos : ℕ) : Except LoadFault Link := do
  let link := links.take spacepos
  let cut ← find links ','
  let dest ← orThrow (lexicalCastEnd (cut.elim link link.take))
  let start := cut.elim 0 (· + 1)
  if start ≤ link.length then
    let weight ← orThrow (lexicalCastWeight (link.drop start))
    return ⟨dest, weight⟩
  else .error .outOfRange

/-- `read_data`, with `Link to(0, 0)` for a space that has nothing before it. -/
def weightedReadData :
    List Char → Int32 → List Link → Except LoadFault (Int32 × List Link) :=
  castReadData lexicalCastEnd (readLink lexicalCastEnd lexicalCastWeight) (.ok ⟨0, 0⟩)

/-- `read_data` of `shortestpath.cpp`, where a weight is a `double`. -/
def shortestpathReadData (lexicalCastDouble : List Char → Option ℚ) :
    List Char → Int32 → List Link → Except LoadFault (Int32 × List Link) :=
  weightedReadData lexicalCastEnd lexicalCastDouble

/-- `read_data` of `adsorption.cpp`, where a weight is a `float`. -/
def adsorptionReadData (lexicalCastFloat : List Char → Option ℚ) :
    List Char → Int32 → List Link → Except LoadFault (Int32 × List Link) :=
  weightedReadData lexicalCastEnd lexicalCastFloat

/-- `end,weight`, with two numbers that are read back, and an end that an `int` can index. -/
def IsLink (w : List Char) (l : Link) : Prop :=
  ∃ e x, w = e ++ ',' :: x ∧ ',' ∉ e ∧ lexicalCastEnd e = some l.dest ∧
    lexicalCastWeight x = some l.weight ∧ w.length ≤ intMax

/-- The link that is pushed for a piece of the text. -/
def pushed (piece : List Char) : Link :=
  if piece = [] then ⟨0, 0⟩
  else (readLink lexicalCastEnd lexicalCastWeight piece piece.length).toOption.getD ⟨0, 0⟩

end Defs

variable {lexicalCastEnd : List Char → Option Int32} {lexicalCastWeight : List Char → Option ℚ}
  {w : List Char} {l : Link}

theorem IsLink.ne_nil (h : IsLink lexicalCastEnd lexicalCastWeight w l) : w ≠ [] := by
  obtain ⟨e, x, rfl, -⟩ := h
  simp

theorem IsLink.readLink (h : IsLink lexicalCastEnd lexicalCastWeight w l) (rest : List Char) :
    readLink lexicalCastEnd lexicalCastWeight (w ++ rest) w.length = .ok l := by
  obtain ⟨e, x, rfl, hcomma, hend, hweight, hfits⟩ := h
  have hcut : find (e ++ ',' :: x ++ rest) ',' = .ok (some e.length) := by
    rw [List.append_assoc, List.cons_append]
    refine find_append hcomma ?_ _
    rw [List.length_append] at hfits
    omega
  have hstart : e.length + 1 ≤ (e ++ ',' :: x).length := by simp
  unfold Loading.readLink
  rw [hcut, Fallible.ok_bind]
  simp only [List.take_left, Option.elim_some, drop_length_succ, hend, hweight, orThrow,
    Fallible.ok_bind, hstart, if_true]
  rfl

theorem IsLink.pushed_eq (h : IsLink lexicalCastEnd lexicalCastWeight w l) :
    pushed lexicalCastEnd lexicalCastWeight w = l := by
  have hread := h.readLink []
  rw [List.append_nil] at hread
  rw [pushed, if_neg h.ne_nil, hread]
  rfl

variable {text : List Char} {links : List Link}

/-- The links of a line are what is pushed for its words. -/
theorem map_pushed_words
    (h : List.Forall₂ (IsLink lexicalCastEnd lexicalCastWeight) (words ' ' text) links) :
    (words ' ' text).map (pushed lexicalCastEnd lexicalCastWeight) = links := by
  have heq := h.imp fun _ _ h => h.pushed_eq
  rwa [← List.forall₂_map_left_iff, List.forall₂_eq_eq_eq] at heq

theorem isLink_pushed
    (h : List.Forall₂ (IsLink lexicalCastEnd lexicalCastWeight) (words ' ' text) links) :
    ∀ w ∈ words ' ' text, IsLink lexicalCastEnd lexicalCastWeight w
      (pushed lexicalCastEnd lexicalCastWeight w) := by
  rwa [← map_pushed_words h, List.forall₂_map_right_iff, List.forall₂_same] at h

/-- **A link is pushed for every piece before a space**, also for the empty ones. -/
theorem weightedReadData_eq {id : List Char} {k : Int32} (hid : lexicalCastEnd id = some k)
    (htab : '\t' ∉ id) (hfits : id.length ≤ intMax)
    (h : List.Forall₂ (IsLink lexicalCastEnd lexicalCastWeight) (words ' ' text) links)
    (k₀ : Int32) (data₀ : List Link) :
    weightedReadData lexicalCastEnd lexicalCastWeight (id ++ '\t' :: text) k₀ data₀
      = .ok (k, (text.splitOn ' ').dropLast.map
          (pushed lexicalCastEnd lexicalCastWeight)) := by
  refine castReadData_eq hid htab hfits ?_ k₀ data₀
  rw [List.forall₂_map_right_iff, List.forall₂_same]
  intro piece hpiece
  have hword : piece ≠ [] → IsLink lexicalCastEnd lexicalCastWeight piece
      (pushed lexicalCastEnd lexicalCastWeight piece) := fun hne =>
    isLink_pushed h piece (List.mem_filter.2 ⟨List.mem_of_mem_dropLast hpiece, by simpa using hne⟩)
  refine ⟨?_, fun hnil => ?_, fun hne rest => (hword hne).readLink (' ' :: rest)⟩
  · by_cases hne : piece = []
    · simp [hne]
    · obtain ⟨e, x, -, -, -, -, hlen⟩ := hword hne
      exact hlen
  · rw [pushed, if_pos hnil]

/-- Every link is followed by exactly one space and there is no other space.  Or there is one space
more and none after the last link, and all links after the additional space are `(0, 0)`. -/
def SpacesMatch (text : List Char) (links : List Link) : Prop :=
  text = (words ' ' text).flatMap (· ++ [' ']) ∨
    ∃ before after, words ' ' text = before ++ after ∧ after ≠ [] ∧
      (∀ l ∈ links.drop before.length, l = ⟨0, 0⟩) ∧
      text = before.flatMap (· ++ [' ']) ++ ' ' :: [' '].intercalate after

theorem weightedReadData_iff {id : List Char} {k : Int32} (hid : lexicalCastEnd id = some k)
    (htab : '\t' ∉ id) (hfits : id.length ≤ intMax)
    (h : List.Forall₂ (IsLink lexicalCastEnd lexicalCastWeight) (words ' ' text) links)
    (k₀ : Int32) (data₀ : List Link) :
    weightedReadData lexicalCastEnd lexicalCastWeight (id ++ '\t' :: text) k₀ data₀
      = .ok (k, links) ↔ SpacesMatch text links := by
  have hdrop : ∀ before after, words ' ' text = before ++ after →
      ((∀ w ∈ after, pushed lexicalCastEnd lexicalCastWeight w
          = pushed lexicalCastEnd lexicalCastWeight []) ↔
        ∀ l ∈ links.drop before.length, l = ⟨0, 0⟩) := by
    intro before after hws
    have hafter : links.drop before.length
        = after.map (pushed lexicalCastEnd lexicalCastWeight) := by
      rw [← map_pushed_words h, hws, List.map_append, ← List.length_map, List.drop_left]
    rw [hafter, List.forall_mem_map]
    rfl
  rw [weightedReadData_eq hid htab hfits h, Except.ok.injEq, Prod.mk.injEq,
    ← map_pushed_words h, Words.map_dropLast_splitOn_iff, map_pushed_words h]
  refine (and_iff_right rfl).trans (or_congr_right ?_)
  refine exists_congr fun before => exists_congr fun after => and_congr_right fun hws => ?_
  rw [hdrop before after hws]

/-- A line that is written for a vertex and its links, with spaces for which it is read back. -/
def WeightedLine (lexicalCastEnd : List Char → Option Int32)
    (lexicalCastWeight : List Char → Option ℚ) (line : List Char) (row : Int32 × List Link) : Prop :=
  ∃ id text, line = id ++ '\t' :: text ∧ lexicalCastEnd id = some row.1 ∧ '\t' ∉ id ∧
    id.length ≤ intMax ∧
    List.Forall₂ (IsLink lexicalCastEnd lexicalCastWeight) (words ' ' text) row.2 ∧
    SpacesMatch text row.2

theorem weightedReadData_line {line : List Char} {row : Int32 × List Link}
    (h : WeightedLine lexicalCastEnd lexicalCastWeight line row) (k₀ : Int32) (data₀ : List Link) :
    weightedReadData lexicalCastEnd lexicalCastWeight line k₀ data₀ = .ok row := by
  obtain ⟨id, text, rfl, hid, htab, hfits, hlinks, hspaces⟩ := h
  exact (weightedReadData_iff hid htab hfits hlinks k₀ data₀).2 hspaces

/-- **Lines with weights are read exactly** by both kernels for these spaces and no others. -/
theorem weighted_links_iff {id : List Char} {k : Int32} (hid : lexicalCastEnd id = some k)
    (htab : '\t' ∉ id) (hfits : id.length ≤ intMax) (text : List Char) (k₀ : Int32)
    (data₀ : List Link) :
    (∀ lexicalCastDouble links,
      List.Forall₂ (IsLink lexicalCastEnd lexicalCastDouble) (words ' ' text) links →
        (shortestpathReadData lexicalCastEnd lexicalCastDouble (id ++ '\t' :: text) k₀ data₀
          = .ok (k, links) ↔ SpacesMatch text links)) ∧
    ∀ lexicalCastFloat links,
      List.Forall₂ (IsLink lexicalCastEnd lexicalCastFloat) (words ' ' text) links →
        (adsorptionReadData lexicalCastEnd lexicalCastFloat (id ++ '\t' :: text) k₀ data₀
          = .ok (k, links) ↔ SpacesMatch text links) :=
  ⟨fun _ _ h => weightedReadData_iff hid htab hfits h k₀ data₀,
    fun _ _ h => weightedReadData_iff hid htab hfits h k₀ data₀⟩

theorem weighted_links_twoLinks :
    shortestpathReadData (fun s => some (atoi s)) (fun s => some (Decimal.strtol s))
      (['1'] ++ '\t' :: "2,5 3,4 ".toList) 0 [] = .ok (1, [⟨2, 5⟩, ⟨3, 4⟩]) ∧
    adsorptionReadData (fun s => some (atoi s)) (fun s => some (Decimal.strtol s))
      (['1'] ++ '\t' :: "2,5 3,4 ".toList) 0 [] = .ok (1, [⟨2, 5⟩, ⟨3, 4⟩]) := by
  have hwords : words ' ' "2,5 3,4 ".toList = ["2,5".toList, "3,4".toList] := by decide +kernel
  have hlinks : List.Forall₂
      (IsLink (fun s => some (atoi s)) (fun s => some (Decimal.strtol s : ℚ)))
      (words ' ' "2,5 3,4 ".toList) [⟨2, 5⟩, ⟨3, 4⟩] := by
    rw [hwords]
    refine .cons ⟨['2'], ['5'], ?_⟩ (.cons ⟨['3'], ['4'], ?_⟩ .nil) <;> decide +kernel
  have hspaces : SpacesMatch "2,5 3,4 ".toList [⟨2, 5⟩, ⟨3, 4⟩] := by
    refine Or.inl ?_
    rw [hwords]
    decide +kernel
  have hread := @weighted_links_iff (fun s => some (atoi s)) ['1'] 1 (by decide +kernel)
    (by decide +kernel) (by decide) "2,5 3,4 ".toList 0 []
  exact ⟨(hread.1 _ _ hlinks).2 hspaces, (hread.2 _ _ hlinks).2 hspaces⟩

/-- Without the space at the end the link to `2` is dropped, and a space before it adds the link
`(0, 0)`. -/
theorem not_weighted_links_oneLink :
    shortestpathReadData (fun s => some (atoi s)) (fun s => some (Decimal.strtol s))
      "1\t2,5".toList 0 [] = .ok (1, []) ∧
    shortestpathReadData (fun s => some (atoi s)) (fun s => some (Decimal.strtol s))
      "1\t 2,5 ".toList 0 [] = .ok (1, [⟨0, 0⟩, ⟨2, 5⟩]) ∧
    adsorptionReadData (fun s => some (atoi s)) (fun s => some (Decimal.strtol s))
      "1\t2,5".toList 0 [] = .ok (1, []) := by decide +kernel

end Loading

end Maiter
