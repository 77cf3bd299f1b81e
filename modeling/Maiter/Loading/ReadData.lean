import Maiter.Lib.Decimal
import Maiter.Loading.ScanLinks

/-!
# Reading a line of the input

`read_data` of `pagerank.cpp`.

* `atoi`, `readLinks`, `readData`: the parser; `readLinks_eq_scanLinks`: its loop;
* `VertexLine`: the well-formed lines; `readData_vertexLine`: they are read as what they say;
* `readData_noTab`: of a line without a tab nothing is read.
-/

namespace Maiter

open Decimal (Numeral)

namespace Loading

/-- `atoi`: the `long` that `strtol` returns, cast to `int`. -/
def atoi (s : List Char) : Int32 := Int32.ofInt (Decimal.strtol s)

/-- The loop over the links, with at most `fuel` turns. -/
def readLinks : ℕ → List Char → List Int32 → Except LoadFault (List Int32)
  | 0, _, _ => .error (.fault .loops)
  | fuel + 1, links, linkvec => do
    match ← find links ' ' with
    | none => .ok linkvec
    | some spacepos =>
      if spacepos > 0 then
        readLinks fuel (links.drop (spacepos + 1)) (linkvec ++ [atoi (links.take spacepos)])
      else .error .unassigned

/-- `read_data(line, k, data)`: the new `k` and `data`. -/
def readData (line : List Char) (k : Int32) (data : List Int32) :
    Except LoadFault (Int32 × List Int32) := do
  match ← find line '\t' with
  | none => .ok (k, data)
  | some pos =>
    let source := atoi (line.take pos)
    let links := line.drop (pos + 1)
    match links.getLast? with
    -- `*(links.end() - 1)` of an empty string
    | none => .error (.fault .badIndex)
    | some c =>
      let links := if c ≠ ' ' then links ++ [' '] else links
      let linkvec ← readLinks (links.length + 1) links []
      .ok (source, linkvec)

/-! ### Well-formed lines -/

/-- A decimal numeral for a vertex id, whose end an `int` can index. -/
def Id (s : List Char) (k : Int32) : Prop := Numeral s k.toInt ∧ s.length ≤ intMax

/-- `id TAB id id … id`, with or without a space at the end of the line. -/
def VertexLine (line : List Char) (k : Int32) (links : List Int32) : Prop :=
  ∃ id ids, Id id k ∧ links ≠ [] ∧ List.Forall₂ Id ids links ∧
    (line = id ++ '\t' :: [' '].intercalate ids ∨
      line = id ++ '\t' :: ([' '].intercalate ids ++ [' ']))

theorem atoi_id {s : List Char} {k : Int32} (h : Id s k) : atoi s = k := by
  have hl : -2147483648 ≤ k.toInt := k.le_toInt
  have hu : k.toInt < 2147483648 := k.toInt_lt
  rw [atoi, Decimal.strtol_numeral h.1 (by omega) (by omega), Int32.ofInt_toInt]

/-- The notation of an `int` has at most eleven characters. -/
theorem id_print (k : Int32) : Id (Decimal.print k.toInt) k := by
  have hl : -2147483648 ≤ k.toInt := k.le_toInt
  have hu : k.toInt < 2147483648 := k.toInt_lt
  refine ⟨Decimal.numeral_print k.toInt, ?_⟩
  have hlen : (Decimal.print k.toInt).length ≤ 11 :=
    Decimal.length_print_le (by decide) (by omega)
  exact hlen.trans (by decide)

theorem id_singleton {c : Char} {k : Int32} (hc : c.isDigit) (hk : k.toInt = Decimal.digit c) :
    Id [c] k := by
  have hvalue : k.toInt = Decimal.value [c] := by
    rw [hk, Decimal.value, List.foldl_cons, List.foldl_nil, Nat.mul_zero, Nat.zero_add]
  refine ⟨?_, by simp [intMax]⟩
  rw [hvalue]
  exact .plain (List.cons_ne_nil c []) fun d hd => List.mem_singleton.1 hd ▸ hc

/-- The line of a vertex with one digit that links to itself. -/
theorem vertexLine_selfLink {c : Char} {k : Int32} (hc : c.isDigit)
    (hk : k.toInt = Decimal.digit c) : VertexLine [c, '\t', c] k [k] :=
  ⟨[c], [[c]], id_singleton hc hk, List.cons_ne_nil k [], .cons (id_singleton hc hk) .nil,
    Or.inl rfl⟩

/-- A numeral contains no space and no tab. -/
theorem Id.notMem {s : List Char} {k : Int32} (h : Id s k) : ' ' ∉ s ∧ '\t' ∉ s :=
  ⟨h.1.notMem (by decide) (by decide) (by decide), h.1.notMem (by decide) (by decide) (by decide)⟩

/-- The loop of PageRank has no value to push if there is nothing before the space. -/
theorem readLinks_eq_scanLinks (fuel : ℕ) : ∀ (links : List Char) (linkvec : List Int32),
    readLinks fuel links linkvec = scanLinks
      (fun links spacepos => .ok (atoi (links.take spacepos))) (.error .unassigned) fuel links
      linkvec := by
  induction fuel with
  | zero => exact fun _ _ => rfl
  | succ fuel ih =>
    intro links linkvec
    rw [readLinks, scanLinks]
    cases find links ' ' with
    | error f => rfl
    | ok found =>
      cases found with
      | none => rfl
      | some spacepos =>
        rw [Fallible.ok_bind, Fallible.ok_bind]
        by_cases hpos : spacepos > 0
        · simp only [hpos, if_true, ih, Fallible.ok_bind]
        · simp only [hpos, if_false, Fallible.error_bind]

theorem readsAs_id {s : List Char} {k : Int32} (h : Id s k) :
    ReadsAs (fun links spacepos => .ok (atoi (links.take spacepos))) (.error .unassigned) s k where
  fits := h.2
  blank hnil := absurd hnil h.1.ne_nil
  parse _ rest := by rw [List.take_left, atoi_id h]

/-- The loop reads the numerals that it finds before the spaces. -/
theorem readLinks_ids {ids : List (List Char)} {links : List Int32}
    (h : List.Forall₂ Id ids links) :
    readLinks ((ids.flatMap (· ++ [' '])).length + 1) (ids.flatMap (· ++ [' '])) []
      = .ok links := by
  have hspace : ∀ s ∈ ids, ' ' ∉ s :=
    ((List.forall₂_and_left ids links).1 (h.imp fun _ _ hid => ⟨hid.notMem.1, hid⟩)).1
  rw [readLinks_eq_scanLinks, scanLinks_eq (h.imp fun _ _ hid => readsAs_id hid)
    (Words.dropLast_splitOn_flatMap hspace) [] (Nat.lt_succ_self _), List.nil_append]

theorem intercalate_append_space {ids : List (List Char)} (hne : ids ≠ []) :
    [' '].intercalate ids ++ [' '] = ids.flatMap (· ++ [' ']) := by
  induction ids with
  | nil => exact absurd rfl hne
  | cons s ids ih =>
    cases ids with
    | nil => simp
    | cons s' ids =>
      rw [List.intercalate_cons_cons, List.flatMap_cons, ← ih (by simp), List.append_assoc]

/-- The last character of a list of ids is a digit, not a space. -/
theorem getLast?_intercalate {ids : List (List Char)} {links : List Int32}
    (h : List.Forall₂ Id ids links) (hne : links ≠ []) :
    ∃ c, ([' '].intercalate ids).getLast? = some c ∧ c ≠ ' ' := by
  induction h with
  | nil => exact absurd rfl hne
  | @cons s k ids links hid hids ih =>
    cases hids with
    | nil =>
      refine ⟨s.getLast hid.1.ne_nil, ?_, ?_⟩
      · rw [List.intercalate_singleton, List.getLast?_eq_getLast_of_ne_nil]
      · intro heq
        have hdigit := hid.1.getLast
        rw [heq] at hdigit
        exact absurd hdigit (by decide)
    | cons hid' hids' =>
      obtain ⟨c, hc, hspace⟩ := ih (by simp)
      refine ⟨c, ?_, hspace⟩
      rw [List.intercalate_cons_cons, List.getLast?_append, hc]
      rfl

/-- **A well-formed line is read as what it says**, whatever `k` and `data` hold before. -/
theorem readData_vertexLine {line : List Char} {k : Int32} {links : List Int32}
    (h : VertexLine line k links) (k₀ : Int32) (data₀ : List Int32) :
    readData line k₀ data₀ = .ok (k, links) := by
  obtain ⟨id, ids, hid, hne, hids, hline⟩ := h
  have hne' : ids ≠ [] := by
    rintro rfl
    cases hids
    exact hne rfl
  -- the loop runs on the links with a space at the end
  have hread : ∀ body c, line = id ++ '\t' :: body → body.getLast? = some c →
      (if c ≠ ' ' then body ++ [' '] else body) = ids.flatMap (· ++ [' ']) →
      readData line k₀ data₀ = .ok (k, links) := by
    intro body c hbody hlast hspace
    have hdrop : line.drop (id.length + 1) = body := by rw [hbody, drop_length_succ]
    have htake : line.take id.length = id := by rw [hbody, List.take_left]
    have hfind : find line '\t' = .ok (some id.length) := by
      rw [hbody]
      exact find_append hid.notMem.2 hid.2 body
    have hloop : readLinks ((ids.flatMap (· ++ [' '])).length + 1)
        (ids.flatMap (· ++ [' '])) [] = .ok links :=
      readLinks_ids hids
    unfold readData
    rw [hfind, Fallible.ok_bind]
    simp only [hdrop, htake, hlast, hspace, hloop, atoi_id hid, Fallible.ok_bind]
  rcases hline with hline | hline
  · obtain ⟨c, hlast, hspace⟩ := getLast?_intercalate hids hne
    refine hread _ c hline hlast ?_
    rw [if_pos hspace, intercalate_append_space hne']
  · refine hread _ ' ' hline (by simp) ?_
    rw [if_neg (by simp), intercalate_append_space hne']

/-- Of a line without a tab nothing is read. -/
theorem readData_noTab {line : List Char} (h : '\t' ∉ line) (k : Int32) (data : List Int32) :
    readData line k data = .ok (k, data) := by
  simp [readData, find_eq_none h]

end Loading

end Maiter
