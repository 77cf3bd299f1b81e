import Maiter.Lib.Fallible
import Maiter.Lib.Words
import Maiter.StateTable.Basic

/-!
# The loop over the links of a line

The parsers `read_data` of the four kernels are copies of one loop.  As long as there is a space in
the text, what stands before it is read as a link, and is cut off together with the space.  Lines
are lists of characters; positions in them are natural numbers, where the source keeps them in `int`.

* `LoadFault`: how loading can fail; `find`, `find_append`: the first separator;
* `scanLinks`: the loop, with the reading of one link as a parameter;
* `ReadsAs`, `scanLinks_eq`: it reads the pieces between the spaces, all but the last;
* `castReadData`: the parsers of the kernels that read numbers by `boost::lexical_cast`.
-/

namespace Maiter

open Words (splitOn_cases)

namespace Loading

/-- How loading can fail. -/
inductive LoadFault
  | fault (f : Fault)
  /-- `linkvec.push_back(to)` with a `to` that has no value -/
  | unassigned
  /-- the fatal log "input data total line is small" of more threads than lines -/
  | fewLines
  /-- the exception `boost::bad_lexical_cast` -/
  | badLexicalCast
  /-- the exception `std::out_of_range` of `substr` -/
  | outOfRange
  deriving DecidableEq, Repr

/-- `find` and `find_first_of` for one character, with the result in an `int`; `none` is `-1`. -/
def find (s : List Char) (c : Char) : Except LoadFault (Option ℕ) :=
  match s.idxOf? c with
  | none => .ok none
  | some pos => if pos ≤ intMax then .ok (some pos) else .error (.fault .intOverflow)

theorem find_eq_none {s : List Char} {c : Char} (h : c ∉ s) : find s c = .ok none := by
  rw [find, List.idxOf?_eq_none_iff.2 h]

/-- The first separator after a text without one. -/
theorem find_append {s : List Char} {c : Char} (h : c ∉ s) (hfits : s.length ≤ intMax)
    (rest : List Char) : find (s ++ c :: rest) c = .ok (some s.length) := by
  have hidx : (s ++ c :: rest).idxOf? c = some s.length := by
    rw [List.idxOf?_eq_some_iff]
    refine ⟨by simp, by simp, fun j hj heq => ?_⟩
    rw [List.getElem_append_left hj] at heq
    exact h (heq ▸ List.getElem_mem hj)
  rw [find, hidx]
  exact if_pos hfits

theorem drop_length_succ (s : List Char) (c : Char) (rest : List Char) :
    (s ++ c :: rest).drop (s.length + 1) = rest := by
  rw [← List.drop_drop, List.drop_left]
  rfl

/-! ### The loop -/

variable {L : Type}

/-- The loop over the links, with at most `fuel` turns.  `parse links spacepos` reads the link
before the space; `blank` is what is pushed if there is nothing before it. -/
def scanLinks (parse : List Char → ℕ → Except LoadFault L) (blank : Except LoadFault L) :
    ℕ → List Char → List L → Except LoadFault (List L)
  | 0, _, _ => .error (.fault .loops)
  | fuel + 1, links, linkvec => do
    match ← find links ' ' with
    | none => .ok linkvec
    | some spacepos =>
      let link ← if spacepos > 0 then parse links spacepos else blank
      scanLinks parse blank fuel (links.drop (spacepos + 1)) (linkvec ++ [link])

variable {parse : List Char → ℕ → Except LoadFault L} {blank : Except LoadFault L}

/-- A piece is read as the link `l`, in whatever text a space stands after it. -/
structure ReadsAs (parse : List Char → ℕ → Except LoadFault L) (blank : Except LoadFault L)
    (piece : List Char) (l : L) : Prop where
  fits : piece.length ≤ intMax
  blank : piece = [] → blank = .ok l
  parse : piece ≠ [] → ∀ rest, parse (piece ++ ' ' :: rest) piece.length = .ok l

theorem ReadsAs.turn {piece : List Char} {l : L} (h : ReadsAs parse blank piece l)
    (hspace : ' ' ∉ piece) (rest : List Char) (fuel : ℕ) (linkvec : List L) :
    scanLinks parse blank (fuel + 1) (piece ++ ' ' :: rest) linkvec
      = scanLinks parse blank fuel rest (linkvec ++ [l]) := by
  rw [scanLinks, find_append hspace h.fits, Fallible.ok_bind]
  simp only [drop_length_succ]
  split_ifs with hpos
  · rw [h.parse (List.length_pos_iff.1 hpos) rest, Fallible.ok_bind]
  · rw [h.blank (List.length_eq_zero_iff.1 (by omega)), Fallible.ok_bind]

/-- **The loop reads the pieces between the spaces**, all but the last. -/
theorem scanLinks_eq {ps : List (List Char)} {ls : List L}
    (h : List.Forall₂ (ReadsAs parse blank) ps ls) :
    ∀ {text : List Char}, (text.splitOn ' ').dropLast = ps → ∀ (linkvec : List L) {fuel : ℕ},
      text.length < fuel → scanLinks parse blank fuel text linkvec = .ok (linkvec ++ ls) := by
  induction h with
  | nil =>
    intro text hps linkvec fuel hfuel
    obtain ⟨fuel, rfl⟩ := Nat.exists_eq_succ_of_ne_zero (Nat.ne_zero_of_lt hfuel)
    rcases splitOn_cases ' ' text with ⟨hspace, -⟩ | ⟨piece, rest, -, -, heq⟩
    · rw [scanLinks, find_eq_none hspace, List.append_nil]
      rfl
    · rw [heq, List.dropLast_cons_of_ne_nil (List.splitOn_ne_nil ' ' rest)] at hps
      cases hps
  | @cons piece l ps ls hread _ ih =>
    intro text hps linkvec fuel hfuel
    obtain ⟨fuel, rfl⟩ := Nat.exists_eq_succ_of_ne_zero (Nat.ne_zero_of_lt hfuel)
    rcases splitOn_cases ' ' text with ⟨-, heq⟩ | ⟨first, rest, hspace, rfl, heq⟩
    · rw [heq] at hps
      cases hps
    · rw [heq, List.dropLast_cons_of_ne_nil (List.splitOn_ne_nil ' ' rest),
        List.cons.injEq] at hps
      obtain ⟨rfl, hps⟩ := hps
      have hlen : rest.length < fuel := by
        rw [List.length_append, List.length_cons] at hfuel
        omega
      rw [hread.turn hspace, ih hps _ hlen, List.append_assoc, List.singleton_append]

/-! ### Parsers that use `lexical_cast` -/

/-- The result of `boost::lexical_cast`, which throws if there is none. -/
def orThrow {α : Type} : Option α → Except LoadFault α
  | some a => .ok a
  | none => .error .badLexicalCast

/-- The `read_data` of the kernels other than PageRank.  There is no test whether the line has a
tab: `substr(0, -1)` and `substr(0)` are the whole line. -/
def castReadData (lexicalCast : List Char → Option Int32)
    (parse : List Char → ℕ → Except LoadFault L) (blank : Except LoadFault L) (line : List Char)
    (_ : Int32) (_ : List L) : Except LoadFault (Int32 × List L) := do
  let pos ← find line '\t'
  let source ← orThrow (lexicalCast (pos.elim line line.take))
  let links := pos.elim line fun pos => line.drop (pos + 1)
  let linkvec ← scanLinks parse blank (links.length + 1) links []
  return (source, linkvec)

theorem castReadData_eq {lexicalCast : List Char → Option Int32} {id text : List Char} {k : Int32}
    (hid : lexicalCast id = some k) (htab : '\t' ∉ id) (hfits : id.length ≤ intMax) {ls : List L}
    (h : List.Forall₂ (ReadsAs parse blank) (text.splitOn ' ').dropLast ls) (k₀ : Int32)
    (data₀ : List L) :
    castReadData lexicalCast parse blank (id ++ '\t' :: text) k₀ data₀ = .ok (k, ls) := by
  unfold castReadData
  rw [find_append htab hfits, Fallible.ok_bind]
  simp only [Option.elim_some, List.take_left, drop_length_succ, hid, orThrow, Fallible.ok_bind,
    scanLinks_eq h rfl [] (Nat.lt_succ_self text.length), List.nil_append]
  rfl

end Loading

end Maiter
