import Mathlib.Data.List.Basic

/-!
# The words of a text

A text is cut into pieces at a separator; its words are the pieces that are not empty.

* `words`: the words of a text;
* `splitOn_cases`: the first piece of a text;
* `splitOn_flatMap`, `dropLast_splitOn_flatMap`: a separator after every word cuts the words off;
* `flatMap_append_intercalate`: the text of which the pieces are known;
* `map_dropLast_splitOn_iff`: reading every piece but the last instead of the words.
-/

namespace Words

variable {α β : Type*} [DecidableEq α] {sep : α}

/-- The words of a text, in order. -/
def words (sep : α) (text : List α) : List (List α) :=
  (text.splitOn sep).filter (· ≠ [])

/-- A text is cut at its first separator. -/
theorem splitOn_cases (sep : α) (text : List α) :
    (sep ∉ text ∧ text.splitOn sep = [text]) ∨
      ∃ w rest, sep ∉ w ∧ text = w ++ sep :: rest ∧ text.splitOn sep = w :: rest.splitOn sep := by
  by_cases hmem : sep ∈ text
  · obtain ⟨w, rest, rfl, hw⟩ := List.eq_append_cons_of_mem hmem
    exact Or.inr ⟨w, rest, hw, rfl, List.splitOn_append_cons_self_of_not_mem hw rest⟩
  · exact Or.inl ⟨hmem, List.splitOn_eq_singleton hmem⟩

theorem notMem_of_mem_splitOn {text : List α} : ∀ w ∈ text.splitOn sep, sep ∉ w := by
  intro w hw
  rcases splitOn_cases sep text with ⟨hmem, heq⟩ | ⟨v, rest, hv, htext, heq⟩
  · rw [heq, List.mem_singleton] at hw
    rwa [hw]
  · rw [heq] at hw
    rcases List.mem_cons.1 hw with rfl | hw
    · exact hv
    · exact notMem_of_mem_splitOn w hw
termination_by text.length
decreasing_by
  rw [htext, List.length_append, List.length_cons]
  omega

/-- A separator after every word. -/
theorem splitOn_flatMap {ws : List (List α)} (h : ∀ w ∈ ws, sep ∉ w) (text : List α) :
    (ws.flatMap (· ++ [sep]) ++ text).splitOn sep = ws ++ text.splitOn sep := by
  induction ws with
  | nil => rfl
  | cons w ws ih =>
    have hw : (w :: ws).flatMap (· ++ [sep]) ++ text
        = w ++ sep :: (ws.flatMap (· ++ [sep]) ++ text) := by simp
    rw [hw, List.splitOn_append_cons_self_of_not_mem (h w List.mem_cons_self),
      ih fun v hv => h v (List.mem_cons_of_mem w hv), List.cons_append]

theorem dropLast_splitOn_flatMap {ws : List (List α)} (h : ∀ w ∈ ws, sep ∉ w) :
    ((ws.flatMap (· ++ [sep])).splitOn sep).dropLast = ws := by
  have hsplit := splitOn_flatMap h []
  rw [List.append_nil] at hsplit
  rw [hsplit, List.splitOn_nil, List.dropLast_concat]

omit [DecidableEq α] in
theorem flatMap_append_intercalate (ws : List (List α)) {ps : List (List α)} (hps : ps ≠ []) :
    [sep].intercalate (ws ++ ps) = ws.flatMap (· ++ [sep]) ++ [sep].intercalate ps := by
  induction ws with
  | nil => rfl
  | cons w ws ih =>
    obtain ⟨v, vs, hvs⟩ := List.exists_cons_of_ne_nil (List.append_ne_nil_of_right_ne_nil ws hps)
    rw [List.cons_append, hvs, List.intercalate_cons_cons, ← hvs, ih, List.flatMap_cons]
    simp

/-- A list that can be shifted by one has equal elements. -/
theorem eq_of_cons_eq_append {x y : β} {l : List β} (h : x :: l = l ++ [y]) :
    ∀ z ∈ l ++ [y], z = x := by
  induction l with
  | nil =>
    rw [List.nil_append, List.cons.injEq] at h
    simp [h.1]
  | cons z l ih =>
    rw [List.cons_append, List.cons.injEq] at h
    obtain ⟨rfl, h⟩ := h
    intro v hv
    rcases List.mem_cons.1 hv with rfl | hv
    · rfl
    · exact ih h v hv

theorem eq_append_of_eq {x y : β} {l : List β} (h : ∀ z ∈ l ++ [y], z = x) :
    x :: l = l ++ [y] := by
  have hl : l = List.replicate l.length x :=
    List.eq_replicate_of_mem fun z hz => h z (List.mem_append_left [y] hz)
  have hy : y = x := h y (by simp)
  generalize l.length = m at hl
  rw [hy, hl, ← List.replicate_succ, ← List.replicate_succ']

/-- If one piece is empty, it is the last one or there is one piece less before the last word. -/
theorem filter_of_length_eq {qs : List (List α)} {z : List α}
    (h : ((qs ++ [z]).filter (· ≠ [])).length = qs.length) :
    (z = [] ∧ (qs ++ [z]).filter (· ≠ []) = qs) ∨
      ∃ before mid, qs = before ++ [] :: mid ∧
        (qs ++ [z]).filter (· ≠ []) = before ++ (mid ++ [z]) := by
  rw [List.filter_append] at h ⊢
  by_cases hz : z = []
  · have hnil : [z].filter (· ≠ []) = [] := by simp [hz]
    rw [hnil, List.append_nil] at h ⊢
    rw [List.length_filter_eq_length_iff] at h
    exact Or.inl ⟨hz, List.filter_eq_self.2 h⟩
  · have hone : [z].filter (· ≠ []) = [z] := by simp [hz]
    rw [hone] at h ⊢
    have hmem : [] ∈ qs := by
      by_contra hmem
      have hall : qs.filter (· ≠ []) = qs :=
        List.filter_eq_self.2 fun w hw => by simpa using ne_of_mem_of_not_mem hw hmem
      rw [hall, List.length_append, List.length_singleton] at h
      omega
    obtain ⟨before, mid, rfl, hbefore⟩ := List.eq_append_cons_of_mem hmem
    have hb : before.filter (· ≠ []) = before :=
      List.filter_eq_self.2 fun w hw => by simpa using ne_of_mem_of_not_mem hw hbefore
    have hcons : ([] :: mid).filter (· ≠ []) = mid.filter (· ≠ []) := by simp
    rw [List.filter_append, hb, hcons] at h ⊢
    have hmid : mid.filter (· ≠ []) = mid := by
      refine List.filter_eq_self.2 (List.length_filter_eq_length_iff.1 ?_)
      simp only [List.length_append, List.length_cons, List.length_nil] at h
      omega
    exact Or.inr ⟨before, mid, rfl, by rw [hmid, List.append_assoc]⟩

/-- **Reading every piece but the last instead of the words** makes a difference, unless every word
is followed by exactly one separator and no other separator is there; or the text has one separator
more, none after the last word, and the empty piece is read as all words after it are. -/
theorem map_dropLast_splitOn_iff {text : List α} {g : List α → β} :
    (text.splitOn sep).dropLast.map g = (words sep text).map g ↔
      text = (words sep text).flatMap (· ++ [sep]) ∨
        ∃ before after, words sep text = before ++ after ∧ after ≠ [] ∧
          (∀ w ∈ after, g w = g []) ∧
          text = before.flatMap (· ++ [sep]) ++ sep :: [sep].intercalate after := by
  have hne := List.splitOn_ne_nil sep text
  have htext : [sep].intercalate (text.splitOn sep) = text := List.intercalate_splitOn sep
  have hsep : ∀ w ∈ words sep text, sep ∉ w := fun w hw =>
    notMem_of_mem_splitOn w (List.mem_of_mem_filter hw)
  have hgap : ∀ (before : List (List α)) {after}, after ≠ [] →
      [sep].intercalate (before ++ [] :: after)
        = before.flatMap (· ++ [sep]) ++ sep :: [sep].intercalate after := by
    intro before after hafter
    rw [flatMap_append_intercalate before (List.cons_ne_nil [] after),
      List.intercalate_cons_of_ne_nil hafter]
    rfl
  constructor
  · intro h
    have hlen := congrArg List.length h
    rw [List.length_map, List.length_map] at hlen
    unfold words at h hlen ⊢
    generalize text.splitOn sep = ps at hne htext h hlen ⊢
    obtain ⟨qs, z, rfl⟩ : ∃ qs z, ps = qs ++ [z] :=
      ⟨_, _, (List.dropLast_concat_getLast hne).symm⟩
    rw [List.dropLast_concat] at h hlen
    rcases filter_of_length_eq hlen.symm with ⟨rfl, hws⟩ | ⟨before, mid, rfl, hws⟩
    · left
      rw [hws, ← htext, flatMap_append_intercalate qs (List.cons_ne_nil [] [])]
      simp
    · right
      have hne' : mid ++ [z] ≠ [] := List.append_ne_nil_of_right_ne_nil mid (List.cons_ne_nil z [])
      refine ⟨before, mid ++ [z], hws, hne', fun w hw => ?_, ?_⟩
      · rw [hws, List.map_append, List.map_append, List.append_cancel_left_eq, List.map_cons,
          List.map_append, List.map_singleton] at h
        refine eq_of_cons_eq_append h (g w) ?_
        simpa using List.mem_map_of_mem (f := g) hw
      · rw [← hgap before hne', ← htext, List.append_assoc, List.cons_append]
  · rintro (h | ⟨before, after, hws, hafter, hread, h⟩)
    · have hsplit := dropLast_splitOn_flatMap hsep
      rw [← h] at hsplit
      rw [hsplit]
    · have hsplit : text.splitOn sep = before ++ [] :: after := by
        rw [h, ← hgap before hafter]
        refine List.splitOn_intercalate sep (fun w hw => ?_) (by simp)
        rcases List.mem_append.1 hw with hw | hw
        · exact hsep w (hws ▸ List.mem_append_left after hw)
        · rcases List.mem_cons.1 hw with rfl | hw
          · simp
          · exact hsep w (hws ▸ List.mem_append_right before hw)
      obtain ⟨mid, z, rfl⟩ : ∃ mid z, after = mid ++ [z] :=
        ⟨_, _, (List.dropLast_concat_getLast hafter).symm⟩
      have hdrop : (before ++ [] :: (mid ++ [z])).dropLast = before ++ [] :: mid := by
        rw [← List.cons_append, ← List.append_assoc, List.dropLast_concat]
      rw [hsplit, hws, hdrop, List.map_append, List.map_append, List.map_cons, List.map_append,
        List.map_singleton, List.append_cancel_left_eq]
      refine eq_append_of_eq fun v hv => ?_
      rw [← List.map_singleton, ← List.map_append] at hv
      obtain ⟨w, hw, rfl⟩ := List.mem_map.1 hv
      exact hread w hw

end Words
