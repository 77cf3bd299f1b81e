import Maiter.Lib.Fallible
import Maiter.Lib.Words
import Maiter.StateTable.Basic
import Mathlib.Data.List.DropRight

/-!
# The configuration file

`loadconfig` of `configfile.h`: the file is read with `fgets` into a buffer of 4096 characters, and
a line is cut at `=` with `strtok`.

* `trim`, `fixline`, `fgets`, `strtok`, `loadLine`, `loadconfig`: the functions of the source;
* `entry`: the key and the value that a line sets;
* `loadconfig_eq`: a file without `NUL` and without long lines is read as the entries of its lines,
  of which the last one with a key counts;
* `Line`, `render`, `loadconfig_render`: settings that are written to a file are read back.
-/

namespace Maiter

open Words (words)

namespace Config

section Defs

/-- The map of the keys to their values. -/
abbrev Conf : Type := List Char → Option (List Char)

/-- `whiteSpaces`. -/
def whiteSpaces : List Char := [' ', '\x0c', '\n', '\r', '\t', '\x0b']

/-- `trimRight`. -/
def trimRight (str trimChars : List Char) : List Char := str.rdropWhile (· ∈ trimChars)

/-- `trimLeft`. -/
def trimLeft (str trimChars : List Char) : List Char := str.dropWhile (· ∈ trimChars)

/-- `trim`. -/
def trim (str : List Char) : List Char := trimLeft (trimRight str whiteSpaces) whiteSpaces

/-- The string in a buffer: what stands before the first `NUL`. -/
def cString (s : List Char) : List Char := s.takeWhile (· ≠ '\x00')

/-- `_FIXLINE`; of an empty string it reads `s[-1]`. -/
def fixline (s : List Char) : Except Fault (List Char) :=
  match s.getLast? with
  | none => .error .badIndex
  | some c => .ok (if c = '\n' then s.dropLast else s)

/-- At most `room` characters up to the end of the line, and the rest of the file. -/
def readUpTo : ℕ → List Char → List Char × List Char
  | 0, f => ([], f)
  | _ + 1, [] => ([], [])
  | room + 1, c :: f =>
    if c = '\n' then ([c], f)
    else
      let (s, f) := readUpTo room f
      (c :: s, f)

/-- `fgets(s, size, f)`; `none` is `NULL`. -/
def fgets (size : ℕ) (f : List Char) : Option (List Char × List Char) :=
  if f = [] then none else some (readUpTo (size - 1) f)

/-- `strtok` with the delimiter `=`: the token, and where the next call goes on. -/
def strtok (s : List Char) : Option (List Char) × List Char :=
  let s := s.dropWhile (· = '=')
  if s = [] then (none, [])
  else (some (s.takeWhile (· ≠ '=')), (s.dropWhile (· ≠ '=')).drop 1)

/-- A turn of the loop of `loadconfig`, on the buffer `s`. -/
def loadLine (conf : Conf) (s : List Char) : Except Fault Conf := do
  let s ← fixline (cString s)
  if s.head? = some '#' then return conf
  else if s.head? = some '%' then return conf
  else
    let (ckey, rest) := strtok s
    let (cval, _) := strtok rest
    match ckey, cval with
    | some ckey, some cval => return Function.update conf (trim ckey) (some (trim cval))
    | _, _ => return conf

/-- The loop of `loadconfig`, with at most `fuel` turns. -/
def loadLines : ℕ → List Char → Conf → Except Fault Conf
  | 0, _, _ => .error .loops
  | fuel + 1, f, conf =>
    match fgets 4096 f with
    | none => .ok conf
    | some (s, f) => do
      let conf ← loadLine conf s
      loadLines fuel f conf

/-- `loadconfig`; `none` is a file that cannot be opened. -/
def loadconfig : Option (List Char) → Except Fault Conf
  | none => .error .assertion
  | some f => loadLines (f.length + 1) f fun _ => none

end Defs

/-! ### What a line sets -/

/-- The first two pieces between the `=` of a line that is no comment. -/
def entry (line : List Char) : Option (List Char × List Char) :=
  if line.head? = some '#' ∨ line.head? = some '%' then none
  else
    match words '=' line with
    | key :: val :: _ => some (trim key, trim val)
    | _ => none

/-- The map with one entry more. -/
def set (conf : Conf) : Option (List Char × List Char) → Conf
  | none => conf
  | some (key, val) => Function.update conf key (some val)

/-- A text up to the first `=`. -/
theorem words_cons {w : List Char} (hw : '=' ∉ w) (hne : w ≠ []) (rest : List Char) :
    words '=' (w ++ '=' :: rest) = w :: words '=' rest := by
  rw [words, List.splitOn_append_cons_self_of_not_mem hw, List.filter_cons_of_pos (by simpa)]
  rfl

theorem words_singleton {w : List Char} (hw : '=' ∉ w) (hne : w ≠ []) : words '=' w = [w] := by
  rw [words, List.splitOn_eq_singleton hw, List.filter_cons_of_pos (by simpa), List.filter_nil]

theorem words_dropWhile (s : List Char) : words '=' (s.dropWhile (· = '=')) = words '=' s := by
  induction s with
  | nil => rfl
  | cons c s ih =>
    by_cases hc : c = '='
    · have hcons := List.splitOn_append_cons_self_of_not_mem (a := '=') List.not_mem_nil s
      rw [List.nil_append] at hcons
      rw [List.dropWhile_cons_of_pos (by simpa using hc), ih, hc, words, words, hcons]
      rfl
    · rw [List.dropWhile_cons_of_neg (by simpa using hc)]

/-- **`strtok` cuts off the first word.** -/
theorem strtok_eq (s : List Char) :
    (strtok s).1 = (words '=' s).head? ∧ words '=' (strtok s).2 = (words '=' s).tail := by
  have hhead := List.head?_dropWhile_not (· = '=') s
  rw [← words_dropWhile s]
  unfold strtok
  generalize s.dropWhile (· = '=') = s at hhead
  by_cases hnil : s = []
  · rw [hnil]
    exact ⟨rfl, rfl⟩
  simp only [if_neg hnil]
  rcases Words.splitOn_cases '=' s with ⟨hmem, -⟩ | ⟨w, rest, hw, rfl, -⟩
  · have hne : ∀ c ∈ s, decide (c ≠ '=') = true := fun c hc => by
      simpa using ne_of_mem_of_not_mem hc hmem
    rw [List.takeWhile_eq_self_iff.2 hne, List.dropWhile_eq_nil_iff.2 hne,
      words_singleton hmem hnil]
    exact ⟨rfl, rfl⟩
  · have hne : ∀ c ∈ w, decide (c ≠ '=') = true := fun c hc => by
      simpa using ne_of_mem_of_not_mem hc hw
    have hwne : w ≠ [] := by
      rintro rfl
      simp at hhead
    rw [List.takeWhile_append_of_pos hne, List.dropWhile_append_of_pos hne,
      words_cons hw hwne]
    simp

theorem loadLine_eq {s line : List Char} (hnul : '\x00' ∉ s) (hline : '\n' ∉ line)
    (hs : s = line ++ ['\n'] ∨ s = line ∧ line ≠ []) (conf : Conf) :
    loadLine conf s = .ok (set conf (entry line)) := by
  have hfix : fixline (cString s) = .ok line := by
    have hc : cString s = s := List.takeWhile_eq_self_iff.2 fun c hc => by
      simpa using ne_of_mem_of_not_mem hc hnul
    rw [hc, fixline]
    rcases hs with rfl | ⟨rfl, hne⟩
    · simp
    · rw [List.getLast?_eq_getLast_of_ne_nil hne]
      have hlast := ne_of_mem_of_not_mem (List.getLast_mem hne) hline
      simp [hlast]
  have hkey := strtok_eq line
  have hval := strtok_eq (strtok line).2
  rw [loadLine, hfix, Fallible.ok_bind, entry]
  by_cases hcomment : line.head? = some '#'
  · simp [hcomment, set]
  by_cases hcomment' : line.head? = some '%'
  · simp [hcomment', set]
  simp only [hcomment, hcomment', if_false, or_self, hkey.1, hval.1, hkey.2]
  rcases words '=' line with _ | ⟨key, _ | ⟨val, _⟩⟩ <;> rfl

/-- `fgets` reads a line that fits into the buffer. -/
theorem readUpTo_line {room : ℕ} {line : List Char} (hline : '\n' ∉ line) (rest : List Char) :
    (line.length ≤ room → readUpTo room line = (line, [])) ∧
    (line.length < room → readUpTo room (line ++ '\n' :: rest) = (line ++ ['\n'], rest)) := by
  induction line generalizing room with
  | nil =>
    refine ⟨fun _ => by cases room <;> rfl, fun hlt => ?_⟩
    obtain ⟨room, rfl⟩ := Nat.exists_eq_succ_of_ne_zero (Nat.ne_of_gt hlt)
    rfl
  | cons c line ih =>
    have hc : c ≠ '\n' := by
      rintro rfl
      exact hline List.mem_cons_self
    have hrest : '\n' ∉ line := fun h => hline (List.mem_cons_of_mem c h)
    rw [List.length_cons]
    cases room with
    | zero => exact ⟨fun h => by omega, fun h => by omega⟩
    | succ room =>
      refine ⟨fun hle => ?_, fun hlt => ?_⟩
      · rw [readUpTo, if_neg hc, (ih hrest).1 (by omega)]
      · rw [List.cons_append, readUpTo, if_neg hc, (ih hrest).2 (by omega)]
        rfl

theorem loadLines_eq (fuel : ℕ) : ∀ (f : List Char) (conf : Conf), f.length < fuel →
    '\x00' ∉ f → (∀ line ∈ f.splitOn '\n', line.length < 4095) →
    loadLines fuel f conf
      = .ok ((f.splitOn '\n').foldl (fun conf line => set conf (entry line)) conf) := by
  induction fuel with
  | zero => omega
  | succ fuel ih =>
    intro f conf hfuel hnul hlen
    by_cases hnil : f = []
    · rw [hnil]
      rfl
    rcases Words.splitOn_cases '\n' f with ⟨hline, hsplit⟩ | ⟨line, rest, hline, rfl, hsplit⟩
    · have hread := (readUpTo_line hline []).1 (hlen f (by simp [hsplit])).le
      have hpos : 0 < fuel := by
        have := List.length_pos_iff.2 hnil
        omega
      have hend : ∀ conf, loadLines fuel [] conf = .ok conf := fun conf => by
        obtain ⟨fuel, rfl⟩ := Nat.exists_eq_succ_of_ne_zero hpos.ne'
        rfl
      rw [loadLines, fgets, if_neg hnil, hsplit]
      simp only [Nat.reduceSub, hread, loadLine_eq hnul hline (Or.inr ⟨rfl, hnil⟩),
        Fallible.ok_bind, hend, List.foldl_cons, List.foldl_nil]
    · rw [hsplit] at hlen
      have hread := (readUpTo_line hline rest).2 (hlen line List.mem_cons_self)
      have hnul' : '\x00' ∉ line ++ ['\n'] := by
        simp only [List.mem_append, List.mem_cons, not_or] at hnul ⊢
        exact ⟨hnul.1, hnul.2.1, List.not_mem_nil⟩
      rw [loadLines, fgets, if_neg hnil, hsplit]
      simp only [Nat.reduceSub, hread, loadLine_eq hnul' hline (Or.inl rfl), Fallible.ok_bind,
        List.foldl_cons]
      refine ih rest _ ?_ ?_ fun l hl => hlen l (List.mem_cons_of_mem _ hl)
      · rw [List.length_append, List.length_cons] at hfuel
        omega
      · exact fun h => hnul (by simp [h])

/-- The value of the last entry with a key. -/
def lastVal (entries : List (List Char × List Char)) : Conf :=
  fun key => (entries.reverse.find? (·.1 = key)).map (·.2)

theorem foldl_set (ls : List (List Char)) :
    ls.foldl (fun conf line => set conf (entry line)) (fun _ => none)
      = lastVal (ls.filterMap entry) := by
  induction ls using List.reverseRecOn with
  | nil => rfl
  | append_singleton ls line ih =>
    rw [List.foldl_append, ih, List.filterMap_append, List.foldl_cons, List.foldl_nil]
    funext k
    cases h : entry line with
    | none => simp [h, set]
    | some e =>
      by_cases hk : k = e.1
      · simp [h, set, lastVal, hk]
      · simp [h, set, lastVal, hk, Ne.symm hk]

/-- **The configuration file is read as the entries of its lines.** -/
theorem loadconfig_eq {f : List Char} (hnul : '\x00' ∉ f)
    (hlen : ∀ line ∈ f.splitOn '\n', line.length < 4095) :
    loadconfig (some f) = .ok (lastVal ((f.splitOn '\n').filterMap entry)) := by
  rw [loadconfig, loadLines_eq _ f _ (Nat.lt_succ_self _) hnul hlen, foldl_set]

/-! ### Writing a configuration file -/

/-- A key or a value. -/
@[mk_iff] structure Text (s : List Char) : Prop where
  ne_nil : s ≠ []
  head : s.head? ∉ whiteSpaces.map some
  last : s.getLast? ∉ whiteSpaces.map some
  chars : '=' ∉ s ∧ '\n' ∉ s ∧ '\x00' ∉ s

instance : DecidablePred Text := fun s => decidable_of_iff _ (text_iff s).symm

/-- White space within a line. -/
def Blank (s : List Char) : Prop := ∀ c ∈ s, c ∈ whiteSpaces ∧ c ≠ '\n'

instance : DecidablePred Blank := fun s => List.decidableBAll _ s

/-- A line that is written: a comment, or a setting with white space around key and value. -/
inductive Line
  | comment (text : List Char)
  | setting (a key b c val d : List Char)

/-- The text of a line. -/
def Line.text : Line → List Char
  | .comment text => text
  | .setting a key b c val d => a ++ key ++ b ++ '=' :: (c ++ val ++ d)

/-- A comment starts with `#` or `%`, or has no `=`; a setting does not look like a comment; both
fit into the buffer. -/
def Line.Valid : Line → Prop
  | .comment text => '\n' ∉ text ∧ '\x00' ∉ text ∧ text.length < 4095 ∧
      (text.head? = some '#' ∨ text.head? = some '%' ∨ '=' ∉ text)
  | .setting a key b c val d => Blank a ∧ Text key ∧ Blank b ∧ Blank c ∧ Text val ∧ Blank d ∧
      (a ++ key).head? ≠ some '#' ∧ (a ++ key).head? ≠ some '%' ∧
      (Line.setting a key b c val d).text.length < 4095

instance : DecidablePred Line.Valid
  | .comment _ => inferInstanceAs (Decidable (_ ∧ _))
  | .setting _ _ _ _ _ _ => inferInstanceAs (Decidable (_ ∧ _))

/-- The setting of a line. -/
def Line.sets : Line → Option (List Char × List Char)
  | .comment _ => none
  | .setting _ key _ _ val _ => some (key, val)

/-- The file with these lines. -/
def render (ls : List Line) : List Char := ls.flatMap fun l => l.text ++ ['\n']

theorem trim_pad {a s b : List Char} (ha : Blank a) (hs : Text s) (hb : Blank b) :
    trim (a ++ s ++ b) = s := by
  have hpos : ∀ {p : List Char}, Blank p → ∀ c ∈ p, decide (c ∈ whiteSpaces) = true :=
    fun hp c hc => decide_eq_true (hp c hc).1
  have hright : trimRight (a ++ s ++ b) whiteSpaces = a ++ s := by
    have hb' : ∀ c ∈ b.reverse, decide (c ∈ whiteSpaces) = true := fun c hc =>
      hpos hb c (List.mem_reverse.1 hc)
    obtain ⟨s, c, rfl⟩ := (List.eq_nil_or_concat' s).resolve_left hs.ne_nil
    have hc : ¬ decide (c ∈ whiteSpaces) = true := by simpa using hs.last
    rw [trimRight, List.rdropWhile, List.reverse_append, List.dropWhile_append_of_pos hb',
      ← List.append_assoc, List.reverse_append, List.reverse_singleton, List.singleton_append,
      List.dropWhile_cons_of_neg (p := fun c => decide (c ∈ whiteSpaces)) hc, List.reverse_cons,
      List.reverse_reverse]
  rw [trim, hright, trimLeft, List.dropWhile_append_of_pos (hpos ha)]
  obtain ⟨c, s, rfl⟩ := List.exists_cons_of_ne_nil hs.ne_nil
  exact List.dropWhile_cons_of_neg (by simpa using hs.head)

/-- White space around a text adds no other characters than white space. -/
theorem notMem_pad {a s b : List Char} (ha : Blank a) (hs : Text s) (hb : Blank b) :
    '=' ∉ a ++ s ++ b ∧ '\n' ∉ a ++ s ++ b ∧ '\x00' ∉ a ++ s ++ b := by
  have hblank : ∀ {p : List Char}, Blank p → '=' ∉ p ∧ '\n' ∉ p ∧ '\x00' ∉ p := fun hp =>
    ⟨fun h => absurd (hp _ h).1 (by decide), fun h => (hp _ h).2 rfl,
      fun h => absurd (hp _ h).1 (by decide)⟩
  simp only [List.mem_append, not_or]
  exact ⟨⟨⟨(hblank ha).1, hs.chars.1⟩, (hblank hb).1⟩,
    ⟨⟨(hblank ha).2.1, hs.chars.2.1⟩, (hblank hb).2.1⟩,
    ⟨(hblank ha).2.2, hs.chars.2.2⟩, (hblank hb).2.2⟩

theorem entry_text {l : Line} (h : l.Valid) : entry l.text = l.sets := by
  cases l with
  | comment text =>
    obtain ⟨-, -, -, hmark | hmark | heq⟩ := h
    · exact if_pos (Or.inl hmark)
    · exact if_pos (Or.inr hmark)
    · show entry text = none
      rw [entry]
      split_ifs
      · rfl
      · by_cases hnil : text = []
        · rw [hnil]
          rfl
        · rw [words_singleton heq hnil]
  | setting a key b c val d =>
    obtain ⟨ha, hkey, hb, hc, hval, hd, hmark, hmark', -⟩ := h
    have hne : a ++ key ++ b ≠ [] := by simp [hkey.ne_nil]
    have hne' : c ++ val ++ d ≠ [] := by simp [hval.ne_nil]
    have hhead : (Line.setting a key b c val d).text.head? = (a ++ key).head? := by
      have hne'' : a ++ key ≠ [] := by simp [hkey.ne_nil]
      rw [Line.text, List.append_assoc, List.head?_append_of_ne_nil _ hne'']
    rw [entry, hhead, if_neg (not_or.2 ⟨hmark, hmark'⟩), Line.text,
      words_cons (notMem_pad ha hkey hb).1 hne, words_singleton (notMem_pad hc hval hd).1 hne']
    simp only [trim_pad ha hkey hb, trim_pad hc hval hd]
    rfl

theorem text_line {l : Line} (h : l.Valid) :
    '\n' ∉ l.text ∧ '\x00' ∉ l.text ∧ l.text.length < 4095 := by
  cases l with
  | comment text => exact ⟨h.1, h.2.1, h.2.2.1⟩
  | setting a key b c val d =>
    obtain ⟨ha, hkey, hb, hc, hval, hd, -, -, hlen⟩ := h
    have hleft := notMem_pad ha hkey hb
    have hright := notMem_pad hc hval hd
    refine ⟨fun hmem => ?_, fun hmem => ?_, hlen⟩ <;>
      rcases List.mem_append.1 hmem with hmem | hmem
    · exact hleft.2.1 hmem
    · exact (List.mem_cons.1 hmem).elim (by decide) hright.2.1
    · exact hleft.2.2 hmem
    · exact (List.mem_cons.1 hmem).elim (by decide) hright.2.2

/-- **Settings that are written to a configuration file are read back**, also between comments and
with white space around them.  Of two settings with one key the last one counts. -/
theorem loadconfig_render {ls : List Line} (h : ∀ l ∈ ls, l.Valid) :
    loadconfig (some (render ls)) = .ok (lastVal (ls.filterMap Line.sets)) := by
  have hrender : render ls = (ls.map Line.text).flatMap (· ++ ['\n']) ++ [] := by
    rw [List.append_nil, List.flatMap_map]
    rfl
  have hsplit : (render ls).splitOn '\n' = ls.map Line.text ++ [[]] := by
    rw [hrender, Words.splitOn_flatMap fun w hw => ?_]
    · rfl
    · obtain ⟨l, hl, rfl⟩ := List.mem_map.1 hw
      exact (text_line (h l hl)).1
  have hentries : ((render ls).splitOn '\n').filterMap entry = ls.filterMap Line.sets := by
    rw [hsplit, List.filterMap_append, List.filterMap_map]
    have hnil : [([] : List Char)].filterMap entry = [] := rfl
    rw [hnil, List.append_nil]
    exact List.filterMap_congr fun l hl => entry_text (h l hl)
  rw [← hentries]
  refine loadconfig_eq (fun hmem => ?_) fun line hline => ?_
  · obtain ⟨l, hl, hmem⟩ := List.mem_flatMap.1 hmem
    simp only [List.mem_append, List.mem_singleton] at hmem
    exact hmem.elim (text_line (h l hl)).2.1 (by decide)
  · rw [hsplit, List.mem_append, List.mem_singleton] at hline
    rcases hline with hline | rfl
    · obtain ⟨l, hl, rfl⟩ := List.mem_map.1 hline
      exact (text_line (h l hl)).2.2
    · decide

/-- A comment, and two settings of which the second one has white space around its texts. -/
def threadsLines : List Line :=
  [.comment "# threads".toList, .setting [] "THREADS".toList [] [] ['8'] [],
    .setting [' '] "THREADS".toList [' '] [' '] "16".toList ['\t']]

theorem loadconfig_render_threads : ∃ conf,
    loadconfig (some "# threads\nTHREADS=8\n THREADS = 16\t\n".toList) = .ok conf ∧
      conf "THREADS".toList = some "16".toList := by
  have hvalid : ∀ l ∈ threadsLines, l.Valid := by decide +kernel
  refine ⟨_, loadconfig_render hvalid, ?_⟩
  decide +kernel

end Config

end Maiter
