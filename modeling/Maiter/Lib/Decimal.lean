import Mathlib.Algebra.Group.Nat.Defs
import Mathlib.Data.List.TakeWhile
import Mathlib.Data.Int.Order.Basic

/-!
# Decimal numerals

Integers in decimal notation, as character strings.

* `digit`, `value`: the number that a string of digits denotes;
* `strtol`: the number at the start of a string, as the C library reads it;
* `Numeral`: an optional sign and digits; `strtol_numeral`: such a string is read back;
* `Numeral.notMem`: a numeral contains no separator;
* `print`: the notation in which an integer is written; `numeral_print`: it is a numeral.
-/

namespace Decimal

/-- The value of a digit. -/
def digit (c : Char) : ℕ := c.toNat - '0'.toNat

/-- The number that a string of digits denotes. -/
def value (ds : List Char) : ℕ := ds.foldl (fun v c => 10 * v + digit c) 0

/-- The characters that are skipped before a number. -/
def isSpace (c : Char) : Bool := c = ' ' ∨ '\t' ≤ c ∧ c ≤ '\r'

/-- The nearest 64-bit integer. -/
def clamp (z : ℤ) : ℤ := max (-9223372036854775808) (min 9223372036854775807 z)

/-- The number at the start of a string, after white space, and `0` if there is none. -/
def strtol (s : List Char) : ℤ :=
  match s.dropWhile isSpace with
  | '-' :: s => clamp (-value (s.takeWhile Char.isDigit))
  | '+' :: s => clamp (value (s.takeWhile Char.isDigit))
  | s => clamp (value (s.takeWhile Char.isDigit))

/-- A numeral for an integer: digits, with or without a sign before them. -/
inductive Numeral : List Char → ℤ → Prop
  | plain {ds : List Char} : ds ≠ [] → (∀ c ∈ ds, c.isDigit) → Numeral ds (value ds)
  | plus {ds : List Char} : ds ≠ [] → (∀ c ∈ ds, c.isDigit) → Numeral ('+' :: ds) (value ds)
  | minus {ds : List Char} : ds ≠ [] → (∀ c ∈ ds, c.isDigit) → Numeral ('-' :: ds) (-value ds)

theorem clamp_of_le {z : ℤ} (hl : -9223372036854775808 ≤ z) (hu : z ≤ 9223372036854775807) :
    clamp z = z := by
  rw [clamp, min_eq_right hu, max_eq_right hl]

theorem isDigit_iff {c : Char} : c.isDigit ↔ 48 ≤ c.toNat ∧ c.toNat ≤ 57 := by
  simp only [Char.isDigit, Bool.and_eq_true, decide_eq_true_eq, ge_iff_le, UInt32.le_iff_toNat_le]
  rfl

theorem isSpace_of_isDigit {c : Char} (h : c.isDigit) : isSpace c = false := by
  rw [isDigit_iff] at h
  have hspace : c ≠ ' ' := by
    rintro rfl
    exact absurd h.1 (by decide)
  have hreturn : ¬ c ≤ '\r' := by
    rw [Char.le_def, UInt32.le_iff_toNat_le]
    show ¬ c.toNat ≤ 13
    omega
  simp [isSpace, hspace, hreturn]

variable {s : List Char} {z : ℤ}

theorem Numeral.ne_nil (h : Numeral s z) : s ≠ [] := by
  cases h with
  | plain hne => exact hne
  | plus => simp
  | minus => simp

/-- The last character is a digit. -/
theorem Numeral.getLast (h : Numeral s z) : (s.getLast h.ne_nil).isDigit := by
  cases h with
  | plain hne hds => exact hds _ (List.getLast_mem hne)
  | plus hne hds =>
    rw [List.getLast_cons hne]
    exact hds _ (List.getLast_mem hne)
  | minus hne hds =>
    rw [List.getLast_cons hne]
    exact hds _ (List.getLast_mem hne)

/-- A character that is no digit and no sign is not in a numeral. -/
theorem Numeral.notMem (h : Numeral s z) {c : Char} (hc : c.isDigit = false) (hp : c ≠ '+')
    (hm : c ≠ '-') : c ∉ s := by
  have hds : ∀ {ds : List Char}, (∀ c ∈ ds, c.isDigit) → c ∉ ds := by
    intro ds hds hmem
    rw [hds c hmem] at hc
    cases hc
  cases h with
  | plain _ h => exact hds h
  | plus _ h => simp [hp, hds h]
  | minus _ h => simp [hm, hds h]

/-- **Numerals of 64-bit integers are read back.** -/
theorem strtol_numeral (h : Numeral s z) (hl : -9223372036854775808 ≤ z)
    (hu : z ≤ 9223372036854775807) : strtol s = z := by
  cases h with
  | plain hne hds =>
    have hdrop : s.dropWhile isSpace = s := by
      obtain ⟨d, ds, rfl⟩ := List.exists_cons_of_ne_nil hne
      have hd := isSpace_of_isDigit (hds d List.mem_cons_self)
      rw [List.dropWhile_cons_of_neg (by rw [hd]; exact Bool.false_ne_true)]
    rw [strtol, hdrop]
    -- a digit is not a sign
    split
    · exact absurd (hds '-' List.mem_cons_self) (by decide)
    · exact absurd (hds '+' List.mem_cons_self) (by decide)
    · rw [List.takeWhile_eq_self_iff.2 hds, clamp_of_le hl hu]
  | @plus ds hne hds =>
    have hdrop : ('+' :: ds).dropWhile isSpace = '+' :: ds := rfl
    rw [strtol, hdrop]
    show clamp _ = _
    rw [List.takeWhile_eq_self_iff.2 hds, clamp_of_le hl hu]
  | @minus ds hne hds =>
    have hdrop : ('-' :: ds).dropWhile isSpace = '-' :: ds := rfl
    rw [strtol, hdrop]
    show clamp _ = _
    rw [List.takeWhile_eq_self_iff.2 hds, clamp_of_le hl hu]

/-! ### Printing -/

/-- The decimal notation of an integer, as it is written to a stream. -/
def print : ℤ → List Char
  | .ofNat n => Nat.toDigits 10 n
  | .negSucc n => '-' :: Nat.toDigits 10 (n + 1)

theorem value_toDigits (n : ℕ) : value (Nat.toDigits 10 n) = n := Nat.ofDigitChars_ten_toDigits

theorem isDigit_of_mem_toDigits {n : ℕ} : ∀ c ∈ Nat.toDigits 10 n, c.isDigit :=
  fun _ hc => Nat.isDigit_of_mem_toDigits (by decide) (by decide) hc

theorem numeral_print (z : ℤ) : Numeral (print z) z := by
  cases z with
  | ofNat n =>
    have h := Numeral.plain Nat.toDigits_ne_nil (isDigit_of_mem_toDigits (n := n))
    rwa [value_toDigits] at h
  | negSucc n =>
    have h := Numeral.minus Nat.toDigits_ne_nil (isDigit_of_mem_toDigits (n := n + 1))
    rwa [value_toDigits] at h

/-- The notation is no longer than its digits with a sign. -/
theorem length_print_le {z : ℤ} {m : ℕ} (hm : 0 < m) (h : z.natAbs < 10 ^ m) :
    (print z).length ≤ m + 1 := by
  cases z with
  | ofNat n => exact ((Nat.length_toDigits_le_iff (by decide) hm).2 h).trans (Nat.le_succ m)
  | negSucc n => exact Nat.succ_le_succ ((Nat.length_toDigits_le_iff (by decide) hm).2 h)

end Decimal
