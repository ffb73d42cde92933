import SbcImageBuild.Foundation.Delimited
import Mathlib.Data.List.TakeWhile
import Mathlib.Data.Int.Order.Basic
import Mathlib.Tactic.Common

/-!
# Shell strings

Character lists with the conversions a POSIX shell applies to them: default values,
decimal and arithmetic readings of digit strings, and aborting checks.
-/
namespace ShellText

abbrev Text := List Char

instance : Coe String Text := ⟨String.toList⟩

/-- Quantifiers over the characters of a text are decided on the text, not on all characters. -/
instance (priority := high) decidableAllChars {p : Char → Prop} [DecidablePred p] (t : Text) :
    Decidable (∀ c ∈ t, p c) := List.decidableBAll p t

instance (priority := high) decidableAnyChar {p : Char → Prop} [DecidablePred p] (t : Text) :
    Decidable (∃ c ∈ t, p c) := List.decidableBEx p t

instance (priority := high) decidableMemTexts (t : Text) (ts : List Text) : Decidable (t ∈ ts) :=
  List.instDecidableMemOfLawfulBEq t ts

/-- The parameter expansion with a default: unset and empty are not distinguished. -/
def orDefault (value default : Text) : Text := if value = [] then default else value

def isDigit (c : Char) : Bool := '0' ≤ c && c ≤ '9'
def isOctalDigit (c : Char) : Bool := '0' ≤ c && c ≤ '7'
def digitValue (c : Char) : ℕ := c.toNat - '0'.toNat

def numeral (base : ℕ) (t : Text) : ℕ := t.foldl (fun n c => base * n + digitValue c) 0

/-- The reading of a digit string by `test` and by command line tools. -/
def decimal (t : Text) : ℕ := numeral 10 t

def AllDigits (t : Text) : Prop := t ≠ [] ∧ ∀ c ∈ t, isDigit c

instance (t : Text) : Decidable (AllDigits t) :=
  inferInstanceAs (Decidable (_ ∧ ∀ c ∈ t, isDigit c = true))

/-- The reading of a digit string inside an arithmetic expansion: a leading zero makes the
constant octal, and a digit that is too great for the base is an evaluation error. -/
def arithmetic : Text → Option ℤ
  | [] => some 0
  | '0' :: c :: t =>
    if (c :: t).all isOctalDigit then some (numeral 8 (c :: t)) else none
  | t => if t.all isDigit then some (decimal t) else none

/-- An arithmetic expansion of a variable; an evaluation error ends the script. -/
def evaluate (t : Text) : Except Text ℤ :=
  match arithmetic t with
  | some n => .ok n
  | none => .error "value too great for base".toList

/-- The character class `[:space:]` of the C locale. -/
def isSpace (c : Char) : Bool := c == ' ' || (9 ≤ c.toNat && c.toNat ≤ 13)

def firstLine (t : Text) : Text := t.takeWhile (· ≠ '\n')

/-- Reading an array from a here-string with the field separator `sep`. -/
def readArray (sep : Char) (t : Text) : List Text := Delimited.records sep (firstLine t)

theorem firstLine_of_line {t : Text} (h : '\n' ∉ t) : firstLine t = t := by
  rw [firstLine, List.takeWhile_eq_self_iff]
  exact Delimited.ne_of_free h

/-- A check that ends the script with a message. -/
def require (c : Prop) [Decidable c] (message : Text) : Except Text Unit :=
  if c then .ok () else .error message

@[simp] theorem require_ok {c : Prop} [Decidable c] {m : Text} {u : Unit} :
    require c m = .ok u ↔ c := by
  unfold require
  split <;> simp_all

/-- A sequence that ended normally went through its first part normally. -/
theorem bind_ok {ε α β : Type} {x : Except ε α} {k : α → Except ε β} {r : β} :
    (x >>= k) = .ok r ↔ ∃ a, x = .ok a ∧ k a = .ok r := by
  cases x with
  | error e => simp [bind, Except.bind]
  | ok a => simp [bind, Except.bind]

/-- A loop of checks ends normally exactly when every check holds. -/
theorem forM_require_ok {α : Type} {p : α → Prop} [DecidablePred p] {m : α → Text}
    {l : List α} {u : PUnit} :
    (forM l fun a => require (p a) (m a)) = .ok u ↔ ∀ a ∈ l, p a := by
  induction l with
  | nil => simp [pure, Except.pure]
  | cons a l ih => simp [bind_ok, ih]

theorem evaluate_ok {t : Text} {n : ℤ} : evaluate t = .ok n ↔ arithmetic t = some n := by
  unfold evaluate
  split <;> simp_all

/-- Arithmetic expansion and `test` agree on digit strings without a leading zero. -/
theorem arithmetic_of_leading {c : Char} {t : Text} (hc : c ≠ '0')
    (h : ∀ d ∈ c :: t, isDigit d) : arithmetic (c :: t) = some (decimal (c :: t) : ℤ) := by
  have hall : (c :: t).all isDigit = true := by simpa [List.all_eq_true] using h
  unfold arithmetic
  split
  · contradiction
  · rename_i heq
    cases heq
    exact absurd rfl hc
  · rw [if_pos hall]

end ShellText
