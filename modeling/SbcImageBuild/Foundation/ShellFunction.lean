import Mathlib.Data.List.Basic
import Mathlib.Tactic.Common

/-!
# Assertions in shell functions

A shell function whose commands are assertions, and which of them decide its status. Whether the
end of the script follows a failed command depends on where the function is called.
-/
namespace ShellFunction

/-- What the function does if the assertion fails: nothing, as for a plain command, or return. A
forbidden command in the condition of an `if` whose branch returns is an assertion as well. -/
inductive Guard where
  | plain
  | orReturn
  | ifReturn
  deriving DecidableEq, Repr

structure Assertion where
  guard : Guard
  holds : Bool
  deriving DecidableEq, Repr

/-- Whether the function ends with status zero; without a result the script has ended. The second
argument is the status of the command before. -/
def body (errexit : Bool) : List Assertion → Bool → Option Bool
  | [], status => some status
  | a :: rest, _ =>
    if a.holds then body errexit rest true
    else if a.guard = .plain then
      if errexit then none else body errexit rest false
    else some false

/-- The assertions whose failure shows in the status: those that return, and the last one. -/
def noticed (as : List Assertion) : List Assertion :=
  as.filter (fun a => a.guard ≠ .plain) ++ as.getLast?.toList

def unnoticed (as : List Assertion) : List Assertion :=
  as.dropLast.filter fun a => a.guard = .plain

theorem mem_noticed_concat {as : List Assertion} {a b : Assertion} :
    a ∈ noticed (as ++ [b]) ↔ (a ∈ as ∧ a.guard ≠ .plain) ∨ a = b := by
  simp only [noticed, List.filter_append, List.getLast?_append, List.mem_append, List.mem_filter,
    decide_eq_true_eq]
  constructor
  · rintro ((h | ⟨h, -⟩) | h)
    · exact .inl h
    · exact .inr (List.mem_singleton.mp h)
    · exact .inr (by simpa using h)
  · rintro (h | rfl)
    · exact .inl (.inl h)
    · exact .inr (by simp)

theorem mem_unnoticed_concat {as : List Assertion} {a b : Assertion} :
    a ∈ unnoticed (as ++ [b]) ↔ a ∈ as ∧ a.guard = .plain := by
  rw [unnoticed, List.dropLast_concat, List.mem_filter, decide_eq_true_eq]

theorem noticed_cons (a b : Assertion) (as : List Assertion) :
    (∀ x ∈ noticed (a :: b :: as), x.holds) ↔
      (a.guard ≠ .plain → a.holds) ∧ ∀ x ∈ noticed (b :: as), x.holds := by
  by_cases hg : a.guard = .plain
  · simp [noticed, hg]
  · simp [noticed, hg]

/-- In the condition of an `if` a plain assertion counts only at the end of the function. -/
theorem body_ignored (as : List Assertion) (status : Bool) :
    body false as status = some true ↔
      (∀ a ∈ noticed as, a.holds) ∧ (as = [] → status) := by
  induction as generalizing status with
  | nil => simp [body, noticed]
  | cons a as ih =>
    cases as with
    | nil =>
      by_cases hh : a.holds <;> by_cases hg : a.guard = .plain <;> simp [body, noticed, hh, hg]
    | cons b as =>
      rw [noticed_cons, body]
      by_cases hh : a.holds
      · rw [if_pos hh, ih]
        simp [hh]
      · by_cases hg : a.guard = .plain
        · rw [if_neg hh, if_pos hg, if_neg (by simp), ih]
          simp [hg]
        · rw [if_neg hh, if_neg hg]
          simp [hh, hg]

theorem body_ignored_iff (as : List Assertion) :
    body false as true = some true ↔ ∀ a ∈ noticed as, a.holds := by
  rw [body_ignored]
  exact and_iff_left fun _ => rfl

theorem holds_iff (as : List Assertion) :
    (∀ a ∈ as, a.holds) ↔ (∀ a ∈ noticed as, a.holds) ∧ ∀ a ∈ unnoticed as, a.holds := by
  induction as with
  | nil => simp [noticed, unnoticed]
  | cons a as ih =>
    cases as with
    | nil =>
      constructor
      · intro h
        refine ⟨fun x hx => h x ?_, by simp [unnoticed]⟩
        rcases List.mem_append.mp hx with hx | hx
        · exact List.mem_of_mem_filter hx
        · simpa using hx
      · rintro ⟨h, -⟩ x hx
        exact h x (List.mem_append_right _ (by simpa using hx))
    | cons b as =>
      rw [noticed_cons, List.forall_mem_cons, ih]
      by_cases hg : a.guard = .plain
      · simp [unnoticed, hg]
        tauto
      · simp [unnoticed, hg]
        tauto

/-- What a good status says about the assertions. -/
theorem sound_iff (as : List Assertion) :
    (body false as true = some true → ∀ a ∈ as, a.holds) ↔
      (∃ a ∈ noticed as, ¬ a.holds) ∨ ∀ a ∈ unnoticed as, a.holds := by
  rw [body_ignored_iff]
  constructor
  · intro h
    by_cases hn : ∀ a ∈ noticed as, a.holds
    · exact .inr ((holds_iff as).mp (h hn)).2
    · left
      push Not at hn
      exact hn
  · rintro (⟨a, ha, hfails⟩ | hall) hn
    · exact absurd (hn a ha) hfails
    · exact (holds_iff as).mpr ⟨hn, hall⟩

end ShellFunction
