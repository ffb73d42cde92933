import Mathlib.Data.Fintype.Pigeonhole
import Mathlib.Tactic.Common

/-!
# Loops

A loop whose body either leaves it or starts the next round. Rules for its invariants, for its end
by a measure, and for the loops that never end.
-/
namespace Loops

variable {σ : Type}

inductive Outcome (σ : Type) where
  | leave (s : σ)
  | again (s : σ)

/-- The state in which the loop is left, if that takes at most so many rounds. -/
def loop (body : σ → Outcome σ) : ℕ → σ → Option σ
  | 0, _ => none
  | rounds + 1, s =>
    match body s with
    | .leave t => some t
    | .again t => loop body rounds t

def Ends (body : σ → Outcome σ) (s : σ) : Prop := ∃ rounds t, loop body rounds s = some t

variable {body : σ → Outcome σ} {s t : σ}

theorem loop_leave (h : body s = .leave t) (rounds : ℕ) :
    loop body (rounds + 1) s = some t := by
  rw [loop, h]

theorem loop_again (h : body s = .again t) (rounds : ℕ) :
    loop body (rounds + 1) s = loop body rounds t := by
  rw [loop, h]

theorem loop_mono {m n : ℕ} (h : loop body m s = some t) (hmn : m ≤ n) :
    loop body n s = some t := by
  induction m generalizing n s with
  | zero => cases h
  | succ m ih =>
    obtain ⟨n, rfl⟩ := Nat.exists_eq_add_of_lt hmn
    rw [loop] at h ⊢
    split at h
    · exact h
    · exact ih h (Nat.le_add_right m n)

theorem loop_invariant {I Q : σ → Prop} (hagain : ∀ s t, I s → body s = .again t → I t)
    (hleave : ∀ s t, I s → body s = .leave t → Q t) {rounds : ℕ} (hs : I s)
    (h : loop body rounds s = some t) : Q t := by
  induction rounds generalizing s with
  | zero => cases h
  | succ rounds ih =>
    rw [loop] at h
    split at h
    · rename_i hbody
      cases h
      exact hleave s t hs hbody
    · rename_i hbody
      exact ih (hagain s _ hs hbody) h

/-- A measure that every further round makes smaller ends the loop. -/
theorem ends_of_measure {I : σ → Prop} (μ : σ → ℕ)
    (hagain : ∀ s t, I s → body s = .again t → I t ∧ μ t < μ s) (hs : I s) : Ends body s := by
  generalize hn : μ s = n
  induction n using Nat.strongRecOn generalizing s with
  | ind n ih =>
    cases hbody : body s with
    | leave t => exact ⟨1, t, loop_leave hbody 0⟩
    | again t =>
      obtain ⟨hi, hlt⟩ := hagain s t hs hbody
      obtain ⟨rounds, u, hu⟩ := ih (μ t) (hn ▸ hlt) hi rfl
      exact ⟨rounds + 1, u, (loop_again hbody rounds).trans hu⟩

/-- A loop that stays in a set of states from which it always goes on never ends. -/
theorem not_ends_of_trap {I : σ → Prop} (hagain : ∀ s, I s → ∃ t, body s = .again t ∧ I t)
    (hs : I s) : ¬ Ends body s := by
  rintro ⟨rounds, u, hu⟩
  induction rounds generalizing s with
  | zero => cases hu
  | succ rounds ih =>
    obtain ⟨t, hbody, ht⟩ := hagain s hs
    rw [loop_again hbody] at hu
    exact ih ht hu

/-- The state in front of a further round, if the loop gets that far. -/
def after (body : σ → Outcome σ) : ℕ → σ → Option σ
  | 0, s => some s
  | rounds + 1, s =>
    match body s with
    | .leave _ => none
    | .again t => after body rounds t

theorem loop_after {m : ℕ} (h : after body m s = some t) (n : ℕ) :
    loop body (m + n) s = loop body n t := by
  induction m generalizing s with
  | zero =>
    cases h
    rw [Nat.zero_add]
  | succ m ih =>
    rw [after] at h
    rw [Nat.add_right_comm]
    split at h
    · cases h
    · rename_i hbody
      rw [loop_again hbody, ih h]

theorem after_add {m : ℕ} (h : after body m s = some t) (n : ℕ) :
    after body (m + n) s = after body n t := by
  induction m generalizing s with
  | zero =>
    cases h
    rw [Nat.zero_add]
  | succ m ih =>
    rw [after] at h
    rw [Nat.add_right_comm, after]
    split at h
    · cases h
    · exact ih h

theorem ends_of_after_eq_none {m : ℕ} (h : after body m s = none) : Ends body s := by
  induction m generalizing s with
  | zero => cases h
  | succ m ih =>
    rw [after] at h
    split at h
    · rename_i t hbody
      exact ⟨1, t, loop_leave hbody 0⟩
    · rename_i t hbody
      obtain ⟨rounds, u, hu⟩ := ih h
      exact ⟨rounds + 1, u, (loop_again hbody rounds).trans hu⟩

/-- The key of a state says whether the loop goes on from there, and with which key. -/
def Governs {κ : Type} (key : σ → κ) (body : σ → Outcome σ) : Prop :=
  ∀ s t u, key s = key t → body s = .again u → ∃ v, body t = .again v ∧ key u = key v

theorem Governs.loop_isSome {κ : Type} {key : σ → κ} (hkey : Governs key body)
    (hst : key s = key t) {n : ℕ} (h : (loop body n s).isSome) : (loop body n t).isSome := by
  induction n generalizing s t with
  | zero => cases h
  | succ n ih =>
    cases ht : body t with
    | leave u =>
      rw [loop_leave ht]
      rfl
    | again u =>
      obtain ⟨v, hv, huv⟩ := hkey t s u hst.symm ht
      rw [loop_again ht]
      rw [loop_again hv] at h
      exact ih huv.symm h

/-- With finitely many keys a loop ends exactly if no key comes back. -/
theorem ends_iff_not_repeating {κ : Type} [Finite κ] {key : σ → κ} (hkey : Governs key body) :
    Ends body s ↔ ∀ m n t u, m < n → after body m s = some t → after body n s = some u →
      key t ≠ key u := by
  constructor
  · rintro ⟨rounds, v, hv⟩ m n t u hmn ht hu heq
    obtain ⟨k, rfl⟩ := Nat.exists_eq_add_of_lt hmn
    rw [Nat.add_assoc, after_add ht] at hu
    -- the rounds left at `t` are more than those at `u`, which the keys say are as many
    have hsome : ∃ n, (loop body n t).isSome := by
      refine ⟨rounds, ?_⟩
      rw [← loop_after ht, loop_mono hv (Nat.le_add_left rounds m)]
      rfl
    have hleast := Nat.find_spec hsome
    have hmore : k + 1 ≤ Nat.find hsome := by
      by_contra hless
      obtain ⟨w, hw⟩ := Option.isSome_iff_exists.mp hleast
      have hnone := loop_mono hw (Nat.le_of_not_le hless)
      rw [← Nat.add_zero (k + 1), loop_after hu] at hnone
      cases hnone
    obtain ⟨left, hleft⟩ := Nat.exists_eq_add_of_le hmore
    rw [hleft, loop_after hu] at hleast
    have hfewer : left < Nat.find hsome := by omega
    exact Nat.find_min hsome hfewer (hkey.loop_isSome heq.symm hleast)
  · intro hnever
    by_contra hends
    have hafter : ∀ n, ∃ t, after body n s = some t := by
      intro n
      exact Option.ne_none_iff_exists'.mp fun h => hends (ends_of_after_eq_none h)
    choose state hstate using hafter
    obtain ⟨m, n, hmn, heq⟩ := Finite.exists_ne_map_eq_of_infinite fun n => key (state n)
    rcases Nat.lt_or_gt_of_ne hmn with hlt | hlt
    · exact hnever m n _ _ hlt (hstate m) (hstate n) heq
    · exact hnever n m _ _ hlt (hstate n) (hstate m) heq.symm

end Loops
