import Mathlib.Data.List.Induction
import Mathlib.Data.List.Nodup
import Mathlib.Data.List.Pairwise
import Mathlib.Tactic.Common

/-!
# First occurrences

What a loop collects that appends only what it has not seen: the elements of a list in the order
in which they first occur.
-/
namespace FirstOccurrence

variable {α : Type} [BEq α] [LawfulBEq α]

theorem eraseDups_concat_of_mem {l : List α} {a : α} (h : a ∈ l) :
    (l ++ [a]).eraseDups = l.eraseDups := by
  simp [List.eraseDups_append, List.removeAll, h]

theorem eraseDups_concat_of_notMem {l : List α} {a : α} (h : a ∉ l) :
    (l ++ [a]).eraseDups = l.eraseDups ++ [a] := by
  simp [List.eraseDups_append, List.removeAll, h, List.eraseDups_cons]

/-- The order of first occurrence. -/
theorem pairwise_idxOf_eraseDups (l : List α) :
    l.eraseDups.Pairwise fun a b => l.idxOf a < l.idxOf b := by
  induction l using List.reverseRecOn with
  | nil => simp
  | append_singleton l a ih =>
    have keep : l.eraseDups.Pairwise fun b c => (l ++ [a]).idxOf b < (l ++ [a]).idxOf c := by
      apply ih.imp_of_mem
      intro b c hb hc hlt
      rwa [List.idxOf_append_of_mem (List.mem_eraseDups.mp hb),
        List.idxOf_append_of_mem (List.mem_eraseDups.mp hc)]
    by_cases ha : a ∈ l
    · rwa [eraseDups_concat_of_mem ha]
    · rw [eraseDups_concat_of_notMem ha]
      apply List.pairwise_append.mpr
      refine ⟨keep, List.pairwise_singleton _ _, fun b hb c hc => ?_⟩
      obtain rfl := List.mem_singleton.mp hc
      have hmem := List.mem_eraseDups.mp hb
      have hlt := List.idxOf_lt_length_of_mem hmem
      rw [List.idxOf_append_of_mem hmem, List.idxOf_append_of_notMem ha]
      omega

theorem nodup_eraseDups (l : List α) : l.eraseDups.Nodup := by
  apply (pairwise_idxOf_eraseDups l).imp
  rintro a b hlt rfl
  exact Nat.lt_irrefl _ hlt

/-- The list `kept` names what occurs in `l`, each element once and in the order of `l`. -/
structure KeepsFirst (l kept : List α) : Prop where
  nodup : kept.Nodup
  mem_iff : ∀ a, a ∈ kept ↔ a ∈ l
  ordered : kept.Pairwise fun a b => l.idxOf a < l.idxOf b

theorem keepsFirst_eraseDups (l : List α) : KeepsFirst l l.eraseDups :=
  ⟨nodup_eraseDups l, fun _ => List.mem_eraseDups, pairwise_idxOf_eraseDups l⟩

theorem eraseDups_of_nodup {l : List α} (h : l.Nodup) : l.eraseDups = l := by
  induction l using List.reverseRecOn with
  | nil => rfl
  | append_singleton l a ih =>
    obtain ⟨front, -, apart⟩ := List.nodup_append.mp h
    rw [eraseDups_concat_of_notMem fun ha => apart a ha a (by simp) rfl, ih front]

/-- One element is left exactly when the list repeats it. -/
theorem eraseDups_eq_singleton_iff {l : List α} {a : α} :
    l.eraseDups = [a] ↔ ∃ n, l = List.replicate (n + 1) a := by
  constructor
  · intro h
    have all : ∀ b ∈ l, b = a := by
      intro b hb
      have kept := List.mem_eraseDups.mpr hb
      rw [h] at kept
      exact List.mem_singleton.mp kept
    have repeated := List.eq_replicate_of_mem all
    cases hl : l.length with
    | zero =>
      rw [List.eq_nil_of_length_eq_zero hl] at h
      cases h
    | succ n => exact ⟨n, hl ▸ repeated⟩
  · rintro ⟨n, rfl⟩
    induction n with
    | zero => exact eraseDups_of_nodup (List.nodup_singleton a)
    | succ n ih =>
      rw [List.replicate_succ', eraseDups_concat_of_mem (by simp), ih]

end FirstOccurrence
