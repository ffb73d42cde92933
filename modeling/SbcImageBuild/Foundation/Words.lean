import SbcImageBuild.Foundation.Delimited

/-!
# Words

The nonempty pieces between delimiters. Runs of delimiters, and delimiters at the ends, do not
change them.
-/
namespace Words

open Delimited

variable {α : Type} [DecidableEq α]

def words (sep : α) (xs : List α) : List (List α) := (xs.splitOn sep).filter (· ≠ [])

@[simp] theorem words_nil (sep : α) : words sep [] = [] := by
  simp [words]

theorem words_append_cons (sep : α) (xs ys : List α) :
    words sep (xs ++ sep :: ys) = words sep xs ++ words sep ys := by
  rw [words, List.splitOn_append_cons_self, List.filter_append, words, words]

@[simp] theorem words_cons_self (sep : α) (xs : List α) :
    words sep (sep :: xs) = words sep xs := by
  simpa using words_append_cons sep [] xs

@[simp] theorem words_concat_self (sep : α) (xs : List α) :
    words sep (xs ++ [sep]) = words sep xs := by
  simpa using words_append_cons sep xs []

/-- An empty piece lies between two delimiters of the fenced sequence. -/
theorem pair_of_nil_mem_splitOn {sep : α} {xs : List α} (h : [] ∈ xs.splitOn sep) :
    [sep, sep] <:+: sep :: (xs ++ [sep]) := by
  obtain ⟨before, after, hsplit⟩ := List.append_of_mem h
  obtain ⟨ys, hys⟩ := terminate_ends sep before
  refine ⟨ys, terminate sep after, ?_⟩
  calc ys ++ [sep, sep] ++ terminate sep after
      = ys ++ [sep] ++ sep :: terminate sep after := by simp
    _ = sep :: terminate sep (before ++ [] :: after) := by
      rw [← hys, terminate_append, terminate_cons, List.nil_append, List.cons_append]
    _ = sep :: (xs ++ [sep]) := by
      rw [← hsplit, ← join_append_delimiter (List.splitOn_ne_nil sep xs), join_splitOn]

/-- A sequence whose delimiters stand alone between two words is its words joined. -/
theorem join_words {sep : α} {xs : List α} (hpair : ¬ [sep, sep] <:+: xs)
    (hfirst : xs.head? ≠ some sep) (hlast : xs.getLast? ≠ some sep) :
    join sep (words sep xs) = xs := by
  rcases eq_or_ne xs [] with rfl | hne
  · simp [join]
  have hall : ∀ r ∈ xs.splitOn sep, r ≠ [] := by
    rintro r hr rfl
    rcases List.infix_cons_iff.mp (pair_of_nil_mem_splitOn hr) with hfront | hback
    · obtain ⟨x, ys, rfl⟩ := List.exists_cons_of_ne_nil hne
      obtain rfl : sep = x := by simpa using hfront
      exact hfirst rfl
    · rcases List.infix_concat_iff.mp hback with hend | hin
      · obtain ⟨ys, x, rfl⟩ := List.eq_nil_or_concat xs |>.resolve_left hne
        obtain ⟨zs, hzs⟩ := hend
        have hx : x = sep := by
          have hdrop := congrArg (fun l => l.dropLast.getLast?) hzs
          simpa using hdrop.symm
        exact hlast (by simp [hx])
      · exact hpair hin
  rw [words, List.filter_eq_self.mpr (by simpa using hall), join_splitOn]

omit [DecidableEq α] in
/-- A piece holds no element that separates. -/
theorem not_of_mem_splitOnP {p : α → Bool} {xs r : List α} {c : α} (hr : r ∈ xs.splitOnP p)
    (hc : c ∈ r) : ¬ p c := by
  induction xs generalizing r c with
  | nil =>
    rw [List.splitOnP_nil, List.mem_singleton] at hr
    exact absurd hc (hr ▸ List.not_mem_nil)
  | cons x xs ih =>
    rw [List.splitOnP_cons_eq_if_modifyHead] at hr
    by_cases hx : p x
    · rw [if_pos hx, List.mem_cons] at hr
      rcases hr with rfl | hr
      · exact absurd hc List.not_mem_nil
      · exact ih hr hc
    · rw [if_neg hx] at hr
      obtain ⟨q, qs, hs⟩ := List.exists_cons_of_ne_nil (List.splitOnP_ne_nil p xs)
      rw [hs] at hr ih
      rw [List.modifyHead_cons, List.mem_cons] at hr
      rcases hr with rfl | hr
      · rcases List.mem_cons.mp hc with rfl | hc
        · exact hx
        · exact ih List.mem_cons_self hc
      · exact ih (List.mem_cons_of_mem q hr) hc

end Words
