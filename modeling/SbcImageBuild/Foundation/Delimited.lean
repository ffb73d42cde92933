import Mathlib.Data.List.Basic
import Mathlib.Tactic.Common

/-!
# Delimited sequences

Records ended by a delimiter, and records joined by one. A reader splits at the delimiter and
ignores an empty remainder behind the last one; both writers are undone by it.
-/
namespace Delimited

variable {α : Type}

/-- Every record followed by the delimiter. -/
def terminate (sep : α) (rs : List (List α)) : List α := rs.flatMap (· ++ [sep])

/-- The records with the delimiter between them. -/
def join (sep : α) (rs : List (List α)) : List α := [sep].intercalate rs

def Free (sep : α) (rs : List (List α)) : Prop := ∀ r ∈ rs, sep ∉ r

@[simp] theorem free_cons {sep : α} {r : List α} {rs : List (List α)} :
    Free sep (r :: rs) ↔ sep ∉ r ∧ Free sep rs := by simp [Free]

@[simp] theorem free_nil {sep : α} : Free sep ([] : List (List α)) := by simp [Free]

@[simp] theorem terminate_nil {sep : α} : terminate sep [] = [] := rfl

@[simp] theorem terminate_cons {sep : α} {r : List α} {rs : List (List α)} :
    terminate sep (r :: rs) = r ++ sep :: terminate sep rs := by simp [terminate]

theorem terminate_append {sep : α} {rs ss : List (List α)} :
    terminate sep (rs ++ ss) = terminate sep rs ++ terminate sep ss := by simp [terminate]

theorem join_cons_cons (sep : α) (r q : List α) (rs : List (List α)) :
    join sep (r :: q :: rs) = r ++ sep :: join sep (q :: rs) := by
  simp [join, List.intercalate_cons_cons]

theorem join_append_delimiter {sep : α} {rs : List (List α)} (h : rs ≠ []) :
    join sep rs ++ [sep] = terminate sep rs := by
  induction rs with
  | nil => exact absurd rfl h
  | cons r rs ih =>
    cases rs with
    | nil => simp [join]
    | cons q rs =>
      have hq : join sep (q :: rs) ++ [sep] = terminate sep (q :: rs) := ih (by simp)
      calc join sep (r :: q :: rs) ++ [sep]
          = r ++ sep :: (join sep (q :: rs) ++ [sep]) := by
            rw [join_cons_cons, List.append_assoc, List.cons_append]
        _ = terminate sep (r :: q :: rs) := by rw [hq, ← terminate_cons]

/-- A joined block of records is terminated like the records themselves. -/
theorem terminate_join {sep : α} {rs : List (List α)} (h : rs ≠ []) :
    terminate sep [join sep rs] = terminate sep rs := by
  rw [← join_append_delimiter h]
  simp

theorem terminate_free {c sep : α} {rs : List (List α)} (hc : c ≠ sep) (h : Free c rs) :
    c ∉ terminate sep rs := by
  intro hmem
  obtain ⟨r, hr, hmem⟩ := List.mem_flatMap.mp hmem
  have hnot := h r hr
  simp_all

theorem join_free {c sep : α} {rs : List (List α)} (hc : c ≠ sep) (h : Free c rs) :
    c ∉ join sep rs := by
  rcases eq_or_ne rs [] with rfl | hrs
  · exact List.not_mem_nil
  · intro hmem
    have hnot := terminate_free hc h
    rw [← join_append_delimiter hrs] at hnot
    exact hnot (List.mem_append_left _ hmem)

/-- What does not contain an element lies on one side of it. -/
theorem infix_append_cons_iff {sep : α} {r : List α} (hr : sep ∉ r) (a b : List α) :
    r <:+: a ++ sep :: b ↔ r <:+: a ∨ r <:+: b := by
  constructor
  · rintro ⟨s, t, h⟩
    rcases List.append_eq_append_iff.mp h with ⟨d, ha, -⟩ | ⟨d, hs, hb⟩
    · exact .inl ⟨s, d, ha.symm⟩
    · cases d with
      | nil =>
        rw [List.append_nil] at hs
        exact .inl ⟨s, [], by rw [List.append_nil, hs]⟩
      | cons x d =>
        obtain ⟨rfl, rfl⟩ := List.cons.inj hb
        rcases List.append_eq_append_iff.mp hs with ⟨u, -, hru⟩ | ⟨u, -, hdu⟩
        · exact absurd (hru ▸ List.mem_append_right u List.mem_cons_self) hr
        · cases u with
          | nil => exact absurd (List.nil_append r ▸ hdu ▸ List.mem_cons_self) hr
          | cons y u =>
            obtain ⟨-, rfl⟩ := List.cons.inj hdu
            exact .inr ⟨u, t, rfl⟩
  · rintro (h | h)
    · exact h.trans (List.prefix_append a _).isInfix
    · exact h.trans ⟨a ++ [sep], [], by simp⟩

theorem infix_join_iff_exists {sep : α} {r : List α} (hr : sep ∉ r) (hne : r ≠ [])
    (rs : List (List α)) : r <:+: join sep rs ↔ ∃ q ∈ rs, r <:+: q := by
  induction rs with
  | nil =>
    constructor
    · intro h
      exact absurd (List.eq_nil_of_infix_nil h) hne
    · rintro ⟨q, hq, -⟩
      cases hq
  | cons q rs ih =>
    cases rs with
    | nil => simp [join]
    | cons p rs =>
      rw [join_cons_cons, infix_append_cons_iff hr, ih]
      simp only [List.mem_cons, exists_eq_or_imp]

/-- A sequence that starts with an element the front does not have starts behind the front. -/
theorem infix_append_of_not_mem {c : α} {r front : List α} (hc : c ∉ front) (back : List α) :
    c :: r <:+: front ++ back ↔ c :: r <:+: back := by
  constructor
  · rintro ⟨s, t, h⟩
    rw [List.append_assoc] at h
    rcases List.append_eq_append_iff.mp h with ⟨d, hfront, hd⟩ | ⟨d, -, hback⟩
    · cases d with
      | nil => exact ⟨[], t, by simpa using hd⟩
      | cons x d =>
        obtain ⟨rfl, -⟩ := List.cons.inj hd
        exact absurd (hfront ▸ List.mem_append_right s List.mem_cons_self) hc
    · exact ⟨d, t, by rw [hback, List.append_assoc]⟩
  · intro h
    exact h.trans (List.suffix_append front back).isInfix

theorem map_free {sep : α} {f : List α → List α} (hf : ∀ r, sep ∉ r → sep ∉ f r)
    {rs : List (List α)} (h : Free sep rs) : Free sep (rs.map f) := by
  intro q hq
  obtain ⟨r, hr, rfl⟩ := List.mem_map.mp hq
  exact hf r (h r hr)

theorem terminate_ends (sep : α) (rs : List (List α)) :
    ∃ xs, sep :: terminate sep rs = xs ++ [sep] := by
  rcases List.eq_nil_or_concat rs with rfl | ⟨qs, q, rfl⟩
  · exact ⟨[], rfl⟩
  · exact ⟨sep :: (terminate sep qs ++ q), by simp [terminate_append]⟩

section Reading

variable [DecidableEq α]

theorem ne_of_free {sep : α} {r : List α} (hr : sep ∉ r) : ∀ a ∈ r, decide (a ≠ sep) = true := by
  intro a ha
  simpa using ne_of_mem_of_not_mem ha hr

/-- What stands in front of the first delimiter. -/
theorem takeWhile_delimiter {sep : α} {r : List α} (hr : sep ∉ r) (rest : List α) :
    (r ++ sep :: rest).takeWhile (· ≠ sep) = r := by
  rw [List.takeWhile_append_of_pos (ne_of_free hr), List.takeWhile_cons_of_neg (by simp),
    List.append_nil]

/-- What stands from the first delimiter on. -/
theorem dropWhile_delimiter {sep : α} {r : List α} (hr : sep ∉ r) (rest : List α) :
    (r ++ sep :: rest).dropWhile (· ≠ sep) = sep :: rest := by
  rw [List.dropWhile_append_of_pos (ne_of_free hr), List.dropWhile_cons_of_neg (by simp)]

def dropEmptyLast (parts : List (List α)) : List (List α) :=
  if parts.getLast? = some [] then parts.dropLast else parts

/-- The records read from a sequence. Only the last one may lack its delimiter. -/
def records (sep : α) (xs : List α) : List (List α) := dropEmptyLast (xs.splitOn sep)

/-- A terminated sequence keeps its records in front of whatever follows. -/
theorem splitOn_terminate_append {sep : α} {rs : List (List α)} (h : Free sep rs) (xs : List α) :
    (terminate sep rs ++ xs).splitOn sep = rs ++ xs.splitOn sep := by
  induction rs with
  | nil => rfl
  | cons r rs ih =>
    obtain ⟨hr, hrs⟩ := free_cons.mp h
    rw [terminate_cons, List.append_assoc, List.cons_append,
      List.splitOn_append_cons_self_of_not_mem hr, ih hrs, List.cons_append]

theorem splitOn_terminate {sep : α} {rs : List (List α)} (h : Free sep rs) :
    (terminate sep rs).splitOn sep = rs ++ [[]] := by
  have hs := splitOn_terminate_append h []
  rwa [List.append_nil, List.splitOn_nil] at hs

theorem splitOn_free (sep : α) (xs : List α) : Free sep (xs.splitOn sep) := by
  induction xs with
  | nil => simp [Free]
  | cons x xs ih =>
    rw [List.splitOn_cons_eq_if_modifyHead]
    by_cases hx : x = sep
    · rw [if_pos (beq_iff_eq.mpr hx), free_cons]
      exact ⟨List.not_mem_nil, ih⟩
    · rw [if_neg (fun h => hx (beq_iff_eq.mp h))]
      cases hs : xs.splitOn sep with
      | nil => exact absurd hs (List.splitOn_ne_nil sep xs)
      | cons r rs =>
        rw [hs, free_cons] at ih
        rw [List.modifyHead_cons, free_cons]
        exact ⟨by simpa [Ne.symm hx] using ih.1, ih.2⟩

theorem dropEmptyLast_append_nil (rs : List (List α)) : dropEmptyLast (rs ++ [[]]) = rs := by
  simp [dropEmptyLast]

theorem dropEmptyLast_nonempty {rs : List (List α)} (h : ∀ r ∈ rs, r ≠ []) :
    dropEmptyLast rs = rs := by
  unfold dropEmptyLast
  rw [if_neg]
  intro hlast
  exact h [] (List.mem_of_getLast? hlast) rfl

theorem records_free (sep : α) (xs : List α) : Free sep (records sep xs) := by
  intro r hr
  unfold records dropEmptyLast at hr
  split at hr
  · exact splitOn_free sep xs r (List.dropLast_subset _ hr)
  · exact splitOn_free sep xs r hr

/-- Reading undoes terminating. -/
theorem records_terminate {sep : α} {rs : List (List α)} (h : Free sep rs) :
    records sep (terminate sep rs) = rs := by
  rw [records, splitOn_terminate h, dropEmptyLast_append_nil]

/-- A record with a delimiter behind it is read even if other records contain the delimiter. -/
theorem mem_records_terminate {sep : α} {rs : List (List α)} {r : List α} (hr : sep ∉ r)
    (h : r ∈ rs) : r ∈ records sep (terminate sep rs) := by
  obtain ⟨before, after, rfl⟩ := List.append_of_mem h
  have keep : ∀ front : List (List α),
      r ∈ dropEmptyLast (front ++ r :: (terminate sep after).splitOn sep) := by
    intro front
    have hback := List.splitOn_ne_nil sep (terminate sep after)
    unfold dropEmptyLast
    split
    · rw [List.dropLast_append_of_ne_nil (by simp), List.dropLast_cons_of_ne_nil hback]
      simp
    · simp
  rw [records, terminate_append, terminate_cons]
  rcases List.eq_nil_or_concat before with rfl | ⟨qs, q, rfl⟩
  · rw [terminate_nil, List.nil_append, List.splitOn_append_cons_self_of_not_mem hr]
    exact keep []
  · have hsplit : terminate sep (qs.concat q) ++ (r ++ sep :: terminate sep after) =
        (terminate sep qs ++ q) ++ sep :: (r ++ sep :: terminate sep after) := by
      simp [terminate_append]
    rw [hsplit, List.splitOn_append_cons_self, List.splitOn_append_cons_self_of_not_mem hr]
    exact keep _

/-- Reading undoes joining when no record is empty; the empty list of records included. -/
theorem records_join {sep : α} {rs : List (List α)} (h : Free sep rs)
    (hne : ∀ r ∈ rs, r ≠ []) : records sep (join sep rs) = rs := by
  cases rs with
  | nil => simp [records, join, dropEmptyLast]
  | cons r rs =>
    have hs : (join sep (r :: rs)).splitOn sep = r :: rs :=
      List.splitOn_intercalate sep h (by simp)
    rw [records, hs, dropEmptyLast_nonempty hne]

/-- A nonempty record lies between delimiters in the fenced list exactly when it is listed. -/
theorem infix_join_iff {sep : α} {rs : List (List α)} {r : List α} (h : Free sep rs)
    (hr : sep ∉ r) (hne : r ≠ []) :
    sep :: (r ++ [sep]) <:+: sep :: (join sep rs ++ [sep]) ↔ r ∈ rs := by
  rcases eq_or_ne rs [] with rfl | hrs
  · constructor
    · intro hin
      have hlen := hin.length_le
      have hpos := List.length_pos_iff.mpr hne
      simp only [join, List.intercalate_nil, List.length_cons, List.length_append,
        List.length_nil] at hlen
      omega
    · intro hmem
      exact absurd hmem List.not_mem_nil
  rw [join_append_delimiter hrs]
  constructor
  · rintro ⟨s, t, hst⟩
    have hleft : (s ++ sep :: (r ++ [sep]) ++ t).splitOn sep =
        s.splitOn sep ++ r :: t.splitOn sep := by
      rw [List.append_assoc, List.cons_append, List.splitOn_append_cons_self, List.append_assoc,
        List.singleton_append, List.splitOn_append_cons_self_of_not_mem hr]
    have hright : (sep :: terminate sep rs).splitOn sep = [] :: (rs ++ [[]]) := by
      have hs := splitOn_terminate (free_cons.mpr ⟨List.not_mem_nil, h⟩)
      rwa [terminate_cons, List.nil_append] at hs
    have hmem : r ∈ [] :: (rs ++ [[]]) := by
      rw [← hright, ← hst, hleft]
      simp
    simpa [hne] using hmem
  · intro hmem
    obtain ⟨before, after, rfl⟩ := List.append_of_mem hmem
    obtain ⟨xs, hxs⟩ := terminate_ends sep before
    refine ⟨xs, terminate sep after, ?_⟩
    calc xs ++ sep :: (r ++ [sep]) ++ terminate sep after
        = (xs ++ [sep]) ++ (r ++ sep :: terminate sep after) := by simp
      _ = sep :: terminate sep (before ++ r :: after) := by
        rw [← hxs, terminate_append, terminate_cons, List.cons_append]

theorem join_splitOn (sep : α) (xs : List α) : join sep (xs.splitOn sep) = xs :=
  List.intercalate_splitOn sep

theorem mem_of_mem_splitOn {c sep : α} {xs r : List α} (hr : r ∈ xs.splitOn sep) (hc : c ∈ r) :
    c ∈ xs := by
  have hmem : c ∈ terminate sep (xs.splitOn sep) :=
    List.mem_flatMap.mpr ⟨r, hr, List.mem_append_left _ hc⟩
  rw [← join_append_delimiter (List.splitOn_ne_nil sep xs), join_splitOn, List.mem_append] at hmem
  rcases hmem with hmem | hsep
  · exact hmem
  · obtain rfl := List.mem_singleton.mp hsep
    exact absurd hc (splitOn_free c xs r hr)

/-- A sequence is its terminated records, up to an unterminated rest of the last one. -/
theorem exists_terminate_append (sep : α) (xs : List α) :
    ∃ rs last, Free sep rs ∧ sep ∉ last ∧ xs = terminate sep rs ++ last := by
  rcases List.eq_nil_or_concat (xs.splitOn sep) with h | ⟨rs, last, h⟩
  · exact absurd h (List.splitOn_ne_nil sep xs)
  · have hfree := splitOn_free sep xs
    rw [List.concat_eq_append] at h
    rw [h] at hfree
    refine ⟨rs, last, fun r hr => hfree r (by simp [hr]), hfree last (by simp), ?_⟩
    have hjoin : join sep (rs ++ [last]) ++ [sep] = terminate sep (rs ++ [last]) :=
      join_append_delimiter (by simp)
    rw [← h, join_splitOn, h, terminate_append] at hjoin
    simpa [← List.append_assoc] using hjoin

omit [DecidableEq α] in
/-- A sequence is empty or ends in the delimiter exactly when no record is unterminated. -/
theorem complete_iff {sep : α} {rs : List (List α)} {last : List α} (hl : sep ∉ last) :
    (terminate sep rs ++ last = [] ∨ (terminate sep rs ++ last).getLast? = some sep) ↔
      last = [] := by
  constructor
  · rintro (hnil | hend)
    · exact (List.append_eq_nil_iff.mp hnil).2
    · by_contra hne
      rw [List.getLast?_append_of_ne_nil _ hne] at hend
      exact hl (List.mem_of_getLast? hend)
  · rintro rfl
    rcases List.eq_nil_or_concat rs with rfl | ⟨qs, q, rfl⟩
    · exact .inl rfl
    · exact .inr (by simp [terminate_append])

theorem records_append {sep : α} {rs : List (List α)} {last : List α} (h : Free sep rs)
    (hl : sep ∉ last) :
    records sep (terminate sep rs ++ last) = if last = [] then rs else rs ++ [last] := by
  rw [records, splitOn_terminate_append h, List.splitOn_eq_singleton hl]
  split
  · rename_i hempty
    rw [hempty, dropEmptyLast_append_nil]
  · simp [dropEmptyLast, *]

/-- A record appended behind a last one without its delimiter continues that one. -/
theorem records_append_record (sep : α) (xs : List α) {r : List α} (hr : sep ∉ r) :
    ∃ rs last, records sep (xs ++ (r ++ [sep])) = rs ++ [last ++ r] := by
  obtain ⟨rs, last, hfree, hlast, rfl⟩ := exists_terminate_append sep xs
  refine ⟨rs, last, ?_⟩
  have hall : Free sep (rs ++ [last ++ r]) := by
    intro q hq
    rcases List.mem_append.mp hq with hq | hq
    · exact hfree q hq
    · obtain rfl := List.mem_singleton.mp hq
      simp [hlast, hr]
  rw [← records_terminate hall, terminate_append]
  simp

/-- Every record replaced in place; the delimiters stay. -/
def mapRecords (sep : α) (f : List α → List α) (xs : List α) : List α :=
  join sep ((xs.splitOn sep).map f)

theorem splitOn_mapRecords {sep : α} {f : List α → List α} (hf : ∀ r, sep ∉ r → sep ∉ f r)
    (xs : List α) : (mapRecords sep f xs).splitOn sep = (xs.splitOn sep).map f :=
  List.splitOn_intercalate sep (map_free hf (splitOn_free sep xs))
    (by simp [List.splitOn_ne_nil])

theorem mapRecords_mapRecords {sep : α} {f g : List α → List α} (hf : ∀ r, sep ∉ r → sep ∉ f r)
    (xs : List α) : mapRecords sep g (mapRecords sep f xs) = mapRecords sep (g ∘ f) xs := by
  rw [mapRecords, splitOn_mapRecords hf, List.map_map, mapRecords]

theorem records_mapRecords {sep : α} {f : List α → List α} (hf : ∀ r, sep ∉ r → sep ∉ f r)
    (hnil : ∀ r, f r = [] ↔ r = []) (xs : List α) :
    records sep (mapRecords sep f xs) = (records sep xs).map f := by
  rw [records, splitOn_mapRecords hf, records, dropEmptyLast, dropEmptyLast, List.getLast?_map]
  cases h : (xs.splitOn sep).getLast? with
  | none => simp
  | some r => by_cases hr : r = [] <;> simp [hr, hnil]

theorem mapRecords_terminate {sep : α} {f : List α → List α} (hnil : f [] = [])
    {rs : List (List α)} (h : Free sep rs) :
    mapRecords sep f (terminate sep rs) = terminate sep (rs.map f) := by
  have hjoin : join sep (rs.map f ++ [[]]) ++ [sep] = terminate sep (rs.map f ++ [[]]) :=
    join_append_delimiter (by simp)
  rw [terminate_append] at hjoin
  rw [mapRecords, splitOn_terminate h, List.map_append, List.map_singleton, hnil]
  simpa using hjoin

end Reading

end Delimited
