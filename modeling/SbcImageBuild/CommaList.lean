import SbcImageBuild.DebianSelection
import SbcImageBuild.Foundation.FirstOccurrence
import SbcImageBuild.Foundation.Words

/-!
# Comma lists

What `normalize_comma_list` makes of an input, and what the loops of `resolve_debian_overlays` and
`resolve_debian_packages` read from it.
-/
namespace CommaList

open ShellText Delimited Words FirstOccurrence DebianSelection

def isSeparator (c : Char) : Bool := isSpace c || c == '+' || c == ';' || c == ','

/-- The nonempty pieces between separators. -/
def tokens (raw : Text) : List Text := (raw.splitOnP isSeparator).filter (· ≠ [])

theorem tokens_append_separator (a b : Text) {c : Char} (hc : isSeparator c) :
    tokens (a ++ c :: b) = tokens a ++ tokens b := by
  rw [tokens, List.splitOnP_append_cons a b hc, List.filter_append, tokens, tokens]

theorem tokens_token {t : Text} (hne : t ≠ []) (h : ∀ c ∈ t, ¬ isSeparator c) :
    tokens t = [t] := by
  rw [tokens, List.splitOnP_eq_singleton fun c hc => by simpa using h c hc]
  simp [hne]

theorem tokens_join {ts : List Text} (hne : ∀ t ∈ ts, t ≠ [])
    (h : ∀ t ∈ ts, ∀ c ∈ t, ¬ isSeparator c) : tokens (join ',' ts) = ts := by
  induction ts with
  | nil => rfl
  | cons t ts ih =>
    obtain ⟨ht, hts⟩ := List.forall_mem_cons.mp hne
    obtain ⟨hfree, hrest⟩ := List.forall_mem_cons.mp h
    cases ts with
    | nil => simpa [join] using tokens_token ht hfree
    | cons u ts =>
      rw [join_cons_cons, tokens_append_separator t _ rfl, tokens_token ht hfree, ih hts hrest]
      rfl

theorem words_map_separators (raw : Text) :
    words ',' (raw.map fun c => if isSpace c || c == '+' || c == ';' then ',' else c) =
      tokens raw := by
  have hsplit : (raw.map fun c => if isSpace c || c == '+' || c == ';' then ',' else c).splitOn ','
      = raw.splitOnP isSeparator := by
    induction raw with
    | nil => rfl
    | cons c raw ih =>
      rw [List.map_cons, List.splitOn_cons_eq_if_modifyHead,
        List.splitOnP_cons_eq_if_modifyHead, ih]
      by_cases hc : (isSpace c || c == '+' || c == ';') = true
      · simp [hc, isSeparator]
      · simp [hc, isSeparator]
  rw [words, hsplit, tokens]

/-- A pass only removes empty pieces. -/
theorem words_replacePairs (front t : Text) :
    words ',' (front ++ replacePairs t) = words ',' (front ++ t) := by
  fun_induction replacePairs t generalizing front with
  | case1 t ih =>
    have hrest := ih []
    rw [List.nil_append, List.nil_append] at hrest
    rw [words_append_cons, words_append_cons, words_cons_self, hrest]
  | case2 c t _ ih =>
    have hrest := ih (front ++ [c])
    rwa [List.append_assoc, List.append_assoc] at hrest
  | case3 => rfl

theorem words_replaceAllPairs (n : ℕ) (t : Text) :
    words ',' (replaceAllPairs n t) = words ',' t := by
  induction n generalizing t with
  | zero => rfl
  | succ n ih =>
    rw [replaceAllPairs]
    split
    · rw [ih]
      exact words_replacePairs [] t
    · rfl

theorem words_dropFirstComma (t : Text) : words ',' (dropFirstComma t) = words ',' t := by
  unfold dropFirstComma
  split
  · rw [words_cons_self]
  · rfl

/-- The last comma is removed, or there is none. -/
theorem dropLastComma_cases (t : Text) :
    (∃ u, t = u ++ [','] ∧ dropLastComma t = u) ∨ t.getLast? ≠ some ',' ∧ dropLastComma t = t := by
  rcases List.eq_nil_or_concat t with rfl | ⟨u, c, rfl⟩
  · exact .inr ⟨by simp, rfl⟩
  · by_cases hc : c = ','
    · exact .inl ⟨u, by simp [hc], by simp [dropLastComma, dropFirstComma, hc]⟩
    · refine .inr ⟨by simpa using hc, ?_⟩
      rw [dropLastComma, List.concat_eq_append, List.reverse_append, List.reverse_singleton,
        List.singleton_append]
      unfold dropFirstComma
      split
      · rename_i heq
        exact absurd (List.cons.inj heq).1 hc
      · simp

theorem words_dropLastComma (t : Text) : words ',' (dropLastComma t) = words ',' t := by
  rcases dropLastComma_cases t with ⟨u, rfl, hu⟩ | ⟨-, ht⟩
  · rw [hu, words_concat_self]
  · rw [ht]

theorem dropFirstComma_head {t : Text} (h : ¬ HasPair t) :
    ¬ HasPair (dropFirstComma t) ∧ (dropFirstComma t).head? ≠ some ',' := by
  unfold dropFirstComma
  split
  · rename_i u
    constructor
    · intro hpair
      exact h (hpair.trans (List.suffix_cons ',' u).isInfix)
    · intro hhead
      obtain ⟨rest, rfl⟩ := List.head?_eq_some_iff.mp hhead
      exact h ⟨[], rest, rfl⟩
  · rename_i hne
    refine ⟨h, fun hhead => ?_⟩
    obtain ⟨rest, rfl⟩ := List.head?_eq_some_iff.mp hhead
    exact hne rest rfl

theorem dropLastComma_ends {t : Text} (h : ¬ HasPair t) (hhead : t.head? ≠ some ',') :
    ¬ HasPair (dropLastComma t) ∧ (dropLastComma t).head? ≠ some ',' ∧
      (dropLastComma t).getLast? ≠ some ',' := by
  rcases dropLastComma_cases t with ⟨u, rfl, hu⟩ | ⟨hlast, ht⟩
  · rw [hu]
    refine ⟨fun hpair => h (hpair.trans (List.prefix_append u _).isInfix), fun hcomma => ?_,
      fun hcomma => ?_⟩
    · obtain ⟨rest, rfl⟩ := List.head?_eq_some_iff.mp hcomma
      exact hhead rfl
    · obtain ⟨rest, rfl⟩ := List.getLast?_eq_some_iff.mp hcomma
      exact h ⟨rest, [], by simp⟩
  · rw [ht]
    exact ⟨h, hhead, hlast⟩

/-- No comma is left at the ends or beside another one. -/
theorem normalizeCommaList_ends (raw : Text) : ¬ HasPair (normalizeCommaList raw) ∧
    (normalizeCommaList raw).head? ≠ some ',' ∧ (normalizeCommaList raw).getLast? ≠ some ',' := by
  let mapped := raw.map fun c => if isSpace c || c == '+' || c == ';' then ',' else c
  have hdone : ¬ HasPair (replaceAllPairs mapped.length mapped) := replaceAllPairs_done (le_refl _)
  obtain ⟨hfirst, hhead⟩ := dropFirstComma_head hdone
  exact dropLastComma_ends hfirst hhead

/-- Normalization joins the pieces of the input with single commas. -/
theorem normalizeCommaList_eq (raw : Text) : normalizeCommaList raw = join ',' (tokens raw) := by
  obtain ⟨hpair, hhead, hlast⟩ := normalizeCommaList_ends raw
  have hwords : words ',' (normalizeCommaList raw) = tokens raw := by
    rw [normalizeCommaList, words_dropLastComma, words_dropFirstComma, words_replaceAllPairs,
      words_map_separators]
  calc normalizeCommaList raw
      = join ',' (words ',' (normalizeCommaList raw)) := (join_words hpair hhead hlast).symm
    _ = join ',' (tokens raw) := by rw [hwords]

theorem not_separator_of_mem_tokens {raw token : Text} {c : Char} (h : token ∈ tokens raw)
    (hc : c ∈ token) : ¬ isSeparator c :=
  not_of_mem_splitOnP (List.mem_of_mem_filter h) hc

theorem tokens_plain (raw : Text) : Plain (tokens raw) := by
  refine ⟨fun t ht => ?_, fun t ht hc => ?_, fun t ht hc => ?_⟩
  · simpa using (List.mem_filter.mp ht).2
  · exact not_separator_of_mem_tokens ht hc (by decide)
  · exact not_separator_of_mem_tokens ht hc (by decide)

/-- The loops read the pieces of the input. -/
theorem readArray_normalizeCommaList (raw : Text) :
    readArray ',' (normalizeCommaList raw) = tokens raw := by
  rw [normalizeCommaList_eq, readArray_join (tokens_plain raw)]

theorem normalizeCommaList_eq_nil_iff (raw : Text) :
    normalizeCommaList raw = [] ↔ tokens raw = [] := by
  have hread := readArray_normalizeCommaList raw
  rw [normalizeCommaList_eq] at hread ⊢
  constructor
  · intro h
    rw [h] at hread
    exact hread.symm
  · intro h
    rw [h]
    rfl

/-- The loops strip white space from tokens that have none. -/
theorem strip_token {raw token : Text} (h : token ∈ tokens raw) :
    (token.filter fun c => !isSpace c) = token := by
  apply List.filter_eq_self.mpr
  intro c hc
  have hsep := not_separator_of_mem_tokens h hc
  simp only [isSeparator, Bool.or_eq_true, not_or] at hsep
  simpa using hsep.1.1.1

/-- Both resolvers leave an input that opts out or has no tokens to their loops. -/
theorem resolve_selection {β : Type} (optOuts : List Text) (raw : Text) {empty : β}
    (resolve : List Text → β) (hempty : resolve [] = empty) :
    (if normalizeCommaList raw ∈ optOuts ∨ normalizeCommaList raw = [] then empty
      else resolve (readArray ',' (normalizeCommaList raw))) =
    resolve (if normalizeCommaList raw ∈ optOuts then [] else tokens raw) := by
  by_cases hout : normalizeCommaList raw ∈ optOuts
  · rw [if_pos (.inl hout), if_pos hout, hempty]
  rw [if_neg hout]
  by_cases hnil : normalizeCommaList raw = []
  · rw [if_pos (.inr hnil), (normalizeCommaList_eq_nil_iff raw).mp hnil, hempty]
  · rw [if_neg (by simp [hout, hnil]), readArray_normalizeCommaList]

/-- The tokens that the loop of `resolve_debian_overlays` reads. An input that opts out has
none. -/
def selectedTokens (raw : Text) : List Text :=
  if normalizeCommaList raw ∈ overlayOptOuts then [] else tokens raw

theorem customPackages_ok_iff {requested custom : List Text}
    (hreq : ∀ t ∈ requested, t ≠ [] ∧ (t.filter fun c => !isSpace c) = t) :
    customPackages requested = .ok custom ↔
      (∀ t ∈ requested, checkPackage t = .ok ()) ∧ requested = custom := by
  induction requested generalizing custom with
  | nil =>
    rw [customPackages]
    simp
  | cons t requested ih =>
    obtain ⟨hne, hstrip⟩ := hreq t List.mem_cons_self
    have hrest := fun custom => @ih custom fun u hu => hreq u (List.mem_cons_of_mem t hu)
    rw [customPackages, hstrip, if_neg hne, List.forall_mem_cons]
    simp only [bind_ok, hrest]
    constructor
    · rintro ⟨⟨⟩, hcheck, rest, ⟨hall, rfl⟩, hcustom⟩
      exact ⟨⟨hcheck, hall⟩, Except.ok.inj hcustom⟩
    · rintro ⟨⟨hcheck, hall⟩, rfl⟩
      exact ⟨(), hcheck, requested, ⟨hall, rfl⟩, rfl⟩

theorem deduplicate_eq {pkgs done : List Text} (hne : ∀ p ∈ pkgs, p ≠ []) :
    deduplicate pkgs done.eraseDups = (done ++ pkgs).eraseDups := by
  induction pkgs generalizing done with
  | nil => rw [deduplicate, List.append_nil]
  | cons p pkgs ih =>
    have hrest : ∀ q ∈ pkgs, q ≠ [] := fun q hq => hne q (List.mem_cons_of_mem p hq)
    have happend : done ++ p :: pkgs = done ++ [p] ++ pkgs := by simp
    rw [deduplicate, happend, ← ih hrest]
    by_cases hmem : p ∈ done
    · rw [if_pos (.inr (List.mem_eraseDups.mpr hmem)), eraseDups_concat_of_mem hmem]
    · rw [if_neg (by simp [hmem, hne]), eraseDups_concat_of_notMem hmem]

def selectedPackages (raw : Text) : List Text :=
  if normalizeCommaList raw ∈ packageOptOuts then [] else tokens raw

theorem selectedPackages_subset {raw p : Text} (h : p ∈ selectedPackages raw) :
    p ∈ tokens raw := by
  rw [selectedPackages] at h
  split at h
  · cases h
  · exact h

theorem resolveDebianPackages_ok_iff {raw : Text} {sel : Selection} :
    resolveDebianPackages raw = .ok sel ↔
      (∀ p ∈ selectedPackages raw, checkPackage p = .ok ()) ∧
      sel = selectionOf (selectedPackages raw).eraseDups := by
  let resolve : List Text → Except Text Selection := fun requested => do
    let custom ← customPackages requested
    pure (selectionOf (deduplicate custom []))
  have hrun : resolveDebianPackages raw = resolve (selectedPackages raw) :=
    resolve_selection packageOptOuts raw resolve rfl
  have hreq : ∀ t ∈ selectedPackages raw, t ≠ [] ∧ (t.filter fun c => !isSpace c) = t := by
    intro t ht
    have hmem := selectedPackages_subset ht
    exact ⟨(tokens_plain raw).1 t hmem, strip_token hmem⟩
  have hdedup : deduplicate (selectedPackages raw) [] = (selectedPackages raw).eraseDups :=
    @deduplicate_eq (selectedPackages raw) [] fun p hp => (hreq p hp).1
  rw [hrun]
  simp only [resolve, bind_ok, customPackages_ok_iff hreq]
  constructor
  · rintro ⟨_, ⟨hall, rfl⟩, hsel⟩
    exact ⟨hall, hdedup ▸ (Except.ok.inj hsel).symm⟩
  · rintro ⟨hall, rfl⟩
    exact ⟨_, ⟨hall, rfl⟩, hdedup ▸ rfl⟩

/-! ## The passes of `normalize_comma_list` -/

/-- A global replacement of every character of a class by a comma. -/
def replaceClass (p : Char → Bool) (t : Text) : Text := t.map fun c => if p c then ',' else c

/-- The three global replacements in front of the loop. -/
def separated (raw : Text) : Text :=
  replaceClass (· == ';') (replaceClass (· == '+') (replaceClass isSpace raw))

/-- The `while` loop as the shell runs it, with no bound on its rounds. A loop that ends is
derived in finitely many steps. -/
inductive Collapses : Text → Text → Prop where
  | done {t} : ¬ HasPair t → Collapses t t
  | round {t u} : HasPair t → Collapses (replacePairs t) u → Collapses t u

/-- A class replaced first is not replaced again: no separator turns into another one. -/
theorem separated_eq (raw : Text) :
    separated raw = raw.map fun c => if isSpace c || c == '+' || c == ';' then ',' else c := by
  rw [separated, replaceClass, replaceClass, replaceClass, List.map_map, List.map_map]
  refine List.map_congr_left fun c _ => ?_
  by_cases hspace : isSpace c
  · simp [hspace]
  · by_cases hplus : c = '+'
    · simp [hplus]
    · simp [hspace, hplus]

/-- The loop ends within as many rounds as there are characters. -/
theorem collapses_replaceAllPairs {n : ℕ} {t : Text} (h : t.length ≤ n) :
    Collapses t (replaceAllPairs n t) := by
  induction n generalizing t with
  | zero => exact .done (replaceAllPairs_done h)
  | succ n ih =>
    rw [replaceAllPairs]
    by_cases hp : HasPair t
    · have hlt := replacePairs_lt hp
      rw [if_pos hp]
      exact .round hp (ih (by omega))
    · rw [if_neg hp]
      exact .done hp

/-- The loop has one outcome. -/
theorem Collapses.unique {t u v : Text} (hu : Collapses t u) (hv : Collapses t v) : u = v := by
  induction hu with
  | done hp =>
    cases hv with
    | done => rfl
    | round hpair => exact absurd hpair hp
  | round hp _ ih =>
    cases hv with
    | done hnot => exact absurd hp hnot
    | round _ hrest => exact ih hrest

/-- The only separators left are the commas of the join. -/
theorem comma_of_separator {raw : Text} {c : Char} (h : c ∈ join ',' (tokens raw))
    (hc : isSeparator c) : c = ',' := by
  by_contra hne
  have hfree : Free c (tokens raw) := fun t ht hmem => not_separator_of_mem_tokens ht hmem hc
  exact join_free hne hfree h

/-- The loop of `normalize_comma_list` ends, and the function returns the comma join of the
nonempty fields. -/
theorem normalize_comma_list_fields (raw : Text) :
    (∃ collapsed, Collapses (separated raw) collapsed ∧
      (∀ other, Collapses (separated raw) other → other = collapsed) ∧
      normalizeCommaList raw = dropLastComma (dropFirstComma collapsed)) ∧
    normalizeCommaList raw = join ',' (tokens raw) ∧
    (normalizeCommaList raw).head? ≠ some ',' ∧
    (normalizeCommaList raw).getLast? ≠ some ',' ∧
    ¬ HasPair (normalizeCommaList raw) ∧
    (∀ c ∈ normalizeCommaList raw, isSeparator c → c = ',') ∧
    (normalizeCommaList raw = [] ↔ tokens raw = []) ∧
    normalizeCommaList (normalizeCommaList raw) = normalizeCommaList raw := by
  have hjoin := normalizeCommaList_eq raw
  obtain ⟨hpair, hhead, hlast⟩ := normalizeCommaList_ends raw
  have htokens : tokens (join ',' (tokens raw)) = tokens raw :=
    tokens_join (tokens_plain raw).1 fun _ ht _ hc => not_separator_of_mem_tokens ht hc
  have hloop := collapses_replaceAllPairs (le_refl (separated raw).length)
  refine ⟨⟨_, hloop, fun other hother => hother.unique hloop, ?_⟩, hjoin, hhead, hlast, hpair,
    fun c hc => comma_of_separator (hjoin ▸ hc), normalizeCommaList_eq_nil_iff raw, ?_⟩
  · rw [normalizeCommaList, separated_eq]
  · rw [normalizeCommaList_eq, hjoin, htokens]

end CommaList
