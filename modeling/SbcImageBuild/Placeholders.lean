import SbcImageBuild.OverlayText
import Mathlib.Data.List.Infix

/-!
# Placeholders of a text

A text as characters and placeholders `%NAME%`. The two come apart only if no percent sign is left
over that a name and another percent sign could follow once placeholders are filled in; a reader of
the text tells how near it is to that.
-/
namespace Placeholders

open ShellText OverlayText

def percent (name : Text) : Text := '%' :: name ++ ['%']

/-- The pattern `[A-Z_][A-Z0-9_]*`. -/
def IsName (name : Text) : Prop := name.head?.any isNameStart ∧ ∀ c ∈ name, isNameChar c

instance : DecidablePred IsName := fun name =>
  inferInstanceAs (Decidable (name.head?.any isNameStart = true ∧ ∀ c ∈ name, isNameChar c = true))

/-- The text has the placeholder of a name. -/
def Mentions (text name : Text) : Prop := IsName name ∧ percent name <:+: text

inductive Piece where
  | char (c : Char)
  | slot (name : Text)
  deriving DecidableEq

/-- The scan from left to right, leaving out the first `skip` characters. -/
def scanFrom : ℕ → Text → List Piece
  | _, [] => []
  | skip + 1, _ :: t => scanFrom skip t
  | 0, c :: t =>
    match placeholderAt (c :: t) with
    | some name => .slot name :: scanFrom (name.length + 1) t
    | none => .char c :: scanFrom 0 t

def scan (text : Text) : List Piece := scanFrom 0 text

def Piece.spell : Piece → Text
  | .char c => [c]
  | .slot name => percent name

def spell (ps : List Piece) : Text := ps.flatMap Piece.spell

/-- How much of a placeholder stands in front: nothing, a percent sign, or also a part of a name. -/
inductive Near where
  | clear
  | after
  | inside
  deriving DecidableEq

def Near.rank : Near → ℕ
  | .clear => 0
  | .after => 1
  | .inside => 2

/-- There is no next one behind the percent sign that ends a placeholder. -/
def Near.next : Near → Char → Option Near
  | .clear, c => some (if c = '%' then .after else .clear)
  | .after, c => some (if c = '%' then .after else if isNameStart c then .inside else .clear)
  | .inside, c => if c = '%' then none else some (if isNameChar c then .inside else .clear)

/-- Reads a text in pieces. It stops where percent signs of different pieces could make up a
placeholder; only the placeholders of `behind` may stand directly behind a percent sign. -/
def read (behind : List Text) : Near → List Piece → Option Near
  | q, [] => some q
  | q, .char c :: ps =>
    match q.next c with
    | some q => read behind q ps
    | none => none
  | .clear, .slot _ :: ps => read behind .after ps
  | .after, .slot name :: ps => if name ∈ behind then read behind .after ps else none
  | .inside, .slot _ :: _ => none

section Finding

variable {t name : Text}

theorem percent_ne_nil (name : Text) : percent name ≠ [] := List.cons_ne_nil _ _

theorem takeWhile_name (h : IsName name) (rest : Text) :
    (name ++ '%' :: rest).takeWhile isNameChar = name := by
  rw [List.takeWhile_append_of_pos h.2, List.takeWhile_cons_of_neg (by decide), List.append_nil]

theorem percent_append (name rest : Text) :
    percent name ++ rest = '%' :: (name ++ '%' :: rest) := by
  simp [percent]

theorem percent_length (name : Text) : (percent name).length = name.length + 2 := by
  simp [percent]

theorem placeholderAt_iff : placeholderAt t = some name ↔ IsName name ∧ percent name <+: t := by
  constructor
  · intro h
    rcases t with _ | ⟨c, u⟩
    · cases h
    by_cases hc : c = '%'
    · subst hc
      obtain ⟨⟨hstart, hend⟩, heq⟩ := Option.ite_none_right_eq_some.mp h
      obtain rfl := Option.some.inj heq
      have hsplit : u.takeWhile isNameChar ++ u.dropWhile isNameChar = u :=
        List.takeWhile_append_dropWhile
      have hdrop : (u.takeWhile isNameChar ++ u.dropWhile isNameChar).drop
          (u.takeWhile isNameChar).length = u.dropWhile isNameChar := List.drop_left
      rw [hsplit] at hdrop
      rw [hdrop] at hend
      obtain ⟨rest, hrest⟩ := List.head?_eq_some_iff.mp hend
      refine ⟨⟨hstart, fun c hc => List.mem_takeWhile_imp hc⟩, rest, ?_⟩
      rw [percent_append, ← hrest, hsplit]
    · rw [placeholderAt] at h
      · cases h
      · intro u' heq
        exact hc (List.cons.inj heq).1
  · rintro ⟨hname, rest, rfl⟩
    have htake := takeWhile_name hname rest
    rw [percent_append, placeholderAt, htake, List.drop_left, if_pos ⟨hname.1, rfl⟩]

theorem firstPlaceholder_some (h : firstPlaceholder t = some name) : Mentions t name := by
  induction t with
  | nil => cases h
  | cons c t ih =>
    rw [firstPlaceholder] at h
    cases hat : placeholderAt (c :: t) with
    | some found =>
      rw [hat] at h
      obtain rfl := Option.some.inj h
      obtain ⟨hname, hpre⟩ := placeholderAt_iff.mp hat
      exact ⟨hname, hpre.isInfix⟩
    | none =>
      rw [hat] at h
      obtain ⟨hname, hpart⟩ := ih h
      exact ⟨hname, hpart.trans (List.suffix_cons c t).isInfix⟩

end Finding

section Scanning

variable {text name : Text} {p : Piece} {ps qs : List Piece}

@[simp] theorem spell_nil : spell [] = [] := rfl

@[simp] theorem spell_cons (p : Piece) (ps : List Piece) : spell (p :: ps) = p.spell ++ spell ps :=
  rfl

theorem spell_append (ps qs : List Piece) : spell (ps ++ qs) = spell ps ++ spell qs :=
  List.flatMap_append

/-- The pieces are the text again. -/
theorem spell_scanFrom (skip : ℕ) (t : Text) : spell (scanFrom skip t) = t.drop skip := by
  fun_induction scanFrom skip t with
  | case1 skip => simp
  | case2 skip c t ih => rw [ih, List.drop_succ_cons]
  | case3 c t name hname ih =>
    obtain ⟨-, rest, hrest⟩ := placeholderAt_iff.mp hname
    have ht : t.drop (name.length + 1) = rest := by
      have hdrop := congrArg (List.drop (name.length + 2)) hrest
      rw [← percent_length, List.drop_left, percent_length] at hdrop
      exact hdrop.symm
    rw [spell_cons, ih, ht]
    exact hrest
  | case4 c t hnone ih =>
    rw [spell_cons, ih]
    rfl

theorem spell_scan (text : Text) : spell (scan text) = text := by
  rw [scan, spell_scanFrom, List.drop_zero]

theorem isName_of_slot {skip : ℕ} {t : Text} (h : .slot name ∈ scanFrom skip t) : IsName name := by
  fun_induction scanFrom skip t with
  | case1 => simp at h
  | case2 skip c t ih => exact ih h
  | case3 c t found hfound ih =>
    rcases List.mem_cons.mp h with heq | hmem
    · cases heq
      exact (placeholderAt_iff.mp hfound).1
    · exact ih hmem
  | case4 c t hnone ih =>
    apply ih
    simpa using h

/-- The placeholders have names. -/
def Named (ps : List Piece) : Prop := ∀ name, .slot name ∈ ps → IsName name

theorem named_scan (text : Text) : Named (scan text) := fun _ h => isName_of_slot h

theorem Named.tail (h : Named (p :: ps)) : Named ps := fun name hname =>
  h name (List.mem_cons_of_mem p hname)

end Scanning

section Reading

variable {behind : List Text} {q q' r : Near} {c : Char} {name : Text} {ps qs : List Piece}

theorem read_append : read behind q (ps ++ qs) =
    (read behind q ps).bind fun q => read behind q qs := by
  fun_induction read behind q ps with
  | case1 => rfl
  | case2 q c ps s hs ih => rw [List.cons_append, read, hs]; exact ih
  | case3 q c ps hs => rw [List.cons_append, read, hs]; rfl
  | case4 name ps ih => rw [List.cons_append, read]; exact ih
  | case5 name ps h ih => rw [List.cons_append, read, if_pos h]; exact ih
  | case6 name ps h => rw [List.cons_append, read, if_neg h]; rfl
  | case7 name ps => rfl

/-- The less stands in front, the less can go wrong. -/
theorem next_mono (h : q.rank ≤ q'.rank) (hnext : q'.next c = some r) :
    ∃ s, q.next c = some s ∧ s.rank ≤ r.rank := by
  have hname : isNameStart c → isNameChar c := fun hstart => by simp [isNameChar, hstart]
  by_cases hc : c = '%'
  · cases q' <;> cases q <;> simp_all [Near.next, Near.rank]
  · by_cases hstart : isNameStart c
    · have hchar := hname hstart
      cases q' <;> cases q <;> simp_all [Near.next, Near.rank]
    · by_cases hchar : isNameChar c <;> cases q' <;> cases q <;>
        simp_all [Near.next, Near.rank]

theorem read_mono (h : q.rank ≤ q'.rank) (hread : read behind q' ps = some r) :
    ∃ s, read behind q ps = some s ∧ s.rank ≤ r.rank := by
  induction ps generalizing q q' with
  | nil =>
    obtain rfl := Option.some.inj hread
    exact ⟨q, rfl, h⟩
  | cons p ps ih =>
    cases p with
    | char c =>
      rw [read] at hread
      cases hnext : q'.next c with
      | none => simp [hnext] at hread
      | some s' =>
        rw [hnext] at hread
        obtain ⟨s, hs, hle⟩ := next_mono h hnext
        rw [read, hs]
        exact ih hle hread
    | slot name =>
      cases q' <;> cases q <;> simp_all [read, Near.rank]

theorem read_clear (h : read behind q ps = some r) : ∃ s, read behind .clear ps = some s := by
  obtain ⟨s, hs, -⟩ := read_mono (q := .clear) (Nat.zero_le _) h
  exact ⟨s, hs⟩

/-- A name that has begun does not end. -/
theorem read_inside (h : read behind .inside ps = some r) (hname : ∀ c ∈ name, isNameChar c) :
    ¬ name ++ ['%'] <+: spell ps := by
  intro hpre
  induction name generalizing ps with
  | nil =>
    rcases ps with _ | ⟨c | slot, ps⟩
    · simp at hpre
    · obtain rfl : '%' = c := (List.cons_prefix_cons.mp hpre).1
      simp [read, Near.next] at h
    · simp [read] at h
  | cons d name ih =>
    rcases ps with _ | ⟨c | slot, ps⟩
    · simp at hpre
    · obtain ⟨rfl, hrest⟩ := List.cons_prefix_cons.mp hpre
      have hd : isNameChar d := hname d List.mem_cons_self
      have hne : d ≠ '%' := by rintro rfl; exact absurd hd (by decide)
      refine ih ?_ (fun c hc => hname c (List.mem_cons_of_mem d hc)) hrest
      simpa [read, Near.next, hne, hd] using h
    · simp [read] at h

theorem read_after (h : read behind .after ps = some r) (hname : IsName name) :
    ¬ name ++ ['%'] <+: spell ps := by
  intro hpre
  rcases name with _ | ⟨d, name⟩
  · exact absurd hname.1 (by simp)
  have hstart : isNameStart d := by simpa using hname.1
  have hne : d ≠ '%' := by rintro rfl; exact absurd hstart (by decide)
  rcases ps with _ | ⟨c | slot, ps⟩
  · simp at hpre
  · obtain ⟨rfl, hrest⟩ := List.cons_prefix_cons.mp hpre
    have hread : read behind .inside ps = some r := by simpa [read, Near.next, hne, hstart] using h
    exact read_inside hread (fun c hc => hname.2 c (List.mem_cons_of_mem d hc)) hrest
  · obtain ⟨rfl, -⟩ := List.cons_prefix_cons.mp hpre
    exact hne rfl

theorem percent_prefix_percent {other : Text} {rest : Text} (hname : IsName name)
    (hother : IsName other) (h : percent name <+: percent other ++ rest) : name = other := by
  obtain ⟨tail, htail⟩ := h
  rw [percent_append, percent_append] at htail
  have htake := congrArg (List.takeWhile isNameChar) (List.cons.inj htail).2
  rwa [takeWhile_name hname, takeWhile_name hother] at htake

/-- A placeholder at the front is a piece. -/
theorem slot_of_prefix (h : read behind q ps = some r) (hnamed : Named ps) (hname : IsName name)
    (hpre : percent name <+: spell ps) : ∃ qs, ps = .slot name :: qs := by
  rcases ps with _ | ⟨c | other, ps⟩
  · simp [percent] at hpre
  · obtain ⟨rfl, hrest⟩ := List.cons_prefix_cons.mp hpre
    obtain ⟨s, hs⟩ := read_clear h
    exact absurd hrest (read_after (by simpa [read, Near.next] using hs) hname)
  · obtain rfl := percent_prefix_percent hname (hnamed other List.mem_cons_self) hpre
    exact ⟨ps, rfl⟩

/-- A placeholder begins nowhere in another piece. -/
theorem begins_in_slot {p : Piece} (h : read behind q (p :: ps) = some r) (hnamed : Named (p :: ps))
    (hname : IsName name) {x y : Text} (hp : p.spell = x ++ y) (hy : y ≠ [])
    (hpre : percent name <+: y ++ spell ps) : p = .slot name := by
  rcases List.eq_nil_or_concat x with rfl | ⟨x, d, rfl⟩
  · rw [List.nil_append] at hp
    rw [← hp, ← spell_cons] at hpre
    obtain ⟨qs, hqs⟩ := slot_of_prefix h hnamed hname hpre
    exact (List.cons.inj hqs).1
  cases p with
  | char c =>
    have hlen := congrArg List.length hp
    have hpos := List.length_pos_iff.mpr hy
    simp [Piece.spell] at hlen
    omega
  | slot other =>
    -- Behind the first percent sign only the last one can begin a placeholder.
    have hother := hnamed other List.mem_cons_self
    have hafter : ∃ s, read behind .after ps = some s := by
      cases q with
      | clear => exact ⟨r, h⟩
      | after =>
        rw [read] at h
        exact ⟨r, (Option.ite_none_right_eq_some.mp h).2⟩
      | inside => cases h
    obtain ⟨s, hs⟩ := hafter
    obtain ⟨e, z, rfl⟩ := List.exists_cons_of_ne_nil hy
    obtain ⟨rfl, hrest⟩ := List.cons_prefix_cons.mp hpre
    have hsuffix : '%' :: z <:+ other ++ ['%'] := by
      cases x with
      | nil =>
        have htail := (List.cons.inj hp).2
        exact ⟨[], by simpa using htail.symm⟩
      | cons a x =>
        have htail := (List.cons.inj hp).2
        exact ⟨x ++ [d], by simpa using htail.symm⟩
    have hz : z = [] := by
      obtain ⟨w, hw⟩ := hsuffix
      rcases List.eq_nil_or_concat z with rfl | ⟨z, b, rfl⟩
      · rfl
      · have hbody : w ++ '%' :: z = other := by
          have hsplit : (w ++ '%' :: z) ++ [b] = other ++ ['%'] := by simpa using hw
          exact (List.append_inj' hsplit rfl).1
        exact absurd (hother.2 '%' (by simp [← hbody])) (by decide)
    subst hz
    exact absurd hrest (read_after hs hname)

def firstSlot : List Piece → Option Text
  | [] => none
  | .char _ :: ps => firstSlot ps
  | .slot name :: _ => some name

theorem firstSlot_mem (h : firstSlot ps = some name) : .slot name ∈ ps := by
  fun_induction firstSlot ps with
  | case1 => cases h
  | case2 c ps ih => exact List.mem_cons_of_mem _ (ih h)
  | case3 found ps =>
    obtain rfl := Option.some.inj h
    exact List.mem_cons_self

/-- The first placeholder of the text is the first one of its pieces. -/
theorem firstPlaceholder_spell (h : read behind q ps = some r) (hnamed : Named ps) :
    firstPlaceholder (spell ps) = firstSlot ps := by
  induction ps generalizing q with
  | nil => rfl
  | cons p ps ih =>
    cases p with
    | char c =>
      have hat : placeholderAt (c :: spell ps) = none := by
        cases hat : placeholderAt (c :: spell ps) with
        | none => rfl
        | some name =>
          obtain ⟨hname, hpre⟩ := placeholderAt_iff.mp hat
          obtain ⟨qs, hqs⟩ := slot_of_prefix h hnamed hname hpre
          cases hqs
      have hrest : ∃ s, read behind s ps = some r := by
        rw [read] at h
        cases hs : q.next c with
        | none => simp [hs] at h
        | some s => exact ⟨s, by simpa [hs] using h⟩
      obtain ⟨s, hs⟩ := hrest
      change firstPlaceholder (c :: spell ps) = firstSlot ps
      rw [firstPlaceholder, hat]
      exact ih hs hnamed.tail
    | slot name =>
      have hat : placeholderAt (percent name ++ spell ps) = some name :=
        placeholderAt_iff.mpr ⟨hnamed name List.mem_cons_self, List.prefix_append _ _⟩
      rw [percent_append] at hat
      change firstPlaceholder (percent name ++ spell ps) = some name
      rw [percent_append, firstPlaceholder, hat]

end Reading

section Filling

variable {behind : List Text} {q q' r : Near} {name : Text} {body : List Piece}
  {ps : List Piece}

/-- Puts pieces in place of a placeholder, wherever it stands. -/
def fillIn (name : Text) (body : List Piece) (ps : List Piece) : List Piece :=
  ps.flatMap fun p => if p = .slot name then body else [p]

@[simp] theorem fillIn_nil (name : Text) (body : List Piece) : fillIn name body [] = [] := rfl

@[simp] theorem fillIn_cons (name : Text) (body : List Piece) (p : Piece) (ps : List Piece) :
    fillIn name body (p :: ps) = (if p = .slot name then body else [p]) ++ fillIn name body ps :=
  rfl

/-- Replacing the placeholder in the text does the same. -/
theorem replaceFrom_spell (h : read behind q ps = some r) (hnamed : Named ps) (hname : IsName name)
    (body : List Piece) : replaceFrom (percent name) (spell body) 0 (spell ps) =
      spell (fillIn name body ps) := by
  have hfilled : spell (fillIn name body ps) = ps.flatMap fun p =>
      spell (if p = .slot name then body else [p]) := by
    rw [spell, fillIn, List.flatMap_assoc]
    rfl
  rw [hfilled]
  apply replaceFrom_blocks (percent_ne_nil name)
  rintro before p after rfl
  by_cases hp : p = .slot name
  · left
    subst hp
    exact ⟨rfl, by rw [if_pos rfl]⟩
  · right
    refine ⟨by simp [if_neg hp, spell], fun x y hxy hy hpre => hp ?_⟩
    rw [read_append] at h
    obtain ⟨s, -, hs⟩ := Option.bind_eq_some_iff.mp h
    exact begins_in_slot hs (fun other hother => hnamed other (List.mem_append_right before hother))
      hname hxy hy hpre

/-- What is filled in begins and ends so that the percent signs around it stay apart from it. -/
def Fits (behind : List Text) (name : Text) (body : List Piece) : Prop :=
  ∃ q, read behind (if name ∈ behind then .after else .clear) body = some q ∧ q ≠ .inside

theorem read_fillIn (hfits : Fits behind name body) (hle : q.rank ≤ q'.rank)
    (h : read behind q' ps = some r) :
    ∃ s, read behind q (fillIn name body ps) = some s ∧ s.rank ≤ r.rank := by
  induction ps generalizing q q' with
  | nil =>
    obtain rfl := Option.some.inj h
    exact ⟨q, rfl, hle⟩
  | cons p ps ih =>
    rw [fillIn_cons]
    by_cases hp : p = .slot name
    · subst hp
      obtain ⟨e, he, hinside⟩ := hfits
      have hrest : read behind .after ps = some r ∧
          q.rank ≤ (if name ∈ behind then Near.after else .clear).rank := by
        cases q' with
        | clear => exact ⟨h, hle.trans (Nat.zero_le _)⟩
        | after =>
          rw [read] at h
          obtain ⟨hmem, h⟩ := Option.ite_none_right_eq_some.mp h
          rw [if_pos hmem]
          exact ⟨h, hle⟩
        | inside => cases h
      obtain ⟨s, hs, hse⟩ := read_mono hrest.2 he
      have hafter : s.rank ≤ Near.after.rank := by
        cases e with
        | clear => exact hse.trans (Nat.zero_le _)
        | after => exact hse
        | inside => exact absurd rfl hinside
      obtain ⟨u, hu, hur⟩ := ih hafter hrest.1
      exact ⟨u, by rw [if_pos rfl, read_append, hs]; exact hu, hur⟩
    · rw [if_neg hp, List.singleton_append]
      cases p with
      | char c =>
        rw [read] at h
        cases hnext : q'.next c with
        | none => simp [hnext] at h
        | some s' =>
          rw [hnext] at h
          obtain ⟨s, hs, hss⟩ := next_mono hle hnext
          rw [read, hs]
          exact ih hss h
      | slot other =>
        have hafter : read behind .after ps = some r ∧ ∀ ps', read behind q (.slot other :: ps') =
            read behind .after ps' := by
          cases q' <;> cases q <;> simp_all [read, Near.rank]
        obtain ⟨u, hu, hur⟩ := ih le_rfl hafter.1
        exact ⟨u, by rw [hafter.2, hu], hur⟩

theorem named_fillIn (hnamed : Named ps) (hbody : Named body) : Named (fillIn name body ps) := by
  intro other hother
  obtain ⟨p, hp, hmem⟩ := List.mem_flatMap.mp hother
  split at hmem
  · exact hbody other hmem
  · obtain rfl := List.mem_singleton.mp hmem
    exact hnamed other hp

end Filling

end Placeholders
