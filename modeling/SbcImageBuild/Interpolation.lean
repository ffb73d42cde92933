import SbcImageBuild.Placeholders

/-!
# Interpolation of variables

The loop of `interpolate_vars`: each round replaces one placeholder throughout the text, and what
the values bring in is searched again. Its purpose is to expand the placeholders of the text, from
the left and each in depth, up to the first one without a value.
-/
namespace Interpolation

open ShellText OverlayText Placeholders

/-- What a placeholder is replaced by. From bash 5.2 on, `&` has a meaning in it. -/
def filled (patsub : Bool) (vars : Variables) (name : Text) : Text :=
  if patsub then replacement (percent name) (vars name) else vars name

def interpolate (patsub : Bool) (vars : Variables) : ℕ → Text → Option Text
  | 0, _ => none
  | rounds + 1, text =>
    match firstPlaceholder text with
    | none => some text
    | some name =>
      if vars name = [] then some text
      else interpolate patsub vars rounds
        (replaceFrom (percent name) (filled patsub vars name) 0 text)

section Purpose

variable (patsub : Bool) (vars : Variables)

def body (name : Text) : List Piece := scan (filled patsub vars name)

/-- The names in the text, in the values of their variables, in the values of those, and so on. -/
inductive Occurs (text : Text) : Text → Prop where
  | text {name : Text} : .slot name ∈ scan text → Occurs text name
  | value {other name : Text} : Occurs text other → vars other ≠ [] →
      .slot name ∈ body patsub vars other → Occurs text name

/-- The expansion of the placeholders from the left comes to an end: behind the text, or, where the
flag is set, at a placeholder without a value. The number tells how many were expanded. -/
inductive Expands : List Piece → Bool → ℕ → Prop where
  | nil : Expands [] false 0
  | char {c : Char} {ps : List Piece} {stops : Bool} {k : ℕ} :
      Expands ps stops k → Expands (.char c :: ps) stops k
  | stop {name : Text} {ps : List Piece} : vars name = [] → Expands (.slot name :: ps) true 0
  | inside {name : Text} {ps : List Piece} {k : ℕ} : vars name ≠ [] →
      Expands (body patsub vars name) true k → Expands (.slot name :: ps) true (k + 1)
  | through {name : Text} {ps : List Piece} {stops : Bool} {k l : ℕ} : vars name ≠ [] →
      Expands (body patsub vars name) false k → Expands ps stops l →
      Expands (.slot name :: ps) stops (k + l + 1)

end Purpose

section Expanding

variable {patsub : Bool} {vars : Variables} {ps qs : List Piece} {stops : Bool} {k l : ℕ}
  {name : Text}

theorem Expands.append_stop (h : Expands patsub vars ps stops k) (hstops : stops = true) :
    Expands patsub vars (ps ++ qs) true k := by
  induction h with
  | nil => cases hstops
  | char _ ih => exact .char (ih hstops)
  | stop hvalue => exact .stop hvalue
  | inside hvalue hbody _ => exact .inside hvalue hbody
  | through hvalue hbody _ _ ih => exact .through hvalue hbody (ih hstops)

theorem Expands.append {ends : Bool} (h : Expands patsub vars ps ends k) (hends : ends = false)
    (hqs : Expands patsub vars qs stops l) : Expands patsub vars (ps ++ qs) stops (k + l) := by
  induction h with
  | nil => rwa [List.nil_append, Nat.zero_add]
  | char _ ih => exact .char (ih hends)
  | stop hvalue => cases hends
  | inside hvalue hbody _ => cases hends
  | through hvalue hbody _ _ ih =>
    have hall := Expands.through hvalue hbody (ih hends)
    rw [List.cons_append]
    convert hall using 1
    omega

theorem Expands.chars (t : Text) (h : Expands patsub vars ps stops k) :
    Expands patsub vars (t.map .char ++ ps) stops k := by
  induction t with
  | nil => exact h
  | cons c t ih => exact .char ih

/-- Filling in one placeholder throughout leaves less to expand. -/
theorem Expands.fillIn (h : Expands patsub vars ps stops k) (hvalue : vars name ≠ []) :
    ∃ l, Expands patsub vars (fillIn name (body patsub vars name) ps) stops l ∧ l ≤ k ∧
      (firstSlot ps = some name → l < k) := by
  induction h with
  | nil => exact ⟨0, .nil, le_rfl, fun h => by cases h⟩
  | char _ ih =>
    obtain ⟨l, hl, hle, hlt⟩ := ih
    exact ⟨l, .char hl, hle, hlt⟩
  | @stop other ps hnone =>
    have hne : Piece.slot other ≠ .slot name := by
      rintro ⟨⟩
      exact hvalue hnone
    refine ⟨0, ?_, le_rfl, fun h => absurd (congrArg Piece.slot (Option.some.inj h)) hne⟩
    rw [fillIn_cons, if_neg hne]
    exact .stop hnone
  | @inside other ps k hother hbody _ =>
    rw [fillIn_cons]
    by_cases hp : Piece.slot other = .slot name
    · obtain rfl := Piece.slot.inj hp
      exact ⟨k, by rw [if_pos rfl]; exact hbody.append_stop rfl, by omega, fun _ => by omega⟩
    · refine ⟨k + 1, ?_, le_rfl, fun h => absurd (congrArg Piece.slot (Option.some.inj h)) hp⟩
      rw [if_neg hp]
      exact .inside hother hbody
  | @through other ps stops k l hother hbody _ _ ih =>
    obtain ⟨m, hm, hle, -⟩ := ih
    rw [fillIn_cons]
    by_cases hp : Piece.slot other = .slot name
    · obtain rfl := Piece.slot.inj hp
      exact ⟨k + m, by rw [if_pos rfl]; exact hbody.append rfl hm, by omega, fun _ => by omega⟩
    · refine ⟨k + m + 1, ?_, by omega,
        fun h => absurd (congrArg Piece.slot (Option.some.inj h)) hp⟩
      rw [if_neg hp]
      exact .through hother hbody hm

end Expanding

section Rounds

variable {patsub : Bool} {vars : Variables} {behind : List Text} {text : Text} {ps : List Piece}
  {name : Text} {stops : Bool} {rounds k : ℕ}

/-- The pieces come apart in the text they spell, and their placeholders occur. -/
structure Apart (patsub : Bool) (vars : Variables) (behind : List Text) (text : Text)
    (ps : List Piece) : Prop where
  readable : ∃ q, read behind .clear ps = some q
  named : Named ps
  occurs : ∀ name, .slot name ∈ ps → Occurs patsub vars text name

/-- The values fit between the percent signs around them. -/
def AllFit (patsub : Bool) (vars : Variables) (behind : List Text) (text : Text) : Prop :=
  ∀ name, Occurs patsub vars text name → vars name ≠ [] →
    Fits behind name (body patsub vars name)

theorem Apart.first (h : Apart patsub vars behind text ps) :
    firstPlaceholder (spell ps) = firstSlot ps := by
  obtain ⟨q, hq⟩ := h.readable
  exact firstPlaceholder_spell hq h.named

/-- One round, on the pieces. -/
theorem Apart.round (hfit : AllFit patsub vars behind text) (h : Apart patsub vars behind text ps)
    (hname : .slot name ∈ ps) (hvalue : vars name ≠ []) :
    Apart patsub vars behind text (fillIn name (body patsub vars name) ps) ∧
      replaceFrom (percent name) (filled patsub vars name) 0 (spell ps) =
        spell (fillIn name (body patsub vars name) ps) := by
  obtain ⟨q, hq⟩ := h.readable
  have hoccurs := h.occurs name hname
  constructor
  · obtain ⟨s, hs, -⟩ := read_fillIn (hfit name hoccurs hvalue) le_rfl hq
    refine ⟨⟨s, hs⟩, named_fillIn h.named (named_scan _), fun other hother => ?_⟩
    obtain ⟨p, hp, hmem⟩ := List.mem_flatMap.mp hother
    split at hmem
    · exact .value hoccurs hvalue hmem
    · obtain rfl := List.mem_singleton.mp hmem
      exact h.occurs other hp
  · have hrep : filled patsub vars name = spell (body patsub vars name) := (spell_scan _).symm
    rw [hrep]
    exact replaceFrom_spell hq h.named (h.named name hname) _

theorem Apart.interpolate (hfit : AllFit patsub vars behind text)
    (h : Apart patsub vars behind text ps) (rounds : ℕ) :
    interpolate patsub vars (rounds + 1) (spell ps) =
      match firstSlot ps with
      | none => some (spell ps)
      | some name =>
        if vars name = [] then some (spell ps)
        else Interpolation.interpolate patsub vars rounds
          (spell (fillIn name (body patsub vars name) ps)) := by
  rw [Interpolation.interpolate, h.first]
  cases hname : firstSlot ps with
  | none => rfl
  | some name =>
    dsimp only
    by_cases hvalue : vars name = []
    · rw [if_pos hvalue, if_pos hvalue]
    · rw [if_neg hvalue, if_neg hvalue, (h.round hfit (firstSlot_mem hname) hvalue).2]

end Rounds

end Interpolation
