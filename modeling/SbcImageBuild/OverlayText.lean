import SbcImageBuild.Foundation.ShellText
import Mathlib.Data.List.DropRight

/-!
# Texts of an overlay

The substitutions made while an overlay is applied: `%NAME%` in its paths and `@NAME@` in its
templates.
-/
namespace OverlayText

open ShellText

/-- The shell variables; one that is unset reads as empty. -/
abbrev Variables := Text → Text

def isNameStart (c : Char) : Bool := ('A' ≤ c && c ≤ 'Z') || c == '_'
def isNameChar (c : Char) : Bool := isNameStart c || isDigit c

/-- The replacement in a pattern substitution. An unquoted `&` in it stands for the text that
matched, and a backslash quotes `&` and itself. -/
def replacement (matched : Text) : Text → Text
  | '\\' :: '&' :: t => '&' :: replacement matched t
  | '\\' :: '\\' :: t => '\\' :: replacement matched t
  | '&' :: t => matched ++ replacement matched t
  | c :: t => c :: replacement matched t
  | [] => []

/-- The value has an `&` that brings in the text that matched. -/
def insertsMatch : Text → Bool
  | '\\' :: '&' :: t => insertsMatch t
  | '\\' :: '\\' :: t => insertsMatch t
  | '&' :: _ => true
  | _ :: t => insertsMatch t
  | [] => false

/-- A value without `&` and without two backslashes in a row. -/
def Verbatim (value : Text) : Prop := '&' ∉ value ∧ ¬ ['\\', '\\'] <:+: value

instance : DecidablePred Verbatim := fun value =>
  inferInstanceAs (Decidable ('&' ∉ value ∧ ¬ ['\\', '\\'] <:+: value))

/-- Copies the text, leaving out the first `skip` characters. -/
def replaceFrom (pattern rep : Text) : ℕ → Text → Text
  | _, [] => []
  | skip + 1, _ :: t => replaceFrom pattern rep skip t
  | 0, c :: t =>
    if pattern <+: c :: t then rep ++ replaceFrom pattern rep (pattern.length - 1) t
    else c :: replaceFrom pattern rep 0 t

/-- The expansion `${text//pattern/value}` for a literal pattern. -/
def replaceAll (pattern value text : Text) : Text :=
  replaceFrom pattern (replacement pattern value) 0 text

/-- A command substitution drops the newlines at the end of the output. -/
def commandOutput (t : Text) : Text := t.rdropWhile (· = '\n')

/-- It also drops the null characters, which no name has but a file may. -/
def fileText (content : Text) : Text := commandOutput (content.filter (· ≠ '\x00'))

/-- The name of a placeholder `%NAME%` at the front of the text. -/
def placeholderAt : Text → Option Text
  | '%' :: t =>
    let name := t.takeWhile isNameChar
    if name.head?.any isNameStart ∧ (t.drop name.length).head? = some '%' then some name else none
  | _ => none

def firstPlaceholder : Text → Option Text
  | [] => none
  | c :: t =>
    match placeholderAt (c :: t) with
    | some name => some name
    | none => firstPlaceholder t

/-- The loop of `interpolate_vars`; there is no result if it takes more than so many rounds. -/
def interpolateVars (vars : Variables) : ℕ → Text → Option Text
  | 0, _ => none
  | rounds + 1, text =>
    match firstPlaceholder text with
    | none => some text
    | some name =>
      if vars name = [] then some text
      else interpolateVars vars rounds (replaceAll ('%' :: name ++ ['%']) (vars name) text)

/-- The test `*%[A-Z_]*%*`. -/
def hasPlaceholder : Text → Bool
  | '%' :: c :: t => (isNameStart c && t.contains '%') || hasPlaceholder (c :: t)
  | _ :: t => hasPlaceholder t
  | [] => false

/-- What becomes of the path of an overlay file. -/
inductive PathResult where
  | path (rel : Text)
  | skipped
  | endless
  deriving DecidableEq

def interpolatedPath (vars : Variables) (rounds : ℕ) (rel : Text) : PathResult :=
  if hasPlaceholder rel then
    match interpolateVars vars rounds rel with
    | some out => if hasPlaceholder (commandOutput out) then .skipped else .path (commandOutput out)
    | none => .endless
  else .path rel

def tokenNames : List Text :=
  ["BOARD".toList, "BOARD_DESCRIPTION".toList, "ROOTFS_HOSTNAME".toList, "KERNEL_DTB".toList,
   "DEBIAN_PACKAGES".toList, "DEBIAN_OVERLAYS".toList, "CONSOLE_DEVICE".toList,
   "CONSOLE_SPEED".toList, "ROOTFS_USERNAME".toList]

def tokenValue (vars : Variables) (name : Text) : Text :=
  if name = "ROOTFS_HOSTNAME".toList then
    orDefault (vars name) (orDefault (vars "BOARD".toList) "sbc".toList)
  else if name = "DEBIAN_PACKAGES".toList ∨ name = "DEBIAN_OVERLAYS".toList then
    orDefault (vars name) "none".toList
  else vars name

/-- An associative array is traversed in an order of its own. -/
structure TokenOrder where
  names : List Text
  perm : names.Perm tokenNames

def expandOverlayTemplateText (vars : Variables) (order : TokenOrder) (content : Text) : Text :=
  order.names.foldl
    (fun text name => replaceAll ('@' :: name ++ ['@']) (tokenValue vars name) text) content

/-- Such a value is taken as it is. -/
theorem replacement_verbatim {matched value : Text} (h : Verbatim value) :
    replacement matched value = value := by
  fun_induction replacement matched value with
  | case1 t ih => exact absurd (by simp) h.1
  | case2 t ih => exact absurd (List.prefix_append ['\\', '\\'] t).isInfix h.2
  | case3 t ih => exact absurd List.mem_cons_self h.1
  | case4 c t _ _ _ ih =>
    rw [ih ⟨fun hmem => h.1 (List.mem_cons_of_mem c hmem),
      fun hpart => h.2 (hpart.trans (List.suffix_cons c t).isInfix)⟩]
  | case5 => rfl

theorem insertsMatch_of_notMem {value : Text} (h : '&' ∉ value) : insertsMatch value = false := by
  fun_induction insertsMatch value with
  | case1 t ih => simp at h
  | case2 t ih => exact ih fun hmem => h (by simp [hmem])
  | case3 t => simp at h
  | case4 c t _ _ _ ih => exact ih fun hmem => h (List.mem_cons_of_mem c hmem)
  | case5 => rfl

/-- Otherwise characters are only left out. -/
theorem replacement_sublist (matched : Text) {value : Text} (h : insertsMatch value = false) :
    List.Sublist (replacement matched value) value := by
  fun_induction replacement matched value with
  | case1 t ih => exact ((ih (by rwa [insertsMatch] at h)).cons_cons '&').cons '\\'
  | case2 t ih => exact ((ih (by rwa [insertsMatch] at h)).cons_cons '\\').cons '\\'
  | case3 t ih => simp [insertsMatch] at h
  | case4 c t hamp hslash hmatch ih =>
    rw [insertsMatch] at h
    · exact (ih h).cons_cons c
    · exact hamp
    · exact hslash
    · exact hmatch
  | case5 => exact .slnil

theorem mem_replacement {matched value : Text} {c : Char} (h : c ∈ replacement matched value) :
    c ∈ matched ∨ c ∈ value := by
  fun_induction replacement matched value with
  | case1 t ih => grind
  | case2 t ih => grind
  | case3 t ih => grind
  | case4 d t _ _ _ ih => grind
  | case5 => cases h

section Replacing

variable {pattern rep : Text}

theorem replaceFrom_skip (pattern rep s t : Text) :
    replaceFrom pattern rep s.length (s ++ t) = replaceFrom pattern rep 0 t := by
  induction s with
  | nil => rfl
  | cons c s ih => rw [List.length_cons, List.cons_append, replaceFrom, ih]

theorem replaceFrom_match (hne : pattern ≠ []) (rep t : Text) :
    replaceFrom pattern rep 0 (pattern ++ t) = rep ++ replaceFrom pattern rep 0 t := by
  obtain ⟨c, s, rfl⟩ := List.exists_cons_of_ne_nil hne
  have hmatch : c :: s <+: c :: (s ++ t) := ⟨t, rfl⟩
  rw [List.cons_append, replaceFrom, if_pos hmatch, List.length_cons, Nat.add_sub_cancel,
    replaceFrom_skip]

/-- A stretch in which no occurrence begins is copied. -/
theorem replaceFrom_copy {s t : Text}
    (h : ∀ x y, s = x ++ y → y ≠ [] → ¬ pattern <+: y ++ t) :
    replaceFrom pattern rep 0 (s ++ t) = s ++ replaceFrom pattern rep 0 t := by
  induction s with
  | nil => rfl
  | cons c s ih =>
    have hhere : ¬ pattern <+: c :: (s ++ t) := h [] (c :: s) rfl (List.cons_ne_nil c s)
    rw [List.cons_append, replaceFrom, if_neg hhere, ih]
    · rfl
    · intro x y hs
      exact h (c :: x) y (by rw [hs, List.cons_append])

variable {β : Type} {old new : β → Text} {bs : List β}

/-- A text in blocks: those that are the pattern are replaced, if no occurrence begins in another
block. -/
theorem replaceFrom_blocks (hne : pattern ≠ []) (h : ∀ before b after, bs = before ++ b :: after →
      (old b = pattern ∧ new b = rep) ∨ (new b = old b ∧
        ∀ x y, old b = x ++ y → y ≠ [] → ¬ pattern <+: y ++ after.flatMap old)) :
    replaceFrom pattern rep 0 (bs.flatMap old) = bs.flatMap new := by
  induction bs with
  | nil => rfl
  | cons b bs ih =>
    have hrest := ih fun before b' after hbs =>
      h (b :: before) b' after (by rw [hbs, List.cons_append])
    rw [List.flatMap_cons, List.flatMap_cons, ← hrest]
    rcases h [] b bs rfl with ⟨hold, hnew⟩ | ⟨hnew, hcopy⟩
    · rw [hold, hnew, replaceFrom_match hne]
    · rw [hnew, replaceFrom_copy hcopy]

end Replacing

theorem interpolatedPath_plain {vars : Variables} {rounds : ℕ} {rel : Text}
    (h : hasPlaceholder rel = false) : interpolatedPath vars rounds rel = .path rel := by
  simp [interpolatedPath, h]

end OverlayText
