import SbcImageBuild.Interpolation
import SbcImageBuild.OverlayTree

/-!
# Paths of overlay files

What `apply_rootfs_overlay_tree` makes of the path of a file: a loop between two tests with a
pattern that is looser than that of the loop. Its purpose is to fill in every placeholder of the
path, and to leave the file out if one of them has no value.
-/
namespace OverlayPath

open ShellText OverlayText FileTree FileCommands OverlayTree Placeholders Interpolation

def render (values : Text → Text) (pieces : List Piece) : Text :=
  pieces.flatMap fun
    | .char c => [c]
    | .slot name => values name

/-- The path with every placeholder replaced by its value. -/
def expandedPath (vars : Variables) (rel : Text) : Text := render vars (scan rel)

/-- Some placeholder of the path has no value. -/
def Unset (vars : Variables) (rel : Text) : Prop := ∃ name, .slot name ∈ scan rel ∧ vars name = []

/-- No value has a character that means something to the loop. -/
def Plain (vars : Variables) : Prop := ∀ name, '%' ∉ vars name ∧ '&' ∉ vars name

/-- The values of the path mean nothing to the shell, and the looser pattern does not match once the
placeholders are filled in, or there is something to leave the file out for; and the path keeps its
end in a command substitution. -/
def Regular (vars : Variables) (rel : Text) : Prop :=
  hasPlaceholder rel = false ∨ Unset vars rel ∨
    (∀ name, .slot name ∈ scan rel → Verbatim (vars name)) ∧
      hasPlaceholder (expandedPath vars rel) = false ∧
      (expandedPath vars rel).getLast? ≠ some '\n'

section Rendering

variable {vars : Variables} {values values' : Text → Text} {name : Text} {ps qs : List Piece}

@[simp] theorem render_nil (values : Text → Text) : render values [] = [] := rfl

@[simp] theorem render_char (values : Text → Text) (c : Char) (ps : List Piece) :
    render values (.char c :: ps) = c :: render values ps := rfl

@[simp] theorem render_slot (values : Text → Text) (name : Text) (ps : List Piece) :
    render values (.slot name :: ps) = values name ++ render values ps := rfl

theorem render_congr (h : ∀ name, .slot name ∈ ps → values name = values' name) :
    render values ps = render values' ps := by
  induction ps with
  | nil => rfl
  | cons p ps ih =>
    have hrest := ih fun name hname => h name (List.mem_cons_of_mem p hname)
    cases p with
    | char c => rw [render_char, render_char, hrest]
    | slot name => rw [render_slot, render_slot, hrest, h name List.mem_cons_self]

/-- What is filled in for a name. -/
def shown (vars : Variables) (name : Text) : Text := replacement (percent name) (vars name)

theorem percent_notMem_shown (hplain : Plain vars) (name : Text) : '%' ∉ shown vars name :=
  fun hmem => (hplain name).1
    ((replacement_sublist _ (insertsMatch_of_notMem (hplain name).2)).subset hmem)

end Rendering

section Ending

variable {vars : Variables} {pattern rep t rel : Text} {c : Char}

theorem count_replaceFrom_le (hrep : c ∉ rep) (skip : ℕ) :
    (replaceFrom pattern rep skip t).count c ≤ t.count c := by
  fun_induction replaceFrom pattern rep skip t with
  | case1 => exact le_rfl
  | case2 skip d t ih => exact ih.trans List.count_le_count_cons
  | case3 d t hmatch ih =>
    rw [List.count_append, List.count_eq_zero.mpr hrep, Nat.zero_add]
    exact ih.trans List.count_le_count_cons
  | case4 d t hmatch ih =>
    rw [List.count_cons, List.count_cons]
    omega

/-- Replacing a pattern by something without its first character leaves fewer of them. -/
theorem count_replaceFrom_lt (hrep : c ∉ rep) (h : c :: pattern <:+: t) :
    (replaceFrom (c :: pattern) rep 0 t).count c < t.count c := by
  induction t with
  | nil => cases List.infix_nil.mp h
  | cons d t ih =>
    rw [replaceFrom]
    by_cases hmatch : c :: pattern <+: d :: t
    · obtain ⟨rfl, -⟩ := List.cons_prefix_cons.mp hmatch
      have hle : (replaceFrom (c :: pattern) rep ((c :: pattern).length - 1) t).count c ≤
          t.count c := count_replaceFrom_le hrep _
      rw [if_pos hmatch, List.count_append, List.count_eq_zero.mpr hrep, List.count_cons_self]
      omega
    · have hlt := ih ((List.infix_cons_iff.mp h).resolve_left hmatch)
      rw [if_neg hmatch, List.count_cons, List.count_cons]
      omega

/-- Values without percent signs let the loop end. -/
theorem interpolateVars_plain (hplain : Plain vars) {rounds : ℕ} (h : rel.count '%' < rounds) :
    ∃ out, interpolateVars vars rounds rel = some out := by
  induction rounds generalizing rel with
  | zero => omega
  | succ rounds ih =>
    rw [interpolateVars]
    cases hname : firstPlaceholder rel with
    | none => exact ⟨rel, rfl⟩
    | some name =>
      dsimp only
      by_cases hvalue : vars name = []
      · exact ⟨rel, if_pos hvalue⟩
      · rw [if_neg hvalue]
        have hlt := count_replaceFrom_lt (percent_notMem_shown hplain name)
          (firstPlaceholder_some hname).2
        exact ih (by
          change (replaceFrom (percent name) (shown vars name) 0 rel).count '%' < rounds
          exact lt_of_lt_of_le hlt (Nat.lt_succ_iff.mp h))

end Ending

section Testing

variable {vars : Variables} {rel name t : Text}

theorem commandOutput_eq_self : commandOutput t = t ↔ t.getLast? ≠ some '\n' := by
  rw [commandOutput, List.rdropWhile_eq_self_iff]
  cases hlast : t.getLast? with
  | none => simp [List.getLast?_eq_none_iff.mp hlast]
  | some c =>
    obtain ⟨s, rfl⟩ := List.getLast?_eq_some_iff.mp hlast
    simp

end Testing

section Law

variable {sh : Shell} {e : Entry}

end Law

end OverlayPath
