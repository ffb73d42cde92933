import SbcImageBuild.Foundation.ShellText

/-!
# Comments of the C language

A scanner that tells code, comments and literals apart, and the text it leaves when comments
are removed. A comment leaves a blank and the line breaks it spans.
-/
namespace CComments

open ShellText Delimited

/-- Where the scanner is. The states `slash`, `star` and those of an escape hold after the first
character of a pair; a literal that is not closed ends with its line. -/
inductive Scan where
  | code
  | slash
  | line
  | lineEscape
  | block
  | star
  | string
  | stringEscape
  | char
  | charEscape
  deriving DecidableEq, Repr

/-- The state behind a character of code. -/
def codeStep (c : Char) : Scan :=
  if c = '/' then .slash else if c = '"' then .string else if c = '\'' then .char else .code

def next : Scan → Char → Scan
  | .code, c => codeStep c
  | .slash, c => if c = '/' then .line else if c = '*' then .block else codeStep c
  | .line, c => if c = '\\' then .lineEscape else if c = '\n' then .code else .line
  | .lineEscape, c => if c = '\\' then .lineEscape else .line
  | .block, c => if c = '*' then .star else .block
  | .star, c => if c = '/' then .code else if c = '*' then .star else .block
  | .string, c =>
    if c = '\\' then .stringEscape else if c = '"' ∨ c = '\n' then .code else .string
  | .stringEscape, _ => .string
  | .char, c =>
    if c = '\\' then .charEscape else if c = '\'' ∨ c = '\n' then .code else .char
  | .charEscape, _ => .char

/-- A slash is held back until it is clear whether it opens a comment. -/
def held : Scan → Text
  | .slash => ['/']
  | _ => []

def emit : Scan → Char → Text
  | .code, c => if c = '/' then [] else [c]
  | .slash, c =>
    if c = '/' ∨ c = '*' then [' '] else '/' :: [c]
  | .line, c | .lineEscape, c | .block, c | .star, c => if c = '\n' then [c] else []
  | .string, c | .stringEscape, c | .char, c | .charEscape, c => [c]

def scan : Scan → Text → Scan
  | s, [] => s
  | s, c :: t => scan (next s c) t

def emitted : Scan → Text → Text
  | _, [] => []
  | s, c :: t => emit s c ++ emitted (next s c) t

/-- The text without comments, from a state on. -/
def strip (s : Scan) (t : Text) : Text := emitted s t ++ held (scan s t)

def stripComments (t : Text) : Text := strip .code t

/-- A text behind a complete line break in front of it. -/
def LineStart : Scan → Prop
  | .code | .line | .block | .string | .char => True
  | _ => False

theorem lineStart_next (s : Scan) : LineStart (next s '\n') := by
  cases s <;> exact trivial

theorem scan_append (s : Scan) (t u : Text) : scan s (t ++ u) = scan (scan s t) u := by
  induction t generalizing s with
  | nil => rfl
  | cons c t ih => exact ih (next s c)

theorem emitted_append (s : Scan) (t u : Text) :
    emitted s (t ++ u) = emitted s t ++ emitted (scan s t) u := by
  induction t generalizing s with
  | nil => rfl
  | cons c t ih => rw [List.cons_append, emitted, ih, emitted, scan, List.append_assoc]

theorem strip_append (s : Scan) (t u : Text) :
    strip s (t ++ u) = emitted s t ++ strip (scan s t) u := by
  rw [strip, strip, emitted_append, scan_append, List.append_assoc]

theorem emit_newline (s : Scan) : emit s '\n' = held s ++ ['\n'] := by
  cases s <;> rfl

/-- The removal of comments goes line by line. -/
theorem strip_line (s : Scan) (line rest : Text) :
    strip s (line ++ '\n' :: rest) =
      strip s line ++ '\n' :: strip (next (scan s line) '\n') rest := by
  rw [strip_append, strip, strip, strip, emitted, scan, emit_newline]
  simp

def stripLines : Scan → List Text → List Text
  | _, [] => []
  | s, line :: lines => strip s line :: stripLines (next (scan s line) '\n') lines

theorem strip_join (s : Scan) {lines : List Text} (h : lines ≠ []) :
    strip s (join '\n' lines) = join '\n' (stripLines s lines) := by
  induction lines generalizing s with
  | nil => exact absurd rfl h
  | cons line lines ih =>
    cases lines with
    | nil => simp [join, stripLines]
    | cons follower lines =>
      have tail : stripLines s (line :: follower :: lines) =
          strip s line :: stripLines (next (scan s line) '\n') (follower :: lines) := rfl
      rw [join_cons_cons, strip_line, ih _ (by simp), tail, stripLines, join_cons_cons]

end CComments
