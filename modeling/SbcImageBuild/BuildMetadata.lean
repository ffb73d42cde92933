import SbcImageBuild.Foundation.ShellText

/-!
# Build metadata

The `key=value` files written by `write_common_metadata` and read by `metadata_value`.
-/
namespace BuildMetadata

open ShellText Delimited

structure Field where
  key : Text
  value : Text
  deriving DecidableEq, Repr

def Field.line (f : Field) : Text := f.key ++ '=' :: f.value

/-- The first field of a line under the separator `=`; the whole line if there is none. -/
def keyOf (line : Text) : Text := line.takeWhile (· ≠ '=')

/-- The line without its shortest prefix that ends in `=`. -/
def valueOf (line : Text) : Text :=
  if '=' ∈ line then (line.dropWhile (· ≠ '=')).drop 1 else line

def metadataValue (file key : Text) : Text :=
  match (records '\n' file).find? (fun line => keyOf line = key) with
  | some line => valueOf line
  | none => []

/-- `printf` applies its format once even without arguments. -/
def printfLines (args : List Text) : Text :=
  terminate '\n' (if args = [] then [[]] else args)

def commonFields (board boardDescription generatedUtc : Text) : List Field :=
  [⟨"board".toList, board⟩, ⟨"board_description".toList, boardDescription⟩,
   ⟨"generated_utc".toList, generatedUtc⟩]

def writeCommonMetadata (board boardDescription generatedUtc : Text) (args : List Text) : Text :=
  terminate '\n' ((commonFields board boardDescription generatedUtc).map Field.line) ++
    printfLines args

/-- A lower-case identifier. -/
def IsKey : Text → Prop
  | [] => False
  | c :: t => ('a' ≤ c ∧ c ≤ 'z' ∨ c = '_') ∧
    ∀ d ∈ t, 'a' ≤ d ∧ d ≤ 'z' ∨ d = '_' ∨ isDigit d

instance : DecidablePred IsKey
  | [] => inferInstanceAs (Decidable False)
  | c :: t => inferInstanceAs (Decidable (('a' ≤ c ∧ c ≤ 'z' ∨ c = '_') ∧
      ∀ d ∈ t, 'a' ≤ d ∧ d ≤ 'z' ∨ d = '_' ∨ isDigit d = true))

/-- Fields that can be written one to a line and told apart by their keys. -/
structure Readable (fs : List Field) : Prop where
  keys : ∀ f ∈ fs, IsKey f.key
  distinct : (fs.map Field.key).Nodup
  values : ∀ f ∈ fs, '\n' ∉ f.value

theorem identifier_char {c : Char} (h : 'a' ≤ c ∧ c ≤ 'z' ∨ c = '_' ∨ isDigit c) :
    c ≠ '=' ∧ c ≠ '\n' := by
  constructor
  · rintro rfl
    revert h
    decide
  · rintro rfl
    revert h
    decide

theorem key_chars {k : Text} (h : IsKey k) : '=' ∉ k ∧ '\n' ∉ k := by
  cases k with
  | nil => exact absurd h id
  | cons c t =>
    obtain ⟨hc, ht⟩ := h
    have hall : ∀ d ∈ c :: t, d ≠ '=' ∧ d ≠ '\n' := by
      intro d hd
      rcases List.mem_cons.mp hd with rfl | hd
      · exact identifier_char (hc.elim .inl fun heq => .inr (.inl heq))
      · exact identifier_char (ht d hd)
    exact ⟨fun hm => (hall _ hm).1 rfl, fun hm => (hall _ hm).2 rfl⟩

theorem keyOf_line {f : Field} (h : '=' ∉ f.key) : keyOf f.line = f.key := by
  rw [keyOf, Field.line, takeWhile_delimiter h]

theorem valueOf_line {f : Field} (h : '=' ∉ f.key) : valueOf f.line = f.value := by
  rw [valueOf, if_pos (by simp [Field.line]), Field.line, dropWhile_delimiter h, List.drop_one,
    List.tail_cons]

theorem Readable.lines_free {fs : List Field} (h : Readable fs) :
    Free '\n' (fs.map Field.line) := by
  intro line hline
  obtain ⟨f, hf, rfl⟩ := List.mem_map.mp hline
  have hkey := (key_chars (h.keys f hf)).2
  have hvalue := h.values f hf
  simp [Field.line, hkey, hvalue]

/-- The first line with the key of a field is the line of that field. -/
theorem find_line {fs : List Field} (hk : ∀ f ∈ fs, IsKey f.key)
    (hd : (fs.map Field.key).Nodup) {f : Field} (hf : f ∈ fs) :
    (fs.map Field.line).find? (fun line => keyOf line = f.key) = some f.line := by
  induction fs with
  | nil => exact absurd hf List.not_mem_nil
  | cons g gs ih =>
    rw [List.map_cons, List.nodup_cons] at hd
    have hg := keyOf_line (key_chars (hk g (by simp))).1
    rw [List.map_cons, List.find?_cons, hg]
    rcases List.mem_cons.mp hf with rfl | hf
    · simp
    · have hne : g.key ≠ f.key := fun heq =>
        hd.1 (List.mem_map.mpr ⟨f, hf, heq.symm⟩)
      simp only [hne, decide_false]
      exact ih (fun q hq => hk q (List.mem_cons_of_mem g hq)) hd.2 hf

/-- Reading a key back from a file of fields, whatever lines come after them. -/
theorem metadataValue_fields {fs : List Field} (h : Readable fs) {rest : List Text}
    (hrest : Free '\n' rest) {f : Field} (hf : f ∈ fs) :
    metadataValue (terminate '\n' (fs.map Field.line ++ rest)) f.key = f.value := by
  have free : Free '\n' (fs.map Field.line ++ rest) := by
    intro line hline
    rcases List.mem_append.mp hline with hline | hline
    · exact h.lines_free line hline
    · exact hrest line hline
  rw [metadataValue, records_terminate free, List.find?_append, find_line h.keys h.distinct hf]
  exact valueOf_line (key_chars (h.keys f hf)).1

theorem metadataValue_absent {fs : List Field} (h : Readable fs) {k : Text}
    (hk : ∀ f ∈ fs, f.key ≠ k) : metadataValue (terminate '\n' (fs.map Field.line)) k = [] := by
  rw [metadataValue, records_terminate h.lines_free, List.find?_eq_none.mpr]
  intro line hline heq
  obtain ⟨f, hf, rfl⟩ := List.mem_map.mp hline
  rw [keyOf_line (key_chars (h.keys f hf)).1] at heq
  exact hk f hf (of_decide_eq_true heq)

/-- Every field of a metadata file can be read back, the common ones included. -/
theorem metadataValue_writeCommonMetadata {board boardDescription generatedUtc : Text}
    {fs : List Field} (h : Readable (commonFields board boardDescription generatedUtc ++ fs))
    {f : Field} (hf : f ∈ commonFields board boardDescription generatedUtc ++ fs) :
    metadataValue (writeCommonMetadata board boardDescription generatedUtc
      (fs.map Field.line)) f.key = f.value := by
  rw [writeCommonMetadata, printfLines, ← terminate_append]
  by_cases hfs : fs = []
  · subst hfs
    rw [List.append_nil] at h hf
    exact metadataValue_fields h (by simp) hf
  · rw [if_neg (by simpa using hfs), ← List.map_append]
    have hread := metadataValue_fields h free_nil hf
    rwa [List.append_nil] at hread

end BuildMetadata
