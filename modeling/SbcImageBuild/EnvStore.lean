import SbcImageBuild.Foundation.ShellText

/-!
# The `.env` store

The switch targets of the Makefile: one key of `.env` is replaced in place by `sed`, or
appended by `echo` when no line has it yet. `make` has read the file before, as a part of the
Makefile.
-/
namespace EnvStore

open ShellText Delimited

inductive Key where
  | sdkVolume
  | board
  | rootfs
  deriving DecidableEq, Repr

def Key.name : Key → Text
  | .sdkVolume => "SDK_VOLUME".toList
  | .board => "BOARD".toList
  | .rootfs => "ROOTFS".toList

/-- The start of a line that assigns the key. -/
def Key.assign (k : Key) : Text := k.name ++ ['=']

def isValueChar (c : Char) : Bool :=
  ('a' ≤ c && c ≤ 'z') || ('A' ≤ c && c ≤ 'Z') || isDigit c || c == '.' || c == '_' || c == '-'

/-- A value that no shell and no `sed` expression interprets. -/
structure Value where
  text : Text
  nonempty : text ≠ []
  chars : ∀ c ∈ text, isValueChar c
  deriving DecidableEq

def HasKey (k : Key) (line : Text) : Prop := k.assign <+: line

instance (k : Key) : DecidablePred (HasKey k) := fun line =>
  inferInstanceAs (Decidable (k.assign <+: line))

def assignment (k : Key) (v : Value) : Text := k.assign ++ v.text

/-- `grep -q '^KEY='` -/
def Present (k : Key) (content : Text) : Prop := ∃ line ∈ records '\n' content, HasKey k line

instance (k : Key) : DecidablePred (Present k) := fun content =>
  inferInstanceAs (Decidable (∃ line ∈ records '\n' content, HasKey k line))

/-- `s|^KEY=.*|KEY=value|` on one line. -/
def substitute (k : Key) (v : Value) (line : Text) : Text :=
  if HasKey k line then assignment k v else line

/-- The two branches that follow `touch .env`. -/
def writeKey (k : Key) (v : Value) (content : Text) : Text :=
  if Present k content then mapRecords '\n' (substitute k v) content
  else content ++ assignment k v ++ ['\n']

/-- A missing file is created empty. -/
def touch (env : Option Text) : Text := env.getD []

def useSdkSwitch (switchVol : Value) (env : Option Text) : Except Text Text :=
  .ok (writeKey .sdkVolume switchVol (touch env))

def useBoardSwitch (profileExists : Text → Bool) (switchBoard : Value) (env : Option Text) :
    Except Text Text :=
  if profileExists switchBoard.text then .ok (writeKey .board switchBoard (touch env))
  else .error ("ERROR: unknown board profile: ".toList ++ switchBoard.text)

def rootfsChoices : List Text := ["buildroot".toList, "debian".toList, "all".toList]

def useRootfsSwitch (switchRootfs : Value) (env : Option Text) : Except Text Text :=
  if switchRootfs.text ∈ rootfsChoices then .ok (writeKey .rootfs switchRootfs (touch env))
  else .error ("ERROR: unsupported rootfs: ".toList ++ switchRootfs.text)

/-- What `make` makes of the lines of `.env`. Some set a variable or nothing and leave the recipes
alone; these are text, and the assignments that the recipes write are among them. What comes of a
target otherwise is left open: `make` may stop at a line, or run the recipe in another shell, and
to `grep` a line may end where it does not end to `sed`. -/
structure Make where
  leaves : Text → Bool
  text : ∀ line, leaves line → '\x00' ∉ line
  assigns : ∀ k v, leaves (assignment k v)
  otherwise : Key → Value → Text → Except Text Text

/-- `make` reads the file as variables that leave the recipes alone. -/
def Plain (make : Make) (content : Text) : Prop := ∀ line ∈ records '\n' content, make.leaves line

instance (make : Make) (content : Text) : Decidable (Plain make content) :=
  inferInstanceAs (Decidable (∀ line ∈ records '\n' content, make.leaves line = true))

def recipe (profileExists : Text → Bool) : Key → Value → Option Text → Except Text Text
  | .sdkVolume => useSdkSwitch
  | .board => useBoardSwitch profileExists
  | .rootfs => useRootfsSwitch

def switchTarget (make : Make) (profileExists : Text → Bool) (k : Key) (v : Value)
    (env : Option Text) : Except Text Text :=
  if Plain make (touch env) then recipe profileExists k v env
  else make.otherwise k v (touch env)

/-- The content after an accepted switch, and acceptance does not depend on the file. -/
theorem recipe_ok {profileExists : Text → Bool} {k : Key} {v : Value} {env : Option Text}
    {content : Text} (h : recipe profileExists k v env = .ok content) :
    content = writeKey k v (touch env) ∧
    ∀ env', recipe profileExists k v env' = .ok (writeKey k v (touch env')) := by
  cases k with
  | sdkVolume =>
    cases h
    exact ⟨rfl, fun _ => rfl⟩
  | board =>
    simp only [recipe, useBoardSwitch] at h ⊢
    split at h
    · cases h
      exact ⟨rfl, fun _ => by rw [if_pos ‹_›]⟩
    · cases h
  | rootfs =>
    simp only [recipe, useRootfsSwitch] at h ⊢
    split at h
    · cases h
      exact ⟨rfl, fun _ => by rw [if_pos ‹_›]⟩
    · cases h

theorem switchTarget_ok {make : Make} {profileExists : Text → Bool} {k : Key} {v : Value}
    {env : Option Text} {content : Text} (hplain : Plain make (touch env))
    (h : switchTarget make profileExists k v env = .ok content) :
    content = writeKey k v (touch env) ∧ ∀ env', Plain make (touch env') →
      switchTarget make profileExists k v env' = .ok (writeKey k v (touch env')) := by
  rw [switchTarget, if_pos hplain] at h
  obtain ⟨hcontent, accepted⟩ := recipe_ok h
  exact ⟨hcontent, fun env' hplain' => by rw [switchTarget, if_pos hplain', accepted]⟩

def otherLines (k : Key) (content : Text) : List Text :=
  (records '\n' content).filter fun line => ¬ HasKey k line

/-- The key is set to the value, and only the key. -/
structure Sets (k : Key) (v : Value) (before after : Text) : Prop where
  present : Present k after
  value : ∀ line ∈ records '\n' after, HasKey k line → line = assignment k v
  others : otherLines k after = otherLines k before

/-- The law of a switch: it sets its key, hides an earlier switch of the same key, and commutes
with the switch of another key when the file has both. -/
structure SwitchLaw (make : Make) (profileExists : Text → Bool) (k : Key) (v : Value)
    (env : Option Text) (after : Text) : Prop where
  sets : Sets k v (touch env) after
  last_wins : ∀ v' mid, switchTarget make profileExists k v' env = .ok mid →
    switchTarget make profileExists k v (some mid) = .ok after
  commutes : ∀ k' v' other, k' ≠ k → Present k (touch env) → Present k' (touch env) →
    switchTarget make profileExists k' v' env = .ok other →
    ∃ both, switchTarget make profileExists k v (some other) = .ok both ∧
      switchTarget make profileExists k' v' (some after) = .ok both

/-- Nothing would be glued to an unterminated last line. -/
def Appendable (k : Key) (content : Text) : Prop :=
  Present k content ∨ content = [] ∨ content.getLast? = some '\n'

theorem value_line {v : Value} : '\n' ∉ v.text := by
  intro h
  have hc := v.chars _ h
  revert hc
  decide

theorem name_chars (k : Key) : '=' ∉ k.name ∧ '\n' ∉ k.name := by cases k <;> decide

theorem assignment_line (k : Key) (v : Value) : '\n' ∉ assignment k v := by
  have hk := (name_chars k).2
  have hv := value_line (v := v)
  simp [assignment, Key.assign, hk, hv]

theorem assign_nonempty (k : Key) : k.assign ≠ [] := by simp [Key.assign]

theorem hasKey_nonempty {k : Key} {line : Text} (h : HasKey k line) : line ≠ [] := by
  rintro rfl
  exact assign_nonempty k (List.prefix_nil.mp h)

theorem hasKey_assignment (k : Key) (v : Value) : HasKey k (assignment k v) :=
  List.prefix_append _ _

/-- The keys already differ in their first letter. -/
theorem assign_head {k k' : Key} (h : k.assign.head? = k'.assign.head?) : k = k' := by
  revert h
  cases k <;> cases k' <;> decide

theorem hasKey_head {k : Key} {line : Text} (h : HasKey k line) :
    line.head? = k.assign.head? := by
  obtain ⟨t, rfl⟩ := h
  exact List.head?_append_of_ne_nil _ (assign_nonempty k)

theorem hasKey_assignment_iff (k k' : Key) (v : Value) : HasKey k (assignment k' v) ↔ k = k' := by
  constructor
  · intro h
    exact assign_head ((hasKey_head h).symm.trans (hasKey_head (hasKey_assignment k' v)))
  · rintro rfl
    exact hasKey_assignment k v

/-- No line assigns two keys. -/
theorem hasKey_unique {k k' : Key} {line : Text} (h : HasKey k line) (h' : HasKey k' line) :
    k = k' := assign_head ((hasKey_head h).symm.trans (hasKey_head h'))

theorem substitute_line {k : Key} {v : Value} (line : Text) (h : '\n' ∉ line) :
    '\n' ∉ substitute k v line := by
  unfold substitute
  split
  · exact assignment_line k v
  · exact h

theorem substitute_eq_nil {k : Key} {v : Value} (line : Text) :
    substitute k v line = [] ↔ line = [] := by
  unfold substitute
  split
  · rename_i h
    simp [assignment, assign_nonempty, hasKey_nonempty h]
  · rfl

theorem substitute_substitute (k : Key) (v v' : Value) (line : Text) :
    substitute k v (substitute k v' line) = substitute k v line := by
  by_cases h : HasKey k line <;> simp [substitute, h, hasKey_assignment]

theorem substitute_comm {k k' : Key} (hne : k ≠ k') (v v' : Value) (line : Text) :
    substitute k v (substitute k' v' line) = substitute k' v' (substitute k v line) := by
  have hkk' : ¬ HasKey k (assignment k' v') := fun h => hne ((hasKey_assignment_iff k k' v').mp h)
  have hk'k : ¬ HasKey k' (assignment k v) := fun h =>
    hne ((hasKey_assignment_iff k' k v).mp h).symm
  by_cases h : HasKey k line <;> by_cases h' : HasKey k' line
  · exact absurd (hasKey_unique h h') hne
  all_goals simp [substitute, h, h', hkk', hk'k]

theorem hasKey_substitute {k k' : Key} {v : Value} {line : Text} :
    HasKey k' (substitute k v line) ↔ HasKey k' line := by
  unfold substitute
  split
  · rename_i h
    rw [hasKey_assignment_iff]
    exact ⟨fun heq => heq ▸ h, fun h' => hasKey_unique h' h⟩
  · rfl

/-! ## Replacing in place -/

theorem records_replace (k : Key) (v : Value) (content : Text) :
    records '\n' (mapRecords '\n' (substitute k v) content) =
      (records '\n' content).map (substitute k v) :=
  records_mapRecords substitute_line substitute_eq_nil content

theorem present_replace {k k' : Key} {v : Value} {content : Text} :
    Present k' (mapRecords '\n' (substitute k v) content) ↔ Present k' content := by
  unfold Present
  rw [records_replace]
  simp [hasKey_substitute]

theorem replace_sets {k : Key} {v : Value} {content : Text} (h : Present k content) :
    Sets k v content (mapRecords '\n' (substitute k v) content) := by
  refine ⟨present_replace.mpr h, ?_, ?_⟩
  · intro line hline hkey
    rw [records_replace, List.mem_map] at hline
    obtain ⟨old, -, rfl⟩ := hline
    rw [substitute, if_pos (hasKey_substitute.mp hkey)]
  · unfold otherLines
    rw [records_replace]
    induction records '\n' content with
    | nil => rfl
    | cons line lines ih =>
      rw [List.map_cons, List.filter_cons, List.filter_cons, ih]
      by_cases hkey : HasKey k line <;> simp [substitute, hkey, hasKey_assignment]

theorem writeKey_present {k : Key} {v : Value} {content : Text} (h : Present k content) :
    writeKey k v content = mapRecords '\n' (substitute k v) content := if_pos h

/-! ## Appending a line -/

theorem writeKey_absent {k : Key} {v : Value} {content : Text} (h : ¬ Present k content) :
    writeKey k v content = content ++ assignment k v ++ ['\n'] := if_neg h

theorem append_records {k : Key} {v : Value} {rs : List Text} {last : Text} (h : Free '\n' rs)
    (hl : '\n' ∉ last) :
    terminate '\n' rs ++ last ++ assignment k v ++ ['\n'] =
      terminate '\n' (rs ++ [last ++ assignment k v]) ∧
    Free '\n' (rs ++ [last ++ assignment k v]) := by
  constructor
  · simp [terminate_append]
  · intro r hr
    rcases List.mem_append.mp hr with hr | hr
    · exact h r hr
    · rw [List.mem_singleton.mp hr, List.mem_append]
      exact not_or.mpr ⟨hl, assignment_line k v⟩

/-- An assignment glued to another text is not found at its start: the equals sign would have
to stand inside the name. -/
theorem not_hasKey_glued {k : Key} {v : Value} {last : Text} (hne : last ≠ [])
    (h : ¬ HasKey k last) : ¬ HasKey k (last ++ assignment k v) := by
  rintro ⟨t, ht⟩
  rcases List.append_eq_append_iff.mp ht with ⟨mid, hlast, -⟩ | ⟨mid, hassign, hrest⟩
  · exact h ⟨mid, hlast.symm⟩
  · have hmid : mid ≠ [] := by
      rintro rfl
      exact h (by rw [List.append_nil] at hassign; exact hassign ▸ List.prefix_rfl)
    -- `mid` is a proper end of `NAME=` and a start of `NAME=value`
    have hlen : mid.length ≤ k.name.length := by
      have hsum := congrArg List.length hassign
      have hpos := List.length_pos_iff.mpr hne
      simp only [Key.assign, List.length_append, List.length_singleton] at hsum
      omega
    have hname : mid <+: k.name := by
      have hpre : mid <+: assignment k v := ⟨t, hrest.symm⟩
      rw [assignment, Key.assign, List.append_assoc] at hpre
      exact List.prefix_of_prefix_length_le hpre (List.prefix_append _ _) hlen
    have hequals : '=' ∈ mid := by
      have hlast := congrArg List.getLast? hassign
      rw [Key.assign, List.getLast?_concat, List.getLast?_append_of_ne_nil _ hmid] at hlast
      exact List.mem_of_getLast? hlast.symm
    exact (name_chars k).1 (hname.subset hequals)

theorem substitute_absent {k : Key} {v : Value} {rs : List Text} (h : ∀ r ∈ rs, ¬ HasKey k r) :
    rs.map (substitute k v) = rs := by
  refine (List.map_congr_left fun r hr => ?_).trans (List.map_id rs)
  exact if_neg (h r hr)

theorem append_sets {k : Key} {v : Value} {rs : List Text} (hfree : Free '\n' rs)
    (h : ∀ r ∈ rs, ¬ HasKey k r) :
    Sets k v (terminate '\n' rs) (terminate '\n' (rs ++ [assignment k v])) := by
  have hfree' : Free '\n' (rs ++ [assignment k v]) :=
    (append_records hfree List.not_mem_nil).2
  refine ⟨?_, ?_, ?_⟩
  · refine ⟨assignment k v, ?_, hasKey_assignment k v⟩
    rw [records_terminate hfree']
    simp
  · intro line hline hkey
    rw [records_terminate hfree'] at hline
    rcases List.mem_append.mp hline with hline | hline
    · exact absurd hkey (h line hline)
    · exact List.mem_singleton.mp hline
  · unfold otherLines
    rw [records_terminate hfree', records_terminate hfree, List.filter_append]
    simp [hasKey_assignment]

theorem glued_not_present {k : Key} {v : Value} {rs : List Text} {last : Text}
    (hfree : Free '\n' rs) (hlast : '\n' ∉ last) (hne : last ≠ [])
    (h : ∀ r ∈ rs ++ [last], ¬ HasKey k r) :
    ¬ Present k (terminate '\n' (rs ++ [last ++ assignment k v])) := by
  rintro ⟨line, hline, hkey⟩
  rw [records_terminate (append_records hfree hlast).2] at hline
  rcases List.mem_append.mp hline with hline | hline
  · exact h line (List.mem_append_left _ hline) hkey
  · rw [List.mem_singleton.mp hline] at hkey
    exact not_hasKey_glued hne (h last (by simp)) hkey

theorem absent_records {k : Key} {content : Text} (h : ¬ Present k content) :
    ∀ r ∈ records '\n' content, ¬ HasKey k r := fun r hr hkey => h ⟨r, hr, hkey⟩

/-- Without the key, an append sets it exactly when the last line was complete. -/
theorem append_sets_iff {k : Key} {v : Value} {content : Text} (h : ¬ Present k content) :
    Sets k v content (writeKey k v content) ↔ content = [] ∨ content.getLast? = some '\n' := by
  obtain ⟨rs, last, hfree, hlast, rfl⟩ := exists_terminate_append '\n' content
  have habsent := absent_records h
  rw [writeKey_absent h, (append_records hfree hlast).1, complete_iff hlast]
  rw [records_append hfree hlast] at habsent
  rcases eq_or_ne last [] with rfl | hne
  · rw [if_pos rfl] at habsent
    rw [List.append_nil]
    exact iff_of_true (append_sets hfree habsent) rfl
  · rw [if_neg hne] at habsent
    exact iff_of_false (fun hset => glued_not_present hfree hlast hne habsent hset.present) hne

/-! ## The law -/

theorem writeKey_sets_iff {k : Key} {v : Value} {content : Text} :
    Sets k v content (writeKey k v content) ↔ Appendable k content := by
  by_cases h : Present k content
  · rw [writeKey_present h]
    exact iff_of_true (replace_sets h) (.inl h)
  · rw [append_sets_iff h]
    simp [Appendable, h]

theorem writeKey_last_wins {k : Key} {content : Text} (h : Appendable k content) (v v' : Value) :
    writeKey k v (writeKey k v' content) = writeKey k v content := by
  have hset := (writeKey_sets_iff (v := v')).mpr h
  rw [writeKey_present hset.present]
  by_cases hp : Present k content
  · rw [writeKey_present hp, writeKey_present hp, mapRecords_mapRecords substitute_line]
    congr 1
    exact funext (substitute_substitute k v v')
  · obtain ⟨rs, last, hfree, hlast, rfl⟩ := exists_terminate_append '\n' content
    obtain rfl : last = [] := (complete_iff hlast).mp (h.resolve_left hp)
    have habsent := absent_records hp
    rw [records_append hfree hlast, if_pos rfl] at habsent
    have hfree' := (append_records (k := k) (v := v') hfree hlast).2
    rw [writeKey_absent hp, writeKey_absent hp, (append_records hfree hlast).1,
      mapRecords_terminate ((substitute_eq_nil []).mpr rfl) hfree', List.map_append,
      substitute_absent habsent, (append_records hfree hlast).1]
    simp [substitute, hasKey_assignment]

theorem writeKey_comm {k k' : Key} (hne : k ≠ k') (v v' : Value) {content : Text}
    (h : Present k content) (h' : Present k' content) :
    writeKey k v (writeKey k' v' content) = writeKey k' v' (writeKey k v content) := by
  rw [writeKey_present h', writeKey_present h, writeKey_present (present_replace.mpr h),
    writeKey_present (present_replace.mpr h'), mapRecords_mapRecords substitute_line,
    mapRecords_mapRecords substitute_line]
  congr 1
  exact funext (substitute_comm hne v v')

/-- A file that leaves the recipes alone does so after a switch. -/
theorem plain_writeKey {make : Make} {k : Key} {v : Value} {content : Text}
    (h : Plain make content) (happ : Appendable k content) : Plain make (writeKey k v content) := by
  obtain ⟨-, hvalue, hothers⟩ := (writeKey_sets_iff (v := v)).mpr happ
  intro line hline
  by_cases hkey : HasKey k line
  · rw [hvalue line hline hkey]
    exact make.assigns k v
  · have hmem : line ∈ otherLines k (writeKey k v content) :=
      List.mem_filter.mpr ⟨hline, by simpa using hkey⟩
    rw [hothers] at hmem
    exact h line (List.mem_filter.mp hmem).1

/-- With a file that leaves the recipes alone, a switch obeys the law exactly when its key is
present or the last line is complete. -/
theorem switch_law_iff {make : Make} {profileExists : Text → Bool} {k : Key} {v : Value}
    {env : Option Text} {after : Text} (hplain : Plain make (touch env))
    (h : switchTarget make profileExists k v env = .ok after) :
    SwitchLaw make profileExists k v env after ↔ Appendable k (touch env) := by
  obtain ⟨rfl, accepted⟩ := switchTarget_ok hplain h
  constructor
  · intro law
    exact writeKey_sets_iff.mp law.sets
  · intro happ
    refine ⟨writeKey_sets_iff.mpr happ, ?_, ?_⟩
    · intro v' mid hmid
      obtain ⟨rfl, -⟩ := switchTarget_ok hplain hmid
      rw [accepted (some (writeKey k v' (touch env))) (plain_writeKey hplain happ)]
      exact congrArg Except.ok (writeKey_last_wins happ v v')
    · intro k' v' other hne hk hk' hother
      obtain ⟨rfl, accepted'⟩ := switchTarget_ok hplain hother
      refine ⟨_, accepted _ (plain_writeKey hplain (.inl hk')),
        (accepted' (some _) (plain_writeKey hplain happ)).trans ?_⟩
      exact congrArg Except.ok (writeKey_comm hne v' v hk' hk)

/-- Comments and assignments of the three keys. -/
def exampleLeaves (line : Text) : Bool :=
  !line.contains '\x00' && (line.head? == some '#' ||
    [Key.sdkVolume, .board, .rootfs].any fun k => decide (HasKey k line))

theorem exampleLeaves_assignment (k : Key) (v : Value) : exampleLeaves (assignment k v) := by
  have hvalue : '\x00' ∉ v.text := fun hmem => absurd (v.chars _ hmem) (by decide)
  have hname : '\x00' ∉ k.assign := by cases k <;> decide
  have hmem : k ∈ [Key.sdkVolume, .board, .rootfs] := by cases k <;> decide
  have htext : '\x00' ∉ assignment k v := by simp [assignment, hname, hvalue]
  have hkey : [Key.sdkVolume, .board, .rootfs].any fun k' =>
      decide (HasKey k' (assignment k v)) :=
    List.any_eq_true.mpr ⟨k, hmem, by simp [hasKey_assignment]⟩
  simp [exampleLeaves, htext, hkey]

def exampleMake : Make where
  leaves := exampleLeaves
  text line h := by
    have hquiet : (!line.contains '\x00') = true := (Bool.and_eq_true_iff.mp h).1
    simpa using hquiet
  assigns := exampleLeaves_assignment
  otherwise _ _ content := .error content

theorem switch_law_iff_rock5c :
    ∃ v after, switchTarget exampleMake (fun _ => true) .board v
      (some "ROOTFS=all\n#BOARD=x\n".toList) = .ok after ∧
      SwitchLaw exampleMake (fun _ => true) .board v
        (some "ROOTFS=all\n#BOARD=x\n".toList) after := by
  let v : Value := ⟨"rk3588s-rock-5c".toList, by decide +kernel, by decide +kernel⟩
  have plain : Plain exampleMake "ROOTFS=all\n#BOARD=x\n".toList := by decide +kernel
  have run : switchTarget exampleMake (fun _ => true) .board v
      (some "ROOTFS=all\n#BOARD=x\n".toList) =
      .ok "ROOTFS=all\n#BOARD=x\nBOARD=rk3588s-rock-5c\n".toList := by decide +kernel
  exact ⟨v, _, run, (switch_law_iff plain run).mpr (.inr (.inr (by decide)))⟩

/-- The appended key is glued to an unterminated last line: neither key is set afterwards. -/
theorem switch_law_unterminated :
    ∃ v, Plain exampleMake "ROOTFS=debian".toList ∧
      switchTarget exampleMake (fun _ => true) .board v (some "ROOTFS=debian".toList) =
        .ok "ROOTFS=debianBOARD=rk3588-muse\n".toList ∧
      ¬ SwitchLaw exampleMake (fun _ => true) .board v (some "ROOTFS=debian".toList)
        "ROOTFS=debianBOARD=rk3588-muse\n".toList := by
  refine ⟨⟨"rk3588-muse".toList, by decide +kernel, by decide +kernel⟩, by decide +kernel,
    by decide +kernel, fun law => ?_⟩
  exact absurd law.sets.present (by decide)

end EnvStore
