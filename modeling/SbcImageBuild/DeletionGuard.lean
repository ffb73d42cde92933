import SbcImageBuild.Foundation.FileCommands
import SbcImageBuild.Foundation.PathText
import Mathlib.Data.List.Infix

/-!
# The deletion guard

`safe_reset_dir`, which empties a directory after comparing the texts of two resolved paths.
`realpath -m` is a parameter: its results are normalized and free of links.
-/
namespace DeletionGuard

open ShellText FileTree FileCommands PathText

/-- An absolute path without empty, `.` or `..` components. -/
structure NormalPath where
  loc : Loc
  proper : ∀ n ∈ loc, Proper n

/-- `realpath -m`, which does not ask for its path to exist. -/
structure Realpath where
  resolve : Files Text → Text → NormalPath
  links : ∀ k path, WellFormed k → ∀ q, q <+: (resolve k path).loc → isSymlink k q = false

/-- `mkdir -p` of an operand. -/
def makeParent (k : Files Text) (cwd : Loc) (path : Text) : Outcome Text Loc :=
  if path = [] ∨ path.head? = some '-' then fail k
  else mkdirP k (if isAbsolute path then [] else cwd) (components path)

/-- `rm -rf` of an operand. A slash behind the last name demands a directory, and `.`, `..` and the
top directory are not removed. -/
def rmRf (k : Files Text) (path : Text) : Option (Files Text) :=
  let names := (components path).rdropWhile (· = [])
  match names.getLast? with
  | none => none
  | some name =>
    if name = ['.'] ∨ name = ['.', '.'] then none
    else match directoryAt k names.dropLast with
      | none => some k
      | some d =>
        if names ≠ components path ∧ isDir k (d ++ [name]) = false then some k
        else some (remove k (d ++ [name]))

/-- The trees behind the two commands at the end, and whether both succeeded. -/
structure Reset where
  removed : Files Text
  tree : Files Text
  finished : Bool

def resetPath (k : Files Text) (path : Text) : Reset :=
  match rmRf k path with
  | none => ⟨k, k, false⟩
  | some removed =>
    let made := mkdirP removed [] (components path)
    ⟨removed, made.tree, made.result.isSome⟩

/-- How the function ends: a failed command, the message of a `die`, or the commands behind the
guard. -/
inductive Ending where
  | unprepared (tree : Files Text)
  | refused (message : Text) (tree : Files Text)
  | accepted (reset : Reset)

def captured (path : NormalPath) : Text := substituted (printed path.loc ++ ['\n'])

def resetResolved (k : Files Text) (target parent : NormalPath) : Ending :=
  let resolvedTarget := captured target
  let resolvedParent := captured parent
  if ¬ resolvedParent ++ ['/'] <+: resolvedTarget then
    .refused ("Refusing to reset path outside ".toList ++ resolvedParent ++ ": ".toList ++
      resolvedTarget) k
  else if resolvedTarget = resolvedParent then
    .refused ("Refusing to reset the build root itself: ".toList ++ resolvedTarget) k
  else .accepted (resetPath k resolvedTarget)

def safeResetDir (r : Realpath) (cwd : Loc) (k : Files Text) (target parent : Text) : Ending :=
  let made := makeParent k cwd parent
  match made.result with
  | none => .unprepared made.tree
  | some _ => resetResolved made.tree (r.resolve made.tree target) (r.resolve made.tree parent)

/-- A directory without anything in it. -/
def IsEmptyDir (k : Files Text) (l : Loc) : Prop := isDir k l ∧ ∀ q, q ≠ [] → k (l ++ q) = none

/-- What a run of the function may do to the tree `k` that it finds once the parent is there. -/
structure Guarded (k : Files Text) (target parent : Loc) (e : Ending) : Prop where
  refuses : ¬ Below parent target → ∃ message, e = .refused message k
  harmless : ∀ message u, e = .refused message u → u = k
  exact : ∀ reset, e = .accepted reset →
    reset.removed = remove k target ∧ (k target ≠ none → reset.finished) ∧
      (reset.finished → IsEmptyDir reset.tree target ∧
        ∀ q, ¬ target <+: q → k q ≠ none → reset.tree q = k q)
  accepts : parent ≠ [] → Below parent target → ∃ reset, e = .accepted reset

/-- The contract of the whole function: nothing is deleted before the guard. -/
def Contract (r : Realpath) (cwd : Loc) (k : Files Text) (target parent : Text) : Prop :=
  let made := makeParent k cwd parent
  (∀ q, k q ≠ none → made.tree q = k q) ∧
    match made.result with
    | none => safeResetDir r cwd k target parent = .unprepared made.tree
    | some _ => Guarded made.tree (r.resolve made.tree target).loc (r.resolve made.tree parent).loc
        (safeResetDir r cwd k target parent)

theorem NormalPath.slashFree (path : NormalPath) : SlashFree path.loc := fun n hn =>
  (path.proper n hn).2.2.2

/-- The guard compares the names that the substitutions leave. -/
theorem resetResolved_accepts_iff {k : Files Text} {target parent : NormalPath} :
    (∃ reset, resetResolved k target parent = .accepted reset) ↔
      Below (shown parent.loc) (shown target.loc) := by
  have hspelled := substituted_prefix_iff parent.slashFree target.slashFree
  unfold resetResolved captured
  dsimp only
  by_cases hbelow : Below (shown parent.loc) (shown target.loc)
  · have hpre := hspelled.mpr hbelow
    have hne : substituted (printed target.loc ++ ['\n']) ≠
        substituted (printed parent.loc ++ ['\n']) := by
      intro heq
      have hlen := hpre.length_le
      rw [heq, List.length_append, List.length_singleton] at hlen
      omega
    rw [if_neg (not_not.mpr hpre), if_neg hne]
    exact iff_of_true ⟨_, rfl⟩ hbelow
  · rw [if_pos fun hpre => hbelow (hspelled.mp hpre)]
    exact iff_of_false (by simp) hbelow

theorem resetResolved_cases (k : Files Text) (target parent : NormalPath) :
    (∃ message, resetResolved k target parent = .refused message k) ∨
      resetResolved k target parent = .accepted (resetPath k (captured target)) := by
  unfold resetResolved
  dsimp only
  split
  · exact .inl ⟨_, rfl⟩
  · split
    · exact .inl ⟨_, rfl⟩
    · exact .inr rfl

theorem resolve_slash (k : Files Text) (path : List Text) :
    resolve k [] ([] :: path) = resolve k [] path := by
  obtain ⟨follow, heq⟩ := walk_eq k maxLinks
  rw [resolve, resolve, heq, walkWith, if_pos (.inl rfl)]

theorem directoryAt_slash (k : Files Text) (path : List Text) :
    directoryAt k ([] :: path) = directoryAt k path := by
  rw [directoryAt, directoryAt, resolve_slash]

section Normal

variable {k : Files Text}

/-- `rm -rf` works in the directory that the names in front of the last one lead to. -/
theorem rmRf_concat {xs : Loc} {n : Text} (hp : ∀ m ∈ xs ++ [n], '/' ∉ m) (hn : n ≠ []) :
    rmRf k (spell (xs ++ [n])) =
      if n = ['.'] ∨ n = ['.', '.'] then none
      else some ((directoryAt k xs).elim k fun d => remove k (d ++ [n])) := by
  have hcomponents : components (spell (xs ++ [n])) = ([] :: xs) ++ [n] :=
    components_spell (by simp) hp
  have hnames : (([] :: xs) ++ [n]).rdropWhile (· = []) = ([] :: xs) ++ [n] :=
    List.rdropWhile_concat_neg _ _ _ (by simpa using hn)
  rw [rmRf, hcomponents, hnames, List.getLast?_concat, List.dropLast_concat, directoryAt_slash]
  dsimp only
  cases directoryAt k xs with
  | none => rfl
  | some d => simp

theorem rmRf_proper {xs : Loc} {n : Text} (hp : ∀ m ∈ xs ++ [n], Proper m) :
    rmRf k (spell (xs ++ [n])) =
      some ((directoryAt k xs).elim k fun d => remove k (d ++ [n])) := by
  obtain ⟨hne, hdot, hdotdot, -⟩ := hp n (by simp)
  rw [rmRf_concat (fun m hm => (hp m hm).2.2.2) hne, if_neg (by simp [hdot, hdotdot])]

/-- `rm -rf` of a path without links removes what is at its location. -/
theorem rmRf_spell (h : WellFormed k) {l : Loc} (hl : l ≠ []) (hp : ∀ n ∈ l, Proper n)
    (hlinks : ∀ q, q <+: l → isSymlink k q = false) : rmRf k (spell l) = some (remove k l) := by
  obtain ⟨xs, n, rfl⟩ := (List.eq_nil_or_concat l).resolve_left hl
  rw [List.concat_eq_append] at *
  have hxs : ∀ m ∈ xs, Proper m := fun m hm => hp m (List.mem_append_left _ hm)
  have hdirect : Direct k xs :=
    h.direct fun q hq => hlinks q (hq.trans (List.prefix_append xs [n]))
  rw [rmRf_proper hp]
  by_cases hdir : isDir k xs
  · rw [directoryAt_direct hxs hdirect hdir, Option.elim_some]
  · have hmissing : remove k (xs ++ [n]) = k := by
      apply remove_missing
      rintro q ⟨r, rfl⟩
      rw [List.append_assoc]
      exact h.below hdir (by simp)
    rw [directoryAt_none hxs hdirect hdir, hmissing, Option.elim_none]

theorem resetPath_eq (h : WellFormed k) {l : Loc} (hl : l ≠ []) (hp : ∀ n ∈ l, Proper n)
    (hlinks : ∀ q, q <+: l → isSymlink k q = false) :
    resetPath k (spell l) = ⟨remove k l, (mkdirP (remove k l) [] l).tree,
      (mkdirP (remove k l) [] l).result.isSome⟩ := by
  have hcomponents : components (spell l) = [] :: l :=
    components_spell hl fun m hm => (hp m hm).2.2.2
  have hmade : mkdirP (remove k l) [] ([] :: l) = mkdirP (remove k l) [] l := by
    rw [mkdirP, if_pos (.inl rfl)]
  rw [resetPath, rmRf_spell h hl hp hlinks, hcomponents]
  dsimp only
  rw [hmade]

theorem isSymlink_remove {l q : Loc} (hlink : isSymlink k q = false) :
    isSymlink (remove k l) q = false := by
  rw [isSymlink]
  by_cases hat : l <+: q
  · rw [remove_at hat]
    rfl
  · rw [remove_other hat]
    exact hlink

/-- What was there had directories on the way to it, and they stay. -/
theorem passable_remove (h : WellFormed k) {l : Loc} (hexists : k l ≠ none) :
    Passable (remove k l) [] l := by
  intro q hq
  rw [List.nil_append]
  by_cases hat : l <+: q
  · exact .inl (remove_at hat)
  · right
    rw [isDir, remove_other hat]
    rcases h.prefix_dir hq hexists with rfl | hdir
    · exact absurd List.prefix_rfl hat
    · exact hdir

/-- The directory that is made again is empty, and nothing else changes. -/
theorem withDirs_remove (k : Files Text) (l : Loc) :
    IsEmptyDir (withDirs (remove k l) [] l) l ∧
      ∀ q, ¬ l <+: q → k q ≠ none → withDirs (remove k l) [] l q = k q := by
  refine ⟨⟨?_, fun q hq => ?_⟩, fun q hq hexists => ?_⟩
  · rw [isDir, withDirs, if_pos ⟨remove_at List.prefix_rfl, List.nil_prefix, List.prefix_rfl⟩]
    rfl
  · rw [withDirs, if_neg]
    · exact remove_at (List.prefix_append l q)
    · rintro ⟨-, -, hpre⟩
      exact not_below_prefix hq hpre
  · have hsame : remove k l q = k q := remove_other hq
    rw [withDirs, if_neg fun hno => hexists (hsame ▸ hno.1), hsame]

/-- The two commands behind the guard remove what is at a location without links and make the
directory again. -/
theorem resetPath_tree (h : WellFormed k) {l : Loc} (hl : l ≠ []) (hp : ∀ n ∈ l, Proper n)
    (hlinks : ∀ q, q <+: l → isSymlink k q = false) (hfinished : (resetPath k (spell l)).finished) :
    (resetPath k (spell l)).tree = withDirs (remove k l) [] l := by
  have hwell := h.remove hl
  rw [resetPath_eq h hl hp hlinks] at hfinished ⊢
  have hsome : (mkdirP (remove k l) [] l).result ≠ none := Option.isSome_iff_ne_none.mp hfinished
  have pass : Passable (remove k l) [] l := by
    apply passable_of_mkdirP hwell hwell.top hp _ hsome
    intro q hq
    exact isSymlink_remove (hlinks q hq)
  exact (mkdirP_passable hwell hwell.top hp pass).1

theorem resetPath_spell (h : WellFormed k) {l : Loc} (hl : l ≠ []) (hp : ∀ n ∈ l, Proper n)
    (hlinks : ∀ q, q <+: l → isSymlink k q = false) :
    (resetPath k (spell l)).removed = remove k l ∧
      (k l ≠ none → (resetPath k (spell l)).finished) ∧
      ((resetPath k (spell l)).finished → IsEmptyDir (resetPath k (spell l)).tree l ∧
        ∀ q, ¬ l <+: q → k q ≠ none → (resetPath k (spell l)).tree q = k q) := by
  have hwell := h.remove hl
  refine ⟨by rw [resetPath_eq h hl hp hlinks], fun hexists => ?_, fun hfinished => ?_⟩
  · rw [resetPath_eq h hl hp hlinks]
    dsimp only
    rw [(mkdirP_passable hwell hwell.top hp (passable_remove h hexists)).2]
    rfl
  · rw [resetPath_tree h hl hp hlinks hfinished]
    exact withDirs_remove k l

end Normal

/-- The texts of the two locations keep them apart: no newline at the end misleads the guard. -/
def Distinguished (target parent : Loc) : Prop :=
  (Below parent target → parent ≠ [] → ¬ EndsInNewline parent ∧ ¬ EndsInNewline target) ∧
    (¬ Below parent target → ¬ Below (shown parent) target)

theorem accepted_iff {k : Files Text} {target parent : NormalPath} :
    (∃ reset, resetResolved k target parent = .accepted reset) ↔
      Below (shown parent.loc) target.loc := by
  rw [resetResolved_accepts_iff, below_shown_iff (shown_ne_nil parent.loc)]

theorem accepted_reset {k : Files Text} {target parent : NormalPath} {reset : Reset}
    (h : resetResolved k target parent = .accepted reset) :
    reset = resetPath k (captured target) := by
  rcases resetResolved_cases k target parent with ⟨m, hrefused⟩ | haccepted
  · rw [hrefused] at h
    cases h
  · rw [haccepted] at h
    cases h
    rfl

theorem captured_eq {path : NormalPath} (hne : path.loc ≠ []) (h : ¬ EndsInNewline path.loc) :
    captured path = spell path.loc := by
  rw [captured, substituted_printed, (shown_eq_self_iff hne).mpr h]

/-- Nothing normal lies below the text of the top directory with another slash behind it. -/
theorem parent_ne_nil {target parent : NormalPath} (h : Below (shown parent.loc) target.loc) :
    parent.loc ≠ [] := by
  intro hnil
  rw [hnil] at h
  obtain ⟨r, -, heq⟩ := below_iff_exists.mp h
  have hmem : [] ∈ target.loc := by
    rw [heq]
    exact List.mem_cons_self
  exact (target.proper [] hmem).1 rfl

theorem guarded_of_distinguished {k : Files Text} (h : WellFormed k)
    {target parent : NormalPath} (hlinks : ∀ q, q <+: target.loc → isSymlink k q = false)
    (hd : Distinguished target.loc parent.loc) :
    Guarded k target.loc parent.loc (resetResolved k target parent) := by
  constructor
  · intro hbelow
    rcases resetResolved_cases k target parent with hrefused | haccepted
    · exact hrefused
    · exact absurd (accepted_iff.mp ⟨_, haccepted⟩) (hd.2 hbelow)
  · intro message u hu
    rcases resetResolved_cases k target parent with ⟨m, hrefused⟩ | haccepted
    · rw [hrefused] at hu
      cases hu
      rfl
    · rw [haccepted] at hu
      cases hu
  · intro reset hreset
    have hshown := accepted_iff.mp ⟨reset, hreset⟩
    have hbelow : Below parent.loc target.loc := by
      by_contra hnot
      exact hd.2 hnot hshown
    have hne : target.loc ≠ [] := fun hnil => not_below_nil _ (hnil ▸ hbelow)
    have hline := (hd.1 hbelow (parent_ne_nil hshown)).2
    rw [accepted_reset hreset, captured_eq hne hline]
    exact resetPath_spell h hne target.proper hlinks
  · intro hne hbelow
    apply accepted_iff.mpr
    rwa [(shown_eq_self_iff hne).mpr (hd.1 hbelow hne).1]

theorem makeParent_sound {k : Files Text} {cwd : Loc} (h : WellFormed k) (hc : isDir k cwd)
    (p : Text) : WellFormed (makeParent k cwd p).tree ∧
      ∀ q, k q ≠ none → (makeParent k cwd p).tree q = k q := by
  rw [makeParent]
  split
  · exact ⟨h, fun _ _ => rfl⟩
  · have hstart : isDir k (if isAbsolute p then [] else cwd) := by
      split
      · exact h.top
      · exact hc
    exact ⟨(mkdirP_sound h hstart _).1.evolves.wellFormed, fun q => mkdirP_keeps⟩

theorem contract_of_distinguished {r : Realpath} {cwd : Loc} {k : Files Text} {t p : Text}
    (h : WellFormed k) (hc : isDir k cwd)
    (hd : (makeParent k cwd p).result ≠ none → Distinguished
      (r.resolve (makeParent k cwd p).tree t).loc (r.resolve (makeParent k cwd p).tree p).loc) :
    Contract r cwd k t p := by
  obtain ⟨hwell, hkeep⟩ := makeParent_sound h hc p
  refine ⟨hkeep, ?_⟩
  rw [safeResetDir]
  cases hr : (makeParent k cwd p).result with
  | none => rfl
  | some d =>
    exact guarded_of_distinguished hwell (r.links _ t hwell) (hd (by rw [hr]; simp))

/-- The resolution of paths in a tree without links. -/
def lexical : Realpath where
  resolve k path :=
    let l := (components path).filter (· ≠ [])
    if h : (∀ n ∈ l, Proper n) ∧ ∀ q ∈ l.inits, isSymlink k q = false then ⟨l, h.1⟩
    else ⟨[], fun _ hn => absurd hn List.not_mem_nil⟩
  links k path hwell q hq := by
    dsimp only at hq
    split at hq
    · rename_i h
      exact h.2 q ((List.mem_inits q _).mpr hq)
    · rw [List.prefix_nil.mp hq]
      exact isDir_not_symlink hwell.top

/-- Nothing but the directories that lead to the two locations. -/
def twoPaths (a b : Loc) : Files Text := fun q =>
  if q <+: a ∨ q <+: b then some (.dir 0o755) else none

section TwoPaths

variable {a b q : Loc}

theorem twoPaths_dir (h : q <+: a ∨ q <+: b) : isDir (twoPaths a b) q := by
  rw [isDir, twoPaths, if_pos h]
  rfl

theorem twoPaths_wellFormed (a b : Loc) : WellFormed (twoPaths a b) := by
  refine ⟨twoPaths_dir (.inl List.nil_prefix), fun l n hn => twoPaths_dir ?_⟩
  have hpath : l ++ [n] <+: a ∨ l ++ [n] <+: b := by
    by_contra hno
    exact hn (if_neg hno)
  exact hpath.imp (List.prefix_append l [n]).trans (List.prefix_append l [n]).trans

theorem twoPaths_links (a b q : Loc) : isSymlink (twoPaths a b) q = false := by
  rw [isSymlink, twoPaths]
  split <;> rfl

end TwoPaths

theorem components_printed (path : NormalPath) :
    (components (printed path.loc)).filter (· ≠ []) = path.loc := by
  by_cases hnil : path.loc = []
  · rw [hnil]
    rfl
  · have hall : ∀ n ∈ path.loc, n ≠ [] := fun n hn => (path.proper n hn).1
    rw [printed, if_neg hnil, components_spell hnil path.slashFree]
    simpa using hall

theorem lexical_printed {a b : Loc} (path : NormalPath) :
    lexical.resolve (twoPaths a b) (printed path.loc) = path := by
  obtain ⟨l, hl⟩ := path
  have hcomponents : (components (printed l)).filter (· ≠ []) = l := components_printed ⟨l, hl⟩
  have hlinks : ∀ q ∈ l.inits, isSymlink (twoPaths a b) q = false := fun q _ =>
    twoPaths_links a b q
  simp only [lexical, hcomponents]
  rw [dif_pos ⟨hl, hlinks⟩]

theorem makeParent_printed (target parent : NormalPath) :
    makeParent (twoPaths target.loc parent.loc) [] (printed parent.loc) =
      done (twoPaths target.loc parent.loc) parent.loc := by
  by_cases hnil : parent.loc = []
  · rw [hnil]
    rfl
  · have hwalk : mkdirP (twoPaths target.loc parent.loc) [] ([] :: parent.loc) =
        done (twoPaths target.loc parent.loc) parent.loc := by
      have hdirs := mkdirP_dirs parent.proper
        (fun q hq => twoPaths_dir (a := target.loc) (q := [] ++ q) (.inr hq)) []
      rw [List.append_nil, List.nil_append] at hdirs
      rw [mkdirP, if_pos (.inl rfl), hdirs]
      rfl
    obtain ⟨rest, hslash⟩ : ∃ rest, printed parent.loc = '/' :: rest := by
      obtain ⟨n, l, hcons⟩ := List.exists_cons_of_ne_nil hnil
      exact ⟨n ++ spell l, by rw [hcons]; rfl⟩
    have hoperand : ¬ (printed parent.loc = [] ∨ (printed parent.loc).head? = some '-') := by
      simp [hslash]
    have habsolute : isAbsolute (printed parent.loc) = true := by
      rw [hslash]
      rfl
    rw [makeParent, if_neg hoperand, habsolute, if_pos rfl, printed, if_neg hnil,
      components_spell hnil parent.slashFree, hwalk]

theorem guarded_twoPaths {target parent : NormalPath}
    (h : Contract lexical [] (twoPaths target.loc parent.loc) (printed target.loc)
      (printed parent.loc)) :
    Guarded (twoPaths target.loc parent.loc) target.loc parent.loc
      (resetResolved (twoPaths target.loc parent.loc) target parent) := by
  have hmade := makeParent_printed target parent
  have hguarded := h.2
  rw [safeResetDir, hmade] at hguarded
  dsimp only [done] at hguarded
  rwa [lexical_printed, lexical_printed] at hguarded

theorem resetPath_removed (k : Files Text) (path : Text) :
    (resetPath k path).removed = (rmRf k path).getD k := by
  rw [resetPath]
  cases rmRf k path <;> rfl

theorem directoryAt_dirs {k : Files Text} {l : Loc} (hp : ∀ n ∈ l, Proper n)
    (hd : ∀ q, q <+: l → isDir k q) : directoryAt k l = some l := by
  have hdirect : Direct k l :=
    ⟨fun q hq => isDir_not_symlink (hd q hq), fun _ q hq => .inr (hd q hq)⟩
  exact directoryAt_direct hp hdirect (hd l List.prefix_rfl)

section Newline

variable {k : Files Text} {xs : Loc} {n : Text}

/-- Behind a directory, a slash is no name. -/
theorem rmRf_slash (hxs : xs ≠ []) (hp : ∀ m ∈ xs, Proper m) (hd : ∀ q, q <+: xs → isDir k q) :
    rmRf k (spell (xs ++ [[]])) = some (remove k xs) := by
  obtain ⟨ys, y, rfl⟩ := (List.eq_nil_or_concat xs).resolve_left hxs
  rw [List.concat_eq_append] at *
  obtain ⟨hne, hdot, hdotdot, -⟩ := hp y (by simp)
  have hcomponents : components (spell (ys ++ [y] ++ [[]])) = ([] :: ys) ++ [y] ++ [[]] := by
    apply components_spell (by simp)
    intro m hm
    rcases List.mem_append.mp hm with hm | hm
    · exact (hp m hm).2.2.2
    · rw [List.mem_singleton.mp hm]
      exact List.not_mem_nil
  have hnames : (([] :: ys) ++ [y] ++ [[]]).rdropWhile (· = []) = ([] :: ys) ++ [y] := by
    rw [List.rdropWhile_concat_pos _ _ _ (by simp), List.rdropWhile_concat_neg _ _ _
      (by simpa using hne)]
  have hys : directoryAt k ys = some ys :=
    directoryAt_dirs (fun m hm => hp m (List.mem_append_left _ hm))
      fun q hq => hd q (hq.trans (List.prefix_append ys [y]))
  rw [rmRf, hcomponents, hnames, List.getLast?_concat, List.dropLast_concat, directoryAt_slash,
    hys]
  dsimp only
  rw [if_neg (by simp [hdot, hdotdot]), if_neg]
  rintro ⟨-, hnodir⟩
  rw [hd _ List.prefix_rfl] at hnodir
  cases hnodir

theorem rmRf_dots (hp : ∀ m ∈ xs, '/' ∉ m) (hn : n = ['.'] ∨ n = ['.', '.']) :
    rmRf k (spell (xs ++ [n])) = none := by
  have hslash : '/' ∉ n ∧ n ≠ [] := by
    rcases hn with rfl | rfl <;> decide
  rw [rmRf_concat _ hslash.2, if_pos hn]
  intro m hm
  rcases List.mem_append.mp hm with hm | hm
  · exact hp m hm
  · exact List.mem_singleton.mp hm ▸ hslash.1

theorem rmRf_name (hp : ∀ m ∈ xs ++ [n], Proper m) (hd : ∀ q, q <+: xs → isDir k q) :
    rmRf k (spell (xs ++ [n])) = some (remove k (xs ++ [n])) := by
  have hdirectory := directoryAt_dirs (fun m hm => hp m (List.mem_append_left _ hm)) hd
  rw [rmRf_proper hp, hdirectory, Option.elim_some]

theorem proper_trimmed {n : Text} (hp : Proper n) (hnil : n.rdropWhile (· = '\n') ≠ [])
    (hdots : ¬ (n.rdropWhile (· = '\n') = ['.'] ∨ n.rdropWhile (· = '\n') = ['.', '.'])) :
    Proper (n.rdropWhile (· = '\n')) := by
  rw [not_or] at hdots
  refine ⟨hnil, hdots.1, hdots.2, fun hslash => ?_⟩
  exact hp.2.2.2 ((List.rdropWhile_prefix _ n).subset hslash)

/-- The commands behind the guard miss a target whose last name ends in a newline. -/
theorem removed_ne_of_newline (hxs : xs ≠ []) (hp : ∀ m ∈ xs ++ [n], Proper m)
    (hd : ∀ q, q <+: xs ++ [n] → isDir k q) (hline : EndsInNewline (xs ++ [n])) :
    (resetPath k (spell (shown (xs ++ [n])))).removed ≠ remove k (xs ++ [n]) := by
  have hfront : ∀ q, q <+: xs → isDir k q := fun q hq => hd q (hq.trans (List.prefix_append xs [n]))
  have hxs' : ∀ m ∈ xs, Proper m := fun m hm => hp m (List.mem_append_left _ hm)
  have hexists : k (xs ++ [n]) ≠ none := isDir_exists (hd _ List.prefix_rfl)
  have hchanged : n.rdropWhile (· = '\n') ≠ n := by
    intro heq
    apply (shown_eq_self_iff (by simp)).mp _ hline
    rw [shown_concat, heq]
  rw [shown_concat, resetPath_removed]
  generalize hm : n.rdropWhile (· = '\n') = m at *
  intro heq
  have hgone : remove k (xs ++ [n]) (xs ++ [n]) = none := remove_at List.prefix_rfl
  by_cases hnil : m = []
  · rw [hnil, rmRf_slash hxs hxs' hfront] at heq
    have hdir := congrFun heq xs
    have hkept : remove k (xs ++ [n]) xs = k xs := by
      apply remove_other
      exact not_child_prefix xs n
    rw [hkept, Option.getD_some, remove_at List.prefix_rfl] at hdir
    exact isDir_exists (hfront xs List.prefix_rfl) hdir.symm
  by_cases hdots : m = ['.'] ∨ m = ['.', '.']
  · rw [rmRf_dots (fun m hm => (hxs' m hm).2.2.2) hdots] at heq
    have hat := congrFun heq (xs ++ [n])
    rw [hgone] at hat
    exact hexists hat
  · have hproper : ∀ q ∈ xs ++ [m], Proper q := by
      intro q hq
      rcases List.mem_append.mp hq with hq | hq
      · exact hxs' q hq
      · rw [List.mem_singleton.mp hq, ← hm]
        exact proper_trimmed (hp n (by simp)) (hm ▸ hnil) (hm ▸ hdots)
    rw [rmRf_name hproper hfront] at heq
    have hat := congrFun heq (xs ++ [n])
    have hkept : remove k (xs ++ [m]) (xs ++ [n]) = k (xs ++ [n]) := by
      apply remove_other
      intro hpre
      have hsame := hpre.eq_of_length (by simp)
      exact hchanged (by simpa using hsame)
    rw [Option.getD_some, hkept, hgone] at hat
    exact hexists hat

end Newline

/-- An accepted target that ends in a newline is not what is removed. -/
theorem not_newline_of_guarded {target parent : NormalPath}
    (g : Guarded (twoPaths target.loc parent.loc) target.loc parent.loc
      (resetResolved (twoPaths target.loc parent.loc) target parent))
    (hbelow : Below parent.loc target.loc) (hne : parent.loc ≠ []) :
    ¬ EndsInNewline target.loc := by
  intro hline
  obtain ⟨xs, n, hlast⟩ := (List.eq_nil_or_concat target.loc).resolve_left
    fun hnil => not_below_nil _ (hnil ▸ hbelow)
  rw [List.concat_eq_append] at hlast
  have hxs : xs ≠ [] := by
    rintro rfl
    rw [hlast] at hbelow
    rcases List.prefix_concat_iff.mp hbelow.1 with heq | hnil
    · exact hbelow.2 heq
    · exact hne (List.prefix_nil.mp hnil)
  have hdirs : ∀ q, q <+: xs ++ [n] → isDir (twoPaths target.loc parent.loc) q := fun q hq =>
    twoPaths_dir (.inl (hlast ▸ hq))
  have hproper : ∀ m ∈ xs ++ [n], Proper m := fun m hm => target.proper m (hlast ▸ hm)
  obtain ⟨reset, hreset⟩ := g.accepts hne hbelow
  have hremoved := (g.exact reset hreset).1
  rw [accepted_reset hreset, captured, substituted_printed, hlast] at hremoved
  rw [hlast] at hline hdirs
  exact removed_ne_of_newline hxs hproper hdirs hline hremoved

theorem distinguished_of_guarded {target parent : NormalPath}
    (g : Guarded (twoPaths target.loc parent.loc) target.loc parent.loc
      (resetResolved (twoPaths target.loc parent.loc) target parent)) :
    Distinguished target.loc parent.loc := by
  constructor
  · intro hbelow hne
    obtain ⟨reset, hreset⟩ := g.accepts hne hbelow
    have hshown := accepted_iff.mp ⟨reset, hreset⟩
    have hsame : shown parent.loc = parent.loc :=
      (List.prefix_of_prefix_length_le hshown.1 hbelow.1 (shown_length hne).le).eq_of_length
        (shown_length hne)
    exact ⟨(shown_eq_self_iff hne).mp hsame, not_newline_of_guarded g hbelow hne⟩
  · intro hnot hshown
    obtain ⟨message, hrefused⟩ := g.refuses hnot
    obtain ⟨reset, hreset⟩ := accepted_iff.mpr hshown
    rw [hrefused] at hreset
    cases hreset

/-- For two resolved paths, the guard is right in every file system exactly when their texts keep
them apart. -/
theorem deletion_contract_iff (target parent : NormalPath) :
    (∀ r cwd k t p, WellFormed k → isDir k cwd →
      ((makeParent k cwd p).result ≠ none → r.resolve (makeParent k cwd p).tree t = target ∧
        r.resolve (makeParent k cwd p).tree p = parent) → Contract r cwd k t p) ↔
      Distinguished target.loc parent.loc := by
  constructor
  · intro h
    apply distinguished_of_guarded
    apply guarded_twoPaths
    apply h lexical [] _ _ _ (twoPaths_wellFormed _ _) (twoPaths_dir (.inl List.nil_prefix))
    intro _
    rw [makeParent_printed]
    exact ⟨lexical_printed target, lexical_printed parent⟩
  · intro hd r cwd k t p hwell hcwd hresolved
    apply contract_of_distinguished hwell hcwd
    intro hmade
    obtain ⟨htarget, hparent⟩ := hresolved hmade
    rwa [htarget, hparent]

def rockBuild : NormalPath := ⟨["build".toList, "rock".toList], by decide⟩

/-- A directory beside `/build`. -/
def lineBuild : NormalPath := ⟨["build\n".toList], by decide⟩

theorem contract_misled : ¬ ∀ r cwd k t p, WellFormed k → isDir k cwd → Contract r cwd k t p := by
  intro h
  have hcontract := h lexical [] (twoPaths rockBuild.loc lineBuild.loc) (printed rockBuild.loc)
    (printed lineBuild.loc) (twoPaths_wellFormed _ _) (twoPaths_dir (.inl List.nil_prefix))
  have hnot : ¬ Below lineBuild.loc rockBuild.loc := by decide
  have hshown : Below (shown lineBuild.loc) rockBuild.loc := by decide
  obtain ⟨message, hrefused⟩ := (guarded_twoPaths hcontract).refuses hnot
  obtain ⟨reset, hreset⟩ := accepted_iff.mpr hshown
  rw [hrefused] at hreset
  cases hreset

end DeletionGuard
