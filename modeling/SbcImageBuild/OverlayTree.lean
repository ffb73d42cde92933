import SbcImageBuild.OverlayText
import SbcImageBuild.Foundation.Reaching

/-!
# Applying overlay trees

`apply_rootfs_overlay_tree` copies the files and symbolic links of an overlay into the staged root
file system; `apply_debian_board_overlay` and `run_debian_overlay_plugins` apply the overlay of the
board and those selected for the image, one after another.
-/
namespace OverlayTree

open Delimited ShellText OverlayText FileTree FileCommands Reaching

abbrev RootTree := Files Text

/-- The shell that applies the overlays. -/
structure Shell where
  vars : Variables
  tokenOrder : TokenOrder
  workDir : Loc
  rounds : ℕ
  linkOptions : LinkOptions Text

inductive Source where
  | file (content : Text) (mode : ℕ)
  | symlink (target : Text)
  deriving DecidableEq

def Source.node : Source → Node Text
  | .file content mode => .file content mode
  | .symlink target => .symlink target

/-- A file or link found in an overlay, with its path relative to the overlay. The overlay is no
part of the tree that is written to. -/
structure Entry where
  rel : Text
  source : Source
  deriving DecidableEq

/-- A destination as `dirname` and the commands see it. Both pass over the slashes behind a name. -/
structure Destination where
  parents : List Text
  last : Last
  deriving DecidableEq

def destination (root : Loc) (rel : Text) : Destination :=
  let path := root ++ components rel
  let stripped := path.rdropWhile (· = [])
  ⟨stripped.dropLast.rdropWhile (· = []), stripped.getLastD ['.'], path.getLast? = some []⟩

/-- What is done at a destination. -/
inductive Action where
  | link (target : Text)
  | template (content : Text) (mode : ℕ)
  | copy (name content : Text) (mode : ℕ)
  deriving DecidableEq

/-- `ln` takes the target of a link for what it is. -/
def Action.Operand : Action → Prop
  | .link target => ¬ IsOption target
  | .template _ _ => True
  | .copy _ _ _ => True

def clearOtherWrite (mode : ℕ) : ℕ := mode / 4 * 4 + mode % 2

def runAction (sh : Shell) (t : RootTree) (d : Loc) (x : Last) : Action → Outcome Text Unit
  | .link target => lnSfn sh.linkOptions t sh.workDir d x target
  | .template content mode =>
    (redirect t d x
      (expandOverlayTemplateText sh.vars sh.tokenOrder (fileText content))).andThen
      fun _ t => (chmod t d x fun _ => mode).andThen
      fun _ t => (chmod t d x clearOtherWrite).ignoreFailure
  | .copy name content mode =>
    (cpA t d x name content mode).andThen
      fun _ t => (chmod t d x clearOtherWrite).ignoreFailure

/-- The output of `dirname`. -/
def Destination.dirname (dest : Destination) : List Text :=
  components (commandOutput (join '/' dest.parents))

/-- The commands after `mkdir -p` find the directory of the destination by themselves. -/
def install (sh : Shell) (t : RootTree) (dest : Destination) (a : Action) : Outcome Text Unit :=
  (mkdirP t [] dest.dirname).andThen fun _ t =>
    match directoryAt t dest.parents with
    | some d => runAction sh t d dest.last a
    | none => fail t

def actionOf (e : Entry) (rel : Text) : Text × Action :=
  match e.source with
  | .symlink target => (rel, .link (commandOutput target))
  | .file content mode =>
    if ".in".toList <:+ rel then (rel.rdrop 3, .template content mode)
    else (rel, .copy ((components e.rel).getLastD []) content mode)

/-- One round of the loop over the files and links of an overlay. -/
def applyEntry (sh : Shell) (root : Loc) (t : RootTree) (e : Entry) : Outcome Text Unit :=
  if e.rel = [] then done t ()
  else match interpolatedPath sh.vars sh.rounds e.rel with
    | .skipped => done t ()
    | .endless => fail t
    | .path rel => install sh t (destination root (actionOf e rel).1) (actionOf e rel).2

def applyRootfsOverlayTree (sh : Shell) (root : Loc) : List Entry → RootTree → Outcome Text Unit
  | [], t => done t ()
  | e :: es, t => (applyEntry sh root t e).andThen fun _ t => applyRootfsOverlayTree sh root es t

/-- A root file system staged in a directory of the container. -/
structure Staged (root : Loc) where
  tree : RootTree
  wellFormed : WellFormed tree
  below : root ≠ []
  names : ∀ n ∈ root, Proper n ∧ '\n' ∉ n
  dir : isDir tree root

/-- What is staged stays staged. -/
def Staged.after {root : Loc} (s : Staged root) {u : RootTree} (h : Evolves s.tree u) :
    Staged root :=
  ⟨u, h.wellFormed, s.below, s.names, h.dirs root s.dir⟩

/-- `mkdir -p` of a path below the root starts there. -/
theorem Staged.mkdirP_root {root : Loc} (s : Staged root) (ps : List Text) :
    mkdirP s.tree [] (root ++ ps) = mkdirP s.tree root ps := by
  refine mkdirP_dirs (fun n hn => (s.names n hn).1) (fun q hq => ?_) ps
  rcases s.wellFormed.prefix_dir hq (isDir_exists s.dir) with rfl | hdir
  · exact s.dir
  · exact hdir

theorem Staged.names_nonempty {root : Loc} (s : Staged root) : ∀ n ∈ root, n ≠ [] :=
  fun n hn => (s.names n hn).1.1

theorem Staged.resolve_root {root : Loc} (s : Staged root) (ps : List Text) :
    resolve s.tree [] (root ++ ps) = resolve s.tree root ps := by
  refine resolve_dirs (fun n hn => (s.names n hn).1) (fun q hq => ?_) ps
  rcases s.wellFormed.prefix_dir hq (isDir_exists s.dir) with rfl | hdir
  · exact s.dir
  · exact hdir

theorem commandOutput_line {t : Text} (h : '\n' ∉ t) : commandOutput t = t := by
  rw [commandOutput, List.rdropWhile_eq_self_iff]
  intro hne hlast
  exact h (of_decide_eq_true hlast ▸ List.getLast_mem hne)

theorem components_join {ps : List Text} (hne : ps ≠ []) (h : Free '/' ps) :
    components (join '/' ps) = ps :=
  List.splitOn_intercalate '/' h hne

/-- `dirname` is the directory of a destination unless its name ends in a newline. -/
theorem dirname_eq {dest : Destination} (hne : dest.parents ≠ []) (h : Free '/' dest.parents)
    (hline : commandOutput (join '/' dest.parents) = join '/' dest.parents) :
    dest.dirname = dest.parents := by
  rw [Destination.dirname, hline, components_join hne h]

theorem rdropWhile_append {α : Type} {p : α → Bool} {xs ys : List α}
    (h : ys.rdropWhile p ≠ []) : (xs ++ ys).rdropWhile p = xs ++ ys.rdropWhile p := by
  have hne : ys.reverse.dropWhile p ≠ [] := fun heq => h (by rw [List.rdropWhile, heq]; rfl)
  rw [List.rdropWhile, List.reverse_append, List.dropWhile_append, if_neg (by simpa using hne)]
  simp [List.rdropWhile]

theorem rdropWhile_append_kept {α : Type} {p : α → Bool} {xs : List α}
    (h : xs.rdropWhile p = xs) (ys : List α) :
    (xs ++ ys).rdropWhile p = xs ++ ys.rdropWhile p := by
  by_cases hys : ys.rdropWhile p = []
  · have hall := List.rdropWhile_eq_nil_iff.mp hys
    have hdrop : ys.reverse.dropWhile p = [] :=
      List.dropWhile_eq_nil_iff.mpr fun x hx => hall x (List.mem_reverse.mp hx)
    rw [hys, List.append_nil, List.rdropWhile, List.reverse_append, List.dropWhile_append, hdrop]
    exact h
  · exact rdropWhile_append hys

/-- There is no slash behind the root. -/
theorem root_rdropWhile {root : Loc} (h : ∀ n ∈ root, n ≠ []) (ps : List Text) :
    (root ++ ps).rdropWhile (· = []) = root ++ ps.rdropWhile (· = []) := by
  apply rdropWhile_append_kept
  rw [List.rdropWhile_eq_self_iff]
  intro hne hlast
  exact h _ (List.getLast_mem hne) (of_decide_eq_true hlast)

/-- A relative path that names something: its parents are below the root, and its last name is
its last nonempty component. -/
theorem destination_below {root : Loc} (hroot : ∀ n ∈ root, n ≠ []) {rel : Text}
    (h : ∃ c ∈ components rel, c ≠ []) :
    ∃ ps b, (components rel).rdropWhile (· = []) = ps ++ [b] ∧
      (destination root rel).parents = root ++ ps.rdropWhile (· = []) ∧
      (destination root rel).last.base = b := by
  obtain ⟨c, hc, hne⟩ := h
  have hkept : (components rel).rdropWhile (fun c => decide (c = [])) ≠ [] := by
    rw [Ne, List.rdropWhile_eq_nil_iff]
    exact fun hall => hne (by simpa using hall c hc)
  rcases List.eq_nil_or_concat ((components rel).rdropWhile (fun c => decide (c = [])))
    with hnil | ⟨ps, b, heq⟩
  · exact absurd hnil hkept
  · rw [List.concat_eq_append] at heq
    refine ⟨ps, b, heq, ?_, ?_⟩
    · rw [destination, root_rdropWhile hroot, heq, ← List.append_assoc, List.dropLast_concat,
        root_rdropWhile hroot]
    · rw [destination, root_rdropWhile hroot, heq, ← List.append_assoc]
      simp

theorem isDir_withDirs {t : RootTree} {cur : Loc} {cs q : List Text} (pass : Passable t cur cs)
    (hq : q <+: cs) : isDir (withDirs t cur cs) (cur ++ q) := by
  rcases pass q hq with hnone | hdir
  · have hpre : cur ++ q <+: cur ++ cs := by rwa [List.prefix_append_right_inj]
    rw [isDir, withDirs, if_pos ⟨hnone, List.prefix_append cur q, hpre⟩]
    rfl
  · exact (withDirs_grows t cur cs).isDir hdir

/-- The missing directories of a passable destination are made, and then the last commands run
in the directory that its names spell. -/
theorem install_made {root : Loc} (s : Staged root) (sh : Shell) {ps : List Text}
    (hup : ['.', '.'] ∉ ps) (hslash : ∀ c ∈ ps, '/' ∉ c)
    (pass : Passable s.tree root (names ps))
    (hline : commandOutput (join '/' (root ++ ps)) = join '/' (root ++ ps)) (x : Last)
    (a : Action) :
    let u := withDirs s.tree root (names ps)
    let o := runAction sh u (root ++ names ps) x a
    WellFormed u ∧ isDir u (root ++ names ps) ∧
      (install sh s.tree ⟨root ++ ps, x⟩ a).tree = o.tree ∧
      (install sh s.tree ⟨root ++ ps, x⟩ a).result = o.result := by
  have hfree : Free '/' (root ++ ps) := by
    intro n hn
    rcases List.mem_append.mp hn with hn | hn
    · exact (s.names n hn).1.2.2.2
    · exact hslash n hn
  have hdirname : Destination.dirname ⟨root ++ ps, x⟩ = root ++ ps :=
    dirname_eq (fun hnil => s.below (List.append_eq_nil_iff.mp hnil).1) hfree hline
  obtain ⟨htree, hresult⟩ := mkdirP_passable s.wellFormed s.dir (names_proper hup hslash) pass
  have made := (mkdirP_sound s.wellFormed s.dir (names ps)).1.evolves
  rw [htree] at made
  have hdir : isDir (withDirs s.tree root (names ps)) (root ++ names ps) :=
    isDir_withDirs pass List.prefix_rfl
  have hfound : directoryAt (withDirs s.tree root (names ps)) (root ++ ps) =
      some (root ++ names ps) := by
    apply directoryAt_eq_some.mpr
    refine ⟨((s.after made).resolve_root ps).trans ?_, hdir⟩
    exact resolve_names hup fun q hq => isDir_withDirs pass hq
  refine ⟨made.wellFormed, hdir, ?_⟩
  rw [install, hdirname, s.mkdirP_root, mkdirP_names, Outcome.andThen, hresult]
  simp only [htree, hfound, and_self]

theorem applyRootfsOverlayTree_append (sh : Shell) (root : Loc) (es fs : List Entry)
    (t : RootTree) : applyRootfsOverlayTree sh root (es ++ fs) t =
      (applyRootfsOverlayTree sh root es t).andThen fun _ t =>
        applyRootfsOverlayTree sh root fs t := by
  induction es generalizing t with
  | nil => rfl
  | cons e es ih =>
    rw [List.cons_append, applyRootfsOverlayTree, applyRootfsOverlayTree, andThen_assoc]
    congr 1
    funext _ t
    exact ih t

theorem chmod_sound_after (t : RootTree) {u : RootTree} (x : Last) (f : ℕ → ℕ) {d : Loc}
    (hd : isDir t d) (h : Evolves t u) : Sound u (chmod u d x f) :=
  chmod_sound h.wellFormed (h.dirs d hd)

theorem runAction_sound (sh : Shell) {t : RootTree} (h : WellFormed t) {d : Loc}
    (hd : isDir t d) (x : Last) (a : Action) : Sound t (runAction sh t d x a) := by
  cases a with
  | link target => exact lnSfn_sound h hd
  | template content mode =>
    rw [runAction]
    refine andThen_evolves (redirect_sound h hd) fun _ u hu => ?_
    have first := chmod_sound_after t x (fun _ => mode) hd hu
    refine andThen_evolves first fun _ v hv => ?_
    exact ignoreFailure_sound (chmod_sound_after t x clearOtherWrite hd (hu.trans hv))
  | copy name content mode =>
    rw [runAction]
    refine andThen_evolves (cpA_sound h hd) fun _ u hu => ?_
    exact ignoreFailure_sound (chmod_sound_after t x clearOtherWrite hd hu)

theorem install_sound (sh : Shell) {t : RootTree} (h : WellFormed t) (dest : Destination)
    (a : Action) : Sound t (install sh t dest a) := by
  have made := (mkdirP_sound h h.top dest.dirname).1
  refine andThen_sound made fun _ _ => ?_
  split
  · rename_i d hd
    exact runAction_sound sh made.evolves.wellFormed (directoryAt_dir hd) _ a
  · exact fail_sound made.evolves.wellFormed

theorem applyEntry_sound (sh : Shell) (root : Loc) {t : RootTree} (h : WellFormed t)
    (e : Entry) : Sound t (applyEntry sh root t e) := by
  unfold applyEntry
  split
  · exact done_sound h ()
  · split
    · exact done_sound h ()
    · exact fail_sound h
    · exact install_sound sh h _ _

theorem applyRootfsOverlayTree_sound (sh : Shell) (root : Loc) (es : List Entry) {t : RootTree}
    (h : WellFormed t) : Sound t (applyRootfsOverlayTree sh root es t) := by
  induction es generalizing t with
  | nil => exact done_sound h ()
  | cons e es ih =>
    have first := applyEntry_sound sh root h e
    exact andThen_sound first fun _ _ => ih first.evolves.wellFormed

/-- A shell without variables in `/project`, where no argument is an option that `ln` knows, and a
root staged in `/build/root`. -/
def exampleShell : Shell :=
  { vars := fun _ => []
    tokenOrder := ⟨tokenNames, .refl _⟩
    workDir := ["project".toList]
    rounds := 1
    linkOptions := ⟨fun t _ _ _ _ => fail t, fun _ _ _ _ _ h => fail_sound h⟩ }

def exampleRoot : Loc := ["build".toList, "root".toList]

theorem exampleRoot_below : exampleRoot ≠ [] := by decide

theorem exampleRoot_names : ∀ n ∈ exampleRoot, Proper n ∧ '\n' ∉ n := by decide

end OverlayTree
