import SbcImageBuild.OverlayTree

/-!
# What an overlay writes

Where the commands of an overlay write, and when all of that is below the staged root.
-/
namespace OverlayContainment

open Delimited ShellText OverlayText FileTree FileCommands OverlayTree

/-- The places that the last commands of an entry act on, as the kernel resolves the destination
in the tree they find. -/
def actionPlaces (sh : Shell) (t : RootTree) (d : Loc) (x : Last) : Action → List Loc
  | .link target =>
    if IsOption target then (sh.linkOptions.run t sh.workDir d x target).written
    else (linkPlace t sh.workDir d x target).toList
  | .template _ _ => (redirectPlace t d x).toList
  | .copy name _ _ =>
    match copyPlace t d x name with
    | some l => l :: (chmodPlace t d x).toList
    | none => []

/-- The part of an entry's commands that a walk belongs to: the way to its directory, its last
component, or the directory that this turns out to be. -/
inductive Part where
  | parents
  | last
  | inside
  deriving DecidableEq

/-- A position of a walk, or a link that an entry may make. -/
inductive Mark where
  | walk (part : Part) (l : Loc) (cs : List Text)
  | link (l : Loc) (target : Text)

/-- What is done for an entry and where, unless it is left out. -/
def Installs (sh : Shell) (root : Loc) (e : Entry) (dest : Destination) (a : Action) : Prop :=
  e.rel ≠ [] ∧ ∃ rel, interpolatedPath sh.vars sh.rounds e.rel = .path rel ∧
    destination root (actionOf e rel).1 = dest ∧ (actionOf e rel).2 = a

/-- The commands look the last component up, except that `ln -n` leaves a plain name alone. -/
def Follows : Action → Last → Prop
  | .link _, x => ¬ x.Plain
  | .template _ _, _ => True
  | .copy _ _ _, _ => True

/-- Where the commands of an entry may come to, with the links of the tree `t` and with those that
the entries before it may have made. Names that are missing may be made on the way. -/
inductive Visits (sh : Shell) (root : Loc) (t : RootTree) : List Entry → Entry → Mark → Prop where
  | start {es e dest a} : Installs sh root e dest a →
      Visits sh root t es e (.walk .parents root (dest.parents.drop root.length))
  | last {es e dest a l} : Visits sh root t es e (.walk .parents l []) →
      Installs sh root e dest a → Follows a dest.last →
      Visits sh root t es e (.walk .last l dest.last.path)
  | inside {es e dest l name content mode} : Visits sh root t es e (.walk .last l []) →
      Installs sh root e dest (.copy name content mode) →
      Visits sh root t es e (.walk .inside l [name])
  | stay {es e part l c cs} : Visits sh root t es e (.walk part l (c :: cs)) →
      c = [] ∨ c = ['.'] → Visits sh root t es e (.walk part l cs)
  | up {es e part l cs} : Visits sh root t es e (.walk part l (['.', '.'] :: cs)) →
      Visits sh root t es e (.walk part l.dropLast cs)
  | down {es e part l c cs} : Visits sh root t es e (.walk part l (c :: cs)) → Named c →
      isSymlink t (l ++ [c]) = false → Visits sh root t es e (.walk part (l ++ [c]) cs)
  | link {es e part l c cs target} : Visits sh root t es e (.walk part l (c :: cs)) → Named c →
      t (l ++ [c]) = some (.symlink target) → Visits sh root t es e
        (.walk part (if isAbsolute target then [] else l) (components target ++ cs))
  | made {es f fs e part l c cs target} : Visits sh root t es f (.link (l ++ [c]) target) →
      Visits sh root t (es ++ f :: fs) e (.walk part l (c :: cs)) → Named c →
      Visits sh root t (es ++ f :: fs) e
        (.walk part (if isAbsolute target then [] else l) (components target ++ cs))
  | place {es e dest target l} : Visits sh root t es e (.walk .parents l []) →
      Installs sh root e dest (.link target) → dest.last.Plain →
      Visits sh root t es e (.link (l ++ [dest.last.base]) target)
  | within {es e dest target l} : Visits sh root t es e (.walk .parents l []) →
      Installs sh root e dest (.link target) → dest.last.Plain →
      Visits sh root t es e (.link (l ++ [dest.last.base, lastName target]) target)
  | under {es e dest target l} : Visits sh root t es e (.walk .last l []) →
      Installs sh root e dest (.link target) →
      Visits sh root t es e (.link (l ++ [lastName target]) target)

/-- A walk may pass directories outside of the root, but it must not end there. -/
def Mark.Inside (root : Loc) (t : RootTree) : Mark → Prop
  | .walk part l cs => root <+: l ∨ isDir t l ∧ (part = .parents ∨ cs ≠ [])
  | .link l _ => root <+: l

/-- A destination below the root, in a directory whose name `dirname` gives back. -/
structure Destined (root : Loc) (dest : Destination) (a : Action) : Prop where
  below : root <+: dest.parents
  line : commandOutput (join '/' dest.parents) = join '/' dest.parents
  operand : a.Operand

/-- Whatever may be visited on behalf of an overlay is inside the root. -/
structure Contained (sh : Shell) (root : Loc) (t : RootTree) (es : List Entry) : Prop where
  destined : ∀ e ∈ es, ∀ dest a, Installs sh root e dest a → Destined root dest a
  visits : ∀ earlier e later, es = earlier ++ e :: later →
    ∀ m, Visits sh root t earlier e m → m.Inside root t

section Places

variable {sh : Shell} {t : RootTree} {d : Loc} {x : Last}

/-- After a file was written where a redirection goes, the destination leads to it. -/
theorem resolve_redirected (content : Text) (mode : ℕ) {l : Loc} (h : WellFormed t)
    (hd : isDir t d) (hl : redirectPlace t d x = some l) :
    resolve (put t l (.file content mode)) d x.path = .found l := by
  have place := redirectPlace_file h hd hl
  rw [resolve_put_file place.1.2 place.2]
  rcases redirectPlace_cases hl with ⟨hr, -⟩ | ⟨q, n, hr, rfl⟩
  · rw [hr]
    rfl
  · simp [hr, Resolved.onceWritten]

/-- It still does when the file is written again. -/
theorem resolve_rewritten (content' : Text) (mode' : ℕ) {u : RootTree} {l : Loc} {content : Text}
    {mode : ℕ} (hr : resolve u d x.path = .found l) (hl : u l = some (.file content mode)) :
    resolve (put u l (.file content' mode')) d x.path = .found l := by
  rw [resolve_put_file (by simp [isDir, hl, Node.isDir]) (by simp [isSymlink, hl, Node.isSymlink]),
    hr]
  rfl

theorem chmod_found_file {u : RootTree} {l : Loc} {f : ℕ → ℕ} {content : Text} {mode : ℕ}
    (hr : resolve u d x.path = .found l) (hl : u l = some (.file content mode)) :
    chmod u d x f = write u l (.file content (f mode)) := by
  simp [chmod, chmodPlace, hr, hl]

theorem chmod_found_dir {u : RootTree} {l : Loc} {f : ℕ → ℕ} {mode : ℕ}
    (hr : resolve u d x.path = .found l) (hl : u l = some (.dir mode)) :
    chmod u d x f = write u l (.dir (f mode)) := by
  simp [chmod, chmodPlace, hr, hl]

theorem template_written (h : WellFormed t) (hd : isDir t d) (content : Text) (mode : ℕ)
    (l : Loc) : l ∈ (runAction sh t d x (.template content mode)).written ↔
      l ∈ actionPlaces sh t d x (.template content mode) := by
  rw [runAction, actionPlaces]
  generalize expandOverlayTemplateText sh.vars sh.tokenOrder (fileText content) = text
  cases hl : redirectPlace t d x with
  | none => simp [redirect, hl, fail, Outcome.andThen]
  | some q =>
    obtain ⟨m, hw⟩ := redirect_write text hl
    have first := resolve_redirected text m h hd hl
    have second := resolve_rewritten text mode first (put_self _ _ _)
    rw [hw, write_andThen, chmod_found_file first (put_self _ _ _), write_andThen,
      chmod_found_file second (put_self _ _ _)]
    simp [Outcome.ignoreFailure, write]

theorem copy_written (h : WellFormed t) (hd : isDir t d) (name content : Text) (mode : ℕ)
    (l : Loc) : l ∈ (runAction sh t d x (.copy name content mode)).written ↔
      l ∈ actionPlaces sh t d x (.copy name content mode) := by
  rw [runAction, actionPlaces, cpA]
  cases hl : copyPlace t d x name with
  | none => simp [fail, Outcome.andThen]
  | some q =>
    have place := copyPlace_file h hd hl
    have after : resolve (put t q (.file content mode)) d x.path =
        (resolve t d x.path).onceWritten q := resolve_put_file place.1.2 place.2 d x.path
    dsimp only
    rw [write_andThen, chmodPlace]
    unfold copyPlace overwritePlace at hl
    cases hr : resolve t d x.path with
    | found r =>
      rw [hr] at after
      rcases eq_or_ne r q with rfl | hne
      · rw [chmod_found_file after (put_self _ _ _)]
        simp [Outcome.ignoreFailure, write]
      · have hdir : isDir t r := by
          by_contra hnot
          simp [hr, hnot, hne] at hl
        obtain ⟨m, hm⟩ := isDir_iff.mp hdir
        rw [chmod_found_dir after (by rw [put_other hne, hm])]
        simp [Outcome.ignoreFailure, write]
    | absent r n =>
      obtain ⟨-, rfl⟩ : t (d ++ [x.base]) = none ∧ r ++ [n] = q := by simpa [hr] using hl
      rw [hr, Resolved.onceWritten, if_pos rfl] at after
      rw [chmod_found_file after (put_self _ _ _)]
      simp [Outcome.ignoreFailure, write]
    | failed => simp [hr] at hl

theorem runAction_written (sh : Shell) (x : Last) (h : WellFormed t) (hd : isDir t d)
    (a : Action) (l : Loc) :
    l ∈ (runAction sh t d x a).written ↔ l ∈ actionPlaces sh t d x a := by
  cases a with
  | link target =>
    rw [runAction, actionPlaces, lnSfn]
    split
    · exact Iff.rfl
    · cases linkPlace t sh.workDir d x target with
      | none => simp [fail]
      | some q => simp [write]
  | template content mode => exact template_written h hd content mode l
  | copy name content mode => exact copy_written h hd name content mode l

end Places

section Entries

variable {sh : Shell} {root d : Loc} {t u v : RootTree} {earlier : List Entry} {e : Entry}
  {dest : Destination} {x : Last} {a : Action}

/-- In this tree the walks of all further entries keep to what may be visited. -/
def Followed (sh : Shell) (root : Loc) (t : RootTree) (earlier : List Entry) (u : RootTree) :
    Prop :=
  ∀ later e part, Closed u fun l cs => Visits sh root t (earlier ++ later) e (.walk part l cs)

theorem followed_start : Followed sh root t [] t := fun _ _ _ =>
  ⟨.stay, .up, .down, .link⟩

theorem Followed.congr (h : Followed sh root t earlier u) (hsame : SameLinks u v) :
    Followed sh root t earlier v :=
  fun later f part => (h later f part).congr hsame

theorem Followed.next (h : Followed sh root t earlier u) (e : Entry) :
    Followed sh root t (earlier ++ [e]) u := by
  intro later f part
  rw [List.append_assoc]
  exact h ([e] ++ later) f part

theorem Followed.now (h : Followed sh root t earlier u) (e : Entry) (part : Part) :
    Closed u fun l cs => Visits sh root t earlier e (.walk part l cs) := by
  simpa using h [] e part

theorem linkPlace_visited {target : Text} {l : Loc} (h : Followed sh root t earlier u)
    (installs : Installs sh root e dest (.link target))
    (hd : Visits sh root t earlier e (.walk .parents d []))
    (hl : linkPlace u sh.workDir d dest.last target = some l) :
    Visits sh root t earlier e (.link l target) := by
  rcases linkPlace_where hl with ⟨hx, rfl | rfl⟩ | ⟨hx, q, hr, rfl⟩
  · exact .place hd installs hx
  · exact .within hd installs hx
  · have ends := resolve_visited (h.now e .last) (.last hd installs hx)
    rw [hr] at ends
    exact .under ends installs

/-- No command of an entry acts outside, if all that is visited is inside. -/
theorem actionPlaces_inside (h : Followed sh root t earlier u)
    (inside : ∀ m, Visits sh root t earlier e m → m.Inside root t)
    (installs : Installs sh root e dest a) (operand : a.Operand)
    (hd : Visits sh root t earlier e (.walk .parents d [])) :
    ∀ l ∈ actionPlaces sh u d dest.last a, root <+: l := by
  have ending : ∀ part l, part ≠ .parents → Visits sh root t earlier e (.walk part l []) →
      root <+: l := by
    intro part l hpart hvisit
    rcases inside _ hvisit with hroot | ⟨-, hparents | hne⟩
    · exact hroot
    · exact absurd hparents hpart
    · exact absurd rfl hne
  intro l hl
  cases a with
  | link target =>
    rw [actionPlaces, if_neg operand] at hl
    exact inside _ (linkPlace_visited h installs hd (by simpa using hl))
  | template content mode =>
    have hplace : redirectPlace u d dest.last = some l := by simpa [actionPlaces] using hl
    exact ending .last l (by decide)
      (redirectPlace_visited (h.now e .last) (.last hd installs trivial) hplace)
  | copy name content mode =>
    have hlast : Visits sh root t earlier e (.walk .last d dest.last.path) :=
      .last hd installs trivial
    rw [actionPlaces] at hl
    cases hq : copyPlace u d dest.last name with
    | none => simp [hq] at hl
    | some q =>
      rw [hq] at hl
      rcases List.mem_cons.mp hl with rfl | hl
      · have visited := copyPlace_visited (h.now e .last) hlast (h.now e .inside)
          (fun q hq => .inside hq installs) hq
        rcases visited with hend | hend
        · exact ending .last l (by decide) hend
        · exact ending .inside l (by decide) hend
      · exact ending .last l (by decide)
          (chmodPlace_visited (h.now e .last) hlast (by simpa using hl))

theorem runAction_sameLinks (h : WellFormed u) (hd : isDir u d)
    (ha : ∀ target, a ≠ .link target) : SameLinks u (runAction sh u d x a).tree := by
  cases a with
  | link target => exact absurd rfl (ha target)
  | template content mode =>
    rw [runAction]
    generalize expandOverlayTemplateText sh.vars sh.tokenOrder (fileText content) = text
    have hfirst : SameLinks u (redirect u d x text).tree := redirect_sameLinks h hd text
    have first : Evolves u (redirect u d x text).tree := (redirect_sound h hd).evolves
    refine andThen_tree hfirst fun _ => hfirst.trans ?_
    have second := (chmod_sound_after u x (fun _ => mode) hd first).evolves
    have hsecond := chmod_sameLinks (x := x) first.wellFormed (first.dirs d hd) fun _ => mode
    refine andThen_tree hsecond fun _ => hsecond.trans ?_
    exact chmod_sameLinks second.wellFormed (second.dirs d (first.dirs d hd)) _
  | copy name content mode =>
    have hfirst := cpA_sameLinks (x := x) h hd name content mode
    have first : Evolves u (cpA u d x name content mode).tree := (cpA_sound h hd).evolves
    refine andThen_tree hfirst fun _ => hfirst.trans ?_
    exact chmod_sameLinks first.wellFormed (first.dirs d hd) _

/-- Behind the last commands of an entry the walks of the others still keep to what may be
visited. -/
theorem runAction_followed (h : Followed sh root t earlier u) (hu : WellFormed u) (hdir : isDir u d)
    (installs : Installs sh root e dest a) (operand : a.Operand)
    (hd : Visits sh root t earlier e (.walk .parents d [])) :
    Followed sh root t (earlier ++ [e]) (runAction sh u d dest.last a).tree := by
  cases a with
  | template content mode =>
    exact (h.congr (runAction_sameLinks hu hdir fun _ heq => by cases heq)).next e
  | copy name content mode =>
    exact (h.congr (runAction_sameLinks hu hdir fun _ heq => by cases heq)).next e
  | link target =>
    rw [runAction, lnSfn, if_neg operand]
    cases hl : linkPlace u sh.workDir d dest.last target with
    | none => exact h.next e
    | some l =>
      have hmark := linkPlace_visited h installs hd hl
      intro later f part
      refine (h.next e later f part).put_link fun {q c cs} heq hwalk hname => ?_
      rw [← heq] at hmark
      rw [List.append_assoc, List.singleton_append] at hwalk ⊢
      exact .made hmark hwalk hname

theorem parents_free (s : Staged root) (rel : Text) :
    Free '/' (destination root rel).parents := by
  intro n hn
  have hmem : n ∈ root ++ components rel := (List.rdropWhile_prefix _ _).subset
    ((List.dropLast_prefix _).subset ((List.rdropWhile_prefix _ _).subset hn))
  rcases List.mem_append.mp hmem with hmem | hmem
  · exact (s.names n hmem).1.2.2.2
  · exact splitOn_free '/' rel n hmem

theorem install_contained (s : Staged root) (evolves : Evolves t s.tree)
    (h : Followed sh root t earlier s.tree)
    (inside : ∀ m, Visits sh root t earlier e m → m.Inside root t)
    (installs : Installs sh root e dest a) (destined : Destined root dest a) :
    (∀ l ∈ (install sh s.tree dest a).written, root <+: l) ∧
      Followed sh root t (earlier ++ [e]) (install sh s.tree dest a).tree := by
  obtain ⟨ps, hps⟩ := destined.below
  have hfree : Free '/' dest.parents := by
    obtain ⟨-, rel, -, rfl, -⟩ := installs
    exact parents_free s _
  have hne : dest.parents ≠ [] := by
    rw [← hps]
    exact fun hnil => s.below (List.append_eq_nil_iff.mp hnil).1
  have hstart : Visits sh root t earlier e (.walk .parents root ps) := by
    have start : Visits sh root t earlier e (.walk .parents root (dest.parents.drop root.length)) :=
      .start installs
    rwa [← hps, List.drop_left] at start
  have hmkdir : mkdirP s.tree [] dest.dirname = mkdirP s.tree root ps := by
    rw [dirname_eq hne hfree destined.line, ← hps, s.mkdirP_root]
  obtain ⟨hwritten, hsame⟩ := mkdirP_visited (h.now e .parents) hstart
  have made := (mkdirP_sound s.wellFormed s.dir ps).1.evolves
  have followed := h.congr hsame
  have hfound : ∀ d, directoryAt (mkdirP s.tree root ps).tree dest.parents = some d →
      Visits sh root t earlier e (.walk .parents d []) := by
    intro d hd
    have hr := (directoryAt_eq_some.mp hd).1
    have hroot : resolve (mkdirP s.tree root ps).tree [] (root ++ ps) =
        resolve (mkdirP s.tree root ps).tree root ps := (s.after made).resolve_root ps
    rw [← hps] at hr
    have ends := resolve_visited (followed.now e .parents) hstart
    rw [hroot.symm.trans hr] at ends
    exact ends
  rw [install, hmkdir]
  constructor
  · rw [forall_written_andThen]
    refine ⟨fun l hl => ?_, fun _ _ => ?_⟩
    · obtain ⟨hmissing, rest, hvisit⟩ := hwritten l hl
      rcases inside _ hvisit with hroot | ⟨hdir, -⟩
      · exact hroot
      · exact absurd hmissing (isDir_exists (evolves.dirs l hdir))
    · split
      · rename_i d hd
        intro l hl
        rw [runAction_written sh dest.last made.wellFormed (directoryAt_dir hd)] at hl
        exact actionPlaces_inside followed inside installs destined.operand (hfound d hd) l hl
      · simp [fail]
  · refine andThen_tree (followed.next e) fun _ => ?_
    split
    · rename_i d hd
      exact runAction_followed followed made.wellFormed (directoryAt_dir hd) installs
        destined.operand (hfound d hd)
    · exact followed.next e

theorem applyEntry_contained (s : Staged root) (evolves : Evolves t s.tree)
    (h : Followed sh root t earlier s.tree)
    (inside : ∀ m, Visits sh root t earlier e m → m.Inside root t)
    (destined : ∀ dest a, Installs sh root e dest a → Destined root dest a) :
    (∀ l ∈ (applyEntry sh root s.tree e).written, root <+: l) ∧
      Followed sh root t (earlier ++ [e]) (applyEntry sh root s.tree e).tree := by
  unfold applyEntry
  split
  · exact ⟨by simp [done], h.next e⟩
  · rename_i hne
    split
    · exact ⟨by simp [done], h.next e⟩
    · exact ⟨by simp [fail], h.next e⟩
    · rename_i rel hrel
      have installs : Installs sh root e (destination root (actionOf e rel).1) (actionOf e rel).2 :=
        ⟨hne, rel, hrel, rfl, rfl⟩
      exact install_contained s evolves h inside installs (destined _ _ installs)

/-- What is left of a contained overlay writes below the root. -/
theorem entries_contained {es later : List Entry} (contained : Contained sh root t es)
    (s : Staged root) (evolves : Evolves t s.tree) (hes : es = earlier ++ later)
    (h : Followed sh root t earlier s.tree) :
    ∀ l ∈ (applyRootfsOverlayTree sh root later s.tree).written, root <+: l := by
  induction later generalizing earlier s with
  | nil => simp [applyRootfsOverlayTree, done]
  | cons e later ih =>
    have hmem : e ∈ es := hes ▸ List.mem_append_right _ List.mem_cons_self
    obtain ⟨hwritten, hnext⟩ := applyEntry_contained s evolves h
      (contained.visits earlier e later hes) (contained.destined e hmem)
    have sound := applyEntry_sound sh root s.wellFormed e
    rw [applyRootfsOverlayTree, forall_written_andThen]
    exact ⟨hwritten, fun _ _ => ih (s.after sound.evolves) (evolves.trans sound.evolves)
      (by rw [hes, List.append_assoc, List.singleton_append]) hnext⟩

end Entries

/-- An overlay whose commands can only come to places inside the staged root writes nothing outside
of it. -/
theorem overlay_contained (sh : Shell) {root : Loc} (s : Staged root) {es : List Entry}
    (contained : Contained sh root s.tree es) :
    let outcome := applyRootfsOverlayTree sh root es s.tree
    (∀ l ∈ outcome.written, root <+: l) ∧ ∀ l, ¬ root <+: l → outcome.tree l = s.tree l := by
  have inside := entries_contained contained s (.refl s.wellFormed) rfl followed_start
  have frame := (applyRootfsOverlayTree_sound sh root es s.wellFormed).frame
  exact ⟨inside, fun l hl => frame l fun hmem => hl (inside l hmem)⟩

/-- The container and a staged root with the absolute link of a Debian base system. -/
def exampleNodes : List (Loc × Node Text) :=
  [([], .dir 0o755), (["run".toList], .dir 0o755), (["build".toList], .dir 0o755),
   (exampleRoot, .dir 0o755), (exampleRoot ++ ["var".toList], .dir 0o755),
   (exampleRoot ++ ["var".toList, "run".toList], .symlink "/run".toList)]

def exampleStaged : Staged exampleRoot :=
  { tree := ofList exampleNodes
    wellFormed := ofList_wellFormed (by decide) (by decide)
    below := exampleRoot_below
    names := exampleRoot_names
    dir := by decide }

/-- A directory, a link to it and a file that is installed through the link. -/
def exampleOverlay : List Entry :=
  [⟨"var/lib/issue".toList, .file "Debian".toList 0o644⟩, ⟨"var/tmp".toList, .symlink "lib".toList⟩,
   ⟨"var/tmp/motd".toList, .file "hello".toList 0o644⟩]

def exampleNames : List Text :=
  ["var".toList, "lib".toList, "tmp".toList, "issue".toList, "motd".toList]

def exampleAction : Action → Bool
  | .link target => target == "lib".toList
  | .template _ _ => true
  | .copy name _ _ => exampleNames.contains name

def ExampleMark : Mark → Prop
  | .walk _ l cs => exampleRoot <+: l ∧ ∀ c ∈ cs, c ∈ exampleNames
  | .link l target => exampleRoot <+: l ∧ target = "lib".toList

theorem example_installs {e : Entry} (he : e ∈ exampleOverlay) {dest : Destination} {a : Action}
    (h : Installs exampleShell exampleRoot e dest a) :
    exampleRoot <+: dest.parents ∧ '\n' ∉ join '/' dest.parents ∧
      (∀ c ∈ dest.parents.drop 2 ++ dest.last.path, c ∈ exampleNames) ∧ exampleAction a = true := by
  have hplain : ∀ e ∈ exampleOverlay, hasPlaceholder e.rel = false := by decide
  obtain ⟨-, rel, hrel, rfl, rfl⟩ := h
  rw [interpolatedPath_plain (hplain e he)] at hrel
  cases hrel
  revert e
  decide +kernel

theorem exampleStaged_link {l : Loc} {target : Text}
    (h : exampleStaged.tree l = some (.symlink target)) :
    l = exampleRoot ++ ["var".toList, "run".toList] := by
  have hlinks : ∀ p ∈ exampleNodes, p.2.isSymlink = true →
      p.1 = exampleRoot ++ ["var".toList, "run".toList] := by decide
  exact hlinks _ (ofList_mem h) rfl

theorem example_visits {earlier : List Entry} {e : Entry} {m : Mark}
    (h : Visits exampleShell exampleRoot exampleStaged.tree earlier e m)
    (hes : ∀ f ∈ earlier ++ [e], f ∈ exampleOverlay) : ExampleMark m := by
  induction h with
  | start installs =>
    obtain ⟨-, -, hnames, -⟩ := example_installs (hes _ (by simp)) installs
    exact ⟨List.prefix_rfl, fun c hc => hnames c (List.mem_append_left _ hc)⟩
  | last _ installs _ ih =>
    obtain ⟨-, -, hnames, -⟩ := example_installs (hes _ (by simp)) installs
    exact ⟨(ih hes).1, fun c hc => hnames c (List.mem_append_right _ hc)⟩
  | inside _ installs ih =>
    obtain ⟨-, -, -, haction⟩ := example_installs (hes _ (by simp)) installs
    refine ⟨(ih hes).1, fun c hc => ?_⟩
    rw [List.mem_singleton.mp hc]
    simpa [exampleAction] using haction
  | stay _ _ ih => exact ⟨(ih hes).1, fun c hc => (ih hes).2 c (List.mem_cons_of_mem _ hc)⟩
  | up _ ih => exact absurd ((ih hes).2 _ List.mem_cons_self) (by decide)
  | down _ _ _ ih =>
    exact ⟨under_child (ih hes).1 _, fun c hc => (ih hes).2 c (List.mem_cons_of_mem _ hc)⟩
  | link _ _ hlink ih =>
    have hrun := congrArg List.getLast? (exampleStaged_link hlink)
    rw [List.getLast?_concat] at hrun
    obtain rfl := Option.some.inj hrun
    exact absurd ((ih hes).2 _ List.mem_cons_self) (by decide)
  | made _ _ _ ihlink ihwalk =>
    obtain ⟨hroot, hnames⟩ := ihwalk hes
    obtain ⟨-, rfl⟩ := ihlink fun f hf => hes f <| by
      simp only [List.mem_append, List.mem_cons, List.not_mem_nil, or_false] at hf ⊢
      tauto
    have hlib : ∀ c ∈ components "lib".toList, c ∈ exampleNames := by decide
    refine ⟨hroot, fun c hc => ?_⟩
    rcases List.mem_append.mp hc with hc | hc
    · exact hlib c hc
    · exact hnames c (List.mem_cons_of_mem _ hc)
  | place _ installs _ ih =>
    obtain ⟨-, -, -, haction⟩ := example_installs (hes _ (by simp)) installs
    exact ⟨under_child (ih hes).1 _, by simpa [exampleAction] using haction⟩
  | within _ installs _ ih =>
    obtain ⟨-, -, -, haction⟩ := example_installs (hes _ (by simp)) installs
    exact ⟨(ih hes).1.trans (List.prefix_append _ _), by simpa [exampleAction] using haction⟩
  | under _ installs ih =>
    obtain ⟨-, -, -, haction⟩ := example_installs (hes _ (by simp)) installs
    exact ⟨under_child (ih hes).1 _, by simpa [exampleAction] using haction⟩

theorem overlay_contained_var :
    let outcome := applyRootfsOverlayTree exampleShell exampleRoot exampleOverlay exampleStaged.tree
    (∀ l ∈ outcome.written, exampleRoot <+: l) ∧
      ∀ l, ¬ exampleRoot <+: l → outcome.tree l = exampleStaged.tree l := by
  refine overlay_contained exampleShell exampleStaged ⟨fun e he dest a installs => ?_, ?_⟩
  · obtain ⟨hbelow, hline, -, haction⟩ := example_installs he installs
    refine ⟨hbelow, commandOutput_line hline, ?_⟩
    cases a with
    | link target =>
      obtain rfl : target = "lib".toList := by simpa [exampleAction] using haction
      exact fun hoption => absurd hoption.1 (by decide)
    | template content mode => trivial
    | copy name content mode => trivial
  · intro earlier e later hes m hm
    have hmark := example_visits hm fun f hf => by
      rw [hes]
      simp only [List.mem_append, List.mem_cons, List.not_mem_nil, or_false] at hf ⊢
      tauto
    cases m with
    | walk part l cs => exact .inl hmark.1
    | link l target => exact hmark.1

/-- An overlay file for `/var/run` ends up in `/run` of the container. -/
theorem overlay_escapes_absolute_link :
    let outcome := applyRootfsOverlayTree exampleShell exampleRoot
      [⟨"var/run/motd".toList, .file "hello".toList 0o644⟩] exampleStaged.tree
    outcome.tree ["run".toList, "motd".toList] = some (.file "hello".toList 0o644) ∧
    ¬ ∀ l ∈ outcome.written, exampleRoot <+: l := by
  decide +kernel

end OverlayContainment
