import SbcImageBuild.KernelHook
import SbcImageBuild.OverlayText

/-!
# The kernel source view

The view of a kernel tree that `scripts/build_kernel.sh` hands to `make`: directories of its own,
and links into `KERNEL_DIR`. Locations are relative to `KERNEL_SOURCE` and to `KERNEL_DIR`.
-/
namespace KernelSourceView

open ShellText OverlayText FileTree FileCommands

/-- A link leads to the location in the kernel tree that it has in the view. -/
inductive ViewNode where
  | own (n : Node Text)
  | link
  deriving DecidableEq

abbrev View := Loc → Option ViewNode

structure Sources where
  kernel : Files Text
  view : View

def safeResetDir : View := fun q => if q = [] then some (.own (.dir 0o755)) else none

/-- The directory of a destination is made, and a link to each child of the source in it. -/
def linkSourceChildren (kernel : Files Text) (source : Loc) (excluded : List Text) (v : View) :
    View := fun q =>
  if q <+: source then some (.own (.dir 0o755))
  else if q.dropLast = source ∧ q.getLastD [] ∉ excluded ∧ kernel q ≠ none then some .link
  else v q

def includeDir : Loc := ["include".toList]

def archDir : Loc := ["arch".toList]

def arm64Dir : Loc := archDir ++ ["arm64".toList]

def arm64Include : Loc := arm64Dir ++ ["include".toList]

def prepareKernelSourceView (kernel : Files Text) : View :=
  linkSourceChildren kernel arm64Include ["generated".toList] <|
  linkSourceChildren kernel arm64Dir ["include".toList] <|
  linkSourceChildren kernel archDir ["arm64".toList] <|
  linkSourceChildren kernel includeDir ["config".toList] <|
  linkSourceChildren kernel [] [".config".toList, "include".toList, "arch".toList] safeResetDir

/-- The node at a location of the view, behind a link the one of the kernel tree. -/
def Sources.visible (s : Sources) (p : Loc) : Option (Node Text) :=
  if ∃ q ∈ p.inits, s.view q = some .link then s.kernel p
  else match s.view p with
    | some (.own n) => some n
    | _ => none

/-- What a name at the top of the view leads to. -/
def Sources.stat (s : Sources) (name : Text) : Option (Node Text) :=
  match s.view [name] with
  | some (.own n) => some n
  | some .link => FileTree.stat s.kernel [name]
  | none => none

def View.put (v : View) (q : Loc) (n : Node Text) : View := fun p =>
  if p = q then some (.own n) else v p

/-- The redirection to a name at the top of the view, through the link if there is one. -/
def Sources.redirect (s : Sources) (name content : Text) : Option Sources :=
  match s.view [name] with
  | some .link =>
    let o := FileCommands.redirect s.kernel [] ⟨name, false⟩ content
    o.result.map fun _ => { s with kernel := o.tree }
  | some (.own (.file _ mode)) =>
    some { s with view := s.view.put [name] (.file content mode) }
  | some (.own _) => none
  | none => some { s with view := s.view.put [name] (.file content 0o644) }

def scmVersion : Text := ".scmversion".toList

def scmRevision : Text := ".scmrevision".toList

def isHexDigit (c : Char) : Bool :=
  isDigit c || ('a' ≤ c && c ≤ 'f') || ('A' ≤ c && c ≤ 'F')

/-- The text for a revision that matches `^[0-9a-fA-F]{12,}$`, and for any other. -/
def versionText (rev : Text) : Text :=
  if 12 ≤ rev.length ∧ rev.all isHexDigit then "-g".toList ++ rev.take 12 ++ ['\n'] else []

/-- `cat` in a command substitution; a directory reads as nothing. -/
def catOutput : Option (Node Text) → Text
  | some (.file content _) => fileText content
  | _ => []

/-- A revision that is not the one of the kernel tree is dropped from the view. -/
def dropStale (rev : Text) (s : Sources) : Sources :=
  if s.stat scmVersion ≠ none ∧ s.stat scmRevision ≠ none ∧
      catOutput (s.stat scmRevision) ≠ rev then
    { s with view := fun q => if q = [scmVersion] ∨ q = [scmRevision] then none else s.view q }
  else s

/-- The part of the script that seeds `.scmversion`, for the revision `HEAD` of the tree. -/
def seedScm (rev : Text) (s : Sources) : Option Sources :=
  if (dropStale rev s).stat scmVersion ≠ none then some (dropStale rev s)
  else ((dropStale rev s).redirect scmVersion (versionText rev)).bind fun s =>
    s.redirect scmRevision (rev ++ ['\n'])

def prepared (k : Files Text) : Sources := ⟨k, prepareKernelSourceView k⟩

section Preparing

variable {k : Files Text}

theorem linkSourceChildren_congr {u : Files Text} {source : Loc}
    (h : ∀ q, q.dropLast = source → (u q = none ↔ k q = none)) (excluded : List Text) (v : View) :
    linkSourceChildren u source excluded v = linkSourceChildren k source excluded v := by
  funext q
  unfold linkSourceChildren
  by_cases hq : q.dropLast = source
  · simp only [ne_eq, h q hq]
  · simp only [hq, false_and]

/-- The view depends on the names in the directories that it has itself. -/
theorem prepareKernelSourceView_congr {u : Files Text}
    (h : ∀ q, q.dropLast ∈ [[], includeDir, archDir, arm64Dir, arm64Include] →
      (u q = none ↔ k q = none)) : prepareKernelSourceView u = prepareKernelSourceView k := by
  have same : ∀ source ∈ [[], includeDir, archDir, arm64Dir, arm64Include], ∀ excluded v,
      linkSourceChildren u source excluded v = linkSourceChildren k source excluded v :=
    fun source hs => linkSourceChildren_congr fun q hq => h q (hq ▸ hs)
  simp only [prepareKernelSourceView]
  rw [same [] (by simp), same includeDir (by simp), same archDir (by simp),
    same arm64Dir (by simp), same arm64Include (by simp)]

theorem linkSourceChildren_top (source : Loc) {name first : Text} (hs : source.head? = some first)
    (hn : name ≠ first) (excluded : List Text) (v : View) :
    linkSourceChildren k source excluded v [name] = v [name] := by
  cases source with
  | nil => cases hs
  | cons c source =>
    obtain rfl : c = first := Option.some.inj hs
    rw [linkSourceChildren, if_neg (by simp [hn]), if_neg (by simp)]

/-- A name at the top is a link exactly if it is there, unless the view has a directory for it or
hides it. -/
theorem prepareKernelSourceView_top (name : Text)
    (hn : name ∉ [".config".toList, "include".toList, "arch".toList]) :
    prepareKernelSourceView k [name] = if k [name] = none then none else some .link := by
  have harch : name ≠ "arch".toList := fun h => hn (by simp [h])
  have hinclude : name ≠ "include".toList := fun h => hn (by simp [h])
  rw [prepareKernelSourceView, linkSourceChildren_top arm64Include rfl harch,
    linkSourceChildren_top arm64Dir rfl harch,
    linkSourceChildren_top archDir rfl harch,
    linkSourceChildren_top includeDir rfl hinclude, linkSourceChildren,
    if_neg (by simp)]
  by_cases hk : k [name] = none
  · simp [hk, safeResetDir]
  · rw [if_pos ⟨rfl, by simpa using hn, hk⟩, if_neg hk]

theorem stat_prepared {name : Text} (hp : Proper name)
    (hn : name ∉ [".config".toList, "include".toList, "arch".toList]) (hd : Direct k [name]) :
    (prepared k).stat name = k [name] := by
  rw [Sources.stat, prepared]
  dsimp only
  rw [prepareKernelSourceView_top name hn]
  by_cases hk : k [name] = none
  · simp [hk]
  · rw [if_neg hk]
    exact stat_direct (by simpa using hp) hd

end Preparing

section Seeding

variable {k : Files Text}

def versionNode (rev : Text) : Node Text := .file (versionText rev) 0o644

/-- The view with both seeded files of its own. -/
def withSeeds (rev : Text) (v : View) : View :=
  (v.put [scmVersion] (versionNode rev)).put [scmRevision] (.file (rev ++ ['\n']) 0o644)

theorem redirect_own {s : Sources} {name content : Text} (h : s.view [name] = none) :
    s.redirect name content = some ⟨s.kernel, s.view.put [name] (.file content 0o644)⟩ := by
  rw [Sources.redirect, h]

theorem put_version_other (v : View) (n : Node Text) :
    v.put [scmVersion] n [scmRevision] = v [scmRevision] := if_neg (by decide)

theorem dropStale_fresh {rev : Text} {s : Sources}
    (h : s.stat scmVersion = none ∨ s.stat scmRevision = none ∨
      catOutput (s.stat scmRevision) = rev) : dropStale rev s = s := by
  rw [dropStale, if_neg]
  rintro ⟨hv, hr, hrev⟩
  rcases h with h | h | h
  · exact hv h
  · exact hr h
  · exact hrev h

/-- Dropping both links and seeding anew. -/
theorem seedScm_stale {rev : Text} {s : Sources} (hv : s.stat scmVersion ≠ none)
    (hr : s.stat scmRevision ≠ none) (hrev : catOutput (s.stat scmRevision) ≠ rev) :
    seedScm rev s = some ⟨s.kernel, withSeeds rev s.view⟩ := by
  have hdrop : dropStale rev s = ⟨s.kernel, fun q =>
      if q = [scmVersion] ∨ q = [scmRevision] then none else s.view q⟩ :=
    if_pos ⟨hv, hr, hrev⟩
  have hgone : View.put (fun q => if q = [scmVersion] ∨ q = [scmRevision] then none else s.view q)
      [scmVersion] (versionNode rev) [scmRevision] = none := by
    rw [put_version_other]
    simp
  rw [seedScm, hdrop, if_neg (by simp [Sources.stat]), redirect_own (by simp), Option.bind_some,
    redirect_own hgone]
  congr 2
  funext q
  unfold withSeeds View.put
  by_cases hqr : q = [scmRevision]
  · simp [hqr]
  · by_cases hqv : q = [scmVersion]
    · simp [hqv]
      rfl
    · simp [hqr, hqv]

/-- Through a link of the view the name is written in the kernel tree. -/
theorem redirect_link {s : Sources} {name content : Text} (h : s.view [name] = some .link)
    (hp : Proper name) (hd : Direct s.kernel [name]) :
    s.redirect name content = match s.kernel [name] with
      | none => some ⟨put s.kernel [name] (.file content 0o644), s.view⟩
      | some (.file _ mode) => some ⟨put s.kernel [name] (.file content mode), s.view⟩
      | some _ => none := by
  have hlink : isSymlink s.kernel ([] ++ [name]) = false := hd.links _ List.prefix_rfl
  have hdirect := redirect_direct content (x := ⟨name, false⟩) ⟨rfl, hp⟩ hlink
  rw [Sources.redirect, h]
  dsimp only
  rw [hdirect, List.nil_append]
  rcases hn : s.kernel [name] with _ | (m | ⟨old, m⟩ | target)
  · rfl
  · rfl
  · rfl
  · rw [List.nil_append, isSymlink, hn] at hlink
    cases hlink

/-- What the seeding does in a view that has just been prepared. -/
theorem seedScm_prepared (rev : Text) (hv : Direct k [scmVersion]) (hr : Direct k [scmRevision]) :
    seedScm rev (prepared k) =
      if k [scmVersion] ≠ none then
        if k [scmRevision] ≠ none ∧ catOutput (k [scmRevision]) ≠ rev then
          some ⟨k, withSeeds rev (prepareKernelSourceView k)⟩
        else some (prepared k)
      else match k [scmRevision] with
        | none => some ⟨k, withSeeds rev (prepareKernelSourceView k)⟩
        | some (.file _ mode) => some ⟨put k [scmRevision] (.file (rev ++ ['\n']) mode),
            (prepareKernelSourceView k).put [scmVersion] (versionNode rev)⟩
        | some _ => none := by
  have hversion : (prepared k).stat scmVersion = k [scmVersion] :=
    stat_prepared (by decide) (by decide) hv
  have hrevision : (prepared k).stat scmRevision = k [scmRevision] :=
    stat_prepared (by decide) (by decide) hr
  by_cases hV : k [scmVersion] = none
  · have htop : (prepared k).view [scmVersion] = none := by
      have hview := prepareKernelSourceView_top (k := k) scmVersion (by decide)
      rwa [if_pos hV] at hview
    have hview := prepareKernelSourceView_top (k := k) scmRevision (by decide)
    rw [if_neg (by simp [hV]), seedScm, dropStale_fresh (.inl (hversion.trans hV)),
      if_neg (by simp [hversion, hV]), redirect_own htop, Option.bind_some]
    rcases hR : k [scmRevision] with _ | n
    · rw [if_pos hR] at hview
      exact redirect_own ((put_version_other _ (versionNode rev)).trans hview)
    · rw [if_neg (by simp [hR])] at hview
      rw [redirect_link ((put_version_other _ (versionNode rev)).trans hview) (by decide) hr]
      simp only [prepared, hR]
      cases n with
      | dir mode => rfl
      | file content mode => rfl
      | symlink target => rfl
  · rw [if_pos hV]
    by_cases hstale : k [scmRevision] ≠ none ∧ catOutput (k [scmRevision]) ≠ rev
    · rw [if_pos hstale]
      exact seedScm_stale (by rwa [hversion]) (by rw [hrevision]; exact hstale.1)
        (by rw [hrevision]; exact hstale.2)
    · have hfresh : dropStale rev (prepared k) = prepared k := by
        refine dropStale_fresh (.inr ?_)
        rw [hrevision]
        exact or_iff_not_imp_left.mpr fun h => not_not.mp fun h' => hstale ⟨h, h'⟩
      rw [if_neg hstale, seedScm, hfresh, if_pos (by rwa [hversion])]

end Seeding

end KernelSourceView
