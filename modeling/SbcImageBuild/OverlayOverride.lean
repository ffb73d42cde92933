import SbcImageBuild.OverlayTree

/-!
# Later overlays override earlier ones

The tree left by a sequence of overlays of plain files and links, compared with the rule that at
every path the last overlay to provide it wins.
-/
namespace OverlayOverride

open Delimited ShellText OverlayText FileTree FileCommands OverlayTree Reaching

/-- A file that is no template, or a link, at a path without a placeholder. -/
structure PlainEntry where
  path : List Text
  source : Source
  nonempty : path ≠ []
  proper : ∀ n ∈ path, Proper n
  literal : hasPlaceholder (join '/' path) = false
  static : ∀ content mode, source = .file content mode → ¬ ".in".toList <:+ join '/' path

def PlainEntry.entry (e : PlainEntry) : Entry := ⟨join '/' e.path, e.source⟩

def PlainEntry.parents (e : PlainEntry) : List Text := e.path.dropLast

def PlainEntry.name (e : PlainEntry) : Text := e.path.getLast e.nonempty

/-- The same kind and the same bytes, or the same target. The mode is not compared. -/
def Matches (n : Node Text) : Source → Prop
  | .file content _ => ∃ mode, n = .file content mode
  | .symlink target => n = .symlink target

def lastProviding (es : List PlainEntry) (path : List Text) : Option PlainEntry :=
  es.reverse.find? fun e => e.path = path

/-- The directory of the destination as `dirname` prints it, read back by the shell. -/
def KeepsDirname (root : Loc) (e : PlainEntry) : Prop :=
  commandOutput (join '/' (root ++ e.parents)) = join '/' (root ++ e.parents)

def place (dir : PlainEntry → Loc) (e : PlainEntry) : Loc := dir e ++ [e.name]

def without (t : RootTree) (ls : List Loc) : RootTree := fun l => if l ∈ ls then none else t l

/-- But for these places only missing directories have been made. -/
def Differs (t : RootTree) (ls : List Loc) (u : RootTree) : Prop :=
  ∀ l, l ∉ ls → u l = t l ∨ (t l = none ∧ u l = some (.dir 0o755))

/-- Each entry has a directory, found or made without the help of what lies at the places of the
entries, and its place there suits it. -/
structure Settled (sh : Shell) (root : Loc) (t : RootTree) (es : List PlainEntry)
    (dir : PlainEntry → Loc) : Prop where
  reported : ∀ e ∈ es,
    (mkdirP (without t (es.map (place dir))) root e.parents).result = some (dir e)
  found : ∀ e ∈ es, resolve (mkdirP (without t (es.map (place dir))) root e.parents).tree root
    e.parents = .found (dir e)
  dirname : ∀ e ∈ es, KeepsDirname root e
  distinct : ∀ e ∈ es, ∀ f ∈ es, place dir e = place dir f → e.path = f.path
  apart : ∀ e ∈ es, ∀ f ∈ es, ¬ place dir e <+: dir f
  noDirectory : ∀ e ∈ es, isDir t (place dir e) = false
  files : ∀ k e content mode, es[k]? = some e → e.source = .file content mode →
    match lastProviding (es.take k) e.path with
    | some f => ∀ target, f.source ≠ .symlink target
    | none => isSymlink t (place dir e) = false
  links : ∀ e ∈ es, ∀ target, e.source = .symlink target →
    commandOutput target = target ∧ target ≠ [] ∧ ¬ IsOption target ∧
      ∀ u, Differs t (es.map (place dir)) u → ¬ NamesFile u sh.workDir target (place dir e)

section Paths

variable {root : Loc} {e : PlainEntry}

theorem PlainEntry.parents_proper (e : PlainEntry) : ∀ n ∈ e.parents, Proper n := fun n hn =>
  e.proper n (List.dropLast_subset _ hn)

end Paths

section Installing

variable {sh : Shell} {root : Loc} {e : PlainEntry}

/-- What may lie at the place of an entry. -/
def ClearPlace (sh : Shell) (t : RootTree) (l : Loc) : Source → Prop
  | .file _ _ => FileOrNothing t l
  | .symlink target => isDir t l = false ∧ commandOutput target = target ∧ target ≠ [] ∧
      ¬ IsOption target ∧ ¬ NamesFile t sh.workDir target l

end Installing

/-! One entry at a time, from the front. -/

section Running

variable {sh : Shell} {root : Loc} {t u : RootTree} {es done : List PlainEntry}
  {dir : PlainEntry → Loc} {e : PlainEntry}

/-- The tree once some of the entries have been applied. -/
structure Progress (t : RootTree) (es : List PlainEntry) (dir : PlainEntry → Loc)
    (done : List PlainEntry) (u : RootTree) : Prop where
  elsewhere : ∀ l, l ∉ es.map (place dir) → u l = t l ∨
    (t l = none ∧ u l = some (.dir 0o755) ∧ ∃ e ∈ done, l <+: dir e)
  made : ∀ e ∈ done, isDir u (dir e)
  untouched : ∀ e ∈ es, lastProviding done e.path = none → u (place dir e) = t (place dir e)
  last : ∀ e ∈ es, ∀ f, lastProviding done e.path = some f →
    ∃ n, u (place dir e) = some n ∧ Matches n f.source

theorem without_wellFormed (h : WellFormed t) (hdirs : ∀ e ∈ es, isDir t (place dir e) = false) :
    WellFormed (without t (es.map (place dir))) := by
  have hkept : ∀ l, isDir t l → isDir (without t (es.map (place dir))) l := by
    intro l hl
    have hnot : l ∉ es.map (place dir) := by
      intro hmem
      obtain ⟨e, he, rfl⟩ := List.mem_map.mp hmem
      rw [hdirs e he] at hl
      cases hl
    rwa [isDir, without, if_neg hnot]
  refine ⟨hkept _ h.top, fun l n hn => hkept l (h.parent l n fun hnone => hn ?_)⟩
  rw [without, hnone, ite_self]

/-- No place of an entry is on the way to a directory of an entry. -/
theorem Settled.notMem (h : Settled sh root t es dir) (he : e ∈ es) {l : Loc} (hl : l <+: dir e) :
    l ∉ es.map (place dir) := by
  intro hmem
  obtain ⟨f, hf, rfl⟩ := List.mem_map.mp hmem
  exact h.apart f hf e he hl

theorem Settled.root_without (h : Settled sh root t es dir) (hroot : isDir t root) :
    isDir (without t (es.map (place dir))) root := by
  have hnot : root ∉ es.map (place dir) := by
    intro hmem
    obtain ⟨f, hf, heq⟩ := List.mem_map.mp hmem
    rw [← heq, h.noDirectory f hf] at hroot
    cases hroot
  rwa [isDir, without, if_neg hnot]

theorem Progress.differs (h : Progress t es dir done u) :
    Differs t (es.map (place dir)) u := fun l hl =>
  (h.elsewhere l hl).imp_right fun hmade => ⟨hmade.1, hmade.2.1⟩

/-- The missing directories of an entry make no other difference. -/
theorem differs_withDirs (h : Differs t (es.map (place dir)) u) (d : Loc) :
    Differs t (es.map (place dir)) (withDirs u [] d) := by
  intro l hl
  rw [withDirs]
  split
  · rename_i hmade
    refine .inr ⟨?_, rfl⟩
    rcases h l hl with hsame | ⟨hnone, -⟩
    · rw [← hsame]
      exact hmade.1
    · exact hnone
  · exact h l hl

/-- Where the directories on the way to that of an entry exist, its path leads there. -/
theorem Settled.leads (h : Settled sh root t es dir) (hwf : WellFormed t) (hroot : isDir t root)
    (he : e ∈ es) (hu : Differs t (es.map (place dir)) u)
    (hway : ∀ l, l <+: dir e → u l ≠ none) : resolve u root e.parents = .found (dir e) := by
  have hfound := h.found e he
  rw [mkdirP_result (without_wellFormed hwf h.noDirectory) (h.root_without hroot) e.parents_proper
    (h.reported e he)] at hfound
  refine walk_grows (fun l hl => ?_) le_rfl hfound
  by_cases hmem : l ∈ es.map (place dir)
  · have hnone : without t (es.map (place dir)) l = none := if_pos hmem
    rw [withDirs, if_neg fun hmade => h.notMem he hmade.2.2 hmem] at hl
    exact absurd hnone hl
  · have hsame : without t (es.map (place dir)) l = t l := if_neg hmem
    rw [withDirs, hsame] at hl ⊢
    rcases hu l hmem with heq | ⟨hnone, hdir⟩
    · split at hl
      · rename_i hmade
        exact absurd (heq.trans hmade.1) (hway l hmade.2.2)
      · rename_i hnot
        rw [if_neg hnot, heq]
    · split at hl
      · rename_i hmade
        rw [if_pos hmade, hdir]
      · exact absurd hnone hl

theorem withDirs_place (u : RootTree) (d : Loc) (n : Text) :
    withDirs u [] d (d ++ [n]) = u (d ++ [n]) :=
  @withDirs_child _ u [] d n

/-- When its turn comes, the place of an entry is clear. -/
theorem Settled.clear (h : Settled sh root t es dir) {k : ℕ} (he : es[k]? = some e)
    (hp : Progress t es dir (es.take k) u) :
    ClearPlace sh (withDirs u [] (dir e)) (place dir e) e.source := by
  have hmem := List.mem_of_getElem? he
  have hplace : withDirs u [] (dir e) (place dir e) = u (place dir e) := withDirs_place _ _ _
  have hdir : isDir (withDirs u [] (dir e)) (place dir e) = false := by
    rw [isDir, hplace]
    cases hlast : lastProviding (es.take k) e.path with
    | none =>
      rw [hp.untouched e hmem hlast]
      exact h.noDirectory e hmem
    | some f =>
      obtain ⟨n, hn, hmatch⟩ := hp.last e hmem f hlast
      rw [hn]
      cases hs : f.source with
      | file content mode =>
        rw [hs] at hmatch
        obtain ⟨m, rfl⟩ := hmatch
        rfl
      | symlink target =>
        rw [hs] at hmatch
        obtain rfl : n = .symlink target := hmatch
        rfl
  cases hs : e.source with
  | file content mode =>
    refine ⟨hdir, ?_⟩
    have hfile := h.files k e content mode he hs
    rw [isSymlink, hplace]
    cases hlast : lastProviding (es.take k) e.path with
    | none =>
      rw [hlast] at hfile
      rw [hp.untouched e hmem hlast]
      exact hfile
    | some f =>
      rw [hlast] at hfile
      obtain ⟨n, hn, hmatch⟩ := hp.last e hmem f hlast
      rw [hn]
      cases hf : f.source with
      | file content' mode' =>
        rw [hf] at hmatch
        obtain ⟨m, rfl⟩ := hmatch
        rfl
      | symlink target => exact absurd hf (hfile target)
  | symlink target =>
    obtain ⟨hline, htarget, hoption, hnames⟩ := h.links e hmem target hs
    exact ⟨hdir, hline, htarget, hoption, hnames _ (differs_withDirs hp.differs (dir e))⟩

end Running

def exampleStaged : Staged exampleRoot :=
  { tree := ofList
      [([], .dir 0o755), (["build".toList], .dir 0o755), (exampleRoot, .dir 0o755),
       (exampleRoot ++ ["etc".toList], .dir 0o755),
       (exampleRoot ++ ["etc".toList, "issue".toList], .file "Debian".toList 0o644),
       (exampleRoot ++ ["usr".toList], .dir 0o755),
       (exampleRoot ++ ["usr".toList, "lib".toList], .dir 0o755),
       (exampleRoot ++ ["lib".toList], .symlink "usr/lib".toList)]
    wellFormed := ofList_wellFormed (by decide +kernel) (by decide +kernel)
    below := exampleRoot_below
    names := exampleRoot_names
    dir := by decide }

end OverlayOverride
