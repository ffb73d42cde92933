import SbcImageBuild.Foundation.Directory
import SbcImageBuild.Foundation.Precedence
import SbcImageBuild.OverlayText
import SbcImageBuild.UbootBuild
import Mathlib.Data.Char
import Mathlib.Data.List.Lex
import Mathlib.Data.Prod.Lex

/-!
# The age of the boot chain

The U-Boot tree is never cleaned: outputs of earlier builds lie beside those of this run when
`find_newest_match` looks for the loader and the image.
-/
namespace UbootFreshness

open ShellText ByteStore BoardProfile Directory Precedence OverlayText UbootBuild

/-- A regular file below the U-Boot tree. `fresh` marks what `make.sh` wrote in this run; no
command sees it. -/
structure Output where
  bytes : Bytes
  mtime : ℤ
  fresh : Bool
  deriving DecidableEq

/-- The files by their paths below the U-Boot tree. -/
abbrev Outputs := Dir Text Output

/-- The tree before the run. -/
structure PriorOutputs where
  outputs : Outputs
  stale : ∀ rel f, outputs.lookup rel = some f → f.fresh = false

/-- What one command of `make.sh` does to the files. -/
inductive Change where
  | write (rel : Text) (bytes : Bytes) (mtime : ℤ)
  | remove (rel : Text)

def applyChange (d : Outputs) : Change → Outputs
  | .write rel bytes mtime => d.insert rel ⟨bytes, mtime, true⟩
  | .remove rel => d.erase rel

def makeSh (changes : List Change) (d : Outputs) : Outputs := changes.foldl applyChange d

/-- The two calls of `make.sh`, and `rm -f idblock.bin` between them. -/
def buildOutputs (prior : PriorOutputs) (board idblock : List Change) : Outputs :=
  makeSh idblock ((makeSh board prior.outputs).erase "idblock.bin".toList)

/-- The line that `find` prints for a file, as `sort -zrn` compares it: by the time, and for
equal times by the path. -/
@[ext] structure Found where
  mtime : ℤ
  rel : Text
  deriving DecidableEq

def Found.key (c : Found) : ℤ ×ₗ Text := toLex (c.mtime, c.rel)

instance : LinearOrder Found := LinearOrder.lift' Found.key (by
  intro a b h
  have h' : (a.mtime, a.rel) = (b.mtime, b.rel) := h
  exact Found.ext (congrArg Prod.fst h') (congrArg Prod.snd h'))

def depth (rel : Text) : ℕ := rel.count '/' + 1

def basename (rel : Text) : Text := rel.rtakeWhile (· ≠ '/')

/-- `find -maxdepth 3 -type f -name pattern`, for the pattern matching of the C library. -/
def find (fnmatch : Text → Text → Bool) (d : Outputs) (pattern : Text) : Finset Found :=
  (d.keys.filter fun rel => depth rel ≤ 3 ∧ fnmatch pattern (basename rel)).image fun rel =>
    ⟨((d.lookup rel).map Output.mtime).getD 0, rel⟩

/-- The path in `LOADER_PATH` or `UBOOT_IMAGE_PATH`, behind the command substitution. -/
def substituted (ubootDir : Text) (c : Found) : Text := commandOutput (ubootDir ++ '/' :: c.rel)

/-- The file at a path. -/
def fileAt (ubootDir : Text) (d : Outputs) (path : Text) : Option Output :=
  if (ubootDir ++ ['/']) <+: path then d.lookup (path.drop (ubootDir.length + 1)) else none

def ubootTree (fnmatch : Text → Text → Bool) (ubootDir : Text) (d : Outputs) : UbootTree where
  ubootDir := ubootDir
  find := fun pattern => ((find fnmatch d pattern).sort (· ≥ ·)).map (substituted ubootDir)
  file := fun path => (fileAt ubootDir d path).map Output.bytes

variable {fnmatch : Text → Text → Bool} {ubootDir : Text} {d : Outputs}

/-- The command substitution takes newlines from the end of the name only. -/
theorem substituted_eq (ubootDir : Text) (c : Found) :
    substituted ubootDir c = ubootDir ++ '/' :: commandOutput c.rel := by
  unfold substituted commandOutput
  rw [List.rdropWhile, List.rdropWhile, List.reverse_append, List.reverse_cons, List.append_assoc,
    List.dropWhile_append]
  split
  · rename_i hempty
    rw [List.isEmpty_iff.mp hempty]
    simp
  · simp

theorem fileAt_below (ubootDir : Text) (d : Outputs) (rel : Text) :
    fileAt ubootDir d (ubootDir ++ '/' :: rel) = d.lookup rel := by
  have hprefix : (ubootDir ++ ['/']) <+: ubootDir ++ '/' :: rel := ⟨rel, by simp⟩
  have hdrop : (ubootDir ++ '/' :: rel).drop (ubootDir.length + 1) = rel := by
    simp [List.drop_append]
  rw [fileAt, if_pos hprefix, hdrop]

theorem findNewestMatch_ubootTree (patterns : Text) :
    findNewestMatch (ubootTree fnmatch ubootDir d) patterns =
      (search (find fnmatch d) (readArray ';' patterns)).map (substituted ubootDir) := by
  rw [findNewestMatch, search, List.map_findSome?]
  congr 1
  funext pattern
  exact List.head?_map

/-- What a file stands for once its path went through the command substitution: a file that was
written in this run. Only a name that ends with newlines stands for another one. -/
def StandsForFresh (d : Outputs) (c : Found) : Prop :=
  ∃ f, d.lookup (commandOutput c.rel) = some f ∧ f.fresh = true

/-- The installed bytes are those of a file written in this run. -/
def InstalledFresh (ubootDir : Text) (d : Outputs) (path : Text) (bytes : Bytes) : Prop :=
  ∃ f, fileAt ubootDir d path = some f ∧ f.bytes = bytes ∧ f.fresh = true

/-- The three artifacts at the paths from which they are installed. -/
structure ChainFresh (p : Vars) (fnmatch : Text → Text → Bool) (ubootDir : Text) (d : Outputs)
    (b : BootChain) : Prop where
  downloadLoader : ∃ path,
    findNewestMatch (ubootTree fnmatch ubootDir d) p.downloadLoaderGlobs = some path ∧
      InstalledFresh ubootDir d path b.downloadLoader
  uboot : ∃ path,
    findNewestMatch (ubootTree fnmatch ubootDir d) p.ubootImageNames = some path ∧
      InstalledFresh ubootDir d path b.uboot
  idblock : InstalledFresh ubootDir d (ubootDir ++ "/idblock.bin".toList) b.idblock

/-- Every file of a list of patterns that is not of this run loses against one that is. -/
def StaleOutranked (fnmatch : Text → Text → Bool) (d : Outputs) (patterns : Text) : Prop :=
  Outranked (find fnmatch d) (readArray ';' patterns) (StandsForFresh d)

theorem inputFile_ok {file : Option Bytes} {path : Text} {bytes : Bytes} :
    ImageAssembly.inputFile file path = .ok bytes ↔ file = some bytes := by
  cases file <;> simp [ImageAssembly.inputFile]

/-- What a successful build has found. -/
theorem packBootChain_found {p : Vars} {t : UbootTree} {b : BootChain}
    (h : packBootChain p t = .ok b) :
    (∃ path, findNewestMatch t p.downloadLoaderGlobs = some path ∧
      t.file path = some b.downloadLoader) ∧
    (∃ path, findNewestMatch t p.ubootImageNames = some path ∧ t.file path = some b.uboot) ∧
    t.file (t.path "idblock.bin") = some b.idblock := by
  have found (o : Option Text) (hne : o.getD [] ≠ []) : o = some (o.getD []) := by
    cases o with
    | none => exact absurd rfl hne
    | some path => rfl
  simp only [packBootChain, bind_ok, require_ok, DiskGeometry.requireFile_ok, inputFile_ok] at h
  obtain ⟨_, -, _, hloader, _, huboot, _, hidblock, _, hloaderFile, _, -, _, -, _, hubootFile, _, -,
    hb⟩ := h
  cases hb
  exact ⟨⟨_, found _ hloader, hloaderFile⟩, ⟨_, found _ huboot, hubootFile⟩, hidblock⟩

/-- A selected file is of this run exactly when the others are outranked. -/
theorem selected_fresh_iff {patterns path : Text} {bytes : Bytes}
    (hpath : findNewestMatch (ubootTree fnmatch ubootDir d) patterns = some path)
    (hfile : (ubootTree fnmatch ubootDir d).file path = some bytes) :
    InstalledFresh ubootDir d path bytes ↔ StaleOutranked fnmatch d patterns := by
  rw [findNewestMatch_ubootTree] at hpath
  obtain ⟨c, hc, rfl⟩ := Option.map_eq_some_iff.mp hpath
  rw [StaleOutranked, ← good_iff_outranked hc]
  change (fileAt ubootDir d (substituted ubootDir c)).map Output.bytes = some bytes at hfile
  unfold InstalledFresh
  rw [substituted_eq, fileAt_below] at hfile ⊢
  obtain ⟨f, hf, rfl⟩ := Option.map_eq_some_iff.mp hfile
  constructor
  · rintro ⟨g, hg, -, hfresh⟩
    exact ⟨g, hg, hfresh⟩
  · rintro ⟨g, hg, hfresh⟩
    cases hf.symm.trans hg
    exact ⟨f, hf, rfl, hfresh⟩

/-- A file that was fresh or absent is so after a change. -/
theorem applyChange_fresh {rel : Text} (h : ∀ f, d.lookup rel = some f → f.fresh = true)
    (c : Change) : ∀ f, (applyChange d c).lookup rel = some f → f.fresh = true := by
  intro f hf
  cases c with
  | write other bytes mtime =>
    by_cases heq : rel = other
    · subst heq
      rw [applyChange, Finmap.lookup_insert] at hf
      cases hf
      rfl
    · rw [applyChange, Finmap.lookup_insert_of_ne d heq] at hf
      exact h f hf
  | remove other =>
    by_cases heq : rel = other
    · subst heq
      rw [applyChange, Finmap.lookup_erase] at hf
      cases hf
    · rw [applyChange, Finmap.lookup_erase_ne heq] at hf
      exact h f hf

theorem makeSh_fresh {rel : Text} (changes : List Change)
    (h : ∀ f, d.lookup rel = some f → f.fresh = true) :
    ∀ f, (makeSh changes d).lookup rel = some f → f.fresh = true := by
  induction changes generalizing d with
  | nil => exact h
  | cons c changes ih => exact ih (applyChange_fresh h c)

/-- The IDBlock was removed before the call that packs it. -/
theorem idblock_fresh (prior : PriorOutputs) (board idblock : List Change) {f : Output}
    (hf : (buildOutputs prior board idblock).lookup "idblock.bin".toList = some f) :
    f.fresh = true := by
  refine makeSh_fresh idblock (fun g hg => ?_) f hf
  rw [Finmap.lookup_erase] at hg
  cases hg

/-- A build that succeeds installs artifacts of this run exactly when, for the loader and for the
image, the stale matches are outranked. -/
theorem artifacts_fresh_iff {p : Vars} {prior : PriorOutputs} {board idblock : List Change}
    {b : BootChain}
    (h : packBootChain p (ubootTree fnmatch ubootDir (buildOutputs prior board idblock)) = .ok b) :
    ChainFresh p fnmatch ubootDir (buildOutputs prior board idblock) b ↔
      StaleOutranked fnmatch (buildOutputs prior board idblock) p.downloadLoaderGlobs ∧
      StaleOutranked fnmatch (buildOutputs prior board idblock) p.ubootImageNames := by
  obtain ⟨⟨loaderPath, hloader, hloaderFile⟩, ⟨imagePath, himage, himageFile⟩, hidblock⟩ :=
    packBootChain_found h
  have loader := selected_fresh_iff hloader hloaderFile
  have image := selected_fresh_iff himage himageFile
  constructor
  · rintro ⟨⟨_, hpath, hfresh⟩, ⟨_, hpath', hfresh'⟩, -⟩
    cases hloader.symm.trans hpath
    cases himage.symm.trans hpath'
    exact ⟨loader.mp hfresh, image.mp hfresh'⟩
  · rintro ⟨hl, hi⟩
    refine ⟨⟨loaderPath, hloader, loader.mpr hl⟩, ⟨imagePath, himage, image.mpr hi⟩, ?_⟩
    obtain ⟨f, hf, hbytes⟩ := Option.map_eq_some_iff.mp hidblock
    have hlookup : (buildOutputs prior board idblock).lookup "idblock.bin".toList = some f := by
      rw [← fileAt_below ubootDir]
      exact hf
    exact ⟨f, hf, hbytes, idblock_fresh prior board idblock hlookup⟩

/-- The pattern matching of the C library, for patterns without other marks than the star. -/
def starMatch : Text → Text → Bool
  | [], name => name.isEmpty
  | c :: pattern, name =>
    if c = '*' then name.tails.any (starMatch pattern)
    else name.head? = some c && starMatch pattern name.tail

def rock5cProfile : Vars := optionalDefaults (profileDefaults rock5c)

/-- A tree in which another board left its loader under the name `loader`. -/
def otherBoard (loader : String) : PriorOutputs where
  outputs := Finmap.singleton loader.toList ⟨ImageAssembly.ldr ++ [1], 5, false⟩
  stale := by
    intro rel f hf
    have hmem := Finmap.mem_of_lookup_eq_some hf
    rw [(Finmap.mem_singleton _ _ _).mp hmem, Finmap.lookup_singleton_eq] at hf
    cases hf
    rfl

/-- What `make.sh` writes: the outputs that the boot contract reads, the image, and the loader
under the name `loader`. -/
def boardChanges (loader : String) : List Change :=
  [.write ".config".toList
     (Delimited.terminate 10 (requiredOptions.map fun o => ascii (o ++ "=y".toList))) 9,
   .write "u-boot.bin".toList
     (ascii "run distro_bootcmd;".toList ++ ascii "extlinux/extlinux.conf".toList) 9,
   .write "uboot.img".toList [1, 2, 3] 9,
   .write loader.toList (ImageAssembly.ldr ++ [2]) 9]

def idblockChanges : List Change := [.write "idblock.bin".toList DiskGeometry.rkns 10]

def sampleOutputs (old new : String) : Outputs :=
  buildOutputs (otherBoard old) (boardChanges new) idblockChanges

def sampleChain (mark : UInt8) : BootChain :=
  ⟨ImageAssembly.ldr ++ [mark], DiskGeometry.rkns, [1, 2, 3], none, none⟩

theorem artifacts_fresh_preferred :
    ChainFresh rock5cProfile starMatch "u".toList
      (sampleOutputs "MiniLoaderAll.bin" "rk3588_spl_loader.bin") (sampleChain 2) := by
  have built : packBootChain rock5cProfile (ubootTree starMatch "u".toList
      (sampleOutputs "MiniLoaderAll.bin" "rk3588_spl_loader.bin")) = .ok (sampleChain 2) := by
    unfold rock5cProfile rock5c
    repeat rw [String.toList_ofList]
    decide +kernel
  have loader : search (find starMatch (sampleOutputs "MiniLoaderAll.bin" "rk3588_spl_loader.bin"))
      (readArray ';' rock5cProfile.downloadLoaderGlobs) =
      some ⟨9, "rk3588_spl_loader.bin".toList⟩ := by
    unfold rock5cProfile rock5c
    repeat rw [String.toList_ofList]
    decide +kernel
  have image : search (find starMatch (sampleOutputs "MiniLoaderAll.bin" "rk3588_spl_loader.bin"))
      (readArray ';' rock5cProfile.ubootImageNames) = some ⟨9, "uboot.img".toList⟩ := by
    unfold rock5cProfile rock5c
    repeat rw [String.toList_ofList]
    decide +kernel
  refine (artifacts_fresh_iff built).mpr ⟨(good_iff_outranked loader).mp ?_,
    (good_iff_outranked image).mp ?_⟩
  · exact ⟨⟨ImageAssembly.ldr ++ [2], 9, true⟩, by decide +kernel, rfl⟩
  · exact ⟨⟨[1, 2, 3], 9, true⟩, by decide +kernel, rfl⟩

/-- The loader of the other board matches an earlier pattern than the one just built. -/
theorem stale_loader_installed :
    packBootChain rock5cProfile (ubootTree starMatch "u".toList
      (sampleOutputs "rk3588_spl_loader.bin" "MiniLoaderAll.bin")) = .ok (sampleChain 1) ∧
    ¬ ChainFresh rock5cProfile starMatch "u".toList
      (sampleOutputs "rk3588_spl_loader.bin" "MiniLoaderAll.bin") (sampleChain 1) := by
  have built : packBootChain rock5cProfile (ubootTree starMatch "u".toList
      (sampleOutputs "rk3588_spl_loader.bin" "MiniLoaderAll.bin")) = .ok (sampleChain 1) := by
    unfold rock5cProfile rock5c
    repeat rw [String.toList_ofList]
    decide +kernel
  have selected : findNewestMatch (ubootTree starMatch "u".toList
      (sampleOutputs "rk3588_spl_loader.bin" "MiniLoaderAll.bin"))
      rock5cProfile.downloadLoaderGlobs = some "u/rk3588_spl_loader.bin".toList := by
    decide +kernel
  have stale : fileAt "u".toList (sampleOutputs "rk3588_spl_loader.bin" "MiniLoaderAll.bin")
      "u/rk3588_spl_loader.bin".toList = some ⟨ImageAssembly.ldr ++ [1], 5, false⟩ := by
    decide +kernel
  refine ⟨built, fun fresh => ?_⟩
  obtain ⟨path, hpath, f, hf, -, hfresh⟩ := fresh.downloadLoader
  cases selected.symm.trans hpath
  cases stale.symm.trans hf
  cases hfresh

end UbootFreshness
