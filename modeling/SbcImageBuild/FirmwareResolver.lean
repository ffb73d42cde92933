import SbcImageBuild.OverlayText
import Mathlib.Data.List.Infix

/-!
# The firmware packages

`muse_fcu761k_resolve_deb`, `cokepi_aic8800_resolve_deb` and `_rm500q_resolve_pkg` look for a
package or download it, and print its path. Their callers read the path from the standard output.
-/
namespace FirmwareResolver

open Delimited ShellText OverlayText

/-- What stands at the partial file after `curl` or `wget`. -/
inductive Fetched where
  | missing
  | regular
  | other
  deriving DecidableEq

/-- The arguments, the variable with the URL, whether `log_info` is defined, and what the commands
see: `mktemp -d`, the tests on paths, the names of the regular files that `find` lists in a
directory, the last line in the order of `sort`, and a download. -/
structure Env where
  boardDir : Text
  src : Text
  cacheDir : Text
  firmwareUrl : Text
  logInfo : Bool
  mktemp : Text
  isDir : Text → Bool
  isFile : Text → Bool
  writable : Text → Bool
  listing : Text → List Text
  lastLine : List Text → Option Text
  downloader : Bool
  fetched : Text → Fetched
  moves : Bool
  listing_isFile : ∀ {dir name}, name ∈ listing dir →
    isFile (if dir.getLast? = some '/' then dir ++ name else dir ++ '/' :: name)
  lastLine_mem : ∀ {lines line}, lastLine lines = some line → line ∈ lines

/-- The standard output of a function that succeeds, and the regular files afterwards. -/
structure Resolved where
  stdout : Text
  regular : Text → Bool

/-- A path as `find` prints it. -/
def findPath (dir name : Text) : Text :=
  if dir.getLast? = some '/' then dir ++ name else dir ++ '/' :: name

/-- The output of `find`, `sort` and `tail -n 1`. -/
def newest (e : Env) (matching : Text → Bool) (dir : Text) : Text :=
  (e.lastLine (((e.listing dir).filter matching).flatMap fun name =>
    (findPath dir name).splitOn '\n')).getD []

def pkgDir (e : Env) : Text := e.boardDir ++ "/packages".toList

/-- The directory for a download. -/
def cacheDir (e : Env) : Text :=
  if e.cacheDir = [] then
    if e.isDir (pkgDir e) ∧ e.writable (pkgDir e) then pkgDir e else commandOutput e.mktemp
  else e.cacheDir

def IsUrl (src : Text) : Prop := "http://".toList <+: src ∨ "https://".toList <+: src

instance : DecidablePred IsUrl := fun src =>
  inferInstanceAs (Decidable ("http://".toList <+: src ∨ "https://".toList <+: src))

/-- `basename`; a path of slashes only is one itself. -/
def basename (path : Text) : Text :=
  let trimmed := path.rdropWhile (· = '/')
  if trimmed = [] then path.take 1 else (trimmed.splitOn '/').getLastD []

/-- The name in an URL, without a query. -/
def urlName (src : Text) : Text := commandOutput (basename (src.takeWhile (· ≠ '?')))

/-- The package of an URL in `packages/`. -/
def packaged (e : Env) (src : Text) : Text := pkgDir e ++ '/' :: urlName src

/-- `dest`, in the directory for downloads. -/
def cached (e : Env) (src : Text) : Text := cacheDir e ++ '/' :: urlName src

/-- A message is printed to the standard output where `log_info` is not defined. -/
def announce (e : Env) (message : Text) : Text := if e.logInfo then [] else message ++ ['\n']

/-- `printf '%s\n'` -/
def print (e : Env) (path : Text) : Resolved := ⟨path ++ ['\n'], e.isFile⟩

/-- The functions `*_download_to`. They are called before `||`, so only `mv` decides whether they
succeed; it moves the file into a directory that has its name. -/
def downloadTo (e : Env) (dest : Text) : Except Text (Text → Bool) :=
  if e.downloader = false then .error "ERROR: need curl or wget".toList
  else if e.fetched (dest ++ ".partial".toList) = .missing ∨ e.moves = false then .error []
  else .ok fun path => if path = dest then
    e.isDir dest = false ∧ e.fetched (dest ++ ".partial".toList) = .regular else e.isFile path

def download (e : Env) (src dest : Text) : Except Text Resolved := do
  let regular ← downloadTo e dest
  pure ⟨announce e ("Downloading ".toList ++ src ++ " -> ".toList ++ dest) ++ dest ++ ['\n'],
    regular⟩

/-- A path that is given. -/
def localFile (e : Env) (src : Text) : Except Text Resolved :=
  if e.isFile src then .ok (print e src) else .error ("ERROR: not a file: ".toList ++ src)

/-- The common part of the two functions for the `aic8800` packages behind the search. -/
def aic8800FromSource (e : Env) (src : Text) : Except Text Resolved :=
  if IsUrl src then
    if e.isFile (packaged e src) then .ok (print e (packaged e src))
    else if e.isFile (cached e src) then
      .ok ⟨announce e ("Using cached package: ".toList ++ cached e src) ++ cached e src ++ ['\n'],
        e.isFile⟩
    else if e.writable (cacheDir e) = false then
      .error ("ERROR: cannot download firmware: ".toList ++ cacheDir e ++
        " is not writable\nPlace aic8800-firmware_*.deb under ".toList ++ pkgDir e ++
        " and rebuild.".toList)
    else download e src (cached e src)
  else localFile e src

/-- The pattern `aic8800-firmware*.deb`. -/
def isAic8800Deb (name : Text) : Bool :=
  "aic8800-firmware".toList <+: name ∧ ".deb".toList <:+ name.drop 16

def aic8800ResolveDeb (defaultUrl : Text) (e : Env) : Except Text Resolved :=
  if e.src ≠ [] then aic8800FromSource e e.src
  else if e.isDir (pkgDir e) ∧ newest e isAic8800Deb (pkgDir e) ≠ [] then
    .ok (print e (newest e isAic8800Deb (pkgDir e)))
  else if newest e isAic8800Deb (cacheDir e) ≠ [] then
    .ok (print e (newest e isAic8800Deb (cacheDir e)))
  else aic8800FromSource e (commandOutput (orDefault e.firmwareUrl defaultUrl))

def museDefaultUrl : Text :=
  ("https://github.com/radxa-pkg/aic8800/releases/download/5.0%2Bgit20260123.5f7be68d-7/" ++
    "aic8800-firmware_5.0+git20260123.5f7be68d-7_all.deb").toList

def cokepiDefaultUrl : Text :=
  ("https://github.com/radxa-pkg/aic8800/releases/download/3.0%2Bgit20240327.3561b08f-7/" ++
    "aic8800-firmware_3.0+git20240327.3561b08f-7_all.deb").toList

def museFcu761kResolveDeb : Env → Except Text Resolved := aic8800ResolveDeb museDefaultUrl

def cokepiAic8800ResolveDeb : Env → Except Text Resolved := aic8800ResolveDeb cokepiDefaultUrl

/-- The patterns `rm500q*firmware*` and `RM500Q*`. -/
def isRm500qPkg (name : Text) : Bool :=
  "rm500q".toList <+: name ∧ "firmware".toList <:+: name.drop 6 ∨ "RM500Q".toList <+: name

/-- Here a package in the cache is taken without a message. -/
def rm500qFromSource (e : Env) (src : Text) : Except Text Resolved :=
  if IsUrl src then
    if e.isFile (packaged e src) then .ok (print e (packaged e src))
    else if e.isFile (cached e src) then .ok (print e (cached e src))
    else download e src (cached e src)
  else localFile e src

/-- Here the cache is not searched, and there may be no URL. -/
def rm500qResolvePkg (e : Env) : Except Text Resolved :=
  if e.src ≠ [] then rm500qFromSource e e.src
  else if e.isDir (pkgDir e) ∧ newest e isRm500qPkg (pkgDir e) ≠ [] then
    .ok (print e (newest e isRm500qPkg (pkgDir e)))
  else if commandOutput e.firmwareUrl = [] then .error []
  else rm500qFromSource e (commandOutput e.firmwareUrl)

/-- The output is one line, and it names a regular file. -/
def OneLine (r : Resolved) : Prop :=
  ∃ line, '\n' ∉ line ∧ r.stdout = line ++ ['\n'] ∧ r.regular line

/-- A path that is a line. -/
def IsLine (path : Text) : Prop := '\n' ∉ path

/-- An URL gives a line where the package is in `packages/`, or where it is in the cache (and, if
this is said, `log_info` is defined), or where `log_info` is defined and the download leaves a
regular file under the right name. -/
def UrlQuiet (said : Bool) (e : Env) (src : Text) : Prop :=
  if e.isFile (packaged e src) then IsLine (packaged e src)
  else if e.isFile (cached e src) then IsLine (cached e src) ∧ (said → e.logInfo)
  else IsLine (cached e src) ∧ e.logInfo ∧ e.isDir (cached e src) = false ∧
    e.fetched (cached e src ++ ".partial".toList) = .regular

def SourceQuiet (said : Bool) (e : Env) (src : Text) : Prop :=
  if IsUrl src then UrlQuiet said e src else IsLine src

/-- Without a source a line of the listing is printed, which must name a file of its own. -/
def Aic8800Quiet (defaultUrl : Text) (e : Env) : Prop :=
  if e.src ≠ [] then SourceQuiet true e e.src
  else if e.isDir (pkgDir e) ∧ newest e isAic8800Deb (pkgDir e) ≠ [] then
    e.isFile (newest e isAic8800Deb (pkgDir e)) = true
  else if newest e isAic8800Deb (cacheDir e) ≠ [] then
    e.isFile (newest e isAic8800Deb (cacheDir e)) = true
  else SourceQuiet true e (commandOutput (orDefault e.firmwareUrl defaultUrl))

def Rm500qQuiet (e : Env) : Prop :=
  if e.src ≠ [] then SourceQuiet false e e.src
  else if e.isDir (pkgDir e) ∧ newest e isRm500qPkg (pkgDir e) ≠ [] then
    e.isFile (newest e isRm500qPkg (pkgDir e)) = true
  else SourceQuiet false e (commandOutput e.firmwareUrl)

section Lines

variable {e : Env} {path message src dest : Text} {regular : Text → Bool} {r : Resolved}

theorem oneLine_path : OneLine ⟨path ++ ['\n'], regular⟩ ↔ IsLine path ∧ regular path := by
  constructor
  · rintro ⟨line, hline, hout, hregular⟩
    obtain rfl : path = line := List.append_cancel_right hout
    exact ⟨hline, hregular⟩
  · rintro ⟨hline, hregular⟩
    exact ⟨path, hline, rfl, hregular⟩

/-- A message before the path spoils the output. -/
theorem oneLine_announced : OneLine ⟨announce e message ++ path ++ ['\n'], regular⟩ ↔
    e.logInfo ∧ IsLine path ∧ regular path := by
  unfold announce
  cases hlog : e.logInfo with
  | true => simpa using oneLine_path
  | false =>
    simp only [Bool.false_eq_true, if_false, false_and, iff_false]
    rw [oneLine_path]
    exact fun h => h.1 (by simp)

theorem newest_isLine {matching : Text → Bool} {dir : Text} : IsLine (newest e matching dir) := by
  unfold newest IsLine
  cases hlast : e.lastLine (((e.listing dir).filter matching).flatMap fun name =>
      (findPath dir name).splitOn '\n') with
  | none => simp
  | some line =>
    obtain ⟨name, -, hline⟩ := List.mem_flatMap.mp (e.lastLine_mem hlast)
    exact splitOn_free '\n' _ line hline

/-- In a directory without newlines in its names the listing names a regular file. -/
theorem oneLine_newest {matching : Text → Bool} {dir : Text} :
    OneLine (print e (newest e matching dir)) ↔ e.isFile (newest e matching dir) :=
  oneLine_path.trans (and_iff_right newest_isLine)

theorem oneLine_download (h : download e src dest = .ok r) : OneLine r ↔
    IsLine dest ∧ e.logInfo ∧ e.isDir dest = false ∧
      e.fetched (dest ++ ".partial".toList) = .regular := by
  obtain ⟨regular, hdownload, hr⟩ := bind_ok.mp h
  cases hr
  rw [oneLine_announced]
  unfold downloadTo at hdownload
  split_ifs at hdownload
  obtain rfl := Except.ok.inj hdownload
  simp only [if_true, decide_eq_true_eq]
  tauto

theorem oneLine_localFile (h : localFile e src = .ok r) : OneLine r ↔ IsLine src := by
  unfold localFile at h
  split_ifs at h with hfile
  obtain rfl := Except.ok.inj h
  exact oneLine_path.trans (and_iff_left hfile)

theorem oneLine_aic8800FromSource (h : aic8800FromSource e src = .ok r) :
    OneLine r ↔ SourceQuiet true e src := by
  unfold aic8800FromSource at h
  unfold SourceQuiet UrlQuiet
  split_ifs at h ⊢ with hurl hpackages hcached
  · obtain rfl := Except.ok.inj h
    exact oneLine_path.trans (and_iff_left hpackages)
  · obtain rfl := Except.ok.inj h
    rw [oneLine_announced, and_left_comm]
    exact and_congr_right fun _ => by simp [hcached]
  · exact oneLine_download h
  · exact oneLine_localFile h

theorem oneLine_rm500qFromSource (h : rm500qFromSource e src = .ok r) :
    OneLine r ↔ SourceQuiet false e src := by
  unfold rm500qFromSource at h
  unfold SourceQuiet UrlQuiet
  split_ifs at h ⊢ with hurl hpackages hcached
  · obtain rfl := Except.ok.inj h
    exact oneLine_path.trans (and_iff_left hpackages)
  · obtain rfl := Except.ok.inj h
    exact oneLine_path.trans (and_congr_right fun _ => by simp [hcached])
  · exact oneLine_download h
  · exact oneLine_localFile h

theorem oneLine_aic8800ResolveDeb {defaultUrl : Text} (h : aic8800ResolveDeb defaultUrl e = .ok r) :
    OneLine r ↔ Aic8800Quiet defaultUrl e := by
  unfold aic8800ResolveDeb at h
  unfold Aic8800Quiet
  split_ifs at h ⊢ with hsrc hpackages hcache
  · exact oneLine_aic8800FromSource h
  · obtain rfl := Except.ok.inj h
    exact oneLine_newest
  · obtain rfl := Except.ok.inj h
    exact oneLine_newest
  · exact oneLine_aic8800FromSource h

theorem oneLine_rm500qResolvePkg (h : rm500qResolvePkg e = .ok r) : OneLine r ↔ Rm500qQuiet e := by
  unfold rm500qResolvePkg at h
  unfold Rm500qQuiet
  split_ifs at h ⊢ with hsrc hpackages hurl
  · exact oneLine_rm500qFromSource h
  · obtain rfl := Except.ok.inj h
    exact oneLine_newest
  · exact oneLine_rm500qFromSource h

end Lines

/-- When the three functions print one line with a regular file. -/
theorem resolver_output_iff (e : Env) (r : Resolved) :
    (museFcu761kResolveDeb e = .ok r → (OneLine r ↔ Aic8800Quiet museDefaultUrl e)) ∧
      (cokepiAic8800ResolveDeb e = .ok r → (OneLine r ↔ Aic8800Quiet cokepiDefaultUrl e)) ∧
      (rm500qResolvePkg e = .ok r → (OneLine r ↔ Rm500qQuiet e)) :=
  ⟨oneLine_aic8800ResolveDeb, oneLine_aic8800ResolveDeb, oneLine_rm500qResolvePkg⟩

section Downloads

variable {e : Env} {src : Text}

/-- Without any package the default is downloaded. -/
theorem aic8800_downloads {defaultUrl : Text} (hsrc : e.src = [])
    (hlisting : ∀ dir, newest e isAic8800Deb dir = []) (hfiles : ∀ path, e.isFile path = false)
    (hwritable : e.writable (cacheDir e))
    (hdefault : commandOutput (orDefault e.firmwareUrl defaultUrl) = src) (hurl : IsUrl src) :
    aic8800ResolveDeb defaultUrl e = download e src (cached e src) := by
  unfold aic8800ResolveDeb aic8800FromSource
  rw [if_neg (not_not.mpr hsrc), hlisting, hlisting, if_neg (by simp), if_neg (by simp), hdefault,
    if_pos hurl, hfiles, hfiles, hwritable]
  rfl

theorem rm500q_downloads (hsrc : e.src = []) (hlisting : ∀ dir, newest e isRm500qPkg dir = [])
    (hfiles : ∀ path, e.isFile path = false) (hdefault : commandOutput e.firmwareUrl = src)
    (hne : src ≠ []) (hurl : IsUrl src) : rm500qResolvePkg e = download e src (cached e src) := by
  unfold rm500qResolvePkg rm500qFromSource
  rw [if_neg (not_not.mpr hsrc), hlisting, if_neg (by simp), hdefault, if_neg hne, if_pos hurl,
    hfiles, hfiles]
  rfl

end Downloads

/-- A checkout without packages, in which a script for the host downloads one. -/
def hostStage (firmwareUrl : Text) : Env where
  boardDir := "/board".toList
  src := []
  cacheDir := []
  firmwareUrl := firmwareUrl
  logInfo := false
  mktemp := "/tmp/tmp.1\n".toList
  isDir path := path = "/board/packages".toList
  isFile _ := false
  writable _ := true
  listing _ := []
  lastLine lines := lines.getLast?
  downloader := true
  fetched _ := .regular
  moves := true
  listing_isFile h := by simp at h
  lastLine_mem := List.mem_of_getLast?

def rm500qUrl : Text := "https://mirror/rm500q-firmware.tar.gz".toList

/-- The download of a script for the host prints its message first. -/
theorem download_hostStage (firmwareUrl src dest : Text) :
    ∃ r, download (hostStage firmwareUrl) src dest = .ok r ∧ ¬ OneLine r := by
  refine ⟨_, rfl, fun h => ?_⟩
  exact Bool.false_ne_true (oneLine_announced.mp h).1

theorem defaultUrls :
    IsUrl (commandOutput (orDefault (hostStage []).firmwareUrl museDefaultUrl)) ∧
      IsUrl (commandOutput (orDefault (hostStage []).firmwareUrl cokepiDefaultUrl)) := by
  unfold museDefaultUrl cokepiDefaultUrl
  rw [String.toList_append, String.toList_append]
  repeat rw [String.toList_ofList]
  decide +kernel

/-- The message about the download is part of the output. -/
theorem progress_in_output :
    (∃ r, museFcu761kResolveDeb (hostStage []) = .ok r ∧ ¬ OneLine r) ∧
      (∃ r, cokepiAic8800ResolveDeb (hostStage []) = .ok r ∧ ¬ OneLine r) ∧
      ∃ r, rm500qResolvePkg (hostStage rm500qUrl) = .ok r ∧ ¬ OneLine r := by
  refine ⟨?_, ?_, ?_⟩
  · rw [museFcu761kResolveDeb, aic8800_downloads rfl (fun _ => rfl) (fun _ => rfl) rfl rfl
      defaultUrls.1]
    exact download_hostStage _ _ _
  · rw [cokepiAic8800ResolveDeb, aic8800_downloads rfl (fun _ => rfl) (fun _ => rfl) rfl rfl
      defaultUrls.2]
    exact download_hostStage _ _ _
  · rw [rm500q_downloads rfl (fun _ => rfl) (fun _ => rfl) rfl (by decide +kernel)
      (by decide +kernel)]
    exact download_hostStage _ _ _

end FirmwareResolver
