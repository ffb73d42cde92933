import SbcImageBuild.Foundation.FileCommands
import SbcImageBuild.Foundation.StepSystem

/-!
# The kernel hook

`pre_build_kernel` of `boards/rk3588-muse/board.hooks.sh`, which integrates the modem driver
into a kernel tree. Locations are relative to `KERNEL_DIR`, and links are followed within it.
-/
namespace KernelHook

open Delimited ShellText FileTree FileCommands

def drivers : Loc := ["drivers".toList]

def driversMakefile : Loc := drivers ++ ["Makefile".toList]

def pcieMhiDst : Loc := drivers ++ ["pcie_mhi".toList]

def mhiHost : Loc := drivers ++ ["bus".toList, "mhi".toList, "host".toList]

def mhiPciGeneric : Loc := mhiHost ++ ["pci_generic.c".toList]

/-- What the first step of the hook leaves: no driver source is set, or fetching it ended the
script, or there is a directory with it outside the kernel tree, which no edit of the tree
reaches. -/
inductive DriverSource where
  | missing
  | unusable
  | found (source : Files Text)

/-- `grep -q` of a file: some line has a match. -/
def Grep (matching : Text → Prop) (text : Text) : Prop := ∃ line ∈ records '\n' text, matching line

instance (matching : Text → Prop) [DecidablePred matching] (text : Text) :
    Decidable (Grep matching text) :=
  inferInstanceAs (Decidable (∃ line ∈ records '\n' text, matching line))

def Has (pattern line : Text) : Prop := pattern <:+: line

instance (pattern : Text) : DecidablePred (Has pattern) := fun line =>
  inferInstanceAs (Decidable (pattern <:+: line))

/-- The pattern `first.*second`. -/
def HasBoth (first second line : Text) : Prop :=
  ∃ n < line.length + 1, Has first (line.take n) ∧ Has second (line.drop n)

instance (first second : Text) : DecidablePred (HasBoth first second) := fun line =>
  inferInstanceAs (Decidable (∃ n < line.length + 1, _ ∧ _))

def pcieMhi : Text := "pcie_mhi".toList

def deviceId : Text := "0x0306".toList

def objLine : Text := "obj-y += pcie_mhi/\n".toList

def disabledMark : Text := "/* pcie_mhi: disabled by board.hooks.sh */".toList

/-- The layout of a driver package that the hook insists on. -/
def ValidDriver (source : Files Text) : Prop :=
  (stat source ["Makefile".toList]).any Node.isFile ∧
    (stat source ["core".toList]).any Node.isDir ∧
    (stat source ["controllers".toList]).any Node.isDir ∧
    (stat source ["devices".toList]).any Node.isDir

instance (source : Files Text) : Decidable (ValidDriver source) :=
  inferInstanceAs (Decidable (_ ∧ _))

/-- `rm -rf`, which does not follow a link at the end of its path. -/
def rmRf (k : Files Text) (parent : List Text) (name : Text) : Files Text :=
  match directoryAt k parent with
  | some d => remove k (d ++ [name])
  | none => k

/-- A copy gets the permissions that the file mode creation mask leaves. -/
def copiedNode : Node Text → Node Text
  | .dir mode => .dir (mode &&& 0o755)
  | .file content mode => .file content (mode &&& 0o755)
  | .symlink target => .symlink target

/-- What `cp -r source/*` puts at a path below its destination; hidden names are not matched. -/
def copied (source : Files Text) : List Text → Option (Node Text)
  | [] => none
  | n :: q => if n.head? = some '.' then none else (source (n :: q)).map copiedNode

def copyDriver (source k : Files Text) : Option (Files Text) :=
  (directoryAt k pcieMhiDst).map fun d q =>
    if d <+: q then (copied source (q.drop d.length)).or (k q) else k q

def contentOf : Option (Node Text) → Text
  | some (.file content _) => content
  | _ => []

/-- An append writes the old text and the new line. -/
def wireMakefile (k : Files Text) : Option (Files Text) :=
  let text := contentOf (stat k driversMakefile)
  if Grep (Has pcieMhi) text then some k
  else (directoryAt k drivers).bind fun d =>
    let o := redirect k d ⟨"Makefile".toList, false⟩ (text ++ objLine)
    o.result.map fun _ => o.tree

def commentOut (line : Text) : Text := if Has deviceId line then disabledMark ++ line else line

/-- A line has the device, and no line has both it and the driver's name. -/
def Conflicts (text : Text) : Prop :=
  Grep (Has deviceId) text ∧
    ¬ Grep (fun line => HasBoth pcieMhi deviceId line ∨ HasBoth deviceId pcieMhi line) text

instance : DecidablePred Conflicts := fun _ => inferInstanceAs (Decidable (_ ∧ ¬ _))

/-- `sed -i` puts a new file in place of what its path names. -/
def disablePciGeneric (k : Files Text) : Option (Files Text) :=
  match stat k mhiPciGeneric with
  | some (.file text mode) =>
    if Conflicts text then
      (directoryAt k mhiHost).map fun d =>
        put k (d ++ ["pci_generic.c".toList]) (.file (mapRecords '\n' commentOut text) mode)
    else some k
  | _ => some k

/-- The commands of `pre_build_kernel` that touch the kernel tree, in their order. -/
def preBuildKernel : DriverSource → List (Files Text → Option (Files Text))
  | .missing => []
  | .unusable => [fun _ => none]
  | .found source =>
    if ValidDriver source then
      [fun k => some (rmRf k drivers "pcie_mhi".toList),
       fun k => (mkdirP k [] pcieMhiDst).result.map fun _ => (mkdirP k [] pcieMhiDst).tree,
       copyDriver source, wireMakefile, disablePciGeneric]
    else [fun _ => none]

/-- A tree in which the hook works at the locations it names. -/
structure Steady (k : Files Text) : Prop where
  dirs : ∀ q, q <+: drivers → isDir k q
  makefile : Direct k driversMakefile
  generic : Direct k mhiPciGeneric

/-- The driver as it lies in the kernel tree. -/
def installed (source : Files Text) : List Text → Option (Node Text)
  | [] => some (.dir 0o755)
  | n :: q => copied source (n :: q)

def integrated (source k : Files Text) : Files Text := fun q =>
  if pcieMhiDst <+: q then installed source (q.drop pcieMhiDst.length) else k q

/-- `drivers/Makefile` behind the hook; there is none if the line cannot be appended. -/
def wired : Option (Node Text) → Option (Node Text)
  | none => some (.file objLine 0o644)
  | some (.file text mode) =>
    some (.file (if Grep (Has pcieMhi) text then text else text ++ objLine) mode)
  | some _ => none

def disabledText (text : Text) : Text :=
  if Conflicts text then mapRecords '\n' commentOut text else text

def disabled : Node Text → Node Text
  | .file text mode => .file (disabledText text) mode
  | n => n

def withDisabled (k : Files Text) : Files Text := fun q =>
  if q = mhiPciGeneric then (k q).map disabled else k q

section Texts

theorem grep_append_objLine (text : Text) : Grep (Has pcieMhi) (text ++ objLine) := by
  obtain ⟨rs, last, heq⟩ :=
    records_append_record '\n' text (r := "obj-y += pcie_mhi/".toList) (by decide)
  change records '\n' (text ++ objLine) = _ at heq
  refine ⟨last ++ "obj-y += pcie_mhi/".toList, by simp [heq], ?_⟩
  have hline : pcieMhi <:+: "obj-y += pcie_mhi/".toList := ⟨"obj-y += ".toList, ['/'], rfl⟩
  exact hline.trans (List.suffix_append last _).isInfix

theorem wired_idem {n : Option (Node Text)} (h : wired n ≠ none) : wired (wired n) = wired n := by
  rcases n with _ | (m | ⟨text, m⟩ | target)
  · have hgrep : Grep (Has pcieMhi) objLine := grep_append_objLine []
    simp [wired, hgrep]
  · exact absurd rfl h
  · by_cases hgrep : Grep (Has pcieMhi) text
    · simp [wired, hgrep]
    · simp [wired, hgrep, grep_append_objLine]
  · exact absurd rfl h

theorem commentOut_line {line : Text} (h : '\n' ∉ line) : '\n' ∉ commentOut line := by
  unfold commentOut
  split
  · have hmark : '\n' ∉ disabledMark := by decide
    simp [hmark, h]
  · exact h

theorem commentOut_nil (line : Text) : commentOut line = [] ↔ line = [] := by
  unfold commentOut
  split
  · rename_i hid
    constructor
    · intro hnil
      exact (List.append_eq_nil_iff.mp hnil).2
    · rintro rfl
      exact absurd hid (by decide)
  · exact Iff.rfl

theorem commentOut_marked {line : Text} (h : Has deviceId line) :
    HasBoth pcieMhi deviceId (commentOut line) := by
  have hmark : Has pcieMhi disabledMark :=
    ⟨"/* ".toList, ": disabled by board.hooks.sh */".toList, rfl⟩
  rw [commentOut, if_pos h]
  refine ⟨disabledMark.length, by rw [List.length_append]; omega, ?_, ?_⟩
  · rwa [List.take_left]
  · rwa [List.drop_left]

/-- A text in which the device is commented out has no conflict. -/
theorem disabledText_idem (text : Text) : disabledText (disabledText text) = disabledText text := by
  by_cases h : Conflicts text
  · obtain ⟨line, hline, hid⟩ := h.1
    have hrecords : records '\n' (mapRecords '\n' commentOut text) =
        (records '\n' text).map commentOut :=
      records_mapRecords (fun _ => commentOut_line) commentOut_nil text
    have hmarked : ¬ Conflicts (mapRecords '\n' commentOut text) := by
      rintro ⟨-, hnone⟩
      refine hnone ⟨commentOut line, ?_, .inl (commentOut_marked hid)⟩
      rw [hrecords]
      exact List.mem_map_of_mem hline
    simp [disabledText, h, hmarked]
  · simp [disabledText, h]

theorem disabled_idem (n : Node Text) : disabled (disabled n) = disabled n := by
  cases n with
  | file text mode => simp [disabled, disabledText_idem]
  | dir mode => rfl
  | symlink target => rfl

end Texts

section Commands

variable {k : Files Text}

theorem drivers_proper : ∀ n ∈ drivers, Proper n := by decide

theorem makefile_proper : ∀ n ∈ driversMakefile, Proper n := by decide

theorem host_proper : ∀ n ∈ mhiHost, Proper n := by decide

theorem generic_proper : ∀ n ∈ mhiPciGeneric, Proper n := by decide

theorem dst_proper : ∀ n ∈ pcieMhiDst, Proper n := by decide

theorem not_dst_above {l q : Loc} (hl : ¬ pcieMhiDst <+: l) (hq : q <+: l) :
    ¬ pcieMhiDst <+: q := fun h => hl (h.trans hq)

/-- The directory of the driver is on the way to nothing else the hook names. -/
theorem Steady.congr {u : Files Text} (s : Steady k) (h : ∀ q, ¬ pcieMhiDst <+: q → u q = k q) :
    Steady u := by
  have same : ∀ l, ¬ pcieMhiDst <+: l → Direct k l → Direct u l := by
    intro l hl hd
    have heq := fun q hq => h q (not_dst_above hl hq)
    refine hd.congr (fun q hq _ => heq q hq) ?_ (fun hne => .inl ?_)
    · rw [isSymlink, heq l List.prefix_rfl]
      exact hd.links l List.prefix_rfl
    · rwa [heq l List.prefix_rfl] at hne
  refine ⟨fun q hq => ?_, same _ (by decide) s.makefile, same _ (by decide) s.generic⟩
  rw [isDir, h q (not_dst_above (by decide) hq)]
  exact s.dirs q hq

theorem Steady.direct (s : Steady k) : Direct k drivers :=
  ⟨fun q hq => isDir_not_symlink (s.dirs q hq), fun _ q hq => .inr (s.dirs q hq)⟩

theorem Steady.directoryAt_drivers (s : Steady k) : directoryAt k drivers = some drivers :=
  directoryAt_direct drivers_proper s.direct (s.dirs drivers List.prefix_rfl)

theorem rmRf_steady (s : Steady k) : rmRf k drivers "pcie_mhi".toList = remove k pcieMhiDst := by
  rw [rmRf, s.directoryAt_drivers]
  rfl

/-- The tree with an empty directory for the driver. -/
def cleared (k : Files Text) : Files Text := put (remove k pcieMhiDst) pcieMhiDst (.dir 0o755)

theorem withDisabled_file {text : Text} {mode : ℕ}
    (h : k mhiPciGeneric = some (.file text mode)) :
    withDisabled k = put k mhiPciGeneric (.file (disabledText text) mode) := by
  funext q
  rcases eq_or_ne q mhiPciGeneric with rfl | hne
  · rw [withDisabled, if_pos rfl, h, put_self]
    rfl
  · rw [withDisabled, if_neg hne, put_other hne]

theorem withDisabled_other (h : (k mhiPciGeneric).map disabled = k mhiPciGeneric) :
    withDisabled k = k := by
  funext q
  rcases eq_or_ne q mhiPciGeneric with rfl | hne
  · rw [withDisabled, if_pos rfl, h]
  · rw [withDisabled, if_neg hne]

theorem cleared_elsewhere (k : Files Text) {q : Loc} (hq : ¬ pcieMhiDst <+: q) :
    cleared k q = k q := by
  have hne : q ≠ pcieMhiDst := by
    rintro rfl
    exact hq List.prefix_rfl
  rw [cleared, put_other hne, remove_other hq]

theorem integrated_elsewhere (source k : Files Text) {q : Loc} (hq : ¬ pcieMhiDst <+: q) :
    integrated source k q = k q := if_neg hq

theorem mkdirP_removed (s : Steady k) :
    (mkdirP (remove k pcieMhiDst) [] pcieMhiDst).tree = cleared k ∧
      (mkdirP (remove k pcieMhiDst) [] pcieMhiDst).result = some pcieMhiDst := by
  have hname : Proper "pcie_mhi".toList := by decide
  have steady : Steady (remove k pcieMhiDst) := s.congr fun _ hq => remove_other hq
  have hnone : remove k pcieMhiDst (drivers ++ ["pcie_mhi".toList]) = none :=
    if_pos List.prefix_rfl
  have hsteps : mkdirP (remove k pcieMhiDst) [] pcieMhiDst =
      (write (remove k pcieMhiDst) pcieMhiDst (.dir 0o755)).andThen fun _ t =>
        mkdirP t pcieMhiDst [] := by
    rw [pcieMhiDst, mkdirP_dirs drivers_proper steady.dirs, List.nil_append, mkdirP_step hname]
    exact if_pos hnone
  rw [hsteps, write_andThen]
  exact ⟨rfl, rfl⟩

theorem directoryAt_cleared (s : Steady k) :
    directoryAt (cleared k) pcieMhiDst = some pcieMhiDst := by
  have hdst : isDir (cleared k) pcieMhiDst := isDir_put_self _ _ _
  have hdirs : ∀ q, q <+: pcieMhiDst → isDir (cleared k) q := by
    intro q hq
    rcases List.prefix_concat_iff.mp hq with rfl | hq
    · exact hdst
    · exact (s.congr fun _ => cleared_elsewhere k).dirs q hq
  exact directoryAt_direct dst_proper
    ⟨fun q hq => isDir_not_symlink (hdirs q hq), fun _ q hq => .inr (hdirs q hq)⟩ hdst

theorem copyDriver_cleared (s : Steady k) (source : Files Text) :
    copyDriver source (cleared k) = some (integrated source k) := by
  rw [copyDriver, directoryAt_cleared s, Option.map_some]
  congr 1
  funext q
  by_cases hq : pcieMhiDst <+: q
  · rw [integrated, if_pos hq, if_pos hq]
    obtain ⟨r, rfl⟩ := hq
    rw [List.drop_left]
    cases r with
    | nil => simp [copied, installed, cleared]
    | cons n r => simp [installed, cleared, put, remove]
  · rw [if_neg hq, integrated_elsewhere source k hq, cleared_elsewhere k hq]

theorem wireMakefile_steady (s : Steady k) :
    wireMakefile k = (wired (k driversMakefile)).map (put k driversMakefile) := by
  have hlink : isSymlink k (drivers ++ ["Makefile".toList]) = false :=
    s.makefile.links driversMakefile List.prefix_rfl
  have hnil : ¬ Grep (Has pcieMhi) [] := by
    rintro ⟨line, hline, -⟩
    simp [records, dropEmptyLast] at hline
  have hplain : Last.Plain ⟨"Makefile".toList, false⟩ := by decide
  rw [wireMakefile, stat_direct makefile_proper s.makefile, s.directoryAt_drivers, Option.bind_some,
    redirect_direct _ hplain hlink]
  change _ = (wired (k (drivers ++ ["Makefile".toList]))).map _
  rw [driversMakefile]
  rcases hn : k (drivers ++ ["Makefile".toList]) with _ | (m | ⟨text, m⟩ | target)
  · simp [contentOf, hnil, wired, write]
  · simp [contentOf, hnil, wired, fail]
  · by_cases hgrep : Grep (Has pcieMhi) text
    · simp only [contentOf, hgrep, wired, if_true, Option.map_some]
      rw [put_same hn]
    · simp [contentOf, hgrep, wired, write]
  · rw [isSymlink, hn] at hlink
    cases hlink

theorem disablePciGeneric_steady (s : Steady k) : disablePciGeneric k = some (withDisabled k) := by
  rw [disablePciGeneric, stat_direct generic_proper s.generic]
  rcases hn : k mhiPciGeneric with _ | (m | ⟨text, m⟩ | target)
  · rw [withDisabled_other (by rw [hn]; rfl)]
  · rw [withDisabled_other (by rw [hn]; rfl)]
  · rw [withDisabled_file hn]
    dsimp only
    by_cases h : Conflicts text
    · obtain ⟨hdirect, hdir⟩ := Direct.parent s.generic (by rw [← mhiPciGeneric, hn]; simp)
      rw [if_pos h, directoryAt_direct host_proper hdirect hdir, disabledText, if_pos h]
      rfl
    · rw [if_neg h, disabledText, if_neg h, put_same hn]
  · rw [withDisabled_other (by rw [hn]; rfl)]

/-- A write to a file the hook names, where there is none or where there is one. -/
theorem Steady.put_makefile (s : Steady k) {n : Node Text} (hn : n.isSymlink = false) :
    Steady (put k driversMakefile n) := by
  have other : ∀ q, q ≠ driversMakefile → put k driversMakefile n q = k q := fun q => put_other
  refine ⟨fun q hq => ?_, s.makefile.congr (fun q _ hne => other q hne) ?_ ?_, ?_⟩
  · have hne : q ≠ driversMakefile := by
      rintro rfl
      exact absurd hq (by decide)
    rw [isDir, other q hne]
    exact s.dirs q hq
  · simp [isSymlink, hn]
  · intro _
    right
    intro q hq hne
    exact s.dirs q ((List.prefix_concat_iff.mp hq).resolve_left hne)
  · have hne : ∀ q, q <+: mhiPciGeneric → q ≠ driversMakefile := by
      rintro q hq rfl
      exact absurd hq (by decide)
    refine s.generic.congr (fun q hq _ => other q (hne q hq)) ?_ (fun h => .inl ?_)
    · rw [isSymlink, other _ (hne _ List.prefix_rfl)]
      exact s.generic.links _ List.prefix_rfl
    · rwa [other _ (hne _ List.prefix_rfl)] at h

theorem wired_not_symlink {n : Option (Node Text)} {m : Node Text} (h : wired n = some m) :
    m.isSymlink = false := by
  rcases n with _ | (mode | ⟨text, mode⟩ | target)
  · cases h
    rfl
  · cases h
  · cases h
    rfl
  · cases h

end Commands

abbrev runCommands : List (Files Text → Option (Files Text)) → Files Text → Option (Files Text) :=
  StepSystem.run fun k f => f k

/-- What a run of the hook with a valid driver leaves. -/
theorem preBuildKernel_run {k : Files Text} (s : Steady k) {source : Files Text}
    (h : ValidDriver source) :
    runCommands (preBuildKernel (.found source)) k = (wired (k driversMakefile)).map fun n =>
      withDisabled (put (integrated source k) driversMakefile n) := by
  have made := mkdirP_removed s
  have steady : Steady (integrated source k) := s.congr fun _ => integrated_elsewhere source k
  have hmakefile : integrated source k driversMakefile = k driversMakefile :=
    integrated_elsewhere source k (by decide)
  rw [preBuildKernel, if_pos h]
  simp only [runCommands, StepSystem.run, Option.bind_some, rmRf_steady s, made.1, made.2,
    Option.map_some, copyDriver_cleared s, wireMakefile_steady steady, hmakefile]
  cases hw : wired (k driversMakefile) with
  | none => rfl
  | some n =>
    rw [Option.map_some, Option.bind_some,
      disablePciGeneric_steady (steady.put_makefile (wired_not_symlink hw))]
    rfl

end KernelHook
