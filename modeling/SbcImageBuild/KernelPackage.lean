import SbcImageBuild.BoardProfile
import SbcImageBuild.BuildMetadata
import SbcImageBuild.DiskGeometry
import Mathlib.Logic.Function.Basic

/-!
# The kernel package and its device tree

The end of `build_kernel.sh`, behind `make`: the device tree loses its boot arguments, and the
artifacts go to the common output directory with metadata. `verify_image.sh` checks both.
-/
namespace KernelPackage

open ShellText BoardProfile ByteStore Delimited BuildMetadata DiskGeometry

/-- The nodes of a device tree by their paths, each with its properties. A blob that is no
device tree has not even a root node. -/
abbrev DeviceTree := Text → Option (Text → Option Bytes)

def root : Text := "/".toList
def chosen : Text := "/chosen".toList
def bootargs : Text := "bootargs".toList

def property (dtb : DeviceTree) (node name : Text) : Option Bytes :=
  (dtb node).bind fun properties => properties name

/-- `fdtget -l`. -/
def fdtgetList (dtb : DeviceTree) (node : Text) : Bool := (dtb node).isSome

/-- The values that can be printed as strings: empty, or ended by a zero byte. -/
def Printable (value : Bytes) : Prop := value = [] ∨ value.getLast? = some 0

instance : DecidablePred Printable := fun value =>
  inferInstanceAs (Decidable (value = [] ∨ value.getLast? = some 0))

/-- `fdtget -t s`; it also fails for a property whose value it cannot print. -/
def fdtgetString (dtb : DeviceTree) (node name : Text) : Bool :=
  (property dtb node name).any fun value => Printable value

/-- `fdtput -d`. -/
def fdtputDelete (dtb : DeviceTree) (node name : Text) : Except Text DeviceTree :=
  match dtb node with
  | some properties =>
    if properties name = none then .error "Error: FDT_ERR_NOTFOUND".toList
    else .ok (Function.update dtb node (some (Function.update properties name none)))
  | none => .error "Error: FDT_ERR_NOTFOUND".toList

def removeBootargs (dtb : DeviceTree) : Except Text DeviceTree :=
  if fdtgetString dtb chosen bootargs then fdtputDelete dtb chosen bootargs else .ok dtb

/-- Any value of `DTB_STRIP_BOOTARGS` but `yes` preserves the boot arguments. -/
def stripBootargs (p : Vars) (kernelDtbPath : Text) (dtb : DeviceTree) :
    Except Text DeviceTree := do
  if orDefault p.dtbStripBootargs "yes".toList = "yes".toList then
    require (fdtgetList dtb root) ("Built board DTB is invalid: ".toList ++ kernelDtbPath)
    let stripped ← removeBootargs dtb
    require (¬ fdtgetString stripped chosen bootargs)
      ("Packaged DTB still defines /chosen/bootargs: ".toList ++ kernelDtbPath)
    pure stripped
  else pure dtb

def requiredConfigs : List Text :=
  ["CONFIG_AUTOFS_FS=y", "CONFIG_CGROUPS=y", "CONFIG_DEVTMPFS=y", "CONFIG_DEVTMPFS_MOUNT=y",
   "CONFIG_EXT4_FS=y", "CONFIG_FHANDLE=y", "CONFIG_HW_RANDOM_VIRTIO=y", "CONFIG_MEMCG=y",
   "CONFIG_MMC_BLOCK=y", "CONFIG_NAMESPACES=y", "CONFIG_OVERLAY_FS=y", "CONFIG_RTC_DRV_PL031=y",
   "CONFIG_SQUASHFS=y", "CONFIG_SECCOMP=y", "CONFIG_SERIAL_AMBA_PL011=y",
   "CONFIG_SERIAL_AMBA_PL011_CONSOLE=y", "CONFIG_TMPFS=y", "CONFIG_TMPFS_POSIX_ACL=y",
   "CONFIG_TMPFS_XATTR=y", "CONFIG_UNIX=y", "CONFIG_VIRTIO=y", "CONFIG_VIRTIO_BLK=y",
   "CONFIG_VIRTIO_MMIO=y", "CONFIG_VIRTIO_NET=y"].map String.toList

/-- The build directory after `make`, and what the metadata records of the build. -/
structure KernelTree where
  kernelBuild : Text
  config : Text
  image : Option Bytes
  dtb : Option DeviceTree
  dtboFile : Text → Option Bytes
  systemMap : Option Bytes
  kernelRelease : Text
  modulesInstalled : Bool
  modulesTar : Bytes
  kernelRevision : Text
  crossCompile : Text
  jobs : Text
  generatedUtc : Text

/-- What is installed into the common output directory. -/
structure KernelArtifacts where
  image : Bytes
  dtb : DeviceTree
  config : Text
  kernelRelease : Text
  overlays : List (Text × Bytes)
  modulesTar : Bytes
  systemMap : Option Bytes
  buildInfo : Text

def requireDtb (file : Option DeviceTree) (path : Text) : Except Text DeviceTree :=
  match file with
  | some content => .ok content
  | none => .error ("Missing board DTB: ".toList ++ path)

/-- The words of an unquoted expansion. -/
def words (t : Text) : List Text := (t.splitOnP fun c => c ∈ " \t\n".toList).filter (· ≠ [])

/-- An overlay is looked for under `overlay/` first; one that is not there is skipped. -/
def installOverlays (p : Vars) (k : KernelTree) : List (Text × Bytes) :=
  (words p.kernelDtbo).filterMap fun dtbo =>
    ((k.dtboFile ("overlay/".toList ++ dtbo)).or (k.dtboFile dtbo)).map fun content =>
      (dtbo, content)

def kernelFields (p : Vars) (k : KernelTree) : List Field :=
  [⟨"source_manifest".toList, p.sourceManifest⟩,
   ⟨"kernel_revision".toList, k.kernelRevision⟩,
   ⟨"kernel_release".toList, k.kernelRelease⟩,
   ⟨"kernel_defconfig".toList, p.kernelDefconfig⟩,
   ⟨"kernel_dtb".toList, p.kernelDtb⟩,
   ⟨"dtb_bootargs".toList, "extlinux-only-v1".toList⟩,
   ⟨"kernel_source_view".toList, "symlink-clean-v1".toList⟩,
   ⟨"cross_compile".toList, k.crossCompile⟩,
   ⟨"jobs".toList, k.jobs⟩]

def kernelBuildInfo (p : Vars) (k : KernelTree) : Text :=
  writeCommonMetadata p.board p.boardDescription k.generatedUtc
    ((kernelFields p k).map Field.line)

def packageKernel (p : Vars) (k : KernelTree) : Except Text KernelArtifacts := do
  let boot := k.kernelBuild ++ "/arch/arm64/boot".toList
  let kernelDtbPath := boot ++ "/dts/rockchip/".toList ++ p.kernelDtb
  forM requiredConfigs fun requiredConfig => require (requiredConfig ∈ records '\n' k.config)
    ("Kernel configuration did not retain ".toList ++ requiredConfig)
  require k.modulesInstalled ("Missing installed kernel modules: ".toList ++ k.kernelBuild ++
    "/modules-stage/lib/modules/".toList ++ k.kernelRelease)
  let image ← requireFile k.image (boot ++ "/Image".toList) "kernel Image".toList
  let dtb ← requireDtb k.dtb kernelDtbPath
  let stripped ← stripBootargs p kernelDtbPath dtb
  pure ⟨image, stripped, k.config, k.kernelRelease, installOverlays p k, k.modulesTar,
    k.systemMap, kernelBuildInfo p k⟩

/-- `verify_extlinux_dtb`. -/
def verifyExtlinuxDtb (dtb : DeviceTree) (path description : Text) : Except Text Unit := do
  require (fdtgetList dtb root) (description ++ " is not a valid DTB: ".toList ++ path)
  require (¬ fdtgetString dtb chosen bootargs)
    (description ++ " defines /chosen/bootargs and can override extlinux".toList)

def bootargsRecord : Text := "dtb_bootargs=extlinux-only-v1".toList

/-- The node `/chosen` has the property `bootargs`, whatever its value. -/
def HasBootargs (dtb : DeviceTree) : Prop := property dtb chosen bootargs ≠ none

instance : DecidablePred HasBootargs := fun dtb =>
  inferInstanceAs (Decidable (property dtb chosen bootargs ≠ none))

/-- The metadata claims a device tree without boot arguments only when it is one, and the
verifier accepts the device tree. -/
def BootargsContract (a : KernelArtifacts) (path : Text) : Prop :=
  (bootargsRecord ∈ records '\n' a.buildInfo → ¬ HasBootargs a.dtb) ∧
    verifyExtlinuxDtb a.dtb path "Board DTB artifact".toList = .ok ()

/-- Nothing has to be removed from the compiled device tree, or what is there is removed. -/
def BootargsRemovable (p : Vars) (dtb : DeviceTree) : Prop :=
  HasBootargs dtb →
    orDefault p.dtbStripBootargs "yes".toList = "yes".toList ∧ fdtgetString dtb chosen bootargs

theorem requireDtb_ok {file : Option DeviceTree} {path : Text} {dtb : DeviceTree} :
    requireDtb file path = .ok dtb ↔ file = some dtb := by
  cases file <;> simp [requireDtb]

theorem fdtgetString_property {dtb : DeviceTree} {node name : Text}
    (h : property dtb node name = none) : fdtgetString dtb node name = false := by
  rw [fdtgetString, h]
  rfl

theorem fdtputDelete_ok {dtb stripped : DeviceTree} {node name : Text}
    (h : fdtputDelete dtb node name = .ok stripped) :
    property stripped node name = none ∧ ∀ q, (stripped q).isSome = (dtb q).isSome := by
  rw [fdtputDelete] at h
  split at h
  · rename_i properties hnode
    split at h
    · cases h
    · cases h
      constructor
      · simp [property]
      · intro q
        rcases eq_or_ne q node with rfl | hq
        · simp [hnode]
        · rw [Function.update_of_ne hq]
  · cases h

/-- Removal cannot fail: what can be printed is there. -/
theorem removeBootargs_ok {dtb stripped : DeviceTree} (h : removeBootargs dtb = .ok stripped) :
    (∀ q, (stripped q).isSome = (dtb q).isSome) ∧
    (HasBootargs stripped ↔ HasBootargs dtb ∧ ¬ fdtgetString dtb chosen bootargs) := by
  rw [removeBootargs] at h
  split at h
  · rename_i hprint
    obtain ⟨hgone, hnodes⟩ := fdtputDelete_ok h
    exact ⟨hnodes, fun hstripped => absurd hgone hstripped, fun hdtb => absurd hprint hdtb.2⟩
  · rename_i hprint
    cases h
    exact ⟨fun _ => rfl, fun hdtb => ⟨hdtb, hprint⟩, And.left⟩

theorem stripBootargs_ok {p : Vars} {path : Text} {dtb stripped : DeviceTree}
    (h : stripBootargs p path dtb = .ok stripped) :
    (∀ q, (stripped q).isSome = (dtb q).isSome) ∧
    (¬ HasBootargs stripped ↔ BootargsRemovable p dtb) := by
  rw [stripBootargs] at h
  split at h
  · rename_i hyes
    simp only [bind_ok, require_ok] at h
    obtain ⟨_, -, t, ht, _, -, hpure⟩ := h
    cases hpure
    obtain ⟨hnodes, hhas⟩ := removeBootargs_ok ht
    refine ⟨hnodes, ?_⟩
    rw [hhas, not_and, not_not]
    exact ⟨fun hprint hdtb => ⟨hyes, hprint hdtb⟩, fun hremovable hdtb => (hremovable hdtb).2⟩
  · rename_i hno
    cases h
    refine ⟨fun _ => rfl, fun hnone hdtb => absurd hdtb hnone, ?_⟩
    intro hremovable hdtb
    exact hno (hremovable hdtb).1

theorem packageKernel_ok {p : Vars} {k : KernelTree} {a : KernelArtifacts}
    (h : packageKernel p k = .ok a) :
    ∃ dtb, k.dtb = some dtb ∧
      stripBootargs p (k.kernelBuild ++ "/arch/arm64/boot".toList ++ "/dts/rockchip/".toList ++
        p.kernelDtb) dtb = .ok a.dtb ∧ a.buildInfo = kernelBuildInfo p k := by
  simp only [packageKernel, bind_ok] at h
  obtain ⟨_, -, _, -, image, -, dtb, hdtb, stripped, hstripped, hpure⟩ := h
  cases hpure
  exact ⟨dtb, requireDtb_ok.mp hdtb, hstripped, rfl⟩

theorem packageKernel_complete {p : Vars} {k : KernelTree} {image : Bytes}
    {dtb stripped : DeviceTree} (hconfigs : ∀ c ∈ requiredConfigs, c ∈ records '\n' k.config)
    (hmodules : k.modulesInstalled) (himage : k.image = some image) (hdtb : k.dtb = some dtb)
    (hstrip : ∀ path, stripBootargs p path dtb = .ok stripped) :
    ∃ a, packageKernel p k = .ok a ∧ a.dtb = stripped ∧ a.buildInfo = kernelBuildInfo p k := by
  refine ⟨⟨image, stripped, k.config, k.kernelRelease, installOverlays p k, k.modulesTar,
    k.systemMap, kernelBuildInfo p k⟩, ?_, rfl, rfl⟩
  simp only [packageKernel, bind_ok, requireFile_ok, requireDtb_ok, require_ok]
  exact ⟨(), forM_require_ok.mpr hconfigs, (), hmodules, image, himage, dtb, hdtb, stripped,
    hstrip _, rfl⟩

/-- The metadata makes the claim in any case. -/
theorem bootargs_recorded (p : Vars) (k : KernelTree) :
    bootargsRecord ∈ records '\n' (kernelBuildInfo p k) := by
  rw [kernelBuildInfo, writeCommonMetadata, printfLines, if_neg (by simp [kernelFields]),
    ← terminate_append]
  apply mem_records_terminate (by decide)
  apply List.mem_append_right
  exact List.mem_map.mpr ⟨⟨"dtb_bootargs".toList, "extlinux-only-v1".toList⟩,
    by simp [kernelFields], rfl⟩

/-- A device tree with boot arguments is recorded as one without and refused by the verifier,
unless the property was removable. -/
theorem bootargs_contract_iff {p : Vars} {k : KernelTree} {a : KernelArtifacts}
    {dtb : DeviceTree} (hk : k.dtb = some dtb) (compiled : fdtgetList dtb root)
    (h : packageKernel p k = .ok a) (path : Text) :
    BootargsContract a path ↔ BootargsRemovable p dtb := by
  obtain ⟨t, ht, hstrip, hinfo⟩ := packageKernel_ok h
  obtain rfl : dtb = t := Option.some.inj (hk.symm.trans ht)
  obtain ⟨hnodes, hremoved⟩ := stripBootargs_ok hstrip
  have recorded := bootargs_recorded p k
  rw [← hinfo] at recorded
  rw [← hremoved]
  constructor
  · intro contract
    exact contract.1 recorded
  · intro hnone
    have valid : fdtgetList a.dtb root := (hnodes root).trans compiled
    have silent : fdtgetString a.dtb chosen bootargs = false :=
      fdtgetString_property (not_not.mp hnone)
    refine ⟨fun _ => hnone, ?_⟩
    simp only [verifyExtlinuxDtb, bind_ok, require_ok]
    exact ⟨(), valid, by simp [silent]⟩

/-- The device tree of a board that brings `quiet` as its boot arguments. -/
def quietDtb : DeviceTree := fun node =>
  if node = root then some fun _ => none
  else if node = chosen then
    some fun name => if name = bootargs then some [0x71, 0x75, 0x69, 0x65, 0x74, 0] else none
  else none

def quietTree : KernelTree :=
  { kernelBuild := "/build/kernel".toList
    config := terminate '\n' requiredConfigs
    image := some [0]
    dtb := some quietDtb
    dtboFile := fun _ => none
    systemMap := none
    kernelRelease := "5.10.226".toList
    modulesInstalled := true
    modulesTar := []
    kernelRevision := "567401fe17185f0f4a65866158b775a364feb2d3".toList
    crossCompile := "aarch64-linux-gnu-".toList
    jobs := "8".toList
    generatedUtc := "2025-01-01T00:00:00Z".toList }

theorem quietTree_configs : ∀ c ∈ requiredConfigs, c ∈ records '\n' quietTree.config := by
  have free : ∀ c ∈ requiredConfigs, '\n' ∉ c := by
    unfold requiredConfigs
    simp only [List.map_cons, List.map_nil]
    repeat rw [String.toList_ofList]
    decide
  intro c hc
  exact mem_records_terminate (free c hc) hc

theorem bootargs_contract_iff_stripped :
    ∃ a, packageKernel (optionalDefaults (profileDefaults rock5c)) quietTree = .ok a ∧
      BootargsContract a [] := by
  have removed : ∀ path, stripBootargs (optionalDefaults (profileDefaults rock5c)) path quietDtb =
      .ok (Function.update quietDtb chosen
        (some (Function.update (fun name => if name = bootargs then
          some [0x71, 0x75, 0x69, 0x65, 0x74, 0] else none) bootargs none))) := fun _ => rfl
  obtain ⟨a, ha, -⟩ := packageKernel_complete quietTree_configs rfl rfl rfl removed
  have compiled : fdtgetList quietDtb root := rfl
  refine ⟨a, ha, (bootargs_contract_iff rfl compiled ha []).mpr ?_⟩
  intro _
  exact ⟨rfl, by decide +kernel⟩

/-- `DTB_STRIP_BOOTARGS=no` keeps the boot arguments of the board. -/
theorem bootargs_contract_preserved :
    ¬ ∀ fileExists env p k a dtb path, validateBoardProfile fileExists env = .ok p →
      k.dtb = some dtb → fdtgetList dtb root → packageKernel p k = .ok a →
      BootargsContract a path := by
  intro contract
  have accepted : validateBoardProfile (fun _ => true)
      { rock5c with dtbStripBootargs := "no".toList } =
      .ok (optionalDefaults (profileDefaults { rock5c with dtbStripBootargs := "no".toList })) := by
    unfold rock5c
    repeat rw [String.toList_ofList]
    decide +kernel
  have preserved : ∀ path, stripBootargs (optionalDefaults (profileDefaults
      { rock5c with dtbStripBootargs := "no".toList })) path quietDtb = .ok quietDtb := fun _ => rfl
  obtain ⟨a, ha, hdtb, hinfo⟩ := packageKernel_complete quietTree_configs rfl rfl rfl preserved
  have kept := (contract _ _ _ _ a quietDtb [] accepted rfl rfl ha).1
  rw [hdtb, hinfo] at kept
  exact kept (bootargs_recorded _ _) (by decide +kernel)

end KernelPackage
