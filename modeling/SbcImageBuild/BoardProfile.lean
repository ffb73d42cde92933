import SbcImageBuild.Foundation.ShellText

/-!
# Board profiles

The shell variables a board profile sets, and `validate_board_profile` of
`scripts/lib/common.sh`: defaults, checks in their order, and the message of each check.
-/
namespace BoardProfile

open ShellText

/-- Globals read or set while a profile is validated. An unset variable is empty. -/
structure Vars where
  projectDir : Text := []
  board : Text := []
  boardProfile : Text := []
  boardDescription : Text := []
  bootloaderLayout : Text := []
  downloadLoaderGlobs : Text := []
  loaderGlobs : Text := []
  ubootImageNames : Text := []
  ubootBuildSystem : Text := []
  ubootPython : Text := []
  idblockSector : Text := []
  loaderSector : Text := []
  ubootSector : Text := []
  imageSizeMib : Text := []
  bootStartMib : Text := []
  bootSizeMib : Text := []
  rootfsSizeMib : Text := []
  rootfsMode : Text := []
  rootfsModeDefault : Text := []
  dataSizeMib : Text := []
  dataSizeMibDefault : Text := []
  kernelDefconfig : Text := []
  kernelDtb : Text := []
  kernelDtbo : Text := []
  ubootDefconfig : Text := []
  ubootBoard : Text := []
  console : Text := []
  sourceManifest : Text := []
  expectedKernelRevision : Text := []
  expectedUbootRevision : Text := []
  expectedRkbinRevision : Text := []
  expectedBuildrootRevision : Text := []
  dtbStripBootargs : Text := []
  outputImagePrefix : Text := []
  extlinuxLabel : Text := []
  deriving DecidableEq, Repr

def rwExt4 : Text := "rw-ext4".toList
def roOverlay : Text := "ro-overlay".toList
def idblockLayout : Text := "rockchip-gpt-idblock-extlinux-v1".toList

/-- `is_positive_integer`: a nonzero digit followed by digits. -/
def IsPositiveInteger : Text → Prop
  | [] => False
  | c :: t => c ≠ '0' ∧ ∀ d ∈ c :: t, isDigit d

instance : DecidablePred IsPositiveInteger
  | [] => inferInstanceAs (Decidable False)
  | c :: t => inferInstanceAs (Decidable (c ≠ '0' ∧ ∀ d ∈ c :: t, isDigit d = true))

theorem arithmetic_of_positive {t : Text} (h : IsPositiveInteger t) :
    arithmetic t = some (decimal t : ℤ) := by
  cases t with
  | nil => exact absurd h id
  | cons c t => exact arithmetic_of_leading h.1 h.2

theorem evaluate_of_positive {t : Text} (h : IsPositiveInteger t) :
    evaluate t = .ok (decimal t : ℤ) :=
  evaluate_ok.mpr (arithmetic_of_positive h)

/-- The pattern `*,*[0-9]*`: a digit somewhere behind the first comma. -/
def HasBaud (console : Text) : Prop :=
  ∃ c ∈ (console.dropWhile (· ≠ ',')).drop 1, isDigit c

instance (console : Text) : Decidable (HasBaud console) :=
  inferInstanceAs (Decidable (∃ c ∈ (console.dropWhile (· ≠ ',')).drop 1, isDigit c = true))

def IsRevision (t : Text) : Prop :=
  t.length = 40 ∧ ∀ c ∈ t, isDigit c ∨ ('a' ≤ c ∧ c ≤ 'f')

instance (t : Text) : Decidable (IsRevision t) :=
  inferInstanceAs (Decidable (_ ∧ ∀ c ∈ t, isDigit c = true ∨ ('a' ≤ c ∧ c ≤ 'f')))

/-- The assignments made before the first check, and the two optional sizes and modes. -/
def profileDefaults (v : Vars) : Vars :=
  let layout := orDefault v.bootloaderLayout idblockLayout
  { v with
    bootloaderLayout :=
      if layout = "rockchip-gpt-extlinux-v1".toList then idblockLayout else layout
    downloadLoaderGlobs := orDefault v.downloadLoaderGlobs
      (orDefault v.loaderGlobs "rk3588*loader*.bin;MiniLoaderAll.bin;*loader*.bin".toList)
    ubootImageNames := orDefault v.ubootImageNames "uboot.img;u-boot.img".toList
    ubootBuildSystem := orDefault v.ubootBuildSystem "rockchip-make-sh".toList
    ubootPython := orDefault v.ubootPython "python3".toList
    idblockSector := orDefault v.idblockSector (orDefault v.loaderSector "64".toList)
    ubootSector := orDefault v.ubootSector "16384".toList
    imageSizeMib := orDefault v.imageSizeMib "2048".toList
    bootStartMib := orDefault v.bootStartMib "16".toList
    bootSizeMib := orDefault v.bootSizeMib "256".toList
    rootfsSizeMib := orDefault v.rootfsSizeMib "1700".toList
    rootfsMode := orDefault v.rootfsMode (orDefault v.rootfsModeDefault rwExt4)
    dataSizeMib := orDefault v.dataSizeMib (orDefault v.dataSizeMibDefault "0".toList) }

/-- The assignments made after the last check. -/
def optionalDefaults (v : Vars) : Vars :=
  { v with
    dtbStripBootargs := orDefault v.dtbStripBootargs "yes".toList
    outputImagePrefix := orDefault v.outputImagePrefix v.board
    extlinuxLabel := orDefault v.extlinuxLabel v.board }

def requiredFields (v : Vars) : List (Text × Text) :=
  [("BOARD_DESCRIPTION".toList, v.boardDescription),
   ("KERNEL_DEFCONFIG".toList, v.kernelDefconfig),
   ("KERNEL_DTB".toList, v.kernelDtb),
   ("UBOOT_DEFCONFIG".toList, v.ubootDefconfig),
   ("UBOOT_BOARD".toList, v.ubootBoard),
   ("CONSOLE".toList, v.console)]

def positiveFields (v : Vars) : List (Text × Text) :=
  [("IMAGE_SIZE_MIB".toList, v.imageSizeMib),
   ("BOOT_START_MIB".toList, v.bootStartMib),
   ("BOOT_SIZE_MIB".toList, v.bootSizeMib),
   ("ROOTFS_SIZE_MIB".toList, v.rootfsSizeMib),
   ("IDBLOCK_SECTOR".toList, v.idblockSector),
   ("UBOOT_SECTOR".toList, v.ubootSector)]

def revisionFields (v : Vars) : List (Text × Text) :=
  [("EXPECTED_KERNEL_REVISION".toList, v.expectedKernelRevision),
   ("EXPECTED_UBOOT_REVISION".toList, v.expectedUbootRevision),
   ("EXPECTED_RKBIN_REVISION".toList, v.expectedRkbinRevision),
   ("EXPECTED_BUILDROOT_REVISION".toList, v.expectedBuildrootRevision)]

/-- The numeric constraints between the fields, in MiB and in sectors. -/
def validateGeometry (v : Vars) : Except Text Unit := do
  let bootStart ← evaluate v.bootStartMib
  let bootSize ← evaluate v.bootSizeMib
  let imageSize ← evaluate v.imageSizeMib
  let bootStartSector := bootStart * 2048
  let rootStartMib := bootStart + bootSize
  let availableRootMib := imageSize - rootStartMib - 1
  require (decimal v.idblockSector < decimal v.ubootSector)
    "IDBLOCK_SECTOR must be before UBOOT_SECTOR".toList
  require (34 ≤ decimal v.idblockSector)
    "IDBLOCK_SECTOR overlaps the primary GPT".toList
  require ((decimal v.ubootSector : ℤ) < bootStartSector)
    "UBOOT_SECTOR must be before the boot partition".toList
  require (16 ≤ decimal v.bootStartMib)
    "BOOT_START_MIB must reserve at least the first 16 MiB".toList
  require (0 < availableRootMib)
    "IMAGE_SIZE_MIB is too small for the configured boot partition".toList
  require ((decimal v.rootfsSizeMib : ℤ) ≤ availableRootMib)
    "ROOTFS_SIZE_MIB exceeds the root partition capacity".toList

/-- A manifest that pins revisions must come with all four of them in full. -/
def validateManifest (fileExists : Text → Bool) (v : Vars) : Except Text Unit := do
  if v.sourceManifest ≠ [] then
    let path := v.projectDir ++ "/manifests/".toList ++ v.sourceManifest
    require (fileExists path)
      ("Missing source manifest for ".toList ++ v.board ++ ": ".toList ++ path)
    if v.expectedKernelRevision ≠ [] then
      forM (revisionFields v) fun f => require (IsRevision f.2)
        (f.1 ++ " must be a full Git commit SHA in ".toList ++ v.boardProfile)

def validateBoardProfile (fileExists : Text → Bool) (env : Vars) : Except Text Vars := do
  let v := profileDefaults env
  require (v.rootfsMode = rwExt4 ∨ v.rootfsMode = roOverlay)
    ("Unsupported ROOTFS_MODE=".toList ++ v.rootfsMode ++
      "; expected rw-ext4 or ro-overlay".toList)
  require (AllDigits v.dataSizeMib)
    ("DATA_SIZE_MIB must be a non-negative integer in ".toList ++ v.boardProfile)
  require (v.bootloaderLayout = idblockLayout)
    ("Unsupported BOOTLOADER_LAYOUT=".toList ++ v.bootloaderLayout ++
      ". Known layouts: rockchip-gpt-idblock-extlinux-v1".toList)
  forM (requiredFields v) fun f => require (f.2 ≠ [])
    ("Board profile ".toList ++ v.boardProfile ++ " is missing ".toList ++ f.1)
  require (".dtb".toList <:+ v.kernelDtb) "KERNEL_DTB must name one .dtb file".toList
  require (HasBaud v.console)
    ("CONSOLE must be in <device>,<baud> form (e.g. ttyFIQ0,1500000), got '".toList ++
      v.console ++ "'".toList)
  require (v.ubootPython = "python2".toList ∨ v.ubootPython = "python3".toList)
    ("Unsupported UBOOT_PYTHON=".toList ++ v.ubootPython ++
      "; expected python2 or python3".toList)
  forM (positiveFields v) fun f => require (IsPositiveInteger f.2)
    (f.1 ++ " must be a positive integer in ".toList ++ v.boardProfile)
  validateGeometry v
  validateManifest fileExists v
  pure (optionalDefaults v)

/-- What every later stage may rely on about the numbers of a profile. -/
structure Accepted (p : Vars) : Prop where
  mode : p.rootfsMode = rwExt4 ∨ p.rootfsMode = roOverlay
  layout : p.bootloaderLayout = idblockLayout
  dataSize : AllDigits p.dataSizeMib
  imageSize : IsPositiveInteger p.imageSizeMib
  bootStart : IsPositiveInteger p.bootStartMib
  bootSize : IsPositiveInteger p.bootSizeMib
  idblock : IsPositiveInteger p.idblockSector
  uboot : IsPositiveInteger p.ubootSector
  idblock_uboot : decimal p.idblockSector < decimal p.ubootSector
  gpt_idblock : 34 ≤ decimal p.idblockSector
  uboot_boot : decimal p.ubootSector < decimal p.bootStartMib * 2048
  boot_reserve : 16 ≤ decimal p.bootStartMib
  root_room : decimal p.bootStartMib + decimal p.bootSizeMib + 1 < decimal p.imageSizeMib
  rootfs_fits : decimal p.rootfsSizeMib + decimal p.bootStartMib + decimal p.bootSizeMib + 1 ≤
    decimal p.imageSizeMib

theorem validateGeometry_ok {v : Vars} {u : Unit} (h : validateGeometry v = .ok u)
    (hs : IsPositiveInteger v.bootStartMib) (hb : IsPositiveInteger v.bootSizeMib)
    (hi : IsPositiveInteger v.imageSizeMib) :
    decimal v.idblockSector < decimal v.ubootSector ∧ 34 ≤ decimal v.idblockSector ∧
    decimal v.ubootSector < decimal v.bootStartMib * 2048 ∧ 16 ≤ decimal v.bootStartMib ∧
    decimal v.bootStartMib + decimal v.bootSizeMib + 1 < decimal v.imageSizeMib ∧
    decimal v.rootfsSizeMib + decimal v.bootStartMib + decimal v.bootSizeMib + 1 ≤
      decimal v.imageSizeMib := by
  unfold validateGeometry at h
  simp only [evaluate_of_positive hs, evaluate_of_positive hb, evaluate_of_positive hi,
    bind_ok, Except.ok.injEq, exists_eq_left', require_ok] at h
  omega

theorem validateBoardProfile_accepted {fileExists : Text → Bool} {env p : Vars}
    (h : validateBoardProfile fileExists env = .ok p) : Accepted p := by
  simp only [validateBoardProfile, bind_ok, require_ok, forM_require_ok] at h
  obtain ⟨_, hmode, _, hdata, _, hlayout, _, -, _, -, _, -, _, -, _, hpos, _, hgeo, _, -, hp⟩ := h
  cases hp
  simp only [positiveFields, List.forall_mem_cons, List.not_mem_nil, false_implies,
    implies_true, and_true] at hpos
  obtain ⟨hi, hs, hb, -, hid, hub⟩ := hpos
  obtain ⟨h₁, h₂, h₃, h₄, h₅, h₆⟩ := validateGeometry_ok hgeo hs hb hi
  exact ⟨hmode, hlayout, hdata, hi, hs, hb, hid, hub, h₁, h₂, h₃, h₄, h₅, h₆⟩

theorem validateBoardProfile_dtb {fileExists : Text → Bool} {env p : Vars}
    (h : validateBoardProfile fileExists env = .ok p) : ".dtb".toList <:+ p.kernelDtb := by
  simp only [validateBoardProfile, bind_ok, require_ok, forM_require_ok] at h
  obtain ⟨_, -, _, -, _, -, _, -, _, hdtb, _, -, _, -, _, -, _, -, _, -, hp⟩ := h
  cases hp
  exact hdtb

/-- The profile `boards/rk3588s-rock-5c/board.conf`. -/
def rock5c : Vars :=
  { projectDir := "/project".toList
    board := "rk3588s-rock-5c".toList
    boardProfile := "/project/boards/rk3588s-rock-5c/board.conf".toList
    boardDescription := "Radxa Rock 5C (RK3588S)".toList
    bootloaderLayout := idblockLayout
    downloadLoaderGlobs := "rk3588*loader*.bin;MiniLoaderAll.bin".toList
    ubootImageNames := "uboot.img;u-boot.img".toList
    ubootBuildSystem := "rockchip-make-sh".toList
    ubootPython := "python3".toList
    idblockSector := "64".toList
    ubootSector := "16384".toList
    imageSizeMib := "2048".toList
    bootStartMib := "16".toList
    bootSizeMib := "256".toList
    rootfsSizeMib := "1700".toList
    kernelDefconfig := "rockchip_linux_defconfig".toList
    kernelDtb := "rk3588s-rock-5c.dtb".toList
    ubootDefconfig := "rock-5c-rk3588s_defconfig".toList
    ubootBoard := "rock-5c-rk3588s".toList
    console := "ttyFIQ0,1500000n8".toList
    sourceManifest := "rk3588-rock5c.xml".toList
    expectedKernelRevision := "567401fe17185f0f4a65866158b775a364feb2d3".toList
    expectedUbootRevision := "4218b05a597f458947f0f4706063b3bb8196e07c".toList
    expectedRkbinRevision := "ecb4fcbe954edf38b3ae037d5de6d9f5bccf81f4".toList
    expectedBuildrootRevision := "c49ae7216786d3cb62a8e8de5556007b4b539233".toList }

end BoardProfile
