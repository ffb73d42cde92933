import SbcImageBuild.ImageAssembly
import Mathlib.Data.List.Infix

/-!
# The boot chain build

The end of `build_uboot.sh`, behind Rockchip's `make.sh`: the boot contract of the U-Boot that
was built, the search for the loader and the image, and the areas the artifacts must fit.
-/
namespace UbootBuild

open ShellText BoardProfile ByteStore DiskGeometry ImageAssembly Delimited

/-- The U-Boot source tree after the build. `find` lists the files with a name of the pattern
down to the third level, the newest one first. -/
structure UbootTree where
  ubootDir : Text
  find : Text → List Text
  file : Text → Option Bytes

def UbootTree.path (t : UbootTree) (name : String) : Text := t.ubootDir ++ '/' :: name.toList

def ascii (t : Text) : Bytes := t.map fun c => UInt8.ofNat c.toNat

def requiredOptions : List Text :=
  ["CONFIG_DISTRO_DEFAULTS", "CONFIG_CMD_MMC", "CONFIG_CMD_FAT", "CONFIG_CMD_FS_GENERIC",
   "CONFIG_CMD_PXE", "CONFIG_CMD_BOOTI"].map String.toList

def forbiddenOptions : List Text :=
  ["CONFIG_FIT_SIGNATURE", "CONFIG_AVB_VBMETA_PUBLIC_KEY_VALIDATE"].map String.toList

/-- `grep -Fqx`: the option is set by a line of its own. -/
def OptionSet (config : Bytes) (option : Text) : Prop :=
  ascii (option ++ "=y".toList) ∈ records 10 config

instance (config : Bytes) (option : Text) : Decidable (OptionSet config option) :=
  inferInstanceAs (Decidable (_ ∈ records 10 config))

def validateExtlinuxBootContract (t : UbootTree) : Except Text Unit := do
  let config ← requireFile (t.file (t.path ".config")) (t.path ".config")
    "generated U-Boot configuration".toList
  let binary ← requireFile (t.file (t.path "u-boot.bin")) (t.path "u-boot.bin")
    "plain U-Boot binary".toList
  forM requiredOptions fun option => require (OptionSet config option)
    ("U-Boot extlinux contract requires ".toList ++ option ++ "=y".toList)
  forM forbiddenOptions fun option => require (¬ OptionSet config option)
    ("U-Boot extlinux contract rejects ".toList ++ option ++ "=y".toList)
  require (ascii "run distro_bootcmd;".toList <:+: binary)
    "U-Boot binary does not contain the distro boot fallback".toList
  require (ascii "extlinux/extlinux.conf".toList <:+: binary)
    "U-Boot binary does not contain the extlinux configuration path".toList

/-- The newest file of the first pattern that has any. -/
def findNewestMatch (t : UbootTree) (patterns : Text) : Option Text :=
  (readArray ';' patterns).findSome? fun pattern => (t.find pattern).head?

def readImageMagic (image : Bytes) : Bytes := image.take 4

def exceedsArea (name : Text) (size : ℕ) (capacity : ℤ) : Text :=
  name ++ " exceeds its reserved area (".toList ++ (toString size).toList ++ " > ".toList ++
    (toString capacity).toList ++ ")".toList

/-- `IDBLOCK_CAPACITY` and `UBOOT_CAPACITY`, and the sizes compared with them. -/
def checkCapacities (p : Vars) (idblockSize ubootSize : ℕ) : Except Text Unit := do
  let ubootSector ← evaluate p.ubootSector
  let idblockSector ← evaluate p.idblockSector
  let bootStart ← evaluate p.bootStartMib
  let idblockCapacity := (ubootSector - idblockSector) * 512
  let ubootCapacity := (bootStart * 2048 - ubootSector) * 512
  require ((idblockSize : ℤ) ≤ idblockCapacity)
    (exceedsArea "IDBlock".toList idblockSize idblockCapacity)
  require ((ubootSize : ℤ) ≤ ubootCapacity)
    (exceedsArea "uboot.img".toList ubootSize ubootCapacity)

/-- What is installed into the common output directory. -/
structure BootChain where
  downloadLoader : Bytes
  idblock : Bytes
  uboot : Bytes
  trust : Option Bytes
  itb : Option Bytes
  deriving DecidableEq

def packBootChain (p : Vars) (t : UbootTree) : Except Text BootChain := do
  validateExtlinuxBootContract t
  let loaderPath := (findNewestMatch t p.downloadLoaderGlobs).getD []
  let ubootImagePath := (findNewestMatch t p.ubootImageNames).getD []
  let idblockPath := t.path "idblock.bin"
  require (loaderPath ≠ []) ("Rockchip make.sh completed but no download loader matched: ".toList ++
    p.downloadLoaderGlobs)
  require (ubootImagePath ≠ []) ("Rockchip make.sh completed but no uboot image matched: ".toList ++
    p.ubootImageNames)
  let idblock ← requireFile (t.file idblockPath) idblockPath "Rockchip RKNS IDBlock".toList
  let loader ← inputFile (t.file loaderPath) loaderPath
  require (readImageMagic loader = ldr)
    ("Download loader is not an LDR container: ".toList ++ loaderPath)
  require (readImageMagic idblock = rkns)
    ("Disk IDBlock is not an RKNS image: ".toList ++ idblockPath)
  let uboot ← inputFile (t.file ubootImagePath) ubootImagePath
  checkCapacities p idblock.length uboot.length
  pure ⟨loader, idblock, uboot, t.file (t.path "trust.img"), t.file (t.path "u-boot.itb")⟩

/-- The artifacts as `make_image.sh` finds them again. -/
def BootChain.artifacts (b : BootChain) (commonOutput : Text) : BootArtifacts :=
  ⟨commonOutput, some b.idblock, some b.uboot⟩

theorem checkCapacities_ok {p : Vars} {idblockSize ubootSize : ℕ} {u : Unit} (h : Accepted p) :
    checkCapacities p idblockSize ubootSize = .ok u ↔
      (idblockSize : ℤ) ≤ (decimal p.ubootSector - decimal p.idblockSector) * 512 ∧
      (ubootSize : ℤ) ≤ (decimal p.bootStartMib * 2048 - decimal p.ubootSector) * 512 := by
  rw [checkCapacities, evaluate_of_positive h.uboot, evaluate_of_positive h.idblock,
    evaluate_of_positive h.bootStart]
  simp only [bind_ok, Except.ok.injEq, exists_eq_left', require_ok, exists_const]

/-- What is checked of a boot chain before it is installed. -/
theorem packBootChain_ok {p : Vars} {t : UbootTree} {b : BootChain} (h : Accepted p)
    (hb : packBootChain p t = .ok b) : ArtifactsFit p b.idblock b.uboot := by
  simp only [packBootChain, bind_ok, require_ok] at hb
  obtain ⟨_, -, _, -, _, -, idblock, -, loader, -, _, -, _, hmagic, uboot, -, _, hfit, hpure⟩ := hb
  cases hpure
  obtain ⟨hidblock, huboot⟩ := (checkCapacities_ok h).mp hfit
  exact ⟨hmagic, hidblock, huboot⟩

theorem validateExtlinuxBootContract_complete {t : UbootTree} {config binary : Bytes}
    (hconfig : t.file (t.path ".config") = some config)
    (hbinary : t.file (t.path "u-boot.bin") = some binary)
    (hrequired : ∀ option ∈ requiredOptions, OptionSet config option)
    (hforbidden : ∀ option ∈ forbiddenOptions, ¬ OptionSet config option)
    (hdistro : ascii "run distro_bootcmd;".toList <:+: binary)
    (hextlinux : ascii "extlinux/extlinux.conf".toList <:+: binary) :
    validateExtlinuxBootContract t = .ok () := by
  simp only [validateExtlinuxBootContract, bind_ok, requireFile_ok, require_ok]
  exact ⟨config, hconfig, binary, hbinary, (), forM_require_ok.mpr hrequired, (),
    forM_require_ok.mpr hforbidden, (), hdistro, hextlinux⟩

theorem packBootChain_complete {p : Vars} {t : UbootTree} {loaderPath ubootImagePath : Text}
    {idblock loader uboot : Bytes} (hcontract : validateExtlinuxBootContract t = .ok ())
    (hloader : findNewestMatch t p.downloadLoaderGlobs = some loaderPath) (hl : loaderPath ≠ [])
    (himage : findNewestMatch t p.ubootImageNames = some ubootImagePath) (hu : ubootImagePath ≠ [])
    (hidblock : t.file (t.path "idblock.bin") = some idblock)
    (hloaderFile : t.file loaderPath = some loader) (hldr : readImageMagic loader = ldr)
    (hrkns : readImageMagic idblock = rkns) (huboot : t.file ubootImagePath = some uboot)
    (hfit : checkCapacities p idblock.length uboot.length = .ok ()) :
    ∃ b, packBootChain p t = .ok b := by
  refine ⟨⟨loader, idblock, uboot, t.file (t.path "trust.img"), t.file (t.path "u-boot.itb")⟩, ?_⟩
  simp only [packBootChain, bind_ok, require_ok, hloader, himage, Option.getD_some, requireFile_ok,
    hloaderFile, huboot]
  exact ⟨(), hcontract, (), hl, (), hu, idblock, hidblock, loader, rfl, (), hldr, (), hrkns, uboot,
    rfl, (), hfit, rfl⟩

/-- In `rw-ext4` mode the layout of an accepted profile can always be computed. -/
theorem computePartitionLayout_writable {p : Vars} (h : Accepted p) (hm : p.rootfsMode = rwExt4)
    (rootfsBytes : ℕ) : ∃ l, computePartitionLayout p rootfsBytes = .ok l := by
  have hne : p.rootfsMode ≠ roOverlay := by
    rw [hm]
    decide
  rw [computePartitionLayout, evaluate_of_positive h.imageSize, evaluate_of_positive h.bootStart,
    evaluate_of_positive h.bootSize]
  simp only [bind_ok, Except.ok.injEq, exists_eq_left', if_neg hne]
  exact ⟨_, rfl⟩

/-- The reserve of one MiB in the profile leaves room for the 34 sectors of the backup table. -/
theorem checkGeometry_writable {p : Vars} {l : PartitionLayout} {rootfsBytes : ℕ} (h : Accepted p)
    (hm : p.rootfsMode = rwExt4) (hl : LayoutOf p rootfsBytes l)
    (hsize : rootfsBytes ≤ decimal p.rootfsSizeMib * mib) :
    ∃ rootPartitionBytes, checkGeometry p l rootfsBytes = .ok rootPartitionBytes := by
  have hne : p.rootfsMode ≠ roOverlay := by
    rw [hm]
    decide
  have hlast := (hl.writable hne).1
  have himage := hl.image
  have husable := hl.lastUsable
  have hfirst := hl.rootFirst
  have hbootLast := hl.bootLast
  have hbootFirst := hl.bootFirst
  have hroom := h.root_room
  have hfits := h.rootfs_fits
  have room : l.rootFirstSector < l.rootLastSector := by omega
  have fits : (rootfsBytes : ℤ) ≤ (l.rootLastSector - l.rootFirstSector + 1) * 512 := by
    rw [mib] at hsize
    omega
  rw [checkGeometry, if_neg hne, require, if_pos room, require, if_pos fits]
  exact ⟨_, rfl⟩

/-- With the sizes already checked, only the magic of the IDBlock is left to refuse. -/
theorem validateArtifacts_sized {p : Vars} {idblock uboot : Bytes} (h : Accepted p)
    (hfit : checkCapacities p idblock.length uboot.length = .ok ()) (commonOutput : Text) :
    bootloaderLayoutValidateArtifacts p ⟨commonOutput, some idblock, some uboot⟩ =
      require (idblock.take 4 = rkns) "idblock.img is not a Rockchip RKNS IDBlock".toList := by
  obtain ⟨hidblock, huboot⟩ := (checkCapacities_ok h).mp hfit
  rw [bootloaderLayoutValidateArtifacts, bootloaderLayoutFunc_eq h.layout,
    layoutRockchipValidateArtifacts, evaluate_of_positive h.uboot, evaluate_of_positive h.idblock,
    evaluate_of_positive h.bootStart]
  change (require _ _ >>= fun _ => require _ _ >>= fun _ => require _ _) = _
  rw [require, require, require, if_pos hidblock, if_pos huboot]
  split <;> rfl

/-- What was accepted early is accepted late: for a profile in `rw-ext4` mode, a boot chain that
fits its areas and a root file system of the configured size pass every check of sizes. -/
theorem early_acceptance {fileExists : Text → Bool} {env p : Vars} {idblock uboot : Bytes}
    {rootfsBytes : ℕ} (hp : validateBoardProfile fileExists env = .ok p)
    (hm : p.rootfsMode = rwExt4)
    (hfit : checkCapacities p idblock.length uboot.length = .ok ())
    (hsize : rootfsBytes ≤ decimal p.rootfsSizeMib * mib) (commonOutput : Text) :
    (∃ l rootPartitionBytes, computePartitionLayout p rootfsBytes = .ok l ∧
      checkGeometry p l rootfsBytes = .ok rootPartitionBytes) ∧
    bootloaderLayoutValidateArtifacts p ⟨commonOutput, some idblock, some uboot⟩ =
      require (idblock.take 4 = rkns) "idblock.img is not a Rockchip RKNS IDBlock".toList := by
  have accepted := validateBoardProfile_accepted hp
  obtain ⟨l, hl⟩ := computePartitionLayout_writable accepted hm rootfsBytes
  obtain ⟨b, hb⟩ := checkGeometry_writable accepted hm (computePartitionLayout_ok accepted hl) hsize
  constructor
  · exact ⟨l, b, hl, hb⟩
  · exact validateArtifacts_sized accepted hfit commonOutput

theorem early_acceptance_rock5c :
    ∃ p idblock uboot, p.rootfsMode = rwExt4 ∧
      (∃ l rootPartitionBytes, computePartitionLayout p 1782579200 = .ok l ∧
        checkGeometry p l 1782579200 = .ok rootPartitionBytes) ∧
      bootloaderLayoutValidateArtifacts p ⟨[], some idblock, some uboot⟩ =
        require (idblock.take 4 = rkns) "idblock.img is not a Rockchip RKNS IDBlock".toList := by
  have accepted : validateBoardProfile (fun _ => true) rock5c =
      .ok (optionalDefaults (profileDefaults rock5c)) := by
    unfold rock5c
    repeat rw [String.toList_ofList]
    decide +kernel
  have fit : checkCapacities (optionalDefaults (profileDefaults rock5c)) rkns.length
      ([1, 2, 3] : Bytes).length = .ok () := by
    unfold rock5c
    repeat rw [String.toList_ofList]
    decide +kernel
  have mode : (optionalDefaults (profileDefaults rock5c)).rootfsMode = rwExt4 := rfl
  exact ⟨_, rkns, [1, 2, 3], mode, early_acceptance accepted mode fit (by decide) []⟩

/-- A boot chain that `build_uboot.sh` installs makes a later `make_image.sh` pass its checks. -/
theorem packed_chain_accepted {fileExists : Text → Bool} {env p : Vars} {t : UbootTree}
    {b : BootChain} {rootfsBytes : ℕ} (hp : validateBoardProfile fileExists env = .ok p)
    (hm : p.rootfsMode = rwExt4) (hb : packBootChain p t = .ok b)
    (hsize : rootfsBytes ≤ decimal p.rootfsSizeMib * mib) (commonOutput : Text) :
    ∃ l, makeImageChecks fileExists env rootfsBytes (b.artifacts commonOutput) = .ok (p, l) := by
  have accepted := validateBoardProfile_accepted hp
  have fit := packBootChain_ok accepted hb
  obtain ⟨l, hl⟩ := computePartitionLayout_writable accepted hm rootfsBytes
  obtain ⟨r, hr⟩ := checkGeometry_writable accepted hm (computePartitionLayout_ok accepted hl) hsize
  have sizes : checkCapacities p b.idblock.length b.uboot.length = .ok () :=
    (checkCapacities_ok accepted).mpr ⟨fit.idblock_fits, fit.uboot_fits⟩
  have artifacts := validateArtifacts_sized accepted sizes commonOutput
  rw [require, if_pos fit.magic] at artifacts
  refine ⟨l, ?_⟩
  simp only [makeImageChecks, bind_ok]
  exact ⟨p, hp, l, hl, r, hr, (), artifacts, rfl⟩

end UbootBuild
