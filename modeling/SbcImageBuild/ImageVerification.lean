import SbcImageBuild.BootClosure
import SbcImageBuild.Foundation.Words
import SbcImageBuild.ImageAssembly
import SbcImageBuild.ImagePublish
import SbcImageBuild.KernelHook
import SbcImageBuild.KernelPackage
import SbcImageBuild.OverlayText

/-!
# The verification of a disk image

`verify_image.sh` from its first file to the checksums: metadata, partition table, boot chain, boot
partition, root file system. It reads what the tools print and copies out of the image what it
compares with the artifacts.
-/
namespace ImageVerification

open ShellText BoardProfile ByteStore Delimited BuildMetadata DiskGeometry ImageAssembly
  ImagePublish BootClosure Words
open KernelHook (Grep Has)
open KernelPackage (DeviceTree verifyExtlinuxDtb)
open OverlayText (commandOutput)

/-! ### The tools -/

/-- What `sgdisk` writes, and prints for `--verify`, for `--info` of a partition and for `-p`. -/
structure Sgdisk where
  write : List Partition → Bytes → Bytes
  verify : Bytes → Bool
  info : Bytes → ℕ → Text
  list : Bytes → Text

/-- mtools on FAT images that also have their bytes, and whose files can be copied out. -/
structure FatTools extends Mtools where
  file : Fat → Bytes
  mount : Bytes → Option Fat
  read : Fat → Text → Option Text
  read_mmd : ∀ {f d g}, mmd f d = some g → ∀ p, entry p ≠ entry d → read g p = read f p
  read_mcopy : ∀ {f content d g}, mcopy f content d = some g →
    ∀ p, read g p = if entry p = entry d then some content else read f p

/-- The files of a root file system as the functions `rf_*` see them. -/
structure Rootfs where
  cat : Text → Text
  present : Text → Bool
  isSymlink : Text → Bool
  ownerRoot : Text → Bool

structure Tools where
  sgdisk : Sgdisk
  fat : FatTools
  deviceTree : Text → DeviceTree
  rootfsTools : RootfsTools
  unsquashfs : Bytes → Option Rootfs
  debugfs : Bytes → Rootfs
  sha256sum : Bytes → Text

/-- The choices of the build, and the files of the two output directories that are not published
with the image. `overlayVerify` is the function of an overlay's `verify.sh`; it gets the enabled
overlays. -/
structure Artifacts where
  variantOutput : Text
  imageStem : Text
  rootfsChoice : Text
  debianRelease : Text
  rootfsUsername : Text
  boot : VerifiedArtifacts
  kernel : Option Text
  dtb : Option Text
  initrd : Option Text
  rootfs : Option Bytes
  kernelRelease : Option Text
  kernelConfig : Option Text
  kernelBuildInfo : Option Text
  rootfsBuildInfo : Option Text
  others : Text → Option Bytes
  overlayVerify : Text → Option (Rootfs → List Text → Except Text Unit)

/-- The contents of the files that the script requires. -/
structure Contents where
  kernel : Text
  dtb : Text
  downloadLoader : Bytes
  idblock : Bytes
  uboot : Bytes
  rootfs : Bytes
  initrd : Option Text
  kernelRelease : Text
  kernelConfig : Text
  kernelBuildInfo : Text
  ubootBuildInfo : Text
  rootfsBuildInfo : Text
  imageBuildInfo : Text

def requireContent {α : Type} (file : Option α) (path description : Text) : Except Text α :=
  match file with
  | some content => .ok content
  | none => .error ("Missing ".toList ++ description ++ ": ".toList ++ path)

section Script

variable (t : Tools) (p : Vars) (a : Artifacts)

def Artifacts.common (name : String) : Text := a.boot.commonOutput ++ '/' :: name.toList
def Artifacts.variant (name : String) : Text := a.variantOutput ++ '/' :: name.toList
def Artifacts.imagePath : Text := a.variantOutput ++ '/' :: a.imageStem ++ ".img".toList
def Artifacts.sha256Path : Text := a.variantOutput ++ '/' :: a.imageStem ++ ".sha256".toList

/-- The initramfs is required in `ro-overlay` mode only. -/
def requireInitrd : Except Text (Option Text) :=
  if p.rootfsMode = roOverlay then
    (requireContent a.initrd (a.variant "initrd.img") "initramfs".toList).map some
  else .ok none

/-- The files behind the image and its checksums, in the order of the script. -/
def requireContents (metadata : Option Text) : Except Text Contents := do
  let kernel ← requireContent a.kernel (a.common "Image") "kernel Image".toList
  let dtb ← requireContent a.dtb (a.boot.commonOutput ++ '/' :: p.kernelDtb) "board DTB".toList
  let downloadLoader ← requireContent a.boot.downloadLoader (a.common "download-loader.bin")
    "download-loader.bin".toList
  let idblock ← requireContent a.boot.idblock (a.common "idblock.img") "idblock.img".toList
  let uboot ← requireContent a.boot.uboot (a.common "uboot.img") "uboot.img".toList
  let rootfs ← requireContent a.rootfs
    (a.variant (if p.rootfsMode = roOverlay then "rootfs.squashfs" else "rootfs.ext4"))
    "root filesystem image".toList
  let initrd ← requireInitrd p a
  let kernelRelease ← requireContent a.kernelRelease (a.common "kernel-release")
    "kernel release".toList
  let kernelConfig ← requireContent a.kernelConfig (a.common "kernel.config")
    "kernel configuration".toList
  let kernelBuildInfo ← requireContent a.kernelBuildInfo (a.common "kernel-build-info.txt")
    "kernel build metadata".toList
  let ubootBuildInfo ← requireContent a.boot.ubootBuildInfo (a.common "uboot-build-info.txt")
    "U-Boot build metadata".toList
  let rootfsBuildInfo ← requireContent a.rootfsBuildInfo (a.variant "rootfs-build-info.txt")
    "rootfs build metadata".toList
  let imageBuildInfo ← requireContent metadata (a.variant "image-build-info.txt")
    "image build metadata".toList
  pure ⟨kernel, dtb, downloadLoader, idblock, uboot, rootfs, initrd, kernelRelease, kernelConfig,
    kernelBuildInfo, ubootBuildInfo, rootfsBuildInfo, imageBuildInfo⟩

/-! ### Metadata and configuration -/

/-- A revision that the profile does not pin is not compared. -/
def checkRevision (expected recorded message : Text) : Except Text Unit :=
  require (expected = [] ∨ recorded = expected) message

def checkRevisions (f : Contents) : Except Text Unit :=
  if p.sourceManifest = [] then .ok () else do
    require (metadataValue f.kernelBuildInfo "source_manifest".toList = p.sourceManifest)
      ("Kernel metadata does not identify ".toList ++ p.sourceManifest)
    checkRevision p.expectedKernelRevision
      (metadataValue f.kernelBuildInfo "kernel_revision".toList)
      "Kernel metadata revision mismatch".toList
    checkRevision p.expectedUbootRevision (metadataValue f.ubootBuildInfo "uboot_revision".toList)
      "U-Boot metadata revision mismatch".toList
    checkRevision p.expectedRkbinRevision (metadataValue f.ubootBuildInfo "rkbin_revision".toList)
      "rkbin metadata revision mismatch".toList
    checkRevision p.expectedBuildrootRevision
      (metadataValue f.imageBuildInfo "buildroot_revision".toList)
      "Buildroot metadata revision mismatch".toList

def verifiedConfigs : List Text :=
  ["CONFIG_AUTOFS_FS=y", "CONFIG_CGROUPS=y", "CONFIG_DEVTMPFS=y", "CONFIG_DEVTMPFS_MOUNT=y",
    "CONFIG_EXT4_FS=y", "CONFIG_FHANDLE=y", "CONFIG_HW_RANDOM_VIRTIO=y", "CONFIG_MEMCG=y",
    "CONFIG_MMC_BLOCK=y", "CONFIG_NAMESPACES=y", "CONFIG_RTC_DRV_PL031=y", "CONFIG_SECCOMP=y",
    "CONFIG_SERIAL_AMBA_PL011=y", "CONFIG_SERIAL_AMBA_PL011_CONSOLE=y", "CONFIG_TMPFS=y",
    "CONFIG_TMPFS_POSIX_ACL=y", "CONFIG_TMPFS_XATTR=y", "CONFIG_UNIX=y", "CONFIG_VIRTIO=y",
    "CONFIG_VIRTIO_BLK=y", "CONFIG_VIRTIO_MMIO=y", "CONFIG_VIRTIO_NET=y"].map String.toList

def checkMetadata (f : Contents) : Except Text Unit := do
  verifyExtlinuxDtb (t.deviceTree f.dtb) (a.boot.commonOutput ++ '/' :: p.kernelDtb)
    "Board DTB artifact".toList
  require (metadataValue f.kernelBuildInfo "dtb_bootargs".toList = "extlinux-only-v1".toList)
    "Kernel metadata does not record the extlinux-only DTB contract".toList
  checkRevisions p f
  forM verifiedConfigs fun requiredConfig =>
    require (requiredConfig ∈ records '\n' f.kernelConfig)
      ("Kernel artifact lacks required configuration ".toList ++ requiredConfig)

/-! ### The partition table -/

/-- `awk` splits a record at blanks and tabs. -/
def awkFields (line : Text) : List Text :=
  words ' ' (line.map fun c => if c = '\t' then ' ' else c)

def awkField (n : ℕ) (line : Text) : Text := (awkFields line)[n]?.getD []

/-- `partition_field`: the second field of the first record whose first field is wanted. -/
def partitionField (info wanted : Text) : Option Text :=
  ((records '\n' info).find? fun line => line.takeWhile (· ≠ ':') = wanted).map fun line =>
    (((line.dropWhile (· ≠ ':')).drop 1).takeWhile (· ≠ ':')).dropWhile isSpace

def sectorField (info wanted : Text) : Text :=
  (partitionField info wanted).elim [] (awkField 0)

def partitionCode (list : Text) (n : ℕ) : Text :=
  commandOutput (terminate '\n' (((records '\n' list).filter fun line =>
    awkField 0 line = (toString n).toList).map (awkField 5)))

/-- `sed "s/^'//;s/'$//"` -/
def unquote (name : Text) : Text :=
  let name := if name.head? = some '\'' then name.drop 1 else name
  if name.getLast? = some '\'' then name.dropLast else name

def partitionName (info : Text) : Text :=
  (partitionField info "Partition name".toList).elim [] unquote

/-- The four tests on a partition. -/
def checkPartition (title : String) (image : Bytes) (q : Partition) : Except Text Unit := do
  let info := t.sgdisk.info image q.number
  require (sectorField info "First sector".toList = (toString q.range.first).toList)
    (title.toList ++ " partition starts at the wrong sector".toList)
  require (sectorField info "Last sector".toList = (toString q.range.last).toList)
    (title.toList ++ " partition ends at the wrong sector".toList)
  require (partitionCode (t.sgdisk.list image) q.number = q.typecode)
    (title.toList ++ " partition type is not ".toList ++ q.typecode)
  require (partitionName info = q.name)
    (title.toList ++ " partition name is not ".toList ++ q.name)

def checkDataPartition (l : PartitionLayout) (image : Bytes) : Except Text Unit :=
  if p.rootfsMode = roOverlay then
    match l.dataFirstSector, l.dataLastSector with
    | some dataFirst, some dataLast =>
      checkPartition t "Data" image (dataPartition dataFirst dataLast)
    | _, _ => .error "Data partition starts at the wrong sector".toList
  else .ok ()

def checkTable (l : PartitionLayout) (image : Bytes) : Except Text Unit := do
  let imageSize ← evaluate p.imageSizeMib
  require ((image.length : ℤ) = imageSize * 1024 * 1024)
    ("Unexpected image size: ".toList ++ a.imagePath)
  require (t.sgdisk.verify image) []
  checkPartition t "Boot" image (bootPartition l)
  checkPartition t "Root" image (rootPartition l)
  checkDataPartition t p l image

/-! ### The boot partition -/

/-- `grep -Fqx`; a pattern with a newline is two patterns. -/
def GrepFx (pattern text : Text) : Prop := ∃ q ∈ pattern.splitOn '\n', q ∈ records '\n' text

instance (pattern text : Text) : Decidable (GrepFx pattern text) :=
  inferInstanceAs (Decidable (∃ q ∈ pattern.splitOn '\n', q ∈ records '\n' text))

/-- `grep -Fq` -/
def GrepF (pattern text : Text) : Prop := ∃ q ∈ pattern.splitOn '\n', Grep (Has q) text

instance (pattern text : Text) : Decidable (GrepF pattern text) :=
  inferInstanceAs (Decidable (∃ q ∈ pattern.splitOn '\n', Grep (Has q) text))

def mcopyOut (fat : t.fat.Fat) (path : Text) : Except Text Text :=
  match t.fat.read fat path with
  | some content => .ok content
  | none => .error ("File \"::".toList ++ path ++ "\" not found".toList)

def checkInitrd (f : Contents) (fat : t.fat.Fat) : Except Text Unit := do
  let initrd ← mcopyOut t fat "/initrd.img".toList
  require (f.initrd = some initrd) "FAT initrd.img does not match the initramfs artifact".toList

/-- The lines of `extlinux.conf` about the mode of the root. -/
def checkMode (conf : Text) : Except Text Unit :=
  if p.rootfsMode = roOverlay then do
    require (GrepFx "    INITRD /initrd.img".toList conf)
      "extlinux.conf does not load INITRD /initrd.img".toList
    require (GrepF "root=PARTLABEL=rootfs rootwait ro".toList conf)
      "extlinux.conf does not boot read-only root=PARTLABEL=rootfs".toList
    require (GrepF "overlayroot=PARTLABEL=data".toList conf)
      "extlinux.conf does not enable overlayroot=PARTLABEL=data".toList
  else
    require (GrepF "root=PARTLABEL=rootfs rootwait rw".toList conf)
      "extlinux.conf does not boot root=PARTLABEL=rootfs".toList

def checkBootFiles (f : Contents) (fat : t.fat.Fat) : Except Text Unit := do
  let kernel ← mcopyOut t fat "/Image".toList
  let dtb ← mcopyOut t fat ('/' :: p.kernelDtb)
  let conf ← mcopyOut t fat "/extlinux/extlinux.conf".toList
  require (f.kernel = kernel) "FAT Image does not match the kernel artifact".toList
  require (f.dtb = dtb) "FAT DTB does not match the board artifact".toList
  verifyExtlinuxDtb (t.deviceTree dtb) p.kernelDtb "FAT DTB".toList
  require (GrepFx ("    FDT /".toList ++ p.kernelDtb) conf)
    ("extlinux.conf does not select ".toList ++ p.kernelDtb)
  if p.rootfsMode = roOverlay then checkInitrd t f fat
  checkMode p conf
  require (GrepF ("console=".toList ++ p.console) conf)
    ("extlinux.conf does not configure ".toList ++ p.console)

def checkBootPartition (l : PartitionLayout) (f : Contents) (image : Bytes) : Except Text Unit :=
  match t.fat.mount (image.drop (l.bootFirstSector * 512).toNat) with
  | some fat => checkBootFiles t p f fat
  | none => .error "init ::: non DOS media".toList

/-! ### The root file system -/

def rootfsView (embedded : Bytes) : Except Text Rootfs :=
  if p.rootfsMode = roOverlay then
    match t.unsquashfs embedded with
    | some r => .ok r
    | none => .error "Unable to extract embedded SquashFS root filesystem".toList
  else .ok (t.debugfs embedded)

/-- The pattern `^${DEBIAN_RELEASE}([.]|$)`. -/
def OfRelease (release line : Text) : Prop :=
  release <+: line ∧ ((line.drop release.length).head?.getD '.' = '.')

instance (release : Text) : DecidablePred (OfRelease release) := fun line =>
  inferInstanceAs (Decidable (release <+: line ∧ _))

/-- The pattern `^root:[^!*:][^:]*:`. -/
def RootEnabled (line : Text) : Prop :=
  "root:".toList <+: line ∧ ∃ c ∈ (line.drop 5).head?, c ∉ "!*:".toList ∧ ':' ∈ line.drop 6

instance : DecidablePred RootEnabled := fun line =>
  have : Decidable (∃ c ∈ (line.drop 5).head?, c ∉ "!*:".toList ∧ ':' ∈ line.drop 6) :=
    Option.decidableExistsMem _
  inferInstanceAs (Decidable ("root:".toList <+: line ∧ _))

/-- The loop over the overlays of the metadata, each with its own checks. -/
def checkOverlays (r : Rootfs) (overlays : List Text) : List Text → Except Text Unit
  | [] => .ok ()
  | name :: names => do
    ((a.overlayVerify name).elim (fun _ _ => .ok ()) id) r overlays
    checkOverlays r overlays names

def checkPackage (packages : Text) (r : Rootfs) (package path : String) (message : String) :
    Except Text Unit :=
  require (Has (',' :: package.toList ++ [',']) (',' :: packages ++ [',']) → r.present path.toList)
    message.toList

def checkDebian (f : Contents) (r : Rootfs) : Except Text Unit := do
  require (r.isSymlink "/lib".toList) "Debian rootfs lost the /lib usrmerge symlink".toList
  require (r.present "/usr/lib/ld-linux-aarch64.so.1".toList)
    "Debian rootfs lacks the AArch64 ELF interpreter".toList
  require (r.present "/usr/lib/systemd/systemd".toList) "Debian rootfs lacks systemd init".toList
  let packages := metadataValue f.rootfsBuildInfo "debian_packages".toList
  let overlays := readArray ',' (metadataValue f.rootfsBuildInfo "debian_overlays".toList)
  checkOverlays a r overlays overlays
  checkPackage packages r "i2c-tools" "/usr/sbin/i2cdetect"
    "Debian rootfs with i2c-tools lacks i2cdetect"
  checkPackage packages r "wpasupplicant" "/usr/sbin/wpa_supplicant"
    "Debian rootfs with wpasupplicant lacks binary"

def checkModules (f : Contents) (r : Rootfs) (directory : String) : Except Text Unit := do
  let release := commandOutput f.kernelRelease
  let modules := directory.toList ++ release
  require (r.present modules) ("Embedded rootfs lacks modules for ".toList ++ release)
  require (r.ownerRoot modules) "Embedded kernel modules are not owned by root".toList
  require (Grep (a.rootfsUsername ++ [':'] <+: ·) (r.cat "/etc/passwd".toList))
    ("Embedded rootfs lacks user ".toList ++ a.rootfsUsername)
  require (Grep RootEnabled (r.cat "/etc/shadow".toList))
    "Embedded root account is not enabled".toList

def checkRootfs (f : Contents) (embedded : Bytes) : Except Text Unit := do
  let r ← rootfsView t p embedded
  if a.rootfsChoice = "buildroot".toList then
    checkModules a f r "/lib/modules/"
    require (Grep (Has "resize2fs \"$rootdev\"".toList)
        (r.cat "/etc/init.d/S02rootfs-resize".toList))
      "Buildroot rootfs lacks the first-boot resize hook".toList
  else
    require (Grep (OfRelease a.debianRelease) (r.cat "/etc/debian_version".toList))
      ("Debian rootfs is not Debian ".toList ++ a.debianRelease)
    checkModules a f r "/usr/lib/modules/"
    checkDebian a f r

/-! ### The checksums -/

def isHex (c : Char) : Bool := isDigit c || ('a' ≤ c && c ≤ 'f') || ('A' ≤ c && c ≤ 'F')

/-- A line of 64 hexadecimal digits, a blank, a blank or `*`, and a name. -/
def checksumEntry (entry : Text) : Option (Text × Text) :=
  let digest := entry.take 64
  if digest.length = 64 ∧ (∀ c ∈ digest, isHex c) ∧ entry[64]? = some ' ' ∧
      (entry[65]? = some ' ' ∨ entry[65]? = some '*') then
    some (digest, entry.drop 66)
  else none

/-- `sha256sum --check`: every file of a well-formed line has its digest, and there is one. -/
def ChecksumsMatch (directory : Text → Option Bytes) (checksums : Text) : Prop :=
  (records '\n' checksums).filterMap checksumEntry ≠ [] ∧
    ∀ e ∈ (records '\n' checksums).filterMap checksumEntry,
      (directory e.2).map t.sha256sum = some (e.1.map Char.toLower)

instance (directory : Text → Option Bytes) (checksums : Text) :
    Decidable (ChecksumsMatch t directory checksums) :=
  inferInstanceAs (Decidable (_ ∧ ∀ e ∈ (records '\n' checksums).filterMap checksumEntry, _))

/-- The files of the variant output directory by their names. -/
def Artifacts.directory (o : Outputs) (name : Text) : Option Bytes :=
  if name = a.imageStem ++ ".img".toList then o.image.map DiskImage.bytes
  else if name = a.imageStem ++ ".img.zst".toList then o.zstd
  else a.others name

/-- The script, behind the validation of the profile. -/
def verifyImage (o : Outputs) : Except Text Unit := do
  let image ← requireContent (o.image.map DiskImage.bytes) a.imagePath "raw disk image".toList
  let checksums ← requireContent o.sha256 a.sha256Path "image checksum file".toList
  let f ← requireContents p a o.metadata
  checkMetadata t p a f
  let l ← computePartitionLayout p f.rootfs.length
  checkTable t p a l image
  bootloaderLayoutVerify p a.boot image
  checkBootPartition t p l f image
  compareRootfs t.rootfsTools p l f.rootfs image
  checkRootfs t p a f (extractBytes image (l.rootFirstSector * 512).toNat f.rootfs.length)
  require (ChecksumsMatch t (a.directory o) checksums) []

end Script

end ImageVerification
