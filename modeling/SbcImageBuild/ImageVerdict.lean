import SbcImageBuild.BootFiles
import SbcImageBuild.PartitionListing

/-!
# What the verification finds

`verify_image.sh` behind `make_image.sh`: which stops of a build leave an image that passes, and
which changes of a finished image it notices.
-/
namespace ImageVerdict

open ShellText BoardProfile ByteStore Delimited BuildMetadata DiskGeometry ImageAssembly
  ImagePublish BootClosure ImageVerification PartitionListing BootFiles
open KernelHook (Grep Has)
open KernelPackage (verifyExtlinuxDtb)

/-! ### The files that are required -/

section Files

variable {t : Tools} {p : Vars} {a : Artifacts} {f : Contents} {image : Bytes}

theorem requireContent_ok {α : Type} {file : Option α} {path description : Text} {content : α} :
    requireContent file path description = .ok content ↔ file = some content := by
  cases file <;> simp [requireContent]

theorem requireInitrd_ok {initrd : Option Text} (h : requireInitrd p a = .ok initrd) :
    p.rootfsMode = roOverlay → a.initrd = initrd ∧ initrd.isSome := by
  intro hm
  rw [requireInitrd, if_pos hm] at h
  cases hfile : a.initrd with
  | none => simp [hfile, requireContent, Except.map] at h
  | some content =>
    simp only [hfile, requireContent, Except.map, Except.ok.injEq] at h
    exact ⟨h, h ▸ rfl⟩

/-- Where the contents come from. -/
structure Required (p : Vars) (a : Artifacts) (metadata : Option Text) (f : Contents) : Prop where
  kernel : a.kernel = some f.kernel
  dtb : a.dtb = some f.dtb
  downloadLoader : a.boot.downloadLoader = some f.downloadLoader
  idblock : a.boot.idblock = some f.idblock
  uboot : a.boot.uboot = some f.uboot
  rootfs : a.rootfs = some f.rootfs
  initrd : p.rootfsMode = roOverlay → a.initrd = f.initrd ∧ f.initrd.isSome
  ubootBuildInfo : a.boot.ubootBuildInfo = some f.ubootBuildInfo
  metadata : metadata = some f.imageBuildInfo

theorem required_of_ok {metadata : Option Text} (h : requireContents p a metadata = .ok f) :
    Required p a metadata f := by
  simp only [requireContents, bind_ok, requireContent_ok] at h
  obtain ⟨kernel, hkernel, dtb, hdtb, loader, hloader, idblock, hidblock, uboot, huboot, rootfs,
    hrootfs, initrd, hinitrd, release, -, config, -, kernelInfo, -, ubootInfo, hubootInfo,
    rootfsInfo, -, imageInfo, himageInfo, hf⟩ := h
  cases hf
  exact ⟨hkernel, hdtb, hloader, hidblock, huboot, hrootfs, requireInitrd_ok hinitrd, hubootInfo,
    himageInfo⟩

/-- What the script asks of the artifacts alone. -/
structure Passes (t : Tools) (p : Vars) (a : Artifacts) (f : Contents) : Prop where
  metadata : checkMetadata t p a f = .ok ()
  loader : f.downloadLoader.take 4 = ldr
  idblockFormat : metadataValue f.ubootBuildInfo "idblock_format".toList = "RKNS".toList
  rootfs : if p.rootfsMode = roOverlay then f.rootfs.take 4 = hsqs
    else t.rootfsTools.e2fsck f.rootfs ∧ t.rootfsTools.blkidLabel f.rootfs = "rootfs".toList
  contents : checkRootfs t p a f f.rootfs = .ok ()

theorem Passes.fatDtb (h : Passes t p a f) (path description : Text) :
    verifyExtlinuxDtb (t.deviceTree f.dtb) path description = .ok () := by
  have hmetadata := h.metadata
  simp only [checkMetadata, bind_ok, verifyExtlinuxDtb, require_ok] at hmetadata ⊢
  obtain ⟨_, hdtb, -⟩ := hmetadata
  exact hdtb

/-- The boot chain of the image is compared with artifacts that are what they should be. -/
theorem bootloaderLayoutVerify_iff {metadata : Option Text} (hp : Accepted p)
    (hf : Required p a metadata f) (hmagic : f.idblock.take 4 = rkns) :
    bootloaderLayoutVerify p a.boot image = .ok () ↔
      (f.downloadLoader.take 4 = ldr ∧
        metadataValue f.ubootBuildInfo "idblock_format".toList = "RKNS".toList) ∧
      slice image (decimal p.idblockSector * 512) f.idblock.length = f.idblock ∧
      slice image (decimal p.ubootSector * 512) f.uboot.length = f.uboot := by
  rw [bootloaderLayoutVerify, bootloaderLayoutFunc_eq hp.layout]
  simp only [layoutRockchipVerify, bind_ok, requireFile_ok, require_ok,
    evaluate_of_positive hp.idblock, evaluate_of_positive hp.uboot, Except.ok.injEq,
    exists_eq_left', extractBytes_eq, sector_offset, hf.downloadLoader, hf.idblock, hf.uboot,
    Option.some.injEq, hf.ubootBuildInfo, Option.getD_some, hmagic, true_and, exists_const]
  constructor
  · rintro ⟨hloader, hformat, -, hidblock, huboot⟩
    exact ⟨⟨hloader, hformat⟩, hidblock.symm, huboot.symm⟩
  · rintro ⟨⟨hloader, hformat⟩, hidblock, huboot⟩
    exact ⟨hloader, hformat, hidblock.symm ▸ hmagic, hidblock.symm, huboot.symm⟩

theorem compareRootfs_iff {l : PartitionLayout} :
    compareRootfs t.rootfsTools p l f.rootfs image = .ok () ↔
      slice image (l.rootFirstSector * 512).toNat f.rootfs.length = f.rootfs ∧
      if p.rootfsMode = roOverlay then f.rootfs.take 4 = hsqs
      else t.rootfsTools.e2fsck f.rootfs ∧
        t.rootfsTools.blkidLabel f.rootfs = "rootfs".toList := by
  rw [compareRootfs, extractBytes_eq]
  generalize slice image (l.rootFirstSector * 512).toNat f.rootfs.length = embedded
  split
  · simp only [bind_ok, require_ok]
    constructor
    · rintro ⟨_, rfl, hmagic⟩
      exact ⟨rfl, hmagic⟩
    · rintro ⟨rfl, hmagic⟩
      exact ⟨(), rfl, hmagic⟩
  · simp only [bind_ok, require_ok]
    constructor
    · rintro ⟨_, rfl, _, hclean, hlabel⟩
      exact ⟨rfl, hclean, hlabel⟩
    · rintro ⟨rfl, hclean, hlabel⟩
      exact ⟨(), rfl, (), hclean, hlabel⟩

end Files

/-! ### The checksums -/

section Checksums

variable {t : Tools} {a : Artifacts} {b : PublishInputs} {o : Outputs}

/-- The digest of `sha256sum` in lower-case hexadecimal digits. -/
def IsDigest (t : Text) : Prop := t.length = 64 ∧ ∀ c ∈ t, isDigit c ∨ 'a' ≤ c ∧ c ≤ 'f'

instance : DecidablePred IsDigest := fun t =>
  inferInstanceAs (Decidable (t.length = 64 ∧ ∀ c ∈ t, isDigit c = true ∨ 'a' ≤ c ∧ c ≤ 'f'))

theorem checksumEntry_line {digest name : Text} (h : IsDigest digest) :
    checksumEntry (checksumLine digest name) = some (digest, name) := by
  obtain ⟨hlength, hdigits⟩ := h
  have hhex : ∀ c ∈ digest, isHex c = true := by
    intro c hc
    rcases hdigits c hc with hdigit | hletter
    · simp [isHex, hdigit]
    · simp [isHex, hletter]
  have htake : (checksumLine digest name).take 64 = digest := by
    rw [checksumLine, List.append_assoc, List.take_left' hlength]
  have hdrop : (checksumLine digest name).drop 66 = name := by
    rw [checksumLine, List.drop_left' (by simp [hlength])]
  have hblanks : (checksumLine digest name)[64]? = some ' ' ∧
      (checksumLine digest name)[65]? = some ' ' := by
    simp [checksumLine, hlength, List.getElem?_append]
  rw [checksumEntry, htake, hdrop, if_pos ⟨hlength, hhex, hblanks.1, .inl hblanks.2⟩]

theorem toLower_digest {digest : Text} (h : IsDigest digest) :
    digest.map Char.toLower = digest := by
  refine (List.map_congr_left fun c hc => dif_neg ?_).trans (List.map_id _)
  rintro ⟨hlow, hhigh⟩
  rcases h.2 c hc with hdigit | ⟨hletter, -⟩
  · have hnine : c ≤ '9' := by
      simp only [isDigit, Bool.and_eq_true, decide_eq_true_eq] at hdigit
      exact hdigit.2
    exact absurd (show 'A' ≤ '9' from Char.le_trans hlow hnine) (by decide)
  · exact absurd (show 'a' ≤ 'Z' from Char.le_trans hletter hhigh) (by decide)

theorem digest_free {digest : Text} (h : IsDigest digest) : '\n' ∉ digest := fun hmem =>
  absurd (h.2 _ hmem) (by decide)

/-- The line of a file with its digest. -/
def fileLine (t : Tools) (e : Bytes × Text) : Text := checksumLine (t.sha256sum e.1) e.2

/-- Lines with the digests of the files that are there. -/
theorem checksumsMatch_lines {directory : Text → Option Bytes}
    (hdigest : ∀ bytes, IsDigest (t.sha256sum bytes)) {files : List (Bytes × Text)}
    (hfiles : ∀ e ∈ files, directory e.2 = some e.1 ∧ '\n' ∉ e.2) :
    ChecksumsMatch t directory (terminate '\n' (files.map (fileLine t))) ↔ files ≠ [] := by
  have hfree : Free '\n' (files.map (fileLine t)) := by
    intro line hline
    obtain ⟨e, he, rfl⟩ := List.mem_map.mp hline
    simp [fileLine, checksumLine, digest_free (hdigest e.1), (hfiles e he).2]
  have hentries : (files.map (fileLine t)).filterMap checksumEntry =
      files.map fun e => (t.sha256sum e.1, e.2) := by
    rw [List.filterMap_map, ← List.filterMap_eq_map]
    exact List.filterMap_congr fun e _ => checksumEntry_line (hdigest e.1)
  rw [ChecksumsMatch, records_terminate hfree, hentries, List.forall_mem_map, Ne,
    List.map_eq_nil_iff]
  refine and_iff_left fun e he => ?_
  rw [(hfiles e he).1, Option.map_some, toLower_digest (hdigest e.1)]

theorem zstdName_eq (b : PublishInputs) : b.zstdName = b.imageStem ++ ".img.zst".toList := by
  rw [PublishInputs.zstdName, PublishInputs.imageName, List.append_assoc]
  rfl

theorem directory_image (hstem : a.imageStem = b.imageStem) :
    a.directory o b.imageName = o.image.map DiskImage.bytes := by
  rw [Artifacts.directory, PublishInputs.imageName, hstem, if_pos rfl]

theorem directory_zstd (hstem : a.imageStem = b.imageStem) :
    a.directory o b.zstdName = o.zstd := by
  have hne : b.imageStem ++ ".img.zst".toList ≠ b.imageStem ++ ".img".toList := fun heq =>
    absurd (List.append_cancel_left heq) (by decide)
  rw [Artifacts.directory, zstdName_eq, hstem, if_neg hne, if_pos rfl]

end Checksums

/-! ### The verdict -/

/-- Both copies of the GPT are as they were written. -/
structure SameGpt (gpt image : Bytes) : Prop where
  size : image.length = gpt.length
  primary : slice image 0 (34 * 512) = slice gpt 0 (34 * 512)
  backup : slice image (image.length - 33 * 512) (33 * 512) =
    slice gpt (image.length - 33 * 512) (33 * 512)

/-- What `make_image.sh` reads for the boot partition. No board has a hook that changes it. -/
def Artifacts.stage (p : Vars) (a : Artifacts) (overlays : Text → Option Text)
    (matching : Text → List Text) : Stage :=
  ⟨p.kernelDtb, p.kernelDtbo, p.rootfsMode, a.kernel, a.dtb, a.initrd, overlays, matching⟩

/-- A run of `make_image.sh` that ends with the publication `b`, and the tools as they behave on
its results: `sgdisk` writes the GPT only and prints the table for a disk with this GPT, and mtools
find the boot partition where it was copied to. -/
structure Made (t : Tools) (a : Artifacts) (b : Publication) where
  fs : Filesystems b.profile b.layout
  overlays : Text → Option Text
  matching : Text → List Text
  extraKernelArgs : Text
  boot : BootImage t.fat.toMtools
  filled : makeBootImage t.fat.toMtools ⟨b.profile.extlinuxLabel, b.profile.console,
    extraKernelArgs⟩ (Artifacts.stage b.profile a overlays matching)
    (Artifacts.stage b.profile a overlays matching) = some boot
  apart : ((Artifacts.stage b.profile a overlays matching).made.map t.fat.entry).Nodup
  bootFat : fs.bootFat = t.fat.file boot.fat
  mounted : ∀ rest, t.fat.mount (fs.bootFat ++ rest) = some boot.fat
  computed : computePartitionLayout b.profile b.rootfsImage.length = .ok b.layout
  rootfs : fs.rootfs = b.rootfsImage
  writesGpt : WritesOnlyGpt t.sgdisk.write
  prints : ∀ image, SameGpt (t.sgdisk.write (partitionTable b.profile b.layout)
    (zeros (decimal b.profile.imageSizeMib * mib))) image →
    Prints t.sgdisk (partitionTable b.profile b.layout) image
  assembled : assembleImage t.sgdisk.write b.profile b.layout b.artifacts fs = .ok b.disk
  stem : a.imageStem = b.imageStem
  bootArtifacts : a.boot.toBootArtifacts = b.artifacts
  rootfsArtifact : a.rootfs = some b.rootfsImage
  digest : b.sha256sum = t.sha256sum
  digests : ∀ bytes, IsDigest (t.sha256sum bytes)

section Verdict

variable {t : Tools} {a : Artifacts} {b : Publication} {f : Contents} {image : Bytes}

def Made.conf (m : Made t a b) : Conf :=
  (Artifacts.stage b.profile a m.overlays m.matching).conf
    ⟨b.profile.extlinuxLabel, b.profile.console, m.extraKernelArgs⟩

def Made.gpt (_ : Made t a b) : Bytes :=
  t.sgdisk.write (partitionTable b.profile b.layout) (zeros (decimal b.profile.imageSizeMib * mib))

/-- The image has the boot chain and the root file system where the build put them. -/
structure Unchanged (b : Publication) (image : Bytes) : Prop where
  idblock : ∀ idblock, b.artifacts.idblock = some idblock →
    slice image (decimal b.profile.idblockSector * 512) idblock.length = idblock
  uboot : ∀ uboot, b.artifacts.uboot = some uboot →
    slice image (decimal b.profile.ubootSector * 512) uboot.length = uboot
  rootfs : slice image (b.layout.rootFirstSector * 512).toNat b.rootfsImage.length = b.rootfsImage

/-- The image has the GPT and the boot partition of the build. -/
structure SameBoot (m : Made t a b) (image : Bytes) : Prop where
  gpt : SameGpt m.gpt image
  boot : slice image (b.layout.bootFirstSector * 512).toNat m.fs.bootFat.length = m.fs.bootFat

theorem checkInitrd_ok {fat : t.fat.Fat} {initrd : Text} (hfile : f.initrd = some initrd)
    (hread : t.fat.read fat "/initrd.img".toList = some initrd) :
    checkInitrd t f fat = .ok () := by
  rw [checkInitrd, mcopyOut, hread]
  exact bind_ok.mpr ⟨initrd, rfl, require_ok.mpr hfile⟩

/-- Everything asked of a boot partition that holds the files of the artifacts. -/
theorem checkBootFiles_ok {p : Vars} {fat : t.fat.Fat} {c : Conf} (hpass : Passes t p a f)
    (hkernel : t.fat.read fat "/Image".toList = some f.kernel)
    (hdtb : t.fat.read fat ('/' :: p.kernelDtb) = some f.dtb)
    (hconf : t.fat.read fat "/extlinux/extlinux.conf".toList = some c.text)
    (hinitrd : p.rootfsMode = roOverlay → checkInitrd t f fat = .ok ())
    (hname : c.fdt = p.kernelDtb) (hmode : c.initrd = decide (p.rootfsMode = roOverlay))
    (hconsole : c.labels.console = p.console) : checkBootFiles t p f fat = .ok () := by
  rw [checkBootFiles, mcopyOut, hkernel, mcopyOut, hdtb, mcopyOut, hconf]
  refine bind_ok.mpr ⟨_, rfl, bind_ok.mpr ⟨_, rfl, bind_ok.mpr ⟨_, rfl, ?_⟩⟩⟩
  refine bind_ok.mpr ⟨(), require_ok.mpr rfl, bind_ok.mpr ⟨(), require_ok.mpr rfl, ?_⟩⟩
  refine bind_ok.mpr ⟨(), hpass.fatDtb _ _, bind_ok.mpr ⟨(), require_ok.mpr ?_, ?_⟩⟩
  · exact hname ▸ grepFx_fdt c
  have hrest : (do
      checkMode p c.text
      require (GrepF ("console=".toList ++ p.console) c.text)
        ("extlinux.conf does not configure ".toList ++ p.console)) = Except.ok () :=
    bind_ok.mpr ⟨(), mode_passes hmode, require_ok.mpr (hconsole ▸ console_passes c)⟩
  by_cases hm : p.rootfsMode = roOverlay
  · rw [if_pos hm]
    exact bind_ok.mpr ⟨(), hinitrd hm, hrest⟩
  · rw [if_neg hm]
    exact hrest

theorem checkBootPartition_made (m : Made t a b) (h : SameBoot m image) {metadata : Option Text}
    (hf : Required b.profile a metadata f) (hpass : Passes t b.profile a f) :
    checkBootPartition t b.profile b.layout f image = .ok () := by
  have hmount : t.fat.mount (image.drop (b.layout.bootFirstSector * 512).toNat) =
      some m.boot.fat := by
    have hsplit := List.take_append_drop m.fs.bootFat.length
      (image.drop (b.layout.bootFirstSector * 512).toNat)
    have hboot : (image.drop (b.layout.bootFirstSector * 512).toNat).take m.fs.bootFat.length =
        m.fs.bootFat := h.boot
    rw [← hsplit, hboot]
    exact m.mounted _
  have hfill := filled_of_makeBootImage m.apart m.filled
  rw [checkBootPartition, hmount]
  refine checkBootFiles_ok (c := m.conf) hpass (hfill.image.trans hf.kernel)
    (hfill.dtb.trans hf.dtb) hfill.conf (fun hm => ?_) rfl rfl rfl
  obtain ⟨heq, hsome⟩ := hf.initrd hm
  obtain ⟨initrd, hinitrd⟩ := Option.isSome_iff_exists.mp hsome
  exact checkInitrd_ok hinitrd ((hfill.initrd hm).trans (heq.trans hinitrd))

theorem contents_agree (m : Made t a b) {metadata : Option Text}
    (hf : Required b.profile a metadata f) :
    b.artifacts.idblock = some f.idblock ∧ b.artifacts.uboot = some f.uboot ∧
      b.rootfsImage = f.rootfs :=
  ⟨m.bootArtifacts ▸ hf.idblock, m.bootArtifacts ▸ hf.uboot,
    Option.some.inj (m.rootfsArtifact.symm.trans hf.rootfs)⟩

theorem idblock_magic {idblock : Bytes} (h : b.artifacts.idblock = some idblock) :
    idblock.take 4 = rkns := by
  obtain ⟨block, uboot, hblock, -, hfit⟩ := b.checked.artifacts
  obtain rfl := Option.some.inj (hblock.symm.trans h)
  exact hfit.magic

/-- The verdict on an image with the GPT and the boot partition of a build. -/
theorem verifyImage_iff (m : Made t a b) (h : SameBoot m image) {o : Outputs}
    (himage : o.image.map DiskImage.bytes = some image) :
    verifyImage t b.profile a o = .ok () ↔ Unchanged b image ∧
      (∃ checksums, o.sha256 = some checksums ∧ ChecksumsMatch t (a.directory o) checksums) ∧
      ∃ f, requireContents b.profile a o.metadata = .ok f ∧ Passes t b.profile a f := by
  have hsize : image.length = decimal b.profile.imageSizeMib * mib := by
    rw [h.gpt.size, Made.gpt, (m.writesGpt _ _).1, zeros_length]
  have htable := checkTable_prints (a := a) b.checked (m.prints image h.gpt) hsize
  simp only [verifyImage, bind_ok, requireContent_ok, himage, Option.some.injEq,
    exists_eq_left']
  constructor
  · rintro ⟨checksums, hchecksums, f, hcontents, _, hmetadata, l, hlayout, _, -, _, hchain, _, -, _,
      hroot, _, hinside, hsums⟩
    have hf := required_of_ok hcontents
    obtain ⟨hidblock, huboot, hrootfs⟩ := contents_agree m hf
    rw [← hrootfs, m.computed] at hlayout
    obtain rfl : b.layout = l := Except.ok.inj hlayout
    obtain ⟨⟨hloader, hformat⟩, hembedded, hembeddedUboot⟩ :=
      (bootloaderLayoutVerify_iff b.checked.accepted hf (idblock_magic hidblock)).mp hchain
    obtain ⟨hembeddedRoot, hkind⟩ := compareRootfs_iff.mp hroot
    rw [extractBytes_eq, hembeddedRoot] at hinside
    refine ⟨⟨fun _ h => ?_, fun _ h => ?_, hrootfs ▸ hembeddedRoot⟩, ⟨checksums, hchecksums,
      require_ok.mp hsums⟩, f, hcontents, ⟨hmetadata, hloader, hformat, hkind, hinside⟩⟩
    · obtain rfl := Option.some.inj (hidblock.symm.trans h)
      exact hembedded
    · obtain rfl := Option.some.inj (huboot.symm.trans h)
      exact hembeddedUboot
  · rintro ⟨hunchanged, ⟨checksums, hchecksums, hsums⟩, f, hcontents, hpass⟩
    have hf := required_of_ok hcontents
    obtain ⟨hidblock, huboot, hrootfs⟩ := contents_agree m hf
    have hlayout : computePartitionLayout b.profile f.rootfs.length = .ok b.layout :=
      hrootfs ▸ m.computed
    have hchain := (bootloaderLayoutVerify_iff b.checked.accepted hf
      (idblock_magic hidblock)).mpr ⟨⟨hpass.loader, hpass.idblockFormat⟩,
        hunchanged.idblock _ hidblock, hunchanged.uboot _ huboot⟩
    have hembedded : slice image (b.layout.rootFirstSector * 512).toNat f.rootfs.length =
        f.rootfs := hrootfs ▸ hunchanged.rootfs
    have hroot := (compareRootfs_iff (t := t)).mpr ⟨hembedded, hpass.rootfs⟩
    have hboot := checkBootPartition_made m h hf hpass
    refine ⟨checksums, hchecksums, f, hcontents, (), hpass.metadata, b.layout, hlayout, (), htable,
      (), hchain, (), hboot, (), hroot, (), ?_, require_ok.mpr hsums⟩
    rw [extractBytes_eq, hembedded]
    exact hpass.contents

theorem disk_holds (m : Made t a b) : SameBoot m b.disk ∧ Unchanged b b.disk := by
  obtain ⟨idblock, uboot, hidblock, huboot, hfit⟩ := b.checked.artifacts
  have hchecked : Checked b.profile m.fs.rootfs.length b.layout b.artifacts :=
    m.rootfs.symm ▸ b.checked
  have hdisk := assembleImage_eq m.writesGpt hchecked hidblock huboot hfit
  have hholds := applyWrites_holds hchecked hfit (g := m.gpt) (by
    rw [Made.gpt, (m.writesGpt _ _).1, zeros_length])
  have heq : b.disk = applyWrites m.gpt (imageWrites b.profile b.layout idblock uboot m.fs) :=
    Except.ok.inj (m.assembled.symm.trans hdisk)
  rw [← heq] at hholds
  have hsize : b.disk.length = m.gpt.length := by
    rw [hholds.size, Made.gpt, (m.writesGpt _ _).1, zeros_length]
  refine ⟨⟨⟨hsize, hholds.primaryGpt, hholds.backupGpt⟩, ?_⟩, fun _ h => ?_, fun _ h => ?_, ?_⟩
  · exact (extractBytes_eq _ _ _).symm.trans hholds.boot
  · obtain rfl := Option.some.inj (hidblock.symm.trans h)
    exact (extractBytes_eq _ _ _).symm.trans hholds.idblock
  · obtain rfl := Option.some.inj (huboot.symm.trans h)
    exact (extractBytes_eq _ _ _).symm.trans hholds.uboot
  · rw [← m.rootfs]
    exact (extractBytes_eq _ _ _).symm.trans hholds.rootfs

/-- An image changed behind the build, whose new checksum is in the checksum file along with those
of any files of the directory: the script notices exactly what happens to the boot chain and to the
root file system. -/
theorem changed_image_verdict (m : Made t a b) (h : SameBoot m image) {o : Outputs}
    (himage : o.image.map DiskImage.bytes = some image) {files : List (Bytes × Text)}
    (hlisted : (image, b.imageName) ∈ files)
    (hfiles : ∀ e ∈ files, a.directory o e.2 = some e.1 ∧ '\n' ∉ e.2)
    (hsums : o.sha256 = some (terminate '\n' (files.map (fileLine t)))) :
    verifyImage t b.profile a o = .ok () ↔ Unchanged b image ∧
      ∃ f, requireContents b.profile a o.metadata = .ok f ∧ Passes t b.profile a f := by
  have hmatch := (checksumsMatch_lines m.digests hfiles).mpr (List.ne_nil_of_mem hlisted)
  rw [verifyImage_iff m h himage, hsums]
  exact and_congr_right' (and_iff_right ⟨_, rfl, hmatch⟩)

section Stops

variable {o previous : Outputs} {files : List (Bytes × Text)}

def Made.published (_ : Made t a b) : List (Bytes × Text) :=
  [(b.disk, b.imageName), (b.compressed, b.zstdName)]

theorem Made.lines (m : Made t a b) : m.published.map (fileLine t) =
    [imageChecksum b.toPublishInputs, zstdChecksum b.toPublishInputs] := by
  simp only [Made.published, fileLine, imageChecksum, zstdChecksum, List.map_cons, List.map_nil,
    m.digest]

theorem verdict_of_lines (m : Made t a b) (himage : o.image = some b.image)
    (hzstd : o.zstd = some b.compressed) (hfiles : files ⊆ m.published)
    (hsums : o.sha256 = some (terminate '\n' (files.map (fileLine t)))) :
    verifyImage t b.profile a o = .ok () ↔ files ≠ [] ∧
      ∃ f, requireContents b.profile a o.metadata = .ok f ∧ Passes t b.profile a f := by
  obtain ⟨hboot, hunchanged⟩ := disk_holds m
  have hbytes : o.image.map DiskImage.bytes = some b.disk := by
    rw [himage]
    rfl
  have hthere : ∀ e ∈ m.published, a.directory o e.2 = some e.1 ∧ '\n' ∉ e.2 := by
    simp [Made.published, directory_image m.stem, directory_zstd m.stem, hbytes, hzstd,
      (image_name_free b).1, (zstd_name_free b).1]
  have hmatch := checksumsMatch_lines m.digests fun e he => hthere e (hfiles he)
  rw [verifyImage_iff m hboot hbytes, hsums]
  simp only [Option.some.injEq, exists_eq_left', hmatch, hunchanged, true_and]

theorem no_image {p : Vars} (himage : o.image = none) : verifyImage t p a o ≠ .ok () := by
  rw [verifyImage, himage]
  intro h
  cases h

theorem no_verdict (m : Made t a b) (himage : o.image = some b.image) (hsums : o.sha256 = none) :
    verifyImage t b.profile a o ≠ .ok () := by
  intro h
  have hbytes : o.image.map DiskImage.bytes = some b.disk := by
    rw [himage]
    rfl
  obtain ⟨-, ⟨checksums, hsome, -⟩, -⟩ := (verifyImage_iff m (disk_holds m).1 hbytes).mp h
  rw [hsums] at hsome
  cases hsome

end Stops

/-- The script passes what a run of `make_image.sh` left that ended behind so many commands of the
publication: never before the line of the image is in the checksum file, and from then on exactly if
the artifacts pass, even while the metadata is still that of an earlier image. -/
theorem verdict_after_stop (m : Made t a b) (previous : Outputs) (k : ℕ) :
    verifyImage t b.profile a (publishUntil b.toPublishInputs previous (.after k)) = .ok () ↔
      5 ≤ k ∧ ∃ f, requireContents b.profile a
        (if k < 8 then previous.metadata else some (imageBuildInfo b.toPublishInputs)) = .ok f ∧
        Passes t b.profile a f := by
  have himageLine : imageChecksum b.toPublishInputs = fileLine t (b.disk, b.imageName) := by
    rw [imageChecksum, fileLine, m.digest]
  have hone : addLine (imageChecksum b.toPublishInputs) (some []) =
      some (terminate '\n' ([(b.disk, b.imageName)].map (fileLine t))) := by
    rw [himageLine]
    exact addLine_terminate _ []
  have hin : [(b.disk, b.imageName)] ⊆ m.published :=
    List.cons_subset_cons _ (List.nil_subset _)
  have hboth := (checksum_file b.toPublishInputs).trans (congrArg _ (congrArg _ m.lines.symm))
  have hne : m.published ≠ [] := List.cons_ne_nil _ _
  rcases k with _ | _ | _ | _ | _ | _ | _ | _ | k
  · exact iff_of_false (no_image rfl) (by simp)
  · exact iff_of_false (no_verdict m rfl rfl) (by simp)
  · exact iff_of_false (no_verdict m rfl rfl) (by simp)
  · exact iff_of_false (no_verdict m rfl rfl) (by simp)
  · exact iff_of_false
      (fun h => ((verdict_of_lines m rfl rfl (List.nil_subset _) rfl).mp h).1 rfl) (by simp)
  · exact (verdict_of_lines m rfl rfl hin hone).trans
      (and_congr_left' (iff_of_true (List.cons_ne_nil _ _) (by omega)))
  · exact (verdict_of_lines m rfl rfl (List.Subset.refl _) hboth).trans
      (and_congr_left' (iff_of_true hne (by omega)))
  · exact (verdict_of_lines m rfl rfl (List.Subset.refl _) hboth).trans
      (and_congr_left' (iff_of_true hne (by omega)))
  · rw [publishUntil_complete, if_neg (by omega)]
    exact (verdict_of_lines m rfl rfl (List.Subset.refl _)
      (congrArg some (congrArg _ m.lines.symm))).trans
      (and_congr_left' (iff_of_true hne (by omega)))

end Verdict

/-! ### A build that passes -/

/-- A FAT image as the list of its entries; a directory has no content. -/
def entryTable (file : Bytes) (found : List (Text × Option Text)) : FatTools where
  Fat := List (Text × Option Text)
  entry := List.map Char.toLower
  format := [("/".toList, none)]
  mmd fat d :=
    if d.map Char.toLower ∈ fat.map fun e => e.1.map Char.toLower then none
    else some ((d, none) :: fat)
  mcopy fat content d :=
    if d.map Char.toLower ∈ fat.map fun e => e.1.map Char.toLower then none
    else some ((d, some content) :: fat)
  leads fat p := p.map Char.toLower ∈ fat.map fun e => e.1.map Char.toLower
  file _ := file
  mount image := if file <+: image then some found else none
  read fat p :=
    (fat.find? fun e => p.map Char.toLower = e.1.map Char.toLower).bind Prod.snd
  leads_format p := by simp
  leads_mmd h p := by
    split_ifs at h
    obtain rfl := Option.some.inj h
    simp [or_comm]
  leads_mcopy h p := by
    split_ifs at h
    obtain rfl := Option.some.inj h
    simp [or_comm]
  read_mmd h p hp := by
    split_ifs at h
    obtain rfl := Option.some.inj h
    rw [List.find?_cons, decide_eq_false hp]
  read_mcopy h p := by
    split_ifs at h
    obtain rfl := Option.some.inj h
    rw [List.find?_cons]
    split_ifs with hp
    · rw [decide_eq_true hp]
      rfl
    · rw [decide_eq_false hp]

theorem entryTable_mount (file : Bytes) (found : List (Text × Option Text)) (rest : Bytes) :
    (entryTable file found).mount (file ++ rest) = some found :=
  if_pos (List.prefix_append file rest)

def exampleSum : Text := "6e340b9cffb37a989ca544e6bb780a2c78901d3fb33738768511a30617afa01d".toList

def exampleFilesystems : Filesystems (exampleProfile rwExt4) writableLayout where
  bootFat := zeros (decimal (exampleProfile rwExt4).bootSizeMib * mib)
  bootFat_length := zeros_length _
  rootfs := [0]
  data := []
  data_length _ _ hd := by cases hd

def exampleDisk : Bytes :=
  applyWrites (signGpt (partitionTable (exampleProfile rwExt4) writableLayout)
    (zeros (decimal (exampleProfile rwExt4).imageSizeMib * mib)))
    (imageWrites (exampleProfile rwExt4) writableLayout rkns [1] exampleFilesystems)

def exampleRun : PublishInputs :=
  { exampleInputs rwExt4 writableLayout exampleDisk with sha256sum := fun _ => exampleSum }

theorem exampleRun_one_line : ∀ f ∈ imageFields exampleRun, '\n' ∉ f.value := by
  unfold exampleRun exampleInputs exampleProfile exampleSum rock5c
  repeat rw [String.toList_ofList]
  decide +kernel

def exampleBuild : Publication :=
  ⟨exampleRun, ⟨[], some rkns, some [1]⟩, makeImageChecks_ok writable_checks, exampleRun_one_line⟩

/-- What one disk prints, with the same details for every partition. -/
def exampleDetails : Details where
  code := " 0FC63DAF-8483-4772-8E79-3D69D8477DE4 (Linux filesystem)".toList
  unique := " 2F5B1E36-0C5D-4E19-9C2B-4F7A3B7C0A11".toList
  firstAt := "(at 16.0 MiB)".toList
  lastAt := "(at 272.0 MiB)".toList
  sectors := " 524288 sectors (256.0 MiB)".toList
  flags := " 0000000000000000".toList
  size := "256.0".toList
  unit := "MiB".toList

def exampleSgdisk : Sgdisk where
  write := signGpt
  verify _ := true
  info _ n :=
    infoText (if n = 1 then bootPartition writableLayout else rootPartition writableLayout)
      exampleDetails
  list _ := terminate '\n' ([] ++ (partitionTable (exampleProfile rwExt4) writableLayout).map
    fun q => row q exampleDetails)

theorem exampleSgdisk_prints (image : Bytes) :
    Prints exampleSgdisk (partitionTable (exampleProfile rwExt4) writableLayout) image := by
  have hplain : exampleDetails.Plain := by
    unfold exampleDetails
    constructor <;> decide
  refine ⟨rfl, fun q hq => ⟨exampleDetails, hplain, ?_⟩, [], fun _ => exampleDetails, nofun,
    fun _ => hplain, rfl⟩
  rw [partitionTable_writable rfl] at hq
  simp only [List.mem_cons, List.not_mem_nil, or_false] at hq
  rcases hq with rfl | rfl <;> rfl

def exampleArtifacts : Artifacts where
  variantOutput := "/out/buildroot".toList
  imageStem := exampleRun.imageStem
  rootfsChoice := "buildroot".toList
  debianRelease := []
  rootfsUsername := "user".toList
  boot :=
    { commonOutput := []
      idblock := some rkns
      uboot := some [1]
      downloadLoader := some ldr
      ubootBuildInfo := some (terminate '\n' ["idblock_format=RKNS".toList,
        "uboot_revision=".toList ++ rock5c.expectedUbootRevision,
        "rkbin_revision=".toList ++ rock5c.expectedRkbinRevision]) }
  kernel := some "kernel".toList
  dtb := some "device tree".toList
  initrd := none
  rootfs := some [0]
  kernelRelease := some "5.10.110\n".toList
  kernelConfig := some (terminate '\n' verifiedConfigs)
  kernelBuildInfo := some (terminate '\n' ["source_manifest=".toList ++ rock5c.sourceManifest,
    "kernel_revision=".toList ++ rock5c.expectedKernelRevision,
    "dtb_bootargs=extlinux-only-v1".toList])
  rootfsBuildInfo := some []
  others _ := none
  overlayVerify _ := none

def exampleStage : Stage :=
  Artifacts.stage (exampleProfile rwExt4) exampleArtifacts (fun _ => none) (fun _ => [])

def exampleConf : Conf :=
  exampleStage.conf ⟨(exampleProfile rwExt4).extlinuxLabel, (exampleProfile rwExt4).console, []⟩

def exampleEntries : List (Text × Option Text) :=
  [("/extlinux/extlinux.conf".toList, some exampleConf.text),
    ('/' :: (exampleProfile rwExt4).kernelDtb, exampleArtifacts.dtb),
    ("/Image".toList, exampleArtifacts.kernel), ("/extlinux".toList, none), ("/".toList, none)]

def exampleRootfs : Rootfs where
  cat path :=
    if path = "/etc/passwd".toList then "root:x:0:0::/root:/bin/sh\nuser:x:1000:1000::/:\n".toList
    else if path = "/etc/shadow".toList then "root:$6$x$y:10933:0:99999:7:::\n".toList
    else "resize2fs \"$rootdev\"\n".toList
  present _ := true
  isSymlink _ := false
  ownerRoot _ := true

def exampleTools : Tools where
  sgdisk := exampleSgdisk
  fat := entryTable exampleFilesystems.bootFat exampleEntries
  deviceTree _ node := if node = KernelPackage.root then some fun _ => none else none
  rootfsTools := ⟨fun _ => true, fun _ => "rootfs".toList⟩
  unsquashfs _ := none
  debugfs _ := exampleRootfs
  sha256sum _ := exampleSum

theorem example_apart : (exampleStage.made.map exampleTools.fat.entry).Nodup := by
  change (exampleStage.made.map (List.map Char.toLower)).Nodup
  unfold Stage.made Stage.present Stage.dtbos exampleStage Artifacts.stage exampleProfile rock5c
  repeat rw [String.toList_ofList]
  decide +kernel

theorem example_assembled : assembleImage signGpt (exampleProfile rwExt4) writableLayout
    ⟨[], some rkns, some [1]⟩ exampleFilesystems = .ok exampleDisk := by
  have hchecked := makeImageChecks_ok writable_checks
  obtain ⟨idblock, uboot, hidblock, huboot, hfit⟩ := hchecked.artifacts
  cases hidblock
  cases huboot
  exact assembleImage_eq signGpt_writesOnlyGpt hchecked rfl rfl hfit

theorem example_computed :
    computePartitionLayout (exampleProfile rwExt4) 1 = .ok writableLayout := by
  have hchecks := writable_checks
  simp only [makeImageChecks, bind_ok] at hchecks
  obtain ⟨p, -, l, hlayout, _, -, _, -, hpair⟩ := hchecks
  cases hpair
  exact hlayout

theorem exampleSum_digest : IsDigest exampleSum := by
  unfold exampleSum
  rw [String.toList_ofList]
  decide

theorem example_filled : makeBootImage exampleTools.fat.toMtools
    ⟨(exampleProfile rwExt4).extlinuxLabel, (exampleProfile rwExt4).console, []⟩ exampleStage
    exampleStage = some ⟨exampleConf, exampleEntries, [], []⟩ := by
  rfl

def exampleMade : Made exampleTools exampleArtifacts exampleBuild where
  fs := exampleFilesystems
  overlays _ := none
  matching _ := []
  extraKernelArgs := []
  boot := ⟨exampleConf, exampleEntries, [], []⟩
  filled := example_filled
  apart := example_apart
  bootFat := rfl
  mounted rest := entryTable_mount _ _ rest
  computed := example_computed
  rootfs := rfl
  writesGpt := signGpt_writesOnlyGpt
  prints image _ := exampleSgdisk_prints image
  assembled := example_assembled
  stem := rfl
  bootArtifacts := rfl
  rootfsArtifact := rfl
  digest := rfl
  digests _ := exampleSum_digest

def exampleContents : Contents where
  kernel := "kernel".toList
  dtb := "device tree".toList
  downloadLoader := ldr
  idblock := rkns
  uboot := [1]
  rootfs := [0]
  initrd := none
  kernelRelease := "5.10.110\n".toList
  kernelConfig := terminate '\n' verifiedConfigs
  kernelBuildInfo := terminate '\n' ["source_manifest=".toList ++ rock5c.sourceManifest,
    "kernel_revision=".toList ++ rock5c.expectedKernelRevision,
    "dtb_bootargs=extlinux-only-v1".toList]
  ubootBuildInfo := terminate '\n' ["idblock_format=RKNS".toList,
    "uboot_revision=".toList ++ rock5c.expectedUbootRevision,
    "rkbin_revision=".toList ++ rock5c.expectedRkbinRevision]
  rootfsBuildInfo := []
  imageBuildInfo := imageBuildInfo exampleRun

theorem example_contents : requireContents (exampleProfile rwExt4) exampleArtifacts
    (some (imageBuildInfo exampleRun)) = .ok exampleContents := by
  rfl

theorem example_configs : ∀ c ∈ verifiedConfigs, c ∈ records '\n' exampleContents.kernelConfig := by
  have hfree : Free '\n' verifiedConfigs := by
    unfold verifiedConfigs
    simp only [List.map_cons, List.map_nil]
    repeat rw [String.toList_ofList]
    unfold Free
    decide +kernel
  intro c hc
  exact (records_terminate hfree).symm ▸ hc

theorem example_metadata_values :
    metadataValue exampleContents.kernelBuildInfo "source_manifest".toList =
        rock5c.sourceManifest ∧
      metadataValue exampleContents.kernelBuildInfo "kernel_revision".toList =
        rock5c.expectedKernelRevision ∧
      metadataValue exampleContents.kernelBuildInfo "dtb_bootargs".toList =
        "extlinux-only-v1".toList ∧
      metadataValue exampleContents.ubootBuildInfo "idblock_format".toList = "RKNS".toList ∧
      metadataValue exampleContents.ubootBuildInfo "uboot_revision".toList =
        rock5c.expectedUbootRevision ∧
      metadataValue exampleContents.ubootBuildInfo "rkbin_revision".toList =
        rock5c.expectedRkbinRevision := by
  unfold exampleContents rock5c
  repeat rw [String.toList_ofList]
  decide +kernel

theorem example_revisions : checkRevisions (exampleProfile rwExt4) exampleContents = .ok () := by
  obtain ⟨hmanifest, hkernel, -, -, huboot, hrkbin⟩ := example_metadata_values
  have hbuildroot : metadataValue exampleContents.imageBuildInfo "buildroot_revision".toList =
      rock5c.expectedBuildrootRevision :=
    imageBuildInfo_value exampleBuild
      (f := ⟨"buildroot_revision".toList, rock5c.expectedBuildrootRevision⟩)
      (mem_leading (List.mem_append_left _
        (.tail _ (.tail _ (.tail _ (.tail _ (.tail _ (.head _))))))))
  rw [checkRevisions, if_neg (by decide)]
  exact bind_ok.mpr ⟨(), require_ok.mpr hmanifest, bind_ok.mpr ⟨(), require_ok.mpr (.inr hkernel),
    bind_ok.mpr ⟨(), require_ok.mpr (.inr huboot), bind_ok.mpr ⟨(), require_ok.mpr (.inr hrkbin),
      require_ok.mpr (.inr hbuildroot)⟩⟩⟩⟩

theorem example_user :
    Grep ("user".toList ++ [':'] <+: ·) (exampleRootfs.cat "/etc/passwd".toList) := by
  unfold exampleRootfs
  repeat rw [String.toList_ofList]
  decide +kernel

theorem example_root_enabled : Grep RootEnabled (exampleRootfs.cat "/etc/shadow".toList) := by
  unfold exampleRootfs
  repeat rw [String.toList_ofList]
  decide +kernel

theorem example_resize_hook : Grep (Has "resize2fs \"$rootdev\"".toList)
    (exampleRootfs.cat "/etc/init.d/S02rootfs-resize".toList) := by
  unfold exampleRootfs
  repeat rw [String.toList_ofList]
  decide +kernel

theorem example_passes :
    Passes exampleTools (exampleProfile rwExt4) exampleArtifacts exampleContents := by
  obtain ⟨-, -, hbootargs, hformat, -⟩ := example_metadata_values
  have hdtb : ∀ path description,
      verifyExtlinuxDtb (exampleTools.deviceTree exampleContents.dtb) path description = .ok () :=
    fun path description => bind_ok.mpr ⟨(), rfl, rfl⟩
  constructor
  case metadata =>
    exact bind_ok.mpr ⟨(), hdtb _ _, bind_ok.mpr ⟨(), require_ok.mpr hbootargs,
      bind_ok.mpr ⟨(), example_revisions, forM_require_ok.mpr example_configs⟩⟩⟩
  case loader => rfl
  case idblockFormat => exact hformat
  case rootfs => exact ⟨rfl, rfl⟩
  case contents =>
    have hview : rootfsView exampleTools (exampleProfile rwExt4) exampleContents.rootfs =
        .ok exampleRootfs := if_neg (by decide)
    rw [checkRootfs, hview]
    refine bind_ok.mpr ⟨exampleRootfs, rfl, ?_⟩
    have hchoice : exampleArtifacts.rootfsChoice = "buildroot".toList := rfl
    rw [if_pos hchoice]
    exact bind_ok.mpr ⟨(), bind_ok.mpr ⟨(), require_ok.mpr rfl, bind_ok.mpr ⟨(), require_ok.mpr rfl,
      bind_ok.mpr ⟨(), require_ok.mpr example_user, require_ok.mpr example_root_enabled⟩⟩⟩,
      require_ok.mpr example_resize_hook⟩

def noOutputs : Outputs := ⟨none, none, none, none, none, none⟩

theorem verdict_after_stop_complete :
    verifyImage exampleTools exampleBuild.profile exampleArtifacts
        (publishUntil exampleBuild.toPublishInputs noOutputs (.after 8)) = .ok () ∧
      verifyImage exampleTools exampleBuild.profile exampleArtifacts
        (publishUntil exampleBuild.toPublishInputs noOutputs (.after 4)) ≠ .ok () := by
  refine ⟨(verdict_after_stop exampleMade _ 8).mpr ⟨by omega, exampleContents, example_contents,
    example_passes⟩, fun h => ?_⟩
  have hfive := ((verdict_after_stop exampleMade _ 4).mp h).1
  omega

/-- A byte changed in the free space behind the root file system. -/
def patchedDisk (v : UInt8) : Bytes := writeAt exampleDisk 1073741824 [v]

theorem exampleDisk_length : exampleDisk.length = 2147483648 := by
  rw [show exampleDisk.length = exampleMade.gpt.length from (disk_holds exampleMade).1.gpt.size,
    Made.gpt, (exampleMade.writesGpt _ _).1, zeros_length]
  decide +kernel

theorem patched_holds (v : UInt8) :
    SameBoot exampleMade (patchedDisk v) ∧ Unchanged exampleBuild (patchedDisk v) := by
  obtain ⟨hboot, hunchanged⟩ := disk_holds exampleMade
  rw [show exampleBuild.disk = exampleDisk from rfl] at hboot hunchanged
  have hlength := exampleDisk_length
  have hframe : ∀ o n, o + n ≤ 1073741824 ∨ 1073741825 ≤ o →
      slice (patchedDisk v) o n = slice exampleDisk o n := fun o n h =>
    slice_writeAt_frame (by rw [hlength]; omega) h
  have hsize : (patchedDisk v).length = exampleDisk.length :=
    writeAt_length (by rw [hlength, List.length_singleton]; omega)
  have hfirst : (exampleBuild.layout.bootFirstSector * 512).toNat = 16777216 := by decide
  have hfat : exampleMade.fs.bootFat.length = 268435456 := by
    rw [show exampleMade.fs = exampleFilesystems from rfl, exampleFilesystems.bootFat_length]
    decide +kernel
  refine ⟨⟨⟨hsize.trans hboot.gpt.size, ?_, ?_⟩, ?_⟩, fun idblock h => ?_, fun uboot h => ?_, ?_⟩
  · exact (hframe _ _ (by omega)).trans hboot.gpt.primary
  · have hbackup := hframe (exampleDisk.length - 33 * 512) (33 * 512)
      (.inr (by rw [hlength]; omega))
    rw [hsize]
    exact hbackup.trans hboot.gpt.backup
  · refine (hframe _ _ (.inl ?_)).trans hboot.boot
    rw [hfirst, hfat]
    decide
  · cases h
    exact (hframe _ _ (.inl (by decide +kernel))).trans (hunchanged.idblock _ rfl)
  · cases h
    exact (hframe _ _ (.inl (by decide +kernel))).trans (hunchanged.uboot _ rfl)
  · exact (hframe _ _ (.inl (by decide +kernel))).trans hunchanged.rootfs

/-- One of two bytes is new. -/
theorem patched_changed : ∃ v, patchedDisk v ≠ exampleDisk := by
  have hread : ∀ v, (patchedDisk v)[1073741824]? = some v := fun v => by
    rw [patchedDisk, writeAt_getElem?, if_neg (lt_irrefl _), if_pos (by simp), Nat.sub_self]
    rfl
  by_contra! hsame
  have hzero := hread 0
  have hone := hread 1
  rw [hsame] at hzero hone
  exact absurd (Option.some.inj (hzero.symm.trans hone)) (by decide)

theorem changed_image_verdict_example : ∃ v, patchedDisk v ≠ exampleDisk ∧
    verifyImage exampleTools exampleBuild.profile exampleArtifacts
      ⟨some ⟨patchedDisk v, rwExt4, []⟩, some exampleBuild.compressed, none,
        some (terminate '\n' ([(patchedDisk v, exampleBuild.imageName),
          (exampleBuild.compressed, exampleBuild.zstdName)].map (fileLine exampleTools))),
        some (imageBuildInfo exampleRun), none⟩ = .ok () := by
  obtain ⟨v, hchanged⟩ := patched_changed
  obtain ⟨hboot, hunchanged⟩ := patched_holds v
  refine ⟨v, hchanged, (changed_image_verdict exampleMade hboot rfl (.head _) ?_ rfl).mpr
    ⟨hunchanged, exampleContents, example_contents, example_passes⟩⟩
  simp [directory_image exampleMade.stem, directory_zstd exampleMade.stem,
    (image_name_free exampleBuild).1, (zstd_name_free exampleBuild).1]

end ImageVerdict
