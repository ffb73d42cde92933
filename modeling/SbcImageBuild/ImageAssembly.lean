import SbcImageBuild.DiskGeometry
import SbcImageBuild.BuildMetadata

/-!
# Image assembly and verification

The sequence of writes by which `make_image.sh` fills the disk image, and the comparisons of
`verify_image.sh` between the image and the artifacts.
-/
namespace ImageAssembly

open ShellText BoardProfile ByteStore SectorRange DiskGeometry BuildMetadata

def mib : ℕ := 1048576

/-- The file systems that are copied into their partitions. `truncate` fixes the size of the
boot and of the data file system. -/
structure Filesystems (p : Vars) (l : PartitionLayout) where
  bootFat : Bytes
  bootFat_length : bootFat.length = decimal p.bootSizeMib * mib
  rootfs : Bytes
  data : Bytes
  data_length : ∀ d e, l.dataFirstSector = some d → l.dataLastSector = some e →
    (data.length : ℤ) = (e - d + 1) * 512

def inputFile (file : Option Bytes) (path : Text) : Except Text Bytes :=
  match file with
  | some bytes => .ok bytes
  | none => .error ("dd: failed to open '".toList ++ path ++ "'".toList)

def layoutRockchipWrite (p : Vars) (a : BootArtifacts) (disk : Bytes) : Except Text Bytes := do
  let idblock ← inputFile a.idblock (a.commonOutput ++ "/idblock.img".toList)
  let disk := dd ⟨512, decimal p.idblockSector, false, true⟩ idblock disk
  let uboot ← inputFile a.uboot (a.commonOutput ++ "/uboot.img".toList)
  pure (dd ⟨512, decimal p.ubootSector, false, true⟩ uboot disk)

def bootloaderLayoutWrite (p : Vars) (a : BootArtifacts) (disk : Bytes) : Except Text Bytes :=
  bootloaderLayoutFunc p "write".toList (layoutRockchipWrite p a disk)

/-- The data partition is written in `ro-overlay` mode only. -/
def writeData (p : Vars) (l : PartitionLayout) (data disk : Bytes) : Except Text Bytes :=
  if p.rootfsMode = roOverlay then
    match l.dataFirstSector with
    | some first => .ok (dd ⟨512, first.toNat, true, true⟩ data disk)
    | none => .error "dd: invalid number: ''".toList
  else .ok disk

/-- From the truncated image to the finished one. `sgdisk` gets the partition table. -/
def assembleImage (sgdisk : List Partition → Bytes → Bytes) (p : Vars) (l : PartitionLayout)
    (a : BootArtifacts) (fs : Filesystems p l) : Except Text Bytes := do
  let disk := sgdisk (partitionTable p l) (zeros (decimal p.imageSizeMib * mib))
  let disk ← bootloaderLayoutWrite p a disk
  let disk := dd ⟨mib, decimal p.bootStartMib, false, true⟩ fs.bootFat disk
  let bootStart ← evaluate p.bootStartMib
  let bootSize ← evaluate p.bootSizeMib
  let disk := dd ⟨mib, (bootStart + bootSize).toNat, true, true⟩ fs.rootfs disk
  writeData p l fs.data disk

/-- `sgdisk` writes the protective MBR with the primary table and the backup table: the first
34 and the last 33 sectors. -/
def WritesOnlyGpt (sgdisk : List Partition → Bytes → Bytes) : Prop :=
  ∀ table disk, (sgdisk table disk).length = disk.length ∧
    ∀ o n, 34 * 512 ≤ o → o + n + 33 * 512 ≤ disk.length →
      slice (sgdisk table disk) o n = slice disk o n

/-- `dd` with a byte offset and a byte count into a new sparse file. -/
def extractBytes (source : Bytes) (offset count : ℕ) : Bytes :=
  dd ⟨4194304, 0, true, false⟩ (slice source offset count) []

/-- The artifacts of the common output directory that the verifier reads. -/
structure VerifiedArtifacts extends BootArtifacts where
  downloadLoader : Option Bytes
  ubootBuildInfo : Option Text

def ldr : Bytes := [0x4C, 0x44, 0x52, 0x20]
def hsqs : Bytes := [0x68, 0x73, 0x71, 0x73]

def layoutRockchipVerify (p : Vars) (v : VerifiedArtifacts) (image : Bytes) : Except Text Unit := do
  let downloadLoader ← requireFile v.downloadLoader
    (v.commonOutput ++ "/download-loader.bin".toList) "download-loader.bin".toList
  let idblock ← requireFile v.idblock (v.commonOutput ++ "/idblock.img".toList)
    "idblock.img".toList
  let uboot ← requireFile v.uboot (v.commonOutput ++ "/uboot.img".toList) "uboot.img".toList
  require (downloadLoader.take 4 = ldr) "download-loader.bin is not an LDR container".toList
  require (idblock.take 4 = rkns) "idblock.img is not an RKNS image".toList
  require (metadataValue (v.ubootBuildInfo.getD []) "idblock_format".toList = "RKNS".toList)
    "U-Boot metadata does not record an RKNS IDBlock".toList
  let idblockSector ← evaluate p.idblockSector
  let embeddedIdblock := extractBytes image (idblockSector * 512).toNat idblock.length
  require (embeddedIdblock.take 4 = rkns)
    ("Raw image does not contain an RKNS IDBlock at sector ".toList ++ p.idblockSector)
  require (idblock = embeddedIdblock) "Embedded data does not match idblock.img".toList
  let ubootSector ← evaluate p.ubootSector
  let embeddedUboot := extractBytes image (ubootSector * 512).toNat uboot.length
  require (uboot = embeddedUboot) "Embedded data does not match uboot.img".toList

def bootloaderLayoutVerify (p : Vars) (v : VerifiedArtifacts) (image : Bytes) : Except Text Unit :=
  bootloaderLayoutFunc p "verify".toList (layoutRockchipVerify p v image)

/-- The file system tools that look at the extracted root file system. -/
structure RootfsTools where
  e2fsck : Bytes → Bool
  blkidLabel : Bytes → Text

/-- The comparison of the embedded root file system with the artifact. -/
def compareRootfs (t : RootfsTools) (p : Vars) (l : PartitionLayout) (rootfs image : Bytes) :
    Except Text Unit := do
  let embedded := extractBytes image (l.rootFirstSector * 512).toNat rootfs.length
  if p.rootfsMode = roOverlay then
    require (rootfs = embedded) "Embedded rootfs does not match rootfs.squashfs".toList
    require (embedded.take 4 = hsqs) "Embedded root filesystem is not a SquashFS image".toList
  else
    require (rootfs = embedded) "Embedded rootfs does not match rootfs.ext4".toList
    require (t.e2fsck embedded) []
    require (t.blkidLabel embedded = "rootfs".toList)
      "Embedded root filesystem label is not rootfs".toList

theorem extractBytes_eq (source : Bytes) (offset count : ℕ) :
    extractBytes source offset count = slice source offset count := dd_fresh (by decide)

/-- The copies in front of the data partition. -/
def fixedWrites (p : Vars) (l : PartitionLayout) (idblock uboot : Bytes) (fs : Filesystems p l) :
    List Write :=
  [⟨decimal p.idblockSector * 512, idblock⟩, ⟨decimal p.ubootSector * 512, uboot⟩,
   ⟨decimal p.bootStartMib * mib, fs.bootFat⟩,
   ⟨(decimal p.bootStartMib + decimal p.bootSizeMib) * mib, fs.rootfs⟩]

/-- Everything that is copied to the image, in the order of the commands. -/
def imageWrites (p : Vars) (l : PartitionLayout) (idblock uboot : Bytes) (fs : Filesystems p l) :
    List Write :=
  fixedWrites p l idblock uboot fs ++
  match l.dataFirstSector with
  | some first => [⟨first.toNat * 512, fs.data⟩]
  | none => []

/-- Writes that fit and keep clear of both copies of the GPT. -/
def ClearOfGpt (n : ℕ) (ws : List Write) : Prop :=
  Fits n ws ∧ ∀ w ∈ ws, 34 * 512 ≤ w.offset ∧ w.stop + 33 * 512 ≤ n

theorem rootfs_stop_writable {p : Vars} {n : ℕ} {l : PartitionLayout} {a : BootArtifacts}
    (h : Checked p n l a) (hm : p.rootfsMode ≠ roOverlay) :
    (decimal p.bootStartMib + decimal p.bootSizeMib) * mib + n + 33 * 512 ≤
      decimal p.imageSizeMib * mib := by
  obtain ⟨image, bootFirst, bootLast, rootFirst, lastUsable, writable, -⟩ := h.layoutOf
  have hroot := (writable hm).1
  have hfits := h.root_fits
  unfold mib
  omega

theorem rootfs_stop_overlay {p : Vars} {n : ℕ} {l : PartitionLayout} {a : BootArtifacts}
    (h : Checked p n l a) (hm : p.rootfsMode = roOverlay) :
    ∃ d e, l.dataFirstSector = some d ∧ l.dataLastSector = some e ∧
      ((decimal p.bootStartMib + decimal p.bootSizeMib) * mib + n : ℤ) ≤ d * 512 ∧ d < e ∧
      (e + 1) * 512 + 33 * 512 ≤ (decimal p.imageSizeMib * mib : ℤ) := by
  obtain ⟨image, bootFirst, bootLast, rootFirst, lastUsable, -, overlay⟩ := h.layoutOf
  obtain ⟨hroot, hdata⟩ := overlay hm
  obtain ⟨d, e, hd, he, -, hde, hend⟩ := h.overlay_room hm
  have hfits := h.root_fits
  have hnext : l.rootLastSector + 1 = d := Option.some.inj (hdata.symm.trans hd)
  refine ⟨d, e, hd, he, ?_, hde, ?_⟩
  · unfold mib
    omega
  · unfold mib
    omega

theorem imageWrites_clear {p : Vars} {l : PartitionLayout} {a : BootArtifacts}
    {fs : Filesystems p l} (h : Checked p fs.rootfs.length l a) {idblock uboot : Bytes}
    (hfit : ArtifactsFit p idblock uboot) :
    ClearOfGpt (decimal p.imageSizeMib * mib) (imageWrites p l idblock uboot fs) := by
  have hgpt := h.accepted.gpt_idblock
  have hid := hfit.idblock_fits
  have hub := hfit.uboot_fits
  have hboot := fs.bootFat_length
  by_cases hm : p.rootfsMode = roOverlay
  · obtain ⟨d, e, hd, he, hroot, hde, hend⟩ := rootfs_stop_overlay h hm
    have hdata := fs.data_length d e hd he
    unfold ClearOfGpt imageWrites fixedWrites
    rw [hd]
    unfold mib at *
    refine ⟨⟨?_, ?_⟩, ?_⟩ <;>
      simp only [List.cons_append, List.nil_append, List.forall_mem_cons, List.pairwise_cons,
        List.not_mem_nil, false_implies, implies_true, and_true, List.Pairwise.nil, Write.stop] <;>
      omega
  · have hroot := rootfs_stop_writable h hm
    unfold ClearOfGpt imageWrites fixedWrites
    rw [(h.layoutOf.writable hm).2]
    unfold mib at *
    refine ⟨⟨?_, ?_⟩, ?_⟩ <;>
      simp only [List.cons_append, List.nil_append, List.forall_mem_cons, List.pairwise_cons,
        List.not_mem_nil, false_implies, implies_true, and_true, List.Pairwise.nil, Write.stop] <;>
      omega

/-- The table written by `sgdisk` leaves the target of every write zero. -/
theorem target_zero {sgdisk : List Partition → Bytes → Bytes} (hs : WritesOnlyGpt sgdisk)
    (table : List Partition) {n : ℕ} {ws : List Write} (h : ClearOfGpt n ws) {w : Write}
    (hw : w ∈ ws) :
    slice (sgdisk table (zeros n)) w.offset w.data.length = zeros w.data.length := by
  obtain ⟨hlow, hhigh⟩ := h.2 w hw
  have hin := h.1.inside w hw
  unfold Write.stop at hhigh hin
  rw [(hs table (zeros n)).2 _ _ hlow (by rwa [zeros_length]), slice_zeros hin]

theorem bootloaderLayoutFunc_eq {α : Type} {p : Vars} {action : Text} {f : Except Text α}
    (h : p.bootloaderLayout = idblockLayout) : bootloaderLayoutFunc p action f = f := if_pos h

theorem layoutWrite_eq {p : Vars} {a : BootArtifacts} {idblock uboot g : Bytes}
    (hl : p.bootloaderLayout = idblockLayout) (hi : a.idblock = some idblock)
    (hu : a.uboot = some uboot)
    (h : Fits g.length [⟨decimal p.idblockSector * 512, idblock⟩,
      ⟨decimal p.ubootSector * 512, uboot⟩]) :
    bootloaderLayoutWrite p a g = .ok (applyWrites g
      [⟨decimal p.idblockSector * 512, idblock⟩, ⟨decimal p.ubootSector * 512, uboot⟩]) := by
  have hblock : Fits g.length ([] ++ [⟨decimal p.idblockSector * 512, idblock⟩]) :=
    Fits.front (a := [_]) (b := [_]) h
  have hboth : Fits g.length ([⟨decimal p.idblockSector * 512, idblock⟩] ++
      [⟨decimal p.ubootSector * 512, uboot⟩]) := h
  have first := dd_applyWrites false (decimal p.idblockSector) idblock (by decide) hblock
    (fun hs => by cases hs)
  have second := dd_applyWrites false (decimal p.ubootSector) uboot (by decide) hboth
    (fun hs => by cases hs)
  rw [List.nil_append] at first
  rw [bootloaderLayoutWrite, bootloaderLayoutFunc, if_pos hl, layoutRockchipWrite, hi, hu]
  change Except.ok (dd _ uboot (dd _ idblock (applyWrites g []))) = _
  rw [first, second]
  rfl

/-- The whole sequence of copies is the list of writes on top of the partition table. -/
theorem assembleImage_eq {sgdisk : List Partition → Bytes → Bytes} (hs : WritesOnlyGpt sgdisk)
    {p : Vars} {l : PartitionLayout} {a : BootArtifacts} {fs : Filesystems p l}
    (h : Checked p fs.rootfs.length l a) {idblock uboot : Bytes} (hi : a.idblock = some idblock)
    (hu : a.uboot = some uboot) (hfit : ArtifactsFit p idblock uboot) :
    assembleImage sgdisk p l a fs =
      .ok (applyWrites (sgdisk (partitionTable p l) (zeros (decimal p.imageSizeMib * mib)))
        (imageWrites p l idblock uboot fs)) := by
  have clear := imageWrites_clear h hfit
  have hzero := fun w hw => target_zero hs (partitionTable p l) clear (w := w) hw
  generalize hg : sgdisk (partitionTable p l) (zeros (decimal p.imageSizeMib * mib)) = g at *
  have hlen : g.length = decimal p.imageSizeMib * mib := by
    rw [← hg, (hs _ _).1, zeros_length]
  have hfits := clear.1
  rw [← hlen] at hfits
  have hfixed : Fits g.length (fixedWrites p l idblock uboot fs) := hfits.front
  have boot := layoutWrite_eq h.accepted.layout hi hu
    (Fits.front (a := [_, _]) (b := [_, _]) hfixed)
  have hfat : Fits g.length ([⟨decimal p.idblockSector * 512, idblock⟩,
      ⟨decimal p.ubootSector * 512, uboot⟩] ++ [⟨decimal p.bootStartMib * mib, fs.bootFat⟩]) :=
    Fits.front (a := [_, _, _]) (b := [_]) hfixed
  have hroot : Fits g.length ([⟨decimal p.idblockSector * 512, idblock⟩,
      ⟨decimal p.ubootSector * 512, uboot⟩, ⟨decimal p.bootStartMib * mib, fs.bootFat⟩] ++
      [⟨(decimal p.bootStartMib + decimal p.bootSizeMib) * mib, fs.rootfs⟩]) := hfixed
  have fat := dd_applyWrites false (decimal p.bootStartMib) fs.bootFat (by decide) hfat
    (fun k => by cases k)
  have root := dd_applyWrites true (decimal p.bootStartMib + decimal p.bootSizeMib) fs.rootfs
    (by decide) hroot (fun _ => hzero ⟨_, fs.rootfs⟩ (by simp [imageWrites, fixedWrites]))
  have data : writeData p l fs.data (applyWrites g (fixedWrites p l idblock uboot fs)) =
      .ok (applyWrites g (imageWrites p l idblock uboot fs)) := by
    unfold writeData
    by_cases hm : p.rootfsMode = roOverlay
    · obtain ⟨d, e, hd, -⟩ := h.overlay_room hm
      rw [imageWrites, hd] at hfits hzero ⊢
      rw [if_pos hm]
      exact congrArg Except.ok (dd_applyWrites _ _ _ (by decide) hfits
        fun _ => hzero ⟨_, fs.data⟩ (by simp))
    · rw [if_neg hm, imageWrites, (h.layoutOf.writable hm).2]
      rfl
  have seek : ((decimal p.bootStartMib : ℤ) + (decimal p.bootSizeMib : ℤ)).toNat =
      decimal p.bootStartMib + decimal p.bootSizeMib := by omega
  unfold assembleImage
  simp only [hg, boot, evaluate_of_positive h.accepted.bootStart,
    evaluate_of_positive h.accepted.bootSize, bind, Except.bind]
  rw [fat, seek]
  exact (congrArg (writeData p l fs.data) root).trans data

/-- The image holds every artifact at its offset, and the GPT as `sgdisk` left it. -/
structure Holds (g : Bytes) (p : Vars) (l : PartitionLayout) (idblock uboot : Bytes)
    (fs : Filesystems p l) (disk : Bytes) : Prop where
  size : disk.length = decimal p.imageSizeMib * mib
  idblock : extractBytes disk (decimal p.idblockSector * 512) idblock.length = idblock
  uboot : extractBytes disk (decimal p.ubootSector * 512) uboot.length = uboot
  boot : extractBytes disk (l.bootFirstSector * 512).toNat fs.bootFat.length = fs.bootFat
  rootfs : extractBytes disk (l.rootFirstSector * 512).toNat fs.rootfs.length = fs.rootfs
  data : ∀ d, l.dataFirstSector = some d →
    extractBytes disk (d * 512).toNat fs.data.length = fs.data
  primaryGpt : slice disk 0 (34 * 512) = slice g 0 (34 * 512)
  backupGpt : slice disk (disk.length - 33 * 512) (33 * 512) =
    slice g (disk.length - 33 * 512) (33 * 512)

theorem sector_offset (n : ℕ) : ((n : ℤ) * 512).toNat = n * 512 := by omega

theorem partition_offsets {p : Vars} {n : ℕ} {l : PartitionLayout} (h : LayoutOf p n l) :
    (l.bootFirstSector * 512).toNat = decimal p.bootStartMib * mib ∧
    (l.rootFirstSector * 512).toNat =
      (decimal p.bootStartMib + decimal p.bootSizeMib) * mib := by
  obtain ⟨-, bootFirst, bootLast, rootFirst, -, -, -⟩ := h
  unfold mib
  omega

theorem applyWrites_holds {p : Vars} {l : PartitionLayout} {a : BootArtifacts}
    {fs : Filesystems p l} (h : Checked p fs.rootfs.length l a) {idblock uboot : Bytes}
    (hfit : ArtifactsFit p idblock uboot) {g : Bytes}
    (hg : g.length = decimal p.imageSizeMib * mib) :
    Holds g p l idblock uboot fs (applyWrites g (imageWrites p l idblock uboot fs)) := by
  have clear := imageWrites_clear h hfit
  rw [← hg] at clear
  obtain ⟨fits, away⟩ := clear
  obtain ⟨bootOffset, rootOffset⟩ := partition_offsets h.layoutOf
  have length := applyWrites_length fits.inside
  have written := fun w hw => slice_applyWrites fits (w := w) hw
  have large : 34 * 512 + 33 * 512 ≤ g.length := by
    obtain ⟨hlow, hhigh⟩ := away ⟨decimal p.idblockSector * 512, idblock⟩
      (by simp [imageWrites, fixedWrites])
    unfold Write.stop at hhigh
    omega
  constructor
  case size => rw [length, hg]
  case idblock =>
    rw [extractBytes_eq]
    exact written ⟨_, idblock⟩ (by simp [imageWrites, fixedWrites])
  case uboot =>
    rw [extractBytes_eq]
    exact written ⟨_, uboot⟩ (by simp [imageWrites, fixedWrites])
  case boot =>
    rw [extractBytes_eq, bootOffset]
    exact written ⟨_, fs.bootFat⟩ (by simp [imageWrites, fixedWrites])
  case rootfs =>
    rw [extractBytes_eq, rootOffset]
    exact written ⟨_, fs.rootfs⟩ (by simp [imageWrites, fixedWrites])
  case data =>
    intro d hd
    have offset : (d * 512).toNat = d.toNat * 512 := by omega
    rw [extractBytes_eq, offset]
    exact written ⟨_, fs.data⟩ (by simp [imageWrites, hd])
  case primaryGpt =>
    exact slice_applyWrites_frame fits.inside fun w hw => .inl (by have := (away w hw).1; omega)
  case backupGpt =>
    exact slice_applyWrites_frame fits.inside fun w hw => .inr (by have := (away w hw).2; omega)

theorem layoutVerify_ok {p : Vars} {v : VerifiedArtifacts} {image : Bytes} {u : Unit}
    (h : Accepted p) (hv : bootloaderLayoutVerify p v image = .ok u) :
    ∃ idblock uboot, v.idblock = some idblock ∧ v.uboot = some uboot ∧
      slice image (decimal p.idblockSector * 512) idblock.length = idblock ∧
      slice image (decimal p.ubootSector * 512) uboot.length = uboot := by
  have hf := (bootloaderLayoutFunc_ok hv).2
  simp only [layoutRockchipVerify, bind_ok, requireFile_ok, require_ok,
    evaluate_of_positive h.idblock, evaluate_of_positive h.uboot, Except.ok.injEq,
    exists_eq_left', extractBytes_eq, sector_offset] at hf
  obtain ⟨_, -, idblock, hi, uboot, hu, _, -, _, -, _, -, _, -, _, heqi, hequ⟩ := hf
  exact ⟨idblock, uboot, hi, hu, heqi.symm, hequ.symm⟩

theorem compareRootfs_ok {t : RootfsTools} {p : Vars} {l : PartitionLayout} {rootfs image : Bytes}
    {u : Unit} (h : compareRootfs t p l rootfs image = .ok u) :
    slice image (l.rootFirstSector * 512).toNat rootfs.length = rootfs := by
  unfold compareRootfs at h
  rw [extractBytes_eq] at h
  split at h
  · simp only [bind_ok, require_ok] at h
    obtain ⟨_, heq, -⟩ := h
    exact heq.symm
  · simp only [bind_ok, require_ok] at h
    obtain ⟨_, heq, -⟩ := h
    exact heq.symm

/-- Writer and verifier agree: the assembled image holds every artifact where the verifier looks
for it, and an image that passes the comparisons holds the artifacts there. -/
theorem image_agreement {sgdisk : List Partition → Bytes → Bytes} (hs : WritesOnlyGpt sgdisk) :
    (∀ fileExists env p l a (fs : Filesystems p l),
      makeImageChecks fileExists env fs.rootfs.length a = .ok (p, l) →
      ∃ idblock uboot disk, a.idblock = some idblock ∧ a.uboot = some uboot ∧
        assembleImage sgdisk p l a fs = .ok disk ∧
        Holds (sgdisk (partitionTable p l) (zeros (decimal p.imageSizeMib * mib)))
          p l idblock uboot fs disk) ∧
    (∀ fileExists env p rootfs l v t image,
      validateBoardProfile fileExists env = .ok p →
      computePartitionLayout p rootfs.length = .ok l →
      bootloaderLayoutVerify p v image = .ok () → compareRootfs t p l rootfs image = .ok () →
      ∃ idblock uboot, v.idblock = some idblock ∧ v.uboot = some uboot ∧
        slice image (decimal p.idblockSector * 512) idblock.length = idblock ∧
        slice image (decimal p.ubootSector * 512) uboot.length = uboot ∧
        slice image (l.rootFirstSector * 512).toNat rootfs.length = rootfs) := by
  constructor
  · intro fileExists env p l a fs h
    have checked := makeImageChecks_ok h
    obtain ⟨idblock, uboot, hi, hu, hfit⟩ := checked.artifacts
    exact ⟨idblock, uboot, _, hi, hu, assembleImage_eq hs checked hi hu hfit,
      applyWrites_holds checked hfit (by rw [(hs _ _).1, zeros_length])⟩
  · intro fileExists env p rootfs l v t image hp _ hv hr
    obtain ⟨idblock, uboot, hi, hu, heqi, hequ⟩ :=
      layoutVerify_ok (validateBoardProfile_accepted hp) hv
    exact ⟨idblock, uboot, hi, hu, heqi, hequ, compareRootfs_ok hr⟩

def efiPart : Bytes := [0x45, 0x46, 0x49, 0x20, 0x50, 0x41, 0x52, 0x54]

/-- The signatures of the protective MBR and of the two GPT headers. -/
def gptSignatures (n : ℕ) : List Write :=
  [⟨510, [0x55, 0xAA]⟩, ⟨512, efiPart⟩, ⟨n - 512, efiPart⟩]

/-- A table writer reduced to the signatures; it leaves a disk without room alone. -/
def signGpt (_ : List Partition) (disk : Bytes) : Bytes :=
  if 67 * 512 ≤ disk.length then applyWrites disk (gptSignatures disk.length) else disk

theorem signGpt_writesOnlyGpt : WritesOnlyGpt signGpt := by
  intro table disk
  unfold signGpt
  by_cases h : 67 * 512 ≤ disk.length
  · have inside : ∀ w ∈ gptSignatures disk.length, w.stop ≤ disk.length := by
      simp [gptSignatures, Write.stop, efiPart]
      omega
    rw [if_pos h]
    refine ⟨applyWrites_length inside, fun o n hlow hhigh => slice_applyWrites_frame inside ?_⟩
    simp [gptSignatures, Write.stop, efiPart]
    omega
  · rw [if_neg h]
    exact ⟨rfl, fun _ _ _ _ => rfl⟩

theorem image_agreement_rock5c :
    ∃ p l, ∃ fs : Filesystems p l, ∃ disk,
      assembleImage signGpt p l ⟨[], some (rkns ++ [0, 0]), some [1, 2, 3]⟩ fs = .ok disk ∧
      p.rootfsMode = roOverlay ∧ fs.rootfs = hsqs ∧
      extractBytes disk (decimal p.idblockSector * 512) 6 = rkns ++ [0, 0] ∧
      extractBytes disk (l.rootFirstSector * 512).toNat 4 = hsqs := by
  let p := optionalDefaults (profileDefaults { rock5c with rootfsMode := roOverlay })
  let l : PartitionLayout := ⟨4194304, 32768, 524288, 557055, 557056, some 2, some 4096, 561151,
    some 561152, some 4194270, 4194270⟩
  have run : makeImageChecks (fun _ => true) { rock5c with rootfsMode := roOverlay } hsqs.length
      ⟨[], some (rkns ++ [0, 0]), some [1, 2, 3]⟩ = .ok (p, l) := by
    unfold p rock5c
    repeat rw [String.toList_ofList]
    decide +kernel
  let fs : Filesystems p l :=
    { bootFat := zeros (decimal p.bootSizeMib * mib)
      bootFat_length := zeros_length _
      rootfs := hsqs
      data := zeros (3633119 * 512)
      data_length := by
        intro d e hd he
        cases hd
        cases he
        rw [zeros_length]
        rfl }
  obtain ⟨idblock, uboot, disk, hi, -, hdisk, holds⟩ :=
    (image_agreement signGpt_writesOnlyGpt).1 _ _ p l _ fs run
  cases hi
  exact ⟨p, l, fs, disk, hdisk, rfl, rfl, holds.idblock, holds.rootfs⟩

end ImageAssembly
