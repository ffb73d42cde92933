import SbcImageBuild.BoardProfile
import SbcImageBuild.Foundation.ByteStore
import SbcImageBuild.Foundation.SectorRange

/-!
# Disk geometry of the GPT image

`compute_partition_layout`, the geometry checks of `make_image.sh`, and the artifact checks
of the bootloader layout. Sectors have 512 bytes; a MiB has 2048 sectors.
-/
namespace DiskGeometry

open ShellText BoardProfile ByteStore SectorRange

/-- The globals set by `compute_partition_layout`. The optional ones are assigned only in
`ro-overlay` mode; otherwise the data sectors are the empty string. -/
structure PartitionLayout where
  imageSectors : ℤ
  bootFirstSector : ℤ
  bootSectors : ℤ
  bootLastSector : ℤ
  rootFirstSector : ℤ
  rootMib : Option ℤ
  rootSectors : Option ℤ
  rootLastSector : ℤ
  dataFirstSector : Option ℤ
  dataLastSector : Option ℤ
  diskLastUsableSector : ℤ
  deriving DecidableEq, Repr

/-- `DATA_LAST_SECTOR` in `ro-overlay` mode. The test reads the size as decimal, the expansion
reads it as an arithmetic constant. -/
def dataLastSector (p : Vars) (dataFirstSector diskLastUsableSector : ℤ) : Except Text ℤ :=
  if 0 < decimal p.dataSizeMib then
    (evaluate p.dataSizeMib).map fun n => dataFirstSector + n * 2048 - 1
  else .ok diskLastUsableSector

def computePartitionLayout (p : Vars) (rootfsBytes : ℕ) : Except Text PartitionLayout := do
  let imageSectors := (← evaluate p.imageSizeMib) * 2048
  let bootFirstSector := (← evaluate p.bootStartMib) * 2048
  let bootSectors := (← evaluate p.bootSizeMib) * 2048
  let bootLastSector := bootFirstSector + bootSectors - 1
  let rootFirstSector := bootLastSector + 1
  let diskLastUsableSector := imageSectors - 34
  if p.rootfsMode = roOverlay then
    let rootMib : ℤ := ((rootfsBytes + 1048575) / 1048576 + 1 : ℕ)
    let rootSectors := rootMib * 2048
    let rootLastSector := rootFirstSector + rootSectors - 1
    let dataFirstSector := rootLastSector + 1
    let dataLastSector ← dataLastSector p dataFirstSector diskLastUsableSector
    pure ⟨imageSectors, bootFirstSector, bootSectors, bootLastSector, rootFirstSector,
      some rootMib, some rootSectors, rootLastSector, some dataFirstSector,
      some dataLastSector, diskLastUsableSector⟩
  else
    pure ⟨imageSectors, bootFirstSector, bootSectors, bootLastSector, rootFirstSector,
      none, none, diskLastUsableSector, none, none, diskLastUsableSector⟩

def exceedsRoot (name : Text) (rootfsBytes : ℕ) (rootPartitionBytes : ℤ) : Text :=
  name ++ " exceeds root partition (".toList ++ (toString rootfsBytes).toList ++
    " > ".toList ++ (toString rootPartitionBytes).toList ++ ")".toList

/-- The three tests on the data partition; `test` refuses an empty sector number. -/
def checkDataGeometry (l : PartitionLayout) : Except Text Unit :=
  match l.dataFirstSector, l.dataLastSector with
  | some dataFirstSector, some dataLastSector => do
    require (l.rootLastSector < dataFirstSector) "SquashFS root geometry invalid".toList
    require (dataFirstSector < dataLastSector)
      ("Data partition geometry invalid " ++
        "(increase IMAGE_SIZE_MIB or lower DATA_SIZE_MIB)").toList
    require (dataLastSector ≤ l.diskLastUsableSector)
      "Data partition exceeds the disk image (increase IMAGE_SIZE_MIB)".toList
  | _, _ => .error "integer expression expected".toList

/-- The geometry checks of `make_image.sh`; the result is `ROOT_PARTITION_BYTES`. -/
def checkGeometry (p : Vars) (l : PartitionLayout) (rootfsBytes : ℕ) : Except Text ℤ := do
  let rootPartitionBytes := (l.rootLastSector - l.rootFirstSector + 1) * 512
  if p.rootfsMode = roOverlay then
    checkDataGeometry l
    require ((rootfsBytes : ℤ) ≤ rootPartitionBytes)
      (exceedsRoot "rootfs.squashfs".toList rootfsBytes rootPartitionBytes)
  else
    require (l.rootFirstSector < l.rootLastSector)
      ("Boot partition geometry invalid " ++
        "(BOOT_START_MIB + BOOT_SIZE_MIB exceeds IMAGE_SIZE_MIB)").toList
    require ((rootfsBytes : ℤ) ≤ rootPartitionBytes)
      (exceedsRoot "rootfs.ext4".toList rootfsBytes rootPartitionBytes)
  pure rootPartitionBytes

/-- The files of the common output directory that make up the boot chain. -/
structure BootArtifacts where
  commonOutput : Text := []
  idblock : Option Bytes
  uboot : Option Bytes

/-- The first four bytes of an IDBlock image. -/
def rkns : Bytes := [0x52, 0x4B, 0x4E, 0x53]

def requireFile (file : Option Bytes) (path description : Text) : Except Text Bytes :=
  match file with
  | some bytes => .ok bytes
  | none => .error ("Missing ".toList ++ description ++ ": ".toList ++ path)

def layoutRockchipValidateArtifacts (p : Vars) (a : BootArtifacts) : Except Text Unit := do
  let idblock ← requireFile a.idblock (a.commonOutput ++ "/idblock.img".toList)
    "Rockchip RKNS IDBlock; run build-uboot first".toList
  let uboot ← requireFile a.uboot (a.commonOutput ++ "/uboot.img".toList)
    "U-Boot image; run build-uboot first".toList
  require (idblock.take 4 = rkns) "idblock.img is not a Rockchip RKNS IDBlock".toList
  let bootFirstSector := (← evaluate p.bootStartMib) * 2048
  let ubootSector ← evaluate p.ubootSector
  let idblockSector ← evaluate p.idblockSector
  require ((idblock.length : ℤ) ≤ (ubootSector - idblockSector) * 512)
    "idblock.img exceeds the reserved IDBlock area".toList
  require ((uboot.length : ℤ) ≤ (bootFirstSector - ubootSector) * 512)
    "uboot.img exceeds the reserved U-Boot area".toList

/-- The dispatcher finds a function only for the one known layout. -/
def bootloaderLayoutFunc {α : Type} (p : Vars) (action : Text) (f : Except Text α) :
    Except Text α :=
  if p.bootloaderLayout = idblockLayout then f
  else .error ("Unknown bootloader layout function: layout_".toList ++
    p.bootloaderLayout.map (fun c => if c = '-' then '_' else c) ++ "_".toList ++ action ++
    " (BOOTLOADER_LAYOUT=".toList ++ p.bootloaderLayout ++ ")".toList)

def bootloaderLayoutValidateArtifacts (p : Vars) (a : BootArtifacts) : Except Text Unit :=
  bootloaderLayoutFunc p "validate_artifacts".toList (layoutRockchipValidateArtifacts p a)

/-- The checks of `make_image.sh` between reading the profile and creating the image. -/
def makeImageChecks (fileExists : Text → Bool) (env : Vars) (rootfsBytes : ℕ)
    (a : BootArtifacts) : Except Text (Vars × PartitionLayout) := do
  let p ← validateBoardProfile fileExists env
  let l ← computePartitionLayout p rootfsBytes
  let _ ← checkGeometry p l rootfsBytes
  bootloaderLayoutValidateArtifacts p a
  pure (p, l)

/-- One row of the partition table passed to `sgdisk`. -/
structure Partition where
  number : ℕ
  range : Range
  typecode : Text
  name : Text
  deriving DecidableEq

def bootPartition (l : PartitionLayout) : Partition :=
  ⟨1, ⟨l.bootFirstSector, l.bootLastSector⟩, "0700".toList, "boot".toList⟩

def rootPartition (l : PartitionLayout) : Partition :=
  ⟨2, ⟨l.rootFirstSector, l.rootLastSector⟩, "8300".toList, "rootfs".toList⟩

def dataPartition (dataFirst dataLast : ℤ) : Partition :=
  ⟨3, ⟨dataFirst, dataLast⟩, "8300".toList, "data".toList⟩

def partitionTable (p : Vars) (l : PartitionLayout) : List Partition :=
  match l.dataFirstSector, l.dataLastSector with
  | some dataFirst, some dataLast =>
    if p.rootfsMode = roOverlay then
      [bootPartition l, rootPartition l, dataPartition dataFirst dataLast]
    else [bootPartition l, rootPartition l]
  | _, _ => [bootPartition l, rootPartition l]

/-- `sbc-firstboot` looks for the partition labelled `data` below an overlay root and for
`rootfs` otherwise. The root of a running image is an overlay in `ro-overlay` mode. -/
def firstbootPartition (p : Vars) (table : List Partition) : Option Partition :=
  table.find? fun q => q.name = if p.rootfsMode = roOverlay then "data".toList
    else "rootfs".toList

def primaryGpt : Range := ⟨0, 33⟩

theorem primaryGpt_proper : primaryGpt.Proper := by
  change (0 : ℤ) ≤ 33 + 1
  omega

def backupGpt (l : PartitionLayout) : Range := ⟨l.imageSectors - 33, l.imageSectors - 1⟩

def artifactRange (sector : Text) (artifact : Option Bytes) : Range :=
  covering (decimal sector) (artifact.getD []).length

/-- Everything that is written to the image, in the order in which it lies on the disk. -/
def imageRegions (p : Vars) (l : PartitionLayout) (a : BootArtifacts) : List Range :=
  primaryGpt :: (artifactRange p.idblockSector a.idblock ::
    artifactRange p.ubootSector a.uboot :: (partitionTable p l).map Partition.range ++
    [backupGpt l])

/-- The sectors of an accepted profile, in terms of its numbers. -/
structure LayoutOf (p : Vars) (rootfsBytes : ℕ) (l : PartitionLayout) : Prop where
  image : l.imageSectors = decimal p.imageSizeMib * 2048
  bootFirst : l.bootFirstSector = decimal p.bootStartMib * 2048
  bootLast : l.bootLastSector = l.bootFirstSector + decimal p.bootSizeMib * 2048 - 1
  rootFirst : l.rootFirstSector = l.bootLastSector + 1
  lastUsable : l.diskLastUsableSector = l.imageSectors - 34
  writable : p.rootfsMode ≠ roOverlay →
    l.rootLastSector = l.diskLastUsableSector ∧ l.dataFirstSector = none
  overlay : p.rootfsMode = roOverlay →
    l.rootLastSector = l.rootFirstSector + ((rootfsBytes + 1048575) / 1048576 + 1 : ℕ) * 2048 - 1 ∧
    l.dataFirstSector = some (l.rootLastSector + 1)

theorem computePartitionLayout_ok {p : Vars} {n : ℕ} {l : PartitionLayout} (h : Accepted p)
    (hl : computePartitionLayout p n = .ok l) : LayoutOf p n l := by
  unfold computePartitionLayout at hl
  by_cases hm : p.rootfsMode = roOverlay
  · simp only [if_pos hm, evaluate_of_positive h.imageSize, evaluate_of_positive h.bootStart,
      evaluate_of_positive h.bootSize, bind_ok, Except.ok.injEq, exists_eq_left'] at hl
    obtain ⟨dataLast, -, hl⟩ := hl
    cases hl
    exact ⟨rfl, rfl, rfl, rfl, rfl, fun k => absurd hm k, fun _ => ⟨rfl, rfl⟩⟩
  · simp only [if_neg hm, evaluate_of_positive h.imageSize, evaluate_of_positive h.bootStart,
      evaluate_of_positive h.bootSize, bind_ok, Except.ok.injEq, exists_eq_left'] at hl
    cases hl
    exact ⟨rfl, rfl, rfl, rfl, rfl, fun _ => ⟨rfl, rfl⟩, fun k => absurd k hm⟩

theorem checkDataGeometry_ok {l : PartitionLayout} {u : Unit} (h : checkDataGeometry l = .ok u) :
    ∃ d e, l.dataFirstSector = some d ∧ l.dataLastSector = some e ∧
      l.rootLastSector < d ∧ d < e ∧ e ≤ l.diskLastUsableSector := by
  unfold checkDataGeometry at h
  split at h
  · rename_i d e hd he
    simp only [bind_ok, require_ok] at h
    obtain ⟨_, hroot, _, hdata, hlast⟩ := h
    exact ⟨d, e, hd, he, hroot, hdata, hlast⟩
  · cases h

theorem checkGeometry_ok {p : Vars} {l : PartitionLayout} {n : ℕ} {b : ℤ}
    (h : checkGeometry p l n = .ok b) :
    (n : ℤ) ≤ (l.rootLastSector - l.rootFirstSector + 1) * 512 ∧
    (p.rootfsMode ≠ roOverlay → l.rootFirstSector < l.rootLastSector) ∧
    (p.rootfsMode = roOverlay → ∃ d e, l.dataFirstSector = some d ∧ l.dataLastSector = some e ∧
      l.rootLastSector < d ∧ d < e ∧ e ≤ l.diskLastUsableSector) := by
  unfold checkGeometry at h
  by_cases hm : p.rootfsMode = roOverlay
  · simp only [if_pos hm, bind_ok, require_ok] at h
    obtain ⟨_, hdata, _, hfits, -⟩ := h
    exact ⟨hfits, fun k => absurd hm k, fun _ => checkDataGeometry_ok hdata⟩
  · simp only [if_neg hm, bind_ok, require_ok] at h
    obtain ⟨_, hroot, _, hfits, -⟩ := h
    exact ⟨hfits, fun _ => hroot, fun k => absurd k hm⟩

/-- Both artifacts exist and fit the areas reserved for them. -/
structure ArtifactsFit (p : Vars) (idblock uboot : Bytes) : Prop where
  magic : idblock.take 4 = rkns
  idblock_fits : (idblock.length : ℤ) ≤ (decimal p.ubootSector - decimal p.idblockSector) * 512
  uboot_fits : (uboot.length : ℤ) ≤ (decimal p.bootStartMib * 2048 - decimal p.ubootSector) * 512

theorem requireFile_ok {file : Option Bytes} {path description : Text} {b : Bytes} :
    requireFile file path description = .ok b ↔ file = some b := by
  cases file <;> simp [requireFile]

theorem bootloaderLayoutFunc_ok {α : Type} {p : Vars} {action : Text} {f : Except Text α} {r : α}
    (h : bootloaderLayoutFunc p action f = .ok r) :
    p.bootloaderLayout = idblockLayout ∧ f = .ok r := by
  unfold bootloaderLayoutFunc at h
  split at h
  · exact ⟨‹_›, h⟩
  · cases h

theorem validateArtifacts_ok {p : Vars} {a : BootArtifacts} {u : Unit} (h : Accepted p)
    (ha : bootloaderLayoutValidateArtifacts p a = .ok u) :
    ∃ idblock uboot, a.idblock = some idblock ∧ a.uboot = some uboot ∧
      ArtifactsFit p idblock uboot := by
  have hf := (bootloaderLayoutFunc_ok ha).2
  simp only [layoutRockchipValidateArtifacts, bind_ok, requireFile_ok, require_ok,
    evaluate_of_positive h.bootStart, evaluate_of_positive h.uboot,
    evaluate_of_positive h.idblock, Except.ok.injEq, exists_eq_left'] at hf
  obtain ⟨idblock, hi, uboot, hu, _, hmagic, _, hif, huf⟩ := hf
  exact ⟨idblock, uboot, hi, hu, hmagic, hif, huf⟩

/-- What holds of profile, layout and artifacts once the image is about to be created. -/
structure Checked (p : Vars) (n : ℕ) (l : PartitionLayout) (a : BootArtifacts) : Prop where
  accepted : Accepted p
  layoutOf : LayoutOf p n l
  root_fits : (n : ℤ) ≤ (l.rootLastSector - l.rootFirstSector + 1) * 512
  writable_room : p.rootfsMode ≠ roOverlay → l.rootFirstSector < l.rootLastSector
  overlay_room : p.rootfsMode = roOverlay →
    ∃ d e, l.dataFirstSector = some d ∧ l.dataLastSector = some e ∧
      l.rootLastSector < d ∧ d < e ∧ e ≤ l.diskLastUsableSector
  artifacts : ∃ idblock uboot, a.idblock = some idblock ∧ a.uboot = some uboot ∧
    ArtifactsFit p idblock uboot

theorem makeImageChecks_ok {fileExists : Text → Bool} {env p : Vars} {n : ℕ}
    {a : BootArtifacts} {l : PartitionLayout}
    (h : makeImageChecks fileExists env n a = .ok (p, l)) : Checked p n l a := by
  simp only [makeImageChecks, bind_ok] at h
  obtain ⟨_, hp, _, hl, _, hg, _, ha, hr⟩ := h
  cases hr
  have acc := validateBoardProfile_accepted hp
  obtain ⟨hroot, hw, ho⟩ := checkGeometry_ok hg
  exact ⟨acc, computePartitionLayout_ok acc hl, hroot, hw, ho, validateArtifacts_ok acc ha⟩

theorem partitionTable_writable {p : Vars} {l : PartitionLayout}
    (h : l.dataFirstSector = none) : partitionTable p l = [bootPartition l, rootPartition l] := by
  simp [partitionTable, h]

theorem partitionTable_overlay {p : Vars} {l : PartitionLayout} {d e : ℤ}
    (hm : p.rootfsMode = roOverlay) (hd : l.dataFirstSector = some d)
    (he : l.dataLastSector = some e) :
    partitionTable p l = [bootPartition l, rootPartition l, dataPartition d e] := by
  simp [partitionTable, hm, hd, he]

/-- The fixed part of every image: GPT, boot chain, boot partition, root partition. -/
theorem boot_chain_ordered {p : Vars} {n : ℕ} {l : PartitionLayout} {a : BootArtifacts}
    (h : Checked p n l a) :
    Before primaryGpt (artifactRange p.idblockSector a.idblock) ∧
    Before (artifactRange p.idblockSector a.idblock) (artifactRange p.ubootSector a.uboot) ∧
    Before (artifactRange p.ubootSector a.uboot) ⟨l.bootFirstSector, l.bootLastSector⟩ ∧
    Before ⟨l.bootFirstSector, l.bootLastSector⟩ ⟨l.rootFirstSector, l.rootLastSector⟩ := by
  obtain ⟨idblock, uboot, hi, hu, hfit⟩ := h.artifacts
  have hgpt := h.accepted.gpt_idblock
  have hroot := h.layoutOf.rootFirst
  refine ⟨?_, ?_, ?_, ?_⟩
  · change (33 : ℤ) < (decimal p.idblockSector : ℤ)
    omega
  · rw [hi]
    exact covering_last_lt hfit.idblock_fits
  · rw [hu]
    change _ < l.bootFirstSector
    rw [h.layoutOf.bootFirst]
    exact covering_last_lt hfit.uboot_fits
  · change l.bootLastSector < l.rootFirstSector
    omega

theorem boot_partition_proper {p : Vars} {n : ℕ} {l : PartitionLayout} {a : BootArtifacts}
    (h : Checked p n l a) : l.bootFirstSector ≤ l.bootLastSector + 1 := by
  have hlast := h.layoutOf.bootLast
  omega

theorem imageRegions_proper {p : Vars} {n : ℕ} {l : PartitionLayout} {a : BootArtifacts}
    (h : Checked p n l a) : ∀ r ∈ imageRegions p l a, r.Proper := by
  have hboot := boot_partition_proper h
  have hlast := h.layoutOf.lastUsable
  have table : ∀ r ∈ (partitionTable p l).map Partition.range, r.Proper := by
    by_cases hm : p.rootfsMode = roOverlay
    · obtain ⟨d, e, hd, he, hrd, hde, -⟩ := h.overlay_room hm
      have hroot := (h.layoutOf.overlay hm).1
      rw [partitionTable_overlay hm hd he]
      simp only [List.map_cons, List.map_nil, List.forall_mem_cons, List.not_mem_nil,
        false_implies, implies_true, and_true, Range.Proper, bootPartition, rootPartition,
        dataPartition]
      omega
    · have hroom := h.writable_room hm
      rw [partitionTable_writable (h.layoutOf.writable hm).2]
      simp only [List.map_cons, List.map_nil, List.forall_mem_cons, List.not_mem_nil,
        false_implies, implies_true, and_true, Range.Proper, bootPartition, rootPartition]
      omega
  intro r hr
  simp only [imageRegions, List.mem_cons, List.mem_append, List.not_mem_nil, or_false] at hr
  rcases hr with rfl | (rfl | rfl | hr) | rfl
  · exact primaryGpt_proper
  · exact covering_proper _ _
  · exact covering_proper _ _
  · exact table r hr
  · change l.imageSectors - 33 ≤ l.imageSectors - 1 + 1
    omega

theorem imageRegions_ordered {p : Vars} {n : ℕ} {l : PartitionLayout} {a : BootArtifacts}
    (h : Checked p n l a) : (imageRegions p l a).Pairwise Before := by
  obtain ⟨hgpt, hid, hub, hboot⟩ := boot_chain_ordered h
  have hlast := h.layoutOf.lastUsable
  refine ordered_of_chain (imageRegions_proper h) ?_
  by_cases hm : p.rootfsMode = roOverlay
  · obtain ⟨d, e, hd, he, hrd, -, hend⟩ := h.overlay_room hm
    have hdata : Before ⟨d, e⟩ (backupGpt l) := by
      change e < l.imageSectors - 33
      omega
    rw [imageRegions, partitionTable_overlay hm hd he]
    simpa [bootPartition, rootPartition, dataPartition] using ⟨hgpt, hid, hub, hboot, hrd, hdata⟩
  · have hroot : Before ⟨l.rootFirstSector, l.rootLastSector⟩ (backupGpt l) := by
      have hw := (h.layoutOf.writable hm).1
      change l.rootLastSector < l.imageSectors - 33
      omega
    rw [imageRegions, partitionTable_writable (h.layoutOf.writable hm).2]
    simpa [bootPartition, rootPartition] using ⟨hgpt, hid, hub, hboot, hroot⟩

theorem imageRegions_inside {p : Vars} {n : ℕ} {l : PartitionLayout} {a : BootArtifacts}
    (h : Checked p n l a) {r : Range} (hr : r ∈ imageRegions p l a) :
    0 ≤ r.first ∧ r.last < l.imageSectors := by
  have hp := imageRegions_proper h
  have hb : 0 ≤ r.first ∧ r.last ≤ l.imageSectors - 1 :=
    bounds_of_ordered primaryGpt_proper
      (hp (backupGpt l) (by simp [imageRegions])) (imageRegions_ordered h) hr
  omega

/-- The partition found at first boot is the last one of the table. -/
theorem firstbootPartition_greatest {p : Vars} {n : ℕ} {l : PartitionLayout} {a : BootArtifacts}
    (h : Checked p n l a) : ∃ g, firstbootPartition p (partitionTable p l) = some g ∧
      g.number = (if p.rootfsMode = roOverlay then 3 else 2) ∧
      ∀ q ∈ partitionTable p l, q ≠ g → q.range.last < g.range.last := by
  have hroot := h.layoutOf.rootFirst
  by_cases hm : p.rootfsMode = roOverlay
  · obtain ⟨d, e, hd, he, hrd, hde, -⟩ := h.overlay_room hm
    have hsize := (h.layoutOf.overlay hm).1
    rw [partitionTable_overlay hm hd he]
    refine ⟨dataPartition d e, ?_, (if_pos hm).symm, ?_⟩
    · simp [firstbootPartition, hm, bootPartition, rootPartition, dataPartition]
    · intro q hq hne
      simp only [List.mem_cons, List.not_mem_nil, or_false] at hq
      rcases hq with rfl | rfl | rfl
      · change l.bootLastSector < e
        omega
      · change l.rootLastSector < e
        omega
      · exact absurd rfl hne
  · have hroom := h.writable_room hm
    rw [partitionTable_writable (h.layoutOf.writable hm).2]
    refine ⟨rootPartition l, ?_, (if_neg hm).symm, ?_⟩
    · simp [firstbootPartition, hm, bootPartition, rootPartition]
    · intro q hq hne
      simp only [List.mem_cons, List.not_mem_nil, or_false] at hq
      rcases hq with rfl | rfl
      · change l.bootLastSector < l.rootLastSector
        omega
      · exact absurd rfl hne

/-- An image that passes the checks has room for everything, in order and without overlap. -/
theorem makeImageChecks_geometry {fileExists : Text → Bool} {env p : Vars} {rootfsBytes : ℕ}
    {a : BootArtifacts} {l : PartitionLayout}
    (h : makeImageChecks fileExists env rootfsBytes a = .ok (p, l)) :
    (imageRegions p l a).Pairwise (fun r s => Disjoint r.sectors s.sectors) ∧
    (imageRegions p l a).Pairwise Before ∧
    l.imageSectors = decimal p.imageSizeMib * 2048 ∧
    (∀ r ∈ imageRegions p l a, 0 ≤ r.first ∧ r.last < l.imageSectors) ∧
    (rootfsBytes : ℤ) ≤ (l.rootLastSector - l.rootFirstSector + 1) * 512 ∧
    ∃ g, firstbootPartition p (partitionTable p l) = some g ∧
      g.number = (if p.rootfsMode = roOverlay then 3 else 2) ∧
      ∀ q ∈ partitionTable p l, q ≠ g → q.range.last < g.range.last := by
  have checked := makeImageChecks_ok h
  have ordered := imageRegions_ordered checked
  exact ⟨disjoint_of_ordered ordered, ordered, checked.layoutOf.image,
    fun r hr => imageRegions_inside checked hr, checked.root_fits,
    firstbootPartition_greatest checked⟩

theorem makeImageChecks_geometry_rock5c :
    ∃ p l a, makeImageChecks (fun _ => true) { rock5c with rootfsMode := roOverlay }
      1048577 a = .ok (p, l) ∧
    (imageRegions p l a).Pairwise (fun r s => Disjoint r.sectors s.sectors) ∧
    (imageRegions p l a).Pairwise Before := by
  have run : makeImageChecks (fun _ => true) { rock5c with rootfsMode := roOverlay } 1048577
      ⟨[], some (rkns ++ [0, 0]), some [1, 2, 3]⟩ =
      .ok (optionalDefaults (profileDefaults { rock5c with rootfsMode := roOverlay }),
        ⟨4194304, 32768, 524288, 557055, 557056, some 3, some 6144, 563199, some 563200,
          some 4194270, 4194270⟩) := by
    unfold rock5c
    repeat rw [String.toList_ofList]
    decide +kernel
  have geometry := makeImageChecks_geometry run
  exact ⟨_, _, _, run, geometry.1, geometry.2.1⟩

end DiskGeometry
