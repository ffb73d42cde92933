import SbcImageBuild.DiskGeometry
import SbcImageBuild.BuildMetadata

/-!
# Publishing a disk image

The last part of `make_image.sh`: the finished image, its compressed form, the checksum file
and the metadata replace those of earlier builds one after another.
-/
namespace ImagePublish

open ShellText BoardProfile ByteStore SectorRange DiskGeometry Delimited BuildMetadata

/-- An image with the root mode and the partition table it was built with. -/
structure DiskImage where
  bytes : Bytes
  rootfsMode : Text
  table : List Partition

/-- The files of the variant output directory that are published. -/
structure Outputs where
  image : Option DiskImage
  zstd : Option Bytes
  zstdTmp : Option Bytes
  sha256 : Option Text
  metadata : Option Text
  metadataTmp : Option Text

/-- What a run has at hand when it starts to publish; `sha256sum` is the digest in hex. -/
structure PublishInputs where
  sha256sum : Bytes → Text
  profile : Vars
  layout : PartitionLayout
  disk : Bytes
  compressed : Bytes
  imageStem : Text
  generatedUtc : Text
  kernelRevision : Text
  ubootRevision : Text
  rkbinRevision : Text
  buildrootRevision : Text
  rootfs : Text
  debianRelease : Text
  idblock : Bytes
  uboot : Bytes
  kernelRelease : Text
  rootfsImage : Bytes

def PublishInputs.imageName (i : PublishInputs) : Text := i.imageStem ++ ".img".toList
def PublishInputs.zstdName (i : PublishInputs) : Text := i.imageName ++ ".zst".toList

def PublishInputs.image (i : PublishInputs) : DiskImage :=
  ⟨i.disk, i.profile.rootfsMode, partitionTable i.profile i.layout⟩

/-- The number of a partition and its first and last sector, each followed by a colon. -/
def sectors (number : ℕ) (first last : ℤ) : Text :=
  (toString number).toList ++ ':' :: (toString first).toList ++
    ':' :: (toString last).toList ++ [':']

def rootPartMeta (p : Vars) (l : PartitionLayout) : Text :=
  sectors 2 l.rootFirstSector l.rootLastSector ++
    (if p.rootfsMode = roOverlay then "squashfs:rootfs".toList else "ext4:rootfs".toList)

/-- An empty line is not passed on to `write_common_metadata`. -/
def dataPartMeta (p : Vars) (l : PartitionLayout) : List Field :=
  match l.dataFirstSector, l.dataLastSector with
  | some dataFirst, some dataLast =>
    if p.rootfsMode = roOverlay then
      [⟨"data_partition".toList, sectors 3 dataFirst dataLast ++ "ext4:data".toList⟩]
    else []
  | _, _ => []

def leadingFields (i : PublishInputs) : List Field :=
  [⟨"source_manifest".toList, i.profile.sourceManifest⟩,
   ⟨"rootfs_mode".toList, i.profile.rootfsMode⟩,
   ⟨"kernel_revision".toList, i.kernelRevision⟩,
   ⟨"uboot_revision".toList, i.ubootRevision⟩,
   ⟨"rkbin_revision".toList, i.rkbinRevision⟩,
   ⟨"buildroot_revision".toList, i.buildrootRevision⟩,
   ⟨"rootfs".toList, i.rootfs⟩,
   ⟨"debian_release".toList, i.debianRelease⟩,
   ⟨"image".toList, i.imageName⟩,
   ⟨"image_size_mib".toList, i.profile.imageSizeMib⟩,
   ⟨"image_sha256".toList, i.sha256sum i.disk⟩,
   ⟨"compressed_image".toList, i.zstdName⟩,
   ⟨"compressed_sha256".toList, i.sha256sum i.compressed⟩,
   ⟨"boot_partition".toList,
     sectors 1 i.layout.bootFirstSector i.layout.bootLastSector ++ "fat32:BOOT".toList⟩,
   ⟨"root_partition".toList, rootPartMeta i.profile i.layout⟩] ++
  dataPartMeta i.profile i.layout

/-- The lines of `layout_rockchip_gpt_idblock_extlinux_v1_write_metadata`. -/
def layoutFields (i : PublishInputs) : List Field :=
  [⟨"idblock_sector".toList, i.profile.idblockSector⟩,
   ⟨"idblock_format".toList, "RKNS".toList⟩,
   ⟨"idblock_sha256".toList, i.sha256sum i.idblock⟩,
   ⟨"uboot_sector".toList, i.profile.ubootSector⟩,
   ⟨"uboot_sha256".toList, i.sha256sum i.uboot⟩]

def trailingFields (i : PublishInputs) : List Field :=
  [⟨"kernel_release".toList, i.kernelRelease⟩,
   ⟨"kernel_dtb".toList, i.profile.kernelDtb⟩,
   ⟨"rootfs_source_sha256".toList, i.sha256sum i.rootfsImage⟩]

def imageFields (i : PublishInputs) : List Field :=
  commonFields i.profile.board i.profile.boardDescription i.generatedUtc ++
    (leadingFields i ++ (layoutFields i ++ trailingFields i))

/-- The lines of the layout are passed as a single argument. -/
def imageBuildInfo (i : PublishInputs) : Text :=
  writeCommonMetadata i.profile.board i.profile.boardDescription i.generatedUtc
    ((leadingFields i).map Field.line ++ [join '\n' ((layoutFields i).map Field.line)] ++
      (trailingFields i).map Field.line)

/-- A run that passed the checks, with values of one line each. -/
structure Publication extends PublishInputs where
  artifacts : BootArtifacts
  checked : Checked profile rootfsImage.length layout artifacts
  one_line : ∀ f ∈ imageFields toPublishInputs, '\n' ∉ f.value

def checksumLine (digest name : Text) : Text := digest ++ "  ".toList ++ name

def imageChecksum (i : PublishInputs) : Text := checksumLine (i.sha256sum i.disk) i.imageName
def zstdChecksum (i : PublishInputs) : Text := checksumLine (i.sha256sum i.compressed) i.zstdName

def addLine (line : Text) (file : Option Text) : Option Text :=
  file.map fun t => t ++ line ++ ['\n']

/-- The effect of `rm -f` on the three files it is given, as far as it can remove them. -/
def removeOld (image zstd sha256 : Bool) (s : Outputs) : Outputs :=
  { s with
    image := if image then none else s.image
    zstd := if zstd then none else s.zstd
    sha256 := if sha256 then none else s.sha256 }

/-- The commands after the removal, in their order. The checksum file is opened and then gets
its lines one by one. -/
def publishSteps (i : PublishInputs) : List (Outputs → Outputs) :=
  [fun s => { s with image := some i.image },
   fun s => { s with zstdTmp := some i.compressed },
   fun s => { s with zstd := s.zstdTmp, zstdTmp := none },
   fun s => { s with sha256 := some [] },
   fun s => { s with sha256 := addLine (imageChecksum i) s.sha256 },
   fun s => { s with sha256 := addLine (zstdChecksum i) s.sha256 },
   fun s => { s with metadataTmp := some (imageBuildInfo i) },
   fun s => { s with metadata := s.metadataTmp, metadataTmp := none }]

/-- A run stops in the removal, with some of the three files gone, or after so many of the
later commands. -/
inductive Stop where
  | removing (image zstd sha256 : Bool)
  | after (commands : ℕ)
  deriving DecidableEq, Repr

/-- The directory after a run that stops there. -/
def publishUntil (i : PublishInputs) (previous : Outputs) : Stop → Outputs
  | .removing image zstd sha256 => removeOld image zstd sha256 previous
  | .after k => ((publishSteps i).take k).foldl (fun s f => f s) (removeOld true true true previous)

def partitionKey : ℕ → Text
  | 1 => "boot_partition".toList
  | 2 => "root_partition".toList
  | _ => "data_partition".toList

/-- The metadata is that of the image: its digest, its root mode, its partitions. -/
structure Describes (sha256sum : Bytes → Text) (metadata : Text) (image : DiskImage) : Prop where
  digest : metadataValue metadata "image_sha256".toList = sha256sum image.bytes
  mode : metadataValue metadata "rootfs_mode".toList = image.rootfsMode
  partitions : ∀ q ∈ image.table,
    sectors q.number q.range.first q.range.last <+: metadataValue metadata (partitionKey q.number)
  no_data : (∀ q ∈ image.table, q.number ≠ 3) →
    metadataValue metadata "data_partition".toList = []

def MetadataOk (i : PublishInputs) (s : Outputs) : Prop :=
  ∀ image metadata, s.image = some image → s.metadata = some metadata →
    Describes i.sha256sum metadata image

def ImageListed (i : PublishInputs) (s : Outputs) : Prop :=
  ∀ file image, s.sha256 = some file → s.image = some image →
    checksumLine (i.sha256sum image.bytes) i.imageName ∈ records '\n' file

def ZstdListed (i : PublishInputs) (s : Outputs) : Prop :=
  ∀ file zstd, s.sha256 = some file → s.zstd = some zstd →
    checksumLine (i.sha256sum zstd) i.zstdName ∈ records '\n' file

structure Consistent (i : PublishInputs) (s : Outputs) : Prop where
  metadata : MetadataOk i s
  image : ImageListed i s
  zstd : ZstdListed i s

/-- Metadata left from an earlier build happens to describe the new image. -/
def OldMetadataFits (i : PublishInputs) (previous : Outputs) : Prop :=
  ∀ metadata, previous.metadata = some metadata → Describes i.sha256sum metadata i.image

/-- The stop points that are safe for the previous outputs. In the removal, what is left must
have been right before; then the old metadata must fit, as long as it is there; and a checksum
file must not be left incomplete. -/
def SafeStop (i : PublishInputs) (previous : Outputs) : Stop → Prop
  | .removing image zstd sha256 =>
    (image = false → MetadataOk i previous) ∧
    (image = false → sha256 = false → ImageListed i previous) ∧
    (zstd = false → sha256 = false → ZstdListed i previous)
  | .after k => (1 ≤ k ∧ k < 8 → OldMetadataFits i previous) ∧ k ≠ 4 ∧ k ≠ 5

theorem dataPartMeta_overlay {p : Vars} {l : PartitionLayout} {d e : ℤ}
    (hm : p.rootfsMode = roOverlay) (hd : l.dataFirstSector = some d)
    (he : l.dataLastSector = some e) : dataPartMeta p l =
      [⟨"data_partition".toList, sectors 3 d e ++ "ext4:data".toList⟩] := by
  rw [dataPartMeta, hd, he]
  exact if_pos hm

theorem dataPartMeta_writable {p : Vars} {l : PartitionLayout} (h : l.dataFirstSector = none) :
    dataPartMeta p l = [] := by
  rw [dataPartMeta, h]

theorem dataPartMeta_cases (p : Vars) (l : PartitionLayout) :
    dataPartMeta p l = [] ∨ ∃ v, dataPartMeta p l = [⟨"data_partition".toList, v⟩] := by
  unfold dataPartMeta
  split
  · split
    · exact .inr ⟨_, rfl⟩
    · exact .inl rfl
  · exact .inl rfl

/-- The keys of the image metadata; the data partition has a line only if it exists. -/
def imageKeys (data : List Text) : List Text :=
  ["board".toList, "board_description".toList, "generated_utc".toList, "source_manifest".toList,
   "rootfs_mode".toList, "kernel_revision".toList, "uboot_revision".toList,
   "rkbin_revision".toList, "buildroot_revision".toList, "rootfs".toList,
   "debian_release".toList, "image".toList, "image_size_mib".toList, "image_sha256".toList,
   "compressed_image".toList, "compressed_sha256".toList, "boot_partition".toList,
   "root_partition".toList] ++ data ++
  ["idblock_sector".toList, "idblock_format".toList, "idblock_sha256".toList,
   "uboot_sector".toList, "uboot_sha256".toList, "kernel_release".toList, "kernel_dtb".toList,
   "rootfs_source_sha256".toList]

theorem imageFields_keys (i : PublishInputs) : (imageFields i).map Field.key =
    imageKeys ((dataPartMeta i.profile i.layout).map Field.key) := by
  simp only [imageFields, leadingFields, List.map_append, List.append_assoc]
  rfl

theorem imageKeys_wellFormed {i : PublishInputs} :
    (∀ k ∈ (imageFields i).map Field.key, IsKey k) ∧ ((imageFields i).map Field.key).Nodup := by
  have hfull : (∀ k ∈ imageKeys ["data_partition".toList], IsKey k) ∧
      (imageKeys ["data_partition".toList]).Nodup := by
    decide +kernel
  rw [imageFields_keys]
  rcases dataPartMeta_cases i.profile i.layout with h | ⟨v, h⟩
  · have hsub : (imageKeys []).Sublist (imageKeys ["data_partition".toList]) :=
      ((List.Sublist.refl _).append (List.nil_sublist _)).append (List.Sublist.refl _)
    rw [h, List.map_nil]
    exact ⟨fun k hk => hfull.1 k (hsub.subset hk), hfull.2.sublist hsub⟩
  · rw [h]
    exact hfull

theorem imageFields_readable (b : Publication) : Readable (imageFields b.toPublishInputs) :=
  ⟨fun _ hf => imageKeys_wellFormed.1 _ (List.mem_map_of_mem hf), imageKeys_wellFormed.2,
    b.one_line⟩

theorem imageBuildInfo_eq (i : PublishInputs) :
    imageBuildInfo i = terminate '\n' ((imageFields i).map Field.line) := by
  have hjoin : terminate '\n' [join '\n' ((layoutFields i).map Field.line)] =
      terminate '\n' ((layoutFields i).map Field.line) := terminate_join (by simp [layoutFields])
  have hne : (leadingFields i).map Field.line ++ [join '\n' ((layoutFields i).map Field.line)] ++
      (trailingFields i).map Field.line ≠ [] := by simp
  rw [imageBuildInfo, writeCommonMetadata, printfLines, if_neg hne, imageFields]
  simp only [List.map_append, terminate_append, hjoin, List.append_assoc]

theorem imageBuildInfo_value (b : Publication) {f : Field}
    (hf : f ∈ imageFields b.toPublishInputs) :
    metadataValue (imageBuildInfo b.toPublishInputs) f.key = f.value := by
  have hread := metadataValue_fields (imageFields_readable b) free_nil hf
  rwa [List.append_nil, ← imageBuildInfo_eq] at hread

theorem mem_leading {i : PublishInputs} {f : Field} (h : f ∈ leadingFields i) :
    f ∈ imageFields i :=
  List.mem_append_right _ (List.mem_append_left _ h)

theorem mem_dataPartMeta {i : PublishInputs} {f : Field}
    (h : f ∈ dataPartMeta i.profile i.layout) : f ∈ imageFields i :=
  mem_leading (List.mem_append_right _ h)

/-- Every row of the partition table has its line. -/
theorem partition_field (b : Publication) {q : Partition}
    (hq : q ∈ partitionTable b.profile b.layout) :
    ∃ rest, ⟨partitionKey q.number, sectors q.number q.range.first q.range.last ++ rest⟩ ∈
      imageFields b.toPublishInputs := by
  have boot : ⟨"boot_partition".toList, sectors 1 b.layout.bootFirstSector
      b.layout.bootLastSector ++ "fat32:BOOT".toList⟩ ∈ imageFields b.toPublishInputs :=
    mem_leading (by simp [leadingFields])
  have root : ⟨"root_partition".toList, rootPartMeta b.profile b.layout⟩ ∈
      imageFields b.toPublishInputs := mem_leading (by simp [leadingFields])
  by_cases hm : b.profile.rootfsMode = roOverlay
  · obtain ⟨d, e, hd, he, -⟩ := b.checked.overlay_room hm
    rw [partitionTable_overlay hm hd he] at hq
    simp only [List.mem_cons, List.not_mem_nil, or_false] at hq
    rcases hq with rfl | rfl | rfl
    · exact ⟨_, boot⟩
    · exact ⟨_, root⟩
    · exact ⟨_, mem_dataPartMeta (dataPartMeta_overlay hm hd he ▸ List.mem_singleton_self _)⟩
  · rw [partitionTable_writable (b.checked.layoutOf.writable hm).2] at hq
    simp only [List.mem_cons, List.not_mem_nil, or_false] at hq
    rcases hq with rfl | rfl
    · exact ⟨_, boot⟩
    · exact ⟨_, root⟩

/-- Without a data partition there is no line for it. -/
theorem no_data_field (b : Publication)
    (h : ∀ q ∈ partitionTable b.profile b.layout, q.number ≠ 3) :
    metadataValue (imageBuildInfo b.toPublishInputs) "data_partition".toList = [] := by
  have writable : b.profile.rootfsMode ≠ roOverlay := by
    intro hm
    obtain ⟨d, e, hd, he, -⟩ := b.checked.overlay_room hm
    rw [partitionTable_overlay hm hd he] at h
    exact h (dataPartition d e) (by simp) rfl
  have hkeys := imageFields_keys b.toPublishInputs
  rw [dataPartMeta_writable (b.checked.layoutOf.writable writable).2] at hkeys
  rw [imageBuildInfo_eq]
  refine metadataValue_absent (imageFields_readable b) fun f hf heq => ?_
  have hmem := List.mem_map_of_mem (f := Field.key) hf
  rw [hkeys, heq] at hmem
  revert hmem
  decide

/-- The published metadata is that of the published image. -/
theorem imageBuildInfo_describes (b : Publication) :
    Describes b.sha256sum (imageBuildInfo b.toPublishInputs) b.image := by
  have value := fun f hf => imageBuildInfo_value b (f := f) (mem_leading hf)
  refine ⟨value ⟨"image_sha256".toList, b.sha256sum b.disk⟩ (by simp [leadingFields]),
    value ⟨"rootfs_mode".toList, b.profile.rootfsMode⟩ (by simp [leadingFields]), ?_,
    no_data_field b⟩
  intro q hq
  obtain ⟨rest, hmem⟩ := partition_field b hq
  rw [imageBuildInfo_value b hmem]
  exact List.prefix_append _ _

theorem image_name_free (b : Publication) : '\n' ∉ b.imageName ∧ '\n' ∉ b.sha256sum b.disk :=
  ⟨b.one_line ⟨"image".toList, b.imageName⟩ (mem_leading (by simp [leadingFields])),
    b.one_line ⟨"image_sha256".toList, b.sha256sum b.disk⟩
      (mem_leading (by simp [leadingFields]))⟩

theorem zstd_name_free (b : Publication) :
    '\n' ∉ b.zstdName ∧ '\n' ∉ b.sha256sum b.compressed :=
  ⟨b.one_line ⟨"compressed_image".toList, b.zstdName⟩ (mem_leading (by simp [leadingFields])),
    b.one_line ⟨"compressed_sha256".toList, b.sha256sum b.compressed⟩
      (mem_leading (by simp [leadingFields]))⟩

theorem checksumLine_free {digest name : Text} (hd : '\n' ∉ digest) (hn : '\n' ∉ name) :
    '\n' ∉ checksumLine digest name := by
  simp [checksumLine, hd, hn]

theorem checksums_free (b : Publication) :
    Free '\n' [imageChecksum b.toPublishInputs, zstdChecksum b.toPublishInputs] := by
  simp only [free_cons, free_nil, and_true]
  exact ⟨checksumLine_free (image_name_free b).2 (image_name_free b).1,
    checksumLine_free (zstd_name_free b).2 (zstd_name_free b).1⟩

/-- The two names end in different letters. -/
theorem zstdChecksum_ne_imageChecksum (i : PublishInputs) :
    zstdChecksum i ≠ imageChecksum i := by
  intro heq
  have zstd : zstdChecksum i =
      checksumLine (i.sha256sum i.compressed) (i.imageName ++ ".zs".toList) ++ ['t'] := by
    simp [zstdChecksum, checksumLine, PublishInputs.zstdName]
  have image : imageChecksum i =
      checksumLine (i.sha256sum i.disk) (i.imageStem ++ ".im".toList) ++ ['g'] := by
    simp [imageChecksum, checksumLine, PublishInputs.imageName]
  rw [zstd, image] at heq
  have hlast := congrArg List.getLast? heq
  simp at hlast

theorem removeOld_consistent_iff {i : PublishInputs} {image zstd sha256 : Bool} {s : Outputs} :
    Consistent i (removeOld image zstd sha256 s) ↔ SafeStop i s (.removing image zstd sha256) := by
  constructor
  · rintro ⟨hm, hi, hz⟩
    refine ⟨?_, ?_, ?_⟩
    · rintro rfl
      exact hm
    · rintro rfl rfl
      exact hi
    · rintro rfl rfl
      exact hz
  · rintro ⟨hm, hi, hz⟩
    refine ⟨?_, ?_, ?_⟩
    · cases image with
      | false => exact hm rfl
      | true => exact fun _ _ h => by cases h
    · cases image with
      | false =>
        cases sha256 with
        | false => exact hi rfl rfl
        | true => exact fun _ _ h => by cases h
      | true => exact fun _ _ _ h => by cases h
    · cases zstd with
      | false =>
        cases sha256 with
        | false => exact hz rfl rfl
        | true => exact fun _ _ h => by cases h
      | true => exact fun _ _ _ h => by cases h

/-- From the move of the image on, the metadata has to be that of the new image. -/
theorem metadataOk_new {i : PublishInputs} {s : Outputs} (h : s.image = some i.image) :
    MetadataOk i s ↔ ∀ metadata, s.metadata = some metadata →
      Describes i.sha256sum metadata i.image := by
  constructor
  · intro ok metadata hm
    exact ok i.image metadata h hm
  · intro ok image metadata himage hm
    obtain rfl : i.image = image := Option.some.inj (h.symm.trans himage)
    exact ok metadata hm

/-- Until it is replaced as well, that depends on the metadata left from before. -/
theorem metadataOk_old {i : PublishInputs} {s previous : Outputs} (hi : s.image = some i.image)
    (hm : s.metadata = previous.metadata) : MetadataOk i s ↔ OldMetadataFits i previous := by
  rw [metadataOk_new hi, hm, OldMetadataFits]

theorem checksums_absent {i : PublishInputs} {s : Outputs} (h : s.sha256 = none) :
    ImageListed i s ∧ ZstdListed i s := by
  simp [ImageListed, ZstdListed, h]

/-- While the new image stands alone. -/
theorem consistent_before_checksums {i : PublishInputs} {s previous : Outputs}
    (hi : s.image = some i.image) (hm : s.metadata = previous.metadata) (hs : s.sha256 = none) :
    Consistent i s ↔ OldMetadataFits i previous := by
  rw [← metadataOk_old hi hm]
  exact ⟨Consistent.metadata, fun h => ⟨h, (checksums_absent hs).1, (checksums_absent hs).2⟩⟩

theorem addLine_terminate (line : Text) (lines : List Text) :
    addLine line (some (terminate '\n' lines)) = some (terminate '\n' (lines ++ [line])) := by
  simp [addLine, terminate_append]

/-- While the checksum file is being written, the line of the compressed image is missing. -/
theorem not_consistent_half_written (b : Publication) {s : Outputs}
    (hz : s.zstd = some b.compressed) {lines : List Text} (hfree : Free '\n' lines)
    (hs : s.sha256 = some (terminate '\n' lines))
    (hlines : zstdChecksum b.toPublishInputs ∉ lines) : ¬ Consistent b.toPublishInputs s := by
  intro h
  have hmem := h.zstd _ _ hs hz
  rw [records_terminate hfree] at hmem
  exact hlines hmem

/-- Once the checksum file is complete. -/
theorem checksums_complete (b : Publication) {s : Outputs} (hi : s.image = some b.image)
    (hz : s.zstd = some b.compressed) (hs : s.sha256 = some (terminate '\n'
      [imageChecksum b.toPublishInputs, zstdChecksum b.toPublishInputs])) :
    ImageListed b.toPublishInputs s ∧ ZstdListed b.toPublishInputs s := by
  constructor
  · intro file image hfile himage
    obtain rfl := Option.some.inj (hs.symm.trans hfile)
    obtain rfl := Option.some.inj (hi.symm.trans himage)
    rw [records_terminate (checksums_free b)]
    exact List.mem_cons_self
  · intro file zstd hfile hzstd
    obtain rfl := Option.some.inj (hs.symm.trans hfile)
    obtain rfl := Option.some.inj (hz.symm.trans hzstd)
    rw [records_terminate (checksums_free b)]
    exact List.mem_cons_of_mem _ List.mem_cons_self

theorem consistent_after_checksums (b : Publication) {s previous : Outputs}
    (hi : s.image = some b.image) (hz : s.zstd = some b.compressed)
    (hs : s.sha256 = some (terminate '\n'
      [imageChecksum b.toPublishInputs, zstdChecksum b.toPublishInputs]))
    (hm : s.metadata = previous.metadata) :
    Consistent b.toPublishInputs s ↔ OldMetadataFits b.toPublishInputs previous := by
  have listed := checksums_complete b hi hz hs
  rw [← metadataOk_old hi hm]
  exact ⟨Consistent.metadata, fun h => ⟨h, listed.1, listed.2⟩⟩

/-- The checksum file as the two commands leave it. -/
theorem checksum_file (i : PublishInputs) :
    addLine (zstdChecksum i) (addLine (imageChecksum i) (some [])) =
      some (terminate '\n' [imageChecksum i, zstdChecksum i]) := by
  rw [← (terminate_nil : terminate '\n' [] = []), addLine_terminate, addLine_terminate]
  rfl

theorem publishUntil_complete (i : PublishInputs) (k : ℕ) (previous : Outputs) :
    publishUntil i previous (.after (k + 8)) =
      ⟨some i.image, some i.compressed, none,
        some (terminate '\n' [imageChecksum i, zstdChecksum i]),
        some (imageBuildInfo i), none⟩ := by
  have hall : (publishSteps i).take (k + 8) = publishSteps i :=
    List.take_of_length_le (by simp [publishSteps])
  rw [publishUntil, hall, ← checksum_file]
  rfl

theorem published_consistent (b : Publication) (previous : Outputs) (k : ℕ) :
    Consistent b.toPublishInputs (publishUntil b.toPublishInputs previous (.after (k + 8))) := by
  rw [publishUntil_complete]
  obtain ⟨himage, hzstd⟩ := checksums_complete b
    (s := ⟨_, _, none, _, some (imageBuildInfo b.toPublishInputs), none⟩) rfl rfl rfl
  refine ⟨(metadataOk_new rfl).mpr fun metadata hm => ?_, himage, hzstd⟩
  cases hm
  exact imageBuildInfo_describes b

/-- A stop leaves consistent outputs exactly when it is a safe one. -/
theorem publish_consistent_iff (b : Publication) (previous : Outputs) (stop : Stop) :
    Consistent b.toPublishInputs (publishUntil b.toPublishInputs previous stop) ↔
      SafeStop b.toPublishInputs previous stop := by
  have first := (free_cons.mp (checksums_free b)).1
  have second := zstdChecksum_ne_imageChecksum b.toPublishInputs
  have fits : ∀ k, 1 ≤ k ∧ k < 8 → k ≠ 4 → k ≠ 5 → (SafeStop b.toPublishInputs previous (.after k) ↔
      OldMetadataFits b.toPublishInputs previous) := by
    intro k hk h4 h5
    simp [SafeStop, hk, h4, h5]
  match stop with
  | .removing image zstd sha256 => exact removeOld_consistent_iff
  | .after 0 => exact removeOld_consistent_iff.trans (by simp [SafeStop])
  | .after 1 =>
    rw [fits 1 (by omega) (by omega) (by omega)]
    exact consistent_before_checksums rfl rfl rfl
  | .after 2 =>
    rw [fits 2 (by omega) (by omega) (by omega)]
    exact consistent_before_checksums rfl rfl rfl
  | .after 3 =>
    rw [fits 3 (by omega) (by omega) (by omega)]
    exact consistent_before_checksums rfl rfl rfl
  | .after 4 =>
    refine iff_of_false ?_ (by simp [SafeStop])
    exact not_consistent_half_written b rfl free_nil rfl List.not_mem_nil
  | .after 5 =>
    have hfree : Free '\n' [imageChecksum b.toPublishInputs] := by simpa using first
    refine iff_of_false ?_ (by simp [SafeStop])
    exact not_consistent_half_written b rfl hfree (addLine_terminate _ []) (by simpa using second)
  | .after 6 =>
    rw [fits 6 (by omega) (by omega) (by omega)]
    exact consistent_after_checksums b rfl rfl (checksum_file _) rfl
  | .after 7 =>
    rw [fits 7 (by omega) (by omega) (by omega)]
    exact consistent_after_checksums b rfl rfl (checksum_file _) rfl
  | .after (k + 8) =>
    exact iff_of_true (published_consistent b previous k)
      ⟨fun h => absurd h.2 (by omega), by omega, by omega⟩

/-- `sha256sum` on the files of the two builds below. -/
def exampleDigest (bytes : Bytes) : Text :=
  if bytes = [0x72, 0x77] then
    "55e1ebd3ebe4f1b46a5ccc9866df4d74e99fe240397e155d04664e5ce2d8e5dc".toList
  else if bytes = [0x72, 0x6F] then
    "7ef9ec0cf2c4facafddd03ab96eca0939d6749b49952bd816f1e0cc6901941d5".toList
  else if bytes = [0x28, 0xB5, 0x2F, 0xFD] then
    "1c986dc083de2f3d01811ccf5feba7bbf933659591bf729c687c1177df4cb47d".toList
  else if bytes = rkns then
    "fd8974ed5335032478a51278822ae9260571d45f6198a64f5eab4cc695ab5212".toList
  else if bytes = [1] then
    "4bf5122f344554c53bde2ebb8cd2b7e3d1600ad631c385a5d7cce23c7785459a".toList
  else
    "6e340b9cffb37a989ca544e6bb780a2c78901d3fb33738768511a30617afa01d".toList

def exampleProfile (rootfsMode : Text) : Vars :=
  optionalDefaults (profileDefaults { rock5c with rootfsMode := rootfsMode })

/-- Two bytes stand for the disk image and one for the root file system. -/
def exampleInputs (rootfsMode : Text) (layout : PartitionLayout) (disk : Bytes) : PublishInputs :=
  { sha256sum := exampleDigest
    profile := exampleProfile rootfsMode
    layout := layout
    disk := disk
    compressed := [0x28, 0xB5, 0x2F, 0xFD]
    imageStem := "rk3588s-rock-5c-debian-bookworm".toList
    generatedUtc := "2025-01-01T00:00:00Z".toList
    kernelRevision := rock5c.expectedKernelRevision
    ubootRevision := rock5c.expectedUbootRevision
    rkbinRevision := rock5c.expectedRkbinRevision
    buildrootRevision := rock5c.expectedBuildrootRevision
    rootfs := "debian".toList
    debianRelease := "bookworm".toList
    idblock := rkns
    uboot := [1]
    kernelRelease := "5.10.110".toList
    rootfsImage := [0] }

def writableLayout : PartitionLayout :=
  ⟨4194304, 32768, 524288, 557055, 557056, none, none, 4194270, none, none, 4194270⟩

def overlayLayout : PartitionLayout :=
  ⟨4194304, 32768, 524288, 557055, 557056, some 2, some 4096, 561151, some 561152, some 4194270,
    4194270⟩

theorem writable_checks : makeImageChecks (fun _ => true) { rock5c with rootfsMode := rwExt4 } 1
    ⟨[], some rkns, some [1]⟩ = .ok (exampleProfile rwExt4, writableLayout) := by
  unfold exampleProfile rock5c
  repeat rw [String.toList_ofList]
  decide +kernel

theorem overlay_checks : makeImageChecks (fun _ => true) { rock5c with rootfsMode := roOverlay } 1
    ⟨[], some rkns, some [1]⟩ = .ok (exampleProfile roOverlay, overlayLayout) := by
  unfold exampleProfile rock5c
  repeat rw [String.toList_ofList]
  decide +kernel

theorem writable_one_line :
    ∀ f ∈ imageFields (exampleInputs rwExt4 writableLayout [0x72, 0x77]), '\n' ∉ f.value := by
  unfold exampleInputs exampleProfile exampleDigest rock5c
  repeat rw [String.toList_ofList]
  decide +kernel

theorem overlay_one_line :
    ∀ f ∈ imageFields (exampleInputs roOverlay overlayLayout [0x72, 0x6F]), '\n' ∉ f.value := by
  unfold exampleInputs exampleProfile exampleDigest rock5c
  repeat rw [String.toList_ofList]
  decide +kernel

def writableBuild : Publication :=
  ⟨exampleInputs rwExt4 writableLayout [0x72, 0x77], ⟨[], some rkns, some [1]⟩,
    makeImageChecks_ok writable_checks, writable_one_line⟩

def overlayBuild : Publication :=
  ⟨exampleInputs roOverlay overlayLayout [0x72, 0x6F], ⟨[], some rkns, some [1]⟩,
    makeImageChecks_ok overlay_checks, overlay_one_line⟩

/-- A writable image is built, and then an overlay image up to a failing `zstd`. -/
theorem publish_stale_metadata :
    let previous := publishUntil writableBuild.toPublishInputs ⟨none, none, none, none, none, none⟩
      (.after 8)
    Consistent writableBuild.toPublishInputs previous ∧
    ¬ Consistent overlayBuild.toPublishInputs
      (publishUntil overlayBuild.toPublishInputs previous (.after 1)) := by
  refine ⟨published_consistent writableBuild _ 0, fun h => ?_⟩
  have described := h.metadata overlayBuild.image
    (imageBuildInfo writableBuild.toPublishInputs) rfl rfl
  have written := (imageBuildInfo_describes writableBuild).mode
  have heq : roOverlay = rwExt4 := described.mode.symm.trans written
  exact absurd heq (by decide)

end ImagePublish
