import SbcImageBuild.DataPartition

/-!
# Overflow of sector numbers

The values that `validate_board_profile` and `compute_partition_layout` compute in signed words,
against the same formulas over the integers.
-/
namespace SectorOverflow

open ShellText BoardProfile DiskGeometry SignedWord DataPartition

/-- What `validate_board_profile` computes before it compares. -/
structure ProfileSectors where
  bootStartSector : ℤ
  rootStartMib : ℤ
  availableRootMib : ℤ
  deriving DecidableEq

def profileSectorsWords (v : Vars) : Except Text ProfileSectors := do
  let bootStart ← evaluateWord v.bootStartMib
  let bootSize ← evaluateWord v.bootSizeMib
  let imageSize ← evaluateWord v.imageSizeMib
  let rootStartMib := word (bootStart + bootSize)
  pure ⟨word (bootStart * 2048), rootStartMib, word (word (imageSize - rootStartMib) - 1)⟩

def profileSectors (v : Vars) : Except Text ProfileSectors := do
  let bootStart ← evaluate v.bootStartMib
  let bootSize ← evaluate v.bootSizeMib
  let imageSize ← evaluate v.imageSizeMib
  let rootStartMib := bootStart + bootSize
  pure ⟨bootStart * 2048, rootStartMib, imageSize - rootStartMib - 1⟩

/-- The globals that `compute_partition_layout` sets before `DATA_LAST_SECTOR`. -/
def earlierSectorsWords (p : Vars) (rootfsBytes : ℕ) : Except Text PartitionLayout := do
  let imageSectors := word ((← evaluateWord p.imageSizeMib) * 2048)
  let bootFirstSector := word ((← evaluateWord p.bootStartMib) * 2048)
  let bootSectors := word ((← evaluateWord p.bootSizeMib) * 2048)
  let bootLastSector := word (word (bootFirstSector + bootSectors) - 1)
  let rootFirstSector := word (bootLastSector + 1)
  let diskLastUsableSector := word (imageSectors - 34)
  if p.rootfsMode = roOverlay then
    let rootMib := rootMibWord rootfsBytes
    let rootSectors := word (rootMib * 2048)
    let rootLastSector := word (word (rootFirstSector + rootSectors) - 1)
    pure ⟨imageSectors, bootFirstSector, bootSectors, bootLastSector, rootFirstSector,
      some rootMib, some rootSectors, rootLastSector, some (word (rootLastSector + 1)), none,
      diskLastUsableSector⟩
  else
    pure ⟨imageSectors, bootFirstSector, bootSectors, bootLastSector, rootFirstSector,
      none, none, diskLastUsableSector, none, none, diskLastUsableSector⟩

def earlierSectors (p : Vars) (rootfsBytes : ℕ) : Except Text PartitionLayout := do
  let imageSectors := (← evaluate p.imageSizeMib) * 2048
  let bootFirstSector := (← evaluate p.bootStartMib) * 2048
  let bootSectors := (← evaluate p.bootSizeMib) * 2048
  let bootLastSector := bootFirstSector + bootSectors - 1
  let rootFirstSector := bootLastSector + 1
  let diskLastUsableSector := imageSectors - 34
  if p.rootfsMode = roOverlay then
    let rootSectors : ℤ := rootMib rootfsBytes * 2048
    let rootLastSector := rootFirstSector + rootSectors - 1
    pure ⟨imageSectors, bootFirstSector, bootSectors, bootLastSector, rootFirstSector,
      some (rootMib rootfsBytes : ℤ), some rootSectors, rootLastSector, some (rootLastSector + 1),
      none, diskLastUsableSector⟩
  else
    pure ⟨imageSectors, bootFirstSector, bootSectors, bootLastSector, rootFirstSector,
      none, none, diskLastUsableSector, none, none, diskLastUsableSector⟩

/-- The last of the globals, computed from those before it. -/
def withDataLast (p : Vars) (dataLast : Vars → ℤ → ℤ → Except Text ℤ) (l : PartitionLayout) :
    Except Text PartitionLayout :=
  match l.dataFirstSector with
  | some first =>
    (dataLast p first l.diskLastUsableSector).map fun last => { l with dataLastSector := some last }
  | none => .ok l

/-- No value wraps around, and what was accepted meets the constraints over the integers. -/
structure ExactSectors (p : Vars) (rootfsBytes : ℕ) : Prop where
  validated : profileSectorsWords p = profileSectors p
  earlier : earlierSectorsWords p rootfsBytes = earlierSectors p rootfsBytes
  layout : computePartitionLayoutWords p rootfsBytes = computePartitionLayout p rootfsBytes
  constraints : validateGeometry p = .ok ()

/-- The image and everything in it end before the sector `2 ^ 63`. The data partition may end with
the last sector before it. -/
structure InRange (p : Vars) (rootfsBytes : ℕ) : Prop where
  image : decimal p.imageSizeMib < 2 ^ 52
  boot : decimal p.bootStartMib + decimal p.bootSizeMib < 2 ^ 52
  root : p.rootfsMode = roOverlay →
    decimal p.bootStartMib + decimal p.bootSizeMib + rootMib rootfsBytes < 2 ^ 52
  data : p.rootfsMode = roOverlay → decimal p.dataSizeMib < 2 ^ 63 ∧
    ∀ size, arithmetic p.dataSizeMib = some size →
      decimal p.bootStartMib + decimal p.bootSizeMib + rootMib rootfsBytes + size ≤ 2 ^ 52

/-! ## The values and the functions that compute them -/

theorem validateGeometryWords_eq (v : Vars) : validateGeometryWords v = (do
    let s ← profileSectorsWords v
    require (testInteger (· < ·) (testOperand v.idblockSector) (testOperand v.ubootSector))
      "IDBLOCK_SECTOR must be before UBOOT_SECTOR".toList
    require (testInteger (· ≥ ·) (testOperand v.idblockSector) (some 34))
      "IDBLOCK_SECTOR overlaps the primary GPT".toList
    require (testInteger (· < ·) (testOperand v.ubootSector) (some s.bootStartSector))
      "UBOOT_SECTOR must be before the boot partition".toList
    require (testInteger (· ≥ ·) (testOperand v.bootStartMib) (some 16))
      "BOOT_START_MIB must reserve at least the first 16 MiB".toList
    require (testInteger (· > ·) (some s.availableRootMib) (some 0))
      "IMAGE_SIZE_MIB is too small for the configured boot partition".toList
    require (testInteger (· ≤ ·) (testOperand v.rootfsSizeMib) (some s.availableRootMib))
      "ROOTFS_SIZE_MIB exceeds the root partition capacity".toList) := by
  simp only [validateGeometryWords, profileSectorsWords, bind_assoc, pure_bind]

theorem map_eq_bind {α β : Type} (x : Except Text α) (f : α → β) :
    x.map f = x >>= fun a => pure (f a) := by
  cases x with
  | error e => rfl
  | ok a => rfl

theorem computePartitionLayoutWords_eq (p : Vars) (rootfsBytes : ℕ) :
    computePartitionLayoutWords p rootfsBytes =
      earlierSectorsWords p rootfsBytes >>= withDataLast p dataLastSectorWord := by
  by_cases overlay : p.rootfsMode = roOverlay
  · simp only [computePartitionLayoutWords, earlierSectorsWords, if_pos overlay, bind_assoc,
      pure_bind, withDataLast, map_eq_bind]
  · simp only [computePartitionLayoutWords, earlierSectorsWords, if_neg overlay, bind_assoc,
      pure_bind, withDataLast]
    rfl

theorem computePartitionLayout_eq (p : Vars) (rootfsBytes : ℕ) :
    computePartitionLayout p rootfsBytes =
      earlierSectors p rootfsBytes >>= withDataLast p dataLastSector := by
  by_cases overlay : p.rootfsMode = roOverlay
  · simp only [computePartitionLayout, earlierSectors, if_pos overlay, bind_assoc, pure_bind,
      withDataLast, map_eq_bind]
    rfl
  · simp only [computePartitionLayout, earlierSectors, if_neg overlay, bind_assoc, pure_bind,
      withDataLast]
    rfl

section Exactness

variable {p : Vars} {rootfsBytes : ℕ}

/-- Positive fields are in range whenever their sectors are. -/
theorem profileSectors_exact (reads : Readable p) (image : decimal p.imageSizeMib < 2 ^ 52)
    (boot : decimal p.bootStartMib + decimal p.bootSizeMib < 2 ^ 52) :
    profileSectorsWords p = profileSectors p := by
  simp only [profileSectorsWords, profileSectors, evaluateWord_of_positive reads.imageSize,
    evaluateWord_of_positive reads.bootStart, evaluateWord_of_positive reads.bootSize,
    evaluate_of_positive reads.imageSize, evaluate_of_positive reads.bootStart,
    evaluate_of_positive reads.bootSize, ok_bind]
  simp (disch := omega) only [wrap_of_fits]

/-- The sectors before the data partition are exact if none of them needs more than a word. -/
theorem earlierSectors_exact_iff (reads : Readable p) (bytes : rootfsBytes < 2 ^ 62) :
    earlierSectorsWords p rootfsBytes = earlierSectors p rootfsBytes ↔
      decimal p.imageSizeMib < 2 ^ 52 ∧ decimal p.bootStartMib + decimal p.bootSizeMib < 2 ^ 52 ∧
        (p.rootfsMode = roOverlay →
          decimal p.bootStartMib + decimal p.bootSizeMib + rootMib rootfsBytes < 2 ^ 52) := by
  have root : (rootfsBytes + 1048575 : ℤ) < 2 ^ 63 := by omega
  have slack : rootMib rootfsBytes < 2 ^ 43 := by
    unfold rootMib
    omega
  simp only [earlierSectorsWords, earlierSectors, evaluateWord_of_positive reads.imageSize,
    evaluateWord_of_positive reads.bootStart, evaluateWord_of_positive reads.bootSize,
    evaluate_of_positive reads.imageSize, evaluate_of_positive reads.bootStart,
    evaluate_of_positive reads.bootSize, ok_bind, rootMibWord_eq root, wrap_mul_left]
  simp only [wrap_add_left, wrap_add_right, wrap_sub_left]
  by_cases overlay : p.rootfsMode = roOverlay
  · simp only [overlay, if_true, true_implies, pure, Except.pure, Except.ok.injEq,
      PartitionLayout.mk.injEq, Option.some.injEq, wrap_eq_self_iff, true_and]
    omega
  · simp only [overlay, if_false, false_implies, pure, Except.pure, Except.ok.injEq,
      PartitionLayout.mk.injEq, wrap_eq_self_iff, true_and, and_true]
    omega

/-- The last sector of the data is exact if `test` accepts the size and the sum is in range. A size
that `test` refuses selects the branch of the size 0, which ends elsewhere. -/
theorem dataLastSector_exact_iff (digits : AllDigits p.dataSizeMib) (image : ℕ) {start : ℕ}
    (hstart : start < 2 ^ 52) :
    dataLastSectorWord p (start * 2048) (image * 2048 - 34) =
        dataLastSector p (start * 2048) (image * 2048 - 34) ↔
      decimal p.dataSizeMib < 2 ^ 63 ∧
        ∀ size, arithmetic p.dataSizeMib = some size → start + size ≤ 2 ^ 52 := by
  unfold dataLastSectorWord dataLastSector evaluateWord evaluate
  rcases Nat.eq_zero_or_pos (decimal p.dataSizeMib) with zero | positive
  · have refused : ¬ testInteger (· > ·) (testOperand p.dataSizeMib) (some 0) = true :=
      fun taken => by simpa [zero] using ((test_dataSize _).mp taken).1
    rw [if_neg refused, if_neg (by omega)]
    refine ⟨fun _ => ⟨by omega, fun size hsize => ?_⟩, fun _ => rfl⟩
    have bounds := arithmetic_bounds digits hsize
    omega
  by_cases small : decimal p.dataSizeMib < 2 ^ 63
  · have taken : testInteger (· > ·) (testOperand p.dataSizeMib) (some 0) = true :=
      (test_dataSize _).mpr ⟨positive, by omega⟩
    rw [if_pos taken, if_pos positive]
    cases hsize : arithmetic p.dataSizeMib with
    | none => simpa [Except.map] using small
    | some size =>
      have nonneg := (arithmetic_bounds digits hsize).1
      simp only [Except.map, Except.ok.injEq, wrap_add_right, wrap_sub_left, wrap_mul_left,
        wrap_eq_self_iff, Option.some.injEq, forall_eq', small, true_and]
      omega
  · have refused : ¬ testInteger (· > ·) (testOperand p.dataSizeMib) (some 0) = true :=
      fun taken => small (by exact_mod_cast ((test_dataSize _).mp taken).2)
    rw [if_neg refused, if_pos positive]
    cases hsize : arithmetic p.dataSizeMib with
    | none => simpa [Except.map] using small
    | some size =>
      simp only [Except.map, Except.ok.injEq, small, false_and, iff_false]
      omega

theorem withDataLast_eq_iff {l : PartitionLayout} {first : ℤ}
    (hfirst : l.dataFirstSector = some first)
    {f g : Vars → ℤ → ℤ → Except Text ℤ} : withDataLast p f l = withDataLast p g l ↔
      f p first l.diskLastUsableSector = g p first l.diskLastUsableSector := by
  simp only [withDataLast, hfirst]
  cases f p first l.diskLastUsableSector <;> cases g p first l.diskLastUsableSector <;>
    simp [Except.map]

/-- The whole layout is exact if the sectors before the data are, and the last one is. -/
theorem layout_exact_iff (reads : Readable p) (bytes : rootfsBytes < 2 ^ 62)
    (earlier : earlierSectorsWords p rootfsBytes = earlierSectors p rootfsBytes) :
    computePartitionLayoutWords p rootfsBytes = computePartitionLayout p rootfsBytes ↔
      (p.rootfsMode = roOverlay → decimal p.dataSizeMib < 2 ^ 63 ∧
        ∀ size, arithmetic p.dataSizeMib = some size →
          decimal p.bootStartMib + decimal p.bootSizeMib + rootMib rootfsBytes + size ≤
            2 ^ 52) := by
  obtain ⟨-, -, root⟩ := (earlierSectors_exact_iff reads bytes).mp earlier
  rw [computePartitionLayoutWords_eq, computePartitionLayout_eq, earlier]
  simp only [earlierSectors, evaluate_of_positive reads.imageSize,
    evaluate_of_positive reads.bootStart, evaluate_of_positive reads.bootSize, ok_bind]
  by_cases overlay : p.rootfsMode = roOverlay
  · have start : (decimal p.bootStartMib * 2048 + decimal p.bootSizeMib * 2048 - 1 + 1 +
        rootMib rootfsBytes * 2048 - 1 + 1 : ℤ) =
        (decimal p.bootStartMib + decimal p.bootSizeMib + rootMib rootfsBytes : ℕ) * 2048 := by
      push_cast
      ring
    have last := dataLastSector_exact_iff reads.dataSize (decimal p.imageSizeMib) (root overlay)
    simp only [overlay, if_true, true_implies, pure, Except.pure, start]
    rw [ok_bind, ok_bind, withDataLast_eq_iff rfl, last]
    push_cast
    rfl
  · simp [overlay, withDataLast]

end Exactness

theorem operands_of_test {holds : ℤ → ℤ → Bool} {left right : Option ℤ}
    (h : testInteger holds left right = true) : left.isSome ∧ right.isSome := by
  cases left with
  | none => cases h
  | some n =>
    cases right with
    | none => cases h
    | some m => exact ⟨rfl, rfl⟩

theorem isSome_testOperand {t : Text} : (testOperand t).isSome ↔ (decimal t : ℤ) < 2 ^ 63 := by
  unfold testOperand
  split <;> simp_all

/-- The operands of the comparisons that succeeded. -/
theorem operands_of_ok {v : Vars} {u : Unit} (h : validateGeometryWords v = .ok u) :
    (decimal v.idblockSector : ℤ) < 2 ^ 63 ∧ (decimal v.ubootSector : ℤ) < 2 ^ 63 ∧
      (decimal v.rootfsSizeMib : ℤ) < 2 ^ 63 := by
  rw [validateGeometryWords_eq] at h
  simp only [bind_ok, require_ok] at h
  obtain ⟨_, -, _, sectors, _, -, _, -, _, -, _, -, room⟩ := h
  exact ⟨isSome_testOperand.mp (operands_of_test sectors).1,
    isSome_testOperand.mp (operands_of_test sectors).2,
    isSome_testOperand.mp (operands_of_test room).1⟩

/-- What the words let through in this range meets the constraints over the integers. -/
theorem constraints_of_accepted {fileExists : Text → Bool} {env p : Vars}
    (accepted : validateBoardProfileWith validateGeometryWords fileExists env = .ok p)
    (image : decimal p.imageSizeMib < 2 ^ 52)
    (boot : decimal p.bootStartMib + decimal p.bootSizeMib < 2 ^ 52) :
    validateGeometry p = .ok () := by
  simp only [validateBoardProfileWith, bind_ok, require_ok, forM_require_ok] at accepted
  obtain ⟨_, -, _, -, _, -, _, -, _, -, _, -, _, -, _, fields, _, geometry, _, -, hp⟩ := accepted
  cases hp
  obtain ⟨idblock, uboot, rootfs⟩ := operands_of_ok geometry
  have room : decimal (profileDefaults env).bootStartMib +
      decimal (profileDefaults env).bootSizeMib < 2 ^ 52 := boot
  have within : FieldsWithin (profileDefaults env) :=
    ⟨idblock, uboot, rootfs, by exact_mod_cast image.trans (by decide), by omega⟩
  exact (validateGeometryWords_integers within fields).mp geometry

/-- The values are exact exactly for a profile whose partitions end within a word. -/
theorem sectors_exact_iff {fileExists : Text → Bool} {env p : Vars}
    (accepted : validateBoardProfileWith validateGeometryWords fileExists env = .ok p)
    {rootfsBytes : ℕ} (bytes : rootfsBytes < 2 ^ 62) :
    ExactSectors p rootfsBytes ↔ InRange p rootfsBytes := by
  have reads := validateBoardProfileWith_readable accepted
  constructor
  · intro exact
    obtain ⟨image, boot, root⟩ := (earlierSectors_exact_iff reads bytes).mp exact.earlier
    exact ⟨image, boot, root, (layout_exact_iff reads bytes exact.earlier).mp exact.layout⟩
  · rintro ⟨image, boot, root, data⟩
    have earlier := (earlierSectors_exact_iff reads bytes).mpr ⟨image, boot, root⟩
    refine ⟨profileSectors_exact reads image boot, earlier,
      (layout_exact_iff reads bytes earlier).mpr data, ?_⟩
    exact constraints_of_accepted accepted image boot

theorem sectors_exact_rock5c : ExactSectors (sizedResult "512".toList) 1048577 := by
  have accepted : validateBoardProfileWith validateGeometryWords (fun _ => true)
      (sizedProfile "512".toList) = .ok (sizedResult "512".toList) := by
    unfold sizedResult sizedProfile rock5c
    repeat rw [String.toList_ofList]
    decide +kernel
  have layout : decimal (sizedResult "512".toList).imageSizeMib = 2048 ∧
      decimal (sizedResult "512".toList).bootStartMib = 16 ∧
      decimal (sizedResult "512".toList).bootSizeMib = 256 ∧
      decimal (sizedResult "512".toList).dataSizeMib = 512 ∧
      arithmetic (sizedResult "512".toList).dataSizeMib = some 512 ∧ rootMib 1048577 = 3 := by
    unfold sizedResult sizedProfile rock5c
    repeat rw [String.toList_ofList]
    decide +kernel
  obtain ⟨image, start, boot, data, size, root⟩ := layout
  refine (sectors_exact_iff accepted (by decide)).mpr ⟨?_, ?_, fun _ => ?_, fun _ => ⟨?_, ?_⟩⟩
  · rw [image]
    decide
  · rw [start, boot]
    decide
  · rw [start, boot, root]
    decide
  · rw [data]
    decide
  · intro n hn
    rw [size] at hn
    cases hn
    rw [start, boot, root]
    decide

/-- A boot partition behind `2 ^ 62` MiB whose end wraps around twice. -/
def wrappingProfile : Vars :=
  { rock5c with
    bootStartMib := "4611686018427387920".toList
    bootSizeMib := "9223372036854775807".toList
    sourceManifest := [] }

/-- The profile is accepted, although the image is too small for it and its sectors are wrong. -/
theorem sectors_wrapped : ∃ p,
    validateBoardProfileWith validateGeometryWords (fun _ => true) wrappingProfile = .ok p ∧
    validateGeometry p =
      .error "IMAGE_SIZE_MIB is too small for the configured boot partition".toList ∧
    ¬ ExactSectors p 1048577 := by
  have accepted : validateBoardProfileWith validateGeometryWords (fun _ => true) wrappingProfile =
      .ok (optionalDefaults (profileDefaults wrappingProfile)) := by
    unfold wrappingProfile rock5c
    repeat rw [String.toList_ofList]
    decide +kernel
  have refused : validateGeometry (optionalDefaults (profileDefaults wrappingProfile)) =
      .error "IMAGE_SIZE_MIB is too small for the configured boot partition".toList := by
    unfold wrappingProfile rock5c
    repeat rw [String.toList_ofList]
    decide +kernel
  refine ⟨_, accepted, refused, fun exact => ?_⟩
  have constraints := exact.constraints
  rw [refused] at constraints
  cases constraints

end SectorOverflow
