import SbcImageBuild.DiskGeometry
import SbcImageBuild.Foundation.SignedWord

/-!
# The size of the data partition

The shell computes in signed 64-bit words and `test` refuses a larger operand. Here
`compute_partition_layout` and the geometry checks of `validate_board_profile` are followed
with that arithmetic, for every `DATA_SIZE_MIB` the profile check lets through.
-/
namespace DataPartition

open ShellText BoardProfile DiskGeometry SignedWord

/-- The result of one step of an arithmetic expansion. -/
abbrev word (n : ℤ) : ℤ := wrap 63 n

/-- A variable inside an arithmetic expansion; the digits of a constant are not checked for
overflow. -/
def evaluateWord (t : Text) : Except Text ℤ := (evaluate t).map word

/-- A digit string as an operand of `test`. -/
def testOperand (t : Text) : Option ℤ :=
  if (decimal t : ℤ) < 2 ^ 63 then some (decimal t : ℤ) else none

/-- A comparison of `test`; it fails with an operand that is out of range. -/
def testInteger (holds : ℤ → ℤ → Bool) (left right : Option ℤ) : Bool :=
  match left, right with
  | some n, some m => holds n m
  | _, _ => false

/-- The numeric constraints between the fields. -/
def validateGeometryWords (v : Vars) : Except Text Unit := do
  let bootStart ← evaluateWord v.bootStartMib
  let bootSize ← evaluateWord v.bootSizeMib
  let imageSize ← evaluateWord v.imageSizeMib
  let bootStartSector := word (bootStart * 2048)
  let rootStartMib := word (bootStart + bootSize)
  let availableRootMib := word (word (imageSize - rootStartMib) - 1)
  require (testInteger (· < ·) (testOperand v.idblockSector) (testOperand v.ubootSector))
    "IDBLOCK_SECTOR must be before UBOOT_SECTOR".toList
  require (testInteger (· ≥ ·) (testOperand v.idblockSector) (some 34))
    "IDBLOCK_SECTOR overlaps the primary GPT".toList
  require (testInteger (· < ·) (testOperand v.ubootSector) (some bootStartSector))
    "UBOOT_SECTOR must be before the boot partition".toList
  require (testInteger (· ≥ ·) (testOperand v.bootStartMib) (some 16))
    "BOOT_START_MIB must reserve at least the first 16 MiB".toList
  require (testInteger (· > ·) (some availableRootMib) (some 0))
    "IMAGE_SIZE_MIB is too small for the configured boot partition".toList
  require (testInteger (· ≤ ·) (testOperand v.rootfsSizeMib) (some availableRootMib))
    "ROOTFS_SIZE_MIB exceeds the root partition capacity".toList

/-- `validate_board_profile`, with the reading of its numeric constraints as a parameter. -/
def validateBoardProfileWith (validateGeometry : Vars → Except Text Unit)
    (fileExists : Text → Bool) (env : Vars) : Except Text Vars := do
  let v := profileDefaults env
  require (v.rootfsMode = rwExt4 ∨ v.rootfsMode = roOverlay)
    ("Unsupported ROOTFS_MODE=".toList ++ v.rootfsMode ++
      "; expected rw-ext4 or ro-overlay".toList)
  require (AllDigits v.dataSizeMib)
    ("DATA_SIZE_MIB must be a non-negative integer in ".toList ++ v.boardProfile)
  require (v.bootloaderLayout = idblockLayout)
    ("Unsupported BOOTLOADER_LAYOUT=".toList ++ v.bootloaderLayout ++
      ". Known layouts: rockchip-gpt-idblock-extlinux-v1".toList)
  forM (requiredFields v) fun f => require (f.2 ≠ [])
    ("Board profile ".toList ++ v.boardProfile ++ " is missing ".toList ++ f.1)
  require (".dtb".toList <:+ v.kernelDtb) "KERNEL_DTB must name one .dtb file".toList
  require (HasBaud v.console)
    ("CONSOLE must be in <device>,<baud> form (e.g. ttyFIQ0,1500000), got '".toList ++
      v.console ++ "'".toList)
  require (v.ubootPython = "python2".toList ∨ v.ubootPython = "python3".toList)
    ("Unsupported UBOOT_PYTHON=".toList ++ v.ubootPython ++
      "; expected python2 or python3".toList)
  forM (positiveFields v) fun f => require (IsPositiveInteger f.2)
    (f.1 ++ " must be a positive integer in ".toList ++ v.boardProfile)
  validateGeometry v
  validateManifest fileExists v
  pure (optionalDefaults v)

theorem validateBoardProfileWith_integers :
    validateBoardProfileWith validateGeometry = validateBoardProfile := rfl

/-- `ROOT_MIB`: the SquashFS image rounded up, plus one MiB of slack. -/
def rootMibWord (rootfsBytes : ℕ) : ℤ :=
  word (Int.tdiv (word (rootfsBytes + 1048575)) 1048576 + 1)

/-- `DATA_LAST_SECTOR` in `ro-overlay` mode; a failing `test` selects the other branch. -/
def dataLastSectorWord (p : Vars) (dataFirstSector diskLastUsableSector : ℤ) : Except Text ℤ :=
  if testInteger (· > ·) (testOperand p.dataSizeMib) (some 0) then
    (evaluateWord p.dataSizeMib).map fun n =>
      word (word (dataFirstSector + word (n * 2048)) - 1)
  else .ok diskLastUsableSector

def computePartitionLayoutWords (p : Vars) (rootfsBytes : ℕ) : Except Text PartitionLayout := do
  let imageSectors := word ((← evaluateWord p.imageSizeMib) * 2048)
  let bootFirstSector := word ((← evaluateWord p.bootStartMib) * 2048)
  let bootSectors := word ((← evaluateWord p.bootSizeMib) * 2048)
  let bootLastSector := word (word (bootFirstSector + bootSectors) - 1)
  let rootFirstSector := word (bootLastSector + 1)
  let diskLastUsableSector := word (imageSectors - 34)
  if p.rootfsMode = roOverlay then
    let rootMib := rootMibWord rootfsBytes
    let rootSectors := word (rootMib * 2048)
    let rootLastSector := word (word (rootFirstSector + rootSectors) - 1)
    let dataFirstSector := word (rootLastSector + 1)
    let dataLastSector ← dataLastSectorWord p dataFirstSector diskLastUsableSector
    pure ⟨imageSectors, bootFirstSector, bootSectors, bootLastSector, rootFirstSector,
      some rootMib, some rootSectors, rootLastSector, some dataFirstSector,
      some dataLastSector, diskLastUsableSector⟩
  else
    pure ⟨imageSectors, bootFirstSector, bootSectors, bootLastSector, rootFirstSector,
      none, none, diskLastUsableSector, none, none, diskLastUsableSector⟩

/-! ## Agreement with the integers -/

theorem evaluateWord_of_arithmetic {t : Text} {n : ℤ} (h : arithmetic t = some n) :
    evaluateWord t = .ok (word n) := by
  rw [evaluateWord, evaluate_ok.mpr h]
  rfl

theorem evaluateWord_of_positive {t : Text} (h : IsPositiveInteger t) :
    evaluateWord t = .ok (word (decimal t)) :=
  evaluateWord_of_arithmetic (arithmetic_of_positive h)

/-- `ROOT_MIB` as an integer. -/
def rootMib (rootfsBytes : ℕ) : ℕ := (rootfsBytes + 1048575) / 1048576 + 1

theorem rootMibWord_eq {rootfsBytes : ℕ} (h : (rootfsBytes + 1048575 : ℤ) < 2 ^ 63) :
    rootMibWord rootfsBytes = rootMib rootfsBytes := by
  have quotient : Int.tdiv (rootfsBytes + 1048575) 1048576 =
      ((rootfsBytes + 1048575) / 1048576 : ℕ) := by
    rw [Int.tdiv_eq_ediv_of_nonneg (by omega)]
    push_cast
    rfl
  unfold rootMibWord rootMib word
  rw [wrap_of_fits (by omega) h, quotient, wrap_of_fits (by omega) (by omega)]
  push_cast
  rfl

/-- A profile whose numbers stay within a word in every step. -/
structure WithinWords (p : Vars) (rootfsBytes : ℕ) : Prop where
  image : (decimal p.imageSizeMib * 2048 : ℤ) < 2 ^ 63
  rootfs : (rootfsBytes + 1048575 : ℤ) < 2 ^ 63
  partitions : ((decimal p.bootStartMib + decimal p.bootSizeMib + rootMib rootfsBytes +
    decimal p.dataSizeMib) * 2048 : ℤ) < 2 ^ 63

/-! ## Octal and decimal readings -/

theorem numeral_snoc (base : ℕ) (t : Text) (c : Char) :
    numeral base (t ++ [c]) = base * numeral base t + digitValue c := by
  simp [numeral]

theorem digitValue_of_octal {c : Char} (h : isOctalDigit c) : digitValue c ≤ 7 := by
  have hc : '0' ≤ c ∧ c ≤ '7' := by simpa [isOctalDigit] using h
  have high : c.toNat ≤ 55 := hc.2
  change c.toNat - 48 ≤ 7
  omega

theorem digitValue_of_not_octal {c : Char} (digit : isDigit c) (h : ¬ isOctalDigit c) :
    7 < digitValue c := by
  have hc : '0' ≤ c ∧ c ≤ '9' := by simpa [isDigit] using digit
  have high : ¬ c ≤ '7' := fun k => h (by simp [isOctalDigit, hc.1, k])
  have hn : ¬ c.toNat ≤ 55 := high
  change 7 < c.toNat - 48
  omega

/-- The octal value is never greater than the decimal one, and equal only for one figure. -/
theorem octal_decimal (t : Text) (h : ∀ c ∈ t, isOctalDigit c) :
    numeral 8 t ≤ decimal t ∧ (numeral 8 t = decimal t ↔ decimal t ≤ 7) ∧
    (numeral 8 t = 0 ↔ decimal t = 0) := by
  induction t using List.reverseRecOn with
  | nil => simp [decimal, numeral]
  | append_singleton t c ih =>
    obtain ⟨le, same, zero⟩ := ih fun d hd => h d (by simp [hd])
    have figure : digitValue c ≤ 7 := digitValue_of_octal (h c (by simp))
    unfold decimal at le same zero ⊢
    rw [numeral_snoc, numeral_snoc]
    omega

theorem decimal_of_not_octal (t : Text) (digits : ∀ c ∈ t, isDigit c)
    (h : ¬ ∀ c ∈ t, isOctalDigit c) : 7 < decimal t := by
  induction t using List.reverseRecOn with
  | nil => simp at h
  | append_singleton t c ih =>
    unfold decimal at ih ⊢
    rw [numeral_snoc]
    by_cases octal : isOctalDigit c
    · have before := ih (fun d hd => digits d (by simp [hd])) fun k => h (by
        intro d hd
        rcases List.mem_append.mp hd with hd | hd
        · exact k d hd
        · exact List.mem_singleton.mp hd ▸ octal)
      omega
    · have figure := digitValue_of_not_octal (digits c (by simp)) octal
      omega

theorem decimal_leading_zero (t : Text) : decimal ('0' :: t) = decimal t := rfl

/-- Both readings of a digit string: the arithmetic one follows the leading zero. -/
theorem arithmetic_digits {t : Text} (h : AllDigits t) :
    (t.head? ≠ some '0' → arithmetic t = some (decimal t : ℤ)) ∧
    (t.head? = some '0' → arithmetic t = some (decimal t : ℤ) ∧ decimal t ≤ 7 ∨
      arithmetic t = none ∧ 7 < decimal t ∨
      ∃ m : ℕ, arithmetic t = some (m : ℤ) ∧ 0 < m ∧ m < decimal t ∧ 7 < decimal t) := by
  obtain ⟨nonempty, digits⟩ := h
  cases t with
  | nil => exact absurd rfl nonempty
  | cons c t =>
    refine ⟨fun lead => arithmetic_of_leading (by simpa using lead) digits, fun lead => ?_⟩
    have hc : c = '0' := by simpa using lead
    subst hc
    rw [decimal_leading_zero]
    have tail : ∀ d ∈ t, isDigit d := fun d hd => digits d (List.mem_cons_of_mem _ hd)
    cases t with
    | nil => exact .inl ⟨by decide, by decide⟩
    | cons d t =>
      by_cases octal : ∀ e ∈ d :: t, isOctalDigit e
      · obtain ⟨le, same, zero⟩ := octal_decimal _ octal
        have read : arithmetic ('0' :: d :: t) = some (numeral 8 (d :: t) : ℤ) :=
          if_pos (List.all_eq_true.mpr octal)
        by_cases small : decimal (d :: t) ≤ 7
        · exact .inl ⟨by rw [read, same.mpr small], small⟩
        · exact .inr (.inr ⟨_, read, by omega, by omega, by omega⟩)
      · have read : arithmetic ('0' :: d :: t) = none :=
          if_neg fun k => octal (List.all_eq_true.mp k)
        exact .inr (.inl ⟨read, decimal_of_not_octal _ tail octal⟩)

/-- The value of a size lies between 0 and its decimal value, whatever its base. -/
theorem arithmetic_bounds {t : Text} (digits : AllDigits t) {n : ℤ} (hn : arithmetic t = some n) :
    0 ≤ n ∧ n ≤ decimal t := by
  obtain ⟨plain, leading⟩ := arithmetic_digits digits
  by_cases lead : t.head? = some '0'
  · rcases leading lead with ⟨read, -⟩ | ⟨refused, -⟩ | ⟨m, read, -, less, -⟩
    · cases read.symm.trans hn
      omega
    · cases refused.symm.trans hn
    · cases read.symm.trans hn
      omega
  · cases (plain lead).symm.trans hn
    omega

/-! ## The law of the data size -/

/-- What the profile check leaves of the strings, however it reads the numbers. -/
structure Readable (p : Vars) : Prop where
  dataSize : AllDigits p.dataSizeMib
  imageSize : IsPositiveInteger p.imageSizeMib
  bootStart : IsPositiveInteger p.bootStartMib
  bootSize : IsPositiveInteger p.bootSizeMib

theorem validateBoardProfileWith_readable {validateGeometry : Vars → Except Text Unit}
    {fileExists : Text → Bool} {env p : Vars}
    (h : validateBoardProfileWith validateGeometry fileExists env = .ok p) : Readable p := by
  simp only [validateBoardProfileWith, bind_ok, require_ok, forM_require_ok] at h
  obtain ⟨_, -, _, hdata, _, -, _, -, _, -, _, -, _, -, _, hpos, _, -, _, -, hp⟩ := h
  cases hp
  simp only [positiveFields, List.forall_mem_cons] at hpos
  exact ⟨hdata, hpos.1, hpos.2.1, hpos.2.2.1⟩

/-- Where the data partition starts: behind the reserve, the boot and the root partition. -/
def dataStart (p : Vars) (rootfsBytes : ℕ) : ℤ :=
  word ((decimal p.bootStartMib + decimal p.bootSizeMib + rootMibWord rootfsBytes) * 2048)

/-- The layout is computed, and the data partition has the size of the profile; the size 0
stands for the rest of the disk. -/
def DataSizeHonoured (p : Vars) (rootfsBytes : ℕ) : Prop :=
  ∃ l first last, computePartitionLayoutWords p rootfsBytes = .ok l ∧
    l.dataFirstSector = some first ∧ l.dataLastSector = some last ∧
    (0 < decimal p.dataSizeMib → last - first + 1 = decimal p.dataSizeMib * 2048) ∧
    (decimal p.dataSizeMib = 0 → last = l.diskLastUsableSector)

theorem computePartitionLayoutWords_overlay {p : Vars} (reads : Readable p)
    (overlay : p.rootfsMode = roOverlay) (rootfsBytes : ℕ) :
    DataSizeHonoured p rootfsBytes ↔
      ∃ last, dataLastSectorWord p (dataStart p rootfsBytes)
          (word (decimal p.imageSizeMib * 2048 - 34)) = .ok last ∧
        (0 < decimal p.dataSizeMib →
          last - dataStart p rootfsBytes + 1 = decimal p.dataSizeMib * 2048) ∧
        (decimal p.dataSizeMib = 0 → last = word (decimal p.imageSizeMib * 2048 - 34)) := by
  have start : decimal p.bootStartMib * 2048 + decimal p.bootSizeMib * 2048 - 1 + 1 +
      rootMibWord rootfsBytes * 2048 - 1 + 1 =
      (decimal p.bootStartMib + decimal p.bootSizeMib + rootMibWord rootfsBytes) * 2048 := by ring
  simp only [DataSizeHonoured, computePartitionLayoutWords, if_pos overlay,
    evaluateWord_of_positive reads.imageSize, evaluateWord_of_positive reads.bootStart,
    evaluateWord_of_positive reads.bootSize, bind_ok, Except.ok.injEq, exists_eq_left',
    wrap_mul_left]
  simp only [wrap_add_left, wrap_add_right, wrap_sub_left, start]
  constructor
  · rintro ⟨l, first, last, ⟨e, he, hl⟩, hfirst, hlast, law⟩
    cases hl
    cases hfirst
    cases hlast
    exact ⟨_, he, law⟩
  · rintro ⟨last, hlast, law⟩
    exact ⟨_, _, last, ⟨last, hlast, rfl⟩, rfl, rfl, law⟩

/-- The test that selects the branch: false for 0, and for an operand out of range. -/
theorem test_dataSize (t : Text) :
    testInteger (· > ·) (testOperand t) (some 0) = true ↔
      0 < decimal t ∧ (decimal t : ℤ) < 2 ^ 63 := by
  unfold testOperand
  split
  · rename_i small
    simp only [testInteger, gt_iff_lt, decide_eq_true_eq]
    omega
  · rename_i large
    simp only [testInteger, Bool.false_eq_true, false_iff]
    exact fun h => large h.2

/-- Where the arithmetic reading is used, only the last of the three results has to be in
range, and the octal value is the decimal one. -/
theorem dataLastSector_exact {t : Text} (digits : AllDigits t) (positive : 0 < decimal t)
    {first : ℤ} (hfirst : -2 ^ 63 ≤ first ∧ first < 2 ^ 63) :
    (evaluateWord t).map (fun n => word (word (first + word (n * 2048)) - 1)) =
        .ok (first + decimal t * 2048 - 1) ↔
      (t.head? ≠ some '0' ∨ decimal t ≤ 7) ∧ first + decimal t * 2048 ≤ 2 ^ 63 := by
  have computed (n : ℤ) (hn : arithmetic t = some n) :
      (evaluateWord t).map (fun n => word (word (first + word (n * 2048)) - 1)) =
        .ok (wrap 63 (first + n * 2048 - 1)) := by
    simp [evaluateWord_of_arithmetic hn, Except.map]
  have fits : wrap 63 (first + decimal t * 2048 - 1) = first + decimal t * 2048 - 1 ↔
      first + decimal t * 2048 ≤ 2 ^ 63 := by
    rw [wrap_eq_self_iff]
    omega
  obtain ⟨plain, leading⟩ := arithmetic_digits digits
  by_cases lead : t.head? = some '0'
  · rcases leading lead with ⟨read, small⟩ | ⟨refused, great⟩ | ⟨m, read, hm, less, great⟩
    · rw [computed _ read, Except.ok.injEq, fits]
      simp [small]
    · have failed : evaluateWord t = .error "value too great for base".toList := by
        simp [evaluateWord, evaluate, refused, Except.map]
      simp [failed, Except.map, lead, not_le.mpr great]
    · rw [computed _ read, Except.ok.injEq, wrap_eq_iff]
      simp only [lead, ne_eq, not_true_eq_false, not_le.mpr great, or_self, false_and, iff_false]
      omega
  · rw [computed _ (plain lead), Except.ok.injEq, fits]
    simp [lead]

/-- The three readings of the size on a data partition that starts at `first`. -/
theorem dataLastSectorWord_law {p : Vars} (digits : AllDigits p.dataSizeMib) {first rest : ℤ}
    (hfirst : -2 ^ 63 ≤ first ∧ first < 2 ^ 63) (hrest : -2 ^ 63 ≤ rest ∧ rest < 2 ^ 63) :
    (∃ last, dataLastSectorWord p first rest = .ok last ∧
      (0 < decimal p.dataSizeMib → last - first + 1 = decimal p.dataSizeMib * 2048) ∧
      (decimal p.dataSizeMib = 0 → last = rest)) ↔
    decimal p.dataSizeMib = 0 ∨ (p.dataSizeMib.head? ≠ some '0' ∨ decimal p.dataSizeMib ≤ 7) ∧
      first + decimal p.dataSizeMib * 2048 ≤ 2 ^ 63 := by
  unfold dataLastSectorWord
  by_cases taken : testInteger (· > ·) (testOperand p.dataSizeMib) (some 0) = true
  · have positive := ((test_dataSize _).mp taken).1
    have nonzero : decimal p.dataSizeMib ≠ 0 := Nat.pos_iff_ne_zero.mp positive
    rw [if_pos taken]
    simp only [positive, nonzero, true_implies, false_implies, and_true, false_or]
    rw [← dataLastSector_exact digits positive hfirst]
    constructor
    · rintro ⟨last, computed, size⟩
      rw [computed, show last = first + decimal p.dataSizeMib * 2048 - 1 by omega]
    · intro computed
      exact ⟨_, computed, by omega⟩
  · -- the branch of the size 0 also takes an operand that `test` refuses
    have refused := (test_dataSize _).not.mp taken
    rw [if_neg taken]
    simp only [Except.ok.injEq, exists_eq_left']
    rcases Nat.eq_zero_or_pos (decimal p.dataSizeMib) with zero | positive
    · simp [zero]
    · have large : (2 : ℤ) ^ 63 ≤ decimal p.dataSizeMib :=
        not_lt.mp fun small => refused ⟨positive, small⟩
      constructor
      · intro h
        have size := h.1 positive
        omega
      · intro h
        omega

/-- The sizes the layout can honour: 0, or a number without a leading zero or of one figure
whose sectors end within a word. -/
def SizeReadable (p : Vars) (rootfsBytes : ℕ) : Prop :=
  decimal p.dataSizeMib = 0 ∨ (p.dataSizeMib.head? ≠ some '0' ∨ decimal p.dataSizeMib ≤ 7) ∧
    dataStart p rootfsBytes + decimal p.dataSizeMib * 2048 ≤ 2 ^ 63

instance (p : Vars) (rootfsBytes : ℕ) : Decidable (SizeReadable p rootfsBytes) :=
  inferInstanceAs (Decidable (_ ∨ (_ ∨ _) ∧ _))

theorem honoured_of_readable {p : Vars} (reads : Readable p) (overlay : p.rootfsMode = roOverlay)
    (rootfsBytes : ℕ) : DataSizeHonoured p rootfsBytes ↔ SizeReadable p rootfsBytes := by
  rw [computePartitionLayoutWords_overlay reads overlay]
  exact dataLastSectorWord_law reads.dataSize (wrap_bounds _ _) (wrap_bounds _ _)

/-- The data partition has the size of the profile exactly for the readable sizes. -/
theorem data_size_honoured_iff {fileExists : Text → Bool} {env p : Vars}
    (accepted : validateBoardProfileWith validateGeometryWords fileExists env = .ok p)
    (overlay : p.rootfsMode = roOverlay) (rootfsBytes : ℕ) :
    DataSizeHonoured p rootfsBytes ↔ SizeReadable p rootfsBytes :=
  honoured_of_readable (validateBoardProfileWith_readable accepted) overlay rootfsBytes

/-- An overlay profile of the Rock 5C without a manifest, with the data size `size`. -/
def sizedProfile (size : Text) : Vars :=
  { rock5c with rootfsMode := roOverlay, dataSizeMib := size, sourceManifest := [] }

def sizedResult (size : Text) : Vars := optionalDefaults (profileDefaults (sizedProfile size))

theorem data_size_honoured_512 : DataSizeHonoured (sizedResult "512".toList) 1048577 := by
  have accepted : validateBoardProfileWith validateGeometryWords (fun _ => true)
      (sizedProfile "512".toList) = .ok (sizedResult "512".toList) := by
    unfold sizedResult sizedProfile rock5c
    repeat rw [String.toList_ofList]
    decide +kernel
  exact (data_size_honoured_iff accepted (by decide) _).mpr (by decide +kernel)

/-- `DATA_SIZE_MIB=010` is accepted and gives 8 MiB; with `08` the layout is not computed. -/
theorem data_size_leading_zero :
    (validateBoardProfileWith validateGeometryWords (fun _ => true)
        (sizedProfile "010".toList) = .ok (sizedResult "010".toList) ∧
      (sizedResult "010".toList).rootfsMode = roOverlay ∧
      dataLastSectorWord (sizedResult "010".toList) 563200 4194270 =
        .ok (563200 + 8 * 2048 - 1) ∧
      ¬ DataSizeHonoured (sizedResult "010".toList) 1048577) ∧
    validateBoardProfileWith validateGeometryWords (fun _ => true)
        (sizedProfile "08".toList) = .ok (sizedResult "08".toList) ∧
      (sizedResult "08".toList).rootfsMode = roOverlay ∧
      ¬ DataSizeHonoured (sizedResult "08".toList) 1048577 := by
  have octal : validateBoardProfileWith validateGeometryWords (fun _ => true)
      (sizedProfile "010".toList) = .ok (sizedResult "010".toList) := by
    unfold sizedResult sizedProfile rock5c
    repeat rw [String.toList_ofList]
    decide +kernel
  have refused : validateBoardProfileWith validateGeometryWords (fun _ => true)
      (sizedProfile "08".toList) = .ok (sizedResult "08".toList) := by
    unfold sizedResult sizedProfile rock5c
    repeat rw [String.toList_ofList]
    decide +kernel
  refine ⟨⟨octal, by decide, by decide +kernel, ?_⟩, refused, by decide, ?_⟩
  · rw [honoured_of_readable (validateBoardProfileWith_readable octal) (by decide)]
    decide +kernel
  · rw [honoured_of_readable (validateBoardProfileWith_readable refused) (by decide)]
    decide +kernel

theorem dataLastSectorWord_integers {p : Vars} (digits : AllDigits p.dataSizeMib)
    {first rest : ℤ} (low : 0 ≤ first) (high : first + decimal p.dataSizeMib * 2048 < 2 ^ 63) :
    dataLastSectorWord p first rest = dataLastSector p first rest := by
  have small : (decimal p.dataSizeMib : ℤ) < 2 ^ 63 := by omega
  have test : testInteger (· > ·) (testOperand p.dataSizeMib) (some 0) = true ↔
      0 < decimal p.dataSizeMib := by
    rw [test_dataSize]
    exact and_iff_left small
  unfold dataLastSectorWord dataLastSector evaluateWord evaluate
  simp only [test]
  split
  · split
    · rename_i n hn
      obtain ⟨nonneg, le⟩ := arithmetic_bounds digits hn
      simp (disch := omega) only [Except.map, wrap_of_fits]
    · rfl
  · rfl

theorem ok_bind {α β : Type} (a : α) (k : α → Except Text β) : (Except.ok a >>= k) = k a := rfl

/-- Within words the layout is the one over the integers. -/
theorem computePartitionLayoutWords_integers {p : Vars} {rootfsBytes : ℕ} (reads : Readable p)
    (within : WithinWords p rootfsBytes) :
    computePartitionLayoutWords p rootfsBytes = computePartitionLayout p rootfsBytes := by
  obtain ⟨image, rootfs, partitions⟩ := within
  have roundUp : (rootfsBytes + 1048575) / 1048576 + 1 = rootMib rootfsBytes := by
    unfold rootMib
    rfl
  unfold computePartitionLayoutWords computePartitionLayout
  simp only [evaluateWord_of_positive reads.imageSize, evaluateWord_of_positive reads.bootStart,
    evaluateWord_of_positive reads.bootSize, evaluate_of_positive reads.imageSize,
    evaluate_of_positive reads.bootStart, evaluate_of_positive reads.bootSize,
    rootMibWord_eq rootfs, roundUp, ok_bind]
  simp (disch := omega) only [wrap_of_fits]
  rw [dataLastSectorWord_integers reads.dataSize (by omega) (by omega)]

theorem testInteger_some (holds : ℤ → ℤ → Bool) (n m : ℤ) :
    testInteger holds (some n) (some m) = true ↔ holds n m = true := by
  rw [testInteger]

theorem testOperand_eq {t : Text} {n : ℤ} :
    testOperand t = some n ↔ (decimal t : ℤ) < 2 ^ 63 ∧ n = decimal t := by
  unfold testOperand
  split
  · rename_i small
    exact ⟨fun h => ⟨small, (Option.some.inj h).symm⟩, fun h => h.2 ▸ rfl⟩
  · rename_i large
    exact ⟨fun h => absurd h (by simp), fun h => absurd h.1 large⟩

/-- Operands that `test` accepts, and constraints computed within a word. -/
structure FieldsWithin (v : Vars) : Prop where
  idblock : (decimal v.idblockSector : ℤ) < 2 ^ 63
  uboot : (decimal v.ubootSector : ℤ) < 2 ^ 63
  rootfs : (decimal v.rootfsSizeMib : ℤ) < 2 ^ 63
  image : (decimal v.imageSizeMib : ℤ) < 2 ^ 63
  boot : ((decimal v.bootStartMib + decimal v.bootSizeMib + 1) * 2048 : ℤ) ≤ 2 ^ 63

theorem validateGeometryWords_integers {v : Vars} (within : FieldsWithin v)
    (fields : ∀ f ∈ positiveFields v, IsPositiveInteger f.2) {u : Unit} :
    validateGeometryWords v = .ok u ↔ validateGeometry v = .ok u := by
  obtain ⟨idblock, uboot, rootfs, image, boot⟩ := within
  simp only [positiveFields, List.forall_mem_cons] at fields
  obtain ⟨hi, hs, hb, -⟩ := fields
  have start : (decimal v.bootStartMib : ℤ) < 2 ^ 63 := by omega
  have operand (t : Text) (h : (decimal t : ℤ) < 2 ^ 63) : testOperand t = some ↑(decimal t) :=
    testOperand_eq.mpr ⟨h, rfl⟩
  simp only [validateGeometryWords, validateGeometry, evaluateWord_of_positive hi,
    evaluateWord_of_positive hs, evaluateWord_of_positive hb, evaluate_of_positive hi,
    evaluate_of_positive hs, evaluate_of_positive hb, bind_ok, Except.ok.injEq, exists_eq_left',
    require_ok, operand _ idblock, operand _ uboot, operand _ rootfs, operand _ start,
    testInteger_some, decide_eq_true_eq]
  simp (disch := omega) only [wrap_of_fits]
  simp

/-- Within words the check accepts the same profiles as over the integers. -/
theorem validateBoardProfileWith_words {fileExists : Text → Bool} {env p : Vars}
    (within : FieldsWithin (profileDefaults env)) :
    validateBoardProfileWith validateGeometryWords fileExists env = .ok p ↔
      validateBoardProfile fileExists env = .ok p := by
  rw [← validateBoardProfileWith_integers]
  simp only [validateBoardProfileWith, bind_ok, require_ok, forM_require_ok]
  constructor
  · rintro ⟨a, h₁, b, h₂, c, h₃, d, h₄, e, h₅, f, h₆, g, h₇, i, fields, u, geometry, rest⟩
    exact ⟨a, h₁, b, h₂, c, h₃, d, h₄, e, h₅, f, h₆, g, h₇, i, fields, u,
      (validateGeometryWords_integers within fields).mp geometry, rest⟩
  · rintro ⟨a, h₁, b, h₂, c, h₃, d, h₄, e, h₅, f, h₆, g, h₇, i, fields, u, geometry, rest⟩
    exact ⟨a, h₁, b, h₂, c, h₃, d, h₄, e, h₅, f, h₆, g, h₇, i, fields, u,
      (validateGeometryWords_integers within fields).mpr geometry, rest⟩

end DataPartition
