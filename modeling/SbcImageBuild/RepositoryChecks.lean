import SbcImageBuild.Foundation.ShellFunction
import SbcImageBuild.KernelHook

/-!
# The checks of the repository

`run_check`, `check_kernel_contract` and `self_tests` of `scripts/check.sh`. The checks run as the
condition of an `if`, where `set -e` has no effect.
-/
namespace RepositoryChecks

open Delimited ShellText ShellFunction KernelHook

/-- The files below `PROJECT_DIR`, and the status of a `bash -c` that sources one of them. -/
structure Repository where
  file : Text → Option Text
  bash : Text → ℕ
  scriptDir : Text

def rootfsBaseConfig : Text := "configs/kernel/rootfs-base.config".toList

def buildKernelScript : Text := "scripts/build_kernel.sh".toList

def verifyImageScript : Text := "scripts/verify_image.sh".toList

/-- `grep -Fqx` -/
def HasLine (r : Repository) (path option : Text) : Prop :=
  ∃ text ∈ r.file path, option ∈ records '\n' text

instance (r : Repository) (path option : Text) : Decidable (HasLine r path option) :=
  inferInstanceAs (Decidable (∃ text ∈ r.file path, _))

/-- `grep -Fq` -/
def HasText (r : Repository) (path pattern : Text) : Prop :=
  ∃ text ∈ r.file path, Grep (Has pattern) text

instance (r : Repository) (path pattern : Text) : Decidable (HasText r path pattern) :=
  inferInstanceAs (Decidable (∃ text ∈ r.file path, _))

/-- The class `[:cntrl:]` of the C locale. -/
def isCntrl (c : Char) : Bool := c.toNat < 32 || c.toNat == 127

/-- The pattern `make[^[:cntrl:]]*mrproper`. -/
def MakesMrproper (line : Text) : Prop :=
  ∃ n < line.length + 1, ∃ m < line.length + 1,
    "make".toList <+: line.drop n ∧ n + 4 ≤ m ∧ "mrproper".toList <+: line.drop m ∧
      ∀ c ∈ (line.take m).drop (n + 4), ¬ isCntrl c

instance : DecidablePred MakesMrproper := fun _ =>
  inferInstanceAs (Decidable (∃ n < _, ∃ m < _, _ ∧ _))

/-- The kernel build cleans its source tree. -/
def RunsMrproper (r : Repository) : Prop :=
  ∃ text ∈ r.file buildKernelScript, Grep MakesMrproper text

instance (r : Repository) : Decidable (RunsMrproper r) :=
  inferInstanceAs (Decidable (∃ text ∈ r.file buildKernelScript, _))

def requiredOptions : List Text :=
  ["CONFIG_FHANDLE=y".toList, "CONFIG_SERIAL_AMBA_PL011=y".toList,
    "CONFIG_SERIAL_AMBA_PL011_CONSOLE=y".toList, "CONFIG_VIRTIO=y".toList,
    "CONFIG_VIRTIO_MMIO=y".toList, "CONFIG_VIRTIO_BLK=y".toList, "CONFIG_VIRTIO_NET=y".toList,
    "CONFIG_HW_RANDOM_VIRTIO=y".toList, "CONFIG_RTC_DRV_PL031=y".toList]

def sourceTreePatterns : List Text :=
  ["required_configs=(".toList, "CONFIG_MALI_CSF_INCLUDE_FW=y".toList,
    "drivers/gpu/arm/bifrost/mali_csffw.bin".toList, "KERNEL_SCMVERSION_FILE".toList,
    "prepare_kernel_source_view".toList, "kernel_source_view=symlink-clean-v1".toList]

def releasePatterns : List Text :=
  ["GIT_CEILING_DIRECTORIES".toList, "\"LOCALVERSION=\"".toList, "GIT_WORK_TREE".toList,
    "fdtput -d \"$\x7bKERNEL_DTB_PATH\x7d\" /chosen bootargs".toList,
    "dtb_bootargs=extlinux-only-v1".toList]

def partitionDtbPattern : Text := "verify_extlinux_dtb \"$\x7bDTB_IMAGE\x7d\"".toList

def packageDtbPattern : Text :=
  "verify_extlinux_dtb \"$\x7bWORK_DIR\x7d/$\x7bKERNEL_DTB\x7d\"".toList

def patternAssertion (r : Repository) (path pattern : Text) : Assertion :=
  ⟨.plain, HasText r path pattern⟩

/-- The commands of the function before its last one. -/
def kernelContractFront (r : Repository) : List Assertion :=
  requiredOptions.map (fun option => ⟨.orReturn, HasLine r rootfsBaseConfig option⟩) ++
    sourceTreePatterns.map (patternAssertion r buildKernelScript) ++
    [⟨.ifReturn, ¬ RunsMrproper r⟩] ++
    releasePatterns.map (patternAssertion r buildKernelScript) ++
    [patternAssertion r verifyImageScript partitionDtbPattern]

def checkKernelContract (r : Repository) : List Assertion :=
  kernelContractFront r ++ [patternAssertion r verifyImageScript packageDtbPattern]

def sourceCommon (r : Repository) (commands : Text) : Text :=
  "source '".toList ++ r.scriptDir ++ "/lib/common.sh'; ".toList ++ commands

def missingBoard : Text := "BOARD=missing-board; load_board_profile".toList

def invalidRootfs : Text := "ROOTFS=invalid; validate_rootfs_choice".toList

def resetParent : Text :=
  ("p=$(mktemp -d); safe_reset_dir \"$\x7bp\x7d\" \"$\x7bp\x7d\"; rm -rf \"$\x7bp\x7d\"").toList

/-- `expect_failure bash -c`, which succeeds when its scenario fails. -/
def expectFailure (r : Repository) (commands : Text) : Assertion :=
  ⟨.plain, r.bash (sourceCommon r commands) ≠ 0⟩

def selfTests (r : Repository) : List Assertion :=
  [expectFailure r missingBoard, expectFailure r invalidRootfs] ++ [expectFailure r resetParent]

/-- The number of failures after `run_check`. -/
def runCheck (check : List Assertion) (failures : ℕ) : ℕ :=
  if body false check true = some true then failures else failures + 1

theorem runCheck_eq_iff (check : List Assertion) (failures : ℕ) :
    runCheck check failures = failures ↔ body false check true = some true := by
  rw [runCheck]
  split
  · exact iff_of_true rfl ‹_›
  · exact iff_of_false (by omega) ‹_›

/-- A check that does not count a failure is sound for the assertions that its status shows. -/
theorem runCheck_sound_iff (front : List Assertion) (last : Assertion) (failures : ℕ) :
    (runCheck (front ++ [last]) failures = failures → ∀ a ∈ front ++ [last], a.holds) ↔
      (∃ a ∈ front, a.guard ≠ .plain ∧ ¬ a.holds) ∨ ¬ last.holds ∨
        ∀ a ∈ front, a.guard = .plain → a.holds := by
  rw [runCheck_eq_iff, sound_iff, ← or_assoc]
  apply or_congr
  · constructor
    · rintro ⟨a, ha, hfails⟩
      rcases mem_noticed_concat.mp ha with ⟨hfront, hg⟩ | rfl
      · exact .inl ⟨a, hfront, hg, hfails⟩
      · exact .inr hfails
    · rintro (⟨a, hfront, hg, hfails⟩ | hfails)
      · exact ⟨a, mem_noticed_concat.mpr (.inl ⟨hfront, hg⟩), hfails⟩
      · exact ⟨last, mem_noticed_concat.mpr (.inr rfl), hfails⟩
  · constructor
    · intro h a ha hg
      exact h a (mem_unnoticed_concat.mpr ⟨ha, hg⟩)
    · intro h a ha
      have hplain := mem_unnoticed_concat.mp ha
      exact h a hplain.1 hplain.2

theorem mem_kernelContractFront {r : Repository} {a : Assertion} :
    a ∈ kernelContractFront r ↔
      (∃ option ∈ requiredOptions, a = ⟨.orReturn, HasLine r rootfsBaseConfig option⟩) ∨
      (∃ pattern ∈ sourceTreePatterns ++ releasePatterns,
        a = patternAssertion r buildKernelScript pattern) ∨
      a = ⟨.ifReturn, ¬ RunsMrproper r⟩ ∨
      a = patternAssertion r verifyImageScript partitionDtbPattern := by
  simp only [kernelContractFront, List.mem_append, List.mem_map, List.mem_singleton]
  constructor
  · rintro ((((⟨o, ho, rfl⟩ | ⟨p, hp, rfl⟩) | rfl) | ⟨p, hp, rfl⟩) | rfl)
    · exact .inl ⟨o, ho, rfl⟩
    · exact .inr (.inl ⟨p, .inl hp, rfl⟩)
    · exact .inr (.inr (.inl rfl))
    · exact .inr (.inl ⟨p, .inr hp, rfl⟩)
    · exact .inr (.inr (.inr rfl))
  · rintro (⟨o, ho, rfl⟩ | ⟨p, hp | hp, rfl⟩ | rfl | rfl)
    · exact .inl (.inl (.inl (.inl ⟨o, ho, rfl⟩)))
    · exact .inl (.inl (.inl (.inr ⟨p, hp, rfl⟩)))
    · exact .inl (.inr ⟨p, hp, rfl⟩)
    · exact .inl (.inl (.inr rfl))
    · exact .inr rfl

/-- A required option is missing, or the build script cleans the source tree. -/
theorem exists_returning_iff (r : Repository) :
    (∃ a ∈ kernelContractFront r, a.guard ≠ .plain ∧ ¬ a.holds) ↔
      (∃ option ∈ requiredOptions, ¬ HasLine r rootfsBaseConfig option) ∨ RunsMrproper r := by
  constructor
  · rintro ⟨a, ha, hg, hfails⟩
    rcases mem_kernelContractFront.mp ha with ⟨option, ho, rfl⟩ | ⟨pattern, -, rfl⟩ | rfl | rfl
    · exact .inl ⟨option, ho, by simpa using hfails⟩
    · exact absurd rfl hg
    · exact .inr (by simpa using hfails)
    · exact absurd rfl hg
  · rintro (⟨option, ho, hmissing⟩ | hruns)
    · exact ⟨_, mem_kernelContractFront.mpr (.inl ⟨option, ho, rfl⟩), by simp, by simpa⟩
    · exact ⟨_, mem_kernelContractFront.mpr (.inr (.inr (.inl rfl))), by simp, by simpa⟩

theorem forall_plain_iff (r : Repository) :
    (∀ a ∈ kernelContractFront r, a.guard = .plain → a.holds) ↔
      (∀ pattern ∈ sourceTreePatterns ++ releasePatterns, HasText r buildKernelScript pattern) ∧
        HasText r verifyImageScript partitionDtbPattern := by
  constructor
  · intro h
    refine ⟨fun pattern hp => ?_, ?_⟩
    · have hholds := h _ (mem_kernelContractFront.mpr (.inr (.inl ⟨pattern, hp, rfl⟩))) rfl
      exact of_decide_eq_true hholds
    · have hholds := h _ (mem_kernelContractFront.mpr (.inr (.inr (.inr rfl)))) rfl
      exact of_decide_eq_true hholds
  · rintro ⟨hbuild, hverify⟩ a ha hg
    rcases mem_kernelContractFront.mp ha with ⟨option, -, rfl⟩ | ⟨pattern, hp, rfl⟩ | rfl | rfl
    · cases hg
    · exact decide_eq_true (hbuild pattern hp)
    · cases hg
    · exact decide_eq_true hverify

theorem kernelContract_sound_iff (r : Repository) (failures : ℕ) :
    (runCheck (checkKernelContract r) failures = failures →
        ∀ a ∈ checkKernelContract r, a.holds) ↔
      ((∃ option ∈ requiredOptions, ¬ HasLine r rootfsBaseConfig option) ∨ RunsMrproper r) ∨
        ¬ HasText r verifyImageScript packageDtbPattern ∨
        (∀ pattern ∈ sourceTreePatterns ++ releasePatterns,
            HasText r buildKernelScript pattern) ∧
          HasText r verifyImageScript partitionDtbPattern := by
  rw [checkKernelContract, runCheck_sound_iff, exists_returning_iff, forall_plain_iff]
  simp [patternAssertion]

theorem selfTests_sound_iff (r : Repository) (failures : ℕ) :
    (runCheck (selfTests r) failures = failures → ∀ a ∈ selfTests r, a.holds) ↔
      r.bash (sourceCommon r resetParent) = 0 ∨
        r.bash (sourceCommon r missingBoard) ≠ 0 ∧
          r.bash (sourceCommon r invalidRootfs) ≠ 0 := by
  rw [selfTests, runCheck_sound_iff]
  simp [expectFailure]

/-- Which failures of the kernel contract, and which failing scenarios, the checks can miss. -/
theorem runCheck_sound (r : Repository) (failures : ℕ) :
    ((runCheck (checkKernelContract r) failures = failures →
        ∀ a ∈ checkKernelContract r, a.holds) ↔
      ((∃ option ∈ requiredOptions, ¬ HasLine r rootfsBaseConfig option) ∨ RunsMrproper r) ∨
        ¬ HasText r verifyImageScript packageDtbPattern ∨
        (∀ pattern ∈ sourceTreePatterns ++ releasePatterns,
            HasText r buildKernelScript pattern) ∧
          HasText r verifyImageScript partitionDtbPattern) ∧
    ((runCheck (selfTests r) failures = failures → ∀ a ∈ selfTests r, a.holds) ↔
      r.bash (sourceCommon r resetParent) = 0 ∨
        r.bash (sourceCommon r missingBoard) ≠ 0 ∧
          r.bash (sourceCommon r invalidRootfs) ≠ 0) :=
  ⟨kernelContract_sound_iff r failures, selfTests_sound_iff r failures⟩

/-- All options are configured, and the script that builds the kernel is empty. -/
def gutted : Repository where
  file path :=
    if path = rootfsBaseConfig then some (terminate '\n' requiredOptions)
    else if path = buildKernelScript then some []
    else if path = verifyImageScript then some (terminate '\n' [packageDtbPattern])
    else none
  bash _ := 1
  scriptDir := "/work/scripts".toList

theorem gutted_buildKernel : gutted.file buildKernelScript = some [] := by
  rfl

theorem gutted_hasOption {option : Text} (h : option ∈ requiredOptions) :
    HasLine gutted rootfsBaseConfig option := by
  refine ⟨_, rfl, mem_records_terminate ?_ h⟩
  revert option
  decide

theorem gutted_packageDtb : HasText gutted verifyImageScript packageDtbPattern := by
  have hfile : gutted.file verifyImageScript = some (terminate '\n' [packageDtbPattern]) := by
    rfl
  refine ⟨_, hfile, packageDtbPattern, mem_records_terminate ?_ ?_, List.infix_rfl⟩
  · decide
  · exact List.mem_singleton_self _

theorem not_grep_nil (matching : Text → Prop) : ¬ Grep matching [] := by
  rintro ⟨line, hline, -⟩
  cases hline

theorem gutted_unsound : ¬ ∀ (r : Repository) (failures : ℕ),
    (runCheck (checkKernelContract r) failures = failures →
        ∀ a ∈ checkKernelContract r, a.holds) ∧
      (runCheck (selfTests r) failures = failures → ∀ a ∈ selfTests r, a.holds) := by
  intro h
  rcases (kernelContract_sound_iff gutted 0).mp (h gutted 0).1 with
    (⟨option, ho, hmissing⟩ | ⟨text, htext, hgrep⟩) | hlast | ⟨hpatterns, -⟩
  · exact hmissing (gutted_hasOption ho)
  · rw [gutted_buildKernel] at htext
    cases htext
    exact not_grep_nil _ hgrep
  · exact hlast gutted_packageDtb
  · obtain ⟨text, htext, hgrep⟩ := hpatterns _ List.mem_cons_self
    rw [gutted_buildKernel] at htext
    cases htext
    exact not_grep_nil _ hgrep

end RepositoryChecks
