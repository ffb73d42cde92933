import SbcImageBuild.UbootBuild
import SbcImageBuild.KernelPackage
import SbcImageBuild.RootfsProvenance

/-!
# Artifacts of the build stages

What `build_uboot.sh`, `build_kernel.sh`, `build_buildroot.sh` and `build_debian.sh` leave in the
output directory when they complete, and what `make_image.sh` requires there.
-/
namespace StageArtifacts

open ShellText BoardProfile ByteStore StampedFiles UbootBuild KernelPackage RootfsProvenance

inductive Rootfs where
  | buildroot
  | debian
  deriving DecidableEq, Repr

/-- What all stages read from the same environment besides the board profile. -/
structure Environment where
  outputDir : Text
  rootfs : Rootfs
  debianRelease : Text

def resolveDebianRelease (debianRelease : Text) : Except Text Text := do
  let release := orDefault debianRelease "13".toList
  require (release ∈ ["11", "12", "13"].map String.toList)
    ("Unsupported DEBIAN_RELEASE=".toList ++ release ++ "; expected 11, 12, or 13".toList)
  pure release

def rootfsVariant (e : Environment) : Rootfs → Except Text Text
  | .buildroot => .ok "buildroot".toList
  | .debian => (resolveDebianRelease e.debianRelease).map fun release =>
      "debian-".toList ++ release

def commonFile (e : Environment) (p : Vars) (name : Text) : Text :=
  e.outputDir ++ '/' :: p.board ++ ("/common/".toList ++ name)

def variantFile (e : Environment) (p : Vars) (variant name : Text) : Text :=
  e.outputDir ++ '/' :: p.board ++ ('/' :: variant ++ '/' :: name)

def requirePresent (s : Stamps Text) (path description : Text) : Except Text Unit :=
  require (s path).isSome ("Missing ".toList ++ description ++ ": ".toList ++ path)

/-- What `make` leaves below `images/`, and what the file system tools say about the image. -/
structure BuildrootTree where
  buildDir : Text
  ext4 : Option Bytes
  tar : Option Bytes
  label : Text
  e2fsck : Bool
  hasModules : Bool
  hasUser : Bool
  rootEnabled : Bool
  username : Text

/-- The staged root file system; `contents` is the outcome of the checks of its contents. -/
structure DebianTree where
  rootDir : Text
  kernelRelease : Text
  updateInitramfs : Bool
  initrd : Option Bytes
  contents : Except Text Unit

def rootfsModeOf (p : Vars) : RootfsMode :=
  if p.rootfsMode = roOverlay then .roOverlay else .rwExt4

def outputName : OutputFile → Text
  | .initrd => "initrd.img".toList
  | .rootfsTar => "rootfs.tar".toList
  | .ext4 => "rootfs.ext4".toList
  | .squashfs => "rootfs.squashfs".toList
  | .rootfsBuildInfo => "rootfs-build-info.txt".toList

/-- The names that `build_uboot.sh` writes in the common directory, behind the removal of the old
`loader.bin`. -/
def ubootFiles (b : BootChain) : List Text :=
  ["download-loader.bin".toList, "idblock.img".toList, "uboot.img".toList] ++
    (b.trust.toList.map fun _ => "trust.img".toList) ++
    (b.itb.toList.map fun _ => "u-boot.itb".toList) ++ ["uboot-build-info.txt".toList]

def kernelFiles (p : Vars) (a : KernelArtifacts) : List Text :=
  ["Image".toList, p.kernelDtb, "kernel.config".toList, "kernel-release".toList] ++
    (a.overlays.map fun o => "overlays/".toList ++ o.1) ++ ["modules.tar".toList] ++
    (a.systemMap.toList.map fun _ => "System.map".toList) ++ ["kernel-build-info.txt".toList]

def buildrootFiles : List Text :=
  ["rootfs.ext4".toList, "rootfs.tar".toList, "buildroot.config".toList,
   "rootfs-build-info.txt".toList]

/-- The kernel artifacts that both root file systems are built from. -/
def requireKernel (e : Environment) (p : Vars) (s : Stamps Text) : Except Text Unit := do
  requirePresent s (commonFile e p "modules.tar".toList)
    "kernel modules archive; run build-kernel first".toList
  requirePresent s (commonFile e p "kernel-release".toList)
    "kernel release; run build-kernel first".toList

def buildBuildroot (e : Environment) (p : Vars) (s : Stamps Text) (b : BuildrootTree) :
    Except Text (List (Effect Text)) := do
  let variant ← rootfsVariant e .buildroot
  requireKernel e p s
  require b.ext4.isSome ("Missing Buildroot ext4 rootfs: ".toList ++ b.buildDir ++
    "/images/rootfs.ext4".toList)
  require b.tar.isSome ("Missing Buildroot rootfs tarball: ".toList ++ b.buildDir ++
    "/images/rootfs.tar".toList)
  require (b.label = "rootfs".toList) "Buildroot rootfs label is not rootfs".toList
  require b.e2fsck []
  require b.hasModules "Buildroot rootfs does not contain modules".toList
  require b.hasUser ("Buildroot rootfs does not contain user ".toList ++ b.username)
  require b.rootEnabled "Buildroot root account is not enabled".toList
  pure (buildrootFiles.map fun name => .create (variantFile e p variant name))

def buildDebian (e : Environment) (p : Vars) (s : Stamps Text) (d : DebianTree) :
    Except Text (List (Effect Text)) := do
  let variant ← rootfsVariant e .debian
  requireKernel e p s
  if p.rootfsMode = roOverlay then
    require d.updateInitramfs
      "ro-overlay requires the initramfs-tools package in the rootfs".toList
    require d.initrd.isSome ("Missing generated initramfs: ".toList ++ d.rootDir ++
      "/boot/initrd.img-".toList ++ d.kernelRelease)
  d.contents
  pure ((buildEffects (rootfsModeOf p)).map
    (Effect.map fun f => variantFile e p variant (outputName f)))

/-- A stage with what its tools have left behind for it. -/
inductive Stage where
  | uboot (t : UbootTree)
  | kernel (k : KernelTree)
  | buildroot (b : BuildrootTree)
  | debian (d : DebianTree)

/-- What a stage that completes does to the output directory. -/
def stageEffects (e : Environment) (p : Vars) (s : Stamps Text) :
    Stage → Except Text (List (Effect Text))
  | .uboot t => do
    let b ← packBootChain p t
    pure (.remove (commonFile e p "loader.bin".toList) ::
      (ubootFiles b).map fun name => .create (commonFile e p name))
  | .kernel k => do
    let a ← packageKernel p k
    pure ((kernelFiles p a).map fun name => .create (commonFile e p name))
  | .buildroot b => buildBuildroot e p s b
  | .debian d => buildDebian e p s d

/-- Stages that complete one after another, from an empty output directory on. -/
inductive Completes (e : Environment) (p : Vars) : List Stage → List (List (Effect Text)) → Prop
  | empty : Completes e p [] []
  | next {stages runs stage es} : Completes e p stages runs →
      stageEffects e p (after runs) stage = .ok es →
      Completes e p (stages ++ [stage]) (runs ++ [es])

/-- The script that builds the root file system in question. -/
def BuildsRootfs : Rootfs → Stage → Prop
  | .buildroot, .buildroot _ => True
  | .debian, .debian _ => True
  | _, _ => False

/-- The paths that `make_image.sh` and the bootloader layout require, with the descriptions. -/
def requiredArtifacts (e : Environment) (p : Vars) (variant : Text) : List (Text × Text) :=
  [(commonFile e p "Image".toList, "kernel Image; run build-kernel first".toList),
   (commonFile e p p.kernelDtb, "board DTB; run build-kernel first".toList),
   (variantFile e p variant (outputName (rootfsImage (rootfsModeOf p))),
     "root filesystem; run build-rootfs first".toList),
   (commonFile e p "kernel-release".toList, "kernel release".toList)] ++
  (if p.rootfsMode = roOverlay then
    [(variantFile e p variant (outputName .initrd), "initramfs; run build-rootfs first".toList)]
  else []) ++
  [(commonFile e p "idblock.img".toList, "Rockchip RKNS IDBlock; run build-uboot first".toList),
   (commonFile e p "uboot.img".toList, "U-Boot image; run build-uboot first".toList)]

/-- `make_image.sh` as far as it depends on the presence of artifacts. -/
def makeImageRequires (e : Environment) (p : Vars) (s : Stamps Text) : Except Text Unit := do
  let variant ← rootfsVariant e e.rootfs
  forM (requiredArtifacts e p variant) fun a => requirePresent s a.1 a.2

theorem commonFile_injective {e : Environment} {p : Vars} {x y : Text} :
    commonFile e p x = commonFile e p y ↔ x = y := by
  rw [commonFile, commonFile, List.append_cancel_left_eq, List.append_cancel_left_eq]

theorem variantFile_injective {e : Environment} {p : Vars} {variant x y : Text} :
    variantFile e p variant x = variantFile e p variant y ↔ x = y := by
  rw [variantFile, variantFile, List.append_cancel_left_eq, List.append_cancel_left_eq,
    List.cons.injEq]
  exact and_iff_right rfl

theorem outputName_injective : Function.Injective outputName := by
  intro f g h
  revert h
  cases f <;> cases g <;> decide

/-- The name of a variant starts neither like `common` nor like the other variant. -/
theorem rootfsVariant_head {e : Environment} {r : Rootfs} {variant : Text}
    (h : rootfsVariant e r = .ok variant) :
    variant.head? = some (if r = .buildroot then 'b' else 'd') := by
  cases r with
  | buildroot =>
    cases h
    rfl
  | debian =>
    rw [rootfsVariant] at h
    cases hr : resolveDebianRelease e.debianRelease with
    | error message =>
      rw [hr] at h
      cases h
    | ok release =>
      rw [hr] at h
      cases h
      rfl

theorem head_append {a b c d : Text} (h : a ++ '/' :: c = b ++ '/' :: d) (ha : a ≠ [])
    (hb : b ≠ []) : a.head? = b.head? := by
  have hhead := congrArg List.head? h
  rwa [List.head?_append_of_ne_nil _ ha, List.head?_append_of_ne_nil _ hb] at hhead

theorem variantFile_ne {e : Environment} {p : Vars} {r q : Rootfs} {v w x y : Text}
    (hv : rootfsVariant e r = .ok v) (hw : rootfsVariant e q = .ok w) (hne : r ≠ q) :
    variantFile e p v x ≠ variantFile e p w y := by
  intro heq
  have hr := rootfsVariant_head hv
  have hq := rootfsVariant_head hw
  rw [variantFile, variantFile, List.append_cancel_left_eq, List.cons_append, List.cons_append,
    List.cons.injEq] at heq
  have hhead := head_append heq.2 (by rintro rfl; cases hr) (by rintro rfl; cases hq)
  rw [hr, hq] at hhead
  revert hne hhead
  cases r <;> cases q <;> decide

theorem commonFile_ne_variantFile {e : Environment} {p : Vars} {r : Rootfs} {v x y : Text}
    (hv : rootfsVariant e r = .ok v) : commonFile e p x ≠ variantFile e p v y := by
  intro heq
  have hr := rootfsVariant_head hv
  rw [commonFile, variantFile, List.append_cancel_left_eq, List.cons_append] at heq
  have hhead := head_append (a := "common".toList) (List.cons.inj heq).2 (by decide)
    (by rintro rfl; cases hr)
  rw [hr] at hhead
  revert hhead
  cases r <;> decide

theorem buildBuildroot_ok {e : Environment} {p : Vars} {s : Stamps Text} {b : BuildrootTree}
    {es : List (Effect Text)} (h : buildBuildroot e p s b = .ok es) :
    es = buildrootFiles.map fun name => .create (variantFile e p "buildroot".toList name) := by
  simp only [buildBuildroot, bind_ok, rootfsVariant, Except.ok.injEq, exists_eq_left'] at h
  obtain ⟨_, -, _, -, _, -, _, -, _, -, _, -, _, -, _, -, hpure⟩ := h
  cases hpure
  rfl

theorem buildDebian_ok {e : Environment} {p : Vars} {s : Stamps Text} {d : DebianTree}
    {es : List (Effect Text)} (h : buildDebian e p s d = .ok es) :
    ∃ variant, rootfsVariant e .debian = .ok variant ∧
      es = (buildEffects (rootfsModeOf p)).map
        (Effect.map fun f => variantFile e p variant (outputName f)) := by
  rw [buildDebian] at h
  by_cases hm : p.rootfsMode = roOverlay
  · simp only [if_pos hm, bind_ok] at h
    obtain ⟨variant, hv, _, -, _, -, _, -, _, -, hpure⟩ := h
    cases hpure
    exact ⟨variant, hv, rfl⟩
  · simp only [if_neg hm, bind_ok] at h
    obtain ⟨variant, hv, _, -, _, -, hpure⟩ := h
    cases hpure
    exact ⟨variant, hv, rfl⟩

theorem creates_not_removed {file : Text → Text} {names : List Text} {q : Text} :
    .remove q ∉ names.map fun name => Effect.create (file name) := by
  intro h
  obtain ⟨_, -, heq⟩ := List.mem_map.mp h
  cases heq

theorem map_touched {g : OutputFile → Text} {es : List (Effect OutputFile)} {q : Text}
    (h : Touches q (es.map (Effect.map g))) : ∃ f, g f = q := by
  obtain ⟨t, ht, hq⟩ := h
  obtain ⟨u, -, rfl⟩ := List.mem_map.mp ht
  cases u with
  | remove f => exact ⟨f, hq⟩
  | create f => exact ⟨f, hq⟩

/-- `loader.bin` is the only file of the common directory that a stage removes. -/
theorem common_not_removed {e : Environment} {p : Vars} {s : Stamps Text} {stage : Stage}
    {es : List (Effect Text)} {x : Text} (h : stageEffects e p s stage = .ok es)
    (hx : x ≠ "loader.bin".toList) : .remove (commonFile e p x) ∉ es := by
  cases stage with
  | uboot t =>
    obtain ⟨b, -, hes⟩ := bind_ok.mp h
    cases hes
    intro hmem
    rcases List.mem_cons.mp hmem with heq | hmem
    · exact hx (commonFile_injective.mp (Effect.remove.inj heq))
    · exact creates_not_removed hmem
  | kernel k =>
    obtain ⟨a, -, hes⟩ := bind_ok.mp h
    cases hes
    exact creates_not_removed
  | buildroot b =>
    rw [buildBuildroot_ok h]
    exact creates_not_removed
  | debian d =>
    obtain ⟨variant, hv, rfl⟩ := buildDebian_ok h
    intro hmem
    obtain ⟨f, hf⟩ := map_touched ⟨_, hmem, rfl⟩
    exact commonFile_ne_variantFile hv hf.symm

/-- What the images of a mode need from the root file system. -/
def NeededFrom (m : RootfsMode) (f : OutputFile) : Prop :=
  f = rootfsImage m ∨ f = .initrd ∧ m = .roOverlay

theorem buildEffects_makes {m : RootfsMode} {f : OutputFile} (h : NeededFrom m f) :
    Makes f (buildEffects m) := by
  intro run s
  rcases h with rfl | ⟨rfl, rfl⟩
  · cases m <;> rfl
  · rfl

theorem debian_makes {e : Environment} {p : Vars} {s : Stamps Text} {d : DebianTree}
    {es : List (Effect Text)} {variant : Text} {f : OutputFile}
    (hv : rootfsVariant e .debian = .ok variant) (h : stageEffects e p s (.debian d) = .ok es)
    (hf : NeededFrom (rootfsModeOf p) f) : Makes (variantFile e p variant (outputName f)) es := by
  obtain ⟨w, hw, rfl⟩ := buildDebian_ok h
  obtain rfl : variant = w := Except.ok.inj (hv.symm.trans hw)
  have injective : Function.Injective fun f => variantFile e p variant (outputName f) :=
    fun _ _ heq => outputName_injective (variantFile_injective.mp heq)
  intro run s
  rw [applyEffects_map injective]
  exact buildEffects_makes hf run _

theorem stage_keeps_variant {e : Environment} {p : Vars} {s : Stamps Text} {stage : Stage}
    {es : List (Effect Text)} {r : Rootfs} {variant : Text} {f : OutputFile}
    (hv : rootfsVariant e r = .ok variant) (h : stageEffects e p s stage = .ok es)
    (hf : NeededFrom (rootfsModeOf p) f) :
    Keeps (variantFile e p variant (outputName f)) es := by
  cases stage with
  | uboot t =>
    obtain ⟨b, -, hes⟩ := bind_ok.mp h
    cases hes
    apply keeps_of_not_removed
    intro hmem
    rcases List.mem_cons.mp hmem with heq | hmem
    · exact commonFile_ne_variantFile hv (Effect.remove.inj heq).symm
    · exact creates_not_removed hmem
  | kernel k =>
    obtain ⟨a, -, hes⟩ := bind_ok.mp h
    cases hes
    exact keeps_of_not_removed creates_not_removed
  | buildroot b =>
    rw [buildBuildroot_ok h]
    exact keeps_of_not_removed creates_not_removed
  | debian d =>
    by_cases hr : r = .debian
    · subst hr
      exact (debian_makes hv h hf).keeps
    · obtain ⟨w, hw, rfl⟩ := buildDebian_ok h
      apply keeps_of_not_removed
      intro hmem
      obtain ⟨g, hg⟩ := map_touched ⟨_, hmem, rfl⟩
      exact variantFile_ne hw hv (Ne.symm hr) hg

/-- A file that one of the stages makes and all of them keep is there in the end. -/
theorem present_after {e : Environment} {p : Vars} {stages : List Stage}
    {runs : List (List (Effect Text))} {q : Text} {Maker : Stage → Prop}
    (h : Completes e p stages runs)
    (keeps : ∀ s stage es, stageEffects e p s stage = .ok es → Keeps q es)
    (makes : ∀ s stage es, Maker stage → stageEffects e p s stage = .ok es → Makes q es)
    (made : ∃ stage ∈ stages, Maker stage) : (after runs q).isSome := by
  induction h with
  | empty =>
    obtain ⟨stage, hstage, -⟩ := made
    cases hstage
  | @next stages runs last es hc hes ih =>
    rw [after_concat]
    obtain ⟨stage, hstage, hmaker⟩ := made
    rcases List.mem_append.mp hstage with hstage | hstage
    · exact keeps _ _ _ hes _ _ (ih ⟨stage, hstage, hmaker⟩)
    · obtain rfl := List.mem_singleton.mp hstage
      exact makes _ _ _ hmaker hes _ _

theorem absent_after {e : Environment} {p : Vars} {stages : List Stage}
    {runs : List (List (Effect Text))} {q : Text} (h : Completes e p stages runs)
    (never : ∀ s stage es, stageEffects e p s stage = .ok es → .create q ∉ es) :
    after runs q = none := by
  induction h with
  | empty => rfl
  | next hc hes ih =>
    rw [after_concat]
    exact absent_of_not_created (never _ _ _ hes) ih

theorem stage_ran {e : Environment} {p : Vars} {stages : List Stage}
    {runs : List (List (Effect Text))} {stage : Stage} (h : Completes e p stages runs)
    (hmem : stage ∈ stages) : ∃ s es, stageEffects e p s stage = .ok es := by
  induction h with
  | empty => cases hmem
  | next hc hes ih =>
    rcases List.mem_append.mp hmem with hmem | hmem
    · exact ih hmem
    · obtain rfl := List.mem_singleton.mp hmem
      exact ⟨_, _, hes⟩

/-- A file of the common directory that a stage of some kind always writes. -/
theorem common_present {e : Environment} {p : Vars} {stages : List Stage}
    {runs : List (List (Effect Text))} {x : Text} {Maker : Stage → Prop}
    (h : Completes e p stages runs) (hx : x ≠ "loader.bin".toList)
    (creates : ∀ s stage es, Maker stage → stageEffects e p s stage = .ok es →
      .create (commonFile e p x) ∈ es)
    (made : ∃ stage ∈ stages, Maker stage) : (after runs (commonFile e p x)).isSome := by
  apply present_after h _ _ made
  · intro s stage es hes
    exact keeps_of_not_removed (common_not_removed hes hx)
  · intro s stage es hmaker hes
    exact makes_of_created (creates s stage es hmaker hes) (common_not_removed hes hx)

theorem kernel_present {e : Environment} {p : Vars} {stages : List Stage}
    {runs : List (List (Effect Text))} {x : Text} (h : Completes e p stages runs)
    (made : ∃ k, .kernel k ∈ stages) (hx : x ≠ "loader.bin".toList)
    (hfile : ∀ a, x ∈ kernelFiles p a) : (after runs (commonFile e p x)).isSome := by
  obtain ⟨k, hk⟩ := made
  have maker : ∃ stage ∈ stages, (fun stage => ∃ k, stage = Stage.kernel k) stage := ⟨_, hk, k, rfl⟩
  apply common_present h hx _ maker
  rintro s _ es ⟨k, rfl⟩ hes
  obtain ⟨a, -, hes⟩ := bind_ok.mp hes
  cases hes
  exact List.mem_map.mpr ⟨x, hfile a, rfl⟩

theorem uboot_present {e : Environment} {p : Vars} {stages : List Stage}
    {runs : List (List (Effect Text))} {x : Text} (h : Completes e p stages runs)
    (made : ∃ t, .uboot t ∈ stages) (hx : x ≠ "loader.bin".toList)
    (hfile : ∀ b, x ∈ ubootFiles b) : (after runs (commonFile e p x)).isSome := by
  obtain ⟨t, ht⟩ := made
  have maker : ∃ stage ∈ stages, (fun stage => ∃ t, stage = Stage.uboot t) stage := ⟨_, ht, t, rfl⟩
  apply common_present h hx _ maker
  rintro s _ es ⟨t, rfl⟩ hes
  obtain ⟨b, -, hes⟩ := bind_ok.mp hes
  cases hes
  apply List.mem_cons_of_mem
  exact List.mem_map.mpr ⟨x, hfile b, rfl⟩

/-- The root file system comes from a stage that builds one in the mode of the profile. -/
theorem rootfs_present {e : Environment} {p : Vars} {stages : List Stage}
    {runs : List (List (Effect Text))} {variant : Text} {f : OutputFile}
    (h : Completes e p stages runs) (made : ∃ stage ∈ stages, BuildsRootfs e.rootfs stage)
    (hv : rootfsVariant e e.rootfs = .ok variant) (hf : NeededFrom (rootfsModeOf p) f)
    (hmode : ¬ (e.rootfs = .buildroot ∧ p.rootfsMode = roOverlay)) :
    (after runs (variantFile e p variant (outputName f))).isSome := by
  apply present_after h _ _ made
  · intro s stage es hes
    exact stage_keeps_variant hv hes hf
  · intro s stage es hbuilds hes
    cases hr : e.rootfs with
    | buildroot =>
      rw [hr] at hbuilds hv
      cases stage with
      | buildroot b =>
        have writable : rootfsModeOf p = .rwExt4 := if_neg fun hm => hmode ⟨hr, hm⟩
        rw [writable] at hf
        obtain rfl : f = .ext4 := by
          rcases hf with hf | ⟨-, hf⟩
          · exact hf
          · cases hf
        cases hv
        rw [buildBuildroot_ok hes]
        apply makes_of_created _ creates_not_removed
        exact List.mem_map.mpr ⟨"rootfs.ext4".toList, by decide, rfl⟩
      | uboot | kernel | debian => exact absurd hbuilds id
    | debian =>
      rw [hr] at hbuilds hv
      cases stage with
      | debian d => exact debian_makes hv hes hf
      | uboot | kernel | buildroot => exact absurd hbuilds id

/-- Nothing but `build_debian.sh` makes an overlay root, and it makes one for Debian only. -/
theorem buildroot_overlay_absent {e : Environment} {p : Vars} {stages : List Stage}
    {runs : List (List (Effect Text))} (h : Completes e p stages runs) :
    after runs (variantFile e p "buildroot".toList (outputName .squashfs)) = none := by
  have hv : rootfsVariant e .buildroot = .ok "buildroot".toList := rfl
  apply absent_after h
  intro s stage es hes hmem
  cases stage with
  | uboot t =>
    obtain ⟨b, -, hes⟩ := bind_ok.mp hes
    cases hes
    rcases List.mem_cons.mp hmem with heq | hmem
    · cases heq
    · obtain ⟨_, -, heq⟩ := List.mem_map.mp hmem
      exact commonFile_ne_variantFile hv (Effect.create.inj heq)
  | kernel k =>
    obtain ⟨a, -, hes⟩ := bind_ok.mp hes
    cases hes
    obtain ⟨_, -, heq⟩ := List.mem_map.mp hmem
    exact commonFile_ne_variantFile hv (Effect.create.inj heq)
  | buildroot b =>
    rw [buildBuildroot_ok hes] at hmem
    obtain ⟨name, hname, heq⟩ := List.mem_map.mp hmem
    obtain rfl : name = outputName .squashfs := variantFile_injective.mp (Effect.create.inj heq)
    revert hname
    decide
  | debian d =>
    obtain ⟨w, hw, rfl⟩ := buildDebian_ok hes
    obtain ⟨g, hg⟩ := map_touched ⟨_, hmem, rfl⟩
    exact variantFile_ne hw hv (by decide) hg

theorem makeImageRequires_ok {e : Environment} {p : Vars} {s : Stamps Text} {u : Unit} :
    makeImageRequires e p s = .ok u ↔ ∃ variant, rootfsVariant e e.rootfs = .ok variant ∧
      ∀ a ∈ requiredArtifacts e p variant, (s a.1).isSome := by
  simp only [makeImageRequires, requirePresent, bind_ok, forM_require_ok]

theorem variant_resolved {e : Environment} {p : Vars} {stages : List Stage}
    {runs : List (List (Effect Text))} (h : Completes e p stages runs)
    (made : ∃ stage ∈ stages, BuildsRootfs e.rootfs stage) :
    ∃ variant, rootfsVariant e e.rootfs = .ok variant := by
  obtain ⟨stage, hmem, hbuilds⟩ := made
  obtain ⟨s, es, hes⟩ := stage_ran h hmem
  cases hr : e.rootfs with
  | buildroot => exact ⟨_, rfl⟩
  | debian =>
    rw [hr] at hbuilds
    cases stage with
    | debian d =>
      obtain ⟨variant, hv, -⟩ := buildDebian_ok hes
      exact ⟨variant, hv⟩
    | uboot | kernel | buildroot => exact absurd hbuilds id

theorem buildroot_overlay_refused {e : Environment} {p : Vars} {stages : List Stage}
    {runs : List (List (Effect Text))} (h : Completes e p stages runs)
    (hr : e.rootfs = .buildroot) (hm : p.rootfsMode = roOverlay) :
    makeImageRequires e p (after runs) ≠ .ok () := by
  intro required
  obtain ⟨w, hw, hpresent⟩ := makeImageRequires_ok.mp required
  have hroot := hpresent _ (List.mem_append_left _ (List.mem_append_left _
    (List.mem_cons_of_mem _ (List.mem_cons_of_mem _ List.mem_cons_self))))
  have overlay : rootfsModeOf p = .roOverlay := if_pos hm
  rw [hr] at hw
  cases hw
  rw [overlay, rootfsImage, buildroot_overlay_absent h] at hroot
  cases hroot

/-- The stages leave what `make_image.sh` requires, except for a Buildroot image in `ro-overlay`
mode: `build_buildroot.sh` makes a writable root file system whatever the mode is. -/
theorem artifacts_complete_iff {fileExists : Text → Bool} {env p : Vars} {e : Environment}
    {stages : List Stage} {runs : List (List (Effect Text))}
    (hp : validateBoardProfile fileExists env = .ok p) (h : Completes e p stages runs)
    (huboot : ∃ t, .uboot t ∈ stages) (hkernel : ∃ k, .kernel k ∈ stages)
    (hrootfs : ∃ stage ∈ stages, BuildsRootfs e.rootfs stage) :
    makeImageRequires e p (after runs) = .ok () ↔
      ¬ (e.rootfs = .buildroot ∧ p.rootfsMode = roOverlay) := by
  obtain ⟨variant, hv⟩ := variant_resolved h hrootfs
  constructor
  · rintro required ⟨hr, hm⟩
    exact buildroot_overlay_refused h hr hm required
  · intro hmode
    have hdtb : p.kernelDtb ≠ "loader.bin".toList := by
      intro heq
      have hsuffix := validateBoardProfile_dtb hp
      rw [heq] at hsuffix
      revert hsuffix
      decide
    refine makeImageRequires_ok.mpr ⟨variant, hv, ?_⟩
    intro a ha
    rcases List.mem_append.mp ha with ha | ha
    · rcases List.mem_append.mp ha with ha | ha
      · simp only [List.mem_cons, List.not_mem_nil, or_false] at ha
        rcases ha with rfl | rfl | rfl | rfl
        · exact kernel_present h hkernel (by decide) fun a => by simp [kernelFiles]
        · exact kernel_present h hkernel hdtb fun a => by simp [kernelFiles]
        · exact rootfs_present h hrootfs hv (.inl rfl) hmode
        · exact kernel_present h hkernel (by decide) fun a => by simp [kernelFiles]
      · split at ha
        · rename_i hm
          obtain rfl := List.mem_singleton.mp ha
          exact rootfs_present h hrootfs hv (.inr ⟨rfl, if_pos hm⟩) hmode
        · cases ha
    · simp only [List.mem_cons, List.not_mem_nil, or_false] at ha
      rcases ha with rfl | rfl
      · exact uboot_present h huboot (by decide) fun b => by simp [ubootFiles]
      · exact uboot_present h huboot (by decide) fun b => by simp [ubootFiles]

/-- A U-Boot tree with everything the boot contract asks for. -/
def builtUboot : UbootTree where
  ubootDir := []
  find := fun pattern => if pattern = "rk3588*loader*.bin".toList then ["/loader".toList]
    else if pattern = "uboot.img".toList then ["/uboot.img".toList] else []
  file := fun path =>
    if path = "/.config".toList then
      some (Delimited.terminate 10 (requiredOptions.map fun o => ascii (o ++ "=y".toList)))
    else if path = "/u-boot.bin".toList then
      some (ascii "run distro_bootcmd;".toList ++ ascii "extlinux/extlinux.conf".toList)
    else if path = "/idblock.bin".toList then some DiskGeometry.rkns
    else if path = "/loader".toList then some ImageAssembly.ldr
    else if path = "/uboot.img".toList then some [1, 2, 3]
    else none

def overlayEnv : Vars := { rock5c with rootfsMode := roOverlay }

def overlayProfile : Vars := optionalDefaults (profileDefaults overlayEnv)

theorem overlayProfile_accepted :
    validateBoardProfile (fun _ => true) overlayEnv = .ok overlayProfile := by
  unfold overlayProfile overlayEnv rock5c
  repeat rw [String.toList_ofList]
  decide +kernel

theorem builtUboot_packed : ∃ b, packBootChain overlayProfile builtUboot = .ok b := by
  have contract : validateExtlinuxBootContract builtUboot = .ok () := by
    apply validateExtlinuxBootContract_complete rfl rfl
    · decide +kernel
    · decide +kernel
    · exact ⟨[], ascii "extlinux/extlinux.conf".toList, rfl⟩
    · exact ⟨ascii "run distro_bootcmd;".toList, [], rfl⟩
  have loader : findNewestMatch builtUboot overlayProfile.downloadLoaderGlobs =
      some "/loader".toList := by
    unfold overlayProfile overlayEnv rock5c
    repeat rw [String.toList_ofList]
    decide +kernel
  have image : findNewestMatch builtUboot overlayProfile.ubootImageNames =
      some "/uboot.img".toList := by
    unfold overlayProfile overlayEnv rock5c
    repeat rw [String.toList_ofList]
    decide +kernel
  have fit : checkCapacities overlayProfile DiskGeometry.rkns.length
      ([1, 2, 3] : Bytes).length = .ok () := by
    unfold overlayProfile overlayEnv rock5c
    repeat rw [String.toList_ofList]
    decide +kernel
  exact packBootChain_complete contract loader (by decide) image (by decide) rfl rfl rfl rfl rfl fit

theorem quietTree_packaged : ∃ a, packageKernel overlayProfile quietTree = .ok a := by
  have removed : ∃ stripped, ∀ path, stripBootargs overlayProfile path quietDtb = .ok stripped :=
    ⟨_, fun _ => rfl⟩
  obtain ⟨stripped, hstripped⟩ := removed
  obtain ⟨a, ha, -⟩ := packageKernel_complete quietTree_configs rfl rfl rfl hstripped
  exact ⟨a, ha⟩

/-- Both boot stages complete from the empty directory. -/
theorem boot_stages_complete (e : Environment) :
    ∃ runs, Completes e overlayProfile [.uboot builtUboot, .kernel quietTree] runs := by
  obtain ⟨b, hb⟩ := builtUboot_packed
  obtain ⟨a, ha⟩ := quietTree_packaged
  have uboot := Completes.next .empty (show stageEffects e overlayProfile _ (.uboot builtUboot) =
    .ok _ from bind_ok.mpr ⟨b, hb, rfl⟩)
  exact ⟨_, .next uboot (show stageEffects e overlayProfile _ (.kernel quietTree) = .ok _ from
    bind_ok.mpr ⟨a, ha, rfl⟩)⟩

theorem kernel_required {e : Environment} {p : Vars} {stages : List Stage}
    {runs : List (List (Effect Text))} (h : Completes e p stages runs)
    (made : ∃ k, .kernel k ∈ stages) : requireKernel e p (after runs) = .ok () := by
  simp only [requireKernel, requirePresent, bind_ok, require_ok]
  refine ⟨(), ?_, ?_⟩
  · exact kernel_present h made (by decide) fun a => by simp [kernelFiles]
  · exact kernel_present h made (by decide) fun a => by simp [kernelFiles]

theorem artifacts_complete_iff_debian :
    ∃ runs, makeImageRequires ⟨[], .debian, []⟩ overlayProfile (after runs) = .ok () := by
  obtain ⟨runs, hruns⟩ := boot_stages_complete ⟨[], .debian, []⟩
  have kernel := kernel_required hruns ⟨quietTree, by simp⟩
  have built : stageEffects ⟨[], .debian, []⟩ overlayProfile (after runs)
      (.debian ⟨[], [], true, some [0], .ok ()⟩) =
      .ok ((buildEffects .roOverlay).map (Effect.map fun f =>
        variantFile ⟨[], .debian, []⟩ overlayProfile "debian-13".toList (outputName f))) := by
    rw [stageEffects, buildDebian]
    change (requireKernel _ _ _ >>= fun _ => _) = _
    rw [kernel]
    rfl
  exact ⟨_, (artifacts_complete_iff overlayProfile_accepted (.next hruns built)
    ⟨builtUboot, by simp⟩ ⟨quietTree, by simp⟩ ⟨_, List.mem_append_right _ List.mem_cons_self,
      trivial⟩).mpr fun h => by cases h.1⟩

/-- All stages complete for a Buildroot image in `ro-overlay` mode, and an artifact is missing. -/
theorem artifacts_missing_buildroot :
    ¬ ∀ fileExists env p e stages runs, validateBoardProfile fileExists env = .ok p →
      Completes e p stages runs → (∃ t, .uboot t ∈ stages) → (∃ k, .kernel k ∈ stages) →
      (∃ stage ∈ stages, BuildsRootfs e.rootfs stage) →
      makeImageRequires e p (after runs) = .ok () := by
  intro complete
  obtain ⟨runs, hruns⟩ := boot_stages_complete ⟨[], .buildroot, []⟩
  have kernel := kernel_required hruns ⟨quietTree, by simp⟩
  have built : stageEffects ⟨[], .buildroot, []⟩ overlayProfile (after runs)
      (.buildroot ⟨[], some [0], some [0], "rootfs".toList, true, true, true, true, []⟩) =
      .ok (buildrootFiles.map fun name => .create
        (variantFile ⟨[], .buildroot, []⟩ overlayProfile "buildroot".toList name)) := by
    rw [stageEffects, buildBuildroot]
    change (requireKernel _ _ _ >>= fun _ => _) = _
    rw [kernel]
    rfl
  have all := Completes.next hruns built
  exact buildroot_overlay_refused all rfl rfl (complete _ _ _ _ _ _ overlayProfile_accepted all
    ⟨builtUboot, by simp⟩ ⟨quietTree, by simp⟩
    ⟨_, List.mem_append_right _ List.mem_cons_self, trivial⟩)

end StageArtifacts
