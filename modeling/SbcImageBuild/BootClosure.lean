import SbcImageBuild.BoardProfile

/-!
# The boot partition

`make_image.sh` writes `extlinux.conf` from `KERNEL_DTBO`, runs the board hook `pre_make_image`, and
fills the FAT image from `KERNEL_DTBO` again and from the files that `build_kernel.sh` installed.
-/
namespace BootClosure

open ShellText BoardProfile

/-- mtools on FAT images. Two paths name the same entry, for example, if they differ in the case of
letters. What is copied or made is found under its name, and nothing else is. -/
structure Mtools where
  Fat : Type
  entry : Text → Text
  format : Fat
  mmd : Fat → Text → Option Fat
  mcopy : Fat → Text → Text → Option Fat
  leads : Fat → Text → Bool
  leads_format : ∀ p, leads format p ↔ entry p = entry "/".toList
  leads_mmd : ∀ {f d g}, mmd f d = some g → ∀ p, leads g p ↔ leads f p ∨ entry p = entry d
  leads_mcopy : ∀ {f content d g}, mcopy f content d = some g →
    ∀ p, leads g p ↔ leads f p ∨ entry p = entry d

/-- What the script reads before and after the hook: variables, the files of the artifacts
directory, and the names in the working directory that a word matches as a pattern. -/
structure Stage where
  kernelDtb : Text
  kernelDtbo : Text
  rootfsMode : Text
  image : Option Text
  dtb : Option Text
  initrd : Option Text
  overlays : Text → Option Text
  matching : Text → List Text

/-- The variables that only `extlinux.conf` has. -/
structure Labels where
  extlinuxLabel : Text
  console : Text
  extraKernelArgs : Text

/-- A word stays as it is if it matches nothing. -/
def Stage.pathnames (b : Stage) (word : Text) : List Text :=
  if b.matching word = [] then [word] else b.matching word

/-- The words of `for dtbo in ${KERNEL_DTBO}`. -/
def Stage.dtbos (b : Stage) : List Text :=
  ((b.kernelDtbo.splitOnP fun c => c == ' ' || c == '\t' || c == '\n').filter (· ≠ [])).flatMap
    b.pathnames

def overlayPath (dtbo : Text) : Text := "/overlays/".toList ++ dtbo

/-- `extlinux.conf`; without `KERNEL_DTBO` there is no line `FDTOVERLAYS`. -/
structure Conf where
  labels : Labels
  fdt : Text
  fdtOverlays : Option (List Text)
  initrd : Bool

def Conf.overlayPaths (c : Conf) : List Text := (c.fdtOverlays.getD []).map overlayPath

def Conf.text (c : Conf) : Text :=
  "DEFAULT ".toList ++ c.labels.extlinuxLabel ++ "\nTIMEOUT 10\n\nLABEL ".toList ++
    c.labels.extlinuxLabel ++ "\n    LINUX /Image\n    FDT /".toList ++ c.fdt ++ "\n".toList ++
    (if c.fdtOverlays.isSome then
      "    FDTOVERLAYS".toList ++ c.overlayPaths.flatMap (' ' :: ·) ++ "\n".toList else []) ++
    (if c.initrd then
      "    INITRD /initrd.img\n    APPEND root=PARTLABEL=rootfs rootwait ro ".toList ++
        "overlayroot=PARTLABEL=data console=".toList
    else "    APPEND root=PARTLABEL=rootfs rootwait rw console=".toList) ++
    c.labels.console ++ " ".toList ++ c.labels.extraKernelArgs ++ "\n".toList

/-- The paths behind `LINUX`, `FDT`, `FDTOVERLAYS` and `INITRD`. -/
def Conf.paths (c : Conf) : List Text :=
  ["/Image".toList, '/' :: c.fdt] ++ c.overlayPaths ++
    if c.initrd then ["/initrd.img".toList] else []

def Stage.conf (b : Stage) (labels : Labels) : Conf where
  labels := labels
  fdt := b.kernelDtb
  fdtOverlays := if b.kernelDtbo = [] then none else some b.dtbos
  initrd := b.rootfsMode = roOverlay

/-- The boot image, the overlays that were copied into it, and the lines of the log about them. -/
structure BootImage (m : Mtools) where
  conf : Conf
  fat : m.Fat
  copied : List Text
  log : List Text

/-- The loop over the overlays. One without a file is left out with a warning. -/
def copyOverlays (m : Mtools) (b : Stage) (conf : Conf) : List Text → m.Fat → Option (BootImage m)
  | [], fat => some ⟨conf, fat, [], []⟩
  | dtbo :: dtbos, fat =>
    match b.overlays dtbo with
    | some content => do
      let fat ← m.mcopy fat content (overlayPath dtbo)
      let r ← copyOverlays m b conf dtbos fat
      pure { r with
        copied := overlayPath dtbo :: r.copied
        log := ("Copied DTBO to boot partition: ".toList ++ dtbo) :: r.log }
    | none => do
      let r ← copyOverlays m b conf dtbos fat
      pure { r with
        log := ("KERNEL_DTBO file missing from artifacts: ".toList ++ dtbo) :: r.log }

/-- The name of the initramfs is set before the hook. -/
def copyInitrd (m : Mtools) (b b' : Stage) (fat : m.Fat) : Option m.Fat :=
  if b'.rootfsMode = roOverlay then
    if b.rootfsMode = roOverlay then
      b'.initrd.bind fun content => m.mcopy fat content "/initrd.img".toList
    else none
  else some fat

/-- The boot partition of `make_image.sh`, from a stage before the hook and one behind it. A command
that fails ends the script. -/
def makeBootImage (m : Mtools) (labels : Labels) (b b' : Stage) : Option (BootImage m) := do
  let conf := b.conf labels
  let fat ← m.mmd m.format "/extlinux".toList
  let fat ← m.mcopy fat (← b'.image) "/Image".toList
  let fat ← m.mcopy fat (← b'.dtb) ('/' :: b'.kernelDtb)
  let fat ← m.mcopy fat conf.text "/extlinux/extlinux.conf".toList
  let fat ← copyInitrd m b b' fat
  if b'.kernelDtbo = [] then some ⟨conf, fat, [], []⟩
  else do
    let fat ← m.mmd fat "/overlays".toList
    copyOverlays m b' conf b'.dtbos fat

/-- Every path of the configuration is in the image, and every overlay in the image is listed. -/
structure Closed (m : Mtools) (r : BootImage m) : Prop where
  named : ∀ path ∈ r.conf.paths, m.leads r.fat path
  listed : ∀ path ∈ r.copied, path ∈ r.conf.overlayPaths

/-- The overlays that have a file. -/
def Stage.present (b : Stage) : List Text := b.dtbos.filter fun dtbo => (b.overlays dtbo).isSome

/-- The names under which the image is filled. -/
def Stage.made (b : Stage) : List Text :=
  ["/".toList, "/extlinux".toList, "/Image".toList, '/' :: b.kernelDtb,
    "/extlinux/extlinux.conf".toList] ++
  (if b.rootfsMode = roOverlay then ["/initrd.img".toList] else []) ++
  if b.kernelDtbo = [] then [] else "/overlays".toList :: b.present.map overlayPath

def Provided (m : Mtools) (b : Stage) (path : Text) : Prop := ∃ d ∈ b.made, m.entry path = m.entry d

/-- The configuration written before the hook agrees with the files behind it: each overlay of the
list has its file, or its path names another entry of the image. -/
structure Matched (m : Mtools) (b b' : Stage) : Prop where
  dtb : Provided m b' ('/' :: b.kernelDtb)
  initrd : b.rootfsMode = roOverlay → Provided m b' "/initrd.img".toList
  overlays : ∀ dtbo ∈ b.dtbos, dtbo ∈ b'.present ∨ Provided m b' (overlayPath dtbo)
  listed : ∀ dtbo ∈ b'.present, dtbo ∈ b.dtbos

section Image

variable {m : Mtools} {labels : Labels} {b b' : Stage} {conf : Conf} {r : BootImage m}

/-- The names to which a file system leads. -/
def LeadsTo (m : Mtools) (fat : m.Fat) (names : List Text) : Prop :=
  ∀ p, m.leads fat p ↔ ∃ d ∈ names, m.entry p = m.entry d

theorem leadsTo_format : LeadsTo m m.format ["/".toList] := fun p => by
  rw [m.leads_format p]
  simp

theorem leadsTo_mmd {f g : m.Fat} {names : List Text} {d : Text} (hf : LeadsTo m f names)
    (h : m.mmd f d = some g) : LeadsTo m g (names ++ [d]) := fun p => by
  rw [m.leads_mmd h p, hf p]
  simp [or_and_right, exists_or]

theorem leadsTo_mcopy {f g : m.Fat} {names : List Text} {content d : Text}
    (hf : LeadsTo m f names) (h : m.mcopy f content d = some g) : LeadsTo m g (names ++ [d]) :=
  fun p => by
    rw [m.leads_mcopy h p, hf p]
    simp [or_and_right, exists_or]

/-- The loop copies the overlays that have a file. -/
theorem copyOverlays_spec {ws : List Text} {fat : m.Fat} {names : List Text}
    (hfat : LeadsTo m fat names) (h : copyOverlays m b conf ws fat = some r) :
    r.conf = conf ∧
      r.copied = (ws.filter fun dtbo => (b.overlays dtbo).isSome).map overlayPath ∧
      LeadsTo m r.fat (names ++ r.copied) := by
  induction ws generalizing fat names r with
  | nil =>
    obtain rfl := Option.some.inj h
    exact ⟨rfl, rfl, by simpa using hfat⟩
  | cons dtbo ws ih =>
    cases hfile : b.overlays dtbo with
    | some content =>
      simp only [copyOverlays, hfile, Option.bind_eq_bind, Option.bind_eq_some_iff, pure] at h
      obtain ⟨g, hg, r₁, hr₁, hr⟩ := h
      obtain rfl := Option.some.inj hr
      obtain ⟨hconf, hcopied, hleads⟩ := ih (leadsTo_mcopy hfat hg) hr₁
      refine ⟨hconf, ?_, ?_⟩
      · simp [hfile, hcopied]
      · simpa using hleads
    | none =>
      simp only [copyOverlays, hfile, Option.bind_eq_bind, Option.bind_eq_some_iff, pure] at h
      obtain ⟨r₁, hr₁, hr⟩ := h
      obtain rfl := Option.some.inj hr
      obtain ⟨hconf, hcopied, hleads⟩ := ih hfat hr₁
      refine ⟨hconf, ?_, hleads⟩
      simp [hfile, hcopied]

theorem dtbos_nil (h : b.kernelDtbo = []) : b.dtbos = [] := by simp [Stage.dtbos, h]

/-- What the image consists of when no command failed. -/
theorem makeBootImage_spec (h : makeBootImage m labels b b' = some r) :
    r.conf = b.conf labels ∧ r.copied = b'.present.map overlayPath ∧
      LeadsTo m r.fat b'.made := by
  simp only [makeBootImage, Option.bind_eq_bind, Option.bind_eq_some_iff] at h
  obtain ⟨f₁, h₁, image, -, f₂, h₂, dtb, -, f₃, h₃, f₄, h₄, f₅, h₅, h⟩ := h
  have hroot := leadsTo_mmd leadsTo_format h₁
  have hbase := leadsTo_mcopy (leadsTo_mcopy (leadsTo_mcopy hroot h₂) h₃) h₄
  have hinitrd : LeadsTo m f₅ (["/".toList, "/extlinux".toList, "/Image".toList,
      '/' :: b'.kernelDtb, "/extlinux/extlinux.conf".toList] ++
      if b'.rootfsMode = roOverlay then ["/initrd.img".toList] else []) := by
    unfold copyInitrd at h₅
    split_ifs at h₅ with hmode
    · obtain ⟨initrd, -, h₅⟩ := Option.bind_eq_some_iff.mp h₅
      rw [if_pos hmode]
      exact leadsTo_mcopy hbase h₅
    · obtain rfl := Option.some.inj h₅
      rw [if_neg hmode, List.append_nil]
      exact hbase
  split at h
  · rename_i hnone
    obtain rfl := Option.some.inj h
    refine ⟨rfl, by simp [Stage.present, dtbos_nil hnone], ?_⟩
    rw [Stage.made, if_pos hnone, List.append_nil]
    exact hinitrd
  · rename_i hsome
    obtain ⟨f₆, h₆, h⟩ := Option.bind_eq_some_iff.mp h
    obtain ⟨hconf, hcopied, hleads⟩ := copyOverlays_spec (leadsTo_mmd hinitrd h₆) h
    refine ⟨hconf, hcopied, ?_⟩
    rw [hcopied, List.append_assoc] at hleads
    rw [Stage.made, if_neg hsome]
    exact hleads

theorem overlayPath_injective : Function.Injective overlayPath :=
  List.append_right_injective _

theorem overlayPaths_conf : (b.conf labels).overlayPaths = b.dtbos.map overlayPath := by
  unfold Stage.conf Conf.overlayPaths
  by_cases hnone : b.kernelDtbo = []
  · simp [hnone, dtbos_nil hnone]
  · simp [hnone]

theorem present_provided {dtbo : Text} (h : dtbo ∈ b.present) :
    Provided m b (overlayPath dtbo) := by
  have hsome : b.kernelDtbo ≠ [] := fun hnone => by
    simp [Stage.present, dtbos_nil hnone] at h
  refine ⟨_, ?_, rfl⟩
  rw [Stage.made, if_neg hsome]
  exact List.mem_append_right _ (List.mem_cons_of_mem _ (List.mem_map_of_mem h))

theorem provided_image : Provided m b "/Image".toList := by
  refine ⟨_, ?_, rfl⟩
  rw [Stage.made, List.append_assoc]
  exact List.mem_append_left _ (List.mem_cons_of_mem _ (List.mem_cons_of_mem _ List.mem_cons_self))

/-- The paths of the configuration, one kind after the other. -/
theorem forall_paths {P : Text → Prop} : (∀ path ∈ (b.conf labels).paths, P path) ↔
    P "/Image".toList ∧ P ('/' :: b.kernelDtb) ∧ (∀ dtbo ∈ b.dtbos, P (overlayPath dtbo)) ∧
      (b.rootfsMode = roOverlay → P "/initrd.img".toList) := by
  rw [Conf.paths, overlayPaths_conf, List.forall_mem_append, List.forall_mem_append,
    List.forall_mem_cons, List.forall_mem_singleton, List.forall_mem_map, and_assoc, and_assoc]
  have hinitrd : (b.conf labels).initrd = decide (b.rootfsMode = roOverlay) := rfl
  rw [hinitrd]
  by_cases hmode : b.rootfsMode = roOverlay
  · rw [if_pos (decide_eq_true hmode), List.forall_mem_singleton]
    simp only [hmode, true_imp_iff]
    rfl
  · rw [if_neg (by simpa using hmode)]
    simp only [hmode, false_imp_iff, List.not_mem_nil, implies_true]
    rfl

end Image

/-- The boot partition is closed exactly if the hook and the files agree with the list. -/
theorem boot_closure_iff {m : Mtools} {labels : Labels} {b b' : Stage} {r : BootImage m}
    (h : makeBootImage m labels b b' = some r) : Closed m r ↔ Matched m b b' := by
  obtain ⟨hconf, hcopied, hleads⟩ := makeBootImage_spec h
  have hnamed : (∀ path ∈ r.conf.paths, m.leads r.fat path) ↔
      Provided m b' ('/' :: b.kernelDtb) ∧ (∀ dtbo ∈ b.dtbos, Provided m b' (overlayPath dtbo)) ∧
        (b.rootfsMode = roOverlay → Provided m b' "/initrd.img".toList) := by
    rw [hconf, forall_paths, hleads, hleads, hleads]
    simp only [hleads _]
    exact and_iff_right provided_image
  have hlisted : (∀ path ∈ r.copied, path ∈ r.conf.overlayPaths) ↔
      ∀ dtbo ∈ b'.present, dtbo ∈ b.dtbos := by
    rw [hconf, hcopied, overlayPaths_conf, List.forall_mem_map]
    exact forall₂_congr fun dtbo _ => List.mem_map_of_injective overlayPath_injective
  constructor
  · rintro ⟨hpaths, hcopies⟩
    obtain ⟨hdtb, hoverlays, hinitrd⟩ := hnamed.mp hpaths
    exact ⟨hdtb, hinitrd, fun dtbo hdtbo => .inr (hoverlays dtbo hdtbo), hlisted.mp hcopies⟩
  · rintro ⟨hdtb, hinitrd, hoverlays, hcopies⟩
    refine ⟨hnamed.mpr ⟨hdtb, fun dtbo hdtbo => ?_, hinitrd⟩, hlisted.mpr hcopies⟩
    exact (hoverlays dtbo hdtbo).elim present_provided id

/-- Without a hook only the overlays without a file matter. -/
theorem matched_self_iff {m : Mtools} {b : Stage} :
    Matched m b b ↔ ∀ dtbo ∈ b.dtbos, dtbo ∈ b.present ∨ Provided m b (overlayPath dtbo) := by
  refine ⟨fun h => h.overlays, fun h => ⟨?_, ?_, h, fun dtbo hdtbo => (List.mem_filter.mp hdtbo).1⟩⟩
  · refine ⟨_, ?_, rfl⟩
    rw [Stage.made, List.append_assoc]
    refine List.mem_append_left _ (List.mem_cons_of_mem _ (List.mem_cons_of_mem _ ?_))
    exact List.mem_cons_of_mem _ List.mem_cons_self
  · intro hmode
    refine ⟨_, ?_, rfl⟩
    rw [Stage.made, if_pos hmode]
    exact List.mem_append_left _ (List.mem_append_right _ List.mem_cons_self)

section Kernel

/-- The loop of `build_kernel.sh`: the first directory below `KERNEL_BUILD` that has an overlay. -/
def installOverlays (builds : List (Text → Option Text)) :
    List Text → (Text → Option Text) → Text → Option Text
  | [], overlays => overlays
  | dtbo :: dtbos, overlays =>
    match builds.findSome? (· dtbo) with
    | some content => installOverlays builds dtbos (Function.update overlays dtbo (some content))
    | none => installOverlays builds dtbos overlays

variable {builds : List (Text → Option Text)} {dtbos : List Text}

/-- An installed overlay stays, and every one that was built is installed. -/
theorem installOverlays_isSome {overlays : Text → Option Text} {dtbo : Text}
    (h : (overlays dtbo).isSome ∨ dtbo ∈ dtbos ∧ (builds.findSome? (· dtbo)).isSome) :
    (installOverlays builds dtbos overlays dtbo).isSome := by
  induction dtbos generalizing overlays with
  | nil => simpa [installOverlays] using h
  | cons d dtbos ih =>
    cases hbuilt : builds.findSome? (· d) with
    | some content =>
      simp only [installOverlays, hbuilt]
      refine ih ?_
      by_cases hd : dtbo = d
      · exact .inl (by simp [hd])
      · simpa [hd] using h
    | none =>
      simp only [installOverlays, hbuilt]
      refine ih (h.imp_right fun ⟨hmem, hsome⟩ => ⟨?_, hsome⟩)
      refine (List.mem_cons.mp hmem).resolve_left fun hd => ?_
      simp [hd, hbuilt] at hsome

/-- After a kernel build that built every overlay of the list the boot partition is closed. -/
theorem installed_matched (m : Mtools) {b : Stage} {old : Text → Option Text}
    (hoverlays : b.overlays = installOverlays builds b.dtbos old)
    (hbuilt : ∀ dtbo ∈ b.dtbos, (builds.findSome? (· dtbo)).isSome) : Matched m b b := by
  refine matched_self_iff.mpr fun dtbo hdtbo => .inl (List.mem_filter.mpr ⟨hdtbo, ?_⟩)
  rw [hoverlays]
  exact installOverlays_isSome (.inr ⟨hdtbo, hbuilt dtbo hdtbo⟩)

end Kernel

/-- A FAT image as the list of its names, where a name is not used twice. -/
def nameTable : Mtools where
  Fat := List Text
  entry := List.map Char.toLower
  format := ["/".toList]
  mmd fat d :=
    if d.map Char.toLower ∈ fat.map (List.map Char.toLower) then none else some (d :: fat)
  mcopy fat _ d :=
    if d.map Char.toLower ∈ fat.map (List.map Char.toLower) then none else some (d :: fat)
  leads fat p := p.map Char.toLower ∈ fat.map (List.map Char.toLower)
  leads_format p := by simp
  leads_mmd h p := by
    split_ifs at h
    obtain rfl := Option.some.inj h
    simp [or_comm]
  leads_mcopy h p := by
    split_ifs at h
    obtain rfl := Option.some.inj h
    simp [or_comm]

/-- A board with two overlays, of which the kernel build has found one. -/
def twoOverlays : Stage where
  kernelDtb := "rk3588-muse.dtb".toList
  kernelDtbo := "spi.dtbo can.dtbo".toList
  rootfsMode := rwExt4
  image := some "kernel".toList
  dtb := some "device tree".toList
  initrd := none
  overlays dtbo := if dtbo = "spi.dtbo".toList then some "overlay".toList else none
  matching _ := []

def museLabels : Labels := ⟨"rk3588-muse".toList, "ttyFIQ0,1500000n8".toList, []⟩

def twoOverlaysImage : BootImage nameTable where
  conf := twoOverlays.conf museLabels
  fat := ["/overlays/spi.dtbo".toList, "/overlays".toList, "/extlinux/extlinux.conf".toList,
    "/rk3588-muse.dtb".toList, "/Image".toList, "/extlinux".toList, "/".toList]
  copied := ["/overlays/spi.dtbo".toList]
  log := ["Copied DTBO to boot partition: spi.dtbo".toList,
    "KERNEL_DTBO file missing from artifacts: can.dtbo".toList]

theorem makeBootImage_twoOverlays :
    makeBootImage nameTable museLabels twoOverlays twoOverlays = some twoOverlaysImage := by
  rfl

/-- The kernel build has found both. -/
def bothOverlays : Stage := { twoOverlays with overlays := fun _ => some "overlay".toList }

theorem boot_closure_twoOverlays : ∃ r,
    makeBootImage nameTable museLabels bothOverlays bothOverlays = some r ∧ Closed nameTable r := by
  obtain ⟨r, hmade⟩ := Option.isSome_iff_exists.mp
    (by rfl : (makeBootImage nameTable museLabels bothOverlays bothOverlays).isSome = true)
  refine ⟨r, hmade, (boot_closure_iff hmade).mpr ⟨?_, fun hmode => ?_, ?_, ?_⟩⟩
  · unfold Provided
    decide +kernel
  · exact absurd hmode (by decide)
  · exact fun dtbo hdtbo => .inl (by
      revert dtbo
      decide +kernel)
  · decide +kernel

/-- The configuration names the overlay that is not in the image. -/
theorem overlay_missing : ∃ r, makeBootImage nameTable museLabels twoOverlays twoOverlays = some r ∧
    ¬ Closed nameTable r := by
  refine ⟨twoOverlaysImage, makeBootImage_twoOverlays, fun h => ?_⟩
  have hleads := h.named "/overlays/can.dtbo".toList (by decide +kernel)
  exact absurd hleads (by decide +kernel)

end BootClosure
