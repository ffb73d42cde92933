import SbcImageBuild.OverlayText
import SbcImageBuild.Foundation.StepSystem
import Mathlib.Data.List.Infix
import Mathlib.Order.Monotone.Basic

/-!
# The first boot

`sbc-firstboot` command by command. The power may be cut at every command and every command may
fail; the next boot starts the script again on what is then on the disk.
-/
namespace FirstBoot

open ShellText OverlayText StepSystem

/-- The commands that look for the device. One that fails prints nothing. -/
inductive Query where
  | findFstype | findSource | readlink | findfs | cat | readlinkBlock | dirname | basename
  deriving DecidableEq

/-- What these commands and the tests of the shell see: the type of `/`, the source of a mount
point, `readlink -f`, the device with a label, block devices, and for a name in `/sys/class/block`
the file `partition` and the path of the device. -/
structure Devices where
  fstype : Text
  source : Text → Text
  canonical : Text → Text
  labelled : Text → Text
  block : Text → Bool
  partition : Text → Option Text
  path : Text → List Text

/-- The variables of the script of these names. -/
structure Located where
  rootdev : Text
  partnum : Text
  rootdisk : Text
  deriving DecidableEq

def dev : Text := "/dev/".toList

/-- `${rootdev#/dev/}` -/
def afterDev (rootdev : Text) : Text := if dev <+: rootdev then rootdev.drop 5 else rootdev

/-- One of the two searches: a mount point, then a label. -/
def findDevice (d : Devices) (failing : Query → Bool) (mount label missing : Text) :
    Except Text Text :=
  let source := if failing .findSource then [] else d.source mount
  let canonical := if failing .readlink then [] else d.canonical source
  let rootdev :=
    if canonical = [] ∨ d.block canonical = false then
      if failing .findfs then [] else d.labelled label
    else canonical
  if rootdev = [] ∨ d.block rootdev = false then .error missing else .ok rootdev

/-- In overlay mode the data partition, else the root. -/
def findRootdev (d : Devices) (failing : Query → Bool) : Except Text Text :=
  let rootFstype := if failing .findFstype then [] else d.fstype
  if rootFstype = "overlay".toList then
    findDevice d failing "/data".toList "data".toList "Unable to locate data block device".toList
  else
    findDevice d failing "/".toList "rootfs".toList "Unable to locate rootfs block device".toList

/-- The name of the directory that holds a device: the disk of a partition. -/
def Devices.disk (d : Devices) (name : Text) : Text := (d.path name).dropLast.getLastD "/".toList

/-- `basename` of `dirname` of `readlink -f`. -/
def rootdiskName (d : Devices) (failing : Query → Bool) (name : Text) : Text :=
  if failing .dirname then []
  else if failing .readlinkBlock then ".".toList
  else d.disk name

/-- The search for the device. Where `set -e` ends it, there is no message of the script. -/
def locate (d : Devices) (failing : Query → Bool) : Except Text Located := do
  let rootdev ← findRootdev d failing
  let name := afterDev rootdev
  match d.partition name with
  | none => .error ("Unable to locate partition metadata for ".toList ++ rootdev)
  | some content =>
    require (failing .cat = false ∧ failing .basename = false) []
    let partnum := fileText content
    let rootdisk := dev ++ rootdiskName d failing name
    require (AllDigits partnum)
      ("Unable to determine root partition number for ".toList ++ rootdev)
    require (rootdiskName d failing name ≠ [] ∧ d.block rootdisk)
      ("Unable to determine parent disk for ".toList ++ rootdev)
    pure ⟨rootdev, partnum, rootdisk⟩

/-- Where the partition to grow is mounted. -/
def Devices.mountPoint (d : Devices) : Text :=
  if d.fstype = "overlay".toList then "/data".toList else "/".toList

def Devices.label (d : Devices) : Text :=
  if d.fstype = "overlay".toList then "data".toList else "rootfs".toList

/-- A machine with one disk. The partition to grow is on it; the source of its mount point is a link
to it, or no device at all, and its label is found. `room` is the largest size it can have when the
backup GPT ends at a given sector. -/
structure Machine extends Devices where
  rootdev : Text
  number : Text
  imageSize : ℕ
  diskSize : ℕ
  room : ℕ → ℕ
  partSize : ℕ
  fsSize : ℕ
  mounted : canonical (source toDevices.mountPoint) = rootdev ∨
    block (canonical (source toDevices.mountPoint)) = false
  labelled_rootdev : labelled toDevices.label = rootdev
  numbered : partition (afterDev rootdev) = some number ∧ AllDigits (fileText number)
  named : toDevices.disk (afterDev rootdev) ≠ []
  rootdev_block : block rootdev
  rootdisk_block : block (dev ++ toDevices.disk (afterDev rootdev))
  no_block : block [] = false ∧ block (dev ++ ".".toList) = false
  image_fits : imageSize ≤ diskSize
  room_mono : Monotone room
  part_fits : partSize ≤ room imageSize
  fs_fits : fsSize ≤ partSize

def Machine.target (m : Machine) : Located :=
  ⟨m.rootdev, fileText m.number, dev ++ m.disk (afterDev m.rootdev)⟩

/-- An image of 2 GiB on a card of 32 GB, with an ext4 root. -/
def card : Machine where
  fstype := "ext4".toList
  source mount := if mount = "/".toList then "/dev/mmcblk0p2".toList else []
  canonical := id
  labelled label := if label = "rootfs".toList then "/dev/mmcblk0p2".toList else []
  block path := path ∈ ["/dev/mmcblk0".toList, "/dev/mmcblk0p2".toList]
  partition name := if name = "mmcblk0p2".toList then some "2\n".toList else none
  path name := ["sys".toList, "block".toList, "mmcblk0".toList, name]
  rootdev := "/dev/mmcblk0p2".toList
  number := "2\n".toList
  imageSize := 4194304
  diskSize := 62333952
  room backup := backup - 557089
  partSize := 3635200
  fsSize := 3635200
  mounted := .inl rfl
  labelled_rootdev := rfl
  numbered := ⟨rfl, by decide⟩
  named := by decide
  rootdev_block := by decide
  rootdisk_block := by decide
  no_block := by decide
  image_fits := by decide
  room_mono := fun _ _ h => Nat.sub_le_sub_right h _
  part_fits := by decide
  fs_fits := by decide

/-- What a power cut leaves. `enabled` is the link in `multi-user.target.wants`. -/
structure Disk where
  backup : ℕ
  part : ℕ
  fs : ℕ
  marker : Bool
  enabled : Bool
  deriving DecidableEq

/-- The next command, if the script runs. -/
inductive Point where
  | check
  | locate
  | sgdisk (l : Located)
  | growpart (l : Located)
  | partx (l : Located)
  | settle (l : Located)
  | resize2fs (l : Located)
  | info
  | mkdir
  | touch
  | disable
  | ended
  deriving DecidableEq

/-- `kernel` is the size of the partition that the running kernel knows. -/
structure State where
  disk : Disk
  kernel : ℕ
  point : Point
  deriving DecidableEq

/-- The end of one command, or of the boot. A command that fails or is cut may have done nothing or
everything, and `resize2fs` a part; `growpart` prints an output. -/
inductive Event where
  | power
  | ok
  | queries (failing : Query → Bool)
  | failed (extent : ℕ) (output : Text)
  | cut (extent : ℕ)

/-- The effect of a command. A read-only root, on which an overlay may lie, has no room to grow. -/
def effect (m : Machine) (s : State) : State :=
  match s.point with
  | .sgdisk l =>
    if l.rootdisk = m.target.rootdisk then { s with disk.backup := m.diskSize } else s
  | .growpart l =>
    if l.rootdisk = m.target.rootdisk ∧ l.partnum = m.target.partnum then
      { s with disk.part := m.room s.disk.backup }
    else s
  | .partx l =>
    if l.rootdisk = m.target.rootdisk ∧ l.partnum = m.target.partnum then
      { s with kernel := s.disk.part }
    else s
  | .resize2fs l => if l.rootdev = m.rootdev then { s with disk.fs := s.kernel } else s
  | .touch => { s with disk.marker := true }
  | .disable => { s with disk.enabled := false }
  | _ => s

def partialEffect (m : Machine) (extent : ℕ) (s : State) : State :=
  match s.point with
  | .resize2fs l =>
    if l.rootdev = m.rootdev then { s with disk.fs := max s.disk.fs (min s.kernel extent) } else s
  | _ => if extent = 0 then s else effect m s

def nochange : Text := "NOCHANGE".toList

/-- The status and the output of `growpart`. -/
def growpartAnswer (m : Machine) (s : State) (l : Located) : ℕ × Text :=
  if (effect m s).disk.part = s.disk.part then (1, nochange ++ ": partition ".toList ++ l.partnum)
  else (0, "CHANGED: partition=".toList ++ l.partnum)

def afterGrowpart (l : Located) (answer : ℕ × Text) : Point :=
  if answer.1 ≠ 0 ∧ ¬ nochange <:+: answer.2 then .ended else .partx l

def afterLocate (d : Devices) (failing : Query → Bool) : Point :=
  match locate d failing with
  | .ok l => .sgdisk l
  | .error _ => .ended

/-- The command after one that succeeds. No device but the one to grow has a file system that
`resize2fs` accepts. -/
def afterOk (m : Machine) (s : State) : Option Point :=
  match s.point with
  | .check => some (if s.disk.marker then .ended else .locate)
  | .locate => some (afterLocate m.toDevices fun _ => false)
  | .sgdisk l => some (.growpart l)
  | .growpart l => some (afterGrowpart l (growpartAnswer m s l))
  | .partx l => some (.settle l)
  | .settle l => some (.resize2fs l)
  | .resize2fs l => if l.rootdev = m.rootdev then some .info else none
  | .info => some .mkdir
  | .mkdir => some .touch
  | .touch => some .disable
  | .disable => some .ended
  | .ended => none

/-- The command after one that fails: none under `set -e`, except where `|| true` or the branch of
`growpart` says otherwise. Only a partition that is as large as possible is reported as such. -/
def afterFailed (s : State) (output : Text) : Option Point :=
  match s.point with
  | .growpart l => if nochange <:+: output then none else some (afterGrowpart l (1, output))
  | .info => some .mkdir
  | .check | .locate | .ended => none
  | _ => some .ended

def step (m : Machine) (s : State) : Event → Option State
  | .power =>
    some ⟨s.disk, s.disk.part, if s.disk.enabled && !s.disk.marker then .check else .ended⟩
  | .ok => (afterOk m s).map fun p => { effect m s with point := p }
  | .queries failing =>
    match s.point with
    | .locate => some { s with point := afterLocate m.toDevices failing }
    | _ => none
  | .failed extent output =>
    (afterFailed s output).map fun p => { partialEffect m extent s with point := p }
  | .cut extent => if s.point = .ended then none else
    some { partialEffect m extent s with point := .ended }

/-- The image as it was written. -/
def initial (m : Machine) : State :=
  ⟨⟨m.imageSize, m.partSize, m.fsSize, false, true⟩, m.partSize, .ended⟩

def Reachable (m : Machine) (s : State) : Prop := ∃ es, run (step m) es (initial m) = some s

/-- Nothing is left to grow. -/
def Filled (m : Machine) (d : Disk) : Prop := d.part = m.room m.diskSize ∧ d.fs = d.part

/-- The sizes only grow, the marker stands for a full disk and ends all changes, and a boot without
failures sets it. -/
structure CrashSafe (m : Machine) : Prop where
  grows : ∀ {s t es}, Reachable m s → run (step m) es s = some t →
    s.disk.part ≤ t.disk.part ∧ s.disk.fs ≤ t.disk.fs
  marked : ∀ {s}, Reachable m s → s.disk.marker → Filled m s.disk
  stays : ∀ {s t es}, Reachable m s → s.disk.marker →
    run (step m) (.power :: es) s = some t → t.disk = s.disk
  completes : ∀ {s}, Reachable m s → ∃ n t,
    run (step m) (.power :: List.replicate n .ok) s = some t ∧ t.point = .ended ∧ t.disk.marker

section Search

variable {m : Machine} {failing : Query → Bool}

/-- With all answers the search ends at the device, over the mount point or over the label. -/
theorem findDevice_target (missing : Text) :
    findDevice m.toDevices (fun _ => false) m.mountPoint m.label missing = .ok m.rootdev := by
  have hne : m.rootdev ≠ [] := fun heq => by simpa [heq, m.no_block.1] using m.rootdev_block
  have hrootdev : ¬ (m.rootdev = [] ∨ m.block m.rootdev = false) := by
    rintro (heq | hno)
    · exact hne heq
    · simp [m.rootdev_block] at hno
  unfold findDevice
  simp only [Bool.false_eq_true, if_false, m.labelled_rootdev]
  have hsearch : (if m.canonical (m.source m.mountPoint) = [] ∨
      m.block (m.canonical (m.source m.mountPoint)) = false then m.rootdev
      else m.canonical (m.source m.mountPoint)) = m.rootdev := by
    rcases m.mounted with hlink | hno
    · rw [hlink, if_neg hrootdev]
    · rw [if_pos (.inr hno)]
  rw [hsearch, if_neg hrootdev]

theorem findRootdev_target : findRootdev m.toDevices (fun _ => false) = .ok m.rootdev := by
  have htarget := findDevice_target (m := m)
  unfold Devices.mountPoint Devices.label at htarget
  unfold findRootdev
  simp only [Bool.false_eq_true, if_false]
  split <;> rename_i hoverlay
  · simpa only [if_pos hoverlay] using htarget "Unable to locate data block device".toList
  · simpa only [if_neg hoverlay] using htarget "Unable to locate rootfs block device".toList

theorem locate_target : locate m.toDevices (fun _ => false) = .ok m.target := by
  have hdisk : rootdiskName m.toDevices (fun _ => false) (afterDev m.rootdev) =
      m.disk (afterDev m.rootdev) := rfl
  unfold locate
  rw [findRootdev_target]
  simp only [bind, Except.bind, m.numbered.1, hdisk, require, m.numbered.2, m.named,
    m.rootdisk_block, and_self, ne_eq, not_false_eq_true, if_true]
  rfl

/-- A search that ends at the device has its number and its disk, whatever failed before. -/
theorem locate_rootdev {l : Located} (h : locate m.toDevices failing = .ok l)
    (hdev : l.rootdev = m.rootdev) : l = m.target := by
  obtain ⟨rootdev, -, h⟩ := bind_ok.mp h
  cases hpart : m.partition (afterDev rootdev) with
  | none => simp [hpart] at h
  | some content =>
    simp only [hpart, bind_ok, require_ok, pure, Except.pure, Except.ok.injEq] at h
    obtain ⟨-, -, -, -, -, ⟨hname, hblock⟩, rfl⟩ := h
    subst hdev
    obtain rfl : m.number = content := Option.some.inj (m.numbered.1.symm.trans hpart)
    unfold rootdiskName at hname hblock ⊢
    cases hdir : failing .dirname with
    | true => simp [hdir] at hname
    | false =>
      cases hlink : failing .readlinkBlock with
      | true =>
        simp only [hdir, hlink, Bool.false_eq_true, if_false, if_true, m.no_block.2] at hblock
      | false => rfl

end Search

/-- What holds of the sizes at every time. -/
structure Sound (m : Machine) (d : Disk) (kernel : ℕ) : Prop where
  backup_le : d.backup ≤ m.diskSize
  part_le : d.part ≤ m.room d.backup
  kernel_le : kernel ≤ d.part
  fs_le : d.fs ≤ kernel
  marked : d.marker → Filled m d
  enabled : d.enabled = false → d.marker

/-- The search led to the device, and the commands behind it have had this effect. -/
def Aimed (m : Machine) (l : Located) (P : Prop) : Prop := l.rootdev = m.rootdev → l = m.target ∧ P

/-- What the commands of this boot have done so far. -/
def Progress (m : Machine) (s : State) : Prop :=
  match s.point with
  | .sgdisk l => Aimed m l True
  | .growpart l => Aimed m l (s.disk.backup = m.diskSize)
  | .partx l => Aimed m l (s.disk.part = m.room m.diskSize)
  | .settle l => Aimed m l (s.disk.part = m.room m.diskSize ∧ s.kernel = s.disk.part)
  | .resize2fs l => Aimed m l (s.disk.part = m.room m.diskSize ∧ s.kernel = s.disk.part)
  | .info => Filled m s.disk
  | .mkdir => Filled m s.disk
  | .touch => Filled m s.disk
  | .disable => s.disk.marker
  | _ => True

section Steps

variable {m : Machine} {s t : State} {e : Event}

theorem room_le (h : Sound m s.disk s.kernel) : m.room s.disk.backup ≤ m.room m.diskSize :=
  m.room_mono h.backup_le

/-- A full disk is as large as the kernel knows it. -/
theorem filled_kernel (h : Sound m s.disk s.kernel) (hfilled : Filled m s.disk) :
    s.kernel = s.disk.part := by
  have := h.kernel_le
  have := h.fs_le
  have := hfilled.2
  omega

theorem sound_effect (hs : Sound m s.disk s.kernel) (hp : Progress m s) :
    Sound m (effect m s).disk (effect m s).kernel := by
  have hroom := room_le hs
  unfold effect
  split
  case h_1 =>
    split
    · exact { hs with backup_le := le_rfl, part_le := hs.part_le.trans hroom }
    · exact hs
  case h_2 =>
    split
    · refine { hs with
        part_le := le_rfl, kernel_le := hs.kernel_le.trans hs.part_le, marked := fun hm => ?_ }
      have hfilled := hs.marked hm
      have hpart := hs.part_le
      have hkernel := filled_kernel hs hfilled
      constructor
      · exact le_antisymm hroom (hfilled.1 ▸ hpart)
      · have := hfilled.1
        have := hfilled.2
        dsimp only
        omega
    · exact hs
  case h_3 =>
    split
    · exact { hs with kernel_le := le_rfl, fs_le := hs.fs_le.trans hs.kernel_le }
    · exact hs
  case h_4 =>
    split
    · refine { hs with fs_le := le_rfl, marked := fun hm => ⟨(hs.marked hm).1, ?_⟩ }
      exact filled_kernel hs (hs.marked hm)
    · exact hs
  case h_5 hpoint =>
    simp only [Progress, hpoint] at hp
    exact { hs with marked := fun _ => hp, enabled := fun _ => rfl }
  case h_6 hpoint =>
    simp only [Progress, hpoint] at hp
    exact { hs with enabled := fun _ => hp }
  case h_7 => exact hs

theorem sound_partialEffect (extent : ℕ) (hs : Sound m s.disk s.kernel) (hp : Progress m s) :
    Sound m (partialEffect m extent s).disk (partialEffect m extent s).kernel := by
  unfold partialEffect
  split
  · split
    · refine { hs with fs_le := max_le hs.fs_le (min_le_left _ _), marked := fun hm => ?_ }
      have hfilled := hs.marked hm
      have hkernel := filled_kernel hs hfilled
      refine ⟨hfilled.1, ?_⟩
      have := hfilled.2
      dsimp only
      omega
    · exact hs
  · split
    · exact hs
    · exact sound_effect hs hp

/-- The sizes of the second state are at least those of the first. -/
def Grown (d d' : Disk) : Prop := d.part ≤ d'.part ∧ d.fs ≤ d'.fs

theorem grown_effect (hs : Sound m s.disk s.kernel) : Grown s.disk (effect m s).disk := by
  unfold effect
  split
  case h_2 =>
    split
    · exact ⟨hs.part_le, le_rfl⟩
    · exact ⟨le_rfl, le_rfl⟩
  case h_4 =>
    split
    · exact ⟨le_rfl, hs.fs_le⟩
    · exact ⟨le_rfl, le_rfl⟩
  all_goals
    first
    | exact ⟨le_rfl, le_rfl⟩
    | split <;> exact ⟨le_rfl, le_rfl⟩

theorem grown_partialEffect (extent : ℕ) (hs : Sound m s.disk s.kernel) :
    Grown s.disk (partialEffect m extent s).disk := by
  unfold partialEffect
  split
  · split
    · exact ⟨le_rfl, le_max_left _ _⟩
    · exact ⟨le_rfl, le_rfl⟩
  · split
    · exact ⟨le_rfl, le_rfl⟩
    · exact grown_effect hs

/-- A failure ends the script, except for that of the banner. -/
theorem afterFailed_cases {output : Text} {p : Point} (h : afterFailed s output = some p) :
    p = .ended ∨ s.point = .info ∧ p = .mkdir := by
  unfold afterFailed at h
  split at h
  case h_1 l hpoint =>
    split at h
    · cases h
    · rename_i houtput
      left
      rw [← Option.some.inj h, afterGrowpart, if_pos ⟨Nat.one_ne_zero, houtput⟩]
  case h_2 hpoint => exact .inr ⟨hpoint, (Option.some.inj h).symm⟩
  case h_6 => exact .inl (Option.some.inj h).symm
  all_goals cases h

/-- Both answers of `growpart` lead on. -/
theorem afterGrowpart_answer (l : Located) :
    afterGrowpart l (growpartAnswer m s l) = .partx l := by
  unfold growpartAnswer
  split
  · have hreported : nochange <:+: nochange ++ ": partition ".toList ++ l.partnum := by
      rw [List.append_assoc]
      exact (List.prefix_append _ _).isInfix
    exact if_neg fun h => h.2 hreported
  · exact if_neg fun h => h.1 rfl

theorem progress_locate (d : Disk) (k : ℕ) (failing : Query → Bool) :
    Progress m ⟨d, k, afterLocate m.toDevices failing⟩ := by
  unfold afterLocate
  split
  · rename_i l hl
    exact fun hdev => ⟨locate_rootdev hl hdev, trivial⟩
  · exact trivial

/-- What a successful command has done is there for the next one. -/
theorem progress_ok {p : Point} (hs : Sound m s.disk s.kernel) (hp : Progress m s)
    (h : afterOk m s = some p) : Progress m { effect m s with point := p } := by
  obtain ⟨d, k, point⟩ := s
  cases point with
  | check =>
    obtain rfl := Option.some.inj h
    dsimp only
    split <;> exact trivial
  | locate =>
    obtain rfl := Option.some.inj h
    exact progress_locate d k _
  | sgdisk l =>
    obtain rfl := Option.some.inj h
    intro hdev
    have htarget := (hp hdev).1
    exact ⟨htarget, by simp [effect, htarget]⟩
  | growpart l =>
    obtain rfl := Option.some.inj h
    rw [afterGrowpart_answer]
    intro hdev
    obtain ⟨htarget, hbackup⟩ := hp hdev
    exact ⟨htarget, by simp [effect, htarget, ← hbackup]⟩
  | partx l =>
    obtain rfl := Option.some.inj h
    intro hdev
    obtain ⟨htarget, hpart⟩ := hp hdev
    exact ⟨htarget, by simpa [effect, htarget] using hpart⟩
  | settle l =>
    obtain rfl := Option.some.inj h
    exact hp
  | resize2fs l =>
    simp only [afterOk] at h
    split at h
    · rename_i hdev
      obtain rfl := Option.some.inj h
      obtain ⟨-, hpart, hkernel⟩ := hp hdev
      simpa [Progress, Filled, effect, hdev] using ⟨hpart, hkernel⟩
    · cases h
  | info =>
    obtain rfl := Option.some.inj h
    exact hp
  | mkdir =>
    obtain rfl := Option.some.inj h
    exact hp
  | touch =>
    obtain rfl := Option.some.inj h
    exact rfl
  | disable =>
    obtain rfl := Option.some.inj h
    exact trivial
  | ended => cases h

/-- The sizes are sound, and the running script has done what its place says. -/
def Invariant (m : Machine) (s : State) : Prop := Sound m s.disk s.kernel ∧ Progress m s

theorem initial_invariant : Invariant m (initial m) where
  left := {
    backup_le := m.image_fits
    part_le := m.part_fits
    kernel_le := le_rfl
    fs_le := m.fs_fits
    marked := fun hm => by cases hm
    enabled := fun hm => by cases hm }
  right := trivial

/-- A step keeps the invariant, and nothing shrinks. -/
theorem step_invariant (hi : Invariant m s) (h : step m s e = some t) :
    Invariant m t ∧ Grown s.disk t.disk := by
  obtain ⟨hs, hp⟩ := hi
  cases e with
  | power =>
    obtain rfl := Option.some.inj h
    refine ⟨⟨{ hs with kernel_le := le_rfl, fs_le := hs.fs_le.trans hs.kernel_le }, ?_⟩,
      le_rfl, le_rfl⟩
    unfold Progress
    dsimp only
    split_ifs <;> exact trivial
  | ok =>
    obtain ⟨p, hnext, rfl⟩ := Option.map_eq_some_iff.mp h
    exact ⟨⟨sound_effect hs hp, progress_ok hs hp hnext⟩, grown_effect hs⟩
  | queries failing =>
    simp only [step] at h
    split at h
    · obtain rfl := Option.some.inj h
      exact ⟨⟨hs, progress_locate _ _ _⟩, le_rfl, le_rfl⟩
    · cases h
  | failed extent output =>
    obtain ⟨p, hnext, rfl⟩ := Option.map_eq_some_iff.mp h
    refine ⟨⟨sound_partialEffect extent hs hp, ?_⟩, grown_partialEffect extent hs⟩
    rcases afterFailed_cases hnext with rfl | ⟨hpoint, rfl⟩
    · exact trivial
    · simp only [Progress, hpoint] at hp
      have hsame : (partialEffect m extent s).disk = s.disk := by
        simp [partialEffect, effect, hpoint]
      simpa only [Progress, hsame] using hp
  | cut extent =>
    simp only [step] at h
    split at h
    · cases h
    · obtain rfl := Option.some.inj h
      exact ⟨⟨sound_partialEffect extent hs hp, trivial⟩, grown_partialEffect extent hs⟩

theorem reachable_invariant (h : Reachable m s) : Invariant m s := by
  obtain ⟨es, hes⟩ := h
  exact run_invariant (fun _ _ _ hi he => (step_invariant hi he).1) initial_invariant hes

theorem run_grows (hi : Invariant m s) {es : List Event} (h : run (step m) es s = some t) :
    Grown s.disk t.disk := by
  have hkeep : Invariant m t ∧ Grown s.disk t.disk := by
    refine run_invariant (I := fun u => Invariant m u ∧ Grown s.disk u.disk) ?_
      ⟨hi, le_rfl, le_rfl⟩ h
    rintro u e v ⟨hu, hgrown⟩ he
    obtain ⟨hv, hpart, hfs⟩ := step_invariant hu he
    exact ⟨hv, hgrown.1.trans hpart, hgrown.2.trans hfs⟩
  exact hkeep.2

/-- Behind the marker no command is run any more. -/
theorem run_marked (hm : s.disk.marker) {es : List Event}
    (h : run (step m) (.power :: es) s = some t) : t.disk = s.disk := by
  obtain ⟨u, hu, ht⟩ := run_cons.mp h
  have hkeep : t.disk = s.disk ∧ t.point = .ended := by
    refine run_invariant (I := fun v => v.disk = s.disk ∧ v.point = .ended) ?_ ?_ ht
    · rintro v e w ⟨hdisk, hpoint⟩ he
      cases e with
      | power =>
        obtain rfl := Option.some.inj he
        exact ⟨hdisk, by simp [hdisk, hm]⟩
      | ok => simp [step, afterOk, hpoint] at he
      | queries failing => simp [step, hpoint] at he
      | failed extent output => simp [step, afterFailed, hpoint] at he
      | cut extent => simp [step, hpoint] at he
    · obtain rfl := Option.some.inj hu
      exact ⟨rfl, by simp [hm]⟩
  exact hkeep.1

/-- Without failures the script comes to its end with the marker. -/
def Completes (m : Machine) (s : State) : Prop :=
  ∃ n t, run (step m) (List.replicate n .ok) s = some t ∧ t.point = .ended ∧ t.disk.marker

theorem completes_ok {p : Point} (hnext : afterOk m s = some p)
    (h : Completes m { effect m s with point := p }) : Completes m s := by
  obtain ⟨n, t, hrun, hend⟩ := h
  refine ⟨n + 1, t, ?_, hend⟩
  rw [List.replicate_succ, run_cons]
  exact ⟨_, congrArg (Option.map _) hnext, hrun⟩

/-- The script without failures, from its first line to its last. -/
theorem script_completes (d : Disk) (k : ℕ) (hm : d.marker = false) :
    Completes m ⟨d, k, .check⟩ := by
  have hcheck : afterOk m ⟨d, k, .check⟩ = some .locate := by simp [afterOk, hm]
  have hlocate (d : Disk) (k : ℕ) : afterOk m ⟨d, k, .locate⟩ = some (.sgdisk m.target) := by
    simp [afterOk, afterLocate, locate_target]
  have hgrowpart (d : Disk) (k : ℕ) :
      afterOk m ⟨d, k, .growpart m.target⟩ = some (.partx m.target) :=
    congrArg some (afterGrowpart_answer m.target)
  have hresize (d : Disk) (k : ℕ) : afterOk m ⟨d, k, .resize2fs m.target⟩ = some .info :=
    if_pos rfl
  refine completes_ok hcheck (completes_ok (hlocate _ _) ?_)
  refine completes_ok rfl (completes_ok (hgrowpart _ _) (completes_ok rfl (completes_ok rfl ?_)))
  refine completes_ok (hresize _ _) (completes_ok rfl (completes_ok rfl ?_))
  exact completes_ok rfl (completes_ok rfl ⟨0, _, rfl, rfl, rfl⟩)

end Steps

/-- Growing at the first boot is safe against power cuts and failures. -/
theorem growth_crash_safe (m : Machine) : CrashSafe m where
  grows hs h := run_grows (reachable_invariant hs) h
  marked hs hm := (reachable_invariant hs).1.marked hm
  stays _ hm h := run_marked hm h
  completes := by
    intro s hs
    cases hm : s.disk.marker with
    | true =>
      refine ⟨0, _, rfl, ?_, hm⟩
      simp [hm]
    | false =>
      have henabled : s.disk.enabled = true := by
        by_contra hoff
        simp [(reachable_invariant hs).1.enabled (Bool.not_eq_true _ ▸ hoff)] at hm
      obtain ⟨n, t, hrun, hend⟩ := script_completes (m := m) s.disk s.disk.part hm
      refine ⟨n, t, ?_, hend⟩
      rw [run_cons]
      exact ⟨_, by simp [step, henabled, hm], hrun⟩

/-- The power fails inside `resize2fs`; the next boot resizes the rest. -/
example : (run (step card) ([.power] ++ List.replicate 6 .ok ++ [.cut 4000000, .power] ++
    List.replicate 11 .ok) (initial card)).map State.disk =
      some ⟨62333952, 61776863, 61776863, true, false⟩ := by
  decide +kernel

end FirstBoot
