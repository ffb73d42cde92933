import SbcImageBuild.Foundation.ShellText

/-!
# The overlay root

The `overlayroot` hook of the initramfs, which lays a data partition over the read-only root. Every
mount may fail.
-/
namespace OverlayRoot

open ShellText

inductive Fs where
  | squashfs
  | ext4 (dev : Text)
  | tmpfs
  | overlay (lower upper : Fs)
  deriving DecidableEq

/-- What is mounted at the places of the hook; `newRo` and `newData` are in the new root. -/
structure Mounts where
  rootmnt : Option Fs
  ro : Option Fs
  overlay : Option Fs
  newRo : Option Fs
  newData : Option Fs
  deriving DecidableEq

/-- The kernel has mounted its root. -/
def booted : Mounts := ⟨some .squashfs, none, none, none, none⟩

/-- What the hook meets: the command line, the device at each look, whether it is a block device at
a look and once more behind the last one, and the mounts that work. -/
structure Env where
  cmdline : Text
  resolveDevice : ℕ → Text
  block : ℕ → Text → Bool
  mountData : Text → Bool
  mountTmpfs : Bool
  moveRoot : Bool
  mountOverlay : Bool
  moveBack : Bool
  moveRo : Bool
  moveData : Bool

inductive Outcome where
  | untouched
  | panicked (message : Text)
  | assembled (upper : Fs)
  deriving DecidableEq

structure Boot where
  mounts : Mounts
  outcome : Outcome
  deriving DecidableEq

section Hook

variable (e : Env)

def overlayrootPrefix : Text := "overlayroot=".toList

/-- The last argument of the command line counts. -/
def overlayroot : Text :=
  ((e.cmdline.splitOnP (· ∈ " \t\n".toList)).filter (overlayrootPrefix <+: ·)).getLast?.elim []
    (·.drop overlayrootPrefix.length)

/-- A block device is there at a look. -/
def Env.ready (t : ℕ) : Prop :=
  e.resolveDevice t ≠ [] ∧ e.block t (e.resolveDevice t) = true

instance : DecidablePred e.ready := fun t =>
  inferInstanceAs (Decidable (e.resolveDevice t ≠ [] ∧ _))

/-- The looks for the device: what the last one found, and how many there were. -/
def waitDevice : ℕ → ℕ → Text → Text × ℕ
  | 0, t, dataDev => (dataDev, t)
  | tries + 1, t, _ =>
    if e.ready t then (e.resolveDevice t, t + 1) else waitDevice tries (t + 1) (e.resolveDevice t)

def dataTries : ℕ := 50

def dataDev : Text := (waitDevice e dataTries 0 []).1

/-- `OVERLAY_PERSISTENT` -/
def persistent : Bool :=
  dataDev e ≠ [] ∧ e.block (waitDevice e dataTries 0 []).2 (dataDev e) ∧ e.mountData (dataDev e)

def upper : Fs := if persistent e then .ext4 (dataDev e) else .tmpfs

def noTmpfs : Text := "overlayroot: unable to mount tmpfs fallback".toList
def noMove : Text := "overlayroot: unable to move squashfs root aside".toList
def noOverlay : Text := "overlayroot: unable to mount overlay filesystem".toList

/-- The mounts behind the one of the overlay. Their failures are ignored. -/
def exposed (m : Mounts) : Mounts :=
  let m := if e.moveRo then { m with newRo := m.ro, ro := none } else m
  if persistent e ∧ e.moveData then { m with newData := m.overlay, overlay := none } else m

def hook (m : Mounts) : Boot :=
  if overlayroot e = [] then ⟨m, .untouched⟩
  else if persistent e = false ∧ e.mountTmpfs = false then ⟨m, .panicked noTmpfs⟩
  else
    let m := { m with overlay := some (upper e) }
    if e.moveRoot = false then ⟨m, .panicked noMove⟩
    else
      let m := { m with ro := m.rootmnt, rootmnt := none }
      if e.mountOverlay = false then
        ⟨if e.moveBack then { m with rootmnt := m.ro, ro := none } else m, .panicked noOverlay⟩
      else
        ⟨exposed e { m with rootmnt := m.ro.map fun lower => .overlay lower (upper e) },
          .assembled (upper e)⟩

end Hook

/-! ### One boot -/

section OneBoot

variable {e : Env}

/-- What one may rely on however the mounts of a boot go. -/
structure Sound (e : Env) (b : Boot) : Prop where
  untouched : b.outcome = .untouched → b.mounts = booted ∧ overlayroot e = []
  /-- The root is writable and lies over the read-only one, which stays mounted. -/
  assembled : ∀ u, b.outcome = .assembled u →
    b.mounts.rootmnt = some (.overlay .squashfs u) ∧
      (b.mounts.ro = some .squashfs ∨ b.mounts.newRo = some .squashfs)
  /-- The data partition is the upper layer if a look finds it and it can be mounted. -/
  persistent : ∀ u, b.outcome = .assembled u → ∀ t < dataTries, e.ready t →
    (∀ i < t, ¬ e.ready i) → e.block (t + 1) (e.resolveDevice t) = true →
    e.mountData (e.resolveDevice t) = true → u = .ext4 (e.resolveDevice t)
  /-- Only a data partition is shown as `/data`. -/
  data : ∀ u, b.mounts.newData = some u → ∃ dev, u = .ext4 dev ∧ b.outcome = .assembled u
  /-- A boot that stops has its root as it was, unless the root could not be moved back. -/
  panicked : ∀ message, b.outcome = .panicked message →
    b.mounts.rootmnt = some .squashfs ∨
      (e.moveBack = false ∧ b.mounts.rootmnt = none ∧ b.mounts.ro = some .squashfs)

theorem waitDevice_first {tries t i : ℕ} {dataDev : Text} (hlow : t ≤ i) (hi : i < t + tries)
    (hready : e.ready i) (hfirst : ∀ j, t ≤ j → j < i → ¬ e.ready j) :
    waitDevice e tries t dataDev = (e.resolveDevice i, i + 1) := by
  induction tries generalizing t dataDev with
  | zero => omega
  | succ tries ih =>
    rw [waitDevice]
    rcases Nat.lt_or_ge t i with hlt | hge
    · rw [if_neg (hfirst t (Nat.le_refl t) hlt)]
      exact ih hlt (by omega) fun j hj => hfirst j (Nat.le_of_succ_le hj)
    · obtain rfl : t = i := Nat.le_antisymm hlow hge
      rw [if_pos hready]

theorem upper_of_ready {t : ℕ} (ht : t < dataTries) (hready : e.ready t)
    (hfirst : ∀ i < t, ¬ e.ready i) (hblock : e.block (t + 1) (e.resolveDevice t) = true)
    (hmount : e.mountData (e.resolveDevice t) = true) :
    upper e = .ext4 (e.resolveDevice t) := by
  have hwait : waitDevice e dataTries 0 [] = (e.resolveDevice t, t + 1) :=
    waitDevice_first (Nat.zero_le t) (by omega) hready fun j _ => hfirst j
  have hdev : dataDev e = e.resolveDevice t := congrArg Prod.fst hwait
  have hpersistent : persistent e = true := by
    rw [persistent, decide_eq_true_iff, hdev, hwait]
    exact ⟨hready.1, hblock, hmount⟩
  rw [upper, if_pos hpersistent, hdev]

theorem exposed_rootmnt (e : Env) (m : Mounts) : (exposed e m).rootmnt = m.rootmnt := by
  simp only [exposed]
  split <;> split <;> rfl

theorem exposed_ro (e : Env) (m : Mounts) :
    (exposed e m).ro = m.ro ∨ (exposed e m).newRo = m.ro := by
  simp only [exposed]
  cases e.moveRo with
  | true => exact .inr (by split <;> rfl)
  | false => exact .inl (by split <;> rfl)

theorem exposed_newData {m : Mounts} {u : Fs} (hnone : m.newData = none)
    (h : (exposed e m).newData = some u) : persistent e = true ∧ m.overlay = some u := by
  simp only [exposed] at h
  split at h
  · rename_i hboth
    refine ⟨hboth.1, ?_⟩
    split at h
    · exact h
    · exact h
  · split at h
    · exact absurd (hnone.symm.trans h) (by simp)
    · exact absurd (hnone.symm.trans h) (by simp)

/-- Whatever fails, the hook leaves one of its three results. -/
theorem hook_sound (e : Env) : Sound e (hook e booted) := by
  unfold hook
  split
  · rename_i hspec
    exact ⟨fun _ => ⟨rfl, hspec⟩, nofun, nofun, nofun, nofun⟩
  rename_i hspec
  split
  · exact ⟨nofun, nofun, nofun, nofun, fun _ _ => .inl rfl⟩
  dsimp only
  split
  · exact ⟨nofun, nofun, nofun, nofun, fun _ _ => .inl rfl⟩
  split
  · refine ⟨nofun, nofun, nofun, ?_, ?_⟩
    · intro u hdata
      split at hdata <;> cases hdata
    · intro message _
      split
      · exact .inl rfl
      · rename_i hback
        exact .inr ⟨by simpa using hback, rfl, rfl⟩
  · refine ⟨nofun, ?_, ?_, ?_, nofun⟩
    · intro u hu
      cases hu
      exact ⟨exposed_rootmnt e _, exposed_ro e _⟩
    · intro u hu t ht hready hfirst hblock hmount
      cases hu
      exact upper_of_ready ht hready hfirst hblock hmount
    · intro u hdata
      obtain ⟨hpersistent, hoverlay⟩ := exposed_newData rfl hdata
      obtain rfl : upper e = u := Option.some.inj hoverlay
      exact ⟨dataDev e, if_pos hpersistent, rfl⟩

end OneBoot

end OverlayRoot
