import SbcImageBuild.Foundation.StampedFiles

/-!
# Provenance of the root file system image

What `build_debian.sh` leaves in the output directory of a board and release, run after run,
and which of it a following `make_image.sh` puts into the disk image.
-/
namespace RootfsProvenance

open StampedFiles

inductive RootfsMode where
  | rwExt4
  | roOverlay
  deriving DecidableEq, Repr

inductive OutputFile where
  | initrd
  | rootfsTar
  | ext4
  | squashfs
  | rootfsBuildInfo
  deriving DecidableEq, Repr

def rootfsImage : RootfsMode → OutputFile
  | .rwExt4 => .ext4
  | .roOverlay => .squashfs

/-- The old initramfs and tarball go first, whatever the mode; the initramfs of an overlay root
and the tarball are written before the image. -/
def packStaged (m : RootfsMode) : List (Effect OutputFile) :=
  [.remove .initrd, .remove .rootfsTar] ++
    (if m = .roOverlay then [.create .initrd] else []) ++ [.create .rootfsTar]

/-- Everything `build_debian.sh` does to the output directory. Packing an image starts with the
removal of the old one of the same mode; the metadata comes last. -/
def buildEffects (m : RootfsMode) : List (Effect OutputFile) :=
  packStaged m ++ [.remove (rootfsImage m), .create (rootfsImage m), .create .rootfsBuildInfo]

/-- A run stops after some of its effects; one that completes has room for all of them. -/
structure Run where
  mode : RootfsMode
  stop : ℕ
  deriving DecidableEq, Repr

def Run.effects (r : Run) : List (Effect OutputFile) := (buildEffects r.mode).take r.stop

def outputDir (runs : List Run) : Stamps OutputFile := after (runs.map Run.effects)

/-- The image that a successful `make_image.sh` embeds. It requires the image of its mode, and
the initramfs for an overlay root. -/
def makeImageEmbeds (m : RootfsMode) (s : Stamps OutputFile) : Option ℕ :=
  if m = .roOverlay ∧ s .initrd = none then none else s (rootfsImage m)

/-- The run got as far as removing the old image of mode `m`. -/
def Replaces (m : RootfsMode) (r : Run) : Prop := r.mode = m ∧ (packStaged m).length < r.stop

/-- The run got as far as writing its metadata. -/
def Records (r : Run) : Prop := (packStaged r.mode).length + 2 < r.stop

/-- The last run that wrote its metadata was one of mode `m`, and no later run of mode `m` got as
far as replacing the image. -/
def LastRecordStands (m : RootfsMode) (runs : List Run) : Prop :=
  ∀ j, LastWith Records runs j → (∃ r, runs[j]? = some r ∧ r.mode = m) ∧
    ∀ k, j < k → ∀ r, runs[k]? = some r → ¬ Replaces m r

theorem touches_image_iff {m : RootfsMode} {r : Run} :
    Touches (rootfsImage m) r.effects ↔ Replaces m r := by
  obtain ⟨mode, stop⟩ := r
  unfold Run.effects Replaces
  rcases stop with _ | _ | _ | _ | _ | _ | _ | n <;> cases m <;> cases mode <;>
    simp [Touches, buildEffects, packStaged, rootfsImage, Effect.file]

theorem touches_info_iff {r : Run} : Touches .rootfsBuildInfo r.effects ↔ Records r := by
  obtain ⟨mode, stop⟩ := r
  unfold Run.effects Records
  rcases stop with _ | _ | _ | _ | _ | _ | _ | n <;> cases mode <;>
    simp [Touches, buildEffects, packStaged, rootfsImage, Effect.file]

theorem embeds_image {m : RootfsMode} {s : Stamps OutputFile} {i : ℕ}
    (h : makeImageEmbeds m s = some i) : s (rootfsImage m) = some i := by
  unfold makeImageEmbeds at h
  split at h
  · cases h
  · exact h

/-- The image comes from the last run of its mode that began to replace it. -/
theorem image_last {m : RootfsMode} {runs : List Run} {i : ℕ}
    (h : outputDir runs (rootfsImage m) = some i) : LastWith (Replaces m) runs i := by
  have hlast := lastWith_map.mp (after_lastWith h)
  simpa only [touches_image_iff] using hlast

/-- The metadata comes from the last run that reached it; it is never removed. -/
theorem info_last {runs : List Run} {j : ℕ} :
    outputDir runs .rootfsBuildInfo = some j ↔ LastWith Records runs j := by
  have hmap : LastWith (Touches .rootfsBuildInfo) (runs.map Run.effects) j ↔
      LastWith Records runs j := by
    rw [lastWith_map]
    simp only [touches_info_iff]
  have hnever : ∀ es ∈ runs.map Run.effects, .remove .rootfsBuildInfo ∉ es := by
    intro es hes hmem
    obtain ⟨r, -, rfl⟩ := List.mem_map.mp hes
    have hin := List.mem_of_mem_take hmem
    revert hin
    cases r.mode <;> decide
  exact ⟨fun h => hmap.mp (after_lastWith h), fun h => after_of_lastWith hnever (hmap.mpr h)⟩

theorem records_replaces {r : Run} (h : Records r) : Replaces r.mode r :=
  ⟨rfl, by unfold Records at h; omega⟩

/-- The embedded image and the metadata come from one run exactly when the last recorded build
stands: it has the mode of the image, and the image was not touched after it. -/
theorem provenance_iff {m : RootfsMode} {runs : List Run} {i : ℕ}
    (h : makeImageEmbeds m (outputDir runs) = some i) :
    (∀ j, outputDir runs .rootfsBuildInfo = some j → i = j) ↔ LastRecordStands m runs := by
  have himage := image_last (embeds_image h)
  constructor
  · intro same j hj
    obtain rfl : i = j := same j (info_last.mpr hj)
    obtain ⟨⟨r, hr, hreplaces⟩, hlater⟩ := himage
    exact ⟨⟨r, hr, hreplaces.1⟩, hlater⟩
  · intro stands j hinfo
    have hj := info_last.mp hinfo
    obtain ⟨⟨r, hr, rfl⟩, hlater⟩ := stands j hj
    obtain ⟨⟨q, hq, hrecords⟩, -⟩ := hj
    obtain rfl : q = r := Option.some.inj (hq.symm.trans hr)
    exact lastWith_unique himage ⟨⟨q, hq, records_replaces hrecords⟩, hlater⟩

theorem provenance_iff_mode_change :
    ∃ i, makeImageEmbeds .roOverlay (outputDir [⟨.rwExt4, 6⟩, ⟨.roOverlay, 7⟩]) = some i ∧
      (∀ j, outputDir [⟨.rwExt4, 6⟩, ⟨.roOverlay, 7⟩] .rootfsBuildInfo = some j → i = j) := by
  have embeds : makeImageEmbeds .roOverlay (outputDir [⟨.rwExt4, 6⟩, ⟨.roOverlay, 7⟩]) =
      some 1 := rfl
  refine ⟨1, embeds, (provenance_iff embeds).mpr fun j hj => ?_⟩
  obtain rfl : 1 = j := Option.some.inj (info_last.mpr hj)
  refine ⟨⟨⟨.roOverlay, 7⟩, rfl, rfl⟩, fun k hk r hr => ?_⟩
  have hlt := (List.getElem?_eq_some_iff.mp hr).1
  simp only [List.length_cons, List.length_nil] at hlt
  omega

/-- A writable build, an overlay build, and then a writable image: it gets the old `rootfs.ext4`,
and the metadata is that of the overlay build. -/
theorem provenance_stale_ext4 :
    makeImageEmbeds .rwExt4 (outputDir [⟨.rwExt4, 6⟩, ⟨.roOverlay, 7⟩]) = some 0 ∧
      ¬ ∀ j, outputDir [⟨.rwExt4, 6⟩, ⟨.roOverlay, 7⟩] .rootfsBuildInfo = some j → 0 = j := by
  refine ⟨rfl, fun same => ?_⟩
  have heq := same 1 rfl
  omega

end RootfsProvenance
