import SbcImageBuild.SharedKernel
import SbcImageBuild.Foundation.CComments

/-!
# Integration of the modem driver

What the kernel hook promises of its edits: the device of the driver is left to it alone, and
running the hook again changes nothing.
-/
namespace DriverIntegration

open ShellText Delimited FileTree FileCommands KernelHook SharedKernel CComments

/-- The comment that the hook inserts in front of a line ends a block comment that is still open
there. -/
def behindMark : Scan → Scan
  | .block => .code
  | s => s

/-- Some line has the device outside of comments, read from a state and with the end of block
comments that the inserted comments bring. -/
def Exposed : Scan → List Text → Prop
  | _, [] => False
  | s, line :: lines =>
    let s := if Has deviceId line then behindMark s else s
    Has deviceId (strip s line) ∨ Exposed (next (scan s line) '\n') lines

/-- No 0x0306 is left when the comments are removed. -/
def DeviceHidden (text : Text) : Prop := ¬ Has deviceId (stripComments text)

/-- Every 0x0306 is in a comment before the hook runs; and if the hook rewrites the file, a block
comment that is open at the start of a line with 0x0306 is taken to end there. -/
def HiddenBefore (source : DriverSource) (text : Text) : Prop :=
  match source with
  | .found _ => if Conflicts text then ¬ Exposed .code (text.splitOn '\n') else DeviceHidden text
  | _ => DeviceHidden text

section Rewriting

theorem scan_mark {s : Scan} (h : LineStart s) : scan s disabledMark = behindMark s := by
  cases s with
  | code | line | block | string | char => decide
  | slash | lineEscape | star | stringEscape | charEscape => exact absurd h id

theorem emitted_mark (s : Scan) : '0' ∉ emitted s disabledMark := by
  cases s <;> decide

/-- The inserted comment hides nothing of the line behind it. -/
theorem strip_mark {s : Scan} (h : LineStart s) (line : Text) :
    Has deviceId (strip s (disabledMark ++ line)) ↔ Has deviceId (strip (behindMark s) line) := by
  rw [strip_append, scan_mark h]
  exact infix_append_of_not_mem (emitted_mark s) _

theorem stripLines_exposed {s : Scan} (h : LineStart s) (lines : List Text) :
    (∃ t ∈ stripLines s (lines.map commentOut), Has deviceId t) ↔ Exposed s lines := by
  induction lines generalizing s with
  | nil =>
    constructor
    · rintro ⟨t, ht, -⟩
      cases ht
    · exact False.elim
  | cons line lines ih =>
    rw [List.map_cons, stripLines, Exposed]
    simp only [List.mem_cons, exists_eq_or_imp]
    by_cases hline : Has deviceId line
    · rw [commentOut, if_pos hline, if_pos hline, strip_mark h, scan_append, scan_mark h]
      exact or_congr Iff.rfl (ih (lineStart_next _))
    · rw [commentOut, if_neg hline, if_neg hline]
      exact or_congr Iff.rfl (ih (lineStart_next _))

/-- What the rewritten file shows without its comments. -/
theorem rewritten_exposed (text : Text) :
    Has deviceId (stripComments (mapRecords '\n' commentOut text)) ↔
      Exposed .code (text.splitOn '\n') := by
  have lines : (text.splitOn '\n').map commentOut ≠ [] := by
    simp [List.splitOn_ne_nil]
  rw [mapRecords, stripComments, strip_join _ lines, Has,
    infix_join_iff_exists (by decide) (by decide)]
  exact stripLines_exposed (s := .code) trivial _

theorem disabledText_hidden (text : Text) : DeviceHidden (disabledText text) ↔
    if Conflicts text then ¬ Exposed .code (text.splitOn '\n') else DeviceHidden text := by
  rw [disabledText]
  split
  · exact not_congr (rewritten_exposed text)
  · exact Iff.rfl

end Rewriting

section Hook

/-- A successful run had no driver source, or found one and integrated it. -/
theorem preBuildKernel_ok {k : KernelTree} {source : DriverSource} {k' : Files Text}
    (h : runCommands (preBuildKernel source) k.tree = some k') :
    source = .missing ∧ k' = k.tree ∨ ∃ driver n, source = .found driver ∧ ValidDriver driver ∧
      wired (k.tree driversMakefile) = some n ∧
      k' = withDisabled (put (integrated driver k.tree) driversMakefile n) := by
  cases source with
  | missing =>
    cases h
    exact .inl ⟨rfl, rfl⟩
  | unusable => cases h
  | found driver =>
    by_cases hvalid : ValidDriver driver
    · rw [preBuildKernel_run k.steady hvalid, Option.map_eq_some_iff] at h
      obtain ⟨n, hn, rfl⟩ := h
      exact .inr ⟨driver, n, rfl, hvalid, hn, rfl⟩
    · rw [preBuildKernel, if_neg hvalid] at h
      cases h

/-- The file of the mainline driver behind the hook. -/
theorem generic_after {k driver : Files Text} {n : Node Text} :
    withDisabled (put (integrated driver k) driversMakefile n) mhiPciGeneric =
      (k mhiPciGeneric).map disabled := by
  rw [withDisabled, if_pos rfl, put_other (by decide), integrated_elsewhere _ _ (by decide)]

/-- The hook puts a complete comment in front of a line, which hides nothing of it: without its
comments `pci_generic.c` is free of the device exactly when all of it was in comments before. -/
theorem device_hidden_iff (k : KernelTree) {source : DriverSource} {k' : Files Text} {text : Text}
    {mode : ℕ} (htext : k.tree mhiPciGeneric = some (.file text mode))
    (h : runCommands (preBuildKernel source) k.tree = some k') :
    ∃ text', k' mhiPciGeneric = some (.file text' mode) ∧
      (DeviceHidden text' ↔ HiddenBefore source text) := by
  rcases preBuildKernel_ok h with ⟨rfl, rfl⟩ | ⟨driver, n, rfl, -, -, rfl⟩
  · exact ⟨text, htext, Iff.rfl⟩
  · refine ⟨disabledText text, ?_, disabledText_hidden text⟩
    rw [generic_after, htext]
    rfl

/-- The usual entry of the table of devices. -/
def entryText : Text := "\t\x7b PCI_DEVICE(0x17cb, 0x0306) \x7d,\n".toList

def entryKernel : KernelTree where
  tree := ofList
    [([], .dir 0o755), (KernelHook.drivers, .dir 0o755),
     (KernelHook.drivers ++ ["bus".toList], .dir 0o755),
     (KernelHook.drivers ++ ["bus".toList, "mhi".toList], .dir 0o755), (mhiHost, .dir 0o755),
     (mhiPciGeneric, .file entryText 0o644),
     (driversMakefile, .file "obj-y += bus/\n".toList 0o644)]
  wellFormed := ofList_wellFormed (by decide) (by decide)
  drivers := by decide
  plain := by decide

theorem entryKernel_generic : entryKernel.tree mhiPciGeneric =
    some (.file entryText 0o644) := by decide +kernel

/-- The entry does not mention the driver, so the hook rewrites it. -/
theorem entryText_unmarked :
    ¬ Grep (fun line => HasBoth pcieMhi deviceId line ∨ HasBoth deviceId pcieMhi line)
      entryText := by
  have mentions : ∀ line ∈ records '\n' entryText, 'p' ∉ line := by decide +kernel
  have driver : ∀ line, Has pcieMhi line → 'p' ∈ line := fun line h => h.subset (by decide)
  rintro ⟨line, hline, ⟨n, -, hfirst, -⟩ | ⟨n, -, -, hsecond⟩⟩
  · exact mentions line hline (List.mem_of_mem_take (driver _ hfirst))
  · exact mentions line hline (List.mem_of_mem_drop (driver _ hsecond))

theorem entryText_rewritten : disabledText entryText = disabledMark ++ entryText := by
  have mention : Grep (Has deviceId) entryText :=
    ⟨"\t\x7b PCI_DEVICE(0x17cb, 0x0306) \x7d,".toList, by decide +kernel,
      "\t\x7b PCI_DEVICE(0x17cb, ".toList, ") \x7d,".toList, rfl⟩
  have line : Has deviceId "\t\x7b PCI_DEVICE(0x17cb, 0x0306) \x7d,".toList :=
    ⟨"\t\x7b PCI_DEVICE(0x17cb, ".toList, ") \x7d,".toList, rfl⟩
  have nothing : ¬ Has deviceId [] := by decide
  have split : entryText.splitOn '\n' = ["\t\x7b PCI_DEVICE(0x17cb, 0x0306) \x7d,".toList, []] := by
    decide +kernel
  rw [disabledText, if_pos ⟨mention, entryText_unmarked⟩, mapRecords, split, List.map_cons,
    List.map_cons, commentOut, if_pos line, commentOut, if_neg nothing]
  decide +kernel

theorem entryKernel_run : ∃ k', runCommands (preBuildKernel (.found exampleDriver))
    entryKernel.tree = some k' ∧
    k' mhiPciGeneric = some (.file (disabledMark ++ entryText) 0o644) := by
  have valid : ValidDriver exampleDriver := by decide +kernel
  have makefile : wired (entryKernel.tree driversMakefile) =
      some (.file "obj-y += bus/\nobj-y += pcie_mhi/\n".toList 0o644) := by decide +kernel
  rw [preBuildKernel_run entryKernel.steady valid, makefile]
  refine ⟨_, rfl, ?_⟩
  dsimp only
  rw [generic_after, entryKernel_generic, Option.map_some, disabled, entryText_rewritten]

theorem device_hidden_iff_entry : ∃ k' text',
    runCommands (preBuildKernel (.found exampleDriver)) entryKernel.tree = some k' ∧
      k' mhiPciGeneric = some (.file text' 0o644) ∧
      (DeviceHidden text' ↔ HiddenBefore (.found exampleDriver) entryText) := by
  obtain ⟨k', run, -⟩ := entryKernel_run
  obtain ⟨text', generic, hidden⟩ := device_hidden_iff entryKernel entryKernel_generic run
  exact ⟨k', text', run, generic, hidden⟩

/-- The entry is still there, behind the comment that should have taken it out. -/
theorem device_exposed_entry :
    ¬ ∀ (k : KernelTree) source k' text mode, k.tree mhiPciGeneric = some (.file text mode) →
      ¬ Grep (fun line => HasBoth pcieMhi deviceId line ∨ HasBoth deviceId pcieMhi line) text →
      runCommands (preBuildKernel source) k.tree = some k' →
      ∃ text', k' mhiPciGeneric = some (.file text' mode) ∧ DeviceHidden text' := by
  intro promise
  obtain ⟨k', run, generic⟩ := entryKernel_run
  obtain ⟨text', htext, hidden⟩ := promise entryKernel _ k' entryText 0o644 entryKernel_generic
    entryText_unmarked run
  obtain ⟨rfl, -⟩ := Node.file.inj (Option.some.inj (generic.symm.trans htext))
  apply hidden
  exact ⟨" \t\x7b PCI_DEVICE(0x17cb, ".toList, ") \x7d,\n".toList, by decide +kernel⟩

end Hook

section Again

def mhiBus : Loc := KernelHook.drivers ++ ["bus".toList, "mhi".toList]

/-- A kernel tree that has a driver package in the directory of its own driver. -/
def packageKernel : KernelTree where
  tree := ofList
    [([], .dir 0o755), (KernelHook.drivers, .dir 0o755),
     (KernelHook.drivers ++ ["bus".toList], .dir 0o755), (mhiBus, .dir 0o755),
     (mhiBus ++ ["Makefile".toList], .file [] 0o644), (mhiBus ++ ["core".toList], .dir 0o755),
     (mhiBus ++ ["controllers".toList], .dir 0o755), (mhiBus ++ ["devices".toList], .dir 0o755),
     (mhiHost, .dir 0o755), (mhiPciGeneric, .file entryText 0o644),
     (driversMakefile, .file "obj-y += bus/\n".toList 0o644)]
  wellFormed := ofList_wellFormed (by decide) (by decide)
  drivers := by decide
  plain := by decide

end Again

end DriverIntegration
