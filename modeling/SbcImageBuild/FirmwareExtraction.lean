import SbcImageBuild.Foundation.ShellText
import SbcImageBuild.Foundation.Words
import Mathlib.Data.List.Dedup
import Mathlib.Data.List.Perm.Basic

/-!
# The firmware of the modem

`_rm500q_extract_to` unpacks a package and copies its firmware files into one directory. The order
in which `find` lists the files is not known. Its caller handles a failure of the function, and so
the shell passes over commands that fail in it.
-/
namespace FirmwareExtraction

open Words ShellText

/-- A regular file: the directories that lead to it, its name and its content. -/
structure File where
  dir : List Text
  base : Text
  content : Text
  deriving DecidableEq

/-- The regular files of a package, and its directories without any. -/
structure Package where
  files : List File
  emptyDirs : List (List Text)
  paths : (files.map fun f => (f.dir, f.base)).Nodup

inductive Kind where
  | deb
  | tarGz
  | tarXz
  | tarZst
  | mbn
  deriving DecidableEq

/-- The arguments of the function: a path, with what is there, and the destination. The commands
that unpack or copy may fail: `unpacked` is what they leave to be searched, and `failed` what a
`cp -a` that does not work leaves under the name of its file. -/
structure Input where
  pkg : Text
  isFile : Bool
  content : Text
  archive : Package
  unpacked : Package
  destDir : Text
  dest : Text → Option Text
  failed : File → Option (Option Text)

/-- The patterns of the `case`. -/
def kindOf (pkg : Text) : Option Kind :=
  if ".deb".toList <:+ pkg then some .deb
  else if ".tar.gz".toList <:+ pkg ∨ ".tgz".toList <:+ pkg then some .tarGz
  else if ".tar.xz".toList <:+ pkg ∨ ".txz".toList <:+ pkg then some .tarXz
  else if ".tar.zst".toList <:+ pkg then some .tarZst
  else if ".mbn".toList <:+ pkg then some .mbn
  else none

/-- The package; a raw file is one of a single file. -/
def package (i : Input) : Kind → Package
  | .mbn => ⟨[⟨[], (i.pkg.splitOn '/').getLastD [], i.content⟩], [], List.nodup_singleton _⟩
  | _ => i.archive

def isMbn (f : File) : Bool := ".mbn".toList <:+ f.base

def isFirmware (f : File) : Bool :=
  isMbn f || ".bin".toList <:+ f.base || ".elf".toList <:+ f.base

def Package.IsDir (p : Package) (d : List Text) : Prop :=
  d = [] ∨ (∃ e ∈ p.emptyDirs, d <+: e) ∨ ∃ f ∈ p.files, d <+: f.dir

instance (p : Package) (d : List Text) : Decidable (p.IsDir d) :=
  inferInstanceAs (Decidable (_ ∨ _ ∨ _))

/-- The directory that a path leads to. The one above the top holds nothing else. -/
def normal (names : List Text) : List Text :=
  names.foldl (fun d name =>
    if name = ".".toList then d else if name = "..".toList then d.dropLast else d ++ [name]) []

/-- The directory that is read back from the output of `dirname`, of which `head` takes a line. -/
def readBack (d : List Text) : List Text := normal (words '/' (firstLine (d.flatMap ('/' :: ·))))

/-- The directory of a `.mbn` file, if it is one when it is read back. -/
def dirOf (p : Package) (f : File) : Option (List Text) :=
  if p.IsDir (readBack f.dir) then some (readBack f.dir) else none

/-- `src_dir`, from the order in which the first `find` lists the files. -/
def srcDir (p : Package) (order : List File) : Kind → Option (List Text)
  | .deb => (order.find? isMbn).bind (dirOf p)
  | _ => some []

/-- What the second `find` lists. -/
def found (order : List File) (d : List Text) : List File :=
  order.filter fun f => d <+: f.dir ∧ isFirmware f

/-- The destination afterwards, the names that were copied, and `fw_files`. -/
structure Extracted where
  dest : Text → Option Text
  written : List Text
  fwFiles : ℕ

/-- The loop over the files that `find` lists. It counts a file whether it is copied or not. -/
def copyAll (i : Input) : List File → Extracted → Extracted
  | [], x => x
  | f :: fs, x =>
    match i.failed f with
    | none => copyAll i fs
        ⟨Function.update x.dest f.base (some f.content), x.written ++ [f.base], x.fwFiles + 1⟩
    | some left => copyAll i fs ⟨Function.update x.dest f.base left, x.written, x.fwFiles + 1⟩

/-- `_rm500q_extract_to`, with the orders of its two searches. -/
def extractTo (i : Input) (first second : List File) : Except Text Extracted := do
  require i.isFile ("ERROR: package not found: ".toList ++ i.pkg)
  require (i.destDir ≠ []) "ERROR: dest_dir required".toList
  match kindOf i.pkg with
  | none => .error ("ERROR: unsupported package format: ".toList ++ i.pkg)
  | some k =>
    match srcDir i.unpacked first k with
    | none => .error ("ERROR: no firmware files found in ".toList ++ i.pkg)
    | some d =>
      let x := copyAll i (found second d) ⟨i.dest, [], 0⟩
      require (x.fwFiles ≠ 0) ("ERROR: zero firmware files extracted from ".toList ++ i.pkg)
      pure x

/-- The line in which the number is reported. -/
def report (logInfo : Bool) (i : Input) (x : Extracted) : Text :=
  if logInfo then "Extracted ".toList ++ (toString x.fwFiles).toList ++
    " RM500Q-GL firmware files into ".toList ++ i.destDir
  else "Extracted ".toList ++ (toString x.fwFiles).toList ++ " files into ".toList ++ i.destDir

/-- In whatever order the files are listed, a run that succeeds leaves every firmware file of the
package in the destination, and reports how many names the package has there. -/
def NothingLost (i : Input) (k : Kind) : Prop :=
  ∀ first second, first.Perm i.unpacked.files → second.Perm i.unpacked.files →
    ∀ x, extractTo i first second = .ok x →
      (∀ f ∈ (package i k).files, isFirmware f → x.dest f.base = some f.content) ∧
        x.fwFiles = x.written.dedup.length

/-- The directories that may be searched: a `.deb` is searched where a `.mbn` file is. -/
def searched (p : Package) : Kind → List (List Text)
  | .deb => (p.files.filter isMbn).filterMap (dirOf p)
  | _ => [[]]

/-- The firmware below a directory has different names and can be copied, and every firmware file of
the package has the name and the content of one of these, or is in the destination already. -/
structure Accounted (i : Input) (k : Kind) (d : List Text) : Prop where
  names : ((found i.unpacked.files d).map File.base).Nodup
  copied : ∀ g ∈ found i.unpacked.files d, i.failed g = none
  all : ∀ f ∈ (package i k).files, isFirmware f →
    (∃ g ∈ found i.unpacked.files d, g.base = f.base ∧ g.content = f.content) ∨
      f.base ∉ (found i.unpacked.files d).map File.base ∧ i.dest f.base = some f.content

section Copies

variable {i : Input} {fs : List File} {x : Extracted} {name : Text}

def Copied (i : Input) (f : File) : Bool := (i.failed f).isNone

theorem copied_iff {f : File} : Copied i f ↔ i.failed f = none := Option.isNone_iff_eq_none

theorem copyAll_fwFiles : (copyAll i fs x).fwFiles = x.fwFiles + fs.length := by
  induction fs generalizing x with
  | nil => rfl
  | cons f fs ih =>
    rw [copyAll, List.length_cons]
    split
    · rw [ih]
      dsimp only
      omega
    · rw [ih]
      dsimp only
      omega

theorem copyAll_written :
    (copyAll i fs x).written = x.written ++ (fs.filter (Copied i)).map File.base := by
  induction fs generalizing x with
  | nil => simp [copyAll]
  | cons f fs ih =>
    rw [copyAll]
    cases hf : i.failed f with
    | none => simp [ih, Copied, hf]
    | some left => simp [ih, Copied, hf]

/-- A name that is not written keeps what it had. -/
theorem copyAll_dest_other (h : name ∉ fs.map File.base) :
    (copyAll i fs x).dest name = x.dest name := by
  induction fs generalizing x with
  | nil => rfl
  | cons f fs ih =>
    rw [List.map_cons, List.mem_cons, not_or] at h
    rw [copyAll]
    split
    · rw [ih h.2]
      exact Function.update_of_ne h.1 _ _
    · rw [ih h.2]
      exact Function.update_of_ne h.1 _ _

/-- If the copies work, a name that is written has the content of a file of this name. -/
theorem copyAll_dest_written (hok : ∀ f ∈ fs, i.failed f = none) (h : name ∈ fs.map File.base) :
    ∃ f ∈ fs, f.base = name ∧ (copyAll i fs x).dest name = some f.content := by
  induction fs generalizing x with
  | nil => simp at h
  | cons f fs ih =>
    rw [copyAll, hok f List.mem_cons_self]
    dsimp only
    by_cases hrest : name ∈ fs.map File.base
    · obtain ⟨g, hg, hbase, hdest⟩ := ih (fun g hg => hok g (List.mem_cons_of_mem f hg)) hrest
      exact ⟨g, List.mem_cons_of_mem f hg, hbase, hdest⟩
    · obtain rfl : name = f.base := (List.mem_cons.mp h).resolve_right hrest
      refine ⟨f, List.mem_cons_self, rfl, ?_⟩
      rw [copyAll_dest_other hrest]
      exact Function.update_self _ _ _

/-- With different names every file keeps its content. -/
theorem copyAll_dest (hok : ∀ f ∈ fs, i.failed f = none) (hnames : (fs.map File.base).Nodup)
    {f : File} (h : f ∈ fs) : (copyAll i fs x).dest f.base = some f.content := by
  obtain ⟨g, hg, hbase, hdest⟩ := copyAll_dest_written (x := x) hok (List.mem_map_of_mem h)
  rw [hdest, List.inj_on_of_nodup_map hnames hg h hbase]

end Copies

section Runs

variable {i : Input} {k : Kind} {first second : List File} {x : Extracted} {d : List Text}

theorem extractTo_ok (hfile : i.isFile) (hdest : i.destDir ≠ []) (hkind : kindOf i.pkg = some k) :
    extractTo i first second = .ok x ↔ ∃ d, srcDir i.unpacked first k = some d ∧
      found second d ≠ [] ∧ x = copyAll i (found second d) ⟨i.dest, [], 0⟩ := by
  simp only [extractTo, bind_ok, require_ok, hfile, hdest, hkind, ne_eq, not_false_eq_true,
    exists_const, true_and]
  cases srcDir i.unpacked first k with
  | none => simp
  | some d =>
    simp only [bind_ok, require_ok, copyAll_fwFiles, pure, Except.pure, Except.ok.injEq,
      exists_const, Option.some.injEq, exists_eq_left', Nat.zero_add, List.length_eq_zero_iff]
    exact and_congr_right fun _ => eq_comm

/-- A directory may be searched if some order of the files leads to it. -/
theorem mem_searched {p : Package} :
    d ∈ searched p k ↔ ∃ order, order.Perm p.files ∧ srcDir p order k = some d := by
  cases k with
  | deb =>
    simp only [searched, srcDir, List.mem_filterMap, List.mem_filter, Option.bind_eq_some_iff]
    constructor
    · rintro ⟨f, ⟨hf, hmbn⟩, hd⟩
      refine ⟨f :: p.files.erase f, (List.perm_cons_erase hf).symm, f, ?_, hd⟩
      simp [hmbn]
    · rintro ⟨order, hperm, f, hfind, hd⟩
      exact ⟨f, ⟨hperm.mem_iff.mp (List.mem_of_find?_eq_some hfind), List.find?_some hfind⟩, hd⟩
  | _ =>
    simp only [searched, srcDir, List.mem_singleton, Option.some.injEq]
    constructor
    · rintro rfl
      exact ⟨p.files, .rfl, rfl⟩
    · rintro ⟨-, -, rfl⟩
      rfl

theorem found_perm {files : List File} (h : second.Perm files) :
    (found second d).Perm (found files d) := h.filter _

/-- A run reports as many names as it has copied exactly if all copies work and the names are
different. -/
theorem fwFiles_eq_iff {fs : List File} :
    (copyAll i fs ⟨i.dest, [], 0⟩).fwFiles =
        (copyAll i fs ⟨i.dest, [], 0⟩).written.dedup.length ↔
      (∀ f ∈ fs, i.failed f = none) ∧ (fs.map File.base).Nodup := by
  rw [copyAll_fwFiles, copyAll_written, List.nil_append, Nat.zero_add]
  constructor
  · intro h
    have hdedup := (List.dedup_sublist ((fs.filter (Copied i)).map File.base)).length_le
    have hfilter := List.length_filter_le (Copied i) fs
    rw [List.length_map] at hdedup
    have hall : ∀ f ∈ fs, Copied i f := List.length_filter_eq_length_iff.mp (by omega)
    rw [List.filter_eq_self.mpr hall] at h
    have hlen : (fs.map File.base).dedup.length = (fs.map File.base).length := by
      rw [← h, List.length_map]
    exact ⟨fun f hf => copied_iff.mp (hall f hf),
      List.dedup_eq_self.mp ((List.dedup_sublist _).eq_of_length hlen)⟩
  · rintro ⟨hok, hnames⟩
    rw [List.filter_eq_self.mpr fun f hf => copied_iff.mpr (hok f hf), hnames.dedup,
      List.length_map]

end Runs

/-- Nothing is lost exactly if every directory that may be searched accounts for the package. -/
theorem nothing_lost_iff {i : Input} {k : Kind} (hfile : i.isFile) (hdest : i.destDir ≠ [])
    (hkind : kindOf i.pkg = some k) : NothingLost i k ↔
      ∀ d ∈ searched i.unpacked k, found i.unpacked.files d ≠ [] → Accounted i k d := by
  constructor
  · intro h d hd hne
    obtain ⟨first, hperm, hsrc⟩ := mem_searched.mp hd
    obtain ⟨hall, hcount⟩ := h first _ hperm .rfl _
      ((extractTo_ok hfile hdest hkind).mpr ⟨d, hsrc, hne, rfl⟩)
    obtain ⟨hok, hnames⟩ := fwFiles_eq_iff.mp hcount
    refine ⟨hnames, hok, fun f hf hfirm => ?_⟩
    have hcontent := hall f hf hfirm
    by_cases hname : f.base ∈ (found i.unpacked.files d).map File.base
    · obtain ⟨g, hg, hbase, hg'⟩ := copyAll_dest_written (x := ⟨i.dest, [], 0⟩) hok hname
      exact .inl ⟨g, hg, hbase, Option.some.inj (hg'.symm.trans hcontent)⟩
    · rw [copyAll_dest_other hname] at hcontent
      exact .inr ⟨hname, hcontent⟩
  · intro h first second hfirst hsecond x hx
    obtain ⟨d, hsrc, hne, rfl⟩ := (extractTo_ok hfile hdest hkind).mp hx
    have hperm := found_perm (d := d) hsecond
    have hfiles : found i.unpacked.files d ≠ [] := by
      intro hnil
      exact hne (hperm.trans (by rw [hnil])).eq_nil
    obtain ⟨hnames, hcopied, hall⟩ := h d (mem_searched.mpr ⟨first, hfirst, hsrc⟩) hfiles
    have hnames' : ((found second d).map File.base).Nodup := (hperm.map _).nodup_iff.mpr hnames
    have hok : ∀ g ∈ found second d, i.failed g = none :=
      fun g hg => hcopied g (hperm.mem_iff.mp hg)
    refine ⟨fun f hf hfirm => ?_, fwFiles_eq_iff.mpr ⟨hok, hnames'⟩⟩
    rcases hall f hf hfirm with ⟨g, hg, hbase, hcontent⟩ | ⟨hname, hold⟩
    · rw [← hbase, ← hcontent]
      exact copyAll_dest hok hnames' (hperm.mem_iff.mpr hg)
    · rw [copyAll_dest_other fun hmem => hname ((hperm.map _).mem_iff.mp hmem)]
      exact hold

/-- If the copies work, the written names are those under which files of the package are there. -/
theorem written_present {i : Input} {k : Kind} {first second : List File} {x : Extracted}
    (hfile : i.isFile) (hdest : i.destDir ≠ []) (hkind : kindOf i.pkg = some k)
    (hsecond : second.Perm i.unpacked.files) (hok : ∀ f ∈ second, i.failed f = none)
    (hx : extractTo i first second = .ok x) :
    ∀ name ∈ x.written, ∃ f ∈ i.unpacked.files, isFirmware f ∧ f.base = name ∧
      x.dest name = some f.content := by
  obtain ⟨d, -, -, rfl⟩ := (extractTo_ok hfile hdest hkind).mp hx
  have hfound : ∀ f ∈ found second d, i.failed f = none :=
    fun f hf => hok f (List.mem_of_mem_filter hf)
  intro name hname
  rw [copyAll_written, List.nil_append,
    List.filter_eq_self.mpr fun f hf => copied_iff.mpr (hfound f hf)] at hname
  obtain ⟨f, hf, hbase, hcontent⟩ := copyAll_dest_written (x := ⟨i.dest, [], 0⟩) hfound hname
  obtain ⟨hmem, hfirm⟩ := List.mem_filter.mp hf
  exact ⟨f, hsecond.mem_iff.mp hmem, (of_decide_eq_true hfirm).2, hbase, hcontent⟩

/-- Two images with the same names, in directories of their own. -/
def twoCarriers : Package where
  files := [⟨["telekom".toList], "mcfg_sw.mbn".toList, "A".toList⟩,
    ⟨["vodafone".toList], "mcfg_sw.mbn".toList, "B".toList⟩]
  emptyDirs := []
  paths := by decide

def carrierTar : Input where
  pkg := "rm500q-firmware.tar.gz".toList
  isFile := true
  content := []
  archive := twoCarriers
  unpacked := twoCarriers
  destDir := "/tmp/fw".toList
  dest _ := none
  failed _ := none

def carrierDeb : Input := { carrierTar with pkg := "rm500q-firmware.deb".toList }

/-- The files of one carrier only. -/
def oneCarrier : Package where
  files := [⟨["telekom".toList], "mcfg_sw.mbn".toList, "A".toList⟩,
    ⟨["telekom".toList], "mcfg_hw.bin".toList, "C".toList⟩]
  emptyDirs := []
  paths := by decide

def oneCarrierTar : Input := { carrierTar with archive := oneCarrier, unpacked := oneCarrier }

theorem nothing_lost_carriers : NothingLost oneCarrierTar .tarGz :=
  (nothing_lost_iff rfl (by decide) (by decide +kernel)).mpr fun d hd _ => by
    obtain rfl := List.mem_singleton.mp hd
    exact ⟨by decide +kernel, fun _ _ => rfl, by decide +kernel⟩

/-- One file is overwritten by the other, and both are counted; of a `.deb` one is not looked at. -/
theorem carrier_lost : ¬ NothingLost carrierTar .tarGz ∧ ¬ NothingLost carrierDeb .deb := by
  constructor
  · intro h
    have hrun : extractTo carrierTar twoCarriers.files twoCarriers.files =
        .ok (copyAll carrierTar (found twoCarriers.files []) ⟨carrierTar.dest, [], 0⟩) :=
      (extractTo_ok (k := .tarGz) rfl (by decide) (by decide +kernel)).mpr
        ⟨[], rfl, by decide +kernel, rfl⟩
    have hcontent := (h _ _ .rfl .rfl _ hrun).1
      ⟨["telekom".toList], "mcfg_sw.mbn".toList, "A".toList⟩ (by decide) (by decide +kernel)
    exact absurd hcontent (by decide +kernel)
  · intro h
    have hrun : extractTo carrierDeb twoCarriers.files twoCarriers.files =
        .ok (copyAll carrierDeb (found twoCarriers.files ["telekom".toList])
          ⟨carrierDeb.dest, [], 0⟩) :=
      (extractTo_ok (k := .deb) rfl (by decide) (by decide +kernel)).mpr
        ⟨["telekom".toList], by decide +kernel, by decide +kernel, rfl⟩
    have hcontent := (h _ _ .rfl .rfl _ hrun).1
      ⟨["vodafone".toList], "mcfg_sw.mbn".toList, "B".toList⟩ (by decide) (by decide +kernel)
    exact absurd hcontent (by decide +kernel)

/-- A directory in the place of a file makes its copy fail, and the file is counted as well. -/
example : ¬ NothingLost { oneCarrierTar with failed := fun _ => some none } .tarGz := by
  intro h
  have hrun := h oneCarrier.files oneCarrier.files .rfl .rfl _ rfl
  exact absurd hrun.2 (by decide +kernel)

end FirmwareExtraction
