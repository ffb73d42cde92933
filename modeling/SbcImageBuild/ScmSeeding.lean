import SbcImageBuild.KernelSourceTree

/-!
# Seeding the version of the kernel source

The part of `scripts/build_kernel.sh` behind `prepare_kernel_source_view` that writes
`.scmversion` and `.scmrevision` for the revision of the kernel tree. All its commands name files
in the directory that `KERNEL_SOURCE` leads to.
-/
namespace ScmSeeding

open ShellText OverlayText FileTree FileCommands PathText DeletionGuard Reaching KernelSourceTree
open KernelSourceView (scmVersion scmRevision isHexDigit versionText catOutput includeDir archDir
  arm64Dir arm64Include)

/-- `git_revision` on what `git rev-parse HEAD` prints, and whether that succeeds. -/
def gitRevision (output : Text) (ok : Bool) : Text :=
  if ok then output else output ++ "unknown\n".toList

/-- `kernel_rev`: `tr -d` drops the ends of the lines. -/
def kernelRevision (output : Text) (ok : Bool) : Text :=
  (gitRevision output ok).filter fun c => c ≠ '\r' ∧ c ≠ '\n'

/-- What a name in a directory leads to. -/
def statAt (t : Files Text) (d : Loc) (name : Text) : Option (Node Text) :=
  (resolve t d [name]).node t

/-- `rm -f`: missing files are no failure, but directories stay and are one. -/
def rmF (t : Files Text) (d : Loc) (names : List Text) : Outcome Text Unit where
  tree q := if q ∈ names.map (fun n => d ++ [n]) ∧ isDir t q = false then none else t q
  written := (names.map fun n => d ++ [n]).filter fun q => t q ≠ none ∧ isDir t q = false
  result := if ∃ n ∈ names, isDir t (d ++ [n]) then none else some ()

/-- A cached version of another revision is removed. -/
def dropStale (rev : Text) (d : Loc) (t : Files Text) : Outcome Text Unit :=
  if statAt t d scmVersion ≠ none ∧ statAt t d scmRevision ≠ none ∧
      catOutput (statAt t d scmRevision) ≠ rev then
    rmF t d [scmVersion, scmRevision]
  else done t ()

def writeSeeds (rev : Text) (d : Loc) (t : Files Text) : Outcome Text Unit :=
  if statAt t d scmVersion ≠ none then done t ()
  else (redirect t d ⟨scmVersion, false⟩ (versionText rev)).andThen fun _ t =>
    redirect t d ⟨scmRevision, false⟩ (rev ++ ['\n'])

def seedScm (rev : Text) (d : Loc) (t : Files Text) : Outcome Text Unit :=
  (dropStale rev d t).andThen fun _ t => writeSeeds rev d t

/-- The seeding, in the directory that `KERNEL_SOURCE` leads to. -/
def seedKernelSource (s : Layout) (rev : Text) (t : Files Text) : Outcome Text Unit :=
  match directoryAt t s.source with
  | some d => seedScm rev d t
  | none => fail t

/-- What the kernel is to read: `-g` and twelve digits, or nothing. -/
def versionLine (rev : Text) : Text :=
  if 12 ≤ rev.length ∧ rev.all isHexDigit then "-g".toList ++ rev.take 12 else []

/-- The text of the `.scmversion` that the view shows. -/
def versionSeen (t : Files Text) (d : Loc) : Option Text :=
  match statAt t d scmVersion with
  | some (.file content _) => some (fileText content)
  | _ => none

/-- The view shows the version of the revision, and nothing in the kernel tree was written. -/
structure Seeded (rev : Text) (kernel d : Loc) (o : Outcome Text Unit) : Prop where
  finished : o.result = some ()
  seen : versionSeen o.tree d = some (versionLine rev)
  untouched : ∀ l ∈ o.written, ¬ kernel <+: l

/-- When the seeding does its work. A version that is visible must be stale or right. Where none is
visible, both files must be creatable without following a link into the kernel tree, and apart from
each other. -/
def Seedable (rev : Text) (kernel d : Loc) (t : Files Text) : Prop :=
  if statAt t d scmVersion ≠ none then
    (statAt t d scmRevision ≠ none ∧ catOutput (statAt t d scmRevision) ≠ rev) ∨
      versionSeen t d = some (versionLine rev)
  else ∃ l₁ l₂, redirectPlace t d ⟨scmVersion, false⟩ = some l₁ ∧
    redirectPlace t d ⟨scmRevision, false⟩ = some l₂ ∧ ¬ kernel <+: l₁ ∧ ¬ kernel <+: l₂ ∧
    (l₁ = l₂ → fileText (rev ++ ['\n']) = versionLine rev)

section Text

theorem hexDigit_plain {c : Char} (h : isHexDigit c) : c ≠ '\n' ∧ c ≠ '\x00' := by
  constructor
  · rintro rfl
    cases h
  · rintro rfl
    cases h

theorem fileText_line {line : Text} (h : ∀ c ∈ line, c ≠ '\n' ∧ c ≠ '\x00') :
    fileText (line ++ ['\n']) = line := by
  have hnull : (line ++ ['\n']).filter (· ≠ '\x00') = line ++ ['\n'] := by
    rw [List.filter_eq_self]
    intro c hc
    rcases List.mem_append.mp hc with hc | hc
    · simpa using (h c hc).2
    · rw [List.mem_singleton.mp hc]
      decide
  rw [fileText, hnull, commandOutput, List.rdropWhile_concat_pos _ _ _ (by decide),
    List.rdropWhile_eq_self_iff]
  intro hne hlast
  exact (h _ (List.getLast_mem hne)).1 (of_decide_eq_true hlast)

/-- What is written is what the kernel is to read. -/
theorem fileText_versionText (rev : Text) : fileText (versionText rev) = versionLine rev := by
  unfold versionText versionLine
  split
  · rename_i hrev
    apply fileText_line
    intro c hc
    rcases List.mem_append.mp hc with hc | hc
    · rcases List.mem_cons.mp hc with rfl | hc
      · decide
      · rw [List.mem_singleton.mp hc]
        decide
    · exact hexDigit_plain (List.all_eq_true.mp hrev.2 c (List.mem_of_mem_take hc))
  · rfl

end Text

section Seeding

variable {t : Files Text} {d kernel : Loc} {rev : Text}

theorem versionSeen_eq_some {line : Text} : versionSeen t d = some line ↔
    ∃ content mode, statAt t d scmVersion = some (.file content mode) ∧
      fileText content = line := by
  rw [versionSeen]
  rcases statAt t d scmVersion with _ | (m | ⟨content, m⟩ | target) <;> simp

theorem statAt_missing {name : Text} (hp : Proper name) (hn : t (d ++ [name]) = none) :
    statAt t d name = none := by
  have hlink : isSymlink t (d ++ [name]) = false := by simp [isSymlink, hn]
  rw [statAt, resolve_name hp hlink, if_pos hn]
  rfl

theorem statAt_file {name content : Text} {mode : ℕ} (hp : Proper name)
    (hn : t (d ++ [name]) = some (.file content mode)) :
    statAt t d name = some (.file content mode) := by
  have hlink : isSymlink t (d ++ [name]) = false := by simp [isSymlink, hn, Node.isSymlink]
  rw [statAt, resolve_name hp hlink, if_neg (by simp [hn]), Resolved.node, hn]

/-- A missing name gets a file of its own. -/
theorem redirect_missing {name content : Text} (hp : Proper name) (hn : t (d ++ [name]) = none) :
    redirect t d ⟨name, false⟩ content = write t (d ++ [name]) (.file content 0o644) := by
  have hlink : isSymlink t (d ++ [name]) = false := by simp [isSymlink, hn]
  have hplain : (⟨name, false⟩ : Last).Plain := ⟨rfl, hp⟩
  rw [redirect_direct content hplain hlink, hn]

/-- Without the two names, both files are made where they are named. -/
theorem writeSeeds_missing (hv : t (d ++ [scmVersion]) = none) (hr : t (d ++ [scmRevision]) = none)
    (hversion : ¬ kernel <+: d ++ [scmVersion]) (hrevision : ¬ kernel <+: d ++ [scmRevision]) :
    Seeded rev kernel d (writeSeeds rev d t) := by
  have hproper : Proper scmVersion ∧ Proper scmRevision := by decide
  have hne : d ++ [scmRevision] ≠ d ++ [scmVersion] := by
    intro heq
    exact absurd (List.append_cancel_left heq) (by decide)
  have hsecond : put t (d ++ [scmVersion]) (.file (versionText rev) 0o644) (d ++ [scmRevision]) =
      none := by
    rw [put_other hne, hr]
  have hwrite : writeSeeds rev d t =
      (write t (d ++ [scmVersion]) (.file (versionText rev) 0o644)).andThen fun _ t =>
        redirect t d ⟨scmRevision, false⟩ (rev ++ ['\n']) := by
    rw [writeSeeds, if_neg (by simp [statAt_missing hproper.1 hv]), redirect_missing hproper.1 hv]
  rw [hwrite, write_andThen, redirect_missing hproper.2 hsecond]
  refine ⟨rfl, ?_, ?_⟩
  · apply versionSeen_eq_some.mpr
    refine ⟨versionText rev, 0o644, statAt_file hproper.1 ?_, fileText_versionText rev⟩
    exact (put_other hne.symm).trans (put_self _ _ _)
  · intro l hl
    rcases List.mem_cons.mp hl with rfl | hl
    · exact hversion
    · rw [List.mem_singleton.mp hl]
      exact hrevision

/-- A stale version is replaced. -/
theorem seedScm_stale (hv : isDir t (d ++ [scmVersion]) = false)
    (hr : isDir t (d ++ [scmRevision]) = false) (hversion : ¬ kernel <+: d ++ [scmVersion])
    (hrevision : ¬ kernel <+: d ++ [scmRevision])
    (hstale : statAt t d scmVersion ≠ none ∧ statAt t d scmRevision ≠ none ∧
      catOutput (statAt t d scmRevision) ≠ rev) : Seeded rev kernel d (seedScm rev d t) := by
  have hgone : ∀ n ∈ [scmVersion, scmRevision],
      (rmF t d [scmVersion, scmRevision]).tree (d ++ [n]) = none := by
    intro n hn
    apply if_pos
    refine ⟨List.mem_map_of_mem hn, ?_⟩
    rcases List.mem_cons.mp hn with rfl | hn
    · exact hv
    · rw [List.mem_singleton.mp hn]
      exact hr
  have hresult : (rmF t d [scmVersion, scmRevision]).result = some () := by
    simp [rmF, hv, hr]
  have seeds : Seeded rev kernel d (writeSeeds rev d _) :=
    writeSeeds_missing (hgone scmVersion (by simp)) (hgone scmRevision (by simp)) hversion hrevision
  rw [seedScm, dropStale, if_pos hstale, Outcome.andThen, hresult]
  refine ⟨seeds.finished, seeds.seen, fun l hl => ?_⟩
  rcases List.mem_append.mp hl with hl | hl
  · have hmem := (List.mem_filter.mp hl).1
    simp only [List.map_cons, List.map_nil, List.mem_cons, List.not_mem_nil, or_false] at hmem
    rcases hmem with rfl | rfl
    · exact hversion
    · exact hrevision
  · exact seeds.untouched l hl

/-- A version that is visible and not stale stays. -/
theorem seedScm_kept (hv : statAt t d scmVersion ≠ none)
    (hfresh : ¬ (statAt t d scmRevision ≠ none ∧ catOutput (statAt t d scmRevision) ≠ rev)) :
    Seeded rev kernel d (seedScm rev d t) ↔ versionSeen t d = some (versionLine rev) := by
  have hdone : seedScm rev d t = done t () := by
    rw [seedScm, dropStale, if_neg fun h => hfresh h.2, done_andThen, writeSeeds, if_pos hv]
  rw [hdone]
  refine ⟨fun h => h.seen, fun h => ⟨rfl, h, fun l hl => ?_⟩⟩
  exact absurd hl List.not_mem_nil

/-- A redirection for a name that shows nothing makes the file it leads to. -/
theorem redirect_unseen (h : WellFormed t) (hd : isDir t d) {name : Text}
    (hn : statAt t d name = none) (content : Text) {l : Loc}
    (hl : redirectPlace t d ⟨name, false⟩ = some l) :
    redirect t d ⟨name, false⟩ content = write t l (.file content 0o644) ∧ t l = none ∧
      ∃ q m, resolve t d [name] = .absent q m ∧ l = q ++ [m] := by
  have lands := resolve_lands h hd [name]
  rcases redirectPlace_cases hl with ⟨hr, -⟩ | ⟨q, m, hr, rfl⟩
  · change resolve t d [name] = .found l at hr
    rw [hr] at lands
    rw [statAt, hr] at hn
    exact absurd hn lands.1
  · change resolve t d [name] = .absent q m at hr
    rw [hr] at lands
    refine ⟨?_, lands.2, q, m, hr, rfl⟩
    rw [redirect, hl]
    dsimp only
    rw [lands.2]

theorem redirect_failed {u : Files Text} {x : Last} {content : Text}
    (h : redirectPlace u d x = none) : redirect u d x content = fail u := by
  rw [redirect, h]

/-- A failed redirection leaves nothing seeded. -/
theorem not_seeded {o : Outcome Text Unit} (h : o.result = none) : ¬ Seeded rev kernel d o := by
  intro hseeded
  rw [hseeded.finished] at h
  cases h

/-- What a name shows after a file has been made for it and another one written. -/
theorem statAt_rewritten {name content : Text} (content' : Text) {mode : ℕ} (mode' : ℕ) {q l : Loc}
    {m : Text} (hr : resolve t d [name] = .absent q m) (hnone : t (q ++ [m]) = none)
    (hl : FilePlace (put t (q ++ [m]) (.file content mode)) l) :
    statAt (put (put t (q ++ [m]) (.file content mode)) l (.file content' mode')) d name =
      if q ++ [m] = l then some (.file content' mode') else some (.file content mode) := by
  rw [statAt, resolve_put_file hl.1.2 hl.2,
    resolve_put_file (by simp [isDir, hnone]) (by simp [isSymlink, hnone]), hr]
  simp only [Resolved.onceWritten, if_true, Resolved.node]
  split
  · rename_i heq
    rw [heq, put_self]
  · rename_i hne
    rw [put_other hne, put_self]

/-- Without a visible version, the redirections decide. -/
theorem writeSeeds_unseen (h : WellFormed t) (hd : isDir t d) (hv : statAt t d scmVersion = none) :
    Seeded rev kernel d (writeSeeds rev d t) ↔
      ∃ l₁ l₂, redirectPlace t d ⟨scmVersion, false⟩ = some l₁ ∧
        redirectPlace t d ⟨scmRevision, false⟩ = some l₂ ∧ ¬ kernel <+: l₁ ∧ ¬ kernel <+: l₂ ∧
        (l₁ = l₂ → fileText (rev ++ ['\n']) = versionLine rev) := by
  rw [writeSeeds, if_neg (not_not.mpr hv)]
  cases hl₁ : redirectPlace t d ⟨scmVersion, false⟩ with
  | none =>
    rw [redirect_failed hl₁]
    exact iff_of_false (not_seeded rfl) (by simp)
  | some l₁ =>
    obtain ⟨hwrite, hnone, q, m, hr, rfl⟩ := redirect_unseen h hd hv (versionText rev) hl₁
    have hplace := redirectPlace_put hnone (versionText rev) 0o644 d ⟨scmRevision, false⟩
    have evolves : Evolves t (write t (q ++ [m]) (.file (versionText rev) 0o644)).tree :=
      hwrite ▸ (redirect_sound h hd).evolves
    rw [hwrite, write_andThen]
    cases hl₂ : redirectPlace t d ⟨scmRevision, false⟩ with
    | none =>
      rw [hl₂] at hplace
      rw [redirect_failed hplace]
      exact iff_of_false (not_seeded rfl) (by simp)
    | some l₂ =>
      rw [hl₂] at hplace
      have hfile := redirectPlace_file evolves.wellFormed (evolves.dirs d hd) hplace
      obtain ⟨mode, hwrite₂⟩ := redirect_write (rev ++ ['\n']) hplace
      have hseen := statAt_rewritten (rev ++ ['\n']) mode hr hnone hfile
      rw [hwrite₂]
      constructor
      · rintro ⟨-, hline, huntouched⟩
        refine ⟨_, _, rfl, rfl, huntouched _ List.mem_cons_self,
          huntouched _ (List.mem_cons_of_mem _ List.mem_cons_self), fun heq => ?_⟩
        obtain ⟨content, mode', hstat, htext⟩ := versionSeen_eq_some.mp hline
        cases (hseen.trans (if_pos heq)).symm.trans hstat
        exact htext
      · rintro ⟨_, _, ⟨⟩, ⟨⟩, hversion, hrevision, hsame⟩
        refine ⟨rfl, versionSeen_eq_some.mpr ?_, fun l hl => ?_⟩
        · by_cases heq : q ++ [m] = l₂
          · exact ⟨_, _, hseen.trans (if_pos heq), hsame heq⟩
          · exact ⟨_, _, hseen.trans (if_neg heq), fileText_versionText rev⟩
        · rcases List.mem_cons.mp hl with rfl | hl
          · exact hversion
          · rw [List.mem_singleton.mp hl]
            exact hrevision

/-- The log names what the seeding changes. -/
theorem seedScm_frame {l : Loc} (hl : l ∉ (seedScm rev d t).written) :
    (seedScm rev d t).tree l = t l := by
  have frame : ∀ u : Files Text, l ∉ (writeSeeds rev d u).written →
      (writeSeeds rev d u).tree l = u l := by
    intro u hu
    rw [writeSeeds] at hu ⊢
    split
    · rfl
    · rename_i hv
      rw [if_neg hv] at hu
      exact andThen_frame redirect_frame (fun _ _ => redirect_frame) hu
  have dropped : l ∉ (dropStale rev d t).written → (dropStale rev d t).tree l = t l := by
    intro hu
    rw [dropStale] at hu ⊢
    split
    · rename_i hstale
      rw [if_pos hstale] at hu
      rw [rmF]
      dsimp only
      split
      · rename_i hfile
        by_contra hne
        exact hu (List.mem_filter.mpr ⟨hfile.1, by simp [Ne.symm hne, hfile.2]⟩)
      · rfl
    · rfl
  exact andThen_frame dropped (fun _ u => frame u) hl

end Seeding

section Run

variable {s : Layout} {r : Realpath} {names : List Text} {k v : Files Text}

/-- The view has a link for a name at the top or does not have it. -/
theorem top_not_dir {home : Loc → Loc} {place : Loc} {t : Files Text} {name : Text}
    (hn : [name] ∉ ownDirs) : isDir (s.viewed home place k t) (place ++ [name]) = false := by
  rw [isDir, Layout.viewed, withView_at, prepared_eq, if_neg hn]
  split <;> rfl

/-- The prepared view as the seeding finds it: a directory apart from the kernel tree. -/
structure FoundView (s : Layout) (home place : Loc) (k v : Files Text) : Prop where
  wellFormed : WellFormed v
  dir : isDir v place
  source : directoryAt v s.source = some place
  notDir : ∀ name, [name] ∉ ownDirs → isDir v (place ++ [name]) = false
  kept : ∀ q, home <+: q → v q = k q
  apart : ∀ name, ¬ home <+: place ++ [name]

theorem foundView (site : s.Site r names k)
    (hrun : s.prepareKernelSourceView r names k = some v) :
    FoundView s (site.home []) (s.place r k) k v := by
  have start := start_of_site site hrun
  obtain ⟨-, hwell, -, htree⟩ := prepare_cases site hrun
  have evolves := (linkAllChildren_sound hwell s names).evolves
  rw [← htree] at evolves
  rw [start.calls.1] at htree
  refine ⟨evolves.wellFormed, ?_, ?_, fun name hn => ?_, fun q hq => ?_, fun name hpre => ?_⟩
  · have hview : isDir (s.viewed site.home (s.place r k) k (s.emptied r k)) (s.place r k ++ []) :=
      viewed_dir (by decide)
    rw [List.append_nil] at hview
    rw [htree]
    exact hview
  · rw [htree]
    exact directoryAt_grows start.viewed_grows site.leads
  · rw [htree]
    exact top_not_dir hn
  · rw [htree]
    exact start.withView_kept (by decide) hq
  · exact start.outside (by decide) hpre (List.prefix_append _ _)

/-- After a run that goes through, the version is seeded, without a change to the kernel tree,
exactly when the file system admits it. -/
theorem version_seeded_iff (site : s.Site r names k)
    (hrun : s.prepareKernelSourceView r names k = some v) (output : Text) (ok : Bool) :
    (Seeded (kernelRevision output ok) (site.home []) (s.place r k)
        (seedKernelSource s (kernelRevision output ok) v) ∧
      ∀ q, site.home [] <+: q → (seedKernelSource s (kernelRevision output ok) v).tree q = k q) ↔
      Seedable (kernelRevision output ok) (site.home []) (s.place r k) v := by
  generalize kernelRevision output ok = rev
  have view := foundView site hrun
  have hseed : seedKernelSource s rev v = seedScm rev (s.place r k) v := by
    rw [seedKernelSource, view.source]
  have hstays : Seeded rev (site.home []) (s.place r k) (seedScm rev (s.place r k) v) →
      ∀ q, site.home [] <+: q → (seedScm rev (s.place r k) v).tree q = k q := by
    intro h q hq
    rw [seedScm_frame fun hmem => h.untouched q hmem hq, view.kept q hq]
  rw [hseed, and_iff_left_of_imp hstays, Seedable]
  by_cases hv : statAt v (s.place r k) scmVersion = none
  · rw [if_neg (not_not.mpr hv), ← writeSeeds_unseen view.wellFormed view.dir hv, seedScm,
      dropStale, if_neg fun h => h.1 hv, done_andThen]
  rw [if_pos hv]
  by_cases hstale : statAt v (s.place r k) scmRevision ≠ none ∧
      catOutput (statAt v (s.place r k) scmRevision) ≠ rev
  · apply iff_of_true _ (.inl hstale)
    exact seedScm_stale (view.notDir _ (by decide)) (view.notDir _ (by decide)) (view.apart _)
      (view.apart _) ⟨hv, hstale⟩
  · rw [seedScm_kept hv hstale]
    exact (or_iff_right hstale).symm

/-- The version of the vendor is right for one revision. -/
theorem version_seeded_vendor : ∃ v,
    vendorLayout.prepareKernelSourceView lexical vendorNames vendorTree = some v ∧
      Seeded (kernelRevision "0123456789abcdef\n".toList true) (vendorSite.home [])
        (vendorLayout.place lexical vendorTree)
        (seedKernelSource vendorLayout (kernelRevision "0123456789abcdef\n".toList true) v) := by
  have hseen : (vendorLayout.prepareKernelSourceView lexical vendorNames vendorTree).any fun v =>
      statAt v (vendorLayout.place lexical vendorTree) scmVersion ≠ none ∧
        versionSeen v (vendorLayout.place lexical vendorTree) =
          some (versionLine (kernelRevision "0123456789abcdef\n".toList true)) := by
    decide +kernel
  obtain ⟨v, hv, hright⟩ := (Option.any_eq_true _ _).mp hseen
  obtain ⟨hstat, hline⟩ := of_decide_eq_true hright
  have hseedable : Seedable (kernelRevision "0123456789abcdef\n".toList true)
      (vendorSite.home []) (vendorLayout.place lexical vendorTree) v := by
    rw [Seedable, if_pos hstat]
    exact .inr hline
  exact ⟨v, hv, ((version_seeded_iff vendorSite hv _ _).mpr hseedable).1⟩

/-- For another revision it stays in the view. -/
theorem vendor_version_kept : ∃ v,
    vendorLayout.prepareKernelSourceView lexical vendorNames vendorTree = some v ∧
      ¬ Seeded (kernelRevision "fedcba9876543210\n".toList true) (vendorSite.home [])
        (vendorLayout.place lexical vendorTree)
        (seedKernelSource vendorLayout (kernelRevision "fedcba9876543210\n".toList true) v) := by
  have hseen : (vendorLayout.prepareKernelSourceView lexical vendorNames vendorTree).any fun v =>
      versionSeen (seedKernelSource vendorLayout
          (kernelRevision "fedcba9876543210\n".toList true) v).tree
        (vendorLayout.place lexical vendorTree) ≠
          some (versionLine (kernelRevision "fedcba9876543210\n".toList true)) := by
    decide +kernel
  obtain ⟨v, hv, hwrong⟩ := (Option.any_eq_true _ _).mp hseen
  exact ⟨v, hv, fun h => of_decide_eq_true hwrong h.seen⟩

end Run

end ScmSeeding
