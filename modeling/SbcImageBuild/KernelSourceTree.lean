import SbcImageBuild.KernelSourceView
import SbcImageBuild.DeletionGuard
import SbcImageBuild.Foundation.Reaching

/-!
# Making the kernel source view

`link_source_children` and `prepare_kernel_source_view` of `scripts/build_kernel.sh` on the whole
file system. Paths may lead through links, and the links of the view carry the path of
`KERNEL_DIR`. The commands build the view of `KernelSourceView` at the place of `KERNEL_SOURCE`.
-/
namespace KernelSourceTree

open ShellText FileTree FileCommands PathText DeletionGuard Reaching
open KernelSourceView (View ViewNode includeDir archDir arm64Dir arm64Include)

/-- `KERNEL_DIR` and `BUILD_BASE_DIR/BOARD`, as the names of absolute paths. -/
structure Layout where
  kernelDir : Loc
  buildDir : Loc
  kernelProper : ∀ n ∈ kernelDir, Proper n
  buildProper : ∀ n ∈ buildDir, Proper n

/-- `KERNEL_SOURCE`. -/
def Layout.source (s : Layout) : Loc := s.buildDir ++ ["kernel-source".toList]

theorem Layout.source_proper (s : Layout) : ∀ n ∈ s.source, Proper n := by
  intro n hn
  rcases List.mem_append.mp hn with hn | hn
  · exact s.buildProper n hn
  · rw [List.mem_singleton.mp hn]
    decide

/-- `ln -s`: the name of a directory gets the link inside, and nothing is replaced. -/
def lnS (t : Files Text) (d : Loc) (name target : Text) : Outcome Text Unit :=
  match resolve t d [name] with
  | .found l =>
    if isDir t l ∧ t (l ++ [lastName target]) = none then
      write t (l ++ [lastName target]) (.symlink target)
    else fail t
  | _ => if t (d ++ [name]) = none then write t (d ++ [name]) (.symlink target) else fail t

/-- The matches of `"${source}"/*`, without the directory in front. All names that occur are given
in collating order; with `dotglob` and `nullglob` the matches are those in the directory. -/
def glob (names : List Text) (t : Files Text) (source : Loc) : List Text :=
  match directoryAt t source with
  | some d => names.filter fun n => t (d ++ [n]) ≠ none
  | none => []

/-- The loop over the matches that are not excluded. -/
def linkAll (source d : Loc) : List Text → Files Text → Outcome Text Unit
  | [], t => done t ()
  | n :: ns, t => (lnS t d n (spell (source ++ [n]))).andThen fun _ t => linkAll source d ns t

def linkSourceChildren (names : List Text) (source destination : Loc) (excluded : List Text)
    (t : Files Text) : Outcome Text Unit :=
  (mkdirP t [] destination).andThen fun d t =>
    linkAll source d ((glob names t source).filter (· ∉ excluded)) t

/-- The five calls of `prepare_kernel_source_view`. -/
def Layout.linkAllChildren (s : Layout) (names : List Text) (t : Files Text) : Outcome Text Unit :=
  (linkSourceChildren names (s.kernelDir ++ []) (s.source ++ [])
    [".config".toList, "include".toList, "arch".toList] t).andThen fun _ t =>
  (linkSourceChildren names (s.kernelDir ++ includeDir) (s.source ++ includeDir)
    ["config".toList] t).andThen fun _ t =>
  (linkSourceChildren names (s.kernelDir ++ archDir) (s.source ++ archDir)
    ["arm64".toList] t).andThen fun _ t =>
  (linkSourceChildren names (s.kernelDir ++ arm64Dir) (s.source ++ arm64Dir)
    ["include".toList] t).andThen fun _ t =>
  linkSourceChildren names (s.kernelDir ++ arm64Include) (s.source ++ arm64Include)
    ["generated".toList] t

/-- The file system once the view is prepared; nothing if a command failed. -/
def Layout.prepareKernelSourceView (s : Layout) (r : Realpath) (names : List Text)
    (k : Files Text) : Option (Files Text) :=
  match safeResetDir r [] k (spell s.source) (spell s.buildDir) with
  | .accepted reset =>
    if reset.finished ∧ (s.linkAllChildren names reset.tree).result = some () then
      some (s.linkAllChildren names reset.tree).tree
    else none
  | _ => none

/-- The directories that the view has itself. -/
def ownDirs : List Loc := [[], includeDir, archDir, arm64Dir, arm64Include]

/-- What Kbuild takes for a tree that is not clean. -/
def markers : List Loc :=
  [[".config".toList], includeDir ++ ["config".toList], arm64Include ++ ["generated".toList]]

def Hidden (p : Loc) : Prop := ∃ m ∈ markers, m <+: p

/-- A node of the view, as it lies in the file system. -/
def nodeAt (target : Loc) : ViewNode → Node Text
  | .own n => n
  | .link => .symlink (spell target)

/-- The file system with a view of the kernel tree at a place. -/
def Layout.withView (s : Layout) (place : Loc) (t : Files Text) (v : View) : Files Text := fun q =>
  if place <+: q then (v (q.drop place.length)).map (nodeAt (s.kernelDir ++ q.drop place.length))
  else t q

section Sound

variable {t : Files Text}

theorem lnS_sound (h : WellFormed t) {d : Loc} (hd : isDir t d) (name target : Text) :
    Sound t (lnS t d name target) := by
  have missing : ∀ {l n}, isDir t l → t (l ++ [n]) = none →
      Sound t (write t (l ++ [n]) (.symlink target)) := fun hl hn =>
    write_free_sound h (freePlace_missing hl hn) rfl
  rw [lnS]
  cases resolve t d [name] with
  | found l =>
    dsimp only
    split
    · rename_i hl
      exact missing hl.1 hl.2
    · exact fail_sound h
  | absent q n =>
    dsimp only
    split
    · rename_i hn
      exact missing hd hn
    · exact fail_sound h
  | failed =>
    dsimp only
    split
    · rename_i hn
      exact missing hd hn
    · exact fail_sound h

theorem linkAll_sound {source d : Loc} {ns : List Text} (h : WellFormed t) (hd : isDir t d) :
    Sound t (linkAll source d ns t) := by
  induction ns generalizing t with
  | nil => exact done_sound h ()
  | cons n ns ih =>
    apply andThen_evolves (lnS_sound h hd _ _)
    intro _ u hu
    exact ih hu.wellFormed (hu.dirs d hd)

theorem linkSourceChildren_sound (h : WellFormed t) (names : List Text) (source destination : Loc)
    (excluded : List Text) : Sound t (linkSourceChildren names source destination excluded t) := by
  have made := mkdirP_sound h h.top destination
  apply andThen_sound made.1
  intro d hd
  exact linkAll_sound made.1.evolves.wellFormed (made.2 d hd)

theorem linkAllChildren_sound (h : WellFormed t) (s : Layout) (names : List Text) :
    Sound t (s.linkAllChildren names t) := by
  have call : ∀ {u}, Evolves t u → ∀ d excluded, Sound u (linkSourceChildren names
      (s.kernelDir ++ d) (s.source ++ d) excluded u) := fun hu _ _ =>
    linkSourceChildren_sound hu.wellFormed _ _ _ _
  refine andThen_evolves (call (.refl h) _ _) fun _ u hu => ?_
  refine andThen_evolves (call hu _ _) fun _ v hv => ?_
  refine andThen_evolves (call (hu.trans hv) _ _) fun _ w hw => ?_
  refine andThen_evolves (call ((hu.trans hv).trans hw) _ _) fun _ x hx => ?_
  exact call (((hu.trans hv).trans hw).trans hx) _ _

end Sound

section Abstract

def ownDir : Option ViewNode := some (.own (.dir 0o755))

theorem prefix_ownDirs {d q : Loc} (hd : d ∈ ownDirs) (h : q <+: d) : q ∈ ownDirs := by
  have hall : ∀ d ∈ ownDirs, ∀ q ∈ d.inits, q ∈ ownDirs := by decide
  exact hall d hd q ((List.mem_inits q d).mpr h)

theorem ownDirs_proper {d : Loc} (hd : d ∈ ownDirs) : ∀ n ∈ d, Proper n := by
  have hall : ∀ d ∈ ownDirs, ∀ n ∈ d, Proper n := by decide
  exact hall d hd

/-- The view: its own directories, and a link to everything else in them that is no marker. -/
theorem prepared_eq (kernel : Files Text) (q : Loc) :
    KernelSourceView.prepareKernelSourceView kernel q =
      if q ∈ ownDirs then ownDir
      else if q.dropLast ∈ ownDirs ∧ q ∉ markers ∧ kernel q ≠ none then some .link
      else none := by
  by_cases hq : q ∈ ownDirs
  · rw [if_pos hq]
    simp only [ownDirs, List.mem_cons, List.not_mem_nil, or_false] at hq
    rcases hq with rfl | rfl | rfl | rfl | rfl
    · rfl
    · rfl
    · rfl
    · rfl
    · rfl
  · rw [if_neg hq]
    have hnot : ∀ d ∈ ownDirs, ¬ q <+: d := fun d hd h => hq (prefix_ownDirs hd h)
    simp only [KernelSourceView.prepareKernelSourceView, KernelSourceView.linkSourceChildren,
      KernelSourceView.safeResetDir]
    rw [if_neg (hnot _ (by decide)), if_neg (hnot _ (by decide)), if_neg (hnot _ (by decide)),
      if_neg (hnot _ (by decide)), if_neg (hnot _ (by decide))]
    obtain ⟨d, n, rfl⟩ := (List.eq_nil_or_concat q).resolve_left fun h => hq (h ▸ by decide)
    rw [List.concat_eq_append] at *
    rw [List.dropLast_concat, List.getLastD_concat]
    by_cases hd : d ∈ ownDirs
    · have h := hd
      simp only [ownDirs, List.mem_cons, List.not_mem_nil, or_false] at hd
      rcases hd with rfl | rfl | rfl | rfl | rfl
      · simp [ownDirs, markers, includeDir, archDir, arm64Dir, arm64Include] at hq ⊢
        simp [hq]
      · simp [ownDirs, markers, includeDir, archDir, arm64Dir, arm64Include]
      · simp [ownDirs, markers, includeDir, archDir, arm64Dir, arm64Include] at hq ⊢
        simp [hq]
      · simp [ownDirs, markers, includeDir, archDir, arm64Dir, arm64Include] at hq ⊢
        simp [hq]
      · simp [ownDirs, markers, includeDir, archDir, arm64Dir, arm64Include]
    · have hne : ∀ d' ∈ ownDirs, d ≠ d' := fun d' hd' h => hd (h ▸ hd')
      rw [if_neg fun h => hne _ (by decide) h.1, if_neg fun h => hne _ (by decide) h.1,
        if_neg fun h => hne _ (by decide) h.1, if_neg fun h => hne _ (by decide) h.1,
        if_neg fun h => hne _ (by decide) h.1, if_neg (by simp), if_neg fun h => hd h.1]

end Abstract

section View

variable {s : Layout} {place : Loc} {t : Files Text} {v : View}

@[simp] theorem withView_at (q : Loc) :
    s.withView place t v (place ++ q) = (v q).map (nodeAt (s.kernelDir ++ q)) := by
  rw [Layout.withView, if_pos (List.prefix_append place q), List.drop_left]

theorem withView_other {q : Loc} (h : ¬ place <+: q) : s.withView place t v q = t q := if_neg h

/-- A node put below the place is a node of the view. -/
theorem put_withView (q : Loc) (x : ViewNode) :
    put (s.withView place t v) (place ++ q) (nodeAt (s.kernelDir ++ q) x) =
      s.withView place t (Function.update v q (some x)) := by
  funext p
  by_cases hp : place <+: p
  · obtain ⟨p, rfl⟩ := hp
    rw [withView_at]
    rcases eq_or_ne p q with rfl | hne
    · rw [put_self, Function.update_self, Option.map_some]
    · rw [put_other (by simpa using hne), withView_at, Function.update_of_ne hne]
  · have hne : p ≠ place ++ q := fun heq => hp (heq ▸ List.prefix_append place q)
    rw [put_other hne, withView_other hp, withView_other hp]

theorem isDir_withView {q : Loc} {m : ℕ} (hq : v q = some (.own (.dir m))) :
    isDir (s.withView place t v) (place ++ q) := by
  rw [isDir, withView_at, hq]
  rfl

theorem lnS_missing {d : Loc} {name target : Text} (hp : Proper name)
    (hn : t (d ++ [name]) = none) :
    lnS t d name target = write t (d ++ [name]) (.symlink target) := by
  have hlink : isSymlink t (d ++ [name]) = false := by simp [isSymlink, hn]
  rw [lnS, resolve_name hp hlink, if_pos hn]
  exact if_pos hn

/-- Links to all the names in a directory of the view that has none of them yet. -/
def withLinks (v : View) (d : Loc) (ns : List Text) : View := fun q =>
  if ∃ n ∈ ns, q = d ++ [n] then some .link else v q

theorem withLinks_cons (v : View) (d : Loc) (n : Text) (ns : List Text) :
    withLinks v d (n :: ns) = withLinks (Function.update v (d ++ [n]) (some .link)) d ns := by
  funext q
  rcases eq_or_ne q (d ++ [n]) with rfl | hne
  · simp [withLinks]
  · simp [withLinks, hne]

theorem linkAll_withView {d : Loc} {ns : List Text} (hnodup : ns.Nodup)
    (hns : ∀ n ∈ ns, Proper n ∧ v (d ++ [n]) = none) :
    (linkAll (s.kernelDir ++ d) (place ++ d) ns (s.withView place t v)).Yields
      (s.withView place t (withLinks v d ns)) () := by
  induction ns generalizing v with
  | nil =>
    have hnone : withLinks v d [] = v := by
      funext q
      simp [withLinks]
    rw [hnone]
    exact .done
  | cons n ns ih =>
    obtain ⟨hproper, hvacant⟩ := hns n List.mem_cons_self
    have hmissing : s.withView place t v (place ++ d ++ [n]) = none := by
      rw [List.append_assoc, withView_at, hvacant, Option.map_none]
    have hput : put (s.withView place t v) (place ++ d ++ [n])
        (.symlink (spell (s.kernelDir ++ d ++ [n]))) =
          s.withView place t (Function.update v (d ++ [n]) (some .link)) := by
      rw [List.append_assoc, List.append_assoc]
      exact put_withView (d ++ [n]) .link
    rw [linkAll, lnS_missing hproper hmissing, withLinks_cons]
    apply Outcome.Yields.andThen (.write hput)
    apply ih (List.nodup_cons.mp hnodup).2
    intro m hm
    have hne : m ≠ n := fun heq => (List.nodup_cons.mp hnodup).1 (heq ▸ hm)
    obtain ⟨hproper', hvacant'⟩ := hns m (List.mem_cons_of_mem n hm)
    exact ⟨hproper', by rwa [Function.update_of_ne (by simpa using hne)]⟩

end View

/-- The names in the directories that the view has itself. -/
def entries (home : Loc → Loc) (k : Files Text) : Files Text := fun q =>
  k (home q.dropLast ++ [q.getLastD []])

/-- What the calls start from: an empty directory to which `KERNEL_SOURCE` leads, apart from the
directories of the kernel tree, which are as they were. -/
structure Start (s : Layout) (names : List Text) (home : Loc → Loc) (place : Loc)
    (k t : Files Text) : Prop where
  nodup : names.Nodup
  proper : ∀ n ∈ names, Proper n
  fresh : s.withView place t KernelSourceView.safeResetDir = t
  source : ∀ u, Grows t u → mkdirP u [] s.source = done u place
  homes : ∀ d ∈ ownDirs, directoryAt t (s.kernelDir ++ d) = some (home d)
  apart : ∀ d ∈ ownDirs, ¬ home d <+: place ∧ ¬ place <+: home d
  kept : ∀ d ∈ ownDirs, ∀ q, home d <+: q → t q = k q
  listed : ∀ d ∈ ownDirs, ∀ n, k (home d ++ [n]) ≠ none → n ∈ names

/-- A view in which a directory can be made and filled. -/
structure Ready (v : View) (d : Loc) : Prop where
  top : v [] = ownDir
  above : ∀ q ∈ d.inits, q ≠ d → v q = ownDir
  vacant : d ≠ [] → v d = none
  children : ∀ n, v (d ++ [n]) = none

section Calls

variable {s : Layout} {names : List Text} {home : Loc → Loc} {place : Loc} {k t : Files Text}
  {v : View} {d : Loc}

theorem Start.grows (c : Start s names home place k t) (hv : v [] = ownDir) :
    Grows t (s.withView place t v) := by
  intro q hq
  by_cases hat : place <+: q
  · obtain ⟨p, rfl⟩ := hat
    have hfresh := congrFun c.fresh (place ++ p)
    rw [withView_at] at hfresh ⊢
    by_cases hp : p = []
    · rw [← hfresh, hp, hv]
      rfl
    · rw [← hfresh, KernelSourceView.safeResetDir, if_neg hp] at hq
      exact absurd rfl hq
  · exact withView_other hat

theorem Ready.mkdirP (hv : Ready v d) (hp : ∀ n ∈ d, Proper n) :
    (mkdirP (s.withView place t v) place d).Yields
      (s.withView place t (Function.update v d ownDir)) (place ++ d) := by
  rcases List.eq_nil_or_concat d with rfl | ⟨e, c, rfl⟩
  · rw [← hv.top, Function.update_eq_self, List.append_nil]
    exact .done
  rw [List.concat_eq_append] at *
  have hdirs : ∀ q, q <+: e → isDir (s.withView place t v) (place ++ q) := by
    intro q hq
    apply isDir_withView
    apply hv.above q ((List.mem_inits q _).mpr (hq.trans (List.prefix_append e [c])))
    rintro rfl
    exact not_child_prefix e c hq
  have hmissing : s.withView place t v (place ++ e ++ [c]) = none := by
    rw [List.append_assoc, withView_at, hv.vacant (by simp), Option.map_none]
  rw [mkdirP_dirs (fun n hn => hp n (List.mem_append_left _ hn)) hdirs,
    mkdirP_step (hp c (by simp)), if_pos hmissing, List.append_assoc]
  apply Outcome.Yields.andThen (.write (put_withView (e ++ [c]) (.own (.dir 0o755))))
  exact .done

/-- Nothing at or below a directory of the kernel tree lies in the view. -/
theorem Start.outside (c : Start s names home place k t) (hd : d ∈ ownDirs) {q : Loc}
    (hq : home d <+: q) : ¬ place <+: q := by
  intro hat
  rcases List.prefix_or_prefix_of_prefix hq hat with hpre | hpre
  · exact (c.apart d hd).1 hpre
  · exact (c.apart d hd).2 hpre

theorem Start.withView_kept (c : Start s names home place k t) (hd : d ∈ ownDirs) {q : Loc}
    (hq : home d <+: q) : s.withView place t v q = k q := by
  rw [withView_other (c.outside hd hq), c.kept d hd q hq]

/-- The names that are linked in a directory of the view. -/
theorem Start.glob_eq (c : Start s names home place k t) (hd : d ∈ ownDirs) (hv : v [] = ownDir) :
    glob names (s.withView place t v) (s.kernelDir ++ d) =
      names.filter fun n => k (home d ++ [n]) ≠ none := by
  rw [glob, directoryAt_grows (c.grows hv) (c.homes d hd)]
  dsimp only
  congr 1
  funext n
  rw [c.withView_kept hd (List.prefix_append _ _)]

/-- The directory and the links that one call adds. -/
theorem Start.view_eq (c : Start s names home place k t) (hd : d ∈ ownDirs) (hv : Ready v d)
    (excluded : List Text) :
    KernelSourceView.linkSourceChildren (entries home k) d excluded v =
      withLinks (Function.update v d ownDir) d
        ((names.filter fun n => k (home d ++ [n]) ≠ none).filter (· ∉ excluded)) := by
  funext q
  unfold KernelSourceView.linkSourceChildren withLinks
  by_cases hq : q <+: d
  · have hchild : ¬ ∃ n ∈ (names.filter fun n => k (home d ++ [n]) ≠ none).filter (· ∉ excluded),
        q = d ++ [n] := by
      rintro ⟨n, -, rfl⟩
      exact not_child_prefix d n hq
    rw [if_pos hq, if_neg hchild]
    rcases eq_or_ne q d with rfl | hne
    · rw [Function.update_self]
      rfl
    · rw [Function.update_of_ne hne, hv.above q ((List.mem_inits q d).mpr hq) hne]
      rfl
  rw [if_neg hq]
  have hother : q ≠ d := fun heq => hq (heq ▸ List.prefix_rfl)
  obtain ⟨e, n, rfl⟩ := (List.eq_nil_or_concat q).resolve_left fun h => hq (h ▸ List.nil_prefix)
  rw [List.concat_eq_append] at *
  rw [Function.update_of_ne hother, entries, List.dropLast_concat, List.getLastD_concat]
  congr 1
  apply propext
  constructor
  · rintro ⟨rfl, hn, hk⟩
    refine ⟨n, ?_, rfl⟩
    simp [c.listed e hd n hk, hn, hk]
  · rintro ⟨m, hm, heq⟩
    obtain ⟨rfl, rfl⟩ : e = d ∧ n = m := by simpa using heq
    simp only [List.mem_filter, decide_eq_true_eq] at hm
    exact ⟨rfl, hm.2, hm.1.2⟩

/-- One call makes the view one directory larger. -/
theorem Start.call (c : Start s names home place k t) (hd : d ∈ ownDirs) (hv : Ready v d)
    (excluded : List Text) :
    (linkSourceChildren names (s.kernelDir ++ d) (s.source ++ d) excluded
      (s.withView place t v)).Yields (s.withView place t
        (KernelSourceView.linkSourceChildren (entries home k) d excluded v)) () := by
  have htop : Function.update v d ownDir [] = ownDir := by
    rcases eq_or_ne d [] with rfl | hne
    · exact Function.update_self ..
    · rw [Function.update_of_ne hne.symm, hv.top]
  rw [linkSourceChildren, mkdirP_append s.source_proper, c.source _ (c.grows hv.top), done_andThen]
  apply Outcome.Yields.andThen (hv.mkdirP (ownDirs_proper hd))
  rw [c.glob_eq hd htop]
  rw [c.view_eq hd hv]
  apply linkAll_withView (c.nodup.filter _ |>.filter _)
  intro n hn
  have hmem := List.mem_of_mem_filter (List.mem_of_mem_filter hn)
  exact ⟨c.proper n hmem, by rw [Function.update_of_ne (by simp), hv.children]⟩

/-- The five calls make the view of the kernel tree. -/
theorem Start.calls (c : Start s names home place k t) :
    (s.linkAllChildren names t).Yields (s.withView place t
      (KernelSourceView.prepareKernelSourceView (entries home k))) () := by
  have ready := c.call (d := []) (v := KernelSourceView.safeResetDir) (by decide)
    ⟨rfl, by simp [List.inits], by simp, by simp [KernelSourceView.safeResetDir]⟩
  rw [c.fresh] at ready
  apply Outcome.Yields.andThen (ready _)
  refine .andThen (c.call (by decide) ?_ _) (.andThen (c.call (by decide) ?_ _)
    (.andThen (c.call (by decide) ?_ _) (c.call (by decide) ?_ _)))
  · constructor
    · rfl
    · simp [includeDir, List.inits]
      exact rfl
    · simp [includeDir, KernelSourceView.linkSourceChildren,
        KernelSourceView.safeResetDir]
    · simp [includeDir, KernelSourceView.linkSourceChildren,
        KernelSourceView.safeResetDir]
  · constructor
    · rfl
    · simp [archDir, List.inits]
      exact rfl
    · simp [archDir, includeDir, KernelSourceView.linkSourceChildren,
        KernelSourceView.safeResetDir]
    · simp [archDir, includeDir, KernelSourceView.linkSourceChildren,
        KernelSourceView.safeResetDir]
  · constructor
    · rfl
    · simp [arm64Dir, archDir, List.inits]
      exact ⟨rfl, rfl⟩
    · simp [arm64Dir, archDir, includeDir, KernelSourceView.linkSourceChildren,
        KernelSourceView.safeResetDir]
    · simp [arm64Dir, archDir, includeDir, KernelSourceView.linkSourceChildren,
        KernelSourceView.safeResetDir]
  · constructor
    · rfl
    · simp [arm64Include, arm64Dir, archDir, List.inits]
      exact ⟨rfl, rfl, rfl⟩
    · simp [arm64Include, arm64Dir, archDir, includeDir, KernelSourceView.linkSourceChildren,
        KernelSourceView.safeResetDir]
    · simp [arm64Include, arm64Dir, archDir, includeDir, KernelSourceView.linkSourceChildren,
        KernelSourceView.safeResetDir]

end Calls

/-- What the view is for. Paths lead, however many links that takes, to the same places through
`KERNEL_SOURCE` and through `KERNEL_DIR`; at most one link more is followed than for the kernel
tree and the way to `KERNEL_SOURCE`. -/
structure Layout.CleanView (s : Layout) (home : Loc → Loc) (place : Loc) (k v : Files Text) :
    Prop where
  same : ∀ p, (∀ n ∈ p, Proper n) → ¬ Hidden p → p ∉ ownDirs →
    ∀ l, Reaches v [] (s.source ++ p) l ↔ Reaches v [] (s.kernelDir ++ p) l
  nearby : ∃ j, ∀ p, (∀ n ∈ p, Proper n) → ¬ Hidden p → p ∉ ownDirs → ∀ links l,
    walk v links [] (s.kernelDir ++ p) = .found l →
      walk v (j + (links + 1)) [] (s.source ++ p) = .found l
  directories : ∀ d ∈ ownDirs, Reaches v [] (s.source ++ d) (place ++ d) ∧
    isDir v (place ++ d) ∧ Reaches v [] (s.kernelDir ++ d) (home d) ∧ isDir v (home d)
  names : ∀ d ∈ ownDirs, ∀ n, Proper n → ¬ Hidden (d ++ [n]) →
    (v (place ++ d ++ [n]) ≠ none ↔ v (home d ++ [n]) ≠ none)
  hidden : ∀ p, (∀ n ∈ p, Proper n) → Hidden p →
    v (place ++ p) = none ∧ ∀ l, ¬ Reaches v [] (s.source ++ p) l
  kept : ∀ d ∈ ownDirs, ∀ q, home d <+: q → v q = k q

/-- A path outside of the own directories leaves them at one of its names. -/
theorem leaves_ownDirs {p : Loc} (hp : p ∉ ownDirs) :
    ∃ d n rest, p = d ++ n :: rest ∧ d ∈ ownDirs ∧ d ++ [n] ∉ ownDirs := by
  induction p using List.reverseRecOn with
  | nil => exact absurd (by decide) hp
  | append_singleton q n ih =>
    by_cases hq : q ∈ ownDirs
    · exact ⟨q, n, [], rfl, hq, hp⟩
    · obtain ⟨d, m, rest, rfl, hd, hm⟩ := ih hq
      exact ⟨d, m, rest ++ [n], by simp, hd, hm⟩

section Clean

variable {s : Layout} {names : List Text} {home : Loc → Loc} {place : Loc} {k t : Files Text}

/-- The file system after the calls. -/
def Layout.viewed (s : Layout) (home : Loc → Loc) (place : Loc) (k t : Files Text) : Files Text :=
  s.withView place t (KernelSourceView.prepareKernelSourceView (entries home k))

theorem prepared_own (kernel : Files Text) {d : Loc} (hd : d ∈ ownDirs) :
    KernelSourceView.prepareKernelSourceView kernel d = ownDir := by
  rw [prepared_eq, if_pos hd]

theorem viewed_dir {d : Loc} (hd : d ∈ ownDirs) : isDir (s.viewed home place k t) (place ++ d) :=
  isDir_withView (prepared_own _ hd)

theorem Start.viewed_grows (c : Start s names home place k t) :
    Grows t (s.viewed home place k t) :=
  c.grows (prepared_own _ (by decide))

/-- In the view, a path goes on from the place of `KERNEL_SOURCE`. -/
theorem Start.walk_source (c : Start s names home place k t) :
    ∃ j, ∀ b cs, walk (s.viewed home place k t) (j + b) [] (s.source ++ cs) =
      walk (s.viewed home place k t) b place cs := by
  have hmade := c.source t (.refl t)
  have hreaches := mkdirP_reaches (t := t) s.source_proper (d := place) (by rw [hmade]; rfl)
  rw [hmade] at hreaches
  obtain ⟨links, hw⟩ := reaches_grows c.viewed_grows hreaches
  have hdir : isDir (s.viewed home place k t) (place ++ []) := viewed_dir (by decide)
  rw [List.append_nil] at hdir
  exact walk_through hdir hw

theorem Start.reaches_source (c : Start s names home place k t) {cs : List Text} {l : Loc} :
    Reaches (s.viewed home place k t) [] (s.source ++ cs) l ↔
      Reaches (s.viewed home place k t) place cs l := by
  obtain ⟨j, hj⟩ := c.walk_source
  constructor
  · rintro ⟨b, hb⟩
    exact ⟨b, by rw [← hj]; exact walk_grows (.refl _) (Nat.le_add_left b j) hb⟩
  · rintro ⟨b, hb⟩
    exact ⟨j + b, (hj b cs).trans hb⟩

theorem Start.reaches_kernel (c : Start s names home place k t) {d : Loc} (hd : d ∈ ownDirs) :
    Reaches (s.viewed home place k t) [] (s.kernelDir ++ d) (home d) ∧
      isDir (s.viewed home place k t) (home d) :=
  reaches_of_directoryAt (directoryAt_grows c.viewed_grows (c.homes d hd))

theorem walk_own {d : Loc} (hd : d ∈ ownDirs) (b : ℕ) (cs : List Text) :
    walk (s.viewed home place k t) b place (d ++ cs) =
      walk (s.viewed home place k t) b (place ++ d) cs := by
  obtain ⟨follow, heq⟩ := walk_eq (s.viewed home place k t) b
  rw [heq]
  apply walkWith_dirs (ownDirs_proper hd)
  intro q hq
  exact viewed_dir (prefix_ownDirs hd hq)

/-- A link of the view leads to where its path in the kernel tree leads. -/
theorem walk_link {d : Loc} {n : Text} (hd : d ∈ ownDirs) (hn : Proper n)
    (hlink : KernelSourceView.prepareKernelSourceView (entries home k) (d ++ [n]) = some .link)
    (b : ℕ) (rest : List Text) :
    walk (s.viewed home place k t) b place (d ++ n :: rest) = match b with
      | 0 => .failed
      | b + 1 => walk (s.viewed home place k t) b [] (s.kernelDir ++ (d ++ n :: rest)) := by
  have hnode : s.viewed home place k t (place ++ d ++ [n]) =
      some (.symlink (spell (s.kernelDir ++ (d ++ [n])))) := by
    rw [List.append_assoc, Layout.viewed, withView_at, hlink]
    rfl
  have hslash : ∀ m ∈ s.kernelDir ++ (d ++ [n]), '/' ∉ m := by
    intro m hm
    rcases List.mem_append.mp hm with hm | hm
    · exact (s.kernelProper m hm).2.2.2
    rcases List.mem_append.mp hm with hm | hm
    · exact (ownDirs_proper hd m hm).2.2.2
    · exact List.mem_singleton.mp hm ▸ hn.2.2.2
  have habsolute : isAbsolute (spell (s.kernelDir ++ (d ++ [n]))) = true := by
    obtain ⟨m, l, hcons⟩ := List.exists_cons_of_ne_nil
      (l := s.kernelDir ++ (d ++ [n])) (by simp)
    rw [hcons]
    rfl
  obtain ⟨hne, hdot, hdotdot, -⟩ := hn
  rw [walk_own hd, walk_cons, if_neg (by simp [hne, hdot]), if_neg hdotdot, hnode]
  cases b with
  | zero => rfl
  | succ b =>
    dsimp only
    rw [habsolute, components_spell (by simp) hslash, if_pos rfl, List.cons_append, walk_cons,
      if_pos (.inl rfl)]
    simp

/-- The view has a link for what is there in a directory of the kernel tree, unless it has a
directory for it or hides it. -/
theorem prepared_child {d : Loc} {n : Text} (hd : d ∈ ownDirs) (hn : d ++ [n] ∉ ownDirs)
    (hm : d ++ [n] ∉ markers) :
    KernelSourceView.prepareKernelSourceView (entries home k) (d ++ [n]) =
      if k (home d ++ [n]) = none then none else some .link := by
  rw [prepared_eq, if_neg hn, entries, List.dropLast_concat, List.getLastD_concat]
  simp [hd, hm]

theorem not_marker {d : Loc} {n : Text} {rest : List Text} (h : ¬ Hidden (d ++ n :: rest)) :
    d ++ [n] ∉ markers := fun hm => h ⟨_, hm, by simp⟩

/-- What is missing from the view is not reached through it. -/
theorem not_reached {d : Loc} {n : Text} (hd : d ∈ ownDirs) (hn : Proper n)
    (hnone : KernelSourceView.prepareKernelSourceView (entries home k) (d ++ [n]) = none)
    {rest : List Text} {l : Loc} :
    ¬ Reaches (s.viewed home place k t) place (d ++ n :: rest) l := by
  rintro ⟨b, hb⟩
  rw [walk_own hd] at hb
  apply walk_name_exists hn hb
  rw [List.append_assoc, Layout.viewed, withView_at, hnone, Option.map_none]

theorem Start.same (c : Start s names home place k t) {p : Loc} (hp : ∀ n ∈ p, Proper n)
    (hhidden : ¬ Hidden p) (hown : p ∉ ownDirs) (l : Loc) :
    Reaches (s.viewed home place k t) place p l ↔
      Reaches (s.viewed home place k t) [] (s.kernelDir ++ p) l := by
  obtain ⟨d, n, rest, rfl, hd, hn⟩ := leaves_ownDirs hown
  have hproper : Proper n := hp n (by simp)
  have hchild : KernelSourceView.prepareKernelSourceView (entries home k) (d ++ [n]) = _ :=
    prepared_child hd hn (not_marker hhidden)
  by_cases hnone : k (home d ++ [n]) = none
  · rw [if_pos hnone] at hchild
    apply iff_of_false (not_reached hd hproper hchild)
    obtain ⟨hreaches, hdir⟩ := c.reaches_kernel hd
    rw [← List.append_assoc, reaches_append hdir hreaches]
    rintro ⟨b, hb⟩
    apply walk_name_exists hproper hb
    rw [Layout.viewed, c.withView_kept hd (List.prefix_append _ _), hnone]
  · rw [if_neg hnone] at hchild
    constructor
    · rintro ⟨b, hb⟩
      rw [walk_link hd hproper hchild] at hb
      cases b with
      | zero => cases hb
      | succ b => exact ⟨b, hb⟩
    · rintro ⟨b, hb⟩
      refine ⟨b + 1, ?_⟩
      rw [walk_link hd hproper hchild]
      exact hb

theorem Start.nearby (c : Start s names home place k t) {p : Loc} (hp : ∀ n ∈ p, Proper n)
    (hhidden : ¬ Hidden p) (hown : p ∉ ownDirs) {links : ℕ} {l : Loc}
    (h : walk (s.viewed home place k t) links [] (s.kernelDir ++ p) = .found l) :
    walk (s.viewed home place k t) (links + 1) place p = .found l := by
  obtain ⟨b, hb⟩ := (c.same hp hhidden hown l).mpr ⟨links, h⟩
  obtain ⟨d, n, rest, rfl, hd, hn⟩ := leaves_ownDirs hown
  have hproper : Proper n := hp n (by simp)
  have hchild : KernelSourceView.prepareKernelSourceView (entries home k) (d ++ [n]) = _ :=
    prepared_child hd hn (not_marker hhidden)
  by_cases hnone : k (home d ++ [n]) = none
  · rw [if_pos hnone] at hchild
    exact absurd ⟨b, hb⟩ (not_reached hd hproper hchild)
  · rw [if_neg hnone] at hchild
    rw [walk_link hd hproper hchild]
    exact h

theorem Start.entry (c : Start s names home place k t) {d : Loc} (hd : d ∈ ownDirs) {n : Text}
    (hn : Proper n) (hhidden : ¬ Hidden (d ++ [n])) :
    s.viewed home place k t (place ++ d ++ [n]) ≠ none ↔
      s.viewed home place k t (home d ++ [n]) ≠ none := by
  have hkept : s.viewed home place k t (home d ++ [n]) = k (home d ++ [n]) :=
    c.withView_kept hd (List.prefix_append _ _)
  by_cases hown : d ++ [n] ∈ ownDirs
  · have hdir : isDir (s.viewed home place k t) (place ++ (d ++ [n])) := viewed_dir hown
    rw [← List.append_assoc] at hdir
    apply iff_of_true (isDir_exists hdir)
    obtain ⟨hreaches, habove⟩ := c.reaches_kernel hd
    have hbelow := (c.reaches_kernel hown).1
    rw [← List.append_assoc, reaches_append habove hreaches] at hbelow
    obtain ⟨b, hb⟩ := hbelow
    exact walk_name_exists hn hb
  · rw [hkept, List.append_assoc, Layout.viewed, withView_at,
      prepared_child hd hown (not_marker hhidden)]
    by_cases hnone : k (home d ++ [n]) = none
    · simp [hnone]
    · simp [hnone]

theorem prepared_hidden (kernel : Files Text) {p : Loc} (h : Hidden p) :
    KernelSourceView.prepareKernelSourceView kernel p = none := by
  obtain ⟨m, hm, rest, rfl⟩ := h
  have hall : ∀ m ∈ markers, ∀ d ∈ ownDirs, ¬ m <+: d := by decide
  have hown : m ++ rest ∉ ownDirs := fun hd => hall m hm _ hd (List.prefix_append m rest)
  rw [prepared_eq, if_neg hown, if_neg]
  rintro ⟨hdrop, hmarker, -⟩
  rcases List.eq_nil_or_concat rest with rfl | ⟨rest, n, rfl⟩
  · exact hmarker (by rwa [List.append_nil])
  · rw [List.concat_eq_append, ← List.append_assoc, List.dropLast_concat] at hdrop
    exact hall m hm _ hdrop (List.prefix_append m rest)

theorem marker_parent {m : Loc} (hm : m ∈ markers) :
    ∃ d ∈ ownDirs, ∃ n, m = d ++ [n] := by
  simp only [markers, List.mem_cons, List.not_mem_nil, or_false] at hm
  rcases hm with rfl | rfl | rfl
  · exact ⟨[], by decide, _, rfl⟩
  · exact ⟨includeDir, by decide, _, rfl⟩
  · exact ⟨arm64Include, by decide, _, rfl⟩

theorem Start.clean (c : Start s names home place k t) :
    s.CleanView home place k (s.viewed home place k t) where
  same p hp hhidden hown l := c.reaches_source.trans (c.same hp hhidden hown l)
  nearby := by
    obtain ⟨j, hj⟩ := c.walk_source
    refine ⟨j, fun p hp hhidden hown links l h => ?_⟩
    rw [hj]
    exact c.nearby hp hhidden hown h
  directories d hd := by
    refine ⟨?_, viewed_dir hd, c.reaches_kernel hd⟩
    rw [c.reaches_source]
    refine ⟨0, ?_⟩
    have hwalk : walk (s.viewed home place k t) 0 place (d ++ []) = _ := walk_own hd 0 []
    rw [List.append_nil] at hwalk
    rw [hwalk, walk_nil]
  names d hd n hn hhidden := c.entry hd hn hhidden
  hidden p hp h := by
    refine ⟨by rw [Layout.viewed, withView_at, prepared_hidden _ h, Option.map_none], fun l => ?_⟩
    obtain ⟨m, hm, rest, rfl⟩ := h
    obtain ⟨d, hd, n, rfl⟩ := marker_parent hm
    rw [c.reaches_source, List.append_assoc, List.singleton_append]
    apply not_reached hd (hp n (by simp))
    exact prepared_hidden _ ⟨_, hm, List.prefix_rfl⟩
  kept d hd q hq := c.withView_kept hd hq

end Clean

/-- The file system once `BUILD_BASE_DIR/BOARD` is made. -/
def Layout.made (s : Layout) (k : Files Text) : Files Text :=
  (makeParent k [] (spell s.buildDir)).tree

/-- The location of `KERNEL_SOURCE` that `realpath -m` prints. -/
def Layout.place (s : Layout) (r : Realpath) (k : Files Text) : Loc :=
  (r.resolve (s.made k) (spell s.source)).loc

/-- A file system with a kernel tree that has the directories of the view. The build directory
lies outside of them, whatever links lead to either; and `KERNEL_SOURCE` leads to the location
that `realpath -m` prints for it, once there is a directory. -/
structure Layout.Site (s : Layout) (r : Realpath) (names : List Text) (k : Files Text) where
  wellFormed : WellFormed k
  home : Loc → Loc
  homes : ∀ d ∈ ownDirs,
    directoryAt (remove k (s.place r k)) (s.kernelDir ++ d) = some (home d)
  apart : ∀ d ∈ ownDirs, ¬ home d <+: s.place r k ∧ ¬ s.place r k <+: home d
  outside : ∀ b, (makeParent k [] (spell s.buildDir)).result = some b →
    ∀ d ∈ ownDirs, ¬ home d <+: b
  leads : directoryAt (withDirs (remove (s.made k) (s.place r k)) [] (s.place r k)) s.source =
    some (s.place r k)
  oneLine : ¬ EndsInNewline (s.place r k)
  nodup : names.Nodup
  proper : ∀ n ∈ names, Proper n
  listed : ∀ d ∈ ownDirs, ∀ n, k (home d ++ [n]) ≠ none → n ∈ names

section Run

variable {s : Layout} {r : Realpath} {names : List Text} {k v : Files Text}

/-- What the command in front of the guard makes are the directories on the way to its own. -/
theorem made_eq (h : WellFormed k) {b : Loc}
    (hb : (makeParent k [] (spell s.buildDir)).result = some b) : s.made k = withDirs k [] b := by
  rcases eq_or_ne s.buildDir [] with hnil | hne
  · rw [hnil] at hb
    cases hb
  · obtain ⟨n, l, hcons⟩ := List.exists_cons_of_ne_nil hne
    have hcomponents : components (spell s.buildDir) = [] :: s.buildDir :=
      components_spell hne fun m hm => (s.buildProper m hm).2.2.2
    have hmake : makeParent k [] (spell s.buildDir) = mkdirP k [] s.buildDir := by
      have hslash : (spell s.buildDir).head? = some '/' := by rw [hcons]; rfl
      have hsome : spell s.buildDir ≠ [] := fun heq => by simp [heq] at hslash
      rw [makeParent, if_neg (by simp [hsome, hslash]), hcomponents, ite_self, mkdirP,
        if_pos (.inl rfl)]
    rw [hmake] at hb
    rw [Layout.made, hmake]
    exact mkdirP_result h h.top s.buildProper hb

/-- What is left of the file system when the directory of the view has been emptied. -/
def Layout.emptied (s : Layout) (r : Realpath) (k : Files Text) : Files Text :=
  withDirs (remove (s.made k) (s.place r k)) [] (s.place r k)

/-- Behind the guard, the directory has been emptied. -/
theorem accepted_emptied (site : s.Site r names k) {reset : Reset}
    (he : safeResetDir r [] k (spell s.source) (spell s.buildDir) = .accepted reset)
    (hfinished : reset.finished) :
    (∃ b, (makeParent k [] (spell s.buildDir)).result = some b) ∧
      WellFormed (s.emptied r k) ∧ reset.tree = s.emptied r k := by
  have hwell : WellFormed (s.made k) :=
    (makeParent_sound site.wellFormed site.wellFormed.top (spell s.buildDir)).1
  rw [safeResetDir] at he
  cases hb : (makeParent k [] (spell s.buildDir)).result with
  | none =>
    rw [hb] at he
    cases he
  | some b =>
    rw [hb] at he
    have hbelow : Below _ (s.place r k) := accepted_iff.mp ⟨reset, he⟩
    have hne : s.place r k ≠ [] := fun hnil => not_below_nil _ (hnil ▸ hbelow)
    have hproper : ∀ n ∈ s.place r k, Proper n := (r.resolve _ _).proper
    have hlinks := r.links (s.made k) (spell s.source) hwell
    have hreset : reset = resetPath (s.made k) (captured (r.resolve (s.made k) (spell s.source))) :=
      accepted_reset he
    rw [captured_eq hne site.oneLine] at hreset
    have htree : reset.tree = s.emptied r k := by
      rw [hreset] at hfinished ⊢
      exact resetPath_tree hwell hne hproper hlinks hfinished
    have hremoved := hwell.remove hne
    have hsound := (mkdirP_sound hremoved hremoved.top (s.place r k)).1.evolves.wellFormed
    have hmade := resetPath_eq hwell hne hproper hlinks
    refine ⟨⟨b, rfl⟩, ?_, htree⟩
    rw [← htree, hreset]
    exact hmade ▸ hsound

/-- A run that goes through makes the calls in the emptied directory. -/
theorem prepare_cases (site : s.Site r names k)
    (hrun : s.prepareKernelSourceView r names k = some v) :
    (∃ b, (makeParent k [] (spell s.buildDir)).result = some b) ∧
      WellFormed (s.emptied r k) ∧
      (s.linkAllChildren names (s.emptied r k)).result = some () ∧
      v = (s.linkAllChildren names (s.emptied r k)).tree := by
  rw [Layout.prepareKernelSourceView] at hrun
  cases he : safeResetDir r [] k (spell s.source) (spell s.buildDir) with
  | unprepared tree => simp [he] at hrun
  | refused message tree => simp [he] at hrun
  | accepted reset =>
    rw [he] at hrun
    obtain ⟨⟨hfinished, hresult⟩, htree⟩ := Option.ite_none_right_eq_some.mp hrun
    obtain ⟨hb, hwell, hemptied⟩ := accepted_emptied site he hfinished
    rw [hemptied] at hresult htree
    exact ⟨hb, hwell, hresult, (Option.some.inj htree).symm⟩

theorem start_of_site (site : s.Site r names k)
    (hrun : s.prepareKernelSourceView r names k = some v) :
    Start s names site.home (s.place r k) k (s.emptied r k) := by
  obtain ⟨⟨b, hb⟩, hwell, hresult, -⟩ := prepare_cases site hrun
  have hempty := withDirs_remove (s.made k) (s.place r k)
  have hdir : s.emptied r k (s.place r k) = some (.dir 0o755) := by
    rw [Layout.emptied, withDirs,
      if_pos ⟨remove_at List.prefix_rfl, List.nil_prefix, List.prefix_rfl⟩]
  have hmade := made_eq site.wellFormed hb
  have hgrows : Grows (remove k (s.place r k)) (s.emptied r k) := by
    apply Grows.trans (remove_mono _ _) (withDirs_grows _ _ _)
    rw [hmade]
    exact withDirs_grows _ _ _
  obtain ⟨c, hc, -⟩ := andThen_result.mp hresult
  obtain ⟨d, hd, -⟩ := andThen_result.mp hc
  rw [List.append_nil] at hd
  have htree := mkdirP_result hwell hwell.top s.source_proper hd
  obtain rfl : d = s.place r k := by
    apply reaches_unique (mkdirP_reaches s.source_proper hd)
    exact reaches_grows (mkdirP_grows _ _ _) (reaches_of_directoryAt site.leads).1
  rw [withDirs_dir hwell (by simp [hdir])] at htree
  constructor
  · exact site.nodup
  · exact site.proper
  · funext q
    by_cases hq : s.place r k <+: q
    · obtain ⟨p, rfl⟩ := hq
      rw [withView_at]
      rcases eq_or_ne p [] with rfl | hp
      · simp only [List.append_nil, hdir]
        rfl
      · rw [KernelSourceView.safeResetDir, if_neg hp]
        exact (hempty.1.2 p hp).symm
    · exact withView_other hq
  · intro u hu
    apply mkdirP_again s.source_proper hd
    rwa [htree]
  · exact fun d hd => directoryAt_grows hgrows (site.homes d hd)
  · exact site.apart
  · intro d hd q hq
    have hout : ¬ s.place r k <+: q := by
      intro hat
      rcases List.prefix_or_prefix_of_prefix hq hat with hpre | hpre
      · exact (site.apart d hd).1 hpre
      · exact (site.apart d hd).2 hpre
    rw [Layout.emptied, withDirs, if_neg fun h => (site.apart d hd).1 (hq.trans h.2.2),
      remove_other hout, hmade, withDirs, if_neg fun h => site.outside b hb d hd (hq.trans h.2.2)]
  · exact site.listed

/-- After a run that goes through, the view is clean and the kernel tree as it was, whatever
`KERNEL_SOURCE` was before. -/
theorem clean_source_view (site : s.Site r names k)
    (hrun : s.prepareKernelSourceView r names k = some v) :
    s.CleanView site.home (s.place r k) k v := by
  have start := start_of_site site hrun
  obtain ⟨-, -, -, rfl⟩ := prepare_cases site hrun
  rw [start.calls.1]
  exact start.clean

theorem vendor_proper : (∀ n ∈ ["sdk".toList, "kernel".toList], Proper n) ∧
    ∀ n ∈ ["build".toList, "rock".toList], Proper n := by
  decide

/-- A kernel tree with two of the markers and a version of its own, beside a build directory with an
older view. -/
def vendorLayout : Layout where
  kernelDir := ["sdk".toList, "kernel".toList]
  buildDir := ["build".toList, "rock".toList]
  kernelProper := vendor_proper.1
  buildProper := vendor_proper.2

def vendorNodes : List (Loc × Node Text) :=
  [[], ["sdk".toList], ["build".toList], ["build".toList, "rock".toList], vendorLayout.source].map
      (fun l => (l, .dir 0o755)) ++
    ownDirs.map (fun d => (vendorLayout.kernelDir ++ d, .dir 0o755)) ++
    [(vendorLayout.kernelDir ++ [".config".toList], .file "old".toList 0o644),
      (vendorLayout.kernelDir ++ [".scmversion".toList], .file "-g0123456789ab\n".toList 0o644),
      (vendorLayout.kernelDir ++ includeDir ++ ["config".toList], .dir 0o755),
      (vendorLayout.kernelDir ++ includeDir ++ ["a b.h".toList], .file "x".toList 0o644),
      (vendorLayout.source ++ ["Makefile".toList], .symlink "/sdk/kernel/Makefile".toList)]

def vendorTree : Files Text := ofList vendorNodes

def vendorNames : List Text :=
  [".config", ".scmversion", "a b.h", "arch", "arm64", "config", "include", "kernel-source"].map
    String.toList

def vendorSite : vendorLayout.Site lexical vendorNames vendorTree where
  wellFormed := ofList_wellFormed (by decide) (by decide +kernel)
  home d := vendorLayout.kernelDir ++ d
  homes := by decide +kernel
  apart := by decide +kernel
  outside b hb := by
    have hmade : (makeParent vendorTree [] (spell vendorLayout.buildDir)).result =
        some vendorLayout.buildDir := by decide +kernel
    obtain rfl := Option.some.inj (hmade.symm.trans hb)
    decide
  leads := by decide +kernel
  oneLine := by decide +kernel
  nodup := by decide
  proper := by decide
  listed d hd n hn := by
    have hall : ∀ l ∈ vendorNodes.map Prod.fst, ∀ d ∈ ownDirs,
        vendorLayout.kernelDir ++ d = l.dropLast → l ≠ [] → l.getLastD [] ∈ vendorNames := by
      decide +kernel
    have hlisted := hall _ (ofList_exists_iff.mp hn) d hd (by simp) (by simp)
    simpa using hlisted

theorem clean_source_view_vendor : ∃ v,
    vendorLayout.prepareKernelSourceView lexical vendorNames vendorTree = some v ∧
      vendorLayout.CleanView vendorSite.home (vendorLayout.place lexical vendorTree) vendorTree v
    := by
  have hsome : (vendorLayout.prepareKernelSourceView lexical vendorNames vendorTree).isSome := by
    decide +kernel
  obtain ⟨v, hv⟩ := Option.isSome_iff_exists.mp hsome
  exact ⟨v, hv, clean_source_view vendorSite hv⟩

end Run

end KernelSourceTree
