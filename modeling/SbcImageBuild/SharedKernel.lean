import SbcImageBuild.KernelSourceView
import Mathlib.Data.List.Infix

/-!
# Boards on one kernel tree

What `make` sees of a kernel tree that another board was built from before. The hook of one
board edits the tree, and nothing else in it changes between the builds.
-/
namespace SharedKernel

open ShellText FileTree KernelHook KernelSourceView StepSystem

inductive Board where
  | rk3588CokepiPlusLp4V10
  | rk3588Evb1Lp4V10Linux
  | rk3588Muse
  | rk3588sCokepiModelLp4V10
  | rk3588sRock5c
  deriving DecidableEq

/-- A board, and the driver source in the environment of its build. -/
structure Build where
  board : Board
  driver : DriverSource

/-- `run_hook pre_build_kernel`: only one board profile defines the function. -/
def hook (b : Build) : List (Files Text → Option (Files Text)) :=
  match b.board with
  | .rk3588Muse => preBuildKernel b.driver
  | _ => []

def onKernel (f : Files Text → Option (Files Text)) (s : Sources) : Option Sources :=
  (f s.kernel).map fun k => { s with kernel := k }

/-- What `build_kernel.sh` does to the kernel tree and its view before it runs `make`. -/
def commands (rev : Text) (b : Build) : List (Sources → Option Sources) :=
  (fun s => some (prepared s.kernel)) :: seedScm rev :: (hook b).map onKernel

def apply (s : Sources) (c : Sources → Option Sources) : Option Sources := c s

/-- The sources when `make` runs, from the tree and the view that are there when the build
starts; there are none if a command failed before. -/
def atMake (rev : Text) (b : Build) (s : Sources) : Option Sources := run apply (commands rev b) s

/-- The kernel tree that a build leaves when it is stopped after so many commands, or by one that
fails. `make` itself writes below its output directory only. -/
def afterRun (rev : Text) (b : Build) (stop : ℕ) (s : Sources) : Files Text :=
  (reach apply ((commands rev b).take stop) s).kernel

/-- What `build_kernel.sh` and the hook enter or write by name. -/
def namedPlaces : List Loc :=
  [[scmVersion], [scmRevision], includeDir, arm64Include, driversMakefile, mhiPciGeneric]

/-- A kernel source tree. As in every tree of Linux, it has a directory of drivers, and no
symbolic link is at or above a place that the scripts name. -/
structure KernelTree where
  tree : Files Text
  wellFormed : WellFormed tree
  drivers : isDir tree drivers
  plain : ∀ l ∈ namedPlaces, ∀ q ∈ l.inits, isSymlink tree q = false

/-- The hook of the board gets as far as the kernel tree. -/
def Edits (b : Build) : Prop :=
  b.board = .rk3588Muse ∧ ∃ source, b.driver = .found source ∧ ValidDriver source

/-- What a run for `a` may have changed for good in the eyes of `b`. -/
def Affected (a b : Build) (p : Loc) : Prop :=
  Edits a ∧ ¬ Edits b ∧ (p = driversMakefile ∨ p = mhiPciGeneric ∨ pcieMhiDst <+: p)

/-- The same is visible at every path but the excepted ones. -/
def SameBut (excepted : Loc → Prop) (s t : Sources) : Prop :=
  ∀ p, ¬ excepted p → s.visible p = t.visible p

theorem KernelTree.direct (k : KernelTree) {l : Loc} (hl : l ∈ namedPlaces) : Direct k.tree l :=
  k.wellFormed.direct fun q hq => k.plain l hl q ((List.mem_inits q l).mpr hq)

theorem KernelTree.steady (k : KernelTree) : Steady k.tree where
  dirs := by
    intro q hq
    rcases k.wellFormed.prefix_dir hq (isDir_exists k.drivers) with rfl | hdir
    · exact k.drivers
    · exact hdir
  makefile := k.direct (by simp [namedPlaces])
  generic := k.direct (by simp [namedPlaces])

/-- A tree that differs from `k` by no more than what a stopped run leaves in it. -/
structure Touched (rev : Text) (edits : Prop) (k u : Files Text) : Prop where
  elsewhere : ∀ q, q ≠ [scmRevision] → q ≠ driversMakefile → q ≠ mhiPciGeneric →
    ¬ pcieMhiDst <+: q → u q = k q
  revision : u [scmRevision] = k [scmRevision] ∨ k [scmVersion] = none ∧ ∃ content mode,
    k [scmRevision] = some (.file content mode) ∧
      u [scmRevision] = some (.file (rev ++ ['\n']) mode)
  makefile : u driversMakefile = k driversMakefile ∨
    edits ∧ u driversMakefile = wired (k driversMakefile) ∧ u driversMakefile ≠ none
  generic : u mhiPciGeneric = k mhiPciGeneric ∨
    edits ∧ u mhiPciGeneric = (k mhiPciGeneric).map disabled
  driver : ¬ edits → ∀ q, pcieMhiDst <+: q → u q = k q

section Touching

variable {rev : Text} {edits : Prop} {k u : Files Text}

theorem Touched.refl (rev : Text) (edits : Prop) (k : Files Text) : Touched rev edits k k where
  elsewhere := fun _ _ _ _ _ => rfl
  revision := .inl rfl
  makefile := .inl rfl
  generic := .inl rfl
  driver := fun _ _ _ => rfl

/-- A change below the directory of the driver. -/
theorem Touched.below_dst {v : Files Text} (h : Touched rev edits k u) (he : edits)
    (hv : ∀ q, ¬ pcieMhiDst <+: q → v q = u q) : Touched rev edits k v where
  elsewhere := fun q hr hm hg hd => (hv q hd).trans (h.elsewhere q hr hm hg hd)
  revision := by
    rw [hv _ (by decide)]
    exact h.revision
  makefile := by
    rw [hv _ (by decide)]
    exact h.makefile
  generic := by
    rw [hv _ (by decide)]
    exact h.generic
  driver := fun hne => absurd he hne

theorem Touched.wired_eq (h : Touched rev edits k u) :
    wired (u driversMakefile) = wired (k driversMakefile) := by
  rcases h.makefile with heq | ⟨-, heq, hne⟩
  · rw [heq]
  · rw [heq] at hne ⊢
    exact wired_idem hne

theorem Touched.disabled_eq (h : Touched rev edits k u) :
    (u mhiPciGeneric).map disabled = (k mhiPciGeneric).map disabled := by
  rcases h.generic with heq | ⟨-, heq⟩
  · rw [heq]
  · rw [heq, Option.map_map]
    exact congrArg (Option.map · _) (funext disabled_idem)

theorem Touched.wire (h : Touched rev edits k u) (he : edits) {n : Node Text}
    (hn : wired (u driversMakefile) = some n) :
    Touched rev edits k (put u driversMakefile n) := by
  have other : ∀ q, q ≠ driversMakefile → put u driversMakefile n q = u q := fun q => put_other
  refine ⟨fun q hr hm hg hd => ?_, ?_, .inr ⟨he, ?_, by simp⟩, ?_, fun hne => absurd he hne⟩
  · rw [other q hm]
    exact h.elsewhere q hr hm hg hd
  · rw [other _ (by decide)]
    exact h.revision
  · rw [put_self, ← h.wired_eq, hn]
  · rw [other _ (by decide)]
    exact h.generic

theorem Touched.disable (h : Touched rev edits k u) (he : edits) :
    Touched rev edits k (withDisabled u) := by
  have other : ∀ q, q ≠ mhiPciGeneric → withDisabled u q = u q := fun q hq => if_neg hq
  refine ⟨fun q hr hm hg hd => ?_, ?_, ?_, .inr ⟨he, ?_⟩, fun hne => absurd he hne⟩
  · rw [other q hg]
    exact h.elsewhere q hr hm hg hd
  · rw [other _ (by decide)]
    exact h.revision
  · rw [other _ (by decide)]
    exact h.makefile
  · rw [withDisabled, if_pos rfl]
    exact h.disabled_eq

theorem Touched.direct (h : Touched rev edits k u) (hv : Direct k [scmVersion])
    (hr : Direct k [scmRevision]) : Direct u [scmVersion] ∧ Direct u [scmRevision] := by
  have top : u [] = k [] := h.elsewhere [] (by decide) (by decide) (by decide) (by decide)
  have version : u [scmVersion] = k [scmVersion] :=
    h.elsewhere _ (by decide) (by decide) (by decide) (by decide)
  have above : ∀ name q, q <+: [name] → q ≠ [name] → u q = k q := by
    intro name q hq hne
    have hsplit : q = [] ++ [name] ∨ q <+: [] := List.prefix_concat_iff.mp hq
    obtain rfl := List.prefix_nil.mp (hsplit.resolve_left hne)
    exact top
  refine ⟨hv.congr (above _) ?_ fun hne => .inl (version ▸ hne),
    hr.congr (above _) ?_ fun hne => .inl ?_⟩
  · rw [isSymlink, version]
    exact hv.links _ List.prefix_rfl
  · rcases h.revision with heq | ⟨-, content, mode, -, heq⟩
    · rw [isSymlink, heq]
      exact hr.links _ List.prefix_rfl
    · rw [isSymlink, heq]
      rfl
  · rcases h.revision with heq | ⟨-, content, mode, hk, -⟩
    · rwa [heq] at hne
    · rw [hk]
      simp

/-- Nothing is changed on the way to what the hook edits. -/
theorem Touched.above (h : Touched rev edits k u) {q : Loc} (hq : q <+: mhiPciGeneric)
    (hne : q ≠ mhiPciGeneric) : u q = k q := by
  have clear : ∀ q ∈ mhiPciGeneric.inits,
      q ≠ [scmRevision] ∧ q ≠ driversMakefile ∧ ¬ pcieMhiDst <+: q := by decide
  obtain ⟨hr, hm, hd⟩ := clear q ((List.mem_inits q _).mpr hq)
  exact h.elsewhere q hr hm hne hd

theorem Touched.above_drivers (h : Touched rev edits k u) {q : Loc} (hq : q <+: drivers) :
    u q = k q := by
  refine h.above (hq.trans (by decide)) ?_
  rintro rfl
  exact absurd hq (by decide)

theorem disabled_isSymlink (n : Node Text) : (disabled n).isSymlink = n.isSymlink := by
  cases n <;> rfl

theorem Touched.steady (h : Touched rev edits k u) (s : Steady k) : Steady u := by
  refine ⟨fun q hq => ?_, s.makefile.congr (fun q hq hne => ?_) ?_ fun _ => .inr fun q hq hne => ?_,
    s.generic.congr (fun q hq hne => h.above hq hne) ?_ fun hne => .inl ?_⟩
  · rw [isDir, h.above_drivers hq]
    exact s.dirs q hq
  · exact h.above_drivers ((List.prefix_concat_iff.mp hq).resolve_left hne)
  · rcases h.makefile with heq | ⟨-, heq, hne⟩
    · rw [isSymlink, heq]
      exact s.makefile.links _ List.prefix_rfl
    · obtain ⟨n, hn⟩ := Option.ne_none_iff_exists'.mp hne
      rw [isSymlink, hn]
      exact wired_not_symlink (heq.symm.trans hn)
  · exact s.dirs q ((List.prefix_concat_iff.mp hq).resolve_left hne)
  · have hlink : isSymlink k mhiPciGeneric = false := s.generic.links _ List.prefix_rfl
    rcases h.generic with heq | ⟨-, heq⟩
    · rwa [isSymlink, heq]
    · rw [isSymlink, heq, Option.any_map]
      simpa only [isSymlink, Function.comp_def, disabled_isSymlink] using hlink
  · rcases h.generic with heq | ⟨-, heq⟩
    · rwa [heq] at hne
    · rw [heq, ne_eq, Option.map_eq_none_iff] at hne
      exact hne

end Touching

section Stopping

variable {rev : Text} {k : Files Text}

/-- The hook may be stopped anywhere. -/
theorem hook_touched {edits : Prop} {source : Files Text} (hsource : ValidDriver source)
    (he : edits) (s : Steady k) {u : Files Text} (h : Touched rev edits k u) (stop : ℕ) :
    Touched rev edits k
      (reach (fun k f => f k) ((preBuildKernel (.found source)).take stop) u) := by
  have steady := h.steady s
  have made := mkdirP_removed steady
  have removed : Touched rev edits k (remove u pcieMhiDst) :=
    h.below_dst he fun _ => remove_other
  have copied : Touched rev edits k (integrated source u) :=
    h.below_dst he fun _ => integrated_elsewhere source u
  rw [preBuildKernel, if_pos hsource]
  refine reach_take_cons h (fun v hv => ?_) stop
  obtain rfl : remove u pcieMhiDst = v := by
    rw [← rmRf_steady steady]
    exact Option.some.inj hv
  refine reach_take_cons removed fun v hv => ?_
  obtain rfl : cleared u = v := by
    dsimp only at hv
    rw [made.1, made.2] at hv
    exact Option.some.inj hv
  refine reach_take_cons (h.below_dst he fun _ => cleared_elsewhere u) fun v hv => ?_
  obtain rfl : integrated source u = v :=
    Option.some.inj ((copyDriver_cleared steady source).symm.trans hv)
  refine reach_take_cons copied fun v hv => ?_
  rw [wireMakefile_steady (copied.steady s)] at hv
  obtain ⟨n, hn, rfl⟩ := Option.map_eq_some_iff.mp hv
  have wired := copied.wire he hn
  refine reach_take_cons wired fun v hv => ?_
  obtain rfl := Option.some.inj ((disablePciGeneric_steady (wired.steady s)).symm.trans hv)
  exact reach_take_nil (wired.disable he)

theorem reach_onKernel (fs : List (Files Text → Option (Files Text))) (s : Sources) :
    (reach apply (fs.map onKernel) s).kernel = reach (fun k f => f k) fs s.kernel := by
  induction fs generalizing s with
  | nil => rfl
  | cons f fs ih =>
    rw [List.map_cons, reach, reach, apply, onKernel]
    cases f s.kernel with
    | none => rfl
    | some u => exact ih _

theorem run_onKernel (fs : List (Files Text → Option (Files Text))) (s : Sources) :
    run apply (fs.map onKernel) s =
      (runCommands fs s.kernel).map fun k => { s with kernel := k } := by
  induction fs generalizing s with
  | nil => rfl
  | cons f fs ih =>
    rw [List.map_cons, run, apply, onKernel, runCommands, run]
    cases f s.kernel with
    | none => rfl
    | some u => exact ih _

theorem hook_idle {b : Build} (h : ¬ Edits b) : hook b = [] ∨ hook b = [fun _ => none] := by
  unfold hook
  cases hb : b.board with
  | rk3588Muse =>
    cases hd : b.driver with
    | missing => exact .inl rfl
    | unusable => exact .inr rfl
    | found source =>
      have invalid : ¬ ValidDriver source := fun hs => h ⟨hb, source, hd, hs⟩
      exact .inr (if_neg invalid)
  | _ => exact .inl rfl

theorem hook_edits {b : Build} (h : Edits b) :
    ∃ source, hook b = preBuildKernel (.found source) ∧ ValidDriver source := by
  obtain ⟨hb, source, hd, hs⟩ := h
  exact ⟨source, by rw [hook, hb, hd], hs⟩

theorem touched_revision {edits : Prop} {content : Text} {mode : ℕ} (hv : k [scmVersion] = none)
    (hr : k [scmRevision] = some (.file content mode)) :
    Touched rev edits k (put k [scmRevision] (.file (rev ++ ['\n']) mode)) where
  elsewhere := fun _ hq _ _ _ => put_other hq
  revision := .inr ⟨hv, content, mode, hr, put_self _ _ _⟩
  makefile := .inl (put_other (by decide))
  generic := .inl (put_other (by decide))
  driver := by
    rintro - q hq
    refine put_other ?_
    rintro rfl
    exact absurd hq (by decide)

theorem seedScm_touched {edits : Prop} (hv : Direct k [scmVersion]) (hr : Direct k [scmRevision])
    {s : Sources} (h : seedScm rev (prepared k) = some s) : Touched rev edits k s.kernel := by
  rw [seedScm_prepared rev hv hr] at h
  split at h
  · split at h
    all_goals
      obtain rfl := Option.some.inj h
      exact .refl rev edits k
  · rename_i hnone
    rw [not_not] at hnone
    split at h
    · obtain rfl := Option.some.inj h
      exact .refl rev edits k
    · rename_i hfile
      obtain rfl := Option.some.inj h
      exact touched_revision hnone hfile
    · cases h

/-- Wherever a run is stopped, it has touched no more than the places named. -/
theorem afterRun_touched (k : KernelTree) (rev : Text) (a : Build) (stop : ℕ) (old : View) :
    Touched rev (Edits a) k.tree (afterRun rev a stop ⟨k.tree, old⟩) := by
  have hv : Direct k.tree [scmVersion] := k.direct (by simp [namedPlaces])
  have hr : Direct k.tree [scmRevision] := k.direct (by simp [namedPlaces])
  have start : Touched rev (Edits a) k.tree k.tree := .refl rev (Edits a) k.tree
  have seeded : ∀ s : Sources, seedScm rev (prepared k.tree) = some s →
      Touched rev (Edits a) k.tree s.kernel := fun _ => seedScm_touched hv hr
  refine reach_take_cons (P := fun s : Sources => Touched rev (Edits a) k.tree s.kernel) start
    (fun s hs => ?_) stop
  obtain rfl : prepared k.tree = s := Option.some.inj hs
  refine reach_take_cons (P := fun s : Sources => Touched rev (Edits a) k.tree s.kernel) start
    fun s hs n => ?_
  rw [← List.map_take, reach_onKernel]
  by_cases he : Edits a
  · obtain ⟨source, heq, hsource⟩ := hook_edits he
    rw [heq]
    exact hook_touched hsource he k.steady (seeded s hs) n
  · rcases hook_idle he with heq | heq
    · rw [heq, List.take_nil]
      exact seeded s hs
    · rw [heq]
      refine reach_take_cons (seeded s hs) (fun u hu => ?_) n
      cases hu

end Stopping

section Comparing

variable {rev : Text} {edits : Prop}

/-- Two sources with one view, where one kernel tree has been touched, but the seeded revision
is the same. -/
structure Agree (rev : Text) (edits : Prop) (s t : Sources) : Prop where
  view : t.view = s.view
  kernel : Touched rev edits s.kernel t.kernel
  revision : t.kernel [scmRevision] = s.kernel [scmRevision]
  steady : Steady s.kernel

theorem prepared_view {k u : Files Text} (h : Touched rev edits k u) :
    prepareKernelSourceView u = prepareKernelSourceView k := by
  refine prepareKernelSourceView_congr fun q hq => ?_
  have outside : ∀ l ∈ [[], includeDir, archDir, arm64Dir, arm64Include], ¬ drivers <+: l := by
    decide
  have notBelow : ∀ r, r ≠ [] → q ≠ drivers ++ r := by
    rintro r hr rfl
    rw [List.dropLast_append_of_ne_nil hr] at hq
    exact outside _ hq (List.prefix_append _ _)
  by_cases hrev : q = [scmRevision]
  · subst hrev
    rcases h.revision with heq | ⟨-, content, mode, hk, hu⟩
    · rw [heq]
    · simp [hk, hu]
  · have heq : u q = k q := by
      refine h.elsewhere q hrev (notBelow _ (by simp)) (notBelow _ (by decide)) ?_
      rintro ⟨r, rfl⟩
      exact notBelow ("pcie_mhi".toList :: r) (by simp) (by simp [pcieMhiDst])
    rw [heq]

theorem put_revision_agree {k u : Files Text} (h : Touched rev edits k u) (n : Node Text) :
    Touched rev edits (put k [scmRevision] n) (put u [scmRevision] n) := by
  have other : ∀ q (t : Files Text), q ≠ [scmRevision] → put t [scmRevision] n q = t q :=
    fun q t => put_other
  refine ⟨fun q hr hm hg hd => ?_, .inl (by simp), ?_, ?_, fun hne q hq => ?_⟩
  · rw [other q u hr, other q k hr]
    exact h.elsewhere q hr hm hg hd
  · rw [other _ u (by decide), other _ k (by decide)]
    exact h.makefile
  · rw [other _ u (by decide), other _ k (by decide)]
    exact h.generic
  · have hr : q ≠ [scmRevision] := by
      rintro rfl
      exact absurd hq (by decide)
    rw [other q u hr, other q k hr]
    exact h.driver hne q hq

theorem seedScm_agree {k u : Files Text} (s : Steady k) (hv : Direct k [scmVersion])
    (hr : Direct k [scmRevision]) (h : Touched rev edits k u) :
    Option.Rel (Agree rev edits) (seedScm rev (prepared k)) (seedScm rev (prepared u)) := by
  obtain ⟨hv', hr'⟩ := h.direct hv hr
  have version : u [scmVersion] = k [scmVersion] :=
    h.elsewhere _ (by decide) (by decide) (by decide) (by decide)
  rw [seedScm_prepared rev hv hr, seedScm_prepared rev hv' hr', prepared_view h, version]
  by_cases hnone : k [scmVersion] = none
  · rw [if_neg (by simp [hnone]), if_neg (by simp [hnone])]
    rcases h.revision with heq | ⟨-, content, mode, hk, hu⟩
    · rw [heq]
      rcases hn : k [scmRevision] with _ | (m | ⟨content, m⟩ | target)
      · exact .some ⟨rfl, h, heq, s⟩
      · exact .none
      · have same := put_revision_agree h (.file (rev ++ ['\n']) m)
        have once : Touched rev edits k _ := touched_revision hnone hn
        exact .some ⟨rfl, same, by simp, once.steady s⟩
      · exact .none
    · rw [hk, hu]
      have same := put_revision_agree h (.file (rev ++ ['\n']) mode)
      have once : Touched rev edits k _ := touched_revision hnone hk
      exact .some ⟨rfl, same, by simp, once.steady s⟩
  · rw [if_pos hnone, if_pos hnone]
    have revision : u [scmRevision] = k [scmRevision] :=
      h.revision.resolve_right fun hother => hnone hother.1
    rw [revision]
    split
    · exact .some ⟨rfl, h, revision, s⟩
    · exact .some ⟨prepared_view h, h, revision, s⟩

theorem Touched.untouched {k u : Files Text} (h : Touched rev edits k u)
    (hrev : u [scmRevision] = k [scmRevision]) {q : Loc}
    (hq : edits → ¬ (q = driversMakefile ∨ q = mhiPciGeneric ∨ pcieMhiDst <+: q)) :
    u q = k q := by
  by_cases hr : q = [scmRevision]
  · rw [hr, hrev]
  by_cases hm : q = driversMakefile
  · subst hm
    exact h.makefile.resolve_right fun hother => hq hother.1 (.inl rfl)
  by_cases hg : q = mhiPciGeneric
  · subst hg
    exact h.generic.resolve_right fun hother => hq hother.1 (.inr (.inl rfl))
  by_cases hd : pcieMhiDst <+: q
  · exact h.driver (fun he => hq he (.inr (.inr hd))) q hd
  · exact h.elsewhere q hr hm hg hd

theorem sameBut_of_kernel {excepted : Loc → Prop} {s t : Sources} (hview : t.view = s.view)
    (h : ∀ q, ¬ excepted q → t.kernel q = s.kernel q) : SameBut excepted s t := by
  intro p hp
  rw [Sources.visible, Sources.visible, hview, h p hp]

/-- A driver that is integrated anew leaves the same tree behind both. -/
theorem hook_again {s t : Sources} (h : Agree rev edits s t) {source : Files Text}
    (hsource : ValidDriver source) :
    runCommands (preBuildKernel (.found source)) t.kernel =
      runCommands (preBuildKernel (.found source)) s.kernel := by
  have steady := h.kernel.steady h.steady
  rw [preBuildKernel_run h.steady hsource, preBuildKernel_run steady hsource, h.kernel.wired_eq]
  congr 1
  funext n q
  by_cases hg : q = mhiPciGeneric
  · subst hg
    have other : ∀ k, put (integrated source k) driversMakefile n mhiPciGeneric =
        k mhiPciGeneric := fun k =>
      (put_other (by decide)).trans (integrated_elsewhere source k (by decide))
    rw [withDisabled, withDisabled, if_pos rfl, if_pos rfl, other, other]
    exact h.kernel.disabled_eq
  · rw [withDisabled, withDisabled, if_neg hg, if_neg hg]
    by_cases hm : q = driversMakefile
    · rw [hm, put_self, put_self]
    · rw [put_other hm, put_other hm, integrated, integrated]
      by_cases hd : pcieMhiDst <+: q
      · rw [if_pos hd, if_pos hd]
      · rw [if_neg hd, if_neg hd]
        by_cases hr : q = [scmRevision]
        · rw [hr, h.revision]
        · exact h.kernel.elsewhere q hr hm hg hd

theorem hook_agree {a b : Build} {s t : Sources} (h : Agree rev (Edits a) s t) :
    Option.Rel (SameBut (Affected a b)) (run apply ((hook b).map onKernel) s)
      (run apply ((hook b).map onKernel) t) := by
  by_cases hb : Edits b
  · obtain ⟨source, heq, hsource⟩ := hook_edits hb
    rw [heq, run_onKernel, run_onKernel, hook_again h hsource]
    cases runCommands (preBuildKernel (.found source)) s.kernel with
    | none => exact .none
    | some k => exact .some (sameBut_of_kernel h.view fun _ _ => rfl)
  · rcases hook_idle hb with heq | heq
    · rw [heq]
      refine .some (sameBut_of_kernel h.view fun q hq => ?_)
      exact h.kernel.untouched h.revision fun ha hplace => hq ⟨ha, hb, hplace⟩
    · rw [heq]
      exact .none

end Comparing

theorem rel_map {excepted : Loc → Prop} {x y : Option Sources}
    (h : Option.Rel (SameBut excepted) x y) {p : Loc} (hp : ¬ excepted p) :
    x.map (·.visible p) = y.map (·.visible p) := by
  cases h with
  | none => rfl
  | some hst => exact congrArg some (hst p hp)

/-- For every SDK volume, what is visible when `make` runs for `b` does not depend on a build for
`a` before, stopped anywhere. The exceptions are what the hook of `a` edits, if `b` does not edit
it anew. -/
theorem atMake_independent (rev : Text) (a b : Build) (stop : ℕ) (k : KernelTree)
    (oldA oldB oldB' : View) :
    Option.Rel (SameBut (Affected a b)) (atMake rev b ⟨k.tree, oldB⟩)
      (atMake rev b ⟨afterRun rev a stop ⟨k.tree, oldA⟩, oldB'⟩) := by
  have touched := afterRun_touched k rev a stop oldA
  have hv : Direct k.tree [scmVersion] := k.direct (by simp [namedPlaces])
  have hr : Direct k.tree [scmRevision] := k.direct (by simp [namedPlaces])
  exact rel_bind (seedScm_agree k.steady hv hr touched) fun _ _ => hook_agree

/-- A driver package of the expected layout, and a small kernel tree. -/
def exampleDriver : Files Text := ofList
  [([], .dir 0o755), (["Makefile".toList], .file "obj-m += pcie_mhi.o\n".toList 0o644),
   (["core".toList], .dir 0o755), (["controllers".toList], .dir 0o755),
   (["devices".toList], .dir 0o755)]

def exampleKernel : KernelTree where
  tree := ofList
    [([], .dir 0o755), (includeDir, .dir 0o755), (archDir, .dir 0o755), (arm64Dir, .dir 0o755),
     (arm64Include, .dir 0o755), (KernelHook.drivers, .dir 0o755),
     (driversMakefile, .file "obj-y += bus/\n".toList 0o644)]
  wellFormed := ofList_wellFormed (by decide) (by decide)
  drivers := by decide
  plain := by decide

def muse : Build := ⟨.rk3588Muse, .found exampleDriver⟩

def rock5c : Build := ⟨.rk3588sRock5c, .missing⟩

/-- After a build for the board with the hook, another board sees a changed `drivers/Makefile`. -/
theorem atMake_depends : ¬ Option.Rel (SameBut fun _ => False)
    (atMake "unknown".toList rock5c ⟨exampleKernel.tree, safeResetDir⟩)
    (atMake "unknown".toList rock5c
      ⟨afterRun "unknown".toList muse 7 ⟨exampleKernel.tree, safeResetDir⟩, safeResetDir⟩) := by
  intro h
  have makefile := rel_map h (p := driversMakefile) id
  revert makefile
  decide +kernel

end SharedKernel
