import SbcImageBuild.OverlayPath
import SbcImageBuild.Foundation.Placement

/-!
# Independent overlays

Overlays whose destinations are free and apart from one another: what `apply_rootfs_overlay_tree`
makes of them, and that their order does not matter.
-/
namespace OverlayPlacement

open Delimited ShellText OverlayText FileTree FileCommands OverlayTree Reaching Placement

/-- The destination of an entry and what is done there, unless it is left out. -/
def installed (sh : Shell) (e : Entry) : Option (Text × Action) :=
  if e.rel = [] then none
  else match interpolatedPath sh.vars sh.rounds e.rel with
    | .path rel => some (actionOf e rel)
    | _ => none

/-- The node that an action is to leave. -/
def placedNode (sh : Shell) : Action → Node Text
  | .link target => .symlink target
  | .template content mode =>
    .file (expandOverlayTemplateText sh.vars sh.tokenOrder (fileText content))
      (clearOtherWrite mode)
  | .copy _ content mode => .file content (clearOtherWrite mode)

/-- A destination is where the names of its path lead from the root. -/
def placed (sh : Shell) (x : Text × Action) : Placed Text :=
  let ns := names (components x.1)
  ⟨ns.dropLast, ns.getLastD [], placedNode sh x.2⟩

def placements (sh : Shell) (es : List Entry) : List (Placed Text) :=
  (es.filterMap (installed sh)).map (placed sh)

/-- A destination whose path goes down from the root by names, and whose directory is the one that
`dirname` prints. -/
structure Straight (root : Loc) (rel : Text) : Prop where
  descends : ∃ ps b, (components rel).rdropWhile (· = []) = ps ++ [b] ∧ Proper b ∧
    ['.', '.'] ∉ ps
  dirname : commandOutput (join '/' (destination root rel).parents) =
    join '/' (destination root rel).parents

/-- Something can be made there: the path has no slash at its end, and a link has a target. -/
def Fit (x : Text × Action) : Prop :=
  (components x.1).getLast? ≠ some [] ∧ ∀ target, x.2 = .link target → target ≠ []

/-- Destinations apart from one another, with nothing there yet and only directories above. -/
structure Independent (sh : Shell) (root : Loc) (t : RootTree) (es : List Entry) : Prop where
  apart : (placements sh es).Pairwise Apart
  ready : ∀ p ∈ placements sh es, Ready root t p

/-- One overlay after another. -/
def applyBoth (sh : Shell) (root : Loc) (es fs : List Entry) (t : RootTree) : Outcome Text Unit :=
  (applyRootfsOverlayTree sh root es t).andThen fun _ t => applyRootfsOverlayTree sh root fs t

/-- The overlays are applied in either order, with the same tree in the end. -/
structure Commute (sh : Shell) (root : Loc) (t : RootTree) (es fs : List Entry) : Prop where
  first : (applyBoth sh root es fs t).result = some ()
  second : (applyBoth sh root fs es t).result = some ()
  same : (applyBoth sh root es fs t).tree = (applyBoth sh root fs es t).tree

section Destinations

variable {sh : Shell} {root : Loc} {rel : Text} {x : Text × Action}

theorem components_ne_nil (rel : Text) : components rel ≠ [] := List.splitOn_ne_nil '/' rel

theorem components_slash {c : Text} (h : c ∈ components rel) : '/' ∉ c := splitOn_free '/' rel c h

/-- The names below the root, the last of them proper. -/
theorem Straight.names_eq (h : Straight root rel) : ∃ ps b, Proper b ∧ ['.', '.'] ∉ ps ∧
    (components rel).rdropWhile (· = []) = ps ++ [b] ∧
    names (components rel) = names ps ++ [b] := by
  obtain ⟨ps, b, hkept, hb, hup⟩ := h.descends
  have hname : ¬ (b = [] ∨ b = ['.']) := not_or.mpr ⟨hb.1, hb.2.1⟩
  refine ⟨ps, b, hb, hup, hkept, ?_⟩
  rw [← names_rdropWhile, hkept, names_append, names_cons_name hname]
  rfl

theorem placed_eq {ns : List Text} {b : Text} (h : names (components x.1) = ns ++ [b]) :
    placed sh x = ⟨ns, b, placedNode sh x.2⟩ := by
  rw [placed, h]
  simp

theorem destination_slash (root : Loc) (rel : Text) :
    (destination root rel).last.slash = decide ((components rel).getLast? = some []) := by
  rw [destination, List.getLast?_append]
  cases hc : (components rel).getLast? with
  | none => exact absurd (List.getLast?_eq_none_iff.mp hc) (components_ne_nil rel)
  | some c => rfl

theorem destination_straight (s : Staged root) {ps : List Text} {b : Text} (hb : b ≠ [])
    (hkept : (components rel).rdropWhile (· = []) = ps ++ [b]) :
    destination root rel = ⟨root ++ ps.rdropWhile (· = []), b,
      decide ((components rel).getLast? = some [])⟩ := by
  have hmem : b ∈ components rel :=
    (List.rdropWhile_prefix _ _).subset (hkept ▸ List.mem_append_right ps (by simp))
  obtain ⟨ps', b', hkept', hparents, hbase⟩ := destination_below s.names_nonempty ⟨b, hmem, hb⟩
  obtain ⟨rfl, heq⟩ := List.append_inj' (hkept.symm.trans hkept') rfl
  obtain rfl := List.singleton_inj.mp heq
  rw [← destination_slash root rel, ← hparents, ← hbase]

/-- The directory of a straight destination is found once it has been made. -/
theorem install_straight (s : Staged root) (h : Straight root x.1)
    (ready : Ready root s.tree (placed sh x)) :
    let p := placed sh x
    let o := runAction sh (withDirs s.tree root p.parents) (root ++ p.parents)
      ⟨p.name, decide ((components x.1).getLast? = some [])⟩ x.2
    Proper p.name ∧ (install sh s.tree (destination root x.1) x.2).tree = o.tree ∧
      (install sh s.tree (destination root x.1) x.2).result = o.result := by
  obtain ⟨ps, b, hb, hup, hkept, hnames⟩ := h.names_eq
  have hplaced : placed sh x = ⟨names ps, b, placedNode sh x.2⟩ := placed_eq hnames
  have hdest := destination_straight s hb.1 hkept
  have hline := h.dirname
  rw [hdest] at hline ⊢
  rw [hplaced] at ready ⊢
  have hsub : ps.rdropWhile (· = []) ⊆ ps := (List.rdropWhile_prefix _ ps).subset
  have hslash : ∀ c ∈ ps.rdropWhile (· = []), '/' ∉ c := by
    intro c hc
    have hmem : c ∈ ps ++ [b] := List.mem_append_left _ (hsub hc)
    exact components_slash ((List.rdropWhile_prefix _ _).subset (hkept ▸ hmem))
  have hpass : Passable s.tree root (names (ps.rdropWhile (· = []))) := by
    rw [names_rdropWhile]
    exact ready.pass
  have made := install_made s sh (fun hmem => hup (hsub hmem)) hslash hpass hline
    ⟨b, decide ((components x.1).getLast? = some [])⟩ x.2
  rw [names_rdropWhile] at made
  exact ⟨hb, made.2.2⟩

end Destinations

section Acting

variable {sh : Shell} {u : RootTree} {d : Loc} {b : Text} {a : Action}

/-- At a free place every command makes what it is to make. -/
theorem runAction_free (sh : Shell) (hb : Proper b) (hfree : u (d ++ [b]) = none)
    (hoperand : a.Operand) (htarget : ∀ target, a = .link target → target ≠ []) :
    (runAction sh u d ⟨b, false⟩ a).Yields (put u (d ++ [b]) (placedNode sh a)) () := by
  have plain : (⟨b, false⟩ : Last).Plain := ⟨rfl, hb⟩
  have hdir : isDir u (d ++ [b]) = false := by simp [isDir, hfree]
  have hlink : isSymlink u (d ++ [b]) = false := by simp [isSymlink, hfree]
  have hchmod : ∀ content mode f,
      (chmod (put u (d ++ [b]) (.file content mode)) d ⟨b, false⟩ f).Yields
        (put u (d ++ [b]) (.file content (f mode))) () := by
    intro content mode f
    rw [chmod_file plain (put_self _ _ _)]
    exact .write put_put
  cases a with
  | link target =>
    have hself : ¬ NamesFile u sh.workDir target (d ++ [b]) := by
      rintro ⟨hfile, -⟩
      simp [isFile, hfree] at hfile
    rw [runAction, lnSfn_direct plain hoperand (htarget target rfl) hdir hself]
    exact .write rfl
  | template content mode =>
    rw [runAction, redirect_direct _ plain hlink, hfree]
    apply Outcome.Yields.andThen (.write rfl)
    apply Outcome.Yields.andThen (hchmod _ _ _)
    exact ⟨(hchmod _ _ clearOtherWrite).1, rfl⟩
  | copy name content mode =>
    rw [runAction, cpA_direct plain ⟨hdir, hlink⟩]
    apply Outcome.Yields.andThen (.write rfl)
    exact ⟨(hchmod _ _ clearOtherWrite).1, rfl⟩

/-- No command makes anything at a missing path with a slash behind it. -/
theorem runAction_slash (hb : Proper b) (hfree : u (d ++ [b]) = none) (hoperand : a.Operand) :
    (runAction sh u d ⟨b, true⟩ a).result = none := by
  have hpath : resolve u d (⟨b, true⟩ : Last).path = .failed := by
    obtain ⟨follow, heq⟩ := walk_eq u maxLinks
    obtain ⟨hne, hdot, hdotdot, -⟩ := hb
    rw [resolve, heq, Last.path]
    simp [walkWith, hne, hdot, hdotdot, hfree]
  cases a with
  | link target =>
    have hoption : ¬ IsOption target := hoperand
    simp [runAction, lnSfn, hoption, linkPlace, linkDir, hpath, Last.Plain, fail]
  | template content mode => simp [runAction, redirect, redirectPlace, hpath, fail, Outcome.andThen]
  | copy name content mode =>
    simp [runAction, cpA, copyPlace, overwritePlace, hpath, fail, Outcome.andThen]

theorem runAction_untargeted (hb : Proper b) (hfree : u (d ++ [b]) = none) :
    (runAction sh u d ⟨b, false⟩ (.link [])).result = none := by
  have hdir : isDir u (d ++ [b]) = false := by simp [isDir, hfree]
  rw [runAction, lnSfn_untargeted ⟨rfl, hb⟩ hdir]
  rfl

end Acting

section Installing

variable {sh : Shell} {root : Loc} {x : Text × Action} {xs : List (Text × Action)}

theorem ready_free {t : RootTree} {p : Placed Text} (ready : Ready root t p) :
    withDirs t root p.parents (root ++ p.parents ++ [p.name]) = none := by
  rw [List.append_assoc]
  exact withDirs_path.trans ready.free

theorem install_fit (s : Staged root) (h : Straight root x.1)
    (ready : Ready root s.tree (placed sh x)) (hoperand : x.2.Operand) (fit : Fit x) :
    (install sh s.tree (destination root x.1) x.2).Yields
      (place root s.tree (placed sh x)) () := by
  obtain ⟨hname, htree, hresult⟩ := install_straight s h ready
  rw [decide_eq_false fit.1] at htree hresult
  obtain ⟨hput, hdone⟩ := runAction_free sh hname (ready_free ready) hoperand fit.2
  refine ⟨?_, hresult.trans hdone⟩
  rw [htree, hput, place, Placed.path, List.append_assoc]
  rfl

theorem install_unfit (s : Staged root) (h : Straight root x.1)
    (ready : Ready root s.tree (placed sh x)) (hoperand : x.2.Operand) (unfit : ¬ Fit x) :
    (install sh s.tree (destination root x.1) x.2).result = none := by
  obtain ⟨hname, -, hresult⟩ := install_straight s h ready
  rw [hresult]
  by_cases hslash : (components x.1).getLast? = some []
  · rw [decide_eq_true hslash]
    exact runAction_slash hname (ready_free ready) hoperand
  · have hempty : x.2 = .link [] := by
      by_contra hne
      exact unfit ⟨hslash, fun target heq hnil => hne (hnil ▸ heq)⟩
    rw [decide_eq_false hslash, hempty]
    exact runAction_untargeted hname (ready_free ready)

/-- The loop over what is installed. -/
def installAll (sh : Shell) (root : Loc) : List (Text × Action) → RootTree → Outcome Text Unit
  | [], t => done t ()
  | x :: xs, t => (install sh t (destination root x.1) x.2).andThen fun _ t =>
      installAll sh root xs t

theorem applyRootfsOverlayTree_installed {es : List Entry}
    (hends : ∀ e ∈ es, interpolatedPath sh.vars sh.rounds e.rel ≠ .endless) (t : RootTree) :
    applyRootfsOverlayTree sh root es t = installAll sh root (es.filterMap (installed sh)) t := by
  induction es generalizing t with
  | nil => rfl
  | cons e es ih =>
    have hrest := ih fun f hf => hends f (List.mem_cons_of_mem e hf)
    rw [applyRootfsOverlayTree, applyEntry]
    by_cases hrel : e.rel = []
    · have hnone : installed sh e = none := if_pos hrel
      rw [if_pos hrel, List.filterMap_cons_none hnone, done_andThen, hrest]
    · rw [if_neg hrel]
      cases hp : interpolatedPath sh.vars sh.rounds e.rel with
      | skipped =>
        have hnone : installed sh e = none := by rw [installed, if_neg hrel, hp]
        rw [List.filterMap_cons_none hnone, done_andThen, hrest]
      | endless => exact absurd hp (hends e List.mem_cons_self)
      | path rel =>
        have hsome : installed sh e = some (actionOf e rel) := by rw [installed, if_neg hrel, hp]
        rw [List.filterMap_cons_some hsome, installAll]
        simp only [hrest]

/-- Apart from one another, the destinations are still ready when their turn comes. Each gets its
node, unless one is unfit; that one ends the loop. -/
theorem installAll_places (s : Staged root) (hstraight : ∀ x ∈ xs, Straight root x.1)
    (hoperand : ∀ x ∈ xs, x.2.Operand)
    (hapart : (xs.map (placed sh)).Pairwise Apart)
    (hready : ∀ p ∈ xs.map (placed sh), Ready root s.tree p) :
    ((∀ x ∈ xs, Fit x) →
      (installAll sh root xs s.tree).Yields (placeAll root s.tree (xs.map (placed sh))) ()) ∧
    ((installAll sh root xs s.tree).result = some () → ∀ x ∈ xs, Fit x) := by
  induction xs generalizing s with
  | nil => exact ⟨fun _ => .done, fun _ => by simp⟩
  | cons x xs ih =>
    rw [List.map_cons] at hapart hready
    obtain ⟨hx, hxs⟩ := List.pairwise_cons.mp hapart
    have ready := hready _ List.mem_cons_self
    have straight := hstraight x List.mem_cons_self
    have operand := hoperand x List.mem_cons_self
    have evolves := (install_sound sh s.wellFormed (destination root x.1) x.2).evolves
    by_cases fit : Fit x
    · have yields := install_fit s straight ready operand fit
      have htree := yields.1
      rw [htree] at evolves
      obtain ⟨hrest, hconverse⟩ := ih (s.after evolves)
        (fun y hy => hstraight y (List.mem_cons_of_mem x hy))
        (fun y hy => hoperand y (List.mem_cons_of_mem x hy)) hxs
        (fun p hp => (hready p (List.mem_cons_of_mem _ hp)).place (hx p hp))
      refine ⟨fun hfit => ?_, fun hresult => ?_⟩
      · apply yields.andThen
        exact hrest fun y hy => hfit y (List.mem_cons_of_mem x hy)
      · obtain ⟨_, -, hresult⟩ := andThen_result.mp hresult
        rw [htree] at hresult
        exact List.forall_mem_cons.mpr ⟨fit, hconverse hresult⟩
    · have hnone := install_unfit s straight ready operand fit
      refine ⟨fun hfit => absurd (hfit x List.mem_cons_self) fit, fun hresult => ?_⟩
      obtain ⟨_, hsome, -⟩ := andThen_result.mp hresult
      rw [hnone] at hsome
      cases hsome

end Installing

section Commuting

variable {sh : Shell} {root : Loc} {es fs : List Entry}

theorem Independent.perm {t : RootTree} (h : Independent sh root t es) (hperm : es.Perm fs) :
    Independent sh root t fs := by
  have hplacements : (placements sh es).Perm (placements sh fs) :=
    (hperm.filterMap (installed sh)).map (placed sh)
  refine ⟨hplacements.pairwise h.apart (fun hpq => hpq.symm), fun p hp => ?_⟩
  exact h.ready p (hplacements.mem_iff.mpr hp)

/-- Values without percent signs let every path be decided. -/
theorem not_endless (hplain : OverlayPath.Plain sh.vars) {rel : Text}
    (hrounds : rel.count '%' < sh.rounds) :
    interpolatedPath sh.vars sh.rounds rel ≠ .endless := by
  obtain ⟨out, hout⟩ := OverlayPath.interpolateVars_plain hplain hrounds
  intro hendless
  rw [interpolatedPath, hout] at hendless
  split at hendless
  · dsimp only at hendless
    split at hendless <;> cases hendless
  · cases hendless

/-- An overlay with independent destinations puts everything in its place if everything is fit, and
otherwise fails. -/
theorem applyRootfsOverlayTree_independent (s : Staged root)
    (hends : ∀ e ∈ es, interpolatedPath sh.vars sh.rounds e.rel ≠ .endless)
    (hind : Independent sh root s.tree es)
    (hstraight : ∀ x ∈ es.filterMap (installed sh), Straight root x.1)
    (hoperand : ∀ x ∈ es.filterMap (installed sh), x.2.Operand) :
    ((∀ x ∈ es.filterMap (installed sh), Fit x) → (applyRootfsOverlayTree sh root es s.tree).Yields
        (placeAll root s.tree (placements sh es)) ()) ∧
    ((applyRootfsOverlayTree sh root es s.tree).result = some () →
      ∀ x ∈ es.filterMap (installed sh), Fit x) := by
  rw [applyRootfsOverlayTree_installed hends]
  exact installAll_places s hstraight hoperand hind.apart hind.ready

/-- Independent overlays whose link targets are not taken for options commute exactly if all that
they install is fit for its destination. -/
theorem independent_overlays_commute_iff (s : Staged root) (hplain : OverlayPath.Plain sh.vars)
    (hrounds : ∀ e ∈ es ++ fs, e.rel.count '%' < sh.rounds)
    (hind : Independent sh root s.tree (es ++ fs))
    (hstraight : ∀ x ∈ (es ++ fs).filterMap (installed sh), Straight root x.1)
    (hoperand : ∀ x ∈ (es ++ fs).filterMap (installed sh), x.2.Operand) :
    Commute sh root s.tree es fs ↔ ∀ x ∈ (es ++ fs).filterMap (installed sh), Fit x := by
  have hswap : (es ++ fs).Perm (fs ++ es) := List.perm_append_comm
  have hboth : ∀ es fs, applyBoth sh root es fs s.tree =
      applyRootfsOverlayTree sh root (es ++ fs) s.tree := fun es fs =>
    (applyRootfsOverlayTree_append sh root es fs s.tree).symm
  have hends : ∀ e ∈ es ++ fs, interpolatedPath sh.vars sh.rounds e.rel ≠ .endless :=
    fun e he => not_endless hplain (hrounds e he)
  have hmem : ∀ {x}, x ∈ (fs ++ es).filterMap (installed sh) →
      x ∈ (es ++ fs).filterMap (installed sh) :=
    (hswap.filterMap (installed sh)).mem_iff.mpr
  obtain ⟨hplaces, hfit⟩ := applyRootfsOverlayTree_independent s hends hind hstraight hoperand
  obtain ⟨hplaces', -⟩ := applyRootfsOverlayTree_independent s
    (fun e he => hends e (hswap.mem_iff.mpr he)) (hind.perm hswap)
    (fun x hx => hstraight x (hmem hx)) (fun x hx => hoperand x (hmem hx))
  constructor
  · intro hcommute
    have hfirst := hcommute.first
    rw [hboth] at hfirst
    exact hfit hfirst
  · intro fit
    obtain ⟨htree, hresult⟩ := hplaces fit
    obtain ⟨htree', hresult'⟩ := hplaces' fun x hx => fit x (hmem hx)
    refine ⟨by rw [hboth, hresult], by rw [hboth, hresult'], ?_⟩
    rw [hboth, hboth, htree, htree']
    apply placeAll_perm hind.apart
    exact (hswap.filterMap (installed sh)).map (placed sh)

/-- In an empty root everything is ready. -/
theorem ready_empty (s : Staged root) (hempty : ∀ l, root <+: l → l ≠ root → s.tree l = none)
    (p : Placed Text) : Ready root s.tree p where
  pass := by
    intro r _
    rcases eq_or_ne r [] with rfl | hr
    · rw [List.append_nil]
      exact .inr s.dir
    · exact .inl (hempty _ (List.prefix_append root r) (by simpa using hr))
  free := hempty _ (List.prefix_append root p.path) (by simp [Placed.path])

/-- A root with nothing in it yet. -/
def emptyNodes : List (Loc × Node Text) :=
  [([], .dir 0o755), (["build".toList], .dir 0o755), (exampleRoot, .dir 0o755)]

def emptyStaged : Staged exampleRoot :=
  { tree := ofList emptyNodes
    wellFormed := ofList_wellFormed (by decide) (by decide)
    below := exampleRoot_below
    names := exampleRoot_names
    dir := by decide }

theorem emptyStaged_empty (l : Loc) (hl : exampleRoot <+: l) (hne : l ≠ exampleRoot) :
    emptyStaged.tree l = none := by
  have hnodes : ∀ l ∈ emptyNodes.map Prod.fst, exampleRoot <+: l → l = exampleRoot := by decide
  by_contra hexists
  exact hne (hnodes l (ofList_exists_iff.mp hexists) hl)

theorem exampleShell_plain : OverlayPath.Plain exampleShell.vars := fun _ => by
  simp [exampleShell]

/-- Two overlays, each with one file for `/etc`. -/
def motdOverlay : List Entry := [⟨"etc/motd".toList, .file "hello\n".toList 0o644⟩]

def hostnameOverlay : List Entry := [⟨"etc/hostname.in".toList, .file "@BOARD@".toList 0o644⟩]

theorem straight_etc {rel b : Text} (hb : Proper b)
    (hrel : components rel = ["etc".toList, b])
    (hline : commandOutput (join '/' (destination exampleRoot rel).parents) =
      join '/' (destination exampleRoot rel).parents) : Straight exampleRoot rel where
  descends := by
    refine ⟨["etc".toList], b, ?_, hb, by decide⟩
    rw [hrel]
    exact List.rdropWhile_concat_neg _ ["etc".toList] b (by simpa using hb.1)
  dirname := hline

theorem independent_overlays_commute_etc :
    Commute exampleShell exampleRoot emptyStaged.tree motdOverlay hostnameOverlay := by
  have hinstalled : (motdOverlay ++ hostnameOverlay).filterMap (installed exampleShell) =
      [("etc/motd".toList, .copy "motd".toList "hello\n".toList 0o644),
       ("etc/hostname".toList, .template "@BOARD@".toList 0o644)] := by
    decide +kernel
  have hind : Independent exampleShell exampleRoot emptyStaged.tree
      (motdOverlay ++ hostnameOverlay) := by
    refine ⟨?_, fun p _ => ready_empty emptyStaged emptyStaged_empty p⟩
    rw [placements, hinstalled]
    unfold Apart
    decide +kernel
  refine (independent_overlays_commute_iff emptyStaged exampleShell_plain (by decide) hind
    ?_ ?_).mpr ?_
  all_goals rw [hinstalled, List.forall_mem_cons, List.forall_mem_singleton]
  · exact ⟨straight_etc (b := "motd".toList) (by decide) (by decide) (by decide),
      straight_etc (b := "hostname".toList) (by decide) (by decide) (by decide)⟩
  · exact ⟨trivial, trivial⟩
  · exact ⟨⟨by decide, fun target h => by cases h⟩, ⟨by decide, fun target h => by cases h⟩⟩

/-- A directory whose name ends in a newline. -/
def newlineOverlay : List Entry := [⟨"new\n/motd".toList, .file "hello\n".toList 0o644⟩]

/-- `dirname` prints another directory, and the one that `cp` needs is not made. -/
theorem newline_overlay_fails :
    OverlayPath.Plain exampleShell.vars ∧
    Independent exampleShell exampleRoot emptyStaged.tree (newlineOverlay ++ hostnameOverlay) ∧
    ¬ Commute exampleShell exampleRoot emptyStaged.tree newlineOverlay hostnameOverlay := by
  have hapart : (placements exampleShell (newlineOverlay ++ hostnameOverlay)).Pairwise Apart := by
    unfold Apart
    decide +kernel
  refine ⟨exampleShell_plain, ⟨hapart, fun p _ => ready_empty emptyStaged emptyStaged_empty p⟩,
    fun hcommute => ?_⟩
  have hnone : (applyBoth exampleShell exampleRoot newlineOverlay hostnameOverlay
      emptyStaged.tree).result = none := by
    decide +kernel
  rw [hcommute.first] at hnone
  cases hnone

end Commuting

end OverlayPlacement
