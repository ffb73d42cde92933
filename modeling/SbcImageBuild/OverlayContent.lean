import SbcImageBuild.OverlayPlacement

/-!
# Literal content of overlays

What becomes of the bytes of files, templates and link targets on their way into the root. Files are
copied; the text of a template and the target of a link pass through a command substitution.
-/
namespace OverlayContent

open ShellText OverlayText FileTree FileCommands OverlayTree Reaching Placement OverlayPlacement

/-- The text has no placeholder of a template. -/
def TokenFree (content : Text) : Prop :=
  ∀ name ∈ tokenNames, ¬ '@' :: name ++ ['@'] <:+: content

instance : DecidablePred TokenFree := fun content =>
  inferInstanceAs (Decidable (∀ name ∈ tokenNames, ¬ '@' :: name ++ ['@'] <:+: content))

/-- The destination has what the overlay has; a template only if there is nothing to expand. -/
def Preserved (after : RootTree) (l : Loc) (rel : Text) : Source → Prop
  | .symlink target => after l = some (.symlink target)
  | .file content _ =>
    (".in".toList <:+ rel → TokenFree content) → ∃ mode, after l = some (.file content mode)

/-- The overlay is applied, and everything it installs is found as it was. -/
structure ContentLaw (sh : Shell) (root : Loc) (t : RootTree) (es : List Entry) : Prop where
  applied : (applyRootfsOverlayTree sh root es t).result = some ()
  preserved : ∀ e ∈ es, e.rel ≠ [] → ∀ rel, interpolatedPath sh.vars sh.rounds e.rel = .path rel →
    Preserved (applyRootfsOverlayTree sh root es t).tree
      (root ++ names (components (actionOf e rel).1)) rel e.source

/-- What a command substitution leaves as it is. -/
def Carried (content : Text) : Prop := '\x00' ∉ content ∧ content.getLast? ≠ some '\n'

def Carries (rel : Text) : Source → Prop
  | .symlink target => target.getLast? ≠ some '\n'
  | .file content _ => ".in".toList <:+ rel → TokenFree content → Carried content

section Expanding

variable {vars : Variables} {order : TokenOrder} {content : Text}

theorem replaceAll_untouched {pattern text : Text} (h : ¬ pattern <:+: text) (value : Text) :
    replaceAll pattern value text = text := by
  have hcopy : replaceFrom pattern (replacement pattern value) 0 (text ++ []) = text ++ [] := by
    apply replaceFrom_copy
    intro x y hxy _ hpre
    rw [List.append_nil] at hpre
    exact h (hpre.isInfix.trans (hxy ▸ (List.suffix_append x y).isInfix))
  simpa [replaceAll] using hcopy

theorem expand_tokenFree (h : TokenFree content) :
    expandOverlayTemplateText vars order content = content := by
  have hnames : ∀ name ∈ order.names, name ∈ tokenNames := fun name hname =>
    order.perm.mem_iff.mp hname
  rw [expandOverlayTemplateText]
  generalize order.names = names at hnames ⊢
  induction names with
  | nil => rfl
  | cons name names ih =>
    rw [List.foldl_cons, replaceAll_untouched (h name (hnames name List.mem_cons_self))]
    exact ih fun other hother => hnames other (List.mem_cons_of_mem name hother)

theorem mem_replaceFrom {pattern rep text : Text} {skip : ℕ} {c : Char}
    (h : c ∈ replaceFrom pattern rep skip text) : c ∈ text ∨ c ∈ rep := by
  fun_induction replaceFrom pattern rep skip text with
  | case1 => cases h
  | case2 skip d t ih => exact (ih h).imp_left (List.mem_cons_of_mem d)
  | case3 d t hmatch ih =>
    rcases List.mem_append.mp h with hrep | hrest
    · exact .inr hrep
    · exact (ih hrest).imp_left (List.mem_cons_of_mem d)
  | case4 d t hmatch ih =>
    rcases List.mem_cons.mp h with rfl | hrest
    · exact .inl List.mem_cons_self
    · exact (ih hrest).imp_left (List.mem_cons_of_mem d)

theorem mem_replaceAll {pattern value text : Text} {c : Char}
    (h : c ∈ replaceAll pattern value text) : c ∈ text ∨ c ∈ pattern ∨ c ∈ value := by
  rcases mem_replaceFrom h with htext | hrep
  · exact .inl htext
  · exact .inr (mem_replacement hrep)

theorem nul_not_mem_tokenValue (hnul : ∀ name, '\x00' ∉ vars name) (name : Text) :
    '\x00' ∉ tokenValue vars name := by
  have hdefault : ∀ value default : Text, '\x00' ∉ value → '\x00' ∉ default →
      '\x00' ∉ orDefault value default := by
    intro value default hvalue hdef
    unfold orDefault
    split
    · exact hdef
    · exact hvalue
  unfold tokenValue
  split
  · exact hdefault _ _ (hnul _) (hdefault _ _ (hnul _) (by decide))
  · split
    · exact hdefault _ _ (hnul _) (by decide)
    · exact hnul _

/-- No value brings a null character into a text. -/
theorem nul_not_mem_expand (hnul : ∀ name, '\x00' ∉ vars name) (h : '\x00' ∉ content) :
    '\x00' ∉ expandOverlayTemplateText vars order content := by
  have hnames : ∀ name ∈ order.names, name ∈ tokenNames := fun name hname =>
    order.perm.mem_iff.mp hname
  have htokens : ∀ name ∈ tokenNames, '\x00' ∉ '@' :: name ++ ['@'] := by decide
  rw [expandOverlayTemplateText]
  generalize order.names = names at hnames ⊢
  induction names generalizing content with
  | nil => exact h
  | cons name names ih =>
    rw [List.foldl_cons]
    apply ih _ fun other hother => hnames other (List.mem_cons_of_mem name hother)
    intro hmem
    rcases mem_replaceAll hmem with htext | hpattern | hvalue
    · exact h htext
    · exact htokens name (hnames name List.mem_cons_self) hpattern
    · exact nul_not_mem_tokenValue hnul name hvalue

theorem filter_nul (h : '\x00' ∉ content) : content.filter (· ≠ '\x00') = content := by
  rw [List.filter_eq_self]
  intro c hc
  exact decide_eq_true fun heq => h (heq ▸ hc)

/-- A template without placeholders comes out as it is exactly if it gets through the command
substitution. -/
theorem expand_eq_self_iff (hnul : ∀ name, '\x00' ∉ vars name) (htoken : TokenFree content) :
    expandOverlayTemplateText vars order (fileText content) = content ↔ Carried content := by
  constructor
  · intro heq
    have hkept : '\x00' ∉ fileText content := by
      intro hmem
      have hfilter := (List.rdropWhile_prefix _ _).subset hmem
      simp at hfilter
    have hquiet : '\x00' ∉ content := heq ▸ nul_not_mem_expand hnul hkept
    refine ⟨hquiet, ?_⟩
    have htext : fileText content = commandOutput content := by rw [fileText, filter_nul hquiet]
    have hfree : TokenFree (commandOutput content) := fun name hname hpart =>
      htoken name hname (hpart.trans (List.rdropWhile_prefix _ content).isInfix)
    rw [htext, expand_tokenFree hfree] at heq
    exact OverlayPath.commandOutput_eq_self.mp heq
  · rintro ⟨hquiet, hlast⟩
    rw [fileText, filter_nul hquiet, OverlayPath.commandOutput_eq_self.mpr hlast,
      expand_tokenFree htoken]

end Expanding

section Installing

variable {sh : Shell} {root : Loc} {es : List Entry}

/-- Where the node of an entry is in place, the entry is preserved exactly if nothing is lost on
the way. -/
theorem preserved_iff (hnul : ∀ name, '\x00' ∉ sh.vars name) {e : Entry} {rel : Text}
    {after : RootTree} {l : Loc} (hafter : after l = some (placedNode sh (actionOf e rel).2)) :
    Preserved after l rel e.source ↔ Carries rel e.source := by
  rw [actionOf] at hafter
  cases hs : e.source with
  | symlink target =>
    rw [hs] at hafter
    simp only [Preserved, Carries, hafter, placedNode, Option.some.injEq, Node.symlink.injEq]
    exact OverlayPath.commandOutput_eq_self
  | file content mode =>
    rw [hs] at hafter
    dsimp only at hafter
    by_cases hin : ".in".toList <:+ rel
    · rw [if_pos hin] at hafter
      simp only [Preserved, Carries, hin, hafter, placedNode, Option.some.injEq, Node.file.injEq,
        true_imp_iff, exists_and_left, exists_eq', and_true]
      exact forall_congr' fun htoken => expand_eq_self_iff hnul htoken
    · rw [if_neg hin] at hafter
      exact iff_of_true (fun _ => ⟨_, hafter⟩) fun h => absurd h hin

theorem placed_path (sh : Shell) {x : Text × Action} (h : Straight root x.1) :
    (placed sh x).path = names (components x.1) := by
  obtain ⟨ps, b, -, -, -, hnames⟩ := h.names_eq
  rw [placed_eq hnames, hnames]
  rfl

theorem mem_installed {x : Text × Action} : x ∈ es.filterMap (installed sh) ↔
    ∃ e ∈ es, e.rel ≠ [] ∧ ∃ rel, interpolatedPath sh.vars sh.rounds e.rel = .path rel ∧
      actionOf e rel = x := by
  rw [List.mem_filterMap]
  refine exists_congr fun e => and_congr_right fun _ => ?_
  rw [installed]
  by_cases hrel : e.rel = []
  · simp [hrel]
  · cases interpolatedPath sh.vars sh.rounds e.rel <;> simp [hrel]

/-- In an empty root an overlay with destinations apart, and without link targets that are taken for
options, keeps its content exactly if each destination is fit and nothing is lost in a command
substitution. -/
theorem literal_content_iff (s : Staged root)
    (hempty : ∀ l, root <+: l → l ≠ root → s.tree l = none)
    (hends : ∀ e ∈ es, interpolatedPath sh.vars sh.rounds e.rel ≠ .endless)
    (hapart : (placements sh es).Pairwise Apart)
    (hstraight : ∀ x ∈ es.filterMap (installed sh), Straight root x.1)
    (hoperand : ∀ x ∈ es.filterMap (installed sh), x.2.Operand)
    (hnul : ∀ name, '\x00' ∉ sh.vars name) :
    ContentLaw sh root s.tree es ↔ ∀ e ∈ es, e.rel ≠ [] → ∀ rel,
      interpolatedPath sh.vars sh.rounds e.rel = .path rel →
        Fit (actionOf e rel) ∧ Carries rel e.source := by
  have hind : Independent sh root s.tree es := ⟨hapart, fun p _ => ready_empty s hempty p⟩
  obtain ⟨hplaces, hfit⟩ := applyRootfsOverlayTree_independent s hends hind hstraight hoperand
  -- Once the overlay is applied, each node is in place.
  have hnode : (∀ x ∈ es.filterMap (installed sh), Fit x) → ∀ e ∈ es, e.rel ≠ [] → ∀ rel,
      interpolatedPath sh.vars sh.rounds e.rel = .path rel →
      (applyRootfsOverlayTree sh root es s.tree).tree
        (root ++ names (components (actionOf e rel).1)) =
          some (placedNode sh (actionOf e rel).2) := by
    intro fit e he hne rel hrel
    have hmem := mem_installed.mpr ⟨e, he, hne, rel, hrel, rfl⟩
    rw [(hplaces fit).1, ← placed_path sh (hstraight _ hmem)]
    exact placeAll_mem hapart (List.mem_map_of_mem hmem) s.tree
  constructor
  · intro hlaw e he hne rel hrel
    have fit := hfit hlaw.applied
    have hmem := mem_installed.mpr ⟨e, he, hne, rel, hrel, rfl⟩
    refine ⟨fit _ hmem, ?_⟩
    exact (preserved_iff hnul (hnode fit e he hne rel hrel)).mp (hlaw.preserved e he hne rel hrel)
  · intro h
    have fit : ∀ x ∈ es.filterMap (installed sh), Fit x := by
      intro x hx
      obtain ⟨e, he, hne, rel, hrel, rfl⟩ := mem_installed.mp hx
      exact (h e he hne rel hrel).1
    refine ⟨(hplaces fit).2, fun e he hne rel hrel => ?_⟩
    exact (preserved_iff hnul (hnode fit e he hne rel hrel)).mpr (h e he hne rel hrel).2

/-- A file, a link and a template without placeholders. -/
def etcOverlay : List Entry :=
  [⟨"etc/issue.in".toList, .file "Debian".toList 0o644⟩,
   ⟨"etc/localtime".toList, .symlink "/usr/share/zoneinfo/UTC".toList⟩,
   ⟨"etc/motd".toList, .file "hello\n".toList 0o644⟩]

theorem etcOverlay_installed : etcOverlay.filterMap (installed exampleShell) =
    [("etc/issue".toList, .template "Debian".toList 0o644),
     ("etc/localtime".toList, .link "/usr/share/zoneinfo/UTC".toList),
     ("etc/motd".toList, .copy "motd".toList "hello\n".toList 0o644)] := by
  decide +kernel

theorem literal_content_etc :
    ContentLaw exampleShell exampleRoot emptyStaged.tree etcOverlay := by
  refine (literal_content_iff emptyStaged emptyStaged_empty ?_ ?_ ?_ ?_ ?_).mpr ?_
  · decide +kernel
  · rw [placements, etcOverlay_installed]
    unfold Apart
    decide +kernel
  · rw [etcOverlay_installed, List.forall_mem_cons, List.forall_mem_cons,
      List.forall_mem_singleton]
    exact ⟨straight_etc (b := "issue".toList) (by decide) (by decide) (by decide),
      straight_etc (b := "localtime".toList) (by decide) (by decide) (by decide),
      straight_etc (b := "motd".toList) (by decide) (by decide) (by decide)⟩
  · rw [etcOverlay_installed, List.forall_mem_cons, List.forall_mem_cons,
      List.forall_mem_singleton]
    exact ⟨trivial, by unfold Action.Operand; decide, trivial⟩
  · intro name hmem
    cases hmem
  · intro e he hne rel hrel
    have hfit : ∀ x ∈ etcOverlay.filterMap (installed exampleShell), Fit x := by
      rw [etcOverlay_installed, List.forall_mem_cons, List.forall_mem_cons,
        List.forall_mem_singleton]
      refine ⟨⟨by decide, fun _ h => by cases h⟩, ⟨by decide, ?_⟩, by decide, fun _ h => by cases h⟩
      rintro _ ⟨⟩
      decide
    refine ⟨hfit _ (mem_installed.mpr ⟨e, he, hne, rel, hrel, rfl⟩), ?_⟩
    have hplain : ∀ e ∈ etcOverlay, hasPlaceholder e.rel = false := by decide +kernel
    obtain rfl := PathResult.path.inj ((interpolatedPath_plain (hplain e he)).symm.trans hrel)
    simp only [etcOverlay, List.mem_cons, List.not_mem_nil, or_false] at he
    rcases he with rfl | rfl | rfl
    · exact fun _ _ => ⟨by decide, by decide⟩
    · exact show "/usr/share/zoneinfo/UTC".toList.getLast? ≠ some '\n' by decide
    · exact fun hin => absurd hin (by decide)

/-- A template without placeholders, as an editor leaves it. -/
def issueOverlay : List Entry := [⟨"etc/issue.in".toList, .file "Debian\n".toList 0o644⟩]

/-- It loses its last newline. -/
theorem template_newline_lost :
    ¬ ContentLaw exampleShell exampleRoot emptyStaged.tree issueOverlay := by
  intro hlaw
  have hrel : interpolatedPath exampleShell.vars exampleShell.rounds "etc/issue.in".toList =
      .path "etc/issue.in".toList := by decide
  have hafter : (applyRootfsOverlayTree exampleShell exampleRoot issueOverlay
      emptyStaged.tree).tree (exampleRoot ++ ["etc".toList, "issue".toList]) =
      some (.file "Debian".toList 0o644) := by decide +kernel
  have hfree : TokenFree "Debian\n".toList := by decide +kernel
  obtain ⟨mode, hmode⟩ := hlaw.preserved _ List.mem_cons_self (by decide) _ hrel fun _ => hfree
  have hplace : exampleRoot ++ names (components (actionOf
      ⟨"etc/issue.in".toList, .file "Debian\n".toList 0o644⟩ "etc/issue.in".toList).1) =
      exampleRoot ++ ["etc".toList, "issue".toList] := by decide +kernel
  rw [hplace, hafter] at hmode
  cases hmode

end Installing

end OverlayContent
