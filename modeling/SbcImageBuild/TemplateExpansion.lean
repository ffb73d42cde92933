import SbcImageBuild.DebianSelection
import SbcImageBuild.BoardProfile
import SbcImageBuild.OverlayText
import Mathlib.Data.List.Chain

/-!
# Template expansion

`expand_overlay_template_text` makes nine substitutions one after another. Its purpose is a single
one: every placeholder of the template is replaced by the value of its variable.
-/
namespace TemplateExpansion

open ShellText OverlayText

def placeholder (name : Text) : Text := '@' :: name ++ ['@']

/-- One round of the loop. From bash 5.2 on, `&` and backslashes have a meaning in the
replacement. -/
def pass (patsub : Bool) (vars : Variables) (text name : Text) : Text :=
  let value := tokenValue vars name
  replaceFrom (placeholder name)
    (if patsub then replacement (placeholder name) value else value) 0 text

def expand (patsub : Bool) (vars : Variables) (order : TokenOrder) (content : Text) : Text :=
  order.names.foldl (pass patsub vars) content

theorem expand_patsub (vars : Variables) (order : TokenOrder) (content : Text) :
    expand true vars order content = expandOverlayTemplateText vars order content := rfl

/-- What a scan of a template finds. -/
inductive Piece where
  | char (c : Char)
  | slot (name : Text)
  deriving DecidableEq

def slotAt (t : Text) : Option Text := tokenNames.find? fun name => placeholder name <+: t

/-- The scan from left to right, leaving out the first `skip` characters. -/
def scanFrom : ℕ → Text → List Piece
  | _, [] => []
  | skip + 1, _ :: t => scanFrom skip t
  | 0, c :: t =>
    match slotAt (c :: t) with
    | some name => .slot name :: scanFrom (name.length + 1) t
    | none => .char c :: scanFrom 0 t

def scan (content : Text) : List Piece := scanFrom 0 content

/-- A placeholder without a value stays as it is written. -/
def Piece.fill (values : Text → Option Text) : Piece → Text
  | .char c => [c]
  | .slot name => (values name).getD (placeholder name)

def render (values : Text → Option Text) (pieces : List Piece) : Text :=
  pieces.flatMap (Piece.fill values)

/-- The simultaneous expansion. -/
def expandOnce (vars : Variables) (content : Text) : Text :=
  render (fun name => some (tokenValue vars name)) (scan content)

/-- The values of the names that the loop is done with. -/
def valuesOf (vars : Variables) (done : List Text) (name : Text) : Option Text :=
  if name ∈ done then some (tokenValue vars name) else none

/-- The placeholder of `name` occurs where no piece of the template is that placeholder. -/
def Stray (values : Text → Option Text) (name : Text) (pieces : List Piece) : Prop :=
  ∃ before p after x y, pieces = before ++ p :: after ∧ p ≠ .slot name ∧
    p.fill values = x ++ y ∧ y ≠ [] ∧ placeholder name <+: y ++ render values after

/-- In this run no pass gets into another's way: no value of a placeholder has an `&` or two
backslashes if the shell gives them a meaning, and what the passes have filled in so far spells no
placeholder of the pass that comes next. -/
structure Apart (patsub : Bool) (vars : Variables) (order : TokenOrder) (content : Text) :
    Prop where
  quiet : patsub = true → ∀ name, .slot name ∈ scan content → Verbatim (tokenValue vars name)
  clear : ∀ done name rest, order.names = done ++ name :: rest →
    ¬ Stray (valuesOf vars done) name (scan content)

def isAlphanumeric (c : Char) : Bool :=
  ('a' ≤ c && c ≤ 'z') || ('A' ≤ c && c ≤ 'Z') || isDigit c

def isTokenChar (c : Char) : Bool := isAlphanumeric c || c ∈ ['.', '_', '-']

/-- The pattern of `validate_token`. -/
def IsToken (t : Text) : Prop := t.head?.any isAlphanumeric ∧ ∀ c ∈ t, isTokenChar c

instance : DecidablePred IsToken := fun t =>
  inferInstanceAs (Decidable (t.head?.any isAlphanumeric = true ∧
    ∀ c ∈ t, isTokenChar c = true))

def isAccountStart (c : Char) : Bool := ('a' ≤ c && c ≤ 'z') || c == '_'

def IsAccountName (t : Text) : Prop :=
  t.head?.any isAccountStart ∧ (∀ c ∈ t, isAccountStart c || isDigit c || c == '-') ∧
    t ≠ "root".toList

instance : DecidablePred IsAccountName := fun t =>
  inferInstanceAs (Decidable (t.head?.any isAccountStart = true ∧
    (∀ c ∈ t, (isAccountStart c || isDigit c || c == '-') = true) ∧ t ≠ "root".toList))

def consoleDevice (console : Text) : Text := console.takeWhile (· ≠ ',')

def consoleSpeed (console : Text) : Text :=
  let behind := if ',' ∈ console then (console.dropWhile (· ≠ ',')).drop 1 else console
  behind.takeWhile isDigit

/-- Values with which `build_debian.sh` comes to the overlays. -/
structure Admitted (vars : Variables) : Prop where
  board : IsToken (vars "BOARD".toList)
  profile : ∃ fileExists env p, BoardProfile.validateBoardProfile fileExists env = .ok p ∧
    vars "BOARD".toList = p.board ∧ vars "BOARD_DESCRIPTION".toList = p.boardDescription ∧
    vars "KERNEL_DTB".toList = p.kernelDtb ∧
    vars "CONSOLE_DEVICE".toList = consoleDevice p.console ∧
    vars "CONSOLE_SPEED".toList = consoleSpeed p.console
  speed : vars "CONSOLE_SPEED".toList ≠ []
  hostname : vars "ROOTFS_HOSTNAME".toList ≠ [] ∧ ∀ c ∈ vars "ROOTFS_HOSTNAME".toList, isTokenChar c
  username : IsAccountName (vars "ROOTFS_USERNAME".toList)
  packages : ∃ raw sel, DebianSelection.resolveDebianPackages raw = .ok sel ∧
    vars "DEBIAN_PACKAGES".toList = sel.value
  overlays : ∃ store raw sel, DebianSelection.resolveDebianOverlays store raw = .ok sel ∧
    vars "DEBIAN_OVERLAYS".toList = sel.value

def assigned (table : List (Text × Text)) : Variables := fun name => (table.lookup name).getD []

/-- A build for `boards/rk3588s-rock-5c` with another description. -/
def rock5cValues (description : Text) : List (Text × Text) :=
  [("BOARD".toList, "rk3588s-rock-5c".toList), ("BOARD_DESCRIPTION".toList, description),
   ("ROOTFS_HOSTNAME".toList, "rock-5c".toList),
   ("KERNEL_DTB".toList, "rk3588s-rock-5c.dtb".toList),
   ("DEBIAN_PACKAGES".toList, "network-manager".toList), ("DEBIAN_OVERLAYS".toList, []),
   ("CONSOLE_DEVICE".toList, "ttyFIQ0".toList), ("CONSOLE_SPEED".toList, "1500000".toList),
   ("ROOTFS_USERNAME".toList, "user".toList)]

@[simp] theorem render_nil (values : Text → Option Text) : render values [] = [] := rfl

@[simp] theorem render_cons (values : Text → Option Text) (p : Piece) (ps : List Piece) :
    render values (p :: ps) = p.fill values ++ render values ps := rfl

theorem placeholder_length (name : Text) : (placeholder name).length = name.length + 2 := by
  simp [placeholder]

theorem slotAt_some {t name : Text} (h : slotAt t = some name) :
    name ∈ tokenNames ∧ placeholder name <+: t :=
  ⟨List.mem_of_find?_eq_some h, by simpa using List.find?_some h⟩

/-- Without values the pieces are the template again. -/
theorem render_scanFrom (skip : ℕ) (t : Text) :
    render (fun _ => none) (scanFrom skip t) = t.drop skip := by
  fun_induction scanFrom skip t with
  | case1 skip => simp
  | case2 skip c t ih => rw [ih, List.drop_succ_cons]
  | case3 c t name hname ih =>
    obtain ⟨-, rest, hrest⟩ := slotAt_some hname
    have ht : t.drop (name.length + 1) = rest := by
      have hdrop := congrArg (List.drop (name.length + 2)) hrest
      rw [← placeholder_length, List.drop_left, placeholder_length] at hdrop
      exact hdrop.symm
    rw [render_cons, ih, ht]
    exact hrest
  | case4 c t hnone ih =>
    rw [render_cons, ih]
    rfl

theorem mem_tokenNames_of_slot {skip : ℕ} {t name : Text} (h : .slot name ∈ scanFrom skip t) :
    name ∈ tokenNames := by
  fun_induction scanFrom skip t with
  | case1 => simp at h
  | case2 skip c t ih => exact ih h
  | case3 c t found hfound ih =>
    rcases List.mem_cons.mp h with heq | hmem
    · cases heq
      exact (slotAt_some hfound).1
    · exact ih hmem
  | case4 c t hnone ih =>
    apply ih
    simpa using h

theorem render_congr {values values' : Text → Option Text} {ps : List Piece}
    (h : ∀ name, .slot name ∈ ps → values name = values' name) :
    render values ps = render values' ps := by
  induction ps with
  | nil => rfl
  | cons p ps ih =>
    have hfill : p.fill values = p.fill values' := by
      cases p with
      | char c => rfl
      | slot name => simp only [Piece.fill, h name List.mem_cons_self]
    rw [render_cons, render_cons, hfill, ih fun name hname => h name (List.mem_cons_of_mem p hname)]

/-- One pass fills in the placeholders of its name. -/
theorem replaceFrom_render {values : Text → Option Text} {name : Text} (rep : Text)
    {ps : List Piece} (hnone : values name = none) (hstray : ¬ Stray values name ps) :
    replaceFrom (placeholder name) rep 0 (render values ps) =
      render (Function.update values name (some rep)) ps := by
  apply replaceFrom_blocks (List.cons_ne_nil _ _)
  intro before p after hps
  by_cases hp : p = .slot name
  · left
    subst hp
    refine ⟨?_, ?_⟩
    · rw [Piece.fill, hnone, Option.getD_none]
      rfl
    · rw [Piece.fill, Function.update_self, Option.getD_some]
  · right
    refine ⟨?_, fun x y hxy hy hmatch => hstray ⟨before, p, after, x, y, hps, hp, hxy, hy, hmatch⟩⟩
    cases p with
    | char c => rfl
    | slot other =>
      have hne : other ≠ name := fun heq => hp (heq ▸ rfl)
      simp only [Piece.fill, Function.update_of_ne hne]

theorem nodup_names (order : TokenOrder) : order.names.Nodup :=
  order.perm.nodup_iff.mpr (by decide)

/-- The pass of a name extends the values filled in by that name's value. -/
theorem pass_render {patsub : Bool} {vars : Variables} {order : TokenOrder} {content : Text}
    (h : Apart patsub vars order content) {done rest : List Text} {name : Text}
    (horder : order.names = done ++ name :: rest) :
    pass patsub vars (render (valuesOf vars done) (scan content)) name =
      render (valuesOf vars (done ++ [name])) (scan content) := by
  have hnotin : name ∉ done := by
    have hnodup := nodup_names order
    rw [horder, List.nodup_append] at hnodup
    exact fun hmem => hnodup.2.2 name hmem name List.mem_cons_self rfl
  have hnone : valuesOf vars done name = none := if_neg hnotin
  rw [pass, replaceFrom_render _ hnone (h.clear done name rest horder)]
  apply render_congr
  intro other hother
  by_cases heq : other = name
  · subst heq
    have hvalue : valuesOf vars (done ++ [other]) other = some (tokenValue vars other) :=
      if_pos (by simp)
    rw [Function.update_self, hvalue]
    cases patsub with
    | false => rfl
    | true => exact congrArg some (replacement_verbatim (h.quiet rfl other hother))
  · simp [valuesOf, heq]

/-- The text after each pass: the names that are done are filled in. -/
theorem foldl_pass {patsub : Bool} {vars : Variables} {order : TokenOrder} {content : Text}
    (h : Apart patsub vars order content) {done names : List Text}
    (horder : order.names = done ++ names) :
    names.foldl (pass patsub vars) (render (valuesOf vars done) (scan content)) =
      render (valuesOf vars order.names) (scan content) := by
  induction names generalizing done with
  | nil => rw [horder, List.append_nil, List.foldl_nil]
  | cons name names ih =>
    rw [List.foldl_cons, pass_render h horder]
    apply ih
    rw [horder, List.append_assoc, List.singleton_append]

theorem expand_eq_expandOnce {patsub : Bool} {vars : Variables} {order : TokenOrder}
    {content : Text} (h : Apart patsub vars order content) :
    expand patsub vars order content = expandOnce vars content := by
  have hstart : render (valuesOf vars []) (scan content) = content := by
    have hvalues : valuesOf vars [] = fun _ => none := by
      funext name
      simp [valuesOf]
    rw [hvalues, scan, render_scanFrom, List.drop_zero]
  have hrun := foldl_pass h (List.nil_append order.names).symm
  rw [hstart] at hrun
  rw [expand, hrun, expandOnce]
  apply render_congr
  intro name hname
  have hmem : name ∈ order.names := order.perm.mem_iff.mpr (mem_tokenNames_of_slot hname)
  exact if_pos hmem

/-- Behind a placeholder nothing may begin a name. -/
def Separated : Piece → Piece → Prop
  | .char _, _ => True
  | .slot _, .char c => isNameStart c = false
  | .slot _, .slot _ => False

instance : DecidableRel Separated
  | .char _, _ => inferInstanceAs (Decidable True)
  | .slot _, .char c => inferInstanceAs (Decidable (isNameStart c = false))
  | .slot _, .slot _ => inferInstanceAs (Decidable False)

/-- What an author of templates can see to: the `@` of the template are those of its placeholders,
and each placeholder stands by itself. -/
structure Spaced (pieces : List Piece) : Prop where
  literal : .char '@' ∉ pieces
  separated : pieces.IsChain Separated

/-- A value without special characters. -/
def Harmless (value : Text) : Prop := '@' ∉ value ∧ Verbatim value

instance : DecidablePred Harmless := fun value =>
  inferInstanceAs (Decidable ('@' ∉ value ∧ Verbatim value))

instance : DecidablePred Spaced := fun pieces =>
  decidable_of_iff (.char '@' ∉ pieces ∧ pieces.IsChain Separated)
    ⟨fun ⟨h₁, h₂⟩ => ⟨h₁, h₂⟩, fun h => ⟨h.literal, h.separated⟩⟩

theorem tokenNames_plain : ∀ name ∈ tokenNames, '@' ∉ name ∧ name.head?.any isNameStart := by
  decide

/-- An `@` ends a placeholder that is not filled in, or stands in front of its name. -/
theorem at_of_placeholder {other x y : Text} (hplain : '@' ∉ other)
    (h : placeholder other = x ++ '@' :: y) : x = [] ∨ y = [] := by
  cases x with
  | nil => exact .inl rfl
  | cons c x =>
    right
    have hrest : other ++ ['@'] = x ++ '@' :: y := (List.cons.inj h).2
    rcases List.eq_nil_or_concat y with rfl | ⟨z, d, rfl⟩
    · rfl
    · have hother : other = x ++ '@' :: z := by
        rw [List.concat_eq_append, ← List.cons_append, ← List.append_assoc] at hrest
        exact (List.append_inj' hrest rfl).1
      exact absurd (by simp [hother]) hplain

theorem placeholder_inj {name other rest : Text} (hname : '@' ∉ name) (hother : '@' ∉ other)
    (h : placeholder name <+: placeholder other ++ rest) : name = other := by
  obtain ⟨t, ht⟩ := h
  have hrest : name ++ '@' :: t = other ++ '@' :: rest := by simpa [placeholder] using ht
  rw [← Delimited.takeWhile_delimiter hname t, hrest, Delimited.takeWhile_delimiter hother rest]

theorem not_prefix_of_separated {values : Text → Option Text} {name other : Text}
    {after : List Piece} (hname : name ∈ tokenNames)
    (hsep : (.slot other :: after).IsChain Separated) :
    ¬ name ++ ['@'] <+: render values after := by
  rintro ⟨t, ht⟩
  obtain ⟨-, hletter⟩ := tokenNames_plain name hname
  cases name with
  | nil => cases hletter
  | cons start tail =>
    cases after with
    | nil => simp at ht
    | cons q after =>
      have hnext : Separated (.slot other) q := (List.isChain_cons_cons.mp hsep).1
      cases q with
      | slot _ => exact hnext
      | char c =>
        have hc : start = c := (List.cons.inj ht).1
        rw [List.head?_cons, Option.any_some, hc, hnext] at hletter
        cases hletter

theorem Apart.of_spaced {vars : Variables} {content : Text} (hspaced : Spaced (scan content))
    (hvalue : ∀ name ∈ tokenNames, .slot name ∈ scan content → Harmless (tokenValue vars name))
    (patsub : Bool) (order : TokenOrder) : Apart patsub vars order content := by
  constructor
  · intro _ name hname
    exact (hvalue name (mem_tokenNames_of_slot hname) hname).2
  · rintro done name rest horder ⟨before, p, after, x, y, hps, hne, hfill, hy, hmatch⟩
    have hname : name ∈ tokenNames := order.perm.mem_iff.mp (by simp [horder])
    have hmem : p ∈ scan content := by simp [hps]
    -- the occurrence begins with an `@` in the text of `p`
    obtain ⟨y, rfl⟩ : ∃ z, y = '@' :: z := by
      cases y with
      | nil => exact absurd rfl hy
      | cons c z => exact ⟨z, by rw [(List.cons_prefix_cons.mp hmatch).1]⟩
    cases p with
    | char c =>
      have hc : '@' ∈ [c] := by simp [show [c] = x ++ '@' :: y from hfill]
      exact hspaced.literal (List.mem_singleton.mp hc ▸ hmem)
    | slot other =>
      have hother := mem_tokenNames_of_slot hmem
      have hplain := (tokenNames_plain other hother).1
      by_cases hdone : other ∈ done
      · have hval : tokenValue vars other = x ++ '@' :: y := by
          simpa [Piece.fill, valuesOf, hdone] using hfill
        exact (hvalue other hother hmem).1 (by simp [hval])
      · have hself : placeholder other = x ++ '@' :: y := by
          simpa [Piece.fill, valuesOf, hdone] using hfill
        rcases at_of_placeholder hplain hself with rfl | rfl
        · rw [← List.nil_append ('@' :: y), ← hself] at hmatch
          have heq := placeholder_inj (tokenNames_plain name hname).1 hplain hmatch
          exact hne (heq ▸ rfl)
        · have hchain := hspaced.separated
          rw [hps] at hchain
          exact not_prefix_of_separated hname hchain.right_of_append
            (List.cons_prefix_cons.mp hmatch).2

theorem expand_eq_expandOnce_rock5c :
    expand true (assigned (rock5cValues "Radxa Rock 5C (RK3588S)".toList)) ⟨tokenNames, .refl _⟩
        "board=@BOARD@\nfeatures=@DEBIAN_PACKAGES@\n".toList =
      "board=rk3588s-rock-5c\nfeatures=network-manager\n".toList :=
  expand_eq_expandOnce
    (Apart.of_spaced (by decide) (by decide +kernel) true ⟨tokenNames, .refl _⟩)

theorem admitted_rock5c : Admitted (assigned (rock5cValues "R&D board".toList)) where
  board := by decide
  profile := by
    let env := { BoardProfile.rock5c with boardDescription := "R&D board".toList }
    have hrun : BoardProfile.validateBoardProfile (fun _ => true) env =
        .ok (BoardProfile.optionalDefaults (BoardProfile.profileDefaults env)) := by
      unfold env BoardProfile.rock5c
      repeat rw [String.toList_ofList]
      decide +kernel
    exact ⟨fun _ => true, env, _, hrun, by decide⟩
  speed := by decide
  hostname := by decide
  username := by decide
  packages := ⟨"network-manager".toList, DebianSelection.selectionOf ["network-manager".toList],
    by decide +kernel, by decide⟩
  overlays := ⟨⟨[], fun _ => false, fun _ => none, []⟩, "none".toList, ⟨[], []⟩,
    by decide +kernel, by decide⟩

/-- From bash 5.2 on, the `&` of a description becomes the placeholder. -/
theorem expand_not_simultaneous :
    ¬ ∀ vars content patsub order, Admitted vars →
      expand patsub vars order content = expandOnce vars content := by
  intro h
  have hequal := h (assigned (rock5cValues "R&D board".toList)) "@BOARD_DESCRIPTION@".toList
    true ⟨tokenNames, .refl _⟩ admitted_rock5c
  exact absurd hequal (by decide)

/-- The order of two placeholders that share an `@` matters in every version. -/
example :
    expand false (assigned (rock5cValues "board".toList)) ⟨tokenNames.reverse, by decide⟩
        "@BOARD@KERNEL_DTB@".toList ≠
      expand false (assigned (rock5cValues "board".toList)) ⟨tokenNames, .refl _⟩
        "@BOARD@KERNEL_DTB@".toList := by
  decide

/-- `Apart` is not necessary: a replacement that goes wrong may leave the right text behind. -/
example :
    let vars := assigned [("CONSOLE_DEVICE".toList, "@BOARD_DESCRIPTION".toList),
      ("BOARD_DESCRIPTION".toList, ['@'])]
    let order : TokenOrder := ⟨tokenNames.reverse, by decide⟩
    let content := "@CONSOLE_DEVICE@@BOARD_DESCRIPTION@".toList
    ¬ Apart false vars order content ∧
      expand false vars order content = expandOnce vars content := by
  refine ⟨fun h => ?_, by decide⟩
  apply h.clear (tokenNames.reverse.take 7) "BOARD_DESCRIPTION".toList ["BOARD".toList] (by decide)
  exact ⟨[], .slot "CONSOLE_DEVICE".toList, [.slot "BOARD_DESCRIPTION".toList], [],
    "@BOARD_DESCRIPTION".toList, by decide⟩

end TemplateExpansion
