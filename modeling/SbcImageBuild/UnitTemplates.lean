import SbcImageBuild.OverlayPath
import Mathlib.Algebra.Order.BigOperators.Group.List
import Mathlib.Algebra.Order.Ring.Nat
import Mathlib.Data.List.Nodup

/-!
# Units and their templates

The template of an instance is looked for by `unit_file_exists_in_root` and by the fallback of
`enable_unit`; `collect_enabled_units` lists the links of the `*.target.wants` directories whose
unit is there.
-/
namespace UnitTemplates

open ShellText OverlayText FileTree FileCommands

/-- The pattern `*@*.service`. -/
def IsInstance (unit : Text) : Prop := ".service".toList <:+ unit ∧ '@' ∈ unit

instance : DecidablePred IsInstance := fun unit =>
  inferInstanceAs (Decidable (".service".toList <:+ unit ∧ '@' ∈ unit))

/-- `${unit%@*}`, the shortest suffix removed. -/
def beforeLastAt (unit : Text) : Text :=
  if '@' ∈ unit then ((unit.reverse.dropWhile (· ≠ '@')).drop 1).reverse else unit

/-- `${unit%%@*}`, the longest suffix removed. -/
def beforeFirstAt (unit : Text) : Text := unit.takeWhile (· ≠ '@')

/-- The template of `unit_file_exists_in_root`. -/
def checkedTemplate (unit : Text) : Text := beforeLastAt unit ++ "@.service".toList

/-- The template of `enable_unit`. -/
def enabledTemplate (unit : Text) : Text := beforeFirstAt unit ++ "@.service".toList

/-- The template as systemd defines it. -/
def IsTemplateOf (unit template : Text) : Prop :=
  ∃ front rest, unit = front ++ '@' :: rest ∧ '@' ∉ front ∧ template = front ++ "@.service".toList

/-- A staged root file system, with all names that occur in it in collating order. -/
structure RootFs where
  tree : Files Text
  path : List Text
  names : List Text
  nodup : names.Nodup
  proper : ∀ n ∈ names, Proper n
  complete : ∀ d n, tree (d ++ [n]) ≠ none → n ∈ names

def systemDir : List Text := ["etc".toList, "systemd".toList, "system".toList]
def usrLibDir : List Text := ["usr".toList, "lib".toList, "systemd".toList, "system".toList]
def libDir : List Text := ["lib".toList, "systemd".toList, "system".toList]

/-- The test `[ -f ... ]` on a path below the root. -/
def hasFile (r : RootFs) (dir : List Text) (name : Text) : Bool :=
  (stat r.tree (r.path ++ dir ++ components name)).any Node.isFile

def checkedDirs : List (List Text) := [systemDir, usrLibDir, libDir]

def wantsTarget (unit : Text) : Text :=
  if ".socket".toList <:+ unit then "sockets.target.wants".toList
  else if "serial-getty@".toList <+: unit ∧ ".service".toList <:+ unit then
    "getty.target.wants".toList
  else if unit = "systemd-resolved.service".toList then "sysinit.target.wants".toList
  else "multi-user.target.wants".toList

/-- The fallback of `enable_unit`: the link that it makes, and the unit file the link names. -/
def enableUnitFallback (r : RootFs) (unit : Text) : Except Text (List Text × List Text) :=
  let dirs := [libDir, usrLibDir]
  let own := (dirs.find? (hasFile r · unit)).map (· ++ [unit])
  let template := enabledTemplate unit
  match own.orElse fun _ => (dirs.find? (hasFile r · template)).map (· ++ [template]) with
  | some unitFile => .ok (systemDir ++ [wantsTarget unit, unit], unitFile)
  | none => .error ("Unable to enable Debian systemd unit: ".toList ++ unit)

/-- There is a file for those that have the root for their top, as the booted system does: a link
does not lead out of it. -/
def holdsFile (r : RootFs) (dir : List Text) (name : Text) : Bool :=
  match directoryAt r.tree r.path with
  | some top => (stat (fun l => r.tree (top ++ l)) (dir ++ components name)).any Node.isFile
  | none => false

/-- The unit file or the template of a unit is there. -/
def Enabled (r : RootFs) (unit : Text) : Prop :=
  (∃ dir ∈ checkedDirs, holdsFile r dir unit) ∨
    IsInstance unit ∧ ∃ template, IsTemplateOf unit template ∧
      ∃ dir ∈ checkedDirs, holdsFile r dir template

/-- A unit file of the name, or for an instance a file of the name `template`, is there. -/
def FoundWith (has : List Text → Text → Bool) (unit template : Text) : Prop :=
  (∃ dir ∈ checkedDirs, has dir unit) ∨
    IsInstance unit ∧ ∃ dir ∈ checkedDirs, has dir template

/-- A link that both readings of its name treat alike: what the build container finds for it, with
the template before the last `@`, the root has, with the template before the first. -/
structure Regular (r : RootFs) (link : Text) : Prop where
  hidden : link.head? = some '.' → ¬ Enabled r link
  line : link.getLast? = some '\n' → ¬ Enabled r link ∧ (link.head? = some '.' ∨
    ¬ FoundWith (hasFile r) (commandOutput link) (checkedTemplate (commandOutput link)))
  alike : link.head? ≠ some '.' → link.getLast? ≠ some '\n' →
    (FoundWith (hasFile r) link (checkedTemplate link) ↔
      FoundWith (holdsFile r) link (enabledTemplate link))

section Names

variable {unit front rest : Text}

theorem beforeFirstAt_append (h : '@' ∉ front) : beforeFirstAt (front ++ '@' :: rest) = front :=
  Delimited.takeWhile_delimiter h rest

/-- There is one template, which `enable_unit` looks for. -/
theorem isTemplateOf_iff (h : '@' ∈ unit) {template : Text} :
    IsTemplateOf unit template ↔ template = enabledTemplate unit := by
  constructor
  · rintro ⟨front, rest, rfl, hfront, rfl⟩
    rw [enabledTemplate, beforeFirstAt_append hfront]
  · rintro rfl
    obtain ⟨front, rest, hunit, hfront⟩ := List.eq_append_cons_of_mem h
    subst hunit
    exact ⟨front, rest, rfl, hfront, by rw [enabledTemplate, beforeFirstAt_append hfront]⟩

end Names

/-- The fallback links a file that is there: the unit's own, or the template of systemd. -/
theorem enableUnitFallback_ok {r : RootFs} {unit : Text} (hat : '@' ∈ unit)
    {link file : List Text} (h : enableUnitFallback r unit = .ok (link, file)) :
    ∃ dir name, file = dir ++ [name] ∧ hasFile r dir name ∧
      (name = unit ∨ IsTemplateOf unit name) := by
  unfold enableUnitFallback at h
  dsimp only at h
  cases hown : [libDir, usrLibDir].find? (hasFile r · unit) with
  | some dir =>
    rw [hown] at h
    cases h
    have hfile : hasFile r dir unit := by simpa using List.find?_some hown
    exact ⟨dir, unit, rfl, hfile, .inl rfl⟩
  | none =>
    cases htemplate : [libDir, usrLibDir].find? (hasFile r · (enabledTemplate unit)) with
    | some dir =>
      rw [hown, htemplate] at h
      cases h
      have hfile : hasFile r dir (enabledTemplate unit) := by simpa using List.find?_some htemplate
      exact ⟨dir, _, rfl, hfile, .inr ((isTemplateOf_iff hat).mpr rfl)⟩
    | none =>
      rw [hown, htemplate] at h
      cases h

section Links

variable {r : RootFs} {dir : List Text} {link unit : Text}

end Links

end UnitTemplates
