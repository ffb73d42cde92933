import SbcImageBuild.Foundation.Reaching
import Mathlib.Data.List.Pairwise

/-!
# Placements

Nodes put into a tree below a root together with the directories on the way to them. Those with
paths of their own may be put there in any order.
-/
namespace Placement

open ShellText FileTree FileCommands Reaching

variable {α : Type}

structure Placed (α : Type) where
  parents : List Text
  name : Text
  node : Node α

def Placed.path (p : Placed α) : List Text := p.parents ++ [p.name]

def place (root : Loc) (t : Files α) (p : Placed α) : Files α :=
  put (withDirs t root p.parents) (root ++ p.path) p.node

def placeAll (root : Loc) (t : Files α) (ps : List (Placed α)) : Files α :=
  ps.foldl (place root) t

/-- Neither is at, above or below the other. -/
def Apart (p q : Placed α) : Prop := ¬ p.path <+: q.path ∧ ¬ q.path <+: p.path

/-- There is nothing at the path, and above it there are only directories. -/
structure Ready (root : Loc) (t : Files α) (p : Placed α) : Prop where
  pass : Passable t root p.parents
  free : t (root ++ p.path) = none

variable {root : Loc} {t : Files α} {p q : Placed α} {ps qs : List (Placed α)}

theorem Apart.symm (h : Apart p q) : Apart q p := ⟨h.2, h.1⟩

instance : Std.Symm (@Apart α) := ⟨fun _ _ h => h.symm⟩

theorem Apart.path_ne (h : Apart p q) : p.path ≠ q.path := fun heq =>
  h.1 (heq ▸ List.prefix_rfl)

theorem withDirs_congr {u : Files α} {l : Loc} (h : t l = u l) (cur : Loc) (cs : List Text) :
    withDirs t cur cs l = withDirs u cur cs l := by
  rw [withDirs, withDirs, h]

theorem withDirs_comm (t : Files α) (cur : Loc) (cs ds : List Text) :
    withDirs (withDirs t cur cs) cur ds = withDirs (withDirs t cur ds) cur cs := by
  funext l
  by_cases hn : t l = none ∧ cur <+: l
  · by_cases hc : l <+: cur ++ cs <;> by_cases hd : l <+: cur ++ ds <;>
      simp [withDirs, hn, hc, hd]
  · have hsame : ∀ (u : Files α) (es : List Text), u l = t l → withDirs u cur es l = t l := by
      intro u es hu
      rw [withDirs, if_neg fun h => hn ⟨hu ▸ h.1, h.2.1⟩, hu]
    rw [hsame _ _ (hsame _ _ rfl), hsame _ _ (hsame _ _ rfl)]

@[simp] theorem place_self : place root t p (root ++ p.path) = some p.node := put_self _ _ _

theorem place_other {l : Loc} (h : l ≠ root ++ p.path) :
    place root t p l = withDirs t root p.parents l := put_other h

theorem place_keeps {l : Loc} {n : Node α} (hn : t l = some n) (h : l ≠ root ++ p.path) :
    place root t p l = some n := by
  rw [place_other h]
  exact (withDirs_grows t root p.parents).eq_some hn

theorem path_ne_root (h : p.path ≠ q.path) : root ++ p.path ≠ root ++ q.path :=
  fun heq => h (List.append_cancel_left heq)

/-- Two placements with different paths may be made in either order. -/
theorem place_comm (h : p.path ≠ q.path) (t : Files α) :
    place root (place root t p) q = place root (place root t q) p := by
  funext l
  by_cases hq : l = root ++ q.path
  · subst hq
    rw [place_self, place_keeps place_self (path_ne_root h.symm)]
  · by_cases hp : l = root ++ p.path
    · subst hp
      rw [place_self, place_keeps place_self (path_ne_root h)]
    · rw [place_other hq, place_other hp, withDirs_congr (place_other hp),
        withDirs_congr (place_other hq), withDirs_comm]

theorem placeAll_perm (hapart : ps.Pairwise Apart) (h : ps.Perm qs) (t : Files α) :
    placeAll root t ps = placeAll root t qs := by
  apply h.foldl_eq'
  intro p hp q hq u
  by_cases heq : p = q
  · rw [heq]
  · exact place_comm (hapart.forall hp hq heq).path_ne u

/-- The place itself is no directory on the way. -/
theorem withDirs_path : withDirs t root p.parents (root ++ p.path) = t (root ++ p.path) :=
  withDirs_child

/-- What a placement leaves ready for the others. -/
theorem Ready.place (h : Ready root t q) (hapart : Apart p q) : Ready root (place root t p) q where
  pass := by
    intro r hr
    have hne : root ++ r ≠ root ++ p.path := by
      intro heq
      obtain rfl := List.append_cancel_left heq
      exact hapart.1 (hr.trans (List.prefix_append _ _))
    rw [isDir, place_other hne, withDirs]
    split
    · exact .inr rfl
    · exact h.pass r hr
  free := by
    rw [place_other (path_ne_root hapart.path_ne.symm), withDirs, if_neg, h.free]
    rintro ⟨-, -, hpre⟩
    rw [List.prefix_append_right_inj] at hpre
    exact hapart.2 (hpre.trans (List.prefix_append _ _))

theorem placeAll_keeps {l : Loc} {n : Node α} (hn : t l = some n)
    (h : ∀ q ∈ ps, l ≠ root ++ q.path) : placeAll root t ps l = some n := by
  induction ps generalizing t with
  | nil => exact hn
  | cons q ps ih =>
    apply ih (place_keeps hn (h q List.mem_cons_self))
    exact fun r hr => h r (List.mem_cons_of_mem q hr)

/-- Each node is where it was put. -/
theorem placeAll_mem (hapart : ps.Pairwise Apart) (hp : p ∈ ps) (t : Files α) :
    placeAll root t ps (root ++ p.path) = some p.node := by
  induction ps generalizing t with
  | nil => cases hp
  | cons q ps ih =>
    obtain ⟨hq, hrest⟩ := List.pairwise_cons.mp hapart
    rcases List.mem_cons.mp hp with rfl | hp
    · apply placeAll_keeps (t := place root t p) place_self
      exact fun r hr => path_ne_root (hq r hr).path_ne
    · exact ih hrest hp _

end Placement
