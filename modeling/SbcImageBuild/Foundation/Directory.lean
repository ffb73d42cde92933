import Mathlib.Data.Finmap

/-!
# Flat directories

Finitely many named entries with the renaming of an entry onto another name.
-/
namespace Directory

variable {N E : Type} [DecidableEq N]

abbrev Dir (N E : Type) := Finmap fun _ : N => E

/-- `mv -f`: whatever has the new name is replaced. -/
def rename (d : Dir N E) (a b : N) : Dir N E :=
  match d.lookup a with
  | some e => (d.erase a).insert b e
  | none => d

theorem lookup_rename_target {d : Dir N E} {a b : N} {e : E} (h : d.lookup a = some e) :
    (rename d a b).lookup b = some e := by
  rw [rename, h]
  exact Finmap.lookup_insert _

theorem lookup_rename_source {d : Dir N E} {a b : N} {e : E} (h : d.lookup a = some e)
    (hne : a ≠ b) : (rename d a b).lookup a = none := by
  rw [rename, h]
  exact (Finmap.lookup_insert_of_ne _ hne).trans (Finmap.lookup_erase a d)

theorem lookup_rename_other {d : Dir N E} {a b x : N} (ha : x ≠ a) (hb : x ≠ b) :
    (rename d a b).lookup x = d.lookup x := by
  unfold rename
  split
  · exact (Finmap.lookup_insert_of_ne _ hb).trans (Finmap.lookup_erase_ne ha)
  · rfl

end Directory
