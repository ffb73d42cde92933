import SbcImageBuild.CommaList
import SbcImageBuild.Foundation.FileTree
import Mathlib.Data.Char
import Mathlib.Data.List.Lex

/-!
# Overlay selection

`resolve_debian_overlays` over the directory of overlays itself: which of its names are known, and
which selections that directory admits.
-/
namespace OverlaySelection

open ShellText FileTree FirstOccurrence DebianSelection CommaList

/-- `rootfs/debian/overlays` in a file tree, with the names that reading it yields. -/
structure OverlaysDir where
  tree : Files Text
  path : Text
  names : List Text
  mem_names : ∀ n, n ∈ names ↔
    Proper n ∧ ∃ d, resolve tree [] (components path) = .found d ∧ tree (d ++ [n]) ≠ none

def overlayPath (o : OverlaysDir) (token : Text) : Text := o.path ++ '/' :: token

/-- Where the path of a token leads. -/
def overlayAt (o : OverlaysDir) (token : Text) : Resolved :=
  resolve o.tree [] (components (overlayPath o token))

def statBelow (o : OverlaysDir) (token file : Text) : Option (Node Text) :=
  stat o.tree (components (overlayPath o token ++ '/' :: file))

def hasOverlayDir (o : OverlaysDir) (token : Text) : Bool :=
  (statBelow o token "overlay".toList).any Node.isDir

def mutexFile (o : OverlaysDir) (token : Text) : Option Text :=
  match statBelow o token "MUTEX".toList with
  | some (.file content _) => some content
  | _ => none

/-- The shell pattern `*` matches no hidden name. -/
def isHidden (n : Text) : Bool := n.head? = some '.'

def debianKnownOverlayNames (o : OverlaysDir) : List Text :=
  (o.names.filter fun n => !isHidden n && hasOverlayDir o n).mergeSort

def store (o : OverlaysDir) : OverlayStore where
  overlaysDir := o.path
  hasOverlay := hasOverlayDir o
  mutexFile := mutexFile o
  knownNames := debianKnownOverlayNames o

def Dies (o : OverlaysDir) (raw : Text) : Prop :=
  ∃ message, resolveDebianOverlays (store o) raw = .error message

def Excludes (o : OverlaysDir) (a b : Text) : Prop :=
  mutexGroup (store o) a ≠ [] ∧ mutexGroup (store o) a = mutexGroup (store o) b

/-- What a selection promises. -/
structure Sound (o : OverlaysDir) (raw : Text) (list : List Text) : Prop where
  known : ∀ t ∈ list, t ∈ debianKnownOverlayNames o
  distinct : list.Pairwise fun a b => overlayAt o a ≠ overlayAt o b
  exclusive : list.Pairwise fun a b => ¬ Excludes o a b
  tokens : ∀ t, t ∈ list ↔ t ∈ selectedTokens raw
  order : list.Pairwise fun a b => (selectedTokens raw).idxOf a < (selectedTokens raw).idxOf b

/-- The contract of `resolve_debian_overlays` for one input. -/
structure Contract (o : OverlaysDir) (raw : Text) : Prop where
  sound : ∀ sel, resolveDebianOverlays (store o) raw = .ok sel → Sound o raw sel.list
  dies : Dies o raw ↔ (∃ t ∈ selectedTokens raw, t ∉ debianKnownOverlayNames o) ∨
    ∃ a ∈ selectedTokens raw, ∃ b ∈ selectedTokens raw, a ≠ b ∧ Excludes o a b
  stable : ∀ raw', (∀ t, t ∈ selectedTokens raw' ↔ t ∈ selectedTokens raw) →
    (Dies o raw' ↔ Dies o raw)

instance (o : OverlaysDir) : Std.Symm fun a b => ¬ Excludes o a b where
  symm _ _ h := fun hba => h ⟨hba.2 ▸ hba.1, hba.2.symm⟩

instance (o : OverlaysDir) : Std.Symm fun a b => overlayAt o a ≠ overlayAt o b where
  symm _ _ h := h.symm

end OverlaySelection
