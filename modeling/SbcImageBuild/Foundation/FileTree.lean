import SbcImageBuild.Foundation.ShellText
import Mathlib.Data.List.Induction

/-!
# File trees

Directories, regular files and symbolic links at physical locations, and the resolution of
paths among them. A location lists the names from the top; resolution follows the links.
-/
namespace FileTree

open ShellText

variable {α : Type}

inductive Node (α : Type) where
  | dir (mode : ℕ)
  | file (content : α) (mode : ℕ)
  | symlink (target : Text)
  deriving DecidableEq

abbrev Loc := List Text

instance (priority := high) decidableMemLocs (l : Loc) (ls : List Loc) : Decidable (l ∈ ls) :=
  List.instDecidableMemOfLawfulBEq l ls

abbrev Files (α : Type) := Loc → Option (Node α)

def Node.isDir : Node α → Bool
  | .dir _ => true
  | _ => false

def Node.isFile : Node α → Bool
  | .file _ _ => true
  | _ => false

def Node.isSymlink : Node α → Bool
  | .symlink _ => true
  | _ => false

def isDir (t : Files α) (l : Loc) : Bool := (t l).any Node.isDir

def isFile (t : Files α) (l : Loc) : Bool := (t l).any Node.isFile

def isSymlink (t : Files α) (l : Loc) : Bool := (t l).any Node.isSymlink

def put (t : Files α) (l : Loc) (n : Node α) : Files α := fun q => if q = l then some n else t q

/-- Whatever is at the location or below it is removed. -/
def remove (t : Files α) (l : Loc) : Files α := fun q => if l <+: q then none else t q

/-- Something exists only in a directory. -/
structure WellFormed (t : Files α) : Prop where
  top : isDir t []
  parent : ∀ l n, t (l ++ [n]) ≠ none → isDir t l

/-- A name that something can have in a directory. -/
def Proper (n : Text) : Prop := n ≠ [] ∧ n ≠ ['.'] ∧ n ≠ ['.', '.'] ∧ '/' ∉ n

instance : DecidablePred Proper := fun n => inferInstanceAs (Decidable (n ≠ [] ∧ _ ∧ _ ∧ _))

def components (path : Text) : List Text := path.splitOn '/'

def isAbsolute (path : Text) : Bool := path.head? = some '/'

/-- Where a path leads; the last name may be missing from an existing directory. -/
inductive Resolved where
  | found (l : Loc)
  | absent (dir : Loc) (name : Text)
  | failed
  deriving DecidableEq

/-- The walk up to the next symbolic link, which is left to `follow`. An empty component behind
a name demands a directory, as a trailing slash does. -/
def walkWith (follow : Loc → List Text → Resolved) (t : Files α) : Loc → List Text → Resolved
  | cur, [] => .found cur
  | cur, c :: cs =>
    if c = [] ∨ c = ['.'] then walkWith follow t cur cs
    else if c = ['.', '.'] then walkWith follow t cur.dropLast cs
    else match t (cur ++ [c]) with
      | none => if cs = [] then .absent cur c else .failed
      | some (.dir _) => walkWith follow t (cur ++ [c]) cs
      | some (.file _ _) => if cs = [] then .found (cur ++ [c]) else .failed
      | some (.symlink target) =>
        follow (if isAbsolute target then [] else cur) (components target ++ cs)

/-- Path resolution that follows at most so many links. -/
def walk (t : Files α) : ℕ → Loc → List Text → Resolved
  | 0 => walkWith (fun _ _ => .failed) t
  | links + 1 => walkWith (walk t links) t

/-- The number of links after which the kernel gives up. -/
def maxLinks : ℕ := 40

def resolve (t : Files α) (cur : Loc) (path : List Text) : Resolved := walk t maxLinks cur path

def Resolved.node (t : Files α) : Resolved → Option (Node α)
  | .found l => t l
  | _ => none

/-- What a path from the top leads to. -/
def stat (t : Files α) (path : List Text) : Option (Node α) := (resolve t [] path).node t

/-- A location that its own path leads to: no link is on the way or at its end, and what is there
has only directories above it. -/
structure Direct (t : Files α) (l : Loc) : Prop where
  links : ∀ q, q <+: l → isSymlink t q = false
  above : t l ≠ none → ∀ q, q <+: l → q = l ∨ isDir t q

/-- What a resolved path can be: an existing node that is no link, or a missing name. -/
def Lands (t : Files α) : Resolved → Prop
  | .found l => t l ≠ none ∧ isSymlink t l = false
  | .absent d n => isDir t d ∧ t (d ++ [n]) = none
  | .failed => True

theorem not_below_prefix {l q : Loc} (hq : q ≠ []) : ¬ l ++ q <+: l := fun h => by
  have hlen := h.length_le
  have hpos := List.length_pos_iff.mpr hq
  rw [List.length_append] at hlen
  omega

theorem not_child_prefix (l : Loc) (n : Text) : ¬ l ++ [n] <+: l :=
  not_below_prefix (List.cons_ne_nil n [])

theorem isDir_iff {t : Files α} {l : Loc} : isDir t l ↔ ∃ m, t l = some (.dir m) := by
  rcases h : t l with _ | (m | _ | _) <;> simp [isDir, h, Node.isDir]

theorem isDir_exists {t : Files α} {l : Loc} (h : isDir t l) : t l ≠ none := by
  obtain ⟨m, hm⟩ := isDir_iff.mp h
  simp [hm]

theorem isDir_not_symlink {t : Files α} {l : Loc} (h : isDir t l) : isSymlink t l = false := by
  obtain ⟨m, hm⟩ := isDir_iff.mp h
  simp [isSymlink, hm, Node.isSymlink]

@[simp] theorem put_self (t : Files α) (l : Loc) (n : Node α) : put t l n l = some n := by
  simp [put]

@[simp] theorem isDir_put_self (t : Files α) (l : Loc) (n : Node α) :
    isDir (put t l n) l = n.isDir := by
  simp [isDir]

theorem isDir_put_other {t : Files α} {l q : Loc} {n : Node α} (h : q ≠ l) :
    isDir (put t l n) q = isDir t q := by
  simp [isDir, put, h]

theorem put_other {t : Files α} {l q : Loc} {n : Node α} (h : q ≠ l) : put t l n q = t q := by
  simp [put, h]

theorem put_put {t : Files α} {l : Loc} {m n : Node α} : put (put t l m) l n = put t l n := by
  funext q
  rcases eq_or_ne q l with rfl | hne
  · simp
  · simp [put_other hne]

theorem put_same {t : Files α} {l : Loc} {n : Node α} (h : t l = some n) : put t l n = t := by
  funext q
  rcases eq_or_ne q l with rfl | hne
  · rw [put_self, h]
  · exact put_other hne

theorem WellFormed.parent_dir {t : Files α} (h : WellFormed t) {l : Loc} (hl : t l ≠ none) :
    isDir t l.dropLast := by
  rcases List.eq_nil_or_concat l with rfl | ⟨p, n, rfl⟩
  · exact h.top
  · rw [List.concat_eq_append] at hl ⊢
    rw [List.dropLast_concat]
    exact h.parent p n hl

/-- Nothing lies below what is missing or no directory. -/
theorem WellFormed.below {t : Files α} (h : WellFormed t) {l : Loc} (hl : ¬ isDir t l) {q : Loc}
    (hq : q ≠ []) : t (l ++ q) = none := by
  induction q using List.reverseRecOn with
  | nil => exact absurd rfl hq
  | append_singleton q n ih =>
    by_contra hne
    rw [← List.append_assoc] at hne
    have hdir := h.parent _ n hne
    rcases eq_or_ne q [] with rfl | hq'
    · rw [List.append_nil] at hdir
      exact hl hdir
    · exact isDir_exists hdir (ih hq')

theorem remove_at {t : Files α} {l q : Loc} (h : l <+: q) : remove t l q = none := if_pos h

theorem remove_other {t : Files α} {l q : Loc} (h : ¬ l <+: q) : remove t l q = t q := if_neg h

theorem remove_missing {t : Files α} {l : Loc} (h : ∀ q, l <+: q → t q = none) :
    remove t l = t := by
  funext q
  by_cases hq : l <+: q
  · rw [remove_at hq, h q hq]
  · exact remove_other hq

theorem WellFormed.remove {t : Files α} (h : WellFormed t) {l : Loc} (hl : l ≠ []) :
    WellFormed (remove t l) := by
  constructor
  · rw [isDir, remove_other (fun hpre => hl (List.prefix_nil.mp hpre))]
    exact h.top
  · intro p n hn
    by_cases hpn : l <+: p ++ [n]
    · exact absurd (remove_at hpn) hn
    · have hp : ¬ l <+: p := fun hp => hpn (hp.trans (List.prefix_append p [n]))
      rw [remove_other hpn] at hn
      rw [isDir, remove_other hp]
      exact h.parent p n hn

theorem WellFormed.prefix_dir {t : Files α} (h : WellFormed t) {q l : Loc} (hq : q <+: l)
    (hl : t l ≠ none) : q = l ∨ isDir t q := by
  obtain ⟨p, rfl⟩ := hq
  rcases eq_or_ne p [] with rfl | hp
  · exact .inl (List.append_nil q).symm
  · right
    by_contra hnot
    exact hl (h.below hnot hp)

theorem walkWith_lands {t : Files α} (h : WellFormed t) {follow : Loc → List Text → Resolved}
    (hf : ∀ cur cs, isDir t cur → Lands t (follow cur cs)) {cur : Loc} (hc : isDir t cur)
    (cs : List Text) : Lands t (walkWith follow t cur cs) := by
  induction cs generalizing cur with
  | nil => exact ⟨isDir_exists hc, isDir_not_symlink hc⟩
  | cons c cs ih =>
    rw [walkWith]
    by_cases hstay : c = [] ∨ c = ['.']
    · rw [if_pos hstay]
      exact ih hc
    rw [if_neg hstay]
    by_cases hup : c = ['.', '.']
    · rw [if_pos hup]
      exact ih (h.parent_dir (isDir_exists hc))
    rw [if_neg hup]
    cases hn : t (cur ++ [c]) with
    | none =>
      by_cases hcs : cs = []
      · simpa [hcs] using ⟨hc, hn⟩
      · simp [hcs, Lands]
    | some node =>
      cases node with
      | dir m => exact ih (isDir_iff.mpr ⟨m, hn⟩)
      | file content m =>
        by_cases hcs : cs = []
        · simp [hcs, Lands, hn, isSymlink, Node.isSymlink]
        · simp [hcs, Lands]
      | symlink target =>
        refine hf _ _ ?_
        split
        · exact h.top
        · exact hc

theorem walk_lands {t : Files α} (h : WellFormed t) (links : ℕ) {cur : Loc} (hc : isDir t cur)
    (cs : List Text) : Lands t (walk t links cur cs) := by
  induction links generalizing cur cs with
  | zero =>
    change Lands t (walkWith (fun _ _ => .failed) t cur cs)
    refine walkWith_lands h ?_ hc cs
    exact fun _ _ _ => trivial
  | succ links ih => exact walkWith_lands h (fun _ cs hc => ih hc cs) hc cs

theorem resolve_lands {t : Files α} (h : WellFormed t) {cur : Loc} (hc : isDir t cur)
    (cs : List Text) : Lands t (resolve t cur cs) :=
  walk_lands h maxLinks hc cs

theorem walk_eq (t : Files α) (links : ℕ) :
    ∃ follow, walk t links = walkWith follow t := by
  cases links with
  | zero => exact ⟨_, rfl⟩
  | succ links => exact ⟨_, rfl⟩

/-- A proper name in a directory that is not a link is where its path leads. -/
theorem resolve_name {t : Files α} {cur : Loc} {c : Text} (hc : Proper c)
    (hl : isSymlink t (cur ++ [c]) = false) :
    resolve t cur [c] = if t (cur ++ [c]) = none then .absent cur c else .found (cur ++ [c]) := by
  obtain ⟨follow, heq⟩ := walk_eq t maxLinks
  obtain ⟨hne, hdot, hdotdot, -⟩ := hc
  rw [resolve, heq, walkWith, if_neg (by simp [hne, hdot]), if_neg hdotdot]
  cases hn : t (cur ++ [c]) with
  | none => simp
  | some node =>
    cases node with
    | dir m => simp [walkWith]
    | file content m => simp
    | symlink target => simp [isSymlink, hn, Node.isSymlink] at hl

theorem walkWith_dir {t : Files α} {follow : Loc → List Text → Resolved} {cur : Loc} {c : Text}
    (hc : Proper c) (hd : isDir t (cur ++ [c])) (cs : List Text) :
    walkWith follow t cur (c :: cs) = walkWith follow t (cur ++ [c]) cs := by
  obtain ⟨hne, hdot, hdotdot, -⟩ := hc
  obtain ⟨m, hm⟩ := isDir_iff.mp hd
  rw [walkWith, if_neg (by simp [hne, hdot]), if_neg hdotdot, hm]

theorem walkWith_dirs {t : Files α} {follow : Loc → List Text → Resolved} {cur : Loc}
    {ps : List Text} (hp : ∀ p ∈ ps, Proper p) (hd : ∀ q, q <+: ps → isDir t (cur ++ q))
    (cs : List Text) :
    walkWith follow t cur (ps ++ cs) = walkWith follow t (cur ++ ps) cs := by
  induction ps generalizing cur with
  | nil => simp
  | cons p ps ih =>
    rw [List.cons_append, walkWith_dir (hp p (by simp)) (hd [p] (by simp)),
      ih (fun q hq => hp q (List.mem_cons_of_mem p hq)), List.append_assoc, List.singleton_append]
    intro q hq
    rw [List.append_assoc, List.singleton_append]
    exact hd (p :: q) (List.cons_prefix_cons.mpr ⟨rfl, hq⟩)

/-- A path through directories without links needs no following. -/
theorem resolve_dirs {t : Files α} {cur : Loc} {ps : List Text} (hp : ∀ p ∈ ps, Proper p)
    (hd : ∀ q, q <+: ps → isDir t (cur ++ q)) (cs : List Text) :
    resolve t cur (ps ++ cs) = resolve t (cur ++ ps) cs := by
  obtain ⟨follow, heq⟩ := walk_eq t maxLinks
  rw [resolve, resolve, heq]
  exact walkWith_dirs hp hd cs

/-- A path that leads somewhere leads there from where its front leads. -/
theorem walkWith_append {t : Files α} {follow : Loc → List Text → Resolved}
    {Continues : Loc → List Text → Loc → Prop}
    (hf : ∀ cur ps cs l, follow cur (ps ++ cs) = .found l →
      ∃ m, follow cur ps = .found m ∧ Continues m cs l)
    (hc : ∀ m cs l, walkWith follow t m cs = .found l → Continues m cs l)
    {cur : Loc} {ps cs : List Text} {l : Loc} (h : walkWith follow t cur (ps ++ cs) = .found l) :
    ∃ m, walkWith follow t cur ps = .found m ∧ Continues m cs l := by
  induction ps generalizing cur with
  | nil => exact ⟨cur, rfl, hc cur cs l h⟩
  | cons p ps ih =>
    rw [List.cons_append, walkWith] at h
    rw [walkWith]
    by_cases hstay : p = [] ∨ p = ['.']
    · rw [if_pos hstay] at h ⊢
      exact ih h
    rw [if_neg hstay] at h ⊢
    by_cases hup : p = ['.', '.']
    · rw [if_pos hup] at h ⊢
      exact ih h
    rw [if_neg hup] at h ⊢
    rcases hn : t (cur ++ [p]) with _ | (m | ⟨content, m⟩ | target)
    · rw [hn] at h
      dsimp only at h
      split at h <;> cases h
    · rw [hn] at h
      exact ih h
    · rw [hn] at h
      dsimp only at h
      split at h
      · rename_i hnil
        obtain ⟨rfl, rfl⟩ := List.append_eq_nil_iff.mp hnil
        cases h
        exact ⟨_, rfl, hc _ _ _ rfl⟩
      · cases h
    · rw [hn] at h
      dsimp only at h
      rw [← List.append_assoc] at h
      exact hf _ _ _ _ h

/-- The links that the rest of a path may follow. -/
def Reaches (t : Files α) (m : Loc) (cs : List Text) (l : Loc) : Prop :=
  ∃ links, walk t links m cs = .found l

theorem walk_append {t : Files α} {links : ℕ} {cur : Loc} {ps cs : List Text} {l : Loc}
    (h : walk t links cur (ps ++ cs) = .found l) :
    ∃ m, walk t links cur ps = .found m ∧ Reaches t m cs l := by
  induction links generalizing cur ps cs l with
  | zero =>
    apply walkWith_append _ _ h
    · intro cur ps cs l hfail
      cases hfail
    · intro m cs l hw
      exact ⟨0, hw⟩
  | succ links ih =>
    apply walkWith_append _ _ h
    · intro cur ps cs l hw
      exact ih hw
    · intro m cs l hw
      exact ⟨links + 1, hw⟩

/-- A name at the front of a path that leads somewhere exists. -/
theorem walk_name_exists {t : Files α} {links : ℕ} {cur : Loc} {c : Text} (hc : Proper c)
    {cs : List Text} {l : Loc} (h : walk t links cur (c :: cs) = .found l) :
    t (cur ++ [c]) ≠ none := by
  obtain ⟨follow, heq⟩ := walk_eq t links
  obtain ⟨hne, hdot, hdotdot, -⟩ := hc
  intro hnone
  rw [heq, walkWith, if_neg (by simp [hne, hdot]), if_neg hdotdot, hnone] at h
  dsimp only at h
  split at h <;> cases h

theorem WellFormed.direct {t : Files α} (h : WellFormed t) {l : Loc}
    (hl : ∀ q, q <+: l → isSymlink t q = false) : Direct t l :=
  ⟨hl, fun hne _ hq => h.prefix_dir hq hne⟩

/-- A change at a direct location leaves it direct, unless a link is put there. -/
theorem Direct.congr {t u : Files α} {l : Loc} (h : Direct t l)
    (hu : ∀ q, q <+: l → q ≠ l → u q = t q) (hs : isSymlink u l = false)
    (hn : u l ≠ none → t l ≠ none ∨ ∀ q, q <+: l → q ≠ l → isDir t q) : Direct u l := by
  refine ⟨fun q hq => ?_, fun hne q hq => ?_⟩
  · rcases eq_or_ne q l with rfl | hql
    · exact hs
    · rw [isSymlink, hu q hq hql]
      exact h.links q hq
  · rcases eq_or_ne q l with rfl | hql
    · exact .inl rfl
    · right
      rw [isDir, hu q hq hql]
      rcases hn hne with hsome | hdirs
      · exact (h.above hsome q hq).resolve_left hql
      · exact hdirs q hq hql

/-- What is at a direct location lies in a directory that is direct itself. -/
theorem Direct.parent {t : Files α} {d : Loc} {n : Text} (h : Direct t (d ++ [n]))
    (hn : t (d ++ [n]) ≠ none) : Direct t d ∧ isDir t d := by
  have hdirs : ∀ q, q <+: d → isDir t q := by
    intro q hq
    refine (h.above hn q (hq.trans (List.prefix_append d [n]))).resolve_left ?_
    rintro rfl
    exact not_child_prefix d n hq
  exact ⟨⟨fun q hq => isDir_not_symlink (hdirs q hq), fun _ q hq => .inr (hdirs q hq)⟩,
    hdirs d List.prefix_rfl⟩

theorem walkWith_direct {t : Files α} {follow : Loc → List Text → Resolved} {cur : Loc}
    {cs : List Text} (hp : ∀ c ∈ cs, Proper c)
    (hl : ∀ q, q <+: cs → isSymlink t (cur ++ q) = false)
    (ha : t (cur ++ cs) ≠ none → ∀ q, q <+: cs → q = cs ∨ isDir t (cur ++ q)) :
    walkWith follow t cur cs = .found (cur ++ cs) ∨
      t (cur ++ cs) = none ∧ (walkWith follow t cur cs).node t = none := by
  induction cs generalizing cur with
  | nil => simp [walkWith]
  | cons c cs ih =>
    obtain ⟨hne, hdot, hdotdot, -⟩ := hp c (by simp)
    have hlink : isSymlink t (cur ++ [c]) = false := hl [c] (by simp)
    have hstop : isDir t (cur ++ [c]) = false → cs ≠ [] → t (cur ++ c :: cs) = none := by
      intro hd hcs
      by_contra hsome
      rcases ha hsome [c] (by simp) with heq | hdir
      · exact hcs (by simpa using heq.symm)
      · rw [hd] at hdir
        cases hdir
    rw [walkWith, if_neg (by simp [hne, hdot]), if_neg hdotdot]
    rcases hn : t (cur ++ [c]) with _ | (m | ⟨content, m⟩ | target)
    · by_cases hcs : cs = []
      · simp [hcs, hn, Resolved.node]
      · simp [hcs, hstop (by simp [isDir, hn]) hcs, Resolved.node]
    · have happ : cur ++ c :: cs = cur ++ [c] ++ cs := by simp
      rw [happ] at ha ⊢
      refine ih (fun d hd => hp d (List.mem_cons_of_mem c hd)) (fun q hq => ?_) (fun h q hq => ?_)
      · simpa using hl (c :: q) (List.cons_prefix_cons.mpr ⟨rfl, hq⟩)
      · simpa using ha h (c :: q) (List.cons_prefix_cons.mpr ⟨rfl, hq⟩)
    · by_cases hcs : cs = []
      · simp [hcs]
      · simp [hcs, hstop (by simp [isDir, hn, Node.isDir]) hcs, Resolved.node]
    · simp [isSymlink, hn, Node.isSymlink] at hlink

theorem resolve_direct {t : Files α} {l : Loc} (hp : ∀ n ∈ l, Proper n) (hl : Direct t l) :
    resolve t [] l = .found l ∨ t l = none ∧ stat t l = none := by
  obtain ⟨follow, heq⟩ := walk_eq t maxLinks
  rw [stat, resolve, heq]
  exact walkWith_direct hp hl.links hl.above

/-- The path of a direct location leads there. -/
theorem stat_direct {t : Files α} {l : Loc} (hp : ∀ n ∈ l, Proper n) (hl : Direct t l) :
    stat t l = t l := by
  rcases resolve_direct hp hl with hfound | ⟨hnone, hstat⟩
  · rw [stat, hfound, Resolved.node]
  · rw [hstat, hnone]

/-- What a path leads to once a regular file has been written at `l`. -/
def Resolved.onceWritten (l : Loc) : Resolved → Resolved
  | .absent d n => if d ++ [n] = l then .found l else .absent d n
  | r => r

theorem walkWith_put_file {t : Files α} {l : Loc} {content : α} {mode : ℕ}
    (hd : isDir t l = false) (hs : isSymlink t l = false)
    {follow follow' : Loc → List Text → Resolved}
    (hf : ∀ cur cs, follow' cur cs = (follow cur cs).onceWritten l) (cur : Loc) (cs : List Text) :
    walkWith follow' (put t l (.file content mode)) cur cs =
      (walkWith follow t cur cs).onceWritten l := by
  induction cs generalizing cur with
  | nil => rfl
  | cons c cs ih =>
    rw [walkWith, walkWith]
    by_cases hstay : c = [] ∨ c = ['.']
    · rw [if_pos hstay, if_pos hstay, ih]
    rw [if_neg hstay, if_neg hstay]
    by_cases hup : c = ['.', '.']
    · rw [if_pos hup, if_pos hup, ih]
    rw [if_neg hup, if_neg hup]
    rcases eq_or_ne (cur ++ [c]) l with rfl | hne
    · rw [put_self]
      rcases hn : t (cur ++ [c]) with _ | (m | ⟨content', m⟩ | target)
      · by_cases hcs : cs = [] <;> simp [hcs, Resolved.onceWritten]
      · simp [isDir, hn, Node.isDir] at hd
      · by_cases hcs : cs = [] <;> simp [hcs, Resolved.onceWritten]
      · simp [isSymlink, hn, Node.isSymlink] at hs
    · rw [put_other hne]
      rcases hn : t (cur ++ [c]) with _ | (m | ⟨content', m⟩ | target)
      · by_cases hcs : cs = [] <;> simp [hcs, hne, Resolved.onceWritten]
      · exact ih _
      · by_cases hcs : cs = [] <;> simp [hcs, Resolved.onceWritten]
      · exact hf _ _

theorem walk_put_file {t : Files α} {l : Loc} {content : α} {mode : ℕ} (hd : isDir t l = false)
    (hs : isSymlink t l = false) (links : ℕ) (cur : Loc) (cs : List Text) :
    walk (put t l (.file content mode)) links cur cs = (walk t links cur cs).onceWritten l := by
  induction links generalizing cur cs with
  | zero =>
    change walkWith (fun _ _ => .failed) _ cur cs =
      (walkWith (fun _ _ => .failed) t cur cs).onceWritten l
    refine walkWith_put_file hd hs ?_ cur cs
    exact fun _ _ => rfl
  | succ links ih => exact walkWith_put_file hd hs ih cur cs

/-- Writing a regular file changes no resolution but that of the path to a missing one. -/
theorem resolve_put_file {t : Files α} {l : Loc} {content : α} {mode : ℕ} (hd : isDir t l = false)
    (hs : isSymlink t l = false) (cur : Loc) (cs : List Text) :
    resolve (put t l (.file content mode)) cur cs = (resolve t cur cs).onceWritten l :=
  walk_put_file hd hs maxLinks cur cs

/-- A component that is looked up in a directory. -/
def Named (c : Text) : Prop := c ≠ [] ∧ c ≠ ['.'] ∧ c ≠ ['.', '.']

instance : DecidablePred Named := fun c =>
  inferInstanceAs (Decidable (c ≠ [] ∧ c ≠ ['.'] ∧ c ≠ ['.', '.']))

/-- A set of positions, a directory and the components still to go, that no walk leaves. A missing
name counts as one that may be made. -/
structure Closed (t : Files α) (V : Loc → List Text → Prop) : Prop where
  stay : ∀ {l c cs}, V l (c :: cs) → c = [] ∨ c = ['.'] → V l cs
  up : ∀ {l cs}, V l (['.', '.'] :: cs) → V l.dropLast cs
  down : ∀ {l c cs}, V l (c :: cs) → Named c → isSymlink t (l ++ [c]) = false → V (l ++ [c]) cs
  link : ∀ {l c cs target}, V l (c :: cs) → Named c → t (l ++ [c]) = some (.symlink target) →
    V (if isAbsolute target then [] else l) (components target ++ cs)

/-- A walk that ends in the set, with `rest` still to go. -/
def Resolved.EndsIn (V : Loc → List Text → Prop) (rest : List Text) : Resolved → Prop
  | .found l => V l rest
  | .absent d n => V (d ++ [n]) rest
  | .failed => True

theorem under_child {root d : Loc} (h : root <+: d) (n : Text) : root <+: d ++ [n] :=
  h.trans (List.prefix_append d [n])

section Closed

variable {t u : Files α} {V : Loc → List Text → Prop} {cur l : Loc} {cs rest : List Text}

theorem walkWith_endsIn (h : Closed t V) {follow : Loc → List Text → Resolved}
    (hf : ∀ cur cs, V cur (cs ++ rest) → (follow cur cs).EndsIn V rest)
    (hc : V cur (cs ++ rest)) : (walkWith follow t cur cs).EndsIn V rest := by
  induction cs generalizing cur with
  | nil => exact hc
  | cons c cs ih =>
    rw [List.cons_append] at hc
    rw [walkWith]
    by_cases hstay : c = [] ∨ c = ['.']
    · rw [if_pos hstay]
      exact ih (h.stay hc hstay)
    rw [if_neg hstay]
    by_cases hup : c = ['.', '.']
    · subst hup
      rw [if_pos rfl]
      exact ih (h.up hc)
    rw [if_neg hup]
    have hname : Named c := ⟨fun heq => hstay (.inl heq), fun heq => hstay (.inr heq), hup⟩
    have child : isSymlink t (cur ++ [c]) = false → V (cur ++ [c]) (cs ++ rest) := h.down hc hname
    rcases hn : t (cur ++ [c]) with _ | (m | ⟨content, m⟩ | target)
    · replace child := child (by simp [isSymlink, hn])
      cases cs with
      | nil => exact child
      | cons c' cs => simp [Resolved.EndsIn]
    · exact ih (child (by simp [isSymlink, hn, Node.isSymlink]))
    · replace child := child (by simp [isSymlink, hn, Node.isSymlink])
      cases cs with
      | nil => exact child
      | cons c' cs => simp [Resolved.EndsIn]
    · refine hf _ _ ?_
      rw [List.append_assoc]
      exact h.link hc hname hn

/-- What a path leads to from a position of a closed set belongs to the set. -/
theorem resolve_endsIn (h : Closed t V) (hc : V cur (cs ++ rest)) :
    (resolve t cur cs).EndsIn V rest := by
  unfold resolve
  generalize maxLinks = links
  induction links generalizing cur cs with
  | zero =>
    change (walkWith (fun _ _ => .failed) t cur cs).EndsIn V rest
    refine walkWith_endsIn h ?_ hc
    exact fun _ _ _ => trivial
  | succ links ih => exact walkWith_endsIn h (fun _ _ hc => ih hc) hc

theorem resolve_visited (h : Closed t V) (hc : V cur cs) : (resolve t cur cs).EndsIn V [] :=
  resolve_endsIn h (by rwa [List.append_nil])

/-- The same links are in both trees. -/
def SameLinks (t u : Files α) : Prop :=
  ∀ l target, u l = some (.symlink target) ↔ t l = some (.symlink target)

theorem isSymlink_iff : isSymlink t l ↔ ∃ target, t l = some (.symlink target) := by
  rcases h : t l with _ | (_ | _ | target) <;> simp [isSymlink, h, Node.isSymlink]

theorem SameLinks.refl (t : Files α) : SameLinks t t := fun _ _ => Iff.rfl

theorem SameLinks.trans {v : Files α} (h : SameLinks t u) (k : SameLinks u v) : SameLinks t v :=
  fun l target => (k l target).trans (h l target)

theorem SameLinks.isSymlink (h : SameLinks t u) (l : Loc) : isSymlink u l = isSymlink t l := by
  rw [Bool.eq_iff_iff, isSymlink_iff, isSymlink_iff]
  exact exists_congr (h l)

theorem sameLinks_put {n : Node α} (hl : FileTree.isSymlink t l = false)
    (hn : n.isSymlink = false) : SameLinks t (put t l n) := by
  intro q target
  rcases eq_or_ne q l with rfl | hne
  · rw [put_self]
    constructor
    · intro heq
      simp [Option.some.inj heq, Node.isSymlink] at hn
    · intro heq
      simp [FileTree.isSymlink, heq, Node.isSymlink] at hl
  · rw [put_other hne]

theorem Closed.congr (h : Closed t V) (hsame : SameLinks t u) : Closed u V where
  stay := h.stay
  up := h.up
  down hV hc hl := h.down hV hc ((hsame.isSymlink _).symm.trans hl)
  link hV hc hl := h.link hV hc ((hsame _ _).mp hl)

/-- A new link leads to where walks may come to. -/
theorem Closed.put_link (h : Closed t V) {target : Text}
    (hmade : ∀ {d c cs}, d ++ [c] = l → V d (c :: cs) → Named c →
      V (if isAbsolute target then [] else d) (components target ++ cs)) :
    Closed (put t l (.symlink target)) V where
  stay := h.stay
  up := h.up
  down {d c cs} hV hc hl := by
    have hne : d ++ [c] ≠ l := by
      rintro rfl
      simp [FileTree.isSymlink, Node.isSymlink] at hl
    refine h.down hV hc ?_
    rwa [FileTree.isSymlink, put_other hne] at hl
  link {d c cs target'} hV hc hl := by
    rcases eq_or_ne (d ++ [c]) l with heq | hne
    · rw [heq, put_self] at hl
      cases hl
      exact hmade heq hV hc
    · rw [put_other hne] at hl
      exact h.link hV hc hl

end Closed

/-- The tree of a list of nodes; the first one at a location counts. -/
def ofList (ns : List (Loc × Node α)) : Files α := fun l =>
  (ns.find? fun p => p.1 = l).map Prod.snd

theorem ofList_mem {ns : List (Loc × Node α)} {l : Loc} {n : Node α} (h : ofList ns l = some n) :
    (l, n) ∈ ns := by
  obtain ⟨p, hp, rfl⟩ := Option.map_eq_some_iff.mp h
  have hl : p.1 = l := by simpa using List.find?_some hp
  exact hl ▸ List.mem_of_find?_eq_some hp

theorem ofList_exists_iff {ns : List (Loc × Node α)} {l : Loc} :
    ofList ns l ≠ none ↔ l ∈ ns.map Prod.fst := by
  constructor
  · intro h
    cases hf : ns.find? fun p => p.1 = l with
    | none => exact absurd (Option.map_eq_none_iff.mpr hf) h
    | some p =>
      have hp : p.1 = l := by simpa using List.find?_some hf
      exact hp ▸ List.mem_map_of_mem (List.mem_of_find?_eq_some hf)
  · intro h hnone
    obtain ⟨p, hp, rfl⟩ := List.mem_map.mp h
    have hmiss := List.find?_eq_none.mp (Option.map_eq_none_iff.mp hnone) p hp
    exact hmiss (decide_eq_true rfl)

theorem ofList_wellFormed {ns : List (Loc × Node α)} (htop : isDir (ofList ns) [])
    (h : ∀ p ∈ ns, isDir (ofList ns) p.1.dropLast) : WellFormed (ofList ns) := by
  refine ⟨htop, fun l n hl => ?_⟩
  cases hf : ns.find? fun p => p.1 = l ++ [n] with
  | none => simp [ofList, hf] at hl
  | some p =>
    have hp : p.1 = l ++ [n] := by simpa using List.find?_some hf
    have hdir := h p (List.mem_of_find?_eq_some hf)
    rwa [hp, List.dropLast_concat] at hdir

end FileTree
