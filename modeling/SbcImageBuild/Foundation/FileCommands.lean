import SbcImageBuild.Foundation.FileTree
import Mathlib.Data.List.DropRight

/-!
# File commands

`mkdir -p`, `ln -sfn`, `cp -a`, output redirection and `chmod` on a file tree. Each command first
resolves its destination to a place and then writes there; the locations written are logged.
-/
namespace FileCommands

open ShellText FileTree

variable {α β γ : Type}

/-- The result is missing when the command failed. -/
structure Outcome (α β : Type) where
  tree : Files α
  written : List Loc
  result : Option β

def done (t : Files α) (b : β) : Outcome α β := ⟨t, [], some b⟩

def fail (t : Files α) : Outcome α β := ⟨t, [], none⟩

def write (t : Files α) (l : Loc) (n : Node α) : Outcome α Unit := ⟨put t l n, [l], some ()⟩

/-- A failure ends the sequence. -/
def Outcome.andThen (o : Outcome α β) (f : β → Files α → Outcome α γ) : Outcome α γ :=
  match o.result with
  | none => ⟨o.tree, o.written, none⟩
  | some b => ⟨(f b o.tree).tree, o.written ++ (f b o.tree).written, (f b o.tree).result⟩

/-- The commands succeed with this tree and this result. -/
def Outcome.Yields (o : Outcome α β) (u : Files α) (b : β) : Prop := o.tree = u ∧ o.result = some b

def Outcome.ignoreFailure (o : Outcome α Unit) : Outcome α Unit := { o with result := some () }

/-- `mkdir -p` of a path below `cur`; the result is the directory it leads to. -/
def mkdirP : Files α → Loc → List Text → Outcome α Loc
  | t, cur, [] => done t cur
  | t, cur, c :: cs =>
    if c = [] ∨ c = ['.'] then mkdirP t cur cs
    else if c = ['.', '.'] then mkdirP t cur.dropLast cs
    else if t (cur ++ [c]) = none then
      (write t (cur ++ [c]) (.dir 0o755)).andThen fun _ t => mkdirP t (cur ++ [c]) cs
    else match resolve t cur [c] with
      | .found l => if isDir t l then mkdirP t l cs else fail t
      | _ => fail t

/-- The directory a path from the top leads to. -/
def directoryAt (t : Files α) (path : List Text) : Option Loc :=
  match resolve t [] path with
  | .found l => if isDir t l then some l else none
  | _ => none

/-- The last component of a destination, with or without a slash behind it. -/
structure Last where
  base : Text
  slash : Bool
  deriving DecidableEq

def Last.path (x : Last) : List Text := if x.slash then [x.base, []] else [x.base]

/-- A name that can be created. -/
def Last.Plain (x : Last) : Prop := x.slash = false ∧ Proper x.base

instance (x : Last) : Decidable x.Plain := inferInstanceAs (Decidable (_ ∧ _))

/-- The last component of a link target, without slashes behind it. -/
def lastName (target : Text) : Text := ((components target).rdropWhile (· = [])).getLastD []

/-- The directory that `ln -n` sees at its destination. A link to one does not count. -/
def linkDir (t : Files α) (d : Loc) (x : Last) : Option Loc :=
  if x.Plain then if isDir t (d ++ [x.base]) then some (d ++ [x.base]) else none
  else match resolve t d x.path with
    | .found l => if isDir t l then some l else none
    | _ => none

/-- `ln -f` does not replace the very file that the target names. -/
def NamesFile (t : Files α) (workDir : Loc) (target : Text) (l : Loc) : Prop :=
  isFile t l ∧
    resolve t (if isAbsolute target then [] else workDir) (components target) = .found l

instance (t : Files α) (workDir : Loc) (target : Text) (l : Loc) :
    Decidable (NamesFile t workDir target l) :=
  inferInstanceAs (Decidable (_ ∧ _))

/-- Where `ln -sfn` puts its link: below a directory, else in place of what is there. The system
makes no link without a target. -/
def linkPlace (t : Files α) (workDir d : Loc) (x : Last) (target : Text) : Option Loc :=
  match linkDir t d x with
  | some q =>
    if Proper (lastName target) ∧ isDir t (q ++ [lastName target]) = false ∧
        ¬ NamesFile t workDir target (q ++ [lastName target]) then
      some (q ++ [lastName target])
    else none
  | none =>
    if x.Plain ∧ target ≠ [] ∧ ¬ NamesFile t workDir target (d ++ [x.base]) then
      some (d ++ [x.base])
    else none

/-- An argument that begins with a minus sign is taken for options, unless it is nothing else. -/
def IsOption (arg : Text) : Prop := arg.head? = some '-' ∧ arg ≠ ['-']

instance : DecidablePred IsOption := fun arg =>
  inferInstanceAs (Decidable (arg.head? = some '-' ∧ arg ≠ ['-']))

/-- What no command of a sequence takes back: directories stay directories, and what is none
does not become one. -/
structure Evolves (t u : Files α) : Prop where
  wellFormed : WellFormed u
  dirs : ∀ l, isDir t l → isDir u l
  others : ∀ l, t l ≠ none → isDir t l = false → u l ≠ none ∧ isDir u l = false

/-- The log names everything that changed. -/
structure Sound (t : Files α) (o : Outcome α β) : Prop where
  frame : ∀ l, l ∉ o.written → o.tree l = t l
  evolves : Evolves t o.tree

/-- What `ln` does when it takes its first argument for options and the destination for the target:
it may make a link elsewhere, or none, or fail. -/
structure LinkOptions (α : Type) where
  run : Files α → Loc → Loc → Last → Text → Outcome α Unit
  sound : ∀ t workDir d x arg, WellFormed t → Sound t (run t workDir d x arg)

def lnSfn (options : LinkOptions α) (t : Files α) (workDir d : Loc) (x : Last) (target : Text) :
    Outcome α Unit :=
  if IsOption target then options.run t workDir d x target
  else match linkPlace t workDir d x target with
  | some l => write t l (.symlink target)
  | none => fail t

/-- The file opened by a redirection, which also creates what a dangling link points to. -/
def redirectPlace (t : Files α) (d : Loc) (x : Last) : Option Loc :=
  match resolve t d x.path with
  | .found l => if isDir t l then none else some l
  | .absent q n => some (q ++ [n])
  | .failed => none

/-- The mode of an existing file stays. -/
def redirect (t : Files α) (d : Loc) (x : Last) (content : α) : Outcome α Unit :=
  match redirectPlace t d x with
  | some l =>
    match t l with
    | some (.file _ mode) => write t l (.file content mode)
    | _ => write t l (.file content 0o644)
  | none => fail t

/-- The file overwritten or created by `cp`, which refuses to write through a dangling link. -/
def overwritePlace (t : Files α) (d : Loc) (x : Last) : Option Loc :=
  match resolve t d x.path with
  | .found l => if isDir t l then none else some l
  | .absent q n => if t (d ++ [x.base]) = none then some (q ++ [n]) else none
  | .failed => none

/-- A destination that leads to a directory gets the file under its own name. -/
def copyPlace (t : Files α) (d : Loc) (x : Last) (name : Text) : Option Loc :=
  match resolve t d x.path with
  | .found l => if isDir t l then overwritePlace t l ⟨name, false⟩ else some l
  | _ => overwritePlace t d x

/-- `cp -a` of a regular file. -/
def cpA (t : Files α) (d : Loc) (x : Last) (name : Text) (content : α) (mode : ℕ) :
    Outcome α Unit :=
  match copyPlace t d x name with
  | some l => write t l (.file content mode)
  | none => fail t

def chmodPlace (t : Files α) (d : Loc) (x : Last) : Option Loc :=
  match resolve t d x.path with
  | .found l => some l
  | _ => none

def chmod (t : Files α) (d : Loc) (x : Last) (f : ℕ → ℕ) : Outcome α Unit :=
  match chmodPlace t d x with
  | some l =>
    match t l with
    | some (.dir mode) => write t l (.dir (f mode))
    | some (.file content mode) => write t l (.file content (f mode))
    | _ => fail t
  | none => fail t

theorem Evolves.refl {t : Files α} (h : WellFormed t) : Evolves t t :=
  ⟨h, fun _ hl => hl, fun _ hl hd => ⟨hl, hd⟩⟩

theorem Evolves.trans {t u v : Files α} (h : Evolves t u) (k : Evolves u v) : Evolves t v where
  wellFormed := k.wellFormed
  dirs := fun l hl => k.dirs l (h.dirs l hl)
  others := fun l hl hd => k.others l (h.others l hl hd).1 (h.others l hl hd).2

theorem done_sound {t : Files α} (h : WellFormed t) (b : β) : Sound t (done t b) :=
  ⟨fun _ _ => rfl, .refl h⟩

theorem fail_sound {t : Files α} (h : WellFormed t) : Sound t (fail t : Outcome α β) :=
  ⟨fun _ _ => rfl, .refl h⟩

theorem andThen_sound {t : Files α} {o : Outcome α β} {f : β → Files α → Outcome α γ}
    (ho : Sound t o) (hf : ∀ b, o.result = some b → Sound o.tree (f b o.tree)) :
    Sound t (o.andThen f) := by
  rw [Outcome.andThen]
  cases hr : o.result with
  | none => exact ⟨ho.frame, ho.evolves⟩
  | some b =>
    have next := hf b hr
    refine ⟨fun l hl => ?_, ho.evolves.trans next.evolves⟩
    rw [List.mem_append, not_or] at hl
    exact (next.frame l hl.2).trans (ho.frame l hl.1)

theorem andThen_evolves {t : Files α} {o : Outcome α β} {f : β → Files α → Outcome α γ}
    (ho : Sound t o) (hf : ∀ b u, Evolves t u → Sound u (f b u)) : Sound t (o.andThen f) :=
  andThen_sound ho fun b _ => hf b o.tree ho.evolves

theorem forall_written_andThen {P : Loc → Prop} {o : Outcome α β} {f : β → Files α → Outcome α γ} :
    (∀ l ∈ (o.andThen f).written, P l) ↔ (∀ l ∈ o.written, P l) ∧
      ∀ b, o.result = some b → ∀ l ∈ (f b o.tree).written, P l := by
  rw [Outcome.andThen]
  cases o.result with
  | none => simp
  | some b => simp [or_imp, forall_and]

theorem Outcome.Yields.done {t : Files α} {b : β} : (done t b).Yields t b := ⟨rfl, rfl⟩

theorem Outcome.Yields.write {t u : Files α} {l : Loc} {n : Node α} (h : put t l n = u) :
    (write t l n).Yields u () := ⟨h, rfl⟩

theorem Outcome.Yields.andThen {u v : Files α} {o : Outcome α β} {b : β}
    {f : β → Files α → Outcome α γ} {c : γ} (ho : o.Yields u b) (hf : (f b u).Yields v c) :
    (o.andThen f).Yields v c := by
  obtain ⟨tree, written, result⟩ := o
  obtain ⟨rfl, rfl⟩ := ho
  exact hf

theorem write_andThen (t : Files α) (l : Loc) (n : Node α) (f : Unit → Files α → Outcome α γ) :
    (write t l n).andThen f =
      ⟨(f () (put t l n)).tree, l :: (f () (put t l n)).written, (f () (put t l n)).result⟩ := rfl

theorem done_andThen (t : Files α) (b : β) (f : β → Files α → Outcome α γ) :
    (done t b).andThen f = f b t := rfl

theorem andThen_assoc {δ : Type} {o : Outcome α β} {f : β → Files α → Outcome α γ}
    {g : γ → Files α → Outcome α δ} :
    (o.andThen f).andThen g = o.andThen fun b t => (f b t).andThen g := by
  rcases o with ⟨tree, written, _ | b⟩
  · rfl
  · simp only [Outcome.andThen]
    rcases hr : (f b tree).result with _ | c
    · rfl
    · simp

theorem andThen_result {o : Outcome α β} {f : β → Files α → Outcome α γ} {c : γ} :
    (o.andThen f).result = some c ↔
      ∃ b, o.result = some b ∧ (f b o.tree).result = some c := by
  rw [Outcome.andThen]
  cases o.result with
  | none => simp
  | some b => simp

theorem andThen_frame {t : Files α} {o : Outcome α β} {f : β → Files α → Outcome α γ} {l : Loc}
    (ho : l ∉ o.written → o.tree l = t l)
    (hf : ∀ b u, l ∉ (f b u).written → (f b u).tree l = u l) (hl : l ∉ (o.andThen f).written) :
    (o.andThen f).tree l = t l := by
  rw [Outcome.andThen] at hl ⊢
  cases hr : o.result with
  | none =>
    rw [hr] at hl
    exact ho hl
  | some b =>
    rw [hr] at hl
    rw [List.mem_append, not_or] at hl
    exact (hf b o.tree hl.2).trans (ho hl.1)

theorem ignoreFailure_sound {t : Files α} {o : Outcome α Unit} (h : Sound t o) :
    Sound t o.ignoreFailure := ⟨h.frame, h.evolves⟩

/-- A write into a directory that keeps the kind of what is there. -/
theorem write_sound {t : Files α} (h : WellFormed t) {l : Loc} {n : Node α}
    (hp : isDir t l.dropLast) (hk : t l = none ∨ isDir t l = n.isDir) : Sound t (write t l n) := by
  have hdir : ∀ q, isDir t q → isDir (put t l n) q := by
    intro q hq
    rcases eq_or_ne q l with rfl | hne
    · rcases hk with hnone | hk
      · exact absurd hnone (isDir_exists hq)
      · rw [isDir_put_self, ← hk]
        exact hq
    · rwa [isDir_put_other hne]
  refine ⟨fun q hq => put_other (by simpa [write] using hq), ⟨⟨hdir _ h.top, ?_⟩, hdir, ?_⟩⟩
  · intro q name hq
    rcases eq_or_ne (q ++ [name]) l with rfl | hne
    · rw [List.dropLast_concat] at hp
      exact hdir q hp
    · change put t l n (q ++ [name]) ≠ none at hq
      rw [put_other hne] at hq
      exact hdir q (h.parent q name hq)
  · intro q hq hnot
    change put t l n q ≠ none ∧ isDir (put t l n) q = false
    rcases eq_or_ne q l with rfl | hne
    · rcases hk with hnone | hk
      · exact absurd hnone hq
      · rw [put_self, isDir_put_self, ← hk]
        exact ⟨by simp, hnot⟩
    · rw [put_other hne, isDir_put_other hne]
      exact ⟨hq, hnot⟩

theorem directoryAt_eq_some {t : Files α} {path : List Text} {d : Loc} :
    directoryAt t path = some d ↔ resolve t [] path = .found d ∧ isDir t d := by
  rw [directoryAt]
  cases resolve t [] path with
  | found l =>
    constructor
    · intro h
      obtain ⟨hdir, heq⟩ := Option.ite_none_right_eq_some.mp h
      cases heq
      exact ⟨rfl, hdir⟩
    · rintro ⟨heq, hdir⟩
      cases heq
      exact if_pos hdir
  | absent q n => simp
  | failed => simp

theorem directoryAt_dir {t : Files α} {path : List Text} {d : Loc}
    (h : directoryAt t path = some d) : isDir t d :=
  (directoryAt_eq_some.mp h).2

/-- A place for a file or a link: in a directory, and none itself. -/
def FreePlace (t : Files α) (l : Loc) : Prop := isDir t l.dropLast ∧ isDir t l = false

theorem write_free_sound {t : Files α} (h : WellFormed t) {l : Loc} {n : Node α}
    (hl : FreePlace t l) (hn : n.isDir = false) : Sound t (write t l n) :=
  write_sound h hl.1 (.inr (hl.2.trans hn.symm))

theorem freePlace_missing {t : Files α} {d : Loc} {n : Text} (hd : isDir t d)
    (hn : t (d ++ [n]) = none) : FreePlace t (d ++ [n]) := by
  refine ⟨by rwa [List.dropLast_concat], ?_⟩
  simp [isDir, hn]

theorem freePlace_child {t : Files α} {d : Loc} {n : Text} (hd : isDir t d)
    (hn : isDir t (d ++ [n]) = false) : FreePlace t (d ++ [n]) :=
  ⟨by rwa [List.dropLast_concat], hn⟩

/-- A place for a file is no link either. -/
def FilePlace (t : Files α) (l : Loc) : Prop := FreePlace t l ∧ isSymlink t l = false

theorem filePlace_missing {t : Files α} {d : Loc} {n : Text} (hd : isDir t d)
    (hn : t (d ++ [n]) = none) : FilePlace t (d ++ [n]) :=
  ⟨freePlace_missing hd hn, by simp [isSymlink, hn]⟩

theorem filePlace_existing {t : Files α} (h : WellFormed t) {l : Loc}
    (hl : Lands t (.found l)) (hd : isDir t l = false) : FilePlace t l :=
  ⟨⟨h.parent_dir hl.1, hd⟩, hl.2⟩

section Places

variable {t : Files α} {d : Loc} {x : Last} {l : Loc}

/-! Each place comes from a resolution of the destination. -/

theorem redirectPlace_cases (hl : redirectPlace t d x = some l) :
    resolve t d x.path = .found l ∧ isDir t l = false ∨
      ∃ q n, resolve t d x.path = .absent q n ∧ l = q ++ [n] := by
  rw [redirectPlace] at hl
  cases hr : resolve t d x.path with
  | found q =>
    obtain ⟨hdir, rfl⟩ : isDir t q = false ∧ q = l := by simpa [hr] using hl
    exact .inl ⟨rfl, hdir⟩
  | absent q n =>
    rw [hr] at hl
    exact .inr ⟨q, n, rfl, (Option.some.inj hl).symm⟩
  | failed => simp [hr] at hl

theorem overwritePlace_redirect (hl : overwritePlace t d x = some l) :
    redirectPlace t d x = some l := by
  rw [overwritePlace] at hl
  rw [redirectPlace]
  cases hr : resolve t d x.path with
  | found q => simpa [hr] using hl
  | absent q n =>
    rw [hr] at hl
    exact (Option.ite_none_right_eq_some.mp hl).2
  | failed => simp [hr] at hl

theorem copyPlace_cases {name : Text} (hl : copyPlace t d x name = some l) :
    resolve t d x.path = .found l ∧ isDir t l = false ∨
      (∃ q, resolve t d x.path = .found q ∧ isDir t q ∧
        redirectPlace t q ⟨name, false⟩ = some l) ∨
      redirectPlace t d x = some l := by
  rw [copyPlace] at hl
  cases hr : resolve t d x.path with
  | found q =>
    rw [hr] at hl
    cases hq : isDir t q with
    | true =>
      have hplace : overwritePlace t q ⟨name, false⟩ = some l := by simpa [hq] using hl
      exact .inr (.inl ⟨q, rfl, hq, overwritePlace_redirect hplace⟩)
    | false =>
      obtain rfl : q = l := by simpa [hq] using hl
      exact .inl ⟨rfl, hq⟩
  | absent q n =>
    rw [hr] at hl
    exact .inr (.inr (overwritePlace_redirect hl))
  | failed =>
    rw [hr] at hl
    exact .inr (.inr (overwritePlace_redirect hl))

theorem chmodPlace_eq_some : chmodPlace t d x = some l ↔ resolve t d x.path = .found l := by
  rw [chmodPlace]
  cases resolve t d x.path <;> simp

theorem linkDir_cases {q : Loc} (hq : linkDir t d x = some q) :
    isDir t q ∧ (q = d ++ [x.base] ∨ resolve t d x.path = .found q) := by
  rw [linkDir] at hq
  split at hq
  · obtain ⟨hdir, heq⟩ := Option.ite_none_right_eq_some.mp hq
    cases heq
    exact ⟨hdir, .inl rfl⟩
  · split at hq
    · rename_i r hr
      obtain ⟨hdir, heq⟩ := Option.ite_none_right_eq_some.mp hq
      cases heq
      exact ⟨hdir, .inr hr⟩
    · cases hq

theorem linkPlace_cases {workDir : Loc} {target : Text}
    (hl : linkPlace t workDir d x target = some l) :
    (∃ q n, linkDir t d x = some q ∧ l = q ++ [n] ∧ isDir t l = false) ∨
      linkDir t d x = none ∧ x.Plain ∧ l = d ++ [x.base] := by
  rw [linkPlace] at hl
  cases hq : linkDir t d x with
  | some q =>
    rw [hq] at hl
    obtain ⟨⟨-, hnot, -⟩, heq⟩ := Option.ite_none_right_eq_some.mp hl
    cases heq
    exact .inl ⟨q, _, rfl, rfl, hnot⟩
  | none =>
    rw [hq] at hl
    obtain ⟨⟨hplain, -⟩, heq⟩ := Option.ite_none_right_eq_some.mp hl
    cases heq
    exact .inr ⟨rfl, hplain, rfl⟩

theorem redirectPlace_file (h : WellFormed t) (hd : isDir t d)
    (hl : redirectPlace t d x = some l) : FilePlace t l := by
  have lands := resolve_lands h hd x.path
  rcases redirectPlace_cases hl with ⟨hr, hdir⟩ | ⟨q, n, hr, rfl⟩
  · rw [hr] at lands
    exact filePlace_existing h lands hdir
  · rw [hr] at lands
    exact filePlace_missing lands.1 lands.2

theorem copyPlace_file {name : Text} (h : WellFormed t) (hd : isDir t d)
    (hl : copyPlace t d x name = some l) : FilePlace t l := by
  rcases copyPlace_cases hl with ⟨hr, hdir⟩ | ⟨q, -, hq, hplace⟩ | hplace
  · have lands := resolve_lands h hd x.path
    rw [hr] at lands
    exact filePlace_existing h lands hdir
  · exact redirectPlace_file h hq hplace
  · exact redirectPlace_file h hd hplace

theorem linkPlace_free {workDir : Loc} {target : Text} (hd : isDir t d)
    (hl : linkPlace t workDir d x target = some l) : FreePlace t l := by
  rcases linkPlace_cases hl with ⟨q, n, hq, rfl, hnot⟩ | ⟨hnone, hplain, rfl⟩
  · exact freePlace_child (linkDir_cases hq).1 hnot
  · apply freePlace_child hd
    by_contra hdir
    rw [Bool.not_eq_false] at hdir
    simp [linkDir, hplain, hdir] at hnone

end Places

section Commands

variable {t : Files α} {d : Loc} {x : Last}

theorem redirect_write (content : α) {l : Loc} (hl : redirectPlace t d x = some l) :
    ∃ mode, redirect t d x content = write t l (.file content mode) := by
  rw [redirect, hl]
  dsimp only
  split
  · exact ⟨_, rfl⟩
  · exact ⟨_, rfl⟩

/-- `chmod` keeps the kind of the file. -/
theorem chmod_cases (t : Files α) (d : Loc) (x : Last) (f : ℕ → ℕ) :
    chmod t d x f = fail t ∨ ∃ l n, resolve t d x.path = .found l ∧ isDir t l = n.isDir ∧
      n.isSymlink = false ∧ chmod t d x f = write t l n := by
  rw [chmod]
  cases hl : chmodPlace t d x with
  | none => exact .inl rfl
  | some l =>
    have hr := chmodPlace_eq_some.mp hl
    dsimp only
    cases hn : t l with
    | none => exact .inl rfl
    | some node =>
      cases node with
      | dir m => exact .inr ⟨l, .dir (f m), hr, by simp [isDir, hn, Node.isDir], rfl, rfl⟩
      | file content m =>
        exact .inr ⟨l, .file content (f m), hr, by simp [isDir, hn, Node.isDir], rfl, rfl⟩
      | symlink target => exact .inl rfl

theorem lnSfn_sound {options : LinkOptions α} {workDir : Loc} {target : Text} (h : WellFormed t)
    (hd : isDir t d) : Sound t (lnSfn options t workDir d x target) := by
  rw [lnSfn]
  split
  · exact options.sound t workDir d x target h
  · cases hl : linkPlace t workDir d x target with
    | some l => exact write_free_sound h (linkPlace_free hd hl) rfl
    | none => exact fail_sound h

theorem redirect_frame {content : α} {l : Loc} (hl : l ∉ (redirect t d x content).written) :
    (redirect t d x content).tree l = t l := by
  cases hp : redirectPlace t d x with
  | some q =>
    obtain ⟨mode, hw⟩ := redirect_write content hp
    rw [hw] at hl ⊢
    exact put_other (by simpa [write] using hl)
  | none =>
    rw [redirect, hp]
    rfl

theorem redirect_sound {content : α} (h : WellFormed t) (hd : isDir t d) :
    Sound t (redirect t d x content) := by
  cases hl : redirectPlace t d x with
  | some l =>
    obtain ⟨mode, hw⟩ := redirect_write content hl
    rw [hw]
    exact write_free_sound h (redirectPlace_file h hd hl).1 rfl
  | none =>
    rw [redirect, hl]
    exact fail_sound h

theorem cpA_sound {name : Text} {content : α} {mode : ℕ} (h : WellFormed t) (hd : isDir t d) :
    Sound t (cpA t d x name content mode) := by
  rw [cpA]
  cases hl : copyPlace t d x name with
  | some l => exact write_free_sound h (copyPlace_file h hd hl).1 rfl
  | none => exact fail_sound h

theorem chmod_sound {f : ℕ → ℕ} (h : WellFormed t) (hd : isDir t d) :
    Sound t (chmod t d x f) := by
  rcases chmod_cases t d x f with hfail | ⟨l, n, hr, hkind, -, hw⟩
  · rw [hfail]
    exact fail_sound h
  · have lands := resolve_lands h hd x.path
    rw [hr] at lands
    rw [hw]
    exact write_sound h (h.parent_dir lands.1) (.inr hkind)

/-- `mkdir -p` ends in a directory. -/
theorem mkdirP_sound (h : WellFormed t) {cur : Loc} (hc : isDir t cur) (cs : List Text) :
    Sound t (mkdirP t cur cs) ∧
      ∀ l, (mkdirP t cur cs).result = some l → isDir (mkdirP t cur cs).tree l := by
  induction cs generalizing t cur with
  | nil =>
    refine ⟨done_sound h cur, fun l hl => ?_⟩
    cases hl
    exact hc
  | cons c cs ih =>
    rw [mkdirP]
    by_cases hstay : c = [] ∨ c = ['.']
    · rw [if_pos hstay]
      exact ih h hc
    rw [if_neg hstay]
    by_cases hup : c = ['.', '.']
    · rw [if_pos hup]
      exact ih h (h.parent_dir (isDir_exists hc))
    rw [if_neg hup]
    by_cases hnone : t (cur ++ [c]) = none
    · have made : Sound t (write t (cur ++ [c]) (.dir 0o755)) :=
        write_sound h (by rwa [List.dropLast_concat]) (.inl hnone)
      have next := ih made.evolves.wellFormed (isDir_put_self t (cur ++ [c]) (.dir 0o755))
      rw [if_pos hnone]
      exact ⟨andThen_sound made fun _ _ => next.1, next.2⟩
    rw [if_neg hnone]
    cases hr : resolve t cur [c] with
    | found l =>
      dsimp only
      split
      · rename_i hdir
        exact ih h hdir
      · exact ⟨fail_sound h, fun l hl => by cases hl⟩
    | absent q n => exact ⟨fail_sound h, fun l hl => by cases hl⟩
    | failed => exact ⟨fail_sound h, fun l hl => by cases hl⟩

end Commands

/-! Where the commands act, and which links they leave. -/

section Visits

variable {t : Files α} {d l : Loc} {x : Last} {V W : Loc → List Text → Prop}

theorem redirectPlace_visited (h : Closed t V) (hd : V d x.path)
    (hl : redirectPlace t d x = some l) : V l [] := by
  have ends := resolve_visited h hd
  rcases redirectPlace_cases hl with ⟨hr, -⟩ | ⟨q, n, hr, rfl⟩
  · rwa [hr] at ends
  · rwa [hr] at ends

/-- A copy goes to its destination, or under its own name into the directory there. -/
theorem copyPlace_visited {name : Text} (h : Closed t V) (hd : V d x.path) (k : Closed t W)
    (hinside : ∀ q, V q [] → W q [name]) (hl : copyPlace t d x name = some l) :
    V l [] ∨ W l [] := by
  have ends := resolve_visited h hd
  rcases copyPlace_cases hl with ⟨hr, -⟩ | ⟨q, hr, -, hplace⟩ | hplace
  · rw [hr] at ends
    exact .inl ends
  · rw [hr] at ends
    exact .inr (redirectPlace_visited k (hinside q ends) hplace)
  · exact .inl (redirectPlace_visited h hd hplace)

theorem chmodPlace_visited (h : Closed t V) (hd : V d x.path) (hl : chmodPlace t d x = some l) :
    V l [] := by
  have ends := resolve_visited h hd
  rwa [chmodPlace_eq_some.mp hl] at ends

/-- A plain name is not followed, unless a directory stands there. -/
theorem linkPlace_where {workDir : Loc} {target : Text}
    (hl : linkPlace t workDir d x target = some l) :
    (x.Plain ∧ (l = d ++ [x.base] ∨ l = d ++ [x.base, lastName target])) ∨
      ¬ x.Plain ∧ ∃ q, resolve t d x.path = .found q ∧ l = q ++ [lastName target] := by
  rw [linkPlace] at hl
  by_cases hx : x.Plain
  · refine .inl ⟨hx, ?_⟩
    rw [linkDir, if_pos hx] at hl
    split at hl
    · rename_i q hq
      obtain ⟨-, hdir⟩ := Option.ite_none_right_eq_some.mp hq
      obtain ⟨-, heq⟩ := Option.ite_none_right_eq_some.mp hl
      cases hdir
      cases heq
      exact .inr (List.append_assoc d [x.base] [lastName target])
    · obtain ⟨-, heq⟩ := Option.ite_none_right_eq_some.mp hl
      cases heq
      exact .inl rfl
  · refine .inr ⟨hx, ?_⟩
    split at hl
    · rename_i q hq
      rw [linkDir, if_neg hx] at hq
      obtain ⟨-, heq⟩ := Option.ite_none_right_eq_some.mp hl
      cases heq
      split at hq
      · rename_i r hr
        obtain ⟨-, heq⟩ := Option.ite_none_right_eq_some.mp hq
        cases heq
        exact ⟨_, hr, rfl⟩
      · cases hq
    · obtain ⟨⟨hplain, -⟩, -⟩ := Option.ite_none_right_eq_some.mp hl
      exact absurd hplain hx

theorem redirect_sameLinks (h : WellFormed t) (hd : isDir t d) (content : α) :
    SameLinks t (redirect t d x content).tree := by
  cases hl : redirectPlace t d x with
  | some l =>
    obtain ⟨mode, hw⟩ := redirect_write content hl
    rw [hw]
    exact sameLinks_put (redirectPlace_file h hd hl).2 rfl
  | none =>
    rw [redirect, hl]
    exact .refl t

theorem cpA_sameLinks (h : WellFormed t) (hd : isDir t d) (name : Text) (content : α) (mode : ℕ) :
    SameLinks t (cpA t d x name content mode).tree := by
  rw [cpA]
  cases hl : copyPlace t d x name with
  | some l => exact sameLinks_put (copyPlace_file h hd hl).2 rfl
  | none => exact .refl t

theorem chmod_sameLinks (h : WellFormed t) (hd : isDir t d) (f : ℕ → ℕ) :
    SameLinks t (chmod t d x f).tree := by
  rcases chmod_cases t d x f with hfail | ⟨l, n, hr, -, hkind, hw⟩
  · rw [hfail]
    exact .refl t
  · have lands := resolve_lands h hd x.path
    rw [hr] at lands
    rw [hw]
    exact sameLinks_put lands.2 hkind

theorem andThen_tree {P : Files α → Prop} {o : Outcome α β} {f : β → Files α → Outcome α γ}
    (ho : P o.tree) (hf : ∀ b, P (f b o.tree).tree) : P (o.andThen f).tree := by
  rw [Outcome.andThen]
  cases o.result with
  | none => exact ho
  | some b => exact hf b

/-- `mkdir -p` makes only what was missing at the positions of the set. -/
theorem mkdirP_visited (h : Closed t V) {cur : Loc} {cs : List Text} (hc : V cur cs) :
    (∀ q ∈ (mkdirP t cur cs).written, t q = none ∧ ∃ rest, V q rest) ∧
      SameLinks t (mkdirP t cur cs).tree := by
  induction cs generalizing t cur with
  | nil => exact ⟨by simp [mkdirP, done], .refl t⟩
  | cons c cs ih =>
    rw [mkdirP]
    by_cases hstay : c = [] ∨ c = ['.']
    · rw [if_pos hstay]
      exact ih h (h.stay hc hstay)
    rw [if_neg hstay]
    by_cases hup : c = ['.', '.']
    · subst hup
      rw [if_pos rfl]
      exact ih h (h.up hc)
    rw [if_neg hup]
    have hname : Named c := ⟨fun heq => hstay (.inl heq), fun heq => hstay (.inr heq), hup⟩
    by_cases hnone : t (cur ++ [c]) = none
    · have hlink : isSymlink t (cur ++ [c]) = false := by simp [isSymlink, hnone]
      have child := h.down hc hname hlink
      have same : SameLinks t (put t (cur ++ [c]) (.dir 0o755)) := sameLinks_put hlink rfl
      obtain ⟨hwritten, hsame⟩ := ih (h.congr same) child
      rw [if_pos hnone, write_andThen]
      refine ⟨fun q hq => ?_, same.trans hsame⟩
      rcases List.mem_cons.mp hq with rfl | hq
      · exact ⟨hnone, cs, child⟩
      · obtain ⟨hmissing, hV⟩ := hwritten q hq
        have hne : q ≠ cur ++ [c] := by
          rintro rfl
          simp at hmissing
        rw [put_other hne] at hmissing
        exact ⟨hmissing, hV⟩
    rw [if_neg hnone]
    have ends := resolve_endsIn h (show V cur ([c] ++ cs) from hc)
    cases hr : resolve t cur [c] with
    | found q =>
      rw [hr] at ends
      dsimp only
      split
      · exact ih h ends
      · exact ⟨by simp [fail], .refl t⟩
    | absent q n => exact ⟨by simp [fail], .refl t⟩
    | failed => exact ⟨by simp [fail], .refl t⟩

end Visits

/-! Without links on the way, the destination of a command is the location its path spells. -/

section Direct

variable {t : Files α}

/-- Only directories, or nothing yet, on a path below `cur`. -/
def Passable (t : Files α) (cur : Loc) (cs : List Text) : Prop :=
  ∀ p, p <+: cs → t (cur ++ p) = none ∨ isDir t (cur ++ p)

/-- The tree with the missing directories of a path below `cur`. -/
def withDirs (t : Files α) (cur : Loc) (cs : List Text) : Files α := fun l =>
  if t l = none ∧ cur <+: l ∧ l <+: cur ++ cs then some (.dir 0o755) else t l

theorem withDirs_nil {cur : Loc} (hc : t cur ≠ none) : withDirs t cur [] = t := by
  funext l
  rw [withDirs, List.append_nil]
  by_cases h : t l = none ∧ cur <+: l ∧ l <+: cur
  · obtain rfl : cur = l := h.2.1.eq_of_length_le h.2.2.length_le
    exact absurd h.1 hc
  · rw [if_neg h]

/-- A location on the path is `cur` or lies at or below the next name. -/
theorem on_path_cons {cur l : Loc} {c : Text} {cs : List Text} (hl : l ≠ cur) :
    cur <+: l ∧ l <+: cur ++ c :: cs ↔ cur ++ [c] <+: l ∧ l <+: cur ++ [c] ++ cs := by
  rw [List.append_assoc, List.singleton_append]
  constructor
  · rintro ⟨⟨p, rfl⟩, hp⟩
    rw [List.prefix_append_right_inj] at hp
    cases p with
    | nil => exact absurd (List.append_nil cur) hl
    | cons a p =>
      obtain ⟨rfl, -⟩ := List.cons_prefix_cons.mp hp
      refine ⟨⟨p, by simp⟩, ?_⟩
      rwa [List.prefix_append_right_inj]
  · rintro ⟨hp, hl⟩
    exact ⟨(List.prefix_append cur [c]).trans hp, hl⟩

theorem withDirs_step {cur : Loc} {c : Text} {cs : List Text} (hc : t cur ≠ none)
    (hn : t (cur ++ [c]) ≠ none) : withDirs t cur (c :: cs) = withDirs t (cur ++ [c]) cs := by
  funext l
  rw [withDirs, withDirs]
  rcases eq_or_ne l cur with rfl | hl
  · rw [if_neg (fun h => hc h.1), if_neg (fun h => hc h.1)]
  · simp only [on_path_cons hl]

theorem withDirs_made {cur : Loc} {c : Text} {cs : List Text} (hc : t cur ≠ none)
    (hn : t (cur ++ [c]) = none) : withDirs t cur (c :: cs) =
      withDirs (put t (cur ++ [c]) (.dir 0o755)) (cur ++ [c]) cs := by
  funext l
  rw [withDirs, withDirs]
  rcases eq_or_ne l (cur ++ [c]) with rfl | hl
  · simp [hn]
  · rw [put_other hl]
    rcases eq_or_ne l cur with rfl | hcur
    · rw [if_neg (fun h => hc h.1), if_neg (fun h => hc h.1)]
    · simp only [on_path_cons hcur]

/-- A destination is none of the directories on the way to it. -/
theorem withDirs_child {cur : Loc} {cs : List Text} {n : Text} :
    withDirs t cur cs (cur ++ (cs ++ [n])) = t (cur ++ (cs ++ [n])) := by
  rw [withDirs, if_neg]
  rintro ⟨-, -, hpre⟩
  rw [List.prefix_append_right_inj] at hpre
  exact not_child_prefix cs n hpre

theorem mkdirP_step {cur : Loc} {c : Text} {cs : List Text} (hc : Proper c) :
    mkdirP t cur (c :: cs) =
      if t (cur ++ [c]) = none then
        (write t (cur ++ [c]) (.dir 0o755)).andThen fun _ t => mkdirP t (cur ++ [c]) cs
      else match resolve t cur [c] with
        | .found l => if isDir t l then mkdirP t l cs else fail t
        | _ => fail t := by
  obtain ⟨hne, hdot, hdotdot, -⟩ := hc
  rw [mkdirP, if_neg (by simp [hne, hdot]), if_neg hdotdot]

/-- `mkdir -p` walks through an existing directory. -/
theorem mkdirP_dir {cur : Loc} {c : Text} {cs : List Text} (hc : Proper c)
    (hd : isDir t (cur ++ [c])) : mkdirP t cur (c :: cs) = mkdirP t (cur ++ [c]) cs := by
  have hne := isDir_exists hd
  rw [mkdirP_step hc, if_neg hne, resolve_name hc (isDir_not_symlink hd), if_neg hne]
  exact if_pos hd

theorem mkdirP_dirs {cur : Loc} {ps : List Text} (hp : ∀ p ∈ ps, Proper p)
    (hd : ∀ q, q <+: ps → isDir t (cur ++ q)) (cs : List Text) :
    mkdirP t cur (ps ++ cs) = mkdirP t (cur ++ ps) cs := by
  induction ps generalizing cur with
  | nil => simp
  | cons p ps ih =>
    have hdir : isDir t (cur ++ [p]) := hd [p] (by simp)
    rw [List.cons_append, mkdirP_dir (hp p (by simp)) hdir,
      ih (fun q hq => hp q (List.mem_cons_of_mem p hq)), List.append_assoc, List.singleton_append]
    intro q hq
    rw [List.append_assoc, List.singleton_append]
    exact hd (p :: q) (List.cons_prefix_cons.mpr ⟨rfl, hq⟩)

/-- `mkdir -p` of a passable path makes the missing directories and nothing else. -/
theorem mkdirP_passable (h : WellFormed t) {cur : Loc} (hc : isDir t cur) {cs : List Text}
    (hp : ∀ c ∈ cs, Proper c) (pass : Passable t cur cs) :
    (mkdirP t cur cs).tree = withDirs t cur cs ∧
      (mkdirP t cur cs).result = some (cur ++ cs) := by
  induction cs generalizing t cur with
  | nil =>
    rw [withDirs_nil (isDir_exists hc), List.append_nil]
    exact ⟨rfl, rfl⟩
  | cons c cs ih =>
    have hproper := hp c (by simp)
    have hrest : ∀ d ∈ cs, Proper d := fun d hd => hp d (List.mem_cons_of_mem c hd)
    rcases pass [c] (by simp) with hnone | hdir
    · rw [mkdirP_step hproper, if_pos hnone, write_andThen, withDirs_made (isDir_exists hc) hnone]
      have made : Sound t (write t (cur ++ [c]) (.dir 0o755)) :=
        write_sound h (by rwa [List.dropLast_concat]) (.inl hnone)
      have empty : Passable (put t (cur ++ [c]) (.dir 0o755)) (cur ++ [c]) cs := by
        intro p hp
        rcases eq_or_ne p [] with rfl | hne
        · rw [List.append_nil]
          exact .inr (isDir_put_self _ _ _)
        · left
          rw [put_other (by simpa using hne)]
          exact h.below (by simp [isDir, hnone]) hne
      have next := ih (t := put t (cur ++ [c]) (.dir 0o755)) made.evolves.wellFormed
        (isDir_put_self _ _ _) hrest empty
      simpa using next
    · rw [mkdirP_dir hproper hdir, withDirs_step (isDir_exists hc) (isDir_exists hdir)]
      have pass' : Passable t (cur ++ [c]) cs := by
        intro p hp
        rw [List.append_assoc, List.singleton_append]
        exact pass (c :: p) (List.cons_prefix_cons.mpr ⟨rfl, hp⟩)
      simpa using ih h hdir hrest pass'

/-- Without links, `mkdir -p` succeeds only on a passable path. -/
theorem passable_of_mkdirP (h : WellFormed t) {cur : Loc} (hc : isDir t cur) {cs : List Text}
    (hp : ∀ c ∈ cs, Proper c) (hl : ∀ p, p <+: cs → isSymlink t (cur ++ p) = false)
    (hr : (mkdirP t cur cs).result ≠ none) : Passable t cur cs := by
  induction cs generalizing cur with
  | nil =>
    intro p hp
    rw [List.prefix_nil.mp hp, List.append_nil]
    exact .inr hc
  | cons c cs ih =>
    have hproper := hp c List.mem_cons_self
    have hlink : isSymlink t (cur ++ [c]) = false := hl [c] (by simp)
    rw [mkdirP_step hproper] at hr
    by_cases hnone : t (cur ++ [c]) = none
    · intro p hpre
      rcases List.prefix_cons_iff.mp hpre with rfl | ⟨q, rfl, -⟩
      · rw [List.append_nil]
        exact .inr hc
      · left
        have hdir : ¬ isDir t (cur ++ [c]) := fun hdir => isDir_exists hdir hnone
        rcases eq_or_ne q [] with rfl | hq
        · exact hnone
        · have hbelow := h.below hdir hq
          rwa [List.append_assoc, List.singleton_append] at hbelow
    · rw [if_neg hnone, resolve_name hproper hlink, if_neg hnone] at hr
      by_cases hdir : isDir t (cur ++ [c])
      · have hrest := ih hdir (fun d hd => hp d (List.mem_cons_of_mem c hd))
          (fun q hq => by simpa using hl (c :: q) (List.cons_prefix_cons.mpr ⟨rfl, hq⟩))
          (by simpa [hdir] using hr)
        intro p hpre
        rcases List.prefix_cons_iff.mp hpre with rfl | ⟨q, rfl, hq⟩
        · rw [List.append_nil]
          exact .inr hc
        · simpa using hrest q hq
      · simp [hdir, fail] at hr

/-- `mkdir -p` leaves alone what exists. -/
theorem mkdirP_keeps {cur : Loc} {cs : List Text} {q : Loc} (hq : t q ≠ none) :
    (mkdirP t cur cs).tree q = t q := by
  induction cs generalizing t cur with
  | nil => rfl
  | cons c cs ih =>
    rw [mkdirP]
    by_cases hstay : c = [] ∨ c = ['.']
    · rw [if_pos hstay]
      exact ih hq
    rw [if_neg hstay]
    by_cases hup : c = ['.', '.']
    · rw [if_pos hup]
      exact ih hq
    rw [if_neg hup]
    by_cases hnone : t (cur ++ [c]) = none
    · have hne : q ≠ cur ++ [c] := fun heq => hq (heq ▸ hnone)
      have hput : put t (cur ++ [c]) (.dir 0o755) q = t q := put_other hne
      rw [if_pos hnone, write_andThen]
      exact (ih (hput ▸ hq)).trans hput
    rw [if_neg hnone]
    cases resolve t cur [c] with
    | found l =>
      dsimp only
      split
      · exact ih hq
      · rfl
    | absent d n => rfl
    | failed => rfl

theorem directoryAt_direct {l : Loc} (hp : ∀ n ∈ l, Proper n) (hl : Direct t l)
    (hd : isDir t l) : directoryAt t l = some l := by
  rcases resolve_direct hp hl with hfound | ⟨hnone, -⟩
  · exact directoryAt_eq_some.mpr ⟨hfound, hd⟩
  · exact absurd hnone (isDir_exists hd)

theorem directoryAt_none {l : Loc} (hp : ∀ n ∈ l, Proper n) (hl : Direct t l)
    (hd : ¬ isDir t l) : directoryAt t l = none := by
  rcases resolve_direct hp hl with hfound | ⟨-, hstat⟩
  · simp [directoryAt, hfound, hd]
  · rw [stat] at hstat
    cases hr : resolve t [] l with
    | found m =>
      rw [hr] at hstat
      have hdir : ¬ isDir t m := fun hdir => isDir_exists hdir hstat
      simp [directoryAt, hr, hdir]
    | absent d n => simp [directoryAt, hr]
    | failed => simp [directoryAt, hr]

/-- What a copied file may replace directly. -/
def FileOrNothing (t : Files α) (l : Loc) : Prop := isDir t l = false ∧ isSymlink t l = false

theorem resolve_last {d : Loc} {x : Last} (hx : x.Plain)
    (hl : isSymlink t (d ++ [x.base]) = false) : resolve t d x.path =
      if t (d ++ [x.base]) = none then .absent d x.base else .found (d ++ [x.base]) := by
  rw [Last.path, hx.1]
  exact resolve_name hx.2 hl

theorem redirect_direct (content : α) {d : Loc} {x : Last} (hx : x.Plain)
    (hl : isSymlink t (d ++ [x.base]) = false) :
    redirect t d x content = match t (d ++ [x.base]) with
      | none => write t (d ++ [x.base]) (.file content 0o644)
      | some (.file _ mode) => write t (d ++ [x.base]) (.file content mode)
      | some _ => fail t := by
  have hr := resolve_last hx hl
  rcases hn : t (d ++ [x.base]) with _ | (m | ⟨old, m⟩ | target)
  · rw [if_pos hn] at hr
    simp [redirect, redirectPlace, hr, hn]
  · simp [redirect, redirectPlace, hr, hn, isDir, Node.isDir]
  · simp [redirect, redirectPlace, hr, hn, isDir, Node.isDir]
  · simp [isSymlink, hn, Node.isSymlink] at hl

theorem copyPlace_direct {d : Loc} {x : Last} {name : Text} (hx : x.Plain)
    (hl : FileOrNothing t (d ++ [x.base])) : copyPlace t d x name = some (d ++ [x.base]) := by
  have hr := resolve_last hx hl.2
  unfold copyPlace overwritePlace
  by_cases hnone : t (d ++ [x.base]) = none
  · rw [if_pos hnone] at hr
    simp [hr, hnone]
  · rw [if_neg hnone] at hr
    simp [hr, hl.1]

theorem cpA_direct {d : Loc} {x : Last} {name : Text} {content : α} {mode : ℕ} (hx : x.Plain)
    (hl : FileOrNothing t (d ++ [x.base])) :
    cpA t d x name content mode = write t (d ++ [x.base]) (.file content mode) := by
  rw [cpA, copyPlace_direct hx hl]

theorem chmod_file {d : Loc} {x : Last} {f : ℕ → ℕ} {content : α} {mode : ℕ} (hx : x.Plain)
    (hl : t (d ++ [x.base]) = some (.file content mode)) :
    chmod t d x f = write t (d ++ [x.base]) (.file content (f mode)) := by
  have hlink : isSymlink t (d ++ [x.base]) = false := by simp [isSymlink, hl, Node.isSymlink]
  have hr := resolve_last hx hlink
  rw [if_neg (by simp [hl])] at hr
  simp [chmod, chmodPlace, hr, hl]

theorem lnSfn_direct {options : LinkOptions α} {workDir d : Loc} {x : Last} {target : Text}
    (hx : x.Plain) (hoption : ¬ IsOption target) (ht : target ≠ [])
    (hl : isDir t (d ++ [x.base]) = false)
    (hself : ¬ NamesFile t workDir target (d ++ [x.base])) :
    lnSfn options t workDir d x target = write t (d ++ [x.base]) (.symlink target) := by
  simp [lnSfn, hoption, linkPlace, linkDir, hx, ht, hl, hself]

theorem not_isOption_nil : ¬ IsOption [] := by
  rintro ⟨h, -⟩
  cases h

theorem lnSfn_untargeted {options : LinkOptions α} {workDir d : Loc} {x : Last} (hx : x.Plain)
    (hl : isDir t (d ++ [x.base]) = false) : lnSfn options t workDir d x [] = fail t := by
  simp [lnSfn, not_isOption_nil, linkPlace, linkDir, hx, hl]

end Direct

end FileCommands
