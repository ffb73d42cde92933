import SbcImageBuild.Foundation.ByteStore
import SbcImageBuild.Foundation.Directory
import SbcImageBuild.Foundation.ShellText
import SbcImageBuild.Foundation.StepSystem

/-!
# Wrapping the rkbin tools

The runs of `build_uboot.sh` on an ARM64 host, as far as they change `rkbin/tools`. A run can
stop at every step, with or without its EXIT trap; the list of wrapped tools is lost with it.
-/
namespace RkbinTools

open ShellText ByteStore Directory StepSystem

abbrev Name := Text

structure File where
  bytes : Bytes
  executable : Bool
  deriving DecidableEq

/-- Regular files and everything else: directories, links. -/
inductive Entry where
  | file (f : File)
  | other (description : Text)
  deriving DecidableEq

abbrev Tools := Dir Name Entry

/-- The program `file` and the paths that the shims contain. -/
structure Host where
  isElf : Bytes → Bool
  qemu : Text
  toolsDir : Text

def realName (x : Name) : Name := x ++ ".real".toList

def EndsReal (x : Name) : Prop := ".real".toList <:+ x

instance : DecidablePred EndsReal := fun x => inferInstanceAs (Decidable (".real".toList <:+ x))

/-- Pathname expansion passes over names with a leading dot. -/
def Visible : Name → Prop
  | [] => False
  | c :: _ => c ≠ '.'

instance : DecidablePred Visible
  | [] => inferInstanceAs (Decidable False)
  | c :: _ => inferInstanceAs (Decidable (c ≠ '.'))

/-- `${bin%.real}` -/
def stem (x : Name) : Name := if EndsReal x then x.take (x.length - 5) else x

def isFile (d : Tools) (x : Name) : Bool :=
  match d.lookup x with
  | some (.file _) => true
  | _ => false

/-- The tests in front of a wrapping step. A link is not followed by `file`. -/
def eligible (h : Host) : Option Entry → Bool
  | some (.file f) => f.executable && h.isElf f.bytes
  | _ => false

def utf8 (t : Text) : Bytes := t.flatMap String.utf8EncodeChar

def shim (h : Host) (bin : Name) : Bytes :=
  let path := h.toolsDir ++ "/".toList ++ bin
  utf8 ("#!/bin/sh\nexec ".toList ++ h.qemu ++ " ".toList ++ path ++ ".real \"$@\"\n".toList)

inductive Phase where
  | idle
  | started
  | restoring (todo : List Name)
  | wrapping (todo wrapped : List Name)
  | moved (bin : Name) (todo wrapped : List Name)
  | writing (bin : Name) (written : ℕ) (todo wrapped : List Name)
  | executable (bin : Name) (todo wrapped : List Name)
  | building (wrapped : List Name)
  | cleaning (todo : List Name) (complete : Bool)
  | finished (complete : Bool)
  deriving DecidableEq

/-- `complete` remembers that `wrap_rkbin_tools` had returned when the trap ran. -/
structure State where
  tools : Tools
  phase : Phase
  deriving DecidableEq

/-- The globs carry the names they expand to, in any order. -/
inductive Event where
  | start
  | findQemu (names : List Name)
  | restore
  | scan (names : List Name)
  | skip
  | move
  | openShim
  | writeShim (written : ℕ)
  | chmod
  | record
  | wrapped
  | trap
  | cleanup
  | finish
  | kill
  deriving DecidableEq

/-- The expansion of a pattern: the matching names, each once. -/
def Expands (pattern : Name → Bool) (d : Tools) (names : List Name) : Prop :=
  names.Nodup ∧ names.toFinset = d.keys.filter fun x => pattern x

instance (pattern : Name → Bool) (d : Tools) (names : List Name) :
    Decidable (Expands pattern d names) := inferInstanceAs (Decidable (_ ∧ _))

def realPattern (x : Name) : Bool := Visible x ∧ EndsReal x
def anyPattern (x : Name) : Bool := Visible x

/-- `RKBIN_WRAPPED` and whether wrapping is complete, for the phases in which the trap is set. -/
def trapped : Phase → Option (List Name × Bool)
  | .started => some ([], false)
  | .restoring _ => some ([], false)
  | .wrapping _ w => some (w, false)
  | .moved _ _ w => some (w, false)
  | .writing _ _ _ w => some (w, false)
  | .executable _ _ w => some (w, false)
  | .building w => some (w, true)
  | _ => none

def putFile (d : Tools) (x : Name) (bytes : Bytes) (executable : Bool) : Tools :=
  d.insert x (.file ⟨bytes, executable⟩)

def step (h : Host) (s : State) : Event → Option State
  | .start => match s.phase with
    | .idle => some ⟨s.tools, .started⟩
    | .finished _ => some ⟨s.tools, .started⟩
    | _ => none
  | .findQemu names => match s.phase with
    | .started => if Expands realPattern s.tools names then some ⟨s.tools, .restoring names⟩
      else none
    | _ => none
  | .restore => match s.phase with
    | .restoring (bin :: todo) =>
      some ⟨if isFile s.tools bin then rename s.tools bin (stem bin) else s.tools,
        .restoring todo⟩
    | _ => none
  | .scan names => match s.phase with
    | .restoring [] => if Expands anyPattern s.tools names then some ⟨s.tools, .wrapping names []⟩
      else none
    | _ => none
  | .skip => match s.phase with
    | .wrapping (bin :: todo) w =>
      if eligible h (s.tools.lookup bin) then none else some ⟨s.tools, .wrapping todo w⟩
    | _ => none
  | .move => match s.phase with
    | .wrapping (bin :: todo) w =>
      if eligible h (s.tools.lookup bin) then
        some ⟨rename s.tools bin (realName bin), .moved bin todo w⟩
      else none
    | _ => none
  | .openShim => match s.phase with
    | .moved bin todo w => some ⟨putFile s.tools bin [] false, .writing bin 0 todo w⟩
    | _ => none
  | .writeShim written => match s.phase with
    | .writing bin before todo w =>
      if before ≤ written then
        some ⟨putFile s.tools bin ((shim h bin).take written) false,
          .writing bin written todo w⟩
      else none
    | _ => none
  | .chmod => match s.phase with
    | .writing bin written todo w =>
      if (shim h bin).length ≤ written then
        some ⟨putFile s.tools bin (shim h bin) true, .executable bin todo w⟩
      else none
    | _ => none
  | .record => match s.phase with
    | .executable bin todo w => some ⟨s.tools, .wrapping todo (w ++ [bin])⟩
    | _ => none
  | .wrapped => match s.phase with
    | .wrapping [] w => some ⟨s.tools, .building w⟩
    | _ => none
  | .trap => match trapped s.phase with
    | some (w, complete) => some ⟨s.tools, .cleaning w complete⟩
    | none => none
  | .cleanup => match s.phase with
    | .cleaning (bin :: todo) complete =>
      some ⟨if isFile s.tools (realName bin) then rename s.tools (realName bin) bin else s.tools,
        .cleaning todo complete⟩
    | _ => none
  | .finish => match s.phase with
    | .cleaning [] complete => some ⟨s.tools, .finished complete⟩
    | _ => none
  | .kill => some ⟨s.tools, .idle⟩

/-! ## Names -/

theorem endsReal_realName (x : Name) : EndsReal (realName x) := List.suffix_append _ _

theorem realName_injective {x y : Name} (h : realName x = realName y) : x = y :=
  List.append_cancel_right h

theorem stem_realName (x : Name) : stem (realName x) = x := by
  rw [stem, if_pos (endsReal_realName x), realName]
  simp

theorem exists_realName {x : Name} (h : EndsReal x) : ∃ y, x = realName y := by
  obtain ⟨y, rfl⟩ := h
  exact ⟨y, rfl⟩

theorem realName_ne (x : Name) : realName x ≠ x := by
  intro h
  have hlen := congrArg List.length h
  simp [realName] at hlen

/-! ## What a directory is recovered from -/

variable {h : Host} {orig d d' : Tools} {x y : Name}

def Intact (orig d : Tools) (x : Name) : Prop :=
  d.lookup x = orig.lookup x ∧ d.lookup (realName x) = none

/-- The original waits under `name.real`; its own name is free or taken by a shim, complete
or not. -/
structure Aside (h : Host) (orig d : Tools) (x : Name) : Prop where
  eligible : eligible h (orig.lookup x)
  visible : Visible x
  kept : d.lookup (realName x) = orig.lookup x
  own : d.lookup x = none ∨ ∃ f, d.lookup x = some (.file f)

/-- Every directory between the original one and a fully wrapped one. -/
structure Recoverable (h : Host) (orig d : Tools) : Prop where
  plain : ∀ x, ¬ EndsReal x → Intact orig d x ∨ Aside h orig d x
  real : ∀ x, EndsReal x → d.lookup (realName x) = none

def OnlyAside (h : Host) (orig d : Tools) (P : Name → Prop) : Prop :=
  ∀ x, ¬ EndsReal x → Aside h orig d x → P x

/-- Only the two names of one tool have changed. -/
def Touches (x : Name) (d d' : Tools) : Prop :=
  ∀ z, z ≠ x → z ≠ realName x → d'.lookup z = d.lookup z

theorem eligible_file {e : Option Entry} (he : eligible h e) : ∃ f, e = some (.file f) := by
  rcases e with _ | f | t
  · cases he
  · exact ⟨f, rfl⟩
  · cases he

theorem Aside.isFile_real (ha : Aside h orig d x) : isFile d (realName x) := by
  obtain ⟨f, hf⟩ := eligible_file ha.eligible
  rw [isFile, ha.kept, hf]

theorem Aside.not_intact (ha : Aside h orig d x) : ¬ Intact orig d x := by
  intro hi
  have hfile := ha.isFile_real
  rw [isFile, hi.2] at hfile
  cases hfile

theorem Touches.lookups (ht : Touches x d d') (hx : ¬ EndsReal x) (hy : ¬ EndsReal y)
    (hne : y ≠ x) :
    d'.lookup y = d.lookup y ∧ d'.lookup (realName y) = d.lookup (realName y) := by
  constructor
  · exact ht y hne fun heq => hy (heq ▸ endsReal_realName x)
  · exact ht _ (fun heq => hx (heq ▸ endsReal_realName y)) fun heq => hne (realName_injective heq)

theorem Touches.intact (ht : Touches x d d') (hx : ¬ EndsReal x) (hy : ¬ EndsReal y)
    (hne : y ≠ x) (hi : Intact orig d y) : Intact orig d' y := by
  obtain ⟨hown, hreal⟩ := ht.lookups hx hy hne
  exact ⟨hown.trans hi.1, hreal.trans hi.2⟩

theorem Touches.aside (ht : Touches x d d') (hx : ¬ EndsReal x) (hy : ¬ EndsReal y)
    (hne : y ≠ x) : Aside h orig d' y ↔ Aside h orig d y := by
  obtain ⟨hown, hreal⟩ := ht.lookups hx hy hne
  constructor
  · rintro ⟨he, hv, hk, ho⟩
    exact ⟨he, hv, hreal.symm.trans hk, hown ▸ ho⟩
  · rintro ⟨he, hv, hk, ho⟩
    exact ⟨he, hv, hreal.trans hk, hown ▸ ho⟩

/-- A change to one tool keeps the directory recoverable if that tool is. -/
theorem Recoverable.touch (hr : Recoverable h orig d) (ht : Touches x d d') (hx : ¬ EndsReal x)
    (hnew : Intact orig d' x ∨ Aside h orig d' x) : Recoverable h orig d' := by
  refine ⟨fun y hy => ?_, fun z hz => ?_⟩
  · rcases eq_or_ne y x with rfl | hne
    · exact hnew
    · exact (hr.plain y hy).imp (ht.intact hx hy hne) (ht.aside hx hy hne).mpr
  · rw [ht (realName z) (fun heq => hx (heq ▸ endsReal_realName z))
      (fun heq => hx (realName_injective heq ▸ hz))]
    exact hr.real z hz

theorem touches_restore : Touches x d (rename d (realName x) x) :=
  fun _ hx hreal => lookup_rename_other hreal hx

theorem touches_move : Touches x d (rename d x (realName x)) :=
  fun _ hx hreal => lookup_rename_other hx hreal

theorem touches_putFile {bytes : Bytes} {exec : Bool} : Touches x d (putFile d x bytes exec) :=
  fun _ hx _ => Finmap.lookup_insert_of_ne d hx

/-- Renaming the backup makes a tool intact again. -/
theorem Aside.restore (ha : Aside h orig d x) : Intact orig (rename d (realName x) x) x := by
  obtain ⟨f, hf⟩ := eligible_file ha.eligible
  have hk : d.lookup (realName x) = some (.file f) := ha.kept.trans hf
  exact ⟨(lookup_rename_target hk).trans hf.symm, lookup_rename_source hk (realName_ne x)⟩

theorem Intact.move (hi : Intact orig d x) (he : eligible h (d.lookup x)) (hv : Visible x) :
    Aside h orig (rename d x (realName x)) x := by
  obtain ⟨f, hf⟩ := eligible_file he
  refine ⟨hi.1 ▸ he, hv, ?_, .inl (lookup_rename_source hf (realName_ne x).symm)⟩
  rw [lookup_rename_target hf, ← hi.1, hf]

theorem Aside.putFile (ha : Aside h orig d x) (bytes : Bytes) (exec : Bool) :
    Aside h orig (putFile d x bytes exec) x := by
  refine ⟨ha.eligible, ha.visible, ?_, .inr ⟨_, Finmap.lookup_insert d⟩⟩
  exact (Finmap.lookup_insert_of_ne d (realName_ne x)).trans ha.kept

/-! ## The invariant of the runs -/

/-- Tools that the wrapping loop has still to look at, and those that it has recorded. -/
structure Pending (orig d : Tools) (todo w : List Name) : Prop where
  nodup : todo.Nodup
  intact : ∀ x ∈ todo, ¬ EndsReal x ∧ Visible x ∧ Intact orig d x
  recorded : ∀ x ∈ w, ¬ EndsReal x

/-- One tool is being wrapped. -/
structure Working (h : Host) (orig d : Tools) (bin : Name) (todo w : List Name) : Prop where
  plain : ¬ EndsReal bin
  aside : Aside h orig d bin
  fresh : bin ∉ todo
  pending : Pending orig d todo w
  only : OnlyAside h orig d fun x => x = bin ∨ x ∈ w

def PhaseOk (h : Host) (orig d : Tools) : Phase → Prop
  | .idle => True
  | .started => True
  | .restoring todo => todo.Nodup ∧
      (∀ y ∈ todo, ∃ x, y = realName x ∧ ¬ EndsReal x ∧ Aside h orig d x) ∧
      OnlyAside h orig d fun x => realName x ∈ todo
  | .wrapping todo w => Pending orig d todo w ∧ OnlyAside h orig d (· ∈ w)
  | .moved bin todo w => Working h orig d bin todo w
  | .writing bin _ todo w => Working h orig d bin todo w
  | .executable bin todo w => Working h orig d bin todo w
  | .building w => (∀ x ∈ w, ¬ EndsReal x) ∧ OnlyAside h orig d (· ∈ w)
  | .cleaning todo complete => (∀ x ∈ todo, ¬ EndsReal x) ∧
      (complete → OnlyAside h orig d (· ∈ todo))
  | .finished complete => complete → OnlyAside h orig d fun _ => False

structure Invariant (h : Host) (orig : Tools) (s : State) : Prop where
  recoverable : Recoverable h orig s.tools
  phase : PhaseOk h orig s.tools s.phase

theorem OnlyAside.mono {P Q : Name → Prop} (ho : OnlyAside h orig d P) (hpq : ∀ x, P x → Q x) :
    OnlyAside h orig d Q := fun x hx ha => hpq x (ho x hx ha)

/-- A tool that became intact drops out; the others are as before. -/
theorem OnlyAside.restore {P : Name → Prop} (ho : OnlyAside h orig d fun y => y = x ∨ P y)
    (hx : ¬ EndsReal x) (ha : Aside h orig d x) :
    OnlyAside h orig (rename d (realName x) x) P := by
  intro y hy hya
  rcases eq_or_ne y x with rfl | hne
  · exact absurd ha.restore hya.not_intact
  · exact (ho y hy ((touches_restore.aside hx hy hne).mp hya)).resolve_left hne

theorem OnlyAside.touch {P : Name → Prop} (ho : OnlyAside h orig d fun y => y = x ∨ P y)
    (ht : Touches x d d') (hx : ¬ EndsReal x) :
    OnlyAside h orig d' fun y => y = x ∨ P y := by
  intro y hy hya
  rcases eq_or_ne y x with rfl | hne
  · exact .inl rfl
  · exact ho y hy ((ht.aside hx hy hne).mp hya)

theorem Pending.touch {todo w : List Name} (hp : Pending orig d todo w) (ht : Touches x d d')
    (hx : ¬ EndsReal x) (hfresh : x ∉ todo) : Pending orig d' todo w := by
  refine ⟨hp.nodup, fun y hy => ?_, hp.recorded⟩
  obtain ⟨hplain, hvis, hi⟩ := hp.intact y hy
  exact ⟨hplain, hvis, ht.intact hx hplain (fun heq => hfresh (heq ▸ hy)) hi⟩

theorem Pending.tail {todo w : List Name} (hp : Pending orig d (x :: todo) w) :
    x ∉ todo ∧ (¬ EndsReal x ∧ Visible x ∧ Intact orig d x) ∧ Pending orig d todo w := by
  obtain ⟨hnodup, hintact, hrec⟩ := hp
  obtain ⟨hfresh, hrest⟩ := List.nodup_cons.mp hnodup
  exact ⟨hfresh, hintact x (by simp), hrest, fun y hy => hintact y (by simp [hy]), hrec⟩

theorem Working.putFile {bin : Name} {todo w : List Name} (hw : Working h orig d bin todo w)
    (bytes : Bytes) (exec : Bool) :
    Working h orig (putFile d bin bytes exec) bin todo w :=
  ⟨hw.plain, hw.aside.putFile bytes exec, hw.fresh,
    hw.pending.touch touches_putFile hw.plain hw.fresh, hw.only.touch touches_putFile hw.plain⟩

theorem Recoverable.putFile {bin : Name} {todo w : List Name} (hr : Recoverable h orig d)
    (hw : Working h orig d bin todo w) (bytes : Bytes) (exec : Bool) :
    Recoverable h orig (RkbinTools.putFile d bin bytes exec) :=
  hr.touch touches_putFile hw.plain (.inr (hw.aside.putFile bytes exec))

theorem Expands.mem {pattern : Name → Bool} {names : List Name} (he : Expands pattern d names) :
    x ∈ names ↔ (∃ e, d.lookup x = some e) ∧ pattern x := by
  rw [← List.mem_toFinset, he.2, Finset.mem_filter, Finmap.mem_keys, Finmap.mem_iff]

/-- Every backup in the directory belongs to a tool that waits aside. -/
theorem Recoverable.aside_of_real (hr : Recoverable h orig d) (hy : EndsReal y) {e : Entry}
    (he : d.lookup y = some e) : ∃ x, y = realName x ∧ ¬ EndsReal x ∧ Aside h orig d x := by
  obtain ⟨x, rfl⟩ := exists_realName hy
  have hx : ¬ EndsReal x := fun hx => by
    rw [hr.real x hx] at he
    cases he
  refine ⟨x, rfl, hx, (hr.plain x hx).resolve_left fun hi => ?_⟩
  rw [hi.2] at he
  cases he

theorem visible_realName (hv : Visible x) : Visible (realName x) := by
  cases x with
  | nil => exact absurd hv id
  | cons c t => exact hv

theorem findQemu_phase {names : List Name} (hr : Recoverable h orig d)
    (he : Expands realPattern d names) : PhaseOk h orig d (.restoring names) := by
  refine ⟨he.1, fun y hy => ?_, fun x hx ha => he.mem.mpr ⟨?_, ?_⟩⟩
  · obtain ⟨⟨e, hlook⟩, hpat⟩ := he.mem.mp hy
    exact hr.aside_of_real (of_decide_eq_true hpat).2 hlook
  · obtain ⟨f, hf⟩ := eligible_file ha.eligible
    exact ⟨_, ha.kept.trans hf⟩
  · exact decide_eq_true ⟨visible_realName ha.visible, endsReal_realName x⟩

/-- Without backups the scan finds exactly original tools. -/
theorem scan_phase {names : List Name} (hr : Recoverable h orig d)
    (ho : OnlyAside h orig d fun x => realName x ∈ ([] : List Name))
    (he : Expands anyPattern d names) : PhaseOk h orig d (.wrapping names []) := by
  have hnone : OnlyAside h orig d fun _ => False := ho.mono fun x hx => absurd hx List.not_mem_nil
  refine ⟨⟨he.1, fun y hy => ?_, fun x hx => absurd hx List.not_mem_nil⟩,
    hnone.mono fun _ hf => hf.elim⟩
  obtain ⟨⟨e, hlook⟩, hpat⟩ := he.mem.mp hy
  have hplain : ¬ EndsReal y := by
    intro hreal
    obtain ⟨x, -, hx, ha⟩ := hr.aside_of_real hreal hlook
    exact hnone x hx ha
  exact ⟨hplain, of_decide_eq_true hpat, (hr.plain y hplain).resolve_right fun ha =>
    hnone y hplain ha⟩

theorem restore_step {todo : List Name} (hr : Recoverable h orig d)
    (hp : PhaseOk h orig d (.restoring (y :: todo))) :
    Invariant h orig ⟨if isFile d y then rename d y (stem y) else d, .restoring todo⟩ := by
  obtain ⟨hnodup, hall, honly⟩ := hp
  obtain ⟨x, rfl, hx, ha⟩ := hall y (by simp)
  obtain ⟨hfresh, hrest⟩ := List.nodup_cons.mp hnodup
  rw [if_pos ha.isFile_real, stem_realName]
  refine ⟨hr.touch touches_restore hx (.inl ha.restore), hrest, fun z hz => ?_, ?_⟩
  · obtain ⟨v, rfl, hv, hva⟩ := hall z (by simp [hz])
    refine ⟨v, rfl, hv, (touches_restore.aside hx hv ?_).mpr hva⟩
    rintro rfl
    exact hfresh hz
  · refine OnlyAside.restore (honly.mono fun v hv => ?_) hx ha
    exact (List.mem_cons.mp hv).imp realName_injective id

theorem move_step {todo w : List Name} (hr : Recoverable h orig d)
    (hp : PhaseOk h orig d (.wrapping (x :: todo) w)) (he : eligible h (d.lookup x)) :
    Invariant h orig ⟨rename d x (realName x), .moved x todo w⟩ := by
  obtain ⟨hpending, honly⟩ := hp
  obtain ⟨hfresh, ⟨hx, hv, hi⟩, hrest⟩ := hpending.tail
  have ha := hi.move he hv
  exact ⟨hr.touch touches_move hx (.inr ha), hx, ha, hfresh,
    hrest.touch touches_move hx hfresh,
    OnlyAside.touch (honly.mono fun _ => .inr) touches_move hx⟩

theorem cleanup_step {todo : List Name} {complete : Bool} (hr : Recoverable h orig d)
    (hp : PhaseOk h orig d (.cleaning (x :: todo) complete)) :
    Invariant h orig ⟨if isFile d (realName x) then rename d (realName x) x else d,
      .cleaning todo complete⟩ := by
  obtain ⟨hplain, honly⟩ := hp
  obtain ⟨hx, hrest⟩ := List.forall_mem_cons.mp hplain
  have honly' := fun hc => (honly hc).mono fun y hy => List.mem_cons.mp hy
  by_cases hf : isFile d (realName x)
  · have ha : Aside h orig d x := (hr.plain x hx).resolve_left fun hi => by
      rw [isFile, hi.2] at hf
      cases hf
    rw [if_pos hf]
    exact ⟨hr.touch touches_restore hx (.inl ha.restore), hrest,
      fun hc => (honly' hc).restore hx ha⟩
  · rw [if_neg hf]
    refine ⟨hr, hrest, fun hc y hy hya => ((honly' hc) y hy hya).resolve_left ?_⟩
    rintro rfl
    exact hf hya.isFile_real

theorem trap_phase {p : Phase} {w : List Name} {complete : Bool} (hp : PhaseOk h orig d p)
    (ht : trapped p = some (w, complete)) : PhaseOk h orig d (.cleaning w complete) := by
  cases p <;> simp only [trapped, Option.some.injEq, Prod.mk.injEq, reduceCtorEq] at ht
  case started | restoring =>
    obtain ⟨rfl, rfl⟩ := ht
    exact ⟨fun x hx => absurd hx List.not_mem_nil, fun hc => by cases hc⟩
  case wrapping =>
    obtain ⟨rfl, rfl⟩ := ht
    exact ⟨hp.1.recorded, fun hc => by cases hc⟩
  case moved | writing | executable =>
    obtain ⟨rfl, rfl⟩ := ht
    exact ⟨hp.pending.recorded, fun hc => by cases hc⟩
  case building =>
    obtain ⟨rfl, rfl⟩ := ht
    exact ⟨hp.1, fun _ => hp.2⟩

theorem step_preserves_invariant {s t : State} {e : Event} (hi : Invariant h orig s)
    (he : step h s e = some t) : Invariant h orig t := by
  obtain ⟨d, p⟩ := s
  obtain ⟨hr, hp⟩ := hi
  dsimp only at hr hp
  cases e with
  | start =>
    cases p <;> simp only [step, reduceCtorEq, Option.some.injEq] at he <;> subst he <;>
      exact ⟨hr, trivial⟩
  | findQemu names =>
    cases p <;> simp only [step, reduceCtorEq] at he
    split at he
    · cases he
      exact ⟨hr, findQemu_phase hr ‹_›⟩
    · cases he
  | restore =>
    rcases p with _ | _ | (_ | ⟨y, todo⟩) | _ | _ | _ | _ | _ | _ | _ <;>
      simp only [step, reduceCtorEq, Option.some.injEq] at he
    subst he
    exact restore_step hr hp
  | scan names =>
    rcases p with _ | _ | (_ | ⟨y, todo⟩) | _ | _ | _ | _ | _ | _ | _ <;>
      simp only [step, reduceCtorEq] at he
    split at he
    · cases he
      exact ⟨hr, scan_phase hr hp.2.2 ‹_›⟩
    · cases he
  | skip =>
    rcases p with _ | _ | _ | ⟨_ | ⟨x, todo⟩, w⟩ | _ | _ | _ | _ | _ | _ <;>
      simp only [step, reduceCtorEq] at he
    split at he
    · cases he
    · cases he
      exact ⟨hr, hp.1.tail.2.2, hp.2⟩
  | move =>
    rcases p with _ | _ | _ | ⟨_ | ⟨x, todo⟩, w⟩ | _ | _ | _ | _ | _ | _ <;>
      simp only [step, reduceCtorEq] at he
    split at he
    · cases he
      exact move_step hr hp ‹_›
    · cases he
  | openShim =>
    cases p <;> simp only [step, reduceCtorEq, Option.some.injEq] at he
    subst he
    exact ⟨hr.putFile hp [] false, Working.putFile hp [] false⟩
  | writeShim written =>
    cases p <;> simp only [step, reduceCtorEq] at he
    split at he
    · cases he
      exact ⟨hr.putFile hp _ false, Working.putFile hp _ false⟩
    · cases he
  | chmod =>
    cases p <;> simp only [step, reduceCtorEq] at he
    split at he
    · cases he
      exact ⟨hr.putFile hp _ true, Working.putFile hp _ true⟩
    · cases he
  | record =>
    cases p <;> simp only [step, reduceCtorEq, Option.some.injEq] at he
    subst he
    obtain ⟨hplain, -, -, hpending, honly⟩ := hp
    refine ⟨hr, ⟨hpending.nodup, hpending.intact, fun x hx => ?_⟩, honly.mono fun x hx => ?_⟩
    · rcases List.mem_append.mp hx with hx | hx
      · exact hpending.recorded x hx
      · exact List.mem_singleton.mp hx ▸ hplain
    · rcases hx with rfl | hx
      · simp
      · exact List.mem_append_left _ hx
  | wrapped =>
    rcases p with _ | _ | _ | ⟨_ | ⟨x, todo⟩, w⟩ | _ | _ | _ | _ | _ | _ <;>
      simp only [step, reduceCtorEq, Option.some.injEq] at he
    subst he
    exact ⟨hr, hp.1.recorded, hp.2⟩
  | trap =>
    simp only [step] at he
    split at he
    · cases he
      exact ⟨hr, trap_phase hp ‹_›⟩
    · cases he
  | cleanup =>
    rcases p with _ | _ | _ | _ | _ | _ | _ | _ | ⟨_ | ⟨x, todo⟩, complete⟩ | _ <;>
      simp only [step, reduceCtorEq, Option.some.injEq] at he
    subst he
    exact cleanup_step hr hp
  | finish =>
    rcases p with _ | _ | _ | _ | _ | _ | _ | _ | ⟨_ | ⟨x, todo⟩, complete⟩ | _ <;>
      simp only [step, reduceCtorEq, Option.some.injEq] at he
    subst he
    exact ⟨hr, fun hc => (hp.2 hc).mono fun x hx => absurd hx List.not_mem_nil⟩
  | kill =>
    cases he
    exact ⟨hr, trivial⟩

theorem initial_invariant (horig : ∀ x ∈ orig, ¬ EndsReal x) :
    Invariant h orig ⟨orig, .idle⟩ := by
  have hnone : ∀ x, orig.lookup (realName x) = none := fun x =>
    Finmap.lookup_eq_none.mpr fun hm => horig _ hm (endsReal_realName x)
  exact ⟨⟨fun x _ => .inl ⟨rfl, hnone x⟩, fun x _ => hnone x⟩, trivial⟩

/-- Where nothing waits aside, the directory is the original one. -/
theorem Recoverable.eq_of_none_aside (hr : Recoverable h orig d)
    (horig : ∀ x ∈ orig, ¬ EndsReal x) (ho : OnlyAside h orig d fun _ => False) : d = orig := by
  have hintact : ∀ x, ¬ EndsReal x → Intact orig d x := fun x hx =>
    (hr.plain x hx).resolve_right fun ha => ho x hx ha
  refine Finmap.ext_lookup fun x => ?_
  by_cases hx : EndsReal x
  · obtain ⟨y, rfl⟩ := exists_realName hx
    have hnone : orig.lookup (realName y) = none :=
      Finmap.lookup_eq_none.mpr fun hm => horig _ hm hx
    rw [hnone]
    by_cases hy : EndsReal y
    · exact hr.real y hy
    · exact (hintact y hy).2
  · exact (hintact x hx).1

/-- Over any runs of the build, cut anywhere: every original is under its own name or its
backup name, and a run that wraps and cleans up completely leaves the original directory. -/
theorem rkbin_recovery (h : Host) {orig : Tools} (horig : ∀ x ∈ orig, ¬ EndsReal x)
    {events : List Event} {s : State} (hrun : run (step h) events ⟨orig, .idle⟩ = some s) :
    (∀ x e, orig.lookup x = some e →
      s.tools.lookup x = some e ∨ s.tools.lookup (realName x) = some e) ∧
    (s.phase = .finished true → s.tools = orig) := by
  have hinv : Invariant h orig s :=
    run_invariant (fun _ _ _ => step_preserves_invariant) (initial_invariant horig) hrun
  constructor
  · intro x e he
    have hx : ¬ EndsReal x := horig x (Finmap.mem_of_lookup_eq_some he)
    rcases hinv.recoverable.plain x hx with hi | ha
    · exact .inl (hi.1.trans he)
    · exact .inr (ha.kept.trans he)
  · intro hphase
    have hok := hinv.phase
    rw [hphase] at hok
    exact hinv.recoverable.eq_of_none_aside horig (hok rfl)

/-- Two runs over one tool and a text file: the first is killed while it writes a shim. -/
def interruptedRuns : List Event :=
  [.start, .findQemu [], .scan ["boot_merger".toList, "README".toList], .move, .openShim,
   .writeShim 4, .kill,
   .start, .findQemu ["boot_merger.real".toList], .restore,
   .scan ["boot_merger".toList, "README".toList], .move, .openShim, .writeShim 80, .chmod, .record,
   .skip, .wrapped, .trap, .cleanup, .finish]

theorem rkbin_recovery_interrupted :
    ∃ h orig s, run (step h) interruptedRuns ⟨orig, .idle⟩ = some s ∧
      eligible h (orig.lookup "boot_merger".toList) ∧ s.tools = orig := by
  let h : Host := ⟨fun b => b.take 4 = [0x7F, 0x45, 0x4C, 0x46], "/bin/qemu".toList, "t".toList⟩
  let orig : Tools :=
    Finmap.insert "boot_merger".toList (.file ⟨[0x7F, 0x45, 0x4C, 0x46, 2], true⟩)
      (Finmap.singleton "README".toList (.file ⟨[0x41], false⟩))
  have hrun : run (step h) interruptedRuns ⟨orig, .idle⟩ = some ⟨orig, .finished true⟩ := by
    decide +kernel
  have horig : ∀ x ∈ orig, ¬ EndsReal x := by
    intro x hx
    rcases Finmap.mem_insert.mp hx with rfl | hx
    · decide
    · rw [(Finmap.mem_singleton _ _ _).mp hx]
      decide
  exact ⟨h, orig, _, hrun, by decide, (rkbin_recovery h horig hrun).2 rfl⟩

end RkbinTools
