import Mathlib.Data.List.Induction
import Mathlib.Logic.Function.Basic
import Mathlib.Tactic.Common

/-!
# Files stamped with the run that wrote them

Runs remove and create files of a shared directory. What counts is which run a file comes
from: the last one that touched it.
-/
namespace StampedFiles

section Last

variable {R : Type}

/-- Run `i` is the last one with the property. -/
def LastWith (P : R → Prop) (runs : List R) (i : ℕ) : Prop :=
  (∃ r, runs[i]? = some r ∧ P r) ∧ ∀ j, i < j → ∀ r, runs[j]? = some r → ¬ P r

theorem lastWith_unique {P : R → Prop} {runs : List R} {i j : ℕ} (hi : LastWith P runs i)
    (hj : LastWith P runs j) : i = j := by
  obtain ⟨⟨r, hr, hp⟩, hlast⟩ := hi
  obtain ⟨⟨q, hq, hp'⟩, hlast'⟩ := hj
  rcases Nat.lt_trichotomy i j with h | h | h
  · exact absurd hp' (hlast j h q hq)
  · exact h
  · exact absurd hp (hlast' i h r hr)

theorem getElem?_concat_of_ne {runs : List R} {r : R} {k : ℕ} (hk : k ≠ runs.length) :
    (runs ++ [r])[k]? = runs[k]? := by
  rw [List.getElem?_append]
  split
  · rfl
  · rw [List.getElem?_eq_none (by simp; omega), List.getElem?_eq_none (by omega)]

theorem lastWith_concat {P : R → Prop} {runs : List R} {r : R} (h : P r) :
    LastWith P (runs ++ [r]) runs.length := by
  refine ⟨⟨r, List.getElem?_concat_length, h⟩, fun j hj q hq => ?_⟩
  have hlt := (List.getElem?_eq_some_iff.mp hq).1
  simp only [List.length_append, List.length_singleton] at hlt
  omega

theorem lastWith_concat_not {P : R → Prop} {runs : List R} {r : R} (h : ¬ P r) {i : ℕ} :
    LastWith P (runs ++ [r]) i ↔ LastWith P runs i := by
  constructor
  · rintro ⟨⟨q, hq, hp⟩, hlast⟩
    have hi : i ≠ runs.length := by
      rintro rfl
      rw [List.getElem?_concat_length] at hq
      exact h (Option.some.inj hq ▸ hp)
    refine ⟨⟨q, getElem?_concat_of_ne hi ▸ hq, hp⟩, fun j hj q' hq' => hlast j hj q' ?_⟩
    have hlt := (List.getElem?_eq_some_iff.mp hq').1
    rwa [getElem?_concat_of_ne (by omega)]
  · rintro ⟨⟨q, hq, hp⟩, hlast⟩
    have hlt := (List.getElem?_eq_some_iff.mp hq).1
    refine ⟨⟨q, by rwa [getElem?_concat_of_ne (by omega)], hp⟩, fun j hj q' hq' => ?_⟩
    by_cases hjl : j = runs.length
    · subst hjl
      rw [List.getElem?_concat_length] at hq'
      exact Option.some.inj hq' ▸ h
    · exact hlast j hj q' (getElem?_concat_of_ne hjl ▸ hq')

theorem lastWith_map {S : Type} {P : S → Prop} {g : R → S} {runs : List R} {i : ℕ} :
    LastWith P (runs.map g) i ↔ LastWith (fun r => P (g r)) runs i := by
  simp only [LastWith, List.getElem?_map, Option.map_eq_some_iff]
  constructor
  · rintro ⟨⟨_, ⟨r, hr, rfl⟩, hp⟩, hlast⟩
    exact ⟨⟨r, hr, hp⟩, fun j hj q hq => hlast j hj _ ⟨q, hq, rfl⟩⟩
  · rintro ⟨⟨r, hr, hp⟩, hlast⟩
    refine ⟨⟨_, ⟨r, hr, rfl⟩, hp⟩, ?_⟩
    rintro j hj _ ⟨q, hq, rfl⟩
    exact hlast j hj q hq

end Last

section Stamps

variable {F : Type} [DecidableEq F]

inductive Effect (F : Type) where
  | remove (f : F)
  | create (f : F)
  deriving DecidableEq, Repr

def Effect.file : Effect F → F
  | .remove f => f
  | .create f => f

/-- For each file the run that wrote it; no stamp means no file. -/
abbrev Stamps (F : Type) := F → Option ℕ

def applyEffect (run : ℕ) (s : Stamps F) : Effect F → Stamps F
  | .remove f => Function.update s f none
  | .create f => Function.update s f (some run)

def applyEffects (run : ℕ) (es : List (Effect F)) (s : Stamps F) : Stamps F :=
  es.foldl (applyEffect run) s

/-- The directory after the runs, numbered in order and starting with none of the files. -/
def after (runs : List (List (Effect F))) : Stamps F :=
  (runs.foldl (fun ns es => (ns.1 + 1, applyEffects ns.1 es ns.2)) (0, fun _ => none)).2

def Touches (f : F) (es : List (Effect F)) : Prop := ∃ e ∈ es, e.file = f

instance (f : F) : DecidablePred (Touches f) := fun es =>
  inferInstanceAs (Decidable (∃ e ∈ es, e.file = f))

theorem after_concat (runs : List (List (Effect F))) (es : List (Effect F)) :
    after (runs ++ [es]) = applyEffects runs.length es (after runs) := by
  have count : ∀ (rs : List (List (Effect F))) (n : ℕ) (s : Stamps F),
      (rs.foldl (fun ns es => (ns.1 + 1, applyEffects ns.1 es ns.2)) (n, s)).1 =
        n + rs.length := by
    intro rs
    induction rs with
    | nil => simp
    | cons r rs ih =>
      intro n s
      rw [List.foldl_cons, ih, List.length_cons]
      omega
  rw [after, List.foldl_append, List.foldl_cons, List.foldl_nil, count, Nat.zero_add]
  rfl

/-- The last effect on a file decides. -/
theorem applyEffects_eq (run : ℕ) (es : List (Effect F)) (s : Stamps F) (f : F) :
    applyEffects run es s f = match es.reverse.find? fun e => e.file = f with
      | some (.remove _) => none
      | some (.create _) => some run
      | none => s f := by
  induction es using List.reverseRecOn with
  | nil => rfl
  | append_singleton es e ih =>
    rw [applyEffects, List.foldl_append, List.foldl_cons, List.foldl_nil,
      List.reverse_append, List.reverse_singleton, List.singleton_append, List.find?_cons]
    by_cases he : e.file = f
    · subst he
      cases e <;> simp [applyEffect, Effect.file]
    · have hkeep : applyEffect run (es.foldl (applyEffect run) s) e f =
          applyEffects run es s f := by
        cases e <;> exact Function.update_of_ne (Ne.symm he) _ _
      rw [hkeep, ih, decide_eq_false he]

theorem applyEffects_untouched {run : ℕ} {es : List (Effect F)} {f : F} (h : ¬ Touches f es)
    (s : Stamps F) : applyEffects run es s f = s f := by
  rw [applyEffects_eq, List.find?_eq_none.mpr]
  intro e he hf
  exact h ⟨e, List.mem_reverse.mp he, of_decide_eq_true hf⟩

/-- A run leaves its own stamp or none on what it touches, and its own if it never removes. -/
theorem applyEffects_touched (run : ℕ) {es : List (Effect F)} {f : F} (h : Touches f es)
    (s : Stamps F) :
    (applyEffects run es s f = none ∨ applyEffects run es s f = some run) ∧
    (.remove f ∉ es → applyEffects run es s f = some run) := by
  obtain ⟨e, he, hf⟩ := h
  have hsome : (es.reverse.find? fun e => e.file = f).isSome := by
    rw [List.find?_isSome]
    exact ⟨e, List.mem_reverse.mpr he, decide_eq_true hf⟩
  obtain ⟨e', he'⟩ := Option.isSome_iff_exists.mp hsome
  have hmem := List.mem_reverse.mp (List.mem_of_find?_eq_some he')
  have hfile := List.find?_some he'
  rw [decide_eq_true_eq] at hfile
  rw [applyEffects_eq, he']
  cases e' with
  | remove g =>
    refine ⟨.inl rfl, fun hn => absurd hmem ?_⟩
    rwa [show g = f from hfile]
  | create g => exact ⟨.inr rfl, fun _ => rfl⟩

/-- The effects leave the file in place if it was there. -/
def Keeps (f : F) (es : List (Effect F)) : Prop :=
  ∀ (run : ℕ) (s : Stamps F), (s f).isSome → (applyEffects run es s f).isSome

/-- The file is there after the effects in any case. -/
def Makes (f : F) (es : List (Effect F)) : Prop :=
  ∀ (run : ℕ) (s : Stamps F), (applyEffects run es s f).isSome

theorem Makes.keeps {f : F} {es : List (Effect F)} (h : Makes f es) : Keeps f es :=
  fun run s _ => h run s

theorem keeps_of_not_removed {f : F} {es : List (Effect F)} (h : .remove f ∉ es) :
    Keeps f es := by
  intro run s hs
  by_cases ht : Touches f es
  · rw [(applyEffects_touched run ht s).2 h]
    rfl
  · rwa [applyEffects_untouched ht]

theorem makes_of_created {f : F} {es : List (Effect F)} (hc : .create f ∈ es)
    (hr : .remove f ∉ es) : Makes f es := by
  intro run s
  have ht : Touches f es := ⟨_, hc, rfl⟩
  rw [(applyEffects_touched run ht s).2 hr]
  rfl

theorem absent_of_not_created {f : F} {es : List (Effect F)} (h : .create f ∉ es) {run : ℕ}
    {s : Stamps F} (hs : s f = none) : applyEffects run es s f = none := by
  rw [applyEffects_eq]
  split
  · rfl
  · rename_i g hfind
    have hfile := List.find?_some hfind
    rw [decide_eq_true_eq] at hfile
    have hmem := List.mem_reverse.mp (List.mem_of_find?_eq_some hfind)
    rw [show g = f from hfile] at hmem
    exact absurd hmem h
  · exact hs

def Effect.map {G : Type} (g : F → G) : Effect F → Effect G
  | .remove f => .remove (g f)
  | .create f => .create (g f)

/-- Effects on renamed files, seen at a renamed file. -/
theorem applyEffects_map {G : Type} [DecidableEq G] {g : F → G} (hg : Function.Injective g)
    (run : ℕ) (es : List (Effect F)) (s : Stamps G) (f : F) :
    applyEffects run (es.map (Effect.map g)) s (g f) = applyEffects run es (s ∘ g) f := by
  induction es generalizing s with
  | nil => rfl
  | cons e es ih =>
    have hstep : applyEffect run s (e.map g) ∘ g = applyEffect run (s ∘ g) e := by
      cases e <;> exact Function.update_comp_eq_of_injective s hg _ _
    rw [List.map_cons, applyEffects, List.foldl_cons]
    exact (ih _).trans (by rw [hstep]; rfl)

/-- A file comes from the last run that touched it. -/
theorem after_lastWith {runs : List (List (Effect F))} {f : F} {i : ℕ}
    (h : after runs f = some i) : LastWith (Touches f) runs i := by
  induction runs using List.reverseRecOn with
  | nil => cases h
  | append_singleton runs es ih =>
    rw [after_concat] at h
    by_cases ht : Touches f es
    · rcases (applyEffects_touched runs.length ht (after runs)).1 with hnone | hsome
      · rw [hnone] at h
        cases h
      · rw [hsome] at h
        cases h
        exact lastWith_concat ht
    · rw [applyEffects_untouched ht] at h
      exact (lastWith_concat_not ht).mpr (ih h)

/-- A file that is never removed is there with the stamp of the last run that touched it. -/
theorem after_of_lastWith {runs : List (List (Effect F))} {f : F} {i : ℕ}
    (hnever : ∀ es ∈ runs, .remove f ∉ es) (h : LastWith (Touches f) runs i) :
    after runs f = some i := by
  induction runs using List.reverseRecOn with
  | nil =>
    obtain ⟨⟨es, hes, -⟩, -⟩ := h
    cases hes
  | append_singleton runs es ih =>
    rw [after_concat]
    by_cases ht : Touches f es
    · rw [lastWith_unique h (lastWith_concat ht)]
      exact (applyEffects_touched _ ht (after runs)).2 (hnever es (by simp))
    · rw [applyEffects_untouched ht]
      exact ih (fun fs hfs => hnever fs (by simp [hfs])) ((lastWith_concat_not ht).mp h)

end Stamps

end StampedFiles
