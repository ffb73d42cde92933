import Mathlib.Data.Finset.Sort

/-!
# Precedence before age

The search with a list of patterns: the first pattern that is matched at all decides, and of its
matches the greatest one is taken.
-/
namespace Precedence

variable {π α : Type} [LinearOrder α]

def greatest (s : Finset α) : Option α := (s.sort (· ≥ ·)).head?

theorem greatest_eq_some_iff {s : Finset α} {a : α} :
    greatest s = some a ↔ a ∈ s ∧ ∀ b ∈ s, b ≤ a := by
  have hsorted := s.pairwise_sort (· ≥ ·)
  have hmem : ∀ b, b ∈ s.sort (· ≥ ·) ↔ b ∈ s := fun b => Finset.mem_sort _
  unfold greatest
  cases hs : s.sort (· ≥ ·) with
  | nil =>
    rw [hs] at hmem
    constructor
    · intro h
      cases h
    · intro h
      exact absurd ((hmem a).mpr h.1) List.not_mem_nil
  | cons m rest =>
    rw [hs] at hmem hsorted
    have hgreatest : ∀ b ∈ s, b ≤ m := by
      intro b hb
      rcases List.mem_cons.mp ((hmem b).mpr hb) with rfl | hrest
      · exact le_refl _
      · exact List.rel_of_pairwise_cons hsorted hrest
    have hm : m ∈ s := (hmem m).mp List.mem_cons_self
    rw [List.head?_cons, Option.some.injEq]
    constructor
    · rintro rfl
      exact ⟨hm, hgreatest⟩
    · rintro ⟨ha, hle⟩
      exact le_antisymm (hle m hm) (hgreatest a ha)

theorem greatest_eq_none_iff {s : Finset α} : greatest s = none ↔ s = ∅ := by
  rw [greatest, List.head?_eq_none_iff, Finset.eq_empty_iff_forall_notMem,
    List.eq_nil_iff_forall_not_mem]
  simp

def search (found : π → Finset α) (patterns : List π) : Option α :=
  patterns.findSome? fun p => greatest (found p)

theorem search_eq_some_iff {found : π → Finset α} {patterns : List π} {a : α} :
    search found patterns = some a ↔ ∃ before p after, patterns = before ++ p :: after ∧
      (a ∈ found p ∧ ∀ b ∈ found p, b ≤ a) ∧ ∀ q ∈ before, found q = ∅ := by
  rw [search, List.findSome?_eq_some_iff]
  simp only [greatest_eq_some_iff, greatest_eq_none_iff]

/-- Every match that is not good loses against a good one: one of an earlier pattern, or a
greater one of the same pattern. -/
def Outranked (found : π → Finset α) (patterns : List π) (good : α → Prop) : Prop :=
  ∀ before p after, patterns = before ++ p :: after → ∀ c ∈ found p, ¬ good c →
    (∃ q ∈ before, ∃ g ∈ found q, good g) ∨ ∃ g ∈ found p, good g ∧ c < g

/-- A search that succeeds has a good result exactly when the others are outranked. -/
theorem good_iff_outranked {found : π → Finset α} {patterns : List π} {good : α → Prop} {a : α}
    (h : search found patterns = some a) : good a ↔ Outranked found patterns good := by
  obtain ⟨before, p, after, rfl, ⟨ha, hgreatest⟩, hnone⟩ := search_eq_some_iff.mp h
  constructor
  · intro hgood before' p' after' heq c hc hbad
    have latest (hc : c ∈ found p) : ∃ g ∈ found p, good g ∧ c < g :=
      ⟨a, ha, hgood, lt_of_le_of_ne (hgreatest c hc) fun heq => hbad (heq ▸ hgood)⟩
    -- the deciding pattern stands at or before every pattern that has a match
    rcases List.append_eq_append_iff.mp heq with ⟨between, hsplit, hrest⟩ | ⟨between, hsplit, hrest⟩
    · cases between with
      | nil =>
        obtain ⟨rfl, -⟩ := List.cons.inj hrest
        exact .inr (latest hc)
      | cons q between =>
        obtain ⟨rfl, -⟩ := List.cons.inj hrest
        exact .inl ⟨p, hsplit ▸ by simp, a, ha, hgood⟩
    · cases between with
      | nil =>
        obtain ⟨rfl, -⟩ := List.cons.inj hrest
        exact .inr (latest hc)
      | cons q between =>
        obtain ⟨rfl, -⟩ := List.cons.inj hrest
        rw [hnone p' (hsplit ▸ by simp)] at hc
        exact absurd hc (Finset.notMem_empty c)
  · intro houtranked
    by_contra hbad
    rcases houtranked before p after rfl a ha hbad with ⟨q, hq, g, hg, -⟩ | ⟨g, hg, -, hlt⟩
    · rw [hnone q hq] at hg
      exact absurd hg (Finset.notMem_empty g)
    · exact absurd hlt (not_lt.mpr (hgreatest g hg))

end Precedence
