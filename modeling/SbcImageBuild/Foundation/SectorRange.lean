import Mathlib.Data.List.Chain
import Mathlib.Order.Interval.Set.Basic
import Mathlib.Order.Disjoint
import Mathlib.Order.CompletePartialOrder
import Mathlib.Data.Set.BooleanAlgebra
import Mathlib.Tactic.Common

/-!
# Sector ranges of a block device

Inclusive ranges, possibly empty, and the order in which they lie on the device.
-/
namespace SectorRange

structure Range where
  first : ℤ
  last : ℤ
  deriving DecidableEq, Repr

/-- A range without sectors ends just before it starts; no range ends earlier. -/
def Range.Proper (r : Range) : Prop := r.first ≤ r.last + 1

def Range.sectors (r : Range) : Set ℤ := {s | r.first ≤ s ∧ s ≤ r.last}

/-- The sectors covered by `n` bytes written from the start of sector `first`. -/
def covering (first : ℤ) (n : ℕ) : Range :=
  ⟨first, first + ((n + 511) / 512 : ℕ) - 1⟩

def Before (a b : Range) : Prop := a.last < b.first

theorem covering_proper (first : ℤ) (n : ℕ) : (covering first n).Proper := by
  change first ≤ first + ((n + 511) / 512 : ℕ) - 1 + 1
  omega

/-- A write from the start of a sector stays below a limit its bytes fit under. -/
theorem covering_last_lt {first limit : ℤ} {n : ℕ} (h : (n : ℤ) ≤ (limit - first) * 512) :
    (covering first n).last < limit := by
  change first + ((n + 511) / 512 : ℕ) - 1 < limit
  omega

theorem before_trans {a b c : Range} (hb : b.Proper) (h : Before a b) (k : Before b c) :
    Before a c := by
  unfold Before Range.Proper at *
  omega

theorem before_disjoint {a b : Range} (h : Before a b) : Disjoint a.sectors b.sectors := by
  rw [Set.disjoint_left]
  rintro x ⟨_, ha⟩ ⟨hb, _⟩
  unfold Before at h
  omega

/-- Neighbouring ranges in order are enough: all of them are in order. -/
theorem ordered_of_chain {rs : List Range} (hp : ∀ r ∈ rs, r.Proper)
    (h : rs.IsChain Before) : rs.Pairwise Before := by
  induction rs with
  | nil => exact .nil
  | cons a rs ih =>
    have ht := ih (fun r hr => hp r (List.mem_cons_of_mem a hr)) h.tail
    refine List.pairwise_cons.mpr ⟨?_, ht⟩
    cases rs with
    | nil => exact fun r hr => absurd hr (List.not_mem_nil)
    | cons b rs =>
      have hab := h.rel
      intro r hr
      rcases List.mem_cons.mp hr with rfl | hr
      · exact hab
      · exact before_trans (hp b (by simp)) hab ((List.pairwise_cons.mp ht).1 r hr)

theorem disjoint_of_ordered {rs : List Range} (h : rs.Pairwise Before) :
    rs.Pairwise fun a b => Disjoint a.sectors b.sectors :=
  h.imp before_disjoint

/-- Ordered ranges lie between the first and the last of them. -/
theorem bounds_of_ordered {a z : Range} {rs : List Range} (ha : a.Proper) (hz : z.Proper)
    (h : (a :: (rs ++ [z])).Pairwise Before) {r : Range}
    (hr : r ∈ a :: (rs ++ [z])) : a.first ≤ r.first ∧ r.last ≤ z.last := by
  obtain ⟨hfirst, hrest⟩ := List.pairwise_cons.mp h
  have hlast := (List.pairwise_append.mp hrest).2.2
  have haz := hfirst z (by simp)
  unfold Before Range.Proper at *
  rcases List.mem_cons.mp hr with rfl | hr
  · omega
  rcases List.mem_append.mp hr with hr | hr
  · have h₁ := hfirst r (by simp [hr])
    have h₂ := hlast r hr z (by simp)
    omega
  · rw [List.mem_singleton] at hr
    subst hr
    omega

end SectorRange
