import Mathlib.Data.List.Range
import Mathlib.Logic.Function.Basic
import Mathlib.Tactic.Common

/-!
# Ring buffers

A ring of `n` slots under counters that only grow: counter `k` stands for slot `k % n`. Counters
less than `n` apart stand for different slots, and the cells between two of them hold a queue.
-/
namespace RingBuffer

variable {α : Type}

/-- The slot behind slot `i`. -/
def next (n i : ℕ) : ℕ := if n ≤ i + 1 then 0 else i + 1

/-- How many slots lie between slot `i` and slot `j`. -/
def distance (n i j : ℕ) : ℕ := if i ≤ j then j - i else n - i + j

/-- The slot of a counter that is less than `n` ahead. -/
theorem add_mod_slot {n : ℕ} (a : ℕ) {d : ℕ} (h : d < n) :
    (a + d) % n = if a % n + d < n then a % n + d else a % n + d - n := by
  have hslot := Nat.mod_lt a (by omega : 0 < n)
  rw [Nat.add_mod, Nat.mod_eq_of_lt h]
  by_cases hin : a % n + d < n
  · rw [if_pos hin, Nat.mod_eq_of_lt hin]
  · rw [if_neg hin, Nat.mod_eq_sub_mod (by omega), Nat.mod_eq_of_lt (by omega)]

theorem next_mod {n : ℕ} (h : 0 < n) (k : ℕ) : next n (k % n) = (k + 1) % n := by
  have hslot := Nat.mod_lt k h
  unfold next
  by_cases hone : n = 1
  · subst hone
    rw [if_pos (by omega), Nat.mod_one]
  · rw [add_mod_slot k (by omega : 1 < n)]
    split <;> split <;> omega

theorem distance_mod {n a b : ℕ} (hle : a ≤ b) (h : b - a < n) :
    distance n (a % n) (b % n) = b - a := by
  obtain ⟨d, rfl⟩ := Nat.exists_eq_add_of_le hle
  have hslot := Nat.mod_lt a (by omega : 0 < n)
  rw [Nat.add_sub_cancel_left] at h
  rw [add_mod_slot a h]
  unfold distance
  split <;> split <;> omega

/-- Counters less than `n` apart are told apart by their slots. -/
theorem eq_of_slot_eq {n a b : ℕ} (hle : a ≤ b) (h : b - a < n) (hslot : a % n = b % n) :
    a = b := by
  have hd := distance_mod hle h
  rw [hslot, distance, if_pos (Nat.le_refl _)] at hd
  omega

/-- The elements from counter `h` to counter `t`. -/
def contents (n : ℕ) (cells : ℕ → α) (h t : ℕ) : List α :=
  (List.range' h (t - h)).map fun k => cells (k % n)

@[simp] theorem contents_self (n : ℕ) (cells : ℕ → α) (h : ℕ) : contents n cells h h = [] := by
  simp [contents]

@[simp] theorem contents_length (n : ℕ) (cells : ℕ → α) (h t : ℕ) :
    (contents n cells h t).length = t - h := by
  simp [contents]

/-- The element at the front leaves. -/
theorem contents_pop {n : ℕ} (cells : ℕ → α) {h t : ℕ} (hlt : h < t) :
    contents n cells h t = cells (h % n) :: contents n cells (h + 1) t := by
  have hlen : t - h = t - (h + 1) + 1 := by omega
  rw [contents, hlen, List.range'_succ, List.map_cons]
  rfl

/-- A write to a slot outside leaves the queue as it is. -/
theorem contents_update {n : ℕ} (cells : ℕ → α) {h t k : ℕ} (x : α)
    (hout : ∀ j, h ≤ j → j < t → j % n ≠ k % n) :
    contents n (Function.update cells (k % n) x) h t = contents n cells h t := by
  unfold contents
  apply List.map_congr_left
  intro j hj
  obtain ⟨hlow, hhigh⟩ := List.mem_range'_1.mp hj
  exact Function.update_of_ne (hout j hlow (by omega)) x cells

theorem contents_succ {n : ℕ} (cells : ℕ → α) {h t : ℕ} (hle : h ≤ t) :
    contents n cells h (t + 1) = contents n cells h t ++ [cells (t % n)] := by
  have hlen : t + 1 - h = t - h + 1 := by omega
  rw [contents, hlen, List.range'_concat, List.map_append]
  have hlast : h + 1 * (t - h) = t := by omega
  rw [hlast]
  rfl

/-- With a free slot left, a write behind the back overwrites none of the queue. -/
theorem contents_update_back {n : ℕ} (cells : ℕ → α) {h t : ℕ} (x : α) (room : t - h < n) :
    contents n (Function.update cells (t % n) x) h t = contents n cells h t := by
  apply contents_update
  intro j hlow hhigh heq
  have := eq_of_slot_eq (by omega : j ≤ t) (by omega) heq
  omega

theorem contents_push {n : ℕ} (cells : ℕ → α) {h t : ℕ} (x : α) (hle : h ≤ t)
    (room : t - h < n) :
    contents n (Function.update cells (t % n) x) h (t + 1) = contents n cells h t ++ [x] := by
  rw [contents_succ _ hle, Function.update_self, contents_update_back _ _ room]

theorem contents_getElem? (n : ℕ) (cells : ℕ → α) {h t k : ℕ} (hlow : h ≤ k) (hhigh : k < t) :
    (contents n cells h t)[k - h]? = some (cells (k % n)) := by
  have hk : h + 1 * (k - h) = k := by omega
  rw [contents, List.getElem?_map, List.getElem?_range' (by omega), hk]
  rfl

/-- The next element of a list makes a longer prefix. -/
theorem prefix_concat_next {xs ys : List α} {x : α} (h : xs <+: ys)
    (hx : ys[xs.length]? = some x) : xs ++ [x] <+: ys := by
  obtain ⟨zs, rfl⟩ := h
  rw [List.getElem?_append_right (Nat.le_refl _), Nat.sub_self] at hx
  cases zs with
  | nil => cases hx
  | cons z zs =>
    obtain rfl : z = x := by simpa using hx
    exact ⟨zs, by simp⟩

end RingBuffer
