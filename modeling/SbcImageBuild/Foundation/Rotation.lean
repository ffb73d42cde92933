import Mathlib.Data.List.Nodup
import Mathlib.Data.List.Perm.Subperm
import Mathlib.Tactic.Common

/-!
# Slots that rotate

A pool of one slot more than a queue holds. The queue starts with the slots from zero on, and for
each slot that comes back from it the slot in front of that one is put in.
-/
namespace Rotation

/-- The slots put in so far. A slot that came back is given by the number of its return. -/
def issued (N : ℕ) (returned : List ℕ) : List ℕ :=
  List.range N ++ returned.map fun r => (r + N) % (N + 1)

@[simp] theorem length_issued (N : ℕ) (returned : List ℕ) :
    (issued N returned).length = N + returned.length := by
  simp [issued]

theorem issued_append (N : ℕ) (returned : List ℕ) (r : ℕ) :
    issued N (returned ++ [r]) = issued N returned ++ [(r + N) % (N + 1)] := by
  simp [issued, List.append_assoc]

/-- Two numbers less than a turn apart stand for different slots. -/
theorem slot_ne {N a b : ℕ} (hlt : a < b) (hturn : b - a < N + 1) : b % (N + 1) ≠ a % (N + 1) := by
  intro heq
  have hzero := Nat.sub_mod_eq_zero_of_mod_eq heq
  rw [Nat.mod_eq_of_lt hturn] at hzero
  omega

section Increasing

variable {N k n : ℕ} {returned : List ℕ} (hordered : returned.Pairwise (· < ·))

include hordered

theorem index_le {j r : ℕ} (h : returned[j]? = some r) : j ≤ r := by
  induction j generalizing r with
  | zero => exact Nat.zero_le r
  | succ j ih =>
    obtain ⟨hj, rfl⟩ := List.getElem?_eq_some_iff.mp h
    have hbefore := ih (List.getElem?_eq_getElem (by omega))
    have hstep := List.pairwise_iff_getElem.mp hordered j (j + 1) (by omega) hj (by omega)
    omega

/-- The slot at a place of the queue is the one of its turn exactly if the returns so far have
missed no number. -/
theorem issued_agrees_iff (hbelow : ∀ r ∈ returned, r < k) (h : (issued N returned)[k]? = some n) :
    n = k % (N + 1) ↔ k < N ∨ returned[k - N]? = some (k - N) := by
  rw [issued] at h
  rcases Nat.lt_or_ge k N with hk | hk
  · rw [List.getElem?_append_left (by simpa using hk), List.getElem?_range hk] at h
    have hmod : k % (N + 1) = k := Nat.mod_eq_of_lt (by omega)
    simp only [Option.some.injEq] at h
    exact iff_of_true (by omega) (.inl hk)
  · rw [List.getElem?_append_right (by simpa using hk), List.length_range, List.getElem?_map] at h
    obtain ⟨r, hr, rfl⟩ := Option.map_eq_some_iff.mp h
    have hle := index_le hordered hr
    have hlt := hbelow r (List.mem_of_getElem? hr)
    rw [hr, Option.some.injEq]
    constructor
    · intro heq
      by_contra hne
      have hapart : (r + N) % (N + 1) ≠ k % (N + 1) := slot_ne (by omega) (by omega)
      exact hapart heq
    · rintro (hlow | rfl)
      · omega
      · congr 1
        omega

/-- From some turn on the queue holds no slot that came back before that turn and behind all that
were put in again. -/
theorem issued_apart {a o : ℕ} (hk : a ≤ k) (ho : o < a) (hbehind : ∀ r ∈ returned, r < o)
    (h : (issued N returned)[k]? = some n) : n ≠ o % (N + 1) := by
  rw [issued] at h
  rcases Nat.lt_or_ge k N with hlow | hhigh
  · rw [List.getElem?_append_left (by simpa using hlow), List.getElem?_range hlow] at h
    have hmod : o % (N + 1) = o := Nat.mod_eq_of_lt (by omega)
    simp only [Option.some.injEq] at h
    omega
  · rw [List.getElem?_append_right (by simpa using hhigh), List.length_range,
      List.getElem?_map] at h
    obtain ⟨r, hr, rfl⟩ := Option.map_eq_some_iff.mp h
    have hle := index_le hordered hr
    have hlt := hbehind r (List.mem_of_getElem? hr)
    exact slot_ne (by omega) (by omega)

/-- A number that the returns skipped is none of them. -/
theorem skipped_not_mem {j r : ℕ} (hfront : returned.take j = List.range j)
    (h : returned[j]? = some r) (hne : r ≠ j) : j ∉ returned ∧ j < r := by
  have hle := index_le hordered h
  refine ⟨fun hmem => ?_, by omega⟩
  obtain ⟨i, hi, hij⟩ := List.getElem_of_mem hmem
  obtain ⟨hj, rfl⟩ := List.getElem?_eq_some_iff.mp h
  rcases Nat.lt_trichotomy i j with hlt | rfl | hgt
  · have hin : returned[i] ∈ returned.take j :=
      List.mem_take_iff_getElem.mpr ⟨i, by omega, rfl⟩
    rw [hfront, List.mem_range] at hin
    omega
  · exact hne hij
  · have hstep := List.pairwise_iff_getElem.mp hordered j i hj hi hgt
    omega

end Increasing

/-- The slot behind that of a number. -/
theorem next_slot (N k : ℕ) :
    (if k % (N + 1) + 1 = N + 1 then 0 else k % (N + 1) + 1) = (k + 1) % (N + 1) := by
  have hlt := Nat.mod_lt k (Nat.succ_pos N)
  have hmod : (k + 1) % (N + 1) = (k % (N + 1) + 1) % (N + 1) := (Nat.mod_add_mod k _ _).symm
  rw [hmod]
  generalize k % (N + 1) = slot at hlt ⊢
  split
  · rename_i heq
    rw [heq, Nat.mod_self]
  · rw [Nat.mod_eq_of_lt (by omega)]

/-- The slot in front of that of a number. -/
theorem previous_slot (N k : ℕ) :
    (if k % (N + 1) ≠ 0 then k % (N + 1) - 1 else N) = (k + N) % (N + 1) := by
  have hlt := Nat.mod_lt k (Nat.succ_pos N)
  have hmod : (k + N) % (N + 1) = (k % (N + 1) + N) % (N + 1) := (Nat.mod_add_mod k _ _).symm
  rw [hmod]
  generalize k % (N + 1) = slot at hlt ⊢
  cases slot with
  | zero => simp
  | succ slot =>
    have hsum : slot + 1 + N = slot + (N + 1) := by omega
    rw [if_pos (Nat.succ_ne_zero slot), hsum, Nat.add_mod_right, Nat.mod_eq_of_lt (by omega)]
    rfl

/-- The queue, and what became of the slots that came out of it. Those at their turn are accepted
and numbered. A number waits, until its slot has come back or is lost. -/
structure Pool where
  queue : List ℕ
  taken : ℕ
  accepted : ℕ
  waiting : List ℕ
  returned : List ℕ
  lost : List ℕ
  refused : ℕ

namespace Pool

def accept (p : Pool) : Pool :=
  { p with
    queue := p.queue.tail
    taken := p.taken + 1
    accepted := p.accepted + 1
    waiting := p.waiting ++ [p.accepted] }

def refuse (p : Pool) : Pool :=
  { p with queue := p.queue.tail, taken := p.taken + 1, refused := p.refused + 1 }

def loseLast (p : Pool) (k : ℕ) : Pool :=
  { p with waiting := p.waiting.dropLast, lost := k :: p.lost }

def loseFirst (p : Pool) (k : ℕ) : Pool :=
  { p with waiting := p.waiting.tail, lost := k :: p.lost }

def putBack (N : ℕ) (p : Pool) (k : ℕ) : Pool :=
  { p with
    queue := p.queue ++ [(k + N) % (N + 1)]
    waiting := p.waiting.tail
    returned := p.returned ++ [k] }

def initial (N : ℕ) : Pool := ⟨List.range N, 0, 0, [], [], [], 0⟩

/-- Up to the first refusal the returns have missed no number that is needed by now. -/
structure Rotating (N : ℕ) (p : Pool) : Prop where
  queue : p.queue = (issued N p.returned).drop p.taken
  within : p.taken ≤ N + p.returned.length
  ordered : (p.returned ++ p.waiting).Pairwise (· < ·)
  below : ∀ k ∈ p.returned ++ p.waiting, k < p.accepted
  lost_iff : ∀ k, k ∈ p.lost ↔ k < p.accepted ∧ k ∉ p.returned ++ p.waiting
  turn : p.refused = 0 →
    p.accepted = p.taken ∧ p.returned.take (p.taken - N) = List.range (p.taken - N)
  broken : p.refused ≠ 0 → p.accepted < p.taken ∧ N ≤ p.accepted ∧ p.accepted - N ∈ p.lost

variable {N k n : ℕ} {p : Pool} {rest : List ℕ}

theorem initial_rotating (N : ℕ) : (initial N).Rotating N := by
  constructor <;> simp [initial, issued]

namespace Rotating

theorem accepted_le (h : p.Rotating N) : p.accepted ≤ p.taken := by
  by_cases hz : p.refused = 0
  · exact Nat.le_of_eq (h.turn hz).1
  · exact Nat.le_of_lt (h.broken hz).1

theorem increasing (h : p.Rotating N) : p.returned.Pairwise (· < ·) :=
  (List.pairwise_append.mp h.ordered).1

theorem behind (h : p.Rotating N) : ∀ r ∈ p.returned, ∀ k ∈ p.waiting, r < k :=
  (List.pairwise_append.mp h.ordered).2.2

theorem returned_lt (h : p.Rotating N) : ∀ r ∈ p.returned, r < p.accepted := fun r hr =>
  h.below r (List.mem_append_left _ hr)

theorem at_turn (h : p.Rotating N) (hq : p.queue = n :: rest) :
    (issued N p.returned)[p.taken]? = some n := by
  rw [h.queue] at hq
  rw [← List.head?_drop, hq]
  rfl

/-- What comes next is at its turn exactly if the returns have missed no number so far. -/
theorem turn_iff (h : p.Rotating N) (hq : p.queue = n :: rest) (hz : p.refused = 0) :
    n = p.accepted % (N + 1) ↔
      p.taken < N ∨ p.returned[p.taken - N]? = some (p.taken - N) := by
  rw [(h.turn hz).1]
  exact issued_agrees_iff h.increasing
    (fun r hr => (h.turn hz).1 ▸ h.returned_lt r hr) (h.at_turn hq)

/-- A number less than a turn behind the accepted ones. -/
theorem stays_broken (h : p.Rotating N) (hq : p.queue = n :: rest) (hz : p.refused ≠ 0) :
    n ≠ p.accepted % (N + 1) := by
  obtain ⟨hlt, hroom, -⟩ := h.broken hz
  have hat := h.at_turn hq
  rw [issued, List.getElem?_append_right (by simpa using by omega), List.length_range,
    List.getElem?_map] at hat
  obtain ⟨r, hr, rfl⟩ := Option.map_eq_some_iff.mp hat
  have hle := index_le h.increasing hr
  have hbelow := h.returned_lt r (List.mem_of_getElem? hr)
  exact slot_ne (by omega) (by omega)

/-- The queue holds no slot that waits. -/
theorem apart (h : p.Rotating N) (hn : n ∈ p.queue) (hk : k ∈ p.waiting) : n ≠ k % (N + 1) := by
  rw [h.queue] at hn
  obtain ⟨i, hi, rfl⟩ := List.getElem_of_mem hn
  have hat : (issued N p.returned)[p.taken + i]? =
      some ((issued N p.returned).drop p.taken)[i] := by
    rw [← List.getElem?_drop, List.getElem?_eq_getElem hi]
  have haccepted := h.accepted_le
  exact issued_apart h.increasing (by omega) (h.below k (List.mem_append_right _ hk))
    (fun r hr => h.behind r hr k hk) hat

/-- There is room for every slot that waits. -/
theorem room (h : p.Rotating N) : p.queue.length + p.waiting.length ≤ N := by
  have hcount : (p.returned ++ p.waiting).length ≤ p.accepted := by
    have hnodup : (p.returned ++ p.waiting).Nodup := h.ordered.imp Nat.ne_of_lt
    have hsub : p.returned ++ p.waiting ⊆ List.range p.accepted := fun k hk =>
      List.mem_range.mpr (h.below k hk)
    simpa using (hnodup.subperm hsub).length_le
  have haccepted := h.accepted_le
  have hwithin := h.within
  rw [List.length_append] at hcount
  rw [h.queue, List.length_drop, length_issued]
  omega

theorem refused_iff (h : p.Rotating N) :
    p.refused = 0 ↔ ∀ k ∈ p.lost, p.taken ≤ k + N := by
  constructor
  · intro hz k hk
    by_contra hlt
    obtain ⟨-, htake⟩ := h.turn hz
    have hmem : k ∈ p.returned.take (p.taken - N) := by
      rw [htake, List.mem_range]
      omega
    exact ((h.lost_iff k).mp hk).2 (List.mem_append_left _ (List.mem_of_mem_take hmem))
  · intro hall
    by_contra hz
    obtain ⟨hlt, hroom, hlost⟩ := h.broken hz
    have hle := hall _ hlost
    omega

theorem tail_queue (h : p.Rotating N) :
    p.queue.tail = (issued N p.returned).drop (p.taken + 1) := by
  rw [h.queue, List.tail_drop]

theorem taken_lt (h : p.Rotating N) (hq : p.queue = n :: rest) :
    p.taken < N + p.returned.length := by
  obtain ⟨hlt, -⟩ := List.getElem?_eq_some_iff.mp (h.at_turn hq)
  rwa [length_issued] at hlt

theorem accept (h : p.Rotating N) (hq : p.queue = n :: rest)
    (hn : n = p.accepted % (N + 1)) : p.accept.Rotating N := by
  have hz : p.refused = 0 := by
    by_contra hz
    exact h.stays_broken hq hz hn
  obtain ⟨heq, htake⟩ := h.turn hz
  have hlast : ∀ k ∈ p.returned ++ p.waiting ++ [p.accepted], k < p.accepted + 1 := by
    intro k hk
    rcases List.mem_append.mp hk with hk | hk
    · exact Nat.lt_succ_of_lt (h.below k hk)
    · exact List.mem_singleton.mp hk ▸ Nat.lt_succ_self _
  constructor
  case queue => exact h.tail_queue
  case within => exact h.taken_lt hq
  case ordered =>
    rw [Pool.accept, ← List.append_assoc]
    refine List.pairwise_append.mpr ⟨h.ordered, List.pairwise_singleton _ _, ?_⟩
    intro k hk a ha
    exact List.mem_singleton.mp ha ▸ h.below k hk
  case below =>
    rw [Pool.accept, ← List.append_assoc]
    exact hlast
  case lost_iff =>
    intro k
    change k ∈ p.lost ↔ k < p.accepted + 1 ∧ k ∉ p.returned ++ (p.waiting ++ [p.accepted])
    rw [h.lost_iff k, ← List.append_assoc, List.mem_append (t := [p.accepted]),
      List.mem_singleton]
    constructor
    · rintro ⟨hk, hout⟩
      exact ⟨Nat.lt_succ_of_lt hk, not_or.mpr ⟨hout, by omega⟩⟩
    · rintro ⟨hk, hout⟩
      obtain ⟨hout, hne⟩ := not_or.mp hout
      exact ⟨by omega, hout⟩
  case turn =>
    intro _
    refine ⟨congrArg (· + 1) heq, ?_⟩
    change p.returned.take (p.taken + 1 - N) = List.range (p.taken + 1 - N)
    rcases (h.turn_iff hq hz).mp hn with hlow | hnext
    · have hnone : p.taken + 1 - N = 0 := by omega
      rw [hnone, List.take_zero, List.range_zero]
    · rcases Nat.lt_or_ge p.taken N with hlow | hhigh
      · have hnone : p.taken + 1 - N = 0 := by omega
        rw [hnone, List.take_zero, List.range_zero]
      · have hsucc : p.taken + 1 - N = p.taken - N + 1 := by omega
        rw [hsucc, List.take_add_one, htake, hnext, List.range_succ]
        rfl
  case broken => exact fun hne => absurd hz hne

theorem refuse (h : p.Rotating N) (hq : p.queue = n :: rest)
    (hn : n ≠ p.accepted % (N + 1)) : p.refuse.Rotating N := by
  constructor
  case queue => exact h.tail_queue
  case within => exact h.taken_lt hq
  case ordered => exact h.ordered
  case below => exact h.below
  case lost_iff => exact h.lost_iff
  case turn => exact fun hz => absurd hz (Nat.succ_ne_zero _)
  case broken =>
    intro _
    change p.accepted < p.taken + 1 ∧ N ≤ p.accepted ∧ p.accepted - N ∈ p.lost
    by_cases hz : p.refused = 0
    · obtain ⟨heq, htake⟩ := h.turn hz
      have hmissed := mt (h.turn_iff hq hz).mpr hn
      obtain ⟨hhigh, hne⟩ := not_or.mp hmissed
      have hroom : N ≤ p.taken := Nat.le_of_not_lt hhigh
      have hat := h.taken_lt hq
      obtain ⟨r, hr⟩ : ∃ r, p.returned[p.taken - N]? = some r :=
        ⟨_, List.getElem?_eq_getElem (by omega)⟩
      have hskip := skipped_not_mem h.increasing htake hr (fun heq => hne (heq ▸ hr))
      have hbelow := h.returned_lt r (List.mem_of_getElem? hr)
      refine ⟨by omega, by omega, (h.lost_iff _).mpr ⟨by omega, ?_⟩⟩
      rw [heq, List.mem_append, not_or]
      refine ⟨hskip.1, fun hwait => ?_⟩
      have hbehind := h.behind r (List.mem_of_getElem? hr) _ hwait
      omega
    · obtain ⟨hlt, hroom, hlost⟩ := h.broken hz
      exact ⟨by omega, hroom, hlost⟩

/-- The number that leaves the waiting ones is lost. -/
theorem lose {waiting : List ℕ} (h : p.Rotating N) (hsub : waiting.Sublist p.waiting)
    (hk : ∀ j, j ∈ p.waiting ↔ j ∈ waiting ∨ j = k) (hout : k ∉ waiting) :
    ({ p with waiting := waiting, lost := k :: p.lost } : Pool).Rotating N := by
  have hwait : k ∈ p.waiting := (hk k).mpr (.inr rfl)
  constructor
  case queue => exact h.queue
  case within => exact h.within
  case ordered => exact h.ordered.sublist ((List.Sublist.refl _).append hsub)
  case below =>
    exact fun j hj => h.below j (((List.Sublist.refl _).append hsub).subset hj)
  case lost_iff =>
    intro j
    have hiff := h.lost_iff j
    rw [List.mem_append, hk j] at hiff
    rw [List.mem_cons, List.mem_append]
    by_cases hj : j = k
    · subst hj
      have hbelow := h.below j (List.mem_append_right _ hwait)
      refine iff_of_true (.inl rfl) ⟨hbelow, not_or.mpr ⟨fun hr => ?_, hout⟩⟩
      exact absurd (h.behind j hr j hwait) (Nat.lt_irrefl j)
    · simpa [hj] using hiff
  case turn => exact h.turn
  case broken =>
    intro hne
    obtain ⟨hlt, hroom, hlost⟩ := h.broken hne
    exact ⟨hlt, hroom, List.mem_cons_of_mem _ hlost⟩

theorem loseFirst (h : p.Rotating N) (hw : p.waiting = k :: rest) :
    (p.loseFirst k).Rotating N := by
  have hsorted := (List.pairwise_append.mp h.ordered).2.1
  rw [hw] at hsorted
  refine h.lose (List.tail_sublist _) (fun j => ?_) fun hmem => ?_
  · rw [hw, List.mem_cons, List.tail_cons, or_comm]
  · rw [hw, List.tail_cons] at hmem
    exact absurd (List.rel_of_pairwise_cons hsorted hmem) (Nat.lt_irrefl k)

theorem loseLast (h : p.Rotating N) (hw : p.waiting = rest ++ [k]) :
    (p.loseLast k).Rotating N := by
  have hsorted := (List.pairwise_append.mp h.ordered).2.1
  rw [hw] at hsorted
  refine h.lose (List.dropLast_sublist _) (fun j => ?_)
    fun hmem => ?_
  · rw [hw, List.dropLast_concat, List.mem_append, List.mem_singleton]
  · rw [hw, List.dropLast_concat] at hmem
    have hlt := (List.pairwise_append.mp hsorted).2.2 k hmem k (List.mem_singleton_self k)
    exact absurd hlt (Nat.lt_irrefl k)

theorem putBack (h : p.Rotating N) (hw : p.waiting = k :: rest) :
    (p.putBack N k).Rotating N := by
  have hlist : p.returned ++ [k] ++ p.waiting.tail = p.returned ++ p.waiting := by
    rw [hw, List.append_assoc]
    rfl
  have htake : p.refused = 0 → (p.returned ++ [k]).take (p.taken - N) =
      p.returned.take (p.taken - N) := fun hz => by
    have hwithin := h.within
    exact List.take_append_of_le_length (by omega)
  constructor
  case queue =>
    rw [Pool.putBack, issued_append, h.queue, List.drop_append_of_le_length]
    rw [length_issued]
    exact h.within
  case within =>
    have hwithin := h.within
    change p.taken ≤ N + (p.returned ++ [k]).length
    rw [List.length_append]
    omega
  case ordered => exact hlist.symm ▸ h.ordered
  case below => exact hlist.symm ▸ h.below
  case lost_iff => exact hlist.symm ▸ h.lost_iff
  case turn => exact fun hz => ⟨(h.turn hz).1, (htake hz).trans (h.turn hz).2⟩
  case broken => exact h.broken

end Rotating

end Pool

end Rotation
