import SbcImageBuild.Foundation.RingBuffer
import SbcImageBuild.Foundation.StepSystem

/-!
# Rings of the modem driver

`struct mhi_ring` with its pointers, and the operations of `mhi_main.c` on it. A ring is a queue
that keeps one slot free.
-/
namespace MhiRing

open RingBuffer StepSystem

/-- `iommuBase` is the address of the ring for the device, the other addresses are the host's. -/
structure Ring where
  base : ℕ
  iommuBase : ℕ
  elSize : ℕ
  elements : ℕ
  rp : ℕ
  wp : ℕ
  deriving DecidableEq

def Ring.len (r : Ring) : ℕ := r.elSize * r.elements

/-- One element further, and at the end back to the start. -/
def Ring.after (r : Ring) (p : ℕ) : ℕ :=
  if r.base + r.len ≤ p + r.elSize then r.base else p + r.elSize

def addRingElement (r : Ring) : Ring := { r with wp := r.after r.wp }

def delRingElement (r : Ring) : Ring := { r with rp := r.after r.rp }

def isRingFull (r : Ring) : Bool := r.after r.wp = r.rp

def getNrAvailRingElements (r : Ring) : ℤ :=
  if r.wp < r.rp then ((r.rp - r.wp) / r.elSize : ℕ) - 1
  else ((r.rp - r.base) / r.elSize : ℕ) + (((r.base + r.len - r.wp) / r.elSize : ℕ) - 1)

def treSize : ℕ := 16

def getUsedRingElements (rp wp elNum : ℕ) : ℕ :=
  if rp ≤ wp then (wp - rp) / treSize else elNum - (rp - wp) / treSize

def toVirtual (r : Ring) (addr : ℕ) : ℕ := addr - r.iommuBase + r.base

def toPhysical (r : Ring) (addr : ℕ) : ℕ := addr - r.base + r.iommuBase

/-- A slot is given back to the device and the next one is read. The result is the ring with the
write pointer that the device sees. -/
def recycleEvRingElement (r : Ring) : Ring × ℕ :=
  let r := addRingElement r
  (delRingElement r, r.iommuBase + (r.wp - r.base))

/-- Both pointers at the start. -/
def Ring.reset (r : Ring) : Ring := { r with rp := r.base, wp := r.base }

/-- The address of a slot. -/
def Ring.slot (r : Ring) (i : ℕ) : ℕ := r.base + r.elSize * i

/-- The same slot for the device. -/
def Ring.bus (r : Ring) (i : ℕ) : ℕ := toPhysical r (r.slot i)

/-- The memory of the ring by slots. -/
def Ring.cells {α : Type} (r : Ring) (memory : ℕ → α) (i : ℕ) : α := memory (r.slot i)

@[simp] theorem cells_add {α : Type} (r : Ring) (memory : ℕ → α) :
    (addRingElement r).cells memory = r.cells memory := rfl

@[simp] theorem cells_del {α : Type} (r : Ring) (memory : ℕ → α) :
    (delRingElement r).cells memory = r.cells memory := rfl

@[simp] theorem elements_add (r : Ring) : (addRingElement r).elements = r.elements := rfl

@[simp] theorem elements_del (r : Ring) : (delRingElement r).elements = r.elements := rfl

theorem slot_injective {r : Ring} (size : 0 < r.elSize) {i j : ℕ} (heq : r.slot i = r.slot j) :
    i = j :=
  Nat.eq_of_mul_eq_mul_left size (Nat.add_left_cancel heq)

theorem after_slot {r : Ring} (size : 0 < r.elSize) (hn : 0 < r.elements) (k : ℕ) :
    r.after (r.slot (k % r.elements)) = r.slot ((k + 1) % r.elements) := by
  have wraps : r.base + r.len ≤ r.slot (k % r.elements) + r.elSize ↔
      r.elements ≤ k % r.elements + 1 := by
    unfold Ring.len Ring.slot
    rw [Nat.add_assoc, Nat.add_le_add_iff_left, ← Nat.mul_succ]
    exact Nat.mul_le_mul_left_iff size
  rw [← next_mod hn k, next, Ring.after]
  by_cases hw : r.elements ≤ k % r.elements + 1
  · rw [if_pos hw, if_pos (wraps.mpr hw)]
    rfl
  · rw [if_neg hw, if_neg fun hle => hw (wraps.mp hle)]
    unfold Ring.slot
    rw [Nat.mul_succ, Nat.add_assoc]

theorem toVirtual_bus (r : Ring) (i : ℕ) : toVirtual r (r.bus i) = r.slot i := by
  unfold toVirtual Ring.bus toPhysical Ring.slot
  omega

theorem bus_injective {r : Ring} (size : 0 < r.elSize) {i j : ℕ} (heq : r.bus i = r.bus j) :
    i = j := by
  apply slot_injective size
  rw [← toVirtual_bus, ← toVirtual_bus, heq]

/-- A write to a slot is a write to the cell of that slot. -/
theorem cells_update {α : Type} {r : Ring} (size : 0 < r.elSize) (memory : ℕ → α) (j : ℕ) (x : α) :
    r.cells (Function.update memory (r.slot j) x) = Function.update (r.cells memory) j x := by
  funext i
  unfold Ring.cells
  rw [Function.update_apply, Function.update_apply]
  exact if_congr ⟨fun heq => slot_injective size heq, fun heq => by rw [heq]⟩ rfl rfl

/-- The pointers stand at the slots of two counters, and at least one slot is free. -/
structure Ring.At (r : Ring) (h t : ℕ) : Prop where
  size : 0 < r.elSize
  le : h ≤ t
  room : t - h < r.elements
  rp : r.rp = r.slot (h % r.elements)
  wp : r.wp = r.slot (t % r.elements)

namespace Ring.At

variable {r : Ring} {h t : ℕ}

theorem elements_pos (a : r.At h t) : 0 < r.elements := Nat.lt_of_le_of_lt (Nat.zero_le _) a.room

theorem slot_lt (a : r.At h t) (k : ℕ) : k % r.elements < r.elements :=
  Nat.mod_lt k a.elements_pos

theorem add (a : r.At h t) (free : t + 1 - h < r.elements) : (addRingElement r).At h (t + 1) where
  size := a.size
  le := Nat.le_succ_of_le a.le
  room := free
  rp := a.rp
  wp := by
    change r.after r.wp = _
    rw [a.wp, after_slot a.size a.elements_pos]
    rfl

theorem del (a : r.At h t) (used : h < t) : (delRingElement r).At (h + 1) t where
  size := a.size
  le := used
  room := by
    have hroom := a.room
    change t - (h + 1) < r.elements
    omega
  rp := by
    change r.after r.rp = _
    rw [a.rp, after_slot a.size a.elements_pos]
    rfl
  wp := a.wp

theorem isRingFull_iff (a : r.At h t) : isRingFull r = true ↔ t + 1 - h = r.elements := by
  have hle := a.le
  have hroom := a.room
  rw [isRingFull, decide_eq_true_iff, a.wp, a.rp, after_slot a.size a.elements_pos]
  constructor
  · intro heq
    have hslot := slot_injective a.size heq
    by_contra hne
    have := eq_of_slot_eq (by omega : h ≤ t + 1) (by omega) hslot.symm
    omega
  · intro heq
    have hcounter : t + 1 = h + r.elements := by omega
    rw [hcounter, Nat.add_mod_right]

theorem free_of_not_full (a : r.At h t) (hfull : isRingFull r = false) :
    t + 1 - h < r.elements := by
  have hroom := a.room
  have hne : t + 1 - h ≠ r.elements := fun heq =>
    Bool.false_ne_true (hfull.symm.trans (a.isRingFull_iff.mpr heq))
  have := a.le
  omega

theorem empty_iff (a : r.At h t) : r.rp = r.wp ↔ h = t := by
  rw [a.rp, a.wp]
  exact ⟨fun heq => eq_of_slot_eq a.le a.room (slot_injective a.size heq), fun heq => by rw [heq]⟩

/-- The distance between two slots, as the driver computes it. -/
theorem slot_sub (a : r.At h t) (i j : ℕ) : (r.slot i - r.slot j) / r.elSize = i - j := by
  unfold Ring.slot
  rw [Nat.add_sub_add_left, ← Nat.mul_sub, Nat.mul_div_cancel_left _ a.size]

theorem slot_le_iff (a : r.At h t) {i j : ℕ} : r.slot i ≤ r.slot j ↔ i ≤ j := by
  unfold Ring.slot
  rw [Nat.add_le_add_iff_left]
  exact Nat.mul_le_mul_left_iff a.size

theorem getNrAvailRingElements_eq (a : r.At h t) :
    getNrAvailRingElements r = (r.elements : ℤ) - 1 - ((t : ℤ) - h) := by
  have hdist := distance_mod a.le a.room
  have hle := a.le
  have hslotH := a.slot_lt h
  have hslotT := a.slot_lt t
  have horder := a.slot_le_iff (i := h % r.elements) (j := t % r.elements)
  have hfirst : r.slot 0 = r.base := rfl
  have hend : r.slot r.elements = r.base + r.len := rfl
  unfold getNrAvailRingElements
  rw [a.rp, a.wp, ← hend, ← hfirst, a.slot_sub, a.slot_sub, a.slot_sub]
  unfold distance at hdist
  split <;> split at hdist <;> omega

/-- Between two read pointers of a transfer ring lie the elements released in between. -/
theorem getUsedRingElements_eq (a : r.At h t) (hsize : r.elSize = treSize) {k : ℕ} (hle : h ≤ k)
    (hk : k - h < r.elements) :
    getUsedRingElements (r.slot (h % r.elements)) (r.slot (k % r.elements)) r.elements = k - h := by
  have hdist := distance_mod hle hk
  have hslotH := a.slot_lt h
  have horder := a.slot_le_iff (i := h % r.elements) (j := k % r.elements)
  unfold getUsedRingElements
  rw [← hsize, a.slot_sub, a.slot_sub]
  unfold distance at hdist
  split <;> split at hdist <;> omega

end Ring.At

theorem reset_at {r : Ring} (hsize : 0 < r.elSize) (hn : 0 < r.elements) : r.reset.At 0 0 :=
  ⟨hsize, Nat.le_refl 0, hn, by simp [Ring.reset, Ring.slot], by simp [Ring.reset, Ring.slot]⟩

section Queue

variable {α : Type}

/-- A ring with its memory. -/
structure Store (α : Type) where
  ring : Ring
  memory : ℕ → α

inductive Access (α : Type) where
  | put (x : α)
  | take

/-- An element is stored unless the ring is full, and released unless it is empty. -/
def Store.step (s : Store α) : Access α → Option (Store α)
  | .put x =>
    if isRingFull s.ring then none
    else some ⟨addRingElement s.ring, Function.update s.memory s.ring.wp x⟩
  | .take => if s.ring.rp = s.ring.wp then none else some ⟨delRingElement s.ring, s.memory⟩

/-- What a ring is for: a queue of bounded length. -/
def queueStep (bound : ℕ) (q : List α) : Access α → Option (List α)
  | .put x => if q.length < bound then some (q ++ [x]) else none
  | .take =>
    match q with
    | [] => none
    | _ :: q => some q

/-- The queue lies between the pointers, its front at the read pointer, and the count of free
elements is what is left of the bound. -/
structure Represents (s : Store α) (n : ℕ) (q : List α) : Prop where
  elements : s.ring.elements = n
  front : q ≠ [] → q.head? = some (s.memory s.ring.rp)
  free : getNrAvailRingElements s.ring = (n : ℤ) - 1 - q.length
  lies : ∃ h t, s.ring.At h t ∧ q = contents n (s.ring.cells s.memory) h t

theorem represents_of_at {s : Store α} {h t : ℕ} (a : s.ring.At h t) :
    Represents s s.ring.elements (contents s.ring.elements (s.ring.cells s.memory) h t) where
  elements := rfl
  front := by
    intro hne
    rcases Nat.lt_or_ge h t with hlt | hge
    · rw [contents_pop _ hlt, a.rp]
      rfl
    · have heq : h = t := Nat.le_antisymm a.le hge
      exact absurd (by rw [heq, contents_self]) hne
  free := by
    have hle := a.le
    rw [a.getNrAvailRingElements_eq, contents_length]
    omega
  lies := ⟨h, t, a, rfl⟩

theorem store_step_rel {n : ℕ} {s : Store α} {q : List α} (e : Access α)
    (rep : Represents s n q) :
    Option.Rel (fun s q => Represents s n q) (s.step e) (queueStep (n - 1) q e) := by
  obtain ⟨rfl, -, -, h, t, a, rfl⟩ := rep
  have hle := a.le
  have hroom := a.room
  cases e with
  | put x =>
    simp only [Store.step, queueStep, contents_length]
    cases hfull : isRingFull s.ring with
    | true =>
      have hcount := a.isRingFull_iff.mp hfull
      rw [if_pos rfl, if_neg (by omega : ¬ t - h < s.ring.elements - 1)]
      exact .none
    | false =>
      have hfree := a.free_of_not_full hfull
      rw [if_neg Bool.false_ne_true, if_pos (by omega : t - h < s.ring.elements - 1)]
      refine .some ?_
      rw [← contents_push _ x hle hroom, ← cells_update a.size, ← a.wp]
      exact represents_of_at (s := ⟨addRingElement s.ring, _⟩) (a.add hfree)
  | take =>
    simp only [Store.step, queueStep]
    rcases Nat.lt_or_ge h t with hlt | hge
    · rw [if_neg fun heq => absurd (a.empty_iff.mp heq) (by omega), contents_pop _ hlt]
      exact .some (represents_of_at (s := ⟨delRingElement s.ring, _⟩) (a.del hlt))
    · obtain rfl : h = t := Nat.le_antisymm hle hge
      rw [if_pos (a.empty_iff.mpr rfl), contents_self]
      exact .none

/-- From the reset on, a ring is a queue of one element less than it has slots: the same accesses
are possible on both, and after them the ring holds the queue. -/
theorem ring_refines_queue {r : Ring} (hsize : 0 < r.elSize) (hn : 0 < r.elements)
    (memory : ℕ → α) (es : List (Access α)) :
    Option.Rel (fun s q => Represents s r.elements q) (run Store.step es ⟨r.reset, memory⟩)
      (run (queueStep (r.elements - 1)) es []) := by
  have start := represents_of_at (s := ⟨r.reset, memory⟩) (reset_at hsize hn)
  rw [contents_self] at start
  exact run_rel (fun s q e rep => store_step_rel e rep) start es

theorem ring_refines_queue_three :
    Option.Rel (fun s q => Represents s 3 q)
      (run Store.step [.put 7, .take, .put 8, .put 9]
        ⟨(⟨64, 0, 16, 3, 0, 0⟩ : Ring).reset, fun _ => 0⟩)
      (run (queueStep 2) [.put 7, .take, .put 8, .put 9] []) :=
  ring_refines_queue (r := ⟨64, 0, 16, 3, 0, 0⟩) (by decide) (by decide) (fun _ => 0)
    [.put 7, .take, .put 8, .put 9]

end Queue

end MhiRing
