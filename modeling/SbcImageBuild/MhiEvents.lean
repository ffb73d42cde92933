import SbcImageBuild.MhiElement
import SbcImageBuild.MhiRing

/-!
# Events of the modem

The event ring of a group of channels: the device fills it, `mhi_process_data_event_ring` empties
it, and `mhi_mark_stale_events` goes over it when a channel is reset. Both of the driver's loops run
under the ring's lock, the device works at any time between two rounds of them.
-/
namespace MhiEvents

open MhiElement MhiRing RingBuffer StepSystem

/-- What holds the ring's lock: a loop over the events, with the position it works up to and the
rest of its quota, or one that marks the events of a channel. -/
inductive Task where
  | idle
  | process (devRp quota : ℕ)
  | mark (chan devRp localRp : ℕ)
  deriving DecidableEq

/-- A finished call of `process_event`: its quota, the events it handled, and how many there were
when it last looked. -/
structure Call where
  quota : ℕ
  start : ℕ
  stop : ℕ
  seen : ℕ
  deriving DecidableEq

/-- A channel whose events were marked, from the first one not yet handled to the last one there. -/
structure Mark where
  chan : ℕ
  start : ℕ
  stop : ℕ
  deriving DecidableEq

/-- The last fields record what has happened: the events of the device, the same events as the
marks leave them, those that were handled, and the calls. -/
structure State where
  ring : Ring
  memory : ℕ → Tre
  ctxtRp : ℕ
  ctxtWp : ℕ
  task : Task
  posted : List Tre
  log : List Tre
  handled : List Tre
  calls : List Call
  marks : List Mark
  current : Call

inductive Action where
  | post (event : Tre)
  | begin (quota : ℕ)
  | handle
  | finish
  | beginMark (chan : ℕ)
  | markOne
  | endMark
  deriving DecidableEq

/-- The events that use up the quota. -/
def isTransfer (event : Tre) : Bool :=
  treGetEvType event = pktTypeTxEvent ∨ treGetEvType event = pktTypeRscTxEvent

def isStaleFor (chan : ℕ) (event : Tre) : Bool :=
  treGetEvType event = pktTypeTxEvent ∧ chan = treGetEvChid event

/-- What the driver makes of an event while it marks a channel. -/
def markEvent (chan : ℕ) (event : Tre) : Tre :=
  if isStaleFor chan event then { event with dword1 := treEvDword1 chan pktTypeStaleEvent }
  else event

section Steps

variable (s : State)

/-- The ring after `mhi_pm_mission_mode`: all slots but one belong to the device. -/
def missionMode (ring : Ring) (memory : ℕ → Tre) : State where
  ring := { ring with rp := ring.base, wp := ring.base + ring.len - ring.elSize }
  memory := memory
  ctxtRp := ring.iommuBase
  ctxtWp := ring.iommuBase + ring.len - ring.elSize
  task := .idle
  posted := []
  log := []
  handled := []
  calls := []
  marks := []
  current := ⟨0, 0, 0, 0⟩

/-- The device writes at its position, up to the write pointer of its context. -/
def post (event : Tre) : Option State :=
  if s.ctxtRp = s.ctxtWp then none
  else
    some
      { s with
        memory := Function.update s.memory (toVirtual s.ring s.ctxtRp) event
        ctxtRp := toPhysical s.ring (s.ring.after (toVirtual s.ring s.ctxtRp))
        posted := s.posted ++ [event]
        log := s.log ++ [event] }

def begin (quota : ℕ) : Option State :=
  match s.task with
  | .idle =>
    some
      { s with
        task := .process (toVirtual s.ring s.ctxtRp) quota
        current := ⟨quota, s.handled.length, s.handled.length, s.log.length⟩ }
  | _ => none

/-- The event is passed on and its slot given back. -/
def recycled (event : Tre) : State :=
  { s with
    ring := (recycleEvRingElement s.ring).1
    ctxtWp := (recycleEvRingElement s.ring).2
    handled := s.handled ++ [event]
    current := { s.current with stop := s.handled.length + 1 } }

def restOf (quota : ℕ) (event : Tre) : ℕ := if isTransfer event then quota - 1 else quota

/-- One round. The position of the device is looked at again when there is nothing left before it,
or no quota. -/
def handle : Option State :=
  match s.task with
  | .process devRp quota =>
    if devRp = s.ring.rp ∨ quota = 0 then none
    else
      let event := s.memory s.ring.rp
      let rest := restOf quota event
      let s := recycled s event
      if s.ring.rp = devRp ∨ rest = 0 then
        some
          { s with
            task := .process (toVirtual s.ring s.ctxtRp) rest
            current := { s.current with seen := s.log.length } }
      else some { s with task := .process devRp rest }
  | _ => none

def finish : Option State :=
  match s.task with
  | .process devRp quota =>
    if devRp = s.ring.rp ∨ quota = 0 then
      some { s with task := .idle, calls := s.calls ++ [s.current] }
    else none
  | _ => none

def beginMark (chan : ℕ) : Option State :=
  match s.task with
  | .idle =>
    some
      { s with
        task := .mark chan (toVirtual s.ring s.ctxtRp) s.ring.rp
        log := s.log.take s.handled.length ++ (s.log.drop s.handled.length).map (markEvent chan)
        marks := s.marks ++ [⟨chan, s.handled.length, s.log.length⟩] }
  | _ => none

def markOne : Option State :=
  match s.task with
  | .mark chan devRp localRp =>
    if devRp = localRp then none
    else
      some
        { s with
          memory := Function.update s.memory localRp (markEvent chan (s.memory localRp))
          task := .mark chan devRp (s.ring.after localRp) }
  | _ => none

def endMark : Option State :=
  match s.task with
  | .mark _ devRp localRp => if devRp = localRp then some { s with task := .idle } else none
  | _ => none

def step : Action → Option State
  | .post event => post s event
  | .begin quota => begin s quota
  | .handle => handle s
  | .finish => finish s
  | .beginMark chan => beginMark s chan
  | .markOne => markOne s
  | .endMark => endMark s

end Steps

/-! ### The invariant -/

section Invariant

/-- The host is at event `h`, the device at event `t`, and all slots but one are the device's to
fill. -/
structure Pointers (r : Ring) (ctxtRp ctxtWp h t : ℕ) : Prop where
  host : r.At h (h + r.elements - 1)
  device : ctxtRp = r.bus (t % r.elements)
  limit : ctxtWp = r.bus ((h + r.elements - 1) % r.elements)
  le : h ≤ t
  room : t - h < r.elements

variable {r : Ring} {ctxtRp ctxtWp h t : ℕ} {s u : State}

theorem Pointers.virtual (a : Pointers r ctxtRp ctxtWp h t) :
    toVirtual r ctxtRp = r.slot (t % r.elements) := by
  rw [a.device, toVirtual_bus]

theorem Pointers.slot_ne (a : Pointers r ctxtRp ctxtWp h t) {k : ℕ} (hlow : h ≤ k) (hk : k < t) :
    k % r.elements ≠ t % r.elements := by
  intro heq
  have hroom := a.room
  have := eq_of_slot_eq (Nat.le_of_lt hk) (by omega) heq
  omega

theorem Pointers.at_iff (a : Pointers r ctxtRp ctxtWp h t) {q : ℕ} (hlow : h ≤ q) (hq : q ≤ t) :
    r.slot (q % r.elements) = r.rp ↔ q = h := by
  rw [a.host.rp]
  constructor
  · intro heq
    have hroom := a.room
    have hslot := slot_injective a.host.size heq
    exact (eq_of_slot_eq hlow (by omega) hslot.symm).symm
  · intro heq
    rw [heq]

/-- The device fills a slot. -/
theorem Pointers.post (a : Pointers r ctxtRp ctxtWp h t) (hfree : ctxtRp ≠ ctxtWp) :
    Pointers r (toPhysical r (r.after (toVirtual r ctxtRp))) ctxtWp h (t + 1) where
  host := a.host
  device := by
    rw [a.virtual, after_slot a.host.size a.host.elements_pos]
    rfl
  limit := a.limit
  le := Nat.le_succ_of_le a.le
  room := by
    have hle := a.le
    have hroom := a.room
    by_contra hfull
    apply hfree
    have hlast : t = h + r.elements - 1 := by omega
    rw [a.device, a.limit, hlast]

/-- The host gives a slot back. -/
theorem Pointers.recycle (a : Pointers r ctxtRp ctxtWp h t) (hused : h < t) :
    Pointers (recycleEvRingElement r).1 ctxtRp (recycleEvRingElement r).2 (h + 1) t := by
  have hpos := a.host.elements_pos
  have hroom := a.room
  have hnext : h + 1 + r.elements - 1 = h + r.elements - 1 + 1 := by omega
  have hwp : r.after r.wp = r.slot ((h + 1 + r.elements - 1) % r.elements) := by
    rw [a.host.wp, after_slot a.host.size hpos, hnext]
  refine ⟨⟨a.host.size, ?_, ?_, ?_, hwp⟩, a.device, ?_, hused, ?_⟩
  · change h + 1 ≤ h + 1 + r.elements - 1
    omega
  · change h + 1 + r.elements - 1 - (h + 1) < r.elements
    omega
  · change r.after r.rp = r.slot ((h + 1) % r.elements)
    rw [a.host.rp, after_slot a.host.size hpos]
  · change r.iommuBase + (r.after r.wp - r.base) = r.bus ((h + 1 + r.elements - 1) % r.elements)
    rw [hwp]
    exact Nat.add_comm _ _
  · change t - (h + 1) < r.elements
    omega

/-- The ring shows the log from event `h` on, but for the events from `p` to `q`, which are still
to be marked. -/
def Shows (r : Ring) (memory : ℕ → Tre) (log : List Tre) (h : ℕ) (chan p q : ℕ) : Prop :=
  ∀ k, h ≤ k → k < log.length →
    log[k]? = some (if p ≤ k ∧ k < q then markEvent chan (r.cells memory (k % r.elements))
      else r.cells memory (k % r.elements))

def TaskOk (s : State) : Prop :=
  match s.task with
  | .idle => Shows s.ring s.memory s.log s.handled.length 0 0 0
  | .process devRp quota =>
    Shows s.ring s.memory s.log s.handled.length 0 0 0 ∧
      s.current.quota = quota + (s.handled.drop s.current.start).countP isTransfer ∧
      s.current.start ≤ s.handled.length ∧ s.current.stop = s.handled.length ∧
      s.handled.length ≤ s.current.seen ∧ s.current.seen ≤ s.log.length ∧
      devRp = s.ring.slot (s.current.seen % s.ring.elements)
  | .mark chan devRp localRp =>
    ∃ p q, s.handled.length ≤ p ∧ p ≤ q ∧ q ≤ s.log.length ∧
      devRp = s.ring.slot (q % s.ring.elements) ∧ localRp = s.ring.slot (p % s.ring.elements) ∧
      Shows s.ring s.memory s.log s.handled.length chan p q

/-- A call handles no more transfers than its quota, and all that was there unless it is used
up. -/
structure CallOk (handled : List Tre) (c : Call) : Prop where
  start : c.start ≤ c.stop
  stop : c.stop ≤ handled.length
  quota : ((handled.take c.stop).drop c.start).countP isTransfer ≤ c.quota
  all : c.stop = c.seen ∨ ((handled.take c.stop).drop c.start).countP isTransfer = c.quota

/-- How the marks have changed the events. -/
structure MarksOk (posted log : List Tre) (marks : List Mark) : Prop where
  length : posted.length = log.length
  gone : ∀ m ∈ marks, m.stop ≤ log.length ∧ ∀ k e, m.start ≤ k → k < m.stop →
    log[k]? = some e → isStaleFor m.chan e = false
  altered : ∀ k e p, log[k]? = some e → posted[k]? = some p →
    e = p ∨ ∃ m ∈ marks, m.start ≤ k ∧ k < m.stop ∧ isStaleFor m.chan p = true ∧
      e = markEvent m.chan p

structure Inv (s : State) : Prop where
  pointers : Pointers s.ring s.ctxtRp s.ctxtWp s.handled.length s.log.length
  order : s.handled = s.log.take s.handled.length
  task : TaskOk s
  calls : ∀ c ∈ s.calls, CallOk s.handled c
  marks : MarksOk s.posted s.log s.marks

/-! ### What the steps do to the parts of the invariant -/

variable {memory : ℕ → Tre} {log posted handled : List Tre} {marks : List Mark} {chan p q : ℕ}

theorem Shows.post (hshows : Shows r memory log h chan p q)
    (a : Pointers r ctxtRp ctxtWp h log.length) (hq : q ≤ log.length) (event : Tre) :
    Shows r (Function.update memory (toVirtual r ctxtRp) event) (log ++ [event]) h chan p q := by
  intro k hlow hk
  rw [a.virtual, cells_update a.host.size]
  rw [List.length_append, List.length_singleton] at hk
  rcases Nat.lt_or_ge k log.length with hlt | hge
  · rw [List.getElem?_append_left hlt, Function.update_of_ne (a.slot_ne hlow hlt)]
    exact hshows k hlow hlt
  · obtain rfl : k = log.length := by omega
    rw [List.getElem?_append_right (Nat.le_refl _), Nat.sub_self, Function.update_self,
      if_neg (by omega)]
    rfl

theorem Shows.pop (hshows : Shows r memory log h chan p q) :
    Shows r memory log (h + 1) chan p q :=
  fun k hlow => hshows k (Nat.le_of_succ_le hlow)

/-- One more event is marked. -/
theorem Shows.mark (hshows : Shows r memory log h chan p q)
    (a : Pointers r ctxtRp ctxtWp h log.length) (hp : h ≤ p) (hpq : p < q) (hq : q ≤ log.length) :
    Shows r (Function.update memory (r.slot (p % r.elements))
      (markEvent chan (memory (r.slot (p % r.elements))))) log h chan (p + 1) q := by
  intro k hlow hk
  have hk' := hshows k hlow hk
  rw [cells_update a.host.size]
  rcases Nat.lt_trichotomy k p with hlt | heq | hgt
  · have hroom := a.room
    have hne : k % r.elements ≠ p % r.elements := by
      intro heq
      have := eq_of_slot_eq (Nat.le_of_lt hlt) (by omega) heq
      omega
    rw [Function.update_of_ne hne, if_neg (by omega)]
    rw [if_neg (by omega)] at hk'
    exact hk'
  · subst heq
    rw [Function.update_self, if_neg (by omega)]
    rw [if_pos ⟨Nat.le_refl k, hpq⟩] at hk'
    exact hk'
  · have hroom := a.room
    have hne : k % r.elements ≠ p % r.elements := by
      intro heq
      have := eq_of_slot_eq (Nat.le_of_lt hgt) (by omega) heq.symm
      omega
    rw [Function.update_of_ne hne]
    by_cases hkq : k < q
    · rw [if_pos ⟨hgt, hkq⟩]
      rw [if_pos ⟨Nat.le_of_lt hgt, hkq⟩] at hk'
      exact hk'
    · rw [if_neg (by omega)]
      rw [if_neg (by omega)] at hk'
      exact hk'

def markFrom (chan h : ℕ) (log : List Tre) : List Tre :=
  log.take h ++ (log.drop h).map (markEvent chan)

theorem markFrom_length (chan h : ℕ) (log : List Tre) :
    (markFrom chan h log).length = log.length := by
  simp only [markFrom, List.length_append, List.length_take, List.length_map, List.length_drop]
  omega

theorem markFrom_getElem? (chan h : ℕ) (log : List Tre) (k : ℕ) :
    (markFrom chan h log)[k]? = if h ≤ k then log[k]?.map (markEvent chan) else log[k]? := by
  unfold markFrom
  by_cases hk : h ≤ k
  · rw [if_pos hk]
    rcases Nat.lt_or_ge k log.length with hlt | hge
    · have htake : (log.take h).length = h := by
        rw [List.length_take]
        omega
      rw [List.getElem?_append_right (by omega), htake, List.getElem?_map, List.getElem?_drop,
        Nat.add_sub_cancel' hk]
    · have hall : (log.take h ++ (log.drop h).map (markEvent chan)).length ≤ k :=
        (markFrom_length chan h log).trans_le hge
      rw [List.getElem?_eq_none hall, List.getElem?_eq_none hge]
      rfl
  · rw [if_neg hk]
    rcases Nat.lt_or_ge k log.length with hlt | hge
    · rw [List.getElem?_append_left (by rw [List.length_take]; omega),
        List.getElem?_take_of_lt (by omega)]
    · have hall : (log.take h ++ (log.drop h).map (markEvent chan)).length ≤ k :=
        (markFrom_length chan h log).trans_le hge
      rw [List.getElem?_eq_none hall, List.getElem?_eq_none hge]

theorem Shows.beginMark (hshows : Shows r memory log h 0 0 0) (chan : ℕ) :
    Shows r memory (markFrom chan h log) h chan h log.length := by
  intro k hlow hk
  rw [markFrom_length] at hk
  have hk' := hshows k hlow hk
  rw [if_neg (by omega)] at hk'
  rw [markFrom_getElem?, if_pos hlow, if_pos ⟨hlow, hk⟩, hk']
  rfl

/-- A marked event is no transfer any more. -/
theorem treGetEvType_markEvent {chan : ℕ} {event : Tre} (h : isStaleFor chan event = true) :
    treGetEvType (markEvent chan event) = pktTypeStaleEvent := by
  rw [markEvent, if_pos h]
  exact field_type (by decide)

theorem not_stale_markEvent {chan : ℕ} {event : Tre} (h : isStaleFor chan event = true)
    (chan' : ℕ) : isStaleFor chan' (markEvent chan event) = false := by
  unfold isStaleFor
  rw [treGetEvType_markEvent h]
  exact decide_eq_false fun hboth => absurd hboth.1 (by decide)

theorem markEvent_of_not_stale {chan : ℕ} {event : Tre} (h : isStaleFor chan event = false) :
    markEvent chan event = event := by
  rw [markEvent, h]
  rfl

/-- Marking for one channel leaves no event for another one to be marked that was not before. -/
theorem markEvent_keeps {chan chan' : ℕ} {event : Tre} (h : isStaleFor chan' event = false) :
    isStaleFor chan' (markEvent chan event) = false := by
  cases hstale : isStaleFor chan event with
  | true => exact not_stale_markEvent hstale chan'
  | false => rw [markEvent_of_not_stale hstale, h]

theorem markEvent_gone (chan : ℕ) (event : Tre) :
    isStaleFor chan (markEvent chan event) = false := by
  cases hstale : isStaleFor chan event with
  | true => exact not_stale_markEvent hstale chan
  | false => rw [markEvent_of_not_stale hstale, hstale]

theorem MarksOk.post (hmarks : MarksOk posted log marks) (event : Tre) :
    MarksOk (posted ++ [event]) (log ++ [event]) marks where
  length := by
    rw [List.length_append, List.length_append, hmarks.length]
  gone := by
    intro m hm
    obtain ⟨hstop, hgone⟩ := hmarks.gone m hm
    refine ⟨hstop.trans (by rw [List.length_append]; exact Nat.le_add_right _ _), ?_⟩
    intro k e hstart hk he
    rw [List.getElem?_append_left (by omega)] at he
    exact hgone k e hstart hk he
  altered := by
    intro k e p he hp
    rcases Nat.lt_or_ge k log.length with hlt | hge
    · rw [List.getElem?_append_left hlt] at he
      rw [List.getElem?_append_left (hmarks.length ▸ hlt)] at hp
      exact hmarks.altered k e p he hp
    · rw [List.getElem?_append_right hge] at he
      rw [List.getElem?_append_right (hmarks.length ▸ hge), hmarks.length] at hp
      exact .inl (Option.some.inj (he.symm.trans hp))

theorem MarksOk.mark (hmarks : MarksOk posted log marks) (chan h : ℕ) :
    MarksOk posted (markFrom chan h log) (marks ++ [⟨chan, h, log.length⟩]) where
  length := by rw [markFrom_length, hmarks.length]
  gone := by
    intro m hm
    rw [markFrom_length]
    rcases List.mem_append.mp hm with hm | hm
    · obtain ⟨hstop, hgone⟩ := hmarks.gone m hm
      refine ⟨hstop, fun k e hstart hk he => ?_⟩
      rw [markFrom_getElem?] at he
      split at he
      · obtain ⟨e', he', rfl⟩ := Option.map_eq_some_iff.mp he
        exact markEvent_keeps (hgone k e' hstart hk he')
      · exact hgone k e hstart hk he
    · obtain rfl := List.mem_singleton.mp hm
      refine ⟨Nat.le_refl _, fun k e hstart hk he => ?_⟩
      rw [markFrom_getElem?, if_pos hstart] at he
      obtain ⟨e', he', rfl⟩ := Option.map_eq_some_iff.mp he
      exact markEvent_gone chan e'
  altered := by
    intro k e p he hp
    rw [markFrom_getElem?] at he
    split at he
    · rename_i hlow
      obtain ⟨e', he', rfl⟩ := Option.map_eq_some_iff.mp he
      have hk : k < log.length := (List.getElem?_eq_some_iff.mp he').1
      rcases hmarks.altered k e' p he' hp with rfl | ⟨m, hm, hstart, hstop, hstale, rfl⟩
      · cases hstale : isStaleFor chan e' with
        | true =>
          exact .inr
            ⟨_, List.mem_append_right _ (List.mem_singleton.mpr rfl), hlow, hk, hstale, rfl⟩
        | false => exact .inl (markEvent_of_not_stale hstale)
      · refine .inr ⟨m, List.mem_append_left _ hm, hstart, hstop, hstale, ?_⟩
        exact markEvent_of_not_stale (not_stale_markEvent hstale chan)
    · rcases hmarks.altered k e p he hp with rfl | ⟨m, hm, hrest⟩
      · exact .inl rfl
      · exact .inr ⟨m, List.mem_append_left _ hm, hrest⟩

theorem CallOk.append {c : Call} (hc : CallOk handled c) (event : Tre) :
    CallOk (handled ++ [event]) c := by
  have htake : (handled ++ [event]).take c.stop = handled.take c.stop :=
    List.take_append_of_le_length hc.stop
  refine ⟨hc.start, ?_, ?_, ?_⟩
  · rw [List.length_append]
    exact Nat.le_add_right_of_le hc.stop
  · rw [htake]
    exact hc.quota
  · rw [htake]
    exact hc.all

/-! ### Every step keeps the invariant -/

theorem post_inv {event : Tre} (inv : Inv s) (h : post s event = some u) : Inv u := by
  unfold post at h
  split at h
  · cases h
  rename_i hfree
  cases h
  have a := inv.pointers
  have horder : s.handled = (s.log ++ [event]).take s.handled.length := by
    rw [List.take_append_of_le_length a.le]
    exact inv.order
  have hlen : (s.log ++ [event]).length = s.log.length + 1 := by
    rw [List.length_append, List.length_singleton]
  refine ⟨?_, horder, ?_, inv.calls, inv.marks.post event⟩
  · change Pointers s.ring _ _ _ (s.log ++ [event]).length
    rw [hlen]
    exact a.post hfree
  · have htask := inv.task
    unfold TaskOk at htask ⊢
    dsimp only
    generalize s.task = task at htask ⊢
    cases task with
    | idle => exact htask.post a (Nat.zero_le _) event
    | process devRp quota =>
      obtain ⟨hshows, hquota, hstart, hstop, hlow, hseen, hdev⟩ := htask
      refine ⟨hshows.post a (Nat.zero_le _) event, hquota, hstart, hstop, hlow, ?_, hdev⟩
      exact hseen.trans (by omega)
    | mark chan devRp localRp =>
      obtain ⟨p, q, hp, hpq, hq, hdev, hlocal, hshows⟩ := htask
      exact ⟨p, q, hp, hpq, hq.trans (by omega), hdev, hlocal, hshows.post a hq event⟩

theorem begin_inv {quota : ℕ} (inv : Inv s) (h : begin s quota = some u) : Inv u := by
  unfold begin at h
  split at h
  · rename_i htask
    cases h
    have hok := inv.task
    rw [TaskOk, htask] at hok
    refine ⟨inv.pointers, inv.order, ?_, inv.calls, inv.marks⟩
    refine ⟨hok, ?_, Nat.le_refl _, rfl, inv.pointers.le, Nat.le_refl _, inv.pointers.virtual⟩
    change quota = quota + (s.handled.drop s.handled.length).countP isTransfer
    rw [List.drop_length]
    rfl
  · cases h

theorem finish_inv (inv : Inv s) (h : finish s = some u) : Inv u := by
  unfold finish at h
  split at h
  · rename_i devRp quota htask
    split at h
    · rename_i hend
      cases h
      have hok := inv.task
      rw [TaskOk, htask] at hok
      obtain ⟨hshows, hquota, hstart, hstop, hlow, hseen, rfl⟩ := hok
      refine ⟨inv.pointers, inv.order, hshows, ?_, inv.marks⟩
      intro c hc
      rcases List.mem_append.mp hc with hc | hc
      · exact inv.calls c hc
      · obtain rfl := List.mem_singleton.mp hc
        have htake : s.handled.take s.current.stop = s.handled := by
          rw [hstop, List.take_length]
        refine ⟨hstart.trans hstop.ge, hstop.le, ?_, ?_⟩
        · rw [htake]
          omega
        · rw [htake, hstop]
          rcases hend with hrp | hzero
          · exact .inl ((inv.pointers.at_iff hlow hseen).mp hrp).symm
          · exact .inr (by omega)
    · cases h
  · cases h

theorem beginMark_inv {chan : ℕ} (inv : Inv s) (h : beginMark s chan = some u) : Inv u := by
  unfold beginMark at h
  split at h
  · rename_i htask
    cases h
    have hok := inv.task
    rw [TaskOk, htask] at hok
    have a := inv.pointers
    have hlen := markFrom_length chan s.handled.length s.log
    have horder : s.handled = (markFrom chan s.handled.length s.log).take s.handled.length := by
      have htake : (s.log.take s.handled.length).length = s.handled.length := by
        rw [List.length_take]
        exact Nat.min_eq_left a.le
      rw [markFrom, List.take_left' htake]
      exact inv.order
    refine ⟨?_, horder, ?_, inv.calls, inv.marks.mark chan _⟩
    · change Pointers s.ring _ _ _ (markFrom chan s.handled.length s.log).length
      rw [hlen]
      exact a
    · exact ⟨s.handled.length, s.log.length, Nat.le_refl _, a.le, hlen.ge, a.virtual, a.host.rp,
        hok.beginMark chan⟩
  · cases h

theorem markOne_inv (inv : Inv s) (h : markOne s = some u) : Inv u := by
  unfold markOne at h
  split at h
  · rename_i chan devRp localRp htask
    split at h
    · cases h
    rename_i hne
    cases h
    have hok := inv.task
    rw [TaskOk, htask] at hok
    obtain ⟨p, q, hp, hpq, hq, rfl, rfl, hshows⟩ := hok
    have a := inv.pointers
    have hlt : p < q := by
      rcases Nat.lt_or_ge p q with hlt | hge
      · exact hlt
      · obtain rfl : p = q := Nat.le_antisymm hpq hge
        exact absurd rfl hne
    refine ⟨a, inv.order, ?_, inv.calls, inv.marks⟩
    refine ⟨p + 1, q, Nat.le_succ_of_le hp, hlt, hq, rfl, ?_, hshows.mark a hp hlt hq⟩
    exact after_slot a.host.size a.host.elements_pos p
  · cases h

theorem endMark_inv (inv : Inv s) (h : endMark s = some u) : Inv u := by
  unfold endMark at h
  split at h
  · rename_i chan devRp localRp htask
    split at h
    · rename_i heq
      cases h
      have hok := inv.task
      rw [TaskOk, htask] at hok
      obtain ⟨p, q, hp, hpq, hq, rfl, rfl, hshows⟩ := hok
      have a := inv.pointers
      have hroom := a.room
      have hdone : p = q :=
        eq_of_slot_eq hpq (by omega) (slot_injective a.host.size heq).symm
      refine ⟨a, inv.order, fun k hlow hk => ?_, inv.calls, inv.marks⟩
      have hk' := hshows k hlow hk
      rw [if_neg (by omega)] at hk' ⊢
      exact hk'
    · cases h
  · cases h

theorem restOf_eq {quota : ℕ} (hpos : quota ≠ 0) (event : Tre) :
    quota = restOf quota event + [event].countP isTransfer := by
  unfold restOf
  cases htransfer : isTransfer event with
  | true =>
    rw [List.countP_singleton, htransfer, if_pos rfl, if_pos rfl]
    omega
  | false =>
    rw [List.countP_singleton, htransfer]
    rfl

theorem handle_inv (inv : Inv s) (h : handle s = some u) : Inv u := by
  unfold handle at h
  split at h
  · rename_i devRp quota htask
    split at h
    · cases h
    rename_i hmore
    have hok := inv.task
    rw [TaskOk, htask] at hok
    obtain ⟨hshows, hquota, hstart, hstop, hlow, hseen, rfl⟩ := hok
    have a := inv.pointers
    obtain ⟨hrp, hpos⟩ := not_or.mp hmore
    have hlt : s.handled.length < s.current.seen := by
      rcases Nat.lt_or_ge s.handled.length s.current.seen with hlt | hge
      · exact hlt
      · exact absurd ((a.at_iff hlow hseen).mpr (by omega)) hrp
    have hthere : s.handled.length < s.log.length := Nat.lt_of_lt_of_le hlt hseen
    have hevent : s.log[s.handled.length]? = some (s.memory s.ring.rp) := by
      have hfront := hshows _ (Nat.le_refl _) hthere
      rw [if_neg (by omega)] at hfront
      rw [hfront, a.host.rp]
      rfl
    generalize hread : s.memory s.ring.rp = event at h hevent
    have hlen : (s.handled ++ [event]).length = s.handled.length + 1 := by
      rw [List.length_append, List.length_singleton]
    have hpointers : Pointers (recycled s event).ring s.ctxtRp (recycled s event).ctxtWp
        (s.handled ++ [event]).length s.log.length := by
      rw [hlen]
      exact a.recycle hthere
    have horder : s.handled ++ [event] = s.log.take (s.handled ++ [event]).length := by
      rw [hlen, List.take_add_one, hevent, ← inv.order]
      rfl
    have hpop : Shows s.ring s.memory s.log (s.handled ++ [event]).length 0 0 0 := by
      rw [hlen]
      exact hshows.pop
    have hcount : s.current.quota =
        restOf quota event + ((s.handled ++ [event]).drop s.current.start).countP isTransfer := by
      have hrest := restOf_eq hpos event
      rw [List.drop_append_of_le_length hstart, List.countP_append, hquota]
      omega
    have hcalls : ∀ c ∈ s.calls, CallOk (s.handled ++ [event]) c :=
      fun c hc => (inv.calls c hc).append event
    have hstart' : s.current.start ≤ (s.handled ++ [event]).length := by omega
    dsimp only at h
    split at h
    · cases h
      refine ⟨hpointers, horder, ?_, hcalls, inv.marks⟩
      exact ⟨hpop, hcount, hstart', hlen.symm, hpointers.le, Nat.le_refl _, hpointers.virtual⟩
    · cases h
      refine ⟨hpointers, horder, ?_, hcalls, inv.marks⟩
      refine ⟨hpop, hcount, hstart', hlen.symm, ?_, hseen, rfl⟩
      change (s.handled ++ [event]).length ≤ s.current.seen
      omega
  · cases h

theorem step_inv (e : Action) (inv : Inv s) (h : step s e = some u) : Inv u := by
  cases e with
  | post event => exact post_inv inv h
  | begin quota => exact begin_inv inv h
  | handle => exact handle_inv inv h
  | finish => exact finish_inv inv h
  | beginMark chan => exact beginMark_inv inv h
  | markOne => exact markOne_inv inv h
  | endMark => exact endMark_inv inv h

theorem missionMode_inv {ring : Ring} (hsize : 0 < ring.elSize) (hn : 0 < ring.elements)
    (memory : ℕ → Tre) : Inv (missionMode ring memory) := by
  have hlast : ring.base + ring.len - ring.elSize = ring.slot ((0 + ring.elements - 1) %
      ring.elements) := by
    rw [Nat.mod_eq_of_lt (by omega), Nat.zero_add]
    unfold Ring.len Ring.slot
    have hmul : ring.elSize * ring.elements = ring.elSize * (ring.elements - 1) + ring.elSize := by
      rw [← Nat.mul_succ]
      congr 1
      omega
    omega
  have hfirst : ring.slot (0 % ring.elements) = ring.base := by
    rw [Nat.zero_mod]
    rfl
  refine ⟨⟨⟨hsize, Nat.zero_le _, ?_, hfirst.symm, hlast⟩, ?_, ?_, Nat.le_refl _, hn⟩, rfl,
    ?_, ?_, ?_⟩
  · change 0 + ring.elements - 1 - 0 < ring.elements
    omega
  · change ring.iommuBase = toPhysical ring (ring.slot (0 % ring.elements))
    rw [hfirst, toPhysical, Nat.sub_self, Nat.zero_add]
  · change ring.iommuBase + ring.len - ring.elSize =
      toPhysical ring (ring.slot ((0 + ring.elements - 1) % ring.elements))
    rw [← hlast]
    have hle : ring.elSize ≤ ring.len := Nat.le_mul_of_pos_right _ hn
    unfold toPhysical
    omega
  · exact fun k hlow hk => absurd hk (Nat.not_lt_zero k)
  · exact fun c hc => absurd hc List.not_mem_nil
  · exact ⟨rfl, fun m hm => absurd hm List.not_mem_nil, fun k e p he => nomatch he⟩

/-- What holds of the events after any interleaving. -/
structure InOrder (s : State) : Prop where
  /-- Those that were handled are the first ones, each once. -/
  order : s.handled = s.log.take s.handled.length
  /-- The device has overwritten none that was not. -/
  pending : s.task = .idle →
    contents s.ring.elements (s.ring.cells s.memory) s.handled.length s.log.length =
      s.log.drop s.handled.length
  calls : ∀ c ∈ s.calls, CallOk s.handled c
  marks : MarksOk s.posted s.log s.marks

theorem pending_of_inv (inv : Inv s) (hidle : s.task = .idle) :
    contents s.ring.elements (s.ring.cells s.memory) s.handled.length s.log.length =
      s.log.drop s.handled.length := by
  have hok := inv.task
  rw [TaskOk, hidle] at hok
  apply List.ext_getElem?
  intro i
  rw [List.getElem?_drop]
  rcases Nat.lt_or_ge (s.handled.length + i) s.log.length with hlt | hge
  · have hshown := hok _ (Nat.le_add_right _ _) hlt
    rw [if_neg (by omega)] at hshown
    have hcontents := contents_getElem? s.ring.elements (s.ring.cells s.memory)
      (Nat.le_add_right s.handled.length i) hlt
    rw [Nat.add_sub_cancel_left] at hcontents
    rw [hcontents, hshown]
  · have hlen : (contents s.ring.elements (s.ring.cells s.memory) s.handled.length
        s.log.length).length ≤ i := by
      rw [contents_length]
      omega
    rw [List.getElem?_eq_none hge, List.getElem?_eq_none hlen]

/-- However the device, the tasklet and the reset of channels interleave: every event is handled
once and in order, a call takes all that was there or uses its quota up, and of the events that
were pending when a channel was marked, none completes a transfer of it. -/
theorem events_in_order {ring : Ring} (hsize : 0 < ring.elSize) (hn : 0 < ring.elements)
    {memory : ℕ → Tre} {es : List Action} (h : run step es (missionMode ring memory) = some s) :
    InOrder s := by
  have inv := run_invariant (I := Inv) (fun s e t inv he => step_inv e inv he)
    (missionMode_inv hsize hn memory) h
  exact ⟨inv.order, pending_of_inv inv, inv.calls, inv.marks⟩

def threeEvents : State := missionMode ⟨64, 4096, 16, 3, 0, 0⟩ fun _ => ⟨0, 0, 0⟩

/-- A transfer of channel 100, and the event that is left of it. -/
def transferOf100 : Tre := ⟨4096, 0x2000005, 0x64220000⟩
def staleOf100 : Tre := ⟨4096, 0x2000005, 0x64490000⟩

/-- Two events, of which one is handled before the channel is marked. -/
def markBetween : List Action :=
  [.post transferOf100, .post transferOf100, .begin 1, .handle, .finish, .beginMark 100, .markOne,
    .post transferOf100, .endMark, .begin 2, .handle, .handle, .finish]

theorem events_in_order_markBetween :
    ∃ s, run step markBetween threeEvents = some s ∧
      s.handled = [transferOf100, staleOf100, transferOf100] ∧ InOrder s := by
  obtain ⟨s, hs, hhandled⟩ := (Option.any_eq_true _ _).mp
    (by decide : (run step markBetween threeEvents).any (fun s =>
      decide (s.handled = [transferOf100, staleOf100, transferOf100])) = true)
  exact ⟨s, hs, of_decide_eq_true hhandled, events_in_order (by decide) (by decide) hs⟩

end Invariant

end MhiEvents
