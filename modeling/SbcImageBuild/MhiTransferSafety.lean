import SbcImageBuild.MhiTransfer

/-!
# Safety of the transfers

What holds of a channel after any interleaving of its client, its tasklet and its device: the rings
hold the requests in order, and every buffer comes back once.
-/
namespace MhiTransfer

open MhiElement MhiRing RingBuffer StepSystem

/-! ### The rings -/

def Consumer.treHead : Consumer → ℕ → ℕ
  | .treReleased .., done => done + 1
  | _, done => done

def Consumer.bufHead : Consumer → ℕ → ℕ
  | .bufReleased .., done => done + 1
  | .treReleased .., done => done + 1
  | _, done => done

def Producer.bufTail : Producer → ℕ → ℕ
  | .treAdded _, count => count - 1
  | _, count => count

theorem Consumer.treHead_le_bufHead (c : Consumer) (done : ℕ) :
    c.treHead done ≤ c.bufHead done := by
  cases c <;> simp [treHead, bufHead]

/-- The transfer ring holds the descriptors of all requests from `treHead` on, the buffer ring the
entries of all requests from `bufHead` on. The buffer ring's own write pointer may be one behind. -/
structure Rings (tre buf : Ring) (tres : ℕ → Tre) (infos : ℕ → BufInfo) (all : List Posted)
    (treHead bufHead bufTail : ℕ) : Prop where
  treAt : tre.At treHead all.length
  size : tre.elSize = treSize
  bufSize : 0 < buf.elSize
  same : buf.elements = tre.elements
  bufRp : buf.rp = buf.slot (bufHead % buf.elements)
  bufWp : buf.wp = buf.slot (bufTail % buf.elements)
  descriptors : contents tre.elements (tre.cells tres) treHead all.length =
    (all.drop treHead).map Posted.tre
  buffers : contents buf.elements (buf.cells infos) bufHead all.length =
    (all.drop bufHead).map Posted.info

namespace Rings

variable {tre buf : Ring} {tres : ℕ → Tre} {infos : ℕ → BufInfo} {all : List Posted}
  {treHead bufHead bufTail : ℕ}

theorem buf_pos (h : Rings tre buf tres infos all treHead bufHead bufTail) : 0 < buf.elements := by
  rw [h.same]
  exact h.treAt.elements_pos

/-- With room in the transfer ring, the entry of the next request overwrites none in use. -/
theorem fill (h : Rings tre buf tres infos all treHead bufHead all.length) (p : Posted)
    (hle : treHead ≤ bufHead) :
    Rings tre buf (Function.update tres tre.wp p.tre) (Function.update infos buf.wp p.info) all
      treHead bufHead all.length := by
  have hroom := h.treAt.room
  refine { h with descriptors := ?_, buffers := ?_ }
  · rw [h.treAt.wp, cells_update h.treAt.size, contents_update_back _ _ hroom, h.descriptors]
  · have hbuf : all.length - bufHead < buf.elements := by
      rw [h.same]
      omega
    rw [h.bufWp, cells_update h.bufSize, contents_update_back _ _ hbuf, h.buffers]

theorem addTre (h : Rings tre buf tres infos all treHead bufHead all.length) {p : Posted}
    (free : all.length + 1 - treHead < tre.elements) (hbuf : bufHead ≤ all.length)
    (htre : tres tre.wp = p.tre) (hinfo : infos buf.wp = p.info) :
    Rings (addRingElement tre) buf tres infos (all ++ [p]) treHead bufHead all.length := by
  have htreHead := h.treAt.le
  refine { h with treAt := ?_, size := h.size, same := h.same, descriptors := ?_, buffers := ?_ }
  · rw [List.length_append]
    exact h.treAt.add free
  · rw [List.length_append, List.length_singleton, elements_add, cells_add,
      contents_succ _ htreHead, h.descriptors, List.drop_append_of_le_length htreHead,
      List.map_append, List.map_singleton, ← htre, h.treAt.wp]
    rfl
  · rw [List.length_append, List.length_singleton, contents_succ _ hbuf, h.buffers,
      List.drop_append_of_le_length hbuf, List.map_append, List.map_singleton, ← hinfo, h.bufWp]
    rfl

theorem addBuf (h : Rings tre buf tres infos all treHead bufHead bufTail) :
    Rings tre (addRingElement buf) tres infos all treHead bufHead (bufTail + 1) :=
  { h with
    bufWp := by
      change buf.after buf.wp = _
      rw [h.bufWp, after_slot h.bufSize h.buf_pos]
      rfl }

theorem releaseBuf (h : Rings tre buf tres infos all treHead bufHead bufTail)
    (used : bufHead < all.length) :
    Rings tre (delRingElement buf) tres infos all treHead (bufHead + 1) bufTail := by
  have hbuffers := h.buffers
  rw [contents_pop _ used, List.drop_eq_getElem_cons used, List.map_cons] at hbuffers
  refine { h with bufRp := ?_, buffers := (List.cons.inj hbuffers).2 }
  change buf.after buf.rp = _
  rw [h.bufRp, after_slot h.bufSize h.buf_pos]
  rfl

theorem releaseTre (h : Rings tre buf tres infos all treHead bufHead bufTail)
    (used : treHead < all.length) :
    Rings (delRingElement tre) buf tres infos all (treHead + 1) bufHead bufTail := by
  have hdescriptors := h.descriptors
  rw [contents_pop _ used, List.drop_eq_getElem_cons used, List.map_cons] at hdescriptors
  exact { h with
    treAt := h.treAt.del used, size := h.size, same := h.same
    descriptors := (List.cons.inj hdescriptors).2 }

/-- The entry at the read pointer belongs to the first request that is not released. -/
theorem info_rp (h : Rings tre buf tres infos all treHead bufHead bufTail)
    (used : bufHead < all.length) : all[bufHead]?.map Posted.info = some (infos buf.rp) := by
  have hbuffers := h.buffers
  rw [contents_pop _ used, List.drop_eq_getElem_cons used, List.map_cons] at hbuffers
  rw [List.getElem?_eq_getElem used, h.bufRp, Option.map_some, ← (List.cons.inj hbuffers).1]
  rfl

/-- A descriptor in use is the one of its request. -/
theorem tre_slot (h : Rings tre buf tres infos all treHead bufHead bufTail) {k : ℕ}
    (hlow : treHead ≤ k) (hhigh : k < all.length) :
    all[k]?.map Posted.tre = some (tres (tre.slot (k % tre.elements))) := by
  have hget := contents_getElem? tre.elements (tre.cells tres) hlow hhigh
  rw [h.descriptors, List.getElem?_map, List.getElem?_drop, Nat.add_sub_cancel' hlow] at hget
  exact hget

end Rings

/-! ### The invariant -/

/-- The events complete the requests in turn, from `low` on up to `high`. -/
def Pending (bus : ℕ → ℕ) (n high : ℕ) : ℕ → List Tre → Prop
  | low, [] => low = high
  | low, event :: events =>
    if completes (treGetEvCode event) then
      ∃ k, low < k ∧ treGetEvPtr event = bus ((k - 1) % n) ∧ Pending bus n high k events
    else Pending bus n high low events

theorem Pending.le {bus : ℕ → ℕ} {n high : ℕ} {events : List Tre} {low : ℕ}
    (h : Pending bus n high low events) : low ≤ high := by
  induction events generalizing low with
  | nil => exact Nat.le_of_eq h
  | cons event events ih =>
    unfold Pending at h
    split at h
    · obtain ⟨k, hlow, -, hrest⟩ := h
      have := ih hrest
      omega
    · exact ih h

theorem Pending.concat {bus : ℕ → ℕ} {n high : ℕ} {events : List Tre} {low k : ℕ}
    (h : Pending bus n high low events) (hk : high < k) {event : Tre}
    (hcode : completes (treGetEvCode event)) (hptr : treGetEvPtr event = bus ((k - 1) % n)) :
    Pending bus n k low (events ++ [event]) := by
  induction events generalizing low with
  | nil =>
    have hlow : low = high := h
    rw [List.nil_append, Pending, if_pos hcode]
    exact ⟨k, by omega, hptr, rfl⟩
  | cons e events ih =>
    rw [Pending] at h
    rw [List.cons_append, Pending]
    split at h
    · rename_i hc
      obtain ⟨j, hlow, hj, hrest⟩ := h
      rw [if_pos hc]
      exact ⟨j, hlow, hj, ih hrest⟩
    · rename_i hc
      rw [if_neg hc]
      exact ih h

theorem Pending.concat_db {bus : ℕ → ℕ} {n high : ℕ} {events : List Tre} {low : ℕ}
    (h : Pending bus n high low events) {event : Tre} (hc : ¬ completes (treGetEvCode event)) :
    Pending bus n high low (events ++ [event]) := by
  induction events generalizing low with
  | nil =>
    rw [List.nil_append, Pending, if_neg hc]
    exact h
  | cons e events ih =>
    rw [Pending] at h
    rw [List.cons_append, Pending]
    split at h
    · rename_i hc
      obtain ⟨j, hlow, hj, hrest⟩ := h
      rw [if_pos hc]
      exact ⟨j, hlow, hj, ih hrest⟩
    · rename_i hc
      rw [if_neg hc]
      exact ih h

/-- What the client's call has established at each of its points: that there is room, and what
stands at the write pointers. -/
def ProducerOk (room : Prop) (tre : Tre) (info : BufInfo) (count : ℕ) : Producer → Prop
  | .checked _ => room
  | .filled p => room ∧ tre = p.tre ∧ info = p.info
  | .treAdded _ => 0 < count
  | _ => True

/-- The tasklet works up to request `low`. `first` is the entry of the request that is returned
next. -/
def ConsumerOk (slot : ℕ → ℕ) (n done : ℕ) (first : Option BufInfo) (low : ℕ) : Consumer → Prop
  | .idle => low = done
  | .loop devRp _ _ => done ≤ low ∧ devRp = slot (low % n)
  | .bufReleased devRp _ _ info | .treReleased devRp _ _ info =>
    done < low ∧ devRp = slot (low % n) ∧ first = some info

/-- The device is behind what is published to it, and the tasklet behind what the device has
reported. -/
structure DeviceOk (s : State) : Prop where
  released : s.consumer.treHead s.callbacks.length ≤ s.reported
  reported : s.reported ≤ s.seen.length
  fetched : s.seen.length ≤ s.published
  published : s.published ≤ s.accepted.length
  ctxtWp : s.ctxtWp = s.treRing.bus (s.published % s.treRing.elements)

structure Inv (s : State) : Prop where
  rings : Rings s.treRing s.bufRing s.tres s.infos s.accepted
    (s.consumer.treHead s.callbacks.length) (s.consumer.bufHead s.callbacks.length)
    (s.producer.bufTail s.accepted.length)
  producer : ProducerOk
    (s.accepted.length + 1 - s.consumer.treHead s.callbacks.length < s.treRing.elements)
    (s.tres s.treRing.wp) (s.infos s.bufRing.wp) s.accepted.length s.producer
  busy : s.consumer ≠ .idle → s.enabled = true
  stopped : s.stopped = true → s.enabled = false
  events : s.enabled = true → ∃ low,
    ConsumerOk s.treRing.slot s.treRing.elements s.callbacks.length
      (s.accepted[s.callbacks.length]?.map Posted.info) low s.consumer ∧
    Pending s.treRing.bus s.treRing.elements s.reported low s.events
  device : s.stopped = false → DeviceOk s
  returned : s.callbacks.map Result.bufAddr <+: s.accepted.map fun p => p.info.cbBuf
  seen : s.seen <+: s.accepted.map Posted.tre

theorem Inv.running {s : State} (h : Inv s) (he : s.enabled = true) : s.stopped = false := by
  by_contra hs
  have := h.stopped (by simpa using hs)
  rw [he] at this
  contradiction

theorem Inv.idle_of_stopped {s : State} (h : Inv s) (hstop : s.stopped = true) :
    s.consumer = .idle := by
  by_contra hc
  exact Bool.false_ne_true ((h.stopped hstop).symm.trans (h.busy hc))

theorem Inv.returned_le {s : State} (h : Inv s) : s.callbacks.length ≤ s.accepted.length := by
  simpa using h.returned.length_le

/-- More requests leave the tasklet's position as it is. -/
theorem ConsumerOk.mono {slot : ℕ → ℕ} {n done low : ℕ} {first first' : Option BufInfo}
    {c : Consumer} (h : ConsumerOk slot n done first low c)
    (hfirst : ∀ info, first = some info → first' = some info) :
    ConsumerOk slot n done first' low c := by
  cases c with
  | idle | loop => exact h
  | bufReleased | treReleased => exact ⟨h.1, h.2.1, hfirst _ h.2.2⟩

theorem getElem?_append_some {α : Type} {xs ys : List α} {i : ℕ} {x : α} (h : xs[i]? = some x) :
    (xs ++ ys)[i]? = some x := by
  obtain ⟨hlt, rfl⟩ := List.getElem?_eq_some_iff.mp h
  rw [List.getElem?_append_left hlt, List.getElem?_eq_getElem hlt]

/-- All that the tasklet has released was reported by the device. -/
theorem Inv.bufHead_le {s : State} (h : Inv s) :
    s.consumer.bufHead s.callbacks.length ≤ s.accepted.length := by
  by_cases hc : s.consumer = .idle
  · rw [hc]
    exact h.returned_le
  have he := h.busy hc
  obtain ⟨low, hok, hpending⟩ := h.events he
  have hdev := h.device (h.running he)
  have hlow := hpending.le
  have hbound : s.reported ≤ s.accepted.length :=
    hdev.reported.trans (hdev.fetched.trans hdev.published)
  cases hcase : s.consumer with
  | idle => exact absurd hcase hc
  | loop => exact h.returned_le
  | bufReleased | treReleased =>
    rw [hcase] at hok
    have hdone := hok.1
    simp only [Consumer.bufHead]
    omega

/-! ### The steps -/

section Steps

variable {cfg : Config} {s t : State}

theorem check_inv (h : Inv s) {q : Request} (hs : check s q = some t) : Inv t := by
  unfold check at hs
  split at hs
  · rename_i hp
    split at hs
    · cases hs
      exact h
    · rename_i hfull
      cases hs
      have hrings := h.rings
      rw [hp] at hrings
      exact { h with
        rings := hrings
        producer := hrings.treAt.free_of_not_full (by simpa using hfull)
        device := fun hstop => { h.device hstop with } }
  · cases hs

theorem fill_inv (h : Inv s) (hs : fill cfg s = some t) : Inv t := by
  unfold fill at hs
  split at hs
  · rename_i q hp
    have hrings := h.rings
    have hroom := h.producer
    rw [hp] at hrings hroom
    split at hs
    · cases hs
      exact { h with
        rings := hrings
        producer := trivial
        device := fun hstop => { h.device hstop with } }
    · cases hs
      exact { h with
        rings := hrings.fill _ (Consumer.treHead_le_bufHead _ _)
        producer := ⟨hroom, Function.update_self .., Function.update_self ..⟩
        device := fun hstop => { h.device hstop with } }
  · cases hs

theorem addTre_inv (h : Inv s) (hs : addTre s = some t) : Inv t := by
  unfold addTre at hs
  split at hs
  · rename_i p hp
    have hrings := h.rings
    have hok := h.producer
    rw [hp] at hrings hok
    obtain ⟨hroom, htre, hinfo⟩ := hok
    cases hs
    refine { h with
      rings := ?_, producer := ?_, events := ?_, device := ?_, returned := ?_, seen := ?_ }
    · have := hrings.addTre hroom h.bufHead_le htre hinfo
      simpa [Producer.bufTail] using this
    · simp [ProducerOk]
    · intro he
      obtain ⟨low, hcons, hpending⟩ := h.events he
      refine ⟨low, hcons.mono ?_, hpending⟩
      intro info hfirst
      obtain ⟨p, hp, rfl⟩ := Option.map_eq_some_iff.mp hfirst
      rw [getElem?_append_some hp]
      rfl
    · intro hstop
      have hdev := h.device hstop
      exact { hdev with published := hdev.published.trans (by simp) }
    · exact h.returned.trans (by simp)
    · exact h.seen.trans (by simp)
  · cases hs

theorem addBuf_inv (h : Inv s) (hs : addBuf s = some t) : Inv t := by
  unfold addBuf at hs
  split at hs
  · rename_i p hp
    have hrings := h.rings
    have hcount := h.producer
    rw [hp] at hrings hcount
    have hnext : s.accepted.length - 1 + 1 = s.accepted.length := Nat.sub_add_cancel hcount
    cases hs
    refine { h with rings := ?_, producer := trivial, device := ?_ }
    · have := hrings.addBuf
      rw [Producer.bufTail, hnext] at this
      exact this
    · intro hstop
      exact { h.device hstop with }
  · cases hs

theorem processDb_inv (h : Inv s) (db : ℕ) : Inv (processDb cfg s db) := by
  unfold processDb
  split
  · split
    · exact { h with device := fun hstop => { h.device hstop with } }
    · exact h
  · exact { h with device := fun hstop => { h.device hstop with } }

/-- What stands in the context's write pointer covers all requests. -/
theorem publish_inv (h : Inv s) : Inv (publish s) := by
  refine { h with device := fun hstop => ?_ }
  have hdev := h.device hstop
  exact { hdev with
    fetched := by
      have := h.seen.length_le
      rwa [List.length_map] at this
    published := Nat.le_refl _
    ctxtWp := by
      change toPhysical s.treRing s.treRing.wp = _
      rw [h.rings.treAt.wp]
      rfl }

theorem ringChanDb_inv (h : Inv s) : Inv (ringChanDb cfg s) :=
  processDb_inv (publish_inv h) _

theorem processDb_producer (db : ℕ) : (processDb cfg s db).producer = s.producer := by
  unfold processDb
  split
  · split <;> rfl
  · rfl

theorem ringDb_inv (h : Inv s) (hs : ringDb cfg s = some t) : Inv t := by
  have idle : ∀ u, Inv u → u.producer = .bufAdded → Inv { u with producer := .idle } := by
    intro u hu hp
    have hrings := hu.rings
    rw [hp] at hrings
    exact { hu with
      rings := hrings, producer := trivial, device := fun hstop => { hu.device hstop with } }
  unfold ringDb at hs
  split at hs
  · rename_i hp
    cases hs
    split
    · exact idle _ (ringChanDb_inv h) ((processDb_producer _).trans hp)
    · exact idle _ h hp
  · cases hs

theorem evDevRp_eq (h : Inv s) {event : Tre} {k : ℕ} (hk : 0 < k)
    (hptr : treGetEvPtr event = s.treRing.bus ((k - 1) % s.treRing.elements)) :
    evDevRp s event = s.treRing.slot (k % s.treRing.elements) := by
  have hafter := after_slot h.rings.treAt.size h.rings.treAt.elements_pos (k - 1)
  rw [Nat.sub_add_cancel hk, Ring.after, h.rings.size] at hafter
  unfold evDevRp
  rw [hptr, toVirtual_bus, ← hafter]

/-- An event that completes nothing may be dropped, and any event of a disabled channel. -/
theorem dropEvent_inv (h : Inv s) {event : Tre} {events : List Tre}
    (hevents : s.events = event :: events)
    (hdrop : s.enabled = true → ¬ completes (treGetEvCode event)) :
    Inv { s with events := events } := by
  refine { h with events := fun he => ?_, device := fun hstop => { h.device hstop with } }
  obtain ⟨low, hcons, hpending⟩ := h.events he
  rw [hevents, Pending, if_neg (hdrop he)] at hpending
  exact ⟨low, hcons, hpending⟩

theorem dbEvent_inv (h : Inv s) : Inv (dbEvent cfg s) := by
  have hmode : Inv { s with dbMode := true } :=
    { h with device := fun hstop => { h.device hstop with } }
  unfold dbEvent
  dsimp only
  split
  · exact ringChanDb_inv hmode
  · exact hmode

theorem take_inv (h : Inv s) (hs : take cfg s = some t) : Inv t := by
  unfold take at hs
  split at hs
  · rename_i event events hidle hevents
    cases hs
    unfold parseXferEvent
    dsimp only
    split
    · rename_i he
      exact dropEvent_inv h hevents fun henabled => absurd henabled (by simpa using he)
    rename_i he
    have henabled : s.enabled = true := by simpa using he
    split
    · rename_i hcode
      obtain ⟨low, hcons, hpending⟩ := h.events henabled
      rw [hevents, Pending, if_pos hcode] at hpending
      obtain ⟨k, hlow, hptr, hrest⟩ := hpending
      rw [hidle] at hcons
      have hdone : low = s.callbacks.length := hcons
      have hrings := h.rings
      have hproducer := h.producer
      rw [hidle] at hrings hproducer
      refine { h with
        rings := hrings, producer := hproducer, busy := fun _ => henabled, events := fun _ => ?_
        device := fun hstop => ?_ }
      · refine ⟨k, ⟨?_, ?_⟩, hrest⟩
        · change s.callbacks.length ≤ k
          omega
        · exact evDevRp_eq h (by omega) hptr
      · have hdev := h.device hstop
        have hreleased := hdev.released
        rw [hidle] at hreleased
        exact { hdev with released := hreleased }
    · rename_i hcode
      have hdrop := dropEvent_inv h hevents fun _ => hcode
      split
      · exact dbEvent_inv hdrop
      · exact hdrop
  · cases hs

/-- While the tasklet works on an event, the device has reported all that it works up to. -/
theorem Inv.low_le (h : Inv s) (hc : s.consumer ≠ .idle) :
    ∃ low, ConsumerOk s.treRing.slot s.treRing.elements s.callbacks.length
      (s.accepted[s.callbacks.length]?.map Posted.info) low s.consumer ∧
    Pending s.treRing.bus s.treRing.elements s.reported low s.events ∧
    low ≤ s.reported ∧ low ≤ s.accepted.length := by
  have he := h.busy hc
  obtain ⟨low, hcons, hpending⟩ := h.events he
  have hdev := h.device (h.running he)
  have hle := hpending.le
  exact ⟨low, hcons, hpending, hle,
    hle.trans (hdev.reported.trans (hdev.fetched.trans hdev.published))⟩

/-- The tasklet is where it works up to once the read pointer is there. -/
theorem Inv.rp_eq_iff (h : Inv s) {devRp len : ℕ} {status : ℤ} {low : ℕ}
    (hc : s.consumer = .loop devRp len status) (hdone : s.callbacks.length ≤ low)
    (hlow : low ≤ s.accepted.length)
    (hdev : devRp = s.treRing.slot (low % s.treRing.elements)) :
    s.treRing.rp = devRp ↔ s.callbacks.length = low := by
  have hrings := h.rings
  rw [hc] at hrings
  have hroom : s.accepted.length - s.callbacks.length < s.treRing.elements := hrings.treAt.room
  rw [hrings.treAt.rp, hdev]
  constructor
  · intro heq
    exact eq_of_slot_eq hdone (by omega) (slot_injective hrings.treAt.size heq)
  · rintro rfl
    rfl

theorem releaseBuf_inv (h : Inv s) (hs : releaseBuf s = some t) : Inv t := by
  unfold releaseBuf at hs
  split at hs
  · rename_i devRp len status hc
    have hbusy : s.consumer ≠ .idle := by simp [hc]
    obtain ⟨low, hcons, hpending, hreported, hlow⟩ := h.low_le hbusy
    rw [hc] at hcons
    obtain ⟨hdone, hdev⟩ := hcons
    split at hs
    · cases hs
    · rename_i hne
      have hlt : s.callbacks.length < low := by
        refine Nat.lt_of_le_of_ne hdone fun heq => hne ?_
        exact (h.rp_eq_iff hc hdone hlow hdev).mpr heq
      have hrings := h.rings
      have hproducer := h.producer
      rw [hc] at hrings hproducer
      have hused : s.callbacks.length < s.accepted.length := by omega
      cases hs
      refine { h with
        rings := hrings.releaseBuf hused, producer := hproducer, busy := fun _ => h.busy hbusy
        events := fun _ => ⟨low, ⟨hlt, hdev, hrings.info_rp hused⟩, hpending⟩
        device := fun hstop => ?_ }
      have hdevice := h.device hstop
      have hreleased := hdevice.released
      rw [hc] at hreleased
      exact { hdevice with released := hreleased }
  · cases hs

theorem ProducerOk.mono {room room' : Prop} {tre : Tre} {info : BufInfo} {count : ℕ} {p : Producer}
    (h : ProducerOk room tre info count p) (hroom : room → room') :
    ProducerOk room' tre info count p := by
  cases p with
  | checked => exact hroom h
  | filled => exact ⟨hroom h.1, h.2⟩
  | idle | treAdded | bufAdded => exact h

theorem releaseTre_inv (h : Inv s) (hs : releaseTre s = some t) : Inv t := by
  unfold releaseTre at hs
  split at hs
  · rename_i devRp len status info hc
    have hbusy : s.consumer ≠ .idle := by simp [hc]
    obtain ⟨low, hcons, hpending, hreported, hlow⟩ := h.low_le hbusy
    rw [hc] at hcons
    have hlt : s.callbacks.length < low := hcons.1
    have hrings := h.rings
    have hproducer := h.producer
    rw [hc] at hrings hproducer
    have hused : s.callbacks.length < s.accepted.length := by omega
    cases hs
    refine { h with
      rings := hrings.releaseTre hused, producer := hproducer.mono ?_
      busy := fun _ => h.busy hbusy, events := fun _ => ⟨low, hcons, hpending⟩
      device := fun hstop => ?_ }
    · intro hroom
      change s.accepted.length + 1 - (s.callbacks.length + 1) < s.treRing.elements
      change s.accepted.length + 1 - s.callbacks.length < s.treRing.elements at hroom
      omega
    · exact { h.device hstop with
        released := by
          change s.callbacks.length + 1 ≤ s.reported
          omega }
  · cases hs

theorem notify_inv (h : Inv s) (hs : notify s = some t) : Inv t := by
  unfold notify at hs
  split at hs
  · rename_i devRp len status info hc
    have hbusy : s.consumer ≠ .idle := by simp [hc]
    obtain ⟨low, hcons, hpending, hreported, hlow⟩ := h.low_le hbusy
    rw [hc] at hcons
    obtain ⟨hlt, hdev, hfirst⟩ := hcons
    have hrings := h.rings
    have hproducer := h.producer
    rw [hc] at hrings hproducer
    cases hs
    refine { h with
      rings := ?_, producer := ?_, busy := fun _ => h.busy hbusy, events := fun _ => ?_
      device := fun hstop => ?_, returned := ?_ }
    · rw [List.length_append]
      exact hrings
    · rw [List.length_append]
      exact hproducer
    · refine ⟨low, ⟨?_, hdev⟩, hpending⟩
      rw [List.length_append]
      exact hlt
    · have hdevice := h.device hstop
      have hreleased := hdevice.released
      rw [hc] at hreleased
      refine { hdevice with released := ?_ }
      rw [List.length_append]
      exact hreleased
    · rw [List.map_append]
      refine prefix_concat_next h.returned ?_
      obtain ⟨p, hp, rfl⟩ := Option.map_eq_some_iff.mp hfirst
      rw [List.length_map, List.getElem?_map, hp]
      rfl
  · cases hs

theorem finish_inv (h : Inv s) (hs : finish s = some t) : Inv t := by
  unfold finish at hs
  split at hs
  · rename_i devRp len status hc
    have hbusy : s.consumer ≠ .idle := by simp [hc]
    obtain ⟨low, hcons, hpending, hreported, hlow⟩ := h.low_le hbusy
    rw [hc] at hcons
    obtain ⟨hdone, hdev⟩ := hcons
    split at hs
    · rename_i heq
      have hlast := (h.rp_eq_iff hc hdone hlow hdev).mp heq
      have hrings := h.rings
      have hproducer := h.producer
      rw [hc] at hrings hproducer
      cases hs
      refine { h with
        rings := hrings, producer := hproducer, busy := fun hne => absurd rfl hne
        events := fun _ => ⟨low, hlast.symm, hpending⟩, device := fun hstop => ?_ }
      have hdevice := h.device hstop
      have hreleased := hdevice.released
      rw [hc] at hreleased
      exact { hdevice with released := hreleased }
    · cases hs
  · cases hs

/-- The device reads only slots that hold the descriptors of their requests. -/
theorem fetch_inv (h : Inv s) (hs : fetch s = some t) : Inv t := by
  unfold fetch at hs
  split at hs
  · cases hs
  · rename_i hgo
    obtain ⟨hrun, hptr⟩ := not_or.mp hgo
    have hstop : s.stopped = false := by simpa using hrun
    have hdev := h.device hstop
    have hlt : s.seen.length < s.published := by
      refine Nat.lt_of_le_of_ne hdev.fetched fun heq => hptr ?_
      rw [hdev.ctxtWp, deviceRp, heq]
    have hslot := h.rings.tre_slot (hdev.released.trans hdev.reported)
      (Nat.lt_of_lt_of_le hlt hdev.published)
    cases hs
    refine { h with device := fun _ => ?_, seen := ?_ }
    · refine { hdev with reported := ?_, fetched := ?_ } <;>
        simp only [List.length_append, List.length_singleton]
      · exact hdev.reported.trans (Nat.le_succ _)
      · exact hlt
    · refine prefix_concat_next h.seen ?_
      rw [List.getElem?_map, hslot, deviceRp, toVirtual_bus]

theorem report_inv (h : Inv s) {count code len : ℕ} (hs : report cfg s count code len = some t) :
    Inv t := by
  unfold report at hs
  split at hs
  · rename_i hgo
    obtain ⟨hcount, hseen, hlen, hcode, hrun⟩ := hgo
    have hsmall : code < 2 ^ 8 := by rcases hcode with rfl | rfl | rfl <;> decide
    cases hs
    refine { h with events := fun he => ?_, device := fun hstop => ?_ }
    · obtain ⟨low, hcons, hpending⟩ := h.events he
      refine ⟨low, hcons, hpending.concat hcount ?_ rfl⟩
      rw [transferEvent, treGetEvCode_toTre hsmall hlen]
      exact hcode
    · have hdev := h.device hstop
      exact { hdev with
        released := hdev.released.trans (Nat.le_of_lt hcount)
        reported := hseen }
  · cases hs

theorem reportDb_inv (h : Inv s) {code : ℕ} (hs : reportDb cfg s code = some t) : Inv t := by
  unfold reportDb at hs
  split at hs
  · rename_i hgo
    have hcode : code < 2 ^ 8 := by rcases hgo.1 with rfl | rfl <;> decide
    have hread : treGetEvCode (transferEvent cfg 0 0 code) = code :=
      treGetEvCode_toTre hcode (Nat.two_pow_pos 16)
    cases hs
    refine { h with events := fun he => ?_, device := fun hstop => { h.device hstop with } }
    obtain ⟨low, hcons, hpending⟩ := h.events he
    refine ⟨low, hcons, hpending.concat_db ?_⟩
    rw [hread]
    rcases hgo.1 with rfl | rfl <;> decide
  · cases hs

theorem ringM0_inv (h : Inv s) (hs : ringM0 cfg s = some t) : Inv t := by
  unfold ringM0 at hs
  split at hs
  · have hmode : Inv { s with dbMode := cfg.resetReq || s.dbMode } :=
      { h with device := fun hstop => { h.device hstop with } }
    have arrive : ∀ u pm, Inv u → Inv { u with pm := pm } := fun u _ hu =>
      { hu with device := fun hstop => { hu.device hstop with } }
    dsimp only at hs
    cases hs
    split
    · exact arrive _ _ (ringChanDb_inv hmode)
    · exact arrive _ _ hmode
  · cases hs

theorem disable_inv (h : Inv s) (hs : disable s = some t) : Inv t := by
  unfold disable at hs
  split at hs
  · rename_i hgo
    cases hs
    exact { h with
      busy := fun hne => absurd hgo.2 hne
      stopped := fun _ => rfl
      events := fun he => absurd he Bool.false_ne_true
      device := fun hstop => { h.device hstop with } }
  · cases hs

theorem resetDataChan_inv (h : Inv s) (hs : resetDataChan s = some t) : Inv t := by
  unfold resetDataChan at hs
  split at hs
  · rename_i hgo
    obtain ⟨hstopped, hp, hc, hne⟩ := hgo
    have hoff := h.stopped hstopped
    have hrings := h.rings
    rw [hp, hc] at hrings
    have hused : s.callbacks.length < s.accepted.length := by
      refine Nat.lt_of_le_of_ne h.returned_le fun heq => hne ?_
      exact hrings.treAt.empty_iff.mpr heq
    have hinfo : s.accepted[s.callbacks.length]?.map Posted.info = some (s.infos s.bufRing.rp) :=
      hrings.info_rp hused
    have hreset := (hrings.releaseBuf hused).releaseTre hused
    cases hs
    refine { h with
      rings := ?_, producer := ?_, events := fun he => ?_, device := fun hstop => ?_
      returned := ?_ }
    · rw [hc, hp, List.length_append]
      exact hreset
    · rw [hp]
      trivial
    · rw [hoff] at he
      contradiction
    · rw [hstopped] at hstop
      contradiction
    · rw [List.map_append]
      refine prefix_concat_next h.returned ?_
      obtain ⟨p, hp, heq⟩ := Option.map_eq_some_iff.mp hinfo
      rw [List.length_map, List.getElem?_map, hp, ← heq]
      rfl
  · cases hs

theorem step_inv (h : Inv s) {a : Action} (hs : step cfg s a = some t) : Inv t := by
  cases a with
  | check => exact check_inv h hs
  | fill => exact fill_inv h hs
  | addTre => exact addTre_inv h hs
  | addBuf => exact addBuf_inv h hs
  | ring => exact ringDb_inv h hs
  | take => exact take_inv h hs
  | releaseBuf => exact releaseBuf_inv h hs
  | releaseTre => exact releaseTre_inv h hs
  | notify => exact notify_inv h hs
  | finish => exact finish_inv h hs
  | fetch => exact fetch_inv h hs
  | report => exact report_inv h hs
  | reportDb => exact reportDb_inv h hs
  | leaveM0 =>
    cases hs
    exact { h with device := fun hstop => { h.device hstop with } }
  | enterM0 =>
    simp only [step] at hs
    split at hs
    · cases hs
    · cases hs
      exact { h with device := fun hstop => { h.device hstop with } }
  | ringM0 => exact ringM0_inv h hs
  | disable => exact disable_inv h hs
  | stop =>
    simp only [step] at hs
    split at hs
    · cases hs
    · rename_i hoff
      cases hs
      exact { h with
        stopped := fun _ => by simpa using hoff
        device := fun hstop => absurd hstop (by simp) }
  | reset => exact resetDataChan_inv h hs

end Steps

theorem init_inv {tre buf : Ring} (hn : 0 < tre.elements) (hsame : buf.elements = tre.elements)
    (tres : ℕ → Tre) (infos : ℕ → BufInfo) (pm : Pm) :
    Inv (initChanCtxt tre buf tres infos pm) where
  rings :=
    { treAt := reset_at (r := { tre with elSize := treSize }) (by decide : 0 < treSize) hn
      size := rfl
      bufSize := (by decide : 0 < bufInfoSize)
      same := hsame
      bufRp := by simp [initChanCtxt, Ring.reset, Ring.slot, Consumer.bufHead]
      bufWp := by simp [initChanCtxt, Ring.reset, Ring.slot, Producer.bufTail]
      descriptors := rfl
      buffers := rfl }
  producer := trivial
  busy := fun _ => rfl
  stopped := fun hstop => absurd hstop Bool.false_ne_true
  events := fun _ => ⟨0, rfl, rfl⟩
  device := fun _ =>
    { released := Nat.le_refl 0
      reported := Nat.le_refl 0
      fetched := Nat.le_refl 0
      published := Nat.le_refl 0
      ctxtWp := by simp [initChanCtxt, Ring.bus, toPhysical, Ring.reset, Ring.slot] }
  returned := List.nil_prefix
  seen := List.nil_prefix

section Runs

variable {cfg : Config} {tre buf : Ring} {tres : ℕ → Tre} {infos : ℕ → BufInfo} {pm : Pm}
  {as : List Action} {s : State}

theorem run_inv (hn : 0 < tre.elements) (hsame : buf.elements = tre.elements)
    (hrun : run (step cfg) as (initChanCtxt tre buf tres infos pm) = some s) : Inv s :=
  run_invariant (fun _ _ _ h hs => step_inv h hs) (init_inv hn hsame tres infos pm) hrun

/-- However the parties interleave: the buffers come back in the order in which they were queued
and each once, the device sees their descriptors in that order, no buffer comes back before the
device has seen it, as long as the device is not stopped, and the buffer ring, which is never
checked, has a free entry. -/
theorem transfers_in_order (hn : 0 < tre.elements) (hsame : buf.elements = tre.elements)
    (hrun : run (step cfg) as (initChanCtxt tre buf tres infos pm) = some s) :
    (s.callbacks.map Result.bufAddr <+: s.accepted.map fun p => p.info.cbBuf) ∧
      s.seen <+: s.accepted.map Posted.tre ∧
      (s.stopped = false → s.callbacks.length ≤ s.seen.length) ∧
      s.accepted.length - s.consumer.bufHead s.callbacks.length < s.bufRing.elements := by
  have h := run_inv hn hsame hrun
  have hhead : s.callbacks.length ≤ s.consumer.treHead s.callbacks.length := by
    cases s.consumer <;> simp [Consumer.treHead]
  refine ⟨h.returned, h.seen, fun hstop => ?_, ?_⟩
  · have hdev := h.device hstop
    exact hhead.trans (hdev.released.trans hdev.reported)
  · have hroom := h.rings.treAt.room
    have hle := s.consumer.treHead_le_bufHead s.callbacks.length
    rw [h.rings.same]
    omega

theorem transfers_in_order_one :
    ∃ s, run (step identityMapping) (queueOne ++ returnOne) threeSlots = some s ∧
      s.callbacks.map Result.bufAddr <+: (s.accepted.map fun p => p.info.cbBuf) ∧
      s.seen <+: s.accepted.map Posted.tre ∧ s.callbacks.length ≤ s.seen.length ∧
      s.accepted.length - s.consumer.bufHead s.callbacks.length < s.bufRing.elements := by
  obtain ⟨s, hs, hstop⟩ := (Option.any_eq_true _ _).mp
    (by decide : (run (step identityMapping) (queueOne ++ returnOne) threeSlots).any
      (fun s => s.stopped = false) = true)
  obtain ⟨hreturned, hseen, hbefore, hroom⟩ := transfers_in_order (by decide) (by rfl) hs
  exact ⟨s, hs, hreturned, hseen, hbefore (of_decide_eq_true hstop), hroom⟩

/-- One round of the reset, at the first request that has not come back. -/
theorem reset_round (h : Inv s) (hstop : s.stopped = true) (hp : s.producer = .idle)
    (hused : s.callbacks.length < s.accepted.length) :
    ∃ t, step cfg s .reset = some t ∧ t.stopped = true ∧ t.producer = .idle ∧
      t.accepted = s.accepted ∧
      t.callbacks =
        s.callbacks ++ [⟨s.accepted[s.callbacks.length].info.cbBuf, 0, -eNotConn⟩] := by
  have hc := h.idle_of_stopped hstop
  have hrings := h.rings
  rw [hc] at hrings
  have hne : s.treRing.rp ≠ s.treRing.wp := fun heq =>
    Nat.ne_of_lt hused (hrings.treAt.empty_iff.mp heq)
  have hinfo : s.accepted[s.callbacks.length]?.map Posted.info = some (s.infos s.bufRing.rp) :=
    hrings.info_rp hused
  rw [List.getElem?_eq_getElem hused, Option.map_some, Option.some_inj] at hinfo
  rw [step, resetDataChan, if_pos ⟨hstop, hp, hc, hne⟩, hinfo]
  exact ⟨_, rfl, hstop, hp, rfl, rfl⟩

/-- The loop of `mhi_reset_data_chan` ends with an empty ring, and every buffer that was still
queued comes back as not connected. -/
theorem reset_returns_all (hn : 0 < tre.elements) (hsame : buf.elements = tre.elements)
    (hrun : run (step cfg) as (initChanCtxt tre buf tres infos pm) = some s)
    (hstop : s.stopped = true) (hp : s.producer = .idle) :
    ∃ t, run (step cfg) (List.replicate (s.accepted.length - s.callbacks.length) .reset) s =
        some t ∧ t.treRing.rp = t.treRing.wp ∧
      t.callbacks = s.callbacks ++ (s.accepted.drop s.callbacks.length).map fun p =>
        ⟨p.info.cbBuf, 0, -eNotConn⟩ := by
  have h := run_inv hn hsame hrun
  clear hrun
  generalize hleft : s.accepted.length - s.callbacks.length = left
  induction left generalizing s with
  | zero =>
    have hall : s.callbacks.length = s.accepted.length :=
      Nat.le_antisymm h.returned_le (Nat.sub_eq_zero_iff_le.mp hleft)
    have hrings := h.rings
    rw [h.idle_of_stopped hstop] at hrings
    refine ⟨s, rfl, hrings.treAt.empty_iff.mpr hall, ?_⟩
    rw [hall, List.drop_length, List.map_nil, List.append_nil]
  | succ left ih =>
    have hused : s.callbacks.length < s.accepted.length := by omega
    obtain ⟨u, hu, hustop, hup, haccepted, hcallbacks⟩ := reset_round h hstop hp hused
    have hnext : u.callbacks.length = s.callbacks.length + 1 := by
      rw [hcallbacks, List.length_append, List.length_singleton]
    obtain ⟨t, ht, hempty, hreturned⟩ :=
      ih hustop hup (step_inv h hu) (by rw [haccepted, hnext]; omega)
    refine ⟨t, ?_, hempty, ?_⟩
    · rw [List.replicate_succ]
      exact run_cons.mpr ⟨u, hu, ht⟩
    · rw [hreturned, hnext, haccepted, hcallbacks, List.drop_eq_getElem_cons hused, List.map_cons,
        List.append_assoc, List.singleton_append]

theorem reset_returns_one :
    ∃ s t, run (step identityMapping) (queueOne ++ [.disable, .stop]) threeSlots = some s ∧
      run (step identityMapping) (List.replicate (s.accepted.length - s.callbacks.length) .reset)
        s = some t ∧ t.treRing.rp = t.treRing.wp := by
  obtain ⟨s, hs, hends⟩ := (Option.any_eq_true _ _).mp
    (by decide : (run (step identityMapping) (queueOne ++ [.disable, .stop]) threeSlots).any
      (fun s => s.stopped = true ∧ s.producer = .idle) = true)
  obtain ⟨hstop, hp⟩ := of_decide_eq_true hends
  obtain ⟨t, ht, hempty, -⟩ := reset_returns_all (by decide) (by rfl) hs hstop hp
  exact ⟨s, t, hs, ht, hempty⟩

end Runs

end MhiTransfer
