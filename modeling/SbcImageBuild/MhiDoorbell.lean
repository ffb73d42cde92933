import SbcImageBuild.MhiTransferSafety

/-!
# The doorbell of a channel

The device is shown every request, also where the doorbell could not be rung when it was queued.
-/
namespace MhiTransfer

open MhiElement MhiRing RingBuffer StepSystem

/-- The client's call has no doorbell left to ring. -/
def Producer.settled : Producer → Prop
  | .treAdded _ | .bufAdded => False
  | _ => True

instance : DecidablePred Producer.settled
  | .treAdded _ | .bufAdded => isFalse id
  | .idle | .checked _ | .filled _ => isTrue trivial

/-- Nothing that is queued stays hidden from the device: while the doorbell may be rung, the context
shows every request, and a device that waits for a doorbell has none left. -/
structure Bell (cfg : Config) (s : State) : Prop where
  shown : s.stopped = false → s.pm = .m0 → s.producer.settled →
    s.published = s.accepted.length ∧ (cfg.brstmode = true → s.dbMode = true →
      s.consumer.treHead s.callbacks.length = s.accepted.length)
  register : cfg.brstmode = false → s.published ≠ 0 → s.db = s.ctxtWp

section Bell

variable {cfg : Config} {s t : State}

/-- Ringing settles all that was owed. -/
theorem ringChanDb_bell (pm : Pm) (producer : Producer) :
    Bell cfg { ringChanDb cfg s with pm := pm, producer := producer } := by
  unfold ringChanDb processDb
  split
  · rename_i hburst
    split
    · exact
        { shown := fun _ _ _ => ⟨rfl, fun _ hmode => absurd hmode Bool.false_ne_true⟩
          register := fun hno => absurd (hburst.symm.trans hno) (by decide) }
    · rename_i hmode
      exact
        { shown := fun _ _ _ => ⟨rfl, fun _ hset => absurd hset hmode⟩
          register := fun hno => absurd (hburst.symm.trans hno) (by decide) }
  · rename_i hburst
    exact
      { shown := fun _ _ _ => ⟨rfl, fun hset => absurd hset hburst⟩
        register := fun _ _ => rfl }

theorem dbEvent_bell (h : Inv s) (hb : Bell cfg s) : Bell cfg (dbEvent cfg s) := by
  unfold dbEvent
  dsimp only
  split
  · exact ringChanDb_bell _ _
  · rename_i hquiet
    refine { shown := fun hstop hpm hset => ⟨(hb.shown hstop hpm hset).1, fun _ _ => ?_⟩
             register := hb.register }
    have hrp : s.treRing.rp = s.treRing.wp := by
      by_contra hne
      exact hquiet ⟨Ne.symm hne, congrArg Pm.inM0 hpm⟩
    exact h.rings.treAt.empty_iff.mp hrp

theorem take_bell (h : Inv s) (hb : Bell cfg s) (hs : take cfg s = some t) : Bell cfg t := by
  unfold take at hs
  split at hs
  · rename_i event events hidle hevents
    cases hs
    unfold parseXferEvent
    dsimp only
    split
    · exact { hb with }
    · split
      · refine { hb with shown := fun hstop hpm hset => ?_ }
        have hshown := hb.shown hstop hpm hset
        rw [hidle] at hshown
        exact hshown
      · rename_i he hcode
        split
        · exact dbEvent_bell (dropEvent_inv h hevents fun _ => hcode) { hb with }
        · exact { hb with }
  · cases hs

theorem ringM0_bell (h : Inv s) (hb : Bell cfg s) (hs : ringM0 cfg s = some t) : Bell cfg t := by
  unfold ringM0 at hs
  split at hs
  · dsimp only at hs
    cases hs
    split
    · exact ringChanDb_bell _ _
    · rename_i hquiet
      refine { shown := fun hstop _ _ => ?_, register := hb.register }
      have hempty := h.rings.treAt.empty_iff.mp (not_ne_iff.mp hquiet).symm
      have hdev := h.device hstop
      refine ⟨Nat.le_antisymm hdev.published ?_, fun _ _ => hempty⟩
      change s.accepted.length ≤ s.published
      rw [← hempty]
      exact hdev.released.trans (hdev.reported.trans hdev.fetched)
  · cases hs

theorem ringDb_bell (hb : Bell cfg s) (hs : ringDb cfg s = some t) : Bell cfg t := by
  unfold ringDb at hs
  split at hs
  · cases hs
    split
    · exact ringChanDb_bell _ .idle
    · rename_i haway
      refine { shown := fun _ hpm _ => ?_, register := hb.register }
      exact absurd (congrArg Pm.inM0 hpm) haway
  · cases hs

/-- An element that is released was there, so the device waits for no doorbell. -/
theorem releaseTre_bell (h : Inv s) (hb : Bell cfg s) (hs : releaseTre s = some t) :
    Bell cfg t := by
  unfold releaseTre at hs
  split at hs
  · rename_i devRp len status info hc
    obtain ⟨low, hcons, -, -, hlow⟩ := h.low_le (by simp [hc])
    rw [hc] at hcons
    have hlt : s.callbacks.length < low := hcons.1
    cases hs
    refine { hb with shown := fun hstop hpm hset => ?_ }
    obtain ⟨hpublished, hempty⟩ := hb.shown hstop hpm hset
    rw [hc] at hempty
    refine ⟨hpublished, fun hburst hmode => ?_⟩
    have : s.callbacks.length = s.accepted.length := hempty hburst hmode
    omega
  · cases hs

theorem notify_bell (hb : Bell cfg s) (hs : notify s = some t) : Bell cfg t := by
  unfold notify at hs
  split at hs
  · rename_i hc
    cases hs
    refine { hb with shown := fun hstop hpm hset => ?_ }
    have hshown := hb.shown hstop hpm hset
    rw [hc] at hshown
    refine ⟨hshown.1, fun hburst hmode => ?_⟩
    rw [List.length_append]
    exact hshown.2 hburst hmode
  · cases hs

theorem step_bell (h : Inv s) (hb : Bell cfg s) {a : Action} (hs : step cfg s a = some t) :
    Bell cfg t := by
  cases a with
  | check q =>
    simp only [step, check] at hs
    split at hs
    · rename_i hp
      split at hs
      · cases hs
        exact hb
      · cases hs
        exact { hb with shown := fun hstop hpm _ => hb.shown hstop hpm (by rw [hp]; trivial) }
    · cases hs
  | fill =>
    simp only [step, fill] at hs
    split at hs
    · rename_i hp
      split at hs <;> cases hs <;>
        exact { hb with shown := fun hstop hpm _ => hb.shown hstop hpm (by rw [hp]; trivial) }
    · cases hs
  | addTre =>
    simp only [step, addTre] at hs
    split at hs
    · cases hs
      exact { hb with shown := fun _ _ hset => absurd hset id }
    · cases hs
  | addBuf =>
    simp only [step, addBuf] at hs
    split at hs
    · cases hs
      exact { hb with shown := fun _ _ hset => absurd hset id }
    · cases hs
  | ring => exact ringDb_bell hb hs
  | take => exact take_bell h hb hs
  | releaseBuf =>
    simp only [step, releaseBuf] at hs
    split at hs
    · rename_i hc
      split at hs
      · cases hs
      · cases hs
        refine { hb with shown := fun hstop hpm hset => ?_ }
        have hshown := hb.shown hstop hpm hset
        rw [hc] at hshown
        exact hshown
    · cases hs
  | releaseTre => exact releaseTre_bell h hb hs
  | notify => exact notify_bell hb hs
  | finish =>
    simp only [step, finish] at hs
    split at hs
    · rename_i hc
      split at hs
      · cases hs
        refine { hb with shown := fun hstop hpm hset => ?_ }
        have hshown := hb.shown hstop hpm hset
        rw [hc] at hshown
        exact hshown
      · cases hs
    · cases hs
  | fetch =>
    simp only [step, fetch] at hs
    split at hs
    · cases hs
    · cases hs
      exact { hb with }
  | report =>
    simp only [step, report] at hs
    split at hs
    · cases hs
      exact { hb with }
    · cases hs
  | reportDb =>
    simp only [step, reportDb] at hs
    split at hs
    · cases hs
      exact { hb with }
    · cases hs
  | leaveM0 =>
    cases hs
    exact { hb with shown := fun _ hpm _ => absurd (congrArg Pm.inM0 hpm) Bool.false_ne_true }
  | enterM0 =>
    simp only [step] at hs
    split at hs
    · cases hs
    · cases hs
      exact { hb with
        shown := fun _ hpm _ => absurd (congrArg Pm.entering hpm).symm Bool.false_ne_true }
  | ringM0 => exact ringM0_bell h hb hs
  | disable =>
    simp only [step, disable] at hs
    split at hs
    · cases hs
      exact { hb with }
    · cases hs
  | stop =>
    simp only [step] at hs
    split at hs
    · cases hs
    · cases hs
      exact { hb with shown := fun hstop => absurd hstop (by simp) }
  | reset =>
    simp only [step, resetDataChan] at hs
    split at hs
    · rename_i hgo
      cases hs
      exact { hb with shown := fun hstop => absurd (hgo.1.symm.trans hstop) (by simp) }
    · cases hs

end Bell

section Runs

variable {cfg : Config} {tre buf : Ring} {tres : ℕ → Tre} {infos : ℕ → BufInfo} {pm : Pm}
  {as : List Action} {s : State}

theorem run_bell (hn : 0 < tre.elements) (hsame : buf.elements = tre.elements)
    (hrun : run (step cfg) as (initChanCtxt tre buf tres infos pm) = some s) :
    Inv s ∧ Bell cfg s := by
  refine run_invariant (I := fun s => Inv s ∧ Bell cfg s)
    (fun _ _ _ h hs => ⟨step_inv h.1 hs, step_bell h.1 h.2 hs⟩)
    ⟨init_inv hn hsame tres infos pm, ?_⟩ hrun
  exact
    { shown := fun _ _ _ => ⟨rfl, fun _ _ => rfl⟩
      register := fun _ hne => absurd rfl hne }

/-- No doorbell is lost. In M0 and with no call under way, the context shows the device every
request, the register too where every doorbell is written, and a device that waits for a
doorbell has an empty ring. -/
theorem doorbell_not_lost (hn : 0 < tre.elements) (hsame : buf.elements = tre.elements)
    (hrun : run (step cfg) as (initChanCtxt tre buf tres infos pm) = some s)
    (hstop : s.stopped = false) (hm0 : s.pm = .m0) (hset : s.producer.settled) :
    s.ctxtWp = toPhysical s.treRing s.treRing.wp ∧
      (cfg.brstmode = false → s.accepted ≠ [] → s.db = s.ctxtWp) ∧
      (cfg.brstmode = true → s.dbMode = true → s.treRing.rp = s.treRing.wp) := by
  obtain ⟨h, hb⟩ := run_bell hn hsame hrun
  obtain ⟨hpublished, hempty⟩ := hb.shown hstop hm0 hset
  refine ⟨?_, fun hburst hne => hb.register hburst ?_, fun hburst hmode => ?_⟩
  · rw [(h.device hstop).ctxtWp, hpublished, h.rings.treAt.wp]
    rfl
  · rw [hpublished]
    exact fun hzero => hne (List.length_eq_zero_iff.mp hzero)
  · exact h.rings.treAt.empty_iff.mpr (hempty hburst hmode)

theorem doorbell_not_lost_one :
    ∃ s, run (step identityMapping) queueOne threeSlots = some s ∧
      s.ctxtWp = toPhysical s.treRing s.treRing.wp := by
  obtain ⟨s, hs, hends⟩ := (Option.any_eq_true _ _).mp
    (by decide : (run (step identityMapping) queueOne threeSlots).any (fun s =>
      s.stopped = false ∧ s.pm = .m0 ∧ s.producer.settled) = true)
  obtain ⟨hstop, hm0, hset⟩ := of_decide_eq_true hends
  exact ⟨s, hs, (doorbell_not_lost (by decide) (by rfl) hs hstop hm0 hset).1⟩

/-- Where nothing can move any more, nothing is left: if the device has done and reported all that
it is shown, and the tasklet has no event, then every buffer has come back. -/
theorem quiescent_returns_all (hn : 0 < tre.elements) (hsame : buf.elements = tre.elements)
    (hrun : run (step cfg) as (initChanCtxt tre buf tres infos pm) = some s)
    (hon : s.enabled = true) (hm0 : s.pm = .m0) (hset : s.producer.settled)
    (hfetched : deviceRp s s.seen.length = s.ctxtWp) (hreported : s.reported = s.seen.length)
    (hidle : s.consumer = .idle) (hevents : s.events = []) :
    s.callbacks.map Result.bufAddr = s.accepted.map fun p => p.info.cbBuf := by
  obtain ⟨h, hb⟩ := run_bell hn hsame hrun
  have hstop := h.running hon
  have hdev := h.device hstop
  obtain ⟨hpublished, -⟩ := hb.shown hstop hm0 hset
  obtain ⟨low, hcons, hpending⟩ := h.events hon
  rw [hidle] at hcons
  rw [hevents] at hpending
  have hdone : low = s.callbacks.length := hcons
  have hlast : low = s.reported := hpending
  have hroom := h.rings.treAt.room
  have hreleased := hdev.released
  have hseen : s.seen.length = s.published := by
    rw [hdev.ctxtWp] at hfetched
    refine eq_of_slot_eq hdev.fetched ?_ (bus_injective h.rings.treAt.size hfetched)
    rw [hidle] at hreleased hroom
    change s.accepted.length - s.callbacks.length < s.treRing.elements at hroom
    omega
  refine h.returned.eq_of_length ?_
  rw [List.length_map, List.length_map]
  omega

theorem quiescent_returns_one :
    ∃ s, run (step identityMapping) (queueOne ++ returnOne) threeSlots = some s ∧
      s.callbacks.map Result.bufAddr = s.accepted.map fun p => p.info.cbBuf := by
  obtain ⟨s, hs, hends⟩ := (Option.any_eq_true _ _).mp
    (by decide : (run (step identityMapping) (queueOne ++ returnOne) threeSlots).any (fun s =>
      s.enabled = true ∧ s.pm = .m0 ∧ s.producer.settled ∧ deviceRp s s.seen.length = s.ctxtWp ∧
      s.reported = s.seen.length ∧ s.consumer = .idle ∧ s.events = []) = true)
  obtain ⟨hon, hm0, hset, hfetched, hreported, hidle, hevents⟩ := of_decide_eq_true hends
  exact ⟨s, hs, quiescent_returns_all (by decide) (by rfl) hs hon hm0 hset hfetched hreported hidle
    hevents⟩

end Runs

end MhiTransfer
