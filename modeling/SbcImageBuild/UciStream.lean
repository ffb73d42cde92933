import SbcImageBuild.UciPipe

/-!
# What the readers of a node get

Over every interleaving of the modem, the callbacks, the readers and the lifetime of the node.
-/
namespace UciStream

open ByteStore Rotation StepSystem UciPipe

variable {cfg : Config} {s t : Node}

/-! ### The buffers of the array -/

/-- Which buffers are in the ring, and what became of the others. -/
def pool (s : Node) : Pool :=
  ⟨s.ring, s.callbacks, s.accepted, s.order, s.recycled, s.lost, s.rxError⟩

def waitingBufs (s : Node) : List UciBuf := s.curBuf.toList ++ s.pending

structure Placed (cfg : Config) (s : Node) : Prop where
  rotating : (pool s).Rotating cfg.free
  position : s.nrTrb = s.accepted % cfg.nrTrbs
  pages : (waitingBufs s).filterMap UciBuf.page = s.order.map (· % cfg.nrTrbs)
  private_ : cfg.copies = true → s.order = []

theorem opened_placed (cfg : Config) (trbs : ℕ → Trb) : Placed cfg (opened cfg trbs) where
  rotating := Pool.initial_rotating cfg.free
  position := (Nat.zero_mod _).symm
  pages := rfl
  private_ _ := rfl

theorem queueTransfer_ok {nrTrb : ℕ} {refusal : Option ℤ}
    (h : queueTransfer cfg s nrTrb refusal = .ok t) :
    t = { s with ring := s.ring ++ [nrTrb] } ∧ refusal = none := by
  cases refusal with
  | some error => cases h
  | none =>
    simp only [queueTransfer] at h
    split_ifs at h
    cases h
    exact ⟨rfl, rfl⟩

/-- The loop of `mhi_queue_inbound` leaves the ring of `opened`. -/
theorem queueInbound_ok {refusals : ℕ → Option ℤ} (hempty : s.ring = [])
    (h : queueInbound cfg s refusals = .ok t) : t = { s with ring := List.range cfg.free } := by
  have hloop : ∀ (n : ℕ) (t : Node),
      (List.range n).foldlM (fun s i => queueTransfer cfg s i (refusals i)) s = .ok t →
        t = { s with ring := List.range n } := by
    intro n
    induction n with
    | zero =>
      intro t ht
      cases ht
      rw [List.range_zero, ← hempty]
    | succ n ih =>
      intro t ht
      rw [List.range_succ, List.foldlM_append] at ht
      cases hfront : (List.range n).foldlM
          (fun s i => queueTransfer cfg s i (refusals i)) s with
      | error e =>
        rw [hfront] at ht
        cases ht
      | ok u =>
        rw [hfront] at ht
        simp only [List.foldlM_cons, List.foldlM_nil, bind_pure] at ht
        have hlast : queueTransfer cfg u n (refusals n) = .ok t := ht
        rw [(queueTransfer_ok hlast).1, ih u hfront, List.range_succ]
  exact hloop cfg.free t h

/-- What `recycle` does with a number that waits first. -/
theorem recycle_cases {nrTrb k : ℕ} {refusal : Option ℤ} (hslot : nrTrb = k % cfg.nrTrbs) :
    (refusal = none ∧ s.ring.length < cfg.free ∧ recycle cfg s nrTrb k refusal =
      ({ s with
          ring := s.ring ++ [(k + cfg.free) % cfg.nrTrbs]
          recycled := s.recycled ++ [k] }, none)) ∨
    ((refusal ≠ none ∨ cfg.free ≤ s.ring.length) ∧
      ∃ error, recycle cfg s nrTrb k refusal = ({ s with lost := k :: s.lost }, some error)) := by
  have hprevious : (if nrTrb ≠ 0 then nrTrb - 1 else cfg.nrTrbs - 1) =
      (k + cfg.free) % cfg.nrTrbs := hslot ▸ previous_slot cfg.free k
  cases refusal with
  | some error => exact .inr ⟨.inl nofun, error, rfl⟩
  | none =>
    by_cases hroom : s.ring.length < cfg.free
    · refine .inl ⟨rfl, hroom, ?_⟩
      simp only [recycle, queueTransfer, if_pos hroom, hprevious]
    · refine .inr ⟨.inr (by omega), -eNoMem, ?_⟩
      simp only [recycle, queueTransfer, if_neg hroom]

/-- The pool keeps rotating over a callback, a finished read and whatever leaves the buffers where
they are. -/
theorem Placed.of_same (h : Placed cfg s) (hpool : pool t = pool s) (hnr : t.nrTrb = s.nrTrb)
    (hbufs : waitingBufs t = waitingBufs s) : Placed cfg t where
  rotating := hpool ▸ h.rotating
  position := by
    have haccepted : t.accepted = s.accepted := congrArg Pool.accepted hpool
    rw [hnr, haccepted]
    exact h.position
  pages := by
    have horder : t.order = s.order := congrArg Pool.waiting hpool
    rw [hbufs, horder]
    exact h.pages
  private_ := by
    have horder : t.order = s.order := congrArg Pool.waiting hpool
    exact horder ▸ h.private_

/-- Only the pool changes. -/
theorem recycle_frame (cfg : Config) (s : Node) (nrTrb k : ℕ) (refusal : Option ℤ) :
    ∃ ring recycled lost, (recycle cfg s nrTrb k refusal).1 =
      { s with ring := ring, recycled := recycled, lost := lost } := by
  rw [recycle]
  cases hqueue : queueTransfer cfg s (if nrTrb ≠ 0 then nrTrb - 1 else cfg.nrTrbs - 1) refusal with
  | ok t =>
    obtain ⟨rfl, -⟩ := queueTransfer_ok hqueue
    exact ⟨_, _, s.lost, rfl⟩
  | error error => exact ⟨s.ring, s.recycled, _, rfl⟩

/-- With the number in hand in front of those that wait, the pool keeps rotating. -/
theorem recycle_rotating {nrTrb k : ℕ} (refusal : Option ℤ) (hslot : nrTrb = k % cfg.nrTrbs)
    (h : ({ pool s with waiting := k :: s.order } : Pool).Rotating cfg.free) :
    (pool (recycle cfg s nrTrb k refusal).1).Rotating cfg.free := by
  rcases recycle_cases hslot with ⟨-, -, heq⟩ | ⟨-, error, heq⟩
  · rw [heq]
    exact h.putBack rfl
  · rw [heq]
    exact h.loseFirst rfl

/-! ### One callback -/

/-- Everything that a callback can do. -/
inductive Callback (cfg : Config) (s : Node) (notConn : Bool) (bytesXferd : ℕ) (allocated : Bool)
    (refusal : Option ℤ) : Node → Prop
  | refused {nrTrb : ℕ} {ring : List ℕ} (hring : s.ring = nrTrb :: ring) (hne : nrTrb ≠ s.nrTrb) :
    Callback cfg s notConn bytesXferd allocated refusal
      { popBuf s ring with rxError := s.rxError + 1 }
  | dropped {ring : List ℕ} (hring : s.ring = s.nrTrb :: ring)
      (hdropped : Dropped cfg notConn bytesXferd) :
    Callback cfg s notConn bytesXferd allocated refusal
      { advance cfg (popBuf s ring) with lost := s.accepted :: s.lost }
  | copied {ring : List ℕ} (hring : s.ring = s.nrTrb :: ring)
      (hkept : ¬ Dropped cfg notConn bytesXferd) (hcopies : cfg.copies = true) :
    Callback cfg s notConn bytesXferd allocated refusal
      (addCopy cfg (advance cfg (popBuf s ring)) s.nrTrb s.accepted bytesXferd allocated refusal)
  | passed {ring : List ℕ} (hring : s.ring = s.nrTrb :: ring)
      (hkept : ¬ Dropped cfg notConn bytesXferd) (hcopies : cfg.copies = false) :
    Callback cfg s notConn bytesXferd allocated refusal
      (addPage (advance cfg (popBuf s ring)) s.nrTrb s.accepted bytesXferd)

theorem callback_cases {notConn : Bool} {bytesXferd : ℕ} {allocated : Bool} {refusal : Option ℤ}
    (h : dlXferCb cfg s notConn bytesXferd allocated refusal = some t) :
    Callback cfg s notConn bytesXferd allocated refusal t := by
  unfold dlXferCb at h
  cases hring : s.ring with
  | nil =>
    rw [hring] at h
    cases h
  | cons nrTrb ring =>
    rw [hring] at h
    obtain rfl := Option.some.inj h
    by_cases hne : nrTrb = s.nrTrb
    · subst hne
      rw [if_neg (not_not_intro rfl)]
      by_cases hdropped : Dropped cfg notConn bytesXferd
      · rw [if_pos hdropped]
        exact .dropped hring hdropped
      · rw [if_neg hdropped]
        cases hcopies : cfg.copies with
        | true => exact .copied hring hdropped hcopies
        | false => exact .passed hring hdropped hcopies
    · rw [if_pos hne]
      exact .refused hring hne

section Callback

variable {notConn : Bool} {bytesXferd : ℕ} {allocated : Bool} {refusal : Option ℤ} {ring : List ℕ}

/-- A channel that copies has one buffer in hand, and none that waits. -/
theorem copy_in_hand (h : Placed cfg s) (hring : s.ring = s.nrTrb :: ring)
    (hcopies : cfg.copies = true) :
    (⟨ring, s.callbacks + 1, s.accepted + 1, s.accepted :: s.order, s.recycled, s.lost,
      s.rxError⟩ : Pool).Rotating cfg.free := by
  have hnone := h.private_ hcopies
  have hpool := h.rotating.accept hring h.position
  rwa [Pool.accept, show (pool s).queue.tail = _ from congrArg List.tail hring,
    show (pool s).waiting = [] from hnone, List.nil_append, ← hnone] at hpool

theorem callback_placed (h : Placed cfg s)
    (hstep : dlXferCb cfg s notConn bytesXferd allocated refusal = some t) : Placed cfg t := by
  have hnext : (advance cfg s).nrTrb = (s.accepted + 1) % cfg.nrTrbs := by
    rw [advance, h.position]
    exact next_slot cfg.free s.accepted
  cases callback_cases hstep with
  | refused hring hne =>
    have hturn : _ ≠ s.accepted % (cfg.free + 1) := fun heq => hne (heq.trans h.position.symm)
    have hpool := h.rotating.refuse hring hturn
    rw [Pool.refuse, show (pool s).queue.tail = _ from congrArg List.tail hring] at hpool
    exact ⟨hpool, h.position, h.pages, h.private_⟩
  | dropped hring hdropped =>
    have hpool := (h.rotating.accept hring h.position).loseLast rfl
    rw [Pool.loseLast, Pool.accept, show (pool s).queue.tail = _ from congrArg List.tail hring,
      List.dropLast_concat] at hpool
    exact ⟨hpool, hnext, h.pages, h.private_⟩
  | copied hring hkept hcopies =>
    have hrotating := recycle_rotating
      (s := setLen (advance cfg (popBuf s _)) s.nrTrb bytesXferd) refusal h.position
      (copy_in_hand h hring hcopies)
    obtain ⟨_, _, _, heq⟩ := recycle_frame cfg
      (setLen (advance cfg (popBuf s _)) s.nrTrb bytesXferd) s.nrTrb s.accepted refusal
    have hpages := h.pages
    rw [heq] at hrotating
    rw [addCopy, heq]
    split
    · refine ⟨hrotating, hnext, ?_, h.private_⟩
      simp only [waitingBufs, addTail, setLen, advance, popBuf, ← List.append_assoc,
        List.filterMap_append] at hpages ⊢
      rw [hpages]
      exact List.append_nil _
    · exact ⟨hrotating, hnext, hpages, h.private_⟩
  | passed hring hkept hcopies =>
    have hpool := h.rotating.accept hring h.position
    rw [Pool.accept, show (pool s).queue.tail = _ from congrArg List.tail hring] at hpool
    refine ⟨hpool, hnext, ?_, fun hcopied => absurd hcopied (by simp [hcopies])⟩
    have hpages := h.pages
    simp only [waitingBufs, addPage, addTail, setLen, advance, popBuf, List.map_append,
      ← List.append_assoc, List.filterMap_append] at hpages ⊢
    rw [hpages, h.position]
    rfl

end Callback

/-! ### The bytes that wait -/

def content (trbs : ℕ → Trb) (buf : UciBuf) : Bytes := (data trbs buf).take (len trbs buf)

/-- What is left of the current buffer, and the buffers behind it. -/
def unread (s : Node) : Bytes :=
  (s.curBuf.elim [] fun buf => (content s.trbs buf).drop (len s.trbs buf - s.rxSize)) ++
    s.pending.flatMap (content s.trbs)

/-- What the reads have taken, that of the read under way included. -/
def taken (s : Node) : Bytes := s.replies.flatMap Reply.taken ++ s.reader.taken

structure Streaming (s : Node) : Prop where
  size : ∀ buf ∈ s.curBuf, s.rxSize ≤ len s.trbs buf
  done : ∀ bytes, s.reader = .copied bytes → s.rxSize = 0
  stream : s.received.flatten = taken s ++ unread s

theorem opened_streaming (cfg : Config) (trbs : ℕ → Trb) : Streaming (opened cfg trbs) where
  size := nofun
  done := nofun
  stream := rfl

/-- No buffer that waits is in the ring, where the modem may write. -/
theorem ring_apart (h : Placed cfg s) {nrTrb : ℕ} (hring : nrTrb ∈ s.ring) :
    UciBuf.trb nrTrb ∉ waitingBufs s := by
  intro hmem
  have hpage : nrTrb ∈ (waitingBufs s).filterMap UciBuf.page :=
    List.mem_filterMap.mpr ⟨_, hmem, rfl⟩
  rw [h.pages] at hpage
  obtain ⟨k, hk, heq⟩ := List.mem_map.mp hpage
  exact h.rotating.apart hring hk heq.symm

section Memory

variable {trbs : ℕ → Trb} {nrTrb : ℕ} {x : Trb} {buf : UciBuf}

theorem data_update (hne : buf ≠ .trb nrTrb) :
    data (Function.update trbs nrTrb x) buf = data trbs buf := by
  cases buf with
  | trb n =>
    have hn : n ≠ nrTrb := fun heq => hne (congrArg UciBuf.trb heq)
    exact congrArg Trb.data (Function.update_of_ne hn x trbs)
  | copy data => rfl

theorem len_update (hne : buf ≠ .trb nrTrb) :
    len (Function.update trbs nrTrb x) buf = len trbs buf := by
  cases buf with
  | trb n =>
    have hn : n ≠ nrTrb := fun heq => hne (congrArg UciBuf.trb heq)
    exact congrArg Trb.len (Function.update_of_ne hn x trbs)
  | copy data => rfl

theorem content_update (hne : buf ≠ .trb nrTrb) :
    content (Function.update trbs nrTrb x) buf = content trbs buf := by
  rw [content, data_update hne, len_update hne, content]

/-- Writing a buffer that does not wait leaves what waits. -/
theorem update_streaming (h : Streaming s) (hout : UciBuf.trb nrTrb ∉ waitingBufs s) :
    Streaming { s with trbs := Function.update s.trbs nrTrb x } := by
  have hne : ∀ buf ∈ waitingBufs s, buf ≠ .trb nrTrb := fun buf hbuf heq => hout (heq ▸ hbuf)
  have hcur : ∀ buf ∈ s.curBuf, buf ≠ .trb nrTrb := fun buf hbuf =>
    hne buf (List.mem_append_left _ (Option.mem_toList.mpr hbuf))
  have hback : s.pending.map (content (Function.update s.trbs nrTrb x)) =
      s.pending.map (content s.trbs) :=
    List.map_congr_left fun buf hbuf => content_update (hne buf (List.mem_append_right _ hbuf))
  have hunread : unread { s with trbs := Function.update s.trbs nrTrb x } = unread s := by
    simp only [unread, List.flatMap, hback]
    cases hc : s.curBuf with
    | none => rfl
    | some buf =>
      simp only [Option.elim_some, content_update (hcur buf hc), len_update (hcur buf hc)]
  refine ⟨fun buf hbuf => ?_, h.done, hunread ▸ h.stream⟩
  rw [len_update (hcur buf hbuf)]
  exact h.size buf hbuf

end Memory

theorem content_copy (trbs : ℕ → Trb) (bytes : Bytes) : content trbs (.copy bytes) = bytes :=
  List.take_length

/-- A buffer is added behind the others. -/
theorem addTail_streaming (h : Streaming s) {buf : UciBuf} {bytes : Bytes}
    (hcontent : content s.trbs buf = bytes) : Streaming (addTail s buf bytes) := by
  refine ⟨h.size, h.done, ?_⟩
  have hunread : unread (addTail s buf bytes) = unread s ++ bytes := by
    simp only [unread, addTail, List.flatMap_append, List.flatMap_cons, List.flatMap_nil,
      List.append_nil, hcontent, List.append_assoc]
  have hreceived : (addTail s buf bytes).received.flatten = s.received.flatten ++ bytes := by
    simp only [addTail, List.flatten_append, List.flatten_cons, List.flatten_nil, List.append_nil]
  rw [hunread, hreceived, h.stream, List.append_assoc]
  rfl

theorem callback_streaming {notConn : Bool} {bytesXferd : ℕ} {allocated : Bool}
    {refusal : Option ℤ} (hplaced : Placed cfg s) (h : Streaming s)
    (hstep : dlXferCb cfg s notConn bytesXferd allocated refusal = some t) : Streaming t := by
  have hlen : ∀ ring, s.ring = s.nrTrb :: ring →
      Streaming (setLen (advance cfg (popBuf s ring)) s.nrTrb bytesXferd) := by
    intro ring hring
    have hfirst := update_streaming h (x := ⟨(s.trbs s.nrTrb).data, bytesXferd⟩)
      (ring_apart hplaced (hring ▸ List.mem_cons_self))
    exact ⟨hfirst.size, hfirst.done, hfirst.stream⟩
  cases callback_cases hstep with
  | refused hring hne => exact ⟨h.size, h.done, h.stream⟩
  | dropped hring hdropped => exact ⟨h.size, h.done, h.stream⟩
  | copied hring hkept hcopies =>
    have hlong := hlen _ hring
    obtain ⟨_, _, _, heq⟩ := recycle_frame cfg
      (setLen (advance cfg (popBuf s _)) s.nrTrb bytesXferd) s.nrTrb s.accepted refusal
    rw [addCopy, heq]
    split
    · refine addTail_streaming ?_ (content_copy _ _)
      exact ⟨hlong.size, hlong.done, hlong.stream⟩
    · exact ⟨hlong.size, hlong.done, hlong.stream⟩
  | passed hring hkept hcopies =>
    have hcontent : content (Function.update s.trbs s.nrTrb ⟨(s.trbs s.nrTrb).data, bytesXferd⟩)
        (.trb s.nrTrb) = (s.trbs s.nrTrb).data.take bytesXferd := by
      simp only [content, data, len, Function.update_self]
    have hadded := addTail_streaming (hlen _ hring) hcontent
    exact ⟨hadded.size, hadded.done, hadded.stream⟩

/-! ### One read -/

theorem reply_streaming (h : Streaming s) {r : Reply} (htaken : r.taken = s.reader.taken) :
    Streaming (reply s r) := by
  have hreplies : taken (reply s r) = taken s := by
    simp [taken, reply, Reader.taken, htaken]
  refine ⟨h.size, nofun, ?_⟩
  rw [hreplies]
  exact h.stream

theorem takeBuf_streaming (h : Streaming s) (hreader : s.reader.taken = []) (count : ℕ) :
    Streaming (takeBuf s count) := by
  unfold takeBuf
  split
  · refine ⟨h.size, nofun, h.stream.trans ?_⟩
    rw [taken, hreader]
    rfl
  · exact reply_streaming h hreader.symm
  · rename_i buf pending hcur hpending
    have hunread : unread s = content s.trbs buf ++ pending.flatMap (content s.trbs) := by
      rw [unread, hcur, hpending]
      rfl
    refine ⟨fun b hb => ?_, nofun, ?_⟩
    · cases hb
      exact Nat.le_refl _
    · rw [h.stream, hunread, taken, hreader]
      simp [unread, taken, Reader.taken]

theorem takeBuf_placed (h : Placed cfg s) (count : ℕ) : Placed cfg (takeBuf s count) := by
  unfold takeBuf
  split
  · exact h.of_same rfl rfl rfl
  · exact h.of_same rfl rfl rfl
  · rename_i buf pending hcur hpending
    refine h.of_same rfl rfl ?_
    rw [waitingBufs, waitingBufs, hcur, hpending]
    rfl

structure Invariant (cfg : Config) (s : Node) : Prop where
  placed : Placed cfg s
  streaming : Streaming s

theorem reply_invariant (h : Invariant cfg s) {r : Reply} (htaken : r.taken = s.reader.taken) :
    Invariant cfg (reply s r) :=
  ⟨h.placed.of_same rfl rfl rfl, reply_streaming h.streaming htaken⟩

theorem takeBuf_invariant (h : Invariant cfg s) (hreader : s.reader.taken = []) (count : ℕ) :
    Invariant cfg (takeBuf s count) :=
  ⟨takeBuf_placed h.placed count, takeBuf_streaming h.streaming hreader count⟩

theorem readStart_invariant (h : Invariant cfg s) {count : ℕ} {nonblock : Bool}
    (hstep : readStart s count nonblock = some t) : Invariant cfg t := by
  unfold readStart at hstep
  cases hreader : s.reader with
  | idle =>
    have hnone : s.reader.taken = [] := by
      rw [hreader]
      rfl
    rw [hreader] at hstep
    obtain rfl := Option.some.inj hstep
    split_ifs
    · exact reply_invariant h hnone.symm
    · exact reply_invariant h hnone.symm
    · exact reply_invariant h hnone.symm
    · refine ⟨h.placed.of_same rfl rfl rfl, h.streaming.size, nofun, h.streaming.stream.trans ?_⟩
      rw [taken, hnone]
      rfl
    · exact takeBuf_invariant h hnone count
  | _ =>
    rw [hreader] at hstep
    cases hstep

theorem wake_invariant (h : Invariant cfg s) (hstep : wake s = some t) : Invariant cfg t := by
  unfold wake at hstep
  cases hreader : s.reader with
  | waiting count =>
    have hnone : s.reader.taken = [] := by
      rw [hreader]
      rfl
    rw [hreader] at hstep
    split_ifs at hstep
    · obtain rfl := Option.some.inj hstep
      exact reply_invariant h hnone.symm
    · obtain rfl := Option.some.inj hstep
      exact takeBuf_invariant h hnone count
  | _ =>
    rw [hreader] at hstep
    cases hstep

theorem interrupt_invariant (h : Invariant cfg s) (hstep : interrupt s = some t) :
    Invariant cfg t := by
  unfold interrupt at hstep
  cases hreader : s.reader with
  | waiting count =>
    rw [hreader] at hstep
    obtain rfl := Option.some.inj hstep
    refine reply_invariant h ?_
    rw [hreader]
    rfl
  | _ =>
    rw [hreader] at hstep
    cases hstep

/-- The bytes that a read copies come off the front of what is unread. -/
theorem unread_consume (h : Streaming s) {buf : UciBuf} (hcur : s.curBuf = some buf) {toCopy : ℕ}
    (hcopy : toCopy ≤ s.rxSize) :
    unread s = nextBytes s buf toCopy ++ unread { s with rxSize := s.rxSize - toCopy } := by
  have hsize := h.size buf hcur
  have hplace : len s.trbs buf - (s.rxSize - toCopy) = len s.trbs buf - s.rxSize + toCopy := by
    omega
  have hfront : nextBytes s buf toCopy =
      ((content s.trbs buf).drop (len s.trbs buf - s.rxSize)).take toCopy := by
    rw [nextBytes, content, List.drop_take, List.take_take, Nat.min_eq_left (by omega)]
  rw [hfront, unread, unread, hcur, Option.elim_some, Option.elim_some, hplace, ← List.drop_drop,
    ← List.append_assoc, List.take_append_drop]

theorem consume_invariant (h : Invariant cfg s) {buf : UciBuf} (hcur : s.curBuf = some buf)
    (hreader : s.reader.taken = []) {toCopy : ℕ} (hcopy : toCopy ≤ s.rxSize) :
    Invariant cfg (consume s buf toCopy) := by
  have hstream := h.streaming.stream
  rw [unread_consume h.streaming hcur hcopy, taken, hreader, List.append_nil,
    ← List.append_assoc] at hstream
  have hsize : ∀ b ∈ s.curBuf, s.rxSize - toCopy ≤ len s.trbs b := fun b hb =>
    Nat.le_trans (Nat.sub_le _ _) (h.streaming.size b hb)
  unfold consume
  split
  · rename_i hzero
    exact ⟨h.placed.of_same rfl rfl rfl, hsize, fun _ _ => hzero, hstream⟩
  · refine ⟨h.placed.of_same rfl rfl rfl, hsize, nofun, ?_⟩
    simp only [taken, reply, List.flatMap_append, List.flatMap_cons, List.flatMap_nil, Reply.taken,
      Reader.taken, List.append_nil]
    exact hstream

theorem copyToUser_invariant (h : Invariant cfg s) {left : ℕ}
    (hstep : copyToUser s left = some t) : Invariant cfg t := by
  unfold copyToUser at hstep
  cases hreader : s.reader with
  | copying count =>
    have hnone : s.reader.taken = [] := by
      rw [hreader]
      rfl
    cases hcur : s.curBuf with
    | none =>
      rw [hreader, hcur] at hstep
      cases hstep
    | some buf =>
      simp only [hreader, hcur] at hstep
      split_ifs at hstep with hlarge hleft
      · obtain rfl := Option.some.inj hstep
        exact reply_invariant h hnone.symm
      · obtain rfl := Option.some.inj hstep
        exact consume_invariant h hcur hnone (Nat.min_le_right _ _)
  | _ =>
    simp only [hreader] at hstep
    cases hstep

/-- A finished buffer has nothing left to read. -/
theorem unread_done {buf : UciBuf} (hcur : s.curBuf = some buf) (hzero : s.rxSize = 0) :
    unread s = unread { s with curBuf := none } := by
  have hnone : (content s.trbs buf).drop (len s.trbs buf) = [] :=
    List.drop_eq_nil_of_le (by rw [content, List.length_take]; exact Nat.min_le_left _ _)
  rw [unread, unread, hcur, hzero, Option.elim_some, Nat.sub_zero, hnone]
  rfl

/-- The last reply of a read that is done with its buffer. -/
theorem reply_done (h : Streaming s) {bytes : Bytes} (hreader : s.reader = .copied bytes)
    {buf : UciBuf} (hcur : s.curBuf = some buf) {r : Reply} (hr : r.taken = bytes) :
    Streaming (reply { s with curBuf := none } r) := by
  have hdone : Streaming { s with curBuf := none } := by
    refine ⟨nofun, h.done, h.stream.trans ?_⟩
    rw [unread_done hcur (h.done bytes hreader)]
    rfl
  refine reply_streaming hdone ?_
  rw [hreader]
  exact hr

/-- The current buffer has the first number that waits. -/
theorem in_hand (h : Placed cfg s) {nrTrb : ℕ} (hcur : s.curBuf = some (.trb nrTrb)) :
    ∃ k rest, s.order = k :: rest ∧ nrTrb = k % cfg.nrTrbs ∧
      s.pending.filterMap UciBuf.page = rest.map (· % cfg.nrTrbs) := by
  have hpages := h.pages
  rw [waitingBufs, hcur] at hpages
  cases horder : s.order with
  | nil =>
    rw [horder] at hpages
    cases hpages
  | cons k rest =>
    rw [horder] at hpages
    exact ⟨k, rest, rfl, (List.cons.inj hpages).1, (List.cons.inj hpages).2⟩

theorem giveBack_invariant (h : Invariant cfg s) {bytes : Bytes}
    (hreader : s.reader = .copied bytes) {nrTrb : ℕ} (hcur : s.curBuf = some (.trb nrTrb))
    {refusal : Option ℤ} :
    Invariant cfg (giveBack cfg { s with curBuf := none, order := s.order.tail } bytes nrTrb
      (s.order.headD 0) refusal) := by
  obtain ⟨k, rest, horder, hslot, hrest⟩ := in_hand h.placed hcur
  have hprivate : cfg.copies = true → rest = [] := fun hcopies => by
    have hnone := h.placed.private_ hcopies
    rw [horder] at hnone
    cases hnone
  have hpool : (⟨s.ring, s.callbacks, s.accepted, k :: rest, s.recycled, s.lost, s.rxError⟩ :
      Pool).Rotating cfg.free := horder ▸ h.placed.rotating
  rw [horder, List.tail_cons, List.headD_cons, giveBack]
  by_cases henabled : s.enabled = true
  · have hrotating := recycle_rotating (s := { s with curBuf := none, order := rest }) refusal hslot
      hpool
    obtain ⟨ring, recycled, lost, heq⟩ := recycle_frame cfg
      { s with curBuf := none, order := rest } nrTrb k refusal
    rw [heq] at hrotating
    have htaken : ∀ error : Option ℤ,
        (error.elim (Reply.data bytes) (Reply.failed bytes)).taken = bytes := fun error => by
      cases error <;> rfl
    have hreply := reply_done h.streaming hreader hcur
      (htaken (recycle cfg { s with curBuf := none, order := rest } nrTrb k refusal).2)
    rw [if_pos henabled, heq]
    exact ⟨⟨hrotating, h.placed.position, hrest, hprivate⟩,
      ⟨hreply.size, hreply.done, hreply.stream⟩⟩
  · have hreply := reply_done h.streaming hreader hcur
      (r := .failed bytes (-eRestartSys)) rfl
    rw [if_neg henabled]
    exact ⟨⟨hpool.loseFirst rfl, h.placed.position, hrest, hprivate⟩,
      ⟨hreply.size, hreply.done, hreply.stream⟩⟩

theorem readFinish_invariant (h : Invariant cfg s) {refusal : Option ℤ}
    (hstep : readFinish cfg s refusal = some t) : Invariant cfg t := by
  unfold readFinish at hstep
  cases hreader : s.reader with
  | copied bytes =>
    cases hcur : s.curBuf with
    | none =>
      rw [hreader, hcur] at hstep
      cases hstep
    | some buf =>
      cases buf with
      | trb nrTrb =>
        simp only [hreader, hcur] at hstep
        obtain rfl := Option.some.inj hstep
        exact hreader ▸ giveBack_invariant h hreader hcur
      | copy data =>
        simp only [hreader, hcur] at hstep
        obtain rfl := Option.some.inj hstep
        have htaken : (if s.enabled = true then Reply.data bytes
            else .failed bytes (-eRestartSys)).taken = bytes := by
          split <;> rfl
        have hreply := reply_done h.streaming hreader hcur htaken
        have hpages := h.placed.pages
        rw [waitingBufs, hcur] at hpages
        exact hreader ▸ ⟨⟨h.placed.rotating, h.placed.position, hpages, h.placed.private_⟩, hreply⟩
  | _ =>
    simp only [hreader] at hstep
    cases hstep

/-! ### Every step, every run -/

theorem dma_invariant (h : Invariant cfg s) {nrTrb : ℕ} (hring : nrTrb ∈ s.ring) {x : Trb} :
    Invariant cfg { s with trbs := Function.update s.trbs nrTrb x } :=
  ⟨h.placed.of_same rfl rfl rfl, update_streaming h.streaming (ring_apart h.placed hring)⟩

theorem of_counts (h : Invariant cfg s) (enabled : Bool) (refCount : ℕ) :
    Invariant cfg { s with enabled := enabled, refCount := refCount } :=
  ⟨h.placed.of_same rfl rfl rfl, ⟨h.streaming.size, h.streaming.done, h.streaming.stream⟩⟩

theorem step_invariant (s : Node) (a : Action) (t : Node) (h : Invariant cfg s)
    (hstep : step cfg s a = some t) : Invariant cfg t := by
  cases a with
  | dma nrTrb data =>
    rw [step] at hstep
    split_ifs at hstep with hring
    obtain rfl := Option.some.inj hstep
    exact dma_invariant h hring.1
  | dlXferCb notConn bytesXferd allocated refusal =>
    rw [step] at hstep
    split_ifs at hstep
    exact ⟨callback_placed h.placed hstep, callback_streaming h.placed h.streaming hstep⟩
  | readStart count nonblock =>
    rw [step] at hstep
    split_ifs at hstep
    exact readStart_invariant h hstep
  | wake => exact wake_invariant h hstep
  | interrupt => exact interrupt_invariant h hstep
  | copyToUser left => exact copyToUser_invariant h hstep
  | readFinish refusal => exact readFinish_invariant h hstep
  | openNode =>
    rw [step] at hstep
    split_ifs at hstep
    obtain rfl := Option.some.inj hstep
    unfold openNode
    split
    · exact of_counts h s.enabled _
    · exact h
  | release =>
    rw [step, release] at hstep
    obtain ⟨-, hsome⟩ := Option.ite_none_right_eq_some.mp hstep
    obtain rfl := Option.some.inj hsome
    exact of_counts h s.enabled _
  | remove =>
    rw [step, UciPipe.remove] at hstep
    split_ifs at hstep
    obtain rfl := Option.some.inj hstep
    exact of_counts h false _

theorem run_keeps {trbs : ℕ → Trb} {actions : List Action}
    (h : run (step cfg) actions (opened cfg trbs) = some s) : Invariant cfg s :=
  run_invariant step_invariant ⟨opened_placed cfg trbs, opened_streaming cfg trbs⟩ h

/-- The bytes taken by readers and the bytes that still wait are those of the transfers that were
handed on, in their order. -/
theorem read_stream {trbs : ℕ → Trb} (actions : List Action)
    (h : run (step cfg) actions (opened cfg trbs) = some s) :
    s.received.flatten = s.replies.flatMap Reply.taken ++ s.reader.taken ++ unread s :=
  (run_keeps h).streaming.stream

theorem read_stream_twice : ∃ s, run (step twoBuffers) readTwice (opened twoBuffers zeroTrbs) =
    some s ∧ s.replies = [.data [1, 2], .data [3]] ∧
      s.received.flatten = s.replies.flatMap Reply.taken ++ s.reader.taken ++ unread s := by
  obtain ⟨s, hs, hreplies⟩ := (Option.any_eq_true _ _).mp
    (by decide : (run (step twoBuffers) readTwice (opened twoBuffers zeroTrbs)).any (fun s =>
      s.replies = [.data [1, 2], .data [3]]) = true)
  exact ⟨s, hs, of_decide_eq_true hreplies, read_stream readTwice hs⟩

/-- The error counter moves exactly when the ring has gone once round behind a transfer whose
buffer made no room for the one in front of it. -/
theorem rx_error_iff {trbs : ℕ → Trb} (actions : List Action)
    (h : run (step cfg) actions (opened cfg trbs) = some s) :
    s.rxError = 0 ↔ ∀ k ∈ s.lost, s.callbacks ≤ k + cfg.free :=
  (run_keeps h).placed.rotating.refused_iff

theorem rx_error_iff_empty : ∃ s, run (step twoBuffers) emptyFirst (opened twoBuffers zeroTrbs) =
    some s ∧ s.lost = [0] ∧ s.callbacks = 3 ∧
      (s.rxError = 0 ↔ ∀ k ∈ s.lost, s.callbacks ≤ k + twoBuffers.free) := by
  obtain ⟨s, hs, hstate⟩ := (Option.any_eq_true _ _).mp
    (by decide : (run (step twoBuffers) emptyFirst (opened twoBuffers zeroTrbs)).any (fun s =>
      s.lost = [0] ∧ s.callbacks = 3) = true)
  obtain ⟨hlost, hcallbacks⟩ := of_decide_eq_true hstate
  exact ⟨s, hs, hlost, hcallbacks, rx_error_iff emptyFirst hs⟩

/-! ### Behind an error -/

/-- The buffers stay where they are, and nothing is handed on. -/
structure Quiet (s t : Node) : Prop where
  pool : pool t = pool s
  received : t.received = s.received
  enabled : t.enabled = s.enabled

theorem takeBuf_quiet (s : Node) (count : ℕ) : Quiet s (takeBuf s count) := by
  unfold takeBuf
  split <;> exact ⟨rfl, rfl, rfl⟩

theorem consume_quiet (s : Node) (buf : UciBuf) (toCopy : ℕ) :
    Quiet s (consume s buf toCopy) := by
  unfold consume
  split <;> exact ⟨rfl, rfl, rfl⟩

/-- Whatever is not a callback, the end of a read or the removal of the node. -/
theorem step_quiet {a : Action} (hstep : step cfg s a = some t)
    (hcb : ∀ notConn bytesXferd allocated refusal,
      a ≠ .dlXferCb notConn bytesXferd allocated refusal)
    (hfinish : ∀ refusal, a ≠ .readFinish refusal) (hremove : a ≠ .remove) : Quiet s t := by
  cases a with
  | dma nrTrb data =>
    obtain ⟨-, hsome⟩ := Option.ite_none_right_eq_some.mp hstep
    obtain rfl := Option.some.inj hsome
    exact ⟨rfl, rfl, rfl⟩
  | dlXferCb notConn bytesXferd allocated refusal => exact absurd rfl (hcb _ _ _ _)
  | readStart count nonblock =>
    obtain ⟨-, hsome⟩ := Option.ite_none_left_eq_some.mp hstep
    unfold readStart at hsome
    split at hsome
    · obtain rfl := Option.some.inj hsome
      split_ifs
      · exact ⟨rfl, rfl, rfl⟩
      · exact ⟨rfl, rfl, rfl⟩
      · exact ⟨rfl, rfl, rfl⟩
      · exact ⟨rfl, rfl, rfl⟩
      · exact takeBuf_quiet s count
    · cases hsome
  | wake =>
    change wake s = some t at hstep
    unfold wake at hstep
    split at hstep
    · split_ifs at hstep
      · obtain rfl := Option.some.inj hstep
        exact ⟨rfl, rfl, rfl⟩
      · obtain rfl := Option.some.inj hstep
        exact takeBuf_quiet s _
    · cases hstep
  | interrupt =>
    change interrupt s = some t at hstep
    unfold interrupt at hstep
    split at hstep
    · obtain rfl := Option.some.inj hstep
      exact ⟨rfl, rfl, rfl⟩
    · cases hstep
  | copyToUser left =>
    change copyToUser s left = some t at hstep
    unfold copyToUser at hstep
    split at hstep
    · obtain ⟨-, hsome⟩ := Option.ite_none_left_eq_some.mp hstep
      obtain rfl := Option.some.inj hsome
      split
      · exact ⟨rfl, rfl, rfl⟩
      · exact consume_quiet s _ _
    · cases hstep
  | readFinish refusal => exact absurd rfl (hfinish refusal)
  | openNode =>
    obtain ⟨-, hsome⟩ := Option.ite_none_left_eq_some.mp hstep
    obtain rfl := Option.some.inj hsome
    unfold openNode
    split <;> exact ⟨rfl, rfl, rfl⟩
  | release =>
    obtain ⟨-, hsome⟩ := Option.ite_none_right_eq_some.mp hstep
    obtain rfl := Option.some.inj hsome
    exact ⟨rfl, rfl, rfl⟩
  | remove => exact absurd rfl hremove

/-- A read that ends changes the pool only. -/
theorem readFinish_counts {refusal : Option ℤ} (hstep : readFinish cfg s refusal = some t) :
    t.rxError = s.rxError ∧ t.received = s.received ∧ t.callbacks = s.callbacks ∧
      t.enabled = s.enabled := by
  unfold readFinish at hstep
  split at hstep
  · rename_i bytes nrTrb _ _
    obtain rfl := Option.some.inj hstep
    obtain ⟨ring, recycled, lost, heq⟩ := recycle_frame cfg
      { s with curBuf := none, order := s.order.tail } nrTrb (s.order.headD 0) refusal
    unfold giveBack
    split
    · rw [heq]
      exact ⟨rfl, rfl, rfl, rfl⟩
    · exact ⟨rfl, rfl, rfl, rfl⟩
  · obtain rfl := Option.some.inj hstep
    exact ⟨rfl, rfl, rfl, rfl⟩
  · cases hstep

/-- Behind an error every callback counts one more. -/
theorem callback_broken {notConn : Bool} {bytesXferd : ℕ} {allocated : Bool} {refusal : Option ℤ}
    (h : Placed cfg s) (hbroken : s.rxError ≠ 0)
    (hstep : dlXferCb cfg s notConn bytesXferd allocated refusal = some t) :
    t.rxError = s.rxError + 1 ∧ t.received = s.received := by
  cases callback_cases hstep with
  | refused hring hne => exact ⟨rfl, rfl⟩
  | dropped hring _ => exact absurd h.position (h.rotating.stays_broken hring hbroken)
  | copied hring _ _ => exact absurd h.position (h.rotating.stays_broken hring hbroken)
  | passed hring _ _ => exact absurd h.position (h.rotating.stays_broken hring hbroken)

theorem step_broken {a : Action} (h : Invariant cfg s) (hbroken : s.rxError ≠ 0)
    (hstep : step cfg s a = some t) : t.received = s.received ∧ t.rxError ≠ 0 := by
  by_cases hquiet : (∀ notConn bytesXferd allocated refusal,
      a ≠ .dlXferCb notConn bytesXferd allocated refusal) ∧
        (∀ refusal, a ≠ .readFinish refusal) ∧ a ≠ .remove
  · obtain ⟨hpool, hreceived, -⟩ := step_quiet hstep hquiet.1 hquiet.2.1 hquiet.2.2
    have herror : t.rxError = s.rxError := congrArg Pool.refused hpool
    exact ⟨hreceived, herror ▸ hbroken⟩
  · cases a with
    | dlXferCb notConn bytesXferd allocated refusal =>
      obtain ⟨-, hsome⟩ := Option.ite_none_left_eq_some.mp hstep
      obtain ⟨herror, hsame⟩ := callback_broken h.placed hbroken hsome
      exact ⟨hsame, by omega⟩
    | readFinish refusal =>
      obtain ⟨herror, hsame, -⟩ := readFinish_counts hstep
      exact ⟨hsame, herror ▸ hbroken⟩
    | remove =>
      obtain ⟨-, hsome⟩ := Option.ite_none_right_eq_some.mp hstep
      obtain rfl := Option.some.inj hsome
      exact ⟨rfl, hbroken⟩
    | _ => exact absurd ⟨nofun, nofun, nofun⟩ hquiet

/-- A node with an error never hands on a transfer again, whatever happens, and keeps its error. -/
theorem dead_behind_error {trbs : ℕ → Trb} (actions later : List Action)
    (h : run (step cfg) actions (opened cfg trbs) = some s) (hbroken : s.rxError ≠ 0)
    (hlater : run (step cfg) later s = some t) : t.received = s.received ∧ t.rxError ≠ 0 := by
  have hkeeps : ∀ u a v, (Invariant cfg u ∧ u.received = s.received ∧ u.rxError ≠ 0) →
      step cfg u a = some v → Invariant cfg v ∧ v.received = s.received ∧ v.rxError ≠ 0 := by
    rintro u a v ⟨hinv, hreceived, hne⟩ hstep
    obtain ⟨hsame, herror⟩ := step_broken hinv hne hstep
    exact ⟨step_invariant u a v hinv hstep, hsame.trans hreceived, herror⟩
  exact (run_invariant hkeeps ⟨run_keeps h, rfl, hbroken⟩ hlater).2

theorem dead_behind_error_empty : ∃ s t,
    run (step twoBuffers) emptyFirst (opened twoBuffers zeroTrbs) = some s ∧
      run (step twoBuffers) [.readStart 4 false] s = some t ∧
      t.replies.getLast? = some (.error (-eInval)) ∧ t.received = s.received := by
  obtain ⟨s, hs, hstate⟩ := (Option.any_eq_true _ _).mp
    (by decide : (run (step twoBuffers) emptyFirst (opened twoBuffers zeroTrbs)).any (fun s =>
      s.rxError ≠ 0 ∧ (run (step twoBuffers) [.readStart 4 false] s).any (fun t =>
        t.replies.getLast? = some (.error (-eInval)))) = true)
  obtain ⟨hbroken, hlater⟩ := of_decide_eq_true hstate
  obtain ⟨t, ht, hreply⟩ := (Option.any_eq_true _ _).mp hlater
  exact ⟨s, t, hs, ht, of_decide_eq_true hreply,
    (dead_behind_error emptyFirst [.readStart 4 false] hs hbroken ht).1⟩

/-! ### Runs without losses -/

/-- Every transfer has a length that fits, every buffer is taken back, and the node stays. -/
def Clean (cfg : Config) : Action → Prop
  | .dlXferCb notConn bytesXferd _ refusal => ¬ Dropped cfg notConn bytesXferd ∧ refusal = none
  | .readFinish refusal => refusal = none
  | .remove => False
  | _ => True

instance (cfg : Config) : DecidablePred (Clean cfg)
  | .dlXferCb .. => inferInstanceAs (Decidable (_ ∧ _))
  | .readFinish _ => inferInstanceAs (Decidable (_ = _))
  | .remove => inferInstanceAs (Decidable False)
  | .dma .. | .readStart .. | .wake | .interrupt | .copyToUser _ | .openNode | .release =>
    inferInstanceAs (Decidable True)

/-- The ring has room for a buffer in hand. -/
theorem recycle_none {nrTrb k : ℕ} (hslot : nrTrb = k % cfg.nrTrbs)
    (h : ({ pool s with waiting := k :: s.order } : Pool).Rotating cfg.free) :
    (recycle cfg s nrTrb k none).1.lost = s.lost := by
  have hroom := h.room
  rw [List.length_cons] at hroom
  rcases @recycle_cases cfg s nrTrb k none hslot with ⟨-, -, heq⟩ | ⟨hfull, -⟩
  · rw [heq]
  · have hspace : s.ring.length + (s.order.length + 1) ≤ cfg.free := hroom
    rcases hfull with hne | hfull
    · exact absurd rfl hne
    · omega

/-- Nothing is lost, and every callback of a channel that does not copy hands its transfer on. -/
structure Whole (cfg : Config) (s : Node) : Prop where
  lost : s.lost = []
  enabled : s.enabled = true
  received : cfg.copies = false → s.received.length = s.callbacks

theorem no_error (h : Placed cfg s) (hlost : s.lost = []) : s.rxError = 0 := by
  refine h.rotating.refused_iff.mpr fun k hk => ?_
  have hmem : k ∈ s.lost := hk
  rw [hlost] at hmem
  cases hmem

theorem callback_whole {notConn : Bool} {bytesXferd : ℕ} {allocated : Bool} (h : Placed cfg s)
    (hwhole : Whole cfg s) (hkept : ¬ Dropped cfg notConn bytesXferd)
    (hstep : dlXferCb cfg s notConn bytesXferd allocated none = some t) : Whole cfg t := by
  have hplaced := callback_placed h hstep
  cases callback_cases hstep with
  | refused hring hne => exact absurd (no_error hplaced hwhole.lost) (Nat.succ_ne_zero _)
  | dropped hring hdropped => exact absurd hdropped hkept
  | copied hring hkept hcopies =>
    have hlost := recycle_none (s := setLen (advance cfg (popBuf s _)) s.nrTrb bytesXferd)
      h.position (copy_in_hand h hring hcopies)
    obtain ⟨_, _, _, heq⟩ := recycle_frame cfg
      (setLen (advance cfg (popBuf s _)) s.nrTrb bytesXferd) s.nrTrb s.accepted none
    have hfalse : cfg.copies ≠ false := by simp [hcopies]
    rw [heq] at hlost
    rw [addCopy, heq]
    split
    · exact ⟨hlost.trans hwhole.lost, hwhole.enabled, fun h => absurd h hfalse⟩
    · exact ⟨hlost.trans hwhole.lost, hwhole.enabled, fun h => absurd h hfalse⟩
  | passed hring hkept hcopies =>
    refine ⟨hwhole.lost, hwhole.enabled, fun _ => ?_⟩
    have hlength := hwhole.received hcopies
    change (s.received ++ _).length = s.callbacks + 1
    rw [List.length_append, hlength]
    rfl

theorem readFinish_whole (h : Placed cfg s) (hwhole : Whole cfg s)
    (hstep : readFinish cfg s none = some t) : Whole cfg t := by
  obtain ⟨-, hreceived, hcallbacks, henabled⟩ := readFinish_counts hstep
  have hsame : cfg.copies = false → t.received.length = t.callbacks := by
    rw [hreceived, hcallbacks]
    exact hwhole.received
  refine ⟨?_, henabled.trans hwhole.enabled, hsame⟩
  unfold readFinish at hstep
  split at hstep
  · rename_i bytes nrTrb _ hcur
    obtain rfl := Option.some.inj hstep
    obtain ⟨k, rest, horder, hslot, -⟩ := in_hand h hcur
    have hpool : (⟨s.ring, s.callbacks, s.accepted, k :: rest, s.recycled, s.lost, s.rxError⟩ :
        Pool).Rotating cfg.free := horder ▸ h.rotating
    have hlost := recycle_none (s := { s with curBuf := none, order := rest }) hslot hpool
    rw [horder, List.tail_cons, List.headD_cons, giveBack, if_pos hwhole.enabled]
    exact hlost.trans hwhole.lost
  · obtain rfl := Option.some.inj hstep
    exact hwhole.lost
  · cases hstep

theorem step_whole {a : Action} (h : Invariant cfg s) (hwhole : Whole cfg s) (hclean : Clean cfg a)
    (hstep : step cfg s a = some t) : Whole cfg t := by
  by_cases hquiet : (∀ notConn bytesXferd allocated refusal,
      a ≠ .dlXferCb notConn bytesXferd allocated refusal) ∧
        (∀ refusal, a ≠ .readFinish refusal) ∧ a ≠ .remove
  · obtain ⟨hpool, hreceived, henabled⟩ := step_quiet hstep hquiet.1 hquiet.2.1 hquiet.2.2
    have hlost : t.lost = s.lost := congrArg Pool.lost hpool
    have hcallbacks : t.callbacks = s.callbacks := congrArg Pool.taken hpool
    refine ⟨hlost.trans hwhole.lost, henabled.trans hwhole.enabled, ?_⟩
    rw [hreceived, hcallbacks]
    exact hwhole.received
  · cases a with
    | dlXferCb notConn bytesXferd allocated refusal =>
      obtain ⟨hkept, rfl⟩ := hclean
      obtain ⟨-, hsome⟩ := Option.ite_none_left_eq_some.mp hstep
      exact callback_whole h.placed hwhole hkept hsome
    | readFinish refusal =>
      obtain rfl : refusal = none := hclean
      exact readFinish_whole h.placed hwhole hstep
    | remove => exact hclean.elim
    | _ => exact absurd ⟨nofun, nofun, nofun⟩ hquiet

/-- If every transfer has a length that fits and no buffer is refused, the error counter never
moves, and a channel that does not copy hands on every transfer. -/
theorem nothing_lost {trbs : ℕ → Trb} (actions : List Action)
    (hclean : ∀ a ∈ actions, Clean cfg a)
    (h : run (step cfg) actions (opened cfg trbs) = some s) :
    s.lost = [] ∧ s.rxError = 0 ∧ (cfg.copies = false → s.received.length = s.callbacks) := by
  have hkeeps : ∀ u a v, a ∈ actions → (Invariant cfg u ∧ Whole cfg u) →
      step cfg u a = some v → Invariant cfg v ∧ Whole cfg v := by
    rintro u a v ha ⟨hinv, hwhole⟩ hstep
    exact ⟨step_invariant u a v hinv hstep, step_whole hinv hwhole (hclean a ha) hstep⟩
  have hstart : Invariant cfg (opened cfg trbs) ∧ Whole cfg (opened cfg trbs) :=
    ⟨⟨opened_placed cfg trbs, opened_streaming cfg trbs⟩, ⟨rfl, rfl, fun _ => rfl⟩⟩
  obtain ⟨hinv, hwhole⟩ := run_invariant_mem hkeeps hstart h
  exact ⟨hwhole.lost, no_error hinv.placed hwhole.lost, hwhole.received⟩

theorem nothing_lost_twice : ∃ s, run (step twoBuffers) readTwice (opened twoBuffers zeroTrbs) =
    some s ∧ s.rxError = 0 ∧ s.received.length = s.callbacks := by
  obtain ⟨s, hs⟩ := Option.isSome_iff_exists.mp
    (by decide : (run (step twoBuffers) readTwice (opened twoBuffers zeroTrbs)).isSome = true)
  obtain ⟨-, herror, hreceived⟩ := nothing_lost readTwice (by decide) hs
  exact ⟨s, hs, herror, hreceived rfl⟩

end UciStream
