import Mathlib.Data.Int.Notation
import SbcImageBuild.Foundation.BitFields
import SbcImageBuild.Foundation.ByteStore
import SbcImageBuild.Foundation.Loops

/-!
# QMAP frames

The multiplexing of several network devices over one channel of the modem: the headers that
`add_qhdr` and `add_qhdr_v5` put in front of a packet, and the loop of `rmnet_qmi_rx_handler` that
takes an aggregate of such frames apart.
-/
namespace QmapFrames

open BitFields ByteStore Loops

/-- The data of a socket buffer, and the bytes that lie behind it in memory. -/
structure Skb where
  bytes : Bytes
  slack : Bytes
  deriving DecidableEq

def Skb.at (s : Skb) (i : ℕ) : UInt8 := (s.bytes ++ s.slack).getD i 0

/-- More than there is cannot be pulled. -/
def Skb.pull (s : Skb) (n : ℕ) : Skb :=
  if n ≤ s.bytes.length then { s with bytes := s.bytes.drop n } else s

def muxIdBase : ℕ := 0x81

/-- The fields of `struct rmnet_map_header`. -/
structure MapHeader where
  padLen : ℕ
  nextHdr : Bool
  cdBit : Bool
  muxId : ℕ
  pktLen : ℕ
  deriving DecidableEq

def mapHeader (s : Skb) : MapHeader where
  padLen := field 0 6 (s.at 0).toNat
  nextHdr := field 6 1 (s.at 0).toNat = 1
  cdBit := field 7 1 (s.at 0).toNat = 1
  muxId := (s.at 1).toNat
  pktLen := (s.at 2).toNat * 256 + (s.at 3).toNat

/-- An `int` where C compares it with an unsigned number. -/
def u32OfInt (z : ℤ) : ℕ := (z % 2 ^ 32).toNat

/-- `nets` are the entries of `mpQmapNetDev`, a device by its mtu. `alloc` says whether the memory
for one more packet is there. -/
structure QmapDev where
  qmapMode : ℕ
  qmapVersion : ℕ
  dlMinimumPadding : ℕ
  nets : ℕ → Option ℕ
  alloc : ℕ → Bool
  ackAlloc : Bool
  entries : qmapMode ≤ 8

structure Delivered where
  net : ℕ
  protocol : ℕ
  payload : Bytes
  deriving DecidableEq

/-- The loop's variables: what is left of the aggregate, the chain of packets, and what the
commands of the modem change and are answered with. -/
structure Rx where
  skb : Skb
  chain : List Delivered
  flowControl : ℕ
  acks : List Bytes
  deriving DecidableEq

def commandFlowDisable : ℕ := 1
def commandFlowEnable : ℕ := 2
def commandAck : ℕ := 1

section Receive

variable (d : QmapDev)

def dlMinimumPadding : ℕ := if d.qmapVersion = 9 then d.dlMinimumPadding else 0

/-- The header and its command, sent back with another type. -/
def mapSendAck (skb : Skb) (type : ℕ) : Bytes :=
  let cmdType := UInt8.ofNat ((skb.at 5).toNat / 4 * 4 + type % 4)
  (List.range 20).map fun i => if i = 5 then cmdType else skb.at i

/-- `mux_id` has 8 bits here. -/
def mapDoFlowControl (flowControl muxId : ℕ) (enable : Bool) : Option ℕ :=
  let mux := u32OfInt ((muxId : ℤ) - muxIdBase) % 256
  if d.qmapMode ≤ mux then none
  else
    match d.nets mux with
    | none => none
    | some _ =>
      some (if enable then flowControl ||| 1 <<< mux
        else flowControl &&& (0xffffffff - 1 <<< mux))

def dataMapCommand (r : Rx) : Rx :=
  let command := (r.skb.at 4).toNat
  let done :=
    if command = commandFlowEnable then
      mapDoFlowControl d r.flowControl (mapHeader r.skb).muxId true
    else if command = commandFlowDisable then
      mapDoFlowControl d r.flowControl (mapHeader r.skb).muxId false
    else none
  match done with
  | none => r
  | some flowControl =>
    { r with
      flowControl := flowControl
      acks := if d.ackAlloc then r.acks ++ [mapSendAck r.skb commandAck] else r.acks }

/-- `ETH_P_IP` or `ETH_P_IPV6`. -/
def protocolOf (b : UInt8) : Option ℕ :=
  if b &&& 0xf0 = 0x40 then some 0x0800 else if b &&& 0xf0 = 0x60 then some 0x86DD else none

def hdrSize (h : MapHeader) : ℕ := if h.nextHdr then 8 else 4

/-- The length of the packet without what pads it. Below zero it is a very large number. -/
def skbLen (h : MapHeader) : ℕ := u32OfInt ((h.pktLen : ℤ) - h.padLen - dlMinimumPadding d)

/-- The index of the network device. -/
def mux (r : Rx) : ℕ := u32OfInt (((mapHeader r.skb).muxId : ℤ) - muxIdBase)

/-- How much of the aggregate the frame takes. -/
def frameLen (r : Rx) : ℕ := (mapHeader r.skb).pktLen + hdrSize (mapHeader r.skb)

def payload (r : Rx) : Bytes :=
  ((r.skb.bytes ++ r.skb.slack).drop (hdrSize (mapHeader r.skb))).take (skbLen d (mapHeader r.skb))

/-- One frame. A frame for a device that does not exist is skipped before its length is looked
at. -/
def rxBody (r : Rx) : Outcome Rx :=
  if r.skb.bytes.length ≤ 4 then .leave r
  else if d.qmapMode ≤ mux r then .leave r
  else
    match d.nets (mux r) with
    | none => .again { r with skb := r.skb.pull (frameLen r) }
    | some mtu =>
      if mtu < skbLen d (mapHeader r.skb) then .leave r
      else if r.skb.bytes.length < frameLen r then .leave r
      else if (mapHeader r.skb).cdBit then
        .again { dataMapCommand d r with skb := r.skb.pull (frameLen r) }
      else
        match protocolOf (r.skb.at (hdrSize (mapHeader r.skb))) with
        | none => .leave r
        | some protocol =>
          if d.alloc r.chain.length then
            .again
              { r with
                skb := r.skb.pull (frameLen r)
                chain := r.chain ++ [⟨mux r, protocol, payload d r⟩] }
          else .leave r

end Receive

def rxStart (skb : Skb) (flowControl : ℕ) : Rx := ⟨skb, [], flowControl, []⟩

/-- The packets that reach the network devices, if the handler returns. -/
def qmiRxHandler (d : QmapDev) (rounds : ℕ) (skb : Skb) (flowControl : ℕ) : Option Rx :=
  loop (rxBody d) rounds (rxStart skb flowControl)

def be16 (n : ℕ) : Bytes := [UInt8.ofNat (n / 256), UInt8.ofNat n]

/-- The bytes that fill a packet to a multiple of four, none where there is no room for them. -/
def padding (s : Skb) : ℕ :=
  let pad := s.bytes.length % 4
  if pad = 0 then 0 else if s.slack.length < 4 - pad then 0 else 4 - pad

def Skb.put (s : Skb) (n : ℕ) : Skb := ⟨s.bytes ++ s.slack.take n, s.slack.drop n⟩

def Skb.push (s : Skb) (header : Bytes) : Skb := { s with bytes := header ++ s.bytes }

def addQhdr (s : Skb) (muxId : UInt8) : Skb :=
  let pad := padding s
  let s := s.put pad
  s.push ([UInt8.ofNat pad, muxId] ++ be16 s.bytes.length)

def headerTypeCsumOffload : ℕ := 2

def addQhdrV5 (s : Skb) (muxId : UInt8) : Skb :=
  let pad := padding s
  let len := s.bytes.length + pad
  let s := s.put pad
  s.push ([UInt8.ofNat (pad + 1 <<< 6), muxId] ++ be16 len ++
    [UInt8.ofNat (headerTypeCsumOffload <<< 1), 0, 0, 0])

def ethHlen : ℕ := 14

/-- What a network device hands on of a packet, `ether` for one with Ethernet headers. -/
def rmnetVndStartXmit (qmapVersion : ℕ) (ether : Bool) (muxId : UInt8) (s : Skb) : Option Skb :=
  if ether ∧ s.bytes.length < ethHlen then none
  else
    let s := if ether then s.pull ethHlen else s
    if qmapVersion = 5 then some (addQhdr s muxId)
    else if qmapVersion = 9 then some (addQhdrV5 s muxId)
    else none

/-! ### The loop -/

section Loop

variable {d : QmapDev} {r t : Rx}

/-- The identifier of a network device fits into its byte. -/
theorem muxId_toNat {i : ℕ} (hi : i < d.qmapMode) :
    (UInt8.ofNat (muxIdBase + i)).toNat = muxIdBase + i := by
  have hentries := d.entries
  rw [UInt8.toNat_ofNat', Nat.mod_eq_of_lt]
  unfold muxIdBase
  omega

theorem mux_of_muxId {i : ℕ} (hi : i < d.qmapMode)
    (hid : (mapHeader r.skb).muxId = muxIdBase + i) : mux r = i := by
  have hentries := d.entries
  rw [mux, hid]
  unfold u32OfInt muxIdBase
  omega

theorem hdrSize_ge (h : MapHeader) : 4 ≤ hdrSize h := by
  unfold hdrSize
  split <;> omega

/-- What one further round has seen and done. -/
theorem rxBody_again (h : rxBody d r = .again t) :
    mux r < d.qmapMode ∧
      ((d.nets (mux r) = none ∧ t = { r with skb := r.skb.pull (frameLen r) }) ∨
        ∃ mtu, d.nets (mux r) = some mtu ∧ skbLen d (mapHeader r.skb) ≤ mtu ∧
          frameLen r ≤ r.skb.bytes.length ∧
          (t = { dataMapCommand d r with skb := r.skb.pull (frameLen r) } ∨
            ∃ protocol, protocolOf (r.skb.at (hdrSize (mapHeader r.skb))) = some protocol ∧ t =
              { r with
                skb := r.skb.pull (frameLen r)
                chain := r.chain ++ [⟨mux r, protocol, payload d r⟩] })) := by
  unfold rxBody at h
  split at h
  · cases h
  split at h
  · cases h
  rename_i hmux
  refine ⟨Nat.lt_of_not_le hmux, ?_⟩
  split at h
  · rename_i hnet
    cases h
    exact .inl ⟨hnet, rfl⟩
  rename_i mtu hnet
  refine .inr ⟨mtu, hnet, ?_⟩
  split at h
  · cases h
  rename_i hmtu
  split at h
  · cases h
  rename_i hfits
  refine ⟨Nat.le_of_not_lt hmtu, Nat.le_of_not_lt hfits, ?_⟩
  split at h
  · cases h
    exact .inl rfl
  split at h
  · cases h
  · rename_i protocol hprotocol
    split at h
    · cases h
      exact .inr ⟨protocol, hprotocol, rfl⟩
    · cases h

theorem pull_of_le {s : Skb} {n : ℕ} (h : n ≤ s.bytes.length) :
    s.pull n = { s with bytes := s.bytes.drop n } := if_pos h

theorem pull_of_lt {s : Skb} {n : ℕ} (h : s.bytes.length < n) : s.pull n = s :=
  if_neg (Nat.not_le_of_lt h)

/-- A frame with room takes at least its header away. -/
theorem pull_lt (hfits : frameLen r ≤ r.skb.bytes.length) :
    (r.skb.pull (frameLen r)).bytes.length < r.skb.bytes.length := by
  have hframe : 4 ≤ frameLen r := Nat.le_trans (hdrSize_ge _) (Nat.le_add_left _ _)
  rw [pull_of_le hfits, List.length_drop]
  omega

/-- A frame that no device takes and that claims more than there is: it is never left behind. -/
theorem not_ends_of_missing (hlen : 4 < r.skb.bytes.length) (hmux : mux r < d.qmapMode)
    (hnet : d.nets (mux r) = none) (hlong : r.skb.bytes.length < frameLen r) :
    ¬ Ends (rxBody d) r := by
  refine not_ends_of_trap (I := (· = r)) ?_ rfl
  rintro s rfl
  refine ⟨s, ?_, rfl⟩
  rw [rxBody, if_neg (Nat.not_le_of_lt hlen), if_neg (Nat.not_le_of_lt hmux), hnet]
  dsimp only
  rw [pull_of_lt hlong]

/-- Five bytes that name the device `i` and claim the longest packet. -/
def longClaim (i : ℕ) : Skb := ⟨[0, UInt8.ofNat (muxIdBase + i), 255, 255, 0], []⟩

/-- The handler returns on every input exactly if all the devices it may look up are there. -/
theorem rx_ends_iff :
    (∀ skb flowControl, Ends (rxBody d) (rxStart skb flowControl)) ↔
      ∀ i < d.qmapMode, (d.nets i).isSome := by
  constructor
  · intro hends i hi
    by_contra hnone
    have hmux : mux (rxStart (longClaim i) 0) = i := mux_of_muxId hi (muxId_toNat hi)
    have hnext : (mapHeader (longClaim i)).nextHdr = false := by
      have hflags : (longClaim i).at 0 = 0 := rfl
      simp only [mapHeader, hflags]
      decide
    have hlong : frameLen (rxStart (longClaim i) 0) = 255 * 256 + 255 + 4 := by
      change (mapHeader (longClaim i)).pktLen + hdrSize (mapHeader (longClaim i)) = _
      rw [hdrSize, hnext]
      rfl
    refine not_ends_of_missing (r := rxStart (longClaim i) 0) (by decide : 4 < 5) ?_ ?_ ?_
      (hends _ 0)
    · rw [hmux]
      exact hi
    · rw [hmux]
      simpa using hnone
    · rw [hlong]
      exact (by decide : 5 < 65539)
  · intro hall skb flowControl
    refine ends_of_measure (I := fun _ => True) (fun r => r.skb.bytes.length) ?_ trivial
    intro r t _ hbody
    obtain ⟨hmux, ⟨hnet, -⟩ | ⟨mtu, -, -, hfits, rfl | ⟨protocol, -, rfl⟩⟩⟩ :=
      rxBody_again hbody
    · have := hall _ hmux
      rw [hnet] at this
      contradiction
    · exact ⟨trivial, pull_lt hfits⟩
    · exact ⟨trivial, pull_lt hfits⟩

end Loop

/-! ### What is delivered of any input -/

section Delivery

/-- The pieces lie in the bytes one behind another. -/
inductive Pieces : Bytes → List Bytes → Prop
  | nil (seen : Bytes) : Pieces seen []
  | snoc {seen : Bytes} {pieces : List Bytes} (header piece fill : Bytes) :
      Pieces seen pieces → Pieces (seen ++ (header ++ piece ++ fill)) (pieces ++ [piece])

theorem Pieces.append {seen : Bytes} {pieces : List Bytes} (h : Pieces seen pieces)
    (more : Bytes) : Pieces (seen ++ more) pieces := by
  cases h with
  | nil => exact .nil _
  | snoc header piece fill h =>
    have hmore : Pieces _ _ := .snoc header piece (fill ++ more) h
    simpa only [List.append_assoc] using hmore

variable {d : QmapDev} {whole : Bytes} {flowControl : ℕ} {r t : Rx}

/-- What one may rely on for a delivered packet. -/
structure Acceptable (d : QmapDev) (p : Delivered) : Prop where
  net : p.net < d.qmapMode
  mtu : ∃ mtu, d.nets p.net = some mtu ∧ p.payload.length ≤ mtu
  protocol : ∀ b ∈ p.payload.head?, protocolOf b = some p.protocol

structure Faithful (d : QmapDev) (whole : Bytes) (flowControl : ℕ) (r : Rx) : Prop where
  cut : ∃ seen, whole = seen ++ r.skb.bytes ∧ Pieces seen (r.chain.map Delivered.payload)
  packets : ∀ p ∈ r.chain, Acceptable d p
  flow : ∀ i < 32, ¬ (i < d.qmapMode ∧ (d.nets i).isSome) →
    r.flowControl.testBit i = flowControl.testBit i

theorem pull_split (s : Skb) (n : ℕ) : ∃ taken, s.bytes = taken ++ (s.pull n).bytes := by
  unfold Skb.pull
  split
  · exact ⟨s.bytes.take n, (List.take_append_drop n s.bytes).symm⟩
  · exact ⟨[], rfl⟩

/-- The mtus leave room for the numbers a length below zero turns into. -/
def SaneMtu (d : QmapDev) : Prop :=
  ∀ i mtu, d.nets i = some mtu → mtu + 63 + d.dlMinimumPadding < 2 ^ 32

theorem skbLen_eq {mtu : ℕ} (h : MapHeader) (hpad : h.padLen < 64) (hpkt : h.pktLen < 65536)
    (hmtu : mtu + 63 + d.dlMinimumPadding < 2 ^ 32) (hle : skbLen d h ≤ mtu) :
    skbLen d h + h.padLen + dlMinimumPadding d = h.pktLen := by
  have hdl : dlMinimumPadding d ≤ d.dlMinimumPadding := by
    unfold dlMinimumPadding
    split <;> omega
  unfold skbLen u32OfInt at *
  omega

theorem padLen_lt (s : Skb) : (mapHeader s).padLen < 64 := field_lt 0 6 _

theorem pktLen_lt (s : Skb) : (mapHeader s).pktLen < 65536 := by
  have h2 := (s.at 2).toNat_lt
  have h3 := (s.at 3).toNat_lt
  change (s.at 2).toNat * 256 + (s.at 3).toNat < 65536
  omega

/-- A frame that fits is its header, the packet and what fills it. -/
theorem frame_split (hfits : frameLen r ≤ r.skb.bytes.length)
    (hlen : skbLen d (mapHeader r.skb) ≤ (mapHeader r.skb).pktLen) :
    ∃ header fill, header.length = hdrSize (mapHeader r.skb) ∧
      r.skb.bytes = header ++ payload d r ++ fill ++ (r.skb.pull (frameLen r)).bytes := by
  have hhdr : hdrSize (mapHeader r.skb) + (mapHeader r.skb).pktLen = frameLen r :=
    Nat.add_comm _ _
  refine ⟨r.skb.bytes.take (hdrSize (mapHeader r.skb)),
    (r.skb.bytes.drop (hdrSize (mapHeader r.skb) + skbLen d (mapHeader r.skb))).take
      ((mapHeader r.skb).pktLen - skbLen d (mapHeader r.skb)), ?_, ?_⟩
  · rw [List.length_take]
    omega
  · have hpayload : payload d r =
        (r.skb.bytes.drop (hdrSize (mapHeader r.skb))).take (skbLen d (mapHeader r.skb)) := by
      rw [payload, List.drop_append_of_le_length (by omega), List.take_append_of_le_length]
      rw [List.length_drop]
      omega
    have hrest : (r.skb.pull (frameLen r)).bytes =
        ((r.skb.bytes.drop (hdrSize (mapHeader r.skb) + skbLen d (mapHeader r.skb))).drop
          ((mapHeader r.skb).pktLen - skbLen d (mapHeader r.skb))) := by
      have hsum : hdrSize (mapHeader r.skb) + skbLen d (mapHeader r.skb) +
          ((mapHeader r.skb).pktLen - skbLen d (mapHeader r.skb)) = frameLen r := by omega
      rw [pull_of_le hfits, List.drop_drop, hsum]
    rw [hrest, List.append_assoc, List.take_append_drop, hpayload, ← List.drop_drop,
      List.append_assoc, List.take_append_drop, List.take_append_drop]

theorem mapDoFlowControl_testBit {flow flow' muxId i : ℕ} {enable : Bool}
    (h : mapDoFlowControl d flow muxId enable = some flow') (hi : i < 32)
    (hother : ¬ (i < d.qmapMode ∧ (d.nets i).isSome)) : flow'.testBit i = flow.testBit i := by
  simp only [mapDoFlowControl] at h
  split at h
  · cases h
  rename_i hmux
  split at h
  · cases h
  rename_i mtu hnet
  cases h
  have hentries := d.entries
  have hne : u32OfInt ((muxId : ℤ) - muxIdBase) % 256 ≠ i := by
    rintro rfl
    exact hother ⟨Nat.lt_of_not_le hmux, by rw [hnet]; rfl⟩
  generalize u32OfInt ((muxId : ℤ) - muxIdBase) % 256 = m at *
  have hbit : (1 <<< m).testBit i = false := by
    rw [Nat.one_shiftLeft, Nat.testBit_two_pow]
    exact decide_eq_false hne
  cases enable with
  | true =>
    rw [if_pos rfl, Nat.testBit_or, hbit, Bool.or_false]
  | false =>
    have hlt : 1 <<< m < 2 ^ 32 := by
      rw [Nat.one_shiftLeft]
      exact Nat.pow_lt_pow_right (by decide) (by omega)
    have hmask : (0xffffffff - 1 <<< m).testBit i = true := by
      have hsub : 0xffffffff - 1 <<< m = 2 ^ 32 - (1 <<< m + 1) := by omega
      rw [hsub, Nat.testBit_two_pow_sub_succ hlt, hbit]
      simpa using hi
    rw [if_neg (by decide), Nat.testBit_and, hmask, Bool.and_true]

theorem dataMapCommand_chain (r : Rx) : (dataMapCommand d r).chain = r.chain := by
  simp only [dataMapCommand]
  split <;> rfl

theorem dataMapCommand_testBit {i : ℕ} (r : Rx) (hi : i < 32)
    (hother : ¬ (i < d.qmapMode ∧ (d.nets i).isSome)) :
    (dataMapCommand d r).flowControl.testBit i = r.flowControl.testBit i := by
  simp only [dataMapCommand]
  split
  · rfl
  · rename_i flowControl hdone
    split at hdone
    · exact mapDoFlowControl_testBit hdone hi hother
    split at hdone
    · exact mapDoFlowControl_testBit hdone hi hother
    · cases hdone

/-- The first byte of a packet is the one its protocol was read from. -/
theorem payload_head {b : UInt8} (hb : b ∈ (payload d r).head?) :
    r.skb.at (hdrSize (mapHeader r.skb)) = b := by
  rw [payload, List.head?_take] at hb
  split at hb
  · cases hb
  · rw [List.head?_drop, Option.mem_def] at hb
    rw [Skb.at, List.getD_eq_getElem?_getD, hb]
    rfl

theorem faithful_again (hmtu : SaneMtu d) (h : Faithful d whole flowControl r)
    (hbody : rxBody d r = .again t) : Faithful d whole flowControl t := by
  obtain ⟨seen, hwhole, hpieces⟩ := h.cut
  obtain ⟨hmux, ⟨-, rfl⟩ | ⟨mtu, hnet, hlen, hfits, rfl | ⟨protocol, hprotocol, rfl⟩⟩⟩ :=
    rxBody_again hbody
  · obtain ⟨taken, htaken⟩ := pull_split r.skb (frameLen r)
    refine { h with cut := ⟨seen ++ taken, ?_, hpieces.append taken⟩ }
    rw [hwhole, htaken, List.append_assoc]
  · obtain ⟨taken, htaken⟩ := pull_split r.skb (frameLen r)
    refine ⟨⟨seen ++ taken, ?_, ?_⟩, ?_, ?_⟩
    · rw [hwhole, htaken, List.append_assoc]
    · rw [dataMapCommand_chain]
      exact hpieces.append taken
    · rw [dataMapCommand_chain]
      exact h.packets
    · intro i hi hother
      exact (dataMapCommand_testBit r hi hother).trans (h.flow i hi hother)
  · have hpkt : skbLen d (mapHeader r.skb) + (mapHeader r.skb).padLen + dlMinimumPadding d =
        (mapHeader r.skb).pktLen :=
      skbLen_eq _ (padLen_lt _) (pktLen_lt _) (hmtu _ _ hnet) hlen
    obtain ⟨header, fill, -, hbytes⟩ := frame_split (d := d) hfits (by omega)
    refine ⟨⟨seen ++ (header ++ payload d r ++ fill), ?_, ?_⟩, ?_, h.flow⟩
    · rw [hwhole, hbytes]
      simp only [List.append_assoc]
    · rw [List.map_append]
      exact .snoc header _ fill hpieces
    · intro p hp
      rcases List.mem_append.mp hp with hp | hp
      · exact h.packets p hp
      · obtain rfl := List.mem_singleton.mp hp
        have hshort : (payload d r).length ≤ skbLen d (mapHeader r.skb) := List.length_take_le _ _
        refine ⟨hmux, ⟨mtu, hnet, Nat.le_trans hshort hlen⟩, fun b hb => ?_⟩
        rw [← payload_head hb]
        exact hprotocol

theorem rxBody_leave (h : rxBody d r = .leave t) : t = r := by
  unfold rxBody at h
  repeat' split at h
  all_goals cases h
  all_goals rfl

/-- Whatever the modem sends, what the handler delivers are pieces of it one behind another, each
for a device that is there and no longer than its mtu. -/
theorem delivered_from_input {rounds : ℕ} {skb : Skb} (hmtu : SaneMtu d)
    (h : qmiRxHandler d rounds skb flowControl = some t) :
    Faithful d skb.bytes flowControl t := by
  refine loop_invariant (I := Faithful d skb.bytes flowControl)
    (fun r u hr => faithful_again hmtu hr) ?_ ?_ h
  · intro r u hr hbody
    rw [rxBody_leave hbody]
    exact hr
  · exact ⟨⟨[], rfl, .nil _⟩, fun p hp => absurd hp List.not_mem_nil, fun _ _ _ => rfl⟩

/-- Two network devices with the usual mtu. -/
def twoNets : QmapDev where
  qmapMode := 2
  qmapVersion := 5
  dlMinimumPadding := 0
  nets i := if i < 2 then some 1500 else none
  alloc _ := true
  ackAlloc := true
  entries := by decide

/-- A packet for the second device, a flow control command for the first, and a frame cut short. -/
def mixed : Skb :=
  ⟨[1, 0x82, 0, 4, 0x45, 7, 7, 0] ++ ([0x80, 0x81, 0, 16, 2] ++ zeros 15) ++
    [0, 0x81, 0, 9, 0x45], []⟩

theorem delivered_from_input_mixed :
    Faithful twoNets mixed.bytes 0 ⟨⟨[0, 0x81, 0, 9, 0x45], []⟩, [⟨1, 0x0800, [0x45, 7, 7]⟩], 1,
      [[0x80, 0x81, 0, 16, 2, 1] ++ zeros 14]⟩ := by
  have hmtu : SaneMtu twoNets := by
    intro i mtu hnet
    simp only [twoNets] at hnet
    split at hnet
    · cases hnet
      decide
    · cases hnet
  have hrun : qmiRxHandler twoNets 3 mixed 0 = some ⟨⟨[0, 0x81, 0, 9, 0x45], []⟩,
      [⟨1, 0x0800, [0x45, 7, 7]⟩], 1, [[0x80, 0x81, 0, 16, 2, 1] ++ zeros 14]⟩ := by decide
  exact delivered_from_input hmtu hrun

end Delivery

/-! ### Frames are taken apart as they were put together -/

section RoundTrip

variable {d : QmapDev}

/-- A packet that the network device `net` may send and receive. -/
structure Fits (d : QmapDev) (net : ℕ) (packet : Bytes) : Prop where
  known : net < d.qmapMode
  mtu : ∃ mtu, d.nets net = some mtu ∧ packet.length ≤ mtu
  size : packet.length + 3 < 65536
  protocol : (protocolOf (packet.getD 0 0)).isSome

def received (net : ℕ) (packet : Bytes) : Delivered :=
  ⟨net, (protocolOf (packet.getD 0 0)).getD 0, packet⟩

/-- The bytes of a frame, `ext` what its header has behind the first four. -/
def frameBytes (flags muxId : UInt8) (ext packet fill : Bytes) : Bytes :=
  [flags, muxId] ++ be16 (packet.length + fill.length) ++ ext ++ packet ++ fill

theorem be16_length (n : ℕ) : (be16 n).length = 2 := rfl

theorem be16_toNat {n : ℕ} (h : n < 65536) :
    (UInt8.ofNat (n / 256)).toNat * 256 + (UInt8.ofNat n).toNat = n := by
  rw [UInt8.toNat_ofNat', UInt8.toNat_ofNat']
  omega

theorem Fits.packet_ne_nil {net : ℕ} {packet : Bytes} (h : Fits d net packet) : packet ≠ [] := by
  rintro rfl
  exact absurd h.protocol (by decide)

/-- The header of a frame, as its receiver reads it. -/
theorem mapHeader_frame {flags muxId : UInt8} {ext packet fill rest slack : Bytes}
    (hpad : field 0 6 flags.toNat = fill.length) (hcd : field 7 1 flags.toNat = 0)
    (hsize : packet.length + fill.length < 65536) :
    mapHeader ⟨frameBytes flags muxId ext packet fill ++ rest, slack⟩ =
      ⟨fill.length, field 6 1 flags.toNat = 1, false, muxId.toNat,
        packet.length + fill.length⟩ := by
  set s : Skb := ⟨frameBytes flags muxId ext packet fill ++ rest, slack⟩
  have hflags : s.at 0 = flags := rfl
  have hmuxId : s.at 1 = muxId := rfl
  have hhigh : s.at 2 = UInt8.ofNat ((packet.length + fill.length) / 256) := rfl
  have hlow : s.at 3 = UInt8.ofNat (packet.length + fill.length) := rfl
  rw [mapHeader, hflags, hmuxId, hhigh, hlow, hpad, hcd, be16_toNat hsize]
  rfl

theorem frameBytes_length (flags muxId : UInt8) (ext packet fill : Bytes) :
    (frameBytes flags muxId ext packet fill).length =
      4 + ext.length + packet.length + fill.length := by
  simp only [frameBytes, List.length_append, be16_length, List.length_cons, List.length_nil]

/-- Behind its header stands the packet of a frame. -/
theorem drop_frameHeader (flags muxId : UInt8) (ext packet fill rest : Bytes) :
    (frameBytes flags muxId ext packet fill ++ rest).drop (4 + ext.length) =
      packet ++ (fill ++ rest) := by
  have hfront : ([flags, muxId] ++ be16 (packet.length + fill.length) ++ ext).length =
      4 + ext.length := by
    simp only [List.length_append, be16_length, List.length_cons, List.length_nil]
  rw [frameBytes, List.append_assoc, List.append_assoc, List.drop_left' hfront]

/-- One frame in front of the rest. -/
theorem rxBody_frame {flags muxId : UInt8} {ext packet fill rest slack : Bytes} {net : ℕ}
    {chain : List Delivered} {flowControl : ℕ} {acks : List Bytes}
    (hpad : field 0 6 flags.toNat = fill.length) (hcd : field 7 1 flags.toNat = 0)
    (hext : ext.length = if field 6 1 flags.toNat = 1 then 4 else 0)
    (hid : muxId.toNat = muxIdBase + net) (hfill : fill.length ≤ 3) (hfits : Fits d net packet)
    (hdl : dlMinimumPadding d = 0) (halloc : d.alloc chain.length) :
    rxBody d ⟨⟨frameBytes flags muxId ext packet fill ++ rest, slack⟩, chain, flowControl, acks⟩ =
      .again ⟨⟨rest, slack⟩, chain ++ [received net packet], flowControl, acks⟩ := by
  obtain ⟨mtu, hnet, hmtu⟩ := hfits.mtu
  obtain ⟨protocol, hprotocol⟩ := Option.isSome_iff_exists.mp hfits.protocol
  have hsize := hfits.size
  set r : Rx :=
    ⟨⟨frameBytes flags muxId ext packet fill ++ rest, slack⟩, chain, flowControl, acks⟩ with hr
  have hheader : mapHeader r.skb = ⟨fill.length, field 6 1 flags.toNat = 1, false,
      muxIdBase + net, packet.length + fill.length⟩ := by
    rw [← hid]
    exact mapHeader_frame hpad hcd (by omega)
  have hhdr : hdrSize (mapHeader r.skb) = 4 + ext.length := by
    rw [hheader, hext, hdrSize]
    by_cases hnext : field 6 1 flags.toNat = 1 <;> simp [hnext]
  have hlen : skbLen d (mapHeader r.skb) = packet.length := by
    rw [hheader, skbLen, hdl]
    unfold u32OfInt
    dsimp only
    omega
  have hmux : mux r = net := mux_of_muxId hfits.known (congrArg MapHeader.muxId hheader)
  have hframe : frameLen r = 4 + ext.length + packet.length + fill.length := by
    rw [frameLen, hhdr, hheader]
    dsimp only
    omega
  have hbehind : (r.skb.bytes ++ r.skb.slack).drop (4 + ext.length) =
      packet ++ (fill ++ (rest ++ slack)) := by
    rw [hr, List.append_assoc]
    exact drop_frameHeader flags muxId ext packet fill (rest ++ slack)
  have hpayload : payload d r = packet := by
    rw [payload, hhdr, hlen, hbehind, List.take_left]
  have hfirst : r.skb.at (hdrSize (mapHeader r.skb)) = packet.getD 0 0 := by
    cases hpacket : packet with
    | nil => exact absurd hpacket hfits.packet_ne_nil
    | cons b bs =>
      have hdrop := congrArg List.head? hbehind
      rw [List.head?_drop, hpacket] at hdrop
      rw [Skb.at, hhdr, List.getD_eq_getElem?_getD, hdrop]
      rfl
  have htotal : r.skb.bytes.length =
      4 + ext.length + packet.length + fill.length + rest.length := by
    rw [hr, List.length_append, frameBytes_length]
  have hpull : r.skb.pull (frameLen r) = ⟨rest, slack⟩ := by
    rw [pull_of_le (by omega), hframe, hr, List.drop_left' (frameBytes_length ..)]
  have hpos : 0 < packet.length := List.length_pos_iff.mpr hfits.packet_ne_nil
  rw [rxBody, if_neg (by omega), hmux, if_neg (Nat.not_le_of_lt hfits.known), hnet]
  dsimp only
  rw [hlen, if_neg (Nat.not_lt_of_le hmtu), if_neg (by omega), hfirst, hprotocol, hpull, hpayload,
    received, hprotocol]
  have hcdBit : (mapHeader r.skb).cdBit = false := by rw [hheader]
  rw [hcdBit, if_neg (by decide)]
  dsimp only
  rw [if_pos halloc]
  rfl

theorem padding_le (s : Skb) : padding s ≤ 3 ∧ padding s ≤ s.slack.length := by
  unfold padding
  dsimp only
  split
  · omega
  · split <;> omega

theorem take_padding_length (s : Skb) : (s.slack.take (padding s)).length = padding s := by
  rw [List.length_take]
  exact Nat.min_eq_left (padding_le s).2

theorem addQhdr_bytes (s : Skb) (muxId : UInt8) :
    (addQhdr s muxId).bytes =
      frameBytes (UInt8.ofNat (padding s)) muxId [] s.bytes (s.slack.take (padding s)) := by
  simp only [addQhdr, Skb.put, Skb.push, frameBytes, List.length_append, List.append_assoc,
    List.nil_append]

theorem addQhdrV5_bytes (s : Skb) (muxId : UInt8) :
    (addQhdrV5 s muxId).bytes =
      frameBytes (UInt8.ofNat (padding s + 1 <<< 6)) muxId
        [UInt8.ofNat (headerTypeCsumOffload <<< 1), 0, 0, 0] s.bytes
        (s.slack.take (padding s)) := by
  simp only [addQhdrV5, Skb.put, Skb.push, frameBytes, take_padding_length, List.append_assoc]

/-- A packet as it comes to the network device that sends it. -/
structure Sent where
  net : ℕ
  skb : Skb

/-- The packet without its Ethernet header. -/
def Sent.packet (ether : Bool) (p : Sent) : Bytes :=
  if ether then p.skb.bytes.drop ethHlen else p.skb.bytes

def Sent.xmit (d : QmapDev) (ether : Bool) (p : Sent) : Option Skb :=
  rmnetVndStartXmit d.qmapVersion ether (UInt8.ofNat (muxIdBase + p.net)) p.skb

def aggregate (frames : List Skb) : Bytes := frames.flatMap Skb.bytes

/-- The flags of both headers, read as the receiver reads them. -/
theorem flags_read_back : ∀ pad ≤ 3,
    (field 0 6 (UInt8.ofNat pad).toNat = pad ∧ field 6 1 (UInt8.ofNat pad).toNat = 0 ∧
      field 7 1 (UInt8.ofNat pad).toNat = 0) ∧
    (field 0 6 (UInt8.ofNat (pad + 1 <<< 6)).toNat = pad ∧
      field 6 1 (UInt8.ofNat (pad + 1 <<< 6)).toNat = 1 ∧
      field 7 1 (UInt8.ofNat (pad + 1 <<< 6)).toNat = 0) := by
  decide

/-- What is sent is one frame, and its receiver takes the packet out of it. -/
theorem rxBody_xmit {ether : Bool} {p : Sent} {frame : Skb} {rest slack : Bytes}
    {chain : List Delivered} {flowControl : ℕ} {acks : List Bytes}
    (hxmit : p.xmit d ether = some frame) (hfits : Fits d p.net (p.packet ether))
    (hdl : dlMinimumPadding d = 0) (halloc : d.alloc chain.length) :
    rxBody d ⟨⟨frame.bytes ++ rest, slack⟩, chain, flowControl, acks⟩ =
      .again ⟨⟨rest, slack⟩, chain ++ [received p.net (p.packet ether)], flowControl, acks⟩ := by
  have hid := muxId_toNat hfits.known
  simp only [Sent.xmit, rmnetVndStartXmit] at hxmit
  split at hxmit
  · cases hxmit
  rename_i hether
  -- the buffer behind its Ethernet header holds the packet
  have hpacket : (if ether then p.skb.pull ethHlen else p.skb).bytes = p.packet ether := by
    rw [Sent.packet]
    cases ether with
    | true => exact congrArg Skb.bytes (pull_of_le (by simpa using hether))
    | false => rfl
  generalize (if ether then p.skb.pull ethHlen else p.skb) = s at hxmit hpacket
  obtain ⟨hqhdr, hv5⟩ := flags_read_back (padding s) (padding_le s).1
  rw [← hpacket] at hfits ⊢
  have hfill : (s.slack.take (padding s)).length ≤ 3 := by
    rw [take_padding_length]
    exact (padding_le s).1
  split at hxmit
  · cases hxmit
    rw [addQhdr_bytes]
    refine rxBody_frame ?_ hqhdr.2.2 ?_ hid hfill hfits hdl halloc
    · rw [take_padding_length]
      exact hqhdr.1
    · rw [hqhdr.2.1]
      rfl
  split at hxmit
  · cases hxmit
    rw [addQhdrV5_bytes]
    refine rxBody_frame ?_ hv5.2.2 ?_ hid hfill hfits hdl halloc
    · rw [take_padding_length]
      exact hv5.1
    · rw [hv5.2.1]
      rfl
  · cases hxmit

/-- The packets behind those that are already taken out. -/
theorem rx_aggregate {ether : Bool} {sent : List Sent} {frames : List Skb} {tail slack : Bytes}
    {chain : List Delivered} {flowControl : ℕ} {acks : List Bytes}
    (hxmit : sent.mapM (Sent.xmit d ether) = some frames)
    (hfits : ∀ p ∈ sent, Fits d p.net (p.packet ether)) (hdl : dlMinimumPadding d = 0)
    (halloc : ∀ n, d.alloc n) (htail : tail.length ≤ 4) :
    loop (rxBody d) (sent.length + 1)
        ⟨⟨aggregate frames ++ tail, slack⟩, chain, flowControl, acks⟩ =
      some ⟨⟨tail, slack⟩, chain ++ sent.map fun p => received p.net (p.packet ether),
        flowControl, acks⟩ := by
  induction sent generalizing frames chain with
  | nil =>
    cases hxmit
    rw [List.map_nil, List.append_nil]
    have hleave : rxBody d ⟨⟨tail, slack⟩, chain, flowControl, acks⟩ =
        .leave ⟨⟨tail, slack⟩, chain, flowControl, acks⟩ := if_pos htail
    exact loop_leave hleave 0
  | cons p sent ih =>
    rw [List.mapM_cons] at hxmit
    obtain ⟨frame, hframe, hxmit⟩ := Option.bind_eq_some_iff.mp hxmit
    obtain ⟨others, hothers, hxmit⟩ := Option.bind_eq_some_iff.mp hxmit
    cases hxmit
    have hbody : rxBody d
        ⟨⟨frame.bytes ++ (aggregate others ++ tail), slack⟩, chain, flowControl, acks⟩ =
          .again ⟨⟨aggregate others ++ tail, slack⟩,
            chain ++ [received p.net (p.packet ether)], flowControl, acks⟩ :=
      rxBody_xmit hframe (hfits p List.mem_cons_self) hdl (halloc chain.length)
    have hcons : aggregate (frame :: others) ++ tail =
        frame.bytes ++ (aggregate others ++ tail) := by
      rw [aggregate, List.flatMap_cons, List.append_assoc, aggregate]
    rw [hcons, List.length_cons, loop_again hbody,
      ih hothers fun q hq => hfits q (List.mem_cons_of_mem p hq)]
    rw [List.map_cons, List.append_assoc, List.singleton_append]

/-- An aggregate of what the network devices send is taken apart into their packets, in order. -/
theorem frames_read_back {ether : Bool} {sent : List Sent} {frames : List Skb}
    {tail slack : Bytes} {flowControl rounds : ℕ}
    (hxmit : sent.mapM (Sent.xmit d ether) = some frames)
    (hfits : ∀ p ∈ sent, Fits d p.net (p.packet ether)) (hdl : dlMinimumPadding d = 0)
    (halloc : ∀ n, d.alloc n) (htail : tail.length ≤ 4) (hrounds : sent.length < rounds) :
    qmiRxHandler d rounds ⟨aggregate frames ++ tail, slack⟩ flowControl =
      some ⟨⟨tail, slack⟩, sent.map fun p => received p.net (p.packet ether), flowControl, []⟩ := by
  rw [qmiRxHandler, rxStart, loop_mono (rx_aggregate hxmit hfits hdl halloc htail) hrounds,
    List.nil_append]

theorem frames_read_back_two :
    qmiRxHandler twoNets 3
        ⟨aggregate [⟨[1, 0x82, 0, 4, 0x45, 7, 7, 0], []⟩, ⟨[0, 0x81, 0, 1, 0x60], []⟩] ++ [9],
          []⟩ 0 =
      some ⟨⟨[9], []⟩, [⟨1, 0x0800, [0x45, 7, 7]⟩, ⟨0, 0x86DD, [0x60]⟩], 0, []⟩ := by
  have hfits : ∀ p ∈ [Sent.mk 1 ⟨[0x45, 7, 7], [0]⟩, ⟨0, ⟨[0x60], []⟩⟩],
      Fits twoNets p.net (p.packet false) := by
    intro p hp
    simp only [List.mem_cons, List.not_mem_nil, or_false] at hp
    rcases hp with rfl | rfl
    · exact ⟨by decide, ⟨1500, rfl, by decide⟩, by decide, by decide⟩
    · exact ⟨by decide, ⟨1500, rfl, by decide⟩, by decide, by decide⟩
  have hxmit :
      [Sent.mk 1 ⟨[0x45, 7, 7], [0]⟩, ⟨0, ⟨[0x60], []⟩⟩].mapM (Sent.xmit twoNets false) =
        some [⟨[1, 0x82, 0, 4, 0x45, 7, 7, 0], []⟩, ⟨[0, 0x81, 0, 1, 0x60], []⟩] := by
    decide
  exact frames_read_back hxmit hfits rfl (fun _ => rfl) (by decide) (by decide)

end RoundTrip

end QmapFrames
