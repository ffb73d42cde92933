import SbcImageBuild.QmapFrames

/-!
# MBIM transfer blocks

The other way in which several network devices share one channel of the modem: the block that
`add_mbim_hdr` builds around one packet, and `rmnet_mbim_rx_handler`, which follows the chain of
datagram tables of a block.
-/
namespace MbimFrames

open ByteStore Loops QmapFrames

abbrev Word16 : Type := Fin 65536

def le16At (s : Skb) (i : ℕ) : Word16 :=
  ⟨(s.at i).toNat + (s.at (i + 1)).toNat * 256, by
    have hlow := (s.at i).toNat_lt
    have hhigh := (s.at (i + 1)).toNat_lt
    omega⟩

def le16 (n : ℕ) : Bytes := [UInt8.ofNat n, UInt8.ofNat (n / 256)]

def nth16Sign : Bytes := [0x4e, 0x43, 0x4d, 0x48]

/-- The signatures of a table without the session in their last byte. -/
def ndp16IpsSign : Bytes := [0x49, 0x50, 0x53]
def ndp16DssSign : Bytes := [0x44, 0x53, 0x53]

def nth16Size : ℕ := 12
def ndp16Size : ℕ := 8
def dpe16Size : ℕ := 4
def mbimHdrSize : ℕ := 28

/-- `nets` says which entries of `mpQmapNetDev` are there, `alloc` whether the memory for one more
packet is. -/
structure MbimDev where
  qmapMode : ℕ
  mbimMuxId : ℕ
  rxMax : ℕ
  nets : ℕ → Bool
  alloc : ℕ → Bool
  sessions : 0 < qmapMode
  entries : qmapMode ≤ 8
  muxIds : mbimMuxId + qmapMode < 256

/-- The loop's variables. A `fault` is a read outside of the array of network devices, or through
an entry that is not there: what happens from then on is not defined, and the loop is left. -/
structure MbimRx where
  ndpOffset : Word16
  chain : List Delivered
  fault : Bool
  rxSeq : ℕ
  deriving DecidableEq

inductive Walk where
  | done (chain : List Delivered)
  | error (chain : List Delivered)
  | fault (chain : List Delivered)

section Receive

variable (m : MbimDev) (s : Skb)

def signAt (i : ℕ) : Bytes := [s.at i, s.at (i + 1), s.at (i + 2)]

/-- The session of a table. -/
def tciAt (i : ℕ) : Option ℕ :=
  if signAt s i = ndp16IpsSign then some (s.at (i + 3)).toNat
  else if signAt s i = ndp16DssSign then some ((s.at (i + 3)).toNat + 256)
  else none

/-- The datagrams of one table, for the network device `net`. -/
def datagrams (net : ℕ) : ℕ → ℕ → List Delivered → Walk
  | 0, _, chain => .done chain
  | frames + 1, dpe, chain =>
    let offset := (le16At s dpe).val
    let len := (le16At s (dpe + 2)).val
    if offset = 0 ∨ len = 0 then .done chain
    else if s.bytes.length < offset + len ∨ m.rxMax < len then .error chain
    else if m.alloc chain.length = false then .error chain
    else
      match protocolOf (s.at offset) with
      | none => .error chain
      | some protocol =>
        if m.nets net = false then .fault chain
        else
          datagrams net frames (dpe + dpe16Size)
            (chain ++ [⟨net, protocol, slice s.bytes offset len⟩])

def unsupported (tci : ℕ) : Prop :=
  (m.qmapMode = 1 ∧ tci ≠ m.mbimMuxId) ∨
    (1 < m.qmapMode ∧ m.qmapMode < u32OfInt ((tci : ℤ) - m.mbimMuxId))

instance (tci : ℕ) : Decidable (unsupported m tci) := by
  unfold unsupported
  infer_instance

def netIndex (tci : ℕ) : ℕ :=
  if m.qmapMode = 1 then 0 else u32OfInt ((tci : ℤ) - 1 - m.mbimMuxId)

def nframes (ndp : ℕ) : ℕ := ((le16At s (ndp + 4)).val - ndp16Size) / dpe16Size

/-- One table. Its length is compared with the whole block, wherever the table stands in it. -/
def mbimBody (r : MbimRx) : Outcome MbimRx :=
  if r.ndpOffset.val = 0 then .leave r
  else if s.bytes.length < r.ndpOffset.val + ndp16Size then .leave r
  else if (le16At s (r.ndpOffset.val + 4)).val < 0x10 then .leave r
  else if s.bytes.length < ndp16Size + nframes s r.ndpOffset.val * dpe16Size then .leave r
  else
    match tciAt s r.ndpOffset.val with
    | none => .leave r
    | some tci =>
      if unsupported m tci then .leave r
      else if 8 ≤ netIndex m tci then .leave { r with fault := true }
      else
        match datagrams m s (netIndex m tci) (nframes s r.ndpOffset.val)
          (r.ndpOffset.val + ndp16Size) r.chain with
        | .error chain => .leave { r with chain }
        | .fault chain => .leave { r with chain, fault := true }
        | .done chain =>
          .again { r with chain, ndpOffset := le16At s (r.ndpOffset.val + 6) }

def mbimStart : MbimRx :=
  ⟨le16At s 10, [], false, ((le16At s 6).val + 1) % 65536⟩

def noNtb (rxSeq : ℕ) : MbimRx := ⟨⟨0, by decide⟩, [], false, rxSeq⟩

/-- Is there a transfer block at all? -/
def isNtb : Prop :=
  nth16Size + ndp16Size ≤ s.bytes.length ∧
    [s.at 0, s.at 1, s.at 2, s.at 3] = nth16Sign ∧ (le16At s 8).val ≤ m.rxMax

instance : Decidable (isNtb m s) := by
  unfold isNtb
  infer_instance

/-- The state in which the handler returns. -/
def mbimRxHandler (rounds : ℕ) (rxSeq : ℕ) : Option MbimRx :=
  if isNtb m s then loop (mbimBody m s) rounds (mbimStart s) else some (noNtb rxSeq)

end Receive

/-- `headroom` is what lies in front of the packet. The sequence number is left as it is there. -/
def addMbimHdr (qmapMode : ℕ) (headroom : Bytes) (s : Skb) (muxId : UInt8) : Option Skb :=
  if headroom.length < mbimHdrSize then none
  else
    let tci := if 1 < qmapMode then muxId.toNat + 1 else muxId.toNat
    let old := headroom.drop (headroom.length - mbimHdrSize)
    some (s.push
      (nth16Sign ++ le16 nth16Size ++ slice old 6 2 ++ le16 (mbimHdrSize + s.bytes.length) ++
        le16 nth16Size ++
        (ndp16IpsSign ++ [UInt8.ofNat tci] ++ le16 (ndp16Size + dpe16Size * 2) ++ le16 0 ++
          (le16 mbimHdrSize ++ le16 s.bytes.length) ++ (le16 0 ++ le16 0))))

/-- `mhi_netdev_xmit` fills the sequence number in. -/
def setSequence (txSeq : ℕ) (s : Skb) : Skb := { s with bytes := writeAt s.bytes 6 (le16 txSeq) }

/-! ### What is delivered of any block -/

section Delivery

variable {m : MbimDev} {s : Skb} {r t : MbimRx}

def Walk.chain : Walk → List Delivered
  | .done chain => chain
  | .error chain => chain
  | .fault chain => chain

/-- What one may rely on for a delivered packet. -/
structure FromBlock (m : MbimDev) (s : Skb) (p : Delivered) : Prop where
  net : p.net < m.qmapMode
  there : m.nets p.net = true
  piece : ∃ offset, offset + p.payload.length ≤ s.bytes.length ∧
    p.payload = slice s.bytes offset p.payload.length
  size : p.payload.length ≤ m.rxMax
  protocol : ∃ b, p.payload.head? = some b ∧ protocolOf b = some p.protocol

theorem slice_length {b : Bytes} {offset len : ℕ} (h : offset + len ≤ b.length) :
    (slice b offset len).length = len := by
  rw [slice, List.length_take, List.length_drop]
  omega

theorem slice_head {offset len : ℕ} (hlen : len ≠ 0) (h : offset + len ≤ s.bytes.length) :
    (slice s.bytes offset len).head? = some (s.at offset) := by
  have hlt : offset < s.bytes.length := by omega
  rw [slice, List.head?_take, if_neg hlen, List.head?_drop, Skb.at, List.getD_eq_getElem?_getD,
    List.getElem?_append_left hlt, List.getElem?_eq_getElem hlt]
  rfl

theorem datagrams_from_block {net frames dpe : ℕ} {chain : List Delivered}
    (hnet : net < m.qmapMode) (hchain : ∀ p ∈ chain, FromBlock m s p) :
    ∀ p ∈ (datagrams m s net frames dpe chain).chain, FromBlock m s p := by
  induction frames generalizing dpe chain with
  | zero => exact hchain
  | succ frames ih =>
    simp only [datagrams]
    split
    · exact hchain
    rename_i hend
    split
    · exact hchain
    rename_i hsane
    split
    · exact hchain
    split
    · exact hchain
    rename_i protocol hprotocol
    split
    · exact hchain
    rename_i hthere
    obtain ⟨-, hlen⟩ := not_or.mp hend
    obtain ⟨hin, hmax⟩ := not_or.mp hsane
    have hsize := slice_length (Nat.le_of_not_lt hin)
    refine ih fun p hp => ?_
    rcases List.mem_append.mp hp with hp | hp
    · exact hchain p hp
    · obtain rfl := List.mem_singleton.mp hp
      refine ⟨hnet, by simpa using hthere, ⟨(le16At s dpe).val, ?_, ?_⟩, ?_, ?_⟩
      · rw [hsize]
        exact Nat.le_of_not_lt hin
      · rw [hsize]
      · rw [hsize]
        exact Nat.le_of_not_lt hmax
      · exact ⟨_, slice_head hlen (Nat.le_of_not_lt hin), hprotocol⟩

/-- A session that is let through has an entry, or it is the one in front of the first. -/
theorem netIndex_lt {tci : ℕ} (hsupported : ¬ unsupported m tci) (h : netIndex m tci < 8) :
    netIndex m tci < m.qmapMode := by
  have hsessions := m.sessions
  have hentries := m.entries
  have hmuxIds := m.muxIds
  unfold unsupported at hsupported
  unfold netIndex u32OfInt at *
  split at h
  · rename_i hone
    rw [if_pos hone]
    exact hsessions
  · rename_i hone
    rw [if_neg hone]
    omega

/-- A table whose datagrams are gone through. -/
structure TableOk (m : MbimDev) (s : Skb) (ndp tci : ℕ) : Prop where
  more : ndp ≠ 0
  room : ndp + ndp16Size ≤ s.bytes.length
  length : 0x10 ≤ (le16At s (ndp + 4)).val
  frames : ndp16Size + nframes s ndp * dpe16Size ≤ s.bytes.length
  session : tciAt s ndp = some tci
  supported : ¬ unsupported m tci
  index : netIndex m tci < 8

def afterTable (s : Skb) (r : MbimRx) : Walk → Outcome MbimRx
  | .error chain => .leave { r with chain }
  | .fault chain => .leave { r with chain, fault := true }
  | .done chain => .again { r with chain, ndpOffset := le16At s (r.ndpOffset.val + 6) }

theorem mbimBody_of_ok {tci : ℕ} (h : TableOk m s r.ndpOffset.val tci) :
    mbimBody m s r =
      afterTable s r (datagrams m s (netIndex m tci) (nframes s r.ndpOffset.val)
        (r.ndpOffset.val + ndp16Size) r.chain) := by
  rw [mbimBody, if_neg h.more, if_neg (Nat.not_lt_of_le h.room),
    if_neg (Nat.not_lt_of_le h.length), if_neg (Nat.not_lt_of_le h.frames), h.session]
  dsimp only
  rw [if_neg h.supported, if_neg (Nat.not_le_of_lt h.index)]
  cases datagrams m s (netIndex m tci) (nframes s r.ndpOffset.val) (r.ndpOffset.val + ndp16Size)
    r.chain <;> rfl

/-- A table is gone through, or the loop is left with the packets there are. -/
theorem mbimBody_cases (m : MbimDev) (s : Skb) (r : MbimRx) :
    mbimBody m s r = .leave r ∨
      (∃ tci, 8 ≤ netIndex m tci ∧ mbimBody m s r = .leave { r with fault := true }) ∨
      ∃ tci, TableOk m s r.ndpOffset.val tci := by
  unfold mbimBody
  split
  · exact .inl rfl
  rename_i hmore
  split
  · exact .inl rfl
  rename_i hroom
  split
  · exact .inl rfl
  rename_i hlength
  split
  · exact .inl rfl
  rename_i hframes
  split
  · exact .inl rfl
  rename_i tci htci
  split
  · exact .inl rfl
  rename_i hsupported
  split
  · rename_i hindex
    exact .inr (.inl ⟨tci, hindex, rfl⟩)
  · rename_i hindex
    exact .inr (.inr ⟨tci, hmore, Nat.le_of_not_lt hroom, Nat.le_of_not_lt hlength,
      Nat.le_of_not_lt hframes, htci, hsupported, Nat.lt_of_not_le hindex⟩)

def Outcome.state : Outcome MbimRx → MbimRx
  | .leave r => r
  | .again r => r

theorem afterTable_chain (s : Skb) (r : MbimRx) (walk : Walk) :
    (Outcome.state (afterTable s r walk)).chain = walk.chain := by
  cases walk <;> rfl

theorem mbimBody_from_block (h : ∀ p ∈ r.chain, FromBlock m s p) :
    ∀ p ∈ (Outcome.state (mbimBody m s r)).chain, FromBlock m s p := by
  rcases mbimBody_cases m s r with hbody | ⟨tci, -, hbody⟩ | ⟨tci, hok⟩
  · rw [hbody]
    exact h
  · rw [hbody]
    exact h
  · rw [mbimBody_of_ok hok, afterTable_chain]
    exact datagrams_from_block (netIndex_lt hok.supported hok.index) h

/-- Whatever the modem sends, what the handler delivers are pieces of the block for devices that
are there. -/
theorem mbim_delivered_from_input {rounds rxSeq : ℕ} (h : mbimRxHandler m s rounds rxSeq = some t) :
    ∀ p ∈ t.chain, FromBlock m s p := by
  unfold mbimRxHandler at h
  split at h
  · refine loop_invariant (I := fun r => ∀ p ∈ r.chain, FromBlock m s p)
      (Q := fun r => ∀ p ∈ r.chain, FromBlock m s p) ?_ ?_
      (fun p hp => absurd hp List.not_mem_nil) h
    · intro r u hr hbody
      have hstep := mbimBody_from_block hr
      rw [hbody] at hstep
      exact hstep
    · intro r u hr hbody
      have hstep := mbimBody_from_block hr
      rw [hbody] at hstep
      exact hstep
  · cases h
    exact fun p hp => absurd hp List.not_mem_nil

theorem datagrams_no_fault {net frames dpe : ℕ} {chain chain' : List Delivered}
    (hthere : m.nets net = true) : datagrams m s net frames dpe chain ≠ .fault chain' := by
  induction frames generalizing dpe chain with
  | zero => exact fun h => nomatch h
  | succ frames ih =>
    simp only [datagrams]
    split
    · exact fun h => nomatch h
    split
    · exact fun h => nomatch h
    split
    · exact fun h => nomatch h
    split
    · exact fun h => nomatch h
    rw [if_neg (by simp [hthere])]
    exact ih

/-- A table for the session in front of the first one: an entry in front of the array is read. -/
def baseSession (id : ℕ) : Skb :=
  ⟨nth16Sign ++ le16 nth16Size ++ [0, 0, 0, 0] ++ le16 nth16Size ++
    (ndp16IpsSign ++ [UInt8.ofNat id] ++ le16 0x10 ++ zeros 10), []⟩

theorem baseSession_words (id : ℕ) :
    (le16At (baseSession id) 8).val = 0 ∧ (le16At (baseSession id) 10).val = 12 ∧
      (le16At (baseSession id) 16).val = 16 := by
  have h8 : (baseSession id).at 8 = 0 := rfl
  have h9 : (baseSession id).at 9 = 0 := rfl
  have h10 : (baseSession id).at 10 = 12 := rfl
  have h11 : (baseSession id).at 11 = 0 := rfl
  have h16 : (baseSession id).at 16 = 16 := rfl
  have h17 : (baseSession id).at 17 = 0 := rfl
  simp only [le16At, h8, h9, h10, h11, h16, h17]
  decide

/-- With more devices the session in front of the first one leads behind the array. -/
theorem baseSession_fault (hmany : m.qmapMode ≠ 1) :
    mbimRxHandler m (baseSession m.mbimMuxId) 1 0 =
      some { mbimStart (baseSession m.mbimMuxId) with fault := true } := by
  have hsessions := m.sessions
  have hmuxIds := m.muxIds
  have hone : 1 < m.qmapMode := by omega
  obtain ⟨hblock, hoffset, hlen⟩ := baseSession_words m.mbimMuxId
  have hstart : (mbimStart (baseSession m.mbimMuxId)).ndpOffset.val = 12 := hoffset
  have htci : tciAt (baseSession m.mbimMuxId) 12 = some m.mbimMuxId := by
    have hsign : signAt (baseSession m.mbimMuxId) 12 = ndp16IpsSign := rfl
    rw [tciAt, if_pos hsign]
    change some (UInt8.ofNat m.mbimMuxId).toNat = _
    rw [UInt8.toNat_ofNat', Nat.mod_eq_of_lt (by omega)]
  have hsupported : ¬ unsupported m m.mbimMuxId := by
    unfold unsupported u32OfInt
    omega
  have hindex : 8 ≤ netIndex m m.mbimMuxId := by
    rw [netIndex, if_neg hmany]
    unfold u32OfInt
    omega
  have hntb : isNtb m (baseSession m.mbimMuxId) := 
    ⟨(by decide : 20 ≤ 28), rfl, hblock.trans_le (Nat.zero_le _)⟩
  have hbody : mbimBody m (baseSession m.mbimMuxId) (mbimStart (baseSession m.mbimMuxId)) =
      .leave { mbimStart (baseSession m.mbimMuxId) with fault := true } := by
    have hframes : nframes (baseSession m.mbimMuxId) 12 = 2 := by
      rw [nframes, hlen]
      rfl
    have hroom : ¬ (baseSession m.mbimMuxId).bytes.length < 12 + ndp16Size :=
      (by decide : ¬ 28 < 12 + 8)
    have htable : ¬ (baseSession m.mbimMuxId).bytes.length < ndp16Size + 2 * dpe16Size :=
      (by decide : ¬ 28 < 8 + 2 * 4)
    rw [mbimBody, hstart, if_neg (by decide), if_neg hroom, hlen, if_neg (by decide), hframes,
      if_neg htable, htci]
    dsimp only
    rw [if_neg hsupported, if_pos hindex]
  rw [mbimRxHandler, if_pos hntb]
  exact loop_leave hbody 0

/-- A single network device is the only one that a table leads to. -/
theorem no_fault_of_one (hzero : m.nets 0 = true) (hone : m.qmapMode = 1) {s : Skb}
    {rounds rxSeq : ℕ} {t : MbimRx} (h : mbimRxHandler m s rounds rxSeq = some t) :
    t.fault = false := by
  unfold mbimRxHandler at h
  split at h
  · have hstep : ∀ r : MbimRx, r.fault = false →
        (Outcome.state (mbimBody m s r)).fault = false := by
      intro r hr
      rcases mbimBody_cases m s r with hbody | ⟨tci, hindex, -⟩ | ⟨tci, hok⟩
      · rw [hbody]
        exact hr
      · rw [netIndex, if_pos hone] at hindex
        exact absurd hindex (by decide)
      · rw [mbimBody_of_ok hok, netIndex, if_pos hone]
        cases hwalk : datagrams m s 0 (nframes s r.ndpOffset.val)
          (r.ndpOffset.val + ndp16Size) r.chain with
        | done chain => exact hr
        | error chain => exact hr
        | fault chain => exact absurd hwalk (datagrams_no_fault hzero)
    refine loop_invariant (I := fun r => r.fault = false) (Q := fun r => r.fault = false)
      ?_ ?_ rfl h
    · intro r u hr hbody
      have hnext := hstep r hr
      rwa [hbody] at hnext
    · intro r u hr hbody
      have hnext := hstep r hr
      rwa [hbody] at hnext
  · cases h
    rfl

/-- No block leads outside of the array exactly if there is a single network device. -/
theorem mbim_no_fault_iff (hnets : ∀ i < m.qmapMode, m.nets i = true) :
    (∀ s rounds rxSeq t, mbimRxHandler m s rounds rxSeq = some t → t.fault = false) ↔
      m.qmapMode = 1 := by
  constructor
  · intro hnone
    by_contra hmany
    have hfault := hnone _ _ _ _ (baseSession_fault hmany)
    cases hfault
  · intro hone s rounds rxSeq t h
    exact no_fault_of_one (hnets 0 m.sessions) hone h

/-- While there is memory, the packets taken out so far do not change how the datagrams of a table
are gone through. -/
theorem datagrams_done (halloc : ∀ n, m.alloc n = true) {net frames dpe : ℕ}
    {chain chain' : List Delivered} (h : datagrams m s net frames dpe chain = .done chain')
    (other : List Delivered) : ∃ other', datagrams m s net frames dpe other = .done other' := by
  induction frames generalizing dpe chain other with
  | zero => exact ⟨other, rfl⟩
  | succ frames ih =>
    simp only [datagrams] at h ⊢
    split at h
    · rename_i hend
      exact ⟨other, if_pos hend⟩
    rename_i hend
    split at h
    · cases h
    rename_i hsane
    rw [if_neg hend, if_neg hsane, if_neg (by simp [halloc])]
    rw [if_neg (by simp [halloc])] at h
    split at h
    · cases h
    rename_i protocol hprotocol
    split at h
    · cases h
    rename_i hthere
    rw [if_neg hthere]
    exact ih h _

theorem ndpOffset_governs (halloc : ∀ n, m.alloc n = true) :
    Governs MbimRx.ndpOffset (mbimBody m s) := by
  intro r u t hkey hbody
  rcases mbimBody_cases m s r with hleave | ⟨tci, -, hleave⟩ | ⟨tci, hok⟩
  · rw [hleave] at hbody
    cases hbody
  · rw [hleave] at hbody
    cases hbody
  rw [mbimBody_of_ok hok] at hbody
  rw [hkey] at hok hbody
  cases hwalk : datagrams m s (netIndex m tci) (nframes s u.ndpOffset.val)
      (u.ndpOffset.val + ndp16Size) r.chain with
  | error chain =>
    rw [hwalk] at hbody
    cases hbody
  | fault chain =>
    rw [hwalk] at hbody
    cases hbody
  | done chain =>
    obtain ⟨other, hother⟩ := datagrams_done halloc hwalk u.chain
    refine ⟨_, (mbimBody_of_ok hok).trans (congrArg (afterTable s u) hother), ?_⟩
    rw [hwalk] at hbody
    cases hbody
    exact congrArg (fun o : Word16 => le16At s (o.val + 6)) hkey

/-- While there is memory, the handler returns exactly if no table of the block comes back in its
chain. -/
theorem mbim_ends_iff (halloc : ∀ n, m.alloc n = true) :
    Ends (mbimBody m s) (mbimStart s) ↔
      ∀ i j t u, i < j → after (mbimBody m s) i (mbimStart s) = some t →
        after (mbimBody m s) j (mbimStart s) = some u → t.ndpOffset ≠ u.ndpOffset :=
  ends_iff_not_repeating (ndpOffset_governs halloc)

theorem two_devices : 2 ≤ 8 := by decide

/-- Two network devices with sessions 113 and 114. -/
def twoSessions : MbimDev where
  qmapMode := 2
  mbimMuxId := 112
  rxMax := 32768
  nets i := i < 2
  alloc _ := true
  sessions := by decide
  entries := two_devices
  muxIds := by decide

/-- A block for the second device whose only table is also the next one of its chain. -/
def endless : Skb :=
  ⟨nth16Sign ++ le16 12 ++ [0, 0] ++ le16 32 ++ le16 12 ++
    (ndp16IpsSign ++ [114] ++ le16 16 ++ le16 12 ++ zeros 12), []⟩

theorem mbim_ends_iff_endless : ¬ Ends (mbimBody twoSessions endless) (mbimStart endless) := by
  intro hends
  have hagain : after (mbimBody twoSessions endless) 1 (mbimStart endless) =
      some (mbimStart endless) := by decide
  exact (mbim_ends_iff fun _ => rfl).mp hends 0 1 _ _ Nat.zero_lt_one rfl hagain rfl

theorem mbim_no_fault_iff_twoSessions :
    ¬ ∀ s rounds rxSeq t, mbimRxHandler twoSessions s rounds rxSeq = some t → t.fault = false := by
  have hnets : ∀ i < twoSessions.qmapMode, twoSessions.nets i = true := by decide
  exact fun h => absurd ((mbim_no_fault_iff hnets).mp h) (by decide)

/-- A block with one packet of two bytes for the first device. -/
def oneDatagram : Skb :=
  ⟨nth16Sign ++ le16 12 ++ [7, 0] ++ le16 30 ++ le16 12 ++
    (ndp16IpsSign ++ [113] ++ le16 16 ++ le16 0 ++ (le16 28 ++ le16 2) ++ zeros 4) ++ [0x45, 9], []⟩

theorem mbim_delivered_from_input_oneDatagram :
    FromBlock twoSessions oneDatagram ⟨0, 0x0800, [0x45, 9]⟩ := by
  have hrun : mbimRxHandler twoSessions oneDatagram 2 7 =
      some ⟨0, [⟨0, 0x0800, [0x45, 9]⟩], false, 8⟩ := by decide
  exact mbim_delivered_from_input hrun _ List.mem_cons_self

end Delivery

/-! ### Blocks are taken apart as they were put together -/

section RoundTrip

variable {m : MbimDev}

/-- A packet on its way to the modem, and the bytes in front of it in its buffer. -/
structure Outgoing where
  net : ℕ
  headroom : Bytes
  skb : Skb

def Outgoing.xmit (m : MbimDev) (txSeq : ℕ) (p : Outgoing) : Option Skb :=
  (addMbimHdr m.qmapMode p.headroom p.skb (UInt8.ofNat (m.mbimMuxId + p.net))).map
    (setSequence txSeq)

/-- Every block has the next sequence number. -/
def sendAll (m : MbimDev) : ℕ → List Outgoing → Option (List Skb)
  | _, [] => some []
  | txSeq, p :: ps =>
    match p.xmit m txSeq, sendAll m ((txSeq + 1) % 65536) ps with
    | some block, some blocks => some (block :: blocks)
    | _, _ => none

/-- What the network devices get of one block after another, and how often the sequence number was
not the expected one. -/
structure Inbound where
  chain : List Delivered
  rxSeq : ℕ
  glitches : ℕ
  deriving DecidableEq

def receiveAll (m : MbimDev) (rounds : ℕ) : ℕ → List Skb → Option Inbound
  | rxSeq, [] => some ⟨[], rxSeq, 0⟩
  | rxSeq, block :: blocks =>
    match mbimRxHandler m block rounds rxSeq with
    | none => none
    | some r =>
      match receiveAll m rounds r.rxSeq blocks with
      | none => none
      | some more =>
        some ⟨r.chain ++ more.chain, more.rxSeq,
          more.glitches + if (le16At block 6).val = rxSeq then 0 else 1⟩

/-- A packet that its network device may send and receive. -/
structure Fits (m : MbimDev) (p : Outgoing) : Prop where
  known : p.net < m.qmapMode
  there : m.nets p.net = true
  word : mbimHdrSize + p.skb.bytes.length < 65536
  size : mbimHdrSize + p.skb.bytes.length ≤ m.rxMax
  protocol : (protocolOf (p.skb.bytes.getD 0 0)).isSome

def sessionOf (m : MbimDev) (net : ℕ) : ℕ :=
  if 1 < m.qmapMode then m.mbimMuxId + net + 1 else m.mbimMuxId + net

/-- The bytes of a block. -/
def ntb (seq tci : ℕ) (packet : Bytes) : Bytes :=
  nth16Sign ++ le16 nth16Size ++ le16 seq ++ le16 (mbimHdrSize + packet.length) ++
    le16 nth16Size ++
    (ndp16IpsSign ++ [UInt8.ofNat tci] ++ le16 (ndp16Size + dpe16Size * 2) ++ le16 0 ++
      (le16 mbimHdrSize ++ le16 packet.length) ++ (le16 0 ++ le16 0)) ++ packet

theorem le16At_eq {s : Skb} {i n : ℕ} (hn : n < 65536) (hlow : s.at i = UInt8.ofNat n)
    (hhigh : s.at (i + 1) = UInt8.ofNat (n / 256)) : (le16At s i).val = n := by
  simp only [le16At, hlow, hhigh, UInt8.toNat_ofNat']
  omega

theorem sessionOf_lt {net : ℕ} (h : net < m.qmapMode) : sessionOf m net < 256 := by
  have hmuxIds := m.muxIds
  unfold sessionOf
  split <;> omega

theorem session_supported {net : ℕ} (h : net < m.qmapMode) :
    ¬ unsupported m (sessionOf m net) ∧ netIndex m (sessionOf m net) = net := by
  have hmuxIds := m.muxIds
  unfold unsupported netIndex sessionOf u32OfInt
  by_cases hone : 1 < m.qmapMode
  · rw [if_pos hone, if_neg (by omega)]
    omega
  · rw [if_neg hone, if_pos (by omega)]
    omega

theorem xmit_bytes {p : Outgoing} {block : Skb} {txSeq : ℕ} (hfits : Fits m p)
    (h : p.xmit m txSeq = some block) :
    block.bytes = ntb txSeq (sessionOf m p.net) p.skb.bytes := by
  have hmuxId : (UInt8.ofNat (m.mbimMuxId + p.net)).toNat = m.mbimMuxId + p.net := by
    have hmuxIds := m.muxIds
    have hknown := hfits.known
    rw [UInt8.toNat_ofNat', Nat.mod_eq_of_lt]
    omega
  unfold Outgoing.xmit addMbimHdr at h
  split at h
  · cases h
  rename_i hroom
  cases h
  simp only [hmuxId]
  -- the two bytes that the header leaves as they are
  have hold : (slice (p.headroom.drop (p.headroom.length - mbimHdrSize)) 6 2).length = 2 := by
    rw [slice_length]
    rw [List.length_drop]
    unfold mbimHdrSize at *
    omega
  obtain ⟨a, b, hab⟩ := List.length_eq_two.mp hold
  rw [hab]
  rfl

theorem ntb_length (seq tci : ℕ) (packet : Bytes) :
    (ntb seq tci packet).length = mbimHdrSize + packet.length := by
  simp only [ntb, nth16Sign, ndp16IpsSign, le16, mbimHdrSize, List.length_append,
    List.length_cons, List.length_nil]

/-- What the reader finds at the fixed places of a block. -/
structure NtbWords (s : Skb) (seq size : ℕ) : Prop where
  sequence : (le16At s 6).val = seq
  block : (le16At s 8).val = mbimHdrSize + size
  table : (le16At s 10).val = 12
  length : (le16At s 16).val = 16
  next : (le16At s 18).val = 0
  offset : (le16At s 20).val = 28
  datagram : (le16At s 22).val = size
  last : (le16At s 24).val = 0

theorem ntb_words (tci : ℕ) (slack : Bytes) {seq : ℕ} {packet : Bytes} (hseq : seq < 65536)
    (hword : mbimHdrSize + packet.length < 65536) :
    NtbWords ⟨ntb seq tci packet, slack⟩ seq packet.length where
  sequence := le16At_eq hseq rfl rfl
  block := le16At_eq hword rfl rfl
  table := le16At_eq (by decide) rfl rfl
  length := le16At_eq (by decide) rfl rfl
  next := le16At_eq (by decide) rfl rfl
  offset := le16At_eq (by decide) rfl rfl
  datagram := le16At_eq (Nat.lt_of_le_of_lt (Nat.le_add_left _ _) hword) rfl rfl
  last := le16At_eq (by decide) rfl rfl

theorem NtbWords.frames {s : Skb} {seq size : ℕ} (h : NtbWords s seq size) : nframes s 12 = 2 := by
  rw [nframes, h.length]
  rfl

theorem Fits.length_pos {p : Outgoing} (hfits : Fits m p) : 0 < p.skb.bytes.length := by
  refine List.length_pos_iff.mpr fun hnil => ?_
  have hprotocol := hfits.protocol
  rw [hnil] at hprotocol
  exact absurd hprotocol (by decide)

/-- The pointer table of a block passes the checks. -/
theorem ntb_table (slack : Bytes) {p : Outgoing} {txSeq : ℕ} (hfits : Fits m p)
    (hseq : txSeq < 65536) :
    TableOk m ⟨ntb txSeq (sessionOf m p.net) p.skb.bytes, slack⟩ 12 (sessionOf m p.net) := by
  have hwords := ntb_words (sessionOf m p.net) slack hseq hfits.word
  set s : Skb := ⟨ntb txSeq (sessionOf m p.net) p.skb.bytes, slack⟩ with hs
  obtain ⟨hsupported, hindex⟩ := session_supported hfits.known
  have hlen : s.bytes.length = mbimHdrSize + p.skb.bytes.length := ntb_length _ _ _
  unfold mbimHdrSize at hlen
  have hsession : tciAt s 12 = some (sessionOf m p.net) := by
    have hsign : signAt s 12 = ndp16IpsSign := rfl
    rw [tciAt, if_pos hsign]
    change some (UInt8.ofNat (sessionOf m p.net)).toNat = _
    rw [UInt8.toNat_ofNat', Nat.mod_eq_of_lt (sessionOf_lt hfits.known)]
  refine ⟨by decide, ?_, hwords.length.ge, ?_, hsession, hsupported, ?_⟩
  · unfold ndp16Size
    omega
  · rw [hwords.frames]
    unfold ndp16Size dpe16Size
    omega
  · have hentries := m.entries
    have hknown := hfits.known
    rw [hindex]
    omega

/-- The only datagram of a block is its packet. -/
theorem ntb_datagrams (slack : Bytes) {p : Outgoing} {txSeq : ℕ} (hfits : Fits m p)
    (halloc : m.alloc 0 = true) (hseq : txSeq < 65536) :
    datagrams m ⟨ntb txSeq (sessionOf m p.net) p.skb.bytes, slack⟩ p.net 2 (12 + ndp16Size) [] =
      .done [received p.net p.skb.bytes] := by
  have hwords := ntb_words (sessionOf m p.net) slack hseq hfits.word
  set s : Skb := ⟨ntb txSeq (sessionOf m p.net) p.skb.bytes, slack⟩ with hs
  obtain ⟨protocol, hprotocol⟩ := Option.isSome_iff_exists.mp hfits.protocol
  have hpos := hfits.length_pos
  have hfirst : s.at 28 = p.skb.bytes.getD 0 0 := by
    cases hpacket : p.skb.bytes with
    | nil =>
      rw [hpacket] at hpos
      exact absurd hpos (by decide)
    | cons b bs =>
      rw [hs, hpacket]
      rfl
  have hpacket : slice s.bytes 28 p.skb.bytes.length = p.skb.bytes := List.take_length
  have hin : ¬ (s.bytes.length < 28 + p.skb.bytes.length ∨ m.rxMax < p.skb.bytes.length) := by
    have hlen : s.bytes.length = mbimHdrSize + p.skb.bytes.length := ntb_length _ _ _
    have hsize := hfits.size
    unfold mbimHdrSize at hlen
    omega
  simp only [datagrams, ndp16Size, dpe16Size, hwords.offset, hwords.datagram, hwords.last, hfirst,
    hprotocol, hpacket]
  rw [if_neg (by omega), if_neg hin, if_neg (by simp [halloc]), if_neg (by simp [hfits.there]),
    if_pos (.inl trivial), received, hprotocol]
  rfl

/-- One block gives its packet back. -/
theorem mbimRxHandler_block {p : Outgoing} {block : Skb} {txSeq rounds : ℕ}
    (hfits : Fits m p) (halloc : m.alloc 0 = true) (hrounds : 2 ≤ rounds) (hseq : txSeq < 65536)
    (hblock : block.bytes = ntb txSeq (sessionOf m p.net) p.skb.bytes) :
    (le16At block 6).val = txSeq ∧
      ∀ rxSeq, ∃ r, mbimRxHandler m block rounds rxSeq = some r ∧ r.rxSeq = (txSeq + 1) % 65536 ∧
        r.chain = [received p.net p.skb.bytes] := by
  obtain ⟨bytes, slack⟩ := block
  obtain rfl : bytes = ntb txSeq (sessionOf m p.net) p.skb.bytes := hblock
  have hwords := ntb_words (sessionOf m p.net) slack hseq hfits.word
  have hok := ntb_table slack hfits hseq
  have hwalk := ntb_datagrams slack hfits halloc hseq
  set s : Skb := ⟨ntb txSeq (sessionOf m p.net) p.skb.bytes, slack⟩ with hs
  have hntb : isNtb m s := by
    have hlen : s.bytes.length = mbimHdrSize + p.skb.bytes.length := ntb_length _ _ _
    refine ⟨?_, rfl, hwords.block.trans_le hfits.size⟩
    unfold mbimHdrSize at hlen
    unfold nth16Size ndp16Size
    omega
  have hstart : (mbimStart s).ndpOffset.val = 12 := hwords.table
  let last : MbimRx :=
    { mbimStart s with chain := [received p.net p.skb.bytes], ndpOffset := le16At s 18 }
  have hbody : mbimBody m s (mbimStart s) = .again last := by
    have htable := mbimBody_of_ok (r := mbimStart s) (hstart ▸ hok)
    rw [(session_supported hfits.known).2, hstart, hwords.frames] at htable
    rw [htable]
    change afterTable s (mbimStart s) (datagrams m s p.net 2 (12 + ndp16Size) []) = _
    rw [hwalk, afterTable, hstart]
  have hlast : mbimBody m s last = .leave last := by
    have hzero : last.ndpOffset.val = 0 := hwords.next
    rw [mbimBody, if_pos hzero]
  refine ⟨hwords.sequence, fun rxSeq => ⟨last, ?_, ?_, rfl⟩⟩
  · rw [mbimRxHandler, if_pos hntb]
    refine loop_mono ?_ hrounds
    rw [loop_again hbody]
    exact loop_leave hlast 0
  · change ((le16At s 6).val + 1) % 65536 = _
    rw [hwords.sequence]

/-- One block after another gives the packets back, in order and without a glitch. -/
theorem mbim_blocks_read_back {rounds txSeq : ℕ} {sent : List Outgoing} {blocks : List Skb}
    (hsend : sendAll m txSeq sent = some blocks) (hfits : ∀ p ∈ sent, Fits m p)
    (halloc : m.alloc 0 = true) (hrounds : 2 ≤ rounds) (hseq : txSeq < 65536) :
    receiveAll m rounds txSeq blocks =
      some ⟨sent.map fun p => received p.net p.skb.bytes, (txSeq + sent.length) % 65536, 0⟩ := by
  induction sent generalizing txSeq blocks with
  | nil =>
    cases hsend
    rw [receiveAll, List.map_nil, List.length_nil, Nat.add_zero, Nat.mod_eq_of_lt hseq]
  | cons p sent ih =>
    rw [sendAll] at hsend
    split at hsend
    · rename_i block others hblock hothers
      cases hsend
      have hp := hfits p List.mem_cons_self
      obtain ⟨hnumber, hread⟩ :=
        mbimRxHandler_block hp halloc hrounds hseq (xmit_bytes hp hblock)
      obtain ⟨r, hr, hrxSeq, hchain⟩ := hread txSeq
      have hmore := ih hothers (fun q hq => hfits q (List.mem_cons_of_mem p hq))
        (Nat.mod_lt _ (by decide))
      rw [← hrxSeq] at hmore
      rw [receiveAll, hr]
      dsimp only
      rw [hmore]
      dsimp only
      rw [hnumber, if_pos rfl, hchain, hrxSeq, Nat.mod_add_mod, List.length_cons,
        Nat.add_right_comm, Nat.add_assoc, List.map_cons, List.singleton_append]
    · cases hsend

theorem mbim_blocks_read_back_two :
    receiveAll twoSessions 2 65535
        [⟨ntb 65535 114 [0x45, 9], []⟩, ⟨ntb 0 113 [0x60], []⟩] =
      some ⟨[⟨1, 0x0800, [0x45, 9]⟩, ⟨0, 0x86DD, [0x60]⟩], 1, 0⟩ := by
  have hsend : sendAll twoSessions 65535
      [⟨1, zeros 28, ⟨[0x45, 9], []⟩⟩, ⟨0, zeros 30, ⟨[0x60], []⟩⟩] =
        some [⟨ntb 65535 114 [0x45, 9], []⟩, ⟨ntb 0 113 [0x60], []⟩] := by decide
  have hfits : ∀ p ∈ [Outgoing.mk 1 (zeros 28) ⟨[0x45, 9], []⟩, ⟨0, zeros 30, ⟨[0x60], []⟩⟩],
      Fits twoSessions p := by
    intro p hp
    simp only [List.mem_cons, List.not_mem_nil, or_false] at hp
    rcases hp with rfl | rfl
    · exact ⟨by decide, rfl, by decide, by decide, by decide⟩
    · exact ⟨by decide, rfl, by decide, by decide, by decide⟩
  exact mbim_blocks_read_back hsend hfits rfl (by decide) (by decide)

end RoundTrip

end MbimFrames
