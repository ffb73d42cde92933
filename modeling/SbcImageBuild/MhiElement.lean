import SbcImageBuild.Foundation.BitFields

/-!
# Ring elements of the modem driver

The words of `struct mhi_tre` as the host's macros put them together and take them apart, and the
bit-field structures of `mhi_internal.h` that describe the same elements for the device.
-/
namespace MhiElement

open BitFields

structure Tre where
  ptr : ℕ
  dword0 : ℕ
  dword1 : ℕ
  deriving DecidableEq

def u32 (w : ℕ) : ℕ := w % 2 ^ 32

def u64 (w : ℕ) : ℕ := w % 2 ^ 64

inductive MhiFlags where
  | eob
  | eot
  | chain
  deriving DecidableEq

/-- The values that C gives to the enumerators. -/
def MhiFlags.toNat : MhiFlags → ℕ
  | .eob => 0
  | .eot => 1
  | .chain => 2

inductive MhiCmdType where
  | nop
  | reset
  | stop
  | start
  | tsync
  deriving DecidableEq

def MhiCmdType.toNat : MhiCmdType → ℕ
  | .nop => 1
  | .reset => 16
  | .stop => 17
  | .start => 18
  | .tsync => 24

def pktTypeTransfer : ℕ := 0x2
def pktTypeCoalescing : ℕ := 0x8
def pktTypeTxEvent : ℕ := 0x22
def pktTypeRscTxEvent : ℕ := 0x28
def pktTypeStaleEvent : ℕ := 0x49

def evCcEot : ℕ := 0x2
def evCcOverflow : ℕ := 0x3
def evCcEob : ℕ := 0x4
def evCcOob : ℕ := 0x5
def evCcDbMode : ℕ := 0x6

def mhiMaxMtu : ℕ := 0xffff

def treDataDword0 (len : ℕ) : ℕ := len &&& mhiMaxMtu

def treDataDword1 (bei ieot ieob chain : Bool) : ℕ :=
  pktTypeTransfer <<< 16 ||| bei.toNat <<< 10 ||| ieot.toNat <<< 9 ||| ieob.toNat <<< 8 |||
    chain.toNat

def rsctreDataPtr (ptr len : ℕ) : ℕ := u64 (len <<< 48) ||| ptr

def treCmdDword1 (chid : ℕ) (cmd : MhiCmdType) : ℕ := u32 (chid <<< 24) ||| cmd.toNat <<< 16

def treEvDword1 (chid type : ℕ) : ℕ := u32 (chid <<< 24) ||| type <<< 16

def treGetCmdChid (tre : Tre) : ℕ := field 24 8 tre.dword1
def treGetCmdType (tre : Tre) : ℕ := field 16 8 tre.dword1
def treGetEvPtr (tre : Tre) : ℕ := tre.ptr
def treGetEvCode (tre : Tre) : ℕ := field 24 8 tre.dword0
def treGetEvLen (tre : Tre) : ℕ := field 0 16 tre.dword0
def treGetEvChid (tre : Tre) : ℕ := field 24 8 tre.dword1
def treGetEvType (tre : Tre) : ℕ := field 16 8 tre.dword1

/-- The descriptor of a mapped buffer. -/
def dataTre (pAddr len : ℕ) (bei ieot ieob chain : Bool) : Tre :=
  ⟨pAddr, treDataDword0 len, treDataDword1 bei ieot ieob chain⟩

/-- The flag words of `mhi_gen_tre`. Every flag is a mask of one enumerator, the one of `MHI_EOB`
empty. -/
def genTreFlags (pAddr len : ℕ) (intmod : Bool) (flags : MhiFlags) : Tre :=
  let eob := decide (flags.toNat &&& MhiFlags.eob.toNat ≠ 0)
  let eot := decide (flags.toNat &&& MhiFlags.eot.toNat ≠ 0)
  let chain := decide (flags.toNat &&& MhiFlags.chain.toNat ≠ 0)
  dataTre pAddr len intmod eot eob chain

/-- `cookie` is the offset of the buffer in its ring. -/
def rscTre (pAddr len cookie : ℕ) : Tre :=
  ⟨rsctreDataPtr pAddr len, cookie, pktTypeCoalescing <<< 16⟩

def cmdTre (chid : ℕ) (cmd : MhiCmdType) : Tre := ⟨0, 0, treCmdDword1 chid cmd⟩

structure TransferRingElement where
  dataBufPtr : ℕ
  len : ℕ
  chain : ℕ
  ieob : ℕ
  ieot : ℕ
  bei : ℕ
  type : ℕ
  deriving DecidableEq

/-- `struct mhi_dev_transfer_ring_element` over the same words. -/
def TransferRingElement.ofTre (tre : Tre) : TransferRingElement where
  dataBufPtr := tre.ptr
  len := field 0 16 tre.dword0
  chain := field 0 1 tre.dword1
  ieob := field 8 1 tre.dword1
  ieot := field 9 1 tre.dword1
  bei := field 10 1 tre.dword1
  type := field 16 8 tre.dword1

structure TransferCompletion where
  ptr : ℕ
  len : ℕ
  code : ℕ
  type : ℕ
  chid : ℕ
  deriving DecidableEq

/-- `struct mhi_dev_event_ring_transfer_completion`, its fields as wide as the structure says. -/
structure TransferCompletion.Fits (e : TransferCompletion) : Prop where
  len : e.len < 2 ^ 16
  code : e.code < 2 ^ 8
  type : e.type < 2 ^ 8
  chid : e.chid < 2 ^ 8

/-- The words of an event that the device writes. -/
def TransferCompletion.toTre (e : TransferCompletion) : Tre :=
  ⟨e.ptr, e.code <<< 24 ||| e.len, e.chid <<< 24 ||| e.type <<< 16⟩

theorem treDataDword0_eq (len : ℕ) : treDataDword0 len = len % 2 ^ 16 :=
  Nat.and_two_pow_sub_one_eq_mod len 16

theorem treDataDword0_lt (len : ℕ) : treDataDword0 len < 2 ^ 16 := by
  rw [treDataDword0_eq]
  exact Nat.mod_lt len (by decide)

theorem cmd_lt (cmd : MhiCmdType) : cmd.toNat < 2 ^ 8 := by
  cases cmd <;> decide

/-- What lies above a field and below it does not disturb it. -/
theorem field_chid {chid low : ℕ} (h : low < 2 ^ 8) :
    field 24 8 (u32 (chid <<< 24) ||| low <<< 16) = chid % 2 ^ 8 := by
  rw [field_or, u32, field_mod _ (by decide), field_shiftLeft_self,
    field_shiftLeft_below h (by decide), Nat.or_zero]

theorem field_type {chid low : ℕ} (h : low < 2 ^ 8) :
    field 16 8 (u32 (chid <<< 24) ||| low <<< 16) = low := by
  rw [field_or, u32, field_mod _ (by decide), field_shiftLeft_above chid (by decide),
    field_shiftLeft_of_lt h, Nat.zero_or]

/-- No flag of a data descriptor covers another one or the type. -/
theorem treDataDword1_read (bei ieot ieob chain : Bool) :
    field 0 1 (treDataDword1 bei ieot ieob chain) = chain.toNat ∧
      field 8 1 (treDataDword1 bei ieot ieob chain) = ieob.toNat ∧
      field 9 1 (treDataDword1 bei ieot ieob chain) = ieot.toNat ∧
      field 10 1 (treDataDword1 bei ieot ieob chain) = bei.toNat ∧
      field 16 8 (treDataDword1 bei ieot ieob chain) = pktTypeTransfer := by
  revert bei ieot ieob chain
  decide

/-- The device finds in a data descriptor what the host put there, the length cut to 16 bits. -/
theorem ofTre_dataTre (pAddr len : ℕ) (bei ieot ieob chain : Bool) :
    TransferRingElement.ofTre (dataTre pAddr len bei ieot ieob chain) =
      ⟨pAddr, len % 2 ^ 16, chain.toNat, ieob.toNat, ieot.toNat, bei.toNat, pktTypeTransfer⟩ := by
  have hlen := field_zero_of_lt (treDataDword0_lt len)
  rw [treDataDword0_eq] at hlen
  obtain ⟨hchain, hieob, hieot, hbei, htype⟩ := treDataDword1_read bei ieot ieob chain
  simp only [TransferRingElement.ofTre, dataTre, treDataDword0_eq, hlen, hchain, hieob, hieot, hbei,
    htype]

/-- The words of the flags: only one bit of each is set, and the bit of a buffer's end never. -/
theorem ofTre_genTreFlags (pAddr len : ℕ) (intmod : Bool) (flags : MhiFlags) :
    TransferRingElement.ofTre (genTreFlags pAddr len intmod flags) =
      ⟨pAddr, len % 2 ^ 16, if flags = .chain then 1 else 0, 0, if flags = .eot then 1 else 0,
        intmod.toNat, pktTypeTransfer⟩ := by
  rw [genTreFlags, ofTre_dataTre]
  cases flags <;> rfl

/-- A command word holds its channel, cut to 8 bits, and its type. -/
theorem cmdTre_read (chid : ℕ) (cmd : MhiCmdType) :
    treGetCmdChid (cmdTre chid cmd) = chid % 2 ^ 8 ∧
      treGetCmdType (cmdTre chid cmd) = cmd.toNat :=
  ⟨field_chid (cmd_lt cmd), field_type (cmd_lt cmd)⟩

/-- The address and the length of a coalescing descriptor share a word. -/
theorem rscTre_read {pAddr : ℕ} (len cookie : ℕ) (h : pAddr < 2 ^ 48) :
    field 0 48 (rscTre pAddr len cookie).ptr = pAddr ∧
      field 48 16 (rscTre pAddr len cookie).ptr = len % 2 ^ 16 := by
  constructor
  · rw [rscTre, rsctreDataPtr, field_or, u64, field_mod _ (by decide),
      field_shiftLeft_above len (by decide), field_zero_of_lt h, Nat.zero_or]
  · rw [rscTre, rsctreDataPtr, field_or, u64, field_mod _ (by decide), field_shiftLeft_self,
      field_of_lt h (by decide), Nat.or_zero]

theorem treGetEvLen_toTre {e : TransferCompletion} (hlen : e.len < 2 ^ 16) :
    treGetEvLen e.toTre = e.len := by
  rw [treGetEvLen, TransferCompletion.toTre, field_or, field_shiftLeft_above e.code (by decide),
    field_zero_of_lt hlen, Nat.zero_or]

theorem treGetEvCode_toTre {e : TransferCompletion} (hcode : e.code < 2 ^ 8)
    (hlen : e.len < 2 ^ 16) : treGetEvCode e.toTre = e.code := by
  rw [treGetEvCode, TransferCompletion.toTre, field_or, field_shiftLeft_of_lt hcode,
    field_of_lt hlen (by decide), Nat.or_zero]

/-- The host reads from an event what the device put there. -/
theorem toTre_read {e : TransferCompletion} (fits : e.Fits) :
    (treGetEvPtr e.toTre, treGetEvLen e.toTre, treGetEvCode e.toTre, treGetEvType e.toTre,
      treGetEvChid e.toTre) = (e.ptr, e.len, e.code, e.type, e.chid) := by
  have htype : treGetEvType e.toTre = e.type := by
    rw [treGetEvType, TransferCompletion.toTre, field_or,
      field_shiftLeft_above e.chid (by decide), field_shiftLeft_of_lt fits.type, Nat.zero_or]
  have hchid : treGetEvChid e.toTre = e.chid := by
    rw [treGetEvChid, TransferCompletion.toTre, field_or, field_shiftLeft_of_lt fits.chid,
      field_shiftLeft_below fits.type (by decide), Nat.or_zero]
  rw [treGetEvLen_toTre fits.len, treGetEvCode_toTre fits.code fits.len, htype, hchid]
  rfl

/-- The two descriptions of the elements agree: what either side writes, the other side reads. -/
theorem elements_read_back :
    (∀ pAddr len intmod flags,
      TransferRingElement.ofTre (genTreFlags pAddr len intmod flags) =
        ⟨pAddr, len % 2 ^ 16, if flags = .chain then 1 else 0, 0, if flags = .eot then 1 else 0,
          intmod.toNat, pktTypeTransfer⟩) ∧
    (∀ pAddr len cookie, pAddr < 2 ^ 48 →
      field 0 48 (rscTre pAddr len cookie).ptr = pAddr ∧
        field 48 16 (rscTre pAddr len cookie).ptr = len % 2 ^ 16) ∧
    (∀ chid cmd, treGetCmdChid (cmdTre chid cmd) = chid % 2 ^ 8 ∧
      treGetCmdType (cmdTre chid cmd) = cmd.toNat) ∧
    (∀ e : TransferCompletion, e.Fits →
      (treGetEvPtr e.toTre, treGetEvLen e.toTre, treGetEvCode e.toTre, treGetEvType e.toTre,
        treGetEvChid e.toTre) = (e.ptr, e.len, e.code, e.type, e.chid)) :=
  ⟨ofTre_genTreFlags, fun _ len cookie h => rscTre_read len cookie h, cmdTre_read,
    fun _ fits => toTre_read fits⟩

theorem elements_read_back_at :
    (field 0 48 (rscTre 0x1000 1500 64).ptr = 0x1000 ∧
        field 48 16 (rscTre 0x1000 1500 64).ptr = 1500 % 2 ^ 16) ∧
      treGetEvLen (TransferCompletion.toTre ⟨0x1000, 1500, evCcEot, pktTypeTxEvent, 101⟩) = 1500 :=
  ⟨elements_read_back.2.1 0x1000 1500 64 (by decide),
    congrArg (fun r => r.2.1) (elements_read_back.2.2.2
      ⟨0x1000, 1500, evCcEot, pktTypeTxEvent, 101⟩
      ⟨by decide, by decide, by decide, by decide⟩)⟩

end MhiElement
