import SbcImageBuild.Foundation.ByteStore
import SbcImageBuild.Foundation.Rotation
import SbcImageBuild.Foundation.StepSystem
import Mathlib.Data.Int.Notation
import Mathlib.Logic.Function.Basic

/-!
# The character device of a channel

The receiving side of a node of `mhi_uci.c` from its first open on. The transfer ring gives its
buffers back in the order they were queued, and the client knows them by that order. A step is a
stretch that the lock of the channel or the reader's mutex keeps together, so that the callbacks,
the device and one reader interleave between any two of them.
-/
namespace UciPipe

open ByteStore Rotation StepSystem

/-- An entry of `uci_buf`: the memory of its page and the length of the last transfer. -/
structure Trb where
  data : Bytes
  len : ℕ

/-- A buffer for readers: an entry of the array, or a private copy, which has no page. -/
inductive UciBuf where
  | trb (nrTrb : ℕ)
  | copy (data : Bytes)
  deriving DecidableEq

def UciBuf.page : UciBuf → Option ℕ
  | .trb nrTrb => some nrTrb
  | .copy _ => none

def data (trbs : ℕ → Trb) : UciBuf → Bytes
  | .trb nrTrb => (trbs nrTrb).data
  | .copy data => data

def len (trbs : ℕ → Trb) : UciBuf → ℕ
  | .trb nrTrb => (trbs nrTrb).len
  | .copy data => data.length

/-- How a read ends: with its bytes; with the number of bytes that could not be copied, as if that
many had been read; with an error although the bytes are consumed; or with an error. -/
inductive Reply where
  | data (bytes : Bytes)
  | uncopied (n : ℕ)
  | failed (bytes : Bytes) (error : ℤ)
  | error (error : ℤ)
  deriving DecidableEq

def Reply.taken : Reply → Bytes
  | .data bytes => bytes
  | .failed bytes _ => bytes
  | _ => []

/-- How far the read has come that holds the mutex. -/
inductive Reader where
  | idle
  | waiting (count : ℕ)
  | copying (count : ℕ)
  | copied (bytes : Bytes)
  deriving DecidableEq

def Reader.taken : Reader → Bytes
  | .copied bytes => bytes
  | _ => []

/-- The fields from `accepted` on record what has happened. The transfers that passed the check of
their address are numbered: `order` has the numbers of those that wait for readers, `recycled` of
those whose buffer made room for the one in front of it, `lost` of those whose buffer did not. -/
structure Node where
  trbs : ℕ → Trb
  nrTrb : ℕ
  ring : List ℕ
  pending : List UciBuf
  curBuf : Option UciBuf
  rxSize : ℕ
  rxError : ℕ
  enabled : Bool
  refCount : ℕ
  reader : Reader
  accepted : ℕ
  callbacks : ℕ
  order : List ℕ
  recycled : List ℕ
  lost : List ℕ
  received : List Bytes
  replies : List Reply

/-- `free` is what `mhi_get_no_free_descriptors` says of the empty ring. The channels DUN, QMI and
MBIM copy what they receive. -/
structure Config where
  mtu : ℕ
  free : ℕ
  copies : Bool

def Config.nrTrbs (cfg : Config) : ℕ := cfg.free + 1

def eIo : ℤ := 5
def eAgain : ℤ := 11
def eNoMem : ℤ := 12
def eInval : ℤ := 22
def eRestartSys : ℤ := 512

inductive Action where
  | dma (nrTrb : ℕ) (data : Bytes)
  | dlXferCb (notConn : Bool) (bytesXferd : ℕ) (allocated : Bool) (refusal : Option ℤ)
  | readStart (count : ℕ) (nonblock : Bool)
  | wake
  | interrupt
  | copyToUser (left : ℕ)
  | readFinish (refusal : Option ℤ)
  | openNode
  | release
  | remove
  deriving DecidableEq

section Steps

variable (cfg : Config) (s : Node)

/-- `mhi_queue_transfer`: the ring may be full, and the core may refuse for its own reasons. -/
def queueTransfer (nrTrb : ℕ) (refusal : Option ℤ) : Except ℤ Node :=
  match refusal with
  | some error => .error error
  | none =>
    if s.ring.length < cfg.free then .ok { s with ring := s.ring ++ [nrTrb] }
    else .error (-eNoMem)

/-- `mhi_queue_inbound` after the allocation. -/
def queueInbound (refusals : ℕ → Option ℤ) : Except ℤ Node :=
  (List.range cfg.free).foldlM (fun s i => queueTransfer cfg s i (refusals i)) s

/-- In place of the buffer that came back, the one in front of it is queued. -/
def recycle (nrTrb k : ℕ) (refusal : Option ℤ) : Node × Option ℤ :=
  let previous := if nrTrb ≠ 0 then nrTrb - 1 else cfg.nrTrbs - 1
  match queueTransfer cfg s previous refusal with
  | .ok t => ({ t with recycled := t.recycled ++ [k] }, none)
  | .error error => ({ s with lost := k :: s.lost }, some error)

def popBuf (ring : List ℕ) : Node := { s with ring := ring, callbacks := s.callbacks + 1 }

def advance : Node :=
  { s with
    nrTrb := if s.nrTrb + 1 = cfg.nrTrbs then 0 else s.nrTrb + 1
    accepted := s.accepted + 1 }

/-- Transfers that are dropped with their buffer. -/
def Dropped (notConn : Bool) (bytesXferd : ℕ) : Prop :=
  notConn = true ∨ bytesXferd > cfg.mtu ∨ bytesXferd = 0

instance (notConn : Bool) (bytesXferd : ℕ) : Decidable (Dropped cfg notConn bytesXferd) :=
  inferInstanceAs (Decidable (_ ∨ _ ∨ _))

def setLen (nrTrb bytesXferd : ℕ) : Node :=
  { s with trbs := Function.update s.trbs nrTrb ⟨(s.trbs nrTrb).data, bytesXferd⟩ }

def addTail (buf : UciBuf) (bytes : Bytes) : Node :=
  { s with pending := s.pending ++ [buf], received := s.received ++ [bytes] }

def addPage (nrTrb k bytesXferd : ℕ) : Node :=
  { addTail (setLen s nrTrb bytesXferd) (.trb nrTrb) ((s.trbs nrTrb).data.take bytesXferd) with
    order := s.order ++ [k] }

/-- The channel copies the transfer for its readers, if it has any, and queues at once. -/
def addCopy (nrTrb k bytesXferd : ℕ) (allocated : Bool) (refusal : Option ℤ) : Node :=
  let bytes := (s.trbs nrTrb).data.take bytesXferd
  let t := (recycle cfg (setLen s nrTrb bytesXferd) nrTrb k refusal).1
  if s.refCount ≠ 1 ∧ allocated then addTail t (.copy bytes) bytes else t

/-- `mhi_dl_xfer_cb` for the first buffer of the ring. -/
def dlXferCb (notConn : Bool) (bytesXferd : ℕ) (allocated : Bool) (refusal : Option ℤ) :
    Option Node :=
  match s.ring with
  | [] => none
  | nrTrb :: ring =>
    let k := s.accepted
    some
      (if nrTrb ≠ s.nrTrb then { popBuf s ring with rxError := s.rxError + 1 }
      else if Dropped cfg notConn bytesXferd then
        { advance cfg (popBuf s ring) with lost := k :: s.lost }
      else if cfg.copies then
        addCopy cfg (advance cfg (popBuf s ring)) nrTrb k bytesXferd allocated refusal
      else addPage (advance cfg (popBuf s ring)) nrTrb k bytesXferd)

def reply (r : Reply) : Node := { s with replies := s.replies ++ [r], reader := .idle }

/-- The current buffer, or else the first one that waits. -/
def takeBuf (count : ℕ) : Node :=
  match s.curBuf, s.pending with
  | some _, _ => { s with reader := .copying count }
  | none, [] => reply s (.error (-eIo))
  | none, buf :: pending =>
    { s with
      curBuf := some buf
      pending := pending
      rxSize := len s.trbs buf
      reader := .copying count }

def readStart (count : ℕ) (nonblock : Bool) : Option Node :=
  match s.reader with
  | .idle =>
    some
      (if s.rxError ≠ 0 then reply s (.error (-eInval))
        else if s.enabled = false then reply s (.error (-eRestartSys))
        else if s.curBuf = none ∧ s.pending = [] then
          if nonblock then reply s (.error (-eAgain)) else { s with reader := .waiting count }
        else takeBuf s count)
  | _ => none

def wake : Option Node :=
  match s.reader with
  | .waiting count =>
    if s.enabled = false then some (reply s (.error (-eRestartSys)))
    else if s.pending = [] then none
    else some (takeBuf s count)
  | _ => none

def interrupt : Option Node :=
  match s.reader with
  | .waiting _ => some (reply s (.error (-eRestartSys)))
  | _ => none

/-- The next bytes of a buffer. -/
def nextBytes (buf : UciBuf) (toCopy : ℕ) : Bytes :=
  ((data s.trbs buf).drop (len s.trbs buf - s.rxSize)).take toCopy

def consume (buf : UciBuf) (toCopy : ℕ) : Node :=
  if s.rxSize - toCopy = 0 then
    { s with rxSize := s.rxSize - toCopy, reader := .copied (nextBytes s buf toCopy) }
  else reply { s with rxSize := s.rxSize - toCopy } (.data (nextBytes s buf toCopy))

/-- `copy_to_user` returns the number of bytes that it could not copy. -/
def copyToUser (left : ℕ) : Option Node :=
  match s.reader, s.curBuf with
  | .copying count, some buf =>
    let toCopy := min count s.rxSize
    if toCopy < left then none
    else some (if left ≠ 0 then reply s (.uncopied left) else consume s buf toCopy)
  | _, _ => none

/-- The buffer is done with and goes back to the ring. Its number is the first that waits. -/
def giveBack (bytes : Bytes) (nrTrb k : ℕ) (refusal : Option ℤ) : Node :=
  if s.enabled then
    reply (recycle cfg s nrTrb k refusal).1
      ((recycle cfg s nrTrb k refusal).2.elim (.data bytes) (.failed bytes))
  else reply { s with lost := k :: s.lost } (.failed bytes (-eRestartSys))

def readFinish (refusal : Option ℤ) : Option Node :=
  match s.reader, s.curBuf with
  | .copied bytes, some (.trb nrTrb) =>
    some
      (giveBack cfg { s with curBuf := none, order := s.order.tail } bytes nrTrb
        (s.order.headD 0) refusal)
  | .copied bytes, some (.copy _) =>
    some
      (reply { s with curBuf := none }
        (if s.enabled then .data bytes else .failed bytes (-eRestartSys)))
  | _, _ => none

def openNode : Node := if s.enabled then { s with refCount := s.refCount + 1 } else s

/-- A client closes the node. The reference of the node itself and that of a reader stay. -/
def release : Option Node :=
  if (if s.enabled then 1 else 0) + (if s.reader = .idle then 0 else 1) < s.refCount then
    some { s with refCount := s.refCount - 1 }
  else none

def remove : Option Node :=
  if s.enabled then some { s with enabled := false, refCount := s.refCount - 1 } else none

/-- Without references the node is freed, with its buffers. -/
def step : Action → Option Node
  | .dma nrTrb data =>
    if nrTrb ∈ s.ring ∧ data.length = cfg.mtu then
      some { s with trbs := Function.update s.trbs nrTrb ⟨data, (s.trbs nrTrb).len⟩ }
    else none
  | .dlXferCb notConn bytesXferd allocated refusal =>
    if s.refCount = 0 then none else dlXferCb cfg s notConn bytesXferd allocated refusal
  | .readStart count nonblock => if s.refCount = 0 then none else readStart s count nonblock
  | .wake => wake s
  | .interrupt => interrupt s
  | .copyToUser left => copyToUser s left
  | .readFinish refusal => readFinish cfg s refusal
  | .openNode => if s.refCount = 0 then none else some (openNode s)
  | .release => release s
  | .remove => remove s

/-- The node after its first open, which holds a reference of its own besides that of the
client. All buffers are in the ring: runs in which a callback comes before the open has queued them
are left out. -/
def opened (trbs : ℕ → Trb) : Node where
  trbs := trbs
  nrTrb := 0
  ring := List.range cfg.free
  pending := []
  curBuf := none
  rxSize := 0
  rxError := 0
  enabled := true
  refCount := 2
  reader := .idle
  accepted := 0
  callbacks := 0
  order := []
  recycled := []
  lost := []
  received := []
  replies := []

end Steps

/-- A channel of two buffers besides the spare one, which hands its pages on. -/
def twoBuffers : Config := ⟨4, 2, false⟩

def zeroTrbs : ℕ → Trb := fun _ => ⟨[0, 0, 0, 0], 0⟩

/-- A transfer of three bytes that is read in two goes. -/
def readTwice : List Action :=
  [.dma 0 [1, 2, 3, 4], .dlXferCb false 3 true none, .readStart 2 false, .copyToUser 0,
    .readStart 8 false, .copyToUser 0, .readFinish none]

/-- An empty transfer, one that is read, and one more. -/
def emptyFirst : List Action :=
  [.dlXferCb false 0 true none, .dma 1 [1, 2, 3, 4], .dlXferCb false 4 true none,
    .readStart 4 false, .copyToUser 0, .readFinish none, .dlXferCb false 4 true none]

end UciPipe
