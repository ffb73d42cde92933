import SbcImageBuild.MhiElement
import SbcImageBuild.MhiRing

/-!
# Transfers of a channel

One channel of the modem driver while three parties work on it: the client that queues buffers,
the event tasklet that releases them, and the device. A step is one access to the shared rings, so
that the parties interleave between any two of them. The client holds no lock while
`mhi_gen_tre` moves the write pointers.
-/
namespace MhiTransfer

open MhiElement MhiRing RingBuffer StepSystem

structure BufInfo where
  pAddr : ℕ
  vAddr : ℕ
  wp : ℕ
  len : ℕ
  cbBuf : ℕ
  deriving DecidableEq

/-- What a client passes to `mhi_queue_buf` or `mhi_queue_skb`, with the flags of its descriptor. -/
structure Request where
  vAddr : ℕ
  cbBuf : ℕ
  len : ℕ
  bei : Bool
  eot : Bool
  eob : Bool
  chain : Bool
  deriving DecidableEq

/-- The two entries that are written for a request. -/
structure Posted where
  info : BufInfo
  tre : Tre
  deriving DecidableEq

def Request.posted (q : Request) (pAddr wp : ℕ) : Posted :=
  ⟨⟨pAddr, q.vAddr, wp, q.len, q.cbBuf⟩, dataTre pAddr q.len q.bei q.eot q.eob q.chain⟩

/-- `struct mhi_result`. -/
structure Result where
  bufAddr : ℕ
  bytesXferd : ℕ
  transactionStatus : ℤ
  deriving DecidableEq

def eOverflow : ℤ := 75
def eNotConn : ℤ := 107

/-- Whether the driver is in M0, and whether a transition to M0 is under way that has not come to
this channel yet. The state may be left again before it does. -/
structure Pm where
  inM0 : Bool
  entering : Bool
  deriving DecidableEq

def Pm.m0 : Pm := ⟨true, false⟩

/-- How far the client's call has come. -/
inductive Producer where
  | idle
  | checked (q : Request)
  | filled (p : Posted)
  | treAdded (p : Posted)
  | bufAdded
  deriving DecidableEq

/-- How far the tasklet has come with an event: the position it works up to, and the outcome that
it reports. -/
inductive Consumer where
  | idle
  | loop (devRp len : ℕ) (status : ℤ)
  | bufReleased (devRp len : ℕ) (status : ℤ) (info : BufInfo)
  | treReleased (devRp len : ℕ) (status : ℤ) (info : BufInfo)
  deriving DecidableEq

/-- The last three fields record what has happened. -/
structure State where
  treRing : Ring
  bufRing : Ring
  tres : ℕ → Tre
  infos : ℕ → BufInfo
  ctxtWp : ℕ
  dbMode : Bool
  db : ℕ
  enabled : Bool
  pm : Pm
  producer : Producer
  consumer : Consumer
  events : List Tre
  stopped : Bool
  seen : List Tre
  reported : ℕ
  accepted : List Posted
  callbacks : List Result
  published : ℕ

/-- `mapSingle` is the mapping of a buffer for the device, which may fail. -/
structure Config where
  mapSingle : ℕ → ℕ → Option ℕ
  brstmode : Bool
  resetReq : Bool
  chan : ℕ

inductive Action where
  | check (q : Request)
  | fill
  | addTre
  | addBuf
  | ring
  | take
  | releaseBuf
  | releaseTre
  | notify
  | finish
  | fetch
  | report (count code len : ℕ)
  | reportDb (code : ℕ)
  | leaveM0
  | enterM0
  | ringM0
  | disable
  | stop
  | reset
  deriving DecidableEq

/-- The codes of a finished transfer. -/
def completes (code : ℕ) : Prop := code = evCcOverflow ∨ code = evCcEob ∨ code = evCcEot

instance (code : ℕ) : Decidable (completes code) :=
  inferInstanceAs (Decidable (_ ∨ _ ∨ _))

section Steps

variable (cfg : Config) (s : State)

def bufInfoSize : ℕ := 56

/-- The channel after `mhi_init_chan_ctxt`. -/
def initChanCtxt (treRing bufRing : Ring) (tres : ℕ → Tre) (infos : ℕ → BufInfo) (pm : Pm) :
    State where
  treRing := ({ treRing with elSize := treSize } : Ring).reset
  bufRing := ({ bufRing with elSize := bufInfoSize } : Ring).reset
  tres := tres
  infos := infos
  ctxtWp := treRing.iommuBase
  dbMode := true
  db := 0
  enabled := true
  pm := pm
  producer := .idle
  consumer := .idle
  events := []
  stopped := false
  seen := []
  reported := 0
  accepted := []
  callbacks := []
  published := 0

/-- With burst mode the register is written only when the device asked for it. -/
def processDb (db : ℕ) : State :=
  if cfg.brstmode then
    if s.dbMode then { s with db := db, dbMode := false } else s
  else { s with db := db }

/-- The device may read up to the write pointer. -/
def publish : State :=
  { s with ctxtWp := toPhysical s.treRing s.treRing.wp, published := s.accepted.length }

def ringChanDb : State := processDb cfg (publish s) (publish s).ctxtWp

def dbAccessValid : Bool := s.pm.inM0

/-- The call starts if the ring has room, else it returns without a trace. -/
def check (q : Request) : Option State :=
  match s.producer with
  | .idle => some (if isRingFull s.treRing then s else { s with producer := .checked q })
  | _ => none

def fill : Option State :=
  match s.producer with
  | .checked q =>
    match cfg.mapSingle q.vAddr q.len with
    | none => some { s with producer := .idle }
    | some pAddr =>
      let p := q.posted pAddr s.treRing.wp
      some
        { s with
          infos := Function.update s.infos s.bufRing.wp p.info
          tres := Function.update s.tres s.treRing.wp p.tre
          producer := .filled p }
  | _ => none

def addTre : Option State :=
  match s.producer with
  | .filled p =>
    some
      { s with
        treRing := addRingElement s.treRing
        accepted := s.accepted ++ [p]
        producer := .treAdded p }
  | _ => none

def addBuf : Option State :=
  match s.producer with
  | .treAdded _ => some { s with bufRing := addRingElement s.bufRing, producer := .bufAdded }
  | _ => none

def ringDb : Option State :=
  match s.producer with
  | .bufAdded =>
    some { (if dbAccessValid s then ringChanDb cfg s else s) with producer := .idle }
  | _ => none

/-- The position behind the descriptor that an event points to. -/
def evDevRp (event : Tre) : ℕ :=
  let evTre := toVirtual s.treRing (treGetEvPtr event) + treSize
  if s.treRing.base + s.treRing.len ≤ evTre then s.treRing.base else evTre

/-- The device asks for a doorbell. -/
def dbEvent : State :=
  let s := { s with dbMode := true }
  if s.treRing.wp ≠ s.treRing.rp ∧ dbAccessValid s then ringChanDb cfg s else s

/-- `parse_xfer_event` up to its loop. -/
def parseXferEvent (event : Tre) : State :=
  let code := treGetEvCode event
  if ¬ s.enabled then s
  else if completes code then
    { s with
      consumer := .loop (evDevRp s event) (treGetEvLen event)
        (if code = evCcOverflow then -eOverflow else 0) }
  else if code = evCcOob ∨ code = evCcDbMode then dbEvent cfg s
  else s

def take : Option State :=
  match s.consumer, s.events with
  | .idle, event :: events => some (parseXferEvent cfg { s with events := events } event)
  | _, _ => none

def releaseBuf : Option State :=
  match s.consumer with
  | .loop devRp len status =>
    if s.treRing.rp = devRp then none
    else
      some
        { s with
          bufRing := delRingElement s.bufRing
          consumer := .bufReleased devRp len status (s.infos s.bufRing.rp) }
  | _ => none

def releaseTre : Option State :=
  match s.consumer with
  | .bufReleased devRp len status info =>
    some
      { s with
        treRing := delRingElement s.treRing
        consumer := .treReleased devRp len status info }
  | _ => none

def notify : Option State :=
  match s.consumer with
  | .treReleased devRp len status info =>
    some
      { s with
        callbacks := s.callbacks ++ [⟨info.cbBuf, len, status⟩]
        consumer := .loop devRp len status }
  | _ => none

def finish : Option State :=
  match s.consumer with
  | .loop devRp _ _ => if s.treRing.rp = devRp then some { s with consumer := .idle } else none
  | _ => none

/-- The slot that the device is at. -/
def deviceRp (count : ℕ) : ℕ := s.treRing.bus (count % s.treRing.elements)

/-- The device reads the next descriptor, up to the write pointer of its context. -/
def fetch : Option State :=
  if s.stopped ∨ deviceRp s s.seen.length = s.ctxtWp then none
  else
    some { s with seen := s.seen ++ [s.tres (toVirtual s.treRing (deviceRp s s.seen.length))] }

def transferEvent (ptr len code : ℕ) : Tre :=
  TransferCompletion.toTre ⟨ptr, len, code, pktTypeTxEvent, cfg.chan⟩

/-- One event completes all descriptors up to the one it points to. -/
def report (count code len : ℕ) : Option State :=
  if s.reported < count ∧ count ≤ s.seen.length ∧ len < 2 ^ 16 ∧ completes code ∧
      ¬ s.stopped then
    some
      { s with
        events := s.events ++ [transferEvent cfg (deviceRp s (count - 1)) len code]
        reported := count }
  else none

def reportDb (code : ℕ) : Option State :=
  if (code = evCcOob ∨ code = evCcDbMode) ∧ ¬ s.stopped then
    some { s with events := s.events ++ [transferEvent cfg 0 0 code] }
  else none

/-- The part of the transition to M0 that is about this channel. -/
def ringM0 : Option State :=
  if s.pm.entering then
    let s := { s with dbMode := cfg.resetReq || s.dbMode }
    some
      { (if s.treRing.wp ≠ s.treRing.rp then ringChanDb cfg s else s) with
        pm := { s.pm with entering := false } }
  else none

/-- The tasklet holds the channel's lock over an event, and `__mhi_unprepare_channel` waits for
it. -/
def disable : Option State :=
  if s.enabled ∧ s.consumer = .idle then some { s with enabled := false } else none

/-- One round of the loop of `mhi_reset_data_chan`. That no client is putting a transfer in the ring
is a condition on the runs: the function does not ask for it. -/
def resetDataChan : Option State :=
  if s.stopped ∧ s.producer = .idle ∧ s.consumer = .idle ∧ s.treRing.rp ≠ s.treRing.wp then
    some
      { s with
        bufRing := delRingElement s.bufRing
        treRing := delRingElement s.treRing
        callbacks := s.callbacks ++ [⟨(s.infos s.bufRing.rp).cbBuf, 0, -eNotConn⟩] }
  else none

def step : Action → Option State
  | .check q => check s q
  | .fill => fill cfg s
  | .addTre => addTre s
  | .addBuf => addBuf s
  | .ring => ringDb cfg s
  | .take => take cfg s
  | .releaseBuf => releaseBuf s
  | .releaseTre => releaseTre s
  | .notify => notify s
  | .finish => finish s
  | .fetch => fetch s
  | .report count code len => report cfg s count code len
  | .reportDb code => reportDb cfg s code
  | .leaveM0 => some { s with pm := { s.pm with inM0 := false } }
  | .enterM0 => if s.pm.entering then none else some { s with pm := ⟨true, true⟩ }
  | .ringM0 => ringM0 cfg s
  | .disable => disable s
  | .stop => if s.enabled then none else some { s with stopped := true }
  | .reset => resetDataChan s

end Steps

/-- A channel of three slots, its buffers mapped to their own addresses. -/
def threeSlots : State :=
  initChanCtxt ⟨64, 4096, 0, 3, 0, 0⟩ ⟨512, 0, 0, 3, 0, 0⟩ (fun _ => ⟨0, 0, 0⟩)
    (fun _ => ⟨0, 0, 0, 0, 0⟩) .m0

def identityMapping : Config := ⟨fun vAddr _ => some vAddr, true, false, 100⟩

def queueOne : List Action :=
  [.check ⟨1000, 7, 5, true, true, false, false⟩, .fill, .addTre, .addBuf, .ring]

def returnOne : List Action :=
  [.fetch, .report 1 evCcEot 5, .take, .releaseBuf, .releaseTre, .notify, .finish]

end MhiTransfer
