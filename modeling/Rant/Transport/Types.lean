import Mathlib.Algebra.Order.Ring.Int
/-!
# The transport's data model

The records of `src/transport/internal.h`, field by field and in the source's
words, as plain values. Three choices run through the whole model:

- A seqno, a size and a clock reading is a `Nat`. Where the source's width
  matters the truncation is written out (`u64Sub`, `% 65536`); a topic that
  commits `2^64` fragments is out of scope.
- A buffer is the list of its bytes, so its allocated size is its length. Bytes
  beyond a message are whatever they were, as in the source: a buffer that
  grows keeps its old bytes and gets arbitrary new ones (`Alloc`).
- A call-out (the sink, an event, the scheduler) is an `Effect` in the order it
  was made, and the answer of a call-out is a parameter of the step. What the
  scheduler does with a wake or a deadline is not a lane's business.

The build modelled is the one with shared memory (`RANT_SHM`).
-/

namespace Rant.Transport

/-- A byte string. -/
abbrev Bytes := List UInt8

/-! ## Constants -/

/-- `RANT_NACK_WINDOW`: seqnos covered by one ACKNACK bitmap. -/
def nackWindow : Nat := 32

/-- `RANT_ACK_DELAY_US`: how long an in order delivery's ack coalesces. -/
def ackDelayUs : Nat := 1000

/-- `RANT_RTT_PROBE_US`: past the warm up a lane times a round trip this often. -/
def rttProbeUs : Nat := 50000

/-- `RANT_RTT_WARM_PROBES`: a new lane's first probes run back to back. -/
def rttWarmProbes : Nat := 16

/-- `RANT_SHM_MAX_RETRY`: an unresolvable descriptor is skipped after this many tries. -/
def shmMaxRetry : Nat := 8

/-- `RANT_QOS_DEF_REPAIR_US`: the repair delay before a round trip was measured. -/
def defRepairUs : Nat := 50000

/-- `RANT_RTO_MIN_US`: the retransmit bound's floor. -/
def rtoMinUs : Nat := 2000

/-- `RANT_RTO_GRAIN_US`: the deviation term never counts less. -/
def rtoGrainUs : Nat := 1000

/-- `RANT_HB_TAIL_US`: the tail heartbeat before the peer's round trip is known. -/
def hbTailUs : Nat := 20000

/-- `RANT_HEADER_DATA_SINGLE`. -/
def headerDataSingle : Nat := 13

/-- `RANT_HEADER_DATA_MULTI`. -/
def headerDataMulti : Nat := 21

/-- `RANT_HEADER_HB`. -/
def headerHb : Nat := 23

/-- `RANT_HEADER_NACK`. -/
def headerNack : Nat := 21

/-- `RANT_SHM_DESC_BYTES`. -/
def shmDescBytes : Nat := 24

/-- `RANT_SHM_DATA_BYTES`: the descriptor's offset plus the descriptor. -/
def shmDataBytes : Nat := 13 + shmDescBytes

/-- `RANT_TIMESTAMP_BYTES`: the source stamp in front of a stamped topic's samples. -/
def timestampBytes : Nat := 8

/-- `RANT_CAPTURE_BYTES`: the capture slot, when the sender gave one. -/
def captureBytes : Nat := 8

/-- Unsigned 64 bit subtraction. -/
def u64Sub (a b : Nat) : Nat := if b ≤ a then a - b else a + 2 ^ 64 - b

/-- Unsigned 64 bit increment. -/
def u64Succ (a : Nat) : Nat := if a + 1 = 2 ^ 64 then 0 else a + 1

/-! ## Topics -/

/-- `RantReliability`. -/
inductive Reliability
  | bestEffort
  | reliable
  deriving Repr, DecidableEq

/-- `RantRole`. -/
inductive Role
  | pubSub
  | pubOnly
  | subOnly
  | inactive
  deriving Repr, DecidableEq

/-- `i_rant_role_pubs`. -/
def Role.pubs : Role → Bool
  | .pubSub | .pubOnly => true
  | .subOnly | .inactive => false

/-- `i_rant_role_subs`. -/
def Role.subs : Role → Bool
  | .pubSub | .subOnly => true
  | .pubOnly | .inactive => false

/-- `i_RantTopicKind`: what a topic carries, and so which topics it may match. -/
inductive TopicKind
  | topic
  | funcReq
  | funcRsp
  | variable
  | varSet
  | taskReq
  | taskPrg
  | taskRsp
  | callObs
  deriving Repr, DecidableEq

/-- The kind's number in an interest entry's flags. -/
def TopicKind.code : TopicKind → Nat
  | .topic => 0
  | .funcReq => 1
  | .funcRsp => 2
  | .variable => 3
  | .varSet => 4
  | .taskReq => 5
  | .taskPrg => 6
  | .taskRsp => 7
  | .callObs => 8

/-- `i_rant_kind_is_request`. -/
def TopicKind.isRequest : TopicKind → Bool
  | .funcReq | .taskReq => true
  | _ => false

/-- The fields of `RantQos` the transport reads. -/
structure Qos where
  reliability : Reliability
  keepLast : Nat
  catchUp : Nat
  heartbeatUs : Nat
  repairDelayUs : Nat
  maxRateHz : Nat
  noTimestamp : Bool
  deriving Repr, DecidableEq

/-- `RantRepairStats`. -/
structure RepairStats where
  nacksRecv : Nat := 0
  fragsResent : Nat := 0
  fragsSent : Nat := 0
  nacksSent : Nat := 0
  fragsRecv : Nat := 0
  fragsDup : Nat := 0
  msgsSkipped : Nat := 0
  armsData : Nat := 0
  armsHb : Nat := 0
  fragsOld : Nat := 0
  fragsAhead : Nat := 0
  fragsMalformed : Nat := 0
  deriving Repr, DecidableEq

/-- A sample's destination: every matched lane (`RANT__DEST_ALL`), nobody
(`RANT__DEST_NONE`), or a peer slot. -/
inductive Dest
  | all
  | none
  | slot (p : Nat)
  deriving Repr, DecidableEq

/-- Whether a sample is for the lane of peer slot `p`: the source's
`dest == ALL || dest == peer_slot`. -/
abbrev Dest.admits (d : Dest) (p : Nat) : Prop := d = .all ∨ d = .slot p

/-- `i_RantWriterSample`: one history slot. `cap` is `buf.length`. -/
structure WriterSample where
  base : Nat
  buf : Bytes
  shmBuf : Bytes
  len : Nat
  dest : Dest
  count : Nat
  valid : Bool
  shm : Bool
  desc : Bytes
  deriving Repr, DecidableEq

/-- A history slot never written. -/
def WriterSample.empty : WriterSample where
  base := 0
  buf := []
  shmBuf := []
  len := 0
  dest := .all
  count := 0
  valid := false
  shm := false
  desc := []

instance : Inhabited WriterSample := ⟨.empty⟩

/-- `i_rant_sample_buf`: where a sample's bytes live. -/
def WriterSample.sampleBuf (s : WriterSample) : Bytes := if s.shm then s.shmBuf else s.buf

/-- `i_RantTopic`. `laneChain` is the chain from `lane_head` along `topic_next`,
as the peer slots of its records, newest first. -/
structure Topic where
  qos : Qos
  identity : Nat
  name : Bytes
  role : Role
  kind : TopicKind
  attrs : Nat
  prefixBytes : Nat
  directed : Bool
  retired : Bool
  gen : Nat
  rebindVersion : Nat
  sib : Option Nat
  history : List WriterSample
  historyHead : Nat
  nextSeqno : Nat
  firstSeqno : Nat
  freshFrom : Nat
  haveFirst : Bool
  fresh : Bool
  matchedWriters : Nat
  matchedReaders : Nat
  laneChain : List Nat
  repairStats : RepairStats
  historyOwned : Bool := false
  deriving Repr, DecidableEq

/-- The history slot `i`. -/
def Topic.slotAt (t : Topic) (i : Nat) : WriterSample := t.history.getD i .empty

/-- Whether the topic is reliable. -/
abbrev Topic.reliable (t : Topic) : Prop := t.qos.reliability = .reliable

/-- `i_rant_topic_ts_bytes`: the stamp bytes in front of this topic's samples. -/
def Topic.tsBytes (t : Topic) : Nat := if t.qos.noTimestamp then 0 else timestampBytes

/-- `i_rant_topic_stamp_bytes`: the whole stamp prefix. -/
def Topic.stampBytes (t : Topic) (captureUs : Nat) : Nat :=
  if t.tsBytes ≠ 0 ∧ captureUs ≠ 0 then t.tsBytes + captureBytes else t.tsBytes

/-- `i_rant_topic_retains_history`: only a reliable topic with catch_up replays
history to a late joiner. -/
abbrev Topic.retainsHistory (t : Topic) : Prop := t.reliable ∧ 0 < t.qos.catchUp

/-! ## Lanes -/

/-- `i_RantPeerRtt`. -/
structure PeerRtt where
  rttUs : Nat := 0
  jitterUs : Nat := 0
  minUs : Nat := 0
  lastUs : Nat := 0
  samples : Nat := 0
  deriving Repr, DecidableEq

/-- `i_RantWriterProxy`: the writer side of a (topic, peer) lane. -/
structure WriterProxy where
  sentUpto : Nat := 0
  ackedUpto : Nat := 0
  nackBase : Nat := 0
  hbNextUs : Nat := 0
  wireSkip : Nat := 0
  rateNextUs : Nat := 0
  rateIntervalUs : Nat := 0
  nackBits : BitVec 32 := 0#32
  hbCount : Nat := 0
  readerEpoch : Nat := 0
  used : Bool := false
  readerReliable : Bool := false
  hasNack : Bool := false
  skipHb : Bool := false
  rttProbe : Bool := false
  rttProbeSeq : Nat := 0
  rttProbeUs : Nat := 0
  probeNextUs : Nat := 0
  pushed : Nat := 0
  probes : Nat := 0
  deriving Repr, DecidableEq

/-- `i_RantAssembly`: one sample's reassembly state. `cap` is `buf.length`. -/
structure Assembly where
  buf : Bytes := []
  bitmap : Nat → Bool := fun _ => false
  base : Nat := 0
  len : Nat := 0
  bitmapCap : Nat := 0
  count : Nat := 0
  low : Nat := 0
  active : Bool := false

/-- `i_RantReaderProxy`: the reader side of a (topic, peer) lane. -/
structure ReaderProxy where
  deliverUpto : Nat := 0
  hbLast : Nat := 0
  receivedHigh : Nat := 0
  nackHigh : Nat := 0
  nackRetransmitUs : Nat := 0
  ackDueUs : Nat := 0
  cur : Assembly := {}
  next : Assembly := {}
  epoch : Nat := 0
  used : Bool := false
  noTimestamp : Bool := false
  started : Bool := false
  ackForce : Bool := false
  ackPending : Bool := false
  ackReq : Bool := false
  parked : Bool := false
  lapped : Bool := false
  rttProbe : Bool := false
  rttProbeSeq : Nat := 0
  rttProbeUs : Nat := 0
  parkedShm : Bool := false
  shmFail : Nat := 0

/-! ## Submessages -/

/-- A DATA submessage after the header is read. The single fragment form omits
`frag`, `count` and the sample length, so there they are 0, 1 and the payload's. -/
structure DataMsg where
  seqno : Nat
  frag : Nat
  count : Nat
  sampleLen : Nat
  payload : Bytes
  ackReq : Bool
  deriving Repr, DecidableEq

/-- An SHM-DATA submessage: a descriptor that covers `[base, base + count)`. -/
structure ShmMsg where
  base : Nat
  count : Nat
  desc : Bytes
  ackReq : Bool
  deriving Repr, DecidableEq

/-- A heartbeat: the floor, the head and a counter. -/
structure HbMsg where
  first : Nat
  last : Nat
  count : Nat
  deriving Repr, DecidableEq

/-- An ACKNACK. -/
structure NackMsg where
  base : Nat
  nbits : Nat
  bitmap : BitVec 32
  epoch : Nat
  unpos : Bool
  deriving Repr, DecidableEq

/-- The submessages a writer lane sends. -/
inductive Submsg
  | data (m : DataMsg)
  | shm (m : ShmMsg)
  | hb (m : HbMsg)
  deriving Repr, DecidableEq

/-- What a lane asked of the code around it, in order. `base` and `count` of the
sink calls and of the too-big event are ghost: the source passes the bytes, the
descriptor or the size alone, and the model notes which seqnos they stand for. -/
inductive Effect
  /-- `i_rant_lane_wake` of this lane. -/
  | wake
  /-- `i_rant_transport_arm_deadline`. -/
  | arm (t : Nat)
  /-- A `RANT_MSG_LOST` event. -/
  | lost (first count : Nat)
  /-- A `RANT_E_MSG_TOO_BIG` error event. -/
  | tooBig (base count bytes : Nat)
  /-- An `on_message` call and whether it refused. -/
  | message (base count : Nat) (bytes : Bytes) (refused : Bool)
  /-- An `on_shm` call and its answer: positive delivered, 0 unresolvable, negative refused. -/
  | shm (base count : Nat) (desc : Bytes) (ok : Int)
  deriving Repr, DecidableEq

/-- One call's answers of the buffer allocator, and the bytes fresh memory holds. -/
structure Alloc where
  bufOk : Bool := true
  bitmapOk : Bool := true
  junk : Nat → UInt8 := fun _ => 0
  junkBits : Nat → Bool := fun _ => false

/-- The answers of the sink callbacks, which may depend on everything the step
did before the call. -/
structure Sink where
  refuses : List Effect → Bytes → Bool := fun _ _ => false
  onShm : List Effect → Bytes → Int := fun _ _ => 1

/-! ## The round trip estimator -/

/-- `i_rant_rtt_sample`: fold one sample into the estimate. -/
def rttSample (e : PeerRtt) (sampleUs : Nat) : PeerRtt :=
  let r := min sampleUs 0xFFFFFFFF
  let e' :=
    if e.samples = 0 then { e with rttUs := r, jitterUs := r / 2, minUs := r }
    else
      let diff := if r < e.rttUs then e.rttUs - r else r - e.rttUs
      { e with
        jitterUs := (3 * e.jitterUs + diff) / 4
        rttUs := (7 * e.rttUs + r) / 8
        minUs := if r < e.minUs then r else e.minUs }
  { e' with
    lastUs := r
    samples := if e.samples ≠ 0xFFFFFFFF then e.samples + 1 else e.samples }

/-- `i_rant_rtt_rto`: the retransmit bound the estimate implies. -/
def rttRto (e : PeerRtt) (fallbackUs : Nat) : Nat :=
  if e.samples = 0 then fallbackUs
  else min (max (e.rttUs + max (4 * e.jitterUs) rtoGrainUs) rtoMinUs) 0xFFFFFFFF

end Rant.Transport
