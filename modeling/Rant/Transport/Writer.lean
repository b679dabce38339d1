import Rant.Lib.Fragment
import Rant.Lib.Ring
import Rant.Transport.Types
/-!
# The writer path

`src/transport/writer.c`: the history ring, the send, the per lane emit and the
ACKNACK handling. A function of a lane takes the topic it reads, and a
`WriterSide` with everything it may write: the lane's writer proxy, the topic's
repair counters, the peer's round trip estimate and the effects so far.

The two `while` loops of `laneAdvance` run on a fuel of the ring's depth: each
turn moves the cursor past one cached sample.
-/

namespace Rant.Transport

open Rant.Lib.Ring (back)
open Rant.Lib.Fragment (writeAt)

/-! ## History -/

/-- The search loop of `i_rant_sample_find`, `k` slots from `i` on. -/
def sampleFindFrom (t : Topic) (seqno : Nat) : Nat → Nat → Option WriterSample
  | 0, _ => none
  | k + 1, i =>
    let j := back t.qos.keepLast i
    let s := t.slotAt j
    if !s.valid then none                     -- the unwritten tail
    else if s.base ≤ seqno then (if seqno < s.base + s.count then some s else none)
    else sampleFindFrom t seqno k j

/-- `i_rant_sample_find`: the cached sample that holds `seqno`, newest first. -/
def sampleFind (t : Topic) (seqno : Nat) : Option WriterSample :=
  sampleFindFrom t seqno t.qos.keepLast t.historyHead

/-- The fragments of a sample of `len` bytes, as `i_rant_writer_seal` counts them. -/
def fragCount (frag len : Nat) : Nat :=
  let count := (len + frag - 1) / frag % 65536
  if count = 0 then 1 else count

/-- `i_rant_writer_seal`: the filled head slot becomes the newest sample. -/
def writerSeal (frag : Nat) (t : Topic) (len : Nat) (dest : Dest) : Topic :=
  let count := fragCount frag len
  let slot := { t.slotAt t.historyHead with
    valid := true, base := t.nextSeqno, count := count, len := len % 2 ^ 32, dest := dest }
  let history := t.history.set t.historyHead slot
  let head := (t.historyHead + 1) % t.qos.keepLast
  -- oldest cached: where the head points once wrapped, else slot 0
  let oldest := if (history.getD head .empty).valid then history.getD head .empty
    else history.getD 0 .empty
  { t with
    history := history, historyHead := head, nextSeqno := t.nextSeqno + count
    firstSeqno := oldest.base, haveFirst := true }

/-! ## Sending -/

/-- The codes a send returns. -/
inductive SendErr
  | noTopic
  | tooBig
  | role
  | oom
  deriving Repr, DecidableEq

/-- `i_rant_writer_too_big`: the 65535 fragment cap. -/
abbrev writerTooBig (frag len : Nat) : Prop := 65535 * frag < len

/-- `i_rant_le_w64`. -/
def le64 (x : Nat) : Bytes := (List.range 8).map fun i => UInt8.ofNat (x / 256 ^ i)

/-- A buffer grown to `need` bytes: the old bytes, then what the memory held. -/
def growTo (al : Alloc) (buf : Bytes) (need : Nat) : Bytes :=
  buf ++ (List.range (need - buf.length)).map al.junk

/-- The bytes `i_rant_writer_store` gathers: stamp, capture slot, header, payload. -/
def gather (t : Topic) (hdr data : Bytes) (captureUs sourceUs : Nat) : Bytes :=
  let stamp :=
    if t.tsBytes = 0 then []
    else if captureUs = 0 then le64 (sourceUs % 2 ^ 63)
    else le64 (sourceUs % 2 ^ 63 + 2 ^ 63) ++ le64 captureUs
  stamp ++ hdr ++ data

/-- The room a sample of `len` bytes asks for: an empty one still takes a byte. -/
def storeNeed (len : Nat) : Nat := if len = 0 then 1 else len

/-- A history slot that grew to fit `wire` and holds it. -/
def storeSlot (al : Alloc) (slot : WriterSample) (wire : Bytes) : WriterSample :=
  { slot with
    buf := writeAt (growTo al slot.buf (storeNeed wire.length)) 0 wire
    shm := false }                               -- an inline send: not SHM backed

/-- `i_rant_writer_store`: the gathered bytes go into the head slot, which grows
to fit. The topic is unchanged on an error. -/
def writerStore (frag : Nat) (t : Topic) (hdr data : Bytes) (captureUs sourceUs : Nat)
    (al : Alloc) : Except SendErr (Topic × Nat) :=
  let wire := gather t hdr data captureUs sourceUs
  let slot := t.slotAt t.historyHead
  if writerTooBig frag wire.length then .error .tooBig
  else if slot.buf.length < storeNeed wire.length ∧ al.bufOk = false then .error .oom
  else .ok ({ t with history := t.history.set t.historyHead (storeSlot al slot wire) }, wire.length)

/-- What a send did to the topic. -/
inductive Send
  /-- A sample was committed, the topic is the one after the seal. -/
  | committed (t : Topic)
  /-- Nobody subscribes and nothing durable to keep: nothing was stored. -/
  | skipped
  /-- An error code, the topic unchanged. -/
  | refused (e : SendErr)

/-- `i_rant_writer_send` up to the seal. The wake of the lanes is `commitLane`. -/
def writerSend (frag : Nat) (t : Topic) (hdr data : Bytes) (captureUs sourceUs : Nat)
    (al : Alloc) (dest : Dest) : Send :=
  -- the stamps are ordinary payload for every size rule
  if writerTooBig frag (t.stampBytes captureUs + hdr.length + data.length) then .refused .tooBig
  else if t.role = .subOnly ∨ t.role = .inactive then .refused .role
  else if t.matchedWriters = 0 ∧ ¬ t.retainsHistory then .skipped
  else
    match writerStore frag t hdr data captureUs sourceUs al with
    | .error e => .refused e
    | .ok (t', len) => .committed (writerSeal frag t' len dest)

/-- `i_rant_transport_send_shm` up to the seal: the chunk is the whole wire sample. -/
def writerSendShm (frag : Nat) (t : Topic) (chunk desc : Bytes) : Send :=
  if writerTooBig frag chunk.length then .refused .tooBig
  else if t.role = .subOnly ∨ t.role = .inactive then .refused .role
  else
    let slot := { t.slotAt t.historyHead with shm := true, shmBuf := chunk, desc := desc }
    let t' := { t with history := t.history.set t.historyHead slot }
    .committed (writerSeal frag t' chunk.length .all)

/-! ## Lanes -/

/-- What a writer function of a lane may write. -/
structure WriterSide where
  stats : RepairStats
  w : WriterProxy
  rtt : PeerRtt
  fx : List Effect
  deriving Repr, DecidableEq

namespace WriterSide

/-- One more effect. -/
def emit (x : WriterSide) (e : Effect) : WriterSide := { x with fx := x.fx ++ [e] }

end WriterSide

/-- The first loop of `i_rant_writer_lane_advance`: `acked_upto` steps over
samples for other peers. -/
def advanceAcked (t : Topic) (p : Nat) : Nat → WriterProxy → WriterProxy
  | 0, w => w
  | n + 1, w =>
    match sampleFind t w.ackedUpto with
    | none => w
    | some s =>
      if s.dest.admits p then w
      else advanceAcked t p n { w with ackedUpto := s.base + s.count, skipHb := true }

/-- The second loop: `sent_upto` steps over whole samples for other peers. -/
def advanceSent (t : Topic) (p : Nat) : Nat → WriterProxy → WriterProxy
  | 0, w => w
  | n + 1, w =>
    if w.sentUpto < t.nextSeqno then
      match sampleFind t w.sentUpto with
      | none => w
      | some s =>
        if ¬ s.dest.admits p ∧ w.sentUpto = s.base then
          advanceSent t p n { w with sentUpto := s.base + s.count }
        else w
    else w

/-- `i_rant_writer_lane_advance`: on a directed topic a lane steps over samples
addressed to other peers. -/
def laneAdvance (t : Topic) (p : Nat) (w : WriterProxy) : WriterProxy :=
  if t.directed = false then w
  else
    let w1 := advanceAcked t p t.qos.keepLast w
    let w2 := if w1.sentUpto < w1.ackedUpto then { w1 with sentUpto := w1.ackedUpto } else w1
    advanceSent t p t.qos.keepLast w2

/-- One lane's turn in the loop of `i_rant_writer_commit`. -/
def commitLane (t : Topic) (dest : Dest) (p : Nat) (dormant : Bool) (x : WriterSide) :
    WriterSide :=
  if x.w.used = false ∨ dormant then x
  else if dest.admits p then x.emit .wake
  else
    let x' := { x with w := laneAdvance t p x.w }
    if t.reliable ∧ x'.w.readerReliable ∧ x'.w.skipHb then x'.emit .wake else x'

/-- Inside its first match window: directed history never replays. -/
abbrev Topic.replaysFresh (t : Topic) : Prop := t.fresh = true ∧ t.directed = false

/-- The cached samples `want` newest first from slot `i`, and in the first match
window those since `fresh_from`: the loop of `i_rant_topic_unicast_join_seqno`. -/
def joinFrom (t : Topic) (want : Nat) : Nat → Nat → Nat → Nat → Nat
  | 0, _, _, s => s
  | n + 1, k, i, s =>
    let j := back t.qos.keepLast i
    let slot := t.slotAt j
    if !slot.valid then s                        -- fewer cached
    else if want ≤ k ∧ ¬ (t.replaysFresh ∧ t.freshFrom ≤ slot.base) then s
    else joinFrom t want n (k + 1) j slot.base

/-- `i_rant_topic_unicast_join_seqno`: the head minus catch_up cached samples, and
in the first match window every cached sample since the topic came up. -/
def unicastJoinSeqno (t : Topic) : Nat :=
  if ¬ t.reliable ∨ (t.qos.catchUp = 0 ∧ ¬ t.replaysFresh) then t.nextSeqno
  else joinFrom t (min t.qos.catchUp t.qos.keepLast) t.qos.keepLast 0 t.historyHead t.nextSeqno

/-- `i_rant_writer_match` on a lane record: a fresh writer proxy at the join seqno.
The caller wakes the lane and counts the match. -/
def writerMatch (t : Topic) (subReliable : Bool) : WriterProxy :=
  let join := unicastJoinSeqno t
  { used := true, readerReliable := subReliable, sentUpto := join, ackedUpto := join
    wireSkip := join }

/-- `i_rant_writer_hb`: an HB advertising the window, its first is the floor. -/
def writerHb (t : Topic) (x : WriterSide) (cap now : Nat) : WriterSide × Option Submsg :=
  if cap < headerHb then (x, none)
  else
    let first := if t.haveFirst then t.firstSeqno else 0
    -- a fresh reader adopts the join point
    let first := if first < x.w.ackedUpto then x.w.ackedUpto else first
    let w := { x.w with hbNextUs := now + t.qos.heartbeatUs, hbCount := (x.w.hbCount + 1) % 2 ^ 32 }
    (({ x with w := w }).emit (.arm w.hbNextUs),
      some (.hb { first := first, last := u64Sub t.nextSeqno 1, count := w.hbCount }))

/-- Half the history, at least one sample: a full one always has an ack on the way. -/
def ackHalf (t : Topic) : Nat := if 1 < t.qos.keepLast then t.qos.keepLast / 2 else 1

/-- The round trip probe of `i_rant_writer_ask`, back to back while the lane warms up and
then once per `rttProbeUs`. -/
def askProbe (w : WriterProxy) (now : Nat) : WriterProxy × Bool :=
  if w.rttProbe = false ∧ (w.probes < rttWarmProbes ∨ w.probeNextUs ≤ now) then
    ({ w with
      rttProbe := true, rttProbeSeq := w.sentUpto, rttProbeUs := now
      probeNextUs := now + rttProbeUs
      probes := if w.probes < rttWarmProbes then w.probes + 1 else w.probes }, true)
  else (w, false)

/-- `i_rant_writer_ask`: whether a sample's last fragment asks the reader to ack
at once. -/
def writerAsk (t : Topic) (w : WriterProxy) (now : Nat) : WriterProxy × Bool :=
  let a := askProbe w now
  let w := { a.1 with pushed := a.1.pushed + 1 }
  if ackHalf t ≤ w.pushed then ({ w with pushed := 0 }, true) else (w, a.2)

/-- `i_rant_writer_arm_tail`: the queue drained, the next HB comes within the tail
window. -/
def writerArmTail (x : WriterSide) (now : Nat) : WriterSide :=
  let tail := now + rttRto x.rtt hbTailUs
  let hbNext := if x.w.hbNextUs ≤ now ∨ tail < x.w.hbNextUs then tail else x.w.hbNextUs
  ({ x with w := { x.w with hbNextUs := hbNext } }).emit (.arm hbNext)

/-- `i_rant_writer_tick`: a paced lane's tick, the skip to `upto` and the next one. -/
def writerTick (x : WriterSide) (upto now : Nat) : WriterSide :=
  let w := { x.w with
    wireSkip := x.w.wireSkip + (upto - x.w.sentUpto), sentUpto := upto
    rateNextUs := now + x.w.rateIntervalUs }
  ({ x with w := w }).emit (.arm w.rateNextUs)

/-- Drops what a new cumulative ack answers from the pending repair request. -/
def nackDrop (w : WriterProxy) (base : Nat) : WriterProxy :=
  if w.hasNack = true ∧ w.nackBase < base then
    let d := base - w.nackBase
    let bits := if d < nackWindow then w.nackBits >>> d else 0#32
    { w with nackBits := bits, nackBase := base, hasNack := bits ≠ 0#32 }
  else w

/-- Adds the bits of a repair request to the pending ones. -/
def nackAdd (w : WriterProxy) (m : NackMsg) : WriterProxy :=
  if w.hasNack then
    let d := u64Sub w.nackBase m.base             -- nack_base >= base here
    { w with nackBits := w.nackBits ||| (if d < nackWindow then m.bitmap >>> d else 0#32) }
  else { w with hasNack := true, nackBase := m.base, nackBits := m.bitmap }

/-- The repair request of an ACKNACK folded into the pending one: the tail of
`i_rant_writer_nack`. Merge, never overwrite. -/
def nackMerge (x : WriterSide) (m : NackMsg) : WriterSide :=
  let w := nackDrop x.w m.base
  if 0 < m.nbits ∧ m.bitmap ≠ 0#32 then
    ({ x with
      w := nackAdd w m
      stats := { x.stats with nacksRecv := x.stats.nacksRecv + 1 } }).emit .wake
  else { x with w := w }

/-- Whether a cumulative ack reached the armed probe. -/
abbrev probeReached (w : WriterProxy) (base : Nat) : Prop :=
  w.rttProbe = true ∧ w.rttProbeSeq ≤ base

/-- The proxy after an ACKNACK's cumulative ack. A reached probe is spent, and a repair
request in the same ACKNACK disarms it, since the acks after a repair are ambiguous. -/
def ackTo (w : WriterProxy) (m : NackMsg) : WriterProxy :=
  { w with
    rttProbe := w.rttProbe = true ∧ ¬ probeReached w m.base ∧ ¬ (0 < m.nbits ∧ m.bitmap ≠ 0#32)
    ackedUpto := if w.ackedUpto < m.base then m.base else w.ackedUpto }

/-- The acks of an ACKNACK: the probe's round trip, the ack point, and on a
directed topic the foreign samples it made contiguous. -/
def nackAck (t : Topic) (p : Nat) (x : WriterSide) (m : NackMsg) (now : Nat) : WriterSide :=
  let rtt := if probeReached x.w m.base then rttSample x.rtt (now - x.w.rttProbeUs) else x.rtt
  let x' := { x with w := laneAdvance t p (ackTo x.w m), rtt := rtt }
  if x'.w.skipHb then x'.emit .wake else x'

/-- `i_rant_writer_nack`. -/
def writerNack (t : Topic) (p : Nat) (x : WriterSide) (m : NackMsg) (now : Nat) : WriterSide :=
  if x.w.used = false then x
  else if x.w.readerEpoch ≠ m.epoch ∧ x.w.readerEpoch ≠ 0 then
    -- the reader re incarnated: rejoin at the older of the join point and the acked floor
    let join := unicastJoinSeqno t
    let sent := if x.w.ackedUpto < join then x.w.ackedUpto else join
    ({ x with w := { x.w with
        sentUpto := sent, ackedUpto := sent, hasNack := false, rttProbe := false
        hbNextUs := 0, readerEpoch := m.epoch } }).emit .wake
  else
    let x := { x with w := { x.w with readerEpoch := m.epoch } }
    if m.unpos then
      -- an unpositioned reader never NACKs: re push from the unacked edge
      let x' :=
        if x.w.ackedUpto < x.w.sentUpto then
          ({ x with w := { x.w with sentUpto := x.w.ackedUpto } }).emit .wake
        else x
      { x' with w := { x'.w with rttProbe := false } }
    else nackMerge (nackAck t p x m now) m

/-! ## Emitting -/

/-- The header a sample's DATA takes: single fragment samples omit three fields. -/
def headerData (count : Nat) : Nat := if count = 1 then headerDataSingle else headerDataMulti

/-- `i_rant_wire_mk_data`, as the reader reads the fields back. -/
def mkData (s : WriterSample) (seqno frag : Nat) (payload : Bytes) (ask : Bool) : Submsg :=
  if s.count = 1 then
    .data { seqno, frag := 0, count := 1, sampleLen := payload.length, payload, ackReq := ask }
  else .data { seqno, frag, count := s.count, sampleLen := s.len, payload, ackReq := ask }

/-- The payload bytes of fragment `i`. -/
def payloadLen (frag : Nat) (s : WriterSample) (i : Nat) : Nat :=
  (if s.len - i * frag < frag then s.len - i * frag else frag) % 65536

/-- The payload of fragment `i`. -/
def payloadOf (frag : Nat) (s : WriterSample) (i : Nat) : Bytes :=
  (s.sampleBuf.drop (i * frag)).take (payloadLen frag s i)

/-- `nack_bits` less the bits `j` of the window whose seqno meets `p`. -/
def clearBits (bits : BitVec 32) (base : Nat) (p : Nat → Bool) : BitVec 32 :=
  (List.range nackWindow).foldl
    (fun b j => if p (base + j) then b &&& ~~~(1#32 <<< j) else b) bits

/-- The pending bits become `bits`, and none pending ends the request. -/
def WriterProxy.setNack (w : WriterProxy) (bits : BitVec 32) : WriterProxy :=
  { w with nackBits := bits, hasNack := if bits = 0#32 then false else w.hasNack }

/-- The parameters of one `i_rant_writer_emit` call on the lane of peer slot `p`. -/
structure EmitEnv where
  frag : Nat
  p : Nat
  /-- `peer_shm`: the peer can receive SHM-DATA. -/
  shm : Bool
  cap : Nat
  now : Nat

/-- A repair resend of the cached sample `s` for pending bit `i`. -/
def resend (e : EmitEnv) (s : WriterSample) (i : Nat) (x : WriterSide) :
    WriterSide × Option Submsg :=
  let seqno := x.w.nackBase + i
  if e.shm ∧ s.shm then                         -- resend as one SHM-DATA
    if e.cap < shmDataBytes then (x, none)
    else
      let bits := clearBits x.w.nackBits x.w.nackBase
        fun q => s.base ≤ q ∧ q < s.base + s.count
      ({ x with w := x.w.setNack bits },
        some (.shm { base := s.base, count := s.count, desc := s.desc, ackReq := false }))
  else
    let fragIndex := (seqno - s.base) % 65536
    let payload := payloadOf e.frag s fragIndex
    if e.cap < headerData s.count + payloadLen e.frag s fragIndex then (x, none)
    else
      let bits := clearBits x.w.nackBits x.w.nackBase fun q => q = seqno
      let stats := { x.stats with
        fragsSent := x.stats.fragsSent + 1, fragsResent := x.stats.fragsResent + 1 }
      ({ x with w := x.w.setNack bits, stats := stats },
        some (mkData s seqno fragIndex payload false))

/-- A NACK below the ring: skip the reader past the dropped region with an HB whose
first is our floor, and keep the still cached seqnos for later repair. -/
def superseded (t : Topic) (e : EmitEnv) (x : WriterSide) : WriterSide × Option Submsg :=
  if e.cap < headerHb then (x, none)
  else
    let floor := if t.haveFirst then t.firstSeqno else t.nextSeqno
    let bits := clearBits x.w.nackBits x.w.nackBase fun q => q < floor
    writerHb t { x with w := x.w.setNack bits } e.cap e.now

/-- The repair loop of `i_rant_writer_emit` with `n` bits of the window left.
`some r` is the function's return, `none` that the loop ran out of bits. -/
def repairFrom (t : Topic) (e : EmitEnv) : Nat → WriterSide → WriterSide × Option (Option Submsg)
  | 0, x => (x, none)
  | n + 1, x =>
    let i := nackWindow - (n + 1)
    if x.w.nackBits.getLsbD i then
      let seqno := x.w.nackBase + i
      if t.nextSeqno ≤ seqno then                -- nothing there
        let bits := clearBits x.w.nackBits x.w.nackBase fun q => q = seqno
        repairFrom t e n { x with w := x.w.setNack bits }
      else
        match sampleFind t seqno with
        | none =>
          let r := superseded t e x
          (r.1, some r.2)
        | some s =>
          if t.directed ∧ ¬ s.dest.admits e.p then
            -- addressed to another lane: never re serve it, owe the floor HB instead
            let bits := clearBits x.w.nackBits x.w.nackBase
              fun q => s.base ≤ q ∧ q < s.base + s.count
            let w := laneAdvance t e.p (x.w.setNack bits)
            repairFrom t e n { x with w := { w with skipHb := true } }
          else
            let r := resend e s i x
            (r.1, some r.2)
    else repairFrom t e n x

/-- After a push to a reader that acks: the sample's `last` fragment may ask for the ack
at once, and a drained queue arms the tail heartbeat. -/
def pushed (t : Topic) (last : Bool) (now : Nat) (x : WriterSide) : WriterSide × Bool :=
  if t.reliable ∧ x.w.readerReliable then
    let asked := if last then writerAsk t x.w now else (x.w, false)
    let x := { x with w := asked.1 }
    (if t.nextSeqno ≤ x.w.sentUpto then writerArmTail x now else x, asked.2)
  else (x, false)

/-- The push of the cached sample `s` at `seqno`. -/
def push (t : Topic) (e : EmitEnv) (perLane tick : Bool) (s : WriterSample) (seqno : Nat)
    (x : WriterSide) : WriterSide × Option Submsg :=
  if e.shm ∧ s.shm then                         -- a sample boundary: one SHM-DATA
    if e.cap < shmDataBytes then (x, none)
    else
      let x := if tick then writerTick x seqno e.now else x
      let r := pushed t true e.now { x with w := { x.w with sentUpto := s.base + s.count } }
      let base := if perLane then u64Sub s.base r.1.w.wireSkip else s.base
      (r.1, some (.shm { base := base, count := s.count, desc := s.desc, ackReq := r.2 }))
  else
    let fragIndex := (seqno - s.base) % 65536
    let payload := payloadOf e.frag s fragIndex
    if e.cap < headerData s.count + payloadLen e.frag s fragIndex then (x, none)
    else
      let x := if tick then writerTick x seqno e.now else x
      let x := { x with
        w := { x.w with sentUpto := x.w.sentUpto + 1 }
        stats := { x.stats with fragsSent := x.stats.fragsSent + 1 } }
      -- the sample's last fragment may arm the round trip probe
      let r := pushed t (x.w.sentUpto = s.base + s.count) e.now x
      let wire := if perLane then u64Sub seqno r.1.w.wireSkip else seqno
      (r.1, some (mkData s wire fragIndex payload r.2))

/-- `sent_upto` fell out of the ring unsent. A fire and forget lane advances, a
reliable one skips its reader with an HB. -/
def pushEvicted (t : Topic) (e : EmitEnv) (perLane : Bool) (x : WriterSide) :
    WriterSide × Option Submsg :=
  let upto := if t.haveFirst then t.firstSeqno else t.nextSeqno
  if perLane then ({ x with w := { x.w with sentUpto := upto } }, none)
  else if e.cap < headerHb then (x, none)
  else writerHb t { x with w := { x.w with sentUpto := upto, rttProbe := false } } e.cap e.now

/-- Stage 2 of `i_rant_writer_emit`: push new data. -/
def emitPush (t : Topic) (e : EmitEnv) (x : WriterSide) : WriterSide × Option Submsg :=
  let perLane : Bool := x.w.readerReliable = false ∧ t.directed = false
  let found := sampleFind t x.w.sentUpto
  -- the rate throttle acts at a sample boundary only
  let tick : Bool := perLane ∧ x.w.rateIntervalUs ≠ 0 ∧ ∀ s ∈ found, x.w.sentUpto = s.base
  if tick ∧ e.now < x.w.rateNextUs then (x.emit (.arm x.w.rateNextUs), none)
  else
    -- a tick decimates to the newest sample
    let newest := if tick then sampleFind t (u64Sub t.nextSeqno 1) else none
    match newest, found with
    | some n, found =>
      if x.w.sentUpto < n.base then push t e perLane tick n n.base x
      else
        match found with
        | some s => push t e perLane tick s x.w.sentUpto x
        | none => pushEvicted t e perLane x
    | none, some s => push t e perLane tick s x.w.sentUpto x
    | none, none => pushEvicted t e perLane x

/-- Stages 2 and 3 of `i_rant_writer_emit`, after the repair and the owed floor HB. -/
def emitNew (t : Topic) (e : EmitEnv) (x : WriterSide) : WriterSide × Option Submsg :=
  if x.w.sentUpto < t.nextSeqno then emitPush t e x
  else if t.reliable ∧ x.w.readerReliable ∧ x.w.hbNextUs ≤ e.now ∧ x.w.ackedUpto < t.nextSeqno then
    -- a caught up lane goes silent until new data
    writerHb t x e.cap e.now
  else (x, none)

/-- The owed floor HB of a directed lane, before any new data. -/
def emitFloor (t : Topic) (e : EmitEnv) (x : WriterSide) : WriterSide × Option Submsg :=
  if t.reliable ∧ x.w.readerReliable ∧ x.w.skipHb then
    match writerHb t x e.cap e.now with
    | (x', none) => (x', none)                   -- did not fit: the flag stays
    | (x', some hb) => ({ x' with w := { x'.w with skipHb := false } }, some hb)
  else emitNew t e x

/-- `i_rant_writer_emit`: one writer submessage if due and it fits `cap`. -/
def writerEmit (t : Topic) (e : EmitEnv) (dormant : Bool) (x : WriterSide) :
    WriterSide × Option Submsg :=
  if x.w.used = false ∨ dormant then (x, none)
  else
    let x := { x with w := laneAdvance t e.p x.w }
    if t.reliable ∧ x.w.hasNack then
      match repairFrom t e nackWindow x with
      | (x', some r) => (x', r)
      | (x', none) => emitFloor t e { x' with w := { x'.w with hasNack := false } }
    else emitFloor t e x

end Rant.Transport
