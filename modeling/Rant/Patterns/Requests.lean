import Rant.Patterns.Owner
import Rant.Transport.Directed
import Rant.Transport.Peers
/-!
# The calls of a remote

The caller side of `src/patterns/core.c`: a function or task handle, its request channel with a
lane to every peer, and the transport's peer table. A call picks its provider under the lock and sends
outside it; a call no provider is matched for is queued, and flushed when a PEER_INTEREST
event or the tick finds one. Providers match, drop, come back, retire and go in any order, and
the lanes put their samples on the wire and take ACKNACKs in between.

Of the pending entry the callbacks are left out. An ACKNACK acks a position between where its
lane joined and the end of the seqno line, as a reader's does.
-/

namespace Rant.Patterns

open Rant.Lib
open Rant.Transport

/-- `RANT__FN_PREFIX`: the call id and the op. -/
def fnPrefix : Nat := 5

/-- `RANT__FN_OP_CALL` and `RANT__FN_OP_CANCEL`. -/
inductive FnOp
  | call
  | cancel
  deriving Repr, DecidableEq

/-- The op on the wire. -/
def FnOp.code : FnOp → UInt8
  | .call => 0
  | .cancel => 1

/-- A request channel's header. -/
def fnHeader (callId : Nat) (op : FnOp) : Bytes := writeLe 4 callId ++ [op.code]

/-- `RANT__NO_DEADLINE`. -/
def noDeadline : Nat := 2 ^ 64 - 1

/-- Who is matched at some moment, and since when. -/
structure Roster where
  peers : List PeerSlot
  used : Nat → Bool
  since : Nat → Nat

/-- The peer of slot `p` is matched and up. -/
def Roster.Live (r : Roster) (p : Nat) : Prop :=
  r.used p = true ∧ (peerAt r.peers p).dormant = false

/-- Peer `d` is the live match of longest standing. -/
def Roster.Oldest (r : Roster) (d : Nat) : Prop :=
  ∃ p, r.Live p ∧ (peerAt r.peers p).id = d ∧ ∀ q, r.Live q → r.since p ≤ r.since q

/-- `i_RantPending`. `serial` numbers the calls and `named` is whether this one named its
provider, both ghost. -/
structure Pending where
  serial : Nat
  named : Bool
  callId : Nat
  dest : Nat
  deadlineUs : Nat
  running : Bool
  sync : Bool
  queuedReq : Option Bytes

/-- A send that left the lock. `dest` is `none` for everyone matched. -/
structure Posting where
  serial : Option Nat
  named : Bool
  callId : Nat
  op : FnOp
  dest : Option Nat
  body : Bytes
  roster : Roster

/-- A sample committed on the request channel, ghost: the call it is of, whom it was sent to,
and who was matched when that was decided. -/
structure Request where
  serial : Option Nat
  named : Bool
  dest : Option Nat
  roster : Roster
  base : Nat
  count : Nat
  slot : Dest

/-- The request channel with its lanes and the peer table. The ghosts: `since` and `joined` are
when and where a lane matched and `matched` counts the matches, `sent` is every sample
committed and `got` every seqno put on a peer's lane. -/
structure ReqChannel where
  peers : List PeerSlot
  req : Topic
  lanes : Nat → WriterProxy
  rtt : Nat → PeerRtt
  since : Nat → Nat
  joined : Nat → Nat
  matched : Nat
  sent : List Request
  got : List (Nat × Nat)

namespace ReqChannel

/-- Who is matched now. -/
def roster (c : ReqChannel) : Roster where
  peers := c.peers
  used p := (c.lanes p).used
  since := c.since

/-- What a writer function of the lane of slot `p` may write. -/
def side (c : ReqChannel) (p : Nat) : WriterSide where
  stats := c.req.repairStats
  w := c.lanes p
  rtt := c.rtt p
  fx := []

/-- The lane of slot `p` after a writer function. -/
def setSide (c : ReqChannel) (p : Nat) (x : WriterSide) : ReqChannel :=
  { c with
    req := { c.req with repairStats := x.stats }
    lanes := fun q => if q = p then x.w else c.lanes q
    rtt := fun q => if q = p then x.rtt else c.rtt q }

/-- `i_rant_topic_all_match_count`. -/
def matchCount (c : ReqChannel) : Nat := publisherMatchCount c.req

/-- `i_rant_topic_oldest_match`. -/
def oldestMatch (c : ReqChannel) : Nat := publisherOldestMatch c.req c.peers c.lanes

/-- `i_rant_topic_peer_matched`. -/
def peerMatched (c : ReqChannel) (id : Nat) : Bool := publisherPeerMatched c.req c.peers c.lanes id

/-! ## Sending -/

/-- How the node carries a send: the clock, the allocator's answer, and the descriptor of the
shared memory chunk a broadcast may go out through. -/
structure How where
  sourceUs : Nat
  al : Alloc
  desc : Option { d : Bytes // d.length = shmDescBytes }

/-- The destination of a directed send. An unknown peer is nobody. -/
def destOf (c : ReqChannel) (dest : Option Nat) : Dest :=
  match dest with
  | none => .all
  | some d =>
    match peerSlot c.peers d with
    | none => .none
    | some p => .slot p

/-- `i_rant_topic_send_to` and `i_rant_topic_send_hdr` on the request channel, up to the
commit. -/
def reqSend (frag : Nat) (c : ReqChannel) (x : Posting) (how : How) : Send :=
  let header := fnHeader x.callId x.op
  match x.dest, how.desc with
  | none, some d => channelSend frag c.req header x.body how.sourceUs (.shm d)
  | _, _ => writerSend frag c.req header x.body 0 how.sourceUs how.al (c.destOf x.dest)

/-- The channel after a send, `none` an error code. -/
def post (frag : Nat) (c : ReqChannel) (x : Posting) (how : How) : Option ReqChannel :=
  match c.reqSend frag x how with
  | .committed t =>
    let dest := c.destOf x.dest
    some { c with
      req := t
      lanes := fun p => (commitLane t dest p (peerAt c.peers p).dormant (c.side p)).w
      sent := c.sent ++ [{ serial := x.serial, named := x.named, dest := x.dest, roster := x.roster
                           base := c.req.nextSeqno, count := t.nextSeqno - c.req.nextSeqno
                           slot := dest }] }
  | .skipped => some c
  | .refused _ => none

/-! ## Matching -/

/-- `i_rant_topic_rematch` of the request channel with slot `p`. -/
def rematch (c : ReqChannel) (p : Nat) (wuse subReliable : Bool) : ReqChannel :=
  let r := rematchWriter c.req c.lanes p wuse subReliable
  if wuse && !(c.lanes p).used then
    { c with
      req := r.1, lanes := r.2, matched := c.matched + 1
      since := fun q => if q = p then c.matched else c.since q
      joined := fun q => if q = p then c.req.nextSeqno else c.joined q }
  else { c with req := r.1, lanes := r.2 }

/-- `i_rant_transport_peer_remove` of slot `p`. -/
def removePeer (c : ReqChannel) (p : Nat) : ReqChannel :=
  let c := c.rematch p false false
  { c with peers := peerFree c.peers p }

end ReqChannel

/-- The caller. `calls` counts the calls made and is ghost. -/
structure Caller where
  isTask : Bool
  chan : ReqChannel
  pending : List Pending
  nextCallId : Nat
  posting : List Posting
  calls : Nat

open ReqChannel (How)

namespace Caller

/-! ## Calls -/

/-- `i_rant_func_take_pending`, the rest of the list. -/
def takePending (l : List Pending) (callId : Nat) : List Pending :=
  l.eraseP fun p => p.callId == callId

/-- What a call reads of its options and the handle. -/
structure CallOpts where
  provider : Nat
  nowUs : Nat
  timeoutUs : Nat
  sync : Bool

/-- `i_rant_function_call_id` up to the unlock. `ok` and `queueOk` are the allocator's answers. -/
def call (s : Caller) (req : Bytes) (o : CallOpts) (ok queueOk : Bool) : Caller :=
  if !ok then s
  else
    -- a task's is always directed
    let dest := if s.isTask && o.provider = 0 then s.chan.oldestMatch else o.provider
    let p : Pending :=
      { serial := s.calls, named := o.provider ≠ 0, callId := s.nextCallId, dest := dest
        deadlineUs := o.nowUs + o.timeoutUs, running := false, sync := o.sync, queuedReq := none }
    let s := { s with nextCallId := (s.nextCallId + 1) % 2 ^ 32, calls := s.calls + 1 }
    if if dest ≠ 0 then s.chan.peerMatched dest = false else s.chan.matchCount = 0 then
      -- its provider not matched yet
      if queueOk then { s with pending := { p with queuedReq := some req } :: s.pending } else s
    else
      { s with
        pending := p :: s.pending
        posting := s.posting ++ [{ serial := some p.serial, named := p.named, callId := p.callId
                                   op := .call, dest := if dest = 0 then none else some dest
                                   body := req, roster := s.chan.roster }] }

/-- A send that left the lock, made. A refused call takes its entry with it. -/
def sendPosted (frag : Nat) (s : Caller) (i : Nat) (how : How) : Caller :=
  match s.posting[i]? with
  | none => s
  | some x =>
    let posting := s.posting.eraseIdx i
    match s.chan.post frag x how with
    | some c => { s with chan := c, posting := posting }
    | none =>
      match x.op with
      | .call => { s with posting := posting, pending := takePending s.pending x.callId }
      | .cancel => { s with posting := posting }

/-- Whether a flush may send the entry. -/
def flushable (c : ReqChannel) (p : Pending) : Bool :=
  p.queuedReq.isSome && (p.dest == 0 || c.peerMatched p.dest)

/-- The pick of `i_rant_func_flush_queued`: the last of the list is the oldest. -/
def pickFrom (c : ReqChannel) : List Pending → Option Nat
  | [] => none
  | p :: l =>
    match pickFrom c l with
    | some i => some (i + 1)
    | none => if flushable c p then some 0 else none

/-- Whom a flush sends an entry to. Task requests are always directed, so one that names no
provider is resolved now. -/
def flushDest (isTask : Bool) (c : ReqChannel) (p : Pending) : Nat :=
  if isTask && p.dest = 0 then c.oldestMatch else p.dest

/-- The send of a queued entry. -/
def flushPosting (isTask : Bool) (c : ReqChannel) (p : Pending) : Posting :=
  let dest := flushDest isTask c p
  { serial := some p.serial, named := p.named, callId := p.callId, op := .call
    dest := if dest = 0 then none else some dest, body := p.queuedReq.getD []
    roster := c.roster }

/-- One turn of the flush on entry `i`: it is sent, whatever that comes to, and no longer
queued. -/
def flushOne (frag : Nat) (s : Caller) (i : Nat) (p : Pending) (how : How) : Caller :=
  { s with
    chan := (s.chan.post frag (flushPosting s.isTask s.chan p) how).getD s.chan
    pending := s.pending.set i { p with dest := flushDest s.isTask s.chan p, queuedReq := none } }

/-- The turns of a flush, one for each entry at most. -/
def flushFrom (frag : Nat) (how : Nat → How) : Nat → Caller → Caller
  | 0, s => s
  | n + 1, s =>
    match pickFrom s.chan s.pending with
    | none => s
    | some i =>
      match s.pending[i]? with
      | none => s
      | some p => flushFrom frag how n (s.flushOne frag i p (how n))

/-- `i_rant_func_flush_queued`. -/
def flushQueued (frag : Nat) (how : Nat → How) (s : Caller) : Caller :=
  if s.chan.matchCount = 0 then s                  -- still no provider
  else flushFrom frag how s.pending.length s

/-- `i_rant_func_reap_severed`. -/
def reapSevered (s : Caller) (id : Nat) : Caller :=
  { s with pending := s.pending.filter fun p =>
      !(p.dest == id && p.queuedReq.isNone && !s.chan.peerMatched id) }

/-- The PEER_INTEREST half of `i_rant_patterns_on_event`. -/
def onInterest (frag : Nat) (how : Nat → How) (s : Caller) (id : Nat) : Caller :=
  (s.flushQueued frag how).reapSevered id

/-- The PEER_DOWN half: the calls directed at the peer, and with no live provider left every
call already sent. -/
def onDown (s : Caller) (id : Nat) : Caller :=
  let l := s.pending.filter fun p => p.dest != id
  { s with pending :=
      if publisherLiveMatches s.chan.req s.chan.peers s.chan.lanes = 0
      then l.filter fun p => p.queuedReq.isSome else l }

end Caller

/-- What may happen. `how` is how the sends a step makes are carried. -/
inductive CallerEvent
  | peerAdd (id : Nat)
  /-- The peer fell silent. -/
  | drop (id : Nat)
  | resume (id : Nat)
  /-- The peer is gone. PEER_DOWN if it was up. -/
  | gone (id : Nat)
  /-- Its slot is given back. -/
  | giveBack (id : Nat) (how : Nat → How)
  /-- The peer's interest is applied: its definition matches, or no longer does. -/
  | interest (id : Nat) (wuse subReliable : Bool) (how : Nat → How)
  /-- A rebind hold is released. -/
  | formed (id : Nat) (subReliable : Bool)
  | call (req : Bytes) (o : Caller.CallOpts) (ok queueOk : Bool)
  /-- Send `i` of those that left the lock. -/
  | send (i : Nat) (how : How)
  | tick (nowUs : Nat) (how : Nat → How)
  /-- RUNNING, or progress. -/
  | running (callId : Nat)
  /-- A terminal response. -/
  | answered (callId : Nat)
  /-- `rant_function_cancel` of a call at a provider that takes cancels, or not. -/
  | cancel (callId : Nat) (cancellable : Bool)
  /-- The lane of slot `p` is polled. -/
  | emit (p : Nat) (shm : Bool) (cap nowUs : Nat)
  /-- An ACKNACK of the peer of slot `p`. -/
  | nack (p : Nat) (m : NackMsg) (nowUs : Nat)
  /-- `i_rant_transport_topic_fresh`. -/
  | fresh (opened : Bool)

namespace Caller

/-- One event. -/
def step (frag : Nat) (s : Caller) : CallerEvent → Caller
  | .peerAdd id =>
    if id = 0 then s
    else { s with chan := { s.chan with peers := Rant.Transport.peerAdd s.chan.peers id } }
  | .drop id =>
    onDown { s with chan := { s.chan with peers := peerSetDormant s.chan.peers id true } } id
  | .resume id => { s with chan := { s.chan with peers := peerSetDormant s.chan.peers id false } }
  | .gone id =>
    match peerSlot s.chan.peers id with
    | none => s
    | some p =>
      let s' := { s with chan := s.chan.removePeer p }
      if (peerAt s.chan.peers p).dormant then s' else s'.onDown id
  | .giveBack id how =>
    match peerSlot s.chan.peers id with
    | none => s
    | some p => onInterest frag how { s with chan := s.chan.removePeer p } id
  | .interest id wuse subReliable how =>
    match peerSlot s.chan.peers id with
    | none => s
    | some p => onInterest frag how { s with chan := s.chan.rematch p wuse subReliable } id
  | .formed id subReliable =>
    match peerSlot s.chan.peers id with
    | none => s
    | some p => { s with chan := s.chan.rematch p true subReliable }
  | .call req o ok queueOk => s.call req o ok queueOk
  | .send i how => s.sendPosted frag i how
  | .tick nowUs how =>
    let s := s.flushQueued frag how
    { s with pending := s.pending.filter fun p => nowUs < p.deadlineUs }
  | .running callId =>
    { s with pending := s.pending.map fun p =>
        if p.callId = callId then { p with running := true, deadlineUs := noDeadline } else p }
  | .answered callId => { s with pending := takePending s.pending callId }
  | .cancel callId cancellable =>
    match s.pending.find? fun p => p.callId == callId with
    | none => s
    | some p =>
      if p.queuedReq.isSome then { s with pending := takePending s.pending callId }
      else if !cancellable then s
      else
        { s with posting := s.posting ++ [{ serial := none, named := true, callId := callId
                                            op := .cancel, dest := some p.dest, body := []
                                            roster := s.chan.roster }] }
  | .emit p shm cap nowUs =>
    let c := s.chan
    let r := writerEmit c.req ⟨frag, p, shm, cap, nowUs⟩ (peerAt c.peers p).dormant (c.side p)
    let got := (r.2.bind Submsg.carries).toList.map fun q => ((peerAt c.peers p).id, q)
    { s with chan := { c.setSide p r.1 with got := c.got ++ got } }
  | .nack p m nowUs =>
    let c := s.chan
    if c.joined p ≤ m.base ∧ m.base ≤ c.req.nextSeqno then
      { s with chan := c.setSide p (writerNack c.req p (c.side p) m nowUs) }
    else s
  | .fresh opened =>
    let t := s.chan.req
    { s with chan := { s.chan with req := { t with
        fresh := opened, freshFrom := if opened then t.nextSeqno else t.freshFrom } } }

end Caller

/-- The handle as it was opened: a directed reliable channel that replays nothing, its history
empty, and nobody matched. -/
structure CallerCfg where
  frag : Nat
  req : Topic
  maxPeers : Nat
  frag_pos : 0 < frag
  frag_le : frag ≤ 65535
  directed : Directed req
  role : req.role = .pubOnly
  keep_pos : 0 < req.qos.keepLast
  history_eq : req.history = List.replicate req.qos.keepLast .empty
  head_eq : req.historyHead = 0
  first_eq : req.haveFirst = false
  chain_eq : req.laneChain = []
  matched_eq : req.matchedWriters = 0

/-- No peer, no call. -/
def Caller.init (c : CallerCfg) (isTask : Bool := true) : Caller where
  isTask := isTask
  chan :=
    { peers := List.replicate c.maxPeers {}, req := c.req, lanes := fun _ => {}
      rtt := fun _ => {}, since := fun _ => 0, joined := fun _ => 0, matched := 0, sent := []
      got := [] }
  pending := []
  nextCallId := 1
  posting := []
  calls := 0

end Rant.Patterns
