import Rant.Transport.Types
import Rant.Transport.Writer
/-!
# The reader path

`src/transport/reader.c`: ordering, reassembly, delivery and the ACKNACK emit.
As on the writer side a function takes the topic it reads and a `ReaderSide` with
everything it may write.

The delivery loop runs on a fuel of two turns: a turn delivers the head, the next
one what was held ahead of it, and then nothing is held (`deliverLoop_done`).

A seqno is the source's `uint64_t` short of the top of its line: `base + count`, `bound + 1`
and `first + 32` are not wrapped at `2 ^ 64` here, and what is said of a lane is said of one
whose fields stay below that.
-/

namespace Rant.Transport

open Rant.Lib.Fragment (writeAt)

/-- What a reader function of a lane may write. -/
structure ReaderSide where
  stats : RepairStats
  r : ReaderProxy
  rtt : PeerRtt
  fx : List Effect

namespace ReaderSide

/-- One more effect. -/
def emit (x : ReaderSide) (e : Effect) : ReaderSide := { x with fx := x.fx ++ [e] }

/-- One repair counter stepped. -/
def stat (x : ReaderSide) (f : RepairStats → RepairStats) : ReaderSide :=
  { x with stats := f x.stats }

@[simp] theorem emit_r (x : ReaderSide) (e : Effect) : (x.emit e).r = x.r := rfl

end ReaderSide

/-! ## Acks -/

/-- `i_rant_reader_arm`: each 0 to 1 arming of the ack counts under its trigger. -/
def readerArm (x : ReaderSide) (isHb : Bool) : ReaderSide :=
  if x.r.ackPending then x
  else if isHb then x.stat fun c => { c with armsHb := c.armsHb + 1 }
  else x.stat fun c => { c with armsData := c.armsData + 1 }

/-- `i_rant_reader_ack_now`: arms an immediate ACKNACK. -/
def readerAckNow (x : ReaderSide) (force isHb : Bool) : ReaderSide :=
  let x := readerArm x isHb
  let r := { x.r with ackPending := true, ackDueUs := 0, ackForce := x.r.ackForce || force }
  ({ x with r := r }).emit .wake

/-- `i_rant_reader_ack_delivered`: an in order delivery's cumulative ack, at once or
coalesced one tick after the first unacked delivery. -/
def readerAckDelivered (x : ReaderSide) (now : Nat) : ReaderSide :=
  if x.r.ackReq ∨ now = 0 ∨ x.r.deliverUpto ≤ x.r.receivedHigh then readerAckNow x true false
  else
    let x := { x with r := { x.r with ackForce := true } }
    if x.r.ackPending then x                     -- an armed ack keeps its earlier due
    else
      let x := readerArm x false
      let r := { x.r with ackPending := true, ackDueUs := now + ackDelayUs }
      ({ x with r := r }).emit (.arm r.ackDueUs)

/-! ## Assemblies -/

/-- `i_rant_asm_fit`: fits a slot's buffers to a sample, false when the allocation
failed. -/
def asmFit (al : Alloc) (a : Assembly) (len count : Nat) : Assembly × Bool :=
  let bitmapNeed := (count + 7) / 8
  if a.buf.length < len ∧ al.bufOk = false then (a, false)
  else
    let a1 := if a.buf.length < len then { a with buf := growTo al a.buf len } else a
    if a1.bitmapCap < bitmapNeed ∧ al.bitmapOk = false then (a1, false)
    else if a1.bitmapCap < bitmapNeed then
      ({ a1 with
        bitmap := fun i => if i < 8 * a1.bitmapCap then a1.bitmap i else al.junkBits i
        bitmapCap := bitmapNeed }, true)
    else (a1, true)

/-- Whether seqno `s` is held in slot `a`: the negation of `i_rant_asm_missing`. -/
def asmHeld (a : Assembly) (s : Nat) : Bool :=
  a.active ∧ a.base ≤ s ∧ s < a.base + a.count ∧ a.bitmap (s - a.base)

/-- A slot taken by a new sample, its bitmap cleared. -/
def asmStart (a : Assembly) (base count len : Nat) : Assembly :=
  { a with
    active := true, base := base, count := count, len := len, low := 0
    bitmap := fun i => if i < 8 * ((count + 7) / 8) then false else a.bitmap i }

/-- The loop that moves the contiguous front, at most `n` fragments. -/
def asmFront (bitmap : Nat → Bool) (count : Nat) : Nat → Nat → Nat
  | 0, low => low
  | n + 1, low => if low < count ∧ bitmap low then asmFront bitmap count n (low + 1) else low

/-- Fragment `frag` with its payload stored in the slot, at the peer's fragment size. -/
def asmStore (peerFrag : Nat) (a : Assembly) (frag : Nat) (payload : Bytes) : Assembly :=
  let offset := frag * peerFrag
  -- the cap guard catches a stray offset
  let buf := if payload ≠ [] ∧ offset + payload.length ≤ a.buf.length
    then writeAt a.buf offset payload else a.buf
  let bitmap := fun i => if i = frag then true else a.bitmap i
  let low := if frag = a.low then asmFront bitmap a.count (a.count - a.low) a.low else a.low
  { a with buf := buf, bitmap := bitmap, low := low }

/-- `i_rant_reader_settle`: `deliver_upto` moved, the sample held ahead rotates into
the head when it is exactly next, and drops when the floor passed it. -/
def readerSettle (r : ReaderProxy) : ReaderProxy :=
  if r.next.active = false then r
  else if r.next.base < r.deliverUpto then { r with next := { r.next with active := false } }
  else if r.next.base = r.deliverUpto ∧ r.cur.active = false then
    { r with cur := r.next, next := { r.cur with active := false } }
  else r

/-- `deliver_upto` moves to `to` and the head slot is dropped. -/
def readerMoveTo (r : ReaderProxy) (upto : Nat) : ReaderProxy :=
  readerSettle { r with deliverUpto := upto, cur := { r.cur with active := false } }

/-! ## Delivery -/

/-- The loop of `i_rant_reader_deliver`: hands up complete samples from the head on.
A reliable refusal parks the head, a best effort one drops. The flag says whether
anything was delivered. -/
def deliverLoop (t : Topic) (sink : Sink) : Nat → ReaderSide → Bool → ReaderSide × Bool
  | 0, x, delivered => (x, delivered)
  | n + 1, x, delivered =>
    if x.r.cur.active ∧ x.r.cur.low = x.r.cur.count then
      let bytes := x.r.cur.buf.take x.r.cur.len
      let refused := sink.refuses x.fx bytes
      let x := x.emit (.message x.r.cur.base x.r.cur.count bytes refused)
      if refused ∧ t.reliable then ({ x with r := { x.r with parked := true } }, delivered)
      else
        let r := { x.r with lapped := false }
        deliverLoop t sink n { x with r := readerMoveTo r (r.cur.base + r.cur.count) } true
    else (x, delivered)

/-- `i_rant_reader_deliver`. -/
def readerDeliver (t : Topic) (sink : Sink) (x : ReaderSide) (now : Nat) : ReaderSide :=
  match deliverLoop t sink 2 x false with
  | (x', delivered) => if delivered ∧ t.reliable then readerAckDelivered x' now else x'

/-! ## Arrivals -/

/-- `i_RantReaderOrder`. -/
inductive Order
  | old
  | gap
  | adopted
  | inorder
  deriving Repr, DecidableEq

/-- A gap arms a repair NACK. An armed lane keeps its deadline and is only re woken,
a parked lane stays silent. -/
def armGap (x : ReaderSide) : ReaderSide :=
  if x.r.parked then x
  else if x.r.ackPending then x.emit .wake
  else readerAckNow x false false

/-- `i_rant_reader_order_arrival`. -/
def readerOrderArrival (t : Topic) (x : ReaderSide) (base top : Nat) : ReaderSide × Order :=
  if base < x.r.deliverUpto then (x, .old)
  else
    let x := { x with r := { x.r with
      receivedHigh := if x.r.receivedHigh < top then top else x.r.receivedHigh } }
    if x.r.deliverUpto < base then
      if t.reliable ∧ x.r.started then (armGap x, .gap)
      else
        let skipped := base - x.r.deliverUpto
        let x :=
          if x.r.started ∧ t.directed = false then    -- adopt, a directed skip is no loss
            (x.emit (.lost x.r.deliverUpto skipped)).stat
              fun c => { c with msgsSkipped := c.msgsSkipped + skipped }
          else x
        ({ x with r := { x.r with deliverUpto := base } }, .adopted)
    else (x, .inorder)

/-- A resend of what we hold: the writer still waits for the ack. -/
def ackOld (x : ReaderSide) : ReaderSide :=
  if x.r.ackReq then readerAckNow x true false else x

/-- A request for an immediate ack is kept until one goes out. -/
def noteAckReq (t : Topic) (x : ReaderSide) (ackReq : Bool) : ReaderSide :=
  if t.reliable ∧ ackReq then { x with r := { x.r with ackReq := true } } else x

/-- The round trip of a probed resend ends here. -/
def endProbe (x : ReaderSide) (now : Nat) : ReaderSide :=
  { x with rtt := rttSample x.rtt (now - x.r.rttProbeUs), r := { x.r with rttProbe := false } }

/-- What became of an SHM descriptor that was not delivered: the give-up, the repair
or, on best effort, the drop. -/
def shmFailed (t : Topic) (x : ReaderSide) (base count : Nat) : ReaderSide :=
  if t.reliable then
    let x := { x with r := { x.r with shmFail := x.r.shmFail + 1 } }
    if shmMaxRetry ≤ x.r.shmFail then
      -- give up: skip it and ack the new edge
      let x := (x.emit (.lost base count)).stat
        fun c => { c with msgsSkipped := c.msgsSkipped + count }
      let r := { x.r with shmFail := 0, deliverUpto := base + count }
      readerAckNow { x with r := readerSettle r } true false
    else readerAckNow x false false              -- leave the gap and NACK for a resend
  else
    ({ x with r := readerSettle { x.r with deliverUpto := base + count } }).emit .wake

/-- The call of `on_shm` and what its answer does. -/
def shmResolve (t : Topic) (sink : Sink) (al : Alloc) (x : ReaderSide) (m : ShmMsg) (now : Nat) :
    ReaderSide :=
  let ok := sink.onShm x.fx m.desc
  let x := x.emit (.shm m.base m.count m.desc ok)
  if 0 < ok then
    let r := { x.r with shmFail := 0, lapped := false, deliverUpto := m.base + m.count }
    let x := { x with r := readerSettle r }
    let x := if t.reliable then readerAckDelivered x now else x
    readerDeliver t sink x now                   -- held ahead
  else if ok < 0 then
    if ¬ t.reliable then { x with r := readerSettle { x.r with deliverUpto := m.base + m.count } }
    else
      -- park the descriptor, an allocation failure falls through to the repair path
      match asmFit al x.r.cur shmDescBytes 1 with
      | (a, true) =>
        let cur := { a with buf := writeAt a.buf 0 m.desc, base := m.base, count := m.count }
        { x with r := { x.r with cur := cur, parked := true, parkedShm := true } }
      | (a, false) => shmFailed t { x with r := { x.r with cur := a } } m.base m.count
  else shmFailed t x m.base m.count

/-- `i_rant_reader_shm`. -/
def readerShm (t : Topic) (sink : Sink) (al : Alloc) (x : ReaderSide) (m : ShmMsg) (now : Nat) :
    ReaderSide :=
  if x.r.used = false ∨ m.count = 0 then x
  else
    let x := noteAckReq t x m.ackReq
    if x.r.parked then x.stat fun c => { c with fragsAhead := c.fragsAhead + 1 }
    else
      match readerOrderArrival t x m.base (m.base + m.count - 1) with
      | (x, .old) => ackOld x
      | (x, .gap) => x
      | (x, _) =>
        -- a partial inline assembly of it is superseded
        let r := { x.r with started := true, cur := { x.r.cur with active := false } }
        let x := { x with r := r }
        let x :=
          if r.rttProbe ∧ m.base ≤ r.rttProbeSeq ∧ r.rttProbeSeq < m.base + m.count
          then endProbe x now else x
        shmResolve t sink al x m now

/-- The slot a DATA fragment goes to. -/
inductive Slot
  | cur
  | next
  deriving Repr, DecidableEq

/-- The assembly in a slot. -/
def ReaderProxy.slot (r : ReaderProxy) : Slot → Assembly
  | .cur => r.cur
  | .next => r.next

/-- The proxy with another assembly in a slot. -/
def ReaderProxy.setSlot (r : ReaderProxy) (s : Slot) (a : Assembly) : ReaderProxy :=
  match s with
  | .cur => { r with cur := a }
  | .next => { r with next := a }

/-- The seqno of a DATA's fragment 0, in unsigned 64 bit arithmetic. -/
def DataMsg.base (m : DataMsg) : Nat := u64Sub m.seqno m.frag

/-- The allocation of the head failed: it is skipped and reported. -/
def headTooBig (t : Topic) (sink : Sink) (x : ReaderSide) (m : DataMsg) (now : Nat) : ReaderSide :=
  let x := x.emit (.tooBig m.base m.count m.sampleLen)
  let x := { x with r := readerMoveTo x.r (m.base + m.count) }
  let x := if t.reliable then readerAckNow x true false else x
  readerDeliver t sink x now

/-- The counters of an accepted fragment, and the probe it may have been the resend of. -/
def countFrag (x : ReaderSide) (m : DataMsg) (newFrag : Bool) (now : Nat) : ReaderSide :=
  let x := x.stat fun c => { c with fragsRecv := c.fragsRecv + 1 }
  if newFrag then
    if x.r.rttProbe ∧ m.seqno = x.r.rttProbeSeq then endProbe x now else x
  else x.stat fun c => { c with fragsDup := c.fragsDup + 1 }

/-- What follows a stored fragment: a complete head is delivered, and a partial one re
arms only when the fragment opened a real gap below `received_high`. -/
def fragStored (t : Topic) (sink : Sink) (x : ReaderSide) (s : Slot) (m : DataMsg) (newFrag : Bool)
    (now : Nat) : ReaderSide :=
  let low := (x.r.slot s).low
  if s = .next then x                            -- held ahead: it delivers when the head does
  else if low = m.count then readerDeliver t sink x now
  else if t.reliable ∧ newFrag ∧ x.r.deliverUpto + low ≤ x.r.receivedHigh then
    readerAckNow x false false
  else x

/-- A DATA fragment for slot `s`, whose buffers fit, and what follows. -/
def acceptFrag (t : Topic) (peerFrag : Nat) (sink : Sink) (x : ReaderSide) (s : Slot) (m : DataMsg)
    (now : Nat) : ReaderSide :=
  let a := if (x.r.slot s).active then x.r.slot s
    else asmStart (x.r.slot s) m.base m.count m.sampleLen
  if m.count ≠ a.count then { x with r := x.r.setSlot s a }      -- inconsistent, ignore
  else
    let newFrag := !a.bitmap m.frag
    let a' := if newFrag then asmStore peerFrag a m.frag m.payload else a
    let x := countFrag { x with r := x.r.setSlot s a' } m newFrag now
    fragStored t sink x s m newFrag now

/-- A DATA fragment for slot `s` of an engaged lane: the slot's buffers are fitted first. -/
def fitSlot (t : Topic) (peerFrag : Nat) (sink : Sink) (al : Alloc) (x : ReaderSide) (s : Slot)
    (m : DataMsg) (now : Nat) : ReaderSide :=
  match asmFit al (x.r.slot s) m.sampleLen m.count with
  | (a, true) => acceptFrag t peerFrag sink { x with r := x.r.setSlot s a } s m now
  | (a, false) =>
    let x := { x with r := x.r.setSlot s a }
    if s = .next then x.stat fun c => { c with fragsAhead := c.fragsAhead + 1 }
    else headTooBig t sink x m now

/-- A DATA fragment for slot `s`: the writer is engaged from here on. -/
def fillSlot (t : Topic) (peerFrag : Nat) (sink : Sink) (al : Alloc) (x : ReaderSide) (s : Slot)
    (m : DataMsg) (now : Nat) : ReaderSide :=
  fitSlot t peerFrag sink al { x with r := { x.r with started := true } } s m now

/-- `i_rant_reader_data`. -/
def readerData (t : Topic) (peerFrag : Nat) (sink : Sink) (al : Alloc) (x : ReaderSide)
    (m : DataMsg) (now : Nat) : ReaderSide :=
  let malformed := x.stat fun c => { c with fragsMalformed := c.fragsMalformed + 1 }
  if x.r.used = false then malformed             -- not subscribed
  -- a longer claim is malformed and never sizes an allocation
  else if m.count = 0 ∨ m.count ≤ m.frag ∨ m.count * peerFrag < m.sampleLen then malformed
  else
    match readerOrderArrival t (noteAckReq t x m.ackReq) m.base m.seqno with
    | (x, .old) => ackOld (x.stat fun c => { c with fragsOld := c.fragsOld + 1 })
    | (x, .gap) =>
      -- a future sample: hold one ahead
      if x.r.next.active = false ∨ x.r.next.base = m.base then
        fillSlot t peerFrag sink al x .next m now
      else x.stat fun c => { c with fragsAhead := c.fragsAhead + 1 }
    | (x, .adopted) =>
      let x := x.stat fun c => { c with fragsAhead := c.fragsAhead + 1 }
      let x := { x with r := { x.r with cur := { x.r.cur with active := false } } }
      fillSlot t peerFrag sink al x .cur m now
    | (x, .inorder) =>
      if x.r.parked then x.stat fun c => { c with fragsDup := c.fragsDup + 1 }
      else fillSlot t peerFrag sink al x .cur m now

/-! ## Heartbeats -/

/-- Whether a heartbeat's floor moves the reader. A first inside the sample being
assembled or parked is our own mid message ack echoed back. -/
def hbSkips (r : ReaderProxy) (first : Nat) : Prop :=
  r.started = true ∧ r.deliverUpto < first ∧
    (¬ (r.cur.active = true ∨ r.parked = true) ∨ r.deliverUpto + r.cur.count ≤ first)

instance (r : ReaderProxy) (first : Nat) : Decidable (hbSkips r first) :=
  inferInstanceAs (Decidable (_ ∧ _ ∧ _))

/-- The floor skip of `i_rant_reader_hb`. -/
def hbSkip (t : Topic) (sink : Sink) (x : ReaderSide) (m : HbMsg) (now : Nat) : ReaderSide :=
  -- lapped: the floor passed a sample being fetched twice with no delivery between,
  -- so rejoin at the writer's head
  let upto := if t.directed = false ∧ x.r.parked = false ∧ x.r.lapped = true
      ∧ m.first < u64Succ m.last then u64Succ m.last else m.first
  let x :=
    if t.directed then x                         -- not real loss, skip silently
    else
      let skipped := upto - x.r.deliverUpto
      let r := { x.r with lapped := x.r.lapped || !x.r.parked }
      (({ x with r := r }).emit (.lost x.r.deliverUpto skipped)).stat
        fun c => { c with msgsSkipped := c.msgsSkipped + skipped }
  let r := { x.r with rttProbe := false, parked := false, parkedShm := false, shmFail := 0 }
  readerDeliver t sink { x with r := readerMoveTo r upto } now

/-- `i_rant_reader_hb`. -/
def readerHb (t : Topic) (sink : Sink) (x : ReaderSide) (m : HbMsg) (now : Nat) : ReaderSide :=
  if x.r.used = false ∨ ¬ t.reliable then x
  else
    let x := if hbSkips x.r m.first then hbSkip t sink x m now else x
    if x.r.parked then x                         -- still parked: silent
    else readerAckNow { x with r := { x.r with hbLast := m.last } } true true

/-! ## The ACKNACK -/

/-- The top of the request: only what can be held, the head, and the held sample when
it follows the head directly or the head is still unknown. -/
def nackTop (r : ReaderProxy) (firstMissing bound : Nat) : Nat :=
  let top := if bound + 1 < firstMissing + nackWindow then bound + 1 else firstMissing + nackWindow
  let heldEnd := if r.cur.active then r.cur.base + r.cur.count else 0
  let heldEnd :=
    if r.next.active ∧ (r.cur.active = false ∨ r.next.base = heldEnd)
    then r.next.base + r.next.count else heldEnd
  if heldEnd ≠ 0 ∧ heldEnd < top then heldEnd else top

/-- The request loop: the bits asked of `[first, first + n)`, and the lowest seqno at
or past `askedHigh`, which was never asked before. -/
def nackBitmap (r : ReaderProxy) (firstMissing askedHigh : Nat) :
    Nat → Nat → BitVec 32 × Option Nat → BitVec 32 × Option Nat
  | 0, _, acc => acc
  | n + 1, s, acc =>
    let acc :=
      if asmHeld r.cur s ∨ asmHeld r.next s then acc
      else
        (acc.1 ||| (1#32 <<< (s - firstMissing)),
          if acc.2 = none ∧ askedHigh ≤ s then some s else acc.2)
    nackBitmap r firstMissing askedHigh n (s + 1) acc

/-- A repair request goes out: the re ask bound and the round trip probe. -/
def nackAsked (t : Topic) (x : ReaderSide) (firstMissing top : Nat) (bitmap : BitVec 32)
    (probe : Option Nat) (now : Nat) : ReaderSide :=
  let rto := if t.qos.repairDelayUs ≠ 0 then t.qos.repairDelayUs else rttRto x.rtt defRepairUs
  let x := x.stat fun c => { c with nacksSent := c.nacksSent + 1 }
  let r := { x.r with
    nackHigh := if x.r.nackHigh < top then top else x.r.nackHigh
    nackRetransmitUs := now + rto }
  -- a re ask or a passed floor disarms the probe, the lowest first ask arms the next
  let disarm := r.rttProbe && (decide (r.rttProbeSeq < firstMissing) ||
    (decide (r.rttProbeSeq < top) && bitmap.getLsbD (r.rttProbeSeq - firstMissing)))
  let r := if disarm then { r with rttProbe := false } else r
  let r :=
    match probe with
    | some s => if r.rttProbe then r else { r with rttProbe := true, rttProbeSeq := s, rttProbeUs := now }
    | none => r
  { x with r := r }

/-- The highest seqno worth asking for: what was received, and on the slow backstop the
writer's claim, so tail loss still repairs. -/
def nackBound (r : ReaderProxy) (now : Nat) : Nat :=
  if r.nackRetransmitUs ≤ now ∧ r.receivedHigh < r.hbLast then r.hbLast else r.receivedHigh

/-- The lowest seqno to ask for: in flight dedup is valid only while assembling this
message, and on the backstop everything is asked from the floor. -/
def nackStart (r : ReaderProxy) (firstMissing now : Nat) : Nat :=
  if r.nackRetransmitUs ≤ now ∨ r.cur.active = false then firstMissing
  else if firstMissing < r.nackHigh then r.nackHigh else firstMissing

/-- Keeps the lane live while a hole remains, so the backstop re fires. -/
def keepLive (x : ReaderSide) : ReaderSide :=
  ({ x with r := { x.r with ackPending := true, ackDueUs := x.r.nackRetransmitUs } }).emit
    (.arm x.r.nackRetransmitUs)

/-- The repair part of an ACKNACK: the request's width and bits. -/
def nackRepair (t : Topic) (x : ReaderSide) (firstMissing : Nat) (now : Nat) :
    ReaderSide × Nat × BitVec 32 :=
  if firstMissing ≤ nackBound x.r now then
    let top := nackTop x.r firstMissing (nackBound x.r now)
    let start := nackStart x.r firstMissing now
    match nackBitmap x.r firstMissing x.r.nackHigh (top - start) start (0#32, none) with
    | (bitmap, probe) =>
      if bitmap = 0#32 then (keepLive x, 0, bitmap)
      else (keepLive (nackAsked t x firstMissing top bitmap probe now), top - firstMissing, bitmap)
  else ({ x with r := { x.r with nackHigh := firstMissing } }, 0, 0#32)

/-- The cumulative ack point and repair window base: the contiguous front. -/
def ReaderProxy.firstMissing (r : ReaderProxy) : Nat :=
  if r.cur.active then r.deliverUpto + r.cur.low else r.deliverUpto

/-- The ACKNACK of a lane with a position. Only a repair request or a forced cumulative
ack is worth a datagram. -/
def nackReply (t : Topic) (x : ReaderSide) (force : Bool) (now : Nat) :
    ReaderSide × Option NackMsg :=
  match nackRepair t x x.r.firstMissing now with
  | (x', nbits, bitmap) =>
    if bitmap = 0#32 ∧ force = false then (x', none)
    else (x', some { base := x.r.firstMissing, nbits := nbits, bitmap := bitmap
                     epoch := x.r.epoch, unpos := false })

/-- `i_rant_reader_emit`: the ACKNACK for a lane if due. -/
def readerEmit (t : Topic) (x : ReaderSide) (dormant : Bool) (cap now : Nat) :
    ReaderSide × Option NackMsg :=
  if x.r.used = false ∨ dormant ∨ ¬ t.reliable ∨ cap < headerNack then (x, none)
  else if x.r.ackPending = false ∨ now < x.r.ackDueUs then (x, none)
  else
    let force := x.r.ackForce
    let x := { x with r := { x.r with ackPending := false, ackForce := false, ackReq := false } }
    if x.r.parked then (x, none)                 -- parked: silent
    else if x.r.started = false then             -- no position yet: announce our epoch
      (x, some { base := x.r.deliverUpto, nbits := 0, bitmap := 0#32, epoch := x.r.epoch
                 unpos := true })
    else nackReply t x force now

/-! ## Match and resume -/

/-- `i_rant_reader_match` on a lane record: a new incarnation that keeps the grown
buffers. The caller counts the match. -/
def readerMatch (t : Topic) (epoch : Nat) (x : ReaderSide) : ReaderSide :=
  let cur := { x.r.cur with active := false }
  let next := { x.r.next with active := false }
  let r : ReaderProxy := { cur := cur, next := next, epoch := epoch, used := true }
  if t.reliable then
    -- announce the incarnation once so an idle writer re joins and replays
    ({ x with r := { r with ackPending := true, ackDueUs := 0, ackForce := true } }).emit .wake
  else { x with r := r }

/-- One parked lane's turn in `i_rant_transport_deliver_parked`. -/
def deliverParked (t : Topic) (sink : Sink) (x : ReaderSide) : ReaderSide :=
  if x.r.used = false ∨ x.r.parked = false then x
  else if x.r.parkedShm then
    let desc := x.r.cur.buf.take shmDescBytes
    let ok := sink.onShm x.fx desc
    let x := x.emit (.shm x.r.cur.base x.r.cur.count desc ok)
    if ok = 0 then
      -- the chunk is gone: un park, leave the gap, and let the repair path act
      let r := { x.r with
        parked := false, parkedShm := false, cur := { x.r.cur with active := false } }
      readerAckNow { x with r := r } false false
    else if 0 < ok then
      let r := { x.r with parked := false, parkedShm := false, shmFail := 0, lapped := false }
      let x := { x with r := readerMoveTo r (r.cur.base + r.cur.count) }
      let x := if t.reliable then readerAckNow x true false else x
      readerDeliver t sink x 0                   -- an unpark acks at once
    else x
  else
    -- un park and run the ordinary delivery, which re parks on a refusal
    readerDeliver t sink { x with r := { x.r with parked := false } } 0

end Rant.Transport
