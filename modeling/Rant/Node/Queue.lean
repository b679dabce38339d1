import Rant.Lib.Records
/-!
# The callback ring

`src/node/runtime.c`: the ring of one handle on its callback queue. A record is a header of 40 bytes,
the publisher's name and the body at an aligned offset, and is never cut by the end of the buffer:
a short tail holds `RANT__QWRAP`, or no header would fit. The buffer is the list of its bytes, so
`cap` is its length. What records left the ring is kept beside the source's counts of them.
-/

namespace Rant.Node

open Rant.Lib
open Rant.Lib.Fragment (writeAt)

/-- Bytes on the wire or in memory. -/
abbrev QBytes := List UInt8

/-- `sizeof(i_RantQRec)`. -/
def qRecHead : Nat := 40

/-- `RANT__QWRAP`. -/
def qWrap : Nat := 0xFFFFFFFF

/-- `RANT__QALIGN`, in 32 bits. -/
def qAlign (x : Nat) : Nat := (x + 7) % 2 ^ 32 / 8 * 8

/-- `RANT_NODE_NAME_MAX`. -/
def nodeNameMax : Nat := 32

/-- What a push is given. A `recvUs` of 0 takes the clock. -/
structure QPut where
  publisherId : Nat := 0
  name : QBytes := []
  hdr : QBytes := []
  data : QBytes := []
  writtenUs : Nat := 0
  captureUs : Nat := 0
  kind : Nat := 0
  recvUs : Nat := 0
  nowUs : Nat := 0

namespace QPut

variable (p : QPut)

/-- The name as the record takes it. -/
def recName : QBytes := p.name.take nodeNameMax

/-- Where the body stands in the record. -/
def payloadOff : Nat := qAlign (qRecHead + p.recName.length)

/-- The length of the body, in 32 bits. -/
def bodyLen : Nat := (p.hdr.length + p.data.length) % 2 ^ 32

/-- The whole record, in 32 bits. -/
def need : Nat := qAlign (p.payloadOff + p.bodyLen)

/-- The header of the record. -/
def header : QBytes :=
  writeLe 4 p.need ++ writeLe 4 p.bodyLen ++ writeLe 8 (if p.recvUs ≠ 0 then p.recvUs else p.nowUs) ++
    writeLe 8 p.writtenUs ++ writeLe 8 p.captureUs ++ writeLe 4 p.publisherId ++
    writeLe 1 p.recName.length ++ writeLe 1 p.kind ++ [0, 0]

end QPut

/-- `i_RantMsgQueue`, as far as the ring reads it. -/
structure MsgQueue where
  buf : QBytes
  capLimit : Nat
  head : Nat := 0
  tail : Nat := 0
  bytes : Nat := 0
  count : Nat := 0
  dropped : Nat := 0
  viewing : Bool := false
  reliable : Bool := false
  parked : Bool := false
  silent : Bool := false

namespace MsgQueue

variable (q : MsgQueue)

/-- `cap`. -/
def cap : Nat := q.buf.length

/-- `rec_bytes` of the record at `off`. -/
def recBytes (off : Nat) : Nat := (readLe q.buf off 4).getD 0

/-- No record can stand at `off`: the records go on at the start. -/
def wrapsAt (off : Nat) : Bool := decide (q.cap - off < qRecHead) || decide (q.recBytes off = qWrap)

/-- `off`, or the start where no record stands there. -/
def norm (off : Nat) : Nat := if q.wrapsAt off then 0 else off

/-- `i_rant_q_peek`: the wrap is normalized into the tail. -/
def peek : MsgQueue := if q.count = 0 then q else { q with tail := q.norm q.tail }

/-- The bytes of the oldest record. -/
def oldest : QBytes := slice q.buf (q.norm q.tail) (q.recBytes (q.norm q.tail))

/-- `i_rant_q_pop`. -/
def pop : MsgQueue :=
  if q.count = 0 then q
  else
    let q := q.peek
    let n := q.recBytes q.tail
    if q.count = 1 then { q with head := 0, tail := 0, bytes := q.bytes - n, count := 0 }
    else { q with tail := q.tail + n, bytes := q.bytes - n, count := q.count - 1 }

/-- `i_rant_q_fit`: the ring ready for the record, and where it goes. -/
def fit (need : Nat) : Option (MsgQueue × Nat) :=
  if q.cap < need then none
  else if q.count = 0 then some ({ q with head := 0, tail := 0 }, 0)
  else if q.tail < q.head then
    if need ≤ q.cap - q.head then some (q, q.head)
    else if need ≤ q.tail then                                  -- wrap to the start
      some (if 4 ≤ q.cap - q.head then { q with buf := writeAt q.buf q.head (writeLe 4 qWrap) } else q, 0)
    else none
  else if q.head < q.tail ∧ need ≤ q.tail - q.head then some (q, q.head)
  else none                                                     -- full (head == tail)

/-- `while (target < need_total && target < 0x80000000u) target *= 2u`, `n` doublings at most. -/
def doubled (needTotal : Nat) : Nat → Nat → Nat
  | 0, target => target
  | n + 1, target =>
    if target < needTotal ∧ target < 2 ^ 31 then doubled needTotal n (target * 2) else target

/-- The size a ring would grow to. From 4096 on, 31 doublings leave 32 bits. -/
def growTarget (needTotal needOne : Nat) : Nat :=
  let target := if q.cap ≠ 0 then q.cap * 2 % 2 ^ 32 else 4096
  let target := if target < 4096 then 4096 else target
  let target := doubled needTotal 31 target
  let target := if q.capLimit < target then q.capLimit else target
  -- two always fit, since a pinned record blocks the grow its successor would need
  if target / 2 < qAlign needOne then 2 * qAlign needOne % 2 ^ 32 else target

/-- The records from `src` on, one behind the other. -/
def compacted : Nat → Nat → QBytes
  | 0, _ => []
  | n + 1, src =>
    let src := q.norm src
    slice q.buf src (q.recBytes src) ++ compacted n (src + q.recBytes src)

/-- `i_rant_q_grow`: into new memory, where there is some. `none`: it cannot grow now. -/
def grow (needTotal needOne : Nat) (granted : Bool) (junk : Nat → UInt8) : Option MsgQueue :=
  let target := q.growTarget needTotal needOne
  if q.viewing ∨ target ≤ q.cap ∨ granted = false then none
  else
    let recs := q.compacted q.count q.tail
    some { q with
      buf := recs ++ (List.range (target - recs.length)).map junk
      tail := 0, head := recs.length }

end MsgQueue

/-! ## Pushing -/

/-- What a push did: the record as stored, the records that went for it, oldest first, whether it was
refused, and the loss it reported. -/
structure Pushed where
  q : MsgQueue
  stored : Option QBytes := none
  evicted : List QBytes := []
  refused : Bool := false
  lost : Nat := 0

namespace MsgQueue

variable (q : MsgQueue)

/-- The record written at `off`. -/
def put (p : QPut) (off : Nat) : MsgQueue :=
  let buf := writeAt q.buf off p.header
  let buf := writeAt buf (off + qRecHead) p.recName
  let buf := writeAt buf (off + p.payloadOff) (p.hdr ++ p.data)
  { q with buf := buf, head := off + p.need, bytes := q.bytes + p.need, count := q.count + 1 }

/-- The loop of `i_rant_node_queue_push`, from turn `k` on. `none`: the fuel ran out. -/
def pushFrom (p : QPut) (grants : Nat → Bool) (junk : Nat → UInt8) :
    Nat → Nat → List QBytes → MsgQueue → Option Pushed
  | 0, _, _, _ => none
  | fuel + 1, k, evicted, q =>
    match q.fit p.need with
    | some (q, off) =>
      some { q := q.put p off, stored := some (slice (q.put p off).buf off p.need), evicted
             lost := if q.silent then 0 else evicted.length }
    | none =>
      match q.grow ((q.bytes + p.need) % 2 ^ 32) p.need (grants k) junk with
      | some q => pushFrom p grants junk fuel (k + 1) evicted q
      | none =>
        if q.reliable then some { q := { q with parked := true }, evicted, refused := true }
        else if q.viewing = false ∧ q.count ≠ 0 then                -- overwrite the oldest
          pushFrom p grants junk fuel (k + 1) (evicted ++ [q.oldest])
            { q.pop with dropped := q.dropped + 1 }
        else                          -- a live view pins the ring: drop the incoming
          some { q := { q with dropped := q.dropped + 1 }, evicted
                 lost := if q.silent then 0 else evicted.length + 1 }

/-- `i_rant_node_queue_push`. A turn that goes on grows the ring, below 2^32, or drops a record. -/
def push (p : QPut) (grants : Nat → Bool) (junk : Nat → UInt8) : Option Pushed :=
  pushFrom p grants junk (2 ^ 32 + q.count + 1) 0 [] q

/-- `i_rant_node_queue_release`, up to the retry of the parked lanes. -/
def release : MsgQueue := if q.viewing then { q with viewing := false }.pop else q

end MsgQueue

/-! ## Runs -/

/-- What happens to a ring: a push with what the allocator grants it and puts into new memory, a look
at the oldest record, the view of one, its release, what the transport says to the retry of the parked
lanes, and one of the drops of a take of the latest. -/
inductive QueueOp
  | push (p : QPut) (grants : Nat → Bool) (junk : Nat → UInt8)
  | peek
  | view
  | release
  | retried (still : Bool)
  | drop

/-- A ring with the records that were stored, and those that left it, as their bytes were then. -/
structure QueueRun where
  q : MsgQueue
  accepted : List QBytes := []
  gone : List QBytes := []

/-- One event. A view begins while none is out, and a take drops records after its release. -/
def QueueRun.step (s : QueueRun) : QueueOp → Option QueueRun
  | .push p grants junk => (s.q.push p grants junk).map fun out =>
      { q := out.q, accepted := s.accepted ++ out.stored.toList, gone := s.gone ++ out.evicted }
  | .peek => some { s with q := s.q.peek }
  | .view =>
    if s.q.viewing ∨ s.q.count = 0 then some s
    else some { s with q := { s.q.peek with viewing := true } }
  | .release =>
    some { s with q := s.q.release, gone := s.gone ++ (if s.q.viewing then [s.q.oldest] else []) }
  | .retried still => some { s with q := { s.q with parked := still } }
  | .drop =>
    if s.q.viewing ∨ s.q.count ≤ 1 then some s
    else some { s with q := s.q.pop, gone := s.gone ++ [s.q.oldest] }

/-! ## Records -/

/-- A record as the dispatch reads it. -/
structure QRec where
  dataLen : Nat
  tRecvUs : Nat
  tWrittenUs : Nat
  tCaptureUs : Nat
  publisherId : Nat
  nameLen : Nat
  kind : Nat
  name : QBytes
  data : QBytes
  deriving DecidableEq, Repr

/-- The fields of a record, each at its place. -/
def qRecOf (r : QBytes) : QRec :=
  let field (off n : Nat) : Nat := (readLe r off n).getD 0
  { dataLen := field 4 4, tRecvUs := field 8 8, tWrittenUs := field 16 8, tCaptureUs := field 24 8
    publisherId := field 32 4, nameLen := field 36 1, kind := field 37 1
    name := slice r qRecHead (field 36 1)
    data := slice r (qAlign (qRecHead + field 36 1)) (field 4 4) }

end Rant.Node
