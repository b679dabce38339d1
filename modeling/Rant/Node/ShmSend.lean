import Rant.Lib.Endian
import Rant.Transport.Sends
/-!
# Publishing over shared memory

The publish path of `src/node/runtime.c` behind its waits: a message too large for one fragment,
whose live readers all share memory with us, is gathered into a chunk of the topic's pool for its
size class, and the transport is asked to send the chunk. Anything else, and what the transport
refuses, goes inline.

Chunk `i` binds history slot `i`, so the chunk that a send fills may hold the oldest sample of a
full ring, and it is filled before the transport is asked. Where the transport refuses, that
sample stays in the ring with other bytes (`shm_refused`). `Clean` is when it does not, and when
the 32 bit sizes of the branch are the message's.
-/

namespace Rant.Node

open Rant.Lib
open Rant.Transport
open Rant.Lib.Fragment (writeAt)

/-! ## Pools -/

/-- `RANT_SHM_N_CLASSES`. -/
def shmClasses : Nat := 7

/-- `i_rant_shm_class_bytes`: `RANT_SHM_CLASS_BASE << k * RANT_SHM_CLASS_SHIFT`. -/
def shmClassBytes (k : Nat) : Nat := 65536 * 4 ^ k

/-- `i_rant_shm_class_for`: the smallest class that fits, `shmClasses` if none. -/
def shmClassFor (len : Nat) : Nat :=
  ((List.range shmClasses).find? fun k => len ≤ shmClassBytes k).getD shmClasses

/-- A chunk: its payload bytes and its `i_RantShmChunkHdr`. -/
structure ChunkMem where
  bytes : Bytes
  length : Nat := 0
  generation : Nat := 0

/-- `i_RantShmPool` of our own segment. -/
structure ShmPool where
  segmentId : Nat
  chunks : List ChunkMem

/-- `i_rant_shm_create`: the segment starts zero filled. -/
def shmCreate (segmentId chunkBytes n : Nat) : ShmPool where
  segmentId := segmentId
  chunks := List.replicate n { bytes := List.replicate chunkBytes 0 }

/-- `i_rant_shm_desc_encode`. -/
def shmDesc (segmentId chunk length generation : Nat) : Bytes :=
  writeLe 8 segmentId ++ writeLe 4 chunk ++ writeLe 4 length ++ writeLe 8 generation

/-! ## State -/

/-- Where a `shm_buf` points. -/
structure ChunkRef where
  k : Nat := 0
  chunk : Nat := 0
  deriving Repr, DecidableEq

/-- What the publish path reads and writes of `RantNode`. Pools are by topic and class, `refs` by
topic and history slot. `hint` is a topic's `shm_max_bytes`, or else its `max_message_bytes`, and
`tx` are the two counters of a topic with a handle. -/
structure NodeSend where
  transport : SendState
  pools : Nat → Nat → Option ShmPool
  refs : Nat → Nat → ChunkRef
  hint : Nat → Nat
  shmCapable : Bool
  shmTopics : Nat
  shmBase : Nat
  tx : Nat → Option (Nat × Nat)
  shmTx : Nat

/-- One call, and the answers it gets: the schema's, the clock's, the allocators'. `toPeer` is
the peer of a directed send. -/
structure NodeCall where
  c : Nat
  hdr : Bytes
  data : Bytes
  captureUs : Nat
  toPeer : Option Nat
  schemaOk : Bool
  wallUs : Nat
  poolOk : Bool
  env : SendEnv

/-- The codes of the publish path. -/
inductive NodeErr
  | schema
  | transport (e : SendErr)

/-- The bytes of the sample in history slot `i` of topic `c`, where they live. -/
def sampleBytes (s : NodeSend) (c i : Nat) : Bytes :=
  let x := (s.transport.topic c).slotAt i
  if x.shm then
    match (s.pools c (s.refs c i).k).bind fun pool => pool.chunks[(s.refs c i).chunk]? with
    | none => []
    | some m => m.bytes.take x.len
  else x.buf.take x.len

/-! ## The path -/

/-- The sum of a message's parts. The code holds it in a `size_t`. -/
def wireTotal (s : NodeSend) (e : NodeCall) : Nat :=
  (s.transport.topic e.c).stampBytes e.captureUs + e.hdr.length + e.data.length

/-- `len`. -/
def wireLen (s : NodeSend) (e : NodeCall) : Nat := wireTotal s e % 2 ^ 64

/-- `i_rant_transport_publisher_shm_eligible`: the live readers are there, and all share memory. -/
def shmEligible (s : SendState) (c : Nat) : Bool :=
  let live := (s.topic c).laneChain.filter fun p =>
    (s.lanes c p).w.used && !(peerAt s.slots p).dormant
  live ≠ [] && live.all s.peerShm

/-- The call comes to the size test of the branch. -/
def entersShm (s : NodeSend) (e : NodeCall) : Bool :=
  e.schemaOk && e.toPeer.isNone && s.shmCapable && s.transport.frag < wireLen s e &&
    e.c < s.shmTopics && (s.transport.topic e.c).matchedWriters ≠ 0 && shmEligible s.transport e.c

/-- The class a call fits: pinned by the hint, else by its length. -/
def shmClass (s : NodeSend) (e : NodeCall) : Option Nat :=
  if entersShm s e then
    let len32 := wireLen s e % 2 ^ 32
    let k := shmClassFor (if s.hint e.c ≠ 0 then s.hint e.c else len32)
    if k < shmClasses ∧ len32 ≤ shmClassBytes k then some k else none
  else none

/-- `i_rant_node_shm_topic_pool`: the pool of the topic and class, made on first use. -/
def topicPool (s : NodeSend) (c k : Nat) (ok : Bool) : NodeSend :=
  if (s.pools c k).isSome ∨ !ok then s
  else
    let keepLast := (s.transport.topic c).qos.keepLast
    let pool := shmCreate (s.shmBase ||| (c <<< 3) ||| k) (shmClassBytes k)
      (if keepLast ≠ 0 then keepLast else 1)
    { s with pools := fun c' k' => if c' = c ∧ k' = k then some pool else s.pools c' k' }

/-- `i_rant_shm_chunk`. -/
def chunkAt (s : NodeSend) (c k i : Nat) : Option ChunkMem :=
  (s.pools c k).bind fun pool => pool.chunks[i]?

/-- A chunk written. -/
def setChunk (s : NodeSend) (c k i : Nat) (m : ChunkMem) : NodeSend :=
  { s with pools := fun c' k' =>
      if c' = c ∧ k' = k then
        (s.pools c k).map fun pool => { pool with chunks := pool.chunks.set i m }
      else s.pools c' k' }

/-- The gather into a chunk, and `i_rant_shm_stamp`. What a message longer than the chunk writes
behind it is not here: such a call is never `Exact`. -/
def fillChunk (m : ChunkMem) (wire : Bytes) (len32 : Nat) : ChunkMem where
  bytes := writeAt m.bytes 0 wire
  length := len32
  generation := (m.generation + 1) % 2 ^ 64

/-- The whole wire sample of a call, as the chunk takes it. -/
def callWire (s : NodeSend) (e : NodeCall) : Bytes :=
  gather (s.transport.topic e.c) e.hdr e.data e.captureUs e.wallUs

/-- The ring slot a call would take. -/
def callSlot (s : NodeSend) (e : NodeCall) : Nat := (s.transport.topic e.c).historyHead

/-- The state with the call's message in the chunk of class `k`. -/
def filled (s : NodeSend) (e : NodeCall) (k : Nat) (m : ChunkMem) : NodeSend :=
  setChunk (topicPool s e.c k e.poolOk) e.c k (callSlot s e)
    (fillChunk m (callWire s e) (wireLen s e % 2 ^ 32))

/-- The shared memory branch, and whether it sent. -/
def shmBranch (s : NodeSend) (e : NodeCall) : NodeSend × Bool :=
  match shmClass s e with
  | none => (s, false)
  | some k =>
    let pooled := topicPool s e.c k e.poolOk
    match chunkAt pooled e.c k (callSlot s e) with
    | none => (pooled, false)
    | some m =>
      let len32 := wireLen s e % 2 ^ 32
      let m' := fillChunk m (callWire s e) len32
      let segmentId := ((pooled.pools e.c k).map ShmPool.segmentId).getD 0
      match sendShm s.transport e.c (m'.bytes.take (wireLen s e))
          (shmDesc segmentId (callSlot s e) len32 m'.generation) with
      | (t, .error _) => ({ filled s e k m with transport := t }, false)
      | (t, .ok _) =>
        ({ filled s e k m with
            transport := t
            refs := fun c i => if c = e.c ∧ i = callSlot s e then ⟨k, callSlot s e⟩ else s.refs c i
            shmTx := s.shmTx + 1 }, true)

/-- `rant_topic_counts` of a message that went out. -/
def countSent (s : NodeSend) (e : NodeCall) (len : Nat) : NodeSend :=
  { s with tx := fun c => if c = e.c then (s.tx c).map fun x => (x.1 + 1, x.2 + len) else s.tx c }

/-- Who a call is for. -/
def callDest (s : NodeSend) (e : NodeCall) : Dest :=
  match e.toPeer with
  | none => .all
  | some peer => destOf s.transport.slots peer

/-- The inline send the branch falls back to. -/
def inlineSend (s : NodeSend) (e : NodeCall) : Sent Unit :=
  sendInline s.transport e.c e.env e.hdr e.data e.captureUs (callDest s e)

/-- What is left of a call that shared memory did not send. -/
def finishInline (s : NodeSend) (e : NodeCall) (len : Nat) : NodeSend × Except NodeErr Unit :=
  match inlineSend s e with
  | (t, .error x) => ({ s with transport := t }, .error (.transport x))
  | (t, .ok _) => (countSent { s with transport := t } e len, .ok ())

/-- `i_rant_node_do_send_ex` behind its waits. -/
def nodeSend (s : NodeSend) (e : NodeCall) : NodeSend × Except NodeErr Unit :=
  if !e.schemaOk then (s, .error .schema)
  else
    let len := wireLen s e
    match shmBranch s e with
    | (s, true) => (countSent s e len, .ok ())
    | (s, false) => finishInline s e len

/-! ## What a send must leave alone -/

/-- Every slot of shared memory points at the chunk of its own number, in a pool that is there. -/
def NodeSend.Bound (s : NodeSend) : Prop :=
  ∀ c i, ((s.transport.topic c).slotAt i).shm = true →
    (s.refs c i).chunk = i ∧ (s.pools c (s.refs c i).k).isSome = true

/-- A state the publish path can be in. -/
abbrev Publisher := { s : NodeSend // s.Bound }

/-- The sizes of a call are the message's: those of the transport, and in the shared memory
branch the length in 32 bits. -/
structure Exact (s : NodeSend) (e : NodeCall) : Prop where
  inline : SizesExact s.transport.frag (wireTotal s e)
  narrowed : entersShm s e = true → wireLen s e % 2 ^ 32 = wireTotal s e

/-- A call leaves no trace when it fails, and otherwise only the sample it commits. -/
structure NoTrace (s : NodeSend) (e : NodeCall) : Prop where
  sizes : e.schemaOk = true → Exact s e
  failed : ∀ x, (nodeSend s e).2 = .error x →
    (nodeSend s e).1.transport = s.transport ∧ (nodeSend s e).1.tx = s.tx ∧
      (nodeSend s e).1.shmTx = s.shmTx
  kept : ∀ c i, ((s.transport.topic c).slotAt i).valid = true →
    sampleBytes (nodeSend s e).1 c i = sampleBytes s c i ∨
      ((nodeSend s e).2 = .ok () ∧ c = e.c ∧ i = callSlot s e)

/-- The transport takes the message: it fits the fragments, and the role publishes. -/
def Taken (s : NodeSend) (e : NodeCall) : Prop :=
  ¬ writerTooBig s.transport.frag (wireTotal s e) ∧ (s.transport.topic e.c).role.pubs = true

/-- The chunk of class `k` that the call fills holds the sample still in its slot, and the
sample's bytes become others. -/
def Overwrites (s : NodeSend) (e : NodeCall) (k : Nat) : Prop :=
  ∃ m, chunkAt s e.c k (callSlot s e) = some m ∧
    ((s.transport.topic e.c).slotAt (callSlot s e)).valid = true ∧
    ((s.transport.topic e.c).slotAt (callSlot s e)).shm = true ∧
    s.refs e.c (callSlot s e) = ⟨k, callSlot s e⟩ ∧
    (writeAt m.bytes 0 (callWire s e)).take ((s.transport.topic e.c).slotAt (callSlot s e)).len ≠
      m.bytes.take ((s.transport.topic e.c).slotAt (callSlot s e)).len

/-- When a call leaves no trace. -/
structure Clean (s : NodeSend) (e : NodeCall) : Prop where
  gathered : e.schemaOk = true → wireTotal s e < 2 ^ 64
  narrowed : entersShm s e = true → wireTotal s e < 2 ^ 32
  kept : ∀ k, shmClass s e = some k → Taken s e ∨ ¬ Overwrites s e k

/-! ## Sizes -/

variable {s : NodeSend} {e : NodeCall}

/-- When the sizes computed are the true ones. -/
theorem exact_iff (s : NodeSend) (e : NodeCall) :
    Exact s e ↔ wireTotal s e < 2 ^ 64 ∧ (entersShm s e = true → wireTotal s e < 2 ^ 32) := by
  constructor
  · intro h
    have htotal := (sizesExact_iff s.transport _).mp h.inline
    refine ⟨htotal, fun hin => ?_⟩
    have := h.narrowed hin
    omega
  · intro h
    refine ⟨(sizesExact_iff s.transport _).mpr h.1, fun hin => ?_⟩
    have := h.2 hin
    unfold wireLen
    omega

theorem entersShm_schema (h : entersShm s e = true) : e.schemaOk = true := by
  unfold entersShm at h
  simp only [Bool.and_eq_true] at h
  exact h.1.1.1.1.1.1

/-- A call in the branch is of a topic that is there. -/
theorem entersShm_topic (h : entersShm s e = true) : e.c < s.transport.topics.length := by
  unfold entersShm at h
  simp only [Bool.and_eq_true, decide_eq_true_eq] at h
  have hmatched := h.1.2
  by_contra hc
  apply hmatched
  unfold SendState.topic topicAt
  rw [List.getD_eq_getElem?_getD, List.getElem?_eq_none (by omega)]
  rfl

variable {k : Nat}

/-- Only a call that tries shared memory has a class. -/
theorem shmClass_enters (h : shmClass s e = some k) : entersShm s e = true := by
  unfold shmClass at h
  split at h
  next hin => exact hin
  next => cases h

/-- The wire of a call is as long as its size computed. -/
theorem length_callWire (s : NodeSend) (e : NodeCall) : (callWire s e).length = wireTotal s e := by
  unfold callWire wireTotal gather Topic.stampBytes
  rw [List.length_append, List.length_append]
  congr 2
  unfold Topic.tsBytes
  cases (s.transport.topic e.c).qos.noTimestamp with
  | true => simp
  | false =>
    by_cases hcap : e.captureUs = 0
    · simp [hcap, timestampBytes, le64]
    · simp [hcap, timestampBytes, captureBytes, le64]

/-! ## The pools -/

variable {c i : Nat}

/-- The bytes of a sample of shared memory, by its chunk. -/
theorem sampleBytes_shm (h : ((s.transport.topic c).slotAt i).shm = true) :
    sampleBytes s c i = ((chunkAt s c (s.refs c i).k (s.refs c i).chunk).map fun m =>
      m.bytes.take ((s.transport.topic c).slotAt i).len).getD [] := by
  unfold sampleBytes chunkAt
  dsimp only
  rw [if_pos h]
  cases (s.pools c (s.refs c i).k).bind fun pool => pool.chunks[(s.refs c i).chunk]? with
  | none => rfl
  | some m => rfl

/-- An inline sample is in the slot's own buffer. -/
theorem sampleBytes_inline (h : ((s.transport.topic c).slotAt i).shm = false) :
    sampleBytes s c i = ((s.transport.topic c).slotAt i).buf.take
      ((s.transport.topic c).slotAt i).len := by
  unfold sampleBytes
  dsimp only
  rw [if_neg (by simp [h])]

/-- Two states with the same slot have the same sample in it, if a slot of shared memory also has
the same chunk. -/
theorem sampleBytes_congr {s' : NodeSend}
    (hslot : (s'.transport.topic c).slotAt i = (s.transport.topic c).slotAt i)
    (hchunk : ((s.transport.topic c).slotAt i).shm = true →
      chunkAt s' c (s'.refs c i).k (s'.refs c i).chunk =
        chunkAt s c (s.refs c i).k (s.refs c i).chunk) :
    sampleBytes s' c i = sampleBytes s c i := by
  cases hshm : ((s.transport.topic c).slotAt i).shm with
  | true =>
    rw [sampleBytes_shm hshm, sampleBytes_shm (by rw [hslot]; exact hshm), hchunk hshm, hslot]
  | false =>
    rw [sampleBytes_inline hshm, sampleBytes_inline (by rw [hslot]; exact hshm), hslot]

/-- A pool that was there stays. -/
theorem topicPool_pools {c' k' : Nat} {ok : Bool} (h : (s.pools c' k').isSome = true) :
    (topicPool s c k ok).pools c' k' = s.pools c' k' := by
  unfold topicPool
  split
  next => rfl
  next hnew =>
    dsimp only
    split
    next heq =>
      rw [← heq.1, ← heq.2] at hnew
      exact absurd (Or.inl h) hnew
    next => rfl

/-- Making a pool leaves the transport and the buffers alone, -/
theorem topicPool_transport (s : NodeSend) (c k : Nat) (ok : Bool) :
    (topicPool s c k ok).transport = s.transport ∧ (topicPool s c k ok).refs = s.refs ∧
      (topicPool s c k ok).tx = s.tx ∧ (topicPool s c k ok).shmTx = s.shmTx := by
  unfold topicPool
  split <;> exact ⟨rfl, rfl, rfl, rfl⟩

/-- A chunk written leaves the others. -/
theorem chunkAt_setChunk_ne {c' k' i' : Nat} (m : ChunkMem)
    (hne : ¬ (c' = c ∧ k' = k ∧ i' = i)) :
    chunkAt (setChunk s c k i m) c' k' i' = chunkAt s c' k' i' := by
  unfold chunkAt setChunk
  dsimp only
  by_cases hk : c' = c ∧ k' = k
  · rw [if_pos hk, hk.1, hk.2]
    have hi : i' ≠ i := fun hi => hne ⟨hk.1, hk.2, hi⟩
    cases s.pools c k with
    | none => rfl
    | some pool => simp [Ne.symm hi]
  · rw [if_neg hk]

variable {m : ChunkMem}

/-- A chunk written is read back. -/
theorem chunkAt_setChunk (m' : ChunkMem)
    (h : chunkAt s c k i = some m) : chunkAt (setChunk s c k i m') c k i = some m' := by
  unfold chunkAt at h ⊢
  unfold setChunk
  dsimp only
  rw [if_pos ⟨rfl, rfl⟩]
  cases hp : s.pools c k with
  | none =>
    rw [hp] at h
    cases h
  | some pool =>
    rw [hp] at h
    have hi : i < pool.chunks.length := by
      have h : pool.chunks[i]? = some m := h
      exact (List.getElem?_eq_some_iff.mp h).1
    simp [hi]

/-! ## One call -/

/-- The branch as far as it got: no chunk, the chunk filled and the sample sent, or the chunk
filled and the sample refused. -/
inductive Branch (s : NodeSend) (e : NodeCall) : NodeSend × Bool → Prop
  | noClass (h : shmClass s e = none) : Branch s e (s, false)
  | noChunk (k : Nat) (hk : shmClass s e = some k)
      (hm : chunkAt (topicPool s e.c k e.poolOk) e.c k (callSlot s e) = none) :
      Branch s e (topicPool s e.c k e.poolOk, false)
  | sent (k : Nat) (m : ChunkMem) (chunk desc : Bytes) (t : SendState)
      (hk : shmClass s e = some k)
      (hm : chunkAt (topicPool s e.c k e.poolOk) e.c k (callSlot s e) = some m)
      (hchunk : chunk = (fillChunk m (callWire s e) (wireLen s e % 2 ^ 32)).bytes.take (wireLen s e))
      (hsend : sendShm s.transport e.c chunk desc = (t, .ok ())) :
      Branch s e ({ filled s e k m with
        transport := t
        refs := fun c i => if c = e.c ∧ i = callSlot s e then ⟨k, callSlot s e⟩ else s.refs c i
        shmTx := s.shmTx + 1 }, true)
  | refused (k : Nat) (m : ChunkMem) (chunk desc : Bytes) (x : SendErr)
      (hk : shmClass s e = some k)
      (hm : chunkAt (topicPool s e.c k e.poolOk) e.c k (callSlot s e) = some m)
      (hchunk : chunk = (fillChunk m (callWire s e) (wireLen s e % 2 ^ 32)).bytes.take (wireLen s e))
      (hsend : sendShm s.transport e.c chunk desc = (s.transport, .error x)) :
      Branch s e (filled s e k m, false)

/-- The ways through the shared memory path. -/
theorem shmBranch_cases (s : NodeSend) (e : NodeCall) : Branch s e (shmBranch s e) := by
  unfold shmBranch
  cases hk : shmClass s e with
  | none => exact .noClass hk
  | some k =>
    dsimp only
    cases hm : chunkAt (topicPool s e.c k e.poolOk) e.c k (callSlot s e) with
    | none => exact .noChunk k hk hm
    | some m =>
      dsimp only
      generalize hd : shmDesc _ _ _ _ = desc
      generalize hc : (fillChunk m (callWire s e) (wireLen s e % 2 ^ 32)).bytes.take (wireLen s e) =
        chunk
      cases hsend : sendShm s.transport e.c chunk desc with
      | mk t r =>
        cases r with
        | error x =>
          have hsame : t = s.transport := sendShm_error hsend
          subst hsame
          have hstate : ({ filled s e k m with transport := s.transport } : NodeSend) =
              filled s e k m := by
            have htr : (filled s e k m).transport = s.transport :=
              (topicPool_transport s e.c k e.poolOk).1
            rw [← htr]
          have hbranch := Branch.refused k m chunk desc x hk hm hc.symm hsend
          rw [← hstate] at hbranch
          exact hbranch
        | ok u => exact .sent k m chunk desc t hk hm hc.symm hsend

/-! ## Its samples -/

/-- A pool made leaves every sample: the slots of shared memory point into pools that were there. -/
theorem topicPool_sample (hb : s.Bound) (c k : Nat) (ok : Bool) (c' i : Nat) :
    sampleBytes (topicPool s c k ok) c' i = sampleBytes s c' i := by
  obtain ⟨htr, hrefs, -⟩ := topicPool_transport s c k ok
  apply sampleBytes_congr
  · rw [htr]
  · intro hshm
    unfold chunkAt
    rw [hrefs, topicPool_pools (hb c' i hshm).2]

/-- and every chunk there was. -/
theorem topicPool_chunk (h : chunkAt s c k i = some m) (c' k' : Nat)
    (ok : Bool) : chunkAt (topicPool s c' k' ok) c k i = some m := by
  have hsome : (s.pools c k).isSome = true := by
    unfold chunkAt at h
    cases hp : s.pools c k with
    | none =>
      rw [hp] at h
      cases h
    | some pool => rfl
  unfold chunkAt at h ⊢
  rw [topicPool_pools hsome]
  exact h

/-- The filled chunk is the only one that changed. -/
theorem filled_sample (hb : s.Bound) (k : Nat) (m : ChunkMem)
    (h : ((s.transport.topic c).slotAt i).shm = true →
      ¬ (c = e.c ∧ i = callSlot s e ∧ (s.refs c i).k = k)) :
    sampleBytes (filled s e k m) c i = sampleBytes s c i := by
  obtain ⟨htr, hrefs, -⟩ := topicPool_transport s e.c k e.poolOk
  rw [← topicPool_sample hb e.c k e.poolOk c i]
  apply sampleBytes_congr
  · rfl
  · intro hshm
    have hshm' : ((s.transport.topic c).slotAt i).shm = true := by
      rw [← htr]
      exact hshm
    have hchunk := (hb c i hshm').1
    have hr : (filled s e k m).refs = (topicPool s e.c k e.poolOk).refs := rfl
    rw [hr, hrefs]
    apply chunkAt_setChunk_ne
    intro heq
    apply h hshm'
    refine ⟨heq.1, ?_, heq.2.1⟩
    rw [← hchunk]
    exact heq.2.2

/-- What the sample in the filled chunk becomes. -/
theorem filled_head
    (hshm : ((s.transport.topic e.c).slotAt (callSlot s e)).shm = true)
    (hrefs : s.refs e.c (callSlot s e) = ⟨k, callSlot s e⟩)
    (hm : chunkAt s e.c k (callSlot s e) = some m) :
    sampleBytes (filled s e k m) e.c (callSlot s e) = (writeAt m.bytes 0 (callWire s e)).take
      ((s.transport.topic e.c).slotAt (callSlot s e)).len := by
  obtain ⟨htr, hrefs', -⟩ := topicPool_transport s e.c k e.poolOk
  have ht : (filled s e k m).transport = s.transport := htr
  have hr : (filled s e k m).refs = s.refs := hrefs'
  have hc : chunkAt (filled s e k m) e.c k (callSlot s e) = _ :=
    chunkAt_setChunk (fillChunk m (callWire s e) (wireLen s e % 2 ^ 32))
      (topicPool_chunk hm e.c k e.poolOk)
  rw [sampleBytes_shm (by rw [ht]; exact hshm), ht, hr, hrefs, hc]
  rfl

/-! ## The inline send -/

/-- A refused inline send leaves the transport. -/
theorem inlineSend_error {t : SendState} {x : SendErr} (h : inlineSend s e = (t, .error x)) :
    t = s.transport := sendInline_error h

/-- The inline send keeps every sample but the one it replaces. -/
theorem finishInline_kept (s : NodeSend) (e : NodeCall) (len c i : Nat) :
    sampleBytes (finishInline s e len).1 c i = sampleBytes s c i ∨
      ((finishInline s e len).2 = .ok () ∧ c = e.c ∧ i = callSlot s e) := by
  unfold finishInline
  cases hsend : inlineSend s e with
  | mk t r =>
    cases r with
    | error x =>
      have hsame := inlineSend_error hsend
      subst hsame
      exact Or.inl rfl
    | ok u =>
      by_cases hat : c = e.c ∧ i = callSlot s e
      · exact Or.inr ⟨rfl, hat⟩
      left
      apply sampleBytes_congr
      · exact (sendInline_slots hsend).1 c i hat
      · intro _
        rfl

/-- And leaves nothing when it fails. -/
theorem finishInline_failed {len : Nat} {x : NodeErr} (h : (finishInline s e len).2 = .error x) :
    (finishInline s e len).1 = s := by
  unfold finishInline at h ⊢
  cases hsend : inlineSend s e with
  | mk t r =>
    rw [hsend] at h
    cases r with
    | error x =>
      have hsame := inlineSend_error hsend
      subst hsame
      rfl
    | ok u => cases h

/-- An inline send keeps each slot at its own chunk, -/
theorem finishInline_bound (hb : s.Bound) (e : NodeCall) (len : Nat) :
    (finishInline s e len).1.Bound := by
  unfold finishInline
  cases hsend : inlineSend s e with
  | mk t r =>
    cases r with
    | error x =>
      have hsame := inlineSend_error hsend
      subst hsame
      exact hb
    | ok u =>
      intro c i hshm
      exact hb c i ((sendInline_slots hsend).2 c i hshm)

/-! ## The invariant -/

/-- so does a pool made, -/
theorem topicPool_bound (hb : s.Bound) (c k : Nat) (ok : Bool) : (topicPool s c k ok).Bound := by
  obtain ⟨htr, hrefs, -⟩ := topicPool_transport s c k ok
  intro c' i hshm
  rw [htr] at hshm
  obtain ⟨hchunk, hpool⟩ := hb c' i hshm
  rw [hrefs]
  refine ⟨hchunk, ?_⟩
  rw [topicPool_pools hpool]
  exact hpool

/-- Every pool outlives a chunk written. -/
theorem setChunk_pools (s : NodeSend) (c k i : Nat) (m : ChunkMem) (c' k' : Nat) :
    ((setChunk s c k i m).pools c' k').isSome = (s.pools c' k').isSome := by
  unfold setChunk
  dsimp only
  split
  next h =>
    rw [h.1, h.2]
    cases s.pools c k <;> rfl
  next => rfl

/-- and so does a chunk filled. -/
theorem filled_bound (hb : s.Bound) (k : Nat) (m : ChunkMem) : (filled s e k m).Bound := by
  intro c i hshm
  obtain ⟨hchunk, hpool⟩ := topicPool_bound hb e.c k e.poolOk c i hshm
  refine ⟨hchunk, ?_⟩
  have hr : (filled s e k m).refs = (topicPool s e.c k e.poolOk).refs := rfl
  rw [hr]
  unfold filled
  rw [setChunk_pools]
  exact hpool

/-- A call keeps it. -/
theorem nodeSend_bound (hb : s.Bound) (e : NodeCall) : (nodeSend s e).1.Bound := by
  unfold nodeSend
  by_cases hschema : e.schemaOk = true
  · rw [if_neg (by simp [hschema])]
    dsimp only
    have hbranch := shmBranch_cases s e
    generalize shmBranch s e = b at hbranch
    cases hbranch with
    | noClass _ => exact finishInline_bound hb e _
    | noChunk k _ _ => exact finishInline_bound (topicPool_bound hb e.c k e.poolOk) e _
    | refused k m chunk desc x _ _ _ _ => exact finishInline_bound (filled_bound hb k m) e _
    | sent k m chunk desc t hk hm _ hsend =>
      intro c i hshm
      have hshm : ((t.topic c).slotAt i).shm = true := hshm
      show (if c = e.c ∧ i = callSlot s e then (⟨k, callSlot s e⟩ : ChunkRef) else s.refs c i).chunk = i ∧
        ((filled s e k m).pools c (if c = e.c ∧ i = callSlot s e then (⟨k, callSlot s e⟩ : ChunkRef)
          else s.refs c i).k).isSome = true
      by_cases hat : c = e.c ∧ i = callSlot s e
      · rw [if_pos hat]
        refine ⟨hat.2.symm, ?_⟩
        unfold filled
        rw [setChunk_pools, hat.1]
        unfold chunkAt at hm
        cases hp : (topicPool s e.c k e.poolOk).pools e.c k with
        | none =>
          rw [hp] at hm
          cases hm
        | some pool => rfl
      · rw [if_neg hat]
        rw [sendShm_slots hsend c i hat] at hshm
        obtain ⟨hchunk, hpool⟩ := hb c i hshm
        refine ⟨hchunk, ?_⟩
        unfold filled
        rw [setChunk_pools, topicPool_pools hpool]
        exact hpool
  · rw [if_pos (by simp [hschema])]
    exact hb

/-! ## When a call leaves no trace -/

/-- The length the transport is asked with is the message's. -/
theorem length_chunk (htotal : wireTotal s e < 2 ^ 64) (m : ChunkMem) (n : Nat) :
    ((fillChunk m (callWire s e) n).bytes.take (wireLen s e)).length = wireTotal s e := by
  have hlen : wireLen s e = wireTotal s e := Nat.mod_eq_of_lt htotal
  have hwire := length_callWire s e
  unfold fillChunk writeAt
  rw [List.length_take, List.length_append, List.length_append]
  omega

/-- A call shared memory was refused for is refused inline. -/
theorem finishInline_refused (htotal : wireTotal s e < 2 ^ 64) {n : Nat}
    {desc : Bytes} {x : SendErr}
    (hsend : sendShm s.transport e.c ((fillChunk m (callWire s e) n).bytes.take (wireLen s e)) desc =
      (s.transport, .error x)) (len : Nat) :
    ∃ y, (finishInline (filled s e k m) e len).2 = .error y := by
  have hrefused := sendShm_refused hsend
  rw [length_chunk htotal] at hrefused
  have htr : (filled s e k m).transport = s.transport := (topicPool_transport s e.c k e.poolOk).1
  unfold finishInline inlineSend
  rw [htr]
  obtain ⟨y, hy⟩ := @sendInline_refused s.transport e.c e.env e.hdr e.data e.captureUs
    (callDest (filled s e k m) e) hrefused
  rw [hy]
  exact ⟨_, rfl⟩

/-- Behind the branch, a call that shared memory did not send fails without a trace of its own. -/
theorem finishInline_trace {s' : NodeSend} (htr : s'.transport = s.transport)
    (htx : s'.tx = s.tx ∧ s'.shmTx = s.shmTx) {len : Nat} {x : NodeErr}
    (h : (finishInline s' e len).2 = .error x) :
    (finishInline s' e len).1.transport = s.transport ∧ (finishInline s' e len).1.tx = s.tx ∧
      (finishInline s' e len).1.shmTx = s.shmTx := by
  rw [finishInline_failed h]
  exact ⟨htr, htx⟩

/-- A fill writes one chunk. -/
theorem filled_rest (s : NodeSend) (e : NodeCall) (k : Nat) (m : ChunkMem) :
    (filled s e k m).transport = s.transport ∧
      (filled s e k m).tx = s.tx ∧ (filled s e k m).shmTx = s.shmTx := by
  obtain ⟨htr, -, htx⟩ := topicPool_transport s e.c k e.poolOk
  exact ⟨htr, htx⟩

/-- A failed call leaves the transport and the counters. -/
theorem nodeSend_failed {x : NodeErr} (h : (nodeSend s e).2 = .error x) :
    (nodeSend s e).1.transport = s.transport ∧ (nodeSend s e).1.tx = s.tx ∧
      (nodeSend s e).1.shmTx = s.shmTx := by
  unfold nodeSend at h ⊢
  by_cases hschema : e.schemaOk = true
  · rw [if_neg (by simp [hschema])] at h ⊢
    dsimp only at h ⊢
    have hbranch := shmBranch_cases s e
    generalize shmBranch s e = b at h hbranch
    cases hbranch with
    | noClass _ => exact finishInline_trace rfl ⟨rfl, rfl⟩ h
    | noChunk k _ _ =>
      obtain ⟨htr, -, htx⟩ := topicPool_transport s e.c k e.poolOk
      exact finishInline_trace htr htx h
    | refused k m chunk desc y _ _ _ _ =>
      obtain ⟨htr, htx⟩ := filled_rest s e k m
      exact finishInline_trace htr htx h
    | sent k m chunk desc t _ _ _ _ => cases h
  · rw [if_pos (by simp [hschema])]
    exact ⟨rfl, rfl, rfl⟩

/-- A sample that stays on the way to the inline send stays behind it. -/
theorem finishInline_keeps {s' : NodeSend} (htr : s'.transport = s.transport)
    (h : sampleBytes s' c i = sampleBytes s c i) (len : Nat) :
    sampleBytes (finishInline s' e len).1 c i = sampleBytes s c i ∨
      ((finishInline s' e len).2 = .ok () ∧ c = e.c ∧ i = callSlot s e) := by
  have hslot : callSlot s' e = callSlot s e := by
    unfold callSlot
    rw [htr]
  rw [← h, ← hslot]
  exact finishInline_kept s' e len c i

/-- The samples of a call that overwrites nothing. -/
theorem nodeSend_kept (hb : s.Bound) (hclean : Clean s e)
    (hvalid : ((s.transport.topic c).slotAt i).valid = true) :
    sampleBytes (nodeSend s e).1 c i = sampleBytes s c i ∨
      ((nodeSend s e).2 = .ok () ∧ c = e.c ∧ i = callSlot s e) := by
  unfold nodeSend
  by_cases hschema : e.schemaOk = true
  · rw [if_neg (by simp [hschema])]
    dsimp only
    have hbranch := shmBranch_cases s e
    generalize shmBranch s e = b at hbranch
    cases hbranch with
    | noClass _ => exact finishInline_keeps rfl rfl _
    | noChunk k _ _ =>
      exact finishInline_keeps (topicPool_transport s e.c k e.poolOk).1
        (topicPool_sample hb e.c k e.poolOk c i) _
    | refused k m chunk desc y hk hm hchunk hsend =>
      apply finishInline_keeps (filled_rest s e k m).1
      by_cases hat : ((s.transport.topic c).slotAt i).shm = true ∧ c = e.c ∧ i = callSlot s e ∧
          (s.refs c i).k = k
      · -- the sample in the filled chunk: its bytes are the same, or the call is not clean
        obtain ⟨hshm, rfl, rfl, hrk⟩ := hat
        have htotal := hclean.gathered hschema
        rw [hchunk] at hsend
        have hrefused := sendShm_refused hsend
        rw [length_chunk htotal] at hrefused
        obtain ⟨hrc, hpool⟩ := hb e.c (callSlot s e) hshm
        have hrefs : s.refs e.c (callSlot s e) = ⟨k, callSlot s e⟩ := by
          exact congrArg₂ ChunkRef.mk hrk hrc
        rw [hrk] at hpool
        have hm' : chunkAt s e.c k (callSlot s e) = some m := by
          unfold chunkAt at hm ⊢
          rw [topicPool_pools hpool] at hm
          exact hm
        obtain htaken | hover := hclean.kept k hk
        · have htopic := entersShm_topic (shmClass_enters hk)
          obtain hr | hr | hr := hrefused
          · omega
          · exact absurd hr htaken.1
          · rw [htaken.2] at hr
            cases hr
        · rw [filled_head hshm hrefs hm', sampleBytes_shm hshm, hrefs, hm']
          by_contra hne
          exact hover ⟨m, hm', hvalid, hshm, hrefs, hne⟩
      · exact filled_sample hb k m fun hshm heq => hat ⟨hshm, heq⟩
    | sent k m chunk desc t hk hm hchunk hsend =>
      by_cases hat : c = e.c ∧ i = callSlot s e
      · exact Or.inr ⟨rfl, hat⟩
      left
      rw [← filled_sample (k := k) (e := e) hb m fun _ heq => hat ⟨heq.1, heq.2.1⟩]
      apply sampleBytes_congr
      · have htr := (filled_rest s e k m).1
        rw [htr]
        exact sendShm_slots hsend c i hat
      · intro _
        have hrefs : (filled s e k m).refs = s.refs := (topicPool_transport s e.c k e.poolOk).2.1
        have hr : (if c = e.c ∧ i = callSlot s e then (⟨k, callSlot s e⟩ : ChunkRef)
            else s.refs c i) = (filled s e k m).refs c i := by
          rw [if_neg hat, hrefs]
        show chunkAt (filled s e k m) c
          (if c = e.c ∧ i = callSlot s e then (⟨k, callSlot s e⟩ : ChunkRef) else s.refs c i).k
          (if c = e.c ∧ i = callSlot s e then (⟨k, callSlot s e⟩ : ChunkRef) else s.refs c i).chunk = _
        rw [hr]
  · rw [if_pos (by simp [hschema])]
    exact Or.inl rfl

/-- A call that overwrites a sample and is refused shows. -/
theorem nodeSend_overwrites (htotal : wireTotal s e < 2 ^ 64)
    (hk : shmClass s e = some k) (htaken : ¬ Taken s e) (hover : Overwrites s e k) :
    (∃ x, (nodeSend s e).2 = .error x) ∧
      sampleBytes (nodeSend s e).1 e.c (callSlot s e) ≠ sampleBytes s e.c (callSlot s e) := by
  obtain ⟨m, hm, -, hshm, hrefs, hne⟩ := hover
  have hschema := entersShm_schema (shmClass_enters hk)
  have hm' := topicPool_chunk hm e.c k e.poolOk
  unfold nodeSend
  rw [if_neg (by simp [hschema])]
  dsimp only
  have hbranch := shmBranch_cases s e
  generalize shmBranch s e = b at hbranch
  cases hbranch with
  | noClass h =>
    rw [hk] at h
    cases h
  | noChunk k' hk' hnone =>
    rw [hk] at hk'
    cases hk'
    rw [hm'] at hnone
    cases hnone
  | sent k' m₁ chunk desc t hk' hm₁ hchunk hsend =>
    have hpassed := sendShm_taken hsend
    rw [hchunk, length_chunk htotal] at hpassed
    exact absurd hpassed htaken
  | refused k' m₁ chunk desc y hk' hm₁ hchunk hsend =>
    rw [hk] at hk'
    cases hk'
    rw [hm'] at hm₁
    cases hm₁
    rw [hchunk] at hsend
    obtain ⟨x, hx⟩ := finishInline_refused htotal hsend (wireLen s e)
    refine ⟨⟨x, hx⟩, ?_⟩
    dsimp only
    rw [finishInline_failed hx, filled_head hshm hrefs hm, sampleBytes_shm hshm, hrefs, hm]
    exact hne

/-- A call leaves no trace exactly where it is clean. -/
theorem noTrace_iff (hb : s.Bound) (e : NodeCall) : NoTrace s e ↔ Clean s e := by
  constructor
  · intro h
    refine ⟨fun hschema => ?_, fun hin => ?_, fun k hk => ?_⟩
    · exact ((exact_iff s e).mp (h.sizes hschema)).1
    · exact ((exact_iff s e).mp (h.sizes (entersShm_schema hin))).2 hin
    · by_contra hnot
      rw [not_or, not_not] at hnot
      have hschema := entersShm_schema (shmClass_enters hk)
      have htotal := ((exact_iff s e).mp (h.sizes hschema)).1
      obtain ⟨⟨x, hx⟩, hne⟩ := nodeSend_overwrites htotal hk hnot.1 hnot.2
      obtain ⟨m, -, hvalid, -⟩ := hnot.2
      obtain hsame | ⟨hok, -⟩ := h.kept e.c (callSlot s e) hvalid
      · exact hne hsame
      · rw [hok] at hx
        cases hx
  · intro h
    refine ⟨fun hschema => ?_, fun x hx => nodeSend_failed hx, fun c i hv => nodeSend_kept hb h hv⟩
    exact (exact_iff s e).mpr ⟨h.gathered hschema, h.narrowed⟩

/-- A failed send of the transport changes nothing, and its sizes are exact for every message that
can be in memory. On the node's path a call leaves no trace exactly where it is clean. -/
theorem failed_sends_leave_no_trace (t : SendState) (s : Publisher) (e : NodeCall) :
    (∀ (t' : SendState) (c : Nat) (env : SendEnv) (call : SendCall) (x : SendErr),
      t.call c env call = (t', .error x) → t' = t) ∧
    (∀ (c : Nat) (call : SendCall),
      SizesExact t.frag (call.total (t.topic c)) ↔ call.total (t.topic c) < 2 ^ 64) ∧
    (NoTrace s.1 e ↔ Clean s.1 e) ∧ (nodeSend s.1 e).1.Bound := by
  refine ⟨?_, ?_, noTrace_iff s.2 e, nodeSend_bound s.2 e⟩
  · intro t' c env call x h
    exact failed_send_same h
  · intro c call
    exact sizesExact_iff t _

/-- A transport of one topic. -/
def oneTopic (t : Topic) : SendState where
  frag := 1350
  topics := [t]
  slots := [⟨true, 7, false⟩]
  peerShm _ := true
  lanes _ _ := ⟨{}, { used := true }, {}, []⟩
  frag_pos := Nat.succ_pos 1349
  frag_lt := of_decide_eq_true rfl

/-- A topic of depth one, its sample of 2000 bytes in shared memory. -/
def pinnedTopic : Topic :=
  { Topic.undefined with
    qos := ⟨.reliable, 1, 0, 0, 0, 0, true⟩, name := [120], role := .pubOnly
    history := [{ WriterSample.empty with valid := true, shm := true, len := 2000, count := 2 }]
    nextSeqno := 2, haveFirst := true, matchedWriters := 1, laneChain := [0] }

/-- Its node: the size hint of 256 MiB pins the topic to the largest class, whose chunk holds
`mem`. -/
def pinned (mem : Bytes) : NodeSend where
  transport := oneTopic pinnedTopic
  pools _ _ := some ⟨0, [⟨mem, 2000, 1⟩]⟩
  refs _ i := ⟨6, i⟩
  hint _ := 268435456
  shmCapable := true
  shmTopics := 1
  shmBase := 0
  tx _ := none
  shmTx := 1

/-- A plain publish. -/
def publish (data : Bytes) : NodeCall := ⟨0, [], data, 0, none, true, 0, true, {}⟩

theorem pinned_bound (mem : Bytes) : (pinned mem).Bound := fun _ _ _ => ⟨rfl, rfl⟩

/-- A small message there is no memory for. -/
def starved : NodeCall := { publish [1] with env := { al := { bufOk := false } } }

/-- A message of two fragments takes its chunk, and the small one is refused. -/
theorem failed_sends_leave_no_trace_pinned :
    NoTrace (pinned (List.replicate 2000 5)) (publish (List.replicate 2000 1)) ∧
      (nodeSend (pinned []) starved).2 = .error (.transport .oom) ∧
        NoTrace (pinned []) starved := by
  have htrace : ∀ mem e, Clean (pinned mem) e → NoTrace (pinned mem) e := fun mem e =>
    (failed_sends_leave_no_trace (oneTopic pinnedTopic) ⟨pinned mem, pinned_bound mem⟩ e).2.2.1.mpr
  refine ⟨htrace _ _ ⟨fun _ => ?_, fun _ => ?_, fun _ _ => Or.inl ⟨?_, rfl⟩⟩, rfl,
    htrace _ _ ⟨fun _ => ?_, fun _ => ?_, fun _ _ => Or.inl ⟨?_, rfl⟩⟩⟩
  all_goals decide +kernel

/-- One byte over 65535 fragments: the class holds it, the transport does not take it. -/
theorem pinned_overwrites {mem data : Bytes} (hlen : data.length = 88472251)
    (hbyte : data[0]? ≠ mem[0]?) : ¬ Clean (pinned mem) (publish data) := by
  intro h
  have htotal : wireTotal (pinned mem) (publish data) = 88472251 := by
    have hstamp : ((pinned mem).transport.topic (publish data).c).stampBytes
        (publish data).captureUs = 0 := rfl
    have hhdr : (publish data).hdr.length = 0 := rfl
    have hdata : (publish data).data.length = 88472251 := hlen
    unfold wireTotal
    omega
  have hwire : wireLen (pinned mem) (publish data) = 88472251 := by
    unfold wireLen
    omega
  have hin : entersShm (pinned mem) (publish data) = true := by
    have hfrag : decide ((pinned mem).transport.frag < 88472251) = true :=
      decide_eq_true (by
        have : (pinned mem).transport.frag = 1350 := rfl
        omega)
    unfold entersShm
    rw [hwire, hfrag]
    rfl
  have hk : shmClass (pinned mem) (publish data) = some 6 := by
    have hfor : shmClassFor 268435456 = 6 := by decide +kernel
    have hbytes : shmClassBytes 6 = 268435456 := by decide +kernel
    have hhint : (pinned mem).hint (publish data).c = 268435456 := rfl
    unfold shmClass
    have hpin : (if 268435456 ≠ 0 then 268435456 else 88472251 % 2 ^ 32) = 268435456 :=
      if_pos (by omega)
    rw [if_pos hin, hwire, hhint]
    dsimp only
    rw [hpin, hfor, hbytes, if_pos (by unfold shmClasses; omega)]
  obtain htaken | hover := h.kept 6 hk
  · have hbig := htaken.1
    rw [htotal] at hbig
    have hfrag : (pinned mem).transport.frag = 1350 := rfl
    unfold writerTooBig at hbig
    omega
  · apply hover
    refine ⟨⟨mem, 2000, 1⟩, rfl, rfl, rfl, rfl, ?_⟩
    intro heq
    apply hbyte
    have hgather : callWire (pinned mem) (publish data) = data := by
      unfold callWire gather
      rfl
    rw [hgather] at heq
    have hfirst := congrArg (fun l => l[0]?) heq
    have hlen' : ((pinned mem).transport.topic (publish data).c).slotAt
      (callSlot (pinned mem) (publish data)) = { WriterSample.empty with
        valid := true, shm := true, len := 2000, count := 2 } := rfl
    rw [hlen'] at hfirst
    simp only [writeAt, List.take_zero, List.nil_append] at hfirst
    rw [List.getElem?_take_of_lt (by omega), List.getElem?_take_of_lt (by omega),
      List.getElem?_append_left (by omega)] at hfirst
    exact hfirst

/-- The sample is still in the ring, and its bytes are the refused message's. -/
theorem shm_refused :
    ¬ ((∀ (s s' : SendState) (c : Nat) (env : SendEnv) (call : SendCall) (e : SendErr),
      s.call c env call = (s', .error e) → s' = s) ∧
      ∀ (s : Publisher) (e : NodeCall), NoTrace s.1 e) := by
  intro h
  have hclean := (noTrace_iff (pinned_bound (List.replicate 268435456 0)) _).mp
    (h.2 ⟨pinned (List.replicate 268435456 0), pinned_bound _⟩
      (publish (List.replicate 88472251 1)))
  refine pinned_overwrites List.length_replicate ?_ hclean
  rw [List.getElem?_replicate, List.getElem?_replicate, if_pos (Nat.succ_pos _),
    if_pos (Nat.succ_pos _)]
  intro heq
  cases heq

end Rant.Node
