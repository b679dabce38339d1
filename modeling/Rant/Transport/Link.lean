import Rant.Lib.Run
import Rant.Transport.ReaderStep
import Rant.Transport.WriterInv
/-!
# One publisher lane and one subscriber lane

The two ends of a reliable topic and the datagrams between them. Everything that
may happen next is an event: the application sends (inline or a shared memory
chunk), either side matches the other, either lane is polled, the reader's
application resumes, or the network hands a submessage over. The network never
loses track of a submessage: `toReader` and `toWriter` deliver any submessage ever
sent, at any time and as often as the run wants, so one list of events covers
every loss, duplication, reordering and delay, and every order of polls. The clock
readings, datagram sizes, dormancy, allocator answers and sink answers are
parameters of the events, so every one of them is arbitrary too.

The invariant `LinkInv` joins the two ends: the writer's history is the tail of
the log of commits (`History`), everything in flight is about that log
(`SubmsgOk`), and what the reader holds agrees with it (`RInv`). The ledger of the
reader's outputs then tiles everything from the position it adopted up to
`deliver_upto`, which is the conservation law `link_conservation`.
-/

namespace Rant.Transport

open Rant.Lib

/-! ## The system -/

/-- The two ends as they were defined: a reliable topic that is not directed, with an
empty history, and one fragment size both ends know. -/
structure LinkCfg where
  frag : Nat
  /-- The topic at the publisher, before any send. -/
  pub : Topic
  /-- The topic at the subscriber. -/
  sub : Topic
  frag_pos : 0 < frag
  frag_le : frag ≤ 65535
  pub_reliable : pub.reliable
  pub_broadcast : pub.directed = false
  sub_reliable : sub.reliable
  sub_broadcast : sub.directed = false
  keep_pos : 0 < pub.qos.keepLast
  history_eq : pub.history = List.replicate pub.qos.keepLast .empty
  head_eq : pub.historyHead = 0
  first_eq : pub.haveFirst = false

/-- The system's state. `committed`, `joined` and `adopted` are ghost: every sample the
writer sealed, where its lane joined, and the position the reader took. -/
structure Link where
  pub : Topic
  ws : WriterSide
  rs : ReaderSide
  epochs : Nat
  toReader : List Submsg
  toWriter : List NackMsg
  committed : List Committed
  joined : Option Nat
  adopted : Option Nat

/-- What may happen next. -/
inductive LinkEvent
  /-- `i_rant_transport_send_hdr`. -/
  | send (hdr data : Bytes) (captureUs sourceUs : Nat) (al : Alloc)
  /-- `i_rant_transport_send_shm` of a chunk under a descriptor of the fixed size. -/
  | sendShm (chunk : Bytes) (desc : { d : Bytes // d.length = shmDescBytes })
  /-- `i_rant_transport_topic_fresh` at the publisher. -/
  | fresh (opened : Bool)
  | matchWriter
  | matchReader
  | pollWriter (shm dormant : Bool) (cap now : Nat)
  | pollReader (dormant : Bool) (cap now : Nat)
  /-- Submessage `i` of those the writer ever sent arrives. -/
  | toReader (i : Nat) (sink : Sink) (al : Alloc) (now : Nat)
  /-- ACKNACK `i` of those the reader ever sent arrives. -/
  | toWriter (i : Nat) (now : Nat)
  /-- `i_rant_transport_deliver_parked` at the subscriber. -/
  | resume (sink : Sink)

/-- Nothing matched, nothing sent. -/
def Link.init (c : LinkCfg) : Link where
  pub := c.pub
  ws := { stats := {}, w := {}, rtt := {}, fx := [] }
  rs := { stats := {}, r := {}, rtt := {}, fx := [] }
  epochs := 1
  toReader := []
  toWriter := []
  committed := []
  joined := none
  adopted := none

/-- The sample is sealed and the lane is woken. -/
def Link.commit (s : Link) (r : Send) (c : Committed) : Link :=
  match r with
  | .committed t =>
    { s with
      pub := t, ws := commitLane t .all 0 false s.ws, committed := s.committed ++ [c] }
  | .skipped | .refused _ => s

/-- The base of a submessage that carries data. -/
def Submsg.dataBase : Submsg → Option Nat
  | .data m => some m.base
  | .shm m => some m.base
  | .hb _ => none

/-- The reader takes a submessage: the demux of `i_rant_transport_on_datagram`. -/
def receive (c : LinkCfg) (sink : Sink) (al : Alloc) (x : ReaderSide) (now : Nat) :
    Submsg → ReaderSide
  | .data m => readerData c.sub c.frag sink al x m now
  | .shm m => readerShm c.sub sink al x m now
  | .hb m => readerHb c.sub sink x m now

/-- One event. -/
def Link.step (c : LinkCfg) (s : Link) : LinkEvent → Link
  | .send hdr data captureUs sourceUs al =>
    let wire := gather s.pub hdr data captureUs sourceUs
    s.commit (writerSend c.frag s.pub hdr data captureUs sourceUs al .all)
      { base := s.pub.nextSeqno, count := fragCount c.frag wire.length, bytes := wire, desc := none }
  | .sendShm chunk desc =>
    s.commit (writerSendShm c.frag s.pub chunk desc.1)
      { base := s.pub.nextSeqno, count := fragCount c.frag chunk.length, bytes := chunk
        desc := some desc.1 }
  | .fresh opened =>
    { s with pub := { s.pub with
        fresh := opened, freshFrom := if opened then s.pub.nextSeqno else s.pub.freshFrom } }
  | .matchWriter =>
    if s.ws.w.used then s
    else
      { s with
        pub := { s.pub with matchedWriters := s.pub.matchedWriters + 1 }
        ws := { s.ws with w := writerMatch s.pub true }
        joined := some (unicastJoinSeqno s.pub) }
  | .matchReader =>
    if s.rs.r.used then s
    else { s with rs := readerMatch c.sub s.epochs s.rs, epochs := s.epochs + 1 }
  | .pollWriter shm dormant cap now =>
    let r := writerEmit s.pub { frag := c.frag, p := 0, shm, cap, now } dormant s.ws
    { s with ws := r.1, toReader := s.toReader ++ r.2.toList }
  | .pollReader dormant cap now =>
    let r := readerEmit c.sub s.rs dormant cap now
    { s with rs := r.1, toWriter := s.toWriter ++ r.2.toList }
  | .toReader i sink al now =>
    match s.toReader[i]? with
    | none => s
    | some m =>
      let rs := receive c sink al s.rs now m
      { s with
        rs := rs
        adopted := if s.rs.r.started = false ∧ rs.r.started = true then m.dataBase else s.adopted }
  | .toWriter i now =>
    match s.toWriter[i]? with
    | none => s
    | some m => { s with ws := writerNack s.pub 0 s.ws m now }
  | .resume sink => { s with rs := deliverParked c.sub sink s.rs }

theorem step_toReader_none (c : LinkCfg) {s : Link} {i now : Nat} {sink : Sink} {al : Alloc}
    (h : s.toReader[i]? = none) : s.step c (.toReader i sink al now) = s := by
  unfold Link.step
  dsimp only
  rw [h]

theorem step_toReader_some (c : LinkCfg) {s : Link} {i : Nat} (now : Nat) (sink : Sink)
    (al : Alloc) {m : Submsg} (h : s.toReader[i]? = some m) : s.step c (.toReader i sink al now) =
      { s with
        rs := receive c sink al s.rs now m
        adopted := if s.rs.r.started = false ∧ (receive c sink al s.rs now m).r.started = true
          then m.dataBase else s.adopted } := by
  unfold Link.step
  dsimp only
  rw [h]

theorem step_toWriter_none (c : LinkCfg) {s : Link} {i now : Nat}
    (h : s.toWriter[i]? = none) : s.step c (.toWriter i now) = s := by
  unfold Link.step
  dsimp only
  rw [h]

theorem step_toWriter_some (c : LinkCfg) {s : Link} {i : Nat} (now : Nat) {m : NackMsg}
    (h : s.toWriter[i]? = some m) :
    s.step c (.toWriter i now) = { s with ws := writerNack s.pub 0 s.ws m now } := by
  unfold Link.step
  dsimp only
  rw [h]

/-- The state a list of events leads to. -/
def Link.runs (c : LinkCfg) (es : List LinkEvent) : Link := run (Link.step c) (Link.init c) es

/-! ## What the application sees -/

/-- The bytes of a delivered sample, or the descriptor they are found under. -/
inductive Content
  | bytes (b : Bytes)
  | desc (d : Bytes)
  deriving Repr, DecidableEq

/-- A sample handed to the application and taken. -/
structure Delivery where
  base : Nat
  count : Nat
  content : Content
  deriving Repr, DecidableEq

/-- The delivery an effect is, if it is one. -/
def Effect.delivery : Effect → Option Delivery
  | .message base count bytes refused => if refused then none else some ⟨base, count, .bytes bytes⟩
  | .shm base count desc ok => if 0 < ok then some ⟨base, count, .desc desc⟩ else none
  | .lost _ _ | .tooBig _ _ _ | .wake | .arm _ => none

/-- The loss an effect reports, if it does: a `MSG_LOST` or a too-big skip. -/
def Effect.loss : Effect → Option Span
  | .lost first count => some ⟨first, count⟩
  | .tooBig base count _ => some ⟨base, count⟩
  | .message _ _ _ _ | .shm _ _ _ _ | .wake | .arm _ => none

/-- The samples delivered, in order. -/
def deliveries (es : List Effect) : List Delivery := es.filterMap Effect.delivery

/-- The losses reported, in order. -/
def losses (es : List Effect) : List Span := es.filterMap Effect.loss

/-- The seqnos of a delivery. -/
def Delivery.span (d : Delivery) : Span := ⟨d.base, d.count⟩

/-- A delivery carries the committed sample: its seqnos, and its bytes or descriptor. -/
def Delivery.carries (d : Delivery) (c : Committed) : Prop :=
  d.base = c.base ∧ d.count = c.count ∧
    match d.content with
    | .bytes b => c.bytes = b
    | .desc x => c.desc = some x

/-- An effect books nothing, a delivery or a loss. -/
theorem Effect.booked (e : Effect) :
    (e.delivery = none ∧ e.loss = none ∧ e.span = none) ∨
      (∃ d, e.delivery = some d ∧ e.loss = none ∧ e.span = some d.span) ∨
      ∃ l, e.delivery = none ∧ e.loss = some l ∧ e.span = some l := by
  cases e with
  | wake => exact Or.inl ⟨rfl, rfl, rfl⟩
  | arm t => exact Or.inl ⟨rfl, rfl, rfl⟩
  | lost first count => exact Or.inr (Or.inr ⟨_, rfl, rfl, rfl⟩)
  | tooBig base count bytes => exact Or.inr (Or.inr ⟨_, rfl, rfl, rfl⟩)
  | message base count bytes refused =>
    cases refused with
    | true => exact Or.inl ⟨rfl, rfl, rfl⟩
    | false => exact Or.inr (Or.inl ⟨_, rfl, rfl, rfl⟩)
  | shm base count desc ok =>
    unfold Effect.span Effect.delivery
    by_cases hok : 0 < ok
    · simp only [hok, if_true]
      exact Or.inr (Or.inl ⟨_, rfl, rfl, rfl⟩)
    · simp only [if_neg hok]
      exact Or.inl ⟨trivial, rfl, trivial⟩

/-- So the ledger has one entry more, of one kind, or is as it was. -/
theorem ledger_cons (e : Effect) (es : List Effect) :
    (spans (e :: es) = spans es ∧ deliveries (e :: es) = deliveries es ∧
        losses (e :: es) = losses es) ∨
      (∃ d, spans (e :: es) = d.span :: spans es ∧ deliveries (e :: es) = d :: deliveries es ∧
        losses (e :: es) = losses es) ∨
      ∃ l, spans (e :: es) = l :: spans es ∧ deliveries (e :: es) = deliveries es ∧
        losses (e :: es) = l :: losses es := by
  unfold spans deliveries losses
  rw [List.filterMap_cons, List.filterMap_cons, List.filterMap_cons]
  rcases e.booked with ⟨hd, hl, hs⟩ | ⟨d, hd, hl, hs⟩ | ⟨l, hd, hl, hs⟩
  all_goals rw [hd, hl, hs]
  · exact Or.inl ⟨rfl, rfl, rfl⟩
  · exact Or.inr (Or.inl ⟨d, rfl, rfl, rfl⟩)
  · exact Or.inr (Or.inr ⟨l, rfl, rfl, rfl⟩)

/-- The deliveries' seqnos stand in the ledger in the order of the deliveries. -/
theorem deliveries_sublist : ∀ (es : List Effect),
    ((deliveries es).map Delivery.span).Sublist (spans es)
  | [] => List.Sublist.slnil
  | e :: es => by
    have hrec := deliveries_sublist es
    rcases ledger_cons e es with ⟨hs, hd, -⟩ | ⟨d, hs, hd, -⟩ | ⟨l, hs, hd, -⟩
    all_goals rw [hs, hd]
    · exact hrec
    · exact hrec.cons_cons d.span
    · exact hrec.cons l

/-- The ledger's length is the seqnos delivered and the seqnos reported lost. -/
theorem spans_sum : ∀ (es : List Effect), ((spans es).map Span.count).sum =
    ((deliveries es).map Delivery.count).sum + ((losses es).map Span.count).sum
  | [] => rfl
  | e :: es => by
    have hrec := spans_sum es
    rcases ledger_cons e es with ⟨hs, hd, hl⟩ | ⟨d, hs, hd, hl⟩ | ⟨l, hs, hd, hl⟩
    all_goals rw [hs, hd, hl]
    · exact hrec
    · simp only [List.map_cons, List.sum_cons]
      show d.count + _ = _
      omega
    · simp only [List.map_cons, List.sum_cons]
      omega

/-! ## The invariant -/

/-- What holds in every state of every run. `S` is the log of sealed samples behind the
publisher's ring. -/
structure LinkInv (c : LinkCfg) (s : Link) (S : List WriterSample) : Prop where
  history : History c.frag s.pub S
  log : s.committed = logOf S
  reliable : s.pub.reliable
  broadcast : s.pub.directed = false
  lane : s.ws.w.used = true → s.ws.w.readerReliable = true
  flight : ∀ m ∈ s.toReader, SubmsgOk c.frag s.committed m
  reader : RInv c.frag s.committed s.rs.r
  fresh : s.rs.r.used = false → s.rs.r.started = false
  genuine : ∀ f ∈ s.rs.fx, Genuine s.committed f
  ledger : match s.adopted with
    | none => s.rs.r.started = false ∧ spans s.rs.fx = []
    | some a => s.rs.r.started = true ∧ Tiles a (spans s.rs.fx) s.rs.r.deliverUpto

variable {c : LinkCfg} {s : Link} {S : List WriterSample}

theorem linkInv_init (c : LinkCfg) : LinkInv c (Link.init c) [] where
  history := history_cleared c.keep_pos c.history_eq c.head_eq c.first_eq
  log := rfl
  reliable := c.pub_reliable
  broadcast := c.pub_broadcast
  lane h := Bool.noConfusion h
  flight _ hm := absurd hm List.not_mem_nil
  reader := ⟨asmOk_inactive rfl, asmOk_inactive rfl, fun h => Bool.noConfusion h,
    fun h => Bool.noConfusion h, fun _ => ⟨rfl, rfl, rfl, rfl⟩, fun h => Bool.noConfusion h⟩
  fresh _ := rfl
  genuine _ hf := absurd hf List.not_mem_nil
  ledger := ⟨rfl, rfl⟩

/-- A call of a sink with a committed sample stays one as the log grows. -/
theorem Genuine.mono {L L' : List Committed} {f : Effect} (h : Genuine L f)
    (hsub : ∀ x ∈ L, x ∈ L') : Genuine L' f := by
  cases f with
  | message base count bytes refused =>
    obtain ⟨x, hx, hrest⟩ := h
    exact ⟨x, hsub x hx, hrest⟩
  | shm base count desc ok =>
    obtain ⟨x, hx, hrest⟩ := h
    exact ⟨x, hsub x hx, hrest⟩
  | wake => trivial
  | arm t => trivial
  | lost first count => trivial
  | tooBig base count bytes => trivial

/-- The wake of a broadcast commit leaves the lane's proxy alone. -/
theorem commitLane_all (t : Topic) (p : Nat) (x : WriterSide) :
    (commitLane t .all p false x).w = x.w := by
  unfold commitLane
  split
  next => rfl
  next =>
    rw [if_pos (Or.inl rfl)]
    rfl

/-- A send that seals its sample extends the log by it, and one that does not leaves the
link alone. -/
theorem commit_inv {r : Send} {x : Committed} (h : LinkInv c s S)
    (hr : ∀ t, r = .committed t → ∃ y, History c.frag t (S ++ [y]) ∧ y.dest = .all ∧
      t.qos = s.pub.qos ∧ t.directed = s.pub.directed ∧ y.committed = x) :
    ∃ S', LinkInv c (s.commit r x) S' := by
  unfold Link.commit
  split
  next t =>
    obtain ⟨y, hy, -, hqos, hdir, hcom⟩ := hr t rfl
    have hsub : ∀ z ∈ s.committed, z ∈ s.committed ++ [x] := fun z hz =>
      List.mem_append_left _ hz
    refine ⟨S ++ [y], hy, ?_, ?_, ?_, ?_, ?_, h.reader.mono hsub, h.fresh, ?_, h.ledger⟩
    · show s.committed ++ [x] = logOf (S ++ [y])
      unfold logOf
      rw [List.map_append, h.log, ← hcom]
      rfl
    · show t.qos.reliability = .reliable
      rw [hqos]
      exact h.reliable
    · exact hdir.trans h.broadcast
    · intro hu
      have hw := commitLane_all t 0 s.ws
      have hu' : (commitLane t .all 0 false s.ws).w.used = true := hu
      show (commitLane t .all 0 false s.ws).w.readerReliable = true
      rw [hw] at hu' ⊢
      exact h.lane hu'
    · exact fun m hm => (h.flight m hm).mono hsub
    · exact fun f hf => (h.genuine f hf).mono hsub
  next => exact ⟨S, h⟩
  next => exact ⟨S, h⟩

/-- What a lane with a position does to the ledger. -/
theorem reader_kept {rs : ReaderSide} (h : LinkInv c s S)
    (hk : Kept c.frag s.committed s.rs rs)
    (hq : s.rs.r.started = false → Quiet s.rs rs) : LinkInv c { s with rs := rs } S := by
  obtain ⟨es, hfx, hgen, htiles⟩ := hk.moves
  have hled := h.ledger
  refine ⟨h.history, h.log, h.reliable, h.broadcast, h.lane, h.flight, hk.inv, ?_, ?_, ?_⟩
  · intro hu
    have hu' : s.rs.r.used = false := hk.used.symm.trans hu
    exact hk.started.trans (h.fresh hu')
  · intro f hf
    have hf' : f ∈ rs.fx := hf
    rw [hfx] at hf'
    rcases List.mem_append.mp hf' with hf' | hf'
    · exact h.genuine f hf'
    · exact hgen f hf'
  · cases hadopt : s.adopted with
    | none =>
      rw [hadopt] at hled
      obtain ⟨hr, es', hfx', hes'⟩ := hq hled.1
      refine ⟨hr.started.trans hled.1, ?_⟩
      show spans rs.fx = []
      rw [hfx', spans_append, hled.2, spans_silent hes']
      rfl
    | some a =>
      rw [hadopt] at hled
      refine ⟨hk.started.trans hled.1, ?_⟩
      show Tiles a (spans rs.fx) rs.r.deliverUpto
      rw [hfx, spans_append]
      exact tiles_append hled.2 htiles

/-- What an arrival that carries data does to the ledger, the adoption of a position
included. -/
theorem reader_arrived {rs : ReaderSide} {base : Nat} (h : LinkInv c s S)
    (ha : Arrived c.frag s.committed s.rs rs base) :
    LinkInv c { s with
      rs := rs
      adopted := if s.rs.r.started = false ∧ rs.r.started = true then some base
        else s.adopted } S := by
  have hled := h.ledger
  rcases ha.booked with hq | ⟨hst, hst', hmoves⟩ | ⟨hlive, hst, hst', y, hfx, hup, hmoves⟩
  · have hno : ¬ (s.rs.r.started = false ∧ rs.r.started = true) := by
      rintro ⟨h1, h2⟩
      exact Bool.noConfusion (h1.symm.trans (hq.1.started.symm.trans h2))
    rw [if_neg hno]
    exact reader_kept h ⟨ha.inv, hq.moves, hq.1.started, ha.used⟩ fun _ => hq
  · have hno : ¬ (s.rs.r.started = false ∧ rs.r.started = true) := fun hc =>
      Bool.noConfusion (hc.1.symm.trans hst)
    rw [if_neg hno]
    refine reader_kept h ⟨ha.inv, hmoves, hst'.trans hst.symm, ha.used⟩ fun hc => ?_
    exact Bool.noConfusion (hc.symm.trans hst)
  · -- the lane took its position here: the ledger starts at the arrival
    rw [if_pos ⟨hst, hst'⟩]
    obtain ⟨es, hfx', hgen, htiles⟩ := hmoves
    have hnone : spans s.rs.fx = [] := by
      cases hadopt : s.adopted with
      | none =>
        rw [hadopt] at hled
        exact hled.2
      | some a =>
        rw [hadopt] at hled
        exact absurd (hst.symm.trans hled.1) Bool.false_ne_true
    refine ⟨h.history, h.log, h.reliable, h.broadcast, h.lane, h.flight, ha.inv, ?_, ?_, hst', ?_⟩
    · intro hu
      exact Bool.noConfusion (hlive.symm.trans (ha.used.symm.trans hu))
    · intro f hf
      have hf' : f ∈ rs.fx := hf
      rw [hfx', hfx] at hf'
      rcases List.mem_append.mp hf' with hf' | hf'
      · exact h.genuine f hf'
      · exact hgen f hf'
    · show Tiles base (spans rs.fx) rs.r.deliverUpto
      rw [hfx', hfx, spans_append, hnone, List.nil_append, ← hup]
      exact htiles

/-- What a step of the writer lane that leaves its match alone does. -/
theorem writer_step {ws : WriterSide} (out : List Submsg) (h : LinkInv c s S)
    (hm : ws.w.matched = s.ws.w.matched) (hout : ∀ m ∈ out, SubmsgOk c.frag s.committed m) :
    LinkInv c { s with ws := ws, toReader := s.toReader ++ out } S := by
  refine ⟨h.history, h.log, h.reliable, h.broadcast, fun hu => ?_, fun m hmem => ?_, h.reader,
    h.fresh, h.genuine, h.ledger⟩
  · exact (matched_readerReliable hm).trans (h.lane ((matched_used hm).symm.trans hu))
  · rcases List.mem_append.mp hmem with hmem | hmem
    · exact h.flight m hmem
    · exact hout m hmem

/-- Every event keeps the invariant. -/
theorem step_inv (e : LinkEvent) (h : LinkInv c s S) : ∃ S', LinkInv c (s.step c e) S' := by
  have hL : LogOk c.frag s.committed := by
    rw [h.log]
    exact h.history.logOk
  cases e with
  | send hdr data captureUs sourceUs al =>
    exact commit_inv h fun t ht => writerSend_history h.history c.frag_pos c.frag_le ht
  | sendShm chunk desc =>
    exact commit_inv h fun t ht =>
      writerSendShm_history h.history c.frag_pos c.frag_le desc.2 ht
  | fresh opened =>
    exact ⟨S, h.history.congr rfl rfl rfl rfl rfl rfl, h.log, h.reliable, h.broadcast, h.lane,
      h.flight, h.reader, h.fresh, h.genuine, h.ledger⟩
  | matchWriter =>
    unfold Link.step
    dsimp only
    split
    next => exact ⟨S, h⟩
    next =>
      exact ⟨S, h.history.congr rfl rfl rfl rfl rfl rfl, h.log, h.reliable, h.broadcast,
        fun _ => rfl, h.flight, h.reader, h.fresh, h.genuine, h.ledger⟩
  | matchReader =>
    unfold Link.step
    dsimp only
    split
    next => exact ⟨S, h⟩
    next hu =>
      -- a lane that was never used holds no position, so the ledger is still empty
      rw [Bool.not_eq_true] at hu
      have hst := h.fresh hu
      have hmatch := readerMatch_inv (F := c.frag) (L := s.committed) c.sub s.epochs s.rs
      have hfx := readerMatch_fx c.sub s.epochs s.rs
      have hled := h.ledger
      refine ⟨S, h.history, h.log, h.reliable, h.broadcast, h.lane, h.flight, hmatch.1,
        fun _ => hmatch.2, fun f hf => ?_, ?_⟩
      · obtain ⟨es, hes, hsilent⟩ := hfx
        have hf' : f ∈ (readerMatch c.sub s.epochs s.rs).fx := hf
        rw [hes] at hf'
        rcases List.mem_append.mp hf' with hf' | hf'
        · exact h.genuine f hf'
        · exact genuine_silent (hsilent f hf')
      · cases hadopt : s.adopted with
        | none =>
          rw [hadopt] at hled
          obtain ⟨es, hes, hsilent⟩ := hfx
          refine ⟨hmatch.2, ?_⟩
          show spans (readerMatch c.sub s.epochs s.rs).fx = []
          rw [hes, spans_append, hled.2, spans_silent hsilent]
          rfl
        | some a =>
          rw [hadopt] at hled
          exact Bool.noConfusion (hst.symm.trans hled.1)
  | pollWriter shm dormant cap now =>
    have hsent := writerEmit_sentOk { frag := c.frag, p := 0, shm, cap, now } dormant s.ws h.history c.frag_le rfl
      fun hu => Or.inl (h.lane hu)
    refine ⟨S, writer_step _ h (writerEmit_matched _ _ _ _) fun m hm => ?_⟩
    rw [h.log]
    exact hsent m (Option.mem_toList.mp hm)
  | pollReader dormant cap now =>
    have hq := readerEmit_quiet c.sub s.rs dormant cap now
    have hk := reader_kept h (kept_of_quiet h.reader hq) fun _ => hq
    exact ⟨S, hk.history, hk.log, hk.reliable, hk.broadcast, hk.lane, hk.flight, hk.reader,
      hk.fresh, hk.genuine, hk.ledger⟩
  | toReader i sink al now =>
    cases hm : s.toReader[i]? with
    | none =>
      rw [step_toReader_none c hm]
      exact ⟨S, h⟩
    | some m =>
      rw [step_toReader_some c now sink al hm]
      have hok := h.flight m (List.mem_of_getElem? hm)
      refine ⟨S, ?_⟩
      cases m with
      | data m =>
        exact reader_arrived h (readerData_arrived c.frag_pos hL c.sub_reliable hok h.reader)
      | shm m =>
        exact reader_arrived h (readerShm_arrived c.frag_pos hL c.sub_reliable hok h.reader)
      | hb m =>
        have hk := readerHb_kept sink m now c.frag_pos hL
          c.sub_broadcast h.reader
        have hno : ¬ (s.rs.r.started = false ∧
            (receive c sink al s.rs now (.hb m)).r.started = true) := by
          rintro ⟨h1, h2⟩
          exact Bool.noConfusion (h1.symm.trans (hk.started.symm.trans h2))
        rw [if_neg hno]
        exact reader_kept h hk fun hst => readerHb_quiet hst
  | toWriter i now =>
    cases hm : s.toWriter[i]? with
    | none =>
      rw [step_toWriter_none c hm]
      exact ⟨S, h⟩
    | some m =>
      have hw := writer_step [] h (writerNack_matched s.pub 0 s.ws m now)
        fun m hm => absurd hm List.not_mem_nil
      rw [List.append_nil] at hw
      rw [step_toWriter_some c now hm]
      exact ⟨S, hw⟩
  | resume sink =>
    refine ⟨S, reader_kept h (deliverParked_kept c.frag_pos hL c.sub_reliable h.reader) fun hst => ?_⟩
    unfold deliverParked
    rw [if_pos (Or.inr (h.reader.idle hst).2.2.1)]
    exact quiet_refl _

theorem runs_inv (c : LinkCfg) (es : List LinkEvent) : ∃ S, LinkInv c (Link.runs c es) S :=
  run_invariant (fun s => ∃ S, LinkInv c s S)
    (fun _ e h => h.elim fun _ h => step_inv e h) es _ ⟨[], linkInv_init c⟩

/-! ## Conservation -/

/-- A sink call with a committed sample is a delivery of it. -/
theorem Genuine.carries {L : List Committed} {e : Effect} {d : Delivery} (h : Genuine L e)
    (hd : e.delivery = some d) : ∃ x ∈ L, d.carries x := by
  unfold Effect.delivery at hd
  cases e with
  | message base count bytes refused =>
    obtain ⟨x, hx, hbase, hcount, hbytes⟩ := h
    cases refused with
    | true => cases hd
    | false =>
      obtain rfl := Option.some.inj hd
      exact ⟨x, hx, hbase.symm, hcount.symm, hbytes⟩
  | shm base count desc ok =>
    obtain ⟨x, hx, hbase, hcount, hdesc⟩ := h
    dsimp only at hd
    split at hd
    next =>
      obtain rfl := Option.some.inj hd
      exact ⟨x, hx, hbase.symm, hcount.symm, hdesc⟩
    next => cases hd
  | lost first count => cases hd
  | tooBig base count bytes => cases hd
  | wake => cases hd
  | arm t => cases hd

/-- The ledger covers a seqno as often as the deliveries and the losses do. -/
theorem spans_countP (q : Nat) : ∀ (es : List Effect), (spans es).countP (Span.covers q) =
    (deliveries es).countP (fun d => d.span.covers q) + (losses es).countP (Span.covers q)
  | [] => rfl
  | e :: es => by
    have hrec := spans_countP q es
    rcases ledger_cons e es with ⟨hs, hd, hl⟩ | ⟨d, hs, hd, hl⟩ | ⟨l, hs, hd, hl⟩
    all_goals rw [hs, hd, hl]
    · exact hrec
    all_goals
      simp only [List.countP_cons]
      omega

/-- A reported loss stands in the ledger. -/
theorem loss_mem_spans {es : List Effect} {l : Span} (h : l ∈ losses es) : l ∈ spans es := by
  obtain ⟨e, he, hl⟩ := List.mem_filterMap.mp h
  refine List.mem_filterMap.mpr ⟨e, he, ?_⟩
  rcases e.booked with ⟨-, hn, -⟩ | ⟨-, -, hn, -⟩ | ⟨l, -, hn, hs⟩
  · cases hn.symm.trans hl
  · cases hn.symm.trans hl
  · exact hs.trans (hn.symm.trans hl)

/-- In every run: the application is handed committed samples only, in increasing seqno
order and so each at most once; nothing is booked before the reader adopts a position;
and from that position on every seqno below `deliver_upto` was delivered or reported
lost, exactly once. -/
theorem link_conservation (c : LinkCfg) (es : List LinkEvent) :
    ((deliveries (Link.runs c es).rs.fx).Pairwise fun d e => d.base + d.count ≤ e.base) ∧
    (∀ d ∈ deliveries (Link.runs c es).rs.fx,
      0 < d.count ∧ ∃ x ∈ (Link.runs c es).committed, d.carries x) ∧
    ((Link.runs c es).adopted = none →
      deliveries (Link.runs c es).rs.fx = [] ∧ losses (Link.runs c es).rs.fx = []) ∧
    ∀ a, (Link.runs c es).adopted = some a →
      (∀ q, a ≤ q → q < (Link.runs c es).rs.r.deliverUpto →
        (deliveries (Link.runs c es).rs.fx).countP (fun d => d.span.covers q) +
          (losses (Link.runs c es).rs.fx).countP (Span.covers q) = 1) ∧
      (∀ q, (q < a ∨ (Link.runs c es).rs.r.deliverUpto ≤ q) →
        (deliveries (Link.runs c es).rs.fx).countP (fun d => d.span.covers q) = 0 ∧
          (losses (Link.runs c es).rs.fx).countP (Span.covers q) = 0) ∧
      (Link.runs c es).rs.r.deliverUpto = a +
        (((deliveries (Link.runs c es).rs.fx).map Delivery.count).sum +
          ((losses (Link.runs c es).rs.fx).map Span.count).sum) := by
  obtain ⟨S, h⟩ := runs_inv c es
  obtain ⟨s, hs⟩ : ∃ s, s = Link.runs c es := ⟨_, rfl⟩
  rw [← hs] at h ⊢
  have hled := h.ledger
  have hsub := deliveries_sublist s.rs.fx
  -- the ledger tiles some interval, empty while the reader has no position
  have htiles : ∃ a b, Tiles a (spans s.rs.fx) b := by
    cases hadopt : s.adopted with
    | none =>
      rw [hadopt] at hled
      exact ⟨0, 0, by rw [hled.2]; rfl⟩
    | some a =>
      rw [hadopt] at hled
      exact ⟨a, _, hled.2⟩
  obtain ⟨a₀, b₀, htiles⟩ := htiles
  refine ⟨?_, ?_, ?_, ?_⟩
  · exact List.pairwise_map.mp ((tiles_pairwise htiles).sublist hsub)
  · intro d hd
    refine ⟨?_, ?_⟩
    · exact (tiles_mem htiles (hsub.mem (List.mem_map_of_mem hd))).2.1
    · obtain ⟨e, he, hde⟩ := List.mem_filterMap.mp hd
      exact (h.genuine e he).carries hde
  · intro hnone
    rw [hnone] at hled
    refine ⟨?_, ?_⟩
    · refine List.eq_nil_iff_forall_not_mem.mpr fun d hd => ?_
      have hmem := hsub.mem (List.mem_map_of_mem hd)
      rw [hled.2] at hmem
      exact List.not_mem_nil hmem
    · refine List.eq_nil_iff_forall_not_mem.mpr fun l hl => ?_
      have hmem := loss_mem_spans hl
      rw [hled.2] at hmem
      exact List.not_mem_nil hmem
  · intro a ha
    rw [ha] at hled
    have hcount := fun q => spans_countP q s.rs.fx
    refine ⟨fun q hlo hhi => ?_, fun q hq => ?_, ?_⟩
    · rw [← hcount q]
      exact tiles_countP hled.2 hlo hhi
    · have hzero : (spans s.rs.fx).countP (Span.covers q) = 0 := by
        rcases hq with hlt | hge
        · exact tiles_countP_lt hled.2 hlt
        · exact tiles_countP_ge hled.2 hge
      rw [hcount q] at hzero
      exact Nat.add_eq_zero_iff.mp hzero
    · rw [← spans_sum]
      exact tiles_sum hled.2

end Rant.Transport
