import Rant.Transport.ReaderLane
import Rant.Transport.Table
/-!
# Matching a peer's lanes

`i_rant_topic_rematch` of `src/transport/core.c` for one known peer: from our role and the bits
the peer's list left, a topic's lane gains or loses its two sides, and a side that is as it
should be is not touched. A request lane opens behind the handle gate (`gateOpen`), and a writer
lane that formed lets the handle's request channels be matched again (`gateWake`).

The wakes are a recursion of the source without a bound of its own. `rematchIn` gives up where
they nest deeper than it is allowed. A wake follows a lane that formed and no lane forms twice, so
they nest no deeper than there are writers to form (`unformed`, `rematchIn_eq`), and `rematch`,
which is given that depth, is what the recursion comes to (`rematch_done`). What a matching leaves
of the readers is `Rematched`: a reader that stays is the reader that was, and one that opens
starts anew.
-/

namespace Rant.Transport

/-! ## Lanes -/

/-- `i_RantLane`: both sides of a (topic, peer) pair. -/
structure Lane where
  w : WriterProxy := {}
  r : ReaderProxy := {}

/-- Whether a side is matched. -/
def Lane.matched (l : Lane) : Bool := l.w.used || l.r.used

/-- What the peer's list left, by our topic: `peer_pub_bitmap`, `peer_sub_bitmap`,
`peer_sub_reliable` and `peer_sub_claim`. -/
structure PeerBits where
  pub : Nat → Bool := fun _ => false
  sub : Nat → Bool := fun _ => false
  subReliable : Nat → Bool := fun _ => false
  claim : Nat → Bool := fun _ => false

/-- What a matching asks of the scheduler about a topic's lane. -/
inductive MatchFx
  /-- `i_rant_lane_wake`. -/
  | wake (c : Nat)
  /-- `i_rant_sched_drop`. -/
  | drop (c : Nat)
  deriving Repr, DecidableEq

/-- The topics and the peer's lanes by topic. `ensures` counts the calls of
`i_rant_lane_ensure`. -/
structure LaneTable where
  topics : List Topic
  lane : Nat → Option Lane := fun _ => none
  readerEpoch : Nat := 1
  ensures : Nat := 0
  fx : List MatchFx := []

/-- The peer's slot and its `peer_seen_version`, and whether a call of `i_rant_lane_ensure`
gets a record. -/
structure MatchEnv where
  slot : Nat := 0
  seenVersion : Nat := 0
  laneOk : Nat → Bool := fun _ => true

namespace LaneTable

/-- The writer of a topic's lane; no record, no writer. -/
def writerAt (s : LaneTable) (c : Nat) : WriterProxy := ((s.lane c).getD {}).w

/-- The reader of a topic's lane; no record, no reader. -/
def readerAt (s : LaneTable) (c : Nat) : ReaderProxy := ((s.lane c).getD {}).r

/-- Topic `c` and its lane written. -/
def put (s : LaneTable) (c : Nat) (t : Topic) (l : Option Lane) : LaneTable :=
  { s with topics := s.topics.set c t, lane := fun q => if q = c then l else s.lane q }

end LaneTable

/-! ## The gate -/

/-- Whether our writer is wanted: the rebind hold keeps it from a peer that has not proved it
applied the slot's binding. -/
def wantsWriter (E : MatchEnv) (b : PeerBits) (t : Topic) (c : Nat) : Bool :=
  t.role.pubs && b.sub c && !(t.rebindVersion ≠ 0 && E.seenVersion < t.rebindVersion)

/-- Whether our reader is wanted. -/
def wantsReader (b : PeerBits) (t : Topic) (c : Nat) : Bool := t.role.subs && b.pub c

/-- The walk of `i_rant_topic_gate_open` along the handle's ring, `fuel` steps at most. -/
def gateFrom (s : LaneTable) (b : PeerBits) (c : Nat) : Nat → Option Nat → Bool
  | _, none => false                                                  -- unlinked
  | 0, some q => q == c
  | fuel + 1, some q =>
    if q = c then true
    else if s.topics.length ≤ q then false                            -- a broken ring
    else if (topicAt s.topics q).role.pubs && b.claim q && !(s.writerAt q).used then false
    else gateFrom s b c fuel (topicAt s.topics q).sib

/-- `i_rant_topic_gate_open`. -/
def gateOpen (s : LaneTable) (b : PeerBits) (c : Nat) : Bool :=
  if (topicAt s.topics c).kind.isRequest then
    match (topicAt s.topics c).sib with
    | none => false
    | some q => gateFrom s b c s.topics.length (some q)
  else true

/-- The slots of a ring behind `c`, `fuel` at most. -/
def ringFrom (ts : List Topic) (c : Nat) : Nat → Option Nat → List Nat
  | 0, _ => []
  | _, none => []
  | fuel + 1, some q =>
    if q = c ∨ ts.length ≤ q then [] else q :: ringFrom ts c fuel (topicAt ts q).sib

/-- The request channels `i_rant_topic_gate_wake` matches again. -/
def gateWake (ts : List Topic) (c : Nat) : List Nat :=
  (ringFrom ts c ts.length (topicAt ts c).sib).filter fun q => (topicAt ts q).kind.isRequest

/-! ## One lane -/

/-- `i_rant_writer_match` or `i_rant_writer_unmatch` where the side is not as wanted. -/
def matchWriter (wuse subReliable : Bool) (x : Topic × Lane) : Topic × Lane :=
  if wuse = x.2.w.used then x
  else if wuse then
    ({ x.1 with matchedWriters := x.1.matchedWriters + 1 }, { x.2 with w := writerMatch x.1 subReliable })
  else ({ x.1 with matchedWriters := x.1.matchedWriters - 1 }, { x.2 with w := { x.2.w with used := false } })

/-- `i_rant_reader_match` or `i_rant_reader_unmatch` where the side is not as wanted. -/
def matchReader (ruse : Bool) (epoch : Nat) (x : Topic × Lane) : Topic × Lane :=
  if ruse = x.2.r.used then x
  else if ruse then
    ({ x.1 with matchedReaders := x.1.matchedReaders + 1 },
      { x.2 with r := (readerMatch x.1 epoch ⟨x.1.repairStats, x.2.r, {}, []⟩).r })
  else ({ x.1 with matchedReaders := x.1.matchedReaders - 1 }, { x.2 with r := readerUnmatch x.2.r })

/-- The lane back in the table: onto the topic chain with a first match, and off it and recycled
with neither side matched. -/
def LaneTable.settle (E : MatchEnv) (s : LaneTable) (c : Nat) (had : Bool) (x : Topic × Lane) : LaneTable :=
  if x.2.matched then
    s.put c (if had then x.1 else { x.1 with laneChain := E.slot :: x.1.laneChain }) (some x.2)
  else if had then
    let s := s.put c { x.1 with laneChain := x.1.laneChain.erase E.slot } none
    { s with fx := s.fx ++ [.drop c] }
  else s.put c x.1 (some x.2)

/-- The counters and the wakes of a matching that takes a new record, forms a writer or opens a
reader. -/
def LaneTable.note (s : LaneTable) (c : Nat) (fresh formed opened : Bool) : LaneTable :=
  { s with
    ensures := if fresh then s.ensures + 1 else s.ensures
    readerEpoch := if opened then (s.readerEpoch + 1) % 2 ^ 32 else s.readerEpoch
    fx := s.fx ++ (if formed then [.wake c] else []) ++
      (if opened ∧ (topicAt s.topics c).reliable then [.wake c] else []) }

/-- `i_rant_topic_rematch` up to the wake, and whether a writer lane formed. -/
def rematchLane (E : MatchEnv) (b : PeerBits) (s : LaneTable) (c : Nat) : LaneTable × Bool :=
  let t := topicAt s.topics c
  let l := (s.lane c).getD {}
  let wuse := wantsWriter E b t c
  -- the gate holds only the opening: closing a live lane could deliver twice
  let ruse := wantsReader b t c && (l.r.used || gateOpen s b c)
  if !wuse && !ruse && !l.matched then (s, false)
  else if (s.lane c).isNone && !E.laneOk s.ensures then
    ({ s with ensures := s.ensures + 1 }, false)                      -- refused, the next announce retries
  else
    let x := matchReader ruse s.readerEpoch (matchWriter wuse (b.subReliable c) (t, l))
    let s' := s.note c (s.lane c).isNone (wuse && !l.w.used) (ruse && !l.r.used)
    (s'.settle E c l.matched x, wuse && !l.w.used)

/-- `i_rant_topic_rematch`, none where its wakes nest as deep as `depth`. -/
def rematchIn (E : MatchEnv) (b : PeerBits) : Nat → LaneTable → Nat → Option LaneTable
  | 0, _, _ => none
  | depth + 1, s, c =>
    let m := rematchLane E b s c
    if m.2 then (gateWake s.topics c).foldlM (rematchIn E b depth) m.1 else some m.1

/-- `i_rant_topic_rematch`, the wakes nested `fuel` deep. -/
def rematch (E : MatchEnv) (b : PeerBits) : Nat → LaneTable → Nat → LaneTable
  | 0, s, _ => s
  | fuel + 1, s, c =>
    let m := rematchLane E b s c
    if m.2 then (gateWake s.topics c).foldl (rematch E b fuel) m.1 else m.1

/-- The loop over the topics that ends an apply. -/
def rematchAll (E : MatchEnv) (b : PeerBits) (s : LaneTable) : LaneTable :=
  (List.range s.topics.length).foldl (rematch E b (s.topics.length + 1)) s

/-! ## What a matching leaves -/

variable {E : MatchEnv} {b : PeerBits}

/-- A topic as it was but for its matches. -/
def Rewired (t t' : Topic) : Prop :=
  ∃ writers readers chain,
    t' = { t with matchedWriters := writers, matchedReaders := readers, laneChain := chain }

theorem Rewired.refl (t : Topic) : Rewired t t := ⟨t.matchedWriters, t.matchedReaders, t.laneChain, rfl⟩

theorem Rewired.trans {t t' t'' : Topic} (h : Rewired t t') (h' : Rewired t' t'') : Rewired t t'' := by
  obtain ⟨writers, readers, chain, rfl⟩ := h
  obtain ⟨writers', readers', chain', rfl⟩ := h'
  exact ⟨writers', readers', chain', rfl⟩

theorem Rewired.wantsReader {t t' : Topic} (h : Rewired t t') (c : Nat) :
    wantsReader b t' c = wantsReader b t c := by
  obtain ⟨writers, readers, chain, rfl⟩ := h
  rfl

theorem Rewired.wantsWriter {t t' : Topic} (h : Rewired t t') (c : Nat) :
    wantsWriter E b t' c = wantsWriter E b t c := by
  obtain ⟨writers, readers, chain, rfl⟩ := h
  rfl

/-- What a matching leaves of a reader that is wanted or not: one that stays is as it was, one
that opens starts stamped, and a wanted one stays. -/
structure ReaderStep (wanted : Bool) (r r' : ReaderProxy) : Prop where
  cases_used : r'.used = true →
    (r.used = true ∧ r' = r) ∨ (r.used = false ∧ r'.noTimestamp = false ∧ wanted = true)
  stays : r.used = true → wanted = true → r'.used = true

theorem ReaderStep.refl (wanted : Bool) (r : ReaderProxy) : ReaderStep wanted r r :=
  ⟨fun h => Or.inl ⟨h, rfl⟩, fun h _ => h⟩

theorem ReaderStep.trans {wanted : Bool} {r r' r'' : ReaderProxy} (h : ReaderStep wanted r r')
    (h' : ReaderStep wanted r' r'') : ReaderStep wanted r r'' := by
  constructor
  · intro hu
    rcases h'.cases_used hu with ⟨hu', rfl⟩ | ⟨hno, hts, hw⟩
    · exact h.cases_used hu'
    · refine Or.inr ⟨?_, hts, hw⟩
      cases hr : r.used with
      | false => rfl
      | true =>
        have hstay := h.stays hr hw
        rw [hno] at hstay
        exact absurd hstay Bool.false_ne_true
  · intro hu hw
    exact h'.stays (h.stays hu hw) hw

/-- What matchings leave of a table. -/
structure Rematched (b : PeerBits) (s s' : LaneTable) : Prop where
  length : s'.topics.length = s.topics.length
  topics : ∀ q, Rewired (topicAt s.topics q) (topicAt s'.topics q)
  readers : ∀ q, ReaderStep (wantsReader b (topicAt s.topics q) q) (s.readerAt q) (s'.readerAt q)

theorem Rematched.refl (b : PeerBits) (s : LaneTable) : Rematched b s s :=
  ⟨rfl, fun _ => Rewired.refl _, fun _ => ReaderStep.refl _ _⟩

variable {s s' : LaneTable}

theorem Rematched.trans {s'' : LaneTable} (h : Rematched b s s') (h' : Rematched b s' s'') :
    Rematched b s s'' := by
  refine ⟨h'.length.trans h.length, fun q => (h.topics q).trans (h'.topics q), fun q => ?_⟩
  have hq := h'.readers q
  rw [(h.topics q).wantsReader] at hq
  exact (h.readers q).trans hq

/-- A topic's reader is open only where it is wanted. -/
def LaneTable.Wanted (s : LaneTable) (b : PeerBits) (q : Nat) : Prop :=
  (s.readerAt q).used = true → wantsReader b (topicAt s.topics q) q = true

theorem Rematched.wanted (h : Rematched b s s') {q : Nat} (hq : s.Wanted b q) :
    s'.Wanted b q := by
  intro hu
  rw [(h.topics q).wantsReader]
  rcases (h.readers q).cases_used hu with ⟨hu', -⟩ | ⟨-, -, hw⟩
  · exact hq hu'
  · exact hw

/-! ## One lane -/

theorem matchWriter_topic (wuse sr : Bool) (x : Topic × Lane) : Rewired x.1 (matchWriter wuse sr x).1 := by
  unfold matchWriter
  split
  next => exact Rewired.refl _
  split
  next => exact ⟨_, _, _, rfl⟩
  next => exact ⟨_, _, _, rfl⟩

theorem matchWriter_r (wuse sr : Bool) (x : Topic × Lane) : (matchWriter wuse sr x).2.r = x.2.r := by
  unfold matchWriter
  split
  next => rfl
  split
  next => rfl
  next => rfl

theorem matchWriter_used (wuse sr : Bool) (x : Topic × Lane) : (matchWriter wuse sr x).2.w.used = wuse := by
  unfold matchWriter
  split
  next h => exact h.symm
  next h =>
    split
    next hw => exact hw.symm
    next hw => exact (Bool.eq_false_of_not_eq_true hw).symm

theorem matchReader_topic (ruse : Bool) (epoch : Nat) (x : Topic × Lane) :
    Rewired x.1 (matchReader ruse epoch x).1 := by
  unfold matchReader
  split
  next => exact Rewired.refl _
  split
  next => exact ⟨_, _, _, rfl⟩
  next => exact ⟨_, _, _, rfl⟩

theorem matchReader_w (ruse : Bool) (epoch : Nat) (x : Topic × Lane) :
    (matchReader ruse epoch x).2.w = x.2.w := by
  unfold matchReader
  split
  next => rfl
  split
  next => rfl
  next => rfl

/-- A fresh match is used and stamped. -/
theorem readerMatch_fresh (t : Topic) (epoch : Nat) (x : ReaderSide) :
    (readerMatch t epoch x).r.used = true ∧ (readerMatch t epoch x).r.noTimestamp = false := by
  unfold readerMatch
  dsimp only
  split
  next => exact ⟨rfl, rfl⟩
  next => exact ⟨rfl, rfl⟩

theorem matchReader_used (ruse : Bool) (epoch : Nat) (x : Topic × Lane) :
    (matchReader ruse epoch x).2.r.used = ruse := by
  unfold matchReader
  split
  next h => exact h.symm
  next h =>
    split
    next hr =>
      rw [hr]
      exact (readerMatch_fresh _ _ _).1
    next hr => exact (Bool.eq_false_of_not_eq_true hr).symm

theorem matchReader_step {ruse wanted : Bool} (epoch : Nat) (x : Topic × Lane)
    (hw : ruse = true → wanted = true) (hstay : x.2.r.used = true → wanted = true → ruse = true) :
    ReaderStep wanted x.2.r (matchReader ruse epoch x).2.r := by
  constructor
  · intro hu
    rw [matchReader_used] at hu
    cases hr : x.2.r.used with
    | true =>
      refine Or.inl ⟨rfl, ?_⟩
      unfold matchReader
      rw [if_pos (hu.trans hr.symm)]
    | false =>
      refine Or.inr ⟨rfl, ?_, hw hu⟩
      unfold matchReader
      rw [if_neg (by rw [hu, hr]; exact Bool.true_eq_false_eq_False), if_pos hu]
      exact (readerMatch_fresh _ _ _).2
  · intro hu hwant
    rw [matchReader_used]
    exact hstay hu hwant

/-- Where a lane is put back. -/
theorem settle_lane (s : LaneTable) (c : Nat) (had : Bool) (x : Topic × Lane) (q : Nat) :
    (s.settle E c had x).lane q =
      if q = c then (if !x.2.matched && had then none else some x.2) else s.lane q := by
  unfold LaneTable.settle LaneTable.put
  cases hm : x.2.matched
  · cases had <;> rfl
  · rfl

variable {c : Nat}

theorem settle_topics {x : Topic × Lane} (h : Rewired (topicAt s.topics c) x.1)
    (had : Bool) : (s.settle E c had x).topics.length = s.topics.length ∧
      ∀ q, Rewired (topicAt s.topics q) (topicAt (s.settle E c had x).topics q) := by
  have hput : ∀ (t : Topic) (l : Option Lane), Rewired (topicAt s.topics c) t →
      (s.put c t l).topics.length = s.topics.length ∧
        ∀ q, Rewired (topicAt s.topics q) (topicAt (s.put c t l).topics q) := by
    intro t l ht
    refine ⟨List.length_set, fun q => ?_⟩
    show Rewired _ (topicAt (s.topics.set c t) q)
    rw [topicAt_set]
    split
    next hq =>
      rw [hq.1]
      exact ht
    next => exact Rewired.refl _
  unfold LaneTable.settle
  split
  next =>
    apply hput
    split
    next => exact h
    next => exact h.trans ⟨_, _, _, rfl⟩
  next =>
    split
    next => exact hput _ none (h.trans ⟨_, _, _, rfl⟩)
    next => exact hput _ (some x.2) h

/-- The reader the settled lane is left with. -/
theorem settle_reader {had wanted : Bool} {x : Topic × Lane}
    (h : ReaderStep wanted (s.readerAt c) x.2.r) :
    ReaderStep wanted (s.readerAt c) ((s.settle E c had x).readerAt c) := by
  have hlane := settle_lane (E := E) s c had x c
  rw [if_pos rfl] at hlane
  unfold LaneTable.readerAt at h ⊢
  rw [hlane]
  by_cases hgone : (!x.2.matched && had) = true
  · -- released: neither side is used
    rw [if_pos hgone]
    have hunused : x.2.r.used = false := by
      unfold Lane.matched at hgone
      cases hr : x.2.r.used with
      | false => rfl
      | true =>
        rw [hr, Bool.or_true] at hgone
        exact absurd hgone Bool.false_ne_true
    constructor
    · intro hu
      exact absurd hu Bool.false_ne_true
    · intro hu hw
      have hstay := h.stays hu hw
      rw [hunused] at hstay
      exact hstay
  · rw [if_neg hgone]
    exact h

/-- One lane matched: what it leaves, and that the topic's reader is open only where it is wanted,
and opens only behind the gate. -/
theorem rematchLane_spec (s : LaneTable) (c : Nat) :
    Rematched b s (rematchLane E b s c).1 ∧ (((rematchLane E b s c).1.readerAt c).used = true →
      wantsReader b (topicAt s.topics c) c = true ∧
        ((s.readerAt c).used = true ∨ gateOpen s b c = true)) := by
  have hkeep : ∀ s' : LaneTable, s'.topics = s.topics → s'.lane = s.lane → Rematched b s s' := by
    intro s' ht hl
    refine ⟨by rw [ht], fun q => ?_, fun q => ?_⟩
    · rw [ht]
      exact Rewired.refl _
    · unfold LaneTable.readerAt
      rw [hl]
      exact ReaderStep.refl _ _
  obtain ⟨ruse, hruse⟩ : ∃ ruse, ruse = (wantsReader b (topicAt s.topics c) c &&
      (((s.lane c).getD {}).r.used || gateOpen s b c)) := ⟨_, rfl⟩
  have hwant : ruse = true → wantsReader b (topicAt s.topics c) c = true ∧
      ((s.readerAt c).used = true ∨ gateOpen s b c = true) := by
    intro h
    rw [h] at hruse
    exact (Bool.and_eq_true_iff.mp hruse.symm).imp_right Bool.or_eq_true_iff.mp
  have hstay : (s.readerAt c).used = true → wantsReader b (topicAt s.topics c) c = true → ruse = true := by
    intro hu hw
    have hu' : ((s.lane c).getD {}).r.used = true := hu
    rw [hruse, hw, hu']
    rfl
  unfold rematchLane
  dsimp only
  rw [← hruse]
  by_cases hidle : (!wantsWriter E b (topicAt s.topics c) c && !ruse && !((s.lane c).getD {}).matched) = true
  · rw [if_pos hidle]
    refine ⟨Rematched.refl b s, fun hu => ?_⟩
    have hu' : ((s.lane c).getD {}).matched = true := by
      unfold Lane.matched
      rw [show ((s.lane c).getD {}).r.used = true from hu, Bool.or_true]
    rw [hu', Bool.not_true, Bool.and_false] at hidle
    exact absurd hidle Bool.false_ne_true
  · rw [if_neg hidle]
    by_cases hno : ((s.lane c).isNone && !E.laneOk s.ensures) = true
    · -- no record: the lane stays closed
      rw [if_pos hno]
      refine ⟨hkeep _ rfl rfl, fun hu => ?_⟩
      have hnone : s.lane c = none := Option.isNone_iff_eq_none.mp (Bool.and_eq_true_iff.mp hno).1
      have hu' : ((s.lane c).getD {}).r.used = true := hu
      rw [hnone] at hu'
      exact absurd hu' Bool.false_ne_true
    · rw [if_neg hno]
      dsimp only
      obtain ⟨x, hx⟩ : ∃ x, x = matchReader ruse s.readerEpoch (matchWriter
        (wantsWriter E b (topicAt s.topics c) c) (b.subReliable c)
        (topicAt s.topics c, (s.lane c).getD {})) := ⟨_, rfl⟩
      obtain ⟨s', hs', hlane, htop⟩ : ∃ s', s' = s.note c (s.lane c).isNone
          (wantsWriter E b (topicAt s.topics c) c && !((s.lane c).getD {}).w.used)
          (ruse && !((s.lane c).getD {}).r.used) ∧ s'.lane = s.lane ∧ s'.topics = s.topics :=
        ⟨_, rfl, rfl, rfl⟩
      rw [← hx, ← hs']
      have hread : s'.readerAt c = s.readerAt c := by
        unfold LaneTable.readerAt
        rw [hlane]
      have htopic : Rewired (topicAt s'.topics c) x.1 := by
        rw [htop, hx]
        exact (matchWriter_topic _ _ (topicAt s.topics c, (s.lane c).getD {})).trans
          (matchReader_topic _ _ _)
      have hstep : ReaderStep (wantsReader b (topicAt s.topics c) c) (s'.readerAt c) x.2.r := by
        have hr := matchWriter_r (wantsWriter E b (topicAt s.topics c) c) (b.subReliable c)
          (topicAt s.topics c, (s.lane c).getD {})
        rw [hread, hx]
        show ReaderStep _ ((s.lane c).getD {}).r _
        rw [← hr]
        apply matchReader_step _ _ fun h => (hwant h).1
        rw [hr]
        exact hstay
      have htops := settle_topics (E := E) htopic ((s.lane c).getD {}).matched
      have hsettled := @settle_reader E _ _ ((s.lane c).getD {}).matched _ _ hstep
      rw [htop] at htops
      rw [hread] at hsettled
      have hdone : Rematched b s (s'.settle E c ((s.lane c).getD {}).matched x) := by
        refine ⟨htops.1, htops.2, fun q => ?_⟩
        by_cases hq : q = c
        · rw [hq]
          exact hsettled
        have hl := settle_lane (E := E) s' c ((s.lane c).getD {}).matched x q
        rw [if_neg hq, hlane] at hl
        unfold LaneTable.readerAt
        rw [hl]
        exact ReaderStep.refl _ _
      refine ⟨hdone, fun hu => ?_⟩
      -- the settled reader is used only where the gate let it
      have hl := settle_lane (E := E) s' c ((s.lane c).getD {}).matched x c
      rw [if_pos rfl] at hl
      have hxr : x.2.r.used = true := by
        unfold LaneTable.readerAt at hu
        rw [hl] at hu
        by_cases hgone : (!x.2.matched && ((s.lane c).getD {}).matched) = true
        · rw [if_pos hgone] at hu
          exact absurd hu Bool.false_ne_true
        · rw [if_neg hgone] at hu
          exact hu
      rw [hx, matchReader_used] at hxr
      exact hwant hxr

/-! ## All the lanes -/

theorem foldl_rematched {f : LaneTable → Nat → LaneTable} (hf : ∀ s c, Rematched b s (f s c))
    (cs : List Nat) : ∀ s, Rematched b s (cs.foldl f s) := by
  induction cs with
  | nil => exact fun s => Rematched.refl b s
  | cons c cs ih =>
    intro s
    rw [List.foldl_cons]
    exact (hf s c).trans (ih (f s c))

theorem rematch_rematched : ∀ (fuel : Nat) (s : LaneTable) (c : Nat), Rematched b s (rematch E b fuel s c)
  | 0, s, _ => Rematched.refl b s
  | fuel + 1, s, c => by
    have hlane := (@rematchLane_spec E b s c).1
    rw [rematch]
    split
    next => exact hlane.trans (foldl_rematched (rematch_rematched fuel) _ _)
    next => exact hlane

theorem rematch_wanted (fuel : Nat) (s : LaneTable) (c : Nat) :
    (rematch E b (fuel + 1) s c).Wanted b c := by
  obtain ⟨hstep, hopen⟩ := @rematchLane_spec E b s c
  have hlane : (rematchLane E b s c).1.Wanted b c := fun hu => by
    rw [(hstep.topics c).wantsReader]
    exact (hopen hu).1
  rw [rematch]
  split
  next => exact (foldl_rematched (rematch_rematched fuel) _ _).wanted hlane
  next => exact hlane

/-- Behind the loop over the topics every reader is a step from what it was, and open only where
it is wanted. -/
theorem rematchAll_spec (s : LaneTable) :
    Rematched b s (rematchAll E b s) ∧ ∀ c < s.topics.length, (rematchAll E b s).Wanted b c := by
  have hall : ∀ (cs : List Nat) (s' : LaneTable), Rematched b s' (cs.foldl (rematch E b (s.topics.length + 1)) s') ∧
      ∀ c ∈ cs, (cs.foldl (rematch E b (s.topics.length + 1)) s').Wanted b c := by
    intro cs
    induction cs with
    | nil =>
      intro s'
      exact ⟨Rematched.refl b s', fun c hc => absurd hc List.not_mem_nil⟩
    | cons c cs ih =>
      intro s'
      obtain ⟨hrest, hw⟩ := ih (rematch E b (s.topics.length + 1) s' c)
      rw [List.foldl_cons]
      refine ⟨(rematch_rematched _ s' c).trans hrest, fun q hq => ?_⟩
      rcases List.mem_cons.mp hq with rfl | hin
      · exact hrest.wanted (rematch_wanted _ s' q)
      · exact hw q hin
  obtain ⟨hstep, hw⟩ := hall (List.range s.topics.length) s
  exact ⟨hstep, fun c hc => hw c (List.mem_range.mpr hc)⟩

/-- **Behind an apply a reader is open only where it is wanted**, and one that is stays open. -/
theorem rematchAll_readers (s : LaneTable) (c : Fin s.topics.length) :
    (((rematchAll E b s).readerAt c).used = true → wantsReader b (topicAt s.topics c) c = true) ∧
      ((s.readerAt c).used = true → wantsReader b (topicAt s.topics c) c = true →
        ((rematchAll E b s).readerAt c).used = true) := by
  obtain ⟨hstep, hw⟩ := @rematchAll_spec E b s
  refine ⟨fun hu => ?_, (hstep.readers c).stays⟩
  rw [← (hstep.topics c).wantsReader]
  exact hw c c.isLt hu

/-! ## The wakes end -/

/-- A lane whose writer is wanted is put back with it. -/
theorem settle_writer (had ruse sr : Bool) (epoch : Nat) (x : Topic × Lane)
    {wuse : Bool} (hw : wuse = true) :
    ((s.settle E c had (matchReader ruse epoch (matchWriter wuse sr x))).writerAt c).used = true := by
  have hused : (matchReader ruse epoch (matchWriter wuse sr x)).2.w.used = true := by
    rw [matchReader_w, matchWriter_used, hw]
  unfold LaneTable.writerAt
  rw [settle_lane, if_pos rfl, if_neg]
  · exact hused
  · unfold Lane.matched
    rw [hused, Bool.true_or]
    exact Bool.false_ne_true

/-- Matchings that leave every writer that is wanted. -/
def Stays (E : MatchEnv) (b : PeerBits) (s s' : LaneTable) : Prop :=
  Rematched b s s' ∧ ∀ q, wantsWriter E b (topicAt s.topics q) q = true →
    (s.writerAt q).used = true → (s'.writerAt q).used = true

theorem Stays.trans {s'' : LaneTable} (h : Stays E b s s') (h' : Stays E b s' s'') :
    Stays E b s s'' :=
  ⟨h.1.trans h'.1, fun q hw hu => h'.2 q (((h.1.topics q).wantsWriter q).trans hw) (h.2 q hw hu)⟩

theorem rematchLane_stays (s : LaneTable) (c : Nat) : Stays E b s (rematchLane E b s c).1 := by
  refine ⟨(@rematchLane_spec E b s c).1, fun q hw hu => ?_⟩
  unfold rematchLane
  dsimp only
  split
  next => exact hu
  split
  next => exact hu
  by_cases hq : q = c
  · subst hq
    exact settle_writer _ _ _ _ _ hw
  · unfold LaneTable.writerAt
    rw [settle_lane, if_neg hq]
    exact hu

/-- A lane forms where the writer is wanted and was not there, and is there then. -/
theorem rematchLane_formed (h : (rematchLane E b s c).2 = true) :
    wantsWriter E b (topicAt s.topics c) c = true ∧ (s.writerAt c).used = false ∧
      ((rematchLane E b s c).1.writerAt c).used = true := by
  unfold rematchLane at h ⊢
  dsimp only at h ⊢
  split at h
  next => exact absurd h Bool.false_ne_true
  next hidle =>
    split at h
    next => exact absurd h Bool.false_ne_true
    next hno =>
      rw [if_neg hidle, if_neg hno]
      obtain ⟨hw, hu⟩ := Bool.and_eq_true_iff.mp h
      have hunused : (s.writerAt c).used = false := (Bool.not_eq_true' _).mp hu
      exact ⟨hw, hunused, settle_writer _ _ _ _ _ hw⟩

/-- The writers still to form. -/
def unformed (E : MatchEnv) (b : PeerBits) (s : LaneTable) : Nat :=
  (List.range s.topics.length).countP fun c =>
    wantsWriter E b (topicAt s.topics c) c && !(s.writerAt c).used

theorem Stays.still (h : Stays E b s s') (q : Nat)
    (hq : (wantsWriter E b (topicAt s'.topics q) q && !(s'.writerAt q).used) = true) :
    (wantsWriter E b (topicAt s.topics q) q && !(s.writerAt q).used) = true := by
  obtain ⟨hw, hu⟩ := Bool.and_eq_true_iff.mp hq
  rw [(h.1.topics q).wantsWriter] at hw
  rw [hw, Bool.true_and]
  cases hold : (s.writerAt q).used with
  | false => rfl
  | true =>
    rw [h.2 q hw hold] at hu
    exact absurd hu Bool.false_ne_true

theorem Stays.unformed_le (h : Stays E b s s') :
    unformed E b s' ≤ unformed E b s := by
  unfold unformed
  rw [h.1.length]
  exact List.countP_mono_left fun q _ => h.still q

theorem countP_lt {p q : Nat → Bool} {l : List Nat} (h : ∀ x ∈ l, p x = true → q x = true)
    (hc : c ∈ l) (hq : q c = true) (hp : p c = false) : l.countP p < l.countP q := by
  have hsplit : l.countP p = (l.filter q).countP p := by
    rw [List.countP_filter]
    exact List.countP_congr fun x hx => by simpa using h x hx
  rw [hsplit, List.countP_eq_length_filter, List.countP_eq_length_filter]
  exact List.length_filter_lt_length_iff_exists.mpr ⟨c, List.mem_filter.mpr ⟨hc, hq⟩, by simp [hp]⟩

/-- A lane that formed leaves less to form. -/
theorem unformed_lt (h : (rematchLane E b s c).2 = true) :
    unformed E b (rematchLane E b s c).1 < unformed E b s := by
  obtain ⟨hw, hu, hu'⟩ := rematchLane_formed h
  have hstays := @rematchLane_stays E b s c
  have hlt : c < s.topics.length := by
    by_contra hge
    rw [topicAt_ge (Nat.le_of_not_lt hge)] at hw
    exact absurd hw Bool.false_ne_true
  unfold unformed
  rw [hstays.1.length]
  apply countP_lt (c := c)
  · exact fun q _ => hstays.still q
  · exact List.mem_range.mpr hlt
  · rw [hw, hu]
    rfl
  · rw [hu', Bool.not_true, Bool.and_false]

theorem rematch_stays : ∀ (fuel : Nat) (s : LaneTable) (c : Nat), Stays E b s (rematch E b fuel s c)
  | 0, s, _ => ⟨Rematched.refl b s, fun _ _ hu => hu⟩
  | fuel + 1, s, c => by
    have hfold : ∀ (cs : List Nat) (s' : LaneTable), Stays E b s s' →
        Stays E b s (cs.foldl (rematch E b fuel) s') := by
      intro cs
      induction cs with
      | nil => exact fun _ h => h
      | cons d cs ih => exact fun s' h => ih _ (h.trans (rematch_stays fuel s' d))
    rw [rematch]
    split
    next => exact hfold _ _ (rematchLane_stays s c)
    next => exact rematchLane_stays s c

/-- The wakes nest no deeper than there are writers to form, and past that depth it makes no
difference how deep they may. -/
theorem rematchIn_eq : ∀ (depth fuel : Nat) (s : LaneTable) (c : Nat), unformed E b s < depth →
    unformed E b s < fuel → rematchIn E b depth s c = some (rematch E b fuel s c) := by
  intro depth
  induction depth with
  | zero => intro fuel s c h _; exact absurd h (Nat.not_lt_zero _)
  | succ depth ih =>
    intro fuel s c h h'
    obtain ⟨fuel, rfl⟩ : ∃ k, fuel = k + 1 := ⟨fuel - 1, by omega⟩
    rw [rematchIn, rematch]
    cases hformed : (rematchLane E b s c).2 with
    | false => rfl
    | true =>
      rw [if_pos rfl, if_pos rfl]
      -- each wake starts with one writer less to form
      have hlt := unformed_lt hformed
      have hfold : ∀ (cs : List Nat) (s' : LaneTable), unformed E b s' ≤ unformed E b (rematchLane E b s c).1 →
          cs.foldlM (rematchIn E b depth) s' = some (cs.foldl (rematch E b fuel) s') := by
        intro cs
        induction cs with
        | nil => exact fun _ _ => rfl
        | cons d cs ihcs =>
          intro s' hs'
          rw [List.foldlM_cons, List.foldl_cons, ih fuel s' d (by omega) (by omega)]
          apply ihcs
          have hle := Stays.unformed_le (@rematch_stays E b fuel s' d)
          omega
      exact hfold _ _ (Nat.le_refl _)

/-- **The wakes end**, nested no deeper than there are topics: a lane wakes others only when its
writer forms, and no wake unforms one. -/
theorem rematch_done (s : LaneTable) (c k : Nat) :
    rematchIn E b (s.topics.length + 1 + k) s c = some (rematch E b (s.topics.length + 1) s c) := by
  have hle : unformed E b s ≤ s.topics.length :=
    List.countP_le_length.trans_eq List.length_range
  exact rematchIn_eq _ _ s c (by omega) (by omega)

end Rant.Transport
