import Rant.Transport.ReaderSlots
/-!
# When a delivery is acknowledged

An in order delivery owes its writer a cumulative ack within `RANT_ACK_DELAY_US`. The reader
arms it only when no ack is armed yet, taking the armed one to be due earlier. After a repair
request it is not: the backstop keeps the lane armed for a whole retransmit bound. A delivery
that finds it so leaves the ack there, unless something else asks for one at once
(`ack_timely_iff`).

`Timely` is the conclusion for one event and `OnTime` the condition on the state before. `Delivered`
follows a delivery from the sample handed over to the ack it arms: what lies between touches no ack
(`SameAck`), so the answer is read off the arrival's own request and the ack that stood before.
-/

namespace Rant.Transport

open Rant.Lib

/-! ## Deliveries -/

/-- An effect that handed a sample to the application, which took it. -/
def Effect.handed : Effect → Bool
  | .message _ _ _ refused => !refused
  | .shm _ _ _ ok => decide (0 < ok)
  | _ => false

/-- A step that delivered a sample. -/
def Hands (x x' : ReaderSide) : Prop := ∃ es, x'.fx = x.fx ++ es ∧ ∃ e ∈ es, e.handed = true

/-- A cumulative ack is armed, due within `RANT_ACK_DELAY_US` of `now`. -/
def Timely (r : ReaderProxy) (now : Nat) : Prop :=
  r.ackPending = true ∧ r.ackForce = true ∧ r.ackDueUs ≤ now + ackDelayUs

variable {t : Topic} {sink : Sink} {now : Nat}

variable {x : ReaderSide}

theorem not_hands_of {x' : ReaderSide} (es : List Effect) (hfx : x'.fx = x.fx ++ es)
    (hes : ∀ e ∈ es, e.handed = false) : ¬ Hands x x' := by
  rintro ⟨es', hfx', e, he, hh⟩
  have heq : es' = es := List.append_cancel_left (hfx'.symm.trans hfx)
  rw [heq] at he
  exact Bool.noConfusion ((hes e he).symm.trans hh)

theorem handed_silent {e : Effect} (h : Silent e) : e.handed = false := by
  cases e with
  | wake => rfl
  | arm _ => rfl
  | _ => exact h.elim

theorem not_hands_of_quiet {x' : ReaderSide} (h : Quiet x x') : ¬ Hands x x' := by
  obtain ⟨-, es, hfx, hes⟩ := h
  exact not_hands_of _ hfx fun e he => handed_silent (hes e he)

theorem not_hands_of_fx {x' : ReaderSide} (h : x'.fx = x.fx) : ¬ Hands x x' :=
  not_hands_of _ (h.trans (List.append_nil _).symm) fun _ he => absurd he List.not_mem_nil

/-- A beginning that hands nothing over leaves the delivery to the rest. -/
theorem hands_of_suffix {y z : ReaderSide} {es : List Effect} (hfx : y.fx = x.fx ++ es)
    (hes : ∀ e ∈ es, e.handed = false) (hyz : ∃ es', z.fx = y.fx ++ es') (h : Hands x z) : Hands y z := by
  obtain ⟨es', hyz⟩ := hyz
  obtain ⟨all, hall, e, he, hh⟩ := h
  have heq : all = es ++ es' := by
    have happ : x.fx ++ all = x.fx ++ (es ++ es') := by
      rw [← hall, hyz, hfx, List.append_assoc]
    exact List.append_cancel_left happ
  rw [heq, List.mem_append] at he
  rcases he with he | he
  · exact Bool.noConfusion ((hes e he).symm.trans hh)
  · exact ⟨es', hyz, e, he, hh⟩

/-! ## The ack of a delivery -/

/-- What a delivery finds of the ack is what it reads: pending, due, asked for, and how far
data was received. -/
structure SameAck (r r' : ReaderProxy) : Prop where
  pending : r'.ackPending = r.ackPending
  due : r'.ackDueUs = r.ackDueUs
  asked : r'.ackReq = r.ackReq
  high : r'.receivedHigh = r.receivedHigh
  force : r'.ackForce = r.ackForce

theorem sameAck_refl (r : ReaderProxy) : SameAck r r := ⟨rfl, rfl, rfl, rfl, rfl⟩

theorem sameAck_trans {r r' r'' : ReaderProxy} (h : SameAck r r') (h' : SameAck r' r'') :
    SameAck r r'' :=
  ⟨h'.pending.trans h.pending, h'.due.trans h.due, h'.asked.trans h.asked, h'.high.trans h.high,
    h'.force.trans h.force⟩

theorem readerSettle_ack (r : ReaderProxy) : SameAck r (readerSettle r) := by
  unfold readerSettle
  split
  next => exact sameAck_refl r
  split
  next => exact ⟨rfl, rfl, rfl, rfl, rfl⟩
  split
  next => exact ⟨rfl, rfl, rfl, rfl, rfl⟩
  next => exact sameAck_refl r

theorem readerMoveTo_ack (r : ReaderProxy) (upto : Nat) : SameAck r (readerMoveTo r upto) := by
  have h := readerSettle_ack { r with deliverUpto := upto, cur := { r.cur with active := false } }
  exact ⟨h.pending, h.due, h.asked, h.high, h.force⟩

theorem deliverLoop_ack (t : Topic) (sink : Sink) : ∀ (n : Nat) (x : ReaderSide) (d : Bool),
    SameAck x.r (deliverLoop t sink n x d).1.r
  | 0, x, _ => sameAck_refl x.r
  | n + 1, x, d => by
    unfold deliverLoop
    split
    next =>
      dsimp only
      split
      next => exact ⟨rfl, rfl, rfl, rfl, rfl⟩
      have h := readerMoveTo_ack { x.r with lapped := false } (x.r.cur.base + x.r.cur.count)
      refine sameAck_trans ?_ (deliverLoop_ack t sink n _ true)
      exact ⟨h.pending, h.due, h.asked, h.high, h.force⟩
    next => exact sameAck_refl x.r

/-- An ack asked for at once is timely. -/
theorem ackNow_timely (x : ReaderSide) (isHb : Bool) (now : Nat) :
    Timely (readerAckNow x true isHb).r now := by
  refine ⟨rfl, ?_, Nat.zero_le _⟩
  show ((readerArm x isHb).r.ackForce || true) = true
  exact Bool.or_true _

theorem readerArm_r (x : ReaderSide) (isHb : Bool) : (readerArm x isHb).r = x.r := by
  unfold readerArm
  split
  next => rfl
  next => split <;> rfl

/-- When `i_rant_reader_ack_delivered` acks in time: at once on request, without a clock or
with data received past the new front, else when no later ack is armed. -/
theorem ackDelivered_timely_iff (x : ReaderSide) (now : Nat) :
    Timely (readerAckDelivered x now).r now ↔
      (x.r.ackReq = true ∨ now = 0 ∨ x.r.deliverUpto ≤ x.r.receivedHigh) ∨
        x.r.ackPending = false ∨ x.r.ackDueUs ≤ now + ackDelayUs := by
  unfold readerAckDelivered
  by_cases hnow : x.r.ackReq = true ∨ now = 0 ∨ x.r.deliverUpto ≤ x.r.receivedHigh
  · rw [if_pos hnow]
    exact ⟨fun _ => Or.inl hnow, fun _ => ackNow_timely x false now⟩
  rw [if_neg hnow]
  dsimp only
  by_cases hp : x.r.ackPending = true
  · rw [if_pos hp]
    constructor
    · rintro ⟨-, -, hdue⟩
      exact Or.inr (Or.inr hdue)
    · rintro (h | h | h)
      · exact absurd h hnow
      · exact Bool.noConfusion (h.symm.trans hp)
      · exact ⟨hp, rfl, h⟩
  · rw [if_neg hp]
    refine ⟨fun _ => Or.inr (Or.inl (Bool.not_eq_true _ ▸ hp)), fun _ => ⟨rfl, ?_, Nat.le_refl _⟩⟩
    dsimp only [ReaderSide.emit_r]
    rw [readerArm_r]

/-! ## The delivery loop -/

/-- The head's bytes. -/
def Assembly.bytes (a : Assembly) : Bytes := a.buf.take a.len

/-- The sample held ahead goes up right behind a head that ends at `upto`: it starts there, is
complete, and the application takes it, asked after the effects `fx`. -/
def HeldFollows (sink : Sink) (r : ReaderProxy) (upto : Nat) (fx : List Effect) : Prop :=
  r.next.active = true ∧ r.next.base = upto ∧ r.next.low = r.next.count ∧
    sink.refuses fx r.next.bytes = false

instance (sink : Sink) (r : ReaderProxy) (upto : Nat) (fx : List Effect) :
    Decidable (HeldFollows sink r upto fx) := inferInstanceAs (Decidable (_ ∧ _ ∧ _ ∧ _))

/-- Where a delivery of the head that ends at `upto` leaves `deliver_upto`. -/
def handedUpto (sink : Sink) (r : ReaderProxy) (upto : Nat) (fx : List Effect) : Nat :=
  if HeldFollows sink r upto fx then r.next.base + r.next.count else upto

theorem handedUpto_congr {r r' : ReaderProxy} (h : r'.next = r.next) (upto : Nat) (fx : List Effect) :
    handedUpto sink r' upto fx = handedUpto sink r upto fx := by
  have hiff : HeldFollows sink r' upto fx ↔ HeldFollows sink r upto fx := by
    unfold HeldFollows
    rw [h]
  unfold handedUpto
  simp only [hiff, h]

theorem le_handedUpto (sink : Sink) (r : ReaderProxy) (upto : Nat) (fx : List Effect) :
    upto ≤ handedUpto sink r upto fx := by
  unfold handedUpto
  split
  next h =>
    have := h.2.1
    omega
  next => exact Nat.le_refl _

/-- The second turn of the loop, after the head went up: what was held ahead follows, or
nothing does. -/
theorem deliverLoop_second (sink : Sink) (ht : t.reliable) (x : ReaderSide) (upto : Nat) :
    (deliverLoop t sink 1 { x with r := readerMoveTo x.r upto } true).2 = true ∧
      (deliverLoop t sink 1 { x with r := readerMoveTo x.r upto } true).1.r.deliverUpto =
        handedUpto sink x.r upto x.fx ∧
      (x.r.next.active = false →
        (deliverLoop t sink 1 { x with r := readerMoveTo x.r upto } true).1.r.parked = x.r.parked) := by
  have hstop : ∀ y : ReaderSide, ¬ (y.r.cur.active = true ∧ y.r.cur.low = y.r.cur.count) →
      deliverLoop t sink 1 y true = (y, true) := by
    intro y hy
    unfold deliverLoop
    exact if_neg hy
  unfold handedUpto
  by_cases hn : x.r.next.active = true ∧ x.r.next.base = upto
  · -- the sample held ahead is the head now
    have hmove : readerMoveTo x.r upto = { x.r with
        deliverUpto := upto, cur := x.r.next, next := { x.r.cur with active := false } } := by
      unfold readerMoveTo readerSettle
      rw [if_neg (fun hc => Bool.noConfusion (hn.1.symm.trans hc)),
        if_neg (Nat.not_lt.mpr (Nat.le_of_eq hn.2.symm)), if_pos ⟨hn.2, rfl⟩]
    rw [hmove]
    by_cases hlow : x.r.next.low = x.r.next.count
    · cases hacc : sink.refuses x.fx x.r.next.bytes with
      | true =>
        rw [if_neg fun hc => Bool.noConfusion (hacc.symm.trans hc.2.2.2)]
        unfold deliverLoop
        dsimp only
        rw [if_pos ⟨hn.1, hlow⟩, if_pos ⟨hacc, ht⟩]
        exact ⟨rfl, rfl, fun hc => Bool.noConfusion (hc.symm.trans hn.1)⟩
      | false =>
        rw [if_pos ⟨hn.1, hn.2, hlow, hacc⟩]
        unfold deliverLoop
        dsimp only
        rw [if_pos ⟨hn.1, hlow⟩, if_neg fun hc => Bool.noConfusion (hacc.symm.trans hc.1)]
        exact ⟨rfl, readerMoveTo_deliverUpto _ _, fun hc => Bool.noConfusion (hc.symm.trans hn.1)⟩
    · rw [if_neg fun hc => hlow hc.2.2.1, hstop _ fun hc => hlow hc.2]
      exact ⟨rfl, rfl, fun _ => rfl⟩
  · -- nothing rotates: the head stays empty
    have hempty : (readerMoveTo x.r upto).cur.active = false := by
      unfold readerMoveTo readerSettle
      split
      next => rfl
      split
      next => rfl
      next hact hge =>
        rw [if_neg fun hc => hn ⟨Bool.not_eq_false _ ▸ hact, hc.1⟩]
    rw [if_neg fun hc => hn ⟨hc.1, hc.2.1⟩, hstop _ fun hc => Bool.noConfusion (hempty.symm.trans hc.1)]
    exact ⟨rfl, readerMoveTo_deliverUpto _ _, fun _ => readerMoveTo_parked _ _⟩

/-- A delivery of the head of a reliable lane, with what follows it: the ack is armed on a lane
whose ack fields are those from before, and whose `deliver_upto` moved past what went up. -/
structure Delivered (sink : Sink) (x y : ReaderSide) : Prop where
  head : x.r.cur.active = true
  ack : SameAck x.r y.r
  upto : y.r.deliverUpto = handedUpto sink x.r (x.r.cur.base + x.r.cur.count)
    (x.fx ++ [.message x.r.cur.base x.r.cur.count x.r.cur.bytes false])
  parked : x.r.next.active = false → y.r.parked = x.r.parked

/-- What `i_rant_reader_deliver` does on a reliable lane: it hands nothing over and leaves the
ack alone, or the head goes up and the ack is that of the delivery. -/
theorem readerDeliver_cases (sink : Sink) (ht : t.reliable) (x : ReaderSide) (now : Nat) :
    (¬ Hands x (readerDeliver t sink x now) ∧ SameAck x.r (readerDeliver t sink x now).r) ∨
    ∃ y, readerDeliver t sink x now = readerAckDelivered y now ∧ Delivered sink x y := by
  by_cases hhead : x.r.cur.active = true ∧ x.r.cur.low = x.r.cur.count
  · cases hacc : sink.refuses x.fx x.r.cur.bytes with
    | true =>
      have hpark : deliverLoop t sink 2 x false = ({ x with
          r := { x.r with parked := true }
          fx := x.fx ++ [.message x.r.cur.base x.r.cur.count x.r.cur.bytes true] }, false) := by
        unfold deliverLoop
        rw [if_pos hhead]
        dsimp only
        rw [if_pos ⟨hacc, ht⟩]
        show ({ x with
          r := { x.r with parked := true }
          fx := x.fx ++ [Effect.message x.r.cur.base x.r.cur.count x.r.cur.bytes
            (sink.refuses x.fx x.r.cur.bytes)] }, false) = _
        rw [hacc]
      have hdel : readerDeliver t sink x now = { x with
          r := { x.r with parked := true }
          fx := x.fx ++ [.message x.r.cur.base x.r.cur.count x.r.cur.bytes true] } := by
        unfold readerDeliver
        rw [hpark]
        exact if_neg fun hc => Bool.noConfusion hc.1
      rw [hdel]
      refine Or.inl ⟨not_hands_of _ rfl fun e he => ?_, rfl, rfl, rfl, rfl, rfl⟩
      rw [List.mem_singleton.mp he]
      rfl
    | false =>
      -- the head went up: the second turn
      have hfirst : deliverLoop t sink 2 x false = deliverLoop t sink 1 { x with
          r := readerMoveTo { x.r with lapped := false } (x.r.cur.base + x.r.cur.count)
          fx := x.fx ++ [.message x.r.cur.base x.r.cur.count x.r.cur.bytes false] } true := by
        conv => lhs; unfold deliverLoop
        rw [if_pos hhead]
        dsimp only
        rw [if_neg fun hc => Bool.noConfusion (hacc.symm.trans hc.1)]
        show deliverLoop t sink 1 { x with
          r := readerMoveTo { x.r with lapped := false } (x.r.cur.base + x.r.cur.count)
          fx := x.fx ++ [.message x.r.cur.base x.r.cur.count x.r.cur.bytes
            (sink.refuses x.fx x.r.cur.bytes)] } true = _
        rw [hacc]
      have hsecond := deliverLoop_second sink ht { x with
        r := { x.r with lapped := false }
        fx := x.fx ++ [.message x.r.cur.base x.r.cur.count x.r.cur.bytes false] }
        (x.r.cur.base + x.r.cur.count)
      refine Or.inr ⟨(deliverLoop t sink 2 x false).1, ?_, hhead.1, deliverLoop_ack t sink 2 x false, ?_, ?_⟩
      · unfold readerDeliver
        rw [hfirst]
        exact if_pos ⟨hsecond.1, ht⟩
      · rw [hfirst]
        exact hsecond.2.1
      · rw [hfirst]
        exact hsecond.2.2
  · left
    have hloop : deliverLoop t sink 2 x false = (x, false) := by
      unfold deliverLoop
      exact if_neg hhead
    unfold readerDeliver
    rw [hloop]
    exact ⟨not_hands_of_fx rfl, sameAck_refl x.r⟩

theorem deliverLoop_ext (t : Topic) (sink : Sink) : ∀ (n : Nat) (x : ReaderSide) (d : Bool),
    ∃ es, (deliverLoop t sink n x d).1.fx = x.fx ++ es
  | 0, x, _ => ⟨[], (List.append_nil _).symm⟩
  | n + 1, x, d => by
    unfold deliverLoop
    split
    next =>
      dsimp only
      split
      next => exact ⟨_, rfl⟩
      next =>
        obtain ⟨es, hes⟩ := deliverLoop_ext t sink n _ true
        exact ⟨_ :: es, hes.trans (List.append_assoc _ _ _)⟩
    next => exact ⟨[], (List.append_nil _).symm⟩

theorem readerDeliver_ext (t : Topic) (sink : Sink) (x : ReaderSide) (now : Nat) :
    ∃ es, (readerDeliver t sink x now).fx = x.fx ++ es := by
  obtain ⟨es, hes⟩ := deliverLoop_ext t sink 2 x false
  unfold readerDeliver
  split
  next x' d heq =>
    rw [heq] at hes
    split
    next =>
      obtain ⟨-, es', hes', -⟩ := readerAckDelivered_quiet x' now
      exact ⟨es ++ es', by rw [hes', hes, List.append_assoc]⟩
    next => exact ⟨es, hes⟩

/-- A delivery keeps an ack that is timely already. -/
theorem readerDeliver_timely (ht : t.reliable) (now : Nat) (h : Timely x.r now) :
    Timely (readerDeliver t sink x now).r now := by
  have hkeep : ∀ {r r' : ReaderProxy}, SameAck r r' → Timely r now → Timely r' now := by
    intro r r' hs hr
    exact ⟨hs.pending.trans hr.1, hs.force.trans hr.2.1, hs.due.symm ▸ hr.2.2⟩
  rcases readerDeliver_cases sink ht x now with ⟨-, hack⟩ | ⟨y, heq, hd⟩
  · exact hkeep hack h
  · rw [heq, ackDelivered_timely_iff]
    exact Or.inr (Or.inr (hkeep hd.ack h).2.2)

/-! ## The condition -/

/-- An armed ack a delivery at `now` leaves where it is, later than the delivery's own: nobody
asked for one at once. -/
structure HeldBack (r : ReaderProxy) (ackReq : Bool) (now : Nat) : Prop where
  pending : r.ackPending = true
  late : now + ackDelayUs < r.ackDueUs
  asked : r.ackReq = false
  unasked : ackReq = false
  clock : now ≠ 0

/-- The head as a DATA leaves it. -/
def headAfter (peerFrag : Nat) (al : Alloc) (a : Assembly) (m : DataMsg) : Assembly :=
  let a := asmOpen (asmFit al a m.sampleLen m.count).1 m
  if a.bitmap m.frag then a else asmStore peerFrag a m.frag m.payload

/-- Where a DATA that completes the head leaves `deliver_upto`: past its sample, and past the
one held ahead when that follows. -/
def dataUpto (t : Topic) (peerFrag : Nat) (sink : Sink) (al : Alloc) (x : ReaderSide) (m : DataMsg) : Nat :=
  match offered t peerFrag x.r m with
  | some (_, a) => handedUpto sink x.r (m.base + m.count)
      (x.fx ++ [.message m.base m.count (headAfter peerFrag al a m).bytes false])
  | none => m.base + m.count

/-- The buffers could not take a DATA's sample. -/
def DataTooBig (t : Topic) (peerFrag : Nat) (al : Alloc) (r : ReaderProxy) (m : DataMsg) : Prop :=
  ∃ s a, offered t peerFrag r m = some (s, a) ∧ (asmFit al a m.sampleLen m.count).2 = false

/-- When the delivery of an event is acknowledged in time: no later ack is armed, or data was
received past what the event delivers, or the event delivers behind a sample too big to hold. -/
def OnTime (t : Topic) (l : ReaderLane) : ReaderEvent → Prop
  | .data sink al m now => ¬ HeldBack l.side.r m.ackReq now ∨
      dataUpto t l.peerFrag sink al l.side m ≤ l.side.r.receivedHigh ∨
      DataTooBig t l.peerFrag al l.side.r m
  | .shm _ _ m now => ¬ HeldBack l.side.r m.ackReq now ∨ m.base + m.count ≤ l.side.r.receivedHigh
  | _ => True

/-- The clock of an event; a resume of a parked sample has none. -/
def ReaderEvent.clock : ReaderEvent → Nat
  | .data _ _ _ now | .shm _ _ _ now | .hb _ _ now | .poll _ _ now => now
  | _ => 0

/-- The ack of a delivery on a lane that noted the arrival's request. -/
theorem noted_timely_iff {y z : ReaderSide} {top upto : Nat} {ackReq : Bool} (now : Nat)
    (hn : NotedAt x y top ackReq) (hz : SameAck y.r z.r) (hup : z.r.deliverUpto = upto)
    (htop : top < upto) :
    Timely (readerAckDelivered z now).r now ↔
      ¬ HeldBack x.r ackReq now ∨ upto ≤ x.r.receivedHigh := by
  have hpending := hz.pending.trans hn.pending
  have hdue := hz.due.trans hn.due
  have hasked := hz.asked.trans hn.asked
  have hhigh := hz.high.trans hn.high
  rw [ackDelivered_timely_iff, hpending, hdue, hasked, hhigh, hup]
  have hmax : upto ≤ max x.r.receivedHigh top ↔ upto ≤ x.r.receivedHigh := by omega
  rw [hmax]
  constructor
  · rintro ((h | h | h) | h | h)
    · refine Or.inl fun hb => ?_
      rw [hb.asked, hb.unasked] at h
      exact Bool.noConfusion h
    · exact Or.inl fun hb => hb.clock h
    · exact Or.inr h
    · exact Or.inl fun hb => Bool.noConfusion (h.symm.trans hb.pending)
    · exact Or.inl fun hb => absurd hb.late (Nat.not_lt.mpr h)
  · rintro (h | h)
    · by_contra hno
      rw [not_or, not_or, not_or, not_or] at hno
      obtain ⟨⟨h1, h2, -⟩, h4, h5⟩ := hno
      rw [Bool.not_eq_true, Bool.or_eq_false_iff] at h1
      exact h ⟨Bool.not_eq_false _ ▸ h4, Nat.not_le.mp h5, h1.1, h1.2, h2⟩
    · exact Or.inl (Or.inr (Or.inr h))

/-! ## DATA -/

variable {al : Alloc}

/-- A fragment held ahead calls no sink. -/
theorem fitSlot_next_fx {F : Nat} (x : ReaderSide) (m : DataMsg) :
    (fitSlot t F sink al x .next m now).fx = x.fx := by
  have hcount : ∀ (y : ReaderSide) (b : Bool), (countFrag y m b now).fx = y.fx := by
    intro y b
    unfold countFrag
    dsimp only
    split
    next => split <;> rfl
    next => rfl
  have hstored : ∀ (y : ReaderSide) (b : Bool),
      (fragStored t sink (countFrag y m b now) .next m b now).fx = y.fx := by
    intro y b
    unfold fragStored
    exact (congrArg ReaderSide.fx (if_pos rfl)).trans (hcount y b)
  unfold fitSlot
  split
  next a _ =>
    obtain ⟨y, hy⟩ : ∃ y, y = x.put .next a := ⟨_, rfl⟩
    have hfx : y.fx = x.fx := by rw [hy]; rfl
    show (acceptFrag t F sink (x.put .next a) .next m now).fx = x.fx
    rw [← hy, ← hfx]
    by_cases hc : m.count = (asmOpen (y.r.slot .next) m).count
    · cases hb : (asmOpen (y.r.slot .next) m).bitmap m.frag with
      | false =>
        rw [acceptFrag_new now ⟨hc, hb⟩]
        exact hstored _ true
      | true =>
        rw [acceptFrag_dup now hc hb]
        exact hstored _ false
    · rw [acceptFrag_other now hc]
      rfl
  next => rfl

theorem countFrag_lane (x : ReaderSide) (m : DataMsg) (newFrag : Bool) (now : Nat) :
    (countFrag x m newFrag now).fx = x.fx ∧ (countFrag x m newFrag now).r.cur = x.r.cur ∧
      (countFrag x m newFrag now).r.next = x.r.next ∧ SameAck x.r (countFrag x m newFrag now).r := by
  unfold countFrag
  dsimp only
  split
  next =>
    split
    next => exact ⟨rfl, rfl, rfl, rfl, rfl, rfl, rfl, rfl⟩
    next => exact ⟨rfl, rfl, rfl, rfl, rfl, rfl, rfl, rfl⟩
  next => exact ⟨rfl, rfl, rfl, rfl, rfl, rfl, rfl, rfl⟩

/-- What follows a fragment stored in the head of a reliable lane: nothing is handed over, or
the head goes up. -/
theorem headStored_cases (sink : Sink) (ht : t.reliable) (x : ReaderSide) (a : Assembly) (m : DataMsg)
    (newFrag : Bool) (now : Nat) :
    (¬ Hands x (fragStored t sink (countFrag (x.put .cur a) m newFrag now) .cur m newFrag now)) ∨
    ∃ y, fragStored t sink (countFrag (x.put .cur a) m newFrag now) .cur m newFrag now =
        readerAckDelivered y now ∧ SameAck x.r y.r ∧
      y.r.deliverUpto = handedUpto sink x.r (a.base + a.count)
        (x.fx ++ [.message a.base a.count a.bytes false]) := by
  obtain ⟨z, hz⟩ : ∃ z, z = countFrag (x.put .cur a) m newFrag now := ⟨_, rfl⟩
  obtain ⟨hfx, hcur, hnext, hack⟩ := countFrag_lane (x.put .cur a) m newFrag now
  rw [← hz] at hfx hcur hnext hack ⊢
  have hfx : z.fx = x.fx := hfx
  have hcur : z.r.cur = a := hcur
  have hnext : z.r.next = x.r.next := hnext
  have hack : SameAck x.r z.r := ⟨hack.pending, hack.due, hack.asked, hack.high, hack.force⟩
  have hsame : ∀ z', Hands x z' → Hands z z' := by
    rintro z' ⟨es, hes, h⟩
    exact ⟨es, hfx ▸ hes, h⟩
  unfold fragStored
  dsimp only
  rw [if_neg (fun hc => Slot.noConfusion hc)]
  split
  next =>
    rcases readerDeliver_cases sink ht z now with ⟨hno, -⟩ | ⟨y, heq, hd⟩
    · exact Or.inl fun hh => hno (hsame _ hh)
    · refine Or.inr ⟨y, heq, sameAck_trans hack hd.ack, ?_⟩
      rw [hd.upto, hcur, hfx, handedUpto_congr hnext]
  next =>
    refine Or.inl fun hh => ?_
    split at hh
    next => exact not_hands_of_quiet (readerAckNow_quiet _ false false) (hsame _ hh)
    next => exact not_hands_of_quiet (quiet_refl z) (hsame _ hh)

/-- A head too big to hold is acked at once. -/
theorem headTooBig_timely (ht : t.reliable) (x : ReaderSide) (m : DataMsg) (now : Nat) :
    Timely (headTooBig t sink x m now).r now := by
  unfold headTooBig
  dsimp only
  rw [if_pos ht]
  exact readerDeliver_timely ht now (ackNow_timely _ false now)

/-- A DATA's seqno lies before its sample's end. -/
theorem seqno_lt_stop {m : DataMsg} (h : m.frag < m.count) : m.seqno < m.base + m.count := by
  unfold DataMsg.base u64Sub
  split <;> omega

/-- A DATA that delivers is acked in time under the condition and no other. -/
theorem readerData_timely_iff {F : Nat} (ht : t.reliable) {m : DataMsg}
    (h : Slots t Front x.r) (hh : Hands x (readerData t F sink al x m now)) :
    Timely (readerData t F sink al x m now).r now ↔
      ¬ HeldBack x.r m.ackReq now ∨ dataUpto t F sink al x m ≤ x.r.receivedHigh ∨
        DataTooBig t F al x.r m := by
  rcases readerData_cases (D := fun _ _ _ => True) F sink al m now h with ⟨-, hq, -⟩ | ⟨s, a, y, hoff, hr, heq⟩
  · exact absurd hh (not_hands_of_quiet hq)
  rw [heq] at hh ⊢
  cases s with
  | next =>
    -- held ahead: nothing goes up
    obtain ⟨-, es, hfx, hsil⟩ := hr.ahead rfl
    exact absurd hh (not_hands_of _ ((fitSlot_next_fx y m).trans hfx) fun e he =>
      handed_silent (hsil e he))
  | cur =>
    have hn := hr.noted rfl ht
    obtain ⟨⟨a', fits⟩, hfit⟩ : ∃ p, asmFit al a m.sampleLen m.count = p := ⟨_, rfl⟩
    cases fits with
    | false =>
      have hout : fitSlot t F sink al y .cur m now = headTooBig t sink (y.put .cur a') m now := by
        unfold fitSlot
        rw [hr.slot, hfit]
        exact if_neg fun hc => Slot.noConfusion hc
      rw [hout]
      refine ⟨fun _ => Or.inr (Or.inr ⟨.cur, a, hoff, by rw [hfit]⟩), fun _ => ?_⟩
      exact headTooBig_timely ht _ _ _
    | true =>
      have hbig : ¬ DataTooBig t F al x.r m := by
        rintro ⟨s', a'', hoff', hno⟩
        have heq' := Option.some.inj (hoff.symm.trans hoff')
        rw [← (Prod.mk.inj heq').2, hfit] at hno
        exact Bool.noConfusion hno
      have hin : fitSlot t F sink al y .cur m now = acceptFrag t F sink (y.put .cur a') .cur m now := by
        unfold fitSlot
        rw [hr.slot, hfit]
        rfl
      have hspec := asmFit_spec al a m.sampleLen m.count
      rw [hfit] at hspec
      have hbase : (asmOpen a' m).base = m.base :=
        asmOpen_base fun ha => hspec.2.1.trans (hr.base (hspec.1 ▸ ha))
      rw [hin] at hh ⊢
      by_cases hcount : m.count = (asmOpen a' m).count
      · -- the head as the DATA leaves it
        have hstored : ∀ (b : Assembly) (newFrag : Bool), b.base = m.base → b.count = m.count →
            b = headAfter F al a m →
            acceptFrag t F sink (y.put .cur a') .cur m now =
              fragStored t sink (countFrag (y.put .cur b) m newFrag now) .cur m newFrag now →
            (Timely (acceptFrag t F sink (y.put .cur a') .cur m now).r now ↔
              ¬ HeldBack x.r m.ackReq now ∨ dataUpto t F sink al x m ≤ x.r.receivedHigh ∨
                DataTooBig t F al x.r m) := by
          intro b newFrag hb hbc hafter hacc
          rw [hacc] at hh ⊢
          rcases headStored_cases sink ht y b m newFrag now with hno | ⟨z, hz, hack, hup⟩
          · obtain ⟨es, hes, he⟩ := hh
            exact absurd ⟨es, hn.fx ▸ hes, he⟩ hno
          · have hdata : dataUpto t F sink al x m = handedUpto sink x.r (m.base + m.count)
                (x.fx ++ [.message m.base m.count (headAfter F al a m).bytes false]) := by
              unfold dataUpto
              rw [hoff]
            have hzu : z.r.deliverUpto = dataUpto t F sink al x m := by
              rw [hup, hb, hbc, hn.fx, handedUpto_congr hn.next, hdata, hafter]
            have htop : m.seqno < dataUpto t F sink al x m := by
              rw [hdata]
              exact Nat.lt_of_lt_of_le (seqno_lt_stop hr.frag_lt) (le_handedUpto _ _ _ _)
            rw [hz, noted_timely_iff now hn hack hzu htop]
            constructor
            · rintro (h' | h')
              · exact Or.inl h'
              · exact Or.inr (Or.inl h')
            · rintro (h' | h' | h')
              · exact Or.inl h'
              · exact Or.inr h'
              · exact absurd h' hbig
        have hopen : headAfter F al a m = if (asmOpen a' m).bitmap m.frag then asmOpen a' m
            else asmStore F (asmOpen a' m) m.frag m.payload := by
          unfold headAfter
          rw [hfit]
        cases hbit : (asmOpen a' m).bitmap m.frag with
        | false =>
          refine hstored (asmStore F (asmOpen a' m) m.frag m.payload) true hbase hcount.symm ?_
            (acceptFrag_new now ⟨hcount, hbit⟩)
          rw [hopen, hbit]
          rfl
        | true =>
          refine hstored (asmOpen a' m) false hbase hcount.symm ?_ (acceptFrag_dup now hcount hbit)
          rw [hopen, hbit]
          rfl
      · rw [acceptFrag_other now hcount] at hh
        exact absurd hh (not_hands_of_fx hn.fx)

/-! ## Shared memory descriptors -/

theorem readerAckNow_fx (x : ReaderSide) (force isHb : Bool) :
    (readerAckNow x force isHb).fx = x.fx ++ [.wake] := by
  show (readerArm x isHb).fx ++ [.wake] = x.fx ++ [.wake]
  unfold readerArm
  split
  next => rfl
  next => split <;> rfl

/-- A descriptor that failed is not handed over. -/
theorem shmFailed_fx (x : ReaderSide) (base count : Nat) :
    ∃ es, (shmFailed t x base count).fx = x.fx ++ es ∧ ∀ e ∈ es, e.handed = false := by
  unfold shmFailed
  split
  next =>
    dsimp only
    split
    next =>
      refine ⟨[.lost base count, .wake], ?_, fun e he => ?_⟩
      · rw [readerAckNow_fx]
        exact List.append_assoc _ _ _
      · simp only [List.mem_cons, List.not_mem_nil, or_false] at he
        rcases he with rfl | rfl <;> rfl
    next =>
      refine ⟨[.wake], readerAckNow_fx _ false false, fun e he => ?_⟩
      rw [List.mem_singleton.mp he]
      rfl
  next =>
    refine ⟨[.wake], rfl, fun e he => ?_⟩
    rw [List.mem_singleton.mp he]
    rfl

/-- A descriptor that is refused or cannot be resolved hands nothing over. -/
theorem shmResolve_refused {m : ShmMsg}
    (hok : ¬ 0 < sink.onShm x.fx m.desc) : ¬ Hands x (shmResolve t sink al x m now) := by
  have hcall : ∀ (y : ReaderSide) (es : List Effect),
      y.fx = x.fx ++ [.shm m.base m.count m.desc (sink.onShm x.fx m.desc)] ++ es →
      (∀ e ∈ es, e.handed = false) → ¬ Hands x y := by
    intro y es hy hes
    refine not_hands_of _ (hy.trans (List.append_assoc _ _ _)) fun e he => ?_
    rcases List.mem_append.mp he with he | he
    · rw [List.mem_singleton.mp he]
      exact decide_eq_false hok
    · exact hes e he
  have hsame : ∀ y : ReaderSide, y.fx = x.fx ++ [.shm m.base m.count m.desc (sink.onShm x.fx m.desc)] →
      ¬ Hands x y := fun y hy =>
    hcall y [] (hy.trans (List.append_nil _).symm) fun _ he => absurd he List.not_mem_nil
  have hfail : ∀ y : ReaderSide, y.fx = x.fx ++ [.shm m.base m.count m.desc (sink.onShm x.fx m.desc)] →
      ¬ Hands x (shmFailed t y m.base m.count) := by
    intro y hy
    obtain ⟨es, hfx, hes⟩ := shmFailed_fx (t := t) y m.base m.count
    exact hcall _ es (hy ▸ hfx) hes
  unfold shmResolve
  dsimp only
  rw [if_neg hok]
  split
  next =>
    split
    next => exact hsame _ rfl
    split
    next => exact hsame _ rfl
    next => exact hfail _ rfl
  next => exact hfail _ rfl

/-- A descriptor that delivers is acked in time under the condition and no other. What was
held ahead and follows it only moves the front further. -/
theorem shmResolve_timely_iff (ht : t.reliable) {y : ReaderSide} {m : ShmMsg}
    (h : Slots t Front y.r) (hst : y.r.started = true) (hp : y.r.parked = false)
    (hcur : y.r.cur.active = false) (hpos : 0 < m.count)
    (hn : NotedAt x y (m.base + m.count - 1) m.ackReq)
    (hok : 0 < sink.onShm y.fx m.desc) :
    Timely (shmResolve t sink al y m now).r now ↔
      ¬ HeldBack x.r m.ackReq now ∨ m.base + m.count ≤ x.r.receivedHigh := by
  obtain ⟨z, hz⟩ : ∃ z : ReaderSide, z = { y with
      r := readerSettle { y.r with shmFail := 0, lapped := false, deliverUpto := m.base + m.count }
      fx := y.fx ++ [.shm m.base m.count m.desc (sink.onShm y.fx m.desc)] } := ⟨_, rfl⟩
  have hres : shmResolve t sink al y m now = readerDeliver t sink (readerAckDelivered z now) now := by
    unfold shmResolve
    dsimp only
    rw [if_pos hok, if_pos ht, hz]
    rfl
  have hsettle := readerSettle_ack { y.r with shmFail := 0, lapped := false, deliverUpto := m.base + m.count }
  have hack : SameAck y.r z.r := by
    rw [hz]
    exact ⟨hsettle.pending, hsettle.due, hsettle.asked, hsettle.high, hsettle.force⟩
  have hup : z.r.deliverUpto = m.base + m.count := by
    rw [hz]
    exact readerSettle_deliverUpto _
  have hslots : Slots t Front z.r := by
    rw [hz]
    exact readerSettle_slots hcur h.next_ok hst hp (h.not_held hp) fun hno => absurd ht hno
  have hiff := noted_timely_iff now hn hack hup (show m.base + m.count - 1 < m.base + m.count by omega)
  rw [hres]
  refine ⟨fun hd => ?_, fun hc => readerDeliver_timely ht now (hiff.mpr hc)⟩
  -- the ack of what follows is no earlier
  by_contra hno
  have hlate : ¬ Timely (readerAckDelivered z now).r now := fun hd' => hno (hiff.mp hd')
  rw [ackDelivered_timely_iff, not_or] at hlate
  obtain ⟨hask, hlate⟩ := hlate
  obtain ⟨hpend, hdue⟩ := not_or.mp hlate
  obtain ⟨w, hw⟩ : ∃ w : ReaderSide, w = readerAckDelivered z now := ⟨_, rfl⟩
  have hwz : w = { z with r := { z.r with ackForce := true } } := by
    rw [hw]
    unfold readerAckDelivered
    rw [if_neg hask]
    exact if_pos (Bool.not_eq_false _ ▸ hpend)
  rw [← hw] at hd
  rcases readerDeliver_cases sink ht w now with ⟨-, hs⟩ | ⟨v, heq, hv⟩
  · have h1 := hd.2.2
    rw [hs.due, hwz] at h1
    exact hdue h1
  · rw [heq, ackDelivered_timely_iff, hv.ack.asked, hv.ack.pending, hv.ack.due, hv.ack.high, hwz] at hd
    rcases hd with (hd | hd | hd) | hd | hd
    · exact hask (Or.inl hd)
    · exact hask (Or.inr (Or.inl hd))
    · -- the front is past the descriptor's end, so past what was received
      have hge : z.r.deliverUpto ≤ v.r.deliverUpto := by
        have hact : z.r.cur.active = true := by
          have := hv.head
          rw [hwz] at this
          exact this
        rw [hv.upto, hwz]
        refine Nat.le_trans ?_ (le_handedUpto _ _ _ _)
        show z.r.deliverUpto ≤ z.r.cur.base + z.r.cur.count
        rw [hslots.head hact]
        exact Nat.le_add_right _ _
      exact hask (Or.inr (Or.inr (Nat.le_trans hge hd)))
    · exact hpend hd
    · exact hdue hd

/-- An SHM-DATA that delivers. -/
theorem readerShm_timely_iff (ht : t.reliable) {m : ShmMsg}
    (h : Slots t Front x.r) (hh : Hands x (readerShm t sink al x m now)) :
    Timely (readerShm t sink al x m now).r now ↔
      ¬ HeldBack x.r m.ackReq now ∨ m.base + m.count ≤ x.r.receivedHigh := by
  have hq := noteAckReq_quiet t x m.ackReq
  unfold readerShm at hh ⊢
  by_cases hu : x.r.used = false ∨ m.count = 0
  · rw [if_pos hu] at hh
    exact absurd hh (not_hands_of_quiet (quiet_refl x))
  rw [if_neg hu] at hh ⊢
  dsimp only at hh ⊢
  have hpos : 0 < m.count := Nat.pos_of_ne_zero fun hc => hu (Or.inr hc)
  by_cases hp : (noteAckReq t x m.ackReq).r.parked = true
  · rw [if_pos hp] at hh
    exact absurd hh (not_hands_of_quiet (quiet_trans hq (quiet_stat _ _)))
  rw [if_neg hp] at hh ⊢
  have hp : x.r.parked = false := hq.1.parked.symm.trans (Bool.not_eq_true _ ▸ hp)
  -- the lane stands at the sample with an empty head
  have hresolve : ∀ y : ReaderSide, Slots t Front y.r → y.r.started = true → y.r.parked = false →
      y.r.cur.active = false → NotedAt x y (m.base + m.count - 1) m.ackReq →
      Hands x (shmResolve t sink al y m now) →
      (Timely (shmResolve t sink al y m now).r now ↔
        ¬ HeldBack x.r m.ackReq now ∨ m.base + m.count ≤ x.r.receivedHigh) := by
    intro y hy hst hpk hcur hn hhands
    by_cases hok : 0 < sink.onShm y.fx m.desc
    · exact shmResolve_timely_iff ht hy hst hpk hcur hpos hn hok
    · obtain ⟨es, hes, he⟩ := hhands
      exact absurd ⟨es, hn.fx ▸ hes, he⟩ (shmResolve_refused hok)
  have hstand : ∀ x' : ReaderSide, StandsAt t Front (fun _ _ _ => True) x x' m.base →
      NotedAt x x' (m.base + m.count - 1) m.ackReq →
      Hands x (shmResolve t sink al
        (if x'.r.rttProbe = true ∧ m.base ≤ x'.r.rttProbeSeq ∧ x'.r.rttProbeSeq < m.base + m.count
          then endProbe { x' with r := { x'.r with
            started := true, cur := { x'.r.cur with active := false } } } now
          else { x' with r := { x'.r with
            started := true, cur := { x'.r.cur with active := false } } }) m now) →
      (Timely (shmResolve t sink al
        (if x'.r.rttProbe = true ∧ m.base ≤ x'.r.rttProbeSeq ∧ x'.r.rttProbeSeq < m.base + m.count
          then endProbe { x' with r := { x'.r with
            started := true, cur := { x'.r.cur with active := false } } } now
          else { x' with r := { x'.r with
            started := true, cur := { x'.r.cur with active := false } } }) m now).r now ↔
        ¬ HeldBack x.r m.ackReq now ∨ m.base + m.count ≤ x.r.receivedHigh) := by
    intro x' hat hn
    have hx' : x'.r.parked = false := hat.parked.trans hp
    have hempty := hat.grows.slots.clearHead hx'
    split
    next =>
      refine hresolve _ ?_ rfl hx' rfl ⟨hn.fx, hn.next, hn.pending, hn.due, hn.asked, hn.high⟩
      exact hempty.congr ⟨rfl, rfl, rfl, rfl, rfl, rfl, rfl⟩
    next =>
      exact hresolve _ hempty rfl hx' rfl ⟨hn.fx, hn.next, hn.pending, hn.due, hn.asked, hn.high⟩
  rcases readerOrder_slots (D := fun _ _ _ => True) m.base (m.base + m.count - 1) m.ackReq h with
    ⟨x', heq, hq', -⟩ | ⟨x', heq, hq', -⟩ | ⟨x', heq, -, -, -, -, hn, hat⟩ | ⟨x', heq, -, -, hn, hat⟩
  · rw [heq] at hh
    exact absurd hh (not_hands_of_quiet (quiet_trans hq' (ackOld_quiet _)))
  · rw [heq] at hh
    exact absurd hh (not_hands_of_quiet hq')
  · rw [heq] at hh ⊢
    have hn' := hn ht
    have hdone := hstand { x' with r := { x'.r with cur := { x'.r.cur with active := false } } } hat
      ⟨hn'.fx, hn'.next, hn'.pending, hn'.due, hn'.asked, hn'.high⟩ hh
    exact hdone
  · rw [heq] at hh ⊢
    exact hstand x' hat (hn ht) hh

/-! ## Heartbeats and resumes -/

/-- A floor that moved leaves at most one sample in the slots. -/
theorem readerMoveTo_one (r : ReaderProxy) (upto : Nat) (h : (readerMoveTo r upto).cur.active = true) :
    (readerMoveTo r upto).next.active = false := by
  unfold readerMoveTo readerSettle at h ⊢
  split at h
  next => exact Bool.noConfusion h
  next hact =>
    split at h
    next => exact Bool.noConfusion h
    next hge =>
      rw [if_neg hact, if_neg hge]
      split at h
      next heq =>
        rw [if_pos heq]
      next => exact Bool.noConfusion h

/-- A floor skip is a loss report, a move and a delivery. -/
theorem hbSkip_eq (t : Topic) (sink : Sink) (x : ReaderSide) (m : HbMsg) (now : Nat) :
    ∃ (z : ReaderSide) (r : ReaderProxy) (upto : Nat) (es : List Effect),
      hbSkip t sink x m now = readerDeliver t sink z now ∧ z.r = readerMoveTo r upto ∧
      r.parked = false ∧ z.fx = x.fx ++ es ∧ ∀ e ∈ es, e.handed = false := by
  unfold hbSkip
  dsimp only
  cases hd : t.directed with
  | true =>
    rw [if_pos rfl]
    exact ⟨_, _, _, [], rfl, rfl, rfl, (List.append_nil _).symm, fun _ he => absurd he List.not_mem_nil⟩
  | false =>
    rw [if_neg Bool.false_ne_true]
    refine ⟨_, _, _, _, rfl, rfl, rfl, rfl, fun e he => ?_⟩
    rw [List.mem_singleton.mp he]
    rfl

/-- A heartbeat that delivers is acked at once: nothing is left to park behind the sample its
floor uncovered. -/
theorem readerHb_timely (ht : t.reliable) {m : HbMsg}
    (hh : Hands x (readerHb t sink x m now)) : Timely (readerHb t sink x m now).r now := by
  unfold readerHb at hh ⊢
  by_cases hu : x.r.used = false ∨ ¬ t.reliable
  · rw [if_pos hu] at hh
    exact absurd hh (not_hands_of_quiet (quiet_refl x))
  rw [if_neg hu] at hh ⊢
  dsimp only at hh ⊢
  by_cases hp : (if hbSkips x.r m.first then hbSkip t sink x m now else x).r.parked = true
  · rw [if_pos hp] at hh
    by_cases hs : hbSkips x.r m.first
    · rw [if_pos hs] at hh hp
      obtain ⟨z, r, upto, es, heq, hz, hrp, hfx, hes⟩ := hbSkip_eq t sink x m now
      rw [heq] at hh hp
      have hhz := hands_of_suffix hfx hes (readerDeliver_ext t sink z now) hh
      rcases readerDeliver_cases sink ht z now with ⟨hno, -⟩ | ⟨y, hdel, hd⟩
      · exact absurd hhz hno
      · have hnext : z.r.next.active = false := by
          have hact := hd.head
          rw [hz] at hact ⊢
          exact readerMoveTo_one r upto hact
        rw [hdel, (readerAckDelivered_quiet y now).1.parked, hd.parked hnext, hz, readerMoveTo_parked,
          hrp] at hp
        exact Bool.noConfusion hp
    · rw [if_neg hs] at hh
      exact absurd hh (not_hands_of_quiet (quiet_refl x))
  · rw [if_neg hp]
    exact ackNow_timely _ true now

/-- A resume that delivers is acked at once. -/
theorem deliverParked_timely (h : Slots t Front x.r)
    (hh : Hands x (deliverParked t sink x)) : Timely (deliverParked t sink x).r 0 := by
  unfold deliverParked at hh ⊢
  by_cases hnp : x.r.used = false ∨ x.r.parked = false
  · rw [if_pos hnp] at hh
    exact absurd hh (not_hands_of_quiet (quiet_refl x))
  rw [if_neg hnp] at hh ⊢
  have hp : x.r.parked = true := Bool.not_eq_false _ ▸ fun hc => hnp (Or.inr hc)
  have ht := h.reliable_of_parked hp
  have hcall : ∀ ok : Int, ¬ 0 < ok → ∀ e ∈ [Effect.shm x.r.cur.base x.r.cur.count
      (x.r.cur.buf.take shmDescBytes) ok], e.handed = false := by
    intro ok hok e he
    rw [List.mem_singleton.mp he]
    exact decide_eq_false hok
  by_cases hps : x.r.parkedShm = true
  · rw [if_pos hps] at hh ⊢
    dsimp only at hh ⊢
    by_cases hz : sink.onShm x.fx (x.r.cur.buf.take shmDescBytes) = 0
    · rw [if_pos hz, hz] at hh
      refine absurd hh (not_hands_of [.shm x.r.cur.base x.r.cur.count
        (x.r.cur.buf.take shmDescBytes) 0, .wake] ?_ fun e he => ?_)
      · rw [readerAckNow_fx]
        exact List.append_assoc _ _ _
      · simp only [List.mem_cons, List.not_mem_nil, or_false] at he
        rcases he with rfl | rfl <;> rfl
    · rw [if_neg hz] at hh ⊢
      by_cases hok : 0 < sink.onShm x.fx (x.r.cur.buf.take shmDescBytes)
      · rw [if_pos hok, if_pos ht]
        exact readerDeliver_timely ht 0 (ackNow_timely _ false 0)
      · rw [if_neg hok] at hh
        exact absurd hh (not_hands_of _ rfl (hcall _ hok))
  · rw [if_neg hps] at hh ⊢
    rcases readerDeliver_cases sink ht { x with r := { x.r with parked := false } } 0 with
      ⟨hno, -⟩ | ⟨y, heq, -⟩
    · exact absurd hh hno
    · rw [heq, ackDelivered_timely_iff]
      exact Or.inl (Or.inr (Or.inl rfl))

/-! ## Every delivery of every run -/

/-- In every run of a reliable lane, an event that delivers in order leaves the cumulative ack
armed within `RANT_ACK_DELAY_US` of its clock exactly when it is on time: unless a later ack is
armed, nobody asked for one, and nothing was received past what is delivered. -/
theorem ack_timely_iff (t : Topic) (ht : t.reliable) (es : List ReaderEvent) (e : ReaderEvent)
    (hh : Hands (readerRun t es).side (readerStep t (readerRun t es) e).side) :
    Timely (readerStep t (readerRun t es) e).side.r e.clock ↔ OnTime t (readerRun t es) e := by
  obtain ⟨l, hl⟩ : ∃ l, l = readerRun t es := ⟨_, rfl⟩
  have hslots : Placed t Front l.side.r := by
    rw [hl]
    exact readerRun_slots front_fitStable (fun l e _ => front_puts l e) (fun hu => Bool.noConfusion hu)
  rw [← hl] at hh ⊢
  have hquiet : ∀ {x : ReaderSide} {P : Prop}, Quiet l.side x → Hands l.side x → P :=
    fun hq hh' => absurd hh' (not_hands_of_quiet hq)
  have hfx : ∀ {x : ReaderSide} {P : Prop}, x.fx = l.side.fx → Hands l.side x → P :=
    fun hx hh' => absurd hh' (not_hands_of_fx hx)
  have hused : ∀ {P : Prop}, ¬ l.side.r.used = true → (l.side.r.used = false → P) → P :=
    fun hu h => h (Bool.not_eq_true _ ▸ hu)
  cases e with
  | data sink al m now =>
    by_cases hu : l.side.r.used = true
    · exact readerData_timely_iff ht (hslots hu) hh
    · exact hused hu fun hu' => hquiet (readerData_unused hu') hh
  | shm sink al m now =>
    by_cases hu : l.side.r.used = true
    · exact readerShm_timely_iff ht (hslots hu) hh
    · exact hused hu fun hu' => hquiet (readerShm_unused hu') hh
  | hb sink m now => exact ⟨fun _ => trivial, fun _ => readerHb_timely ht hh⟩
  | poll dormant cap now => exact hquiet (readerEmit_quiet t _ _ _ _) hh
  | retry sink =>
    by_cases hu : l.side.r.used = true
    · exact ⟨fun _ => trivial, fun _ => deliverParked_timely (hslots hu) hh⟩
    · exact hused hu fun hu' => hquiet (deliverParked_unused hu') hh
  | matched epoch =>
    obtain ⟨es', hes, hsil⟩ := readerMatch_fx t epoch l.side
    exact absurd hh (not_hands_of _ hes fun e he => handed_silent (hsil e he))
  | unmatched => exact hfx rfl hh
  | released =>
    have hsame : (if l.side.r.used = true then l
        else { l with side := { l.side with r := {} } }).side.fx = l.side.fx := by
      split <;> rfl
    exact hfx hsame hh
  | resumed => exact hquiet (readerResume_quiet t l.side) hh
  | setFrag peerFrag => exact hfx rfl hh
  | measured rtt => exact hfx rfl hh

/-- The loss of a last message: a heartbeat claims seqno 1, the backstop asks for it, and its
resend is delivered half a millisecond later. -/
def tailLoss : List ReaderEvent :=
  [.matched 1, .setFrag 1350, someData 0 0 1 2 2 7, .poll false 1390 1010,
    .hb {} { first := 0, last := 1, count := 0 } 2000, .poll false 1390 2000]

/-- The resend of the last message. -/
def tailResend : ReaderEvent :=
  .data {} {} { seqno := 1, frag := 0, count := 1, sampleLen := 1, payload := [8], ackReq := false } 2500

/-- The resend is delivered in order at 2.5 ms, and its ack is due with the backstop, 50 ms
after the request. -/
theorem tail_ack_late : ∃ (es : List ReaderEvent) (e : ReaderEvent),
    heardTopic.reliable ∧
    Hands (readerRun heardTopic es).side (readerStep heardTopic (readerRun heardTopic es) e).side ∧
    e.clock + ackDelayUs < (readerStep heardTopic (readerRun heardTopic es) e).side.r.ackDueUs ∧
    ¬ Timely (readerStep heardTopic (readerRun heardTopic es) e).side.r e.clock := by
  refine ⟨tailLoss, tailResend, rfl, ⟨[.message 1 1 [8] false], by decide, _,
    List.mem_singleton.mpr rfl, rfl⟩, by decide, ?_⟩
  rintro ⟨-, -, hdue⟩
  exact absurd hdue (by decide)

/-- The first delivery of a lane finds no ack armed. -/
theorem ack_timely_iff_first :
    Timely (readerStep heardTopic (readerRun heardTopic [.matched 1, .setFrag 1350, .poll false 1390 5])
      (someData 0 0 1 2 2 7)).side.r 10 := by
  have h := (ack_timely_iff heardTopic rfl [.matched 1, .setFrag 1350, .poll false 1390 5]
    (someData 0 0 1 2 2 7) ⟨[.message 0 1 [7, 7] false, .arm 1010], by decide, _, List.mem_cons_self, rfl⟩).mpr
  exact h (Or.inl fun hb => absurd hb.pending (by decide))

end Rant.Transport
