import Rant.Transport.ReaderStep
import Rant.Lib.Run
/-!
# A reader lane under any input

A reader lane and everything that may happen to it: a DATA, SHM-DATA or heartbeat submessage
with arbitrary fields, a poll, a resume of its parked sample, a match or unmatch, a resumed
peer, another fragment size. No writer is behind the submessages, so a run is any sequence of
datagrams a hostile peer may send.

`Slots A` is what such a run keeps of the two reassembly slots: where they stand, what may be
parked, and `A`, a property of an assembly that fitting its buffers keeps. `Grows` adds what
is said of every sample handed up. Each reader function keeps both; the property `A` is left
to the result that wants it.
-/

namespace Rant.Transport

open Rant.Lib
open Rant.Lib.Fragment (writeAt)

/-! ## The lane and its events -/

/-- A reader lane, and the fragment size of its peer (`peer_frag`). -/
structure ReaderLane where
  side : ReaderSide
  peerFrag : Nat

/-- What may happen to a reader lane. -/
inductive ReaderEvent
  | data (sink : Sink) (al : Alloc) (m : DataMsg) (now : Nat)
  | shm (sink : Sink) (al : Alloc) (m : ShmMsg) (now : Nat)
  | hb (sink : Sink) (m : HbMsg) (now : Nat)
  /-- `i_rant_reader_emit`. -/
  | poll (dormant : Bool) (cap now : Nat)
  /-- The lane's turn in `i_rant_transport_deliver_parked`. -/
  | retry (sink : Sink)
  /-- `i_rant_reader_match`. -/
  | matched (epoch : Nat)
  /-- `i_rant_reader_unmatch`. -/
  | unmatched
  /-- `i_rant_lane_release`: an unmatched lane's record is freed with its buffers. -/
  | released
  /-- The lane's part of `i_rant_transport_peer_resume`. -/
  | resumed
  /-- `i_rant_transport_peer_set_frag`. -/
  | setFrag (peerFrag : Nat)
  /-- The peer's round trip was measured on another lane. -/
  | measured (rtt : PeerRtt)

/-- `i_rant_reader_unmatch` on a lane record. The caller counts it. -/
def readerUnmatch (r : ReaderProxy) : ReaderProxy :=
  { r with used := false, cur := { r.cur with active := false }
           next := { r.next with active := false } }

/-- The lane's part of `i_rant_transport_peer_resume`: its position is reported again. -/
def readerResume (t : Topic) (x : ReaderSide) : ReaderSide :=
  if t.reliable ∧ x.r.used then
    ({ x with r := { x.r with ackPending := true, ackDueUs := 0, ackForce := true } }).emit .wake
  else x

/-- One event. -/
def readerStep (t : Topic) (l : ReaderLane) : ReaderEvent → ReaderLane
  | .data sink al m now => { l with side := readerData t l.peerFrag sink al l.side m now }
  | .shm sink al m now => { l with side := readerShm t sink al l.side m now }
  | .hb sink m now => { l with side := readerHb t sink l.side m now }
  | .poll dormant cap now => { l with side := (readerEmit t l.side dormant cap now).1 }
  | .retry sink => { l with side := deliverParked t sink l.side }
  | .matched epoch => { l with side := readerMatch t epoch l.side }
  | .unmatched => { l with side := { l.side with r := readerUnmatch l.side.r } }
  | .released => if l.side.r.used then l else { l with side := { l.side with r := {} } }
  | .resumed => { l with side := readerResume t l.side }
  | .setFrag peerFrag => { l with peerFrag := peerFrag }
  | .measured rtt => { l with side := { l.side with rtt := rtt } }

/-- A lane record before its first match. -/
def freshLane : ReaderLane where
  side := { stats := {}, r := {}, rtt := {}, fx := [] }
  peerFrag := 0

/-- The lane any events lead to. -/
def readerRun (t : Topic) (es : List ReaderEvent) : ReaderLane := run (readerStep t) freshLane es

/-! ## The slots -/

/-- Fitting its buffers keeps a property of an assembly. -/
def FitStable (A : Assembly → Prop) : Prop :=
  ∀ (al : Alloc) (a : Assembly) (len count : Nat), A a → A (asmFit al a len count).1

/-- Where the slots of a matched lane stand: the head at `deliver_upto`, the sample held
ahead past it, and only a complete head or a descriptor of the sample at `deliver_upto`
parked. A lane without a position holds nothing, a best effort one holds nothing ahead. -/
structure Slots (t : Topic) (A : Assembly → Prop) (r : ReaderProxy) : Prop where
  head : r.cur.active = true → r.cur.base = r.deliverUpto
  ahead : r.next.active = true → r.deliverUpto < r.next.base
  cur_ok : r.cur.active = true → A r.cur
  next_ok : r.next.active = true → A r.next
  parked_shm : r.parkedShm = true →
    r.parked = true ∧ r.cur.active = false ∧ r.cur.base = r.deliverUpto
  parked_inline : r.parked = true → r.parkedShm = false →
    r.cur.active = true ∧ r.cur.low = r.cur.count
  idle : r.started = false →
    r.cur.active = false ∧ r.next.active = false ∧ r.parked = false
  effort : ¬ t.reliable → r.next.active = false ∧ r.parked = false

/-- What is said of a sample the sink was called with. -/
def Says (D : Nat → Nat → Bytes → Prop) : Effect → Prop
  | .message base count bytes _ => D base count bytes
  | _ => True

/-- A step after which the slots stand, and whose sink calls are all as said. -/
structure Grows (t : Topic) (A : Assembly → Prop) (D : Nat → Nat → Bytes → Prop)
    (x x' : ReaderSide) : Prop where
  slots : Slots t A x'.r
  said : ∃ es, x'.fx = x.fx ++ es ∧ ∀ e ∈ es, Says D e

variable {t : Topic} {sink : Sink} {A : Assembly → Prop} {D : Nat → Nat → Bytes → Prop}

variable {r : ReaderProxy}

theorem Slots.congr {r' : ReaderProxy} (h : Slots t A r) (hs : SameCore r r') : Slots t A r' := by
  obtain ⟨h1, h2, h3, h4, h5, h6, -⟩ := hs
  obtain ⟨hh, ha, hc, hn, hps, hpi, hi, he⟩ := h
  refine ⟨?_, ?_, ?_, ?_, ?_, ?_, ?_, ?_⟩
  · rw [h1, h2]; exact hh
  · rw [h1, h3]; exact ha
  · rw [h2]; exact hc
  · rw [h3]; exact hn
  · rw [h1, h2, h5, h6]; exact hps
  · rw [h2, h5, h6]; exact hpi
  · rw [h2, h3, h4, h5]; exact hi
  · rw [h3, h5]; exact he

variable {A' : Assembly → Prop}

theorem Slots.mono (h : Slots t A r) (hsub : ∀ a, A a → A' a) : Slots t A' r :=
  ⟨h.head, h.ahead, fun ha => hsub _ (h.cur_ok ha), fun ha => hsub _ (h.next_ok ha),
    h.parked_shm, h.parked_inline, h.idle, h.effort⟩

/-- A lane that is not parked holds no descriptor. -/
theorem Slots.not_held (h : Slots t A r) (hp : r.parked = false) :
    r.parkedShm = false := by
  rw [Bool.eq_false_iff]
  intro hs
  rw [(h.parked_shm hs).1] at hp
  exact Bool.noConfusion hp

/-- A parked lane has a position. -/
theorem Slots.started_of_parked (h : Slots t A r) (hp : r.parked = true) :
    r.started = true := by
  rw [← Bool.not_eq_false]
  intro hst
  rw [(h.idle hst).2.2] at hp
  exact Bool.noConfusion hp

/-- A parked lane is a reliable one. -/
theorem Slots.reliable_of_parked (h : Slots t A r) (hp : r.parked = true) :
    t.reliable := by
  by_contra ht
  rw [(h.effort ht).2] at hp
  exact Bool.noConfusion hp

/-- A scheduler effect says nothing. -/
theorem says_silent {e : Effect} (h : Silent e) : Says D e := by
  cases e with
  | message _ _ _ _ => exact h.elim
  | _ => trivial

variable {x : ReaderSide}

theorem grows_refl (h : Slots t A x.r) : Grows t A D x x :=
  ⟨h, [], (List.append_nil _).symm, fun _ he => absurd he List.not_mem_nil⟩

variable {y z : ReaderSide}

theorem grows_trans (h : Grows t A D x y) (h' : Grows t A D y z) :
    Grows t A D x z := by
  obtain ⟨-, es, hfx, hes⟩ := h
  obtain ⟨hs, es', hfx', hes'⟩ := h'
  refine ⟨hs, es ++ es', by rw [hfx', hfx, List.append_assoc], ?_⟩
  intro e he
  rcases List.mem_append.mp he with he | he
  · exact hes e he
  · exact hes' e he

/-- A quiet step moves no slot and calls no sink. -/
theorem grows_of_quiet {x' : ReaderSide} (h : Slots t A x.r) (hq : Quiet x x') :
    Grows t A D x x' := by
  obtain ⟨hr, es, hfx, hes⟩ := hq
  exact ⟨h.congr hr, es, hfx, fun e he => says_silent (hes e he)⟩

theorem Grows.quiet (h : Grows t A D x y) (hq : Quiet y z) :
    Grows t A D x z := grows_trans h (grows_of_quiet h.slots hq)

/-- A step that changes the slots and makes one call or none. -/
theorem grows_of_emit (x' : ReaderSide) (es : List Effect) (hfx : x'.fx = x.fx ++ es)
    (h : Slots t A x'.r) (hes : ∀ e ∈ es, Says D e) : Grows t A D x x' := ⟨h, es, hfx, hes⟩

/-! ## Moving on -/

/-- Once `deliver_upto` moved past the head, settling puts the slots in place. -/
theorem readerSettle_slots (hcur : r.cur.active = false)
    (hnext : r.next.active = true → A r.next) (hst : r.started = true) (hp : r.parked = false)
    (hs : r.parkedShm = false) (heff : ¬ t.reliable → r.next.active = false) :
    Slots t A (readerSettle r) := by
  have hno : ∀ {P : Prop}, r.cur.active = true → P := by
    intro P h
    exact Bool.noConfusion (hcur.symm.trans h)
  have hpk : ∀ {P : Prop}, r.parked = true → P := by
    intro P h
    exact Bool.noConfusion (hp.symm.trans h)
  have hsh : ∀ {P : Prop}, r.parkedShm = true → P := by
    intro P h
    exact Bool.noConfusion (hs.symm.trans h)
  have hid : ∀ {P : Prop}, r.started = false → P := by
    intro P h
    exact Bool.noConfusion (h.symm.trans hst)
  unfold readerSettle
  split
  next h =>
    exact ⟨hno, fun ha => Bool.noConfusion (h.symm.trans ha), hno, hnext, hsh, fun h' => hpk h',
      hid, fun _ => ⟨h, hp⟩⟩
  split
  next =>
    -- the floor passed the sample held ahead
    exact ⟨hno, fun ha => Bool.noConfusion ha, hno, fun ha => Bool.noConfusion ha, hsh,
      fun h' => hpk h', hid, fun _ => ⟨rfl, hp⟩⟩
  next hge =>
    split
    next heq =>
      -- the sample held ahead is the head now
      exact ⟨fun _ => heq.1, fun ha => Bool.noConfusion ha, hnext,
        fun ha => Bool.noConfusion ha, hsh, fun h' => hpk h', hid, fun _ => ⟨rfl, hp⟩⟩
    next hne =>
      refine ⟨hno, fun _ => ?_, hno, hnext, hsh, fun h' => hpk h', hid,
        fun ht => ⟨heff ht, hp⟩⟩
      have : r.next.base ≠ r.deliverUpto := fun he => hne ⟨he, hcur⟩
      omega

theorem readerMoveTo_slots (upto : Nat) (h : Slots t A r)
    (hst : r.started = true) (hp : r.parked = false) (hs : r.parkedShm = false) :
    Slots t A (readerMoveTo r upto) :=
  readerSettle_slots rfl h.next_ok hst hp hs fun ht => (h.effort ht).1

/-- What an assembly with the property is worth when it is complete. -/
def Handed (A : Assembly → Prop) (D : Nat → Nat → Bytes → Prop) : Prop :=
  ∀ a, A a → a.low = a.count → D a.base a.count (a.buf.take a.len)

/-- The delivery loop hands up complete heads and parks a refused one. -/
theorem deliverLoop_grows (sink : Sink) (hD : Handed A D) : ∀ (n : Nat) (x : ReaderSide) (d : Bool),
    Slots t A x.r → x.r.started = true → x.r.parked = false →
    Grows t A D x (deliverLoop t sink n x d).1
  | 0, x, d, h, _, _ => grows_refl h
  | n + 1, x, d, h, hst, hp => by
    have hs := h.not_held hp
    unfold deliverLoop
    split
    next hhead =>
      have hsay : ∀ refused, ∀ e ∈ [Effect.message x.r.cur.base x.r.cur.count
          (x.r.cur.buf.take x.r.cur.len) refused], Says D e := by
        intro refused e he
        rw [List.mem_singleton.mp he]
        exact hD _ (h.cur_ok hhead.1) hhead.2
      dsimp only
      split
      next href =>
        refine grows_of_emit _ _ rfl ⟨h.head, h.ahead, h.cur_ok, h.next_ok, ?_, fun _ _ => hhead, ?_, ?_⟩
          (hsay _)
        · intro hs'
          exact Bool.noConfusion (hs.symm.trans hs')
        · intro hst'
          exact Bool.noConfusion (hst'.symm.trans hst)
        · intro ht
          exact absurd href.2 ht
      next =>
        have hmove : Slots t A (readerMoveTo { x.r with lapped := false }
            (x.r.cur.base + x.r.cur.count)) :=
          readerMoveTo_slots _ ⟨h.head, h.ahead, h.cur_ok, h.next_ok, h.parked_shm,
            h.parked_inline, h.idle, h.effort⟩ hst hp hs
        refine grows_trans (grows_of_emit _ _ rfl hmove (hsay _)) (deliverLoop_grows sink hD n _ true hmove ?_ ?_)
        · exact (readerMoveTo_started _ _).trans hst
        · exact (readerMoveTo_parked _ _).trans hp
    next => exact grows_refl h

theorem readerDeliver_grows (now : Nat) (hD : Handed A D) (h : Slots t A x.r)
    (hst : x.r.started = true) (hp : x.r.parked = false) :
    Grows t A D x (readerDeliver t sink x now) := by
  have hloop := deliverLoop_grows sink hD 2 x false h hst hp
  unfold readerDeliver
  split
  next x' d hx' =>
    rw [hx'] at hloop
    split
    next => exact hloop.quiet (readerAckDelivered_quiet x' now)
    next => exact hloop

/-! ## Arrivals -/

/-- A lane that stands at `base`, where an arrival's sample starts. -/
structure StandsAt (t : Topic) (A : Assembly → Prop) (D : Nat → Nat → Bytes → Prop)
    (x x' : ReaderSide) (base : Nat) : Prop where
  grows : Grows t A D x { x' with r := { x'.r with started := true } }
  upto : x'.r.deliverUpto = base
  parked : x'.r.parked = x.r.parked

/-- What the arrival of a sample at the head of a reliable lane leaves of its ack: a request
for one is noted and nothing is armed. -/
structure NotedAt (x x' : ReaderSide) (top : Nat) (ackReq : Bool) : Prop where
  fx : x'.fx = x.fx
  next : x'.r.next = x.r.next
  pending : x'.r.ackPending = x.r.ackPending
  due : x'.r.ackDueUs = x.r.ackDueUs
  asked : x'.r.ackReq = (x.r.ackReq || ackReq)
  high : x'.r.receivedHigh = max x.r.receivedHigh top

/-- The note of an ack request and the arrival's top, on an otherwise unchanged lane. -/
theorem notedAt_of {x' : ReaderSide} {top : Nat} {ackReq : Bool} (ht : t.reliable)
    (hfx : x'.fx = x.fx) (hnext : x'.r.next = (noteAckReq t x ackReq).r.next)
    (hpending : x'.r.ackPending = (noteAckReq t x ackReq).r.ackPending)
    (hdue : x'.r.ackDueUs = (noteAckReq t x ackReq).r.ackDueUs)
    (hasked : x'.r.ackReq = (noteAckReq t x ackReq).r.ackReq)
    (hhigh : x'.r.receivedHigh = if (noteAckReq t x ackReq).r.receivedHigh < top then top
      else (noteAckReq t x ackReq).r.receivedHigh) : NotedAt x x' top ackReq := by
  have hmax : (if x.r.receivedHigh < top then top else x.r.receivedHigh) = max x.r.receivedHigh top := by
    split <;> omega
  cases ackReq with
  | true =>
    have hnote : noteAckReq t x true = { x with r := { x.r with ackReq := true } } := if_pos ⟨ht, rfl⟩
    rw [hnote] at hnext hpending hdue hasked hhigh
    exact ⟨hfx, hnext, hpending, hdue, hasked.trans (Bool.or_true _).symm, hhigh.trans hmax⟩
  | false =>
    have hnote : noteAckReq t x false = x := if_neg fun hc => Bool.noConfusion hc.2
    rw [hnote] at hnext hpending hdue hasked hhigh
    exact ⟨hfx, hnext, hpending, hdue, hasked.trans (Bool.or_false _).symm, hhigh.trans hmax⟩

/-- What `i_rant_reader_order_arrival` answers: an old arrival changes nothing, a future one
is a gap of a reliable lane with a position, and any other leaves the lane standing at it. -/
theorem readerOrder_slots (base top : Nat) (ackReq : Bool) (h : Slots t A x.r) :
    (∃ x', readerOrderArrival t (noteAckReq t x ackReq) base top = (x', .old) ∧ Quiet x x' ∧
      base < x.r.deliverUpto) ∨
    (∃ x', readerOrderArrival t (noteAckReq t x ackReq) base top = (x', .gap) ∧ Quiet x x' ∧
      t.reliable ∧ x.r.started = true ∧ x.r.deliverUpto < base) ∨
    (∃ x', readerOrderArrival t (noteAckReq t x ackReq) base top = (x', .adopted) ∧
      x.r.deliverUpto < base ∧ ¬ (t.reliable ∧ x.r.started = true) ∧ x.r.parked = false ∧
      x'.r.cur = x.r.cur ∧ (t.reliable → NotedAt x x' top ackReq) ∧
      StandsAt t A D x { x' with r := { x'.r with
        cur := { x'.r.cur with active := false } } } base) ∨
    (∃ x', readerOrderArrival t (noteAckReq t x ackReq) base top = (x', .inorder) ∧
      x.r.deliverUpto = base ∧ Quiet x x' ∧ (t.reliable → NotedAt x x' top ackReq) ∧
      StandsAt t A D x x' base) := by
  have hq := noteAckReq_quiet t x ackReq
  have hn := h.congr hq.1
  have hfx : (noteAckReq t x ackReq).fx = x.fx := by
    unfold noteAckReq
    split <;> rfl
  unfold readerOrderArrival
  by_cases hold : base < (noteAckReq t x ackReq).r.deliverUpto
  · rw [if_pos hold]
    exact Or.inl ⟨_, rfl, hq, hq.1.deliverUpto ▸ hold⟩
  rw [if_neg hold]
  dsimp only
  by_cases hgt : (noteAckReq t x ackReq).r.deliverUpto < base
  · rw [if_pos hgt]
    by_cases hst : t.reliable ∧ (noteAckReq t x ackReq).r.started = true
    · rw [if_pos hst]
      refine Or.inr (Or.inl ⟨_, rfl, quiet_trans hq (quiet_trans ?_ (armGap_quiet _)), hst.1, ?_, ?_⟩)
      · exact quiet_of_fx_eq ⟨rfl, rfl, rfl, rfl, rfl, rfl, rfl⟩ rfl
      · rw [← hq.1.started]
        exact hst.2
      · rw [← hq.1.deliverUpto]
        exact hgt
    · -- adopted: either the lane had no position or it is a best effort one
      rw [if_neg hst]
      have hfree : (noteAckReq t x ackReq).r.next.active = false ∧
          (noteAckReq t x ackReq).r.parked = false := by
        by_cases ht : t.reliable
        · exact (hn.idle (Bool.eq_false_iff.mpr fun hs => hst ⟨ht, hs⟩)).2
        · exact hn.effort ht
      refine Or.inr (Or.inr (Or.inl ⟨_, rfl, hq.1.deliverUpto ▸ hgt, hq.1.started ▸ hst,
        hq.1.parked ▸ hfree.2, ?_, fun ht => ?_, ⟨⟨?_, ?_⟩, rfl, ?_⟩⟩))
      · dsimp only
        split <;> exact hq.1.cur
      · -- a reliable lane that adopts had no position, so it reports no loss
        have hno : ¬ ((noteAckReq t x ackReq).r.started = true ∧ t.directed = false) :=
          fun hc => hst ⟨ht, hc.1⟩
        rw [if_neg hno]
        exact notedAt_of ht hfx rfl rfl rfl rfl rfl
      · have hno := hn.not_held hfree.2
        refine ⟨fun ha => Bool.noConfusion ha, ?_, fun ha => Bool.noConfusion ha, ?_, ?_, ?_, ?_, ?_⟩
        all_goals dsimp only
        · intro ha
          split at ha <;> exact Bool.noConfusion (hfree.1.symm.trans ha)
        · intro ha
          split at ha <;> exact Bool.noConfusion (hfree.1.symm.trans ha)
        · intro hs
          split at hs <;> exact Bool.noConfusion (hno.symm.trans hs)
        · intro hp
          split at hp <;> exact Bool.noConfusion (hfree.2.symm.trans hp)
        · exact fun hs => Bool.noConfusion hs
        · intro _
          split <;> exact hfree
      · dsimp only
        split
        next =>
          refine ⟨[.lost (noteAckReq t x ackReq).r.deliverUpto
            (base - (noteAckReq t x ackReq).r.deliverUpto)], by rw [← hfx]; rfl, ?_⟩
          intro e he
          rw [List.mem_singleton.mp he]
          trivial
        next => exact ⟨[], by rw [List.append_nil]; exact hfx, fun _ he => absurd he List.not_mem_nil⟩
      · dsimp only
        split <;> exact hq.1.parked
  · rw [if_neg hgt]
    have hup : (noteAckReq t x ackReq).r.deliverUpto = base := by omega
    refine Or.inr (Or.inr (Or.inr ⟨_, rfl, hq.1.deliverUpto ▸ hup, quiet_trans hq ?_, fun ht => ?_,
      ⟨⟨?_, ?_⟩, hup, hq.1.parked⟩⟩))
    · exact quiet_of_fx_eq ⟨rfl, rfl, rfl, rfl, rfl, rfl, rfl⟩ rfl
    · exact notedAt_of ht hfx rfl rfl rfl rfl rfl
    · exact ⟨hn.head, hn.ahead, hn.cur_ok, hn.next_ok, hn.parked_shm, hn.parked_inline,
        fun hs => Bool.noConfusion hs, hn.effort⟩
    · exact ⟨[], by rw [List.append_nil]; exact hfx, fun _ he => absurd he List.not_mem_nil⟩

/-- An emptied head on a lane that is not parked. -/
theorem Slots.clearHead (h : Slots t A r) (hp : r.parked = false) :
    Slots t A { r with cur := { r.cur with active := false } } :=
  ⟨fun ha => Bool.noConfusion ha, h.ahead, fun ha => Bool.noConfusion ha, h.next_ok,
    fun hs => Bool.noConfusion ((h.not_held hp).symm.trans hs),
    fun hp' => Bool.noConfusion (hp.symm.trans hp'), fun hst => ⟨rfl, (h.idle hst).2⟩, h.effort⟩

/-! ## Shared memory descriptors -/

theorem shmFailed_grows {base count : Nat} (h : Slots t A x.r)
    (hst : x.r.started = true) (hp : x.r.parked = false) (hcur : x.r.cur.active = false) :
    Grows t A D x (shmFailed t x base count) := by
  have hs := h.not_held hp
  have hskip : ∀ fail, Slots t A (readerSettle { x.r with
      shmFail := fail, deliverUpto := base + count }) := fun fail =>
    readerSettle_slots hcur h.next_ok hst hp hs fun ht => (h.effort ht).1
  unfold shmFailed
  split
  next =>
    dsimp only
    split
    next =>
      refine (grows_of_emit { x with
        stats := { x.stats with msgsSkipped := x.stats.msgsSkipped + count }
        r := readerSettle { x.r with shmFail := 0, deliverUpto := base + count }
        fx := x.fx ++ [.lost base count] } _ rfl (hskip 0) ?_).quiet (readerAckNow_quiet _ true false)
      intro e he
      rw [List.mem_singleton.mp he]
      trivial
    next =>
      have hfail : Quiet x { x with r := { x.r with shmFail := x.r.shmFail + 1 } } :=
        quiet_of_fx_eq ⟨rfl, rfl, rfl, rfl, rfl, rfl, rfl⟩ rfl
      exact grows_of_quiet h (quiet_trans hfail (readerAckNow_quiet _ false false))
  next =>
    refine grows_of_emit _ [.wake] rfl (hskip x.r.shmFail) ?_
    intro e he
    rw [List.mem_singleton.mp he]
    trivial

variable {al : Alloc} {now : Nat}

/-- Resolving a descriptor keeps the slots, whether it is handed over or parks the lane. -/
theorem shmResolve_grows {m : ShmMsg} (hD : Handed A D) (h : Slots t A x.r)
    (hst : x.r.started = true) (hp : x.r.parked = false) (hcur : x.r.cur.active = false)
    (hbase : x.r.deliverUpto = m.base) :
    Grows t A D x (shmResolve t sink al x m now) := by
  have hs := h.not_held hp
  have hsay : ∀ ok, ∀ e ∈ [Effect.shm m.base m.count m.desc ok], Says D e := by
    intro ok e he
    rw [List.mem_singleton.mp he]
    trivial
  unfold shmResolve
  dsimp only
  by_cases hok : 0 < sink.onShm x.fx m.desc
  · -- delivered, then what was held ahead
    rw [if_pos hok]
    have hdel : Grows t A D x { x with
        r := readerSettle { x.r with shmFail := 0, lapped := false, deliverUpto := m.base + m.count }
        fx := x.fx ++ [.shm m.base m.count m.desc (sink.onShm x.fx m.desc)] } :=
      grows_of_emit _ _ rfl (readerSettle_slots hcur h.next_ok hst hp hs fun ht => (h.effort ht).1)
        (hsay _)
    have hst' : (readerSettle { x.r with
        shmFail := 0, lapped := false, deliverUpto := m.base + m.count }).started = true :=
      (readerSettle_started _).trans hst
    have hp' : (readerSettle { x.r with
        shmFail := 0, lapped := false, deliverUpto := m.base + m.count }).parked = false :=
      (readerSettle_parked _).trans hp
    split
    next =>
      have hq := readerAckDelivered_quiet { x with
        r := readerSettle { x.r with shmFail := 0, lapped := false, deliverUpto := m.base + m.count }
        fx := x.fx ++ [.shm m.base m.count m.desc (sink.onShm x.fx m.desc)] } now
      have hack := hdel.quiet hq
      exact grows_trans hack (readerDeliver_grows now hD hack.slots (hq.1.started.trans hst')
        (hq.1.parked.trans hp'))
    next => exact grows_trans hdel (readerDeliver_grows now hD hdel.slots hst' hp')
  · rw [if_neg hok]
    have hcall : Grows t A D x (x.emit (.shm m.base m.count m.desc (sink.onShm x.fx m.desc))) :=
      grows_of_emit _ _ rfl h (hsay _)
    by_cases hneg : sink.onShm x.fx m.desc < 0
    · rw [if_pos hneg]
      split
      next ht =>
        refine grows_of_emit _ _ rfl ?_ (hsay _)
        exact readerSettle_slots hcur h.next_ok hst hp hs fun ht => (h.effort ht).1
      next ht =>
        have ht : t.reliable := Decidable.not_not.mp ht
        have hspec := asmFit_spec al x.r.cur shmDescBytes 1
        split
        next a hfit =>
          rw [show asmFit al x.r.cur shmDescBytes 1 = (a, true) from hfit] at hspec
          have hno : ∀ {P : Prop}, a.active = true → P := by
            intro P ha
            exact Bool.noConfusion ((hspec.1.trans hcur).symm.trans ha)
          refine grows_of_emit _ _ rfl ⟨fun ha => hno ha, h.ahead, fun ha => hno ha, h.next_ok, ?_, ?_, ?_,
            fun hn => absurd ht hn⟩ (hsay _)
          · exact fun _ => ⟨rfl, hspec.1.trans hcur, hbase.symm⟩
          · exact fun _ hs' => Bool.noConfusion hs'
          · exact fun hst' => Bool.noConfusion (hst'.symm.trans hst)
        next a hfit =>
          rw [show asmFit al x.r.cur shmDescBytes 1 = (a, false) from hfit] at hspec
          have hfail : Grows t A D x { x.emit (.shm m.base m.count m.desc (sink.onShm x.fx m.desc)) with
              r := { x.r with cur := a } } := by
            have hca : a.active = false := hspec.1.trans hcur
            have hno : ∀ {P : Prop}, a.active = true → P := by
              intro P ha
              exact Bool.noConfusion (hca.symm.trans ha)
            refine grows_of_emit _ _ rfl ⟨fun ha => hno ha, h.ahead, fun ha => hno ha, h.next_ok, ?_, ?_, ?_,
              h.effort⟩ (hsay _)
            · exact fun hs' => Bool.noConfusion (hs.symm.trans hs')
            · exact fun hp' => Bool.noConfusion (hp.symm.trans hp')
            · exact fun hst' => Bool.noConfusion (hst'.symm.trans hst)
          exact grows_trans hfail (shmFailed_grows hfail.slots hst hp (hspec.1.trans hcur))
    · rw [if_neg hneg]
      exact grows_trans hcall (shmFailed_grows hcall.slots hst hp hcur)

/-- An SHM-DATA submessage with any fields. -/
theorem readerShm_grows {m : ShmMsg} (hD : Handed A D)
    (h : Slots t A x.r) : Grows t A D x (readerShm t sink al x m now) := by
  unfold readerShm
  split
  next => exact grows_refl h
  have hq := noteAckReq_quiet t x m.ackReq
  dsimp only
  split
  next => exact grows_of_quiet h (quiet_trans hq (quiet_stat _ _))
  next hp =>
    have hp : x.r.parked = false := hq.1.parked.symm.trans (Bool.not_eq_true _ ▸ hp)
    -- the lane stands at the sample with an empty head: the call of the sink follows
    have hresolve : ∀ {x' : ReaderSide}, StandsAt t A D x x' m.base →
        Grows t A D x (shmResolve t sink al
          (if x'.r.rttProbe = true ∧ m.base ≤ x'.r.rttProbeSeq ∧ x'.r.rttProbeSeq < m.base + m.count
            then endProbe { x' with r := { x'.r with
              started := true, cur := { x'.r.cur with active := false } } } now
            else { x' with r := { x'.r with
              started := true, cur := { x'.r.cur with active := false } } }) m now) := by
      intro x' hat
      have hx' : x'.r.parked = false := hat.parked.trans hp
      have hempty : Grows t A D x { x' with r := { x'.r with
          started := true, cur := { x'.r.cur with active := false } } } :=
        ⟨hat.grows.slots.clearHead hx', hat.grows.said⟩
      split
      next =>
        have hprobe := hempty.quiet (endProbe_quiet _ now)
        exact grows_trans hprobe (shmResolve_grows hD hprobe.slots rfl hx' rfl hat.upto)
      next => exact grows_trans hempty (shmResolve_grows hD hempty.slots rfl hx' rfl hat.upto)
    rcases readerOrder_slots (D := D) m.base (m.base + m.count - 1) m.ackReq h with
      ⟨x', heq, hq', -⟩ | ⟨x', heq, hq', -⟩ | ⟨x', heq, -, -, -, -, -, hat⟩ | ⟨x', heq, -, -, -, hat⟩
    · rw [heq]
      exact grows_of_quiet h (quiet_trans hq' (ackOld_quiet _))
    · rw [heq]
      exact grows_of_quiet h hq'
    · rw [heq]
      have hdone := hresolve hat
      exact hdone
    · rw [heq]
      exact hresolve hat

/-! ## The counters of fragments -/

/-- The counters of accepted and of duplicate fragments stand still. -/
def SameFrags (x x' : ReaderSide) : Prop :=
  x'.stats.fragsRecv = x.stats.fragsRecv ∧ x'.stats.fragsDup = x.stats.fragsDup

theorem sameFrags_refl (x : ReaderSide) : SameFrags x x := ⟨rfl, rfl⟩

theorem sameFrags_trans (h : SameFrags x y) (h' : SameFrags y z) :
    SameFrags x z := ⟨h'.1.trans h.1, h'.2.trans h.2⟩

theorem readerArm_frags (x : ReaderSide) (isHb : Bool) : SameFrags x (readerArm x isHb) := by
  unfold readerArm
  split
  next => exact sameFrags_refl x
  next => split <;> exact ⟨rfl, rfl⟩

theorem readerAckNow_frags (x : ReaderSide) (force isHb : Bool) :
    SameFrags x (readerAckNow x force isHb) := readerArm_frags x isHb

theorem readerAckDelivered_frags (x : ReaderSide) (now : Nat) :
    SameFrags x (readerAckDelivered x now) := by
  unfold readerAckDelivered
  split
  next => exact readerAckNow_frags x true false
  dsimp only
  split
  next => exact ⟨rfl, rfl⟩
  next => exact readerArm_frags { x with r := { x.r with ackForce := true } } false

theorem noteAckReq_frags (t : Topic) (x : ReaderSide) (ackReq : Bool) :
    SameFrags x (noteAckReq t x ackReq) := by
  unfold noteAckReq
  split <;> exact ⟨rfl, rfl⟩

theorem armGap_frags (x : ReaderSide) : SameFrags x (armGap x) := by
  unfold armGap
  split
  next => exact sameFrags_refl x
  split
  next => exact ⟨rfl, rfl⟩
  next => exact readerAckNow_frags x false false

theorem ackOld_frags (x : ReaderSide) : SameFrags x (ackOld x) := by
  unfold ackOld
  split
  next => exact readerAckNow_frags x true false
  next => exact sameFrags_refl x

theorem readerOrderArrival_frags (t : Topic) (x : ReaderSide) (base top : Nat) :
    SameFrags x (readerOrderArrival t x base top).1 := by
  unfold readerOrderArrival
  split
  next => exact sameFrags_refl x
  dsimp only
  split
  next =>
    split
    next => exact sameFrags_trans ⟨rfl, rfl⟩ (armGap_frags _)
    next =>
      dsimp only
      split <;> exact ⟨rfl, rfl⟩
  next => exact ⟨rfl, rfl⟩

theorem deliverLoop_frags (t : Topic) (sink : Sink) : ∀ (n : Nat) (x : ReaderSide) (d : Bool),
    SameFrags x (deliverLoop t sink n x d).1
  | 0, x, _ => sameFrags_refl x
  | n + 1, x, d => by
    unfold deliverLoop
    split
    next =>
      dsimp only
      split
      next => exact ⟨rfl, rfl⟩
      next => exact sameFrags_trans ⟨rfl, rfl⟩ (deliverLoop_frags t sink n _ true)
    next => exact sameFrags_refl x

theorem readerDeliver_frags (t : Topic) (sink : Sink) (x : ReaderSide) (now : Nat) :
    SameFrags x (readerDeliver t sink x now) := by
  have hloop := deliverLoop_frags t sink 2 x false
  unfold readerDeliver
  split
  next x' d hx' =>
    rw [hx'] at hloop
    split
    next => exact sameFrags_trans hloop (readerAckDelivered_frags x' now)
    next => exact hloop

theorem headTooBig_frags (t : Topic) (sink : Sink) (x : ReaderSide) (m : DataMsg) (now : Nat) :
    SameFrags x (headTooBig t sink x m now) := by
  unfold headTooBig
  dsimp only
  refine sameFrags_trans ?_ (readerDeliver_frags t sink _ now)
  split
  next =>
    exact readerAckNow_frags { x.emit (.tooBig m.base m.count m.sampleLen) with
      r := readerMoveTo x.r (m.base + m.count) } true false
  next => exact ⟨rfl, rfl⟩

/-! ## DATA -/

/-- The slot a DATA goes to and what stands there, `none` when it is dropped. An adopted
sample takes the head's place. -/
def offered (t : Topic) (peerFrag : Nat) (r : ReaderProxy) (m : DataMsg) : Option (Slot × Assembly) :=
  if r.used = false ∨ m.count = 0 ∨ m.count ≤ m.frag ∨ m.count * peerFrag < m.sampleLen
      ∨ m.base < r.deliverUpto then none
  else if r.deliverUpto < m.base then
    if t.reliable ∧ r.started then
      if r.next.active = false ∨ r.next.base = m.base then some (.next, r.next) else none
    else some (.cur, { r.cur with active := false })
  else if r.parked then none
  else some (.cur, r.cur)

/-- A lane ready for a fragment of `m` in slot `s`, where `a` stands. -/
structure Ready (t : Topic) (peerFrag : Nat) (A : Assembly → Prop) (D : Nat → Nat → Bytes → Prop)
    (x y : ReaderSide) (s : Slot) (a : Assembly) (m : DataMsg) : Prop where
  grows : Grows t A D x y
  slot : y.r.slot s = a
  started : y.r.started = true
  at_base : s.At y.r m.base
  base : a.active = true → a.base = m.base
  reliable : s = .next → t.reliable
  ahead : s = .next → Quiet x y
  noted : s = .cur → t.reliable → NotedAt x y m.seqno m.ackReq
  frags : SameFrags x y
  count_pos : 0 < m.count
  frag_lt : m.frag < m.count
  len_le : m.sampleLen ≤ m.count * peerFrag

/-- A DATA is dropped, which leaves the slots alone and accepts no fragment, or it goes to the
slot it is offered to. -/
theorem readerData_cases (F : Nat) (sink : Sink) (al : Alloc) (m : DataMsg) (now : Nat)
    (h : Slots t A x.r) :
    (offered t F x.r m = none ∧ Quiet x (readerData t F sink al x m now) ∧
      (readerData t F sink al x m now).stats.fragsRecv = x.stats.fragsRecv) ∨
    (∃ s a y, offered t F x.r m = some (s, a) ∧ Ready t F A D x y s a m ∧
      readerData t F sink al x m now = fitSlot t F sink al y s m now) := by
  have hq := noteAckReq_quiet t x m.ackReq
  have hfr := sameFrags_trans (noteAckReq_frags t x m.ackReq)
    (readerOrderArrival_frags t (noteAckReq t x m.ackReq) m.base m.seqno)
  unfold readerData offered
  dsimp only
  by_cases hu : x.r.used = false
  · rw [if_pos hu, if_pos (Or.inl hu)]
    exact Or.inl ⟨rfl, quiet_stat _ _, rfl⟩
  rw [if_neg hu]
  by_cases hbad : m.count = 0 ∨ m.count ≤ m.frag ∨ m.count * F < m.sampleLen
  · rw [if_pos hbad, if_pos (by tauto)]
    exact Or.inl ⟨rfl, quiet_stat _ _, rfl⟩
  rw [if_neg hbad]
  rcases readerOrder_slots (D := D) m.base m.seqno m.ackReq h with
    ⟨x', heq, hq', hup⟩ | ⟨x', heq, hq', ht, hst, hup⟩ | ⟨x', heq, hup, hnot, hp, hcur, hnoted, hat⟩ |
      ⟨x', heq, hup, hq', hnoted, hat⟩
  all_goals rw [heq] at hfr ⊢
  all_goals dsimp only
  · -- already seen
    rw [if_pos (by tauto)]
    refine Or.inl ⟨rfl, quiet_trans hq' (quiet_trans (quiet_stat _ _) (ackOld_quiet _)), ?_⟩
    exact (ackOld_frags _).1.trans hfr.1
  all_goals rw [if_neg (by
    rintro (h' | h' | h' | h' | h')
    · exact hu h'
    · exact hbad (Or.inl h')
    · exact hbad (Or.inr (Or.inl h'))
    · exact hbad (Or.inr (Or.inr h'))
    · omega)]
  · -- a future sample: the slot ahead when it is free or holds this one
    rw [if_pos hup, if_pos ⟨ht, hst⟩, hq'.1.next]
    by_cases hfree : x.r.next.active = false ∨ x.r.next.base = m.base
    · rw [if_pos hfree, if_pos hfree]
      have hsame : ({ x'.r with started := true } : ReaderProxy) = x'.r := by
        rw [← hq'.1.started.trans hst]
      refine Or.inr ⟨.next, x.r.next, x', rfl, ⟨grows_of_quiet h hq', hq'.1.next,
        hq'.1.started.trans hst, lt_of_eq_of_lt hq'.1.deliverUpto hup, ?_, fun _ => ht,
        fun _ => hq', fun hs => Slot.noConfusion hs, hfr, ?_, ?_, ?_⟩, ?_⟩
      · intro ha
        rcases hfree with hfree | hfree
        · exact Bool.noConfusion (hfree.symm.trans ha)
        · exact hfree
      all_goals try omega
      unfold fillSlot
      rw [hsame]
    · rw [if_neg hfree, if_neg hfree]
      exact Or.inl ⟨rfl, quiet_trans hq' (quiet_stat _ _), hfr.1⟩
  · -- adopted: the head is empty
    rw [if_pos hup, if_neg hnot]
    refine Or.inr ⟨.cur, { x.r.cur with active := false }, { x' with
      stats := { x'.stats with fragsAhead := x'.stats.fragsAhead + 1 }
      r := { x'.r with started := true, cur := { x'.r.cur with active := false } } }, rfl,
      ⟨?_, ?_, rfl, ⟨hat.upto, hat.parked.trans hp⟩, ?_, ?_, fun hs => Slot.noConfusion hs, ?_, hfr,
        ?_, ?_, ?_⟩, rfl⟩
    · exact ⟨hat.grows.slots, hat.grows.said⟩
    · show ({ x'.r.cur with active := false } : Assembly) = _
      rw [hcur]
    · exact fun ha => Bool.noConfusion ha
    · exact fun hs => Slot.noConfusion hs
    · intro _ ht
      have hn := hnoted ht
      exact ⟨hn.fx, hn.next, hn.pending, hn.due, hn.asked, hn.high⟩
    all_goals omega
  · rw [if_neg (by omega), hat.parked]
    by_cases hp : x.r.parked = true
    · rw [if_pos hp, if_pos hp]
      exact Or.inl ⟨rfl, quiet_trans hq' (quiet_stat _ _), hfr.1⟩
    rw [if_neg hp, if_neg hp]
    have hp : x.r.parked = false := Bool.not_eq_true _ ▸ hp
    refine Or.inr ⟨.cur, x.r.cur, { x' with r := { x'.r with started := true } }, rfl,
      ⟨hat.grows, hq'.1.cur, rfl, ⟨hat.upto, hat.parked.trans hp⟩, ?_, ?_,
        fun hs => Slot.noConfusion hs, ?_, hfr, ?_, ?_, ?_⟩, rfl⟩
    · exact fun ha => (h.head ha).trans hup
    · exact fun hs => Slot.noConfusion hs
    · intro _ ht
      have hn := hnoted ht
      exact ⟨hn.fx, hn.next, hn.pending, hn.due, hn.asked, hn.high⟩
    all_goals omega

/-! ## Accepting a fragment -/

/-- The slot of a fragment as it stands when the fragment is compared with it: taken by the
fragment's sample when it was free. -/
def asmOpen (a : Assembly) (m : DataMsg) : Assembly :=
  if a.active then a else asmStart a m.base m.count m.sampleLen

/-- Whether the slot takes the fragment: it fits the sample there and is not held already. -/
def Takes (a : Assembly) (m : DataMsg) : Prop :=
  m.count = (asmOpen a m).count ∧ (asmOpen a m).bitmap m.frag = false

/-- A step that accepted one new fragment, by the counters: `frags_recv` counts every
accepted fragment and `frags_dup` those already held. -/
def Took (x x' : ReaderSide) : Prop :=
  x'.stats.fragsRecv = x.stats.fragsRecv + 1 ∧ x'.stats.fragsDup = x.stats.fragsDup

theorem countFrag_frags (x : ReaderSide) (m : DataMsg) (newFrag : Bool) (now : Nat) :
    (countFrag x m newFrag now).stats.fragsRecv = x.stats.fragsRecv + 1 ∧
      (countFrag x m newFrag now).stats.fragsDup =
        if newFrag then x.stats.fragsDup else x.stats.fragsDup + 1 := by
  unfold countFrag
  cases newFrag with
  | false => exact ⟨rfl, rfl⟩
  | true =>
    simp only [if_true]
    split <;> exact ⟨rfl, rfl⟩

theorem fragStored_frags (t : Topic) (sink : Sink) (x : ReaderSide) (s : Slot) (m : DataMsg) (newFrag : Bool) (now : Nat) :
    SameFrags x (fragStored t sink x s m newFrag now) := by
  unfold fragStored
  dsimp only
  split
  next => exact sameFrags_refl x
  split
  next => exact readerDeliver_frags t sink x now
  split
  next => exact readerAckNow_frags x false false
  next => exact sameFrags_refl x

variable {s : Slot} {a : Assembly}

/-- An assembly with the property, at its place, keeps the slots. -/
theorem Slots.setSlot (h : Slots t A r)
    (hst : r.started = true) (ha : a.active = true → A a) (hat : a.active = true → s.At r a.base)
    (hp : s = .cur → r.parked = false) (ht : s = .next → t.reliable) : Slots t A (r.setSlot s a) := by
  cases s with
  | cur =>
    have hno := hp rfl
    exact ⟨fun hact => (hat hact).1.symm, h.ahead, ha, h.next_ok,
      fun hs => Bool.noConfusion ((h.not_held hno).symm.trans hs),
      fun hpk => Bool.noConfusion (hno.symm.trans hpk),
      fun hs => Bool.noConfusion (hs.symm.trans hst), h.effort⟩
  | next =>
    exact ⟨h.head, fun hact => hat hact, h.cur_ok, ha, h.parked_shm, h.parked_inline,
      fun hs => Bool.noConfusion (hs.symm.trans hst), fun hn => absurd (ht rfl) hn⟩

variable {m : DataMsg}

theorem fragStored_grows {newFrag : Bool}
    (hD : Handed A D) (h : Slots t A x.r) (hst : x.r.started = true)
    (hp : s = .cur → x.r.parked = false) :
    Grows t A D x (fragStored t sink x s m newFrag now) := by
  unfold fragStored
  dsimp only
  split
  next => exact grows_refl h
  next hcur =>
    split
    next =>
      refine readerDeliver_grows now hD h hst (hp ?_)
      cases s with
      | cur => rfl
      | next => exact absurd rfl hcur
    next =>
      split
      next => exact grows_of_quiet h (readerAckNow_quiet _ false false)
      next => exact grows_refl h

@[simp] theorem asmOpen_of_active (m : DataMsg) (h : a.active = true) :
    asmOpen a m = a := if_pos h

@[simp] theorem asmOpen_of_free (m : DataMsg) (h : a.active = false) :
    asmOpen a m = asmStart a m.base m.count m.sampleLen :=
  if_neg fun ha => Bool.noConfusion (h.symm.trans ha)

theorem asmOpen_base (h : a.active = true → a.base = m.base) :
    (asmOpen a m).base = m.base := by
  unfold asmOpen
  split
  next ha => exact h ha
  next => rfl

theorem asmStart_bitmap {base count len i : Nat} (h : i < count) :
    (asmStart a base count len).bitmap i = false := by
  have hlt : i < 8 * ((count + 7) / 8) := by omega
  exact if_pos hlt

/-- A fragment already held belongs to a sample being assembled. -/
theorem active_of_held (hfrag : m.frag < m.count)
    (h : (asmOpen a m).bitmap m.frag = true) : a.active = true := by
  by_contra ha
  rw [asmOpen_of_free m (Bool.not_eq_true _ ▸ ha), asmStart_bitmap hfrag] at h
  exact Bool.noConfusion h

/-- The lane with another assembly in a slot. -/
def ReaderSide.put (x : ReaderSide) (s : Slot) (a : Assembly) : ReaderSide :=
  { x with r := x.r.setSlot s a }

variable {F : Nat}

/-- A new fragment of the sample in the slot is stored, counted and followed up. -/
theorem acceptFrag_new (now : Nat)
    (h : Takes (x.r.slot s) m) :
    acceptFrag t F sink x s m now = fragStored t sink
      (countFrag (x.put s (asmStore F (asmOpen (x.r.slot s) m) m.frag m.payload)) m true now)
      s m true now := by
  have hnew : (!(asmOpen (x.r.slot s) m).bitmap m.frag) = true := by rw [h.2]; rfl
  have hthen : (if (!(asmOpen (x.r.slot s) m).bitmap m.frag) = true
      then asmStore F (asmOpen (x.r.slot s) m) m.frag m.payload else asmOpen (x.r.slot s) m) =
      asmStore F (asmOpen (x.r.slot s) m) m.frag m.payload := if_pos hnew
  unfold acceptFrag
  refine (if_neg (not_not_intro h.1)).trans ?_
  refine (congrArg (fun b => fragStored t sink (countFrag (x.put s b) m
    (!(asmOpen (x.r.slot s) m).bitmap m.frag) now) s m
    (!(asmOpen (x.r.slot s) m).bitmap m.frag) now) hthen).trans ?_
  rw [hnew]

/-- A fragment already held is counted and followed up. -/
theorem acceptFrag_dup (now : Nat)
    (hcount : m.count = (asmOpen (x.r.slot s) m).count)
    (hheld : (asmOpen (x.r.slot s) m).bitmap m.frag = true) :
    acceptFrag t F sink x s m now = fragStored t sink
      (countFrag (x.put s (asmOpen (x.r.slot s) m)) m false now) s m false now := by
  have hnew : (!(asmOpen (x.r.slot s) m).bitmap m.frag) = false := by rw [hheld]; rfl
  have helse : (if (!(asmOpen (x.r.slot s) m).bitmap m.frag) = true
      then asmStore F (asmOpen (x.r.slot s) m) m.frag m.payload else asmOpen (x.r.slot s) m) =
      asmOpen (x.r.slot s) m := if_neg (Bool.not_eq_true _ ▸ hnew)
  unfold acceptFrag
  refine (if_neg (not_not_intro hcount)).trans ?_
  refine (congrArg (fun b => fragStored t sink (countFrag (x.put s b) m
    (!(asmOpen (x.r.slot s) m).bitmap m.frag) now) s m
    (!(asmOpen (x.r.slot s) m).bitmap m.frag) now) helse).trans ?_
  rw [hnew]

/-- A fragment of a sample of another size is ignored. -/
theorem acceptFrag_other (now : Nat)
    (hcount : m.count ≠ (asmOpen (x.r.slot s) m).count) :
    acceptFrag t F sink x s m now = x.put s (asmOpen (x.r.slot s) m) :=
  if_pos hcount

/-- A new fragment stored is one `Took`. -/
theorem took_of_takes (t : Topic) (F : Nat) (sink : Sink)
    (now : Nat) (h : Takes (x.r.slot s) m) : Took x (acceptFrag t F sink x s m now) := by
  obtain ⟨y, hy⟩ : ∃ y, y = x.put s (asmStore F (asmOpen (x.r.slot s) m) m.frag m.payload) :=
    ⟨_, rfl⟩
  have hstats : y.stats = x.stats := by rw [hy]; rfl
  rw [acceptFrag_new now h, ← hy]
  have hc := countFrag_frags y m true now
  have hs := fragStored_frags t sink (countFrag y m true now) s m true now
  rw [hstats] at hc
  exact ⟨hs.1.trans hc.1, hs.2.trans hc.2⟩

/-- What the arrival of a fragment does to the property `A`: `A'` is what it is afterwards,
when the fragment was taken and stored. -/
theorem acceptFrag_grows (hsub : ∀ a, A a → A' a)
    (hD : Handed A' D) (h : Slots t A x.r) (hst : x.r.started = true) (hat : s.At x.r m.base)
    (hbase : (x.r.slot s).active = true → (x.r.slot s).base = m.base) (ht : s = .next → t.reliable)
    (hfrag : m.frag < m.count)
    (hput : Takes (x.r.slot s) m → A' (asmStore F (asmOpen (x.r.slot s) m) m.frag m.payload)) :
    Grows t A' D x (acceptFrag t F sink x s m now) := by
  have hA := h.mono hsub
  have hp : s = .cur → x.r.parked = false := by
    rintro rfl
    exact hat.2
  have hslot : (x.r.slot s).active = true → A (x.r.slot s) := by
    cases s with
    | cur => exact h.cur_ok
    | next => exact h.next_ok
  -- the slot keeps what it held: nothing moves
  have hkeep : (x.r.slot s).active = true →
      Slots t A' (x.r.setSlot s (asmOpen (x.r.slot s) m)) := by
    intro ha
    rw [asmOpen_of_active m ha]
    exact hA.setSlot hst (fun _ => hsub _ (hslot ha)) (fun _ => hbase ha ▸ hat) hp ht
  have hstep : ∀ (newFrag : Bool) (b : Assembly), Slots t A' (x.r.setSlot s b) →
      Grows t A' D x (fragStored t sink (countFrag (x.put s b) m newFrag now) s m newFrag now) := by
    intro newFrag b hb
    have hq := countFrag_quiet (x.put s b) m newFrag now
    have hset : Grows t A' D x (x.put s b) :=
      ⟨hb, [], (List.append_nil _).symm, fun _ he => absurd he List.not_mem_nil⟩
    have hcount := hset.quiet hq
    refine grows_trans hcount (fragStored_grows hD hcount.slots ?_ fun hs => ?_)
    · exact hq.1.started.trans ((setSlot_started _ _ _).trans hst)
    · exact hq.1.parked.trans ((setSlot_parked _ _ _).trans (hp hs))
  by_cases hcount : m.count = (asmOpen (x.r.slot s) m).count
  · cases hnew : (asmOpen (x.r.slot s) m).bitmap m.frag with
    | false =>
      rw [acceptFrag_new now ⟨hcount, hnew⟩]
      refine hstep true _ (hA.setSlot hst (fun _ => hput ⟨hcount, hnew⟩) (fun _ => ?_) hp ht)
      rw [show (asmStore F (asmOpen (x.r.slot s) m) m.frag m.payload).base = m.base from
        asmOpen_base hbase]
      exact hat
    | true =>
      rw [acceptFrag_dup now hcount hnew]
      exact hstep false _ (hkeep (active_of_held hfrag hnew))
  · rw [acceptFrag_other now hcount]
    have hact : (x.r.slot s).active = true := by
      by_contra ha
      rw [asmOpen_of_free m (Bool.not_eq_true _ ▸ ha)] at hcount
      exact hcount rfl
    exact ⟨hkeep hact, [], (List.append_nil _).symm, fun _ he => absurd he List.not_mem_nil⟩

/-- The head the buffers could not hold is skipped. -/
theorem headTooBig_grows (hD : Handed A D) (h : Slots t A x.r)
    (hst : x.r.started = true) (hp : x.r.parked = false) :
    Grows t A D x (headTooBig t sink x m now) := by
  have hs := h.not_held hp
  have hskip : Grows t A D x { x with
      r := readerMoveTo x.r (m.base + m.count)
      fx := x.fx ++ [.tooBig m.base m.count m.sampleLen] } := by
    refine grows_of_emit _ _ rfl (readerMoveTo_slots _ h hst hp hs) fun e he => ?_
    rw [List.mem_singleton.mp he]
    trivial
  have hst' := (readerMoveTo_started x.r (m.base + m.count)).trans hst
  have hp' := (readerMoveTo_parked x.r (m.base + m.count)).trans hp
  unfold headTooBig
  dsimp only
  split
  next =>
    have hq := readerAckNow_quiet { x with
      r := readerMoveTo x.r (m.base + m.count)
      fx := x.fx ++ [.tooBig m.base m.count m.sampleLen] } true false
    have hack := hskip.quiet hq
    exact grows_trans hack (readerDeliver_grows now hD hack.slots (hq.1.started.trans hst')
      (hq.1.parked.trans hp'))
  next => exact grows_trans hskip (readerDeliver_grows now hD hskip.slots hst' hp')

/-- What a run is told of the assembly a fragment is stored in: the slot as it was fitted for
the fragment's sample. -/
structure Fitted (peerFrag : Nat) (A : Assembly → Prop) (a : Assembly) (m : DataMsg) : Prop where
  frag_lt : m.frag < m.count
  len_le : m.sampleLen ≤ m.count * peerFrag
  buf_fits : m.sampleLen ≤ a.buf.length
  bitmap_fits : (m.count + 7) / 8 ≤ a.bitmapCap
  held : a.active = true → A a ∧ a.base = m.base
  takes : Takes a m

/-- A DATA with any fields: the property of the slots becomes `A'`, when storing a fragment
that was taken gives it. -/
theorem readerData_grows (hfit : FitStable A)
    (hsub : ∀ a, A a → A' a) (hD : Handed A' D) (h : Slots t A x.r)
    (hput : ∀ s a, offered t F x.r m = some (s, a) →
      Fitted F A (asmFit al a m.sampleLen m.count).1 m →
      Took x (readerData t F sink al x m now) →
      A' (asmStore F (asmOpen (asmFit al a m.sampleLen m.count).1 m) m.frag m.payload)) :
    Grows t A' D x (readerData t F sink al x m now) := by
  have hDA : Handed A D := fun a ha => hD a (hsub a ha)
  rcases readerData_cases (D := D) F sink al m now h with
    ⟨-, hq, -⟩ | ⟨s, a, y, hoff, hr, heq⟩
  · exact grows_of_quiet (h.mono hsub) hq
  · rw [heq] at hput ⊢
    have hx : Grows t A' D x y := ⟨hr.grows.slots.mono hsub, hr.grows.said⟩
    have hspec := asmFit_spec al a m.sampleLen m.count
    have hp : s = .cur → y.r.parked = false := by
      have hat := hr.at_base
      rintro rfl
      exact hat.2
    have hslotA : a.active = true → A a := by
      have hy := hr.grows.slots
      have hsl := hr.slot
      rw [← hsl]
      cases s with
      | cur => exact hy.cur_ok
      | next => exact hy.next_ok
    -- the slot with its buffers fitted
    have hset : Slots t A (y.r.setSlot s (asmFit al a m.sampleLen m.count).1) := by
      refine hr.grows.slots.setSlot hr.started (fun ha => hfit _ _ _ _ (hslotA (hspec.1 ▸ ha)))
        (fun ha => ?_) hp hr.reliable
      rw [hspec.2.1, hr.base (hspec.1 ▸ ha)]
      exact hr.at_base
    obtain ⟨⟨a', fits⟩, hfit'⟩ : ∃ p, asmFit al a m.sampleLen m.count = p := ⟨_, rfl⟩
    rw [hfit'] at hspec hset
    cases fits with
    | true =>
      have hin : fitSlot t F sink al y s m now = acceptFrag t F sink (y.put s a') s m now := by
        unfold fitSlot
        rw [hr.slot, hfit']
        rfl
      have hslot' : (y.put s a').r.slot s = a' := slot_setSlot _ _ _
      have hst' : (y.put s a').r.started = true := (setSlot_started _ _ _).trans hr.started
      have hput' := hput s a hoff
      rw [hin, hfit'] at hput'
      rw [hin]
      have hat : s.At (y.put s a').r m.base :=
        hr.at_base.congr (setSlot_deliverUpto _ _ _) (setSlot_parked _ _ _)
      have hbase : a'.active = true → a'.base = m.base :=
        fun ha => hspec.2.1.trans (hr.base (hspec.1 ▸ ha))
      refine grows_trans (y := y.put s a') ⟨hset.mono hsub, hx.said⟩
        (acceptFrag_grows hsub hD hset hst' hat (hslot'.symm ▸ hbase) hr.reliable hr.frag_lt ?_)
      intro htakes
      have htook := took_of_takes t F sink now htakes
      rw [hslot'] at htakes ⊢
      refine hput' ⟨hr.frag_lt, hr.len_le, (hspec.2.2 rfl).1, (hspec.2.2 rfl).2, fun ha => ⟨?_, hbase ha⟩,
        htakes⟩ ⟨htook.1.trans ?_, htook.2.trans hr.frags.2⟩
      · have hA := hfit al a m.sampleLen m.count (hslotA (hspec.1 ▸ ha))
        rw [hfit'] at hA
        exact hA
      · show y.stats.fragsRecv + 1 = _
        rw [hr.frags.1]
    | false =>
      have hy : Grows t A' D x (y.put s a') := ⟨hset.mono hsub, hx.said⟩
      have hout : fitSlot t F sink al y s m now =
          if s = .next then (y.put s a').stat fun c => { c with fragsAhead := c.fragsAhead + 1 }
          else headTooBig t sink (y.put s a') m now := by
        unfold fitSlot
        rw [hr.slot, hfit']
        rfl
      rw [hout]
      split
      next => exact hy.quiet (quiet_stat _ _)
      next hcur =>
        have hc : s = .cur := by
          cases s with
          | cur => rfl
          | next => exact absurd rfl hcur
        exact grows_trans hy (headTooBig_grows hD hy.slots ((setSlot_started _ _ _).trans hr.started)
          ((setSlot_parked _ _ _).trans (hp hc)))

/-! ## Heartbeats, polls, resumes and matches -/

theorem hbSkip_grows {m : HbMsg} (hD : Handed A D) (h : Slots t A x.r)
    (hskip : hbSkips x.r m.first) (ht : t.reliable) :
    Grows t A D x (hbSkip t sink x m now) := by
  have hmove : ∀ (r : ReaderProxy) (upto : Nat), r.next = x.r.next → r.started = x.r.started →
      r.parked = false → r.parkedShm = false → Slots t A (readerMoveTo r upto) := by
    intro r upto hn hst hp hs
    refine readerSettle_slots rfl ?_ (hst.trans hskip.1) hp hs fun hno => absurd ht hno
    exact fun ha => hn ▸ h.next_ok (hn ▸ ha)
  unfold hbSkip
  obtain ⟨upto, hupto⟩ : ∃ upto, upto = if t.directed = false ∧ x.r.parked = false ∧ x.r.lapped = true
      ∧ m.first < u64Succ m.last then u64Succ m.last else m.first := ⟨_, rfl⟩
  dsimp only
  rw [← hupto]
  cases hd : t.directed with
  | true =>
    rw [if_pos rfl]
    have hm := hmove { x.r with
      rttProbe := false, parked := false, parkedShm := false, shmFail := 0 } upto rfl rfl rfl rfl
    refine grows_trans (y := { x with r := readerMoveTo { x.r with
      rttProbe := false, parked := false, parkedShm := false, shmFail := 0 } upto })
      ⟨hm, [], (List.append_nil _).symm, fun _ he => absurd he List.not_mem_nil⟩ ?_
    exact readerDeliver_grows now hD hm ((readerMoveTo_started _ _).trans hskip.1) (readerMoveTo_parked _ _)
  | false =>
    rw [if_neg Bool.false_ne_true]
    have hm := hmove { x.r with
      lapped := x.r.lapped || !x.r.parked, rttProbe := false, parked := false
      parkedShm := false, shmFail := 0 } upto rfl rfl rfl rfl
    refine grows_trans (y := { x with
      stats := { x.stats with msgsSkipped := x.stats.msgsSkipped + (upto - x.r.deliverUpto) }
      r := readerMoveTo { x.r with
        lapped := x.r.lapped || !x.r.parked, rttProbe := false, parked := false
        parkedShm := false, shmFail := 0 } upto
      fx := x.fx ++ [.lost x.r.deliverUpto (upto - x.r.deliverUpto)] }) (grows_of_emit _ _ rfl hm ?_) ?_
    · intro e he
      rw [List.mem_singleton.mp he]
      trivial
    · exact readerDeliver_grows now hD hm ((readerMoveTo_started _ _).trans hskip.1) (readerMoveTo_parked _ _)

/-- A heartbeat with any fields. -/
theorem readerHb_grows {m : HbMsg} (hD : Handed A D)
    (h : Slots t A x.r) : Grows t A D x (readerHb t sink x m now) := by
  unfold readerHb
  split
  next => exact grows_refl h
  next hu =>
    have ht : t.reliable := Decidable.not_not.mp fun hn => hu (Or.inr hn)
    obtain ⟨y, hy⟩ : ∃ y, y = if hbSkips x.r m.first then hbSkip t sink x m now else x := ⟨_, rfl⟩
    have hk : Grows t A D x y := by
      rw [hy]
      split
      next hs => exact hbSkip_grows hD h hs ht
      next => exact grows_refl h
    dsimp only
    rw [← hy]
    split
    next => exact hk
    next =>
      refine hk.quiet (quiet_trans ?_ (readerAckNow_quiet _ true true))
      exact quiet_of_fx_eq ⟨rfl, rfl, rfl, rfl, rfl, rfl, rfl⟩ rfl

/-- A resume of the parked sample. -/
theorem deliverParked_grows (hD : Handed A D) (h : Slots t A x.r) :
    Grows t A D x (deliverParked t sink x) := by
  unfold deliverParked
  split
  next => exact grows_refl h
  next hnp =>
    have hp : x.r.parked = true := by
      rw [← Bool.not_eq_false]
      exact fun hc => hnp (Or.inr hc)
    have hst := h.started_of_parked hp
    have ht := h.reliable_of_parked hp
    split
    next hps =>
      obtain ⟨-, hcur, hbase⟩ := h.parked_shm hps
      have hsay : ∀ ok, ∀ e ∈ [Effect.shm x.r.cur.base x.r.cur.count
          (x.r.cur.buf.take shmDescBytes) ok], Says D e := by
        intro ok e he
        rw [List.mem_singleton.mp he]
        trivial
      dsimp only
      split
      next =>
        -- the chunk is gone
        refine (grows_of_emit { x with
          r := { x.r with parked := false, parkedShm := false, cur := { x.r.cur with active := false } }
          fx := x.fx ++ [.shm x.r.cur.base x.r.cur.count (x.r.cur.buf.take shmDescBytes)
            (sink.onShm x.fx (x.r.cur.buf.take shmDescBytes))] } _ rfl ?_ (hsay _)).quiet
          (readerAckNow_quiet _ false false)
        exact ⟨fun ha => Bool.noConfusion ha, h.ahead, fun ha => Bool.noConfusion ha, h.next_ok,
          fun hs => Bool.noConfusion hs, fun hs => Bool.noConfusion hs,
          fun hs => Bool.noConfusion (hs.symm.trans hst), fun hn => absurd ht hn⟩
      next =>
        by_cases hok : 0 < sink.onShm x.fx (x.r.cur.buf.take shmDescBytes)
        · rw [if_pos hok]
          have hm : Slots t A (readerMoveTo { x.r with
              parked := false, parkedShm := false, shmFail := 0, lapped := false }
              (x.r.cur.base + x.r.cur.count)) :=
            readerSettle_slots rfl h.next_ok hst rfl rfl fun hn => absurd ht hn
          have hmove : Grows t A D x { x with
              r := readerMoveTo { x.r with
                parked := false, parkedShm := false, shmFail := 0, lapped := false }
                (x.r.cur.base + x.r.cur.count)
              fx := x.fx ++ [.shm x.r.cur.base x.r.cur.count (x.r.cur.buf.take shmDescBytes)
                (sink.onShm x.fx (x.r.cur.buf.take shmDescBytes))] } := grows_of_emit _ _ rfl hm (hsay _)
          have hq := readerAckNow_quiet { x with
            r := readerMoveTo { x.r with
              parked := false, parkedShm := false, shmFail := 0, lapped := false }
              (x.r.cur.base + x.r.cur.count)
            fx := x.fx ++ [.shm x.r.cur.base x.r.cur.count (x.r.cur.buf.take shmDescBytes)
              (sink.onShm x.fx (x.r.cur.buf.take shmDescBytes))] } true false
          have hack := hmove.quiet hq
          exact grows_trans hack (readerDeliver_grows 0 hD hack.slots
            (hq.1.started.trans ((readerMoveTo_started _ _).trans hst))
            (hq.1.parked.trans (readerMoveTo_parked _ _)))
        · rw [if_neg hok]
          exact grows_of_emit _ _ rfl h (hsay _)
    next hps =>
      have hps : x.r.parkedShm = false := Bool.not_eq_true _ ▸ hps
      have hun : Slots t A { x.r with parked := false } := by
        refine ⟨h.head, h.ahead, h.cur_ok, h.next_ok, ?_, fun hs => Bool.noConfusion hs, ?_,
          fun hn => absurd ht hn⟩
        · exact fun hs => Bool.noConfusion (hps.symm.trans hs)
        · exact fun hs => Bool.noConfusion (hs.symm.trans hst)
      exact grows_trans (y := { x with r := { x.r with parked := false } })
        ⟨hun, [], (List.append_nil _).symm, fun _ he => absurd he List.not_mem_nil⟩
        (readerDeliver_grows 0 hD hun hst rfl)

/-- A freshly matched lane holds nothing. -/
theorem readerMatch_grows (epoch : Nat) (x : ReaderSide) :
    Grows t A D x (readerMatch t epoch x) := by
  have hfresh : Slots t A ({ cur := { x.r.cur with active := false }
                             next := { x.r.next with active := false }
                             epoch := epoch, used := true } : ReaderProxy) :=
    ⟨fun ha => Bool.noConfusion ha, fun ha => Bool.noConfusion ha, fun ha => Bool.noConfusion ha,
      fun ha => Bool.noConfusion ha, fun hs => Bool.noConfusion hs, fun hs => Bool.noConfusion hs,
      fun _ => ⟨rfl, rfl, rfl⟩, fun _ => ⟨rfl, rfl⟩⟩
  obtain ⟨es, hfx, hes⟩ := readerMatch_fx t epoch x
  refine ⟨?_, es, hfx, fun e he => says_silent (hes e he)⟩
  unfold readerMatch
  dsimp only
  split
  next => exact hfresh.congr ⟨rfl, rfl, rfl, rfl, rfl, rfl, rfl⟩
  next => exact hfresh

theorem readerResume_quiet (t : Topic) (x : ReaderSide) : Quiet x (readerResume t x) := by
  unfold readerResume
  split
  next =>
    exact ⟨⟨rfl, rfl, rfl, rfl, rfl, rfl, rfl⟩, [.wake], rfl,
      fun f hf => by rw [List.mem_singleton.mp hf]; trivial⟩
  next => exact quiet_refl x

/-! ## Runs -/

/-- What a run keeps of a lane: the slots stand while it is matched. -/
def Placed (t : Topic) (A : Assembly → Prop) (r : ReaderProxy) : Prop := r.used = true → Slots t A r

/-- An event on a lane, with its sink calls. -/
structure LaneGrows (t : Topic) (A : Assembly → Prop) (D : Nat → Nat → Bytes → Prop)
    (l l' : ReaderLane) : Prop where
  slots : Placed t A l'.side.r
  said : ∃ es, l'.side.fx = l.side.fx ++ es ∧ ∀ e ∈ es, Says D e

/-- What an event has to do with the property of the slots: a DATA that takes a fragment
gives `A'` of the assembly it is stored in. -/
def ReaderEvent.Puts (t : Topic) (A A' : Assembly → Prop) (l : ReaderLane) : ReaderEvent → Prop
  | .data sink al m now => ∀ s a, offered t l.peerFrag l.side.r m = some (s, a) →
      Fitted l.peerFrag A (asmFit al a m.sampleLen m.count).1 m →
      Took l.side (readerData t l.peerFrag sink al l.side m now) →
      A' (asmStore l.peerFrag (asmOpen (asmFit al a m.sampleLen m.count).1 m) m.frag m.payload)
  | _ => True

variable {l l' : ReaderLane}

theorem LaneGrows.of_grows (h : Grows t A D l.side l'.side) :
    LaneGrows t A D l l' := ⟨fun _ => h.slots, h.said⟩

theorem LaneGrows.of_quiet (h : Placed t A l.side.r) (hq : Quiet l.side l'.side) :
    LaneGrows t A D l l' := by
  obtain ⟨hr, es, hfx, hes⟩ := hq
  refine ⟨fun hu => (h (hr.used.symm.trans hu)).congr hr, es, hfx, fun e he => says_silent (hes e he)⟩

/-- A step without a sink call. -/
theorem LaneGrows.of_fx (h : Placed t A l'.side.r)
    (hfx : l'.side.fx = l.side.fx) : LaneGrows t A D l l' :=
  ⟨h, [], by rw [hfx, List.append_nil], fun _ he => absurd he List.not_mem_nil⟩

/-- An unmatched lane ignores what it hears. -/
theorem readerData_unused
    (hu : x.r.used = false) : Quiet x (readerData t F sink al x m now) := by
  unfold readerData
  rw [if_pos hu]
  exact quiet_stat _ _

theorem readerShm_unused {m : ShmMsg}
    (hu : x.r.used = false) : Quiet x (readerShm t sink al x m now) := by
  unfold readerShm
  rw [if_pos (Or.inl hu)]
  exact quiet_refl x

theorem readerHb_unused {m : HbMsg} (hu : x.r.used = false) :
    Quiet x (readerHb t sink x m now) := by
  unfold readerHb
  rw [if_pos (Or.inl hu)]
  exact quiet_refl x

theorem deliverParked_unused (hu : x.r.used = false) :
    Quiet x (deliverParked t sink x) := by
  unfold deliverParked
  rw [if_pos (Or.inl hu)]
  exact quiet_refl x

/-- One event keeps the slots in place. -/
theorem readerStep_grows (hfit : FitStable A) (hsub : ∀ a, A a → A' a) (hD : Handed A' D)
    (h : Placed t A l.side.r) (e : ReaderEvent)
    (hput : e.Puts t A A' l) : LaneGrows t A' D l (readerStep t l e) := by
  have hA : Placed t A' l.side.r := fun hu => (h hu).mono hsub
  by_cases hu : l.side.r.used = true
  · have hl := h hu
    have hl' := hA hu
    cases e with
    | data sink al m now => exact .of_grows (readerData_grows hfit hsub hD hl hput)
    | shm sink al m now => exact .of_grows (readerShm_grows hD hl')
    | hb sink m now => exact .of_grows (readerHb_grows hD hl')
    | poll dormant cap now => exact .of_quiet hA (readerEmit_quiet t _ _ _ _)
    | retry sink => exact .of_grows (deliverParked_grows hD hl')
    | matched epoch => exact .of_grows (readerMatch_grows epoch l.side)
    | unmatched => exact .of_fx (fun hu' => Bool.noConfusion hu') rfl
    | released =>
      have hstay : readerStep t l .released = l := if_pos hu
      rw [hstay]
      exact .of_fx hA rfl
    | resumed => exact .of_quiet hA (readerResume_quiet t l.side)
    | setFrag peerFrag => exact .of_fx hA rfl
    | measured rtt => exact .of_fx hA rfl
  · have hu' : l.side.r.used = false := Bool.not_eq_true _ ▸ hu
    cases e with
    | data sink al m now => exact .of_quiet hA (readerData_unused hu')
    | shm sink al m now => exact .of_quiet hA (readerShm_unused hu')
    | hb sink m now => exact .of_quiet hA (readerHb_unused hu')
    | poll dormant cap now => exact .of_quiet hA (readerEmit_quiet t _ _ _ _)
    | retry sink => exact .of_quiet hA (deliverParked_unused hu')
    | matched epoch => exact .of_grows (readerMatch_grows epoch l.side)
    | unmatched => exact .of_fx (fun hu' => Bool.noConfusion hu') rfl
    | released =>
      have hgone : readerStep t l .released = { l with side := { l.side with r := {} } } := if_neg hu
      rw [hgone]
      exact .of_fx (fun hu' => Bool.noConfusion hu') rfl
    | resumed => exact .of_quiet hA (readerResume_quiet t l.side)
    | setFrag peerFrag => exact .of_fx hA rfl
    | measured rtt => exact .of_fx hA rfl

/-- Where every DATA keeps a property of the slots, every run keeps it. -/
theorem readerRun_slots (hfit : FitStable A) {es : List ReaderEvent}
    (hput : ∀ l, ∀ e ∈ es, e.Puts t A A l) (h : Placed t A l.side.r) :
    Placed t A (run (readerStep t) l es).side.r := by
  induction es generalizing l with
  | nil => exact h
  | cons e es ih =>
    rw [run_cons]
    refine ih (fun l' f hf => hput l' f (List.mem_cons_of_mem e hf)) ?_
    exact (readerStep_grows (D := fun _ _ _ => True) hfit (fun _ ha => ha) (fun _ _ _ => trivial) h e
      (hput l e List.mem_cons_self)).slots

end Rant.Transport
