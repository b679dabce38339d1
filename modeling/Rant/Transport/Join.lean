import Rant.Transport.Link
/-!
# The join

The writer lane of a reliable topic joins at a seqno (`joined`), from which on it owes the
reader every sample. The reader has no position of its own: it takes the base of the first
DATA it accepts, whichever that is (`adopted`). Nothing makes the two agree: when the first
push is lost or overtaken, the reader takes a later base, answers its resend as old and
reports nothing. `join_owed_iff` says when they do agree: exactly in the runs whose
un-positioned reader is handed no DATA past the join seqno.
-/

namespace Rant.Transport

open Rant.Lib

variable {c : LinkCfg} {s : Link} {S : List WriterSample}

/-- The base an un-positioned reader is about to take: that of the arriving DATA. -/
def Link.firstBase (s : Link) : LinkEvent → Option Nat
  | .toReader i _ _ _ =>
    if s.rs.r.used = true ∧ s.rs.r.started = false then (s.toReader[i]?).bind Submsg.dataBase
    else none
  | _ => none

/-- The first DATA an un-positioned reader is handed does not lie past the join seqno. -/
def Link.FirstOwed (s : Link) (e : LinkEvent) : Prop :=
  ∀ base, s.firstBase e = some base → ∀ join, s.joined = some join → base ≤ join

/-- Whether the reader has a position after an arrival. -/
theorem receive_started {m : Submsg} (sink : Sink) (al : Alloc) (now : Nat) (h : LinkInv c s S)
    (hm : m ∈ s.toReader) : (receive c sink al s.rs now m).r.started = true ↔
      s.rs.r.started = true ∨ (s.rs.r.used = true ∧ m.dataBase ≠ none) := by
  have hL : LogOk c.frag s.committed := by
    rw [h.log]
    exact h.history.logOk
  have hok := h.flight m hm
  have harrived : ∀ {x' : ReaderSide} {base : Nat}, Arrived c.frag s.committed s.rs x' base →
      (x'.r.started = true ↔ s.rs.r.started = true ∨ (s.rs.r.used = true ∧ some base ≠ none)) := by
    intro x' base ha
    refine ⟨fun hst' => ?_, ?_⟩
    · rcases ha.booked with hq | ⟨hst, -, -⟩ | ⟨hu, -, -, -⟩
      · exact Or.inl (hq.1.started.symm.trans hst')
      · exact Or.inl hst
      · exact Or.inr ⟨hu, Option.some_ne_none base⟩
    · rintro (hst | ⟨hu, -⟩)
      · rcases ha.booked with hq | ⟨-, hst', -⟩ | ⟨-, -, hst', -⟩
        · exact hq.1.started.trans hst
        · exact hst'
        · exact hst'
      · exact ha.positioned hu
  cases m with
  | data m => exact harrived (readerData_arrived c.frag_pos hL c.sub_reliable hok h.reader)
  | shm m => exact harrived (readerShm_arrived c.frag_pos hL c.sub_reliable hok h.reader)
  | hb m =>
    have hk := readerHb_kept sink m now c.frag_pos hL
      c.sub_broadcast h.reader
    show (readerHb c.sub sink s.rs m now).r.started = true ↔ _
    rw [hk.started]
    refine ⟨Or.inl, ?_⟩
    rintro (hst | ⟨-, hne⟩)
    · exact hst
    · exact absurd rfl hne

/-- A step adopts the base the reader is about to take, and no other. -/
theorem adopted_step (h : LinkInv c s S) (e : LinkEvent) :
    (s.step c e).adopted = (s.firstBase e).or s.adopted := by
  have hcommit : ∀ (r : Send) (x : Committed), (s.commit r x).adopted = s.adopted := by
    intro r x
    cases r <;> rfl
  cases e with
  | send hdr data captureUs sourceUs al => exact hcommit _ _
  | sendShm chunk desc => exact hcommit _ _
  | fresh opened => rfl
  | matchWriter =>
    unfold Link.step
    dsimp only
    split <;> rfl
  | matchReader =>
    unfold Link.step
    dsimp only
    split <;> rfl
  | pollWriter shm dormant cap now => rfl
  | pollReader dormant cap now => rfl
  | toWriter i now =>
    unfold Link.step
    dsimp only
    split <;> rfl
  | resume sink => rfl
  | toReader i sink al now =>
    unfold Link.firstBase
    dsimp only
    cases hm : s.toReader[i]? with
    | none =>
      rw [step_toReader_none c hm, Option.bind_none, ite_self]
      rfl
    | some m =>
      rw [step_toReader_some c now sink al hm]
      have hst := receive_started sink al now h (List.mem_of_getElem? hm)
      show (if _ then _ else _) = _
      rw [Option.bind_some]
      by_cases hfirst : s.rs.r.used = true ∧ s.rs.r.started = false
      · rw [if_pos hfirst]
        cases hbase : m.dataBase with
        | none =>
          rw [if_neg]
          · rfl
          · rintro ⟨hno, hyes⟩
            rcases hst.mp hyes with hyes | ⟨-, hne⟩
            · exact Bool.noConfusion (hno.symm.trans hyes)
            · exact hne hbase
        | some base =>
          have hne : m.dataBase ≠ none := by
            rw [hbase]
            exact Option.some_ne_none base
          rw [if_pos ⟨hfirst.2, hst.mpr (Or.inr ⟨hfirst.1, hne⟩)⟩]
          rfl
      · rw [if_neg hfirst, if_neg]
        · rfl
        · rintro ⟨hno, hyes⟩
          rcases hst.mp hyes with hyes | ⟨hu, -⟩
          · exact Bool.noConfusion (hno.symm.trans hyes)
          · exact hfirst ⟨hu, hno⟩

/-! ## What is owed -/

/-- The invariant with the join: nothing is in flight before the writer lane joined. -/
structure JoinInv (c : LinkCfg) (s : Link) : Prop where
  link : ∃ S, LinkInv c s S
  used : s.ws.w.used = true ↔ s.joined ≠ none
  flight : s.joined = none → s.toReader = []
  adopted : s.adopted ≠ none → s.joined ≠ none

theorem joinInv_init (c : LinkCfg) : JoinInv c (Link.init c) where
  link := ⟨[], linkInv_init c⟩
  used := ⟨fun h => Bool.noConfusion h, fun h => absurd rfl h⟩
  flight _ := rfl
  adopted h := absurd rfl h

/-- Whatever arrives was sent by a lane that had joined. -/
theorem firstBase_joined (h : JoinInv c s) {e : LinkEvent} {base : Nat}
    (hb : s.firstBase e = some base) : s.joined ≠ none := by
  intro hnone
  unfold Link.firstBase at hb
  split at hb
  next i _ _ _ =>
    rw [h.flight hnone] at hb
    split at hb
    next => cases hb
    next => cases hb
  next => cases hb

/-- The join seqno, once taken, stays. -/
theorem joined_step (h : JoinInv c s) (e : LinkEvent) {join : Nat} (hj : s.joined = some join) :
    (s.step c e).joined = some join := by
  have hcommit : ∀ (r : Send) (x : Committed), (s.commit r x).joined = s.joined := by
    intro r x
    cases r <;> rfl
  cases e with
  | send hdr data captureUs sourceUs al => exact (hcommit _ _).trans hj
  | sendShm chunk desc => exact (hcommit _ _).trans hj
  | fresh opened => exact hj
  | matchWriter =>
    unfold Link.step
    rw [if_pos (h.used.mpr (by rw [hj]; exact Option.some_ne_none join))]
    exact hj
  | matchReader =>
    unfold Link.step
    dsimp only
    split <;> exact hj
  | pollWriter shm dormant cap now => exact hj
  | pollReader dormant cap now => exact hj
  | toReader i sink al now =>
    unfold Link.step
    dsimp only
    split <;> exact hj
  | toWriter i now =>
    unfold Link.step
    dsimp only
    split <;> exact hj
  | resume sink => exact hj

/-- Every event of the link keeps it. -/
theorem joinInv_step (s : Link) (e : LinkEvent) (h : JoinInv c s) : JoinInv c (s.step c e) := by
  obtain ⟨S, hlink⟩ := h.link
  obtain ⟨S', hlink'⟩ := step_inv e hlink
  -- what a position taken in this step, or before it, was taken from
  have hadopt : (s.step c e).adopted ≠ none → s.joined ≠ none := by
    rw [adopted_step hlink e]
    intro hne
    cases hb : s.firstBase e with
    | some base => exact firstBase_joined h hb
    | none =>
      rw [hb, Option.none_or] at hne
      exact h.adopted hne
  have hcommit : ∀ (r : Send) (x : Committed), (s.commit r x).ws.w = s.ws.w ∧
      (s.commit r x).joined = s.joined ∧ (s.commit r x).toReader = s.toReader := by
    intro r x
    cases r with
    | committed t => exact ⟨commitLane_all t 0 s.ws, rfl, rfl⟩
    | skipped => exact ⟨rfl, rfl, rfl⟩
    | refused _ => exact ⟨rfl, rfl, rfl⟩
  -- an event that leaves the writer's match and the datagrams in flight alone
  have hsame : (s.step c e).ws.w.used = s.ws.w.used → (s.step c e).joined = s.joined →
      (s.step c e).toReader = s.toReader → JoinInv c (s.step c e) := by
    intro hu hj hf
    refine ⟨⟨S', hlink'⟩, ?_, ?_, ?_⟩
    · rw [hu, hj]
      exact h.used
    · rw [hj, hf]
      exact h.flight
    · rw [hj]
      exact hadopt
  cases e with
  | send hdr data captureUs sourceUs al =>
    obtain ⟨hw, hj, hf⟩ := hcommit (writerSend c.frag s.pub hdr data captureUs sourceUs al .all) _
    exact hsame (congrArg WriterProxy.used hw) hj hf
  | sendShm chunk desc =>
    obtain ⟨hw, hj, hf⟩ := hcommit (writerSendShm c.frag s.pub chunk desc.1) _
    exact hsame (congrArg WriterProxy.used hw) hj hf
  | fresh opened => exact hsame rfl rfl rfl
  | matchWriter =>
    by_cases hu : s.ws.w.used = true
    · have hno : s.step c .matchWriter = s := if_pos hu
      rw [hno]
      exact h
    · have hyes : s.step c .matchWriter = { s with
          pub := { s.pub with matchedWriters := s.pub.matchedWriters + 1 }
          ws := { s.ws with w := writerMatch s.pub true }
          joined := some (unicastJoinSeqno s.pub) } := if_neg hu
      refine ⟨⟨S', hlink'⟩, ?_, ?_, ?_⟩
      · rw [hyes]
        exact ⟨fun _ => Option.some_ne_none _, fun _ => rfl⟩
      · rw [hyes]
        exact fun hnone => by cases hnone
      · rw [hyes]
        exact fun _ => Option.some_ne_none _
  | matchReader =>
    by_cases hu : s.rs.r.used = true
    · have hno : s.step c .matchReader = s := if_pos hu
      rw [hno]
      exact h
    · have hyes : s.step c .matchReader = { s with
          rs := readerMatch c.sub s.epochs s.rs, epochs := s.epochs + 1 } := if_neg hu
      refine hsame ?_ ?_ ?_
      · rw [hyes]
      · rw [hyes]
      · rw [hyes]
  | pollWriter shm dormant cap now =>
    have hmatched := writerEmit_matched s.pub { frag := c.frag, p := 0, shm, cap, now } dormant s.ws
    refine ⟨⟨S', hlink'⟩, ?_, fun hnone => ?_, hadopt⟩
    · show (writerEmit s.pub _ dormant s.ws).1.w.used = true ↔ _
      rw [matched_used hmatched]
      exact h.used
    · have hu : s.ws.w.used = false := by
        rw [← Bool.not_eq_true]
        exact fun hu => h.used.mp hu hnone
      have hsilent : writerEmit s.pub { frag := c.frag, p := 0, shm, cap, now } dormant s.ws =
          (s.ws, none) := if_pos (Or.inl hu)
      show s.toReader ++ (writerEmit s.pub _ dormant s.ws).2.toList = []
      rw [hsilent, h.flight hnone]
      rfl
  | pollReader dormant cap now => exact hsame rfl rfl rfl
  | toReader i sink al now =>
    cases hm : s.toReader[i]? with
    | none =>
      rw [step_toReader_none c hm]
      exact h
    | some m =>
      have hyes := step_toReader_some c now sink al hm
      refine hsame ?_ ?_ ?_
      · rw [hyes]
      · rw [hyes]
      · rw [hyes]
  | toWriter i now =>
    cases hm : s.toWriter[i]? with
    | none =>
      rw [step_toWriter_none c hm]
      exact h
    | some m =>
      have hyes := step_toWriter_some c now hm
      refine hsame ?_ ?_ ?_
      · rw [hyes]
        exact matched_used (writerNack_matched s.pub 0 s.ws m now)
      · rw [hyes]
      · rw [hyes]
  | resume sink => exact hsame rfl rfl rfl

/-- The reader took no position past the join seqno. -/
def Link.JoinKept (s : Link) : Prop :=
  ∀ join, s.joined = some join → ∀ base, s.adopted = some base → base ≤ join

/-- The reader took a position past the join seqno. -/
def Link.JoinMissed (s : Link) : Prop :=
  ∃ join base, s.joined = some join ∧ s.adopted = some base ∧ join < base

/-- A position the first DATA gave is within the join seqno when that DATA was. -/
theorem joinKept_step (s : Link) (e : LinkEvent) (h : JoinInv c s) (hk : s.JoinKept)
    (hfirst : s.FirstOwed e) : (s.step c e).JoinKept := by
  obtain ⟨S, hlink⟩ := h.link
  intro join hj base ha
  rw [adopted_step hlink e] at ha
  -- a position is taken, and was, only after the writer lane joined
  have hjoin : s.joined ≠ none := by
    cases hb : s.firstBase e with
    | none =>
      rw [hb, Option.none_or] at ha
      refine h.adopted ?_
      rw [ha]
      exact Option.some_ne_none base
    | some b => exact firstBase_joined h hb
  obtain ⟨j, hj'⟩ := Option.ne_none_iff_exists'.mp hjoin
  obtain rfl : j = join := Option.some.inj ((joined_step h e hj').symm.trans hj)
  cases hb : s.firstBase e with
  | none =>
    rw [hb, Option.none_or] at ha
    exact hk j hj' base ha
  | some b =>
    rw [hb, Option.some_or] at ha
    obtain rfl := Option.some.inj ha
    exact hfirst b hb j hj'

theorem joinMissed_step (s : Link) (e : LinkEvent) (h : JoinInv c s) (hm : s.JoinMissed) :
    (s.step c e).JoinMissed := by
  obtain ⟨S, hlink⟩ := h.link
  obtain ⟨join, base, hj, ha, hlt⟩ := hm
  refine ⟨join, base, joined_step h e hj, ?_, hlt⟩
  have hst : s.rs.r.started = true := by
    have hled := hlink.ledger
    rw [ha] at hled
    exact hled.1
  have hnone : s.firstBase e = none := by
    unfold Link.firstBase
    split
    next => exact if_neg fun hc => Bool.noConfusion (hst.symm.trans hc.2)
    next => rfl
  rw [adopted_step hlink e, hnone, ha]
  rfl

theorem joinMissed_of_first (s : Link) (e : LinkEvent) (h : JoinInv c s)
    (hfirst : ¬ s.FirstOwed e) : (s.step c e).JoinMissed := by
  obtain ⟨S, hlink⟩ := h.link
  obtain ⟨base, hfirst⟩ := Classical.not_forall.mp hfirst
  obtain ⟨hb, hfirst⟩ := Classical.not_imp.mp hfirst
  obtain ⟨join, hfirst⟩ := Classical.not_forall.mp hfirst
  obtain ⟨hj, hlt⟩ := Classical.not_imp.mp hfirst
  refine ⟨join, base, joined_step h e hj, ?_, Nat.lt_of_not_le hlt⟩
  rw [adopted_step hlink e, hb]
  rfl

/-- Every seqno the writer lane owes from its join on, below the reader's position, was
delivered or reported lost, and the reader did not start past the join seqno. -/
def Link.OwedBooked (s : Link) : Prop :=
  ∀ join, s.joined = some join →
    (∀ base, s.adopted = some base → base ≤ join) ∧
    ∀ q, join ≤ q → q < s.rs.r.deliverUpto →
      (deliveries s.rs.fx).countP (fun d => d.span.covers q) +
        (losses s.rs.fx).countP (Span.covers q) = 1

/-- In every run, no sample the writer lane owes is lost silently if and only if the first
DATA every un-positioned reader is handed does not lie past the join seqno. -/
theorem join_owed_iff (c : LinkCfg) (es : List LinkEvent) :
    (Link.runs c es).OwedBooked ↔
      Along (Link.step c) Link.FirstOwed (Link.init c) es := by
  refine ⟨fun hbooked => ?_, fun halong => ?_⟩
  · have hor := run_along_or joinInv_step joinMissed_of_first
      joinMissed_step es _ (joinInv_init c)
    refine hor.resolve_right ?_
    rintro ⟨join, base, hj, ha, hlt⟩
    exact absurd ((hbooked join hj).1 base ha) (Nat.not_le.mpr hlt)
  · have hrun := run_invariant_along (fun s => JoinInv c s ∧ s.JoinKept)
      (fun s e h hp => ⟨joinInv_step s e h.1, joinKept_step s e h.1 h.2 hp⟩) es _
      ⟨joinInv_init c, fun join hj => by cases hj⟩ halong
    intro join hj
    refine ⟨hrun.2 join hj, fun q hlo hhi => ?_⟩
    obtain ⟨S, hlink⟩ := hrun.1.link
    have hled := hlink.ledger
    rw [← spans_countP]
    cases ha : (run (Link.step c) (Link.init c) es).adopted with
    | none =>
      -- an un-positioned reader passed nothing
      rw [ha] at hled
      have hzero : (Link.runs c es).rs.r.deliverUpto = 0 := (hlink.reader.idle hled.1).2.2.2
      omega
    | some base =>
      rw [ha] at hled
      exact tiles_countP hled.2 (Nat.le_trans (hrun.2 join hj base ha) hlo) hhi

/-! ## The silent loss -/

/-- A reliable topic that keeps four samples. -/
def overtakenTopic : Topic where
  qos := { reliability := .reliable, keepLast := 4, catchUp := 0, heartbeatUs := 1000
           repairDelayUs := 0, maxRateHz := 0, noTimestamp := true }
  identity := 1
  name := []
  role := .pubSub
  kind := .topic
  attrs := 0
  prefixBytes := 0
  directed := false
  retired := false
  gen := 0
  rebindVersion := 0
  sib := none
  history := List.replicate 4 .empty
  historyHead := 0
  nextSeqno := 0
  firstSeqno := 0
  freshFrom := 0
  haveFirst := false
  fresh := false
  matchedWriters := 0
  matchedReaders := 0
  laneChain := []
  repairStats := {}

/-- Both ends of it, with fragments of eight bytes. -/
def overtakenCfg : LinkCfg where
  frag := 8
  pub := overtakenTopic
  sub := overtakenTopic
  frag_pos := Nat.succ_pos 7
  frag_le := by omega
  pub_reliable := rfl
  pub_broadcast := rfl
  sub_reliable := rfl
  sub_broadcast := rfl
  keep_pos := by show 0 < 4; omega
  history_eq := rfl
  head_eq := rfl
  first_eq := rfl

/-- Both sides match, two samples go out, and the second one's DATA arrives first. -/
def overtakenRun : List LinkEvent :=
  [.matchWriter, .matchReader, .send [] [65] 0 0 {}, .send [] [66] 0 0 {},
    .pollWriter false false 1000 0, .pollWriter false false 1000 0,
    .toReader 1 {} {} 0, .toReader 0 {} {} 0]

/-- The reader starts at seqno 1, though the writer lane joined at 0: the first sample is
neither delivered nor reported lost, not even when its DATA arrives. -/
theorem overtaken_not_booked : ¬ (Link.runs overtakenCfg overtakenRun).OwedBooked := by
  intro h
  have hjoin : (Link.runs overtakenCfg overtakenRun).joined = some 0 := rfl
  have hbase : (Link.runs overtakenCfg overtakenRun).adopted = some 1 := rfl
  have hle := (h 0 hjoin).1 1 hbase
  omega

end Rant.Transport
