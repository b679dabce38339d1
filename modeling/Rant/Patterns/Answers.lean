import Rant.Patterns.Handling
/-!
# One answer a request

Two flags of a request (`replied`, `started`) and its place in the registry decide together who
answers it: a verb, the handler's return, a completion or a drain. `Kept` says what they and
the responses sent so far have to do with each other, for one request.

Every request that is over has exactly one terminal response, as long as every step is one that
`Answers`: what ends a call is accepted by the transport, and `rant_function_complete`, which
takes any status, is not given RUNNING. A step that is not leaves a request that nothing will
answer (`Inv.missed`).
-/

namespace Rant.Patterns

open Rant.Lib

namespace Service


/-- The statuses sent for request `k`, in order. -/
def statuses (s : Service) (k : Nat) : List UInt8 :=
  (s.responses.filter (·.call == k)).map Response.status

/-- Whether `k` is a live deferred call. -/
def live (s : Service) (k : Nat) : Bool := s.defers.any (·.serial == k)

/-- Whether request `k` still waits for its answer: the handler has it and has not answered, or
it is deferred and its token was not used up. -/
def isOpen (s : Service) (k : Nat) : Bool :=
  s.live k || (!(s.requests k).replied && (s.requests k).stage != .returned)

/-- Every request that is over has exactly one terminal response and no other has one, so a
token that was consumed means it was sent; and RUNNING is sent before all else, if at all. -/
structure OneAnswer (s : Service) (k : Nat) : Prop where
  terminal : ((s.statuses k).filter (· != callRunning)).length = if s.isOpen k then 0 else 1
  running : callRunning ∉ (s.statuses k).tail

/-- The condition of a step: what ends a call is accepted by the transport, and no completion
carries the status RUNNING, as the byte the wire has. -/
def Answers (s : Service) : ServiceEvent → Prop
  | .receive _ _ _ _ ok => s.queued = false → s.handler = false → ok = true
  | .dispatch _ ok => ∀ k rest, s.parked = .request k :: rest → s.handler = false → ok = true
  | .reply k _ ok | .fail k _ _ ok | .handlerReturn k ok =>
    (s.requests k).stage = .running → (s.requests k).replied = false → ok = true
  | .complete token status _ _ ok => token ≠ 0 → s.deferFind token ≠ none →
    ok = true ∧ UInt8.ofNat status ≠ callRunning
  | .drain _ ok => ∀ d ∈ s.defers, ok d.serial = true
  | _ => True

/-! ### What each request is at -/

/-- One request: the request, whether it is deferred, and what was sent for it. -/
structure Kept (r : Handed) (live : Bool) (sent : List UInt8) : Prop where
  /-- Still to be answered: at most RUNNING was sent. -/
  waiting : live = true ∨ r.replied = false ∧ r.stage ≠ .returned →
    sent = [] ∨ sent = [callRunning] ∧ r.started = true
  /-- Over: its terminal response is the last. -/
  «over» : live = false → r.replied = true ∨ r.stage = .returned →
    ∃ status, status ≠ callRunning ∧ (sent = [status] ∨ sent = [callRunning, status])
  deferred : live = true → r.replied = true
  fresh : r.stage = .waiting → r.replied = false ∧ r.started = false

/-- The invariant. -/
structure Inv (s : Service) : Prop where
  kept : ∀ k, Kept (s.requests k) (s.live k) (s.statuses k)
  nodup : (s.defers.map fun d => d.serial).Nodup
  parked : ∀ k ∈ s.parked.filterMap Rec.request?, k < s.received ∧
    (s.requests k).stage = .waiting
  once : (s.parked.filterMap Rec.request?).Nodup
  unborn : ∀ k, s.received ≤ k → s.requests k = {}

section

variable {r : Handed} {live : Bool} {sent : List UInt8}

/-- Nothing terminal was sent for a request that waits. -/
theorem Kept.no_terminal (h : Kept r live sent)
    (hopen : live = true ∨ r.replied = false ∧ r.stage ≠ .returned) :
    sent.filter (· != callRunning) = [] ∧ sent.tail = [] := by
  rcases h.waiting hopen with rfl | ⟨rfl, -⟩
  · exact ⟨rfl, rfl⟩
  · exact ⟨rfl, rfl⟩

/-- A request the handler has not answered is not deferred. -/
theorem Kept.not_live (h : Kept r live sent) (hr : r.replied = false) : live = false := by
  cases hl : live with
  | false => rfl
  | true => exact absurd ((h.deferred hl).symm.trans hr) Bool.true_eq_false.mp

/-- A terminal response ends it. -/
theorem Kept.end (h : Kept r live sent)
    (hopen : live = true ∨ r.replied = false ∧ r.stage ≠ .returned) {r' : Handed} {status : UInt8}
    (hstatus : status ≠ callRunning) (hover : r'.replied = true ∨ r'.stage = .returned)
    (hstage : r'.stage ≠ .waiting) : Kept r' false (sent ++ [status]) := by
  refine ⟨fun hw => ?_, fun _ _ => ⟨status, hstatus, ?_⟩, fun hl => Bool.noConfusion hl,
    fun hw => absurd hw hstage⟩
  · rcases hw with hw | ⟨hr, hs⟩
    · cases hw
    · rcases hover with hover | hover
      · rw [hover] at hr
        cases hr
      · exact absurd hover hs
  · rcases h.waiting hopen with rfl | ⟨rfl, -⟩
    · exact Or.inl rfl
    · exact Or.inr rfl

/-- RUNNING, once. -/
theorem Kept.start (h : Kept r live sent) (hr : r.replied = false) (hrun : r.stage = .running)
    (hs : r.started = false) (ok : Bool) :
    Kept { r with started := true } live (sent ++ if ok then [callRunning] else []) := by
  have hsent : sent = [] := by
    rcases h.waiting (Or.inr ⟨hr, by rw [hrun]; exact Stage.noConfusion⟩) with hsent | ⟨-, hst⟩
    · exact hsent
    · rw [hs] at hst
      cases hst
  rw [hsent]
  refine ⟨fun _ => ?_, fun _ hover => ?_, h.deferred, fun hw => ?_⟩
  · cases ok with
    | true => exact Or.inr ⟨rfl, rfl⟩
    | false => exact Or.inl rfl
  · rcases hover with hover | hover
    · exact absurd (hr.symm.trans hover) Bool.false_ne_true
    · exact absurd (hrun.symm.trans hover) Stage.noConfusion
  · exact absurd (hrun.symm.trans hw) Stage.noConfusion

/-- A defer moves it into the registry. -/
theorem Kept.defer (h : Kept r live sent) (hr : r.replied = false) (hrun : r.stage = .running) :
    Kept { r with replied := true } true sent :=
  ⟨fun _ => h.waiting (Or.inr ⟨hr, by rw [hrun]; exact Stage.noConfusion⟩),
    fun hl => Bool.noConfusion hl, fun _ => rfl,
    fun hw => absurd (hrun.symm.trans hw) Stage.noConfusion⟩

/-- The return of a handler that answered or deferred. -/
theorem Kept.return (h : Kept r live sent) (hr : r.replied = true) :
    Kept { r with stage := .returned } live sent := by
  refine ⟨fun hw => h.waiting ?_, fun hl _ => h.over hl (Or.inl hr), h.deferred,
    fun hw => Stage.noConfusion hw⟩
  rcases hw with hw | ⟨-, hno⟩
  · exact Or.inl hw
  · exact absurd rfl hno

/-- The handover. -/
theorem Kept.handover (h : Kept r live sent) (hw : r.stage = .waiting) (lo : Nat) :
    Kept { r with stage := .running, callerLo := lo } live sent := by
  obtain ⟨hr, hs⟩ := h.fresh hw
  refine ⟨fun _ => h.waiting (Or.inr ⟨hr, by rw [hw]; exact Stage.noConfusion⟩), fun hl hover => ?_,
    h.deferred, fun hx => Stage.noConfusion hx⟩
  rcases hover with hover | hover
  · exact absurd (hr.symm.trans hover) Bool.false_ne_true
  · cases hover

end

variable {s : Service}

theorem isOpen_iff (s : Service) (k : Nat) :
    s.isOpen k = true ↔
      s.live k = true ∨ (s.requests k).replied = false ∧ (s.requests k).stage ≠ .returned := by
  unfold isOpen
  rw [Bool.or_eq_true, Bool.and_eq_true, Bool.not_eq_true', bne_iff_ne]

variable {k : Nat}

/-- What the invariant says of a request. -/
theorem Kept.oneAnswer (h : Kept (s.requests k) (s.live k) (s.statuses k)) :
    s.OneAnswer k := by
  cases hopen : s.isOpen k with
  | true =>
    obtain ⟨hnone, htail⟩ := h.no_terminal ((isOpen_iff s k).mp hopen)
    refine ⟨?_, ?_⟩
    · rw [hnone, hopen]
      rfl
    · rw [htail]
      exact List.not_mem_nil
  | false =>
    have hover : ¬ (s.live k = true ∨
        (s.requests k).replied = false ∧ (s.requests k).stage ≠ .returned) := by
      rw [← isOpen_iff, hopen]
      exact Bool.false_ne_true
    rw [not_or, Bool.not_eq_true, not_and_or, Bool.not_eq_false, not_not] at hover
    obtain ⟨status, hne, hsent | hsent⟩ := h.over hover.1 hover.2
    · refine ⟨?_, ?_⟩
      · rw [hsent, hopen, List.filter_cons_of_pos (by simpa using hne)]
        rfl
      · rw [hsent]
        exact List.not_mem_nil
    · refine ⟨?_, ?_⟩
      · rw [hsent, hopen, List.filter_cons_of_neg (by simp), List.filter_cons_of_pos
          (by simpa using hne)]
        rfl
      · rw [hsent, List.tail_cons, List.mem_singleton]
        exact hne.symm

/-- A request that is over with nothing but RUNNING sent is not answered. -/
theorem not_oneAnswer (hlive : s.live k = false)
    (hover : (s.requests k).replied = true ∨ (s.requests k).stage = .returned)
    (hsent : (s.statuses k).filter (· != callRunning) = []) : ¬ s.OneAnswer k := by
  intro h
  have hclosed : s.isOpen k = false := by
    rw [← Bool.not_eq_true, isOpen_iff, not_or, Bool.not_eq_true, not_and_or, Bool.not_eq_false,
      not_not]
    exact ⟨hlive, hover⟩
  have hlen := h.terminal
  rw [hsent, hclosed] at hlen
  cases hlen

/-! ### What the parts of a step change -/

section

variable (s : Service)

@[simp] theorem requests_setReq (k : Nat) (r : Handed) (j : Nat) :
    (s.setReq k r).requests j = if j = k then r else s.requests j := rfl

@[simp] theorem live_setReq (k : Nat) (r : Handed) (j : Nat) :
    (s.setReq k r).live j = s.live j := rfl

@[simp] theorem statuses_setReq (k : Nat) (r : Handed) (j : Nat) :
    (s.setReq k r).statuses j = s.statuses j := rfl

@[simp] theorem requests_sendReply (k caller callId : Nat) (status : UInt8)
    (message body : List UInt8) (ok : Bool) :
    (s.sendReply k caller callId status message body ok).requests = s.requests := by
  unfold sendReply
  split <;> rfl

@[simp] theorem defers_sendReply (k caller callId : Nat) (status : UInt8)
    (message body : List UInt8) (ok : Bool) :
    (s.sendReply k caller callId status message body ok).defers = s.defers := by
  unfold sendReply
  split <;> rfl

@[simp] theorem live_sendReply (k caller callId : Nat) (status : UInt8)
    (message body : List UInt8) (ok : Bool) (j : Nat) :
    (s.sendReply k caller callId status message body ok).live j = s.live j := by
  unfold live
  rw [defers_sendReply]

@[simp] theorem parked_sendReply (k caller callId : Nat) (status : UInt8)
    (message body : List UInt8) (ok : Bool) :
    (s.sendReply k caller callId status message body ok).parked = s.parked := by
  unfold sendReply
  split <;> rfl

@[simp] theorem received_sendReply (k caller callId : Nat) (status : UInt8)
    (message body : List UInt8) (ok : Bool) :
    (s.sendReply k caller callId status message body ok).received = s.received := by
  unfold sendReply
  split <;> rfl

/-- A reply adds its status to what was sent for its request. -/
theorem statuses_sendReply (k caller callId : Nat) (status : UInt8) (message body : List UInt8)
    (ok : Bool) (j : Nat) :
    (s.sendReply k caller callId status message body ok).statuses j =
      s.statuses j ++ if ok = true ∧ j = k then [status] else [] := by
  unfold sendReply
  cases ok with
  | false => simp
  | true =>
    rw [if_pos rfl]
    unfold statuses
    rw [List.filter_append, List.map_append]
    congr 1
    by_cases hj : j = k
    · rw [if_pos ⟨rfl, hj⟩, hj, List.filter_cons_of_pos (by simp)]
      rfl
    · rw [if_neg fun h => hj h.2, List.filter_cons_of_neg (by simpa using fun h => hj h.symm)]
      rfl

end

/-- What a step about one request leaves as it was. -/
structure Beside (k : Nat) (s s' : Service) : Prop where
  requests : ∀ j, j ≠ k → s'.requests j = s.requests j
  live : ∀ j, j ≠ k → s'.live j = s.live j
  statuses : ∀ j, j ≠ k → s'.statuses j = s.statuses j
  parked : s'.parked = s.parked
  received : s'.received = s.received

theorem Beside.trans {t u : Service} (h : s.Beside k t) (h' : t.Beside k u) :
    s.Beside k u :=
  ⟨fun j hj => (h'.requests j hj).trans (h.requests j hj),
    fun j hj => (h'.live j hj).trans (h.live j hj),
    fun j hj => (h'.statuses j hj).trans (h.statuses j hj), h'.parked.trans h.parked,
    h'.received.trans h.received⟩

theorem beside_setReq (s : Service) (k : Nat) (r : Handed) : s.Beside k (s.setReq k r) :=
  ⟨fun j hj => by rw [requests_setReq, if_neg hj], fun _ _ => rfl, fun _ _ => rfl, rfl, rfl⟩

theorem beside_sendReply (s : Service) (k caller callId : Nat) (status : UInt8)
    (message body : List UInt8) (ok : Bool) :
    s.Beside k (s.sendReply k caller callId status message body ok) := by
  refine ⟨fun j _ => by rw [requests_sendReply], fun j _ => ?_, fun j hj => ?_,
    parked_sendReply .., received_sendReply ..⟩
  · rw [live_sendReply]
  · rw [statuses_sendReply, if_neg fun h => hj h.2, List.append_nil]

/-- The handler has it: its record is not parked. -/
theorem Inv.running (h : s.Inv) (hrun : (s.requests k).stage = .running) :
    k ∉ s.parked.filterMap Rec.request? ∧ k < s.received := by
  refine ⟨fun hk => ?_, Nat.lt_of_not_le fun hk => ?_⟩
  · exact absurd (hrun.symm.trans (h.parked k hk).2) Stage.noConfusion
  · rw [h.unborn k hk] at hrun
    cases hrun

/-- A step about one request keeps the invariant where it keeps that request's part. -/
theorem Inv.touch (h : s.Inv) {s' : Service} (hb : s.Beside k s')
    (hk : Kept (s'.requests k) (s'.live k) (s'.statuses k))
    (hn : (s'.defers.map fun d => d.serial).Nodup)
    (hw : (k ∉ s.parked.filterMap Rec.request? ∧ k < s.received) ∨
      s'.requests k = s.requests k) : s'.Inv := by
  have hreq : ∀ j, j ∈ s.parked.filterMap Rec.request? ∨ s.received ≤ j →
      s'.requests j = s.requests j := by
    intro j hj
    by_cases hjk : j = k
    · rw [hjk] at hj ⊢
      rcases hw with ⟨hnot, hlt⟩ | hw
      · rcases hj with hj | hj
        · exact absurd hj hnot
        · exact absurd hlt (Nat.not_lt.mpr hj)
      · exact hw
    · exact hb.requests j hjk
  refine ⟨fun j => ?_, hn, fun j hj => ?_, ?_, fun j hj => ?_⟩
  · by_cases hjk : j = k
    · rw [hjk]
      exact hk
    · rw [hb.requests j hjk, hb.live j hjk, hb.statuses j hjk]
      exact h.kept j
  · rw [hb.parked] at hj
    rw [hb.received, hreq j (Or.inl hj)]
    exact h.parked j hj
  · rw [hb.parked]
    exact h.once
  · rw [hb.received] at hj
    rw [hreq j (Or.inr hj)]
    exact h.unborn j hj

/-! ### The steps -/

theorem Inv.start (h : s.Inv) (hrun : (s.requests k).stage = .running) (ok : Bool) :
    (s.start k ok).Inv := by
  unfold Service.start
  split
  next => exact h
  next hno =>
    split
    next => exact h
    next hs =>
      have hr : (s.requests k).replied = false := by
        simp only [Bool.or_eq_true, not_or, Bool.not_eq_true] at hno
        exact hno.2
      unfold replyTo
      refine h.touch (k := k) ((beside_setReq s k _).trans (beside_sendReply ..)) ?_ ?_ ?_
      · have hkept := (h.kept k).start hr hrun (by simpa using hs) ok
        rw [requests_sendReply, requests_setReq, if_pos rfl, statuses_sendReply, statuses_setReq,
          live_sendReply, live_setReq]
        simpa using hkept
      · rw [defers_sendReply]
        exact h.nodup
      · exact Or.inl (h.running hrun)

/-- A terminal response of a request the handler has, which its new state says is over. -/
theorem Inv.reply (h : s.Inv) (hrun : (s.requests k).stage = .running)
    (hr : (s.requests k).replied = false) {r : Handed} {status : UInt8}
    (hstatus : status ≠ callRunning) (hover : r.replied = true ∨ r.stage = .returned)
    (hstage : r.stage ≠ .waiting) (message body : List UInt8) :
    ((s.setReq k r).replyTo k status message body true).Inv := by
  unfold replyTo
  have hopen : s.live k = true ∨ (s.requests k).replied = false ∧ (s.requests k).stage ≠ .returned :=
    Or.inr ⟨hr, by rw [hrun]; exact Stage.noConfusion⟩
  have hkept := (h.kept k).end hopen hstatus hover hstage
  have hlive := (h.kept k).not_live hr
  refine h.touch (k := k) ((beside_setReq s k _).trans (beside_sendReply ..)) ?_ ?_ ?_
  · rw [requests_sendReply, requests_setReq, if_pos rfl, statuses_sendReply, statuses_setReq,
      live_sendReply, live_setReq, if_pos ⟨rfl, rfl⟩, hlive]
    exact hkept
  · rw [defers_sendReply]
    exact h.nodup
  · exact Or.inl (h.running hrun)

variable {ok : Bool}

theorem Inv.answer (h : s.Inv) (hrun : (s.requests k).stage = .running) {status : UInt8}
    (hstatus : status ≠ callRunning) (message body : List UInt8)
    (hok : (s.requests k).replied = false → ok = true) :
    (s.answer k status message body ok).Inv := by
  unfold Service.answer
  split
  next => exact h
  next hr =>
    rw [Bool.not_eq_true] at hr
    rw [hok hr]
    refine h.reply hrun hr hstatus (Or.inl rfl) ?_ message body
    intro hw
    exact absurd (hrun.symm.trans hw) Stage.noConfusion

theorem Inv.handlerReturn (h : s.Inv) (hrun : (s.requests k).stage = .running)
    (hok : (s.requests k).replied = false → ok = true) : (s.handlerReturn k ok).Inv := by
  unfold Service.handlerReturn
  dsimp only
  split
  next hr =>
    refine h.touch (k := k) (beside_setReq s k _) ?_ h.nodup ?_
    · rw [requests_setReq, if_pos rfl]
      exact (h.kept k).return hr
    · exact Or.inl (h.running hrun)
  next hr =>
    rw [Bool.not_eq_true] at hr
    rw [hok hr]
    split
    next => exact h.reply hrun hr (by decide) (Or.inr rfl) Stage.noConfusion noResult []
    next => exact h.reply hrun hr (by decide) (Or.inr rfl) Stage.noConfusion [] []

variable {d : Deferral}

/-- A defer of a request that is running and not answered. -/
theorem Inv.push (h : s.Inv) (hrun : (s.requests k).stage = .running)
    (hr : (s.requests k).replied = false) (hd : d.serial = k) :
    Inv { s.setReq k { s.requests k with replied := true } with defers := d :: s.defers } := by
  have hkept := (h.kept k).defer hr hrun
  have hlive := (h.kept k).not_live hr
  refine h.touch (k := k) ⟨fun j hj => ?_, fun j hj => ?_, fun _ _ => rfl, rfl, rfl⟩ ?_ ?_ ?_
  · rw [requests_setReq, if_neg hj]
  · unfold live
    dsimp only
    rw [List.any_cons, hd, beq_eq_false_iff_ne.mpr (Ne.symm hj), Bool.false_or]
  · have hl : live { s.setReq k { s.requests k with replied := true } with
        defers := d :: s.defers } k = true := by
      unfold live
      dsimp only
      rw [List.any_cons, hd, beq_self_eq_true, Bool.true_or]
    rw [hl]
    dsimp only
    rw [requests_setReq, if_pos rfl]
    exact hkept
  · dsimp only
    rw [List.map_cons, hd, List.nodup_cons]
    refine ⟨fun hmem => ?_, h.nodup⟩
    obtain ⟨e, he, hek⟩ := List.mem_map.mp hmem
    unfold live at hlive
    rw [List.any_eq_false] at hlive
    exact hlive e he (beq_iff_eq.mpr hek)
  · exact Or.inl (h.running hrun)

theorem requests_start (s : Service) (k : Nat) (ok : Bool) :
    ((s.start k ok).requests k).stage = (s.requests k).stage ∧
      ((s.start k ok).requests k).replied = (s.requests k).replied := by
  unfold Service.start replyTo
  split
  next => exact ⟨rfl, rfl⟩
  split
  next => exact ⟨rfl, rfl⟩
  next =>
    rw [requests_sendReply, requests_setReq, if_pos rfl]
    exact ⟨rfl, rfl⟩

theorem Inv.defer (h : s.Inv) (hrun : (s.requests k).stage = .running)
    (ptr : Option Nat) (ok : Bool) : (s.defer k ptr ok).Inv := by
  unfold Service.defer
  split
  next => exact h
  next hr =>
    rw [Bool.not_eq_true] at hr
    obtain ⟨t, ht⟩ : ∃ t, t = if s.isTask && !(s.requests k).started then s.start k ok else s :=
      ⟨_, rfl⟩
    have hinv : t.Inv ∧ (t.requests k).stage = .running ∧ (t.requests k).replied = false := by
      rw [ht]
      split
      next =>
        obtain ⟨hst, hre⟩ := requests_start s k ok
        exact ⟨h.start hrun ok, hst.trans hrun, hre.trans hr⟩
      next => exact ⟨h, hrun, hr⟩
    dsimp only
    rw [← ht]
    cases ptr with
    | none => exact hinv.1
    | some ptr => exact hinv.1.push hinv.2.1 hinv.2.2 rfl

/-- The registry without the defer of a token. -/
theorem live_erase (h : (s.defers.map fun d => d.serial).Nodup) {token : Nat}
    (hd : s.deferFind token = some d) (j : Nat) :
    (s.defers.eraseP (·.ptr == token)).any (·.serial == j) =
      (s.live j && j != d.serial) := by
  unfold deferFind at hd
  unfold live
  obtain ⟨l, r, hl, hpre, hp⟩ : ∃ l r, s.defers = l ++ d :: r ∧ (∀ e ∈ l, ¬ e.ptr == token) ∧
      (d.ptr == token) = true := by
    obtain ⟨hp, l, r, hl, hpre⟩ := List.find?_eq_some_iff_append.mp hd
    exact ⟨l, r, hl, fun e he => by simpa using hpre e he, hp⟩
  rw [hl] at h ⊢
  rw [List.eraseP_append_right _ (fun e he => hpre e he),
    List.eraseP_cons_of_pos (p := fun e : Deferral => e.ptr == token) hp]
  rw [List.map_append, List.map_cons, List.nodup_middle, List.nodup_cons] at h
  rw [List.any_append, List.any_append, List.any_cons]
  by_cases hj : j = d.serial
  · have hnone : (l.any (·.serial == j) || r.any (·.serial == j)) = false := by
      rw [← List.any_append, List.any_eq_false]
      intro e he heq
      refine h.1 (List.mem_append.mpr ?_)
      rw [← List.mem_append, ← List.map_append]
      exact List.mem_map.mpr ⟨e, he, (beq_iff_eq.mp heq).trans hj⟩
    rw [hnone, hj, bne_self_eq_false, Bool.and_false]
  · rw [beq_eq_false_iff_ne.mpr (Ne.symm hj), Bool.false_or, bne_iff_ne.mpr hj, Bool.and_true]

theorem Inv.complete (h : s.Inv) (token status : Nat) (message body : List UInt8)
    (hok : token ≠ 0 → s.deferFind token ≠ none → ok = true ∧ UInt8.ofNat status ≠ callRunning) :
    (s.complete token status message body ok).Inv := by
  unfold Service.complete
  split
  next => exact h
  next h0 =>
    split
    next => exact h
    next d hd =>
      obtain ⟨rfl, hstatus⟩ := hok h0 (by rw [hd]; exact Option.some_ne_none d)
      have hlive : ∀ j, _ := live_erase h.nodup hd
      have hd' : d ∈ s.defers := List.mem_of_find?_eq_some hd
      have hdl : s.live d.serial = true := List.any_eq_true.mpr ⟨d, hd', beq_self_eq_true _⟩
      have hkept := (h.kept d.serial).end (Or.inl hdl) hstatus
        (Or.inl ((h.kept d.serial).deferred hdl)) fun hw => by
          have := (h.kept d.serial).fresh hw
          rw [(h.kept d.serial).deferred hdl] at this
          cases this.1
      have hb : s.Beside d.serial { s with defers := s.defers.eraseP (·.ptr == token) } := by
        refine ⟨fun _ _ => rfl, fun j hj => ?_, fun _ _ => rfl, rfl, rfl⟩
        show (s.defers.eraseP (·.ptr == token)).any (·.serial == j) = _
        rw [hlive j, bne_iff_ne.mpr hj, Bool.and_true]
      refine h.touch (k := d.serial) (hb.trans (beside_sendReply ..)) ?_ ?_
        (Or.inr (by rw [requests_sendReply]))
      · rw [requests_sendReply, live_sendReply, statuses_sendReply, if_pos ⟨rfl, rfl⟩]
        have hgone : live { s with defers := s.defers.eraseP (·.ptr == token) } d.serial = false := by
          show (s.defers.eraseP (·.ptr == token)).any (·.serial == d.serial) = _
          rw [hlive, bne_self_eq_false, Bool.and_false]
        rw [hgone]
        exact hkept
      · rw [defers_sendReply]
        exact (List.Sublist.map _ List.eraseP_sublist).nodup h.nodup

/-- What a drain sends for one request. -/
theorem drained_statuses (message : List UInt8) (ok : Nat → Bool) (j : Nat) :
    ∀ (l : List Deferral), (l.map fun d => d.serial).Nodup →
      ((l.filterMap fun d =>
        if ok d.serial then
          some ({ call := d.serial, dest := d.caller, body := []
                  header := rspHeader d.callId callCancelled message } : Response)
        else none).filter (·.call == j)).map Response.status =
        if l.any (·.serial == j) && ok j then [callCancelled] else []
  | [], _ => rfl
  | d :: l, h => by
    rw [List.map_cons, List.nodup_cons] at h
    have ih := drained_statuses message ok j l h.2
    by_cases hj : d.serial = j
    · have hnone : l.any (·.serial == j) = false := by
        rw [List.any_eq_false]
        intro e he heq
        exact h.1 (List.mem_map.mpr ⟨e, he, (beq_iff_eq.mp heq).trans hj.symm⟩)
      rw [hnone] at ih
      rw [List.any_cons, hj, beq_self_eq_true, Bool.true_or, Bool.true_and, List.filterMap_cons, hj]
      cases hok : ok j with
      | true =>
        rw [if_pos rfl]
        dsimp only
        rw [List.filter_cons_of_pos (by simp), List.map_cons, ih]
        rfl
      | false =>
        rw [if_neg Bool.false_ne_true]
        dsimp only
        rw [ih]
        rfl
    · rw [List.any_cons, beq_eq_false_iff_ne.mpr hj, Bool.false_or, ← ih, List.filterMap_cons]
      split
      next => rfl
      next hsome =>
        split at hsome
        next =>
          cases hsome
          rw [List.filter_cons_of_neg (by simpa using hj)]
        next => cases hsome

theorem statuses_drain (h : (s.defers.map fun d => d.serial).Nodup) (message : List UInt8)
    (ok : Nat → Bool) (j : Nat) :
    (s.drainDefers message ok).statuses j =
      s.statuses j ++ if s.live j && ok j then [callCancelled] else [] := by
  unfold drainDefers statuses
  dsimp only
  rw [List.filter_append, List.map_append, drained_statuses message ok j s.defers h]
  rfl

theorem Inv.drain (h : s.Inv) (message : List UInt8) {ok : Nat → Bool}
    (hok : ∀ d ∈ s.defers, ok d.serial = true) : (s.drainDefers message ok).Inv := by
  refine ⟨fun k => ?_, List.nodup_nil, h.parked, h.once, h.unborn⟩
  rw [statuses_drain h.nodup]
  show Kept (s.requests k) false _
  cases hl : s.live k with
  | false =>
    rw [Bool.false_and, if_neg Bool.false_ne_true, List.append_nil, ← hl]
    exact h.kept k
  | true =>
    have hsend : ok k = true := by
      obtain ⟨d, hd, hk⟩ := List.any_eq_true.mp hl
      rw [← beq_iff_eq.mp hk]
      exact hok d hd
    rw [hsend, Bool.true_and, if_pos rfl]
    refine (h.kept k).end (Or.inl hl) (by decide) (Or.inl ((h.kept k).deferred hl)) fun hw => ?_
    have := ((h.kept k).fresh hw).1
    rw [(h.kept k).deferred hl] at this
    cases this

/-! ### The ops -/

/-- A flag of a defer is no part of whose it is. -/
theorem serial_change (lo callId : Nat) {f : Deferral → Deferral}
    (hf : ∀ d, (f d).serial = d.serial) : ∀ l : List Deferral,
      (change lo callId f l).map (fun d => d.serial) = l.map fun d => d.serial
  | [] => rfl
  | d :: l => by
    unfold change
    split
    next => rw [List.map_cons, List.map_cons, hf]
    next => rw [List.map_cons, List.map_cons, serial_change lo callId hf l]

/-- Same registry, up to flags. -/
theorem Inv.flags (h : s.Inv) {l : List Deferral}
    (hl : (l.map fun d => d.serial) = s.defers.map fun d => d.serial) (told : List Nat) :
    Inv { s with defers := l, told := told } := by
  have hlive : ∀ k, live { s with defers := l, told := told } k = s.live k := by
    intro k
    have hany : ∀ m : List Deferral, m.any (·.serial == k) =
        (m.map fun d => d.serial).any (· == k) := fun m => by
      rw [List.any_map]
      rfl
    unfold live
    rw [hany, hany s.defers, hl]
  refine ⟨fun k => ?_, ?_, h.parked, h.once, h.unborn⟩
  · rw [hlive]
    exact h.kept k
  · rw [hl]
    exact h.nodup

theorem Inv.cancelOp (h : s.Inv) (lo callId : Nat) (named : Bool) :
    (s.cancelOp lo callId named).Inv := by
  unfold Service.cancelOp
  split
  next => exact h
  next d _ =>
    split
    next => exact h
    have hmark := h.flags
      (serial_change lo callId (f := fun d => { d with cancelled := true }) (fun _ => rfl) s.defers)
      s.told
    split
    next => exact hmark
    split
    next =>
      have hsame : (s.parked ++ [Rec.cancel lo callId named d.serial]).filterMap Rec.request? =
          s.parked.filterMap Rec.request? := by
        rw [List.filterMap_append]
        exact List.append_nil _
      refine ⟨hmark.kept, hmark.nodup, ?_, ?_, hmark.unborn⟩
      · show ∀ k ∈ (s.parked ++ [Rec.cancel lo callId named d.serial]).filterMap Rec.request?, _
        rw [hsame]
        exact h.parked
      · show ((s.parked ++ [Rec.cancel lo callId named d.serial]).filterMap Rec.request?).Nodup
        rw [hsame]
        exact h.once
    next =>
      exact h.flags (serial_change lo callId
        (f := fun d => { d with cancelled := true, notified := true }) (fun _ => rfl) s.defers) _

theorem Inv.runCancel (h : s.Inv) (lo callId : Nat) : (s.runCancel lo callId).Inv := by
  unfold Service.runCancel
  split
  next => exact h
  split
  next => exact h
  next =>
    exact h.flags (serial_change lo callId (f := fun d => { d with notified := true })
      (fun _ => rfl) s.defers) _

/-! ### The handover -/

theorem Inv.runRequest (h : s.Inv) (hw : (s.requests k).stage = .waiting)
    (hk : k ∉ s.parked.filterMap Rec.request? ∧ k < s.received) (known : Bool)
    (hok : s.handler = false → ok = true) : (s.runRequest k known ok).Inv := by
  unfold Service.runRequest
  dsimp only
  split
  next =>
    refine h.touch (k := k) (beside_setReq s k _) ?_ h.nodup (Or.inl hk)
    rw [requests_setReq, if_pos rfl]
    exact (h.kept k).handover hw _
  next hno =>
    rw [hok (by rw [← Bool.not_eq_true]; exact hno)]
    unfold replyTo
    obtain ⟨hr, -⟩ := (h.kept k).fresh hw
    have hlive := (h.kept k).not_live hr
    refine h.touch (k := k) ((beside_setReq s k _).trans (beside_sendReply ..)) ?_ ?_ (Or.inl hk)
    · rw [requests_sendReply, requests_setReq, if_pos rfl, statuses_sendReply, statuses_setReq,
        live_sendReply, live_setReq, if_pos (And.intro rfl rfl), hlive]
      have hopen : (s.requests k).stage ≠ .returned := by
        rw [hw]
        exact Stage.noConfusion
      have hstatus : callNoHandler ≠ callRunning := by decide
      refine (h.kept k).end (Or.inr ⟨hr, hopen⟩) hstatus (Or.inl rfl) fun hx => ?_
      cases hx
    · rw [defers_sendReply]
      exact h.nodup

/-- The ring without its oldest record. -/
theorem Inv.pop (h : s.Inv) {x : Rec} {rest : List Rec} (hp : s.parked = x :: rest) :
    Inv { s with parked := rest } := by
  have hsub : (rest.filterMap Rec.request?).Sublist (s.parked.filterMap Rec.request?) := by
    rw [hp]
    exact List.Sublist.filterMap _ (List.sublist_cons_self x rest)
  exact ⟨h.kept, h.nodup, fun k hk => h.parked k (hsub.subset hk), hsub.nodup h.once, h.unborn⟩

theorem Inv.dispatch (h : s.Inv) (known : Bool)
    (hok : ∀ k rest, s.parked = .request k :: rest → s.handler = false → ok = true) :
    (s.dispatch known ok).Inv := by
  unfold Service.dispatch
  split
  next => exact h
  next k rest hp =>
    have hparked : s.parked.filterMap Rec.request? = k :: rest.filterMap Rec.request? := by
      rw [hp]
      rfl
    have honce := h.once
    rw [hparked, List.nodup_cons] at honce
    have hmem : k ∈ s.parked.filterMap Rec.request? := by
      rw [hparked]
      exact List.mem_cons_self
    obtain ⟨hlt, hw⟩ := h.parked k hmem
    exact (h.pop hp).runRequest hw ⟨honce.1, hlt⟩ known (hok k rest hp)
  next hp => exact (h.pop hp).runCancel _ _

/-- A request that was received. -/
theorem Inv.accept (h : s.Inv) (caller lo callId : Nat) :
    Inv { s.setReq s.received { caller := caller, lo := lo, callId := callId } with
      received := s.received + 1 } := by
  have hnew := h.kept s.received
  rw [h.unborn _ (Nat.le_refl _)] at hnew
  refine ⟨fun j => ?_, h.nodup, fun j hj => ?_, h.once, fun j hj => ?_⟩
  · show Kept (if j = s.received then _ else s.requests j) _ _
    split
    next hj =>
      rw [hj]
      exact ⟨hnew.waiting, hnew.over, hnew.deferred, hnew.fresh⟩
    next => exact h.kept j
  · obtain ⟨hlt, hw⟩ := h.parked j hj
    refine ⟨Nat.lt_succ_of_lt hlt, ?_⟩
    show (if j = s.received then _ else s.requests j : Handed).stage = _
    rw [if_neg (Nat.ne_of_lt hlt)]
    exact hw
  · show (if j = s.received then _ else s.requests j : Handed) = {}
    have hlt : s.received < j := hj
    rw [if_neg (Nat.ne_of_gt hlt)]
    exact h.unborn j (Nat.le_of_lt hlt)

theorem Inv.onRequest (h : s.Inv) (caller lo callId : Nat) (known : Bool)
    (hok : s.queued = false → s.handler = false → ok = true) :
    (s.onRequest caller lo callId known ok).Inv := by
  have hacc := h.accept caller lo callId
  have hfresh : s.received ∉ s.parked.filterMap Rec.request? := fun hmem =>
    Nat.lt_irrefl _ (h.parked _ hmem).1
  unfold Service.onRequest
  dsimp only
  split
  next =>
    have hpark : (s.parked ++ [Rec.request s.received]).filterMap Rec.request? =
        s.parked.filterMap Rec.request? ++ [s.received] := by
      rw [List.filterMap_append]
      rfl
    refine ⟨hacc.kept, hacc.nodup, ?_, ?_, hacc.unborn⟩
    · show ∀ k ∈ (s.parked ++ [Rec.request s.received]).filterMap Rec.request?, _
      rw [hpark]
      intro k hk
      rcases List.mem_append.mp hk with hk | hk
      · exact hacc.parked k hk
      · rw [List.mem_singleton.mp hk]
        refine ⟨Nat.lt_succ_self _, ?_⟩
        show (if s.received = s.received then _ else s.requests s.received : Handed).stage = _
        rw [if_pos rfl]
    · show ((s.parked ++ [Rec.request s.received]).filterMap Rec.request?).Nodup
      rw [hpark, List.nodup_append]
      refine ⟨h.once, List.nodup_singleton _, ?_⟩
      intro a ha b hb hab
      rw [List.mem_singleton.mp hb] at hab
      rw [hab] at ha
      exact hfresh ha
  next hq =>
    refine hacc.runRequest ?_ ⟨hfresh, Nat.lt_succ_self _⟩ known
      (hok (by rw [← Bool.not_eq_true]; exact hq))
    show (if s.received = s.received then _ else s.requests s.received : Handed).stage = _
    rw [if_pos rfl]

theorem Inv.step (h : s.Inv) (e : ServiceEvent) (he : s.Answers e) : (s.step e).Inv := by
  have hduring : ∀ {k : Nat} {s' : Service},
      ((s.requests k).stage = .running → s'.Inv) → (s.during k s').Inv := by
    intro k s' hs'
    unfold during
    split
    next hrun => exact hs' hrun
    next => exact h
  cases e with
  | receive caller lo callId known ok => exact h.onRequest caller lo callId known he
  | cancelOp lo callId named =>
    show (if s.isTask then s.cancelOp lo callId named else s).Inv
    split
    next => exact h.cancelOp lo callId named
    next => exact h
  | dispatch known ok => exact h.dispatch known he
  | start k ok => exact hduring fun hrun => h.start hrun ok
  | reply k body ok => exact hduring fun hrun => h.answer hrun (by decide) [] body (he hrun)
  | fail k message body ok =>
    exact hduring fun hrun => h.answer hrun (by decide) message body (he hrun)
  | defer k ptr ok => exact hduring fun hrun => h.defer hrun ptr ok
  | handlerReturn k ok => exact hduring fun hrun => h.handlerReturn hrun (he hrun)
  | complete token status message body ok => exact h.complete token status message body he
  | progress token body ok =>
    show (s.progress token body ok).Inv
    unfold Service.progress
    split
    next => exact h
    split
    next => exact h
    split
    next => exact ⟨h.kept, h.nodup, h.parked, h.once, h.unborn⟩
    next => exact h
  | drain message ok => exact h.drain message he

/-! ### The steps that leave a request unanswered -/

/-- A reply the transport refuses, to a request that is over with it. -/
theorem Inv.lost (h : s.Inv) {r : Handed} (hr : (s.requests k).replied = false)
    (hs : (s.requests k).stage ≠ .returned) (hover : r.replied = true ∨ r.stage = .returned)
    (status : UInt8) (message body : List UInt8) :
    ¬ ((s.setReq k r).replyTo k status message body false).OneAnswer k := by
  unfold replyTo
  refine not_oneAnswer ?_ ?_ ?_
  · rw [live_sendReply, live_setReq]
    exact (h.kept k).not_live hr
  · rw [requests_sendReply, requests_setReq, if_pos rfl]
    exact hover
  · rw [statuses_sendReply, statuses_setReq, if_neg fun hx => Bool.noConfusion hx.1,
      List.append_nil]
    exact ((h.kept k).no_terminal (Or.inr ⟨hr, hs⟩)).1

theorem Inv.answer_lost (h : s.Inv) (hrun : (s.requests k).stage = .running)
    (hr : (s.requests k).replied = false) (status : UInt8) (message body : List UInt8) :
    ¬ (s.answer k status message body false).OneAnswer k := by
  unfold Service.answer
  rw [if_neg (by rw [hr]; exact Bool.false_ne_true)]
  exact h.lost hr (by rw [hrun]; exact Stage.noConfusion) (Or.inl rfl) status message body

theorem Inv.return_lost (h : s.Inv) (hrun : (s.requests k).stage = .running)
    (hr : (s.requests k).replied = false) : ¬ (s.handlerReturn k false).OneAnswer k := by
  unfold Service.handlerReturn
  dsimp only
  rw [if_neg (by rw [hr]; exact Bool.false_ne_true)]
  have hs : (s.requests k).stage ≠ .returned := by
    rw [hrun]
    exact Stage.noConfusion
  split
  next => exact h.lost hr hs (Or.inr rfl) callAppError noResult []
  next => exact h.lost hr hs (Or.inr rfl) callOk [] []

theorem Inv.run_lost (h : s.Inv) (hw : (s.requests k).stage = .waiting)
    (hh : s.handler = false) (known : Bool) : ¬ (s.runRequest k known false).OneAnswer k := by
  unfold Service.runRequest
  dsimp only
  rw [if_neg (by rw [hh]; exact Bool.false_ne_true)]
  exact h.lost ((h.kept k).fresh hw).1 (by rw [hw]; exact Stage.noConfusion) (Or.inl rfl)
    callNoHandler [] []

/-- A completion that is refused, or says RUNNING. -/
theorem Inv.complete_lost (h : s.Inv) {token status : Nat} (message body : List UInt8)
    (h0 : token ≠ 0) (hd : s.deferFind token = some d)
    (hno : ¬ (ok = true ∧ UInt8.ofNat status ≠ callRunning)) :
    ¬ (s.complete token status message body ok).OneAnswer d.serial := by
  have hdl : s.live d.serial = true :=
    List.any_eq_true.mpr ⟨d, List.mem_of_find?_eq_some hd, beq_self_eq_true _⟩
  unfold Service.complete
  rw [if_neg h0, hd]
  refine not_oneAnswer ?_ ?_ ?_
  · rw [live_sendReply]
    show (s.defers.eraseP (·.ptr == token)).any (·.serial == d.serial) = _
    rw [live_erase h.nodup hd, bne_self_eq_false, Bool.and_false]
  · rw [requests_sendReply]
    exact Or.inl ((h.kept d.serial).deferred hdl)
  · rw [statuses_sendReply, List.filter_append]
    show (s.statuses d.serial).filter _ ++ _ = _
    rw [((h.kept d.serial).no_terminal (Or.inl hdl)).1, List.nil_append]
    split
    next hok =>
      have hrunning : UInt8.ofNat status = callRunning := by
        by_contra hne
        exact hno ⟨hok.1, hne⟩
      rw [hrunning]
      rfl
    next => rfl

theorem Inv.drain_lost (h : s.Inv) (message : List UInt8) {ok : Nat → Bool}
    (hd : d ∈ s.defers) (hno : ok d.serial = false) :
    ¬ (s.drainDefers message ok).OneAnswer d.serial := by
  have hdl : s.live d.serial = true := List.any_eq_true.mpr ⟨d, hd, beq_self_eq_true _⟩
  refine not_oneAnswer rfl (Or.inl ((h.kept d.serial).deferred hdl)) ?_
  rw [statuses_drain h.nodup, hno, Bool.and_false, if_neg Bool.false_ne_true, List.append_nil]
  exact ((h.kept d.serial).no_terminal (Or.inl hdl)).1

/-- A step that misses the condition leaves a request over and unanswered. -/
theorem Inv.missed (h : s.Inv) (e : ServiceEvent) (he : ¬ s.Answers e) :
    ∃ k, ¬ (s.step e).OneAnswer k := by
  have hverb : ∀ {k : Nat} {ok : Bool},
      ¬ ((s.requests k).stage = .running → (s.requests k).replied = false → ok = true) →
        (s.requests k).stage = .running ∧ (s.requests k).replied = false ∧ ok = false := by
    intro k ok hno
    rw [Classical.not_imp, Classical.not_imp, Bool.not_eq_true] at hno
    exact hno
  cases e with
  | receive caller lo callId known ok =>
    have hno : s.queued = false ∧ s.handler = false ∧ ok = false := by
      unfold Answers at he
      rw [Classical.not_imp, Classical.not_imp, Bool.not_eq_true] at he
      exact he
    obtain ⟨hq, hh, rfl⟩ := hno
    refine ⟨s.received, ?_⟩
    show ¬ (s.onRequest caller lo callId known false).OneAnswer s.received
    unfold Service.onRequest
    dsimp only
    split
    next hq' => exact absurd (hq.symm.trans hq') Bool.false_ne_true
    refine (h.accept caller lo callId).run_lost ?_ hh known
    show (if s.received = s.received then _ else s.requests s.received : Handed).stage = _
    rw [if_pos rfl]
  | dispatch known ok =>
    have hno : ∃ k rest, s.parked = .request k :: rest ∧ s.handler = false ∧ ok = false := by
      unfold Answers at he
      push Not at he
      obtain ⟨k, rest, hp, hh, hok⟩ := he
      exact ⟨k, rest, hp, hh, by rw [← Bool.not_eq_true]; exact hok⟩
    obtain ⟨k, rest, hp, hh, rfl⟩ := hno
    refine ⟨k, ?_⟩
    have hw : (s.requests k).stage = .waiting := by
      refine (h.parked k ?_).2
      rw [hp]
      exact List.mem_cons_self
    show ¬ (s.dispatch known false).OneAnswer k
    unfold Service.dispatch
    rw [hp]
    exact (h.pop hp).run_lost hw hh known
  | start k ok => exact absurd trivial he
  | cancelOp => exact absurd trivial he
  | defer => exact absurd trivial he
  | progress => exact absurd trivial he
  | reply k body ok =>
    obtain ⟨hrun, hr, rfl⟩ := hverb he
    refine ⟨k, ?_⟩
    show ¬ (s.during k _).OneAnswer k
    rw [during, if_pos hrun]
    exact h.answer_lost hrun hr callOk [] body
  | fail k message body ok =>
    obtain ⟨hrun, hr, rfl⟩ := hverb he
    refine ⟨k, ?_⟩
    show ¬ (s.during k _).OneAnswer k
    rw [during, if_pos hrun]
    exact h.answer_lost hrun hr callAppError message body
  | handlerReturn k ok =>
    obtain ⟨hrun, hr, rfl⟩ := hverb he
    refine ⟨k, ?_⟩
    show ¬ (s.during k _).OneAnswer k
    rw [during, if_pos hrun]
    exact h.return_lost hrun hr
  | complete token status message body ok =>
    unfold Answers at he
    rw [Classical.not_imp, Classical.not_imp] at he
    obtain ⟨h0, hd, hno⟩ := he
    obtain ⟨d, hd⟩ := Option.ne_none_iff_exists'.mp hd
    exact ⟨d.serial, h.complete_lost message body h0 hd hno⟩
  | drain message ok =>
    have hno : ∃ d ∈ s.defers, ok d.serial = false := by
      unfold Answers at he
      push Not at he
      obtain ⟨d, hd, hok⟩ := he
      exact ⟨d, hd, by rw [← Bool.not_eq_true]; exact hok⟩
    obtain ⟨d, hd, hok⟩ := hno
    exact ⟨d.serial, h.drain_lost message hd hok⟩

theorem inv_opened (isTask handler queued onCancel : Bool) :
    (opened isTask handler queued onCancel).Inv where
  kept _ := by
    refine ⟨fun _ => Or.inl rfl, fun _ hover => ?_, fun hl => Bool.noConfusion hl,
      fun _ => ⟨rfl, rfl⟩⟩
    rcases hover with hover | hover
    · cases hover
    · cases hover
  nodup := List.nodup_nil
  parked _ hk := absurd hk List.not_mem_nil
  once := List.nodup_nil
  unborn _ _ := rfl

/-- Of every definition and every order of steps: each request has its one answer in every
state reached exactly when what ends a call was accepted and said so. -/
theorem one_answer_iff (isTask handler queued onCancel : Bool) (es : List ServiceEvent) :
    (∀ fs, fs <+: es → ∀ k, (run step (opened isTask handler queued onCancel) fs).OneAnswer k) ↔
      Along step Answers (opened isTask handler queued onCancel) es :=
  along_iff_reached (fun s h k => (h.kept k).oneAnswer) (fun s e h he => h.step e he)
    (fun s e h he hall => by
      obtain ⟨k, hk⟩ := h.missed e he
      exact hk (hall k)) es _ (inv_opened isTask handler queued onCancel)

/-- A task's handler defers, and its completion says RUNNING: the token is used up and the
caller, which dropped its deadline, is never answered. -/
theorem completed_running :
    ¬ (run step (opened true true false false)
      [.receive 7 1 1 true true, .defer 0 (some 4096) true, .handlerReturn 0 true,
        .complete 4096 6 [] [] true]).OneAnswer 0 := by
  intro h
  have hterminal := h.terminal
  revert hterminal
  decide +kernel

end Service

end Rant.Patterns
