import Rant.Patterns.Answers
/-!
# Cancels of a task's calls

A CANCEL op is matched against the live defers at its receipt. A call has one only once its
handler deferred, so an op that comes while the request is still parked, or while its handler
is at work, finds nothing and is dropped (`cancel_while_parked`), though the request was
received and is not answered.

Where every op that comes for such a call finds its defer (`Finds`), nothing is lost: the call's
defer reports cancelled, and once the ring is drained `on_cancel` ran for it exactly once
(`cancels_kept`).
-/

namespace Rant.Patterns

open Rant.Lib

namespace Service

/-- A CANCEL op with this target is for request `k`, which was received and is not answered. -/
def names (s : Service) (lo callId k : Nat) : Bool :=
  decide (k < s.received) && (s.requests k).lo == lo && (s.requests k).callId == callId &&
    s.isOpen k

/-- A definition and the calls that were cancelled between their receipt and their answer. -/
def watch (x : Service × (Nat → Bool)) (e : ServiceEvent) : Service × (Nat → Bool) :=
  (x.1.step e,
    match e with
    | .cancelOp lo callId _ => fun k => x.2 k || x.1.names lo callId k
    | _ => x.2)

/-- No cancel is lost. -/
structure CancelsKept (x : Service × (Nat → Bool)) : Prop where
  /-- The defer of a cancelled call reports it. -/
  reported : ∀ d ∈ x.1.defers, x.2 d.serial = true → d.cancelled = true
  /-- Once what was parked is dispatched, `on_cancel` ran for it, if it is registered, -/
  told : ∀ d ∈ x.1.defers, x.2 d.serial = true → x.1.onCancel = true → x.1.parked = [] →
    x.1.told.count d.serial = 1
  /-- never twice for one call, and for no other. -/
  once : ∀ k, x.1.told.count k ≤ 1
  only : ∀ k ∈ x.1.told, x.2 k = true
  /-- An op that is for no such call changes nothing. -/
  idle : ∀ lo callId, (∀ k, x.1.names lo callId k = false) → ∀ named,
    x.1.cancelOp lo callId named = x.1

/-- The condition of a step. A CANCEL op finds the live defer of each call it is for; the record
of one finds no other call's; and a sender is still known when its record is dispatched. -/
def Finds (s : Service) : ServiceEvent → Prop
  | .receive _ _ _ known _ => s.queued = true ∨ known = true
  | .cancelOp lo callId _ => ∀ k, s.names lo callId k = true →
    ∃ d, s.defers.find? (targets lo callId) = some d ∧ d.serial = k
  | .dispatch known _ =>
    (∀ k rest, s.parked = .request k :: rest → known = true) ∧
      ∀ lo callId named call rest, s.parked = .cancel lo callId named call :: rest →
        (named = true ∨ known = true) ∧
          ∀ d, s.defers.find? (targets lo callId) = some d → d.serial = call
  | _ => True

/-- The invariant: a cancelled call is marked, and its notification ran or is parked. -/
structure Tracked (s : Service) (asked : Nat → Bool) : Prop where
  task : s.isTask = true
  key : ∀ d ∈ s.defers, d.serial < s.received ∧ (s.requests d.serial).replied = true ∧
    d.callerLo = (s.requests d.serial).lo ∧ d.callId = (s.requests d.serial).callId
  handed : ∀ k, (s.requests k).stage = .running → k < s.received ∧
    (s.requests k).callerLo = (s.requests k).lo
  ring : ∀ k ∈ s.parked.filterMap Rec.request?, k < s.received
  nodup : (s.defers.map fun d => d.serial).Nodup
  «over» : ∀ k, asked k = true → k < s.received ∧ (s.requests k).replied = true
  told : ∀ k ∈ s.told, asked k = true
  once : ∀ k, s.told.count k ≤ 1
  marked : ∀ d ∈ s.defers, asked d.serial = d.cancelled
  notified : ∀ d ∈ s.defers, d.notified = true → d.cancelled = true
  count : s.onCancel = true → ∀ d ∈ s.defers, s.told.count d.serial = if d.notified then 1 else 0
  waiting : s.onCancel = true → ∀ d ∈ s.defers, d.cancelled = true → d.notified = false →
    ∃ named, Rec.cancel d.callerLo d.callId named d.serial ∈ s.parked
  record : ∀ lo callId named call, Rec.cancel lo callId named call ∈ s.parked → asked call = true

variable {s : Service} {asked : Nat → Bool}

variable {lo callId : Nat}

variable {d : Deferral}

/-- The live defer that a target matches is of the call the target names. -/
theorem Tracked.names_of (h : s.Tracked asked) (hd : d ∈ s.defers)
    (ht : targets lo callId d = true) : s.names lo callId d.serial = true := by
  obtain ⟨hlt, -, hlo, hid⟩ := h.key d hd
  unfold targets at ht
  rw [Bool.and_eq_true, beq_iff_eq, beq_iff_eq] at ht
  have hopen : s.isOpen d.serial = true := by
    rw [isOpen_iff]
    exact Or.inl (List.any_eq_true.mpr ⟨d, hd, beq_self_eq_true _⟩)
  unfold names
  rw [← hlo, ← hid, ht.1, ht.2, hopen, beq_self_eq_true, beq_self_eq_true, decide_eq_true hlt]
  rfl

/-- Two live defers of one call are one. -/
theorem Tracked.serial_inj (h : s.Tracked asked) {e : Deferral} (hd : d ∈ s.defers)
    (he : e ∈ s.defers) (hs : d.serial = e.serial) : d = e :=
  List.inj_on_of_nodup_map h.nodup hd he hs

/-- What the invariant says. -/
theorem Tracked.kept (h : s.Tracked asked) : CancelsKept (s, asked) where
  reported d hd ha := (h.marked d hd).symm.trans ha
  told d hd ha hon hring := by
    have hc := (h.marked d hd).symm.trans ha
    cases hn : d.notified with
    | true =>
      have hcount := h.count hon d hd
      rw [hn] at hcount
      exact hcount
    | false =>
      obtain ⟨named, hrec⟩ := h.waiting hon d hd hc hn
      have hring' : s.parked = [] := hring
      rw [hring'] at hrec
      exact absurd hrec List.not_mem_nil
  once := h.once
  only := h.told
  idle lo callId hno named := by
    have hnone : s.defers.find? (targets lo callId) = none := by
      rw [List.find?_eq_none]
      intro d hd ht
      exact Bool.false_ne_true ((hno d.serial).symm.trans (h.names_of hd ht))
    show s.cancelOp lo callId named = s
    unfold cancelOp
    rw [hnone]

/-! ## The steps -/

/-- The first defer of a target, changed. -/
theorem change_eq {lo callId : Nat} (f : Deferral → Deferral) : ∀ {l : List Deferral} {d : Deferral},
    l.find? (targets lo callId) = some d →
      ∃ l₁ l₂, l = l₁ ++ d :: l₂ ∧ change lo callId f l = l₁ ++ f d :: l₂
  | [], _, h => by cases h
  | e :: l, d, h => by
    unfold change
    cases ht : targets lo callId e with
    | true =>
      rw [List.find?_cons_of_pos ht] at h
      cases h
      exact ⟨[], l, rfl, rfl⟩
    | false =>
      rw [List.find?_cons_of_neg (by rw [ht]; exact Bool.false_ne_true)] at h
      obtain ⟨l₁, l₂, hl, hc⟩ := change_eq f h
      refine ⟨e :: l₁, l₂, by rw [hl]; rfl, ?_⟩
      rw [if_neg Bool.false_ne_true, hc]
      rfl

/-- Who is in the registry after the change: the changed one, and the others. -/
theorem Tracked.mem_change (h : s.Tracked asked) {f : Deferral → Deferral}
    (hd : s.defers.find? (targets lo callId) = some d) {e : Deferral}
    (he : e ∈ change lo callId f s.defers) :
    e = f d ∨ e ∈ s.defers ∧ e.serial ≠ d.serial := by
  obtain ⟨l₁, l₂, hl, hc⟩ := change_eq f hd
  have hn := h.nodup
  rw [hl, List.map_append, List.map_cons, List.nodup_middle, List.nodup_cons] at hn
  rw [hc] at he
  have hother : ∀ e, e ∈ l₁ ++ l₂ → e ∈ s.defers ∧ e.serial ≠ d.serial := by
    intro e he
    refine ⟨?_, fun hs => hn.1 ?_⟩
    · rw [hl]
      rcases List.mem_append.mp he with he | he
      · exact List.mem_append_left _ he
      · exact List.mem_append_right _ (List.mem_cons_of_mem _ he)
    · rw [← hs, ← List.map_append]
      exact List.mem_map.mpr ⟨e, he, rfl⟩
  rcases List.mem_append.mp he with he | he
  · exact Or.inr (hother e (List.mem_append_left _ he))
  · rcases List.mem_cons.mp he with he | he
    · exact Or.inl he
    · exact Or.inr (hother e (List.mem_append_right _ he))

variable {k : Nat}

/-- What a step may do to a request: it keeps whose it is, and the answered flag. -/
theorem Tracked.setReq (h : s.Tracked asked) {r : Handed}
    (hlo : r.lo = (s.requests k).lo) (hid : r.callId = (s.requests k).callId)
    (hr : (s.requests k).replied = true → r.replied = true)
    (hrun : r.stage = .running → k < s.received ∧ r.callerLo = r.lo) :
    (s.setReq k r).Tracked asked := by
  have hreq : ∀ j, ((s.setReq k r).requests j).lo = (s.requests j).lo ∧
      ((s.setReq k r).requests j).callId = (s.requests j).callId ∧
      ((s.requests j).replied = true → ((s.setReq k r).requests j).replied = true) := by
    intro j
    rw [requests_setReq]
    split
    next hj =>
      rw [hj]
      exact ⟨hlo, hid, hr⟩
    next => exact ⟨rfl, rfl, id⟩
  refine { h with key := fun d hd => ?_, handed := fun j hj => ?_, «over» := fun j hj => ?_ }
  · obtain ⟨hlt, hrep, hdlo, hdid⟩ := h.key d hd
    obtain ⟨h1, h2, h3⟩ := hreq d.serial
    exact ⟨hlt, h3 hrep, hdlo.trans h1.symm, hdid.trans h2.symm⟩
  · rw [requests_setReq] at hj ⊢
    split at hj
    next heq =>
      rw [heq, if_pos rfl]
      exact hrun hj
    next hne =>
      rw [if_neg hne]
      exact h.handed j hj
  · obtain ⟨hlt, hrep⟩ := h.over j hj
    exact ⟨hlt, (hreq j).2.2 hrep⟩

/-- A response is none of its business. -/
theorem Tracked.sendReply (h : s.Tracked asked) (k caller callId : Nat) (status : UInt8)
    (message body : List UInt8) (ok : Bool) :
    (s.sendReply k caller callId status message body ok).Tracked asked := by
  unfold Service.sendReply
  split
  next => exact { h with }
  next => exact h

/-- Calls that left the registry. -/
theorem Tracked.shrink (h : s.Tracked asked) {l : List Deferral} (hl : l.Sublist s.defers) :
    Tracked { s with defers := l } asked where
  task := h.task
  key d hd := h.key d (hl.subset hd)
  handed := h.handed
  ring := h.ring
  nodup := (hl.map _).nodup h.nodup
  «over» := h.over
  told := h.told
  once := h.once
  marked d hd := h.marked d (hl.subset hd)
  notified d hd := h.notified d (hl.subset hd)
  count hon d hd := h.count hon d (hl.subset hd)
  waiting hon d hd := h.waiting hon d (hl.subset hd)
  record := h.record

/-- A new defer is of a call nobody has cancelled: an op for it would have found it. -/
theorem Tracked.push (h : s.Tracked asked) (hrun : (s.requests k).stage = .running)
    (hr : (s.requests k).replied = false) (hk : d.serial = k)
    (hlo : d.callerLo = (s.requests k).callerLo) (hid : d.callId = (s.requests k).callId)
    (hc : d.cancelled = false) (hn : d.notified = false) :
    Tracked { s.setReq k { s.requests k with replied := true } with defers := d :: s.defers }
      asked := by
  obtain ⟨hlt, hcaller⟩ := h.handed k hrun
  have hreq := h.setReq (k := k) (r := { s.requests k with replied := true }) rfl rfl
    (fun _ => rfl) (fun _ => ⟨hlt, hcaller⟩)
  have hasked : asked k = false := by
    rw [← Bool.not_eq_true]
    intro ha
    exact Bool.false_ne_true (hr.symm.trans (h.over k ha).2)
  have htold : s.told.count k = 0 := by
    rw [List.count_eq_zero]
    intro hmem
    exact Bool.false_ne_true (hasked.symm.trans (h.told k hmem))
  have hfresh : ∀ e ∈ s.defers, e.serial ≠ k := by
    intro e he hs
    have hrep := (h.key e he).2.1
    rw [hs] at hrep
    exact Bool.false_ne_true (hr.symm.trans hrep)
  refine { hreq with key := ?_, nodup := ?_, marked := ?_, notified := ?_, count := ?_, waiting := ?_ }
  · intro e he
    rcases List.mem_cons.mp he with rfl | he
    · show e.serial < s.received ∧ ((s.setReq k _).requests e.serial).replied = true ∧
        e.callerLo = ((s.setReq k _).requests e.serial).lo ∧
        e.callId = ((s.setReq k _).requests e.serial).callId
      rw [hk, requests_setReq, if_pos rfl]
      exact ⟨hlt, rfl, hlo.trans hcaller, hid⟩
    · exact hreq.key e he
  · show ((d :: s.defers).map fun d => d.serial).Nodup
    rw [List.map_cons, List.nodup_cons]
    refine ⟨fun hmem => ?_, h.nodup⟩
    obtain ⟨e, he, hs⟩ := List.mem_map.mp hmem
    exact hfresh e he (hs.trans hk)
  · intro e he
    rcases List.mem_cons.mp he with rfl | he
    · rw [hk, hasked, hc]
    · exact h.marked e he
  · intro e he
    rcases List.mem_cons.mp he with rfl | he
    · intro hno
      exact absurd (hn.symm.trans hno) Bool.false_ne_true
    · exact h.notified e he
  · intro hon e he
    rcases List.mem_cons.mp he with rfl | he
    · rw [hn, hk]
      exact htold
    · exact h.count hon e he
  · intro hon e he hec
    rcases List.mem_cons.mp he with rfl | he
    · exact absurd (hc.symm.trans hec) Bool.false_ne_true
    · exact h.waiting hon e he hec

/-- One more call was cancelled: the one whose defer the op found. -/
theorem Tracked.names_iff (h : s.Tracked asked) (hf : ∀ k, s.names lo callId k = true →
      ∃ d, s.defers.find? (targets lo callId) = some d ∧ d.serial = k)
    (hd : s.defers.find? (targets lo callId) = some d) (k : Nat) :
    s.names lo callId k = decide (k = d.serial) := by
  by_cases hk : k = d.serial
  · rw [hk, decide_eq_true rfl]
    exact h.names_of (List.mem_of_find?_eq_some hd) (List.find?_some hd)
  rw [decide_eq_false hk, ← Bool.not_eq_true]
  intro hn
  obtain ⟨e, he, hs⟩ := hf k hn
  rw [hd] at he
  cases he
  exact hk hs.symm

/-- An op that marks its defer: `w` whether `on_cancel` runs at once, `x` what it parks. -/
theorem Tracked.mark (h : s.Tracked asked)
    (hd : s.defers.find? (targets lo callId) = some d) (hc : d.cancelled = false) {w : Bool}
    {x : List Rec}
    (hx : x.filterMap Rec.request? = [] ∧ ∀ lo' id' named call, Rec.cancel lo' id' named call ∈ x →
      call = d.serial) (hpark : s.onCancel = true → w = false →
      ∃ named, Rec.cancel d.callerLo d.callId named d.serial ∈ x) :
    Tracked { s with
        defers := change lo callId (fun d => { d with cancelled := true, notified := w || d.notified })
          s.defers
        parked := s.parked ++ x, told := s.told ++ if w then [d.serial] else [] }
      (fun k => asked k || decide (k = d.serial)) := by
  have hmem := List.mem_of_find?_eq_some hd
  have hn : d.notified = false := by
    rw [← Bool.not_eq_true]
    intro hn
    exact Bool.false_ne_true (hc.symm.trans (h.notified d hmem hn))
  -- every defer is the marked one or another, as it was
  have hcase : ∀ {e : Deferral},
      e ∈ change lo callId (fun d => { d with cancelled := true, notified := w || d.notified })
        s.defers →
        e = { d with cancelled := true, notified := w } ∨ e ∈ s.defers ∧ e.serial ≠ d.serial := by
    intro e he
    have := h.mem_change hd he
    rw [hn, Bool.or_false] at this
    exact this
  have hasked : asked d.serial = false := (h.marked d hmem).trans hc
  -- the callback had not run for it, as nobody had asked
  have hcount : s.told.count d.serial = 0 := by
    rw [List.count_eq_zero]
    intro hm
    exact Bool.false_ne_true (hasked.symm.trans (h.told _ hm))
  have hother : ∀ k, k ≠ d.serial →
      (s.told ++ if w then [d.serial] else []).count k = s.told.count k := by
    intro k hk
    rw [List.count_append]
    split
    next => rw [List.count_singleton, if_neg (by simpa using hk.symm), Nat.add_zero]
    next => rfl
  have hself : (s.told ++ if w then [d.serial] else []).count d.serial = if w then 1 else 0 := by
    rw [List.count_append, hcount, Nat.zero_add]
    split
    next => exact List.count_singleton_self
    next => rfl
  constructor
  · exact h.task
  · intro e he
    rcases hcase he with rfl | ⟨he, -⟩
    · exact h.key d hmem
    · exact h.key e he
  · exact h.handed
  · show ∀ k ∈ (s.parked ++ x).filterMap Rec.request?, _
    rw [List.filterMap_append, hx.1, List.append_nil]
    exact h.ring
  · show ((change lo callId _ s.defers).map fun d => d.serial).Nodup
    rw [serial_change lo callId (f := fun d : Deferral =>
      { d with cancelled := true, notified := w || d.notified }) (fun _ => rfl)]
    exact h.nodup
  · intro k hk
    rcases Bool.or_eq_true_iff.mp hk with hk | hk
    · exact h.over k hk
    · rw [of_decide_eq_true hk]
      obtain ⟨hlt, hrep, -⟩ := h.key d hmem
      exact ⟨hlt, hrep⟩
  · intro k hk
    rcases List.mem_append.mp hk with hk | hk
    · exact Bool.or_eq_true_iff.mpr (Or.inl (h.told k hk))
    · split at hk
      next => exact Bool.or_eq_true_iff.mpr (Or.inr (decide_eq_true (List.mem_singleton.mp hk)))
      next => cases hk
  · intro k
    by_cases hk : k = d.serial
    · rw [hk, hself]
      split
      next => exact Nat.le_refl 1
      next => exact Nat.zero_le 1
    · rw [hother k hk]
      exact h.once k
  · intro e he
    rcases hcase he with rfl | ⟨he, hs⟩
    · show (asked d.serial || decide (d.serial = d.serial)) = true
      rw [decide_eq_true rfl, Bool.or_true]
    · show (asked e.serial || decide (e.serial = d.serial)) = e.cancelled
      rw [decide_eq_false hs, Bool.or_false]
      exact h.marked e he
  · intro e he
    rcases hcase he with rfl | ⟨he, -⟩
    · exact fun _ => rfl
    · exact h.notified e he
  · intro hon e he
    rcases hcase he with rfl | ⟨he, hs⟩
    · exact hself
    · exact (hother e.serial hs).trans (h.count hon e he)
  · intro hon e he hec hen
    rcases hcase he with rfl | ⟨he, -⟩
    · obtain ⟨named, hrec⟩ := hpark hon hen
      exact ⟨named, List.mem_append_right _ hrec⟩
    · obtain ⟨named, hrec⟩ := h.waiting hon e he hec hen
      exact ⟨named, List.mem_append_left _ hrec⟩
  · intro lo' id' named call hrec
    rcases List.mem_append.mp hrec with hrec | hrec
    · exact Bool.or_eq_true_iff.mpr (Or.inl (h.record lo' id' named call hrec))
    · exact Bool.or_eq_true_iff.mpr (Or.inr (decide_eq_true (hx.2 lo' id' named call hrec)))

/-- A CANCEL that finds the defer it names is tracked. -/
theorem Tracked.cancelOp (h : s.Tracked asked) (named : Bool)
    (hf : ∀ k, s.names lo callId k = true →
      ∃ d, s.defers.find? (targets lo callId) = some d ∧ d.serial = k) :
    (s.cancelOp lo callId named).Tracked fun k => asked k || s.names lo callId k := by
  cases hd : s.defers.find? (targets lo callId) with
  | none =>
    have hno : (fun k => asked k || s.names lo callId k) = asked := by
      funext k
      cases hn : s.names lo callId k with
      | false => exact Bool.or_false _
      | true =>
        obtain ⟨d, hd', -⟩ := hf k hn
        rw [hd] at hd'
        cases hd'
    rw [hno]
    unfold Service.cancelOp
    rw [hd]
    exact h
  | some d =>
    have hmem := List.mem_of_find?_eq_some hd
    have hkey := List.find?_some hd
    have hasked : (fun k => asked k || s.names lo callId k) =
        fun k => asked k || decide (k = d.serial) := by
      funext k
      rw [h.names_iff hf hd]
    rw [hasked]
    unfold Service.cancelOp
    rw [hd]
    dsimp only
    split
    next hc =>
      -- it was cancelled before
      have hold : (fun k => asked k || decide (k = d.serial)) = asked := by
        funext k
        by_cases hk : k = d.serial
        · rw [hk, h.marked d hmem, hc]
          rfl
        · rw [decide_eq_false hk, Bool.or_false]
      rw [hold]
      exact h
    next hc =>
      rw [Bool.not_eq_true] at hc
      have hnone : ∀ lo' id' named call, Rec.cancel lo' id' named call ∈ ([] : List Rec) →
          call = d.serial := fun _ _ _ _ hx => absurd hx List.not_mem_nil
      split
      next hoff =>
        have hm := h.mark hd hc (w := false) (x := []) ⟨rfl, hnone⟩
          fun hon => absurd (hoff.symm.trans hon) Bool.false_ne_true
        simpa using hm
      next hon =>
        split
        next =>
          have hm := h.mark hd hc (w := false) (x := [.cancel lo callId named d.serial])
            ⟨rfl, fun _ _ _ _ hx => by cases List.mem_singleton.mp hx; rfl⟩ fun _ _ => ⟨named, by
              unfold targets at hkey
              rw [Bool.and_eq_true, beq_iff_eq, beq_iff_eq] at hkey
              rw [hkey.1, hkey.2]
              exact List.mem_singleton_self _⟩
          simpa using hm
        next =>
          have hm := h.mark hd hc (w := true) (x := []) ⟨rfl, hnone⟩
            fun _ hw => Bool.noConfusion hw
          simpa using hm

/-- A record that no unnotified defer waits for. -/
theorem Tracked.unpark (h : s.Tracked asked) {x : Rec} {rest : List Rec} (hp : s.parked = x :: rest)
    (hx : s.onCancel = true → ∀ d ∈ s.defers, d.cancelled = true → d.notified = false →
      ∀ named, Rec.cancel d.callerLo d.callId named d.serial ≠ x) :
    Tracked { s with parked := rest } asked := by
  have hsub : ∀ r ∈ rest, r ∈ s.parked := by
    intro r hr
    rw [hp]
    exact List.mem_cons_of_mem x hr
  refine { h with ring := fun k hk => h.ring k ?_, waiting := ?_, record := ?_ }
  · obtain ⟨r, hr, hk⟩ := List.mem_filterMap.mp hk
    exact List.mem_filterMap.mpr ⟨r, hsub r hr, hk⟩
  · intro hon d hd hc hn
    obtain ⟨named, hrec⟩ := h.waiting hon d hd hc hn
    rw [hp] at hrec
    rcases List.mem_cons.mp hrec with hrec | hrec
    · exact absurd hrec (hx hon d hd hc hn named)
    · exact ⟨named, hrec⟩
  · intro lo callId named call hrec
    exact h.record lo callId named call (hsub _ hrec)

/-- The record of a cancel is drained: `on_cancel` runs, unless its call is over or was told. -/
theorem Tracked.runCancel (h : s.Tracked asked) {call : Nat} {named : Bool} {rest : List Rec}
    (hp : s.parked = .cancel lo callId named call :: rest)
    (hf : ∀ d, s.defers.find? (targets lo callId) = some d → d.serial = call) :
    (Service.runCancel { s with parked := rest } lo callId).Tracked asked := by
  -- who waits for this record has the target's key and is its call
  have hwho : ∀ d ∈ s.defers, ∀ named', Rec.cancel d.callerLo d.callId named' d.serial =
      .cancel lo callId named call → targets lo callId d = true ∧ d.serial = call := by
    intro d _ named' heq
    injection heq with hlo hid _ hcall
    refine ⟨?_, hcall⟩
    unfold targets
    rw [hlo, hid, beq_self_eq_true, beq_self_eq_true]
    rfl
  unfold Service.runCancel
  cases hd : s.defers.find? (targets lo callId) with
  | none =>
    dsimp only
    refine h.unpark hp fun _ d hdm _ _ named' heq => ?_
    exact List.find?_eq_none.mp hd d hdm (hwho d hdm named' heq).1
  | some d =>
    have hmem := List.mem_of_find?_eq_some hd
    have hcall := hf d hd
    have hthis : ∀ e ∈ s.defers, ∀ named', Rec.cancel e.callerLo e.callId named' e.serial =
        .cancel lo callId named call → e = d := fun e he named' heq =>
      h.serial_inj he hmem ((hwho e he named' heq).2.trans hcall.symm)
    have hasked : asked d.serial = true := by
      rw [hcall]
      refine h.record lo callId named call ?_
      rw [hp]
      exact List.mem_cons_self
    dsimp only
    split
    next hn =>
      refine h.unpark hp fun _ e he _ hen named' heq => ?_
      rw [hthis e he named' heq, hn] at hen
      cases hen
    next hn =>
      rw [Bool.not_eq_true] at hn
      have hcase : ∀ {e : Deferral},
          e ∈ change lo callId (fun d => { d with notified := true }) s.defers →
            e = { d with notified := true } ∨ e ∈ s.defers ∧ e.serial ≠ d.serial :=
        fun he => h.mem_change hd he
      have hother : ∀ k, k ≠ d.serial →
          (s.told ++ if s.onCancel then [d.serial] else []).count k = s.told.count k := by
        intro k hk
        rw [List.count_append]
        split
        next => rw [List.count_singleton, if_neg (by simpa using hk.symm), Nat.add_zero]
        next => rfl
      have hself : s.onCancel = true →
          (s.told ++ if s.onCancel then [d.serial] else []).count d.serial = 1 := by
        intro hon
        have hzero := h.count hon d hmem
        rw [hn] at hzero
        rw [List.count_append, hzero, if_pos hon, List.count_singleton_self]
        rfl
      have hring : ∀ r ∈ rest, r ∈ s.parked := by
        intro r hr
        rw [hp]
        exact List.mem_cons_of_mem _ hr
      constructor
      · exact h.task
      · intro e he
        rcases hcase he with rfl | ⟨he, -⟩
        · exact h.key d hmem
        · exact h.key e he
      · exact h.handed
      · intro k hk
        obtain ⟨r, hr, hrk⟩ := List.mem_filterMap.mp hk
        exact h.ring k (List.mem_filterMap.mpr ⟨r, hring r hr, hrk⟩)
      · show ((change lo callId _ s.defers).map fun d => d.serial).Nodup
        rw [serial_change lo callId (f := fun d : Deferral => { d with notified := true })
          (fun _ => rfl)]
        exact h.nodup
      · exact h.over
      · intro k hk
        rcases List.mem_append.mp hk with hk | hk
        · exact h.told k hk
        · split at hk
          next =>
            rw [List.mem_singleton.mp hk]
            exact hasked
          next => cases hk
      · intro k
        by_cases hk : k = d.serial
        · cases hon : s.onCancel with
          | true =>
            have hone := hself hon
            rw [hon] at hone
            rw [hk]
            exact Nat.le_of_eq hone
          | false =>
            show (s.told ++ if false = true then [d.serial] else []).count k ≤ 1
            rw [if_neg Bool.false_ne_true, List.append_nil]
            exact h.once k
        · exact Nat.le_trans (Nat.le_of_eq (hother k hk)) (h.once k)
      · intro e he
        rcases hcase he with rfl | ⟨he, -⟩
        · exact h.marked d hmem
        · exact h.marked e he
      · intro e he
        rcases hcase he with rfl | ⟨he, -⟩
        · exact fun _ => (h.marked d hmem).symm.trans hasked
        · exact h.notified e he
      · intro hon e he
        rcases hcase he with rfl | ⟨he, hs⟩
        · exact hself hon
        · exact (hother e.serial hs).trans (h.count hon e he)
      · intro hon e he hec hen
        rcases hcase he with rfl | ⟨he, hs⟩
        · cases hen
        · obtain ⟨named', hrec⟩ := h.waiting hon e he hec hen
          rw [hp] at hrec
          rcases List.mem_cons.mp hrec with hrec | hrec
          · exact absurd (congrArg (fun d : Deferral => d.serial) (hthis e he named' hrec)) hs
          · exact ⟨named', hrec⟩
      · intro lo' id' named' call' hrec
        exact h.record lo' id' named' call' (hring _ hrec)

/-! ## Requests and their handlers -/

theorem Tracked.runRequest (h : s.Tracked asked) (hk : k < s.received) {known : Bool}
    (hknown : known = true) (ok : Bool) : (s.runRequest k known ok).Tracked asked := by
  have hlo : (if (s.isTask && known) = true then (s.requests k).lo else 0) = (s.requests k).lo := by
    rw [h.task, hknown]
    rfl
  unfold Service.runRequest replyTo
  dsimp only
  split
  next => exact h.setReq rfl rfl id fun _ => ⟨hk, hlo⟩
  next =>
    refine Tracked.sendReply ?_ ..
    exact h.setReq rfl rfl (fun _ => rfl) fun hrun => by cases hrun

theorem Tracked.onRequest (h : s.Tracked asked) (caller lo callId : Nat) {known : Bool}
    (hknown : s.queued = true ∨ known = true) (ok : Bool) :
    (s.onRequest caller lo callId known ok).Tracked asked := by
  have hne : ∀ k, k < s.received → k ≠ s.received := fun k hk => Nat.ne_of_lt hk
  have hacc : Tracked { s.setReq s.received { caller := caller, lo := lo, callId := callId } with
      received := s.received + 1 } asked := by
    refine { h with key := fun d hd => ?_, handed := fun k hk => ?_, ring := fun k hk => ?_,
                    «over» := fun k hk => ?_ }
    · obtain ⟨hlt, hrest⟩ := h.key d hd
      refine ⟨Nat.lt_succ_of_lt hlt, ?_⟩
      show ((s.setReq s.received _).requests d.serial).replied = true ∧ _ ∧ _
      rw [requests_setReq, if_neg (hne _ hlt)]
      exact hrest
    · change ((s.setReq s.received _).requests k).stage = .running at hk
      show k < s.received + 1 ∧ ((s.setReq s.received _).requests k).callerLo =
        ((s.setReq s.received _).requests k).lo
      rw [requests_setReq] at hk ⊢
      split at hk
      next => cases hk
      next hno =>
        rw [if_neg hno]
        exact ⟨Nat.lt_succ_of_lt (h.handed k hk).1, (h.handed k hk).2⟩
    · exact Nat.lt_succ_of_lt (h.ring k hk)
    · obtain ⟨hlt, hrep⟩ := h.over k hk
      refine ⟨Nat.lt_succ_of_lt hlt, ?_⟩
      show ((s.setReq s.received _).requests k).replied = true
      rw [requests_setReq, if_neg (hne _ hlt)]
      exact hrep
  unfold Service.onRequest
  dsimp only
  split
  next =>
    refine { hacc with ring := fun k hk => ?_, waiting := fun hon d hd hc hn => ?_,
                       record := fun lo' id' named call hrec => ?_ }
    · change k ∈ (s.parked ++ [Rec.request s.received]).filterMap Rec.request? at hk
      rw [List.filterMap_append] at hk
      rcases List.mem_append.mp hk with hk | hk
      · exact hacc.ring k hk
      · rw [List.mem_singleton.mp hk]
        exact Nat.lt_succ_self _
    · obtain ⟨named, hrec⟩ := h.waiting hon d hd hc hn
      exact ⟨named, List.mem_append_left _ hrec⟩
    · rcases List.mem_append.mp hrec with hrec | hrec
      · exact h.record lo' id' named call hrec
      · cases List.mem_singleton.mp hrec
  next hq =>
    rcases hknown with hq' | hknown
    · exact absurd hq' hq
    · exact hacc.runRequest (Nat.lt_succ_self _) hknown ok

theorem Tracked.start (h : s.Tracked asked) (hrun : (s.requests k).stage = .running)
    (ok : Bool) : (s.start k ok).Tracked asked := by
  unfold Service.start replyTo
  split
  next => exact h
  split
  next => exact h
  next =>
    refine Tracked.sendReply ?_ ..
    exact h.setReq rfl rfl id fun _ => h.handed k hrun

theorem Tracked.answer (h : s.Tracked asked) (hrun : (s.requests k).stage = .running)
    (status : UInt8) (message body : List UInt8) (ok : Bool) :
    (s.answer k status message body ok).Tracked asked := by
  unfold Service.answer replyTo
  split
  next => exact h
  next =>
    refine Tracked.sendReply ?_ ..
    exact h.setReq rfl rfl (fun _ => rfl) fun _ => h.handed k hrun

theorem Tracked.handlerReturn (h : s.Tracked asked) (k : Nat) (ok : Bool) :
    (s.handlerReturn k ok).Tracked asked := by
  have hback : (s.setReq k { s.requests k with stage := .returned }).Tracked asked :=
    h.setReq rfl rfl id fun hrun => by cases hrun
  unfold Service.handlerReturn replyTo
  dsimp only
  split
  next => exact hback
  split
  next => exact hback.sendReply ..
  next => exact hback.sendReply ..

theorem Tracked.defer (h : s.Tracked asked) (hrun : (s.requests k).stage = .running)
    (ptr : Option Nat) (ok : Bool) : (s.defer k ptr ok).Tracked asked := by
  unfold Service.defer
  split
  next => exact h
  next hr =>
    rw [Bool.not_eq_true] at hr
    obtain ⟨t, ht⟩ : ∃ t, t = if s.isTask && !(s.requests k).started then s.start k ok else s :=
      ⟨_, rfl⟩
    have hinv : t.Tracked asked ∧ (t.requests k).stage = .running ∧
        (t.requests k).replied = false := by
      rw [ht]
      split
      next =>
        obtain ⟨hst, hre⟩ := requests_start s k ok
        exact ⟨h.start hrun ok, hst.trans hrun, hre.trans hr⟩
      next => exact ⟨h, hrun, hr⟩
    dsimp only
    rw [← ht]
    cases ptr with
    | none => exact hinv.1
    | some ptr => exact hinv.1.push hinv.2.1 hinv.2.2 rfl rfl rfl rfl rfl

/-! ## A step and a run -/

theorem Tracked.dispatch (h : s.Tracked asked) {known : Bool} (ok : Bool)
    (hf : s.Finds (.dispatch known ok)) : (s.dispatch known ok).Tracked asked := by
  unfold Service.dispatch
  cases hp : s.parked with
  | nil => exact h
  | cons x rest =>
    cases x with
    | request k =>
      have hk : k < s.received := by
        refine h.ring k ?_
        rw [hp]
        exact List.mem_cons_self
      have hpop : Tracked { s with parked := rest } asked :=
        h.unpark hp fun _ _ _ _ _ _ heq => by cases heq
      exact hpop.runRequest hk (hf.1 k rest hp) ok
    | cancel lo callId named call =>
      obtain ⟨hsame, hfind⟩ := hf.2 lo callId named call rest hp
      have hlo : (if (named || known) = true then lo else 0) = lo := by
        rw [if_pos (Bool.or_eq_true_iff.mpr hsame)]
      show (Service.runCancel { s with parked := rest } (if (named || known) = true then lo else 0)
        callId).Tracked asked
      rw [hlo]
      exact h.runCancel hp hfind

theorem Tracked.step (h : s.Tracked asked) (e : ServiceEvent) (hf : s.Finds e) :
    (watch (s, asked) e).1.Tracked (watch (s, asked) e).2 := by
  have hduring : ∀ {k : Nat} {s' : Service},
      ((s.requests k).stage = .running → s'.Tracked asked) → (s.during k s').Tracked asked := by
    intro k s' hs'
    unfold during
    split
    next hrun => exact hs' hrun
    next => exact h
  cases e with
  | receive caller lo callId known ok => exact h.onRequest caller lo callId hf ok
  | cancelOp lo callId named =>
    show (if s.isTask then s.cancelOp lo callId named else s).Tracked _
    rw [if_pos h.task]
    exact h.cancelOp named hf
  | dispatch known ok => exact h.dispatch ok hf
  | start k ok => exact hduring fun hrun => h.start hrun ok
  | reply k body ok => exact hduring fun hrun => h.answer hrun callOk [] body ok
  | fail k message body ok => exact hduring fun hrun => h.answer hrun callAppError message body ok
  | defer k ptr ok => exact hduring fun hrun => h.defer hrun ptr ok
  | handlerReturn k ok => exact hduring fun _ => h.handlerReturn k ok
  | complete token status message body ok =>
    show (s.complete token status message body ok).Tracked asked
    unfold Service.complete
    split
    next => exact h
    split
    next => exact h
    next => exact Tracked.sendReply (h.shrink List.eraseP_sublist) ..
  | progress token body ok =>
    show (s.progress token body ok).Tracked asked
    unfold Service.progress
    split
    next => exact h
    split
    next => exact h
    split
    next => exact { h with }
    next => exact h
  | drain message ok => exact { h.shrink (List.nil_sublist s.defers) with }

theorem tracked_opened (handler queued onCancel : Bool) :
    (opened true handler queued onCancel).Tracked fun _ => false where
  task := rfl
  key _ hd := absurd hd List.not_mem_nil
  handed _ hk := by cases hk
  ring _ hk := absurd hk List.not_mem_nil
  nodup := List.nodup_nil
  «over» _ hk := Bool.noConfusion hk
  told _ hk := absurd hk List.not_mem_nil
  once _ := Nat.zero_le 1
  marked _ hd := absurd hd List.not_mem_nil
  notified _ hd := absurd hd List.not_mem_nil
  count _ _ hd := absurd hd List.not_mem_nil
  waiting _ _ hd := absurd hd List.not_mem_nil
  record _ _ _ _ hrec := absurd hrec List.not_mem_nil

/-- The condition along a run, in the states it passes. -/
def FindsAll (handler queued onCancel : Bool) (es : List ServiceEvent) : Prop :=
  Along watch (fun x e => x.1.Finds e) (opened true handler queued onCancel, fun _ => false) es

/-- In every run of a task definition in which each CANCEL op found the defer of the call it was
for, no cancel is lost in any state reached. -/
theorem cancels_kept (handler queued onCancel : Bool) (es : List ServiceEvent)
    (hes : FindsAll handler queued onCancel es) :
    CancelsKept (run watch (opened true handler queued onCancel, fun _ => false) es) :=
  (run_invariant_along (fun x : Service × (Nat → Bool) => x.1.Tracked x.2)
    (fun _ e h hf => h.step e hf) es _ (tracked_opened handler queued onCancel) hes).kept

/-- A call is received, deferred, returned from and then cancelled, over a queue. -/
def lateCancel : List ServiceEvent :=
  [.receive 7 1 1 true true, .dispatch true true, .defer 0 (some 4096) true, .handlerReturn 0 true,
    .cancelOp 1 1 false, .dispatch true true]

theorem cancels_kept_late :
    CancelsKept (run watch (opened true true true true, fun _ => false) lateCancel) := by
  refine cancels_kept true true true lateCancel ⟨Or.inl rfl, ⟨fun _ _ _ => rfl, ?_⟩, trivial,
    trivial, ?_, ⟨fun _ _ _ => rfl, ?_⟩, trivial⟩
  · intro lo callId named call rest hp
    cases (List.cons.inj hp).1
  · intro k hk
    have hlt : k < 1 := of_decide_eq_true (Bool.and_eq_true_iff.mp
      (Bool.and_eq_true_iff.mp (Bool.and_eq_true_iff.mp hk).1).1).1
    obtain rfl : k = 0 := Nat.lt_one_iff.mp hlt
    exact ⟨{ serial := 0, ptr := 4096, caller := 7, callerLo := 1, callId := 1, cancelled := false },
      rfl, rfl⟩
  · intro lo callId named call rest hp
    cases (List.cons.inj hp).1
    refine ⟨Or.inr rfl, fun d hd => ?_⟩
    cases hd
    rfl

/-- The same call, cancelled while its record is parked: it was received and is not answered,
and its defer never hears of it. -/
theorem cancel_while_parked :
    ¬ CancelsKept (run watch (opened true true true true, fun _ => false)
      [.receive 7 1 1 true true, .cancelOp 1 1 false, .dispatch true true,
        .defer 0 (some 4096) true, .handlerReturn 0 true]) := by
  intro h
  have hreport := h.reported
    { serial := 0, ptr := 4096, caller := 7, callerLo := 1, callId := 1, cancelled := false }
    (List.mem_singleton_self _) rfl
  cases hreport

end Service

end Rant.Patterns
