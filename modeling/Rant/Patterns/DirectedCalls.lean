import Rant.Patterns.RequestChannel
/-!
# Every task request is directed

A task call is to reach one provider. The pick skips the peers that dropped and the test
whether anyone is matched counts them, so with every match down a call is sent to all of them
(`broadcast_call`). The condition under which none is (`Caller.Sound`), the invariant it gives
(`Book`), and the steps that move the channel or flush the queue.
-/

namespace Rant.Patterns

open Rant.Lib
open Rant.Transport
open ReqChannel (How)

/-! ## The property -/

/-- Sent to one provider, the oldest live match when it was picked. -/
def Request.Routed (r : Request) : Prop :=
  ∃ d, r.dest = some d ∧ r.slot ≠ .all ∧ r.roster.Oldest d

namespace Caller

/-- Peer `a` was given a part of call `c`'s request. -/
def Given (s : Caller) (c a : Nat) : Prop :=
  ∃ r ∈ s.chan.sent, r.serial = some c ∧ ∃ q, (a, q) ∈ s.chan.got ∧ r.holds q

/-- Every task request is directed. -/
structure AllDirected (s : Caller) : Prop where
  /-- A CALL that names no provider was committed to one. -/
  routed : ∀ r ∈ s.chan.sent, r.serial.isSome → r.named = false → r.Routed
  /-- What was not committed, nor is just being sent, still waits in its entry. -/
  queued : ∀ p ∈ s.pending, p.named = false → p.queuedReq.isSome ∨
    (∃ x ∈ s.posting, x.serial = some p.serial) ∨ ∃ r ∈ s.chan.sent, r.serial = some p.serial
  /-- One provider at most is given a call. -/
  once : ∀ c a b, s.Given c a → s.Given c b → a = b

end Caller

/-! ## A call nobody was picked for -/

/-- A request channel of a small ring. -/
def reqTopic : Topic :=
  { Topic.undefined with
    qos := ⟨.reliable, 2, 0, 1000, 0, 0, true⟩, identity := 1, role := .pubOnly
    directed := true, prefixBytes := fnPrefix, kind := .taskReq
    history := List.replicate 2 .empty }

/-- A remote with room for two peers. -/
def reqCfg : CallerCfg where
  frag := 1350
  req := reqTopic
  maxPeers := 2
  frag_pos := by decide
  frag_le := by decide
  directed := ⟨rfl, rfl⟩
  role := rfl
  keep_pos := by decide
  history_eq := rfl
  head_eq := rfl
  first_eq := rfl
  chain_eq := rfl
  matched_eq := rfl

/-- Sends that are all granted what they ask for. -/
def granted : ReqChannel.How := ⟨0, {}, none⟩

/-- Two definitions match and drop, a call is made, and both come back. -/
def broadcastRun : List CallerEvent :=
  [.peerAdd 7, .peerAdd 8, .interest 7 true true fun _ => granted,
    .interest 8 true true fun _ => granted, .drop 7, .drop 8,
    .call [1] ⟨0, 0, 0, false⟩ true true, .send 0 granted, .resume 7, .resume 8,
    .emit 0 false 1400 0, .emit 1 false 1400 0]

/-- Both of them are given it. -/
theorem broadcast_call :
    ¬ (run (Caller.step reqCfg.frag) (Caller.init reqCfg) broadcastRun).AllDirected := by
  intro h
  obtain ⟨s, hs⟩ : ∃ s, s = run (Caller.step reqCfg.frag) (Caller.init reqCfg) broadcastRun :=
    ⟨_, rfl⟩
  have hsent : s.chan.sent.map (fun r => (r.serial, r.base, r.count)) = [(some 0, 0, 1)] := by
    rw [hs]
    decide +kernel
  have hgot : s.chan.got = [(7, 0), (8, 0)] := by
    rw [hs]
    decide +kernel
  rw [← hs] at h
  obtain ⟨r, hr, hkey⟩ : ∃ r ∈ s.chan.sent, (r.serial, r.base, r.count) = (some 0, 0, 1) := by
    refine List.mem_map.mp ?_
    rw [hsent]
    exact List.mem_singleton.mpr rfl
  have hserial : r.serial = some 0 := congrArg Prod.fst hkey
  have hbase : r.base = 0 := congrArg (·.2.1) hkey
  have hcount : r.count = 1 := congrArg (·.2.2) hkey
  have hgiven : ∀ a, (a, 0) ∈ s.chan.got → s.Given 0 a := by
    intro a ha
    refine ⟨r, hr, hserial, 0, ha, ?_, ?_⟩ <;> omega
  have hsame := h.once 0 7 8 (hgiven 7 (by rw [hgot]; decide)) (hgiven 8 (by rw [hgot]; decide))
  cases hsame

/-! ## When every request is directed -/

/-- If anyone is matched, someone matched is up. -/
def ReqChannel.Answerable (c : ReqChannel) : Prop := c.matchCount ≠ 0 → ∃ p, c.roster.Live p

/-- A request of `len` bytes fits a sample of the channel. -/
abbrev ReqChannel.Fits (frag : Nat) (c : ReqChannel) (len : Nat) : Prop :=
  ¬ writerTooBig frag (c.req.stampBytes 0 + fnPrefix + len)

namespace Caller

/-- A flush that sends calls which name no provider has a live match for them, and its sends
are not refused. -/
def FlushSound (frag : Nat) (how : Nat → How) (s : Caller) : Prop :=
  ∀ p ∈ s.pending, p.named = false → ∀ req, p.queuedReq = some req → s.chan.matchCount ≠ 0 →
    (∃ q, s.chan.roster.Live q) ∧ (∀ n, (how n).al.bufOk = true) ∧ s.chan.Fits frag req.length

/-- The condition. A call that names no provider is made while someone matched is up or nobody
is matched, a flush is sound, and a send that is refused finds no other pending call with its
id. -/
def Sound (frag : Nat) (s : Caller) : CallerEvent → Prop
  | .call _ o _ _ => o.provider = 0 → s.chan.Answerable
  | .send i how => ∀ x, s.posting[i]? = some x →
      ¬ s.chan.Fits frag x.body.length ∨ how.al.bufOk = false →
        s.pending.Pairwise fun p q => p.callId ≠ q.callId
  | .tick _ how => s.FlushSound frag how
  | .interest id wuse subReliable how => ∀ p, peerSlot s.chan.peers id = some p →
      FlushSound frag how { s with chan := s.chan.rematch p wuse subReliable }
  | .giveBack id how => ∀ p, peerSlot s.chan.peers id = some p →
      FlushSound frag how { s with chan := s.chan.removePeer p }
  | _ => True

/-! ### The invariant -/

/-- How often call `c` stands in a queue, in a send or in the log. -/
def stands (s : Caller) (c : Nat) : Nat :=
  s.pending.countP (fun p => p.queuedReq.isSome && p.serial == c) +
    s.posting.countP (fun x => x.serial == some c) +
    s.chan.sent.countP (fun r => r.serial == some c)

end Caller

/-- Peer `d` is matched and up. -/
def ReqChannel.Up (c : ReqChannel) (d : Nat) : Prop :=
  ∃ p, c.roster.Live p ∧ (peerAt c.peers p).id = d

/-- Two members of a list that counts one are the same. -/
theorem eq_of_countP_le_one {α : Type} {f : α → Bool} {l : List α} (h : l.countP f ≤ 1) {a b : α}
    (ha : a ∈ l) (hfa : f a = true) (hb : b ∈ l) (hfb : f b = true) : a = b := by
  rw [List.countP_eq_length_filter] at h
  have ha' : a ∈ l.filter f := List.mem_filter.mpr ⟨ha, hfa⟩
  have hb' : b ∈ l.filter f := List.mem_filter.mpr ⟨hb, hfb⟩
  obtain ⟨x, hx⟩ : ∃ x, l.filter f = [x] := by
    refine List.length_eq_one_iff.mp (Nat.le_antisymm h ?_)
    exact List.length_pos_of_mem ha'
  rw [hx] at ha' hb'
  rw [List.mem_singleton.mp ha', List.mem_singleton.mp hb']

/-- Where a call that names no provider stands. In the `gap` of a peer whose lane just went,
the calls sent to it are yet to be reaped. -/
def Waits (gap : Option Nat) (s : Caller) (p : Pending) : Prop :=
  p.queuedReq.isSome = true ∨ (∃ r ∈ s.chan.sent, r.serial = some p.serial) ∨
    ((∃ x ∈ s.posting, x.serial = some p.serial) ∧ s.chan.Up p.dest) ∨
    (p.queuedReq = none ∧ gap = some p.dest ∧ s.chan.peerMatched p.dest = false)

/-- The invariant. -/
structure Book (frag : Nat) (gap : Option Nat) (s : Caller) : Prop where
  chan : ChanInv frag s.chan
  once : ∀ c, s.stands c ≤ 1
  old : ∀ c, s.calls ≤ c → s.stands c = 0
  pending_old : ∀ p ∈ s.pending, p.serial < s.calls
  link : ∀ x ∈ s.posting, ∀ p ∈ s.pending, x.serial = some p.serial →
    x.op = .call ∧ x.callId = p.callId
  posting : ∀ x ∈ s.posting, x.dest ≠ none ∧
    (x.serial.isSome → x.named = false → ∃ d, x.dest = some d ∧ x.roster.Oldest d)
  entries : ∀ p ∈ s.pending, p.queuedReq.isSome = true → (p.named = false ↔ p.dest = 0)
  routed : ∀ r ∈ s.chan.sent, r.serial.isSome → r.named = false → r.Routed
  waiting : ∀ p ∈ s.pending, p.named = false → Waits gap s p
  task : s.isTask = true

variable {frag : Nat} {gap : Option Nat} {s : Caller}

theorem Book.stands_lt (h : Book frag gap s) {c : Nat} (hc : 0 < s.stands c) : c < s.calls := by
  by_contra hge
  have := h.old c (Nat.le_of_not_lt hge)
  omega

/-- A posted call was made. -/
theorem Book.posting_old (h : Book frag gap s) {x : Posting} (hx : x ∈ s.posting) {c : Nat}
    (hc : x.serial = some c) : c < s.calls := by
  refine h.stands_lt ?_
  have : 0 < s.posting.countP fun x => x.serial == some c := by
    refine List.countP_pos_iff.mpr ⟨x, hx, ?_⟩
    rw [hc]
    exact beq_self_eq_true _
  unfold Caller.stands
  omega

/-- A step after which no call stands more often, but for the one it made. -/
theorem Book.counts (h : Book frag gap s) (s' : Caller) (hcalls : s.calls ≤ s'.calls)
    (hstands : ∀ k, s'.stands k ≤ s.stands k ∨
      k = s.calls ∧ s.calls < s'.calls ∧ s'.stands k ≤ s.stands k + 1) :
    (∀ c, s'.stands c ≤ 1) ∧ ∀ c, s'.calls ≤ c → s'.stands c = 0 := by
  refine ⟨fun k => ?_, fun k hk => ?_⟩
  · have hzero := h.old s.calls (Nat.le_refl _)
    rcases hstands k with hle | ⟨rfl, -, hone⟩
    · exact Nat.le_trans hle (h.once k)
    · omega
  · have hzero := h.old k (Nat.le_trans hcalls hk)
    rcases hstands k with hle | ⟨rfl, hlt, -⟩ <;> omega

variable {p : Pending}

/-- A call waits on where the log only grows, if one on its way still does, or one in the gap. -/
theorem Waits.keep {gap' : Option Nat} {s' : Caller} (h : Waits gap s p)
    (hsent : ∀ r ∈ s.chan.sent, r ∈ s'.chan.sent)
    (hway : ∀ x ∈ s.posting, x.serial = some p.serial → s.chan.Up p.dest → Waits gap' s' p)
    (hgap : p.queuedReq = none → gap = some p.dest → s.chan.peerMatched p.dest = false →
      Waits gap' s' p) : Waits gap' s' p := by
  rcases h with hq | ⟨r, hr, hrs⟩ | ⟨⟨x, hx, hxs⟩, hu⟩ | ⟨hq, hg, hm⟩
  · exact Or.inl hq
  · exact Or.inr (Or.inl ⟨r, hsent r hr, hrs⟩)
  · exact hway x hx hxs hu
  · exact hgap hq hg hm

theorem Waits.onWay {x : Posting} (hx : x ∈ s.posting)
    (hxs : x.serial = some p.serial) (hu : s.chan.Up p.dest) : Waits gap s p :=
  Or.inr (Or.inr (Or.inl ⟨⟨x, hx, hxs⟩, hu⟩))

/-- What the invariant says. -/
theorem Book.directed (h : Book frag none s) : s.AllDirected := by
  refine ⟨h.routed, fun p hp hn => ?_, ?_⟩
  · rcases h.waiting p hp hn with hq | hr | hx | ⟨-, hgap, -⟩
    · exact Or.inl hq
    · exact Or.inr (Or.inr hr)
    · exact Or.inr (Or.inl hx.1)
    · cases hgap
  · rintro c a b ⟨r, hr, hrc, q, hq, hrq⟩ ⟨r', hr', hrc', q', hq', hrq'⟩
    -- one call has one request, and what a lane carries was sent to its peer
    have hsame : r = r' := by
      have hcount : s.chan.sent.countP (fun r => r.serial == some c) ≤ 1 := by
        have := h.once c
        unfold Caller.stands at this
        omega
      refine eq_of_countP_le_one hcount hr ?_ hr' ?_
      · rw [hrc]
        exact beq_self_eq_true _
      · rw [hrc']
        exact beq_self_eq_true _
    obtain ⟨x, hx, hxq, hxd⟩ := h.chan.got _ hq
    obtain ⟨x', hx', hxq', hxd'⟩ := h.chan.got _ hq'
    have h1 : x = r := h.chan.holds_inj hx hr hxq hrq
    have h2 : x' = r' := h.chan.holds_inj hx' hr' hxq' hrq'
    rw [h1, hsame] at hxd
    rw [h2, hxd] at hxd'
    exact Option.some.inj hxd'

/-! ### Steps that send nothing -/

variable {c : ReqChannel}

/-- Entries leave, and the channel keeps its log and whoever calls wait on, but for `gap`. -/
theorem Book.move (h : Book frag none s) {l : List Pending}
    (hc : ChanInv frag c) (hsent : c.sent = s.chan.sent) (hl : l.Sublist s.pending)
    (hup : ∀ p ∈ l, s.chan.Up p.dest →
      c.Up p.dest ∨ gap = some p.dest ∧ c.peerMatched p.dest = false) :
    Book frag gap { s with chan := c, pending := l } := by
  obtain ⟨honce, hold⟩ := h.counts { s with chan := c, pending := l } (Nat.le_refl _)
    fun k => by
      have hle := hl.countP_le (p := fun p => p.queuedReq.isSome && p.serial == k)
      refine Or.inl ?_
      show l.countP _ + s.posting.countP _ + c.sent.countP _ ≤ _
      rw [hsent]
      unfold Caller.stands
      omega
  refine ⟨hc, honce, hold, fun p hp => h.pending_old p (hl.subset hp),
    fun x hx p hp => h.link x hx p (hl.subset hp), h.posting,
    fun p hp => h.entries p (hl.subset hp), hsent ▸ h.routed, fun p hp hn => ?_, h.task⟩
  refine (h.waiting p (hl.subset hp) hn).keep (fun r hr => hsent ▸ hr) (fun x hx hxs hu => ?_)
    fun _ hgap => by cases hgap
  rcases hup p hp hu with hu | ⟨hg, hm⟩
  · exact Waits.onWay hx hxs hu
  · cases hq : p.queuedReq with
    | none => exact Or.inr (Or.inr (Or.inr ⟨hq, hg, hm⟩))
    | some req => exact Or.inl (Option.isSome_iff_exists.mpr ⟨req, hq⟩)

/-- A change of the channel alone. -/
theorem Book.setChan (h : Book frag none s) (hc : ChanInv frag c)
    (hsent : c.sent = s.chan.sent) (hup : ∀ d, s.chan.Up d → c.Up d) :
    Book frag none { s with chan := c } :=
  h.move hc hsent (List.Sublist.refl _) fun p _ hu => Or.inl (hup p.dest hu)

/-- Entries that leave. -/
theorem Book.shrink (h : Book frag none s) {l : List Pending} (hl : l.Sublist s.pending) :
    Book frag none { s with pending := l } :=
  h.move h.chan rfl hl fun _ _ hu => Or.inl hu

/-- Reaping what was sent to the peer whose lane went closes the gap. -/
theorem Book.reapSevered {id : Nat} (h : Book frag (some id) s) :
    Book frag none (s.reapSevered id) := by
  obtain ⟨l, hl⟩ : ∃ l, l = s.pending.filter fun p =>
    !(p.dest == id && p.queuedReq.isNone && !s.chan.peerMatched id) := ⟨_, rfl⟩
  have hsub : l.Sublist s.pending := by
    rw [hl]
    exact List.filter_sublist
  obtain ⟨honce, hold⟩ := h.counts { s with pending := l } (Nat.le_refl _) fun k => by
    have hle := hsub.countP_le (p := fun p => p.queuedReq.isSome && p.serial == k)
    refine Or.inl ?_
    show l.countP _ + s.posting.countP _ + s.chan.sent.countP _ ≤ _
    unfold Caller.stands
    omega
  have hform : s.reapSevered id = { s with pending := l } := by
    rw [hl]
    rfl
  rw [hform]
  refine ⟨h.chan, honce, hold, fun p hp => h.pending_old p (hsub.subset hp),
    fun x hx p hp => h.link x hx p (hsub.subset hp), h.posting,
    fun p hp => h.entries p (hsub.subset hp), h.routed, fun p hp hn => ?_, h.task⟩
  refine (h.waiting p (hsub.subset hp) hn).keep (fun _ hr => hr) (fun _ => Waits.onWay)
    fun hq hgap hm => ?_
  -- the filter took it
  have hp : p ∈ l := hp
  rw [hl] at hp
  have hkeep := (List.mem_filter.mp hp).2
  have hid : id = p.dest := Option.some.inj hgap
  rw [hq, hid, hm] at hkeep
  simp at hkeep

/-! ### The flush -/

theorem pickFrom_some (c : ReqChannel) : ∀ (l : List Pending) (i : Nat),
    Caller.pickFrom c l = some i → ∃ p, l[i]? = some p ∧ Caller.flushable c p = true
  | [], _, h => by cases h
  | p :: l, i, h => by
    unfold Caller.pickFrom at h
    split at h
    next j hj =>
      rw [← Option.some.inj h]
      exact pickFrom_some c l j hj
    split at h
    next hf =>
      rw [← Option.some.inj h]
      exact ⟨p, rfl, hf⟩
    next => cases h

variable {i : Nat}

/-- A list around its entry `i`. -/
theorem split_at {α : Type} {l : List α} {a : α} (h : l[i]? = some a) :
    ∃ f r, l = f ++ a :: r ∧ (∀ b, l.set i b = f ++ b :: r) ∧ l.eraseIdx i = f ++ r := by
  obtain ⟨hi, rfl⟩ := List.getElem?_eq_some_iff.mp h
  refine ⟨l.take i, l.drop (i + 1), ?_, fun b => ?_, List.eraseIdx_eq_take_drop_succ l i⟩
  · rw [← List.drop_eq_getElem_cons hi, List.take_append_drop]
  · rw [List.set_eq_take_append_cons_drop, if_pos hi]

/-- The lanes matched and up stay so through a send. -/
theorem post_up {c' : ReqChannel} (hp : c'.peers = c.peers)
    (hu : ∀ p, (c'.lanes p).used = (c.lanes p).used) :
    (∀ p, c'.roster.Live p ↔ c.roster.Live p) ∧ ∀ d, c'.Up d ↔ c.Up d := by
  have hlive : ∀ p, c'.roster.Live p ↔ c.roster.Live p := by
    intro p
    show (c'.lanes p).used = true ∧ (peerAt c'.peers p).dormant = false ↔ _
    rw [hp, hu]
    exact Iff.rfl
  refine ⟨hlive, fun d => ?_⟩
  unfold ReqChannel.Up
  rw [hp]
  constructor
  · rintro ⟨p, hpl, hid⟩
    exact ⟨p, (hlive p).mp hpl, hid⟩
  · rintro ⟨p, hpl, hid⟩
    exact ⟨p, (hlive p).mpr hpl, hid⟩

theorem ChanInv.peerMatched_false (h : ChanInv frag c) {d : Nat} :
    c.peerMatched d = false ↔ ∀ p, peerSlot c.peers d = some p → (c.lanes p).used = false := by
  constructor
  · intro hm p hp
    obtain ⟨-, hu, hid⟩ := peerSlot_some hp
    rw [← Bool.not_eq_true]
    intro hused
    have := (h.peerMatched_iff hu).mpr hused
    rw [hid, hm] at this
    cases this
  · intro hall
    cases hs : peerSlot c.peers d with
    | none =>
      unfold ReqChannel.peerMatched publisherPeerMatched
      rw [hs]
    | some p =>
      obtain ⟨-, hu, hid⟩ := peerSlot_some hs
      rw [← Bool.not_eq_true, ← hid, h.peerMatched_iff hu, hall p hs]
      exact Bool.false_ne_true

theorem post_matched {c' : ReqChannel} (h : ChanInv frag c) (h' : ChanInv frag c')
    (hp : c'.peers = c.peers) (hu : ∀ p, (c'.lanes p).used = (c.lanes p).used) {d : Nat}
    (hd : c.peerMatched d = false) : c'.peerMatched d = false := by
  rw [h'.peerMatched_false]
  intro p hs
  rw [hu]
  rw [hp] at hs
  exact (h.peerMatched_false.mp hd) p hs

/-- Where a turn of a flush sends its call: to its provider, or to the oldest. -/
theorem Book.flushDest (h : Book frag gap s) (hmem : p ∈ s.pending)
    (hq : p.queuedReq.isSome = true) (hlive : p.named = false → ∃ q, s.chan.roster.Live q) :
    Caller.flushDest s.isTask s.chan p ≠ 0 ∧
      (p.named = false → s.chan.roster.Oldest (Caller.flushDest s.isTask s.chan p)) := by
  have hnamed := h.entries p hmem hq
  have hd : Caller.flushDest s.isTask s.chan p =
      if p.dest = 0 then s.chan.oldestMatch else p.dest := by
    unfold Caller.flushDest
    simp only [h.task, Bool.true_and, decide_eq_true_eq]
  rw [hd]
  cases hn : p.named with
  | false =>
    obtain ⟨hold, hne, -⟩ := h.chan.oldest (hlive hn)
    rw [if_pos (hnamed.mp hn)]
    exact ⟨hne, fun _ => hold⟩
  | true =>
    have hdest : p.dest ≠ 0 := fun h0 => Bool.noConfusion (hn.symm.trans (hnamed.mpr h0))
    rw [if_neg hdest]
    exact ⟨hdest, fun hc => Bool.noConfusion hc⟩

/-- A request joins the log routed as its send was. -/
theorem Book.routed_post (h : Book frag gap s) (hc : ChanInv frag c) {q : Request}
    (hsent : c.sent = s.chan.sent ++ [q]) (hq : q.serial.isSome → q.named = false →
      ∃ d, q.dest = some d ∧ q.roster.Oldest d) :
    ∀ r ∈ c.sent, r.serial.isSome → r.named = false → r.Routed := by
  intro r hr hrs hrn
  have hmem := hr
  rw [hsent] at hr
  rcases List.mem_append.mp hr with hr | hr
  · exact h.routed r hr hrs hrn
  · obtain rfl := List.mem_singleton.mp hr
    obtain ⟨d, hd, hold⟩ := hq hrs hrn
    exact ⟨d, hd, (hc.directed r hmem).2, hold⟩

/-- An entry waits no more, and its call joins the log if anything does. -/
theorem Book.taken (h : Book frag gap s) (hi : s.pending[i]? = some p)
    (hq : p.queuedReq.isSome = true) (hc : ChanInv frag c) (d : Nat)
    (hcount : ∀ k, c.sent.countP (fun r => r.serial == some k) ≤
      s.chan.sent.countP (fun r => r.serial == some k) + if p.serial = k then 1 else 0)
    (hrouted : ∀ r ∈ c.sent, r.serial.isSome → r.named = false → r.Routed)
    (hwaits : ∀ y ∈ s.pending, y.named = false → Waits gap { s with chan := c } y)
    (hp : p.named = false → ∃ r ∈ c.sent, r.serial = some p.serial) :
    Book frag gap { s with
      chan := c, pending := s.pending.set i { p with dest := d, queuedReq := none } } := by
  obtain ⟨f, r, hl, hset, -⟩ := split_at hi
  have hmem : p ∈ s.pending := List.mem_of_getElem? hi
  have hback : ∀ y ∈ s.pending.set i { p with dest := d, queuedReq := none },
      y ∈ s.pending ∨ y = { p with dest := d, queuedReq := none } := fun y hy =>
    List.mem_or_eq_of_mem_set hy
  obtain ⟨honce, hold⟩ := h.counts { s with
      chan := c, pending := s.pending.set i { p with dest := d, queuedReq := none } }
    (Nat.le_refl _) fun k => by
      have hk := hcount k
      refine Or.inl ?_
      unfold Caller.stands
      dsimp only
      rw [hset, hl, List.countP_append, List.countP_append, List.countP_cons, List.countP_cons, hq]
      by_cases hpk : p.serial = k
      · simp [hpk] at hk ⊢
        omega
      · simp [hpk] at hk ⊢
        omega
  refine ⟨hc, honce, hold, fun y hy => ?_, fun x hx y hy hxy => ?_, h.posting, fun y hy hyq => ?_,
    hrouted, fun y hy hyn => ?_, h.task⟩ <;> rcases hback y hy with hy | rfl
  · exact h.pending_old y hy
  · exact h.pending_old p hmem
  · exact h.link x hx y hy hxy
  · exact h.link x hx p hmem hxy
  · exact h.entries y hy hyq
  · cases hyq
  · exact hwaits y hy hyn
  · exact Or.inr (Or.inl (hp hyn))

/-- One turn of a flush. -/
theorem Book.flushOne (h : Book frag gap s) (hF : 0 < frag) (hF' : frag ≤ 65535)
    (hi : s.pending[i]? = some p) (hp : Caller.flushable s.chan p = true)
    {how : How} (hmatch : s.chan.matchCount ≠ 0)
    (hsound : p.named = false → ∀ req, p.queuedReq = some req →
      (∃ q, s.chan.roster.Live q) ∧ how.al.bufOk = true ∧ s.chan.Fits frag req.length) :
    Book frag gap (s.flushOne frag i p how) ∧
      (s.flushOne frag i p how).chan.matchCount ≠ 0 ∧
      (∀ q, (s.flushOne frag i p how).chan.roster.Live q ↔ s.chan.roster.Live q) ∧
      (s.flushOne frag i p how).chan.req.qos = s.chan.req.qos := by
  have hmem : p ∈ s.pending := List.mem_of_getElem? hi
  obtain ⟨req, hreq⟩ : ∃ req, p.queuedReq = some req := by
    unfold Caller.flushable at hp
    rw [Bool.and_eq_true] at hp
    exact Option.isSome_iff_exists.mp hp.1
  have hsome : p.queuedReq.isSome = true := Option.isSome_iff_exists.mpr ⟨req, hreq⟩
  obtain ⟨hne, hold⟩ := h.flushDest hmem hsome fun hn => (hsound hn req hreq).1
  obtain ⟨x, hx⟩ : ∃ x, x = Caller.flushPosting s.isTask s.chan p := ⟨_, rfl⟩
  have hxdest : x.dest = some (Caller.flushDest s.isTask s.chan p) := by
    rw [hx]
    exact if_neg hne
  have hform : s.flushOne frag i p how = { s with
      chan := (s.chan.post frag x how).getD s.chan
      pending := s.pending.set i
        { p with dest := Caller.flushDest s.isTask s.chan p, queuedReq := none } } := by
    rw [hx]
    rfl
  rw [hform]
  cases hpost : s.chan.post frag x how with
  | none =>
    -- refused: a call that names its provider
    refine ⟨h.taken hi hsome h.chan _ (fun k => Nat.le_add_right _ _) h.routed h.waiting fun hn => ?_,
      hmatch, fun q => Iff.rfl, rfl⟩
    obtain ⟨-, hal, hfit⟩ := hsound hn req hreq
    have hbody : x.body = req := by
      rw [hx]
      exact congrArg (Option.getD · []) hreq
    rw [← hbody] at hfit
    obtain ⟨c', hc'⟩ := h.chan.post_some hfit hal
    cases hpost.symm.trans hc'
  | some c' =>
    have hxne : x.dest ≠ none := by
      rw [hxdest]
      exact Option.some_ne_none _
    obtain ⟨hinv, hpeers, hused, -, hqos, hmw, hout⟩ := h.chan.post hF hF' hxne hpost
    obtain ⟨hlive, hup⟩ := post_up hpeers hused
    rcases hout with ⟨-, hzero⟩ | ⟨q, hsent, hqs, hqn, hqd, hqr⟩
    · exact absurd hzero hmatch
    have hqserial : q.serial = some p.serial := by
      rw [hqs, hx]
      rfl
    have hqmem : q ∈ c'.sent := by
      rw [hsent]
      exact List.mem_append_right _ List.mem_cons_self
    refine ⟨h.taken hi hsome hinv _ (fun k => ?_) (h.routed_post hinv hsent fun _ hn => ?_)
      (fun y hy hyn => ?_) fun _ => ⟨q, hqmem, hqserial⟩, ?_, hlive, hqos⟩
    · rw [hsent, List.countP_append, List.countP_singleton, hqserial]
      simp
    · rw [hqn, hx] at hn
      refine ⟨_, hqd.trans hxdest, ?_⟩
      rw [hqr, hx]
      exact hold hn
    · refine (h.waiting y hy hyn).keep (fun r hr => ?_)
        (fun z hz hzs hu => Waits.onWay hz hzs ((hup _).mpr hu))
        fun hyq hg hm => Or.inr (Or.inr (Or.inr ⟨hyq, hg, ?_⟩))
      · show r ∈ c'.sent
        rw [hsent]
        exact List.mem_append_left _ hr
      · exact post_matched h.chan hinv hpeers hused hm
    · show c'.req.matchedWriters ≠ 0
      rw [hmw]
      exact hmatch

theorem Caller.FlushSound.next {how : Nat → How} (h : s.FlushSound frag how)
    {w : How} (hm : s.chan.matchCount ≠ 0)
    (hlive : ∀ q, (s.flushOne frag i p w).chan.roster.Live q ↔ s.chan.roster.Live q)
    (hqos : (s.flushOne frag i p w).chan.req.qos = s.chan.req.qos) :
    (s.flushOne frag i p w).FlushSound frag how := by
  intro y hy hyn req hyq _
  have hold : y ∈ s.pending := by
    have hy : y ∈ s.pending.set i
      { p with dest := Caller.flushDest s.isTask s.chan p, queuedReq := none } := hy
    rcases List.mem_or_eq_of_mem_set hy with hy | rfl
    · exact hy
    · cases hyq
  obtain ⟨⟨q, hq⟩, hal, hfit⟩ := h y hold hyn req hyq hm
  refine ⟨⟨q, (hlive q).mpr hq⟩, hal, ?_⟩
  have hstamp : (s.flushOne frag i p w).chan.req.stampBytes 0 = s.chan.req.stampBytes 0 := by
    unfold Topic.stampBytes Topic.tsBytes
    rw [hqos]
  unfold ReqChannel.Fits
  rw [hstamp]
  exact hfit

/-- A whole flush. The induction is on the turns left. -/
theorem Book.flushFrom {how : Nat → How} (hF : 0 < frag) (hF' : frag ≤ 65535) :
    ∀ (n : Nat) (s : Caller), Book frag gap s → s.chan.matchCount ≠ 0 → s.FlushSound frag how →
      Book frag gap (Caller.flushFrom frag how n s)
  | 0, _, h, _, _ => h
  | n + 1, s, h, hm, hsound => by
    unfold Caller.flushFrom
    split
    next => exact h
    next i hi =>
      obtain ⟨p, hp, hf⟩ := pickFrom_some s.chan s.pending i hi
      rw [hp]
      dsimp only
      have hone : p.named = false → ∀ req, p.queuedReq = some req →
          (∃ q, s.chan.roster.Live q) ∧ (how n).al.bufOk = true ∧ s.chan.Fits frag req.length := by
        intro hn req hreq
        obtain ⟨hlive, hal, hfit⟩ := hsound p (List.mem_of_getElem? hp) hn req hreq hm
        exact ⟨hlive, hal n, hfit⟩
      obtain ⟨hbook, hm', hlive, hqos⟩ := h.flushOne hF hF' hp hf hm hone
      exact Book.flushFrom hF hF' n _ hbook hm' (hsound.next hm hlive hqos)

theorem Book.flushQueued {how : Nat → How} (h : Book frag gap s) (hF : 0 < frag)
    (hF' : frag ≤ 65535) (hsound : s.FlushSound frag how) :
    Book frag gap (s.flushQueued frag how) := by
  unfold Caller.flushQueued
  split
  next => exact h
  next hm => exact Book.flushFrom hF hF' _ s h hm hsound

end Rant.Patterns
