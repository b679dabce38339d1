import Rant.Patterns.DirectedCalls
/-!
# No call reaches two providers

The calls, the sends and the answers keep the book of `Rant.Patterns.DirectedCalls`, and with
them every event. As long as a match is up whenever one is picked, and a flush's sends are not
refused, a call that names no provider goes to the oldest live match or waits in its queue, and
no call reaches two providers (`calls_directed`).

What carries it is that a lane's peer is the one its samples since it joined were sent to: a
slot changes hands only with its lane down, and a lane that comes up joins past every sample.
-/

namespace Rant.Patterns

open Rant.Lib
open Rant.Transport
open ReqChannel (How)

variable {frag : Nat} {c : ReqChannel} {s : Caller}

/-! ## Calls -/

variable {d : Nat}

/-- Where a call goes: to the provider it names, or to the oldest live match, and nowhere where
there is none. -/
theorem Book.callDest (h : Book frag none s) {o : Caller.CallOpts}
    (hsound : o.provider = 0 → s.chan.Answerable)
    (hd : d = if o.provider = 0 then s.chan.oldestMatch else o.provider) :
    (o.provider = 0 → s.chan.matchCount ≠ 0 →
      s.chan.roster.Oldest d ∧ d ≠ 0 ∧ s.chan.peerMatched d = true) ∧
    (o.provider = 0 → s.chan.matchCount = 0 → d = 0) ∧ (d = 0 → o.provider = 0) := by
  refine ⟨fun h0 hm => ?_, fun h0 hm => ?_, fun hzero => ?_⟩
  · rw [hd, if_pos h0]
    exact h.chan.oldest (hsound h0 hm)
  · rw [hd, if_pos h0]
    rcases oldest_cases s.chan with ⟨-, hz⟩ | ⟨l, p, r, hl, hp, -⟩
    · exact hz
    · exact absurd hm (h.chan.chain.matched.mpr ⟨p, (liveLane_iff.mp hp).1⟩)
  · by_contra hne
    rw [hd, if_neg hne] at hzero
    exact hne hzero

/-- A call made: its entry is new, and waits or has its send on the way. -/
theorem Book.made (h : Book frag none s) {p : Pending} (hp : p.serial = s.calls) (next : Nat)
    (ps : List Posting) (hone : (if p.queuedReq.isSome then 1 else 0) + ps.length ≤ 1)
    (hps : ∀ x ∈ ps, x.serial = some s.calls ∧ x.op = .call ∧ x.callId = p.callId ∧
      ∃ d, x.dest = some d ∧ (x.named = false → x.roster.Oldest d))
    (hentry : p.queuedReq.isSome = true → (p.named = false ↔ p.dest = 0))
    (hwaits : p.named = false → p.queuedReq.isSome = true ∨ (∃ x, x ∈ ps) ∧ s.chan.Up p.dest) :
    Book frag none { s with
      nextCallId := next, calls := s.calls + 1, pending := p :: s.pending
      posting := s.posting ++ ps } := by
  have hposted : ∀ k, ps.countP (fun x => x.serial == some k) = if s.calls = k then ps.length else 0 := by
    intro k
    split
    next hk => exact List.countP_eq_length.mpr fun x hx => by simp [(hps x hx).1, hk]
    next hk => exact List.countP_eq_zero.mpr fun x hx => by simp [(hps x hx).1, hk]
  obtain ⟨honce, hold⟩ := h.counts { s with
      nextCallId := next, calls := s.calls + 1, pending := p :: s.pending
      posting := s.posting ++ ps } (Nat.le_succ _) fun k => by
    have hk := hposted k
    unfold Caller.stands
    dsimp only
    rw [List.countP_cons, List.countP_append, hk, hp]
    by_cases hc : s.calls = k
    · refine Or.inr ⟨hc.symm, Nat.lt_succ_self _, ?_⟩
      simp only [hc, beq_self_eq_true, Bool.and_true, if_true]
      omega
    · simp [hc]
  refine ⟨h.chan, honce, hold, fun q hq => ?_, fun x hx q hq hxq => ?_, fun x hx => ?_,
    fun q hq hqq => ?_, h.routed, fun q hq hn => ?_, h.task⟩
  · rcases List.mem_cons.mp hq with rfl | hq
    · exact Nat.lt_succ_of_le hp.le
    · exact Nat.lt_succ_of_lt (h.pending_old q hq)
  · rcases List.mem_append.mp hx with hx' | hx' <;> rcases List.mem_cons.mp hq with rfl | hq
    · exact absurd (hp ▸ h.posting_old hx' hxq) (Nat.lt_irrefl _)
    · exact h.link x hx' q hq hxq
    · exact ⟨(hps x hx').2.1, (hps x hx').2.2.1⟩
    · have hlt := h.pending_old q hq
      have heq : s.calls = q.serial := Option.some.inj ((hps x hx').1.symm.trans hxq)
      omega
  · rcases List.mem_append.mp hx with hx | hx
    · exact h.posting x hx
    · obtain ⟨-, -, -, d, hd, hold⟩ := hps x hx
      exact ⟨fun hc => Option.some_ne_none d (hd.symm.trans hc), fun _ hn => ⟨d, hd, hold hn⟩⟩
  · rcases List.mem_cons.mp hq with rfl | hq
    · exact hentry hqq
    · exact h.entries q hq hqq
  · rcases List.mem_cons.mp hq with rfl | hq
    · rcases hwaits hn with hwait | ⟨⟨x, hx⟩, hu⟩
      · exact Or.inl hwait
      · exact Waits.onWay (List.mem_append_right _ hx) ((hps x hx).1.trans (congrArg some hp.symm)) hu
    · exact (h.waiting q hq hn).keep (fun _ hr => hr)
        (fun _ hx hxs hu => Waits.onWay (List.mem_append_left _ hx) hxs hu) fun _ hg => by cases hg

/-- A call: it waits for a provider, or is on its way to the oldest. -/
theorem Book.call (h : Book frag none s) (req : Bytes) (o : Caller.CallOpts) (ok queueOk : Bool)
    (hsound : o.provider = 0 → s.chan.Answerable) : Book frag none (s.call req o ok queueOk) := by
  obtain ⟨d, hd⟩ : ∃ d, d = if o.provider = 0 then s.chan.oldestMatch else o.provider := ⟨_, rfl⟩
  obtain ⟨hroute, hunmatched, hzero⟩ := h.callDest hsound hd
  have hdest : (if (s.isTask && decide (o.provider = 0)) = true then s.chan.oldestMatch
      else o.provider) = d := by
    rw [hd, h.task]
    simp only [Bool.true_and, decide_eq_true_eq]
  have hunnamed : decide (o.provider ≠ 0) = false ↔ o.provider = 0 := by
    rw [decide_eq_false_iff_not, not_not]
  unfold Caller.call
  rw [hdest]
  cases ok with
  | false => exact h
  | true =>
  rw [if_neg (by simp)]
  dsimp only
  by_cases hwait : if d ≠ 0 then s.chan.peerMatched d = false else s.chan.matchCount = 0
  · rw [if_pos hwait]
    cases queueOk with
    | false =>
      exact ⟨h.chan, h.once, fun k hk => h.old k (Nat.le_of_succ_le hk),
        fun p hp => Nat.lt_succ_of_lt (h.pending_old p hp), h.link, h.posting, h.entries, h.routed,
        h.waiting, h.task⟩
    | true =>
      rw [if_pos rfl, ← List.append_nil s.posting]
      refine h.made rfl _ [] (Nat.le_refl 1) (fun x hx => absurd hx List.not_mem_nil) (fun _ => ?_)
        fun _ => Or.inl rfl
      rw [hunnamed]
      refine ⟨fun h0 => ?_, hzero⟩
      by_cases hm : s.chan.matchCount = 0
      · exact hunmatched h0 hm
      -- a match that is up would have been taken
      · obtain ⟨-, hne, hpm⟩ := hroute h0 hm
        rw [if_pos hne, hpm] at hwait
        cases hwait
  · rw [if_neg hwait]
    have hd0 : d ≠ 0 := by
      intro hz
      rw [if_neg (fun hne => hne hz)] at hwait
      exact (hroute (hzero hz) hwait).2.1 hz
    have hold : o.provider = 0 → s.chan.roster.Oldest d := fun h0 =>
      (hroute h0 fun hm => hd0 (hunmatched h0 hm)).1
    refine h.made rfl _ [_] (Nat.le_refl 1) (fun x hx => ?_) (fun hq => by cases hq) fun hn => ?_
    · rw [List.mem_singleton.mp hx]
      exact ⟨rfl, rfl, rfl, d, if_neg hd0, fun hn => hold (hunnamed.mp hn)⟩
    · obtain ⟨p, hp, hid, -⟩ := hold (hunnamed.mp hn)
      exact Or.inr ⟨⟨_, List.mem_singleton.mpr rfl⟩, p, hp, hid⟩

/-- The entry a refused send takes is the only one with its id. -/
theorem takePending_ne {k : Nat} : ∀ {l : List Pending},
    l.Pairwise (fun p q => p.callId ≠ q.callId) → ∀ p ∈ Caller.takePending l k, p.callId ≠ k
  | [], _, p, hp => absurd hp List.not_mem_nil
  | x :: l, hl, p, hp => by
    obtain ⟨hx, hrest⟩ := List.pairwise_cons.mp hl
    unfold Caller.takePending at hp
    by_cases heq : x.callId = k
    · rw [List.eraseP_cons_of_pos (by simp [heq])] at hp
      rw [← heq]
      exact fun h => hx p hp h.symm
    · rw [List.eraseP_cons_of_neg (by simp [heq])] at hp
      rcases List.mem_cons.mp hp with rfl | hp
      · exact heq
      · exact takePending_ne hrest p hp

/-- A send off the list, and a channel whose log grew by its call at most. -/
theorem Book.posted (h : Book frag none s) {i : Nat} {x : Posting} (hi : s.posting[i]? = some x)
    {c : ReqChannel} (hc : ChanInv frag c) {l : List Pending} (hl : l.Sublist s.pending)
    (hcount : ∀ k, c.sent.countP (fun r => r.serial == some k) ≤
      s.chan.sent.countP (fun r => r.serial == some k) + if x.serial = some k then 1 else 0)
    (hrouted : ∀ r ∈ c.sent, r.serial.isSome → r.named = false → r.Routed)
    (hkept : ∀ r ∈ s.chan.sent, r ∈ c.sent) (hup : ∀ d, s.chan.Up d → c.Up d)
    (hx : ∀ p ∈ l, x.serial = some p.serial → s.chan.Up p.dest →
      ∃ r ∈ c.sent, r.serial = some p.serial) :
    Book frag none { s with posting := s.posting.eraseIdx i, chan := c, pending := l } := by
  obtain ⟨f, r, hsplit, -, herase⟩ := split_at hi
  have hsub : ∀ y ∈ s.posting.eraseIdx i, y ∈ s.posting := fun y hy =>
    (List.eraseIdx_sublist s.posting i).subset hy
  obtain ⟨honce, hold⟩ := h.counts
    { s with posting := s.posting.eraseIdx i, chan := c, pending := l } (Nat.le_refl _) fun k => by
      have hk := hcount k
      have hle := hl.countP_le (p := fun p => p.queuedReq.isSome && p.serial == k)
      refine Or.inl ?_
      unfold Caller.stands
      dsimp only
      rw [herase, hsplit, List.countP_append, List.countP_append, List.countP_cons]
      by_cases hxk : x.serial = some k
      · simp [hxk] at hk ⊢
        omega
      · simp [hxk] at hk ⊢
        omega
  refine ⟨hc, honce, hold, fun p hp => h.pending_old p (hl.subset hp),
    fun y hy p hp => h.link y (hsub y hy) p (hl.subset hp), fun y hy => h.posting y (hsub y hy),
    fun p hp => h.entries p (hl.subset hp), hrouted, fun p hp hn => ?_, h.task⟩
  refine (h.waiting p (hl.subset hp) hn).keep hkept (fun y hy hys hu => ?_) fun _ hg => by cases hg
  rw [hsplit] at hy
  have hrest : y ∈ s.posting.eraseIdx i ∨ y = x := by
    rw [herase]
    simp only [List.mem_append, List.mem_cons] at hy ⊢
    tauto
  rcases hrest with hy | rfl
  · exact Waits.onWay hy hys (hup _ hu)
  · exact Or.inr (Or.inl (hx p hp hys hu))

/-- A send that left the lock, made. -/
theorem Book.sendPosted (h : Book frag none s) (hF : 0 < frag) (hF' : frag ≤ 65535) (i : Nat)
    (how : How) (hsound : ∀ x, s.posting[i]? = some x →
      ¬ s.chan.Fits frag x.body.length ∨ how.al.bufOk = false →
        s.pending.Pairwise fun p q => p.callId ≠ q.callId) :
    Book frag none (s.sendPosted frag i how) := by
  unfold Caller.sendPosted
  split
  next => exact h
  next x hi =>
  have hmem : x ∈ s.posting := List.mem_of_getElem? hi
  dsimp only
  split
  next c hpost =>
    obtain ⟨hinv, hpeers, hused, -, -, -, hout⟩ := h.chan.post hF hF' (h.posting x hmem).1 hpost
    obtain ⟨-, hup⟩ := post_up hpeers hused
    rcases hout with ⟨rfl, hzero⟩ | ⟨q, hsent, hqs, hqn, hqd, hqr⟩
    · -- nobody is matched: no entry of a call to a live match is left
      refine h.posted hi h.chan (List.Sublist.refl _) (fun k => Nat.le_add_right _ _) h.routed
        (fun _ hr => hr) (fun _ hu => hu) fun p _ _ ⟨y, hy, _⟩ => ?_
      exact absurd hzero (h.chan.chain.matched.mpr ⟨y, hy.1⟩)
    · have hmem' : ∀ r, r ∈ s.chan.sent ∨ r = q → r ∈ c.sent := by
        intro r hr
        rw [hsent]
        exact List.mem_append.mpr (hr.imp_right List.mem_singleton.mpr)
      refine h.posted hi hinv (List.Sublist.refl _) (fun k => ?_)
        (h.routed_post hinv hsent fun hs hn => ?_) (fun r hr => hmem' r (Or.inl hr))
        (fun d => (hup d).mpr) fun p _ hxs _ => ⟨q, hmem' q (Or.inr rfl), hqs.trans hxs⟩
      · rw [hsent, List.countP_append, List.countP_singleton, hqs]
        simp
      · obtain ⟨d, hd, hold⟩ := (h.posting x hmem).2 (hqs ▸ hs) (hqn ▸ hn)
        exact ⟨d, hqd.trans hd, hqr ▸ hold⟩
  next hrefused =>
    have hwhy : ¬ s.chan.Fits frag x.body.length ∨ how.al.bufOk = false := by
      by_contra hno
      rw [not_or, not_not, Bool.not_eq_false] at hno
      obtain ⟨c, hc⟩ := h.chan.post_some hno.1 hno.2
      cases hrefused.symm.trans hc
    have hids := hsound x hi hwhy
    -- what waits still does once the entry of the send is out
    have hkeep : ∀ l : List Pending, l.Sublist s.pending →
        (∀ p ∈ l, x.serial ≠ some p.serial) →
        Book frag none { s with posting := s.posting.eraseIdx i, pending := l } :=
      fun l hl hno => h.posted hi h.chan hl (fun k => Nat.le_add_right _ _) h.routed
        (fun _ hr => hr) (fun _ hu => hu) fun p hp hxs => absurd hxs (hno p hp)
    split
    next =>
      refine hkeep _ (List.eraseP_sublist) fun p hp hxp => ?_
      have hold : p ∈ s.pending := (List.eraseP_sublist).subset hp
      exact takePending_ne hids p hp (h.link x hmem p hold hxp).2.symm
    next hop =>
      refine hkeep _ (List.Sublist.refl _) fun p hp hxp => ?_
      have := (h.link x hmem p hp hxp).1
      rw [hop] at this
      cases this

/-! ## Entries, cancels and events of the table -/

/-- Entries marked where they stand. -/
theorem Book.mark (h : Book frag none s) {f : Pending → Pending}
    (hf : ∀ p, (f p).serial = p.serial ∧ (f p).named = p.named ∧ (f p).callId = p.callId ∧
      (f p).dest = p.dest ∧ (f p).queuedReq = p.queuedReq) :
    Book frag none { s with pending := s.pending.map f } := by
  have hcount : ∀ k, (s.pending.map f).countP (fun p => p.queuedReq.isSome && p.serial == k) =
      s.pending.countP fun p => p.queuedReq.isSome && p.serial == k := by
    intro k
    rw [List.countP_map]
    refine List.countP_congr fun p _ => ?_
    show ((f p).queuedReq.isSome && (f p).serial == k) = true ↔ _
    rw [(hf p).1, (hf p).2.2.2.2]
  obtain ⟨honce, hold⟩ := h.counts { s with pending := s.pending.map f } (Nat.le_refl _) fun k => by
    refine Or.inl (Nat.le_of_eq ?_)
    unfold Caller.stands
    rw [hcount]
  refine ⟨h.chan, honce, hold, fun p hp => ?_, fun x hx p hp hxp => ?_, h.posting,
    fun p hp hq => ?_, h.routed, fun p hp hn => ?_, h.task⟩
  · obtain ⟨q, hq, rfl⟩ := List.mem_map.mp hp
    rw [(hf q).1]
    exact h.pending_old q hq
  · obtain ⟨q, hq, rfl⟩ := List.mem_map.mp hp
    rw [(hf q).1] at hxp
    rw [(hf q).2.2.1]
    exact h.link x hx q hq hxp
  · obtain ⟨q, hq', rfl⟩ := List.mem_map.mp hp
    obtain ⟨-, hnamed, -, hdest, hqueued⟩ := hf q
    rw [hqueued] at hq
    rw [hnamed, hdest]
    exact h.entries q hq' hq
  · obtain ⟨q, hq, rfl⟩ := List.mem_map.mp hp
    obtain ⟨hserial, hnamed, -, hdest, hqueued⟩ := hf q
    rw [hnamed] at hn
    have hw := h.waiting q hq hn
    unfold Waits at hw ⊢
    rw [hserial, hdest, hqueued]
    exact hw

/-- A CANCEL leaves the lock. -/
theorem Book.cancel (h : Book frag none s) (callId : Nat) (d : Nat) :
    Book frag none { s with posting := s.posting ++ [{
      serial := none, named := true, callId := callId, op := .cancel, dest := some d, body := []
      roster := s.chan.roster }] } := by
  obtain ⟨x, hx⟩ : ∃ x : Posting, x = {
      serial := none, named := true, callId := callId, op := .cancel, dest := some d, body := []
      roster := s.chan.roster } := ⟨_, rfl⟩
  rw [← hx]
  have hserial : x.serial = none := by rw [hx]
  obtain ⟨honce, hold⟩ := h.counts { s with posting := s.posting ++ [x] } (Nat.le_refl _) fun k => by
    refine Or.inl (Nat.le_of_eq ?_)
    unfold Caller.stands
    dsimp only
    rw [List.countP_append, List.countP_singleton, hserial]
    rfl
  have hback : ∀ y ∈ s.posting ++ [x], y ∈ s.posting ∨ y = x := fun y hy =>
    (List.mem_append.mp hy).imp_right List.mem_singleton.mp
  refine ⟨h.chan, honce, hold, h.pending_old, fun y hy p hp hyp => ?_, fun y hy => ?_, h.entries,
    h.routed, fun p hp hn => ?_, h.task⟩
  · rcases hback y hy with hy | rfl
    · exact h.link y hy p hp hyp
    · cases hserial.symm.trans hyp
  · rcases hback y hy with hy | rfl
    · exact h.posting y hy
    · rw [hx]
      exact ⟨Option.some_ne_none d, fun hno => by cases hno⟩
  · exact (h.waiting p hp hn).keep (fun _ hr => hr)
      (fun y hy hys hu => Waits.onWay (List.mem_append_left _ hy) hys hu) fun _ hg => by cases hg

variable {c' : ReqChannel}

/-- Peer `d` is still up where its row and its lane stand. -/
theorem Up.keep {c : ReqChannel} (hu : c.Up d)
    (hkeep : ∀ p, (peerAt c.peers p).id = d → c.roster.Live p →
      c'.roster.Live p ∧ (peerAt c'.peers p).id = d) : c'.Up d := by
  obtain ⟨p, hp, hid⟩ := hu
  obtain ⟨hp', hid'⟩ := hkeep p hid hp
  exact ⟨p, hp', hid'⟩

variable {p : Nat}

theorem ReqChannel.Up.used {c : ReqChannel} (h : ChanInv frag c) (hu : c.Up d)
    (hp : peerSlot c.peers d = some p) : c.roster.Live p := by
  obtain ⟨q, hq, hid⟩ := hu
  obtain ⟨-, hpu, hpid⟩ := peerSlot_some hp
  rw [h.ids.inj p q hpu (h.peer q hq.1) (hpid.trans hid.symm)]
  exact hq

variable {id : Nat}

/-- A peer that fell silent leaves every other as it was. -/
theorem ReqChannel.Up.dormant {c : ReqChannel} (hu : c.Up d) (hne : d ≠ id) :
    ({ c with peers := peerSetDormant c.peers id true } : ReqChannel).Up d := by
  refine Up.keep hu fun p hid hp => ?_
  obtain ⟨-, hpid, hdorm⟩ := peerAt_setDormant c.peers id true p
  refine ⟨⟨hp.1, ?_⟩, hpid.trans hid⟩
  show (peerAt (peerSetDormant c.peers id true) p).dormant = false
  rw [hdorm fun hs => hne (hid.symm.trans (peerSlot_some hs).2.2)]
  exact hp.2

theorem ReqChannel.Up.resume {c : ReqChannel} (hu : c.Up d) :
    ({ c with peers := peerSetDormant c.peers id false } : ReqChannel).Up d := by
  refine Up.keep hu fun p hid hp => ?_
  obtain ⟨-, hpid, hdorm⟩ := peerAt_setDormant c.peers id false p
  refine ⟨⟨hp.1, ?_⟩, hpid.trans hid⟩
  show (peerAt (peerSetDormant c.peers id false) p).dormant = false
  by_cases hs : peerSlot c.peers id = some p
  · unfold peerSetDormant
    rw [hs]
    dsimp only
    rw [peerAt_modify (peerSlot_some hs).1, if_pos rfl]
  · rw [hdorm hs]
    exact hp.2

theorem ReqChannel.Up.add {c : ReqChannel} (h : ChanInv frag c) (hu : c.Up d) :
    ({ c with peers := peerAdd c.peers id } : ReqChannel).Up d := by
  refine Up.keep hu fun p hid hp => ?_
  have hpu := h.peer p hp.1
  have hsame : peerAt (peerAdd c.peers id) p = peerAt c.peers p := by
    rcases peerAdd_cases c.peers id with heq | ⟨-, q, hlt, hfree, heq⟩
    · rw [heq]
    · rw [heq, peerAt_set hlt, if_neg]
      rintro rfl
      rw [hfree] at hpu
      cases hpu
  refine ⟨⟨hp.1, ?_⟩, ?_⟩
  · show (peerAt (peerAdd c.peers id) p).dormant = false
    rw [hsame]
    exact hp.2
  · show (peerAt (peerAdd c.peers id) p).id = d
    rw [hsame]
    exact hid

/-- A lane that comes up or goes leaves every other as it was. -/
theorem ReqChannel.Up.rematch {c : ReqChannel} (hu : c.Up d) {wuse : Bool}
    (hne : (peerAt c.peers p).id ≠ d ∨ wuse = true) (subReliable : Bool) :
    (c.rematch p wuse subReliable).Up d := by
  have hpeers := (rematch_peers c p wuse subReliable).1
  refine Up.keep hu fun q hid hq => ⟨⟨?_, ?_⟩, ?_⟩
  · show ((c.rematch p wuse subReliable).lanes q).used = true
    rw [rematch_used]
    split
    next heq =>
      rcases hne with hne | hw
      · exact absurd (heq ▸ hid) hne
      · exact hw
    next => exact hq.1
  · show (peerAt (c.rematch p wuse subReliable).peers q).dormant = false
    rw [hpeers]
    exact hq.2
  · rw [hpeers]
    exact hid

theorem ReqChannel.Up.remove {c : ReqChannel} (hlt : p < c.peers.length)
    (hu : c.Up d) (hne : (peerAt c.peers p).id ≠ d) : (c.removePeer p).Up d := by
  have hpeers := (rematch_peers c p false false).1
  have hlt' : p < (c.rematch p false false).peers.length := by
    rw [hpeers]
    exact hlt
  have hmid : (c.rematch p false false).Up d := hu.rematch (Or.inl hne) false
  refine Up.keep hmid fun q hid hq => ?_
  have hqp : q ≠ p := by
    rintro rfl
    rw [hpeers] at hid
    exact hne hid
  have hsame : peerAt (c.removePeer p).peers q = peerAt (c.rematch p false false).peers q := by
    show peerAt (peerFree (c.rematch p false false).peers p) q = _
    unfold peerFree
    rw [peerAt_modify hlt', if_neg hqp]
  refine ⟨⟨hq.1, ?_⟩, ?_⟩
  · show (peerAt (c.removePeer p).peers q).dormant = false
    rw [hsame]
    exact hq.2
  · rw [hsame]
    exact hid

/-- A peer whose slot went has no lane. -/
theorem ChanInv.removed (h : ChanInv frag c) (hp : peerSlot c.peers id = some p) :
    (c.removePeer p).peerMatched id = false := by
  obtain ⟨hlt, hu, hid⟩ := peerSlot_some hp
  have hinv := h.removePeer hlt hu
  rw [hinv.peerMatched_false]
  intro q hq
  obtain ⟨-, hqu, hqid⟩ := peerSlot_some hq
  by_cases hqp : q = p
  · show ((c.rematch p false false).lanes q).used = false
    rw [rematch_used, if_pos hqp]
  -- the row was not of this peer before either
  exfalso
  have hpeers := (rematch_peers c p false false).1
  have hsame : peerAt (c.removePeer p).peers q = peerAt c.peers q := by
    show peerAt (peerFree (c.rematch p false false).peers p) q = _
    unfold peerFree
    rw [hpeers, peerAt_modify hlt, if_neg hqp]
  rw [hsame] at hqu hqid
  exact hqp (h.ids.inj q p hqu hu (hqid.trans hid.symm))

theorem removePeer_sent (c : ReqChannel) (p : Nat) : (c.removePeer p).sent = c.sent :=
  (rematch_peers c p false false).2.1

/-! ## Events -/

/-- PEER_DOWN: of the calls of every other peer some may leave, and of this one all do. -/
theorem Book.down (h : Book frag none s) (hc : ChanInv frag c') (hsent : c'.sent = s.chan.sent)
    (hup : ∀ d, d ≠ id → s.chan.Up d → c'.Up d) :
    Book frag none (Caller.onDown { s with chan := c' } id) := by
  obtain ⟨l, hl⟩ : ∃ l, l = (Caller.onDown { s with chan := c' } id).pending := ⟨_, rfl⟩
  have hsub : l.Sublist (s.pending.filter fun p => p.dest != id) := by
    rw [hl]
    unfold Caller.onDown
    dsimp only
    split
    next => exact List.filter_sublist
    next => exact List.Sublist.refl _
  have hform : Caller.onDown { s with chan := c' } id = { s with chan := c', pending := l } := by
    rw [hl]
    rfl
  rw [hform]
  refine h.move hc hsent (hsub.trans List.filter_sublist) fun p hp hu => Or.inl (hup _ ?_ hu)
  have hne := (List.mem_filter.mp (hsub.subset hp)).2
  exact bne_iff_ne.mp hne

theorem Book.gone (h : Book frag none s) (id : Nat) :
    Book frag none (Caller.step frag s (.gone id)) := by
  unfold Caller.step
  dsimp only
  split
  next => exact h
  next p hp =>
  obtain ⟨hlt, hu, hid⟩ := peerSlot_some hp
  have hinv := h.chan.removePeer hlt hu
  have hother : ∀ d, d ≠ id → s.chan.Up d → (s.chan.removePeer p).Up d := by
    intro d hne hd
    refine hd.remove hlt ?_
    rw [hid]
    exact hne.symm
  cases hdorm : (peerAt s.chan.peers p).dormant with
  | true =>
    refine h.setChan hinv (removePeer_sent _ _) fun d hd => hother d ?_ hd
    rintro rfl
    -- a peer that fell silent is not up
    have hlive := hd.used h.chan hp
    have hno : (peerAt s.chan.peers p).dormant = false := hlive.2
    rw [hno] at hdorm
    cases hdorm
  | false => exact h.down hinv (removePeer_sent _ _) hother

variable {how : Nat → How}

/-- The lane of a peer's slot went, or came up: what waits is flushed and what was severed
reaped. -/
theorem Book.onInterest (h : Book frag none s) (hF : 0 < frag) (hF' : frag ≤ 65535)
    (hc : ChanInv frag c') (hsent : c'.sent = s.chan.sent)
    (hup : ∀ d, s.chan.Up d → c'.Up d ∨ d = id ∧ c'.peerMatched d = false)
    (hsound : Caller.FlushSound frag how { s with chan := c' }) :
    Book frag none (Caller.onInterest frag how { s with chan := c' } id) := by
  have hmoved : Book frag (some id) { s with chan := c' } := by
    refine h.move hc hsent (List.Sublist.refl _) fun p _ hu => ?_
    rcases hup _ hu with hu | ⟨heq, hm⟩
    · exact Or.inl hu
    · exact Or.inr ⟨congrArg some heq.symm, hm⟩
  exact (hmoved.flushQueued hF hF' hsound).reapSevered

theorem Book.giveBack (h : Book frag none s) (hF : 0 < frag) (hF' : frag ≤ 65535)
    (hsound : Caller.Sound frag s (.giveBack id how)) :
    Book frag none (Caller.step frag s (.giveBack id how)) := by
  unfold Caller.step
  dsimp only
  split
  next => exact h
  next p hp =>
  obtain ⟨hlt, hu, hid⟩ := peerSlot_some hp
  refine h.onInterest hF hF' (h.chan.removePeer hlt hu) (removePeer_sent _ _) (fun d hd => ?_)
    (hsound p hp)
  by_cases hd' : d = id
  · refine Or.inr ⟨hd', ?_⟩
    rw [hd']
    exact h.chan.removed hp
  · refine Or.inl (hd.remove hlt ?_)
    rw [hid]
    exact fun h => hd' h.symm

theorem Book.interest (h : Book frag none s) (hF : 0 < frag) (hF' : frag ≤ 65535)
    {wuse subReliable : Bool} (hsound : Caller.Sound frag s (.interest id wuse subReliable how)) :
    Book frag none (Caller.step frag s (.interest id wuse subReliable how)) := by
  unfold Caller.step
  dsimp only
  split
  next => exact h
  next p hp =>
  obtain ⟨-, hu, hid⟩ := peerSlot_some hp
  have hinv := h.chan.rematch hu wuse subReliable
  refine h.onInterest hF hF' hinv (rematch_peers _ _ _ _).2.1 (fun d hd => ?_) (hsound p hp)
  cases hw : wuse with
  | true => exact Or.inl (hd.rematch (Or.inr rfl) subReliable)
  | false =>
    by_cases hd' : d = id
    · refine Or.inr ⟨hd', ?_⟩
      rw [hw] at hinv
      rw [hinv.peerMatched_false]
      intro q hq
      rw [(rematch_peers _ _ _ _).1, hd', hp] at hq
      rw [rematch_used, if_pos (Option.some.inj hq).symm]
    · refine Or.inl (hd.rematch (Or.inl ?_) subReliable)
      rw [hid]
      exact fun h => hd' h.symm

theorem Book.formed (h : Book frag none s) (id : Nat) (subReliable : Bool) :
    Book frag none (Caller.step frag s (.formed id subReliable)) := by
  unfold Caller.step
  dsimp only
  split
  next => exact h
  next p hp =>
  obtain ⟨-, hu, -⟩ := peerSlot_some hp
  exact h.setChan (h.chan.rematch hu true subReliable) (rematch_peers _ _ _ _).2.1 fun d hd =>
    hd.rematch (Or.inr rfl) subReliable

theorem Book.cancelled (h : Book frag none s) (callId : Nat) (cancellable : Bool) :
    Book frag none (Caller.step frag s (.cancel callId cancellable)) := by
  unfold Caller.step
  dsimp only
  split
  next => exact h
  next p hp =>
    split
    next => exact h.shrink List.eraseP_sublist
    split
    next => exact h
    next => exact h.cancel callId p.dest

/-- The lane of a slot is polled, or acked. -/
theorem Book.wire (h : Book frag none s) {x : WriterSide} {got : List (Nat × Nat)}
    (hu : x.w.used = (s.chan.lanes p).used)
    (hc : ChanInv frag { s.chan.setSide p x with got := got }) :
    Book frag none { s with chan := { s.chan.setSide p x with got := got } } := by
  refine h.setChan hc rfl fun d hd => Up.keep hd fun q hid hq => ⟨⟨?_, hq.2⟩, hid⟩
  show (if q = p then x.w else s.chan.lanes q).used = true
  split
  next heq =>
    rw [hu, ← heq]
    exact hq.1
  next => exact hq.1

/-- Every event under its condition. -/
theorem Book.step (h : Book frag none s) (hF : 0 < frag) (hF' : frag ≤ 65535) (e : CallerEvent)
    (hsound : Caller.Sound frag s e) : Book frag none (Caller.step frag s e) := by
  cases e with
  | peerAdd id =>
    unfold Caller.step
    dsimp only
    split
    next => exact h
    next hid => exact h.setChan (h.chan.peerAdd hid) rfl fun _ hd => hd.add h.chan
  | drop id => exact h.down (h.chan.setDormant id true) rfl fun _ hne hd => hd.dormant hne
  | resume id => exact h.setChan (h.chan.setDormant id false) rfl fun _ hd => hd.resume
  | gone id => exact h.gone id
  | giveBack id how => exact h.giveBack hF hF' hsound
  | interest id wuse subReliable how => exact h.interest hF hF' hsound
  | formed id subReliable => exact h.formed id subReliable
  | call req o ok queueOk => exact h.call req o ok queueOk hsound
  | send i how => exact h.sendPosted hF hF' i how hsound
  | tick nowUs how => exact (h.flushQueued hF hF' hsound).shrink List.filter_sublist
  | running callId =>
    refine h.mark fun p => ?_
    split <;> exact ⟨rfl, rfl, rfl, rfl, rfl⟩
  | answered callId => exact h.shrink List.eraseP_sublist
  | cancel callId cancellable => exact h.cancelled callId cancellable
  | emit p shm cap nowUs =>
    refine h.wire ?_ (h.chan.emit p shm cap nowUs (peerAt s.chan.peers p).dormant rfl)
    exact matched_used (writerEmit_matched _ _ _ (s.chan.side p))
  | nack p m nowUs =>
    unfold Caller.step
    dsimp only
    split
    next hm =>
      refine h.wire ?_ (h.chan.nack nowUs hm)
      exact matched_used (writerNack_matched _ _ (s.chan.side p) _ _)
    next => exact h
  | fresh opened => exact h.setChan (h.chan.fresh _ _) rfl fun _ hd => hd

/-- Nobody matched and nothing sent. -/
theorem ChanBase.init (c : CallerCfg) (isTask : Bool) :
    ChanBase c.frag (Caller.init c isTask).chan := by
  have hnobody : ∀ p, (peerAt (Caller.init c isTask).chan.peers p).used ≠ true := by
    intro p
    have hat : peerAt (Caller.init c isTask).chan.peers p = {} := by
      show (List.replicate c.maxPeers ({} : PeerSlot)).getD p {} = {}
      rw [List.getD_eq_getElem?_getD, List.getElem?_replicate]
      split <;> rfl
    rw [hat]
    exact Bool.false_ne_true
  have hchain : (Caller.init c isTask).chan.req.laneChain = [] := c.chain_eq
  constructor
  case ids => exact ⟨fun p _ hp => absurd hp (hnobody p), fun p hp => absurd hp (hnobody p)⟩
  case chain =>
    constructor
    · rw [hchain]
      exact List.nodup_nil
    · intro p
      rw [hchain]
      exact ⟨fun h => absurd h List.not_mem_nil, fun h => Bool.noConfusion h⟩
    · rw [hchain]
      exact c.matched_eq
    · rw [hchain]
      exact List.Pairwise.nil
    · exact fun _ h => Bool.noConfusion h
  case peer => exact fun _ h => Bool.noConfusion h
  case log =>
    have hist : History c.frag c.req [] :=
      history_cleared c.keep_pos c.history_eq c.head_eq c.first_eq
    exact ⟨[], ⟨hist, c.directed, c.role, fun _ h => Bool.noConfusion h⟩, rfl⟩
  case owner => exact fun _ hr => absurd hr List.not_mem_nil

theorem ChanInv.init (c : CallerCfg) : ChanInv c.frag (Caller.init c).chan :=
  ⟨ChanBase.init c true, fun _ hr => absurd hr List.not_mem_nil, fun _ hx => absurd hx List.not_mem_nil⟩

/-- No call made. -/
theorem Book.init (c : CallerCfg) : Book c.frag none (Caller.init c) where
  chan := ChanInv.init c
  once _ := Nat.zero_le 1
  old _ _ := rfl
  pending_old _ hp := absurd hp List.not_mem_nil
  link _ hx := absurd hx List.not_mem_nil
  posting _ hx := absurd hx List.not_mem_nil
  entries _ hp := absurd hp List.not_mem_nil
  routed _ hr := absurd hr List.not_mem_nil
  waiting _ hp := absurd hp List.not_mem_nil
  task := rfl

/-- In every run whose steps meet the condition, every task request is directed. -/
theorem calls_directed (c : CallerCfg) (es : List CallerEvent)
    (h : Along (Caller.step c.frag) (Caller.Sound c.frag) (Caller.init c) es) :
    (run (Caller.step c.frag) (Caller.init c) es).AllDirected := by
  have hbook := run_invariant_along (Book c.frag none)
    (fun s e hs he => hs.step c.frag_pos c.frag_le e he) es (Caller.init c) (Book.init c) h
  exact hbook.directed

/-- One definition matches, a call is made, sent and put on the wire. -/
def oneCall : List CallerEvent :=
  [.peerAdd 7, .interest 7 true true fun _ => granted, .call [1] ⟨0, 0, 0, false⟩ true true,
    .send 0 granted, .emit 0 false 1400 0]

/-- It gets the call, and nobody else does. -/
theorem calls_directed_one :
    (run (Caller.step reqCfg.frag) (Caller.init reqCfg) oneCall).AllDirected ∧
      (run (Caller.step reqCfg.frag) (Caller.init reqCfg) oneCall).chan.got = [(7, 0)] := by
  refine ⟨calls_directed reqCfg oneCall ⟨trivial, ?_, ?_, ?_, trivial, trivial⟩, by decide +kernel⟩
  · intro p _ x hx
    exact absurd hx List.not_mem_nil
  · intro _ _
    exact ⟨0, by decide +kernel, by decide +kernel⟩
  · intro x _ _
    exact List.pairwise_singleton _ _

end Rant.Patterns
