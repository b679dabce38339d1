import Rant.Patterns.Requests
/-!
# Whose samples a request lane carries

The invariant of the request channel: the chain is the used lanes in the order they matched,
a lane's positions are those of a directed lane, and a sample since a lane joined that names
the lane's slot was sent to the peer that has the slot.

`ChanBase` holds whatever is sent, `ChanInv` where every send names a peer. The two parts meet in
`owner`: a slot may pass to another peer, but only through an unmatch that ends the lane, and the
next lane joins behind every sample of the one before. So a sample that names the slot and is not
older than its lane is for the peer the slot has now.
-/

namespace Rant.Patterns

open Rant.Lib
open Rant.Transport
open ReqChannel (How)

/-- The seqnos of the sample. -/
def Request.holds (r : Request) (q : Nat) : Prop := r.base ≤ q ∧ q < r.base + r.count

/-- What a request and its sample share. -/
def Request.key (r : Request) : Nat × Nat × Dest := (r.base, r.count, r.slot)

/-- What a sample and its request share. -/
def sampleKey (s : WriterSample) : Nat × Nat × Dest := (s.base, s.count, s.dest)

/-- The chain of the channel: its used lanes, newest first. -/
structure Chain (c : ReqChannel) : Prop where
  nodup : c.req.laneChain.Nodup
  mem : ∀ p, p ∈ c.req.laneChain ↔ (c.lanes p).used = true
  count : c.req.matchedWriters = c.req.laneChain.length
  order : c.req.laneChain.Pairwise fun p q => c.since q < c.since p
  since : ∀ p, (c.lanes p).used = true → c.since p < c.matched

/-- The lanes of the channel over the log `S`. -/
structure Lanes (frag : Nat) (c : ReqChannel) (S : List WriterSample) : Prop where
  hist : History frag c.req S
  directed : Directed c.req
  role : c.req.role = .pubOnly
  ok : ∀ p, (c.lanes p).used = true →
    LaneOk c.req p (c.joined p) (c.lanes p) ∧ Boundary S (c.joined p)

/-- The invariant of the channel, whatever is sent on it. -/
structure ChanBase (frag : Nat) (c : ReqChannel) : Prop where
  ids : IdsOk c.peers
  chain : Chain c
  peer : ∀ p, (c.lanes p).used = true → (peerAt c.peers p).used = true
  log : ∃ S, Lanes frag c S ∧ S.map sampleKey = c.sent.map Request.key
  owner : ∀ r ∈ c.sent, ∀ p, r.slot = .slot p → (c.lanes p).used = true → c.joined p ≤ r.base →
    r.dest = some (peerAt c.peers p).id

/-- The invariant of a channel whose every send is directed. -/
structure ChanInv (frag : Nat) (c : ReqChannel) : Prop extends ChanBase frag c where
  directed : ∀ r ∈ c.sent, r.dest ≠ none ∧ r.slot ≠ .all
  got : ∀ x ∈ c.got, ∃ r ∈ c.sent, r.holds x.2 ∧ r.dest = some x.1

variable {frag : Nat} {c : ReqChannel} {S : List WriterSample}

/-! ## Who is matched -/

theorem Chain.matched (h : Chain c) : c.matchCount ≠ 0 ↔ ∃ p, (c.lanes p).used = true := by
  have hcount : c.matchCount = c.req.laneChain.length := h.count
  rw [hcount]
  constructor
  · intro hne
    obtain ⟨p, hp⟩ := List.exists_mem_of_length_pos (Nat.pos_of_ne_zero hne)
    exact ⟨p, (h.mem p).mp hp⟩
  · rintro ⟨p, hp⟩
    exact Nat.ne_of_gt (List.length_pos_of_mem ((h.mem p).mpr hp))

variable {p : Nat}

theorem liveLane_iff :
    liveLane c.peers c.lanes p = true ↔ c.roster.Live p := by
  unfold liveLane Roster.Live
  rw [Bool.and_eq_true, Bool.not_eq_true']
  exact Iff.rfl

theorem ChanBase.peerMatched_iff (h : ChanBase frag c)
    (hu : (peerAt c.peers p).used = true) :
    c.peerMatched (peerAt c.peers p).id = true ↔ (c.lanes p).used = true := by
  unfold ReqChannel.peerMatched publisherPeerMatched
  rw [h.ids.slot hu]
  dsimp only
  rw [List.any_eq_true]
  constructor
  · rintro ⟨q, -, hq⟩
    rw [Bool.and_eq_true, beq_iff_eq] at hq
    rw [← hq.2]
    exact hq.1
  · intro hp
    refine ⟨p, (h.chain.mem p).mpr hp, ?_⟩
    rw [hp, beq_self_eq_true]
    rfl

theorem oldest_cases (c : ReqChannel) :
    ((∀ p ∈ c.req.laneChain, liveLane c.peers c.lanes p = false) ∧ c.oldestMatch = 0) ∨
      ∃ l p r, c.req.laneChain = l ++ p :: r ∧ liveLane c.peers c.lanes p = true ∧
        (∀ q ∈ r, liveLane c.peers c.lanes q = false) ∧ c.oldestMatch = (peerAt c.peers p).id :=
  oldestMatch_cases

/-- With a match up, the pick is the oldest of them, and it is matched. -/
theorem ChanBase.oldest (h : ChanBase frag c) (hlive : ∃ p, c.roster.Live p) :
    c.roster.Oldest c.oldestMatch ∧ c.oldestMatch ≠ 0 ∧ c.peerMatched c.oldestMatch = true := by
  obtain ⟨x, hx⟩ := hlive
  have hxc : x ∈ c.req.laneChain := (h.chain.mem x).mpr hx.1
  rcases oldest_cases c with
    ⟨hnone, -⟩ | ⟨l, p, r, hl, hp, hr, hid⟩
  · have := hnone x hxc
    rw [liveLane_iff.mpr hx] at this
    cases this
  · have hpl := liveLane_iff.mp hp
    have hpu := h.peer p hpl.1
    have hold : c.oldestMatch = (peerAt c.peers p).id := hid
    rw [hold]
    refine ⟨⟨p, hpl, rfl, fun q hq => ?_⟩, h.ids.pos p hpu, (h.peerMatched_iff hpu).mpr hpl.1⟩
    have hqc : q ∈ l ++ p :: r := by
      rw [← hl]
      exact (h.chain.mem q).mpr hq.1
    have horder := h.chain.order
    rw [hl] at horder
    rcases List.mem_append.mp hqc with hql | hqr
    · exact Nat.le_of_lt ((List.pairwise_append.mp horder).2.2 q hql p List.mem_cons_self)
    · rcases List.mem_cons.mp hqr with rfl | hqr
      · exact Nat.le_refl _
      · have := hr q hqr
        rw [liveLane_iff.mpr hq] at this
        cases this

/-! ## What leaves the channel be -/

theorem boundary_mono {x : WriterSample} {lo : Nat} (h : Boundary S lo) (hx : lo ≤ x.base) :
    Boundary (S ++ [x]) lo := by
  intro s hs hlt
  rcases List.mem_append.mp hs with hs | hs
  · exact h s hs hlt
  · rw [List.mem_singleton.mp hs] at hlt
    exact absurd hx (Nat.not_le_of_lt hlt)

/-- A topic whose history stands. -/
structure SameLog (t t' : Topic) : Prop where
  qos : t'.qos = t.qos
  history : t'.history = t.history
  head : t'.historyHead = t.historyHead
  next : t'.nextSeqno = t.nextSeqno
  first : t'.firstSeqno = t.firstSeqno
  have_first : t'.haveFirst = t.haveFirst
  directed : t'.directed = t.directed
  role : t'.role = t.role

theorem SameLog.lane {t t' : Topic} (h : SameLog t t') {lo : Nat} {w : WriterProxy}
    (hw : LaneOk t p lo w) : LaneOk t' p lo w :=
  hw.congr h.qos h.history h.head h.next

variable {c' : ReqChannel}

theorem Lanes.congr (h : Lanes frag c S) (ht : SameLog c.req c'.req)
    (hok : ∀ p, (c'.lanes p).used = true →
      LaneOk c.req p (c'.joined p) (c'.lanes p) ∧ Boundary S (c'.joined p)) : Lanes frag c' S := by
  refine ⟨h.hist.congr ht.qos ht.history ht.head ht.next ht.first ht.have_first, ⟨?_, ?_⟩, ?_, ?_⟩
  · exact ht.directed.trans h.directed.directed
  · rw [ht.qos]
    exact h.directed.catchUp
  · exact ht.role.trans h.role
  · intro p hp
    exact ⟨ht.lane (hok p hp).1, (hok p hp).2⟩

/-- Where nothing was sent or carried, only the rest is to be kept. -/
theorem ChanInv.of_base (h : ChanInv frag c) (hc : ChanBase frag c') (hsent : c'.sent = c.sent)
    (hgot : c'.got = c.got) : ChanInv frag c' := by
  refine ⟨hc, ?_, ?_⟩
  · rw [hsent]
    exact h.directed
  · rw [hsent, hgot]
    exact h.got

/-- A change of the peer table that moves nobody who is matched. -/
theorem ChanBase.setPeers (h : ChanBase frag c) {ps : List PeerSlot} (hids : IdsOk ps)
    (hkeep : ∀ p, (c.lanes p).used = true →
      (peerAt ps p).used = true ∧ (peerAt ps p).id = (peerAt c.peers p).id) :
    ChanBase frag { c with peers := ps } := by
  obtain ⟨S, hS, hkeys⟩ := h.log
  refine ⟨hids, ⟨h.chain.nodup, h.chain.mem, h.chain.count, h.chain.order, h.chain.since⟩,
    fun p hp => (hkeep p hp).1, ⟨S, ⟨hS.hist, hS.directed, hS.role, hS.ok⟩, hkeys⟩, ?_⟩
  intro r hr p hslot hp hj
  have := h.owner r hr p hslot hp hj
  rw [this]
  exact congrArg some (hkeep p hp).2.symm

theorem ChanBase.peerAdd (h : ChanBase frag c) {id : Nat} (hid : id ≠ 0) :
    ChanBase frag { c with peers := Rant.Transport.peerAdd c.peers id } := by
  refine h.setPeers (h.ids.add hid) fun p hp => ?_
  have hu := h.peer p hp
  rcases peerAdd_cases c.peers id with heq | ⟨-, q, hlt, hfree, heq⟩
  · rw [heq]
    exact ⟨hu, rfl⟩
  · rw [heq, peerAt_set hlt]
    have hne : p ≠ q := by
      intro heq
      rw [heq, hfree] at hu
      cases hu
    rw [if_neg hne]
    exact ⟨hu, rfl⟩

theorem peerAt_setDormant (ps : List PeerSlot) (id : Nat) (dormant : Bool) (p : Nat) :
    (peerAt (peerSetDormant ps id dormant) p).used = (peerAt ps p).used ∧
      (peerAt (peerSetDormant ps id dormant) p).id = (peerAt ps p).id ∧
      (peerSlot ps id ≠ some p →
        (peerAt (peerSetDormant ps id dormant) p).dormant = (peerAt ps p).dormant) := by
  unfold peerSetDormant
  split
  next => exact ⟨rfl, rfl, fun _ => rfl⟩
  next q hq =>
    rw [peerAt_modify (peerSlot_some hq).1]
    split
    next heq => exact ⟨rfl, rfl, fun hne => absurd (by rw [heq]; exact hq) hne⟩
    next => exact ⟨rfl, rfl, fun _ => rfl⟩

theorem ChanBase.setDormant (h : ChanBase frag c) (id : Nat) (dormant : Bool) :
    ChanBase frag { c with peers := peerSetDormant c.peers id dormant } := by
  refine h.setPeers (h.ids.setDormant id dormant) fun p hp => ?_
  obtain ⟨hu, hi, -⟩ := peerAt_setDormant c.peers id dormant p
  rw [hu, hi]
  exact ⟨h.peer p hp, rfl⟩

/-! ## Matching -/

/-- A lane comes up at the end of the line, past every sample. -/
theorem ChanBase.match (h : ChanBase frag c) (hu : (peerAt c.peers p).used = true)
    (hfree : (c.lanes p).used = false) (subReliable : Bool) :
    ChanBase frag (c.rematch p true subReliable) := by
  obtain ⟨S, hS, hkeys⟩ := h.log
  have hnone : p ∉ c.req.laneChain := by
    intro hmem
    rw [h.chain.mem, hfree] at hmem
    cases hmem
  obtain ⟨c', hc'⟩ : ∃ c', c' = c.rematch p true subReliable := ⟨_, rfl⟩
  have hform : c' = { c with
      req := { c.req with
        matchedWriters := c.req.matchedWriters + 1, laneChain := p :: c.req.laneChain }
      lanes := fun q => if q = p then writerMatch c.req subReliable else c.lanes q
      matched := c.matched + 1
      since := fun q => if q = p then c.matched else c.since q
      joined := fun q => if q = p then c.req.nextSeqno else c.joined q } := by
    rw [hc']
    unfold ReqChannel.rematch rematchWriter
    rw [hfree]
    rfl
  rw [← hc']
  have hused : ∀ q, (c'.lanes q).used = true ↔ q = p ∨ (c.lanes q).used = true := by
    intro q
    rw [hform]
    dsimp only
    split
    next heq => exact ⟨fun _ => Or.inl heq, fun _ => rfl⟩
    next hne => exact ⟨Or.inr, fun hq => hq.resolve_left hne⟩
  have hother : ∀ q, (c.lanes q).used = true → q ≠ p := by
    rintro q hq rfl
    rw [hfree] at hq
    cases hq
  refine ⟨?_, ⟨?_, ?_, ?_, ?_, ?_⟩, ?_, ⟨S, ?_, ?_⟩, ?_⟩
  · rw [hform]
    exact h.ids
  · rw [hform]
    exact List.nodup_cons.mpr ⟨hnone, h.chain.nodup⟩
  · intro q
    rw [hused, ← h.chain.mem, hform]
    exact List.mem_cons
  · rw [hform]
    show c.req.matchedWriters + 1 = (p :: c.req.laneChain).length
    rw [h.chain.count]
    rfl
  · rw [hform]
    refine List.pairwise_cons.mpr ⟨fun q hq => ?_, h.chain.order.imp_of_mem ?_⟩
    · have hq := (h.chain.mem q).mp hq
      show (if q = p then c.matched else c.since q) < (if p = p then c.matched else c.since p)
      rw [if_neg (hother q hq), if_pos rfl]
      exact h.chain.since q hq
    · intro a b ha hb hab
      show (if b = p then c.matched else c.since b) < (if a = p then c.matched else c.since a)
      rw [if_neg (hother a ((h.chain.mem a).mp ha)), if_neg (hother b ((h.chain.mem b).mp hb))]
      exact hab
  · intro q hq
    rw [hform]
    dsimp only
    split
    next => exact Nat.lt_succ_self _
    next hne => exact Nat.lt_succ_of_lt (h.chain.since q (((hused q).mp hq).resolve_left hne))
  · intro q hq
    rw [hform]
    rcases (hused q).mp hq with rfl | hq
    · exact hu
    · exact h.peer q hq
  · have hlog : SameLog c.req c'.req := by
      rw [hform]
      exact ⟨rfl, rfl, rfl, rfl, rfl, rfl, rfl, rfl⟩
    refine hS.congr hlog fun q hq => ?_
    rw [hform]
    dsimp only
    split
    next => exact ⟨match_ok hS.hist hS.directed subReliable, boundary_next hS.hist⟩
    next hne => exact hS.ok q (((hused q).mp hq).resolve_left hne)
  · rw [hform]
    exact hkeys
  · intro r hr q hslot hq hj
    have hr : r ∈ c.sent := by
      rw [hform] at hr
      exact hr
    rw [hform] at hj ⊢
    dsimp only at hj ⊢
    split at hj
    next =>
      -- no sample starts at or past the end of the line
      exfalso
      have hmem : r.key ∈ S.map sampleKey := by
        rw [hkeys]
        exact List.mem_map_of_mem hr
      obtain ⟨x, hx, hkey⟩ := List.mem_map.mp hmem
      have hbase : x.base = r.base := congrArg Prod.fst hkey
      have hstop := hS.hist.stop_le hx
      have hpos := (hS.hist.samples x hx).count_pos
      omega
    next hne => exact h.owner r hr q hslot (((hused q).mp hq).resolve_left hne) hj

/-- A lane goes down. -/
theorem ChanBase.unmatch (h : ChanBase frag c) (hu : (c.lanes p).used = true)
    (subReliable : Bool) : ChanBase frag (c.rematch p false subReliable) := by
  obtain ⟨S, hS, hkeys⟩ := h.log
  obtain ⟨c', hc'⟩ : ∃ c', c' = c.rematch p false subReliable := ⟨_, rfl⟩
  have hform : c' = { c with
      req := { c.req with
        matchedWriters := c.req.matchedWriters - 1, laneChain := c.req.laneChain.erase p }
      lanes := fun q => if q = p then { c.lanes p with used := false } else c.lanes q } := by
    rw [hc']
    unfold ReqChannel.rematch rematchWriter
    rw [hu]
    rfl
  rw [← hc']
  have hused : ∀ q, (c'.lanes q).used = true ↔ q ≠ p ∧ (c.lanes q).used = true := by
    intro q
    rw [hform]
    dsimp only
    split
    next heq => exact ⟨fun hq => (by cases hq), fun hq => absurd heq hq.1⟩
    next hne => exact ⟨fun hq => ⟨hne, hq⟩, And.right⟩
  have hmem : p ∈ c.req.laneChain := (h.chain.mem p).mpr hu
  refine ⟨?_, ⟨?_, ?_, ?_, ?_, ?_⟩, ?_, ⟨S, ?_, ?_⟩, ?_⟩
  · rw [hform]
    exact h.ids
  · rw [hform]
    exact h.chain.nodup.erase p
  · intro q
    rw [hused, ← h.chain.mem, hform]
    exact h.chain.nodup.mem_erase_iff
  · rw [hform]
    show c.req.matchedWriters - 1 = (c.req.laneChain.erase p).length
    rw [h.chain.count, List.length_erase_of_mem hmem]
  · rw [hform]
    exact h.chain.order.sublist List.erase_sublist
  · intro q hq
    rw [hform]
    exact h.chain.since q ((hused q).mp hq).2
  · intro q hq
    rw [hform]
    exact h.peer q ((hused q).mp hq).2
  · have hlog : SameLog c.req c'.req := by
      rw [hform]
      exact ⟨rfl, rfl, rfl, rfl, rfl, rfl, rfl, rfl⟩
    refine hS.congr hlog fun q hq => ?_
    obtain ⟨hne, hq⟩ := (hused q).mp hq
    rw [hform]
    dsimp only
    rw [if_neg hne]
    exact hS.ok q hq
  · rw [hform]
    exact hkeys
  · intro r hr q hslot hq hj
    rw [hform] at hr hj ⊢
    exact h.owner r hr q hslot ((hused q).mp hq).2 hj

theorem ChanBase.rematch (h : ChanBase frag c) (hu : (peerAt c.peers p).used = true)
    (wuse subReliable : Bool) : ChanBase frag (c.rematch p wuse subReliable) := by
  cases hp : (c.lanes p).used with
  | true =>
    cases wuse with
    | true =>
      have hsame : c.rematch p true subReliable = c := by
        unfold ReqChannel.rematch rematchWriter
        rw [hp]
        rfl
      rw [hsame]
      exact h
    | false => exact h.unmatch hp subReliable
  | false =>
    cases wuse with
    | true => exact h.match hu hp subReliable
    | false =>
      have hsame : c.rematch p false subReliable = c := by
        unfold ReqChannel.rematch rematchWriter
        rw [hp]
        rfl
      rw [hsame]
      exact h

/-- Which lanes a rematch leaves used. -/
theorem rematch_used (c : ReqChannel) (p : Nat) (wuse subReliable : Bool) (q : Nat) :
    ((c.rematch p wuse subReliable).lanes q).used = if q = p then wuse else (c.lanes q).used := by
  unfold ReqChannel.rematch rematchWriter
  cases hp : (c.lanes p).used with
  | true =>
    cases wuse with
    | true =>
      show (c.lanes q).used = _
      split
      next heq => rw [heq, hp]
      next => rfl
    | false =>
      show (if q = p then { c.lanes p with used := false } else c.lanes q).used = _
      split <;> rfl
  | false =>
    cases wuse with
    | true =>
      show (if q = p then writerMatch c.req subReliable else c.lanes q).used = _
      split <;> rfl
    | false =>
      show (c.lanes q).used = _
      split
      next heq => rw [heq, hp]
      next => rfl

theorem rematch_peers (c : ReqChannel) (p : Nat) (wuse subReliable : Bool) :
    (c.rematch p wuse subReliable).peers = c.peers ∧
      (c.rematch p wuse subReliable).sent = c.sent ∧
      (c.rematch p wuse subReliable).req.qos = c.req.qos := by
  unfold ReqChannel.rematch rematchWriter
  cases (c.lanes p).used <;> cases wuse <;> exact ⟨rfl, rfl, rfl⟩

theorem rematch_got (c : ReqChannel) (p : Nat) (wuse subReliable : Bool) :
    (c.rematch p wuse subReliable).got = c.got := by
  unfold ReqChannel.rematch
  dsimp only
  split <;> rfl

theorem ChanInv.rematch (h : ChanInv frag c) (hu : (peerAt c.peers p).used = true)
    (wuse subReliable : Bool) : ChanInv frag (c.rematch p wuse subReliable) :=
  h.of_base (h.toChanBase.rematch hu wuse subReliable) (rematch_peers c p wuse subReliable).2.1
    (rematch_got c p wuse subReliable)

theorem ChanBase.removePeer (h : ChanBase frag c) (hlt : p < c.peers.length)
    (hu : (peerAt c.peers p).used = true) : ChanBase frag (c.removePeer p) := by
  have hm := h.rematch hu false false
  have hpeers := (rematch_peers c p false false).1
  have hlt' : p < (c.rematch p false false).peers.length := by
    rw [hpeers]
    exact hlt
  refine hm.setPeers (hm.ids.free hlt') fun q hq => ?_
  have hne : q ≠ p := by
    intro heq
    rw [rematch_used, if_pos heq] at hq
    cases hq
  unfold peerFree
  rw [peerAt_modify hlt', if_neg hne]
  exact ⟨hm.peer q hq, rfl⟩

theorem ChanInv.peerAdd (h : ChanInv frag c) {id : Nat} (hid : id ≠ 0) :
    ChanInv frag { c with peers := Rant.Transport.peerAdd c.peers id } :=
  h.of_base (h.toChanBase.peerAdd hid) rfl rfl

theorem ChanInv.setDormant (h : ChanInv frag c) (id : Nat) (dormant : Bool) :
    ChanInv frag { c with peers := peerSetDormant c.peers id dormant } :=
  h.of_base (h.toChanBase.setDormant id dormant) rfl rfl

theorem ChanInv.removePeer (h : ChanInv frag c) (hlt : p < c.peers.length)
    (hu : (peerAt c.peers p).used = true) : ChanInv frag (c.removePeer p) :=
  h.of_base (h.toChanBase.removePeer hlt hu) (rematch_peers c p false false).2.1
    (rematch_got c p false false)

/-! ## Sending -/

/-- The destination of a directed send is the slot of the peer it names, or nobody's. -/
theorem destOf_slot {dest : Option Nat} (h : c.destOf dest = .slot p) :
    dest = some (peerAt c.peers p).id := by
  unfold ReqChannel.destOf at h
  split at h
  next => cases h
  next d =>
    split at h
    next => cases h
    next q hq =>
      rw [← Dest.slot.inj h, (peerSlot_some hq).2.2]

theorem destOf_ne_all {dest : Option Nat} (h : dest ≠ none) : c.destOf dest ≠ .all := by
  unfold ReqChannel.destOf
  split
  next => exact absurd rfl h
  next => split <;> exact Dest.noConfusion

variable {how : How}

variable {x : Posting}

/-- What a send may come to: nobody is matched, or one more sample is in the log. -/
theorem post_cases (h : History frag c.req S) (hF : 0 < frag) (hF' : frag ≤ 65535)
    (hc : c.post frag x how = some c') :
    (c' = c ∧ c.matchCount = 0) ∨ ∃ t y desc, c' = { c with
        req := t
        lanes := fun p => (commitLane t (c.destOf x.dest) p (peerAt c.peers p).dormant (c.side p)).w
        sent := c.sent ++ [{ serial := x.serial, named := x.named, dest := x.dest, roster := x.roster
                             base := c.req.nextSeqno, count := t.nextSeqno - c.req.nextSeqno
                             slot := c.destOf x.dest }] } ∧
      History frag t (S ++ [y]) ∧ y.dest = c.destOf x.dest ∧
      y.committed = { base := c.req.nextSeqno
                      count := fragCount frag
                        (gather c.req (fnHeader x.callId x.op) x.body 0 how.sourceUs).length
                      bytes := gather c.req (fnHeader x.callId x.op) x.body 0 how.sourceUs
                      desc := desc } ∧
      t.qos = c.req.qos ∧ t.directed = c.req.directed ∧ t.laneChain = c.req.laneChain ∧
      t.matchedWriters = c.req.matchedWriters ∧ t.role = c.req.role := by
  unfold ReqChannel.post at hc
  split at hc
  next t ht =>
    cases hc
    refine Or.inr ?_
    unfold ReqChannel.reqSend at ht
    dsimp only at ht
    split at ht
    next d hdest hdesc =>
      obtain ⟨y, hy, hyd, hqos, hdir, hwhat⟩ := writerSendShm_history h hF hF' d.2 ht
      obtain ⟨-, hseal⟩ := writerSendShm_committed ht
      refine ⟨t, y, some d.1, rfl, hy, hyd.trans ?_, hwhat, hqos, hdir, ?_, ?_, ?_⟩
      · rw [hdest]
        rfl
      · rw [hseal]
        rfl
      · rw [hseal]
        rfl
      · rw [hseal]
        rfl
    next =>
      obtain ⟨y, hy, hyd, hqos, hdir, hwhat⟩ := writerSend_history h hF hF' ht
      obtain ⟨-, hseal⟩ := writerSend_committed ht
      refine ⟨t, y, none, rfl, hy, hyd, hwhat, hqos, hdir, ?_, ?_, ?_⟩
      · rw [hseal]
        rfl
      · rw [hseal]
        rfl
      · rw [hseal]
        rfl
  -- skipped: of the ways a send ends, only the matchless one is no error
  next hskip =>
    rw [← Option.some.inj hc]
    refine Or.inl ⟨rfl, ?_⟩
    unfold ReqChannel.reqSend at hskip
    dsimp only at hskip
    split at hskip
    next =>
      unfold channelSend writerSendShm at hskip
      dsimp only at hskip
      split at hskip
      next => cases hskip
      split at hskip
      next => cases hskip
      next => cases hskip
    next =>
      unfold writerSend at hskip
      split at hskip
      next => cases hskip
      split at hskip
      next => cases hskip
      split at hskip
      next hnone => exact hnone.1
      split at hskip
      next => cases hskip
      next => cases hskip
  next => cases hc

theorem commitLane_used (t : Topic) (c : ReqChannel) (dest : Dest) (p : Nat) :
    (commitLane t dest p (peerAt c.peers p).dormant (c.side p)).w.used = (c.lanes p).used := by
  have hadv : (laneAdvance t p (c.lanes p)).used = (c.lanes p).used :=
    matched_used (laneAdvance_matched t p _)
  unfold commitLane
  split
  next => rfl
  split
  next => rfl
  dsimp only
  split <;> exact hadv

/-- What a send does to the channel. -/
theorem ChanBase.post (h : ChanBase frag c) (hF : 0 < frag) (hF' : frag ≤ 65535)
    (hc : c.post frag x how = some c') :
    ChanBase frag c' ∧ c'.peers = c.peers ∧ (∀ p, (c'.lanes p).used = (c.lanes p).used) ∧
      c'.since = c.since ∧ c'.req.qos = c.req.qos ∧ c'.req.matchedWriters = c.req.matchedWriters ∧
      c'.got = c.got ∧ (c' = c ∧ c.matchCount = 0 ∨
        ∃ r : Request, c'.sent = c.sent ++ [r] ∧ r.serial = x.serial ∧ r.named = x.named ∧
          r.dest = x.dest ∧ r.roster = x.roster ∧ r.slot = c.destOf x.dest) := by
  obtain ⟨S, hS, hkeys⟩ := h.log
  rcases post_cases hS.hist hF hF' hc with
    ⟨rfl, hzero⟩ | ⟨t, y, desc, hform, hy, hyd, hwhat, hqos, hdir, hchain, hmw, hrole⟩
  · exact ⟨h, rfl, fun _ => rfl, rfl, rfl, rfl, rfl, Or.inl ⟨rfl, hzero⟩⟩
  · have hbase : y.base = c.req.nextSeqno := congrArg Committed.base hwhat
    have hnext : t.nextSeqno = y.base + y.count := (hy.newest List.getLast?_concat).2
    have hd : Directed t := ⟨hdir.trans hS.directed.directed, by rw [hqos]; exact hS.directed.catchUp⟩
    have hused := commitLane_used t c (c.destOf x.dest)
    rw [hform]
    refine ⟨⟨h.ids, ⟨?_, ?_, ?_, ?_, ?_⟩, ?_, ⟨S ++ [y], ⟨hy, hd, ?_, ?_⟩, ?_⟩, ?_⟩,
      rfl, hused, rfl, hqos, hmw, rfl, Or.inr ⟨_, rfl, rfl, rfl, rfl, rfl, rfl⟩⟩
    · show t.laneChain.Nodup
      rw [hchain]
      exact h.chain.nodup
    · intro p
      show p ∈ t.laneChain ↔ _
      rw [hchain, hused]
      exact h.chain.mem p
    · show t.matchedWriters = t.laneChain.length
      rw [hmw, hchain]
      exact h.chain.count
    · show t.laneChain.Pairwise _
      rw [hchain]
      exact h.chain.order
    · intro p hp
      rw [hused] at hp
      exact h.chain.since p hp
    · intro p hp
      rw [hused] at hp
      exact h.peer p hp
    · exact hrole.trans hS.role
    · intro p hp
      rw [hused] at hp
      obtain ⟨hok, hb⟩ := hS.ok p hp
      refine ⟨commit_ok hy hd (x := c.side p) (hok.sealed hS.hist hy hqos hbase) _ _, ?_⟩
      refine boundary_mono hb ?_
      rw [hbase]
      exact Nat.le_trans hok.sent.joined hok.sent.le_next
    · rw [List.map_append, List.map_append, hkeys]
      refine congrArg _ ?_
      show [(y.base, y.count, y.dest)] = [(_, _, _)]
      rw [hnext, hbase, hyd, Nat.add_sub_cancel_left]
    · intro r hr p hslot hp hj
      rw [hused] at hp
      rcases List.mem_append.mp hr with hr | hr
      · exact h.owner r hr p hslot hp hj
      · rw [List.mem_singleton.mp hr] at hslot ⊢
        exact destOf_slot hslot

/-- What a directed send may come to. -/
theorem ChanInv.post (h : ChanInv frag c) (hF : 0 < frag) (hF' : frag ≤ 65535)
    (hx : x.dest ≠ none) (hc : c.post frag x how = some c') :
    ChanInv frag c' ∧ c'.peers = c.peers ∧ (∀ p, (c'.lanes p).used = (c.lanes p).used) ∧
      c'.since = c.since ∧ c'.req.qos = c.req.qos ∧ c'.req.matchedWriters = c.req.matchedWriters ∧
      (c' = c ∧ c.matchCount = 0 ∨
        ∃ r : Request, c'.sent = c.sent ++ [r] ∧ r.serial = x.serial ∧ r.named = x.named ∧
          r.dest = x.dest ∧ r.roster = x.roster) := by
  obtain ⟨hbase, hpeers, hused, hsince, hqos, hmw, hgot, hout⟩ := h.toChanBase.post hF hF' hc
  rcases hout with ⟨rfl, hzero⟩ | ⟨r, hsent, hserial, hnamed, hdest, hroster, hslot⟩
  · exact ⟨h, rfl, fun _ => rfl, rfl, rfl, rfl, Or.inl ⟨rfl, hzero⟩⟩
  · refine ⟨⟨hbase, fun q hq => ?_, fun a ha => ?_⟩, hpeers, hused, hsince, hqos, hmw,
      Or.inr ⟨r, hsent, hserial, hnamed, hdest, hroster⟩⟩
    · rw [hsent] at hq
      rcases List.mem_append.mp hq with hq | hq
      · exact h.directed q hq
      · rw [List.mem_singleton.mp hq, hdest, hslot]
        exact ⟨hx, destOf_ne_all hx⟩
    · rw [hgot] at ha
      obtain ⟨q, hq, hholds⟩ := h.got a ha
      refine ⟨q, ?_, hholds⟩
      rw [hsent]
      exact List.mem_append_left _ hq

theorem length_fnHeader (callId : Nat) (op : FnOp) : (fnHeader callId op).length = fnPrefix := by
  unfold fnHeader
  rw [List.length_append, length_writeLe]
  rfl

/-- The bytes of a request: the stamp, the header and the body. -/
theorem length_request (c : ReqChannel) (x : Posting) (sourceUs : Nat) :
    (gather c.req (fnHeader x.callId x.op) x.body 0 sourceUs).length =
      c.req.stampBytes 0 + fnPrefix + x.body.length := by
  rw [← length_fnHeader x.callId x.op]
  exact length_gather c.req _ x.body sourceUs

/-- With the role a remote has, a send that fits and is granted its buffer is not refused. -/
theorem ChanBase.post_some (h : ChanBase frag c)
    (hfit : ¬ writerTooBig frag (c.req.stampBytes 0 + fnPrefix + x.body.length))
    (hal : how.al.bufOk = true) : ∃ c', c.post frag x how = some c' := by
  obtain ⟨S, hS, -⟩ := h.log
  have hlen := length_fnHeader x.callId x.op
  have hgather := length_request c x how.sourceUs
  have hrole : ¬ (c.req.role = .subOnly ∨ c.req.role = .inactive) := by
    rw [hS.role]
    rintro (hrole | hrole) <;> cases hrole
  unfold ReqChannel.post
  split
  next => exact ⟨_, rfl⟩
  next => exact ⟨_, rfl⟩
  next e he =>
    exfalso
    unfold ReqChannel.reqSend at he
    dsimp only at he
    split at he
    next =>
      unfold channelSend writerSendShm at he
      dsimp only at he
      rw [hgather, if_neg hfit, if_neg hrole] at he
      cases he
    next =>
      unfold writerSend at he
      rw [hlen, if_neg hfit, if_neg hrole] at he
      split at he
      next => cases he
      unfold writerStore at he
      dsimp only at he
      rw [hgather, if_neg hfit, if_neg] at he
      · cases he
      · rintro ⟨-, hno⟩
        rw [hal] at hno
        cases hno

/-! ## The wire -/

theorem ChanBase.setSide (h : ChanBase frag c) {x : WriterSide}
    (hu : x.w.used = (c.lanes p).used)
    (hok : ∀ S, Lanes frag c S → (c.lanes p).used = true →
      LaneOk c.req p (c.joined p) x.w) : ChanBase frag (c.setSide p x) := by
  obtain ⟨S, hS, hkeys⟩ := h.log
  have hused : ∀ q, ((c.setSide p x).lanes q).used = (c.lanes q).used := by
    intro q
    show (if q = p then x.w else c.lanes q).used = _
    split
    next heq => rw [heq, hu]
    next => rfl
  refine ⟨h.ids, ⟨h.chain.nodup, fun q => ?_, h.chain.count, h.chain.order, fun q hq => ?_⟩,
    fun q hq => ?_, ⟨S, ?_, hkeys⟩, fun r hr q hslot hq hj => ?_⟩
  · rw [hused]
    exact h.chain.mem q
  · rw [hused] at hq
    exact h.chain.since q hq
  · rw [hused] at hq
    exact h.peer q hq
  · refine hS.congr ⟨rfl, rfl, rfl, rfl, rfl, rfl, rfl, rfl⟩ fun q hq => ?_
    rw [hused] at hq
    refine ⟨?_, (hS.ok q hq).2⟩
    show LaneOk c.req q (c.joined q) (if q = p then x.w else c.lanes q)
    split
    next heq =>
      rw [heq] at hq ⊢
      exact hok S hS hq
    next => exact (hS.ok q hq).1
  · rw [hused] at hq
    exact h.owner r hr q hslot hq hj

/-- What is carried is no part of it. -/
theorem ChanBase.carry (h : ChanBase frag c) (got : List (Nat × Nat)) :
    ChanBase frag { c with got := got } := by
  obtain ⟨S, hS, hkeys⟩ := h.log
  exact ⟨h.ids, ⟨h.chain.nodup, h.chain.mem, h.chain.count, h.chain.order, h.chain.since⟩, h.peer,
    ⟨S, ⟨hS.hist, hS.directed, hS.role, hS.ok⟩, hkeys⟩, h.owner⟩

theorem emit_used (c : ReqChannel) (p : Nat) (shm : Bool) (cap nowUs : Nat) (dormant : Bool) :
    (writerEmit c.req ⟨frag, p, shm, cap, nowUs⟩ dormant (c.side p)).1.w.used = (c.lanes p).used :=
  matched_used (writerEmit_matched _ _ _ (c.side p))

/-- A lane that was polled stands where one may, and what it sends is owed to its peer. -/
theorem Lanes.emit (hS : Lanes frag c S) (hp : (c.lanes p).used = true) (shm : Bool)
    (cap nowUs : Nat) (dormant : Bool) :
    LaneOk c.req p (c.joined p) (writerEmit c.req ⟨frag, p, shm, cap, nowUs⟩ dormant (c.side p)).1.w ∧
      Owed c.req S p (c.joined p) (writerEmit c.req ⟨frag, p, shm, cap, nowUs⟩ dormant (c.side p)).2 := by
  obtain ⟨hok, hb⟩ := hS.ok p hp
  exact emit_owed hS.hist hS.directed hb ⟨frag, p, shm, cap, nowUs⟩ dormant (x := c.side p) hok

theorem ChanBase.emit (h : ChanBase frag c) (p : Nat) (shm : Bool) (cap nowUs : Nat)
    (dormant : Bool) (got : List (Nat × Nat)) :
    ChanBase frag { c.setSide p (writerEmit c.req ⟨frag, p, shm, cap, nowUs⟩ dormant (c.side p)).1 with
      got := got } :=
  ChanBase.carry (h.setSide (emit_used c p shm cap nowUs dormant) fun _ hS hp =>
    (hS.emit hp shm cap nowUs dormant).1) got

/-- What a lane puts on the wire is a request its peer was sent. -/
theorem ChanInv.emit (h : ChanInv frag c) (p : Nat) (shm : Bool) (cap nowUs : Nat)
    (dormant : Bool) {r : WriterSide × Option Submsg}
    (hr : r = writerEmit c.req ⟨frag, p, shm, cap, nowUs⟩ dormant (c.side p)) :
    ChanInv frag { c.setSide p r.1 with
      got := c.got ++ (r.2.bind Submsg.carries).toList.map fun q => ((peerAt c.peers p).id, q) } := by
  obtain ⟨S, hS, hkeys⟩ := h.log
  refine ⟨?_, h.directed, fun a ha => ?_⟩
  · rw [hr]
    exact h.toChanBase.emit p shm cap nowUs dormant _
  · rcases List.mem_append.mp ha with ha | ha
    · exact h.got a ha
    obtain ⟨q, hq, rfl⟩ := List.mem_map.mp ha
    rw [Option.mem_toList, Option.bind_eq_some_iff] at hq
    obtain ⟨m, hm, hq⟩ := hq
    have hp : (c.lanes p).used = true := by
      cases hp : (c.lanes p).used with
      | true => rfl
      | false =>
        -- an unmatched lane emits nothing
        rw [hr] at hm
        unfold writerEmit at hm
        have hside : (c.side p).w.used = false := hp
        rw [if_pos (Or.inl hside)] at hm
        cases hm
    rw [hr] at hm
    obtain ⟨s, hc, hadm, hlo, hle, hlt⟩ := (hS.emit hp shm cap nowUs dormant).2 m q hm hq
    have hmem : sampleKey s ∈ c.sent.map Request.key := by
      rw [← hkeys]
      exact List.mem_map_of_mem hc.mem
    obtain ⟨x, hx, hkey⟩ := List.mem_map.mp hmem
    have hbase : x.base = s.base := congrArg Prod.fst hkey
    have hcount : x.count = s.count := congrArg (·.2.1) hkey
    have hslot : x.slot = s.dest := congrArg (·.2.2) hkey
    refine ⟨x, hx, ⟨?_, ?_⟩, ?_⟩
    · rw [hbase]
      exact hle
    · rw [hbase, hcount]
      exact hlt
    · rcases hadm with hall | hmine
      · exact absurd (hslot.trans hall) (h.directed x hx).2
      · refine h.owner x hx p (hslot.trans hmine) hp ?_
        rw [hbase]
        exact hlo

theorem ChanBase.nack (h : ChanBase frag c) {m : NackMsg} (nowUs : Nat)
    (hm : c.joined p ≤ m.base ∧ m.base ≤ c.req.nextSeqno) :
    ChanBase frag (c.setSide p (writerNack c.req p (c.side p) m nowUs)) := by
  refine h.setSide (matched_used (writerNack_matched _ _ (c.side p) _ _)) fun S hS hp => ?_
  exact nack_ok hS.hist hS.directed (x := c.side p) (hS.ok p hp).1 hm.1 hm.2 nowUs

theorem ChanInv.nack (h : ChanInv frag c) {m : NackMsg} (nowUs : Nat)
    (hm : c.joined p ≤ m.base ∧ m.base ≤ c.req.nextSeqno) :
    ChanInv frag (c.setSide p (writerNack c.req p (c.side p) m nowUs)) :=
  h.of_base (h.toChanBase.nack nowUs hm) rfl rfl

theorem ChanBase.fresh (h : ChanBase frag c) (fresh : Bool) (from_ : Nat) :
    ChanBase frag { c with req := { c.req with fresh := fresh, freshFrom := from_ } } := by
  obtain ⟨S, hS, hkeys⟩ := h.log
  refine ⟨h.ids, ⟨h.chain.nodup, h.chain.mem, h.chain.count, h.chain.order, h.chain.since⟩,
    h.peer, ⟨S, ?_, hkeys⟩, h.owner⟩
  exact hS.congr ⟨rfl, rfl, rfl, rfl, rfl, rfl, rfl, rfl⟩ hS.ok

theorem ChanInv.fresh (h : ChanInv frag c) (fresh : Bool) (from_ : Nat) :
    ChanInv frag { c with req := { c.req with fresh := fresh, freshFrom := from_ } } :=
  h.of_base (h.toChanBase.fresh fresh from_) rfl rfl

/-- Two requests that hold one seqno are one. -/
theorem ChanBase.holds_inj (h : ChanBase frag c) {r r' : Request} {q : Nat} (hr : r ∈ c.sent)
    (hr' : r' ∈ c.sent) (hq : r.holds q) (hq' : r'.holds q) : r = r' := by
  obtain ⟨S, hS, hkeys⟩ := h.log
  obtain ⟨a, htiles⟩ := hS.hist.tiles
  have hspans : S.map WriterSample.span = c.sent.map fun r => (⟨r.base, r.count⟩ : Span) := by
    have := congrArg (List.map fun k : Nat × Nat × Dest => (⟨k.1, k.2.1⟩ : Span)) hkeys
    rw [List.map_map, List.map_map] at this
    exact this
  rw [hspans] at htiles
  exact tiles_inj htiles hr hr' hq hq'

end Rant.Patterns
