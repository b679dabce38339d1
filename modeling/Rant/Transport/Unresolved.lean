import Rant.Lib.Tally
import Rant.Transport.PeerVerdicts
import Rant.Transport.Peers
/-!
# What is still unresolved

A match wait asks how many entries of a peer's list may still come to a match with a topic.
`src/transport/core.c` answers it twice: `i_rant_transport_topic_unresolved` for one topic, and
`i_rant_transport_peer_unresolved_fill` for all of them in one walk. The two agree on what is
pending. Of what is decided and only under the rebind hold, the first goes by the hash and the
second by the topic the verdict is bound to (`fill_agrees_iff`).
-/

namespace Rant.Transport

open Rant.Lib

/-! ## The two counts -/

/-- What a slot keeps of its peer's list: `peer_seen_version`, and the maps by position. -/
structure PeerMaps where
  seen : Nat := 0
  verdicts : List Verdict := []
  deriving Repr, DecidableEq

/-- The fields of `i_RantTransportState` the counts read. -/
structure PeerBook where
  topics : List Topic
  slots : List PeerSlot
  maps : Nat → PeerMaps

/-- The rebind hold: the peer has not proved that it saw the announce of the new definition. -/
def Topic.held (t : Topic) (seen : Nat) : Bool := t.rebindVersion ≠ 0 && seen < t.rebindVersion

/-- Whether the loop of `i_rant_transport_topic_unresolved` counts an entry. -/
def unresolvedEntry (m : PeerMaps) (t : Topic) (e : InterestEntry) : Bool :=
  if e.hash ≠ t.hash32 then false                       -- not this topic
  else if m.verdicts.length ≤ e.pos then false          -- unresolvable
  else
    let v := verdictAt m.verdicts e.pos
    if v.detailed then e.theirSub && t.role.pubs && v.nameOk && t.held m.seen
    else e.crosses t.role

/-- `i_rant_transport_topic_unresolved`. A missing list is an empty one. -/
def topicUnresolved (s : PeerBook) (c id : Nat) (d : Bytes) : Nat :=
  if s.topics.length ≤ c ∨ !(topicAt s.topics c).announced then 0
  else
    match peerSlot s.slots id with
    | none => 0
    | some p =>
      match interestWalk d with
      | none => 0
      | some _ =>
        let t := topicAt s.topics c
        if !t.role.pubs && !t.role.subs then 0
        else (interestScan d).countP (unresolvedEntry (s.maps p) t) % 2 ^ 16

/-- One entry of the loop of `i_rant_transport_peer_unresolved_fill`. -/
def fillEntry (ts : List Topic) (m : PeerMaps) (n : Nat) (counts : Nat → Nat) (e : InterestEntry) :
    Nat → Nat :=
  if m.verdicts.length ≤ e.pos then counts
  else
    let v := verdictAt m.verdicts e.pos
    if v.detailed then
      -- the verdict names the topic, and only the rebind hold still resolves
      if !v.nameOk ∨ n ≤ v.boundTo then counts
      else
        let t := topicAt ts v.boundTo
        if e.theirSub && t.role.pubs && t.held m.seen then bump 0xFFFF counts v.boundTo else counts
    else
      (List.range n).foldl (fun counts c =>
        let t := topicAt ts c
        if t.announced && t.hash32 = e.hash && e.crosses t.role then bump 0xFFFF counts c
        else counts) counts

/-- `i_rant_transport_peer_unresolved_fill` into `n` counts. -/
def peerUnresolvedFill (s : PeerBook) (id : Nat) (d : Bytes) (counts : Nat → Nat) (n : Nat) :
    Nat → Nat :=
  match peerSlot s.slots id with
  | none => counts
  | some p =>
    match interestWalk d with
    | none => counts
    | some _ => (interestScan d).foldl (fillEntry s.topics (s.maps p) (min n s.topics.length)) counts

/-! ## Where they agree -/

/-- The fill adds to each count what the query returns, cut at 65535. -/
def PeerBook.FillAgrees (s : PeerBook) (id : Nat) (d : Bytes) (n : Nat) : Prop :=
  ∀ counts : Nat → Nat, (∀ c < n, counts c ≤ 0xFFFF) → ∀ c < n,
    peerUnresolvedFill s id d counts n c = min 0xFFFF (counts c + topicUnresolved s c id d)

/-- An entry decided to be a subscription under a name of ours. -/
def PeerMaps.settled (m : PeerMaps) (e : InterestEntry) : Bool :=
  let v := verdictAt m.verdicts e.pos
  e.pos < m.verdicts.length && v.detailed && v.nameOk && e.theirSub

/-- Of the settled subscriptions, as many are bound to each topic that publishes under the hold
as carry its hash. One that is not announced has none. -/
def PeerBook.Balanced (s : PeerBook) (id : Nat) (d : Bytes) (n : Nat) : Prop :=
  ∀ p, peerSlot s.slots id = some p → interestWalk d ≠ none →
    ∀ c < n, c < s.topics.length →
      (topicAt s.topics c).role.pubs = true → (topicAt s.topics c).held (s.maps p).seen = true →
      (interestScan d).countP (fun e =>
          (s.maps p).settled e && (verdictAt (s.maps p).verdicts e.pos).boundTo = c) =
        (interestScan d).countP fun e =>
          (s.maps p).settled e && (topicAt s.topics c).announced &&
            e.hash = (topicAt s.topics c).hash32

/-! ## One entry -/

variable {ts : List Topic} {m : PeerMaps} {n c : Nat} {e : InterestEntry}

/-- An entry still pending that meets topic `c`. -/
def pendingHit (ts : List Topic) (m : PeerMaps) (c : Nat) (e : InterestEntry) : Bool :=
  e.pos < m.verdicts.length && !(verdictAt m.verdicts e.pos).detailed &&
    (topicAt ts c).announced && (topicAt ts c).hash32 = e.hash && e.crosses (topicAt ts c).role

/-- A settled entry that topic `c` waits for, by the topic of its verdict. -/
def boundHit (ts : List Topic) (m : PeerMaps) (c : Nat) (e : InterestEntry) : Bool :=
  m.settled e && (topicAt ts c).role.pubs && (topicAt ts c).held m.seen &&
    (verdictAt m.verdicts e.pos).boundTo = c

/-- A settled entry that topic `c` waits for, by its hash. -/
def hashHit (ts : List Topic) (m : PeerMaps) (c : Nat) (e : InterestEntry) : Bool :=
  m.settled e && (topicAt ts c).role.pubs && (topicAt ts c).held m.seen &&
    ((topicAt ts c).announced && e.hash = (topicAt ts c).hash32)

/-- What one entry does to the count of a topic. -/
theorem fillEntry_hit (ts : List Topic) (m : PeerMaps) (hc : c < n) (counts : Nat → Nat)
    (e : InterestEntry) (hk : counts c ≤ 0xFFFF) :
    fillEntry ts m n counts e c =
      if pendingHit ts m c e || boundHit ts m c e then min 0xFFFF (counts c + 1) else counts c := by
  unfold fillEntry pendingHit boundHit PeerMaps.settled
  by_cases hpos : m.verdicts.length ≤ e.pos
  · rw [if_pos hpos]
    have h : decide (e.pos < m.verdicts.length) = false := decide_eq_false (by omega)
    simp [h]
  · rw [if_neg hpos]
    have h : decide (e.pos < m.verdicts.length) = true := decide_eq_true (by omega)
    dsimp only
    by_cases hd : (verdictAt m.verdicts e.pos).detailed = true
    · rw [if_pos hd]
      simp only [h, hd, Bool.true_and, Bool.not_true, Bool.false_and, Bool.and_false, Bool.false_or]
      by_cases hn : (verdictAt m.verdicts e.pos).nameOk = true
      · by_cases hb : (verdictAt m.verdicts e.pos).boundTo = c
        · rw [if_neg (by simp [hn, hb, hc]), hb]
          simp only [hn, Bool.true_and, decide_true, Bool.and_true]
          split
          next => exact bump_self 0xFFFF counts c hk
          next => rfl
        · -- bound elsewhere: the count of this topic stays
          simp only [hb, decide_false, Bool.and_false, Bool.false_eq_true, if_false]
          split
          next => rfl
          split
          next => exact bump_ne 0xFFFF counts (Ne.symm hb)
          next => rfl
      · rw [if_pos (Or.inl (by simp [hn]))]
        simp [hn]
    · rw [if_neg hd]
      rw [Bool.not_eq_true] at hd
      rw [foldl_bump 0xFFFF (fun c => (topicAt ts c).announced && (topicAt ts c).hash32 = e.hash &&
        e.crosses (topicAt ts c).role) List.nodup_range counts hk]
      simp [h, hd, hc]

/-- What the query counts of it. -/
theorem unresolvedEntry_hit (ts : List Topic) (m : PeerMaps) (ha : (topicAt ts c).announced = true)
    (e : InterestEntry) :
    unresolvedEntry m (topicAt ts c) e = (pendingHit ts m c e || hashHit ts m c e) := by
  unfold unresolvedEntry pendingHit hashHit PeerMaps.settled
  by_cases hh : e.hash = (topicAt ts c).hash32
  · rw [if_neg (by simp [hh])]
    by_cases hpos : m.verdicts.length ≤ e.pos
    · rw [if_pos hpos]
      have h : decide (e.pos < m.verdicts.length) = false := decide_eq_false (by omega)
      simp [h]
    · rw [if_neg hpos]
      have h : decide (e.pos < m.verdicts.length) = true := decide_eq_true (by omega)
      dsimp only
      by_cases hd : (verdictAt m.verdicts e.pos).detailed = true
      · simp only [hd, if_true, h, ha, hh, Bool.true_and, Bool.not_true, Bool.false_and,
          Bool.false_or, decide_true, Bool.and_true]
        cases e.theirSub <;> cases (verdictAt m.verdicts e.pos).nameOk <;> simp
      · rw [Bool.not_eq_true] at hd
        simp [h, ha, hh, hd]
  · rw [if_pos hh]
    simp [hh, Ne.symm hh]

/-- Pending and settled exclude each other. -/
theorem pendingHit_settled (h : pendingHit ts m c e = true) : m.settled e = false := by
  unfold pendingHit at h
  unfold PeerMaps.settled
  simp only [Bool.and_eq_true, Bool.not_eq_true'] at h
  simp [h.1.1.1.2]

/-! ## A whole list -/

theorem scanFrom_length (fuel n a : Nat) (d : Bytes) : (scanFrom fuel n a d).length ≤ fuel := by
  induction fuel generalizing a d with
  | zero => exact Nat.le_refl 0
  | succ fuel ih =>
    rw [scanFrom]
    split
    next =>
      split
      next => exact Nat.le_succ_of_le (ih _ _)
      split
      next => exact Nat.le_succ_of_le (ih _ _)
      next =>
        rw [List.length_cons]
        exact Nat.succ_le_succ (ih _ _)
    next => exact Nat.zero_le _

/-- Every live entry takes a slot of the 16 bit count. -/
theorem interestScan_length (d : Bytes) : (interestScan d).length < 2 ^ 16 := by
  have hlen : (interestScan d).length ≤ frontLe 2 d := scanFrom_length _ _ _ _
  have hfront : frontLe 2 d < 256 ^ 2 := frontLe_lt 2 d
  omega

variable {s : PeerBook} {id p : Nat} {d : Bytes}

/-- The query counts the pending entries and the settled ones of its hash. -/
theorem topicUnresolved_eq (hp : peerSlot s.slots id = some p) (hw : interestWalk d ≠ none)
    (hc : c < s.topics.length) :
    topicUnresolved s c id d = (interestScan d).countP (pendingHit s.topics (s.maps p) c) +
      (interestScan d).countP (hashHit s.topics (s.maps p) c) := by
  obtain ⟨rest, hw⟩ := Option.ne_none_iff_exists'.mp hw
  unfold topicUnresolved
  by_cases ha : (topicAt s.topics c).announced = true
  · rw [if_neg (by simp [ha, hc]), hp, hw]
    have hsplit := countP_or (p := pendingHit s.topics (s.maps p) c)
      (q := hashHit s.topics (s.maps p) c)
      (fun e he => by simp [hashHit, pendingHit_settled he]) (interestScan d)
    dsimp only
    by_cases hr : (!(topicAt s.topics c).role.pubs && !(topicAt s.topics c).role.subs) = true
    · -- a parked topic crosses nothing and publishes nothing
      rw [if_pos hr, ← hsplit]
      rw [Bool.and_eq_true, Bool.not_eq_true', Bool.not_eq_true'] at hr
      symm
      apply List.countP_eq_zero.mpr
      intro e _
      simp [pendingHit, hashHit, InterestEntry.crosses, hr.1, hr.2]
    · rw [if_neg hr, ← hsplit, Nat.mod_eq_of_lt]
      · exact List.countP_congr fun e _ => by rw [unresolvedEntry_hit s.topics (s.maps p) ha e]
      · exact Nat.lt_of_le_of_lt List.countP_le_length (interestScan_length d)
  · rw [if_pos (Or.inr (by simp [ha]))]
    rw [Bool.not_eq_true] at ha
    have hpend : (interestScan d).countP (pendingHit s.topics (s.maps p) c) = 0 := by
      apply List.countP_eq_zero.mpr
      intro e _
      simp [pendingHit, ha]
    have hhash : (interestScan d).countP (hashHit s.topics (s.maps p) c) = 0 := by
      apply List.countP_eq_zero.mpr
      intro e _
      simp [hashHit, ha]
    rw [hpend, hhash]

/-- The fill adds the pending entries and the settled ones bound to the topic. -/
theorem peerUnresolvedFill_eq (hp : peerSlot s.slots id = some p) (hw : interestWalk d ≠ none)
    (hn : c < n) (hc : c < s.topics.length) (counts : Nat → Nat) (hk : counts c ≤ 0xFFFF) :
    peerUnresolvedFill s id d counts n c = min 0xFFFF (counts c +
      ((interestScan d).countP (pendingHit s.topics (s.maps p) c) +
        (interestScan d).countP (boundHit s.topics (s.maps p) c))) := by
  obtain ⟨rest, hw⟩ := Option.ne_none_iff_exists'.mp hw
  unfold peerUnresolvedFill
  rw [hp, hw]
  have hcut : c < min n s.topics.length := by omega
  have hsplit := countP_or (p := pendingHit s.topics (s.maps p) c)
    (q := boundHit s.topics (s.maps p) c)
    (fun e he => by simp [boundHit, pendingHit_settled he]) (interestScan d)
  rw [← hsplit]
  exact foldl_tally 0xFFFF (fillEntry s.topics (s.maps p) (min n s.topics.length)) _ c
    (fun counts e hk => fillEntry_hit s.topics (s.maps p) hcut counts e hk) (interestScan d) counts hk

/-- A count behind the table is left alone. -/
theorem fillEntry_behind (hn : n ≤ ts.length) (hc : ts.length ≤ c) (counts : Nat → Nat)
    (e : InterestEntry) : fillEntry ts m n counts e c = counts c := by
  unfold fillEntry
  split
  next => rfl
  dsimp only
  split
  next =>
    split
    next => rfl
    next hb =>
      split
      next => exact bump_ne 0xFFFF counts (by omega)
      next => rfl
  next =>
    apply foldl_bump_of_notMem 0xFFFF (fun k => (topicAt ts k).announced &&
      (topicAt ts k).hash32 = e.hash && e.crosses (topicAt ts k).role)
    intro h
    have := List.mem_range.mp h
    omega

/-- A count behind the table is left alone by the fill, and the query returns none. -/
theorem fill_behind (s : PeerBook) (id : Nat) (d : Bytes) (n : Nat) (hc : s.topics.length ≤ c)
    (counts : Nat → Nat) :
    peerUnresolvedFill s id d counts n c = counts c ∧ topicUnresolved s c id d = 0 := by
  constructor
  · unfold peerUnresolvedFill
    cases peerSlot s.slots id with
    | none => rfl
    | some p =>
      cases interestWalk d with
      | none => rfl
      | some rest =>
        dsimp only
        generalize interestScan d = es
        induction es generalizing counts with
        | nil => rfl
        | cons e es ih =>
          rw [List.foldl_cons, ih]
          exact fillEntry_behind (Nat.min_le_right _ _) hc counts e
  · unfold topicUnresolved
    rw [if_pos (Or.inl hc)]

/-- An unknown peer and a list that does not account its slots count for nothing. -/
theorem fill_unread (h : ∀ p, peerSlot s.slots id = some p → interestWalk d = none)
    (counts : Nat → Nat) :
    peerUnresolvedFill s id d counts n = counts ∧ topicUnresolved s c id d = 0 := by
  unfold peerUnresolvedFill topicUnresolved
  cases hp : peerSlot s.slots id with
  | none => simp
  | some p =>
    rw [h p hp]
    simp

/-! ## Agreement -/

/-- The settled entries a topic waits for, where it waits at all. -/
theorem countP_waits (es : List InterestEntry) (m : PeerMaps) (t : Topic) (q : InterestEntry → Bool) :
    es.countP (fun e => m.settled e && t.role.pubs && t.held m.seen && q e) =
      if t.role.pubs && t.held m.seen then es.countP (fun e => m.settled e && q e) else 0 := by
  cases hw : t.role.pubs && t.held m.seen with
  | true =>
    rw [Bool.and_eq_true] at hw
    simp [hw.1, hw.2]
  | false =>
    simp only [Bool.false_eq_true, if_false]
    apply List.countP_eq_zero.mpr
    intro e _
    rw [Bool.and_assoc (m.settled e), hw]
    simp

/-- Bound and hashed are as many exactly where the settled entries of a held publisher balance. -/
theorem hits_eq_iff (es : List InterestEntry) (ts : List Topic) (m : PeerMaps) (c : Nat) :
    es.countP (boundHit ts m c) = es.countP (hashHit ts m c) ↔
      ((topicAt ts c).role.pubs = true → (topicAt ts c).held m.seen = true →
        es.countP (fun e => m.settled e && (verdictAt m.verdicts e.pos).boundTo = c) =
          es.countP fun e =>
            m.settled e && (topicAt ts c).announced && e.hash = (topicAt ts c).hash32) := by
  have hbound : es.countP (boundHit ts m c) = _ := countP_waits es m (topicAt ts c)
    fun e => (verdictAt m.verdicts e.pos).boundTo = c
  have hhash : es.countP (hashHit ts m c) = _ := countP_waits es m (topicAt ts c)
    fun e => (topicAt ts c).announced && e.hash = (topicAt ts c).hash32
  rw [hbound, hhash]
  by_cases hw : (topicAt ts c).role.pubs = true ∧ (topicAt ts c).held m.seen = true
  · rw [if_pos (by simp [hw.1, hw.2]), if_pos (by simp [hw.1, hw.2])]
    simp only [hw.1, hw.2, true_implies, Bool.and_assoc]
  rw [if_neg (by simpa using hw), if_neg (by simpa using hw)]
  constructor
  · intro _ hpubs hheld
    exact absurd ⟨hpubs, hheld⟩ hw
  · intro _
    rfl

/-- The fill and the query agree exactly where the settled entries balance. -/
theorem fill_agrees_iff (s : PeerBook) (id : Nat) (d : Bytes) (n : Nat) :
    s.FillAgrees id d n ↔ s.Balanced id d n := by
  constructor
  · intro h p hp hw c hn hc
    have hfill := h (fun _ => 0) (fun _ _ => Nat.zero_le _) c hn
    rw [peerUnresolvedFill_eq hp hw hn hc _ (Nat.zero_le _), topicUnresolved_eq hp hw hc] at hfill
    apply (hits_eq_iff (interestScan d) s.topics (s.maps p) c).mp
    -- a sum of two exclusive counts does not reach the cut
    have hlen := interestScan_length d
    have hb : (interestScan d).countP (pendingHit s.topics (s.maps p) c) +
        (interestScan d).countP (boundHit s.topics (s.maps p) c) ≤ (interestScan d).length := by
      rw [← countP_or fun e he => by simp [boundHit, pendingHit_settled he]]
      exact List.countP_le_length
    have hh : (interestScan d).countP (pendingHit s.topics (s.maps p) c) +
        (interestScan d).countP (hashHit s.topics (s.maps p) c) ≤ (interestScan d).length := by
      rw [← countP_or fun e he => by simp [hashHit, pendingHit_settled he]]
      exact List.countP_le_length
    omega
  · intro h counts hcounts c hn
    by_cases hc : s.topics.length ≤ c
    · obtain ⟨hfill, hquery⟩ := fill_behind s id d n hc counts
      have := hcounts c hn
      rw [hfill, hquery]
      omega
    · by_cases hread : ∀ p, peerSlot s.slots id = some p → interestWalk d = none
      · obtain ⟨hfill, hquery⟩ := fill_unread (n := n) (c := c) hread counts
        have := hcounts c hn
        rw [hfill, hquery]
        omega
      · simp only [not_forall] at hread
        obtain ⟨p, hp, hw⟩ := hread
        have hhits := (hits_eq_iff (interestScan d) s.topics (s.maps p) c).mpr
          (h p hp hw c hn (by omega))
        rw [peerUnresolvedFill_eq hp hw hn (by omega) counts (hcounts c hn),
          topicUnresolved_eq hp hw (by omega), hhits]

end Rant.Transport
