import Rant.Transport.Writer
/-!
# The peer table and a topic's matches

The peer rows of `i_RantTransportState` and the questions a send asks about who is matched. A
dropped peer keeps its row and its lanes, marked dormant: it counts as matched, and not as
live.
-/

namespace Rant.Transport

/-! ## The peer table -/

/-- `peer_used`, `peer_ids` and `peer_dormant` of one slot. -/
structure PeerSlot where
  used : Bool := false
  id : Nat := 0
  dormant : Bool := false
  deriving Repr, DecidableEq

/-- The row of slot `p`. -/
def peerAt (ps : List PeerSlot) (p : Nat) : PeerSlot := ps.getD p {}

/-- `i_rant_peer_slot`. -/
def peerSlot (ps : List PeerSlot) (id : Nat) : Option Nat :=
  ps.findIdx? fun x => x.used && x.id == id

/-- `i_rant_transport_peer_add`: the first free slot, unless the peer has one. -/
def peerAdd (ps : List PeerSlot) (id : Nat) : List PeerSlot :=
  if (peerSlot ps id).isSome then ps
  else
    match ps.findIdx? fun x => !x.used with
    | none => ps
    | some p => ps.set p { used := true, id := id, dormant := false }

/-- The row half of `i_rant_transport_peer_remove`. -/
def peerFree (ps : List PeerSlot) (p : Nat) : List PeerSlot :=
  ps.modify p fun x => { x with used := false, dormant := false }

/-- `i_rant_transport_peer_dormant`, and the flag of `i_rant_transport_peer_resume`. -/
def peerSetDormant (ps : List PeerSlot) (id : Nat) (dormant : Bool) : List PeerSlot :=
  match peerSlot ps id with
  | none => ps
  | some p => ps.modify p fun x => { x with dormant := dormant }

/-! ## The matches of a topic

`lanes` are the writer proxies of its lanes by peer slot. -/

variable (t : Topic) (ps : List PeerSlot) (lanes : Nat → WriterProxy)

/-- `i_rant_transport_publisher_match_count`: dormant peers included. -/
def publisherMatchCount : Nat := t.matchedWriters

/-- Whether the lane of slot `p` is matched and its peer up. -/
def liveLane (p : Nat) : Bool := (lanes p).used && !(peerAt ps p).dormant

/-- `i_rant_transport_publisher_live_matches`. -/
def publisherLiveMatches : Nat := t.laneChain.countP (liveLane ps lanes)

/-- `i_rant_transport_publisher_peer_matched`: dormant peers included. -/
def publisherPeerMatched (id : Nat) : Bool :=
  match peerSlot ps id with
  | none => false
  | some p => t.laneChain.any fun q => (lanes q).used && q == p

/-- `i_rant_transport_publisher_oldest_match`: the chain is newest first, so the last live hit
is the oldest, and 0 is none. -/
def publisherOldestMatch : Nat :=
  t.laneChain.foldl (fun id p => if liveLane ps lanes p then (peerAt ps p).id else id) 0

/-! ## Lane sides -/

/-- The writer side of `i_rant_topic_rematch` on the lane of slot `p`, on a topic we only
publish: a matched lane goes onto the chain, an unmatched one leaves it. -/
def rematchWriter (p : Nat) (wuse subReliable : Bool) : Topic × (Nat → WriterProxy) :=
  if wuse then
    if (lanes p).used then (t, lanes)
    else
      ({ t with matchedWriters := t.matchedWriters + 1, laneChain := p :: t.laneChain },
        fun q => if q = p then writerMatch t subReliable else lanes q)
  else if (lanes p).used then
    ({ t with matchedWriters := t.matchedWriters - 1, laneChain := t.laneChain.erase p },
      fun q => if q = p then { lanes p with used := false } else lanes q)
  else (t, lanes)

/-! ## The table's laws -/

variable {ps}

variable {p : Nat}

theorem peerAt_lt (hp : p < ps.length) : peerAt ps p = ps[p] := by
  unfold peerAt
  rw [List.getD_eq_getElem?_getD, List.getElem?_eq_getElem hp]
  rfl

theorem peerSlot_some {id : Nat} (h : peerSlot ps id = some p) :
    p < ps.length ∧ (peerAt ps p).used = true ∧ (peerAt ps p).id = id := by
  obtain ⟨hlt, hp, -⟩ := List.findIdx?_eq_some_iff_getElem.mp h
  rw [Bool.and_eq_true, beq_iff_eq] at hp
  rw [peerAt_lt hlt]
  exact ⟨hlt, hp⟩

theorem peerSlot_none {id : Nat} (h : peerSlot ps id = none)
    (hu : (peerAt ps p).used = true) : (peerAt ps p).id ≠ id := by
  intro hid
  by_cases hlt : p < ps.length
  · have hat := peerAt_lt hlt
    have hno := List.findIdx?_eq_none_iff.mp h ps[p] (List.getElem_mem hlt)
    rw [← hat, hu, hid, beq_self_eq_true] at hno
    cases hno
  · have hat : peerAt ps p = {} := by
      unfold peerAt
      rw [List.getD_eq_getElem?_getD, List.getElem?_eq_none (Nat.le_of_not_lt hlt)]
      rfl
    rw [hat] at hu
    cases hu

/-- Used rows have ids of their own, and 0 is no peer. -/
structure IdsOk (ps : List PeerSlot) : Prop where
  inj : ∀ p q, (peerAt ps p).used = true → (peerAt ps q).used = true →
    (peerAt ps p).id = (peerAt ps q).id → p = q
  pos : ∀ p, (peerAt ps p).used = true → (peerAt ps p).id ≠ 0

theorem IdsOk.slot (h : IdsOk ps) (hu : (peerAt ps p).used = true) :
    peerSlot ps (peerAt ps p).id = some p := by
  cases hs : peerSlot ps (peerAt ps p).id with
  | none => exact absurd rfl (peerSlot_none hs hu)
  | some q =>
    obtain ⟨-, hq, hid⟩ := peerSlot_some hs
    rw [h.inj q p hq hu hid]

theorem peerAt_set {x : PeerSlot} (hp : p < ps.length) (q : Nat) :
    peerAt (ps.set p x) q = if q = p then x else peerAt ps q := by
  unfold peerAt
  rw [List.getD_eq_getElem?_getD, List.getD_eq_getElem?_getD, List.getElem?_set]
  by_cases hq : p = q
  · subst hq
    simp [hp]
  · rw [if_neg hq, if_neg fun h => hq h.symm]

theorem peerAt_modify (hp : p < ps.length) (f : PeerSlot → PeerSlot) (q : Nat) :
    peerAt (ps.modify p f) q = if q = p then f (peerAt ps q) else peerAt ps q := by
  unfold peerAt
  rw [List.getD_eq_getElem?_getD, List.getD_eq_getElem?_getD, List.getElem?_modify]
  by_cases hq : p = q
  · subst hq
    rw [List.getElem?_eq_getElem hp]
    simp
  · rw [if_neg fun h => hq h.symm]
    simp [hq]

theorem peerAdd_cases (ps : List PeerSlot) (id : Nat) : peerAdd ps id = ps ∨
    peerSlot ps id = none ∧ ∃ p, p < ps.length ∧ (peerAt ps p).used = false ∧
      peerAdd ps id = ps.set p { used := true, id := id, dormant := false } := by
  unfold peerAdd
  split
  next => exact Or.inl rfl
  next hnone =>
    have hnone : peerSlot ps id = none := by
      rw [Option.isSome_iff_ne_none, ne_eq, not_not] at hnone
      exact hnone
    split
    next => exact Or.inl rfl
    next p hp =>
      obtain ⟨hlt, hfree, -⟩ := List.findIdx?_eq_some_iff_getElem.mp hp
      have hat := peerAt_lt hlt
      rw [Bool.not_eq_true'] at hfree
      exact Or.inr ⟨hnone, p, hlt, hat ▸ hfree, rfl⟩

theorem IdsOk.add (h : IdsOk ps) {id : Nat} (hid : id ≠ 0) : IdsOk (peerAdd ps id) := by
  rcases peerAdd_cases ps id with heq | ⟨hnone, p, hlt, hfree, heq⟩
  · rw [heq]
    exact h
  · rw [heq]
    constructor
    · intro i j hi hj hij
      rw [peerAt_set hlt] at hi hj hij
      rw [peerAt_set hlt] at hij
      by_cases hip : i = p
      · by_cases hjp : j = p
        · rw [hip, hjp]
        · rw [if_pos hip, if_neg hjp] at hij
          rw [if_neg hjp] at hj
          exact absurd hij.symm (peerSlot_none hnone hj)
      · rw [if_neg hip] at hi hij
        by_cases hjp : j = p
        · rw [if_pos hjp] at hij
          exact absurd hij (peerSlot_none hnone hi)
        · rw [if_neg hjp] at hj hij
          exact h.inj i j hi hj hij
    · intro i hi
      rw [peerAt_set hlt] at hi ⊢
      split at hi
      next hip =>
        rw [if_pos hip]
        exact hid
      next hip =>
        rw [if_neg hip]
        exact h.pos i hi

/-- Rows that keep who has them, or lose it. -/
theorem IdsOk.modify (h : IdsOk ps) (hp : p < ps.length) {f : PeerSlot → PeerSlot}
    (hkeep : ∀ x, (f x).used = true → x.used = true ∧ (f x).id = x.id) :
    IdsOk (ps.modify p f) := by
  have hat : ∀ i, (peerAt (ps.modify p f) i).used = true →
      (peerAt ps i).used = true ∧ (peerAt (ps.modify p f) i).id = (peerAt ps i).id := by
    intro i hi
    rw [peerAt_modify hp] at hi ⊢
    split at hi
    next hip =>
      rw [if_pos hip]
      exact hkeep _ hi
    next hip =>
      rw [if_neg hip]
      exact ⟨hi, rfl⟩
  constructor
  · intro i j hi hj hij
    obtain ⟨hi', hid⟩ := hat i hi
    obtain ⟨hj', hjd⟩ := hat j hj
    exact h.inj i j hi' hj' (hid.symm.trans (hij.trans hjd))
  · intro i hi
    obtain ⟨hi', hid⟩ := hat i hi
    rw [hid]
    exact h.pos i hi'

theorem IdsOk.free (h : IdsOk ps) (hp : p < ps.length) : IdsOk (peerFree ps p) :=
  h.modify hp fun _ hu => by cases hu

theorem IdsOk.setDormant (h : IdsOk ps) (id : Nat) (dormant : Bool) :
    IdsOk (peerSetDormant ps id dormant) := by
  unfold peerSetDormant
  split
  next => exact h
  next p hp => exact h.modify (peerSlot_some hp).1 fun _ hu => ⟨hu, rfl⟩

/-! ## The oldest match -/

variable {t lanes}

/-- The walk ends on the last live lane of the chain, or on none. -/
theorem oldestMatch_cases : ((∀ p ∈ t.laneChain, liveLane ps lanes p = false) ∧
      publisherOldestMatch t ps lanes = 0) ∨
    ∃ l p r, t.laneChain = l ++ p :: r ∧ liveLane ps lanes p = true ∧
      (∀ q ∈ r, liveLane ps lanes q = false) ∧
      publisherOldestMatch t ps lanes = (peerAt ps p).id := by
  unfold publisherOldestMatch
  generalize t.laneChain = chain
  -- the induction carries the peer the walk has seen last
  suffices hgen : ∀ acc : Nat, ((∀ p ∈ chain, liveLane ps lanes p = false) ∧
        chain.foldl (fun id p => if liveLane ps lanes p then (peerAt ps p).id else id) acc = acc) ∨
      ∃ l p r, chain = l ++ p :: r ∧ liveLane ps lanes p = true ∧
        (∀ q ∈ r, liveLane ps lanes q = false) ∧
        chain.foldl (fun id p => if liveLane ps lanes p then (peerAt ps p).id else id) acc =
          (peerAt ps p).id from hgen 0
  induction chain with
  | nil => exact fun _ => Or.inl ⟨fun p hp => absurd hp List.not_mem_nil, rfl⟩
  | cons p chain ih =>
    intro acc
    rw [List.foldl_cons]
    rcases ih (if liveLane ps lanes p then (peerAt ps p).id else acc) with
      ⟨hnone, heq⟩ | ⟨l, q, r, hl, hq, hr, hid⟩
    · cases hlive : liveLane ps lanes p with
      | true =>
        rw [hlive, if_pos rfl] at heq
        exact Or.inr ⟨[], p, chain, rfl, hlive, hnone, by rw [if_pos rfl]; exact heq⟩
      | false =>
        rw [hlive, if_neg Bool.false_ne_true] at heq
        refine Or.inl ⟨fun x hx => ?_, by rw [if_neg Bool.false_ne_true]; exact heq⟩
        rcases List.mem_cons.mp hx with rfl | hx
        · exact hlive
        · exact hnone x hx
    · exact Or.inr ⟨p :: l, q, r, by rw [hl]; rfl, hq, hr, hid⟩

end Rant.Transport
