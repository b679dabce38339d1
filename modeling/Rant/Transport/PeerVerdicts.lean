import Rant.Transport.DetailExchange
import Rant.Transport.Want
/-!
# The verdicts on a peer's list

What `src/transport/core.c` keeps of a known peer's list, position by position: the topic an
entry is bound to, what was decided of it, its generation and its attributes. A position no
detail was received for is pending. `detailWants` lists the pending positions that could match a
topic of ours, and `applyPeerDetails` decides the positions a response speaks of, once each:
a decided position is never judged again (`applyPeerDetails_decided`).
-/

namespace Rant.Transport

open Rant.Lib

/-! ## The maps -/

/-- One position of the peer's maps: `peer_index`, the bits of `peer_astate`, `peer_agen` and
`peer_attrs`. -/
structure Verdict where
  boundTo : Nat := 0xFFFF
  detailed : Bool := false
  nameOk : Bool := false
  readOk : Bool := false
  writeOk : Bool := false
  refKind : Bool := false
  refQos : Bool := false
  refRead : Bool := false
  refWrite : Bool := false
  gen : Nat := 0
  attrs : Nat := 0
  deriving Repr, DecidableEq

/-- The maps at position `a`; behind their end nothing is decided. -/
def verdictAt (vs : List Verdict) (a : Nat) : Verdict := vs.getD a {}

/-- `RANT_ATTR_NO_TIMESTAMP`. -/
def Verdict.noTimestamp (v : Verdict) : Bool := v.attrs.testBit 0

/-- The entry is bound to a topic of ours. -/
def Verdict.named (v : Verdict) : Bool := v.detailed && v.nameOk

/-- The byte of `peer_astate`. -/
def Verdict.astate (v : Verdict) : Nat :=
  v.detailed.toNat + 2 * v.nameOk.toNat + 4 * v.readOk.toNat + 8 * v.writeOk.toNat +
    16 * v.refKind.toNat + 32 * v.refQos.toNat + 64 * v.refRead.toNat + 128 * v.refWrite.toNat

/-! ## Candidates -/

/-- The announced topics whose low identity bits are the hash. -/
def nominated (ts : List Topic) (hash : Nat) : List Nat :=
  (List.range ts.length).filter fun c => (topicAt ts c).announced && (topicAt ts c).hash32 = hash

/-- `i_rant_topic_by_identity`: a topic that is not parked, and otherwise the first. A retired
slot is invisible. -/
def topicByIdentity (ts : List Topic) (identity : Nat) : Option Nat :=
  let cs := (List.range ts.length).filter fun c =>
    !(topicAt ts c).retired && (topicAt ts c).identity = identity
  (cs.find? fun c => (topicAt ts c).role ≠ .inactive).or cs.head?

/-- The entry and a topic of that role are on the two sides of one channel. -/
def InterestEntry.crosses (e : InterestEntry) (ours : Role) : Bool :=
  (e.theirPub && ours.subs) || (e.theirSub && ours.pubs)

/-- The wants of `i_rant_transport_detail_wants` as they go into a request: the positions in 16
bits. -/
def peerWants (ts : List Topic) (schemas : Option (Nat → Nat)) (vs : List Verdict) (interest : Bytes)
    (maxWants : Nat) : List DetailWant :=
  (detailWants ts schemas (vs.map Verdict.astate) interest maxWants).map fun w => ⟨w.1 % 2 ^ 16, w.2⟩

/-! ## Judging -/

/-- The answers of `schema_check` to a topic, the read side or not, a hash and a wire. -/
abbrev SchemaCheck := Nat → Bool → Nat → Bytes → Bool

/-- The verdict byte overwritten. -/
def Verdict.decide (v : Verdict) (attrs : Nat) (nameOk readOk writeOk : Bool) : Verdict where
  boundTo := v.boundTo
  detailed := true
  nameOk := nameOk
  readOk := readOk
  writeOk := writeOk
  gen := v.gen
  attrs := attrs

/-- The verdict on an entry of a response, and the collision it reports: a topic and the identity
it shares under another name. -/
def judge (ts : List Topic) (check : SchemaCheck) (v : Verdict) (d : Detail) :
    Verdict × Option (Nat × Nat) :=
  if d.name = [] then (v.decide d.attrs false false false, none)
  else
    match topicByIdentity ts (fnv1a64 d.name) with
    | none => (v.decide d.attrs false false false, none)              -- a false positive of 32 bits
    | some c =>
      if (topicAt ts c).name ≠ d.name then
        (v.decide d.attrs false false false, some (c, fnv1a64 d.name))
      else
        ({ v with boundTo := c }.decide d.attrs true (check c true d.schemaHash d.schemaWire)
          (check c false d.schemaHash d.schemaWire), none)

/-- What applying a response leaves: the maps, how many positions it decided, and the events
`RANT_E_NAME_COLLISION`. -/
structure Applied where
  verdicts : List Verdict
  fresh : Nat := 0
  collisions : List (Nat × Nat) := []
  deriving Repr, DecidableEq

/-- One entry of a response. -/
def applyDetail (ts : List Topic) (check : SchemaCheck) (m : Applied) (d : Detail) : Applied :=
  if m.verdicts.length ≤ d.index then m                               -- unseen: ignored
  else if (verdictAt m.verdicts d.index).detailed then m
  else
    let j := judge ts check (verdictAt m.verdicts d.index) d
    { verdicts := m.verdicts.set d.index j.1, fresh := m.fresh + 1
      collisions := m.collisions ++ j.2.toList }

/-- `i_rant_transport_apply_peer_details`. -/
def applyPeerDetails (ts : List Topic) (check : SchemaCheck) (vs : List Verdict) (resp : Bytes) : Applied :=
  (detailEntries resp).foldl (applyDetail ts check) { verdicts := vs }

/-! ## Deciding -/

variable {ts : List Topic} {check : SchemaCheck}

theorem Verdict.astate_detailed (v : Verdict) : v.astate.testBit 0 = v.detailed := by
  unfold Verdict.astate
  rw [Nat.testBit_zero]
  cases v.detailed <;> simp <;> omega

/-- The verdict byte of a position. -/
theorem verdictIn_astate (vs : List Verdict) (a : Nat) :
    verdictIn (vs.map Verdict.astate) a = (verdictAt vs a).detailed := by
  unfold verdictIn verdictAt
  rw [← Verdict.astate_detailed, List.getD_eq_getElem?_getD, List.getD_eq_getElem?_getD,
    List.getElem?_map]
  cases vs[a]? with
  | none => rfl
  | some v => rfl

theorem verdictAt_lt {vs : List Verdict} {a : Nat} (h : a < vs.length) : verdictAt vs a = vs[a] := by
  unfold verdictAt
  rw [List.getD_eq_getElem?_getD, List.getElem?_eq_getElem h]
  rfl

theorem verdictAt_ge {vs : List Verdict} {a : Nat} (h : vs.length ≤ a) : verdictAt vs a = {} := by
  unfold verdictAt
  rw [List.getD_eq_getElem?_getD, List.getElem?_eq_none h]
  rfl

theorem verdictAt_set {vs : List Verdict} {i : Nat} {v : Verdict} (hi : i < vs.length) (a : Nat) :
    verdictAt (vs.set i v) a = if a = i then v else verdictAt vs a := by
  unfold verdictAt
  rw [List.getD_eq_getElem?_getD, List.getD_eq_getElem?_getD, List.getElem?_set]
  by_cases ha : i = a
  · subst ha
    simp [hi]
  · rw [if_neg ha, if_neg fun h => ha h.symm]

/-- Every branch of the judgement decides. -/
theorem judge_detailed (v : Verdict) (d : Detail) : (judge ts check v d).1.detailed = true := by
  unfold judge
  split
  next => rfl
  split
  next => rfl
  split
  next => rfl
  next => rfl

theorem length_applyDetail (m : Applied) (d : Detail) :
    (applyDetail ts check m d).verdicts.length = m.verdicts.length := by
  unfold applyDetail
  split
  next => rfl
  split
  next => rfl
  next => exact List.length_set

/-- A decided position is left alone. -/
theorem applyDetail_decided {m : Applied} {a : Nat} (h : (verdictAt m.verdicts a).detailed = true)
    (d : Detail) : verdictAt (applyDetail ts check m d).verdicts a = verdictAt m.verdicts a := by
  unfold applyDetail
  split
  next => rfl
  next hlt =>
    split
    next => rfl
    next hno =>
      dsimp only
      rw [verdictAt_set (Nat.lt_of_not_le hlt), if_neg]
      rintro rfl
      exact hno h

/-- A position the entry is not about is left alone. -/
theorem applyDetail_ne {m : Applied} {a : Nat} {d : Detail} (h : a ≠ d.index) :
    verdictAt (applyDetail ts check m d).verdicts a = verdictAt m.verdicts a := by
  unfold applyDetail
  split
  next => rfl
  next hlt =>
    split
    next => rfl
    next =>
      dsimp only
      rw [verdictAt_set (Nat.lt_of_not_le hlt), if_neg h]

/-- The position the entry is about is decided. -/
theorem applyDetail_at {m : Applied} {d : Detail} (h : d.index < m.verdicts.length) :
    (verdictAt (applyDetail ts check m d).verdicts d.index).detailed = true := by
  unfold applyDetail
  rw [if_neg (Nat.not_le_of_lt h)]
  split
  next hdet => exact hdet
  dsimp only
  rw [verdictAt_set h, if_pos rfl]
  exact judge_detailed _ _

theorem length_applyEntries (page : List Detail) : ∀ m : Applied,
    (page.foldl (applyDetail ts check) m).verdicts.length = m.verdicts.length := by
  induction page with
  | nil => intro m; rfl
  | cons d page ih =>
    intro m
    rw [List.foldl_cons, ih, length_applyDetail]

theorem applyEntries_decided (page : List Detail) : ∀ {m : Applied} {a : Nat},
    (verdictAt m.verdicts a).detailed = true →
    verdictAt (page.foldl (applyDetail ts check) m).verdicts a = verdictAt m.verdicts a := by
  induction page with
  | nil => intro m a _; rfl
  | cons d page ih =>
    intro m a h
    have hstep := @applyDetail_decided ts check m a h d
    rw [List.foldl_cons, ih (by rw [hstep]; exact h), hstep]

/-- Every position a page speaks of is decided behind it. -/
theorem applyEntries_at (page : List Detail) : ∀ {m : Applied} {d : Detail}, d ∈ page →
    d.index < m.verdicts.length →
    (verdictAt (page.foldl (applyDetail ts check) m).verdicts d.index).detailed = true := by
  induction page with
  | nil => intro m d h _; exact absurd h List.not_mem_nil
  | cons e page ih =>
    intro m d h hlt
    rw [List.foldl_cons]
    rcases List.mem_cons.mp h with rfl | hin
    · have hat := @applyDetail_at ts check m d hlt
      rw [applyEntries_decided page hat]
      exact hat
    · exact ih hin (by rw [length_applyDetail]; exact hlt)

/-- A decided position is never judged again. -/
theorem applyPeerDetails_decided {vs : List Verdict} {a : Nat} (h : (verdictAt vs a).detailed = true)
    (resp : Bytes) : verdictAt (applyPeerDetails ts check vs resp).verdicts a = verdictAt vs a :=
  applyEntries_decided (detailEntries resp) h

end Rant.Transport
