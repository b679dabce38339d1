import Rant.Discovery.Core
import Rant.Node.Paging
import Rant.Transport.Unresolved
/-!
# What the node waits for

`src/node/core.c` counts what is unresolved over all peers, again in two ways: for one topic, and
for all of them at once. A peer whose list is not here yet counts once for every topic. The two
counts take the same peers in the same order (`askSlot`), so they differ only by what they ask of
the transport (`unresolved_counts_agree`).
-/

namespace Rant.Node

open Rant.Lib
open Rant.Transport

/-! ## The list of a peer -/

/-- `i_rant_meta_ok`. -/
def metaOk (blob : Bytes) : Bool :=
  6 ≤ blob.length && blob.getD 0 0 = 68 && blob.getD 1 0 = 78 &&          -- 'D', 'N'
    20 ≤ (blob.getD 2 0).toNat && (blob.getD 2 0).toNat ≤ 21

/-- `i_rant_meta_base`: the odd version carries the host. -/
def metaBaseOf (blob : Bytes) : Nat := if (blob.getD 2 0).toNat.testBit 0 then 23 else 6

/-- `i_rant_meta_interest_external` and `i_rant_meta_interest` on a blob. -/
def metaOverlay (blob : Bytes) : Option Overlay :=
  if !metaOk blob ∨ blob.length < metaBaseOf blob then none
  else if (blob.getD (metaBaseOf blob - 1) 0).toNat.testBit 0 then some ⟨true, []⟩
  else some ⟨false, blob.drop (metaBaseOf blob)⟩

/-- The fields of `i_RantNodeCore` the counts read. `extras` is the scratch of a discovery slot. -/
structure NodeView where
  book : PeerBook
  core : Discovery.Core
  extras : Nat → PeerExtra

/-- What a slot adds to a count: nothing, one whatever the topic, or what the transport makes of
a peer's list. -/
inductive Ask
  | skip
  | unknown
  | list (id : Nat) (d : Bytes)
  deriving DecidableEq

/-- What is asked of a peer that is up and has a slot. -/
def askPeer (ex : PeerExtra) (blob : Bytes) (x : Discovery.Rec) : Ask :=
  if !ex.added then .skip
  else if blob = [] then .unknown                                -- the blob is still being fetched
  else
    match interestOf ex (metaOverlay blob) x.metaVersion with
    | some d => .list x.localId d
    | none => if (metaOverlay blob).any Overlay.external then .unknown else .skip

/-- The head of the loop over the slots, the same in both counts. -/
def askSlot (w : NodeView) (s : Nat) : Ask :=
  match (w.core.slotRec s).bind w.core.recAt with
  | none => .skip
  | some x =>
    if x.state = .dropped then .skip
    else
      match x.slot with
      | none => .skip
      | some q =>
        match w.core.slots[q]? with
        | none => .skip
        | some slot => askPeer (w.extras q) slot.blob x

/-! ## The two counts -/

/-- `i_rant_discovery_pending`. -/
def discoveryPending (core : Discovery.Core) : Nat :=
  (List.range core.records.cap).countP (fun i =>
    (core.recAt i).any fun x => x.state = .active && x.slot = none && x.owed.fetch) % 2 ^ 16

/-- `i_rant_transport_topic_matchable`. -/
def topicMatchable (s : PeerBook) (c : Nat) : Bool :=
  c < s.topics.length && (topicAt s.topics c).announced && (topicAt s.topics c).role ≠ .inactive

/-- One slot in `i_rant_node_core_topic_unresolved`. -/
def countSlot (w : NodeView) (c cnt s : Nat) : Nat :=
  match askSlot w s with
  | .skip => cnt
  | .unknown => cnt + 1
  | .list id d => cnt + topicUnresolved w.book c id d

/-- `i_rant_node_core_topic_unresolved`. The sum is an `int` there. -/
def nodeTopicUnresolved (w : NodeView) (c : Nat) : Nat :=
  if !topicMatchable w.book c then 0
  else (List.range w.core.slots.length).foldl (countSlot w c) (discoveryPending w.core)

/-- One slot in `i_rant_node_core_topics_unresolved`. -/
def fillSlot (w : NodeView) (n : Nat) (counts : Nat → Nat) (s : Nat) : Nat → Nat :=
  match askSlot w s with
  | .skip => counts
  | .unknown => (List.range n).foldl (bump 0xFFFF) counts
  | .list id d => peerUnresolvedFill w.book id d counts n

/-- `i_rant_node_core_topics_unresolved` into `n` counts. -/
def nodeTopicsUnresolved (w : NodeView) (n : Nat) : Nat → Nat :=
  let counts := (List.range w.core.slots.length).foldl (fillSlot w n) fun _ => discoveryPending w.core
  fun c => if topicMatchable w.book c then counts c else 0

/-! ## Agreement -/

/-- The node asks the transport about this list of this peer. -/
def NodeView.Asked (w : NodeView) (id : Nat) (d : Bytes) : Prop :=
  ∃ s < w.core.slots.length, askSlot w s = .list id d

/-- Every count of the batch is the count of its topic, cut at 65535. -/
def NodeView.Agrees (w : NodeView) (n : Nat) : Prop :=
  ∀ c < n, nodeTopicsUnresolved w n c = min 0xFFFF (nodeTopicUnresolved w c)

variable {w : NodeView} {n : Nat}

/-- One slot keeps a batch count the cut of the single count. -/
theorem fillSlot_cut (h : ∀ id d, w.Asked id d → w.book.FillAgrees id d n) {s : Nat}
    (hs : s < w.core.slots.length) {counts cnt : Nat → Nat}
    (hcut : ∀ c < n, counts c = min 0xFFFF (cnt c)) :
    ∀ c < n, fillSlot w n counts s c = min 0xFFFF (countSlot w c (cnt c) s) := by
  intro c hc
  have hle : ∀ c < n, counts c ≤ 0xFFFF := by
    intro c hc
    have := hcut c hc
    omega
  have hcnt := hcut c hc
  unfold fillSlot countSlot
  cases ha : askSlot w s with
  | skip => exact hcnt
  | unknown =>
    have hnodup : (List.range n).Nodup := List.nodup_range
    have hpass := foldl_bump 0xFFFF (fun _ => true) hnodup counts (hle c hc)
    simp only [if_true, List.mem_range, hc, true_and] at hpass
    have hone : (List.range n).foldl (bump 0xFFFF) counts c = min 0xFFFF (counts c + 1) := hpass
    dsimp only
    omega
  | list id d =>
    have hfill := h id d ⟨s, hs, ha⟩ counts hle c hc
    dsimp only
    omega

/-- Where the transport's counts agree on every list asked about, so do the node's. -/
theorem node_agrees (h : ∀ id d, w.Asked id d → w.book.FillAgrees id d n) : w.Agrees n := by
  have hrun : ∀ (ss : List Nat) (counts cnt : Nat → Nat), (∀ s ∈ ss, s < w.core.slots.length) →
      (∀ c < n, counts c = min 0xFFFF (cnt c)) → ∀ c < n,
        ss.foldl (fillSlot w n) counts c = min 0xFFFF (ss.foldl (countSlot w c) (cnt c)) := by
    intro ss
    induction ss with
    | nil =>
      intro counts cnt _ hcut
      exact hcut
    | cons s ss ih =>
      intro counts cnt hss hcut c hc
      rw [List.foldl_cons, List.foldl_cons]
      exact ih _ (fun c => countSlot w c (cnt c) s) (fun q hq => hss q (List.mem_cons_of_mem s hq))
        (fillSlot_cut h (hss s List.mem_cons_self) hcut) c hc
  intro c hc
  unfold nodeTopicsUnresolved nodeTopicUnresolved
  cases hm : topicMatchable w.book c with
  | false => rfl
  | true =>
    rw [if_pos rfl, if_neg (by simp)]
    apply hrun _ _ (fun _ => discoveryPending w.core) _ _ c hc
    · intro s hs
      exact List.mem_range.mp hs
    · intro c _
      have : discoveryPending w.core < 2 ^ 16 := Nat.mod_lt _ (by omega)
      omega

/-- The batch agrees with the query exactly where the settled entries balance, for each peer and
list, and over all the peers the node asks about. -/
theorem unresolved_counts_agree (w : NodeView) (n : Nat) :
    (∀ id d, w.book.FillAgrees id d n ↔ w.book.Balanced id d n) ∧
    (((∀ id d, w.Asked id d → w.book.FillAgrees id d n) ∧ w.Agrees n) ↔
      ∀ id d, w.Asked id d → w.book.Balanced id d n) := by
  constructor
  · intro id d
    exact fill_agrees_iff w.book id d n
  · constructor
    · intro h id d ha
      exact (fill_agrees_iff w.book id d n).mp (h.1 id d ha)
    · intro h
      have hfill : ∀ id d, w.Asked id d → w.book.FillAgrees id d n := by
        intro id d ha
        exact (fill_agrees_iff w.book id d n).mpr (h id d ha)
      exact ⟨hfill, node_agrees hfill⟩

/-- A topic of the name `x`. -/
def twin (role : Role) (rebindVersion : Nat) : Topic :=
  { Topic.undefined with
    identity := fnv1a64 [120], name := [120], role := role, rebindVersion := rebindVersion }

/-- The verdict of a subscription bound to topic 0. -/
def twinVerdict : Verdict where
  boundTo := 0
  detailed := true
  nameOk := true
  readOk := true
  writeOk := true

/-- A parked topic and its live twin, rebound at version 5, against a peer that has seen version 3
and whose subscription was bound to the first. -/
def twinBook : PeerBook where
  topics := [twin .inactive 0, twin .pubOnly 5]
  slots := [⟨true, 7, false⟩]
  maps := fun _ => ⟨3, [twinVerdict]⟩

/-- The query still waits for the held subscription, the batch does not. -/
theorem twin_counts :
    ¬ ((∀ (s : PeerBook) id d n, s.FillAgrees id d n) ∧ ∀ (w : NodeView) n, w.Agrees n) := by
  intro h
  have hfill := h.1 twinBook 7 (interestEmit [twin .subOnly 0]) 2 (fun _ => 0)
    (fun _ _ => Nat.zero_le _) 1 (by omega)
  have hquery : topicUnresolved twinBook 1 7 (interestEmit [twin .subOnly 0]) = 1 := by
    decide +kernel
  have hbatch : peerUnresolvedFill twinBook 7 (interestEmit [twin .subOnly 0]) (fun _ => 0) 2 1 =
      0 := by decide +kernel
  omega

end Rant.Node
