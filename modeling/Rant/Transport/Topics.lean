import Rant.Transport.Types
/-!
# The topic table

`src/transport/core.c`: what defining, retiring, reusing and switching a topic do to the
table of topics. What they do to the lanes of the known peers is not a topic's business,
and follows each of them. A table is the list of its slots; an undefined slot is the
zeroed record of `i_rant_transport_build`.
-/

namespace Rant.Transport

/-! ## Identities -/

/-- `i_rant_fnv1a64`. -/
def fnv1a64 (s : Bytes) : Nat :=
  s.foldl (fun h b => Nat.xor h b.toNat * 1099511628211 % 2 ^ 64) 1469598103934665603

/-- `RANT_TOPIC_NAME_MAX`. -/
def topicNameMax : Nat := 64

/-- `RANT_ATTR_MULTI`: duplicate authority is intended. -/
def Topic.multi (t : Topic) : Bool := t.attrs.testBit 1

/-- `i_rant_topic_announced`: whether the slot occupies an announce entry. -/
def Topic.announced (t : Topic) : Bool := t.name ≠ [] && !t.retired

/-- The low 32 identity bits, which the interest entry carries. -/
def Topic.hash32 (t : Topic) : Nat := t.identity % 2 ^ 32

/-- An undefined slot. -/
def Topic.undefined : Topic where
  qos := ⟨.bestEffort, 0, 0, 0, 0, 0, false⟩
  identity := 0
  name := []
  role := .inactive
  kind := .topic
  attrs := 0
  prefixBytes := 0
  directed := false
  retired := false
  gen := 0
  rebindVersion := 0
  sib := none
  history := []
  historyHead := 0
  nextSeqno := 0
  firstSeqno := 0
  freshFrom := 0
  haveFirst := false
  fresh := false
  matchedWriters := 0
  matchedReaders := 0
  laneChain := []
  repairStats := {}

/-- Slot `c` of a table. -/
def topicAt (ts : List Topic) (c : Nat) : Topic := ts.getD c .undefined

/-! ## Definitions -/

/-- `i_RantTopicDef`. The name is the bytes before its terminator. -/
structure TopicDef where
  name : Bytes
  qos : Qos
  role : Role
  kind : TopicKind
  attrs : Nat
  prefixBytes : Nat
  directed : Bool
  deriving Repr, DecidableEq

/-- `i_rant_topic_identity`. -/
def TopicDef.identity (d : TopicDef) : Nat := fnv1a64 d.name

/-- `RANT_QOS_DEF_KEEP_LAST` and `RANT_QOS_DEF_KEEP_LAST_REL`. -/
def defKeepLast : Reliability → Nat
  | .bestEffort => 1
  | .reliable => 10

/-- `RANT_QOS_DEF_HEARTBEAT_US`. -/
def defHeartbeatUs : Nat := 250000

/-- `i_rant_qos_defaults`. -/
def qosDefaults (q : Qos) : Qos :=
  { q with
    keepLast := if q.keepLast = 0 then defKeepLast q.reliability else q.keepLast
    heartbeatUs := if q.heartbeatUs = 0 then defHeartbeatUs else q.heartbeatUs }

/-- No ring is empty. -/
theorem qosDefaults_keepLast_pos (q : Qos) : 0 < (qosDefaults q).keepLast := by
  unfold qosDefaults
  dsimp only
  split
  next =>
    unfold defKeepLast
    split <;> omega
  next h => omega

/-- Why a definition was refused, under the code it answers. -/
inductive DefErr
  | refused
  | nameTaken
  | badName
  | noMemory
  deriving Repr, DecidableEq

/-- The answer of `i_rant_transport_topic_define`. -/
def DefErr.code : DefErr → Int
  | .refused => -1
  | .nameTaken => -2
  | .badName => -3
  | .noMemory => -4

/-- The name is the identity: it is not empty and fits the wire. -/
abbrev TopicDef.badName (d : TopicDef) : Prop := d.name = [] ∨ topicNameMax < d.name.length

/-- The name rule: an announced topic of the name has the kind, and not both are live.
`c` is a slot that does not count. -/
def nameTaken (ts : List Topic) (d : TopicDef) (c : Option Nat) : Bool :=
  (List.range ts.length).any fun i =>
    (topicAt ts i).announced && (topicAt ts i).identity = d.identity && c ≠ some i &&
      ((topicAt ts i).kind ≠ d.kind || ((topicAt ts i).role ≠ .inactive && d.role ≠ .inactive))

/-- What a definition writes to its slot over a fresh ring. -/
def Topic.bind (t : Topic) (d : TopicDef) : Topic :=
  { t with
    qos := qosDefaults d.qos
    role := d.role, kind := d.kind, prefixBytes := d.prefixBytes, directed := d.directed
    attrs := d.attrs, identity := d.identity, name := d.name
    history := List.replicate (qosDefaults d.qos).keepLast .empty
    historyHead := 0, haveFirst := false }

/-- `i_rant_transport_topic_define` on the table; `ok` is the allocator's answer. -/
def topicDefine (ts : List Topic) (c : Nat) (d : TopicDef) (ok : Bool) :
    Except DefErr (List Topic) :=
  if ts.length ≤ c then .error .refused
  else if d.badName then .error .badName
  else if d.directed ∧ d.qos.catchUp ≠ 0 then .error .refused
  else if (topicAt ts c).identity ≠ 0 ∨ (topicAt ts c).history ≠ [] then .error .refused
  else if nameTaken ts d none then .error .nameTaken
  else if ok = false then .error .noMemory
  else .ok (ts.set c { (topicAt ts c).bind d with nextSeqno := 0, historyOwned := true })

/-! ## Roles, retirement and reuse -/

/-- `i_rant_transport_set_role` on the table, `none` a refusal and `some none` no change.
A retired slot only returns through reuse. -/
def topicSetRole (ts : List Topic) (c : Nat) (role : Role) : Option (Option (List Topic)) :=
  if ts.length ≤ c ∨ (topicAt ts c).retired then none
  else if (topicAt ts c).role = role then some none
  else some (some (ts.set c { topicAt ts c with role := role }))

/-- The walk of `i_rant_topic_unlink` for the slot that points at `c`. -/
def sibBack (ts : List Topic) (c : Nat) : Nat → Option Nat → Option Nat
  | _, none => none
  | 0, some _ => none
  | n + 1, some s =>
    if ts.length ≤ s then none
    else if (topicAt ts s).sib = some c then some s
    else sibBack ts c n (topicAt ts s).sib

/-- `i_rant_topic_unlink`: takes a slot out of its handle's ring. A lone survivor is
unlinked too. -/
def topicUnlink (ts : List Topic) (c : Nat) : List Topic :=
  match (topicAt ts c).sib with
  | none => ts
  | some next =>
    let ts := ts.set c { topicAt ts c with sib := none }
    match sibBack ts c (ts.length + 1) (some next) with
    | none => ts
    | some s => ts.set s { topicAt ts s with sib := if next = s then none else some next }

/-- The slot parked: it leaves the announce and every lookup by name. -/
def Topic.park (t : Topic) : Topic := { t with role := .inactive, retired := true }

/-- The parked slot's ring released. An arena ring is only cleared. -/
def Topic.release (t : Topic) : Topic :=
  { t with
    history := if t.historyOwned then [] else t.history.map fun _ => .empty
    historyOwned := false
    historyHead := 0, haveFirst := false, firstSeqno := 0, repairStats := {} }

/-- Whether `i_rant_transport_topic_retire` takes slot `c`. -/
abbrev retirable (ts : List Topic) (c : Nat) : Prop :=
  c < ts.length ∧ (topicAt ts c).name ≠ [] ∧ (topicAt ts c).retired = false

/-- `i_rant_transport_topic_retire` on the table, `none` a refusal. -/
def topicRetire (ts : List Topic) (c : Nat) : Option (List Topic) :=
  if retirable ts c then
    let ts := topicUnlink (ts.set c (topicAt ts c).park) c
    some (ts.set c (topicAt ts c).release)
  else none

/-- Whether a reuse keeps the arena ring it finds. -/
abbrev Topic.ringFits (t : Topic) (d : TopicDef) : Prop :=
  t.history ≠ [] ∧ t.historyOwned = false ∧ (qosDefaults d.qos).keepLast ≤ t.qos.keepLast

/-- What a reuse writes to the retired slot. The seqno line continues; a changed binding
opens a generation. -/
def Topic.rebind (t : Topic) (d : TopicDef) (changed : Bool) (version : Nat) : Topic :=
  { t.bind d with
    historyOwned := if t.ringFits d then t.historyOwned else true
    firstSeqno := 0, repairStats := {}, retired := false
    gen := if changed then (t.gen + 1) % 256 else t.gen
    rebindVersion := if changed then version else t.rebindVersion }

/-- `i_rant_transport_topic_reuse` on the table. -/
def topicReuse (ts : List Topic) (c : Nat) (d : TopicDef) (changed : Bool) (version : Nat)
    (ok : Bool) : Except DefErr (List Topic) :=
  let t := topicAt ts c
  if ts.length ≤ c ∨ t.retired = false then .error .refused
  else if d.badName then .error .badName
  else if d.directed ∧ d.qos.catchUp ≠ 0 then .error .refused
  else if nameTaken ts d (some c) then .error .nameTaken
  else if changed = false ∧ (t.identity ≠ d.identity ∨ t.kind ≠ d.kind) then .error .refused
  else if ¬ t.ringFits d ∧ ok = false then .error .noMemory
  else .ok (ts.set c (t.rebind d changed version))

/-! ## What they write -/

variable {ts ts' : List Topic} {c : Nat} {d : TopicDef} {ok : Bool}

theorem topicDefine_ok (h : topicDefine ts c d ok = .ok ts') :
    ¬ d.badName ∧ ts' = ts.set c { (topicAt ts c).bind d with nextSeqno := 0, historyOwned := true } := by
  unfold topicDefine at h
  split at h; next => cases h
  split at h; next => cases h
  next hname =>
    iterate 4 (split at h; next => cases h)
    exact ⟨hname, (Except.ok.inj h).symm⟩

theorem topicSetRole_ok {role : Role} (h : topicSetRole ts c role = some (some ts')) :
    ts' = ts.set c { topicAt ts c with role := role } := by
  unfold topicSetRole at h
  iterate 2 (split at h; next => cases h)
  exact (Option.some.inj (Option.some.inj h)).symm

theorem topicReuse_ok {changed : Bool} {version : Nat} (h : topicReuse ts c d changed version ok = .ok ts') :
    ¬ d.badName ∧ ts' = ts.set c ((topicAt ts c).rebind d changed version) := by
  unfold topicReuse at h
  dsimp only at h
  split at h; next => cases h
  split at h; next => cases h
  next hname =>
    iterate 4 (split at h; next => cases h)
    exact ⟨hname, (Except.ok.inj h).symm⟩

end Rant.Transport
