import Rant.Lib.Keyed
import Rant.Lib.Run
import Rant.Serialize.Rebase
import Rant.Transport.Topics
/-!
# The schema gate

`src/node/core.c`: what a node keeps of schemas, and its verdict on a peer's. Its own topics
have theirs compiled. A peer's is interned once per hash, the view of ours on a peer's layout
is kept once per pair of hashes, and the delivery map says which schema a peer's messages on a
topic decode with. A verdict may allocate up to five times, and each may fail.

A topic slot is unused, live or retired. A retired one keeps the hash of its schema, so that
the next binding knows whether it is another.
-/

namespace Rant.Node

open Rant.Lib
open Rant.Serialize (Schema Bytes compile subset rebase)
open Rant.Transport (fnv1a64)

/-- `rant_schema_hash`. -/
def schemaHash (s : Schema) : Nat := fnv1a64 s.wire

/-- `rant_schema_hash`, 0 where there is none. -/
def hashOf : Option Schema → Nat
  | none => 0
  | some s => schemaHash s

/-- A schema of ours: parsed, not rebased. -/
abbrev OwnSchema := { s : Schema // compile s.wire = some s }

/-- What the transport says of a slot. -/
inductive SlotUse
  | unused
  | live
  | retired
  deriving DecidableEq

/-- A topic slot: its use, its row of `chan_schemas` and its row of `chan_compiled`. -/
structure TopicSlot where
  use : SlotUse := .unused
  hash : Nat := 0
  wire : Bytes := []
  compiled : Option Schema := none

/-- `i_RantNodeSchemaIntern`. -/
structure SchemaIntern where
  hash : Nat
  parsed : Schema

/-- `i_RantNodeSchemaBind`. -/
structure SchemaBind where
  writer : Nat
  reader : Nat
  rebased : Schema

/-- An entry's schema: `i_RANT_NODE_SCHEMA_OURS`, resolved when it is read, or a pointer. -/
inductive Delivery
  | ours
  | view (s : Schema)

/-- `i_RantNodePeerSchema`. -/
structure PeerSchema where
  peer : Nat
  topic : Nat
  schema : Option Delivery

/-- What the delivery map is searched by. -/
def PeerSchema.key (e : PeerSchema) : Nat × Nat := (e.peer, e.topic)

/-- The fields of `i_RantNodeCore` that are about schemas. -/
structure SchemaCore where
  slots : List TopicSlot
  interned : List SchemaIntern := []
  capInterned : Nat := 0
  binds : List SchemaBind := []
  capBinds : Nat := 0
  peerSchemas : List PeerSchema := []
  capPeerSchemas : Nat := 0

/-- The allocator's answer to each ask a verdict may make. -/
structure Allocs where
  parse : Bool
  intern : Bool
  rebase : Bool
  bind : Bool
  map : Bool

/-- No allocation fails. -/
def Allocs.granted : Allocs := ⟨true, true, true, true, true⟩

/-- `i_rant_node_core_array_reserve`: the capacity after it. -/
def arrayReserve (cap need : Nat) (ok : Bool) : Option Nat :=
  if need ≤ cap then some cap
  else if !ok then none
  else some (max (if cap = 0 then 8 else cap * 2) need)

namespace SchemaCore

variable (c : SchemaCore)

/-- Row `t` of the topic slots. -/
def slot (t : Nat) : TopicSlot := c.slots.getD t {}

/-- The transport's word on a slot changes. -/
def setUse (t : Nat) (use : SlotUse) : SchemaCore :=
  { c with slots := c.slots.set t { c.slot t with use := use } }

/-- `i_rant_node_core_set_topic_schema`. -/
def setTopicSchema (t : Nat) (schema : Option Schema) : SchemaCore :=
  { c with slots := c.slots.set t { c.slot t with
      compiled := schema
      hash := hashOf schema
      wire := schema.elim [] (·.wire) } }

/-- `i_rant_node_core_retire_topic_schema`. -/
def retireTopicSchema (t : Nat) : SchemaCore :=
  { c with slots := c.slots.set t { c.slot t with compiled := none, wire := [] } }

/-- The wire an intern parses: the one sent, or one of ours of that hash. -/
def wireFor (hash : Nat) (wire : Bytes) : Bytes :=
  if wire = [] then
    match c.slots.find? fun sl => sl.hash = hash ∧ sl.wire ≠ [] with
    | some sl => sl.wire
    | none => []
  else wire

/-- `i_rant_node_core_intern`: a peer schema parsed once per hash. -/
def intern (hash : Nat) (wire : Bytes) (ok : Allocs) : SchemaCore × Option Schema :=
  match c.interned.find? fun e => e.hash = hash with
  | some e => (c, some e.parsed)
  | none =>
    if c.wireFor hash wire = [] then (c, none)
    else
      match if ok.parse then compile (c.wireFor hash wire) else none with
      | none => (c, none)
      | some p =>
        -- the claimed hash must be the wire's own
        if schemaHash p ≠ hash then (c, none)
        else
          match arrayReserve c.capInterned (c.interned.length + 1) ok.intern with
          | none => (c, none)
          | some cap =>
            ({ c with interned := c.interned ++ [⟨hash, p⟩], capInterned := cap }, some p)

/-- `i_rant_node_core_bind`: our fields on their layout, cached. -/
def bind (hash : Nat) (ours pub : Schema) (ok : Allocs) : SchemaCore × Option Schema :=
  match c.binds.find? fun b => b.writer = hash ∧ b.reader = schemaHash ours with
  | some b => (c, some b.rebased)
  | none =>
    match if ok.rebase then Serialize.rebase ours pub else none with
    | none => (c, none)
    | some rb =>
      match arrayReserve c.capBinds (c.binds.length + 1) ok.bind with
      | none => (c, none)
      | some cap =>
        ({ c with binds := c.binds ++ [⟨hash, schemaHash ours, rb⟩], capBinds := cap }, some rb)

/-- `i_rant_node_core_peer_schema_set`. -/
def peerSchemaSet (peer topic : Nat) (schema : Option Delivery) (ok : Allocs) : SchemaCore :=
  match replaceFirst (fun e => decide (e.key = (peer, topic))) ({ · with schema := schema })
      c.peerSchemas with
  | some l => { c with peerSchemas := l }
  | none =>
    if schema.isNone then c
    else
      match arrayReserve c.capPeerSchemas (c.peerSchemas.length + 1) ok.map with
      | none => c
      | some cap =>
        { c with peerSchemas := c.peerSchemas ++ [⟨peer, topic, schema⟩], capPeerSchemas := cap }

/-- `i_rant_node_core_peer_schema_clear`. -/
def peerSchemaClear (peer : Nat) : SchemaCore :=
  { c with peerSchemas := swapRemove (fun e => decide (e.peer = peer)) c.peerSchemas }

/-- `i_rant_node_core_topic_rebound`. -/
def topicRebound (topic : Nat) : SchemaCore :=
  { c with peerSchemas := swapRemove (fun e => decide (e.topic = topic)) c.peerSchemas }

/-- `i_rant_node_core_msg_schema`. -/
def msgSchema (peer topic : Nat) : Option Schema :=
  match c.peerSchemas.find? fun e => decide (e.key = (peer, topic)) with
  | none => none
  | some e =>
    match e.schema with
    | none => none
    | some .ours => (c.slot topic).compiled
    | some (.view s) => some s

/-- The read side of `i_rant_node_core_schema_verdict`: they write, we would read. -/
def readVerdict (peer topic hash : Nat) (wire : Bytes) (ok : Allocs) : SchemaCore × Bool :=
  match (c.slot topic).compiled with
  | none =>
    -- a generic reader decodes with theirs
    if hash = 0 then (c.peerSchemaSet peer topic none ok, true)
    else
      let i := c.intern hash wire ok
      (i.1.peerSchemaSet peer topic (i.2.map .view) ok, true)
  | some ours =>
    if hash = 0 then (c, false)
    else if hash = schemaHash ours then (c.peerSchemaSet peer topic (some .ours) ok, true)
    else
      let i := c.intern hash wire ok
      match i.2 with
      | none => (i.1, false)
      | some pub =>
        if !subset ours pub then (i.1, false)
        else
          let b := i.1.bind hash ours pub ok
          match b.2 with
          | none => (b.1, false)
          | some view => (b.1.peerSchemaSet peer topic (some (.view view)) ok, true)

/-- The write side: they read, we would write. -/
def writeVerdict (topic hash : Nat) (wire : Bytes) (ok : Allocs) : SchemaCore × Bool :=
  if hash = 0 then (c, true)                         -- a generic reader takes anything
  else
    match (c.slot topic).compiled with
    | none => (c, false)
    | some ours =>
      if hash = schemaHash ours then (c, true)
      else
        let i := c.intern hash wire ok
        match i.2 with
        | none => (i.1, false)
        | some sub => (i.1, subset sub ours)

/-- `i_rant_node_core_schema_verdict`. -/
def schemaVerdict (peer topic : Nat) (peerIsPub : Bool) (hash : Nat) (wire : Bytes)
    (ok : Allocs) : SchemaCore × Bool :=
  if peerIsPub then c.readVerdict peer topic hash wire ok else c.writeVerdict topic hash wire ok

end SchemaCore

/-! ## A node's runs -/

/-- The gate of one node. `admitted` is ghost: the hash of the writer's schema at the gate's
last admission of a peer to a typed topic, since the topic was last bound to something else. -/
structure SchemaNode where
  core : SchemaCore
  admitted : Nat → Nat → Option Nat := fun _ _ => none

/-- What may happen to a node's schemas. -/
inductive SchemaEvent
  /-- A topic takes an unused slot. -/
  | define (t : Nat) (schema : Option OwnSchema)
  | retire (t : Nat)
  /-- A topic takes a retired slot. `same` is whether name and kind are the old occupant's,
  `ok` whether the transport found the memory. -/
  | reuse (t : Nat) (schema : Option OwnSchema) (same ok : Bool)
  /-- A live topic changes its schema in place. -/
  | retype (t : Nat) (schema : Option OwnSchema) (ok : Bool)
  /-- The reserve of topic slots grows. -/
  | migrate (n : Nat)
  /-- A detail resolved to a topic: both directions are judged. -/
  | detail (peer t hash : Nat) (wire : Bytes) (okRead okWrite : Allocs)
  /-- A detail is reflected. -/
  | reflect (hash : Nat) (wire : Bytes) (ok : Allocs)
  /-- The peer is gone, or its id is taken by another. -/
  | forget (peer : Nat)

namespace SchemaNode

/-- The slot is bound to something else: what was judged of it is void. -/
def rebind (s : SchemaNode) (t : Nat) : SchemaNode where
  core := s.core.topicRebound t
  admitted := fun p t' => if t' = t then none else s.admitted p t'

/-- A topic takes the slot, and its schema is set. -/
def occupy (s : SchemaNode) (t : Nat) (schema : Option OwnSchema) : SchemaNode :=
  { s with core := (s.core.setUse t .live).setTopicSchema t (schema.map (·.1)) }

/-- The slot is parked. -/
def park (s : SchemaNode) (t : Nat) : SchemaNode :=
  { s with core := (s.core.setUse t .retired).retireTopicSchema t }

/-- The read side of a detail, and what it admits. -/
def judge (s : SchemaNode) (peer t hash : Nat) (wire : Bytes) (ok : Allocs) : SchemaNode :=
  let v := s.core.schemaVerdict peer t true hash wire ok
  { core := v.1
    admitted := fun p t' =>
      if p = peer ∧ t' = t ∧ v.2 ∧ (s.core.slot t).compiled.isSome then some hash
      else s.admitted p t' }

/-- One event. -/
def step (s : SchemaNode) : SchemaEvent → SchemaNode
  | .define t schema => if (s.core.slot t).use = .unused then s.occupy t schema else s
  | .retire t => if (s.core.slot t).use = .live then s.park t else s
  | .reuse t schema same ok =>
    if (s.core.slot t).use = .retired ∧ ok then
      let changed := !same || hashOf (schema.map (·.1)) != (s.core.slot t).hash
      (if changed then s.rebind t else s).occupy t schema
    else s
  | .retype t schema ok =>
    if (s.core.slot t).use = .live then
      if ok then ((s.park t).rebind t).occupy t schema else s.park t
    else s
  | .migrate n =>
    { s with core := { s.core with
        slots := s.core.slots ++ List.replicate (n - s.core.slots.length) {} } }
  | .detail peer t hash wire okRead okWrite =>
    if (s.core.slot t).use = .live then
      let s := s.judge peer t hash wire okRead
      { s with core := (s.core.schemaVerdict peer t false hash wire okWrite).1 }
    else s
  | .reflect hash wire ok =>
    if hash = 0 then s else { s with core := (s.core.intern hash wire ok).1 }
  | .forget peer =>
    { core := s.core.peerSchemaClear peer
      admitted := fun p t => if p = peer then none else s.admitted p t }

/-- `n` slots, none of them used. -/
def init (n : Nat) : SchemaNode := ⟨{ slots := List.replicate n {} }, fun _ _ => none⟩

end SchemaNode

end Rant.Node
