import Rant.Lib.Sort
import Rant.Node.SchemaGate
import Rant.Transport.DetailExchange
import Rant.Transport.InterestCodec
/-!
# The reflection tables

`src/node/core.c`: what a node knows of a peer's channels, and the fold of channels into
entities. The table is dense by the peer's topic index, fed by interest lists and detail entries,
and names lie in an arena that is only compacted by a fold. Entity slots and channel indices have
16 bits with 0xFFFF for none. Memory suffices, and a name's offset is `none` for `NAME_NONE`.
-/

namespace Rant.Node

open Rant.Lib
open Rant.Serialize (Schema Bytes)
open Rant.Transport (Role TopicEntry Detail fnv1a64 interestDrain topicNameMax)

/-- `I_RANT_NONE16`. -/
def none16 : Nat := 0xFFFF

/-- `i_rant_topic_id` of a name put into a C string. -/
def topicId (name : Bytes) : Nat := fnv1a64 (name.takeWhile (· ≠ 0))

/-- The low 32 bits, which an announce carries. -/
def hash32 (name : Bytes) : Nat := topicId name % 2 ^ 32

/-- `RantEntityKind`. -/
inductive EntityKind
  | topic
  | function
  | variable
  | task
  deriving DecidableEq, Repr

/-- `i_RantChannel`. -/
structure RantChannel where
  hash : Nat := 0
  nameOff : Option Nat := none
  schema : Option Schema := none
  schemaHash : Nat := 0
  entity : Nat := none16
  nameLen : Nat := 0
  kind : Nat := 0
  role : Role := .pubSub
  reliable : Bool := false
  attrs : Nat := 0
  present : Bool := false

/-- `i_RantPeerEntity`. -/
structure PeerEntity where
  id : Nat := 0
  nameOff : Nat := 0
  hash : Nat := 0
  primary : Nat := none16
  rsp : Nat := none16
  prg : Nat := none16
  set : Nat := none16
  nameLen : Nat := 0
  kind : EntityKind := .topic
  incomplete : Bool := false

/-- `i_RantReflect`. -/
structure Reflect where
  chan : List RantChannel := []
  ent : List PeerEntity := []
  names : Bytes := []
  dirty : Bool := false

/-! ## What arrives -/

namespace Reflect

variable (r : Reflect)

/-- Channel `i`, absent past the end. -/
def channel (i : Nat) : RantChannel := r.chan.getD i {}

/-- Channel `i`, changed. -/
def setChannel (i : Nat) (f : RantChannel → RantChannel) : Reflect :=
  { r with chan := r.chan.modify i f }

/-- `i_rant_reflect_channel`: the dense table grown, new slots absent. -/
def reserve (i : Nat) : Reflect :=
  { r with chan := r.chan ++ List.replicate (i + 1 - r.chan.length) {} }

/-- The bytes of the arena. -/
def nameAt (off len : Nat) : Bytes := (r.names.drop off).take len

/-- The name of a channel, where it was fetched. -/
def nameOf (i : Nat) : Option Bytes :=
  (r.channel i).nameOff.map fun off => r.nameAt off (r.channel i).nameLen

/-- An entry of an interest list. A slot that now holds another channel drops its details. -/
def applyEntry (e : TopicEntry) : Reflect :=
  (r.reserve e.index).setChannel e.index fun ch =>
    let ch := if ch.hash ≠ e.hash ∨ ch.kind ≠ e.kind then
        { ch with nameOff := none, nameLen := 0, schema := none, schemaHash := 0, attrs := 0 }
      else ch
    { ch with hash := e.hash, kind := e.kind, role := e.role, reliable := e.reliable, present := true }

/-- `i_rant_node_core_reflect_interest`. A list has 65535 slots at most, with two yields each. -/
def reflectInterest (interest : Bytes) : Reflect :=
  let r := { r with chan := r.chan.map fun ch => { ch with present := false } }
  { (interestDrain interest (2 ^ 17) {}).foldl applyEntry r with dirty := true }

/-- `i_rant_node_core_reflect_detail`. The schema is what the intern table answered. -/
def reflectDetail (d : Detail) (schema : Option Schema) : Reflect :=
  if d.name.length = 0 ∨ topicNameMax < d.name.length then r
  else
    let r := r.reserve d.index
    let r := if (r.channel d.index).nameOff.isNone then
        { r.setChannel d.index (fun ch =>
            { ch with nameOff := some r.names.length, nameLen := d.name.length }) with
          names := r.names ++ d.name ++ [0] }
      else r
    { r.setChannel d.index (fun ch =>
        { ch with
          attrs := d.attrs, schemaHash := d.schemaHash
          schema := if d.schemaHash ≠ 0 then schema else none }) with
      dirty := true }

end Reflect

/-! ## The fold -/

/-- `i_RantKindRow`. -/
structure KindRow where
  entity : EntityKind
  primary : Bool
  providerPubs : Bool
  suffix : Bytes

/-- `@req`, `@rsp`, `@prg` and `@set`. -/
def sfxReq : Bytes := [64, 114, 101, 113]
def sfxRsp : Bytes := [64, 114, 115, 112]
def sfxPrg : Bytes := [64, 112, 114, 103]
def sfxSet : Bytes := [64, 115, 101, 116]

/-- `RANT_KIND_FUNC_REQ` and the other kinds the fold names. -/
def kindFuncReq : Nat := 1
def kindFuncRsp : Nat := 2
def kindVariable : Nat := 3
def kindVarSet : Nat := 4
def kindTaskReq : Nat := 5
def kindTaskPrg : Nat := 6
def kindTaskRsp : Nat := 7
def kindCallObs : Nat := 8

/-- `i_rant_kind_row`. -/
def kindRow : Nat → KindRow
  | 1 => ⟨.function, true, false, sfxReq⟩
  | 2 => ⟨.function, false, true, sfxRsp⟩
  | 3 => ⟨.variable, true, true, []⟩
  | 4 => ⟨.variable, false, false, sfxSet⟩
  | 5 => ⟨.task, true, false, sfxReq⟩
  | 6 => ⟨.task, false, true, sfxPrg⟩
  | 7 => ⟨.task, false, true, sfxRsp⟩
  | _ => ⟨.topic, true, true, []⟩

/-- `i_RantHashPair`. -/
structure HashPair where
  hash : Nat
  index : Nat
  deriving DecidableEq, Repr

/-- The order of `i_rant_hash_sort`. -/
def pairBelow (a b : HashPair) : Bool :=
  decide (a.hash < b.hash) || (decide (a.hash = b.hash) && decide (a.index < b.index))

namespace Reflect

variable (r : Reflect)

/-- The channels a hash leads to. -/
def sortedPairs : List HashPair :=
  shellSort pairBelow (((List.range r.chan.length).filter fun i => (r.channel i).present).map
    fun i => ⟨(r.channel i).hash, i⟩)

/-- A channel of `kind` may be the one named `name`: a fetched name must really be it, 32 bit
hashes collide. -/
def partnerFits (name : Bytes) (kind i : Nat) : Bool :=
  (r.channel i).kind == kind && (r.nameOf i).all (· == name)

/-- `i_rant_reflect_partner`. -/
def partner (sorted : List HashPair) (base suffix : Bytes) (kind : Nat) : Nat :=
  if topicNameMax < base.length + suffix.length then none16
  else
    let want := hash32 (base ++ suffix)
    let run := (sorted.drop (lowerBound (fun p => decide (p.hash < want)) sorted)).takeWhile
      fun p => p.hash = want
    match run.find? fun p => r.partnerFits (base ++ suffix) kind p.index with
    | some p => p.index
    | none => none16

/-- The entity's name, `i_rant_reflect_set_name`. -/
def setName (e : PeerEntity) (off len : Nat) : PeerEntity :=
  { e with nameOff := off, nameLen := len % 2 ^ 8, id := topicId (r.nameAt off len) }

/-- The entity's side of `i_rant_reflect_attach`. -/
def attachTo (e : PeerEntity) (idx kind : Nat) : PeerEntity :=
  if kind = kindFuncRsp ∨ kind = kindTaskRsp then { e with rsp := idx }
  else if kind = kindTaskPrg then { e with prg := idx }
  else if kind = kindVarSet then { e with set := idx }
  else e

/-- `i_rant_reflect_attach`: channel `idx` becomes the entity's partner of its kind. -/
def attach (e : PeerEntity) (idx slot : Nat) : Reflect × PeerEntity :=
  (r.setChannel idx fun ch => { ch with entity := slot }, attachTo e idx (r.channel idx).kind)

/-- A partner that is there is attached, and one that is required and is not leaves the entity
incomplete. -/
def claim (sorted : List HashPair) (base : Bytes) (slot : Nat) (suffix : Bytes) (kind : Nat)
    (required : Bool) (e : PeerEntity) : Reflect × PeerEntity :=
  let p := r.partner sorted base suffix kind
  if p ≠ none16 then r.attach e p slot
  else (r, if required then { e with incomplete := true } else e)

/-- The partners of a primary of `kind` named `base`. -/
def claimAll (sorted : List HashPair) (base : Bytes) (slot kind : Nat) (e : PeerEntity) :
    Reflect × PeerEntity :=
  if kind = kindFuncReq then r.claim sorted base slot sfxRsp kindFuncRsp true e
  else if kind = kindTaskReq then
    let s := r.claim sorted base slot sfxRsp kindTaskRsp true e
    s.1.claim sorted base slot sfxPrg kindTaskPrg true s.2
  else if kind = kindVariable then r.claim sorted base slot sfxSet kindVarSet false e
  else (r, e)

/-- The last entity is put. -/
def push (s : Reflect × PeerEntity) : Reflect := { s.1 with ent := s.1.ent ++ [s.2] }

/-- The name has more before the suffix. -/
def carries (name suffix : Bytes) : Bool :=
  decide (suffix.length < name.length) && name.drop (name.length - suffix.length) == suffix

/-- Pass 1 at channel `i`: a primary opens an entity and claims its partners. -/
def openPrimary (sorted : List HashPair) (r : Reflect) (i : Nat) : Reflect :=
  let ch := r.channel i
  let row := kindRow ch.kind
  if !ch.present || decide (8 ≤ ch.kind) || !row.primary then r
  else
    let slot := r.ent.length % 2 ^ 16
    let e : PeerEntity := { kind := row.entity, primary := i % 2 ^ 16, hash := ch.hash }
    let r := r.setChannel i fun ch => { ch with entity := slot }
    match ch.nameOff with
    | none => push (r, { e with incomplete := decide (row.suffix ≠ []) })  -- partners need the name
    | some off =>
      let name := r.nameAt off ch.nameLen
      if row.suffix = [] then
        push (r.claimAll sorted name slot ch.kind (r.setName e off ch.nameLen))
      else if carries name row.suffix then
        let len := ch.nameLen - row.suffix.length
        push (r.claimAll sorted (r.nameAt off len) slot ch.kind (r.setName e off len))
      else push (r, r.setName { e with incomplete := true } off ch.nameLen)

/-- Pass 2 at channel `i`: an unclaimed partner is a half pair or an unknown kind. -/
def openLone (r : Reflect) (i : Nat) : Reflect :=
  let ch := r.channel i
  if !ch.present || decide (ch.entity ≠ none16) || decide (ch.kind = kindCallObs) then r
  else
    let row := kindRow ch.kind
    let slot := r.ent.length % 2 ^ 16
    let e : PeerEntity :=
      { kind := if ch.kind < 8 then row.entity else .topic, hash := ch.hash, incomplete := true }
    let s : Reflect × PeerEntity :=
      if ch.kind < 8 ∧ row.primary = false then r.attach e i slot
      else (r.setChannel i fun ch => { ch with entity := slot }, { e with primary := i % 2 ^ 16 })
    match ch.nameOff with
    | none => push s
    | some off =>
      let name := r.nameAt off ch.nameLen
      let len := if ch.kind < 8 ∧ row.suffix ≠ [] ∧ carries name row.suffix = true then
        ch.nameLen - row.suffix.length else ch.nameLen
      push (s.1, r.setName s.2 off len)

/-- The names that are held, one after the other, and the channels at their new places. -/
def compactFrom (names : Bytes) : List RantChannel → Bytes → List RantChannel × Bytes
  | [], keep => ([], keep)
  | ch :: chs, keep =>
    match ch.nameOff with
    | none =>
      let s := compactFrom names chs keep
      (ch :: s.1, s.2)
    | some off =>
      let s := compactFrom names chs (keep ++ (names.drop off).take (ch.nameLen + 1))
      ({ ch with nameOff := some keep.length } :: s.1, s.2)

/-- `i_rant_reflect_compact`: drops the names no channel holds any more. -/
def compact : Reflect :=
  let live := (r.chan.map fun ch => if ch.nameOff.isSome then ch.nameLen + 1 else 0).sum
  if r.names.length ≤ 2 * live + 1024 then r
  else
    let s := compactFrom r.names r.chan []
    { r with chan := s.1, names := s.2 }

/-- `i_rant_reflect_fold`. Our own arena restarts on every walk. -/
def fold (self : Bool) : Reflect :=
  let r := { r with dirty := false }
  let r := if self then r else r.compact
  let r := { r with ent := [], chan := r.chan.map fun ch => { ch with entity := none16 } }
  let sorted := r.sortedPairs
  let r := (List.range r.chan.length).foldl (openPrimary sorted) r
  (List.range r.chan.length).foldl openLone r

/-! ## Runs -/

end Reflect

/-- What happens to a peer's table. -/
inductive ReflectEvent
  | interest (list : Bytes)
  | detail (d : Detail) (schema : Option Schema)
  | fold

/-- The folds are lazy, so they come in between anywhere. -/
def Reflect.step (r : Reflect) : ReflectEvent → Reflect
  | .interest list => r.reflectInterest list
  | .detail d schema => r.reflectDetail d schema
  | .fold => r.fold false

end Rant.Node
