import Rant.Lib.Chain
import Rant.Transport.Topics
/-!
# The record store

`src/discovery/records.h` and `records.c`: one record per peer heard, found by uuid or by
local id. A place of the array that is FREE is `none`. The intrusive lists are lists of
indices: each hash bucket its chain, head first, and the free list and the due queue one
each. Times are microseconds of a clock that does not reach `2 ^ 64`.
-/

namespace Rant.Discovery

open Rant.Lib
open Rant.Transport (Bytes fnv1a64)

/-! ## Records -/

/-- A locator, `RantAddr`: `ip` holds its `ip_len` bytes. -/
structure Addr where
  ip : Bytes := []
  port : Nat := 0
  deriving Repr, DecidableEq

/-- `i_RantRecState` of a record that is not FREE. -/
inductive RecState
  | active
  | dropped
  deriving Repr, DecidableEq

/-- `i_RantDiscoveryAdmit`. -/
inductive Admit
  | no
  | yes
  | loan
  deriving Repr, DecidableEq

/-- The bits of a record's `owed` field, `I_RANT_OWE_*`. -/
structure Owed where
  reply : Bool := false
  fetch : Bool := false
  meet : Bool := false
  deriving Repr, DecidableEq

namespace Owed

/-- Any bit is set. -/
def any (o : Owed) : Bool := o.reply || o.fetch || o.meet

/-- A bit of `I_RANT_OWE_ASK` is set. -/
def ask (o : Owed) : Bool := o.fetch || o.meet

/-- `o | p`. -/
def or (o p : Owed) : Owed := ⟨o.reply || p.reply, o.fetch || p.fetch, o.meet || p.meet⟩

/-- `o & p` is not 0. -/
def meets (o p : Owed) : Bool := o.reply && p.reply || o.fetch && p.fetch || o.meet && p.meet

/-- `o & ~p`. -/
def clear (o p : Owed) : Owed := ⟨o.reply && !p.reply, o.fetch && !p.fetch, o.meet && !p.meet⟩

end Owed

/-- `I_RANT_OWE_REPLY`, `I_RANT_OWE_FETCH`, `I_RANT_OWE_MATCH`, `I_RANT_OWE_ASK` and all. -/
def oweReply : Owed := { reply := true }
def oweFetch : Owed := { fetch := true }
def oweMatch : Owed := { meet := true }
def oweAsk : Owed := { fetch := true, meet := true }
def oweAll : Owed := ⟨true, true, true⟩

/-- `i_RantDiscoveryRecord`. The bits of `flags` are the fields from `tooBig` to `reask`. -/
structure Rec where
  uuid : Bytes
  localId : Nat
  metaVersion : Nat := 0
  lastHeard : Nat := 0
  uni : Nat := 0
  due : Nat := 0
  advVersion : Nat := 0
  addr : Addr := {}
  state : RecState := .active
  slot : Option Nat := none
  owed : Owed := {}
  askTries : Nat := 0
  want : Admit := .no
  tooBig : Bool := false
  refetch : Bool := false
  askMissed : Bool := false
  filtered : Bool := false
  full : Bool := false
  reask : Bool := false
  filter : Bytes := []
  name : Bytes := []
  deriving Repr, DecidableEq

/-! ## The store -/

/-- `I_RANT_REC_MAX`. -/
def recMax : Nat := 0xFFFE

/-- `i_RantDiscoveryRecords`. `hooked` is that `alloc` is there, without which it never grows. -/
structure Records where
  recs : List (Option Rec)
  uuidHeads : List (List Nat)
  idHeads : List (List Nat)
  free : List Nat
  due : List Nat := []
  live : Nat := 0
  nextId : Nat := 1
  max : Nat
  hooked : Bool

/-- `i_rant_records_buckets`: a power of two at least `cap`. -/
def bucketsFrom (cap : Nat) : Nat → Nat → Nat
  | 0, n => n
  | k + 1, n => if n < cap then bucketsFrom cap k (2 * n) else n

def buckets (cap : Nat) : Nat := bucketsFrom cap 16 4

namespace Records

def cap (r : Records) : Nat := r.recs.length

/-- `i_rant_records_at`. -/
def get (r : Records) (i : Nat) : Option Rec := r.recs[i]?.join

/-- Place `i` written. -/
def put (r : Records) (i : Nat) (x : Option Rec) : Records := { r with recs := r.recs.set i x }

/-- The record at `i` changed, where there is one. -/
def modify (r : Records) (i : Nat) (f : Rec → Rec) : Records :=
  { r with recs := r.recs.modify i (Option.map f) }

/-- `i_rant_records_uuid_bucket`. -/
def uuidBucket (r : Records) (uuid : Bytes) : Nat :=
  fnv1a64 uuid % 2 ^ 32 &&& (r.uuidHeads.length - 1)

/-- `i_rant_records_id_bucket`. -/
def idBucket (r : Records) (id : Nat) : Nat := id &&& (r.idHeads.length - 1)

/-- `i_rant_records_link`. -/
def link (r : Records) (i : Nat) (x : Rec) : Records :=
  { r with
    uuidHeads := push r.uuidHeads (r.uuidBucket x.uuid) i
    idHeads := push r.idHeads (r.idBucket x.localId) i }

/-- `i_rant_records_rehash`, over `nb` buckets. -/
def rehash (r : Records) (nb : Nat) : Records :=
  let r := { r with uuidHeads := List.replicate nb [], idHeads := List.replicate nb [] }
  { r with
    uuidHeads := relink (fun x => r.uuidBucket x.uuid) r.get r.uuidHeads (List.range r.cap)
    idHeads := relink (fun x => r.idBucket x.localId) r.get r.idHeads (List.range r.cap) }

/-- `n` FREE places more, `i_rant_records_free_from`. -/
def extend (r : Records) (n : Nat) : Records :=
  { r with recs := r.recs ++ List.replicate n none, free := List.range' r.cap n ++ r.free }

/-- The memory a step may or may not find: the record array grown, its chains grown with it
and a hook block for a blob. -/
structure Mem where
  recs : Bool := true
  heads : Bool := true
  blob : Bool := true
  deriving Repr, DecidableEq

/-- `i_rant_records_init`, over a reserve and a bound. -/
def init (reserve max : Nat) (hooked : Bool) : Option Records :=
  if reserve > recMax then none
  else some
    { recs := List.replicate reserve none
      uuidHeads := List.replicate (buckets reserve) []
      idHeads := List.replicate (buckets reserve) []
      free := List.range reserve
      max := if hooked && max > reserve then Nat.min max recMax else reserve
      hooked := hooked }

/-- The capacity a full store doubles to. -/
def grownCap (r : Records) : Nat := Nat.min (if r.cap ≠ 0 then r.cap * 2 else 8) r.max

/-- `i_rant_records_grow`. The chains lengthen when only the array could grow. -/
def grow (mem : Mem) (r : Records) : Option Records :=
  if !r.hooked then none
  else if r.grownCap ≤ r.cap then none
  else if !mem.recs then none
  else
    let r := r.extend (r.grownCap - r.cap)
    if buckets r.cap > r.uuidHeads.length && mem.heads then some (r.rehash (buckets r.cap))
    else some r

/-- The id the next record takes: 0 is `RANT_SELF`. -/
def takenId (r : Records) : Nat := if r.nextId = 0 then 1 else r.nextId

/-- The rest of `i_rant_records_add`, at a free place. -/
def addAt (r : Records) (i : Nat) (free : List Nat) (uuid : Bytes) : Records :=
  let x : Rec := { uuid := uuid, localId := r.takenId }
  { r.put i (some x) with
    free := free
    nextId := (r.takenId + 1) % 2 ^ 32
    live := r.live + 1 }.link i x

/-- `i_rant_records_add`. -/
def add (mem : Mem) (r : Records) (uuid : Bytes) : Records × Option Nat :=
  let r := if r.free = [] then (r.grow mem).getD r else r
  match r.free with
  | [] => (r, none)
  | i :: free => (r.addAt i free uuid, some i)

/-- `i_rant_records_find`. -/
def find (r : Records) (uuid : Bytes) : Option Nat :=
  search r.uuidHeads r.get (r.uuidBucket uuid) fun x => x.uuid = uuid

/-- `i_rant_records_by_id`. -/
def byId (r : Records) (id : Nat) : Option Nat :=
  search r.idHeads r.get (r.idBucket id) fun x => x.localId = id

/-- `i_rant_records_set_state`. -/
def setState (r : Records) (i : Nat) (state : RecState) : Records :=
  match r.get i with
  | none => r
  | some x =>
    if x.state = state then r
    else
      { r.modify i fun x => { x with state := state } with
        live := if state = .active then r.live + 1 else r.live - 1 }

/-- `i_rant_records_owe`. -/
def owe (r : Records) (i : Nat) (bits : Owed) (due : Nat) : Records :=
  match r.get i with
  | none => r
  | some x =>
    if !bits.any then r
    else if !x.owed.any then
      { r.modify i fun x => { x with due := due, owed := x.owed.or bits } with due := r.due ++ [i] }
    else r.modify i fun x => { x with due := Nat.min due x.due, owed := x.owed.or bits }

/-- `i_rant_records_settle`. -/
def settle (r : Records) (i : Nat) (bits : Owed) : Records :=
  match r.get i with
  | none => r
  | some x =>
    if !x.owed.meets bits then r
    else
      let r := r.modify i fun x => { x with owed := x.owed.clear bits }
      if (x.owed.clear bits).any then r else { r with due := r.due.erase i }

/-- `i_rant_records_requeue`. -/
def requeue (r : Records) (i : Nat) (due : Nat) : Records :=
  match r.get i with
  | none => r
  | some x =>
    if !x.owed.any then r
    else { r.modify i fun x => { x with due := due } with due := r.due.erase i ++ [i] }

/-- `i_rant_records_remove`. -/
def remove (r : Records) (i : Nat) : Records :=
  match r.get i with
  | none => r
  | some x =>
    let r := r.settle i oweAll
    { r.put i none with
      uuidHeads := unlink r.uuidHeads (r.uuidBucket x.uuid) i
      idHeads := unlink r.idHeads (r.idBucket x.localId) i
      live := if x.state = .active then r.live - 1 else r.live
      free := i :: r.free }

end Records

end Rant.Discovery
