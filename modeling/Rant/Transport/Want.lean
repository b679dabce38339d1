import Rant.Lib.Bitmap
import Rant.Lib.Run
import Rant.Lib.Sort
import Rant.Transport.Interest
/-!
# The want set

`src/transport/core.c`: whether a peer is worth a slot is judged from its interest list
alone. Each announced topic gives the keys an entry may meet it by (`wantKeys`); the set
of them is sorted, rebuilt lazily and searched by hash (`interestMeets`). A peer judged
not to meet is remembered in a filter (`interestFold`), and the keys a rebuild added say
whether one of those may meet now (`wantNewMaybe`).

`WantState` is the part of the transport's state these functions read and write. Its runs
are any order of changes of the topic table and of reads that rebuild, the allocator
answering as it likes.
-/

namespace Rant.Transport

open Rant.Lib

/-! ## Keys -/

/-- `i_RantWant`: one way an entry meets one of our topics. A rival key, `rivalKind` not 0,
takes the same side of an authority kind. -/
structure Want where
  hash : Nat
  theirPub : Bool
  rivalKind : Nat
  deriving Repr, DecidableEq

/-- `i_rant_want_keys`: the keys of one topic. -/
def wantKeys (t : Topic) : List Want :=
  if t.announced then
    (if t.role.subs then [⟨t.hash32, true, 0⟩] else []) ++
    (if t.role.pubs then [⟨t.hash32, false, 0⟩] else []) ++
    (if !t.multi && t.role.pubs && t.kind = .variable then [⟨t.hash32, true, t.kind.code⟩] else []) ++
    (if !t.multi && t.role.subs && t.kind.isRequest then [⟨t.hash32, false, t.kind.code⟩] else [])
  else []

/-- `i_rant_want_before`: a total order, hash first. -/
def Want.before (a b : Want) : Bool :=
  if a.hash ≠ b.hash then a.hash < b.hash
  else if a.theirPub ≠ b.theirPub then !a.theirPub
  else a.rivalKind < b.rivalKind

/-- Whether a key takes an entry that carries its hash. -/
def Want.takes (w : Want) (e : InterestEntry) : Bool :=
  (if w.theirPub then e.theirPub else e.theirSub) && (w.rivalKind = 0 || w.rivalKind = e.kind)

/-! ## The state -/

/-- The topics and the want set of `i_RantTransportState`. `added` is `want_new` and
`addedAll` is `want_new_all`. -/
structure WantState where
  topics : List Topic
  want : List Want := []
  dirty : Bool := true
  failed : Bool := false
  added : List Want := []
  addedCap : Nat := 0
  addedAll : Bool := false

/-- The allocator's answers in one rebuild: the set, and the list grown to a capacity. -/
structure WantAlloc where
  fresh : Bool := true
  grow : Nat → Bool := fun _ => true

/-- The keys of a table, topic by topic. -/
def tableKeys (ts : List Topic) : List Want := ts.flatMap wantKeys

/-- The capacity `want_new` grows to when it is full. -/
def grownCap (cap : Nat) : Nat := if cap ≠ 0 then cap * 2 else 8

/-- One key appended to `want_new`. -/
def noteKey (al : WantAlloc) (s : WantState) (w : Want) : WantState :=
  if s.added.length = s.addedCap then
    if al.grow (grownCap s.addedCap) then
      { s with addedCap := grownCap s.addedCap, added := s.added ++ [w] }
    else { s with addedAll := true }
  else { s with added := s.added ++ [w] }

/-- `i_rant_want_note_added`: the merge of the two sorted sets. -/
def noteAdded (al : WantAlloc) : List Want → List Want → WantState → WantState
  | [], _, s => s
  | w :: fresh, old, s =>
    if s.addedAll then s
    else
      let old := old.dropWhile fun o => o.before w
      if old.head?.any fun o => !w.before o then noteAdded al fresh old s     -- held before
      else noteAdded al fresh old (noteKey al s w)

/-- `i_rant_want_rebuild`. Out of memory, every peer meets us until a rebuild works. -/
def wantRebuild (al : WantAlloc) (s : WantState) : WantState :=
  if tableKeys s.topics ≠ [] ∧ al.fresh = false then { s with failed := true, addedAll := true }
  else
    let fresh := shellSort Want.before (tableKeys s.topics)
    { noteAdded al fresh s.want s with want := fresh, dirty := false, failed := false }

/-- The rebuild every reader starts with. -/
def wantRefresh (al : WantAlloc) (s : WantState) : WantState :=
  if s.dirty then wantRebuild al s else s

/-- The search of `rant_transport_interest_meets` for one entry. -/
def meetsEntry (want : List Want) (e : InterestEntry) : Bool :=
  let lo := lowerBound (fun w => decide (w.hash < e.hash)) want
  ((want.drop lo).takeWhile fun w => w.hash = e.hash).any fun w => w.takes e

/-- `rant_transport_interest_meets`. -/
def interestMeets (al : WantAlloc) (s : WantState) (d : Bytes) : WantState × Bool :=
  match interestWalk d with
  | none => (s, false)                       -- an apply would refuse it whole
  | some _ =>
    let s := wantRefresh al s
    (s, s.failed || (interestScan d).any (meetsEntry s.want))

/-! ## The filter -/

/-- `i_rant_hash_mix64`. -/
def hashMix64 (z : UInt64) : UInt64 :=
  let z := (z ^^^ (z >>> 30)) * 0xBF58476D1CE4E5B9
  let z := (z ^^^ (z >>> 27)) * 0x94D049BB133111EB
  z ^^^ (z >>> 31)

/-- `i_rant_want_bits`: the three bits of an item in a filter of `bytes` bytes. -/
def wantBits (hash : Nat) (theirPub : Bool) (bytes : Nat) : List Nat :=
  let x := (hashMix64 ((UInt64.ofNat hash <<< 1) ||| UInt64.ofNat theirPub.toNat)).toNat
  let mask := (8 * bytes - 1) % 2 ^ 32
  [x % 2 ^ 32 &&& mask, x / 2 ^ 21 % 2 ^ 32 &&& mask, x / 2 ^ 42 % 2 ^ 32 &&& mask]

/-- The sides an entry takes, the subscriber's first. -/
def InterestEntry.sides (e : InterestEntry) : List Bool :=
  (if e.theirSub then [false] else []) ++ (if e.theirPub then [true] else [])

/-- The bits of one entry set. -/
def foldEntry (filter : Bytes) (e : InterestEntry) : Bytes :=
  e.sides.foldl (fun f side => (wantBits e.hash side f.length).foldl bitSet f) filter

/-- `rant_transport_interest_fold`. -/
def interestFold (d filter : Bytes) : Bytes :=
  match interestWalk d with
  | none => filter                           -- meets nothing, as `interestMeets` says
  | some _ => (interestScan d).foldl foldEntry filter

/-- `rant_transport_want_new_maybe`. -/
def wantNewMaybe (al : WantAlloc) (s : WantState) (filter : Bytes) : WantState × Bool :=
  let s := wantRefresh al s
  (s, s.addedAll || s.added.any fun w =>
    (wantBits w.hash w.theirPub filter.length).all (bitGet filter))

/-! ## Details -/

/-- `i_rant_hash32_candidates`: how many announced topics carry the hash, and the one
preferred, the first that is not INACTIVE, else the first. -/
def hash32Candidates (ts : List Topic) (h : Nat) : Nat × Option Nat :=
  let idx := (List.range ts.length).filter fun i =>
    (topicAt ts i).announced && (topicAt ts i).hash32 = h
  (idx.length, (idx.find? fun i => (topicAt ts i).role ≠ .inactive).or idx.head?)

/-- The peer's verdict of the entry is in: `RANT__AST_DETAILED`. No storage, no verdict. -/
def verdictIn (astate : List Nat) (pos : Nat) : Bool := (astate.getD pos 0).testBit 0

/-- Whether an entry is a candidate with no verdict, and the want its request carries:
the position, and the one topic's schema hash. -/
def detailWant (ts : List Topic) (schemas : Option (Nat → Nat)) (astate : List Nat)
    (e : InterestEntry) : Option (Nat × Nat) :=
  if verdictIn astate e.pos then none
  else
    match hash32Candidates ts e.hash with
    | (_, none) => none
    | (nc, some c) =>
      let role := (topicAt ts c).role
      if (e.theirPub && role.subs) || (e.theirSub && role.pubs) then
        some (e.pos, if nc = 1 then (schemas.map (· c)).getD 0 else 0)
      else none

/-- `rant_transport_detail_wants` of a known peer, up to `maxWants` of them. -/
def detailWants (ts : List Topic) (schemas : Option (Nat → Nat)) (astate : List Nat) (d : Bytes)
    (maxWants : Nat) : List (Nat × Nat) :=
  match interestWalk d with
  | none => []
  | some _ => ((interestScan d).filterMap (detailWant ts schemas astate)).take maxWants

/-! ## Runs -/

/-- What may happen to the table and its want set. -/
inductive WantEvent
  | define (c : Nat) (d : TopicDef) (ok : Bool)
  | retire (c : Nat)
  | reuse (c : Nat) (d : TopicDef) (changed : Bool) (version : Nat) (ok : Bool)
  | setRole (c : Nat) (role : Role)
  /-- `rant_transport_migrate` to a larger table. -/
  | grow (extra : Nat)
  /-- A reader rebuilds what is dirty. -/
  | refresh (al : WantAlloc)
  /-- `rant_transport_want_new_clear`. -/
  | clear

/-- A table that changed. -/
def WantState.changed (s : WantState) (ts : List Topic) : WantState :=
  { s with topics := ts, dirty := true }

/-- One event. -/
def WantState.step (s : WantState) : WantEvent → WantState
  | .define c d ok =>
    match topicDefine s.topics c d ok with
    | .ok ts => s.changed ts
    | .error _ => s
  | .retire c =>
    match topicRetire s.topics c with
    | some ts => s.changed ts
    | none => s
  | .reuse c d changed version ok =>
    match topicReuse s.topics c d changed version ok with
    | .ok ts => s.changed ts
    | .error _ => s
  | .setRole c role =>
    match topicSetRole s.topics c role with
    | some (some ts) => s.changed ts
    | _ => s
  | .grow extra => { s with topics := s.topics ++ List.replicate extra .undefined }
  | .refresh al => wantRefresh al s
  | .clear => { s with added := [], addedAll := false }

/-- The state a run leads to from a table just built. -/
def WantState.runs (ts : List Topic) (es : List WantEvent) : WantState :=
  run WantState.step { topics := ts } es

end Rant.Transport
