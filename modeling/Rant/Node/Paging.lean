import Rant.Lib.Fragment
import Rant.Lib.Run
import Rant.Transport.DetailCodec
import Rant.Transport.Interest
/-!
# Interest paging

A node whose interest list outgrows its announce says so in the announce, and its peers pull
the list page by page over `uDTL`: the responder and the requester of `src/node/core.c`, with
as much of discovery as holds an announce at a version in a slot. The responder keeps nothing
between two pages. It writes its list down for each and puts the version of the last announce
on it. The requester takes pages of the version it holds, in order, until the list is whole.

Announces, requests and pages stay in flight: each may be lost, come late, come twice, or
overtake another. The topic table may change at any time, and inside an advertise hold the
announce of it waits for the release.
-/

namespace Rant.Node

open Rant.Lib
open Rant.Transport

/-! ## The responder -/

/-- A topic table: slots are numbered by a u16. -/
abbrev TopicTable := { ts : List Topic // ts.length < 2 ^ 16 }

/-- Its interest list. -/
abbrev TopicTable.interest (t : TopicTable) : Bytes := interestEmit t.1

/-- What both nodes were built with: `RANT_DGRAM_MAX`, `RANT__META_BASE`, and their domain. -/
structure PagingCfg where
  domain : Nat
  dgramMax : Nat
  metaBase : Nat
  domain_lt : domain < 2 ^ 16
  dgramMax_gt : interestRespHeadBytes < dgramMax
  dgramMax_lt : dgramMax < 2 ^ 16

/-- `RANT_DISCOVERY_HEAD_MAX`. -/
def discoveryHeadMax : Nat := 69

/-- An announce's overlay: the interest list inline, or a word that it is paged. -/
structure Overlay where
  external : Bool
  interest : Bytes
  deriving DecidableEq

/-- The responder. `announceHold` is `advertise_hold`. -/
structure Responder where
  table : TopicTable
  version : Nat
  overlay : Overlay
  overlayCap : Nat
  announceHold : Nat
  pending : Bool

/-- `i_rant_node_core_build_meta`. `ok` is the allocator's answer: without the room the overlay
stays as it was. -/
def buildMeta (c : PagingCfg) (r : Responder) (ok : Bool) : Responder :=
  let need := c.metaBase + r.table.interest.length
  let external := decide (c.dgramMax < discoveryHeadMax + need)
  let need := if external then c.metaBase else need
  if r.overlayCap < need ∧ !ok then r
  else
    { r with
      overlay := ⟨external, if external then [] else r.table.interest⟩
      overlayCap := max r.overlayCap need }

/-- `i_rant_node_readvertise`, as far as the announce goes. -/
def readvertise (c : PagingCfg) (r : Responder) (ok : Bool) : Responder :=
  let r := buildMeta c r ok
  { r with version := (r.version + 1) % 2 ^ 32 }

/-- The page of a list from an offset on, cut to what a datagram holds. -/
def pageAt (dgramMax : Nat) (blob : Bytes) (offset : Nat) : InterestPage :=
  let offset := min offset blob.length                          -- a header only page at the end
  ⟨blob.length, offset, (blob.drop offset).take (dgramMax - interestRespHeadBytes)⟩

/-- A page's datagram. -/
def pageDgram (c : PagingCfg) (version : Nat) (p : InterestPage) : Bytes :=
  interestRespHead c.domain version p.total p.offset p.chunk.length ++ p.chunk

/-- `i_rant_node_core_interest_respond`. `ok` is whether the scratch holds the list. -/
def interestRespond (c : PagingCfg) (r : Responder) (req : Bytes) (ok : Bool) : Option Bytes :=
  if detailDomain req ≠ c.domain then none
  else
    match interestReqOffset req with
    | none => none
    | some offset =>
      if ok then some (pageDgram c r.version (pageAt c.dgramMax r.table.interest offset)) else none

/-! ## The requester -/

/-- The fields of `i_RantNodePeerExtra` that fetch an external interest. `buf` is
`interest_buf`, as long as `interest_cap`. -/
structure PeerExtra where
  added : Bool := false
  interestDue : Bool := false
  /-- The last version assembled, 0 none. -/
  interestVersion : Nat := 0
  /-- The version the cursor is at, 0 idle. -/
  fetchVersion : Nat := 0
  fetchCursor : Nat := 0
  fetchLen : Nat := 0
  buf : Option Bytes := none

/-- A discovery slot of the peer: the overlay it holds, and the node's scratch. -/
structure PeerSlot where
  overlay : Option Overlay
  extra : PeerExtra

/-- What the requester has of the peer: the version of its record, and a slot maybe. -/
structure Requester where
  version : Nat
  slot : Option PeerSlot

/-- `i_rant_node_core_interest_of`. -/
def interestOf (ex : PeerExtra) (overlay : Option Overlay) (version : Nat) : Option Bytes :=
  match overlay with
  | none => none
  | some o =>
    if !o.external then some o.interest
    else
      match ex.buf with
      | none => none
      | some buf => if ex.interestVersion = version then some (buf.take ex.fetchLen) else none

/-- `i_rant_node_core_interest_check`. -/
def interestCheck (ex : PeerExtra) (overlay : Option Overlay) (version : Nat) : PeerExtra :=
  match overlay with
  | none => ex
  | some o =>
    if !o.external ∨ ex.interestVersion = version then ex else { ex with interestDue := true }

/-- The admit hook's word on a blob. -/
inductive Admit
  | no
  | yes
  | loan
  deriving DecidableEq

/-- `i_rant_discovery_judge` and the up hook behind it. `verdict` is the admit hook's word,
`seated` whether a slot is free, `stored` whether the blob found room. -/
def hear (r : Requester) (version : Nat) (o : Overlay) (verdict : Admit) (seated stored : Bool) :
    Requester :=
  if version < r.version ∨ (r.slot.isSome ∧ version = r.version) then r
  else if verdict = .no then ⟨version, none⟩
  else
    match r.slot with
    | none =>
      if !seated then ⟨version, none⟩
      else if !stored then ⟨0, none⟩
      else ⟨version, some ⟨some o, interestCheck { added := true } (some o) version⟩⟩
    | some s =>
      if !stored then r                                         -- the stale blob stays
      else ⟨version, some ⟨some o, interestCheck { s.extra with added := true } (some o) version⟩⟩

/-- The interest pass of `i_rant_node_core_detail_req_next`. `reached` is whether the peer is
active and its address known. -/
def requestNext (c : PagingCfg) (r : Requester) (reached : Bool) : Requester × Option Bytes :=
  match r.slot with
  | none => (r, none)
  | some s =>
    if !s.extra.interestDue then (r, none)
    else
      let r := { r with slot := some { s with extra := { s.extra with interestDue := false } } }
      match s.overlay with
      | none => (r, none)
      | some o =>
        if !s.extra.added ∨ !reached ∨ !o.external ∨ s.extra.interestVersion = r.version then
          (r, none)
        else
          let offset := if s.extra.fetchVersion = r.version then s.extra.fetchCursor else 0
          (r, some (interestReqBuild c.domain r.version offset))

/-- A copy into the buffer, ghost: where, how much, the length its page names, and the
buffer's. -/
structure PageWrite where
  offset : Nat
  len : Nat
  total : Nat
  cap : Nat
  deriving DecidableEq

/-- What a page comes to: the scratch, the copy it made, and the list it completed. -/
structure Paged where
  extra : PeerExtra
  write : Option PageWrite := none
  done : Option Bytes := none

/-- `i_rant_interest_max` of the largest table. -/
def interestMax : Nat := 2 + 5 * 0xFFFF + 2 + 4 * 0xFFFF + 2 + 3 * 0xFFFF

/-- The fetch a page belongs to: begun again where the version moved or the total drifted. -/
def fetchFor (ex : PeerExtra) (version total : Nat) : PeerExtra :=
  if ex.fetchVersion ≠ version then
    { ex with fetchVersion := version, fetchCursor := 0, fetchLen := total }
  else if total ≠ ex.fetchLen then { ex with fetchCursor := 0, fetchLen := total }
  else ex

/-- The buffer with room for `total` bytes. `fill` is what its new bytes are. -/
def growBuf (buf : Option Bytes) (total : Nat) (fill : UInt8) : Option Bytes :=
  let old := buf.getD []
  if old.length < total then some (old ++ List.replicate (total - old.length) fill) else buf

/-- What follows a page's copy: the next one is asked for, or the list is complete. -/
def pageStored (ex : PeerExtra) (version total : Nat) (write : Option PageWrite) : Paged :=
  if ex.fetchCursor < total then
    ⟨if write.isSome then { ex with interestDue := true } else ex, write, none⟩
  else
    ⟨{ ex with interestVersion := version, fetchVersion := 0 }, write,
      some ((ex.buf.getD []).take total)⟩

/-- A page at the cursor, copied. `grow` is the allocator's answer. -/
def storePage (ex : PeerExtra) (version : Nat) (p : InterestPage) (grow : Bool) (fill : UInt8) :
    Paged :=
  if (ex.buf.getD []).length < p.total ∧ !grow then ⟨ex, none, none⟩
  else
    let ex := { ex with buf := growBuf ex.buf p.total fill }
    if p.chunk = [] then pageStored ex version p.total none
    else
      let buf := ex.buf.getD []
      pageStored
        { ex with
          buf := some (Fragment.writeAt buf p.offset p.chunk)
          fetchCursor := ex.fetchCursor + p.chunk.length }
        version p.total (some ⟨p.offset, p.chunk.length, p.total, buf.length⟩)

/-- `i_rant_node_core_apply_interest_page` behind its lookup of the peer, up to the completed
list. `held` is the version discovery holds. -/
def applyInterestPage (c : PagingCfg) (ex : PeerExtra) (held : Nat) (resp : Bytes) (grow : Bool)
    (fill : UInt8) : Paged :=
  if detailDomain resp ≠ c.domain ∨ !ex.added then ⟨ex, none, none⟩
  else
    match interestRespParse resp with
    | none => ⟨ex, none, none⟩
    | some p =>
      let version := detailMetaVersion resp
      if interestMax < p.total ∨ version ≠ held then ⟨ex, none, none⟩
      else if ex.buf.isSome ∧ ex.interestVersion = version then ⟨ex, none, none⟩   -- a dup page
      else
        let ex := fetchFor ex version p.total
        if p.offset ≠ ex.fetchCursor then ⟨{ ex with interestDue := true }, none, none⟩
        else storePage ex version p grow fill

/-! ## The two together -/

/-- The two nodes and what was ever sent between them. The ghosts: `blobs` is the list of the
table each version advertised, `marks` the versions assembled with their bytes, and `writes`
every copy of a page. -/
structure Paging where
  resp : Responder
  req : Requester
  announces : List (Nat × Overlay)
  asks : List Bytes
  pages : List Bytes
  blobs : Nat → Bytes
  marks : List (Nat × Bytes)
  writes : List PageWrite

/-- What may happen. -/
inductive PagingEvent
  /-- A topic is made, flipped, retyped or retired. -/
  | change (t : TopicTable) (ok : Bool)
  /-- A retype whose reuse found no memory leaves its slot retired and says nothing. -/
  | drift (t : TopicTable)
  | hold
  | release (ok : Bool)
  | announce
  /-- Request `i` is read. -/
  | answer (i : Nat) (ok : Bool)
  /-- Announce `i` is read. -/
  | hear (i : Nat) (verdict : Admit) (seated stored : Bool)
  /-- A first contact is judged by assumption at the version announce `i` names. -/
  | assume (i : Nat)
  /-- A peer met without a blob takes a slot. -/
  | seat
  /-- The slot is given back. -/
  | giveBack
  /-- The peer is forgotten. -/
  | gone
  | ask (reached : Bool)
  /-- The retry sweep. -/
  | rearm
  /-- Page `i` is read. `back` is whether the list it completed gives the slot back. -/
  | page (i : Nat) (grow : Bool) (fill : UInt8) (back : Bool)

namespace Paging

/-- The announce of the table as it is now. -/
def advertise (c : PagingCfg) (s : Paging) (ok : Bool) : Paging :=
  let r := readvertise c s.resp ok
  { s with
    resp := r
    blobs := fun v => if v = r.version then r.table.interest else s.blobs v }

/-- One event. -/
def step (c : PagingCfg) (s : Paging) : PagingEvent → Paging
  | .change t ok =>
    let s := { s with resp := { s.resp with table := t } }
    if 0 < s.resp.announceHold then { s with resp := { s.resp with pending := true } }
    else s.advertise c ok
  | .drift t => { s with resp := { s.resp with table := t } }
  | .hold => { s with resp := { s.resp with announceHold := s.resp.announceHold + 1 } }
  | .release ok =>
    if s.resp.announceHold = 0 then s
    else
      let s := { s with resp := { s.resp with announceHold := s.resp.announceHold - 1 } }
      if s.resp.announceHold = 0 ∧ s.resp.pending then
        ({ s with resp := { s.resp with pending := false } } : Paging).advertise c ok
      else s
  | .announce => { s with announces := s.announces ++ [(s.resp.version, s.resp.overlay)] }
  | .answer i ok =>
    match s.asks[i]? with
    | none => s
    | some req =>
      match interestRespond c s.resp req ok with
      | none => s
      | some d => { s with pages := s.pages ++ [d] }
  | .hear i verdict seated stored =>
    match s.announces[i]? with
    | none => s
    | some (v, o) => { s with req := Node.hear s.req v o verdict seated stored }
  | .assume i =>
    match s.announces[i]? with
    | none => s
    | some (v, _) => if s.req.slot.isNone then { s with req := { s.req with version := v } } else s
  | .seat =>
    if s.req.slot.isNone then
      { s with req := { version := 0, slot := some ⟨none, { added := true }⟩ } }
    else s
  | .giveBack => { s with req := { s.req with slot := none } }
  | .gone => { s with req := ⟨0, none⟩ }
  | .ask reached =>
    let r := requestNext c s.req reached
    { s with req := r.1, asks := s.asks ++ r.2.toList }
  | .rearm =>
    match s.req.slot with
    | none => s
    | some sl =>
      if sl.extra.added then
        { s with req := { s.req with slot := some { sl with
            extra := interestCheck sl.extra sl.overlay s.req.version } } }
      else s
  | .page i grow fill back =>
    match s.pages[i]?, s.req.slot with
    | some d, some sl =>
      let p := applyInterestPage c sl.extra s.req.version d grow fill
      { s with
        req := { s.req with
          slot := if back && p.done.isSome then none else some { sl with extra := p.extra } }
        marks := s.marks ++ p.done.toList.map fun b => (s.req.version, b)
        writes := s.writes ++ p.write.toList }
    | _, _ => s

/-- A responder with no topic yet, and a requester that never heard of it. -/
def init (c : PagingCfg) : Paging :=
  let t : TopicTable := ⟨[], by decide⟩
  let r : Responder := ⟨t, 1, ⟨false, t.interest⟩, c.metaBase + t.interest.length, 0, false⟩
  { resp := r, req := ⟨0, none⟩, announces := [], asks := [], pages := []
    blobs := fun v => if v = 1 then t.interest else [], marks := [], writes := [] }

end Paging

end Rant.Node
