import Rant.Discovery.Records
import Rant.Discovery.Wire
/-!
# The discovery core

`src/discovery/core.c`: the state of one core and what its handlers are made of: how a slot
is taken, given back and bound, how an ask is owed, how a blob is judged. `Handlers` has the
entry points.

The hooks of a core and its memory answer as they like: `Env` holds their answers in one
step. What a hook hears goes to `trace`, in order. Three entries of the trace are no hook's:
`added` and `removed` say which records were there, and `taken` which slot a seat found and
what held it then. The asks owed and sent go to `asks`, in order. A slot's consumer scratch
decides nothing here and is left out.
-/

namespace Rant.Discovery

open Rant.Transport (Bytes fnv1a64)

/-! ## Constants -/

def blobResend : Nat := 1
def openRepeatsMax : Nat := 2
def openGapUs : Nat := 300000
def askTriesMax : Nat := 4
def askRetryUs : Nat := 250000
def sweepsPerInterval : Nat := 4
def judgeMarginUs : Nat := 250000
def looseMax : Nat := 8
def leftMax : Nat := 16
def troubleMax : Nat := 16
def maxSubnets : Nat := 16
def filterBytes : Nat := 32

/-! ## The state -/

/-- `i_RantDiscoveryDownReason`. -/
inductive DownReason
  | drop
  | gone
  | giveBack
  deriving Repr, DecidableEq

/-- The errors discovery reports, of `RantErrorKind`. -/
inductive ErrorKind
  | wireVersion
  | peerRefused
  | peerMetaTooBig
  deriving Repr, DecidableEq

/-- What happened, in order. -/
inductive Mark
  /-- `on_peer_seen`. -/
  | seen (id : Nat) (addr : Addr) (up : Bool)
  /-- `on_peer_up`. -/
  | up (id : Nat) (addr : Addr) (blob : Bytes)
  /-- `on_peer_down`. -/
  | down (id : Nat) (reason : DownReason)
  /-- `admit`, of a record or, with id 0, of a source that has none. -/
  | asked (id : Nat) (blob : Bytes) (version : Nat)
  /-- `on_event`. -/
  | error (kind : ErrorKind) (id : Nat) (addr : Addr) (tooBig : Nat)
  /-- A record's blob is judged, by the hook or without one. -/
  | judged (id : Nat) (uuid : Bytes) (version : Nat)
  | added (id : Nat) (uuid : Bytes)
  | removed (id : Nat)
  /-- A slot is taken on a verdict. `held` is the state of the record that held it and whether
  it was a loan. -/
  | taken (slot : Nat) (held : Option (RecState × Bool)) (verdict : Admit)
  deriving Repr, DecidableEq

/-- What happened to the asks of the record at a place, in order. -/
inductive AskMark
  /-- It is owed an ask and was owed none. -/
  | began (i : Nat)
  /-- Work of any kind is owed to it. -/
  | owed (i : Nat)
  /-- Its ask is sent. -/
  | sent (i now : Nat)
  deriving Repr, DecidableEq

/-- `i_RantDiscoveryCoreConfig`. `admits` and `hooked` are that the `admit` and the `alloc`
hook are there. -/
structure Config where
  uuid : Bytes
  uuidLen : uuid.length = 16
  domain : Nat
  domainLt : domain < 2 ^ 16
  dataPort : Nat
  dataPortLt : dataPort < 2 ^ 16
  interval : Nat
  peerTimeout : Nat
  goneTimeout : Nat
  maxPeers : Nat
  maxRecords : Nat
  observer : Bool
  name : Bytes
  blob : Bytes
  metaCap : Nat
  metaCapLt : metaCap < 2 ^ 16
  admits : Bool
  hooked : Bool

/-- `i_RantDiscoverySlot`. `paths` pairs a source of the peer with when it was heard, and a
place that holds none with no bytes. -/
structure Slot where
  holder : Option Nat := none
  blobCap : Nat := 0
  blob : Bytes := []
  loan : Bool := false
  addrHeard : Nat := 0
  paths : List (Bytes × Nat) := List.replicate 4 ([], 0)
  deriving Repr, DecidableEq

/-- `i_RantDiscoveryTrouble`. -/
structure Trouble where
  addr : Addr
  heard : Nat
  value : Nat
  peer : Nat
  kind : ErrorKind
  deriving Repr, DecidableEq

/-- `i_RantDiscoveryLoose`. -/
structure Loose where
  addr : Addr
  full : Bool
  due : Nat
  deriving Repr, DecidableEq

/-- `i_RantDiscoverySubnet`. -/
structure Subnet where
  ip : Bytes
  mask : Bytes
  deriving Repr, DecidableEq

/-- `i_RantDiscoveryState`. `left` pairs each uuid of the ring with when it said BYE. -/
structure Core where
  cfg : Config
  now : Nat := 0
  nextAnnounce : Nat := 0
  nextSweep : Nat := 0
  started : Bool := false
  wantSolicit : Bool := false
  distrust : Bool := false
  slotsOpened : Bool := false
  seatMisses : Nat := 0
  metaCap : Nat
  selfBlob : Bytes
  selfVersion : Nat := 1
  changed : Nat := 0
  selfName : Bytes
  selfBlobResend : Nat := blobResend
  openRepeats : Nat := 0
  nextRepeat : Nat := 0
  localNets : List Subnet := []
  trouble : List Trouble := []
  troubleNew : Bool := false
  troubleMore : ErrorKind → Nat := fun _ => 0
  forgotAt : Nat := 0
  loose : List Loose := []
  left : List (Bytes × Nat) := List.replicate leftMax ([], 0)
  leftNext : Nat := 0
  records : Records
  slots : List Slot
  trace : List Mark := []
  asks : List AskMark := []

/-- The answers of one step: the memory there is, and the admit hook's verdict on a record,
or on a source that has none, with what it left in the filter. -/
structure Env where
  mem : Records.Mem := {}
  answer : Option Nat → Admit × Bytes := fun _ => (.no, [])

/-- `a - b` of two `u64` times. -/
def since (a b : Nat) : Nat := (a + 2 ^ 64 - b) % 2 ^ 64

/-- `i_rant_hash_below`. -/
def hashBelow (h n : Nat) : Nat := h / 2 ^ 32 * n / 2 ^ 32

/-- `i_rant_discovery_record_bound`. -/
def Config.recordBound (cfg : Config) : Nat := Nat.max cfg.maxRecords cfg.maxPeers

/-- `i_rant_discovery_record_reserve`. -/
def Config.recordReserve (cfg : Config) : Nat := if cfg.hooked then cfg.maxPeers else cfg.recordBound

/-- `i_rant_discovery_meta_cap`. -/
def Config.blobCap (cfg : Config) : Nat := if cfg.metaCap ≠ 0 then cfg.metaCap else 64

/-- A slot that `i_rant_discovery_slots_reset` emptied: a pool slot holds a whole blob. -/
def Slot.reset (cfg : Config) : Slot := { blobCap := if cfg.hooked then 0 else cfg.blobCap }

/-- The path `i_rant_discovery_note_path` writes: the first of the oldest. -/
def Slot.oldestPath (slot : Slot) : Nat :=
  (List.range slot.paths.length).foldl (fun at' i =>
    if (slot.paths.getD i ([], 0)).2 < (slot.paths.getD at' ([], 0)).2 then i else at') 0

/-- `i_rant_discovery_note_path`. -/
def Slot.notePath (slot : Slot) (ip : Bytes) (now : Nat) : Slot :=
  let k := (slot.paths.findIdx? fun p => p.1 = ip).getD slot.oldestPath
  { slot with paths := slot.paths.set k (ip, now) }

/-! ## A record alone -/

namespace Rec

/-- `i_rant_discovery_wants_blob`. -/
def wantsBlob (x : Rec) : Bool := (x.metaVersion < x.advVersion && !x.tooBig) || x.refetch

/-- `i_rant_discovery_waiting`. -/
def waiting (x : Rec) : Bool := x.state = .active && x.slot = none && x.want ≠ .no

end Rec

/-- `i_rant_discovery_silent_past`. -/
def silentPast (now heard limit : Nat) : Bool := now > heard && now - heard > limit

/-- The index of the last of the least by `time` among those that meet `p`: where the code
scans with `<=`. -/
def oldest (get : Nat → Option Rec) (p : Rec → Bool) (is : List Nat) : Option (Nat × Nat) :=
  is.foldl (fun best i =>
    match get i with
    | some x =>
      if p x && best.all fun b => x.lastHeard ≤ b.2 then some (i, x.lastHeard) else best
    | none => best) none

namespace Core

/-! ## Reading and writing -/

/-- `i_rant_discovery_rec`. -/
def recAt (st : Core) (i : Nat) : Option Rec := st.records.get i

/-- The record a slot names. -/
def slotRec (st : Core) (s : Nat) : Option Nat := (st.slots[s]?).bind Slot.holder

/-- `i_rant_discovery_slot_of`. -/
def slotOf (st : Core) (x : Rec) : Option Slot := x.slot.bind fun s => st.slots[s]?

def modRec (st : Core) (i : Nat) (f : Rec → Rec) : Core :=
  { st with records := st.records.modify i f }

def modSlot (st : Core) (s : Nat) (f : Slot → Slot) : Core :=
  { st with slots := st.slots.modify s f }

def owe (st : Core) (i : Nat) (bits : Owed) (due : Nat) : Core :=
  { st with records := st.records.owe i bits due, asks := st.asks ++ [.owed i] }

def settle (st : Core) (i : Nat) (bits : Owed) : Core :=
  { st with records := st.records.settle i bits }

/-- One entry of the trace. -/
def note (st : Core) (m : Mark) : Core := { st with trace := st.trace ++ [m] }

/-- One entry of the asks. -/
def noteAsk (st : Core) (m : AskMark) : Core := { st with asks := st.asks ++ [m] }

/-- `i_rant_discovery_on_path`. -/
def onPath (st : Core) (slot : Slot) (ip : Bytes) : Bool :=
  (slot.paths.find? fun p => p.1 = ip).any fun p => since st.now p.2 ≤ st.cfg.interval * 3

/-! ## Slots -/

/-- The hooks of `i_rant_discovery_peer_gone`, which fire while the record is there. -/
def goneHooks (st : Core) (x : Rec) : Core :=
  let st := if x.state = .active then st.note (.seen x.localId x.addr false) else st
  if x.slot.isSome then st.note (.down x.localId .gone) else st

/-- `i_rant_discovery_peer_gone`. -/
def peerGone (st : Core) (i : Nat) : Core :=
  match st.recAt i with
  | none => st
  | some x =>
    let st := st.goneHooks x
    let st :=
      match x.slot with
      | some s => { st.modSlot s fun slot => { slot with holder := none } with slotsOpened := true }
      | none => st
    { st with records := st.records.remove i }.note (.removed x.localId)

/-- `i_rant_discovery_give_back`. -/
def giveBack (st : Core) (i : Nat) : Core :=
  match st.recAt i with
  | none => st
  | some x =>
    match x.slot with
    | none => st
    | some s =>
      let st := (st.settle i oweMatch).note (.down x.localId .giveBack)
      let st := st.modSlot s fun slot => { slot with holder := none }
      st.modRec i fun x => { x with slot := none }

/-- What held a slot, and whether as a loan. -/
def heldBy (st : Core) (s : Nat) : Option (RecState × Bool) :=
  match st.slotRec s with
  | none => none
  | some i => (st.recAt i).map fun x => (x.state, (st.slots[s]?).any Slot.loan)

/-- Whether slot `s` is the live loan `slot_take` may give back. -/
def liveLoan (st : Core) (s : Slot) : Bool :=
  s.loan && (s.holder.bind st.recAt).any fun x => x.state ≠ .dropped

/-- The body of `i_rant_discovery_slot_take`. -/
def slotFind (st : Core) (verdict : Admit) : Core × Option Nat :=
  match st.slots.findIdx? fun s => s.holder = none with
  | some s => (st, some s)
  | none =>
    match oldest st.recAt (fun x => x.state = .dropped) (st.slots.filterMap Slot.holder) with
    | some (victim, _) =>
      let s := (st.recAt victim).bind Rec.slot
      ({ st.peerGone victim with distrust := true }, s)     -- it may still hold us
    | none =>
      match st.slots.findIdx? st.liveLoan with
      | some s =>
        if verdict ≠ .yes then (st, none)
        else
          match st.slotRec s with
          | some victim => ((st.giveBack victim).modRec victim fun x => { x with want := .loan }, some s)
          | none => (st, none)
      | none => (st, none)

/-- `i_rant_discovery_slot_take`, and what the slot it took was. -/
def slotTake (st : Core) (verdict : Admit) : Core × Option Nat :=
  match st.slotFind verdict with
  | (st', some s) => (st'.note (.taken s (st.heldBy s) verdict), some s)
  | (st', none) => (st', none)

/-- `i_rant_discovery_slot_bind`. -/
def slotBind (st : Core) (s i : Nat) : Core :=
  let st := st.modSlot s fun slot => { blobCap := slot.blobCap, holder := some i }
  st.modRec i fun x => { x with slot := some s, metaVersion := 0, want := .no, refetch := false }

/-! ## Records -/

/-- `i_rant_records_add`. -/
def addRecord (st : Core) (env : Env) (uuid : Bytes) : Core × Option Nat :=
  match st.records.add env.mem uuid with
  | (records, some i) => ({ st with records := records }.note (.added st.records.takenId uuid), some i)
  | (records, none) => ({ st with records := records }, none)

/-- `i_rant_discovery_record_take`. -/
def recordTake (st : Core) (env : Env) (uuid : Bytes) : Core × Option Nat :=
  match st.addRecord env uuid with
  | (st, some i) => (st, some i)
  | (st, none) =>
    match oldest st.recAt (fun x => x.state = .dropped) (List.range st.records.cap) with
    | none => (st, none)
    | some (victim, _) => { st.peerGone victim with distrust := true }.addRecord env uuid

/-- `i_rant_discovery_forgot`. -/
def forgot (st : Core) : Core := { st with distrust := true, forgotAt := st.now }

/-- `i_rant_discovery_evict_endpoint`. -/
def evictEndpoint (st : Core) (addr : Addr) : Core :=
  if addr.ip = [] ∨ addr.port = 0 then st
  else (List.range st.records.cap).foldl (fun st i =>
    if (st.recAt i).any fun x => x.addr = addr then st.peerGone i else st) st

/-- `i_rant_discovery_heard_uni`. -/
def heardUni (st : Core) (x : Rec) : Bool :=
  x.uni ≠ 0 && !silentPast st.now x.uni st.cfg.peerTimeout

/-- The victim of `i_rant_discovery_record_evict`, and whether it was heard by UNI. -/
def evictable (st : Core) : Option (Nat × Bool × Nat) :=
  (List.range st.records.cap).foldl (fun best i =>
    match st.recAt i with
    | some x =>
      if x.state ≠ .active || x.slot.isSome || x.want ≠ .no then best
      else
        let uni := st.heardUni x
        if best.any fun b => (uni && !b.2.1) || (uni = b.2.1 && x.lastHeard > b.2.2) then best
        else some (i, uni, x.lastHeard)
    | none => best) none

/-- `i_rant_discovery_record_evict`. -/
def recordEvict (st : Core) (env : Env) (uuid : Bytes) (isMatch : Bool) : Core × Option Nat :=
  match st.evictable with
  | none => (st, none)
  | some (victim, uni, _) =>
    if uni && !isMatch then (st, none)
    else (st.peerGone victim).forgot.addRecord env uuid

/-! ## Datagrams -/

/-- `i_rant_discovery_change_age_ms`. -/
def changeAgeMs (st : Core) : Nat :=
  Nat.min (if st.now > st.changed then (st.now - st.changed) / 1000 else 0) 0xFFFFFFFF

/-- The datagram of `i_rant_discovery_build`. -/
def wireOf (st : Core) (flags : Nat) (withBlob : Bool) : Wire where
  flags := flags ||| (if withBlob then flagBlob else 0)
  domain := st.cfg.domain
  uuid := st.cfg.uuid
  version := st.selfVersion
  changedAgoMs := st.changeAgeMs
  dataPort := st.cfg.dataPort
  name := st.selfName
  overlay := st.selfBlob

/-- `i_rant_discovery_build`. -/
def build (st : Core) (flags : Nat) (withBlob : Bool) (cap : Nat) : Bytes :=
  encode (st.wireOf flags withBlob) cap

/-- `i_rant_discovery_addr_rank`. -/
def addrRank (st : Core) (ip : Bytes) : Nat :=
  if ip.length ≠ 4 then 1
  else if ip.take 2 = [169, 254] then 0
  else if st.localNets.any fun net =>
    (List.range 4).all fun k => (ip.getD k 0 ^^^ net.ip.getD k 0) &&& net.mask.getD k 0 = 0 then 2
  else 1

/-! ## Trouble -/

/-- `i_rant_discovery_trouble_live`. -/
def troubleLive (st : Core) (heard : Nat) : Bool :=
  heard ≠ 0 && since st.now heard ≤ st.cfg.interval * 3

/-- `i_rant_discovery_trouble_note`. The answer is left in `troubleNew`. -/
def troubleNote (st : Core) (kind : ErrorKind) (a : Addr) (value peer : Nat) : Core :=
  match st.trouble.findIdx? fun t => t.kind = kind && t.addr = a with
  | some i =>
    { st with
      trouble := st.trouble.modify i fun t => { t with heard := st.now, value := value, peer := peer }
      troubleNew := false }
  | none =>
    let t : Trouble := ⟨a, st.now, value, peer, kind⟩
    if st.trouble.length < troubleMax then
      { st with trouble := st.trouble ++ [t], troubleNew := true }
    else
      match st.trouble.findIdx? fun t => !st.troubleLive t.heard with
      | some i => { st with trouble := st.trouble.set i t, troubleNew := true }
      | none =>
        { st with
          troubleNew := !st.troubleLive (st.troubleMore kind)
          troubleMore := fun k => if k = kind then st.now else st.troubleMore k }

/-- `i_rant_discovery_trouble_drop`. -/
def troubleDrop (st : Core) (kind : ErrorKind) (a : Addr) : Core :=
  { st with trouble := st.trouble.map fun t =>
      if t.kind = kind && t.addr = a then { t with heard := 0 } else t }

/-- A source of four or sixteen address bytes. -/
def sourceOf (src : Option Addr) : Option Addr :=
  src.filter fun a => a.ip.length = 4 || a.ip.length = 16

/-- `i_rant_discovery_wire_mismatch`. -/
def wireMismatch (st : Core) (src : Option Addr) (version : Nat) : Core :=
  let a := (sourceOf src).getD {}
  let st := st.troubleNote .wireVersion a version 0
  if st.troubleNew then st.note (.error .wireVersion 0 a 0) else st

/-! ## Owed work -/

/-- `i_rant_discovery_refetch_done`. -/
def refetchDone (st : Core) (i : Nat) : Core :=
  match st.recAt i with
  | none => st
  | some x =>
    if !x.refetch then st
    else
      let st := st.modRec i fun x => { x with refetch := false }
      if x.want ≠ .no && x.slot = none then { st with slotsOpened := true } else st

/-- `i_rant_discovery_too_big`. -/
def tooBig (st : Core) (i : Nat) (addr : Addr) (wanted : Nat) : Core :=
  match st.recAt i with
  | none => st
  | some x =>
    let st := st.modRec i fun x => { x with tooBig := true }
    let st := (st.refetchDone i).settle i oweFetch
    (st.troubleNote .peerMetaTooBig addr wanted x.localId).note
      (.error .peerMetaTooBig x.localId addr wanted)

/-- `i_rant_discovery_take_name`. -/
def takeName (st : Core) (i : Nat) (name : Bytes) : Core :=
  st.modRec i fun x => { x with name := name.take nodeNameMax }

/-- `i_rant_discovery_req_flags`. -/
def reqFlags (st : Core) : Nat := flagReq ||| (if st.cfg.observer then flagAll else 0)

/-- `i_rant_discovery_reply_at`. -/
def replyAt (st : Core) (uuid : Bytes) (flags now : Nat) : Nat :=
  if hasFlag flags (flagUni ||| flagAll ||| flagOne) || st.records.live ≤ 1 then now
  else now + hashBelow (fnv1a64 (st.cfg.uuid ++ uuid)) st.records.live * 1000

/-- `i_rant_discovery_ask`. -/
def ask (st : Core) (i : Nat) (bits : Owed) (now : Nat) : Core :=
  match st.recAt i with
  | none => st
  | some x =>
    if x.state ≠ .active then st
    else
      let st :=
        if x.owed.ask then st
        else
          (st.modRec i fun x => { x with askTries := if x.askMissed then 1 else askTriesMax }).noteAsk
            (.began i)
      st.owe i bits now

/-- `i_rant_discovery_fetch_check`. -/
def fetchCheck (st : Core) (i now : Nat) : Core :=
  match st.recAt i with
  | none => st
  | some x =>
    if !x.wantsBlob then st.settle i oweFetch
    else if !x.owed.fetch then st.ask i oweFetch now
    else st

/-- `i_rant_discovery_spare`. -/
def spare (st : Core) : Nat :=
  st.slots.countP (fun s => match s.holder.bind st.recAt with
    | none => true
    | some x => x.state = .dropped) -
  (List.range st.records.cap).countP fun i => (st.recAt i).any fun x => x.waiting && x.refetch

/-- `i_rant_discovery_offer`. -/
def offer (st : Core) (i now : Nat) : Core :=
  (st.modRec i fun x => { x with refetch := true }).fetchCheck i now

/-- The loop of `i_rant_discovery_offer_slots`, with the slots still spare. -/
def offerFrom (now : Nat) : List Nat → Nat → Core → Core
  | i :: is, k + 1, st =>
    if (st.recAt i).any fun x => x.waiting && !(x.refetch || x.askMissed) then
      offerFrom now is k (st.offer i now)
    else offerFrom now is (k + 1) st
  | _, _, st => st

/-- `i_rant_discovery_offer_slots`. -/
def offerSlots (st : Core) (now : Nat) : Core :=
  let st := { st with slotsOpened := false }
  offerFrom now (List.range st.records.cap) st.spare st

/-- The handlers' last line. -/
def offerOpened (st : Core) (now : Nat) : Core :=
  if st.slotsOpened then st.offerSlots now else st

/-- `i_rant_discovery_refuse`. -/
def refuse (st : Core) (i : Nat) : Core :=
  match st.recAt i with
  | none => st
  | some x =>
    let st := { st.modRec i fun x => { x with want := .yes } with
      seatMisses := (st.seatMisses + 1) % 2 ^ 32 }
    (st.troubleNote .peerRefused x.addr st.slots.length x.localId).note
      (.error .peerRefused x.localId x.addr 0)

/-- `i_rant_discovery_full_for`. -/
def fullFor (st : Core) (x : Rec) : Bool :=
  !st.cfg.hooked && x.want = .yes && x.slot = none && !x.refetch

/-! ## Judging -/

/-- `i_rant_discovery_seat`. -/
def seat (st : Core) (i : Nat) (verdict : Admit) : Core × Option Nat :=
  match st.slotTake verdict with
  | (st, none) => (st, none)
  | (st, some s) =>
    let st := (st.slotBind s i).modSlot s fun slot => { slot with loan := verdict = .loan }
    (st.troubleDrop .peerRefused (((st.recAt i).map Rec.addr).getD {}), some s)

/-- `i_rant_discovery_slot_store`. -/
def slotStore (st : Core) (env : Env) (s : Nat) (blob : Bytes) : Core × Bool :=
  match st.slots[s]? with
  | none => (st, false)
  | some slot =>
    if blob.length > slot.blobCap then
      if st.cfg.hooked && env.mem.blob then
        (st.modSlot s fun slot => { slot with blobCap := blob.length, blob := blob }, true)
      else (st, false)
    else (st.modSlot s fun slot => { slot with blob := blob }, true)

/-- `i_rant_discovery_verdict`. -/
def verdict (st : Core) (env : Env) (i : Nat) (blob : Bytes) (version : Nat) : Core × Admit :=
  match st.recAt i with
  | none => (st, .no)
  | some x =>
    let (v, filter) :=
      if st.cfg.admits then env.answer (some i) else (.yes, List.replicate filterBytes 0)
    let st := if st.cfg.admits then st.note (.asked x.localId blob version) else st
    ((st.note (.judged x.localId x.uuid version)).modRec i fun x =>
      { x with filter := filter, filtered := v = .no }, v)

/-- A match that holds slot `s`: the tail of `i_rant_discovery_judge`. `fresh` is that the peer
may not know of it. -/
def kept (st : Core) (i s : Nat) (verdict : Admit) (version flags : Nat) (fresh : Bool) : Core :=
  let st := st.modRec i fun x => { x with metaVersion := version }
  let st := if verdict = .yes then st.modSlot s fun slot => { slot with loan := false } else st
  -- ONE: the sender holds our blob or asks for it. ALL: an observer never assumes
  if verdict = .yes && (fresh || st.cfg.observer) && !hasFlag flags (flagOne ||| flagAll) then
    st.ask i oweMatch st.now
  else st

/-- A record without a slot whose blob was judged a match or a loan. -/
def judgeSeat (st : Core) (env : Env) (i : Nat) (blob : Bytes) (v : Admit) (version flags : Nat) :
    Core × Bool :=
  match st.seat i v with
  | (st, none) =>
    let st := st.modRec i fun x => { x with metaVersion := version }
    if v = .yes then (st.refuse i, false)
    else
      ({ st.modRec i fun x => { x with want := .loan } with
          seatMisses := (st.seatMisses + 1) % 2 ^ 32 }, false)
  | (st, some s) =>
    match st.slotStore env s blob with
    | (st, false) =>
      -- no memory: the version gap fetches it again
      let st := st.modSlot s fun slot => { slot with holder := none }
      ({ st.modRec i fun x => { x with slot := none } with slotsOpened := true }, false)
    | (st, true) => (st.kept i s v version flags true, true)

/-- `i_rant_discovery_judge`. The answer is that the slot hooks owe a peer up. -/
def judge (st : Core) (env : Env) (i : Nat) (blob : Bytes) (version flags : Nat) : Core × Bool :=
  match st.recAt i with
  | none => (st, false)
  | some x =>
    -- a held blob was a match, and the peer may have given us back on a version we missed
    let wasMatch := (st.slotOf x).any (fun s => !s.loan) && x.metaVersion ≠ 0
    let skipped := version > (x.metaVersion + 1) % 2 ^ 32
    if version < x.metaVersion || (x.slot.isSome && version = x.metaVersion) then (st, false)
    else
      let st := (st.refetchDone i).modRec i fun x => { x with tooBig := false }
      let (st, v) := st.verdict env i blob version
      if v = .no then
        let st := st.modRec i fun x => { x with metaVersion := version, want := .no }
        if x.slot.isSome then ({ st.giveBack i with slotsOpened := true }, false) else (st, false)
      else
        match x.slot with
        | none =>
          if x.full then     -- it holds no slot for us, so none for it
            (st.modRec i fun x => { x with metaVersion := version, want := .no }, false)
          else st.judgeSeat env i blob v version flags
        | some s =>
          match st.slotStore env s blob with
          | (st, false) => (st, false)     -- the stale blob stays, the fetch retries
          | (st, true) => (st.kept i s v version flags (!wasMatch || skipped), true)

/-- `i_rant_discovery_rejudge_at`. The answer is that it gave the slot back. -/
def rejudgeAt (st : Core) (env : Env) (i : Nat) : Core × Bool :=
  match st.recAt i with
  | none => (st, false)
  | some x =>
    match x.slot with
    | none => (st, false)
    | some s =>
      match st.verdict env i (((st.slots[s]?).map Slot.blob).getD []) x.metaVersion with
      | (st, .no) => ({ st.giveBack i with slotsOpened := true }, true)
      | (st, v) =>
        if v = .yes && (st.slots[s]?).any Slot.loan then
          ((st.modSlot s fun slot => { slot with loan := false }).ask i oweMatch st.now, false)
        else (st, false)

/-- `i_rant_discovery_assume_judged`. -/
def assumeJudged (st : Core) (w : Wire) (now : Nat) : Bool :=
  let ours := if st.started && now > st.changed then now - st.changed else 0
  st.cfg.admits && !st.cfg.observer && !st.distrust && !hasFlag w.flags flagOne &&
    w.changedAgoMs * 1000 > ours + judgeMarginUs

/-- `i_rant_discovery_stranger_verdict`. -/
def strangerVerdict (st : Core) (env : Env) (w : Wire) (haveBlob : Bool) : Core × Admit :=
  if !st.cfg.admits then (st, .yes)
  else if !haveBlob then (st, .no)
  else (st.note (.asked 0 w.overlay w.version), (env.answer none).1)

/-- `i_rant_discovery_loose_owe`. -/
def looseOwe (st : Core) (a : Addr) (due : Nat) (full : Bool) : Core :=
  match st.loose.findIdx? fun l => l.addr = a with
  | some i =>
    { st with loose := st.loose.modify i fun l => { l with due := Nat.min due l.due, full := full } }
  | none =>
    if st.loose.length ≥ looseMax then st
    else { st with loose := st.loose ++ [⟨a, full, due⟩] }

/-- `i_rant_discovery_left_note`. -/
def leftNote (st : Core) (uuid : Bytes) (now : Nat) : Core :=
  let now := if now = 0 then 1 else now
  match st.left.findIdx? fun l => l.2 ≠ 0 && l.1 = uuid with
  | some i => { st with left := st.left.set i (uuid, now) }
  | none =>
    { st with left := st.left.set st.leftNext (uuid, now), leftNext := (st.leftNext + 1) % leftMax }

/-- `i_rant_discovery_left_lately`. -/
def leftLately (st : Core) (uuid : Bytes) (now : Nat) : Bool :=
  st.left.any fun l => l.2 ≠ 0 && since now l.2 < st.cfg.interval && l.1 = uuid

/-- `i_rant_discovery_stranger`. -/
def stranger (st : Core) (w : Wire) (addr : Addr) (verdict : Admit) (now : Nat) : Core :=
  let isMatch : Bool := verdict = .yes
  let st := st.forgot
  let st :=
    if isMatch then
      (st.troubleNote .peerRefused addr st.slots.length 0).note (.error .peerRefused 0 addr 0)
    else st
  let st :=
    if hasFlag w.flags flagReq || (isMatch && hasFlag w.flags flagOne) then
      st.looseOwe addr (st.replyAt w.uuid w.flags now) isMatch
    else st
  st.offerOpened now

end Core

end Rant.Discovery
