import Rant.Lib.Run
import Rant.Discovery.Core
/-!
# The discovery handlers

The entry points of `src/discovery/core.c`: a datagram heard, the clock's update, a targeted
send polled and the local calls. `Event` is any one of them and `Core.step` what it does, so
that a run of a core is a list of events in any order, at any clock readings.
-/

namespace Rant.Discovery

open Rant.Lib
open Rant.Transport (Bytes fnv1a64)

namespace Core

/-! ## Setting up -/

/-- `i_rant_discovery_init`. -/
def init (cfg : Config) : Option Core :=
  if cfg.maxPeers = 0 ∨ cfg.interval = 0 ∨ cfg.peerTimeout = 0 ∨ cfg.blob.length > cfg.blobCap then none
  else
    (Records.init cfg.recordReserve cfg.recordBound cfg.hooked).map fun records =>
      { cfg := cfg
        metaCap := cfg.blobCap
        selfBlob := cfg.blob
        selfName := cfg.name.take nodeNameMax
        records := records
        slots := List.replicate cfg.maxPeers (Slot.reset cfg) }

/-! ## A datagram -/

/-- The ONE flag: it holds our blob, or asks and our reply follows. -/
def hearOne (st : Core) (i flags : Nat) : Core :=
  if hasFlag flags flagOne then
    (st.settle i oweMatch).modRec i fun x => { x with askMissed := false }
  else st

/-- The FULL flag: it holds no slot for us, so ours goes back until it does. A datagram marked
ONE without FULL ends that. -/
def hearFull (st : Core) (i flags : Nat) (haveBlob : Bool) (now : Nat) : Core :=
  match st.recAt i with
  | none => st
  | some x =>
    if hasFlag flags flagFull then
      let st := (st.settle i oweMatch).modRec i fun x =>
        { x with full := true, reask := !hasFlag flags flagOne, askMissed := false, want := .no }
      if x.slot.isSome then { st.giveBack i with slotsOpened := true } else st
    else if x.full then
      if hasFlag flags flagOne then
        st.modRec i fun x => { x with full := false, reask := false, refetch := x.refetch || !haveBlob }
      else if x.reask && !x.owed.ask then
        (st.ask i oweMatch now).modRec i fun x => { x with askTries := 1 }
      else st
    else st

/-- The locator kept of the candidate and the incumbent. Only a slot keeps the freshness. -/
def rankedAddr (st : Core) (x : Rec) (addr : Addr) (now : Nat) : Addr :=
  if x.addr.ip.length = 4 ∧ addr.ip.length = 4 ∧ x.addr.ip ≠ addr.ip then
    let rankNew := st.addrRank addr.ip
    let rankOld := st.addrRank x.addr.ip
    let fresh := ((st.slotOf x).map Slot.addrHeard).getD 0
    if rankNew < rankOld ∨ (rankNew = rankOld ∧ fresh ≠ 0 ∧ since now fresh < st.cfg.interval * 2)
    then { addr with ip := x.addr.ip }
    else addr
  else addr

/-- A newer version advertised may fit. -/
def advertise (st : Core) (i version : Nat) : Core :=
  st.modRec i fun x =>
    if version > x.advVersion then { x with advVersion := version, tooBig := false } else x

/-- What is done with the blob, or without one. The answer is that the slot hooks owe a peer up. -/
def hearBlob (st : Core) (env : Env) (i : Nat) (w : Wire) (haveBlob tooBig first : Bool) (now : Nat) :
    Core × Bool :=
  if haveBlob then st.judge env i w.overlay w.version w.flags
  else
    match st.recAt i with
    | none => (st, false)
    | some x =>
      if !st.cfg.admits then
        if x.slot = none && !x.full then
          match st.seat i .yes with
          | (st, some _) => (st, true)
          | (st, none) => (st.refuse i, false)
        else (st, false)
      else if first && !tooBig && w.version ≠ 0 && st.assumeJudged w now then
        (st.modRec i fun x => { x with metaVersion := w.version }, false)
      else if x.waiting && !x.refetch then
        if st.spare ≠ 0 then (st.offer i now, false)
        else if x.want = .yes then (st.refuse i, false)
        else (st, false)
      else (st, false)

/-- The reply a datagram is owed. -/
def oweHeard (st : Core) (i : Nat) (w : Wire) (now : Nat) : Core :=
  match st.recAt i with
  | none => st
  | some x =>
    if hasFlag w.flags flagReq then st.owe i oweReply (st.replyAt x.uuid w.flags now)
    else if hasFlag w.flags flagOne && st.fullFor x then st.owe i oweReply now
    else st

/-- Slot `s` of the record heard: the source is a path of its peer, and only a datagram that
really arrived from the held locator counts as freshness. -/
def heardFrom (st : Core) (s : Nat) (x : Rec) (src : Option Addr) (now : Nat) : Core :=
  match src with
  | none => st
  | some a =>
    let st := st.modSlot s fun slot => slot.notePath a.ip now
    if a.ip.length = 4 && a.ip = x.addr.ip then
      st.modSlot s fun slot => { slot with addrHeard := now }
    else st

/-- The slotted record's end of a datagram: its path, and the peer up it is owed. -/
def hearUp (st : Core) (i : Nat) (src : Option Addr) (addr : Addr) (up : Bool) (now : Nat) : Core :=
  match st.recAt i with
  | none => st
  | some x =>
    match x.slot with
    | none => st
    | some s =>
      let st := st.heardFrom s x src now
      if up then st.note (.up x.localId addr (((st.slots[s]?).map Slot.blob).getD [])) else st

/-- The record that is heard, from its name to `on_peer_seen`. `first` is a first contact. The
answers are the locator, and whether it changed or the record came back. -/
def hearRecord (st : Core) (i : Nat) (w : Wire) (addr : Addr) (haveBlob first : Bool) (now : Nat) :
    Core × Addr × Bool :=
  match (st.takeName i w.name).recAt i with
  | none => (st, addr, false)
  | some x =>
    let revived : Bool := x.state = .dropped
    let st := st.takeName i w.name
    let st := { st with records := st.records.setState i .active }
    let st := st.modRec i fun x =>
      { x with lastHeard := now, uni := if hasFlag w.flags flagUni then now else x.uni }
    let st := (st.hearOne i w.flags).hearFull i w.flags haveBlob now
    let addr := st.rankedAddr (((st.recAt i)).getD x) addr now
    let st := st.modRec i fun x => { x with addr := addr }
    let st := if first || revived then st.note (.seen x.localId addr true) else st
    (st, addr, revived || x.addr ≠ addr)

/-- A datagram of a record, once it is found or made. -/
def hear (st : Core) (env : Env) (i : Nat) (w : Wire) (src : Option Addr) (addr : Addr)
    (haveBlob : Bool) (tooBig : Nat) (first : Bool) (now : Nat) : Core :=
  let (st, addr, upOwed) := st.hearRecord i w addr haveBlob first now
  let st := st.advertise i w.version
  let st := if tooBig ≠ 0 then st.tooBig i addr tooBig else st
  let (st, up) := st.hearBlob env i w haveBlob (tooBig ≠ 0) first now
  let st := (st.fetchCheck i now).oweHeard i w now
  (st.hearUp i src addr (up || upOwed) now).offerOpened now

/-- The record of a uuid that has none: a fresh one, else one taken from another, else none,
with the verdict that asked for one. -/
def meetStranger (st : Core) (env : Env) (w : Wire) (addr : Addr) (haveBlob : Bool) :
    Core × Option Nat × Admit :=
  match (st.evictEndpoint addr).recordTake env w.uuid with
  | (st, some i) => (st, some i, .no)
  | (st, none) =>
    match st.strangerVerdict env w haveBlob with
    | (st, v) =>
      if v = .yes || hasFlag w.flags flagUni then
        match st.recordEvict env w.uuid (v = .yes) with
        | (st, i) => (st, i, v)
      else (st, none, v)

/-- A datagram from another node of this domain and wire. -/
def arrive (st : Core) (env : Env) (w : Wire) (src : Option Addr) (haveBlob : Bool) (tooBig now : Nat) :
    Core :=
  let found := st.records.find w.uuid
  if hasFlag w.flags flagBye then
    let st := st.leftNote w.uuid now
    let st := match found with
      | some i => st.peerGone i     -- a BYE is GONE
      | none => st
    st.offerOpened now
  else if st.leftLately w.uuid now then st     -- sent before its BYE, read after
  else
    let known := found.bind st.recAt
    match (src.map Addr.ip).or (known.map fun x => x.addr.ip) with
    | none => st
    | some ip =>
      let addr : Addr := ⟨ip, w.dataPort⟩
      match found with
      | some i => st.hear env i w src addr haveBlob tooBig false now
      | none =>
        match st.meetStranger env w addr haveBlob with
        | (st, some i, _) => st.hear env i w src addr haveBlob tooBig true now
        | (st, none, v) => st.stranger w addr v now

/-- `i_rant_discovery_on_datagram`. -/
def onDatagram (st : Core) (env : Env) (src : Option Addr) (d : Bytes) (now : Nat) : Core :=
  let st := { st with now := now }
  match decode d with
  | (r, w) =>
    if r = .foreign || w.domain ≠ st.cfg.domain then st
    else if r = .wire then st.wireMismatch src w.wire
    else if r = .malformed || w.uuid = st.cfg.uuid then st
    else
      let blob : Bool := r = .ok && hasFlag w.flags flagBlob
      -- a blob we cannot hold leaves the header, which still counts
      let tooBig := if r = .cut then w.overlayLen
        else if blob && w.overlay.length > st.metaCap then w.overlay.length else 0
      st.arrive env w (sourceOf src) (blob && tooBig = 0) tooBig now

/-! ## The clock -/

/-- The sweep of one record. -/
def sweepAt (now : Nat) (st : Core) (i : Nat) : Core :=
  match st.recAt i with
  | none => st
  | some x =>
    if x.state = .dropped then
      if st.cfg.goneTimeout ≠ 0
          && silentPast now x.lastHeard (st.cfg.peerTimeout + st.cfg.goneTimeout) then
        st.peerGone i
      else st
    else if silentPast now x.lastHeard st.cfg.peerTimeout then
      let st := { st with records := st.records.setState i .dropped }
      let st := ((st.settle i oweAll).refetchDone i).note (.seen x.localId x.addr false)
      if x.slot.isSome then { st.note (.down x.localId .drop) with slotsOpened := true } else st
    else st

/-- `i_rant_discovery_sweep`. -/
def sweep (st : Core) (now : Nat) : Core :=
  (List.range st.records.cap).foldl (sweepAt now) st

/-- `i_rant_discovery_update` before it sends: the sweep and the open slots. -/
def tick (st : Core) (now : Nat) : Core :=
  let sweepUs := Nat.max (st.cfg.interval / sweepsPerInterval) 1
  let st :=
    if now ≥ st.nextSweep then { st with nextSweep := now + sweepUs }.sweep now else st
  st.offerOpened now

/-- `i_rant_discovery_update`, and the datagram it sends. -/
def update (st : Core) (now cap : Nat) : Core × Bytes :=
  let st := { st with now := now }
  if !st.started then
    let ask := st.cfg.observer || st.wantSolicit
    let st := { st with
      started := true
      changed := now     -- our overlay is new to the mesh from here
      nextAnnounce := now + hashBelow (fnv1a64 st.cfg.uuid) st.cfg.interval
      nextSweep := now + Nat.max (st.cfg.interval / sweepsPerInterval) 1
      wantSolicit := false
      selfBlobResend := 0
      openRepeats := openRepeatsMax
      nextRepeat := now + openGapUs }
    (st, st.build (if ask then st.reqFlags else 0) true cap)
  else
    let st := st.tick now
    if st.wantSolicit then
      let st := { st with wantSolicit := false }
      (st, st.build st.reqFlags true cap)
    else if st.openRepeats ≠ 0 && now ≥ st.nextRepeat then
      let st := { st with openRepeats := st.openRepeats - 1, nextRepeat := now + openGapUs }
      (st, st.build 0 true cap)
    else if now ≥ st.nextAnnounce then
      let withBlob : Bool := st.selfBlobResend > 0
      let st := { st with
        selfBlobResend := st.selfBlobResend - 1
        nextAnnounce := now + st.cfg.interval }
      (st, st.build 0 withBlob cap)
    else (st, [])

/-- `i_rant_discovery_next_due_us`. -/
def nextDue (st : Core) : Nat :=
  if !st.started || st.wantSolicit then 0
  else
    let due := if st.nextAnnounce < st.nextSweep then st.nextAnnounce else st.nextSweep
    let due := if st.openRepeats ≠ 0 && st.nextRepeat < due then st.nextRepeat else due
    let due := st.records.due.foldl (fun due i =>
      if (st.recAt i).any fun x => x.due < due then ((st.recAt i).map Rec.due).getD due else due) due
    st.loose.foldl (fun due l => if l.due < due then l.due else due) due

/-! ## Targeted sends -/

/-- The ask of record `i` sent: tried again later, or given up. -/
def askSent (st : Core) (i now : Nat) : Core :=
  match st.recAt i with
  | none => st
  | some x =>
    if !x.owed.ask then st
    else
      let st := st.noteAsk (.sent i now)
      if x.askTries > 1 then
        let st := st.modRec i fun x => { x with askTries := x.askTries - 1 }
        { st with records := st.records.requeue i (now + askRetryUs) }
      else
        let st := (st.modRec i fun x => { x with askMissed := true }).settle i oweAsk
        if x.waiting then st.refetchDone i else st     -- its promised slot goes to the next

/-- `i_rant_discovery_poll_targeted`, and the datagram it sends to where. -/
def pollTargeted (st : Core) (now cap : Nat) : Core × Option (Addr × Bytes) :=
  let st := { st with now := now }
  if !st.started then (st, none)
  else
    match st.loose.findIdx? fun l => l.due ≤ now with
    | some k =>
      let l := st.loose.getD k ⟨{}, false, 0⟩
      -- the last entry takes its place
      let st := { st with loose := (st.loose.set k (st.loose.getLastD l)).dropLast }
      (st, some (l.addr, st.build (if l.full then flagFull else flagOne) true cap))
    | none =>
      match st.records.due.find? fun i => (st.recAt i).any fun x => x.due ≤ now with
      | none => (st, none)
      | some i =>
        match st.recAt i with
        | none => (st, none)
        | some x =>
          let full := if st.fullFor x then flagFull else 0
          let st := (st.settle i oweReply).askSent i now
          (st, some (x.addr,
            st.build ((if x.owed.ask then flagReq ||| flagOne else flagOne) ||| full) true cap))

/-! ## Local calls -/

/-- `i_rant_discovery_set_meta`. -/
def setMeta (st : Core) (blob : Bytes) (now : Nat) : Core :=
  if blob.length > st.metaCap then st
  else { st with
    selfBlob := blob
    selfVersion := (st.selfVersion + 1) % 2 ^ 32
    changed := now
    selfBlobResend := blobResend
    nextAnnounce := 0 }

/-- `i_rant_discovery_set_local_subnets`: an unknown prefix matches everything. -/
def setLocalSubnets (st : Core) (nets : List Subnet) : Core :=
  { st with localNets := (nets.take maxSubnets).filter fun net => net.mask.any fun b => b ≠ 0 }

/-- `i_rant_discovery_solicit`. -/
def solicit (st : Core) : Core := { st with wantSolicit := true }

/-- One slot of `i_rant_discovery_replay_peers`. -/
def replayAt (env : Env) (st : Core) (s : Nat) : Core :=
  match st.slotRec s with
  | none => st
  | some i =>
    match st.recAt i with
    | none => st
    | some x =>
      if x.state ≠ .active then st
      else
        match st.rejudgeAt env i with
        | (st, true) => st
        | (st, false) => st.note (.up x.localId x.addr (((st.slots[s]?).map Slot.blob).getD []))

/-- `i_rant_discovery_replay_peers`. -/
def replayPeers (st : Core) (env : Env) : Core :=
  ((List.range st.slots.length).foldl (replayAt env) st).offerOpened st.now

/-- `i_rant_discovery_rejudge`. -/
def rejudge (st : Core) (env : Env) (id : Nat) : Core :=
  match st.records.byId id with
  | none => st.offerOpened st.now
  | some i => (st.rejudgeAt env i).1.offerOpened st.now

/-- One record of `i_rant_discovery_refetch_unmatched`. -/
def refetchAt (check : Option (Bytes → Bool)) (st : Core) (i : Nat) : Core :=
  match st.recAt i with
  | none => st
  | some x =>
    if x.state ≠ .active || x.slot.isSome || x.want ≠ .no || x.tooBig || x.full then st
    -- judged by assumption, or advertising past the blob judged: nothing says it cannot meet
    else if x.filtered && x.advVersion ≤ x.metaVersion && check.any (fun f => !f x.filter) then st
    else st.offer i st.now

/-- `i_rant_discovery_refetch_unmatched`, with what `maybe` says of a filter. -/
def refetchUnmatched (st : Core) (check : Option (Bytes → Bool)) : Core :=
  (List.range st.records.cap).foldl (refetchAt check) st

/-- One record of `i_rant_discovery_regrown`, whose bound grew. -/
def regrownAt (st : Core) (i : Nat) : Core :=
  if (st.recAt i).any Rec.tooBig then
    (st.modRec i fun x => { x with tooBig := false, refetch := true }).fetchCheck i st.now
  else st

/-- `i_rant_discovery_regrown`. -/
def regrown (st : Core) (oldSlots oldMetaCap : Nat) : Core :=
  let st :=
    if st.metaCap > oldMetaCap then (List.range st.records.cap).foldl regrownAt st else st
  if st.slots.length > oldSlots || st.slotsOpened then st.offerSlots st.now else st

/-- `i_rant_discovery_core_migrate` into memory that is there. -/
def migrate (st : Core) (maxPeers metaCap : Nat) (hlt : metaCap < 2 ^ 16) : Core :=
  if !st.cfg.hooked ∨ maxPeers < st.slots.length then st
  else
    let cfg := { st.cfg with maxPeers := maxPeers, metaCap := metaCap, metaCapLt := hlt }
    { st with
      cfg := cfg
      records := { st.records with max := Nat.max st.records.max maxPeers }
      metaCap := cfg.blobCap
      slots := st.slots ++ List.replicate (maxPeers - st.slots.length) (Slot.reset cfg)
    }.regrown st.slots.length st.metaCap

/-- The slotted records, in the order of the slots. -/
def seatedRecs (st : Core) : List (Slot × Rec) :=
  st.slots.filterMap fun slot => (slot.holder.bind st.recAt).map fun x => (slot, x)

/-- `i_rant_discovery_id_for_addr`. -/
def idForAddr (st : Core) (ip : Bytes) (port : Nat) : Option Nat :=
  if ip.length ≠ 4 ∧ ip.length ≠ 16 then none
  else
    match st.seatedRecs.find? fun p => p.2.addr = ⟨ip, port⟩ with
    | some p => some p.2.localId
    | none =>
      -- else the data port on any recent path: an address two peers share attributes to neither
      match st.seatedRecs.filter fun p =>
          p.2.state = .active && p.2.addr.port = port && st.onPath p.1 ip with
      | [p] => some p.2.localId
      | _ => none

/-- `i_rant_discovery_leave`. -/
def leave (st : Core) (cap : Nat) : Bytes := st.build flagBye false cap

end Core

/-! ## Runs -/

/-- What may happen to a core. -/
inductive Event
  | datagram (env : Env) (src : Option Addr) (d : Bytes) (now : Nat)
  | update (now cap : Nat)
  | pollTargeted (now cap : Nat)
  | setMeta (blob : Bytes) (now : Nat)
  | setLocalSubnets (nets : List Subnet)
  | solicit
  | replayPeers (env : Env)
  | rejudge (env : Env) (id : Nat)
  | refetchUnmatched (check : Option (Bytes → Bool))
  | migrate (maxPeers metaCap : Nat) (hlt : metaCap < 2 ^ 16)
  | leave (cap : Nat)

/-- What an event does, and the datagram it sends. -/
def Core.step (st : Core) : Event → Core × Bytes
  | .datagram env src d now => (st.onDatagram env src d now, [])
  | .update now cap => st.update now cap
  | .pollTargeted now cap =>
    match st.pollTargeted now cap with
    | (st, some (_, d)) => (st, d)
    | (st, none) => (st, [])
  | .setMeta blob now => (st.setMeta blob now, [])
  | .setLocalSubnets nets => (st.setLocalSubnets nets, [])
  | .solicit => (st.solicit, [])
  | .replayPeers env => (st.replayPeers env, [])
  | .rejudge env id => (st.rejudge env id, [])
  | .refetchUnmatched check => (st.refetchUnmatched check, [])
  | .migrate maxPeers metaCap hlt => (st.migrate maxPeers metaCap hlt, [])
  | .leave cap => (st, st.leave cap)

/-- The core a list of events leads to. -/
def Core.runs (st : Core) (es : List Event) : Core := run (fun st e => (st.step e).1) st es

/-! ## What asks come to -/

/-- A fetch that ends: there was none, it is done, or the next may be offered. -/
theorem Core.refetchDone_cases (st : Core) (i : Nat) : st.refetchDone i = st ∨
    st.refetchDone i = st.modRec i (fun x => { x with refetch := false }) ∨
    st.refetchDone i =
      { st.modRec i (fun x => { x with refetch := false }) with slotsOpened := true } := by
  unfold Core.refetchDone
  split
  next => exact Or.inl rfl
  split
  next => exact Or.inl rfl
  dsimp only
  split
  next => exact Or.inr (Or.inr rfl)
  next => exact Or.inr (Or.inl rfl)

/-- An ask of nobody active is none, one that is out is owed anew, and else one begins. -/
theorem Core.ask_cases (st : Core) (i : Nat) (bits : Owed) (now : Nat) : st.ask i bits now = st ∨
    st.ask i bits now = st.owe i bits now ∨
    st.ask i bits now = ((st.modRec i fun x =>
      { x with askTries := if x.askMissed then 1 else askTriesMax }).noteAsk (.began i)).owe i bits now := by
  unfold Core.ask
  split
  next => exact Or.inl rfl
  split
  next => exact Or.inl rfl
  dsimp only
  split
  next => exact Or.inr (Or.inl rfl)
  next => exact Or.inr (Or.inr rfl)

/-- A send leaves tries, or it was the last. -/
theorem Core.askSent_cases (st : Core) (i now : Nat) : st.askSent i now = st ∨
    (∃ st', st' = (st.noteAsk (.sent i now)).modRec i (fun x => { x with askTries := x.askTries - 1 }) ∧
      st.askSent i now = { st' with records := st'.records.requeue i (now + askRetryUs) }) ∨
    ∃ st', st' = ((st.noteAsk (.sent i now)).modRec i fun x => { x with askMissed := true }).settle i oweAsk ∧
      (st.askSent i now = st' ∨ st.askSent i now = st'.refetchDone i) := by
  unfold Core.askSent
  split
  next => exact Or.inl rfl
  split
  next => exact Or.inl rfl
  dsimp only
  split
  next => exact Or.inr (Or.inl ⟨_, rfl, rfl⟩)
  refine Or.inr (Or.inr ⟨_, rfl, ?_⟩)
  split
  next => exact Or.inr rfl
  next => exact Or.inl rfl

end Rant.Discovery
