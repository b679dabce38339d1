import Rant.Patterns.Defers
/-!
# A definition and its requests

The provider side of `src/patterns/core.c` over the requests of one definition. A request is
handed to the handler as it is received, or parks on the handle's ring and is handed over by
whoever drains it. The handler starts, replies, fails or defers; its return answers what it
left unanswered. A deferred call is answered by `rant_function_complete` or by a drain of the
registry, from any thread, also before the handler is back.

A CANCEL op marks the live defer it finds, and `on_cancel` runs at its receipt or when its own
record is drained. `ok` is what the transport says to a send: whether it was committed.
-/

namespace Rant.Patterns

open Rant.Lib

/-- `RANT_CALL_OK`, `RANT_CALL_APP_ERROR` and `RANT_CALL_NO_HANDLER`. -/
def callOk : UInt8 := 0
def callAppError : UInt8 := 1
def callNoHandler : UInt8 := 2

/-- "handler returned no result". -/
def noResult : List UInt8 := "handler returned no result".toUTF8.toList

/-- Where a received request is. -/
inductive Stage
  /-- Its record is parked. -/
  | waiting
  /-- The handler is out on it. -/
  | running
  | returned
  deriving DecidableEq, Repr

/-- `i_RantRequest`. `lo` is the low word of its sender's uuid, `callerLo` what the lookup at
the handover gave. -/
structure Handed where
  caller : Nat := 0
  lo : Nat := 0
  callerLo : Nat := 0
  callId : Nat := 0
  replied : Bool := false
  started : Bool := false
  stage : Stage := .waiting
  deriving DecidableEq, Repr

/-- One response on the wire. `call` is the request it answers and is ghost. -/
structure Response where
  call : Nat
  dest : Nat
  header : List UInt8
  body : List UInt8
  deriving DecidableEq, Repr

/-- The status byte of the header. -/
def Response.status (r : Response) : UInt8 := r.header.getD 4 0

/-- `i_RantDefer` with its `cancel_notified`. Its `serial` is the request it was made of. -/
structure Deferral extends Defer where
  notified : Bool := false
  deriving DecidableEq

/-- A parked record: a request, or a CANCEL op with the target it names. `named` is whether the
payload names the caller, which else is looked up again; `call` is the deferred call the op
matched at receipt and is ghost. -/
inductive Rec
  | request (k : Nat)
  | cancel (lo callId : Nat) (named : Bool) (call : Nat)
  deriving DecidableEq, Repr

/-- The request of a record. -/
def Rec.request? : Rec → Option Nat
  | .request k => some k
  | .cancel _ _ _ _ => none

/-- A definition: `queued` whether it has a callback queue, `onCancel` whether its cancel
callback is registered. `told` is the calls `on_cancel` ran for, one entry a run. -/
structure Service where
  isTask : Bool
  handler : Bool
  queued : Bool
  onCancel : Bool
  received : Nat := 0
  requests : Nat → Handed := fun _ => {}
  parked : List Rec := []
  defers : List Deferral := []
  responses : List Response := []
  updates : List (List UInt8 × List UInt8) := []
  told : List Nat := []

namespace Service

variable (s : Service)

def setReq (k : Nat) (r : Handed) : Service :=
  { s with requests := fun j => if j = k then r else s.requests j }

/-- `i_rant_func_send_reply`. -/
def sendReply (k caller callId : Nat) (status : UInt8) (message body : List UInt8) (ok : Bool) :
    Service :=
  if ok then
    { s with responses := s.responses ++
        [{ call := k, dest := caller, header := rspHeader callId status message, body := body }] }
  else s

/-- A reply to request `k`. -/
def replyTo (k : Nat) (status : UInt8) (message body : List UInt8) (ok : Bool) : Service :=
  s.sendReply k (s.requests k).caller (s.requests k).callId status message body ok

/-- `i_rant_func_run_request`, up to the handler. With none the answer is at once. -/
def runRequest (k : Nat) (known ok : Bool) : Service :=
  let r := s.requests k
  let r := { r with stage := .running, callerLo := if s.isTask && known then r.lo else 0 }
  if s.handler then s.setReq k r
  else (s.setReq k { r with replied := true, stage := .returned }).replyTo k callNoHandler [] [] ok

/-- `i_rant_func_on_request` for a call. -/
def onRequest (caller lo callId : Nat) (known ok : Bool) : Service :=
  let k := s.received
  let s := { s.setReq k { caller := caller, lo := lo, callId := callId } with received := k + 1 }
  if s.queued then { s with parked := s.parked ++ [.request k] } else s.runRequest k known ok

/-- `i_rant_request_answer`. -/
def answer (k : Nat) (status : UInt8) (message body : List UInt8) (ok : Bool) : Service :=
  if (s.requests k).replied then s
  else (s.setReq k { s.requests k with replied := true }).replyTo k status message body ok

/-- `rant_request_start`. -/
def start (k : Nat) (ok : Bool) : Service :=
  if !s.isTask || (s.requests k).replied then s
  else if (s.requests k).started then s
  else (s.setReq k { s.requests k with started := true }).replyTo k callRunning [] [] ok

/-- `rant_request_defer`. `ptr` is the block it gets, none when there is no memory. -/
def defer (k : Nat) (ptr : Option Nat) (ok : Bool) : Service :=
  if (s.requests k).replied then s
  else
    let s := if s.isTask && !(s.requests k).started then s.start k ok else s
    match ptr with
    | none => s
    | some ptr =>
      let r := s.requests k
      { s.setReq k { r with replied := true } with
        defers := { serial := k, ptr := ptr, caller := r.caller, callerLo := r.callerLo
                    callId := r.callId, cancelled := false } :: s.defers }

/-- The handler is back, and what it left unanswered is answered. -/
def handlerReturn (k : Nat) (ok : Bool) : Service :=
  let r := s.requests k
  let s := s.setReq k { r with stage := .returned }
  if r.replied then s
  else if s.isTask then s.replyTo k callAppError noResult [] ok
  else s.replyTo k callOk [] [] ok

/-- `i_rant_func_defer_find`. -/
def deferFind (token : Nat) : Option Deferral := s.defers.find? (·.ptr == token)

/-- `rant_function_complete`. The status is cut to the byte the header has. -/
def complete (token status : Nat) (message body : List UInt8) (ok : Bool) : Service :=
  if token = 0 then s
  else
    match s.deferFind token with
    | none => s
    | some d =>
      { s with defers := s.defers.eraseP (·.ptr == token) }.sendReply d.serial d.caller d.callId
        (UInt8.ofNat status) message body ok

/-- `rant_function_progress`. -/
def progress (token : Nat) (body : List UInt8) (ok : Bool) : Service :=
  if !s.isTask then s
  else
    match s.deferFind token with
    | none => s
    | some d =>
      if ok then
        { s with updates := s.updates ++ [(writeLe 4 d.callerLo ++ writeLe 4 d.callId, body)] }
      else s

/-- `i_rant_func_drain_defers`: `ok` is what the send for each call comes to. -/
def drainDefers (message : List UInt8) (ok : Nat → Bool) : Service :=
  { s with
    defers := []
    responses := s.responses ++ s.defers.filterMap fun d =>
      if ok d.serial then
        some { call := d.serial, dest := d.caller, body := []
               header := rspHeader d.callId callCancelled message }
      else none }

/-- Whether the defer is the one a CANCEL op is for. -/
def targets (lo callId : Nat) (d : Deferral) : Bool := d.callerLo == lo && d.callId == callId

/-- The first defer of the target, changed. -/
def change (lo callId : Nat) (f : Deferral → Deferral) : List Deferral → List Deferral
  | [] => []
  | d :: l => if targets lo callId d then f d :: l else d :: change lo callId f l

/-- `i_rant_func_cancel_op`: the live defer of the target is marked, once, and `on_cancel` runs
or its record is parked. -/
def cancelOp (lo callId : Nat) (named : Bool) : Service :=
  match s.defers.find? (targets lo callId) with
  | none => s
  | some d =>
    if d.cancelled then s
    else if s.onCancel = false then
      { s with defers := change lo callId (fun d => { d with cancelled := true }) s.defers }
    else if s.queued then
      { s with
        defers := change lo callId (fun d => { d with cancelled := true }) s.defers
        parked := s.parked ++ [.cancel lo callId named d.serial] }
    else
      { s with
        defers := change lo callId (fun d => { d with cancelled := true, notified := true }) s.defers
        told := s.told ++ [d.serial] }

/-- `i_rant_func_run_cancel`, with the target as it is looked up again. -/
def runCancel (lo callId : Nat) : Service :=
  match s.defers.find? (targets lo callId) with
  | none => s
  | some d =>
    if d.notified then s
    else
      { s with
        defers := change lo callId (fun d => { d with notified := true }) s.defers
        told := s.told ++ (if s.onCancel then [d.serial] else []) }

/-- `i_rant_func_dispatch`: the oldest record. `known` is whether the sender still is. -/
def dispatch (known ok : Bool) : Service :=
  match s.parked with
  | [] => s
  | .request k :: rest => { s with parked := rest }.runRequest k known ok
  | .cancel lo callId named _ :: rest =>
    { s with parked := rest }.runCancel (if named || known then lo else 0) callId

end Service

/-- What may happen at a definition, from any thread. A handler verb is one on request `k`. -/
inductive ServiceEvent
  | receive (caller lo callId : Nat) (known ok : Bool)
  | cancelOp (lo callId : Nat) (named : Bool)
  | dispatch (known ok : Bool)
  | start (k : Nat) (ok : Bool)
  | reply (k : Nat) (body : List UInt8) (ok : Bool)
  | fail (k : Nat) (message body : List UInt8) (ok : Bool)
  | defer (k : Nat) (ptr : Option Nat) (ok : Bool)
  | handlerReturn (k : Nat) (ok : Bool)
  | complete (token status : Nat) (message body : List UInt8) (ok : Bool)
  | progress (token : Nat) (body : List UInt8) (ok : Bool)
  | drain (message : List UInt8) (ok : Nat → Bool)

namespace Service

/-- The request a handler verb is called on: it has it until it returns. -/
def during (s : Service) (k : Nat) (s' : Service) : Service :=
  if (s.requests k).stage = .running then s' else s

/-- One event. -/
def step (s : Service) : ServiceEvent → Service
  | .receive caller lo callId known ok => s.onRequest caller lo callId known ok
  | .cancelOp lo callId named => if s.isTask then s.cancelOp lo callId named else s
  | .dispatch known ok => s.dispatch known ok
  | .start k ok => s.during k (s.start k ok)
  | .reply k body ok => s.during k (s.answer k callOk [] body ok)
  | .fail k message body ok => s.during k (s.answer k callAppError message body ok)
  | .defer k ptr ok => s.during k (s.defer k ptr ok)
  | .handlerReturn k ok => s.during k (s.handlerReturn k ok)
  | .complete token status message body ok => s.complete token status message body ok
  | .progress token body ok => s.progress token body ok
  | .drain message ok => s.drainDefers message ok

/-- A definition that has received nothing. -/
def opened (isTask handler queued onCancel : Bool) : Service where
  isTask := isTask
  handler := handler
  queued := queued
  onCancel := onCancel

end Service

end Rant.Patterns
