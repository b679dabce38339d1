import Rant.Common.Clients
import Rant.Lib.Endian
import Rant.Lib.Run
/-!
# Defer tokens

The provider side of `src/patterns/core.c`: a handler defers its reply and gets a token, and
any thread completes, reports progress or reads the cancel flag with it later. The token is the
address of the defer's block, and a verb knows it by looking the address up in the handle's
registry. A call that was answered leaves the registry and its block goes back to the node's
pool, so the next defer may get the same address, and the old token then names its call
(`reused_token`).

A token whose call is over is refused in every state of a run exactly when no defer of the run
is handed the block of such a token (`stale_tokens_refused`).
-/

namespace Rant.Patterns

open Rant.Lib

/-- `RANT_ERR_NO_TOPIC`. -/
def errNoTopic : Int := -1

/-- `RANT_ERR_STATE`. -/
def errState : Int := -5

/-- `RANT_CALL_CANCELLED` and `RANT_CALL_RUNNING`. -/
def callCancelled : UInt8 := 5
def callRunning : UInt8 := 6

/-- `sizeof(i_RantDefer)`, with 8 byte pointers. -/
def deferSize : Nat := 32

/-- `i_rant_func_rsp_hdr`: the call id, the status, and the text cut at `RANT_CALL_MSG_MAX`. -/
def rspHeader (callId : Nat) (status : UInt8) (message : List UInt8) : List UInt8 :=
  let text := message.take 255
  writeLe 4 callId ++ [status, UInt8.ofNat text.length] ++ text

/-- `i_RantDefer` at its address. `serial` numbers the defers and is ghost. -/
structure Defer where
  serial : Nat
  ptr : Nat
  caller : Nat
  callerLo : Nat
  callId : Nat
  cancelled : Bool
  deriving DecidableEq

/-- What a definition's handle has of its deferred calls. -/
structure Definition where
  /-- It was created and is not yet retired. -/
  opened : Bool := false
  isTask : Bool := false
  defers : List Defer := []

/-- A message of a provider: on the response channel to one caller, or on the progress channel
to everyone. `call` is the defer it is about and `token` the defer whose token it was sent
with, both ghost. -/
structure ProviderMsg where
  fn : Nat
  dest : Option Nat
  header : List UInt8
  body : List UInt8
  call : Nat
  token : Option Nat
  deriving DecidableEq

/-- The node's definitions and its pool. The ghosts: `tokens` is the token each defer returned
and `reads` the cancel flags read, as the token used and the call it was of. -/
structure Provider where
  pool : Memory.World
  handles : Nat
  fns : Nat → Definition
  sent : List ProviderMsg
  tokens : List Nat
  reads : List (Nat × Nat)

namespace Provider

variable (s : Provider)

/-- The token of defer `k`. -/
def token (k : Nat) : Nat := s.tokens.getD k 0

/-- The handle `f` with the registry `l`. -/
def setDefers (f : Nat) (l : List Defer) : Provider :=
  { s with fns := fun g => if g = f then { s.fns f with defers := l } else s.fns g }

/-- `i_rant_func_defer_find`. -/
def deferFind (f : Nat) (ptr : Nat) : Option Defer := (s.fns f).defers.find? (·.ptr == ptr)

/-- `rant_request_defer`, and the token. `replied` and `started` are the request's. -/
def requestDefer (f caller callerLo callId : Nat) (replied started : Bool)
    (back : Nat → Option Nat) : Provider × Nat :=
  if !(s.fns f).opened || replied then (s, 0)
  else
    -- a task that defers runs
    let s :=
      if (s.fns f).isTask && !started then
        { s with sent := s.sent ++ [{ fn := f, dest := some caller, body := [], token := none
                                      header := rspHeader callId callRunning []
                                      call := s.tokens.length }] }
      else s
    match s.pool.ask deferSize back with
    | (_, none) => (s, 0)
    | (pool, some ptr) =>
      let d : Defer := { serial := s.tokens.length, ptr := ptr, caller := caller
                         callerLo := callerLo, callId := callId, cancelled := false }
      ({ s.setDefers f (d :: (s.fns f).defers) with
          pool := pool, tokens := s.tokens ++ [ptr] }, ptr)

/-- `rant_function_complete` with the token of defer `k`. `r` is what its send returns. -/
def complete (f k : Nat) (status : UInt8) (message rsp : List UInt8) (r : Int) : Provider × Int :=
  if !(s.fns f).opened || s.token k == 0 then (s, errNoTopic)
  else
    match s.deferFind f (s.token k) with
    | none => (s, errState)                        -- a stale token answers nothing
    | some d =>
      ({ s.setDefers f ((s.fns f).defers.eraseP (·.ptr == s.token k)) with
          pool := s.pool.step (.free d.ptr)
          sent := s.sent ++ [{ fn := f, dest := some d.caller, body := rsp, token := some k
                               header := rspHeader d.callId status message, call := d.serial }] }, r)

/-- `rant_function_progress`. -/
def progress (f k : Nat) (body : List UInt8) (r : Int) : Provider × Int :=
  if !(s.fns f).opened then (s, errNoTopic)
  else if !(s.fns f).isTask then (s, errState)
  else
    match s.deferFind f (s.token k) with
    | none => (s, errState)
    | some d =>
      ({ s with sent := s.sent ++ [{
          fn := f, dest := none, body := body, token := some k
          header := writeLe 4 d.callerLo ++ writeLe 4 d.callId, call := d.serial }] }, r)

/-- `rant_function_cancelled`. -/
def cancelled (f k : Nat) : Provider × Int :=
  if !(s.fns f).opened then (s, errNoTopic)
  else if !(s.fns f).isTask then (s, errState)
  else
    match s.deferFind f (s.token k) with
    | none => (s, errState)
    | some d => ({ s with reads := s.reads ++ [(k, d.serial)] }, if d.cancelled then 1 else 0)

/-- `i_rant_func_cancel_op`: the first live defer of the call is marked. -/
def markCancelled (lo callId : Nat) : List Defer → List Defer
  | [] => []
  | d :: l =>
    if d.callerLo = lo ∧ d.callId = callId then { d with cancelled := true } :: l
    else d :: markCancelled lo callId l

/-- `i_rant_func_drain_defers`. -/
def drainDefers (f : Nat) (message : List UInt8) : Provider :=
  (s.fns f).defers.foldl
    (fun s d =>
      { s with
        sent := s.sent ++ [{ fn := f, dest := some d.caller, body := [], token := none
                             header := rspHeader d.callId callCancelled message
                             call := d.serial }]
        pool := s.pool.step (.free d.ptr) })
    (s.setDefers f [])

/-- `i_rant_func_drain_defers` and the free of the handle, the end of `rant_function_retire`. -/
def retire (f : Nat) (message : List UInt8) : Provider :=
  let s := s.drainDefers f message
  { s with fns := fun g => if g = f then { s.fns f with opened := false } else s.fns g }

end Provider

/-- What may happen. A token verb is given the token that defer `k` returned. -/
inductive ProviderEvent
  | create (isTask : Bool)
  | defer (f caller callerLo callId : Nat) (replied started : Bool) (back : Nat → Option Nat)
  | complete (f k : Nat) (status : UInt8) (message rsp : List UInt8) (r : Int)
  | progress (f k : Nat) (body : List UInt8) (r : Int)
  | cancelled (f k : Nat)
  /-- A CANCEL op of a caller landed. -/
  | cancelOp (f lo callId : Nat)
  /-- A retype or the node's close. -/
  | drain (f : Nat) (message : List UInt8)
  | retire (f : Nat) (message : List UInt8)
  /-- Anyone else of the node asks for memory, grows, frees or writes. -/
  | memory (e : Memory.MemEvent)

namespace Provider

/-- What the rest of the node does with the memory: no size wraps a sum, nobody frees what is not
its own, and the reset comes with the node's end. -/
def MayStep (s : Provider) (e : Memory.MemEvent) : Prop :=
  e.Fits s.pool ∧ e.isReset = false ∧
    ∀ x ∈ e.block, ∀ f < s.handles, (s.deferFind f x).isNone = true

instance (s : Provider) (e : Memory.MemEvent) : Decidable (s.MayStep e) :=
  inferInstanceAs (Decidable (_ ∧ _ ∧ ∀ x ∈ e.block, _))

/-- One event. -/
def step (s : Provider) : ProviderEvent → Provider
  | .create isTask =>
    { s with
      handles := s.handles + 1
      fns := fun g => if g = s.handles then { opened := true, isTask := isTask } else s.fns g }
  | .defer f caller callerLo callId replied started back =>
    (s.requestDefer f caller callerLo callId replied started back).1
  | .complete f k status message rsp r => (s.complete f k status message rsp r).1
  | .progress f k body r => (s.progress f k body r).1
  | .cancelled f k => (s.cancelled f k).1
  | .cancelOp f lo callId => s.setDefers f (markCancelled lo callId (s.fns f).defers)
  | .drain f message => s.drainDefers f message
  | .retire f message => s.retire f message
  | .memory e => if s.MayStep e then { s with pool := s.pool.step e } else s

/-- A node with no definition, over a heap or over one buffer. -/
def init (a : Memory.RantAllocator) : Provider where
  pool := ⟨a, [], []⟩
  handles := 0
  fns := fun _ => {}
  sent := []
  tokens := []
  reads := []

/-! ## The property -/

/-- `d` is a live deferred call of handle `f`. -/
def Live (s : Provider) (f : Nat) (d : Defer) : Prop := d ∈ (s.fns f).defers

/-- `x` is the token of defer `k`, whose call was completed or drained. -/
def Stale (s : Provider) (k x : Nat) : Prop :=
  s.tokens[k]? = some x ∧ ∀ f d, s.Live f d → d.serial ≠ k

/-- Stale tokens are refused. -/
structure TokensOk (s : Provider) : Prop where
  /-- By every token verb on every handle, with nothing changed. -/
  refused : ∀ k x, s.Stale k x → ∀ f, (s.fns f).opened = true →
    (∀ status message rsp r, s.complete f k status message rsp r = (s, errState)) ∧
    (∀ body r, s.progress f k body r = (s, errState)) ∧ s.cancelled f k = (s, errState)
  /-- What was sent with a token is of the token's call. -/
  sent : ∀ m ∈ s.sent, ∀ k, m.token = some k → k = m.call
  /-- So is the cancel flag that was read. -/
  reads : ∀ x ∈ s.reads, x.1 = x.2

/-- A call is deferred and completed, a second one is deferred, and the first is completed
again. -/
def lateCompletion : List ProviderEvent :=
  [.create false, .defer 0 7 0 1 false false fun _ => some 4064, .complete 0 0 0 [] [65] 0,
    .defer 0 8 0 1 false false fun _ => some 8160, .complete 0 0 0 [] [65] 0]

/-- The second caller gets the first one's answer. -/
theorem reused_token : ¬ (run step (init (.init 0 0)) lateCompletion).TokensOk := by
  intro h
  have hmem : { fn := 0, dest := some 8, header := rspHeader 1 0 [], body := [65], call := 1
                token := some 0 : ProviderMsg } ∈ (run step (init (.init 0 0)) lateCompletion).sent := by
    decide +kernel
  have := h.sent _ hmem 0 rfl
  cases this

/-! ## When stale tokens are refused -/

/-- The condition: a defer is not handed the pooled block of a token whose call is over. -/
def Sound (s : Provider) : ProviderEvent → Prop
  | .defer f _ _ _ replied _ _ => (s.fns f).opened = true → replied = false →
      Memory.Fits s.pool.a deferSize → ∀ b, s.pool.a.pick (s.pool.a.capOf deferSize) = some b →
        ∀ k, ¬ s.Stale k (b + Memory.pageHdr)
  | _ => True

/-- The invariant. -/
structure Registry (s : Provider) : Prop where
  pool : s.pool.Ok
  handle : ∀ f, s.handles ≤ f → (s.fns f).opened = false ∧ (s.fns f).defers = []
  out : ∀ f d, s.Live f d → s.pool.Out d.ptr
  nodup : ∀ f, ((s.fns f).defers.map Defer.ptr).Nodup
  sep : ∀ f g d e, s.Live f d → s.Live g e → d.ptr = e.ptr → f = g
  known : ∀ x ∈ s.tokens, s.pool.Known x
  token : ∀ f d, s.Live f d → s.tokens[d.serial]? = some d.ptr
  own : ∀ f d, s.Live f d → ∀ k, s.tokens[k]? = some d.ptr → k = d.serial
  sent : ∀ m ∈ s.sent, ∀ k, m.token = some k → k = m.call
  reads : ∀ x ∈ s.reads, x.1 = x.2

variable {s : Provider}

theorem deferFind_live {f ptr : Nat} {d : Defer} (h : s.deferFind f ptr = some d) :
    s.Live f d ∧ d.ptr = ptr := by
  have heq := List.find?_some h
  exact ⟨List.mem_of_find?_eq_some h, beq_iff_eq.mp heq⟩

theorem token_of {k x : Nat} (h : s.tokens[k]? = some x) : s.token k = x := by
  unfold token
  rw [List.getD_eq_getElem?_getD, h]
  rfl

/-- The token a verb found a call by is that call's. -/
theorem Registry.found (h : s.Registry) {f k : Nat} {d : Defer}
    (hd : s.deferFind f (s.token k) = some d) : k = d.serial := by
  obtain ⟨hlive, hptr⟩ := deferFind_live hd
  refine h.own f d hlive k ?_
  rw [hptr]
  unfold Provider.token
  rw [List.getD_eq_getElem?_getD]
  cases hk : s.tokens[k]? with
  | some x => rfl
  | none =>
    -- no block is at address 0
    exfalso
    have h0 : s.token k = 0 := by
      unfold Provider.token
      rw [List.getD_eq_getElem?_getD, hk]
      rfl
    rw [h0] at hptr
    have hout := h.out f d hlive
    rw [hptr] at hout
    exact Memory.World.not_known_zero (hout.known h.pool)

/-- What the invariant says. -/
theorem Registry.tokensOk (h : s.Registry) : s.TokensOk := by
  refine ⟨fun k x hk f hf => ?_, h.sent, h.reads⟩
  have hnone : s.deferFind f (s.token k) = none := by
    cases hd : s.deferFind f (s.token k) with
    | none => rfl
    | some d => exact absurd (h.found hd).symm (hk.2 f d (deferFind_live hd).1)
  have hne : s.token k ≠ 0 := by
    intro h0
    rw [token_of hk.1] at h0
    have := h.known x (List.mem_of_getElem? hk.1)
    rw [h0] at this
    exact Memory.World.not_known_zero this
  refine ⟨fun status message rsp r => ?_, fun body r => ?_, ?_⟩
  · unfold complete
    rw [hf, hnone, beq_eq_false_iff_ne.mpr hne]
    rfl
  · unfold progress
    rw [hf, hnone, if_neg (by simp)]
    split <;> rfl
  · unfold cancelled
    rw [hf, hnone, if_neg (by simp)]
    split <;> rfl

/-! ### Steps -/

/-- The same registries, and a pool that has every block that was out. -/
theorem Registry.setPool (h : s.Registry) {w : Memory.World} (hw : w.Ok)
    (hknown : ∀ x, s.pool.Known x → w.Known x)
    (hout : ∀ f d, s.Live f d → w.Out d.ptr) : Registry { s with pool := w } :=
  ⟨hw, h.handle, hout, h.nodup, h.sep, fun x hx => hknown x (h.known x hx), h.token, h.own,
    h.sent, h.reads⟩

/-- A message with no token, or of the token's call. -/
theorem Registry.send (h : s.Registry) {m : ProviderMsg} (hm : ∀ k, m.token = some k → k = m.call) :
    Registry { s with sent := s.sent ++ [m] } := by
  refine ⟨h.pool, h.handle, h.out, h.nodup, h.sep, h.known, h.token, h.own, ?_, h.reads⟩
  intro x hx
  rcases List.mem_append.mp hx with hx | hx
  · exact h.sent x hx
  · rw [List.mem_singleton.mp hx]
    exact hm

/-- Fewer calls are live on a handle, or the same ones marked. -/
theorem Registry.setDefers (h : s.Registry) {f : Nat} {l : List Defer}
    (hsub : (l.map Defer.ptr).Sublist ((s.fns f).defers.map Defer.ptr))
    (hl : ∀ d ∈ l, ∃ e, s.Live f e ∧ e.ptr = d.ptr ∧ e.serial = d.serial) :
    Registry (s.setDefers f l) := by
  have hlive : ∀ g d, (s.setDefers f l).Live g d →
      ∃ e, s.Live g e ∧ e.ptr = d.ptr ∧ e.serial = d.serial := by
    intro g d hd
    unfold Live Provider.setDefers at hd
    dsimp only at hd
    split at hd
    next heq =>
      rw [heq]
      exact hl d hd
    next => exact ⟨d, hd, rfl, rfl⟩
  refine ⟨h.pool, fun g hg => ?_, fun g d hd => ?_, fun g => ?_, fun g g' d d' hd hd' hp => ?_,
    h.known, fun g d hd => ?_, fun g d hd k hk => ?_, h.sent, h.reads⟩
  · obtain ⟨hclosed, hnil⟩ := h.handle g hg
    unfold Provider.setDefers
    dsimp only
    split
    next heq =>
      rw [heq] at hclosed hnil
      rw [hnil] at hsub
      exact ⟨hclosed, List.map_eq_nil_iff.mp (List.sublist_nil.mp hsub)⟩
    next => exact ⟨hclosed, hnil⟩
  · obtain ⟨e, he, hp, -⟩ := hlive g d hd
    rw [← hp]
    exact h.out g e he
  · show ((if g = f then _ else s.fns g : Definition).defers.map Defer.ptr).Nodup
    split
    next => exact hsub.nodup (h.nodup f)
    next => exact h.nodup g
  · obtain ⟨e, he, hep, -⟩ := hlive g d hd
    obtain ⟨e', he', hep', -⟩ := hlive g' d' hd'
    exact h.sep g g' e e' he he' (hep.trans (hp.trans hep'.symm))
  · obtain ⟨e, he, hp, hserial⟩ := hlive g d hd
    rw [← hp, ← hserial]
    exact h.token g e he
  · obtain ⟨e, he, hp, hserial⟩ := hlive g d hd
    rw [← hserial]
    refine h.own g e he k ?_
    rw [hp]
    exact hk

/-- A block whose call left the registry is freed. -/
theorem Registry.free (h : s.Registry) {x : Nat} (hx : ∀ f d, s.Live f d → d.ptr ≠ x) :
    Registry { s with pool := s.pool.step (.free x) } := by
  obtain ⟨hok, hknown, hout⟩ := Memory.World.free_spec h.pool x
  exact h.setPool hok (fun y hy => (hknown y).mpr hy) fun f d hd =>
    (hout d.ptr).mpr ⟨h.out f d hd, hx f d hd⟩

theorem Registry.complete (h : s.Registry) (f k : Nat) (status : UInt8) (message rsp : List UInt8)
    (r : Int) : (s.complete f k status message rsp r).1.Registry := by
  unfold Provider.complete
  split
  next => exact h
  split
  next => exact h
  next d hd =>
    obtain ⟨hlive, hptr⟩ := deferFind_live hd
    obtain ⟨l, hl⟩ : ∃ l, l = (s.fns f).defers.eraseP (·.ptr == s.token k) := ⟨_, rfl⟩
    have hsub : l.Sublist (s.fns f).defers := by
      rw [hl]
      exact List.eraseP_sublist
    have hgone : ∀ e ∈ l, e.ptr ≠ d.ptr := by
      intro e he heq
      have hmap : l.map Defer.ptr = ((s.fns f).defers.map Defer.ptr).erase (s.token k) := by
        rw [hl, List.erase_eq_eraseP, List.eraseP_map]
        refine congrArg _ (congrArg (List.eraseP · _) ?_)
        funext x
        exact Bool.beq_comm
      have hmem : s.token k ∈ l.map Defer.ptr := by
        rw [← hptr, ← heq]
        exact List.mem_map_of_mem he
      rw [hmap] at hmem
      exact (h.nodup f).not_mem_erase hmem
    have hset : Registry (s.setDefers f l) :=
      h.setDefers (hsub.map Defer.ptr) fun e he => ⟨e, hsub.subset he, rfl, rfl⟩
    have hfree : Registry { s.setDefers f l with pool := s.pool.step (.free d.ptr) } := by
      refine hset.free fun g e he hep => ?_
      unfold Live Provider.setDefers at he
      dsimp only at he
      split at he
      next => exact hgone e he hep
      next hne => exact hne (h.sep g f e d he hlive hep)
    rw [hl] at hfree
    refine hfree.send fun j hj => ?_
    rw [← Option.some.inj hj]
    exact h.found hd

theorem Registry.progress (h : s.Registry) (f k : Nat) (body : List UInt8) (r : Int) :
    (s.progress f k body r).1.Registry := by
  unfold Provider.progress
  split
  next => exact h
  split
  next => exact h
  split
  next => exact h
  next d hd =>
    refine h.send fun j hj => ?_
    rw [← Option.some.inj hj]
    exact h.found hd

theorem Registry.cancelled (h : s.Registry) (f k : Nat) : (s.cancelled f k).1.Registry := by
  unfold Provider.cancelled
  split
  next => exact h
  split
  next => exact h
  split
  next => exact h
  next d hd =>
    refine ⟨h.pool, h.handle, h.out, h.nodup, h.sep, h.known, h.token, h.own, h.sent, ?_⟩
    intro x hx
    rcases List.mem_append.mp hx with hx | hx
    · exact h.reads x hx
    · rw [List.mem_singleton.mp hx]
      exact h.found hd

theorem markCancelled_same (lo callId : Nat) : ∀ l : List Defer,
    (markCancelled lo callId l).map Defer.ptr = l.map Defer.ptr ∧
      ∀ d ∈ markCancelled lo callId l, ∃ e ∈ l, e.ptr = d.ptr ∧ e.serial = d.serial
  | [] => ⟨rfl, fun d hd => absurd hd List.not_mem_nil⟩
  | d :: l => by
    unfold markCancelled
    split
    next =>
      refine ⟨rfl, fun x hx => ?_⟩
      rcases List.mem_cons.mp hx with rfl | hx
      · exact ⟨d, List.mem_cons_self, rfl, rfl⟩
      · exact ⟨x, List.mem_cons_of_mem d hx, rfl, rfl⟩
    next =>
      obtain ⟨hptr, hall⟩ := markCancelled_same lo callId l
      refine ⟨congrArg (d.ptr :: ·) hptr, fun x hx => ?_⟩
      rcases List.mem_cons.mp hx with rfl | hx
      · exact ⟨x, List.mem_cons_self, rfl, rfl⟩
      · obtain ⟨e, he, hsame⟩ := hall x hx
        exact ⟨e, List.mem_cons_of_mem d he, hsame⟩

theorem Registry.drain (h : s.Registry) (f : Nat) (message : List UInt8) :
    (s.drainDefers f message).Registry ∧ ((s.drainDefers f message).fns f).defers = [] ∧
      (s.drainDefers f message).handles = s.handles := by
  have hset : Registry (s.setDefers f []) :=
    h.setDefers (List.nil_sublist _) fun d hd => absurd hd List.not_mem_nil
  have hgone : ∀ d ∈ (s.fns f).defers, ∀ g e, (s.setDefers f []).Live g e → e.ptr ≠ d.ptr := by
    intro d hd g e he hep
    unfold Live Provider.setDefers at he
    dsimp only at he
    split at he
    next => exact absurd he List.not_mem_nil
    next hne => exact hne (h.sep g f e d he hd hep)
  have hnil : ((s.setDefers f []).fns f).defers = [] := by
    unfold Provider.setDefers
    dsimp only
    rw [if_pos rfl]
  have hhandles : (s.setDefers f []).handles = s.handles := rfl
  unfold drainDefers
  revert hset hgone hnil hhandles
  generalize s.setDefers f [] = s'
  generalize (s.fns f).defers = l
  -- the induction is on the calls left to answer
  induction l generalizing s' with
  | nil => exact fun hset _ hnil hhandles => ⟨hset, hnil, hhandles⟩
  | cons d l ih =>
    intro hset hgone hnil hhandles
    rw [List.foldl_cons]
    refine ih _ ?_ (fun e he => hgone e (List.mem_cons_of_mem d he)) hnil hhandles
    have hfree := hset.free (hgone d List.mem_cons_self)
    exact hfree.send fun k hk => by cases hk

theorem Registry.retire (h : s.Registry) (f : Nat) (message : List UInt8) :
    (s.retire f message).Registry := by
  obtain ⟨hdrain, hnil, -⟩ := h.drain f message
  unfold Provider.retire
  dsimp only
  revert hdrain hnil
  generalize s.drainDefers f message = s'
  intro hdrain hnil
  have hsame : ∀ g, (if g = f then { s'.fns f with opened := false } else s'.fns g).defers =
      (s'.fns g).defers := by
    intro g
    split
    next heq => rw [heq]
    next => rfl
  have hlive : ∀ g d, ({ s' with fns := fun g =>
      if g = f then { s'.fns f with opened := false } else s'.fns g } : Provider).Live g d →
        s'.Live g d := by
    intro g d hd
    unfold Live at hd ⊢
    rw [← hsame g]
    exact hd
  refine ⟨hdrain.pool, fun g hg => ?_, fun g d hd => hdrain.out g d (hlive g d hd), fun g => ?_,
    fun g g' d d' hd hd' => hdrain.sep g g' d d' (hlive g d hd) (hlive g' d' hd'), hdrain.known,
    fun g d hd => hdrain.token g d (hlive g d hd), fun g d hd => hdrain.own g d (hlive g d hd),
    hdrain.sent, hdrain.reads⟩
  · obtain ⟨hclosed, hnone⟩ := hdrain.handle g hg
    refine ⟨?_, (hsame g).trans hnone⟩
    show (if g = f then _ else s'.fns g : Definition).opened = false
    split
    next => rfl
    next => exact hclosed
  · show ((if g = f then _ else s'.fns g : Definition).defers.map Defer.ptr).Nodup
    rw [hsame g]
    exact hdrain.nodup g

/-- What a defer comes to: at most a RUNNING sent, or also a block that was not out, whose
address is its token. -/
theorem Registry.defer_cases (h : s.Registry) (f caller callerLo callId : Nat)
    (replied started : Bool) (back : Nat → Option Nat) {s' : Provider}
    (hs' : s' = (s.requestDefer f caller callerLo callId replied started back).1) :
    (s'.Registry ∧ ((s.fns f).opened = true → replied = false →
      (s.pool.ask deferSize back).2 = none)) ∨
    ∃ (s₁ : Provider) (pool : Memory.World) (x : Nat) (d : Defer), s₁.Registry ∧ s₁.fns = s.fns ∧
      s₁.tokens = s.tokens ∧ s₁.handles = s.handles ∧ (s.fns f).opened = true ∧ replied = false ∧
      s.pool.ask deferSize back = (pool, some x) ∧
      d.serial = s.tokens.length ∧ d.ptr = x ∧
      s' = { s₁.setDefers f (d :: (s.fns f).defers) with
        pool := pool, tokens := s.tokens ++ [x] } := by
  unfold requestDefer at hs'
  split at hs'
  next hno =>
    rw [hs']
    refine Or.inl ⟨h, fun hopen hrep => ?_⟩
    rw [hopen, hrep] at hno
    cases hno
  next hopen =>
    rw [Bool.or_eq_true, not_or, Bool.not_eq_true', Bool.not_eq_false, Bool.not_eq_true] at hopen
    dsimp only at hs'
    -- the RUNNING a task sends first
    obtain ⟨s₁, hs₁, hreg, hfns, htok, hpool, hhandles⟩ : ∃ s₁ : Provider, s₁ =
        (if (s.fns f).isTask && !started then
          { s with sent := s.sent ++ [{ fn := f, dest := some caller, body := [], token := none
                                        header := rspHeader callId callRunning []
                                        call := s.tokens.length }] }
        else s) ∧ s₁.Registry ∧ s₁.fns = s.fns ∧ s₁.tokens = s.tokens ∧ s₁.pool = s.pool ∧
          s₁.handles = s.handles := by
      refine ⟨_, rfl, ?_⟩
      split
      next => exact ⟨h.send fun k hk => (by cases hk), rfl, rfl, rfl, rfl⟩
      next => exact ⟨h, rfl, rfl, rfl, rfl⟩
    rw [← hs₁] at hs'
    rw [hpool] at hs'
    split at hs'
    next hx =>
      rw [hs', hx]
      exact Or.inl ⟨hreg, fun _ _ => rfl⟩
    next pool x hx =>
      let d : Defer := { serial := s.tokens.length, ptr := x, caller := caller
                         callerLo := callerLo, callId := callId, cancelled := false }
      rw [hfns, htok] at hs'
      exact Or.inr ⟨s₁, pool, x, d, hreg, hfns, htok, hhandles, hopen.1, hopen.2, hx, rfl, rfl, hs'⟩

/-- A defer keeps the registry, where no token of a call that is over has its block. -/
theorem Registry.defer (h : s.Registry) (f caller callerLo callId : Nat) (replied started : Bool)
    (back : Nat → Option Nat)
    (hsound : s.Sound (.defer f caller callerLo callId replied started back)) :
    (s.requestDefer f caller callerLo callId replied started back).1.Registry := by
  obtain ⟨s', hs'⟩ : ∃ s', s' =
    (s.requestDefer f caller callerLo callId replied started back).1 := ⟨_, rfl⟩
  rw [← hs']
  rcases h.defer_cases f caller callerLo callId replied started back hs' with
    ⟨hreg, -⟩ | ⟨s₁, pool, x, d, hreg, hfns, htok, hhandles, hopen, hrep, hnew, hserial, hptr, rfl⟩
  · exact hreg
  have hfit : Memory.Fits s.pool.a deferSize := by
    by_contra hno
    unfold Memory.World.ask at hnew
    rw [if_neg hno] at hnew
    cases hnew
  rcases Memory.World.ask_spec h.pool (show 0 < deferSize by decide) back with
    heq | ⟨w', y, heq, hok, hyout, hout, hknown, hpick⟩
  · rw [hnew] at heq
    cases heq
  rw [hnew] at heq
  obtain ⟨rfl, hxy⟩ := Prod.mk.inj heq
  obtain rfl := Option.some.inj hxy
  -- who is live afterwards: the one just deferred, and whoever was
  have hlive : ∀ g e, ({ s₁.setDefers f (d :: (s.fns f).defers) with
      pool := pool, tokens := s.tokens ++ [x] } : Provider).Live g e →
      s.Live g e ∨ g = f ∧ e = d := by
    intro g e he
    unfold Live Provider.setDefers at he
    dsimp only at he
    split at he
    next heq =>
      rcases List.mem_cons.mp he with he | he
      · exact Or.inr ⟨heq, he⟩
      · rw [heq]
        exact Or.inl he
    next =>
      rw [hfns] at he
      exact Or.inl he
  -- the block was free, so no live call has its address
  have hfresh : ∀ g e, s.Live g e → e.ptr ≠ x := by
    intro g e he hep
    have := h.out g e he
    rw [hep] at this
    exact hyout this
  have hat : ∀ k, k < s.tokens.length → (s.tokens ++ [x])[k]? = s.tokens[k]? := fun k hk =>
    List.getElem?_append_left hk
  have hlen : ∀ k y, s.tokens[k]? = some y → k < s.tokens.length := fun k y hk =>
    (List.getElem?_eq_some_iff.mp hk).1
  refine ⟨hok, fun g hg => ?_, fun g e he => ?_, fun g => ?_, fun g g' e e' he he' hp => ?_,
    fun y hy => ?_, fun g e he => ?_, fun g e he k hk => ?_, hreg.sent, hreg.reads⟩
  · have hge : s.handles ≤ g := by
      rw [← hhandles]
      exact hg
    have hgf : g ≠ f := by
      intro heq
      rw [← heq, (h.handle g hge).1] at hopen
      cases hopen
    unfold Provider.setDefers
    dsimp only
    rw [if_neg hgf, hfns]
    exact h.handle g hge
  · rcases hlive g e he with hge | ⟨-, hed⟩
    · exact (hout e.ptr).mpr (Or.inr (h.out g e hge))
    · rw [hed]
      exact (hout d.ptr).mpr (Or.inl hptr)
  · show ((if g = f then _ else s₁.fns g : Definition).defers.map Defer.ptr).Nodup
    split
    next =>
      refine List.nodup_cons.mpr ⟨fun hmem => ?_, h.nodup f⟩
      obtain ⟨e, he, hep⟩ := List.mem_map.mp hmem
      exact hfresh f e he (hep.trans hptr)
    next =>
      rw [hfns]
      exact h.nodup g
  · rcases hlive g e he with hge | ⟨hgf, hed⟩
    · rcases hlive g' e' he' with hge' | ⟨-, hed'⟩
      · exact h.sep g g' e e' hge hge' hp
      · rw [hed', hptr] at hp
        exact absurd hp (hfresh g e hge)
    · rcases hlive g' e' he' with hge' | ⟨hgf', -⟩
      · rw [hed, hptr] at hp
        exact absurd hp.symm (hfresh g' e' hge')
      · exact hgf.trans hgf'.symm
  · rcases List.mem_append.mp hy with hy | hy
    · exact (hknown y).mpr (Or.inr (h.known y hy))
    · exact (hknown y).mpr (Or.inl (List.mem_singleton.mp hy))
  · show (s.tokens ++ [x])[e.serial]? = some e.ptr
    rcases hlive g e he with hge | ⟨-, hed⟩
    · have ht := h.token g e hge
      rw [hat _ (hlen _ _ ht)]
      exact ht
    · rw [hed, hserial, hptr]
      exact List.getElem?_concat_length
  · have hkx : (s.tokens ++ [x])[k]? = some e.ptr := hk
    by_cases hlt : k < s.tokens.length
    · rw [hat k hlt] at hkx
      rcases hlive g e he with hge | ⟨-, hed⟩
      · exact h.own g e hge k hkx
      · -- the address came again: a token of a call that is over, which the condition excludes
        exfalso
        rw [hed, hptr] at hkx
        obtain ⟨b, hb, hbx⟩ := hpick.mp (h.known x (List.mem_of_getElem? hkx))
        refine hsound hopen hrep hfit b hb k ⟨?_, fun g' e' he' hser => ?_⟩
        · rw [hbx]
          exact hkx
        · have ht := h.token g' e' he'
          rw [hser, hkx] at ht
          exact hfresh g' e' he' (Option.some.inj ht).symm
    · have hkl : k = s.tokens.length := by
        have := (List.getElem?_eq_some_iff.mp hkx).1
        rw [List.length_append] at this
        have hone : [x].length = 1 := rfl
        omega
      rw [hkl, List.getElem?_concat_length] at hkx
      rcases hlive g e he with hge | ⟨-, hed⟩
      · exact absurd (Option.some.inj hkx).symm (hfresh g e hge)
      · rw [hkl, hed, hserial]

/-- A defer that gets the block of a call that is over: the old token now names the new one. -/
theorem Registry.defer_miss (h : s.Registry) {f caller callerLo callId : Nat}
    {replied started : Bool} {back : Nat → Option Nat}
    (hno : ¬ s.Sound (.defer f caller callerLo callId replied started back)) :
    ¬ (s.requestDefer f caller callerLo callId replied started back).1.TokensOk := by
  unfold Sound at hno
  dsimp only at hno
  rw [Classical.not_imp, Classical.not_imp, Classical.not_imp, not_forall] at hno
  obtain ⟨hopen, hrep, hfit, b, hno⟩ := hno
  rw [Classical.not_imp, not_forall] at hno
  obtain ⟨hb, k, hno⟩ := hno
  rw [not_not] at hno
  obtain ⟨hk, hover⟩ := hno
  intro hok
  obtain ⟨s', hs'⟩ : ∃ s', s' =
    (s.requestDefer f caller callerLo callId replied started back).1 := ⟨_, rfl⟩
  rw [← hs'] at hok
  have hgot : (s.pool.ask deferSize back).2 = some (b + Memory.pageHdr) := by
    unfold Memory.World.ask Memory.RantAllocator.alloc Memory.RantAllocator.newOwned
    rw [if_pos hfit, if_neg (by decide), hb]
  rcases h.defer_cases f caller callerLo callId replied started back hs' with
    ⟨-, hnone⟩ | ⟨s₁, pool, x, d, -, hfns, -, -, -, -, hnew, hserial, hptr, heq⟩
  · have := hnone hopen hrep
    rw [hgot] at this
    cases this
  rw [hnew] at hgot
  have hx : x = b + Memory.pageHdr := Option.some.inj hgot
  have hlt : k < s.tokens.length := (List.getElem?_eq_some_iff.mp hk).1
  have hfn : (s'.fns f) = { s.fns f with defers := d :: (s.fns f).defers } := by
    rw [heq]
    show (if f = f then { s₁.fns f with defers := d :: (s.fns f).defers } else s₁.fns f) = _
    rw [if_pos rfl, hfns]
  have htok : s'.tokens[k]? = some (b + Memory.pageHdr) := by
    rw [heq]
    show (s.tokens ++ [x])[k]? = some (b + Memory.pageHdr)
    rw [List.getElem?_append_left hlt]
    exact hk
  -- the old call is still over
  have hstale : s'.Stale k (b + Memory.pageHdr) := by
    refine ⟨htok, fun g e he hser => ?_⟩
    unfold Live at he
    by_cases hg : g = f
    · rw [hg, hfn] at he
      rcases List.mem_cons.mp he with rfl | he
      · omega
      · exact hover f e he hser
    · have hother : s'.fns g = s.fns g := by
        rw [heq]
        show (if g = f then _ else s₁.fns g) = _
        rw [if_neg hg, hfns]
      rw [hother] at he
      exact hover g e he hser
  have hopen' : (s'.fns f).opened = true := by
    rw [hfn]
    exact hopen
  have hrefused := ((hok.refused k (b + Memory.pageHdr) hstale f hopen').1 0 [] [] 0)
  -- and yet the token finds the new one
  have hfind : s'.deferFind f (s'.token k) = some d := by
    rw [token_of htok]
    unfold deferFind
    rw [hfn]
    exact List.find?_cons_of_pos (by rw [hptr, hx]; exact beq_self_eq_true _)
  have hne : s'.token k ≠ 0 := by
    rw [token_of htok]
    intro h0
    have := h.known (b + Memory.pageHdr) (List.mem_of_getElem? hk)
    rw [h0] at this
    exact Memory.World.not_known_zero this
  unfold Provider.complete at hrefused
  rw [hopen', hfind, beq_eq_false_iff_ne.mpr hne] at hrefused
  have hcode := congrArg Prod.snd hrefused
  cases hcode

/-- Nobody else's block moves a live call's. -/
theorem Registry.memory (h : s.Registry) (e : Memory.MemEvent) : (s.step (.memory e)).Registry := by
  unfold step
  dsimp only
  split
  next hmay =>
    obtain ⟨hfit, hreset, hnot⟩ := hmay
    obtain ⟨hok, hknown, hout⟩ := Memory.World.step_spec h.pool hfit hreset
    refine h.setPool hok hknown fun f d hd => hout d.ptr (h.out f d hd) fun hblock => ?_
    have hf : f < s.handles := by
      by_contra hge
      unfold Live at hd
      rw [(h.handle f (Nat.le_of_not_lt hge)).2] at hd
      exact absurd hd List.not_mem_nil
    have hnone := hnot d.ptr hblock f hf
    unfold deferFind at hnone
    rw [Option.isNone_iff_eq_none, List.find?_eq_none] at hnone
    exact hnone d hd (beq_self_eq_true _)
  next => exact h

theorem Registry.create (h : s.Registry) (isTask : Bool) :
    (s.step (.create isTask)).Registry := by
  have hdefers : ∀ g, ((s.step (.create isTask)).fns g).defers = (s.fns g).defers := by
    intro g
    show (if g = s.handles then _ else s.fns g : Definition).defers = _
    split
    next heq =>
      rw [heq]
      exact (h.handle s.handles (Nat.le_refl _)).2.symm
    next => rfl
  have hlive : ∀ g d, (s.step (.create isTask)).Live g d → s.Live g d := by
    intro g d hd
    unfold Live at hd ⊢
    rw [← hdefers g]
    exact hd
  refine ⟨h.pool, fun g hg => ?_, fun g d hd => h.out g d (hlive g d hd), fun g => ?_,
    fun g g' d d' hd hd' => h.sep g g' d d' (hlive g d hd) (hlive g' d' hd'), h.known,
    fun g d hd => h.token g d (hlive g d hd), fun g d hd => h.own g d (hlive g d hd), h.sent,
    h.reads⟩
  · have hg : s.handles + 1 ≤ g := hg
    have hne : g ≠ s.handles := by omega
    obtain ⟨hclosed, hnil⟩ := h.handle g (by omega)
    refine ⟨?_, (hdefers g).trans hnil⟩
    show (if g = s.handles then _ else s.fns g : Definition).opened = false
    rw [if_neg hne]
    exact hclosed
  · rw [hdefers g]
    exact h.nodup g

/-- Every event under the condition. -/
theorem Registry.step (h : s.Registry) (e : ProviderEvent) (hsound : s.Sound e) :
    (s.step e).Registry := by
  cases e with
  | create isTask => exact h.create isTask
  | defer f caller callerLo callId replied started back =>
    exact h.defer f caller callerLo callId replied started back hsound
  | complete f k status message rsp r => exact h.complete f k status message rsp r
  | progress f k body r => exact h.progress f k body r
  | cancelled f k => exact h.cancelled f k
  | cancelOp f lo callId =>
    obtain ⟨hptr, hall⟩ := markCancelled_same lo callId (s.fns f).defers
    refine h.setDefers ?_ hall
    rw [hptr]
  | drain f message => exact (h.drain f message).1
  | retire f message => exact h.retire f message
  | memory e => exact h.memory e

theorem Registry.init {a : Memory.RantAllocator} (ha : Memory.Fresh a) : (init a).Registry where
  pool := ha.settled
  handle _ _ := ⟨rfl, rfl⟩
  out _ _ hd := absurd hd List.not_mem_nil
  nodup _ := List.nodup_nil
  sep _ _ _ _ hd := absurd hd List.not_mem_nil
  known _ hx := absurd hx List.not_mem_nil
  token _ _ hd := absurd hd List.not_mem_nil
  own _ _ hd := absurd hd List.not_mem_nil
  sent _ hm := absurd hm List.not_mem_nil
  reads _ hx := absurd hx List.not_mem_nil

/-- Stale tokens are refused in every state of a run exactly when no defer of it is handed the
block of a token whose call is over. -/
theorem stale_tokens_refused (start : { a : Memory.RantAllocator // Memory.Fresh a })
    (es : List ProviderEvent) :
    (∀ fs, fs <+: es → (run Provider.step (init start) fs).TokensOk) ↔
      Along Provider.step Sound (init start) es := by
  have hgood : ∀ s : Provider, s.Registry → s.TokensOk := fun s hs => hs.tokensOk
  have hstep : ∀ (s : Provider) e, s.Registry → s.Sound e → (s.step e).Registry :=
    fun s e hs he => hs.step e he
  refine along_iff_reached hgood hstep ?_ es _ (Registry.init start.2)
  intro s e hs hno
  cases e with
  | defer f caller callerLo callId replied started back => exact hs.defer_miss hno
  | create _ => exact absurd trivial hno
  | complete _ _ _ _ _ _ => exact absurd trivial hno
  | progress _ _ _ _ => exact absurd trivial hno
  | cancelled _ _ => exact absurd trivial hno
  | cancelOp _ _ _ => exact absurd trivial hno
  | drain _ _ => exact absurd trivial hno
  | retire _ _ => exact absurd trivial hno
  | memory _ => exact absurd trivial hno

end Provider

end Rant.Patterns
