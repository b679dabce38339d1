import Rant.Lib.Run
import Rant.Patterns.Variable
import Rant.Transport.History
import Rant.Transport.Topics
/-!
# A variable's owner and its history

One definition over its life, with its value channel. A plain `rant_variable_set` is three
steps: under the lock it stores, counts the write and takes the prefix (`set`); its observers
run with the lock released, and then it looks whether a later write came in (`observed`); and
after the unlock it sends (`send`). Everything else may happen between them: other threads'
sets, sets from inside the observers, and the remote sets, forces and unforces, which store
and publish under one hold of the lock.

A late accessor gets the newest sample of the channel's history and nothing else, so that
sample has to be the owner's state. `Ends` says so of a state in which no write is under way.
It does not hold: two sets may reach their sends in the other order (`overtaken_write`). It
does where no send comes after a later write's sample, and every publish under the lock
commits (`Ordered`, `history_ends_current`): the newest started write then either has its
sample newest in history, or still is under way.
-/

namespace Rant.Patterns

open Rant.Lib
open Rant.Transport

/-! ## The channel -/

/-- What `i_rant_variable_open` reads of the options. -/
structure VarOpts where
  name : Bytes
  catchUp : Nat
  keepLast : Nat
  allowForce : Bool
  queued : Bool
  schema : Nat
  deriving Repr, DecidableEq

/-- The value channel's definition. The ring must hold what it replays. -/
def VarOpts.valueDef (o : VarOpts) : TopicDef :=
  let catchUp := if o.catchUp ≠ 0 then o.catchUp else 1
  { name := o.name
    qos := {
      reliability := .reliable
      keepLast := if o.keepLast ≠ 0 ∧ o.keepLast < catchUp then catchUp else o.keepLast
      catchUp := catchUp, heartbeatUs := 0, repairDelayUs := 0, maxRateHz := 0
      noTimestamp := false }
    role := .pubOnly, kind := .variable, attrs := if o.allowForce then 4 else 0
    prefixBytes := varPrefix, directed := false }

/-- How the node carries a send: inline, or through a shared memory chunk. -/
inductive Via
  | inline (al : Alloc)
  | shm (desc : { d : Bytes // d.length = shmDescBytes })

/-- `i_rant_topic_send_hdr` on the value channel, up to the commit. -/
def channelSend (frag : Nat) (t : Topic) (header data : Bytes) (sourceUs : Nat) : Via → Send
  | .inline al => writerSend frag t header data 0 sourceUs al .all
  | .shm d => writerSendShm frag t (gather t header data 0 sourceUs) d.1

/-- One published sample: the write it carries, and what went into the channel. -/
structure Shown where
  serial : Nat
  header : Bytes
  data : Bytes
  wire : Bytes
  deriving Repr, DecidableEq

/-- Where a `rant_variable_set` call stands. -/
inductive SetCall
  | idle
  /-- Its observers run. `seq` is `my_seq`. -/
  | notifying (serial seq : Nat) (header value : Bytes)
  /-- Unlocked, about to send. -/
  | ready (serial : Nat) (header value : Bytes)
  deriving Repr, DecidableEq

/-- The owner. `serial` counts the applied writes and is ghost, as is `shown`, every sample
published since the definition, newest first. `failed` is whether a set returned an error. -/
structure Owner where
  v : Variable
  chan : Topic
  sets : Nat → SetCall
  serial : Nat
  shown : List Shown
  failed : Bool

/-- The owner's part of `i_rant_variable_open`, on the slot `t` its channel is bound to. The
count is seeded from the slot's seqno line. -/
def Owner.opened (t : Topic) (o : VarOpts) (changed : Bool) (version : Nat) : Owner where
  v := { isOwner := true, allowForce := o.allowForce, queued := o.queued, curSchema := o.schema
         writeSeq := t.nextSeqno % 2 ^ 32 }
  chan := t.rebind o.valueDef changed version
  sets _ := .idle
  serial := 0
  shown := []
  failed := false

/-! ## The steps -/

/-- What may happen to the owner. -/
inductive OwnerEvent
  /-- Call `w` of `rant_variable_set` under its first lock. -/
  | set (w : Nat) (val : Bytes) (nowUs wallUs : Nat) (ok : Bool)
  /-- Its observers are back. -/
  | observed (w : Nat)
  /-- Its send. -/
  | send (w : Nat) (sourceUs : Nat) (via : Via)
  /-- An op arrived on the set channel. -/
  | remote (m : Msg) (okShadow ok : Bool) (sourceUs : Nat) (via : Via)
  /-- `rant_variable_force` and `rant_variable_unforce` on the owner. -/
  | force (val : Bytes) (nowUs wallUs : Nat) (okShadow ok : Bool) (sourceUs : Nat) (via : Via)
  | unforce (nowUs wallUs : Nat) (ok : Bool) (sourceUs : Nat) (via : Via)
  /-- Observers registered or dropped. -/
  | observe (onWrite onChange : Bool)
  /-- Lanes of the value channel matched or went. -/
  | lanes (matched : Nat)

/-- Call `w` at `x`. -/
def Owner.call (s : Owner) (w : Nat) (x : SetCall) : Owner :=
  { s with sets := fun i => if i = w then x else s.sets i }

/-- A send of the write `serial`: the owner after it, `none` an error code. -/
def Owner.post (frag : Nat) (s : Owner) (serial : Nat) (header data : Bytes) (sourceUs : Nat)
    (via : Via) : Option Owner :=
  match channelSend frag s.chan header data sourceUs via with
  | .committed t =>
    some { s with
      chan := t
      shown := { serial := serial, header := header, data := data
                 wire := gather s.chan header data 0 sourceUs } :: s.shown }
  | .skipped => some s
  | .refused _ => none

/-- A write under one hold of the lock. What its publish comes to is not looked at. -/
def Owner.locked (frag : Nat) (s : Owner) (r : Variable × List Act) (sourceUs : Nat) (via : Via) :
    Owner :=
  match r.2.head? with
  | some (.publish header data) =>
    let s := { s with v := r.1, serial := s.serial + 1 }
    (s.post frag s.serial header data sourceUs via).getD s
  | _ => { s with v := r.1 }

/-- The variable and the acts of a write that is one hold of the lock. -/
def Owner.lockedWrite (s : Owner) : OwnerEvent → Option ((Variable × List Act) × Nat × Via)
  | .remote m okShadow ok sourceUs via => some (s.v.onSet m okShadow ok, sourceUs, via)
  | .force val nowUs wallUs okShadow ok sourceUs via =>
    some (s.v.ownerForce val ⟨0, nowUs, wallUs⟩ okShadow ok, sourceUs, via)
  | .unforce nowUs wallUs ok sourceUs via =>
    -- refused loudly where force is not allowed
    some (if s.v.allowForce then s.v.ownerUnforce ⟨0, nowUs, wallUs⟩ ok else (s.v, []), sourceUs, via)
  | _ => none

/-- One step. -/
def Owner.step (frag : Nat) (s : Owner) (e : OwnerEvent) : Owner :=
  match e with
  | .set w val nowUs wallUs ok =>
    match s.sets w with
    | .idle =>
      let r := s.v.setStart val nowUs wallUs ok
      match r.2 with
      | .absorbed => { s with v := r.1 }
      | .oom => { s with failed := true }
      | .stored seq header _ =>
        { s with v := r.1, serial := s.serial + 1 }.call w
          (.notifying (s.serial + 1) seq header val)
    | _ => s
  | .observed w =>
    match s.sets w with
    | .notifying serial seq header val =>
      s.call w (if s.v.setPublishes seq then .ready serial header val else .idle)
    | _ => s
  | .send w sourceUs via =>
    match s.sets w with
    | .ready serial header val =>
      match s.post frag serial header val sourceUs via with
      | some s' => s'.call w .idle
      | none => { s with failed := true }.call w .idle
    | _ => s
  | .observe onWrite onChange => { s with v := { s.v with onWrite := onWrite, onChange := onChange } }
  | .lanes matched => { s with chan := { s.chan with matchedWriters := matched } }
  | e =>
    match s.lockedWrite e with
    | some (r, sourceUs, via) => s.locked frag r sourceUs via
    | none => s

/-- Whether no set is between its first lock and its return. -/
def Owner.quiet (s : Owner) : Prop := ∀ w, s.sets w = .idle

/-- Once every started write is done without an error, the newest sample of the history is
the owner's state, a joining accessor is sent it, and reads that state out of it. -/
def Ends (s : Owner) : Prop :=
  s.quiet → s.failed = false → 0 < s.serial →
    ∃ x sourceUs, sampleFind s.chan (s.chan.nextSeqno - 1) = some x ∧
      x.bytes = gather s.chan s.v.hdr s.v.store 0 sourceUs ∧
      unicastJoinSeqno s.chan ≤ x.base ∧
      ∀ a m, a.hasValue = false → m.header = s.v.hdr → m.data = s.v.store →
        (Variable.onValue a m true).1.shown = s.v.shown

/-! ## Two sets that cross -/

/-- The first set stores and is unlocked, the second stores and sends, the first sends. -/
def crossedSets : List OwnerEvent :=
  [.set 0 [1] 0 0 true, .observed 0, .set 1 [2] 0 0 true, .observed 1, .send 1 0 (.inline {}),
    .send 0 0 (.inline {})]

/-- A definition with the defaults on a fresh slot. -/
def plainOwner : Owner :=
  Owner.opened .undefined ⟨[97], 0, 0, false, false, 0⟩ false 0

/-- Both sets return `RANT_OK`, the store holds the second value under count 2, and the
newest sample is the first value under count 1. -/
theorem overtaken_write : ¬ Ends (run (Owner.step 1350) plainOwner crossedSets) := by
  intro h
  have hquiet : (run (Owner.step 1350) plainOwner crossedSets).quiet := by
    intro w
    match w with
    | 0 => rfl
    | 1 => rfl
    | _ + 2 => rfl
  obtain ⟨x, sourceUs, hx, hb, -⟩ := h hquiet rfl (by decide)
  -- the newest sample ends in the first value, the owner's state in the second
  have hnewest : ((sampleFind (run (Owner.step 1350) plainOwner crossedSets).chan
      ((run (Owner.step 1350) plainOwner crossedSets).chan.nextSeqno - 1)).map
        WriterSample.bytes).bind List.getLast? = some 1 := by decide +kernel
  rw [hx, Option.map_some, hb] at hnewest
  have hstore : (run (Owner.step 1350) plainOwner crossedSets).v.store = [2] := by decide +kernel
  rw [hstore] at hnewest
  unfold gather at hnewest
  rw [Option.bind_some, List.getLast?_append] at hnewest
  cases hnewest

/-! ## When it does end -/

/-- Whether a publish is neither over the cap nor out of memory. -/
def Fits (frag : Nat) (t : Topic) (header data : Bytes) (sourceUs : Nat) : Via → Prop
  | .inline al =>
    ¬ writerTooBig frag (t.stampBytes 0 + header.length + data.length) ∧
      (storeNeed (gather t header data 0 sourceUs).length ≤ (t.slotAt t.historyHead).buf.length ∨
        al.bufOk = true)
  | .shm _ => ¬ writerTooBig frag (gather t header data 0 sourceUs).length

/-- No send comes after the sample of a later write, and a publish under the lock commits. -/
def Ordered (frag : Nat) (s : Owner) : OwnerEvent → Prop
  | .send w _ _ => ∀ serial header val, s.sets w = .ready serial header val →
      ∀ x, s.shown.head? = some x → x.serial < serial
  | e => ∀ r sourceUs via, s.lockedWrite e = some (r, sourceUs, via) →
      ∀ header data, .publish header data ∈ r.2 → Fits frag s.chan header data sourceUs via

/-- The write a call carries. -/
def SetCall.serial? : SetCall → Option Nat
  | .idle => none
  | .notifying serial _ _ _ => some serial
  | .ready serial _ _ => some serial

/-- What a call holds of its write, as long as no later one came in. -/
def SetCall.Holds (s : Owner) : SetCall → Prop
  | .idle => True
  | .notifying serial seq header val => serial ≤ s.serial ∧
      (serial = s.serial → seq = s.v.writeSeq ∧ header = s.v.hdr ∧ val = s.v.store)
  | .ready serial header val => serial ≤ s.serial ∧
      (serial = s.serial → header = s.v.hdr ∧ val = s.v.store)

/-- A value channel: what every send leaves as it is. -/
structure Channel (frag : Nat) (t : Topic) (shown : List Shown) : Prop where
  history : ∃ S, History frag t S ∧ S.map WriterSample.bytes = (shown.map Shown.wire).reverse
  reliable : t.reliable
  catchUp : 0 < t.qos.catchUp
  role : t.role = .pubOnly
  wire : ∀ x ∈ shown, ∃ sourceUs, x.wire = gather t x.header x.data 0 sourceUs

/-- The invariant. -/
structure OwnerInv (frag : Nat) (s : Owner) : Prop where
  channel : Channel frag s.chan s.shown
  seq_lt : s.v.writeSeq < 2 ^ 32
  shown : ∀ x ∈ s.shown, x.serial ≤ s.serial ∧
    (x.serial = s.serial → x.header = s.v.hdr ∧ x.data = s.v.store)
  calls : ∀ w, (s.sets w).Holds s
  /-- The newest write is newest in history, or its call is under way. -/
  progress : s.failed = false → 0 < s.serial →
    (∃ x, s.shown.head? = some x ∧ x.serial = s.serial) ∨
      ∃ w, (s.sets w).serial? = some s.serial

/-! ### The channel -/

variable {t : Topic}

theorem gather_congr {t' : Topic} (h : t'.qos = t.qos) (header data : Bytes)
    (captureUs sourceUs : Nat) :
    gather t' header data captureUs sourceUs = gather t header data captureUs sourceUs := by
  unfold gather Topic.tsBytes
  rw [h]

variable {sourceUs : Nat} {via : Via}

variable {header data : Bytes}

/-- What a committed send leaves. -/
theorem channelSend_committed {frag : Nat} {t' : Topic} {S : List WriterSample}
    (hF : 0 < frag) (hF' : frag ≤ 65535) (h : History frag t S)
    (hc : channelSend frag t header data sourceUs via = .committed t') :
    t'.qos = t.qos ∧ t'.role = t.role ∧
      ∃ x, History frag t' (S ++ [x]) ∧ x.bytes = gather t header data 0 sourceUs := by
  cases via with
  | inline al =>
    obtain ⟨x, hx, -, hq, -, hwhat⟩ := writerSend_history h hF hF' hc
    obtain ⟨-, ht⟩ := writerSend_committed hc
    exact ⟨hq, by rw [ht]; rfl, x, hx, congrArg Committed.bytes hwhat⟩
  | shm d =>
    obtain ⟨x, hx, -, hq, -, hwhat⟩ := writerSendShm_history h hF hF' d.2 hc
    obtain ⟨-, ht⟩ := writerSendShm_committed hc
    exact ⟨hq, by rw [ht]; rfl, x, hx, congrArg Committed.bytes hwhat⟩

/-- A committed send takes a seqno for each fragment of its sample. -/
theorem channelSend_seqno {frag : Nat} {t' : Topic}
    (hc : channelSend frag t header data sourceUs via = .committed t') :
    t'.nextSeqno = t.nextSeqno + fragCount frag (gather t header data 0 sourceUs).length := by
  cases via with
  | inline al =>
    obtain ⟨-, ht⟩ := writerSend_committed hc
    rw [ht]
    rfl
  | shm d =>
    obtain ⟨-, ht⟩ := writerSendShm_committed hc
    rw [ht]
    rfl

/-- On a value channel no send is skipped: history replays. -/
theorem channelSend_skipped {frag : Nat} (hr : t.reliable)
    (hc : 0 < t.qos.catchUp) :
    channelSend frag t header data sourceUs via ≠ .skipped := by
  cases via with
  | inline al =>
    show writerSend frag t header data 0 sourceUs al .all ≠ .skipped
    unfold writerSend
    split
    next => exact Send.noConfusion
    split
    next => exact Send.noConfusion
    split
    next h => exact absurd ⟨hr, hc⟩ h.2
    split
    next => exact Send.noConfusion
    next => exact Send.noConfusion
  | shm d =>
    show writerSendShm frag t (gather t header data 0 sourceUs) d.1 ≠ .skipped
    unfold writerSendShm
    split
    next => exact Send.noConfusion
    split
    next => exact Send.noConfusion
    next => exact Send.noConfusion

/-- The bytes of a sample without a capture slot. -/
theorem length_gather (t : Topic) (header data : Bytes) (sourceUs : Nat) :
    (gather t header data 0 sourceUs).length = t.stampBytes 0 + header.length + data.length := by
  unfold gather Topic.stampBytes
  rw [List.length_append, List.length_append]
  by_cases hts : t.tsBytes = 0
  · rw [if_pos hts, if_neg fun h => h.1 hts, hts]
    rfl
  rw [if_neg hts, if_pos rfl, if_neg fun h => h.2 rfl]
  unfold Topic.tsBytes at hts ⊢
  split at hts
  next => exact absurd rfl hts
  next hn =>
    rw [if_neg hn]
    rfl

/-- A send that fits commits. -/
theorem channelSend_fits {frag : Nat} (hrole : t.role = .pubOnly)
    (hr : t.reliable) (hc : 0 < t.qos.catchUp) (hf : Fits frag t header data sourceUs via) :
    ∃ t', channelSend frag t header data sourceUs via = .committed t' := by
  have hnorole : ¬ (t.role = .subOnly ∨ t.role = .inactive) := by
    rw [hrole]
    rintro (h | h) <;> cases h
  cases via with
  | inline al =>
    obtain ⟨hbig, hroom⟩ := hf
    have hlen := length_gather t header data sourceUs
    show ∃ t', writerSend frag t header data 0 sourceUs al .all = .committed t'
    unfold writerSend
    rw [if_neg hbig, if_neg hnorole, if_neg fun h => h.2 ⟨hr, hc⟩]
    unfold writerStore
    dsimp only
    rw [if_neg (by rw [hlen]; exact hbig), if_neg ?_]
    · exact ⟨_, rfl⟩
    · rintro ⟨hlt, hal⟩
      rcases hroom with hroom | hroom
      · omega
      · rw [hal] at hroom
        cases hroom
  | shm d =>
    show ∃ t', writerSendShm frag t (gather t header data 0 sourceUs) d.1 = .committed t'
    unfold writerSendShm
    rw [if_neg hf, if_neg hnorole]
    exact ⟨_, rfl⟩

/-- What a send comes to: an error and nothing, or its sample newest in history. -/
theorem post_spec {frag : Nat} (hF : 0 < frag) (hF' : frag ≤ 65535) {s : Owner}
    (h : Channel frag s.chan s.shown) (serial : Nat) (header data : Bytes) (sourceUs : Nat)
    (via : Via) :
    (s.post frag serial header data sourceUs via = none ∧
      ¬ Fits frag s.chan header data sourceUs via) ∨
    ∃ t wire, s.post frag serial header data sourceUs via =
        some { s with chan := t, shown := ⟨serial, header, data, wire⟩ :: s.shown } ∧
      Channel frag t (⟨serial, header, data, wire⟩ :: s.shown) := by
  unfold Owner.post
  cases hsend : channelSend frag s.chan header data sourceUs via with
  | skipped => exact absurd hsend (channelSend_skipped h.reliable h.catchUp)
  | refused e =>
    refine Or.inl ⟨rfl, fun hf => ?_⟩
    obtain ⟨t, ht⟩ := channelSend_fits h.role h.reliable h.catchUp hf
    rw [hsend] at ht
    cases ht
  | committed t =>
    obtain ⟨S, hS, hmap⟩ := h.history
    obtain ⟨hq, hrole, x, hx, hb⟩ := channelSend_committed hF hF' hS hsend
    refine Or.inr ⟨t, gather s.chan header data 0 sourceUs, rfl, ⟨S ++ [x], hx, ?_⟩, ?_, ?_, ?_, ?_⟩
    · rw [List.map_append, hmap, List.map_singleton, hb, List.map_cons, List.reverse_cons]
    · show t.qos.reliability = .reliable
      rw [hq]
      exact h.reliable
    · rw [hq]
      exact h.catchUp
    · rw [hrole]
      exact h.role
    · intro y hy
      rcases List.mem_cons.mp hy with rfl | hy
      · exact ⟨sourceUs, (gather_congr hq header data 0 sourceUs).symm⟩
      · obtain ⟨u, hu⟩ := h.wire y hy
        exact ⟨u, hu.trans (gather_congr hq y.header y.data 0 u).symm⟩

/-! ### The steps -/

variable {frag : Nat} {s : Owner}

variable {x : SetCall}

/-- A call that held its write still holds it when the newest write and the variable stay. -/
theorem SetCall.Holds.same {s' : Owner} (hser : s'.serial = s.serial)
    (hv : s'.v.shown = s.v.shown) (h : x.Holds s) : x.Holds s' := by
  cases x with
  | idle => trivial
  | notifying serial seq header val =>
    obtain ⟨hle, heq⟩ := h
    refine ⟨by rw [hser]; exact hle, fun hs => ?_⟩
    rw [hser] at hs
    rw [Variable.shown_seq hv, Variable.shown_hdr hv, Variable.shown_store hv]
    exact heq hs
  | ready serial header val =>
    obtain ⟨hle, heq⟩ := h
    refine ⟨by rw [hser]; exact hle, fun hs => ?_⟩
    rw [hser] at hs
    rw [Variable.shown_hdr hv, Variable.shown_store hv]
    exact heq hs

/-- After a later write a call holds an older one, and nothing is asked of it. -/
theorem SetCall.Holds.older {s' : Owner} (hser : s'.serial = s.serial + 1)
    (h : x.Holds s) : x.Holds s' := by
  cases x with
  | idle => trivial
  | notifying serial seq header val =>
    have hle := h.1
    exact ⟨by omega, fun hs => by omega⟩
  | ready serial header val =>
    have hle := h.1
    exact ⟨by omega, fun hs => by omega⟩

/-- The variable moved, but not what it shows. -/
theorem OwnerInv.same (h : OwnerInv frag s) {v : Variable} (hv : v.shown = s.v.shown) :
    OwnerInv frag { s with v := v } where
  channel := h.channel
  seq_lt := by
    show v.writeSeq < 2 ^ 32
    rw [Variable.shown_seq hv]
    exact h.seq_lt
  shown x hx := by
    show x.serial ≤ s.serial ∧ (x.serial = s.serial → x.header = v.hdr ∧ x.data = v.store)
    rw [Variable.shown_hdr hv, Variable.shown_store hv]
    exact h.shown x hx
  calls w := by
    have hser : ({ s with v := v } : Owner).serial = s.serial := rfl
    exact SetCall.Holds.same hser hv (h.calls w)
  progress := h.progress

/-- Call `w` moves on with the write it holds, or drops a write that is not the newest. -/
theorem OwnerInv.call (h : OwnerInv frag s) (w : Nat) (hx : x.Holds s)
    (hnew : (s.sets w).serial? = some s.serial → x.serial? = some s.serial) :
    OwnerInv frag (s.call w x) where
  channel := h.channel
  seq_lt := h.seq_lt
  shown := h.shown
  calls i := by
    show (if i = w then x else s.sets i).Holds _
    split
    next => exact SetCall.Holds.same rfl rfl hx
    next => exact SetCall.Holds.same rfl rfl (h.calls i)
  progress hf hpos := by
    rcases h.progress hf hpos with hhead | ⟨u, hu⟩
    · exact Or.inl hhead
    · refine Or.inr ⟨u, ?_⟩
      show (if u = w then x else s.sets u).serial? = some s.serial
      split
      next huw =>
        rw [huw] at hu
        exact hnew hu
      next => exact hu

/-- An error: nothing is promised of the history from here on. -/
theorem OwnerInv.fail (h : OwnerInv frag s) (w : Nat) :
    OwnerInv frag ({ s with failed := true }.call w .idle) where
  channel := h.channel
  seq_lt := h.seq_lt
  shown := h.shown
  calls i := by
    show (if i = w then SetCall.idle else s.sets i).Holds _
    split
    next => trivial
    next => exact SetCall.Holds.same rfl rfl (h.calls i)
  progress hf := Bool.noConfusion hf

/-- A write counted under the lock, its sample not published yet. -/
theorem OwnerInv.counted (h : OwnerInv frag s) {v : Variable} (hseq : v.writeSeq < 2 ^ 32) (w : Nat)
    (hx : x.serial? = some (s.serial + 1))
    (hholds : x.Holds { s with v := v, serial := s.serial + 1 }) :
    OwnerInv frag ({ s with v := v, serial := s.serial + 1 }.call w x) where
  channel := h.channel
  seq_lt := hseq
  shown y hy := by
    obtain ⟨hle, -⟩ := h.shown y hy
    exact ⟨Nat.le_succ_of_le hle, fun heq => absurd heq (by show ¬ y.serial = s.serial + 1; omega)⟩
  calls i := by
    show (if i = w then x else s.sets i).Holds _
    split
    next => exact SetCall.Holds.same rfl rfl hholds
    next => exact SetCall.Holds.older rfl (h.calls i)
  progress _ _ := by
    refine Or.inr ⟨w, ?_⟩
    show (if w = w then x else s.sets w).serial? = some (s.serial + 1)
    rw [if_pos rfl]
    exact hx

/-- A write counted and published under one hold of the lock. -/
theorem OwnerInv.published (h : OwnerInv frag s) {v : Variable} (hseq : v.writeSeq < 2 ^ 32)
    {wire : Bytes}
    (hchan : Channel frag t (⟨s.serial + 1, v.hdr, v.store, wire⟩ :: s.shown)) :
    OwnerInv frag { s with
      v := v, serial := s.serial + 1, chan := t
      shown := ⟨s.serial + 1, v.hdr, v.store, wire⟩ :: s.shown } where
  channel := hchan
  seq_lt := hseq
  shown y hy := by
    rcases List.mem_cons.mp hy with rfl | hy
    · exact ⟨Nat.le_refl _, fun _ => ⟨rfl, rfl⟩⟩
    · obtain ⟨hle, -⟩ := h.shown y hy
      exact ⟨Nat.le_succ_of_le hle, fun heq => absurd heq (by show ¬ y.serial = s.serial + 1; omega)⟩
  calls i := SetCall.Holds.older rfl (h.calls i)
  progress _ _ := Or.inl ⟨_, rfl, rfl⟩

/-- A locked write whose publish fits. -/
theorem locked_inv (hF : 0 < frag) (hF' : frag ≤ 65535) (h : OwnerInv frag s)
    {r : Variable × List Act} (hr : Variable.Locked s.v r) (sourceUs : Nat) (via : Via)
    (hfit : ∀ header data, .publish header data ∈ r.2 →
      Fits frag s.chan header data sourceUs via) : OwnerInv frag (s.locked frag r sourceUs via) := by
  rcases hr with ⟨hseq, rest, hacts⟩ | ⟨hshown, hacts⟩
  · have hfits : Fits frag s.chan r.1.hdr r.1.store sourceUs via := by
      refine hfit _ _ ?_
      rw [hacts]
      exact List.mem_cons_self
    obtain ⟨s1, hs1⟩ : ∃ s1 : Owner, s1 = { s with v := r.1, serial := s.serial + 1 } := ⟨_, rfl⟩
    have hc1 : Channel frag s1.chan s1.shown := by
      rw [hs1]
      exact h.channel
    have hlocked : s.locked frag r sourceUs via =
        (s1.post frag (s.serial + 1) r.1.hdr r.1.store sourceUs via).getD s1 := by
      unfold Owner.locked
      rw [hacts, hs1]
      rfl
    rw [hlocked]
    rcases post_spec hF hF' hc1 (s.serial + 1) r.1.hdr r.1.store sourceUs via with
      ⟨-, hno⟩ | ⟨t, wire, hpost, hchan⟩
    · rw [hs1] at hno
      exact absurd hfits hno
    · rw [hpost, hs1, Option.getD_some]
      rw [hs1] at hchan
      refine h.published ?_ hchan
      rw [hseq]
      exact Variable.bump_lt _
  · have hlocked : s.locked frag r sourceUs via = { s with v := r.1 } := by
      unfold Owner.locked
      rw [hacts]
      rfl
    rw [hlocked]
    exact h.same hshown

theorem lockedWrite_locked {e : OwnerEvent} {r : Variable × List Act}
    (h : s.lockedWrite e = some (r, sourceUs, via)) : Variable.Locked s.v r := by
  cases e with
  | remote m okShadow ok u d =>
    rw [← (Prod.mk.inj (Option.some.inj h)).1]
    exact Variable.onSet_locked _ _ _ _
  | force val nowUs wallUs okShadow ok u d =>
    rw [← (Prod.mk.inj (Option.some.inj h)).1]
    exact Variable.ownerForce_locked _ _ _ _ _
  | unforce nowUs wallUs ok u d =>
    rw [← (Prod.mk.inj (Option.some.inj h)).1]
    split
    next => exact Variable.ownerUnforce_locked _ _ _
    next => exact Or.inr ⟨rfl, rfl⟩
  | set => cases h
  | observed => cases h
  | send => cases h
  | observe => cases h
  | lanes => cases h

/-- One step keeps the invariant, in order. -/
theorem step_owner (hF : 0 < frag) (hF' : frag ≤ 65535) (s : Owner) (e : OwnerEvent)
    (h : OwnerInv frag s) (ho : Ordered frag s e) : OwnerInv frag (s.step frag e) := by
  have hlockedStep : ∀ r sourceUs via, s.lockedWrite e = some (r, sourceUs, via) →
      (∀ header data, .publish header data ∈ r.2 → Fits frag s.chan header data sourceUs via) →
      OwnerInv frag (s.locked frag r sourceUs via) := fun r sourceUs via hl hfit =>
    locked_inv hF hF' h (lockedWrite_locked hl) sourceUs via hfit
  cases e with
  | set w val nowUs wallUs ok =>
    unfold Owner.step
    dsimp only
    split
    next hidle =>
      obtain ⟨r, hr⟩ : ∃ r, r = s.v.setStart val nowUs wallUs ok := ⟨_, rfl⟩
      have hspec := Variable.setStart_spec s.v val nowUs wallUs ok
      rw [← hr] at hspec ⊢
      rcases hspec with ⟨hshown, habs | hoom⟩ | ⟨hseq, hstore, acts, hst⟩
      · rw [habs]
        exact h.same hshown
      · rw [hoom]
        have hfail := h.fail w
        have hsame : ({ s with failed := true } : Owner).call w .idle = { s with failed := true } := by
          unfold Owner.call
          congr 1
          funext i
          split
          next hi => rw [hi, hidle]
          next => rfl
        rw [hsame] at hfail
        exact hfail
      · rw [hst]
        refine h.counted (by rw [hseq]; exact Variable.bump_lt _) w rfl ⟨Nat.le_refl _, fun _ => ?_⟩
        exact ⟨rfl, rfl, hstore.symm⟩
    next => exact h
  | observed w =>
    unfold Owner.step
    dsimp only
    split
    next serial seq header val hw =>
      have hholds := h.calls w
      rw [hw] at hholds
      obtain ⟨hle, hcur⟩ := hholds
      refine h.call w ?_ ?_
      · split
        next => exact ⟨hle, fun hs => (hcur hs).2⟩
        next => trivial
      · rw [hw]
        intro hs
        have hs : serial = s.serial := Option.some.inj hs
        have hpub : s.v.setPublishes seq = true := by
          unfold Variable.setPublishes
          rw [(hcur hs).1, decide_eq_true rfl]
        rw [hpub, if_pos rfl, hs]
        rfl
    next => exact h
  | send w sourceUs via =>
    unfold Owner.step
    dsimp only
    split
    next serial header val hw =>
      have hholds := h.calls w
      rw [hw] at hholds
      obtain ⟨hle, hcur⟩ := hholds
      rcases post_spec hF hF' h.channel serial header val sourceUs via with
        ⟨hpost, -⟩ | ⟨t, wire, hpost, hchan⟩
      · rw [hpost]
        exact h.fail w
      · rw [hpost]
        dsimp only
        -- the sample is newest: no later write's is there, so none is the newest write's
        refine ⟨hchan, h.seq_lt, fun y hy => ?_, fun i => ?_, fun hf hpos => ?_⟩
        · rcases List.mem_cons.mp hy with rfl | hy
          · exact ⟨hle, hcur⟩
          · exact h.shown y hy
        · show (if i = w then SetCall.idle else s.sets i).Holds _
          split
          next => trivial
          next => exact SetCall.Holds.same (s := s) rfl rfl (h.calls i)
        · by_cases hnew : serial = s.serial
          · exact Or.inl ⟨_, rfl, hnew⟩
          · rcases h.progress hf hpos with ⟨x, hx, hxs⟩ | ⟨u, hu⟩
            · have hlt := ho serial header val hw x hx
              omega
            · refine Or.inr ⟨u, ?_⟩
              show (if u = w then SetCall.idle else s.sets u).serial? = some s.serial
              have huw : u ≠ w := by
                intro huw
                rw [huw, hw] at hu
                exact hnew (Option.some.inj hu)
              rw [if_neg huw]
              exact hu
    next => exact h
  | remote m okShadow ok u d => exact hlockedStep _ _ _ rfl (ho _ _ _ rfl)
  | force val nowUs wallUs okShadow ok u d => exact hlockedStep _ _ _ rfl (ho _ _ _ rfl)
  | unforce nowUs wallUs ok u d => exact hlockedStep _ _ _ rfl (ho _ _ _ rfl)
  | observe onWrite onChange =>
    have hshown : ({ s.v with onWrite := onWrite, onChange := onChange } : Variable).shown =
        s.v.shown := rfl
    exact h.same hshown
  | lanes matched =>
    obtain ⟨⟨S, hS, hmap⟩, hr, hc, hrole, hwire⟩ := h.channel
    refine ⟨⟨⟨S, hS.congr rfl rfl rfl rfl rfl rfl, hmap⟩, hr, hc, hrole, hwire⟩, h.seq_lt, h.shown,
      fun w => ?_, h.progress⟩
    exact SetCall.Holds.same (s := s) rfl rfl (h.calls w)

/-- A definition just opened, on any slot. -/
theorem opened_inv (frag : Nat) (t : Topic) (o : VarOpts) (changed : Bool) (version : Nat) :
    OwnerInv frag (Owner.opened t o changed version) where
  channel := by
    have hcatch : 0 < (qosDefaults o.valueDef.qos).catchUp := by
      show 0 < (if o.catchUp ≠ 0 then o.catchUp else 1)
      split <;> omega
    refine ⟨⟨[], ?_, rfl⟩, rfl, hcatch, rfl, fun x hx => absurd hx List.not_mem_nil⟩
    exact history_cleared (qosDefaults_keepLast_pos o.valueDef.qos) rfl rfl rfl
  seq_lt := Nat.mod_lt _ (by decide)
  shown _ hx := absurd hx List.not_mem_nil
  calls _ := trivial
  progress _ hpos := absurd hpos (Nat.lt_irrefl 0)

/-- What the invariant says of a state at rest. -/
theorem OwnerInv.ends (h : OwnerInv frag s) : Ends s := by
  intro hquiet hf hpos
  obtain ⟨⟨S, hS, hmap⟩, hr, hc, -, hwire⟩ := h.channel
  rcases h.progress hf hpos with ⟨x, hx, hser⟩ | ⟨w, hw⟩
  · have hmem : x ∈ s.shown := List.mem_of_head? hx
    obtain ⟨hheader, hdata⟩ := (h.shown x hmem).2 hser
    obtain ⟨sourceUs, hbytes⟩ := hwire x hmem
    -- the newest entry of the history is the newest shown
    have hlast : (S.map WriterSample.bytes).getLast? = some x.wire := by
      rw [hmap, List.getLast?_reverse, List.head?_map, hx]
      rfl
    rw [List.getLast?_map, Option.map_eq_some_iff] at hlast
    obtain ⟨y, hy, hyb⟩ := hlast
    refine ⟨y, sourceUs, (hS.newest hy).1, ?_, hS.join_le_newest hr hc hy, ?_⟩
    · rw [hyb, hbytes, hheader, hdata]
    · intro a m ha hh hd
      refine Variable.onValue_shown h.seq_lt hh hd fun hc => ?_
      rw [ha] at hc
      exact Bool.noConfusion hc.1
  · rw [hquiet w] at hw
    cases hw

/-- In every run in which no send comes after a later write's sample and every publish under
the lock commits, the history of a state at rest ends on the owner's state. -/
theorem history_ends_current (frag : { f : Nat // 0 < f ∧ f ≤ 65535 }) (t : Topic) (o : VarOpts)
    (changed : Bool) (version : Nat) (es : List OwnerEvent)
    (h : Along (Owner.step frag) (Ordered frag) (Owner.opened t o changed version) es) :
    Ends (run (Owner.step frag) (Owner.opened t o changed version) es) :=
  (run_invariant_along (OwnerInv frag) (step_owner frag.2.1 frag.2.2) es _
    (opened_inv frag t o changed version) h).ends

/-- Two sets one after the other. -/
def orderedSets : List OwnerEvent :=
  [.set 0 [1] 0 0 true, .observed 0, .send 0 0 (.inline {}), .set 0 [2] 0 0 true, .observed 0,
    .send 0 0 (.inline {})]

/-- Their run is at rest, and ends on the second. -/
theorem history_ends_current_ordered :
    (run (Owner.step 1350) plainOwner orderedSets).serial = 2 ∧
      Ends (run (Owner.step 1350) plainOwner orderedSets) := by
  refine ⟨by decide +kernel, history_ends_current ⟨1350, by decide⟩ .undefined
    ⟨[97], 0, 0, false, false, 0⟩ false 0 orderedSets ?_⟩
  refine ⟨?_, ?_, ?_, ?_, ?_, ?_, trivial⟩
  · intro r sourceUs via hr
    cases hr
  · intro r sourceUs via hr
    cases hr
  · intro serial header val _ x hx
    cases hx
  · intro r sourceUs via hr
    cases hr
  · intro r sourceUs via hr
    cases hr
  · intro serial header val hw x hx
    have hser : x.serial = 1 := by
      cases hx
      rfl
    have hready : serial = 2 := by
      cases hw
      rfl
    omega

end Rant.Patterns
