import Rant.Lib.Endian
import Rant.Transport.Types
/-!
# Variables

The variable part of `src/patterns/core.c`. An owner keeps the value in `store`, publishes
every write on the value channel under a five byte prefix, the forced flag and `write_seq`,
and takes sets, forces and unforces from the set channel. An accessor keeps the newest value
it was given in the same record. While forced, the owner's plain writes go to `shadow`.

A function here runs under the node lock, read after the settle at its start, which may let the
lock go. `i_rant_var_owner_unforce` tests `forced` before that settle and the others after it, so
its test and its body are two spans in the source and one here. What it sends and which observers it calls
are the acts it returns, in order. `i_rant_buf_put` fails when it must grow and cannot; `ok`
is its answer. What an observer does when it is called, and what a send comes to, belong to
the systems over this module.
-/

namespace Rant.Patterns

open Rant.Lib
open Rant.Transport (Bytes)

/-- `RANT__VAR_PREFIX`: flags, then `write_seq`. -/
def varPrefix : Nat := 5

/-- `RANT__VAR_FLAG_FORCED`. -/
def varFlagForced : UInt8 := 0x01

/-- `RANT__SET_OP_FORCE`. -/
def setOpForce : UInt8 := 0x01

/-- `RANT__SET_OP_UNFORCE`. -/
def setOpUnforce : UInt8 := 0x02

/-- `struct RantVariable`: what the write and read paths touch. `onWrite` and `onChange` are
whether an observer is registered, `queued` whether the value channel has a queue. -/
structure Variable where
  isOwner : Bool
  allowForce : Bool
  forced : Bool := false
  hasValue : Bool := false
  writeSeq : Nat := 0
  store : Bytes := []
  shadow : Bytes := []
  onWrite : Bool := false
  onChange : Bool := false
  queued : Bool := false
  curSchema : Nat := 0
  /-- The peer behind the current state, 0 a local call. -/
  lastSource : Nat := 0
  forcedBy : Nat := 0
  lastWriteUs : Nat := 0
  lastWrittenUs : Nat := 0
  deriving Repr, DecidableEq

/-- `RantVariableUpdate`. -/
structure Update where
  value : Bytes
  schema : Nat
  forced : Bool
  writeSeq : Nat
  source : Nat
  recvUs : Nat
  writtenUs : Nat
  deriving Repr, DecidableEq

/-- What a locked span does to the world, in order. -/
inductive Act
  /-- A send on the value channel under the held lock, with no wait. -/
  | publish (header data : Bytes)
  | onWrite (u : Update)
  | onChange (u : Update)
  /-- One record parked for the queue. -/
  | park (u : Update) (changed : Bool)
  /-- `i_rant_pat_problems`: the status is rebuilt. -/
  | problems
  deriving Repr, DecidableEq

/-- Where a write came from, and when: the trailing parameters of the owner's functions. -/
structure Origin where
  source : Nat
  whenUs : Nat
  writtenUs : Nat
  deriving Repr, DecidableEq

/-- `RantMsg`, as the two handlers read it. -/
structure Msg where
  header : Bytes
  data : Bytes
  publisherId : Nat
  recvUs : Nat
  writtenUs : Nat
  schema : Nat
  deriving Repr, DecidableEq

namespace Variable

/-- `write_seq++` on 32 bits. -/
def bump (seq : Nat) : Nat := (seq + 1) % 2 ^ 32

/-- `i_rant_var_hdr`. -/
def hdr (v : Variable) : Bytes :=
  (if v.forced then varFlagForced else 0) :: writeLe 4 v.writeSeq

/-- `i_rant_var_would_change`: the first value, different bytes, or a forced flip. -/
def wouldChange (v : Variable) (val : Bytes) (forcedNow : Bool) : Bool :=
  !v.hasValue || v.forced != forcedNow || v.store != val

/-- `i_rant_var_update_view`. -/
def updateView (v : Variable) : Update where
  value := v.store
  schema := v.curSchema
  forced := v.forced
  writeSeq := v.writeSeq
  source := v.lastSource
  recvUs := v.lastWriteUs
  writtenUs := v.lastWrittenUs

/-- The write context `i_rant_var_notify` stamps. -/
def wrote (v : Variable) (o : Origin) : Variable :=
  { v with lastSource := o.source, lastWriteUs := o.whenUs, lastWrittenUs := o.writtenUs }

/-- `i_rant_var_notify`: which observers fire, inline or parked. -/
def notify (v : Variable) (changed : Bool) (o : Origin) : Variable × List Act :=
  let v := v.wrote o
  if v.onWrite = false ∧ ¬ (changed ∧ v.onChange) then (v, [])
  else if v.queued then (v, [.park v.updateView changed])
  else
    (v, (if v.onWrite then [.onWrite v.updateView] else []) ++
      (if changed ∧ v.onChange then [.onChange v.updateView] else []))

/-- `i_rant_var_publish_locked`. -/
def publishLocked (v : Variable) : Act := .publish v.hdr v.store

/-- `i_rant_var_owner_apply`: absorbed while forced, else stored, published and notified. -/
def ownerApply (v : Variable) (val : Bytes) (o : Origin) (ok : Bool) : Variable × List Act :=
  if v.forced then ({ v with shadow := if ok then val else v.shadow }, [])
  else if ok = false then (v, [])
  else
    let changed := v.wouldChange val false
    let v := { v with store := val, hasValue := true, writeSeq := bump v.writeSeq }
    let r := v.notify changed o
    (r.1, v.publishLocked :: r.2)

/-- `i_rant_var_owner_force`. Entering force saves the source value, when the shadow can
take it (`okShadow`). -/
def ownerForce (v : Variable) (val : Bytes) (o : Origin) (okShadow ok : Bool) :
    Variable × List Act :=
  if v.allowForce = false then (v, [])
  else
    let changed := v.wouldChange val true
    let v := if v.forced = false ∧ okShadow then { v with shadow := v.store } else v
    if ok = false then (v, [])
    else
      let v := { v with
        store := val, forced := true, hasValue := true, writeSeq := bump v.writeSeq
        forcedBy := o.source }
      let r := v.notify changed o
      (r.1, v.publishLocked :: .problems :: r.2)

/-- `i_rant_var_owner_unforce`: the shadow is the value again. -/
def ownerUnforce (v : Variable) (o : Origin) (ok : Bool) : Variable × List Act :=
  if v.forced = false then (v, [])
  else
    let v := { v with
      forced := false, store := if ok then v.shadow else v.store, writeSeq := bump v.writeSeq }
    let r := v.notify true o
    (r.1, v.publishLocked :: .problems :: r.2)

/-- `i_rant_var_on_set`: a plain set and a force must carry a value. -/
def onSet (v : Variable) (m : Msg) (okShadow ok : Bool) : Variable × List Act :=
  let op := m.header.headD 0
  let o : Origin := { source := m.publisherId, whenUs := m.recvUs, writtenUs := m.writtenUs }
  if op &&& setOpUnforce ≠ 0 then v.ownerUnforce o ok
  else if op &&& setOpForce ≠ 0 then
    if m.data ≠ [] then v.ownerForce m.data o okShadow ok else (v, [])
  else if m.data ≠ [] then v.ownerApply m.data o ok
  else (v, [])

/-- What the owner's `rant_variable_set` did under its first lock. -/
inductive SetStart
  /-- Absorbed by the force: `RANT_OK`, nothing to publish. -/
  | absorbed
  /-- `RANT_ERR_OOM`, nothing stored. -/
  | oom
  /-- Stored, the prefix taken and the observers about to run; `seq` is `my_seq`. -/
  | stored (seq : Nat) (header : Bytes) (acts : List Act)

/-- The owner's `rant_variable_set`, up to the observers. -/
def setStart (v : Variable) (val : Bytes) (nowUs wallUs : Nat) (ok : Bool) : Variable × SetStart :=
  if v.forced then ({ v with shadow := if ok then val else v.shadow }, .absorbed)
  else if ok = false then (v, .oom)
  else
    let changed := v.wouldChange val false
    let v := { v with store := val, hasValue := true, writeSeq := bump v.writeSeq }
    let r := v.notify changed { source := 0, whenUs := nowUs, writtenUs := wallUs }
    (r.1, .stored v.writeSeq v.hdr r.2)

/-- Its re-check after the observers: whether the caller's sample still is the newest. -/
def setPublishes (v : Variable) (seq : Nat) : Bool := v.writeSeq = seq

/-- Whether the signed distance from `a` to `b` on 32 bits is negative:
`(int32_t)(b - a) < 0`. -/
def behind (a b : Nat) : Bool := 2 ^ 31 ≤ (b + 2 ^ 32 - a) % 2 ^ 32

/-- `i_rant_var_on_value`: an accessor takes a value, unless its owner's line is past it. -/
def onValue (v : Variable) (m : Msg) (ok : Bool) : Variable × List Act :=
  match readLe m.header 1 4 with
  | none => (v, [])                              -- shorter than the prefix
  | some seqIn =>
    if v.hasValue ∧ m.publisherId = v.lastSource ∧ behind v.writeSeq seqIn then (v, [])
    else if ok = false then (v, [])
    else
      let forcedIn : Bool := m.header.headD 0 &&& varFlagForced ≠ 0
      let changed := v.wouldChange m.data forcedIn
      { v with store := m.data, hasValue := true, forced := forcedIn, writeSeq := seqIn
               curSchema := m.schema }.notify changed
        { source := m.publisherId, whenUs := m.recvUs, writtenUs := m.writtenUs }

/-- The stale guard disarmed: a PEER_INTEREST found no owner matched. -/
def disarm (v : Variable) : Variable := { v with lastSource := 0 }

/-! ## What the functions leave alone -/

/-- The state an accessor reads back: the value, the flag and the count. -/
def shown (v : Variable) : Bytes × Bool × Nat := (v.store, v.forced, v.writeSeq)

theorem notify_fst (v : Variable) (changed : Bool) (o : Origin) :
    (v.notify changed o).1 = v.wrote o := by
  unfold notify
  dsimp only
  split
  next => rfl
  next => split <;> rfl

/-- The prefix reads back: the count, on 32 bits. -/
theorem readLe_hdr (v : Variable) (h : v.writeSeq < 2 ^ 32) :
    readLe v.hdr 1 4 = some v.writeSeq := by
  have hshift : readLe v.hdr 1 4 = readLe (writeLe 4 v.writeSeq) 0 4 :=
    readLe_append_right (p := [if v.forced then varFlagForced else 0]) (i := 0)
  have hread := readLe_writeLe 4 v.writeSeq []
  rw [List.append_nil] at hread
  rw [hshift, hread, Nat.mod_eq_of_lt]
  exact h

/-- And the flag. -/
theorem headD_hdr (v : Variable) : (decide (v.hdr.headD 0 &&& varFlagForced ≠ 0)) = v.forced := by
  unfold hdr
  rw [List.headD_cons]
  cases v.forced <;> decide

theorem shown_store {v w : Variable} (h : w.shown = v.shown) : w.store = v.store :=
  congrArg Prod.fst h

theorem shown_seq {v w : Variable} (h : w.shown = v.shown) : w.writeSeq = v.writeSeq :=
  congrArg (fun x => x.2.2) h

theorem shown_hdr {v w : Variable} (h : w.shown = v.shown) : w.hdr = v.hdr := by
  have hf : w.forced = v.forced := congrArg (fun x => x.2.1) h
  unfold hdr
  rw [hf, shown_seq h]

theorem bump_lt (seq : Nat) : bump seq < 2 ^ 32 := Nat.mod_lt _ (by decide)

/-- A locked write counts and publishes what it stored, before anything else, or leaves the
state as it was and does nothing. -/
def Locked (v : Variable) (r : Variable × List Act) : Prop :=
  (r.1.writeSeq = bump v.writeSeq ∧ ∃ rest, r.2 = .publish r.1.hdr r.1.store :: rest) ∨
    (r.1.shown = v.shown ∧ r.2 = [])

/-- The write context is no part of what is published. -/
theorem publishLocked_notify (v : Variable) (changed : Bool) (o : Origin) :
    v.publishLocked = .publish (v.notify changed o).1.hdr (v.notify changed o).1.store := by
  rw [notify_fst]
  rfl

theorem ownerApply_locked (v : Variable) (val : Bytes) (o : Origin) (ok : Bool) :
    Locked v (v.ownerApply val o ok) := by
  unfold ownerApply
  split
  next => exact Or.inr ⟨rfl, rfl⟩
  split
  next => exact Or.inr ⟨rfl, rfl⟩
  refine Or.inl ⟨?_, _, congrArg (· :: _) (publishLocked_notify _ _ o)⟩
  dsimp only
  rw [notify_fst]
  rfl

theorem ownerForce_locked (v : Variable) (val : Bytes) (o : Origin) (okShadow ok : Bool) :
    Locked v (v.ownerForce val o okShadow ok) := by
  unfold ownerForce
  split
  next => exact Or.inr ⟨rfl, rfl⟩
  obtain ⟨w, hw⟩ : ∃ w, w = if v.forced = false ∧ okShadow = true
    then { v with shadow := v.store } else v := ⟨_, rfl⟩
  have hshown : w.shown = v.shown := by
    rw [hw]
    split <;> rfl
  dsimp only
  rw [← hw]
  split
  next => exact Or.inr ⟨hshown, rfl⟩
  refine Or.inl ⟨?_, _, congrArg (· :: _) (publishLocked_notify _ _ o)⟩
  rw [notify_fst, ← shown_seq hshown]
  rfl

theorem ownerUnforce_locked (v : Variable) (o : Origin) (ok : Bool) :
    Locked v (v.ownerUnforce o ok) := by
  unfold ownerUnforce
  split
  next => exact Or.inr ⟨rfl, rfl⟩
  refine Or.inl ⟨?_, _, congrArg (· :: _) (publishLocked_notify _ _ o)⟩
  dsimp only
  rw [notify_fst]
  rfl

theorem onSet_locked (v : Variable) (m : Msg) (okShadow ok : Bool) :
    Locked v (v.onSet m okShadow ok) := by
  unfold onSet
  dsimp only
  split
  next => exact ownerUnforce_locked v _ ok
  split
  next =>
    split
    next => exact ownerForce_locked v _ _ okShadow ok
    next => exact Or.inr ⟨rfl, rfl⟩
  split
  next => exact ownerApply_locked v _ _ ok
  next => exact Or.inr ⟨rfl, rfl⟩

/-- A set's first lock stores and counts, or leaves what is shown as it was. -/
theorem setStart_spec (v : Variable) (val : Bytes) (nowUs wallUs : Nat) (ok : Bool) :
    ((v.setStart val nowUs wallUs ok).1.shown = v.shown ∧
      ((v.setStart val nowUs wallUs ok).2 = .absorbed ∨ (v.setStart val nowUs wallUs ok).2 = .oom)) ∨
    ((v.setStart val nowUs wallUs ok).1.writeSeq = bump v.writeSeq ∧
      (v.setStart val nowUs wallUs ok).1.store = val ∧
      ∃ acts, (v.setStart val nowUs wallUs ok).2 =
        .stored (v.setStart val nowUs wallUs ok).1.writeSeq
          (v.setStart val nowUs wallUs ok).1.hdr acts) := by
  unfold setStart
  split
  next => exact Or.inl ⟨rfl, Or.inl rfl⟩
  split
  next => exact Or.inl ⟨rfl, Or.inr rfl⟩
  obtain ⟨w, hw⟩ : ∃ w : Variable, w =
    { v with store := val, hasValue := true, writeSeq := bump v.writeSeq } := ⟨_, rfl⟩
  obtain ⟨r, hr⟩ : ∃ r, r = w.notify (v.wouldChange val false)
    { source := 0, whenUs := nowUs, writtenUs := wallUs } := ⟨_, rfl⟩
  have hfst : r.1 = w.wrote { source := 0, whenUs := nowUs, writtenUs := wallUs } := by
    rw [hr]
    exact notify_fst w _ _
  dsimp only
  rw [← hw, ← hr, hfst, hw]
  exact Or.inr ⟨rfl, rfl, r.2, rfl⟩

/-- A value whose count is not behind is taken as it is. -/
theorem onValue_shown {v a : Variable} {m : Msg} (hseq : v.writeSeq < 2 ^ 32)
    (hh : m.header = v.hdr) (hd : m.data = v.store)
    (hgo : ¬ (a.hasValue = true ∧ m.publisherId = a.lastSource ∧
      behind a.writeSeq v.writeSeq = true)) :
    (a.onValue m true).1.shown = v.shown := by
  unfold onValue
  rw [hh, readLe_hdr v hseq]
  dsimp only
  rw [if_neg hgo, if_neg Bool.noConfusion, notify_fst]
  show (m.data, decide (v.hdr.headD 0 &&& varFlagForced ≠ 0), v.writeSeq) = _
  rw [headD_hdr, hd]
  rfl

end Variable

end Rant.Patterns
