import Rant.Lib.Run
import Rant.Lib.Window
import Rant.Transport.Topics
import Rant.Transport.WriterInv
/-!
# Merging repair requests

`i_rant_writer_nack` folds the repair request of an ACKNACK into the one the lane still
holds. Both are 32 bit windows over their own base. The lane drops what the new cumulative
ack answers by shifting its own window up to the ack's base, then ORs the request in, itself
shifted up when the lane's window is already further on.

`Pending` and `Requested` read the two windows as sets of seqnos, and `nack_merge_exact` says
the fold is their union over the merged window, for the lane any run of events left behind.
The one thing about the lane the proof needs is that a pending request is never empty
(`NackOk`): every path that clears a bit clears the flag with the last one.

A shift in C is undefined from the width of its operand on. `cShr` is that shift, and
`writerNackChecked` the handler over it.
-/

namespace Rant.Transport

open Rant.Lib
open Rant.Lib.Window (On)

/-! ## The two windows -/

/-- The seqnos a lane still owes its reader a repair of. -/
def Pending (w : WriterProxy) (q : Nat) : Prop :=
  w.hasNack = true ∧ On w.nackBase w.nackBits q

/-- The seqnos an ACKNACK asks for. -/
def Requested (m : NackMsg) (q : Nat) : Prop :=
  0 < m.nbits ∧ On m.base m.bitmap q

instance (w : WriterProxy) (q : Nat) : Decidable (Pending w q) :=
  inferInstanceAs (Decidable (_ ∧ _ ∧ _))

instance (m : NackMsg) (q : Nat) : Decidable (Requested m q) :=
  inferInstanceAs (Decidable (_ ∧ _ ∧ _))

/-- The base of the merged window: the ACKNACK's, unless the pending one is further on. -/
def mergeBase (w : WriterProxy) (m : NackMsg) : Nat :=
  if w.hasNack = true ∧ m.base < w.nackBase then w.nackBase else m.base

/-- A pending request asks for something. -/
def NackOk (w : WriterProxy) : Prop := w.hasNack = true → w.nackBits ≠ 0#32

theorem pending_iff_hasNack {w : WriterProxy} (h : NackOk w) :
    w.hasNack = true ↔ ∃ q, Pending w q := by
  constructor
  · intro hn
    obtain ⟨q, hq⟩ := Window.exists_on w.nackBase (h hn)
    exact ⟨q, hn, hq⟩
  · rintro ⟨_, hn, _⟩
    exact hn

/-! ## The fold -/

/-- Dropping keeps what is at or past the new cumulative ack, on a window that starts there
or later. -/
theorem nackDrop_spec (w : WriterProxy) (base : Nat) (h : NackOk w) :
    NackOk (nackDrop w base) ∧
      (∀ q, Pending (nackDrop w base) q ↔ Pending w q ∧ base ≤ q) ∧
      ((nackDrop w base).hasNack = true → base ≤ (nackDrop w base).nackBase) := by
  unfold nackDrop
  split
  next hd =>
    obtain ⟨hn, hlt⟩ := hd
    obtain ⟨bits, hbits⟩ : ∃ bits, bits = if base - w.nackBase < nackWindow
        then w.nackBits >>> (base - w.nackBase) else 0#32 := ⟨_, rfl⟩
    have hon : ∀ q, On base bits q ↔ On w.nackBase w.nackBits q ∧ base ≤ q := by
      intro q
      rw [hbits]
      split
      next => exact Window.on_shift (Nat.le_of_lt hlt)
      next hfar =>
        have hfar : w.nackBase + 32 ≤ base := by unfold nackWindow at hfar; omega
        exact Window.on_shift_zero hfar
    dsimp only
    rw [← hbits]
    refine ⟨fun hb => of_decide_eq_true hb, fun q => ?_, fun _ => Nat.le_refl base⟩
    unfold Pending
    dsimp only
    rw [hon, decide_eq_true_iff, hn]
    constructor
    · rintro ⟨_, hq, hle⟩
      exact ⟨⟨rfl, hq⟩, hle⟩
    · rintro ⟨⟨_, hq⟩, hle⟩
      exact ⟨((hon q).mpr ⟨hq, hle⟩).ne_zero, hq, hle⟩
  next hd =>
    have hle : w.hasNack = true → base ≤ w.nackBase := fun hn =>
      Nat.le_of_not_lt fun hlt => hd ⟨hn, hlt⟩
    exact ⟨h, fun q => ⟨fun hq => ⟨hq, Nat.le_trans (hle hq.1) hq.2.1⟩, And.left⟩, hle⟩

/-- The window a request is added to, or else brings along, starts at the merged base. -/
theorem nackDrop_base (w : WriterProxy) (m : NackMsg) :
    (if (nackDrop w m.base).hasNack = true then (nackDrop w m.base).nackBase else m.base)
      = mergeBase w m := by
  unfold mergeBase
  by_cases hd : w.hasNack = true ∧ w.nackBase < m.base
  · have hm : ¬ (w.hasNack = true ∧ m.base < w.nackBase) := fun h => by omega
    have hbase : (nackDrop w m.base).nackBase = m.base := by
      unfold nackDrop
      rw [if_pos hd]
    rw [hbase, if_neg hm, ite_self]
  · have hsame : nackDrop w m.base = w := by
      unfold nackDrop
      rw [if_neg hd]
    rw [hsame]
    by_cases hn : w.hasNack = true
    · have hge : m.base ≤ w.nackBase := Nat.le_of_not_lt fun hlt => hd ⟨hn, hlt⟩
      rw [if_pos hn]
      split
      next => rfl
      next hm => exact Nat.le_antisymm (Nat.le_of_not_lt fun hlt => hm ⟨hn, hlt⟩) hge
    · rw [if_neg hn, if_neg fun h => hn h.1]

theorem le_mergeBase (w : WriterProxy) (m : NackMsg) : m.base ≤ mergeBase w m := by
  unfold mergeBase
  split
  next h => exact Nat.le_of_lt h.2
  next => exact Nat.le_refl _

/-- What was pending at or past the ack lies in the merged window. -/
theorem Pending.merged {w : WriterProxy} {m : NackMsg} {q : Nat} (h : Pending w q)
    (hge : m.base ≤ q) : mergeBase w m ≤ q ∧ q < mergeBase w m + nackWindow := by
  have hlo := h.2.1
  have hhi := h.2.lt
  unfold mergeBase nackWindow
  by_cases hm : w.hasNack = true ∧ m.base < w.nackBase
  · rw [if_pos hm]
    exact ⟨hlo, hhi⟩
  · have : w.nackBase ≤ m.base := Nat.le_of_not_lt fun hlt => hm ⟨h.1, hlt⟩
    rw [if_neg hm]
    omega

/-- Adding a request to a window that starts at or past its base. -/
theorem nackAdd_spec (w : WriterProxy) (m : NackMsg) (h : NackOk w) (hb : m.bitmap ≠ 0#32)
    (hle : w.hasNack = true → m.base ≤ w.nackBase) :
    NackOk (nackAdd w m) ∧
      ∀ q, Pending (nackAdd w m) q ↔
        (Pending w q ∨ On m.base m.bitmap q) ∧
          (if w.hasNack = true then w.nackBase else m.base) ≤ q := by
  unfold nackAdd
  split
  next hn =>
    have hle := hle hn
    have hd : u64Sub w.nackBase m.base = w.nackBase - m.base := by
      unfold u64Sub
      rw [if_pos hle]
    dsimp only
    rw [hd]
    obtain ⟨add, hadd⟩ : ∃ add, add = if w.nackBase - m.base < nackWindow
        then m.bitmap >>> (w.nackBase - m.base) else 0#32 := ⟨_, rfl⟩
    have hon : ∀ q, On w.nackBase add q ↔ On m.base m.bitmap q ∧ w.nackBase ≤ q := by
      intro q
      rw [hadd]
      split
      next => exact Window.on_shift hle
      next hfar =>
        have hfar : m.base + 32 ≤ w.nackBase := by unfold nackWindow at hfar; omega
        exact Window.on_shift_zero hfar
    rw [← hadd]
    obtain ⟨q₀, hq₀⟩ := Window.exists_on w.nackBase (h hn)
    refine ⟨fun _ => (Window.on_or.mpr (Or.inl hq₀)).ne_zero, fun q => ?_⟩
    unfold Pending
    dsimp only
    rw [Window.on_or, hon]
    constructor
    · rintro ⟨_, hq | ⟨hq, hge⟩⟩
      · exact ⟨Or.inl ⟨hn, hq⟩, hq.1⟩
      · exact ⟨Or.inr hq, hge⟩
    · rintro ⟨⟨_, hq⟩ | hq, hge⟩
      · exact ⟨hn, Or.inl hq⟩
      · exact ⟨hn, Or.inr ⟨hq, hge⟩⟩
  next hn =>
    refine ⟨fun _ => hb, fun q => ?_⟩
    unfold Pending
    constructor
    · rintro ⟨_, hq⟩
      exact ⟨Or.inr hq, hq.1⟩
    · rintro ⟨⟨hc, _⟩ | hq, _⟩
      · exact absurd hc hn
      · exact ⟨rfl, hq⟩

/-- The whole fold: the union, over the merged window. -/
theorem nackMerge_spec (x : WriterSide) (m : NackMsg) (h : NackOk x.w) :
    NackOk (nackMerge x m).w ∧
      ∀ q, Pending (nackMerge x m).w q ↔
        (Pending x.w q ∨ Requested m q) ∧
          mergeBase x.w m ≤ q ∧ q < mergeBase x.w m + nackWindow := by
  obtain ⟨hok, hpend, hle⟩ := nackDrop_spec x.w m.base h
  have hmb := le_mergeBase x.w m
  unfold nackMerge
  dsimp only
  split
  next hreq =>
    obtain ⟨hok', hadd⟩ := nackAdd_spec (nackDrop x.w m.base) m hok hreq.2 hle
    rw [nackDrop_base] at hadd
    refine ⟨hok', fun q => ?_⟩
    show Pending (nackAdd (nackDrop x.w m.base) m) q ↔ _
    rw [hadd, hpend]
    constructor
    · rintro ⟨⟨hq, hge⟩ | hq, hfrom⟩
      · exact ⟨Or.inl hq, hq.merged hge⟩
      · have hhi := hq.lt
        refine ⟨Or.inr ⟨hreq.1, hq⟩, hfrom, ?_⟩
        unfold nackWindow
        omega
    · rintro ⟨hq, hlo, _⟩
      have hge : m.base ≤ q := Nat.le_trans hmb hlo
      exact ⟨hq.imp (fun hq => ⟨hq, hge⟩) And.right, hlo⟩
  next hreq =>
    refine ⟨hok, fun q => ?_⟩
    show Pending (nackDrop x.w m.base) q ↔ _
    rw [hpend]
    constructor
    · rintro ⟨hq, hge⟩
      exact ⟨Or.inl hq, hq.merged hge⟩
    · rintro ⟨hq | ⟨hbits, hq⟩, hlo, _⟩
      · exact ⟨hq, Nat.le_trans hmb hlo⟩
      · exact absurd ⟨hbits, hq.ne_zero⟩ hreq

/-! ## The shifts -/

/-- A right shift of a `uint32_t`, undefined from 32 on. -/
def cShr (b : BitVec 32) (d : Nat) : Option (BitVec 32) := if d < 32 then some (b >>> d) else none

/-- `d < RANT_NACK_WINDOW ? b >> d : 0u`: the guard is the window, and so is the width. -/
theorem cShr_guarded (b : BitVec 32) (d : Nat) :
    (if d < nackWindow then cShr b d else some 0#32)
      = some (if d < nackWindow then b >>> d else 0#32) := by
  split
  next h => exact if_pos h
  next => rfl

/-- `nackDrop` over the checked shift. -/
def nackDropChecked (w : WriterProxy) (base : Nat) : Option WriterProxy :=
  if w.hasNack = true ∧ w.nackBase < base then
    let d := base - w.nackBase
    (if d < nackWindow then cShr w.nackBits d else some 0#32).map fun bits =>
      { w with nackBits := bits, nackBase := base, hasNack := bits ≠ 0#32 }
  else some w

/-- `nackAdd` over the checked shift. -/
def nackAddChecked (w : WriterProxy) (m : NackMsg) : Option WriterProxy :=
  if w.hasNack then
    let d := u64Sub w.nackBase m.base
    (if d < nackWindow then cShr m.bitmap d else some 0#32).map fun bits =>
      { w with nackBits := w.nackBits ||| bits }
  else some { w with hasNack := true, nackBase := m.base, nackBits := m.bitmap }

/-- `nackMerge` over the checked shift. -/
def nackMergeChecked (x : WriterSide) (m : NackMsg) : Option WriterSide :=
  (nackDropChecked x.w m.base).bind fun w =>
    if 0 < m.nbits ∧ m.bitmap ≠ 0#32 then
      (nackAddChecked w m).map fun w' =>
        ({ x with
          w := w'
          stats := { x.stats with nacksRecv := x.stats.nacksRecv + 1 } }).emit .wake
    else some { x with w := w }

theorem nackDropChecked_eq (w : WriterProxy) (base : Nat) :
    nackDropChecked w base = some (nackDrop w base) := by
  unfold nackDropChecked nackDrop
  dsimp only
  rw [cShr_guarded, Option.map_some]
  split <;> rfl

theorem nackAddChecked_eq (w : WriterProxy) (m : NackMsg) :
    nackAddChecked w m = some (nackAdd w m) := by
  unfold nackAddChecked nackAdd
  dsimp only
  rw [cShr_guarded, Option.map_some]
  split <;> rfl

/-- No shift of the fold is undefined. -/
theorem nackMergeChecked_eq (x : WriterSide) (m : NackMsg) :
    nackMergeChecked x m = some (nackMerge x m) := by
  unfold nackMergeChecked nackMerge
  rw [nackDropChecked_eq, Option.bind_some, nackAddChecked_eq, Option.map_some]
  dsimp only
  split <;> rfl

/-! ## The acknowledgement point -/

/-- A cached sample ends past any seqno it was found for. -/
theorem sampleFindFrom_covers (t : Topic) (q : Nat) : ∀ (k i : Nat) {s : WriterSample},
    sampleFindFrom t q k i = some s → s.base ≤ q ∧ q < s.base + s.count
  | 0, _, _, h => by cases h
  | k + 1, i, s, h => by
    unfold sampleFindFrom at h
    dsimp only at h
    split at h
    next => cases h
    split at h
    next hle =>
      split at h
      next hlt =>
        cases h
        exact ⟨hle, hlt⟩
      next => cases h
    next => exact sampleFindFrom_covers t q k _ h

theorem advanceAcked_le (t : Topic) (p : Nat) : ∀ (n : Nat) (w : WriterProxy),
    w.ackedUpto ≤ (advanceAcked t p n w).ackedUpto
  | 0, _ => Nat.le_refl _
  | n + 1, w => by
    unfold advanceAcked
    split
    next => exact Nat.le_refl _
    next s hs =>
      split
      next => exact Nat.le_refl _
      have hcov := sampleFindFrom_covers t w.ackedUpto _ _ hs
      exact Nat.le_trans (Nat.le_of_lt hcov.2)
        (advanceAcked_le t p n { w with ackedUpto := s.base + s.count, skipHb := true })

theorem advanceSent_acked (t : Topic) (p : Nat) : ∀ (n : Nat) (w : WriterProxy),
    (advanceSent t p n w).ackedUpto = w.ackedUpto
  | 0, _ => rfl
  | n + 1, w => by
    unfold advanceSent
    split
    next =>
      split
      next => rfl
      split
      next => exact advanceSent_acked t p n _
      next => rfl
    next => rfl

theorem laneAdvance_acked_le (t : Topic) (p : Nat) (w : WriterProxy) :
    w.ackedUpto ≤ (laneAdvance t p w).ackedUpto := by
  unfold laneAdvance
  split
  next => exact Nat.le_refl _
  dsimp only
  rw [advanceSent_acked]
  have h := advanceAcked_le t p t.qos.keepLast w
  split <;> exact h

/-- The cumulative ack never takes the lane back. -/
theorem nackAck_acked_le (t : Topic) (p : Nat) (x : WriterSide) (m : NackMsg) (now : Nat) :
    x.w.ackedUpto ≤ (nackAck t p x m now).w.ackedUpto := by
  have hto : x.w.ackedUpto ≤ (ackTo x.w m).ackedUpto := by
    unfold ackTo
    dsimp only
    split
    next h => exact Nat.le_of_lt h
    next => exact Nat.le_refl _
  have hle := Nat.le_trans hto (laneAdvance_acked_le t p (ackTo x.w m))
  unfold nackAck
  dsimp only
  split <;> exact hle

theorem nackMerge_acked (x : WriterSide) (m : NackMsg) :
    (nackMerge x m).w.ackedUpto = x.w.ackedUpto := by
  have hdrop : (nackDrop x.w m.base).ackedUpto = x.w.ackedUpto := by
    unfold nackDrop
    split <;> rfl
  have hadd : (nackAdd (nackDrop x.w m.base) m).ackedUpto = (nackDrop x.w m.base).ackedUpto := by
    unfold nackAdd
    split <;> rfl
  unfold nackMerge
  dsimp only
  split
  next => exact hadd.trans hdrop
  next => exact hdrop

/-! ## A lane over its life -/

theorem nackAck_standing (t : Topic) (p : Nat) (x : WriterSide) (m : NackMsg) (now : Nat) :
    (nackAck t p x m now).w.standing = x.w.standing := by
  have h : (laneAdvance t p (ackTo x.w m)).standing = x.w.standing := laneAdvance_standing t p _
  unfold nackAck
  dsimp only
  split <;> exact h

theorem standing_pending {w w' : WriterProxy} (h : w'.standing = w.standing) (q : Nat) :
    Pending w' q ↔ Pending w q := by
  unfold WriterProxy.standing at h
  injection h with _ h
  injection h with hn h
  injection h with hb hbits
  unfold Pending
  rw [hn, hb, hbits]

theorem standing_nackOk {w w' : WriterProxy} (h : w'.standing = w.standing) (hw : NackOk w) :
    NackOk w' := by
  unfold WriterProxy.standing at h
  injection h with _ h
  injection h with hn h
  injection h with _ hbits
  unfold NackOk
  rw [hn, hbits]
  exact hw

theorem standing_mergeBase {w w' : WriterProxy} (m : NackMsg) (h : w'.standing = w.standing) :
    mergeBase w' m = mergeBase w m := by
  unfold WriterProxy.standing at h
  injection h with _ h
  injection h with hn h
  injection h with hb _
  unfold mergeBase
  rw [hn, hb]

/-- Clearing bits clears the flag with the last one. -/
theorem setNack_nackOk (w : WriterProxy) (bits : BitVec 32) : NackOk (w.setNack bits) := by
  intro hn hz
  have hz : bits = 0#32 := hz
  unfold WriterProxy.setNack at hn
  dsimp only at hn
  rw [if_pos hz] at hn
  cases hn

theorem repairFrom_nackOk (t : Topic) (e : EmitEnv) : ∀ (n : Nat) (x : WriterSide),
    NackOk x.w → NackOk (repairFrom t e n x).1.w
  | 0, _, h => h
  | n + 1, x, h => by
    unfold repairFrom
    dsimp only
    split
    next =>
      split
      next => exact repairFrom_nackOk t e n _ (setNack_nackOk _ _)
      split
      next =>
        unfold superseded
        split
        next => exact h
        next => exact standing_nackOk (writerHb_standing t _ _ _) (setNack_nackOk _ _)
      next =>
        split
        next =>
          refine repairFrom_nackOk t e n _ ?_
          exact standing_nackOk (laneAdvance_standing t e.p _) (setNack_nackOk _ _)
        unfold resend
        dsimp only
        split
        next =>
          split
          next => exact h
          next => exact setNack_nackOk _ _
        next =>
          split
          next => exact h
          next => exact setNack_nackOk _ _
    next => exact repairFrom_nackOk t e n x h

theorem writerEmit_nackOk (t : Topic) (e : EmitEnv) (dormant : Bool) (x : WriterSide)
    (h : NackOk x.w) : NackOk (writerEmit t e dormant x).1.w := by
  have hadv : NackOk (laneAdvance t e.p x.w) := standing_nackOk (laneAdvance_standing t e.p x.w) h
  unfold writerEmit
  split
  next => exact h
  dsimp only
  split
  next =>
    have hrep := repairFrom_nackOk t e nackWindow { x with w := laneAdvance t e.p x.w } hadv
    split
    next heq =>
      rw [heq] at hrep
      exact hrep
    next =>
      refine standing_nackOk (emitFloor_standing t e _) fun hn => ?_
      cases hn
  next => exact standing_nackOk (emitFloor_standing t e _) hadv

theorem writerNack_nackOk (t : Topic) (p : Nat) (x : WriterSide) (m : NackMsg) (now : Nat)
    (h : NackOk x.w) : NackOk (writerNack t p x m now).w := by
  unfold writerNack
  split
  next => exact h
  split
  next =>
    intro hn
    cases hn
  dsimp only
  split
  next =>
    split <;> exact h
  next =>
    have hack := nackAck_standing t p { x with w := { x.w with readerEpoch := m.epoch } } m now
    exact (nackMerge_spec _ m (standing_nackOk hack h)).1

theorem commitLane_nackOk (t : Topic) (dest : Dest) (p : Nat) (dormant : Bool) (x : WriterSide)
    (h : NackOk x.w) : NackOk (commitLane t dest p dormant x).w := by
  have hadv : NackOk (laneAdvance t p x.w) := standing_nackOk (laneAdvance_standing t p x.w) h
  unfold commitLane
  split
  next => exact h
  split
  next => exact h
  next =>
    dsimp only
    split <;> exact hadv

/-- What may happen to the writer side of a lane. The topic is the one the step finds, so
whatever happened to it in between is covered: sends, evictions, a retire, a new history. -/
inductive LaneEvent
  /-- `i_rant_writer_match`. -/
  | formed (t : Topic) (subReliable : Bool)
  /-- `i_rant_writer_unmatch`. -/
  | unmatched
  /-- The rate section of a peer's announce. -/
  | rated (us : Nat)
  /-- The lane's turn in `i_rant_writer_commit`. -/
  | commit (t : Topic) (dest : Dest) (p : Nat) (dormant : Bool)
  | emit (t : Topic) (e : EmitEnv) (dormant : Bool)
  | nack (t : Topic) (p : Nat) (m : NackMsg) (now : Nat)
  /-- Another lane of the topic or of the peer moved what they share. -/
  | elsewhere (stats : RepairStats) (rtt : PeerRtt)

/-- One step of a lane. -/
def laneStep (x : WriterSide) : LaneEvent → WriterSide
  | .formed t subReliable => { x with w := writerMatch t subReliable }
  | .unmatched => { x with w := { x.w with used := false } }
  | .rated us => if x.w.used then { x with w := { x.w with rateIntervalUs := us } } else x
  | .commit t dest p dormant => commitLane t dest p dormant x
  | .emit t e dormant => (writerEmit t e dormant x).1
  | .nack t p m now => writerNack t p x m now
  | .elsewhere stats rtt => { x with stats := stats, rtt := rtt }

/-- A lane's record as the pool hands it out, and what any run made of it. -/
def laneRuns (es : List LaneEvent) : WriterSide :=
  run laneStep { stats := {}, w := {}, rtt := {}, fx := [] } es

theorem laneStep_nackOk (x : WriterSide) (e : LaneEvent) (h : NackOk x.w) :
    NackOk (laneStep x e).w := by
  cases e with
  | formed t subReliable =>
    intro hn
    cases hn
  | unmatched => exact h
  | rated us =>
    unfold laneStep
    dsimp only
    split <;> exact h
  | commit t dest p dormant => exact commitLane_nackOk t dest p dormant x h
  | emit t e dormant => exact writerEmit_nackOk t e dormant x h
  | nack t p m now => exact writerNack_nackOk t p x m now h
  | elsewhere stats rtt => exact h

theorem laneRuns_nackOk (es : List LaneEvent) : NackOk (laneRuns es).w := by
  refine run_invariant (fun x : WriterSide => NackOk x.w) laneStep_nackOk es _ ?_
  intro hn
  cases hn

/-! ## The whole handler -/

/-- `writerNack` over the checked shift. -/
def writerNackChecked (t : Topic) (p : Nat) (x : WriterSide) (m : NackMsg) (now : Nat) :
    Option WriterSide :=
  if x.w.used = false ∨ (x.w.readerEpoch ≠ m.epoch ∧ x.w.readerEpoch ≠ 0) ∨ m.unpos then
    some (writerNack t p x m now)                -- these branches shift nothing
  else
    nackMergeChecked (nackAck t p { x with w := { x.w with readerEpoch := m.epoch } } m now) m

/-- An ACKNACK of the lane's own epoch that carries a position is an ack, then the fold. -/
theorem writerNack_eq (t : Topic) (p : Nat) (x : WriterSide) (m : NackMsg) (now : Nat)
    (hu : x.w.used = true) (he : x.w.readerEpoch = m.epoch ∨ x.w.readerEpoch = 0)
    (hp : m.unpos = false) : writerNack t p x m now =
      nackMerge (nackAck t p { x with w := { x.w with readerEpoch := m.epoch } } m now) m := by
  have he' : ¬ (x.w.readerEpoch ≠ m.epoch ∧ x.w.readerEpoch ≠ 0) := fun h => he.elim h.1 h.2
  unfold writerNack
  rw [hu, if_neg Bool.noConfusion, if_neg he']
  dsimp only
  rw [hp]
  exact if_neg Bool.noConfusion

theorem writerNackChecked_eq (t : Topic) (p : Nat) (x : WriterSide) (m : NackMsg) (now : Nat) :
    writerNackChecked t p x m now = some (writerNack t p x m now) := by
  unfold writerNackChecked
  split
  next => rfl
  next h =>
    have hu : x.w.used = true := by
      rw [← Bool.not_eq_false]
      exact fun hc => h (Or.inl hc)
    have he : x.w.readerEpoch = m.epoch ∨ x.w.readerEpoch = 0 := by
      by_contra hc
      exact h (Or.inr (Or.inl ⟨fun heq => hc (Or.inl heq), fun heq => hc (Or.inr heq)⟩))
    have hp : m.unpos = false := by
      rw [← Bool.not_eq_true]
      exact fun hc => h (Or.inr (Or.inr hc))
    rw [nackMergeChecked_eq, writerNack_eq t p x m now hu he hp]

/-- On a matched lane of any history, an ACKNACK of the lane's epoch leaves pending exactly
the old and the newly requested seqnos that the merged window holds, performs no undefined
shift, keeps the flag in step with the set and never takes the acknowledgement back. -/
theorem nack_merge_exact (es : List LaneEvent) (t : Topic) (p : Nat) (m : NackMsg) (now : Nat)
    (hu : (laneRuns es).w.used = true) (he : (laneRuns es).w.readerEpoch = m.epoch)
    (hp : m.unpos = false) :
    (∀ q, Pending (writerNack t p (laneRuns es) m now).w q ↔
      (Pending (laneRuns es).w q ∨ Requested m q) ∧
        mergeBase (laneRuns es).w m ≤ q ∧ q < mergeBase (laneRuns es).w m + nackWindow) ∧
    writerNackChecked t p (laneRuns es) m now = some (writerNack t p (laneRuns es) m now) ∧
    ((writerNack t p (laneRuns es) m now).w.hasNack = true ↔
      ∃ q, Pending (writerNack t p (laneRuns es) m now).w q) ∧
    (laneRuns es).w.ackedUpto ≤ (writerNack t p (laneRuns es) m now).w.ackedUpto := by
  have hok := laneRuns_nackOk es
  obtain ⟨x, hx⟩ : ∃ x : WriterSide, x = laneRuns es := ⟨_, rfl⟩
  rw [← hx] at hu he hok ⊢
  obtain ⟨y, hy⟩ : ∃ y, y = nackAck t p { x with w := { x.w with readerEpoch := m.epoch } } m now :=
    ⟨_, rfl⟩
  have hst : y.w.standing = x.w.standing := by
    rw [hy]
    exact nackAck_standing t p _ m now
  have hack : x.w.ackedUpto ≤ y.w.ackedUpto := by
    rw [hy]
    exact nackAck_acked_le t p { x with w := { x.w with readerEpoch := m.epoch } } m now
  obtain ⟨hok', hpend⟩ := nackMerge_spec y m (standing_nackOk hst hok)
  rw [writerNackChecked_eq, writerNack_eq t p x m now hu (Or.inl he) hp, ← hy]
  refine ⟨fun q => ?_, rfl, pending_iff_hasNack hok', ?_⟩
  · rw [hpend, standing_pending hst, standing_mergeBase m hst]
  · rw [nackMerge_acked]
    exact hack

/-- A reliable topic with two samples of history. -/
def crossingTopic : Topic :=
  { Topic.undefined with
    qos := ⟨.reliable, 2, 0, 1000, 0, 0, true⟩, identity := 1, role := .pubOnly
    history := List.replicate 2 .empty }

/-- A lane asked to repair 3 and 5, before the resends went out. -/
def crossingRun : List LaneEvent :=
  [.formed crossingTopic true,
    .nack crossingTopic 0 { base := 3, nbits := 32, bitmap := 5#32, epoch := 7, unpos := false } 0]

/-- The next ACKNACK acks 3 and asks for 4 and 35. -/
def crossingNack : NackMsg :=
  { base := 4, nbits := 32, bitmap := 0x80000001#32, epoch := 7, unpos := false }

/-- The two requests cross: 5 stays owed, 35 comes in at the window's far end and 3 is
answered. -/
theorem nack_merge_exact_crossing :
    Pending (writerNack crossingTopic 0 (laneRuns crossingRun) crossingNack 1).w 5 ∧
    Pending (writerNack crossingTopic 0 (laneRuns crossingRun) crossingNack 1).w 35 ∧
    ¬ Pending (writerNack crossingTopic 0 (laneRuns crossingRun) crossingNack 1).w 3 := by
  have h := (nack_merge_exact crossingRun crossingTopic 0 crossingNack 1 (by decide) (by decide)
    rfl).1
  refine ⟨(h 5).mpr (by decide), (h 35).mpr (by decide), fun h3 => ?_⟩
  exact absurd ((h 3).mp h3).2.1 (by decide)

end Rant.Transport
