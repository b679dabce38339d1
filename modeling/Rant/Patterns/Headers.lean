import Rant.Node.Framing
import Rant.Node.Reflect
/-!
# Pattern headers

`src/patterns/core.c`: the header each pattern puts in front of its payload, and what the receiving side
is handed as header and payload.

A message is gathered as it is sent (`gather_stamps`) and handed over as header and payload
(`deliver_gather`), or kept in a ring as a framed record (`queued_framed`). The round trip takes
both ways of writing to both ways of reading, and says what a body too short for its header is.
-/

namespace Rant.Patterns

open Rant.Lib
open Rant.Node
open Rant.Transport (Topic Alloc WriterSample gather storeSlot writerTooBig timestampBytes captureBytes)

/-- `RANT_CALL_MSG_MAX`. -/
def callMsgMax : Nat := 255

/-- `RANT__FN_PREFIX`, `RANT__PRG_PREFIX`, `RANT__OBS_PREFIX`, `RANT__VAR_PREFIX` and `RANT__SET_PREFIX`. -/
def fnPrefixBytes : Nat := 5
def prgPrefixBytes : Nat := 8
def obsPrefixBytes : Nat := 18
def varPrefixBytes : Nat := 5
def setPrefixBytes : Nat := 1

/-- `i_rant_func_rsp_hdr`. -/
def funcRspHdr (callId : Nat) (status : UInt8) (message : QBytes) : QBytes :=
  let ml := min message.length callMsgMax
  writeLe 4 callId ++ [status] ++ UInt8.ofNat ml :: message.take ml

/-- `i_rant_obs_put`. -/
def obsPut (s : QBytes) : QBytes :=
  let l := min s.length 255
  UInt8.ofNat l :: s.take l

/-- What a pattern sends, by its channel. -/
inductive PatternSend
  | plain
  | request (task : Bool) (callId : Nat) (op : UInt8)
  | response (task : Bool) (callId : Nat) (status : UInt8) (message : QBytes)
  | progress (callerLo callId : Nat)
  | value (forced : Bool) (writeSeq : Nat)
  | set (op : UInt8)
  | observe (callerLo callId : Nat) (event status : UInt8) (schemaHash : Nat) (name text : QBytes)

namespace PatternSend

/-- The handle of the channel. -/
def handle : PatternSend → TopicHandle
  | plain => ⟨0, 0⟩
  | request task _ _ => ⟨if task then kindTaskReq else kindFuncReq, fnPrefixBytes⟩
  | response task _ _ _ => ⟨if task then kindTaskRsp else kindFuncRsp, fnPrefixBytes⟩
  | progress _ _ => ⟨kindTaskPrg, prgPrefixBytes⟩
  | value _ _ => ⟨kindVariable, varPrefixBytes⟩
  | set _ => ⟨kindVarSet, setPrefixBytes⟩
  | observe .. => ⟨kindCallObs, obsPrefixBytes⟩

/-- The texts of an observer's report, behind its fixed prefix. -/
def texts : PatternSend → QBytes
  | observe _ _ _ _ _ name text => obsPut name ++ obsPut text
  | _ => []

/-- The header as the split takes it. -/
def taken : PatternSend → QBytes
  | plain => []
  | request _ callId op => writeLe 4 callId ++ [op]
  | response _ callId status message => funcRspHdr callId status message
  | progress callerLo callId => writeLe 4 callerLo ++ writeLe 4 callId
  | value forced writeSeq => UInt8.ofNat (if forced then 1 else 0) :: writeLe 4 writeSeq
  | set op => [op]
  | observe callerLo callId event status schemaHash _ _ =>
    writeLe 4 callerLo ++ writeLe 4 callId ++ [event, status] ++ writeLe 8 schemaHash

/-- The header as it is sent. -/
def hdr (p : PatternSend) : QBytes := p.taken ++ p.texts

end PatternSend

/-- `i_rant_obs_run`, the texts and the data of a report. -/
def obsTexts (data : QBytes) : Option (QBytes × QBytes × QBytes) := do
  if data.length < 2 then none
  else
    let nl ← data[0]?.map UInt8.toNat
    if data.length < 2 + nl then none
    else
      let tl ← data[1 + nl]?.map UInt8.toNat
      if data.length < 2 + nl + tl then none
      else
        let name ← sliceIn data 1 nl
        let text ← sliceIn data (2 + nl) tl
        let rest ← sliceIn data (2 + nl + tl) (data.length - 2 - nl - tl)
        some (name, text, rest)

/-! ## The headers split as they were put together -/

/-- A length byte and as many bytes. -/
theorem lengthPut (s : QBytes) : obsPut s = UInt8.ofNat (s.take 255).length :: s.take 255 ∧ (s.take 255).length ≤ 255 := by
  have hlen : (s.take 255).length = min s.length 255 := by
    rw [List.length_take, Nat.min_comm]
  have htake : s.take (min s.length 255) = s.take 255 := by
    rw [Nat.min_comm, ← List.take_take, List.take_length]
  refine ⟨?_, hlen ▸ Nat.min_le_right _ _⟩
  show UInt8.ofNat (min s.length 255) :: s.take (min s.length 255) = _
  rw [htake, hlen]

theorem taken_heads (p : PatternSend) : p.handle.Heads p.taken := by
  unfold TopicHandle.Heads
  cases p with
  | plain => exact rfl
  | request task callId op =>
    have hkind : (PatternSend.request task callId op).handle.prefixString = false := by
      cases task <;> rfl
    rw [if_neg fun h => Bool.false_ne_true (hkind.symm.trans h.1)]
    show (writeLe 4 callId ++ [op]).length = 5
    rw [List.length_append, length_writeLe]
    rfl
  | response task callId status message =>
    have hkind : (PatternSend.response task callId status message).handle.prefixString = true := by
      cases task <;> rfl
    obtain ⟨hput, hshort⟩ := lengthPut message
    rw [if_pos ⟨hkind, Nat.succ_ne_zero 4⟩]
    refine ⟨writeLe 4 callId ++ [status], message.take 255, ?_, hshort, ?_⟩
    · rw [List.length_append, length_writeLe]
      rfl
    · show writeLe 4 callId ++ [status] ++ obsPut message = _
      rw [hput]
  | progress callerLo callId =>
    show (writeLe 4 callerLo ++ writeLe 4 callId).length = 8
    rw [List.length_append, length_writeLe, length_writeLe]
  | value forced writeSeq =>
    show (writeLe 4 writeSeq).length + 1 = 5
    rw [length_writeLe]
  | set op => exact rfl
  | observe callerLo callId event status schemaHash name text =>
    show (writeLe 4 callerLo ++ writeLe 4 callId ++ [event, status] ++ writeLe 8 schemaHash).length = 18
    simp only [List.length_append, length_writeLe, List.length_cons, List.length_nil]

/-- The report's reader gets the texts and the data back. -/
theorem obsTexts_put (name text data : QBytes) :
    obsTexts (obsPut name ++ obsPut text ++ data) = some (name.take 255, text.take 255, data) := by
  obtain ⟨hname, hnl⟩ := lengthPut name
  obtain ⟨htext, htl⟩ := lengthPut text
  generalize name.take 255 = n at hname hnl ⊢
  generalize text.take 255 = x at htext htl ⊢
  rw [hname, htext]
  have hbyte : ∀ k ≤ 255, (UInt8.ofNat k).toNat = k := by
    intro k hk
    rw [UInt8.toNat_ofNat']
    exact Nat.mod_eq_of_lt (Nat.lt_succ_of_le hk)
  have hshape : UInt8.ofNat n.length :: n ++ UInt8.ofNat x.length :: x ++ data =
      [UInt8.ofNat n.length] ++ (n ++ (UInt8.ofNat x.length :: x ++ data)) := by
    simp only [List.cons_append, List.append_assoc, List.nil_append]
  have hlen : (UInt8.ofNat n.length :: n ++ UInt8.ofNat x.length :: x ++ data).length =
      2 + n.length + x.length + data.length := by
    simp only [List.length_append, List.length_cons]
    omega
  have hfirst : (UInt8.ofNat n.length :: n ++ UInt8.ofNat x.length :: x ++ data)[0]? = some (UInt8.ofNat n.length) := rfl
  have hsecond : (UInt8.ofNat n.length :: n ++ UInt8.ofNat x.length :: x ++ data)[1 + n.length]? =
      some (UInt8.ofNat x.length) := by
    rw [hshape, List.getElem?_append_right (Nat.le_add_right 1 _), List.length_singleton, Nat.add_sub_cancel_left,
      List.getElem?_append_right (Nat.le_refl _), Nat.sub_self]
    rfl
  have hnslice : sliceIn (UInt8.ofNat n.length :: n ++ UInt8.ofNat x.length :: x ++ data) 1 n.length = some n := by
    rw [sliceIn_inside (by omega), hshape]
    unfold slice
    rw [show List.drop 1 ([UInt8.ofNat n.length] ++ (n ++ (UInt8.ofNat x.length :: x ++ data))) =
      n ++ (UInt8.ofNat x.length :: x ++ data) from rfl, List.take_left]
  have hxslice : sliceIn (UInt8.ofNat n.length :: n ++ UInt8.ofNat x.length :: x ++ data) (2 + n.length) x.length =
      some x := by
    rw [sliceIn_inside (by omega)]
    unfold slice
    have hdrop : (UInt8.ofNat n.length :: n ++ UInt8.ofNat x.length :: x ++ data).drop (2 + n.length) = x ++ data := by
      have hpre : (UInt8.ofNat n.length :: n ++ [UInt8.ofNat x.length]).length = 2 + n.length := by
        simp only [List.length_append, List.length_cons, List.length_nil]
        omega
      have hsplit : UInt8.ofNat n.length :: n ++ UInt8.ofNat x.length :: x ++ data =
          (UInt8.ofNat n.length :: n ++ [UInt8.ofNat x.length]) ++ (x ++ data) := by
        simp only [List.cons_append, List.append_assoc, List.nil_append]
      rw [hsplit, ← hpre, List.drop_left]
    rw [hdrop, List.take_left]
  have hrest : sliceIn (UInt8.ofNat n.length :: n ++ UInt8.ofNat x.length :: x ++ data) (2 + n.length + x.length)
      ((UInt8.ofNat n.length :: n ++ UInt8.ofNat x.length :: x ++ data).length - 2 - n.length - x.length) =
      some data := by
    refine sliceIn_last ?_ ?_
    · simp only [List.length_append, List.length_cons]
      omega
    · rw [hlen]
      omega
  unfold obsTexts
  rw [if_neg (by omega), hfirst]
  simp only [Option.map_some, Option.bind_eq_bind, Option.bind_some, hbyte _ hnl, hsecond, hbyte _ htl, hnslice, hxslice,
    hrest]
  rw [if_neg (by omega), if_neg (by omega)]

/-! ## The round trip -/

/-- What the receiver is handed of a send. -/
def framed (t : Topic) (p : PatternSend) (data : QBytes) (captureUs sourceUs : Nat) : FramedMsg :=
  ⟨p.taken, p.texts ++ data, sentWritten t sourceUs, sentCapture t captureUs⟩

theorem gather_stamps (t : Topic) (p : PatternSend) (data : QBytes) (captureUs sourceUs : Nat) :
    gather t p.hdr data captureUs sourceUs = stamps t captureUs sourceUs ++ (p.taken ++ (p.texts ++ data)) := by
  rw [gather_eq]
  unfold PatternSend.hdr
  simp only [List.append_assoc]

/-- A body within a sample's bound. -/
theorem body_short {t : Topic} {p : PatternSend} {data : QBytes} {captureUs sourceUs frag : Nat} (hfrag : frag < 2 ^ 16)
    (hbig : ¬writerTooBig frag (gather t p.hdr data captureUs sourceUs).length) :
    (p.hdr ++ data).length + 2 ^ 16 < 2 ^ 32 := by
  have hbody : (p.hdr ++ data).length ≤ (gather t p.hdr data captureUs sourceUs).length := by
    rw [gather_eq, List.append_assoc]
    exact Nat.le_add_left _ _ |>.trans (Nat.le_of_eq List.length_append.symm)
  have hbound := Nat.mul_le_mul_left 65535 (Nat.le_of_lt_succ hfrag)
  unfold writerTooBig at hbig
  omega

theorem deliver_gather {t : Topic} {p : PatternSend} {data : QBytes} {captureUs sourceUs frag : Nat}
    (hcap : captureUs < 2 ^ 64) (hfrag : frag < 2 ^ 16)
    (hbig : ¬writerTooBig frag (gather t p.hdr data captureUs sourceUs).length) :
    deliverMsg p.handle (gather t p.hdr data captureUs sourceUs) (decide (t.tsBytes ≠ 0)) =
      some (framed t p data captureUs sourceUs) := by
  have hshort := body_short hfrag hbig
  have hlen : (p.taken ++ (p.texts ++ data)).length < 2 ^ 32 := by
    rw [← List.append_assoc]
    exact (Nat.le_add_right _ _).trans_lt hshort
  unfold deliverMsg
  rw [gather_stamps, stripTs_stamps t sourceUs hcap]
  simp only [Option.bind_eq_bind, Option.bind_some]
  rw [split_heads (taken_heads p) hlen]
  rfl

/-- The record of the queue: the body as it was pushed, the stamps beside it. -/
theorem queued_framed {t : Topic} {p : PatternSend} {data : QBytes} {captureUs sourceUs : Nat} {q : MsgQueue}
    {r : QPut} {off : Nat} (hcap : captureUs < 2 ^ 64) (hshort : (p.hdr ++ data).length + 2 ^ 16 < 2 ^ 32)
    (hbody : r.hdr ++ r.data = p.hdr ++ data) (hwritten : r.writtenUs = sentWritten t sourceUs)
    (hcapture : r.captureUs = sentCapture t captureUs) (hkind : r.kind < 128) (hfits : off + r.need ≤ q.cap) :
    queueMsg p.handle (slice (q.put r off).buf off r.need) = some (framed t p data captureUs sourceUs) := by
  have hlen : r.hdr.length + r.data.length = (p.hdr ++ data).length := by
    rw [← hbody, List.length_append]
  have hsized : r.Sized := by
    have hoff := r.payloadOff_bounds
    have hname := r.recName_le
    unfold QPut.Sized
    unfold qRecHead nodeNameMax at *
    omega
  obtain ⟨-, -, -, hrec⟩ := put_record (q := q) hsized hfits
  have hsynth : recSynth (r.kind % 2 ^ 8) = false := by
    rw [Nat.mod_eq_of_lt (hkind.trans (by decide))]
    exact Nat.testBit_lt_two_pow hkind
  have hw : r.writtenUs % 2 ^ 64 = sentWritten t sourceUs := by
    rw [hwritten]
    refine Nat.mod_eq_of_lt ?_
    unfold sentWritten
    split
    · exact Nat.two_pow_pos 64
    · exact (Nat.mod_lt _ (Nat.two_pow_pos 63)).trans_le (Nat.pow_le_pow_right Nat.two_pos (Nat.le_succ 63))
  have hc : r.captureUs % 2 ^ 64 = sentCapture t captureUs := by
    rw [hcapture]
    refine Nat.mod_eq_of_lt ?_
    unfold sentCapture
    split
    · exact Nat.two_pow_pos 64
    · exact hcap
  have hdata : (qRecOf (slice (q.put r off).buf off r.need)).data = p.taken ++ (p.texts ++ data) := by
    rw [hrec]
    show r.hdr ++ r.data = _
    rw [hbody]
    unfold PatternSend.hdr
    rw [List.append_assoc]
  have hshort' : (p.taken ++ (p.texts ++ data)).length < 2 ^ 32 := by
    rw [← List.append_assoc]
    exact (Nat.le_add_right _ _).trans_lt hshort
  unfold queueMsg
  dsimp only
  rw [hdata, split_heads (taken_heads p) hshort', hrec]
  show (if recSynth (r.kind % 2 ^ 8) = true then _ else _) = _
  rw [if_neg (by rw [hsynth]; exact Bool.false_ne_true)]
  show some (FramedMsg.mk _ _ (r.writtenUs % 2 ^ 64) (r.captureUs % 2 ^ 64)) = _
  rw [hw, hc]
  rfl

/-- A sample is framed alike by both writers and taken apart alike by both readers: stamps, header and
payload come back, a report's texts in front of its data. Any other bytes are only cut. -/
theorem framing_round_trip :
    (∀ (t : Topic) (p : PatternSend) (data : QBytes) (captureUs sourceUs frag : Nat) (al : Alloc) (slot : WriterSample),
      captureUs < 2 ^ 64 → frag < 2 ^ 16 → ¬writerTooBig frag (gather t p.hdr data captureUs sourceUs).length →
      ((storeSlot al slot (gather t p.hdr data captureUs sourceUs)).buf.take
          (gather t p.hdr data captureUs sourceUs).length = gather t p.hdr data captureUs sourceUs ∧
        ∀ chunk : QBytes, (gather t p.hdr data captureUs sourceUs).length ≤ chunk.length →
          (shmGather chunk t p.hdr data captureUs sourceUs).take (gather t p.hdr data captureUs sourceUs).length =
            gather t p.hdr data captureUs sourceUs) ∧
      deliverMsg p.handle (gather t p.hdr data captureUs sourceUs) (decide (t.tsBytes ≠ 0)) =
        some (framed t p data captureUs sourceUs) ∧
      (∀ (q : MsgQueue) (r : QPut) (off : Nat), r.hdr ++ r.data = p.hdr ++ data →
        r.writtenUs = sentWritten t sourceUs → r.captureUs = sentCapture t captureUs → r.kind < 128 →
        off + r.need ≤ q.cap →
        queueMsg p.handle (slice (q.put r off).buf off r.need) = some (framed t p data captureUs sourceUs)) ∧
      (p.handle.kind ≠ kindCallObs → p.taken = p.hdr ∧ p.texts = [] ) ∧
      ∀ (callerLo callId : Nat) (event status : UInt8) (schemaHash : Nat) (name text : QBytes),
        p = .observe callerLo callId event status schemaHash name text →
        p.taken.length = obsPrefixBytes ∧
          obsTexts (framed t p data captureUs sourceUs).data = some (name.take 255, text.take 255, data)) ∧
    ∀ (h : TopicHandle) (wire : QBytes) (stamped : Bool),
      (∃ s front, stripTs wire stamped = some s ∧ wire = front ++ s.body ∧
        (front.length = 0 ∨ front.length = timestampBytes ∨ front.length = timestampBytes + captureBytes)) ∧
      ∃ hdr payload, split h wire = some (hdr, payload) ∧ wire = hdr ++ payload := by
  refine ⟨fun t p data captureUs sourceUs frag al slot hcap hfrag hbig => ⟨⟨?_, fun chunk hchunk => ?_⟩, ?_, ?_, ?_, ?_⟩,
    fun h wire stamped => ⟨stripTs_total wire stamped, split_total h wire⟩⟩
  · exact Fragment.take_writeAt_zero
  · exact shmGather_eq chunk t p.hdr data captureUs sourceUs hchunk
  · exact deliver_gather hcap hfrag hbig
  · intro q r off hbody hwritten hcapture hkind hfits
    exact queued_framed hcap (body_short hfrag hbig) hbody hwritten hcapture hkind hfits
  · intro hobs
    have htexts : p.texts = [] := by
      cases p with
      | observe => exact absurd rfl hobs
      | _ => rfl
    refine ⟨?_, htexts⟩
    unfold PatternSend.hdr
    rw [htexts, List.append_nil]
  · rintro callerLo callId event status schemaHash name text rfl
    refine ⟨?_, ?_⟩
    · have hheads := taken_heads (.observe callerLo callId event status schemaHash name text)
      exact hheads
    · exact obsTexts_put name text data

/-- A report of a caller named `a`: the texts of its header come in front of the payload. -/
theorem report_texts_left : ¬∀ (t : Topic) (p : PatternSend) (data : QBytes) (captureUs sourceUs : Nat),
    deliverMsg p.handle (gather t p.hdr data captureUs sourceUs) (decide (t.tsBytes ≠ 0)) =
      some ⟨p.hdr, data, sentWritten t sourceUs, sentCapture t captureUs⟩ := by
  intro h
  have hone := h .undefined (.observe 1 2 0 0 0 [97] []) [7] 0 5
  exact absurd hone (by decide +kernel)

/-- A response with a text, on a stamped topic. -/
theorem framing_round_trip_one :
    deliverMsg (PatternSend.response false 7 1 [110, 111]).handle
        (gather .undefined (PatternSend.response false 7 1 [110, 111]).hdr [9] 3 5)
        (decide (Topic.undefined.tsBytes ≠ 0)) =
      some (framed .undefined (.response false 7 1 [110, 111]) [9] 3 5) :=
  (framing_round_trip.1 .undefined (.response false 7 1 [110, 111]) [9] 3 5 1350
    {} .empty (by decide +kernel) (by decide) (by decide +kernel)).2.1

end Rant.Patterns
