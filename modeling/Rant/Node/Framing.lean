import Rant.Node.QueuePush
import Rant.Transport.Writer
/-!
# Sample framing

`src/node/runtime.c` and `src/transport/writer.c`: a sample on the wire is its stamp, its capture slot,
the pattern header and the payload. The inline commit (`gather`) and the shared memory publish write
it, `i_rant_node_strip_ts` and `i_rant_node_split` take it apart, at delivery and again when a parked
record is dispatched. The reads are checked: `none` is a read outside the bytes.
-/

namespace Rant.Node

open Rant.Lib
open Rant.Lib.Fragment (writeAt length_writeAt take_writeAt_zero take_writeAt_next)
open Rant.Transport (Topic Alloc WriterSample gather le64 storeSlot writerTooBig timestampBytes captureBytes)

/-- The topic handle, as the split reads it. -/
structure TopicHandle where
  kind : Nat
  prefixBytes : Nat

/-- `prefix_string`: a response prefix is followed by a length and a text. -/
def TopicHandle.prefixString (h : TopicHandle) : Bool := decide (h.kind = 2) || decide (h.kind = 7)

/-- A view of `len` bytes at `off`. -/
def sliceIn (m : QBytes) (off len : Nat) : Option QBytes :=
  if off + len ≤ m.length then some (slice m off len) else none

/-- A sample without its stamps. -/
structure Stripped where
  body : QBytes
  writtenUs : Nat := 0
  captureUs : Nat := 0
  deriving DecidableEq, Repr

/-- `i_rant_node_strip_ts`. -/
def stripTs (wire : QBytes) (stamped : Bool) : Option Stripped :=
  if stamped = false ∨ wire.length < timestampBytes then some ⟨wire, 0, 0⟩
  else do
    let w ← readLe wire 0 8
    if w < 2 ^ 63 then
      let body ← sliceIn wire timestampBytes (wire.length - timestampBytes)
      some ⟨body, w % 2 ^ 63, 0⟩
    else if wire.length < timestampBytes + captureBytes then       -- malformed, kept whole
      some ⟨wire, w % 2 ^ 63, 0⟩
    else
      let capture ← readLe wire timestampBytes 8
      let body ← sliceIn wire (timestampBytes + captureBytes)
        (wire.length - timestampBytes - captureBytes)
      some ⟨body, w % 2 ^ 63, capture⟩

/-- The bytes of the header of a delivered wire. -/
def splitAt (h : TopicHandle) (wire : QBytes) : Option Nat :=
  let pfx := if h.prefixBytes ≤ wire.length % 2 ^ 32 then h.prefixBytes else 0
  if pfx ≠ 0 ∧ h.prefixString = true ∧ pfx < wire.length then
    wire[pfx]?.map fun ml => pfx + 1 + min ml.toNat (wire.length - pfx - 1)
  else some pfx

/-- `i_rant_node_split`: header and payload. -/
def split (h : TopicHandle) (wire : QBytes) : Option (QBytes × QBytes) := do
  let pfx ← splitAt h wire
  let hdr ← sliceIn wire 0 pfx
  let payload ← sliceIn wire pfx (wire.length - pfx)
  some (hdr, payload)

/-- A message as the application is handed it. -/
structure FramedMsg where
  header : QBytes
  data : QBytes
  writtenUs : Nat
  captureUs : Nat
  deriving DecidableEq, Repr

/-- `i_rant_node_deliver`, up to the message of an inline delivery. -/
def deliverMsg (h : TopicHandle) (wire : QBytes) (stamped : Bool) : Option FramedMsg := do
  let s ← stripTs wire stamped
  let (hdr, payload) ← split h s.body
  some ⟨hdr, payload, s.writtenUs, s.captureUs⟩

/-- `I_RANT_REC_SYNTH`. -/
def recSynth (kind : Nat) : Bool := kind.testBit 7

/-- `i_rant_node_queue_msg` of the record with these bytes. -/
def queueMsg (h : TopicHandle) (r : QBytes) : Option FramedMsg :=
  let rec' := qRecOf r
  if recSynth rec'.kind then some ⟨[], rec'.data, rec'.tWrittenUs, rec'.tCaptureUs⟩
  else (split h rec'.data).map fun s => ⟨s.1, s.2, rec'.tWrittenUs, rec'.tCaptureUs⟩

/-- The gather of the shared memory publish into the chunk `m`. -/
def shmGather (m : QBytes) (t : Topic) (hdr data : QBytes) (captureUs wallUs : Nat) : QBytes :=
  let tsBytes := t.tsBytes
  let capBytes := if tsBytes ≠ 0 ∧ captureUs ≠ 0 then captureBytes else 0
  let m :=
    if tsBytes ≠ 0 then
      let w := wallUs % 2 ^ 63
      let w := if capBytes ≠ 0 then w + 2 ^ 63 else w
      let m := writeAt m 0 (le64 w)
      if capBytes ≠ 0 then writeAt m tsBytes (le64 captureUs) else m
    else m
  let m := if hdr.length ≠ 0 then writeAt m (tsBytes + capBytes) hdr else m
  writeAt m (tsBytes + capBytes + hdr.length) data

/-! ## What is written -/

theorem le64_eq (x : Nat) : le64 x = writeLe 8 x := by
  have hbyte : ∀ n : Nat, UInt8.ofNat (n % 256) = UInt8.ofNat n := by
    intro n
    refine UInt8.toNat_inj.mp ?_
    rw [UInt8.toNat_ofNat', UInt8.toNat_ofNat']
    exact Nat.mod_mod n 256
  have hbytes : ∀ n v : Nat, ((List.range n).map fun i => UInt8.ofNat (v / 256 ^ i)) = writeLe n v := by
    intro n
    induction n with
    | zero => exact fun _ => rfl
    | succ n ih =>
      intro v
      rw [List.range_succ_eq_map, List.map_cons, List.map_map, Nat.pow_zero, Nat.div_one]
      show _ = UInt8.ofNat (v % 256) :: writeLe n (v / 256)
      rw [hbyte, ← ih]
      congr 1
      refine List.map_congr_left fun i _ => ?_
      show UInt8.ofNat (v / 256 ^ (i + 1)) = _
      rw [Nat.div_div_eq_div_mul, Nat.pow_succ, Nat.mul_comm]
  exact hbytes 8 x

/-- The stamps of a sample. -/
def stamps (t : Topic) (captureUs sourceUs : Nat) : QBytes :=
  if t.tsBytes = 0 then []
  else if captureUs = 0 then writeLe 8 (sourceUs % 2 ^ 63)
  else writeLe 8 (sourceUs % 2 ^ 63 + 2 ^ 63) ++ writeLe 8 captureUs

theorem gather_eq (t : Topic) (hdr data : QBytes) (captureUs sourceUs : Nat) :
    gather t hdr data captureUs sourceUs = stamps t captureUs sourceUs ++ hdr ++ data := by
  unfold gather stamps
  rw [le64_eq, le64_eq, le64_eq]

/-- The chunk holds what the inline commit stores. -/
theorem shmGather_eq (m : QBytes) (t : Topic) (hdr data : QBytes) (captureUs wallUs : Nat)
    (hfit : (gather t hdr data captureUs wallUs).length ≤ m.length) :
    (shmGather m t hdr data captureUs wallUs).take (gather t hdr data captureUs wallUs).length =
      gather t hdr data captureUs wallUs := by
  rw [gather_eq] at hfit ⊢
  rw [List.length_append, List.length_append] at hfit
  have hts : t.tsBytes = 0 ∨ t.tsBytes = 8 := by
    unfold Topic.tsBytes
    split
    · exact Or.inl rfl
    · exact Or.inr rfl
  -- the stamps first
  obtain ⟨m₁, hm₁⟩ : ∃ m₁ : QBytes, m₁.length = m.length ∧
      m₁.take (stamps t captureUs wallUs).length = stamps t captureUs wallUs ∧
      shmGather m t hdr data captureUs wallUs =
        writeAt (if hdr.length ≠ 0 then writeAt m₁ (stamps t captureUs wallUs).length hdr else m₁)
          ((stamps t captureUs wallUs).length + hdr.length) data := by
    unfold shmGather
    dsimp only
    obtain hts | hts := hts
    · have hstamps : stamps t captureUs wallUs = [] := if_pos hts
      rw [hstamps, hts]
      exact ⟨m, rfl, rfl, rfl⟩
    have hne : t.tsBytes ≠ 0 := by
      rw [hts]
      exact Nat.succ_ne_zero 7
    by_cases hcap : captureUs = 0
    · have hstamps : stamps t captureUs wallUs = writeLe 8 (wallUs % 2 ^ 63) := by
        unfold stamps
        rw [if_neg hne, if_pos hcap]
      rw [hstamps, length_writeLe] at hfit
      have hfirst : 0 + (writeLe 8 (wallUs % 2 ^ 63)).length ≤ m.length := by
        rw [length_writeLe]
        omega
      refine ⟨writeAt m 0 (writeLe 8 (wallUs % 2 ^ 63)), length_writeAt hfirst, ?_, ?_⟩
      · rw [hstamps]
        exact take_writeAt_zero
      · have hcapBytes : (if t.tsBytes ≠ 0 ∧ captureUs ≠ 0 then captureBytes else 0) = 0 :=
          if_neg fun h => h.2 hcap
        rw [hcapBytes, hstamps, hts, le64_eq, length_writeLe]
        rfl
    · have hstamps : stamps t captureUs wallUs =
          writeLe 8 (wallUs % 2 ^ 63 + 2 ^ 63) ++ writeLe 8 captureUs := by
        unfold stamps
        rw [if_neg hne, if_neg hcap]
      rw [hstamps, List.length_append, length_writeLe, length_writeLe] at hfit
      have hfirst : 0 + (writeLe 8 (wallUs % 2 ^ 63 + 2 ^ 63)).length ≤ m.length := by
        rw [length_writeLe]
        omega
      have hl := length_writeAt hfirst
      have hsecond : 8 + (writeLe 8 captureUs).length ≤
          (writeAt m 0 (writeLe 8 (wallUs % 2 ^ 63 + 2 ^ 63))).length := by
        rw [length_writeLe, hl]
        omega
      have htake := @take_writeAt_next _ (writeAt m 0 (writeLe 8 (wallUs % 2 ^ 63 + 2 ^ 63))) (writeLe 8 captureUs) 8
        (by omega)
      have hzero := @take_writeAt_zero _ m (writeLe 8 (wallUs % 2 ^ 63 + 2 ^ 63))
      rw [length_writeLe] at hzero
      rw [hzero, length_writeLe] at htake
      refine ⟨writeAt (writeAt m 0 (writeLe 8 (wallUs % 2 ^ 63 + 2 ^ 63))) 8 (writeLe 8 captureUs),
        (length_writeAt hsecond).trans hl, ?_, ?_⟩
      · rw [hstamps, List.length_append, length_writeLe, length_writeLe]
        exact htake
      · have hcapBytes : (if t.tsBytes ≠ 0 ∧ captureUs ≠ 0 then captureBytes else 0) = captureBytes :=
          if_pos ⟨hne, hcap⟩
        rw [hcapBytes, hstamps, hts, le64_eq, le64_eq, List.length_append, length_writeLe, length_writeLe]
        rfl
  obtain ⟨hlen, htake, heq⟩ := hm₁
  have hhdr : (if hdr.length ≠ 0 then writeAt m₁ (stamps t captureUs wallUs).length hdr else m₁).length = m.length ∧
      (if hdr.length ≠ 0 then writeAt m₁ (stamps t captureUs wallUs).length hdr else m₁).take
        ((stamps t captureUs wallUs).length + hdr.length) = stamps t captureUs wallUs ++ hdr := by
    split
    · exact ⟨(length_writeAt (by omega)).trans hlen, by rw [take_writeAt_next (by omega), htake]⟩
    · rename_i hempty
      have hnil : hdr = [] := List.eq_nil_of_length_eq_zero (Decidable.of_not_not hempty)
      rw [hnil, List.append_nil, List.length_nil, Nat.add_zero]
      exact ⟨hlen, htake⟩
  rw [heq, List.length_append, List.length_append, take_writeAt_next (by omega), hhdr.2]

/-! ## Taking it apart -/

theorem sliceIn_last {pre post : QBytes} {k n : Nat} (hk : pre.length = k) (hn : post.length = n) :
    sliceIn (pre ++ post) k n = some post := by
  unfold sliceIn slice
  rw [if_pos (by rw [List.length_append]; omega), ← hk, List.drop_left, ← hn, List.take_length]

theorem sliceIn_first {pre post : QBytes} {n : Nat} (hn : pre.length = n) :
    sliceIn (pre ++ post) 0 n = some pre := by
  unfold sliceIn slice
  rw [if_pos (by rw [List.length_append]; omega), List.drop_zero, ← hn, List.take_left]

/-- The written stamp of a sample. -/
def sentWritten (t : Topic) (sourceUs : Nat) : Nat := if t.tsBytes = 0 then 0 else sourceUs % 2 ^ 63

/-- The capture stamp of a sample: it rides with the stamp alone. -/
def sentCapture (t : Topic) (captureUs : Nat) : Nat := if t.tsBytes = 0 then 0 else captureUs

theorem word_mod {x : Nat} (hx : x < 2 ^ 64) : x % 256 ^ 8 = x := by
  have hbase : 256 ^ 8 = 2 ^ 64 := by
    rw [show 256 = 2 ^ 8 from rfl, ← Nat.pow_mul]
  rw [hbase]
  exact Nat.mod_eq_of_lt hx

theorem stripTs_stamp {w : Nat} (hw : w < 2 ^ 63) (body : QBytes) :
    stripTs (writeLe 8 w ++ body) true = some ⟨body, w, 0⟩ := by
  have hlen : (writeLe 8 w ++ body).length = timestampBytes + body.length := by
    rw [List.length_append, length_writeLe]
    rfl
  have hread : readLe (writeLe 8 w ++ body) 0 8 = some w := by
    rw [readLe_writeLe, word_mod (hw.trans_le (Nat.pow_le_pow_right Nat.two_pos (Nat.le_succ 63)))]
  have hbody : sliceIn (writeLe 8 w ++ body) timestampBytes
      ((writeLe 8 w ++ body).length - timestampBytes) = some body := by
    refine sliceIn_last (length_writeLe _ _) ?_
    rw [hlen, Nat.add_sub_cancel_left]
  unfold stripTs
  rw [if_neg, hread, hbody]
  · simp only [Option.bind_eq_bind, Option.bind_some]
    rw [if_pos hw, Nat.mod_eq_of_lt hw]
  · rintro (h | h)
    · exact Bool.false_ne_true h.symm
    · exact Nat.not_lt.mpr (Nat.le_add_right _ _) (hlen ▸ h)

theorem stripTs_both {w c : Nat} (hmark : 2 ^ 63 ≤ w) (hw : w < 2 ^ 64) (hc : c < 2 ^ 64) (body : QBytes) :
    stripTs (writeLe 8 w ++ writeLe 8 c ++ body) true = some ⟨body, w % 2 ^ 63, c⟩ := by
  have hlen : (writeLe 8 w ++ writeLe 8 c ++ body).length = timestampBytes + captureBytes + body.length := by
    rw [List.length_append, List.length_append, length_writeLe, length_writeLe]
    rfl
  have hread : readLe (writeLe 8 w ++ writeLe 8 c ++ body) 0 8 = some w := by
    rw [List.append_assoc, readLe_writeLe, word_mod hw]
  have hcapture : readLe (writeLe 8 w ++ writeLe 8 c ++ body) timestampBytes 8 = some c := by
    have hfield := @readLe_field (writeLe 8 w) 8 8 c body (length_writeLe 8 w)
    rw [word_mod hc] at hfield
    rw [List.append_assoc]
    exact hfield
  have hbody : sliceIn (writeLe 8 w ++ writeLe 8 c ++ body) (timestampBytes + captureBytes)
      ((writeLe 8 w ++ writeLe 8 c ++ body).length - timestampBytes - captureBytes) = some body := by
    refine sliceIn_last ?_ ?_
    · rw [List.length_append, length_writeLe, length_writeLe]
      rfl
    · rw [hlen, Nat.sub_sub, Nat.add_sub_cancel_left]
  have hlong : ¬ (writeLe 8 w ++ writeLe 8 c ++ body).length < timestampBytes + captureBytes := by
    rw [hlen]
    exact Nat.not_lt.mpr (Nat.le_add_right _ _)
  unfold stripTs
  rw [if_neg, hread, hcapture, hbody]
  · simp only [Option.bind_eq_bind, Option.bind_some]
    rw [if_neg (Nat.not_lt.mpr hmark), if_neg hlong]
  · rintro (h | h)
    · exact Bool.false_ne_true h.symm
    · exact hlong (h.trans_le (Nat.le_add_right _ _))

/-- The stamps come off as they were put on. -/
theorem stripTs_stamps (t : Topic) {captureUs : Nat} (sourceUs : Nat) (hcap : captureUs < 2 ^ 64) (body : QBytes) :
    stripTs (stamps t captureUs sourceUs ++ body) (decide (t.tsBytes ≠ 0)) =
      some ⟨body, sentWritten t sourceUs, sentCapture t captureUs⟩ := by
  have hlow : sourceUs % 2 ^ 63 < 2 ^ 63 := Nat.mod_lt _ (Nat.two_pow_pos 63)
  unfold stamps sentWritten sentCapture
  by_cases hts : t.tsBytes = 0
  · rw [if_pos hts, if_pos hts, if_pos hts, decide_eq_false (not_not.mpr hts)]
    exact if_pos (Or.inl rfl)
  rw [if_neg hts, if_neg hts, if_neg hts, decide_eq_true hts]
  by_cases hzero : captureUs = 0
  · rw [if_pos hzero, hzero]
    exact stripTs_stamp hlow body
  · have hmark := Nat.le_add_left (2 ^ 63) (sourceUs % 2 ^ 63)
    have hword : sourceUs % 2 ^ 63 + 2 ^ 63 < 2 ^ 64 := by omega
    rw [if_neg hzero, stripTs_both hmark hword hcap body, Nat.add_mod_right, Nat.mod_mod]

/-- The bytes the split of a handle takes for its header: as many as the prefix has, and the text a
response prefix announces. -/
def TopicHandle.Heads (h : TopicHandle) (hdr : QBytes) : Prop :=
  if h.prefixString = true ∧ h.prefixBytes ≠ 0 then
    ∃ fixed text : QBytes, fixed.length = h.prefixBytes ∧ text.length ≤ 255 ∧
      hdr = fixed ++ UInt8.ofNat text.length :: text
  else hdr.length = h.prefixBytes

theorem splitAt_heads {h : TopicHandle} {hdr rest : QBytes} (hh : h.Heads hdr) (hlen : (hdr ++ rest).length < 2 ^ 32) :
    splitAt h (hdr ++ rest) = some hdr.length := by
  unfold TopicHandle.Heads at hh
  unfold splitAt
  dsimp only
  rw [Nat.mod_eq_of_lt hlen]
  split at hh
  · rename_i hstring
    obtain ⟨fixed, text, hfixed, htext, rfl⟩ := hh
    have hshort : h.prefixBytes < (fixed ++ UInt8.ofNat text.length :: text ++ rest).length := by
      simp only [List.length_append, List.length_cons]
      omega
    have hbyte : (fixed ++ UInt8.ofNat text.length :: text ++ rest)[h.prefixBytes]? =
        some (UInt8.ofNat text.length) := by
      rw [List.append_assoc, List.getElem?_append_right (by omega), hfixed, Nat.sub_self]
      rfl
    have hnum : (UInt8.ofNat text.length).toNat = text.length := by
      rw [UInt8.toNat_ofNat']
      exact Nat.mod_eq_of_lt (by omega)
    rw [if_pos hshort.le, if_pos ⟨hstring.2, hstring.1, hshort⟩, hbyte, Option.map_some, hnum]
    congr 1
    simp only [List.length_append, List.length_cons]
    omega
  · rename_i hplain
    have hle : h.prefixBytes ≤ (hdr ++ rest).length := by
      rw [List.length_append]
      omega
    rw [if_pos hle, if_neg fun hs => hplain ⟨hs.2.1, hs.1⟩, hh]

theorem split_heads {h : TopicHandle} {hdr rest : QBytes} (hh : h.Heads hdr) (hlen : (hdr ++ rest).length < 2 ^ 32) :
    split h (hdr ++ rest) = some (hdr, rest) := by
  have hrest : sliceIn (hdr ++ rest) hdr.length ((hdr ++ rest).length - hdr.length) = some rest := by
    refine sliceIn_last rfl ?_
    rw [List.length_append]
    omega
  unfold split
  rw [splitAt_heads hh hlen]
  simp only [Option.bind_eq_bind, Option.bind_some, hrest, sliceIn_first rfl]

/-! ## Arbitrary bytes -/

theorem sliceIn_inside {m : QBytes} {off len : Nat} (h : off + len ≤ m.length) :
    sliceIn m off len = some (slice m off len) := if_pos h

theorem slice_rest {m : QBytes} {k : Nat} :
    m = m.take k ++ slice m k (m.length - k) := by
  have hall : slice m k (m.length - k) = m.drop k :=
    List.take_of_length_le (Nat.le_of_eq List.length_drop)
  rw [hall, List.take_append_drop]

/-- The strip stays inside the bytes and leaves all that is not a stamp. -/
theorem stripTs_total (wire : QBytes) (stamped : Bool) :
    ∃ s front, stripTs wire stamped = some s ∧ wire = front ++ s.body ∧
      (front.length = 0 ∨ front.length = timestampBytes ∨ front.length = timestampBytes + captureBytes) := by
  unfold stripTs
  split
  · exact ⟨_, [], rfl, rfl, Or.inl rfl⟩
  rename_i hshort
  have hlen : timestampBytes ≤ wire.length := Nat.not_lt.mp fun h => hshort (Or.inr h)
  obtain ⟨w, hw⟩ := @readLe_of_le wire 8 0 ((Nat.zero_add 8).le.trans hlen)
  rw [hw]
  simp only [Option.bind_eq_bind, Option.bind_some]
  split
  · rw [sliceIn_inside (Nat.add_sub_cancel' hlen).le]
    refine ⟨_, wire.take timestampBytes, rfl, slice_rest, Or.inr (Or.inl ?_)⟩
    exact List.length_take_of_le hlen
  split
  · exact ⟨_, [], rfl, rfl, Or.inl rfl⟩
  · rename_i hboth
    have hlong : timestampBytes + captureBytes ≤ wire.length := Nat.not_lt.mp hboth
    obtain ⟨c, hc⟩ := @readLe_of_le wire 8 timestampBytes hlong
    rw [hc, Nat.sub_sub, sliceIn_inside (Nat.add_sub_cancel' hlong).le]
    refine ⟨_, wire.take (timestampBytes + captureBytes), rfl, slice_rest, Or.inr (Or.inr ?_)⟩
    exact List.length_take_of_le hlong

theorem splitAt_total (h : TopicHandle) (wire : QBytes) : ∃ pfx, splitAt h wire = some pfx ∧ pfx ≤ wire.length := by
  have hpfx : (if h.prefixBytes ≤ wire.length % 2 ^ 32 then h.prefixBytes else 0) ≤ wire.length := by
    split
    · rename_i hle
      exact hle.trans (Nat.mod_le _ _)
    · exact Nat.zero_le _
  unfold splitAt
  generalize (if h.prefixBytes ≤ wire.length % 2 ^ 32 then h.prefixBytes else 0) = pfx at hpfx ⊢
  dsimp only
  split
  · rename_i hmore
    rw [List.getElem?_eq_getElem hmore.2.2]
    refine ⟨_, rfl, ?_⟩
    show pfx + 1 + min _ (wire.length - pfx - 1) ≤ wire.length
    omega
  · exact ⟨_, rfl, hpfx⟩

/-- The split stays inside the bytes and leaves all of them. -/
theorem split_total (h : TopicHandle) (wire : QBytes) :
    ∃ hdr payload, split h wire = some (hdr, payload) ∧ wire = hdr ++ payload := by
  obtain ⟨pfx, hpfx, hle⟩ := splitAt_total h wire
  unfold split
  rw [hpfx]
  simp only [Option.bind_eq_bind, Option.bind_some]
  rw [sliceIn_inside ((Nat.zero_add pfx).le.trans hle), sliceIn_inside (Nat.add_sub_cancel' hle).le]
  exact ⟨_, _, rfl, slice_rest⟩

end Rant.Node
